import Shooting.Linear.Vec

/-! # Numeric arrays of any rank

What a caller may hand over as a state or a control before its shape has been checked.
-/

namespace Shooting

/-- The extents of an array, outermost first; a bare number has none. -/
abbrev Shape := List Nat

def Shape.text : Shape → String
  | [n] => "(" ++ toString n ++ ",)"
  | s => "(" ++ ", ".intercalate (s.map toString) ++ ")"

/-- An array with its entries in row-major order. -/
structure Tensor (α : Type) where
  shape : Shape
  entries : List α

namespace Tensor
variable {α : Type}

def scalar (a : α) : Tensor α := ⟨[], [a]⟩

def ofVec (v : Vec α) : Tensor α := ⟨[v.length], v⟩

def stack (ts : List (Tensor α)) : Tensor α :=
  ⟨ts.length :: (ts.head?.map (·.shape)).getD [], ts.flatMap (·.entries)⟩

end Tensor
end Shooting
