import Shooting.Manifold

/-! # Expressions

Scalar functions of a state and a control, as trees.
-/

namespace Shooting

inductive Elementary
  | sin
  | cos
  | exp
  | log
  | sqrt
  | tanh
deriving DecidableEq

inductive Expr (α : Type)
  | const (c : α)
  | state (i : Nat)
  | control (j : Nat)
  | neg (a : Expr α)
  | add (a b : Expr α)
  | sub (a b : Expr α)
  | mul (a b : Expr α)
  | div (a b : Expr α)
  | pow (a : Expr α) (k : Nat)
  | apply (f : Elementary) (a : Expr α)
  | atan2 (y x : Expr α)

variable {α : Type} [Scalar α]

def Elementary.eval : Elementary → α → α
  | sin => Scalar.sin
  | cos => Scalar.cos
  | exp => Scalar.exp
  | log => Scalar.log
  | sqrt => Scalar.sqrt
  | tanh => Scalar.tanh

namespace Expr

def eval (x u : Vec α) : Expr α → α
  | const c => c
  | state i => x.coord i
  | control j => u.coord j
  | neg a => -a.eval x u
  | add a b => a.eval x u + b.eval x u
  | sub a b => a.eval x u - b.eval x u
  | mul a b => a.eval x u * b.eval x u
  | div a b => a.eval x u / b.eval x u
  | pow a k => Scalar.power (a.eval x u) k
  | apply f a => f.eval (a.eval x u)
  | atan2 a b => Scalar.atan2 (a.eval x u) (b.eval x u)

end Expr
end Shooting
