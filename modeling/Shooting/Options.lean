import Shooting.Enumeration
import Shooting.Scalar

/-! # Options

What a caller can set when a solver is built, and the range of every setting.
-/

namespace Shooting

inductive Verbosity
  | silent
  | outer
  | inner
  | lineSearch
deriving DecidableEq

def Verbosity.level : Verbosity → Nat
  | silent => 0
  | outer => 1
  | inner => 2
  | lineSearch => 3

instance : Enumeration Verbosity where
  title := "Verbosity"
  members := [.silent, .outer, .inner, .lineSearch]
  name
    | .silent => "SILENT"
    | .outer => "OUTER"
    | .inner => "INNER"
    | .lineSearch => "LINE_SEARCH"
  label v := .number v.level

structure Options (α : Type) where
  regFactor : α
  regMin : α
  regMax : α
  /-- First order improvement below which any step is accepted. -/
  gradThreshold : α
  /-- Step length above which the damping is lowered. -/
  stepThreshold : α
  /-- Share of the predicted decrease that a step has to reach. -/
  acceptRatio : α
  /-- Squared residual below which the iteration has converged. -/
  stopThreshold : α
  alphas : List α
  verbosity : Verbosity

variable {α : Type} [Scalar α]

def halvingsFrom (power : α) : Nat → Except Fault (List α)
  | 0 => .ok []
  | n + 1 =>
    if Scalar.isFinite power then (halvingsFrom (power * (1 + 1)) n).map (1 / power :: ·)
    else .error .stepUnderflow

/-- The first `n` of the step lengths `1, 1/2, 1/4, …`. There is no schedule without steps, nor one
that goes on past the largest finite power of two. -/
def halvings (n : Int) : Except Fault (List α) :=
  if n ≤ 0 then .error .noSteps else halvingsFrom 1 n.toNat

namespace Options

def strictlyDecreasing : List α → Bool
  | a :: b :: rest => !Scalar.le a b && strictlyDecreasing (b :: rest)
  | _ => true

/-- The first setting out of range. A setting is only refused if a comparison says so. -/
def fault? (o : Options α) : Option Fault.Setting :=
  if Scalar.le o.regFactor 1 then some .regFactor
  else if Scalar.lt o.regMin 0 then some .regMin
  else if Scalar.le o.regMax o.regMin then some .regMax
  else if Scalar.le o.gradThreshold 0 then some .gradThreshold
  else if Scalar.le o.stepThreshold 0 then some .stepThreshold
  else if !(Scalar.lt 0 o.acceptRatio && Scalar.lt o.acceptRatio 1) then some .acceptRatio
  else if Scalar.le o.stopThreshold 0 then some .stopThreshold
  else if o.alphas.isEmpty then some .noStepLength
  else if o.alphas.any fun a => Scalar.le a 0 || Scalar.lt 1 a then some .stepLengthRange
  else if !strictlyDecreasing o.alphas then some .stepLengthOrder
  else none

def check (o : Options α) : Except Fault (Options α) :=
  match o.fault? with
  | some s => .error (.setting s)
  | none => .ok o

def standard : Options Float where
  regFactor := 10.0
  regMin := 1e-9
  regMax := 1e9
  gradThreshold := 1e-12
  stepThreshold := 0.5
  acceptRatio := 0.1
  stopThreshold := 1e-9
  alphas := (List.range 10).map fun n => 1.0 / Scalar.power 2.0 n
  verbosity := .silent

end Options
end Shooting
