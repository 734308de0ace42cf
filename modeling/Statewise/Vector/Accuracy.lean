import Statewise.Number.Decimal

/-!
# Accuracy and tolerance

How far a computed number can be trusted, and when two numbers count as close.
-/

namespace Statewise

inductive AccuracyLevel where
  | exact | bounded | estimatedBounded | probably
deriving DecidableEq, Repr, Inhabited

namespace AccuracyLevel

def all : List AccuracyLevel := [exact, bounded, estimatedBounded, probably]

def keyword : AccuracyLevel → String
  | exact => "exact"
  | bounded => "bounded"
  | estimatedBounded => "estimated_bounded"
  | probably => "probably"

def ofKeyword? (s : String) : Option AccuracyLevel := all.find? (·.keyword == s)

end AccuracyLevel

structure Accuracy where
  level : AccuracyLevel
  errorBound : Float
  /-- Whether the bound is on the difference itself and not on its ratio to the value. -/
  absolute : Bool
deriving DecidableEq, Inhabited

namespace Accuracy

def exact : Accuracy := ⟨.exact, 0.0, true⟩

def text (a : Accuracy) : String :=
  let bound := "+/- " ++ a.errorBound.scientific ++ if a.absolute then "" else " relative"
  match a.level with
  | .exact => "exact"
  | .bounded => bound
  | .estimatedBounded => bound ++ " estimated"
  | .probably => bound ++ " with high probability"

/-- Equality with the bounds compared as numbers. -/
def agrees (a b : Accuracy) : Bool :=
  a.level == b.level && a.errorBound == b.errorBound && a.absolute == b.absolute

end Accuracy

structure Tolerance where
  epsilon : Float := 1e-5
  absolute : Bool := false
deriving DecidableEq, Inhabited

/-- Equal numbers are close, and otherwise only finite ones. The relative difference to zero is the
difference itself. -/
def Tolerance.close (t : Tolerance) (a b : Float) : Bool :=
  if a == b then true
  else if !a.isFinite || !b.isFinite then false
  else
    let difference := (a - b).abs
    if t.absolute || a == 0.0 then difference < t.epsilon else difference / a.abs < t.epsilon

end Statewise
