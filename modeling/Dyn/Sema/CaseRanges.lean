import Dyn.Lib.Descent
import Mathlib.Data.BitVec
import Mathlib.Tactic.Ring

/-!
# sema: cases over integers

`integerCaseComplete` decides whether the patterns of a case cover an integer type.  A cursor starts
at the least value; the first pattern that begins at the cursor moves it past the end of the pattern,
until no pattern begins there or one ends at the greatest value.  Patterns that were diagnosed stay
in the list, with the ends that were computed for them.
-/

namespace Dyn.Sema

open Lib

structure DynAstPattern where
  firstValue : BitVec 64
  lastValue : BitVec 64
  isSigned : Bool
deriving DecidableEq, Repr

structure DynAstCaseArm where
  patterns : List DynAstPattern
deriving DecidableEq, Repr

/-- An integer type, by its signedness and its width in bits. -/
structure IntegerType where
  sign : Bool
  width : Nat
  positive : 0 < width
  fits : width ≤ 64

def intervalOverlap (a b : DynAstPattern) : Bool :=
  if a.isSigned then a.firstValue.sle b.lastValue && b.firstValue.sle a.lastValue
  else a.firstValue.ule b.lastValue && b.firstValue.ule a.lastValue

namespace IntegerType

variable (t : IntegerType)

def minimum : BitVec 64 :=
  if t.sign then (if t.width = 64 then BitVec.intMin 64 else -(1#64 <<< (t.width - 1))) else 0

def maximum : BitVec 64 :=
  if t.sign then (if t.width = 64 then BitVec.intMax 64 else 1#64 <<< (t.width - 1) - 1)
  else (if t.width = 64 then BitVec.allOnes 64 else 1#64 <<< t.width - 1)

/-- Where one past the end would wrap around. -/
def limit : BitVec 64 := if t.sign then BitVec.intMax 64 else BitVec.allOnes 64

end IntegerType

/-- The first pattern of the arms that begins at the cursor. -/
def findStart (arms : List DynAstCaseArm) (cursor : BitVec 64) : Option DynAstPattern :=
  arms.findSome? fun arm => arm.patterns.find? fun p => p.firstValue = cursor

inductive CaseTurn where
  | done (complete : Bool)
  | advance (cursor : BitVec 64)
deriving DecidableEq, Repr

def caseTurn (t : IntegerType) (arms : List DynAstCaseArm) (cursor : BitVec 64) : CaseTurn :=
  match findStart arms cursor with
  | none => .done false
  | some found =>
      if found.lastValue = t.maximum then .done true
      else if found.lastValue = t.limit then .done false
      else .advance (found.lastValue + 1)

/-- The loop, as long as it has turns left. -/
def caseLoop (t : IntegerType) (arms : List DynAstCaseArm) : Nat → BitVec 64 → Option Bool
  | 0, _ => none
  | turns + 1, cursor =>
      match caseTurn t arms cursor with
      | .done complete => some complete
      | .advance next => caseLoop t arms turns next

def integerCaseComplete (t : IntegerType) (arms : List DynAstCaseArm) (turns : Nat) : Option Bool :=
  caseLoop t arms turns t.minimum

namespace IntegerType

variable (t : IntegerType)

def value (x : BitVec 64) : Int := if t.sign then x.toInt else x.toNat

def least : Int := if t.sign then -2 ^ (t.width - 1) else 0

def greatest : Int := if t.sign then 2 ^ (t.width - 1) - 1 else 2 ^ t.width - 1

end IntegerType

def casePatterns (arms : List DynAstCaseArm) : List DynAstPattern := arms.flatMap (·.patterns)

/-- The patterns are nonempty intervals of the type that do not overlap. -/
structure Intervals (t : IntegerType) (arms : List DynAstCaseArm) : Prop where
  signs : ∀ p ∈ casePatterns arms, p.isSigned = t.sign
  inside : ∀ p ∈ casePatterns arms, t.least ≤ t.value p.firstValue ∧ t.value p.lastValue ≤ t.greatest
  nonempty : ∀ p ∈ casePatterns arms, t.value p.firstValue ≤ t.value p.lastValue
  disjoint : (casePatterns arms).Pairwise fun p q => intervalOverlap p q = false

def Within (t : IntegerType) (p : DynAstPattern) (x : Int) : Prop :=
  t.value p.firstValue ≤ x ∧ x ≤ t.value p.lastValue

/-- Every value of the type lies in some pattern. -/
def Covers (t : IntegerType) (arms : List DynAstCaseArm) : Prop :=
  ∀ x, t.least ≤ x → x ≤ t.greatest → ∃ p ∈ casePatterns arms, Within t p x

/-- The first pattern that begins at `a` ends right before `b`, and does not end the test. -/
def Follows (t : IntegerType) (arms : List DynAstCaseArm) (a b : BitVec 64) : Prop :=
  ∃ p, findStart arms a = some p ∧ p.lastValue ≠ t.maximum ∧ p.lastValue ≠ t.limit ∧ b = p.lastValue + 1

/-- Patterns that lead from the least value of the type into a circle. -/
def Circles (t : IntegerType) (arms : List DynAstCaseArm) : Prop :=
  ∃ c, Relation.ReflTransGen (Follows t arms) t.minimum c ∧ Relation.TransGen (Follows t arms) c c

/-- From the least value of the type on, each pattern beginning right behind the one before it, the
patterns come to this one. -/
def Arrives (t : IntegerType) (arms : List DynAstCaseArm) (p : DynAstPattern) : Prop :=
  ∃ c, Relation.ReflTransGen (Follows t arms) t.minimum c ∧ findStart arms c = some p

def Empty (t : IntegerType) (p : DynAstPattern) : Prop := t.value p.lastValue < t.value p.firstValue

end Dyn.Sema
