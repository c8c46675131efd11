import Dyn.Sema.CaseRanges
import Mathlib.Data.List.Pairwise

/-!
# sema: the coverage of an integer case is exact

Where the patterns are intervals that do not overlap, all values below the cursor are covered, and the
pattern before the cursor keeps any other one from reaching it.  The test ends exactly where the
patterns do not lead from the least value into a circle.
-/

namespace Dyn.Sema

open Lib Relation

namespace IntegerType

variable (t : IntegerType)

theorem shift_toNat {k : Nat} (hk : k < 64) : (1#64 <<< k).toNat = 2 ^ k := by
  have hlt : 2 ^ k < 2 ^ 64 := Nat.pow_lt_pow_right (by decide) hk
  rw [BitVec.toNat_shiftLeft, BitVec.toNat_ofNat, Nat.shiftLeft_eq, Nat.one_mod, Nat.one_mul, Nat.mod_eq_of_lt hlt]

theorem two_pow_le {k n : Nat} (h : k ≤ n) : (2 : Nat) ^ k ≤ 2 ^ n := Nat.pow_le_pow_right (by decide) h

theorem value_minimum : t.value t.minimum = t.least := by
  unfold value minimum least
  cases t.sign with
  | false => rfl
  | true =>
    have hfits := t.fits
    by_cases hfull : t.width = 64
    · simp only [if_true, hfull]
      decide
    have hk : t.width - 1 < 64 := by omega
    have hle := two_pow_le (show t.width - 1 ≤ 62 by omega)
    have hshift := shift_toNat hk
    have hpos : 0 < 2 ^ (t.width - 1) := Nat.two_pow_pos _
    simp only [if_true, if_neg hfull]
    rw [BitVec.toInt_eq_toNat_cond, BitVec.toNat_neg, hshift, Nat.mod_eq_of_lt (by omega), if_neg (by omega)]
    have hroom : 2 ^ (t.width - 1) ≤ 2 ^ 64 := by omega
    rw [Int.ofNat_sub hroom]
    push_cast
    ring

theorem value_maximum : t.value t.maximum = t.greatest := by
  have hfits := t.fits
  have hone : ∀ {k : Nat}, k < 64 → (1#64 <<< k - 1).toNat = 2 ^ k - 1 := fun {k} hk => by
    have hlt : 2 ^ k < 2 ^ 64 := Nat.pow_lt_pow_right (by decide) hk
    have hpos : 0 < 2 ^ k := Nat.two_pow_pos k
    rw [BitVec.toNat_sub, shift_toNat hk]
    change (2 ^ 64 - 1 + 2 ^ k) % 2 ^ 64 = _
    omega
  unfold value maximum greatest
  cases t.sign with
  | false =>
    by_cases hfull : t.width = 64
    · simp only [Bool.false_eq_true, if_false, hfull]
      decide
    have hpos : 0 < 2 ^ t.width := Nat.two_pow_pos _
    simp only [Bool.false_eq_true, if_false, if_neg hfull]
    rw [hone (by omega)]
    push_cast [Nat.cast_sub hpos]
    rfl
  | true =>
    by_cases hfull : t.width = 64
    · simp only [if_true, hfull]
      decide
    have hk : t.width - 1 < 64 := by omega
    have hle := two_pow_le (show t.width - 1 ≤ 62 by omega)
    have hpos : 0 < 2 ^ (t.width - 1) := Nat.two_pow_pos _
    simp only [if_true, if_neg hfull]
    rw [BitVec.toInt_eq_toNat_cond, hone hk, if_pos (by omega)]
    push_cast [Nat.cast_sub hpos]
    rfl

theorem value_injective {x y : BitVec 64} (h : t.value x = t.value y) : x = y := by
  unfold value at h
  split at h
  · exact BitVec.eq_of_toInt_eq h
  · exact BitVec.eq_of_toNat_eq (Int.ofNat.inj h)

theorem value_le_limit (x : BitVec 64) : t.value x ≤ t.value t.limit := by
  unfold value limit
  cases t.sign with
  | false =>
    have hlt := x.isLt
    simp only [Bool.false_eq_true, if_false]
    rw [BitVec.toNat_allOnes]
    omega
  | true =>
    have hlt := BitVec.toInt_lt (x := x)
    simp only [if_true]
    have hmax : (BitVec.intMax 64).toInt = 2 ^ 63 - 1 := by decide
    rw [hmax]
    omega

theorem value_succ {x : BitVec 64} (h : x ≠ t.limit) : t.value (x + 1) = t.value x + 1 := by
  have hne : x.toNat ≠ t.limit.toNat := fun heq => h (BitVec.eq_of_toNat_eq heq)
  unfold value
  unfold limit at hne
  cases hsign : t.sign with
  | false =>
    rw [hsign] at hne
    simp only [Bool.false_eq_true, if_false] at hne ⊢
    rw [BitVec.toNat_allOnes] at hne
    rw [BitVec.toNat_add, show (1 : BitVec 64).toNat = 1 from rfl]
    omega
  | true =>
    rw [hsign] at hne
    simp only [if_true] at hne ⊢
    have hmax : (BitVec.intMax 64).toNat = 2 ^ 63 - 1 := by decide
    rw [hmax] at hne
    rw [BitVec.toInt_eq_toNat_cond, BitVec.toInt_eq_toNat_cond, BitVec.toNat_add,
      show (1 : BitVec 64).toNat = 1 from rfl]
    split <;> split <;> omega

end IntegerType

section

variable {t : IntegerType} {arms : List DynAstCaseArm} {c : BitVec 64}

variable {p : DynAstPattern}

theorem findStart_some (h : findStart arms c = some p) :
    p ∈ casePatterns arms ∧ p.firstValue = c := by
  obtain ⟨arm, harm, hfind⟩ := List.exists_of_findSome?_eq_some h
  have hfirst := List.find?_some hfind
  exact ⟨List.mem_flatMap.mpr ⟨arm, harm, List.mem_of_find?_eq_some hfind⟩, of_decide_eq_true hfirst⟩

theorem findStart_none (h : findStart arms c = none) (hp : p ∈ casePatterns arms) :
    p.firstValue ≠ c := by
  obtain ⟨arm, harm, hmem⟩ := List.mem_flatMap.mp hp
  have hnone := List.find?_eq_none.mp (List.findSome?_eq_none_iff.mp h arm harm) p hmem
  rintro heq
  exact hnone (decide_eq_true heq)

theorem overlap_iff {q : DynAstPattern} (h : p.isSigned = t.sign) : intervalOverlap p q = true ↔
    t.value p.firstValue ≤ t.value q.lastValue ∧ t.value q.firstValue ≤ t.value p.lastValue := by
  unfold intervalOverlap IntegerType.value
  rw [h]
  cases t.sign with
  | false => simp [BitVec.ule_eq_decide]
  | true => simp [BitVec.sle_iff_toInt_le]

variable {b : BitVec 64}

theorem caseTurn_advance : caseTurn t arms c = .advance b ↔ Follows t arms c b := by
  unfold caseTurn Follows
  cases findStart arms c with
  | none => simp
  | some p =>
    dsimp only
    split
    · rename_i hmax
      refine iff_of_false nofun ?_
      rintro ⟨q, hq, hne, -, -⟩
      cases hq
      exact hne hmax
    rename_i hmax
    split_ifs with hlimit
    · refine iff_of_false nofun ?_
      rintro ⟨q, hq, -, hne, -⟩
      cases hq
      exact hne hlimit
    constructor
    · intro h
      cases h
      exact ⟨p, rfl, hmax, hlimit, rfl⟩
    rintro ⟨q, hq, -, -, rfl⟩
    cases hq
    rfl

/-- Where the pattern does not end before it begins, the cursor moves up. -/
theorem Follows.lt (h : Follows t arms c b) (hnonempty : ∀ p, findStart arms c = some p → ¬ Empty t p) :
    t.value c < t.value b := by
  obtain ⟨p, hp, -, hlimit, rfl⟩ := h
  obtain ⟨-, rfl⟩ := findStart_some hp
  rw [t.value_succ hlimit]
  exact Int.lt_add_one_of_le (Int.not_lt.mp (hnonempty p hp))

/-- All values below the cursor are covered, the last of them by a pattern that ends there. -/
structure Swept (t : IntegerType) (arms : List DynAstCaseArm) (c : BitVec 64) : Prop where
  least : t.least ≤ t.value c
  greatest : t.value c ≤ t.greatest
  below : ∀ x, t.least ≤ x → x < t.value c → ∃ p ∈ casePatterns arms, Within t p x
  before : t.value c = t.least ∨ ∃ p ∈ casePatterns arms, t.value p.lastValue + 1 = t.value c

theorem swept_minimum : Swept t arms t.minimum := by
  have hle : t.least ≤ t.greatest := by
    have hpow : (0 : Int) < 2 ^ (t.width - 1) := Int.pow_pos (by decide)
    have hpow' : (0 : Int) < 2 ^ t.width := Int.pow_pos (by decide)
    unfold IntegerType.least IntegerType.greatest
    split <;> omega
  have heq := t.value_minimum
  exact ⟨heq.ge, heq.le.trans hle, fun x hx hlt => absurd hlt (by omega), .inl heq⟩

theorem Swept.uncovered (h : Swept t arms c) (hproper : Intervals t arms) (hnone : findStart arms c = none) :
    ¬ Covers t arms := by
  intro hcovers
  obtain ⟨q, hq, hlow, hhigh⟩ := hcovers _ h.least h.greatest
  have hne : t.value q.firstValue ≠ t.value c := fun heq => findStart_none hnone hq (t.value_injective heq)
  rcases h.before with hleast | ⟨p, hp, hbefore⟩
  · have hinside := (hproper.inside q hq).1
    omega
  -- The pattern that ends before the cursor and the one that reaches it overlap.
  have hpq : p ≠ q := by
    rintro rfl
    omega
  have hnonempty := hproper.nonempty p hp
  have hoverlap : t.value p.firstValue ≤ t.value q.lastValue ∧ t.value q.firstValue ≤ t.value p.lastValue := by
    omega
  have hapart : (casePatterns arms).Pairwise fun a b =>
      ¬ (t.value a.firstValue ≤ t.value b.lastValue ∧ t.value b.firstValue ≤ t.value a.lastValue) :=
    hproper.disjoint.imp_of_mem fun ha _ hab hboth =>
      Bool.false_ne_true (hab.symm.trans ((overlap_iff (hproper.signs _ ha)).mpr hboth))
  have : Std.Symm fun a b : DynAstPattern =>
      ¬ (t.value a.firstValue ≤ t.value b.lastValue ∧ t.value b.firstValue ≤ t.value a.lastValue) :=
    ⟨fun a b hab hba => hab hba.symm⟩
  exact hapart.forall hp hq hpq hoverlap

theorem Swept.covered (h : Swept t arms c) (hp : findStart arms c = some p)
    (hmax : p.lastValue = t.maximum) : Covers t arms := by
  obtain ⟨hmem, hfirst⟩ := findStart_some hp
  intro x hx hx'
  by_cases hlt : x < t.value c
  · exact h.below x hx hlt
  refine ⟨p, hmem, ?_, ?_⟩
  · rw [hfirst]
    omega
  · rw [hmax, t.value_maximum]
    exact hx'

theorem Swept.follows (h : Swept t arms c) (hproper : Intervals t arms) (hb : Follows t arms c b) :
    Swept t arms b := by
  have hup := hb.lt fun p hp => Int.not_lt.mpr (hproper.nonempty p (findStart_some hp).1)
  obtain ⟨p, hp, hmax, hlimit, rfl⟩ := hb
  obtain ⟨hmem, hfirst⟩ := findStart_some hp
  have hsucc := t.value_succ hlimit
  have hlast := (hproper.inside p hmem).2
  have hne : t.value p.lastValue ≠ t.greatest := fun heq =>
    hmax (t.value_injective (heq.trans t.value_maximum.symm))
  refine ⟨h.least.trans hup.le, by omega, fun x hx hlt => ?_, .inr ⟨p, hmem, hsucc.symm⟩⟩
  by_cases hbelow : x < t.value c
  · exact h.below x hx hbelow
  refine ⟨p, hmem, ?_, by omega⟩
  rw [hfirst]
  omega

/-- **The answer is right**, where the patterns are intervals of the type. -/
theorem Swept.answer (hproper : Intervals t arms) : ∀ {turns : Nat} {c : BitVec 64} {complete : Bool},
    Swept t arms c → caseLoop t arms turns c = some complete → (complete = true ↔ Covers t arms) := by
  intro turns
  induction turns with
  | zero =>
    intro c complete _ hloop
    cases hloop
  | succ turns ih =>
    intro c complete h hloop
    unfold caseLoop at hloop
    cases hturn : caseTurn t arms c with
    | advance b =>
      rw [hturn] at hloop
      exact ih (h.follows hproper (caseTurn_advance.mp hturn)) hloop
    | done answer =>
      rw [hturn] at hloop
      cases hloop
      unfold caseTurn at hturn
      split at hturn
      · rename_i hp
        cases hturn
        exact iff_of_false Bool.false_ne_true (h.uncovered hproper hp)
      rename_i p hp
      split at hturn
      · rename_i hmax
        cases hturn
        exact iff_of_true rfl (h.covered hp hmax)
      rename_i hmax
      split at hturn
      · -- A pattern that ends at the limit ends at the greatest value.
        rename_i hlimit
        have hlast := (hproper.inside p (findStart_some hp).1).2
        have hgreatest := t.value_le_limit t.maximum
        rw [t.value_maximum] at hgreatest
        rw [hlimit] at hlast
        have heq := t.value_injective ((le_antisymm hlast hgreatest).trans t.value_maximum.symm)
        exact absurd (hlimit.trans heq) hmax
      · cases hturn

def nextCursor (t : IntegerType) (arms : List DynAstCaseArm) (c : BitVec 64) : Option (BitVec 64) :=
  match caseTurn t arms c with
  | .done _ => none
  | .advance b => some b

theorem nextCursor_some : nextCursor t arms c = some b ↔ Follows t arms c b := by
  rw [← caseTurn_advance]
  unfold nextCursor
  cases caseTurn t arms c <;> simp

theorem nextCursor_follows : (fun a b => nextCursor t arms a = some b) = Follows t arms := by
  funext a b
  exact propext nextCursor_some

/-- The loop ends exactly where the cursor comes down to a last turn. -/
theorem caseLoop_ends : (∃ turns complete, caseLoop t arms turns c = some complete) ↔
    ∃ n r, Descent (nextCursor t arms) n c r := by
  constructor
  · rintro ⟨turns, complete, hloop⟩
    induction turns generalizing c with
    | zero => cases hloop
    | succ turns ih =>
      unfold caseLoop at hloop
      cases hturn : caseTurn t arms c with
      | done answer =>
        refine ⟨0, c, .stop ?_⟩
        unfold nextCursor
        rw [hturn]
      | advance b =>
        rw [hturn] at hloop
        obtain ⟨n, r, hdescent⟩ := ih hloop
        exact ⟨n + 1, r, .step (nextCursor_some.mpr (caseTurn_advance.mp hturn)) hdescent⟩
  rintro ⟨n, r, hdescent⟩
  induction hdescent with
  | @stop c hnone =>
    unfold nextCursor at hnone
    cases hturn : caseTurn t arms c with
    | advance b =>
      rw [hturn] at hnone
      cases hnone
    | done answer =>
      refine ⟨1, answer, ?_⟩
      unfold caseLoop
      rw [hturn]
  | @step c b r n hsome _ ih =>
    obtain ⟨turns, complete, hloop⟩ := ih
    refine ⟨turns + 1, complete, ?_⟩
    unfold caseLoop
    rw [caseTurn_advance.mpr (nextCursor_some.mp hsome)]
    exact hloop

theorem integerCaseComplete_ends : (∃ turns complete, integerCaseComplete t arms turns = some complete) ↔
    ¬ Circles t arms := by
  unfold integerCaseComplete Circles
  rw [caseLoop_ends, ← nextCursor_follows]
  constructor
  · rintro ⟨n, r, hdescent⟩ ⟨c, hc, hcircle⟩
    exact hdescent.no_circle hc hcircle
  intro hnot
  refine (descent_or_circle ((casePatterns arms).map (·.firstValue)) t.minimum fun u _ hne => ?_).resolve_right hnot
  obtain ⟨b, hb⟩ := Option.ne_none_iff_exists'.mp hne
  obtain ⟨p, hp, -⟩ := nextCursor_some.mp hb
  obtain ⟨hmem, hfirst⟩ := findStart_some hp
  exact List.mem_map.mpr ⟨p, hmem, hfirst⟩

/-- Around a circle of patterns that are not empty the cursor would move up. -/
theorem circles_iff : Circles t arms ↔
    ∃ p, Arrives t arms p ∧ Empty t p ∧ TransGen (Follows t arms) p.firstValue p.firstValue := by
  constructor
  · rintro ⟨c, hc, hcircle⟩
    by_contra hnone
    have hup : ∀ b, TransGen (Follows t arms) c b → ReflTransGen (Follows t arms) b c → t.value c < t.value b := by
      intro b hb
      induction hb with
      | single hstep =>
        exact fun hback => hstep.lt fun p hp hempty => hnone ⟨p, ⟨c, hc, hp⟩, hempty, by
          rw [(findStart_some hp).2]
          exact hcircle⟩
      | @tail a b hca hstep ih =>
        refine fun hback => (ih (.head hstep hback)).trans (hstep.lt fun p hp hempty => ?_)
        refine hnone ⟨p, ⟨a, hc.trans hca.to_reflTransGen, hp⟩, hempty, ?_⟩
        rw [(findStart_some hp).2]
        exact .head' hstep (hback.trans hca.to_reflTransGen)
    exact (hup c hcircle .refl).false
  · rintro ⟨p, ⟨c, hc, hp⟩, -, hcircle⟩
    rw [(findStart_some hp).2] at hcircle
    exact ⟨c, hc, hcircle⟩

theorem not_circles (h : ∀ p, Arrives t arms p → ¬ Empty t p) : ¬ Circles t arms := by
  rw [circles_iff]
  rintro ⟨p, hp, hempty, -⟩
  exact h p hp hempty

theorem integerCaseComplete_exact : ((∃ turns complete, integerCaseComplete t arms turns = some complete) ∧
    (Intervals t arms → ((∃ turns, integerCaseComplete t arms turns = some true) ↔ Covers t arms))) ↔
      ¬ Circles t arms := by
  rw [integerCaseComplete_ends]
  refine ⟨fun h => h.1, fun hnot => ⟨hnot, fun hproper => ?_⟩⟩
  obtain ⟨turns, complete, hloop⟩ := integerCaseComplete_ends.mpr hnot
  have hanswer := swept_minimum.answer hproper hloop
  constructor
  · rintro ⟨turns', htrue⟩
    exact (swept_minimum.answer hproper htrue).mp rfl
  intro hcovers
  rw [hanswer.mpr hcovers] at hloop
  exact ⟨turns, hloop⟩

/-- **The test of an integer case ends, and is exact, where the cover arrives at no empty or reversed
pattern.**  It does so exactly where no such pattern leads back to its own beginning. -/
theorem integer_case_complete_iff (t : IntegerType) (arms : List DynAstCaseArm) :
    ((∀ p, Arrives t arms p → ¬ Empty t p) →
      (∃ turns complete, integerCaseComplete t arms turns = some complete) ∧
      (Intervals t arms → ((∃ turns, integerCaseComplete t arms turns = some true) ↔ Covers t arms))) ∧
    (((∃ turns complete, integerCaseComplete t arms turns = some complete) ∧
      (Intervals t arms → ((∃ turns, integerCaseComplete t arms turns = some true) ↔ Covers t arms))) ↔
      ∀ p, Arrives t arms p → Empty t p → ¬ TransGen (Follows t arms) p.firstValue p.firstValue) := by
  refine ⟨fun h => integerCaseComplete_exact.mpr (not_circles h), ?_⟩
  rw [integerCaseComplete_exact, circles_iff]
  simp only [not_exists, not_and]

end

/-- A byte, with the patterns `0..5` and `5..5`. -/
def byteType : IntegerType := ⟨false, 8, by decide, by decide⟩

def emptyRange : List DynAstCaseArm := [⟨[⟨0, 4, false⟩]⟩, ⟨[⟨5, 4, false⟩]⟩]

def unreachedRange : List DynAstCaseArm := [⟨[⟨0, 4, false⟩, ⟨9, 7, false⟩]⟩, ⟨[⟨5, 6, false⟩]⟩]

/-- The byte is covered by two ranges; where a reversed range is not reached, the test still ends. -/
theorem integer_case_complete_byte :
    (∃ turns, integerCaseComplete byteType [⟨[⟨0, 4, false⟩]⟩, ⟨[⟨5, 255, false⟩]⟩] turns = some true) ∧
    ∃ turns complete, integerCaseComplete byteType unreachedRange turns = some complete := by
  constructor
  · have hproper : Intervals byteType [⟨[⟨0, 4, false⟩]⟩, ⟨[⟨5, 255, false⟩]⟩] :=
      ⟨by decide, by decide, by decide, by decide⟩
    refine (((integer_case_complete_iff _ _).1 fun p hp => ?_).2 hproper).mpr fun x hx hx' => ?_
    · obtain ⟨c, -, hc⟩ := hp
      exact Int.not_lt.mpr (hproper.nonempty p (findStart_some hc).1)
    change 0 ≤ x at hx
    change x ≤ 255 at hx'
    by_cases hlow : x ≤ 4
    · exact ⟨⟨0, 4, false⟩, by decide, hx, hlow⟩
    · exact ⟨⟨5, 255, false⟩, by decide, show 5 ≤ x by omega, hx'⟩
  have hreached : ∀ c, ReflTransGen (Follows byteType unreachedRange) byteType.minimum c → c = 0 ∨ c = 5 ∨ c = 7 := by
    intro c hc
    induction hc with
    | refl => exact .inl rfl
    | tail _ hstep ih =>
      obtain ⟨q, hq, -, -, rfl⟩ := hstep
      rcases ih with rfl | rfl | rfl
      · cases hq
        exact .inr (.inl rfl)
      · cases hq
        exact .inr (.inr rfl)
      · cases hq
  refine ((integer_case_complete_iff _ _).1 fun p hp => ?_).1
  obtain ⟨c, hc, hp⟩ := hp
  rcases hreached c hc with rfl | rfl | rfl <;> cases hp <;> exact Int.not_lt.mpr (by decide)

/-- The empty range leads the cursor back to where the range begins. -/
theorem integer_case_complete_emptyRange : ¬ ∃ turns complete, integerCaseComplete byteType emptyRange turns = some complete := by
  rw [integerCaseComplete_ends, not_not]
  have hfirst : Follows byteType emptyRange 0 5 := ⟨⟨0, 4, false⟩, by decide, by decide, by decide, by decide⟩
  have hback : Follows byteType emptyRange 5 5 := ⟨⟨5, 4, false⟩, by decide, by decide, by decide, by decide⟩
  exact ⟨5, .single hfirst, .single hback⟩

end Dyn.Sema
