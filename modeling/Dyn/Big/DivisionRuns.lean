import Dyn.Big.Arithmetic
import Dyn.Big.Division
import Dyn.Lib.QuotientDigit

/-!
# std/math/big: division is exact

A turn of the long division takes a window that is below the divisor times the base.  The corrected
estimate is the digit or one more; the subtraction then leaves the remainder, or goes below zero by
less than the divisor, which the divisor added back makes up for.  The turns together leave the
remainder of the shifted dividend.
-/

namespace Dyn.Big

open List
open Mem (Panic)
open Binary (checked checked_of_lt)
open Strings (valueOf base Holds valueOf_nil valueOf_cons valueOf_append valueOf_replicate valueOf_lt)

theorem checkedSub_of_le {a b : Nat} (h : b ≤ a) : checkedSub a b = .ok (a - b) := if_pos h

theorem checkedInt_of_mem {n : Int} (h : -2 ^ 63 ≤ n) (h' : n < 2 ^ 63) : checkedInt n = .ok n := if_pos ⟨h, h'⟩

variable {limb : UInt32} {low : Nat} {divisor vs : Limbs} {next top w2 w1 w0 : UInt32}
  {limbs : Limbs} {k shift : Nat}

theorem index_append {low high : Limbs} {i : Nat} (h : low.length = i) :
    index (low ++ limb :: high) i = .ok limb.toNat := by
  unfold index
  rw [← h, getElem?_append_right le_rfl, Nat.sub_self]
  rfl

theorem joined_exact {high : Nat} (hhigh : high < 4294967296) (hlow : low < 4294967296) :
    joined high low = .ok (high * 4294967296 + low) := by
  have hshift : high <<< 32 = high * 4294967296 := Nat.shiftLeft_eq high 32
  have hor : high <<< 32 ||| low = high * 4294967296 + low := by
    rw [← Nat.shiftLeft_add_eq_or_of_lt hlow, hshift]
  unfold joined
  simp only [checked_of_lt (show high <<< 32 < 2 ^ 64 by rw [hshift]; omega), bind, Except.bind, hor]
  rfl

theorem quotientRest_exact {n d : Nat} (hd : 0 < d) : quotientRest n d = .ok (n / d, n % d) := if_neg (by omega)

section

variable {top next w2 w1 w0 q : Nat}

theorem tooLarge_exact {e r : Nat} (hnext : next < 4294967296) (hw0 : w0 < 4294967296) (hr : r < 4294967296) :
    tooLarge next w0 e r = .ok (decide (4294967296 ≤ e ∨ r * 4294967296 + w0 < e * next)) := by
  unfold tooLarge
  split_ifs
  · rw [decide_eq_true (.inl (by omega))]
  have hproduct : e * next ≤ 4294967295 * 4294967295 := Nat.mul_le_mul (by omega) (by omega)
  simp only [checked_of_lt (show e * next < 2 ^ 64 by omega), joined_exact hr hw0, bind, Except.bind]
  have hiff : (e * next > r * 4294967296 + w0) ↔ (4294967296 ≤ e ∨ r * 4294967296 + w0 < e * next) :=
    ⟨.inr, fun h => h.resolve_left (by omega)⟩
  simp only [pure, Except.pure, decide_eq_decide.mpr hiff]

/-- **The corrected estimate is not below the digit, and fits the known digits.** -/
theorem correctLoop_exact (hnext : next < 4294967296) (hw1 : w1 < 4294967296) (hw0 : w0 < 4294967296)
    (htop : top < 4294967296) (hw2 : w2 ≤ top) (hq : q < 4294967296)
    (hless : ∀ e, (w2 * 4294967296 + w1) * 4294967296 + w0 < e * (top * 4294967296 + next) → q < e) :
    ∀ turns e r, e * top + r = w2 * 4294967296 + w1 → r < 4294967296 → q ≤ e → 4294967296 ≤ r + turns * top →
      ∃ estimate, correctLoop top next w0 turns e r = .ok estimate ∧ q ≤ estimate ∧ estimate < 4294967296 ∧
        estimate * (top * 4294967296 + next) ≤ (w2 * 4294967296 + w1) * 4294967296 + w0 := by
  intro turns
  induction turns with
  | zero =>
    intro e r _ hr _ henough
    omega
  | succ turns ih =>
    intro e r hrest hr hqe henough
    have hfits : e * (top * 4294967296 + next) ≤ (w2 * 4294967296 + w1) * 4294967296 + w0 ↔
        e * next ≤ r * 4294967296 + w0 := Lib.QuotientDigit.fits_iff hrest
    unfold correctLoop
    simp only [tooLarge_exact hnext hw0 hr, bind, Except.bind, decide_eq_true_eq]
    split_ifs with hlarge
    · have hlt : q < e := by
        rcases hlarge with hlarge | hlarge
        · omega
        refine hless e ?_
        by_contra hle
        omega
      obtain ⟨e, rfl⟩ : ∃ d, e = d + 1 := ⟨e - 1, by omega⟩
      have hrest' : e * top + (r + top) = w2 * 4294967296 + w1 := by
        rw [← hrest]
        ring
      rw [checkedSub_of_le (by omega)]
      simp only [Nat.add_sub_cancel, checked_of_lt (show r + top < 2 ^ 64 by omega)]
      split_ifs
      · obtain ⟨hdigit, hfit⟩ : e < 4294967296 ∧
            e * (top * 4294967296 + next) ≤ (w2 * 4294967296 + w1) * 4294967296 + w0 :=
          Lib.QuotientDigit.fits_of_rest hrest' hw2 hw1 hnext (by omega)
        exact ⟨e, rfl, by omega, hdigit, hfit⟩
      refine ih e (r + top) hrest' (by omega) (by omega) ?_
      rw [Nat.succ_mul] at henough
      omega
    · exact ⟨e, rfl, hqe, by omega, hfits.mpr (by omega)⟩

end

theorem wrapped_toNat (n : Int) : ((wrapped n).toNat : Int) = n % 4294967296 := by
  unfold wrapped
  rw [ofNat_toNat]
  omega

/-- **The subtraction loop spells the difference**, with the signed limb at its end. -/
theorem subtractRow_exact {estimate : Nat} (hestimate : estimate < 4294967296) (d : UInt32) (above : Limbs) :
    ∀ (divisor front : Limbs) {borrow : Int} {carry : Nat}, 0 ≤ borrow → borrow ≤ 1 → carry < 4294967296 →
      front.length = divisor.length → ∃ low difference,
        subtractRow estimate borrow carry divisor (front ++ d :: above) =
          .ok (low ++ wrapped difference :: above, decide (difference < 0)) ∧
        low.length = divisor.length ∧ difference ≤ d.toNat ∧
        (valueOf low : Int) + base ^ divisor.length * difference =
          valueOf front + base ^ divisor.length * d.toNat - estimate * valueOf divisor - carry - borrow
  | [], front, borrow, carry, hborrow, hborrow', hcarry, hlength => by
    have hnil : front = [] := length_eq_zero_iff.mp hlength
    subst hnil
    have hd := toNat_lt d
    refine ⟨[], d.toNat - borrow - carry, ?_, rfl, by omega, ?_⟩
    · simp only [subtractRow, nil_append, bind, Except.bind, pure, Except.pure,
        checkedInt_of_mem (show -2 ^ 63 ≤ (d.toNat : Int) - borrow by omega)
          (show (d.toNat : Int) - borrow < 2 ^ 63 by omega),
        checkedInt_of_mem (show -2 ^ 63 ≤ (d.toNat : Int) - borrow - carry by omega)
          (show (d.toNat : Int) - borrow - carry < 2 ^ 63 by omega)]
    · simp only [valueOf_nil, length_nil, pow_zero]
      ring
  | v :: divisor, [], _, _, _, _, _, hlength => by simp at hlength
  | v :: divisor, x :: front, borrow, carry, hborrow, hborrow', hcarry, hlength => by
    have hv := toNat_lt v
    have hx := toNat_lt x
    have hproduct : estimate * v.toNat ≤ 4294967295 * 4294967295 := Nat.mul_le_mul (by omega) (by omega)
    have hlower := lower_toNat (estimate * v.toNat + carry)
    have hnext : (estimate * v.toNat + carry) >>> 32 < 4294967296 := by
      rw [shiftRight_eq]
      omega
    generalize hdifference : (x.toNat : Int) - borrow - (lower (estimate * v.toNat + carry)).toNat = difference
    have hbit : 0 ≤ (if difference < 0 then 1 else 0 : Int) ∧ (if difference < 0 then 1 else 0 : Int) ≤ 1 := by
      split_ifs <;> decide
    obtain ⟨low, last, hrow, hlength', hlast, hvalue⟩ :=
      subtractRow_exact hestimate d above divisor front hbit.1 hbit.2 hnext (Nat.succ.inj hlength)
    refine ⟨wrapped difference :: low, last, ?_, congrArg (· + 1) hlength', hlast, ?_⟩
    · simp only [cons_append, subtractRow, bind, Except.bind, pure, Except.pure,
        checked_of_lt (show estimate * v.toNat < 2 ^ 64 by omega),
        checked_of_lt (show estimate * v.toNat + carry < 2 ^ 64 by omega),
        checkedInt_of_mem (show -2 ^ 63 ≤ (x.toNat : Int) - borrow by omega)
          (show (x.toNat : Int) - borrow < 2 ^ 63 by omega), hdifference,
        checkedInt_of_mem (show -2 ^ 63 ≤ difference by omega) (show difference < 2 ^ 63 by omega), hrow]
    -- A limb that went below zero was lent one of the next place.
    have hlent : ((wrapped difference).toNat : Int) = difference + 4294967296 * (if difference < 0 then 1 else 0) := by
      rw [wrapped_toNat]
      split_ifs <;> omega
    have hsplit : ((estimate * v.toNat + carry : Nat) : Int) =
        (lower (estimate * v.toNat + carry)).toNat + 4294967296 * ((estimate * v.toNat + carry) >>> 32 : Nat) := by
      rw [hlower, shiftRight_eq]
      omega
    rw [valueOf_cons, valueOf_cons, valueOf_cons, length_cons, base_eq] at *
    push_cast at hvalue hsplit ⊢
    rw [hlent, pow_succ]
    generalize (if difference < 0 then 1 else 0 : Int) = lent at *
    linear_combination 4294967296 * hvalue + hsplit - hdifference

theorem addBackRow_exact (d : UInt32) (above : Limbs) : ∀ (divisor front : Limbs) {carry : Nat}, carry ≤ 1 →
    front.length = divisor.length → ∃ low last,
      addBackRow carry divisor (front ++ d :: above) = .ok (low ++ lower (d.toNat + last) :: above) ∧
      low.length = divisor.length ∧ last ≤ 1 ∧
      valueOf low + base ^ divisor.length * last = valueOf front + valueOf divisor + carry
  | [], front, carry, hcarry, hlength => by
    have hnil : front = [] := length_eq_zero_iff.mp hlength
    subst hnil
    exact ⟨[], carry, rfl, rfl, hcarry, by simp⟩
  | v :: divisor, [], _, _, hlength => by simp at hlength
  | v :: divisor, x :: front, carry, hcarry, hlength => by
    have hv := toNat_lt v
    have hx := toNat_lt x
    have hnext : (x.toNat + v.toNat + carry) >>> 32 ≤ 1 := by
      rw [shiftRight_eq]
      omega
    obtain ⟨low, last, hrow, hlength', hlast, hvalue⟩ :=
      addBackRow_exact d above divisor front hnext (Nat.succ.inj hlength)
    refine ⟨lower (x.toNat + v.toNat + carry) :: low, last, ?_, congrArg (· + 1) hlength', hlast, ?_⟩
    · simp only [cons_append, addBackRow, bind, Except.bind, pure, Except.pure,
        checked_of_lt (show x.toNat + v.toNat < 2 ^ 64 by omega),
        checked_of_lt (show x.toNat + v.toNat + carry < 2 ^ 64 by omega), hrow]
    rw [shiftRight_eq] at hvalue
    rw [valueOf_cons, valueOf_cons, valueOf_cons, lower_toNat, length_cons, pow_succ,
      mul_comm (base ^ divisor.length), mul_assoc]
    generalize base ^ divisor.length * last = high at *
    rw [base_eq]
    omega

theorem valueOf_single (limb : UInt32) : valueOf [limb] = limb.toNat := by simp [valueOf_cons]

theorem valueOf_pair (low high : UInt32) : valueOf [low, high] = high.toNat * 4294967296 + low.toNat := by
  rw [valueOf_cons, valueOf_cons, valueOf_nil, base_eq]
  ring

/-- Two numbers below a power that differ by a multiple of it are equal. -/
theorem eq_of_multiple {rest power : Nat} {factor : Int} (hlow : low < power) (hrest : rest < power)
    (h : (low : Int) + power * factor = rest) : factor = 0 ∧ low = rest := by
  have hfactor : factor = 0 := by
    rcases Int.lt_trichotomy factor 0 with - | hzero | -
    · nlinarith
    · exact hzero
    · nlinarith
  subst hfactor
  exact ⟨rfl, by omega⟩

theorem divideDigit_eq {window left : Limbs} {top next high middle numerator estimate : Nat}
    {negative : Bool} (hnumerator : joined high middle = .ok numerator) (htop : 0 < top)
    (hcorrect : correctLoop top next low 2 (numerator / top) (numerator % top) = .ok estimate)
    (hrow : subtractRow estimate 0 0 divisor window = .ok (left, negative)) :
    divideDigit divisor top next high middle low window = if negative then do
        let estimate ← checkedSub estimate 1
        let window ← addBackRow 0 divisor left
        return (UInt32.ofNat estimate, window)
      else .ok (UInt32.ofNat estimate, left) := by
  unfold divideDigit
  simp only [hnumerator, quotientRest_exact htop, hcorrect, hrow, bind, Except.bind]
  rfl

/-- **A turn gives the digit and leaves the remainder of its window.** -/
theorem divideDigit_exact (above : Limbs) {ws : Limbs} (hlength : ws.length = vs.length)
    (htop : 2147483648 ≤ top.toNat)
    (hwindow : valueOf (ws ++ [w0, w1, w2]) < base * valueOf (vs ++ [next, top])) : ∃ rest,
      divideDigit (vs ++ [next, top]) top.toNat next.toNat w2.toNat w1.toNat w0.toNat (ws ++ [w0, w1] ++ w2 :: above) =
        .ok (UInt32.ofNat (valueOf (ws ++ [w0, w1, w2]) / valueOf (vs ++ [next, top])), rest ++ 0 :: above) ∧
      rest.length = vs.length + 2 ∧
      valueOf rest = valueOf (ws ++ [w0, w1, w2]) % valueOf (vs ++ [next, top]) := by
  rw [base_eq] at hwindow
  have hnextlt := toNat_lt next
  have htoplt := toNat_lt top
  have hw0 := toNat_lt w0
  have hw1 := toNat_lt w1
  have hw2 := toNat_lt w2
  have hvlow := valueOf_lt vs
  have hwlow := valueOf_lt ws
  rw [hlength] at hwlow
  have hV : valueOf (vs ++ [next, top]) =
      (top.toNat * 4294967296 + next.toNat) * base ^ vs.length + valueOf vs := by
    rw [valueOf_append, valueOf_pair]
    ring
  have hW : valueOf (ws ++ [w0, w1, w2]) =
      ((w2.toNat * 4294967296 + w1.toNat) * 4294967296 + w0.toNat) * base ^ vs.length + valueOf ws := by
    rw [valueOf_append, valueOf_cons, valueOf_pair, hlength, base_eq]
    ring
  have hfront : valueOf (ws ++ [w0, w1]) + base ^ (vs.length + 2) * w2.toNat = valueOf (ws ++ [w0, w1, w2]) := by
    rw [hW, valueOf_append, valueOf_pair, hlength, pow_add, base_eq]
    ring
  have hn : (vs ++ [next, top]).length = vs.length + 2 := length_append
  have hVlt := valueOf_lt (vs ++ [next, top])
  generalize hdivisor : valueOf (vs ++ [next, top]) = V at *
  generalize valueOf (ws ++ [w0, w1, w2]) = W at *
  have hpos : 0 < V := by
    omega
  -- The digits at the top of the window and of the divisor.
  have hVge : (top.toNat * 4294967296 + next.toNat) * base ^ vs.length ≤ V := by
    rw [hV]
    exact Nat.le_add_right _ _
  have hVless : V < (top.toNat * 4294967296 + next.toNat + 1) * base ^ vs.length := by linarith
  have hWge : ((w2.toNat * 4294967296 + w1.toNat) * 4294967296 + w0.toNat) * base ^ vs.length ≤ W := by
    rw [hW]
    exact Nat.le_add_right _ _
  have hWless : W < ((w2.toNat * 4294967296 + w1.toNat) * 4294967296 + w0.toNat + 1) * base ^ vs.length := by
    linarith
  have hdigit : W / V < 4294967296 := Nat.div_lt_of_lt_mul (by rwa [mul_comm])
  have hle : w2.toNat ≤ top.toNat := by
    refine Lib.QuotientDigit.top_le hV hvlow hnextlt ?_ hwindow (by omega)
    have hhigh : w2.toNat * 4294967296 * 4294967296 ≤ (w2.toNat * 4294967296 + w1.toNat) * 4294967296 + w0.toNat :=
      (Nat.mul_le_mul_right _ (Nat.le_add_right _ _)).trans (Nat.le_add_right _ _)
    exact (Nat.mul_le_mul_right _ hhigh).trans hWge
  have hfits := Lib.QuotientDigit.digit_mul_le hVge hWless
  have hestimate := Lib.QuotientDigit.digit_le_estimate (by omega : 0 < top.toNat) hw0 hfits
  have hrest : (w2.toNat * 4294967296 + w1.toNat) % top.toNat < top.toNat := Nat.mod_lt _ (by omega)
  obtain ⟨e, hcorrect, hqe, he, hefits⟩ := correctLoop_exact hnextlt hw1 hw0 htoplt hle hdigit
    (fun e hlarge => Lib.QuotientDigit.digit_lt hVge hWless hlarge) 2 _ _ (by rw [mul_comm]; exact Nat.div_add_mod _ _)
    (by omega) hestimate (by omega)
  have hmost := Lib.QuotientDigit.estimate_le hVless hWge hpos (by omega) hefits
  obtain ⟨low, difference, hrow, hlowlength, -, hvalue⟩ := subtractRow_exact he w2 above (vs ++ [next, top])
    (ws ++ [w0, w1]) (Int.le_refl 0) (by decide) (by decide : 0 < 4294967296) (by simp [hlength])
  have hdiv' : (V : Int) * (W / V : Nat) + (W % V : Nat) = W := by exact_mod_cast Nat.div_add_mod W V
  have hmod := Nat.mod_lt W hpos
  have hlowlt := valueOf_lt low
  rw [hlowlength] at hlowlt
  rw [hn] at hlowlength
  have hleft : (valueOf low : Int) + (base ^ (vs ++ [next, top]).length : Nat) * difference = W - e * V := by
    rw [Nat.cast_pow, hvalue, ← hfront, hn, hdivisor]
    push_cast
    ring
  rw [divideDigit_eq (joined_exact hw2 hw1) (by omega) hcorrect hrow]
  rcases Nat.eq_or_lt_of_le hqe with heq | hlt
  · -- The estimate is the digit.
    have hvalue' : (valueOf low : Int) + (base ^ (vs ++ [next, top]).length : Nat) * difference = (W % V : Nat) := by
      rw [hleft, ← heq]
      linear_combination -hdiv'
    obtain ⟨hzero, hlow⟩ := eq_of_multiple hlowlt (hmod.trans hVlt) hvalue'
    subst hzero
    rw [if_neg (by decide), ← heq]
    exact ⟨low, rfl, hlowlength, hlow⟩
  -- The estimate is one too large.
  obtain rfl : e = W / V + 1 := by omega
  have hvalue' : (valueOf low : Int) + (base ^ (vs ++ [next, top]).length : Nat) * (difference + 1) =
      (W % V + (base ^ (vs ++ [next, top]).length - V) : Nat) := by
    rw [Nat.cast_succ] at hleft
    rw [Nat.cast_add, Nat.cast_sub hVlt.le]
    linear_combination hleft - hdiv'
  obtain ⟨hone, hlow⟩ := eq_of_multiple hlowlt (by omega) hvalue'
  obtain ⟨back, last, hback, hbacklength, hlast, hbackvalue⟩ :=
    addBackRow_exact (wrapped difference) above (vs ++ [next, top]) low (Nat.zero_le 1) (hlowlength.trans hn.symm)
  have hbacklt := valueOf_lt back
  rw [hbacklength] at hbacklt
  obtain rfl : last = 1 := by
    rcases Nat.le_one_iff_eq_zero_or_eq_one.mp hlast with rfl | hlast
    · omega
    · exact hlast
  obtain rfl : difference = -1 := by omega
  rw [if_pos (by decide), checkedSub_of_le (Nat.le_add_left _ _)]
  simp only [hback, bind, Except.bind, pure, Except.pure, Nat.add_sub_cancel]
  exact ⟨back, rfl, hbacklength.trans hn, by omega⟩

theorem split_top (h : limbs.length = k + 3) :
    ∃ ws w0 w1 w2, limbs = ws ++ [w0, w1, w2] ∧ ws.length = k := by
  have hdrop : (limbs.drop k).length = 3 := by
    rw [length_drop]
    omega
  obtain ⟨w0, w1, w2, htop⟩ := length_eq_three.mp hdrop
  refine ⟨limbs.take k, w0, w1, w2, ?_, length_take_of_le (by omega)⟩
  rw [← htop, take_append_drop]

theorem store_of_lt {i : Nat} (h : i < limbs.length) :
    store limbs i limb = .ok (limbs.set i limb) := if_pos h

theorem divideLoop_succ {low ws above quotient : Limbs} {top next j : Nat} (hlow : low.length = j)
    (hdivisor : divisor.length = ws.length + 2) :
    divideLoop divisor top next (j + 1) (low ++ (ws ++ [w0, w1] ++ w2 :: above)) quotient = (do
      let (digit, window) ← divideDigit divisor top next w2.toNat w1.toNat w0.toNat (ws ++ [w0, w1] ++ w2 :: above)
      let quotient ← store quotient j digit
      divideLoop divisor top next j (low ++ window) quotient) := by
  have hhigh : index (low ++ (ws ++ [w0, w1] ++ w2 :: above)) (j + divisor.length) = .ok w2.toNat := by
    rw [← append_assoc]
    exact index_append (by simp [hlow, hdivisor])
  have hmiddle : index (low ++ (ws ++ [w0, w1] ++ w2 :: above)) (j + divisor.length - 1) = .ok w1.toNat := by
    rw [show low ++ (ws ++ [w0, w1] ++ w2 :: above) = low ++ ws ++ [w0] ++ w1 :: w2 :: above by simp]
    exact index_append (by simp [hlow, hdivisor])
  have hlowest : index (low ++ (ws ++ [w0, w1] ++ w2 :: above)) (j + divisor.length - 2) = .ok w0.toNat := by
    rw [show low ++ (ws ++ [w0, w1] ++ w2 :: above) = low ++ ws ++ w0 :: w1 :: w2 :: above by simp]
    refine index_append ?_
    rw [length_append, hlow, hdivisor]
    omega
  rw [divideLoop, ← hlow, drop_left, take_left, hlow]
  simp only [hhigh, hmiddle, hlowest, bind, Except.bind]

/-- **The loop leaves the remainder of the dividend in the limbs at its bottom**, with zeros above. -/
theorem divideLoop_exact (htop : 2147483648 ≤ top.toNat) :
    ∀ (c : Nat) (low front quotient : Limbs) (zeros : Nat), low.length = c → front.length = vs.length + 2 →
      valueOf front < valueOf (vs ++ [next, top]) → c ≤ quotient.length → ∃ digits rest,
        divideLoop (vs ++ [next, top]) top.toNat next.toNat c (low ++ front ++ List.replicate zeros 0) quotient =
          .ok (rest ++ List.replicate (zeros + c) 0, digits ++ quotient.drop c) ∧
        digits.length = c ∧ rest.length = vs.length + 2 ∧ valueOf rest < valueOf (vs ++ [next, top]) ∧
        valueOf digits * valueOf (vs ++ [next, top]) + valueOf rest = valueOf (low ++ front) := by
  intro c
  induction c with
  | zero =>
    intro low front quotient zeros hlow hfront hless _
    have hnil : low = [] := length_eq_zero_iff.mp hlow
    subst hnil
    exact ⟨[], front, rfl, rfl, hfront, hless, by simp⟩
  | succ j ih =>
    intro low front quotient zeros hlow hfront hless hquotient
    obtain ⟨low, d, rfl⟩ : ∃ front last, low = front ++ [last] := by
      have hne : low ≠ [] := ne_nil_of_length_eq_add_one hlow
      exact ⟨low.dropLast, low.getLast hne, (dropLast_append_getLast hne).symm⟩
    have hj : low.length = j := by simpa using hlow
    obtain ⟨ws, w0, w1, w2, hwindow, hws⟩ := split_top (show (d :: front).length = vs.length + 3 by
      rw [length_cons, hfront])
    have hn : (vs ++ [next, top]).length = vs.length + 2 := length_append
    have hbound : valueOf (ws ++ [w0, w1, w2]) < base * valueOf (vs ++ [next, top]) := by
      have hd := toNat_lt d
      rw [← hwindow, valueOf_cons, base_eq]
      omega
    obtain ⟨left, hdigit, hleft, hvalue⟩ :=
      divideDigit_exact (replicate zeros 0) hws htop hbound
    have hpos : 0 < valueOf (vs ++ [next, top]) := by omega
    have hshape : low ++ [d] ++ front ++ replicate zeros 0 =
        low ++ (ws ++ [w0, w1] ++ w2 :: replicate zeros 0) := by
      have happend : ws ++ [w0, w1] ++ w2 :: replicate zeros 0 = ws ++ [w0, w1, w2] ++ replicate zeros 0 := by
        simp
      rw [happend, ← hwindow]
      simp
    generalize hq : valueOf (ws ++ [w0, w1, w2]) / valueOf (vs ++ [next, top]) = q at *
    obtain ⟨digits, rest, hloop, hdigits, hrest, hrestless, hrestvalue⟩ :=
      ih low left (quotient.set j (UInt32.ofNat q)) (zeros + 1) hj hleft
        (hvalue ▸ Nat.mod_lt _ hpos) (by rw [length_set]; omega)
    refine ⟨digits ++ [UInt32.ofNat q], rest, ?_, by simp [hdigits], hrest, hrestless, ?_⟩
    · have hdrop : (quotient.set j (UInt32.ofNat q)).drop j = UInt32.ofNat q :: quotient.drop (j + 1) := by
        rw [drop_eq_getElem_cons (by rw [length_set]; omega), getElem_set_self,
          drop_set_of_lt (Nat.lt_succ_self j)]
      rw [hshape, divideLoop_succ hj (hn.trans (congrArg (· + 2) hws.symm))]
      simp only [hdigit, store_of_lt (show j < quotient.length from hquotient), bind, Except.bind]
      rw [show low ++ (left ++ 0 :: replicate zeros 0) = low ++ left ++ replicate (zeros + 1) 0 by
        rw [replicate_succ, append_assoc], hloop, hdrop, add_right_comm zeros 1 j, add_assoc zeros j 1]
      simp
    have hdiv := Nat.div_add_mod (valueOf (ws ++ [w0, w1, w2])) (valueOf (vs ++ [next, top]))
    have hqlt : q < base := by
      rw [← hq]
      exact Nat.div_lt_of_lt_mul (by rwa [mul_comm])
    have hdigitvalue : valueOf [UInt32.ofNat q] = q := by
      rw [valueOf_single, Strings.ofNat_toNat_mod, Nat.mod_eq_of_lt hqlt]
    rw [hq, ← hvalue, ← hwindow, valueOf_cons] at hdiv
    rw [valueOf_append low, hj] at hrestvalue
    rw [append_assoc, singleton_append, valueOf_append low, valueOf_cons d, valueOf_append digits,
      hdigits, hdigitvalue, hj]
    linear_combination hrestvalue + base ^ j * hdiv

theorem valueOf_take {n : Nat} (h : valueOf limbs < base ^ n) :
    valueOf (limbs.take n) = valueOf limbs := by
  by_cases hn : n ≤ limbs.length
  · have hsplit := valueOf_append (limbs.take n) (limbs.drop n)
    rw [take_append_drop, length_take_of_le hn] at hsplit
    have hzero : valueOf (limbs.drop n) = 0 := by
      by_contra hne
      have hle : base ^ n * 1 ≤ base ^ n * valueOf (limbs.drop n) := Nat.mul_le_mul_left _ (by omega)
      omega
    rw [hsplit, hzero, mul_zero, add_zero]
  · rw [take_of_length_le (by omega)]

theorem shiftLeftLoop_length : ∀ (limbs : Limbs) (spilled : UInt32),
    (shiftLeftLoop shift spilled limbs).length = limbs.length + 1
  | [], _ => rfl
  | _ :: limbs, _ => congrArg (· + 1) (shiftLeftLoop_length limbs _)

theorem split_pair (h : limbs.length = k + 2) :
    ∃ vs next top, limbs = vs ++ [next, top] ∧ vs.length = k := by
  have hdrop : (limbs.drop k).length = 2 := by
    rw [length_drop]
    omega
  obtain ⟨next, top, htop⟩ := length_eq_two.mp hdrop
  refine ⟨limbs.take k, next, top, ?_, length_take_of_le (by omega)⟩
  rw [← htop, take_append_drop]

theorem normalized_exact {bs : Limbs} (hb : bs.length = k + 1) (hshift : shift < 32)
    (hge : 2147483648 ≤ limb.toNat * 2 ^ shift) (hlt : limb.toNat * 2 ^ shift < 4294967296) :
    ∃ vs next top, (shiftLeftLoop shift 0 (bs ++ [limb])).take (k + 2) = vs ++ [next, top] ∧ vs.length = k ∧
      2147483648 ≤ top.toNat ∧ valueOf (vs ++ [next, top]) = 2 ^ shift * valueOf (bs ++ [limb]) := by
  have hpow := two_pow_split hshift
  have hloop := shiftLeftLoop_exact hshift (bs ++ [limb]) (show (0 : UInt32).toNat < 2 ^ shift from Nat.two_pow_pos _)
  rw [UInt32.toNat_zero, zero_add] at hloop
  have hvalue : valueOf (bs ++ [limb]) = valueOf bs + base ^ (k + 1) * limb.toNat := by
    rw [valueOf_append, valueOf_single, hb]
  have hbs := valueOf_lt bs
  rw [hb] at hbs
  have hpos := Nat.two_pow_pos shift
  -- One more at the top would still be within the limb.
  have hroom : (limb.toNat + 1) * 2 ^ shift ≤ 4294967296 := by
    rw [← hpow, mul_comm (2 ^ shift)] at hlt ⊢
    exact Nat.mul_le_mul_right _ (Nat.lt_of_mul_lt_mul_right hlt)
  have hfits : 2 ^ shift * valueOf (bs ++ [limb]) < base ^ (k + 2) := by
    calc 2 ^ shift * valueOf (bs ++ [limb])
        < 2 ^ shift * (base ^ (k + 1) * (limb.toNat + 1)) := by
          refine Nat.mul_lt_mul_of_pos_left ?_ hpos
          rw [hvalue]
          linarith
      _ = base ^ (k + 1) * ((limb.toNat + 1) * 2 ^ shift) := by ring
      _ ≤ base ^ (k + 1) * base := Nat.mul_le_mul_left _ hroom
      _ = base ^ (k + 2) := (pow_succ ..).symm
  have htake := valueOf_take (show valueOf (shiftLeftLoop shift 0 (bs ++ [limb])) < base ^ (k + 2) by rwa [hloop])
  obtain ⟨vs, next, top, hsplit, hvs⟩ := split_pair (show ((shiftLeftLoop shift 0 (bs ++ [limb])).take (k + 2)).length = k + 2 by
    rw [length_take_of_le (by rw [shiftLeftLoop_length, length_append, hb]; exact Nat.le_succ _)])
  rw [hsplit, hloop] at htake
  refine ⟨vs, next, top, hsplit, hvs, ?_, htake⟩
  have hlow := valueOf_lt (vs ++ [next])
  have hsplit' : valueOf (vs ++ [next, top]) = valueOf (vs ++ [next]) + base ^ (k + 1) * top.toNat := by
    rw [show vs ++ [next, top] = vs ++ [next] ++ [top] by simp, valueOf_append, valueOf_single,
      length_append, hvs]
    rfl
  rw [length_append, hvs] at hlow
  have hleast : base ^ (k + 1) * 2147483648 ≤ 2 ^ shift * valueOf (bs ++ [limb]) := by
    calc base ^ (k + 1) * 2147483648
        ≤ base ^ (k + 1) * (limb.toNat * 2 ^ shift) := Nat.mul_le_mul_left _ hge
      _ = 2 ^ shift * (base ^ (k + 1) * limb.toNat) := by ring
      _ ≤ 2 ^ shift * valueOf (bs ++ [limb]) := by
          rw [hvalue]
          exact Nat.mul_le_mul_left _ (Nat.le_add_left _ _)
  have hless : base ^ (k + 1) * 2147483648 < base ^ (k + 1) * (top.toNat + 1) := by
    have hlow' : valueOf (vs ++ [next]) < base ^ (k + 1) := hlow
    rw [← htake, hsplit'] at hleast
    linarith
  exact Nat.le_of_lt_succ (Nat.lt_of_mul_lt_mul_left hless)

/-- The limbs at the top of the shifted dividend are below the shifted divisor. -/
theorem front_lt {a : Limbs} {c : Nat} (hshift : shift < 32) (htop : 2147483648 ≤ top.toNat)
    (hlength : a.length + 1 = c + (vs.length + 2)) :
    valueOf ((shiftLeftLoop shift 0 a).drop c) < valueOf (vs ++ [next, top]) := by
  have hloop := shiftLeftLoop_exact hshift a (show (0 : UInt32).toNat < 2 ^ shift from Nat.two_pow_pos _)
  rw [UInt32.toNat_zero, zero_add] at hloop
  have hsplit := valueOf_append ((shiftLeftLoop shift 0 a).take c) ((shiftLeftLoop shift 0 a).drop c)
  rw [take_append_drop, length_take_of_le (by rw [shiftLeftLoop_length]; omega), hloop] at hsplit
  have ha := valueOf_lt a
  have hshift' : 2 ^ shift ≤ 2147483648 := Nat.pow_le_pow_right (by decide) (Nat.le_of_lt_succ hshift)
  have hlow : base ^ c * valueOf ((shiftLeftLoop shift 0 a).drop c) < base ^ c * (base ^ (vs.length + 1) * 2147483648) := by
    calc base ^ c * valueOf ((shiftLeftLoop shift 0 a).drop c)
        ≤ 2 ^ shift * valueOf a := by
          rw [hsplit]
          exact Nat.le_add_left _ _
      _ < 2 ^ shift * base ^ a.length := Nat.mul_lt_mul_of_pos_left ha (Nat.two_pow_pos _)
      _ ≤ 2147483648 * base ^ a.length := Nat.mul_le_mul_right _ hshift'
      _ = base ^ c * (base ^ (vs.length + 1) * 2147483648) := by
          rw [show a.length = c + (vs.length + 1) by omega, pow_add]
          ring
  have hV : base ^ (vs.length + 1) * 2147483648 ≤ valueOf (vs ++ [next, top]) := by
    rw [show vs ++ [next, top] = vs ++ [next] ++ [top] by simp, valueOf_append, valueOf_single, length_append,
      length_singleton]
    exact (Nat.mul_le_mul_left _ htop).trans (Nat.le_add_left _ _)
  exact lt_of_lt_of_le (Nat.lt_of_mul_lt_mul_left hlow) hV

theorem divideMagnitude_exact {a b : Limbs} (hb : 2 ≤ b.length) (htop : ∀ h : b ≠ [], b.getLast h ≠ 0)
    (hlength : b.length ≤ a.length) : ∃ quotient remainder,
      divideMagnitude a b (List.replicate (a.length - b.length + 1) 0) = .ok (quotient, remainder) ∧
      valueOf quotient * valueOf b + valueOf remainder = valueOf a ∧ valueOf remainder < valueOf b := by
  obtain ⟨bs, limb, rfl⟩ : ∃ bs limb, b = bs ++ [limb] := by
    have hne : b ≠ [] := ne_nil_of_length_pos (by omega)
    exact ⟨b.dropLast, b.getLast hne, (dropLast_append_getLast hne).symm⟩
  have hlimb : limb ≠ 0 := by simpa using htop
  obtain ⟨k, hk⟩ : ∃ k, bs.length = k + 1 := by
    rw [length_append, length_singleton] at hb
    exact ⟨bs.length - 1, by omega⟩
  have hn : (bs ++ [limb]).length = k + 2 := by rw [length_append, hk]; rfl
  rw [hn] at hlength
  obtain ⟨shift, hshift, hzeros, hge, hlt⟩ := leadingZeros_exact hlimb
  obtain ⟨vs, next, top, hdivisor, hvs, htop', hV⟩ := normalized_exact hk (by omega) hge hlt
  have hloop := shiftLeftLoop_exact (by omega : shift < 32) a (show (0 : UInt32).toNat < 2 ^ shift from Nat.two_pow_pos _)
  rw [UInt32.toNat_zero, zero_add] at hloop
  obtain ⟨m, hm⟩ : ∃ m, a.length = m + (k + 2) := ⟨a.length - (k + 2), by omega⟩
  have hfront : valueOf ((shiftLeftLoop shift 0 a).drop (m + 1)) < valueOf (vs ++ [next, top]) :=
    front_lt (by omega) htop' (by omega)
  obtain ⟨digits, rest, hrun, -, hrest, hless, hvalue⟩ := divideLoop_exact htop' (m + 1)
    ((shiftLeftLoop shift 0 a).take (m + 1)) ((shiftLeftLoop shift 0 a).drop (m + 1)) (replicate (m + 1) 0) 0
    (by rw [length_take_of_le (by rw [shiftLeftLoop_length]; omega)])
    (by rw [length_drop, shiftLeftLoop_length]; omega) hfront (by rw [length_replicate])
  rw [take_append_drop, replicate_zero, append_nil] at hrun
  rw [drop_of_length_le (by rw [length_replicate]), append_nil, zero_add] at hrun
  rw [take_append_drop, hloop, hV] at hvalue
  rw [hV] at hless
  have hpos := Nat.two_pow_pos shift
  -- The remainder is a multiple of the power that the shift put into it.
  obtain ⟨left, hleft⟩ : 2 ^ shift ∣ valueOf rest := by
    have hproduct : 2 ^ shift ∣ valueOf digits * (2 ^ shift * valueOf (bs ++ [limb])) :=
      Dvd.dvd.mul_left (Nat.dvd_mul_right _ _) _
    refine (Nat.dvd_add_right hproduct).mp ?_
    rw [hvalue]
    exact Nat.dvd_mul_right _ _
  have hleftless : left < valueOf (bs ++ [limb]) := by
    rw [hleft] at hless
    exact Nat.lt_of_mul_lt_mul_left hless
  have hsum : valueOf digits * valueOf (bs ++ [limb]) + left = valueOf a := by
    refine Nat.eq_of_mul_eq_mul_left hpos ?_
    rw [← hvalue, hleft]
    ring
  refine ⟨digits, (shiftRightLoop shift (rest ++ [0])).take (k + 2), ?_, ?_⟩
  · have hlast : index (bs ++ [limb]) (k + 1) = .ok limb.toNat := index_append hk
    have hhighest : index (vs ++ [next, top]) (k + 1) = .ok top.toNat := by
      rw [show vs ++ [next, top] = vs ++ [next] ++ [top] by simp]
      exact index_append (by rw [length_append, hvs]; rfl)
    have hbottom : (rest ++ 0 :: replicate m 0).take (k + 2 + 1) = rest ++ [0] := by
      rw [take_append, take_of_length_le (by omega), show k + 2 + 1 - rest.length = 1 by omega]
      rfl
    have hsecond : index (vs ++ [next, top]) k = .ok next.toNat := index_append hvs
    unfold divideMagnitude
    simp only [hn, hm, checkedSub_of_le (show 1 ≤ k + 2 by omega), checkedSub_of_le (show 2 ≤ k + 2 by omega),
      checkedSub_of_le (show k + 2 ≤ m + (k + 2) by omega), Nat.add_sub_cancel, show k + 2 - 1 = k + 1 from rfl, hlast,
      UInt32.ofNat_toNat, hzeros, hdivisor, hhighest, hsecond, hrun, bind, Except.bind, pure, Except.pure]
    rw [replicate_succ, hbottom]
  · have hshifted : valueOf (shiftRightLoop shift (rest ++ [0])) = left := by
      rw [shiftRightLoop_exact (by omega), valueOf_append, valueOf_single, hleft, UInt32.toNat_zero, mul_zero,
        add_zero, Nat.mul_div_cancel_left _ hpos]
    have hfits : left < base ^ (k + 2) := hleftless.trans (hn ▸ valueOf_lt (bs ++ [limb]))
    rw [valueOf_take (by rwa [hshifted]), hshifted]
    exact ⟨hsum, hleftless⟩

end Dyn.Big
