import Mathlib.Data.List.Basic

/-!
# Ascending lists of a weak order

A list ascends if nothing comes before a smaller element.  Only a strict weak order is asked for, so that
elements may be equivalent without being equal.
-/

namespace Dyn.Lib

open List

variable {α : Type} {lt : α → α → Bool}

/-- No element is below one that comes before it. -/
def Ascending (lt : α → α → Bool) (values : List α) : Prop := values.Pairwise fun a b => lt b a = false

section WeakOrder

variable [IsStrictWeakOrder α fun a b => lt a b = true]

theorem lt_irrefl' (a : α) : lt a a = false := by
  have h : ¬ lt a a = true := Std.Irrefl.irrefl (r := fun a b => lt a b = true) a
  exact Bool.eq_false_iff.2 h

variable {a b : α}

theorem lt_trans' {c : α} (hab : lt a b = true) (hbc : lt b c = true) : lt a c = true :=
  IsTrans.trans (r := fun a b => lt a b = true) a b c hab hbc

theorem lt_asymm' (h : lt a b = true) : lt b a = false := by
  rw [Bool.eq_false_iff]
  intro h'
  exact absurd (lt_trans' h h') (by rw [@lt_irrefl' α lt _ a]; exact Bool.false_ne_true)

theorem not_lt_trans {c : α} (hba : lt b a = false) (hcb : lt c b = false) : lt c a = false := by
  cases hca : lt c a with
  | false => rfl
  | true =>
    cases hab : lt a b with
    | true => exact absurd (lt_trans' hca hab) (by rw [hcb]; exact Bool.false_ne_true)
    | false =>
      cases hbc : lt b c with
      | true => exact absurd (lt_trans' hbc hca) (by rw [hba]; exact Bool.false_ne_true)
      | false =>
        have hincomparable := @IsStrictWeakOrder.incomp_trans α (fun a b => lt a b = true) _ a b c
          ⟨Bool.eq_false_iff.1 hab, Bool.eq_false_iff.1 hba⟩ ⟨Bool.eq_false_iff.1 hbc, Bool.eq_false_iff.1 hcb⟩
        exact absurd hca hincomparable.2

theorem ascending_cons_cons {values : List α} :
    Ascending lt (a :: b :: values) ↔ lt b a = false ∧ Ascending lt (b :: values) := by
  rw [Ascending, Ascending, pairwise_cons]
  refine and_congr_left fun hrest => ⟨fun h => h b mem_cons_self, fun hba c hc => ?_⟩
  rcases mem_cons.1 hc with rfl | hc
  · exact hba
  · exact not_lt_trans hba ((pairwise_cons.1 hrest).1 c hc)

end WeakOrder

theorem ascending_append {front back : List α} :
    Ascending lt (front ++ back) ↔
      Ascending lt front ∧ Ascending lt back ∧ ∀ a ∈ front, ∀ b ∈ back, lt b a = false := pairwise_append

theorem ascending_nil : Ascending lt [] := List.Pairwise.nil

theorem ascending_singleton (a : α) : Ascending lt [a] := pairwise_singleton _ a

theorem Ascending.getElem {values : List α} (h : Ascending lt values) {i j : Nat} (hij : i < j) (hj : j < values.length) :
    lt values[j] values[i] = false := pairwise_iff_getElem.1 h i j (by omega) hj hij

end Dyn.Lib
