import Mathlib.Data.Set.Finite.Basic

/-!
# Circles of a relation

From a point of a finite set that a relation does not leave, the relation leads into no circle
exactly where everything it leads to can be handled before the point itself.
-/

namespace Dyn.Lib

variable {V : Type} {r : V → V → Prop}

/-- The points that come after every point that the relation leads to. -/
abbrev Grounded (r : V → V → Prop) (v : V) : Prop := Acc (fun a b => r b a) v

theorem Grounded.no_circle {v : V} (h : Grounded r v) : ¬ Relation.TransGen r v v := by
  induction h with
  | intro v _ ih =>
    intro hcircle
    obtain ⟨u, hstep, hback⟩ := Relation.TransGen.head'_iff.mp hcircle
    exact ih u hstep (Relation.TransGen.tail' hback hstep)

/-- Where a finite set is not left and has no circle, all its points are grounded. -/
theorem grounded_of_no_circle {s : Set V} (hs : s.Finite) (hclosed : ∀ v ∈ s, ∀ u, r v u → u ∈ s)
    (hnone : ∀ v ∈ s, ¬ Relation.TransGen r v v) : ∀ v ∈ s, Grounded r v := by
  have : Finite s := hs
  let below : s → s → Prop := fun a b => Relation.TransGen r b.1 a.1
  have : Std.Irrefl below := ⟨fun a ha => hnone a.1 a.2 ha⟩
  have hwf : WellFounded below := Finite.wellFounded_of_trans_of_irrefl below
  have hall : ∀ v : s, Grounded r v.1 := fun v => by
    induction v using hwf.induction with
    | h v ih => exact .intro _ fun u hu => ih ⟨u, hclosed _ v.2 u hu⟩ (.single hu)
  exact fun v hv => hall ⟨v, hv⟩

end Dyn.Lib
