import Dyn.Lib.FlowGraph
import Mathlib.Order.Basic

/-!
# Iterative dominators

Dominator sets are kept as a tree: a table gives every processed vertex the vertex above it, and
the candidates of a vertex are those on its way up.  A turn moves one vertex to the deepest
common candidate of its processed predecessors.  When the turns follow an order in which every
vertex has an earlier predecessor, the candidates only shrink and never lose a dominator; where
no turn changes anything, they are the dominators.
-/

namespace Dyn.Lib
namespace Flow

open List

variable {V : Type} {edge : V → V → Prop} {entry : V} {rank : V → Nat} {tree : V → V}

/-- `y` is directly above `x` in the table. -/
def Parent (entry : V) (idom : V → Option V) (x y : V) : Prop := x ≠ entry ∧ idom x = some y

/-- `a` is `x` or further up. -/
def Above (entry : V) (idom : V → Option V) (a x : V) : Prop := Relation.ReflTransGen (Parent entry idom) x a

/-- An order of the reached vertices in which each but the entry has an earlier predecessor. -/
structure Ordered (edge : V → V → Prop) (entry : V) (rank : V → Nat) (tree : V → V) : Prop where
  entry_rank : rank entry = 0
  inj : ∀ x y, Reached edge entry x → Reached edge entry y → rank x = rank y → x = y
  tree_reached : ∀ x, Reached edge entry x → x ≠ entry → Reached edge entry (tree x)
  tree_edge : ∀ x, Reached edge entry x → x ≠ entry → edge (tree x) x
  tree_rank : ∀ x, Reached edge entry x → x ≠ entry → rank (tree x) < rank x

variable {idom : V → Option V}

theorem Above.refl (x : V) : Above entry idom x x := Relation.ReflTransGen.refl

theorem Above.up {a x y : V} (hx : x ≠ entry) (hidom : idom x = some y) (h : Above entry idom a y) :
    Above entry idom a x :=
  Relation.ReflTransGen.head ⟨hx, hidom⟩ h

theorem Above.trans {a b c : V} (hab : Above entry idom a b) (hbc : Above entry idom b c) :
    Above entry idom a c := Relation.ReflTransGen.trans hbc hab

theorem above_iff {a x y : V} (hx : x ≠ entry) (hidom : idom x = some y) :
    Above entry idom a x ↔ a = x ∨ Above entry idom a y := by
  constructor
  · intro h
    rcases Relation.ReflTransGen.cases_head h with heq | ⟨z, ⟨_, hz⟩, h⟩
    · exact .inl heq.symm
    · cases hidom.symm.trans hz
      exact .inr h
  rintro (rfl | h)
  · exact .refl _
  · exact h.up hx hidom

theorem above_entry_iff {a : V} : Above entry idom a entry ↔ a = entry := by
  constructor
  · intro h
    rcases Relation.ReflTransGen.cases_head h with heq | ⟨z, ⟨hne, _⟩, _⟩
    · exact heq.symm
    · exact absurd rfl hne
  · rintro rfl
    exact .refl _

theorem Above.total {a b x : V} (ha : Above entry idom a x) (hb : Above entry idom b x) :
    Above entry idom a b ∨ Above entry idom b a :=
  (Relation.ReflTransGen.total_of_right_unique
    (fun _ _ _ h h' => Option.some.inj (h.2.symm.trans h'.2)) ha hb).symm

/-- A table of candidates before the turn of the vertex in place `i`. -/
structure Approximation (edge : V → V → Prop) (entry : V) (rank : V → Nat) (tree : V → V) (i : Nat)
    (idom : V → Option V) : Prop where
  root : idom entry = some entry
  reached : ∀ x, (idom x).isSome → Reached edge entry x
  target : ∀ x y, idom x = some y → (idom y).isSome
  lower : ∀ x y, x ≠ entry → idom x = some y → rank y < rank x
  early : ∀ x, Reached edge entry x → rank x < i → (idom x).isSome
  treed : ∀ x, x ≠ entry → (idom x).isSome → (idom (tree x)).isSome
  sound : ∀ x d, (idom x).isSome → Dominates edge entry d x → Above entry idom d x
  shrink : ∀ x y, (idom x).isSome → x ≠ entry →
    (∀ p, edge p x → (idom p).isSome → Above entry idom y p) → Above entry idom y x
  fresh : ∀ x y, x ≠ entry → idom x = some y → rank x < i ∨ i ≤ rank y → Above entry idom y (tree x)

namespace Approximation

variable {i : Nat} {idom : V → Option V}

theorem above_rank (h : Approximation edge entry rank tree i idom) {a x : V} (ha : Above entry idom a x) :
    rank a ≤ rank x := by
  induction ha with
  | refl => exact Nat.le_refl _
  | tail _ hparent ih => exact Nat.le_trans (Nat.le_of_lt (h.lower _ _ hparent.1 hparent.2)) ih

theorem above_rank_lt (h : Approximation edge entry rank tree i idom) {a x : V} (ha : Above entry idom a x)
    (hne : a ≠ x) : rank a < rank x := by
  rcases Relation.ReflTransGen.cases_head ha with heq | ⟨y, hparent, ha⟩
  · exact absurd heq.symm hne
  · exact Nat.lt_of_le_of_lt (h.above_rank ha) (h.lower _ _ hparent.1 hparent.2)

theorem above_some (h : Approximation edge entry rank tree i idom) {a x : V} (ha : Above entry idom a x)
    (hx : (idom x).isSome) : (idom a).isSome := by
  induction ha with
  | refl => exact hx
  | tail _ hparent _ => exact h.target _ _ hparent.2

theorem above_antisymm (h : Approximation edge entry rank tree i idom) {a b : V}
    (hab : Above entry idom a b) (hba : Above entry idom b a) : a = b := by
  by_contra hne
  have hlt := h.above_rank_lt hab hne
  have hle := h.above_rank hba
  omega

end Approximation

/-- `d` is the deepest common candidate of the processed predecessors of `b`. -/
structure Meet (edge : V → V → Prop) (entry : V) (idom : V → Option V) (b d : V) : Prop where
  processed : (idom d).isSome
  above : ∀ y, Above entry idom y d ↔ ∀ p, edge p b → (idom p).isSome → Above entry idom y p

/-- The table after the turn at `b`. -/
structure Turned (idom : V → Option V) (b d : V) (idom' : V → Option V) : Prop where
  self : idom' b = some d
  other : ∀ x, x ≠ b → idom' x = idom x

section Turn

variable {i : Nat} {idom idom' : V → Option V} {b d : V}

theorem Turned.mono (h : Turned idom b d idom') {x : V} (hx : (idom x).isSome) : (idom' x).isSome := by
  by_cases hxb : x = b
  · subst hxb
    rw [h.self]
    rfl
  · rwa [h.other x hxb]

theorem Turned.apart (h : Turned idom b d idom') {x : V} (hx : ¬ Above entry idom b x) {a : V} :
    Above entry idom' a x ↔ Above entry idom a x := by
  constructor
  · intro ha
    induction ha using Relation.ReflTransGen.head_induction_on with
    | refl => exact .refl _
    | head hparent _ ih =>
      have hxb : _ ≠ b := fun heq => hx (heq ▸ .refl _)
      have hidom := (h.other _ hxb).symm.trans hparent.2
      exact (ih fun hb => hx (hb.up hparent.1 hidom)).up hparent.1 hidom
  intro ha
  induction ha using Relation.ReflTransGen.head_induction_on with
  | refl => exact .refl _
  | head hparent _ ih =>
    have hxb : _ ≠ b := fun heq => hx (heq ▸ .refl _)
    have hidom := (h.other _ hxb).trans hparent.2
    exact (ih fun hb => hx (hb.up hparent.1 hparent.2)).up hparent.1 hidom

/-- What is below `b` has the new candidates of `b`, and its old ones that are below `b`. -/
theorem Turned.below (h : Turned idom b d idom') (happrox : Approximation edge entry rank tree i idom) {x : V}
    (hx : Above entry idom b x) {a : V} :
    Above entry idom' a x ↔ Above entry idom' a b ∨ Above entry idom a x ∧ Above entry idom b a := by
  induction hx using Relation.ReflTransGen.head_induction_on with
  | refl =>
    constructor
    · exact .inl
    rintro (ha | ⟨hab, hba⟩)
    · exact ha
    · cases happrox.above_antisymm hab hba
      exact .refl _
  | @head x y hparent hby ih =>
    have hbelow : rank b < rank x :=
      Nat.lt_of_le_of_lt (happrox.above_rank hby) (happrox.lower _ _ hparent.1 hparent.2)
    have hxb : x ≠ b := fun heq => by
      subst heq
      exact Nat.lt_irrefl _ hbelow
    have hbx : Above entry idom b x := Above.up hparent.1 hparent.2 hby
    rw [above_iff hparent.1 ((h.other x hxb).trans hparent.2), ih, above_iff hparent.1 hparent.2]
    constructor
    · rintro (rfl | ha | ⟨ha, hba⟩)
      · exact .inr ⟨.inl rfl, hbx⟩
      · exact .inl ha
      · exact .inr ⟨.inr ha, hba⟩
    rintro (ha | ⟨rfl | ha, hba⟩)
    · exact .inr (.inl ha)
    · exact .inl rfl
    · exact .inr (.inr ⟨ha, hba⟩)

end Turn

section Keep

variable {i : Nat} {idom idom' : V → Option V} {b d : V}

/-- A turn at `b`, the vertex in place `i`. -/
structure Turn (edge : V → V → Prop) (entry : V) (rank : V → Nat) (i : Nat) (idom : V → Option V) (b d : V)
    (idom' : V → Option V) : Prop where
  ne : b ≠ entry
  reached : Reached edge entry b
  place : rank b = i
  meet : Meet edge entry idom b d
  turned : Turned idom b d idom'

variable (hord : Ordered edge entry rank tree) (happrox : Approximation edge entry rank tree i idom)
  (hturn : Turn edge entry rank i idom b d idom')

include hord happrox hturn

theorem tree_processed : (idom (tree b)).isSome :=
  happrox.early _ (hord.tree_reached _ hturn.reached hturn.ne)
    (hturn.place ▸ hord.tree_rank _ hturn.reached hturn.ne)

theorem meet_above_tree : Above entry idom d (tree b) :=
  (hturn.meet.above d).mp (.refl _) _ (hord.tree_edge _ hturn.reached hturn.ne)
    (tree_processed hord happrox hturn)

theorem meet_rank : rank d < rank b :=
  Nat.lt_of_le_of_lt (happrox.above_rank (meet_above_tree hord happrox hturn))
    (hord.tree_rank _ hturn.reached hturn.ne)

theorem above_turned_iff {a : V} : Above entry idom' a b ↔ a = b ∨ Above entry idom a d := by
  have hd : ¬ Above entry idom b d := fun h =>
    Nat.lt_irrefl _ (Nat.lt_of_lt_of_le (meet_rank hord happrox hturn) (happrox.above_rank h))
  rw [above_iff hturn.ne hturn.turned.self, hturn.turned.apart hd]

theorem above_of_turned {a x : V} (hx : (idom x).isSome) (ha : Above entry idom' a x) : Above entry idom a x := by
  by_cases hbx : Above entry idom b x
  · rcases (hturn.turned.below happrox hbx).mp ha with hab | ⟨ha, -⟩
    · rcases (above_turned_iff hord happrox hturn).mp hab with rfl | had
      · exact hbx
      · have hb := happrox.above_some hbx hx
        exact (happrox.shrink b a hb hturn.ne ((hturn.meet.above a).mp had)).trans hbx
    · exact ha
  · exact (hturn.turned.apart hbx).mp ha

omit hord in
/-- What is below `b` takes its candidates from a vertex whose tree predecessor is below `b` too. -/
theorem below_tree {x : V} (hne : x ≠ entry) (hxb : x ≠ b) (hx : (idom x).isSome) (hbx : Above entry idom b x) :
    Above entry idom b (tree x) := by
  obtain ⟨y, hy⟩ := Option.isSome_iff_exists.mp hx
  have hby : Above entry idom b y := ((above_iff hne hy).mp hbx).resolve_left (Ne.symm hxb)
  exact hby.trans (happrox.fresh x y hne hy (.inr (hturn.place ▸ happrox.above_rank hby)))

theorem turn_sound (x a : V) (hx : (idom' x).isSome) (hdom : Dominates edge entry a x) :
    Above entry idom' a x := by
  generalize hrank : rank x = n
  induction n using Nat.strongRecOn generalizing x with
  | _ n ih =>
    by_cases hxb : x = b
    · subst hxb
      rw [above_turned_iff hord happrox hturn]
      by_cases hne : a = x
      · exact .inl hne
      · exact .inr ((hturn.meet.above a).mpr fun p hedge hp => happrox.sound p a hp (hdom.pred hne hedge))
    have hold : (idom x).isSome := by rwa [hturn.turned.other x hxb] at hx
    have habove := happrox.sound x a hold hdom
    by_cases hbx : Above entry idom b x
    · rw [hturn.turned.below happrox hbx]
      rcases habove.total hbx with hab | hba
      · have hxe : x ≠ entry := by
          rintro rfl
          exact hxb (above_entry_iff.mp hbx).symm
        have htree := below_tree happrox hturn hxe hxb hold hbx
        have hax : a ≠ x := by
          rintro rfl
          exact hxb (happrox.above_antisymm hab hbx)
        have hreached := happrox.reached x hold
        have hstep := ih _ (hrank ▸ hord.tree_rank x hreached hxe) (tree x)
          (hturn.turned.mono (happrox.treed x hxe hold))
          (hdom.pred hax (hord.tree_edge x hreached hxe)) rfl
        rcases (hturn.turned.below happrox htree).mp hstep with h | ⟨-, h⟩
        · exact .inl h
        · exact .inr ⟨habove, h⟩
      · exact .inr ⟨habove, hba⟩
    · exact (hturn.turned.apart hbx).mpr habove

theorem turn_shrink (x y : V) (hx : (idom' x).isSome) (hne : x ≠ entry)
    (hall : ∀ p, edge p x → (idom' p).isSome → Above entry idom' y p) : Above entry idom' y x := by
  have hold : ∀ p, edge p x → (idom p).isSome → Above entry idom y p := fun p hedge hp =>
    above_of_turned hord happrox hturn hp (hall p hedge (hturn.turned.mono hp))
  by_cases hxb : x = b
  · subst hxb
    exact (above_turned_iff hord happrox hturn).mpr (.inr ((hturn.meet.above y).mpr hold))
  have hxold : (idom x).isSome := by rwa [hturn.turned.other x hxb] at hx
  have habove := happrox.shrink x y hxold hne hold
  by_cases hbx : Above entry idom b x
  · have htree := below_tree happrox hturn hne hxb hxold hbx
    have hstep := hall _ (hord.tree_edge x (happrox.reached x hxold) hne)
      (hturn.turned.mono (happrox.treed x hne hxold))
    rw [hturn.turned.below happrox hbx]
    rcases (hturn.turned.below happrox htree).mp hstep with h | ⟨-, h⟩
    · exact .inl h
    · exact .inr ⟨habove, h⟩
  · exact (hturn.turned.apart hbx).mpr habove

theorem turn_fresh (x y : V) (hne : x ≠ entry) (hidom : idom' x = some y)
    (hplace : rank x < i + 1 ∨ i + 1 ≤ rank y) : Above entry idom' y (tree x) := by
  by_cases hxb : x = b
  · subst hxb
    cases hturn.turned.self.symm.trans hidom
    have hapart : ¬ Above entry idom x (tree x) := fun h =>
      Nat.lt_irrefl _ (Nat.lt_of_le_of_lt (happrox.above_rank h) (hord.tree_rank x hturn.reached hne))
    exact (hturn.turned.apart hapart).mpr (meet_above_tree hord happrox hturn)
  rw [hturn.turned.other x hxb] at hidom
  have hreached := happrox.reached x (by rw [hidom]; rfl)
  rcases hplace with hlt | hle
  · have hbefore : rank x < i := by
      have hdiff : rank x ≠ rank b := fun heq => hxb (hord.inj x b hreached hturn.reached heq)
      have hplace := hturn.place
      omega
    have hapart : ¬ Above entry idom b (tree x) := by
      intro h
      have hle := happrox.above_rank h
      have hlt := hord.tree_rank x hreached hne
      have hplace := hturn.place
      omega
    exact (hturn.turned.apart hapart).mpr (happrox.fresh x y hne hidom (.inl hbefore))
  have habove := happrox.fresh x y hne hidom (.inr (by omega))
  by_cases hbt : Above entry idom b (tree x)
  · rcases habove.total hbt with hyb | hby
    · have hrank := happrox.above_rank hyb
      have hplace := hturn.place
      omega
    · exact (hturn.turned.below happrox hbt).mpr (.inr ⟨habove, hby⟩)
  · exact (hturn.turned.apart hbt).mpr habove

theorem Approximation.turn : Approximation edge entry rank tree (i + 1) idom' where
  root := (hturn.turned.other entry (Ne.symm hturn.ne)).trans happrox.root
  reached x hx := by
    by_cases hxb : x = b
    · exact hxb ▸ hturn.reached
    · exact happrox.reached x (by rwa [hturn.turned.other x hxb] at hx)
  target x y hy := by
    by_cases hxb : x = b
    · subst hxb
      cases hturn.turned.self.symm.trans hy
      exact hturn.turned.mono hturn.meet.processed
    · exact hturn.turned.mono (happrox.target x y (by rwa [hturn.turned.other x hxb] at hy))
  lower x y hne hy := by
    by_cases hxb : x = b
    · subst hxb
      cases hturn.turned.self.symm.trans hy
      exact meet_rank hord happrox hturn
    · exact happrox.lower x y hne (by rwa [hturn.turned.other x hxb] at hy)
  early x hx hlt := by
    by_cases hxb : x = b
    · subst hxb
      rw [hturn.turned.self]
      rfl
    have hdiff : rank x ≠ rank b := fun heq => hxb (hord.inj x b hx hturn.reached heq)
    have hplace := hturn.place
    exact hturn.turned.mono (happrox.early x hx (by omega))
  treed x hne hx := by
    by_cases hxb : x = b
    · subst hxb
      exact hturn.turned.mono (tree_processed hord happrox hturn)
    · exact hturn.turned.mono (happrox.treed x hne (by rwa [hturn.turned.other x hxb] at hx))
  sound := turn_sound hord happrox hturn
  shrink x y hx hne hall := turn_shrink hord happrox hturn x y hx hne hall
  fresh := turn_fresh hord happrox hturn

/-- A turn that changes the entry of a processed vertex moves it up. -/
theorem turn_moves_up {old : V} (hold : idom b = some old) (hne : d ≠ old) : rank d < rank old := by
  have hsome : (idom b).isSome := by
    rw [hold]
    rfl
  have hdb : Above entry idom d b :=
    happrox.shrink b d hsome hturn.ne ((hturn.meet.above d).mp (.refl _))
  have hself : d ≠ b := by
    rintro rfl
    exact Nat.lt_irrefl _ (meet_rank hord happrox hturn)
  have habove : Above entry idom d old := ((above_iff hturn.ne hold).mp hdb).resolve_left hself
  exact happrox.above_rank_lt habove hne

end Keep

section Ends

variable {i : Nat} {idom : V → Option V}

theorem approximation_start (hord : Ordered edge entry rank tree) (hroot : idom entry = some entry)
    (hnone : ∀ x, x ≠ entry → idom x = none) : Approximation edge entry rank tree 1 idom := by
  have honly : ∀ x, (idom x).isSome → x = entry := by
    intro x hx
    by_contra hne
    rw [hnone x hne] at hx
    cases hx
  have hsome : ∀ x y, x ≠ entry → idom x ≠ some y := by
    intro x y hne hy
    rw [hnone x hne] at hy
    cases hy
  refine ⟨hroot, fun x hx => ?_, fun x y hy => ?_, fun x y hne hy => absurd hy (hsome x y hne), fun x hx hlt => ?_,
    fun x hne hx => absurd (honly x hx) hne, fun x a hx hdom => ?_, fun x y hx hne _ => absurd (honly x hx) hne,
    fun x y hne hy _ => absurd hy (hsome x y hne)⟩
  · rw [honly x hx]
    exact entry_reached
  · by_cases hxe : x = entry
    · subst hxe
      cases hroot.symm.trans hy
      rw [hroot]
      rfl
    · exact absurd hy (hsome x y hxe)
  · have hxe : x = entry := hord.inj x entry hx entry_reached (by
      have hentry := hord.entry_rank
      omega)
    rw [hxe, hroot]
    rfl
  · rw [honly x hx] at hdom ⊢
    exact above_entry_iff.mpr (mem_singleton.mp (hdom _ .start))

theorem Approximation.again (h : Approximation edge entry rank tree i idom)
    (hall : ∀ x, Reached edge entry x → rank x < i) : Approximation edge entry rank tree 1 idom :=
  { h with
    early := fun x hx _ => h.early x hx (hall x hx)
    fresh := fun x y hne hy _ =>
      h.fresh x y hne hy (.inl (hall x (h.reached x (by rw [hy]; rfl)))) }

/-- **Where no turn changes anything the candidates are the dominators.** -/
theorem Approximation.exact (h : Approximation edge entry rank tree i idom)
    (hstable : ∀ b, Reached edge entry b → b ≠ entry → ∃ d, idom b = some d ∧ Meet edge entry idom b d) {x a : V}
    (hx : Reached edge entry x) : Above entry idom a x ↔ Dominates edge entry a x := by
  have hsome : ∀ b, Reached edge entry b → (idom b).isSome := by
    intro b hb
    by_cases hbe : b = entry
    · rw [hbe, h.root]
      rfl
    obtain ⟨d, hd, -⟩ := hstable b hb hbe
    rw [hd]
    rfl
  refine ⟨fun ha trail htrail => ?_, h.sound x a (hsome x hx)⟩
  clear hx
  induction htrail with
  | start =>
    rw [above_entry_iff.mp ha]
    exact mem_cons_self
  | @step u v trail htrail hedge ih =>
    by_cases hve : v = entry
    · subst hve
      rw [above_entry_iff.mp ha]
      exact mem_cons_self
    obtain ⟨d, hd, hmeet⟩ := hstable v ⟨_, htrail.step hedge⟩ hve
    rcases (above_iff hve hd).mp ha with rfl | had
    · exact mem_cons_self
    · exact mem_cons_of_mem _ (ih ((hmeet.above a).mp had u hedge (hsome u ⟨_, htrail⟩)))

/-- The vertex directly above another one is its immediate dominator. -/
theorem Approximation.immediate (h : Approximation edge entry rank tree i idom)
    (hstable : ∀ b, Reached edge entry b → b ≠ entry → ∃ d, idom b = some d ∧ Meet edge entry idom b d) {b d : V}
    (hb : Reached edge entry b) (hne : b ≠ entry) :
    idom b = some d ↔ ImmediateDominator edge entry d b := by
  have himmediate : ∀ {d}, idom b = some d → ImmediateDominator edge entry d b := by
    intro d hd
    have hlower := h.lower b d hne hd
    have hdb : d ≠ b := by
      rintro rfl
      exact Nat.lt_irrefl _ hlower
    have hdom := (h.exact hstable hb).mp ((Above.refl d).up hne hd)
    refine ⟨hdb, hdom, fun a hab ha => ?_⟩
    have habove := ((above_iff hne hd).mp ((h.exact hstable hb).mpr ha)).resolve_left hab
    exact (h.exact hstable (hdom.reached hb)).mp habove
  refine ⟨himmediate, fun hd => ?_⟩
  obtain ⟨d', hd', -⟩ := hstable b hb hne
  rw [hd', (himmediate hd').unique hd hb]

end Ends

end Flow
end Dyn.Lib
