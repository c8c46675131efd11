import Dyn.Backend.Build
import Dyn.Lib.Descent

/-!
# backend/ssa: definitions of variables

What `ssa_define`, `ssa_defined` and `ssa_resolve` compute: the table is a map from a variable and
a block to a value, and following copies ends as long as they make no circle.
-/

namespace Dyn.Backend

open Lib List

theorem defKey_inj {x y b c : Nat} (hb : b < 2 ^ 32) (hc : c < 2 ^ 32) (h : defKey x b = defKey y c) :
    x = y ∧ b = c := by
  unfold defKey at h
  rw [← Nat.shiftLeft_add_eq_or_of_lt hb, ← Nat.shiftLeft_add_eq_or_of_lt hc, Nat.shiftLeft_eq,
    Nat.shiftLeft_eq] at h
  omega

/-- The table is a map with room for more. -/
structure DefsOk (s : Ssa) : Prop where
  valid : s.defs = [] ∨ Probe.Valid defHash s.defs
  count : s.defCount = s.defs.countP Option.isSome
  room : 2 * s.defCount ≤ s.defs.length

theorem defsOk_empty (s : Ssa) (hdefs : s.defs = []) (hcount : s.defCount = 0) : DefsOk s := by
  refine ⟨.inl hdefs, ?_, ?_⟩
  · rw [hdefs, hcount]
    rfl
  · rw [hcount]
    exact Nat.zero_le _

variable {s : Ssa}

variable {s' : Ssa} {n r : Nat}

theorem DefsOk.congr (h : DefsOk s) (hdefs : s'.defs = s.defs) (hcount : s'.defCount = s.defCount) :
    DefsOk s' := by
  obtain ⟨hvalid, hc, hroom⟩ := h
  constructor
  · rw [hdefs]
    exact hvalid
  · rw [hdefs, hcount]
    exact hc
  · rw [hdefs, hcount]
    exact hroom

theorem ssaDefined_congr (hdefs : s'.defs = s.defs) (x b : Nat) :
    ssaDefined s' x b = ssaDefined s x b := by
  unfold ssaDefined
  rw [hdefs]

theorem lookup_nil (key : Nat) : Probe.lookup (V := Nat) defHash [] key = none := by
  simp [Probe.lookup]

theorem ssaDefined_empty (hdefs : s.defs = []) (x b : Nat) : ssaDefined s x b = none := by
  unfold ssaDefined
  rw [hdefs]
  exact lookup_nil _

theorem lookup_replicate (capacity key : Nat) :
    Probe.lookup (V := Nat) defHash (replicate capacity none) key = none := by
  unfold Probe.lookup
  rw [Probe.getD_replicate_none]

theorem growDefs_spec (h : DefsOk s) :
    Probe.Valid defHash (growDefs s).defs ∧ (growDefs s).defCount = (growDefs s).defs.countP Option.isSome ∧
      2 * ((growDefs s).defCount + 1) ≤ (growDefs s).defs.length ∧
      ∀ key, Probe.lookup defHash (growDefs s).defs key = Probe.lookup defHash s.defs key := by
  have hroom := h.room
  have hcount := h.count
  unfold growDefs
  split
  · rcases h.valid with hnil | hvalid
    · have hzero : s.defCount = 0 := by
        rw [hcount, hnil]
        rfl
      dsimp only
      rw [hnil, hzero, length_nil, if_neg (not_not_intro rfl), foldl_nil]
      refine ⟨Probe.valid_replicate defHash (by omega), (Probe.countP_replicate_none 1024).symm, ?_, fun key => ?_⟩
      · rw [length_replicate]
        omega
      · rw [lookup_replicate, lookup_nil]
    have hlength : s.defs.length ≠ 0 := by
      obtain ⟨i, hi, -⟩ := hvalid.free
      omega
    have hmore : s.defs.countP Option.isSome < 2 * s.defs.length := by omega
    obtain ⟨hvalid', hlength', hcount', hsame⟩ := Probe.grow_spec hvalid hmore
    dsimp only
    rw [if_pos hlength]
    refine ⟨hvalid', by omega, by omega, hsame⟩
  · rename_i hfull
    rcases h.valid with hnil | hvalid
    · rw [hnil, length_nil] at hfull
      omega
    · exact ⟨hvalid, hcount, by omega, fun _ => rfl⟩

theorem ssaDefine_fields (s : Ssa) (x b v : Nat) :
    (ssaDefine s x b v).values = s.values ∧ (ssaDefine s x b v).blocks = s.blocks ∧
      (ssaDefine s x b v).lists = s.lists ∧ (ssaDefine s x b v).pending = s.pending ∧
      (ssaDefine s x b v).current = s.current := by
  unfold ssaDefine growDefs
  split <;> exact ⟨rfl, rfl, rfl, rfl, rfl⟩

theorem ssaDefine_spec (h : DefsOk s) (x b v : Nat) :
    DefsOk (ssaDefine s x b v) ∧ ∀ y c, ssaDefined (ssaDefine s x b v) y c =
      if defKey y c = defKey x b then some v else ssaDefined s y c := by
  obtain ⟨hvalid, hcount, hroom, hsame⟩ := growDefs_spec h
  have hslot : Probe.slotOf defHash (growDefs s).defs (defKey x b) < (growDefs s).defs.length := by
    obtain ⟨d, -, heq, -⟩ := Probe.slotOf_spec (defKey x b) hvalid
    rw [heq]
    exact Nat.mod_lt _ (by omega)
  have hcountP : (Probe.insert defHash (growDefs s).defs (defKey x b) v).countP Option.isSome =
      (growDefs s).defs.countP Option.isSome +
        if (growDefs s).defs.getD (Probe.slotOf defHash (growDefs s).defs (defKey x b)) none = none then 1 else 0 :=
    Probe.countP_set_some hslot
  have hlength : (Probe.insert defHash (growDefs s).defs (defKey x b) v).length = (growDefs s).defs.length :=
    length_set
  have hfree : ∃ i < (growDefs s).defs.length,
      (Probe.insert defHash (growDefs s).defs (defKey x b) v).getD i none = none := by
    rw [← hlength]
    refine Probe.free_of_count ?_
    rw [hcountP, hlength, ← hcount]
    split <;> omega
  obtain ⟨hvalid', hlookup⟩ := Probe.insert_spec hvalid (defKey x b) v hfree
  refine ⟨⟨.inr hvalid', ?_, ?_⟩, fun y c => ?_⟩
  · unfold ssaDefine
    dsimp only
    rw [hcountP, ← hcount]
    split <;> rfl
  · unfold ssaDefine
    dsimp only
    rw [hlength]
    split <;> omega
  · unfold ssaDefined ssaDefine
    rw [hlookup, hsame]

theorem ssaDefined_self (h : DefsOk s) (x b v : Nat) :
    ssaDefined (ssaDefine s x b v) x b = some v := by
  rw [(ssaDefine_spec h x b v).2, if_pos rfl]

def copyOf (s : Ssa) (v : Nat) : Option Nat := if (s.value v).op = .copy then (s.value v).a else none

/-- Every copy is of some value, and the copies make no circle. -/
structure CopiesEnd (s : Ssa) : Prop where
  source : ∀ v, (s.value v).op = .copy → (s.value v).a ≠ none
  ends : ∀ v, ∃ n r, Descent (copyOf s) n v r

def root (s : Ssa) (v : Nat) : Nat := (ssaResolve s v).getD v

theorem value_outside {v : Nat} (hv : ¬ v < s.values.length) : s.value v = default := by
  unfold Ssa.value
  rw [getD_eq_getElem?_getD, getElem?_eq_none (Nat.le_of_not_lt hv), Option.getD_none]

theorem copyOf_lt {v : Nat} (h : copyOf s v ≠ none) : v < s.values.length := by
  by_contra hlt
  refine h ?_
  unfold copyOf
  rw [value_outside hlt]
  rfl

theorem CopiesEnd.copyOf_none (h : CopiesEnd s) {v : Nat} :
    copyOf s v = none ↔ (s.value v).op ≠ .copy := by
  unfold copyOf
  split_ifs with hop
  · exact iff_of_false (h.source v hop) (not_not_intro hop)
  · exact iff_of_true rfl hop

theorem CopiesEnd.follow (h : CopiesEnd s) {v : Nat} (hdescent : Descent (copyOf s) n v r) :
    ∀ fuel > n, resolveLoop s fuel v = some r := by
  induction hdescent with
  | @stop v hnone =>
    intro fuel hfuel
    obtain ⟨fuel, rfl⟩ : ∃ k, fuel = k + 1 := ⟨fuel - 1, by omega⟩
    unfold resolveLoop
    rw [if_neg (h.copyOf_none.mp hnone)]
  | @step v u r n hsome _ ih =>
    intro fuel hfuel
    obtain ⟨fuel, rfl⟩ : ∃ k, fuel = k + 1 := ⟨fuel - 1, by omega⟩
    unfold copyOf at hsome
    split at hsome
    · rename_i hop
      unfold resolveLoop
      rw [if_pos hop, hsome]
      exact ih fuel (by omega)
    · cases hsome

theorem CopiesEnd.resolve_eq (h : CopiesEnd s) {v : Nat} (hdescent : Descent (copyOf s) n v r) :
    ssaResolve s v = some r := by
  have hn : n ≤ (range s.values.length).length :=
    hdescent.le_length _ fun u hu => mem_range.mpr (copyOf_lt hu)
  rw [length_range] at hn
  exact h.follow hdescent _ (by omega)

theorem CopiesEnd.root_eq (h : CopiesEnd s) {v : Nat} (hdescent : Descent (copyOf s) n v r) :
    root s v = r := by
  unfold root
  rw [h.resolve_eq hdescent, Option.getD_some]

theorem CopiesEnd.descent (h : CopiesEnd s) (v : Nat) : ∃ n, Descent (copyOf s) n v (root s v) := by
  obtain ⟨n, r, hdescent⟩ := h.ends v
  rw [h.root_eq hdescent]
  exact ⟨n, hdescent⟩

theorem CopiesEnd.resolve (h : CopiesEnd s) (v : Nat) : ssaResolve s v = some (root s v) := by
  obtain ⟨n, hdescent⟩ := h.descent v
  exact h.resolve_eq hdescent

theorem CopiesEnd.root_op (h : CopiesEnd s) (v : Nat) : (s.value (root s v)).op ≠ .copy := by
  obtain ⟨n, hdescent⟩ := h.descent v
  exact h.copyOf_none.mp hdescent.last

theorem CopiesEnd.root_self (h : CopiesEnd s) {v : Nat} (hop : (s.value v).op ≠ .copy) :
    root s v = v :=
  h.root_eq (.stop (h.copyOf_none.mpr hop))

theorem CopiesEnd.root_root (h : CopiesEnd s) (v : Nat) : root s (root s v) = root s v :=
  h.root_self (h.root_op v)

theorem CopiesEnd.congr (h : CopiesEnd s)
    (hcopy : ∀ v, ((s'.value v).op = .copy ↔ (s.value v).op = .copy) ∧
      ((s.value v).op = .copy → (s'.value v).a = (s.value v).a)) :
    CopiesEnd s' ∧ ∀ v, root s' v = root s v := by
  have hsame : copyOf s' = copyOf s := by
    funext v
    obtain ⟨hop, ha⟩ := hcopy v
    unfold copyOf
    by_cases hcase : (s.value v).op = .copy
    · rw [if_pos hcase, if_pos (hop.mpr hcase), ha hcase]
    · rw [if_neg hcase, if_neg fun h' => hcase (hop.mp h')]
  have h' : CopiesEnd s' := by
    refine ⟨fun v hv => ?_, ?_⟩
    · rw [(hcopy v).2 ((hcopy v).1.mp hv)]
      exact h.source v ((hcopy v).1.mp hv)
    · rw [hsame]
      exact h.ends
  refine ⟨h', fun v => ?_⟩
  obtain ⟨n, hdescent⟩ := h.descent v
  rw [← hsame] at hdescent
  exact h'.root_eq hdescent

/-- A value that becomes a copy of another root takes all that stands for it along. -/
theorem CopiesEnd.merge {s s' : Ssa} (h : CopiesEnd s) {phi same : Nat} (hphi : (s.value phi).op ≠ .copy)
    (hsame : (s.value same).op ≠ .copy) (hne : same ≠ phi)
    (hop : (s'.value phi).op = .copy) (ha : (s'.value phi).a = some same)
    (hother : ∀ v, v ≠ phi → ((s'.value v).op = .copy ↔ (s.value v).op = .copy) ∧ (s'.value v).a = (s.value v).a) :
    CopiesEnd s' ∧ ∀ v, root s' v = if root s v = phi then same else root s v := by
  have hcopyOf : ∀ v, v ≠ phi → copyOf s' v = copyOf s v := by
    intro v hv
    obtain ⟨hcase, ha'⟩ := hother v hv
    unfold copyOf
    rw [ha']
    by_cases hv' : (s.value v).op = .copy
    · rw [if_pos hv', if_pos (hcase.mpr hv')]
    · rw [if_neg hv', if_neg fun h' => hv' (hcase.mp h')]
  have hphi' : copyOf s' phi = some same := by
    unfold copyOf
    rw [if_pos hop, ha]
  have hstop : Descent (copyOf s') 0 same same := by
    refine .stop ?_
    rw [hcopyOf same hne]
    exact h.copyOf_none.mpr hsame
  have hdescent : ∀ {n v r : Nat}, Descent (copyOf s) n v r →
      ∃ m, Descent (copyOf s') m v (if r = phi then same else r) := by
    intro n v r hd
    induction hd with
    | @stop v hnone =>
      by_cases hv : v = phi
      · subst hv
        rw [if_pos rfl]
        exact ⟨1, .step hphi' hstop⟩
      · rw [if_neg hv]
        exact ⟨0, .stop ((hcopyOf v hv).trans hnone)⟩
    | @step v u r n hsome _ ih =>
      obtain ⟨m, hm⟩ := ih
      have hv : v ≠ phi := by
        rintro rfl
        rw [h.copyOf_none.mpr hphi] at hsome
        cases hsome
      exact ⟨m + 1, .step ((hcopyOf v hv).trans hsome) hm⟩
  have h' : CopiesEnd s' := by
    refine ⟨fun v hv => ?_, fun v => ?_⟩
    · by_cases heq : v = phi
      · rw [heq, ha]
        exact Option.some_ne_none _
      · rw [(hother v heq).2]
        exact h.source v ((hother v heq).1.mp hv)
    obtain ⟨n, hd⟩ := h.descent v
    obtain ⟨m, hm⟩ := hdescent hd
    exact ⟨m, _, hm⟩
  refine ⟨h', fun v => ?_⟩
  obtain ⟨n, hd⟩ := h.descent v
  obtain ⟨m, hm⟩ := hdescent hd
  exact h'.root_eq hm

end Dyn.Backend
