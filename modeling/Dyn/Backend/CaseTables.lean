import Dyn.Backend.CaseRuns

/-!
# backend/ssa: jump tables

The jump table of a case leads each value to the arm to which the compare chain leads it.
-/

namespace Dyn.Backend

open List

section

variable {closed : Nat → Prop} {s s' u : Ssa} {subject b : Nat} {x : BitVec 64} {code : CaseCode} {type : CaseType}
  {arms : List DynIrCaseArm} {done : Nat} {starts : List CaseStart}

theorem Leaves.emit (h : s.current = some b) (op : SsaOp) (cls : SsaClass) (p q r : Option Nat) (aux aux2 : BitVec 64) :
    Leaves (· ≠ b) s (ssaEmit s op cls p q r aux aux2).1 := by
  have hvalue : Leaves (· ≠ b) s (ssaValue s b op cls p q r aux aux2).1 := .append _ rfl rfl rfl rfl rfl
  have hplace : Leaves (· ≠ b) (ssaValue s b op cls p q r aux aux2).1 (ssaEmit s op cls p q r aux aux2).1 := by
    unfold ssaEmit
    rw [h]
    exact .updateBlock (fun hne => absurd rfl hne) fun _ => prefix_refl _
  exact hvalue.trans hplace

theorem Leaves.emitTrap (h : s.current = some b) (c : Nat) : Leaves (fun d => d ≠ b ∧ d ≠ c) s (emitTrap s c) :=
  ((Leaves.emit h .trap .none none none none 0 0).mono fun _ _ hd => hd.1).trans
    (.updateBlock (fun hd => absurd rfl hd.2) fun _ => prefix_refl _)

theorem Leaves.finishCase (closed : Nat → Prop) (hw : Waits s) (h : finishCase s done = some s') : Leaves closed s s' := by
  obtain ⟨s1, hseal, h⟩ := Option.bind_eq_some_iff.mp h
  cases h
  have hcurrent : Leaves closed s { s with current := none } := .same _ rfl rfl rfl rfl fun hu => hu
  have hsealed := hcurrent.trans (.sealed closed (hcurrent.waits hw) hseal)
  exact hsealed.trans (.same _ rfl rfl rfl rfl fun hu => hu)

/-- The report of an invalid tag and the trap are added from the block on in which they begin. -/
theorem Leaves.invalidTag (hw : Waits s) (hcurrent : s.current = some b)
    (h : ssaCaseInvalidTag code type s = some s') :
    Leaves (· ≠ b) s s' ∧ ∃ b', s'.current = some b' ∧ (b' = b ∨ s.blocks.length ≤ b') := by
  unfold ssaCaseInvalidTag at h
  split at h
  · cases h
    exact ⟨.refl _ s, b, hcurrent, .inl rfl⟩
  obtain ⟨hadds, hplace⟩ := code.tagCheck_adds s s' b hcurrent h
  refine ⟨(hadds.leaves hw).mono fun c hc hne => ?_, hplace⟩
  rintro (heq | hle)
  · exact hne heq
  · exact absurd hc (Nat.not_lt_of_le hle)

theorem chainFallback_spec (done : Nat) (hw : Waits s) (h : chainFallback code type s = some (s', starts)) :
    Leaves (fun c => s.current ≠ some c) s s' ∧
      (∀ fallback, s.current = some fallback → starts = [⟨none, fallback⟩]) ∧
      starts.map (·.arm) <+ [none] ∧
      ((∀ c, s.current = some c → Fresh s c) → ∀ u, Leaves (fun _ => True) s' u →
        ∀ start ∈ starts, Emitted code type done u start) := by
  unfold chainFallback at h
  split at h
  · rename_i hnone
    cases h
    refine ⟨.refl _ s, fun fallback hcurrent => ?_, nil_sublist _, fun _ _ _ => forall_mem_nil _⟩
    rw [hnone] at hcurrent
    cases hcurrent
  rename_i fallback hcurrent
  obtain ⟨s1, htag, h⟩ := Option.bind_eq_some_iff.mp h
  cases h
  obtain ⟨hleaves, b', hcurrent', hplace⟩ := Leaves.invalidTag hw hcurrent htag
  rw [hcurrent', Option.getD_some, hcurrent]
  have hend : ∀ closed, Leaves closed (emitTrap s1 b') { emitTrap s1 b' with current := none } := fun closed =>
    .same closed rfl rfl rfl rfl fun hu => hu
  have hlast := ((Leaves.emitTrap hcurrent' b').mono fun _ _ hne => ⟨hne, hne⟩).trans (hend (· ≠ b'))
  have hall := hleaves.comp hlast fun c hc hne => by
    rcases hplace with heq | hle <;> omega
  refine ⟨hall.mono fun c _ hne heq => hne (congrArg some heq.symm), fun c hc => ?_, .refl _,
    fun hfresh u hu => forall_mem_singleton.mpr ?_⟩
  · cases hc
    rfl
  · exact ⟨s, _, hcurrent, hfresh fallback rfl, ⟨s1, b', htag, .inr hcurrent', rfl⟩,
      (hend _).trans (hu.mono fun _ _ _ => trivial)⟩

theorem chainPatterns_gaveUp {body : Nat} : ∀ (patterns : List DynIrPattern) {s s' : Ssa},
    chainPatterns type subject body patterns s = some (.gaveUp s') → s'.unsupported = true := by
  intro patterns
  induction patterns with
  | nil =>
    intro s s' h
    cases h
  | cons p patterns ih =>
    intro s s' h
    unfold chainPatterns at h
    split at h
    · cases h
      rfl
    · obtain ⟨s1, -, h⟩ := Option.bind_eq_some_iff.mp h
      exact ih h

theorem chainArms_gaveUp : ∀ (arms : List DynIrCaseArm) {i : Nat} {s s' : Ssa} {starts : List CaseStart},
    chainArms code type subject done i arms s = some (.gaveUp s', starts) → s'.unsupported = true := by
  intro arms
  induction arms with
  | nil =>
    intro i s s' starts h
    cases h
  | cons arm arms ih =>
    intro i s s' starts h
    by_cases hstop : s.unsupported = true ∨ s.current = none
    · rw [chainArms, if_pos hstop] at h
      cases h
    rw [chainArms_cons _ _ _ _ _ _ _ hstop] at h
    obtain ⟨c, hpatterns, h⟩ := Option.bind_eq_some_iff.mp h
    cases c with
    | gaveUp s3 =>
      cases h
      exact chainPatterns_gaveUp arm.patterns hpatterns
    | on s3 =>
      obtain ⟨s5, -, h⟩ := Option.bind_eq_some_iff.mp h
      obtain ⟨s6, -, h⟩ := Option.bind_eq_some_iff.mp h
      obtain ⟨s7, -, h⟩ := Option.bind_eq_some_iff.mp h
      obtain ⟨r, hrest, h⟩ := Option.bind_eq_some_iff.mp h
      obtain ⟨c, starts'⟩ := r
      cases h
      exact ih hrest

/-- The starts of the arms, in their order, and that of the values that no arm takes. -/
theorem Starts.of_arms {starts1 starts2 : List CaseStart} {n : Nat}
    (honce : starts1.map (·.arm) <+ (List.range' 0 n).map some) (honce' : starts2.map (·.arm) <+ [none])
    (h : ∀ start ∈ starts1, Emitted code type done u start) (h' : ∀ start ∈ starts2, Emitted code type done u start) :
    Starts code type done u (starts1 ++ starts2) := by
  refine ⟨?_, forall_mem_append.mpr ⟨h, h'⟩⟩
  rw [map_append]
  refine (honce.append honce').nodup (nodup_append.mpr ⟨?_, pairwise_singleton .., fun arm harm arm' harm' => ?_⟩)
  · exact Pairwise.map some (fun _ _ hne heq => hne (Option.some.inj heq)) nodup_range'
  obtain ⟨k, -, rfl⟩ := mem_map.mp harm
  rw [mem_singleton.mp harm']
  exact Option.some_ne_none k

/-- **The compare chain leads each value to the arm that takes it.** -/
theorem ssaCaseChain_spec (h : OpenAt s b) (hw : Waits s) (hsubject : subject < s.values.length) (harms : arms ≠ [])
    (hrun : ssaCaseChain code type arms s subject done = some (u, starts)) (hsupported : u.unsupported = false) :
    Starts code type done u starts ∧
      ∀ x, ∃ body, ⟨takenArm type arms x, body⟩ ∈ starts ∧ Continues subject x s u body b := by
  obtain ⟨⟨c, starts1⟩, hchain, hrun⟩ := Option.bind_eq_some_iff.mp hrun
  cases c with
  | gaveUp s1 =>
    cases hrun
    rw [chainArms_gaveUp arms hchain] at hsupported
    cases hsupported
  | on s1 =>
    obtain ⟨⟨s2, starts2⟩, hfallback, hrun⟩ := Option.bind_eq_some_iff.mp hrun
    obtain ⟨s3, hdone, hrun⟩ := Option.bind_eq_some_iff.mp hrun
    cases hrun
    have hchained := chainArms_spec arms h hw hchain
    have hw1 := hchained.leaves.waits hw
    obtain ⟨hleaves, hstarts, honce, hemitted⟩ := chainFallback_spec done hw1 hfallback
    have hdone' : ∀ closed, Leaves closed s2 u := fun closed => .finishCase closed (hleaves.waits hw1) hdone
    have hlater : Leaves (fun c => s1.current ≠ some c) s1 u := hleaves.trans (hdone' _)
    have hsupported1 : s1.unsupported = false := by
      refine Bool.eq_false_iff.mpr fun hu => ?_
      rw [hlater.unsupported hu] at hsupported
      cases hsupported
    refine ⟨.of_arms hchained.once honce (hchained.emitted u (hlater.mono fun _ _ hc => hc.1))
      (hemitted (fun c hc => (hchained.current c hc).2.2 hsupported1 harms) u (hdone' _)), fun x => ?_⟩
    have htaken := hchained.taken _ u x hsupported1 hlater (fun _ _ hne => hne) hsubject
    cases htakes : takenArm type arms x with
    | some k =>
      rw [htakes] at htaken
      obtain ⟨body, hmem, hbody⟩ := htaken
      rw [Nat.zero_add] at hmem
      exact ⟨body, mem_append_left _ hmem, hbody⟩
    | none =>
      rw [htakes] at htaken
      obtain ⟨b', hb', hbody⟩ := htaken harms
      rw [hstarts b' hb']
      exact ⟨b', mem_append_right _ (mem_singleton_self _), hbody⟩

/-- The patterns of an arm are single values between the minimum and the maximum. -/
def Within (type : CaseType) (t : TableScan) (arm : DynIrCaseArm) : Prop :=
  arm.wildcard = false ∧ ∀ p ∈ arm.patterns, ∃ v, ssaPatternRange type p = some (v, v) ∧
    t.minimum.toInt ≤ v.toInt ∧ v.toInt ≤ t.maximum.toInt

def Widens (t t' : TableScan) : Prop := t'.minimum.toInt ≤ t.minimum.toInt ∧ t.maximum.toInt ≤ t'.maximum.toInt

theorem Widens.trans {t1 t2 t3 : TableScan} (h : Widens t1 t2) (h' : Widens t2 t3) : Widens t1 t3 :=
  ⟨Int.le_trans h'.1 h.1, Int.le_trans h.2 h'.2⟩

theorem TableScan.add_spec (t : TableScan) (v : BitVec 64) :
    Widens t (t.add v) ∧ (t.add v).minimum.toInt ≤ v.toInt ∧ v.toInt ≤ (t.add v).maximum.toInt := by
  have hmin : (t.add v).minimum.toInt ≤ t.minimum.toInt ∧ (t.add v).minimum.toInt ≤ v.toInt := by
    unfold TableScan.add
    split
    · rename_i hlt
      rw [BitVec.slt_iff_toInt_lt] at hlt
      exact ⟨Int.le_of_lt hlt, Int.le_refl _⟩
    rename_i hle
    rw [BitVec.slt_iff_toInt_lt] at hle
    exact ⟨Int.le_refl _, Int.not_lt.mp hle⟩
  have hmax : t.maximum.toInt ≤ (t.add v).maximum.toInt ∧ v.toInt ≤ (t.add v).maximum.toInt := by
    unfold TableScan.add
    dsimp only
    split
    · rename_i hlt
      rw [BitVec.slt_iff_toInt_lt] at hlt
      exact ⟨Int.le_of_lt hlt, Int.le_refl _⟩
    rename_i hle
    rw [BitVec.slt_iff_toInt_lt] at hle
    exact ⟨Int.le_refl _, Int.not_lt.mp hle⟩
  exact ⟨⟨hmin.1, hmax.1⟩, hmin.2, hmax.2⟩

theorem scanPatterns_spec : ∀ (patterns : List DynIrPattern) {t t' : TableScan},
    scanPatterns type patterns t = some t' → Widens t t' ∧ ∀ p ∈ patterns, ∃ v, ssaPatternRange type p = some (v, v) ∧
      t'.minimum.toInt ≤ v.toInt ∧ v.toInt ≤ t'.maximum.toInt := by
  intro patterns
  induction patterns with
  | nil =>
    intro t t' h
    cases h
    exact ⟨⟨Int.le_refl _, Int.le_refl _⟩, fun p hp => absurd hp not_mem_nil⟩
  | cons p patterns ih =>
    intro t t' h
    unfold scanPatterns at h
    split at h
    · cases h
    rename_i first last hrange
    split at h
    · cases h
    rename_i hsame
    rw [not_ne_iff] at hsame
    subst hsame
    obtain ⟨hwidens, hall⟩ := ih h
    obtain ⟨hadd, hmin, hmax⟩ := t.add_spec first
    refine ⟨hadd.trans hwidens, fun q hq => ?_⟩
    rcases mem_cons.mp hq with rfl | hq
    · exact ⟨first, hrange, Int.le_trans hwidens.1 hmin, Int.le_trans hmax hwidens.2⟩
    · exact hall q hq

theorem scanArms_spec : ∀ (arms : List DynIrCaseArm) {i : Nat} {t t' : TableScan} {wildcard : Option Nat},
    scanArms type i arms t = some (t', wildcard) → Widens t t' ∧ ∃ before rest, arms = before ++ rest ∧
      (∀ arm ∈ before, Within type t' arm) ∧
      match wildcard with
      | none => rest = []
      | some k => k = i + before.length ∧ ∃ arm rest', rest = arm :: rest' ∧ arm.wildcard = true := by
  intro arms
  induction arms with
  | nil =>
    intro i t t' wildcard h
    cases h
    exact ⟨⟨Int.le_refl _, Int.le_refl _⟩, [], [], rfl, fun arm harm => absurd harm not_mem_nil, rfl⟩
  | cons arm arms ih =>
    intro i t t' wildcard h
    unfold scanArms at h
    split at h
    · rename_i hwild
      split at h
      · cases h
      cases h
      exact ⟨⟨Int.le_refl _, Int.le_refl _⟩, [], arm :: arms, rfl, fun arm harm => absurd harm not_mem_nil,
        rfl, arm, arms, rfl, hwild⟩
    rename_i hwild
    split at h
    · cases h
    rename_i t1 hscan
    obtain ⟨hwidens, hall⟩ := scanPatterns_spec arm.patterns hscan
    obtain ⟨hwidens', before, rest, harms, hbefore, hrest⟩ := ih h
    refine ⟨hwidens.trans hwidens', arm :: before, rest, by rw [harms]; rfl, fun a ha => ?_, ?_⟩
    · rcases mem_cons.mp ha with rfl | ha
      · refine ⟨Bool.eq_false_iff.mpr hwild, fun p hp => ?_⟩
        obtain ⟨v, hv, hmin, hmax⟩ := hall p hp
        exact ⟨v, hv, Int.le_trans hwidens'.1 hmin, Int.le_trans hmax hwidens'.2⟩
      · exact hbefore a ha
    cases wildcard with
    | none => exact hrest
    | some k =>
      obtain ⟨hk, hwild'⟩ := hrest
      refine ⟨?_, hwild'⟩
      rw [hk, length_cons]
      omega

theorem slot_le {low high v : BitVec 64} (hlow : low.toInt ≤ v.toInt) (hhigh : v.toInt ≤ high.toInt) :
    (v - low).toNat ≤ (high - low).toNat := by
  rw [BitVec.toNat_sub, BitVec.toNat_sub]
  rw [BitVec.toInt_eq_toNat_cond, BitVec.toInt_eq_toNat_cond] at hlow hhigh
  omega

theorem patternHolds_single {p : DynIrPattern} {v : BitVec 64} (h : ssaPatternRange type p = some (v, v)) :
    patternHolds type x p = true ↔ x = v := by
  unfold patternHolds
  rw [h]
  exact rangeHolds_self type x v

variable (minimum : BitVec 64)

theorem fillPatterns_length (body : Nat) (patterns : List DynIrPattern) (targets : List Nat) :
    (fillPatterns type minimum body patterns targets).length = targets.length := by
  induction patterns with
  | nil => rfl
  | cons p patterns ih =>
    unfold fillPatterns
    rw [foldr_cons]
    split
    · exact ih
    · rw [length_set]
      exact ih

variable {targets : List Nat} {wildcard : Option Nat}

theorem fillPatterns_spec {minimum : BitVec 64} {body : Nat}
    (hslot : (x - minimum).toNat < targets.length) : ∀ (patterns : List DynIrPattern),
      (∀ p ∈ patterns, ∃ v, ssaPatternRange type p = some (v, v)) →
      (fillPatterns type minimum body patterns targets).getD (x - minimum).toNat 0 =
        if patterns.any (patternHolds type x) then body else targets.getD (x - minimum).toNat 0 := by
  intro patterns
  induction patterns with
  | nil => exact fun _ => rfl
  | cons p patterns ih =>
    intro hsingle
    obtain ⟨v, hv⟩ := hsingle p mem_cons_self
    have hrest := ih fun q hq => hsingle q (mem_cons_of_mem p hq)
    have hcons : fillPatterns type minimum body (p :: patterns) targets =
        (fillPatterns type minimum body patterns targets).set (v - minimum).toNat body := by
      unfold fillPatterns
      rw [foldr_cons, hv]
    rw [hcons, any_cons, getD_eq_getElem?_getD, getElem?_set]
    by_cases hx : x = v
    · rw [← hx, if_pos rfl, if_pos (by rw [fillPatterns_length]; exact hslot),
        (patternHolds_single hv).mpr hx, Bool.true_or, if_pos rfl, Option.getD_some]
    have hne : (v - minimum).toNat ≠ (x - minimum).toNat := by
      intro heq
      have hsub := congrArg (· + minimum) (BitVec.eq_of_toNat_eq heq)
      simp only [BitVec.sub_add_cancel] at hsub
      exact hx hsub.symm
    have hfalse : patternHolds type x p = false := Bool.eq_false_iff.mpr fun h => hx ((patternHolds_single hv).mp h)
    rw [if_neg hne, hfalse, Bool.false_or, ← hrest, getD_eq_getElem?_getD]

variable {t : TableScan} {before : List DynIrCaseArm} {fallback : Nat}

theorem fillArms_length (arms : List (DynIrCaseArm × Nat)) (targets : List Nat) :
    (fillArms type minimum arms targets).length = targets.length := by
  induction arms with
  | nil => rfl
  | cons arm arms ih =>
    unfold fillArms
    rw [foldr_cons, fillPatterns_length]
    exact ih

/-- **A slot holds the body of the first arm that takes its value.** -/
theorem fillArms_spec {minimum : BitVec 64} (hslot : (x - minimum).toNat < targets.length) :
    ∀ (before : List DynIrCaseArm) (n : Nat), (∀ arm ∈ before, Within type t arm) →
      (fillArms type minimum (before.zip (List.range' n before.length)) targets).getD (x - minimum).toNat 0 =
        match takenArm type before x with
        | some k => n + k
        | none => targets.getD (x - minimum).toNat 0 := by
  intro before
  induction before with
  | nil => exact fun _ _ => rfl
  | cons arm before ih =>
    intro n hwithin
    obtain ⟨hwild, hsingle⟩ := hwithin arm mem_cons_self
    have hrest := ih (n + 1) fun a ha => hwithin a (mem_cons_of_mem arm ha)
    have hcons : fillArms type minimum ((arm :: before).zip (range' n (arm :: before).length)) targets =
        fillPatterns type minimum n arm.patterns
          (fillArms type minimum (before.zip (range' (n + 1) before.length)) targets) := rfl
    have htakes : armTakes type x arm = arm.patterns.any (patternHolds type x) := by
      unfold armTakes
      rw [hwild, Bool.false_or]
    rw [hcons, fillPatterns_spec (by rw [fillArms_length]; exact hslot) arm.patterns fun p hp =>
      (hsingle p hp).imp fun v hv => hv.1, takenArm_cons, htakes]
    split
    · rfl
    rw [hrest]
    cases takenArm type before x with
    | none => rfl
    | some k => exact Nat.add_right_comm n 1 k

/-- Outside of the table no arm before the wildcard takes the value. -/
theorem takenArm_outside (hwithin : ∀ arm ∈ before, Within type t arm)
    (hout : (t.maximum - t.minimum).toNat < (x - t.minimum).toNat) :
    takenArm type before x = none := by
  unfold takenArm
  rw [findIdx?_eq_none_iff]
  intro arm harm
  obtain ⟨hwild, hsingle⟩ := hwithin arm harm
  unfold armTakes
  rw [hwild, Bool.false_or, Bool.eq_false_iff]
  intro hany
  obtain ⟨p, hp, hholds⟩ := any_eq_true.mp hany
  obtain ⟨v, hv, hmin, hmax⟩ := hsingle p hp
  rw [(patternHolds_single hv).mp hholds] at hout
  exact absurd (slot_le hmin hmax) (Nat.not_le_of_lt hout)

theorem ssaBlocks_spec (closed : Nat → Prop) : ∀ (n : Nat) (s : Ssa),
    (ssaBlocks n s).2 = List.range' s.blocks.length n ∧ Leaves closed s (ssaBlocks n s).1 ∧
      (ssaBlocks n s).1.blocks.length = s.blocks.length + n ∧ (ssaBlocks n s).1.current = s.current ∧
      ∀ b < s.blocks.length, (ssaBlocks n s).1.block b = s.block b := by
  intro n
  induction n with
  | zero => exact fun s => ⟨rfl, .refl _ s, rfl, rfl, fun _ _ => rfl⟩
  | succ n ih =>
    intro s
    obtain ⟨hnumbers, hleaves, hlength, hcurrent, hblocks⟩ := ih (ssaBlock s).1
    rw [ssaBlock_length] at hnumbers hlength hblocks
    have hstate : ssaBlocks (n + 1) s =
        ((ssaBlocks n (ssaBlock s).1).1, s.blocks.length :: (ssaBlocks n (ssaBlock s).1).2) := rfl
    rw [hstate]
    refine ⟨?_, (Leaves.block closed s).trans hleaves, ?_, hcurrent, fun b hb => ?_⟩
    · rw [hnumbers]
      rfl
    · rw [hlength]
      omega
    · rw [hblocks b (by omega), block_appended (t := (ssaBlock s).1) rfl, if_neg (Nat.ne_of_lt hb)]

theorem switchEdges_same (source : Nat) (used : Nat → Bool) : ∀ (targets : List Nat) (s : Ssa),
    (switchEdges source used targets s).values = s.values ∧ (switchEdges source used targets s).lists = s.lists ∧
      (switchEdges source used targets s).blocks.length = s.blocks.length ∧
      ∀ c, ∃ preds, (switchEdges source used targets s).block c = { (s.block c) with preds := preds } := by
  intro targets
  induction targets with
  | nil => exact fun s => ⟨rfl, rfl, rfl, fun c => ⟨(s.block c).preds, rfl⟩⟩
  | cons target targets ih =>
    intro s
    obtain ⟨s1, hs1⟩ : ∃ s1, s1 = s.updateBlock target fun blk => { blk with preds := blk.preds ++ [source] } :=
      ⟨_, rfl⟩
    have hcons : switchEdges source used (target :: targets) s =
        switchEdges source used targets (if used target then s1 else s) := by
      rw [hs1]
      rfl
    have hblock : ∀ c, ∃ preds, s1.block c = { (s.block c) with preds := preds } := by
      intro c
      by_cases hc : c = target
      · subst hc
        by_cases hlt : c < s.blocks.length
        · exact ⟨_, hs1 ▸ Ssa.updateBlock_self hlt _⟩
        · exact ⟨(s.block c).preds, by rw [hs1, Ssa.updateBlock_outside hlt]⟩
      · exact ⟨(s.block c).preds, by rw [hs1, Ssa.updateBlock_other hc]⟩
    rw [hcons]
    split
    · obtain ⟨hvalues, hlists, hlength, hblocks⟩ := ih s1
      refine ⟨by rw [hvalues, hs1]; rfl, by rw [hlists, hs1]; rfl, by rw [hlength, hs1, Ssa.updateBlock_length],
        fun c => ?_⟩
      obtain ⟨preds, hpreds⟩ := hblocks c
      obtain ⟨preds', hpreds'⟩ := hblock c
      exact ⟨preds, by rw [hpreds, hpreds']⟩
    · exact ih s

theorem switchEdges_spec (closed : Nat → Prop) (source : Nat) (used : Nat → Bool) : ∀ (targets : List Nat) (s : Ssa),
    Leaves closed s (switchEdges source used targets s) ∧
      ∀ target ∈ targets, used target = true → target < s.blocks.length →
        ((switchEdges source used targets s).block target).preds ≠ [] := by
  intro targets
  induction targets with
  | nil => exact fun s => ⟨.refl _ s, fun target htarget => absurd htarget not_mem_nil⟩
  | cons target targets ih =>
    intro s
    obtain ⟨s1, hs1⟩ : ∃ s1, s1 = if used target then
      s.updateBlock target fun blk => { blk with preds := blk.preds ++ [source] } else s := ⟨_, rfl⟩
    have hcons : switchEdges source used (target :: targets) s = switchEdges source used targets s1 := by
      rw [hs1]
      rfl
    obtain ⟨hleaves, hpreds⟩ := ih s1
    have hfirst : Leaves closed s s1 ∧ s1.blocks.length = s.blocks.length := by
      rw [hs1]
      split
      · exact ⟨.updateBlock (fun _ _ => ⟨rfl, rfl⟩) fun _ => prefix_append _ _, Ssa.updateBlock_length ..⟩
      · exact ⟨.refl _ s, rfl⟩
    rw [hcons]
    refine ⟨hfirst.1.trans hleaves, fun c hc hused hlt => ?_⟩
    rcases mem_cons.mp hc with heq | hmem
    · subst heq
      obtain ⟨more, hmore⟩ := hleaves.preds c
      rw [← hmore, hs1, if_pos hused, Ssa.updateBlock_self hlt]
      exact append_ne_nil_of_left_ne_nil (append_ne_nil_of_right_ne_nil _ (cons_ne_nil _ _)) _
    · exact hpreds c hmem hused (by rw [hfirst.2]; exact hlt)

theorem tableBodies_spec : ∀ (bodies : List Nat) {i : Nat} {s s' : Ssa} {starts : List CaseStart}, Waits s →
    tableBodies code done i bodies s = some (s', starts) →
    Leaves (· ∉ bodies) s s' ∧ (s'.unsupported = false → ∀ (j body : Nat), bodies[j]? = some body →
      (s.block body).preds ≠ [] → ⟨some (i + j), body⟩ ∈ starts) := by
  intro bodies
  induction bodies with
  | nil =>
    intro i s s' starts _ h
    cases h
    exact ⟨.refl _ s, nofun⟩
  | cons body bodies ih =>
    intro i s s' starts hw h
    unfold tableBodies at h
    split at h
    · rename_i hunsupported
      cases h
      refine ⟨.refl _ s, fun hsupported => ?_⟩
      rw [hunsupported] at hsupported
      cases hsupported
    obtain ⟨s1, hseal, h⟩ := Option.bind_eq_some_iff.mp h
    have hsealed := Leaves.sealed (· ∉ body :: bodies) hw hseal
    have hkept : ∀ c, (s.block c).preds ≠ [] → (s1.block c).preds ≠ [] := fun c hc => by
      obtain ⟨more, hmore⟩ := hsealed.preds c
      rw [← hmore]
      exact append_ne_nil_of_left_ne_nil hc _
    split at h
    · rename_i hnone
      obtain ⟨hleaves, hstarts⟩ := ih (hsealed.waits hw) h
      refine ⟨hsealed.trans (hleaves.mono fun c _ hc hmem => hc (mem_cons_of_mem _ hmem)),
        fun hsupported j c hj hpreds => ?_⟩
      cases j with
      | zero =>
        cases hj
        exact absurd hnone (hkept body hpreds)
      | succ j =>
        have hmem := hstarts hsupported j c hj (hkept c hpreds)
        have hindex : i + (j + 1) = i + 1 + j := by omega
        rw [hindex]
        exact hmem
    obtain ⟨s2, hbody, h⟩ := Option.bind_eq_some_iff.mp h
    obtain ⟨⟨s3, starts'⟩, hrest, h⟩ := Option.bind_eq_some_iff.mp h
    cases h
    have hcurrent : Leaves (· ∉ body :: bodies) s1 { s1 with current := some body } :=
      .same _ rfl rfl rfl rfl fun hu => hu
    have hadds := Adds.leaves (hcurrent.waits (hsealed.waits hw)) (code.body_adds _ i done s2 body rfl hbody)
    have hfirst : Leaves (· ∉ body :: bodies) s s2 := (hsealed.trans hcurrent).comp hadds fun c hc hne => by
      have hblocks : s.blocks.length ≤ s1.blocks.length := hsealed.blocks
      rintro (heq | hle)
      · exact hne (heq ▸ mem_cons_self)
      · exact absurd (Nat.lt_of_lt_of_le hc hblocks) (Nat.not_lt_of_le hle)
    obtain ⟨hleaves, hstarts⟩ := ih (hfirst.waits hw) hrest
    refine ⟨hfirst.trans (hleaves.mono fun c _ hc hmem => hc (mem_cons_of_mem _ hmem)),
      fun hsupported j c hj hpreds => ?_⟩
    cases j with
    | zero =>
      cases hj
      exact mem_cons_self
    | succ j =>
      have hpreds' : (s2.block c).preds ≠ [] := by
        obtain ⟨more, hmore⟩ := hfirst.preds c
        rw [← hmore]
        exact append_ne_nil_of_left_ne_nil hpreds _
      have hmem := hstarts hsupported j c hj hpreds'
      have hindex : i + (j + 1) = i + 1 + j := by omega
      rw [hindex]
      exact mem_cons_of_mem _ hmem

/-- The code of the bodies stays: the blocks were new, and each one is used once. -/
theorem tableBodies_emitted (type : CaseType) : ∀ (bodies : List Nat) {i : Nat} {s s' : Ssa} {starts : List CaseStart}, Waits s →
    tableBodies code done i bodies s = some (s', starts) → bodies.Nodup → (∀ c ∈ bodies, Fresh s c) →
    starts.map (·.arm) <+ (List.range' i bodies.length).map some ∧
      ∀ u, Leaves (fun c => c ∈ bodies ∨ s.blocks.length ≤ c) s' u →
        ∀ start ∈ starts, Emitted code type done u start := by
  intro bodies
  induction bodies with
  | nil =>
    intro i s s' starts _ h _ _
    cases h
    exact ⟨.slnil, fun _ _ => forall_mem_nil _⟩
  | cons body bodies ih =>
    intro i s s' starts hw h hnodup hfresh
    obtain ⟨hnot, hnodup'⟩ := nodup_cons.mp hnodup
    unfold tableBodies at h
    split at h
    · cases h
      exact ⟨nil_sublist _, fun _ _ => forall_mem_nil _⟩
    obtain ⟨s1, hseal, h⟩ := Option.bind_eq_some_iff.mp h
    have hsealed : Leaves (fun _ => True) s { s1 with current := some body } :=
      (Leaves.sealed _ hw hseal).trans (.same _ rfl rfl rfl rfl fun hu => hu)
    have hblocks : s.blocks.length ≤ s1.blocks.length := hsealed.blocks
    split at h
    · obtain ⟨honce, hstarts⟩ := ih ((Leaves.sealed (fun _ => True) hw hseal).waits hw) h hnodup' fun c hc =>
        (hfresh c (mem_cons_of_mem _ hc)).leaves (Leaves.sealed (fun _ => True) hw hseal) trivial
      exact ⟨honce.cons _, fun u hu => hstarts u (hu.mono fun c _ hc =>
        hc.imp (mem_cons_of_mem _) (Nat.le_trans hblocks))⟩
    obtain ⟨s2, hbody, h⟩ := Option.bind_eq_some_iff.mp h
    obtain ⟨⟨s3, starts'⟩, hrest, h⟩ := Option.bind_eq_some_iff.mp h
    cases h
    have hw1 := hsealed.waits hw
    have hadds := Adds.leaves hw1 (code.body_adds _ i done s2 body rfl hbody)
    have hblocks2 : s1.blocks.length ≤ s2.blocks.length := hadds.blocks
    have hlater : ∀ c ∈ bodies, ¬ (c = body ∨ s1.blocks.length ≤ c) := fun c hc heq => by
      have hlt := (hfresh c (mem_cons_of_mem _ hc)).lt
      rcases heq with rfl | hle
      · exact hnot hc
      · omega
    obtain ⟨honce, hstarts⟩ := ih (hadds.waits hw1) hrest hnodup' fun c hc =>
      ((hfresh c (mem_cons_of_mem _ hc)).leaves hsealed trivial).leaves hadds (hlater c hc)
    refine ⟨honce.cons_cons _, fun u hu => forall_mem_cons.mpr ⟨?_, hstarts u (hu.mono fun c _ hc =>
      hc.imp (mem_cons_of_mem _) (Nat.le_trans (Nat.le_trans hblocks hblocks2)))⟩⟩
    refine ⟨_, s2, rfl, (hfresh body mem_cons_self).leaves hsealed trivial, hbody, ?_⟩
    refine ((tableBodies_spec bodies (hadds.waits hw1) hrest).1.mono fun c _ hc hmem => hlater c hmem hc).comp hu
      fun c _ hc => ?_
    rcases hc with rfl | hle
    · exact .inl mem_cons_self
    · exact .inr (Nat.le_trans hblocks hle)

theorem ssaBlocks_fresh : ∀ (n : Nat) (s : Ssa), ∀ c ∈ (ssaBlocks n s).2, Fresh (ssaBlocks n s).1 c := by
  intro n
  induction n with
  | zero => exact fun _ => forall_mem_nil _
  | succ n ih =>
    intro s
    exact forall_mem_cons.mpr
      ⟨(Fresh.block s).leaves (ssaBlocks_spec (fun _ => True) n _).2.1 trivial, ih (ssaBlock s).1⟩

/-- The block and its end after a switch. -/
structure Switched (s r : Ssa) (b subject : Nat) (minimum : BitVec 64) (fallback : Nat) (targets edges : List Nat) :
    Prop where
  leaves : Leaves (· ≠ b) s r
  blocks : r.blocks.length = s.blocks.length
  values : (r.block b).values = (s.block b).values
  kind : (r.block b).kind = .switch
  control : (r.block b).control = some subject
  control2 : (r.block b).control2 = some s.values.length
  size : s.values.length < r.values.length
  offset : r.value s.values.length = { op := .const, cls := .int, aux := minimum, block := b }
  table : (r.block b).table = s.lists.length
  lists : r.lists = s.lists ++ ([(minimum.setWidth 32).toNat, targets.length, fallback] ++ targets)
  preds : ∀ target ∈ edges, target = fallback ∨ target ∈ targets → target < s.blocks.length →
    (r.block target).preds ≠ []

theorem emitSwitch_spec (h : OpenAt s b) (subject : Nat) (minimum : BitVec 64) (fallback : Nat) (targets edges : List Nat) :
    Switched s (emitSwitch s subject minimum fallback targets edges) b subject minimum fallback targets edges := by
  obtain ⟨m, hm⟩ : ∃ m, m = (ssaValue (ssaList s ([(minimum.setWidth 32).toNat, targets.length, fallback] ++ targets)).1
    b .const .int none none none minimum 0).1 := ⟨_, rfl⟩
  obtain ⟨n, hn⟩ : ∃ n, n = m.updateBlock b fun blk => { blk with
    kind := .switch, control := some subject, table := s.lists.length, control2 := some s.values.length } := ⟨_, rfl⟩
  obtain ⟨used, hused⟩ : ∃ used : Nat → Bool, used = fun target => target == fallback || targets.contains target :=
    ⟨_, rfl⟩
  have hstate : emitSwitch s subject minimum fallback targets edges =
      { switchEdges b used edges n with current := none } := by
    unfold emitSwitch
    rw [h.current, hn, hm, hused]
    rfl
  have hblocks : m.blocks = s.blocks := by
    rw [hm]
    rfl
  have hvalues : m.values = s.values ++ [{ op := .const, cls := .int, aux := minimum, block := b }] := by
    rw [hm]
    rfl
  have hlists : m.lists = s.lists ++ ([(minimum.setWidth 32).toNat, targets.length, fallback] ++ targets) := by
    rw [hm]
    rfl
  have hm' : Leaves (· ≠ b) s m := by
    have hlist : Leaves (· ≠ b) s (ssaList s ([(minimum.setWidth 32).toNat, targets.length, fallback] ++ targets)).1 :=
      .change _ rfl rfl (prefix_append _ _) (fun _ hp => .inl hp) fun hu => hu
    rw [hm]
    exact hlist.trans (.append _ rfl rfl rfl rfl rfl)
  have hn' : Leaves (· ≠ b) m n := by
    rw [hn]
    exact .updateBlock (fun hne => absurd rfl hne) fun _ => prefix_refl _
  have hblock : n.block b = { (s.block b) with
      kind := .switch, control := some subject, table := s.lists.length, control2 := some s.values.length } := by
    rw [hn, Ssa.updateBlock_self (by rw [hblocks]; exact h.lt), Ssa.block_congr hblocks]
  obtain ⟨hleaves, hpreds⟩ := switchEdges_spec (· ≠ b) b used edges n
  obtain ⟨hvalues', hlists', hlength, hsame⟩ := switchEdges_same b used edges n
  obtain ⟨preds, hb⟩ := hsame b
  rw [hblock] at hb
  have hnlength : n.blocks.length = s.blocks.length := by
    rw [hn, Ssa.updateBlock_length, hblocks]
  have hnvalues : n.values = m.values := by
    rw [hn]
    rfl
  have hend : ∀ c, (emitSwitch s subject minimum fallback targets edges).block c = (switchEdges b used edges n).block c :=
    fun c => by
      rw [hstate]
      rfl
  have htable : (emitSwitch s subject minimum fallback targets edges).values =
      s.values ++ [{ op := .const, cls := .int, aux := minimum, block := b }] := by
    rw [hstate]
    exact hvalues'.trans (hnvalues.trans hvalues)
  refine ⟨?_, ?_, ?_, ?_, ?_, ?_, ?_, ?_, ?_, ?_, fun target hmem htarget hlt => ?_⟩
  · rw [hstate]
    exact ((hm'.trans hn').trans hleaves).trans (.same _ rfl rfl rfl rfl fun hu => hu)
  · rw [hstate]
    exact hlength.trans hnlength
  · rw [hend, hb]
  · rw [hend, hb]
  · rw [hend, hb]
  · rw [hend, hb]
  · rw [htable, length_append]
    exact Nat.lt_succ_self _
  · rw [value_appended htable, if_pos rfl]
  · rw [hend, hb]
  · rw [hstate]
    exact hlists'.trans ((by rw [hn]; rfl : n.lists = m.lists).trans hlists)
  · rw [hend]
    refine hpreds target hmem ?_ (by rw [hnlength]; exact hlt)
    rw [hused]
    rw [Bool.or_eq_true, beq_iff_eq, contains_iff_mem]
    exact htarget

theorem Switched.continues {r : Ssa} {minimum : BitVec 64} {goal : Nat} {edges : List Nat}
    (h : Switched s r b subject minimum fallback targets edges) (hleaves : Leaves closed r u)
    (hclosed : closed b) (hb : b < s.blocks.length)
    (hgoal : (if (x - minimum).toNat < targets.length then targets.getD (x - minimum).toNat 0 else fallback) = goal)
    :
    Continues subject x s u goal b := by
  obtain ⟨hends, phis, hvalues, hphis⟩ := hleaves.kept b (Nat.lt_of_lt_of_eq hb h.blocks.symm) hclosed
  rw [h.values] at hvalues
  unfold SsaBlock.ends at hends
  rw [h.kind, h.control, h.control2, h.table] at hends
  injection hends with hkind hends
  injection hends with _ hends
  injection hends with _ hends
  injection hends with hcontrol hends
  injection hends with hcontrol2 htable
  have hoffset : (u.value s.values.length).aux = minimum := by
    rw [hleaves.value _ h.size, h.offset]
    rw [h.offset]
    rintro (hop | hop) <;> cases hop
  have hlist : ∀ i < 3 + targets.length, u.lists.getD (s.lists.length + i) 0 =
      ([(minimum.setWidth 32).toNat, targets.length, fallback] ++ targets).getD i 0 := by
    intro i hi
    obtain ⟨more, hmore⟩ := hleaves.lists
    rw [← hmore, h.lists, append_assoc, getD_eq_getElem?_getD, getElem?_append_right (Nat.le_add_right _ _),
      Nat.add_sub_cancel_left, getElem?_append_left, getD_eq_getElem?_getD]
    rw [length_append]
    exact hi
  refine ⟨phis, [], ?_, hphis.earlier h.leaves.length, fun env henv => ?_⟩
  · rw [hvalues, append_nil]
  refine .switch (c := goal) hkind hcontrol hcontrol2 ?_ (.here env)
  rw [htable, henv, hoffset, hlist 1 (by omega), hlist 2 (by omega), ← hgoal]
  change (if (x - minimum).toNat < targets.length then _ else fallback) = _
  by_cases hslot : (x - minimum).toNat < targets.length
  · rw [if_pos hslot, if_pos hslot, Nat.add_assoc, hlist _ (by omega), Nat.add_comm 3]
    rfl
  · rw [if_neg hslot, if_neg hslot]

/-- What the scan found: the arms before the wildcard are single values of the table. -/
structure Scanned (type : CaseType) (arms : List DynIrCaseArm) (t : TableScan) (wildcard : Option Nat)
    (before : List DynIrCaseArm) : Prop where
  within : ∀ arm ∈ before, Within type t arm
  whole : wildcard = none → arms = before
  wild : ∀ k, wildcard = some k → k = before.length ∧ ∃ arm rest, arms = before ++ arm :: rest ∧ arm.wildcard = true

theorem Scanned.of_scan (h : scanArms type 0 arms {} = some (t, wildcard)) :
    ∃ before, Scanned type arms t wildcard before := by
  obtain ⟨-, before, rest, harms, hwithin, hrest⟩ := scanArms_spec arms h
  refine ⟨before, hwithin, fun hnone => ?_, fun k hk => ?_⟩
  · subst hnone
    rw [harms, hrest, append_nil]
  subst hk
  obtain ⟨hk, arm, rest', hrest', hwild⟩ := hrest
  rw [Nat.zero_add] at hk
  exact ⟨hk, arm, rest', by rw [harms, hrest'], hwild⟩

theorem takenArm_append (type : CaseType) (before rest : List DynIrCaseArm) (x : BitVec 64) :
    takenArm type (before ++ rest) x =
      (takenArm type before x).or ((takenArm type rest x).map (· + before.length)) := findIdx?_append

theorem Scanned.target {n : Nat} (h : Scanned type arms t wildcard before)
    (hfallback : ∀ k, wildcard = some k → fallback = n + k) (x : BitVec 64)
    (htargets : targets = fillArms type t.minimum ((arms.zip (List.range' n arms.length)).take
      (wildcard.getD arms.length)) (List.replicate ((t.maximum - t.minimum).toNat + 1) fallback)) :
    (if (x - t.minimum).toNat < targets.length then targets.getD (x - t.minimum).toNat 0 else fallback) =
      match takenArm type arms x with
      | some k => n + k
      | none => fallback := by
  have htake : (arms.zip (range' n arms.length)).take (wildcard.getD arms.length) =
      before.zip (range' n before.length) := by
    cases hw : wildcard with
    | none =>
      rw [← h.whole hw, Option.getD_none]
      refine take_of_length_le ?_
      rewrite [length_zip, length_range', Nat.min_self]
      exact Nat.le_refl _
    | some k =>
      obtain ⟨hk, arm, rest, harms, -⟩ := h.wild k hw
      have hrange : range' n (before ++ arm :: rest).length =
          range' n before.length ++ range' (n + before.length) (arm :: rest).length := by
        rw [length_append, ← range'_append_1]
      rw [harms, hrange, zip_append length_range'.symm, Option.getD_some, hk]
      refine take_left' ?_
      rw [length_zip, length_range', Nat.min_self]
  rw [htake] at htargets
  have hlength : targets.length = (t.maximum - t.minimum).toNat + 1 := by
    rw [htargets, fillArms_length, length_replicate]
  have hbefore : (if (x - t.minimum).toNat < targets.length then targets.getD (x - t.minimum).toNat 0 else fallback) =
      match takenArm type before x with
      | some k => n + k
      | none => fallback := by
    split_ifs with hslot
    · have hslot' : (x - t.minimum).toNat < (replicate ((t.maximum - t.minimum).toNat + 1) fallback).length := by
        rw [length_replicate, ← hlength]
        exact hslot
      have hfallback' : (replicate ((t.maximum - t.minimum).toNat + 1) fallback).getD (x - t.minimum).toNat 0 =
          fallback := by
        rw [getD_eq_getElem?_getD, getElem?_replicate, if_pos (hlength ▸ hslot), Option.getD_some]
      rw [htargets, fillArms_spec hslot' before n h.within, hfallback']
    · rw [takenArm_outside h.within (by omega)]
  rw [hbefore]
  cases hw : wildcard with
  | none => rw [h.whole hw]
  | some k =>
    obtain ⟨hk, arm, rest, harms, hwild⟩ := h.wild k hw
    have htakes : armTakes type x arm = true := by
      unfold armTakes
      rw [hwild, Bool.true_or]
    rw [harms, takenArm_append, takenArm_cons, if_pos htakes]
    cases takenArm type before x with
    | some j => rfl
    | none =>
      change fallback = n + (0 + before.length)
      rw [hfallback k hw, hk, Nat.zero_add]

/-- The fallback of a table is the body of the wildcard arm, or a new block. -/
theorem fallbackBlock_spec (m : Ssa) {n count : Nat} (hlength : m.blocks.length = n + count)
    (hwild : ∀ k, wildcard = some k → k < count) (closed : Nat → Prop) :
    Leaves closed m (fallbackBlock wildcard (List.range' n count) m).1 ∧
      (fallbackBlock wildcard (List.range' n count) m).1.current = m.current ∧
      (∀ c < m.blocks.length, (fallbackBlock wildcard (List.range' n count) m).1.block c = m.block c) ∧
      (∀ k, wildcard = some k → (fallbackBlock wildcard (List.range' n count) m).2 = n + k) ∧
      (wildcard = none → (fallbackBlock wildcard (List.range' n count) m).2 = n + count ∧
        Fresh (fallbackBlock wildcard (List.range' n count) m).1 (n + count)) := by
  cases wildcard with
  | some k =>
    refine ⟨.refl _ m, rfl, fun _ _ => rfl, fun j hj => ?_, nofun⟩
    cases hj
    change (range' n count).getD k 0 = n + k
    rw [getD_eq_getElem?_getD, getElem?_range' (hwild k rfl), Option.getD_some, Nat.one_mul]
  | none =>
    refine ⟨.block _ m, rfl, fun c hc => ?_, fun j hj => (by cases hj), fun _ => ⟨hlength, hlength ▸ Fresh.block m⟩⟩
    change (ssaBlock m).1.block c = m.block c
    rw [block_appended (t := (ssaBlock m).1) rfl, if_neg (Nat.ne_of_lt hc)]

theorem tableFallback_leaves (done : Nat) (hw : Waits s)
    (h : tableFallback code type wildcard fallback s = some s') :
    Leaves (fun c => wildcard = none → c ≠ fallback) s s' ∧
      (wildcard = none → Fresh s fallback → ∀ u, Leaves (fun _ => True) s' u →
        Emitted code type done u ⟨none, fallback⟩) := by
  cases wildcard with
  | some k =>
    cases h
    refine ⟨.refl _ s, fun hnone => ?_⟩
    cases hnone
  | none =>
    obtain ⟨s1, hseal, h⟩ := Option.bind_eq_some_iff.mp h
    obtain ⟨s2, htag, h⟩ := Option.bind_eq_some_iff.mp h
    cases h
    have hsealed : Leaves (fun _ => True) s { s1 with current := some fallback } :=
      (Leaves.sealed _ hw hseal).trans (.same _ rfl rfl rfl rfl fun hu => hu)
    obtain ⟨hleaves, b', hcurrent', hplace⟩ := Leaves.invalidTag (hsealed.waits hw) rfl htag
    have hblocks : s.blocks.length ≤ s1.blocks.length := hsealed.blocks
    change b' = fallback ∨ s1.blocks.length ≤ b' at hplace
    refine ⟨((hsealed.mono fun _ _ _ => trivial).trans (hleaves.mono fun _ _ hne => hne rfl)).comp
      (.emitTrap hcurrent' fallback) fun c hc hne => ⟨?_, hne rfl⟩, fun _ hfresh u hu => ?_⟩
    · have hne' := hne rfl
      omega
    · exact ⟨_, _, rfl, hfresh.leaves hsealed trivial, ⟨s2, fallback, htag, .inl rfl, rfl⟩,
        hu.mono fun _ _ _ => trivial⟩

/-- **The jump table leads each value to the arm that takes it.** -/
theorem ssaCaseTable_spec {ctx : BackendContext} (h : OpenAt s b) (hw : Waits s)
    (hrun : ssaCaseTable ctx code type arms s subject done = some (some (u, starts)))
    (hsupported : u.unsupported = false) :
    arms ≠ [] ∧ Starts code type done u starts ∧
      ∀ x, ∃ body, ⟨takenArm type arms x, body⟩ ∈ starts ∧ Continues subject x s u body b := by
  unfold ssaCaseTable at hrun
  split at hrun
  · cases hrun
  split at hrun
  · cases hrun
  rename_i t wildcard hscan
  dsimp only at hrun
  split at hrun
  · cases hrun
  rename_i hdense
  obtain ⟨⟨s3, starts1⟩, hbodies, hrun⟩ := Option.bind_eq_some_iff.mp hrun
  obtain ⟨s4, hfallback, hrun⟩ := Option.bind_eq_some_iff.mp hrun
  obtain ⟨s5, hdone, hrun⟩ := Option.bind_eq_some_iff.mp hrun
  cases hrun
  obtain ⟨before, hscanned⟩ := Scanned.of_scan hscan
  obtain ⟨hnumbers, hm, hmlength, hmcurrent, hmblocks⟩ := ssaBlocks_spec (fun _ => True) arms.length s
  have hcount : ∀ k, wildcard = some k → k < arms.length := fun k hk => by
    obtain ⟨hlength, arm, rest, harms, -⟩ := hscanned.wild k hk
    rw [harms, hlength, length_append, length_cons]
    omega
  obtain ⟨hq, hqcurrent, hqblocks, hwild, hnew⟩ := fallbackBlock_spec (ssaBlocks arms.length s).1 hmlength hcount fun _ => True
  rw [hnumbers] at hbodies hfallback
  obtain ⟨q, hqeq⟩ : ∃ q, q = (fallbackBlock wildcard (range' s.blocks.length arms.length)
    (ssaBlocks arms.length s).1).1 := ⟨_, rfl⟩
  obtain ⟨fallback, hfb⟩ : ∃ fallback, fallback = (fallbackBlock wildcard (range' s.blocks.length arms.length)
    (ssaBlocks arms.length s).1).2 := ⟨_, rfl⟩
  obtain ⟨targets, htargets⟩ : ∃ targets, targets = fillArms type t.minimum
    ((arms.zip (range' s.blocks.length arms.length)).take (wildcard.getD arms.length))
    (replicate ((t.maximum - t.minimum).toNat + 1) fallback) := ⟨_, rfl⟩
  rw [← hqeq, ← hfb, ← htargets] at hbodies
  rw [← hfb] at hfallback hwild hnew
  rw [← hqeq] at hq hqcurrent hqblocks hnew
  have hlt := h.lt
  have hsame : q.block b = s.block b := (hqblocks b (by omega)).trans (hmblocks b hlt)
  have hsq : Leaves (fun _ => True) s q := hm.trans hq
  have hqlength : s.blocks.length + arms.length ≤ q.blocks.length := by
    rw [← hmlength]
    exact hq.blocks
  have hopen : OpenAt q b := by
    refine ⟨hqcurrent.trans (hmcurrent.trans h.current), by omega, ?_, ?_⟩
    · rw [hsame]
      exact h.succ0
    · rw [hsame]
      exact h.succ1
  have hswitch := emitSwitch_spec hopen subject t.minimum fallback targets
    (range' s.blocks.length arms.length ++ if wildcard = none then [fallback] else [])
  obtain ⟨r, hr⟩ : ∃ r, r = emitSwitch q subject t.minimum fallback targets
    (range' s.blocks.length arms.length ++ if wildcard = none then [fallback] else []) := ⟨_, rfl⟩
  rw [← hr] at hbodies hswitch
  have hwr : Waits r := hswitch.leaves.waits (hsq.waits hw)
  obtain ⟨hleaves3, hstarts⟩ := tableBodies_spec (range' s.blocks.length arms.length) hwr hbodies
  obtain ⟨hleaves4, hcheck⟩ := tableFallback_leaves done (hleaves3.waits hwr) hfallback
  have hleaves5 := fun closed => Leaves.finishCase closed (hleaves4.waits (hleaves3.waits hwr)) hdone
  have hfallbackNew : s.blocks.length ≤ fallback := by
    cases hcase : wildcard with
    | none =>
      rw [(hnew hcase).1]
      exact Nat.le_add_right _ _
    | some k =>
      rw [hwild k hcase]
      exact Nat.le_add_right _ _
  have hfinal4 : Leaves (fun c => c < s.blocks.length) s3 u :=
    (hleaves4.mono fun c _ hc _ => Nat.ne_of_lt (Nat.lt_of_lt_of_le hc hfallbackNew)).trans (hleaves5 _)
  have hfinal : Leaves (fun c => c < s.blocks.length) r u := by
    refine (hleaves3.mono fun c _ hc hmem => ?_).trans hfinal4
    exact absurd (mem_range'_1.mp hmem).1 (Nat.not_le_of_lt hc)
  have hsupported3 : s3.unsupported = false := by
    refine Bool.eq_false_iff.mpr fun hu => ?_
    rw [hfinal4.unsupported hu] at hsupported
    cases hsupported
  have hnonempty : arms ≠ [] := by
    rintro rfl
    cases hscan
    exact hdense (.inl (by decide))
  have hfresh : ∀ c ∈ range' s.blocks.length arms.length, Fresh r c := fun c hc => by
    rw [← hnumbers] at hc
    refine ((ssaBlocks_fresh arms.length s c hc).leaves hq trivial).leaves hswitch.leaves ?_
    rw [hnumbers, mem_range'_1] at hc
    omega
  obtain ⟨honce, hemitted⟩ := tableBodies_emitted type _ hwr hbodies nodup_range' hfresh
  refine ⟨hnonempty, .of_arms honce ?_ (hemitted u ?_) ?_, fun x => ?_⟩
  · split
    · exact .refl _
    · exact nil_sublist _
  · refine (hleaves4.mono fun c _ hc hnone => ?_).trans (hleaves5 _)
    obtain ⟨heq, hplace⟩ := hnew hnone
    have hlt' := hplace.lt
    have hblocks := hswitch.blocks
    rw [mem_range'_1] at hc
    omega
  · split
    · rename_i hnone
      obtain ⟨heq, hplace⟩ := hnew hnone
      rw [hnumbers, ← hfb]
      refine forall_mem_singleton.mpr (hcheck hnone ?_ u (hleaves5 _))
      rw [heq]
      refine (hplace.leaves hswitch.leaves (by omega)).leaves hleaves3 fun hmem => ?_
      rw [mem_range'_1] at hmem
      omega
    · exact forall_mem_nil _
  have htarget := hscanned.target hwild x htargets
  have hcontinues : ∀ goal, (match takenArm type arms x with
      | some k => s.blocks.length + k
      | none => fallback) = goal → Continues subject x s u goal b := by
    intro goal hgoal
    obtain ⟨phis, rest, hvalues, hphis, hrest⟩ := hswitch.continues (x := x) hfinal hlt hopen.lt (htarget.trans hgoal)
    rw [hsame] at hvalues
    exact ⟨phis, rest, hvalues, hphis.earlier hsq.length, hrest⟩
  cases htaken : takenArm type arms x with
  | some k =>
    have hk : k < arms.length := (findIdx?_eq_some_iff_getElem.mp htaken).1
    rw [htaken] at htarget
    dsimp only at htarget
    refine ⟨s.blocks.length + k, mem_append_left _ ?_, hcontinues _ (by rw [htaken])⟩
    have hmem : s.blocks.length + k ∈ range' s.blocks.length arms.length :=
      mem_range'_1.mpr ⟨Nat.le_add_right _ _, by omega⟩
    have hstart := hstarts hsupported3 k (s.blocks.length + k)
      (by rw [getElem?_range' hk, Nat.one_mul]) (hswitch.preds _ (mem_append_left _ hmem) ?_ (by omega))
    · rw [Nat.zero_add] at hstart
      exact hstart
    split at htarget
    · rename_i hslot
      refine .inr ?_
      rw [← htarget, getD_eq_getElem?_getD, getElem?_eq_getElem hslot, Option.getD_some]
      exact getElem_mem hslot
    · exact .inl htarget.symm
  | none =>
    have hnone : wildcard = none := by
      by_contra hsome
      obtain ⟨k, hk⟩ := Option.ne_none_iff_exists'.mp hsome
      obtain ⟨-, arm, rest, harms, hwildcard⟩ := hscanned.wild k hk
      have hfalse := findIdx?_eq_none_iff.mp htaken arm (by rw [harms]; exact mem_append_right _ mem_cons_self)
      unfold armTakes at hfalse
      rw [hwildcard, Bool.true_or] at hfalse
      cases hfalse
    refine ⟨fallback, mem_append_right _ ?_, hcontinues _ (by rw [htaken])⟩
    rw [if_pos hnone, hfb]
    rw [hnumbers]
    exact mem_singleton_self _

/-- **Jump tables agree with the compare chain.** -/
theorem case_table_agrees (ctx : BackendContext) (code : CaseCode) (type : CaseType) (arms : List DynIrCaseArm)
    (s t u : Ssa) (subject done b : Nat) (starts starts' : List CaseStart) (h : OpenAt s b) (hw : Waits s)
    (hsubject : subject < s.values.length)
    (htable : ssaCaseTable ctx code type arms s subject done = some (some (t, starts))) (ht : t.unsupported = false)
    (hchain : ssaCaseChain code type arms s subject done = some (u, starts')) (hu : u.unsupported = false) :
    Starts code type done t starts ∧ Starts code type done u starts' ∧
      ∀ x : BitVec 64, ∃ body body', ⟨takenArm type arms x, body⟩ ∈ starts ∧ Continues subject x s t body b ∧
        ⟨takenArm type arms x, body'⟩ ∈ starts' ∧ Continues subject x s u body' b := by
  obtain ⟨harms, hstarts, hfirst⟩ := ssaCaseTable_spec h hw htable ht
  obtain ⟨hstarts', hsecond⟩ := ssaCaseChain_spec h hw hsubject harms hchain hu
  refine ⟨hstarts, hstarts', fun x => ?_⟩
  obtain ⟨body, hmem, hbody⟩ := hfirst x
  obtain ⟨body', hmem', hbody'⟩ := hsecond x
  exact ⟨body, body', hmem, hbody, hmem', hbody'⟩

end

def quietCode : CaseCode where
  body s _ done := some (ssaJump s done)
  tagCheck s := some s
  body_adds := by
    intro s i done s' b hcurrent h
    cases h
    unfold ssaJump
    rw [hcurrent]
    have hown : b = b ∨ s.blocks.length ≤ b := Or.inl rfl
    exact ((Relation.ReflTransGen.single (.finish ({ · with kind := .plain }) hown fun _ => ⟨rfl, rfl⟩)).tail
      (.edge done hown)).tail (.current none)
  tagCheck_adds := by
    intro s s' b hcurrent h
    cases h
    exact ⟨.refl, b, hcurrent, Or.inl rfl⟩

/-- Signed values around 0, one of them twice, and a wildcard. -/
def signedArms : List DynIrCaseArm :=
  [⟨[{ first := -1, last := -1 }, { first := 1, last := 1 }], false⟩, ⟨[{ first := 0, last := 0 }], false⟩,
    ⟨[{ first := -1, last := -1 }, { first := 2, last := 2 }], false⟩, ⟨[], true⟩]

def caseEntry : Ssa :=
  { values := [{ op := .param, cls := .int }], blocks := [{ values := [0], sealed := true }, {}], current := some 0 }

theorem table_of_any {o : Option (Option (Ssa × List CaseStart))}
    (h : (o.bind id).any (fun r => !r.1.unsupported) = true) :
    ∃ t starts, o = some (some (t, starts)) ∧ t.unsupported = false := by
  rcases o with _ | _ | ⟨t, starts⟩
  · cases h
  · cases h
  refine ⟨t, starts, rfl, ?_⟩
  rw [Option.bind_some, id, Option.any_some, Bool.not_eq_true'] at h
  exact h

theorem chain_of_any {o : Option (Ssa × List CaseStart)} (h : o.any (fun r => !r.1.unsupported) = true) :
    ∃ u starts, o = some (u, starts) ∧ u.unsupported = false := by
  rcases o with _ | ⟨u, starts⟩
  · cases h
  refine ⟨u, starts, rfl, ?_⟩
  rw [Option.any_some, Bool.not_eq_true'] at h
  exact h

theorem case_table_agrees_signedArms :
    ∃ t u starts starts', ssaCaseTable {} quietCode { signed := true } signedArms caseEntry 0 1 = some (some (t, starts)) ∧
      ssaCaseChain quietCode { signed := true } signedArms caseEntry 0 1 = some (u, starts') ∧
      Starts quietCode { signed := true } 1 t starts ∧ Starts quietCode { signed := true } 1 u starts' ∧
      ∀ x : BitVec 64, ∃ body body', ⟨takenArm { signed := true } signedArms x, body⟩ ∈ starts ∧
        Continues 0 x caseEntry t body 0 ∧ ⟨takenArm { signed := true } signedArms x, body'⟩ ∈ starts' ∧
        Continues 0 x caseEntry u body' 0 := by
  obtain ⟨t, starts, htable, ht⟩ := table_of_any
    (o := ssaCaseTable {} quietCode { signed := true } signedArms caseEntry 0 1) (by decide)
  obtain ⟨u, starts', hchain, hu⟩ := chain_of_any
    (o := ssaCaseChain quietCode { signed := true } signedArms caseEntry 0 1) (by decide)
  have hopen : OpenAt caseEntry 0 := ⟨rfl, by decide, rfl, rfl⟩
  have hw : Waits caseEntry := fun p hp => absurd hp not_mem_nil
  exact ⟨t, u, starts, starts', htable, hchain, case_table_agrees {} quietCode { signed := true } signedArms
    caseEntry t u 0 1 0 starts starts' hopen hw (by decide) htable ht hchain hu⟩

end Dyn.Backend
