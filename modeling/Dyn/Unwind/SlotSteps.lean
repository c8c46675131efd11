import Dyn.Unwind.Knowledge

/-!
# Steps of a thread among slots

A thread that has a slot finds it: the search does not pass it, and a hint names it when it is in
the first chunk.  What can go wrong is a hint that was not replaced because the thread's slot is in
a later chunk; `HintIsLatest` says that the thread does not claim the slot of such a hint.
-/

namespace Dyn.Unwind

open List Function

section Linking

variable {F : Type} [DecidableEq F]

omit [DecidableEq F] in
theorem found_linking (call : Call F) (slot : Nat) : (found call slot).linking = call.linking := by
  cases call <;> rfl

omit [DecidableEq F] in
theorem candidateSeen_linking (call : Call F) (tid index seen : Nat) :
    (candidateSeen call tid index seen).linking = call.linking := by
  rw [candidateSeen]
  split_ifs
  · exact found_linking call index
  all_goals rfl

omit [DecidableEq F] in
theorem missing_linking (call : Call F) : (missing call).linking = [] := by
  cases call <;> rfl

/-- A step links no frame but the one that the thread is about to link. -/
theorem advance_frames (owned : Bool) (tid : Nat) (m : Memory F) (pc : Pc F) (linked : List F) :
    ((advance owned tid m pc).1.linking ++ relink pc linked).Sublist (pc.linking ++ linked) := by
  have hfound : ∀ (call : Call F) (slot : Nat),
      ((found call slot).linking ++ linked).Sublist (call.linking ++ linked) := fun call slot => by
    rw [found_linking]
  have hseen : ∀ (call : Call F) (index seen : Nat),
      ((candidateSeen call tid index seen).linking ++ linked).Sublist (call.linking ++ linked) :=
    fun call index seen => by rw [candidateSeen_linking]
  have hmissing : ∀ call : Call F, ((missing call).linking ++ linked).Sublist (call.linking ++ linked) :=
    fun call => by
      rw [missing_linking]
      exact sublist_append_right _ _
  fun_cases advance owned tid m pc
  all_goals first
    | exact List.Sublist.refl _
    | exact hfound _ _
    | exact hseen _ _ _
    | exact hmissing _
    | exact tail_sublist _
    | (dsimp only; split_ifs <;> exact List.Sublist.refl _)

end Linking

section Advance

variable {F : Type} [DecidableEq F] {T : Type} {id : T → Nat} {owned : Bool} {tid : Nat} {linked : List F}
  {m : Memory F} {pc : Pc F}

/-- Hints with the identity of a thread are in its bucket, and name its slot in the first chunk unless
it is about to be remembered. -/
structure HintOk (tid : Nat) (m : Memory F) (pc : Pc F) : Prop where
  place : ∀ b, m.hints b >>> 6 = tid → b = bucket tid ∧ hintable tid = true
  names : ∀ j, j < chunkSlots → m.tid j = tid → Hinted tid m j ∨ ∃ call, pc = .remember call j

/-- The thread does not claim the slot of its hint while it has a slot behind the first chunk. -/
def HintIsLatest (tid : Nat) (m : Memory F) (pc : Pc F) : Prop :=
  ∀ call index, pc = .take call index → m.tid index = 0 → ∀ i, chunkSlots ≤ i → m.tid i ≠ tid

/-- What a thread knows and what holds for it before a step. -/
structure Before (id : T → Nat) (owned : Bool) (tid : Nat) (m : Memory F) (linked : List F) (pc : Pc F) : Prop where
  slots : Slots id m
  own : Own owned tid m linked
  knows : At owned tid m linked pc
  hints : HintOk tid m pc
  nodup : (pc.linking ++ linked).Nodup
  pos : tid ≠ 0

structure Advanced (owned : Bool) (tid : Nat) (m : Memory F) (linked : List F) (pc : Pc F)
    (result : Pc F × Memory F) : Prop where
  effect : Effect owned tid (pc.linking ++ linked) m linked result.2 (relink pc linked)
  knows : At owned tid result.2 (relink pc linked) result.1
  hints : HintOk tid result.2 result.1

omit [DecidableEq F] in
theorem Got.found {call : Call F} {slot : Nat} (h : Got tid m linked slot call) :
    At owned tid m linked (found call slot) := by
  cases call with
  | link frame | unlink frame => exact h

omit [DecidableEq F] in
theorem Ready.got {call : Call F} {slot : Nat} (h : Ready tid m linked call) (hslot : m.tid slot = tid) :
    Got tid m linked slot call := by
  cases call with
  | link frame => exact hslot
  | unlink frame => exact ⟨hslot, h⟩

omit [DecidableEq F] in
theorem Ready.search {call : Call F} (h : Ready tid m linked call) (hchunks : 0 < m.chunks) :
    At owned tid m linked (.search call 0 none) :=
  ⟨h, Nat.mul_pos (by decide) hchunks, fun _ _ => Nat.zero_le _, nofun⟩

omit [DecidableEq F] in
theorem HintOk.same (h : HintOk tid m pc) (hpc : ∀ call slot, pc ≠ .remember call slot) (pc' : Pc F) :
    HintOk tid m pc' := by
  refine ⟨h.place, fun j hj hown => ?_⟩
  obtain hhinted | ⟨call, hcall⟩ := h.names j hj hown
  · exact .inl hhinted
  · exact absurd hcall (hpc call j)

theorem Before.look (h : Before id owned tid m linked pc) (hpc : ∀ call slot, pc ≠ .remember call slot)
    (hrelink : relink pc linked = linked) {pc' : Pc F} (hknows : At owned tid m linked pc') :
    Advanced owned tid m linked pc (pc', m) where
  effect := by
    rw [hrelink]
    exact .same
  knows := by
    rw [hrelink]
    exact hknows
  hints := h.hints.same hpc pc'

omit [DecidableEq F] in
theorem Own.not_free (h : Own owned tid m linked) {frame : F} {rest : List F} (hlinked : linked = frame :: rest)
    (hfree : Free tid m) : False := by
  rw [h.nil_of_free hfree] at hlinked
  cases hlinked

omit [DecidableEq F] in
theorem candidateSeen_at {call : Call F} {index seen : Nat} (hready : Ready tid m linked call)
    (hchunks : 0 < m.chunks) (hindex : index < chunkSlots) (hhinted : Hinted tid m index)
    (hown : ∀ j, j < chunkSlots → m.tid j = tid → j = index) (hseen : seen = tid ↔ m.tid index = tid) :
    At owned tid m linked (candidateSeen call tid index seen) := by
  rw [candidateSeen]
  split_ifs with heq hclaim
  · exact (hready.got (hseen.mp heq)).found
  · exact ⟨hready, hchunks, hindex, hhinted, hclaim.1, fun j hj hc => heq (hseen.mpr (hown j hj hc ▸ hc))⟩
  · exact hready.search hchunks

omit [DecidableEq F] in
theorem Before.free (h : Before id owned tid m linked pc) (hchunks : m.chunks = 0) : Free tid m := by
  intro i hi
  have hbound := h.slots.bound i (by rw [hchunks]; exact Nat.zero_le i)
  rw [hi] at hbound
  exact h.pos hbound

variable {call : Call F} {slot : Nat}

theorem advance_first (h : Before id owned tid m linked (.first call)) :
    Advanced owned tid m linked (.first call) (advance owned tid m (.first call)) := by
  have hready : Ready tid m linked call := h.knows
  rw [advance]
  split_ifs with hchunks hclaim
  · exact h.look (by simp) rfl ⟨hclaim, hready, h.free hchunks, Nat.zero_le _⟩
  · cases call with
    | link frame => exact absurd rfl hclaim
    | unlink frame =>
      obtain ⟨rest, hrest⟩ := hready
      exact (h.own.not_free hrest (h.free hchunks)).elim
  · exact h.look (by simp) rfl ⟨hready, Nat.pos_of_ne_zero hchunks⟩

omit [DecidableEq F] in
theorem HintOk.of_slots {m' : Memory F} (h : HintOk tid m pc) (hpc : ∀ call slot, pc ≠ .remember call slot)
    (hhints : m'.hints = m.hints) (hslots : ∀ j, m'.tid j = tid → m.tid j = tid) (pc' : Pc F) :
    HintOk tid m' pc' := by
  refine ⟨fun b hb => h.place b (by rwa [hhints] at hb), fun j hj hown => .inl fun b hb => ?_⟩
  obtain hhinted | ⟨call, hcall⟩ := h.names j hj (hslots j hown)
  · rw [hhints] at hb ⊢
    exact hhinted b hb
  · exact absurd hcall (hpc call j)

theorem advance_grow {again : Bool} {k : Nat}
    (h : Before id owned tid m linked (.grow call again k)) :
    Advanced owned tid m linked (.grow call again k) (advance owned tid m (.grow call again k)) := by
  obtain ⟨hclaim, hready, hfree, hk⟩ := h.knows
  have hrely : Rely tid linked m { m with chunks := m.chunks + 1 } :=
    ⟨fun _ => Iff.rfl, Nat.le_succ _, fun _ _ => rfl, fun _ _ => rfl, fun _ _ => rfl, fun _ _ => rfl⟩
  have hhints : ∀ pc, HintOk tid { m with chunks := m.chunks + 1 } pc := h.hints.of_slots (by simp) rfl fun _ hj => hj
  rw [advance]
  split_ifs with hlast hagain
  · exact ⟨.grow, (hrely.ready hready).search (Nat.succ_pos _), hhints _⟩
  · exact ⟨.grow, ⟨hrely.ready hready, Nat.succ_pos _⟩, hhints _⟩
  · exact h.look (by simp) rfl ⟨hclaim, hready, hfree, lt_of_le_of_ne hk hlast⟩

theorem advance_head (h : Before id owned tid m linked (.head call)) :
    Advanced owned tid m linked (.head call) (advance owned tid m (.head call)) := by
  obtain ⟨hready, hchunks⟩ := h.knows
  rw [advance]
  split_ifs with hown hfits
  · exact h.look (by simp) rfl (hready.got hown).found
  · exact h.look (by simp) rfl ⟨hready, hchunks, hown, hown⟩
  · exact h.look (by simp) rfl (hready.search hchunks)

theorem advance_hint {firstSeen : Nat} (h : Before id owned tid m linked (.hint call firstSeen)) :
    Advanced owned tid m linked (.hint call firstSeen) (advance owned tid m (.hint call firstSeen)) := by
  obtain ⟨hready, hchunks, hseen, hfirst⟩ := h.knows
  rw [advance]
  split
  · rename_i hword
    have hhinted : Hinted tid m (m.hints (bucket tid) &&& 63) := by
      intro b hb
      rw [(h.hints.place b hb).1]
    have hown : ∀ j, j < chunkSlots → m.tid j = tid → j = m.hints (bucket tid) &&& 63 := by
      intro j hj hj'
      obtain hnames | ⟨call', hc⟩ := h.hints.names j hj hj'
      · exact (hnames _ hword.1).symm
      · cases hc
    split_ifs with hindex
    · exact h.look (by simp) rfl ⟨hready, hchunks, hword.2, hhinted, hown⟩
    rw [not_not] at hindex
    rw [hindex] at hhinted hown
    exact h.look (by simp) rfl (candidateSeen_at hready hchunks (by decide) hhinted hown
      ⟨fun hc => absurd hc hseen, fun hc => absurd hc hfirst⟩)
  · exact h.look (by simp) rfl (hready.search hchunks)

theorem advance_candidate {index : Nat} (h : Before id owned tid m linked (.candidate call index)) :
    Advanced owned tid m linked (.candidate call index) (advance owned tid m (.candidate call index)) := by
  obtain ⟨hready, hchunks, hindex, hhinted, hown⟩ := h.knows
  exact h.look (by simp) rfl (candidateSeen_at hready hchunks hindex hhinted hown Iff.rfl)

omit [DecidableEq F] in
theorem got_claimed {call : Call F} (hclaim : call.claim = true) (slot : Nat) :
    Got tid { m with tid := update m.tid slot tid } linked slot call := by
  cases call with
  | link frame => exact update_self _ _ _
  | unlink frame => cases hclaim

theorem advance_take {index : Nat} (h : Before id owned tid m linked (.take call index))
    (hlatest : HintIsLatest tid m (.take call index)) :
    Advanced owned tid m linked (.take call index) (advance owned tid m (.take call index)) := by
  obtain ⟨hready, hchunks, hindex, hhinted, hclaim, hown⟩ := h.knows
  rw [advance]
  split_ifs with hvacant
  · have hfree : Free tid m := by
      intro i hi
      rcases lt_or_ge i chunkSlots with hlt | hge
      · exact hown i hlt hi
      · exact hlatest call index rfl hvacant i hge hi
    refine ⟨.claim hvacant (hindex.trans_le (Nat.le_mul_of_pos_right _ hchunks)) hfree,
      (got_claimed hclaim index).found, ⟨h.hints.place, fun j hj hj' => ?_⟩⟩
    · have hji : j = index := by
        by_contra hne
        dsimp only at hj'
        rw [update_of_ne hne] at hj'
        exact hfree j hj'
      rw [hji]
      exact .inl hhinted
  · exact h.look (by simp) rfl (hready.search hchunks)

variable {empty : Option Nat} {frame : F}

theorem advance_search {i : Nat} (h : Before id owned tid m linked (.search call i empty)) :
    Advanced owned tid m linked (.search call i empty) (advance owned tid m (.search call i empty)) := by
  obtain ⟨hready, hi, hahead, hempty⟩ := h.knows
  rw [advance]
  split
  · rename_i hown
    exact h.look (by simp) rfl (hready.got hown)
  rename_i hown
  have hahead' : Ahead tid m (i + 1) (if m.tid i = 0 ∧ empty = none then some i else empty) := by
    refine ⟨fun j hj => ?_, fun slot hslot => ?_⟩
    · exact lt_of_le_of_ne (hahead j hj) fun hc => hown (hc ▸ hj)
    split_ifs at hslot
    · obtain rfl := Option.mem_some.mp hslot
      exact hi
    · exact hempty slot hslot
  by_cases hend : (i + 1) % chunkSlots = 0
  · rw [if_pos hend]
    exact h.look (by simp) rfl ⟨hready, hi, hend, hahead'⟩
  rw [if_neg hend]
  refine h.look (by simp) rfl ⟨hready, ?_, hahead'⟩
  rw [chunkSlots] at hi hend ⊢
  omega

theorem advance_next {i : Nat} (h : Before id owned tid m linked (.next call i empty)) :
    Advanced owned tid m linked (.next call i empty) (advance owned tid m (.next call i empty)) := by
  obtain ⟨hready, hi, hmod, hahead, hempty⟩ := h.knows
  rw [advance.eq_def]
  dsimp only
  split
  · rename_i hmore
    refine h.look (by simp) rfl ⟨hready, ?_, hahead, hempty⟩
    rw [chunkSlots] at hi hmod hmore ⊢
    omega
  rename_i hmore
  have hfree : Free tid m := by
    intro j hj
    have hle := hahead j hj
    have hbound := h.slots.bound j (by rw [chunkSlots] at hi hmod hmore ⊢; omega)
    rw [hj] at hbound
    exact h.pos hbound
  split_ifs with hclaim
  · cases call with
    | link frame => cases hclaim
    | unlink frame =>
      obtain ⟨rest, hrest⟩ := hready
      exact (h.own.not_free hrest hfree).elim
  have hclaim' : call.claim = true := by simpa using hclaim
  cases empty with
  | none => exact h.look (by simp) rfl ⟨hclaim', hready, hfree, Nat.zero_le _⟩
  | some slot => exact h.look (by simp) rfl ⟨hready, hclaim', hempty slot rfl, hfree⟩

theorem advance_vacancy (h : Before id owned tid m linked (.vacancy call slot)) :
    Advanced owned tid m linked (.vacancy call slot) (advance owned tid m (.vacancy call slot)) := by
  obtain ⟨hready, hclaim, hslot, hfree⟩ := h.knows
  rw [advance]
  split_ifs with hvacant
  · refine ⟨.claim hvacant hslot hfree, got_claimed hclaim slot, ⟨h.hints.place, fun j hj hj' => ?_⟩⟩
    have hjs : j = slot := by
      by_contra hne
      dsimp only at hj'
      rw [update_of_ne hne] at hj'
      exact hfree j hj'
    rw [hjs]
    exact .inr ⟨call, rfl⟩
  · refine h.look (by simp) rfl (hready.search ?_)
    rw [chunkSlots] at hslot
    omega

theorem advance_remember (h : Before id owned tid m linked (.remember call slot)) :
    Advanced owned tid m linked (.remember call slot) (advance owned tid m (.remember call slot)) := by
  have hgot : Got tid m linked slot call := h.knows
  have hslot : m.tid slot = tid := by
    cases call with
    | link frame => exact hgot
    | unlink frame => exact hgot.1
  rw [advance]
  split_ifs with hfits
  · refine ⟨.hint hfits.1 hfits.2 hslot, ?_, ⟨fun b hb => ?_, fun j hj hj' => .inl fun b hb => ?_⟩⟩
    · have hrely : Got tid { m with hints := update m.hints (bucket tid) (hintWord tid slot) } linked slot
          call := by
        cases call with
        | link frame | unlink frame => exact hgot
      exact hrely.found
    · dsimp only at hb
      by_cases hbucket : b = bucket tid
      · exact ⟨hbucket, hfits.1⟩
      · rw [update_of_ne hbucket] at hb
        exact h.hints.place b hb
    dsimp only at hb ⊢
    by_cases hbucket : b = bucket tid
    · rw [hbucket, update_self, (hint_word hfits.2).2]
      exact h.own.unique slot j hslot hj'
    · rw [update_of_ne hbucket] at hb
      exact absurd (h.hints.place b hb).1 hbucket
  · refine ⟨.same, hgot.found, ⟨h.hints.place, fun j hj hj' => .inl fun b hb => ?_⟩⟩
    · have hjs := h.own.unique slot j hslot hj'
      exact absurd ⟨(h.hints.place b hb).2, hjs ▸ hj⟩ hfits

theorem advance_previous (h : Before id owned tid m linked (.previous frame slot)) :
    Advanced owned tid m linked (.previous frame slot) (advance owned tid m (.previous frame slot)) := by
  have hslot : m.tid slot = tid := h.knows
  have hfresh : frame ∉ linked := (nodup_cons.mp h.nodup).1
  refine ⟨.previous (mem_append_left _ (mem_singleton.mpr rfl)) hfresh,
    ⟨hslot, update_self _ _ _, fun howned => ?_⟩, ?_⟩
  · rw [advance]
    dsimp only
    rw [if_pos howned, update_self]
  refine h.hints.of_slots (by simp) ?_ ?_ _
  · rfl
  · exact fun _ hj => hj

theorem advance_push (h : Before id owned tid m linked (.push frame slot)) :
    Advanced owned tid m linked (.push frame slot) (advance owned tid m (.push frame slot)) := by
  obtain ⟨hslot, hprevious, howner⟩ := h.knows
  have hfresh : frame ∉ linked := (nodup_cons.mp h.nodup).1
  refine ⟨.push hslot hfresh hprevious howner, fun hc => absurd hc (cons_ne_nil _ _), ?_⟩
  refine h.hints.of_slots (by simp) ?_ ?_ _
  · rfl
  · exact fun _ hj => hj

theorem advance_test (h : Before id owned tid m linked (.test frame slot)) :
    Advanced owned tid m linked (.test frame slot) (advance owned tid m (.test frame slot)) := by
  obtain ⟨hslot, rest, hrest⟩ := h.knows
  have htop : m.top slot = some frame := by
    have hchain := h.own.chain slot hslot
    rw [hrest] at hchain
    exact hchain.1
  rw [advance, if_pos htop]
  exact h.look (by simp) rfl ⟨hslot, htop, rest, hrest⟩

theorem advance_pop (h : Before id owned tid m linked (.pop frame slot)) :
    Advanced owned tid m linked (.pop frame slot) (advance owned tid m (.pop frame slot)) := by
  obtain ⟨hslot, -, rest, hrest⟩ := h.knows
  have hnodup : linked.Nodup := h.nodup
  subst hrest
  refine ⟨.pop hslot rfl (mem_append_right _ mem_cons_self) (nodup_cons.mp hnodup).1, hslot, ?_⟩
  refine h.hints.of_slots (by simp) ?_ ?_ _
  · rfl
  · exact fun _ hj => hj

theorem advance_release (h : Before id owned tid m linked (.release frame slot)) :
    Advanced owned tid m linked (.release frame slot) (advance owned tid m (.release frame slot)) := by
  have hslot : m.tid slot = tid := h.knows
  rw [advance]
  split_ifs with hempty
  · have hkept : ∀ j, update m.tid slot 0 j = tid → j ≠ slot ∧ m.tid j = tid := by
      intro j hj
      by_cases hjs : j = slot
      · rw [hjs, update_self] at hj
        exact absurd hj.symm h.pos
      · rw [update_of_ne hjs] at hj
        exact ⟨hjs, hj⟩
    refine ⟨.release hslot hempty.1, fun _ j hj => ?_, ?_⟩
    · obtain ⟨hne, hj⟩ := hkept j hj
      exact hne (h.own.unique j slot hj hslot)
    refine h.hints.of_slots (by simp) ?_ ?_ _
    · rfl
    · exact fun j hj => (hkept j hj).2
  · refine h.look (by simp) rfl (fun hnil => ?_)
    have hchain := h.own.chain slot hslot
    rw [hnil] at hchain
    exact absurd ⟨hchain, h.slots.unwinding slot⟩ hempty

theorem advance_ok (h : Before id owned tid m linked pc) (hlatest : HintIsLatest tid m pc) :
    Advanced owned tid m linked pc (advance owned tid m pc) := by
  cases pc with
  | idle => exact h.look (by simp) rfl h.knows
  | first call => exact advance_first h
  | grow call again k => exact advance_grow h
  | growNext call again k =>
    obtain ⟨hclaim, hready, hfree, hk⟩ := h.knows
    exact h.look (by simp) rfl ⟨hclaim, hready, hfree, hk⟩
  | reload call => exact h.look (by simp) rfl h.knows
  | head call => exact advance_head h
  | hint call firstSeen => exact advance_hint h
  | candidate call index => exact advance_candidate h
  | take call index => exact advance_take h hlatest
  | search call i empty => exact advance_search h
  | next call i empty => exact advance_next h
  | vacancy call slot => exact advance_vacancy h
  | remember call slot => exact advance_remember h
  | previous frame slot => exact advance_previous h
  | push frame slot => exact advance_push h
  | test frame slot => exact advance_test h
  | pop frame slot => exact advance_pop h
  | release frame slot => exact advance_release h
  | lost frame => exact h.knows.elim

end Advance

end Dyn.Unwind
