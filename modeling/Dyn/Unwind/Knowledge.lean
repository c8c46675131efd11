import Dyn.Unwind.Slots

/-!
# What threads know about slots

`At` says what a thread knows where it is, and `Effect` what a step of it can do to the slots, the
hints and the frames.  What a thread knows is about its own identity and its own frames, so that
the effects of the others leave it alone (`Rely`).
-/

namespace Dyn.Unwind

open Lib Function

section Knowledge

variable {F : Type} (owned : Bool) (tid : Nat) (m : Memory F) (linked : List F)

def Free : Prop := ∀ i, m.tid i ≠ tid

/-- What a thread knows where it has begun a call. -/
def Ready : Call F → Prop
  | .link _ => linked = [] → Free tid m
  | .unlink frame => ∃ rest, linked = frame :: rest

/-- What a thread knows where it has a slot for a call. -/
def Got (slot : Nat) : Call F → Prop
  | .link _ => m.tid slot = tid
  | .unlink frame => m.tid slot = tid ∧ ∃ rest, linked = frame :: rest

/-- All hints of the thread name this slot. -/
def Hinted (index : Nat) : Prop := ∀ b, m.hints b >>> 6 = tid → m.hints b &&& 63 = index

/-- The search has not passed the slot of the thread. -/
def Ahead (i : Nat) (empty : Option Nat) : Prop :=
  (∀ j, m.tid j = tid → i ≤ j) ∧ ∀ slot ∈ empty, slot < chunkSlots * m.chunks

def At : Pc F → Prop
  | .idle => linked = [] → Free tid m
  | .first call => Ready tid m linked call
  | .grow call _ k => call.claim = true ∧ Ready tid m linked call ∧ Free tid m ∧ k ≤ m.chunks
  | .growNext call _ k => call.claim = true ∧ Ready tid m linked call ∧ Free tid m ∧ k < m.chunks
  | .reload call => Ready tid m linked call ∧ 0 < m.chunks
  | .head call => Ready tid m linked call ∧ 0 < m.chunks
  | .hint call firstSeen => Ready tid m linked call ∧ 0 < m.chunks ∧ firstSeen ≠ tid ∧ m.tid 0 ≠ tid
  | .candidate call index => Ready tid m linked call ∧ 0 < m.chunks ∧ index < chunkSlots ∧ Hinted tid m index ∧
      ∀ j, j < chunkSlots → m.tid j = tid → j = index
  | .take call index => Ready tid m linked call ∧ 0 < m.chunks ∧ index < chunkSlots ∧ Hinted tid m index ∧
      call.claim = true ∧ ∀ j, j < chunkSlots → m.tid j ≠ tid
  | .search call i empty => Ready tid m linked call ∧ i < chunkSlots * m.chunks ∧ Ahead tid m i empty
  | .next call i empty => Ready tid m linked call ∧ i ≤ chunkSlots * m.chunks ∧ i % chunkSlots = 0 ∧
      Ahead tid m i empty
  | .vacancy call slot => Ready tid m linked call ∧ call.claim = true ∧ slot < chunkSlots * m.chunks ∧ Free tid m
  | .remember call slot => Got tid m linked slot call
  | .previous _ slot => m.tid slot = tid
  | .push frame slot => m.tid slot = tid ∧ m.previous frame = m.top slot ∧
      (owned = true → m.owner frame = some slot)
  | .test frame slot => m.tid slot = tid ∧ ∃ rest, linked = frame :: rest
  | .pop frame slot => m.tid slot = tid ∧ m.top slot = some frame ∧ ∃ rest, linked = frame :: rest
  | .release _ slot => m.tid slot = tid
  | .lost _ => False

end Knowledge

section Frames

variable {F : Type}

theorem Chain.congr {previous previous' : F → Option F} {frames : List F}
    (h : ∀ frame ∈ frames, previous' frame = previous frame) {top : Option F} (hchain : Chain previous top frames) :
    Chain previous' top frames := by
  induction frames generalizing top with
  | nil => exact hchain
  | cons frame rest ih =>
    obtain ⟨hhead, hrest⟩ := List.forall_mem_cons.mp h
    refine ⟨hchain.1, ?_⟩
    rw [hhead]
    exact ih hrest hchain.2

/-- What a step of another thread leaves alone. -/
structure Rely (tid : Nat) (frames : List F) (m m' : Memory F) : Prop where
  slots : ∀ i, m'.tid i = tid ↔ m.tid i = tid
  chunks : m.chunks ≤ m'.chunks
  top : ∀ i, m.tid i = tid → m'.top i = m.top i
  previous : ∀ frame ∈ frames, m'.previous frame = m.previous frame
  owner : ∀ frame ∈ frames, m'.owner frame = m.owner frame
  hints : ∀ b, m'.hints b >>> 6 = tid → m'.hints b = m.hints b

variable {tid : Nat} {frames linked : List F} {m m' : Memory F}

theorem Rely.free (h : Rely tid frames m m') (hfree : Free tid m) : Free tid m' :=
  fun i hi => hfree i ((h.slots i).mp hi)

theorem Rely.ready (h : Rely tid frames m m') {call : Call F} (hready : Ready tid m linked call) :
    Ready tid m' linked call := by
  cases call with
  | link frame => exact fun hnil => h.free (hready hnil)
  | unlink frame => exact hready

theorem Rely.hinted (h : Rely tid frames m m') {index : Nat} (hhinted : Hinted tid m index) :
    Hinted tid m' index := by
  intro b hb
  have heq := h.hints b hb
  rw [heq] at hb ⊢
  exact hhinted b hb

theorem Rely.bound (h : Rely tid frames m m') {i : Nat} (hi : i < chunkSlots * m.chunks) :
    i < chunkSlots * m'.chunks :=
  hi.trans_le (Nat.mul_le_mul_left _ h.chunks)

theorem Rely.ahead (h : Rely tid frames m m') {i : Nat} {empty : Option Nat} (hahead : Ahead tid m i empty) :
    Ahead tid m' i empty :=
  ⟨fun j hj => hahead.1 j ((h.slots j).mp hj), fun slot hslot => h.bound (hahead.2 slot hslot)⟩

theorem At.rely {owned : Bool} {pc : Pc F} (hat : At owned tid m linked pc)
    (h : Rely tid (pc.linking ++ linked) m m') : At owned tid m' linked pc := by
  cases pc with
  | idle => exact fun hnil => h.free (hat hnil)
  | first call => exact h.ready hat
  | grow call again k =>
    exact ⟨hat.1, h.ready hat.2.1, h.free hat.2.2.1, hat.2.2.2.trans h.chunks⟩
  | growNext call again k =>
    exact ⟨hat.1, h.ready hat.2.1, h.free hat.2.2.1, hat.2.2.2.trans_le h.chunks⟩
  | reload call | head call => exact ⟨h.ready hat.1, hat.2.trans_le h.chunks⟩
  | hint call seen =>
    exact ⟨h.ready hat.1, hat.2.1.trans_le h.chunks, hat.2.2.1, fun hc => hat.2.2.2 ((h.slots 0).mp hc)⟩
  | candidate call index =>
    obtain ⟨hready, hchunks, hindex, hhinted, hown⟩ := hat
    exact ⟨h.ready hready, hchunks.trans_le h.chunks, hindex, h.hinted hhinted,
      fun j hj hc => hown j hj ((h.slots j).mp hc)⟩
  | take call index =>
    obtain ⟨hready, hchunks, hindex, hhinted, hclaim, hown⟩ := hat
    exact ⟨h.ready hready, hchunks.trans_le h.chunks, hindex, h.hinted hhinted, hclaim,
      fun j hj hc => hown j hj ((h.slots j).mp hc)⟩
  | search call i empty => exact ⟨h.ready hat.1, h.bound hat.2.1, h.ahead hat.2.2⟩
  | next call i empty =>
    exact ⟨h.ready hat.1, hat.2.1.trans (Nat.mul_le_mul_left _ h.chunks), hat.2.2.1, h.ahead hat.2.2.2⟩
  | vacancy call slot => exact ⟨h.ready hat.1, hat.2.1, h.bound hat.2.2.1, h.free hat.2.2.2⟩
  | remember call slot =>
    cases call with
    | link frame => exact (h.slots slot).mpr hat
    | unlink frame => exact ⟨(h.slots slot).mpr hat.1, hat.2⟩
  | previous frame slot => exact (h.slots slot).mpr hat
  | push frame slot =>
    obtain ⟨hslot, hprevious, howner⟩ := hat
    have hframe : frame ∈ (Pc.push frame slot).linking ++ linked := List.mem_append_left _ (List.mem_singleton.mpr rfl)
    refine ⟨(h.slots slot).mpr hslot, ?_, fun hc => ?_⟩
    · rw [h.previous frame hframe, h.top slot hslot]
      exact hprevious
    · rw [h.owner frame hframe]
      exact howner hc
  | test frame slot => exact ⟨(h.slots slot).mpr hat.1, hat.2⟩
  | pop frame slot =>
    refine ⟨(h.slots slot).mpr hat.1, ?_, hat.2.2⟩
    rw [h.top slot hat.1]
    exact hat.2.1
  | release frame slot => exact (h.slots slot).mpr hat
  | lost frame => exact hat

end Frames

section Effects

variable {F : Type} [DecidableEq F]

/-- What a step of a thread can do to the memory and to its linked frames. -/
inductive Effect (owned : Bool) (tid : Nat) (frames : List F) (m : Memory F) (linked : List F) :
    Memory F → List F → Prop
  | same : Effect owned tid frames m linked m linked
  | grow : Effect owned tid frames m linked { m with chunks := m.chunks + 1 } linked
  | claim {slot : Nat} (vacant : m.tid slot = 0) (bound : slot < chunkSlots * m.chunks) (free : Free tid m) :
      Effect owned tid frames m linked { m with tid := update m.tid slot tid } linked
  | hint {slot : Nat} (fits : hintable tid = true) (bound : slot < 64) (own : m.tid slot = tid) :
      Effect owned tid frames m linked
        { m with hints := update m.hints (bucket tid) (hintWord tid slot) } linked
  | previous {frame : F} {slot : Nat} (mem : frame ∈ frames) (unlinked : frame ∉ linked) :
      Effect owned tid frames m linked { m with
        previous := update m.previous frame (m.top slot)
        owner := if owned then update m.owner frame (some slot) else m.owner } linked
  | push {frame : F} {slot : Nat} (own : m.tid slot = tid) (unlinked : frame ∉ linked)
      (previous : m.previous frame = m.top slot) (owner : owned = true → m.owner frame = some slot) :
      Effect owned tid frames m linked { m with top := update m.top slot (some frame) }
        (frame :: linked)
  | pop {frame : F} {rest : List F} {slot : Nat} (own : m.tid slot = tid) (newest : linked = frame :: rest)
      (mem : frame ∈ frames) (fresh : frame ∉ rest) :
      Effect owned tid frames m linked { m with
        top := update m.top slot (m.previous frame)
        owner := if owned then update m.owner frame none else m.owner } rest
  | release {slot : Nat} (own : m.tid slot = tid) (empty : m.top slot = none) :
      Effect owned tid frames m linked { m with tid := update m.tid slot 0 } linked

structure Slots {T : Type} (id : T → Nat) (m : Memory F) : Prop where
  ids : ∀ i, m.tid i ≠ 0 → ∃ t, m.tid i = id t
  bound : ∀ i, chunkSlots * m.chunks ≤ i → m.tid i = 0
  vacant : ∀ i, m.tid i = 0 → m.top i = none
  unwinding : ∀ i, m.unwinding i = 0

structure Own (owned : Bool) (tid : Nat) (m : Memory F) (linked : List F) : Prop where
  unique : ∀ i j, m.tid i = tid → m.tid j = tid → i = j
  chain : ∀ i, m.tid i = tid → Chain m.previous (m.top i) linked
  holds : linked ≠ [] → ∃ i, m.tid i = tid
  owner : owned = true → ∀ frame ∈ linked, ∃ i, m.owner frame = some i ∧ m.tid i = tid

variable {T : Type} {id : T → Nat} {owned : Bool} {tid : Nat} {frames linked linked' : List F} {m m' : Memory F}

omit [DecidableEq F] in
theorem Own.nil_of_free (h : Own owned tid m linked) (hfree : Free tid m) : linked = [] := by
  by_contra hne
  obtain ⟨i, hi⟩ := h.holds hne
  exact hfree i hi

omit [DecidableEq F] in
theorem hint_word {index : Nat} (hindex : index < 64) :
    hintWord tid index >>> 6 = tid ∧ hintWord tid index &&& 63 = index := by
  have hword : hintWord tid index = 2 ^ 6 * tid + index := by
    rw [hintWord, ← Nat.shiftLeft_add_eq_or_of_lt hindex, Nat.shiftLeft_eq, mul_comm]
  rw [hword, Nat.shiftRight_eq_div_pow, show (63 : Nat) = 2 ^ 6 - 1 by norm_num, Nat.and_two_pow_sub_one_eq_mod]
  constructor <;> omega

omit [DecidableEq F] in
theorem Effect.rely [DecidableEq F] (h : Effect owned tid frames m linked m' linked') {tid' : Nat}
    (hne : tid ≠ tid') (hpos : tid' ≠ 0) {frames' : List F} (hdisjoint : ∀ frame ∈ frames, frame ∉ frames') :
    Rely tid' frames' m m' := by
  cases h with
  | same => exact ⟨fun _ => Iff.rfl, le_rfl, fun _ _ => rfl, fun _ _ => rfl, fun _ _ => rfl, fun _ _ => rfl⟩
  | grow => exact ⟨fun _ => Iff.rfl, Nat.le_succ _, fun _ _ => rfl, fun _ _ => rfl, fun _ _ => rfl, fun _ _ => rfl⟩
  | @claim slot vacant bound free =>
    refine ⟨fun i => ?_, le_rfl, fun _ _ => rfl, fun _ _ => rfl, fun _ _ => rfl, fun _ _ => rfl⟩
    dsimp only
    by_cases hi : i = slot
    · subst hi
      rw [update_self, vacant]
      exact ⟨fun hc => absurd hc hne, fun hc => absurd hc.symm hpos⟩
    · rw [update_of_ne hi]
  | @hint slot fits bound own =>
    refine ⟨fun _ => Iff.rfl, le_rfl, fun _ _ => rfl, fun _ _ => rfl, fun _ _ => rfl, fun b hb => ?_⟩
    dsimp only at hb ⊢
    by_cases hbucket : b = bucket tid
    · rw [hbucket, update_self, (hint_word bound).1] at hb
      exact absurd hb hne
    · rw [update_of_ne hbucket]
  | @previous frame slot mem unlinked =>
    have hother : ∀ f ∈ frames', f ≠ frame := fun f hf hc => hdisjoint frame mem (hc ▸ hf)
    refine ⟨fun _ => Iff.rfl, le_rfl, fun _ _ => rfl, fun f hf => ?_, fun f hf => ?_, fun _ _ => rfl⟩
    · exact update_of_ne (hother f hf) _ _
    split_ifs
    · exact update_of_ne (hother f hf) _ _
    · rfl
  | @push frame slot own unlinked previous owner =>
    refine ⟨fun _ => Iff.rfl, le_rfl, fun i hi => ?_, fun _ _ => rfl, fun _ _ => rfl, fun _ _ => rfl⟩
    have hother : i ≠ slot := by
      rintro rfl
      exact hne (own.symm.trans hi)
    exact update_of_ne hother _ _
  | @pop frame rest slot own newest mem fresh =>
    refine ⟨fun _ => Iff.rfl, le_rfl, fun i hi => ?_, fun _ _ => rfl, fun f hf => ?_, fun _ _ => rfl⟩
    · have hother : i ≠ slot := by
        rintro rfl
        exact hne (own.symm.trans hi)
      exact update_of_ne hother _ _
    have hother : f ≠ frame := by
      rintro rfl
      exact hdisjoint f mem hf
    split_ifs
    · exact update_of_ne hother _ _
    · rfl
  | @release slot own empty =>
    refine ⟨fun i => ?_, le_rfl, fun _ _ => rfl, fun _ _ => rfl, fun _ _ => rfl, fun _ _ => rfl⟩
    dsimp only
    by_cases hi : i = slot
    · subst hi
      rw [update_self, own]
      exact ⟨fun hc => absurd hc.symm hpos, fun hc => absurd hc hne⟩
    · rw [update_of_ne hi]

omit [DecidableEq F] in
theorem Own.rely (h : Own owned tid m linked) (hrely : Rely tid frames m m') (hframes : linked ⊆ frames) :
    Own owned tid m' linked where
  unique i j hi hj := h.unique i j ((hrely.slots i).mp hi) ((hrely.slots j).mp hj)
  chain i hi := by
    have hi := (hrely.slots i).mp hi
    rw [hrely.top i hi]
    exact (h.chain i hi).congr fun frame hframe => hrely.previous frame (hframes hframe)
  holds hne := by
    obtain ⟨i, hi⟩ := h.holds hne
    exact ⟨i, (hrely.slots i).mpr hi⟩
  owner howned frame hframe := by
    obtain ⟨i, howner, hi⟩ := h.owner howned frame hframe
    exact ⟨i, (hrely.owner frame (hframes hframe)).trans howner, (hrely.slots i).mpr hi⟩

theorem Effect.slots {t : T} (h : Effect owned (id t) frames m linked m' linked') (hslots : Slots id m)
    (hpos : id t ≠ 0) : Slots id m' := by
  cases h with
  | same => exact hslots
  | grow =>
    refine ⟨hslots.ids, fun i hi => hslots.bound i ?_, hslots.vacant, hslots.unwinding⟩
    exact (Nat.mul_le_mul_left _ (Nat.le_succ _)).trans hi
  | @claim slot vacant bound free =>
    refine ⟨fun i hi => ?_, fun i hi => ?_, fun i hi => ?_, hslots.unwinding⟩
    · dsimp only at hi ⊢
      by_cases his : i = slot
      · exact ⟨t, by rw [his, update_self]⟩
      · rw [update_of_ne his] at hi ⊢
        exact hslots.ids i hi
    · dsimp only at hi ⊢
      rw [update_of_ne (by omega)]
      exact hslots.bound i hi
    dsimp only at hi ⊢
    by_cases his : i = slot
    · rw [his]
      exact hslots.vacant slot vacant
    · rw [update_of_ne his] at hi
      exact hslots.vacant i hi
  | hint fits bound own | previous mem unlinked => exact ⟨hslots.ids, hslots.bound, hslots.vacant, hslots.unwinding⟩
  | @push frame slot own unlinked previous owner | @pop frame rest slot own newest mem fresh =>
    refine ⟨hslots.ids, hslots.bound, fun i hi => ?_, hslots.unwinding⟩
    rw [← hslots.vacant i hi]
    refine update_of_ne (fun hc => hpos ?_) _ _
    rw [← own, ← hc]
    exact hi
  | @release slot own empty =>
    refine ⟨fun i hi => ?_, fun i hi => ?_, fun i hi => ?_, hslots.unwinding⟩
    · dsimp only at hi ⊢
      by_cases his : i = slot
      · rw [his, update_self] at hi
        exact absurd rfl hi
      · rw [update_of_ne his] at hi ⊢
        exact hslots.ids i hi
    · dsimp only
      by_cases his : i = slot
      · rw [his, update_self]
      · rw [update_of_ne his]
        exact hslots.bound i hi
    dsimp only at hi ⊢
    by_cases his : i = slot
    · rw [his]
      exact empty
    · rw [update_of_ne his] at hi
      exact hslots.vacant i hi

theorem Effect.own (h : Effect owned tid frames m linked m' linked') (hown : Own owned tid m linked)
    (hvacant : ∀ i, m.tid i = 0 → m.top i = none) (hpos : tid ≠ 0) : Own owned tid m' linked' := by
  cases h with
  | same => exact hown
  | grow => exact ⟨hown.unique, hown.chain, hown.holds, hown.owner⟩
  | @claim slot vacant bound free =>
    obtain rfl := hown.nil_of_free free
    have hslot : ∀ i, update m.tid slot tid i = tid → i = slot := by
      intro i hi
      by_contra hne
      rw [update_of_ne hne] at hi
      exact free i hi
    refine ⟨fun i j hi hj => (hslot i hi).trans (hslot j hj).symm, fun i hi => ?_, fun hc => absurd rfl hc,
      nofun⟩
    rw [hslot i hi]
    exact hvacant slot vacant
  | hint fits bound own => exact ⟨hown.unique, hown.chain, hown.holds, hown.owner⟩
  | @previous frame slot mem unlinked =>
    have hother : ∀ f ∈ linked, f ≠ frame := fun f hf hc => unlinked (hc ▸ hf)
    refine ⟨hown.unique, fun i hi => ?_, hown.holds, fun howned f hf => ?_⟩
    · exact (hown.chain i hi).congr fun f hf => update_of_ne (hother f hf) _ _
    obtain ⟨i, howner, hi⟩ := hown.owner howned f hf
    refine ⟨i, ?_, hi⟩
    dsimp only
    rw [if_pos howned, update_of_ne (hother f hf)]
    exact howner
  | @push frame slot own unlinked previous owner =>
    refine ⟨hown.unique, fun i hi => ?_, fun _ => ⟨slot, own⟩, fun howned => ?_⟩
    · obtain rfl := hown.unique i slot hi own
      dsimp only
      rw [update_self]
      exact ⟨rfl, previous ▸ hown.chain i own⟩
    · exact List.forall_mem_cons.mpr ⟨⟨slot, owner howned, own⟩, hown.owner howned⟩
  | @pop frame rest slot own newest mem fresh =>
    subst newest
    refine ⟨hown.unique, fun i hi => ?_, fun _ => ⟨slot, own⟩, fun howned f hf => ?_⟩
    · obtain rfl := hown.unique i slot hi own
      dsimp only
      rw [update_self]
      exact (hown.chain i own).2
    obtain ⟨i, howner, hi⟩ := hown.owner howned f (List.mem_cons_of_mem _ hf)
    have hother : f ≠ frame := by
      rintro rfl
      exact fresh hf
    refine ⟨i, ?_, hi⟩
    dsimp only
    rw [if_pos howned, update_of_ne hother]
    exact howner
  | @release slot own empty =>
    have hnil : linked = [] := by
      have hchain := hown.chain slot own
      rw [empty] at hchain
      cases linked with
      | nil => rfl
      | cons frame rest => cases hchain.1
    have hfree : ∀ i, update m.tid slot 0 i ≠ tid := by
      intro i hi
      by_cases his : i = slot
      · rw [his, update_self] at hi
        exact hpos hi.symm
      · rw [update_of_ne his] at hi
        exact his (hown.unique i slot hi own)
    subst hnil
    exact ⟨fun i _ hi => absurd hi (hfree i), fun i hi => absurd hi (hfree i), fun hc => absurd rfl hc,
      nofun⟩

end Effects

end Dyn.Unwind
