import Mathlib.Data.List.GetD
import Mathlib.Tactic

/-!
# Walks over a graph with stamps

A work list walks a graph from several starts.  A node that bears the stamp of the walk has been
pushed; the walk keeps the greatest weight of the nodes that it has seen behind others, and it does
not go on behind a node that is closed.  The stamps of earlier walks are left alone.

`walks_reach` and `walks_attained` say which weight that is: the greatest over the edges that are
reached from the starts.
-/

namespace Dyn.Lib

open List

/-- In an unordered list the last item takes the place of one that is removed. -/
theorem removal_perm {α : Type} {xs : List α} {x last : α} {i : Nat} (h : xs[i]? = some x)
    (hlast : xs.getLast? = some last) : xs.Perm (x :: (xs.set i last).dropLast) := by
  rcases eq_nil_or_concat xs with rfl | ⟨init, final, rfl⟩
  · cases h
  rw [concat_eq_append] at *
  rw [getLast?_concat] at hlast
  cases hlast
  obtain ⟨hi, hget⟩ := List.getElem?_eq_some_iff.mp h
  by_cases hinit : i < init.length
  · rw [getElem_append_left hinit] at hget
    rw [set_append_left _ _ hinit, dropLast_concat]
    -- The item and the last one change places.
    have hsplit : init = init.take i ++ x :: init.drop (i + 1) := by
      rw [← hget, cons_getElem_drop_succ, take_append_drop]
    have hset : init.set i last = init.take i ++ last :: init.drop (i + 1) :=
      set_eq_take_cons_drop last hinit
    rw [hset]
    nth_rewrite 1 [hsplit]
    rw [append_assoc, cons_append]
    refine perm_middle.trans (List.Perm.cons x ?_)
    refine List.Perm.append_left _ ?_
    exact perm_append_singleton _ _
  have heq : i = init.length := by
    rw [length_append, length_singleton] at hi
    omega
  subst heq
  rw [getElem_append_right le_rfl] at hget
  rw [set_append_right _ _ le_rfl, Nat.sub_self, set_cons_zero, dropLast_concat]
  have hx : last = x := by simpa using hget
  rw [← hx]
  exact perm_append_singleton _ _

namespace Worklist

structure State where
  stamps : List Nat
  work : List Nat := []
  best : Nat
deriving DecidableEq, Repr

def State.stamped (st : State) (visit x : Nat) : Prop := st.stamps.getD x 0 = visit

instance (st : State) (visit x : Nat) : Decidable (st.stamped visit x) :=
  inferInstanceAs (Decidable (_ = _))

section Walk

variable (next : Nat → List Nat) (closed : Nat → Bool) (weight : Nat → Nat) (visit : Nat)

def see (st : State) (x : Nat) : State :=
  let st := { st with best := max st.best (weight x) }
  if st.stamped visit x then st
  else { st with stamps := st.stamps.set x visit, work := x :: st.work }

def loop : Nat → State → State
  | 0, st => st
  | fuel + 1, st =>
      match st.work with
      | [] => st
      | x :: work =>
          if closed x then loop fuel { st with work := work }
          else loop fuel ((next x).foldl (see weight visit) { st with work := work })

def walk (st : State) (start : Nat) : State :=
  if st.stamped visit start then st
  else loop next closed weight visit (st.stamps.length + 1)
    { st with stamps := st.stamps.set start visit, work := [start] }

/-- The nodes that are reached from the starts. -/
inductive Reach (starts : List Nat) : Nat → Prop
  | start {x : Nat} (h : x ∈ starts) : Reach starts x
  | step {x y : Nat} (h : Reach starts x) (hopen : closed x = false) (hy : y ∈ next x) : Reach starts y

/-- The weight of an edge that is reached. -/
def Edge (starts : List Nat) (x y : Nat) : Prop :=
  Reach next closed starts x ∧ closed x = false ∧ y ∈ next x

/-- **The invariant of the walk:** the stamped nodes are reached; behind those that are not waiting
everything has been seen; the greatest weight is that of an edge; other stamps are left alone. -/
structure Walking (before : State) (starts : List Nat) (st : State) : Prop where
  length : st.stamps.length = before.stamps.length
  others : ∀ x, st.stamps.getD x 0 = before.stamps.getD x 0 ∨ st.stamped visit x
  reached : ∀ x, st.stamped visit x → Reach next closed starts x
  waiting : ∀ x ∈ st.work, st.stamped visit x
  done : ∀ x, st.stamped visit x → x ∉ st.work → closed x = false →
    ∀ y ∈ next x, st.stamped visit y ∧ weight y ≤ st.best
  le : before.best ≤ st.best
  attained : st.best = before.best ∨ ∃ x y, Edge next closed starts x y ∧ st.best = weight y

variable {x : Nat}

theorem getD_set (stamps : List Nat) (hx : x < stamps.length) (y value : Nat) :
    (stamps.set x value).getD y 0 = if y = x then value else stamps.getD y 0 := by
  rw [getD_eq_getElem?_getD, getElem?_set, getD_eq_getElem?_getD]
  by_cases h : x = y
  · subst h
    rw [if_pos rfl, if_pos hx, if_pos rfl]
    rfl
  · rw [if_neg h, if_neg fun hc => h hc.symm]

/-- The nodes that the walk has still to push, and those that wait. -/
def left (st : State) : Nat := (st.stamps.length - st.stamps.count visit) + st.work.length

variable {st : State}

theorem push_left (hx : x < st.stamps.length) (hfresh : ¬ st.stamped visit x) (best : Nat) :
    left visit ⟨st.stamps.set x visit, x :: st.work, best⟩ = left visit st := by
  have hget : st.stamps[x] ≠ visit := by
    rwa [State.stamped, getD_eq_getElem _ _ hx] at hfresh
  have hcount : (st.stamps.set x visit).count visit = st.stamps.count visit + 1 := by
    rw [count_set hx]
    simp [hget]
  have hle : (st.stamps.set x visit).count visit ≤ (st.stamps.set x visit).length := count_le_length
  rw [length_set] at hle
  unfold left
  rw [length_set, hcount, length_cons]
  omega

/-- What has changed when nodes have been seen. -/
structure Seen (ys : List Nat) (st st' : State) : Prop where
  length : st'.stamps.length = st.stamps.length
  others : ∀ x, st'.stamps.getD x 0 = st.stamps.getD x 0 ∨ st'.stamped visit x
  stamped : ∀ x, st'.stamped visit x ↔ st.stamped visit x ∨ x ∈ ys
  work : ∀ x, x ∈ st'.work → x ∈ st.work ∨ x ∈ ys
  fresh : ∀ x, st'.stamped visit x → x ∉ st'.work → st.stamped visit x ∧ x ∉ st.work
  seen : ∀ y ∈ ys, weight y ≤ st'.best
  le : st.best ≤ st'.best
  attained : st'.best = st.best ∨ ∃ y ∈ ys, st'.best = weight y
  left : left visit st' = left visit st

theorem see_seen (hx : x < st.stamps.length) :
    Seen weight visit [x] st (see weight visit st x) := by
  have hbest : (see weight visit st x).best = max st.best (weight x) := by
    unfold see
    dsimp only
    split_ifs <;> rfl
  have hseen : ∀ y ∈ [x], weight y ≤ (see weight visit st x).best := by
    intro y hy
    rw [hbest, mem_singleton.mp hy]
    exact le_max_right _ _
  have hle : st.best ≤ (see weight visit st x).best := by
    rw [hbest]
    exact le_max_left _ _
  have hattained : (see weight visit st x).best = st.best ∨
      ∃ y ∈ [x], (see weight visit st x).best = weight y := by
    rw [hbest]
    rcases max_choice st.best (weight x) with h | h
    · exact .inl h
    · exact .inr ⟨x, mem_singleton_self x, h⟩
  by_cases hstamped : st.stamped visit x
  · have hsee : see weight visit st x = { st with best := max st.best (weight x) } := if_pos hstamped
    refine ⟨by rw [hsee], fun y => .inl (by rw [hsee]), fun y => ?_, fun y hy => .inl (by rwa [hsee] at hy),
      fun y hy hwork => ?_, hseen, hle, hattained, by rw [hsee]; rfl⟩
    · rw [hsee]
      exact ⟨.inl, fun h => h.elim id fun hy => (mem_singleton.mp hy).symm ▸ hstamped⟩
    · rw [hsee] at hy hwork
      exact ⟨hy, hwork⟩
  have hsee : see weight visit st x =
      ⟨st.stamps.set x visit, x :: st.work, max st.best (weight x)⟩ := if_neg hstamped
  have hget : ∀ y, (see weight visit st x).stamps.getD y 0 = if y = x then visit else st.stamps.getD y 0 :=
    fun y => by rw [hsee]; exact getD_set st.stamps hx y visit
  refine ⟨by rw [hsee]; exact length_set .., fun y => ?_, fun y => ?_, fun y hy => ?_,
    fun y hy hwork => ?_, hseen, hle, hattained, by rw [hsee]; exact push_left visit hx hstamped _⟩
  · rw [State.stamped, hget]
    split_ifs
    · exact .inr rfl
    · exact .inl rfl
  · rw [State.stamped, hget, mem_singleton]
    split_ifs with h
    · exact ⟨fun _ => .inr h, fun _ => rfl⟩
    · exact ⟨.inl, fun hc => hc.elim id fun he => absurd he h⟩
  · rw [hsee] at hy
    exact (mem_cons.mp hy).symm.imp id fun h => mem_singleton.mpr h
  · rw [hsee] at hwork
    have hne : y ≠ x := fun hc => hwork (mem_cons.mpr (.inl hc))
    rw [State.stamped, hget, if_neg hne] at hy
    exact ⟨hy, fun hc => hwork (mem_cons_of_mem x hc)⟩

theorem foldl_seen : ∀ (ys : List Nat) {st : State}, (∀ y ∈ ys, y < st.stamps.length) →
    Seen weight visit ys st (ys.foldl (see weight visit) st)
  | [], st, _ => ⟨rfl, fun _ => .inl rfl, fun _ => by simp, fun _ h => .inl h, fun _ h h' => ⟨h, h'⟩,
      forall_mem_nil _, le_refl _, .inl rfl, rfl⟩
  | y :: ys, st, h => by
    have h1 := see_seen weight visit (h y mem_cons_self)
    have h2 : Seen weight visit ys (see weight visit st y) (ys.foldl (see weight visit) (see weight visit st y)) :=
      foldl_seen ys
      fun z hz => by rw [h1.length]; exact h z (mem_cons_of_mem y hz)
    rw [foldl_cons]
    refine ⟨h2.length.trans h1.length, fun x => ?_, fun x => ?_, fun x hx => ?_, fun x hx hwork => ?_,
      fun z hz => ?_, h1.le.trans h2.le, ?_, h2.left.trans h1.left⟩
    · rcases h2.others x with hx | hx
      · rcases h1.others x with hx' | hx'
        · exact .inl (hx.trans hx')
        · exact .inr ((h2.stamped x).mpr (.inl hx'))
      · exact .inr hx
    · rw [h2.stamped, h1.stamped, mem_singleton, mem_cons, or_assoc]
    · rcases h2.work x hx with hx | hx
      · exact (h1.work x hx).imp id fun h => mem_cons.mpr (.inl (mem_singleton.mp h))
      · exact .inr (mem_cons_of_mem y hx)
    · exact h1.fresh x (h2.fresh x hx hwork).1 (h2.fresh x hx hwork).2
    · rcases mem_cons.mp hz with rfl | hz
      · exact (h1.seen z (mem_singleton_self z)).trans h2.le
      · exact h2.seen z hz
    · rcases h2.attained with hbest | ⟨z, hz, hbest⟩
      · rcases h1.attained with hbest' | ⟨z, hz, hbest'⟩
        · exact .inl (hbest.trans hbest')
        · exact .inr ⟨z, mem_cons.mpr (.inl (mem_singleton.mp hz)), hbest.trans hbest'⟩
      · exact .inr ⟨z, mem_cons_of_mem y hz, hbest⟩

variable {next closed weight visit} {before : State} {starts : List Nat}

theorem Walking.turn {st : State} (h : Walking next closed weight visit before starts st)
    (hinside : ∀ x, Reach next closed starts x → x < before.stamps.length) {x : Nat} {work : List Nat}
    (hwork : st.work = x :: work) (hopen : closed x = false) :
    Walking next closed weight visit before starts
        ((next x).foldl (see weight visit) { st with work := work }) ∧
      left visit ((next x).foldl (see weight visit) { st with work := work }) + 1 = left visit st := by
  have hx : st.stamped visit x := h.waiting x (by rw [hwork]; exact mem_cons_self)
  have hreach := h.reached x hx
  have hnext : ∀ y ∈ next x, y < st.stamps.length := fun y hy => by
    rw [h.length]
    exact hinside y (.step hreach hopen hy)
  have hseen : Seen weight visit (next x) { st with work := work } _ := foldl_seen weight visit (next x) hnext
  refine ⟨⟨hseen.length.trans h.length, fun y => ?_, fun y hy => ?_, fun y hy => ?_, fun y hy hout hc z hz => ?_,
    h.le.trans hseen.le, ?_⟩, ?_⟩
  · rcases hseen.others y with hy | hy
    · rw [hy]
      exact (h.others y).imp id fun hc => (hseen.stamped y).mpr (.inl hc)
    · exact .inr hy
  · rcases (hseen.stamped y).mp hy with hy | hy
    · exact h.reached y hy
    · exact .step hreach hopen hy
  · rcases hseen.work y hy with hy | hy
    · exact (hseen.stamped y).mpr (.inl (h.waiting y (by rw [hwork]; exact mem_cons_of_mem x hy)))
    · exact (hseen.stamped y).mpr (.inr hy)
  · obtain ⟨hy, hout⟩ := hseen.fresh y hy hout
    by_cases hyx : y = x
    · subst hyx
      exact ⟨(hseen.stamped z).mpr (.inr hz), hseen.seen z hz⟩
    · have hold := h.done y hy (by rw [hwork]; exact not_mem_cons_of_ne_of_not_mem hyx hout) hc z hz
      exact ⟨(hseen.stamped z).mpr (.inl hold.1), hold.2.trans hseen.le⟩
  · rcases hseen.attained with hbest | ⟨y, hy, hbest⟩
    · rw [hbest]
      exact h.attained
    · exact .inr ⟨x, y, ⟨hreach, hopen, hy⟩, hbest⟩
  · rw [hseen.left]
    unfold left
    rw [hwork, length_cons]
    rfl

theorem Walking.drop (h : Walking next closed weight visit before starts st) {work : List Nat}
    (hwork : st.work = x :: work) (hclosed : closed x = true) :
    Walking next closed weight visit before starts { st with work := work } := by
  refine ⟨h.length, h.others, h.reached, fun y hy => h.waiting y (by rw [hwork]; exact mem_cons_of_mem x hy),
    fun y hy hout hc => ?_, h.le, h.attained⟩
  have hne : y ≠ x := by
    rintro rfl
    rw [hclosed] at hc
    cases hc
  exact h.done y hy (by rw [hwork]; exact not_mem_cons_of_ne_of_not_mem hne hout) hc

/-- **The loop runs until no node waits,** and keeps the invariant. -/
theorem Walking.loop (hinside : ∀ x, Reach next closed starts x → x < before.stamps.length) :
    ∀ (fuel : Nat) {st : State}, Walking next closed weight visit before starts st → left visit st ≤ fuel →
      Walking next closed weight visit before starts (loop next closed weight visit fuel st) ∧
        (Worklist.loop next closed weight visit fuel st).work = [] := by
  intro fuel
  induction fuel with
  | zero =>
    intro st h hfuel
    refine ⟨h, length_eq_zero_iff.mp ?_⟩
    exact Nat.le_zero.mp ((Nat.le_add_left _ _).trans hfuel)
  | succ fuel ih =>
    intro st h hfuel
    unfold Worklist.loop
    cases hwork : st.work with
    | nil => exact ⟨h, hwork⟩
    | cons x work =>
      dsimp only
      cases hclosed : closed x with
      | true =>
        rw [if_pos rfl]
        refine ih (h.drop hwork hclosed) ?_
        have hleft : left visit { st with work := work } + 1 = left visit st := by
          unfold left
          rw [hwork, length_cons]
          rfl
        omega
      | false =>
        rw [if_neg Bool.false_ne_true]
        obtain ⟨hturn, hleft⟩ := h.turn hinside hwork hclosed
        exact ih hturn (by omega)

theorem Reach.mono {starts' : List Nat} (h : ∀ x ∈ starts, x ∈ starts')
    (hx : Reach next closed starts x) : Reach next closed starts' x := by
  induction hx with
  | start hmem => exact .start (h _ hmem)
  | step _ hopen hy ih => exact .step ih hopen hy

theorem Walking.walk (h : Walking next closed weight visit before starts st) (hidle : st.work = [])
    {start : Nat}
    (hinside : ∀ x, Reach next closed (starts ++ [start]) x → x < before.stamps.length) :
    Walking next closed weight visit before (starts ++ [start]) (walk next closed weight visit st start) ∧
      (Worklist.walk next closed weight visit st start).work = [] ∧
      (∀ x, st.stamped visit x → (Worklist.walk next closed weight visit st start).stamped visit x) ∧
      (Worklist.walk next closed weight visit st start).stamped visit start := by
  have hmono : ∀ {x : Nat}, Reach next closed starts x → Reach next closed (starts ++ [start]) x :=
    Reach.mono fun _ hx => mem_append_left _ hx
  have hmem : start ∈ starts ++ [start] := mem_append_right _ (mem_singleton_self start)
  have hattained : st.best = before.best ∨
      ∃ x y, Edge next closed (starts ++ [start]) x y ∧ st.best = weight y :=
    h.attained.imp id fun ⟨x, y, ⟨hx, hopen, hy⟩, hbest⟩ => ⟨x, y, ⟨hmono hx, hopen, hy⟩, hbest⟩
  unfold Worklist.walk
  split_ifs with hstamped
  · exact ⟨⟨h.length, h.others, fun x hx => hmono (h.reached x hx), h.waiting, h.done, h.le, hattained⟩, hidle,
      fun _ hx => hx, hstamped⟩
  have hstart : start < st.stamps.length := by
    rw [h.length]
    exact hinside start (.start hmem)
  generalize hst' : (⟨st.stamps.set start visit, [start], st.best⟩ : State) = st'
  have hget : ∀ x, st'.stamps.getD x 0 = if x = start then visit else st.stamps.getD x 0 := fun x => by
    rw [← hst']
    exact getD_set st.stamps hstart x visit
  have hkeep : ∀ x, st.stamped visit x → st'.stamped visit x := fun x hx => by
    rw [State.stamped, hget]
    split_ifs
    · rfl
    · exact hx
  have hfirst : st'.stamped visit start := by
    rw [State.stamped, hget, if_pos rfl]
  have hold : ∀ {x : Nat}, st'.stamped visit x → x ≠ start → st.stamped visit x := fun hx hne => by
    rwa [State.stamped, hget, if_neg hne] at hx
  have hbegin : Walking next closed weight visit st' (starts ++ [start]) st' := by
    refine ⟨rfl, fun _ => .inl rfl, fun x hx => ?_, fun x hx => ?_, fun x hx hout hc y hy => ?_, le_rfl, .inl rfl⟩
    · by_cases hne : x = start
      · rw [hne]
        exact .start hmem
      · exact hmono (h.reached x (hold hx hne))
    · rw [← hst'] at hx
      exact mem_singleton.mp hx ▸ hfirst
    rw [← hst'] at hout
    have hx' := hold hx fun hc => hout (mem_singleton.mpr hc)
    have hdone := h.done x hx' (by rw [hidle]; exact not_mem_nil) hc y hy
    exact ⟨hkeep y hdone.1, by rw [← hst']; exact hdone.2⟩
  have hlength : st'.stamps.length = st.stamps.length := by
    rw [← hst']
    exact length_set ..
  have hpush : left visit st' ≤ st.stamps.length + 1 := by
    unfold left
    rw [← hst', length_set, length_singleton]
    omega
  obtain ⟨hwalking, hend⟩ := hbegin.loop
    (fun x hx => by rw [hlength, h.length]; exact hinside x hx) (st.stamps.length + 1) hpush
  have hgrow : ∀ x, st'.stamped visit x →
      (Worklist.loop next closed weight visit (st.stamps.length + 1) st').stamped visit x := fun x hx =>
    (hwalking.others x).elim (fun he => he.trans hx) id
  refine ⟨⟨?_, fun x => ?_, hwalking.reached, hwalking.waiting, hwalking.done, ?_, ?_⟩, hend,
    fun x hx => hgrow x (hkeep x hx), hgrow start hfirst⟩
  · rw [hwalking.length, hlength, h.length]
  · by_cases hne : x = start
    · exact .inr (hne ▸ hgrow start hfirst)
    rcases hwalking.others x with hx | hx
    · rw [hx, hget, if_neg hne]
      rcases h.others x with hx' | hx'
      · exact .inl hx'
      · exact .inr (hgrow x (hkeep x hx'))
    · exact .inr hx
  · exact h.le.trans ((by rw [← hst'] : st.best ≤ st'.best).trans hwalking.le)
  · rcases hwalking.attained with hbest | hbest
    · rw [hbest, ← hst']
      exact hattained
    · exact .inr hbest

theorem walks (hidle : before.work = []) (hfresh : ∀ x, ¬ before.stamped visit x) : ∀ (starts : List Nat),
    (∀ x, Reach next closed starts x → x < before.stamps.length) →
    Walking next closed weight visit before starts (starts.foldl (walk next closed weight visit) before) ∧
      (starts.foldl (walk next closed weight visit) before).work = [] ∧
      ∀ x ∈ starts, (starts.foldl (walk next closed weight visit) before).stamped visit x := by
  intro starts
  induction starts using reverseRecOn with
  | nil =>
    exact fun _ => ⟨⟨rfl, fun _ => .inl rfl, fun x hx => absurd hx (hfresh x),
      fun x hx => absurd (hidle ▸ hx) not_mem_nil, fun x hx => absurd hx (hfresh x), le_rfl, .inl rfl⟩,
      hidle, forall_mem_nil _⟩
  | append_singleton starts start ih =>
    intro hinside
    obtain ⟨hwalking, hend, hstamped⟩ := ih fun x hx =>
      hinside x (hx.mono fun _ hmem => mem_append_left _ hmem)
    rw [foldl_append, foldl_cons, foldl_nil]
    obtain ⟨hnew, hidle', hgrow, hstart⟩ := hwalking.walk hend hinside
    refine ⟨hnew, hidle', fun x hx => ?_⟩
    rcases mem_append.mp hx with hx | hx
    · exact hgrow x (hstamped x hx)
    · exact mem_singleton.mp hx ▸ hstart

/-- **The walks keep the greatest weight** of the edges that are reached, and touch no stamp but
their own. -/
theorem walks_spec (hidle : before.work = []) (hfresh : ∀ x, ¬ before.stamped visit x)
    {starts : List Nat} (hinside : ∀ x, Reach next closed starts x → x < before.stamps.length)
    (hst : starts.foldl (walk next closed weight visit) before = st) :
    st.work = [] ∧ st.stamps.length = before.stamps.length ∧
      (∀ x, st.stamps.getD x 0 = before.stamps.getD x 0 ∨ st.stamps.getD x 0 = visit) ∧
      before.best ≤ st.best ∧ (∀ x y, Edge next closed starts x y → weight y ≤ st.best) ∧
      (st.best = before.best ∨ ∃ x y, Edge next closed starts x y ∧ st.best = weight y) := by
  have hwalks : Walking next closed weight visit before starts (starts.foldl (walk next closed weight visit) before) ∧
      (starts.foldl (walk next closed weight visit) before).work = [] ∧ _ := walks hidle hfresh starts hinside
  obtain ⟨h, hend, hstarts⟩ := hwalks
  rw [hst] at h hend hstarts
  have hreach : ∀ x, Reach next closed starts x → st.stamped visit x := by
    intro x hx
    induction hx with
    | start hmem => exact hstarts _ hmem
    | @step x y _ hopen hy ih => exact (h.done x ih (by rw [hend]; exact not_mem_nil) hopen y hy).1
  refine ⟨hend, h.length, h.others, h.le, fun x y ⟨hx, hopen, hy⟩ => ?_, h.attained⟩
  exact (h.done x (hreach x hx) (by rw [hend]; exact not_mem_nil) hopen y hy).2

end Walk

end Worklist
end Dyn.Lib
