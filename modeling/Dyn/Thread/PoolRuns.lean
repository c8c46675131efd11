import Dyn.Thread.Pool

/-!
# Runs of the thread pool

`Inv` holds in every state of every run: the queue and the tasks taken from it are the tasks
accepted, in this order; the tasks taken are those finished and those that workers execute; and
a worker only leaves when the pool is stopping and its queue is empty, so that it stays empty.
-/

namespace Dyn.Pool

open Lib List Function

/-- The thread is between locking and unlocking. -/
def Call.holds : Call → Prop
  | .submitTest _ => True
  | .submitUnlock _ => True
  | .waitTest => True
  | .waitUnlock => True
  | .stopSet => True
  | .stopUnlock => True
  | _ => False

def Worker.holds : Worker → Prop
  | .test => True
  | .unlock _ => True
  | .run _ call => call.holds
  | .done => True
  | .exit => True
  | _ => False

/-- The tasks that a worker has taken and not finished. -/
def Worker.jobs : Worker → Multiset Job
  | .unlock job => {job}
  | .run job _ => {job}
  | _ => 0

section Invariant

variable {n : Nat} {C : Type}

def State.holds (s : State n C) : Agent n C → Prop
  | .worker i => (s.workers i).holds
  | .client c => (s.clients c).holds

def State.AllExited (s : State n C) : Prop := ∀ i, s.workers i = .exited

/-- What a thread can rely on where it is in a call. -/
def State.Relies (s : State n C) : Call → Prop
  | .submitUnlock (some job) => job ∈ s.pool.accepted
  | .waitUnlock => True
  | .stopUnlock => s.pool.stopping = true
  | .stopCount => s.pool.stopping = true
  | .stopJoin i bound => (bound = n ∨ s.AllExited) ∧ ∀ j, j < i → s.exited j
  | .stopClear => s.AllExited
  | _ => True

/-- The queue and the tasks that have gone through it. -/
structure Queued (capacity : Nat) (p : Pool n C) : Prop where
  size : p.tasks.length = capacity
  count_le : p.count ≤ capacity
  head_lt : p.head < capacity
  accepted : p.accepted = p.taken ++ p.queue
  tickets : p.accepted.map Job.ticket = List.range p.accepted.length

structure Inv (capacity : Nat) (s : State n C) : Prop where
  exclusive : Exclusive s.holds s.pool.lock
  queued : Queued capacity s.pool
  running : s.pool.running = ∑ i, (s.workers i).busy
  jobs : (s.pool.taken : Multiset Job) = s.pool.finished + ∑ i, (s.workers i).jobs
  leaving : ∀ i, s.workers i = .exit ∨ s.workers i = .exited →
    s.pool.stopping = true ∧ s.pool.count = 0
  relies : ∀ a, s.Relies (s.call a)
  started : s.pool.started = n ∨ s.AllExited
  stopped : s.pool.stopped = true → s.AllExited

variable {capacity : Nat} {p : Pool n C}

theorem slot_ne {head i j : Nat} (hi : i < j) (hj : j < capacity) :
    (head + i) % capacity ≠ (head + j) % capacity := by
  intro h
  have hmod : (head + i) ≡ (head + j) [MOD capacity] := h
  have hdvd := (Nat.modEq_iff_dvd' (by omega)).mp hmod
  rw [show head + j - (head + i) = j - i by omega] at hdvd
  exact absurd (Nat.le_of_dvd (by omega) hdvd) (by omega)

theorem Queued.accept (h : Queued capacity p) (hcount : p.count ≠ capacity) (task : Task) :
    Queued capacity { p with
      tasks := p.tasks.set ((p.head + p.count) % p.tasks.length) ⟨task, p.accepted.length⟩
      count := p.count + 1
      accepted := p.accepted ++ [⟨task, p.accepted.length⟩] } := by
  have hlt : p.count < capacity := lt_of_le_of_ne h.count_le hcount
  have hslot : (p.head + p.count) % capacity < capacity := Nat.mod_lt _ (by omega)
  have hsize := h.size
  refine ⟨by rw [length_set, hsize], hlt, h.head_lt, ?_, ?_⟩
  · dsimp only
    rw [h.accepted, append_assoc]
    congr 1
    unfold Pool.queue
    rw [range_succ, map_append, length_set, hsize]
    congr 1
    · refine map_congr_left fun k hk => ?_
      have hkc := mem_range.mp hk
      rw [getD_eq_getElem?_getD, getD_eq_getElem?_getD, getElem?_set_ne (slot_ne hkc hlt).symm]
    · rw [map_singleton, getD_eq_getElem?_getD, getElem?_set_self (by rw [hsize]; exact hslot),
        Option.getD_some]
  · rw [map_append, h.tickets, length_append, length_singleton, range_succ]
    rfl

theorem Queued.take (h : Queued capacity p) (hcount : p.count ≠ 0) {job : Job}
    (hjob : p.tasks[p.head]? = some job) : Queued capacity { p with
      head := (p.head + 1) % p.tasks.length
      count := p.count - 1
      running := p.running + 1
      taken := p.taken ++ [job] } := by
  have hle := h.count_le
  have hhead := h.head_lt
  have hsize := h.size
  refine ⟨hsize, by dsimp only; omega, ?_, ?_, h.tickets⟩
  · rw [hsize]
    exact Nat.mod_lt _ (by omega)
  rw [h.accepted, append_assoc]
  congr 1
  unfold Pool.queue
  obtain ⟨count, hcount_eq⟩ : ∃ count, p.count = count + 1 := ⟨p.count - 1, by omega⟩
  rw [hcount_eq, range_succ_eq_map, map_cons, hsize, add_zero, Nat.mod_eq_of_lt hhead,
    getD_eq_getElem?_getD, hjob, Option.getD_some, Nat.add_sub_cancel, map_map]
  refine congrArg (job :: ·) (map_congr_left fun k _ => ?_)
  simp only [Function.comp, Nat.mod_add_mod]
  congr 2
  omega

theorem queue_length : p.queue.length = p.count := by
  rw [Pool.queue, length_map, length_range]

variable {exited : Nat → Prop} {a : Agent n C} {c c' : Call} {p' : Pool n C}

theorem call_lock (h : CallStep exited a c p c' p') : LockStep a p.lock p'.lock c.holds c'.holds := by
  cases h with
  | submitLock free | waitLock free | waitWake free | stopLock free => exact .inl ⟨free, rfl⟩
  | submitReturn | waitSleep _ | waitReturn | stopUnlock => exact .inr (.inl ⟨trivial, rfl, id⟩)
  | submit _ _ | submitRefuse _ | submitAccept _ | wait | waitEnd _ | stop | stopSet | stopCount
  | stopJoin _ _ | stopJoined _ | stopReturn => exact .inr (.inr ⟨rfl, id⟩)

/-- What a call leaves alone: it takes no task, and accepts none when the pool is stopping. -/
structure Frame (p p' : Pool n C) : Prop where
  running : p'.running = p.running
  taken : p'.taken = p.taken
  finished : p'.finished = p.finished
  accepted : ∀ job ∈ p.accepted, job ∈ p'.accepted
  stopping : p.stopping = true → p'.stopping = true ∧ p'.count = p.count

theorem call_frame (h : CallStep exited a c p c' p') : Frame p p' := by
  cases h with
  | submitAccept h =>
    refine ⟨rfl, rfl, rfl, fun job hjob => mem_append_left _ hjob, fun hc => ?_⟩
    exact absurd (.inl hc) h
  | stopSet => exact ⟨rfl, rfl, rfl, fun _ h => h, fun _ => ⟨rfl, rfl⟩⟩
  | _ => exact ⟨rfl, rfl, rfl, fun _ h => h, fun h => ⟨h, rfl⟩⟩

theorem Queued.call (hq : Queued capacity p) (h : CallStep exited a c p c' p') : Queued capacity p' := by
  cases h with
  | submitAccept h =>
    rw [not_or, hq.size] at h
    exact hq.accept h.2 _
  | _ => exact ⟨hq.size, hq.count_le, hq.head_lt, hq.accepted, hq.tickets⟩

variable {s s' : State n C}

theorem State.Relies.mono (haccepted : ∀ job ∈ s.pool.accepted, job ∈ s'.pool.accepted)
    (hstopping : s.pool.stopping = true → s'.pool.stopping = true)
    (hexited : ∀ i, s.workers i = .exited → s'.workers i = .exited) {c : Call} (h : s.Relies c) :
    s'.Relies c := by
  cases c with
  | submitUnlock accepted =>
    cases accepted with
    | none => trivial
    | some job => exact haccepted job h
  | stopUnlock | stopCount => exact hstopping h
  | stopJoin i bound =>
    exact ⟨h.1.imp id fun hall i => hexited i (hall i), fun j hj hlt => hexited _ (h.2 j hj hlt)⟩
  | stopClear => exact fun i => hexited i (h i)
  | _ => trivial

/-- **A step of a call** establishes what is relied on behind it. -/
theorem State.Relies.call (h : s.Relies c) (hcall : CallStep s.exited a c s.pool c' s'.pool)
    (hstarted : s.pool.started = n ∨ s.AllExited)
    (hexited : ∀ i, s.workers i = .exited → s'.workers i = .exited) : s'.Relies c' := by
  generalize hp : s.pool = p at *
  generalize hp' : s'.pool = p' at *
  cases hcall with
  | submitAccept _ =>
    change _ ∈ s'.pool.accepted
    rw [hp']
    exact mem_append_right _ (mem_singleton.mpr rfl)
  | stopSet =>
    change s'.pool.stopping = true
    rw [hp']
  | stopUnlock =>
    change s'.pool.stopping = true
    change s.pool.stopping = true at h
    rw [hp']
    rwa [hp] at h
  | stopCount =>
    exact ⟨hstarted.imp id fun hall i => hexited i (hall i), fun j hj => absurd hj (Nat.not_lt_zero j)⟩
  | stopJoin hlt joined =>
    refine ⟨h.1.imp id fun hall i => hexited i (hall i), fun j hj hjn => ?_⟩
    rcases Nat.lt_succ_iff_lt_or_eq.mp hj with hji | rfl
    · exact hexited _ (h.2 j hji hjn)
    · exact hexited _ (joined hjn)
  | stopJoined hnot =>
    intro k
    rcases h.1 with hbound | hall
    · exact hexited _ (h.2 k.val (by omega) k.isLt)
    · exact hexited _ (hall k)
  | submit _ _ | submitLock _ | submitRefuse _ | submitReturn | wait | waitLock _ | waitSleep _
  | waitWake _ | waitEnd _ | waitReturn | stop | stopLock _ | stopReturn => trivial

/-- Only a `stop` that has joined all workers clears `started` and returns ok. -/
theorem call_started (h : s.Relies c) (hcall : CallStep s.exited a c s.pool c' p')
    (hstarted : s.pool.started = n ∨ s.AllExited) (hstopped : s.pool.stopped = true → s.AllExited) :
    (p'.started = n ∨ s.AllExited) ∧ (p'.stopped = true → s.AllExited) := by
  generalize hp : s.pool = p at *
  cases hcall with
  | stopReturn => exact ⟨.inr h, fun _ => h⟩
  | _ => exact ⟨hstarted, hstopped⟩

variable {i : Fin n} {w w' : Worker}

theorem worker_lock (h : WorkerStep exited i w p w' p') :
    LockStep (.worker i) p.lock p'.lock w.holds w'.holds := by
  cases h with
  | lock free | wake free | relock free => exact .inl ⟨free, rfl⟩
  | sleep _ | unlock | exit => exact .inr (.inl ⟨trivial, rfl, id⟩)
  | call h => exact call_lock h
  | leave _ _ | take _ _ => exact .inr (.inr ⟨rfl, id⟩)
  | finish => exact .inr (.inr ⟨rfl, False.elim⟩)
  | done => exact .inr (.inr ⟨rfl, id⟩)

theorem worker_queued (hq : Queued capacity p) (h : WorkerStep exited i w p w' p') :
    Queued capacity p' := by
  cases h with
  | call h => exact hq.call h
  | take more job_eq => exact hq.take more job_eq
  | _ => exact ⟨hq.size, hq.count_le, hq.head_lt, hq.accepted, hq.tickets⟩

theorem worker_busy (hbusy : w.busy ≤ p.running) (h : WorkerStep exited i w p w' p') :
    p'.running + w.busy = p.running + w'.busy := by
  cases h with
  | call h => rw [(call_frame h).running]; rfl
  | done => exact Nat.sub_add_cancel hbusy
  | _ => rfl

/-- A task that is taken is executed by the worker, until it has finished. -/
theorem worker_jobs (h : WorkerStep exited i w p w' p') :
    (p'.taken : Multiset Job) + p.finished + w.jobs = p.taken + p'.finished + w'.jobs := by
  cases h with
  | call h => rw [(call_frame h).taken, (call_frame h).finished]; rfl
  | take _ _ =>
    rename_i job _ _
    change ((p.taken ++ [job] : List Job) : Multiset Job) + p.finished + 0 =
      p.taken + p.finished + {job}
    rw [← Multiset.coe_add, add_zero, Multiset.coe_singleton]
    abel
  | finish =>
    rename_i job
    change (p.taken : Multiset Job) + p.finished + {job} =
      p.taken + ((p.finished ++ [job] : List Job) : Multiset Job) + 0
    rw [← Multiset.coe_add, add_zero, Multiset.coe_singleton, add_assoc]
  | _ => rfl

/-- What every step keeps: the tasks accepted stay so, and so does a pool that is stopping and
empty. -/
structure Keeps (p p' : Pool n C) : Prop where
  accepted : ∀ job ∈ p.accepted, job ∈ p'.accepted
  stopping : p.stopping = true → p'.stopping = true
  drained : p.stopping = true → p.count = 0 → p'.count = 0

theorem Frame.keeps (h : Frame p p') : Keeps p p' :=
  ⟨h.accepted, fun hs => (h.stopping hs).1, fun hs hc => (h.stopping hs).2.trans hc⟩

theorem worker_keeps (h : WorkerStep exited i w p w' p') : Keeps p p' := by
  cases h with
  | call h => exact (call_frame h).keeps
  | take more _ => exact ⟨fun _ h => h, id, fun _ hc => absurd hc more⟩
  | _ => exact ⟨fun _ h => h, id, fun _ hc => hc⟩

theorem worker_leaves (hleft : w = .exit ∨ w = .exited → p.stopping = true ∧ p.count = 0)
    (h : WorkerStep exited i w p w' p') (hw' : w' = .exit ∨ w' = .exited) :
    p'.stopping = true ∧ p'.count = 0 := by
  cases h with
  | leave hnot empty =>
    cases hstop : p.stopping
    · exact absurd ⟨empty, hstop⟩ hnot
    · exact ⟨rfl, empty⟩
  | exit => exact hleft (.inl rfl)
  | _ => rcases hw' with hc | hc <;> cases hc

/-- A worker that runs a task has just unlocked the pool, or the task makes a call. -/
theorem worker_call {job : Job} (h : WorkerStep exited i w p (.run job c') p') :
    c' = .none ∨ ∃ c, w = .run job c ∧ CallStep exited (.worker i) c p c' p' := by
  cases h with
  | unlock => exact .inl rfl
  | call h => exact .inr ⟨_, rfl, h⟩

theorem worker_ne_exited (h : WorkerStep exited i w p w' p') : w ≠ .exited := by
  cases h <;> exact nofun

theorem Started.inv (hcapacity : 0 < capacity) (h : Started capacity s) : Inv capacity s := by
  obtain ⟨hpool, hworkers, hclients⟩ := h
  have hcall : ∀ a, s.call a = .none := fun a => by
    cases a with
    | worker i => rw [State.call, hworkers i]
    | client c => exact hclients c
  constructor
  case exclusive =>
    intro a ha
    cases a with
    | worker i => rw [State.holds, hworkers i] at ha; exact ha.elim
    | client c => rw [State.holds, hclients c] at ha; exact ha.elim
  case queued =>
    rw [hpool]
    exact ⟨length_replicate, Nat.zero_le _, hcapacity, rfl, rfl⟩
  case running => simp [hpool, hworkers, Worker.busy]
  case jobs => simp [hpool, hworkers, Worker.jobs]
  case leaving =>
    intro i hi
    rw [hworkers i] at hi
    rcases hi with hc | hc <;> cases hc
  case relies =>
    intro a
    rw [hcall a]
    trivial
  case started =>
    rw [hpool]
    exact .inl rfl
  case stopped =>
    rw [hpool]
    intro hc
    cases hc

variable [DecidableEq C]

/-- **What a step can do**: a worker or a client steps, and the other threads stay where they are. -/
theorem step_cases (h : Step s s') :
    (∃ i, WorkerStep s.exited i (s.workers i) s.pool (s'.workers i) s'.pool ∧
      (∀ j, j ≠ i → s'.workers j = s.workers j) ∧ s'.clients = s.clients) ∨
    ∃ c, CallStep s.exited (.client c) (s.clients c) s.pool (s'.clients c) s'.pool ∧
      (∀ d, d ≠ c → s'.clients d = s.clients d) ∧ s'.workers = s.workers := by
  cases h with
  | worker i h =>
    refine .inl ⟨i, ?_, fun j hj => update_of_ne hj _ _, rfl⟩
    dsimp only
    rwa [update_self]
  | client c h =>
    refine .inr ⟨c, ?_, fun d hd => update_of_ne hd _ _, rfl⟩
    dsimp only
    rwa [update_self]

theorem step_exited (h : Step s s') (i : Fin n) (hi : s.workers i = .exited) :
    s'.workers i = .exited := by
  obtain ⟨j, hw, hframe, -⟩ | ⟨c, -, -, hworkers⟩ := step_cases h
  · have hne : i ≠ j := fun hc => worker_ne_exited hw (hc ▸ hi)
    exact (hframe i hne).trans hi
  · rwa [hworkers]

theorem step_keeps (h : Step s s') : Keeps s.pool s'.pool := by
  obtain ⟨i, hw, -⟩ | ⟨c, hc, -⟩ := step_cases h
  · exact worker_keeps hw
  · exact (call_frame hc).keeps

theorem Inv.exclusive_step (h : Inv capacity s) (hs : Step s s') : Exclusive s'.holds s'.pool.lock := by
  obtain ⟨i, hw, hframe, hclients⟩ | ⟨c, hc, hframe, hworkers⟩ := step_cases hs
  · refine h.exclusive.step (worker_lock hw) fun b hb => ?_
    cases b with
    | client c =>
      rw [State.holds, State.holds, hclients]
      exact id
    | worker j =>
      rw [State.holds, State.holds, hframe j fun hc => hb (congrArg Agent.worker hc)]
      exact id
  refine h.exclusive.step (call_lock hc) fun b hb => ?_
  cases b with
  | worker i =>
    rw [State.holds, State.holds, hworkers]
    exact id
  | client d =>
    rw [State.holds, State.holds, hframe d fun hc => hb (congrArg Agent.client hc)]
    exact id

theorem Inv.queued_step (h : Inv capacity s) (hs : Step s s') : Queued capacity s'.pool := by
  obtain ⟨i, hw, -⟩ | ⟨c, hc, -⟩ := step_cases hs
  · exact worker_queued h.queued hw
  · exact h.queued.call hc

theorem Inv.running_step (h : Inv capacity s) (hs : Step s s') :
    s'.pool.running = ∑ i, (s'.workers i).busy := by
  obtain ⟨i, hw, hframe, -⟩ | ⟨c, hc, -, hworkers⟩ := step_cases hs
  · have hle : (s.workers i).busy ≤ s.pool.running := by
      rw [h.running]
      exact Finset.single_le_sum (f := fun j => (s.workers j).busy) (fun _ _ => Nat.zero_le _)
        (Finset.mem_univ i)
    have hbusy := worker_busy hle hw
    have hsum := sum_step Worker.busy i hframe
    rw [← h.running] at hsum
    omega
  · rw [hworkers, (call_frame hc).running]
    exact h.running

theorem Inv.jobs_step (h : Inv capacity s) (hs : Step s s') :
    (s'.pool.taken : Multiset Job) = s'.pool.finished + ∑ i, (s'.workers i).jobs := by
  obtain ⟨i, hw, hframe, -⟩ | ⟨c, hc, -, hworkers⟩ := step_cases hs
  · have hjobs := worker_jobs hw
    have hsum := sum_step Worker.jobs i hframe
    refine add_right_cancel (b := (s.pool.finished : Multiset Job) + (s.workers i).jobs) ?_
    calc (s'.pool.taken : Multiset Job) + (s.pool.finished + (s.workers i).jobs)
        = s.pool.taken + s'.pool.finished + (s'.workers i).jobs := by rw [← hjobs, add_assoc]
      _ = s.pool.finished + s'.pool.finished + (∑ j, (s.workers j).jobs + (s'.workers i).jobs) := by
          rw [h.jobs]
          abel
      _ = s'.pool.finished + ∑ j, (s'.workers j).jobs + (s.pool.finished + (s.workers i).jobs) := by
          rw [← hsum]
          abel
  · rw [hworkers, (call_frame hc).taken, (call_frame hc).finished]
    exact h.jobs

theorem Inv.leaving_step (h : Inv capacity s) (hs : Step s s') (i : Fin n)
    (hi : s'.workers i = .exit ∨ s'.workers i = .exited) :
    s'.pool.stopping = true ∧ s'.pool.count = 0 := by
  have hkeeps := step_keeps hs
  have hleft : s.workers i = .exit ∨ s.workers i = .exited →
      s'.pool.stopping = true ∧ s'.pool.count = 0 := fun hi => by
    obtain ⟨hstop, hcount⟩ := h.leaving i hi
    exact ⟨hkeeps.stopping hstop, hkeeps.drained hstop hcount⟩
  obtain ⟨j, hw, hframe, -⟩ | ⟨c, -, -, hworkers⟩ := step_cases hs
  · by_cases hij : i = j
    · subst hij
      exact worker_leaves (h.leaving i) hw hi
    · rw [hframe i hij] at hi
      exact hleft hi
  · rw [hworkers] at hi
    exact hleft hi

theorem State.AllExited.step (h : s.AllExited) (hs : Step s s') : s'.AllExited :=
  fun i => step_exited hs i (h i)

theorem Inv.relies_step (h : Inv capacity s) (hs : Step s s') (a : Agent n C) :
    s'.Relies (s'.call a) := by
  have hkeeps := step_keeps hs
  have hexited := step_exited hs
  have hframe' : s'.Relies (s.call a) := (h.relies a).mono hkeeps.accepted hkeeps.stopping hexited
  obtain ⟨i, hw, hframe, hclients⟩ | ⟨c, hc, hframe, hworkers⟩ := step_cases hs
  · cases a with
    | client d =>
      rw [State.call, hclients]
      exact hframe'
    | worker j =>
      by_cases hji : j = i
      · subst hji
        have hrelies := h.relies (.worker j)
        rw [State.call] at hrelies ⊢
        generalize s.workers j = w at hw hrelies
        generalize s'.workers j = w' at hw ⊢
        cases w' with
        | run job c' =>
          obtain rfl | ⟨c, rfl, hc⟩ := worker_call hw
          · trivial
          · exact hrelies.call hc h.started hexited
        | _ => trivial
      · rw [State.call, hframe j hji]
        exact hframe'
  cases a with
  | worker i =>
    rw [State.call, hworkers]
    exact hframe'
  | client d =>
    by_cases hdc : d = c
    · subst hdc
      exact (h.relies (.client d)).call hc h.started hexited
    · rw [State.call, hframe d hdc]
      exact hframe'

theorem Inv.started_step (h : Inv capacity s) (hs : Step s s') :
    (s'.pool.started = n ∨ s'.AllExited) ∧ (s'.pool.stopped = true → s'.AllExited) := by
  suffices hpool : (s'.pool.started = n ∨ s.AllExited) ∧ (s'.pool.stopped = true → s.AllExited) from
    ⟨hpool.1.imp id (State.AllExited.step · hs), fun hstop => (hpool.2 hstop).step hs⟩
  obtain ⟨i, hw, -⟩ | ⟨c, hc, -⟩ := step_cases hs
  · have hrelies := h.relies (.worker i)
    rw [State.call] at hrelies
    generalize s.workers i = w at hw hrelies
    generalize s'.workers i = w' at hw
    generalize hp : s'.pool = p' at *
    cases hw with
    | call hc => exact call_started hrelies hc h.started h.stopped
    | _ => exact ⟨h.started, h.stopped⟩
  · exact call_started (h.relies (.client c)) hc h.started h.stopped

theorem Inv.step (h : Inv capacity s) (hs : Step s s') : Inv capacity s' where
  exclusive := h.exclusive_step hs
  queued := h.queued_step hs
  running := h.running_step hs
  jobs := h.jobs_step hs
  leaving := h.leaving_step hs
  relies := h.relies_step hs
  started := (h.started_step hs).1
  stopped := (h.started_step hs).2

variable {past : List (State n C)}

theorem run_inv (hcapacity : 0 < capacity) (h : Run (threads n C capacity) s past) :
    Inv capacity s :=
  h.invariant (fun _ => Started.inv hcapacity) fun _ _ => Inv.step

omit [DecidableEq C] in
/-- With an empty queue and no busy worker, all tasks have finished. -/
theorem Inv.allFinished (h : Inv capacity s) (hcount : s.pool.count = 0)
    (hidle : ∀ i, (s.workers i).jobs = 0) : s.pool.AllFinished := by
  have hqueue : s.pool.queue = [] := eq_nil_of_length_eq_zero (queue_length.trans hcount)
  have haccepted := h.queued.accepted
  rw [hqueue, append_nil] at haccepted
  have hjobs := h.jobs
  rw [Finset.sum_eq_zero fun i _ => hidle i, add_zero] at hjobs
  rw [Pool.AllFinished, haccepted]
  exact Multiset.coe_eq_coe.mp hjobs

theorem jobs_of_not_busy (h : w.busy = 0) : w.jobs = 0 := by
  cases w with
  | unlock job | run job call => cases h
  | _ => rfl

omit [DecidableEq C] in
theorem Inv.allFinished_of_idle (h : Inv capacity s) (hcount : s.pool.count = 0)
    (hrunning : s.pool.running = 0) : s.pool.AllFinished := by
  refine h.allFinished hcount fun i => jobs_of_not_busy ?_
  have hsum := h.running
  rw [hrunning] at hsum
  exact Finset.sum_eq_zero_iff.mp hsum.symm i (Finset.mem_univ i)

omit [DecidableEq C] in
theorem Inv.allFinished_of_exited (h : Inv capacity s) (hn : 0 < n) (hexited : s.AllExited) :
    s.pool.AllFinished := by
  refine h.allFinished (h.leaving ⟨0, hn⟩ (.inr (hexited _))).2 fun i => ?_
  rw [hexited i]
  rfl

omit [DecidableEq C] in
theorem Inv.nodup (h : Inv capacity s) : s.pool.accepted.Nodup := by
  refine List.Nodup.of_map Job.ticket ?_
  rw [h.queued.tickets]
  exact nodup_range

/-- The thread is in a call of `wait`. -/
def Call.waiting : Call → Prop
  | .waitLock => True
  | .waitTest => True
  | .waitSleep => True
  | .waitUnlock => True
  | _ => False

omit [DecidableEq C] in
theorem call_waitUnlock (h : CallStep exited a c p .waitUnlock p') :
    c = .waitTest ∧ p.count = 0 ∧ p.running = 0 := by
  cases h with
  | waitEnd h =>
    rw [not_or, not_not, not_not] at h
    exact ⟨rfl, h⟩

/-- A thread that is about to return from `wait` already was, or has just found the pool idle. -/
theorem step_waitUnlock (h : Step s s') {a : Agent n C} (ha : s'.call a = .waitUnlock) :
    s.call a = .waitUnlock ∨ s.call a = .waitTest ∧ s.pool.count = 0 ∧ s.pool.running = 0 := by
  obtain ⟨i, hw, hframe, hclients⟩ | ⟨c, hc, hframe, hworkers⟩ := step_cases h
  · cases a with
    | client d =>
      rw [State.call, hclients] at ha
      exact .inl ha
    | worker j =>
      by_cases hji : j = i
      · subst hji
        rw [State.call] at ha ⊢
        generalize s.workers j = w at hw
        generalize s'.workers j = w' at hw ha
        cases w' with
        | run job c' =>
          cases ha
          obtain hc | ⟨c, rfl, hc⟩ := worker_call hw
          · cases hc
          · exact .inr (call_waitUnlock hc)
        | _ => cases ha
      · rw [State.call, hframe j hji] at ha
        exact .inl ha
  cases a with
  | worker i =>
    rw [State.call, hworkers] at ha
    exact .inl ha
  | client d =>
    by_cases hdc : d = c
    · subst hdc
      rw [State.call] at ha
      rw [ha] at hc
      exact .inr (call_waitUnlock hc)
    · rw [State.call, hframe d hdc] at ha
      exact .inl ha

/-- **When `wait` returns**, all tasks accepted had finished at a moment of the call. -/
theorem run_wait (hcapacity : 0 < capacity) (h : Run (threads n C capacity) s past) {a : Agent n C}
    (ha : s.call a = .waitUnlock) :
    Since (fun t => (t.call a).waiting) (fun t => t.pool.AllFinished) (s :: past) := by
  induction h with
  | init h =>
    cases a with
    | worker i => rw [State.call, h.2.1 i] at ha; cases ha
    | client c => rw [State.call, h.2.2 c] at ha; cases ha
  | @step s s' past h hs ih =>
    have hwaiting : (s'.call a).waiting := by rw [ha]; trivial
    obtain hbefore | ⟨htest, hcount, hrunning⟩ := step_waitUnlock hs ha
    · exact (ih hbefore).later hwaiting
    have hfinished := (run_inv hcapacity h).allFinished_of_idle hcount hrunning
    have hnow : Since (fun t : State n C => (t.call a).waiting) (fun t => t.pool.AllFinished) (s :: past) :=
      .now (by rw [htest]; trivial) hfinished
    exact hnow.later hwaiting

/-- **The pool runs every accepted task exactly once**, whatever the order of the steps of its
threads: the queue holds the tasks accepted and not taken, in their order; no task is taken
twice; `wait` returns after a moment at which all tasks accepted had finished; and after a `stop`
they all have, and no worker steps any more. -/
theorem runs_accepted_once (hn : 0 < n) (hcapacity : 0 < capacity) {past : List (State n C)}
    (h : Run (threads n C capacity) s past) :
    s.pool.count ≤ capacity ∧
    s.pool.running = (Finset.univ.filter fun i => (s.workers i).busy = 1).card ∧
    s.pool.accepted = s.pool.taken ++ s.pool.queue ∧
    s.pool.accepted.Nodup ∧
    (s.pool.taken : Multiset Job) = s.pool.finished + ∑ i, (s.workers i).jobs ∧
    (∀ a job, s.call a = .submitUnlock (some job) → job ∈ s.pool.accepted) ∧
    (∀ a, s.call a = .waitUnlock →
      Since (fun t => (t.call a).waiting) (fun t => t.pool.AllFinished) (s :: past)) ∧
    (s.pool.stopped = true → s.pool.AllFinished ∧
      ∀ i w p, ¬ WorkerStep s.exited i (s.workers i) s.pool w p) := by
  have hinv := run_inv hcapacity h
  have hbusy : ∀ w : Worker, w.busy = if w.busy = 1 then 1 else 0 := fun w => by cases w <;> rfl
  refine ⟨hinv.queued.count_le, ?_, hinv.queued.accepted, hinv.nodup, hinv.jobs, ?_,
    fun a => run_wait hcapacity h, fun hstopped => ⟨?_, ?_⟩⟩
  · rw [Finset.card_filter, hinv.running]
    exact Finset.sum_congr rfl fun i _ => hbusy (s.workers i)
  · intro a job ha
    have hrelies := hinv.relies a
    rw [ha] at hrelies
    exact hrelies
  · exact hinv.allFinished_of_exited hn (hinv.stopped hstopped)
  · intro i w p hw
    exact worker_ne_exited hw (hinv.stopped hstopped i)

def pair (p : Pool 1 Unit) (w : Worker) (c : Call) : State 1 Unit := ⟨p, fun _ => w, fun _ => c⟩

section Pair

variable {past : List (State 1 Unit)} {p p' : Pool 1 Unit} {w w' : Worker} {c c' : Call}

theorem pair_worker (h : Run (threads 1 Unit capacity) (pair p w c) past)
    (hstep : WorkerStep (pair p w c).exited 0 w p w' p') :
    Run (threads 1 Unit capacity) (pair p' w' c) (pair p w c :: past) := by
  have hrun := h.step (.worker 0 hstep)
  rw [Function.update_eq_const_of_subsingleton] at hrun
  exact hrun

theorem pair_client (h : Run (threads 1 Unit capacity) (pair p w c) past)
    (hstep : CallStep (pair p w c).exited (.client ()) c p c' p') :
    Run (threads 1 Unit capacity) (pair p' w c') (pair p w c :: past) := by
  have hrun := h.step (.client () hstep)
  rw [Function.update_eq_const_of_subsingleton] at hrun
  exact hrun

end Pair

/-- A task is submitted, run, waited for, and the pool is stopped. -/
theorem runs_accepted_once_stopped : ∃ s t : State 1 Unit,
    s.call (.client ()) = .waitUnlock ∧ s.pool.finished = [⟨⟨1, 0⟩, 0⟩] ∧
      (∃ past, Since (fun t => (t.call (.client ())).waiting) (fun t => t.pool.AllFinished) (s :: past)) ∧
    t.pool.stopped = true ∧ t.pool.AllFinished ∧ ∀ i w p, ¬ WorkerStep t.exited i (t.workers i) t.pool w p := by
  have h0 : Run (threads 1 Unit 3) (pair { tasks := replicate 3 {} } .lock .none) [] :=
    .init ⟨rfl, fun _ => rfl, fun _ => rfl⟩
  have haccepted := pair_client (pair_client (pair_client (pair_client h0
    (.submit ⟨1, 0⟩ (by decide))) (.submitLock rfl)) (.submitAccept (by decide))) .submitReturn
  have htaken := pair_worker (pair_worker (pair_worker haccepted (.lock rfl)) (.take (by decide) rfl)) .unlock
  have hidle := pair_worker (pair_worker (pair_worker (pair_worker htaken .finish) (.relock rfl)) .done)
    (.sleep (by decide))
  have hwaited := pair_client (pair_client (pair_client hidle .wait) (.waitLock rfl)) (.waitEnd (by decide))
  have hstopping := pair_client (pair_client (pair_client (pair_client (pair_client hwaited .waitReturn)
    .stop) (.stopLock rfl)) .stopSet) .stopUnlock
  have hgone := pair_worker (pair_worker (pair_worker hstopping (.wake rfl)) (.leave (by decide) rfl)) .exit
  have hstopped := pair_client (pair_client (pair_client (pair_client hgone .stopCount)
    (.stopJoin (by decide) fun _ => rfl)) (.stopJoined (by decide))) .stopReturn
  obtain ⟨-, -, -, -, -, -, hwait, -⟩ := runs_accepted_once (by decide) (by decide) hwaited
  obtain ⟨-, -, -, -, -, -, -, hstop⟩ := runs_accepted_once (by decide) (by decide) hstopped
  exact ⟨_, _, rfl, rfl, ⟨_, hwait (.client ()) rfl⟩, rfl, hstop rfl⟩

end Invariant

end Dyn.Pool
