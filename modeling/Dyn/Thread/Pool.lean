import Dyn.Lib.Systems

/-!
# std/thread/pool

Workers and clients take their steps in any order.  A step is what a thread does between two
points at which others can see it: it acquires the lock, does what it does while it holds the
lock, releases the lock, or runs a piece of a task.  Fields of the pool are only used by the
holder of the lock; the exception is `started`, which has steps of its own.

A waiting thread may wake at any time, so that signals and broadcasts make no difference to
what can happen.  A task may make calls of its own while it runs.

The lists at the end of `Pool` are not in the source.  They record what has happened: which
tasks were accepted, taken from the queue and finished, in this order, and whether a `stop` has
returned ok.  A task carries the number of its acceptance through the queue.
-/

namespace Dyn.Pool

open Lib

/-- A function, which is nil where it is zero, and its data. -/
structure Task where
  run : Nat := 0
  data : Nat := 0
deriving DecidableEq, Repr

structure Job where
  task : Task := {}
  ticket : Nat := 0
deriving DecidableEq, Repr

section Model

variable (n : Nat) (C : Type)

inductive Agent
  | worker (i : Fin n)
  | client (c : C)

/-- The pool, with `n` workers and a queue of as many tasks as `tasks` is long. -/
structure Pool where
  lock : Option (Agent n C) := none
  tasks : List Job
  head : Nat := 0
  count : Nat := 0
  running : Nat := 0
  stopping : Bool := false
  started : Nat := n
  accepted : List Job := []
  taken : List Job := []
  finished : List Job := []
  stopped : Bool := false

end Model

inductive Call
  | none
  | submitLock (task : Task)
  | submitTest (task : Task)
  | submitUnlock (accepted : Option Job)
  | waitLock
  | waitTest
  | waitSleep
  | waitUnlock
  | stopLock
  | stopSet
  | stopUnlock
  | stopCount
  | stopJoin (i bound : Nat)
  | stopClear

inductive Worker
  | lock
  | test
  | sleep
  | unlock (job : Job)
  | run (job : Job) (call : Call)
  | relock
  | done
  | exit
  | exited

section Steps

variable {n : Nat} {C : Type}

/-- The calls of a thread `a`. `exited i` says that worker `i` can be joined. -/
inductive CallStep (exited : Nat → Prop) (a : Agent n C) : Call → Pool n C → Call → Pool n C → Prop
  /-- A nil function is refused before anything else. -/
  | submit {p : Pool n C} (task : Task) (run : task.run ≠ 0) :
      CallStep exited a .none p (.submitLock task) p
  | submitLock {p : Pool n C} {task : Task} (free : p.lock = none) :
      CallStep exited a (.submitLock task) p (.submitTest task) { p with lock := some a }
  | submitRefuse {p : Pool n C} {task : Task} (h : p.stopping = true ∨ p.count = p.tasks.length) :
      CallStep exited a (.submitTest task) p (.submitUnlock none) p
  | submitAccept {p : Pool n C} {task : Task} (h : ¬ (p.stopping = true ∨ p.count = p.tasks.length)) :
      CallStep exited a (.submitTest task) p (.submitUnlock (some ⟨task, p.accepted.length⟩)) { p with
        tasks := p.tasks.set ((p.head + p.count) % p.tasks.length) ⟨task, p.accepted.length⟩
        count := p.count + 1
        accepted := p.accepted ++ [⟨task, p.accepted.length⟩] }
  | submitReturn {p : Pool n C} {accepted : Option Job} :
      CallStep exited a (.submitUnlock accepted) p .none { p with lock := none }
  | wait {p : Pool n C} : CallStep exited a .none p .waitLock p
  | waitLock {p : Pool n C} (free : p.lock = none) :
      CallStep exited a .waitLock p .waitTest { p with lock := some a }
  | waitSleep {p : Pool n C} (h : p.count ≠ 0 ∨ p.running ≠ 0) :
      CallStep exited a .waitTest p .waitSleep { p with lock := none }
  | waitWake {p : Pool n C} (free : p.lock = none) :
      CallStep exited a .waitSleep p .waitTest { p with lock := some a }
  | waitEnd {p : Pool n C} (h : ¬ (p.count ≠ 0 ∨ p.running ≠ 0)) :
      CallStep exited a .waitTest p .waitUnlock p
  | waitReturn {p : Pool n C} : CallStep exited a .waitUnlock p .none { p with lock := none }
  | stop {p : Pool n C} : CallStep exited a .none p .stopLock p
  | stopLock {p : Pool n C} (free : p.lock = none) :
      CallStep exited a .stopLock p .stopSet { p with lock := some a }
  | stopSet {p : Pool n C} : CallStep exited a .stopSet p .stopUnlock { p with stopping := true }
  | stopUnlock {p : Pool n C} : CallStep exited a .stopUnlock p .stopCount { p with lock := none }
  | stopCount {p : Pool n C} : CallStep exited a .stopCount p (.stopJoin 0 p.started) p
  | stopJoin {p : Pool n C} {i bound : Nat} (h : i < bound) (joined : exited i) :
      CallStep exited a (.stopJoin i bound) p (.stopJoin (i + 1) bound) p
  | stopJoined {p : Pool n C} {i bound : Nat} (h : ¬ i < bound) :
      CallStep exited a (.stopJoin i bound) p .stopClear p
  | stopReturn {p : Pool n C} :
      CallStep exited a .stopClear p .none { p with started := 0, stopped := true }

/-- The function `worker`, of worker `i`. -/
inductive WorkerStep (exited : Nat → Prop) (i : Fin n) : Worker → Pool n C → Worker → Pool n C → Prop
  | lock {p : Pool n C} (free : p.lock = none) :
      WorkerStep exited i .lock p .test { p with lock := some (.worker i) }
  | sleep {p : Pool n C} (h : p.count = 0 ∧ p.stopping = false) :
      WorkerStep exited i .test p .sleep { p with lock := none }
  | wake {p : Pool n C} (free : p.lock = none) :
      WorkerStep exited i .sleep p .test { p with lock := some (.worker i) }
  | leave {p : Pool n C} (h : ¬ (p.count = 0 ∧ p.stopping = false)) (empty : p.count = 0) :
      WorkerStep exited i .test p .exit p
  | take {p : Pool n C} {job : Job} (more : p.count ≠ 0) (job_eq : p.tasks[p.head]? = some job) :
      WorkerStep exited i .test p (.unlock job) { p with
        head := (p.head + 1) % p.tasks.length
        count := p.count - 1
        running := p.running + 1
        taken := p.taken ++ [job] }
  | unlock {p : Pool n C} {job : Job} :
      WorkerStep exited i (.unlock job) p (.run job .none) { p with lock := none }
  | call {p p' : Pool n C} {job : Job} {c c' : Call} (h : CallStep exited (.worker i) c p c' p') :
      WorkerStep exited i (.run job c) p (.run job c') p'
  | finish {p : Pool n C} {job : Job} :
      WorkerStep exited i (.run job .none) p .relock { p with finished := p.finished ++ [job] }
  | relock {p : Pool n C} (free : p.lock = none) :
      WorkerStep exited i .relock p .done { p with lock := some (.worker i) }
  | done {p : Pool n C} : WorkerStep exited i .done p .test { p with running := p.running - 1 }
  | exit {p : Pool n C} : WorkerStep exited i .exit p .exited { p with lock := none }

end Steps

section States

variable (n : Nat) (C : Type)

structure State where
  pool : Pool n C
  workers : Fin n → Worker
  clients : C → Call

variable {n C}

def State.exited (s : State n C) (i : Nat) : Prop := ∀ h : i < n, s.workers ⟨i, h⟩ = .exited

inductive Step [DecidableEq C] : State n C → State n C → Prop
  | worker {s : State n C} {pc : Worker} {p : Pool n C} (i : Fin n)
      (h : WorkerStep s.exited i (s.workers i) s.pool pc p) :
      Step s { s with pool := p, workers := Function.update s.workers i pc }
  | client {s : State n C} {call : Call} {p : Pool n C} (c : C)
      (h : CallStep s.exited (.client c) (s.clients c) s.pool call p) :
      Step s { s with pool := p, clients := Function.update s.clients c call }

/-- A pool that has been started: its workers have not locked it yet. -/
def Started (capacity : Nat) (s : State n C) : Prop :=
  s.pool = { tasks := List.replicate capacity {} } ∧ (∀ i, s.workers i = .lock) ∧ ∀ c, s.clients c = .none

def threads (n : Nat) (C : Type) [DecidableEq C] (capacity : Nat) : System (State n C) where
  init := Started capacity
  step := Step

def State.call (s : State n C) : Agent n C → Call
  | .worker i =>
      match s.workers i with
      | .run _ call => call
      | _ => .none
  | .client c => s.clients c

/-- The worker executes a task: it has been counted, and has not been discounted yet. -/
def Worker.busy : Worker → Nat
  | .unlock _ => 1
  | .run _ _ => 1
  | .relock => 1
  | .done => 1
  | _ => 0

/-- The queue: the slots from the head on. -/
def Pool.queue (p : Pool n C) : List Job :=
  (List.range p.count).map fun k => p.tasks.getD ((p.head + k) % p.tasks.length) {}

/-- Every task that was accepted has finished. -/
def Pool.AllFinished (p : Pool n C) : Prop := p.accepted.Perm p.finished

end States

end Dyn.Pool
