import Mathlib.Tactic

/-!
# Systems of threads

A system has initial states and steps.  A run is the list of the states that it has gone
through, the newest one first.  What holds initially and is kept by the steps holds in every
state of a run (`Run.invariant`).

A thread that holds a lock is the only one (`Exclusive`), whatever the threads do, as long as
each of their steps acquires the free lock, releases the lock that it holds, or leaves the lock
alone.
-/

namespace Dyn.Lib

/-- The initial states and the steps of a system. -/
structure System (S : Type) where
  init : S → Prop
  step : S → S → Prop

section Runs

variable {S : Type} (system : System S)

inductive Run : S → List S → Prop
  | init {s : S} (h : system.init s) : Run s []
  | step {s t : S} {past : List S} (h : Run s past) (step : system.step s t) : Run t (s :: past)

variable {system}

theorem Run.invariant {Inv : S → Prop} (hinit : ∀ s, system.init s → Inv s)
    (hstep : ∀ s t, Inv s → system.step s t → Inv t) {s : S} {past : List S}
    (h : Run system s past) : Inv s := by
  induction h with
  | init h => exact hinit _ h
  | step _ step ih => exact hstep _ _ ih step

/-- Something happened `Since` a condition began to hold: in a state from which on it held. -/
def Since (during moment : S → Prop) (states : List S) : Prop :=
  ∃ recent older, states = recent ++ older ∧ (∀ s ∈ recent, during s) ∧ ∃ s ∈ recent, moment s

theorem Since.now {during moment : S → Prop} {s : S} {past : List S} (h : during s) (h' : moment s) :
    Since during moment (s :: past) :=
  ⟨[s], past, rfl, fun _ ht => List.mem_singleton.mp ht ▸ h, s, List.mem_singleton.mpr rfl, h'⟩

theorem Since.later {during moment : S → Prop} {s : S} {states : List S}
    (h : Since during moment states) (hs : during s) : Since during moment (s :: states) := by
  obtain ⟨recent, older, rfl, hduring, t, ht, hmoment⟩ := h
  exact ⟨s :: recent, older, rfl, List.forall_mem_cons.mpr ⟨hs, hduring⟩, t,
    List.mem_cons_of_mem _ ht, hmoment⟩

end Runs

section Locks

variable {A : Type}

def Exclusive (holds : A → Prop) (lock : Option A) : Prop := ∀ a, holds a → lock = some a

/-- What a step of a thread does to the lock, by whether the thread held it before and holds it
afterwards. -/
def LockStep (a : A) (lock lock' : Option A) (held held' : Prop) : Prop :=
  lock = none ∧ lock' = some a ∨ held ∧ lock' = none ∧ ¬ held' ∨ lock' = lock ∧ (held' → held)

theorem Exclusive.step {holds holds' : A → Prop} {lock lock' : Option A} (h : Exclusive holds lock) {a : A}
    (hstep : LockStep a lock lock' (holds a) (holds' a)) (hframe : ∀ b, b ≠ a → holds' b → holds b) :
    Exclusive holds' lock' := by
  intro b hb
  rcases hstep with ⟨hfree, hlock⟩ | ⟨hheld, hlock, hnot⟩ | ⟨hlock, hkeep⟩
  · by_cases hba : b = a
    · rw [hlock, hba]
    have hother := h b (hframe b hba hb)
    rw [hfree] at hother
    cases hother
  · have hba : b ≠ a := fun hc => hnot (hc ▸ hb)
    have hother := h b (hframe b hba hb)
    rw [h a hheld] at hother
    exact absurd (Option.some.inj hother).symm hba
  rw [hlock]
  by_cases hba : b = a
  · rw [hba]
    exact h a (hkeep (hba ▸ hb))
  · exact h b (hframe b hba hb)

end Locks

theorem sum_step {A M P : Type} [Fintype A] [DecidableEq A] [AddCommMonoid M] (f : P → M)
    {pc pc' : A → P} (a : A) (hframe : ∀ b, b ≠ a → pc' b = pc b) :
    ∑ b, f (pc' b) + f (pc a) = ∑ b, f (pc b) + f (pc' a) := by
  rw [← Finset.add_sum_erase Finset.univ (fun b => f (pc' b)) (Finset.mem_univ a),
    ← Finset.add_sum_erase Finset.univ (fun b => f (pc b)) (Finset.mem_univ a)]
  have hrest : ∑ b ∈ Finset.univ.erase a, f (pc' b) = ∑ b ∈ Finset.univ.erase a, f (pc b) :=
    Finset.sum_congr rfl fun b hb => by rw [hframe b (Finset.ne_of_mem_erase hb)]
  rw [hrest]
  abel

end Dyn.Lib
