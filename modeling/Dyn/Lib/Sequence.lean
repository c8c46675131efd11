import Mathlib.Data.List.Basic
import Mathlib.Tactic.Ring

/-!
# Item sequences

A flat sequence of items under a grammar that is checked item by item, written to and read
from a list of symbols.  A reader may look ahead at how many symbols are left: the grammar
knows how many items a state still owes, and every item takes at least one symbol.
-/

namespace Dyn.Sequence

open List

universe u v x

variable {σ : Type u} {τ : Type v} {β : Type x}

structure Grammar (σ : Type u) (τ : Type v) where
  permit : σ → τ → Option σ
  closed : σ → Prop
  owed : σ → Nat
  owed_closed : ∀ s, closed s → owed s = 0
  owed_permit : ∀ s t s', permit s t = some s' → owed s ≤ owed s' + 1

def Grammar.Accepts (g : Grammar σ τ) : σ → List τ → Prop
  | s, [] => g.closed s
  | s, t :: ts => ∃ s', g.permit s t = some s' ∧ g.Accepts s' ts

theorem Grammar.Accepts.owed_le {g : Grammar σ τ} :
    ∀ {s : σ} {ts : List τ}, g.Accepts s ts → g.owed s ≤ ts.length
  | s, [], h => Nat.le_of_eq (g.owed_closed s h)
  | s, t :: ts, ⟨s', hpermit, h⟩ => by
    have hstep := g.owed_permit s t s' hpermit
    have hrest := Grammar.Accepts.owed_le h
    rw [length_cons]
    omega

/-- What a reader of single items makes of a list of symbols, up to its clean end. -/
def Reads (closed : σ → Prop) (read : σ → List β → Option (τ × σ × List β)) :
    σ → List β → List τ → Prop
  | s, bs, [] => bs = [] ∧ closed s
  | s, bs, t :: ts =>
      ∃ s' rest, bs ≠ [] ∧ read s bs = some (t, s', rest) ∧ Reads closed read s' rest ts

section Drains

variable {ρ : Type*} {ω : Type*}

/-- Calls of `next` that give these items and then a clean end. -/
inductive Drains (next : ρ → ω × ρ) (item : ω → Option τ) (clean : ω → Prop) :
    ρ → List τ → Prop
  | done {state : ρ} : clean (next state).1 → Drains next item clean state []
  | more {state : ρ} {t : τ} {ts : List τ} : item (next state).1 = some t →
      Drains next item clean (next state).2 ts → Drains next item clean state (t :: ts)

/-- An object that steps as the reader of single items does. -/
structure Steps (next : ρ → ω × ρ) (item : ω → Option τ) (clean : ω → Prop)
    (closed : σ → Prop) (read : σ → List β → Option (τ × σ × List β))
    (At : ρ → σ → List β → Prop) : Prop where
  some : ∀ {state s bs t s' rest}, At state s bs → read s bs = some (t, s', rest) →
    bs ≠ [] ∧ item (next state).1 = some t ∧ ¬ clean (next state).1 ∧ At (next state).2 s' rest
  none : ∀ {state s bs}, At state s bs → read s bs = none →
    item (next state).1 = none ∧ (clean (next state).1 ↔ bs = [] ∧ closed s)

/-- **Its calls give what the reader of single items makes of the symbols.** -/
theorem Steps.drains_iff {next : ρ → ω × ρ} {item : ω → Option τ} {clean : ω → Prop}
    {closed : σ → Prop} {read : σ → List β → Option (τ × σ × List β)}
    {At : ρ → σ → List β → Prop} (h : Steps next item clean closed read At) :
    ∀ {ts : List τ} {state : ρ} {s : σ} {bs : List β}, At state s bs →
      (Drains next item clean state ts ↔ Reads closed read s bs ts)
  | [], state, s, bs, hat => by
    constructor
    · intro hd
      cases hd with
      | done hclean =>
        cases hread : read s bs with
        | none => exact (h.none hat hread).2.mp hclean
        | some r => exact absurd hclean (h.some hat hread).2.2.1
    rintro ⟨hnil, hclosed⟩
    refine Drains.done ?_
    cases hread : read s bs with
    | none => exact (h.none hat hread).2.mpr ⟨hnil, hclosed⟩
    | some r => exact absurd hnil (h.some hat hread).1
  | t :: ts, state, s, bs, hat => by
    constructor
    · intro hd
      cases hd with
      | more hitem hrest =>
        cases hread : read s bs with
        | none =>
          rw [(h.none hat hread).1] at hitem
          cases hitem
        | some r =>
          obtain ⟨t', s', rest⟩ := r
          obtain ⟨hne, hitem', _, hnext⟩ := h.some hat hread
          rw [hitem] at hitem'
          injection hitem' with htoken
          subst htoken
          exact ⟨s', rest, hne, hread, (h.drains_iff hnext).mp hrest⟩
    · rintro ⟨s', rest, _, hread, hreads⟩
      obtain ⟨_, hitem, _, hnext⟩ := h.some hat hread
      exact Drains.more hitem ((h.drains_iff hnext).mpr hreads)

end Drains

section Codec

variable {g : Grammar σ τ} {write : τ → List β} {norm : τ → τ}
variable {read : σ → List β → Option (τ × σ × List β)}

theorem length_le_flatMap {ts : List τ} (h : ∀ t ∈ ts, write t ≠ []) :
    ts.length ≤ (ts.flatMap write).length := by
  induction ts with
  | nil => exact Nat.zero_le _
  | cons t ts ih =>
    have hrest := ih (fun t' ht => h t' (mem_cons_of_mem _ ht))
    have hpos := length_pos_of_ne_nil (h t (mem_cons_self ..))
    rw [flatMap_cons, length_append, length_cons]
    omega

theorem Grammar.Accepts.write_ne (hwrite : ∀ s t s', g.permit s t = some s' → write t ≠ []) :
    ∀ {s : σ} {ts : List τ}, g.Accepts s ts → ∀ t ∈ ts, write t ≠ []
  | _, [], _, t, ht => by cases ht
  | s, t :: ts, ⟨s', hpermit, h⟩, t', ht => by
    rcases mem_cons.mp ht with rfl | ht
    · exact hwrite _ _ _ hpermit
    · exact Grammar.Accepts.write_ne hwrite h t' ht

/-- **Written sequences are read back,** if every written item is, with as many symbols
behind it as the grammar owes. -/
theorem reads_of_accepts (hwrite : ∀ s t s', g.permit s t = some s' → write t ≠ [])
    (hread : ∀ s t s' rest, g.permit s t = some s' → g.owed s' ≤ rest.length →
      read s (write t ++ rest) = some (norm t, s', rest)) :
    ∀ {s : σ} {ts : List τ}, g.Accepts s ts → Reads g.closed read s (ts.flatMap write) (ts.map norm)
  | s, [], h => ⟨rfl, h⟩
  | s, t :: ts, ⟨s', hpermit, h⟩ => by
    have howed : g.owed s' ≤ (ts.flatMap write).length :=
      Nat.le_trans h.owed_le (length_le_flatMap (h.write_ne hwrite))
    rw [flatMap_cons]
    exact ⟨s', ts.flatMap write, append_ne_nil_of_left_ne_nil (hwrite _ _ _ hpermit) _,
      hread s t s' _ hpermit howed, reads_of_accepts hwrite hread h⟩

theorem accepts_of_reads
    (hsound : ∀ s bs t s' rest, read s bs = some (t, s', rest) →
      g.permit s t = some s' ∧ norm t = t) :
    ∀ {s : σ} {bs : List β} {ts : List τ}, Reads g.closed read s bs ts →
      g.Accepts s ts ∧ ts.map norm = ts
  | _, _, [], h => ⟨h.2, rfl⟩
  | s, bs, t :: ts, ⟨s', rest, _, hread, h⟩ => by
    obtain ⟨hpermit, hnorm⟩ := hsound s bs t s' rest hread
    obtain ⟨haccepts, hmap⟩ := accepts_of_reads hsound h
    refine ⟨⟨s', hpermit, haccepts⟩, ?_⟩
    rw [map_cons, hnorm, hmap]

/-- A bound on single items bounds the sequence: `f` measures what an item weighs, and the
reader pays for it with the symbols it consumes. -/
theorem reads_sum_le {f : τ → Nat} {k : Nat}
    (hpay : ∀ s bs t s' rest, read s bs = some (t, s', rest) →
      f t + rest.length ≤ bs.length + k) {closed : σ → Prop} :
    ∀ {s : σ} {bs : List β} {ts : List τ}, Reads closed read s bs ts →
      (ts.map f).sum ≤ bs.length + k * ts.length
  | _, _, [], _ => Nat.zero_le _
  | s, bs, t :: ts, ⟨s', rest, _, hread, h⟩ => by
    have hitem := hpay s bs t s' rest hread
    have hrest := reads_sum_le hpay h
    rw [map_cons, sum_cons, length_cons, Nat.mul_succ]
    omega

end Codec

end Dyn.Sequence
