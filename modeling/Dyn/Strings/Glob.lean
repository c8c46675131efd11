import Mathlib.Data.List.Infix
import Mathlib.Tactic.Linarith

/-!
# std/strings: glob_match

The loop of `glob_match` keeps one place to go back to: the pattern behind the last star
and the text the star has not taken yet.  `Glob` is the language of a pattern.
`Consumes.earlier` is the exchange argument: what matches behind a star from a later
start also matches from the earliest one, as soon as the next star is reached.
-/

namespace Dyn.Strings

open List

inductive Glob : List UInt8 → List UInt8 → Prop
  | nil : Glob [] []
  | star (front : List UInt8) {pattern text : List UInt8} (rest : Glob pattern text) :
      Glob (42 :: pattern) (front ++ text)
  | one (byte : UInt8) {pattern text : List UInt8} (rest : Glob pattern text) :
      Glob (63 :: pattern) (byte :: text)
  | quoted (byte : UInt8) {pattern text : List UInt8} (rest : Glob pattern text) :
      Glob (92 :: byte :: pattern) (byte :: text)
  | byte {byte : UInt8} {pattern text : List UInt8} (hstar : byte ≠ 42) (hquote : byte ≠ 92)
      (rest : Glob pattern text) : Glob (byte :: pattern) (byte :: text)

/-- The pattern from `p` on, the text from `t` on, and, behind a star, the pattern from
`star + 1` on and the text from `retry` on. -/
structure GlobState where
  pattern : List UInt8
  text : List UInt8
  star : Option (List UInt8 × List UInt8) := none
deriving DecidableEq, Repr

/-- The pattern behind the item it begins with, where that item matches the byte. -/
def matchItem (pattern : List UInt8) (byte : UInt8) : Option (List UInt8) :=
  match pattern with
  | [] => none
  | first :: next =>
      if first = 92 then
        match next with
        | [] => none
        | quoted :: next => if quoted = byte then some next else none
      else if first = 63 ∨ first = byte then some next else none

def globLoop : Nat → GlobState → Option Bool
  | 0, _ => none
  | fuel + 1, s =>
      match s.text with
      | [] => some (s.pattern.dropWhile (· == 42)).isEmpty
      | byte :: text =>
          if s.pattern.head? = some 42 then
            globLoop fuel
              { s with pattern := s.pattern.tail, star := some (s.pattern.tail, s.text) }
          else
            match matchItem s.pattern byte with
            | some next => globLoop fuel { s with pattern := next, text := text }
            | none =>
                match s.star with
                | some (behind, retry) => globLoop fuel ⟨behind, retry.tail, some (behind, retry.tail)⟩
                | none => some false

/-- Every round takes a byte, sets a later star or moves its start on, which happens at
most this often. -/
def globFuel (pattern text : List UInt8) : Nat :=
  (pattern.length + 2) * (text.length + 1) * (text.length + 1)

def globMatch (pattern text : List UInt8) : Option Bool :=
  globLoop (globFuel pattern text) { pattern := pattern, text := text }

variable {pattern next rest text : List UInt8} {byte : UInt8}

theorem matchItem_shorter (h : matchItem pattern byte = some next) :
    next.length < pattern.length := by
  unfold matchItem at h
  split at h
  case h_1 => cases h
  case h_2 first following =>
    split_ifs at h
    · cases following with
      | nil => cases h
      | cons quoted following =>
        simp only [Option.ite_none_right_eq_some, Option.some.injEq] at h
        rw [← h.2, length_cons, length_cons]
        omega
    · rw [← Option.some.inj h, length_cons]
      omega

/-- A pattern without a star in front takes the byte its first item matches. -/
theorem glob_item (hstar : pattern.head? ≠ some 42) :
    Glob pattern (byte :: text) ↔ ∃ next, matchItem pattern byte = some next ∧ Glob next text := by
  constructor
  · intro h
    generalize ht : byte :: text = whole at h
    cases h with
    | nil => cases ht
    | star front rest => exact absurd rfl hstar
    | one _ rest | quoted _ rest =>
      obtain ⟨rfl, rfl⟩ := cons.inj ht
      exact ⟨_, by simp [matchItem], rest⟩
    | byte _ hquote rest =>
      obtain ⟨rfl, rfl⟩ := cons.inj ht
      exact ⟨_, by simp [matchItem, hquote], rest⟩
  rintro ⟨next, h, hrest⟩
  unfold matchItem at h
  split at h
  case h_1 => cases h
  case h_2 first following =>
    split_ifs at h with hquote hfirst
    · subst hquote
      cases following with
      | nil => cases h
      | cons quoted following =>
        simp only [Option.ite_none_right_eq_some, Option.some.injEq] at h
        obtain ⟨rfl, rfl⟩ := h
        exact .quoted _ hrest
    obtain rfl := Option.some.inj h
    rcases hfirst with rfl | rfl
    · exact .one _ hrest
    · exact .byte (fun h => hstar (by rw [h]; rfl)) hquote hrest

theorem glob_star (h : Glob (42 :: pattern) text) : ∃ behind, behind <:+ text ∧ Glob pattern behind := by
  generalize hp : 42 :: pattern = stars at h
  cases h with
  | nil => cases hp
  | star front rest =>
    obtain ⟨-, rfl⟩ := cons.inj hp
    exact ⟨_, suffix_append _ _, rest⟩
  | one _ _ | quoted _ _ => exact absurd (cons.inj hp).1 (by decide)
  | byte hstar _ _ => exact absurd (cons.inj hp).1.symm hstar

theorem glob_nil : ∀ pattern, Glob pattern [] ↔ (pattern.dropWhile (· == 42)).isEmpty = true
  | [] => by simp [Glob.nil]
  | first :: pattern => by
    by_cases hstar : first = 42
    · subst hstar
      rw [dropWhile_cons_of_pos rfl, ← glob_nil pattern]
      constructor
      · intro h
        obtain ⟨behind, hsuffix, hrest⟩ := glob_star h
        rwa [suffix_nil.mp hsuffix] at hrest
      · exact Glob.star []
    rw [dropWhile_cons_of_neg (by simpa using hstar)]
    refine iff_of_false (fun h => ?_) (by simp)
    generalize ht : ([] : List UInt8) = text at h
    cases h with
    | star => exact hstar rfl
    | one | quoted | byte => cases ht

theorem matchItem_next {byte' : UInt8} {next' : List UInt8}
    (h : matchItem pattern byte = some next) (h' : matchItem pattern byte' = some next') :
    next = next' := by
  unfold matchItem at h h'
  cases pattern with
  | nil => cases h
  | cons first pattern =>
    simp only at h h'
    split_ifs at h h'
    · cases pattern with
      | nil => cases h
      | cons quoted pattern =>
        simp only [Option.ite_none_right_eq_some, Option.some.injEq] at h h'
        exact h.2.symm.trans h'.2
    · exact (Option.some.inj h).symm.trans (Option.some.inj h')

/-- A first item that matches some byte takes a byte of every text. -/
theorem Glob.first (hstar : pattern.head? ≠ some 42) (hitem : matchItem pattern byte = some next)
    (h : Glob pattern text) : ∃ first after, text = first :: after ∧ Glob next after := by
  cases text with
  | nil =>
    rw [glob_nil] at h
    cases pattern with
    | nil => cases hitem
    | cons first pattern =>
      have hne : first ≠ 42 := fun h => hstar (congrArg some h)
      rw [dropWhile_cons_of_neg (by simpa using hne)] at h
      cases h
  | cons first after =>
    obtain ⟨next', hnext, hrest⟩ := (glob_item hstar).mp h
    exact ⟨first, after, rfl, matchItem_next hitem hnext ▸ hrest⟩

/-- From `behind` and `retry` to the place of the loop, item by item without a star. -/
inductive Consumes (behind retry : List UInt8) : List UInt8 → List UInt8 → Prop
  | refl : Consumes behind retry behind retry
  | item {pattern text next : List UInt8} {byte : UInt8}
      (before : Consumes behind retry pattern (byte :: text))
      (hstar : pattern.head? ≠ some 42) (hitem : matchItem pattern byte = some next) :
      Consumes behind retry next text

variable {behind retry : List UInt8}

theorem Consumes.lengths (h : Consumes behind retry pattern text) :
    pattern.length ≤ behind.length ∧ text.length ≤ retry.length := by
  induction h with
  | refl => exact ⟨le_rfl, le_rfl⟩
  | item _ _ hitem ih =>
    have hnext := matchItem_shorter hitem
    rw [length_cons] at ih
    omega

/-- A match from a later start is, at the place of the loop, a match from further on. -/
theorem Consumes.earlier (h : Consumes behind retry pattern text) {start : List UInt8}
    (hretry : retry ≠ []) (hlater : start <:+ retry.tail) (hglob : Glob behind start) :
    text ≠ [] ∧ ∃ later, later <:+ text.tail ∧ Glob pattern later := by
  induction h with
  | refl => exact ⟨hretry, start, hlater, hglob⟩
  | item _ hstar hitem ih =>
    obtain ⟨-, later, hsuffix, hmatched⟩ := ih
    obtain ⟨first, after, rfl, hrest⟩ := hmatched.first hstar hitem
    rw [tail_cons] at hsuffix
    obtain ⟨front, rfl⟩ := hsuffix
    refine ⟨by simp, after, ?_, hrest⟩
    cases front with
    | nil => exact suffix_refl after
    | cons _ front => exact (suffix_cons first after).trans (suffix_append front _)

/-- The place of the loop was reached from behind its star. -/
def GlobState.Linked (s : GlobState) : Prop :=
  ∀ behind retry, s.star = some (behind, retry) → Consumes behind retry s.pattern s.text

/-- The rest matches, from the place of the loop or from a later start of its star. -/
def GlobState.Live (s : GlobState) : Prop :=
  Glob s.pattern s.text ∨ ∃ behind retry, s.star = some (behind, retry) ∧ retry ≠ [] ∧
    ∃ start, start <:+ retry.tail ∧ Glob behind start

/-- Three counters as one, the first weighing most. -/
def rank (n k r t : Nat) : Nat := (k * (n + 1) + r) * (n + 1) + t

/-- A bound on the rounds, for texts of at most `n` bytes. -/
def GlobState.work (n : Nat) (s : GlobState) : Nat :=
  match s.star with
  | none => rank n (s.pattern.length + 1) n s.text.length
  | some (behind, retry) => rank n behind.length retry.length s.text.length

theorem digits_lt {n a a' b b' : Nat} (h : a' < a) (hb : b' ≤ n) :
    a' * (n + 1) + b' < a * (n + 1) + b := by
  have hmul := Nat.mul_le_mul_right (n + 1) (Nat.succ_le_of_lt h)
  rw [Nat.succ_mul] at hmul
  omega

theorem rank_lt {n k k' r r' t t' : Nat} (h : k' < k ∨ k' = k ∧ r' < r) (hr : r' ≤ n)
    (ht : t' ≤ n) : rank n k' r' t' < rank n k r t := by
  refine digits_lt ?_ ht
  rcases h with h | ⟨rfl, h⟩
  · exact digits_lt h hr
  · omega

def GlobState.starting (pattern text : List UInt8) : GlobState := ⟨pattern, text, some (pattern, text)⟩

theorem starting_linked : (GlobState.starting pattern text).Linked := by
  intro behind retry h
  obtain ⟨rfl, rfl⟩ := Prod.mk.inj (Option.some.inj h)
  exact .refl

theorem starting_live :
    (GlobState.starting pattern text).Live ↔ ∃ start, start <:+ text ∧ Glob pattern start := by
  constructor
  · rintro (h | ⟨behind, retry, hstar, -, start, hsuffix, h⟩)
    · exact ⟨text, suffix_refl text, h⟩
    · obtain ⟨rfl, rfl⟩ := Prod.mk.inj (Option.some.inj hstar)
      exact ⟨start, hsuffix.trans (tail_suffix text), h⟩
  rintro ⟨start, hsuffix, h⟩
  cases text with
  | nil => exact .inl (suffix_nil.mp hsuffix ▸ h)
  | cons first text =>
    rcases suffix_cons_iff.mp hsuffix with rfl | htail
    · exact .inl h
    · exact .inr ⟨_, _, rfl, cons_ne_nil _ _, start, htail, h⟩

theorem glob_star_iff : Glob (42 :: pattern) text ↔ ∃ start, start <:+ text ∧ Glob pattern start := by
  refine ⟨glob_star, ?_⟩
  rintro ⟨start, ⟨front, rfl⟩, h⟩
  exact .star front h

theorem live_at_star {s : GlobState} (hlinked : s.Linked) (hpattern : s.pattern = 42 :: pattern) :
    s.Live ↔ (GlobState.starting pattern s.text).Live := by
  rw [starting_live, ← glob_star_iff, ← hpattern]
  refine ⟨?_, .inl⟩
  rintro (h | ⟨behind, retry, hstar, hretry, start, hsuffix, h⟩)
  · exact h
  obtain ⟨-, later, hlater, hglob⟩ := (hlinked _ _ hstar).earlier hretry hsuffix h
  rw [hpattern, glob_star_iff] at hglob ⊢
  obtain ⟨start, hstart, hglob⟩ := hglob
  exact ⟨start, (hstart.trans hlater).trans (tail_suffix _), hglob⟩

theorem globLoop_spec {n : Nat} : ∀ fuel (s : GlobState), s.Linked → s.text.length ≤ n →
    (∀ behind retry, s.star = some (behind, retry) → retry.length ≤ n) → s.work n < fuel →
    ∃ result, globLoop fuel s = some result ∧ (result = true ↔ s.Live)
  | 0, _, _, _, _, hfuel => absurd hfuel (Nat.not_lt_zero _)
  | fuel + 1, ⟨pattern, [], star⟩, hlinked, _, _, _ => by
    refine ⟨_, rfl, ?_⟩
    rw [← glob_nil]
    refine ⟨.inl, ?_⟩
    rintro (h | ⟨behind, retry, hstar, hretry, start, hsuffix, h⟩)
    · exact h
    · exact absurd rfl ((hlinked _ _ hstar).earlier hretry hsuffix h).1
  | fuel + 1, ⟨pattern, byte :: text, star⟩, hlinked, htext, hbound, hfuel => by
    rw [length_cons] at htext
    -- a round that starts behind a star goes on as the induction says
    have hstart : ∀ pattern' text', text'.length ≤ n →
        rank n pattern'.length text'.length text'.length <
          GlobState.work n ⟨pattern, byte :: text, star⟩ →
        (GlobState.Live ⟨pattern, byte :: text, star⟩ ↔ (GlobState.starting pattern' text').Live) →
        ∃ result, globLoop fuel (.starting pattern' text') = some result ∧
          (result = true ↔ GlobState.Live ⟨pattern, byte :: text, star⟩) := by
      intro pattern' text' hle hless hlive
      rw [hlive]
      refine globLoop_spec fuel _ starting_linked hle (fun behind retry h => ?_)
        (lt_of_lt_of_le hless (Nat.le_of_lt_succ hfuel))
      obtain ⟨rfl, rfl⟩ := Prod.mk.inj (Option.some.inj h)
      exact hle
    rw [globLoop]
    simp only
    split_ifs with hhead
    · obtain ⟨pattern, rfl⟩ : ∃ rest, pattern = 42 :: rest := by
        cases pattern with
        | nil => cases hhead
        | cons first rest => exact ⟨rest, by rw [Option.some.inj hhead]⟩
      refine hstart pattern (byte :: text) htext ?_ (live_at_star hlinked rfl)
      cases star with
      | none =>
        refine rank_lt (.inl ?_) htext htext
        rw [length_cons]
        omega
      | some place =>
        have hlengths := (hlinked _ _ rfl).lengths
        refine rank_lt (.inl ?_) htext htext
        rw [length_cons] at hlengths
        omega
    cases hitem : matchItem pattern byte with
    | some next =>
      have hlive : GlobState.Live ⟨pattern, byte :: text, star⟩ ↔
          GlobState.Live ⟨next, text, star⟩ := by
        unfold GlobState.Live
        simp only [glob_item hhead, hitem, Option.some.injEq, exists_eq_left']
      rw [hlive]
      refine globLoop_spec fuel ⟨next, text, star⟩
        (fun behind retry h => (hlinked behind retry h).item hhead hitem) (le_of_lt htext)
        hbound (lt_of_lt_of_le ?_ (Nat.le_of_lt_succ hfuel))
      cases star with
      | none =>
        have hnext := matchItem_shorter hitem
        exact rank_lt (.inl (Nat.succ_lt_succ hnext)) le_rfl (le_of_lt htext)
      | some place => exact Nat.add_lt_add_left (Nat.lt_succ_self _) _
    | none =>
      have hdead : ¬ Glob pattern (byte :: text) := by
        rw [glob_item hhead, hitem]
        simp
      cases star with
      | none => exact ⟨false, rfl, by simp [GlobState.Live, hdead]⟩
      | some place =>
        obtain ⟨behind, retry⟩ := place
        have hlengths := (hlinked _ _ rfl).lengths
        have hretry := hbound behind retry rfl
        rw [length_cons] at hlengths
        have htail : retry.tail.length < retry.length := by
          rw [length_tail]
          omega
        refine hstart behind retry.tail (by omega)
          (rank_lt (.inr ⟨rfl, htail⟩) (by omega) (by omega)) ?_
        have hne : retry ≠ [] := ne_nil_of_length_pos (by omega)
        rw [starting_live]
        simp [GlobState.Live, hdead, hne]

/-- **Glob matching.**  On every pattern and text `glob_match` settles, and it accepts the
texts of the pattern. -/
theorem globMatch_exact (pattern text : List UInt8) :
    ∃ result, globMatch pattern text = some result ∧ (result = true ↔ Glob pattern text) := by
  have hlive : GlobState.Live { pattern := pattern, text := text } ↔ Glob pattern text := by
    simp [GlobState.Live]
  rw [← hlive]
  refine globLoop_spec _ _ nofun le_rfl nofun ?_
  have hrank := digits_lt (a := pattern.length + 2) (b := 0) (Nat.lt_succ_self (pattern.length + 1))
    (le_refl text.length)
  have hwork := digits_lt (b := 0) hrank (le_refl text.length)
  exact hwork

end Dyn.Strings
