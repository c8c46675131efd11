import Dyn.Regex.Linking
import Dyn.Regex.Search

/-!
# Walks through linked code

A walk that enters linked code goes over a stretch that the tree matches, and then goes on from
the exit (`walk_sound`); every such stretch has a walk (`walk_complete`).
-/

namespace Dyn.Regex

open Lib List

section Walks

variable {program : Program} {text : List UInt8}

theorem machine_leaf {item : Instruction} (hop : item.op.Passes) {lo k pos : Nat}
    (hcode : program.code[lo]? = some (item.withField (openPart item.op) k)) :
    (∃ j, item.Lang program.pattern text pos j ∧
      (∀ j', item.Lang program.pattern text pos j' → j' = j) ∧
      (machine program text pos lo = .advance k ∧ j = pos + 1 ∨
        ∃ g, machine program text pos lo = .branch [(k, g)] ∧ j = pos)) ∨
    (∀ j, ¬ item.Lang program.pattern text pos j) ∧
      (machine program text pos lo = .dead ∨ machine program text pos lo = .branch []) := by
  obtain ⟨op, byte, x, y, z⟩ := item
  unfold machine
  rw [hcode]
  cases op with
  | char =>
    simp only [Instruction.Lang, Instruction.withField, openPart]
    cases htext : text[pos]? with
    | none => simp
    | some b =>
      by_cases hb : byte = b
      · subst hb
        simp [consumes]
      · simp [consumes, hb, Ne.symm hb]
  | any =>
    simp only [Instruction.Lang, Instruction.withField, openPart]
    cases htext : text[pos]? with
    | none => simp [getElem?_eq_none_iff.mp htext]
    | some b =>
      obtain ⟨hlt, _⟩ := List.getElem?_eq_some_iff.mp htext
      simp [consumes, hlt]
  | charClass =>
    simp only [Instruction.Lang, Instruction.withField, openPart]
    cases htext : text[pos]? with
    | none => simp
    | some b =>
      by_cases hb : atom program.pattern x b = true
      · simp [consumes, hb]
      · simp [consumes, hb]
  | beginText =>
    by_cases hpos : pos = 0
    · subst hpos
      simp [Instruction.Lang, Instruction.withField, openPart, eq_comm]
    · simp [Instruction.Lang, Instruction.withField, openPart, hpos]
  | endText =>
    by_cases hpos : pos = text.length
    · subst hpos
      simp [Instruction.Lang, Instruction.withField, openPart, eq_comm]
    · simp [Instruction.Lang, Instruction.withField, openPart, hpos]
  | jump | save => simp [Instruction.Lang, Instruction.withField, openPart, eq_comm]
  | split => simp [Op.Passes] at hop
  | accept | concatToken | alternateToken | starToken | plusToken | optionalToken => simp [Op.Passes] at hop

variable {steps : Nat}

variable {item : Instruction} {k pos fin pc x y : Nat}

theorem leaf_sound (hop : item.op.Passes) {lo : Nat}
    (hcode : program.code[lo]? = some (item.withField (openPart item.op) k))
    (h : Walk (machine program text) [] steps pos lo fin) :
    ∃ j steps', steps' < steps ∧ item.Lang program.pattern text pos j ∧
      Walk (machine program text) [] steps' j k fin := by
  rcases @machine_leaf program text item hop lo k pos hcode with
    ⟨j, hlang, _, ⟨hmove, rfl⟩ | ⟨g, hmove, rfl⟩⟩ | ⟨_, hmove | hmove⟩
  · cases h with
    | stop _ move | branch _ move _ _ => rw [hmove] at move; cases move
    | @advance _ steps _ _ _ _ _ move tail =>
      rw [hmove] at move
      cases move
      exact ⟨_, steps, Nat.lt_succ_self _, hlang, tail⟩
  · cases h with
    | stop _ move | advance _ move _ => rw [hmove] at move; cases move
    | @branch _ steps _ _ _ _ kid _ move mem tail =>
      rw [hmove] at move
      cases move
      rw [mem_singleton.mp mem] at tail
      exact ⟨_, steps, Nat.lt_succ_self _, hlang, tail⟩
  · cases h with
    | stop _ move | branch _ move _ _ | advance _ move _ => rw [hmove] at move; cases move
  · cases h with
    | stop _ move | advance _ move _ => rw [hmove] at move; cases move
    | branch _ move mem _ =>
      rw [hmove] at move
      cases move
      cases mem

theorem leaf_complete (hop : item.op.Passes) {lo j : Nat}
    (hcode : program.code[lo]? = some (item.withField (openPart item.op) k))
    (hlang : item.Lang program.pattern text pos j)
    (h : Walk (machine program text) [] steps j k fin) :
    Walk (machine program text) [] (steps + 1) pos lo fin := by
  rcases @machine_leaf program text item hop lo k pos hcode with
    ⟨j', _, hunique, hmove⟩ | ⟨hnone, _⟩
  · obtain rfl := hunique j hlang
    rcases hmove with ⟨hmove, rfl⟩ | ⟨g, hmove, rfl⟩
    · exact .advance not_mem_nil hmove h
    · exact .branch not_mem_nil hmove (mem_singleton.mpr rfl) h
  · exact absurd hlang (hnone j)

theorem machine_split {pc x y pos : Nat} (hcode : program.code[pc]? = some { op := .split, x := x, y := y }) :
    machine program text pos pc = .branch [(x, id), (y, id)] := by
  unfold machine
  rw [hcode]

theorem split_sound (hcode : program.code[pc]? = some { op := .split, x := x, y := y })
    (h : Walk (machine program text) [] steps pos pc fin) : ∃ steps', steps = steps' + 1 ∧
      (Walk (machine program text) [] steps' pos x fin ∨ Walk (machine program text) [] steps' pos y fin) := by
  have hmove := @machine_split program text pc x y pos hcode
  cases h with
  | stop _ move | advance _ move _ => rw [hmove] at move; cases move
  | @branch _ steps _ _ _ _ kid _ move mem tail =>
    rw [hmove] at move
    cases move
    refine ⟨steps, rfl, ?_⟩
    rcases mem_cons.mp mem with rfl | mem
    · exact .inl tail
    · rw [mem_singleton.mp mem] at tail
      exact .inr tail

theorem split_first (hcode : program.code[pc]? = some { op := .split, x := x, y := y })
    (h : Walk (machine program text) [] steps pos x fin) :
    Walk (machine program text) [] (steps + 1) pos pc fin :=
  .branch not_mem_nil (machine_split hcode) mem_cons_self h

theorem split_second (hcode : program.code[pc]? = some { op := .split, x := x, y := y })
    (h : Walk (machine program text) [] steps pos y fin) :
    Walk (machine program text) [] (steps + 1) pos pc fin :=
  .branch not_mem_nil (machine_split hcode) (mem_cons_of_mem _ (mem_singleton.mpr rfl)) h

/-- **A walk that enters linked code** goes over a stretch that matches. -/
theorem walk_sound : ∀ (core : Core), core.Plain → ∀ {lo hi start k steps pos fin : Nat},
    Linked program.code core lo hi start k → Walk (machine program text) [] steps pos start fin →
    ∃ j steps', steps' < steps ∧ core.Lang program.pattern text pos j ∧
      Walk (machine program text) [] steps' j k fin
  | .leaf item, hplain, lo, hi, start, k, steps, pos, fin, ⟨_, hstart, hcode⟩, h => by
    subst hstart
    exact leaf_sound hplain hcode h
  | .concat left right, hplain, lo, hi, start, k, steps, pos, fin, ⟨mid, next, hl, hr⟩, h => by
    obtain ⟨j, steps1, hlt1, hleft, h1⟩ := walk_sound left hplain.1 hl h
    obtain ⟨j', steps2, hlt2, hright, h2⟩ := walk_sound right hplain.2 hr h1
    exact ⟨j', steps2, Nat.lt_trans hlt2 hlt1, ⟨j, hleft, hright⟩, h2⟩
  | .alternate left right, hplain, lo, hi, start, k, steps, pos, fin,
      ⟨mid, top, x, y, _, hstart, hl, hr, hcode⟩, h => by
      subst hstart
      obtain ⟨steps1, rfl, h1 | h1⟩ := split_sound hcode h
      · obtain ⟨j, steps2, hlt, hleft, h2⟩ := walk_sound left hplain.1 hl h1
        exact ⟨j, steps2, Nat.lt_succ_of_lt hlt, .inl hleft, h2⟩
      · obtain ⟨j, steps2, hlt, hright, h2⟩ := walk_sound right hplain.2 hr h1
        exact ⟨j, steps2, Nat.lt_succ_of_lt hlt, .inr hright, h2⟩
  | .star inner, hplain, lo, hi, start, k, steps, pos, fin, ⟨top, x, _, hstart, hinner, hcode⟩, h => by
    subst hstart
    -- Each time around takes a step, also where the inner tree matches nothing.
    induction steps using Nat.strong_induction_on generalizing pos with
    | _ steps ih =>
      obtain ⟨steps1, rfl, h1 | h1⟩ := split_sound hcode h
      · obtain ⟨j, steps2, hlt, honce, h2⟩ := walk_sound inner hplain hinner h1
        obtain ⟨j', steps3, hlt', ⟨n, hpower⟩, h3⟩ := ih steps2 (by omega) _ h2
        refine ⟨j', steps3, by omega, ⟨1 + n, ?_⟩, h3⟩
        exact Power.add.mpr ⟨j, Power.one.mpr honce, hpower⟩
      · exact ⟨pos, steps1, Nat.lt_succ_self _, ⟨0, rfl⟩, h1⟩
  | .optional inner, hplain, lo, hi, start, k, steps, pos, fin, ⟨top, x, _, hstart, hinner, hcode⟩, h => by
    subst hstart
    obtain ⟨steps1, rfl, h1 | h1⟩ := split_sound hcode h
    · obtain ⟨j, steps2, hlt, honce, h2⟩ := walk_sound inner hplain hinner h1
      exact ⟨j, steps2, Nat.lt_succ_of_lt hlt, .inr honce, h2⟩
    · exact ⟨pos, steps1, Nat.lt_succ_self _, .inl rfl, h1⟩

theorem walk_complete : ∀ (core : Core), core.Plain → ∀ {lo hi start k steps pos j fin : Nat},
    Linked program.code core lo hi start k → core.Lang program.pattern text pos j →
    Walk (machine program text) [] steps j k fin →
    ∃ steps', Walk (machine program text) [] steps' pos start fin
  | .leaf item, hplain, lo, hi, start, k, steps, pos, j, fin, ⟨_, hstart, hcode⟩, hlang, h => by
    subst hstart
    exact ⟨_, leaf_complete hplain hcode hlang h⟩
  | .concat left right, hplain, lo, hi, start, k, steps, pos, j, fin, ⟨mid, next, hl, hr⟩,
      ⟨j', hleft, hright⟩, h => by
      obtain ⟨_, h1⟩ := walk_complete right hplain.2 hr hright h
      exact walk_complete left hplain.1 hl hleft h1
  | .alternate left right, hplain, lo, hi, start, k, steps, pos, j, fin,
      ⟨mid, top, x, y, _, hstart, hl, hr, hcode⟩, hlang, h => by
      subst hstart
      rcases hlang with hleft | hright
      · obtain ⟨_, h1⟩ := walk_complete left hplain.1 hl hleft h
        exact ⟨_, split_first hcode h1⟩
      · obtain ⟨_, h1⟩ := walk_complete right hplain.2 hr hright h
        exact ⟨_, split_second hcode h1⟩
  | .star inner, hplain, lo, hi, start, k, steps, pos, j, fin, ⟨top, x, _, hstart, hinner, hcode⟩,
      ⟨n, hpower⟩, h => by
      subst hstart
      obtain ⟨steps', hend⟩ : ∃ steps', Walk (machine program text) [] steps' j start fin :=
        ⟨_, split_second hcode h⟩
      clear h
      induction n generalizing j steps' with
      | zero =>
        cases hpower
        exact ⟨_, hend⟩
      | succ n ih =>
        obtain ⟨j', hpower, honce⟩ := hpower
        obtain ⟨_, h1⟩ := walk_complete inner hplain hinner honce hend
        exact ih _ hpower _ (split_first hcode h1)
  | .optional inner, hplain, lo, hi, start, k, steps, pos, j, fin, ⟨top, x, _, hstart, hinner, hcode⟩,
      hlang, h => by
      subst hstart
      rcases hlang with rfl | honce
      · exact ⟨_, split_second hcode h⟩
      · obtain ⟨_, h1⟩ := walk_complete inner hplain hinner honce h
        exact ⟨_, split_first hcode h1⟩

/-- **Linked code that accepts at its exit** has the walks of its language. -/
theorem linked_lang {core : Core} (hplain : core.Plain) {hi start : Nat}
    (hlinked : Linked program.code core 0 hi start k)
    (haccept : program.code[k]? = some { op := .accept }) {i j : Nat} :
    (∃ steps, Walk (machine program text) [] steps i start j) ↔
      core.Lang program.pattern text i j := by
  have hmove : ∀ pos, machine program text pos k = .stop fun slots => (pos, slots) := by
    intro pos
    unfold machine
    rw [haccept]
  constructor
  · rintro ⟨steps, h⟩
    obtain ⟨j', steps', _, hlang, hend⟩ := walk_sound core hplain hlinked h
    cases hend with
    | stop _ _ => exact hlang
    | branch _ move _ _ | advance _ move _ => rw [hmove] at move; cases move
  · exact fun hlang => walk_complete core hplain hlinked hlang (.stop not_mem_nil (hmove j))

end Walks

end Dyn.Regex
