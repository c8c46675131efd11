import Dyn.Regex.Walks
import Dyn.Regex.Parsing

/-!
# Compiled patterns match their language

A pattern that is accepted spells a tree, and its program is the linked code of the expansion
of that tree.  What `find` reports is the first path of the program, which exists where the
tree matches.
-/

namespace Dyn.Regex

open Lib List

section Plain

variable {inner before : Core}

theorem copies_plain (h : inner.Plain) : ∀ n, (inner.copies n).Plain
  | 0 => h
  | n + 1 => ⟨copies_plain h n, h⟩

theorem extras_plain (h : inner.Plain) (h' : before.Plain) : ∀ n, (inner.extras before n).Plain
  | 0 => h'
  | n + 1 => ⟨extras_plain h h' n, h⟩

theorem repeated_plain (h : inner.Plain) : ∀ (minimum : Nat) (most : Option Nat),
    (inner.repeated minimum most).Plain
  | 0, none => h
  | n + 1, none => ⟨copies_plain h n, h⟩
  | 0, some 0 => by simp [Core.repeated, Core.Plain, Op.Passes]
  | 0, some (most + 1) => extras_plain h (show (Core.optional inner).Plain from h) most
  | n + 1, some most => extras_plain h (copies_plain h n) _

theorem core_plain : ∀ (tree : Tree) (g : Nat), (tree.core g).Plain
  | .any, _ => by simp [Tree.core, Core.Plain, Op.Passes]
  | .beginText, _ => by simp [Tree.core, Core.Plain, Op.Passes]
  | .endText, _ => by simp [Tree.core, Core.Plain, Op.Passes]
  | .char _, _ => by simp [Tree.core, Core.Plain, Op.Passes]
  | .charClass _ _, _ => by simp [Tree.core, Core.Plain, Op.Passes]
  | .group inner, g => by
    refine ⟨⟨?_, core_plain inner (g + 1)⟩, ?_⟩
    · simp [Core.Plain, Op.Passes]
    · simp [Core.Plain, Op.Passes]
  | .concat left right, g => ⟨core_plain left g, core_plain right _⟩
  | .alternate left right, g => ⟨core_plain left g, core_plain right _⟩
  | .repeated inner minimum most, g => repeated_plain (core_plain inner g) minimum most

end Plain

theorem power_inside {R : Nat → Nat → Prop} {n : Nat}
    (h : ∀ i j, R i j → i ≤ j ∧ (i ≤ n → j ≤ n)) : ∀ {count i j : Nat}, Power R count i j →
    i ≤ j ∧ (i ≤ n → j ≤ n)
  | 0, _, _, hpower => by
    cases hpower
    exact ⟨le_refl _, id⟩
  | count + 1, i, j, ⟨k, hpower, hlast⟩ => by
    have h1 := power_inside h hpower
    have h2 := h _ _ hlast
    exact ⟨le_trans h1.1 h2.1, fun hi => h2.2 (h1.2 hi)⟩

variable {pattern : List UInt8} {program : Program}

theorem lang_inside {text : List UInt8} : ∀ (tree : Tree) (i j : Nat),
    tree.Lang pattern text i j → i ≤ j ∧ (i ≤ text.length → j ≤ text.length)
  | .any, i, j, ⟨hj, hlt⟩ => by omega
  | .beginText, i, j, ⟨hj, _⟩ => by omega
  | .endText, i, j, ⟨hj, _⟩ => by omega
  | .char byte, i, j, ⟨hj, hget⟩ => by
    obtain ⟨hlt, _⟩ := List.getElem?_eq_some_iff.mp hget
    omega
  | .charClass c width, i, j, ⟨hj, byte, hget, _⟩ => by
    obtain ⟨hlt, _⟩ := List.getElem?_eq_some_iff.mp hget
    omega
  | .group inner, i, j, h => lang_inside inner i j h
  | .concat left right, i, j, ⟨k, hl, hr⟩ => by
    have h1 := lang_inside left i k hl
    have h2 := lang_inside right k j hr
    exact ⟨le_trans h1.1 h2.1, fun hi => h2.2 (h1.2 hi)⟩
  | .alternate left right, i, j, h => h.elim (lang_inside left i j) (lang_inside right i j)
  | .repeated inner minimum most, i, j, ⟨n, _, _, hpower⟩ =>
    power_inside (lang_inside inner) hpower

/-- **The program of a tree:** the linked code of its expansion, in front of the accepting
instruction. -/
structure Compiled (pattern : List UInt8) (tree : Tree) (program : Program) : Prop where
  spells : Spells 0 .expression tree pattern
  pattern_eq : program.pattern = pattern
  linked : Linked program.code (tree.core 0) 0 (program.code.length - 1) program.start
    (program.code.length - 1)
  accept : program.code[program.code.length - 1]? = some { op := .accept }
  groups : program.groups = tree.groups

theorem workspaceSize_le {instructions groups : Nat} (h : workspaceSize instructions groups ≠ 0) :
    instructions ≤ (noPatch - 1) / 3 := by
  unfold workspaceSize at h
  split_ifs at h <;> omega

theorem compileInto_spec {room tokens scratch : Nat}
    (h : compileInto pattern room tokens scratch = .ok program)
    (hsize : program.code.length ≤ (noPatch - 1) / 3) : ∃ tree, Compiled pattern tree program := by
  unfold compileInto at h
  split_ifs at h with hdepth hempty
  cases hparse : expression pattern { room := tokens } 0 pattern.length with
  | error state =>
    rw [hparse] at h
    cases h
  | ok state =>
    obtain ⟨tree, hspells, htokens, hgroups⟩ := expression_sound hparse
    rw [hparse] at h
    dsimp only at h
    rw [htokens] at h
    cases hloop : generateLoop room scratch (tree.core 0).postfixTokens {} with
    | error e =>
      rw [hloop] at h
      cases h
    | ok generated =>
      rw [hloop] at h
      simp only [bind, Except.bind] at h
      split at h
      case h_2 => cases h
      case h_1 fragment hstack =>
        split_ifs at h
        cases h
        rw [patchList_length, length_append, length_singleton] at hsize
        obtain ⟨hlength, haccept, hlinked⟩ :=
          generate_linked (core_plain tree 0) hloop hstack (by omega) rfl
        refine ⟨tree, hspells, rfl, ?_, ?_, hgroups⟩
        · rw [hlength, Nat.add_sub_cancel]
          exact hlinked
        · rw [hlength, Nat.add_sub_cancel]
          exact haccept

theorem compile_spec (h : compile pattern = .ok (.ok program)) :
    ∃ tree, Compiled pattern tree program ∧ workspaceSize program.code.length program.groups ≠ 0 ∧
      workspaceSize program.code.length program.groups ≤ program.workspace := by
  unfold compile at h
  split at h
  case h_1 => cases h
  case h_2 =>
    split at h
    case h_1 => (split_ifs at h; cases h)
    case h_2 count _ =>
      split_ifs at h
      split at h
      case h_1 => cases h
      case h_2 into hinto =>
        dsimp only at h
        split_ifs at h with hsize
        cases h
        obtain ⟨tree, hcompiled⟩ := compileInto_spec hinto (workspaceSize_le hsize)
        exact ⟨tree, ⟨hcompiled.spells, hcompiled.pattern_eq, hcompiled.linked, hcompiled.accept,
          hcompiled.groups⟩, hsize, le_rfl⟩

section Matches

variable {pattern text : List UInt8} {tree : Tree} {program : Program}

theorem machine_path {vis : List Nat} {pos n : Nat} {slots : List Nat} {choices : List Nat}
    {r : Nat × List Nat} (h : Path (machine program text) vis pos n slots choices r) :
    ∃ steps, Walk (machine program text) [] steps pos n r.1 := by
  induction h with
  | @stop vis pos n slots result fresh move =>
    refine ⟨0, ?_⟩
    have hresult : (result slots).1 = pos := by
      unfold machine at move
      split at move
      · cases move
      split at move
      · cases move
        rfl
      all_goals first
        | cases move
        | (split at move <;> cases move)
    rw [hresult]
    exact .stop not_mem_nil move
  | branch fresh move kid tail ih =>
    obtain ⟨steps, hwalk⟩ := ih
    exact ⟨steps + 1, .branch not_mem_nil move (mem_of_getElem? kid) hwalk⟩
  | advance fresh move tail ih =>
    obtain ⟨steps, hwalk⟩ := ih
    exact ⟨steps + 1, .advance not_mem_nil move hwalk⟩

theorem Compiled.lang (h : Compiled pattern tree program) {i j : Nat} :
    (∃ steps, Walk (machine program text) [] steps i program.start j) ↔ tree.Lang pattern text i j := by
  rw [linked_lang (core_plain tree 0) h.linked h.accept, h.pattern_eq, core_lang h.spells.proper]

theorem Compiled.no_match (h : Compiled pattern tree program) {i : Nat}
    (hdead : Dead (machine program text) [] i program.start) (j : Nat) :
    ¬ tree.Lang pattern text i j := by
  intro hlang
  obtain ⟨steps, hwalk⟩ := h.lang.mpr hlang
  obtain ⟨choices, r, hpath⟩ := hwalk.exists_path []
  exact hdead _ _ _ hpath

/-- What is found in a text: a match if there is one, from the least start there is, along the first
path of the program from there. -/
structure Reports (pattern : List UInt8) (tree : Tree) (program : Program) (text : List UInt8)
    (found : Found) : Prop where
  ok_iff : found.value.ok = true ↔
    ∃ i j, i ≤ j ∧ j ≤ text.length ∧ tree.Lang pattern text i j
  matched : found.value.ok = true → found.value.finish ≤ text.length ∧
    tree.Lang pattern text found.value.start found.value.finish
  least_start : found.value.ok = true → ∀ i j, i ≤ j → j ≤ text.length →
    tree.Lang pattern text i j → found.value.start ≤ i
  first_path : found.value.ok = true → ∃ slots,
    Least (machine program text) [] found.value.start program.start (unset program)
      (found.value.finish, slots) ∧
    found.captures = (List.range program.groups).map (captureOf slots)
  unmatched : found.value.ok = false → found.captures = List.replicate program.groups {}

/-- **Regular expressions match their language.** A pattern that is accepted spells a tree, and `find`
reports what the tree matches, on every text. -/
theorem find_matches_language (h : compile pattern = .ok (.ok program)) :
    ∃ tree, Compiled pattern tree program ∧
      ∀ text, ∃ found, find program text = .ok found ∧ Reports pattern tree program text found := by
  obtain ⟨tree, hcompiled, hsize, hroom⟩ := compile_spec h
  refine ⟨tree, hcompiled, fun text => ?_⟩
  obtain ⟨found, hfind, hfinds⟩ := @find_spec program text hsize hroom
  refine ⟨found, hfind, ?_⟩
  cases hfinds with
  | @some start finish slots start_le least before found_eq =>
    subst found_eq
    obtain ⟨choices, hpath, hleast⟩ := least
    have hlang : tree.Lang pattern text start finish := hcompiled.lang.mp (machine_path hpath)
    obtain ⟨hle, hinside⟩ := lang_inside tree start finish hlang
    have hfinish := hinside start_le.2
    refine ⟨⟨fun _ => ⟨start, finish, hle, hfinish, hlang⟩, fun _ => rfl⟩, fun _ => ⟨hfinish, hlang⟩,
      fun _ i j hij hj hmatch => ?_, fun _ => ⟨slots, ⟨choices, hpath, hleast⟩, rfl⟩, nofun⟩
    by_contra hbefore
    exact hcompiled.no_match (before i (Nat.zero_le i) (Nat.not_le.mp hbefore)) j hmatch
  | none all found_eq =>
    subst found_eq
    refine ⟨⟨fun hc => (by cases hc), ?_⟩, nofun, nofun,
      nofun, fun _ => rfl⟩
    rintro ⟨i, j, hij, hj, hmatch⟩
    exact absurd hmatch (hcompiled.no_match (all i (Nat.zero_le i) (by omega)) j)

/-- The pattern `a|b*`. -/
theorem find_matches_bar : ∃ program, compile [97, 124, 98, 42] = .ok (.ok program) ∧
    ∃ tree, Compiled [97, 124, 98, 42] tree program ∧ ∀ text, ∃ found,
      find program text = .ok found ∧ Reports [97, 124, 98, 42] tree program text found := by
  have hcompile : compile [97, 124, 98, 42] = .ok (.ok {
      pattern := [97, 124, 98, 42]
      code := [{ op := .char, byte := 97, x := 4 }, { op := .char, byte := 98, x := 2 },
        { op := .split, x := 1, y := 4 }, { op := .split, x := 0, y := 2 }, { op := .accept }]
      start := 3
      groups := 0
      workspace := 21 }) := by decide +kernel
  exact ⟨_, hcompile, find_matches_language hcompile⟩

end Matches

end Dyn.Regex
