import Dyn.Regex.Program
import Dyn.Lib.OrderedSearch

/-!
# The execution finds the first path

`machine` says what the instructions of a program do at each position of a text.  The
execution of a program is an ordered search on it, and its workspace is never too small
(`attempt_spec`): each program counter is seen once at each position.
-/

namespace Dyn.Regex

open List
open Mem (Panic)
open Lib

/-- What the instruction at a program counter does at a position: the search stops at the
accepting one with the position and the captures. -/
def machine (program : Program) (text : List UInt8) (pos pc : Nat) :
    Move Nat (List Nat) (Nat × List Nat) :=
  match program.code[pc]? with
  | none => .branch []
  | some instruction =>
      match instruction.op with
      | .accept => .stop fun slots => (pos, slots)
      | .split => .branch [(instruction.x, id), (instruction.y, id)]
      | .jump => .branch [(instruction.x, id)]
      | .save => .branch [(instruction.y, fun slots => saveSlot slots instruction.x pos)]
      | .beginText => .branch (if pos ≠ 0 then [] else [(instruction.x, id)])
      | .endText => .branch (if pos ≠ text.length then [] else [(instruction.x, id)])
      | _ =>
          match text[pos]?.bind (consumes program.pattern instruction) with
          | some next => .advance next
          | none => .dead

section Search

variable {program : Program} {text : List UInt8} {pos : Nat}

def Row.seed (row : Row) : Nat × List Nat := (row.pc, row.slots)

variable {instruction : Instruction} {rows : List Row} {seen : List Nat}
  {seeds : List (Nat × List Nat)}

theorem machine_of_advance {row : Row} (hcode : program.code[row.pc]? = some instruction)
    (h : advance instruction text.length pos row = some rows) :
    ∃ kids, machine program text pos row.pc = .branch kids ∧
      rows.map Row.seed = kids.map fun kid => (kid.1, kid.2 row.slots) := by
  unfold machine
  unfold advance at h
  rw [hcode]
  dsimp only
  cases hop : instruction.op
  all_goals
    rw [hop] at h
    try cases h
  · exact ⟨_, rfl, rfl⟩
  · exact ⟨_, rfl, rfl⟩
  · exact ⟨_, rfl, rfl⟩
  · refine ⟨_, rfl, ?_⟩
    split_ifs <;> rfl
  · refine ⟨_, rfl, ?_⟩
    split_ifs <;> rfl

theorem leaf_of_advance {row : Row} (hcode : program.code[row.pc]? = some instruction)
    (h : advance instruction text.length pos row = none) :
    IsLeaf (machine program text pos row.pc) := by
  intro kids hmove
  unfold machine at hmove
  unfold advance at h
  rw [hcode] at hmove
  dsimp only at hmove
  cases hop : instruction.op
  all_goals
    rw [hop] at h hmove
    try cases h
  all_goals try cases hmove
  all_goals
    dsimp only at hmove
    split at hmove <;> cases hmove

/-- The list holds the program counters that are marked. -/
def Marked (program : Program) (threads : Threads) (seen : List Nat) : Prop :=
  ∀ pc, pc < program.code.length → (pc ∈ seen ↔ threads.seen[pc]? = some true)

/-- The workspace suffices for what has been marked. -/
structure Sized (program : Program) (threads : Threads) : Prop where
  seen : threads.seen.length = program.code.length
  output : threads.output.length ≤ threads.seen.count true

theorem count_mark {seen : List Bool} {pc : Nat} (h : seen[pc]? = some false) :
    (seen.set pc true).count true = seen.count true + 1 ∧ seen.count true < seen.length := by
  obtain ⟨hlt, hget⟩ := List.getElem?_eq_some_iff.mp h
  have hcount : (seen.set pc true).count true = seen.count true + 1 := by
    rw [count_set hlt, hget]
    simp
  have hle : (seen.set pc true).count true ≤ (seen.set pc true).length := count_le_length
  rw [length_set, hcount] at hle
  exact ⟨hcount, hle⟩

theorem Marked.mark {threads : Threads} (h : Marked program threads seen) {pc : Nat}
    (hpc : threads.seen[pc]? = some false) : Marked program (threads.mark pc) (pc :: seen) := by
  obtain ⟨hlt, _⟩ := List.getElem?_eq_some_iff.mp hpc
  intro x hx
  rw [mem_cons, h x hx, Threads.mark, getElem?_set]
  by_cases hxp : pc = x
  · subst hxp
    rw [if_pos rfl, if_pos hlt]
    simp
  · rw [if_neg hxp]
    exact ⟨fun hc => hc.elim (fun he => absurd he.symm hxp) id, .inr⟩

/-- **The loop over pending rows is the search at one position.** -/
theorem expandLoop_spec : ∀ (fuel : Nat) {pending : List Row} {threads : Threads} {seen : List Nat},
    Sized program threads → Marked program threads seen →
    2 * (program.code.length - threads.seen.count true) + pending.length ≤ fuel →
    pending.length ≤ threads.seen.count true + 1 →
    ∃ threads' leaves seen',
      expandLoop program.code text.length pos fuel pending threads = .ok threads' ∧
        threads'.output = threads.output ++ leaves ∧ Sized program threads' ∧
        Marked program threads' seen' ∧ threads.seen.count true ≤ threads'.seen.count true ∧
        Drains (machine program text) pos seen (pending.map Row.seed) (leaves.map Row.seed) seen'
  | fuel, [], threads, seen, hsized, hmarked, _, _ => by
    refine ⟨threads, [], seen, ?_, (append_nil _).symm, hsized, hmarked, le_refl _, .nil⟩
    cases fuel <;> rfl
  | 0, row :: pending, threads, seen, _, _, hfuel, _ => by
    rw [length_cons] at hfuel
    omega
  | fuel + 1, row :: pending, threads, seen, hsized, hmarked, hfuel, hpending => by
    rw [length_cons] at hfuel hpending
    have hseen := hsized.seen
    rw [expandLoop]
    cases hcode : program.code[row.pc]? with
    | none =>
      have hout : program.code.length ≤ row.pc := getElem?_eq_none_iff.mp hcode
      have hmarked' : ∀ l, Marked program threads l → Marked program threads (row.pc :: l) := by
        intro l hl pc hpc
        rw [mem_cons, ← hl pc hpc]
        exact ⟨fun hc => hc.resolve_left (by omega), .inr⟩
      have hmove : machine program text pos row.pc = .branch [] := by
        rw [machine, hcode]
      by_cases hold : row.pc ∈ seen
      · obtain ⟨threads', leaves, seen', hloop, hrest⟩ :=
          @expandLoop_spec fuel pending threads seen hsized hmarked (by omega) (by omega)
        refine ⟨threads', leaves, seen', hloop, hrest.1, hrest.2.1, hrest.2.2.1, hrest.2.2.2.1, ?_⟩
        exact .skip hold hrest.2.2.2.2
      obtain ⟨threads', leaves, seen', hloop, hrest⟩ :=
        @expandLoop_spec fuel pending threads (row.pc :: seen) hsized (hmarked' seen hmarked)
          (by omega) (by omega)
      refine ⟨threads', leaves, seen', hloop, hrest.1, hrest.2.1, hrest.2.2.1, hrest.2.2.2.1, ?_⟩
      exact .branch hold hmove .nil hrest.2.2.2.2
    | some instruction =>
      obtain ⟨hlt, _⟩ := List.getElem?_eq_some_iff.mp hcode
      obtain ⟨flag, hflag⟩ : ∃ flag, threads.seen[row.pc]? = some flag :=
        ⟨_, getElem?_eq_getElem (by omega)⟩
      rw [hflag]
      cases flag with
      | true =>
        have hold : row.pc ∈ seen := (hmarked row.pc hlt).mpr hflag
        obtain ⟨threads', leaves, seen', hloop, hrest⟩ :=
          @expandLoop_spec fuel pending threads seen hsized hmarked (by omega) (by omega)
        refine ⟨threads', leaves, seen', hloop, hrest.1, hrest.2.1, hrest.2.2.1, hrest.2.2.2.1, ?_⟩
        exact .skip hold hrest.2.2.2.2
      | false =>
        have hfresh : row.pc ∉ seen := fun hc => by
          have := (hmarked row.pc hlt).mp hc
          rw [hflag] at this
          cases this
        obtain ⟨hcount, hroom⟩ := count_mark hflag
        have hmarked' := hmarked.mark hflag
        have hcount' : (threads.mark row.pc).seen.count true = threads.seen.count true + 1 :=
          hcount
        have houtput := hsized.output
        have hlength : (threads.mark row.pc).seen.length = program.code.length :=
          (length_set ..).trans hseen
        dsimp only
        cases hadvance : advance instruction text.length pos row with
        | some rows =>
          obtain ⟨kids, hmove, hkids⟩ := machine_of_advance hcode hadvance
          have hrows : rows.length ≤ 2 := by
            unfold advance at hadvance
            split at hadvance
            all_goals cases hadvance
            all_goals first | (split_ifs <;> simp) | simp
          have hsized' : Sized program (threads.mark row.pc) :=
            ⟨hlength, by rw [hcount']; exact Nat.le_succ_of_le houtput⟩
          dsimp only
          rw [if_pos (by omega)]
          obtain ⟨threads', leaves, seen', hloop, hout, hsized2, hmarked2, hmono, hdrains⟩ :=
            @expandLoop_spec fuel (rows ++ pending) (threads.mark row.pc) (row.pc :: seen)
              hsized' hmarked'
              (by rw [hcount', length_append]; omega)
              (by rw [hcount', length_append]; omega)
          refine ⟨threads', leaves, seen', hloop, hout, hsized2, hmarked2, by omega, ?_⟩
          rw [map_append, hkids] at hdrains
          obtain ⟨l1, l2, seen1, hl, h1, h2⟩ := hdrains.split
          rw [hl]
          exact .branch hfresh hmove h1 h2
        | none =>
          have hleaf := leaf_of_advance hcode hadvance
          rw [if_pos (show (threads.mark row.pc).output.length < _ from
            lt_of_le_of_lt houtput (hseen ▸ hroom))]
          obtain ⟨threads', leaves, seen', hloop, hout, hsized2, hmarked2, hmono, hdrains⟩ :=
            @expandLoop_spec fuel pending
              { threads.mark row.pc with output := (threads.mark row.pc).output ++ [row] }
              (row.pc :: seen)
              ⟨hlength, by
                simp only [length_append, length_singleton]
                rw [hcount']
                exact Nat.succ_le_succ houtput⟩
              hmarked' (by simp only; rw [hcount']; omega) (by simp only; rw [hcount']; omega)
          refine ⟨threads', row :: leaves, seen', hloop, ?_, hsized2, hmarked2, by
            simp only at hmono
            omega, ?_⟩
          · rw [hout]
            simp [Threads.mark]
          · exact .leaf hfresh hleaf hdrains

theorem unseen_sized : Sized program (unseen program) :=
  ⟨length_replicate, Nat.zero_le _⟩

theorem unseen_marked : Marked program (unseen program) [] := by
  intro pc hpc
  rw [unseen, getElem?_replicate, if_pos hpc]
  simp

theorem expand_spec {seed : Row} {threads : Threads} {seen : List Nat}
    (hsized : Sized program threads) (hmarked : Marked program threads seen) :
    ∃ threads' leaves seen', expand program text.length pos seed threads = .ok threads' ∧
      threads'.output = threads.output ++ leaves ∧ Sized program threads' ∧
      Marked program threads' seen' ∧
      Drains (machine program text) pos seen [seed.seed] (leaves.map Row.seed) seen' := by
  obtain ⟨threads', leaves, seen', hloop, hout, hsized', hmarked', _, hdrains⟩ :=
    @expandLoop_spec program text pos (2 * program.code.length + 2) [seed] threads seen hsized hmarked
      (by rw [length_singleton]; omega) (by rw [length_singleton]; omega)
  exact ⟨threads', leaves, seen', hloop, hout, hsized', hmarked', hdrains⟩

/-- The rows of a list are at nodes that go nowhere at their position. -/
def Leaves (program : Program) (text : List UInt8) (pos : Nat) (rows : List Row) : Prop :=
  ∀ row ∈ rows, row.pc < program.code.length ∧ IsLeaf (machine program text pos row.pc)

theorem leaves_of_drains {seen' : List Nat}
    (h : Drains (machine program text) pos seen seeds (rows.map Row.seed) seen') :
    Leaves program text pos rows := by
  intro row hrow
  have hleaf := Drains.leaves _ h _ (mem_map.mpr ⟨row, hrow, rfl⟩)
  refine ⟨?_, hleaf⟩
  by_contra hout
  have hmove : machine program text pos row.pc = .branch [] := by
    rw [machine, getElem?_eq_none_iff.mpr (by omega)]
  exact hleaf _ hmove

theorem rowLoop_spec : ∀ (rows : List Row) {threads : Threads} {seen : List Nat},
    Leaves program text pos rows → Sized program threads → Marked program threads seen →
    ∃ accepted threads' seeds leaves seen',
      rowLoop program text pos rows threads = .ok (accepted, threads') ∧
        threads'.output = threads.output ++ leaves ∧
        Harvest (machine program text) pos (rows.map Row.seed) seeds
          (accepted.map fun row => (pos, row.slots)) ∧
        Drains (machine program text) (pos + 1) seen seeds (leaves.map Row.seed) seen'
  | [], threads, seen, _, hsized, hmarked =>
    ⟨none, threads, [], [], seen, rfl, (append_nil _).symm, .nil, .nil⟩
  | row :: rows, threads, seen, hleaves, hsized, hmarked => by
    obtain ⟨hlt, hleaf⟩ := hleaves row mem_cons_self
    have hleaves' : Leaves program text pos rows :=
      fun r hr => hleaves r (mem_cons_of_mem _ hr)
    obtain ⟨instruction, hcode⟩ : ∃ instruction, program.code[row.pc]? = some instruction :=
      ⟨_, getElem?_eq_getElem hlt⟩
    rw [rowLoop, hcode]
    dsimp only
    split_ifs with haccept
    · have hmove : machine program text pos row.pc = .stop fun slots => (pos, slots) := by
        rw [machine, hcode]
        dsimp only
        rw [haccept]
      exact ⟨some row, threads, [], [], seen, rfl, (append_nil _).symm, .stop hmove, .nil⟩
    have hmove : machine program text pos row.pc =
        match text[pos]?.bind (consumes program.pattern instruction) with
        | some next => .advance next
        | none => .dead := by
      unfold machine at hleaf ⊢
      rw [hcode] at hleaf ⊢
      dsimp only at hleaf ⊢
      cases hop : instruction.op
      all_goals rw [hop] at hleaf
      all_goals
        first
          | rfl
          | exact absurd rfl (hleaf _)
          | exact absurd hop haccept
    cases hnext : text[pos]?.bind (consumes program.pattern instruction) with
    | none =>
      rw [hnext] at hmove
      obtain ⟨accepted, threads', seeds, leaves, seen', hloop, hout, hharvest, hdrains⟩ :=
        rowLoop_spec rows hleaves' hsized hmarked
      exact ⟨accepted, threads', seeds, leaves, seen', hloop, hout, .dead hmove hharvest, hdrains⟩
    | some next =>
      rw [hnext] at hmove
      obtain ⟨threads1, leaves1, seen1, hexpand, hout1, hsized1, hmarked1, hdrains1⟩ :=
        @expand_spec program text (pos + 1) { row with pc := next } threads seen hsized hmarked
      obtain ⟨accepted, threads', seeds, leaves, seen', hloop, hout, hharvest, hdrains⟩ :=
        rowLoop_spec rows hleaves' hsized1 hmarked1
      refine ⟨accepted, threads', (next, row.slots) :: seeds, leaves1 ++ leaves, seen', ?_, ?_,
        .advance hmove hharvest, ?_⟩
      · simp only [hexpand, bind, Except.bind]
        exact hloop
      · rw [hout, hout1, append_assoc]
      · rw [map_append]
        exact Drains.append _ hdrains1 hdrains

theorem harvest_end (hpos : text[pos]? = none) {rows : List (Nat × List Nat)}
    {stop : Option (Nat × List Nat)} (h : Harvest (machine program text) pos rows seeds stop) :
    seeds = [] := by
  induction h with
  | nil | stop move => rfl
  | dead move rest ih => exact ih
  | advance move rest ih =>
    exfalso
    unfold machine at move
    split at move
    · cases move
    · rw [hpos] at move
      split at move <;> cases move

/-- **The loop over the positions is the search position by position.** -/
theorem positionLoop_spec : ∀ (left : Nat) {pos : Nat} {rows : List Row}
    {found : Option (Nat × List Nat)}, pos + left = text.length → Leaves program text pos rows →
    ∃ result, positionLoop program text left pos rows found = .ok result ∧
      Sim (machine program text) pos (rows.map Row.seed) found result := by
  intro left
  induction left with
  | zero =>
    intro pos rows found hpos hleaves
    rw [positionLoop]
    by_cases hnil : rows = []
    · subst hnil
      exact ⟨found, rfl, .done⟩
    obtain ⟨accepted, threads, seeds, leaves, seen, hloop, hout, hharvest, hdrains⟩ :=
      rowLoop_spec rows hleaves (@unseen_sized program) unseen_marked
    have hend := harvest_end (getElem?_eq_none_iff.mpr (by omega)) hharvest
    subst hend
    generalize hl : leaves.map Row.seed = l at hdrains
    cases hdrains
    rw [if_neg hnil]
    simp only [hloop, bind, Except.bind]
    refine ⟨_, rfl, .step hharvest .nil ?_⟩
    cases accepted <;> exact .done
  | succ left ih =>
    intro pos rows found hpos hleaves
    rw [positionLoop]
    by_cases hnil : rows = []
    · subst hnil
      exact ⟨found, rfl, .done⟩
    obtain ⟨accepted, threads, seeds, leaves, seen, hloop, hout, hharvest, hdrains⟩ :=
      rowLoop_spec rows hleaves (@unseen_sized program) unseen_marked
    rw [if_neg hnil]
    simp only [hloop, bind, Except.bind]
    have hout' : threads.output = leaves := hout
    cases accepted with
    | none =>
      obtain ⟨result, hrest, hsim⟩ :=
        @ih (pos + 1) leaves found (by omega) (leaves_of_drains hdrains)
      exact ⟨result, by rw [hout']; exact hrest, .step hharvest hdrains hsim⟩
    | some row =>
      obtain ⟨result, hrest, hsim⟩ :=
        @ih (pos + 1) leaves (some (pos, row.slots)) (by omega) (leaves_of_drains hdrains)
      exact ⟨result, by rw [hout']; exact hrest, .step hharvest hdrains hsim⟩

def unset (program : Program) : List Nat := List.replicate (program.groups * 2) noPatch

/-- **The search from one start** finds the first path, if there is a path. -/
theorem attempt_spec {start : Nat} (h : start ≤ text.length) :
    ∃ result, attempt program text start = .ok result ∧ ((∃ r, result = some r ∧
          Least (machine program text) [] start program.start (unset program) r) ∨
        result = none ∧ Dead (machine program text) [] start program.start) := by
  obtain ⟨threads, leaves, seen, hexpand, hout, _, _, hdrains⟩ :=
    @expand_spec program text start ⟨program.start, unset program⟩ (unseen program) []
      unseen_sized unseen_marked
  obtain ⟨result, hloop, hsim⟩ := @positionLoop_spec program text (text.length - start) start leaves
    none (by omega) (leaves_of_drains hdrains)
  refine ⟨result, ?_, search_best hdrains hsim⟩
  have hout' : threads.output = leaves := hout
  unfold attempt
  rw [show replicate (program.groups * 2) noPatch = unset program from rfl]
  simp only [hexpand, bind, Except.bind, hout']
  exact hloop

inductive Finds (program : Program) (text : List UInt8) (first : Nat) (found : Found) : Prop
  | some {start finish : Nat} {slots : List Nat} (start_le : first ≤ start ∧ start ≤ text.length)
      (least : Least (machine program text) [] start program.start (unset program) (finish, slots))
      (before : ∀ i, first ≤ i → i < start → Dead (machine program text) [] i program.start)
      (found_eq : found = {
        value := { start := start, finish := finish, ok := true }
        captures := (List.range program.groups).map (captureOf slots) })
  | none (all : ∀ i, first ≤ i → i ≤ text.length → Dead (machine program text) [] i program.start)
      (found_eq : found = { value := {}, captures := List.replicate program.groups {} })

/-- **The loop over the starts** finds the least one that has a path. -/
theorem startLoop_spec (left start : Nat) (hstart : start + left = text.length) :
    ∃ found, startLoop program text left start = .ok found ∧ Finds program text start found := by
  obtain ⟨result, hattempt, hcases⟩ := @attempt_spec program text start (by omega)
  rw [startLoop.eq_def]
  simp only [hattempt, bind, Except.bind]
  rcases hcases with ⟨r, rfl, hleast⟩ | ⟨rfl, hdead⟩
  · exact ⟨_, rfl, .some ⟨le_rfl, by omega⟩ hleast (fun i h1 h2 => by omega) rfl⟩
  cases left with
  | zero =>
    refine ⟨_, rfl, .none (fun i h1 h2 => ?_) rfl⟩
    rw [show i = start by omega]
    exact hdead
  | succ left =>
    obtain ⟨found, hloop, hfinds⟩ := startLoop_spec left (start + 1) (by omega)
    have hsplit : ∀ i, start ≤ i → i = start ∨ start + 1 ≤ i := fun i _ => by omega
    refine ⟨found, hloop, ?_⟩
    cases hfinds with
    | some hle hleast hbefore hfound =>
      refine .some ⟨by omega, hle.2⟩ hleast (fun i h1 h2 => ?_) hfound
      rcases hsplit i h1 with rfl | hi
      · exact hdead
      · exact hbefore i hi h2
    | none hall hfound =>
      refine .none (fun i h1 h2 => ?_) hfound
      rcases hsplit i h1 with rfl | hi
      · exact hdead
      · exact hall i hi h2

theorem execute_spec (h : workspaceSize program.code.length program.groups ≠ 0)
    (h' : workspaceSize program.code.length program.groups ≤ program.workspace) {first : Nat}
    (hfirst : first ≤ text.length) :
    ∃ found, execute program text first = .ok found ∧ Finds program text first found := by
  unfold execute
  rw [if_neg (by omega), if_pos hfirst]
  exact startLoop_spec _ first (by omega)

theorem find_spec (h : workspaceSize program.code.length program.groups ≠ 0)
    (h' : workspaceSize program.code.length program.groups ≤ program.workspace) :
    ∃ found, find program text = .ok found ∧ Finds program text 0 found :=
  execute_spec h h' (Nat.zero_le _)

end Search

end Dyn.Regex
