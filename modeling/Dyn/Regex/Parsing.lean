import Dyn.Regex.Scanning

/-!
# The parser emits the tokens of a tree

Where the emission pass succeeds, its part of the pattern spells a tree, and the tokens
written are those of the expansion of that tree (`parse_sound`).
-/

namespace Dyn.Regex

open List

theorem ok_of_bind {x : Parsed} {f : CompileState → Parsed} {state : CompileState}
    (h : (x >>= f) = .ok state) : ∃ state', x = .ok state' ∧ f state' = .ok state := by
  cases x with
  | error e => cases h
  | ok state' => exact ⟨state', rfl, h⟩

/-- The emission pass writes the tokens that it counts. -/
structure Emitting (state : CompileState) : Prop where
  counting : state.counting = false
  used : state.used = state.tokens.length

/-- The tokens written from one state to another one. -/
structure Emits (state state' : CompileState) (items : List Instruction) : Prop extends
    Emitting state' where
  tokens : state'.tokens = state.tokens ++ items
  groups : state'.groups = state.groups

section Tokens

variable {state state' state'' : CompileState}

theorem Emitting.emits (h : Emitting state) : Emits state state [] :=
  ⟨h, (append_nil _).symm, rfl⟩

theorem Emits.trans {items items' : List Instruction} (h : Emits state state' items)
    (h' : Emits state' state'' items') : Emits state state'' (items ++ items') :=
  ⟨h'.toEmitting, by rw [h'.tokens, h.tokens, append_assoc], h'.groups.trans h.groups⟩

theorem token_emits {item : Instruction} (hstate : Emitting state) (h : token state item = .ok state') :
    Emits state state' [item] := by
  unfold token at h
  rw [hstate.counting] at h
  simp only [Bool.false_eq_true, if_false] at h
  split_ifs at h
  cases h
  refine ⟨⟨rfl, ?_⟩, rfl, rfl⟩
  rw [length_append, hstate.used]
  rfl

theorem emitAll_emits : ∀ {items : List Instruction} {state : CompileState}, Emitting state →
    emitAll items state = .ok state' → Emits state state' items
  | [], _, hstate, h => by
    cases h
    exact hstate.emits
  | item :: items, _, hstate, h => by
    obtain ⟨state1, h1, h2⟩ := ok_of_bind h
    have e1 := token_emits hstate h1
    exact e1.trans (emitAll_emits e1.toEmitting h2)

/-- The state after the tokens of an expanded tree. -/
structure Holds (state : CompileState) (before : List Instruction) (core : Core) (groups : Nat) : Prop
    extends Emitting state where
  tokens : state.tokens = before ++ core.postfixTokens
  groups : state.groups = groups

variable {before : List Instruction} {inner start : Core} {groups : Nat}

theorem copyLoop_holds : ∀ {n m : Nat} {state : CompileState},
    Holds state before (inner.copies m) groups →
    copyLoop inner.postfixTokens n state = .ok state' → Holds state' before (inner.copies (m + n)) groups
  | 0, _, _, hstate, h => by
    cases h
    exact hstate
  | n + 1, m, state, hstate, h => by
    obtain ⟨state1, h1, h⟩ := ok_of_bind h
    obtain ⟨state2, h2, h⟩ := ok_of_bind h
    have e1 := emitAll_emits hstate.toEmitting h1
    have e2 := token_emits e1.toEmitting h2
    have e := e1.trans e2
    have hholds : Holds state2 before (inner.copies (m + 1)) groups := by
      refine ⟨e.toEmitting, ?_, e.groups.trans hstate.groups⟩
      rw [e.tokens, hstate.tokens, Core.copies, Core.postfixTokens]
      simp only [append_assoc]
    have hrest := copyLoop_holds hholds h
    rwa [show m + 1 + n = m + (n + 1) by omega] at hrest

theorem extraLoop_succ (atom : List Instruction) (q : Quantifier) (n : Nat) (state : CompileState) :
    extraLoop atom q (n + 1) state = (emitAll atom state >>= fun state =>
      token state { op := .optionalToken } >>= fun state =>
        (if q.minimum > 0 ∨ n + 1 < q.maximum then token state { op := .concatToken } else .ok state) >>=
          extraLoop atom q n) := by
  rw [extraLoop]
  congr 1
  funext state
  congr 1
  funext state
  split_ifs
  · rfl
  · rfl

theorem extraLoop_holds {q : Quantifier} : ∀ {n m : Nat} {state : CompileState},
    (q.minimum > 0 ∨ n < q.maximum) → Holds state before (inner.extras start m) groups →
    extraLoop inner.postfixTokens q n state = .ok state' →
    Holds state' before (inner.extras start (m + n)) groups
  | 0, _, _, _, hstate, h => by
    cases h
    exact hstate
  | n + 1, m, state, hmore, hstate, h => by
    rw [extraLoop_succ] at h
    obtain ⟨state1, h1, h⟩ := ok_of_bind h
    obtain ⟨state2, h2, h⟩ := ok_of_bind h
    obtain ⟨state3, h3, h⟩ := ok_of_bind h
    rw [if_pos hmore] at h3
    have e1 := emitAll_emits hstate.toEmitting h1
    have e2 := token_emits e1.toEmitting h2
    have e3 := token_emits e2.toEmitting h3
    have e := (e1.trans e2).trans e3
    have hholds : Holds state3 before (inner.extras start (m + 1)) groups := by
      refine ⟨e.toEmitting, ?_, e.groups.trans hstate.groups⟩
      rw [e.tokens, hstate.tokens, Core.extras, Core.postfixTokens, Core.postfixTokens]
      simp only [append_assoc]
    have hrest := extraLoop_holds (hmore.imp id Nat.lt_of_succ_lt) hholds h
    rwa [show m + 1 + n = m + (n + 1) by omega] at hrest

theorem quantifyEmit_eq (state : CompileState) (first : Nat) (q : Quantifier) :
    quantifyEmit state first q =
      (let atom := state.tokens.drop first
       let state := if q.minimum = 0 then { state with tokens := state.tokens.take first, used := first }
         else state
       (if q.minimum = 0 ∧ q.maximum = 0 ∧ ¬ q.unbounded then token state { op := .jump } else .ok state) >>=
        fun state => copyLoop atom (q.minimum - 1) state >>= fun state =>
          if q.unbounded then
            emitAll atom state >>= fun state => token state { op := .starToken } >>= fun state =>
              if q.minimum > 0 then token state { op := .concatToken } else .ok state
          else if q.maximum > 0 then extraLoop atom q (q.maximum - q.minimum) state
          else .ok state) := by
  unfold quantifyEmit
  split_ifs <;> rfl

theorem quantifyEmit_holds {q : Quantifier} (hq : q.unbounded = false → q.minimum ≤ q.maximum)
    (hstate : Holds state before inner groups)
    (h : quantifyEmit state before.length q = .ok state') :
    Holds state' before (inner.repeated q.minimum q.most) groups := by
  have hatom : state.tokens.drop before.length = inner.postfixTokens := by
    rw [hstate.tokens, drop_left]
  have htake : state.tokens.take before.length = before := by
    rw [hstate.tokens, take_left]
  have hcut : Emitting { state with tokens := before, used := before.length } :=
    ⟨hstate.counting, rfl⟩
  rw [quantifyEmit_eq, hatom, htake] at h
  obtain ⟨state1, h1, g1⟩ := ok_of_bind h
  obtain ⟨state2, h2, g2⟩ := ok_of_bind g1
  obtain ⟨minimum, maximum, unbounded, after⟩ := q
  cases minimum with
  | zero =>
    cases h2
    rw [if_pos rfl] at h1
    cases unbounded with
    | true =>
      rw [if_neg (by simp)] at h1
      cases h1
      rw [if_pos rfl] at g2
      obtain ⟨state3, h3, g3⟩ := ok_of_bind g2
      obtain ⟨state4, h4, g4⟩ := ok_of_bind g3
      rw [if_neg (lt_irrefl 0)] at g4
      cases g4
      have e3 := emitAll_emits hcut h3
      have e := e3.trans (token_emits e3.toEmitting h4)
      exact ⟨e.toEmitting, e.tokens, e.groups.trans hstate.groups⟩
    | false =>
      rw [if_neg Bool.false_ne_true] at g2
      cases maximum with
      | zero =>
        rw [if_pos (by simp)] at h1
        rw [if_neg (lt_irrefl 0)] at g2
        cases g2
        have e := token_emits hcut h1
        exact ⟨e.toEmitting, e.tokens, e.groups.trans hstate.groups⟩
      | succ most =>
        rw [if_neg (by simp)] at h1
        cases h1
        rw [if_pos (Nat.succ_pos most), Nat.sub_zero, extraLoop_succ] at g2
        obtain ⟨state3, h3, g3⟩ := ok_of_bind g2
        obtain ⟨state4, h4, g4⟩ := ok_of_bind g3
        obtain ⟨state5, h5, g5⟩ := ok_of_bind g4
        rw [if_neg (by simp)] at h5
        cases h5
        have e3 := emitAll_emits hcut h3
        have e := e3.trans (token_emits e3.toEmitting h4)
        have hholds : Holds state4 before (inner.extras (.optional inner) 0) groups :=
          ⟨e.toEmitting, e.tokens, e.groups.trans hstate.groups⟩
        have hrest := extraLoop_holds (.inr (Nat.lt_succ_self most)) hholds g5
        rwa [zero_add] at hrest
  | succ n =>
    rw [if_neg (fun hc => Nat.succ_ne_zero n hc.1), if_neg (Nat.succ_ne_zero n)] at h1
    cases h1
    have hfirst : Holds state before (inner.copies 0) groups := hstate
    have hcopies := copyLoop_holds hfirst h2
    rw [zero_add, Nat.add_sub_cancel] at hcopies
    cases unbounded with
    | true =>
      rw [if_pos rfl] at g2
      obtain ⟨state3, h3, g3⟩ := ok_of_bind g2
      obtain ⟨state4, h4, g4⟩ := ok_of_bind g3
      rw [if_pos (Nat.succ_pos n)] at g4
      have e3 := emitAll_emits hcopies.toEmitting h3
      have e4 := token_emits e3.toEmitting h4
      have e := (e3.trans e4).trans (token_emits e4.toEmitting g4)
      refine ⟨e.toEmitting, ?_, e.groups.trans hcopies.groups⟩
      rw [e.tokens, hcopies.tokens]
      change _ = before ++ (Core.concat (inner.copies n) (.star inner)).postfixTokens
      rw [Core.postfixTokens, Core.postfixTokens]
      simp only [append_assoc]
    | false =>
      have hle : n + 1 ≤ maximum := hq rfl
      rw [if_neg Bool.false_ne_true, if_pos (show maximum > 0 by omega)] at g2
      have hholds : Holds state2 before (inner.extras (inner.copies n) 0) groups := hcopies
      have hrest := extraLoop_holds (.inl (Nat.succ_pos n)) hholds g2
      rwa [zero_add] at hrest

end Tokens

/-- The state after the tokens of a tree whose first group has number `g`. -/
abbrev Wrote (state : CompileState) (before : List Instruction) (g : Nat) (tree : Tree) : Prop :=
  Holds state before (tree.core g) (g + tree.groups)

section Parsing

variable (pattern : List UInt8) (lo : Nat) (before : List Instruction) (g : Nat)

/-- What the loop of `sequence` has done at index `i`. -/
inductive Sequenced : CompileState → Nat → Nat → Prop
  | none {state : CompileState} (emitting : Emitting state) (tokens : state.tokens = before)
      (groups : state.groups = g) : Sequenced state lo 0
  | some {state : CompileState} {i pieces : Nat} {left : Tree} (le : lo ≤ i)
      (spells : Spells lo .sequence left (slice pattern lo i)) (wrote : Wrote state before g left) :
      Sequenced state i (pieces + 1)

/-- What the loop of `expression` has done at the start of a branch. -/
inductive Branched : CompileState → Nat → Nat → Prop
  | none {state : CompileState} (emitting : Emitting state) (tokens : state.tokens = before)
      (groups : state.groups = g) : Branched state lo 0
  | some {state : CompileState} {bar branches : Nat} {left : Tree} (le : lo ≤ bar)
      (bar_eq : pattern[bar]? = some 124)
      (spells : Spells lo .expression left (slice pattern lo bar)) (wrote : Wrote state before g left) :
      Branched state (bar + 1) (branches + 1)

variable {pattern lo before g} {state state' : CompileState}

theorem Sequenced.emitting {i pieces : Nat} (h : Sequenced pattern lo before g state i pieces) :
    Emitting state := by
  cases h with
  | none emitting _ _ => exact emitting
  | some _ _ wrote => exact wrote.toEmitting

theorem Branched.emitting {branch branches : Nat}
    (h : Branched pattern lo before g state branch branches) : Emitting state := by
  cases h with
  | none emitting _ _ => exact emitting
  | some _ _ _ wrote => exact wrote.toEmitting

theorem Sequenced.step {i j pieces : Nat} {state1 : CompileState} {right : Tree}
    (h : Sequenced pattern lo before g state i pieces) (le : i ≤ j) (inside : j ≤ pattern.length)
    (spells : Spells i .piece right (slice pattern i j))
    (wrote : Wrote state1 state.tokens state.groups right)
    (joined : (if pieces > 0 then token state1 { op := .concatToken } else .ok state1) = .ok state') :
    Sequenced pattern lo before g state' j (pieces + 1) := by
  cases h with
  | none emitting tokens groups =>
    rw [if_neg (lt_irrefl 0)] at joined
    cases joined
    rw [tokens, groups] at wrote
    exact .some le (.first spells) wrote
  | @some _ pieces left le' spells' wrote' =>
    rw [if_pos (Nat.succ_pos pieces)] at joined
    have e := token_emits wrote.toEmitting joined
    rw [wrote'.groups] at wrote
    have hwrote : Wrote state' before g (.concat left right) := by
      refine ⟨e.toEmitting, ?_, ?_⟩
      · rw [e.tokens, wrote.tokens, wrote'.tokens, Tree.core, Core.postfixTokens]
        simp only [append_assoc]
      · rw [e.groups, wrote.groups, Tree.groups, add_assoc]
    refine .some (le_trans le' le) ?_ hwrote
    rw [← slice_append le' le]
    refine .concat spells' ?_
    rw [slice_length (le_trans le inside), Nat.add_sub_cancel' le']
    exact spells

theorem Branched.step {branch branches j : Nat} {state1 : CompileState} {right : Tree}
    (h : Branched pattern lo before g state branch branches) (le : branch ≤ j)
    (inside : j ≤ pattern.length) (spells : Spells branch .sequence right (slice pattern branch j))
    (wrote : Wrote state1 state.tokens state.groups right)
    (joined : (if branches > 0 then token state1 { op := .alternateToken } else .ok state1) =
      .ok state') : lo ≤ j ∧ ∃ tree, Spells lo .expression tree (slice pattern lo j) ∧
      Wrote state' before g tree := by
  cases h with
  | none emitting tokens groups =>
    rw [if_neg (lt_irrefl 0)] at joined
    cases joined
    rw [tokens, groups] at wrote
    exact ⟨le, right, .branch spells, wrote⟩
  | @some bar branches left le' bar_eq spells' wrote' =>
    rw [if_pos (Nat.succ_pos branches)] at joined
    have e := token_emits wrote.toEmitting joined
    rw [wrote'.groups] at wrote
    refine ⟨by omega, .alternate left right, ?_, e.toEmitting, ?_, ?_⟩
    · rw [← slice_append (show lo ≤ bar from le') (show bar ≤ j by omega),
        ← slice_append (show bar ≤ bar + 1 by omega) le, slice_one bar_eq]
      refine .alternate spells' ?_
      rw [slice_length (show bar ≤ pattern.length by omega), Nat.add_sub_cancel' le']
      exact spells
    · rw [e.tokens, wrote.tokens, wrote'.tokens, Tree.core, Core.postfixTokens]
      simp only [append_assoc]
    · rw [e.groups, wrote.groups, Tree.groups, add_assoc]

theorem expressionLoop_cons (fuel : Nat) (state : CompileState) (branch split : Nat) (ends : List Nat)
    (branches : Nat) : expressionLoop pattern (fuel + 1) state branch (split :: ends) branches =
      (sequenceLoop pattern fuel state branch split 0 >>= fun state =>
        (if branches > 0 then token state { op := .alternateToken } else .ok state) >>= fun state =>
          expressionLoop pattern fuel state (split + 1) ends (branches + 1)) := by
  rw [expressionLoop]
  congr 1
  funext state
  split_ifs
  · rfl
  · rfl

theorem sequenceLoop_succ (fuel : Nat) (state : CompileState) {i hi : Nat} (h : i < hi) (pieces : Nat)
    {result : Atom} (hatom : scanAtom pattern i hi = some result) :
    sequenceLoop pattern (fuel + 1) state i hi pieces =
      (atomTokens pattern fuel { state with offset := i } i result >>= fun state1 =>
        match scanQuantifier pattern (result.after i) hi with
        | some q => quantify state1 state.used q >>= fun state =>
          (if pieces > 0 then token state { op := .concatToken } else .ok state) >>= fun state =>
            sequenceLoop pattern fuel state q.after hi (pieces + 1)
        | none => (if pieces > 0 then token state1 { op := .concatToken } else .ok state1) >>= fun state =>
          sequenceLoop pattern fuel state (result.after i) hi (pieces + 1)) := by
  rw [sequenceLoop, if_pos h, hatom]
  dsimp only
  congr 1
  funext state1
  cases scanQuantifier pattern (result.after i) hi with
  | some q =>
    dsimp only
    congr 1
    funext state2
    split_ifs
    · rfl
    · rfl
  | none =>
    split_ifs
    · rfl
    · rfl

/-- **The parsing functions emit the tokens of what they pass over.** The induction is on the fuel,
which all three of them share. -/
theorem parse_sound (pattern : List UInt8) (fuel : Nat) :
    (∀ {state state' lo branch ends branches before g hi}, Ends pattern hi →
      Branched pattern lo before g state branch branches → Branches pattern hi branch ends →
      expressionLoop pattern fuel state branch ends branches = .ok state' →
      ∃ tree, Spells lo .expression tree (slice pattern lo hi) ∧ Wrote state' before g tree) ∧
    (∀ {state state' i hi result}, Begins pattern i hi result → hi ≤ pattern.length → Emitting state →
      atomTokens pattern fuel state i result = .ok state' → i < result.after i ∧ result.after i ≤ hi ∧
      ∃ tree, Spells i .atom tree (slice pattern i (result.after i)) ∧
        Wrote state' state.tokens state.groups tree) ∧
    ∀ {state state' lo i hi pieces before g}, Ends pattern hi → i ≤ hi →
      Sequenced pattern lo before g state i pieces →
      sequenceLoop pattern fuel state i hi pieces = .ok state' →
      ∃ tree, Spells lo .sequence tree (slice pattern lo hi) ∧ Wrote state' before g tree := by
  induction fuel with
  | zero =>
    refine ⟨?_, ?_, ?_⟩
    · intro state state' lo branch ends branches before g hi _ _ _ h
      rw [expressionLoop] at h
      cases h
    · intro state state' i hi result _ _ _ h
      rw [atomTokens] at h
      cases h
    intro state state' lo i hi pieces before g _ _ _ h
    rw [sequenceLoop] at h
    cases h
  | succ fuel ih =>
    obtain ⟨ihexpression, ihatom, ihsequence⟩ := ih
    refine ⟨?_, ?_, ?_⟩
    · intro state state' lo branch ends branches before g hi hends hbranched hbranches h
      cases ends with
      | nil => exact hbranches.elim
      | cons split ends =>
        obtain ⟨hle, hcases⟩ := hbranches
        rw [expressionLoop_cons] at h
        obtain ⟨state1, h1, g1⟩ := ok_of_bind h
        obtain ⟨state2, h2, g2⟩ := ok_of_bind g1
        have hsplit : Ends pattern split := by
          rcases hcases with ⟨_, rfl⟩ | ⟨hlt, hbar, _⟩
          · exact hends
          refine ⟨le_trans (le_of_lt hlt) hends.inside, fun byte hbyte => .inr ?_⟩
          rw [hbar] at hbyte
          cases hbyte
          rfl
        obtain ⟨right, hspells, hwrote⟩ :=
          ihsequence hsplit hle (.none hbranched.emitting rfl rfl) h1
        obtain ⟨hlo, tree, htree, hdone⟩ := hbranched.step hle hsplit.inside hspells hwrote h2
        rcases hcases with ⟨rfl, rfl⟩ | ⟨hlt, hbar, hrest⟩
        · cases fuel with
          | zero =>
            rw [expressionLoop] at g2
            cases g2
          | succ fuel =>
            rw [expressionLoop, if_pos (Nat.succ_pos branches)] at g2
            cases g2
            exact ⟨tree, htree, hdone⟩
        · exact ihexpression hends (.some hlo hbar htree hdone) hrest g2
    · intro state state' i hi result hbegins hinside hstate h
      cases hbegins with
      | @group close opens le lt closes =>
        have hends : Ends pattern close := by
          refine ⟨by omega, fun byte hbyte => .inl ?_⟩
          rw [closes] at hbyte
          cases hbyte
          rfl
        rw [atomTokens] at h
        obtain ⟨state1, h1, g1⟩ := ok_of_bind h
        obtain ⟨state2, h2, g2⟩ := ok_of_bind g1
        obtain ⟨state3, h3, g3⟩ := ok_of_bind g2
        obtain ⟨state4, h4, g4⟩ := ok_of_bind g3
        have e1 := @token_emits { state with groups := state.groups + 1 } _ _
          ⟨hstate.counting, hstate.used⟩ h1
        obtain ⟨inner, hspells, hwrote⟩ := ihexpression hends
          (.none e1.toEmitting e1.tokens e1.groups) (splits_spec le (by omega)) h2
        have e3 := token_emits hwrote.toEmitting h3
        have e4 := token_emits e3.toEmitting h4
        have e := (e3.trans e4).trans (token_emits e4.toEmitting g4)
        refine ⟨by simp only [Atom.after]; omega, lt, .group inner, ?_, e.toEmitting, ?_, ?_⟩
        · simp only [Atom.after]
          rw [← slice_append (show i ≤ i + 1 by omega) (show i + 1 ≤ close + 1 by omega),
            ← slice_append le (show close ≤ close + 1 by omega), slice_one opens, slice_one closes]
          exact .group hspells
        · rw [e.tokens, hwrote.tokens]
          simp only [Tree.core, Core.postfixTokens, append_assoc]
        rw [e.groups, hwrote.groups, Tree.groups]
        simp only
        omega
      | @charClass members hmembers text le =>
        rw [atomTokens] at h
        have e := token_emits hstate h
        refine ⟨by simp only [Atom.after]; omega, le, .charClass i (members.length + 2), ?_,
          e.toEmitting, e.tokens, e.groups⟩
        simp only [Atom.after]
        rw [text]
        exact .charClass hmembers
      | @escape byte text le =>
        rw [atomTokens] at h
        have e := token_emits hstate h
        refine ⟨by simp only [Atom.after]; omega, le, .char byte, ?_, e.toEmitting, e.tokens,
          e.groups⟩
        simp only [Atom.after]
        rw [text]
        exact .escape
      | @plain op byte tree spells core groups text le =>
        rw [atomTokens] at h
        have e := token_emits hstate h
        refine ⟨Nat.lt_succ_self i, le, tree, ?_, e.toEmitting, ?_, ?_⟩
        · simp only [Atom.after]
          rw [text]
          exact spells
        · rw [core]
          exact e.tokens
        · rw [groups]
          exact e.groups
    · intro state state' lo i hi pieces before g hends hle hsequenced h
      by_cases hlt : i < hi
      · cases hatom : scanAtom pattern i hi with
        | none =>
          rw [sequenceLoop, if_pos hlt, hatom] at h
          cases h
        | some result =>
          have hstate := hsequenced.emitting
          rw [sequenceLoop_succ fuel state hlt pieces hatom] at h
          obtain ⟨state1, h1, g1⟩ := ok_of_bind h
          obtain ⟨hlt', hle', tree, hspells, hwrote⟩ := @ihatom
            { state with offset := i } _ _ _ _ (scanAtom_spec hlt hends.inside hatom) hends.inside ⟨hstate.counting, hstate.used⟩ h1
          cases hq : scanQuantifier pattern (result.after i) hi with
          | none =>
            rw [hq] at g1
            obtain ⟨state2, h2, g2⟩ := ok_of_bind g1
            refine ihsequence hends hle' ?_ g2
            exact hsequenced.step (le_of_lt hlt') (le_trans hle' hends.inside)
              (.once hspells) hwrote h2
          | some q =>
            rw [hq] at g1
            obtain ⟨state2, h2, g2⟩ := ok_of_bind g1
            obtain ⟨state3, h3, g3⟩ := ok_of_bind g2
            obtain ⟨text, htext, hquantifies, hlt2, hle2⟩ := scanQuantifier_spec hle' hends hq
            rw [quantify, hwrote.counting, if_neg Bool.false_ne_true, hstate.used] at h2
            have hleast : q.unbounded = false → q.minimum ≤ q.maximum := fun hu =>
              hquantifies.le _ (by rw [Quantifier.most, hu]; rfl)
            have hholds := quantifyEmit_holds hleast hwrote h2
            refine ihsequence hends hle2 ?_ g3
            have hrepeated : Spells i .piece (.repeated tree q.minimum q.most)
                (slice pattern i q.after) := by
              rw [← slice_append (le_of_lt hlt') (le_of_lt hlt2), htext]
              exact .repeated hspells hquantifies
            exact hsequenced.step (by omega) (le_trans hle2 hends.inside) hrepeated hholds h3
      · obtain rfl : i = hi := by omega
        rw [sequenceLoop, if_neg hlt] at h
        cases hsequenced with
        | none _ _ _ => cases h
        | some le spells wrote =>
          rw [if_pos (Nat.succ_pos _)] at h
          cases h
          exact ⟨_, spells, wrote⟩

theorem expression_sound {room : Nat} {state : CompileState}
    (h : expression pattern { room := room } 0 pattern.length = .ok state) :
    ∃ tree, Spells 0 .expression tree pattern ∧ state.tokens = (tree.core 0).postfixTokens ∧
      state.groups = tree.groups := by
  have hends : Ends pattern pattern.length := by
    refine ⟨le_rfl, fun byte hbyte => ?_⟩
    rw [getElem?_eq_none le_rfl] at hbyte
    cases hbyte
  obtain ⟨tree, hspells, hwrote⟩ := (parse_sound pattern _).1 hends
    (.none ⟨rfl, rfl⟩ rfl rfl) (splits_spec (Nat.zero_le _) le_rfl) h
  rw [slice_all] at hspells
  exact ⟨tree, hspells, hwrote.tokens, by rw [hwrote.groups, Nat.zero_add]⟩

end Parsing

end Dyn.Regex
