import Mathlib.Data.List.Perm.Subperm
import Mathlib.Order.Bounds.Basic
import Mathlib.Tactic

/-!
# Archive members that a Wasm link selects

The linker goes through the members of all archives again and again.  It takes a member that has a
definition for a symbol that is still undefined, until a pass takes none.

Where no name has definitions in two members, the members that are taken are the least set that is
closed under need (`members_least`), whatever the order.  Two weak definitions of one name are enough
to break this: the first one in the order is taken.
-/

namespace Dyn.Wasm

structure Symbol where
  name : Option (List UInt8)
  kind : Nat
  flags : Nat
deriving DecidableEq

structure Object where
  symbols : List Symbol
deriving DecidableEq

inductive Fault
  | symbolKindMismatch (name : List UInt8)
  | duplicateSymbol (name : List UInt8)
deriving DecidableEq

/-- The symbol is a definition of the name that other objects see. -/
def Symbol.defines (v : Symbol) (name : List UInt8) : Bool :=
  v.flags &&& 16 == 0 && v.flags &&& 3 != 2 && v.name == some name

def Object.defines (o : Object) (name : List UInt8) : Bool := o.symbols.any (·.defines name)

/-- One turn of the search for the best definition: a strong one goes before a weak one. -/
def better (s : Symbol) (name : List UInt8) (best : Option Symbol) (v : Symbol) :
    Except Fault (Option Symbol) :=
  if !v.defines name then .ok best
  else if v.kind ≠ s.kind then .error (.symbolKindMismatch name)
  else if best.any (·.flags &&& 1 == 0) && v.flags &&& 1 == 0 then .error (.duplicateSymbol name)
  else if best.isNone || v.flags &&& 1 == 0 then .ok (some v)
  else .ok best

def definition (objects : List Object) (s : Symbol) : Except Fault (Option Symbol) :=
  match s.name with
  | none => .ok (some s)
  | some name =>
      if s.flags &&& 3 = 2 then .ok (some s)
      else (objects.flatMap (·.symbols)).foldlM (better s name) none

/-- The object defines the symbol, which has no definition yet. -/
def wants (objects : List Object) (o : Object) (y : Symbol) : Except Fault Bool :=
  match y.name with
  | none => .ok false
  | some name =>
      if y.flags &&& 16 = 0 then .ok false
      else return (← definition objects y).isNone && o.defines name

def needed (objects : List Object) (o : Object) : Except Fault Bool :=
  (objects.flatMap (·.symbols)).anyM (wants objects o)

structure Candidate where
  object : Object
  selected : Bool
deriving DecidableEq

structure Link where
  objects : List Object
  candidates : List Candidate
deriving DecidableEq

def taken (objects : List Object) (c : Candidate) : Except Fault Bool :=
  if c.selected then .ok false else needed objects c.object

/-- One pass over the candidates; the flag tells that one of them was selected. -/
def pass (objects : List Object) : List Candidate → Except Fault (Link × Bool)
  | [] => .ok (⟨objects, []⟩, false)
  | c :: cs => do
      let take ← taken objects c
      let (l, changed) ← pass (if take then objects ++ [c.object] else objects) cs
      return (⟨l.objects, ⟨c.object, c.selected || take⟩ :: l.candidates⟩, take || changed)

/-- Passes until nothing changes; `none` where the rounds do not suffice. -/
def passes : Nat → Link → Option (Except Fault Link)
  | 0, _ => none
  | rounds + 1, l =>
      match pass l.objects l.candidates with
      | .error fault => some (.error fault)
      | .ok (l, true) => passes rounds l
      | .ok (l, false) => some (.ok l)

/-- The selection of `inputs`, behind the reading of the files. -/
def inputs (objects members : List Object) : Option (Except Fault Link) :=
  passes (members.length + 1) ⟨objects, members.map (⟨·, false⟩)⟩

def Link.chosen (l : Link) : Set Object := {o | ⟨o, true⟩ ∈ l.candidates}

def Symbol.seeks (y : Symbol) (name : List UInt8) : Prop :=
  y.name = some name ∧ y.flags &&& 16 ≠ 0 ∧ y.flags &&& 3 ≠ 2

def Undefined (S : Set Object) (name : List UInt8) : Prop := ∃ o ∈ S, ∃ y ∈ o.symbols, y.seeks name

def Defined (S : Set Object) (name : List UInt8) : Prop := ∃ o ∈ S, o.defines name

/-- The object defines a symbol that is undefined in the set, and not defined by it. -/
def Wanted (S : Set Object) (o : Object) : Prop :=
  ∃ name, Undefined S name ∧ ¬ Defined S name ∧ o.defines name

/-- **Need only:** a set of members that has each member which it wants. -/
def Closed (objects members : List Object) (M : Set Object) : Prop :=
  ∀ m ∈ members, Wanted ({o | o ∈ objects} ∪ M) m → m ∈ M

/-- No name has definitions in two members. -/
def Once (members : List Object) : Prop :=
  members.Pairwise fun a b => ∀ name, ¬ (a.defines name ∧ b.defines name)

variable {objects : List Object} {c : Candidate} {cs : List Candidate} {l : Link} {changed : Bool}

/-- A search that succeeds finds nothing only where there is nothing. -/
theorem search_none {s : Symbol} {name : List UInt8} : ∀ {vs : List Symbol} {best found : Option Symbol},
    vs.foldlM (better s name) best = .ok found →
      (found = none ↔ best = none ∧ ∀ v ∈ vs, v.defines name = false)
  | [], best, found, h => by
      cases h
      simp
  | v :: vs, best, found, h => by
      rw [List.foldlM_cons] at h
      cases hv : better s name best v with
      | error fault => rw [hv] at h; cases h
      | ok next =>
          rw [hv] at h
          rw [search_none h, List.forall_mem_cons, ← and_assoc]
          refine and_congr_left fun _ => ?_
          unfold better at hv
          split_ifs at hv <;> cases hv <;> simp_all

theorem definition_none {y : Symbol} {name : List UInt8} {found : Option Symbol}
    (hname : y.name = some name) (h : definition objects y = .ok found) :
    found = none ↔ y.flags &&& 3 ≠ 2 ∧ ¬ Defined {o | o ∈ objects} name := by
  unfold definition at h
  rw [hname] at h
  split_ifs at h with hlocal
  · cases h
    simp [hlocal]
  rw [search_none h]
  simp only [Defined, Object.defines, Set.mem_ofPred_eq, List.mem_flatMap, List.any_eq_true]
  grind

theorem wants_iff {o : Object} {y : Symbol} {b : Bool} (h : wants objects o y = .ok b) :
    b = true ↔ ∃ name, y.seeks name ∧ ¬ Defined {o | o ∈ objects} name ∧ o.defines name := by
  unfold wants at h
  split at h
  · rename_i hname
    cases h
    simp [Symbol.seeks, hname]
  rename_i hname
  split_ifs at h with hflag
  · cases h
    simp [Symbol.seeks, hflag]
  cases hdef : definition objects y with
  | error fault => rw [hdef] at h; cases h
  | ok found =>
      rw [hdef] at h
      cases h
      simp [Symbol.seeks, hname, hflag, definition_none hname hdef, and_assoc]

theorem anyM_iff {P : Symbol → Prop} {f : Symbol → Except Fault Bool}
    (hf : ∀ y b, f y = .ok b → (b = true ↔ P y)) : ∀ {ys : List Symbol} {b : Bool},
    ys.anyM f = .ok b → (b = true ↔ ∃ y ∈ ys, P y)
  | [], b, h => by
      cases h
      simp
  | y :: ys, b, h => by
      rw [List.exists_mem_cons_iff]
      unfold List.anyM at h
      cases hy : f y with
      | error fault => rw [hy] at h; cases h
      | ok found =>
          rw [hy] at h
          cases found with
          | true =>
              cases h
              exact iff_of_true rfl (.inl ((hf y true hy).mp rfl))
          | false => rw [anyM_iff hf h, or_iff_right fun hP => absurd ((hf y false hy).mpr hP) nofun]

theorem needed_wanted {o : Object} {b : Bool} (h : needed objects o = .ok b) :
    b = true ↔ Wanted {o | o ∈ objects} o := by
  rw [anyM_iff (fun _ _ => wants_iff) h]
  simp only [Wanted, Undefined, List.mem_flatMap, Set.mem_ofPred_eq]
  grind

/-- What a pass does with each candidate. -/
inductive Visits : List Object → List Candidate → Link → Bool → Prop
  | done (os : List Object) : Visits os [] ⟨os, []⟩ false
  | keep {os : List Object} {c : Candidate} {rest : List Candidate} {l : Link} {b : Bool}
      (hc : c.selected = true ∨ ¬ Wanted {o | o ∈ os} c.object) (h : Visits os rest l b) :
      Visits os (c :: rest) { l with candidates := c :: l.candidates } b
  | take {os : List Object} {c : Candidate} {rest : List Candidate} {l : Link} {b : Bool}
      (hc : c.selected = false) (hw : Wanted {o | o ∈ os} c.object)
      (h : Visits (os ++ [c.object]) rest l b) :
      Visits os (c :: rest) { l with candidates := { c with selected := true } :: l.candidates } true

theorem pass_visits : ∀ {cs : List Candidate} {objects : List Object} {l : Link} {changed : Bool},
    pass objects cs = .ok (l, changed) → Visits objects cs l changed
  | [], objects, l, changed, h => by
      cases h
      exact .done objects
  | ⟨o, selected⟩ :: cs, objects, l, changed, h => by
      unfold pass at h
      cases ht : taken objects ⟨o, selected⟩ with
      | error fault => rw [ht] at h; cases h
      | ok take =>
          rw [ht] at h
          cases hp : pass (if take then objects ++ [o] else objects) cs with
          | error fault => simp [bind, Except.bind, hp] at h
          | ok out =>
              simp only [bind, Except.bind, hp, pure, Except.pure, Except.ok.injEq, Prod.mk.injEq] at h
              obtain ⟨rfl, rfl⟩ := h
              have hv := pass_visits hp
              cases selected with
              | true =>
                  cases ht
                  exact .keep (.inl rfl) hv
              | false =>
                  have hw := needed_wanted ht
                  cases take with
                  | true => exact .take rfl (hw.mp rfl) hv
                  | false => exact .keep (.inr fun h => absurd (hw.mpr h) nofun) hv

/-- Behind a prefix that has taken `P`, the objects are those and the candidates that are selected. -/
theorem Visits.objects_iff (h : Visits objects cs l changed) : ∀ {P : Object → Prop},
    (∀ o, o ∈ objects ↔ P o ∨ ⟨o, true⟩ ∈ cs) → ∀ o, o ∈ l.objects ↔ P o ∨ ⟨o, true⟩ ∈ l.candidates := by
  induction h with
  | done => exact fun h => h
  | @keep os c rest l b _ _ ih =>
      intro P hP
      have := ih (P := fun o => P o ∨ ⟨o, true⟩ = c) fun o => by rw [hP, List.mem_cons, or_assoc]
      exact fun o => by rw [this, List.mem_cons, or_assoc]
  | @take os c rest l b hc _ _ ih =>
      intro P hP
      have hne (o : Object) : (⟨o, true⟩ : Candidate) ≠ c := fun h => by simp [← h] at hc
      have := ih (P := fun o => P o ∨ o = c.object) fun o => by
        simp only [List.mem_append, hP, List.mem_cons, hne, false_or, List.not_mem_nil, or_false]
        exact or_right_comm
      exact fun o => by simp [this, or_assoc]

/-- Whatever holds of all members that are wanted on the way holds of the selected ones. -/
theorem Visits.chosen {B M : Set Object} (h : Visits objects cs l changed)
    (hB : ∀ o ∈ B, o ∈ objects) (hM : ∀ o ∈ objects, o ∈ B ∪ M)
    (hwant : ∀ S, B ⊆ S → S ⊆ B ∪ M → ∀ c ∈ cs, Wanted S c.object → c.object ∈ M)
    (hcs : ∀ o, ⟨o, true⟩ ∈ cs → o ∈ M) : ∀ o, ⟨o, true⟩ ∈ l.candidates → o ∈ M := by
  induction h with
  | done => exact hcs
  | keep _ _ ih =>
      have := ih hB hM (fun S h1 h2 c hc => hwant S h1 h2 c (.tail _ hc)) fun o ho => hcs o (.tail _ ho)
      intro o ho
      rcases List.mem_cons.mp ho with rfl | ho
      · exact hcs o (.head _)
      · exact this o ho
  | @take os c rest l b _ hw _ ih =>
      have hc : c.object ∈ M := hwant _ hB hM c (.head _) hw
      have := ih (fun o ho => List.mem_append_left _ (hB o ho))
        (fun o ho => by
          rcases List.mem_append.mp ho with ho | ho
          · exact hM o ho
          · exact .inr (List.mem_singleton.mp ho ▸ hc))
        (fun S h1 h2 c hc => hwant S h1 h2 c (.tail _ hc)) fun o ho => hcs o (.tail _ ho)
      intro o ho
      rcases List.mem_cons.mp ho with ho | ho
      · cases ho
        exact hc
      · exact this o ho

theorem Visits.members (h : Visits objects cs l changed) :
    l.candidates.map (·.object) = cs.map (·.object) := by
  induction h with
  | done => rfl
  | keep _ _ ih | take _ _ _ ih => rw [List.map_cons, List.map_cons, ih]

def waiting (cs : List Candidate) : Nat := cs.countP (!·.selected)

theorem Visits.waiting (h : Visits objects cs l changed) :
    Wasm.waiting l.candidates + changed.toNat ≤ Wasm.waiting cs := by
  induction h with
  | done => exact le_rfl
  | @keep os c rest l b _ _ ih =>
      simp only [Wasm.waiting, List.countP_cons] at ih ⊢
      omega
  | @take os c rest l b hc _ _ ih =>
      simp only [Wasm.waiting, List.countP_cons, hc, Bool.not_true, Bool.toNat_true] at ih ⊢
      simp
      omega

/-- A pass that changes nothing leaves out only what is not wanted. -/
theorem Visits.settled (h : Visits objects cs l changed) (hb : changed = false) :
    l = ⟨objects, cs⟩ ∧ ∀ c ∈ cs, c.selected = true ∨ ¬ Wanted {o | o ∈ objects} c.object := by
  induction h with
  | done => exact ⟨rfl, by simp⟩
  | keep hc _ ih =>
      obtain ⟨rfl, hrest⟩ := ih hb
      exact ⟨rfl, List.forall_mem_cons.mpr ⟨hc, hrest⟩⟩
  | take => cases hb

theorem Once.eq {members : List Object} (h : Once members) {a b : Object} (ha : a ∈ members)
    (hb : b ∈ members) {name : List UInt8} (hna : a.defines name) (hnb : b.defines name) : a = b := by
  by_contra hne
  have : Std.Symm fun a b : Object => ∀ name, ¬ (a.defines name ∧ b.defines name) :=
    ⟨fun _ _ h name hn => h name hn.symm⟩
  exact List.Pairwise.forall h ha hb hne name ⟨hna, hnb⟩

theorem Closed.mem {members : List Object} {M S : Set Object} (hclosed : Closed objects members M)
    (honce : Once members) (hM : ∀ o ∈ M, o ∈ members) (hB : {o | o ∈ objects} ⊆ S)
    (hS : S ⊆ {o | o ∈ objects} ∪ M) {m : Object} (hm : m ∈ members) (hw : Wanted S m) : m ∈ M := by
  obtain ⟨name, ⟨o, ho, y, hy, hs⟩, hd, hdef⟩ := hw
  by_contra hnot
  refine hnot (hclosed m hm ⟨name, ⟨o, hS ho, y, hy, hs⟩, ?_, hdef⟩)
  rintro ⟨o, ho | ho, hdo⟩
  · exact hd ⟨o, hB ho, hdo⟩
  · exact hnot (honce.eq (hM o ho) hm hdo hdef ▸ ho)

/-- **The invariant of the passes:** the objects are the first ones and the members that were taken,
and those are in every closed set. -/
structure Selection (objects members : List Object) (l : Link) : Prop where
  same : l.candidates.map (·.object) = members
  taken : ∀ o, o ∈ l.objects ↔ o ∈ objects ∨ o ∈ l.chosen
  least : ∀ M : Set Object, (∀ o ∈ M, o ∈ members) → Closed objects members M → l.chosen ⊆ M

theorem Selection.pass {members : List Object} (honce : Once members) {l' : Link}
    (hl : Selection objects members l) (h : Visits l.objects l.candidates l' changed) :
    Selection objects members l' where
  same := h.members.trans hl.same
  taken := h.objects_iff hl.taken
  least M hM hclosed := by
    refine h.chosen (fun o ho => (hl.taken o).mpr (.inl ho)) (fun o ho => ?_)
      (fun S hB hS c hc hw => hclosed.mem honce hM hB hS ?_ hw) (hl.least M hM hclosed)
    · exact ((hl.taken o).mp ho).imp_right (hl.least M hM hclosed ·)
    · exact hl.same ▸ List.mem_map_of_mem hc

theorem Selection.closed {members : List Object} (hl : Selection objects members l)
    (hdone : ∀ c ∈ l.candidates, c.selected = true ∨ ¬ Wanted {o | o ∈ l.objects} c.object) :
    Closed objects members l.chosen := by
  intro m hm hw
  have hset : {o | o ∈ l.objects} = {o | o ∈ objects} ∪ l.chosen := Set.ext hl.taken
  rw [← hset] at hw
  rw [← hl.same] at hm
  obtain ⟨⟨o, selected⟩, hc, rfl⟩ := List.mem_map.mp hm
  rcases hdone _ hc with rfl | hnot
  · exact hc
  · exact absurd hw hnot

/-- The passes come to an end, and a selection that is returned is closed. -/
theorem passes_spec {members : List Object} (honce : Once members) : ∀ {rounds : Nat} {l : Link},
    waiting l.candidates < rounds → Selection objects members l →
      ∃ outcome, passes rounds l = some outcome ∧
        ∀ l', outcome = .ok l' → Selection objects members l' ∧ Closed objects members l'.chosen
  | 0, _, hrounds, _ => absurd hrounds (Nat.not_lt_zero _)
  | rounds + 1, l, hrounds, hl => by
      unfold passes
      cases hp : pass l.objects l.candidates with
      | error fault => exact ⟨_, rfl, nofun⟩
      | ok out =>
          obtain ⟨l', changed⟩ := out
          have hv := pass_visits hp
          cases changed with
          | true =>
              refine passes_spec honce ?_ (hl.pass honce hv)
              have := hv.waiting
              rw [Bool.toNat_true] at this
              omega
          | false =>
              refine ⟨_, rfl, ?_⟩
              rintro _ ⟨⟩
              obtain ⟨rfl, hdone⟩ := hv.settled rfl
              exact ⟨hl, hl.closed hdone⟩

/-- **Members are selected by need only:** the passes end; unless a fault of the symbols stops them,
they take the least closed set of members, which does not depend on their order. -/
theorem members_least (objects members : List Object) (honce : Once members) :
    ∃ outcome, inputs objects members = some outcome ∧ ∀ l, outcome = .ok l →
      l.candidates.map (·.object) = members ∧
      IsLeast {M | (∀ o ∈ M, o ∈ members) ∧ Closed objects members M} l.chosen ∧
      ∀ members' l', members.Perm members' → inputs objects members' = some (.ok l') →
        l'.chosen = l.chosen := by
  have hrun (ms : List Object) (h : Once ms) : ∃ outcome, inputs objects ms = some outcome ∧
      ∀ l, outcome = .ok l → l.candidates.map (·.object) = ms ∧
        IsLeast {M | (∀ o ∈ M, o ∈ ms) ∧ Closed objects ms M} l.chosen := by
    have hstart : Selection objects ms ⟨objects, ms.map (⟨·, false⟩)⟩ :=
      ⟨by simp [Function.comp_def], by simp [Link.chosen], by simp [Link.chosen]⟩
    obtain ⟨outcome, heq, hok⟩ := passes_spec h
      (Nat.lt_succ_of_le (List.countP_le_length.trans (List.length_map _).le)) hstart
    refine ⟨outcome, heq, fun l hl => ?_⟩
    obtain ⟨hsel, hclosed⟩ := hok l hl
    refine ⟨hsel.same, ⟨fun o ho => ?_, hclosed⟩, fun M hM => hsel.least M hM.1 hM.2⟩
    exact hsel.same ▸ List.mem_map_of_mem (f := (·.object)) ho
  obtain ⟨outcome, heq, hok⟩ := hrun members honce
  refine ⟨outcome, heq, fun l hl => ⟨(hok l hl).1, (hok l hl).2, fun members' l' hperm heq' => ?_⟩⟩
  obtain ⟨_, h, hok'⟩ := hrun members' (hperm.pairwise honce fun h name hn => h name hn.symm)
  have hleast' := (hok' l' (Option.some.inj (h.symm.trans heq'))).2
  simp only [Closed, hperm.symm.mem_iff] at hleast'
  exact hleast'.unique (hok l hl).2

def caller : Object := ⟨[⟨some [97], 0, 16⟩]⟩

/-- A member with a weak definition of `a`, and a strong one of its own. -/
def weakly (byte : UInt8) : Object := ⟨[⟨some [97], 0, 1⟩, ⟨some [byte], 0, 0⟩]⟩

theorem members_least_called : ∃ l, inputs [caller] [weakly 98, ⟨[⟨some [99], 0, 0⟩]⟩] = some (.ok l) ∧
    IsLeast {M | (∀ o ∈ M, o ∈ [weakly 98, ⟨[⟨some [99], 0, 0⟩]⟩]) ∧
      Closed [caller] [weakly 98, ⟨[⟨some [99], 0, 0⟩]⟩] M} l.chosen := by
  have honce : Once [weakly 98, ⟨[⟨some [99], 0, 0⟩]⟩] := by
    simp [Once, weakly, Object.defines, Symbol.defines]
    grind
  have hrun : inputs [caller] [weakly 98, ⟨[⟨some [99], 0, 0⟩]⟩] = some (.ok
      ⟨[caller, weakly 98], [⟨weakly 98, true⟩, ⟨⟨[⟨some [99], 0, 0⟩]⟩, false⟩]⟩) := rfl
  obtain ⟨_, heq, hok⟩ := members_least [caller] _ honce
  exact ⟨_, hrun, (hok _ (Option.some.inj (heq.symm.trans hrun))).2.1⟩

/-- No name has strong definitions in two members. -/
def StrongOnce (members : List Object) : Prop :=
  members.Pairwise fun a b => ∀ name, ¬ ((∃ v ∈ a.symbols, v.defines name ∧ v.flags &&& 1 = 0) ∧
    ∃ v ∈ b.symbols, v.defines name ∧ v.flags &&& 1 = 0)

/-- Of two weak definitions the first is taken; a second strong one beside an object stops the link. -/
theorem members_in_order : ¬ (∀ objects members members', StrongOnce members → members.Perm members' →
    ∀ l l', inputs objects members = some (.ok l) → inputs objects members' = some (.ok l') →
      l'.chosen = l.chosen) ∧
    inputs [⟨[⟨some [97], 0, 16⟩, ⟨some [98], 0, 16⟩, ⟨some [98], 0, 0⟩]⟩] [weakly 98, ⟨[]⟩] =
      some (.error (.duplicateSymbol [98])) := by
  refine ⟨fun h => ?_, rfl⟩
  have hstrong : StrongOnce [weakly 98, weakly 99] := by
    simp [StrongOnce, weakly, Symbol.defines]
  have hsame := h [caller] _ _ hstrong (.swap _ _ _)
    ⟨[caller, weakly 98], [⟨weakly 98, true⟩, ⟨weakly 99, false⟩]⟩
    ⟨[caller, weakly 99], [⟨weakly 99, true⟩, ⟨weakly 98, false⟩]⟩ rfl rfl
  have hmem : weakly 98 ∈ Link.chosen ⟨[caller, weakly 98], [⟨weakly 98, true⟩, ⟨weakly 99, false⟩]⟩ :=
    .head _
  rw [← hsame] at hmem
  exact absurd hmem (by simp [Link.chosen, weakly])

end Dyn.Wasm
