import Dyn.Json.Reparse

/-!
# std/encoding/json: building trees and writing them

Trees are built by calls of `make_*`, `add` and `add_member`, in any order.  The invariant is
that the nodes are the disjoint union of trees (`Forested`): a call makes a new tree of one
node, or grafts one tree to a node of another.

`encode_round_trips` says which trees survive writing and parsing.  The writer counts nodes on
a path and the parser counts brackets, so they differ on a container at depth 256.
-/

namespace Dyn.Json

open Unicode List Function

def makeNull (nodes : Nodes) : Nat × Nodes := node nodes .Null

def makeBool (nodes : Nodes) (value : Bool) : Nat × Nodes :=
  let (result, nodes) := node nodes .Bool
  (result, nodes.set result { nodes.value result with boolean := value })

def makeNumber (nodes : Nodes) (text : List UInt8) : Option Nat × Nodes :=
  if (number text).1 = false ∨ (number text).2 ≠ [] then (none, nodes)
  else
    let (result, nodes) := node nodes .Number
    (some result, nodes.set result { nodes.value result with text := text })

def makeString (nodes : Nodes) (text : List UInt8) : Nat × Nodes :=
  let (result, nodes) := node nodes .String
  (result, nodes.set result { nodes.value result with text := text })

def makeArray (nodes : Nodes) : Nat × Nodes := node nodes .Array

def makeObject (nodes : Nodes) : Nat × Nodes := node nodes .Object

/-- The loop of `can_append` over the ancestors of the parent; the bound on their number ends
it. -/
def ancestorLoop (nodes : Nodes) (child : Nat) : Nat → Nat → Option Nat → Bool
  | _, _, none => true
  | 0, _, some _ => false
  | fuel + 1, depth, some ancestor =>
      if ancestor = child ∨ depth > MaximumDepth then false
      else ancestorLoop nodes child fuel (depth + 1) (nodes.value ancestor).parent

def canAppend (nodes : Nodes) : Option Nat → Option Nat → Bool
  | some parent, some child =>
      if (nodes.value child).parent ≠ none ∨ (nodes.value child).next ≠ none then false
      else if (nodes.value parent).kind ≠ .Array ∧ (nodes.value parent).kind ≠ .Object then false
      else ancestorLoop nodes child (MaximumDepth + 2) 0 (some parent)
  | _, _ => false

def add (nodes : Nodes) (parent child : Option Nat) : Bool × Nodes :=
  match canAppend nodes parent child, parent, child with
  | true, some parent, some child => (true, append nodes parent child)
  | _, _, _ => (false, nodes)

def addMember (nodes : Nodes) (parent : Option Nat) (key : List UInt8) (child : Option Nat) :
    Bool × Nodes :=
  match canAppend nodes parent child, parent, child with
  | true, some parent, some child =>
      if (nodes.value parent).kind ≠ .Object then (false, nodes)
      else
        (true, append (nodes.set child { nodes.value child with key := key }) parent child)
  | _, _, _ => (false, nodes)

inductive Call where
  | makeNull
  | makeBool (value : Bool)
  | makeNumber (text : List UInt8)
  | makeString (text : List UInt8)
  | makeArray
  | makeObject
  | add (parent child : Option Nat)
  | addMember (parent : Option Nat) (key : List UInt8) (child : Option Nat)

def Call.run (nodes : Nodes) : Call → Nodes
  | .makeNull => (Json.makeNull nodes).2
  | .makeBool value => (Json.makeBool nodes value).2
  | .makeNumber text => (Json.makeNumber nodes text).2
  | .makeString text => (Json.makeString nodes text).2
  | .makeArray => (Json.makeArray nodes).2
  | .makeObject => (Json.makeObject nodes).2
  | .add parent child => (Json.add nodes parent child).2
  | .addMember parent key child => (Json.addMember nodes parent key child).2

/-- The arguments are nil or nodes that were made before. -/
def Call.Valid (nodes : Nodes) : Call → Prop
  | .add parent child => (∀ p, parent = some p → p < nodes.used) ∧ ∀ c, child = some c → c < nodes.used
  | .addMember parent _ child =>
      (∀ p, parent = some p → p < nodes.used) ∧ ∀ c, child = some c → c < nodes.used
  | _ => True

inductive Reachable : Nodes → Prop
  | start {nodes : Nodes} : nodes.used = 0 → Reachable nodes
  | call {nodes : Nodes} (c : Call) : Reachable nodes → c.Valid nodes → Reachable (c.run nodes)

/-- The nodes are disjoint trees in normal form. -/
def Forested (nodes : Nodes) : Prop :=
  ∃ roots : List Shape, (∀ S ∈ roots, S.forest.Normal false ∧ Holds nodes.value none S ∧
    ∃ p datum first, S = .node p datum [] first .nil) ∧
    (roots.flatMap Shape.ids).Perm (List.range nodes.used)

variable {nodes : Nodes} {value : Nat → Value}

variable {roots : List Shape} {q : Nat} {key : List UInt8} {p : Nat} (n : Nat)

theorem Forested.root (h : (roots.flatMap Shape.ids).Perm (List.range nodes.used))
    (hq : q < nodes.used) : ∃ S ∈ roots, q ∈ S.ids :=
  mem_flatMap.mp (h.mem_iff.mpr (mem_range.mpr hq))

theorem roots_nodup (h : (roots.flatMap Shape.ids).Perm (List.range nodes.used)) :
    (roots.flatMap Shape.ids).Nodup :=
  h.nodup_iff.mpr nodup_range

theorem Forested.push {nodes : Nodes} (h : Forested nodes) {datum : Datum} {v : Value}
    (hv : v = nodeValue datum [] .nil .nil none) (hn : datum.Normal) :
    Forested { value := update nodes.value nodes.used v, used := nodes.used + 1 } := by
  obtain ⟨roots, hroots, hperm⟩ := h
  refine ⟨.node nodes.used datum [] .nil .nil :: roots, ?_, ?_⟩
  · intro S hS
    rcases mem_cons.mp hS with rfl | hS
    · refine ⟨⟨hn, fun _ => rfl, fun _ => rfl, trivial, trivial⟩, (grown_node nodes hv).holds,
        _, _, _, rfl⟩
    obtain ⟨hnorm, hholds, hshape⟩ := hroots S hS
    refine ⟨hnorm, hholds.congr (fun q hq => ?_), hshape⟩
    have hlt : q < nodes.used :=
      mem_range.mp (hperm.mem_iff.mp (mem_flatMap.mpr ⟨S, hS, hq⟩))
    exact update_of_ne (Nat.ne_of_lt hlt) _ _
  · rw [flatMap_cons, range_succ]
    exact (perm_append_comm.trans (List.Perm.append_right _ hperm)).trans (List.Perm.refl _)

theorem Holds.parent_some : ∀ {p : Nat} {shape : Shape},
    Holds value (some p) shape → q ∈ shape.ids →
    ∃ r, (value q).parent = some r ∧ (r = p ∨ r ∈ shape.ids)
  | _, .nil, _, hq => absurd hq (by simp [Shape.ids])
  | p, .node q' datum key first next, ⟨hv, hf, hn⟩, hq => by
    rcases mem_cons.mp hq with rfl | hq
    · exact ⟨p, by rw [hv]; rfl, Or.inl rfl⟩
    rcases mem_append.mp hq with hq | hq
    · obtain ⟨r, hr, hmem⟩ := hf.parent_some hq
      refine ⟨r, hr, .inr ?_⟩
      rcases hmem with rfl | hmem
      · exact mem_cons_self
      · exact mem_cons_of_mem _ (mem_append_left _ hmem)
    obtain ⟨r, hr, hmem⟩ := hn.parent_some hq
    refine ⟨r, hr, ?_⟩
    rcases hmem with rfl | hmem
    · exact .inl rfl
    · exact .inr (mem_cons_of_mem _ (mem_append_right _ hmem))

/-- The walk over the ancestors of a node ends at the root of its tree. -/
theorem ancestorLoop_root {c : Nat} {datum : Datum} {first : Shape}
    (h : Holds nodes.value none (.node c datum key first .nil)) :
    ∀ (fuel depth q : Nat), q ∈ (Shape.node c datum key first .nil).ids →
      ancestorLoop nodes c fuel depth (some q) = false
  | 0, _, _, _ => rfl
  | fuel + 1, depth, q, hq => by
    rw [ancestorLoop]
    split_ifs with hstop
    · rfl
    have hne : q ≠ c := fun he => hstop (.inl he)
    have hf := h.2.1
    have hmem : q ∈ first.ids := by
      rcases mem_cons.mp hq with he | hq
      · exact absurd he hne
      rcases mem_append.mp hq with hq | hq
      · exact hq
      · exact absurd hq (by simp [Shape.ids])
    obtain ⟨r, hr, hin⟩ := hf.parent_some hmem
    rw [hr]
    refine ancestorLoop_root h fuel (depth + 1) r ?_
    rcases hin with rfl | hin
    · exact mem_cons_self
    · exact mem_cons_of_mem _ (mem_append_left _ hin)

theorem canAppend_cases {parent child : Option Nat} (h : canAppend nodes parent child = true) :
    ∃ p c, parent = some p ∧ child = some c ∧ (nodes.value c).parent = none ∧
      ((nodes.value p).kind = .Array ∨ (nodes.value p).kind = .Object) ∧
      ancestorLoop nodes c (MaximumDepth + 2) 0 (some p) = true := by
  cases parent with
  | none => cases child <;> cases h
  | some p =>
    cases child with
    | none => cases h
    | some c =>
      unfold canAppend at h
      dsimp only at h
      split_ifs at h with h1 h2
      obtain ⟨hparent, _⟩ := not_or.mp h1
      refine ⟨p, c, rfl, rfl, not_not.mp hparent, ?_, h⟩
      by_contra hk
      exact h2 (not_or.mp hk)

theorem append_normal {object : Bool} {more : Forest} (hm : more.Normal object) :
    ∀ {forest : Forest}, forest.Normal object → (forest.append more).Normal object
  | .nil, _ => hm
  | .node .., ⟨hd, hkey, hleaf, hnf, hnn⟩ => ⟨hd, hkey, hleaf, hnf, append_normal hm hnn⟩

theorem graft_normal {child : Shape} {object : Bool}
    (hkind : (value p).kind = if object then .Object else .Array)
    (hchild : child.forest.Normal object) : ∀ {parent : Option Nat} {shape : Shape} {o : Bool},
    Holds value parent shape → shape.forest.Normal o → (shape.graft p child).forest.Normal o
  | _, .nil, _, _, hn => hn
  | parent, .node q datum key first next, o, ⟨hv, hf, hn⟩, ⟨hd, hkey, hleaf, hnf, hnn⟩ => by
    refine ⟨hd, hkey, ?_, ?_, graft_normal hkind hchild hn hnn⟩
    · intro hc
      have hnil : first = .nil := by
        have := hleaf hc
        cases first with
        | nil => rfl
        | node => cases this
      subst hnil
      by_cases hqp : q = p
      · -- the parent is a container
        subst hqp
        have hk : datum.kind = if object then Kind.Object else Kind.Array := by
          rw [← hkind, hv]
          rfl
        have := of_decide_eq_false hc
        cases object with
        | true => exact absurd (.inr hk) this
        | false => exact absurd (.inl hk) this
      · rw [if_neg hqp]
        rfl
    by_cases hqp : q = p
    · subst hqp
      have hk : datum.kind = if object then Kind.Object else Kind.Array := by
        rw [← hkind, hv]
        rfl
      have hobj : datum.isObject = object := by
        unfold Datum.isObject
        rw [hk]
        cases object <;> rfl
      rw [if_pos rfl, snoc_forest]
      rw [hobj] at hnf ⊢
      exact append_normal hchild hnf
    · rw [if_neg hqp]
      exact graft_normal hkind hchild hf hnf

theorem perm_two {S C : Shape} (hS : S ∈ roots) (hC : C ∈ roots) (hne : C ≠ S) :
    ∃ rest, roots.Perm (S :: C :: rest) := by
  obtain ⟨a, b, rfl⟩ := append_of_mem hS
  have hC' : C ∈ a ++ b := by
    rcases mem_append.mp hC with h | h
    · exact mem_append_left _ h
    rcases mem_cons.mp h with h | h
    · exact absurd h hne
    · exact mem_append_right _ h
  obtain ⟨c, d, hcd⟩ := append_of_mem hC'
  refine ⟨c ++ d, perm_middle.trans (List.Perm.cons S ?_)⟩
  rw [hcd]
  exact perm_middle

theorem Forested.append {nodes : Nodes} (h : Forested nodes) {p c : Nat} {key : List UInt8}
    {object : Bool} (hp : p < nodes.used) (hc : c < nodes.used)
    (hparent : (nodes.value c).parent = none)
    (hkind : (nodes.value p).kind = if object then .Object else .Array)
    (hloop : ancestorLoop nodes c (MaximumDepth + 2) 0 (some p) = true)
    (hkey : object = false → key = []) :
    Forested (Json.append (nodes.set c { nodes.value c with key := key }) p c) := by
  obtain ⟨roots, hroots, hperm⟩ := h
  obtain ⟨S, hS, hpS⟩ := Forested.root hperm hp
  obtain ⟨C, hC, hcC⟩ := Forested.root hperm hc
  obtain ⟨hnS, hholdS, _⟩ := hroots S hS
  obtain ⟨hnC, hholdC, c', datum, first, rfl⟩ := hroots C hC
  -- the child has no parent, so it is the root of its tree
  have hcc : c' = c := by
    rcases mem_cons.mp hcC with he | hm
    · exact he.symm
    rcases mem_append.mp hm with hm | hm
    · obtain ⟨r, hr, _⟩ := hholdC.2.1.parent_some hm
      rw [hparent] at hr
      cases hr
    · exact absurd hm (by simp [Shape.ids])
  subst hcc
  have hpC : p ∉ (Shape.node c' datum [] first .nil).ids := by
    intro hm
    rw [ancestorLoop_root hholdC _ _ p hm] at hloop
    cases hloop
  have hne : Shape.node c' datum [] first .nil ≠ S := by
    rintro rfl
    exact hpC hpS
  obtain ⟨rest, hrest⟩ := perm_two hS hC hne
  have hids := hrest.flatMap_right Shape.ids
  rw [flatMap_cons, flatMap_cons] at hids
  have hnodup := hids.nodup_iff.mp (roots_nodup hperm)
  rw [nodup_append', nodup_append'] at hnodup
  obtain ⟨hSn, ⟨hCn, _, hCrest⟩, hSrest⟩ := hnodup
  have hSC : ∀ q ∈ (Shape.node c' datum [] first .nil).ids, q ∉ S.ids :=
    fun q hq hm => hSrest hm (mem_append_left _ hq)
  generalize hset : nodes.set c' { nodes.value c' with key := key } = keyed
  have hother : ∀ q, q ≠ c' → keyed.value q = nodes.value q := by
    intro q hq
    rw [← hset, Nodes.set_other _ hq]
  have hcS : c' ∉ S.ids := hSC c' mem_cons_self
  have hholdS' : Holds keyed.value none S := by
    refine hholdS.congr (fun q hq => hother q ?_)
    rintro rfl
    exact hcS hq
  have hCn' := hCn
  rw [Shape.ids, nodup_cons, mem_append] at hCn'
  have hholdC' : Holds keyed.value none (.node c' datum key first .nil) := by
    refine ⟨?_, hholdC.2.1.congr (fun q hq => hother q ?_), trivial⟩
    · rw [← hset, Nodes.set_same, hholdC.1]
      rfl
    · rintro rfl
      exact hCn'.1 (.inl hq)
  have hnC' : (Shape.node c' datum key first .nil).forest.Normal object := by
    obtain ⟨hd, _, hleaf, hnf, _⟩ := hnC
    exact ⟨hd, hkey, hleaf, hnf, trivial⟩
  have hkind' : (keyed.value p).kind = if object then .Object else .Array := by
    rw [hother p (fun he => hcS (by rw [← he]; exact hpS)), hkind]
  refine ⟨S.graft p (.node c' datum key first .nil) :: rest, ?_, ?_⟩
  · intro T hT
    rcases mem_cons.mp hT with rfl | hT
    · refine ⟨graft_normal hkind' hnC' hholdS' hnS,
        append_holds hholdS' hSn hpS hholdC' hCn hSC, ?_⟩
      obtain ⟨_, _, q, d, f, rfl⟩ := hroots S hS
      exact ⟨q, d, _, rfl⟩
    obtain ⟨hnT, hholdT, hshape⟩ := hroots T
      (hrest.mem_iff.mpr (mem_cons_of_mem _ (mem_cons_of_mem _ hT)))
    refine ⟨hnT, hholdT.congr (fun q hq => ?_), hshape⟩
    have hqrest : q ∈ rest.flatMap Shape.ids := mem_flatMap.mpr ⟨T, hT, hq⟩
    have hqc : q ≠ c' := by
      rintro rfl
      exact hCrest mem_cons_self hqrest
    rw [append_other hholdS' hSn hpS hcS (fun hm => hSrest hm (mem_append_right _ hqrest))
      hqc, hother q hqc]
  · rw [flatMap_cons, append_used]
    have hu : keyed.used = nodes.used := by rw [← hset, Nodes.set_used]
    rw [hu]
    refine List.Perm.trans ?_ (hids.symm.trans hperm)
    rw [← append_assoc]
    exact List.Perm.append_right _ (graft_ids hSn hpS)

theorem set_self (nodes : Nodes) (p : Nat) : nodes.set p (nodes.value p) = nodes := by
  unfold Nodes.set
  rw [update_eq_self]

theorem root_key (h : Forested nodes) {c : Nat} (hc : c < nodes.used)
    (hparent : (nodes.value c).parent = none) : (nodes.value c).key = [] := by
  obtain ⟨roots, hroots, hperm⟩ := h
  obtain ⟨C, hC, hcC⟩ := Forested.root hperm hc
  obtain ⟨_, hholdC, c', datum, first, rfl⟩ := hroots C hC
  rcases mem_cons.mp hcC with rfl | hm
  · rw [hholdC.1]
    rfl
  rcases mem_append.mp hm with hm | hm
  · obtain ⟨r, hr, _⟩ := hholdC.2.1.parent_some hm
    rw [hparent] at hr
    cases hr
  · exact absurd hm (by simp [Shape.ids])

theorem Forested.call (h : Forested nodes) (c : Call) (hv : c.Valid nodes) :
    Forested (c.run nodes) := by
  cases c with
  | makeNull => exact @Forested.push _ h { kind := .Null } _ rfl ⟨rfl, rfl⟩
  | makeArray => exact @Forested.push _ h { kind := .Array } _ rfl ⟨rfl, rfl⟩
  | makeObject => exact @Forested.push _ h { kind := .Object } _ rfl ⟨rfl, rfl⟩
  | makeBool value =>
    have hnodes : (makeBool nodes value).2 =
        { value := update nodes.value nodes.used { kind := .Bool, boolean := value }
          used := nodes.used + 1 } := by simp [makeBool, node, Nodes.set]
    change Forested (makeBool nodes value).2
    rw [hnodes]
    exact @Forested.push _ h { kind := .Bool, boolean := value } _ rfl rfl
  | makeString text =>
    have hnodes : (makeString nodes text).2 =
        { value := update nodes.value nodes.used { kind := .String, text := text }
          used := nodes.used + 1 } := by simp [makeString, node, Nodes.set]
    change Forested (makeString nodes text).2
    rw [hnodes]
    exact @Forested.push _ h { kind := .String, text := text } _ rfl rfl
  | makeNumber text =>
    change Forested (makeNumber nodes text).2
    unfold makeNumber
    split_ifs with hbad
    · exact h
    obtain ⟨hok, hend⟩ := not_or.mp hbad
    have hpass : passed (number text) = some [] := by
      have hok' : (number text).1 = true := by simpa using hok
      unfold passed
      rw [hok', not_not.mp hend, if_pos rfl]
    have hnodes : ((node nodes .Number).2.set (node nodes .Number).1
        { (node nodes .Number).2.value (node nodes .Number).1 with text := text }) =
        { value := update nodes.value nodes.used { kind := .Number, text := text }
          used := nodes.used + 1 } := by simp [node, Nodes.set]
    obtain ⟨raw, hraw, htext⟩ := number_sound hpass
    rw [append_nil] at htext
    dsimp only
    rw [hnodes]
    exact @Forested.push _ h { kind := .Number, text := text } _ rfl
      ⟨rfl, by rw [htext]; exact hraw⟩
  | add parent child =>
    change Forested (add nodes parent child).2
    unfold add
    split
    · rename_i p c hcan
      obtain ⟨_, _, hp, hc, hparent, hkind, hloop⟩ := canAppend_cases hcan
      cases hp
      cases hc
      have hkey := root_key h (hv.2 c rfl) hparent
      have happ : ∀ object : Bool, (nodes.value p).kind = (if object then .Object else .Array) →
          Forested (Json.append nodes p c) := by
        intro object hk
        have := @Forested.append _ h p c [] _ (hv.1 p rfl) (hv.2 c rfl) hparent hk hloop (fun _ => rfl)
        rwa [← hkey, set_self] at this
      rcases hkind with hk | hk
      · exact happ false hk
      · exact happ true hk
    · exact h
  | addMember parent key child =>
    change Forested (addMember nodes parent key child).2
    unfold addMember
    split
    · rename_i p c hcan
      obtain ⟨_, _, hp, hc, hparent, _, hloop⟩ := canAppend_cases hcan
      cases hp
      cases hc
      split_ifs with hobj
      · exact h
      · exact @Forested.append _ h p c _ true (hv.1 p rfl) (hv.2 c rfl) hparent (not_not.mp hobj) hloop
          fun hc => (by cases hc)
    · exact h

/-- **After any sequence of calls the nodes are disjoint trees.** -/
theorem Reachable.forested (h : Reachable nodes) : Forested nodes := by
  induction h with
  | start hused =>
    refine ⟨[], fun S hS => absurd hS (by simp), ?_⟩
    rw [hused]
    exact List.Perm.refl _
  | call c _ hv ih => exact ih.call c hv

def Has (nodes : Nodes) (p : Nat) (key : List UInt8) (tree : Tree) : Prop :=
  ∃ first next parent, nodes.value p = nodeValue tree.datum key first next parent ∧
    Holds nodes.value (some p) first ∧ first.forest = tree.first

/-- What `encodable` asks for, of a tree and the key of its root. -/
def Encodable (key : List UInt8) (tree : Tree) : Prop :=
  (Forest.node tree.datum key tree.first .nil).Writable 0

/-- The tree at every node is in normal form and not larger than the nodes. -/
theorem Holds.subtree : ∀ {parent : Option Nat} {shape : Shape}
    {o : Bool}, Holds value parent shape → shape.forest.Normal o → q ∈ shape.ids →
    ∃ datum key first next par, value q = nodeValue datum key first next par ∧
      Holds value (some q) first ∧ datum.Normal ∧
      (datum.isContainer = false → first.forest = .nil) ∧ first.forest.Normal datum.isObject ∧
      first.ids.length ≤ shape.ids.length
  | _, .nil, _, _, _, hq => absurd hq (by simp [Shape.ids])
  | parent, .node p datum key first next, o, ⟨hv, hf, hn⟩, ⟨hd, _, hleaf, hnf, hnn⟩, hq => by
    have hlen : (Shape.node p datum key first next).ids.length =
        first.ids.length + next.ids.length + 1 := by
      rw [Shape.ids, length_cons, length_append]
    rcases mem_cons.mp hq with rfl | hq
    · exact ⟨datum, key, first, next, parent, hv, hf, hd, hleaf, hnf, by omega⟩
    rcases mem_append.mp hq with hq | hq
    · obtain ⟨d, k, f, n, par, h1, h2, h3, h4, h5, h6⟩ := hf.subtree hnf hq
      exact ⟨d, k, f, n, par, h1, h2, h3, h4, h5, by omega⟩
    · obtain ⟨d, k, f, n, par, h1, h2, h3, h4, h5, h6⟩ := hn.subtree hnn hq
      exact ⟨d, k, f, n, par, h1, h2, h3, h4, h5, by omega⟩

theorem Has.unique {key' : List UInt8} {tree tree' : Tree} (h : Has nodes p key tree)
    (h' : Has nodes p key' tree') : key = key' ∧ tree = tree' := by
  obtain ⟨first, next, parent, hv, hf, htree⟩ := h
  obtain ⟨first', next', parent', hv', hf', htree'⟩ := h'
  have heq := hv.symm.trans hv'
  injection heq with hkind hbool htext hkey hfirst _ _ _
  obtain ⟨⟨k, b, t⟩, f⟩ := tree
  obtain ⟨⟨k', b', t'⟩, f'⟩ := tree'
  dsimp only at hkind hbool htext htree htree'
  subst hkind hbool htext hkey
  refine ⟨rfl, ?_⟩
  rw [← htree, ← htree', holds_forest hf hf' hfirst]

/-- The result of writing the tree at a node: it is empty exactly if the tree is not encodable,
and else `parse` reads the tree back from it. -/
def RoundTrips (nodes : Nodes) (p : Nat) (result : Except Mem.Panic (List UInt8)) : Prop :=
  ∃ key tree, Has nodes p key tree ∧ (result = .ok [] ↔ ¬ Encodable key tree) ∧
    (Encodable key tree → ∃ text, result = .ok text ∧ ∀ arena : Nodes, ∃ root,
      (parse arena text).ok = true ∧ (parse arena text).root = some root ∧
      Has (parse arena text).nodes root [] tree)

/-- The arena has room for the text of the tree at a node. -/
def HasRoom (w : Nat) (room : Mem.Room) (nodes : Nodes) (p indent : Nat) : Prop :=
  ∀ key tree, Has nodes p key tree →
    room.Holds w 256 ((layout indent).tree 0 tree.datum tree.first).length

/-- If the tree at a node is encodable then its containers nest at most 256 deep. -/
def Shallow (nodes : Nodes) (p : Nat) : Prop :=
  ∀ key tree, Has nodes p key tree → Encodable key tree → tree.nest ≤ MaximumDepth

/-- A rejected call leaves the nodes as they are. -/
def RejectedUnchanged (nodes : Nodes) : Prop :=
  (∀ parent child, (add nodes parent child).1 = false → (add nodes parent child).2 = nodes) ∧
  (∀ parent key child, (addMember nodes parent key child).1 = false →
    (addMember nodes parent key child).2 = nodes) ∧
  ∀ text, (makeNumber nodes text).1 = none → (makeNumber nodes text).2 = nodes

theorem rejected_unchanged (nodes : Nodes) : RejectedUnchanged nodes := by
  refine ⟨?_, ?_, ?_⟩
  · intro parent child h
    unfold add at h ⊢
    split
    · rename_i hcan
      simp only [hcan] at h
      cases h
    · rfl
  · intro parent key child h
    unfold addMember at h ⊢
    split
    · rename_i p c hcan
      simp only [hcan] at h
      split_ifs at h ⊢ with hobj
      rfl
    · rfl
  · intro text h
    unfold makeNumber at h ⊢
    split_ifs at h ⊢ with hbad
    rfl

theorem Reachable.tree (hr : Reachable nodes) (hp : p < nodes.used) :
    ∃ datum key first next parent, nodes.value p = nodeValue datum key first next parent ∧
      Holds nodes.value (some p) first ∧ datum.Normal ∧
      (datum.isContainer = false → first.forest = .nil) ∧ first.forest.Normal datum.isObject ∧
      first.ids.length ≤ nodes.used := by
  obtain ⟨roots, hroots, hperm⟩ := hr.forested
  obtain ⟨S, hS, hpS⟩ := Forested.root hperm hp
  obtain ⟨hnS, hholdS, _⟩ := hroots S hS
  obtain ⟨d, k, f, n, par, h1, h2, h3, h4, h5, h6⟩ := hholdS.subtree hnS hpS
  refine ⟨d, k, f, n, par, h1, h2, h3, h4, h5, Nat.le_trans h6 ?_⟩
  obtain ⟨a, b, rfl⟩ := append_of_mem hS
  have hlen := hperm.length_eq
  rw [flatMap_append, flatMap_cons, length_append, length_append, length_range] at hlen
  omega

theorem encodeArena_round_trips (hr : Reachable nodes) (hp : p < nodes.used) {w : Nat}
    {room : Mem.Room} {indent : Nat} (hroom : HasRoom w room nodes p indent) :
    RoundTrips nodes p (encodeArena w room nodes (some p) indent) ↔ Shallow nodes p := by
  obtain ⟨datum, key, first, next, parent, hv, hfirst, hn, hleaf, hnf, hsize⟩ := hr.tree hp
  have hhas : Has nodes p key ⟨datum, first.forest⟩ := ⟨first, next, parent, hv, hfirst, rfl⟩
  obtain ⟨b, tail, htext, _⟩ := @tree_head (layout indent) datum hn 0 first.forest
  have hne : (layout indent).tree 0 datum first.forest ≠ [] := by
    rw [htext]
    simp
  obtain ⟨hyes, hno⟩ := encodeArena_spec hv hfirst hsize (hroom _ _ hhas) hne
  constructor
  · rintro ⟨key', tree', hhas', _, hback⟩ key'' tree'' hhas'' henc
    obtain ⟨rfl, rfl⟩ := hhas.unique hhas'
    obtain ⟨rfl, rfl⟩ := hhas.unique hhas''
    obtain ⟨text, hresult, hparse⟩ := hback henc
    rw [hyes henc] at hresult
    cases hresult
    obtain ⟨-, hok, _⟩ := hparse {}
    by_contra hdeep
    have hspec := parse_spec {} ((layout indent).tree 0 datum first.forest)
    rw [tree_text hn hleaf hnf henc, if_neg hdeep] at hspec
    rw [show (parse {} ((layout indent).tree 0 datum first.forest)).ok = false from hspec] at hok
    cases hok
  intro hshallow
  refine ⟨key, ⟨datum, first.forest⟩, hhas, ?_, ?_⟩
  · constructor
    · intro hempty henc
      rw [hyes henc] at hempty
      injection hempty with hempty
      exact hne hempty
    · exact hno
  intro henc
  refine ⟨_, hyes henc, fun arena => ?_⟩
  have hspec := parse_spec arena ((layout indent).tree 0 datum first.forest)
  rw [tree_text hn hleaf hnf henc, if_pos (hshallow _ _ hhas henc)] at hspec
  obtain ⟨first', hok, hroot, hforest, hgrown⟩ := hspec
  obtain ⟨hv', hf', _⟩ := hgrown.holds
  exact ⟨arena.used, hok, hroot, first', .nil, none, hv', hf', hforest⟩

/-- **Writing and parsing gives the tree back exactly if its containers nest at most 256 deep**
or it is not encodable, compact and at every indentation, after any sequence of calls; and
rejected calls change nothing. -/
theorem encode_round_trips {nodes : Nodes} (hr : Reachable nodes) {p : Nat} (hp : p < nodes.used)
    {w : Nat} (room : Mem.Room) :
    RejectedUnchanged nodes ∧
    (HasRoom w room nodes p 0 →
      (RoundTrips nodes p (encode w room nodes (some p)) ↔ Shallow nodes p)) ∧
    ∀ indent, HasRoom w room nodes p indent →
      (RoundTrips nodes p (encodePretty w room nodes (some p) indent) ↔ Shallow nodes p) :=
  ⟨rejected_unchanged nodes, fun hroom => encodeArena_round_trips hr hp hroom,
    fun _ hroom => encodeArena_round_trips hr hp hroom⟩

/-- An array in an array, and so on: every call adds one around the others. -/
def nestedCalls : Nat → List Call
  | 0 => [.makeArray]
  | n + 1 => nestedCalls n ++ [.makeArray, .add (some (n + 1)) (some n)]

def nested (n : Nat) : Nodes := (nestedCalls n).foldl Call.run {}

theorem nested_succ : nested (n + 1) =
    (add (node (nested n) .Array).2 (some (n + 1)) (some n)).2 := by
  unfold nested
  rw [nestedCalls, foldl_append]
  rfl

def nestedShape : Nat → Shape
  | 0 => .node 0 { kind := .Array } [] .nil .nil
  | n + 1 => .node (n + 1) { kind := .Array } [] (nestedShape n) .nil

theorem nested_spec : ∀ n, Reachable (nested n) ∧ (nested n).used = n + 1 ∧
    Holds (nested n).value none (nestedShape n) ∧ (nestedShape n).ids.Nodup ∧
    (∀ q ∈ (nestedShape n).ids, q ≤ n) ∧
    ∃ first, nestedShape n = .node n { kind := .Array } [] first .nil
  | 0 => by
    have hg := @grown_node {} { kind := .Array } _ rfl
    refine ⟨Reachable.call .makeArray (Reachable.start rfl) trivial, rfl, hg.holds, hg.nodup, ?_,
      .nil, rfl⟩
    intro q hq
    have := (hg.new q hq).2
    exact Nat.le_of_lt_succ this
  | n + 1 => by
    obtain ⟨hr, hused, hholds, hnodup, hle, first, hshape⟩ := nested_spec n
    have hg := @grown_node (nested n) { kind := .Array } _ rfl
    have hmade : (node (nested n) .Array).2 =
        { value := update (nested n).value (nested n).used
            (nodeValue { kind := .Array } [] .nil .nil none)
          used := (nested n).used + 1 } := rfl
    rw [← hmade] at hg
    have hr' : Reachable (node (nested n) .Array).2 := Reachable.call .makeArray hr trivial
    have hsucc := nested_succ n
    have hmused : (node (nested n) .Array).2.used = n + 2 := by
      rw [hmade]
      rw [hused]
    generalize (node (nested n) .Array).2 = made at hg hr' hsucc hmused
    rw [hused] at hg
    have hchild : Holds made.value none (nestedShape n) := by
      refine hholds.congr (fun q hq => hg.old q ?_)
      have := hle q hq
      omega
    have hdisj : ∀ q ∈ (nestedShape n).ids,
        q ∉ (Shape.node (n + 1) { kind := .Array } [] .nil .nil).ids := by
      intro q hq hm
      have := hle q hq
      have : q = n + 1 := by simpa [Shape.ids] using hm
      omega
    have hself : n + 1 ∈ (Shape.node (n + 1) { kind := .Array } [] .nil .nil).ids :=
      mem_cons_self
    rw [hshape] at hchild hdisj
    have hcan : canAppend made (some (n + 1)) (some n) = true := by
      unfold canAppend
      dsimp only
      rw [hchild.1, hg.holds.1]
      rw [if_neg (by simp [nodeValue, Shape.head]), if_neg (by simp [nodeValue]), ancestorLoop,
        if_neg (by omega), hg.holds.1]
      rfl
    have hadd : (add made (some (n + 1)) (some n)).2 = append made (n + 1) n := by
      unfold add
      rw [hcan]
    have hafter := append_holds hg.holds hg.nodup hself hchild (by rw [← hshape]; exact hnodup)
      hdisj
    have hgraft : (Shape.node (n + 1) { kind := .Array } [] .nil .nil).graft (n + 1)
        (.node n { kind := .Array } [] first .nil) = nestedShape (n + 1) := by
      rw [nestedShape, hshape, Shape.graft, if_pos rfl]
      rfl
    have hperm := @graft_ids (n + 1) (nestedShape n) _ hg.nodup hself
    rw [hshape, hgraft, ← hshape] at hperm
    rw [hgraft, ← hadd, ← hsucc] at hafter
    refine ⟨?_, ?_, hafter, ?_, ?_, nestedShape n, rfl⟩
    · rw [hsucc]
      refine Reachable.call (.add (some (n + 1)) (some n)) hr' ⟨?_, ?_⟩
      · intro p hp
        cases hp
        omega
      intro c hc
      cases hc
      omega
    · rw [hsucc, hadd, append_used, hmused]
    · rw [hperm.nodup_iff, nodup_append']
      rw [← hshape] at hdisj
      exact ⟨hg.nodup, hnodup, fun q hq hm => hdisj q hm hq⟩
    intro q hq
    rcases mem_append.mp (hperm.mem_iff.mp hq) with hm | hm
    · have := (hg.new q hm).2
      omega
    · have := hle q hm
      omega

def nestedTree : Nat → Forest
  | 0 => .nil
  | n + 1 => .node { kind := .Array } [] (nestedTree n) .nil

theorem nestedShape_forest : ∀ n, (nestedShape n).forest = nestedTree (n + 1)
  | 0 => rfl
  | n + 1 => by rw [nestedShape, Shape.forest, nestedShape_forest n, Shape.forest]; rfl

theorem nestedTree_nest : ∀ n, (nestedTree n).nest = n
  | 0 => rfl
  | n + 1 => by
    rw [nestedTree, Forest.nest, nestedTree_nest n, Forest.nest, Nat.max_zero]
    rfl

theorem nestedTree_writable : ∀ n depth, depth + n ≤ MaximumDepth + 1 →
    (nestedTree n).Writable depth
  | 0, _, _ => trivial
  | n + 1, depth, h =>
    ⟨⟨by omega, by simp, fun hs => absurd hs (by simp), utf8_nil⟩,
      nestedTree_writable n (depth + 1) (by omega), trivial⟩

theorem nestedTree_length : ∀ n depth,
    (compact.tree depth { kind := .Array } (nestedTree n)).length = 2 * n + 2
  | 0, _ => rfl
  | n + 1, depth => by
    have ih := nestedTree_length n (depth + 1)
    have htree : compact.tree depth { kind := .Array } (nestedTree (n + 1)) =
        91 :: (compact.tree (depth + 1) { kind := .Array } (nestedTree n) ++ [93]) := by
      rw [nestedTree, Layout.tree, Layout.value]
      change _ :: (((compact.items false (depth + 1) (.node { kind := .Array } [] (nestedTree n)
        .nil)) ++ []) ++ [_]) = _
      rw [append_nil, Layout.items_node]
      change _ :: (([] ++ ([] ++ (_ ++ []))) ++ _) = _
      rw [nil_append, nil_append, append_nil]
      rfl
    rw [htree, length_cons, length_append, ih, length_singleton]
    omega

theorem nested_has : Has (nested n) n [] ⟨{ kind := .Array }, nestedTree n⟩ := by
  obtain ⟨_, _, hholds, _, _, first, hshape⟩ := nested_spec n
  have hforest := nestedShape_forest n
  rw [hshape] at hholds hforest
  rw [Shape.forest, nestedTree] at hforest
  injection hforest with _ _ hfirst _
  exact ⟨first, .nil, none, hholds.1, hholds.2.1, hfirst⟩

theorem nested_room (hn : n ≤ 256) : HasRoom 64 (Mem.bufferRoom 1024) (nested n) n 0 := by
  intro key tree htree
  obtain ⟨_, rfl⟩ := (nested_has n).unique htree
  change (compact.tree 0 _ _).length ≤ 1024 ∧ _
  rw [nestedTree_length]
  exact ⟨by omega, by decide⟩

/-- An object with an array of a string, which has an escape, and a number. -/
def sampleCalls : List Call :=
  [.makeObject, .makeArray, .makeString [97, 10], .makeNumber [49], .add (some 1) (some 2), .add (some 1) (some 3),
    .addMember (some 0) [107] (some 1)]

def sampleNodes : Nodes := sampleCalls.foldl Call.run {}

def sampleObject : Tree :=
  ⟨{ kind := .Object }, .node { kind := .Array } [107] (.node { kind := .String, text := [97, 10] } []
    .nil (.node { kind := .Number, text := [49] } [] .nil .nil)) .nil⟩

theorem encode_round_trips_sample :
    encode 64 (Mem.bufferRoom 1024) sampleNodes (some 0) =
      .ok [123, 34, 107, 34, 58, 91, 34, 97, 92, 110, 34, 44, 49, 93, 125] ∧
    RoundTrips sampleNodes 0 (encode 64 (Mem.bufferRoom 1024) sampleNodes (some 0)) ∧
    RoundTrips sampleNodes 0 (encodePretty 64 (Mem.bufferRoom 1024) sampleNodes (some 0) 2) := by
  have hr : Reachable sampleNodes := by
    simp only [sampleNodes, sampleCalls, foldl_cons, foldl_nil]
    refine .call _ (.call _ (.call _ (.call _ (.call _ (.call _ (.call _ (.start rfl) trivial) trivial) trivial) trivial)
      ⟨?_, ?_⟩) ⟨?_, ?_⟩) ⟨?_, ?_⟩
    all_goals
      rintro p ⟨⟩
      decide
  have hhas : Has sampleNodes 0 [] sampleObject :=
    ⟨.node 1 { kind := .Array } [107] (.node 2 { kind := .String, text := [97, 10] } [] .nil
      (.node 3 { kind := .Number, text := [49] } [] .nil .nil)) .nil, .nil, none, rfl,
      ⟨rfl, ⟨rfl, trivial, rfl, trivial, trivial⟩, trivial⟩, rfl⟩
  have hroom : ∀ indent, ((layout indent).tree 0 sampleObject.datum sampleObject.first).length ≤ 1024 →
      HasRoom 64 (Mem.bufferRoom 1024) sampleNodes 0 indent := by
    intro indent hlength key tree htree
    obtain ⟨_, rfl⟩ := hhas.unique htree
    exact ⟨hlength, by decide⟩
  have hshallow : Shallow sampleNodes 0 := by
    intro key tree htree _
    obtain ⟨_, rfl⟩ := hhas.unique htree
    decide
  obtain ⟨-, hcompact, hpretty⟩ := encode_round_trips hr (p := 0) (w := 64) (by decide) (Mem.bufferRoom 1024)
  exact ⟨by decide +kernel, (hcompact (hroom 0 (by decide +kernel))).mpr hshallow,
    (hpretty 2 (hroom 2 (by decide +kernel))).mpr hshallow⟩

/-- Arrays nested 257 deep are written, but not read. -/
theorem encode_round_trips_fails : Reachable (nested 256) ∧ 256 < (nested 256).used ∧
    HasRoom 64 (Mem.bufferRoom 1024) (nested 256) 256 0 ∧
    ¬ RoundTrips (nested 256) 256 (encode 64 (Mem.bufferRoom 1024) (nested 256) (some 256)) := by
  obtain ⟨hr, hused, _⟩ := nested_spec 256
  have hp : 256 < (nested 256).used := by omega
  have hroom := nested_room 256 le_rfl
  refine ⟨hr, hp, hroom, ?_⟩
  intro h
  have hshallow := (encodeArena_round_trips hr hp hroom).mp h
  have henc : Encodable [] ⟨{ kind := .Array }, nestedTree 256⟩ :=
    nestedTree_writable 257 0 (by decide)
  have := hshallow _ _ (nested_has 256) henc
  unfold Tree.nest at this
  rw [if_pos (by decide), nestedTree_nest] at this
  exact absurd this (by decide)

end Dyn.Json
