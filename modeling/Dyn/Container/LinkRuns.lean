import Dyn.Container.Links

/-!
# std/container/list: the lists that the links describe

Each operation is the operation on plain lists, as long as a node is in at most one list; everything else is
unchanged.
-/

namespace Dyn.Container

open List Function
open Lib (Segment)

variable {κ ν : Type} [DecidableEq κ] [DecidableEq ν]

/-- A list for each owner, and the parents that the tree functions have given. -/
structure Owned (κ ν : Type) where
  lists : Owner κ ν → List ν
  parents : ν → Option ν

/-- The functions, with the owners of the lists that they are called on. -/
inductive ListOperation (κ ν : Type) where
  | dllPushBack (o : Owner κ ν) (node : ν)
  | dllPushFront (o : Owner κ ν) (node : ν)
  | dllInsertAfter (o : Owner κ ν) (after node : ν)
  | dllRemove (o : Owner κ ν) (node : ν)
  | treePushChild (parent node : ν)
  | treeRemove (node : ν)

def Links.apply (m : Links κ ν) : ListOperation κ ν → Links κ ν
  | .dllPushBack o node => m.dllPushBack o node
  | .dllPushFront o node => m.dllPushFront o node
  | .dllInsertAfter o after node => m.dllInsertAfter o after node
  | .dllRemove o node => m.dllRemove o node
  | .treePushChild parent node => m.treePushChild parent node
  | .treeRemove node => m.treeRemove node

/-- A list with a node behind one of its nodes. -/
def insertBehind (after node : ν) : List ν → List ν
  | [] => []
  | n :: rest => if n = after then n :: node :: rest else n :: insertBehind after node rest

namespace Owned

variable (s : Owned κ ν)

def Free (node : ν) : Prop := ∀ o, node ∉ s.lists o

def setList (o : Owner κ ν) (nodes : List ν) : Owned κ ν := { s with lists := update s.lists o nodes }
def setParent (node : ν) (parent : Option ν) : Owned κ ν := { s with parents := update s.parents node parent }

def apply : ListOperation κ ν → Owned κ ν
  | .dllPushBack o node => s.setList o (s.lists o ++ [node])
  | .dllPushFront o node => s.setList o (node :: s.lists o)
  | .dllInsertAfter o after node => s.setList o (insertBehind after node (s.lists o))
  | .dllRemove o node => s.setList o ((s.lists o).erase node)
  | .treePushChild parent node => (s.setParent node (some parent)).setList (.node parent) (s.lists (.node parent) ++ [node])
  | .treeRemove node =>
      match s.parents node with
      | none => s.setParent node none
      | some parent => (s.setList (.node parent) ((s.lists (.node parent)).erase node)).setParent node none

/-- How the functions are documented to be used: a node goes into a list only while it is in none, and is
taken from the list that it is in. -/
def Allowed : ListOperation κ ν → Prop
  | .dllPushBack _ node => s.Free node
  | .dllPushFront _ node => s.Free node
  | .dllInsertAfter o after node => after ∈ s.lists o ∧ s.Free node
  | .dllRemove o node => node ∈ s.lists o
  | .treePushChild _ node => s.Free node
  | .treeRemove node => ∀ parent, s.parents node = some parent → node ∈ s.lists (.node parent)

end Owned

/-- The links describe one list for each owner. -/
structure Describes (m : Links κ ν) (s : Owned κ ν) : Prop where
  first : ∀ o, m.first o = (s.lists o).head?
  last : ∀ o, m.last o = (s.lists o).getLast?
  linked : ∀ o, Segment m.next m.prev none (s.lists o) none
  free : ∀ node, s.Free node → m.next node = none ∧ m.prev node = none
  parent : m.parent = s.parents
  nodup : ∀ o, (s.lists o).Nodup
  disjoint : ∀ node o o', node ∈ s.lists o → node ∈ s.lists o' → o = o'

omit [DecidableEq κ] [DecidableEq ν] in
theorem Describes.not_mem {m : Links κ ν} {s : Owned κ ν} (h : Describes m s) {o o' : Owner κ ν} (hne : o' ≠ o) {node : ν}
    (hmem : node ∈ s.lists o') : node ∉ s.lists o := fun hmem' => hne (h.disjoint node o' o hmem hmem')

variable {m : Links κ ν} {s : Owned κ ν} {o : Owner κ ν}

theorem Describes.replace {m' : Links κ ν} (h : Describes m s) (o : Owner κ ν) {nodes : List ν}
    (hnodup : nodes.Nodup) (hmem : ∀ n ∈ nodes, n ∈ s.lists o ∨ s.Free n)
    (hfirst : ∀ o', m'.first o' = if o' = o then nodes.head? else m.first o')
    (hlast : ∀ o', m'.last o' = if o' = o then nodes.getLast? else m.last o')
    (hlinked : Segment m'.next m'.prev none nodes none)
    (hgone : ∀ n ∈ s.lists o, n ∉ nodes → m'.next n = none ∧ m'.prev n = none)
    (hframe : ∀ n, n ∉ s.lists o → n ∉ nodes → m'.next n = m.next n ∧ m'.prev n = m.prev n)
    (hparent : m'.parent = m.parent) : Describes m' (s.setList o nodes) := by
  have hlists : ∀ o', (s.setList o nodes).lists o' = if o' = o then nodes else s.lists o' := fun o' => by
    simp only [Owned.setList, update_apply]
  have houtside : ∀ o', o' ≠ o → ∀ n ∈ s.lists o', n ∉ nodes := by
    intro o' hne n hn hnode
    rcases hmem n hnode with hold | hfree
    · exact h.not_mem hne hn hold
    · exact hfree o' hn
  refine ⟨fun o' => ?_, fun o' => ?_, fun o' => ?_, fun n hfree => ?_, hparent.trans h.parent, fun o' => ?_,
    fun n o1 o2 h1 h2 => ?_⟩
  · rw [hfirst, hlists]
    split_ifs
    · rfl
    · exact h.first o'
  · rw [hlast, hlists]
    split_ifs
    · rfl
    · exact h.last o'
  · rw [hlists]
    split_ifs with ho
    · exact hlinked
    · exact (h.linked o').congr fun n hn => hframe n (h.not_mem ho hn) (houtside o' ho n hn)
  · have hout : n ∉ nodes := by
      have := hfree o
      rw [hlists, if_pos rfl] at this
      exact this
    by_cases hold : n ∈ s.lists o
    · exact hgone n hold hout
    have hn := hframe n hold hout
    have hfree' : s.Free n := by
      intro o'
      by_cases ho : o' = o
      · rw [ho]
        exact hold
      have := hfree o'
      rw [hlists, if_neg ho] at this
      exact this
    rw [hn.1, hn.2]
    exact h.free n hfree'
  · rw [hlists]
    split_ifs
    · exact hnodup
    · exact h.nodup o'
  · rw [hlists] at h1 h2
    split_ifs at h1 h2 with ho1 ho2 ho2
    · rw [ho1, ho2]
    · exact absurd h1 (houtside o2 ho2 n h2)
    · exact absurd h2 (houtside o1 ho1 n h1)
    · exact h.disjoint n o1 o2 h1 h2

/-- What stands between two parts of a list is replaced: the parts are linked to what stands there now. -/
theorem Describes.exchange {m m' : Links κ ν} {s : Owned κ ν} (h : Describes m s) {o : Owner κ ν} {front old new back : List ν}
    (hsplit : s.lists o = front ++ (old ++ back)) (hnodup : (front ++ (new ++ back)).Nodup)
    (hnew : ∀ n ∈ new, s.Free n) (hlinked : Segment m'.next m'.prev front.getLast? new back.head?)
    (hnext : ∀ n ∉ new, n ∉ old → m'.next n = if front.getLast? = some n then (new ++ back).head? else m.next n)
    (hprev : ∀ n ∉ new, n ∉ old → m'.prev n = if back.head? = some n then (front ++ new).getLast? else m.prev n)
    (hgone : ∀ n ∈ old, m'.next n = none ∧ m'.prev n = none)
    (hfirst : ∀ o', m'.first o' = if o' = o then (front ++ (new ++ back)).head? else m.first o')
    (hlast : ∀ o', m'.last o' = if o' = o then (front ++ (new ++ back)).getLast? else m.last o')
    (hparent : m'.parent = m.parent) : Describes m' (s.setList o (front ++ (new ++ back))) := by
  have hold := h.nodup o
  have hbefore := h.linked o
  rw [hsplit] at hold hbefore
  obtain ⟨hnodupFront, hnodupRest, hcross⟩ := nodup_append.1 hold
  obtain ⟨-, hnodupBack, hcrossRest⟩ := nodup_append.1 hnodupRest
  rw [Segment.append_iff, Segment.append_iff] at hbefore
  have hin : ∀ n ∈ front ++ (old ++ back), n ∉ new := fun n hn hnode => hnew n hnode o (hsplit ▸ hn)
  refine h.replace o hnodup (fun n hn => ?_) hfirst hlast ?_ (fun n hn hout => ?_) (fun n hn hout => ?_) hparent
  · rw [hsplit]
    simp only [mem_append] at hn ⊢
    rcases hn with hn | hn | hn
    · exact .inl (.inl hn)
    · exact .inr (hnew n hn)
    · exact .inl (.inr (.inr hn))
  · rw [Segment.append_iff, Segment.append_iff]
    simp only [Option.or_none]
    refine ⟨Segment.congr_behind hnodupFront (fun n hn => ?_) (fun n hn => ?_) hbefore.1, hlinked,
      Segment.congr_before hnodupBack (fun n hn => ?_) (fun n hn => ?_) hbefore.2.2⟩
    all_goals
      have hmem : n ∈ front ++ (old ++ back) := by
        simp only [mem_append]
        tauto
    · have hout : n ∉ old := fun hc => hcross n hn n (mem_append_left _ hc) rfl
      rw [hprev n (hin n hmem) hout, if_neg]
      exact fun heq => hcross n hn n (mem_append_right _ (mem_of_head? heq)) rfl
    · rw [hnext n (hin n hmem) fun hc => hcross n hn n (mem_append_left _ hc) rfl]
    · rw [hnext n (hin n hmem) fun hc => hcrossRest n hc n hn rfl, if_neg]
      exact fun heq => hcross n (mem_of_getLast? heq) n (mem_append_right _ hn) rfl
    · rw [hprev n (hin n hmem) fun hc => hcrossRest n hc n hn rfl, getLast?_append]
  · rw [hsplit] at hn
    simp only [mem_append] at hn hout
    exact hgone n (by tauto)
  · rw [hsplit] at hn
    simp only [mem_append, not_or] at hn hout
    rw [hnext n hout.2.1 hn.2.1, hprev n hout.2.1 hn.2.1, if_neg fun heq => hn.1 (mem_of_getLast? heq),
      if_neg fun heq => hn.2.2 (mem_of_head? heq)]
    exact ⟨rfl, rfl⟩

theorem Describes.splice {m m' : Links κ ν} {s : Owned κ ν} (h : Describes m s) {o : Owner κ ν} {node : ν} {front back : List ν}
    (hsplit : s.lists o = front ++ back) (hfree : s.Free node)
    (hnext : ∀ n, m'.next n = if front.getLast? = some n then some node else if n = node then back.head? else m.next n)
    (hprev : ∀ n, m'.prev n = if back.head? = some n then some node else if n = node then front.getLast? else m.prev n)
    (hfirst : ∀ o', m'.first o' = if o' = o ∧ front = [] then some node else m.first o')
    (hlast : ∀ o', m'.last o' = if o' = o ∧ back = [] then some node else m.last o')
    (hparent : m'.parent = m.parent) : Describes m' (s.setList o (front ++ node :: back)) := by
  have hnodup := h.nodup o
  have hout := hfree o
  rw [hsplit] at hnodup hout
  rw [mem_append, not_or] at hout
  refine @Describes.exchange κ ν _ _ m m' s h o front [] [node] back hsplit ?_ ?_ ?_ (fun n hn _ => ?_) (fun n hn _ => ?_)
    nofun (fun o' => ?_) (fun o' => ?_) hparent
  · exact nodup_middle.2 (nodup_cons.2 ⟨by rw [mem_append, not_or]; exact hout, hnodup⟩)
  · intro n hn
    rw [mem_singleton.1 hn]
    exact hfree
  · rw [Segment.singleton_iff, hprev, hnext, if_neg fun heq => hout.2 (mem_of_head? heq), if_pos rfl,
      if_neg fun heq => hout.1 (mem_of_getLast? heq), if_pos rfl]
    exact ⟨rfl, rfl⟩
  · rw [hnext, if_neg fun heq => hn (mem_singleton.2 heq)]
    rfl
  · rw [hprev, if_neg fun heq => hn (mem_singleton.2 heq), getLast?_append]
    rfl
  · rw [hfirst, h.first]
    by_cases ho : o' = o
    · rw [ho, hsplit]
      cases front <;> simp
    · simp [ho]
  · rw [hlast, h.last]
    by_cases ho : o' = o
    · rw [ho, hsplit]
      cases back <;> simp [getLast?_cons]
    · simp [ho]

variable {node : ν}

theorem Describes.pushBack (h : Describes m s) (hfree : s.Free node) :
    Describes (m.dllPushBack o node) (s.setList o (s.lists o ++ [node])) := by
  obtain ⟨hprev, hfirst, hlast, hparent⟩ := m.dllPushBack_fields o node
  have hends := h.last o
  refine h.splice (append_nil _).symm hfree (fun n => ?_) (fun n => ?_) (fun o' => ?_) (fun o' => ?_) hparent
  · rw [m.dllPushBack_next, hends]
    rfl
  · simp [hprev, hends]
  · simp [hfirst, hends]
  · simp [hlast]

theorem Describes.pushFront (h : Describes m s) (hfree : s.Free node) :
    Describes (m.dllPushFront o node) (s.setList o (node :: s.lists o)) := by
  obtain ⟨hnext, hfirst, hlast, hparent⟩ := m.dllPushFront_fields o node
  have hends := h.first o
  refine h.splice (nil_append _).symm hfree (fun n => ?_) (fun n => ?_) (fun o' => ?_) (fun o' => ?_) hparent
  · simp [hnext, hends]
  · rw [m.dllPushFront_prev, hends]
    rfl
  · simp [hfirst]
  · simp [hlast, hends]

omit [DecidableEq κ] in
theorem insertBehind_append {after node : ν} {front back : List ν} (h : after ∉ front) :
    insertBehind after node (front ++ after :: back) = front ++ [after] ++ node :: back := by
  induction front with
  | nil => exact if_pos rfl
  | cons n front ih =>
    rw [mem_cons, not_or] at h
    rw [cons_append, insertBehind, if_neg (Ne.symm h.1), ih h.2]
    rfl

omit [DecidableEq κ] [DecidableEq ν] in
theorem Describes.neighbours {m : Links κ ν} {s : Owned κ ν} (h : Describes m s) {o : Owner κ ν} {node : ν}
    {front back : List ν} (hsplit : s.lists o = front ++ node :: back) :
    m.prev node = front.getLast? ∧ m.next node = back.head? := by
  have hlinked := h.linked o
  rw [hsplit, Segment.append_iff, Segment.cons_iff] at hlinked
  simpa using And.intro hlinked.2.1 hlinked.2.2.1

theorem Describes.insertAfter (h : Describes m s) {after : ν} (hafter : after ∈ s.lists o)
    (hfree : s.Free node) :
    Describes (m.dllInsertAfter o after node) (s.setList o (insertBehind after node (s.lists o))) := by
  have hne : after ≠ node := fun heq => hfree o (heq ▸ hafter)
  obtain ⟨front, back, hsplit⟩ := append_of_mem hafter
  have hnodup := h.nodup o
  rw [hsplit] at hnodup
  have hout : after ∉ front := fun hmem => (nodup_append.1 hnodup).2.2 after hmem after mem_cons_self rfl
  have hfirstNe : m.first o ≠ none := by
    rw [h.first, hsplit]
    cases front <;> simp
  obtain ⟨hnext, hprev, hfirst, hlast, hparent⟩ := m.dllInsertAfter_fields hne hfirstNe
  have hbehind := (h.neighbours hsplit).2
  rw [hsplit, insertBehind_append hout]
  refine @Describes.splice κ ν _ _ m _ s h o node (front ++ [after]) back (by rw [hsplit]; simp) hfree (fun n => ?_) (fun n => ?_)
    (fun o' => ?_) (fun o' => ?_) hparent
  · simp [hnext, hbehind, eq_comm]
  · simp [hprev, hbehind]
  · simp [hfirst]
  · simp [hlast, hbehind]

theorem Describes.remove (h : Describes m s) (hmem : node ∈ s.lists o) :
    Describes (m.dllRemove o node) (s.setList o ((s.lists o).erase node)) := by
  obtain ⟨front, back, hsplit⟩ := append_of_mem hmem
  have hnodup := h.nodup o
  rw [hsplit] at hnodup
  have hout : node ∉ front := fun hmem => (nodup_append.1 hnodup).2.2 node hmem node mem_cons_self rfl
  obtain ⟨hbefore, hbehind⟩ := h.neighbours hsplit
  have hprevNe : m.prev node ≠ some node := by
    rw [hbefore]
    exact fun heq => hout (mem_of_getLast? heq)
  obtain ⟨hnext, hprev, hfirst, hlast, hparent⟩ := m.dllRemove_fields o hprevNe
  have herase : (s.lists o).erase node = front ++ back := by
    rw [hsplit, erase_append_right _ hout, erase_cons_head]
  rw [herase]
  refine @Describes.exchange κ ν _ _ m _ s h o front [node] [] back hsplit (nodup_cons.1 (nodup_middle.1 hnodup)).2
    nofun trivial (fun n _ hn => ?_) (fun n _ hn => ?_) (fun n hn => ?_) (fun o' => ?_) (fun o' => ?_) hparent
  · rw [hnext, if_neg fun heq => hn (mem_singleton.2 heq), hbefore, hbehind]
    rfl
  · rw [hprev, if_neg fun heq => hn (mem_singleton.2 heq), hbefore, hbehind, append_nil]
  · rw [hnext, hprev, if_pos (mem_singleton.1 hn), if_pos (mem_singleton.1 hn)]
    exact ⟨rfl, rfl⟩
  · rw [hfirst, hbefore, hbehind, h.first]
    by_cases ho : o' = o
    · rw [ho, hsplit]
      cases front <;> simp [getLast?_cons]
    · simp [ho]
  rw [hlast, hbefore, hbehind, h.last]
  by_cases ho : o' = o
  · rw [ho, hsplit]
    cases back <;> simp [getLast?_append, getLast?_cons]
  · simp [ho]

omit [DecidableEq κ] in
theorem Describes.setParent {m : Links κ ν} {s : Owned κ ν} (h : Describes m s) (node : ν) (parent : Option ν) :
    Describes (m.setParent node parent) (s.setParent node parent) :=
  ⟨h.first, h.last, h.linked, h.free, by rw [Links.setParent, Owned.setParent, h.parent], h.nodup, h.disjoint⟩

/-- **One operation on the links is the operation on plain lists.** -/
theorem Describes.apply {m : Links κ ν} {s : Owned κ ν} (h : Describes m s) {op : ListOperation κ ν} (hop : s.Allowed op) :
    Describes (m.apply op) (s.apply op) := by
  cases op with
  | dllPushBack o node => exact h.pushBack hop
  | dllPushFront o node => exact h.pushFront hop
  | dllInsertAfter o after node => exact h.insertAfter hop.1 hop.2
  | dllRemove o node => exact h.remove hop
  | treePushChild parent node => exact (h.setParent node (some parent)).pushBack hop
  | treeRemove node =>
    rw [Links.apply, Links.treeRemove, Owned.apply, h.parent]
    cases hparent : s.parents node with
    | none => exact h.setParent node none
    | some parent => exact (h.remove (hop parent hparent)).setParent node none

def Owned.empty : Owned κ ν := ⟨fun _ => [], fun _ => none⟩

omit [DecidableEq κ] [DecidableEq ν] in
theorem describes_empty : Describes (Links.empty : Links κ ν) Owned.empty where
  first _ := rfl
  last _ := rfl
  linked _ := trivial
  free _ _ := ⟨rfl, rfl⟩
  parent := rfl
  nodup _ := nodup_nil
  disjoint _ _ _ h := by cases h

/-- An operation that has nothing to do with the children of a node, except through the tree functions. -/
def ListOperation.TreesApart : ListOperation κ ν → Prop
  | .dllPushBack (.node _) _ | .dllPushFront (.node _) _ | .dllInsertAfter (.node _) _ _ | .dllRemove (.node _) _ => False
  | _ => True

/-- Children are the nodes with that parent. -/
def Owned.ParentsOfChildren (s : Owned κ ν) : Prop := ∀ node parent, s.parents node = some parent ↔ node ∈ s.lists (.node parent)

theorem Owned.setList_lists (s : Owned κ ν) (o : Owner κ ν) (nodes : List ν) (o' : Owner κ ν) :
    (s.setList o nodes).lists o' = if o' = o then nodes else s.lists o' := by
  simp only [Owned.setList, update_apply]

theorem Describes.parentsOfChildren (h : Describes m s) (hparents : s.ParentsOfChildren)
    {op : ListOperation κ ν} (hop : s.Allowed op) (hapart : op.TreesApart) :
    (s.apply op).ParentsOfChildren := by
  have houtside : ∀ (l : κ) (nodes : List ν), (s.setList (.list l) nodes).ParentsOfChildren := by
    intro l nodes node parent
    rw [Owned.setList_lists, if_neg nofun]
    exact hparents node parent
  cases op with
  | dllPushBack o node | dllPushFront o node | dllInsertAfter o after node | dllRemove o node =>
    cases o with
    | list l => exact houtside l _
    | node p => exact hapart.elim
  | treePushChild parent node =>
    intro n p
    rw [Owned.apply, Owned.setList_lists]
    have hfield : ((s.setParent node (some parent)).setList (.node parent) (s.lists (.node parent) ++ [node])).parents n =
        if n = node then some parent else s.parents n := by
      simp only [Owned.setList, Owned.setParent, update_apply]
    rw [hfield]
    by_cases hn : n = node
    · rw [if_pos hn, hn, Option.some.injEq]
      by_cases hp : p = parent
      · rw [if_pos (by rw [hp])]
        simp [hp]
      · rw [if_neg (fun heq => hp (Owner.node.inj heq))]
        exact iff_of_false (Ne.symm hp) (hop (.node p))
    rw [if_neg hn, hparents n p]
    by_cases hp : p = parent
    · rw [if_pos (by rw [hp]), hp]
      simp [hn]
    · rw [if_neg (fun heq => hp (Owner.node.inj heq))]
      exact Iff.rfl
  | treeRemove node =>
    intro n p
    cases hparent : s.parents node with
    | none =>
      have hfield : (s.setParent node none).parents n = s.parents n := by
        simp only [Owned.setParent, update_apply]
        split_ifs with hn
        · rw [hn, hparent]
        · rfl
      rw [Owned.apply, hparent]
      rw [hfield]
      exact hparents n p
    | some parent =>
      have hmem := (hparents node parent).1 hparent
      have hfield : ((s.setList (.node parent) ((s.lists (.node parent)).erase node)).setParent node none).parents n =
          if n = node then none else s.parents n := by
        simp only [Owned.setList, Owned.setParent, update_apply]
      have hlists : ((s.setList (.node parent) ((s.lists (.node parent)).erase node)).setParent node none).lists (.node p) =
          if p = parent then (s.lists (.node parent)).erase node else s.lists (.node p) := by
        rw [Owned.setParent, Owned.setList_lists]
        simp only [Owner.node.injEq]
      rw [Owned.apply, hparent]
      rw [hfield, hlists]
      by_cases hn : n = node
      · rw [if_pos hn, hn]
        refine iff_of_false nofun fun hin => ?_
        split_ifs at hin with hp
        · exact (h.nodup (.node parent)).not_mem_erase hin
        · exact hp (Owner.node.inj (h.disjoint node _ _ hin hmem))
      rw [if_neg hn, hparents n p]
      by_cases hp : p = parent
      · rw [if_pos hp, hp, mem_erase_of_ne hn]
      · rw [if_neg hp]

end Dyn.Container
