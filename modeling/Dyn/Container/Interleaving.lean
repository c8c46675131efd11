import Dyn.Container.LinkRuns
import Dyn.Container.ChainRuns

/-!
# std/container: lists and tables over one heap

The operations come in any order, on any lists, trees and tables.  After each of them the links and chains
describe the plain lists and tables that the same operations give.
-/

namespace Dyn.Container

open List Function

variable {κ τ ν : Type} [DecidableEq κ] [DecidableEq τ] [DecidableEq ν]

/-- A call, with what it is called on.  The caller sets hash and key of a node before it inserts the node. -/
inductive Operation (κ τ ν : Type) where
  | list (op : ListOperation κ ν)
  | insert (t : τ) (node : ν) (hash : UInt64) (key : List UInt8)
  | remove (t : τ) (node : ν)

structure Heap (κ τ ν : Type) where
  links : Links κ ν
  chains : Chains τ ν

def Heap.apply (turns : Nat) (heap : Heap κ τ ν) : Operation κ τ ν → Option (Heap κ τ ν × Option Bool)
  | .list op => some ({ heap with links := heap.links.apply op }, none)
  | .insert t node hash key => some ({ heap with chains := (heap.chains.setKey node hash key).insert t node }, none)
  | .remove t node =>
      match heap.chains.remove turns t node with
      | none => none
      | some (chains, removed) => some ({ heap with chains }, some removed)

def Heap.run (turns : Nat) (heap : Heap κ τ ν) : List (Operation κ τ ν) → Option (Heap κ τ ν × List (Option Bool))
  | [] => some (heap, [])
  | op :: rest =>
      match heap.apply turns op with
      | none => none
      | some (heap, answer) =>
          match heap.run turns rest with
          | none => none
          | some (heap, answers) => some (heap, answer :: answers)

structure Contents (κ τ ν : Type) where
  owned : Owned κ ν
  tables : τ → List (Entry ν)

namespace Contents

def empty : Contents κ τ ν := ⟨Owned.empty, fun _ => []⟩

def apply (c : Contents κ τ ν) : Operation κ τ ν → Contents κ τ ν
  | .list op => { c with owned := c.owned.apply op }
  | .insert t node hash key => { c with tables := update c.tables t (⟨node, hash, key⟩ :: c.tables t) }
  | .remove t node => { c with tables := update c.tables t (without (c.tables t) node) }

/-- A removal says whether the node is in the table. -/
def answer (c : Contents κ τ ν) : Operation κ τ ν → Option Bool
  | .remove t node => some (decide (node ∈ (c.tables t).map Entry.node))
  | _ => none

/-- Lists are used as documented, and a node is in at most one table. -/
def Allowed (c : Contents κ τ ν) : Operation κ τ ν → Prop
  | .list op => c.owned.Allowed op
  | .insert _ node _ _ => ∀ t, ∀ e ∈ c.tables t, e.node ≠ node
  | .remove _ _ => True

def run (c : Contents κ τ ν) (operations : List (Operation κ τ ν)) : Contents κ τ ν := operations.foldl apply c

def answers (c : Contents κ τ ν) : List (Operation κ τ ν) → List (Option Bool)
  | [] => []
  | op :: rest => c.answer op :: (c.apply op).answers rest

def AllowedRun (c : Contents κ τ ν) : List (Operation κ τ ν) → Prop
  | [] => True
  | op :: rest => c.Allowed op ∧ (c.apply op).AllowedRun rest

end Contents

/-- A call on a list that is not one of the tree functions' lists, or on a table. -/
def Operation.TreesApart : Operation κ τ ν → Prop
  | .list op => op.TreesApart
  | _ => True

/-- The heap describes the lists and holds the tables. -/
structure Heap.Shows (heap : Heap κ τ ν) (c : Contents κ τ ν) : Prop where
  links : Describes heap.links c.owned
  chains : Holds heap.chains c.tables

theorem Heap.Shows.apply {heap : Heap κ τ ν} {c : Contents κ τ ν} (h : heap.Shows c) {op : Operation κ τ ν}
    (hop : c.Allowed op) {turns : Nat} (hturns : ∀ t, (c.tables t).length < turns) :
    ∃ heap', heap.apply turns op = some (heap', c.answer op) ∧ heap'.Shows (c.apply op) := by
  cases op with
  | list op => exact ⟨_, rfl, h.links.apply hop, h.chains⟩
  | insert t node hash key => exact ⟨_, rfl, h.links, h.chains.insert t hop hash key⟩
  | remove t node =>
    obtain ⟨chains, hremove, hholds⟩ := h.chains.remove t node (hturns t)
    refine ⟨{ heap with chains }, ?_, h.links, hholds⟩
    rw [Heap.apply, hremove]
    rfl

theorem Contents.tables_length (c : Contents κ τ ν) (op : Operation κ τ ν) (t : τ) :
    ((c.apply op).tables t).length ≤ (c.tables t).length + 1 := by
  cases op with
  | list op => exact Nat.le_succ _
  | insert t' node hash key =>
    have hsplit : (c.apply (.insert t' node hash key)).tables t =
        if t = t' then ⟨node, hash, key⟩ :: c.tables t' else c.tables t := update_apply _ _ _ _
    rw [hsplit]
    split_ifs with ht
    · rw [ht, length_cons]
    · exact Nat.le_succ _
  | remove t' node =>
    have hsplit : (c.apply (.remove t' node)).tables t =
        if t = t' then without (c.tables t') node else c.tables t := update_apply _ _ _ _
    rw [hsplit]
    split_ifs with ht
    · rw [ht]
      exact Nat.le_succ_of_le (length_filter_le _ _)
    · exact Nat.le_succ _

variable {c : Contents κ τ ν} {operations : List (Operation κ τ ν)}

/-- **After any calls in any order the heap shows what the calls give on plain lists and tables**, and each
removal has said whether the node was in the table. -/
theorem Heap.Shows.run {heap : Heap κ τ ν} (h : heap.Shows c) (hallowed : c.AllowedRun operations)
    {turns : Nat} (hturns : ∀ t, (c.tables t).length + operations.length < turns) :
    ∃ heap', heap.run turns operations = some (heap', c.answers operations) ∧ heap'.Shows (c.run operations) ∧
      ∀ t, ((c.run operations).tables t).length < turns := by
  induction operations generalizing heap c with
  | nil => exact ⟨heap, rfl, h, hturns⟩
  | cons op rest ih =>
    obtain ⟨hop, hrest⟩ := hallowed
    rw [length_cons] at hturns
    obtain ⟨next, happly, hnext⟩ := @Heap.Shows.apply κ τ ν _ _ _ heap c h op hop turns fun t => by
      have hnow := hturns t
      omega
    obtain ⟨last, hrun, hlast, hlengths⟩ := ih hnext hrest fun t => by
      have hnow := hturns t
      have hgrown := c.tables_length op t
      omega
    refine ⟨last, ?_, hlast, hlengths⟩
    rw [Heap.run, happly]
    dsimp only
    rw [hrun]
    rfl

/-- Calls that leave children to the tree functions keep children the nodes with that parent. -/
theorem parentsOfChildren_run {m : Links κ ν} (h : Describes m c.owned)
    (hparents : c.owned.ParentsOfChildren) (hallowed : c.AllowedRun operations)
    (hapart : ∀ op ∈ operations, op.TreesApart) : (c.run operations).owned.ParentsOfChildren := by
  induction operations generalizing m c with
  | nil => exact hparents
  | cons op rest ih =>
    obtain ⟨hop, hrest⟩ := hallowed
    have hlater : ∀ op ∈ rest, op.TreesApart := fun op hmem => hapart op (mem_cons_of_mem _ hmem)
    cases op with
    | list op => exact ih (h.apply hop) (h.parentsOfChildren hparents hop (hapart _ mem_cons_self)) hrest hlater
    | insert t node hash key | remove t node => exact ih h hparents hrest hlater

omit [DecidableEq τ] [DecidableEq ν] in
theorem holds_empty {m : Chains τ ν} (h : ∀ t, ∃ count, 0 < count ∧ m.slots t = List.replicate count none) :
    Holds m fun _ => [] where
  pos t := by
    obtain ⟨count, hcount, hslots⟩ := h t
    rw [hslots, length_replicate]
    exact hcount
  fields t e he := by cases he
  chained t i hi := by
    obtain ⟨count, -, hslots⟩ := h t
    have hnil : m.head t i = none := by
      rw [Chains.head, hslots, getD_eq_getElem?_getD, getElem?_replicate]
      split_ifs <;> rfl
    exact hnil
  nodup _ := nodup_nil
  disjoint t t' e e' he := by cases he

/-- **Lists and hash chains stay well formed.**  From zeroed nodes and empty slots, any calls that use lists as
documented return, and afterwards the links and chains are those of the plain lists and tables.  A search finds
the latest node with that hash and key, or the stub, and a removal says whether the node is in the table. -/
theorem lists_and_chains_well_formed {chains : Chains τ ν}
    (hslots : ∀ t, ∃ count, 0 < count ∧ chains.slots t = List.replicate count none)
    {operations : List (Operation κ τ ν)} (hallowed : (Contents.empty : Contents κ τ ν).AllowedRun operations) {turns : Nat}
    (hturns : operations.length < turns) :
    ∃ heap, Heap.run turns ⟨Links.empty, chains⟩ operations = some (heap, Contents.empty.answers operations) ∧
      Describes heap.links (Contents.empty.run operations).owned ∧
      ((∀ op ∈ operations, op.TreesApart) → (Contents.empty.run operations).owned.ParentsOfChildren) ∧
      ∀ t, (∀ hash key stub, heap.chains.find turns t hash key stub =
          some (((lookup ((Contents.empty.run operations).tables t) hash key).map Entry.node).getD stub)) ∧
        ∀ node, (heap.chains.remove turns t node).map Prod.snd =
          some (decide (node ∈ ((Contents.empty.run operations).tables t).map Entry.node)) := by
  have hstart : Heap.Shows (⟨Links.empty, chains⟩ : Heap κ τ ν) Contents.empty := ⟨describes_empty, holds_empty hslots⟩
  obtain ⟨heap, hrun, hshows, hlengths⟩ := hstart.run hallowed fun t => by simpa [Contents.empty] using hturns
  refine ⟨heap, hrun, hshows.links, ?_, fun t => ⟨fun hash key stub => hshows.chains.find (hlengths t) hash key stub,
    fun node => ?_⟩⟩
  · exact parentsOfChildren_run hstart.links
      (fun node parent => iff_of_false nofun nofun) hallowed
  obtain ⟨chains', hremove, -⟩ := hshows.chains.remove t node (hlengths t)
  rw [hremove]
  rfl

/-- A list with one node that has a child, and a table of two slots. -/
def sampleCalls : List (Operation Unit Unit (Fin 3)) :=
  [.list (.dllPushBack (.list ()) 0), .list (.treePushChild 0 1), .insert () 0 7 [1], .remove () 0, .remove () 0]

theorem lists_and_chains_well_formed_sample :
    ∃ heap, Heap.run 6 ⟨Links.empty, ⟨fun _ => [], fun _ => 0, fun _ => none, fun _ => [none, none]⟩⟩ sampleCalls =
        some (heap, [none, none, none, some true, some false]) ∧
      Describes heap.links ((Contents.empty : Contents Unit Unit (Fin 3)).run sampleCalls).owned := by
  have hslots : ∀ t : Unit, ∃ count, 0 < count ∧
      (⟨fun _ => [], fun _ => 0, fun _ => none, fun _ => [none, none]⟩ : Chains Unit (Fin 3)).slots t = replicate count none :=
    fun _ => ⟨2, by decide, rfl⟩
  have hallowed : (Contents.empty : Contents Unit Unit (Fin 3)).AllowedRun sampleCalls := by
    refine ⟨fun o => not_mem_nil, fun o => ?_, fun t e he => (by cases he), trivial, trivial, trivial⟩
    simp [Contents.apply, Contents.empty, Owned.apply, Owned.setList, Owned.empty, update_apply]
  obtain ⟨heap, hrun, hdescribes, -⟩ :=
    @lists_and_chains_well_formed Unit Unit (Fin 3) _ _ _ _ hslots sampleCalls hallowed 6 (by decide)
  exact ⟨heap, hrun, hdescribes⟩

end Dyn.Container
