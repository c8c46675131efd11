import Dyn.Container.Chains

/-!
# std/container/hash: the tables that the chains hold

A table is the list of its entries, the latest one first.  Each slot chains the entries whose hash falls into
it, in that order.
-/

namespace Dyn.Container

open List Function
open Lib (Chained)

variable {τ ν : Type} [DecidableEq τ] [DecidableEq ν]

/-- A node in a table, with the hash and key that it was inserted with. -/
structure Entry (ν : Type) where
  node : ν
  hash : UInt64
  key : List UInt8
deriving DecidableEq, Repr

/-- The entry that a search finds: the latest one with that hash and key. -/
def lookup (entries : List (Entry ν)) (hash : UInt64) (key : List UInt8) : Option (Entry ν) :=
  entries.find? fun e => e.hash = hash ∧ e.key = key

def without (entries : List (Entry ν)) (node : ν) : List (Entry ν) := entries.filter fun e => e.node ≠ node

def chainOf (count i : Nat) (entries : List (Entry ν)) : List ν :=
  (entries.filter fun e => e.hash.toNat % count = i).map Entry.node

/-- The chains hold the entries of each table. -/
structure Holds (m : Chains τ ν) (tables : τ → List (Entry ν)) : Prop where
  pos : ∀ t, 0 < (m.slots t).length
  fields : ∀ t, ∀ e ∈ tables t, m.hash e.node = e.hash ∧ m.key e.node = e.key
  chained : ∀ t i, i < (m.slots t).length →
    Chained m.hashNext (m.head t i) (chainOf (m.slots t).length i (tables t)) none
  nodup : ∀ t, ((tables t).map Entry.node).Nodup
  disjoint : ∀ t t' e e', e ∈ tables t → e' ∈ tables t' → e.node = e'.node → t = t'

omit [DecidableEq τ] [DecidableEq ν] in
theorem mem_chainOf {count i : Nat} {entries : List (Entry ν)} {n : ν} :
    n ∈ chainOf count i entries ↔ ∃ e ∈ entries, e.hash.toNat % count = i ∧ e.node = n := by
  simp [chainOf, and_assoc]

omit [DecidableEq τ] [DecidableEq ν] in
theorem nodup_chainOf {count : Nat} {entries : List (Entry ν)} (h : (entries.map Entry.node).Nodup) (i : Nat) :
    (chainOf count i entries).Nodup :=
  (List.Sublist.map Entry.node filter_sublist).nodup h

omit [DecidableEq τ] [DecidableEq ν] in
theorem chainOf_length_le (count i : Nat) (entries : List (Entry ν)) : (chainOf count i entries).length ≤ entries.length := by
  rw [chainOf, length_map]
  exact length_filter_le _ _

omit [DecidableEq τ] [DecidableEq ν] in
theorem findLoop_spec (m : Chains τ ν) (hash : UInt64) (key : List UInt8) (stub : ν) {nodes : List ν} {link : Option ν}
    {turns : Nat} (h : Chained m.hashNext link nodes none) (hturns : nodes.length < turns) :
    m.findLoop hash key stub turns link =
      some ((nodes.find? fun n => m.hash n = hash ∧ m.key n = key).getD stub) := by
  induction nodes generalizing link turns with
  | nil =>
    obtain ⟨turns, rfl⟩ := Nat.exists_eq_succ_of_ne_zero (by omega : turns ≠ 0)
    rw [show link = none from h]
    rfl
  | cons n rest ih =>
    obtain ⟨turns, rfl⟩ := Nat.exists_eq_succ_of_ne_zero (by omega : turns ≠ 0)
    obtain ⟨rfl, hrest⟩ := h
    rw [length_cons] at hturns
    rw [Chains.findLoop, find?_cons]
    by_cases hn : m.hash n = hash ∧ m.key n = key
    · rw [if_pos ⟨hn.1, (bytesEqual_iff _ _).2 hn.2⟩, decide_eq_true hn]
      rfl
    · rw [if_neg (fun h => hn ⟨h.1, (bytesEqual_iff _ _).1 h.2⟩), decide_eq_false hn]
      exact ih hrest (by omega)

omit [DecidableEq τ] [DecidableEq ν] in
theorem find_chainOf {m : Chains τ ν} {entries : List (Entry ν)}
    (hfields : ∀ e ∈ entries, m.hash e.node = e.hash ∧ m.key e.node = e.key) (count : Nat) (hash : UInt64) (key : List UInt8) :
    (chainOf count (hash.toNat % count) entries).find? (fun n => m.hash n = hash ∧ m.key n = key) =
      (lookup entries hash key).map Entry.node := by
  induction entries with
  | nil => rfl
  | cons e entries ih =>
    have hrest := ih fun e' he' => hfields e' (mem_cons_of_mem _ he')
    obtain ⟨hhash, hkey⟩ := hfields e mem_cons_self
    rw [lookup, find?_cons]
    by_cases he : e.hash = hash ∧ e.key = key
    · rw [decide_eq_true he, chainOf, filter_cons_of_pos (by simp [he.1]), map_cons, find?_cons,
        hhash, hkey, decide_eq_true he]
      rfl
    rw [decide_eq_false he]
    by_cases hslot : e.hash.toNat % count = hash.toNat % count
    · rw [chainOf, filter_cons_of_pos (by simp [hslot]), map_cons, find?_cons, hhash, hkey,
        decide_eq_false he]
      exact hrest
    · rw [chainOf, filter_cons_of_neg (by simp [hslot])]
      exact hrest

omit [DecidableEq τ] [DecidableEq ν] in
/-- **A search finds the latest entry with that hash and key**, or the stub. -/
theorem Holds.find {m : Chains τ ν} {tables : τ → List (Entry ν)} (h : Holds m tables) {t : τ} {turns : Nat}
    (hturns : (tables t).length < turns) (hash : UInt64) (key : List UInt8) (stub : ν) :
    m.find turns t hash key stub = some (((lookup (tables t) hash key).map Entry.node).getD stub) := by
  have hslot : m.slotOf t hash < (m.slots t).length := Nat.mod_lt _ (h.pos t)
  have hlength := chainOf_length_le (m.slots t).length (m.slotOf t hash) (tables t)
  rw [Chains.find, findLoop_spec m hash key stub (h.chained t _ hslot) (by omega)]
  exact congrArg (fun found => some (Option.getD found stub)) (find_chainOf (h.fields t) _ hash key)

omit [DecidableEq ν] in
theorem head_setSlot (m : Chains τ ν) {t : τ} {i : Nat} (hi : i < (m.slots t).length) (link : Option ν) (t' : τ) (j : Nat) :
    (m.setSlot t i link).head t' j = if t' = t ∧ j = i then link else m.head t' j := by
  unfold Chains.head Chains.setSlot
  dsimp only
  by_cases ht : t' = t
  · subst ht
    rw [update_self, getD_eq_getElem?_getD, getElem?_set]
    by_cases hj : j = i
    · subst hj
      simp [hi]
    · simp [hj, Ne.symm hj]
  · rw [update_of_ne ht]
    simp [ht]

omit [DecidableEq ν] in
theorem slots_setSlot (m : Chains τ ν) (t : τ) (i : Nat) (link : Option ν) (t' : τ) :
    ((m.setSlot t i link).slots t').length = (m.slots t').length := by
  rw [Chains.setSlot]
  dsimp only
  by_cases ht : t' = t
  · subst ht
    rw [update_self, length_set]
  · rw [update_of_ne ht]

variable {m : Chains τ ν} {tables : τ → List (Entry ν)} {node : ν}

theorem Holds.insert (h : Holds m tables) (t : τ) (hfree : ∀ t', ∀ e ∈ tables t', e.node ≠ node)
    (hash : UInt64) (key : List UInt8) :
    Holds ((m.setKey node hash key).insert t node) (update tables t (⟨node, hash, key⟩ :: tables t)) := by
  let slot := hash.toNat % (m.slots t).length
  have hslot : slot < (m.slots t).length := Nat.mod_lt _ (h.pos t)
  have hinsert : (m.setKey node hash key).insert t node =
      ((m.setKey node hash key).setHashNext node (m.head t slot)).setSlot t slot (some node) := by
    simp only [Chains.insert, Chains.setKey, Chains.slotOf, Chains.head, update_self, slot]
  have hhead : ∀ t' j, ((m.setKey node hash key).insert t node).head t' j =
      if t' = t ∧ j = slot then some node else m.head t' j := by
    intro t' j
    rw [hinsert]
    exact head_setSlot ((m.setKey node hash key).setHashNext node (m.head t slot)) hslot (some node) t' j
  have hlength : ∀ t', (((m.setKey node hash key).insert t node).slots t').length = (m.slots t').length := by
    intro t'
    rw [hinsert]
    exact slots_setSlot ((m.setKey node hash key).setHashNext node (m.head t slot)) t slot (some node) t'
  have hnext : ((m.setKey node hash key).insert t node).hashNext = update m.hashNext node (m.head t slot) := by
    rw [hinsert]
    rfl
  have hfields : ∀ n, n ≠ node → ((m.setKey node hash key).insert t node).hash n = m.hash n ∧
      ((m.setKey node hash key).insert t node).key n = m.key n := by
    intro n hn
    rw [hinsert]
    exact ⟨update_of_ne hn _ _, update_of_ne hn _ _⟩
  have hown : ((m.setKey node hash key).insert t node).hash node = hash ∧
      ((m.setKey node hash key).insert t node).key node = key := by
    rw [hinsert]
    exact ⟨update_self _ _ _, update_self _ _ _⟩
  have htables : ∀ t', update tables t (⟨node, hash, key⟩ :: tables t) t' =
      if t' = t then ⟨node, hash, key⟩ :: tables t else tables t' := fun t' => update_apply _ _ _ _
  have hold : ∀ t' j, j < (m.slots t').length → Chained ((m.setKey node hash key).insert t node).hashNext (m.head t' j)
      (chainOf (m.slots t').length j (tables t')) none := by
    intro t' j hj
    refine (h.chained t' j hj).congr fun n hn => ?_
    obtain ⟨e, he, -, rfl⟩ := mem_chainOf.1 hn
    rw [hnext, update_of_ne (hfree t' e he)]
  refine ⟨fun t' => ?_, fun t' e he => ?_, fun t' j hj => ?_, fun t' => ?_, fun t1 t2 e1 e2 h₁ h₂ heq => ?_⟩
  · rw [hlength]
    exact h.pos t'
  · rw [htables] at he
    split_ifs at he with ht
    · rcases mem_cons.1 he with rfl | he
      · exact hown
      · rw [(hfields _ (hfree t e he)).1, (hfields _ (hfree t e he)).2]
        exact h.fields t e he
    · rw [(hfields _ (hfree t' e he)).1, (hfields _ (hfree t' e he)).2]
      exact h.fields t' e he
  · rw [hlength] at hj
    rw [hhead, hlength, htables]
    by_cases ht : t' = t
    · subst ht
      rw [if_pos rfl]
      by_cases hjs : j = slot
      · rw [if_pos ⟨rfl, hjs⟩, hjs, chainOf, filter_cons_of_pos (by simp [slot]), map_cons]
        refine ⟨rfl, ?_⟩
        rw [hnext, update_self, ← hnext]
        exact hold t' slot hslot
      · rw [if_neg (fun h => hjs h.2), chainOf, filter_cons_of_neg (by simpa [slot] using Ne.symm hjs)]
        exact hold t' j hj
    · rw [if_neg (fun h => ht h.1), if_neg ht]
      exact hold t' j hj
  · rw [htables]
    split_ifs
    · rw [map_cons]
      refine nodup_cons.2 ⟨fun hmem => ?_, h.nodup t⟩
      obtain ⟨e, he, heq⟩ := mem_map.1 hmem
      exact hfree t e he heq
    · exact h.nodup t'
  · rw [htables] at h₁ h₂
    split_ifs at h₁ h₂ with ht1 ht2 ht2
    · rw [ht1, ht2]
    · rcases mem_cons.1 h₁ with rfl | h₁
      · exact absurd heq.symm (hfree t2 e2 h₂)
      · rw [ht1]
        exact h.disjoint t t2 e1 e2 h₁ h₂ heq
    · rcases mem_cons.1 h₂ with rfl | h₂
      · exact absurd heq (hfree t1 e1 h₁)
      · rw [ht2]
        exact h.disjoint t1 t e1 e2 h₁ h₂ heq
    · exact h.disjoint t1 t2 e1 e2 h₁ h₂ heq

theorem removeLoop_missing (m : Chains τ ν) (t : τ) {nodes : List ν} (link : Link ν) (turns : Nat)
    (h : Chained m.hashNext (m.read t link) nodes none) (hout : node ∉ nodes)
    (hturns : nodes.length < turns) : m.removeLoop t node turns link = some (m, false) := by
  induction nodes generalizing link turns with
  | nil =>
    obtain ⟨turns, rfl⟩ := Nat.exists_eq_succ_of_ne_zero (by omega : turns ≠ 0)
    rw [Chains.removeLoop, show m.read t link = none from h]
  | cons n rest ih =>
    obtain ⟨turns, rfl⟩ := Nat.exists_eq_succ_of_ne_zero (by omega : turns ≠ 0)
    obtain ⟨hread, hrest⟩ := h
    rw [length_cons] at hturns
    rw [mem_cons, not_or] at hout
    rw [Chains.removeLoop, hread]
    dsimp only
    rw [if_neg (Ne.symm hout.1)]
    exact ih (.next n) turns hrest hout.2 (by omega)

/-- The link that points to a node behind others. -/
def linkBehind (link : Link ν) (front : List ν) : Link ν :=
  match front.getLast? with
  | none => link
  | some last => .next last

theorem removeLoop_present (m : Chains τ ν) (t : τ) {front back : List ν} (link : Link ν)
    (turns : Nat) (h : Chained m.hashNext (m.read t link) (front ++ node :: back) none)
    (hout : node ∉ front) (hturns : front.length < turns) :
    m.removeLoop t node turns link =
      some ((m.write t (linkBehind link front) (m.hashNext node)).setHashNext node none, true) := by
  induction front generalizing link turns with
  | nil =>
    obtain ⟨turns, rfl⟩ := Nat.exists_eq_succ_of_ne_zero (by omega : turns ≠ 0)
    rw [Chains.removeLoop, h.1]
    exact if_pos rfl
  | cons n front ih =>
    obtain ⟨turns, rfl⟩ := Nat.exists_eq_succ_of_ne_zero (by omega : turns ≠ 0)
    obtain ⟨hread, hrest⟩ := h
    rw [length_cons] at hturns
    rw [mem_cons, not_or] at hout
    have hlink : linkBehind link (n :: front) = linkBehind (.next n) front := by
      rw [linkBehind, linkBehind, getLast?_cons]
      cases front.getLast? <;> rfl
    rw [Chains.removeLoop, hread]
    dsimp only
    rw [if_neg (Ne.symm hout.1), hlink]
    exact ih (.next n) turns hrest hout.2 (by omega)

omit [DecidableEq τ] in
theorem chainOf_without (count i : Nat) (entries : List (Entry ν)) (node : ν) :
    chainOf count i (without entries node) = (chainOf count i entries).filter fun n => n ≠ node := by
  rw [chainOf, chainOf, without, filter_map, filter_filter, filter_filter]
  congr 1
  exact filter_congr fun e _ => Bool.and_comm _ _

omit [DecidableEq τ] in
theorem filter_ne_self {nodes : List ν} {node : ν} (h : node ∉ nodes) : (nodes.filter fun n => n ≠ node) = nodes :=
  filter_eq_self.2 fun _ hn => decide_eq_true fun heq => h (heq ▸ hn)

theorem remove_fields (m : Chains τ ν) (t : τ) {node : ν} (front : List ν) {slot : Nat} (hslot : slot < (m.slots t).length) :
    let m' := (m.write t (linkBehind (.slot slot) front) (m.hashNext node)).setHashNext node none
    (∀ n, n ≠ node → m'.hashNext n = if front.getLast? = some n then m.hashNext node else m.hashNext n) ∧
      (m'.head t slot = if front = [] then m.hashNext node else m.head t slot) ∧
      (∀ t' j, ¬ (t' = t ∧ j = slot) → m'.head t' j = m.head t' j) ∧
      (∀ t', (m'.slots t').length = (m.slots t').length) ∧ m'.hash = m.hash ∧ m'.key = m.key := by
  rcases eq_nil_or_concat front with rfl | ⟨front, last, rfl⟩
  · refine ⟨fun n hn => update_of_ne hn _ _, ?_, fun t' j hout => ?_,
      slots_setSlot m t slot (m.hashNext node), rfl, rfl⟩
    · exact (head_setSlot m hslot (m.hashNext node) t slot).trans (if_pos ⟨rfl, rfl⟩)
    · exact (head_setSlot m hslot (m.hashNext node) t' j).trans (if_neg hout)
  have hlink : linkBehind (.slot slot) (front.concat last) = .next last := by
    rw [linkBehind, concat_eq_append, getLast?_append]
    rfl
  have hlast : (front.concat last).getLast? = some last := by
    rw [concat_eq_append, getLast?_append]
    rfl
  have hne : ¬ front.concat last = [] := by
    rw [concat_eq_append]
    exact append_ne_nil_of_right_ne_nil _ (cons_ne_nil _ _)
  rw [hlink, hlast]
  refine ⟨fun n hn => ?_, (if_neg hne).symm, fun _ _ _ => rfl, fun _ => rfl, rfl, rfl⟩
  simp only [Chains.write, Chains.setHashNext, update_apply, if_neg hn, Option.some.injEq,
    eq_comm (a := n) (b := last)]

/-- **A removal takes the entry of a node out of the table**, and says whether there is one. -/
theorem Holds.remove (h : Holds m tables) (t : τ) (node : ν) {turns : Nat}
    (hturns : (tables t).length < turns) :
    ∃ m', m.remove turns t node = some (m', decide (node ∈ (tables t).map Entry.node)) ∧
      Holds m' (update tables t (without (tables t) node)) := by
  let slot := m.slotOf t (m.hash node)
  have hslot : slot < (m.slots t).length := Nat.mod_lt _ (h.pos t)
  have hchain := h.chained t slot hslot
  have hlengths := chainOf_length_le (m.slots t).length slot (tables t)
  by_cases hmem : node ∈ (tables t).map Entry.node
  · obtain ⟨e, he, hnode⟩ := mem_map.1 hmem
    have hin : node ∈ chainOf (m.slots t).length slot (tables t) := by
      refine mem_chainOf.2 ⟨e, he, ?_, hnode⟩
      rw [← (h.fields t e he).1, hnode]
      rfl
    obtain ⟨front, back, hsplit⟩ := append_of_mem hin
    have hnodup := @nodup_chainOf ν (m.slots t).length (tables t) (h.nodup t) slot
    rw [hsplit] at hnodup hchain hlengths
    obtain ⟨-, hnodupBack, hcross⟩ := nodup_append.1 hnodup
    have hnodeFront : node ∉ front := fun hmem => hcross node hmem node mem_cons_self rfl
    have hnodeBack := (nodup_cons.1 hnodupBack).1
    rw [length_append, length_cons] at hlengths
    have hloop := removeLoop_present m t (.slot slot) turns hchain hnodeFront (by omega)
    have hremoved := Chained.remove hnodup (remove_fields m t front hslot).1 hchain
    obtain ⟨hnext, hhead, hheads, hlength, hhash, hkey⟩ := @remove_fields τ ν _ _ m t node front slot hslot
    generalize (m.write t (linkBehind (.slot slot) front) (m.hashNext node)).setHashNext node none = m' at *
    have htables : ∀ t', update tables t (without (tables t) node) t' =
        if t' = t then without (tables t) node else tables t' := fun t' => update_apply _ _ _ _
    have hsub : ∀ t', ∀ e ∈ (if t' = t then without (tables t) node else tables t'), e ∈ tables t' := by
      intro t' e he
      split_ifs at he with ht
      · rw [ht]
        exact mem_of_mem_filter he
      · exact he
    refine ⟨m', by rw [decide_eq_true hmem]; exact hloop, fun t' => ?_, fun t' e he => ?_, fun t' j hj => ?_, fun t' => ?_,
      fun t1 t2 e1 e2 h₁ h₂ heq => ?_⟩
    · rw [hlength]
      exact h.pos t'
    · rw [htables] at he
      rw [hhash, hkey]
      exact h.fields t' e (hsub t' e he)
    · rw [hlength] at hj
      rw [hlength, htables]
      by_cases hts : t' = t ∧ j = slot
      · obtain ⟨rfl, rfl⟩ := hts
        have hrest : chainOf (m.slots t').length slot (without (tables t') node) = front ++ back := by
          rw [chainOf_without, hsplit, filter_append, filter_cons_of_neg (by simp), filter_ne_self hnodeFront,
            filter_ne_self hnodeBack]
        rw [if_pos rfl, hhead, hrest]
        exact hremoved
      rw [hheads t' j hts]
      have houtside : node ∉ chainOf (m.slots t').length j (tables t') := by
        intro hin
        obtain ⟨e', he', hslot', hnode'⟩ := mem_chainOf.1 hin
        have ht := h.disjoint t' t e' e he' he (hnode'.trans hnode.symm)
        refine hts ⟨ht, ?_⟩
        rw [← hslot', ← (h.fields t' e' he').1, hnode', ht]
        rfl
      have hchainEq : chainOf (m.slots t').length j (if t' = t then without (tables t) node else tables t') =
          chainOf (m.slots t').length j (tables t') := by
        split_ifs with ht
        · rw [ht] at houtside ⊢
          rw [chainOf_without, filter_ne_self houtside]
        · rfl
      rw [hchainEq]
      refine (h.chained t' j hj).congr fun n hn => ?_
      have hne : n ≠ node := fun heq => houtside (heq ▸ hn)
      rw [hnext n hne, if_neg]
      intro hlast
      obtain ⟨e', he', hslot', rfl⟩ := mem_chainOf.1 hn
      have hlastIn : e'.node ∈ chainOf (m.slots t).length slot (tables t) := by
        rw [hsplit]
        exact mem_append_left _ (mem_of_getLast? hlast)
      obtain ⟨e'', he'', hslot'', hnode''⟩ := mem_chainOf.1 hlastIn
      have ht := h.disjoint t' t e' e'' he' he'' hnode''.symm
      refine hts ⟨ht, ?_⟩
      rw [← hslot', ← hslot'', ← (h.fields t' e' he').1, ← (h.fields t e'' he'').1, hnode'', ht]
    · rw [htables]
      split_ifs
      · exact (List.Sublist.map Entry.node filter_sublist).nodup (h.nodup t)
      · exact h.nodup t'
    · rw [htables] at h₁ h₂
      exact h.disjoint t1 t2 e1 e2 (hsub t1 e1 h₁) (hsub t2 e2 h₂) heq
  · have hout : node ∉ chainOf (m.slots t).length slot (tables t) := by
      intro hin
      obtain ⟨e, he, -, hnode⟩ := mem_chainOf.1 hin
      exact hmem (mem_map.2 ⟨e, he, hnode⟩)
    have hloop := removeLoop_missing m t (.slot slot) turns hchain hout (by omega)
    have hwithout : without (tables t) node = tables t := by
      refine filter_eq_self.2 fun e he => decide_eq_true fun heq => hmem (mem_map.2 ⟨e, he, heq⟩)
    refine ⟨m, by rw [decide_eq_false hmem]; exact hloop, ?_⟩
    rw [hwithout, update_eq_self]
    exact h

end Dyn.Container
