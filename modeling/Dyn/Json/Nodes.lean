import Dyn.Json.Grammar

/-!
# std/encoding/json: trees of nodes

Values are nodes in an arena, linked by pointers to the parent, the first and the last child
and the next sibling.  A pointer is the number of the node among those allocated.

A `Shape` is a forest together with the pointers of its nodes, and `Holds` says that the nodes
are linked as a shape says.  `append_holds` is the effect of `append` on shapes: it grafts the
child behind the last child of its parent, wherever the parent stands in its tree.
-/

namespace Dyn.Json

open List Function

structure Value where
  kind : Kind := .Missing
  boolean : Bool := false
  text : List UInt8 := []
  key : List UInt8 := []
  first : Option Nat := none
  last : Option Nat := none
  next : Option Nat := none
  parent : Option Nat := none
deriving DecidableEq, Repr

structure Nodes where
  value : Nat → Value := fun _ => {}
  used : Nat := 0

namespace Nodes

def set (nodes : Nodes) (p : Nat) (v : Value) : Nodes :=
  { nodes with value := update nodes.value p v }

@[simp] theorem set_used (nodes : Nodes) (p : Nat) (v : Value) : (nodes.set p v).used = nodes.used :=
  rfl

@[simp] theorem set_same (nodes : Nodes) (p : Nat) (v : Value) : (nodes.set p v).value p = v := by
  simp [set]

theorem set_other (nodes : Nodes) {p q : Nat} (h : q ≠ p) (v : Value) :
    (nodes.set p v).value q = nodes.value q := by
  simp [set, h]

end Nodes

/-- `node`: a new node of the given kind. -/
def node (nodes : Nodes) (kind : Kind) : Nat × Nodes :=
  (nodes.used, { value := update nodes.value nodes.used { kind := kind },
                 used := nodes.used + 1 })

/-- `append`.  A node with a first child has a last child. -/
def append (nodes : Nodes) (parent child : Nat) : Nodes :=
  let nodes := nodes.set child { nodes.value child with parent := some parent }
  let nodes :=
    match (nodes.value parent).first with
    | none => nodes.set parent { nodes.value parent with first := some child }
    | some _ =>
        match (nodes.value parent).last with
        | none => nodes
        | some last => nodes.set last { nodes.value last with next := some child }
  nodes.set parent { nodes.value parent with last := some child }

variable (nodes : Nodes) {value : Nat → Value} {parent : Option Nat}

theorem append_used (parent child : Nat) : (append nodes parent child).used = nodes.used := by
  unfold append
  dsimp only
  split
  · rfl
  · split <;> rfl

/-- Siblings in order with their pointers, each with its children. -/
inductive Shape where
  | nil
  | node (p : Nat) (datum : Datum) (key : List UInt8) (first next : Shape)

namespace Shape

def forest : Shape → Forest
  | .nil => .nil
  | .node _ datum key first next => .node datum key first.forest next.forest

def ids : Shape → List Nat
  | .nil => []
  | .node p _ _ first next => p :: (first.ids ++ next.ids)

def head : Shape → Option Nat
  | .nil => none
  | .node p _ _ _ _ => some p

def last : Shape → Option Nat
  | .nil => none
  | .node p _ _ _ .nil => some p
  | .node _ _ _ _ next => next.last

def snoc : Shape → Shape → Shape
  | .nil, child => child
  | .node p datum key first next, child => .node p datum key first (next.snoc child)

/-- A child behind the last child of the node `p`. -/
def graft (p : Nat) : Shape → Shape → Shape
  | .nil, _ => .nil
  | .node q datum key first next, child =>
      .node q datum key (if q = p then first.snoc child else first.graft p child)
        (next.graft p child)

end Shape

/-- The node that a shape wants at its pointer. -/
def nodeValue (datum : Datum) (key : List UInt8) (first next : Shape) (parent : Option Nat) :
    Value where
  kind := datum.kind
  boolean := datum.boolean
  text := datum.text
  key := key
  first := first.head
  last := first.last
  next := next.head
  parent := parent

/-- The nodes are linked as the shape says. -/
def Holds (value : Nat → Value) (parent : Option Nat) : Shape → Prop
  | .nil => True
  | .node p datum key first next =>
      value p = nodeValue datum key first next parent ∧ Holds value (some p) first ∧
        Holds value parent next

variable {value' : Nat → Value} {p : Nat} {shape : Shape} (kind : Kind)

theorem Holds.congr : ∀ {parent : Option Nat} {shape : Shape},
    Holds value parent shape → (∀ p ∈ shape.ids, value' p = value p) → Holds value' parent shape
  | _, .nil, _, _ => trivial
  | parent, .node p datum key first next, ⟨hp, hf, hn⟩, h => by
    refine ⟨?_, hf.congr (fun q hq => h q ?_), hn.congr (fun q hq => h q ?_)⟩
    · rw [h p mem_cons_self, hp]
    · exact mem_cons_of_mem _ (mem_append_left _ hq)
    · exact mem_cons_of_mem _ (mem_append_right _ hq)

theorem holds_forest : ∀ {parent parent' : Option Nat} {shape shape' : Shape},
    Holds value parent shape → Holds value parent' shape' → shape.head = shape'.head →
    shape.forest = shape'.forest
  | _, _, .nil, .nil, _, _, _ => rfl
  | _, _, .nil, .node .., _, _, h => by cases h
  | _, _, .node .., .nil, _, _, h => by cases h
  | _, _, .node p datum key first next, .node q datum' key' first' next', ⟨hp, hf, hn⟩,
      ⟨hq, hf', hn'⟩, h => by
      cases h
      have hv := hp.symm.trans hq
      injection hv with hkind hbool htext hkey hfirst _ hnext _
      obtain ⟨k', b', t'⟩ := datum'
      subst hkind hbool htext hkey
      rw [Shape.forest, Shape.forest, holds_forest hf hf' hfirst, holds_forest hn hn' hnext]

theorem snoc_ids (child : Shape) : ∀ shape : Shape, (shape.snoc child).ids = shape.ids ++ child.ids
  | .nil => rfl
  | .node p datum key first next => by
    rw [Shape.snoc, Shape.ids, snoc_ids child next, Shape.ids, cons_append, append_assoc]

theorem snoc_head (child : Shape) (shape : Shape) :
    (shape.snoc child).head = if shape.head = none then child.head else shape.head := by
  cases shape <;> rfl

theorem snoc_last {c : Nat} {datum : Datum} {key : List UInt8} {first : Shape} :
    ∀ shape : Shape, (shape.snoc (.node c datum key first .nil)).last = some c
  | .nil | .node p datum' key' first' .nil => rfl
  | .node p datum' key' first' (.node q d k f n) => by
    have ih := @snoc_last c datum key first (.node q d k f n)
    rw [Shape.snoc, Shape.snoc]
    rw [Shape.snoc] at ih
    rw [Shape.last]
    · exact ih
    · simp

theorem last_mem : ∀ {shape : Shape} {q : Nat}, shape.last = some q → q ∈ shape.ids
  | .nil, q, h => by cases h
  | .node p datum key first .nil, q, h => by
    cases h
    exact mem_cons_self
  | .node p datum key first (.node p' d k f n), q, h => by
    rw [Shape.last] at h
    · exact mem_cons_of_mem _ (mem_append_right _ (last_mem h))
    · simp

theorem last_none : ∀ {shape : Shape}, shape.last = none ↔ shape.head = none
  | .nil | .node p datum key first .nil => by simp [Shape.last, Shape.head]
  | .node p datum key first (.node p' d k f n) => by
    have ih := @last_none (.node p' d k f n)
    rw [Shape.last]
    · rw [ih]
      simp [Shape.head]
    · simp

theorem graft_head (p : Nat) (child : Shape) (shape : Shape) :
    (shape.graft p child).head = shape.head := by
  cases shape <;> rfl

theorem graft_last (p : Nat) (child : Shape) : ∀ shape : Shape,
    (shape.graft p child).last = shape.last
  | .nil | .node q datum key first .nil => rfl
  | .node q datum key first (.node p' d k f n) => by
    have ih := graft_last p child (.node p' d k f n)
    rw [Shape.graft, Shape.last, Shape.last]
    · exact ih
    · simp
    · simp [Shape.graft]

theorem graft_eq {child : Shape} : ∀ {shape : Shape}, p ∉ shape.ids →
    shape.graft p child = shape
  | .nil, _ => rfl
  | .node q datum key first next, h => by
    have hne : q ≠ p := fun he => h (by rw [he]; exact mem_cons_self)
    have hf : p ∉ first.ids := fun hm => h (mem_cons_of_mem _ (mem_append_left _ hm))
    have hn : p ∉ next.ids := fun hm => h (mem_cons_of_mem _ (mem_append_right _ hm))
    rw [Shape.graft, if_neg hne, graft_eq hf, graft_eq hn]

theorem snoc_holds {child : Shape} (hchild : Holds value' parent child) :
    ∀ {shape : Shape}, Holds value parent shape →
    shape.ids.Nodup →
    (∀ q ∈ shape.ids, shape.last ≠ some q → value' q = value q) →
    (∀ q, shape.last = some q → value' q = { value q with next := child.head }) →
    Holds value' parent (shape.snoc child)
  | .nil, _, _, _, _ => hchild
  | .node p datum key first .nil, ⟨hp, hf, _⟩, hnodup, hother, hlast => by
    have hpf : p ∉ first.ids := by
      rw [Shape.ids, nodup_cons, mem_append] at hnodup
      exact fun hm => hnodup.1 (.inl hm)
    refine ⟨?_, hf.congr (fun q hq => hother q ?_ ?_), hchild⟩
    · rw [hlast p rfl, hp]
      rfl
    · exact mem_cons_of_mem _ (mem_append_left _ hq)
    intro he
    injection he with he
    exact hpf (by rw [he]; exact hq)
  | .node p datum key first (.node p' d k f n), ⟨hp, hf, hn⟩, hnodup, hother, hlast => by
    have hlast' : (Shape.node p datum key first (.node p' d k f n)).last =
        (Shape.node p' d k f n).last := by
      rw [Shape.last]
      simp
    rw [Shape.ids, nodup_cons, mem_append, nodup_append'] at hnodup
    obtain ⟨hp', -, hnn, hdisj⟩ := hnodup
    rw [hlast'] at hother hlast
    refine ⟨?_, hf.congr (fun q hq => hother q ?_ ?_), ?_⟩
    · rw [hother p mem_cons_self (fun he => hp' (.inr (last_mem he))), hp]
      rfl
    · exact mem_cons_of_mem _ (mem_append_left _ hq)
    · exact fun he => hdisj hq (last_mem he)
    · exact snoc_holds hchild hn hnn
        (fun q hq => hother q (mem_cons_of_mem _ (mem_append_right _ hq))) hlast

theorem append_value {parent child : Nat} (hne : child ≠ parent)
    (hlast : ∀ q, (nodes.value parent).last = some q → q ≠ parent ∧ q ≠ child)
    (hfirst : (nodes.value parent).first = none ↔ (nodes.value parent).last = none) (q : Nat) :
    (append nodes parent child).value q =
      if q = parent then
        { nodes.value parent with
          first := if (nodes.value parent).first = none then some child
            else (nodes.value parent).first
          last := some child }
      else if q = child then { nodes.value child with parent := some parent }
      else if (nodes.value parent).last = some q then { nodes.value q with next := some child }
      else nodes.value q := by
  have hpar : ∀ v, (nodes.set child v).value parent = nodes.value parent :=
    fun v => Nodes.set_other nodes (Ne.symm hne) v
  unfold append
  dsimp only
  rw [hpar]
  cases hf : (nodes.value parent).first with
  | none =>
    have hl := hfirst.mp hf
    rw [hl]
    by_cases hq : q = parent
    · subst hq
      rw [Nodes.set_same, Nodes.set_same, if_pos rfl, if_pos rfl]
    rw [if_neg hq, Nodes.set_other _ hq, Nodes.set_other _ hq]
    by_cases hc : q = child
    · subst hc
      rw [if_pos rfl, Nodes.set_same]
    · rw [if_neg hc, Nodes.set_other _ hc, if_neg (by simp)]
  | some first =>
    cases hl : (nodes.value parent).last with
    | none => rw [hfirst.mpr hl] at hf; cases hf
    | some last =>
      obtain ⟨hlp, hlc⟩ := hlast last hl
      have hpar' : ∀ v v', ((nodes.set child v).set last v').value parent =
          nodes.value parent := fun v v' => by
        rw [Nodes.set_other _ (Ne.symm hlp), hpar]
      by_cases hq : q = parent
      · subst hq
        rw [Nodes.set_same, hpar', if_pos rfl, if_neg (by simp)]
        simp only [hf]
      rw [if_neg hq, Nodes.set_other _ hq]
      by_cases hc : q = child
      · subst hc
        rw [if_pos rfl, Nodes.set_other _ (Ne.symm hlc), Nodes.set_same]
      rw [if_neg hc]
      by_cases hlq : q = last
      · subst hlq
        rw [Nodes.set_same, Nodes.set_other _ hc, if_pos rfl]
      rw [Nodes.set_other _ hlq, Nodes.set_other _ hc, if_neg]
      intro he
      cases he
      exact hlq rfl

theorem Holds.links : ∀ {parent : Option Nat} {shape : Shape},
    Holds value parent shape → shape.ids.Nodup → p ∈ shape.ids →
    ∃ datum key first next par, value p = nodeValue datum key first next par ∧
      first.ids ⊆ shape.ids ∧ p ∉ first.ids
  | _, .nil, _, _, hp => absurd hp (by simp [Shape.ids])
  | parent, .node q datum key first next, ⟨hq, hf, hn⟩, hnodup, hp => by
    rw [Shape.ids, nodup_cons, mem_append, nodup_append'] at hnodup
    obtain ⟨hq', hnf, hnn, _⟩ := hnodup
    have hsub : first.ids ⊆ (Shape.node q datum key first next).ids :=
      fun r hr => mem_cons_of_mem _ (mem_append_left _ hr)
    rcases mem_cons.mp hp with rfl | hp
    · exact ⟨datum, key, first, next, parent, hq, hsub, fun hm => hq' (.inl hm)⟩
    rcases mem_append.mp hp with hp | hp
    · obtain ⟨d, k, f, n, par, hv, hs, hnot⟩ := hf.links hnf hp
      exact ⟨d, k, f, n, par, hv, fun r hr => hsub (hs hr), hnot⟩
    obtain ⟨d, k, f, n, par, hv, hs, hnot⟩ := hn.links hnn hp
    exact ⟨d, k, f, n, par, hv,
      fun r hr => mem_cons_of_mem _ (mem_append_right _ (hs hr)), hnot⟩

theorem Holds.last_child {q : Nat} (h : Holds value parent shape) (hnodup : shape.ids.Nodup)
    (hp : p ∈ shape.ids) (hq : (value p).last = some q) : q ∈ shape.ids ∧ q ≠ p := by
  obtain ⟨datum, key, first, next, par, hv, hsub, hnot⟩ := h.links hnodup hp
  rw [hv] at hq
  have hmem : q ∈ first.ids := last_mem hq
  refine ⟨hsub hmem, ?_⟩
  rintro rfl
  exact hnot hmem

section Graft

variable {value value' : Nat → Value} {p c : Nat} {datum : Datum} {key : List UInt8}
  {first : Shape}
  (hchild : Holds value' (some p) (.node c datum key first .nil))
  (hparent : value' p = { value p with
    first := if (value p).first = none then some c else (value p).first
    last := some c })
  (hlast : ∀ q, (value p).last = some q → value' q = { value q with next := some c })
  (hother : ∀ q, q ≠ p → q ≠ c → (value p).last ≠ some q → value' q = value q)
include hchild hparent hlast hother

theorem graft_frame {parent : Option Nat} {shape : Shape} (h : Holds value parent shape)
    (hp : p ∉ shape.ids) (hc : c ∉ shape.ids)
    (hl : ∀ q, (value p).last = some q → q ∉ shape.ids) :
    Holds value' parent (shape.graft p (.node c datum key first .nil)) := by
  rw [graft_eq hp]
  refine h.congr (fun q hq => hother q ?_ ?_ ?_)
  · rintro rfl
    exact hp hq
  · rintro rfl
    exact hc hq
  · exact fun he => hl q he hq

theorem graft_holds : ∀ {parent : Option Nat} {shape : Shape}, Holds value parent shape →
    shape.ids.Nodup → p ∈ shape.ids → c ∉ shape.ids →
    Holds value' parent (shape.graft p (.node c datum key first .nil))
  | _, .nil, _, _, hp, _ => absurd hp (by simp [Shape.ids])
  | parent, .node q d k f n, ⟨hq, hf, hn⟩, hnodup, hp, hc => by
    rw [Shape.ids, nodup_cons, mem_append, nodup_append'] at hnodup
    obtain ⟨hq', hnf, hnn, hdisj⟩ := hnodup
    rw [Shape.ids, mem_cons, mem_append] at hc hp
    have hcf : c ∉ f.ids := fun hm => hc (.inr (.inl hm))
    have hcn : c ∉ n.ids := fun hm => hc (.inr (.inr hm))
    have hqc : q ≠ c := fun he => hc (.inl he.symm)
    rw [Shape.graft]
    by_cases hqp : q = p
    · -- the parent itself: its children get one more
      subst hqp
      have hpl : (value q).last = f.last := by rw [hq]; rfl
      rw [if_pos rfl]
      refine ⟨?_, ?_, ?_⟩
      · rw [hparent, hq]
        unfold nodeValue
        rw [snoc_head, snoc_last, graft_head]
        rfl
      · refine snoc_holds hchild hf hnf ?_ ?_
        · intro r hr hrl
          refine hother r ?_ ?_ (by rw [hpl]; exact hrl)
          · rintro rfl
            exact hq' (.inl hr)
          · rintro rfl
            exact hcf hr
        · intro r hr
          exact hlast r (by rw [hpl]; exact hr)
      · refine graft_frame hchild hparent hlast hother hn (fun hm => hq' (.inr hm)) hcn ?_
        intro r hr
        rw [hpl] at hr
        exact hdisj (last_mem hr)
    rw [if_neg hqp]
    have hpfn : p ∈ f.ids ∨ p ∈ n.ids := hp.resolve_left (fun he => hqp he.symm)
    rcases hpfn with hpm | hpm
    · have hlm : ∀ r, (value p).last = some r → r ∈ f.ids :=
        fun r hr => (hf.last_child hnf hpm hr).1
      refine ⟨?_, graft_holds hf hnf hpm hcf, ?_⟩
      · rw [hother q hqp hqc (fun he => hq' (.inl (hlm q he))), hq]
        unfold nodeValue
        rw [graft_head, graft_head, graft_last]
      · exact graft_frame hchild hparent hlast hother hn (fun hm => hdisj hpm hm) hcn
          (fun r hr => hdisj (hlm r hr))
    have hlm : ∀ r, (value p).last = some r → r ∈ n.ids :=
      fun r hr => (hn.last_child hnn hpm hr).1
    refine ⟨?_, ?_, graft_holds hn hnn hpm hcn⟩
    · rw [hother q hqp hqc (fun he => hq' (.inr (hlm q he))), hq]
      unfold nodeValue
      rw [graft_head, graft_head, graft_last]
    · exact graft_frame hchild hparent hlast hother hf (fun hm => hdisj hm hpm) hcf
        (fun r hr hm => hdisj hm (hlm r hr))

end Graft

/-- **`append` grafts the child** behind the last child of the parent. -/
theorem append_holds {nodes : Nodes} {first : Shape} {c : Nat} {datum : Datum} {key : List UInt8}
    (h : Holds nodes.value parent shape) (hnodup : shape.ids.Nodup) (hp : p ∈ shape.ids)
    (hchild : Holds nodes.value none (.node c datum key first .nil))
    (hcnodup : (Shape.node c datum key first .nil).ids.Nodup)
    (hdisj : ∀ q ∈ (Shape.node c datum key first .nil).ids, q ∉ shape.ids) :
    Holds (append nodes p c).value parent (shape.graft p (.node c datum key first .nil)) := by
  have hc : c ∉ shape.ids := hdisj c mem_cons_self
  have hcp : c ≠ p := by
    rintro rfl
    exact hc hp
  have hlastmem := fun q => h.last_child hnodup hp (q := q)
  have hv := append_value nodes hcp
    (fun q hq => ⟨(hlastmem q hq).2, fun he => hc (by rw [← he]; exact (hlastmem q hq).1)⟩)
    (by
      obtain ⟨d, k, f, n, par, hpv, _, _⟩ := h.links hnodup hp
      rw [hpv]
      exact last_none.symm)
  obtain ⟨hcv, hcf, _⟩ := hchild
  rw [Shape.ids, nodup_cons, mem_append] at hcnodup
  refine graft_holds ⟨?_, hcf.congr ?_, trivial⟩ ?_ ?_ ?_ h hnodup hp hc
  · rw [hv, if_neg hcp, if_pos rfl, hcv]
    rfl
  · intro q hq
    have hmem : q ∉ shape.ids :=
      hdisj q (mem_cons_of_mem _ (mem_append_left _ hq))
    rw [hv, if_neg, if_neg, if_neg]
    · exact fun he => hmem (hlastmem q he).1
    · rintro rfl
      exact hcnodup.1 (.inl hq)
    · rintro rfl
      exact hmem hp
  · rw [hv, if_pos rfl]
  · intro q hq
    rw [hv, if_neg (hlastmem q hq).2, if_neg, if_pos hq]
    rintro rfl
    exact hc (hlastmem q hq).1
  · intro q hqp hqc hql
    rw [hv, if_neg hqp, if_neg hqc, if_neg hql]

theorem append_other {nodes : Nodes} {c q : Nat} (h : Holds nodes.value parent shape)
    (hnodup : shape.ids.Nodup) (hp : p ∈ shape.ids) (hc : c ∉ shape.ids) (hq : q ∉ shape.ids)
    (hqc : q ≠ c) : (append nodes p c).value q = nodes.value q := by
  have hlastmem := fun q => h.last_child hnodup hp (q := q)
  have hcp : c ≠ p := by
    rintro rfl
    exact hc hp
  rw [append_value nodes hcp]
  · rw [if_neg, if_neg hqc, if_neg]
    · exact fun he => hq (hlastmem q he).1
    · rintro rfl
      exact hq hp
  · exact fun r hr => ⟨(hlastmem r hr).2, fun he => hc (by rw [← he]; exact (hlastmem r hr).1)⟩
  obtain ⟨d, k, f, n, par, hpv, _, _⟩ := h.links hnodup hp
  rw [hpv]
  exact last_none.symm

theorem graft_ids {p : Nat} {child : Shape} : ∀ {shape : Shape}, shape.ids.Nodup → p ∈ shape.ids →
    (shape.graft p child).ids.Perm (shape.ids ++ child.ids)
  | .nil, _, hp => absurd hp (by simp [Shape.ids])
  | .node q datum key first next, hnodup, hp => by
    rw [Shape.ids, nodup_cons, mem_append, nodup_append'] at hnodup
    obtain ⟨hq, hnf, hnn, hdisj⟩ := hnodup
    rw [Shape.graft, Shape.ids, Shape.ids, cons_append]
    refine List.Perm.cons q ?_
    have hend : (first.ids ++ child.ids ++ next.ids).Perm (first.ids ++ next.ids ++ child.ids) := by
      rw [append_assoc, append_assoc]
      exact List.Perm.append_left _ perm_append_comm
    by_cases hqp : q = p
    · subst hqp
      rw [if_pos rfl, snoc_ids, graft_eq (fun hm => hq (.inr hm))]
      exact hend
    rw [if_neg hqp]
    rw [Shape.ids, mem_cons, mem_append] at hp
    rcases hp.resolve_left (fun he => hqp he.symm) with hpm | hpm
    · rw [graft_eq (fun hm => hdisj hpm hm)]
      exact (List.Perm.append_right _ (graft_ids hnf hpm)).trans hend
    · rw [graft_eq (fun hm => hdisj hm hpm), append_assoc]
      exact List.Perm.append_left _ (graft_ids hnn hpm)

def Forest.append : Forest → Forest → Forest
  | .nil, more => more
  | .node datum key first next, more => .node datum key first (next.append more)

theorem snoc_forest (child : Shape) : ∀ shape : Shape,
    (shape.snoc child).forest = shape.forest.append child.forest
  | .nil => rfl
  | .node p datum key first next => by
    rw [Shape.snoc, Shape.forest, snoc_forest child next, Shape.forest, Forest.append]

theorem Forest.append_assoc (b c : Forest) : ∀ a : Forest,
    (a.append b).append c = a.append (b.append c)
  | .nil => rfl
  | .node datum key first next => by
    rw [Forest.append, Forest.append, Forest.append, Forest.append_assoc b c next]

/-- The nodes allocated since `base` hold a tree; older nodes are unchanged. -/
structure Grown (base nodes : Nodes) (shape : Shape) : Prop where
  used : base.used ≤ nodes.used
  old : ∀ q < base.used, nodes.value q = base.value q
  nodup : shape.ids.Nodup
  new : ∀ q ∈ shape.ids, base.used ≤ q ∧ q < nodes.used
  holds : Holds nodes.value none shape

theorem node_set (v : Value) :
    (node nodes kind).2.set nodes.used v =
      { value := update nodes.value nodes.used v, used := nodes.used + 1 } := by
  simp [node, Nodes.set]

theorem node_value : (node nodes kind).2.value nodes.used = { kind := kind } := by
  simp [node]

theorem node_pointer : (node nodes kind).1 = nodes.used := rfl

theorem grown_node (nodes : Nodes) {datum : Datum} {v : Value}
    (h : v = nodeValue datum [] .nil .nil none) :
    Grown nodes { value := update nodes.value nodes.used v, used := nodes.used + 1 }
      (.node nodes.used datum [] .nil .nil) where
  used := Nat.le_succ _
  old q hq := update_of_ne (Nat.ne_of_lt hq) _ _
  nodup := by simp [Shape.ids]
  new q hq := by
    have : q = nodes.used := by simpa [Shape.ids] using hq
    dsimp only
    omega
  holds := by
    refine ⟨?_, trivial, trivial⟩
    dsimp only
    rw [update_self, h]

/-- **One more item of a container:** a tree behind its children, under a key. -/
theorem Grown.item {base nodes nodes' : Nodes} {c : Nat} {datum datum' : Datum}
    {key : List UInt8} {first first' : Shape}
    (h : Grown base nodes (.node c datum [] first .nil))
    (h' : Grown nodes nodes' (.node nodes.used datum' [] first' .nil)) :
    Grown base (append (nodes'.set nodes.used { nodes'.value nodes.used with key := key }) c
        nodes.used)
      (.node c datum [] (first.snoc (.node nodes.used datum' key first' .nil)) .nil) := by
  generalize hset : nodes'.set nodes.used { nodes'.value nodes.used with key := key } = keyed
  have hother : ∀ q, q ≠ nodes.used → keyed.value q = nodes'.value q := by
    intro q hq
    rw [← hset, Nodes.set_other _ hq]
  have hused : keyed.used = nodes'.used := by rw [← hset, Nodes.set_used]
  have hc : c ∈ (Shape.node c datum [] first .nil).ids := mem_cons_self
  obtain ⟨hdv, hdf, _⟩ := h'.holds
  have hdnodup := h'.nodup
  rw [Shape.ids, nodup_cons, mem_append] at hdnodup
  have hchild : Holds keyed.value none (.node nodes.used datum' key first' .nil) := by
    refine ⟨?_, hdf.congr (fun q hq => hother q ?_), trivial⟩
    · rw [← hset, Nodes.set_same, hdv]
      rfl
    · rintro rfl
      exact hdnodup.1 (.inl hq)
  have hparent : Holds keyed.value none (.node c datum [] first .nil) := by
    refine h.holds.congr (fun q hq => ?_)
    have := (h.new q hq).2
    rw [hother q (by omega), h'.old q this]
  have hdisj : ∀ q ∈ (Shape.node nodes.used datum' key first' .nil).ids,
      q ∉ (Shape.node c datum [] first .nil).ids := by
    intro q hq hm
    have := (h'.new q hq).1
    have := (h.new q hm).2
    omega
  have hperm := @graft_ids _ (.node nodes.used datum' key first' .nil) _ h.nodup hc
  have hgraft : (Shape.node c datum [] first .nil).graft c (.node nodes.used datum' key first' .nil)
      = .node c datum [] (first.snoc (.node nodes.used datum' key first' .nil)) .nil := by
    rw [Shape.graft, if_pos rfl, Shape.graft]
  rw [hgraft] at hperm
  refine ⟨?_, ?_, ?_, ?_, ?_⟩
  · rw [append_used, hused]
    exact Nat.le_trans h.used h'.used
  · intro q hq
    have hle := h.used
    have hnot : q ∉ (Shape.node c datum [] first .nil).ids := by
      intro hm
      have := (h.new q hm).1
      omega
    rw [append_other hparent h.nodup hc (hdisj _ mem_cons_self) hnot (by omega),
      hother q (by omega), h'.old q (by omega), h.old q hq]
  · rw [hperm.nodup_iff, nodup_append']
    exact ⟨h.nodup, h'.nodup, fun q hq hm => hdisj q hm hq⟩
  · intro q hq
    rw [append_used, hused]
    have hle := h.used
    have hle' := h'.used
    rcases mem_append.mp (hperm.mem_iff.mp hq) with hm | hm
    · have := h.new q hm
      omega
    · have := h'.new q hm
      omega
  · rw [← hgraft]
    exact append_holds hparent h.nodup hc hchild h'.nodup hdisj

end Dyn.Json
