import Dyn.Regex.Compile
import Dyn.Regex.Syntax

/-!
# Code generation links what the tokens say

`Linked` says that a region of the code is that of an expanded tree: entered at `start`, and
left to `k`.  While the code is generated, the open ends of a region are slots threaded
through a patch list; `Open` says that the region is linked once they are all filled.

Every fragment on the stack owns a region of its own (`Stacked`), so that patching one of them
leaves the others alone.
-/

namespace Dyn.Regex

open List

theorem setField_length (code : List Instruction) (slot value : Nat) :
    (setField code slot value).length = code.length :=
  length_modify ..

theorem setField_get (code : List Instruction) (slot value : Nat) (i : Nat) :
    (setField code slot value)[i]? = if slot / 3 = i then
      code[i]?.map fun instruction => instruction.withField (slot % 3) value else code[i]? := by
  rw [setField, getElem?_modify]
  split_ifs <;> simp

variable (instruction : Instruction)

theorem withField_withField (part value value' : Nat) :
    (instruction.withField part value).withField part value' = instruction.withField part value' := by
  unfold Instruction.withField
  split_ifs <;> rfl

theorem withField_comm {part part' : Nat} (h : part < 3) (h' : part' < 3) (hne : part ≠ part')
    (value value' : Nat) :
    (instruction.withField part value).withField part' value' =
      (instruction.withField part' value').withField part value := by
  unfold Instruction.withField
  split_ifs <;> first | rfl | omega

theorem setField_setField (code : List Instruction) (slot value value' : Nat) :
    setField (setField code slot value) slot value' = setField code slot value' := by
  apply ext_getElem?
  intro i
  simp only [setField_get]
  split_ifs with h
  · rw [Option.map_map]
    congr 1
    funext instruction
    exact withField_withField instruction _ _ _
  · rfl

variable {slot : Nat}

theorem setField_comm (code : List Instruction) {slot' : Nat} (h : slot ≠ slot')
    (value value' : Nat) : setField (setField code slot value) slot' value' =
      setField (setField code slot' value') slot value := by
  apply ext_getElem?
  intro i
  simp only [setField_get]
  split_ifs with h1 h2
  · rw [Option.map_map, Option.map_map]
    congr 1
    funext instruction
    exact withField_comm instruction (Nat.mod_lt _ (by decide)) (Nat.mod_lt _ (by decide))
      (by omega) _ _
  · rfl
  · rfl
  · rfl

variable {code code' : List Instruction} {slots : List Nat}

variable {slots' : List Nat} {fragment : Fragment}

theorem field_setField_same (h : slot / 3 < code.length) (value : Nat) :
    field (setField code slot value) slot = value := by
  unfold field
  rw [setField_get, if_pos rfl, getElem?_eq_getElem h]
  simp only [Option.map_some, Instruction.withField]
  split_ifs <;> rfl

theorem field_setField_ne (code : List Instruction) {slot' : Nat} (h : slot ≠ slot') (value : Nat) :
    field (setField code slot value) slot' = field code slot' := by
  unfold field
  rw [setField_get]
  by_cases hsame : slot / 3 = slot' / 3
  · rw [if_pos hsame]
    cases code[slot' / 3]? with
    | none => rfl
    | some instruction =>
      simp only [Option.map_some, Instruction.withField]
      split_ifs <;> first | rfl | omega
  · rw [if_neg hsame]

theorem field_congr (h : code[slot / 3]? = code'[slot / 3]?) :
    field code slot = field code' slot := by
  unfold field
  rw [h]

/-- The code with all of the slots set to `k`. -/
def fill (code : List Instruction) : List Nat → Nat → List Instruction
  | [], _ => code
  | slot :: slots, k => fill (setField code slot k) slots k

theorem fill_length : ∀ (slots : List Nat) (code : List Instruction) (k : Nat),
    (fill code slots k).length = code.length
  | [], _, _ => rfl
  | slot :: slots, code, k => by
    rw [fill, fill_length slots, setField_length]

theorem fill_append : ∀ (slots slots' : List Nat) (code : List Instruction) (k : Nat),
    fill code (slots ++ slots') k = fill (fill code slots k) slots' k
  | [], _, _, _ => rfl
  | slot :: slots, slots', code, k => by
    rw [cons_append, fill, fill_append slots, fill]

theorem fill_setField : ∀ (slots : List Nat) (code : List Instruction) {slot : Nat} (value k : Nat),
    slot ∈ slots → fill (setField code slot value) slots k = fill code slots k
  | [], _, _, _, _, h => by cases h
  | s :: slots, code, slot, value, k, h => by
    rw [fill, fill]
    by_cases heq : slot = s
    · rw [heq, setField_setField]
    · rw [setField_comm code heq]
      exact fill_setField slots _ value k ((mem_cons.mp h).resolve_left heq)

theorem fill_congr : ∀ (slots : List Nat) {code code' : List Instruction} {i : Nat} (k : Nat),
    code[i]? = code'[i]? → (fill code slots k)[i]? = (fill code' slots k)[i]?
  | [], _, _, _, _, h => h
  | slot :: slots, code, code', i, k, h => by
    rw [fill, fill]
    refine fill_congr slots k ?_
    rw [setField_get, setField_get, h]

theorem fill_outside : ∀ (slots : List Nat) {code : List Instruction} {i : Nat} (k : Nat),
    (∀ slot ∈ slots, slot / 3 ≠ i) → (fill code slots k)[i]? = code[i]?
  | [], _, _, _, _ => rfl
  | slot :: slots, code, i, k, h => by
    rw [fill, fill_outside slots k (fun s hs => h s (mem_cons_of_mem _ hs)), setField_get,
      if_neg (h slot mem_cons_self)]

/-- The patch list that begins at `first` threads the slots. -/
def Chain (code : List Instruction) : Nat → List Nat → Prop
  | first, [] => first = noPatch
  | first, slot :: slots => first = slot ∧ slot ≠ noPatch ∧ Chain code (field code slot) slots

theorem Chain.congr : ∀ {slots : List Nat} {code code' : List Instruction} {first : Nat},
    Chain code first slots → (∀ slot ∈ slots, field code slot = field code' slot) →
    Chain code' first slots
  | [], _, _, _, h, _ => h
  | slot :: slots, code, code', first, ⟨hfirst, hsome, hrest⟩, h => by
    refine ⟨hfirst, hsome, ?_⟩
    rw [← h slot mem_cons_self]
    exact hrest.congr fun s hs => h s (mem_cons_of_mem _ hs)

theorem patchLoop_spec (target : Nat) : ∀ {slots : List Nat} {fuel : Nat} {code : List Instruction}
    {first : Nat}, Chain code first slots → slots.Nodup → slots.length ≤ fuel →
    patchLoop target fuel code first = fill code slots target
  | [], fuel, code, first, h, _, _ => by
    cases fuel with
    | zero => rfl
    | succ fuel => rw [patchLoop, if_pos (show first = noPatch from h), fill]
  | slot :: slots, 0, _, _, _, _, hfuel => absurd hfuel (Nat.not_succ_le_zero _)
  | slot :: slots, fuel + 1, code, first, ⟨hfirst, hsome, hrest⟩, hnodup, hfuel => by
    obtain ⟨hnot, hnodup'⟩ := nodup_cons.mp hnodup
    rw [patchLoop, hfirst, if_neg hsome, fill]
    refine patchLoop_spec target (hrest.congr fun s hs => ?_) hnodup' (Nat.le_of_succ_le_succ hfuel)
    exact (field_setField_ne code (fun hc : slot = s => hnot (hc ▸ hs)) target).symm

theorem slots_length {n : Nat} (hnodup : slots.Nodup) (h : ∀ slot ∈ slots, slot < 3 * n) :
    slots.length ≤ 3 * n := by
  have hsub : slots ⊆ range (3 * n) := fun s hs => mem_range.mpr (h s hs)
  have hle := (hnodup.subperm hsub).length_le
  rwa [length_range] at hle

theorem patchList_spec {first : Nat} (h : Chain code first slots) (hnodup : slots.Nodup)
    (hinside : ∀ slot ∈ slots, slot < 3 * code.length) (target : Nat) :
    patchList code first target = fill code slots target :=
  patchLoop_spec target h hnodup (slots_length hnodup hinside)

theorem lastSlot_spec : ∀ {slots : List Nat} {fuel first : Nat}
    (hne : slots ≠ []), Chain code first slots → slots.length ≤ fuel →
    lastSlot code fuel first = slots.getLast hne
  | [], _, _, hne, _, _ => absurd rfl hne
  | slot :: slots, 0, _, _, _, hfuel => absurd hfuel (Nat.not_succ_le_zero _)
  | [slot], fuel + 1, first, _, ⟨hfirst, _, hend⟩, _ => by
    rw [lastSlot, hfirst, if_pos (show field code slot = noPatch from hend)]
    rfl
  | slot :: slot' :: slots, fuel + 1, first, hne, ⟨hfirst, hsome, hrest⟩, hfuel => by
    have hnext : field code slot ≠ noPatch := by
      rw [hrest.1]
      exact hrest.2.1
    rw [lastSlot, hfirst, if_neg hnext, getLast_cons (cons_ne_nil _ _)]
    exact lastSlot_spec _ hrest (Nat.le_of_succ_le_succ hfuel)

theorem chain_append {second : Nat} :
    ∀ {slots : List Nat} {first : Nat} (hne : slots ≠ []), Chain code first slots →
    (slots ++ slots').Nodup → (∀ slot ∈ slots, slot < 3 * code.length) →
    Chain code second slots' →
    Chain (setField code (slots.getLast hne) second) first (slots ++ slots')
  | [], _, hne, _, _, _, _ => absurd rfl hne
  | [slot], first, _, ⟨hfirst, hsome, _⟩, hnodup, hinside, hsecond => by
    have hnot := (nodup_cons.mp hnodup).1
    have hlt := hinside slot mem_cons_self
    refine ⟨hfirst, hsome, ?_⟩
    change Chain _ (field (setField code slot second) slot) slots'
    rw [field_setField_same (by omega)]
    exact hsecond.congr fun s hs => (field_setField_ne code
    (fun hc : slot = s => hnot (hc ▸ hs)) second).symm
  | slot :: slot' :: slots, first, hne, ⟨hfirst, hsome, hrest⟩, hnodup, hinside, hsecond => by
    obtain ⟨hnot, hnodup'⟩ := nodup_cons.mp hnodup
    have hlast := getLast_mem (cons_ne_nil slot' slots)
    have hne' : (slot' :: slots).getLast (cons_ne_nil _ _) ≠ slot := fun hc =>
      hnot (mem_append_left _ (hc ▸ hlast))
    refine ⟨hfirst, hsome, ?_⟩
    rw [getLast_cons (cons_ne_nil _ _), field_setField_ne code hne' second]
    exact chain_append _ hrest hnodup' (fun s hs => hinside s (mem_cons_of_mem _ hs)) hsecond

theorem appendList_spec {first second : Nat} (h : Chain code first slots)
    (h' : Chain code second slots') (hnodup : (slots ++ slots').Nodup)
    (hinside : ∀ slot ∈ slots, slot < 3 * code.length) :
    Chain (appendList code first second).1 (appendList code first second).2 (slots ++ slots') ∧
      (appendList code first second).1.length = code.length ∧
      (∀ k, fill (appendList code first second).1 (slots ++ slots') k = fill code (slots ++ slots') k) ∧
      ∀ i, (∀ slot ∈ slots, slot / 3 ≠ i) → (appendList code first second).1[i]? = code[i]? := by
  unfold appendList
  by_cases hnil : slots = []
  · subst hnil
    rw [if_pos (show first = noPatch from h)]
    exact ⟨h', rfl, fun _ => rfl, fun _ _ => rfl⟩
  have hfirst : first ≠ noPatch := by
    cases slots with
    | nil => exact absurd rfl hnil
    | cons slot slots =>
      rw [h.1]
      exact h.2.1
  have hmem := getLast_mem hnil
  rw [if_neg hfirst, lastSlot_spec hnil h (slots_length (nodup_append.mp hnodup).1 hinside)]
  refine ⟨chain_append hnil h hnodup hinside h', setField_length .., fun k => ?_, fun i hi => ?_⟩
  · exact fill_setField _ code second k (mem_append_left _ hmem)
  · rw [setField_get, if_neg (hi _ hmem)]

/-- **The region `[lo, hi)` of the code is that of an expanded tree:** it is entered at `start` and
left to `k`. -/
def Linked (code : List Instruction) : Core → Nat → Nat → Nat → Nat → Prop
  | .leaf item, lo, hi, start, k => hi = lo + 1 ∧ start = lo ∧
      code[lo]? = some (item.withField (openPart item.op) k)
  | .concat left right, lo, hi, start, k => ∃ mid next,
      Linked code left lo mid start next ∧ Linked code right mid hi next k
  | .alternate left right, lo, hi, start, k => ∃ mid top x y, hi = top + 1 ∧ start = top ∧
      Linked code left lo mid x k ∧ Linked code right mid top y k ∧
      code[top]? = some { op := .split, x := x, y := y }
  | .star inner, lo, hi, start, k => ∃ top x, hi = top + 1 ∧ start = top ∧
      Linked code inner lo top x top ∧ code[top]? = some { op := .split, x := x, y := k }
  | .optional inner, lo, hi, start, k => ∃ top x, hi = top + 1 ∧ start = top ∧
      Linked code inner lo top x k ∧ code[top]? = some { op := .split, x := x, y := k }

theorem Linked.lt : ∀ {core : Core} {lo hi start k : Nat},
    Linked code core lo hi start k → lo < hi
  | .leaf item, _, _, _, _, h => by
    have := h.1
    omega
  | .concat left right, _, _, _, _, ⟨mid, next, hl, hr⟩ => Nat.lt_trans hl.lt hr.lt
  | .alternate left right, _, _, _, _, ⟨mid, top, x, y, hhi, _, hl, hr, _⟩ => by
    have h1 := hl.lt
    have h2 := hr.lt
    omega
  | .star inner, _, _, _, _, ⟨top, x, hhi, _, hi, _⟩ => by
    have h1 := hi.lt
    omega
  | .optional inner, _, _, _, _, ⟨top, x, hhi, _, hi, _⟩ => by
    have h1 := hi.lt
    omega

theorem Linked.congr : ∀ {core : Core} {lo hi start k : Nat},
    Linked code core lo hi start k → (∀ i, lo ≤ i → i < hi → code[i]? = code'[i]?) →
    Linked code' core lo hi start k
  | .leaf item, lo, hi, _, _, ⟨hhi, hstart, hcode⟩, h =>
    ⟨hhi, hstart, by rw [← h lo (le_refl lo) (by omega)]; exact hcode⟩
  | .concat left right, lo, hi, _, _, ⟨mid, next, hl, hr⟩, h => by
    have h1 := hl.lt
    have h2 := hr.lt
    exact ⟨mid, next, hl.congr fun i hlo hhi => h i hlo (by omega),
      hr.congr fun i hlo hhi => h i (by omega) hhi⟩
  | .alternate left right, lo, hi, _, _, ⟨mid, top, x, y, hhi, hstart, hl, hr, hcode⟩, h => by
    have h1 := hl.lt
    have h2 := hr.lt
    refine ⟨mid, top, x, y, hhi, hstart, hl.congr fun i hlo hhi => h i hlo (by omega),
      hr.congr fun i hlo hhi => h i (by omega) (by omega), ?_⟩
    rw [← h top (by omega) (by omega)]
    exact hcode
  | .star inner, lo, hi, _, _, ⟨top, x, hhi, hstart, hinner, hcode⟩, h => by
    have h1 := hinner.lt
    refine ⟨top, x, hhi, hstart, hinner.congr fun i hlo hhi => h i hlo (by omega), ?_⟩
    rw [← h top (by omega) (by omega)]
    exact hcode
  | .optional inner, lo, hi, _, _, ⟨top, x, hhi, hstart, hinner, hcode⟩, h => by
    have h1 := hinner.lt
    refine ⟨top, x, hhi, hstart, hinner.congr fun i hlo hhi => h i hlo (by omega), ?_⟩
    rw [← h top (by omega) (by omega)]
    exact hcode

/-- **A region whose open ends are threaded through the slots.** -/
structure Open (code : List Instruction) (core : Core) (lo hi : Nat) (fragment : Fragment)
    (slots : List Nat) : Prop where
  linked : ∀ k, Linked (fill code slots k) core lo hi fragment.start k
  chain : Chain code fragment.out slots
  nodup : slots.Nodup
  inside : ∀ slot ∈ slots, 3 * lo ≤ slot ∧ slot < 3 * hi

theorem Open.lt {core : Core} {lo hi : Nat} (h : Open code core lo hi fragment slots) :
    lo < hi := (h.linked 0).lt

theorem Open.congr {core : Core} {lo hi : Nat} (h : Open code core lo hi fragment slots)
    (hcode : ∀ i, lo ≤ i → i < hi → code[i]? = code'[i]?) :
    Open code' core lo hi fragment slots := by
  refine ⟨fun k => (h.linked k).congr fun i hlo hhi => fill_congr slots k (hcode i hlo hhi), ?_,
    h.nodup, h.inside⟩
  refine h.chain.congr fun slot hslot => field_congr (hcode _ ?_ ?_)
  · have := (h.inside slot hslot).1
    omega
  · have := (h.inside slot hslot).2
    omega

theorem Open.before {core : Core} {lo hi top : Nat} (h : Open code core lo hi fragment slots)
    (htop : hi ≤ top) : ∀ slot ∈ slots, slot < 3 * top := fun slot hslot => by
  have := (h.inside slot hslot).2
  omega

theorem Open.outside {core : Core} {lo hi i : Nat} (h : Open code core lo hi fragment slots)
    (hi : i < lo ∨ hi ≤ i) : ∀ slot ∈ slots, slot / 3 ≠ i := fun slot hslot => by
  have := h.inside slot hslot
  omega

/-- **The fragments on the stack,** the top one first, own the regions below `hi`. -/
def Stacked (code : List Instruction) : List Fragment → List Core → Nat → Prop
  | [], [], hi => hi = 0
  | fragment :: stack, core :: cores, hi => ∃ lo slots,
      Open code core lo hi fragment slots ∧ Stacked code stack cores lo
  | _, _, _ => False

theorem Stacked.congr : ∀ {stack : List Fragment} {cores : List Core}
    {hi : Nat}, Stacked code stack cores hi → (∀ i, i < hi → code[i]? = code'[i]?) →
    Stacked code' stack cores hi
  | [], [], _, h, _ => h
  | fragment :: stack, core :: cores, hi, ⟨lo, slots, hopen, hrest⟩, h => by
    have hlt := hopen.lt
    exact ⟨lo, slots, hopen.congr fun i _ hhi => h i hhi, hrest.congr fun i hi' => h i (by omega)⟩

/-- The operations of the leaves of expanded trees. -/
def Op.Passes (op : Op) : Prop :=
  op ∈ [.char, .any, .charClass, .beginText, .endText, .jump, .save]

def Core.Plain : Core → Prop
  | .leaf item => item.op.Passes
  | .concat left right => left.Plain ∧ right.Plain
  | .alternate left right => left.Plain ∧ right.Plain
  | .star inner => inner.Plain
  | .optional inner => inner.Plain

section Generation

variable {code : List Instruction} {lo hi : Nat}

theorem grown (item : Instruction) {i : Nat} (h : i < code.length) : code[i]? = (code ++ [item])[i]? :=
  (getElem?_append_left h).symm

variable {item : Instruction}

theorem open_leaf (hslot : code.length * 3 + openPart item.op ≠ noPatch) :
    Open (setField (code ++ [item]) (code.length * 3 + openPart item.op) noPatch) (.leaf item)
      code.length (code.length + 1) ⟨code.length, code.length * 3 + openPart item.op⟩
      [code.length * 3 + openPart item.op] := by
  have hpart : openPart item.op < 3 := by
    unfold openPart
    split_ifs <;> decide
  have hdiv : (code.length * 3 + openPart item.op) / 3 = code.length := by omega
  have hmod : (code.length * 3 + openPart item.op) % 3 = openPart item.op := by omega
  refine ⟨fun k => ⟨rfl, rfl, ?_⟩, ⟨rfl, hslot, ?_⟩, nodup_singleton _, ?_⟩
  · rw [fill, fill, setField_setField, setField_get, if_pos hdiv, hmod,
      getElem?_concat_length, Option.map_some]
  · exact field_setField_same (by rw [length_append, hdiv]; exact Nat.lt_succ_self _) _
  intro slot hs
  rw [mem_singleton.mp hs]
  omega

variable {slots : List Nat}

variable {slots' : List Nat}

theorem open_concat {left right : Core} {mid : Nat} {l r : Fragment}
    (hl : Open code left lo mid l slots) (hr : Open code right mid hi r slots') :
    Open (fill code slots r.start) (.concat left right) lo hi ⟨l.start, r.out⟩ slots' := by
  have hlo := hl.lt
  refine ⟨fun k => ⟨mid, r.start, ?_, ?_⟩, ?_, hr.nodup, fun s hs => ?_⟩
  · exact (hl.linked r.start).congr fun i _ h => (fill_outside slots' k (hr.outside (.inl h))).symm
  · exact (hr.linked k).congr fun i h _ =>
      fill_congr slots' k (fill_outside slots r.start (hl.outside (.inr h))).symm
  · refine hr.chain.congr fun s hs => field_congr (fill_outside slots r.start (hl.outside ?_)).symm
    have h := (hr.inside s hs).1
    omega
  · have h := hr.inside s hs
    omega

theorem open_alternate {left right : Core} {mid : Nat} {l r : Fragment}
    (hl : Open code left lo mid l slots) (hr : Open code right mid code.length r slots') :
    ∃ code' joined, appendList (code ++ [{ op := .split, x := l.start, y := r.start }]) l.out r.out =
        (code', joined) ∧ code'.length = code.length + 1 ∧
      (∀ i, i < lo → code[i]? = code'[i]?) ∧
      Open code' (.alternate left right) lo (code.length + 1) ⟨code.length, joined⟩ (slots ++ slots') := by
  have hlo := hl.lt
  have hhi := hr.lt
  have hgrown : ∀ i, i < code.length →
      code[i]? = (code ++ [{ op := .split, x := l.start, y := r.start }])[i]? := fun i h => grown _ h
  obtain ⟨code1, hcode1⟩ : ∃ code1,
      code ++ [({ op := .split, x := l.start, y := r.start } : Instruction)] = code1 := ⟨_, rfl⟩
  have hsplit : code1[code.length]? = some { op := .split, x := l.start, y := r.start } := by
    rw [← hcode1, getElem?_concat_length]
  have hlength : code1.length = code.length + 1 := by
    rw [← hcode1, length_append, length_singleton]
  rw [hcode1] at hgrown ⊢
  have hl' := hl.congr fun i _ h => hgrown i (by omega)
  have hr' := hr.congr fun i _ h => hgrown i h
  have hnodup : (slots ++ slots').Nodup := by
    refine nodup_append.mpr ⟨hl.nodup, hr.nodup, fun a ha b hb => ?_⟩
    have h1 := (hl.inside a ha).2
    have h2 := (hr.inside b hb).1
    omega
  have hinside : ∀ s ∈ slots, s < 3 * code1.length := hl.before (by omega)
  obtain ⟨hchain, hlen, hfill, hout⟩ := appendList_spec hl'.chain hr'.chain hnodup hinside
  generalize appendList code1 l.out r.out = result at *
  obtain ⟨code', joined⟩ := result
  refine ⟨code', joined, rfl, hlen.trans hlength, fun i hi => ?_, fun k => ?_, hchain, hnodup, fun s hs => ?_⟩
  · rw [hout i (hl.outside (.inl hi))]
    exact hgrown i (by omega)
  · rw [hfill k, fill_append]
    refine ⟨mid, code.length, l.start, r.start, rfl, rfl, ?_, ?_, ?_⟩
    · exact (hl'.linked k).congr fun i _ h => (fill_outside slots' k (hr.outside (.inl h))).symm
    · exact (hr'.linked k).congr fun i h _ =>
        fill_congr slots' k (fill_outside slots k (hl.outside (.inr h))).symm
    · rw [fill_outside slots' k (hr.outside (.inr le_rfl)), fill_outside slots k (hl.outside (.inr hhi.le))]
      exact hsplit
  rcases mem_append.mp hs with h | h
  · have := hl.inside s h
    omega
  · have := hr.inside s h
    omega

theorem split_slot (top : Nat) : (top * 3 + 1) / 3 = top ∧ (top * 3 + 1) % 3 = 1 := by omega

theorem open_star {inner : Core} {f : Fragment} (h : Open code inner lo code.length f slots)
    (hslot : code.length * 3 + 1 ≠ noPatch) :
    ∃ code', setField (patchList (code ++ [{ op := .split, x := f.start }]) f.out code.length)
        (code.length * 3 + 1) noPatch = code' ∧ code'.length = code.length + 1 ∧
      (∀ i, i < lo → code[i]? = code'[i]?) ∧
      Open code' (.star inner) lo (code.length + 1) ⟨code.length, code.length * 3 + 1⟩
        [code.length * 3 + 1] := by
  have hlo := h.lt
  obtain ⟨hdiv, hmod⟩ := split_slot code.length
  have hgrown : ∀ i, i < code.length →
      code[i]? = (code ++ [{ op := .split, x := f.start }])[i]? := fun i h => grown _ h
  obtain ⟨code1, hcode1⟩ : ∃ code1, code ++ [({ op := .split, x := f.start } : Instruction)] = code1 :=
    ⟨_, rfl⟩
  have hsplit : code1[code.length]? = some { op := .split, x := f.start } := by
    rw [← hcode1, getElem?_concat_length]
  have hlength : code1.length = code.length + 1 := by
    rw [← hcode1, length_append, length_singleton]
  rw [hcode1] at hgrown ⊢
  have h' := h.congr fun i _ hi => hgrown i hi
  rw [patchList_spec h'.chain h.nodup (h.before (by omega)) code.length]
  have hlen : (fill code1 slots code.length).length = code.length + 1 := by
    rw [fill_length, hlength]
  refine ⟨_, rfl, by rw [setField_length, hlen], fun i hi => ?_, fun k => ?_, ⟨rfl, hslot, ?_⟩,
    nodup_singleton _, fun s hs => ?_⟩
  · rw [setField_get, if_neg (by omega), fill_outside slots code.length (h.outside (.inl hi))]
    exact hgrown i (by omega)
  · rw [fill, fill, setField_setField]
    refine ⟨code.length, f.start, rfl, rfl, ?_, ?_⟩
    · refine (h'.linked code.length).congr fun i h1 h2 => ?_
      rw [setField_get, if_neg (by omega)]
    rw [setField_get, if_pos hdiv, hmod, fill_outside slots code.length (h.outside (.inr le_rfl)), hsplit]
    rfl
  · exact field_setField_same (by rw [hdiv, hlen]; exact Nat.lt_succ_self _) _
  · rw [mem_singleton.mp hs]
    omega

theorem open_optional {inner : Core} {f : Fragment} (h : Open code inner lo code.length f slots)
    (hslot : code.length * 3 + 1 ≠ noPatch) :
    ∃ code' joined, appendList (setField (code ++ [{ op := .split, x := f.start }])
        (code.length * 3 + 1) noPatch) f.out (code.length * 3 + 1) = (code', joined) ∧
      code'.length = code.length + 1 ∧ (∀ i, i < lo → code[i]? = code'[i]?) ∧
      Open code' (.optional inner) lo (code.length + 1) ⟨code.length, joined⟩
        (slots ++ [code.length * 3 + 1]) := by
  have hlo := h.lt
  obtain ⟨hdiv, hmod⟩ := split_slot code.length
  obtain ⟨code1, hcode1⟩ : ∃ code1, setField (code ++ [({ op := .split, x := f.start } : Instruction)])
      (code.length * 3 + 1) noPatch = code1 := ⟨_, rfl⟩
  have hlength : code1.length = code.length + 1 := by
    rw [← hcode1, setField_length, length_append, length_singleton]
  have hgrown : ∀ i, i < code.length → code[i]? = code1[i]? := fun i h => by
    rw [← hcode1, setField_get, if_neg (by omega)]
    exact grown _ h
  have hsplit : code1[code.length]? = some { op := .split, x := f.start, y := noPatch } := by
    rw [← hcode1, setField_get, if_pos hdiv, getElem?_concat_length, hmod]
    rfl
  have hend : field code1 (code.length * 3 + 1) = noPatch := by
    rw [← hcode1]
    exact field_setField_same (by
      rw [hdiv, length_append, length_singleton]
      exact Nat.lt_succ_self _) _
  rw [hcode1]
  have h' := h.congr fun i _ hi => hgrown i hi
  have hnodup : (slots ++ [code.length * 3 + 1]).Nodup := by
    refine nodup_append.mpr ⟨h.nodup, nodup_singleton _, fun a ha b hb => ?_⟩
    have h1 := (h.inside a ha).2
    rw [mem_singleton.mp hb]
    omega
  have hinside : ∀ s ∈ slots, s < 3 * code1.length := h.before (by omega)
  have hsecond : Chain code1 (code.length * 3 + 1) [code.length * 3 + 1] := ⟨rfl, hslot, hend⟩
  obtain ⟨hchain, hlen, hfill, hout⟩ := appendList_spec h'.chain hsecond hnodup hinside
  generalize appendList code1 f.out (code.length * 3 + 1) = result at *
  obtain ⟨code', joined⟩ := result
  refine ⟨code', joined, rfl, hlen.trans hlength, fun i hi => ?_, fun k => ?_, hchain, hnodup, fun s hs => ?_⟩
  · rw [hout i (h.outside (.inl hi))]
    exact hgrown i (by omega)
  · rw [hfill k, fill_append, fill, fill]
    refine ⟨code.length, f.start, rfl, rfl, ?_, ?_⟩
    · refine (h'.linked k).congr fun i h1 h2 => ?_
      rw [setField_get, if_neg (by omega)]
    rw [setField_get, if_pos hdiv, hmod, fill_outside slots k (h.outside (.inr le_rfl)), hsplit]
    rfl
  rcases mem_append.mp hs with hs | hs
  · have := h.inside s hs
    omega
  · rw [mem_singleton.mp hs]
    omega

variable {room scratch : Nat}

theorem patchList_length (code : List Instruction) (first target : Nat) :
    (patchList code first target).length = code.length := by
  have hloop : ∀ (fuel : Nat) (code : List Instruction) (slot : Nat),
      (patchLoop target fuel code slot).length = code.length := by
    intro fuel
    induction fuel with
    | zero => exact fun _ _ => rfl
    | succ fuel ih =>
      intro code slot
      rw [patchLoop]
      split_ifs
      · rfl
      · rw [ih, setField_length]
  exact hloop _ code first

theorem appendList_length (code : List Instruction) (first second : Nat) :
    (appendList code first second).1.length = code.length := by
  unfold appendList
  split_ifs
  · rfl
  · exact setField_length ..

variable {state state' final : Generated}

theorem generateToken_le (h : generateToken room scratch state item = .ok state') :
    state.code.length ≤ state'.code.length := by
  unfold generateToken at h
  dsimp only at h
  split at h
  all_goals try split_ifs at h
  all_goals cases h
  all_goals
    simp only [patchList_length, appendList_length, setField_length, length_append,
      length_singleton]
    omega

theorem generateLoop_cons {items : List Instruction}
    (h : generateLoop room scratch (item :: items) state = .ok final) :
    ∃ state', generateToken room scratch state item = .ok state' ∧
      generateLoop room scratch items state' = .ok final := by
  rw [generateLoop] at h
  cases hitem : generateToken room scratch state item with
  | error e =>
    rw [hitem] at h
    cases h
  | ok state' =>
    rw [hitem] at h
    exact ⟨state', rfl, h⟩

theorem generateLoop_le : ∀ {items : List Instruction} {state final : Generated},
    generateLoop room scratch items state = .ok final → state.code.length ≤ final.code.length
  | [], _, _, h => by
    cases h
    exact le_rfl
  | _ :: _, _, _, h => by
    obtain ⟨state', hitem, h⟩ := generateLoop_cons h
    exact Nat.le_trans (generateToken_le hitem) (generateLoop_le h)

theorem generateToken_passes (hop : item.op.Passes) (state : Generated) :
    generateToken room scratch state item =
      if state.code.length ≥ room ∨ state.stack.length * 2 + 1 ≥ scratch then .error .capacity
      else .ok {
        code := setField (state.code ++ [item]) (state.code.length * 3 + openPart item.op) noPatch
        stack := ⟨state.code.length, state.code.length * 3 + openPart item.op⟩ :: state.stack } := by
  obtain ⟨op, byte, x, y, z⟩ := item
  cases op
  all_goals first
    | rfl
    | simp [Op.Passes] at hop

theorem generateToken_leaf (hop : item.op.Passes)
    (h : generateToken room scratch state item = .ok state') :
    state' = {
      code := setField (state.code ++ [item]) (state.code.length * 3 + openPart item.op) noPatch
      stack := ⟨state.code.length, state.code.length * 3 + openPart item.op⟩ :: state.stack } := by
  rw [generateToken_passes hop] at h
  split_ifs at h
  cases h
  rfl

/-- **The tokens of an expanded tree push one fragment, which is linked.** -/
theorem generate_core : ∀ (core : Core), core.Plain → ∀ {state final : Generated}
    {rest : List Instruction} {cores : List Core},
    Stacked state.code state.stack cores state.code.length →
    generateLoop room scratch (core.postfixTokens ++ rest) state = .ok final →
    3 * final.code.length < noPatch → ∃ state' fragment, state'.stack = fragment :: state.stack ∧
      Stacked state'.code state'.stack (core :: cores) state'.code.length ∧
      generateLoop room scratch rest state' = .ok final
  | .leaf item, hplain, state, final, rest, cores, hstacked, hloop, hfinal => by
    obtain ⟨state', htoken, hrest⟩ := generateLoop_cons hloop
    have hle := generateLoop_le hrest
    obtain rfl := generateToken_leaf hplain htoken
    have hlength : (setField (state.code ++ [item])
        (state.code.length * 3 + openPart item.op) noPatch).length = state.code.length + 1 := by
      rw [setField_length, length_append, length_singleton]
    have hpart : openPart item.op < 3 := by
      unfold openPart
      split_ifs <;> decide
    rw [hlength] at hle
    refine ⟨_, _, rfl, ?_, hrest⟩
    refine ⟨state.code.length, [state.code.length * 3 + openPart item.op], ?_, ?_⟩
    · rw [hlength]
      exact open_leaf (by omega)
    refine hstacked.congr fun i hi => ?_
    rw [setField_get, if_neg (by omega)]
    exact grown item hi
  | .concat left right, hplain, state, final, rest, cores, hstacked, hloop, hfinal => by
    rw [Core.postfixTokens, append_assoc, append_assoc] at hloop
    obtain ⟨state1, l, hstack1, hstacked1, hloop1⟩ :=
      generate_core left hplain.1 hstacked hloop hfinal
    obtain ⟨state2, r, hstack2, hstacked2, hloop2⟩ :=
      generate_core right hplain.2 hstacked1 hloop1 hfinal
    obtain ⟨state3, htoken, hrest⟩ := generateLoop_cons hloop2
    rw [hstack2, hstack1] at hstacked2
    obtain ⟨mid, slots', hr, lo, slots, hl, hbelow⟩ := hstacked2
    have hhi := hr.lt
    have hpatch := patchList_spec hl.chain hl.nodup (hl.before hhi.le) r.start
    unfold generateToken at htoken
    rw [hstack2, hstack1] at htoken
    dsimp only at htoken
    rw [hpatch] at htoken
    cases htoken
    refine ⟨_, _, rfl, ?_, hrest⟩
    refine ⟨lo, slots', ?_, ?_⟩
    · rw [fill_length]
      exact open_concat hl hr
    · exact hbelow.congr fun i hi => (fill_outside slots r.start (hl.outside (.inl hi))).symm
  | .alternate left right, hplain, state, final, rest, cores, hstacked, hloop, hfinal => by
    rw [Core.postfixTokens, append_assoc, append_assoc] at hloop
    obtain ⟨state1, l, hstack1, hstacked1, hloop1⟩ :=
      generate_core left hplain.1 hstacked hloop hfinal
    obtain ⟨state2, r, hstack2, hstacked2, hloop2⟩ :=
      generate_core right hplain.2 hstacked1 hloop1 hfinal
    obtain ⟨state3, htoken, hrest⟩ := generateLoop_cons hloop2
    rw [hstack2, hstack1] at hstacked2
    obtain ⟨mid, slots', hr, lo, slots, hl, hbelow⟩ := hstacked2
    obtain ⟨code', joined, happend, hlength, hkeep, hopen⟩ := open_alternate hl hr
    unfold generateToken at htoken
    rw [hstack2, hstack1] at htoken
    dsimp only at htoken
    split_ifs at htoken
    rw [happend] at htoken
    cases htoken
    refine ⟨_, _, rfl, ?_, hrest⟩
    refine ⟨lo, slots ++ slots', ?_, ?_⟩
    · rw [hlength]
      exact hopen
    · exact hbelow.congr hkeep
  | .star inner, hplain, state, final, rest, cores, hstacked, hloop, hfinal => by
    rw [Core.postfixTokens, append_assoc] at hloop
    obtain ⟨state1, f, hstack1, hstacked1, hloop1⟩ :=
      generate_core inner hplain hstacked hloop hfinal
    obtain ⟨state2, htoken, hrest⟩ := generateLoop_cons hloop1
    rw [hstack1] at hstacked1
    obtain ⟨lo, slots, hf, hbelow⟩ := hstacked1
    unfold generateToken at htoken
    rw [hstack1] at htoken
    dsimp only at htoken
    split_ifs at htoken
    cases htoken
    have hle := generateLoop_le hrest
    simp only [setField_length, patchList_length, length_append, length_singleton] at hle
    obtain ⟨code', hcode, hlength, hkeep, hopen⟩ := open_star hf (by omega)
    rw [hcode] at hrest
    refine ⟨_, _, rfl, ?_, hrest⟩
    refine ⟨lo, [state1.code.length * 3 + 1], ?_, ?_⟩
    · rw [hlength]
      exact hopen
    · exact hbelow.congr hkeep
  | .optional inner, hplain, state, final, rest, cores, hstacked, hloop, hfinal => by
    rw [Core.postfixTokens, append_assoc] at hloop
    obtain ⟨state1, f, hstack1, hstacked1, hloop1⟩ :=
      generate_core inner hplain hstacked hloop hfinal
    obtain ⟨state2, htoken, hrest⟩ := generateLoop_cons hloop1
    rw [hstack1] at hstacked1
    obtain ⟨lo, slots, hf, hbelow⟩ := hstacked1
    unfold generateToken at htoken
    rw [hstack1] at htoken
    dsimp only at htoken
    split_ifs at htoken
    cases htoken
    have hle := generateLoop_le hrest
    simp only [appendList_length, setField_length, length_append, length_singleton] at hle
    obtain ⟨code', joined, happend, hlength, hkeep, hopen⟩ := open_optional hf (by omega)
    rw [happend] at hrest
    refine ⟨_, _, rfl, ?_, hrest⟩
    refine ⟨lo, slots ++ [state1.code.length * 3 + 1], ?_, ?_⟩
    · rw [hlength]
      exact hopen
    · exact hbelow.congr hkeep

/-- **The generated code is linked,** and left to the accepting instruction behind it. -/
theorem generate_linked {core : Core} (hplain : core.Plain) {fragment : Fragment}
    (hloop : generateLoop room scratch core.postfixTokens {} = .ok final)
    (hstack : final.stack = [fragment]) (hfinal : 3 * final.code.length < noPatch)
    {code : List Instruction}
    (hcode : patchList (final.code ++ [{ op := .accept }]) fragment.out final.code.length = code) :
    code.length = final.code.length + 1 ∧ code[final.code.length]? = some { op := .accept } ∧
      Linked code core 0 final.code.length fragment.start final.code.length := by
  have hempty : Stacked [] [] [] 0 := rfl
  rw [← append_nil core.postfixTokens] at hloop
  obtain ⟨state', f, hf, hstacked, hend⟩ :=
    @generate_core room scratch core hplain {} final [] [] hempty hloop hfinal
  cases hend
  rw [hf] at hstack hstacked
  cases hstack
  obtain ⟨lo, slots, hopen, hlo⟩ := hstacked
  obtain rfl : lo = 0 := hlo
  have hgrown : ∀ i, 0 ≤ i → i < final.code.length →
      final.code[i]? = (final.code ++ [{ op := .accept }])[i]? := fun i _ hi => grown _ hi
  have hopen' := hopen.congr hgrown
  rw [patchList_spec hopen'.chain hopen.nodup
    (hopen.before (by rw [length_append]; exact Nat.le_add_right _ _)) final.code.length] at hcode
  subst hcode
  refine ⟨?_, ?_, hopen'.linked _⟩
  · rw [fill_length, length_append, length_singleton]
  · rw [fill_outside slots _ (hopen.outside (.inr le_rfl)), getElem?_concat_length]

end Generation

end Dyn.Regex
