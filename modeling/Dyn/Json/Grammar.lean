import Dyn.Json.Scan

/-!
# JSON texts

The grammar of JSON texts over two kinds of token, strings and numbers, which are left open:
`Derives Str Num` is what may stand where.  `scanValue` is a recursive descent over a scanner
of these tokens.  `text_iff` says that it accepts exactly the grammar.

The three scanners of the source are instances: they differ in the strings and numbers they
take, and in what they build on the way.
-/

namespace Dyn.Json

open List

inductive Kind where
  | Missing
  | Null
  | Bool
  | Number
  | String
  | Array
  | Object
deriving DecidableEq, Repr

structure Datum where
  kind : Kind
  boolean : Bool := false
  text : List UInt8 := []
deriving DecidableEq, Repr

/-- Siblings in order, each with its key and its children. -/
inductive Forest where
  | nil
  | node (datum : Datum) (key : List UInt8) (first next : Forest)
deriving DecidableEq, Repr

/-- A node with its children, outside of any container. -/
structure Tree where
  datum : Datum
  first : Forest := .nil
deriving DecidableEq, Repr

/-- The texts of the numbers in a forest, in order. -/
def Forest.numbers : Forest → List (List UInt8)
  | .nil => []
  | .node datum _ first next =>
      (if datum.kind = .Number then [datum.text] else []) ++ first.numbers ++ next.numbers

def Tree.numbers (tree : Tree) : List (List UInt8) :=
  (if tree.datum.kind = .Number then [tree.datum.text] else []) ++ tree.first.numbers

/-- A scanner of strings, which gives their text, and of numbers. -/
structure Scanner where
  str : List UInt8 → Option (List UInt8 × List UInt8)
  num : List UInt8 → Option (List UInt8)

def opening (object : Bool) : UInt8 := if object then 123 else 91

def closing (object : Bool) : UInt8 := if object then 125 else 93

def containerKind (object : Bool) : Kind := if object then .Object else .Array

namespace Scanner

variable (T : Scanner)

/-- The key of a member and its colon; an element has neither. -/
def key (object : Bool) (rest : List UInt8) : Option (List UInt8 × List UInt8) :=
  if object then
    match T.str (skip rest) with
    | none => none
    | some (key, rest) =>
        match skip rest with
        | [] => none
        | byte :: tail => if byte ≠ 58 then none else some (key, tail)
  else some ([], rest)

/-- A value that is not a container, from its first byte on. -/
def leaf (byte : UInt8) (rest : List UInt8) : Option (Datum × List UInt8) :=
  if byte = 34 then (T.str rest).map (fun found => ({ kind := .String, text := found.1 }, found.2))
  else if byte = 110 then
    (passed (literal nullText rest)).map (fun after => ({ kind := .Null }, after))
  else if byte = 116 then
    (passed (literal trueText rest)).map (fun after => ({ kind := .Bool, boolean := true }, after))
  else if byte = 102 then
    (passed (literal falseText rest)).map (fun after => ({ kind := .Bool }, after))
  else
    (T.num rest).map
      (fun after => ({ kind := .Number, text := rest.take (rest.length - after.length) }, after))

mutual

def value : Nat → Nat → List UInt8 → Option (Tree × List UInt8)
  | 0, _, _ => none
  | fuel + 1, depth, rest =>
      match skip rest with
      | [] => none
      | byte :: tail =>
          if byte = 91 ∨ byte = 123 then
            if depth ≥ MaximumDepth then none
            else if (skip tail).head? = some (closing (byte == 123)) then
              some (⟨{ kind := containerKind (byte == 123) }, .nil⟩, (skip tail).tail)
            else
              match items (byte == 123) fuel depth (skip tail) with
              | none => none
              | some (first, rest) => some (⟨{ kind := containerKind (byte == 123) }, first⟩, rest)
          else
            match T.leaf byte (byte :: tail) with
            | none => none
            | some (datum, rest) => some (⟨datum, .nil⟩, rest)

/-- The elements or members of a container, through its closing bracket. -/
def items (object : Bool) : Nat → Nat → List UInt8 → Option (Forest × List UInt8)
  | 0, _, _ => none
  | fuel + 1, depth, rest =>
      match T.key object rest with
      | none => none
      | some (key, rest) =>
          match value fuel (depth + 1) rest with
          | none => none
          | some (tree, rest) =>
              match skip rest with
              | [] => none
              | byte :: tail =>
                  if byte = closing object then
                    some (.node tree.datum key tree.first .nil, tail)
                  else if byte ≠ 44 then none
                  else
                    match items object fuel depth tail with
                    | none => none
                    | some (next, rest) => some (.node tree.datum key tree.first next, rest)

end

def text (source : List UInt8) : Option Tree :=
  match T.value (scanFuel source) 0 source with
  | none => none
  | some (tree, rest) => if skip rest = [] then some tree else none

end Scanner

def Ws (text : List UInt8) : Prop := ∀ b ∈ text, whitespace b = true

section Grammar

variable (Str Num : List UInt8 → Prop)

/-- What stands before the value of an item: nothing, or a key and a colon. -/
def Key (object : Bool) (text : List UInt8) : Prop :=
  if object then ∃ a s b, Ws a ∧ Str s ∧ Ws b ∧ text = a ++ (s ++ (b ++ [58])) else text = []

inductive Sym where
  | value
  | items (object : Bool)

/-- The texts of a value, and of the items of a container, in which containers nest at most
`n` deep. -/
inductive Derives : Sym → Nat → List UInt8 → Prop
  | null (n : Nat) : Derives .value n nullText
  | true_ (n : Nat) : Derives .value n trueText
  | false_ (n : Nat) : Derives .value n falseText
  | string {n : Nat} {text : List UInt8} : Str text → Derives .value n text
  | number {n : Nat} {text : List UInt8} : Num text → Derives .value n text
  | empty (object : Bool) {n : Nat} {a : List UInt8} :
      Ws a → Derives .value (n + 1) (opening object :: (a ++ [closing object]))
  | container (object : Bool) {n : Nat} {body : List UInt8} :
      Derives (.items object) n body →
      Derives .value (n + 1) (opening object :: (body ++ [closing object]))
  | last {object : Bool} {n : Nat} {key a v b : List UInt8} :
      Key Str object key → Ws a → Derives .value n v → Ws b →
      Derives (.items object) n (key ++ (a ++ (v ++ b)))
  | more {object : Bool} {n : Nat} {key a v b rest : List UInt8} :
      Key Str object key → Ws a → Derives .value n v → Ws b → Derives (.items object) n rest →
      Derives (.items object) n (key ++ (a ++ (v ++ (b ++ 44 :: rest))))

def IsText (source : List UInt8) : Prop :=
  ∃ a v b, Ws a ∧ Derives Str Num .value MaximumDepth v ∧ Ws b ∧ source = a ++ (v ++ b)

end Grammar

variable {Str Num : List UInt8 → Prop}

variable {Str' : List UInt8 → Prop} {b : UInt8}

theorem Derives.mono (h : ∀ text, Str text → Str' text) {sym : Sym} {n : Nat} {text : List UInt8}
    (hd : Derives Str Num sym n text) : Derives Str' Num sym n text := by
  have hkey : ∀ object key, Key Str object key → Key Str' object key := by
    rintro (_ | _) key hk
    · exact hk
    · obtain ⟨a, s, b, ha, hs, hb, rfl⟩ := hk
      exact ⟨a, s, b, ha, h s hs, hb, rfl⟩
  induction hd with
  | null n => exact Derives.null n
  | true_ n => exact Derives.true_ n
  | false_ n => exact Derives.false_ n
  | string hs => exact Derives.string (h _ hs)
  | number hn => exact Derives.number hn
  | empty object ha => exact Derives.empty object ha
  | container object _ ih => exact Derives.container object ih
  | last hk ha _ hb ih => exact Derives.last (hkey _ _ hk) ha ih hb
  | more hk ha _ hb _ ih ih' => exact Derives.more (hkey _ _ hk) ha ih hb ih'

theorem IsText.mono (h : ∀ text, Str text → Str' text) {source : List UInt8}
    (ht : IsText Str Num source) : IsText Str' Num source := by
  obtain ⟨a, v, b, ha, hv, hb, rfl⟩ := ht
  exact ⟨a, v, b, ha, hv.mono h, hb, rfl⟩

/-- The text does not begin with whitespace. -/
def Solid (text : List UInt8) : Prop := ∀ b tail, text = b :: tail → whitespace b = false

theorem solid_cons (h : whitespace b = false) (tail : List UInt8) : Solid (b :: tail) := by
  intro b' tail' he
  cases he
  exact h

theorem skip_of_solid {text : List UInt8} (h : Solid text) : skip text = text := by
  cases text with
  | nil => rfl
  | cons b tail =>
    rw [skip, if_neg]
    rw [h b tail rfl]
    exact Bool.false_ne_true

theorem skip_append {a : List UInt8} (h : Ws a) (text : List UInt8) :
    skip (a ++ text) = skip text := by
  induction a with
  | nil => rfl
  | cons b a ih =>
    rw [cons_append, skip, if_pos (h b (by simp)), ih (fun c hc => h c (by simp [hc]))]

theorem skip_ws {a : List UInt8} (h : Ws a) (hb : whitespace b = false) (tail : List UInt8) :
    skip (a ++ b :: tail) = b :: tail := by
  rw [skip_append h]
  exact skip_of_solid (solid_cons hb tail)

theorem skip_spec : ∀ text : List UInt8, ∃ a, Ws a ∧ text = a ++ skip text ∧ Solid (skip text)
  | [] => ⟨[], (fun _ h => absurd h (by simp)), rfl, fun _ _ h => by cases h⟩
  | b :: tail => by
    unfold skip
    split_ifs with hb
    · obtain ⟨a, ha, htext, hsolid⟩ := skip_spec tail
      refine ⟨b :: a, ?_, ?_, hsolid⟩
      · intro c hc
        rcases mem_cons.mp hc with rfl | hc
        · exact hb
        · exact ha c hc
      · rw [cons_append, ← htext]
    · exact ⟨[], (fun _ h => absurd h (by simp)), rfl, solid_cons (by simpa using hb) tail⟩

theorem skip_skip (text : List UInt8) : skip (skip text) = skip text := by
  obtain ⟨_, _, _, hsolid⟩ := skip_spec text
  exact skip_of_solid hsolid

theorem Ws.append {a b : List UInt8} (ha : Ws a) (hb : Ws b) : Ws (a ++ b) := by
  intro c hc
  rcases mem_append.mp hc with hc | hc
  · exact ha c hc
  · exact hb c hc

theorem skip_eq_nil {text : List UInt8} : skip text = [] ↔ Ws text := by
  constructor
  · intro h
    obtain ⟨a, ha, htext, _⟩ := skip_spec text
    rw [h, append_nil] at htext
    rw [htext]
    exact ha
  intro h
  have := skip_append h []
  rwa [append_nil] at this

/-- What may stand behind a value: the end, whitespace, a comma or a closing bracket. -/
def Follow (text : List UInt8) : Prop :=
  ∀ b tail, text = b :: tail → whitespace b = true ∨ b = 44 ∨ b = 93 ∨ b = 125

theorem follow_nil : Follow [] := nofun

theorem follow_cons (h : whitespace b = true ∨ b = 44 ∨ b = 93 ∨ b = 125) (tail : List UInt8) :
    Follow (b :: tail) := by
  intro b' tail' he
  cases he
  exact h

theorem follow_ws {a : List UInt8} (h : Ws a) {text : List UInt8} (ht : Follow text) :
    Follow (a ++ text) := by
  cases a with
  | nil => exact ht
  | cons b a => exact follow_cons (.inl (h b (by simp))) _

theorem opening_spec (object : Bool) : whitespace (opening object) = false ∧
    (opening object = 91 ∨ opening object = 123) ∧ (opening object == 123) = object := by
  cases object <;> decide

theorem closing_solid (object : Bool) : whitespace (closing object) = false := by
  cases object <;> rfl

theorem closing_follow (object : Bool) (tail : List UInt8) : Follow (closing object :: tail) :=
  follow_cons (by cases object <;> decide) tail

/-- Whitespace before an item belongs to its key, or to its value. -/
theorem Key.ws {object : Bool} {key a : List UInt8} {b : List UInt8} (hb : Ws b) (hk : Key Str object key) (ha : Ws a)
    (text : List UInt8) : ∃ key' a', Key Str object key' ∧ Ws a' ∧
      b ++ (key ++ (a ++ text)) = key' ++ (a' ++ text) := by
  cases object with
  | true =>
    obtain ⟨c, s, d, hc, hs, hd, rfl⟩ := hk
    exact ⟨_, a, ⟨b ++ c, s, d, hb.append hc, hs, hd, rfl⟩, ha, by simp only [append_assoc]⟩
  | false =>
    obtain rfl : key = [] := hk
    exact ⟨[], b ++ a, rfl, hb.append ha, (append_assoc b a text).symm⟩

theorem Derives.ws_items {object : Bool} {n : Nat} {body b : List UInt8}
    (h : Derives Str Num (.items object) n body) (hb : Ws b) :
    Derives Str Num (.items object) n (b ++ body) := by
  cases h with
  | last hk ha hv hc =>
    obtain ⟨key', a', hk', ha', heq⟩ := hk.ws hb ha _
    exact heq ▸ Derives.last hk' ha' hv hc
  | more hk ha hv hc hrest =>
    obtain ⟨key', a', hk', ha', heq⟩ := hk.ws hb ha _
    exact heq ▸ Derives.more hk' ha' hv hc hrest

/-- A scanner reads the given tokens: it takes exactly them off the front of a text.  A number
is taken whole only if what follows does not continue it. -/
structure Scanner.Reads (T : Scanner) (Str Num : List UInt8 → Prop) : Prop where
  str_sound : ∀ {rest text after}, T.str rest = some (text, after) →
    ∃ raw, Str raw ∧ rest = raw ++ after
  str_complete : ∀ {raw}, Str raw → ∃ text, ∀ rest, T.str (raw ++ rest) = some (text, rest)
  str_head : ∀ {raw}, Str raw → ∃ tail, raw = 34 :: tail
  num_sound : ∀ {rest after}, T.num rest = some after → ∃ raw, Num raw ∧ rest = raw ++ after
  num_complete : ∀ {raw rest}, Num raw → Follow rest → T.num (raw ++ rest) = some rest
  num_head : ∀ {raw}, Num raw → ∃ b tail, raw = b :: tail ∧ (b = 45 ∨ digit b = true)

theorem literal_sound {text rest after : List UInt8} (h : passed (literal text rest) = some after) :
    rest = text ++ after := by
  unfold literal at h
  split_ifs at h with hp
  · obtain ⟨tail, rfl⟩ := isPrefixOf_iff_prefix.mp hp
    rw [passed_true, drop_left] at h
    injection h with h
    rw [h]
  · cases h

theorem literal_complete (text rest : List UInt8) :
    passed (literal text (text ++ rest)) = some rest := by
  have hp : text.isPrefixOf (text ++ rest) = true :=
    isPrefixOf_iff_prefix.mpr (prefix_append _ _)
  rw [literal, if_pos hp, drop_left, passed_true]

theorem number_byte (h : b = 45 ∨ digit b = true) :
    whitespace b = false ∧ b ≠ 91 ∧ b ≠ 123 ∧ b ≠ 34 ∧ b ≠ 110 ∧ b ≠ 116 ∧ b ≠ 102 ∧
      b ≠ 93 ∧ b ≠ 125 := by
  have hb : 45 ≤ b.toNat ∧ b.toNat ≤ 57 := by
    rcases h with rfl | h
    · decide
    · have := of_decide_eq_true h
      omega
  have hne : ∀ c : UInt8, c.toNat < 45 ∨ 57 < c.toNat → b ≠ c := by
    rintro c hc rfl
    omega
  refine ⟨?_, hne 91 (by decide), hne 123 (by decide), hne 34 (by decide), hne 110 (by decide),
    hne 116 (by decide), hne 102 (by decide), hne 93 (by decide), hne 125 (by decide)⟩
  simp [whitespace, hne 32 (by decide), hne 10 (by decide), hne 13 (by decide), hne 9 (by decide)]

section Correct

variable {T : Scanner} {Str Num : List UInt8 → Prop} (h : T.Reads Str Num)
include h

variable {rest after : List UInt8} {object : Bool} {n : Nat}

theorem leaf_sound {byte : UInt8} {datum : Datum} (hl : T.leaf byte rest = some (datum, after))
    (n : Nat) : ∃ v, Derives Str Num .value n v ∧ rest = v ++ after := by
  unfold Scanner.leaf at hl
  split_ifs at hl
  · obtain ⟨⟨text, _⟩, hs, he⟩ := Option.map_eq_some_iff.mp hl
    cases he
    obtain ⟨raw, hraw, hrest⟩ := h.str_sound hs
    exact ⟨raw, Derives.string hraw, hrest⟩
  · obtain ⟨_, hs, he⟩ := Option.map_eq_some_iff.mp hl
    cases he
    exact ⟨nullText, Derives.null n, literal_sound hs⟩
  · obtain ⟨_, hs, he⟩ := Option.map_eq_some_iff.mp hl
    cases he
    exact ⟨trueText, Derives.true_ n, literal_sound hs⟩
  · obtain ⟨_, hs, he⟩ := Option.map_eq_some_iff.mp hl
    cases he
    exact ⟨falseText, Derives.false_ n, literal_sound hs⟩
  · obtain ⟨_, hs, he⟩ := Option.map_eq_some_iff.mp hl
    cases he
    obtain ⟨raw, hraw, hrest⟩ := h.num_sound hs
    exact ⟨raw, Derives.number hraw, hrest⟩

theorem key_sound {key : List UInt8} (hk : T.key object rest = some (key, after)) :
    ∃ text, Key Str object text ∧ rest = text ++ after := by
  unfold Scanner.key at hk
  cases object with
  | false =>
    rw [if_neg Bool.false_ne_true] at hk
    injection hk with hk
    injection hk with _ hk
    exact ⟨[], rfl, hk⟩
  | true =>
    rw [if_pos rfl] at hk
    split at hk
    · cases hk
    rename_i text mid hs
    obtain ⟨raw, hraw, hsplit⟩ := h.str_sound hs
    obtain ⟨a, ha, hrest, _⟩ := skip_spec rest
    obtain ⟨b, hb, hmid, _⟩ := skip_spec mid
    split at hk
    · cases hk
    rename_i byte tail hm
    rw [hm] at hmid
    split_ifs at hk with hcolon
    cases hk
    refine ⟨a ++ (raw ++ (b ++ [58])), ⟨a, raw, b, ha, hraw, hb, rfl⟩, ?_⟩
    rw [hrest, hsplit, hmid, not_not.mp hcolon]
    simp only [append_assoc, cons_append, nil_append]

/-- What the scanner takes is derived, one level for each container. -/
theorem scan_sound : ∀ fuel : Nat,
    (∀ depth rest tree after, depth ≤ MaximumDepth → T.value fuel depth rest = some (tree, after) →
      ∃ a v, Ws a ∧ Derives Str Num .value (MaximumDepth - depth) v ∧ rest = a ++ (v ++ after)) ∧
    (∀ object depth rest forest after, depth < MaximumDepth →
      T.items object fuel depth rest = some (forest, after) →
      ∃ body, Derives Str Num (.items object) (MaximumDepth - (depth + 1)) body ∧
        rest = body ++ closing object :: after)
  | 0 => ⟨(fun _ _ _ _ _ hv => by cases hv), fun _ _ _ _ _ _ hv => by cases hv⟩
  | fuel + 1 => by
    obtain ⟨ihv, ihi⟩ := scan_sound fuel
    constructor
    · intro depth rest tree after hdepth hv
      unfold Scanner.value at hv
      obtain ⟨a, ha, hrest, _⟩ := skip_spec rest
      split at hv
      · cases hv
      rename_i byte tail hs
      rw [hs] at hrest
      split at hv
      · rename_i hopen
        have hbyte : byte = opening (byte == 123) := by
          rcases hopen with rfl | rfl <;> rfl
        split_ifs at hv with hdeep hclose
        · have hn : MaximumDepth - depth = MaximumDepth - (depth + 1) + 1 := by omega
          obtain ⟨b, hb, htail, _⟩ := skip_spec tail
          obtain ⟨_, hc⟩ := head?_eq_some_iff.mp hclose
          rw [hc, tail_cons] at hv
          cases hv
          rw [hn]
          refine ⟨a, _, ha, Derives.empty (byte == 123) hb, ?_⟩
          rw [hrest, ← hbyte]
          nth_rewrite 1 [htail]
          rw [hc]
          simp only [append_assoc, cons_append, nil_append]
        have hn : MaximumDepth - depth = MaximumDepth - (depth + 1) + 1 := by omega
        obtain ⟨b, hb, htail, _⟩ := skip_spec tail
        split at hv
        · cases hv
        rename_i first mid hi
        cases hv
        obtain ⟨body, hbody, hsplit⟩ := ihi _ depth _ first _ (by omega) hi
        rw [hn]
        refine ⟨a, _, ha, Derives.container (byte == 123) (hbody.ws_items hb), ?_⟩
        rw [hrest, ← hbyte]
        nth_rewrite 1 [htail]
        rw [hsplit]
        simp only [append_assoc, cons_append, nil_append]
      · split at hv
        · cases hv
        rename_i datum mid hl
        cases hv
        obtain ⟨v, hv, hsplit⟩ := leaf_sound h hl (MaximumDepth - depth)
        exact ⟨a, v, ha, hv, by rw [hrest, hsplit]⟩
    intro object depth rest forest after hdepth hi
    unfold Scanner.items at hi
    split at hi
    · cases hi
    rename_i key mid hk
    obtain ⟨text, htext, hrest⟩ := key_sound h hk
    split at hi
    · cases hi
    rename_i tree behind hv
    obtain ⟨a, v, ha, hd, hmid⟩ := ihv (depth + 1) mid tree behind (by omega) hv
    obtain ⟨b, hb, hbehind, _⟩ := skip_spec behind
    split at hi
    · cases hi
    rename_i byte tail hs
    rw [hs] at hbehind
    split_ifs at hi with hclose hcomma
    · cases hi
      refine ⟨_, Derives.last htext ha hd hb, ?_⟩
      rw [hrest, hmid, hbehind, hclose]
      simp only [append_assoc]
    split at hi
    · cases hi
    rename_i next final hm
    cases hi
    obtain ⟨body, hbody, htail⟩ := ihi object depth tail next _ hdepth hm
    refine ⟨_, Derives.more htext ha hd hb hbody, ?_⟩
    rw [hrest, hmid, hbehind, htail, not_not.mp hcomma]
    simp only [append_assoc, cons_append]

omit h in
theorem value_skip (fuel depth : Nat) (rest : List UInt8) :
    T.value fuel depth (skip rest) = T.value fuel depth rest := by
  cases fuel with
  | zero => rfl
  | succ fuel => rw [Scanner.value, Scanner.value, skip_skip]

omit h in
theorem value_ws {a : List UInt8} (ha : Ws a) (fuel depth : Nat) (rest : List UInt8) :
    T.value fuel depth (a ++ rest) = T.value fuel depth rest := by
  rw [← value_skip fuel depth (a ++ rest), skip_append ha, value_skip]

omit h in
theorem items_skip (object : Bool) (fuel depth : Nat) (rest : List UInt8) :
    T.items object fuel depth (skip rest) = T.items object fuel depth rest := by
  cases fuel with
  | zero => rfl
  | succ fuel =>
    rw [Scanner.items, Scanner.items]
    cases object with
    | true =>
      have hkey : T.key true (skip rest) = T.key true rest := by
        rw [Scanner.key, Scanner.key, skip_skip, if_pos rfl, if_pos rfl]
      rw [hkey]
    | false =>
      have hkey : ∀ text, T.key false text = some ([], text) := fun _ => rfl
      simp only [hkey, value_skip]

theorem key_complete {text : List UInt8} (hk : Key Str object text) :
    ∃ key, ∀ rest, T.key object (text ++ rest) = some (key, rest) := by
  cases object with
  | false =>
    obtain rfl : text = [] := hk
    exact ⟨[], fun _ => rfl⟩
  | true =>
    obtain ⟨a, s, b, ha, hs, hb, rfl⟩ := hk
    obtain ⟨key, hstr⟩ := h.str_complete hs
    obtain ⟨tail, htail⟩ := h.str_head hs
    refine ⟨key, fun rest => ?_⟩
    have hskip : skip (a ++ (s ++ (b ++ [58])) ++ rest) = s ++ (b ++ ([58] ++ rest)) := by
      rw [append_assoc, skip_append ha, append_assoc, append_assoc]
      refine skip_of_solid ?_
      rw [htail]
      exact solid_cons (by decide) _
    have hcolon : skip (b ++ ([58] ++ rest)) = 58 :: rest := skip_ws hb (by decide) rest
    unfold Scanner.key
    rw [if_pos rfl, hskip, hstr]
    simp only [hcolon]
    rw [if_neg (fun hne => hne rfl)]

/-- What the scanner does with a derived text. -/
def Accepts (T : Scanner) : Sym → Nat → List UInt8 → Prop
  | .value, n, v => ∀ fuel depth rest, depth + n = MaximumDepth → 2 * v.length ≤ fuel →
      Follow rest → ∃ tree, T.value fuel depth (v ++ rest) = some (tree, rest)
  | .items object, n, body => ∀ fuel depth rest, depth + (n + 1) = MaximumDepth →
      2 * body.length + 1 ≤ fuel →
      ∃ forest, T.items object fuel depth (body ++ closing object :: rest) = some (forest, rest)

theorem value_head {sym : Sym} {v : List UInt8} (hd : Derives Str Num sym n v) :
    sym = .value → ∃ b tail, v = b :: tail ∧ whitespace b = false ∧ b ≠ 93 ∧ b ≠ 125 := by
  intro hsym
  cases hd with
  | null | true_ | false_ => exact ⟨_, _, rfl, by decide, by decide, by decide⟩
  | string hs =>
    obtain ⟨tail, rfl⟩ := h.str_head hs
    exact ⟨_, _, rfl, by decide, by decide, by decide⟩
  | number hn =>
    obtain ⟨b, tail, rfl, hb⟩ := h.num_head hn
    obtain ⟨hws, _, _, _, _, _, _, h93, h125⟩ := number_byte hb
    exact ⟨b, tail, rfl, hws, h93, h125⟩
  | empty object _ => exact ⟨_, _, rfl, by cases object <;> decide, by cases object <;> decide,
      by cases object <;> decide⟩
  | container object _ => exact ⟨_, _, rfl, by cases object <;> decide,
      by cases object <;> decide, by cases object <;> decide⟩
  | last | more => cases hsym

theorem items_head {body : List UInt8} (hd : Derives Str Num (.items object) n body)
    (rest : List UInt8) : (skip (body ++ rest)).head? ≠ some (closing object) := by
  have hvalue : ∀ (a v tail : List UInt8), Ws a → Derives Str Num .value n v →
      (skip (a ++ (v ++ tail))).head? ≠ some (closing object) := by
    intro a v tail ha hv
    obtain ⟨b, t, rfl, hws, h93, h125⟩ := value_head h hv rfl
    rw [cons_append, skip_ws ha hws, head?_cons]
    intro he
    injection he with he
    cases object with
    | false => exact h93 he
    | true => exact h125 he
  have hkey : ∀ (key tail : List UInt8), Key Str true key →
      (skip (key ++ tail)).head? = some 34 := by
    rintro key tail ⟨a, s, b, ha, hs, hb, rfl⟩
    obtain ⟨t, rfl⟩ := h.str_head hs
    rw [append_assoc, append_assoc, cons_append, skip_ws ha (by decide), head?_cons]
  cases hd with
  | last hk ha hv hb | more hk ha hv hb _ =>
    cases object with
    | true =>
      rw [append_assoc, hkey _ _ hk]
      decide
    | false =>
      obtain rfl : _ = [] := hk
      rw [nil_append, append_assoc, append_assoc]
      exact hvalue _ _ _ ha hv

omit h in
theorem value_of_leaf {b : UInt8} {tail rest : List UInt8} (datum : Datum) (hws : whitespace b = false)
    (hopen : ¬ (b = 91 ∨ b = 123)) (hl : T.leaf b (b :: tail ++ rest) = some (datum, rest))
    {fuel depth : Nat} (hfuel : 2 * (b :: tail).length ≤ fuel) :
    ∃ tree, T.value fuel depth (b :: tail ++ rest) = some (tree, rest) := by
  obtain ⟨k, rfl⟩ : ∃ k, fuel = k + 1 := ⟨fuel - 1, by rw [length_cons] at hfuel; omega⟩
  rw [cons_append] at hl ⊢
  rw [Scanner.value, skip_of_solid (solid_cons hws _)]
  simp only
  rw [if_neg hopen, hl]
  exact ⟨_, rfl⟩

theorem scan_complete {sym : Sym} {v : List UInt8} (hd : Derives Str Num sym n v) :
    Accepts T sym n v := by
  induction hd with
  | null n =>
    intro fuel depth rest _ hfuel _
    refine value_of_leaf { kind := .Null } (by decide) (by decide) ?_ hfuel
    unfold Scanner.leaf
    rw [if_neg (by decide), if_pos rfl]
    exact congrArg (Option.map _) (literal_complete nullText rest)
  | true_ n =>
    intro fuel depth rest _ hfuel _
    refine value_of_leaf { kind := .Bool, boolean := true } (by decide) (by decide) ?_ hfuel
    unfold Scanner.leaf
    rw [if_neg (by decide), if_neg (by decide), if_pos rfl]
    exact congrArg (Option.map _) (literal_complete trueText rest)
  | false_ n =>
    intro fuel depth rest _ hfuel _
    refine value_of_leaf { kind := .Bool } (by decide) (by decide) ?_ hfuel
    unfold Scanner.leaf
    rw [if_neg (by decide), if_neg (by decide), if_neg (by decide), if_pos rfl]
    exact congrArg (Option.map _) (literal_complete falseText rest)
  | string hs =>
    intro fuel depth rest _ hfuel _
    obtain ⟨text, hstr⟩ := h.str_complete hs
    obtain ⟨tail, rfl⟩ := h.str_head hs
    refine value_of_leaf { kind := .String, text := text } (by decide) (by decide) ?_ hfuel
    unfold Scanner.leaf
    rw [if_pos rfl, hstr]
    rfl
  | number hn =>
    intro fuel depth rest _ hfuel hfollow
    have hnum := h.num_complete hn hfollow
    obtain ⟨b, tail, rfl, hb⟩ := h.num_head hn
    obtain ⟨hws, h91, h123, h34, h110, h116, h102, _, _⟩ := number_byte hb
    refine value_of_leaf
      ⟨.Number, false, (b :: tail ++ rest).take ((b :: tail ++ rest).length - rest.length)⟩
      hws (fun hopen => hopen.elim h91 h123) ?_ hfuel
    unfold Scanner.leaf
    rw [if_neg h34, if_neg h110, if_neg h116, if_neg h102, hnum]
    rfl
  | @empty object n a ha =>
    intro fuel depth rest hdepth hfuel _
    obtain ⟨k, rfl⟩ : ∃ k, fuel = k + 1 := ⟨fuel - 1, by rw [length_cons] at hfuel; omega⟩
    obtain ⟨hsolid, hopen, hobject⟩ := opening_spec object
    rw [cons_append, Scanner.value, skip_of_solid (solid_cons hsolid _)]
    simp only
    rw [if_pos hopen, if_neg (by omega), hobject, append_assoc, singleton_append,
      skip_ws ha (closing_solid object), head?_cons, if_pos rfl]
    exact ⟨_, rfl⟩
  | @container object n body hbody ih =>
    intro fuel depth rest hdepth hfuel _
    rw [length_cons, length_append, length_singleton] at hfuel
    obtain ⟨k, rfl⟩ : ∃ k, fuel = k + 1 := ⟨fuel - 1, by omega⟩
    obtain ⟨hsolid, hopen, hobject⟩ := opening_spec object
    obtain ⟨forest, hi⟩ := ih k depth rest hdepth (by omega)
    rw [cons_append, Scanner.value, skip_of_solid (solid_cons hsolid _)]
    simp only
    rw [if_pos hopen, if_neg (by omega), hobject, append_assoc, singleton_append,
      if_neg (items_head h hbody _), items_skip, hi]
    exact ⟨_, rfl⟩
  | @last object n key a v b hk ha hv hb ih =>
    intro fuel depth rest hdepth hfuel
    simp only [length_append] at hfuel
    obtain ⟨k, rfl⟩ : ∃ k, fuel = k + 1 := ⟨fuel - 1, by omega⟩
    obtain ⟨text, hkey⟩ := key_complete h hk
    obtain ⟨tree, hval⟩ := ih k (depth + 1) (b ++ closing object :: rest) (by omega) (by omega)
      (follow_ws hb (closing_follow object rest))
    have hskip := skip_ws hb (closing_solid object) rest
    simp only [append_assoc]
    rw [Scanner.items, hkey]
    simp only [value_ws ha, hval, hskip]
    exact ⟨_, rfl⟩
  | @more object n key a v b body hk ha hv hb _ ih ihrest =>
    intro fuel depth rest hdepth hfuel
    simp only [length_append, length_cons] at hfuel
    obtain ⟨k, rfl⟩ : ∃ k, fuel = k + 1 := ⟨fuel - 1, by omega⟩
    obtain ⟨text, hkey⟩ := key_complete h hk
    obtain ⟨tree, hval⟩ := ih k (depth + 1) (b ++ 44 :: (body ++ closing object :: rest))
      (by omega) (by omega) (follow_ws hb (follow_cons (by decide) _))
    obtain ⟨forest, hrest⟩ := ihrest k depth rest hdepth (by omega)
    have hskip := skip_ws hb (by decide : whitespace 44 = false) (body ++ closing object :: rest)
    have hclose : ¬ (44 : UInt8) = closing object := by cases object <;> decide
    simp only [append_assoc, cons_append]
    rw [Scanner.items, hkey]
    simp only [value_ws ha, hval, hskip, if_neg hclose]
    rw [if_neg (fun hne => hne rfl), hrest]
    exact ⟨_, rfl⟩

theorem text_iff (source : List UInt8) : (T.text source).isSome ↔ IsText Str Num source := by
  unfold Scanner.text IsText
  constructor
  · intro hsome
    split at hsome
    · cases hsome
    rename_i tree rest hv
    split_ifs at hsome with hend
    · obtain ⟨a, v, ha, hd, hsource⟩ :=
        (scan_sound h (scanFuel source)).1 0 source tree rest (Nat.zero_le _) hv
      exact ⟨a, v, rest, ha, hd, skip_eq_nil.mp hend, hsource⟩
    · cases hsome
  rintro ⟨a, v, b, ha, hd, hb, rfl⟩
  have hfollow : Follow b := by
    have := follow_ws hb follow_nil
    rwa [append_nil] at this
  obtain ⟨tree, hv⟩ := scan_complete h hd (scanFuel (a ++ (v ++ b))) 0 b (Nat.zero_add _)
    (by simp only [scanFuel, length_append]; omega) hfollow
  have hvalue : T.value (scanFuel (a ++ (v ++ b))) 0 (a ++ (v ++ b)) = some (tree, b) := by
    rw [← value_skip, skip_append ha, value_skip, hv]
  rw [hvalue]
  simp only
  rw [if_pos (skip_eq_nil.mpr hb)]
  rfl

end Correct

end Dyn.Json
