import Dyn.Json.Parse
import Dyn.Mem.Arena

/-!
# std/encoding/json/read: the compact reader

`Read.parse` copies the text into a buffer, decodes its strings in place and writes a tape of
tagged values.  The buffer is kept in two parts, what the cursor has passed and the rest.
A run that panics is `none`.

`readValue_spec` compares the reader with the recursive descent of `Scanner`: it accepts what
the descent with decoded strings accepts if no number overflows, and never reaches the bound
on the tape.
-/

namespace Dyn.Json
namespace Read

open List

inductive ErrorKind where
  | None
  | Syntax
  | TrailingData
  | NumberOverflow
  | Overlap
  | SizeOverflow
deriving DecidableEq, Repr

/-- The conversion of number texts to binary64: the bits of the result, and whether it is
beyond the finite range. -/
structure Conversion where
  bits : List UInt8 → UInt64
  overflows : List UInt8 → Bool

def digitsValue (text : List UInt8) : Nat := text.foldl (fun n b => n * 10 + (b.toNat - 48)) 0

/-- Integers of 64 bits are in the range of binary64. -/
def Conversion.Lawful (C : Conversion) : Prop :=
  ∀ sign int : List UInt8, sign = [] ∨ sign = [45] → digitsValue int < 2 ^ 64 →
    C.overflows (sign ++ int) = false

structure Value where
  tag : UInt64
  bits : UInt64
deriving DecidableEq, Repr

def kindCode : Kind → UInt64
  | .Missing => 0
  | .Null => 1
  | .Bool => 2
  | .Number => 3
  | .String => 4
  | .Array => 5
  | .Object => 6

def ReadUnsigned : UInt64 := 256

def ReadSigned : UInt64 := 512

def ReadFloat : UInt64 := 768

/-- `address` is where the buffer lies, `values` the used part of the tape. -/
structure ReadParser where
  before : List UInt8 := []
  rest : List UInt8
  error : ErrorKind := .None
  address : Nat
  values : List Value := []
  capacity : Nat
  limit : Nat

namespace ReadParser

def advance (s : ReadParser) (rest : List UInt8) : ReadParser :=
  { s with before := s.before ++ s.rest.take (s.rest.length - rest.length), rest := rest }

end ReadParser

def readSkip (s : ReadParser) : ReadParser := s.advance (skip s.rest)

/-- `read_append`: the number of the new value, or a panic at the bound. -/
def readAppend (s : ReadParser) (kind : Kind) (bits : UInt64) : Option (Nat × ReadParser) :=
  let capacity :=
    if s.values.length = s.capacity then
      if s.capacity * 2 > s.limit then s.limit else s.capacity * 2
    else s.capacity
  if s.values.length = s.capacity ∧ capacity ≤ s.capacity then none
  else
    some (s.values.length,
      { s with values := s.values ++ [⟨kindCode kind, bits⟩], capacity := capacity })

def orTag (s : ReadParser) (index : Nat) (tag : UInt64) : ReadParser :=
  { s with values := s.values.modify index (fun v => { v with tag := v.tag ||| tag }) }

/-- A value that is complete when it is appended. -/
def readLeaf (s : ReadParser) (kind : Kind) (bits tag : UInt64) : Option (Bool × ReadParser) :=
  match readAppend s kind bits with
  | none => none
  | some (index, s) => some (true, orTag s index tag)

/-- The digits of the integer part, and whether they fit 64 bits. -/
def readDigits : List UInt8 → Nat → Bool → Nat × Bool × List UInt8
  | [], integer, exact => (integer, exact, [])
  | byte :: rest, integer, exact =>
      if byte.toNat < 48 ∨ byte.toNat > 57 then (integer, exact, byte :: rest)
      else if exact then
        if integer > 1844674407370955161 ∨
            (integer = 1844674407370955161 ∧ byte.toNat - 48 > 5) then
          readDigits rest integer false
        else readDigits rest ((integer * 10 + (byte.toNat - 48)) % 2 ^ 64) true
      else readDigits rest integer false

/-- The value of a number, once its text is known. -/
def readNumberValue (C : Conversion) (s : ReadParser) (negative exact : Bool) (integer : Nat)
    (text : List UInt8) : Option (Bool × ReadParser) :=
  if exact && !negative then readLeaf s .Number (UInt64.ofNat integer) ReadUnsigned
  else if exact && negative && decide (integer ≠ 0) && decide (integer ≤ 9223372036854775808) then
    readLeaf s .Number (0 - UInt64.ofNat integer) ReadSigned
  else if C.overflows text then some (false, { s with error := .NumberOverflow })
  else readLeaf s .Number (C.bits text) ReadFloat

def readNumber (C : Conversion) (s : ReadParser) : Option (Bool × ReadParser) :=
  let negative := s.rest.head? == some 45
  match (if negative then s.rest.tail else s.rest) with
  | [] => some (false, s)
  | byte :: tail =>
      if byte ≠ 48 ∧ (byte.toNat < 49 ∨ byte.toNat > 57) then some (false, s)
      else
        match (if byte = 48 then (0, true, tail) else readDigits (byte :: tail) 0 true) with
        | (integer, exact, rest) =>
            match numberFraction rest with
            | (false, rest) => some (false, s.advance rest)
            | (true, rest') =>
                match numberExponent rest' with
                | (false, rest) => some (false, s.advance rest)
                | (true, after) =>
                    let exact := exact && !decide (rest.head? = some 46) &&
                      !decide (rest'.head? = some 101 ∨ rest'.head? = some 69)
                    readNumberValue C (s.advance after) negative exact integer
                      (s.rest.take (s.rest.length - after.length))

def failedString (s : ReadParser) : ReadParser :=
  if s.error = .None then { s with error := .Syntax } else s

/-- `read_decoded_string`: the text as a slice of the buffer, which is decoded in place.  A
failure gives the buffer up. -/
def readDecodedString (s : ReadParser) : (Nat × Nat) × ReadParser :=
  match s.rest with
  | 34 :: rest =>
      let s := s.advance rest
      let skipped := asciiStringPrefix rest
      match findEnd { length := skipped } (rest.drop skipped) with
      | none => ((0, 0), failedString s)
      | some found =>
          match contents found rest with
          | none => ((0, 0), failedString s)
          | some text =>
              let closed (text : List UInt8) : ReadParser :=
                { s with before := s.before ++ text ++ [34], rest := rest.drop (found.length + 1) }
              if found.length = 0 then ((s.before.length, 0), closed text)
              else if !found.hasEscape then ((s.before.length, found.length), closed text)
              else
                match decodeLoop true text.length text text 0 0 with
                | none => ((0, 0), failedString s)
                | some (output, length) => ((s.before.length, length), closed output)
  | _ => ((0, 0), failedString s)

def readStringValue (s : ReadParser) : Option (Bool × ReadParser) :=
  match readDecodedString s with
  | ((start, length), s) =>
      if s.error ≠ .None then some (false, s)
      else
        let pointer : UInt64 := if length ≠ 0 then UInt64.ofNat (s.address + start) else 0
        readLeaf s .String pointer (UInt64.ofNat length <<< 8)

/-- The key of a member and its colon; an element has neither. -/
def readKey (object : Bool) (s : ReadParser) : Option (Bool × ReadParser) :=
  if object then
    let s := readSkip s
    if s.rest.head? ≠ some 34 then some (false, s)
    else
      match readStringValue s with
      | none => none
      | some (false, s) => some (false, s)
      | some (true, s) =>
          let s := readSkip s
          if s.rest.head? ≠ some 58 then some (false, s) else some (true, s.advance s.rest.tail)
  else some (true, s)

/-- A container is complete: the number of its items and the extent of its values. -/
def closeContainer (s : ReadParser) (index count : Nat) : ReadParser :=
  { s with
    values := s.values.modify index (fun v =>
      ⟨v.tag ||| (UInt64.ofNat count <<< 8), UInt64.ofNat (s.values.length - index)⟩) }

mutual

/-- `read_value`; a fuel of twice the bytes left is enough. -/
def readValue (C : Conversion) : Nat → Nat → ReadParser → Option (Bool × ReadParser)
  | 0, _, s => some (false, s)
  | fuel + 1, depth, s =>
      let s := readSkip s
      match s.rest with
      | [] => some (false, s)
      | byte :: tail =>
          if byte = 34 then readStringValue s
          else if byte = 110 then
            match literal nullText s.rest with
            | (false, _) => some (false, s)
            | (true, rest) => readLeaf (s.advance rest) .Null 0 0
          else if byte = 116 ∨ byte = 102 then
            match literal (if byte == 116 then trueText else falseText) s.rest with
            | (false, _) => some (false, s)
            | (true, rest) => readLeaf (s.advance rest) .Bool (if byte == 116 then 1 else 0) 0
          else if byte ≠ 91 ∧ byte ≠ 123 then readNumber C s
          else if depth ≥ MaximumDepth then some (false, s)
          else
            match readAppend s (containerKind (byte == 123)) 0 with
            | none => none
            | some (index, s) =>
                let s := readSkip (s.advance tail)
                if s.rest.head? = some (closing (byte == 123)) then
                  some (true, closeContainer (s.advance s.rest.tail) index 0)
                else readItems C (byte == 123) index fuel depth 0 s

/-- The loop over the elements or members of a container. -/
def readItems (C : Conversion) (object : Bool) (index : Nat) :
    Nat → Nat → Nat → ReadParser → Option (Bool × ReadParser)
  | 0, _, _, s => some (false, s)
  | fuel + 1, depth, count, s =>
      match readKey object s with
      | none => none
      | some (false, s) => some (false, s)
      | some (true, s) =>
          match readValue C fuel (depth + 1) s with
          | none => none
          | some (false, s) => some (false, s)
          | some (true, s) =>
              let s := readSkip s
              match s.rest with
              | [] => some (false, s)
              | byte :: tail =>
                  let s := s.advance tail
                  if byte = closing object then some (true, closeContainer s index (count + 1))
                  else if byte ≠ 44 then some (false, s)
                  else readItems C object index fuel depth (count + 1) s

end

structure ParseResult where
  values : List Value := []
  buffer : List UInt8 := []
  ok : Bool := false
  kind : Category := .None
  offset : Nat := 0
  detail : ErrorKind := .None

def initialCapacity (source : List UInt8) : Nat :=
  match skip source with
  | byte :: _ =>
      if byte ≠ 91 ∧ byte ≠ 123 then 1
      else if source.length / 2 + 1 > 32 then 32 else source.length / 2 + 1
  | [] => if source.length / 2 + 1 > 32 then 32 else source.length / 2 + 1

/-- `parse` on a machine with words of `w` bits; `overlaps` says whether the text lies in free
storage of the arena, and `address` is where its copy goes. -/
def parse (C : Conversion) (w : Nat) (overlaps : Bool) (address : Nat) (source : List UInt8) :
    Option ParseResult :=
  if source.length = 0 then some { kind := .InvalidInput, detail := .Syntax }
  else if source.length > Mem.maximum w / 16 ∨ source.length > 0x00ffffffffffffff then
    some { kind := .Overflow, detail := .SizeOverflow }
  else if overlaps then some { kind := .InvalidInput, detail := .Overlap }
  else
    match readValue C (scanFuel source) 0
        (readSkip { rest := source, address := address, capacity := initialCapacity source
                    limit := source.length }) with
    | none => none
    | some (ok, s) =>
        let s := readSkip s
        if !ok || decide (s.rest ≠ []) then
          let detail :=
            if ok then .TrailingData else if s.error = .None then .Syntax else s.error
          some { kind := if detail = .NumberOverflow then .Overflow else .InvalidInput
                 offset := s.before.length, detail := detail }
        else some { values := s.values, buffer := s.before, ok := true }

/-- The reader is well: no error, and the tape is behind the cursor by at least `n`, so that
`n` values can be appended within the bound. -/
structure Ready (n : Nat) (s : ReadParser) : Prop where
  error : s.error = .None
  behind : s.values.length + n ≤ s.before.length
  total : s.before.length + s.rest.length = s.limit
  room : s.values.length ≤ s.capacity
  capacity : 0 < s.capacity

theorem advance_rest (s : ReadParser) (rest : List UInt8) : (s.advance rest).rest = rest := rfl

theorem Ready.advance {n : Nat} {s : ReadParser} (h : Ready n s) {used rest : List UInt8}
    (hs : s.rest = used ++ rest) : Ready (n + used.length) (s.advance rest) := by
  have hlen := congrArg length hs
  rw [length_append] at hlen
  have htake : (s.rest.take (s.rest.length - rest.length)).length = used.length := by
    rw [length_take]
    omega
  refine ⟨h.error, ?_, ?_, h.room, h.capacity⟩
  · change s.values.length + _ ≤ (s.before ++ _).length
    have := h.behind
    rw [length_append, htake]
    omega
  change (s.before ++ _).length + rest.length = s.limit
  have := h.total
  rw [length_append, htake]
  omega

variable {s : ReadParser} {C : Conversion}

theorem Ready.mono {n m : Nat} (h : Ready n s) (hm : m ≤ n) : Ready m s :=
  ⟨h.error, le_trans (Nat.add_le_add_left hm _) h.behind, h.total, h.room, h.capacity⟩

theorem Ready.skip {n : Nat} {s : ReadParser} (h : Ready n s) : Ready n (readSkip s) := by
  obtain ⟨a, _, hs, _⟩ := skip_spec s.rest
  exact (h.advance hs).mono (Nat.le_add_right _ _)

theorem readAppend_ok (hlimit : s.values.length < s.limit) (hroom : s.values.length ≤ s.capacity)
    (hcap : 0 < s.capacity) (kind : Kind) (bits : UInt64) :
    ∃ capacity, readAppend s kind bits = some (s.values.length,
        { s with values := s.values ++ [⟨kindCode kind, bits⟩], capacity := capacity }) ∧
      s.values.length + 1 ≤ capacity := by
  unfold readAppend
  split
  · have hmore : s.capacity < (if s.capacity * 2 > s.limit then s.limit else s.capacity * 2) := by
      split_ifs <;> omega
    rw [if_neg (fun hc => by omega)]
    exact ⟨_, rfl, by omega⟩
  rename_i hfull
  rw [if_neg (fun hc => hfull hc.1)]
  exact ⟨s.capacity, rfl, by omega⟩

theorem readLeaf_ok (h : Ready 1 s) (kind : Kind) (bits tag : UInt64) :
    ∃ s', readLeaf s kind bits tag = some (true, s') ∧ s'.rest = s.rest ∧ Ready 0 s' := by
  have hb := h.behind
  have ht := h.total
  obtain ⟨capacity, happ, hcap⟩ := readAppend_ok (by omega) h.room h.capacity kind bits
  unfold readLeaf
  rw [happ]
  refine ⟨_, rfl, rfl, h.error, ?_, ht, ?_, lt_of_lt_of_le (Nat.succ_pos _) hcap⟩
  · change (modify _ _ _).length + 0 ≤ _
    rw [length_modify, length_append]
    exact hb
  change (modify _ _ _).length ≤ _
  rw [length_modify, length_append]
  exact hcap

/-- What a call comes to: it fails, or it succeeds with the given rest. -/
def Outcome (result : Option (Bool × ReadParser)) : Option (List UInt8) → Prop
  | none => ∃ s', result = some (false, s')
  | some after => ∃ s', result = some (true, s') ∧ s'.rest = after ∧ Ready 0 s'

theorem readDigits_rest : ∀ (text : List UInt8) (integer : Nat) (exact : Bool),
    (readDigits text integer exact).2.2 = digits text
  | [], _, _ => rfl
  | byte :: rest, integer, exact => by
    unfold readDigits digits
    by_cases hd : digit byte = true
    · have hb := of_decide_eq_true hd
      rw [if_neg (by omega), if_pos hd]
      split_ifs
      · exact readDigits_rest rest _ _
      · exact readDigits_rest rest _ _
      · exact readDigits_rest rest _ _
    have hb : byte.toNat < 48 ∨ byte.toNat > 57 := by
      have : ¬ (48 ≤ byte.toNat ∧ byte.toNat ≤ 57) := fun hc => hd (decide_eq_true hc)
      omega
    rw [if_pos hb, if_neg hd]

theorem readDigits_inexact : ∀ (text : List UInt8) (integer : Nat),
    (readDigits text integer false).2.1 = false
  | [], _ => rfl
  | byte :: rest, integer => by
    unfold readDigits
    rw [if_neg Bool.false_ne_true]
    split_ifs
    · rfl
    · exact readDigits_inexact rest integer

theorem readDigits_exact : ∀ (d text : List UInt8) (integer : Nat),
    (∀ b ∈ d, digit b = true) → NoDigit text → integer < 2 ^ 64 →
    (readDigits (d ++ text) integer true).2.1 = true →
    d.foldl (fun n b => n * 10 + (b.toNat - 48)) integer < 2 ^ 64
  | [], _, _, _, _, hint, _ => hint
  | byte :: d, text, integer, hd, hno, hint, hexact => by
    have hb := of_decide_eq_true (hd byte (by simp))
    rw [cons_append] at hexact
    unfold readDigits at hexact
    rw [if_neg (by omega), if_pos rfl] at hexact
    split_ifs at hexact with hbig
    · rw [readDigits_inexact] at hexact
      cases hexact
    have hlt : integer * 10 + (byte.toNat - 48) < 2 ^ 64 := by omega
    rw [Nat.mod_eq_of_lt hlt] at hexact
    rw [foldl_cons]
    exact readDigits_exact d text _ (fun b hm => hd b (by simp [hm])) hno hlt hexact

theorem integer_cases {byte : UInt8} {tail : List UInt8}
    (hok : ¬ (byte ≠ 48 ∧ (byte.toNat < 49 ∨ byte.toNat > 57))) :
    ∃ int rest integer exact, byte :: tail = int ++ rest ∧ int ≠ [] ∧
      (if byte = 48 then (true, tail)
        else if byte.toNat < 49 ∨ byte.toNat > 57 then (false, byte :: tail)
        else (true, digits (byte :: tail))) = (true, rest) ∧
      (if byte = 48 then (0, true, tail) else readDigits (byte :: tail) 0 true) =
        (integer, exact, rest) ∧
      (exact = true → digitsValue int < 2 ^ 64) := by
  by_cases h48 : byte = 48
  · refine ⟨[byte], tail, 0, true, rfl, by simp, by rw [if_pos h48], by rw [if_pos h48], ?_⟩
    intro _
    rw [h48]
    decide
  have hbad : ¬ (byte.toNat < 49 ∨ byte.toNat > 57) := fun h => hok ⟨h48, h⟩
  rw [if_neg h48, if_neg hbad, if_neg h48]
  obtain ⟨d, hd, htext, hno⟩ := digits_spec (byte :: tail)
  have hrest := readDigits_rest (byte :: tail) 0 true
  refine ⟨d, digits (byte :: tail), (readDigits (byte :: tail) 0 true).1,
    (readDigits (byte :: tail) 0 true).2.1, htext, ?_, rfl, ?_, ?_⟩
  · rintro rfl
    have hb : digit byte = true := decide_eq_true (by omega)
    rw [nil_append] at htext
    exact absurd (hno byte tail htext.symm) (by rw [hb]; exact Bool.noConfusion)
  · exact Prod.ext rfl (Prod.ext rfl hrest)
  intro hexact
  rw [htext] at hexact
  exact readDigits_exact d _ 0 hd hno (by decide) hexact

variable {text tail : List UInt8}

theorem readNumberValue_spec (h : Ready 1 s) {negative exact : Bool} {integer : Nat}
    (hexact : exact = true → C.overflows text = false) :
    Outcome (readNumberValue C s negative exact integer text)
      (if C.overflows text then none else some s.rest) := by
  have hleaf : ∀ bits tag, C.overflows text = false →
      Outcome (readLeaf s .Number bits tag) (if C.overflows text then none else some s.rest) := by
    intro bits tag ho
    rw [ho, if_neg Bool.false_ne_true]
    exact readLeaf_ok h .Number bits tag
  unfold readNumberValue
  split
  · rename_i h1
    exact hleaf _ _ (hexact (Bool.and_eq_true_iff.mp h1).1)
  split
  · rename_i h2
    simp only [Bool.and_eq_true] at h2
    exact hleaf _ _ (hexact h2.1.1.1)
  cases ho : C.overflows text with
  | true => exact ⟨_, rfl⟩
  | false => exact readLeaf_ok h .Number _ _

theorem readNumber_spec (hC : C.Lawful) (h : Ready 0 s) :
    Outcome (readNumber C s)
      (match passed (number s.rest) with
        | none => none
        | some after =>
          if C.overflows (s.rest.take (s.rest.length - after.length)) then none
          else some after) := by
  obtain ⟨sign, body, hsign, hbody, hneg⟩ : ∃ sign body, (sign = [] ∨ sign = [45]) ∧
      s.rest = sign ++ body ∧ (if s.rest.head? = some 45 then s.rest.tail else s.rest) = body := by
    split_ifs with hm
    · obtain ⟨tail, ht⟩ := head?_eq_some_iff.mp hm
      exact ⟨[45], s.rest.tail, .inr rfl, by rw [ht]; rfl, rfl⟩
    · exact ⟨[], s.rest, .inl rfl, rfl, rfl⟩
  have hneg' : (if (s.rest.head? == some 45) = true then s.rest.tail else s.rest) = body := by
    rw [← hneg]
    by_cases hm : s.rest.head? = some 45
    · rw [if_pos hm, if_pos (beq_iff_eq.mpr hm)]
    · rw [if_neg hm, if_neg (fun hc => hm (beq_iff_eq.mp hc))]
  unfold readNumber number numberInteger
  dsimp only
  rw [hneg, hneg']
  cases body with
  | nil => exact ⟨s, rfl⟩
  | cons byte tail =>
    dsimp only
    split
    · rename_i hbad
      rw [if_neg hbad.1, if_pos hbad.2]
      exact ⟨s, rfl⟩
    rename_i hbad
    obtain ⟨int, rest, integer, exact_, hint, hne, hscan, hread, hvalue⟩ :=
      @integer_cases byte tail hbad
    rw [hscan, hread]
    dsimp only
    cases hf : numberFraction rest with
    | mk ok rest' =>
      cases ok with
      | false => exact ⟨_, rfl⟩
      | true =>
        dsimp only
        cases he : numberExponent rest' with
        | mk ok after =>
          cases ok with
          | false => exact ⟨_, rfl⟩
          | true =>
            obtain ⟨frac, _, hfrac⟩ := numberFraction_sound (congrArg passed hf)
            obtain ⟨exp, _, hexp⟩ := numberExponent_sound (congrArg passed he)
            have hsplit : s.rest = (sign ++ int ++ frac ++ exp) ++ after := by
              rw [hbody, hint, hfrac, hexp]
              simp only [append_assoc]
            have hpos := length_pos_of_ne_nil hne
            refine readNumberValue_spec ((h.advance hsplit).mono ?_) ?_
            · simp only [length_append]
              omega
            intro hexact
            simp only [Bool.and_eq_true, Bool.not_eq_true', decide_eq_false_iff_not] at hexact
            obtain ⟨⟨hexact, hdot⟩, hexp0⟩ := hexact
            have hrest' : rest' = rest := by
              unfold numberFraction at hf
              rw [if_neg hdot] at hf
              cases hf
              rfl
            have hafter : after = rest' := by
              unfold numberExponent at he
              rw [if_neg hexp0] at he
              cases he
              rfl
            have htext : s.rest.take (s.rest.length - after.length) = sign ++ int := by
              rw [hbody, hint, hafter, hrest', ← append_assoc,
                length_append, Nat.add_sub_cancel, take_left]
            rw [htext]
            exact hC sign int hsign (hvalue hexact)

theorem failedString_error (h : s.error = .None) : (failedString s).error ≠ .None := by
  unfold failedString
  rw [if_pos h]
  simp

theorem readDecodedString_spec (h : Ready 0 s) :
    match stringText s.rest with
    | none => (readDecodedString s).2.error ≠ .None
    | some (_, after) => (readDecodedString s).2.rest = after ∧
        Ready 1 (readDecodedString s).2 := by
  by_cases hquote : ∃ rest, s.rest = 34 :: rest
  · obtain ⟨rest, hrest⟩ := hquote
    have hskip := findEnd_skip rest {}
    rw [zero_add] at hskip
    have hready : Ready 1 (s.advance rest) := @Ready.advance _ _ h [34] rest hrest
    have herr := hready.error
    unfold readDecodedString stringText
    rw [hrest]
    simp only [hskip]
    cases hf : findEnd {} rest with
    | none => exact failedString_error herr
    | some found =>
      dsimp only
      cases hc : contents found rest with
      | none => exact failedString_error herr
      | some text =>
        dsimp only
        obtain ⟨body, after, _, hbody, rfl⟩ := findEnd_sound hf
        subst hbody
        have htext : text = body := by
          rw [contents_eq] at hc
          split_ifs at hc
          cases hc
          rfl
        subst htext
        have hlen : (Extent.add {} text).length = text.length := zero_add _
        have hesc : (Extent.add {} text).hasEscape = text.contains 92 := Bool.false_or _
        have hdrop : (text ++ 34 :: after).drop (text.length + 1) = after := by
          rw [← drop_drop, drop_left]
          rfl
        -- what was decoded is as long as what was there
        have hclosed : ∀ output : List UInt8, output.length = text.length →
            Ready 1 { s.advance (text ++ 34 :: after) with
              before := (s.advance (text ++ 34 :: after)).before ++ output ++ [34]
              rest := after } := by
          intro output ho
          have hb := hready.behind
          have ht := hready.total
          rw [advance_rest, length_append, length_cons] at ht
          refine ⟨herr, ?_, ?_, hready.room, hready.capacity⟩
          · dsimp only
            rw [length_append, length_append]
            omega
          dsimp only
          rw [length_append, length_append, length_singleton, ← ht]
          omega
        rw [hlen, hesc, hdrop]
        by_cases h0 : text.length = 0
        · obtain rfl := length_eq_zero_iff.mp h0
          exact ⟨rfl, hclosed [] rfl⟩
        rw [if_neg h0]
        cases hplain : text.contains 92 with
        | false =>
          rw [unescape_plain hplain]
          exact ⟨rfl, hclosed text rfl⟩
        | true =>
          have hloop := @decodeLoop_eq true text text rfl (fun _ => rfl)
          cases hu : unescape text with
          | none =>
            rw [hu] at hloop
            rw [hloop]
            exact failedString_error herr
          | some bytes =>
            rw [hu] at hloop
            obtain ⟨out, hrun, _⟩ := hloop
            rw [hrun]
            exact ⟨rfl, hclosed out (decodeLoop_length hrun)⟩
  · rw [stringText_none (fun rest hrest => hquote ⟨rest, hrest⟩)]
    unfold readDecodedString
    dsimp only
    split
    · rename_i rest hrest
      exact absurd ⟨rest, hrest⟩ hquote
    · exact failedString_error h.error

theorem readStringValue_spec (h : Ready 0 s) :
    Outcome (readStringValue s) ((stringText s.rest).map Prod.snd) := by
  have hd := readDecodedString_spec h
  unfold readStringValue
  cases hs : stringText s.rest with
  | none =>
    rw [hs] at hd
    dsimp only at hd ⊢
    rw [if_pos hd]
    exact ⟨_, rfl⟩
  | some found =>
    rw [hs] at hd
    obtain ⟨hrest, hready⟩ := hd
    dsimp only
    rw [if_neg (not_not_intro hready.error)]
    obtain ⟨s', hrun, hs', hready'⟩ := readLeaf_ok hready .String
      (if (readDecodedString s).1.2 ≠ 0 then
        UInt64.ofNat ((readDecodedString s).2.address + (readDecodedString s).1.1) else 0)
      (UInt64.ofNat (readDecodedString s).1.2 <<< 8)
    exact ⟨s', hrun, hs'.trans hrest, hready'⟩

theorem readKey_spec {object : Bool} {s : ReadParser} (h : Ready 0 s) :
    Outcome (readKey object s) ((strict.key object s.rest).map Prod.snd) := by
  unfold readKey Scanner.key
  cases object with
  | false => exact ⟨s, rfl, rfl, h⟩
  | true =>
    have hskip : (readSkip s).rest = skip s.rest := rfl
    rw [if_pos rfl, if_pos rfl, strict_str]
    dsimp only
    rw [hskip]
    by_cases h34 : (skip s.rest).head? = some 34
    · rw [if_neg (not_not_intro h34)]
      have hv := readStringValue_spec h.skip
      rw [hskip] at hv
      cases hs : stringText (skip s.rest) with
      | none =>
        rw [hs] at hv
        obtain ⟨s', hrun⟩ := hv
        rw [hrun]
        exact ⟨s', rfl⟩
      | some found =>
        obtain ⟨key, after⟩ := found
        rw [hs] at hv
        obtain ⟨s', hrun, hrest, hready⟩ := hv
        rw [hrun]
        dsimp only at hrest ⊢
        have hskip' : (readSkip s').rest = skip after := by
          rw [← hrest]
          rfl
        rw [hskip']
        cases hm : skip after with
        | nil => exact ⟨_, rfl⟩
        | cons byte tail =>
          dsimp only
          by_cases hcolon : byte = 58
          · subst hcolon
            rw [if_neg (by simp), if_neg (by simp)]
            refine ⟨_, rfl, rfl, (@Ready.advance _ _ hready.skip [58] _ ?_).mono (Nat.zero_le _)⟩
            rw [hskip', hm]
            rfl
          · rw [if_pos hcolon, if_pos (by simpa using hcolon)]
            exact ⟨_, rfl⟩
    · rw [if_pos h34, stringText_none]
      · exact ⟨_, rfl⟩
      intro tail ht
      rw [ht] at h34
      exact h34 rfl

/-- No number is beyond the range of binary64. -/
def NoOverflow (C : Conversion) (numbers : List (List UInt8)) : Prop :=
  ∀ text ∈ numbers, C.overflows text = false

instance (C : Conversion) (numbers : List (List UInt8)) : Decidable (NoOverflow C numbers) :=
  inferInstanceAs (Decidable (∀ text ∈ numbers, C.overflows text = false))

/-- What is left of a value without overflowing numbers. -/
def accepted (C : Conversion) : Option (Tree × List UInt8) → Option (List UInt8)
  | none => none
  | some (tree, after) => if NoOverflow C tree.numbers then some after else none

/-- What is left of items without overflowing numbers. -/
def acceptedItems (C : Conversion) : Option (Forest × List UInt8) → Option (List UInt8)
  | none => none
  | some (forest, after) => if NoOverflow C forest.numbers then some after else none

theorem noOverflow_append {a b : List (List UInt8)} :
    NoOverflow C (a ++ b) ↔ NoOverflow C a ∧ NoOverflow C b := by
  constructor
  · intro h
    exact ⟨fun t ht => h t (mem_append_left _ ht), fun t ht => h t (mem_append_right _ ht)⟩
  rintro ⟨ha, hb⟩ t ht
  rcases mem_append.mp ht with ht | ht
  · exact ha t ht
  · exact hb t ht

theorem noOverflow_nil (C : Conversion) : NoOverflow C [] := fun _ h => absurd h (by simp)

theorem item_numbers (C : Conversion) (tree : Tree) (key : List UInt8) (next : Forest) :
    NoOverflow C (Forest.node tree.datum key tree.first next).numbers ↔
      NoOverflow C tree.numbers ∧ NoOverflow C next.numbers := by
  rw [Forest.numbers, Tree.numbers, noOverflow_append]

theorem accepted_leaf {datum : Datum} (h : datum.kind ≠ .Number) (after : List UInt8) :
    accepted C (some (⟨datum, .nil⟩, after)) = some after := by
  unfold accepted
  dsimp only
  rw [if_pos]
  rw [Tree.numbers, if_neg h]
  exact noOverflow_nil C

theorem readLeaf_advance (h : Ready 0 s) {used after : List UInt8} (hs : s.rest = used ++ after)
    (hne : used ≠ []) (kind : Kind) (bits tag : UInt64) :
    Outcome (readLeaf (s.advance after) kind bits tag) (some after) := by
  have hpos := length_pos_of_ne_nil hne
  exact readLeaf_ok ((h.advance hs).mono (by omega)) kind bits tag

theorem readLiteral_spec (h : Ready 0 s) (hne : text ≠ []) {datum : Datum}
    (hd : datum.kind ≠ .Number) (kind : Kind) (bits : UInt64) :
    Outcome
      (match literal text s.rest with
        | (false, _) => some (false, s)
        | (true, rest) => readLeaf (s.advance rest) kind bits 0)
      (accepted C (match (passed (literal text s.rest)).map (fun after => (datum, after)) with
        | none => none
        | some (datum, rest) => some (⟨datum, .nil⟩, rest))) := by
  cases hl : literal text s.rest with
  | mk ok after =>
    cases ok with
    | false => exact ⟨s, rfl⟩
    | true =>
      rw [passed_true, Option.map_some]
      rw [accepted_leaf hd]
      exact readLeaf_advance h (literal_sound (congrArg passed hl)) hne kind bits 0

theorem readValue_leaf (hC : C.Lawful) {fuel depth : Nat} (h : Ready 0 s) {byte : UInt8}
    (hskip : skip s.rest = byte :: tail) (hleaf : ¬ (byte = 91 ∨ byte = 123)) :
    Outcome (readValue C (fuel + 1) depth s)
      (accepted C (match strict.leaf byte (byte :: tail) with
        | none => none
        | some (datum, rest) => some (⟨datum, .nil⟩, rest))) := by
  have hready := h.skip
  have hrest : (readSkip s).rest = byte :: tail := hskip
  rw [readValue.eq_def]
  dsimp only
  generalize readSkip s = s at hready hrest
  rw [hrest]
  dsimp only
  rw [← hrest]
  unfold Scanner.leaf
  split
  · rw [strict_str]
    have hv := readStringValue_spec hready
    cases hs : stringText s.rest with
    | none =>
      rw [hs] at hv
      exact hv
    | some found =>
      rw [hs] at hv
      rw [Option.map_some]
      rw [accepted_leaf (by simp)]
      exact hv
  split
  · exact readLiteral_spec hready (by decide) (by simp) .Null 0
  by_cases h116 : byte = 116
  · rw [if_pos (.inl h116), if_pos h116]
    have hb : (byte == 116) = true := beq_iff_eq.mpr h116
    rw [hb]
    exact readLiteral_spec hready (by decide) (by simp) .Bool 1
  rw [if_neg h116]
  by_cases h102 : byte = 102
  · rw [if_pos (.inr h102), if_pos h102]
    have hb : (byte == 116) = false := beq_eq_false_iff_ne.mpr h116
    rw [hb]
    exact readLiteral_spec hready (by decide) (by simp) .Bool 0
  rw [if_neg (not_or_intro h116 h102), if_neg h102, if_pos (not_or.mp hleaf)]
  have hn := readNumber_spec hC hready
  change Outcome _ (accepted C (match Option.map _ (passed (number s.rest)) with
    | none => none
    | some (datum, rest) => some (⟨datum, .nil⟩, rest)))
  cases hp : passed (number s.rest) with
  | none =>
    rw [hp] at hn
    exact hn
  | some after =>
    rw [hp] at hn
    rw [Option.map_some]
    dsimp only at hn ⊢
    unfold accepted
    dsimp only
    cases ho : C.overflows (s.rest.take (s.rest.length - after.length)) with
    | true =>
      rw [ho, if_pos rfl] at hn
      rw [if_neg]
      · exact hn
      intro hno
      have := hno _ (by
        rw [Tree.numbers, if_pos rfl]
        exact mem_append_left _ (mem_singleton.mpr rfl))
      rw [ho] at this
      cases this
    | false =>
      rw [ho, if_neg Bool.false_ne_true] at hn
      rw [if_pos]
      · exact hn
      intro t ht
      rw [Tree.numbers, if_pos rfl, singleton_append] at ht
      rcases mem_cons.mp ht with rfl | ht
      · exact ho
      · exact absurd ht (by simp [Forest.numbers])

theorem Ready.close {n : Nat} (h : Ready n s) (index count : Nat) :
    Ready n (closeContainer s index count) := by
  refine ⟨h.error, ?_, h.total, ?_, h.capacity⟩
  · change (modify _ _ _).length + n ≤ _
    rw [length_modify]
    exact h.behind
  change (modify _ _ _).length ≤ _
  rw [length_modify]
  exact h.room

/-- A container begins: its value is appended and its bracket passed. -/
theorem readAppend_open (h : Ready 0 s) {byte : UInt8} (hrest : s.rest = byte :: tail) (kind : Kind) :
    ∃ index s', readAppend s kind 0 = some (index, s') ∧ Ready 0 (readSkip (s'.advance tail)) ∧
      (readSkip (s'.advance tail)).rest = skip tail := by
  have hb := h.behind
  have ht := h.total
  rw [hrest, length_cons] at ht
  obtain ⟨capacity, happ, hcap⟩ := readAppend_ok (by omega) h.room h.capacity kind 0
  refine ⟨_, _, happ, Ready.skip ?_, rfl⟩
  have htake : (s.rest.take (s.rest.length - tail.length)).length = 1 := by
    rw [length_take, hrest, length_cons]
    omega
  refine ⟨h.error, ?_, ?_, ?_, lt_of_lt_of_le (Nat.succ_pos _) hcap⟩
  · change (s.values ++ _).length + 0 ≤ (s.before ++ _).length
    rw [length_append, length_append, htake]
    exact Nat.add_le_add_right hb 1
  · change (s.before ++ _).length + tail.length = s.limit
    rw [length_append, htake]
    omega
  change (s.values ++ _).length ≤ capacity
  rw [length_append]
  exact hcap

mutual

/-- **`read_value` accepts what the descent with decoded strings reads,** if no number
overflows. -/
theorem readValue_spec {C : Conversion} (hC : C.Lawful) :
    ∀ (fuel depth : Nat) (s : ReadParser), Ready 0 s →
      Outcome (readValue C fuel depth s) (accepted C (strict.value fuel depth s.rest))
  | 0, _, s, _ => ⟨s, rfl⟩
  | fuel + 1, depth, s, h => by
    rw [Scanner.value]
    cases hskip : skip s.rest with
    | nil =>
      have hrest : (readSkip s).rest = [] := hskip
      rw [readValue.eq_def]
      dsimp only
      rw [hrest]
      exact ⟨_, rfl⟩
    | cons byte tail =>
      dsimp only
      split
      · rename_i hleaf
        have hready := h.skip
        have hrest : (readSkip s).rest = byte :: tail := hskip
        rw [readValue.eq_def]
        dsimp only
        generalize readSkip s = s at hready hrest
        rw [hrest]
        dsimp only
        have h34 : byte ≠ 34 := by rcases hleaf with rfl | rfl <;> decide
        have h110 : byte ≠ 110 := by rcases hleaf with rfl | rfl <;> decide
        have hbool : ¬ (byte = 116 ∨ byte = 102) := by rcases hleaf with rfl | rfl <;> decide
        have hnum : ¬ (byte ≠ 91 ∧ byte ≠ 123) := by rcases hleaf with rfl | rfl <;> decide
        rw [if_neg h34, if_neg h110, if_neg hbool, if_neg hnum]
        split
        · exact ⟨s, rfl⟩
        obtain ⟨index, s', happ, hready', hrest'⟩ :=
          readAppend_open hready hrest (containerKind (byte == 123))
        rw [happ]
        dsimp only
        generalize readSkip (s'.advance tail) = s' at hready' hrest'
        rw [hrest']
        have hkind : (containerKind (byte == 123)) ≠ .Number := by
          cases byte == 123 <;> simp [containerKind]
        split_ifs with hclose
        · rw [accepted_leaf hkind]
          obtain ⟨after, hafter⟩ := List.head?_eq_some_iff.mp hclose
          refine ⟨_, rfl, rfl, ((@Ready.advance _ _ hready' [closing (byte == 123)]
            _ ?_).mono (Nat.zero_le _)).close index 0⟩
          rw [hrest', hafter]
          rfl
        have ih := readItems_spec hC (byte == 123) index fuel depth 0 s' hready'
        rw [hrest'] at ih
        cases hi : strict.items (byte == 123) fuel depth (skip tail) with
        | none =>
          rw [hi] at ih
          exact ih
        | some found =>
          obtain ⟨forest, after⟩ := found
          rw [hi] at ih
          have hnumbers : (Tree.mk { kind := containerKind (byte == 123) } forest).numbers
              = forest.numbers := by
            rw [Tree.numbers, if_neg hkind, nil_append]
          unfold accepted
          dsimp only
          rw [hnumbers]
          exact ih
      · rename_i hleaf
        exact readValue_leaf hC h hskip hleaf

theorem readItems_spec {C : Conversion} (hC : C.Lawful) (object : Bool) (index : Nat) :
    ∀ (fuel depth count : Nat) (s : ReadParser), Ready 0 s →
      Outcome (readItems C object index fuel depth count s)
        (acceptedItems C (strict.items object fuel depth s.rest))
  | 0, _, _, s, _ => ⟨s, rfl⟩
  | fuel + 1, depth, count, s, h => by
    have hkey := @readKey_spec object s h
    rw [Scanner.items, readItems.eq_def]
    dsimp only
    cases hk : strict.key object s.rest with
    | none =>
      rw [hk] at hkey
      obtain ⟨s', hrun⟩ := hkey
      rw [hrun]
      exact ⟨s', rfl⟩
    | some found =>
      obtain ⟨key, mid⟩ := found
      rw [hk] at hkey
      obtain ⟨s', hrun, hmid, hready⟩ := hkey
      rw [hrun]
      dsimp only at hmid ⊢
      have hvalue := readValue_spec hC fuel (depth + 1) s' hready
      rw [hmid] at hvalue
      cases hv : strict.value fuel (depth + 1) mid with
      | none =>
        rw [hv] at hvalue
        obtain ⟨s'', hrun'⟩ := hvalue
        rw [hrun']
        exact ⟨s'', rfl⟩
      | some found =>
        obtain ⟨tree, behind⟩ := found
        rw [hv] at hvalue
        unfold accepted at hvalue
        dsimp only at hvalue ⊢
        split_ifs at hvalue with hno
        · obtain ⟨s'', hrun', hbehind, hready'⟩ := hvalue
          rw [hrun']
          dsimp only
          have hskip := hready'.skip
          have hrest : (readSkip s'').rest = skip behind := by
            rw [← hbehind]
            rfl
          generalize readSkip s'' = s'' at hskip hrest
          rw [hrest]
          cases hb : skip behind with
          | nil => exact ⟨_, rfl⟩
          | cons byte tail =>
            rw [hb] at hrest
            have hnext : Ready 0 (s''.advance tail) :=
              (@Ready.advance _ _ hskip [byte] _ hrest).mono (Nat.zero_le _)
            dsimp only
            split
            · unfold acceptedItems
              dsimp only
              rw [if_pos ((item_numbers C tree key .nil).mpr ⟨hno, noOverflow_nil C⟩)]
              exact ⟨_, rfl, rfl, hnext.close index (count + 1)⟩
            split_ifs
            · exact ⟨_, rfl⟩
            have ih := readItems_spec hC object index fuel depth (count + 1)
              (s''.advance tail) hnext
            rw [advance_rest] at ih
            cases hi : strict.items object fuel depth tail with
            | none =>
              rw [hi] at ih
              exact ih
            | some found =>
              obtain ⟨forest, after⟩ := found
              rw [hi] at ih
              have hiff := item_numbers C tree key forest
              unfold acceptedItems at ih ⊢
              dsimp only at ih ⊢
              by_cases hn : NoOverflow C forest.numbers
              · rw [if_pos (hiff.mpr ⟨hno, hn⟩)]
                rwa [if_pos hn] at ih
              · rw [if_neg (fun hc => hn (hiff.mp hc).2)]
                rwa [if_neg hn] at ih
        · -- an overflow ends the reading, whatever stands behind it
          obtain ⟨s'', hrun'⟩ := hvalue
          rw [hrun']
          have hbad : ∀ next after, acceptedItems C
              (some (Forest.node tree.datum key tree.first next, after)) = none :=
            fun next _ => if_neg (fun hc => hno ((item_numbers C tree key next).mp hc).1)
          cases skip behind with
          | nil => exact ⟨s'', rfl⟩
          | cons byte tail =>
            dsimp only
            split_ifs
            · rw [hbad]
              exact ⟨s'', rfl⟩
            · exact ⟨s'', rfl⟩
            cases strict.items object fuel depth tail with
            | none => exact ⟨s'', rfl⟩
            | some found =>
              dsimp only
              rw [hbad]
              exact ⟨s'', rfl⟩

end

/-- The reader can hold its tape: a value of 16 bytes for every byte of the text. -/
def Fits (w : Nat) (source : List UInt8) : Prop :=
  source.length ≤ Mem.maximum w / 16 ∧ source.length ≤ 0x00ffffffffffffff

theorem initialCapacity_pos (source : List UInt8) : 0 < initialCapacity source := by
  unfold initialCapacity
  split
  · split_ifs <;> omega
  · split_ifs <;> omega

/-- **`parse` accepts the texts that the descent with decoded strings accepts,** if no number
overflows; it does not panic. -/
theorem parse_spec (hC : C.Lawful) {w : Nat} {source : List UInt8} (hfits : Fits w source)
    (address : Nat) :
    ∃ result, parse C w false address source = some result ∧
      (result.ok = true ↔ ∃ tree, strict.text source = some tree ∧ NoOverflow C tree.numbers) := by
  unfold parse
  by_cases hempty : source.length = 0
  · obtain rfl := length_eq_zero_iff.mp hempty
    refine ⟨_, rfl, ?_⟩
    constructor
    · intro h
      cases h
    · rintro ⟨tree, htext, _⟩
      cases htext
  have hsize : ¬ (source.length > Mem.maximum w / 16 ∨ source.length > 0x00ffffffffffffff) := by
    unfold Fits at hfits
    omega
  rw [if_neg hempty, if_neg hsize, if_neg Bool.false_ne_true]
  have hstart : Ready 0 { rest := source, address := address
                          capacity := initialCapacity source, limit := source.length } :=
    ⟨rfl, Nat.le_refl 0, Nat.zero_add _, Nat.zero_le _, initialCapacity_pos source⟩
  have hrun := readValue_spec hC (scanFuel source) 0 _ hstart.skip
  have hrest : (readSkip { rest := source, address := address
                           capacity := initialCapacity source
                           limit := source.length }).rest = skip source := rfl
  rw [hrest, value_skip] at hrun
  unfold Scanner.text
  cases hv : strict.value (scanFuel source) 0 source with
  | none =>
    rw [hv] at hrun
    obtain ⟨s', hrun⟩ := hrun
    rw [hrun]
    refine ⟨_, rfl, ?_⟩
    simp
  | some found =>
    obtain ⟨tree, after⟩ := found
    rw [hv] at hrun
    unfold accepted at hrun
    dsimp only at hrun
    split_ifs at hrun with hno
    · obtain ⟨s', hrun, hafter, _⟩ := hrun
      rw [hrun]
      have hend : (readSkip s').rest = skip after := by
        rw [← hafter]
        rfl
      dsimp only
      rw [hend]
      by_cases hskip : skip after = []
      · rw [if_pos hskip, if_neg (by simp [hskip])]
        exact ⟨_, rfl, ⟨fun _ => ⟨tree, rfl, hno⟩, fun _ => rfl⟩⟩
      · rw [if_neg hskip, if_pos (by simp [hskip])]
        exact ⟨_, rfl, by simp⟩
    obtain ⟨s', hrun⟩ := hrun
    rw [hrun]
    refine ⟨_, rfl, ?_⟩
    dsimp only
    constructor
    · intro h
      cases h
    rintro ⟨tree', htree, hno'⟩
    split_ifs at htree
    cases htree
    exact absurd hno' hno

end Read
end Dyn.Json
