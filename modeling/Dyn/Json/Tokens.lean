import Dyn.Json.Decode
import Dyn.Json.Grammar

/-!
# JSON tokens

The number and string tokens of RFC 8259, and what the scanners of the source make of them.
A string is a list of pieces: characters, short escapes and `\u` escapes.  `ScalarEscapes`
says that the `\u` escapes form scalar values; only then do the pieces have a meaning.

`string` takes every string token, `unescape`, the meaning of the decoding loop, only those
with scalar escapes.
-/

namespace Dyn.Json

open Unicode List

def Digits (text : List UInt8) : Prop := text ≠ [] ∧ ∀ b ∈ text, digit b = true

/-- A number: an optional sign, an integer, an optional fraction and an optional exponent. -/
def IsNumber (text : List UInt8) : Prop :=
  ∃ sign int frac exp, text = sign ++ (int ++ (frac ++ exp)) ∧ (sign = [] ∨ sign = [45]) ∧
    (int = [48] ∨ (Digits int ∧ int.head? ≠ some 48)) ∧
    (frac = [] ∨ ∃ d, Digits d ∧ frac = 46 :: d) ∧
    (exp = [] ∨ ∃ e s d, (e = 101 ∨ e = 69) ∧ (s = [] ∨ s = [43] ∨ s = [45]) ∧ Digits d ∧
      exp = e :: (s ++ d))

def NoDigit (text : List UInt8) : Prop := ∀ b tail, text = b :: tail → digit b = false

theorem noDigit_nil : NoDigit [] := nofun

variable {b : UInt8}

theorem noDigit_cons (h : digit b = false) (tail : List UInt8) : NoDigit (b :: tail) := by
  intro b' tail' he
  cases he
  exact h

theorem digits_spec : ∀ text : List UInt8,
    ∃ d, (∀ b ∈ d, digit b = true) ∧ text = d ++ digits text ∧ NoDigit (digits text)
  | [] => ⟨[], (fun _ h => absurd h (by simp)), rfl, noDigit_nil⟩
  | b :: tail => by
    unfold digits
    split_ifs with hb
    · obtain ⟨d, hd, htext, hno⟩ := digits_spec tail
      refine ⟨b :: d, ?_, ?_, hno⟩
      · intro c hc
        rcases mem_cons.mp hc with rfl | hc
        · exact hb
        · exact hd c hc
      · rw [cons_append, ← htext]
    · exact ⟨[], (fun _ h => absurd h (by simp)), rfl, noDigit_cons (by simpa using hb) tail⟩

variable {rest after : List UInt8}

theorem digits_append {d : List UInt8} (hd : ∀ b ∈ d, digit b = true) (hrest : NoDigit rest) :
    digits (d ++ rest) = rest := by
  induction d with
  | nil =>
    cases rest with
    | nil => rfl
    | cons b tail =>
      rw [nil_append, digits, if_neg]
      rw [hrest b tail rfl]
      exact Bool.false_ne_true
  | cons b d ih =>
    rw [cons_append, digits, if_pos (hd b (by simp)), ih (fun c hc => hd c (by simp [hc]))]

theorem someDigits_sound (h : passed (someDigits rest) = some after) :
    ∃ d, Digits d ∧ rest = d ++ after := by
  unfold someDigits passed at h
  split_ifs at h with hne
  injection h with h
  obtain ⟨d, hd, htext, _⟩ := digits_spec rest
  have hne' := of_decide_eq_true hne
  refine ⟨d, ⟨?_, hd⟩, by rw [← h]; exact htext⟩
  rintro rfl
  rw [nil_append] at htext
  exact hne' (congrArg length htext).symm

theorem someDigits_complete {d : List UInt8} (hd : Digits d) (hrest : NoDigit rest) :
    passed (someDigits (d ++ rest)) = some rest := by
  have hpos := length_pos_of_ne_nil hd.1
  have hne : (digits (d ++ rest)).length ≠ (d ++ rest).length := by
    rw [digits_append hd.2 hrest, length_append]
    omega
  unfold someDigits passed
  rw [decide_eq_true hne, if_pos rfl, digits_append hd.2 hrest]

theorem Follow.head {rest : List UInt8} (h : Follow rest) :
    NoDigit rest ∧ rest.head? ≠ some 46 ∧ rest.head? ≠ some 101 ∧ rest.head? ≠ some 69 := by
  cases rest with
  | nil => exact ⟨noDigit_nil, by simp, by simp, by simp⟩
  | cons b tail =>
    have hb := h b tail rfl
    have hws : whitespace b = true → b = 32 ∨ b = 10 ∨ b = 13 ∨ b = 9 := by
      intro hw
      simpa [whitespace, or_assoc] using hw
    have hcases : b = 32 ∨ b = 10 ∨ b = 13 ∨ b = 9 ∨ b = 44 ∨ b = 93 ∨ b = 125 := by
      rcases hb with hb | hb
      · rcases hws hb with h | h | h | h <;> simp [h]
      · exact .inr (.inr (.inr (.inr hb)))
    rcases hcases with rfl | rfl | rfl | rfl | rfl | rfl | rfl <;>
      exact ⟨noDigit_cons (by decide) _, by simp, by simp, by simp⟩

theorem numberInteger_sound (h : passed (numberInteger rest) = some after) :
    ∃ sign int, (sign = [] ∨ sign = [45]) ∧ (int = [48] ∨ (Digits int ∧ int.head? ≠ some 48)) ∧
      rest = sign ++ (int ++ after) := by
  have hsign : ∃ sign, (sign = [] ∨ sign = [45]) ∧
      rest = sign ++ (if rest.head? = some 45 then rest.tail else rest) := by
    split_ifs with hm
    · obtain ⟨tail, rfl⟩ := head?_eq_some_iff.mp hm
      exact ⟨[45], .inr rfl, rfl⟩
    · exact ⟨[], .inl rfl, rfl⟩
  obtain ⟨sign, hs, hrest⟩ := hsign
  unfold numberInteger at h
  generalize (if rest.head? = some 45 then rest.tail else rest) = body at h hrest
  cases body with
  | nil => cases h
  | cons b tail =>
    simp only at h
    split_ifs at h with h0 hbad
    · cases h
      refine ⟨sign, [48], hs, .inl rfl, ?_⟩
      rw [hrest, h0]
      rfl
    · cases h
    cases h
    obtain ⟨d, hd, htext, _⟩ := digits_spec (b :: tail)
    have hb : digit b = true := decide_eq_true (by omega)
    cases d with
    | nil =>
      rw [nil_append, digits, if_pos hb] at htext
      have := congrArg length htext
      obtain ⟨d', _, htail, _⟩ := digits_spec tail
      have hlen := congrArg length htail
      rw [length_append] at hlen
      rw [length_cons] at this
      omega
    | cons c d =>
      rw [cons_append] at htext
      injection htext with hc htext'
      refine ⟨sign, c :: d, hs, .inr ⟨⟨by simp, hd⟩, ?_⟩, ?_⟩
      · rw [head?_cons, ← hc]
        intro he
        injection he with he
        exact h0 he
      · rw [hrest, ← hc, cons_append, ← htext']

theorem numberInteger_complete {sign int : List UInt8} (hs : sign = [] ∨ sign = [45])
    (hi : int = [48] ∨ (Digits int ∧ int.head? ≠ some 48)) (hrest : NoDigit rest) :
    passed (numberInteger (sign ++ (int ++ rest))) = some rest := by
  have hint : ∃ b tail, int = b :: tail ∧ digit b = true := by
    rcases hi with rfl | ⟨⟨hne, hd⟩, _⟩
    · exact ⟨48, [], rfl, by decide⟩
    · obtain ⟨b, tail, rfl⟩ := exists_cons_of_ne_nil hne
      exact ⟨b, tail, rfl, hd b (by simp)⟩
  obtain ⟨b, tail, rfl, hb⟩ := hint
  have hb' := of_decide_eq_true hb
  have hbody : (if (sign ++ (b :: tail ++ rest)).head? = some 45 then
      (sign ++ (b :: tail ++ rest)).tail else sign ++ (b :: tail ++ rest)) = b :: tail ++ rest := by
    rcases hs with rfl | rfl
    · have hne : ¬ (b :: tail ++ rest).head? = some 45 := by
        rw [cons_append, head?_cons]
        intro he
        injection he with he
        rw [he] at hb'
        exact absurd hb' (by decide)
      rw [nil_append, if_neg hne]
    · rw [cons_append, nil_append, head?_cons, if_pos rfl, tail_cons]
  unfold numberInteger
  rw [hbody, cons_append]
  simp only
  rcases hi with hi | ⟨⟨_, hd⟩, h48⟩
  · injection hi with hb0 ht
    rw [if_pos hb0, ht]
    rfl
  have hne : ¬ b = 48 := fun he => h48 (by rw [he]; rfl)
  have hok : ¬ (b.toNat < 49 ∨ b.toNat > 57) := by
    have : b.toNat ≠ 48 := fun he => hne (UInt8.toNat_inj.mp he)
    omega
  rw [if_neg hne, if_neg hok, ← cons_append, digits_append hd hrest, passed_true]

theorem numberFraction_sound (h : passed (numberFraction rest) = some after) :
    ∃ frac, (frac = [] ∨ ∃ d, Digits d ∧ frac = 46 :: d) ∧ rest = frac ++ after := by
  unfold numberFraction at h
  split_ifs at h with hdot
  · obtain ⟨tail, rfl⟩ := head?_eq_some_iff.mp hdot
    obtain ⟨d, hd, hrest⟩ := someDigits_sound h
    rw [tail_cons] at hrest
    exact ⟨46 :: d, .inr ⟨d, hd, rfl⟩, by rw [hrest, cons_append]⟩
  · injection h with h
    exact ⟨[], .inl rfl, h⟩

theorem numberFraction_complete {frac : List UInt8}
    (hf : frac = [] ∨ ∃ d, Digits d ∧ frac = 46 :: d) (hrest : NoDigit rest)
    (hdot : rest.head? ≠ some 46) : passed (numberFraction (frac ++ rest)) = some rest := by
  unfold numberFraction
  rcases hf with rfl | ⟨d, hd, rfl⟩
  · rw [nil_append, if_neg hdot, passed_true]
  · rw [cons_append, head?_cons, if_pos rfl, tail_cons]
    exact someDigits_complete hd hrest

theorem numberExponent_sound (h : passed (numberExponent rest) = some after) :
    ∃ exp, (exp = [] ∨ ∃ e s d, (e = 101 ∨ e = 69) ∧ (s = [] ∨ s = [43] ∨ s = [45]) ∧ Digits d ∧
      exp = e :: (s ++ d)) ∧ rest = exp ++ after := by
  unfold numberExponent at h
  split_ifs at h with he
  · obtain ⟨e, tail, rfl, hcase⟩ : ∃ e tail, rest = e :: tail ∧ (e = 101 ∨ e = 69) := by
      rcases he with he | he
      · obtain ⟨tail, rfl⟩ := head?_eq_some_iff.mp he
        exact ⟨101, tail, rfl, .inl rfl⟩
      · obtain ⟨tail, rfl⟩ := head?_eq_some_iff.mp he
        exact ⟨69, tail, rfl, .inr rfl⟩
    obtain ⟨d, hd, hrest⟩ := someDigits_sound h
    rw [tail_cons] at hrest
    split_ifs at hrest with hs
    · obtain ⟨s, behind, rfl, hsign⟩ : ∃ s behind, tail = s :: behind ∧ (s = 43 ∨ s = 45) := by
        rcases hs with hs | hs
        · obtain ⟨behind, rfl⟩ := head?_eq_some_iff.mp hs
          exact ⟨43, behind, rfl, .inl rfl⟩
        · obtain ⟨behind, rfl⟩ := head?_eq_some_iff.mp hs
          exact ⟨45, behind, rfl, .inr rfl⟩
      rw [tail_cons] at hrest
      refine ⟨e :: ([s] ++ d), .inr ⟨e, [s], d, hcase, ?_, hd, rfl⟩, ?_⟩
      · rcases hsign with rfl | rfl
        · exact .inr (.inl rfl)
        · exact .inr (.inr rfl)
      · rw [hrest]
        rfl
    · exact ⟨e :: ([] ++ d), .inr ⟨e, [], d, hcase, .inl rfl, hd, rfl⟩, by rw [hrest]; rfl⟩
  · injection h with h
    exact ⟨[], .inl rfl, h⟩

theorem numberExponent_complete {exp : List UInt8}
    (he : exp = [] ∨ ∃ e s d, (e = 101 ∨ e = 69) ∧ (s = [] ∨ s = [43] ∨ s = [45]) ∧ Digits d ∧
      exp = e :: (s ++ d)) (hrest : NoDigit rest) (h101 : rest.head? ≠ some 101)
    (h69 : rest.head? ≠ some 69) : passed (numberExponent (exp ++ rest)) = some rest := by
  unfold numberExponent
  rcases he with rfl | ⟨e, s, d, hcase, hs, hd, rfl⟩
  · rw [nil_append, if_neg (fun hcon => hcon.elim h101 h69), passed_true]
  have hhead : (e :: (s ++ d) ++ rest).head? = some 101 ∨
      (e :: (s ++ d) ++ rest).head? = some 69 := by
    rcases hcase with rfl | rfl
    · exact .inl rfl
    · exact .inr rfl
  rw [if_pos hhead, cons_append, tail_cons, append_assoc]
  rcases hs with rfl | rfl | rfl
  · obtain ⟨b, tail, hdt⟩ := exists_cons_of_ne_nil hd.1
    have hb := of_decide_eq_true (hd.2 b (by rw [hdt]; simp))
    have hno : ¬ (([] ++ (d ++ rest)).head? = some 43 ∨ ([] ++ (d ++ rest)).head? = some 45) := by
      rw [hdt, nil_append, cons_append, head?_cons]
      rintro (hcon | hcon)
      · injection hcon with hcon
        rw [hcon] at hb
        exact absurd hb (by decide)
      injection hcon with hcon
      rw [hcon] at hb
      exact absurd hb (by decide)
    simp only
    rw [if_neg hno]
    exact someDigits_complete hd hrest
  · exact someDigits_complete hd hrest
  · exact someDigits_complete hd hrest

theorem number_sound (h : passed (number rest) = some after) :
    ∃ raw, IsNumber raw ∧ rest = raw ++ after := by
  unfold number at h
  split at h
  · cases h
  rename_i mid h1
  split at h
  · cases h
  rename_i behind h2
  obtain ⟨sign, int, hs, hi, hrest⟩ := numberInteger_sound (congrArg passed h1)
  obtain ⟨frac, hf, hmid⟩ := numberFraction_sound (congrArg passed h2)
  obtain ⟨exp, he, hbehind⟩ := numberExponent_sound h
  refine ⟨sign ++ (int ++ (frac ++ exp)), ⟨sign, int, frac, exp, rfl, hs, hi, hf, he⟩, ?_⟩
  rw [hrest, hmid, hbehind]
  simp only [append_assoc]

theorem passed_eq_some {α : Type} {result : Bool × α} {a : α} (h : passed result = some a) :
    result = (true, a) := by
  obtain ⟨ok, b⟩ := result
  cases ok with
  | false => cases h
  | true =>
    injection h with h
    exact congrArg (Prod.mk true) h

theorem number_complete {raw : List UInt8} (h : IsNumber raw) (hf : Follow rest) :
    passed (number (raw ++ rest)) = some rest := by
  obtain ⟨sign, int, frac, exp, rfl, hs, hi, hfrac, hexp⟩ := h
  obtain ⟨hno, h46, h101, h69⟩ := hf.head
  have hexp' : NoDigit (exp ++ rest) ∧ (exp ++ rest).head? ≠ some 46 := by
    rcases hexp with rfl | ⟨e, s, d, he, _, _, rfl⟩
    · exact ⟨hno, h46⟩
    rcases he with rfl | rfl
    · exact ⟨noDigit_cons (by decide) _, by simp⟩
    · exact ⟨noDigit_cons (by decide) _, by simp⟩
  have hfrac' : NoDigit (frac ++ (exp ++ rest)) := by
    rcases hfrac with rfl | ⟨d, _, rfl⟩
    · exact hexp'.1
    · exact noDigit_cons (by decide) _
  have h1 := passed_eq_some (numberInteger_complete hs hi hfrac')
  have h2 := passed_eq_some (numberFraction_complete hfrac hexp'.1 hexp'.2)
  simp only [append_assoc]
  unfold number
  rw [h1]
  simp only
  rw [h2]
  exact numberExponent_complete hexp hno h101 h69

theorem number_head {raw : List UInt8} (h : IsNumber raw) :
    ∃ b tail, raw = b :: tail ∧ (b = 45 ∨ digit b = true) := by
  obtain ⟨sign, int, -, -, rfl, hs, hi, _, _⟩ := h
  rcases hs with rfl | rfl
  · rcases hi with rfl | ⟨⟨hne, hd⟩, _⟩
    · exact ⟨48, _, rfl, .inr (by decide)⟩
    · obtain ⟨b, tail, rfl⟩ := exists_cons_of_ne_nil hne
      exact ⟨b, _, rfl, .inr (hd b (by simp))⟩
  · exact ⟨45, _, rfl, .inl rfl⟩

/-- A piece of a string: a character, a short escape, or a `\u` escape with its digits. -/
inductive Piece where
  | char (c : Char)
  | short (escaped : UInt8)
  | code (digits : List UInt8)

namespace Piece

def raw : Piece → List UInt8
  | .char c => encoding c
  | .short escaped => [92, escaped]
  | .code digits => 92 :: 117 :: digits

/-- Characters that need an escape stand for nothing else, and escapes are complete. -/
def Ok : Piece → Prop
  | .char c => 32 ≤ c.val.toNat ∧ c.val.toNat ≠ 34 ∧ c.val.toNat ≠ 92
  | .short escaped => shortEscape escaped = true
  | .code digits => digits.length = 4 ∧ ∀ b ∈ digits, hex b = true

end Piece

def rawText (pieces : List Piece) : List UInt8 := pieces.flatMap Piece.raw

/-- The number that hexadecimal digits stand for. -/
def codeOf (digits : List UInt8) : Nat := digits.foldl (fun code b => code * 16 + hexValue b) 0

def shortValue (escaped : UInt8) : UInt8 :=
  if escaped = 98 then 8 else if escaped = 102 then 12 else if escaped = 110 then 10
  else if escaped = 114 then 13 else if escaped = 116 then 9 else escaped

def pairCode (high low : Nat) : Nat := 65536 + (high - 55296) * 1024 + low - 56320

/-- What pieces stand for, if their `\u` escapes form scalar values: a high surrogate is
followed by a low one, and no other escape is a surrogate. -/
def meaning : List Piece → Option (List UInt8)
  | [] => some []
  | .char c :: rest => (meaning rest).map (encoding c ++ ·)
  | .short escaped :: rest => (meaning rest).map (shortValue escaped :: ·)
  | .code digits :: rest =>
      if 55296 ≤ codeOf digits ∧ codeOf digits ≤ 56319 then
        match rest with
        | .code low :: rest =>
            if codeOf low < 56320 ∨ codeOf low > 57343 then none
            else (meaning rest).map (codeBytes (pairCode (codeOf digits) (codeOf low)) ++ ·)
        | _ => none
      else if 56320 ≤ codeOf digits ∧ codeOf digits ≤ 57343 then none
      else (meaning rest).map (codeBytes (codeOf digits) ++ ·)

/-- The `\u` escapes form scalar values. -/
def ScalarEscapes (pieces : List Piece) : Prop := (meaning pieces).isSome

def IsString (text : List UInt8) : Prop :=
  ∃ pieces, (∀ p ∈ pieces, Piece.Ok p) ∧ text = 34 :: (rawText pieces ++ [34])

/-- A string token whose `\u` escapes form scalar values. -/
def IsScalarString (text : List UInt8) : Prop :=
  ∃ pieces, (∀ p ∈ pieces, Piece.Ok p) ∧ ScalarEscapes pieces ∧
    text = 34 :: (rawText pieces ++ [34])

variable {text : List UInt8}

theorem IsScalarString.isString (h : IsScalarString text) : IsString text := by
  obtain ⟨pieces, hok, _, htext⟩ := h
  exact ⟨pieces, hok, htext⟩

theorem rawText_cons (p : Piece) (pieces : List Piece) :
    rawText (p :: pieces) = p.raw ++ rawText pieces := rfl

theorem hexRun_sound : ∀ {n : Nat} {rest after : List UInt8},
    passed (hexRun n rest) = some after →
    ∃ d, d.length = n ∧ (∀ b ∈ d, hex b = true) ∧ rest = d ++ after
  | 0, rest, after, h => by
    injection h with h
    exact ⟨[], rfl, (fun _ hb => absurd hb (by simp)), h⟩
  | n + 1, [], after, h => by cases h
  | n + 1, b :: rest, after, h => by
    unfold hexRun at h
    split_ifs at h with hb
    · obtain ⟨d, hlen, hd, hrest⟩ := hexRun_sound h
      refine ⟨b :: d, by rw [length_cons, hlen], ?_, by rw [hrest, cons_append]⟩
      intro c hc
      rcases mem_cons.mp hc with rfl | hc
      · exact hb
      · exact hd c hc
    · cases h

theorem hexRun_complete : ∀ {d : List UInt8} (rest : List UInt8), (∀ b ∈ d, hex b = true) →
    hexRun d.length (d ++ rest) = (true, rest)
  | [], _, _ => rfl
  | b :: d, rest, h => by
    rw [length_cons, cons_append, hexRun, if_pos (h b (by simp))]
    exact hexRun_complete rest (fun c hc => h c (by simp [hc]))

theorem ascii_encoding (h : b.toNat < 128) :
    ∃ c : Char, encoding c = [b] ∧ c.val.toNat = b.toNat := by
  have hv : Scalar b.toNat := by
    unfold Scalar
    omega
  exact ⟨charOf _ hv, encoding_of_bytes hv (.inl ⟨b, rfl, h, rfl⟩), charOf_val hv⟩

/-- A byte that is no quote, backslash or control byte is a piece if it is ASCII. -/
theorem ascii_piece (h34 : b ≠ 34) (h32 : ¬ b.toNat < 32) (h128 : ¬ b.toNat ≥ 128) (h92 : b ≠ 92) :
    ∃ c : Char, encoding c = [b] ∧ Piece.Ok (.char c) := by
  obtain ⟨c, he, hc⟩ := ascii_encoding (show b.toNat < 128 by omega)
  have h34' : b.toNat ≠ 34 := fun hcon => h34 (UInt8.toNat_inj.mp hcon)
  have h92' : b.toNat ≠ 92 := fun hcon => h92 (UInt8.toNat_inj.mp hcon)
  exact ⟨c, he, by change 32 ≤ _ ∧ _; rw [hc]; omega⟩

theorem high_piece {c : Char} (h : b :: text = encoding c ++ rest) (hb : b.toNat ≥ 128) :
    Piece.Ok (.char c) := by
  change 32 ≤ _ ∧ _
  rcases encoding_cases c with ⟨hlt, he⟩ | ⟨hl, _, _⟩ | ⟨hl, _, _⟩ | ⟨hl, _⟩
  · rw [he] at h
    cases h
    have := toNat_ofNat_lt (show c.val.toNat < 256 by omega)
    omega
  all_goals omega

theorem mem_cons_ok {p : Piece} {pieces : List Piece} (hp : p.Ok) (h : ∀ q ∈ pieces, Piece.Ok q) :
    ∀ q ∈ p :: pieces, Piece.Ok q := by
  intro q hq
  rcases mem_cons.mp hq with rfl | hq
  · exact hp
  · exact h q hq

theorem stringLoop_sound : ∀ {fuel : Nat} {rest after : List UInt8},
    passed (stringLoop fuel rest) = some after →
    ∃ pieces, (∀ p ∈ pieces, Piece.Ok p) ∧ rest = rawText pieces ++ 34 :: after
  | 0, _, _, h => by cases h
  | fuel + 1, [], _, h => by cases h
  | fuel + 1, b :: rest, after, h => by
    have hstep : ∀ {p : Piece} {mid : List UInt8}, p.Ok → b :: rest = p.raw ++ mid →
        passed (stringLoop fuel mid) = some after →
        ∃ pieces, (∀ q ∈ pieces, Piece.Ok q) ∧ b :: rest = rawText pieces ++ 34 :: after := by
      intro p mid hp hsplit hmid
      obtain ⟨pieces, hok, hrest⟩ := stringLoop_sound hmid
      exact ⟨p :: pieces, mem_cons_ok hp hok, by
        rw [rawText_cons, append_assoc, ← hrest, hsplit]⟩
    unfold stringLoop at h
    split at h
    · rename_i h34
      cases h
      exact ⟨[], (fun _ hb => absurd hb (by simp)), by rw [h34]; rfl⟩
    rename_i h34
    split at h
    · cases h
    rename_i h32
    split at h
    · rename_i h128
      rcases decode_spec (b :: rest) with ⟨c, tail, hsplit, hdec⟩ | ⟨hbad, _⟩
      · rw [hdec] at h
        simp only [Bool.not_true, Bool.false_eq_true, if_false] at h
        have hpos := encoding_pos c
        have hdrop : rest.drop ((encoding c).length - 1) = tail := by
          have : (b :: rest).drop ((encoding c).length - 1 + 1) = tail := by
            rw [Nat.sub_add_cancel hpos, hsplit, drop_left]
          exact this
        rw [hdrop] at h
        exact hstep (high_piece hsplit h128) hsplit h
      · simp only [hbad, Bool.not_false, if_true] at h
        cases h
    rename_i h128
    split_ifs at h with h92
    · cases rest with
      | nil => cases h
      | cons e rest =>
        simp only at h
        split at h
        · rename_i h117
          split at h
          · cases h
          rename_i mid hx
          obtain ⟨d, hlen, hd, hrest⟩ := hexRun_sound (congrArg passed hx)
          refine hstep (p := .code d) ⟨hlen, hd⟩ ?_ h
          rw [h92, h117, hrest]
          rfl
        split_ifs at h with hs
        · refine hstep (p := .short e) hs ?_ h
          rw [h92]
          rfl
        · cases h
    · obtain ⟨c, he, hc⟩ := ascii_piece h34 h32 h128 h92
      refine hstep hc ?_ h
      change _ = encoding c ++ _
      rw [he]
      rfl

theorem stringLoop_complete : ∀ (pieces : List Piece) (fuel : Nat) (after : List UInt8),
    (∀ p ∈ pieces, Piece.Ok p) → pieces.length < fuel →
    stringLoop fuel (rawText pieces ++ 34 :: after) = (true, after)
  | [], fuel, after, _, hfuel => by
    obtain ⟨k, rfl⟩ : ∃ k, fuel = k + 1 := ⟨fuel - 1, by omega⟩
    rfl
  | p :: pieces, fuel, after, h, hfuel => by
    obtain ⟨k, rfl⟩ : ∃ k, fuel = k + 1 := ⟨fuel - 1, by omega⟩
    rw [length_cons] at hfuel
    have ih := stringLoop_complete pieces k after (fun q hq => h q (by simp [hq])) (by omega)
    have hp := h p (by simp)
    rw [rawText_cons, append_assoc]
    cases p with
    | char c =>
      obtain ⟨h32, h34, h92⟩ := hp
      change stringLoop (k + 1) (encoding c ++ _) = _
      obtain ⟨b, tail, hb⟩ := exists_cons_of_ne_nil (ne_nil_of_length_pos (encoding_pos c))
      have hdec := decode_encoding c (rawText pieces ++ 34 :: after)
      rcases encoding_cases c with ⟨hlt, he⟩ | hhigh
      · have hval := toNat_ofNat_lt (show c.val.toNat < 256 by omega)
        rw [he, cons_append, nil_append]
        unfold stringLoop
        rw [hval, if_neg, if_neg (by omega), if_neg (by omega), if_neg, ih]
        · intro hcon
          rw [hcon] at hval
          exact h92 hval.symm
        intro hcon
        rw [hcon] at hval
        exact h34 hval.symm
      have hbyte : b.toNat ≥ 128 := by
        have hs := scalar_char c
        unfold Scalar at hs
        rcases hhigh with ⟨hl, hu, he⟩ | ⟨hl, hu, he⟩ | ⟨hl, he⟩
        · have := toNat_ofNat_lt (show c.val.toNat / 64 + 192 < 256 by omega)
          rw [hb] at he
          injection he with he _
          rw [he]
          omega
        · have := toNat_ofNat_lt (show c.val.toNat / 4096 + 224 < 256 by omega)
          rw [hb] at he
          injection he with he _
          rw [he]
          omega
        have := toNat_ofNat_lt (show c.val.toNat / 262144 + 240 < 256 by omega)
        rw [hb] at he
        injection he with he _
        rw [he]
        omega
      rw [hb, cons_append] at hdec ⊢
      unfold stringLoop
      rw [if_neg, if_neg (by omega), if_pos hbyte, hdec]
      · simp only [Bool.not_true, Bool.false_eq_true, if_false, length_cons,
          Nat.add_one_sub_one, drop_left]
        exact ih
      intro hcon
      rw [hcon] at hbyte
      exact absurd hbyte (by decide)
    | short e =>
      have hs : shortEscape e = true := hp
      have h117 : ¬ e = 117 := by
        intro hcon
        rw [hcon] at hs
        exact absurd hs (by decide)
      change stringLoop (k + 1) (92 :: e :: _) = _
      unfold stringLoop
      rw [if_neg (by decide), if_neg (by decide), if_neg (by decide), if_pos rfl]
      dsimp only
      rw [if_neg h117, if_pos hs]
      exact ih
    | code d =>
      obtain ⟨hlen, hd⟩ := hp
      change stringLoop (k + 1) (92 :: 117 :: (d ++ _)) = _
      have hx := hexRun_complete (rawText pieces ++ 34 :: after) hd
      rw [hlen] at hx
      unfold stringLoop
      rw [if_neg (by decide), if_neg (by decide), if_neg (by decide), if_pos rfl]
      dsimp only
      rw [if_pos rfl, hx]
      exact ih

theorem raw_pos (p : Piece) : 0 < p.raw.length := by
  cases p with
  | char c => exact encoding_pos c
  | short e | code d => exact Nat.succ_pos _

theorem length_le_rawText : ∀ pieces : List Piece, pieces.length ≤ (rawText pieces).length
  | [] => le_refl 0
  | p :: pieces => by
    have := raw_pos p
    have := length_le_rawText pieces
    rw [rawText_cons, length_append, length_cons]
    omega

theorem string_iff :
    passed (string rest) = some after ↔ ∃ raw, IsString raw ∧ rest = raw ++ after := by
  constructor
  · intro h
    unfold string at h
    split at h
    · obtain ⟨pieces, hok, hrest⟩ := stringLoop_sound h
      refine ⟨_, ⟨pieces, hok, rfl⟩, ?_⟩
      rw [hrest, cons_append, append_assoc]
      rfl
    · cases h
  rintro ⟨raw, ⟨pieces, hok, rfl⟩, rfl⟩
  have hlen := length_le_rawText pieces
  rw [cons_append, append_assoc, string]
  have := stringLoop_complete pieces ((rawText pieces ++ ([34] ++ after)).length + 1) after hok
    (by rw [length_append]; omega)
  rw [show [34] ++ after = 34 :: after from rfl] at this ⊢
  rw [this, passed_true]

/-- What the search for the end runs over: no control bytes, and quotes only behind a
backslash. -/
inductive Spans : List UInt8 → Prop
  | nil : Spans []
  | byte {b : UInt8} {rest : List UInt8} :
      b ≠ 34 → b ≠ 92 → ¬ b.toNat < 32 → Spans rest → Spans (b :: rest)
  | escape {e : UInt8} {rest : List UInt8} :
      ¬ e.toNat < 32 → Spans rest → Spans (92 :: e :: rest)

def allAscii (text : List UInt8) : Bool := text.all (fun b => !decide (b.toNat ≥ 128))

/-- The extent of a text behind one that was searched. -/
def Extent.add (found : Extent) (text : List UInt8) : Extent :=
  ⟨found.length + text.length, found.hasEscape || text.contains 92, found.ascii && allAscii text⟩

theorem Extent.add_byte (found : Extent) (h92 : b ≠ 92) (rest : List UInt8) :
    Extent.add ⟨found.length + 1, found.hasEscape, found.ascii && !decide (b.toNat ≥ 128)⟩ rest =
      found.add (b :: rest) := by
  have hb : (92 == b) = false := beq_eq_false_iff_ne.mpr (Ne.symm h92)
  simp only [Extent.add, allAscii, all_cons, length_cons, contains_cons, hb,
    Bool.false_or, Bool.and_assoc, add_assoc, add_comm 1]

theorem Extent.add_escape (found : Extent) (e : UInt8) (rest : List UInt8) :
    Extent.add ⟨found.length + 2, true, found.ascii && !decide (e.toNat ≥ 128)⟩ rest =
      found.add (92 :: e :: rest) := by
  have h92 : (!decide ((92 : UInt8).toNat ≥ 128)) = true := by decide
  simp only [Extent.add, allAscii, all_cons, length_cons, contains_cons,
    beq_self_eq_true, Bool.true_or, Bool.or_true, h92, Bool.true_and, Bool.and_assoc]
  congr 1
  omega

theorem findEnd_sound : ∀ {rest : List UInt8} {found result : Extent},
    findEnd found rest = some result →
    ∃ body after, Spans body ∧ rest = body ++ 34 :: after ∧ result = found.add body
  | [], found, result, h => by cases h
  | b :: rest, found, result, h => by
    unfold findEnd at h
    split at h
    · rename_i h34
      injection h with h
      refine ⟨[], rest, Spans.nil, by rw [h34]; rfl, ?_⟩
      simp [Extent.add, allAscii, h]
    rename_i h34
    split at h
    · rename_i h92
      cases rest with
      | nil => cases h
      | cons e rest =>
        simp only at h
        split_ifs at h with h32
        obtain ⟨body, after, hs, hrest, hr⟩ := findEnd_sound h
        refine ⟨92 :: e :: body, after, Spans.escape h32 hs, ?_, ?_⟩
        · rw [h92, hrest]
          rfl
        · rw [hr, Extent.add_escape]
    rename_i h92
    split_ifs at h with h32
    obtain ⟨body, after, hs, hrest, hr⟩ := findEnd_sound h
    refine ⟨b :: body, after, Spans.byte h34 h92 h32 hs, ?_, ?_⟩
    · rw [hrest]
      rfl
    · rw [hr, Extent.add_byte found h92]

theorem findEnd_complete {body : List UInt8} (h : Spans body) :
    ∀ (found : Extent) (after : List UInt8),
      findEnd found (body ++ 34 :: after) = some (found.add body) := by
  induction h with
  | nil =>
    intro found after
    rw [nil_append]
    unfold findEnd
    rw [if_pos rfl]
    simp [Extent.add, allAscii]
  | @byte b rest h34 h92 h32 _ ih =>
    intro found after
    rw [cons_append]
    unfold findEnd
    rw [if_neg h34, if_neg h92, if_neg h32, ih, Extent.add_byte found h92]
  | @escape e rest h32 _ ih =>
    intro found after
    rw [cons_append, cons_append]
    unfold findEnd
    rw [if_neg (by decide), if_pos rfl]
    dsimp only
    rw [if_neg h32, ih, Extent.add_escape]

theorem findEnd_skip : ∀ (rest : List UInt8) (found : Extent),
    findEnd { found with length := found.length + asciiStringPrefix rest }
        (rest.drop (asciiStringPrefix rest)) = findEnd found rest
  | [], found => rfl
  | b :: rest, found => by
    unfold asciiStringPrefix
    split_ifs with hb
    · rw [drop_succ_cons]
      have hplain : ¬ b.toNat < 32 ∧ ¬ b.toNat ≥ 128 ∧ b ≠ 34 ∧ b ≠ 92 := by
        simpa [plain, and_assoc] using hb
      obtain ⟨h32, h128, h34, h92⟩ := hplain
      have ih := findEnd_skip rest ⟨found.length + 1, found.hasEscape, found.ascii⟩
      have hstep : findEnd found (b :: rest) =
          findEnd ⟨found.length + 1, found.hasEscape, found.ascii⟩ rest := by
        rw [findEnd.eq_def]
        dsimp only
        rw [if_neg h34, if_neg h92, if_neg h32, decide_eq_false h128, Bool.not_false, Bool.and_true]
      rw [hstep, ← ih, add_comm (asciiStringPrefix rest) 1, ← add_assoc]
    · rw [drop_zero, add_zero]

end Dyn.Json
