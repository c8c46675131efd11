import Dyn.Strings.Rounding

/-!
# Decimal text is correctly rounded

`parse_correctly_rounded`: within the accepted length, exactly the texts of the decimal syntax
are accepted, with the sign and the nearest magnitude of the number that they spell; every
other text leaves the output as it was, and no text makes an integer leave its 128 limbs.
-/

namespace Dyn.Strings

open List
open Mem (Panic)
open Binary64

/-- The length of the longest text that is read. -/
def longest : Nat := 9223372036854765807

def NoSign (text : List UInt8) : Prop :=
  ∀ byte rest, text = byte :: rest → byte ≠ 45 ∧ byte ≠ 43

theorem noSign_cons {byte : UInt8} (rest : List UInt8) (h : byte ≠ 45 ∧ byte ≠ 43) :
    NoSign (byte :: rest) := by
  intro b r heq
  cases heq
  exact h

theorem scanSign_spell {sign : Option Bool} {body : List UInt8} (h : sign = none → NoSign body) :
    scanSign (spellSign sign ++ body) = (decide (sign = some true), body) := by
  match sign, h with
  | some true, _ => rfl
  | some false, _ => rfl
  | none, h =>
    cases body with
    | nil => rfl
    | cons byte body =>
      obtain ⟨hminus, hplus⟩ := h rfl byte body rfl
      change scanSign (byte :: body) = _
      rw [scanSign, if_neg hminus, if_neg hplus]
      rfl

/-- Every text is a sign, which may be missing, and what follows it. -/
theorem exists_sign (text : List UInt8) : ∃ sign body,
    text = spellSign sign ++ body ∧ (sign = none → NoSign body) := by
  cases text with
  | nil => exact ⟨none, [], rfl, nofun⟩
  | cons byte text =>
    by_cases hminus : byte = 45
    · exact ⟨some true, text, by rw [hminus]; rfl, nofun⟩
    by_cases hplus : byte = 43
    · exact ⟨some false, text, by rw [hplus]; rfl, nofun⟩
    exact ⟨none, byte :: text, rfl, fun _ => noSign_cons text ⟨hminus, hplus⟩⟩

theorem digits_noSign {digits : Digits} (h : digits.whole ++ digits.fraction ≠ [])
    (rest : List UInt8) : NoSign (digits.spell ++ rest) := by
  unfold Digits.spell
  cases hwhole : digits.whole with
  | cons digit whole =>
    have hbyte := digitByte_ne digit
    exact noSign_cons _ ⟨hbyte.2.1, hbyte.2.2.1⟩
  | nil =>
    cases hpoint : digits.point with
    | true => exact noSign_cons _ (by decide)
    | false =>
      rw [hwhole, digits.fraction_point hpoint] at h
      exact absurd rfl h

theorem scanExponent_spell {length : Nat} (hlength : length ≤ longest) (upper : Bool)
    {sign : Option Bool} {digits : List (Fin 10)} {rest : List UInt8}
    (hsign : sign = none → NoSign (spellDigits digits ++ rest)) (hrest : NoDigit rest) :
    scanExponent length ((if upper then 69 else 101) ::
        (spellSign sign ++ (spellDigits digits ++ rest))) =
      .ok (if digits = [] then none else some {
        negative := decide (sign = some true)
        exponent := min (numberOf digits : Int) (length + 10000)
        rest := rest }) := by
  have hbyte : (if upper then (69 : UInt8) else 101) = 101 ∨
      (if upper then (69 : UInt8) else 101) = 69 := by
    cases upper
    · exact .inl rfl
    · exact .inr rfl
  unfold longest at hlength
  have hcap : (10 : Int) ≤ length + 10000 ∧ (length : Int) + 10000 < 2 ^ 63 := by omega
  have hloop := exponentLoop_spec hcap.1 hcap.2 hrest digits 0
  rw [Nat.cast_zero, min_eq_left (by omega)] at hloop
  have hempty : rest.length = (spellDigits digits ++ rest).length ↔ digits = [] := by
    rw [length_append, spellDigits, length_map, ← length_eq_zero_iff]
    omega
  rw [scanExponent, if_pos hbyte, scanSign_spell hsign, checkedI64_of_bounds (by omega)]
  simp only [bind, Except.bind, pure, Except.pure, hloop, hempty]
  rfl

section Conversion

variable {text : List UInt8} {sign : Option Bool} {digits : Digits} {rest : List UInt8}

theorem spell_ne_nil (h : digits.whole ++ digits.fraction ≠ []) : digits.spell ++ rest ≠ [] := by
  unfold Digits.spell
  cases hwhole : digits.whole with
  | cons digit whole => exact cons_ne_nil _ _
  | nil =>
    cases hpoint : digits.point with
    | true => exact cons_ne_nil _ _
    | false =>
      rw [hwhole, digits.fraction_point hpoint] at h
      exact absurd rfl h

theorem spell_length : (digits.whole ++ digits.fraction).length ≤ digits.spell.length := by
  simp only [Digits.spell, spellDigits, length_append, length_map]
  omega

theorem parse_split (htext : text = spellSign sign ++ (digits.spell ++ rest))
    (hsign : sign = none → NoSign (digits.spell ++ rest)) (hrest : Behind digits rest)
    (hlength : text.length ≤ longest) (hne : digits.whole ++ digits.fraction ≠ [])
    (output : UInt64) : ∃ s,
      Kept digits.number (digits.whole ++ digits.fraction).length digits.fraction.length s ∧
      parseF64Into text output = (do
        match ← scanExponent text.length rest with
        | none => return (false, output)
        | some exponent =>
          if exponent.rest ≠ [] then return (false, output)
          else do
            let bits ← magnitudeBits s exponent
            return (true, withSign (decide (sign = some true)) bits)) := by
  have hbody := @spell_ne_nil digits rest hne
  have hcount := @spell_length digits
  have hparts : digits.spell.length ≤ text.length := by
    rw [htext]
    simp only [length_append]
    omega
  unfold longest at hlength
  obtain ⟨s, hscan, hkept⟩ := scan_body digits hrest (by omega)
  have hdigits : s.digits ≠ 0 := by
    obtain ⟨n, k, r, h⟩ := hkept
    rw [h.digits]
    exact fun hc => hne (length_eq_zero_iff.mp hc)
  have hsome : ¬ (text.length = 0 ∨ text.length > 9223372036854765807) := by
    rintro (hzero | hlong)
    · rw [length_eq_zero_iff, htext, append_eq_nil_iff] at hzero
      exact hbody hzero.2
    · omega
  refine ⟨s, hkept, ?_⟩
  unfold parseF64Into
  rw [if_neg hsome, show scanSign text = _ from htext ▸ scanSign_spell hsign]
  dsimp only
  rw [if_neg hbody, hscan]
  dsimp only [bind, Except.bind]
  rewrite [if_neg hdigits]
  rfl

theorem parse_no_digits (htext : text = spellSign sign ++ (digits.spell ++ rest))
    (hsign : sign = none → NoSign (digits.spell ++ rest)) (hrest : Behind digits rest)
    (hempty : digits.whole ++ digits.fraction = []) (output : UInt64) :
    parseF64Into text output = .ok (false, output) := by
  unfold parseF64Into
  split_ifs with hlength
  · rfl
  rw [show scanSign text = _ from htext ▸ scanSign_spell hsign]
  dsimp only
  split_ifs with hbody
  · rfl
  obtain ⟨s, hscan, n, k, r, h⟩ := scan_body digits hrest (by rw [hempty]; decide)
  have hdigits : s.digits = 0 := by
    rw [h.digits, hempty]
    rfl
  rw [hscan]
  simp only [bind, Except.bind, pure, Except.pure, if_pos hdigits]

theorem parse_long (h : longest < text.length) (output : UInt64) :
    parseF64Into text output = .ok (false, output) :=
  if_pos (.inr h)

theorem parse_decimal (decimal : Decimal) (h : decimal.spell.length ≤ longest) (output : UInt64) :
    ∃ bits, parseF64Into decimal.spell output = .ok (true, withSign decimal.negative bits) ∧
      RoundsTo decimal.magnitude bits := by
  obtain ⟨sign, digits, scaling, hne⟩ := decimal
  have hcount := @spell_length digits
  have hlength : (digits.whole ++ digits.fraction).length ≤
      (Decimal.mk sign digits scaling hne).spell.length := by
    simp only [Decimal.spell, length_append]
    simp only [length_append] at hcount
    omega
  generalize htext : (Decimal.mk sign digits scaling hne).spell = text at *
  cases scaling with
  | none =>
    have hrest : Behind digits [] := ⟨noDigit_nil, nofun⟩
    obtain ⟨s, hkept, hparse⟩ := @parse_split text sign digits [] htext.symm
      (fun _ => digits_noSign hne _) hrest h hne output
    obtain ⟨bits, hbits, hrounds⟩ := @magnitudeBits_spec _ _ _ _ 0 _ { rest := [] } hkept hlength h
      (by rw [Nat.cast_zero, min_eq_left (by omega)])
    refine ⟨bits, ?_, hrounds⟩
    rw [hparse, scanExponent]
    simp only [bind, Except.bind, pure, Except.pure, ne_eq, not_true_eq_false, if_false, hbits]
    rfl
  | some scaling =>
    have hbyte : ∀ byte, (if scaling.upper then (69 : UInt8) else 101) = byte →
        asciiIsDigit byte = false ∧ byte ≠ 46 := by
      rintro byte rfl
      cases scaling.upper <;> exact ⟨by decide, by decide⟩
    have hrest : Behind digits scaling.spell := by
      obtain ⟨hdigit, hpoint⟩ := hbyte _ rfl
      refine ⟨noDigit_cons _ hdigit, fun _ tail heq => hpoint ?_⟩
      exact (cons.inj heq).1
    obtain ⟨s, hkept, hparse⟩ := @parse_split text sign digits scaling.spell htext.symm
      (fun _ => digits_noSign hne _) hrest h hne output
    have hexponent := @scanExponent_spell text.length h scaling.upper scaling.sign scaling.digits
      [] (fun _ => by
        rw [append_nil]
        cases hdigits : scaling.digits with
        | nil => exact absurd hdigits scaling.nonempty
        | cons digit rest =>
          have hbyte := digitByte_ne digit
          exact noSign_cons _ ⟨hbyte.2.1, hbyte.2.2.1⟩) noDigit_nil
    rw [append_nil, if_neg scaling.nonempty] at hexponent
    obtain ⟨bits, hbits, hrounds⟩ := @magnitudeBits_spec _ _ _ _ (numberOf scaling.digits) _
      { negative := decide (scaling.sign = some true)
        exponent := min (numberOf scaling.digits : Int) (text.length + 10000)
        rest := [] } hkept hlength h rfl
    refine ⟨bits, ?_, ?_⟩
    · rw [hparse, show scanExponent text.length scaling.spell = _ from hexponent]
      simp only [bind, Except.bind, pure, Except.pure, ne_eq, not_true_eq_false, if_false, hbits]
      rfl
    convert hrounds using 2
    simp only [decide_eq_true_eq]
    rfl

theorem parse_other (h : ∀ decimal : Decimal, text ≠ decimal.spell) (output : UInt64) :
    parseF64Into text output = .ok (false, output) := by
  rcases Nat.lt_or_ge longest text.length with hlong | hlength
  · exact parse_long hlong output
  obtain ⟨sign, body, htext, hsign⟩ := exists_sign text
  obtain ⟨digits, rest, rfl, hrest⟩ := exists_body body
  by_cases hempty : digits.whole ++ digits.fraction = []
  · exact parse_no_digits htext hsign hrest hempty output
  obtain ⟨s, -, hparse⟩ := parse_split htext hsign hrest hlength hempty output
  rw [hparse]
  cases rest with
  | nil => exact absurd htext (h ⟨sign, digits, none, hempty⟩)
  | cons byte rest =>
    by_cases hbyte : byte = 101 ∨ byte = 69
    · obtain ⟨sign', text', rfl, hsign'⟩ := exists_sign rest
      obtain ⟨digits', rest', rfl, hrest'⟩ := exists_digits text'
      obtain ⟨upper, rfl⟩ : ∃ upper : Bool, byte = if upper then 69 else 101 := by
        rcases hbyte with rfl | rfl
        · exact ⟨false, rfl⟩
        · exact ⟨true, rfl⟩
      rw [scanExponent_spell hlength upper hsign' hrest']
      split_ifs with hnone
      · rfl
      by_cases hend : rest' = []
      · subst hend
        refine absurd ?_ (h ⟨sign, digits, some ⟨upper, sign', digits', hnone⟩, hempty⟩)
        rw [htext, append_nil]
        rfl
      · simp only [bind, Except.bind, pure, Except.pure, ne_eq, hend, not_false_eq_true, if_true]
    · rw [scanExponent, if_neg hbyte]
      rfl

end Conversion

/-- **Decimal text is correctly rounded to binary64.** -/
theorem parse_correctly_rounded (text : List UInt8) (output : UInt64) :
    (∀ decimal : Decimal, text = decimal.spell → text.length ≤ longest → ∃ bits,
      parseF64Into text output = .ok (true, withSign decimal.negative bits) ∧
        RoundsTo decimal.magnitude bits) ∧
    ((longest < text.length ∨ ∀ decimal : Decimal, text ≠ decimal.spell) →
      parseF64Into text output = .ok (false, output)) := by
  refine ⟨fun decimal htext hlength => ?_, ?_⟩
  · subst htext
    exact parse_decimal decimal hlength output
  rintro (hlong | hother)
  · exact parse_long hlong output
  · exact parse_other hother output

theorem parse_correctly_rounded_half : ∃ bits,
    parseF64Into [45, 46, 53] 0 = .ok (true, withSign true bits) ∧ RoundsTo (5 * 10 ^ (-1 : Int)) bits :=
  (parse_correctly_rounded [45, 46, 53] 0).1
    ⟨some true, ⟨[], true, [5], nofun⟩, none, by decide⟩ (by decide) (by decide)

/-- A text of the syntax that is too long is not read. -/
theorem parse_longer_rejected :
    (∃ decimal : Decimal, decimal.spell = List.replicate (longest + 1) 48) ∧
      parseF64Into (List.replicate (longest + 1) 48) 0 = .ok (false, 0) := by
  constructor
  · refine ⟨⟨none, ⟨replicate (longest + 1) 0, false, [], fun _ => rfl⟩, none, ?_⟩, ?_⟩
    · rw [append_nil, replicate_succ]
      exact cons_ne_nil _ _
    simp only [Decimal.spell, Digits.spell, spellSign, spellDigits, nil_append,
      append_nil, Bool.false_eq_true, if_false, map_nil, map_replicate,
      Option.map_none, Option.getD_none]
    rfl
  · exact parse_long (by rw [length_replicate]; exact Nat.lt_succ_self longest) 0

end Dyn.Strings
