import Dyn.Semver.Grammar

/-!
# std/semver: the precedence of versions

Precedence is a linear order on what the parts of a version say: the numbers, then a release above every
prerelease, then the identifiers from left to right, numbers by value and below all others.  `compare`
gives the sign of that order.
-/

namespace Dyn.Semver

open List
open Lib.Positional (value)

section Signs

variable {α β : Type} [LinearOrder α] [LinearOrder β]

def sign (x y : α) : Int := if x < y then -1 else if y < x then 1 else 0

variable {x y : α}

theorem sign_of_lt (h : x < y) : sign x y = -1 := if_pos h

theorem sign_of_gt (h : y < x) : sign x y = 1 := by rw [sign, if_neg (not_lt_of_gt h), if_pos h]

@[simp] theorem sign_self (x : α) : sign x x = 0 := by rw [sign, if_neg (lt_irrefl x), if_neg (lt_irrefl x)]

theorem sign_le_zero_iff : sign x y ≤ 0 ↔ x ≤ y := by
  rcases lt_trichotomy x y with h | rfl | h
  · simp [sign_of_lt h, h.le]
  · simp
  · simp [sign_of_gt h, h]

theorem sign_neg_iff : sign x y < 0 ↔ x < y := by
  rcases lt_trichotomy x y with h | rfl | h
  · simp [sign_of_lt h, h]
  · simp
  · simp [sign_of_gt h, h.le]

theorem sign_eq_zero_iff : sign x y = 0 ↔ x = y := by
  rcases lt_trichotomy x y with h | rfl | h
  · simp [sign_of_lt h, h.ne]
  · simp
  · simp [sign_of_gt h, h.ne']

theorem sign_swap (x y : α) : sign y x = -sign x y := by
  rcases lt_trichotomy x y with h | rfl | h
  · rw [sign_of_lt h, sign_of_gt h, neg_neg]
  · rw [sign_self, neg_zero]
  · rw [sign_of_lt h, sign_of_gt h]

theorem sign_congr {u v : β} (hlt : x < y ↔ u < v) (hgt : y < x ↔ v < u) : sign x y = sign u v := by
  simp only [sign, hlt, hgt]

theorem sign_prod (x y : α) (u v : β) :
    sign (toLex (x, u)) (toLex (y, v)) = if x < y then -1 else if y < x then 1 else sign u v := by
  rcases lt_trichotomy x y with h | rfl | h
  · rw [sign_of_lt (Prod.Lex.toLex_lt_toLex.2 (.inl h)), if_pos h]
  · rw [if_neg (lt_irrefl x), if_neg (lt_irrefl x)]
    exact sign_congr (by simp [Prod.Lex.toLex_lt_toLex]) (by simp [Prod.Lex.toLex_lt_toLex])
  · rw [sign_of_gt (Prod.Lex.toLex_lt_toLex.2 (.inl h)), if_neg (not_lt_of_gt h), if_pos h]

theorem sign_cons (x y : α) (xs ys : List α) :
    sign (x :: xs) (y :: ys) = if sign x y ≠ 0 then sign x y else sign xs ys := by
  have hcons : ∀ {a b : α} {as bs : List α}, a :: as < b :: bs ↔ a < b ∨ a = b ∧ as < bs := cons_lt_cons_iff
  rcases lt_trichotomy x y with h | rfl | h
  · rw [sign_of_lt h, sign_of_lt (hcons.2 (.inl h)), if_pos (by decide)]
  · rw [sign_self, if_neg (not_not.2 rfl)]
    exact sign_congr (by simp [hcons]) (by simp [hcons])
  · rw [sign_of_gt h, sign_of_gt (hcons.2 (.inl h)), if_pos (by decide)]

theorem sign_nil_cons (x : α) (xs : List α) : sign [] (x :: xs) = -1 := sign_of_lt (nil_lt_cons x xs)

theorem sign_cons_nil (x : α) (xs : List α) : sign (x :: xs) [] = 1 := sign_of_gt (nil_lt_cons x xs)

end Signs

/-- What an identifier says: a number, or its bytes. -/
def identifierKey (identifier : List UInt8) : ℕ ⊕ₗ List ℕ :=
  if identifier.all digitByte then toLex (.inl (number identifier)) else toLex (.inr (identifier.map UInt8.toNat))

/-- What a prerelease says; a release is above all of them. -/
def prereleaseKey : Option (List (List UInt8)) → WithTop (List (ℕ ⊕ₗ List ℕ))
  | none => ⊤
  | some identifiers => ((identifiers.map identifierKey : List (ℕ ⊕ₗ List ℕ)) : WithTop (List (ℕ ⊕ₗ List ℕ)))

abbrev Precedence : Type := ℕ ×ₗ ℕ ×ₗ ℕ ×ₗ WithTop (List (ℕ ⊕ₗ List ℕ))

def Parts.precedence (p : Parts) : Precedence :=
  toLex (number p.major, toLex (number p.minor, toLex (number p.patch, prereleaseKey p.prerelease)))

theorem bytesCompare_cons (a b : UInt8) (as bs : List UInt8) :
    bytesCompare (a :: as) (b :: bs) = if a.toNat < b.toNat then -1 else if b.toNat < a.toNat then 1 else bytesCompare as bs := by
  rw [bytesCompare, zip_cons_cons, bytesLoop, bytesCompare]
  simp only [UInt8.lt_iff_toNat_lt, gt_iff_lt, length_cons, Nat.succ_lt_succ_iff]
  split_ifs <;> simp_all

/-- Bytes are compared from the left, and a text is above what it begins with. -/
theorem bytesCompare_eq (a b : List UInt8) :
    bytesCompare a b = sign (a.map UInt8.toNat) (b.map UInt8.toNat) := by
  induction a generalizing b with
  | nil =>
    cases b with
    | nil =>
      rw [sign_self]
      rfl
    | cons byte b =>
      rw [map_nil, map_cons, sign_nil_cons]
      simp [bytesCompare, bytesLoop]
  | cons byte a ih =>
    cases b with
    | nil =>
      rw [map_nil, map_cons, sign_cons_nil]
      simp [bytesCompare, bytesLoop]
    | cons byte' b =>
      rw [bytesCompare_cons, map_cons, map_cons, sign_cons, sign, ih]
      split_ifs <;> simp_all

theorem number_cons (byte : UInt8) (text : List UInt8) :
    number (byte :: text) = (byte - 48).toNat * 10 ^ text.length + number text := by
  rw [number, map_cons, Lib.Positional.value_cons, length_map]
  rfl

variable {text a b : List UInt8}

theorem number_lt (h : AllDigits text) : number text < 10 ^ text.length := by
  have hlt := @Lib.Positional.value_lt 10 (text.map fun byte => (byte - 48).toNat) fun d hd => by
    obtain ⟨byte, hbyte, rfl⟩ := mem_map.1 hd
    exact digitByte_bound (h byte hbyte)
  rw [length_map] at hlt
  exact hlt

theorem digit_toNat {byte : UInt8} (h : digitByte byte = true) : byte.toNat = (byte - 48).toNat + 48 := by
  have hall : ∀ n < 256, digitByte (UInt8.ofNat n) = true →
      (UInt8.ofNat n).toNat = (UInt8.ofNat n - 48).toNat + 48 := by decide +kernel
  have hbyte := hall byte.toNat byte.toNat_lt
  rw [UInt8.ofNat_toNat] at hbyte
  exact hbyte h

theorem bytesCompare_number (ha : AllDigits a) (hb : AllDigits b) (hlength : a.length = b.length) :
    bytesCompare a b = sign (number a) (number b) := by
  induction a generalizing b with
  | nil =>
    rw [length_eq_zero_iff.1 hlength.symm, sign_self]
    rfl
  | cons byte a ih =>
    cases b with
    | nil => cases hlength
    | cons byte' b =>
      have hbyte := digit_toNat (ha byte mem_cons_self)
      have hbyte' := digit_toNat (hb byte' mem_cons_self)
      have hrest : AllDigits a := fun other h => ha other (mem_cons_of_mem _ h)
      have hrest' : AllDigits b := fun other h => hb other (mem_cons_of_mem _ h)
      have hlt := number_lt hrest
      have hlt' := number_lt hrest'
      have hlength : a.length = b.length := Nat.succ.inj hlength
      rw [bytesCompare_cons, ih hrest hrest' hlength, number_cons, number_cons]
      rw [← hlength] at hlt' ⊢
      rcases lt_trichotomy (byte - 48).toNat (byte' - 48).toNat with hd | hd | hd
      · have hmul := Nat.mul_le_mul_right (10 ^ a.length) hd
        rw [Nat.succ_mul] at hmul
        rw [if_pos (by omega), sign_of_lt (by omega)]
      · rw [if_neg (by omega), if_neg (by omega), hd]
        exact sign_congr (Nat.add_lt_add_iff_left).symm (Nat.add_lt_add_iff_left).symm
      have hmul := Nat.mul_le_mul_right (10 ^ a.length) hd
      rw [Nat.succ_mul] at hmul
      rw [if_neg (by omega), if_pos (by omega), sign_of_gt (by omega)]

theorem le_number (h : AllDigits text) (hlong : 1 < text.length) (hzero : text.head? ≠ some 48) :
    10 ^ (text.length - 1) ≤ number text := by
  cases text with
  | nil => exact absurd hlong (by decide)
  | cons byte text =>
    have hdigit := digit_toNat (h byte mem_cons_self)
    have hne : byte.toNat ≠ 48 := fun h48 => hzero (congrArg some (UInt8.toNat_inj.1 h48))
    have hmul := Nat.mul_le_mul_right (10 ^ text.length) (by omega : 1 ≤ (byte - 48).toNat)
    rw [number_cons, length_cons, Nat.add_sub_cancel]
    omega

theorem number_lt_of_length (ha : AllDigits a) (hne : a ≠ []) (hb : AllDigits b)
    (hzero : 1 < b.length → b.head? ≠ some 48) (h : a.length < b.length) : number a < number b := by
  have hpos := length_pos_iff.2 hne
  have hlong : 1 < b.length := by omega
  have hle := le_number hb hlong (hzero hlong)
  have hlt := number_lt ha
  have hpow : 10 ^ a.length ≤ 10 ^ (b.length - 1) := Nat.pow_le_pow_right (by decide) (by omega)
  omega

theorem compareIdentifiers_eq (ha : IsPrereleaseIdentifier a) (hb : IsPrereleaseIdentifier b) :
    compareIdentifiers a b = sign (identifierKey a) (identifierKey b) := by
  rw [compareIdentifiers, numericIdentifier, numericIdentifier]
  by_cases hda : a.all digitByte = true
  · have hdigits : AllDigits a := all_eq_true.1 hda
    by_cases hdb : b.all digitByte = true
    · have hdigits' : AllDigits b := all_eq_true.1 hdb
      have hkeys : sign (identifierKey a) (identifierKey b) = sign (number a) (number b) := by
        rw [identifierKey, if_pos hda, identifierKey, if_pos hdb]
        exact sign_congr Sum.Lex.inl_lt_inl_iff Sum.Lex.inl_lt_inl_iff
      simp only [hda, hdb, Bool.not_true, Bool.and_false, Bool.false_and, Bool.false_eq_true, if_false, if_true]
      rw [hkeys]
      rcases lt_trichotomy a.length b.length with h | h | h
      · rw [if_pos h, sign_of_lt (number_lt_of_length hdigits ha.nonempty hdigits' (hb.no_zero hdigits') h)]
      · rw [if_neg (by omega), if_neg (by omega), bytesCompare_number hdigits hdigits' h]
      · rw [if_neg (by omega), if_pos h,
          sign_of_gt (number_lt_of_length hdigits' hb.nonempty hdigits (ha.no_zero hdigits) h)]
    · have hkeys : sign (identifierKey a) (identifierKey b) = -1 := by
        rw [identifierKey, if_pos hda, identifierKey, if_neg hdb]
        exact sign_of_lt (Sum.Lex.inl_lt_inr _ _)
      rw [hkeys, if_pos (by simp [hda, hdb])]
  by_cases hdb : b.all digitByte = true
  · have hkeys : sign (identifierKey a) (identifierKey b) = 1 := by
      rw [identifierKey, if_neg hda, identifierKey, if_pos hdb]
      exact sign_of_gt (Sum.Lex.inl_lt_inr _ _)
    rw [hkeys, if_neg (by simp [hda]), if_pos (by simp [hda, hdb])]
  have hkeys : sign (identifierKey a) (identifierKey b) = sign (a.map UInt8.toNat) (b.map UInt8.toNat) := by
    rw [identifierKey, if_neg hda, identifierKey, if_neg hdb]
    exact sign_congr Sum.Lex.inr_lt_inr_iff Sum.Lex.inr_lt_inr_iff
  rw [hkeys, if_neg (by simp [hda]), if_neg (by simp [hdb]), if_neg hda, bytesCompare_eq]

structure Cursor (text : List UInt8) (offset : Nat) (identifiers : List (List UInt8)) : Prop where
  le : offset ≤ text.length
  rest : text.drop offset = dotted identifiers
  valid : ∀ identifier ∈ identifiers, IsPrereleaseIdentifier identifier

variable {identifiers : List (List UInt8)} {version c : Version}

theorem Cursor.lt_iff {offset : Nat} (h : Cursor text offset identifiers) :
    offset < text.length ↔ identifiers ≠ [] := by
  have hlength := congrArg length h.rest
  rw [length_drop] at hlength
  cases identifiers with
  | nil =>
    have hzero : (dotted []).length = 0 := rfl
    simp only [ne_eq, not_true_eq_false, iff_false]
    omega
  | cons first rest =>
    have hfirst := length_pos_iff.2 (h.valid first mem_cons_self).nonempty
    have hpos : 0 < (dotted (first :: rest)).length := by
      cases rest with
      | nil =>
        rw [dotted_singleton]
        exact hfirst
      | cons second rest =>
        rw [dotted_cons_cons, length_append]
        omega
    simp only [ne_eq, reduceCtorEq, not_false_eq_true, iff_true]
    omega

theorem Cursor.next {first : List UInt8} {offset : Nat} {rest : List (List UInt8)}
    (h : Cursor text offset (first :: rest)) :
    (nextIdentifier text offset).1 = first ∧ Cursor text (nextIdentifier text offset).2 rest ∧
      offset < (nextIdentifier text offset).2 := by
  have hfirst := h.valid first mem_cons_self
  have hpos := length_pos_iff.2 hfirst.nonempty
  have hnodot : ∀ byte ∈ first, decide (byte ≠ 46) = true := fun byte hbyte =>
    decide_eq_true (identifierByte_ne (hfirst.bytes byte hbyte)).1
  have hvalid : ∀ identifier ∈ rest, IsPrereleaseIdentifier identifier :=
    fun identifier hmem => h.valid identifier (mem_cons_of_mem _ hmem)
  have hlength := congrArg length h.rest
  rw [length_drop] at hlength
  cases rest with
  | nil =>
    have hrest := h.rest
    rw [dotted_singleton] at hrest hlength
    have htake : (text.drop offset).takeWhile (fun byte => decide (byte ≠ 46)) = first := by
      rw [hrest]
      have hwhole := takeWhile_append_stop hnodot (show ∀ a, ([] : List UInt8).head? = some a → decide (a ≠ 46) = false
        from nofun)
      rwa [append_nil] at hwhole
    have hend : offset + first.length = text.length := by
      omega
    have hfield : (nextIdentifier text offset).2 = text.length := by
      rw [nextIdentifier, htake, hend]
      exact if_neg (lt_irrefl _)
    refine ⟨?_, ⟨?_, ?_, hvalid⟩, ?_⟩
    · rw [nextIdentifier, htake, slice, Nat.add_sub_cancel_left, hrest, take_length]
    · rw [hfield]
    · rw [hfield, drop_length]
      rfl
    · omega
  | cons second rest =>
    have hrest := h.rest
    rw [dotted_cons_cons] at hrest hlength
    rw [length_append, length_cons] at hlength
    have htake : (text.drop offset).takeWhile (fun byte => decide (byte ≠ 46)) = first := by
      rw [hrest]
      refine takeWhile_append_stop hnodot fun a ha => ?_
      cases ha
      decide
    have hfield : (nextIdentifier text offset).2 = offset + first.length + 1 := by
      rw [nextIdentifier, htake]
      exact if_pos (by omega)
    refine ⟨?_, ⟨?_, ?_, hvalid⟩, ?_⟩
    · rw [nextIdentifier, htake, slice, Nat.add_sub_cancel_left, hrest, take_left]
    · omega
    · rw [hfield, add_assoc, ← drop_drop, hrest, ← drop_drop, drop_left]
      rfl
    · omega

theorem prereleaseLoop_eq {turns aAt bAt : Nat} {as bs : List (List UInt8)} (ha : Cursor a aAt as)
    (hb : Cursor b bAt bs) (hturns : a.length - aAt < turns) :
    prereleaseLoop a b turns aAt bAt = sign (as.map identifierKey) (bs.map identifierKey) := by
  induction turns generalizing aAt bAt as bs with
  | zero => omega
  | succ turns ih =>
    rw [prereleaseLoop]
    cases as with
    | nil =>
      have hend := ha.lt_iff
      simp only [ne_eq, not_true_eq_false, iff_false] at hend
      rw [if_neg (fun h => hend h.1), if_neg hend]
      cases bs with
      | nil =>
        have hend' := hb.lt_iff
        simp only [ne_eq, not_true_eq_false, iff_false] at hend'
        rw [if_neg hend', sign_self]
      | cons second bs =>
        rw [if_pos (hb.lt_iff.2 (cons_ne_nil _ _)), map_nil, map_cons, sign_nil_cons]
    | cons first as =>
      have hlt := ha.lt_iff.2 (cons_ne_nil _ _)
      cases bs with
      | nil =>
        have hend' := hb.lt_iff
        simp only [ne_eq, not_true_eq_false, iff_false] at hend'
        rw [if_neg (fun h => hend' h.2), if_pos hlt, map_nil, map_cons, sign_cons_nil]
      | cons second bs =>
        obtain ⟨hfirst, hnext, hmore⟩ := ha.next
        obtain ⟨hsecond, hnext', -⟩ := hb.next
        rw [if_pos ⟨hlt, hb.lt_iff.2 (cons_ne_nil _ _)⟩]
        dsimp only
        rw [hfirst, hsecond, compareIdentifiers_eq (ha.valid first mem_cons_self)
          (hb.valid second mem_cons_self), ih hnext hnext' (by omega), map_cons, map_cons, sign_cons]

theorem dotted_ne_nil (hne : identifiers ≠ [])
    (h : ∀ identifier ∈ identifiers, IsPrereleaseIdentifier identifier) :
    (dotted identifiers).length ≠ 0 := by
  have hcursor : Cursor (dotted identifiers) 0 identifiers := ⟨Nat.zero_le _, rfl, h⟩
  have := hcursor.lt_iff.2 hne
  omega

theorem comparePrerelease_eq {a b : Option (List (List UInt8))} (ha : Marked true a) (hb : Marked true b) :
    comparePrerelease ((a.map dotted).getD []) ((b.map dotted).getD []) = sign (prereleaseKey a) (prereleaseKey b) := by
  cases a with
  | none =>
    cases b with
    | none =>
      rw [sign_self]
      rfl
    | some bs =>
      obtain ⟨hne, hvalid⟩ := hb bs rfl
      have hlength := dotted_ne_nil hne hvalid
      rw [prereleaseKey, prereleaseKey, sign_of_gt (WithTop.coe_lt_top _)]
      simp [comparePrerelease, length_eq_zero_iff.not.1 hlength]
  | some as =>
    obtain ⟨hne, hvalid⟩ := ha as rfl
    have hlength := dotted_ne_nil hne hvalid
    cases b with
    | none =>
      rw [prereleaseKey, prereleaseKey, sign_of_lt (WithTop.coe_lt_top _)]
      simp [comparePrerelease, length_eq_zero_iff.not.1 hlength]
    | some bs =>
      obtain ⟨hne', hvalid'⟩ := hb bs rfl
      have hlength' := dotted_ne_nil hne' hvalid'
      have hloop := prereleaseLoop_eq (a := dotted as) (b := dotted bs) ⟨Nat.zero_le _, rfl, hvalid⟩
        ⟨Nat.zero_le _, rfl, hvalid'⟩ (by omega : (dotted as).length - 0 < (dotted as).length + 1)
      rw [Option.map_some, Option.map_some, Option.getD_some, Option.getD_some, comparePrerelease,
        if_neg (fun h => hlength h.1), if_neg hlength, if_neg hlength', hloop]
      exact sign_congr WithTop.coe_lt_coe.symm WithTop.coe_lt_coe.symm

theorem ofNat_lt_iff {m n : Nat} (hm : m ≤ 2 ^ 32 - 1) (hn : n ≤ 2 ^ 32 - 1) :
    UInt32.ofNat m < UInt32.ofNat n ↔ m < n := by
  rw [UInt32.lt_iff_toNat_lt, UInt32.toNat_ofNat', UInt32.toNat_ofNat', Nat.mod_eq_of_lt (by omega),
    Nat.mod_eq_of_lt (by omega)]

theorem compare_version {p q : Parts} (hp : p.Valid) (hpFits : p.Fits) (hq : q.Valid) (hqFits : q.Fits) :
    compare p.version q.version = sign p.precedence q.precedence := by
  rw [Parts.precedence, Parts.precedence, sign_prod, sign_prod, sign_prod, ← comparePrerelease_eq hp.prerelease hq.prerelease]
  simp only [compare, Parts.version, gt_iff_lt, ofNat_lt_iff hpFits.major hqFits.major,
    ofNat_lt_iff hqFits.major hpFits.major, ofNat_lt_iff hpFits.minor hqFits.minor,
    ofNat_lt_iff hqFits.minor hpFits.minor, ofNat_lt_iff hpFits.patch hqFits.patch,
    ofNat_lt_iff hqFits.patch hpFits.patch]

def Parsed (version : Version) : Prop := ∃ text, (parse text).ok = true ∧ (parse text).value = version

theorem Parsed.parts (h : Parsed version) :
    ∃ p : Parts, p.Valid ∧ p.Fits ∧ p.version = version := by
  obtain ⟨text, hok, rfl⟩ := h
  obtain ⟨p, hvalid, hfits, -, hvalue⟩ := (parse_ok text).1 hok
  exact ⟨p, hvalid, hfits, hvalue.symm⟩

theorem compare_trans {a b : Version} (ha : Parsed a) (hb : Parsed b) (hc : Parsed c)
    (hab : compare a b ≤ 0) (hbc : compare b c ≤ 0) : compare a c ≤ 0 := by
  obtain ⟨p, hp, hpFits, rfl⟩ := ha.parts
  obtain ⟨q, hq, hqFits, rfl⟩ := hb.parts
  obtain ⟨r, hr, hrFits, rfl⟩ := hc.parts
  rw [compare_version hp hpFits hq hqFits, sign_le_zero_iff] at hab
  rw [compare_version hq hqFits hr hrFits, sign_le_zero_iff] at hbc
  rw [compare_version hp hpFits hr hrFits, sign_le_zero_iff]
  exact le_trans hab hbc

theorem compare_swap {a b : Version} (ha : Parsed a) (hb : Parsed b) : compare b a = -compare a b := by
  obtain ⟨p, hp, hpFits, rfl⟩ := ha.parts
  obtain ⟨q, hq, hqFits, rfl⟩ := hb.parts
  rw [compare_version hq hqFits hp hpFits, compare_version hp hpFits hq hqFits, sign_swap]

/-- A range that leaves at least as much room below and above. -/
structure Range.Widens (narrow wide : Range) : Prop where
  minimum : wide.hasMinimum = true → narrow.hasMinimum = true ∧ (compare wide.minimum narrow.minimum < 0 ∨
    compare wide.minimum narrow.minimum = 0 ∧ (narrow.includeMinimum = true → wide.includeMinimum = true))
  maximum : wide.hasMaximum = true → narrow.hasMaximum = true ∧ (compare narrow.maximum wide.maximum < 0 ∨
    compare narrow.maximum wide.maximum = 0 ∧ (narrow.includeMaximum = true → wide.includeMaximum = true))

structure Range.Parsed (range : Range) : Prop where
  minimum : range.hasMinimum = true → Semver.Parsed range.minimum
  maximum : range.hasMaximum = true → Semver.Parsed range.maximum

theorem contains_iff (range : Range) (version : Version) :
    contains range version = true ↔ (range.hasMinimum = true → 0 < compare version range.minimum ∨
        compare version range.minimum = 0 ∧ range.includeMinimum = true) ∧
      (range.hasMaximum = true → compare version range.maximum < 0 ∨
        compare version range.maximum = 0 ∧ range.includeMaximum = true) := by
  have hlow : (range.hasMinimum = true ∧ (compare version range.minimum < 0 ∨
      compare version range.minimum = 0 ∧ (!range.includeMinimum) = true)) ↔
        ¬ (range.hasMinimum = true → 0 < compare version range.minimum ∨
          compare version range.minimum = 0 ∧ range.includeMinimum = true) := by
    cases range.hasMinimum <;> cases range.includeMinimum <;> simp <;> omega
  have hhigh : (range.hasMaximum = true ∧ (compare version range.maximum > 0 ∨
      compare version range.maximum = 0 ∧ (!range.includeMaximum) = true)) ↔
        ¬ (range.hasMaximum = true → compare version range.maximum < 0 ∨
          compare version range.maximum = 0 ∧ range.includeMaximum = true) := by
    cases range.hasMaximum <;> cases range.includeMaximum <;> simp <;> omega
  rw [contains, ← not_iff_not, not_and_or, ← hlow, ← hhigh]
  split
  · rename_i h1
    exact iff_of_true Bool.false_ne_true (.inl h1)
  rename_i h1
  split
  · rename_i h2
    exact iff_of_true Bool.false_ne_true (.inr h2)
  · rename_i h2
    exact iff_of_false (not_not.2 rfl) (not_or.2 ⟨h1, h2⟩)

theorem sign_chain {a b : Version} (ha : Parsed a) (hb : Parsed b) (hc : Parsed c) :
    ∃ (x y z : Precedence), compare a b = sign x y ∧ compare b c = sign y z ∧ compare a c = sign x z := by
  obtain ⟨p, hp, hpFits, rfl⟩ := ha.parts
  obtain ⟨q, hq, hqFits, rfl⟩ := hb.parts
  obtain ⟨r, hr, hrFits, rfl⟩ := hc.parts
  exact ⟨_, _, _, compare_version hp hpFits hq hqFits, compare_version hq hqFits hr hrFits,
    compare_version hp hpFits hr hrFits⟩

theorem below_trans {a b : Version} (ha : Parsed a) (hb : Parsed b) (hc : Parsed c) {s t : Prop}
    (hab : compare a b < 0 ∨ compare a b = 0 ∧ s) (hbc : compare b c < 0 ∨ compare b c = 0 ∧ t) :
    compare a c < 0 ∨ compare a c = 0 ∧ s ∧ t := by
  obtain ⟨x, y, z, hxy, hyz, hxz⟩ := sign_chain ha hb hc
  rw [hxy, sign_neg_iff, sign_eq_zero_iff] at hab
  rw [hyz, sign_neg_iff, sign_eq_zero_iff] at hbc
  rw [hxz, sign_neg_iff, sign_eq_zero_iff]
  rcases hab with hab | ⟨rfl, hs⟩
  · rcases hbc with hbc | ⟨rfl, -⟩
    · exact .inl (hab.trans hbc)
    · exact .inl hab
  rcases hbc with hbc | ⟨rfl, ht⟩
  · exact .inl hbc
  · exact .inr ⟨rfl, hs, ht⟩

theorem contains_widens {narrow wide : Range} (hwiden : narrow.Widens wide)
    (hnarrow : narrow.Parsed) (hwide : wide.Parsed) (hversion : Parsed version)
    (h : contains narrow version = true) : contains wide version = true := by
  rw [contains_iff] at h ⊢
  constructor
  · intro hmin
    obtain ⟨hhas, hbound⟩ := hwiden.minimum hmin
    have hinner := h.1 hhas
    have hw := hwide.minimum hmin
    have hn := hnarrow.minimum hhas
    rw [compare_swap hn hversion] at hinner
    rw [compare_swap hw hversion]
    have houter := below_trans hw hn hversion hbound (hinner.imp (fun h => by omega) fun h => ⟨by omega, h.2⟩)
    exact houter.imp (fun h => by omega) fun h => ⟨by omega, h.2.1 h.2.2⟩
  · intro hmax
    obtain ⟨hhas, hbound⟩ := hwiden.maximum hmax
    have houter := below_trans hversion (hnarrow.maximum hhas) (hwide.maximum hmax) (h.2 hhas) hbound
    exact houter.imp id fun h => ⟨h.1, h.2.2 h.2.1⟩

/-- **Versions parse and order as they are specified.** -/
theorem versions_specified :
    (∀ text, (parse text).ok = true ↔ ∃ p : Parts, p.Valid ∧ p.Fits ∧ p.text = text) ∧
      (∀ p : Parts, p.Valid → p.Fits → (parse p.text).value = p.version) ∧
      (∀ p q : Parts, p.Valid → p.Fits → q.Valid → q.Fits →
        compare p.version q.version = sign p.precedence q.precedence) ∧
      (∀ a b, Parsed a → Parsed b → compare b a = -compare a b ∧ (compare a b ≤ 0 ∨ compare b a ≤ 0)) ∧
      (∀ a b c, Parsed a → Parsed b → Parsed c → compare a b ≤ 0 → compare b c ≤ 0 → compare a c ≤ 0) ∧
      ∀ narrow wide version, Range.Widens narrow wide → narrow.Parsed → wide.Parsed → Parsed version →
        contains narrow version = true → contains wide version = true := by
  refine ⟨fun text => ⟨fun h => ?_, ?_⟩, fun p hvalid hfits => ?_, fun p q => compare_version, fun a b ha hb => ?_,
    fun a b c => compare_trans, fun narrow wide version => contains_widens⟩
  · obtain ⟨p, hvalid, hfits, htext, -⟩ := (parse_ok text).1 h
    exact ⟨p, hvalid, hfits, htext⟩
  · rintro ⟨p, hvalid, hfits, rfl⟩
    rw [parse_of_parseVersion (parseVersion_text hvalid hfits)]
  · rw [parse_of_parseVersion (parseVersion_text hvalid hfits)]
  · have hswap := compare_swap ha hb
    exact ⟨hswap, by omega⟩

example : (parse "1.20.0-rc.11+win-x64".toUTF8.toList).ok = true ∧ (parse "1.20.0-rc.011".toUTF8.toList).ok = false ∧
    compare (parse "1.0.0-rc.9".toUTF8.toList).value (parse "1.0.0-rc.11".toUTF8.toList).value = -1 := by
  decide +kernel

end Dyn.Semver
