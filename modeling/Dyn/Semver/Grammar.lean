import Dyn.Semver.Version
import Dyn.Lib.Positional
import Mathlib.Data.List.TakeWhile

/-!
# std/semver: the texts that are parsed

The grammar of a version as the parts of its text, and that `parse` takes exactly the texts with numbers
of at most 32 bits.
-/

namespace Dyn.Semver

open List
open Lib.Positional (value extend extend_cons)

def AllDigits (text : List UInt8) : Prop := ∀ byte ∈ text, digitByte byte = true

structure IsNumber (text : List UInt8) : Prop where
  nonempty : text ≠ []
  digits : AllDigits text
  no_zero : 1 < text.length → text.head? ≠ some 48

structure IsIdentifier (text : List UInt8) : Prop where
  nonempty : text ≠ []
  bytes : ∀ byte ∈ text, identifierByte byte = true

/-- An identifier of a prerelease, which is a number if it has digits only. -/
structure IsPrereleaseIdentifier (text : List UInt8) : Prop extends IsIdentifier text where
  no_zero : AllDigits text → 1 < text.length → text.head? ≠ some 48

def dotted (identifiers : List (List UInt8)) : List UInt8 := [46].intercalate identifiers

structure Parts where
  major : List UInt8
  minor : List UInt8
  patch : List UInt8
  prerelease : Option (List (List UInt8)) := none
  build : Option (List (List UInt8)) := none

def number (text : List UInt8) : Nat := value 10 (text.map fun byte => (byte - 48).toNat)

namespace Parts

/-- Identifiers behind their mark, where there are any. -/
def marked (mark : UInt8) : Option (List (List UInt8)) → List UInt8
  | none => []
  | some identifiers => mark :: dotted identifiers

def text (p : Parts) : List UInt8 :=
  p.major ++ 46 :: (p.minor ++ 46 :: (p.patch ++ (marked 45 p.prerelease ++ marked 43 p.build)))

structure Valid (p : Parts) : Prop where
  major : IsNumber p.major
  minor : IsNumber p.minor
  patch : IsNumber p.patch
  prerelease : ∀ identifiers, p.prerelease = some identifiers →
    identifiers ≠ [] ∧ ∀ identifier ∈ identifiers, IsPrereleaseIdentifier identifier
  build : ∀ identifiers, p.build = some identifiers →
    identifiers ≠ [] ∧ ∀ identifier ∈ identifiers, IsIdentifier identifier

structure Fits (p : Parts) : Prop where
  major : number p.major ≤ 2 ^ 32 - 1
  minor : number p.minor ≤ 2 ^ 32 - 1
  patch : number p.patch ≤ 2 ^ 32 - 1

def version (p : Parts) : Version where
  major := UInt32.ofNat (number p.major)
  minor := UInt32.ofNat (number p.minor)
  patch := UInt32.ofNat (number p.patch)
  prerelease := (p.prerelease.map dotted).getD []
  build := (p.build.map dotted).getD []

end Parts

variable {byte : UInt8}

theorem digitByte_bound (h : digitByte byte = true) : (byte - 48).toNat < 10 := by
  have hall : ∀ n < 256, digitByte (UInt8.ofNat n) = true → (UInt8.ofNat n - 48).toNat < 10 := by decide +kernel
  have hbyte := hall byte.toNat byte.toNat_lt
  rw [UInt8.ofNat_toNat] at hbyte
  exact hbyte h

theorem identifierByte_ne (h : identifierByte byte = true) : byte ≠ 46 ∧ byte ≠ 43 := by
  constructor <;> rintro rfl <;> exact absurd h (by decide)

variable {α : Type}

theorem takeWhile_append_stop {p : α → Bool} {front back : List α}
    (hfront : ∀ a ∈ front, p a = true) (hback : ∀ a, back.head? = some a → p a = false) :
    (front ++ back).takeWhile p = front := by
  rw [takeWhile_append_of_pos hfront]
  cases back with
  | nil => simp
  | cons a back => rw [takeWhile_cons_of_neg (by rw [hback a rfl]; exact Bool.false_ne_true), append_nil]

theorem takeWhile_split (p : α → Bool) (text : List α) :
    ∃ front back, text = front ++ back ∧ (∀ a ∈ front, p a = true) ∧ (∀ a, back.head? = some a → p a = false) := by
  refine ⟨text.takeWhile p, text.dropWhile p, (takeWhile_append_dropWhile).symm,
    fun a ha => mem_takeWhile_imp ha, fun a ha => ?_⟩
  have hnot := head?_dropWhile_not p text
  rw [ha] at hnot
  simpa using hnot

theorem le_extend (v : Nat) (ds : List Nat) : v ≤ extend 10 v ds := by
  rw [Lib.Positional.extend_eq]
  have hpos : 1 ≤ 10 ^ ds.length := Nat.pow_pos (by decide)
  have := Nat.mul_le_mul_left v hpos
  omega

theorem numberLoop_ok_iff (digits : List UInt8) (i v : Nat) (result : Nat) (hv : v ≤ 4294967295) :
    numberLoop digits i v = .ok result ↔
      result = extend 10 v (digits.map fun byte => (byte - 48).toNat) ∧ result ≤ 4294967295 := by
  induction digits generalizing i v with
  | nil =>
    rw [numberLoop, map_nil, Lib.Positional.extend_nil]
    constructor
    · intro h
      cases h
      exact ⟨rfl, hv⟩
    · rintro ⟨rfl, -⟩
      rfl
  | cons digit digits ih =>
    rw [numberLoop, map_cons, extend_cons]
    split_ifs with hover
    · refine iff_of_false nofun ?_
      rintro ⟨rfl, hle⟩
      have := le_extend (v * 10 + (digit - 48).toNat) (digits.map fun byte => (byte - 48).toNat)
      omega
    · rw [ih _ _ (Nat.le_of_not_lt hover)]

variable {front rest : List UInt8}

theorem parseNumber_ok_iff {digits back : List UInt8} (hdigits : AllDigits digits)
    (hback : ∀ byte, back.head? = some byte → digitByte byte = false) (result : UInt32 × Nat) :
    parseNumber (front ++ (digits ++ back)) front.length = .ok result ↔
      IsNumber digits ∧ number digits ≤ 2 ^ 32 - 1 ∧
        result = (UInt32.ofNat (number digits), front.length + digits.length) := by
  have htake : ((front ++ (digits ++ back)).drop front.length).takeWhile digitByte = digits := by
    rw [drop_left]
    exact takeWhile_append_stop hdigits hback
  have hhead : digits ≠ [] → (front ++ (digits ++ back)).getD front.length 0 = digits.headD 0 := by
    intro hne
    rw [getD_append]
    cases digits with
    | nil => exact absurd rfl hne
    | cons digit digits => rfl
  rw [parseNumber, htake, slice_append]
  by_cases hempty : digits = []
  · rw [if_pos (by simp [hempty])]
    exact iff_of_false nofun fun h => h.1.nonempty hempty
  have hlength := length_pos_iff.2 hempty
  rw [if_neg (by omega), hhead hempty, Nat.add_sub_cancel_left]
  split_ifs with hzero
  · refine iff_of_false nofun fun h => h.1.no_zero hzero.1 ?_
    cases digits with
    | nil => exact absurd rfl hempty
    | cons digit digits => exact congrArg some hzero.2
  have hnumber : IsNumber digits := ⟨hempty, hdigits, fun hlong hhead => hzero ⟨hlong, by
    cases digits with
    | nil => exact absurd rfl hempty
    | cons digit digits => exact Option.some.inj hhead⟩⟩
  have hloop := numberLoop_ok_iff digits front.length 0
  cases hresult : numberLoop digits front.length 0 with
  | error failure =>
    refine iff_of_false nofun fun h => ?_
    have hok := (hloop (number digits) (Nat.zero_le _)).2 ⟨rfl, h.2.1⟩
    rw [hresult] at hok
    cases hok
  | ok v =>
    obtain ⟨hv, hle⟩ := (hloop v (Nat.zero_le _)).1 hresult
    have hv : v = number digits := hv
    rw [Except.ok.injEq, hv]
    rw [hv] at hle
    exact ⟨fun h => ⟨hnumber, hle, h.symm⟩, fun h => h.2.2.symm⟩

def Accepted (prerelease : Bool) (text : List UInt8) : Prop :=
  if prerelease then IsPrereleaseIdentifier text else IsIdentifier text

variable {prerelease : Bool} {result : List UInt8 × Nat}

theorem Accepted.identifier {text : List UInt8} (h : Accepted prerelease text) :
    IsIdentifier text := by
  cases prerelease
  · exact h
  · exact IsPrereleaseIdentifier.toIsIdentifier h

theorem IsIdentifier.not_mem {text : List UInt8} (h : IsIdentifier text) : 46 ∉ text ∧ 43 ∉ text :=
  ⟨fun hmem => (identifierByte_ne (h.bytes _ hmem)).1 rfl, fun hmem => (identifierByte_ne (h.bytes _ hmem)).2 rfl⟩

theorem checkBytes_ok_iff (text : List UInt8) (j : Nat) :
    checkBytes text j = .ok () ↔ ∀ byte ∈ text, identifierByte byte = true := by
  induction text generalizing j with
  | nil => simp [checkBytes]
  | cons byte text ih =>
    rw [checkBytes, forall_mem_cons]
    split_ifs with hbyte
    · rw [ih]
      simp [hbyte]
    · exact iff_of_false nofun fun h => hbyte h.1

theorem identifiersLoop_end {segment : List UInt8} {turns : Nat}
    (hrest : rest = [] ∨ rest.headD 0 = 46) :
    identifiersLoop (front ++ (segment ++ rest)) prerelease (turns + 1) front.length (front.length + segment.length) =
        .ok () ↔
      Accepted prerelease segment ∧
        identifiersLoop (front ++ (segment ++ rest)) prerelease turns (front.length + segment.length + 1)
          (front.length + segment.length + 1) = .ok () := by
  have hbound : front.length + segment.length ≤ (front ++ (segment ++ rest)).length := by
    rw [length_append, length_append]
    omega
  have hstop : front.length + segment.length = (front ++ (segment ++ rest)).length ∨
      (front ++ (segment ++ rest)).getD (front.length + segment.length) 0 = 46 := by
    rcases hrest with rfl | hdot
    · exact .inl (by simp)
    refine .inr ?_
    have hget := getD_append (front ++ segment) rest
    rw [length_append, append_assoc, hdot] at hget
    exact hget
  rw [identifiersLoop, if_pos hbound, if_pos hstop, slice_append]
  by_cases hempty : segment = []
  · rw [if_pos (by simp [hempty])]
    exact iff_of_false nofun fun h => h.1.identifier.nonempty hempty
  have hlength := length_pos_iff.2 hempty
  rw [if_neg (by omega)]
  have hbytes := checkBytes_ok_iff segment front.length
  cases hcheck : checkBytes segment front.length with
  | error j =>
    refine iff_of_false nofun fun h => ?_
    rw [hbytes.2 h.1.identifier.bytes] at hcheck
    cases hcheck
  | ok result =>
    have hidentifier : IsIdentifier segment := ⟨hempty, hbytes.1 hcheck⟩
    have hhead : (front ++ (segment ++ rest)).getD front.length 0 = segment.headD 0 := by
      rw [getD_append]
      cases segment with
      | nil => exact absurd rfl hempty
      | cons byte segment => rfl
    have hhead' : segment.headD 0 = 48 ↔ segment.head? = some 48 := by
      cases segment with
      | nil => exact absurd rfl hempty
      | cons byte segment => simp
    have hall : segment.all digitByte = true ↔ AllDigits segment := all_eq_true
    rw [hhead, Nat.add_sub_cancel_left]
    by_cases hzero : prerelease = true ∧ segment.all digitByte = true ∧ segment.length > 1 ∧ segment.headD 0 = 48
    · rw [if_pos hzero]
      refine iff_of_false nofun fun h => ?_
      have haccepted := h.1
      rw [hzero.1] at haccepted
      exact IsPrereleaseIdentifier.no_zero haccepted (hall.1 hzero.2.1) hzero.2.2.1 (hhead'.1 hzero.2.2.2)
    rw [if_neg hzero]
    refine (and_iff_right ?_).symm
    cases prerelease with
    | false => exact hidentifier
    | true =>
      exact IsPrereleaseIdentifier.mk hidentifier fun hdigits hlong hfirst =>
        hzero ⟨rfl, hall.2 hdigits, hlong, hhead'.2 hfirst⟩

theorem identifiersLoop_ok_iff (prerelease : Bool) (front segment rest : List UInt8) (hsegment : 46 ∉ segment) {turns : Nat}
    (hturns : rest.length < turns) :
    identifiersLoop (front ++ (segment ++ rest)) prerelease turns front.length (front.length + segment.length) = .ok () ↔
      ∀ identifier ∈ (segment ++ rest).splitOn 46, Accepted prerelease identifier := by
  induction rest generalizing front segment turns with
  | nil =>
    obtain ⟨turns, rfl⟩ := Nat.exists_eq_succ_of_ne_zero (by omega : turns ≠ 0)
    have hdone : identifiersLoop (front ++ (segment ++ [])) prerelease turns (front.length + segment.length + 1)
        (front.length + segment.length + 1) = .ok () := by
      cases turns with
      | zero => rfl
      | succ turns => rw [identifiersLoop, if_neg (by simp)]
    rw [Nat.succ_eq_add_one, identifiersLoop_end (.inl rfl), and_iff_left hdone, append_nil,
      splitOn_eq_singleton hsegment]
    simp
  | cons byte rest ih =>
    obtain ⟨turns, rfl⟩ := Nat.exists_eq_succ_of_ne_zero (by omega : turns ≠ 0)
    rw [length_cons] at hturns
    by_cases hdot : byte = 46
    · subst hdot
      have hnext := ih (front ++ segment ++ [46]) [] (by simp) (by omega : rest.length < turns)
      have htext : front ++ segment ++ [46] ++ ([] ++ rest) = front ++ (segment ++ 46 :: rest) := by simp
      have hlength : (front ++ segment ++ [46]).length = front.length + segment.length + 1 := by simp [add_assoc]
      rw [htext, hlength, length_nil, add_zero, nil_append] at hnext
      rw [Nat.succ_eq_add_one, identifiersLoop_end (.inr rfl), hnext, splitOn_append_cons_self_of_not_mem hsegment,
        forall_mem_cons]
    have hnext := ih front (segment ++ [byte]) (by simp [hsegment, Ne.symm hdot])
      (by omega : rest.length < turns)
    have hget := getD_append (front ++ segment) (byte :: rest)
    rw [length_append, append_assoc, headD_cons] at hget
    have hcontinue : ¬ (front.length + segment.length = (front ++ (segment ++ byte :: rest)).length ∨
        (front ++ (segment ++ byte :: rest)).getD (front.length + segment.length) 0 = 46) := by
      rw [hget, not_or]
      exact ⟨by simp, hdot⟩
    have hsplit : segment ++ byte :: rest = segment ++ [byte] ++ rest := by simp
    rw [Nat.succ_eq_add_one, identifiersLoop, if_pos (by simp), if_neg hcontinue]
    rw [length_append, length_singleton, ← add_assoc, ← hsplit] at hnext
    exact hnext

theorem validIdentifiers_ok_iff (text : List UInt8) (prerelease : Bool) :
    validIdentifiers text prerelease = .ok () ↔
      ∃ identifiers, identifiers ≠ [] ∧ (∀ identifier ∈ identifiers, Accepted prerelease identifier) ∧
        text = dotted identifiers := by
  have hsplit : (∀ identifier ∈ text.splitOn 46, Accepted prerelease identifier) ↔
      ∃ identifiers, identifiers ≠ [] ∧ (∀ identifier ∈ identifiers, Accepted prerelease identifier) ∧
        text = dotted identifiers := by
    constructor
    · exact fun h => ⟨text.splitOn 46, splitOn_ne_nil _ _, h, (intercalate_splitOn 46).symm⟩
    rintro ⟨identifiers, hne, h, rfl⟩
    rw [dotted, splitOn_intercalate 46 (fun l hl => (h l hl).identifier.not_mem.1) hne]
    exact h
  rw [← hsplit, validIdentifiers]
  split_ifs with hempty
  · rw [length_eq_zero_iff.1 hempty]
    refine iff_of_false nofun fun h => ?_
    exact (h [] (by simp)).identifier.nonempty rfl
  · exact identifiersLoop_ok_iff prerelease [] [] text (by simp) (by omega)

theorem parseDot_ok {text : List UInt8} {result : Nat} (htext : text = front ++ rest)
    (h : parseDot text front.length = .ok result) :
    ∃ tail, text = front ++ [46] ++ tail ∧ result = (front ++ [46]).length := by
  subst htext
  rw [parseDot, getD_append] at h
  split at h
  · cases h
  rename_i hdot
  cases h
  rw [not_or, not_not] at hdot
  cases rest with
  | nil => exact absurd (by simp) hdot.1
  | cons byte tail =>
    obtain rfl : byte = 46 := hdot.2
    exact ⟨tail, by simp, by simp⟩

theorem parseDot_eq {text front tail : List UInt8} (htext : text = front ++ 46 :: tail) :
    parseDot text front.length = .ok (front ++ [46]).length := by
  subst htext
  rw [parseDot, getD_append, if_neg (by simp), length_append]
  rfl

theorem validIdentifiers_ok {text : List UInt8} {result : Unit}
    (h : validIdentifiers text prerelease = .ok result) :
    ∃ identifiers, identifiers ≠ [] ∧ (∀ identifier ∈ identifiers, Accepted prerelease identifier) ∧
      text = dotted identifiers := (validIdentifiers_ok_iff text prerelease).1 h

/-- Identifiers behind a mark, where there are any. -/
def Marked (prerelease : Bool) (identifiers : Option (List (List UInt8))) : Prop :=
  ∀ ids, identifiers = some ids → ids ≠ [] ∧ ∀ identifier ∈ ids, Accepted prerelease identifier

@[simp] theorem dotted_singleton (identifier : List UInt8) : dotted [identifier] = identifier := by
  rw [dotted, intercalate_singleton]

theorem dotted_cons_cons (first second : List UInt8) (rest : List (List UInt8)) :
    dotted (first :: second :: rest) = first ++ 46 :: dotted (second :: rest) := by
  rw [dotted, intercalate_cons_cons, append_assoc]
  rfl

theorem not_mem_dotted {ids : List (List UInt8)} (h : ∀ identifier ∈ ids, IsIdentifier identifier) : 43 ∉ dotted ids := by
  induction ids with
  | nil => exact not_mem_nil
  | cons first ids ih =>
    have hfirst := (h first mem_cons_self).not_mem.2
    have hrest := ih fun identifier hmem => h identifier (mem_cons_of_mem _ hmem)
    cases ids with
    | nil =>
      rw [dotted_singleton]
      exact hfirst
    | cons second ids =>
      rw [dotted_cons_cons]
      simp [hfirst, hrest]

theorem drop_mark (front rest : List UInt8) (mark : UInt8) :
    (front ++ mark :: rest).drop (front.length + 1) = rest := by
  rw [← drop_drop, drop_left]
  rfl

theorem slice_mark (front middle tail : List UInt8) (mark : UInt8) : slice (front ++ mark :: (middle ++ tail))
    (front.length + 1) (front.length + 1 + middle.length) = middle := by
  rw [slice, drop_mark, Nat.add_sub_cancel_left, take_left]

theorem parsePrerelease_ok {text : List UInt8} (htext : text = front ++ rest)
    (h : parsePrerelease text front.length = .ok result) :
    ∃ identifiers tail, Marked true identifiers ∧ text = front ++ Parts.marked 45 identifiers ++ tail ∧
      result = ((identifiers.map dotted).getD [], (front ++ Parts.marked 45 identifiers).length) := by
  subst htext
  rw [parsePrerelease, getD_append] at h
  split_ifs at h with hmark
  · cases rest with
    | nil => exact absurd hmark.1 (by simp)
    | cons byte rest =>
      obtain rfl : byte = 45 := hmark.2
      obtain ⟨middle, tail, rfl, hmiddle, htail⟩ := takeWhile_split (fun byte : UInt8 => byte ≠ 43) rest
      have htake : (middle ++ tail).takeWhile (fun byte => decide (byte ≠ 43)) = middle :=
        takeWhile_append_stop hmiddle htail
      dsimp only at h
      rw [drop_mark, htake, slice_mark] at h
      split at h
      · cases h
      rename_i accepted hvalid
      obtain ⟨ids, hne, hids, rfl⟩ := validIdentifiers_ok hvalid
      cases h
      refine ⟨some ids, tail, fun _ h => ?_, by simp [Parts.marked], ?_⟩
      · cases h
        exact ⟨hne, hids⟩
      · simp [Parts.marked]
        omega
  · cases h
    exact ⟨none, rest, fun _ h => (by cases h), by simp [Parts.marked], by simp [Parts.marked]⟩

theorem parsePrerelease_eq {text front tail : List UInt8} {identifiers : Option (List (List UInt8))}
    (htext : text = front ++ (Parts.marked 45 identifiers ++ tail)) (hids : Marked true identifiers) (htail : ∀ byte, tail.head? = some byte → byte = 43) :
    parsePrerelease text front.length =
      .ok ((identifiers.map dotted).getD [], (front ++ Parts.marked 45 identifiers).length) := by
  subst htext
  cases identifiers with
  | none =>
    have hmark : ¬ (front.length < (front ++ tail).length ∧ tail.headD 0 = 45) := by
      rintro ⟨hlt, hhead⟩
      cases tail with
      | nil => simp at hlt
      | cons byte tail =>
        have hplus := htail byte rfl
        rw [headD_cons, hplus] at hhead
        exact absurd hhead (by decide)
    rw [parsePrerelease, getD_append, Parts.marked, nil_append, if_neg hmark, append_nil]
    rfl
  | some ids =>
    obtain ⟨hne, hids⟩ := hids ids rfl
    have hvalid := (validIdentifiers_ok_iff (dotted ids) true).2 ⟨ids, hne, hids, rfl⟩
    have htake : (dotted ids ++ tail).takeWhile (fun byte => decide (byte ≠ 43)) = dotted ids := by
      refine takeWhile_append_stop (fun byte hbyte => ?_) fun byte hbyte => ?_
      · refine decide_eq_true fun hplus => ?_
        rw [hplus] at hbyte
        exact not_mem_dotted (fun identifier h => (hids identifier h).identifier) hbyte
      · rw [htail byte hbyte]
        decide
    rw [parsePrerelease, getD_append, Parts.marked, cons_append, if_pos ⟨by simp, rfl⟩]
    dsimp only
    rw [drop_mark, htake, slice_mark, hvalid]
    simp
    omega

theorem slice_rest (front rest : List UInt8) (mark : UInt8) :
    slice (front ++ mark :: rest) (front.length + 1) (front ++ mark :: rest).length = rest := by
  rw [slice, drop_mark]
  refine take_of_length_le ?_
  rw [length_append, length_cons]
  omega

theorem parseBuild_ok {text : List UInt8} (htext : text = front ++ rest)
    (h : parseBuild text front.length = .ok result) :
    ∃ identifiers tail, Marked false identifiers ∧ text = front ++ Parts.marked 43 identifiers ++ tail ∧
      result = ((identifiers.map dotted).getD [], (front ++ Parts.marked 43 identifiers).length) := by
  subst htext
  rw [parseBuild, getD_append] at h
  split_ifs at h with hmark
  · cases rest with
    | nil => exact absurd hmark.1 (by simp)
    | cons byte rest =>
      obtain rfl : byte = 43 := hmark.2
      dsimp only at h
      rw [slice_rest] at h
      split at h
      · cases h
      rename_i accepted hvalid
      obtain ⟨ids, hne, hids, rfl⟩ := validIdentifiers_ok hvalid
      cases h
      refine ⟨some ids, [], fun _ h => ?_, by simp [Parts.marked], rfl⟩
      cases h
      exact ⟨hne, hids⟩
  · cases h
    exact ⟨none, rest, fun _ h => (by cases h), by simp [Parts.marked], by simp [Parts.marked]⟩

theorem parseBuild_eq {text front : List UInt8} {identifiers : Option (List (List UInt8))}
    (htext : text = front ++ Parts.marked 43 identifiers) (hids : Marked false identifiers) :
    parseBuild text front.length =
      .ok ((identifiers.map dotted).getD [], (front ++ Parts.marked 43 identifiers).length) := by
  subst htext
  cases identifiers with
  | none =>
    rw [parseBuild, Parts.marked, append_nil, if_neg (by simp)]
    rfl
  | some ids =>
    obtain ⟨hne, hids⟩ := hids ids rfl
    have hvalid := (validIdentifiers_ok_iff (dotted ids) false).2 ⟨ids, hne, hids, rfl⟩
    rw [parseBuild, getD_append, Parts.marked, if_pos ⟨by simp, rfl⟩]
    dsimp only
    rw [slice_rest, hvalid]
    rfl

theorem bind_ok_split {ε β : Type} {x : Except ε α} {f : α → Except ε β} {b : β}
    (h : (x >>= f) = .ok b) : ∃ a, x = .ok a ∧ f a = .ok b := by
  cases x with
  | error e => cases h
  | ok a => exact ⟨a, rfl, h⟩

theorem parseNumber_ok {text : List UInt8} {result : UInt32 × Nat} (htext : text = front ++ rest)
    (h : parseNumber text front.length = .ok result) :
    ∃ digits tail, text = front ++ digits ++ tail ∧ IsNumber digits ∧ number digits ≤ 2 ^ 32 - 1 ∧
      result = (UInt32.ofNat (number digits), (front ++ digits).length) := by
  subst htext
  obtain ⟨digits, tail, rfl, hdigits, htail⟩ := takeWhile_split digitByte rest
  obtain ⟨hnumber, hle, hresult⟩ := (parseNumber_ok_iff hdigits htail result).1 h
  exact ⟨digits, tail, (append_assoc _ _ _).symm, hnumber, hle, by rw [hresult, length_append]⟩

theorem parseNumber_eq {text front digits tail : List UInt8} (htext : text = front ++ (digits ++ tail))
    (hnumber : IsNumber digits) (hle : number digits ≤ 2 ^ 32 - 1)
    (htail : ∀ byte, tail.head? = some byte → digitByte byte = false) :
    parseNumber text front.length = .ok (UInt32.ofNat (number digits), (front ++ digits).length) := by
  subst htext
  rw [length_append]
  exact (parseNumber_ok_iff hnumber.digits htail _).2 ⟨hnumber, hle, rfl⟩

theorem parts_of_parseVersion {text : List UInt8} {version : Version} (h : parseVersion text = .ok version) :
    ∃ p : Parts, p.Valid ∧ p.Fits ∧ p.text = text ∧ p.version = version := by
  obtain ⟨⟨major, offset⟩, hmajor, h⟩ := bind_ok_split h
  obtain ⟨majorText, rest, htext, hmajorValid, hmajorFits, hresult⟩ := parseNumber_ok (nil_append text).symm hmajor
  cases hresult
  obtain ⟨offset, hdot, h⟩ := bind_ok_split h
  obtain ⟨rest, htext, rfl⟩ := parseDot_ok htext hdot
  obtain ⟨⟨minor, offset⟩, hminor, h⟩ := bind_ok_split h
  obtain ⟨minorText, rest, htext, hminorValid, hminorFits, hresult⟩ := parseNumber_ok htext hminor
  cases hresult
  obtain ⟨offset, hdot, h⟩ := bind_ok_split h
  obtain ⟨rest, htext, rfl⟩ := parseDot_ok htext hdot
  obtain ⟨⟨patch, offset⟩, hpatch, h⟩ := bind_ok_split h
  obtain ⟨patchText, rest, htext, hpatchValid, hpatchFits, hresult⟩ := parseNumber_ok htext hpatch
  cases hresult
  obtain ⟨⟨prerelease, offset⟩, hprerelease, h⟩ := bind_ok_split h
  obtain ⟨prereleaseIds, rest, hprereleaseValid, htext, hresult⟩ := parsePrerelease_ok htext hprerelease
  cases hresult
  obtain ⟨⟨build, offset⟩, hbuild, h⟩ := bind_ok_split h
  obtain ⟨buildIds, rest, hbuildValid, htext, hresult⟩ := parseBuild_ok htext hbuild
  cases hresult
  dsimp only at h
  split_ifs at h with hend
  cases h
  rw [not_not] at hend
  have hrest : rest = [] := by
    have hlength := congrArg length htext
    rw [length_append, ← hend] at hlength
    exact length_eq_zero_iff.1 (by omega)
  refine ⟨⟨majorText, minorText, patchText, prereleaseIds, buildIds⟩, ?_, ?_, ?_, rfl⟩
  · exact ⟨hmajorValid, hminorValid, hpatchValid, hprereleaseValid, hbuildValid⟩
  · exact ⟨hmajorFits, hminorFits, hpatchFits⟩
  · rw [htext, hrest]
    simp [Parts.text]

theorem head_marked {mark : UInt8} {ids : Option (List (List UInt8))}
    (h : (Parts.marked mark ids).head? = some byte) : byte = mark := by
  cases ids with
  | none => cases h
  | some ids =>
    cases h
    rfl

theorem parseVersion_text {p : Parts} (hvalid : p.Valid) (hfits : p.Fits) : parseVersion p.text = .ok p.version := by
  have hdot : ∀ tail : List UInt8, ∀ byte, (46 :: tail).head? = some byte → digitByte byte = false := by
    intro tail byte h
    cases h
    rfl
  have hmarks : ∀ byte, (Parts.marked 45 p.prerelease ++ Parts.marked 43 p.build).head? = some byte →
      digitByte byte = false := by
    intro byte h
    cases hids : p.prerelease with
    | none =>
      rw [hids] at h
      rw [head_marked h]
      rfl
    | some ids =>
      rw [hids] at h
      cases h
      rfl
  have hmajor := @parseNumber_eq p.text [] p.major (46 :: (p.minor ++ 46 :: (p.patch ++
    (Parts.marked 45 p.prerelease ++ Parts.marked 43 p.build)))) rfl hvalid.major hfits.major (hdot _)
  have hdot1 := @parseDot_eq p.text ([] ++ p.major) (p.minor ++ 46 :: (p.patch ++
    (Parts.marked 45 p.prerelease ++ Parts.marked 43 p.build))) rfl
  have hminor := @parseNumber_eq p.text ([] ++ p.major ++ [46]) p.minor (46 :: (p.patch ++
    (Parts.marked 45 p.prerelease ++ Parts.marked 43 p.build))) (by simp [Parts.text]) hvalid.minor hfits.minor (hdot _)
  have hdot2 := @parseDot_eq p.text ([] ++ p.major ++ [46] ++ p.minor) (p.patch ++
    (Parts.marked 45 p.prerelease ++ Parts.marked 43 p.build)) (by simp [Parts.text])
  have hpatch := @parseNumber_eq p.text ([] ++ p.major ++ [46] ++ p.minor ++ [46]) p.patch
    (Parts.marked 45 p.prerelease ++ Parts.marked 43 p.build) (by simp [Parts.text]) hvalid.patch hfits.patch hmarks
  have hprerelease := @parsePrerelease_eq p.text ([] ++ p.major ++ [46] ++ p.minor ++ [46] ++ p.patch)
    (Parts.marked 43 p.build) p.prerelease (by simp [Parts.text]) hvalid.prerelease (fun byte => head_marked)
  have hbuild := @parseBuild_eq p.text ([] ++ p.major ++ [46] ++ p.minor ++ [46] ++ p.patch ++
    Parts.marked 45 p.prerelease) p.build (by simp [Parts.text]) hvalid.build
  have hend : ([] ++ p.major ++ [46] ++ p.minor ++ [46] ++ p.patch ++ Parts.marked 45 p.prerelease ++
      Parts.marked 43 p.build).length = p.text.length := by simp [Parts.text]
  rw [length_nil] at hmajor
  rw [hend] at hbuild
  rw [parseVersion, hmajor]
  simp only [bind, Except.bind, hdot1, hminor, hdot2, hpatch, hprerelease, hbuild, ne_eq, not_true_eq_false, if_false]
  rfl

theorem parse_of_parseVersion {text : List UInt8} {version : Version} (h : parseVersion text = .ok version) :
    parse text = { value := version, offset := text.length, ok := true } := by
  rw [parse, h]

theorem parseVersion_of_parse {text : List UInt8} (h : (parse text).ok = true) : ∃ version, parseVersion text = .ok version := by
  rw [parse] at h
  cases hresult : parseVersion text with
  | error failure =>
    rw [hresult] at h
    cases h
  | ok version => exact ⟨version, rfl⟩

/-- **Parsing succeeds exactly on the texts of the grammar** whose numbers have 32 bits. -/
theorem parse_ok (text : List UInt8) :
    (parse text).ok = true ↔ ∃ p : Parts, p.Valid ∧ p.Fits ∧ p.text = text ∧ (parse text).value = p.version := by
  constructor
  · intro h
    obtain ⟨version, hresult⟩ := parseVersion_of_parse h
    obtain ⟨p, hvalid, hfits, htext, hversion⟩ := parts_of_parseVersion hresult
    exact ⟨p, hvalid, hfits, htext, by rw [parse_of_parseVersion hresult, hversion]⟩
  · rintro ⟨p, hvalid, hfits, rfl, -⟩
    rw [parse_of_parseVersion (parseVersion_text hvalid hfits)]

end Dyn.Semver
