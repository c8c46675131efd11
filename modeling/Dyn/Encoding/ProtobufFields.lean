import Dyn.Encoding.Protobuf

/-!
# std/encoding/protobuf: fields survive writing and reading
-/

namespace Dyn.Protobuf

open List
open Mem (Panic Room maximum)
open Encoding
open Binary (decoded decoded_encode encodeLoop encodeLoop_le encodeLoop_le_of_lt loadU32LE loadU32LE_store
  loadU64LE loadU64LE_store storeU32LE storeU64LE uleb128Encode uleb128Size uleb128Size_eq)
open Sequence (Grammar Reads)

/-- A field that the wire format can carry. -/
structure Formed (field : Field) : Prop where
  number : field.number ≠ 0 ∧ field.number.toNat ≤ 536870911
  fixed : field.wire = .Fixed32 → field.value.toNat < 2 ^ 32
  short : field.wire = .Bytes → field.bytes.length < 2 ^ 64

instance (field : Field) : Decidable (Formed field) :=
  decidable_of_iff ((field.number ≠ 0 ∧ field.number.toNat ≤ 536870911) ∧
    (field.wire = .Fixed32 → field.value.toNat < 2 ^ 32) ∧
    (field.wire = .Bytes → field.bytes.length < 2 ^ 64))
    ⟨fun h => ⟨h.1, h.2.1, h.2.2⟩, fun h => ⟨h.number, h.fixed, h.short⟩⟩

/-- The field sequences that `encode` lets through. -/
def grammar : Grammar (List UInt32) Field where
  permit groups field :=
    if (accept groups field).1 = .None ∧ Formed field then some (accept groups field).2 else none
  closed groups := groups = []
  owed _ := 0
  owed_closed _ _ := rfl
  owed_permit _ _ _ _ := Nat.zero_le _

variable {field : Field} {source : List UInt8}

variable {groups after : List UInt32} {n : Nat} {output : List UInt8} {w : Nat}
  {fields : List Field}

theorem permit_iff :
    grammar.permit groups field = some after ↔
      accept groups field = (.None, after) ∧ Formed field := by
  change (if _ then some _ else none) = some after ↔ _
  rw [Prod.ext_iff]
  split_ifs with h
  · rw [Option.some.injEq]
    exact ⟨fun ha => ⟨⟨h.1, ha⟩, h.2⟩, fun ha => ha.1.2⟩
  constructor
  · intro ha
    cases ha
  · intro ha
    exact absurd ⟨ha.1.1, ha.2⟩ h

theorem normal_wire (field : Field) : field.normal.wire = field.wire := by
  unfold Field.normal
  cases field.wire <;> rfl

theorem normal_number (field : Field) : field.normal.number = field.number := by
  unfold Field.normal
  cases field.wire <;> rfl

theorem accept_normal (groups : List UInt32) (field : Field) :
    accept groups field.normal = accept groups field := by
  unfold accept
  rw [normal_wire, normal_number]

def valueBytes (field : Field) : List UInt8 :=
  match field.wire with
  | .Varint => encodeLoop 10 field.value.toNat
  | .Fixed32 => storeU32LE field.value.toUInt32
  | .Fixed64 => storeU64LE field.value
  | .Bytes => encodeLoop 10 (UInt64.ofNat field.bytes.length).toNat ++ field.bytes
  | .StartGroup | .EndGroup => []

def fieldBytes (field : Field) : List UInt8 := encodeLoop 10 (key field).toNat ++ valueBytes field

theorem wireNumber_lt (wire : Wire) : (wireNumber wire).toNat < 2 ^ 3 := by
  cases wire <;> decide

theorem key_toNat (h : Formed field) :
    (key field).toNat = field.number.toNat * 8 + (wireNumber field.wire).toNat := by
  have hn := h.number.2
  have hshift : (field.number.toUInt64 <<< 3).toNat = 2 ^ 3 * field.number.toNat := by
    rw [UInt64.toNat_shiftLeft, UInt32.toNat_toUInt64]
    change (_ <<< 3) % 2 ^ 64 = _
    rw [Nat.shiftLeft_eq]
    omega
  rw [key, UInt64.toNat_or, hshift, ← Nat.two_pow_add_eq_or_of_lt (wireNumber_lt field.wire)]
  omega

theorem key_number (h : Formed field) : (key field >>> 3).toNat = field.number.toNat := by
  have hw := wireNumber_lt field.wire
  rw [UInt64.toNat_shiftRight, key_toNat h]
  change _ >>> 3 = _
  rw [Nat.shiftRight_eq_div_pow]
  omega

theorem key_wire (h : Formed field) : key field &&& 7 = wireNumber field.wire := by
  have hw := wireNumber_lt field.wire
  apply UInt64.toNat_inj.mp
  rw [UInt64.toNat_and, key_toNat h]
  change _ &&& (2 ^ 3 - 1) = _
  rw [Nat.and_two_pow_sub_one_eq_mod]
  omega

theorem wireOf_wireNumber (wire : Wire) : wireOf (wireNumber wire) = wire := by
  cases wire <;> rfl

theorem fieldValue_bytes (h : Formed field) (at_ : Nat) (rest : List UInt8) :
    ∃ n, fieldValue { number := field.number, wire := field.wire } at_ (valueBytes field ++ rest) =
      .ok (field.normal, n, rest) := by
  have hdrop : ∀ value : UInt64, (encodeLoop 10 value.toNat ++ rest).drop (uleb128Size value) =
      rest := by
    intro value
    rw [← uleb128Size_eq, drop_left]
  unfold fieldValue valueBytes Field.normal
  cases hw : field.wire with
  | Varint =>
    simp only [decoded_encode, hdrop]
    exact ⟨_, rfl⟩
  | Fixed64 =>
    have htake : (storeU64LE field.value ++ rest).take 8 = storeU64LE field.value := rfl
    refine ⟨at_ + 8, ?_⟩
    dsimp only
    rw [if_neg (by simp), htake, loadU64LE_store]
    rfl
  | Fixed32 =>
    have htake : (storeU32LE field.value.toUInt32 ++ rest).take 4 =
        storeU32LE field.value.toUInt32 := rfl
    have hback : field.value.toUInt32.toUInt64 = field.value := by
      have := h.fixed hw
      apply UInt64.toNat_inj.mp
      rw [UInt32.toNat_toUInt64, UInt64.toNat_toUInt32]
      omega
    refine ⟨at_ + 4, ?_⟩
    dsimp only
    rw [if_neg (by simp), htake, loadU32LE_store, hback]
    rfl
  | Bytes =>
    have hshort := h.short hw
    have hlength : (UInt64.ofNat field.bytes.length).toNat = field.bytes.length := by
      rw [UInt64.toNat_ofNat', Nat.mod_eq_of_lt hshort]
    refine ⟨at_ + uleb128Size (UInt64.ofNat field.bytes.length) + field.bytes.length, ?_⟩
    rw [append_assoc, decoded_encode]
    simp only [Bool.not_true, Bool.false_eq_true, if_false]
    rw [← uleb128Size_eq, drop_left, hlength, if_neg (by rw [length_append]; omega),
      take_left, drop_left]
  | StartGroup | EndGroup => exact ⟨_, rfl⟩

theorem fieldAt_bytes (h : Formed field) (rest : List UInt8) :
    ∃ n, fieldAt (fieldBytes field ++ rest) = .ok (field.normal, n, rest) := by
  obtain ⟨n, hvalue⟩ := fieldValue_bytes h (uleb128Size (key field)) rest
  have hnumber := key_number h
  have hzero : key field >>> 3 ≠ 0 := by
    intro hz
    rw [hz] at hnumber
    exact h.number.1 (UInt32.toNat_inj.mp hnumber.symm)
  have hbig : ¬ key field >>> 3 > 536870911 := by
    rw [gt_iff_lt, UInt64.lt_iff_toNat_lt, hnumber]
    exact Nat.not_lt.mpr h.number.2
  have hwire : ¬ wireNumber field.wire > 5 := by cases field.wire <;> decide
  have hback : (key field >>> 3).toUInt32 = field.number := by
    apply UInt32.toNat_inj.mp
    rw [UInt64.toNat_toUInt32, hnumber, Nat.mod_eq_of_lt field.number.toNat_lt]
  refine ⟨n, ?_⟩
  unfold fieldAt fieldBytes
  rw [append_assoc, decoded_encode]
  dsimp only
  rw [key_wire h, if_neg (by simp [hzero, hbig, hwire]), hback, wireOf_wireNumber,
    ← uleb128Size_eq, drop_left, uleb128Size_eq]
  exact hvalue

theorem fieldValue_ok {result : Field} {at_ : Nat} {rest after : List UInt8}
    (hvalue : field.value = 0) (hbytes : field.bytes = [])
    (h : fieldValue field at_ rest = .ok (result, n, after)) :
    result.number = field.number ∧ result.normal = result ∧
      (result.wire = .Fixed32 → result.value.toNat < 2 ^ 32) ∧ result.bytes.length < 2 ^ 64 ∧
      (valueBytes result).length + after.length ≤ rest.length + 10 := by
  unfold fieldValue at h
  cases hw : field.wire with
  | Varint =>
    rw [hw] at h
    dsimp only at h
    split_ifs at h with hok
    injection h with h
    injection h with ht h
    injection h with _ ha
    have hle := encodeLoop_le 10 result.value.toNat
    rw [← ha, length_drop, ← ht]
    refine ⟨rfl, by simp [Field.normal, hbytes], by simp, by simp [hbytes], ?_⟩
    unfold valueBytes
    dsimp only
    rw [← ht] at hle
    dsimp only at hle
    omega
  | Fixed64 =>
    rw [hw] at h
    dsimp only at h
    split_ifs at h with hlong
    cases h
    rw [length_drop]
    refine ⟨rfl, by simp [Field.normal, hbytes], by simp, by simp [hbytes], ?_⟩
    unfold valueBytes
    simp only [Binary.storeU64LE_length]
    omega
  | Fixed32 =>
    rw [hw] at h
    dsimp only at h
    split_ifs at h with hlong
    cases h
    rw [length_drop]
    refine ⟨rfl, by simp [Field.normal, hbytes], fun _ => ?_, by simp [hbytes], ?_⟩
    · rw [UInt32.toNat_toUInt64]
      exact UInt32.toNat_lt _
    unfold valueBytes
    simp only [Binary.storeU32LE_length]
    omega
  | Bytes =>
    rw [hw] at h
    dsimp only at h
    split_ifs at h with hok hlong
    injection h with h
    injection h with ht h
    injection h with _ ha
    rw [length_drop] at hlong
    have hlength : ((rest.drop (decoded rest).consumed).take (decoded rest).value.toNat).length =
        (decoded rest).value.toNat := by
      rw [length_take, length_drop]
      omega
    have hlt := (decoded rest).value.toNat_lt
    have hle := encodeLoop_le 10 (UInt64.ofNat result.bytes.length).toNat
    rw [← ha, length_drop, length_drop, ← ht]
    refine ⟨rfl, by simp [Field.normal, hvalue], by simp, by rw [hlength]; exact hlt, ?_⟩
    unfold valueBytes
    rw [← ht] at hle
    rw [hlength] at hle
    rw [length_append, hlength]
    omega
  | StartGroup | EndGroup =>
    rw [hw] at h
    cases h
    refine ⟨rfl, ?_, by simp [hw], by simp [hbytes], ?_⟩
    · obtain ⟨number, wire, value, bytes⟩ := field
      subst hw hvalue hbytes
      rfl
    · unfold valueBytes
      simp [hw]

structure Read (field : Field) (before after : Nat) : Prop where
  formed : Formed field
  normal : field.normal = field
  took : (fieldBytes field).length + after ≤ before + 15

theorem fieldAt_read {after : List UInt8} (h : fieldAt source = .ok (field, n, after)) :
    Read field source.length after.length := by
  unfold fieldAt at h
  dsimp only at h
  split_ifs at h with hkey
  simp only [not_or] at hkey
  obtain ⟨-, hzero, hbig, _⟩ := hkey
  obtain ⟨hnumber, hnormal, hfixed, hshort, htook⟩ := fieldValue_ok rfl rfl h
  rw [gt_iff_lt, UInt64.lt_iff_toNat_lt, not_lt] at hbig
  change _ ≤ 536870911 at hbig
  have hnat : field.number.toNat = ((decoded source).value >>> 3).toNat := by
    rw [hnumber]
    rw [UInt64.toNat_toUInt32]
    omega
  have hformed : Formed field := by
    refine ⟨⟨?_, hnat ▸ hbig⟩, hfixed, fun _ => hshort⟩
    intro hz
    rw [hz] at hnat
    exact hzero (UInt64.toNat_inj.mp hnat.symm)
  refine ⟨hformed, hnormal, ?_⟩
  have hkeySize : (encodeLoop 10 (key field).toNat).length ≤ 5 := by
    refine @encodeLoop_le_of_lt 4 _ 10 ?_
    have := key_toNat hformed
    have := wireNumber_lt field.wire
    omega
  rw [length_drop] at htook
  unfold fieldBytes
  rw [length_append]
  omega

theorem fieldAt_error {e : Failure} (h : fieldAt source = .error e) : e.2 ≠ .None := by
  suffices e.2 = .InvalidInput by
    rw [this]
    simp
  unfold fieldAt at h
  dsimp only at h
  split_ifs at h
  · injection h with h
    rw [← h]
  · unfold fieldValue at h
    split at h <;> (try dsimp only at h) <;> (try split_ifs at h) <;> cases h <;> rfl

theorem next_follows : Follows item accept id List.isEmpty grammar Eq where
  error := fieldAt_error
  admits := by
    intro tag rest after field n s c c' _ hs hpermit
    subst hs
    exact ⟨c', (permit_iff.mp hpermit).1, rfl⟩
  rejects := by
    intro tag rest after field n s c hitem hs hpermit hok
    subst hs
    have hpermit' := permit_iff.mpr
      ⟨(Prod.ext hok rfl : accept s field = (.None, (accept s field).2)), (fieldAt_read hitem).formed⟩
    rw [hpermit] at hpermit'
    cases hpermit'
  complete_iff := by
    intro s c hs
    subst hs
    exact isEmpty_iff

theorem encodeLoop_ne_nil (value : Nat) : encodeLoop 10 value ≠ [] := by
  rw [encodeLoop]
  split_ifs <;> exact cons_ne_nil _ _

theorem fieldBytes_ne_nil (field : Field) : fieldBytes field ≠ [] :=
  append_ne_nil_of_left_ne_nil (encodeLoop_ne_nil _) _

theorem read_fieldBytes (groups : List UInt32) (field : Field) (after : List UInt32)
    (rest : List UInt8) (h : grammar.permit groups field = some after) :
    readItem grammar item groups (fieldBytes field ++ rest) = some (field.normal, after, rest) := by
  obtain ⟨hok, hformed⟩ := permit_iff.mp h
  obtain ⟨n, hfield⟩ := fieldAt_bytes hformed rest
  have hpermit : grammar.permit groups field.normal = some after := by
    rw [permit_iff, accept_normal]
    exact ⟨hok, (fieldAt_read hfield).formed⟩
  obtain ⟨tag, tail, hcons⟩ := exists_cons_of_ne_nil
    (append_ne_nil_of_left_ne_nil (fieldBytes_ne_nil field) rest)
  rw [hcons] at hfield ⊢
  rw [readItem, item, hfield]
  dsimp only
  rw [hpermit]
  rfl

theorem writeUleb_fits {total : Nat} {value : UInt64}
    (h : output.length + (encodeLoop 10 value.toNat).length ≤ total) :
    writeUleb total output value = output ++ encodeLoop 10 value.toNat := by
  rw [uleb128Size_eq] at h
  rw [writeUleb, uleb128Encode, if_neg (by omega)]

theorem writeField_eq {total : Nat} (h : output.length + (fieldBytes field).length ≤ total) :
    writeField total output field = .ok (output ++ fieldBytes field) := by
  unfold fieldBytes at h ⊢
  rw [length_append] at h
  unfold writeField
  rw [writeUleb_fits (by omega), ← append_assoc]
  generalize hbefore : output ++ encodeLoop 10 (key field).toNat = before
  have hlength : before.length + (valueBytes field).length ≤ total := by
    rw [← hbefore, length_append]
    omega
  unfold valueBytes at hlength ⊢
  cases hw : field.wire with
  | Varint =>
    simp only [hw] at hlength
    dsimp only
    rw [writeUleb_fits hlength]
  | Fixed32 | Fixed64 =>
    simp only [hw] at hlength
    exact if_pos hlength
  | Bytes =>
    simp only [hw, length_append] at hlength
    dsimp only
    rw [writeUleb_fits (by omega), storeSlice, if_pos (by rw [length_append]; omega), append_assoc]
  | StartGroup | EndGroup => exact congrArg _ (append_nil _).symm

theorem fieldBytes_length (field : Field) :
    (fieldBytes field).length = uleb128Size (key field) + (valueBytes field).length := by
  rw [fieldBytes, length_append, uleb128Size_eq]

theorem valueBytes_string (h : field.wire = .Bytes) :
    (valueBytes field).length =
      uleb128Size (UInt64.ofNat field.bytes.length) + field.bytes.length := by
  unfold valueBytes
  rw [h]
  rw [length_append, uleb128Size_eq]

theorem number_checks (h : ¬ (field.number = 0 ∨ field.number > 536870911)) :
    field.number ≠ 0 ∧ field.number.toNat ≤ 536870911 := by
  rw [not_or, gt_iff_lt, UInt32.lt_iff_toNat_lt, not_lt] at h
  exact h

theorem measureField_sound (hw64 : w ≤ 64) (h : measureField w groups field = .ok (after, n)) :
    n = (fieldBytes field).length ∧ accept groups field = (.None, after) ∧ Formed field := by
  rw [fieldBytes_length]
  unfold measureField at h
  by_cases hnumber : field.number = 0 ∨ field.number > 536870911
  · rw [if_pos hnumber] at h
    cases h
  rw [if_neg hnumber] at h
  have hnum := number_checks hnumber
  unfold accept
  cases hw : field.wire with
  | Varint =>
    rw [hw] at h
    injection h with h
    injection h with ha hn
    refine ⟨?_, by rw [ha], hnum, by simp [hw], by simp [hw]⟩
    simp only [valueBytes, hw, uleb128Size_eq]
    exact hn.symm
  | Fixed32 =>
    rw [hw] at h
    dsimp only at h
    split_ifs at h with hbig
    injection h with h
    injection h with ha hn
    rw [gt_iff_lt, UInt64.lt_iff_toNat_lt, not_lt] at hbig
    refine ⟨?_, by rw [ha], hnum, fun _ => Nat.lt_succ_of_le hbig, by simp [hw]⟩
    simp only [valueBytes, hw, Binary.storeU32LE_length]
    exact hn.symm
  | Fixed64 =>
    rw [hw] at h
    injection h with h
    injection h with ha hn
    refine ⟨?_, by rw [ha], hnum, by simp [hw], by simp [hw]⟩
    simp only [valueBytes, hw, Binary.storeU64LE_length]
    exact hn.symm
  | Bytes =>
    rw [hw] at h
    dsimp only at h
    split_ifs at h with hlong
    injection h with h
    injection h with ha hn
    have hmax := maximum_le hw64
    refine ⟨?_, by rw [ha], hnum, by simp [hw], fun _ => by omega⟩
    rw [valueBytes_string hw]
    exact hn.symm
  | StartGroup =>
    rw [hw] at h
    dsimp only at h ⊢
    split_ifs at h with hfull
    injection h with h
    injection h with ha hn
    refine ⟨?_, by rw [if_neg hfull, ha], hnum, by simp [hw], by simp [hw]⟩
    simp only [valueBytes, hw]
    exact hn.symm
  | EndGroup =>
    rw [hw] at h
    cases groups with
    | nil => cases h
    | cons group outer =>
      dsimp only at h ⊢
      split_ifs at h with hother
      injection h with h
      injection h with ha hn
      refine ⟨?_, by rw [if_neg hother, ha], hnum, by simp [hw], by simp [hw]⟩
      simp only [valueBytes, hw]
      exact hn.symm

theorem measureField_passes (haccept : accept groups field = (.None, after)) (h : Formed field)
    (hfits : (fieldBytes field).length ≤ maximum w) :
    measureField w groups field = .ok (after, (fieldBytes field).length) := by
  have hnumber : ¬ (field.number = 0 ∨ field.number > 536870911) := by
    rw [not_or, gt_iff_lt, UInt32.lt_iff_toNat_lt, not_lt]
    exact h.number
  rw [fieldBytes_length] at hfits ⊢
  unfold measureField
  rw [if_neg hnumber]
  unfold accept at haccept
  cases hw : field.wire with
  | Varint =>
    rw [hw] at haccept
    injection haccept with _ ha
    simp only [valueBytes, hw, uleb128Size_eq, ha]
  | Fixed32 =>
    rw [hw] at haccept
    injection haccept with _ ha
    have hsmall : ¬ field.value > 0xffffffff := by
      rw [gt_iff_lt, UInt64.lt_iff_toNat_lt, not_lt]
      exact Nat.le_of_lt_succ (h.fixed hw)
    dsimp only
    rw [if_neg hsmall]
    simp only [valueBytes, hw, Binary.storeU32LE_length, ha]
  | Fixed64 =>
    rw [hw] at haccept
    injection haccept with _ ha
    simp only [valueBytes, hw, Binary.storeU64LE_length, ha]
  | Bytes =>
    rw [hw] at haccept
    injection haccept with _ ha
    rw [valueBytes_string hw] at hfits ⊢
    dsimp only
    rw [if_neg (by omega), ha]
  | StartGroup =>
    rw [hw] at haccept
    dsimp only at haccept ⊢
    split_ifs at haccept ⊢ with hfull
    · cases haccept
    · injection haccept with _ ha
      simp only [valueBytes, hw, ha, length_nil, add_zero]
  | EndGroup =>
    rw [hw] at haccept
    cases groups with
    | nil => cases haccept
    | cons group outer =>
      dsimp only at haccept ⊢
      split_ifs at haccept ⊢ with hother
      · cases haccept
      · injection haccept with _ ha
        simp only [valueBytes, hw, ha, length_nil, add_zero]

theorem encode_encodes (hw : w ≤ 64) :
    Encodes w (measureField w) List.isEmpty writeField fieldBytes grammar Eq where
  sound := by
    intro s s' c field n hs hstep
    subst hs
    obtain ⟨hn, haccept, hformed⟩ := measureField_sound hw hstep
    exact ⟨hn, s', permit_iff.mpr ⟨haccept, hformed⟩, rfl⟩
  admits := by
    intro s c c' field hs hpermit hfits
    subst hs
    obtain ⟨haccept, hformed⟩ := permit_iff.mp hpermit
    exact ⟨c', measureField_passes haccept hformed hfits, rfl⟩
  complete_iff := by
    intro s c hs
    subst hs
    exact isEmpty_iff
  write_fits _ _ h := writeField_eq h

theorem codec {w : Nat} (hw : w ≤ 64) :
    Codec w item accept id List.isEmpty (measureField w) List.isEmpty writeField fieldBytes Field.normal
      grammar Eq where
  follows := next_follows
  encodes := encode_encodes hw
  written _ := fieldBytes_ne_nil _
  reads hpermit _ := read_fieldBytes _ _ _ _ hpermit
  normal hitem := (fieldAt_read hitem).normal
  took _ hitem := by
    have htook := (fieldAt_read hitem).took
    rw [length_cons] at htook
    omega

/-- **Protobuf wire fields round-trip.**  What `encode` accepts fills exactly the block that was
measured and is read back, in normal form and to a clean end; what is read to a clean end is
accepted by `encode`, and its output reads as the same fields.  LEB128 and zigzag are inverse
to their decoders, and decoding LEB128 never overflows. -/
theorem fields_round_trip {w : Nat} (hw : w ≤ 64) :
    (∀ room fields result, encode w room fields = .ok result → result.ok = true →
      Ends next (reader result.value) (fields.map Field.normal) ∧
        ∃ groups, measure w (measureField w) fields 0 [] 0 = .ok (groups, result.value.length) ∧
          writeAll (writeField result.value.length) [] fields = .ok result.value) ∧
    (∀ source fields, Ends next (reader source) fields → Resident w source fields →
      ∃ output, Ends next (reader output) fields ∧ ∀ room, HasRoom room output.length →
          encode w room fields = .ok { value := output, ok := true }) ∧
    (∀ value room, uleb128Size value ≤ room → Binary.uleb128Decode (uleb128Encode room value) =
        .ok { value := value, consumed := uleb128Size value, ok := true }) ∧
    (∀ source, ∃ decode, Binary.uleb128Decode source = .ok decode) ∧
    (∀ value, unzigzag (zigzag value) = value) ∧ ∀ value, zigzag (unzigzag value) = value := by
  obtain ⟨hback, hthere⟩ := (codec hw).round_trips (rfl : [] = [])
  refine ⟨?_, hthere, ?_, ?_, unzigzag_zigzag, zigzag_unzigzag⟩
  · intro room fields result h hok
    obtain ⟨_, _, hmeasured⟩ := (encode_encodes hw).accepted rfl h hok
    exact ⟨hback room fields result h hok, hmeasured⟩
  · intro value room hroom
    rw [uleb128Encode, if_neg (Nat.not_lt.mpr hroom)]
    have h := Binary.uleb128Decode_encode value []
    rwa [append_nil] at h
  · intro source
    obtain ⟨decode, hdecode, _⟩ := Binary.uleb128Decode_ok source
    exact ⟨decode, hdecode⟩

/-- A group around a text, written and then read and written again. -/
theorem fields_round_trip_group : 64 ≤ 64 ∧ Ends next (reader [11, 18, 1, 97, 12])
    [{ number := 1, wire := .StartGroup }, { number := 2, wire := .Bytes, bytes := [97] },
      { number := 1, wire := .EndGroup }] ∧
    ∃ output, Ends next (reader output)
        [{ number := 1, wire := .StartGroup }, { number := 2, wire := .Bytes, bytes := [97] },
          { number := 1, wire := .EndGroup }] ∧
      ∀ room, HasRoom room output.length →
        encode 64 room [{ number := 1, wire := .StartGroup },
          { number := 2, wire := .Bytes, bytes := [97] },
          { number := 1, wire := .EndGroup }] = .ok { value := output, ok := true } := by
  obtain ⟨hback, hthere, -⟩ := fields_round_trip (le_refl 64)
  have hends := (hback (Mem.bufferRoom 5)
    [{ number := 1, wire := .StartGroup, value := 5 },
      { number := 2, wire := .Bytes, value := 3, bytes := [97] },
      { number := 1, wire := .EndGroup }]
    { value := [11, 18, 1, 97, 12], ok := true } (by decide +kernel) rfl).1
  exact ⟨le_rfl, hends, hthere _ _ hends (by unfold Resident; decide)⟩

end Dyn.Protobuf
