import Dyn.Encoding.Cbor

/-!
# std/encoding/cbor: tokens survive writing and reading
-/

namespace Dyn.Cbor

open List
open Mem (Panic Room maximum)
open Encoding
open Sequence (Grammar Reads)

/-- The count of an item of indefinite length is not used. -/
def Frame.erase (frame : Frame) : Frame :=
  if frame.indefinite then { frame with remaining := 0 } else frame

variable (frame : Frame) {frames frames' : List Frame} {token : Token} {tag : UInt8}
  {rest after : List UInt8} (promote : UInt32 → UInt64)

@[simp] theorem erase_kind : frame.erase.kind = frame.kind := by
  unfold Frame.erase
  split <;> rfl

@[simp] theorem erase_indefinite : frame.erase.indefinite = frame.indefinite := by
  unfold Frame.erase
  split <;> rfl

@[simp] theorem erase_odd : frame.erase.odd = frame.odd := by
  unfold Frame.erase
  split <;> rfl

theorem erase_counted {frame : Frame} (h : frame.indefinite = false) : frame.erase = frame := by
  unfold Frame.erase
  rw [h]
  rfl

@[simp] theorem erase_erase : frame.erase.erase = frame.erase := by
  cases h : frame.indefinite with
  | false => rw [erase_counted h, erase_counted h]
  | true =>
    unfold Frame.erase
    simp [h]

/-- Stacks that agree up to unused counts. -/
def Same (frames frames' : List Frame) : Prop :=
  frames.map Frame.erase = frames'.map Frame.erase

theorem same_cons {frame frame' : Frame} {outer outer' : List Frame} :
    Same (frame :: outer) (frame' :: outer') ↔ frame.erase = frame'.erase ∧ Same outer outer' := by
  unfold Same
  rw [map_cons, map_cons, cons.injEq]

theorem same_erase (frames : List Frame) : Same (frames.map Frame.erase) frames := by
  unfold Same
  rw [map_map]
  exact map_congr_left (fun frame _ => erase_erase frame)

theorem Same.length (h : Same frames frames') : frames.length = frames'.length := by
  have := congrArg List.length h
  rwa [length_map, length_map] at this

theorem erase_fields {frame frame' : Frame} (h : frame.erase = frame'.erase) :
    frame.kind = frame'.kind ∧ frame.indefinite = frame'.indefinite ∧ frame.odd = frame'.odd ∧
      (frame.indefinite = false → frame = frame') := by
  have hkind := congrArg Frame.kind h
  have hind := congrArg Frame.indefinite h
  have hodd := congrArg Frame.odd h
  rw [erase_kind, erase_kind] at hkind
  rw [erase_indefinite, erase_indefinite] at hind
  rw [erase_odd, erase_odd] at hodd
  refine ⟨hkind, hind, hodd, ?_⟩
  intro hfalse
  rw [erase_counted hfalse, erase_counted (hind ▸ hfalse)] at h
  exact h

theorem trim_same : ∀ {frames frames' : List Frame}, Same frames frames' →
    Same (trim frames) (trim frames')
  | [], [], _ => rfl
  | [], _ :: _, h => by cases h
  | _ :: _, [], h => by cases h
  | frame :: outer, frame' :: outer', h => by
    obtain ⟨hframe, houter⟩ := same_cons.mp h
    obtain ⟨_, hind, _, heq⟩ := erase_fields hframe
    have htest : (frame.indefinite = false ∧ frame.remaining = 0) ↔
        (frame'.indefinite = false ∧ frame'.remaining = 0) := by
      constructor
      · rintro ⟨hi, hr⟩
        rw [← heq hi]
        exact ⟨hi, hr⟩
      rintro ⟨hi, hr⟩
      rw [heq (hind.trans hi)]
      exact ⟨hi, hr⟩
    rw [trim, trim]
    split
    · rename_i hdone
      rw [if_pos (htest.mp hdone)]
      exact trim_same houter
    rename_i hdone
    rw [if_neg (fun hd => hdone (htest.mpr hd))]
    exact h

structure Alike (token token' : Token) : Prop where
  kind : token.kind = token'.kind
  indefinite : token.indefinite = token'.indefinite
  value : token.indefinite = false → token.kind = .Array ∨ token.kind = .Map →
    token.value = token'.value

variable {token' : Token} {n : Nat} {e : Failure} {source : List UInt8} {tokens : List Token}

theorem enter_same (h : Alike token token') :
    ∀ {frames frames' after : List Frame}, Same frames frames' → enter token frames = some after →
      ∃ after', enter token' frames' = some after' ∧ Same after after'
  | [], [], _, _, henter => ⟨[], rfl, by cases henter; rfl⟩
  | [], _ :: _, _, hs, _ => by cases hs
  | _ :: _, [], _, hs, _ => by cases hs
  | frame :: outer, frame' :: outer', after, hs, henter => by
    obtain ⟨hframe, houter⟩ := same_cons.mp hs
    obtain ⟨hkind, hind, hodd, heq⟩ := erase_fields hframe
    rw [enter] at henter ⊢
    rw [← h.kind, ← h.indefinite, ← hkind, ← hind]
    split_ifs at henter ⊢ with hstring hopen hmap
    · cases henter
      refine ⟨_, rfl, same_cons.mpr ⟨?_, houter⟩⟩
      simp [Frame.erase, hopen, hkind, hodd]
    · cases henter
      exact ⟨_, rfl, hs⟩
    cases henter
    have hfalse : frame.indefinite = false := by simpa using hopen
    rw [← heq hfalse]
    exact ⟨_, rfl, same_cons.mpr ⟨rfl, houter⟩⟩

theorem Alike.itemCount (h : Alike token token') (hind : token.indefinite = false)
    (hopen : token.kind = .Array ∨ token.kind = .Map ∨ token.kind = .Tag) :
    itemCount token = itemCount token' := by
  unfold Cbor.itemCount
  rw [← h.kind, ← h.indefinite]
  rcases hopen with harray | hmap | htag
  · rw [h.value hind (.inl harray)]
  · rw [h.value hind (.inr hmap)]
  · rw [if_pos htag, if_pos htag]

theorem begin_same (h : Alike token token') (hs : Same frames frames')
    (hok : (begin token frames).1 = .None) :
    (begin token' frames').1 = .None ∧ Same (begin token frames).2 (begin token' frames').2 := by
  unfold begin at hok ⊢
  rw [← h.kind, ← h.indefinite, ← hs.length]
  cases hind : token.indefinite with
  | true =>
    simp only [hind, true_or, if_true, Bool.true_eq_false, and_false, false_and, if_false] at hok ⊢
    split_ifs at hok ⊢ with hfull
    refine ⟨rfl, same_cons.mpr ⟨?_, hs⟩⟩
    simp [Frame.erase]
  | false =>
    simp only [hind, Bool.false_eq_true, false_or] at hok ⊢
    by_cases hopen : token.kind = .Array ∨ token.kind = .Map ∨ token.kind = .Tag
    · rw [if_pos hopen] at hok ⊢
      rw [if_pos hopen, ← h.itemCount hind hopen]
      have hmap : (token.kind = .Map ∧ True) ∧ token'.value.toNat > 0x7fffffffffffffff ↔
          (token.kind = .Map ∧ True) ∧ token.value.toNat > 0x7fffffffffffffff := by
        constructor
        · rintro ⟨hm, hv⟩
          rw [← h.value hind (.inr hm.1)] at hv
          exact ⟨hm, hv⟩
        rintro ⟨hm, hv⟩
        rw [h.value hind (.inr hm.1)] at hv
        exact ⟨hm, hv⟩
      simp only [hmap]
      split_ifs at hok ⊢
      · exact ⟨rfl, same_cons.mpr ⟨rfl, hs⟩⟩
      · exact ⟨rfl, hs⟩
    · rw [if_neg hopen, if_neg hopen]
      exact ⟨rfl, hs⟩

/-- **What `accept` does depends on stacks and tokens up to unused fields.** -/
theorem accept_same {token token' : Token} (h : Alike token token')
    (hform : malformed token = false → malformed token' = false) {frames frames' : List Frame}
    (hs : Same frames frames') (hok : (accept frames token).1 = .None) :
    (accept frames' token').1 = .None ∧ Same (accept frames token).2 (accept frames' token').2 := by
  have htrim := trim_same hs
  unfold accept at hok ⊢
  rw [← h.kind, ← h.indefinite]
  generalize trim frames = inner at htrim hok ⊢
  generalize trim frames' = inner' at htrim ⊢
  by_cases hend : token.kind = .End
  · simp only [if_pos hend] at hok ⊢
    cases inner with
    | nil => cases hok
    | cons frame outer =>
      cases inner' with
      | nil => cases htrim
      | cons frame' outer' =>
        obtain ⟨hframe, houter⟩ := same_cons.mp htrim
        obtain ⟨_, hind, hodd, _⟩ := erase_fields hframe
        dsimp only at hok ⊢
        rw [← hind, ← hodd]
        split_ifs at hok ⊢
        exact ⟨rfl, houter⟩
  simp only [if_neg hend] at hok ⊢
  cases hm : malformed token with
  | true => rw [hm] at hok; cases hok
  | false =>
    rw [hm] at hok
    rw [hform hm]
    cases henter : enter token inner with
    | none => rw [henter] at hok; cases hok
    | some after =>
      obtain ⟨after', henter', hafter⟩ := enter_same h htrim henter
      rw [henter] at hok
      rw [henter']
      exact begin_same h hafter hok

/-- Items that a stack still waits for: what is counted, and the ends. -/
def owed (frames : List Frame) : Nat :=
  (frames.map fun frame => if frame.indefinite then 1 else frame.remaining).sum

theorem owed_cons (outer : List Frame) :
    owed (frame :: outer) = (if frame.indefinite then 1 else frame.remaining) + owed outer := by
  rw [owed, map_cons, sum_cons, owed]

theorem owed_same (h : Same frames frames') : owed frames = owed frames' := by
  have herase : ∀ fs : List Frame, owed fs = owed (fs.map Frame.erase) := by
    intro fs
    induction fs with
    | nil => rfl
    | cons frame outer ih =>
      rw [map_cons, owed_cons, owed_cons, ih, erase_indefinite]
      cases hind : frame.indefinite with
      | true => rfl
      | false => rw [erase_counted hind]
  rw [herase frames, herase frames', h]

theorem owed_trim : ∀ frames : List Frame, owed (trim frames) = owed frames
  | [] => rfl
  | frame :: outer => by
    rw [trim]
    split_ifs with hdone
    · rw [owed_trim outer, owed_cons, hdone.1, hdone.2, if_neg Bool.false_ne_true, zero_add]
    · rfl

theorem enter_owed : ∀ {frames after : List Frame},
    enter token frames = some after → owed frames ≤ owed after + 1
  | [], _, h => by
    cases h
    exact Nat.zero_le _
  | frame :: outer, after, h => by
    rw [enter] at h
    split_ifs at h with hstring hopen hmap
    · cases h
      rw [owed_cons, owed_cons, if_pos hopen]
      omega
    · cases h
      omega
    cases h
    rw [owed_cons, owed_cons, if_neg hopen]
    dsimp only
    rw [if_neg hopen]
    omega

theorem begin_owed {token : Token} {frames : List Frame} :
    owed frames ≤ owed (begin token frames).2 := by
  unfold begin
  split_ifs <;> first | exact le_rfl | (rw [owed_cons]; exact Nat.le_add_left _ _)

theorem accept_owed (hok : (accept frames token).1 = .None) :
    owed frames ≤ owed (accept frames token).2 + 1 := by
  have htrim := owed_trim frames
  unfold accept at hok ⊢
  dsimp only at hok ⊢
  generalize trim frames = inner at htrim hok ⊢
  rw [← htrim]
  split_ifs at hok ⊢ with hend hform
  · cases inner with
    | nil => cases hok
    | cons frame outer =>
      dsimp only at hok ⊢
      split_ifs at hok ⊢ with hcheck
      rw [not_or, not_or] at hcheck
      have hopen : frame.indefinite = true := by simpa using hcheck.2.1
      rw [owed_cons, if_pos hopen]
      dsimp only
      omega
  cases henter : enter token inner with
  | none => rw [henter] at hok; cases hok
  | some after =>
    have hafter := enter_owed henter
    have hbegin := @begin_owed token after
    dsimp only
    omega

/-- The string of a token is no longer than its length field can say. -/
def Short (token : Token) : Prop :=
  token.kind = .Bytes ∨ token.kind = .Text → token.bytes.length < 2 ^ 64

instance (token : Token) : Decidable (Short token) :=
  inferInstanceAs (Decidable (token.kind = .Bytes ∨ token.kind = .Text →
    token.bytes.length < 2 ^ 64))

/-- The token sequences that `accept` lets through. -/
def grammar : Grammar (List Frame) Token where
  permit frames token :=
    if (accept frames token).1 = .None ∧ Short token then
      some ((accept frames token).2.map Frame.erase)
    else none
  closed frames := trim frames = []
  owed := owed
  owed_closed frames h := by
    rw [← owed_trim, h]
    rfl
  owed_permit frames token after h := by
    split_ifs at h with hacc
    injection h with h
    rw [← h, owed_same (same_erase _)]
    exact accept_owed hacc.1

theorem permit_iff {after : List Frame} :
    grammar.permit frames token = some after ↔ ((accept frames token).1 = .None ∧ Short token) ∧
        (accept frames token).2.map Frame.erase = after := by
  change (if _ then some _ else none) = some after ↔ _
  split_ifs with h
  · rw [Option.some.injEq]
    exact ⟨fun ha => ⟨h, ha⟩, fun ha => ha.2⟩
  constructor
  · intro ha
    cases ha
  · intro ha
    exact absurd ha.1 h

def tokenNumber (token : Token) : List UInt8 :=
  if token.kind = .Float then numberBytes token.real 8
  else if size token > 1 then numberBytes (argument token) (size token - 1)
  else []

def tokenString (token : Token) : List UInt8 :=
  if token.indefinite = false ∧ (token.kind = .Bytes ∨ token.kind = .Text) then token.bytes
  else []

def tokenTail (token : Token) : List UInt8 := tokenNumber token ++ tokenString token

def tokenBytes (token : Token) : List UInt8 := tagOf token :: tokenTail token

theorem tag_split {major info : UInt8} (hmajor : major.toNat < 8) (hinfo : info.toNat < 32) :
    (major <<< 5 ||| info) >>> 5 = major ∧ (major <<< 5 ||| info) &&& 31 = info := by
  have hall : ∀ m : Fin 8, ∀ i : Fin 32,
      (UInt8.ofNat m <<< 5 ||| UInt8.ofNat i) >>> 5 = UInt8.ofNat m ∧
        (UInt8.ofNat m <<< 5 ||| UInt8.ofNat i) &&& 31 = UInt8.ofNat i := by
    decide +kernel
  have := hall ⟨_, hmajor⟩ ⟨_, hinfo⟩
  simpa using this

theorem extra_cases (value : UInt64) :
    (extra value = 0 ∧ value.toNat < 24) ∨ (extra value = 1 ∧ value.toNat < 256 ^ 1) ∨
      (extra value = 2 ∧ value.toNat < 256 ^ 2) ∨ (extra value = 4 ∧ value.toNat < 256 ^ 4) ∨
      (extra value = 8 ∧ value.toNat < 256 ^ 8) := by
  have hlt := value.toNat_lt
  unfold extra
  split_ifs with h1 h2 h3 h4
  · exact .inl ⟨rfl, h1⟩
  · exact .inr (.inl ⟨rfl, Nat.lt_succ_of_le h2⟩)
  · exact .inr (.inr (.inl ⟨rfl, Nat.lt_succ_of_le h3⟩))
  · exact .inr (.inr (.inr (.inl ⟨rfl, Nat.lt_succ_of_le h4⟩)))
  · exact .inr (.inr (.inr (.inr ⟨rfl, hlt⟩)))

theorem head_wide {major info : UInt8} {count : Nat} {value : UInt64}
    (hmajor : major.toNat < 8) (hinfo : info.toNat = 24 + count) (hcount : count < 4)
    (hlt : value.toNat < 256 ^ (1 <<< count)) (rest : List UInt8) :
    head (major <<< 5 ||| info) (numberBytes value (1 <<< count) ++ rest) =
      .ok ({ kind := headKind major, value := value }, 1 + 1 <<< count, rest) := by
  obtain ⟨hm, hi⟩ := tag_split hmajor (show info.toNat < 32 by omega)
  have hn : 1 <<< count ≤ 8 := by interval_cases count <;> decide
  unfold head
  rw [hm, hi, if_neg, if_neg, if_pos]
  · dsimp only
    have hshift : info.toNat - 24 = count := by omega
    rw [hshift, take_append_of_le_length (by simp), take_of_length_le (by simp),
      if_neg (by simp), number_numberBytes hn hlt]
    rw [drop_append_of_le_length (by simp), drop_of_length_le (by simp)]
    rfl
  · rw [ge_iff_le, UInt8.le_iff_toNat_le]
    change 24 ≤ _
    omega
  · intro h
    rw [h] at hinfo
    change 31 = _ at hinfo
    omega
  · rintro ⟨h, _⟩
    rw [ge_iff_le, UInt8.le_iff_toNat_le] at h
    change 28 ≤ _ at h
    omega

theorem head_argument {major : UInt8} (hmajor : major.toNat < 8) (value : UInt64)
    (rest : List UInt8) :
    head (argumentTag (major <<< 5) value) (numberBytes value (extra value) ++ rest) =
        .ok ({ kind := headKind major, value := value }, 1 + extra value, rest) ∧
      argumentTag (major <<< 5) value >>> 5 = major ∧
      argumentTag (major <<< 5) value &&& 31 =
        (if extra value = 0 then value.toUInt8 else if extra value = 1 then 24
          else if extra value = 2 then 25 else if extra value = 4 then 26 else 27) := by
  unfold argumentTag
  rcases extra_cases value with ⟨he, hlt⟩ | ⟨he, hlt⟩ | ⟨he, hlt⟩ | ⟨he, hlt⟩ | ⟨he, hlt⟩
  · have hnat : value.toUInt8.toNat = value.toNat := by
      rw [UInt64.toNat_toUInt8]
      omega
    obtain ⟨hm, hi⟩ := tag_split hmajor (show value.toUInt8.toNat < 32 by omega)
    rw [he]
    refine ⟨?_, hm, hi⟩
    unfold head
    rw [if_pos rfl, hm, hi, if_neg, if_neg, if_neg]
    · have hback : value.toUInt8.toUInt64 = value := by
        apply UInt64.toNat_inj.mp
        rw [UInt8.toNat_toUInt64, hnat]
      rw [hback]
      rfl
    · rw [ge_iff_le, UInt8.le_iff_toNat_le, hnat]
      change ¬ 24 ≤ _
      omega
    · intro h
      rw [h] at hnat
      change 31 = _ at hnat
      omega
    · rintro ⟨h, _⟩
      rw [ge_iff_le, UInt8.le_iff_toNat_le, hnat] at h
      change 28 ≤ _ at h
      omega
  · obtain ⟨hm, hi⟩ := @tag_split major 24 hmajor (by decide)
    rw [he]
    exact ⟨@head_wide major 24 0 value hmajor rfl (by decide) hlt rest, hm, hi⟩
  · obtain ⟨hm, hi⟩ := @tag_split major 25 hmajor (by decide)
    rw [he]
    exact ⟨@head_wide major 25 1 value hmajor rfl (by decide) hlt rest, hm, hi⟩
  · obtain ⟨hm, hi⟩ := @tag_split major 26 hmajor (by decide)
    rw [he]
    exact ⟨@head_wide major 26 2 value hmajor rfl (by decide) hlt rest, hm, hi⟩
  · obtain ⟨hm, hi⟩ := @tag_split major 27 hmajor (by decide)
    rw [he]
    exact ⟨@head_wide major 27 3 value hmajor rfl (by decide) hlt rest, hm, hi⟩

/-- A kind that is written as a major type and an argument. -/
def hasArgument : Kind → Bool
  | .End | .Bool | .Null | .Undefined | .Float => false
  | _ => true

theorem tagOf_argument (hkind : hasArgument token.kind = true) (hind : token.indefinite = false) :
    tagOf token = argumentTag (kindMajor token.kind <<< 5) (argument token) := by
  unfold tagOf
  rw [hind]
  revert hkind
  cases token.kind <;> simp [hasArgument]

theorem size_argument (hkind : hasArgument token.kind = true) (hind : token.indefinite = false) :
    size token = 1 + extra (argument token) := by
  unfold size
  rw [hind]
  revert hkind
  cases token.kind <;> simp [hasArgument]

theorem tokenTail_argument (hkind : hasArgument token.kind = true) (hind : token.indefinite = false) :
    tokenTail token = numberBytes (argument token) (extra (argument token)) ++
      if token.kind = .Bytes ∨ token.kind = .Text then token.bytes else [] := by
  have hfloat : token.kind ≠ .Float := by
    intro h
    rw [h] at hkind
    cases hkind
  have hnumber : (if 1 + extra (argument token) > 1 then
      numberBytes (argument token) (1 + extra (argument token) - 1) else []) =
        numberBytes (argument token) (extra (argument token)) := by
    split_ifs with hpos
    · rw [Nat.add_sub_cancel_left]
    have hzero : extra (argument token) = 0 := by omega
    rw [hzero]
    rfl
  rw [tokenTail, tokenNumber, tokenString, size_argument hkind hind, if_neg hfloat, hnumber, hind]
  simp only [true_and]

theorem item_plain {promote : UInt32 → UInt64} (hhead : head tag rest = .ok (token, n, after))
    (hmajor : tag >>> 5 ≠ 7) : item promote tag rest = payload token n after := by
  unfold item
  rw [hhead]
  exact if_neg (fun h => hmajor h.1)

theorem payload_other (h : token.indefinite = true ∨ (token.kind ≠ .Bytes ∧ token.kind ≠ .Text ∧
      token.kind ≠ .Array ∧ token.kind ≠ .Map)) : payload token n rest = .ok (token, n, rest) := by
  unfold payload
  rcases h with h | ⟨hb, ht, ha, hm⟩
  · simp [h]
  · simp [hb, ht, ha, hm]

/-- What the reader's look-ahead asks of the bytes behind a container. -/
def Covered (token : Token) (rest : List UInt8) : Prop :=
  token.indefinite = false → (token.kind = .Array → token.value.toNat ≤ rest.length) ∧
    (token.kind = .Map → token.value.toNat * 2 ≤ rest.length)

structure Written (token : Token) : Prop where
  formed : token.kind ≠ .End → malformed token = false
  closed : token.kind = .End → token.indefinite = false
  short : Short token

theorem Written.indefinite (h : Written token)
    (hkind : token.kind ≠ .Array ∧ token.kind ≠ .Map ∧ token.kind ≠ .Bytes ∧ token.kind ≠ .Text) :
    token.indefinite = false := by
  by_cases hend : token.kind = .End
  · exact h.closed hend
  have hform := h.formed hend
  cases hind : token.indefinite with
  | false => rfl
  | true => simp [malformed, hind, hkind] at hform

/-- A definite token below major type 7, up to what `payload` makes of it. -/
theorem item_argument (rest : List UInt8) (hmajor : (kindMajor token.kind).toNat < 7)
    (hind : token.indefinite = false) :
    item promote (tagOf token) (tokenTail token ++ rest) =
      payload { kind := token.kind, value := argument token } (1 + extra (argument token))
        ((if token.kind = .Bytes ∨ token.kind = .Text then token.bytes else []) ++ rest) := by
  obtain ⟨hback, hkind⟩ : headKind (kindMajor token.kind) = token.kind ∧
      hasArgument token.kind = true := by
    revert hmajor
    cases token.kind <;> decide
  rw [tokenTail_argument hkind hind, tagOf_argument hkind hind, append_assoc]
  obtain ⟨hhead, hm, _⟩ := head_argument (show (kindMajor token.kind).toNat < 8 by omega)
    (argument token) ((if token.kind = .Bytes ∨ token.kind = .Text then token.bytes else []) ++ rest)
  rw [item_plain hhead, hback]
  rw [hm]
  intro h
  rw [h] at hmajor
  exact absurd hmajor (by decide)

theorem argument_value (h : token.kind ≠ .Bytes ∧ token.kind ≠ .Text) :
    argument token = token.value := if_neg (by simp [h])

theorem item_value (rest : List UInt8) (hmajor : (kindMajor token.kind).toNat < 7)
    (hstring : ¬ (token.kind = .Bytes ∨ token.kind = .Text)) (hind : token.indefinite = false) :
    item promote (tagOf token) (tokenTail token ++ rest) =
      payload token.normal (1 + extra token.value) rest := by
  have hnormal : token.normal = { kind := token.kind, value := token.value } := by
    revert hmajor hstring
    unfold Token.normal
    cases token.kind <;> simp [hind, kindMajor]
  have harg : argument token = token.value := if_neg hstring
  rw [item_argument promote rest hmajor hind, if_neg hstring, harg, hnormal, nil_append]

theorem item_string (rest : List UInt8) (hkind : token.kind = .Bytes ∨ token.kind = .Text)
    (hind : token.indefinite = false) (hshort : token.bytes.length < 2 ^ 64) :
    ∃ n, item promote (tagOf token) (tokenTail token ++ rest) = .ok (token.normal, n, rest) := by
  have harg : argument token = UInt64.ofNat token.bytes.length := if_pos hkind
  have hnat : (UInt64.ofNat token.bytes.length).toNat = token.bytes.length := by
    rw [UInt64.toNat_ofNat', Nat.mod_eq_of_lt hshort]
  have hnormal : token.normal = { kind := token.kind, bytes := token.bytes } := by
    unfold Token.normal
    rw [hind]
    rcases hkind with h | h <;> simp [h]
  have hmajor : (kindMajor token.kind).toNat < 7 := by rcases hkind with h | h <;> rw [h] <;> decide
  refine ⟨1 + extra (argument token) + token.bytes.length, ?_⟩
  rw [item_argument promote rest hmajor hind, if_pos hkind, harg, hnormal]
  unfold payload
  rw [if_pos ⟨rfl, hkind⟩]
  rw [hnat, if_neg (by rw [length_append]; omega), take_left, drop_left]

theorem item_container (rest : List UInt8) (hkind : token.kind = .Array ∨ token.kind = .Map)
    (hind : token.indefinite = false) (hcover : Covered token rest) :
    ∃ n, item promote (tagOf token) (tokenTail token ++ rest) = .ok (token.normal, n, rest) := by
  have hstring : ¬ (token.kind = .Bytes ∨ token.kind = .Text) := by
    rcases hkind with h | h <;> simp [h]
  have hmajor : (kindMajor token.kind).toNat < 7 := by rcases hkind with h | h <;> rw [h] <;> decide
  have hnormal : token.normal = { kind := token.kind, value := token.value } := by
    unfold Token.normal
    rw [hind]
    rcases hkind with h | h <;> simp [h]
  refine ⟨1 + extra token.value, ?_⟩
  rw [item_value promote rest hmajor hstring hind, hnormal]
  unfold payload
  rw [if_neg (fun h => hstring h.2), if_pos ⟨rfl, hkind⟩, if_neg]
  obtain ⟨harray, hmap⟩ := hcover hind
  dsimp only
  rcases hkind with h | h
  · have := harray h
    rw [if_neg (by simp [h])]
    omega
  have := hmap h
  rw [if_pos h]
  omega

theorem item_simple (rest : List UInt8) (hkind : token.kind = .Simple) (hwritten : Written token) :
    ∃ n, item promote (tagOf token) (tokenTail token ++ rest) = .ok (token.normal, n, rest) := by
  have hind := hwritten.indefinite (by simp [hkind])
  have harg : argument token = token.value := argument_value (by simp [hkind])
  have hhas : hasArgument token.kind = true := by rw [hkind]; rfl
  have hrange : token.value.toNat < 20 ∨ (32 ≤ token.value.toNat ∧ token.value.toNat < 256) := by
    have hform := hwritten.formed (by simp [hkind])
    simp only [malformed, hkind, hind, Bool.false_and, Bool.false_or, beq_self_eq_true,
      Bool.true_and, Bool.or_eq_false_iff, Bool.and_eq_false_iff, decide_eq_false_iff_not,
      gt_iff_lt, ge_iff_le, UInt64.lt_iff_toNat_lt, UInt64.le_iff_toNat_le] at hform
    have hchecks := hform.1.1
    change ¬ 255 < _ ∧ (¬ 20 ≤ _ ∨ ¬ _ ≤ 31) at hchecks
    omega
  have hnormal : token.normal = { kind := .Simple, value := token.value } := by
    unfold Token.normal
    rw [hkind]
  obtain ⟨hhead, hm, hi⟩ := head_argument (show (7 : UInt8).toNat < 8 by decide) token.value rest
  refine ⟨1 + extra token.value, ?_⟩
  rw [tokenTail_argument hhas hind, tagOf_argument hhas hind, hkind, harg, hnormal,
    if_neg (by simp), append_nil]
  unfold item
  rw [show kindMajor .Simple = 7 from rfl, hhead, hm, hi]
  rcases hrange with hsmall | hlarge
  · have hextra : extra token.value = 0 := by
      unfold extra
      rw [if_pos (UInt64.lt_iff_toNat_lt.mpr (show token.value.toNat < 24 by omega))]
    have hnat : token.value.toUInt8.toNat = token.value.toNat := by
      rw [UInt64.toNat_toUInt8]
      omega
    have hne : ∀ n : UInt8, 20 ≤ n.toNat → token.value.toUInt8 ≠ n := by
      intro n hn h
      rw [h] at hnat
      omega
    have hle : token.value.toUInt8 ≤ 24 := by
      rw [UInt8.le_iff_toNat_le, hnat]
      change _ ≤ 24
      omega
    rw [hextra]
    simp only [if_true, hne 31 (by decide), ne_eq, not_false_eq_true, and_self]
    unfold special
    simp only [hne 20 (by decide), hne 21 (by decide), hne 22 (by decide), hne 23 (by decide),
      hne 24 (by decide), hle, or_self, if_false, if_true, false_and]
    rfl
  have hextra : extra token.value = 1 := by
    rcases extra_cases token.value with h | h | h | h | h
    · omega
    · exact h.1
    all_goals
      have hlt : ¬ token.value < 24 := by
        rw [UInt64.lt_iff_toNat_lt]
        change ¬ _ < 24
        omega
      have hle : token.value ≤ 255 := by
        rw [UInt64.le_iff_toNat_le]
        change _ ≤ 255
        omega
      unfold extra
      rw [if_neg hlt, if_pos hle]
  have hlt : ¬ token.value < 32 := by
    rw [UInt64.lt_iff_toNat_lt]
    change ¬ _ < 32
    omega
  rw [hextra]
  simp [special, hlt, payload]

/-- **A written token is read back,** with as many bytes behind it as it announces. -/
theorem item_tokenBytes (rest : List UInt8) (hwritten : Written token) (hcover : Covered token rest) :
    ∃ n, item promote (tagOf token) (tokenTail token ++ rest) = .ok (token.normal, n, rest) := by
  cases hind : token.indefinite with
  | true =>
    have hkind : token.kind = .Array ∨ token.kind = .Map ∨ token.kind = .Bytes ∨
        token.kind = .Text := by
      by_contra hk
      simp only [not_or] at hk
      rw [hwritten.indefinite hk] at hind
      cases hind
    have htail : tokenTail token = [] := by
      unfold tokenTail tokenNumber tokenString size
      rw [hind]
      rcases hkind with h | h | h | h <;> simp [h]
    have hbytes : token.kind = .Bytes ∨ token.kind = .Text → token.bytes = [] := by
      intro hk
      have hform := hwritten.formed (by rcases hk with h | h <;> simp [h])
      rcases hk with h | h <;> simp [malformed, hind, h] at hform
      · exact hform
      · exact hform.2
    refine ⟨1, ?_⟩
    rw [htail, nil_append]
    unfold tagOf Token.normal
    rw [hind]
    rcases hkind with h | h | h | h
    · rw [h]
      exact (item_plain (show head 159 rest = _ from rfl) (by decide)).trans (payload_other (.inl rfl))
    · rw [h]
      exact (item_plain (show head 191 rest = _ from rfl) (by decide)).trans (payload_other (.inl rfl))
    · rw [h, hbytes (.inl h)]
      exact (item_plain (show head 95 rest = _ from rfl) (by decide)).trans (payload_other (.inl rfl))
    · rw [h, hbytes (.inr h)]
      exact (item_plain (show head 127 rest = _ from rfl) (by decide)).trans (payload_other (.inl rfl))
  | false =>
    cases hkind : token.kind with
    | Unsigned | Negative | Tag =>
      refine ⟨1 + extra token.value, ?_⟩
      rw [item_value promote rest (by rw [hkind]; decide) (by simp [hkind]) hind]
      exact payload_other (.inr (by simp [Token.normal, hkind]))
    | Bytes => exact item_string promote rest (.inl hkind) hind (hwritten.short (.inl hkind))
    | Text => exact item_string promote rest (.inr hkind) hind (hwritten.short (.inr hkind))
    | Array => exact item_container promote rest (.inl hkind) hind hcover
    | Map => exact item_container promote rest (.inr hkind) hind hcover
    | Simple => exact item_simple promote rest hkind hwritten
    | Bool =>
      refine ⟨1, ?_⟩
      cases hbool : token.boolean <;>
        simp [tokenTail, tokenNumber, tokenString, size, tagOf, Token.normal, hkind, hbool] <;> rfl
    | Null | Undefined | End =>
      refine ⟨1, ?_⟩
      simp [tokenTail, tokenNumber, tokenString, size, tagOf, Token.normal, hkind]
      rfl
    | Float =>
      refine ⟨9, ?_⟩
      have hhead : head 251 (numberBytes token.real 8 ++ rest) =
          .ok ({ value := token.real }, 9, rest) :=
        @head_wide 7 27 3 token.real (by decide) rfl (by decide) token.real.toNat_lt rest
      simp [tokenTail, tokenNumber, tokenString, tagOf, Token.normal, hkind]
      unfold item
      rw [hhead]
      rfl

/-- What `head` can give: an end, the start of an indefinite item, or a kind and a number. -/
theorem head_cases (h : head tag rest = .ok (token, n, after)) :
    after.length ≤ rest.length ∧ ((tag &&& 31 = 31 ∧ token = { kind := .End }) ∨
        (∃ kind, tag &&& 31 = 31 ∧ (kind = .Bytes ∨ kind = .Text ∨ kind = .Array ∨ kind = .Map) ∧
          token = { kind := kind, indefinite := true }) ∨
        ∃ value, tag &&& 31 ≠ 31 ∧ token = { kind := headKind (tag >>> 5), value := value }) := by
  unfold head at h
  dsimp only at h
  split_ifs at h with hinfo h31 h255 hind h24 hshort
  · cases h
    exact ⟨le_rfl, .inl ⟨h31, rfl⟩⟩
  · cases h
    refine ⟨le_rfl, .inr (.inl ⟨_, h31, ?_, rfl⟩)⟩
    have hmajor : ∀ m : Fin 256, 2 ≤ UInt8.ofNat m → UInt8.ofNat m ≤ 5 →
        headKind (UInt8.ofNat m) = .Bytes ∨ headKind (UInt8.ofNat m) = .Text ∨
          headKind (UInt8.ofNat m) = .Array ∨ headKind (UInt8.ofNat m) = .Map := by
      decide +kernel
    have := hmajor ⟨(tag >>> 5).toNat, (tag >>> 5).toNat_lt⟩
    simp only [UInt8.ofNat_toNat] at this
    exact this hind.1 hind.2
  · cases h
    refine ⟨?_, .inr (.inr ⟨_, h31, rfl⟩)⟩
    rw [length_drop]
    exact Nat.sub_le _ _
  · cases h
    exact ⟨le_rfl, .inr (.inr ⟨_, h31, rfl⟩)⟩

/-- A token as the reader makes it: in normal form, no longer than the bytes it took. -/
structure Read (token : Token) (before after : Nat) : Prop where
  normal : token.normal = token
  short : token.bytes.length < 2 ^ 64
  took : token.bytes.length + after ≤ before

theorem payload_read {result : Token} {m : Nat}
    (hnormal : token.kind ≠ .Bytes → token.kind ≠ .Text → token.normal = token)
    (hbytes : token.bytes = []) (hind : token.indefinite = true → token.normal = token)
    (hreal : token.real = 0 ∧ token.boolean = false ∨ token.kind ≠ .Bytes ∧ token.kind ≠ .Text)
    (h : payload token n rest = .ok (result, m, after)) : Read result rest.length after.length := by
  have hlt := token.value.toNat_lt
  unfold payload at h
  dsimp only at h
  generalize (if token.kind = .Map then rest.length / 2 else rest.length) = available at h
  split_ifs at h with hstring hlong hcontainer hmany
  · cases h
    have hle : token.value.toNat ≤ rest.length := by omega
    have hlength : (rest.take token.value.toNat).length = token.value.toNat := by
      rw [length_take, Nat.min_eq_left hle]
    refine ⟨?_, ?_, ?_⟩
    · obtain ⟨-, hkind⟩ := hstring
      rcases hreal with ⟨hr, hb⟩ | hne
      · rcases hkind with hk | hk <;> simp [Token.normal, hk, hr, hb]
      rcases hkind with hk | hk
      · exact absurd hk hne.1
      · exact absurd hk hne.2
    · rw [hlength]
      exact hlt
    · rw [hlength, length_drop]
      omega
  all_goals
    cases h
    refine ⟨?_, by rw [hbytes]; decide, by rw [hbytes, length_nil, zero_add]⟩
  · rcases hcontainer.2 with hk | hk <;> exact hnormal (by simp [hk]) (by simp [hk])
  cases hi : token.indefinite with
  | true => exact hind hi
  | false =>
    rw [not_and, not_or] at hstring
    obtain ⟨hb, ht'⟩ := hstring hi
    exact hnormal hb ht'

theorem special_normal {promote : UInt32 → UInt64} {info : UInt8} {value : UInt64}
    (h : special promote info { value := value } = some token) :
    token.normal = token ∧ token.bytes = [] ∧ token.kind ≠ .Bytes ∧ token.kind ≠ .Text := by
  unfold special at h
  split_ifs at h <;> injection h with h <;> rw [← h] <;> simp [Token.normal]

theorem headKind_normal {major : UInt8} {value : UInt64} (hb : headKind major ≠ .Bytes)
    (ht : headKind major ≠ .Text) :
    ({ kind := headKind major, value := value } : Token).normal =
      { kind := headKind major, value := value } := by
  have hkinds : headKind major = .Unsigned ∨ headKind major = .Negative ∨
      headKind major = .Bytes ∨ headKind major = .Text ∨ headKind major = .Array ∨
      headKind major = .Map ∨ headKind major = .Tag := by
    unfold headKind majorKind
    split_ifs
    · split <;> simp
    · simp
  rcases hkinds with h | h | h | h | h | h | h
  case inr.inr.inl => exact absurd h hb
  case inr.inr.inr.inl => exact absurd h ht
  all_goals
    rw [h]
    rfl

theorem item_read {promote : UInt32 → UInt64} (h : item promote tag rest = .ok (token, n, after)) :
    Read token rest.length after.length := by
  unfold item at h
  cases hhead : head tag rest with
  | error e => rw [hhead] at h; cases h
  | ok r =>
    obtain ⟨first, m, mid⟩ := r
    rw [hhead] at h
    dsimp only at h
    obtain ⟨hmid, hcases⟩ := head_cases hhead
    suffices Read token mid.length after.length from
      ⟨this.normal, this.short, le_trans this.took hmid⟩
    rcases hcases with ⟨hinfo, rfl⟩ | ⟨kind, hinfo, hkind, rfl⟩ | ⟨value, hinfo, rfl⟩
    · rw [if_neg (fun hc => hc.2 hinfo)] at h
      exact payload_read (fun _ _ => rfl) rfl (fun _ => rfl) (.inl ⟨rfl, rfl⟩) h
    · rw [if_neg (fun hc => hc.2 hinfo)] at h
      refine payload_read (fun hb ht => ?_) rfl (fun _ => ?_) (.inl ⟨rfl, rfl⟩) h <;>
        rcases hkind with hk | hk | hk | hk <;> subst hk <;> rfl
    by_cases h7 : tag >>> 5 = 7
    · rw [if_pos ⟨h7, hinfo⟩, h7] at h
      cases hspecial : special promote (tag &&& 31) { value := value } with
      | none => erw [hspecial] at h; cases h
      | some result =>
        erw [hspecial] at h
        obtain ⟨hnormal, hbytes, hb, ht⟩ := special_normal hspecial
        exact payload_read (fun _ _ => hnormal) hbytes (fun _ => hnormal) (.inr ⟨hb, ht⟩) h
    · rw [if_neg (fun hc => h7 hc.1)] at h
      exact payload_read (fun hb ht => headKind_normal hb ht) rfl nofun (.inl ⟨rfl, rfl⟩) h

theorem permit_same {after : List Frame} (hs : Same frames frames')
    (h : grammar.permit frames' token = some after) :
    (accept frames token).1 = .None ∧ Same (accept frames token).2 after := by
  obtain ⟨⟨hok, _⟩, hafter⟩ := permit_iff.mp h
  obtain ⟨hok', hsame⟩ := accept_same ⟨rfl, rfl, fun _ _ => rfl⟩ id hs.symm hok
  refine ⟨hok', ?_⟩
  rw [← hafter]
  exact hsame.symm.trans (same_erase _).symm

theorem head_error (h : head tag rest = .error e) : e.2 = .InvalidInput := by
  unfold head at h
  dsimp only at h
  split_ifs at h <;> injection h with h <;> rw [← h]

theorem payload_error (h : payload token n rest = .error e) : e.2 = .InvalidInput := by
  unfold payload at h
  dsimp only at h
  generalize (if token.kind = .Map then rest.length / 2 else rest.length) = available at h
  split_ifs at h <;> injection h with h <;> rw [← h]

theorem item_error {promote : UInt32 → UInt64} (h : item promote tag rest = .error e) :
    e.2 = .InvalidInput := by
  unfold item at h
  cases hhead : head tag rest with
  | error e' =>
    rw [hhead] at h
    cases h
    exact head_error hhead
  | ok r =>
    obtain ⟨token, n, mid⟩ := r
    rw [hhead] at h
    dsimp only at h
    split_ifs at h
    · cases hspecial : special promote (tag &&& 31) token with
      | none =>
        rw [hspecial] at h
        injection h with h
        rw [← h]
      | some token' =>
        rw [hspecial] at h
        exact payload_error h
    · exact payload_error h

theorem permit_none (hs : Same frames frames') (hshort : Short token)
    (h : grammar.permit frames' token = none) : (accept frames token).1 ≠ .None := by
  intro hok
  obtain ⟨hok', _⟩ := accept_same ⟨rfl, rfl, fun _ _ => rfl⟩ id hs hok
  rw [permit_iff.mpr ⟨⟨hok', hshort⟩, rfl⟩] at h
  cases h

theorem closed_same (hs : Same frames frames') :
    closedItems (trim frames) = true ↔ grammar.closed frames' := by
  have htrim := trim_same hs
  change (trim frames).isEmpty = true ↔ trim frames' = []
  rw [List.isEmpty_iff]
  constructor
  · intro h
    rw [h] at htrim
    exact map_eq_nil_iff.mp htrim.symm
  intro h
  rw [h] at htrim
  exact map_eq_nil_iff.mp htrim

theorem next_follows :
    Follows (item promote) accept trim closedItems grammar Same where
  error h := by
    rw [item_error h]
    simp
  admits := by
    intro tag rest after token n frames inner inner' _ hs hpermit
    obtain ⟨hok, hsame⟩ := permit_same hs hpermit
    exact ⟨_, Prod.ext hok rfl, hsame⟩
  rejects hitem hs hpermit := permit_none hs (fun _ => (item_read hitem).short) hpermit
  complete_iff hs := closed_same hs

theorem accept_written (hok : (accept frames token).1 = .None) (hshort : Short token) :
    Written token := by
  unfold accept at hok
  refine ⟨?_, ?_, hshort⟩
  · intro hend
    rw [if_neg hend] at hok
    cases hm : malformed token with
    | false => rfl
    | true =>
      rw [hm] at hok
      cases hok
  intro hend
  rw [if_pos hend] at hok
  cases htrim : trim frames with
  | nil => rw [htrim] at hok; cases hok
  | cons frame outer =>
    rw [htrim] at hok
    dsimp only at hok
    split_ifs at hok with hcheck
    rw [not_or] at hcheck
    simpa using hcheck.1

theorem normal_alike (token : Token) (hwritten : Written token) : Alike token token.normal := by
  have hind := hwritten.indefinite
  refine ⟨?_, ?_, ?_⟩
  · unfold Token.normal
    cases hkind : token.kind <;> rfl
  · unfold Token.normal
    cases hkind : token.kind <;> simp [hkind] at hind ⊢ <;> exact hind
  intro hfalse hcontainer
  unfold Token.normal
  rcases hcontainer with hkind | hkind <;> simp [hkind, hfalse]

theorem normal_formed (h : malformed token = false) : malformed token.normal = false := by
  unfold Token.normal
  cases hkind : token.kind <;> simp [malformed, hkind] at h ⊢ <;> first | exact h | exact h.2

/-- The container that a token opens asks for the items it announces. -/
theorem covered_of_owed {after : List Frame} (h : grammar.permit frames token = some after)
    (howed : owed after ≤ rest.length) : Covered token rest := by
  intro hind
  obtain ⟨⟨hok, _⟩, hafter⟩ := permit_iff.mp h
  suffices token.kind = .Array ∨ token.kind = .Map → itemCount token ≤ owed after by
    refine ⟨fun harray => ?_, fun hmap => ?_⟩
    · have := this (.inl harray)
      simp only [itemCount, harray, reduceCtorEq, if_false, false_and] at this
      omega
    have := this (.inr hmap)
    simp only [itemCount, hmap, hind, reduceCtorEq, if_false, and_self, if_true] at this
    omega
  intro hkind
  rw [← hafter, owed_same (same_erase _)]
  have hend : token.kind ≠ .End := by rcases hkind with hk | hk <;> simp [hk]
  unfold accept at hok ⊢
  rw [if_neg hend] at hok ⊢
  split_ifs at hok ⊢
  cases henter : enter token (trim frames) with
  | none => rw [henter] at hok; cases hok
  | some inner =>
    rw [henter] at hok
    dsimp only at hok ⊢
    unfold begin at hok ⊢
    have hopen : token.indefinite = true ∨ token.kind = .Array ∨ token.kind = .Map ∨
        token.kind = .Tag := by
      rcases hkind with hk | hk <;> simp [hk]
    rw [if_pos hopen] at hok ⊢
    split_ifs at hok ⊢ with _ hcount hfull
    · rw [owed_cons]
      simp only [hind, Bool.false_eq_true, if_false]
      omega
    · rw [not_or, not_not] at hcount
      omega

theorem read_tokenBytes (frames : List Frame) (token : Token) (after : List Frame)
    (rest : List UInt8) (h : grammar.permit frames token = some after)
    (howed : grammar.owed after ≤ rest.length) :
    readItem grammar (item promote) frames (tokenBytes token ++ rest) =
      some (token.normal, after, rest) := by
  obtain ⟨⟨hok, hshort⟩, hafter⟩ := permit_iff.mp h
  have hwritten := accept_written hok hshort
  obtain ⟨n, hitem⟩ := item_tokenBytes promote rest hwritten (covered_of_owed h howed)
  obtain ⟨hok', hsame⟩ := accept_same (normal_alike token hwritten)
    (fun hform => normal_formed hform) (rfl : Same frames frames) hok
  have hread := item_read hitem
  rw [tokenBytes, cons_append, readItem, hitem]
  dsimp only
  rw [permit_iff.mpr ⟨⟨hok', fun _ => hread.short⟩, hsame.symm.trans hafter⟩]
  rfl

theorem tokenNumber_length (hwritten : Written token) :
    (tokenNumber token).length + 1 = size token := by
  have hpos : 1 ≤ size token := by
    unfold size
    split_ifs <;> omega
  unfold tokenNumber
  split_ifs with hfloat hlong
  · have hind := hwritten.indefinite (by simp [hfloat])
    rw [numberBytes_length, size, if_neg (by simp [hind, hfloat]), if_pos hfloat]
  · rw [numberBytes_length]
    omega
  · rw [length_nil]
    omega

theorem tokenBytes_length (hwritten : Written token) :
    (tokenBytes token).length = weight token := by
  have hnumber := tokenNumber_length hwritten
  unfold tokenBytes tokenTail tokenString weight
  rw [length_cons, length_append]
  by_cases hstring : token.kind = .Bytes ∨ token.kind = .Text
  · rw [if_pos hstring]
    cases hind : token.indefinite with
    | false =>
      simp only [hstring, and_self, if_true]
      omega
    | true =>
      have hform := hwritten.formed (by rcases hstring with h | h <;> simp [h])
      have hnil : token.bytes = [] := by
        rcases hstring with h | h <;> simp [malformed, hind, h] at hform
        · exact hform
        · exact hform.2
      simp only [hnil, ite_self, length_nil]
      omega
  · rw [if_neg (fun h => hstring h.2), if_neg hstring, length_nil]
    omega

theorem writeToken_eq {total : Nat} {output : List UInt8}
    (h : output.length + (tokenBytes token).length ≤ total) :
    writeToken total output token = .ok (output ++ tokenBytes token) := by
  have hlength : (tokenBytes token).length =
      1 + ((tokenNumber token).length + (tokenString token).length) := by
    rw [tokenBytes, tokenTail, length_cons, length_append, add_comm]
  have htag : store total output (tagOf token) = .ok (output ++ [tagOf token]) :=
    if_pos (by omega)
  have hnumber : writeNumber total (output ++ [tagOf token]) token =
      .ok (output ++ [tagOf token] ++ tokenNumber token) := by
    have hfits : (output ++ [tagOf token]).length + (tokenNumber token).length ≤ total := by
      rw [length_append, length_singleton]
      omega
    rw [← storeAll_fits (tokenNumber token) _ hfits]
    unfold writeNumber tokenNumber put
    split_ifs <;> rfl
  have hstring : writeString total (output ++ [tagOf token] ++ tokenNumber token) token =
      .ok (output ++ [tagOf token] ++ tokenNumber token ++ tokenString token) := by
    have hfits : (output ++ [tagOf token] ++ tokenNumber token).length +
        (tokenString token).length ≤ total := by
      rw [length_append, length_append, length_singleton]
      omega
    rw [← storeAll_fits (tokenString token) _ hfits]
    unfold writeString tokenString
    split_ifs <;> rfl
  unfold writeToken
  simp only [htag, bind, Except.bind, hnumber, hstring]
  rw [tokenBytes, tokenTail, append_assoc, append_assoc, singleton_append]

theorem encode_encodes {w : Nat} (hw : w ≤ 64) :
    Encodes w (measureToken w) (fun frames => closedItems (trim frames)) writeToken tokenBytes
      grammar Same where
  sound := by
    intro frames after inner token n hs hstep
    unfold measureToken at hstep
    cases hacc : accept frames token with
    | mk kind middle =>
      rw [hacc] at hstep
      cases kind with
      | None =>
        split_ifs at hstep with hlong
        injection hstep with hstep
        injection hstep with hmiddle hn
        have hshort : Short token := by
          intro hkind
          have hle64 : maximum w ≤ 2 ^ 64 - 1 := maximum_le hw
          by_contra hc
          exact hlong ⟨hkind, by omega⟩
        obtain ⟨hok, hsame⟩ := @accept_same token token ⟨rfl, rfl, fun _ _ => rfl⟩ id _ _ hs
          (by rw [hacc])
        rw [hacc] at hsame
        refine ⟨?_, _, permit_iff.mpr ⟨⟨hok, hshort⟩, rfl⟩, ?_⟩
        · rw [← hn, tokenBytes_length (accept_written hok hshort)]
        · rw [← hmiddle]
          exact hsame.trans (same_erase _).symm
      | _ => cases hstep
  admits := by
    intro frames inner after token hs hpermit hfits
    obtain ⟨hok, hsame⟩ := permit_same hs hpermit
    obtain ⟨⟨hok', hshort⟩, _⟩ := permit_iff.mp hpermit
    rw [tokenBytes_length (accept_written hok' hshort)] at hfits ⊢
    refine ⟨_, ?_, hsame⟩
    have hweight : token.kind = .Bytes ∨ token.kind = .Text →
        weight token = size token + token.bytes.length := fun hk => if_pos hk
    unfold measureToken
    rw [show accept frames token = (.None, (accept frames token).2) from Prod.ext hok rfl]
    dsimp only
    rw [if_neg (fun hc => by have := hweight hc.1; omega)]
  complete_iff hs := closed_same hs
  write_fits _ _ h := writeToken_eq h

theorem size_le (token : Token) : size token ≤ 9 := by
  have hextra : extra (argument token) ≤ 8 := by
    unfold extra
    split_ifs <;> omega
  unfold size
  split_ifs <;> omega

theorem codec {w : Nat} (hw : w ≤ 64) (promote : UInt32 → UInt64) :
    Codec w (item promote) accept trim closedItems (measureToken w)
      (fun frames => closedItems (trim frames)) writeToken tokenBytes Token.normal grammar Same where
  follows := next_follows promote
  encodes := encode_encodes hw
  written _ := cons_ne_nil _ _
  reads := read_tokenBytes promote _ _ _ _
  normal hitem := (item_read hitem).normal
  took hpermit hitem := by
    obtain ⟨⟨hok, hshort⟩, _⟩ := permit_iff.mp hpermit
    have htook := (item_read hitem).took
    have hsize := size_le ‹Token›
    rw [tokenBytes_length (accept_written hok hshort)]
    unfold weight
    split_ifs <;> omega

/-- **CBOR tokens round-trip.**  What `encode` accepts is read back, in normal form and to a
clean end; what is read to a clean end is accepted by `encode`, and its output reads as the
same tokens. -/
theorem tokens_round_trip {w : Nat} (hw : w ≤ 64) (promote : UInt32 → UInt64) :
    (∀ room tokens result, encode w room tokens = .ok result → result.ok = true →
      Ends (next promote) (reader result.value) (tokens.map Token.normal)) ∧
    ∀ source tokens, Ends (next promote) (reader source) tokens → Resident w source tokens →
      ∃ output, Ends (next promote) (reader output) tokens ∧ ∀ room, HasRoom room output.length →
          encode w room tokens = .ok { value := output, ok := true } :=
  (codec hw promote).round_trips (rfl : Same [] [])

/-- An array of a number and a text, written and then read and written again. -/
theorem tokens_round_trip_array : (64 ≤ 64) ∧
    Ends (next fun bits => bits.toUInt64) (reader [130, 24, 200, 97, 120])
      [{ kind := .Array, value := 2 }, { kind := .Unsigned, value := 200 },
        { kind := .Text, bytes := [120] }] ∧
    ∃ output, Ends (next fun bits => bits.toUInt64) (reader output)
        [{ kind := .Array, value := 2 }, { kind := .Unsigned, value := 200 },
          { kind := .Text, bytes := [120] }] ∧
      ∀ room, HasRoom room output.length →
        encode 64 room [{ kind := .Array, value := 2 }, { kind := .Unsigned, value := 200 },
          { kind := .Text, bytes := [120] }] = .ok { value := output, ok := true } := by
  obtain ⟨hback, hthere⟩ := tokens_round_trip (le_refl 64) fun bits => bits.toUInt64
  have hends := hback (Mem.bufferRoom 5)
    [{ kind := .Array, value := 2 }, { kind := .Unsigned, value := 200, boolean := true },
      { kind := .Text, value := 7, bytes := [120] }]
    { value := [130, 24, 200, 97, 120], ok := true } (by decide +kernel) rfl
  exact ⟨le_rfl, hends, hthere _ _ hends (by unfold Resident; decide)⟩

end Dyn.Cbor
