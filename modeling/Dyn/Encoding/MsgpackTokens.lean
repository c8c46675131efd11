import Dyn.Encoding.Msgpack

/-!
# std/encoding/msgpack: tokens survive writing and reading
-/

namespace Dyn.Msgpack

open List
open Mem (Panic Room maximum)
open Encoding
open Sequence (Grammar Reads)

theorem sum_trim : ∀ remaining : List Nat, (trim remaining).sum = remaining.sum
  | [] => rfl
  | n :: outer => by
    rw [trim]
    split_ifs with h
    · rw [sum_trim outer, sum_cons, h, zero_add]
    · rfl

variable {token : Token} (promote : UInt32 → UInt64) (remaining : List Nat) {tag : UInt8}
  {result : Token} {rest after : List UInt8}

theorem sum_enter : remaining.sum ≤ (enter remaining).sum + 1 := by
  cases remaining with
  | nil => exact Nat.zero_le _
  | cons n outer =>
    rw [enter, sum_cons, sum_cons]
    omega

theorem accept_sum (token : Token) : remaining.sum ≤ (accept remaining token).2.sum + 1 := by
  have henter := sum_enter (trim remaining)
  rw [sum_trim] at henter
  unfold accept
  dsimp only
  split_ifs <;> simp only [sum_cons] <;> omega

/-- The token sequences that `encode` lets through. -/
def grammar : Grammar (List Nat) Token where
  permit remaining token :=
    if (accept remaining token).1 = .None ∧ token.bytes.length ≤ 0xffffffff then
      some (accept remaining token).2
    else none
  closed remaining := trim remaining = []
  owed remaining := remaining.sum
  owed_closed remaining h := by
    rw [← sum_trim, h]
    rfl
  owed_permit remaining token after h := by
    split_ifs at h
    injection h with h
    rw [← h]
    exact accept_sum remaining token

theorem permit_iff {remaining after : List Nat} :
    grammar.permit remaining token = some after ↔
      accept remaining token = (.None, after) ∧ token.bytes.length ≤ 0xffffffff := by
  change (if _ then some _ else none) = some after ↔ _
  rw [Prod.ext_iff]
  split_ifs with h
  · rw [Option.some.injEq]
    exact ⟨fun ha => ⟨⟨h.1, ha⟩, h.2⟩, fun ha => ha.1.2⟩
  constructor
  · intro ha
    cases ha
  · intro ha
    exact absurd ⟨ha.1.1, ha.2⟩ h

theorem accept_normal (token : Token) : accept remaining token.normal = accept remaining token := by
  unfold accept Token.normal itemCount
  cases hkind : token.kind <;> rfl

def tokenExtension (token : Token) : List UInt8 :=
  if token.kind = .Extension then [token.extension.toUInt8] else []

def tokenString (token : Token) : List UInt8 := if hasBytes token then token.bytes else []

def tokenBytes (token : Token) : List UInt8 :=
  header token :: (numberBytes (tokenValue token) (extra (header token)) ++
    (tokenExtension token ++ tokenString token))

structure Fits (token : Token) : Prop where
  bytes : token.bytes.length ≤ 0xffffffff
  count : token.kind = .Array ∨ token.kind = .Map → token.value.toNat ≤ 0xffffffff

def first (token : Token) : Token :=
  if hasBytes token then { kind := token.kind, value := UInt64.ofNat token.bytes.length }
  else token.normal

theorem readNumber_bytes (token : Token) {count : Nat} {value : UInt64} (hpos : count ≠ 0)
    (hle : count ≤ 8) (h : value.toNat < 256 ^ count) (rest : List UInt8) :
    readNumber promote token count (numberBytes value count ++ rest) =
      .ok (withNumber promote token count value, 1 + count, rest) := by
  unfold readNumber
  have hnumber := number_numberBytes hle h
  rw [if_neg (by simp), if_pos hpos, take_append_of_le_length (by simp),
    take_of_length_le (by simp), drop_append_of_le_length (by simp),
    drop_of_length_le (by simp), hnumber, nil_append]

/-- What a header must say for its token to be read back. -/
def Heads (promote : UInt32 → UInt64) (token : Token) : Prop :=
  ∃ start, classify (header token) = some (start, extra (header token), decide (hasBytes token)) ∧
    ∀ rest, readNumber promote start (extra (header token))
      (numberBytes (tokenValue token) (extra (header token)) ++ rest) =
        .ok (first token, 1 + extra (header token), rest)

theorem heads_short {promote : UInt32 → UInt64} (htag : header token = tag) (hextra : extra tag = 0)
    (hclass : classify tag = some (first token, 0, decide (hasBytes token))) :
    Heads promote token := by
  refine ⟨first token, ?_, ?_⟩
  · rw [htag, hextra]
    exact hclass
  intro rest
  rw [htag, hextra]
  rfl

/-- The kinds whose number is a count or a value. -/
def counts : Kind → Bool
  | .Unsigned | .Array | .Map | .Text | .Bytes | .Extension => true
  | _ => false

def carries : Kind → Bool
  | .Text | .Bytes | .Extension => true
  | _ => false

theorem decide_hasBytes (token : Token) : decide (hasBytes token) = carries token.kind := by
  obtain ⟨kind, _, _, _, _, _, _⟩ := token
  cases kind <;> rfl

/-- Once its number is read, such a token has its kind and its number. -/
theorem first_counts (h : counts token.kind = true) :
    first token = { kind := token.kind, value := tokenValue token } := by
  obtain ⟨kind, _, _, _, _, _, _⟩ := token
  cases kind <;> first | rfl | cases h

/-- The headers with a count behind them: kind, and width of the count. -/
def longHeaders : List (UInt8 × Kind × Nat) :=
  [(0xcc, .Unsigned, 1), (0xcd, .Unsigned, 2), (0xce, .Unsigned, 4), (0xcf, .Unsigned, 8), (0xdc, .Array, 2),
    (0xdd, .Array, 4), (0xde, .Map, 2), (0xdf, .Map, 4), (0xd9, .Text, 1), (0xda, .Text, 2), (0xdb, .Text, 4),
    (0xc4, .Bytes, 1), (0xc5, .Bytes, 2), (0xc6, .Bytes, 4), (0xc7, .Extension, 1), (0xc8, .Extension, 2),
    (0xc9, .Extension, 4)]

theorem longHeaders_table : ∀ h ∈ longHeaders, extra h.1 = h.2.2 ∧ h.2.2 ≠ 0 ∧ h.2.2 ≤ 8 ∧
    counts h.2.1 = true ∧ classify h.1 = some ({ kind := h.2.1 }, h.2.2, carries h.2.1) := by
  decide +kernel

/-- The headers that hold their number themselves, kind after kind, and those of the fixed extensions. -/
theorem shortHeaders_table :
    (∀ v : Fin 128, extra (UInt64.ofNat v).toUInt8 = 0 ∧
      classify (UInt64.ofNat v).toUInt8 = some ({ kind := .Unsigned, value := UInt64.ofNat v }, 0, false)) ∧
    (∀ v : Fin 16, extra (0x90 ||| (UInt64.ofNat v).toUInt8) = 0 ∧
      classify (0x90 ||| (UInt64.ofNat v).toUInt8) =
        some ({ kind := .Array, value := UInt64.ofNat v }, 0, false)) ∧
    (∀ v : Fin 16, extra (0x80 ||| (UInt64.ofNat v).toUInt8) = 0 ∧
      classify (0x80 ||| (UInt64.ofNat v).toUInt8) =
        some ({ kind := .Map, value := UInt64.ofNat v }, 0, false)) ∧
    (∀ v : Fin 32, extra (0xa0 ||| UInt8.ofNat v) = 0 ∧
      classify (0xa0 ||| UInt8.ofNat v) = some ({ kind := .Text, value := UInt64.ofNat v }, 0, true)) ∧
    (∀ v : Fin 5, extra (0xd4 + UInt8.ofNat v) = 0 ∧ classify (0xd4 + UInt8.ofNat v) =
      some ({ kind := .Extension, value := UInt64.ofNat (2 ^ v.val) }, 0, true)) := by
  refine ⟨?_, ?_, ?_, ?_, ?_⟩ <;> decide +kernel

theorem heads_long {promote : UInt32 → UInt64} {kind : Kind} (count : Nat)
    (hkind : token.kind = kind) (hheader : header token = tag)
    (hvalue : (tokenValue token).toNat ≤ 256 ^ count - 1)
    (hlong : (tag, kind, count) ∈ longHeaders := by simp [longHeaders]) : Heads promote token := by
  subst hkind
  obtain ⟨hextra, hpos, hle, hcounts, hclass⟩ := longHeaders_table _ hlong
  refine ⟨{ kind := token.kind }, ?_, ?_⟩
  · rw [hheader, hextra, decide_hasBytes]
    exact hclass
  intro rest
  rw [hheader, hextra, readNumber_bytes promote _ hpos hle
    (Nat.lt_of_le_pred (Nat.pow_pos (by decide)) hvalue), first_counts hcounts]
  unfold withNumber
  revert hcounts
  cases token.kind <;> simp [counts]

theorem heads_fixed {promote : UInt32 → UInt64} {kind : Kind} (hkind : token.kind = kind)
    (hcounts : counts kind = true) (hheader : header token = tag) (htable : extra tag = 0 ∧
      classify tag = some ({ kind := kind, value := tokenValue token }, 0, carries kind)) :
    Heads promote token := by
  subst hkind
  refine heads_short hheader htable.1 ?_
  rw [htable.2, first_counts hcounts, decide_hasBytes]

theorem unsigned_heads (hkind : token.kind = .Unsigned) : Heads promote token := by
  have hvalue : tokenValue token = token.value := by rw [tokenValue, hkind]
  have hlt := token.value.toNat_lt
  have hheader : header token = if token.value < 128 then token.value.toUInt8
      else if token.value ≤ 255 then 0xcc else if token.value ≤ 65535 then 0xcd
      else if token.value ≤ 0xffffffff then 0xce else 0xcf := by rw [header, hkind]
  simp only [UInt64.lt_iff_toNat_lt, UInt64.le_iff_toNat_le] at hheader
  split_ifs at hheader with h1 h2 h3 h4
  · have hsmall := shortHeaders_table.1 ⟨_, h1⟩
    simp only [UInt64.ofNat_toNat, ← hvalue] at hsmall
    exact heads_fixed hkind rfl (hvalue ▸ hheader) hsmall
  · exact heads_long 1 hkind hheader (hvalue ▸ h2)
  · exact heads_long 2 hkind hheader (hvalue ▸ h3)
  · exact heads_long 4 hkind hheader (hvalue ▸ h4)
  · exact heads_long 8 hkind hheader (hvalue ▸ Nat.le_pred_of_lt hlt)

theorem counted_heads {kind : Kind} {base wide widest : UInt8} (hfits : Fits token) (hkind : token.kind = kind)
    (hcounted : token.kind = .Array ∨ token.kind = .Map)
    (hheader : header token = if token.value < 16 then base ||| token.value.toUInt8
      else if token.value ≤ 65535 then wide else widest)
    (hshort : ∀ v : Fin 16, extra (base ||| (UInt64.ofNat v).toUInt8) = 0 ∧
      classify (base ||| (UInt64.ofNat v).toUInt8) = some ({ kind := kind, value := UInt64.ofNat v }, 0, false))
    (hlong : (wide, kind, 2) ∈ longHeaders ∧ (widest, kind, 4) ∈ longHeaders) : Heads promote token := by
  have hvalue : tokenValue token = token.value := by rcases hcounted with h | h <;> rw [tokenValue, h]
  have hcarries : counts kind = true ∧ carries kind = false := by
    rw [← hkind]
    rcases hcounted with h | h <;> rw [h] <;> exact ⟨rfl, rfl⟩
  have hlt := hfits.count hcounted
  simp only [UInt64.lt_iff_toNat_lt, UInt64.le_iff_toNat_le] at hheader
  split_ifs at hheader with h1 h2
  · have hsmall := hshort ⟨_, h1⟩
    simp only [UInt64.ofNat_toNat, ← hvalue] at hsmall
    exact heads_fixed hkind hcarries.1 (hvalue ▸ hheader) (hcarries.2 ▸ hsmall)
  · exact heads_long 2 hkind hheader (hvalue ▸ h2) hlong.1
  · exact heads_long 4 hkind hheader (hvalue ▸ hlt) hlong.2

theorem length_toNat (hfits : Fits token) :
    (UInt64.ofNat token.bytes.length).toNat = token.bytes.length := by
  have := hfits.bytes
  rw [UInt64.toNat_ofNat']
  omega

theorem tokenValue_length (h : carries token.kind = true) :
    tokenValue token = UInt64.ofNat token.bytes.length := by
  revert h
  unfold tokenValue
  cases token.kind <;> simp [carries]

theorem carried (hfits : Fits token) (h : carries token.kind = true) :
    tokenValue token = UInt64.ofNat token.bytes.length ∧
      (tokenValue token).toNat = token.bytes.length ∧ token.bytes.length ≤ 4294967295 :=
  ⟨tokenValue_length h, tokenValue_length h ▸ length_toNat hfits, hfits.bytes⟩

theorem text_heads (hfits : Fits token) (hkind : token.kind = .Text) : Heads promote token := by
  obtain ⟨hvalue, hnat, hlt⟩ := carried hfits (by rw [hkind]; rfl)
  have hheader : header token = if token.bytes.length < 32 then
      0xa0 ||| UInt8.ofNat token.bytes.length
      else if token.bytes.length ≤ 255 then 0xd9
      else if token.bytes.length ≤ 65535 then 0xda else 0xdb := by rw [header, hkind]
  split_ifs at hheader with h1 h2 h3
  · exact heads_fixed hkind rfl hheader (hvalue ▸ shortHeaders_table.2.2.2.1 ⟨_, h1⟩)
  · exact heads_long 1 hkind hheader (hnat ▸ h2)
  · exact heads_long 2 hkind hheader (hnat ▸ h3)
  · exact heads_long 4 hkind hheader (hnat ▸ hlt)

theorem bytes_heads (hfits : Fits token) (hkind : token.kind = .Bytes) : Heads promote token := by
  obtain ⟨hvalue, hnat, hlt⟩ := carried hfits (by rw [hkind]; rfl)
  have hheader : header token = if token.bytes.length ≤ 255 then 0xc4
      else if token.bytes.length ≤ 65535 then 0xc5 else 0xc6 := by rw [header, hkind]
  split_ifs at hheader with h1 h2
  · exact heads_long 1 hkind hheader (hnat ▸ h1)
  · exact heads_long 2 hkind hheader (hnat ▸ h2)
  · exact heads_long 4 hkind hheader (hnat ▸ hlt)

theorem extension_heads (hfits : Fits token) (hkind : token.kind = .Extension) :
    Heads promote token := by
  obtain ⟨hvalue, hnat, hlt⟩ := carried hfits (by rw [hkind]; rfl)
  have hfixed : ∀ {tag : UInt8} {n : Nat}, token.bytes.length = n → header token = tag →
      (extra tag = 0 ∧ classify tag =
        some ({ kind := .Extension, value := UInt64.ofNat n }, 0, true)) → Heads promote token := by
    intro tag n hn hheader htable
    rw [← hn, ← hvalue] at htable
    exact heads_fixed hkind rfl hheader htable
  have hheader : header token = if token.bytes.length = 1 then 0xd4
      else if token.bytes.length = 2 then 0xd5
      else if token.bytes.length = 4 then 0xd6
      else if token.bytes.length = 8 then 0xd7
      else if token.bytes.length = 16 then 0xd8
      else if token.bytes.length ≤ 255 then 0xc7
      else if token.bytes.length ≤ 65535 then 0xc8 else 0xc9 := by rw [header, hkind]
  have hsmall := shortHeaders_table.2.2.2.2
  split_ifs at hheader with h1 h2 h4 h8 h16 h255 h65535
  · exact hfixed h1 hheader (hsmall 0)
  · exact hfixed h2 hheader (hsmall 1)
  · exact hfixed h4 hheader (hsmall 2)
  · exact hfixed h8 hheader (hsmall 3)
  · exact hfixed h16 hheader (hsmall 4)
  · exact heads_long 1 hkind hheader (hnat ▸ h255)
  · exact heads_long 2 hkind hheader (hnat ▸ h65535)
  · exact heads_long 4 hkind hheader (hnat ▸ hlt)

theorem header_heads (hfits : Fits token) : Heads promote token := by
  cases hkind : token.kind with
  | Nil =>
    refine heads_short (show header token = 0xc0 by rw [header, hkind]) (by decide) ?_
    rw [first, if_neg (by simp [hasBytes, hkind]), decide_hasBytes, Token.normal, hkind]
    rfl
  | Bool =>
    cases hbool : token.boolean with
    | false =>
      refine heads_short (show header token = 0xc2 by rw [header, hkind, hbool]; rfl) (by decide) ?_
      rw [first, if_neg (by simp [hasBytes, hkind]), decide_hasBytes, Token.normal, hkind, hbool]
      rfl
    | true =>
      refine heads_short (show header token = 0xc3 by rw [header, hkind, hbool]; rfl) (by decide) ?_
      rw [first, if_neg (by simp [hasBytes, hkind]), decide_hasBytes, Token.normal, hkind, hbool]
      rfl
  | Signed =>
    have hvalue : tokenValue token = token.integer.toUInt64 := by rw [tokenValue, hkind]
    refine ⟨{ kind := .Signed }, ?_, ?_⟩
    · rw [header, hkind, decide_hasBytes, hkind]
      exact (by decide +kernel :
        classify 0xd3 = some ({ kind := .Signed }, extra 0xd3, carries .Signed))
    intro rest
    rw [show header token = 0xd3 by rw [header, hkind]]
    rw [show extra 0xd3 = 8 from rfl, readNumber_bytes promote _ (by decide) (by decide)
      (tokenValue token).toNat_lt, hvalue, first, if_neg (by simp [hasBytes, hkind]),
      Token.normal, hkind]
    simp [withNumber]
  | Float =>
    have hvalue : tokenValue token = token.real := by rw [tokenValue, hkind]
    refine ⟨{ kind := .Float }, ?_, ?_⟩
    · rw [header, hkind, decide_hasBytes, hkind]
      rfl
    intro rest
    rw [show header token = 0xcb by rw [header, hkind]]
    rw [show extra 0xcb = 8 from rfl, readNumber_bytes promote _ (by decide) (by decide)
      (tokenValue token).toNat_lt, hvalue, first, if_neg (by simp [hasBytes, hkind]),
      Token.normal, hkind]
    rfl
  | Unsigned => exact unsigned_heads promote hkind
  | Text => exact text_heads promote hfits hkind
  | Bytes => exact bytes_heads promote hfits hkind
  | Array =>
    exact counted_heads promote hfits hkind (.inl hkind) (by rw [header, hkind]) shortHeaders_table.2.1
      (by simp [longHeaders])
  | Map =>
    exact counted_heads promote hfits hkind (.inr hkind) (by rw [header, hkind]) shortHeaders_table.2.2.1
      (by simp [longHeaders])
  | Extension => exact extension_heads promote hfits hkind

theorem readPayload_bytes {bytes : List UInt8} (at_ : Nat) (rest : List UInt8)
    (h : token.value.toNat = bytes.length) :
    readPayload true token at_ (bytes ++ rest) =
      .ok ({ token with bytes := bytes, value := 0 }, at_ + bytes.length, rest) := by
  unfold readPayload
  rw [if_pos rfl, h, if_neg (by rw [length_append]; omega), take_left, drop_left]

/-- **A written token is read back,** with as many bytes behind it as it announces. -/
theorem item_tokenBytes (hfits : Fits token) (rest : List UInt8)
    (hcover : token.kind = .Array ∨ token.kind = .Map → itemCount token ≤ rest.length) :
    ∃ n, item promote (header token) ((tokenBytes token).tail ++ rest) =
      .ok (token.normal, n, rest) := by
  obtain ⟨start, hclass, hnumber⟩ := header_heads promote hfits
  have hlength := length_toNat hfits
  unfold item
  rw [hclass, tokenBytes, tail_cons, tokenExtension, tokenString, append_assoc, append_assoc]
  simp only [hnumber, bind, Except.bind, decide_hasBytes]
  by_cases hcarries : carries token.kind = true
  · have hbytes : hasBytes token := by
      rw [← decide_hasBytes] at hcarries
      simpa using hcarries
    rw [first_counts (by revert hcarries; cases token.kind <;> simp [carries, counts]),
      tokenValue_length hcarries, hcarries, if_pos hbytes]
    by_cases hext : token.kind = .Extension
    · simp only [readExtension, if_pos hext, singleton_append]
      rw [readPayload_bytes _ rest (by exact hlength)]
      refine ⟨1 + extra (header token) + 1 + token.bytes.length, ?_⟩
      dsimp only
      rw [checkLength, if_neg (by simp [hext])]
      simp [Token.normal, hext]
    simp only [readExtension, if_neg hext, nil_append]
    rw [readPayload_bytes _ rest (by exact hlength)]
    refine ⟨1 + extra (header token) + token.bytes.length, ?_⟩
    dsimp only
    have hnormal : token.normal = { kind := token.kind, bytes := token.bytes } := by
      unfold Token.normal
      rcases hbytes with hk | hk | hk
      · simp [hk]
      · simp [hk]
      · exact absurd hk hext
    rw [checkLength, if_neg, hnormal]
    rcases hbytes with hk | hk | hk <;> simp [hk]
  have hbytes : ¬ hasBytes token := by
    rw [← decide_hasBytes] at hcarries
    simpa using hcarries
  have hkind : token.normal.kind = token.kind := by
    unfold Token.normal
    cases token.kind <;> rfl
  have hext : token.kind ≠ .Extension := fun h => hbytes (.inr (.inr h))
  rw [Bool.not_eq_true] at hcarries
  rw [first, if_neg hbytes, if_neg hbytes, hcarries, if_neg hext]
  simp only [readExtension, hkind, if_neg hext, readPayload, nil_append,
    Bool.false_eq_true, if_false]
  refine ⟨1 + extra (header token), ?_⟩
  rw [checkLength, if_neg]
  rintro ⟨hcontainer, hlong⟩
  rw [hkind] at hcontainer
  have hcount : itemCount token.normal = itemCount token := by
    unfold itemCount Token.normal
    rcases hcontainer with hk | hk <;> simp [hk]
  have := hcover hcontainer
  omega

structure Read (token : Token) (before after : Nat) : Prop where
  normal : token.normal = token
  short : token.bytes.length ≤ 0xffffffff
  took : token.bytes.length + after ≤ before

/-- What the table of tags gives: a token that is complete, or one that waits for a number
or for a string. -/
def wellTabled : Token × Nat × Bool → Bool
  | (token, size, payload) =>
      payload == carries token.kind &&
        (if size = 0 then
          if payload then
            token == { kind := token.kind, value := token.value } && token.value.toNat ≤ 0xffffffff
          else token.normal == token
        else
          token == { kind := token.kind } && token.kind != .Nil && token.kind != .Bool &&
            size ≤ 8 && (!payload || size ≤ 4))

theorem classify_wellTabled {r : Token × Nat × Bool} (h : classify tag = some r) :
    wellTabled r = true := by
  have hall : ∀ n : Fin 256, (classify (UInt8.ofNat n)).all wellTabled = true := by decide +kernel
  have := hall ⟨tag.toNat, tag.toNat_lt⟩
  simp only [UInt8.ofNat_toNat, h, Option.all_some] at this
  exact this

def Numbered (token : Token) : Prop :=
  if carries token.kind then
    token = { kind := token.kind, value := token.value } ∧ token.value.toNat ≤ 0xffffffff
  else token.normal = token

variable {n m : Nat} {source : List UInt8} {tokens : List Token}

theorem readNumber_numbered {promote : UInt32 → UInt64} {size : Nat} {payload : Bool}
    (htable : wellTabled (token, size, payload) = true)
    (h : readNumber promote token size rest = .ok (result, n, after)) :
    Numbered result ∧ payload = carries result.kind ∧ after.length ≤ rest.length := by
  simp only [wellTabled, Bool.and_eq_true, beq_iff_eq] at htable
  obtain ⟨hpayload, htable⟩ := htable
  unfold readNumber at h
  by_cases hzero : size = 0
  · subst hzero
    cases h
    refine ⟨?_, hpayload, le_rfl⟩
    unfold Numbered
    rw [hpayload] at htable
    cases hc : carries token.kind with
    | true | false => simpa [hc] using htable
  rw [if_neg hzero] at htable
  simp only [Bool.and_eq_true, beq_iff_eq, bne_iff_ne, decide_eq_true_eq] at htable
  obtain ⟨⟨⟨⟨htoken, hnil⟩, hbool⟩, -⟩, hshort⟩ := htable
  split_ifs at h with hlong
  cases h
  have hlength : (rest.take size).length = size := by
    rw [length_take]
    omega
  have hkind : (withNumber promote token size (number (rest.take size))).kind = token.kind := by
    unfold withNumber
    split_ifs <;> rfl
  refine ⟨?_, by rw [hkind]; exact hpayload, by rw [length_drop]; omega⟩
  unfold Numbered
  rw [hkind]
  cases hc : carries token.kind with
  | true =>
    have hlt := number_lt (rest.take size)
    rw [hlength] at hlt
    have hsize4 : size ≤ 4 := by
      rw [hpayload, hc] at hshort
      simpa using hshort
    have hpow : 256 ^ size ≤ 256 ^ 4 := Nat.pow_le_pow_right (by decide) hsize4
    have hvalue : withNumber promote token size (number (rest.take size)) =
        { kind := token.kind, value := number (rest.take size) } := by
      rw [htoken]
      unfold withNumber
      revert hc
      cases token.kind <;> simp [carries]
    rw [if_pos rfl, hvalue]
    refine ⟨rfl, ?_⟩
    dsimp only
    omega
  | false =>
    rw [if_neg Bool.false_ne_true, htoken]
    unfold withNumber
    revert hc hnil hbool
    cases token.kind <;> simp [carries, Token.normal]
    split_ifs <;> rfl

theorem checkLength_ok (h : checkLength token n rest = .ok (result, m, after)) :
    token = result ∧ rest = after := by
  unfold checkLength at h
  split_ifs at h
  cases h
  exact ⟨rfl, rfl⟩

theorem readExtension_ok (h : readExtension token n rest = .ok (result, m, after)) :
    after.length ≤ rest.length ∧
      (token.kind = .Extension ∧ (∃ e, result = { token with extension := e }) ∨
        token.kind ≠ .Extension ∧ result = token) := by
  unfold readExtension at h
  split_ifs at h with hext
  · cases rest with
    | nil => cases h
    | cons byte tail =>
      cases h
      exact ⟨Nat.le_succ _, .inl ⟨hext, _, rfl⟩⟩
  · cases h
    exact ⟨le_rfl, .inr ⟨hext, rfl⟩⟩

theorem readPayload_read {middle : Token} {k : Nat} {between : List UInt8}
    (hnumbered : Numbered token)
    (hextension : readExtension token n rest = .ok (middle, m, between))
    (h : readPayload (carries token.kind) middle m between = .ok (result, k, after)) :
    Read result rest.length after.length := by
  obtain ⟨hle, hcases⟩ := readExtension_ok hextension
  unfold Numbered at hnumbered
  unfold readPayload at h
  cases hc : carries token.kind with
  | true =>
    rw [hc, if_pos rfl] at hnumbered h
    obtain ⟨htoken, hvalue⟩ := hnumbered
    split_ifs at h with hlong
    cases h
    have hsame : middle.value = token.value := by
      rcases hcases with ⟨_, e, hm⟩ | ⟨_, hm⟩ <;> rw [hm]
    rw [hsame] at hlong
    have hlength : (between.take middle.value.toNat).length = token.value.toNat := by
      rw [length_take, hsame]
      omega
    refine ⟨?_, ?_, ?_⟩
    · rcases hcases with ⟨hext, e, hm⟩ | ⟨hext, hm⟩
      · rw [hm, htoken]
        simp [Token.normal, hext]
      rw [hm, htoken]
      revert hc hext
      cases token.kind <;> simp [carries, Token.normal]
    · rw [hlength]
      exact hvalue
    · rw [hlength, length_drop, hsame]
      omega
  | false =>
    rw [hc] at hnumbered h
    cases h
    rcases hcases with ⟨hext, _⟩ | ⟨_, hm⟩
    · rw [hext] at hc
      cases hc
    have hbytes : token.bytes = [] := by
      rw [← hnumbered]
      unfold Token.normal
      revert hc
      cases token.kind <;> simp [carries]
    rw [hm]
    refine ⟨hnumbered, ?_, ?_⟩
    · rw [hbytes]
      decide
    · rw [hbytes, length_nil, zero_add]
      exact hle

theorem item_read {promote : UInt32 → UInt64} (h : item promote tag rest = .ok (token, n, after)) :
    Read token rest.length after.length := by
  unfold item at h
  split at h
  · cases h
  rename_i start size payload hclass
  simp only [bind, Except.bind] at h
  split at h
  · cases h
  rename_i r1 hnumber
  obtain ⟨token1, n1, rest1⟩ := r1
  obtain ⟨hnumbered, hpayload, hle1⟩ := readNumber_numbered (classify_wellTabled hclass) hnumber
  suffices Read token rest1.length after.length from
    ⟨this.normal, this.short, le_trans this.took hle1⟩
  split at h
  · cases h
  rename_i r2 hextension
  split at h
  · cases h
  rename_i r3 hread
  obtain ⟨rfl, rfl⟩ := checkLength_ok h
  rw [hpayload] at hread
  exact readPayload_read hnumbered hextension hread

theorem item_error {promote : UInt32 → UInt64} {e : Failure} (h : item promote tag rest = .error e) :
    e.2 ≠ .None := by
  suffices e.2 = .InvalidInput by
    rw [this]
    simp
  unfold item at h
  split at h
  · cases h
    rfl
  simp only [bind, Except.bind] at h
  split at h
  · rename_i hnumber
    cases h
    unfold readNumber at hnumber
    split_ifs at hnumber
    cases hnumber
    rfl
  split at h
  · rename_i hextension
    cases h
    unfold readExtension at hextension
    split_ifs at hextension
    split at hextension <;> cases hextension
    rfl
  split at h
  · rename_i hread
    cases h
    unfold readPayload at hread
    split_ifs at hread
    cases hread
    rfl
  unfold checkLength at h
  split_ifs at h
  cases h
  rfl

theorem complete_iff : complete (trim remaining) = true ↔ grammar.closed remaining := by
  change (trim remaining).isEmpty = true ↔ trim remaining = []
  rw [List.isEmpty_iff]

theorem next_follows :
    Follows (item promote) accept trim complete grammar Eq where
  error := item_error
  admits := by
    intro tag rest after token n s c c' _ hs hpermit
    subst hs
    exact ⟨c', (permit_iff.mp hpermit).1, rfl⟩
  rejects := by
    intro tag rest after token n s c hitem hs hpermit hok
    subst hs
    have hpermit' := permit_iff.mpr
      ⟨(Prod.ext hok rfl : accept s token = (.None, (accept s token).2)), (item_read hitem).short⟩
    rw [hpermit] at hpermit'
    cases hpermit'
  complete_iff := by
    intro s c hs
    subst hs
    exact complete_iff s

theorem accept_fits {remaining after : List Nat} (h : grammar.permit remaining token = some after) :
    Fits token := by
  obtain ⟨hok, hbytes⟩ := permit_iff.mp h
  refine ⟨hbytes, ?_⟩
  intro hkind
  unfold accept at hok
  rw [if_pos hkind] at hok
  split at hok
  · cases hok
  rename_i hbig
  rw [gt_iff_lt, UInt64.lt_iff_toNat_lt, not_lt] at hbig
  exact hbig

/-- The container that a token opens asks for the items it announces. -/
theorem covered_of_owed {remaining after : List Nat}
    (h : grammar.permit remaining token = some after) (howed : grammar.owed after ≤ n)
    (hkind : token.kind = .Array ∨ token.kind = .Map) : itemCount token ≤ n := by
  obtain ⟨hok, _⟩ := permit_iff.mp h
  change after.sum ≤ n at howed
  unfold accept at hok
  rw [if_pos hkind] at hok
  by_cases hcount : itemCount token = 0
  · rw [hcount]
    exact Nat.zero_le _
  rw [if_pos hcount] at hok
  split_ifs at hok
  · injection hok with hkind _
    cases hkind
  · injection hok with hkind _
    cases hkind
  cases hok
  rw [sum_cons] at howed
  omega

theorem read_tokenBytes (token : Token) (after : List Nat) (rest : List UInt8)
    (h : grammar.permit remaining token = some after) (howed : grammar.owed after ≤ rest.length) :
    readItem grammar (item promote) remaining (tokenBytes token ++ rest) =
      some (token.normal, after, rest) := by
  obtain ⟨n, hitem⟩ := item_tokenBytes promote (accept_fits h) rest (covered_of_owed h howed)
  obtain ⟨hok, _⟩ := permit_iff.mp h
  have hpermit : grammar.permit remaining token.normal = some after := by
    rw [permit_iff, accept_normal]
    exact ⟨hok, (item_read hitem).short⟩
  rw [tokenBytes, tail_cons] at hitem
  rw [tokenBytes, cons_append, readItem, hitem]
  dsimp only
  rw [hpermit]
  rfl

theorem tokenBytes_length (token : Token) : (tokenBytes token).length = weight token := by
  unfold tokenBytes weight size tokenExtension tokenString
  rw [length_cons, length_append, length_append, numberBytes_length]
  split_ifs <;> simp <;> omega

theorem writeToken_eq {total : Nat} {output : List UInt8}
    (h : output.length + (tokenBytes token).length ≤ total) :
    writeToken total output token = .ok (output ++ tokenBytes token) := by
  have hlength : (tokenBytes token).length = 1 + (extra (header token) +
      ((tokenExtension token).length + (tokenString token).length)) := by
    rw [tokenBytes, length_cons, length_append, length_append, numberBytes_length, add_comm]
  have htag : store total output (header token) = .ok (output ++ [header token]) :=
    if_pos (by omega)
  have hnumber : put total (output ++ [header token]) (tokenValue token) (extra (header token)) =
      .ok (output ++ [header token] ++ numberBytes (tokenValue token) (extra (header token))) := by
    refine storeAll_fits _ _ ?_
    rw [length_append, length_singleton, numberBytes_length]
    omega
  have hextension : ∀ before : List UInt8, before.length + (tokenExtension token).length ≤ total →
      writeExtension total before token = .ok (before ++ tokenExtension token) := by
    intro before hfits
    unfold writeExtension tokenExtension at *
    split_ifs at hfits ⊢
    · exact if_pos hfits
    · rw [append_nil]
  have hstring : ∀ before : List UInt8, before.length + (tokenString token).length ≤ total →
      writeBytes total before token = .ok (before ++ tokenString token) := by
    intro before hfits
    unfold writeBytes tokenString at *
    split_ifs at hfits ⊢
    · exact storeAll_fits _ _ hfits
    · rw [append_nil]
  have hmiddle : (output ++ [header token] ++
      numberBytes (tokenValue token) (extra (header token))).length =
        output.length + 1 + extra (header token) := by
    rw [length_append, length_append, numberBytes_length, length_singleton]
  unfold writeToken
  simp only [htag, bind, Except.bind, hnumber]
  rw [hextension _ (by omega)]
  dsimp only
  rw [hstring _ (by rw [length_append]; omega), tokenBytes]
  simp only [append_assoc, cons_append, nil_append]

theorem encode_encodes (w : Nat) :
    Encodes w (measureToken w) (fun remaining => complete (trim remaining)) writeToken tokenBytes
      grammar Eq where
  sound := by
    intro s s' c token n hs hstep
    subst hs
    unfold measureToken at hstep
    cases hacc : accept s token with
    | mk kind after =>
      rw [hacc] at hstep
      cases kind with
      | None =>
        split_ifs at hstep with hbig
        injection hstep with hstep
        injection hstep with hs' hn
        rw [← hn, tokenBytes_length]
        exact ⟨rfl, after, permit_iff.mpr ⟨hacc, by omega⟩, hs'.symm⟩
      | _ =>
        split_ifs at hstep
  admits := by
    intro s c c' token hs hpermit hfits
    subst hs
    obtain ⟨hacc, hbytes⟩ := permit_iff.mp hpermit
    rw [tokenBytes_length] at hfits ⊢
    have hweight : hasBytes token → weight token = size token + token.bytes.length :=
      fun hk => if_pos hk
    refine ⟨c', ?_, rfl⟩
    unfold measureToken
    rw [if_neg (by omega), hacc]
    dsimp only
    rw [if_neg (fun hc => by have := hweight hc.1; omega)]
  complete_iff := by
    intro s c hs
    subst hs
    exact complete_iff s
  write_fits _ _ h := writeToken_eq h

theorem extra_le (tag : UInt8) : extra tag ≤ 8 := by
  have hall : ∀ n : Fin 256, extra (UInt8.ofNat n) ≤ 8 := by decide +kernel
  have := hall ⟨tag.toNat, tag.toNat_lt⟩
  simpa using this

theorem codec (w : Nat) (promote : UInt32 → UInt64) :
    Codec w (item promote) accept trim complete (measureToken w)
      (fun remaining => complete (trim remaining)) writeToken tokenBytes Token.normal grammar Eq where
  follows := next_follows promote
  encodes := encode_encodes w
  written _ := cons_ne_nil _ _
  reads := read_tokenBytes promote _ _ _ _
  normal hitem := (item_read hitem).normal
  took _ hitem := by
    have htook := (item_read hitem).took
    have hextra := extra_le (header ‹Token›)
    rw [tokenBytes_length]
    unfold weight size
    split_ifs <;> omega

/-- **MessagePack tokens round-trip.**  What `encode` accepts is read back, in normal form and
to a clean end; what is read to a clean end is accepted by `encode`, and its output reads as
the same tokens. -/
theorem messages_round_trip {w : Nat} (promote : UInt32 → UInt64) :
    (∀ room tokens result, encode w room tokens = .ok result → result.ok = true →
      Ends (next promote) (reader result.value) (tokens.map Token.normal)) ∧
    ∀ source tokens, Ends (next promote) (reader source) tokens → Resident w source tokens →
      ∃ output, Ends (next promote) (reader output) tokens ∧ ∀ room, HasRoom room output.length →
          encode w room tokens = .ok { value := output, ok := true } :=
  (codec w promote).round_trips rfl

/-- A map of a text to a negative number, written and then read and written again. -/
theorem messages_round_trip_map :
    Ends (next fun bits => bits.toUInt64)
      (reader [129, 161, 97, 211, 255, 255, 255, 255, 255, 255, 255, 254])
      [{ kind := .Map, value := 1 }, { kind := .Text, bytes := [97] },
        { kind := .Signed, integer := -2 }] ∧
    ∃ output, Ends (next fun bits => bits.toUInt64) (reader output)
        [{ kind := .Map, value := 1 }, { kind := .Text, bytes := [97] },
          { kind := .Signed, integer := -2 }] ∧
      ∀ room, HasRoom room output.length →
        encode 64 room [{ kind := .Map, value := 1 }, { kind := .Text, bytes := [97] },
          { kind := .Signed, integer := -2 }] = .ok { value := output, ok := true } := by
  obtain ⟨hback, hthere⟩ := @messages_round_trip 64 fun bits => bits.toUInt64
  have hends := hback (Mem.bufferRoom 12)
    [{ kind := .Map, value := 1 }, { kind := .Text, value := 9, bytes := [97] },
      { kind := .Signed, integer := -2 }]
    { value := [129, 161, 97, 211, 255, 255, 255, 255, 255, 255, 255, 254], ok := true }
    (by decide +kernel) rfl
  exact ⟨hends, hthere _ _ hends (by unfold Resident; decide)⟩

end Dyn.Msgpack
