import Mathlib.Data.Nat.Bitwise
import Mathlib.Data.List.Basic
import Mathlib.Tactic.Ring

/-!
# Bit lists and bit parsers

Bit streams in the order of a little-endian bit packer: the first bit of a stream is
the lowest bit of its first byte.  `bitsOf n v` are the `n` low bits of `v`, `valueOf`
reads a bit list back as a number, and `streamBits` is the bit list of a byte list.

`BitSource` is what code that reads such a stream needs.  `BitParser` is the meaning of
such code: it ends with a value and the bits left, it runs out of bits, or it rejects
what it read.  `Steady` says that more
input behind the bits read changes nothing, which is what makes suspending and
resuming a reader sound; `Within` bounds how many bits a parser may look at.
-/

namespace Dyn.Lib

open List

/-- The low `n` bits of `v`, lowest first. -/
def bitsOf : Nat → Nat → List Bool
  | 0, _ => []
  | n + 1, v => decide (v % 2 = 1) :: bitsOf n (v / 2)

/-- The number a bit list spells, lowest bit first. -/
def valueOf : List Bool → Nat
  | [] => 0
  | b :: bs => b.toNat + 2 * valueOf bs

@[simp] theorem bitsOf_length : ∀ n v : Nat, (bitsOf n v).length = n
  | 0, _ => rfl
  | n + 1, v => by simp [bitsOf, bitsOf_length n]

theorem valueOf_lt : ∀ bs : List Bool, valueOf bs < 2 ^ bs.length
  | [] => by simp [valueOf]
  | b :: bs => by
    have ih := valueOf_lt bs
    have hb : b.toNat ≤ 1 := by cases b <;> simp
    rw [valueOf, length_cons, pow_succ]
    omega

theorem valueOf_append : ∀ as bs : List Bool,
    valueOf (as ++ bs) = valueOf as + 2 ^ as.length * valueOf bs
  | [], bs => by simp [valueOf]
  | a :: as, bs => by
    rw [cons_append, valueOf, valueOf_append as bs, valueOf, length_cons, pow_succ]
    ring

theorem valueOf_bitsOf : ∀ n v : Nat, valueOf (bitsOf n v) = v % 2 ^ n
  | 0, v => by simp [bitsOf, valueOf, Nat.mod_one]
  | n + 1, v => by
    rw [bitsOf, valueOf, valueOf_bitsOf n, pow_succ', Nat.mod_mul]
    congr 1
    by_cases h : v % 2 = 1
    · simp [h]
    · have h0 : v % 2 = 0 := by omega
      simp [h0]

theorem valueOf_bitsOf_of_lt {n v : Nat} (h : v < 2 ^ n) : valueOf (bitsOf n v) = v := by
  rw [valueOf_bitsOf, Nat.mod_eq_of_lt h]

theorem bitsOf_valueOf : ∀ bs : List Bool, bitsOf bs.length (valueOf bs) = bs
  | [] => rfl
  | b :: bs => by
    have ih := bitsOf_valueOf bs
    rw [length_cons, bitsOf, valueOf]
    cases b with
    | true =>
      have h1 : (1 + 2 * valueOf bs) % 2 = 1 := by omega
      have h2 : (1 + 2 * valueOf bs) / 2 = valueOf bs := by omega
      simp [h1, h2, ih]
    | false =>
      simp [ih]

theorem eq_of_valueOf_eq {as bs : List Bool} (hlen : as.length = bs.length)
    (h : valueOf as = valueOf bs) : as = bs := by
  rw [← bitsOf_valueOf as, ← bitsOf_valueOf bs, hlen, h]

theorem bitsOf_add : ∀ n m v : Nat, bitsOf (n + m) v = bitsOf n v ++ bitsOf m (v / 2 ^ n)
  | 0, m, v => by simp [bitsOf]
  | n + 1, m, v => by
    rw [Nat.succ_add, bitsOf, bitsOf, bitsOf_add n m, cons_append, Nat.div_div_eq_div_mul,
      pow_succ']

@[simp] theorem bitsOf_zero : ∀ n : Nat, bitsOf n 0 = replicate n false
  | 0 => rfl
  | n + 1 => by simp [bitsOf, bitsOf_zero n, replicate_succ]

theorem bitsOf_pack {n v : Nat} (m u : Nat) (h : v < 2 ^ n) :
    bitsOf (n + m) (v + u * 2 ^ n) = bitsOf n v ++ bitsOf m u := by
  rw [bitsOf_add]
  have hdiv : (v + u * 2 ^ n) / 2 ^ n = u := by
    rw [Nat.add_mul_div_right _ _ (Nat.two_pow_pos n), Nat.div_eq_of_lt h, zero_add]
  rw [hdiv]
  congr 1
  apply eq_of_valueOf_eq
  · simp
  · rw [valueOf_bitsOf, valueOf_bitsOf, Nat.add_mul_mod_self_right]

theorem take_succ_getD {input : List UInt8} {n : Nat} (h : n < input.length) :
    input.take (n + 1) = input.take n ++ [input.getD n 0] := by
  rw [take_succ_eq_append_getElem h, getD_eq_getElem _ _ h]

def streamBits (bytes : List UInt8) : List Bool :=
  bytes.flatMap (fun b => bitsOf 8 b.toNat)

@[simp] theorem streamBits_nil : streamBits [] = [] := rfl

theorem streamBits_cons (b : UInt8) (bytes : List UInt8) :
    streamBits (b :: bytes) = bitsOf 8 b.toNat ++ streamBits bytes := by
  simp [streamBits]

@[simp] theorem streamBits_append (as bs : List UInt8) :
    streamBits (as ++ bs) = streamBits as ++ streamBits bs := by
  simp [streamBits]

@[simp] theorem streamBits_length (bytes : List UInt8) :
    (streamBits bytes).length = 8 * bytes.length := by
  induction bytes with
  | nil => rfl
  | cons b bytes ih =>
    rw [streamBits_cons, length_append, bitsOf_length, ih, length_cons]
    omega

/-- Where bits are read from: the next `n` bits as a number, dropping the rest of the
current byte, and giving up. -/
class BitSource (M : Type → Type) extends Monad M where
  bits : Nat → M Nat
  dropPartial : M Unit
  failRead {α : Type} : M α

/-- The outcome of reading from a bit list. -/
inductive Parse (α : Type) where
  | ok (a : α) (rest : List Bool)
  | short
  | bad
deriving Repr

def BitParser (α : Type) := List Bool → Parse α

namespace BitParser

variable {α β : Type}

def pure (a : α) : BitParser α := fun bs => .ok a bs

def reject : BitParser α := fun _ => .bad

/-- Read with `p`, then with what its value selects. -/
def bind (p : BitParser α) (f : α → BitParser β) : BitParser β := fun bs =>
  match p bs with
  | .ok a rest => f a rest
  | .short => .short
  | .bad => .bad

/-- The next `n` bits as a number. -/
def take (n : Nat) : BitParser Nat := fun bs =>
  if n ≤ bs.length then .ok (valueOf (bs.take n)) (bs.drop n) else .short

/-- Drop the rest of a byte.  The stream ends at a byte boundary, so the bits of the
byte that is being read are those beyond a multiple of eight. -/
def align : BitParser Unit := fun bs => .ok () (bs.drop (bs.length % 8))

instance : BitSource BitParser where
  pure := pure
  bind := bind
  bits := take
  dropPartial := align
  failRead := reject

theorem take_append {n v : Nat} (h : v < 2 ^ n) (rest : List Bool) :
    take n (bitsOf n v ++ rest) = .ok v rest := by
  have hlen : n ≤ (bitsOf n v ++ rest).length := by simp
  unfold take
  rw [if_pos hlen, take_left' (bitsOf_length n v), drop_left' (bitsOf_length n v),
    valueOf_bitsOf_of_lt h]

theorem take_ok {n v : Nat} {bs rest : List Bool} (h : take n bs = .ok v rest) :
    v < 2 ^ n ∧ rest.length + n = bs.length := by
  unfold take at h
  split_ifs at h with hn
  injection h with h1 h2
  constructor
  · have := valueOf_lt (bs.take n)
    rw [length_take, Nat.min_eq_left hn, h1] at this
    exact this
  · rw [← h2, length_drop]
    omega

variable {p : BitParser α} {f : α → BitParser β}

theorem bind_ok {bs rest : List Bool} {b : β} (h : bind p f bs = .ok b rest) :
    ∃ a mid, p bs = .ok a mid ∧ f a mid = .ok b rest := by
  unfold bind at h
  cases hp : p bs with
  | ok a mid =>
    rw [hp] at h
    exact ⟨a, mid, rfl, h⟩
  | short | bad =>
    rw [hp] at h
    cases h

/-- Whole bytes behind the input change neither a value nor a rejection. -/
def Steady (p : BitParser α) : Prop :=
  ∀ (bs more : List Bool), 8 ∣ more.length →
    (∀ a rest, p bs = .ok a rest → p (bs ++ more) = .ok a (rest ++ more)) ∧
      (p bs = .bad → p (bs ++ more) = .bad)

/-- The parser reads at most `k` bits, and never asks for more than `k`. -/
def Within (k : Nat) (p : BitParser α) : Prop :=
  ∀ bs : List Bool,
    (∀ a rest, p bs = .ok a rest → ∃ used, bs = used ++ rest ∧ used.length ≤ k) ∧
      (p bs = .short → bs.length < k)

theorem steady_pure (a : α) : Steady (pure a) := by
  intro bs more _
  constructor
  · intro b rest h
    cases h
    rfl
  · intro h
    cases h

theorem steady_reject : Steady (reject : BitParser α) := by
  intro bs more _
  exact ⟨fun a rest h => (by cases h), fun _ => rfl⟩

theorem steady_bind (hp : Steady p) (hf : ∀ a, Steady (f a)) : Steady (bind p f) := by
  intro bs more hmore
  obtain ⟨h1, h2⟩ := hp bs more hmore
  unfold bind
  cases hb : p bs with
  | ok a rest =>
    obtain ⟨h3, h4⟩ := hf a rest more hmore
    rw [h1 a rest hb]
    exact ⟨h3, h4⟩
  | short => exact ⟨fun a rest h => (by cases h), fun h => (by cases h)⟩
  | bad =>
    rw [h2 hb]
    exact ⟨fun a rest h => (by cases h), fun _ => rfl⟩

theorem steady_take (n : Nat) : Steady (take n) := by
  intro bs more _
  unfold take
  constructor
  · intro a rest h
    split_ifs at h with hn
    injection h with h1 h2
    have hn' : n ≤ (bs ++ more).length := by
      rw [length_append]
      omega
    rw [if_pos hn', take_append_of_le_length hn, drop_append_of_le_length hn, h1, h2]
  · intro h
    split_ifs at h

theorem steady_align : Steady align := by
  intro bs more hmore
  constructor
  · intro a rest h
    injection h with h1 h2
    have hmod : (bs ++ more).length % 8 = bs.length % 8 := by
      rw [length_append]
      omega
    unfold align
    rw [hmod, drop_append_of_le_length (Nat.mod_le _ _), h2]
  · intro h
    cases h

theorem within_pure (a : α) (k : Nat) : Within k (pure a) := by
  intro bs
  constructor
  · intro b rest h
    injection h with _ h2
    exact ⟨[], by simp [h2], Nat.zero_le _⟩
  · intro h
    cases h

theorem within_reject (k : Nat) : Within k (reject : BitParser α) := by
  intro bs
  exact ⟨fun a rest h => (by cases h), fun h => (by cases h)⟩

theorem within_bind {j k : Nat} (hp : Within j p) (hf : ∀ a, Within k (f a)) :
    Within (j + k) (bind p f) := by
  intro bs
  obtain ⟨h1, h2⟩ := hp bs
  unfold bind
  cases hb : p bs with
  | ok a rest =>
    obtain ⟨used, rfl, hlen⟩ := h1 a rest hb
    obtain ⟨h3, h4⟩ := hf a rest
    constructor
    · intro b rest' h
      obtain ⟨used', rfl, hlen'⟩ := h3 b rest' h
      exact ⟨used ++ used', by simp, by rw [length_append]; omega⟩
    intro h
    have := h4 h
    rw [length_append]
    omega
  | short =>
    refine ⟨fun a rest h => (by cases h), fun _ => ?_⟩
    have := h2 hb
    omega
  | bad => exact ⟨fun a rest h => (by cases h), fun h => (by cases h)⟩

theorem within_take {n k : Nat} (h : n ≤ k) : Within k (take n) := by
  intro bs
  unfold take
  constructor
  · intro a rest hok
    split_ifs at hok with hn
    cases hok
    exact ⟨bs.take n, by rw [take_append_drop], by
      rw [length_take]
      omega⟩
  intro hshort
  split_ifs at hshort with hn
  omega

theorem within_take_bind {f : Nat → BitParser β} {n k : Nat}
    (hf : ∀ v, v < 2 ^ n → Within k (f v)) : Within (n + k) (bind (take n) f) := by
  intro bs
  unfold bind take
  by_cases hn : n ≤ bs.length
  · simp only [if_pos hn]
    have hv : valueOf (bs.take n) < 2 ^ n := by
      have := valueOf_lt (bs.take n)
      rwa [length_take, Nat.min_eq_left hn] at this
    obtain ⟨h1, h2⟩ := hf _ hv (bs.drop n)
    constructor
    · intro a rest h
      obtain ⟨used, hused, hlen⟩ := h1 a rest h
      refine ⟨bs.take n ++ used, ?_, ?_⟩
      · rw [append_assoc, ← hused, take_append_drop]
      · rw [length_append, length_take]
        omega
    intro h
    have := h2 h
    rw [length_drop] at this
    omega
  · simp only [if_neg hn]
    refine ⟨fun a rest h => (by cases h), fun _ => by omega⟩

theorem within_align {k : Nat} (h : 7 ≤ k) : Within k align := by
  intro bs
  constructor
  · intro a rest hok
    cases hok
    refine ⟨bs.take (bs.length % 8), by rw [take_append_drop], ?_⟩
    rw [length_take]
    omega
  · intro hshort
    cases hshort

theorem within_mono {j k : Nat} (h : j ≤ k) (hp : Within j p) : Within k p := by
  intro bs
  obtain ⟨h1, h2⟩ := hp bs
  constructor
  · intro a rest hok
    obtain ⟨used, hbs, hlen⟩ := h1 a rest hok
    exact ⟨used, hbs, le_trans hlen h⟩
  · intro hshort
    exact lt_of_lt_of_le (h2 hshort) h

end BitParser

end Dyn.Lib
