import Mathlib.Tactic

/-!
# Block streams

A function of blocks takes a message that arrives in pieces: `absorb` fills up a buffer first,
takes whole blocks from the input itself and buffers the rest.  It computes what `whole`, which
cuts the message into blocks, makes of all pieces together.
-/

namespace Dyn.Lib
namespace BlockStream

open List

universe u v

variable {σ : Type u} {β : Type v} (size : Nat) (block : σ → List β → σ)

/-- The state behind all whole blocks of a message, and what is left of it. -/
def whole (chain : σ) (message : List β) : σ × List β :=
  if 0 < size ∧ size ≤ message.length then
    whole (block chain (message.take size)) (message.drop size)
  else (chain, message)
termination_by message.length
decreasing_by
  rw [length_drop]
  omega

def absorb (chain : σ) (tail input : List β) : σ × List β :=
  if tail = [] then whole size block chain input
  else
    let filled := tail ++ input.take (size - tail.length)
    if filled.length = size then whole size block (block chain filled) (input.drop (size - tail.length))
    else (chain, filled)

variable {size} (hsize : 0 < size) {block} (chain : σ)

theorem whole_short (message : List β) (h : message.length < size) :
    whole size block chain message = (chain, message) := by
  rw [whole, if_neg (by omega)]

include hsize

theorem whole_block {first : List β} (hfirst : first.length = size) (rest : List β) :
    whole size block chain (first ++ rest) = whole size block (block chain first) rest := by
  rw [whole, if_pos ⟨hsize, by rw [length_append]; omega⟩, take_left' hfirst, drop_left' hfirst]

theorem whole_single {first : List β} (hfirst : first.length = size) :
    whole size block chain first = (block chain first, []) := by
  have hblock := @whole_block σ β size block hsize chain _ hfirst []
  rwa [append_nil, whole_short _ [] hsize] at hblock

theorem whole_double {message : List β} (h : message.length = 2 * size) :
    whole size block chain message =
      (block (block chain (message.take size)) (message.drop size), []) := by
  conv_lhs => rw [← take_append_drop size message]
  rw [whole_block hsize chain (by rw [length_take]; omega),
    whole_single hsize _ (by rw [length_drop]; omega)]

theorem whole_append (message rest : List β) :
    whole size block chain (message ++ rest) = whole size block (whole size block chain message).1
        ((whole size block chain message).2 ++ rest) := by
  induction chain, message using whole.induct size block with
  | case1 chain message hlong ih =>
    have hfirst : (message.take size).length = size := by
      rw [length_take]
      omega
    have hsplit := take_append_drop size message
    rw [whole.eq_1 size block chain message, if_pos hlong, ← ih]
    conv_lhs => rw [← hsplit, append_assoc]
    exact whole_block hsize chain hfirst _
  | case2 chain message hshort => rw [whole_short chain message (by omega)]

theorem whole_left_length (message : List β) :
    (whole size block chain message).2.length = message.length % size := by
  induction chain, message using whole.induct size block with
  | case1 chain message hlong ih =>
    rw [whole, if_pos hlong, ih, length_drop, ← Nat.mod_eq_sub_mod hlong.2]
  | case2 chain message hshort =>
    rw [whole_short chain message (by omega), Nat.mod_eq_of_lt (by omega)]

theorem absorb_eq {tail : List β} (htail : tail.length < size) (input : List β) :
    absorb size block chain tail input = whole size block chain (tail ++ input) := by
  unfold absorb
  split_ifs with hempty
  · rw [hempty, nil_append]
  simp only
  split_ifs with hfull
  · conv_rhs => rw [← take_append_drop (size - tail.length) input, ← append_assoc]
    exact (whole_block hsize chain hfull _).symm
  · rw [length_append, length_take] at hfull
    rw [take_of_length_le (by omega), whole_short chain _ (by rw [length_append]; omega)]

end BlockStream
end Dyn.Lib
