import Dyn.Backend.Ssa
import Dyn.Lib.Reciprocal

/-!
# backend/ssa: division by a constant

A division by a constant becomes shifts, or a multiplication by a reciprocal with corrections.
The values that replace it stand in front of it in its block, and it becomes a copy of the last
one.
-/

namespace Dyn.Backend

open Lib List Function

/-- The loop of `ssa_divide_wide`, with the bits that are left. -/
def divideWideLoop (d : BitVec 64) : Nat → BitVec 64 → BitVec 64 → BitVec 64 × BitVec 64
  | 0, quotient, r => (quotient, r)
  | bit + 1, quotient, r =>
      let carry := r >>> 63 ≠ 0
      let r := r <<< 1
      let quotient := quotient <<< 1
      if carry ∨ r ≥ d then divideWideLoop d bit (quotient ||| 1) (r - d)
      else divideWideLoop d bit quotient r

/-- The quotient and the remainder of `high * 2 ^ 64` by `d`. -/
def ssaDivideWide (high d : BitVec 64) : BitVec 64 × BitVec 64 := divideWideLoop d 64 0 high

/-- A position in a block: the values in front of it. -/
structure Cursor where
  s : Ssa
  block : Nat
  items : List Nat := []

abbrev Emit := StateM Cursor

def ssaInsert (op : SsaOp) (a c : Option Nat) (aux aux2 : BitVec 64) : Emit (Option Nat) :=
  fun cursor =>
    let (s, v) := ssaValue cursor.s cursor.block op .int a c none aux aux2
    (some v, { cursor with s := s, items := cursor.items ++ [v] })

def constant (bits : BitVec 64) : Emit (Option Nat) := ssaInsert .const none none bits 0

/-- The multiplier for the divisor `d`, and whether its top bit is left out. -/
def reciprocal (places log : Nat) (d : BitVec 64) : BitVec 64 × Bool :=
  let (m, r) := ssaDivideWide ((1 : BitVec 64) <<< places) d
  let e := d - r
  if e ≥ (1 : BitVec 64) <<< log then
    let twice := r + r
    let m := m + m
    ((if twice ≥ d ∨ twice < r then m + 1 else m) + 1, true)
  else (m + 1, false)

/-- Negative values are raised by `d - 1`, so that the shift truncates toward zero. -/
def shiftedQuotient (x : Option Nat) (log : Nat) : Emit (Option Nat) := do
  let sh63 ← ssaInsert .sar x (← constant 63) 0 0
  let bias ← ssaInsert .shr sh63 (← constant (64 - log : Nat)) 0 0
  let biased ← ssaInsert .add x bias 0 0
  ssaInsert .sar biased (← constant log) 0 0

def shiftBy (op : SsaOp) (t : Option Nat) (shift : Nat) : Emit (Option Nat) :=
  if shift ≠ 0 then do ssaInsert op t (← constant shift) 0 0
  else return t

def unsignedQuotient (x : Option Nat) (log : Nat) (d : BitVec 64) : Emit (Option Nat) := do
  let (m, add) := reciprocal log log d
  let t ← ssaInsert .mulh x (← constant m) 0 0
  if add then
    let diff ← ssaInsert .sub x t 0 0
    let half ← ssaInsert .shr diff (← constant 1) 0 0
    let sum ← ssaInsert .add half t 0 0
    ssaInsert .shr sum (← constant log) 0 0
  else shiftBy .shr t log

/-- A product that was rounded down is shifted and rounded toward zero. -/
def towardZero (t : Option Nat) (shift : Nat) : Emit (Option Nat) := do
  let shifted ← shiftBy .sar t shift
  let negative ← ssaInsert .shr shifted (← constant 63) 0 0
  ssaInsert .add shifted negative 0 0

def signedQuotient (x : Option Nat) (log : Nat) (d : BitVec 64) : Emit (Option Nat) := do
  let (m, add) := reciprocal (log - 1) log d
  let t ← ssaInsert .mulh x (← constant m) 0 1
  if add then
    let t ← ssaInsert .add t x 0 0
    towardZero t log
  else towardZero t (log - 1)

/-- The quotient of a division that needs more than one operation. -/
def quotientOf (x : Option Nat) (log : Nat) (d : BitVec 64) (sign : Bool) : Emit (Option Nat) :=
  if d &&& (d - 1) = 0 then shiftedQuotient x log
  else if sign = false then unsignedQuotient x log d
  else signedQuotient x log d

def remainderOf (x q : Option Nat) (d : BitVec 64) : Emit (Option Nat) := do
  let product ← ssaInsert .mul q (← constant d) 0 0
  ssaInsert .sub x product 0 0

/-- The values for the quotient or the remainder of `x` by `d`. -/
def ssaDivide (x : Option Nat) (d : BitVec 64) (sign rem : Bool) : Emit (Option Nat) := do
  let log := Nat.log2 d.toNat
  if sign = false ∧ d = 1 then
    if rem then constant 0 else return x
  else if sign = false ∧ d &&& (d - 1) = 0 then
    if rem then ssaInsert .and x (← constant (d - 1)) 0 0
    else ssaInsert .shr x (← constant log) 0 0
  else
    let q ← quotientOf x log d sign
    if rem then remainderOf x q d else return q

/-- The divisor of a division that is rewritten. -/
def divisor (s : Ssa) (v : SsaValue) : Option (BitVec 64) :=
  if v.op ≠ .div ∧ v.op ≠ .rem then none
  else
    match ssaIsConst s v.b with
    | none => none
    | some d => if d = 0 ∨ v.aux2 ≠ 0 ∧ d.sle 1 then none else some d

def divideValue (id : Nat) (cursor : Cursor) : Cursor :=
  let v := cursor.s.value id
  match divisor cursor.s v with
  | none => { cursor with items := cursor.items ++ [id] }
  | some d =>
      let (q, cursor) := ssaDivide v.a d (v.aux2 ≠ 0) (v.op = .rem) cursor
      { cursor with s := ssaReplace cursor.s id q, items := cursor.items ++ [id] }

def divideBlock (s : Ssa) (b : Nat) : Ssa :=
  let cursor := (s.block b).values.foldl (fun cursor id => divideValue id cursor) { s := s, block := b }
  { cursor.s with blocks := cursor.s.blocks.set b { s.block b with values := cursor.items } }

def ssaDivisions (ctx : BackendContext) (s : Ssa) (order : List Nat) : Ssa :=
  -- Pair targets use the helpers for divisions.
  if ctx.rv32 || ctx.t32 then s else order.foldl divideBlock s

def mulHigh (sign : Bool) (a b : BitVec 64) : BitVec 64 :=
  if sign then BitVec.ofInt 64 (a.toInt * b.toInt / 2 ^ 64)
  else BitVec.ofNat 64 (a.toNat * b.toNat / 2 ^ 64)

def quotient (sign : Bool) (a b : BitVec 64) : BitVec 64 := if sign then a.sdiv b else a.udiv b

/-- The remainder, with the sign of the dividend. -/
def remainder (sign : Bool) (a b : BitVec 64) : BitVec 64 := if sign then a.srem b else a.umod b

/-- The result of an operation of 64-bit arithmetic, none for the others. -/
def operate (op : SsaOp) (aux aux2 a b : BitVec 64) : Option (BitVec 64) :=
  match op with
  | .const => some aux
  | .copy => some a
  | .add => some (a + b)
  | .sub => some (a - b)
  | .mul => some (a * b)
  | .and => some (a &&& b)
  | .shr => some (a >>> (b.toNat % 64))
  | .sar => some (a.sshiftRight (b.toNat % 64))
  | .mulh => some (mulHigh (aux2 ≠ 0) a b)
  | .div => some (quotient (aux2 ≠ 0) a b)
  | .rem => some (remainder (aux2 ≠ 0) a b)
  | _ => none

section Runs

variable (other : Nat → (Nat → BitVec 64) → BitVec 64)

/-- What the values of a block are while it runs.  `other` says what the other operations give. -/
def step (s : Ssa) (env : Nat → BitVec 64) (id : Nat) : Nat → BitVec 64 :=
  let v := s.value id
  update env id
    ((operate v.op v.aux v.aux2 (v.a.elim 0 env) (v.b.elim 0 env)).getD (other id env))

def run (s : Ssa) (items : List Nat) (env : Nat → BitVec 64) : Nat → BitVec 64 :=
  items.foldl (step other s) env

/-- The values from `c` to `c'` are new, and take `env` to `env'`. -/
structure Later (c : Cursor) (env : Nat → BitVec 64) (c' : Cursor) (env' : Nat → BitVec 64)
    (new : List SsaValue) : Prop where
  s : c'.s = { c.s with values := c.s.values ++ new }
  block : c'.block = c.block
  items : c'.items = c.items ++ List.range' c.s.values.length new.length
  runs : run other c'.s (List.range' c.s.values.length new.length) env = env'

/-- `id` is the number of a value that is `w`. -/
def Known (c : Cursor) (env : Nat → BitVec 64) (id : Option Nat) (w : BitVec 64) : Prop :=
  ∃ i, id = some i ∧ i < c.s.values.length ∧ env i = w

/-- From the position `c`, where the values are `env`, the emission ends in a value that is `w`. -/
def Emits (m : Emit (Option Nat)) (c : Cursor) (env : Nat → BitVec 64) (w : BitVec 64) : Prop :=
  ∃ env' new, Later other c env (m c).2 env' new ∧ Known (m c).2 env' (m c).1 w

end Runs

section Emissions

variable {other : Nat → (Nat → BitVec 64) → BitVec 64} {c c' c'' : Cursor} {env env' env'' : Nat → BitVec 64} {new new' : List SsaValue}
  {a b : Option Nat} {u w : BitVec 64}

variable (s : Ssa) {items : List Nat} {op : SsaOp} {aux2 : BitVec 64}

theorem run_append (xs ys : List Nat) (env : Nat → BitVec 64) :
    run other s (xs ++ ys) env = run other s ys (run other s xs env) := foldl_append

theorem run_congr {s s' : Ssa} (h : ∀ i ∈ items, s.value i = s'.value i) (env : Nat → BitVec 64) :
    run other s items env = run other s' items env := by
  induction items generalizing env with
  | nil => rfl
  | cons i rest ih =>
    have hstep : step other s env i = step other s' env i := by
      unfold step
      rw [h i mem_cons_self]
    unfold run at ih ⊢
    rw [foldl_cons, foldl_cons, hstep]
    exact ih (fun j hj => h j (mem_cons_of_mem _ hj)) _

theorem step_other (env : Nat → BitVec 64) {i j : Nat} (h : j ≠ i) :
    step other s env i j = env j := update_of_ne h _ _

theorem run_other (env : Nat → BitVec 64) {j : Nat} (h : j ∉ items) :
    run other s items env j = env j := by
  induction items generalizing env with
  | nil => rfl
  | cons i rest ih =>
    rw [mem_cons, not_or] at h
    exact (ih (step other s env i) h.2).trans (step_other s env h.1)

theorem value_append (new : List SsaValue) {i : Nat} (h : i < s.values.length) :
    ({ s with values := s.values ++ new } : Ssa).value i = s.value i := by
  unfold Ssa.value
  rw [getD_eq_getElem?_getD, getD_eq_getElem?_getD, getElem?_append_left h]

namespace Later

theorem length (h : Later other c env c' env' new) :
    c'.s.values.length = c.s.values.length + new.length := by
  rw [h.s, length_append]

theorem value (h : Later other c env c' env' new) {i : Nat} (hi : i < c.s.values.length) :
    c'.s.value i = c.s.value i := by
  rw [h.s]
  exact value_append c.s new hi

theorem kept (h : Later other c env c' env' new) {i : Nat} (hi : i < c.s.values.length) : env' i = env i := by
  rw [← h.runs]
  refine run_other _ _ fun hmem => ?_
  have hge := (mem_range'_1.mp hmem).1
  omega

theorem refl (c : Cursor) (env : Nat → BitVec 64) : Later other c env c env [] :=
  ⟨by rw [append_nil], rfl, by simp, rfl⟩

theorem trans (h : Later other c env c' env' new) (h' : Later other c' env' c'' env'' new') :
    Later other c env c'' env'' (new ++ new') := by
  have hrange : range' c.s.values.length (new ++ new').length =
      range' c.s.values.length new.length ++ range' c'.s.values.length new'.length := by
    rw [h.length, length_append, range'_append_1]
  refine ⟨by rw [h'.s, h.s, append_assoc], h'.block.trans h.block, ?_, ?_⟩
  · rw [h'.items, h.items, hrange, append_assoc]
  have hfirst : run other c''.s (range' c.s.values.length new.length) env = env' := by
    rw [← h.runs]
    refine run_congr (fun i hi => h'.value ?_) env
    have hlt := (mem_range'_1.mp hi).2
    rw [h.length]
    exact hlt
  rw [hrange, run_append, hfirst, h'.runs]

end Later

theorem Known.later (hk : Known c env a w) (h : Later other c env c' env' new) : Known c' env' a w := by
  obtain ⟨i, rfl, hi, hw⟩ := hk
  exact ⟨i, rfl, by rw [h.length]; omega, by rw [h.kept hi, hw]⟩

theorem Known.elim (hk : Known c env a w) : a.elim 0 env = w := by
  obtain ⟨i, rfl, -, hw⟩ := hk
  exact hw

theorem emits_pure (h : Known c env a w) : Emits other (pure a) c env w := ⟨env, [], Later.refl c env, h⟩

theorem Emits.bind {m : Emit (Option Nat)} {f : Option Nat → Emit (Option Nat)} (hm : Emits other m c env u)
    (hf : ∀ id c' env' new, Later other c env c' env' new → Known c' env' id u → Emits other (f id) c' env' w) :
    Emits other (m >>= f) c env w := by
  obtain ⟨env', new, hlater, hknown⟩ := hm
  obtain ⟨env'', new', hlater', hknown'⟩ := hf _ _ _ _ hlater hknown
  exact ⟨env'', new ++ new', hlater.trans hlater', hknown'⟩

theorem emits_insert {aux : BitVec 64}
    (h : operate op aux aux2 (a.elim 0 env) (b.elim 0 env) = some w) :
    Emits other (ssaInsert op a b aux aux2) c env w := by
  refine ⟨update env c.s.values.length w, [_], ⟨rfl, rfl, rfl, ?_⟩, c.s.values.length, rfl, ?_,
    update_self _ _ _⟩
  · change step other _ env c.s.values.length = _
    have hvalue : ((ssaInsert op a b aux aux2 c).2.s).value c.s.values.length =
        { op := op, cls := .int, effect := op.hasEffect, a := a, b := b, aux := aux, aux2 := aux2,
          block := c.block } := by
      simp [ssaInsert, ssaValue, Ssa.value]
    unfold step
    rw [hvalue]
    dsimp only
    rw [h, Option.getD_some]
  · simp [ssaInsert, ssaValue]

theorem emits_constant (bits : BitVec 64) : Emits other (constant bits) c env bits := emits_insert rfl

theorem emits_binary {v : BitVec 64} (ha : Known c env a u) (hb : Known c env b v)
    (h : operate op 0 aux2 u v = some w) : Emits other (ssaInsert op a b 0 aux2) c env w :=
  emits_insert (by rw [ha.elim, hb.elim, h])

theorem emits_constant_bind {bits : BitVec 64} (ha : Known c env a u)
    (h : operate op 0 aux2 u bits = some w) :
    Emits other (constant bits >>= fun id => ssaInsert op a id 0 aux2) c env w :=
  (emits_constant bits).bind fun _ _ _ _ hlater hid => emits_binary (ha.later hlater) hid h

end Emissions

end Dyn.Backend
