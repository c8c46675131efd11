import Dyn.Lib.Facts
import Dyn.Ir.Execution
import Dyn.Ir.RangeProofs

/-!
# ir: what a range says of a value

In a well-typed program the range of an expression covers every value that the expression has in a
state that the facts describe.
-/

namespace Dyn.Ir

open List

/-- What the checker ensures of the types: a literal is of its type, the operands of an operation have
one type, and a local is read and written at the type that it is declared with. -/
structure WellTyped (ir : DynIrProgram) (pointerBytes : Nat) : Prop where
  literal : ∀ id, (ir.expr id).kind = .int ∨ (ir.expr id).kind = .char →
    integerType (ir.expr id).type = true ∧ Fits pointerBytes (ir.expr id).type (ir.expr id).integer.toNat
  boolean : ∀ id, (ir.expr id).kind = .bool → (ir.expr id).type = .bool
  name : ∀ id, (ir.expr id).kind = .name → ir.locals[(ir.expr id).integer.toNat]? = some (ir.expr id).type
  operands : ∀ id, (ir.expr id).kind = .binary → (ir.expr id).op ∈ [.add, .mul, .bitAnd] →
    (ir.expr (ir.expr id).left).type = (ir.expr id).type ∧ (ir.expr (ir.expr id).right).type = (ir.expr id).type
  numeric : ∀ id, (ir.expr id).kind = .binary → (ir.expr id).op ∈ [.add, .mul] → (ir.expr id).type ≠ .bool
  comparison : ∀ id, (ir.expr id).kind = .binary → (ir.expr id).op ∈ [.lt, .le] →
    (ir.expr (ir.expr id).left).type = (ir.expr (ir.expr id).right).type
  written : ∀ s, writesLocal (ir.stmt s) = true → (ir.stmt s).localId ≠ noLocal →
    ir.locals[(ir.stmt s).localId]? = some (ir.expr (ir.stmt s).expression).type

/-- A value of the type `t` is in the range. -/
structure UIntRange.Covers (r : UIntRange) (pointerBytes : Nat) (t : DynType) (v : Nat) : Prop where
  valid : r.valid = true → scalarType t = true ∧ v ≤ r.max ∧ Fits pointerBytes t v
  exact : r.exact = true → r.valid = true ∧ v = r.value

theorem UIntRange.covers_unknown (pointerBytes : Nat) (t : DynType) (v : Nat) :
    UIntRange.Covers {} pointerBytes t v := ⟨nofun, nofun⟩

namespace RangeLocals

variable (locals : RangeLocals) (x y : Nat) (r : UIntRange)

@[simp] theorem has_set : rangeHasLocal (locals.set x r) y = rangeHasLocal locals y := by
  simp [rangeHasLocal, set]

@[simp] theorem has_clear : rangeHasLocal locals.clear y = rangeHasLocal locals y := by
  simp [rangeHasLocal, clear]

@[simp] theorem get_clear : locals.clear.get y = {} := by
  simp only [get, clear, getD_eq_getElem?_getD, getElem?_replicate]
  split <;> rfl

variable {locals x y}

theorem get_set_self (hx : rangeHasLocal locals x = true) : (locals.set x r).get x = r := by
  simp only [rangeHasLocal, decide_eq_true_eq] at hx
  simp [get, set, getD_eq_getElem?_getD, hx.2]

theorem get_set_of_ne (hx : rangeHasLocal locals x = true) (hy : rangeHasLocal locals y = true) (hne : y ≠ x) :
    (locals.set x r).get y = locals.get y := by
  simp only [rangeHasLocal, decide_eq_true_eq] at hx hy
  have hplace : x - locals.start ≠ y - locals.start := by omega
  simp [get, set, getD_eq_getElem?_getD, hplace]

end RangeLocals

variable {ir : DynIrProgram} {pointerBytes : Nat}

theorem unsignedMax_le (t : DynType) (pointerBytes : Nat) : unsignedMax t pointerBytes ≤ uint64Max := by
  unfold unsignedMax uint64Max
  split_ifs <;> omega

variable {t : DynType} {e : DynIrExpr} {v fuel id : Nat} {es : List Event}

theorem scalarType_of_unsigned (h : unsignedType t = true) : scalarType t = true := by
  simp [scalarType, integerType, h]

theorem integerType_of_scalar (h : scalarType t = true) (hbool : t ≠ .bool) :
    integerType t = true := by
  simpa [scalarType, hbool] using h

theorem fits_normalize (v : Nat) : Fits pointerBytes t (normalize pointerBytes t v) := by
  intro ht
  simp only [normalize, ht, if_true]
  exact Nat.le_of_lt_succ (Nat.mod_lt _ (Nat.succ_pos _))

theorem covers_convert {source : UIntRange} {w : Nat} (hunsigned : unsignedType e.type = true)
    (h : source.Covers pointerBytes t v) (hw : Converts pointerBytes e t v w) :
    (convertRange (unsignedMax e.type pointerBytes) source).Covers pointerBytes e.type w := by
  have hscalar := scalarType_of_unsigned hunsigned
  have hfits : w ≤ unsignedMax e.type pointerBytes := by
    unfold Converts at hw
    split at hw
    · rw [hw]
      exact fits_normalize v hunsigned
    · exact hw hunsigned
  unfold convertRange
  split
  · exact ⟨fun _ => ⟨hscalar, hfits, fun _ => hfits⟩, nofun⟩
  rename_i hsource
  push Not at hsource
  -- the value is kept as it is
  obtain ⟨ht, hle, -⟩ := h.valid hsource.1
  have hinteger : integerType e.type = true := by simp [integerType, hunsigned]
  have hkept : w = v := by
    simp only [Converts, ht, hinteger, and_self, if_true, normalize, hunsigned] at hw
    rw [hw, Nat.mod_eq_of_lt (by omega)]
  subst hkept
  have hmax : w ≤ if source.max < unsignedMax e.type pointerBytes then source.max
      else unsignedMax e.type pointerBytes := by split <;> omega
  dsimp only
  split
  · exact ⟨fun _ => ⟨hscalar, hmax, fun _ => hfits⟩, nofun⟩
  · exact ⟨fun _ => ⟨hscalar, hmax, fun _ => hfits⟩, h.exact⟩

theorem asSigned_mod (v : Nat) : asSigned v % 2 ^ 64 = (v : Int) % 2 ^ 64 := by
  unfold asSigned
  split <;> omega

theorem asSigned_add (l r : Nat) : (asSigned l + asSigned r) % 2 ^ 64 = ((l + r : Nat) : Int) % 2 ^ 64 := by
  rw [Int.add_emod, asSigned_mod, asSigned_mod, ← Int.add_emod, Int.natCast_add]

theorem asSigned_mul (l r : Nat) : (asSigned l * asSigned r) % 2 ^ 64 = ((l * r : Nat) : Int) % 2 ^ 64 := by
  rw [Int.mul_emod, asSigned_mod, asSigned_mod, ← Int.mul_emod, Int.natCast_mul]

variable {f : Int → Int → Int} {n l r : Nat} {left right : UIntRange} {σ σ' : State}
  {locals : RangeLocals}

/-- A checked operation that succeeds gives the low bits of its result, and of an unsigned type all of
them. -/
theorem checked_eq (hunsigned : f l r = n)
    (hsigned : f (asSigned l) (asSigned r) % 2 ^ 64 = (n : Int) % 2 ^ 64)
    (h : checked pointerBytes t f l r = some v) :
    v = n % 2 ^ 64 ∧ (unsignedType t = true → v = n ∧ n ≤ unsignedMax t pointerBytes) := by
  have hmax := unsignedMax_le t pointerBytes
  unfold uint64Max at hmax
  unfold checked at h
  split at h
  · rename_i ht
    split at h
    · rename_i hrange
      cases h
      rw [hunsigned] at hrange ⊢
      exact ⟨by omega, fun _ => ⟨by trivial, by omega⟩⟩
    · cases h
  rename_i ht
  split at h
  · rename_i bits _
    dsimp only at h
    split at h
    · cases h
      rw [hsigned]
      exact ⟨by omega, fun htrue => absurd htrue ht⟩
    · cases h
  · cases h

/-- The low bits of the sum or product that an operation without wrapping gives. -/
theorem arithmetic_eq (hunsigned : f l r = n)
    (hsigned : f (asSigned l) (asSigned r) % 2 ^ 64 = (n : Int) % 2 ^ 64)
    (hinteger : integerType e.type = true) (hwrap : e.wrap = false)
    (h : Arithmetic pointerBytes e f l r v) :
    v = n % 2 ^ 64 ∧ (unsignedType e.type = true → v = n ∧ n ≤ unsignedMax e.type pointerBytes) := by
  simp only [Arithmetic, hinteger, hwrap, if_true, Bool.false_eq_true, if_false] at h
  exact checked_eq hunsigned hsigned h

theorem covers_arithmetic {max : Nat} (hinteger : integerType e.type = true)
    (hv : v = n % 2 ^ 64 ∧ (unsignedType e.type = true → v = n ∧ n ≤ unsignedMax e.type pointerBytes))
    (hmax : n ≤ max) {value : Nat} (hexact : left.exact = true → right.exact = true → n = value) :
    (⟨true, left.exact && right.exact, max, value % 2 ^ 64⟩ : UIntRange).Covers pointerBytes e.type v where
  valid _ := by
    refine ⟨by simp [scalarType, hinteger], by dsimp only; omega, fun ht => ?_⟩
    obtain ⟨-, hn⟩ := hv.2 ht
    omega
  exact h := by
    simp only [Bool.and_eq_true] at h
    refine ⟨rfl, ?_⟩
    rw [hv.1, hexact h.1 h.2]

/-- An upper bound may be replaced by another that holds under a condition. -/
theorem le_tighten {max value : Nat} {exact : Prop} [Decidable exact] (hmax : v ≤ max)
    (hexact : exact → v ≤ value) : v ≤ if exact ∧ value < max then value else max := by
  split
  · rename_i h
    exact hexact h.1
  · exact hmax

theorem covers_bitAnd (hl : left.Covers pointerBytes t l) (hr : right.Covers pointerBytes t r) :
    (binaryRange .bitAnd left right).Covers pointerBytes t (l &&& r) := by
  unfold binaryRange
  split
  · exact UIntRange.covers_unknown _ _ _
  rename_i hvalid
  push Not at hvalid
  obtain ⟨hscalar, hlmax, hlfits⟩ := hl.valid hvalid.1
  obtain ⟨-, hrmax, -⟩ := hr.valid hvalid.2
  have hleL : l &&& r ≤ l := Nat.and_le_left
  have hleR : l &&& r ≤ r := Nat.and_le_right
  simp only [if_true]
  constructor
  · refine fun _ => ⟨hscalar, ?_, fun ht => Nat.le_trans hleL (hlfits ht)⟩
    refine le_tighten (le_tighten ?_ fun h => (hr.exact h).2 ▸ hleR) fun h => (hl.exact h).2 ▸ hleL
    split <;> omega
  intro h
  simp only [Bool.and_eq_true] at h
  rw [← (hl.exact h.1).2, ← (hr.exact h.2).2]
  exact ⟨rfl, rfl⟩

theorem covers_binary (hwrap : e.wrap = false) (hop : e.op ∈ [Operator.add, .mul, .bitAnd])
    (hnumeric : e.op ∈ [Operator.add, .mul] → e.type ≠ .bool)
    (hl : left.Covers pointerBytes e.type l) (hr : right.Covers pointerBytes e.type r)
    (hv : Computes pointerBytes e t l r v) :
    (binaryRange e.op left right).Covers pointerBytes e.type v := by
  by_cases hvalid : ¬ left.valid = true ∨ ¬ right.valid = true
  · rw [binaryRange, if_pos hvalid]
    exact UIntRange.covers_unknown _ _ _
  have hboth := hvalid
  push Not at hboth
  obtain ⟨hscalar, hlmax, -⟩ := hl.valid hboth.1
  obtain ⟨-, hrmax, -⟩ := hr.valid hboth.2
  simp only [mem_cons, not_mem_nil, or_false] at hop hnumeric
  obtain hadd | hmul | hand := hop
  · have hinteger := integerType_of_scalar hscalar (hnumeric (.inl hadd))
    simp only [Computes, hadd] at hv
    have hsum := arithmetic_eq (Int.natCast_add l r).symm (asSigned_add l r) hinteger hwrap hv
    rw [binaryRange, if_neg hvalid, if_neg (by simp [hadd])]
    split
    · exact covers_arithmetic hinteger hsum (by omega) fun h h' => by rw [← (hl.exact h).2, ← (hr.exact h').2]
    · rw [if_neg (by simp [hadd])]
      exact UIntRange.covers_unknown _ _ _
  · have hinteger := integerType_of_scalar hscalar (hnumeric (.inr hmul))
    simp only [Computes, hmul] at hv
    have hproduct := arithmetic_eq (Int.natCast_mul l r).symm (asSigned_mul l r) hinteger hwrap hv
    rw [binaryRange, if_neg hvalid, if_neg (by simp [hmul]), if_neg (by simp [hmul])]
    split
    · exact covers_arithmetic hinteger hproduct (Nat.mul_le_mul hlmax hrmax)
        fun h h' => by rw [← (hl.exact h).2, ← (hr.exact h').2]
    · exact UIntRange.covers_unknown _ _ _
  · simp only [Computes, hand] at hv
    rw [hv hscalar, hand]
    exact covers_bitAnd hl hr

theorem binaryRange_other {op : Operator} (left right : UIntRange) (hop : op ∉ [Operator.add, .mul, .bitAnd]) :
    binaryRange op left right = {} := by
  simp only [mem_cons, not_mem_nil, or_false, not_or] at hop
  simp [binaryRange, hop.1, hop.2.1, hop.2.2]

/-- The operands of a check have the values that they are checked with. -/
def Event.Grounded (ir : DynIrProgram) (pointerBytes : Nat) (σ : State) : Event → Prop
  | .index id i => (ir.expr id).kind = .index ∧ rangePure ir ir.depth (ir.expr id).right = true ∧
      ∃ es, Eval ir pointerBytes (ir.expr id).right σ es (some (i, σ))
  | .add id l r => (ir.expr id).kind = .binary ∧ (ir.expr id).op = .add ∧
      rangePure ir ir.depth (ir.expr id).left = true ∧ rangePure ir ir.depth (ir.expr id).right = true ∧
      (∃ es, Eval ir pointerBytes (ir.expr id).left σ es (some (l, σ))) ∧
      ∃ es, Eval ir pointerBytes (ir.expr id).right σ es (some (r, σ))

theorem rangePure_eq (ir : DynIrProgram) (fuel id : Nat) : rangePure ir (fuel + 1) id =
    if ¬ ir.hasExpr id = true then false
    else if (ir.expr id).kind = .int ∨ (ir.expr id).kind = .char ∨ (ir.expr id).kind = .bool ∨
        (ir.expr id).kind = .name ∨ (ir.expr id).kind = .global then true
    else if (ir.expr id).kind = .convert ∨ (ir.expr id).kind = .cast then rangePure ir fuel (ir.expr id).left
    else if (ir.expr id).kind = .index ∨ (ir.expr id).kind = .binary then
      rangePure ir fuel (ir.expr id).left && rangePure ir fuel (ir.expr id).right
    else false := rfl

theorem rangePure_succ (h : rangePure ir fuel id = true) : rangePure ir (fuel + 1) id = true := by
  induction fuel generalizing id with
  | zero => cases h
  | succ fuel ih =>
    rw [rangePure_eq] at h ⊢
    split_ifs at h ⊢ with hid hleaf hconvert hpair
    · rfl
    · exact ih h
    · simp only [Bool.and_eq_true] at h ⊢
      exact ⟨ih h.1, ih h.2⟩

theorem rangePure_le {fuel' : Nat} (hle : fuel ≤ fuel') (h : rangePure ir fuel id = true) :
    rangePure ir fuel' id = true := by
  induction hle with
  | refl => exact h
  | step _ ih => exact rangePure_succ ih

theorem rangePure_parts (h : rangePure ir (fuel + 1) id = true) :
    ir.hasExpr id = true ∧ (ir.expr id).kind ∈ [ExprKind.int, .char, .bool, .name, .global, .convert, .cast, .index, .binary] ∧
    ((ir.expr id).kind = .convert ∨ (ir.expr id).kind = .cast → rangePure ir fuel (ir.expr id).left = true) ∧
    ((ir.expr id).kind = .index ∨ (ir.expr id).kind = .binary →
      rangePure ir fuel (ir.expr id).left = true ∧ rangePure ir fuel (ir.expr id).right = true) := by
  rw [rangePure_eq] at h
  split_ifs at h with hid hleaf hconvert hpair
  · exact ⟨hid, by simp only [mem_cons]; tauto, fun hc => by obtain hc | hc := hc <;> simp [hc] at hleaf,
      fun hc => by obtain hc | hc := hc <;> simp [hc] at hleaf⟩
  · exact ⟨hid, by simp only [mem_cons]; tauto, fun _ => h, fun hc => by
      obtain hc | hc := hc <;> simp [hc] at hconvert⟩
  simp only [Bool.and_eq_true] at h
  exact ⟨hid, by simp only [mem_cons]; tauto, fun hc => by obtain hc | hc := hc <;> simp [hc] at hpair,
    fun _ => h⟩

theorem operands_of_index (h : e.kind = .index) : Ir.operands e = (e.right, e.left) := by
  simp [Ir.operands, h]

theorem operands_of_binary (h : e.kind = .binary) : Ir.operands e = (e.left, e.right) := by
  simp [Ir.operands, h]

/-- A pure expression leaves the locals as they are, and its checks are on the values that the operands
have in this state. -/
theorem eval_pure {out : Option (Nat × State)} (hfuel : fuel ≤ ir.depth)
    (hpure : rangePure ir fuel id = true) (h : Eval ir pointerBytes id σ es out) :
    (∀ v σ', out = some (v, σ') → σ' = σ) ∧ ∀ ev ∈ es, Within ir id ev.id ∧ ev.Grounded ir pointerBytes σ := by
  induction fuel generalizing id es out with
  | zero => cases hpure
  | succ fuel ih =>
    obtain ⟨hid, hkinds, hunder, hpair⟩ := rangePure_parts hpure
    have hdepth : fuel ≤ ir.depth := by omega
    -- the operands of an index and of an operation
    have hfirst : (ir.expr id).kind = .index ∨ (ir.expr id).kind = .binary → ∀ {es out},
        Eval ir pointerBytes (Ir.operands (ir.expr id)).1 σ es out →
        (∀ v σ', out = some (v, σ') → σ' = σ) ∧ ∀ ev ∈ es, Within ir id ev.id ∧ ev.Grounded ir pointerBytes σ := by
      intro hkind es out heval
      obtain ⟨hleft, hright⟩ := hpair hkind
      obtain hkind | hkind := hkind
      · rw [operands_of_index hkind] at heval
        exact (ih hdepth hright heval).imp_right fun h ev hev => (h ev hev).imp_left .right
      · rw [operands_of_binary hkind] at heval
        exact (ih hdepth hleft heval).imp_right fun h ev hev => (h ev hev).imp_left .left
    have hsecond : (ir.expr id).kind = .index ∨ (ir.expr id).kind = .binary → ∀ {es out},
        Eval ir pointerBytes (Ir.operands (ir.expr id)).2 σ es out →
        (∀ v σ', out = some (v, σ') → σ' = σ) ∧ ∀ ev ∈ es, Within ir id ev.id ∧ ev.Grounded ir pointerBytes σ := by
      intro hkind es out heval
      obtain ⟨hleft, hright⟩ := hpair hkind
      obtain hkind | hkind := hkind
      · rw [operands_of_index hkind] at heval
        exact (ih hdepth hleft heval).imp_right fun h ev hev => (h ev hev).imp_left .left
      · rw [operands_of_binary hkind] at heval
        exact (ih hdepth hright heval).imp_right fun h ev hev => (h ev hev).imp_left .right
    cases h with
    | stop => exact ⟨nofun, nofun⟩
    | literal hkind | bool hkind | name hkind | global _ _ hkind => exact ⟨fun v σ' h => by cases h; rfl, nofun⟩
    | convertStop hkind h =>
      exact ⟨nofun, fun ev hev => ((ih hdepth (hunder hkind) h).2 ev hev).imp_left .left⟩
    | convert hkind h hw =>
      obtain ⟨hstate, hevents⟩ := ih hdepth (hunder hkind) h
      exact ⟨fun v σ' h => by cases h; exact hstate _ _ rfl, fun ev hev => (hevents ev hev).imp_left .left⟩
    | firstStop hkind h => exact ⟨nofun, (hfirst hkind h).2⟩
    | skip hkind hop h =>
      obtain ⟨hstate, hevents⟩ := ih hdepth (hpair (.inr hkind)).1 h
      exact ⟨fun v σ' h => by cases h; exact hstate _ _ rfl, fun ev hev => (hevents ev hev).imp_left .left⟩
    | secondStop hkind h h' =>
      obtain ⟨hstate, hevents⟩ := hfirst hkind h
      cases hstate _ _ rfl
      refine ⟨nofun, fun ev hev => ?_⟩
      obtain hev | hev := mem_append.mp hev
      · exact hevents ev hev
      · exact (hsecond hkind h').2 ev hev
    | checked hkind h h' hout =>
      obtain ⟨hstate, hevents⟩ := hfirst hkind h
      cases hstate _ _ rfl
      obtain ⟨hstate', hevents'⟩ := hsecond hkind h'
      cases hstate' _ _ rfl
      refine ⟨fun v σ' he => (hout v σ' he).1, fun ev hev => ?_⟩
      simp only [mem_append] at hev
      obtain (hev | hev) | hev := hev
      · exact hevents ev hev
      · exact hevents' ev hev
      -- the check of this expression
      obtain ⟨hleft, hright⟩ := hpair hkind
      have hleft := rangePure_le hdepth hleft
      have hright := rangePure_le hdepth hright
      unfold checks at hev
      obtain hkind | hkind := hkind
      · rw [operands_of_index hkind] at h
        simp only [hkind, if_true, mem_singleton] at hev
        subst hev
        exact ⟨.self hid, hkind, hright, _, h⟩
      rw [operands_of_binary hkind] at h h'
      simp only [hkind, reduceCtorEq, if_false] at hev
      split at hev
      · rename_i hop
        simp only [mem_singleton] at hev
        subst hev
        exact ⟨.self hid, hkind, hop, hleft, hright, ⟨_, h⟩, _, h'⟩
      · cases hev
    | other hkind hes => exact absurd hkinds hkind

theorem Eval.state_eq (hpure : rangePure ir ir.depth id = true)
    (h : Eval ir pointerBytes id σ es (some (v, σ'))) :
    σ' = σ := (eval_pure (Nat.le_refl _) hpure h).1 v σ' rfl

/-- The facts are true of the locals in the state. -/
def Knows (ir : DynIrProgram) (pointerBytes : Nat) (locals : RangeLocals) (σ : State) : Prop :=
  Lib.Describes (fun x (r : UIntRange) v => r.Covers pointerBytes (ir.locals.getD x .void) v)
    (fun x => rangeHasLocal locals x = true) locals.get σ

theorem uintRange_eq (ir : DynIrProgram) (locals : RangeLocals) (pointerBytes fuel id : Nat) :
    uintRange ir locals pointerBytes (fuel + 1) id =
    if ¬ ir.hasExpr id = true then {}
    else if (ir.expr id).kind = .bool then ⟨true, true, (ir.expr id).boolean.toNat, (ir.expr id).boolean.toNat⟩
    else if (ir.expr id).kind = .int ∨ (ir.expr id).kind = .char then
      ⟨true, true, (ir.expr id).integer.toNat, (ir.expr id).integer.toNat⟩
    else if (ir.expr id).kind = .name ∧ rangeHasLocal locals (ir.expr id).integer.toNat = true then
      locals.get (ir.expr id).integer.toNat
    else if (ir.expr id).kind = .convert ∨ (ir.expr id).kind = .cast then
      if ¬ unsignedType (ir.expr id).type = true then {}
      else convertRange (unsignedMax (ir.expr id).type pointerBytes)
        (uintRange ir locals pointerBytes fuel (ir.expr id).left)
    else if (ir.expr id).kind = .index ∧ unsignedType (ir.expr id).type = true then
      ⟨true, false, unsignedMax (ir.expr id).type pointerBytes, 0⟩
    else if (ir.expr id).kind ≠ .binary ∨ (ir.expr id).wrap = true then {}
    else
      binaryRange (ir.expr id).op (uintRange ir locals pointerBytes fuel (ir.expr id).left)
        (uintRange ir locals pointerBytes fuel (ir.expr id).right) := rfl

theorem uintRange_covers (hwt : WellTyped ir pointerBytes) (hknows : Knows ir pointerBytes locals σ)
    {depth : Nat} (hdepth : depth ≤ ir.depth) (hpure : rangePure ir depth id = true)
    (h : Eval ir pointerBytes id σ es (some (v, σ'))) :
    (uintRange ir locals pointerBytes fuel id).Covers pointerBytes (ir.expr id).type v := by
  induction fuel generalizing depth id v σ' es with
  | zero => exact UIntRange.covers_unknown _ _ _
  | succ fuel ih =>
    cases depth with
    | zero => cases hpure
    | succ depth =>
      obtain ⟨hid, hkinds, hunder, hpair⟩ := rangePure_parts hpure
      have hle : depth ≤ ir.depth := by omega
      rw [uintRange_eq, if_neg (not_not_intro hid)]
      cases h with
      | literal _ hkind =>
        obtain ⟨hinteger, hfits⟩ := hwt.literal id hkind
        rw [if_neg (by obtain hkind | hkind := hkind <;> simp [hkind]), if_pos hkind]
        exact ⟨fun _ => ⟨by simp [scalarType, hinteger], Nat.le_refl _, hfits⟩, fun _ => ⟨rfl, rfl⟩⟩
      | bool _ hkind =>
        rw [if_pos hkind, hwt.boolean id hkind]
        exact ⟨fun _ => ⟨rfl, Nat.le_refl _, nofun⟩, fun _ => ⟨rfl, rfl⟩⟩
      | name _ hkind =>
        rw [if_neg (by simp [hkind]), if_neg (by simp [hkind])]
        split
        · rename_i hhas
          have hcovers : UIntRange.Covers _ pointerBytes (ir.locals.getD _ .void) _ := hknows _ hhas.2
          rwa [getD_eq_getElem?_getD, hwt.name id hkind] at hcovers
        · simpa [hkind] using UIntRange.covers_unknown _ _ _
      | global _ _ hkind => simpa [hkind] using UIntRange.covers_unknown _ _ _
      | convert hkind h hw =>
        have hother : (ir.expr id).kind ≠ .bool ∧ ¬ ((ir.expr id).kind = .int ∨ (ir.expr id).kind = .char) ∧
            (ir.expr id).kind ≠ .name := by obtain hkind | hkind := hkind <;> simp [hkind]
        rw [if_neg hother.1, if_neg hother.2.1, if_neg (fun hc => hother.2.2 hc.1), if_pos hkind]
        split
        · exact UIntRange.covers_unknown _ _ _
        · rename_i hunsigned
          exact covers_convert (not_not.mp hunsigned) (ih hle (hunder hkind) h) hw
      | skip hkind hop h =>
        have hbinary : (ir.expr id).op ∉ [Operator.add, .mul, .bitAnd] := by
          obtain ⟨hop, -⟩ | ⟨hop, -⟩ := hop <;> simp [hop]
        simp only [hkind, reduceCtorEq, false_and, or_self, if_false, not_true_eq_false, ne_eq, false_or,
          binaryRange_other _ _ hbinary, ite_self]
        exact UIntRange.covers_unknown _ _ _
      | checked hkind h h' hout =>
        obtain ⟨rfl, hresults⟩ := hout _ _ rfl
        obtain ⟨hleft, hright⟩ := hpair hkind
        obtain hkind | hkind := hkind
        · simp only [Results, hkind, if_true] at hresults
          simp only [hkind, reduceCtorEq, false_and, or_self, if_false, true_and, ne_eq, not_false_eq_true,
            true_or, if_true]
          split
          · rename_i hunsigned
            exact ⟨fun _ => ⟨scalarType_of_unsigned hunsigned, hresults.2 hunsigned, hresults.2⟩, nofun⟩
          · exact UIntRange.covers_unknown _ _ _
        rw [operands_of_binary hkind] at h h'
        cases (eval_pure hle hleft h).1 _ _ rfl
        simp only [Results, hkind, reduceCtorEq, if_false] at hresults
        simp only [hkind, reduceCtorEq, false_and, or_self, if_false, ne_eq, not_true_eq_false, false_or]
        split_ifs with hwrap
        · exact UIntRange.covers_unknown _ _ _
        by_cases hop : (ir.expr id).op ∈ [Operator.add, .mul, .bitAnd]
        · have htypes := hwt.operands id hkind hop
          have hl := ih hle hleft h
          have hr := ih hle hright h'
          rw [htypes.1] at hl
          rw [htypes.2] at hr
          exact covers_binary (by simpa using hwrap) hop (hwt.numeric id hkind) hl hr hresults
        · rw [binaryRange_other _ _ hop]
          exact UIntRange.covers_unknown _ _ _
      | other hkind hes => exact absurd hkinds hkind

theorem rangeOf_covers (hwt : WellTyped ir pointerBytes) (hknows : Knows ir pointerBytes locals σ)
    (hpure : rangePure ir ir.depth id = true) (h : Eval ir pointerBytes id σ es (some (v, σ'))) :
    (ir.rangeOf locals pointerBytes id).Covers pointerBytes (ir.expr id).type v :=
  uintRange_covers hwt hknows (Nat.le_refl _) hpure h

theorem rangePure_of_exact (h : (uintRange ir locals pointerBytes fuel id).exact = true) :
    rangePure ir fuel id = true := by
  induction fuel generalizing id with
  | zero => cases h
  | succ fuel ih =>
    rw [uintRange_eq] at h
    rw [rangePure_eq]
    split_ifs at h with hid hbool hliteral hname hconvert hunsigned hindex hbinary
    · simp [hid, hbool]
    · rw [if_neg (not_not_intro hid), if_pos (by tauto)]
    · simp [hid, hname.1]
    · have hsource : (uintRange ir locals pointerBytes fuel (ir.expr id).left).exact = true := by
        unfold convertRange at h
        split at h
        · cases h
        dsimp only at h
        split at h
        · cases h
        · exact h
      simp only [ih hsource, hconvert, if_neg (not_not_intro hid), if_true, ite_self]
    have hboth : (uintRange ir locals pointerBytes fuel (ir.expr id).left).exact = true ∧
        (uintRange ir locals pointerBytes fuel (ir.expr id).right).exact = true := by
      unfold binaryRange at h
      split_ifs at h <;> simpa using h
    push Not at hbinary
    simp [hid, hbinary.1, ih hboth.1, ih hboth.2]

end Dyn.Ir
