import Dyn.Regex.Matching

/-!
# Character classes

What a class means (`denoted`) is read off the text between its brackets: possibly escaped bytes,
and ranges between two of them.  `width` finds the closing bracket past escapes, while `atom` takes
the upper bound of a range as it stands: where that is a backslash, it reads another text
(`class_consistent_iff`).
-/

namespace Dyn.Regex

open List

/-- A byte or a range, and the number of bytes that it is written with. -/
structure ClassItem where
  first : UInt8
  last : UInt8
  size : Nat
deriving DecidableEq, Repr

def ClassItem.has (item : ClassItem) (byte : UInt8) : Bool := byte ≥ item.first && byte ≤ item.last

/-- A possibly escaped byte, its size, and the bytes behind it. -/
def readByte : List UInt8 → Option (UInt8 × Nat × List UInt8)
  | [] => none
  | 92 :: byte :: rest => some (byte, 2, rest)
  | byte :: rest => some (byte, 1, rest)

/-- **The items of the text between the brackets.**  A bar at the end is a byte. -/
def denoted : Nat → List UInt8 → List ClassItem
  | 0, _ => []
  | n + 1, text =>
      match readByte text with
      | none => []
      | some (first, size, 45 :: after) =>
          match readByte after with
          | some (last, size', rest) => ⟨first, last, size + 1 + size'⟩ :: denoted n rest
          | none => ⟨first, first, size⟩ :: denoted n [45]
      | some (first, size, rest) => ⟨first, first, size⟩ :: denoted n rest

/-- A range of the text has an escaped upper bound. -/
def escapedUpper : Nat → List UInt8 → Bool
  | 0, _ => false
  | n + 1, text =>
      match readByte text with
      | none => false
      | some (_, _, 45 :: after) =>
          match readByte after with
          | some (_, size', rest) => size' == 2 || escapedUpper n rest
          | none => false
      | some (_, _, rest) => escapedUpper n rest

/-- The upper bound of a range as it stands behind a bar, and what follows it. -/
def upperBound : List UInt8 → Option (UInt8 × List UInt8)
  | 45 :: last :: rest => if last ≠ 93 then some (last, rest) else none
  | _ => none

/-- The items that the loop of `atom` reads, and the bytes at which it stops. -/
def classItems : Nat → List UInt8 → List ClassItem × List UInt8
  | 0, bytes => ([], bytes)
  | fuel + 1, bytes =>
      if bytes.head? = some 93 then ([], bytes)
      else
        match readByte bytes with
        | none => ([], bytes)
        | some (first, size, after) =>
            match upperBound after with
            | some (last, rest) =>
                let (items, stop) := classItems fuel rest
                (⟨first, last, size + 2⟩ :: items, stop)
            | none =>
                let (items, stop) := classItems fuel after
                (⟨first, first, size⟩ :: items, stop)

/-- Whether the class is of the bytes that it does not name. -/
def inverted (text : List UInt8) : Bool := text.head? == some 94

def membersOf (text : List UInt8) : List UInt8 := if inverted text then text.tail else text

/-- The text between the brackets that `width` finds. -/
def classText (pattern : List UInt8) (i : Nat) : List UInt8 :=
  slice pattern (i + 1) (i + width pattern i - 1)

/-- What `atom` reads of the class at an index. -/
def atomItems (pattern : List UInt8) (i : Nat) : List ClassItem × List UInt8 :=
  let members := membersOf (pattern.drop (i + 1))
  classItems (members.length + 1) members

/-- **`atom` reads the text between the brackets:** its items, which end at the closing bracket, and
it decides the set that they denote. -/
structure Consistent (pattern : List UInt8) (i : Nat) : Prop where
  items : (atomItems pattern i).1 = denoted (classText pattern i).length (membersOf (classText pattern i))
  stop : (atomItems pattern i).2 = pattern.drop (i + width pattern i - 1)
  decides : ∀ byte, atom pattern i byte =
    ((denoted (classText pattern i).length (membersOf (classText pattern i))).any (·.has byte) !=
      inverted (classText pattern i))

variable (byte : UInt8) {text pattern : List UInt8} {item : Instruction}

theorem eq_iff_has (first : UInt8) : (byte == first) = (byte ≥ first && byte ≤ first) := by
  rw [Bool.eq_iff_iff]
  simp only [beq_iff_eq, Bool.and_eq_true, decide_eq_true_eq]
  exact ⟨fun h => h ▸ ⟨UInt8.le_refl _, UInt8.le_refl _⟩, fun h => UInt8.le_antisymm h.2 h.1⟩

theorem classLoop_after (fuel : Nat) (found : Bool) (first : UInt8) (after : List UInt8) :
    (match after with
      | 45 :: last :: rest =>
        if last ≠ 93 then classLoop byte fuel rest (found || (byte ≥ first && byte ≤ last))
        else classLoop byte fuel after (found || byte == first)
      | _ => classLoop byte fuel after (found || byte == first)) =
      match upperBound after with
      | some (last, rest) => classLoop byte fuel rest (found || (byte ≥ first && byte ≤ last))
      | none => classLoop byte fuel after (found || byte == first) := by
  unfold upperBound
  split
  · split_ifs <;> rfl
  split
  · rename_i last rest heq
    cases heq
  · rfl

theorem classLoop_cons (fuel : Nat) {head : UInt8} {tail : List UInt8} (hclose : head ≠ 93)
    (found : Bool) {first : UInt8} {size : Nat} {after : List UInt8}
    (hread : readByte (head :: tail) = some (first, size, after)) :
    classLoop byte (fuel + 1) (head :: tail) found =
      match upperBound after with
      | some (last, rest) => classLoop byte fuel rest (found || (byte ≥ first && byte ≤ last))
      | none => classLoop byte fuel after (found || byte == first) := by
  rw [← classLoop_after]
  conv_lhs => unfold classLoop
  rw [if_neg hclose]
  unfold readByte at hread
  split at hread
  · cases hread
  · rename_i b rest heq
    cases heq
    cases hread
    rfl
  rename_i b rest hescape heq
  cases heq
  cases hread
  split
  rename_i first' after' hmatch
  split at hmatch
  · rename_i escaped rest'
    exact absurd rfl (hescape escaped rest' rfl)
  · cases hmatch
    rfl

theorem classLoop_items : ∀ (fuel : Nat) (bytes : List UInt8) (found : Bool),
    classLoop byte fuel bytes found = (found || (classItems fuel bytes).1.any (·.has byte)) := by
  intro fuel
  induction fuel with
  | zero => exact fun bytes found => (Bool.or_false found).symm
  | succ fuel ih =>
    intro bytes found
    cases bytes with
    | nil => exact (Bool.or_false found).symm
    | cons head tail =>
      unfold classItems
      by_cases hclose : head = 93
      · rw [if_pos (by rw [hclose]; rfl)]
        unfold classLoop
        rw [if_pos hclose]
        exact (Bool.or_false found).symm
      rw [if_neg (by simpa using hclose)]
      obtain ⟨first, size, after, hread⟩ : ∃ first size after,
          readByte (head :: tail) = some (first, size, after) := by
        unfold readByte
        split
        · rename_i heq
          cases heq
        · exact ⟨_, _, _, rfl⟩
        · exact ⟨_, _, _, rfl⟩
      rw [classLoop_cons byte fuel hclose found hread, hread]
      dsimp only
      cases upperBound after with
      | some range =>
        dsimp only
        rw [ih, any_cons, ← Bool.or_assoc]
        rfl
      | none =>
        rw [ih, any_cons, ← Bool.or_assoc, eq_iff_has]
        rfl

theorem readByte_members (h : Members text) (hne : text ≠ []) (behind : List UInt8) :
    ∃ first size rest, readByte text = some (first, size, rest) ∧
      readByte (text ++ 93 :: behind) = some (first, size, rest ++ 93 :: behind) ∧ Members rest ∧
      (size = 1 ∧ text = first :: rest ∧ first ≠ 92 ∧ first ≠ 93 ∨ size = 2 ∧ text = 92 :: first :: rest) := by
  cases h with
  | nil => exact absurd rfl hne
  | @escape byte rest h => exact ⟨byte, 2, rest, rfl, rfl, h, .inr ⟨rfl, rfl⟩⟩
  | @byte byte rest hescape hclose h =>
    have hread : ∀ more, readByte (byte :: more) = some (byte, 1, more) := by
      intro more
      unfold readByte
      split
      · rename_i heq
        cases heq
      · rename_i heq
        cases heq
        exact absurd rfl hescape
      rename_i heq
      cases heq
      rfl
    exact ⟨byte, 1, rest, hread rest, hread _, h, .inl ⟨rfl, rfl, hescape, hclose⟩⟩

section Items

variable (n : Nat) {text after rest : List UInt8} {first last : UInt8} {size size' : Nat}

theorem denoted_byte (hread : readByte text = some (first, size, rest)) (hbar : rest.head? ≠ some 45) :
    denoted (n + 1) text = ⟨first, first, size⟩ :: denoted n rest := by
  conv_lhs => unfold denoted
  rw [hread]
  split <;> simp_all

theorem escapedUpper_byte (hread : readByte text = some (first, size, rest)) (hbar : rest.head? ≠ some 45) :
    escapedUpper (n + 1) text = escapedUpper n rest := by
  conv_lhs => unfold escapedUpper
  rw [hread]
  split <;> simp_all

theorem denoted_bar (hread : readByte text = some (first, size, [45])) :
    denoted (n + 1) text = ⟨first, first, size⟩ :: denoted n [45] := by
  conv_lhs => unfold denoted
  rw [hread]
  rfl

theorem escapedUpper_bar (hread : readByte text = some (first, size, [45])) :
    escapedUpper (n + 1) text = false := by
  conv_lhs => unfold escapedUpper
  rw [hread]
  rfl

theorem escapedUpper_lone : escapedUpper n [45] = false := by
  cases n with
  | zero => rfl
  | succ n => cases n <;> rfl

theorem denoted_range (hread : readByte text = some (first, size, 45 :: after))
    (hlast : readByte after = some (last, size', rest)) :
    denoted (n + 1) text = ⟨first, last, size + 1 + size'⟩ :: denoted n rest := by
  conv_lhs => unfold denoted
  rw [hread]
  simp only [hlast]

theorem escapedUpper_range (hread : readByte text = some (first, size, 45 :: after))
    (hlast : readByte after = some (last, size', rest)) :
    escapedUpper (n + 1) text = (size' == 2 || escapedUpper n rest) := by
  conv_lhs => unfold escapedUpper
  rw [hread]
  simp only [hlast]

end Items

/-- **The two readings of a text,** its items and those that `atom` reads, are the same unless a range
has an escaped upper bound; there they part. -/
theorem classItems_text (behind : List UInt8) : ∀ (n : Nat) {text : List UInt8} {fuel : Nat},
    Members text → text.length ≤ n → n < fuel →
    (escapedUpper n text = false → classItems fuel (text ++ 93 :: behind) = (denoted n text, 93 :: behind)) ∧
    (escapedUpper n text = true → (classItems fuel (text ++ 93 :: behind)).1 ≠ denoted n text) := by
  intro n
  induction n with
  | zero =>
    intro text fuel _ hlength hfuel
    obtain rfl : text = [] := length_eq_zero_iff.mp (by omega)
    obtain ⟨fuel, rfl⟩ := Nat.exists_eq_add_of_lt hfuel
    exact ⟨fun _ => rfl, nofun⟩
  | succ n ih =>
    intro text fuel htext hlength hfuel
    obtain ⟨fuel, rfl⟩ : ∃ fuel', fuel = fuel' + 1 := ⟨fuel - 1, by omega⟩
    by_cases hne : text = []
    · subst hne
      exact ⟨fun _ => rfl, nofun⟩
    obtain ⟨first, size, rest, hread, hread', hrest, hshape⟩ := readByte_members htext hne behind
    have hopen : (text ++ 93 :: behind).head? ≠ some 93 := by
      rcases hshape with ⟨-, rfl, -, hclose⟩ | ⟨-, rfl⟩
      · simpa using hclose
      · simp
    have hshort : rest.length ≤ n := by
      rcases hshape with ⟨-, rfl, -⟩ | ⟨-, rfl⟩ <;> simp only [length_cons] at hlength <;> omega
    have hitems : classItems (fuel + 1) (text ++ 93 :: behind) =
        match upperBound (rest ++ 93 :: behind) with
        | some (last, rest) =>
          (⟨first, last, size + 2⟩ :: (classItems fuel rest).1, (classItems fuel rest).2)
        | none => (⟨first, first, size⟩ :: (classItems fuel (rest ++ 93 :: behind)).1,
            (classItems fuel (rest ++ 93 :: behind)).2) := by
      conv_lhs => unfold classItems
      rw [if_neg hopen, hread']
    -- Where both take the same item, they go on with the same text.
    have hsame : ∀ (item : ClassItem) {more : List UInt8}, Members more → more.length ≤ rest.length →
        classItems (fuel + 1) (text ++ 93 :: behind) =
          (item :: (classItems fuel (more ++ 93 :: behind)).1, (classItems fuel (more ++ 93 :: behind)).2) →
        escapedUpper (n + 1) text = escapedUpper n more → denoted (n + 1) text = item :: denoted n more →
        (escapedUpper (n + 1) text = false →
          classItems (fuel + 1) (text ++ 93 :: behind) = (denoted (n + 1) text, 93 :: behind)) ∧
        (escapedUpper (n + 1) text = true →
          (classItems (fuel + 1) (text ++ 93 :: behind)).1 ≠ denoted (n + 1) text) := by
      intro item more hmore hless hitems hescaped hdenoted
      obtain ⟨hgood, hbad⟩ := ih hmore (hless.trans hshort) (Nat.lt_of_succ_lt_succ hfuel)
      rw [hitems, hescaped, hdenoted]
      exact ⟨fun hc => by rw [hgood hc], fun hc heq => hbad hc (cons.inj heq).2⟩
    cases rest with
    | nil =>
      exact hsame ⟨first, first, size⟩ .nil le_rfl hitems (escapedUpper_byte n hread (by simp))
        (denoted_byte n hread (by simp))
    | cons bar after =>
      by_cases hbar : bar = 45
      · subst hbar
        have hafter : Members after := by
          cases hrest with
          | byte _ _ h => exact h
        by_cases hend : after = []
        · -- The bar is the last byte.
          subst hend
          refine hsame ⟨first, first, size⟩ hrest le_rfl hitems ?_ (denoted_bar n hread)
          rw [escapedUpper_bar n hread, escapedUpper_lone]
        obtain ⟨last, size', more, hlast, -, hmore, hbound⟩ := readByte_members hafter hend behind
        rcases hbound with ⟨rfl, rfl, -, hopen'⟩ | ⟨rfl, rfl⟩
        · have hupper : upperBound (45 :: last :: more ++ 93 :: behind) =
              some (last, more ++ 93 :: behind) := if_pos hopen'
          rw [hupper] at hitems
          exact hsame ⟨first, last, size + 2⟩ hmore (by simp only [length_cons]; omega) hitems
            (escapedUpper_range n hread hlast) (denoted_range n hread hlast)
        -- `atom` takes the backslash for the bound: its item is a byte shorter.
        have hupper : upperBound (45 :: 92 :: last :: more ++ 93 :: behind) =
            some (92, last :: more ++ 93 :: behind) := rfl
        rw [hupper] at hitems
        rw [escapedUpper_range n hread hlast, denoted_range n hread hlast, hitems]
        refine ⟨fun hc => by simp at hc, fun _ heq => ?_⟩
        have hsizes : size + 2 = size + 1 + 2 := congrArg ClassItem.size (cons.inj heq).1
        omega
      · have hbar' : (bar :: after).head? ≠ some 45 := by simpa using hbar
        have hupper : upperBound (bar :: after ++ 93 :: behind) = none := by
          unfold upperBound
          split
          · rename_i heq
            exact absurd (cons.inj heq).1 hbar
          · rfl
        rw [hupper] at hitems
        exact hsame ⟨first, first, size⟩ hrest le_rfl hitems (escapedUpper_byte n hread hbar')
          (denoted_byte n hread hbar')

/-- The scan of `width` ends at the first bracket that no escape hides. -/
theorem widthLoop_members {members : List UInt8} (h : Members members) (behind : List UInt8) : ∀ w : Nat,
    widthLoop w (members ++ 93 :: behind) = w + members.length + 1 := by
  induction h with
  | nil => exact fun w => rfl
  | escape _ ih =>
    intro w
    refine (ih (w + 2)).trans ?_
    simp only [length_cons]
    omega
  | @byte byte rest hescape hclose _ ih =>
    intro w
    have hloop : ∀ more, widthLoop w (byte :: more) = widthLoop (w + 1) more := by
      intro more
      conv_lhs => unfold widthLoop
      split
      · rename_i heq
        cases heq
      · rename_i heq
        exact absurd (cons.inj heq).1 hescape
      rename_i heq
      cases heq
      exact if_neg hclose
    refine (hloop _).trans ((ih (w + 1)).trans ?_)
    simp only [length_cons]
    omega

section Class

variable {pattern members behind : List UInt8} {i : Nat}

theorem drop_class (h : pattern.drop i = 91 :: (members ++ 93 :: behind)) :
    pattern.drop (i + 1) = members ++ 93 :: behind := by
  rw [← drop_drop, h, drop_one, tail_cons]

theorem width_class (h : pattern.drop i = 91 :: (members ++ 93 :: behind)) (hmembers : Members members) :
    width pattern i = members.length + 2 := by
  rw [width, drop_class h, widthLoop_members hmembers]
  omega

theorem classText_class (h : pattern.drop i = 91 :: (members ++ 93 :: behind)) (hmembers : Members members) :
    classText pattern i = members := by
  unfold classText
  rw [width_class h hmembers, show i + (members.length + 2) - 1 = i + 1 + members.length by omega]
  exact slice_of_drop (drop_class h)

theorem class_stop (h : pattern.drop i = 91 :: (members ++ 93 :: behind)) (hmembers : Members members) :
    pattern.drop (i + width pattern i - 1) = 93 :: behind := by
  rw [width_class h hmembers, show i + (members.length + 2) - 1 = i + 1 + members.length by omega,
    ← drop_drop, drop_class h, drop_left]

theorem members_inverted (members behind : List UInt8) :
    inverted (members ++ 93 :: behind) = inverted members ∧
      membersOf (members ++ 93 :: behind) = membersOf members ++ 93 :: behind := by
  cases members with
  | nil => exact ⟨rfl, rfl⟩
  | cons byte rest =>
    have hinverted : inverted (byte :: rest ++ 93 :: behind) = inverted (byte :: rest) := rfl
    refine ⟨hinverted, ?_⟩
    unfold membersOf
    rw [hinverted]
    split_ifs <;> rfl

theorem Members.membersOf (h : Members members) : Members (membersOf members) := by
  unfold Regex.membersOf
  split_ifs with hinverted
  · cases h with
    | nil => exact .nil
    | escape => simp [inverted] at hinverted
    | byte _ _ h => exact h
  · exact h

theorem membersOf_length (members : List UInt8) : (membersOf members).length ≤ members.length := by
  unfold membersOf
  split_ifs
  · rw [length_tail]
    exact Nat.sub_le _ _
  · exact le_rfl

theorem atom_class (h : pattern.drop i = 91 :: (members ++ 93 :: behind)) (byte : UInt8) :
    atom pattern i byte = ((atomItems pattern i).1.any (·.has byte) != inverted members) := by
  have hitems := classLoop_items byte ((membersOf (members ++ 93 :: behind)).length + 1)
    (membersOf (members ++ 93 :: behind)) false
  rw [Bool.false_or] at hitems
  unfold atomItems
  rw [drop_class h, ← hitems, ← (members_inverted members behind).1]
  unfold atom
  rw [h]
  generalize members ++ 93 :: behind = text
  cases text with
  | nil => rfl
  | cons head tail =>
    by_cases hcaret : head = 94
    · subst hcaret
      exact (Bool.xor_true _).symm
    have hplain : inverted (head :: tail) = false := by
      simpa [inverted] using hcaret
    unfold membersOf
    rw [hplain]
    split
    all_goals first
      | rfl
      | (rename_i heq; simp_all)

/-- **A class is read as it is written** exactly where no range has an escaped upper bound. -/
theorem consistent_iff (h : pattern.drop i = 91 :: (members ++ 93 :: behind)) (hmembers : Members members) :
    Consistent pattern i ↔
      escapedUpper (classText pattern i).length (membersOf (classText pattern i)) = false := by
  have hdrop := drop_class h
  have hstop := class_stop h hmembers
  have hread : atomItems pattern i =
      classItems ((membersOf members).length + behind.length + 2) (membersOf members ++ 93 :: behind) := by
    unfold atomItems
    rw [hdrop, (members_inverted members behind).2]
    dsimp only
    rw [length_append, length_cons]
    rfl
  have hlength := membersOf_length members
  have hfuel : members.length < (membersOf members).length + behind.length + 2 := by
    unfold membersOf
    split_ifs
    · rw [length_tail]
      omega
    · omega
  obtain ⟨hgood, hbad⟩ := classItems_text behind members.length hmembers.membersOf hlength hfuel
  have htext := classText_class h hmembers
  rw [htext]
  constructor
  · intro hconsistent
    have hitems := hconsistent.items
    rw [htext, hread] at hitems
    by_contra hescaped
    exact hbad (Bool.not_eq_false _ ▸ hescaped) hitems
  intro hplain
  have hboth := hread.trans (hgood hplain)
  refine ⟨by rw [htext, hboth], by rw [hboth, hstop], fun byte => ?_⟩
  rw [htext, atom_class h, hboth]

end Class

/-- The indices at which the classes of a tree begin. -/
def Tree.classes : Tree → List Nat
  | .charClass i _ => [i]
  | .group inner => inner.classes
  | .concat left right => left.classes ++ right.classes
  | .alternate left right => left.classes ++ right.classes
  | .repeated inner _ _ => inner.classes
  | _ => []

/-- The indices of the class instructions of an expansion. -/
def Core.classes : Core → List Nat
  | .leaf item => if item.op = .charClass then [item.x] else []
  | .concat left right => left.classes ++ right.classes
  | .alternate left right => left.classes ++ right.classes
  | .star inner => inner.classes
  | .optional inner => inner.classes

theorem spells_classes {i : Nat} {level : Level} {tree : Tree} (h : Spells i level tree text) :
    ∀ behind, pattern.drop i = text ++ behind → ∀ c ∈ tree.classes,
      ∃ members rest, pattern.drop c = 91 :: (members ++ 93 :: rest) ∧ Members members := by
  induction h with
  | any | beginText | endText | char | escape => exact fun _ _ c hc => absurd hc not_mem_nil
  | @charClass i members hmembers =>
    intro behind hdrop c hc
    obtain rfl : c = i := mem_singleton.mp hc
    refine ⟨members, behind, ?_, hmembers⟩
    rw [hdrop]
    simp
  | @group i inner text _ ih =>
    intro behind hdrop c hc
    refine ih (41 :: behind) ?_ c hc
    rw [← drop_drop, hdrop]
    simp
  | once _ ih => exact ih
  | @repeated i minimum maximum tree text quantifier _ _ ih =>
    intro behind hdrop c hc
    exact ih (quantifier ++ behind) (by rw [hdrop, append_assoc]) c hc
  | first _ ih => exact ih
  | @concat i left right text text' _ _ ih ih' =>
    intro behind hdrop c hc
    rcases mem_append.mp hc with hc | hc
    · exact ih (text' ++ behind) (by rw [hdrop, append_assoc]) c hc
    · refine ih' behind ?_ c hc
      rw [← drop_drop, hdrop, append_assoc, drop_left]
  | branch _ ih => exact ih
  | @alternate i left right text text' _ _ ih ih' =>
    intro behind hdrop c hc
    rcases mem_append.mp hc with hc | hc
    · exact ih (124 :: text' ++ behind) (by rw [hdrop, append_assoc]) c hc
    refine ih' behind ?_ c hc
    rw [← drop_drop, ← drop_drop, hdrop, append_assoc, drop_left]
    rfl

section Expansion

variable {inner before : Core} {c : Nat}

theorem copies_classes : ∀ n : Nat, c ∈ (inner.copies n).classes → c ∈ inner.classes
  | 0, h => h
  | n + 1, h => (mem_append.mp h).elim (copies_classes n) id

theorem extras_classes : ∀ n : Nat, c ∈ (inner.extras before n).classes → c ∈ before.classes ∨ c ∈ inner.classes
  | 0, h => .inl h
  | n + 1, h => (mem_append.mp h).elim (extras_classes n) .inr

theorem repeated_classes : ∀ (minimum : Nat) (maximum : Option Nat),
    c ∈ (inner.repeated minimum maximum).classes → c ∈ inner.classes
  | 0, none, h => h
  | n + 1, none, h => (mem_append.mp h).elim (copies_classes n) id
  | 0, some 0, h => absurd h not_mem_nil
  | 0, some (most + 1), h => (extras_classes most h).elim id id
  | n + 1, some _, h => (extras_classes _ h).elim (copies_classes n) id

theorem core_classes : ∀ (tree : Tree) (g : Nat), c ∈ (tree.core g).classes → c ∈ tree.classes
  | .any, _, h => absurd h not_mem_nil
  | .beginText, _, h => absurd h not_mem_nil
  | .endText, _, h => absurd h not_mem_nil
  | .char _, _, h => absurd h not_mem_nil
  | .charClass _ _, _, h => h
  | .group inner, g, h => by
    refine core_classes inner (g + 1) ?_
    simpa [Tree.core, Core.classes] using h
  | .concat left right, g, h =>
    mem_append.mpr ((mem_append.mp h).imp (core_classes left g) (core_classes right _))
  | .alternate left right, g, h =>
    mem_append.mpr ((mem_append.mp h).imp (core_classes left g) (core_classes right _))
  | .repeated inner minimum maximum, g, h => core_classes inner g (repeated_classes minimum maximum h)

end Expansion

theorem withField_open (item : Instruction) (k : Nat) :
    (item.withField (openPart item.op) k).op = item.op ∧
      (item.op = .charClass → (item.withField (openPart item.op) k).x = item.x) := by
  unfold Instruction.withField openPart
  constructor
  · split_ifs <;> rfl
  intro hop
  rw [hop]
  rfl

theorem linked_classes {code : List Instruction} (hop : item.op = .charClass) :
    ∀ {core : Core} {lo hi start k j : Nat}, Linked code core lo hi start k → lo ≤ j → j < hi →
      code[j]? = some item → item.x ∈ core.classes
  | .leaf leaf, lo, hi, start, k, j, ⟨hhi, _, hcode⟩, hlo, hj, hitem => by
    obtain rfl : j = lo := by omega
    rw [hcode] at hitem
    cases hitem
    obtain ⟨hkeep, hx⟩ := withField_open leaf k
    rw [hkeep] at hop
    rw [hx hop, Core.classes, if_pos hop]
    exact mem_singleton_self _
  | .concat left right, lo, hi, start, k, j, ⟨mid, next, hl, hr⟩, hlo, hj, hitem => by
    rcases lt_or_ge j mid with hmid | hmid
    · exact mem_append_left _ (linked_classes hop hl hlo hmid hitem)
    · exact mem_append_right _ (linked_classes hop hr hmid hj hitem)
  | .alternate left right, lo, hi, start, k, j, ⟨mid, top, x, y, hhi, _, hl, hr, hcode⟩, hlo, hj, hitem => by
    rcases lt_or_ge j mid with hmid | hmid
    · exact mem_append_left _ (linked_classes hop hl hlo hmid hitem)
    rcases lt_or_ge j top with htop | htop
    · exact mem_append_right _ (linked_classes hop hr hmid htop hitem)
    obtain rfl : j = top := by omega
    rw [hcode] at hitem
    cases hitem
    cases hop
  | .star inner, lo, hi, start, k, j, ⟨top, x, hhi, _, hinner, hcode⟩, hlo, hj, hitem
  | .optional inner, lo, hi, start, k, j, ⟨top, x, hhi, _, hinner, hcode⟩, hlo, hj, hitem => by
    rcases lt_or_ge j top with htop | htop
    · exact (linked_classes hop hinner hlo htop hitem : item.x ∈ inner.classes)
    obtain rfl : j = top := by omega
    rw [hcode] at hitem
    cases hitem
    cases hop

/-- The class instructions of a compiled pattern are those of the classes of its tree. -/
theorem Compiled.classes {tree : Tree} {program : Program} (h : Compiled pattern tree program)
    (hitem : item ∈ program.code) (hop : item.op = .charClass) : item.x ∈ tree.classes := by
  obtain ⟨j, hj⟩ := mem_iff_getElem?.mp hitem
  obtain ⟨hlt, -⟩ := List.getElem?_eq_some_iff.mp hj
  rcases Nat.lt_or_ge j (program.code.length - 1) with hbody | hend
  · exact core_classes tree 0 (linked_classes hop h.linked (Nat.zero_le j) hbody hj)
  obtain rfl : j = program.code.length - 1 := by omega
  rw [h.accept] at hj
  cases hj
  cases hop

/-- **Classes are scanned consistently unless a range has an escaped upper bound.**  In a pattern that is
accepted, `width` finds the bracket that closes a class, and `atom` reads the text up to there as what it
denotes if and only if no range in that text has an escaped upper bound. -/
theorem classes_consistent_iff {pattern : List UInt8} {program : Program}
    (h : compile pattern = .ok (.ok program)) : ∃ tree, Compiled pattern tree program ∧
      (∀ item ∈ program.code, item.op = .charClass → item.x ∈ tree.classes) ∧
      ∀ i ∈ tree.classes, pattern[i]? = some 91 ∧ pattern[i + width pattern i - 1]? = some 93 ∧
        Members (classText pattern i) ∧
        (Consistent pattern i ↔
          escapedUpper (classText pattern i).length (membersOf (classText pattern i)) = false) := by
  obtain ⟨tree, hcompiled, -⟩ := compile_spec h
  refine ⟨tree, hcompiled, fun item hitem hop => hcompiled.classes hitem hop, fun i hi => ?_⟩
  obtain ⟨members, behind, hdrop, hmembers⟩ :=
    spells_classes hcompiled.spells [] (by rw [drop_zero, append_nil]) i hi
  refine ⟨?_, ?_, ?_, consistent_iff hdrop hmembers⟩
  · rw [← head?_drop, hdrop]
    rfl
  · rw [← head?_drop, (class_stop hdrop hmembers)]
    rfl
  · rw [classText_class hdrop hmembers]
    exact hmembers

/-- The pattern `[a-c]`. -/
def letters : List UInt8 := [91, 97, 45, 99, 93]

theorem classes_consistent_iff_letters : ∃ program, compile letters = .ok (.ok program) ∧
    ∃ tree, Compiled letters tree program ∧
      (∀ item ∈ program.code, item.op = .charClass → item.x ∈ tree.classes) ∧
      ∀ i ∈ tree.classes, letters[i]? = some 91 ∧ letters[i + width letters i - 1]? = some 93 ∧
        Members (classText letters i) ∧ (Consistent letters i ↔
          escapedUpper (classText letters i).length (membersOf (classText letters i)) = false) := by
  have hcompile : compile letters = .ok (.ok {
      pattern := letters
      code := [{ op := .charClass, x := 0, y := 5, z := 1 }, { op := .accept }]
      start := 0
      groups := 0
      workspace := 9 }) := by decide +kernel
  exact ⟨_, hcompile, classes_consistent_iff hcompile⟩

/-- The pattern `[+-\]]`, whose range from plus ends at an escaped bracket. -/
def escapedBound : List UInt8 := [91, 43, 45, 92, 93, 93]

/-- `atom` stops at the escaped bracket, and the class does not match the bracket. -/
theorem escapedBound_misread : (∃ program, compile escapedBound = .ok (.ok program) ∧
      ∃ item ∈ program.code, item.op = .charClass ∧ item.x = 0) ∧
    width escapedBound 0 = 6 ∧ atomItems escapedBound 0 = ([⟨43, 92, 3⟩], [93, 93]) ∧
    denoted (classText escapedBound 0).length (classText escapedBound 0) = [⟨43, 93, 4⟩] ∧
    atom escapedBound 0 93 = false ∧ ¬ Consistent escapedBound 0 := by
  have hcompile : compile escapedBound = .ok (.ok {
      pattern := escapedBound
      code := [{ op := .charClass, x := 0, y := 6, z := 1 }, { op := .accept }]
      start := 0
      groups := 0
      workspace := 9 }) := by decide +kernel
  have hatom : atom escapedBound 0 93 = false := by decide +kernel
  refine ⟨⟨_, hcompile, _, mem_cons_self, rfl, rfl⟩, by decide +kernel, by decide +kernel,
    by decide +kernel, hatom, fun hconsistent => ?_⟩
  have hdecides := hconsistent.decides 93
  rw [hatom] at hdecides
  exact absurd hdecides (by decide +kernel)

end Dyn.Regex
