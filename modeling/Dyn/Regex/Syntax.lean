import Dyn.Regex.Program

/-!
# The language of a pattern

`Tree` is the abstract syntax of patterns, `Spells` their concrete syntax and `Tree.Lang` their
meaning: the stretches of a text that a tree matches.  A class is named by its index in the
pattern, and its members are those of `atom`.

`Core` is the syntax that counted quantifiers are expanded to, in the order of the tokens.
-/

namespace Dyn.Regex

inductive Tree
  | any
  | beginText
  | endText
  | char (byte : UInt8)
  | charClass (i width : Nat)
  | group (inner : Tree)
  | concat (left right : Tree)
  | alternate (left right : Tree)
  /-- At least `minimum` times, and at most `maximum` times if there is a maximum. -/
  | repeated (inner : Tree) (minimum : Nat) (maximum : Option Nat)
deriving Repr

/-- The `n`-fold composition of a relation. -/
def Power (R : Nat → Nat → Prop) : Nat → Nat → Nat → Prop
  | 0, i, j => i = j
  | n + 1, i, j => ∃ k, Power R n i k ∧ R k j

/-- **The stretches of a text that a tree matches,** from index to index. -/
def Tree.Lang (pattern text : List UInt8) : Tree → Nat → Nat → Prop
  | .any, i, j => j = i + 1 ∧ i < text.length
  | .beginText, i, j => i = j ∧ i = 0
  | .endText, i, j => i = j ∧ i = text.length
  | .char byte, i, j => j = i + 1 ∧ text[i]? = some byte
  | .charClass c _, i, j => j = i + 1 ∧ ∃ byte, text[i]? = some byte ∧ atom pattern c byte = true
  | .group inner, i, j => inner.Lang pattern text i j
  | .concat left right, i, j => ∃ k, left.Lang pattern text i k ∧ right.Lang pattern text k j
  | .alternate left right, i, j => left.Lang pattern text i j ∨ right.Lang pattern text i j
  | .repeated inner minimum maximum, i, j => ∃ n, minimum ≤ n ∧ (∀ most, maximum = some most → n ≤ most) ∧
      Power (inner.Lang pattern text) n i j

def Ordinary (byte : UInt8) : Prop :=
  byte ∉ [40, 41, 42, 43, 46, 63, 91, 92, 94, 36, 123, 124]

/-- The bytes between the brackets of a class. -/
inductive Members : List UInt8 → Prop
  | nil : Members []
  | escape {byte : UInt8} {rest : List UInt8} (h : Members rest) : Members (92 :: byte :: rest)
  | byte {byte : UInt8} {rest : List UInt8} (escape : byte ≠ 92) (close : byte ≠ 93)
      (h : Members rest) : Members (byte :: rest)

/-- Decimal digits, behind the number `before`, that spell a number that fits. -/
inductive Decimal : Nat → List UInt8 → Nat → Prop
  | nil {n : Nat} : Decimal n [] n
  | digit {before n : Nat} {byte : UInt8} {rest : List UInt8} (low : 48 ≤ byte) (high : byte ≤ 57)
      (fits : before * 10 + (byte - 48).toNat ≤ noPatch)
      (h : Decimal (before * 10 + (byte - 48).toNat) rest n) : Decimal before (byte :: rest) n

/-- The quantifiers: the least number of times and the most. -/
inductive Quantifies : List UInt8 → Nat → Option Nat → Prop
  | star : Quantifies [42] 0 none
  | plus : Quantifies [43] 1 none
  | optional : Quantifies [63] 0 (some 1)
  | exactly {digits : List UInt8} {n : Nat} (h : Decimal 0 digits n) (nonempty : digits ≠ []) :
      Quantifies (123 :: (digits ++ [125])) n (some n)
  | atLeast {digits : List UInt8} {n : Nat} (h : Decimal 0 digits n) (nonempty : digits ≠ []) :
      Quantifies (123 :: (digits ++ [44, 125])) n none
  | between {low high : List UInt8} {least most : Nat} (h : Decimal 0 low least) (nonempty : low ≠ [])
      (h' : Decimal 0 high most) (nonempty' : high ≠ []) (le : least ≤ most) :
      Quantifies (123 :: (low ++ 44 :: (high ++ [125]))) least (some most)

/-- The levels of the syntax, from the one that binds most tightly. -/
inductive Level
  | atom | piece | sequence | expression
deriving DecidableEq, Repr

/-- **The text of a tree,** which begins at an index of the pattern. -/
inductive Spells : Nat → Level → Tree → List UInt8 → Prop
  | any {i : Nat} : Spells i .atom .any [46]
  | beginText {i : Nat} : Spells i .atom .beginText [94]
  | endText {i : Nat} : Spells i .atom .endText [36]
  | char {i : Nat} {byte : UInt8} (h : Ordinary byte) : Spells i .atom (.char byte) [byte]
  | escape {i : Nat} {byte : UInt8} : Spells i .atom (.char byte) [92, byte]
  | charClass {i : Nat} {members : List UInt8} (h : Members members) :
      Spells i .atom (.charClass i (members.length + 2)) (91 :: (members ++ [93]))
  | group {i : Nat} {inner : Tree} {text : List UInt8} (h : Spells (i + 1) .expression inner text) :
      Spells i .atom (.group inner) (40 :: (text ++ [41]))
  | once {i : Nat} {tree : Tree} {text : List UInt8} (h : Spells i .atom tree text) :
      Spells i .piece tree text
  | repeated {i minimum : Nat} {maximum : Option Nat} {tree : Tree} {text quantifier : List UInt8}
      (h : Spells i .atom tree text) (quantifies : Quantifies quantifier minimum maximum) :
      Spells i .piece (.repeated tree minimum maximum) (text ++ quantifier)
  | first {i : Nat} {tree : Tree} {text : List UInt8} (h : Spells i .piece tree text) :
      Spells i .sequence tree text
  | concat {i : Nat} {left right : Tree} {text text' : List UInt8} (h : Spells i .sequence left text)
      (h' : Spells (i + text.length) .piece right text') :
      Spells i .sequence (.concat left right) (text ++ text')
  | branch {i : Nat} {tree : Tree} {text : List UInt8} (h : Spells i .sequence tree text) :
      Spells i .expression tree text
  | alternate {i : Nat} {left right : Tree} {text text' : List UInt8}
      (h : Spells i .expression left text)
      (h' : Spells (i + text.length + 1) .sequence right text') :
      Spells i .expression (.alternate left right) (text ++ 124 :: text')

inductive Core
  | leaf (item : Instruction)
  | concat (left right : Core)
  | alternate (left right : Core)
  | star (inner : Core)
  | optional (inner : Core)
deriving Repr

def Core.postfixTokens : Core → List Instruction
  | .leaf item => [item]
  | .concat left right => left.postfixTokens ++ right.postfixTokens ++ [{ op := .concatToken }]
  | .alternate left right => left.postfixTokens ++ right.postfixTokens ++ [{ op := .alternateToken }]
  | .star inner => inner.postfixTokens ++ [{ op := .starToken }]
  | .optional inner => inner.postfixTokens ++ [{ op := .optionalToken }]

def Core.copies (inner : Core) : Nat → Core
  | 0 => inner
  | n + 1 => .concat (inner.copies n) inner

/-- Copies that may be there, behind others. -/
def Core.extras (inner : Core) (before : Core) : Nat → Core
  | 0 => before
  | n + 1 => .concat (inner.extras before n) (.optional inner)

def Core.repeated (inner : Core) : Nat → Option Nat → Core
  | 0, none => .star inner
  | n + 1, none => .concat (inner.copies n) (.star inner)
  | 0, some 0 => .leaf { op := .jump }
  | 0, some (most + 1) => inner.extras (.optional inner) most
  | n + 1, some most => inner.extras (inner.copies n) (most - (n + 1))

def Tree.groups : Tree → Nat
  | .group inner => inner.groups + 1
  | .concat left right => left.groups + right.groups
  | .alternate left right => left.groups + right.groups
  | .repeated inner _ _ => inner.groups
  | _ => 0

/-- The expansion of a tree whose first group has the given number. -/
def Tree.core : Tree → Nat → Core
  | .any, _ => .leaf { op := .any, byte := 46 }
  | .beginText, _ => .leaf { op := .beginText, byte := 94 }
  | .endText, _ => .leaf { op := .endText, byte := 36 }
  | .char byte, _ => .leaf { op := .char, byte := byte }
  | .charClass i width, _ => .leaf { op := .charClass, x := i, y := width }
  | .group inner, g => .concat (.concat (.leaf { op := .save, x := g * 2 }) (inner.core (g + 1)))
      (.leaf { op := .save, x := g * 2 + 1 })
  | .concat left right, g => .concat (left.core g) (right.core (g + left.groups))
  | .alternate left right, g => .alternate (left.core g) (right.core (g + left.groups))
  | .repeated inner minimum maximum, g => (inner.core g).repeated minimum maximum

/-- The stretches of a text that an instruction passes over. -/
def Instruction.Lang (pattern text : List UInt8) (item : Instruction) (i j : Nat) : Prop :=
  match item.op with
  | .any => j = i + 1 ∧ i < text.length
  | .char => j = i + 1 ∧ text[i]? = some item.byte
  | .charClass => j = i + 1 ∧ ∃ byte, text[i]? = some byte ∧ atom pattern item.x byte = true
  | .beginText => i = j ∧ i = 0
  | .endText => i = j ∧ i = text.length
  | .jump => i = j
  | .save => i = j
  | _ => False

def Core.Lang (pattern text : List UInt8) : Core → Nat → Nat → Prop
  | .leaf item, i, j => item.Lang pattern text i j
  | .concat left right, i, j => ∃ k, left.Lang pattern text i k ∧ right.Lang pattern text k j
  | .alternate left right, i, j => left.Lang pattern text i j ∨ right.Lang pattern text i j
  | .star inner, i, j => ∃ n, Power (inner.Lang pattern text) n i j
  | .optional inner, i, j => i = j ∨ inner.Lang pattern text i j

section Expansion

variable {pattern text : List UInt8} {inner before : Core}

theorem Power.one {R : Nat → Nat → Prop} {i j : Nat} : Power R 1 i j ↔ R i j := by
  constructor
  · rintro ⟨k, rfl, h⟩
    exact h
  · exact fun h => ⟨i, rfl, h⟩

variable {R : Nat → Nat → Prop}

theorem Power.add {a : Nat} : ∀ {b i j : Nat},
    Power R (a + b) i j ↔ ∃ k, Power R a i k ∧ Power R b k j
  | 0, i, j => by
    constructor
    · exact fun h => ⟨j, h, rfl⟩
    · rintro ⟨k, h, rfl⟩
      exact h
  | b + 1, i, j => by
    constructor
    · rintro ⟨k, h, hr⟩
      obtain ⟨k', ha, hb⟩ := Power.add.mp h
      exact ⟨k', ha, k, hb, hr⟩
    · rintro ⟨k', ha, k, hb, hr⟩
      exact ⟨k, Power.add.mpr ⟨k', ha, hb⟩, hr⟩

theorem Power.congr {R' : Nat → Nat → Prop} (h : ∀ i j, R i j ↔ R' i j) : ∀ {n i j : Nat},
    Power R n i j ↔ Power R' n i j
  | 0, _, _ => Iff.rfl
  | n + 1, i, j => by
    constructor
    · rintro ⟨k, hp, hr⟩
      exact ⟨k, (Power.congr h).mp hp, (h _ _).mp hr⟩
    · rintro ⟨k, hp, hr⟩
      exact ⟨k, (Power.congr h).mpr hp, (h _ _).mpr hr⟩

theorem copies_lang : ∀ (n : Nat) {i j : Nat},
    (inner.copies n).Lang pattern text i j ↔ Power (inner.Lang pattern text) (n + 1) i j
  | 0, _, _ => Power.one.symm
  | n + 1, i, j => by
    constructor
    · rintro ⟨k, h, hr⟩
      exact ⟨k, (copies_lang n).mp h, hr⟩
    · rintro ⟨k, h, hr⟩
      exact ⟨k, (copies_lang n).mpr h, hr⟩

theorem extras_lang : ∀ (n : Nat) {i j : Nat}, (inner.extras before n).Lang pattern text i j ↔
    ∃ k count, before.Lang pattern text i k ∧ count ≤ n ∧ Power (inner.Lang pattern text) count k j
  | 0, i, j => by
    constructor
    · exact fun h => ⟨j, 0, h, le_refl 0, rfl⟩
    rintro ⟨k, count, h, hcount, hpower⟩
    obtain rfl : count = 0 := by omega
    cases hpower
    exact h
  | n + 1, i, j => by
    constructor
    · rintro ⟨k', h, hlast⟩
      obtain ⟨k, count, hbefore, hcount, hpower⟩ := (extras_lang n).mp h
      rcases hlast with rfl | hlast
      · exact ⟨k, count, hbefore, Nat.le_succ_of_le hcount, hpower⟩
      · exact ⟨k, count + 1, hbefore, Nat.succ_le_succ hcount, k', hpower, hlast⟩
    rintro ⟨k, count, hbefore, hcount, hpower⟩
    cases count with
    | zero =>
      cases hpower
      exact ⟨j, (extras_lang n).mpr ⟨j, 0, hbefore, Nat.zero_le n, rfl⟩, .inl rfl⟩
    | succ count =>
      obtain ⟨k', hpower, hlast⟩ := hpower
      exact ⟨k', (extras_lang n).mpr ⟨k, count, hbefore, Nat.le_of_succ_le_succ hcount, hpower⟩,
        .inr hlast⟩

/-- **The expansion of a quantifier matches the allowed numbers of times.** -/
theorem repeated_lang {minimum : Nat} {maximum : Option Nat}
    (hmaximum : ∀ most, maximum = some most → minimum ≤ most) {i j : Nat} :
    (inner.repeated minimum maximum).Lang pattern text i j ↔
      ∃ n, minimum ≤ n ∧ (∀ most, maximum = some most → n ≤ most) ∧
        Power (inner.Lang pattern text) n i j := by
  match minimum, maximum with
  | 0, none =>
    constructor
    · rintro ⟨n, h⟩
      exact ⟨n, Nat.zero_le n, nofun, h⟩
    · rintro ⟨n, _, _, h⟩
      exact ⟨n, h⟩
  | m + 1, none =>
    constructor
    · rintro ⟨k, hcopies, n, hstar⟩
      exact ⟨m + 1 + n, Nat.le_add_right _ _, nofun,
        Power.add.mpr ⟨k, (copies_lang m).mp hcopies, hstar⟩⟩
    rintro ⟨n, hn, _, h⟩
    obtain ⟨extra, rfl⟩ := Nat.exists_eq_add_of_le hn
    obtain ⟨k, h1, h2⟩ := Power.add.mp h
    exact ⟨k, (copies_lang m).mpr h1, extra, h2⟩
  | 0, some 0 =>
    constructor
    · intro h
      exact ⟨0, le_refl 0, (fun _ hc => by cases hc; exact le_refl 0), h⟩
    rintro ⟨n, _, hn, h⟩
    obtain rfl : n = 0 := Nat.le_zero.mp (hn 0 rfl)
    exact h
  | 0, some (most + 1) =>
    refine (extras_lang most).trans ⟨?_, ?_⟩
    · rintro ⟨k, count, hfirst, hcount, hpower⟩
      rcases hfirst with hsame | hfirst
      · subst hsame
        exact ⟨count, Nat.zero_le _, (fun _ hc => by cases hc; omega), hpower⟩
      · refine ⟨1 + count, Nat.zero_le _, (fun _ hc => by cases hc; omega), ?_⟩
        exact Power.add.mpr ⟨k, Power.one.mpr hfirst, hpower⟩
    rintro ⟨n, _, hn, h⟩
    have hle := hn _ rfl
    cases n with
    | zero => exact ⟨i, 0, .inl rfl, Nat.zero_le _, h⟩
    | succ n =>
      rw [Nat.add_comm] at h
      obtain ⟨k, h1, h2⟩ := Power.add.mp h
      exact ⟨k, n, .inr (Power.one.mp h1), by omega, h2⟩
  | m + 1, some most =>
    refine (extras_lang _).trans ⟨?_, ?_⟩
    · rintro ⟨k, count, hcopies, hcount, hpower⟩
      have hle := hmaximum most rfl
      exact ⟨m + 1 + count, Nat.le_add_right _ _, (fun _ hc => by cases hc; omega),
        Power.add.mpr ⟨k, (copies_lang m).mp hcopies, hpower⟩⟩
    rintro ⟨n, hn, hmost, h⟩
    have hle := hmost most rfl
    obtain ⟨extra, rfl⟩ := Nat.exists_eq_add_of_le hn
    obtain ⟨k, h1, h2⟩ := Power.add.mp h
    exact ⟨k, extra, (copies_lang m).mpr h1, by omega, h2⟩

end Expansion

/-- Every quantifier of a tree has a minimum that is not above its maximum. -/
def Tree.Proper : Tree → Prop
  | .group inner => inner.Proper
  | .concat left right => left.Proper ∧ right.Proper
  | .alternate left right => left.Proper ∧ right.Proper
  | .repeated inner minimum maximum => inner.Proper ∧ ∀ most, maximum = some most → minimum ≤ most
  | _ => True

variable {text : List UInt8}

theorem Quantifies.le {minimum : Nat} {maximum : Option Nat} (h : Quantifies text minimum maximum) :
    ∀ most, maximum = some most → minimum ≤ most := by
  intro most hmost
  cases h with
  | star | plus => cases hmost
  | optional => cases hmost; exact Nat.zero_le 1
  | exactly => cases hmost; exact le_rfl
  | atLeast => cases hmost
  | between _ _ _ _ le => cases hmost; exact le

theorem Spells.proper {i : Nat} {level : Level} {tree : Tree} (h : Spells i level tree text) :
    tree.Proper := by
  induction h with
  | any | beginText | endText | char _ | escape | charClass _ => trivial
  | group _ ih | once _ ih => exact ih
  | repeated _ quantifies ih => exact ⟨ih, quantifies.le⟩
  | first _ ih => exact ih
  | concat _ _ ih ih' => exact ⟨ih, ih'⟩
  | branch _ ih => exact ih
  | alternate _ _ ih ih' => exact ⟨ih, ih'⟩

theorem core_lang {pattern text : List UInt8} : ∀ {tree : Tree}, tree.Proper → ∀ (g i j : Nat),
    (tree.core g).Lang pattern text i j ↔ tree.Lang pattern text i j
  | .any, _, _, _, _ => Iff.rfl
  | .beginText, _, _, _, _ => Iff.rfl
  | .endText, _, _, _, _ => Iff.rfl
  | .char _, _, _, _, _ => Iff.rfl
  | .charClass _ _, _, _, _, _ => Iff.rfl
  | .group inner, h, g, i, j => by
    rw [Tree.Lang, ← @core_lang pattern text inner h (g + 1) i j]
    constructor
    · rintro ⟨k, ⟨k', hsave, hinner⟩, hsave'⟩
      cases hsave
      cases hsave'
      exact hinner
    · exact fun hinner => ⟨j, ⟨i, rfl, hinner⟩, rfl⟩
  | .concat left right, h, g, i, j => by
    constructor
    · rintro ⟨k, hl, hr⟩
      exact ⟨k, (core_lang h.1 _ _ _).mp hl, (core_lang h.2 _ _ _).mp hr⟩
    · rintro ⟨k, hl, hr⟩
      exact ⟨k, (core_lang h.1 _ _ _).mpr hl, (core_lang h.2 _ _ _).mpr hr⟩
  | .alternate left right, h, g, i, j =>
    or_congr (core_lang h.1 _ _ _) (core_lang h.2 _ _ _)
  | .repeated inner minimum maximum, h, g, i, j => by
    rw [Tree.core, repeated_lang h.2, Tree.Lang]
    simp only [Power.congr (core_lang h.1 g)]

end Dyn.Regex
