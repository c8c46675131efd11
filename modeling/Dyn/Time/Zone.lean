import Mathlib.Tactic
import Dyn.Time.Civil

/-!
# std/time/zone: offsets of local time

A zone has a table of transitions and a recurring rule.  `typeAt` searches the table,
`ruleType` decides by the start and the end of daylight time in one calendar year, and
`instantOfLocal` finds the instant of a wall clock time by at most two corrections of a first
guess.
-/

namespace Dyn.Time

/-- `Type`. -/
structure ZoneType where
  offset : Int := 0
  dst : Bool := false
  abbreviation : List UInt8 := []
deriving DecidableEq, Repr

structure Rule where
  kind : Int := 0
  month : Int := 0
  week : Int := 0
  weekday : Int := 0
  day : Int := 0
  time : Int := 0
deriving DecidableEq, Repr

structure Zone where
  transitions : List Int := []
  transitionTypes : List Nat := []
  types : List ZoneType := []
  hasRule : Bool := false
  standard : ZoneType := {}
  daylight : ZoneType := {}
  hasDaylight : Bool := false
  start : Rule := {}
  stop : Rule := {}

def utc : Zone :=
  let standard : ZoneType := { abbreviation := [85, 84, 67] }
  { hasRule := true, standard := standard, daylight := standard }

structure Local where
  value : DateTime
  offset : Int
  dst : Bool
  abbreviation : List UInt8

/-- The loop at the end of `rule_day`. -/
def backBefore (day limit : Int) : Int :=
  if day ≥ limit then backBefore (day - 7) limit else day
termination_by (day - limit + 7).toNat
decreasing_by omega

def ruleDay (rule : Rule) (year : Int) : Int :=
  let first := daysFromCivil year 1 1
  if rule.kind = 0 then
    first + (rule.day - 1 + if leapYear year ∧ rule.day ≥ 60 then 1 else 0)
  else if rule.kind = 1 then first + rule.day
  else
    let monthStart := daysFromCivil year rule.month 1
    let startWeekday := weekday { year := year, month := rule.month, day := 1 }
    backBefore (monthStart + (rule.weekday - startWeekday + 7).tmod 7 + (rule.week - 1) * 7)
      (monthStart + monthDays year rule.month)

/-- The second at which a rule fires in a year. -/
def ruleInstant (rule : Rule) (year offset : Int) : Int :=
  ruleDay rule year * 86400 + rule.time - offset

/-- The `year` of `rule_type`. -/
def ruleYear (zone : Zone) (seconds : Int) : Int :=
  (dateTime ⟨seconds, 0⟩ zone.standard.offset).year

def Zone.startOf (zone : Zone) (year : Int) : Int :=
  ruleInstant zone.start year zone.standard.offset

def Zone.stopOf (zone : Zone) (year : Int) : Int :=
  ruleInstant zone.stop year zone.daylight.offset

def ruleType (zone : Zone) (seconds : Int) : ZoneType :=
  if zone.hasDaylight then
    let year := ruleYear zone seconds
    let start := zone.startOf year
    let stop := zone.stopOf year
    if start < stop then
      if seconds ≥ start ∧ seconds < stop then zone.daylight else zone.standard
    -- southern hemisphere
    else if seconds ≥ stop ∧ seconds < start then zone.standard
    else zone.daylight
  else zone.standard

/-- The binary search of `type_at`; `middle` is below `high`, so that it is in the table. -/
def search (transitions : List Int) (seconds : Int) (low high : Nat) : Nat :=
  if high - low > 1 then
    let middle := low + (high - low) / 2
    if transitions.getD middle 0 ≤ seconds then search transitions seconds middle high
    else search transitions seconds low middle
  else low
termination_by high - low
decreasing_by all_goals omega

/-- `none` where an index is out of range. -/
def typeAt (zone : Zone) (seconds : Int) : Option ZoneType :=
  let count := zone.transitions.length
  if zone.hasRule ∧ (count = 0 ∨ seconds ≥ zone.transitions.getD (count - 1) 0) then
    some (ruleType zone seconds)
  else if count = 0 then some (zone.types.headD zone.standard)
  else if seconds < zone.transitions.getD 0 0 then
    (zone.types.find? (!·.dst)).or zone.types.head?
  else
    zone.transitionTypes[search zone.transitions seconds 0 count]?.bind (zone.types[·]?)

/-- `local`. -/
def localTime (zone : Zone) (instant : Instant) : Option Local :=
  (typeAt zone instant.seconds).map fun chosen =>
    { value := dateTime instant chosen.offset
      offset := chosen.offset
      dst := chosen.dst
      abbreviation := chosen.abbreviation }

def instantOfLocal (zone : Zone) (value : DateTime) : Option Instant := do
  let guess := instantOf value 0
  let first ← typeAt zone (guess.seconds - 86400)
  let candidate := instantOf value first.offset
  let second ← typeAt zone candidate.seconds
  if second.offset = first.offset then return candidate
  let retried := instantOf value second.offset
  let third ← typeAt zone retried.seconds
  return if third.offset = second.offset then retried else candidate

theorem search_eq {transitions : List Int} {seconds : Int} {k : Nat}
    (hbelow : ∀ j ≤ k, transitions.getD j 0 ≤ seconds)
    (habove : ∀ j, k < j → j < transitions.length → seconds < transitions.getD j 0)
    (low high : Nat) (hlow : low ≤ k) (hhigh : k < high) (hend : high ≤ transitions.length) :
    search transitions seconds low high = k := by
  induction low, high using search.induct transitions seconds with
  | case1 low high hmore middle hle ih =>
    rw [search, if_pos hmore]
    rw [if_pos hle]
    refine ih ?_ hhigh hend
    by_contra hlt
    have hlater := habove middle (by omega) (by omega)
    omega
  | case2 low high hmore middle hgt ih =>
    rw [search, if_pos hmore]
    rw [if_neg hgt]
    refine ih hlow ?_ (by omega)
    by_contra hge
    exact hgt (hbelow middle (by omega))
  | case3 low high hdone =>
    rw [search, if_neg hdone]
    omega

theorem typeAt_table {zone : Zone} (hsorted : zone.transitions.Pairwise (· ≤ ·)) {seconds : Int}
    {k : Nat} (hk : k < zone.transitions.length) (hle : zone.transitions[k] ≤ seconds)
    (hlast : ∀ j (hj : j < zone.transitions.length), k < j → seconds < zone.transitions[j])
    (hrule : zone.hasRule = true → k + 1 < zone.transitions.length) :
    typeAt zone seconds = zone.transitionTypes[k]?.bind (zone.types[·]?) := by
  have hbelow : ∀ j ≤ k, zone.transitions.getD j 0 ≤ seconds := by
    intro j hj
    rw [← List.getElem_eq_getD (h := by omega) 0]
    rcases Nat.lt_or_eq_of_le hj with hlt | rfl
    · exact (List.pairwise_iff_getElem.mp hsorted j k (by omega) hk hlt).trans hle
    · exact hle
  have habove : ∀ j, k < j → j < zone.transitions.length → seconds < zone.transitions.getD j 0 := by
    intro j hlt hj
    rw [← List.getElem_eq_getD (h := hj) 0]
    exact hlast j hj hlt
  unfold typeAt
  rw [if_neg, if_neg (by omega), if_neg (by have := hbelow 0 (Nat.zero_le k); omega),
    search_eq hbelow habove 0 _ (Nat.zero_le k) hk le_rfl]
  rintro ⟨hhas, hempty | hge⟩
  · omega
  · have hlater := habove (zone.transitions.length - 1) (by have := hrule hhas; omega) (by omega)
    omega

def Changes (zone : Zone) (s : Int) : Prop := typeAt zone (s - 1) ≠ typeAt zone s

def offsetAt (zone : Zone) (s : Int) : Int := ((typeAt zone s).map (·.offset)).getD 0

/-- Offsets of at most a day, which change at most every three days. -/
structure Tame (zone : Zone) : Prop where
  total : ∀ s, (typeAt zone s).isSome
  offsets : ∀ s, |offsetAt zone s| ≤ 86400
  spaced : ∀ s t, Changes zone s → Changes zone t → s < t → s + 259200 ≤ t

/-- The instant has this local time, in a year of 32 bits. -/
def Reads (zone : Zone) (t : Instant) (w : DateTime) : Prop :=
  (0 ≤ t.nanoseconds ∧ t.nanoseconds < 1000000000) ∧
    IsI32 (civilParts ((t.seconds + offsetAt zone t.seconds) / 86400)).1 ∧
    (localTime zone t).map (·.value) = some w

/-- The wall clock jumps over the time at this second. -/
def Skips (zone : Zone) (w : DateTime) (s : Int) : Prop :=
  s + offsetAt zone (s - 1) ≤ (instantOf w 0).seconds ∧
    (instantOf w 0).seconds < s + offsetAt zone s

theorem instantOf_seconds (w : DateTime) (offset : Int) :
    (instantOf w offset).seconds = (instantOf w 0).seconds - offset := by
  unfold instantOf
  simp

theorem dateTime_instantOf {w : DateTime} (hw : w.InRange) (hyear : IsI32 w.year) (offset : Int) :
    dateTime (instantOf w offset) offset = w ∧
      IsI32 (civilParts (((instantOf w offset).seconds + offset) / 86400)).1 := by
  obtain ⟨hdate, hhour, hminute, hsecond, hns, hns'⟩ := hw
  have hparts := civilParts_daysFromCivil hdate
  have hdays : ((instantOf w offset).seconds + offset) / 86400 =
      daysFromCivil w.year w.month w.day := by
    unfold instantOf
    simp only
    omega
  have hrest : ((instantOf w offset).seconds + offset) % 86400 =
      w.hour * 3600 + w.minute * 60 + w.second := by
    unfold instantOf
    simp only
    omega
  have hi32 : IsI32 (civilParts (daysFromCivil w.year w.month w.day)).1 := by
    rwa [show civilParts (daysFromCivil w.year w.month w.day) = w.date from hparts]
  refine ⟨?_, hdays ▸ hi32⟩
  rw [dateTime_eq (t := instantOf w offset) hns hns', hdays, hrest, civilFromDays_eq hi32,
    show civilParts (daysFromCivil w.year w.month w.day) = w.date from hparts]
  obtain ⟨year, month, day, hour, minute, second, nanosecond⟩ := w
  simp only [DateTime.date, instantOf, DateTime.mk.injEq, true_and, and_true] at *
  omega

namespace Tame

variable {zone : Zone} (h : Tame zone)
include h

theorem typeAt_eq (s : Int) : ∃ type, typeAt zone s = some type ∧ type.offset = offsetAt zone s := by
  obtain ⟨type, htype⟩ := Option.isSome_iff_exists.mp (h.total s)
  exact ⟨type, htype, by rw [offsetAt, htype]; rfl⟩

theorem instantOfLocal_eq (w : DateTime) {W a b : Int} (hW : (instantOf w 0).seconds = W)
    (ha : offsetAt zone (W - 86400) = a) (hb : offsetAt zone (W - a) = b) :
    instantOfLocal zone w = some (instantOf w
      (if b ≠ a ∧ offsetAt zone (W - b) = b then b else a)) := by
  obtain ⟨first, hfirst, hfirstOffset⟩ := h.typeAt_eq (W - 86400)
  obtain ⟨second, hsecond, hsecondOffset⟩ := h.typeAt_eq (W - a)
  obtain ⟨third, hthird, hthirdOffset⟩ := h.typeAt_eq (W - b)
  rw [ha] at hfirstOffset
  rw [hb] at hsecondOffset
  unfold instantOfLocal
  simp only [hW, hfirst, Option.bind_eq_bind, Option.bind_some, hfirstOffset, instantOf_seconds w a,
    hsecond, hsecondOffset, instantOf_seconds w b, hthird, hthirdOffset]
  by_cases hsame : b = a
  · rw [if_pos hsame, if_neg (fun hc => hc.1 hsame)]
    rfl
  rw [if_neg hsame]
  split
  · rename_i hagain
    rw [if_pos ⟨hsame, hagain⟩]
    rfl
  rename_i hagain
  rw [if_neg fun hc => hagain hc.2]
  rfl

omit h in
theorem steady {a b : Int} (hab : a ≤ b) (hno : ∀ s, a < s → s ≤ b → ¬ Changes zone s) :
    typeAt zone b = typeAt zone a := by
  induction b, hab using Int.leInduction with
  | base => rfl
  | succ b hab ih =>
    have hlast := not_not.mp (hno (b + 1) (by omega) le_rfl)
    rw [Int.add_sub_cancel] at hlast
    exact hlast.symm.trans (ih fun s hs hs' => hno s hs (by omega))

theorem one_change (p : Int) : ∃ s, p < s ∧ ∀ x, p ≤ x → x ≤ p + 172800 →
    offsetAt zone x = if x < s then offsetAt zone p else offsetAt zone s := by
  by_cases hchange : ∃ s, p < s ∧ s ≤ p + 172800 ∧ Changes zone s
  · obtain ⟨s, hs, hs', hhere⟩ := hchange
    refine ⟨s, hs, fun x hx hx' => ?_⟩
    have hother : ∀ t, p < t → t ≤ p + 172800 → t ≠ s → ¬ Changes zone t := by
      intro t ht ht' hne hthere
      rcases Int.lt_or_lt_of_ne hne with hlt | hlt
      · have hgap := h.spaced t s hthere hhere hlt
        omega
      · have hgap := h.spaced s t hhere hthere hlt
        omega
    split_ifs with hlt
    · rw [offsetAt, steady hx fun t ht ht' => hother t ht (by omega) (by omega)]
      rfl
    rw [offsetAt, steady (Int.not_lt.mp hlt) fun t ht ht' => hother t (by omega) (by omega)
      (by omega)]
    rfl
  · refine ⟨p + 172801, by omega, fun x hx hx' => ?_⟩
    rw [if_pos (by omega), offsetAt, steady hx fun t ht ht' hthere =>
      hchange ⟨t, ht, by omega, hthere⟩]
    rfl

theorem reads_iff {w : DateTime} (hw : w.InRange) (hyear : IsI32 w.year) (t : Instant) :
    Reads zone t w ↔ t = instantOf w (offsetAt zone t.seconds) := by
  obtain ⟨type, htype, hoffset⟩ := h.typeAt_eq t.seconds
  have hlocal : (localTime zone t).map (·.value) = some (dateTime t (offsetAt zone t.seconds)) := by
    rw [localTime, htype, ← hoffset]
    rfl
  unfold Reads
  rw [hlocal, Option.some.injEq]
  constructor
  · rintro ⟨⟨hns, hns'⟩, hi32, rfl⟩
    exact (instantOf_dateTime hns hns' hi32).1.symm
  intro ht
  obtain ⟨hback, hi32⟩ := dateTime_instantOf hw hyear (offsetAt zone t.seconds)
  rw [← ht] at hback hi32
  refine ⟨?_, hi32, hback⟩
  rw [ht]
  exact hw.2.2.2.2

end Tame

/-- **Local times.**  In a zone whose offsets are at most a day and change at most every three
days, the instant found for a wall clock time is the earliest that shows it.  Where none does,
the time is skipped, and the offset is the one before.  In a sorted table the type is that of
the last transition that is not later, unless it is the last one of all and a rule follows. -/
theorem local_exact :
    (∀ zone w, Tame zone → w.InRange → IsI32 w.year → ∃ r, instantOfLocal zone w = some r ∧
      (∀ t, Reads zone t w → Reads zone r w ∧ r.seconds ≤ t.seconds) ∧
      ((∀ t, ¬ Reads zone t w) →
        (∃ s, Skips zone w s) ∧ ∀ s, Skips zone w s → r = instantOf w (offsetAt zone (s - 1)))) ∧
    ∀ zone : Zone, zone.transitions.Pairwise (· ≤ ·) → ∀ seconds k,
      ∀ hk : k < zone.transitions.length, zone.transitions[k] ≤ seconds →
      (∀ j (hj : j < zone.transitions.length), k < j → seconds < zone.transitions[j]) →
      (zone.hasRule = true → k + 1 < zone.transitions.length) →
      typeAt zone seconds = zone.transitionTypes[k]?.bind (zone.types[·]?) := by
  refine ⟨fun zone w h hw hyear => ?_, fun zone hsorted _ _ => typeAt_table hsorted⟩
  obtain ⟨W, hW⟩ : ∃ W, (instantOf w 0).seconds = W := ⟨_, rfl⟩
  obtain ⟨s, -, hshape⟩ := h.one_change (W - 86400)
  obtain ⟨a, ha⟩ : ∃ a, offsetAt zone (W - 86400) = a := ⟨_, rfl⟩
  obtain ⟨b, hb⟩ : ∃ b, offsetAt zone (W - a) = b := ⟨_, rfl⟩
  obtain ⟨c, hc⟩ : ∃ c, offsetAt zone s = c := ⟨_, rfl⟩
  rw [ha, hc] at hshape
  have hbound : ∀ x, -86400 ≤ offsetAt zone x ∧ offsetAt zone x ≤ 86400 := fun x =>
    abs_le.mp (h.offsets x)
  have habound := hbound (W - 86400)
  have hcbound := hbound s
  rw [ha] at habound
  rw [hc] at hcbound
  have hb' : b = if W - a < s then a else c := by rw [← hb, hshape _ (by omega) (by omega)]
  have hretried := hshape (W - c) (by omega) (by omega)
  obtain ⟨x, hx⟩ : ∃ x, (if b ≠ a ∧ offsetAt zone (W - b) = b then b else a) = x := ⟨_, rfl⟩
  have hseconds : (instantOf w x).seconds = W - x := by rw [instantOf_seconds, hW]
  have hreads : offsetAt zone (W - x) = x → Reads zone (instantOf w x) w := by
    intro hself
    rw [h.reads_iff hw hyear, hseconds, hself]
  refine ⟨instantOf w x, hx ▸ h.instantOfLocal_eq w hW ha hb, fun t ht => ?_, fun hnone => ?_⟩
  · rw [h.reads_iff hw hyear] at ht
    have htime : t.seconds = W - offsetAt zone t.seconds := by
      conv_lhs => rw [ht, instantOf_seconds, hW]
    have htbound := hbound t.seconds
    have htshape := hshape t.seconds (by omega) (by omega)
    have hearliest : offsetAt zone (W - x) = x ∧ W - x ≤ t.seconds := by
      split_ifs at * <;> grind
    exact ⟨hreads hearliest.1, hseconds.trans_le hearliest.2⟩
  have hwrong : offsetAt zone (W - x) ≠ x := fun hself => hnone _ (hreads hself)
  obtain ⟨hxa, hafter, hbefore⟩ : x = a ∧ s ≤ W - a ∧ W - c < s := by
    split_ifs at * <;> grind
  refine ⟨⟨s, ?_, ?_⟩, fun s' hskip => ?_⟩
  · rw [hshape (s - 1) (by omega) (by omega), if_pos (by omega), hW]
    omega
  · rw [hc, hW]
    omega
  obtain ⟨hlow, hhigh⟩ := hskip
  rw [hW] at hlow hhigh
  have hbelow := hbound (s' - 1)
  have habove := hbound s'
  have hfirst := hshape (s' - 1) (by omega) (by omega)
  have hsecond := hshape s' (by omega) (by omega)
  rw [hxa, hfirst, if_pos]
  split_ifs at * <;> omega

/-- A zone whose clocks go forward on April 26, 1970 and back on August 20. -/
def summerZone : Zone :=
  { transitions := [10000000, 20000000]
    transitionTypes := [1, 0]
    types := [{}, { offset := 3600, dst := true }] }

theorem summerZone_type (s : Int) : typeAt summerZone s =
    some (if 10000000 ≤ s ∧ s < 20000000 then { offset := 3600, dst := true } else {}) := by
  unfold typeAt
  rw [if_neg (by rintro ⟨⟨⟩, -⟩), if_neg (by decide)]
  change (if s < 10000000 then _ else _) = _
  by_cases hfirst : s < 10000000
  · rw [if_pos hfirst, if_neg (by omega)]
    rfl
  rw [if_neg hfirst, search, if_pos (by decide)]
  change (summerZone.transitionTypes[if (20000000 : Int) ≤ s then _ else _]?).bind _ = _
  by_cases hsecond : (20000000 : Int) ≤ s
  · rw [if_pos hsecond, if_neg (by omega), search, if_neg (by decide)]
    rfl
  · rw [if_neg hsecond, if_pos (by omega), search, if_neg (by decide)]
    rfl

theorem summerZone_offset (s : Int) :
    offsetAt summerZone s = if 10000000 ≤ s ∧ s < 20000000 then 3600 else 0 := by
  rw [offsetAt, summerZone_type]
  split_ifs <;> rfl

theorem summerZone_tame : Tame summerZone := by
  refine ⟨fun s => by rw [summerZone_type]; rfl, fun s => ?_, fun s t hs ht hlt => ?_⟩
  · rw [summerZone_offset]
    split_ifs <;> decide
  have hwhere : ∀ s, Changes summerZone s → s = 10000000 ∨ s = 20000000 := fun s hs => by
    by_contra hno
    refine hs ?_
    rw [summerZone_type, summerZone_type]
    congr 2
    simp only [eq_iff_iff]
    omega
  have := hwhere s hs
  have := hwhere t ht
  omega

/-- The first time is shown twice, the second one never. -/
theorem local_exact_summer :
    (instantOfLocal summerZone { year := 1970, month := 8, day := 20, hour := 12 } = some ⟨19998000, 0⟩ ∧
      ∀ t, Reads summerZone t { year := 1970, month := 8, day := 20, hour := 12 } → 19998000 ≤ t.seconds) ∧
    (instantOfLocal summerZone { year := 1970, month := 4, day := 26, hour := 18 } = some ⟨10000800, 0⟩ ∧
      ∃ s, Skips summerZone { year := 1970, month := 4, day := 26, hour := 18 } s) ∧
    typeAt summerZone 15000000 = some { offset := 3600, dst := true } := by
  obtain ⟨hlocal, htable⟩ := local_exact
  have hin : ∀ month day hour, (month = 4 ∧ day = 26 ∧ hour = 18 ∨ month = 8 ∧ day = 20 ∧ hour = 12) →
      DateTime.InRange { year := 1970, month := month, day := day, hour := hour } := by
    rintro _ _ _ (⟨rfl, rfl, rfl⟩ | ⟨rfl, rfl, rfl⟩)
    all_goals
      unfold DateTime.InRange ValidDate
      decide
  have htwice := summerZone_tame.instantOfLocal_eq { year := 1970, month := 8, day := 20, hour := 12 } rfl
    (summerZone_offset _) (summerZone_offset _)
  have hskipped := summerZone_tame.instantOfLocal_eq { year := 1970, month := 4, day := 26, hour := 18 } rfl
    (summerZone_offset _) (summerZone_offset _)
  rw [summerZone_offset] at htwice hskipped
  refine ⟨⟨htwice, fun t ht => ?_⟩, ⟨hskipped, ?_⟩, ?_⟩
  · obtain ⟨r, hr, hearliest, -⟩ := hlocal summerZone _ summerZone_tame (hin 8 20 12 (by decide)) (by unfold IsI32; decide)
    cases htwice.symm.trans hr
    exact (hearliest t ht).2
  · obtain ⟨r, hr, hreads, hnone⟩ := hlocal summerZone _ summerZone_tame (hin 4 26 18 (by decide)) (by unfold IsI32; decide)
    cases hskipped.symm.trans hr
    refine (hnone fun t ht => ?_).1
    have hself := (summerZone_tame.reads_iff (hin 4 26 18 (by decide)) (by unfold IsI32; decide) _).mp (hreads t ht).1
    rw [summerZone_offset] at hself
    exact absurd hself (by decide)
  · exact htable summerZone (by decide) 15000000 0 (by decide) (by decide) (by decide) (by rintro ⟨⟩)

theorem utc_tame : Tame utc := by
  have htype : ∀ s, typeAt utc s = some utc.standard := fun s => rfl
  refine ⟨fun s => rfl, fun s => by rw [offsetAt, htype]; decide, fun s t hs => ?_⟩
  exact absurd ((htype (s - 1)).trans (htype s).symm) hs

/-- A far instant shows the same local time, with its year reduced to 32 bits; and a rule takes over from the
last transition on. -/
theorem far_local_repeats :
    (¬ ∀ zone w, Tame zone → w.InRange → IsI32 w.year → ∀ r, instantOfLocal zone w = some r →
      ∀ t : Instant, -2 ^ 63 ≤ t.seconds → (localTime zone t).map (·.value) = some w →
      r.seconds ≤ t.seconds) ∧
    typeAt { summerZone with hasRule := true, standard := { offset := 7200 } } 20000000 ≠
      (summerZone.transitionTypes[1]?).bind (summerZone.types[·]?) := by
  refine ⟨fun h => ?_, by decide⟩
  have hfar := h utc { year := 1970, month := 1, day := 1 } utc_tame
    (by unfold DateTime.InRange ValidDate; decide) (by unfold IsI32; decide)
    ⟨0, 0⟩ rfl ⟨daysFromCivil (1970 - 2 ^ 32) 1 1 * 86400, 0⟩ (by decide) (by decide)
  exact absurd hfar (by decide)

end Dyn.Time
