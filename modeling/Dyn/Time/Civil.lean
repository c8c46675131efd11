import Mathlib.Tactic.IntervalCases

/-!
# std/time: civil dates and day counts

`daysFromCivil` and `civilFromDays` count years from March on, in eras of 400 years, with
divisions that truncate.  A `MarchDate` is a date in these terms.  Its `number` is one
closed formula, both functions compute through it, and every day count has exactly one.
-/

namespace Dyn.Time

/-- `#cast(i32, n)`. -/
def castI32 (n : Int) : Int := (n + 2 ^ 31) % 2 ^ 32 - 2 ^ 31

/-- `#cast(u8, n)`. -/
def castU8 (n : Int) : Int := n % 2 ^ 8

/-- `#cast(u32, n)`. -/
def castU32 (n : Int) : Int := n % 2 ^ 32

structure Instant where
  seconds : Int
  nanoseconds : Int
deriving DecidableEq, Repr

structure DateTime where
  year : Int
  month : Int
  day : Int
  hour : Int := 0
  minute : Int := 0
  second : Int := 0
  nanosecond : Int := 0
deriving DecidableEq, Repr

def leapYear (year : Int) : Bool :=
  year.tmod 4 = 0 && (year.tmod 100 ≠ 0 || year.tmod 400 = 0)

/-- `maximum` of `valid`. -/
def monthDays (year month : Int) : Int :=
  if month = 2 ∧ leapYear year then 29
  else [31, 28, 31, 30, 31, 30, 31, 31, 30, 31, 30, 31].getD (month - 1).toNat 0

def valid (value : DateTime) : Bool :=
  if value.month < 1 ∨ value.month > 12 ∨ value.day < 1 ∨ value.hour > 23 ∨ value.minute > 59 ∨
      value.second > 60 ∨ value.nanosecond ≥ 1000000000 then false
  else value.day ≤ monthDays value.year value.month

/-- The quotient of the source by eras: truncated, and corrected below zero. -/
def eraOf (value length : Int) : Int :=
  if value < 0 ∧ value.tmod length ≠ 0 then (value - (length - 1)).tdiv length
  else value.tdiv length

def daysFromCivil (year month day : Int) : Int :=
  let y := if month ≤ 2 then year - 1 else year
  let era := eraOf y 400
  let yearOfEra := y - era * 400
  let shifted := if month > 2 then month - 3 else month + 9
  let dayOfYear := (153 * shifted + 2).tdiv 5 + day - 1
  let dayOfEra := yearOfEra * 365 + yearOfEra.tdiv 4 - yearOfEra.tdiv 100 + dayOfYear
  era * 146097 + dayOfEra - 719468

/-- Year, month and day of `civil_from_days` before their casts. -/
def civilParts (days : Int) : Int × Int × Int :=
  let z := days + 719468
  let era := eraOf z 146097
  let dayOfEra := z - era * 146097
  let yearOfEra :=
    (dayOfEra - dayOfEra.tdiv 1460 + dayOfEra.tdiv 36524 - dayOfEra.tdiv 146096).tdiv 365
  let dayOfYear := dayOfEra - (365 * yearOfEra + yearOfEra.tdiv 4 - yearOfEra.tdiv 100)
  let shifted := (5 * dayOfYear + 2).tdiv 153
  let day := dayOfYear - (153 * shifted + 2).tdiv 5 + 1
  let month := if shifted ≥ 10 then shifted - 9 else shifted + 3
  let year := yearOfEra + era * 400
  (if month ≤ 2 then year + 1 else year, month, day)

def civilFromDays (days : Int) : DateTime :=
  let (year, month, day) := civilParts days
  { year := castI32 year, month := castU8 month, day := castU8 day }

def floorDivide (value divisor : Int) : Int :=
  let quotient := value.tdiv divisor
  if value.tmod divisor ≠ 0 ∧ (value < 0) ≠ (divisor < 0) then quotient - 1 else quotient

def dateTime (instant : Instant) (offset : Int) : DateTime :=
  let seconds := instant.seconds + offset
  let days := floorDivide seconds 86400
  let rest := seconds - days * 86400
  { civilFromDays days with
    hour := castU8 (rest.tdiv 3600)
    minute := castU8 ((rest.tdiv 60).tmod 60)
    second := castU8 (rest.tmod 60)
    nanosecond := castU32 instant.nanoseconds }

def instantOf (value : DateTime) (offset : Int) : Instant :=
  let days := daysFromCivil value.year value.month value.day
  { seconds := days * 86400 + value.hour * 3600 + value.minute * 60 + value.second - offset
    nanoseconds := value.nanosecond }

/-- The number of the weekday, from Sunday on. -/
def weekday (value : DateTime) : Int :=
  let days := daysFromCivil value.year value.month value.day
  castU8 (days + 4 - floorDivide (days + 4) 7 * 7)

variable {value year month n : Int}

theorem ediv_eq_of {length q r : Int} (hlength : 0 < length) (h : r + length * q = value)
    (hr : 0 ≤ r) (hr' : r < length) : value / length = q :=
  ((Int.ediv_emod_unique hlength).mpr ⟨h, hr, hr'⟩).1

theorem tmod_nonpos (length : Int) (h : value ≤ 0) : value.tmod length ≤ 0 := by
  have hneg := Int.tmod_nonneg (a := -value) length (by omega)
  rw [Int.neg_tmod] at hneg
  omega

theorem eraOf_eq {length : Int} (hlength : 0 < length) : eraOf value length = value / length := by
  unfold eraOf
  split_ifs with h
  · have hsum := Int.tmod_add_mul_tdiv (value - (length - 1)) length
    have hlow := Int.lt_tmod_of_pos (value - (length - 1)) hlength
    have hhigh := tmod_nonpos length (by omega : value - (length - 1) ≤ 0)
    exact (ediv_eq_of (r := (value - (length - 1)).tmod length + (length - 1)) hlength (by omega)
      (by omega) (by omega)).symm
  have hsum := Int.tmod_add_mul_tdiv value length
  have hlow := Int.tmod_lt_of_pos value hlength
  refine (ediv_eq_of hlength hsum ?_ hlow).symm
  rcases Int.lt_or_le value 0 with hneg | hpos
  · have hzero : value.tmod length = 0 := by
      by_contra hne
      exact h ⟨hneg, hne⟩
    omega
  · exact Int.tmod_nonneg length hpos

theorem floorDivide_eq {divisor : Int} (hdivisor : 0 < divisor) :
    floorDivide value divisor = value / divisor := by
  have hsum := Int.tmod_add_mul_tdiv value divisor
  have hhigh := Int.tmod_lt_of_pos value hdivisor
  have hlow := Int.lt_tmod_of_pos value hdivisor
  unfold floorDivide
  split_ifs with h
  · obtain ⟨hne, hsign⟩ := h
    have hneg : value < 0 := by
      by_contra hpos
      exact hsign (propext (iff_of_false hpos (by omega)))
    have hnonpos := tmod_nonpos divisor hneg.le
    refine (ediv_eq_of (r := value.tmod divisor + divisor) hdivisor ?_ (by omega) (by omega)).symm
    rw [Int.mul_sub, Int.mul_one]
    omega
  refine (ediv_eq_of hdivisor hsum ?_ hhigh).symm
  by_contra hneg
  have hvalue : value < 0 := by
    by_contra hpos
    exact hneg (Int.tmod_nonneg divisor (by omega))
  exact h ⟨by omega, by simp [hvalue, Int.not_lt.mpr hdivisor.le]⟩

theorem leapYear_iff (year : Int) :
    leapYear year = true ↔ year % 4 = 0 ∧ (year % 100 ≠ 0 ∨ year % 400 = 0) := by
  have hmod : ∀ d, year.tmod d = 0 ↔ year % d = 0 := fun d => by
    rw [← Int.dvd_iff_tmod_eq_zero, Int.dvd_iff_emod_eq_zero]
  simp [leapYear, hmod]

theorem daysFromCivil_eq {y shifted : Int} (day : Int)
    (hy : (if month ≤ 2 then year - 1 else year) = y)
    (hshifted : (if month > 2 then month - 3 else month + 9) = shifted) (hpos : 0 ≤ shifted) :
    daysFromCivil year month day =
      365 * y + y / 4 - y / 100 + y / 400 + (153 * shifted + 2) / 5 + day - 719469 := by
  have hera : eraOf y 400 = y / 400 := eraOf_eq (by decide)
  have hyear : 0 ≤ y - y / 400 * 400 := by omega
  unfold daysFromCivil
  rw [hy, hshifted]
  simp only [hera]
  rw [Int.tdiv_eq_ediv_of_nonneg hyear, Int.tdiv_eq_ediv_of_nonneg hyear,
    Int.tdiv_eq_ediv_of_nonneg (by omega)]
  omega

/-- A date in years that begin in March, with the month from 0 to 11 and the day from 1. -/
structure MarchDate where
  year : Int
  month : Int
  day : Int
  month_nonneg : 0 ≤ month
  month_le : month ≤ 11
  day_pos : 1 ≤ day
  fits : day ≤ (153 * (month + 1) + 2) / 5 - (153 * month + 2) / 5
  february : month = 11 → day ≤ if leapYear (year + 1) then 29 else 28

namespace MarchDate

variable (date : MarchDate)

def number : Int :=
  365 * date.year + date.year / 4 - date.year / 100 + date.year / 400 +
    (153 * date.month + 2) / 5 + date.day - 719469

/-- The year, the month and the day of the calendar. -/
def civil : Int × Int × Int :=
  if date.month ≥ 10 then (date.year + 1, date.month - 9, date.day)
  else (date.year, date.month + 3, date.day)

theorem daysFromCivil_civil :
    daysFromCivil date.civil.1 date.civil.2.1 date.civil.2.2 = date.number := by
  have h0 := date.month_nonneg
  have h1 := date.month_le
  unfold civil
  split_ifs with hlate
  · exact daysFromCivil_eq _ (by simp only; rw [if_pos (by omega)]; omega)
      (by simp only; rw [if_neg (by omega)]; omega) h0
  · exact daysFromCivil_eq _ (by simp only; rw [if_neg (by omega)])
      (by simp only; rw [if_pos (by omega)]; omega) h0

/-- The century, the place of the four-year cycle in it and the year in the cycle. -/
theorem yearOfEra_eq {c q p day of : Int} (hc : 0 ≤ c) (hc' : c ≤ 3) (hp : 0 ≤ p) (hp' : p ≤ 3)
    (hq : 0 ≤ q) (hq' : q ≤ 24) (hday : 0 ≤ day) (hday' : day ≤ 365)
    (hleap : day = 365 → p = 3 ∧ (q ≠ 24 ∨ c = 3))
    (hof : of = 36524 * c + 1461 * q + 365 * p + day) :
    (of - of / 1460 + of / 36524 - of / 146096) / 365 = 100 * c + 4 * q + p := by
  have hcentury : of / 36524 - of / 146096 = c := by
    have hlast : of / 146096 = if of = 146096 then 1 else 0 := by split_ifs <;> omega
    omega
  have hcycle : of / 1460 =
      25 * c + q + if 1460 ≤ 24 * c + q + 365 * p + day then 1 else 0 := by
    split_ifs <;> omega
  split_ifs at hcycle <;> omega

theorem dayOfYear_le : (153 * date.month + 2) / 5 + date.day - 1 ≤ 364 ∨
    (153 * date.month + 2) / 5 + date.day - 1 = 365 ∧ leapYear (date.year + 1) = true := by
  have h1 := date.month_le
  have h2 := date.fits
  have h3 := date.february
  by_cases hlast : date.month = 11
  · have h4 := h3 hlast
    split_ifs at h4 with hleap
    · rcases Int.lt_or_eq_of_le h4 with hless | hlate
      · exact .inl (by omega)
      · exact .inr ⟨by omega, hleap⟩
    · exact .inl (by omega)
  · exact .inl (by omega)

theorem civilParts_number : civilParts date.number = date.civil := by
  have h0 := date.month_nonneg
  have h2 := date.day_pos
  have h3 := date.fits
  have hlength := date.dayOfYear_le
  rw [leapYear_iff] at hlength
  -- the year of the era, split as its formula in the source needs it
  obtain ⟨n, hn⟩ : ∃ n, date.year % 400 = n := ⟨_, rfl⟩
  obtain ⟨k, hk⟩ : ∃ k, (153 * date.month + 2) / 5 + date.day - 1 = k := ⟨_, rfl⟩
  obtain ⟨era, hera⟩ : ∃ era, date.year / 400 = era := ⟨_, rfl⟩
  obtain ⟨of, hof⟩ : ∃ of, 365 * n + n / 4 - n / 100 + k = of := ⟨_, rfl⟩
  have hz : date.number + 719468 = of + 146097 * era := by
    unfold number
    omega
  have hbound : 0 ≤ of ∧ of < 146097 := by omega
  have hdiv : eraOf (date.number + 719468) 146097 = era := by
    rw [eraOf_eq (by decide)]
    exact ediv_eq_of (by decide) hz.symm hbound.1 hbound.2
  have hrest : date.number + 719468 - era * 146097 = of := by omega
  have hyear : (of - of / 1460 + of / 36524 - of / 146096) / 365 = n := by
    rw [@yearOfEra_eq (n / 100) (n % 100 / 4) (n % 4) k] <;> omega
  have hfrac : (of - of / 1460 + of / 36524 - of / 146096) ≥ 0 := by omega
  have hn0 : 0 ≤ n := by omega
  have hday : of - (365 * n + n / 4 - n / 100) = k := by omega
  have hmonth : (5 * k + 2) / 153 = date.month := by omega
  have hparts : (k - (153 * date.month + 2) / 5 + 1, n + era * 400) = (date.day, date.year) := by
    rw [Prod.mk.injEq]
    omega
  obtain ⟨hpart, hpart'⟩ := Prod.mk.inj hparts
  unfold civilParts civil
  simp only [hdiv, hrest, Int.tdiv_eq_ediv_of_nonneg hbound.1, Int.tdiv_eq_ediv_of_nonneg hfrac,
    hyear, Int.tdiv_eq_ediv_of_nonneg hn0, hday,
    Int.tdiv_eq_ediv_of_nonneg (by omega : 0 ≤ 5 * k + 2), hmonth,
    Int.tdiv_eq_ediv_of_nonneg (by omega : 0 ≤ 153 * date.month + 2), hpart, hpart']
  split_ifs with hlate hlate' hlate' <;> first | rfl | omega

theorem exists_number (n : Int) : ∃ date : MarchDate, date.number = n := by
  obtain ⟨of, hof⟩ : ∃ of, (n + 719468) % 146097 = of := ⟨_, rfl⟩
  obtain ⟨c, hc⟩ : ∃ c, (if of = 146096 then 3 else of / 36524) = c := ⟨_, rfl⟩
  obtain ⟨w, hw⟩ : ∃ w, (of - 36524 * c) % 1461 = w := ⟨_, rfl⟩
  obtain ⟨q, hq⟩ : ∃ q, (of - 36524 * c) / 1461 = q := ⟨_, rfl⟩
  obtain ⟨p, hp⟩ : ∃ p, (if w = 1460 then 3 else w / 365) = p := ⟨_, rfl⟩
  obtain ⟨k, hk⟩ : ∃ k, w - 365 * p = k := ⟨_, rfl⟩
  obtain ⟨month, hmonth⟩ : ∃ month, (5 * k + 2) / 153 = month := ⟨_, rfl⟩
  obtain ⟨year, hyear⟩ : ∃ year, 400 * ((n + 719468) / 146097) + 100 * c + 4 * q + p = year :=
    ⟨_, rfl⟩
  refine ⟨⟨year, month, k - (153 * month + 2) / 5 + 1, by omega, by omega, by omega, by omega, ?_⟩,
    ?_⟩
  · rintro rfl
    split_ifs with hleap
    · omega
    · rw [leapYear_iff] at hleap
      omega
  have hfour : year / 4 = 100 * ((n + 719468) / 146097) + 25 * c + q := by omega
  have hcentury : year / 100 = 4 * ((n + 719468) / 146097) + c := by omega
  have hera : year / 400 = (n + 719468) / 146097 := by omega
  unfold number
  simp only [hfour, hcentury, hera]
  omega

end MarchDate

def ValidDate (date : Int × Int × Int) : Prop :=
  1 ≤ date.2.1 ∧ date.2.1 ≤ 12 ∧ 1 ≤ date.2.2 ∧ date.2.2 ≤ monthDays date.1 date.2.1

def nextDate (date : Int × Int × Int) : Int × Int × Int :=
  if date.2.2 < monthDays date.1 date.2.1 then (date.1, date.2.1, date.2.2 + 1)
  else if date.2.1 < 12 then (date.1, date.2.1 + 1, 1)
  else (date.1 + 1, 1, 1)

theorem monthDays_eq {shifted : Int} (h : 1 ≤ month) (h' : month ≤ 12)
    (hshifted : (if month > 2 then month - 3 else month + 9) = shifted) :
    monthDays year month = if month = 2 then if leapYear year then 29 else 28
      else (153 * (shifted + 1) + 2) / 5 - (153 * shifted + 2) / 5 := by
  subst hshifted
  unfold monthDays
  interval_cases month <;> cases leapYear year <;> rfl

theorem exists_civil {date : Int × Int × Int} (h : ValidDate date) :
    ∃ march : MarchDate, march.civil = date := by
  obtain ⟨year, month, day⟩ := date
  obtain ⟨h0, h1, h2, h3⟩ := h
  simp only at h0 h1 h2 h3
  by_cases hlate : month ≤ 2
  · rw [monthDays_eq h0 h1 (if_neg (by omega) : _ = month + 9)] at h3
    refine ⟨⟨year - 1, month + 9, day, by omega, by omega, h2, ?_, ?_⟩, ?_⟩
    · split_ifs at h3 <;> omega
    · intro hlast
      rw [if_pos (by omega)] at h3
      rwa [Int.sub_add_cancel]
    unfold MarchDate.civil
    simp only
    rw [if_pos (by omega), Int.sub_add_cancel, Int.add_sub_cancel]
  rw [monthDays_eq h0 h1 (if_pos (by omega) : _ = month - 3), if_neg (by omega)] at h3
  refine ⟨⟨year, month - 3, day, by omega, by omega, h2, h3, by omega⟩, ?_⟩
  unfold MarchDate.civil
  simp only
  rw [if_neg (by omega), Int.sub_add_cancel]

theorem MarchDate.civil_valid (march : MarchDate) : ValidDate march.civil := by
  have h0 := march.month_nonneg
  have h1 := march.month_le
  have h2 := march.day_pos
  have h3 := march.fits
  have h4 := march.february
  unfold MarchDate.civil ValidDate
  split_ifs with hlate <;> simp only
  · refine ⟨by omega, by omega, h2, ?_⟩
    rw [monthDays_eq (by omega) (by omega) (if_neg (by omega) : _ = march.month - 9 + 9),
      Int.sub_add_cancel]
    by_cases hlast : march.month = 11
    · rw [if_pos (by omega)]
      exact h4 hlast
    · rw [if_neg (by omega)]
      exact h3
  refine ⟨by omega, by omega, h2, ?_⟩
  rw [monthDays_eq (by omega) (by omega) (if_pos (by omega) : _ = march.month + 3 - 3),
    if_neg (by omega), Int.add_sub_cancel]
  exact h3

theorem nextDate_valid {date : Int × Int × Int} (h : ValidDate date) : ValidDate (nextDate date) := by
  obtain ⟨h0, h1, h2, -⟩ := h
  unfold nextDate ValidDate
  split_ifs with hday hmonth <;> simp only at *
  · exact ⟨h0, h1, by omega, by omega⟩
  · refine ⟨by omega, by omega, le_rfl, ?_⟩
    rw [monthDays_eq (by omega) (by omega) rfl]
    split_ifs <;> omega
  refine ⟨by omega, by omega, le_rfl, ?_⟩
  rw [monthDays_eq (by omega) (by omega) rfl]
  split_ifs <;> omega

theorem daysFromCivil_nextDate {date : Int × Int × Int} (h : ValidDate date) :
    daysFromCivil (nextDate date).1 (nextDate date).2.1 (nextDate date).2.2 =
      daysFromCivil date.1 date.2.1 date.2.2 + 1 := by
  obtain ⟨year, month, day⟩ := date
  obtain ⟨h0, h1, h2, h3⟩ := h
  simp only at h0 h1 h2 h3
  have hleap := leapYear_iff year
  have hpos : 0 ≤ if month > 2 then month - 3 else month + 9 := by split_ifs <;> omega
  unfold nextDate
  simp only
  split
  · simp only
    rw [daysFromCivil_eq _ rfl rfl hpos, daysFromCivil_eq _ rfl rfl hpos]
    omega
  obtain rfl : day = monthDays year month := by omega
  rw [daysFromCivil_eq (monthDays year month) rfl rfl hpos, monthDays_eq h0 h1 rfl]
  split
  · simp only
    by_cases hfeb : month = 2
    · subst hfeb
      rw [daysFromCivil_eq 1 rfl rfl (by decide)]
      by_cases hlong : leapYear year = true
      · rw [if_pos hlong]
        rw [hleap] at hlong
        omega
      rw [if_neg hlong]
      rw [hleap] at hlong
      omega
    rw [if_neg hfeb]
    by_cases hlate : month > 2
    · rw [daysFromCivil_eq 1 (if_neg (by omega) : _ = year)
        (if_pos (by omega) : _ = month + 1 - 3) (by omega), if_neg (by omega), if_pos hlate]
      omega
    obtain rfl : month = 1 := by omega
    rw [daysFromCivil_eq 1 rfl rfl (by decide)]
    omega
  · obtain rfl : month = 12 := by omega
    simp only
    rw [daysFromCivil_eq _ rfl rfl (by decide)]
    simp only [Int.reduceAdd, Int.reduceLE, Int.reduceGT, if_true, if_false]
    rw [if_neg (by decide)]
    omega

theorem civilParts_daysFromCivil {date : Int × Int × Int} (h : ValidDate date) :
    civilParts (daysFromCivil date.1 date.2.1 date.2.2) = date := by
  obtain ⟨march, rfl⟩ := exists_civil h
  rw [march.daysFromCivil_civil, march.civilParts_number]

theorem daysFromCivil_civilParts (n : Int) : ValidDate (civilParts n) ∧
    daysFromCivil (civilParts n).1 (civilParts n).2.1 (civilParts n).2.2 = n := by
  obtain ⟨march, rfl⟩ := MarchDate.exists_number n
  rw [march.civilParts_number]
  exact ⟨march.civil_valid, march.daysFromCivil_civil⟩

theorem civilParts_succ (n : Int) : civilParts (n + 1) = nextDate (civilParts n) := by
  obtain ⟨hvalid, hdays⟩ := daysFromCivil_civilParts n
  have hnext := civilParts_daysFromCivil (nextDate_valid hvalid)
  rwa [daysFromCivil_nextDate hvalid, hdays] at hnext

/-- The numbers of an `i32`. -/
def IsI32 (n : Int) : Prop := -2 ^ 31 ≤ n ∧ n < 2 ^ 31

def DateTime.date (value : DateTime) : Int × Int × Int := (value.year, value.month, value.day)

/-- A time of day, on a date of the calendar. -/
def DateTime.InRange (value : DateTime) : Prop :=
  ValidDate value.date ∧ (0 ≤ value.hour ∧ value.hour < 24) ∧
    (0 ≤ value.minute ∧ value.minute < 60) ∧ (0 ≤ value.second ∧ value.second < 60) ∧
    0 ≤ value.nanosecond ∧ value.nanosecond < 1000000000

theorem monthDays_le (h : 1 ≤ month) (h' : month ≤ 12) : monthDays year month ≤ 31 := by
  rw [monthDays_eq h h' rfl]
  split_ifs <;> omega

theorem civilFromDays_eq (h : IsI32 (civilParts n).1) :
    civilFromDays n =
      { year := (civilParts n).1, month := (civilParts n).2.1, day := (civilParts n).2.2 } := by
  obtain ⟨h0, h1, h2, h3⟩ := (daysFromCivil_civilParts n).1
  have hle : monthDays (civilParts n).1 (civilParts n).2.1 ≤ 31 := monthDays_le h0 h1
  have hyear : castI32 (civilParts n).1 = (civilParts n).1 := by
    unfold castI32
    obtain ⟨hlow, hhigh⟩ := h
    omega
  have hmonth : castU8 (civilParts n).2.1 = (civilParts n).2.1 := by
    unfold castU8
    omega
  have hday : castU8 (civilParts n).2.2 = (civilParts n).2.2 := by
    unfold castU8
    omega
  unfold civilFromDays
  simp only [hyear, hmonth, hday]

theorem civilFromDays_date (h : IsI32 (civilParts n).1) :
    (civilFromDays n).date = civilParts n := by
  rw [civilFromDays_eq h, DateTime.date]

theorem weekday_eq {value : DateTime} (h : daysFromCivil value.year value.month value.day = n) :
    weekday value = (n + 4) % 7 := by
  unfold weekday castU8
  simp only [h, floorDivide_eq (by decide : (0 : Int) < 7)]
  omega

/-- The fields of a date and time, by the day and the second of the day. -/
theorem dateTime_eq {t : Instant} {offset : Int} (hns : 0 ≤ t.nanoseconds)
    (hns' : t.nanoseconds < 1000000000) :
    dateTime t offset = { civilFromDays ((t.seconds + offset) / 86400) with
      hour := (t.seconds + offset) % 86400 / 3600
      minute := (t.seconds + offset) % 86400 / 60 % 60
      second := (t.seconds + offset) % 86400 % 60
      nanosecond := t.nanoseconds } := by
  have hrest : t.seconds + offset - (t.seconds + offset) / 86400 * 86400 =
      (t.seconds + offset) % 86400 := by omega
  have hpos : 0 ≤ (t.seconds + offset) % 86400 := by omega
  unfold dateTime castU8 castU32
  simp only [floorDivide_eq (by decide : (0 : Int) < 86400), hrest,
    Int.tdiv_eq_ediv_of_nonneg hpos, Int.tmod_eq_emod_of_nonneg hpos,
    Int.tmod_eq_emod_of_nonneg (by omega : 0 ≤ (t.seconds + offset) % 86400 / 60)]
  simp only [DateTime.mk.injEq, true_and]
  omega

theorem instantOf_dateTime {t : Instant} {offset : Int} (hns : 0 ≤ t.nanoseconds)
    (hns' : t.nanoseconds < 1000000000)
    (hyear : IsI32 (civilParts ((t.seconds + offset) / 86400)).1) :
    instantOf (dateTime t offset) offset = t ∧ (dateTime t offset).InRange := by
  have hdate := civilFromDays_date hyear
  obtain ⟨hvalid, hdays⟩ := daysFromCivil_civilParts ((t.seconds + offset) / 86400)
  rw [← hdate] at hvalid hdays
  rw [dateTime_eq hns hns']
  constructor
  · unfold instantOf
    have hdays' : daysFromCivil (civilFromDays ((t.seconds + offset) / 86400)).year
        (civilFromDays ((t.seconds + offset) / 86400)).month
        (civilFromDays ((t.seconds + offset) / 86400)).day = (t.seconds + offset) / 86400 := hdays
    simp only [hdays']
    refine congrArg (Instant.mk · t.nanoseconds) ?_
    omega
  · exact ⟨hvalid, by simp only; omega, by simp only; omega, by simp only; omega, hns, hns'⟩

/-- **Civil dates.**  Dates and day counts are inverse to each other, the date of the next day
is the next date, and weekdays go round from the Thursday of day 0.  An instant comes back
from its calendar time, whose fields are in range.  Dates are those with a year of 32 bits. -/
theorem civil_exact :
    (∀ year month day, IsI32 year → ValidDate (year, month, day) →
      civilFromDays (daysFromCivil year month day) = { year := year, month := month, day := day }) ∧
    (∀ n, IsI32 (civilParts n).1 → daysFromCivil (civilFromDays n).year (civilFromDays n).month
      (civilFromDays n).day = n) ∧
    (∀ n, IsI32 (civilParts n).1 → IsI32 (civilParts (n + 1)).1 →
      (civilFromDays (n + 1)).date = nextDate (civilFromDays n).date ∧
      weekday (civilFromDays (n + 1)) = (weekday (civilFromDays n) + 1) % 7) ∧
    weekday (civilFromDays 0) = 4 ∧
    ∀ (t : Instant) (offset : Int), 0 ≤ t.nanoseconds → t.nanoseconds < 1000000000 →
      IsI32 (civilParts ((t.seconds + offset) / 86400)).1 →
      instantOf (dateTime t offset) offset = t ∧ (dateTime t offset).InRange := by
  have hinverse : ∀ n, IsI32 (civilParts n).1 → daysFromCivil (civilFromDays n).year
      (civilFromDays n).month (civilFromDays n).day = n := by
    intro n hn
    have hdays := (daysFromCivil_civilParts n).2
    rwa [← civilFromDays_date hn] at hdays
  refine ⟨?_, hinverse, ?_, by decide, fun t offset => instantOf_dateTime⟩
  · intro year month day hyear hvalid
    have hparts := civilParts_daysFromCivil hvalid
    have hdate := civilFromDays_eq (n := daysFromCivil year month day) (by rwa [hparts])
    rwa [hparts] at hdate
  intro n hn hnext
  refine ⟨?_, ?_⟩
  · rw [civilFromDays_date hn, civilFromDays_date hnext, civilParts_succ]
  · rw [weekday_eq (hinverse n hn), weekday_eq (hinverse (n + 1) hnext)]
    omega

/-- The year of a far instant does not fit. -/
theorem far_instant_lost :
    ¬ ∀ (t : Instant) (offset : Int), -2 ^ 63 ≤ t.seconds → t.seconds < 2 ^ 63 →
      0 ≤ t.nanoseconds → t.nanoseconds < 1000000000 →
      instantOf (dateTime t offset) offset = t := by
  intro h
  have hfar := h ⟨2 ^ 60, 0⟩ 0 (by decide) (by decide) (by decide) (by decide)
  exact absurd hfar (by decide)

end Dyn.Time
