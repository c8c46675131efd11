import Dyn.Time.Zone

/-!
# std/time/zone: recurring rules

The start and end instants of all years alternate in one sequence, `moment`.  `ruleType` looks
at two of them, those of one calendar year.  It is right exactly where an even number of
others lies between the instant and the one of the two that it goes by.
-/

namespace Dyn.Time

def Alternate (start stop : Int → Int) (shift : Int) : Prop :=
  ∀ year, start year < stop (year + shift) ∧ stop (year + shift) < start (year + 1)

section

variable (start stop : Int → Int) (shift : Int)

/-- The start and end instants, in their order. -/
def moment (n : Int) : Int := if n % 2 = 0 then start (n / 2) else stop (n / 2 + shift)

/-- A start or an end instant of some year. -/
def IsMoment (u : Int) : Prop := ∃ year, u = start year ∨ u = stop year

/-- The latest of all start and end instants up to here is a start. -/
def LatestIsStart (t : Int) : Prop :=
  ∃ year, start year ≤ t ∧ ∀ u, IsMoment start stop u → u ≤ t → u ≤ start year

/-- The instants strictly between one of them and another instant, which may be one itself. -/
def between (own t : Int) : Set Int :=
  {u | IsMoment start stop u ∧ (own < u ∧ u ≤ t ∨ t < u ∧ u < own)}

variable {start stop shift}

theorem moment_even (year : Int) : moment start stop shift (2 * year) = start year := by
  rw [moment, if_pos (by omega), Int.mul_ediv_cancel_left year two_ne_zero]

theorem moment_odd (year : Int) :
    moment start stop shift (2 * (year - shift) + 1) = stop year := by
  rw [moment, if_neg (by omega)]
  exact congrArg stop (by omega)

theorem isMoment_iff (u : Int) :
    IsMoment start stop u ↔ ∃ n, moment start stop shift n = u := by
  constructor
  · rintro ⟨year, rfl | rfl⟩
    · exact ⟨_, moment_even year⟩
    · exact ⟨_, moment_odd year⟩
  rintro ⟨n, rfl⟩
  unfold moment
  split_ifs
  · exact ⟨_, .inl rfl⟩
  · exact ⟨_, .inr rfl⟩

variable (h : Alternate start stop shift)
include h

theorem moment_strictMono : StrictMono (moment start stop shift) := by
  refine strictMono_int_of_lt_succ fun n => ?_
  obtain ⟨hstart, hstop⟩ := h (n / 2)
  unfold moment
  split_ifs with heven hodd hodd
  · omega
  · rwa [show (n + 1) / 2 = n / 2 by omega]
  · rwa [show (n + 1) / 2 = n / 2 + 1 by omega]
  · omega

theorem exists_period (t : Int) :
    ∃ n, ∀ m, moment start stop shift m ≤ t ↔ m ≤ n := by
  have hmono := moment_strictMono h
  have hfar : ∀ a b : Int, a ≤ b →
      moment start stop shift a + (b - a) ≤ moment start stop shift b := by
    intro a b hab
    induction b, hab using Int.leInduction with
    | base => omega
    | succ b hab ih =>
      have hnext := hmono (show b < b + 1 by omega)
      omega
  obtain ⟨base, hbase⟩ : ∃ base, moment start stop shift 0 = base := ⟨_, rfl⟩
  obtain ⟨n, hn, hlast⟩ := Int.exists_greatest_of_bdd
    (P := fun m => moment start stop shift m ≤ t)
    ⟨max 0 (t - base), fun m hm => by
      by_contra hlt
      have hup := hfar 0 m (by omega)
      omega⟩
    ⟨min 0 (t - base), by
      have hdown := hfar (min 0 (t - base)) 0 (by omega)
      omega⟩
  exact ⟨n, fun m => ⟨hlast m, fun hm => (hmono.monotone hm).trans hn⟩⟩

variable {t n : Int} (hn : ∀ m, moment start stop shift m ≤ t ↔ m ≤ n)
include hn

theorem latestIsStart_iff : LatestIsStart start stop t ↔ n % 2 = 0 := by
  have hmono := moment_strictMono h
  constructor
  · rintro ⟨year, hle, hlatest⟩
    rw [← @moment_even start stop shift year] at hle hlatest
    have hsame := hlatest _ ((isMoment_iff _).mpr ⟨n, rfl⟩) ((hn n).mpr le_rfl)
    have heq : n = 2 * year := le_antisymm (hmono.le_iff_le.mp hsame) ((hn _).mp hle)
    omega
  intro heven
  refine ⟨n / 2, ?_, fun u hu hle => ?_⟩
  all_goals rw [← @moment_even start stop shift (n / 2),
    show 2 * (n / 2) = n by omega]
  · exact (hn n).mpr le_rfl
  · obtain ⟨m, rfl⟩ := (@isMoment_iff start stop shift u).mp hu
    exact hmono.monotone ((hn m).mp hle)

theorem between_ncard (m : Int) :
    (between start stop (moment start stop shift m) t).ncard =
      if m ≤ n then (n - m).toNat else (m - n - 1).toNat := by
  have hmono := moment_strictMono h
  have himage : between start stop (moment start stop shift m) t =
      moment start stop shift '' ↑(Finset.Ioc m n ∪ Finset.Ioo n m) := by
    ext u
    have hafter : ∀ i, t < moment start stop shift i ↔ n < i := fun i =>
      lt_iff_lt_of_le_iff_le (hn i)
    simp only [between, @isMoment_iff start stop shift, Set.mem_ofPred_eq, Set.mem_image,
      Finset.coe_union, Set.mem_union, Finset.mem_coe, Finset.mem_Ioc, Finset.mem_Ioo]
    constructor
    · rintro ⟨⟨i, rfl⟩, hin⟩
      rw [hmono.lt_iff_lt, hmono.lt_iff_lt, hn, hafter] at hin
      exact ⟨i, hin, rfl⟩
    rintro ⟨i, hin, rfl⟩
    rw [hmono.lt_iff_lt, hmono.lt_iff_lt, hn, hafter]
    exact ⟨⟨i, rfl⟩, hin⟩
  rw [himage, Set.ncard_image_of_injective _ hmono.injective, Set.ncard_coe_finset]
  split_ifs with hle
  · rw [Finset.Ioo_eq_empty (by omega), Finset.union_empty, Int.card_Ioc]
  · rw [Finset.Ioc_eq_empty (by omega), Finset.empty_union, Int.card_Ioo]

end

/-- A clock time of up to so many hours, with minutes and seconds. -/
def ClockWithin (hours time : Int) : Prop := |time| ≤ hours * 3600 + 3599

/-- What `rule` accepts. -/
def Rule.Accepted (rule : Rule) : Prop :=
  ClockWithin 167 rule.time ∧
    (rule.kind = 0 ∧ 1 ≤ rule.day ∧ rule.day ≤ 365 ∨
      rule.kind = 1 ∧ 0 ≤ rule.day ∧ rule.day ≤ 365 ∨
      rule.kind = 2 ∧ (1 ≤ rule.month ∧ rule.month ≤ 12) ∧ (1 ≤ rule.week ∧ rule.week ≤ 5) ∧
        0 ≤ rule.weekday ∧ rule.weekday ≤ 6)

/-- A zone with daylight time as `parse_posix` accepts it. -/
structure Accepted (zone : Zone) : Prop where
  hasDaylight : zone.hasDaylight = true
  standard_dst : zone.standard.dst = false
  daylight_dst : zone.daylight.dst = true
  standard_offset : ClockWithin 24 zone.standard.offset
  daylight_offset : ClockWithin 25 zone.daylight.offset
  start : zone.start.Accepted
  stop : zone.stop.Accepted

/-- Of the start and the end in the calendar year of an instant, the later one that is not
after it, or else the first. -/
def ownMoment (zone : Zone) (t : Int) : Int :=
  let start := zone.startOf (ruleYear zone t)
  let stop := zone.stopOf (ruleYear zone t)
  if max start stop ≤ t then max start stop else min start stop

theorem ruleType_daylight {zone : Zone} (h : Accepted zone) (t : Int) :
    ruleType zone t = zone.daylight ↔
      if zone.startOf (ruleYear zone t) < zone.stopOf (ruleYear zone t) then
        zone.startOf (ruleYear zone t) ≤ t ∧ t < zone.stopOf (ruleYear zone t)
      else ¬ (zone.stopOf (ruleYear zone t) ≤ t ∧ t < zone.startOf (ruleYear zone t)) := by
  have hne : zone.standard ≠ zone.daylight := by
    intro hsame
    have hdst := h.standard_dst
    rw [hsame, h.daylight_dst] at hdst
    cases hdst
  unfold ruleType
  rw [if_pos h.hasDaylight]
  simp only
  split_ifs <;> simp_all

/-- **Recurring rules.**  The type of an instant is that of the latest start or end of all
years exactly if an even number of them lies between the instant and its `ownMoment`. -/
theorem ruleType_exact {zone : Zone} (h : Accepted zone) {shift : Int}
    (halternate : Alternate zone.startOf zone.stopOf shift) (t : Int) :
    (ruleType zone t = zone.daylight ↔ LatestIsStart zone.startOf zone.stopOf t) ↔
      Even (between zone.startOf zone.stopOf (ownMoment zone t) t).ncard := by
  obtain ⟨n, hn⟩ := exists_period halternate t
  have hmono := moment_strictMono halternate
  have hcount := between_ncard halternate hn
  rw [ruleType_daylight h, latestIsStart_iff halternate hn]
  unfold ownMoment
  simp only
  generalize ruleYear zone t = year
  have hafter : ∀ i, t < moment zone.startOf zone.stopOf shift i ↔ n < i := fun i =>
    lt_iff_lt_of_le_iff_le (hn i)
  rw [← @moment_even zone.startOf zone.stopOf shift year,
    ← @moment_odd zone.startOf zone.stopOf shift year, ← hmono.monotone.map_max,
    ← hmono.monotone.map_min, ← apply_ite, hcount, Nat.even_iff]
  simp only [hmono.lt_iff_lt, hn, hafter]
  split_ifs <;> omega

/-- Daylight time begins on January 1, minus a week. -/
def earlyZone : Zone :=
  { standard := {}
    daylight := { offset := 3600, dst := true }
    hasDaylight := true
    start := { kind := 1, time := -167 * 3600 }
    stop := { kind := 1, day := 180, time := 7200 } }

theorem earlyZone_accepted : Accepted earlyZone := by
  refine ⟨rfl, rfl, rfl, ?_, ?_, ⟨?_, .inr (.inl ?_)⟩, ⟨?_, .inr (.inl ?_)⟩⟩ <;>
    first | decide | (unfold ClockWithin; decide)

theorem earlyZone_alternate : Alternate earlyZone.startOf earlyZone.stopOf 0 := by
  intro year
  have hstart : ∀ y, earlyZone.startOf y = (daysFromCivil y 1 1 + 0) * 86400 + -167 * 3600 - 0 :=
    fun y => rfl
  have hstop : ∀ y, earlyZone.stopOf y = (daysFromCivil y 1 1 + 180) * 86400 + 7200 - 3600 :=
    fun y => rfl
  have hjanuary : ∀ y, daysFromCivil y 1 1 =
      365 * (y - 1) + (y - 1) / 4 - (y - 1) / 100 + (y - 1) / 400 - 719162 := by
    intro y
    rw [daysFromCivil_eq 1 rfl rfl (by decide)]
    omega
  simp only [hstart, hstop, hjanuary]
  omega

/-- On December 26, 2020 the last instant is the start of daylight time of 2021. -/
theorem earlyZone_period (m : Int) : moment earlyZone.startOf earlyZone.stopOf 0 m ≤ 1608940800 ↔ m ≤ 4042 := by
  have hmono := moment_strictMono earlyZone_alternate
  have hlow : moment earlyZone.startOf earlyZone.stopOf 0 4042 ≤ 1608940800 := by decide
  have hhigh : 1608940800 < moment earlyZone.startOf earlyZone.stopOf 0 4043 := by decide
  constructor
  · intro hle
    by_contra hlt
    exact absurd (hmono.monotone (show 4043 ≤ m by omega)) (by omega)
  · exact fun hle => (hmono.monotone hle).trans hlow

/-- One instant is between December 26, 2020 and the end of daylight time of that year. -/
theorem ruleType_exact_sample :
    (between earlyZone.startOf earlyZone.stopOf (ownMoment earlyZone 1608940800) 1608940800).ncard = 1 ∧
    ((ruleType earlyZone 1608940800 = earlyZone.daylight ↔
        LatestIsStart earlyZone.startOf earlyZone.stopOf 1608940800) ↔
      Even (between earlyZone.startOf earlyZone.stopOf (ownMoment earlyZone 1608940800) 1608940800).ncard) := by
  refine ⟨?_, ruleType_exact earlyZone_accepted earlyZone_alternate 1608940800⟩
  have hown : ownMoment earlyZone 1608940800 = moment earlyZone.startOf earlyZone.stopOf 0 4041 := by decide
  rw [hown, between_ncard earlyZone_alternate earlyZone_period]
  rfl

/-- On December 26 the daylight time of the next year has begun. -/
theorem early_start_missed :
    ¬ ∀ zone, Accepted zone → (∃ shift, Alternate zone.startOf zone.stopOf shift) → ∀ t,
      ruleType zone t = zone.daylight ↔ LatestIsStart zone.startOf zone.stopOf t := by
  intro h
  have hclaim := h earlyZone earlyZone_accepted ⟨0, earlyZone_alternate⟩ 1608940800
  rw [latestIsStart_iff earlyZone_alternate earlyZone_period] at hclaim
  exact absurd (hclaim.mpr (by decide)) (by decide)

end Dyn.Time
