import RiscvOs.Theorems.Format
import RiscvOs.Time
import RiscvOs.Lib.Consecutive

/-!
# The clock and the calendar

`compute_epoch` counts the seconds of the Gregorian calendar since 1970, and `compute_datetime_from_epoch`
finds the date and time again, a zone's offset later.
-/

namespace RiscvOs

open Consecutive

variable {y : Int} {i j k n d r : Nat} {dt : DateTime}

/-! ## The calendar -/

/-- The leap years. -/
def Leap (y : Int) : Prop := 4 ∣ y ∧ (¬100 ∣ y ∨ 400 ∣ y)

instance : Decidable (Leap y) := inferInstanceAs (Decidable (_ ∧ _))

/-- The days of month `m`, counted from 1. -/
def daysInMonth (y m : Int) : Nat :=
  if m = 2 then if Leap y then 29 else 28
  else if m = 4 ∨ m = 6 ∨ m = 9 ∨ m = 11 then 30
  else 31

/-- The days of the years from 1 on up to year `y`. -/
def daysBefore (y : Int) : Int := 365 * (y - 1) + (y - 1) / 4 - (y - 1) / 100 + (y - 1) / 400

namespace DateTime

/-- A date of the calendar and a time of the day. -/
structure Valid (dt : DateTime) : Prop where
  month : 1 ≤ dt.month ∧ dt.month ≤ 12
  day : 1 ≤ dt.day ∧ dt.day ≤ daysInMonth dt.year dt.month
  hour : 0 ≤ dt.hour ∧ dt.hour < 24
  minute : 0 ≤ dt.minute ∧ dt.minute < 60
  second : 0 ≤ dt.second ∧ dt.second < 60

/-- The days since 1 January 1970. -/
def days (dt : DateTime) : Int :=
  daysBefore dt.year - daysBefore 1970 + start (fun m => daysInMonth dt.year (m + 1)) (dt.month - 1).toNat +
    (dt.day - 1)

/-- The seconds since then. -/
def epoch (dt : DateTime) : Int := dt.days * 86400 + dt.hour * 3600 + dt.minute * 60 + dt.second

end DateTime

/-- The days of a year. -/
def daysInYear (y : Int) : Nat := if Leap y then 366 else 365

theorem leap_iff : Leap y ↔ y % 4 = 0 ∧ (y % 100 ≠ 0 ∨ y % 400 = 0) := by
  unfold Leap
  omega

theorem daysBefore_succ (y : Int) : daysBefore (y + 1) = daysBefore y + daysInYear y := by
  unfold daysBefore daysInYear
  split <;> rename_i h <;> rw [leap_iff] at h <;> omega

theorem daysBefore_le (h : y ≤ 1970) : daysBefore y ≤ daysBefore 1970 := by
  unfold daysBefore
  omega

/-- The months of a year make up the year. -/
theorem months_sum (y : Int) : start (fun m => daysInMonth y (m + 1)) 12 = daysInYear y := by
  by_cases hl : Leap y <;> simp [start, daysInYear, daysInMonth, Finset.sum_range_succ, hl]

theorem daysInMonth_pos (y m : Int) : 0 < daysInMonth y m := by
  unfold daysInMonth
  split_ifs <;> decide

/-! ## The tables of the code -/

/-- The years from 1970 on. -/
def yearLen (i : Nat) : Nat := yearDays (1970 + i)

theorem yearDays_eq (h : 0 ≤ y) : yearDays y = daysInYear y := by
  unfold yearDays daysInYear
  rw [Int.tmod_eq_emod_of_nonneg h, Int.tmod_eq_emod_of_nonneg h, Int.tmod_eq_emod_of_nonneg h]
  exact if_congr leap_iff.symm rfl rfl

theorem start_yearLen (i : Nat) : (start yearLen i : Int) = daysBefore (1970 + i) - daysBefore 1970 := by
  induction i with
  | zero => simp
  | succ i ih =>
      have hy : (1970 : Int) + (i + 1 : Nat) = 1970 + i + 1 := by omega
      rw [start_succ, Nat.cast_add, ih, hy, daysBefore_succ, yearLen, yearDays_eq (by omega)]
      omega

theorem leapDay_eq (h : 0 ≤ y) (m : Nat) : leapDay y m = if m = 1 ∧ Leap y then 1 else 0 := by
  unfold leapDay
  rw [Int.tmod_eq_emod_of_nonneg h, Int.tmod_eq_emod_of_nonneg h, Int.tmod_eq_emod_of_nonneg h]
  refine if_congr (and_congr_right fun _ => ?_) rfl rfl
  rw [leap_iff]
  omega

/-- An entry of `month_days`, with the leap day. -/
theorem monthDays_eq (h : 0 ≤ y) {m : Nat} (hm : m < monthDays.length) :
    monthDays[m] + leapDay y m = daysInMonth y (m + 1) := by
  rw [leapDay_eq h]
  unfold daysInMonth
  have h12 : m < 12 := hm
  by_cases hl : Leap y <;> simp only [hl, and_true, and_false, if_true, if_false] <;> interval_cases m <;> rfl

/-! ## The loops -/

theorem addYears_spec (h : start yearLen (n + k) < 2 ^ 64) :
    addYears (start yearLen n) (1970 + n) k = start yearLen (n + k) := by
  induction k generalizing n with
  | zero => rfl
  | succ k ih =>
      have hn : n + (k + 1) = n + 1 + k := by omega
      have hle := start_mono yearLen (Nat.le_add_right (n + 1) k)
      rw [hn] at h ⊢
      have hs : (start yearLen n + yearDays (1970 + n)) % 2 ^ 64 = start yearLen (n + 1) := by
        rw [Nat.mod_eq_of_lt (by rw [show yearDays (1970 + n) = yearLen n from rfl, ← start_succ]; omega), start_succ]
        rfl
      rw [addYears, hs, show (1970 : Int) + n + 1 = 1970 + (n + 1 : Nat) by omega, ih h]

/-- The months of a year, counted from 0. -/
def monthLen (y : Int) (m : Nat) : Nat := daysInMonth y (m + 1)

theorem addMonths_spec (h : 0 ≤ y) (hk : n + k ≤ 12) (hd : d + start (monthLen y) (n + k) < 2 ^ 64) :
    addMonths y (d + start (monthLen y) n) n k = .ok (d + start (monthLen y) (n + k)) := by
  induction k generalizing n with
  | zero => rfl
  | succ k ih =>
      have hn : n + (k + 1) = n + 1 + k := by omega
      have hle := start_mono (monthLen y) (Nat.le_add_right (n + 1) k)
      have hlt : n < monthDays.length := by
        show n < 12
        omega
      rw [hn] at hd ⊢
      have hm := monthDays_eq h hlt
      have hs : (d + start (monthLen y) n + monthDays[n] + leapDay y n) % 2 ^ 64 = d + start (monthLen y) (n + 1) := by
        rw [start_succ, monthLen] at *
        rw [Nat.mod_eq_of_lt (by omega)]
        omega
      rw [addMonths, List.getElem?_eq_getElem hlt]
      dsimp only
      rw [hs, ih (by omega) hd]

theorem findYear_spec (h : At yearLen (start yearLen n + d) k r) (hn : n ≤ k) (hk : k < 2 ^ 31 - 1970) :
    findYear (1970 + n) d = .ok (1970 + k, r) := by
  obtain ⟨j, rfl⟩ := Nat.exists_eq_add_of_le hn
  induction j generalizing n d with
  | zero =>
      obtain rfl := h.rest
      have hlt : d < yearDays (1970 + n) := h.lt
      rw [findYear, if_pos hlt]
      rfl
  | succ j ih =>
      have hle : yearDays (1970 + n) ≤ d := h.len_le (by omega)
      rw [findYear, if_neg (Nat.not_lt_of_le hle), if_neg (by omega), show (1970 : Int) + n + 1 = 1970 + (n + 1 : Nat) by omega]
      have hn' : n + (j + 1) = n + 1 + j := by omega
      rw [hn'] at h hk ⊢
      refine ih ?_ (by omega) hk
      rw [start_succ, Nat.add_assoc]
      exact (Nat.add_sub_of_le hle).symm ▸ h

theorem findMonth_spec (hy : 0 ≤ y) (h : At (monthLen y) (start (monthLen y) n + d) k r) (hn : n ≤ k) (hk : k < 12) :
    findMonth y n d = .ok (k, r) := by
  obtain ⟨j, rfl⟩ := Nat.exists_eq_add_of_le hn
  have hlt : n < monthDays.length := by
    show n < 12
    omega
  have hm : monthDays[n] + leapDay y n = monthLen y n := monthDays_eq hy hlt
  induction j generalizing n d with
  | zero =>
      obtain rfl := h.rest
      rw [findMonth, dif_pos hlt]
      simp only [hm]
      exact if_pos h.lt
  | succ j ih =>
      have hle := h.len_le (by omega)
      have hn' : n + (j + 1) = n + 1 + j := by omega
      have hlt' : n + 1 < monthDays.length := by
        show n + 1 < 12
        omega
      rw [findMonth, dif_pos hlt]
      simp only [hm]
      rw [if_neg (Nat.not_lt_of_le hle)]
      rw [hn'] at h hk ⊢
      refine ih ?_ (by omega) hk hlt' (monthDays_eq hy hlt')
      rw [start_succ, Nat.add_assoc]
      exact (Nat.add_sub_of_le hle).symm ▸ h

/-! ## A date in numbers -/

/-- The date of day `r` of month `j` of year `i`, each counted from 0, and the time of the day. -/
structure Place where
  i : Nat
  j : Nat
  r : Nat
  hour : Nat
  minute : Nat
  second : Nat

namespace Place

variable (p : Place)

def days : Nat := start yearLen p.i + start (monthLen (1970 + p.i)) p.j + p.r

def secs : Nat := p.days * 86400 + p.hour * 3600 + p.minute * 60 + p.second

/-- The date as the code writes it. -/
def toDateTime (weekday : Int) : DateTime := ⟨1970 + p.i, p.j + 1, p.r + 1, p.hour, p.minute, p.second, weekday⟩

structure Ok : Prop where
  month : p.j < 12
  day : p.r < monthLen (1970 + p.i) p.j
  hour : p.hour < 24
  minute : p.minute < 60
  second : p.second < 60

variable {p} {w : Int}

theorem toDateTime_epoch : (p.toDateTime w).epoch = p.secs := by
  have hj : ((p.j : Int) + 1 - 1).toNat = p.j := by omega
  unfold DateTime.epoch DateTime.days toDateTime secs days
  dsimp only
  rw [hj, ← start_yearLen]
  push_cast
  unfold monthLen
  omega

theorem Ok.valid (h : p.Ok) : (p.toDateTime w).Valid := by
  obtain ⟨hm, hd, hh, hmin, hs⟩ := h
  unfold monthLen at hd
  constructor <;> dsimp only [toDateTime] <;> omega

/-- Every valid date from 1970 on has its place. -/
theorem exists_of_valid (h : dt.Valid) (hy : 1970 ≤ dt.year) :
    ∃ p : Place, p.Ok ∧ p.i = (dt.year - 1970).toNat ∧ dt = p.toDateTime dt.weekday := by
  obtain ⟨hm, hd, hh, hmin, hs⟩ := h
  refine ⟨⟨(dt.year - 1970).toNat, (dt.month - 1).toNat, (dt.day - 1).toNat, dt.hour.toNat, dt.minute.toNat,
    dt.second.toNat⟩, ⟨by dsimp only; omega, ?_, by dsimp only; omega, by dsimp only; omega, by dsimp only; omega⟩,
    rfl, ?_⟩
  · have h1 : (1970 : Int) + ((dt.year - 1970).toNat : Nat) = dt.year := by omega
    have h2 : ((dt.month - 1).toNat : Int) + 1 = dt.month := by omega
    dsimp only
    rw [monthLen, h1, h2]
    omega
  · obtain ⟨_, _, _, _, _, _, _⟩ := dt
    dsimp only at *
    simp only [toDateTime, DateTime.mk.injEq]
    exact ⟨by omega, by omega, by omega, by omega, by omega, by omega, trivial⟩

/-- Every number of seconds has its place. -/
theorem exists_of_secs (n : Nat) : ∃ p : Place, p.Ok ∧ p.secs = n := by
  obtain ⟨i, d, hi⟩ := exists_at (show ∀ i, 0 < yearLen i from fun i => yearDays_pos _) (n / 86400)
  obtain ⟨j, r, hj⟩ := exists_at (show ∀ j, 0 < monthLen (1970 + i) j from fun m => daysInMonth_pos _ _) d
  have h12 : j < 12 := by
    by_contra hge
    have hmono := start_mono (monthLen (1970 + i)) (Nat.le_of_not_lt hge)
    have hsum : start (monthLen (1970 + i)) 12 = yearLen i := by
      rw [yearLen, yearDays_eq (by omega)]
      exact months_sum _
    have := hj.eq
    have := hi.lt
    omega
  refine ⟨⟨i, j, r, n % 86400 / 3600, n % 3600 / 60, n % 60⟩, ⟨h12, hj.lt, ?_, ?_, ?_⟩, ?_⟩
  · dsimp only
    omega
  · dsimp only
    omega
  · dsimp only
    omega
  · have := hi.eq
    have := hj.eq
    simp only [secs, days]
    omega

/-- The years of an `int` fit into 64 bits. -/
theorem Ok.secs_lt (h : p.Ok) (hi : p.i < 2 ^ 31) : p.secs < 2 ^ 57 := by
  have hyears := start_yearLen p.i
  have hmonths := start_mono (monthLen (1970 + p.i)) (Nat.le_of_lt h.month)
  have hsum : start (monthLen (1970 + p.i)) 12 = daysInYear (1970 + p.i) := months_sum _
  have hyear : daysInYear (1970 + p.i) ≤ 366 := by
    unfold daysInYear
    split <;> omega
  have hday := h.day
  have hday' : monthLen (1970 + p.i) p.j ≤ 31 := by
    unfold monthLen daysInMonth
    split_ifs <;> omega
  have := h.hour
  have := h.minute
  have := h.second
  unfold daysBefore at hyears
  unfold secs days
  omega

/-- `compute_epoch` counts the seconds. -/
theorem Ok.computeEpoch (h : p.Ok) (hi : p.i < 2 ^ 31) :
    RiscvOs.computeEpoch (1970 + p.i) (p.j + 1) (p.r + 1) p.hour p.minute p.second = .ok p.secs := by
  have hlt := h.secs_lt hi
  unfold secs days at hlt
  have h1 : ((1970 : Int) + p.i - 1970).toNat = p.i := by omega
  have h2 : ((p.j : Int) + 1 - 1).toNat = p.j := by omega
  have hyears := addYears_spec (n := 0) (k := p.i) (by rw [Nat.zero_add]; omega)
  have hmonths := addMonths_spec (y := 1970 + p.i) (n := 0) (k := p.j) (d := start yearLen p.i) (by omega)
    (by have := h.month; omega) (by rw [Nat.zero_add]; omega)
  simp only [start_zero, Nat.zero_add, Nat.cast_zero, add_zero] at hyears hmonths
  rw [RiscvOs.computeEpoch, h1, h2, hyears, hmonths, Outcome.ok_bind]
  refine congrArg _ ?_
  unfold secs days
  omega

/-- `compute_datetime_from_epoch` finds the place. -/
theorem Ok.computeDatetime (h : p.Ok) (hi : p.i < 2 ^ 31 - 1970) {n : Nat} (hn : n + timezoneOffsetSecs = p.secs) :
    computeDatetimeFromEpoch n = .ok (p.toDateTime ((p.days + 4) % 7 : Nat)) := by
  have hlt := h.secs_lt (by omega)
  have hmod : (n + timezoneOffsetSecs) % 2 ^ 64 = p.secs := by
    rw [hn, Nat.mod_eq_of_lt (by omega)]
  have hh := h.hour
  have hm := h.minute
  have hs := h.second
  have hdays : p.secs / 86400 = p.days := by
    unfold secs
    omega
  have hhour : p.secs % 86400 / 3600 % 24 = p.hour := by
    unfold secs
    omega
  have hminute : p.secs % 86400 / 60 % 60 = p.minute := by
    unfold secs
    omega
  have hsecond : p.secs % 86400 % 60 = p.second := by
    unfold secs
    omega
  have hyear : At yearLen (start yearLen 0 + p.days) p.i (start (monthLen (1970 + p.i)) p.j + p.r) := by
    refine ⟨by rw [start_zero, Nat.zero_add, days, Nat.add_assoc], ?_⟩
    have hmono := start_mono (monthLen (1970 + p.i)) h.month
    have hsum : start (monthLen (1970 + p.i)) 12 = yearLen p.i := by
      rw [yearLen, yearDays_eq (by omega)]
      exact months_sum _
    have := h.day
    rw [Nat.succ_eq_add_one, start_succ] at hmono
    omega
  have hmonth : At (monthLen (1970 + p.i)) (start (monthLen (1970 + p.i)) 0 + (start (monthLen (1970 + p.i)) p.j + p.r))
      p.j p.r := ⟨by rw [start_zero, Nat.zero_add], h.day⟩
  have h1 := findYear_spec hyear (Nat.zero_le _) hi
  have h2 := findMonth_spec (by omega) hmonth (Nat.zero_le _) h.month
  simp only [Nat.cast_zero, add_zero] at h1
  simp only [computeDatetimeFromEpoch, hmod, hdays, hhour, hminute, hsecond, h1, h2, Outcome.ok_bind, toDateTime]

end Place

/-- Before 1970 the seconds are negative. -/
theorem DateTime.Valid.year_ge (h : dt.Valid) (h0 : 0 ≤ dt.epoch) : 1970 ≤ dt.year := by
  by_contra hlt
  have hle := daysBefore_le (y := dt.year + 1) (by omega)
  rw [daysBefore_succ] at hle
  have hmonth := h.month
  have hmono := start_mono (monthLen dt.year) (show (dt.month - 1).toNat + 1 ≤ 12 by omega)
  have hcast : ((dt.month - 1).toNat : Int) + 1 = dt.month := by omega
  have hsum : start (monthLen dt.year) 12 = daysInYear dt.year := months_sum _
  rw [hsum, start_succ, monthLen, hcast] at hmono
  have hdays : dt.days < 0 := by
    have hday := h.day
    have hfold : start (fun m => daysInMonth dt.year (m + 1)) (dt.month - 1).toNat =
      start (monthLen dt.year) (dt.month - 1).toNat := rfl
    rw [DateTime.days, hfold]
    omega
  have := h.hour
  have := h.minute
  have := h.second
  unfold DateTime.epoch at h0
  omega

/-- For every count of ticks the clock shows a date and time whose seconds are those since 1970 and the offset of
the zone; and every date and time that lies so late is shown for its seconds. -/
theorem datetime_inverse :
    (∀ ticks < 2 ^ 64, ∃ base dt, computeEpoch 2025 10 7 4 0 7 = .ok base ∧ computeDatetime ticks = .ok dt ∧
      dt.Valid ∧
      computeEpoch dt.year dt.month dt.day dt.hour dt.minute dt.second =
        .ok (base + ticks / ticksPerSecond + timezoneOffsetSecs)) ∧
    ∀ dt : DateTime, dt.Valid → dt.year < 2 ^ 31 → timezoneOffsetSecs ≤ dt.epoch →
      computeEpoch dt.year dt.month dt.day dt.hour dt.minute dt.second = .ok dt.epoch.toNat ∧
      ∃ weekday, computeDatetimeFromEpoch (dt.epoch.toNat - timezoneOffsetSecs) = .ok { dt with weekday } := by
  refine ⟨fun ticks ht => ?_, fun dt hv hy he => ?_⟩
  · have hbase : computeEpoch 2025 10 7 4 0 7 = .ok 1759809607 := by decide +kernel
    obtain ⟨p, hp, hsecs⟩ := Place.exists_of_secs (1759809607 + ticks / ticksPerSecond + timezoneOffsetSecs)
    have hi : p.i < 2 ^ 31 - 1970 := by
      have hyears : 365 * p.i ≤ start yearLen p.i := mul_le_start p.i fun i => by
        unfold yearLen yearDays
        split <;> decide
      unfold Place.secs Place.days at hsecs
      unfold ticksPerSecond timezoneOffsetSecs at hsecs
      omega
    refine ⟨_, _, hbase, ?_, hp.valid (w := ((p.days + 4) % 7 : Nat)), ?_⟩
    · rw [computeDatetime, hbase, Outcome.ok_bind, Nat.mod_eq_of_lt (by unfold ticksPerSecond; omega)]
      exact hp.computeDatetime hi hsecs.symm
    · rw [← hsecs]
      exact hp.computeEpoch (by omega)
  · obtain ⟨p, hp, hi, hdt⟩ := Place.exists_of_valid hv (hv.year_ge (by omega))
    have hsecs : dt.epoch.toNat = p.secs := by
      rw [hdt, Place.toDateTime_epoch]
      rfl
    have hlt : p.i < 2 ^ 31 - 1970 := by omega
    refine ⟨?_, ((p.days + 4) % 7 : Nat), ?_⟩
    · rw [hsecs, hdt]
      exact hp.computeEpoch (by omega)
    · rw [hp.computeDatetime hlt (by omega), hdt]
      rfl

/-- The last second of a 29 February. -/
theorem datetime_inverse_leapDay : ∃ weekday,
    computeDatetimeFromEpoch ((⟨2000, 2, 29, 23, 59, 59, 2⟩ : DateTime).epoch.toNat - timezoneOffsetSecs) =
      .ok ⟨2000, 2, 29, 23, 59, 59, weekday⟩ :=
  (datetime_inverse.2 ⟨2000, 2, 29, 23, 59, 59, 2⟩
    ⟨by decide, by decide, by decide, by decide, by decide⟩ (by decide) (by decide)).2

end RiscvOs
