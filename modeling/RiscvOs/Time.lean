import RiscvOs.Format

/-!
# Date and time

`time.c` with the constants of `time.h` and `build_time.h`. An `int` is a number that C keeps below `2 ^ 31`.
-/

namespace RiscvOs

/-- `struct DateTime`. -/
structure DateTime where
  year : Int
  month : Int
  day : Int
  hour : Int
  minute : Int
  second : Int
  weekday : Int
  deriving Repr, DecidableEq

/-- `TIMEZONE_OFFSET_SECS`. -/
def timezoneOffsetSecs : Nat := 2 * 3600

/-- `TICKS_PER_SECOND`. -/
def ticksPerSecond : Nat := 10000000

/-- `month_days`. -/
def monthDays : List Nat := [31, 28, 31, 30, 31, 30, 31, 31, 30, 31, 30, 31]

/-- `(y % 4 == 0 && (y % 100 != 0 || y % 400 == 0)) ? 366 : 365`. -/
def yearDays (y : Int) : Nat := if y.tmod 4 = 0 ∧ (y.tmod 100 ≠ 0 ∨ y.tmod 400 = 0) then 366 else 365

/-- The day that February has more in a leap year. -/
def leapDay (year : Int) (m : Nat) : Nat :=
  if m = 1 ∧ ((year.tmod 4 = 0 ∧ year.tmod 100 ≠ 0) ∨ year.tmod 400 = 0) then 1 else 0

/-- The loop of `compute_epoch` over the years, from year `y` on. -/
def addYears (days : Nat) (y : Int) : Nat → Nat
  | 0 => days
  | n + 1 => addYears ((days + yearDays y) % 2 ^ 64) (y + 1) n

/-- Its loop over the months, from month `m` on. -/
def addMonths (year : Int) (days m : Nat) : Nat → Except Halt Nat
  | 0 => .ok days
  | n + 1 =>
    match monthDays[m]? with
    | none => .error .undefined
    | some d => addMonths year ((days + d + leapDay year m) % 2 ^ 64) (m + 1) n

/-- `compute_epoch`. -/
def computeEpoch (year month day hour minute second : Int) : Except Halt Nat := do
  let days := addYears 0 1970 (year - 1970).toNat
  let days ← addMonths year days 0 (month - 1).toNat
  let days := ((days + (day - 1)) % 2 ^ 64).toNat
  .ok ((days * 86400 + hour * 3600 + minute * 60 + second) % 2 ^ 64).toNat

theorem yearDays_pos (y : Int) : 0 < yearDays y := by
  unfold yearDays
  split <;> decide

/-- The loop of `compute_datetime_from_epoch` over the years. -/
def findYear (year : Int) (days : Nat) : Except Halt (Int × Nat) :=
  if days < yearDays year then .ok (year, days)
  else if year = 2 ^ 31 - 1 then .error .undefined
  else findYear (year + 1) (days - yearDays year)
termination_by days
decreasing_by
  have := yearDays_pos year
  omega

/-- Its loop over the months. -/
def findMonth (year : Int) (month days : Nat) : Except Halt (Nat × Nat) :=
  if h : month < monthDays.length then
    let dim := monthDays[month] + leapDay year month
    if days < dim then .ok (month, days) else findMonth year (month + 1) (days - dim)
  else .error .undefined
termination_by monthDays.length - month

/-- `compute_datetime_from_epoch`. -/
def computeDatetimeFromEpoch (epoch : Nat) : Except Halt DateTime := do
  let epoch := (epoch + timezoneOffsetSecs) % 2 ^ 64
  let secs := epoch % 86400
  let (year, days) ← findYear 1970 (epoch / 86400)
  let (month, days) ← findMonth year 0 days
  .ok {
    year, month := month + 1, day := days + 1
    hour := (secs / 3600 % 24 : Nat), minute := (secs / 60 % 60 : Nat), second := (secs % 60 : Nat)
    weekday := ((epoch / 86400 + 4) % 7 : Nat) }

/-- `compute_datetime`, for the kernel built at `BUILD_YEAR` and so on. -/
def computeDatetime (ticks : Nat) : Except Halt DateTime := do
  let baseEpoch ← computeEpoch 2025 10 7 4 0 7
  computeDatetimeFromEpoch ((baseEpoch + ticks / ticksPerSecond) % 2 ^ 64)

end RiscvOs
