import OpenCms.Util.Wildcard
import Mathlib.Data.List.DropRight
import Mathlib.Data.Rat.Floor
import Mathlib.Tactic.Linarith

/-!
# When a job fires next

A job fires once at a time, every so many milliseconds, or by an expression of five fields
for the minute, the hour, the day, the month and the day of the week.
`OpenCms.Cron.computeNextRunAtMs` gives the next time after now, if there is one, and
nothing earlier (`OpenCms.Cron.lt_of_computeNextRunAtMs`).

What a date is, is not decided here: `OpenCms.Cron.Calendar` has what the code asks of
dates and time zones. Numbers are the finite ones of the scripting side.
-/

namespace OpenCms.Cron

/-! ### Strings and numbers -/

/-- `\s`. -/
def isSpace (c : UInt16) : Bool :=
  (0x9 ≤ c && c ≤ 0xD) || c = 0x20 || c = 0xA0 || c = 0x1680 || (0x2000 ≤ c && c ≤ 0x200A) ||
    c = 0x2028 || c = 0x2029 || c = 0x202F || c = 0x205F || c = 0x3000 || c = 0xFEFF

def trim (s : JsString) : JsString := (s.dropWhile isSpace).rdropWhile isSpace

/-- A string cut where there is white space, of which there may be more than one in a row. -/
def splitSpaces (s : JsString) : List JsString :=
  match s.splitOnP isSpace with
  | [] => []
  | first :: rest =>
    -- the empty pieces inside stand between two blanks
    first :: (rest.dropLast.filter (· ≠ []) ++ rest.getLast?.toList)

/-- `\d`. -/
def isDigit (c : UInt16) : Bool := 48 ≤ c && c ≤ 57

def number (s : JsString) : ℕ := s.foldl (fun n c => 10 * n + (c.toNat - 48)) 0

/-- `\d+`, up to the end. -/
def digits (s : JsString) : Option ℕ := if s ≠ [] ∧ s.all isDigit then some (number s) else none

def hexDigit (c : UInt16) : Option ℕ :=
  if isDigit c then some (c.toNat - 48)
  else if 97 ≤ c ∧ c ≤ 102 then some (c.toNat - 87)
  else if 65 ≤ c ∧ c ≤ 70 then some (c.toNat - 55)
  else none

def parseUnsigned : JsString → Option ℕ
  | 48 :: x :: s =>
    if x = 120 ∨ x = 88 then
      let ds := (s.takeWhile fun c => (hexDigit c).isSome).filterMap hexDigit
      if ds = [] then none else some (ds.foldl (fun n d => 16 * n + d) 0)
    else some (number ((48 :: x :: s).takeWhile isDigit))
  | s => if s.takeWhile isDigit = [] then none else some (number (s.takeWhile isDigit))

/-- `parseInt`; nothing stands for `NaN`. -/
def parseInt (s : JsString) : Option ℤ :=
  match s.dropWhile isSpace with
  | 45 :: rest => (parseUnsigned rest).map fun n => -n
  | 43 :: rest => (parseUnsigned rest).map fun n => n
  | rest => (parseUnsigned rest).map fun n => n

/-! ### Schedules -/

/-- What the code asks of dates and time zones. -/
structure Calendar where
  /-- `new Date(at).getTime()`; nothing stands for `NaN`. -/
  parse : JsString → Option ℤ
  /-- `dateInTimezone`; an unknown time zone throws. -/
  dateInTimezone : ℕ → JsString → Option ℤ
  /-- `setSeconds(0, 0)`. -/
  fullMinute : ℤ → ℤ
  /-- `setMinutes(getMinutes() + 1)`. -/
  nextMinute : ℤ → ℤ
  getMonth : ℤ → ℕ
  getDate : ℤ → ℕ
  getDay : ℤ → ℕ
  getHours : ℤ → ℕ
  getMinutes : ℤ → ℕ
  /-- The minute of the day, in a time zone or the local one. -/
  currentMinutes : ℕ → Option JsString → ℕ
  /-- A day has 24 hours. -/
  currentMinutes_lt : ∀ nowMs tz, currentMinutes nowMs tz < 24 * 60

inductive CronSchedule
  | at (at_ : JsString)
  | every (everyMs : ℚ) (anchorMs : Option ℚ)
  | cron (expr : JsString) (tz : Option JsString) (staggerMs : Option ℚ)
  deriving DecidableEq

/-- `N-M`. -/
def rangePart (part : JsString) : Option (ℕ × ℕ) :=
  match part.splitOn 45 with
  | [start, stop] => do return (← digits start, ← digits stop)
  | _ => none

/-- `*/N` or `N-M/S`. -/
def stepPart (min max : ℕ) (part : JsString) : Option (ℕ × ℕ × ℕ) :=
  match part.splitOn 47 with
  | [range, step] => do
    let step ← digits step
    let (rangeStart, rangeEnd) ← if range = js "*" then some (min, max) else rangePart range
    return (rangeStart, rangeEnd, step)
  | _ => none

def matchPart (value min max : ℕ) (part : JsString) : Bool :=
  match stepPart min max part with
  | some (rangeStart, rangeEnd, step) =>
    rangeStart ≤ value && value ≤ rangeEnd && step ≠ 0 && (value - rangeStart) % step = 0
  | none =>
    match rangePart part with
    | some (start, stop) => start ≤ value && value ≤ stop
    | none => parseInt part = some (value : ℤ)

def matchField (expr : JsString) (value min max : ℕ) : Bool :=
  expr = js "*" || (expr.splitOn 44).any (matchPart value min max)

def computeEvery (everyMs : ℚ) (nowMs : ℕ) (anchorMs : Option ℚ) : Option ℚ :=
  if everyMs ≤ 0 then none
  else
    let anchor := anchorMs.getD nowMs
    if (nowMs : ℚ) < anchor then some anchor
    else
      let elapsed := nowMs - anchor
      let periods : ℤ := ⌊elapsed / everyMs⌋
      some (anchor + (periods + 1) * everyMs)

def cronFields (expr : JsString) :
    Option (JsString × JsString × JsString × JsString × JsString) :=
  match splitSpaces (trim expr) with
  | [minuteExpr, hourExpr, domExpr, monthExpr, dowExpr] =>
    some (minuteExpr, hourExpr, domExpr, monthExpr, dowExpr)
  | [_, minuteExpr, hourExpr, domExpr, monthExpr, dowExpr] =>
    some (minuteExpr, hourExpr, domExpr, monthExpr, dowExpr)
  | _ => none

section Calendar

variable (cal : Calendar)

def computeAt (at_ : JsString) (nowMs : ℕ) : Option ℚ :=
  match cal.parse at_ with
  | none => none
  | some ts => if (nowMs : ℤ) < ts then some ts else none

/-- The search forward of `computeCron`, for so many minutes. -/
def searchMinutes (matchDate : ℤ → Bool) : ℕ → ℤ → Option ℤ
  | 0, _ => none
  | limit + 1, candidate =>
    if matchDate candidate then some candidate
    else searchMinutes matchDate limit (cal.nextMinute candidate)

def zonedNow (nowMs : ℕ) (tz : Option JsString) : Option ℤ :=
  match tz.filter (· ≠ []) with
  | some tz => cal.dateInTimezone nowMs tz
  | none => some nowMs

def computeCron (expr : JsString) (nowMs : ℕ) (tz : Option JsString) (staggerMs : Option ℚ) :
    Option ℚ := do
  let (minuteExpr, hourExpr, domExpr, monthExpr, dowExpr) ← cronFields expr
  let now ← zonedNow cal nowMs tz
  let matchDate (candidate : ℤ) : Bool :=
    matchField monthExpr (cal.getMonth candidate + 1) 1 12 &&
    matchField domExpr (cal.getDate candidate) 1 31 &&
    matchField dowExpr (cal.getDay candidate) 0 6 &&
    matchField hourExpr (cal.getHours candidate) 0 23 &&
    matchField minuteExpr (cal.getMinutes candidate) 0 59
  let candidate ← searchMinutes cal matchDate (366 * 24 * 60) (cal.nextMinute (cal.fullMinute now))
  let result : ℚ := candidate + ((staggerMs.filter (0 < ·)).getD 0)
  if (nowMs : ℚ) < result then some result else none

def computeNextRunAtMs (schedule : CronSchedule) (nowMs : ℕ) : Option ℚ :=
  match schedule with
  | .at at_ => computeAt cal at_ nowMs
  | .every everyMs anchorMs => computeEvery everyMs nowMs anchorMs
  | .cron expr tz staggerMs => computeCron cal expr nowMs tz staggerMs

end Calendar

def DEFAULT_TOP_OF_HOUR_STAGGER_MS : ℚ := 5 * 60 * 1000

/-- The hash of a job, as it goes on with one code unit: a number of 32 bits with a sign. -/
def hashUnit (hash : ℤ) (c : UInt16) : ℤ := (31 * hash + c.toNat).bmod (2 ^ 32)

def minuteField (expr : JsString) : Option JsString :=
  let fields := splitSpaces (trim expr)
  if fields.length = 6 then fields[1]? else fields[0]?

def computeStaggerMs (schedule : CronSchedule) (jobId : JsString) : ℚ :=
  match schedule with
  | .cron expr _ staggerMs =>
    if minuteField expr ≠ some (js "0") then 0
    else
      let window := staggerMs.getD DEFAULT_TOP_OF_HOUR_STAGGER_MS
      if window ≤ 0 then 0
      else
        let hash : ℚ := (jobId.foldl hashUnit 0).natAbs
        hash - window * ⌊hash / window⌋
  | _ => 0

/-! ### What is certain of the times -/

variable {cal : Calendar} {schedule : CronSchedule} {nowMs : ℕ} {f : ℚ}

theorem lt_of_computeEvery {everyMs : ℚ} {anchorMs : Option ℚ}
    (h : computeEvery everyMs nowMs anchorMs = some f) : (nowMs : ℚ) < f := by
  unfold computeEvery at h
  split at h
  · simp at h
  next hpos =>
    have hpos : 0 < everyMs := not_le.mp hpos
    dsimp only at h
    split at h
    next hanchor => exact Option.some.inj h ▸ hanchor
    · -- the next multiple of the interval is past what has gone by
      obtain rfl := Option.some.inj h
      generalize anchorMs.getD (nowMs : ℚ) = anchor
      have hfloor := Int.lt_floor_add_one ((nowMs - anchor) / everyMs)
      rw [div_lt_iff₀ hpos] at hfloor
      linarith

/-- **The next time is later than now.** -/
theorem lt_of_computeNextRunAtMs (h : computeNextRunAtMs cal schedule nowMs = some f) :
    (nowMs : ℚ) < f := by
  cases schedule with
  | «at» at_ =>
    simp only [computeNextRunAtMs, computeAt] at h
    split at h
    · simp at h
    · split at h
      next hlt =>
        obtain rfl := Option.some.inj h
        exact_mod_cast hlt
      · simp at h
  | every everyMs anchorMs => exact lt_of_computeEvery h
  | cron expr tz staggerMs =>
    obtain ⟨⟨minuteExpr, hourExpr, domExpr, monthExpr, dowExpr⟩, -, h⟩ :=
      Option.bind_eq_some_iff.mp h
    obtain ⟨now, -, h⟩ := Option.bind_eq_some_iff.mp h
    obtain ⟨candidate, -, h⟩ := Option.bind_eq_some_iff.mp h
    dsimp only at h
    split at h
    next hlt => exact Option.some.inj h ▸ hlt
    · simp at h

theorem computeStaggerMs_nonneg (schedule : CronSchedule) (jobId : JsString) :
    0 ≤ computeStaggerMs schedule jobId := by
  unfold computeStaggerMs
  cases schedule with
  | cron expr tz staggerMs =>
    dsimp only
    split
    · exact le_rfl
    · split
      · exact le_rfl
      next hwindow =>
        -- what a division leaves over
        have hwindow := not_le.mp hwindow
        generalize (((jobId.foldl hashUnit 0).natAbs : ℕ) : ℚ) = hash
        have hfloor := Int.floor_le (hash / staggerMs.getD DEFAULT_TOP_OF_HOUR_STAGGER_MS)
        rw [le_div_iff₀ hwindow] at hfloor
        linarith
  | _ => exact le_rfl

end OpenCms.Cron
