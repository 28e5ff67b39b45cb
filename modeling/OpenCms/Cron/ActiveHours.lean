import OpenCms.Cron.Offset
import OpenCms.Cron.Heartbeat

/-!
# The next opening of the active hours

Outside of the active hours the gate says when it opens again: as many minutes from now as there are
to the beginning of the window, today or tomorrow. So it opens at the minute the window begins with,
with the seconds of now, and it is closed at every minute before
(`OpenCms.Cron.ActiveHours.gate_opens`).
-/

namespace OpenCms.Cron.ActiveHours

/-! ### The gate -/

structure Config where
  start : JsString
  end_ : JsString
  tz : Option JsString

inductive GateResult
  | allowed
  | blocked (nextEligibleMs : ℚ)
  deriving DecidableEq

/-- `parseHHMM`. Nothing stands for what is no number. -/
def parseHHMM (hhmm : JsString) : Option ℕ :=
  match hhmm.splitOn 58 with
  | h :: m :: _ => do return (← digits h) * 60 + (← digits m)
  | _ => none

def parseWindow (config : Config) : Option ActiveHours := do
  let startMinutes ← parseHHMM config.start
  let endMinutes ← parseHHMM config.end_
  return ⟨startMinutes, endMinutes, config.tz⟩

def check (cal : Calendar) (config : Config) (nowMs : ℕ) : Option GateResult := do
  let hours ← parseWindow config
  return match nextEligibleMs cal { activeHours := some hours } nowMs with
    | none => .allowed
    | some nextEligibleMs => .blocked nextEligibleMs

/-! ### Times of a day -/

def twoDigits (n : ℕ) : JsString := [(48 + n / 10).toUInt16, (48 + n % 10).toUInt16]

def IsTime (s : JsString) : Prop :=
  ∃ h < 24, ∃ m < 60, s = twoDigits h ++ 58 :: twoDigits m

theorem digits_twoDigits : ∀ n < 60, digits (twoDigits n) = some n ∧ 58 ∉ twoDigits n := by
  decide

theorem parseHHMM_time {h m : ℕ} (hh : h < 24) (hm : m < 60) :
    parseHHMM (twoDigits h ++ 58 :: twoDigits m) = some (h * 60 + m) := by
  obtain ⟨hdigits, hcolon⟩ := digits_twoDigits h (by omega)
  obtain ⟨hdigits', hcolon'⟩ := digits_twoDigits m hm
  rw [parseHHMM, List.splitOn_append_cons_self, List.splitOn_eq_singleton hcolon,
    List.splitOn_eq_singleton hcolon', List.singleton_append]
  simp only [hdigits, hdigits']
  rfl

theorem exists_parseHHMM {s t : JsString} (hs : IsTime s) (ht : IsTime t) (hne : s ≠ t) :
    ∃ minutes minutes', parseHHMM s = some minutes ∧ parseHHMM t = some minutes' ∧
      minutes < 24 * 60 ∧ minutes' < 24 * 60 ∧ minutes ≠ minutes' := by
  obtain ⟨h, hh, m, hm, rfl⟩ := hs
  obtain ⟨h', hh', m', hm', rfl⟩ := ht
  refine ⟨_, _, parseHHMM_time hh hm, parseHHMM_time hh' hm', by omega, by omega, fun heq => ?_⟩
  obtain ⟨rfl, rfl⟩ : h = h' ∧ m = m' := by omega
  exact hne rfl

/-! ### Windows -/

/-- A minute of the day is in the window, which may go past midnight. -/
def InWindow (start stop minute : ℕ) : Prop :=
  if start ≤ stop then start ≤ minute ∧ minute < stop else start ≤ minute ∨ minute < stop

instance InWindow.instDecidable (start stop minute : ℕ) : Decidable (InWindow start stop minute) :=
  inferInstanceAs <| Decidable <|
    if start ≤ stop then start ≤ minute ∧ minute < stop else start ≤ minute ∨ minute < stop

def minutesUntilOpen (start minute : ℕ) : ℕ :=
  if start ≤ minute then start + 24 * 60 - minute else start - minute

section Window

variable {start stop minute : ℕ}

/-- **The window is open when it begins, and not before**, in minutes of the day. -/
theorem inWindow_minutesUntilOpen (hstart : start < 24 * 60) (hstop : stop < 24 * 60)
    (hminute : minute < 24 * 60) (hne : start ≠ stop) (hout : ¬InWindow start stop minute) :
    0 < minutesUntilOpen start minute ∧
      InWindow start stop ((minute + minutesUntilOpen start minute) % (24 * 60)) ∧
      ∀ j < minutesUntilOpen start minute, ¬InWindow start stop ((minute + j) % (24 * 60)) := by
  have hopen : (minute + minutesUntilOpen start minute) % (24 * 60) = start := by
    rw [minutesUntilOpen]
    split <;> omega
  refine ⟨?_, ?_, fun j hj => ?_⟩
  · rw [minutesUntilOpen]
    split <;> omega
  · rw [hopen, InWindow]
    split <;> omega
  · rw [InWindow] at hout ⊢
    rw [minutesUntilOpen] at hj
    by_cases hle : start ≤ stop
    · rw [if_pos hle] at hout ⊢
      split at hj <;> omega
    · rw [if_neg hle] at hout ⊢
      split at hj <;> omega

variable {cal : Calendar} {nowMs : ℕ}

theorem nextEligibleMs_eq (hstart : start < 24 * 60) :
    nextEligibleMs cal { activeHours := some ⟨start, stop, none⟩ } nowMs =
      if InWindow start stop (cal.currentMinutes nowMs none) then none
      else
        some ((nowMs + minutesUntilOpen start (cal.currentMinutes nowMs none) * 60000 : ℕ) : ℚ) := by
  have hlt : cal.currentMinutes nowMs none < 24 * 60 := cal.currentMinutes_lt nowMs none
  rw [nextEligibleMs]
  dsimp only
  generalize cal.currentMinutes nowMs none = minute at hlt ⊢
  have hwindow : (if start ≤ stop then decide (start ≤ minute) && decide (minute < stop)
      else decide (start ≤ minute) || decide (minute < stop)) = decide (InWindow start stop minute) := by
    by_cases hle : start ≤ stop
    · simp [InWindow, hle]
    · simp [InWindow, hle]
  have hwait : (if (start : ℤ) - minute ≤ 0 then (start : ℤ) - minute + 24 * 60
      else (start : ℤ) - minute) = minutesUntilOpen start minute := by
    rw [minutesUntilOpen]
    split <;> split <;> omega
  rw [hwindow, hwait]
  by_cases hin : InWindow start stop minute
  · simp [hin]
  · simp only [hin, decide_false, Bool.false_eq_true, if_false]
    push_cast
    ring_nf

end Window

/-! ### The gate opens -/

section Opens

variable (parse : JsString → Option ℤ) (host : ℤ) (zone : JsString → Option ℤ)

theorem currentMinutes_add (nowMs j : ℕ) :
    (Calendar.fixed parse host zone).currentMinutes (nowMs + j * 60000) none =
      ((Calendar.fixed parse host zone).currentMinutes nowMs none + j) % (24 * 60) := by
  simp only [Calendar.fixed, Option.filter_none, Option.bind_none, Option.getD_none, msPerMinute]
  omega

/-- **Outside of the active hours the gate opens again when it says**, which is later than now, and
at no full number of minutes from now before. -/
theorem gate_opens (config : Config) (nowMs : ℕ) (next : ℚ) (htz : config.tz = none)
    (hstart : IsTime config.start) (hend : IsTime config.end_) (hne : config.start ≠ config.end_)
    (h : check (Calendar.fixed parse host zone) config nowMs = some (.blocked next)) :
    ∃ opens : ℕ, next = opens ∧ nowMs < opens ∧
      check (Calendar.fixed parse host zone) config opens = some .allowed ∧
        ∀ j : ℕ, nowMs + j * 60000 < opens →
          check (Calendar.fixed parse host zone) config (nowMs + j * 60000) ≠ some .allowed := by
  obtain ⟨start, stop, hs, ht, hslt, htlt, hminutes⟩ := exists_parseHHMM hstart hend hne
  have hwindow : parseWindow config = some ⟨start, stop, none⟩ := by
    rw [parseWindow, hs, ht, htz]
    rfl
  -- at any time, the gate asks whether the minute of the day is in the window
  have hcheck : ∀ t, check (Calendar.fixed parse host zone) config t =
      if InWindow start stop ((Calendar.fixed parse host zone).currentMinutes t none) then
        some .allowed
      else some (.blocked ((t + minutesUntilOpen start
        ((Calendar.fixed parse host zone).currentMinutes t none) * 60000 : ℕ) : ℚ)) := by
    intro t
    rw [check, hwindow]
    simp only [Option.bind_eq_bind, Option.bind_some, nextEligibleMs_eq hslt]
    by_cases hin : InWindow start stop ((Calendar.fixed parse host zone).currentMinutes t none)
    · rw [if_pos hin, if_pos hin]
      rfl
    · rw [if_neg hin, if_neg hin]
      rfl
  rw [hcheck] at h
  split at h
  next => cases h
  next hout =>
    obtain rfl := GateResult.blocked.inj (Option.some.inj h)
    obtain ⟨hpos, hopen, hclosed⟩ := inWindow_minutesUntilOpen hslt htlt
      ((Calendar.fixed parse host zone).currentMinutes_lt nowMs none) hminutes hout
    refine ⟨_, rfl, by omega, ?_, fun j hj => ?_⟩
    · rw [hcheck, currentMinutes_add, if_pos hopen]
    · rw [hcheck, currentMinutes_add, if_neg (hclosed j (by omega))]
      rintro ⟨⟩

end Opens

/-- A window over midnight, in UTC: at noon the gate is closed until ten in the evening. -/
theorem gate_opens_evening :
    check (Calendar.fixed (fun _ => none) 0 fun _ => none) ⟨js "22:00", js "06:00", none⟩ 43200000 =
        some (.blocked 79200000) ∧
      ∃ opens : ℕ, (79200000 : ℚ) = opens ∧ 43200000 < opens ∧
        check (Calendar.fixed (fun _ => none) 0 fun _ => none) ⟨js "22:00", js "06:00", none⟩
            opens = some .allowed ∧
          ∀ j : ℕ, 43200000 + j * 60000 < opens →
            check (Calendar.fixed (fun _ => none) 0 fun _ => none) ⟨js "22:00", js "06:00", none⟩
              (43200000 + j * 60000) ≠ some .allowed := by
  have hclosed : check (Calendar.fixed (fun _ => none) 0 fun _ => none)
      ⟨js "22:00", js "06:00", none⟩ 43200000 = some (.blocked 79200000) := by decide +kernel
  refine ⟨hclosed, gate_opens (fun _ => none) 0 (fun _ => none) _ 43200000 79200000 rfl ?_ ?_ ?_
    hclosed⟩
  · exact ⟨22, by decide, 0, by decide, by decide⟩
  · exact ⟨6, by decide, 0, by decide, by decide⟩
  · decide

end OpenCms.Cron.ActiveHours
