import OpenCms.Cron.Fields
import OpenCms.Cron.Offset

/-!
# The next time of a cron expression

From the minute after now on, `computeCron` tries one minute after the other, for 366 days. On a
clock at a fixed offset what it finds is the first minute after now that the fields match. So it is
the next time of the expression if that comes within these days; for the 29th of February, or for a
Friday the 13th, it may not (`OpenCms.Cron.next_iff`).

With a time zone the search begins with a date that reads as now does there, and what is found is
not taken back: it is a time at which the clock of the host reads as that of the zone should
(`OpenCms.Cron.zoned_next_iff`).
-/

namespace OpenCms.Cron

/-! ### The next time -/

def IsBoundary (offset t : ℤ) : Prop := msPerMinute ∣ t + offset

/-- **The next time**: the least full minute later than now at which something holds. -/
structure IsNext (offset : ℤ) (P : ℤ → Prop) (nowMs t : ℤ) : Prop where
  boundary : IsBoundary offset t
  later : nowMs < t
  holds : P t
  least : ∀ u, IsBoundary offset u → nowMs < u → P u → t ≤ u

def firstBoundary (offset nowMs : ℤ) : ℤ :=
  (nowMs + offset) / msPerMinute * msPerMinute - offset + msPerMinute

def searchMs : ℤ := 366 * msPerDay

section Boundary

variable {offset nowMs t u : ℤ} {P : ℤ → Prop}

theorem boundary_iff :
    IsBoundary offset t ∧ nowMs < t ↔ ∃ k : ℕ, t = firstBoundary offset nowMs + k * msPerMinute := by
  simp only [IsBoundary, firstBoundary, msPerMinute]
  constructor
  · rintro ⟨⟨q, hq⟩, hlater⟩
    refine ⟨(q - (nowMs + offset) / 60000 - 1).toNat, ?_⟩
    omega
  · rintro ⟨k, rfl⟩
    refine ⟨⟨(nowMs + offset) / 60000 + 1 + k, ?_⟩, ?_⟩
    · omega
    · omega

theorem exists_isNext (hboundary : IsBoundary offset t) (hlater : nowMs < t) (holds : P t) :
    ∃ u, IsNext offset P nowMs u := by
  classical
  obtain ⟨k, rfl⟩ := boundary_iff.mp ⟨hboundary, hlater⟩
  have hex : ∃ k : ℕ, P (firstBoundary offset nowMs + k * msPerMinute) := ⟨k, holds⟩
  obtain ⟨m, hm, hleast⟩ : ∃ m : ℕ, P (firstBoundary offset nowMs + m * msPerMinute) ∧
      ∀ j : ℕ, P (firstBoundary offset nowMs + j * msPerMinute) → m ≤ j :=
    ⟨Nat.find hex, Nat.find_spec hex, fun _ hj => Nat.find_min' hex hj⟩
  obtain ⟨hfound, hafter⟩ := boundary_iff.mpr ⟨m, rfl⟩
  refine ⟨_, hfound, hafter, hm, fun u hu hlt hPu => ?_⟩
  obtain ⟨j, rfl⟩ := boundary_iff.mp ⟨hu, hlt⟩
  have hle : m ≤ j := hleast j hPu
  simp only [msPerMinute]
  omega

theorem IsNext.unique (h : IsNext offset P nowMs t) (h' : IsNext offset P nowMs u) : t = u :=
  le_antisymm (h.least u h'.boundary h'.later h'.holds) (h'.least t h.boundary h.later h.holds)

end Boundary

/-! ### The search -/

section Search

variable {parse : JsString → Option ℤ} {host : ℤ} {zone : JsString → Option ℤ}
  {matchDate : ℤ → Bool} {limit : ℕ} {candidate r : ℤ}

theorem minute_shift (k : ℕ) : candidate + msPerMinute + k * msPerMinute =
    candidate + ((k + 1 : ℕ) : ℤ) * msPerMinute := by
  push_cast
  ring

theorem searchMinutes_eq_none :
    searchMinutes (Calendar.fixed parse host zone) matchDate limit candidate = none ↔
      ∀ k < limit, matchDate (candidate + k * msPerMinute) = false := by
  induction limit generalizing candidate with
  | zero => simp [searchMinutes]
  | succ limit ih =>
    rw [searchMinutes, Nat.forall_lt_succ_left]
    by_cases hhere : matchDate candidate = true
    · simp [hhere]
    · rw [if_neg hhere]
      change searchMinutes _ matchDate limit (candidate + msPerMinute) = none ↔ _
      rw [ih]
      simp only [minute_shift]
      simp [hhere]

/-- **What is found is the first that matches.** -/
theorem searchMinutes_eq_some :
    searchMinutes (Calendar.fixed parse host zone) matchDate limit candidate = some r ↔
      ∃ k < limit, r = candidate + k * msPerMinute ∧ matchDate r = true ∧
        ∀ j < k, matchDate (candidate + j * msPerMinute) = false := by
  induction limit generalizing candidate with
  | zero => simp [searchMinutes]
  | succ limit ih =>
    rw [searchMinutes]
    by_cases hhere : matchDate candidate = true
    · rw [if_pos hhere]
      constructor
      · rintro ⟨⟩
        exact ⟨0, Nat.succ_pos limit, by simp, hhere, fun j hj => absurd hj (Nat.not_lt_zero j)⟩
      · rintro ⟨k, -, rfl, -, hfirst⟩
        cases k with
        | zero => simp
        | succ k =>
          have hzero := hfirst 0 (Nat.succ_pos k)
          simp [hhere] at hzero
    · rw [if_neg hhere]
      change searchMinutes _ matchDate limit (candidate + msPerMinute) = some r ↔ _
      rw [ih]
      simp only [minute_shift]
      constructor
      · rintro ⟨k, hk, rfl, hmatch, hfirst⟩
        refine ⟨k + 1, Nat.succ_lt_succ hk, rfl, hmatch, fun j hj => ?_⟩
        cases j with
        | zero => simpa using hhere
        | succ j => exact hfirst j (Nat.lt_of_succ_lt_succ hj)
      · rintro ⟨k, hk, rfl, hmatch, hfirst⟩
        cases k with
        | zero => exact absurd (by simpa using hmatch) hhere
        | succ k =>
          exact ⟨k, Nat.lt_of_succ_lt_succ hk, rfl, hmatch,
            fun j hj => hfirst (j + 1) (Nat.succ_lt_succ hj)⟩

/-- **The search finds the next time, if that comes within the days that are searched.** What is
looked at may be shifted. -/
theorem searchMinutes_eq_some_iff_isNext {offset nowMs shift : ℤ} {P : ℤ → Prop}
    (hmatch : ∀ t, matchDate (t + shift) = true ↔ P t) :
    searchMinutes (Calendar.fixed parse host zone) matchDate (366 * 24 * 60)
        (firstBoundary offset nowMs + shift) = some r ↔
      IsNext offset P nowMs (r - shift) ∧ r - shift ≤ nowMs + searchMs := by
  have hlimit : ∀ k : ℕ, k < 366 * 24 * 60 ↔
      firstBoundary offset nowMs + k * msPerMinute ≤ nowMs + searchMs := by
    intro k
    simp only [firstBoundary, searchMs, msPerMinute, msPerDay]
    omega
  have hcandidate : ∀ k : ℕ, firstBoundary offset nowMs + shift + k * msPerMinute =
      firstBoundary offset nowMs + k * msPerMinute + shift := fun k => by ring
  rw [searchMinutes_eq_some]
  constructor
  · rintro ⟨k, hk, rfl, hhere, hfirst⟩
    rw [hcandidate] at hhere ⊢
    rw [add_sub_cancel_right]
    obtain ⟨hboundary, hlater⟩ := boundary_iff.mpr ⟨k, rfl⟩
    refine ⟨⟨hboundary, hlater, (hmatch _).mp hhere, fun u hu hlt hPu => ?_⟩, (hlimit k).mp hk⟩
    obtain ⟨j, rfl⟩ := boundary_iff.mp ⟨hu, hlt⟩
    have hle : k ≤ j := by
      by_contra hlt
      have hnone := hfirst j (Nat.lt_of_not_le hlt)
      rw [hcandidate, (hmatch _).mpr hPu] at hnone
      cases hnone
    simp only [msPerMinute]
    omega
  · rintro ⟨hnext, hle⟩
    obtain ⟨k, hk⟩ := boundary_iff.mp ⟨hnext.boundary, hnext.later⟩
    have hr : r = firstBoundary offset nowMs + k * msPerMinute + shift := by omega
    rw [hk] at hle
    refine ⟨k, (hlimit k).mpr hle, by rw [hr, hcandidate], ?_, fun j hj => ?_⟩
    · rw [hr, hmatch, ← hk]
      exact hnext.holds
    · rw [hcandidate, Bool.eq_false_iff, ne_eq, hmatch]
      intro hPj
      obtain ⟨hboundary, hlater⟩ := boundary_iff.mpr ⟨j, rfl⟩
      have hleast := hnext.least _ hboundary hlater hPj
      rw [hk] at hleast
      simp only [msPerMinute] at hleast
      omega

end Search

/-! ### Expressions -/

structure FiveFields where
  minute : List Item
  hour : List Item
  dom : List Item
  month : List Item
  dow : List Item

def readExpr (expr : JsString) : Option FiveFields :=
  match splitSpaces (trim expr) with
  | [minuteExpr, hourExpr, domExpr, monthExpr, dowExpr] => do
    return ⟨← readField minuteExpr, ← readField hourExpr, ← readField domExpr,
      ← readField monthExpr, ← readField dowExpr⟩
  | _ => none

/-- **The fields hold** at a time, on a clock. -/
def FiveFields.Hold (fields : FiveFields) (cal : Calendar) (t : ℤ) : Prop :=
  FieldHolds 1 12 (cal.getMonth t + 1) fields.month ∧ FieldHolds 1 31 (cal.getDate t) fields.dom ∧
    FieldHolds 0 6 (cal.getDay t) fields.dow ∧ FieldHolds 0 23 (cal.getHours t) fields.hour ∧
      FieldHolds 0 59 (cal.getMinutes t) fields.minute

/-- The fields hold, and not because of a star in a longer list. -/
def FiveFields.Count (fields : FiveFields) (cal : Calendar) (t : ℤ) : Prop :=
  FieldCounts 1 12 (cal.getMonth t + 1) fields.month ∧ FieldCounts 1 31 (cal.getDate t) fields.dom ∧
    FieldCounts 0 6 (cal.getDay t) fields.dow ∧ FieldCounts 0 23 (cal.getHours t) fields.hour ∧
      FieldCounts 0 59 (cal.getMinutes t) fields.minute

def matchesDate (cal : Calendar) (expr : JsString) (t : ℤ) : Bool :=
  match cronFields expr with
  | some (minuteExpr, hourExpr, domExpr, monthExpr, dowExpr) =>
    matchField monthExpr (cal.getMonth t + 1) 1 12 &&
    matchField domExpr (cal.getDate t) 1 31 &&
    matchField dowExpr (cal.getDay t) 0 6 &&
    matchField hourExpr (cal.getHours t) 0 23 &&
    matchField minuteExpr (cal.getMinutes t) 0 59
  | none => false

section Expr

variable {cal : Calendar} {expr : JsString} {fields : FiveFields} {nowMs : ℕ} {tz : Option JsString}
  {staggerMs : Option ℚ} {now t : ℤ}

theorem FiveFields.Count.hold (h : fields.Count cal t) : fields.Hold cal t :=
  ⟨h.1.holds, h.2.1.holds, h.2.2.1.holds, h.2.2.2.1.holds, h.2.2.2.2.holds⟩

theorem matchesDate_iff (h : readExpr expr = some fields) :
    matchesDate cal expr t = true ↔ fields.Count cal t := by
  rw [readExpr] at h
  split at h
  next minuteExpr hourExpr domExpr monthExpr dowExpr hsplit =>
    obtain ⟨minute, hminute, h⟩ := Option.bind_eq_some_iff.mp h
    obtain ⟨hour, hhour, h⟩ := Option.bind_eq_some_iff.mp h
    obtain ⟨dom, hdom, h⟩ := Option.bind_eq_some_iff.mp h
    obtain ⟨month, hmonth, h⟩ := Option.bind_eq_some_iff.mp h
    obtain ⟨dow, hdow, h⟩ := Option.bind_eq_some_iff.mp h
    obtain rfl := Option.some.inj h
    have hfields : cronFields expr = some (minuteExpr, hourExpr, domExpr, monthExpr, dowExpr) := by
      rw [cronFields, hsplit]
    rw [matchesDate, hfields]
    simp only [Bool.and_eq_true, matchField_iff hminute, matchField_iff hhour,
      matchField_iff hdom, matchField_iff hmonth, matchField_iff hdow, FiveFields.Count, and_assoc]
  next => cases h

theorem computeCron_eq (hfields : cronFields expr ≠ none) (hnow : zonedNow cal nowMs tz = some now)
    (hstagger : ∀ s ∈ staggerMs, s ≤ 0) :
    computeCron cal expr nowMs tz staggerMs =
      (searchMinutes cal (matchesDate cal expr) (366 * 24 * 60)
          (cal.nextMinute (cal.fullMinute now))).bind fun candidate =>
        if (nowMs : ℤ) < candidate then some (candidate : ℚ) else none := by
  obtain ⟨⟨minuteExpr, hourExpr, domExpr, monthExpr, dowExpr⟩, hfields⟩ :=
    Option.ne_none_iff_exists'.mp hfields
  have hnone : staggerMs.filter (0 < ·) = none := by
    rw [Option.filter_eq_none_iff]
    intro s hs
    simpa using hstagger s hs
  have hmatch : matchesDate cal expr = fun candidate =>
      matchField monthExpr (cal.getMonth candidate + 1) 1 12 &&
      matchField domExpr (cal.getDate candidate) 1 31 &&
      matchField dowExpr (cal.getDay candidate) 0 6 &&
      matchField hourExpr (cal.getHours candidate) 0 23 &&
      matchField minuteExpr (cal.getMinutes candidate) 0 59 := by
    funext candidate
    rw [matchesDate, hfields]
  rw [computeCron, hfields, hmatch]
  simp only [Option.bind_eq_bind, Option.bind_some, hnow, hnone, Option.getD_none, add_zero]
  congr 1
  funext candidate
  have hlt : ((nowMs : ℚ) < (candidate : ℚ)) ↔ (nowMs : ℤ) < candidate := by
    rw [← Int.cast_natCast, Int.cast_lt]
  simp only [hlt]

end Expr

/-! ### Without a time zone -/

section Local

variable {parse : JsString → Option ℤ} {host : ℤ} {zone : JsString → Option ℤ}

/-- **The least minute, and nothing only if there is none**: what is computed is the next time at
which the fields hold, and if nothing is, no later minute satisfies them. -/
def NextIsLeast (parse : JsString → Option ℤ) (host : ℤ) (zone : JsString → Option ℤ)
    (fields : FiveFields) (expr : JsString) (nowMs : ℕ) : Prop :=
  match computeNextRunAtMs (Calendar.fixed parse host zone) (.cron expr none none) nowMs with
  | some r => ∃ t : ℤ, r = t ∧ IsNext host (fields.Hold (Calendar.fixed parse host zone)) nowMs t
  | none => ∀ t, IsBoundary host t → nowMs < t → ¬fields.Hold (Calendar.fixed parse host zone) t

variable {expr : JsString} {fields : FiveFields} {nowMs : ℕ}

theorem cronFields_ne_none (h : readExpr expr = some fields) : cronFields expr ≠ none := by
  rw [readExpr] at h
  split at h
  next hsplit =>
    rw [cronFields, hsplit]
    exact Option.some_ne_none _
  next => cases h

theorem computeNextRunAtMs_local (h : readExpr expr = some fields) :
    computeNextRunAtMs (Calendar.fixed parse host zone) (.cron expr none none) nowMs =
      (searchMinutes (Calendar.fixed parse host zone)
          (matchesDate (Calendar.fixed parse host zone) expr) (366 * 24 * 60)
          (firstBoundary host nowMs + 0)).bind fun candidate =>
        if (nowMs : ℤ) < candidate then some (candidate : ℚ) else none := by
  rw [computeNextRunAtMs, computeCron_eq (cronFields_ne_none h) rfl (by simp), add_zero]
  rfl

theorem search_local (h : readExpr expr = some fields) {r : ℤ} :
    searchMinutes (Calendar.fixed parse host zone)
        (matchesDate (Calendar.fixed parse host zone) expr) (366 * 24 * 60)
        (firstBoundary host nowMs + 0) = some r ↔
      IsNext host (fields.Count (Calendar.fixed parse host zone)) nowMs r ∧
        r ≤ nowMs + searchMs := by
  have hmatch : ∀ t, matchesDate (Calendar.fixed parse host zone) expr (t + 0) = true ↔
      fields.Count (Calendar.fixed parse host zone) t := by
    intro t
    rw [add_zero, matchesDate_iff h]
  rw [searchMinutes_eq_some_iff_isNext hmatch, sub_zero]

/-- **The next fire is the least match** exactly if the first minute that satisfies the fields, where
there is one, comes within the days that are searched, and satisfies them not only because of a star
in a longer list. -/
theorem next_iff (parse : JsString → Option ℤ) (host : ℤ) (zone : JsString → Option ℤ)
    (fields : FiveFields) (expr : JsString) (nowMs : ℕ) (h : readExpr expr = some fields) :
    NextIsLeast parse host zone fields expr nowMs ↔
      ∀ t, IsNext host (fields.Hold (Calendar.fixed parse host zone)) nowMs t →
        t ≤ nowMs + searchMs ∧ fields.Count (Calendar.fixed parse host zone) t := by
  rw [NextIsLeast, computeNextRunAtMs_local h]
  cases hsearch : searchMinutes (Calendar.fixed parse host zone)
      (matchesDate (Calendar.fixed parse host zone) expr) (366 * 24 * 60)
      (firstBoundary host nowMs + 0) with
  | some r =>
    obtain ⟨hnext, hwithin⟩ := (search_local h).mp hsearch
    simp only [Option.bind_some, if_pos hnext.later]
    constructor
    · rintro ⟨t, ht, hhold⟩ u hu
      obtain rfl : r = t := Int.cast_injective ht
      obtain rfl := hhold.unique hu
      exact ⟨hwithin, hnext.holds⟩
    · intro hcondition
      refine ⟨r, rfl, hnext.boundary, hnext.later, hnext.holds.hold, fun u hu hlt hhold => ?_⟩
      obtain ⟨t, ht⟩ := exists_isNext hu hlt hhold
      exact (hnext.least t ht.boundary ht.later (hcondition t ht).2).trans (ht.least u hu hlt hhold)
  | none =>
    constructor
    · intro hnone t ht
      exact absurd ht.holds (hnone t ht.boundary ht.later)
    · intro hcondition u hu hlt hhold
      obtain ⟨t, ht⟩ := exists_isNext hu hlt hhold
      obtain ⟨hwithin, hcount⟩ := hcondition t ht
      have hnext : IsNext host (fields.Count (Calendar.fixed parse host zone)) nowMs t :=
        ⟨ht.boundary, ht.later, hcount, fun v hv hvlt hvcount => ht.least v hv hvlt hvcount.hold⟩
      rw [(search_local h).mpr ⟨hnext, hwithin⟩] at hsearch
      cases hsearch

end Local

/-- Any minute will do, and the next one is found. -/
theorem next_iff_every_minute :
    NextIsLeast (fun _ => none) 0 (fun _ => none) ⟨[.star], [.star], [.star], [.star], [.star]⟩
      (js "* * * * *") 1000 := by
  have hstar : ∀ {min max value : ℕ}, FieldCounts min max value [.star] := by
    simp [FieldCounts]
  refine (next_iff _ 0 _ _ _ 1000 rfl).mpr fun t ht => ?_
  refine ⟨?_, hstar, hstar, hstar, hstar, hstar⟩
  have hboundary : IsBoundary 0 60000 := ⟨1, rfl⟩
  have hle := ht.least 60000 hboundary (by decide)
    ⟨hstar.holds, hstar.holds, hstar.holds, hstar.holds, hstar.holds⟩
  have hfar : (60000 : ℤ) ≤ (1000 : ℕ) + searchMs := by decide
  exact hle.trans hfar

def leapDay : FiveFields := ⟨[.number 0], [.number 0], [.number 29], [.number 2], [.star]⟩

theorem fieldCounts_number {min max value n : ℕ} :
    FieldCounts min max value [.number n] ↔ value = n := by
  simp [FieldCounts, Item.Holds]

theorem fixed_date {host t d : ℤ} (parse zone : JsString → Option ℤ) (h : (t + host) / msPerDay = d) :
    (Calendar.fixed parse host zone).getMonth t = (Civil.dateOfDay d).1 ∧
      (Calendar.fixed parse host zone).getDate t = (Civil.dateOfDay d).2 := by
  subst h
  exact ⟨rfl, rfl⟩

theorem no_leapDay : ∀ d < 367, Civil.dateOfDay (18687 + (d : ℕ)) ≠ (1, 29) := by
  decide +kernel

/-- **The 29th of February is too far away** for the search on the first of March 2021: no time is
computed, though the day comes in 2024. -/
theorem leapDay_missed :
    ¬∀ (parse : JsString → Option ℤ) (host : ℤ) (zone : JsString → Option ℤ) (fields : FiveFields)
      (expr : JsString) (nowMs : ℕ), readExpr expr = some fields →
        NextIsLeast parse host zone fields expr nowMs := by
  intro h
  have hread : readExpr (js "0 0 29 2 *") = some leapDay := by rfl
  obtain ⟨nowMs, hnow⟩ : ∃ nowMs : ℕ, nowMs = 1614556800000 := ⟨_, rfl⟩
  have hleast := h (fun _ => none) 0 (fun _ => none) leapDay (js "0 0 29 2 *") nowMs hread
  have hsearch : searchMinutes (Calendar.fixed (fun _ => none) 0 fun _ => none)
      (matchesDate (Calendar.fixed (fun _ => none) 0 fun _ => none) (js "0 0 29 2 *"))
      (366 * 24 * 60) (firstBoundary 0 nowMs + 0) = none := by
    rw [searchMinutes_eq_none]
    intro k hk
    rw [Bool.eq_false_iff, ne_eq, matchesDate_iff hread]
    rintro ⟨hmonth, hdate, -⟩
    -- the minute is in one of the days
    obtain ⟨d, hd, hday⟩ : ∃ d < 367,
        (firstBoundary 0 nowMs + 0 + k * msPerMinute + 0) / msPerDay = 18687 + (d : ℕ) := by
      simp only [firstBoundary, msPerMinute, msPerDay, hnow]
      exact ⟨(k + 1) / 1440, by omega, by omega⟩
    refine no_leapDay d hd ?_
    obtain ⟨hgetMonth, hgetDate⟩ := fixed_date (fun _ => none) (fun _ => none) hday
    rw [hgetMonth] at hmonth
    rw [hgetDate] at hdate
    have htwo := fieldCounts_number.mp hmonth
    exact Prod.ext (by omega) (fieldCounts_number.mp hdate)
  rw [NextIsLeast, computeNextRunAtMs_local hread, hsearch] at hleast
  refine hleast 1709164800000 ⟨28486080, by decide⟩ (by omega) ?_
  have hdate : Civil.dateOfDay 19782 = (1, 29) := by decide
  refine ⟨⟨.number 2, by decide, ?_⟩, ⟨.number 29, by decide, ?_⟩, ⟨.star, by decide, trivial⟩,
    ⟨.number 0, by decide, ?_⟩, ⟨.number 0, by decide, ?_⟩⟩
  · exact congrArg (fun date => date.1 + 1) hdate
  · exact congrArg Prod.snd hdate
  · simp only [Item.Holds, Calendar.fixed, msPerHour]
    decide
  · simp only [Item.Holds, Calendar.fixed, msPerMinute]
    decide

/-! ### In a time zone -/

section Zoned

variable {parse : JsString → Option ℤ} {host offset : ℤ} {zone : JsString → Option ℤ}
  {expr tz : JsString} {nowMs : ℕ} {staggerMs : Option ℚ}

/-- **The time zone is honoured**: what is computed is the next time at which the clock of the zone
matches the expression. -/
def ZoneHonoured (parse : JsString → Option ℤ) (host offset : ℤ) (zone : JsString → Option ℤ)
    (expr tz : JsString) (nowMs : ℕ) (staggerMs : Option ℚ) : Prop :=
  ∀ r, computeNextRunAtMs (Calendar.fixed parse host zone) (.cron expr (some tz) staggerMs) nowMs =
      some r →
    ∃ t : ℤ, r = t ∧
      IsNext offset (fun t => matchesDate (Calendar.fixed parse offset zone) expr t) nowMs t

theorem matchesDate_shift (t : ℤ) :
    matchesDate (Calendar.fixed parse host zone) expr (t + (offset - host)) =
      matchesDate (Calendar.fixed parse offset zone) expr t := by
  have hlocal : t + (offset - host) + host = t + offset := by ring
  simp only [matchesDate, Calendar.fixed, hlocal]

theorem computeNextRunAtMs_zoned (hfields : cronFields expr ≠ none) (htz : tz ≠ [])
    (hzone : zone tz = some offset) (hstagger : ∀ s ∈ staggerMs, s ≤ 0) :
    computeNextRunAtMs (Calendar.fixed parse host zone) (.cron expr (some tz) staggerMs) nowMs =
      (searchMinutes (Calendar.fixed parse host zone)
          (matchesDate (Calendar.fixed parse host zone) expr) (366 * 24 * 60)
          (firstBoundary offset nowMs + (offset - host))).bind fun candidate =>
        if (nowMs : ℤ) < candidate then some (candidate : ℚ) else none := by
  have hnow : zonedNow (Calendar.fixed parse host zone) nowMs (some tz) =
      some ((nowMs + offset) / 1000 * 1000 - host) := by
    rw [zonedNow, Option.filter_some, if_pos (decide_eq_true htz)]
    simp [Calendar.fixed, hzone]
  rw [computeNextRunAtMs, computeCron_eq hfields hnow hstagger]
  congr 2
  simp only [Calendar.fixed, firstBoundary, msPerMinute]
  omega

theorem search_zoned {r : ℤ} :
    searchMinutes (Calendar.fixed parse host zone)
        (matchesDate (Calendar.fixed parse host zone) expr) (366 * 24 * 60)
        (firstBoundary offset nowMs + (offset - host)) = some r ↔
      IsNext offset (fun t => matchesDate (Calendar.fixed parse offset zone) expr t) nowMs
          (r - (offset - host)) ∧ r - (offset - host) ≤ nowMs + searchMs :=
  searchMinutes_eq_some_iff_isNext fun t => by rw [matchesDate_shift]

/-- **A time zone is honoured** exactly if it has the offset of the host, or nothing is computed:
since no match comes within the days that are searched, or since the first one is, moved to the clock
of the host, not later than now. -/
theorem zoned_next_iff (parse : JsString → Option ℤ) (host offset : ℤ)
    (zone : JsString → Option ℤ) (expr tz : JsString) (nowMs : ℕ) (staggerMs : Option ℚ)
    (htz : tz ≠ []) (hzone : zone tz = some offset) (hstagger : ∀ s ∈ staggerMs, s ≤ 0) :
    ZoneHonoured parse host offset zone expr tz nowMs staggerMs ↔
      offset = host ∨
        ∀ t, IsNext offset (fun t => matchesDate (Calendar.fixed parse offset zone) expr t) nowMs t →
          t ≤ nowMs + searchMs → t + (offset - host) ≤ nowMs := by
  by_cases hfields : cronFields expr = none
  · -- an expression without the fields is not searched for
    have hnone : ∀ cal : Calendar, ∀ t, matchesDate cal expr t = false := by
      intro cal t
      rw [matchesDate, hfields]
    refine iff_of_true (fun r hr => ?_) (Or.inr fun t ht => ?_)
    · rw [computeNextRunAtMs, computeCron, hfields] at hr
      cases hr
    · have hholds := ht.holds
      rw [hnone] at hholds
      cases hholds
  · rw [ZoneHonoured, computeNextRunAtMs_zoned hfields htz hzone hstagger]
    constructor
    · intro h
      refine or_iff_not_imp_left.mpr fun hne t ht hwithin => ?_
      by_contra hlater
      have hsearch : searchMinutes (Calendar.fixed parse host zone)
          (matchesDate (Calendar.fixed parse host zone) expr) (366 * 24 * 60)
          (firstBoundary offset nowMs + (offset - host)) = some (t + (offset - host)) := by
        rw [search_zoned, add_sub_cancel_right]
        exact ⟨ht, hwithin⟩
      rw [hsearch, Option.bind_some, if_pos (not_le.mp hlater)] at h
      obtain ⟨u, hu, hnext⟩ := h _ rfl
      obtain rfl : t + (offset - host) = u := Int.cast_injective hu
      have heq := hnext.unique ht
      omega
    · intro hcondition r hr
      obtain ⟨candidate, hsearch, hr⟩ := Option.bind_eq_some_iff.mp hr
      obtain ⟨hnext, hwithin⟩ := search_zoned.mp hsearch
      split at hr
      next hlater =>
        obtain rfl := Option.some.inj hr
        rcases hcondition with rfl | hcondition
        · rw [sub_self, sub_zero] at hnext
          exact ⟨candidate, rfl, hnext⟩
        · have hle := hcondition _ hnext hwithin
          omega
      next => cases hr

end Zoned

/-- The zones of the examples below: all are eight hours ahead. -/
def eastward (_ : JsString) : Option ℤ := some (8 * msPerHour)

/-- At nine in the morning eight hours ahead of UTC, as the host is. -/
theorem zoned_next_iff_morning :
    ZoneHonoured (fun _ => none) (8 * msPerHour) (8 * msPerHour) eastward (js "0 9 * * *")
      (js "Asia/Taipei") 1704070740000 none :=
  (zoned_next_iff _ (8 * msPerHour) (8 * msPerHour) eastward (js "0 9 * * *") (js "Asia/Taipei")
    1704070740000 none (by decide) rfl (by simp)).mpr (Or.inl rfl)

/-- **A job for nine in the morning fires at five in the afternoon**, eight hours ahead of a host in
UTC. -/
theorem zone_missed :
    ¬∀ (parse : JsString → Option ℤ) (host offset : ℤ) (zone : JsString → Option ℤ)
      (expr tz : JsString) (nowMs : ℕ) (staggerMs : Option ℚ), tz ≠ [] → zone tz = some offset →
        (∀ s ∈ staggerMs, s ≤ 0) →
          ZoneHonoured parse host offset zone expr tz nowMs staggerMs := by
  intro h
  have hhonoured := h (fun _ => none) 0 (8 * msPerHour) eastward (js "0 9 * * *")
    (js "Asia/Taipei") 1704070740000 none (by decide) rfl (by simp)
  have hnext : computeNextRunAtMs (Calendar.fixed (fun _ => none) 0 eastward)
      (.cron (js "0 9 * * *") (some (js "Asia/Taipei")) none) 1704070740000 =
        some 1704099600000 := by
    decide +kernel
  obtain ⟨t, ht, hisNext⟩ := hhonoured _ hnext
  obtain rfl : (1704099600000 : ℤ) = t := Int.cast_injective (α := ℚ) (by exact_mod_cast ht)
  have hholds := hisNext.holds
  have hnot : matchesDate (Calendar.fixed (fun _ => none) (8 * msPerHour) eastward)
      (js "0 9 * * *") 1704099600000 = false := by
    decide
  cases hholds

end OpenCms.Cron
