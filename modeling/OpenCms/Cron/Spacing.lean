import OpenCms.Cron.Executions

/-!
# Executions and due times

Two promises about the executions of a job. No due time is used twice
(`OpenCms.Cron.used_once`), and between two executions there is a fire time of the schedule,
so that a job with a single time is executed once (`OpenCms.Cron.spaced`).

Neither holds of every run. A tick does not wait for the one before, and a job is still due
while it is executed (`OpenCms.Cron.executed_twice`). And where an execution comes to an end
without a next time to write, either nothing is written, and the job is due as it was, or the
time to run next is taken away, and the job is due at once (`OpenCms.Cron.suppressed_again`).
-/

namespace OpenCms.Cron

section

variable {cal : Calendar} {config : HeartbeatConfig} {job : CronJob} {nowMs : ℕ}
  {outcome : Outcome} {jobs : List CronJob} {events : List Event}

theorem advance_isSome :
    (advance cal job nowMs).isSome ↔ (computeNextRunAtMs cal job.schedule nowMs).isSome := by
  rw [advance, Option.isSome_map]
  cases hnext : computeNextRunAtMs cal job.schedule nowMs with
  | none => rfl
  | some f =>
    have hpos : f ≠ 0 := ((Nat.cast_nonneg nowMs).trans_lt (lt_of_computeNextRunAtMs hnext)).ne'
    simp [truthy, Option.filter, hpos]

theorem le_of_advance {next : ℚ} (h : advance cal job nowMs = some next) :
    ∃ f, computeNextRunAtMs cal job.schedule nowMs = some f ∧ f ≤ next := by
  obtain ⟨f, hf, rfl⟩ := Option.map_eq_some_iff.mp h
  exact ⟨f, (Option.filter_eq_some_iff.mp hf).1,
    le_add_of_nonneg_right (computeStaggerMs_nonneg job.schedule job.id)⟩

/-! ### A due time is used once -/

/-- A tick is started when no job that is due is in flight, and an execution that is not passed
on has a next time, unless it had no due time. -/
def KeepsApart (cal : Calendar) (config : HeartbeatConfig) (s : Heartbeat) : Event → Prop
  | .tick _ nowMs => s.clock ≤ nowMs ∧ s.Apart nowMs
  | .finish k outcome _ =>
    ∀ job, (s.ticks k).running = some job → outcome.Delivered config ∨
      (computeNextRunAtMs cal job.schedule (s.ticks k).nowMs).isSome ∨
      job.state.nextRunAtMs = none
  | _ => True

def DueApart (e e' : Execution) : Prop :=
  ∀ dueMs, e.job.state.nextRunAtMs = some dueMs → e'.job.state.nextRunAtMs ≠ some dueMs

theorem keepsApart_discipline (cal : Calendar) (config : HeartbeatConfig) :
    Discipline cal config (KeepsApart cal config)
      (fun e next => ∀ nextMs, next = some nextMs → (e.nowMs : ℚ) < nextMs) DueApart where
  tick hok := hok
  execute hdue hwaits _ _ dueMs hdueMs hsame :=
    absurd (hdue.le hdueMs) (not_le.mpr (hwaits dueMs hsame))
  write _ _ hle hlt := by
    rintro nextMs hnext
    obtain rfl := Option.some.inj hnext
    exact (Nat.cast_le.mpr hle).trans_lt hlt
  finish {s k outcome atMs job e next} hok hrunning _ hle hnext := by
    rintro nextMs rfl
    refine (Nat.cast_le.mpr hle).trans_lt ?_
    unfold settledNext at hnext
    split at hnext
    · obtain ⟨-, hnext⟩ := Option.ite_none_left_eq_some.mp hnext
      exact lt_of_advance (Option.some.inj hnext)
    next hundelivered =>
      have hnext := Option.some.inj hnext
      rcases (hok job hrunning).resolve_left hundelivered with hsome | hnone
      · obtain ⟨later, hlater⟩ := Option.isSome_iff_exists.mp (advance_isSome.mpr hsome)
        rw [hlater] at hnext
        obtain rfl := Option.some.inj hnext
        exact lt_of_advance hlater
      · rw [hnone, Option.or_none] at hnext
        exact lt_of_advance hnext

/-- **A due time is used once** in a run of ticks that are kept apart, however long the
executions take. -/
theorem used_once (hids : (jobs.map (·.id)).Nodup)
    (hmeets : Meets (react cal config) (KeepsApart cal config) (.start jobs) events) :
    (run (react cal config) (.start jobs) events).executions.Pairwise
      fun e e' => e.job.id = e'.job.id → DueApart e e' :=
  (keepsApart_discipline cal config).pairwise hids hmeets

def Calendar.oneSecond : Calendar := { Calendar.blank with parse := fun _ => some 1000 }

def oneShotInput (payload : CronPayload) : CronJobCreate where
  name := js "job"
  enabled := true
  schedule := .at (js "1970-01-01T00:00:01Z")
  sessionTarget := .isolated
  wakeMode := .now
  payload := payload

def oneShot (payload : CronPayload) : CronJob :=
  createdJob .oneSecond (oneShotInput payload) (js "a") 500

def recurring (everyMs : ℚ) (id : JsString) : CronJob :=
  createdJob .oneSecond
    { oneShotInput (.systemEvent (js "check")) with
      schedule := .every everyMs (some 0)
      wakeMode := .nextHeartbeat } id 500

def firstTick : List Event := [.tick 0 60000, .turn 0 true 60000, .finish 0 (.returned true) 61000]

/-- The next tick is started while one job is still to be looked at. -/
theorem used_once_recurring :
    let events := firstTick ++ [.tick 1 120000, .turn 1 true 120000, .turn 0 true 120001]
    let s := run (react .oneSecond {})
      (.start [recurring 60000 (js "a"), recurring 3600000 (js "b")]) events
    s.executions.length = 2 ∧
      s.executions.Pairwise fun e e' => e.job.id = e'.job.id → DueApart e e' := by
  refine ⟨by decide +kernel, used_once (by decide) (Meets.append.mpr ⟨⟨⟨Nat.zero_le _, ?_⟩, trivial,
    ?_, trivial⟩, ⟨by decide +kernel, ?_⟩, trivial, trivial, trivial⟩)⟩
  · exact fun _ _ _ _ _ _ hjob => absurd hjob Heartbeat.not_inFlight_start
  · exact fun _ _ => Or.inl (Or.inr rfl)
  · intro job _ _ _ k job' hflight
    let tick := (run (react .oneSecond {}) (.start [recurring 60000 (js "a"),
      recurring 3600000 (js "b")]) firstTick).ticks 0
    have hnone : tick.running = none ∧ ∀ job ∈ tick.rest, ¬Due job tick.nowMs := by
      decide +kernel
    rcases eq_or_ne k 0 with rfl | hne
    · rcases hflight with hrunning | ⟨hrest, hdue⟩
      · rw [hnone.1] at hrunning
        cases hrunning
      · exact absurd hdue (hnone.2 job' hrest)
    · have hzero : ∀ event ∈ firstTick, event.number = 0 := by decide
      rw [run_ticks_of_ne _ _ fun event hmem => hzero event hmem ▸ hne] at hflight
      exact absurd hflight Heartbeat.not_inFlight_start

/-- **A job is executed twice for one due time** when it takes longer than the ticks are
apart. -/
theorem executed_twice :
    ¬∀ (cal : Calendar) (config : HeartbeatConfig) (jobs : List CronJob) (events : List Event),
      (jobs.map (·.id)).Nodup →
        (run (react cal config) (.start jobs) events).executions.Pairwise
          fun e e' => e.job.id = e'.job.id → DueApart e e' := by
  intro h
  let job := oneShot (.agentTurn (js "check") none none none none)
  have hpairwise := h .oneSecond {} [job]
    [.tick 0 1000, .turn 0 true 1000, .tick 1 61000, .turn 1 true 61000] (List.nodup_singleton _)
  have hexecutions : (run (react .oneSecond {}) (.start [job])
      [.tick 0 1000, .turn 0 true 1000, .tick 1 61000, .turn 1 true 61000]).executions =
      [⟨job, 1000⟩, ⟨job, 61000⟩] := by decide +kernel
  rw [hexecutions] at hpairwise
  have hapart := (List.pairwise_cons.mp hpairwise).1 _ (List.mem_singleton_self _) rfl
  exact hapart 1000 rfl rfl

/-! ### A fire time apart -/

/-- Ticks follow one another, and an execution comes to an end with a next time for a job that
recurs, or with none for one that does not and is disabled or removed then. -/
def FollowsSchedule (cal : Calendar) (config : HeartbeatConfig) (s : Heartbeat) : Event → Prop
  | .tick _ nowMs => s.clock ≤ nowMs ∧ ∀ k, (s.ticks k).Idle
  | .finish k outcome _ =>
    ∀ job, (s.ticks k).running = some job →
      let recurs := (computeNextRunAtMs cal job.schedule (s.ticks k).nowMs).isSome
      if outcome.Delivered config then
        job.deleteAfterRun = some true ∨ (recurs ↔ ¬job.schedule.IsAt)
      else recurs ∧ ¬job.schedule.IsAt
  | _ => True

/-- There is a fire time after the one execution and not after the other, and the schedule has
more than one. -/
def FireBetween (cal : Calendar) (e e' : Execution) : Prop :=
  ¬e.job.schedule.IsAt ∧
    ∃ f, computeNextRunAtMs cal e.job.schedule e.nowMs = some f ∧ f ≤ e'.nowMs

theorem followsSchedule_discipline (cal : Calendar) (config : HeartbeatConfig) :
    Discipline cal config (FollowsSchedule cal config)
      (fun e next => ¬e.job.schedule.IsAt ∧ ∃ f nextMs,
        computeNextRunAtMs cal e.job.schedule e.nowMs = some f ∧ next = some nextMs ∧ f ≤ nextMs)
      (FireBetween cal) where
  tick {s k nowMs} hok := by
    refine ⟨hok.1, fun job _ _ _ k' job' hjob' => ?_⟩
    have hidle := hok.2 k'
    rcases hjob' with hjob' | ⟨hjob', -⟩
    · simp [hidle.2] at hjob'
    · simp [hidle.1] at hjob'
  execute {e job nowMs} _ hwaits hdue _ := by
    obtain ⟨hat, f, nextMs, hf, hnext, hle⟩ := hwaits
    exact ⟨hat, f, hf, hle.trans (hdue.le hnext)⟩
  write {e job nowMs next} hwaits hdue _ hlt := by
    obtain ⟨hat, f, nextMs, hf, hnext, hle⟩ := hwaits
    exact ⟨hat, f, next, hf, rfl, (hle.trans (hdue.le hnext)).trans hlt.le⟩
  finish {s k outcome atMs job e next} hok hrunning he _ hnext := by
    have hok := hok job hrunning
    -- the job recurs, and its next time is written
    have hwritten : ¬job.schedule.IsAt ∧ ∃ later,
        advance cal job (s.ticks k).nowMs = some later ∧ next = some later := by
      unfold settledNext at hnext
      dsimp only at hok
      split at hnext
      next hdelivered =>
        rw [if_pos hdelivered] at hok
        obtain ⟨hkept, hnext⟩ := Option.ite_none_left_eq_some.mp hnext
        obtain ⟨hkept, hsettled⟩ := not_or.mp hkept
        have hrecurs := hok.resolve_left hkept
        rw [← advance_isSome] at hrecurs
        have hat : ¬job.schedule.IsAt := by
          intro hat
          refine hsettled ⟨?_, hat⟩
          rw [← Option.not_isSome_iff_eq_none]
          exact fun hsome => hrecurs.mp hsome hat
        obtain ⟨later, hlater⟩ := Option.isSome_iff_exists.mp (hrecurs.mpr hat)
        exact ⟨hat, later, hlater, (Option.some.inj hnext).symm.trans hlater⟩
      next hundelivered =>
        rw [if_neg hundelivered] at hok
        obtain ⟨later, hlater⟩ := Option.isSome_iff_exists.mp (advance_isSome.mpr hok.1)
        rw [hlater, Option.some_or] at hnext
        exact ⟨hok.2, later, hlater, (Option.some.inj hnext).symm⟩
    obtain ⟨hat, later, hlater, rfl⟩ := hwritten
    rcases he with rfl | ⟨hat', f, hf, hle⟩
    · obtain ⟨f, hf, hle⟩ := le_of_advance hlater
      exact ⟨hat, f, later, hf, rfl, hle⟩
    · exact ⟨hat', f, later, hf, rfl, hle.trans (lt_of_advance hlater).le⟩

/-- **Executions follow the schedule** in a run of ticks one after another whose executions
come to a proper end. -/
theorem spaced (hids : (jobs.map (·.id)).Nodup)
    (hmeets : Meets (react cal config) (FollowsSchedule cal config) (.start jobs) events) :
    (run (react cal config) (.start jobs) events).executions.Pairwise
      fun e e' => e.job.id = e'.job.id → FireBetween cal e e' :=
  (followsSchedule_discipline cal config).pairwise hids hmeets

theorem spaced_recurring :
    let s := run (react .oneSecond {}) (.start [recurring 60000 (js "a")])
      (firstTick ++ [.tick 0 120000, .turn 0 true 120000])
    s.executions.length = 2 ∧
      s.executions.Pairwise fun e e' => e.job.id = e'.job.id → FireBetween .oneSecond e e' := by
  refine ⟨by decide +kernel, spaced (List.nodup_singleton _) (Meets.append.mpr
    ⟨⟨⟨Nat.zero_le _, fun _ => ⟨rfl, rfl⟩⟩, trivial, fun job hjob => ?_, trivial⟩,
      ⟨by decide +kernel, fun k => ?_⟩, trivial, trivial⟩)⟩
  · have hrunning : ((run (react .oneSecond {}) (.start [recurring 60000 (js "a")])
        [.tick 0 60000, .turn 0 true 60000]).ticks 0).running = some (recurring 60000 (js "a")) := by
      decide +kernel
    obtain rfl := Option.some.inj (hrunning.symm.trans hjob)
    decide +kernel
  · rcases eq_or_ne k 0 with rfl | hne
    · decide +kernel
    · have hzero : ∀ event ∈ firstTick, event.number = 0 := by decide
      rw [run_ticks_of_ne _ _ fun event hmem => hzero event hmem ▸ hne]
      exact ⟨rfl, rfl⟩

/-- **A job for one time is executed again** by the tick that follows when there was nothing to
pass on. -/
theorem suppressed_again :
    ¬∀ (cal : Calendar) (config : HeartbeatConfig) (input : CronJobCreate) (id : JsString)
        (createdMs : ℕ) (events : List Event),
      Meets (react cal config)
        (fun s event => ∀ k nowMs, event = .tick k nowMs →
          s.clock < nowMs ∧ ∀ k, (s.ticks k).Idle)
        (.start [createdJob cal input id createdMs]) events →
      (run (react cal config) (.start [createdJob cal input id createdMs])
        events).executions.Pairwise fun e e' => e.job.id = e'.job.id → FireBetween cal e e' := by
  intro h
  let input := oneShotInput (.systemEvent (js "HEARTBEAT_OK"))
  let first : List Event := [.tick 0 1000, .turn 0 true 1000, .finish 0 (.returned false) 1000]
  let second : List Event := [.tick 0 61000, .turn 0 true 61000]
  have hclock : (run (react .oneSecond {})
      (.start [createdJob .oneSecond input (js "a") 500]) first).clock = 1000 := by
    decide +kernel
  have hidle (k : ℕ) : ((run (react .oneSecond {})
      (.start [createdJob .oneSecond input (js "a") 500]) first).ticks k).Idle := by
    rcases eq_or_ne k 0 with rfl | hne
    · decide +kernel
    · have hzero : ∀ event ∈ first, event.number = 0 := by decide
      rw [run_ticks_of_ne _ _ fun event hmem => hzero event hmem ▸ hne]
      exact ⟨rfl, rfl⟩
  have hexecutions : (run (react .oneSecond {})
      (.start [createdJob .oneSecond input (js "a") 500]) (first ++ second)).executions =
      [⟨createdJob .oneSecond input (js "a") 500, 1000⟩,
        ⟨createdJob .oneSecond input (js "a") 500, 61000⟩] := by decide +kernel
  have hpairwise := h .oneSecond {} input (js "a") 500 (first ++ second)
    (Meets.append.mpr ⟨⟨?_, nofun, nofun, trivial⟩, ?_, nofun, trivial⟩)
  · rw [hexecutions] at hpairwise
    have hspaced := (List.pairwise_cons.mp hpairwise).1 _ (List.mem_singleton_self _) rfl
    exact hspaced.1 trivial
  · rintro k nowMs hevent
    obtain ⟨rfl, rfl⟩ := Event.tick.inj hevent
    exact ⟨by decide, fun _ => ⟨rfl, rfl⟩⟩
  · rintro k nowMs hevent
    obtain ⟨rfl, rfl⟩ := Event.tick.inj hevent
    exact ⟨by omega, hidle⟩

end

end OpenCms.Cron
