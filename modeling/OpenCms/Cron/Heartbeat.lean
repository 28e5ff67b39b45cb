import OpenCms.Cron.Store
import Mathlib.Data.List.Nodup
import Mathlib.Logic.Function.Basic

/-!
# The heartbeat

Every interval a tick is started, whether or not the one before has come to its end. A tick
reads the enabled jobs once and goes through them one after another, beside the time it
read at its beginning: a job may not be due, be stale, fall outside of the active hours,
or wait for an event, and else it is executed (`OpenCms.Cron.evaluateJob`). What comes of an
execution decides what is written for the job (`OpenCms.Cron.settle`). The time the job is
due next is only written then, and an execution takes as long as it takes.

`OpenCms.Cron.react` is one step of this: a tick is started, goes on with its next job, or
comes to the end of an execution. Ticks are told apart by their numbers, so that any number of
them may be under way. Every execution is recorded with the job as it was read and the time of
its tick.

The store is here what it is when the file is one the store wrote: the list of its jobs.
-/

namespace OpenCms.Cron

/-! ### One job -/

/-- A job that is overdue by more is stale. -/
def STALE_THRESHOLD_MS : ℚ := 5 * 60 * 1000

structure ActiveHours where
  startMinutes : ℕ
  endMinutes : ℕ
  tz : Option JsString
  deriving DecidableEq

/-- `HeartbeatConfig`, as far as a tick looks at it. -/
structure HeartbeatConfig where
  activeHours : Option ActiveHours := none
  suppressOnOk : Option Bool := none
  deriving DecidableEq

/-- A number that is neither missing nor zero. -/
def truthy (x : Option ℚ) : Option ℚ := x.filter (· ≠ 0)

def CronSchedule.IsAt : CronSchedule → Prop
  | .at _ => True
  | _ => False

instance : DecidablePred CronSchedule.IsAt
  | .at _ => isTrue trivial
  | .every _ _ => isFalse id
  | .cron _ _ _ => isFalse id

section Job

variable (cal : Calendar) (config : HeartbeatConfig)

def nextEligibleMs (nowMs : ℕ) : Option ℚ :=
  match config.activeHours with
  | none => none
  | some hours =>
    let currentMinutes := cal.currentMinutes nowMs hours.tz
    let isInWindow : Bool :=
      if hours.startMinutes ≤ hours.endMinutes then
        hours.startMinutes ≤ currentMinutes && currentMinutes < hours.endMinutes
      else hours.startMinutes ≤ currentMinutes || currentMinutes < hours.endMinutes
    if isInWindow then none
    else
      let untilOpen : ℤ := hours.startMinutes - currentMinutes
      let minutesUntilOpen := if untilOpen ≤ 0 then untilOpen + 24 * 60 else untilOpen
      some (nowMs + minutesUntilOpen * 60 * 1000)

def advance (job : CronJob) (nowMs : ℕ) : Option ℚ :=
  (truthy (computeNextRunAtMs cal job.schedule nowMs)).map
    (· + computeStaggerMs job.schedule job.id)

def Due (job : CronJob) (nowMs : ℕ) : Prop :=
  ∀ nextRun ∈ truthy job.state.nextRunAtMs, nextRun ≤ nowMs

instance (job : CronJob) (nowMs : ℕ) : Decidable (Due job nowMs) :=
  inferInstanceAs (Decidable (∀ nextRun ∈ truthy job.state.nextRunAtMs, nextRun ≤ nowMs))

/-- What `evaluateJob` does with a job before it is executed. -/
inductive Verdict
  | skip
  | write (patch : CronJobPatch)
  | execute

def nextRunPatch (next : Option ℚ) : CronJobPatch := { state := some { nextRunAtMs := some next } }

/-- `evaluateJob`, up to the execution. -/
def evaluateJob (job : CronJob) (nowMs : ℕ) (events : Bool) : Verdict :=
  if ¬Due job nowMs then .skip
  else if (truthy job.state.nextRunAtMs).any (STALE_THRESHOLD_MS < nowMs - ·) then
    match advance cal job nowMs with
    | some next => .write (nextRunPatch next)
    | none =>
      if job.schedule.IsAt then
        .write
          { enabled := some false
            state := some
              { nextRunAtMs := some none
                lastRunAtMs := some (some nowMs)
                lastRunStatus := some (some .skipped) } }
      else .skip
  else
    match nextEligibleMs cal config nowMs with
    | some eligible => .write (nextRunPatch eligible)
    | none =>
      if job.wakeMode = .nextHeartbeat ∧ events = false then
        match advance cal job nowMs with
        | some next => .write (nextRunPatch next)
        | none => .skip
      else .execute

inductive Outcome
  | returned (hasActionableContent : Bool)
  | thrown

/-- The result is passed on; without actionable content it may be suppressed. -/
def Outcome.Delivered : Outcome → Prop
  | .returned hasActionableContent =>
    config.suppressOnOk = some false ∨ hasActionableContent = true
  | .thrown => False

instance : DecidablePred (Outcome.Delivered config)
  | .returned hasActionableContent =>
    inferInstanceAs (Decidable (config.suppressOnOk = some false ∨ hasActionableContent = true))
  | .thrown => isFalse id

/-- What is written after an execution, and whether the job is removed. -/
def settle (job : CronJob) (nowMs : ℕ) : Outcome → Option CronJobPatch × Bool
  | .thrown => ((advance cal job nowMs).map fun next => nextRunPatch (some next), false)
  | .returned hasActionableContent =>
    if config.suppressOnOk = some false ∨ hasActionableContent = true then
      let status := if hasActionableContent then CronRunStatus.ok else .skipped
      (some
        { enabled :=
            if advance cal job nowMs = none ∧ job.schedule.IsAt then some false else none
          state := some
            { nextRunAtMs := some (advance cal job nowMs)
              lastRunAtMs := some (some nowMs)
              lastRunStatus := some (some status)
              -- the status is never that of an error
              consecutiveErrors := some (some 0) } },
        job.deleteAfterRun = some true)
    else
      ((advance cal job nowMs).map fun next =>
        { state := some
            { nextRunAtMs := some (some next)
              lastRunAtMs := some (some nowMs)
              lastRunStatus := some (some .ok) } }, false)

/-! ### The ticks -/

/-- A tick under way: the time it read, the jobs it has not looked at yet, and the one it is
executing. -/
structure Tick where
  nowMs : ℕ
  rest : List CronJob
  running : Option CronJob

def Tick.Idle (t : Tick) : Prop := t.rest = [] ∧ t.running = none

instance (t : Tick) : Decidable t.Idle := by
  unfold Tick.Idle
  exact inferInstance

/-- A job that was executed, as the tick had read it, and the time of the tick. -/
structure Execution where
  job : CronJob
  nowMs : ℕ
  deriving DecidableEq

/-- The store, the ticks by their numbers, what was executed, and the time the last tick
read. -/
structure Heartbeat where
  jobs : List CronJob
  ticks : ℕ → Tick
  executions : List Execution
  clock : ℕ

def Heartbeat.start (jobs : List CronJob) : Heartbeat :=
  ⟨jobs, fun _ => ⟨0, [], none⟩, [], 0⟩

/-- What happens: a tick is started, goes on with its next job, for which there are events or
not, has the model of a job persisted while the job is executed, or comes to the end of an
execution. The last number is the time then. -/
inductive Event
  | tick (k nowMs : ℕ)
  | turn (k : ℕ) (events : Bool) (atMs : ℕ)
  | rotate (k : ℕ) (lastModel : JsString) (lastAccountId : Option JsString) (atMs : ℕ)
  | finish (k : ℕ) (outcome : Outcome) (atMs : ℕ)

def Event.number : Event → ℕ
  | .tick k _ | .turn k _ _ | .rotate k _ _ _ | .finish k _ _ => k

def writeJob (jobs : List CronJob) (jobId : JsString) (patch : CronJobPatch) (atMs : ℕ) :
    List CronJob :=
  match updateJobs cal jobs jobId patch atMs with
  | some (jobs', _) => jobs'
  | none => jobs

def settledJobs (jobs : List CronJob) (job : CronJob) (nowMs : ℕ) (outcome : Outcome)
    (atMs : ℕ) : List CronJob :=
  match settle cal config job nowMs outcome with
  | (none, _) => jobs
  | (some patch, false) => writeJob cal jobs job.id patch atMs
  | (some patch, true) => (writeJob cal jobs job.id patch atMs).filter (·.id ≠ job.id)

def Heartbeat.setTick (s : Heartbeat) (k : ℕ) (t : Tick) : Heartbeat :=
  { s with ticks := Function.update s.ticks k t }

@[simp] theorem Heartbeat.setTick_jobs (s : Heartbeat) (k : ℕ) (t : Tick) :
    (s.setTick k t).jobs = s.jobs := rfl

@[simp] theorem Heartbeat.setTick_executions (s : Heartbeat) (k : ℕ) (t : Tick) :
    (s.setTick k t).executions = s.executions := rfl

@[simp] theorem Heartbeat.setTick_clock (s : Heartbeat) (k : ℕ) (t : Tick) :
    (s.setTick k t).clock = s.clock := rfl

@[simp] theorem Heartbeat.setTick_self (s : Heartbeat) (k : ℕ) (t : Tick) :
    (s.setTick k t).ticks k = t := Function.update_self ..

theorem Heartbeat.setTick_of_ne (s : Heartbeat) {k k' : ℕ} (t : Tick) (hne : k' ≠ k) :
    (s.setTick k t).ticks k' = s.ticks k' := Function.update_of_ne hne ..

def react (s : Heartbeat) : Event → Heartbeat
  | .tick k nowMs =>
    if (s.ticks k).Idle then
      { s.setTick k ⟨nowMs, s.jobs.filter (·.enabled), none⟩ with clock := nowMs }
    else s
  | .turn k events atMs =>
    match (s.ticks k).running, (s.ticks k).rest with
    | none, job :: rest =>
      let nowMs := (s.ticks k).nowMs
      match evaluateJob cal config job nowMs events with
      | .skip => s.setTick k ⟨nowMs, rest, none⟩
      | .write patch =>
        { s.setTick k ⟨nowMs, rest, none⟩ with jobs := writeJob cal s.jobs job.id patch atMs }
      | .execute =>
        { s.setTick k ⟨nowMs, rest, some job⟩ with executions := s.executions ++ [⟨job, nowMs⟩] }
    | _, _ => s
  | .rotate k lastModel lastAccountId atMs =>
    match (s.ticks k).running with
    | some job =>
      let patch : CronJobPatch :=
        { state := some
            { lastModel := some (some lastModel), lastAccountId := some lastAccountId } }
      { s with jobs := writeJob cal s.jobs job.id patch atMs }
    | none => s
  | .finish k outcome atMs =>
    match (s.ticks k).running with
    | some job =>
      let nowMs := (s.ticks k).nowMs
      { s.setTick k ⟨nowMs, (s.ticks k).rest, none⟩ with
        jobs := settledJobs cal config s.jobs job nowMs outcome atMs }
    | none => s

/-- **A step is of one tick**, and the others stay where they are. -/
theorem react_ticks_of_ne {s : Heartbeat} {event : Event} {k : ℕ} (hne : k ≠ event.number) :
    (react cal config s event).ticks k = s.ticks k := by
  cases event with
  | tick k' nowMs =>
    simp only [react]
    split
    · exact s.setTick_of_ne _ hne
    · rfl
  | turn k' events atMs =>
    simp only [react]
    split
    · split
      · exact s.setTick_of_ne _ hne
      · exact s.setTick_of_ne _ hne
      · exact s.setTick_of_ne _ hne
    · rfl
  | rotate k' lastModel lastAccountId atMs =>
    simp only [react]
    split <;> rfl
  | finish k' outcome atMs =>
    simp only [react]
    split
    · exact s.setTick_of_ne _ hne
    · rfl

theorem run_ticks_of_ne {s : Heartbeat} {events : List Event} {k : ℕ}
    (hne : ∀ event ∈ events, k ≠ event.number) :
    (run (react cal config) s events).ticks k = s.ticks k :=
  List.foldlRecOn events _ (motive := fun t : Heartbeat => t.ticks k = s.ticks k) rfl
    fun _ ht event hmem => (react_ticks_of_ne cal config (hne event hmem)).trans ht

end Job

/-! ### The time a job is to run next -/

def nextRunOf (jobs : List CronJob) (jobId : JsString) : Option (Option ℚ) :=
  ((jobs.find? (·.id = jobId)).filter (·.enabled)).map (·.state.nextRunAtMs)

def CronJobPatch.nextRun (patch : CronJobPatch) : Option (Option ℚ) :=
  patch.state.bind (·.nextRunAtMs)

/-- A patch that does not enable a job, and after which the time to run next is the one it
writes or the one before. -/
structure CronJobPatch.Plain (patch : CronJobPatch) : Prop where
  schedule : patch.schedule = none
  wakeMode : patch.wakeMode = none
  enabled : patch.enabled = none ∨ patch.enabled = some false ∧ patch.nextRun.isSome

/-- What is left for an enabled job to wait for after an execution. -/
def settledNext (cal : Calendar) (config : HeartbeatConfig) (job : CronJob) (nowMs : ℕ)
    (outcome : Outcome) : Option (Option ℚ) :=
  if outcome.Delivered config then
    if job.deleteAfterRun = some true ∨ advance cal job nowMs = none ∧ job.schedule.IsAt then none
    else some (advance cal job nowMs)
  else some ((advance cal job nowMs).or job.state.nextRunAtMs)

section Lemmas

variable {cal : Calendar} {config : HeartbeatConfig} {job : CronJob} {nowMs atMs : ℕ}
  {jobs : List CronJob} {jobId id : JsString} {patch : CronJobPatch}

theorem lt_of_advance {next : ℚ} (h : advance cal job nowMs = some next) :
    (nowMs : ℚ) < next := by
  obtain ⟨f, hf, rfl⟩ := Option.map_eq_some_iff.mp h
  have hlt := lt_of_computeNextRunAtMs (Option.filter_eq_some_iff.mp hf).1
  have hstagger := computeStaggerMs_nonneg job.schedule job.id
  linarith

theorem lt_of_nextEligibleMs {eligible : ℚ} (h : nextEligibleMs cal config nowMs = some eligible) :
    (nowMs : ℚ) < eligible := by
  unfold nextEligibleMs at h
  split at h
  · simp at h
  next hours hhours =>
    obtain ⟨-, h⟩ := Option.ite_none_left_eq_some.mp h
    obtain rfl := Option.some.inj h
    have hminutes := cal.currentMinutes_lt nowMs hours.tz
    generalize cal.currentMinutes nowMs hours.tz = currentMinutes at hminutes ⊢
    -- the window opens later today or tomorrow
    have hpos : (0 : ℤ) < (if (hours.startMinutes : ℤ) - currentMinutes ≤ 0
        then (hours.startMinutes : ℤ) - currentMinutes + 24 * 60
        else (hours.startMinutes : ℤ) - currentMinutes) := by
      split <;> omega
    have hpos : (0 : ℚ) < _ := Int.cast_pos.mpr hpos
    linarith

theorem Due.le {v : ℚ} (h : Due job nowMs) (hv : job.state.nextRunAtMs = some v) : v ≤ nowMs := by
  rcases eq_or_ne v 0 with rfl | hne
  · exact Nat.cast_nonneg nowMs
  · exact h v (Option.filter_eq_some_iff.mpr ⟨hv, by simpa using hne⟩)

/-- **What a job comes to before it is executed**: nothing, a later time for one that is due or
its end, or its execution if it is due. -/
theorem evaluateJob_cases (cal : Calendar) (config : HeartbeatConfig) (job : CronJob)
    (nowMs : ℕ) (events : Bool) :
    evaluateJob cal config job nowMs events = .skip ∨
      (∃ patch, evaluateJob cal config job nowMs events = .write patch ∧ Due job nowMs ∧
        patch.Plain ∧
        (patch.enabled = some false ∨ ∃ next, patch.nextRun = some (some next) ∧ nowMs < next)) ∨
      evaluateJob cal config job nowMs events = .execute ∧ Due job nowMs := by
  have hlater {next : ℚ} (hdue : Due job nowMs) (hlt : nowMs < next) :
      ∃ patch, Verdict.write (nextRunPatch (some next)) = .write patch ∧ Due job nowMs ∧
        patch.Plain ∧
        (patch.enabled = some false ∨ ∃ next, patch.nextRun = some (some next) ∧ nowMs < next) :=
    ⟨_, rfl, hdue, ⟨rfl, rfl, Or.inl rfl⟩, Or.inr ⟨next, rfl, hlt⟩⟩
  unfold evaluateJob
  split
  · exact Or.inl rfl
  next hdue =>
    have hdue := not_not.mp hdue
    split
    · -- the job is stale
      split
      next next hnext => exact Or.inr (Or.inl (hlater hdue (lt_of_advance hnext)))
      · split
        · exact Or.inr (Or.inl ⟨_, rfl, hdue, ⟨rfl, rfl, Or.inr ⟨rfl, rfl⟩⟩, Or.inl rfl⟩)
        · exact Or.inl rfl
    · split
      next eligible heligible =>
        exact Or.inr (Or.inl (hlater hdue (lt_of_nextEligibleMs heligible)))
      · split
        · -- there are no events
          split
          next next hnext => exact Or.inr (Or.inl (hlater hdue (lt_of_advance hnext)))
          · exact Or.inl rfl
        · exact Or.inr (Or.inr ⟨rfl, hdue⟩)

theorem nextRunOf_of_mem (hids : (jobs.map (·.id)).Nodup) (hjob : job ∈ jobs)
    (henabled : job.enabled = true) : nextRunOf jobs job.id = some job.state.nextRunAtMs := by
  have hfind : jobs.find? (·.id = job.id) = some job := by
    induction jobs with
    | nil => simp at hjob
    | cons first rest ih =>
      obtain ⟨hfirst, hrest⟩ := List.nodup_cons.mp hids
      rcases List.mem_cons.mp hjob with rfl | hmem
      · simp
      · have hne : first.id ≠ job.id := fun heq =>
          hfirst (List.mem_map.mpr ⟨job, hmem, heq.symm⟩)
        rw [List.find?_cons_of_neg (by simpa using hne), ih hrest hmem]
  have hfilter : (some job).filter (·.enabled) = some job :=
    Option.filter_eq_some_iff.mpr ⟨rfl, henabled⟩
  rw [nextRunOf, hfind, hfilter, Option.map_some]

theorem writeJob_ids : (writeJob cal jobs jobId patch atMs).map (·.id) = jobs.map (·.id) := by
  unfold writeJob
  split
  next jobs' updated hupdate =>
    obtain ⟨before, existing, after, rfl, -, -, rfl, rfl⟩ := updateJobs_eq_some hupdate
    simp only [List.map_append, List.map_cons]
    rfl
  · rfl

theorem nextRunOf_writeJob_of_ne (hne : id ≠ jobId) :
    nextRunOf (writeJob cal jobs jobId patch atMs) id = nextRunOf jobs id := by
  unfold writeJob
  split
  next jobs' updated hupdate =>
    obtain ⟨before, existing, after, rfl, -, rfl, rfl, rfl⟩ := updateJobs_eq_some hupdate
    have hupdated : (updatedJob cal existing patch atMs).id ≠ id := hne.symm
    simp only [nextRunOf, List.find?_append]
    rw [List.find?_cons_of_neg (by simpa using hupdated),
      List.find?_cons_of_neg (by simpa using hne.symm)]
  · rfl

theorem updatedJob_nextRunAtMs (hpatch : patch.Plain) (existing : CronJob) (atMs : ℕ) :
    (updatedJob cal existing patch atMs).state.nextRunAtMs =
      patch.nextRun.getD existing.state.nextRunAtMs := by
  obtain ⟨hschedule, hwake, henabled⟩ := hpatch
  have hstate : ((existing.state.patch (patch.state.getD {})).nextRunAtMs) =
      patch.nextRun.getD existing.state.nextRunAtMs := by
    unfold CronJobPatch.nextRun
    cases patch.state with
    | none => rfl
    | some statePatch => rfl
  have hseed : ((patch.schedule.isSome || patch.enabled.isSome || patch.wakeMode.isSome) &&
      !patch.state.any (·.nextRunAtMs.isSome)) = false := by
    rcases henabled with henabled | ⟨-, hnext⟩
    · simp [hschedule, hwake, henabled]
    · have hany : patch.state.any (·.nextRunAtMs.isSome) = true := by
        unfold CronJobPatch.nextRun at hnext
        cases hst : patch.state with
        | none => simp [hst] at hnext
        | some statePatch => simpa [hst] using hnext
      rw [hany, Bool.not_true, Bool.and_false]
  unfold updatedJob
  dsimp only
  rw [hseed]
  exact hstate

theorem nextRunOf_writeJob (hpatch : patch.Plain) :
    nextRunOf (writeJob cal jobs jobId patch atMs) jobId =
      if patch.enabled = some false then none
      else (nextRunOf jobs jobId).map patch.nextRun.getD := by
  unfold writeJob
  split
  next jobs' updated hupdate =>
    obtain ⟨before, existing, after, rfl, hbefore, rfl, rfl, rfl⟩ := updateJobs_eq_some hupdate
    have hnone : before.find? (fun j => decide (j.id = existing.id)) = none :=
      List.find?_eq_none.mpr fun j hj => by simpa using hbefore j hj
    have henabled : (updatedJob cal existing patch atMs).enabled =
        patch.enabled.getD existing.enabled := rfl
    have hid : (updatedJob cal existing patch atMs).id = existing.id := rfl
    simp only [nextRunOf, List.find?_append, hnone, Option.none_or]
    rw [List.find?_cons_of_pos (by simp [hid]), List.find?_cons_of_pos (by simp)]
    rcases hpatch.enabled with hkept | ⟨hoff, -⟩
    · rw [if_neg (by simp [hkept])]
      rw [hkept, Option.getD_none] at henabled
      cases hexisting : existing.enabled with
      | false => simp [Option.filter, henabled, hexisting]
      | true =>
        simp [Option.filter, henabled, hexisting, updatedJob_nextRunAtMs hpatch existing atMs]
    · simp [Option.filter, henabled, hoff]
  next hupdate =>
    have hnone : nextRunOf jobs jobId = none := by
      unfold updateJobs at hupdate
      split at hupdate
      next hfind =>
        have hall := List.findIdx?_eq_none_iff.mp hfind
        rw [nextRunOf, List.find?_eq_none.mpr fun j hj => by simpa using hall j hj]
        rfl
      next idx hfind =>
        obtain ⟨hidx, -⟩ := List.findIdx?_eq_some_iff_getElem.mp hfind
        simp [hidx] at hupdate
    rw [hnone]
    simp

/-! ### What an execution leaves -/

theorem nextRunOf_filter_of_ne (hne : id ≠ jobId) :
    nextRunOf (jobs.filter (·.id ≠ jobId)) id = nextRunOf jobs id := by
  have hfind : (jobs.filter (·.id ≠ jobId)).find? (·.id = id) = jobs.find? (·.id = id) := by
    rw [List.find?_filter]
    congr 1
    funext j
    by_cases hj : j.id = id <;> simp [hj, hne]
  rw [nextRunOf, nextRunOf, hfind]

theorem nextRunOf_filter : nextRunOf (jobs.filter (·.id ≠ jobId)) jobId = none := by
  have hfind : (jobs.filter (·.id ≠ jobId)).find? (·.id = jobId) = none :=
    List.find?_eq_none.mpr fun j hj => by simpa using (List.mem_filter.mp hj).2
  rw [nextRunOf, hfind]
  rfl

variable {outcome : Outcome}

theorem settledJobs_ids :
    ((settledJobs cal config jobs job nowMs outcome atMs).map (·.id)).Sublist
      (jobs.map (·.id)) := by
  unfold settledJobs
  split
  · exact List.Sublist.refl _
  · rw [writeJob_ids]
  · refine (List.filter_sublist.map _).trans ?_
    rw [writeJob_ids]

theorem nextRunOf_settledJobs_of_ne (hne : id ≠ job.id) :
    nextRunOf (settledJobs cal config jobs job nowMs outcome atMs) id = nextRunOf jobs id := by
  unfold settledJobs
  split
  · rfl
  · exact nextRunOf_writeJob_of_ne hne
  · rw [nextRunOf_filter_of_ne hne, nextRunOf_writeJob_of_ne hne]

theorem settle_of_delivered (cal : Calendar) (job : CronJob) (nowMs : ℕ)
    (h : outcome.Delivered config) :
    ∃ patch : CronJobPatch,
      settle cal config job nowMs outcome = (some patch, decide (job.deleteAfterRun = some true)) ∧
      patch.Plain ∧ patch.nextRun = some (advance cal job nowMs) ∧
      (patch.enabled = some false ↔ advance cal job nowMs = none ∧ job.schedule.IsAt) := by
  cases outcome with
  | thrown => exact h.elim
  | returned hasActionableContent =>
    refine ⟨_, if_pos h, ⟨rfl, rfl, ?_⟩, rfl, ?_⟩
    · split
      · exact Or.inr ⟨rfl, rfl⟩
      · exact Or.inl rfl
    · split
      next hend => exact iff_of_true rfl hend
      next hend => exact iff_of_false nofun hend

theorem settle_of_not_delivered (cal : Calendar) (job : CronJob) (nowMs : ℕ)
    (h : ¬outcome.Delivered config) :
    ∃ patch : ℚ → CronJobPatch,
      settle cal config job nowMs outcome = ((advance cal job nowMs).map patch, false) ∧
      ∀ next, (patch next).Plain ∧ (patch next).nextRun = some (some next) ∧
        (patch next).enabled = none := by
  cases outcome with
  | thrown =>
    exact ⟨fun next => nextRunPatch (some next), rfl, fun _ => ⟨⟨rfl, rfl, Or.inl rfl⟩, rfl, rfl⟩⟩
  | returned hasActionableContent =>
    exact ⟨_, if_neg h, fun _ => ⟨⟨rfl, rfl, Or.inl rfl⟩, rfl, rfl⟩⟩

/-- **What an execution leaves** for its job: a job that is removed or disabled waits for
nothing, and one whose next time is not written goes on with the one it has. -/
theorem nextRunOf_settledJobs (hjob : nextRunOf jobs job.id = some job.state.nextRunAtMs) :
    nextRunOf (settledJobs cal config jobs job nowMs outcome atMs) job.id =
      settledNext cal config job nowMs outcome := by
  unfold settledJobs settledNext
  by_cases hdelivered : outcome.Delivered config
  · obtain ⟨patch, hsettle, hplain, hnext, hoff⟩ :=
      settle_of_delivered cal job nowMs hdelivered
    have hwritten : nextRunOf (writeJob cal jobs job.id patch atMs) job.id =
        if advance cal job nowMs = none ∧ job.schedule.IsAt then none
        else some (advance cal job nowMs) := by
      rw [nextRunOf_writeJob hplain, hjob, hnext]
      exact if_congr hoff rfl rfl
    rw [hsettle, if_pos hdelivered]
    by_cases hdelete : job.deleteAfterRun = some true
    · simp only [hdelete, decide_true]
      exact nextRunOf_filter
    · simp only [hdelete, decide_false, false_or]
      exact hwritten
  · obtain ⟨patch, hsettle, hpatch⟩ :=
      settle_of_not_delivered cal job nowMs hdelivered
    rw [hsettle, if_neg hdelivered]
    cases hadvance : advance cal job nowMs with
    | none => exact hjob
    | some next =>
      obtain ⟨hplain, hnext, henabled⟩ := hpatch next
      rw [Option.map_some]
      rw [nextRunOf_writeJob hplain, hjob, henabled, hnext, if_neg nofun]
      rfl

end Lemmas

end OpenCms.Cron
