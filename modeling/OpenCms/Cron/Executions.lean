import OpenCms.Cron.Heartbeat

/-!
# What a run of the heartbeat executes

A job that is executed stays as it is in the store until its execution comes to an end, so
what keeps it from being executed again is that no other tick has it in flight. As long as
that is so (`OpenCms.Cron.Discipline.tick`), a job in flight is in the store as the tick read
it, and only its own tick writes for it.

`OpenCms.Cron.Discipline.pairwise` goes through a run once for whatever is to hold between
two executions of a job. It asks for what the next time of a job has to do with the
executions before, and that it still does when the next time is written.
-/

namespace OpenCms.Cron

/-- The tick is executing the job, or will when its turn comes. -/
def Tick.InFlight (t : Tick) (job : CronJob) : Prop :=
  t.running = some job ∨ job ∈ t.rest ∧ Due job t.nowMs

def Heartbeat.Apart (s : Heartbeat) (nowMs : ℕ) : Prop :=
  ∀ job ∈ s.jobs, job.enabled = true → Due job nowMs →
    ∀ k job', (s.ticks k).InFlight job' → job'.id ≠ job.id

def Heartbeat.Running (s : Heartbeat) (jobId : JsString) : Prop :=
  ∃ k job, (s.ticks k).running = some job ∧ job.id = jobId

section Discipline

variable (cal : Calendar) (config : HeartbeatConfig)

/-- A condition `ok` on the steps and what it does for the executions: `Waits` relates one to
the time its job is to run next, and `After` to a later one of the same job. -/
structure Discipline (ok : Heartbeat → Event → Prop) (Waits : Execution → Option ℚ → Prop)
    (After : Execution → Execution → Prop) : Prop where
  tick : ∀ {s : Heartbeat} {k nowMs : ℕ}, ok s (.tick k nowMs) → s.clock ≤ nowMs ∧ s.Apart nowMs
  /-- A job that waited is executed when it is due. -/
  execute : ∀ {e : Execution} {job : CronJob} {nowMs : ℕ}, Due e.job e.nowMs →
    Waits e job.state.nextRunAtMs → Due job nowMs → e.nowMs ≤ nowMs → After e ⟨job, nowMs⟩
  /-- A job that is due is made to run later. -/
  write : ∀ {e : Execution} {job : CronJob} {nowMs : ℕ} {next : ℚ},
    Waits e job.state.nextRunAtMs → Due job nowMs → e.nowMs ≤ nowMs → nowMs < next →
      Waits e (some next)
  /-- An execution comes to an end, the last one of its job. -/
  finish : ∀ {s : Heartbeat} {k : ℕ} {outcome : Outcome} {atMs : ℕ} {job : CronJob}
      {e : Execution} {next : Option ℚ}, ok s (.finish k outcome atMs) →
    (s.ticks k).running = some job → e = ⟨job, (s.ticks k).nowMs⟩ ∨
      After e ⟨job, (s.ticks k).nowMs⟩ → e.nowMs ≤ (s.ticks k).nowMs →
    settledNext cal config job (s.ticks k).nowMs outcome = some next → Waits e next

/-- What holds along a run. -/
structure Accounted (Waits : Execution → Option ℚ → Prop) (After : Execution → Execution → Prop)
    (s : Heartbeat) : Prop where
  ids : (s.jobs.map (·.id)).Nodup
  nowMs_le : ∀ k, (s.ticks k).nowMs ≤ s.clock
  le_clock : ∀ e ∈ s.executions, e.nowMs ≤ s.clock
  due : ∀ e ∈ s.executions, Due e.job e.nowMs
  /-- A job is in flight in one tick at most, -/
  apart : ∀ {k k' : ℕ} {job job' : CronJob}, (s.ticks k).InFlight job → (s.ticks k').InFlight job' →
    job.id = job'.id → k = k'
  /-- and once there. -/
  once : ∀ k, (((s.ticks k).running.toList ++ (s.ticks k).rest).map (·.id)).Nodup
  current : ∀ {k : ℕ} {job : CronJob}, (s.ticks k).InFlight job →
    nextRunOf s.jobs job.id = some job.state.nextRunAtMs
  latest : ∀ {k : ℕ} {job : CronJob}, (s.ticks k).InFlight job →
    ∀ e ∈ s.executions, e.job.id = job.id → e.nowMs ≤ (s.ticks k).nowMs
  running : ∀ {k : ℕ} {job : CronJob}, (s.ticks k).running = some job →
    ∀ e ∈ s.executions, e.job.id = job.id →
      e = ⟨job, (s.ticks k).nowMs⟩ ∨ After e ⟨job, (s.ticks k).nowMs⟩
  waits : ∀ e ∈ s.executions, ∀ next, nextRunOf s.jobs e.job.id = some next →
    s.Running e.job.id ∨ Waits e next
  after : s.executions.Pairwise fun e e' => e.job.id = e'.job.id → After e e'

variable {cal config} {Waits : Execution → Option ℚ → Prop} {After : Execution → Execution → Prop}
  {s : Heartbeat} {jobs : List CronJob} {k nowMs atMs : ℕ} {t : Tick} {job : CronJob}
  {ok : Heartbeat → Event → Prop} {rest : List CronJob}

theorem Heartbeat.not_inFlight_start : ¬((Heartbeat.start jobs).ticks k).InFlight job := by
  simp [Heartbeat.start, Tick.InFlight]

theorem Accounted.start (hids : (jobs.map (·.id)).Nodup) :
    Accounted Waits After (.start jobs) where
  ids := hids
  nowMs_le _ := le_rfl
  le_clock _ he := absurd he List.not_mem_nil
  due _ he := absurd he List.not_mem_nil
  apart hjob := absurd hjob Heartbeat.not_inFlight_start
  once _ := List.nodup_nil
  current hjob := absurd hjob Heartbeat.not_inFlight_start
  latest hjob := absurd hjob Heartbeat.not_inFlight_start
  running hjob := absurd (Or.inl hjob) Heartbeat.not_inFlight_start
  waits _ he := absurd he List.not_mem_nil
  after := List.Pairwise.nil

/-! ### One tick changes -/

theorem Heartbeat.inFlight_of_setTick {k' : ℕ}
    (hsub : ∀ job, t.InFlight job → (s.ticks k).InFlight job)
    (hjob : ((s.setTick k t).ticks k').InFlight job) : (s.ticks k').InFlight job := by
  rcases eq_or_ne k' k with rfl | hne
  · rw [Heartbeat.setTick_self] at hjob
    exact hsub job hjob
  · rwa [s.setTick_of_ne t hne] at hjob

theorem Heartbeat.setTick_nowMs (hnow : t.nowMs = (s.ticks k).nowMs) (k' : ℕ) :
    ((s.setTick k t).ticks k').nowMs = (s.ticks k').nowMs := by
  rcases eq_or_ne k' k with rfl | hne
  · rw [Heartbeat.setTick_self, hnow]
  · rw [s.setTick_of_ne t hne]

theorem Heartbeat.Running.setTick {jobId : JsString} (h : s.Running jobId)
    (hother : ∀ job, (s.ticks k).running = some job → job.id ≠ jobId) :
    (s.setTick k t).Running jobId := by
  obtain ⟨k', job, hjob, hid⟩ := h
  have hne : k' ≠ k := by
    rintro rfl
    exact hother job hjob hid
  exact ⟨k', job, by rwa [s.setTick_of_ne t hne], hid⟩

theorem Accounted.not_running (h : Accounted Waits After s) (hrunning : (s.ticks k).running = none)
    (hflight : (s.ticks k).InFlight job) : ¬s.Running job.id := by
  rintro ⟨k', job', hjob', hid⟩
  obtain rfl := h.apart hflight (Or.inl hjob') hid.symm
  simp [hrunning] at hjob'

/-- **A tick lets go** of jobs, with what it writes for them: the others are as they were, and
what was executed waits. -/
theorem Accounted.release (h : Accounted Waits After s) (hnow : t.nowMs = (s.ticks k).nowMs)
    (hrunning : t.running = none) (hrest : t.rest.Sublist (s.ticks k).rest)
    (hids : (jobs.map (·.id)).Sublist (s.jobs.map (·.id)))
    (hcurrent : ∀ {k' job}, ((s.setTick k t).ticks k').InFlight job →
      nextRunOf jobs job.id = nextRunOf s.jobs job.id)
    (hwaits : ∀ e ∈ s.executions, ∀ next, nextRunOf jobs e.job.id = some next →
      (s.setTick k t).Running e.job.id ∨ Waits e next) :
    Accounted Waits After { s.setTick k t with jobs := jobs } := by
  have hsub (job : CronJob) (hjob : t.InFlight job) : (s.ticks k).InFlight job := by
    rcases hjob with hjob | ⟨hjob, hdue⟩
    · simp [hrunning] at hjob
    · exact Or.inr ⟨hrest.subset hjob, hnow ▸ hdue⟩
  have htime := Heartbeat.setTick_nowMs hnow
  refine ⟨h.ids.sublist hids, fun k' => (htime k').trans_le (h.nowMs_le k'), h.le_clock, h.due,
    fun hjob hjob' => h.apart (s.inFlight_of_setTick hsub hjob) (s.inFlight_of_setTick hsub hjob'),
    fun k' => ?_, fun hjob => (hcurrent hjob).trans (h.current (s.inFlight_of_setTick hsub hjob)),
    fun hjob e he hid =>
      (h.latest (s.inFlight_of_setTick hsub hjob) e he hid).trans_eq (htime _).symm,
    fun {k' job} hjob => ?_, hwaits, h.after⟩
  · rcases eq_or_ne k' k with rfl | hne
    · refine (h.once k').sublist (List.Sublist.map _ ?_)
      simp only [Heartbeat.setTick_self, hrunning]
      exact hrest.trans (List.sublist_append_right _ _)
    · simp only [s.setTick_of_ne t hne]
      exact h.once k'
  · rcases eq_or_ne k' k with rfl | hne
    · simp [hrunning] at hjob
    · simp only [s.setTick_of_ne t hne] at hjob ⊢
      exact h.running hjob

/-! ### The steps -/

theorem Accounted.tick (h : Accounted Waits After s) (hidle : (s.ticks k).Idle)
    (hclock : s.clock ≤ nowMs) (hapart : s.Apart nowMs) :
    Accounted Waits After
      { s.setTick k ⟨nowMs, s.jobs.filter (·.enabled), none⟩ with clock := nowMs } := by
  generalize ht : (⟨nowMs, s.jobs.filter (·.enabled), none⟩ : Tick) = t
  have hnow : t.nowMs = nowMs := by rw [← ht]
  have hrunning : t.running = none := by rw [← ht]
  have hnew {job : CronJob} (hjob : t.InFlight job) :
      job ∈ s.jobs ∧ job.enabled = true ∧ Due job nowMs := by
    rw [← ht] at hjob
    rcases hjob with hjob | ⟨hjob, hdue⟩
    · simp at hjob
    · obtain ⟨hmem, henabled⟩ := List.mem_filter.mp hjob
      exact ⟨hmem, henabled, hdue⟩
  have hother {job job' : CronJob} {k' : ℕ} (hjob : t.InFlight job)
      (hjob' : (s.ticks k').InFlight job') : job'.id ≠ job.id := by
    obtain ⟨hmem, henabled, hdue⟩ := hnew hjob
    exact hapart job hmem henabled hdue k' job' hjob'
  refine ⟨h.ids, fun k' => ?_, fun e he => (h.le_clock e he).trans hclock, h.due,
    fun {k₁ k₂ job job'} hjob hjob' hid => ?_, fun k' => ?_, fun {k' job} hjob => ?_,
    fun {k' job} hjob e he hid => ?_, fun {k' job} hjob => ?_, fun e he next hnext => ?_, h.after⟩
  · rcases eq_or_ne k' k with rfl | hne
    · simp only [Heartbeat.setTick_self, hnow, le_refl]
    · simp only [s.setTick_of_ne t hne]
      exact (h.nowMs_le k').trans hclock
  · rcases eq_or_ne k₁ k with rfl | hne₁
    · rcases eq_or_ne k₂ k₁ with rfl | hne₂
      · rfl
      · simp only [Heartbeat.setTick_self, s.setTick_of_ne t hne₂] at hjob hjob'
        exact absurd hid.symm (hother hjob hjob')
    · simp only [s.setTick_of_ne t hne₁] at hjob
      rcases eq_or_ne k₂ k with rfl | hne₂
      · simp only [Heartbeat.setTick_self] at hjob'
        exact absurd hid (hother hjob' hjob)
      · simp only [s.setTick_of_ne t hne₂] at hjob'
        exact h.apart hjob hjob' hid
  · rcases eq_or_ne k' k with rfl | hne
    · simp only [Heartbeat.setTick_self, ← ht]
      exact h.ids.sublist (List.filter_sublist.map _)
    · simp only [s.setTick_of_ne t hne]
      exact h.once k'
  · rcases eq_or_ne k' k with rfl | hne
    · simp only [Heartbeat.setTick_self] at hjob
      obtain ⟨hmem, henabled, -⟩ := hnew hjob
      exact nextRunOf_of_mem h.ids hmem henabled
    · simp only [s.setTick_of_ne t hne] at hjob
      exact h.current hjob
  · rcases eq_or_ne k' k with rfl | hne
    · simp only [Heartbeat.setTick_self, hnow]
      exact (h.le_clock e he).trans hclock
    · simp only [s.setTick_of_ne t hne] at hjob ⊢
      exact h.latest hjob e he hid
  · rcases eq_or_ne k' k with rfl | hne
    · simp [hrunning] at hjob
    · simp only [s.setTick_of_ne t hne] at hjob ⊢
      exact h.running hjob
  · refine (h.waits e he next hnext).imp_left fun hrun => hrun.setTick fun job hjob => ?_
    simp [hidle.2] at hjob

theorem Accounted.execute (D : Discipline cal config ok Waits After) (h : Accounted Waits After s)
    (hrunning : (s.ticks k).running = none) (hrest : (s.ticks k).rest = job :: rest)
    (hdue : Due job (s.ticks k).nowMs) :
    Accounted Waits After
      { s.setTick k ⟨(s.ticks k).nowMs, rest, some job⟩ with
        executions := s.executions ++ [⟨job, (s.ticks k).nowMs⟩] } := by
  have hjob : (s.ticks k).InFlight job := Or.inr ⟨hrest ▸ List.mem_cons_self, hdue⟩
  have hafter : ∀ e ∈ s.executions, e.job.id = job.id → After e ⟨job, (s.ticks k).nowMs⟩ := by
    intro e he hid
    have hwaits := (h.waits e he _ (hid ▸ h.current hjob)).resolve_left
      (hid ▸ h.not_running hrunning hjob)
    exact D.execute (h.due e he) hwaits hdue (h.latest hjob e he hid)
  generalize hnow : (s.ticks k).nowMs = nowMs at hdue hafter ⊢
  generalize ht : (⟨nowMs, rest, some job⟩ : Tick) = t
  have hsub (job' : CronJob) (hjob' : t.InFlight job') : (s.ticks k).InFlight job' := by
    rw [← ht] at hjob'
    rcases hjob' with hjob' | ⟨hmem, hdue'⟩
    · exact Option.some.inj hjob' ▸ hjob
    · exact Or.inr ⟨hrest ▸ List.mem_cons_of_mem _ hmem, hnow ▸ hdue'⟩
  have htime := Heartbeat.setTick_nowMs (s := s) (k := k) (t := t) (by rw [← ht, hnow])
  refine ⟨h.ids, fun k' => (htime k').trans_le (h.nowMs_le k'), fun e he => ?_, fun e he => ?_,
    fun hjob hjob' => h.apart (s.inFlight_of_setTick hsub hjob) (s.inFlight_of_setTick hsub hjob'),
    fun k' => ?_, fun hjob => h.current (s.inFlight_of_setTick hsub hjob),
    fun {k' job'} hjob' e he hid => ?_, fun {k' job'} hjob' e he hid => ?_,
    fun e he next hnext => ?_, ?_⟩
  · rcases List.mem_append.mp he with he | he
    · exact h.le_clock e he
    · obtain rfl := List.mem_singleton.mp he
      exact hnow ▸ h.nowMs_le k
  · rcases List.mem_append.mp he with he | he
    · exact h.due e he
    · obtain rfl := List.mem_singleton.mp he
      exact hdue
  · rcases eq_or_ne k' k with rfl | hne
    · have honce := h.once k'
      rw [hrunning, hrest] at honce
      simp only [Heartbeat.setTick_self, ← ht]
      exact honce
    · simp only [s.setTick_of_ne t hne]
      exact h.once k'
  · have hjob' := s.inFlight_of_setTick hsub hjob'
    rw [htime]
    rcases List.mem_append.mp he with he | he
    · exact h.latest hjob' e he hid
    · obtain rfl := List.mem_singleton.mp he
      rw [← h.apart hjob hjob' hid, hnow]
  · rw [htime]
    rcases eq_or_ne k' k with rfl | hne
    · simp only [Heartbeat.setTick_self, ← ht] at hjob'
      obtain rfl := Option.some.inj hjob'
      rw [hnow]
      rcases List.mem_append.mp he with he | he
      · exact Or.inr (hafter e he hid)
      · exact Or.inl (List.mem_singleton.mp he)
    · simp only [s.setTick_of_ne t hne] at hjob'
      rcases List.mem_append.mp he with he | he
      · exact h.running hjob' e he hid
      · obtain rfl := List.mem_singleton.mp he
        exact absurd (h.apart hjob (Or.inl hjob') hid).symm hne
  · rcases List.mem_append.mp he with he | he
    · refine (h.waits e he next hnext).imp_left fun hrun => hrun.setTick fun job' hjob' => ?_
      simp [hrunning] at hjob'
    · obtain rfl := List.mem_singleton.mp he
      exact Or.inl ⟨k, job, by simp [← ht], rfl⟩
  · refine List.pairwise_append.mpr ⟨h.after, List.pairwise_singleton _ _, fun e he e' he' => ?_⟩
    obtain rfl := List.mem_singleton.mp he'
    exact hafter e he

theorem Accounted.ne_of_mem_rest {job' : CronJob} (h : Accounted Waits After s)
    (hrunning : (s.ticks k).running = some job) (hmem : job' ∈ (s.ticks k).rest) :
    job'.id ≠ job.id := by
  have honce := h.once k
  rw [hrunning] at honce
  intro hid
  exact (List.nodup_cons.mp honce).1 (List.mem_map.mpr ⟨job', hmem, hid⟩)

theorem Accounted.finish {outcome : Outcome} (D : Discipline cal config ok Waits After)
    (h : Accounted Waits After s) (hrunning : (s.ticks k).running = some job)
    (hok : ok s (.finish k outcome atMs)) :
    Accounted Waits After
      { s.setTick k ⟨(s.ticks k).nowMs, (s.ticks k).rest, none⟩ with
        jobs := settledJobs cal config s.jobs job (s.ticks k).nowMs outcome atMs } := by
  refine h.release rfl rfl (List.Sublist.refl _) settledJobs_ids (fun {k' job'} hjob' => ?_)
    fun e he next hnext => ?_
  · refine nextRunOf_settledJobs_of_ne ?_
    rcases eq_or_ne k' k with rfl | hne
    · rw [Heartbeat.setTick_self] at hjob'
      rcases hjob' with hjob' | ⟨hmem, -⟩
      · simp at hjob'
      · exact h.ne_of_mem_rest hrunning hmem
    · rw [s.setTick_of_ne _ hne] at hjob'
      exact fun hid => hne (h.apart hjob' (Or.inl hrunning) hid)
  · by_cases hid : e.job.id = job.id
    · rw [hid, nextRunOf_settledJobs (h.current (Or.inl hrunning))] at hnext
      exact Or.inr (D.finish hok hrunning (h.running hrunning e he hid)
        (h.latest (Or.inl hrunning) e he hid) hnext)
    · rw [nextRunOf_settledJobs_of_ne hid] at hnext
      refine (h.waits e he next hnext).imp_left fun hrun => hrun.setTick fun job' hjob' => ?_
      obtain rfl := Option.some.inj (hrunning.symm.trans hjob')
      exact Ne.symm hid

theorem Accounted.skip (h : Accounted Waits After s) (hrunning : (s.ticks k).running = none)
    (hrest : (s.ticks k).rest = job :: rest) :
    Accounted Waits After (s.setTick k ⟨(s.ticks k).nowMs, rest, none⟩) := by
  refine h.release rfl rfl ?_ (List.Sublist.refl (s.jobs.map (·.id))) (fun _ => rfl)
    fun e he next hnext => ?_
  · rw [hrest]
    exact List.sublist_cons_self _ _
  · refine (h.waits e he next hnext).imp_left fun hrun => hrun.setTick fun job' hjob' => ?_
    simp [hrunning] at hjob'

theorem Accounted.write {patch : CronJobPatch} (D : Discipline cal config ok Waits After)
    (h : Accounted Waits After s) (hrunning : (s.ticks k).running = none)
    (hrest : (s.ticks k).rest = job :: rest) (hdue : Due job (s.ticks k).nowMs)
    (hplain : patch.Plain)
    (hlater : patch.enabled = some false ∨ ∃ next, patch.nextRun = some (some next) ∧
      (s.ticks k).nowMs < next) :
    Accounted Waits After
      { s.setTick k ⟨(s.ticks k).nowMs, rest, none⟩ with
        jobs := writeJob cal s.jobs job.id patch atMs } := by
  have hjob : (s.ticks k).InFlight job := Or.inr ⟨hrest ▸ List.mem_cons_self, hdue⟩
  refine h.release rfl rfl ?_ (by rw [writeJob_ids]) (fun {k' job'} hjob' => ?_)
    fun e he next hnext => ?_
  · rw [hrest]
    exact List.sublist_cons_self _ _
  · refine nextRunOf_writeJob_of_ne ?_
    rcases eq_or_ne k' k with rfl | hne
    · have honce := h.once k'
      rw [hrunning, hrest] at honce
      rw [Heartbeat.setTick_self] at hjob'
      rcases hjob' with hjob' | ⟨hmem, -⟩
      · simp at hjob'
      · exact fun hid => (List.nodup_cons.mp honce).1 (List.mem_map.mpr ⟨job', hmem, hid⟩)
    · rw [s.setTick_of_ne _ hne] at hjob'
      exact fun hid => hne (h.apart hjob' hjob hid)
  · by_cases hid : e.job.id = job.id
    · rw [hid, nextRunOf_writeJob hplain, h.current hjob] at hnext
      have hwaits := (h.waits e he _ (hid ▸ h.current hjob)).resolve_left
        (hid ▸ h.not_running hrunning hjob)
      rcases hlater with hoff | ⟨later, hwritten, hlt⟩
      · simp [hoff] at hnext
      · obtain ⟨-, hnext⟩ := Option.ite_none_left_eq_some.mp hnext
        rw [hwritten] at hnext
        obtain rfl := Option.some.inj hnext
        exact Or.inr (D.write hwaits hdue (h.latest hjob e he hid) hlt)
    · rw [nextRunOf_writeJob_of_ne hid] at hnext
      refine (h.waits e he next hnext).imp_left fun hrun => hrun.setTick fun job' hjob' => ?_
      simp [hrunning] at hjob'

theorem Accounted.rotate {jobId : JsString} {lastModel : JsString}
    {lastAccountId : Option JsString} (h : Accounted Waits After s) :
    Accounted Waits After
      { s with
        jobs := writeJob cal s.jobs jobId
          { state := some
              { lastModel := some (some lastModel), lastAccountId := some lastAccountId } }
          atMs } := by
  have hnext (id : JsString) :
      nextRunOf
          (writeJob cal s.jobs jobId
            { state := some
                { lastModel := some (some lastModel), lastAccountId := some lastAccountId } }
            atMs) id =
        nextRunOf s.jobs id := by
    rcases eq_or_ne id jobId with rfl | hne
    · rw [nextRunOf_writeJob ⟨rfl, rfl, Or.inl rfl⟩, if_neg nofun]
      exact Option.map_id'
    · exact nextRunOf_writeJob_of_ne hne
  refine ⟨?_, h.nowMs_le, h.le_clock, h.due, h.apart, h.once,
    fun hjob => (hnext _).trans (h.current hjob), h.latest, h.running,
    fun e he next hwritten => h.waits e he next ((hnext _).symm.trans hwritten), h.after⟩
  rw [writeJob_ids]
  exact h.ids

theorem Accounted.step {event : Event} (D : Discipline cal config ok Waits After)
    (h : Accounted Waits After s) (hok : ok s event) :
    Accounted Waits After (react cal config s event) := by
  cases event with
  | tick k nowMs =>
    simp only [react]
    split
    next hidle =>
      obtain ⟨hclock, hapart⟩ := D.tick hok
      exact h.tick hidle hclock hapart
    · exact h
  | turn k events atMs =>
    simp only [react]
    split
    next job rest hrunning hrest =>
      rcases evaluateJob_cases cal config job (s.ticks k).nowMs events with
        hskip | ⟨patch, hwrite, hdue, hplain, hlater⟩ | ⟨hexecute, hdue⟩
      · rw [hskip]
        exact h.skip hrunning hrest
      · rw [hwrite]
        exact h.write D hrunning hrest hdue hplain hlater
      · rw [hexecute]
        exact h.execute D hrunning hrest hdue
    · exact h
  | rotate k lastModel lastAccountId atMs =>
    simp only [react]
    split
    · exact h.rotate
    · exact h
  | finish k outcome atMs =>
    simp only [react]
    split
    next job hrunning => exact h.finish D hrunning hok
    · exact h

/-- **What holds between the executions of a job** in a run that keeps to a discipline. -/
theorem Discipline.pairwise {events : List Event} (D : Discipline cal config ok Waits After)
    (hids : (jobs.map (·.id)).Nodup) (hmeets : Meets (react cal config) ok (.start jobs) events) :
    (run (react cal config) (.start jobs) events).executions.Pairwise
      fun e e' => e.job.id = e'.job.id → After e e' := by
  have h : Accounted Waits After (run (react cal config) (.start jobs) events) :=
    hmeets.invariant _ (.start hids) fun s event h hok => h.step D hok
  exact h.after

end Discipline

end OpenCms.Cron
