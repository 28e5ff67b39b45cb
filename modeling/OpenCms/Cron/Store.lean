import OpenCms.Cron.Types
import OpenCms.Lib.Runs

/-!
# The job store

The jobs are kept in one file, which every operation reads as a whole and, where it changes
something, writes as a whole. A file that cannot be read – it is not there, it is not JSON,
the schema refuses it, be it for one job among many – counts as one without jobs.

So what an operation writes then is the store without what was in the file. Changing and
removing a job need the job to be there and write nothing, but a job is created, and it
stands alone in the file afterwards. `OpenCms.Cron.Keeps` says that an operation keeps the
jobs it is not about, and `OpenCms.Cron.keeps_iff` when it does.
-/

namespace OpenCms.Cron

/-- What is on the disk: no file, text that is not JSON, with the values that can be made out
in it, or JSON. -/
inductive Contents
  | missing
  | broken (remains : List (Json Key JsString))
  | json (j : Json Key JsString)

section Store

variable (isUrl : JsString → Bool) (cal : Calendar)

def readFile : Contents → CronStoreFile
  | .json j => ((CronStoreFileSchema isUrl).parse j).getD ⟨[]⟩
  | _ => ⟨[]⟩

def writeFile (data : CronStoreFile) : Contents := .json ((CronStoreFileSchema isUrl).print data)

def seededNextRunAtMs (job : CronJobSettings) (nowMs : ℕ) : Option ℚ :=
  if job.enabled = false then none
  else
    match job.schedule with
    | .at at_ => computeNextRunAtMs cal (.at at_) nowMs
    | schedule =>
      if job.wakeMode = .now then some (nowMs - 1) else computeNextRunAtMs cal schedule nowMs

def initialState (state : Option CronJobState) : CronJobState :=
  match state with
  | some state => { state with consecutiveErrors := state.consecutiveErrors.or (some 0) }
  | none => { consecutiveErrors := some 0 }

def createdJob (input : CronJobCreate) (id : JsString) (now : ℕ) : CronJob :=
  let state := initialState input.state
  { input.toCronJobSettings with
    id, createdAtMs := now, updatedAtMs := now
    state := { state with
      nextRunAtMs := state.nextRunAtMs.or (seededNextRunAtMs cal input.toCronJobSettings now) } }

def create (c : Contents) (input : CronJobCreate) (id : JsString) (now : ℕ) :
    Contents × CronJob :=
  let store := readFile isUrl c
  let job := createdJob cal input id now
  (writeFile isUrl ⟨store.jobs ++ [job]⟩, job)

def updatedJob (existing : CronJob) (patch : CronJobPatch) (now : ℕ) : CronJob :=
  let settings := existing.toCronJobSettings.patch patch
  let state := existing.state.patch (patch.state.getD {})
  let changed := patch.schedule.isSome || patch.enabled.isSome || patch.wakeMode.isSome
  let nextRunPatched := patch.state.any (·.nextRunAtMs.isSome)
  { settings with
    id := existing.id, createdAtMs := existing.createdAtMs, updatedAtMs := now
    state :=
      if changed && !nextRunPatched then
        { state with nextRunAtMs := seededNextRunAtMs cal settings now }
      else state }

def updateJobs (jobs : List CronJob) (jobId : JsString) (patch : CronJobPatch) (now : ℕ) :
    Option (List CronJob × CronJob) :=
  match jobs.findIdx? (·.id = jobId) with
  | none => none
  | some idx =>
    jobs[idx]?.map fun existing =>
      let updated := updatedJob cal existing patch now
      (jobs.set idx updated, updated)

def update (c : Contents) (jobId : JsString) (patch : CronJobPatch) (now : ℕ) :
    Contents × Option CronJob :=
  match updateJobs cal (readFile isUrl c).jobs jobId patch now with
  | none => (c, none)
  | some (jobs, updated) => (writeFile isUrl ⟨jobs⟩, some updated)

def updateState (c : Contents) (jobId : JsString) (statePatch : CronJobStatePatch) (now : ℕ) :
    Contents × Option CronJob :=
  update isUrl cal c jobId { state := some statePatch } now

def remove (c : Contents) (jobId : JsString) : Contents × Bool :=
  let store := readFile isUrl c
  let jobs := store.jobs.filter (·.id ≠ jobId)
  if jobs.length = store.jobs.length then (c, false) else (writeFile isUrl ⟨jobs⟩, true)

/-! ### The jobs of a file -/

def entries : Contents → List (Json Key JsString)
  | .json (.obj members) =>
    match Members.get members .jobs with
    | some (.arr items) => items
    | _ => []
  | .broken remains => remains
  | _ => []

def Holds (c : Contents) (job : CronJob) : Prop :=
  ∃ e ∈ entries c, (CronJobSchema isUrl).parse e = some job

def Readable (c : Contents) : Prop :=
  ∃ j file, c = .json j ∧ (CronStoreFileSchema isUrl).parse j = some file

inductive StoreOp
  | create (input : CronJobCreate) (id : JsString) (now : ℕ)
  | update (jobId : JsString) (patch : CronJobPatch) (now : ℕ)
  | updateState (jobId : JsString) (statePatch : CronJobStatePatch) (now : ℕ)
  | remove (jobId : JsString)

def StoreOp.jobId : StoreOp → JsString
  | .create _ id _ | .update id _ _ | .updateState id _ _ | .remove id => id

def StoreOp.IsCreate : StoreOp → Prop
  | .create _ _ _ => True
  | _ => False

def StoreOp.apply (c : Contents) : StoreOp → Contents
  | .create input id now => (Cron.create isUrl cal c input id now).1
  | .update jobId patch now => (Cron.update isUrl cal c jobId patch now).1
  | .updateState jobId statePatch now => (Cron.updateState isUrl cal c jobId statePatch now).1
  | .remove jobId => (Cron.remove isUrl c jobId).1

def Keeps (op : StoreOp) (c : Contents) : Prop :=
  ∀ job, Holds isUrl c job → job.id ≠ op.jobId → Holds isUrl (op.apply isUrl cal c) job

variable {isUrl cal} {c : Contents} {job : CronJob} {file : CronStoreFile} {op : StoreOp}
  {jobId : JsString} {now : ℕ}

theorem mapM_entries {j : Json Key JsString} (h : (CronStoreFileSchema isUrl).parse j = some file) :
    (entries (.json j)).mapM (CronJobSchema isUrl).parse = some file.jobs := by
  obtain ⟨x, hx, rfl⟩ := Option.map_eq_some_iff.mp h
  cases j with
  | obj members =>
    obtain ⟨_, -, hx⟩ := Option.bind_eq_some_iff.mp hx
    obtain ⟨jobs, hjobs, rfl⟩ := Option.map_eq_some_iff.mp hx
    obtain ⟨value, hvalue, hjobs⟩ := Option.bind_eq_some_iff.mp hjobs
    cases value with
    | arr items =>
      rw [entries, hvalue]
      exact hjobs
    | _ => simp [Schema.array] at hjobs
  | _ => simp [Schema.object] at hx

theorem mem_readFile (h : Readable isUrl c) :
    job ∈ (readFile isUrl c).jobs ↔ Holds isUrl c job := by
  obtain ⟨j, file, rfl, hparse⟩ := h
  have hread : readFile isUrl (.json j) = file := by simp only [readFile, hparse, Option.getD_some]
  rw [hread]
  exact Schema.mem_of_mapM (mapM_entries hparse)

theorem readFile_of_not_readable (h : ¬Readable isUrl c) : readFile isUrl c = ⟨[]⟩ := by
  cases c with
  | json j =>
    cases hparse : (CronStoreFileSchema isUrl).parse j with
    | none => simp only [readFile, hparse, Option.getD_none]
    | some file => exact absurd ⟨j, file, rfl, hparse⟩ h
  | missing | broken => rfl

theorem holds_writeFile (hread : Holds isUrl c job) (hmem : job ∈ file.jobs) :
    Holds isUrl (writeFile isUrl file) job := by
  obtain ⟨e, -, he⟩ := hread
  refine ⟨(CronJobSchema isUrl).print job, ?_, (CronJobSchema isUrl).stable he⟩
  exact List.mem_map_of_mem hmem

theorem id_of_parse {e : Json Key JsString} (h : (CronJobSchema isUrl).parse e = some job) :
    ∃ members, e = .obj members ∧ Members.get members .id = some (.str job.id) := by
  obtain ⟨x, hx, rfl⟩ := Option.map_eq_some_iff.mp h
  cases e with
  | obj members =>
    obtain ⟨id, hid, hx⟩ := Option.bind_eq_some_iff.mp hx
    obtain ⟨rest, -, rfl⟩ := Option.map_eq_some_iff.mp hx
    obtain ⟨value, hvalue, hid⟩ := Option.bind_eq_some_iff.mp hid
    refine ⟨members, rfl, hvalue.trans ?_⟩
    cases value with
    | str s =>
      obtain rfl := Option.some.inj hid
      rfl
    | _ => simp [Schema.str] at hid
  | _ => simp [Schema.object] at hx

theorem id_of_parse_print {job' : CronJob}
    (h : (CronJobSchema isUrl).parse ((CronJobSchema isUrl).print job) = some job') :
    job'.id = job.id := by
  obtain ⟨members, hobj, hid⟩ := id_of_parse h
  obtain rfl := Json.obj.inj hobj
  exact (Json.str.inj (Option.some.inj hid)).symm

/-! ### What an operation keeps -/

theorem updateJobs_eq_some {jobs jobs' : List CronJob} {patch : CronJobPatch} {updated : CronJob}
    (h : updateJobs cal jobs jobId patch now = some (jobs', updated)) :
    ∃ before existing after, jobs = before ++ existing :: after ∧
      (∀ j ∈ before, j.id ≠ jobId) ∧ existing.id = jobId ∧
      updated = updatedJob cal existing patch now ∧ jobs' = before ++ updated :: after := by
  unfold updateJobs at h
  split at h
  · simp at h
  next idx hfind =>
    obtain ⟨existing, hget, heq⟩ := Option.map_eq_some_iff.mp h
    obtain ⟨rfl, rfl⟩ := Prod.mk.inj heq
    obtain ⟨hidx, hid, hbefore⟩ := List.findIdx?_eq_some_iff_getElem.mp hfind
    obtain rfl : jobs[idx] = existing := by simpa [hidx] using hget
    refine ⟨jobs.take idx, jobs[idx], jobs.drop (idx + 1), ?_, ?_, by simpa using hid, rfl, ?_⟩
    · rw [List.cons_getElem_drop_succ, List.take_append_drop]
    · intro j hj
      obtain ⟨i, hi, rfl⟩ := List.mem_take_iff_getElem.mp hj
      simpa using hbefore i (by omega)
    · rw [List.set_eq_take_append_cons_drop, if_pos hidx]

theorem keeps_update {patch : CronJobPatch} (hjob : Holds isUrl c job) (hid : job.id ≠ jobId) :
    Holds isUrl (update isUrl cal c jobId patch now).1 job := by
  unfold update
  split
  · exact hjob
  next jobs updated hupdate =>
    obtain ⟨before, existing, after, hsplit, -, hexisting, -, rfl⟩ := updateJobs_eq_some hupdate
    have hreadable : Readable isUrl c := by
      by_contra hno
      simp [readFile_of_not_readable hno] at hsplit
    refine holds_writeFile hjob ?_
    have hmem := (mem_readFile hreadable).mpr hjob
    rw [hsplit] at hmem
    rcases List.mem_append.mp hmem with hmem | hmem
    · exact List.mem_append_left _ hmem
    · rcases List.mem_cons.mp hmem with rfl | hmem
      · exact absurd hexisting hid
      · exact List.mem_append_right _ (List.mem_cons_of_mem _ hmem)

theorem keeps_remove (hjob : Holds isUrl c job) (hid : job.id ≠ jobId) :
    Holds isUrl (remove isUrl c jobId).1 job := by
  unfold remove
  dsimp only
  split
  · exact hjob
  next hlength =>
    have hreadable : Readable isUrl c := by
      by_contra hno
      simp [readFile_of_not_readable hno] at hlength
    refine holds_writeFile hjob (List.mem_filter.mpr ⟨(mem_readFile hreadable).mpr hjob, ?_⟩)
    simpa using hid

theorem keeps_create {input : CronJobCreate} {id : JsString} (hreadable : Readable isUrl c)
    (hjob : Holds isUrl c job) : Holds isUrl (create isUrl cal c input id now).1 job :=
  holds_writeFile hjob (List.mem_append_left _ ((mem_readFile hreadable).mpr hjob))

theorem id_of_create {input : CronJobCreate} {id : JsString} (hno : ¬Readable isUrl c)
    (hjob : Holds isUrl (create isUrl cal c input id now).1 job) : job.id = id := by
  obtain ⟨e, he, hparse⟩ := hjob
  have hentries : entries (create isUrl cal c input id now).1 =
      [(CronJobSchema isUrl).print (createdJob cal input id now)] := by
    rw [create, readFile_of_not_readable hno]
    rfl
  rw [hentries, List.mem_singleton] at he
  rw [he] at hparse
  exact id_of_parse_print hparse

/-- **The store keeps its jobs**, whatever is done to one of them and whatever the file is,
except when a job is created beside others in a file that cannot be read as a whole. -/
theorem keeps_iff (isUrl : JsString → Bool) (cal : Calendar) (op : StoreOp) (c : Contents) :
    Keeps isUrl cal op c ↔
      (op.IsCreate → Readable isUrl c ∨ ∀ job, Holds isUrl c job → job.id = op.jobId) := by
  cases op with
  | create input id now =>
    refine ⟨fun h _ => ?_, fun h job hjob hid => ?_⟩
    · by_contra! hno
      obtain ⟨hno, job, hjob, hid⟩ := hno
      exact hid (id_of_create hno (h job hjob hid))
    · rcases h trivial with hreadable | halone
      · exact keeps_create hreadable hjob
      · exact absurd (halone job hjob) hid
  | update jobId patch now => exact iff_of_true (fun _ hjob hid => keeps_update hjob hid) nofun
  | updateState jobId statePatch now =>
    exact iff_of_true (fun _ hjob hid => keeps_update hjob hid) nofun
  | remove jobId => exact iff_of_true (fun _ hjob hid => keeps_remove hjob hid) nofun

end Store

def Calendar.blank : Calendar where
  parse _ := none
  dateInTimezone _ _ := none
  fullMinute := id
  nextMinute := id
  getMonth _ := 0
  getDate _ := 0
  getDay _ := 0
  getHours _ := 0
  getMinutes _ := 0
  currentMinutes _ _ := 0
  currentMinutes_lt _ _ := by decide

def plainJob (id : JsString) : CronJob where
  name := js "job"
  enabled := false
  schedule := .at (js "2999-01-01T00:00:00Z")
  sessionTarget := .isolated
  wakeMode := .now
  payload := .systemEvent (js "check")
  id := id
  createdAtMs := 0
  updatedAtMs := 0
  state := {}

/-- **A job is lost** that stands in the file beside something that is no job, when another
is created. -/
theorem job_lost :
    ¬∀ (isUrl : JsString → Bool) (cal : Calendar) (op : StoreOp) (c : Contents),
      Keeps isUrl cal op c := by
  intro h
  let schema := CronJobSchema fun _ => true
  let j : Json Key JsString := .obj [(.version, .num 1),
    (.jobs, .arr [schema.print (plainJob (js "a")), .null])]
  have hno : ¬Readable (fun _ => true) (.json j) := by
    rintro ⟨j', file, hj, hparse⟩
    have hnone : (CronStoreFileSchema fun _ => true).parse j = none := rfl
    rw [← Contents.json.inj hj, hnone] at hparse
    simp at hparse
  have hjob : Holds (fun _ => true) (.json j) (plainJob (js "a")) :=
    ⟨schema.print (plainJob (js "a")), List.mem_cons_self, rfl⟩
  have hid : (plainJob (js "a")).id ≠ js "b" := by decide
  have hkept := h (fun _ => true) .blank
    (.create ⟨(plainJob (js "b")).toCronJobSettings, none⟩ (js "b") 0) (.json j) _ hjob hid
  exact hid (id_of_create hno hkept)

end OpenCms.Cron
