import OpenCms.Rotation.RateLimitTracker

/-!
# Judging rate limits

`RateLimitJudge.judge` decides for how long a vector that ran into a limit is left alone. Some of
the limits are left alone for longer with every failure in a row, and the failures in a row are
read from `HealthScoreTracker`, where `judge` counts them and `recordSuccess` is to set them back.

The two do not use the same key: `judge` counts under the key of the vector, `recordSuccess` sets
back the one of the account. `OpenCms.Rotation.Judge.consecutive_iff` has the runs in which this
makes no difference.
-/

namespace OpenCms.Rotation

/-! ### Backoff -/

def minBackoffMs : ℚ := 2000

def fiveHourBackoff : ℚ := 18000000

def unknownBackoff : ℚ := 300000

def quotaExhaustedBackoffs : List ℚ := [fiveHourBackoff, fiveHourBackoff, 86400000]

def modelCapacityExhaustedBackoffs : List ℚ := [15000, 30000, 60000, 90000]

def modelCapacityMinBackoffMs : ℚ := 15000

def generateJitter (random maxJitterMs : ℚ) : ℚ := random * maxJitterMs - maxJitterMs / 2

def calculateBackoffMs (now : ℤ) (random : ℚ) (reason : RateLimitReason)
    (consecutiveFailures : ℕ) (retryAfterMs : Option ℚ) (dailyFailures : ℕ) : ℚ :=
  match retryAfterMs.filter (0 < ·) with
  | some retryAfterMs => max retryAfterMs minBackoffMs
  | none =>
    match reason with
    | .quotaExhausted =>
      let index := min consecutiveFailures (quotaExhaustedBackoffs.length - 1)
      quotaExhaustedBackoffs[index]?.getD unknownBackoff
    | .rateLimitShort => 300000
    | .rateLimitLong => max (getNextQuotaReset now - now : ℤ) 60000
    | .serviceUnavailable503 => 300000
    | .siteOverloaded529 => 300000
    | .modelCapacityExhausted =>
      let index := min consecutiveFailures (modelCapacityExhaustedBackoffs.length - 1)
      let base := modelCapacityExhaustedBackoffs[index]?.getD 90000
      base + generateJitter random (base * (2 / 10))
    | .serverError => 20000
    | .authFailed => 3600000
    | .tokenRefreshFailed => fiveHourBackoff
    | .rateLimitExceeded | .badRequest | .unknown | .http _ =>
      if dailyFailures ≤ 1 then 60000 else fiveHourBackoff

inductive BackoffStrategy
  | cockpit
  | counter
  | passive
  deriving DecidableEq

def getBackoffStrategy (providerId : String) : BackoffStrategy :=
  if providerId = "openai" ∨ providerId = "codex" then .cockpit
  else if providerId = "gemini-cli" ∨ providerId = "google-api" then .counter
  else .passive

inductive BackoffSource
  | errorResponse
  | rpmInference
  | rpdInference
  | cockpit
  deriving DecidableEq

namespace Judge

/-! ### The two events -/

/-- A call of `judge`: the vector, what `extractRateLimitDetails` makes of the error, and what
else it meets – the time when it begins and when it records, the draw for the jitter, and what
`fetchCockpitBackoff` and `inferFromRequestLog` find, if they find anything. -/
structure Call where
  vector : ModelVector
  reason : RateLimitReason
  retryAfterMs : Option ℚ
  now : ℤ
  later : ℤ
  random : ℚ
  cockpitBackoffMs : Option ℚ
  inferred : Option (ℚ × BackoffSource)

/-- `JudgeResult`, and what `judge` logs on the way of how it got there. -/
structure Result where
  reason : RateLimitReason
  backoffMs : ℚ
  source : BackoffSource
  dailyFailures : ℕ
  consecutiveFailures : ℕ
  initialBackoffMs : ℚ

def applyStrategy (call : Call) (initialBackoffMs : ℚ) : ℚ × BackoffSource :=
  let chosen :=
    match getBackoffStrategy call.vector.providerId with
    | .cockpit =>
      match call.cockpitBackoffMs with
      | some backoffMs =>
        if call.reason ≠ .tokenRefreshFailed then (backoffMs, BackoffSource.cockpit)
        else (initialBackoffMs, .errorResponse)
      | none => (initialBackoffMs, .errorResponse)
    | .counter => call.inferred.getD (initialBackoffMs, .errorResponse)
    | .passive => (initialBackoffMs, .errorResponse)
  if (call.reason = .serviceUnavailable503 ∨ call.reason = .siteOverloaded529 ∨
      call.reason = .modelCapacityExhausted) ∧ chosen.1 < modelCapacityMinBackoffMs then
    (modelCapacityMinBackoffMs, chosen.2)
  else chosen

variable (legacy : LegacyFiles)

def recordRateLimit (now : ℤ) (accountId provider : String) (reason : RateLimitReason)
    (backoffMs : ℚ) (model : Option String) : Script StateFile Unit := do
  HealthScoreTracker.recordRateLimit legacy defaultHealthScoreConfig now accountId provider model
  RateLimitTracker.markRateLimited legacy now accountId provider reason backoffMs model

def judge (call : Call) : Script StateFile Result := do
  let ⟨providerId, accountId, modelId⟩ := call.vector
  let dailyFailures ←
    RateLimitTracker.incrementDailyFailureCount legacy call.now accountId providerId (some modelId)
  let consecutiveFailures ←
    HealthScoreTracker.getConsecutiveFailures legacy accountId providerId (some modelId)
  let initialBackoffMs := calculateBackoffMs call.now call.random call.reason consecutiveFailures
    call.retryAfterMs dailyFailures
  let chosen := applyStrategy call initialBackoffMs
  recordRateLimit legacy call.later accountId providerId call.reason chosen.1 (some modelId)
  pure ⟨call.reason, chosen.1, chosen.2, dailyFailures, consecutiveFailures, initialBackoffMs⟩

def recordSuccess (now : ℤ) (vector : ModelVector) : Script StateFile Unit := do
  let ⟨providerId, accountId, modelId⟩ := vector
  -- `Account.recordSuccess` is called without the model
  HealthScoreTracker.recordSuccess legacy defaultHealthScoreConfig now accountId providerId none
  RateLimitTracker.clear legacy accountId providerId (some modelId)

/-- What happens to a vector: a request of it runs into a limit, or succeeds. -/
inductive Event
  | judge (call : Call)
  | recordSuccess (now : ℤ) (vector : ModelVector)

def step (file : StateFile) : Event → StateFile
  | .judge call => ((judge legacy call).run file).2
  | .recordSuccess now vector => ((recordSuccess legacy now vector).run file).2

/-! ### The count that is fed to the backoff -/

variable {legacy} {file : StateFile}

def failures (store : Store) (key : String) : ℕ :=
  match store (.health key) with
  | some (.health state) => state.consecutiveFailures
  | _ => 0

def failureKey (vector : ModelVector) : String :=
  HealthScoreTracker.makeKey vector.providerId vector.accountId (some vector.modelID)

/-- The key that `recordSuccess` sets back. -/
def successKey (vector : ModelVector) : String :=
  HealthScoreTracker.makeKey vector.providerId vector.accountId none

theorem failures_view (key : String) :
    failures (view legacy file) key =
      ((HealthScoreTracker.entryAt legacy file key).map (·.consecutiveFailures)).getD 0 := by
  unfold failures view UnifiedRotationState.entry HealthScoreTracker.entryAt
  dsimp only
  cases (stateOf legacy file).accountHealth.lookup key <;> rfl

theorem failures_set_of_ne {store : Store} {slot : Slot} {entry : Option Entry} {key : String}
    (h : slot ≠ .health key) : failures (store.set slot entry) key = failures store key := by
  unfold failures
  rw [Store.set_of_ne h.symm]

theorem failures_set_health (store : Store) (key k : String) (state : HealthScoreState) :
    failures (store.set (.health key) (some (.health state))) k =
      if k = key then state.consecutiveFailures else failures store k := by
  split
  next h =>
    subst h
    unfold failures
    rw [Store.set_self]
  next h => exact failures_set_of_ne fun heq => h (Slot.health.inj heq).symm

theorem failures_of_counted {now : ℤ} {accountId provider : String} {model : Option String}
    (key : String) :
    let counted :=
      ((RateLimitTracker.incrementDailyFailureCount legacy now accountId provider model).run file).2
    failures (view legacy
        ((HealthScoreTracker.getConsecutiveFailures legacy accountId provider model).run counted).2)
          key = failures (view legacy file) key := by
  intro counted
  have hread : ∀ f, view legacy
      ((HealthScoreTracker.getConsecutiveFailures legacy accountId provider model).run f).2 =
        view legacy f := fun f =>
    congrArg UnifiedRotationState.entry HealthScoreTracker.run_getConsecutiveFailures.2
  rw [hread, RateLimitTracker.run_incrementDailyFailureCount.2]
  exact failures_set_of_ne (by simp)

/-- **A judgement counts one more failure** of its vector, and no other. -/
theorem failures_judge (call : Call) (key : String) :
    failures (view legacy (step legacy file (.judge call))) key =
      failures (view legacy file) key + if key = failureKey call.vector then 1 else 0 := by
  obtain ⟨⟨providerId, accountId, modelId⟩, _⟩ := call
  unfold step judge recordRateLimit
  simp only [Script.bind_eq, Script.pure_eq, Script.run_bind, Script.run_done,
    HealthScoreTracker.recordRateLimit, RateLimitTracker.view_markRateLimited,
    HealthScoreTracker.view_recordPenalty]
  rw [failures_set_of_ne (by simp), failures_set_health, failures_of_counted]
  -- the entry that is replaced is the one whose failures have been read
  simp only [HealthScoreTracker.penalized, ← failures_view, failures_of_counted]
  rcases eq_or_ne key (failureKey ⟨providerId, accountId, modelId⟩) with rfl | hne
  · rw [if_pos rfl]
    exact if_pos rfl
  · rw [if_neg hne]
    exact if_neg hne

/-- **A success sets back the count of the account**, and no other. -/
theorem failures_recordSuccess (now : ℤ) (vector : ModelVector) (key : String) :
    failures (view legacy (step legacy file (.recordSuccess now vector))) key =
      if key = successKey vector then 0 else failures (view legacy file) key := by
  unfold step recordSuccess
  simp only [Script.bind_eq, Script.run_bind, RateLimitTracker.view_clear,
    HealthScoreTracker.view_recordSuccess]
  rw [failures_set_of_ne (by simp), failures_set_health]
  rfl

/-- **What a judgement is fed** is the count of its vector. -/
theorem judge_consecutiveFailures (call : Call) :
    ((judge legacy call).run file).1.consecutiveFailures =
      failures (view legacy file) (failureKey call.vector) := by
  unfold judge
  simp only [Script.bind_eq, Script.pure_eq, Script.run_bind, Script.run_done]
  rw [HealthScoreTracker.run_getConsecutiveFailures.1, ← failures_view,
    RateLimitTracker.run_incrementDailyFailureCount.2]
  exact failures_set_of_ne (by simp)

/-! ### Failures in a row -/

def judgedSince (vector : ModelVector) (past : List Event) : ℕ :=
  past.foldl (fun count event =>
    match event with
    | .judge call => if call.vector = vector then count + 1 else count
    | .recordSuccess _ succeeded => if succeeded = vector then 0 else count) 0

@[simp] theorem judgedSince_nil (vector : ModelVector) : judgedSince vector [] = 0 := rfl

theorem judgedSince_judge (vector : ModelVector) (past : List Event) (call : Call) :
    judgedSince vector (past ++ [.judge call]) =
      if call.vector = vector then judgedSince vector past + 1 else judgedSince vector past := by
  unfold judgedSince
  rw [List.foldl_append, List.foldl_cons, List.foldl_nil]

theorem judgedSince_recordSuccess (vector : ModelVector) (past : List Event) (now : ℤ)
    (succeeded : ModelVector) :
    judgedSince vector (past ++ [.recordSuccess now succeeded]) =
      if succeeded = vector then 0 else judgedSince vector past := by
  unfold judgedSince
  rw [List.foldl_append, List.foldl_cons, List.foldl_nil]

/-- **The events that count for a vector as they should**: a judgement of another vector does
not use its key, and a success sets its key back when it is its own and at no other time – or
there was nothing to set back. -/
def Counts (vector : ModelVector) (past : List Event) : Event → Prop
  | .judge call => call.vector = vector ∨ failureKey call.vector ≠ failureKey vector
  | .recordSuccess _ succeeded =>
    (succeeded = vector ↔ successKey succeeded = failureKey vector) ∨ judgedSince vector past = 0

instance (vector : ModelVector) (past : List Event) : DecidablePred (Counts vector past)
  | .judge call =>
    inferInstanceAs (Decidable (call.vector = vector ∨ failureKey call.vector ≠ failureKey vector))
  | .recordSuccess _ succeeded =>
    inferInstanceAs (Decidable ((succeeded = vector ↔ successKey succeeded = failureKey vector) ∨
      judgedSince vector past = 0))

theorem failures_step_iff {vector : ModelVector} {past : List Event} (event : Event)
    (h : failures (view legacy file) (failureKey vector) = judgedSince vector past) :
    failures (view legacy (step legacy file event)) (failureKey vector) =
        judgedSince vector (past ++ [event]) ↔ Counts vector past event := by
  cases event with
  | judge call =>
    rw [failures_judge, judgedSince_judge, h]
    show _ ↔ call.vector = vector ∨ failureKey call.vector ≠ failureKey vector
    rcases eq_or_ne call.vector vector with rfl | hne
    · simp
    · simp [hne, eq_comm]
  | recordSuccess now succeeded =>
    rw [failures_recordSuccess, judgedSince_recordSuccess, h]
    show _ ↔ (succeeded = vector ↔ successKey succeeded = failureKey vector) ∨
      judgedSince vector past = 0
    split <;> split <;> grind

/-- **Failures in a row are in a row** exactly in the runs in which every event counts for the
vector as it should: then what the next judgement of the vector feeds to the backoff is the number
of its judgements since its last success. -/
theorem consecutive_iff (hfresh : ∀ key, failures (view legacy file) key = 0)
    (vector : ModelVector) (events : List Event) :
    (∀ past, past <+: events → ∀ call : Call, call.vector = vector →
        ((judge legacy call).run (run (step legacy) file past)).1.consecutiveFailures =
          judgedSince vector past) ↔
      ∀ past event after, events = past ++ event :: after → Counts vector past event := by
  -- what any judgement of the vector is fed
  have hfed : ∀ f call, call.vector = vector →
      ((judge legacy call).run f).1.consecutiveFailures =
        failures (view legacy f) (failureKey vector) := by
    rintro f call rfl
    exact judge_consecutiveFailures call
  constructor
  · intro h past event after hsplit
    have hright : ∀ past, past <+: events →
        failures (view legacy (run (step legacy) file past)) (failureKey vector) =
          judgedSince vector past := by
      intro past hpast
      let call : Call := ⟨vector, .unknown, none, 0, 0, 0, none, none⟩
      rw [← hfed _ call rfl]
      exact h past hpast call rfl
    have hbefore := hright past ⟨event :: after, hsplit.symm⟩
    refine (failures_step_iff event hbefore).mp ?_
    rw [← run_concat (step legacy)]
    exact hright _ ⟨after, by simp [hsplit]⟩
  · intro h past hpast call hcall
    rw [hfed _ call hcall]
    induction past using List.reverseRecOn with
    | nil => exact hfresh _
    | append_singleton past event ih =>
      obtain ⟨after, rfl⟩ := hpast
      have hbefore := ih ⟨event :: after, by simp⟩
      rw [run_concat (step legacy)]
      exact (failures_step_iff event hbefore).mpr (h past event after (by simp))

/-- **A success does not set a vector back**: the judgement after it is fed the failures from
before. -/
theorem not_consecutive :
    ¬∀ (legacy : LegacyFiles) (file : StateFile), (∀ key, failures (view legacy file) key = 0) →
      ∀ (vector : ModelVector) (past : List Event) (call : Call), call.vector = vector →
        ((judge legacy call).run (run (step legacy) file past)).1.consecutiveFailures =
          judgedSince vector past := by
  intro h
  let vector : ModelVector := ⟨"openai", "work", "gpt-5"⟩
  let call : Call := ⟨vector, .quotaExhausted, none, 0, 0, 0, none, none⟩
  have hfed := h ⟨none, none⟩ .absent (fun _ => rfl) vector
    [.judge call, .recordSuccess 1000 vector] call rfl
  revert hfed
  decide

/-- Two vectors of different accounts, one of which succeeds before it has failed. -/
theorem consecutive_iff_openai :
    let vector : ModelVector := ⟨"openai", "work", "gpt-5"⟩
    let other : ModelVector := ⟨"openai", "home", "gpt-5"⟩
    let failed (vector : ModelVector) : Event :=
      .judge ⟨vector, .quotaExhausted, none, 0, 0, 0, none, none⟩
    ∀ past, past <+: [.recordSuccess 0 vector, failed vector, failed other,
        .recordSuccess 0 other, failed vector] → ∀ call : Call, call.vector = vector →
      ((judge ⟨none, none⟩ call).run (run (step ⟨none, none⟩) .absent past)).1.consecutiveFailures =
        judgedSince vector past := by
  intro vector other failed
  refine (consecutive_iff (fun _ => rfl) vector _).mpr ?_
  have hmeets : Meets (fun past event => past ++ [event]) (Counts vector) []
      [.recordSuccess 0 vector, failed vector, failed other, .recordSuccess 0 other,
        failed vector] := by
    decide +kernel
  intro past event after hsplit
  have hcounts := Meets.iff_split.mp hmeets past event after hsplit
  rwa [run_append_singleton] at hcounts

end Judge

end OpenCms.Rotation
