import OpenCms.Rotation.RateLimitTracker

/-!
# Methods that change the state

Each of these methods of the trackers changes the entry at one slot of the state, from what it is,
or without looking at it. `OpenCms.Rotation.Mutation.effect` says to what.

The methods are read, compute, read again, write. `OpenCms.Rotation.Follows` is a rule for
scripts of this shape, which takes one read at a time off and deals with the migration that may
be part of it.
-/

namespace OpenCms.Rotation

/-- A call of a method that changes the state, and the time of it. -/
inductive Mutation
  | recordSuccess (now : ℤ) (accountId provider : String) (model : Option String)
  | recordRateLimit (now : ℤ) (accountId provider : String) (model : Option String)
  | recordFailure (now : ℤ) (accountId provider : String) (model : Option String)
  | markRateLimited (now : ℤ) (accountId provider : String) (reason : RateLimitReason)
      (backoffMs : ℚ) (model : Option String)
  | clear (accountId provider : String) (model : Option String)
  | incrementDailyFailureCount (now : ℤ) (accountId provider : String) (model : Option String)
  deriving DecidableEq

def healthOf : Option Entry → Option HealthScoreState
  | some (.health state) => some state
  | _ => none

def dailyOf : Option Entry → Option DailyRateLimitCount
  | some (.daily counter) => some counter
  | _ => none

@[simp] theorem healthOf_entry (state : UnifiedRotationState) (key : String) :
    healthOf (state.entry (.health key)) = state.accountHealth.lookup key := by
  show healthOf ((state.accountHealth.lookup key).map .health) = _
  cases state.accountHealth.lookup key <;> rfl

@[simp] theorem dailyOf_entry (state : UnifiedRotationState) (key : String) :
    dailyOf (state.entry (.daily key)) = state.dailyRateLimitCounts.lookup key := by
  show dailyOf ((state.dailyRateLimitCounts.lookup key).map .daily) = _
  cases state.dailyRateLimitCounts.lookup key <;> rfl

namespace Mutation

def code (legacy : LegacyFiles) (config : HealthScoreConfig) : Mutation → Script StateFile Unit
  | .recordSuccess now accountId provider model =>
    HealthScoreTracker.recordSuccess legacy config now accountId provider model
  | .recordRateLimit now accountId provider model =>
    HealthScoreTracker.recordRateLimit legacy config now accountId provider model
  | .recordFailure now accountId provider model =>
    HealthScoreTracker.recordFailure legacy config now accountId provider model
  | .markRateLimited now accountId provider reason backoffMs model =>
    RateLimitTracker.markRateLimited legacy now accountId provider reason backoffMs model
  | .clear accountId provider model => RateLimitTracker.clear legacy accountId provider model
  | .incrementDailyFailureCount now accountId provider model => do
    let _ ← RateLimitTracker.incrementDailyFailureCount legacy now accountId provider model

def slot : Mutation → Slot
  | .recordSuccess _ accountId provider model
  | .recordRateLimit _ accountId provider model
  | .recordFailure _ accountId provider model =>
    .health (HealthScoreTracker.makeKey provider accountId model)
  | .markRateLimited _ accountId provider _ _ model
  | .clear accountId provider model =>
    .limit (RateLimitTracker.makeKey provider accountId) (RateLimitTracker.modelKey provider model)
  | .incrementDailyFailureCount _ accountId provider model =>
    .daily (RateLimitTracker.dailyKey provider accountId model)

def effect (config : HealthScoreConfig) : Mutation → Option Entry → Option Entry
  | .recordSuccess now _ _ _, entry =>
    let current := HealthScoreTracker.scoreAt config now (healthOf entry)
    some (.health (HealthScoreTracker.rewarded config now current))
  | .recordRateLimit now _ _ _, entry =>
    let current := HealthScoreTracker.scoreAt config now (healthOf entry)
    some (.health
      (HealthScoreTracker.penalized config.rateLimitPenalty now current (healthOf entry)))
  | .recordFailure now _ _ _, entry =>
    let current := HealthScoreTracker.scoreAt config now (healthOf entry)
    some (.health (HealthScoreTracker.penalized config.failurePenalty now current (healthOf entry)))
  | .markRateLimited now _ _ reason backoffMs model, _ =>
    some (.limit ⟨now + backoffMs, reason, model⟩)
  | .clear _ _ _, _ => none
  | .incrementDailyFailureCount now _ _ _, entry =>
    some (.daily (RateLimitTracker.bump now (dailyOf entry)))

def apply (config : HealthScoreConfig) (store : Store) (call : Mutation) : Store :=
  store.set call.slot (call.effect config (store call.slot))

variable {config : HealthScoreConfig}

@[simp] theorem apply_self (store : Store) (call : Mutation) :
    apply config store call call.slot = call.effect config (store call.slot) := Store.set_self ..

theorem apply_of_ne {store : Store} {call : Mutation} {slot : Slot} (h : slot ≠ call.slot) :
    apply config store call slot = store slot := Store.set_of_ne h

theorem foldl_apply_slot (store : Store) (calls : List Mutation) (slot : Slot) :
    calls.foldl (apply config) store slot =
      (calls.filter (·.slot = slot)).foldl (fun entry call => call.effect config entry)
        (store slot) := by
  induction calls generalizing store with
  | nil => rfl
  | cons call calls ih =>
    rw [List.foldl_cons, ih]
    rcases eq_or_ne call.slot slot with rfl | hne
    · rw [List.filter_cons_of_pos (by simp), List.foldl_cons, apply_self]
    · rw [List.filter_cons_of_neg (by simpa using hne), apply_of_ne hne.symm]

end Mutation

/-! ### Scripts that read one after another -/

/-- **How a script of reads and one write goes.** It ends at a read only where `quits` allows, and
any write but that of a migration is the last and is as `writes` says, from what the reads
returned. -/
structure Follows (legacy : LegacyFiles) (quits : StateFile → Prop)
    (writes : List StateFile → UnifiedRotationState → Prop) (script : Script StateFile Unit) :
    Prop where
  ends : ∀ {seen next c}, script.Trace seen (.read next) → next c = .done () → quits c
  wrote : ∀ {seen c next}, script.Trace seen (.write c next) →
    (seen.getLast? = some .absent ∧ legacy.Migrates ∧ c = stringify legacy.state ∧
        (next = .done () → quits .absent)) ∨
      ∃ state, c = stringify state ∧ writes seen state ∧ next = .done ()

section Follows

variable {legacy : LegacyFiles} {quits : StateFile → Prop}
  {writes : List StateFile → UnifiedRotationState → Prop}

theorem Follows.done : Follows legacy quits writes (.done ()) := by
  have hdone : ∀ {seen rest}, (Script.done () : Script StateFile Unit).Trace seen rest →
      rest = .done () := by
    intro seen rest h
    induction h with
    | start => rfl
    | read _ _ ih => cases ih
    | write _ ih => cases ih
  exact ⟨fun h => (nomatch hdone h), fun h => (nomatch hdone h)⟩

theorem Follows.write {state : UnifiedRotationState} (h : writes [] state) :
    Follows legacy quits writes (writeUnifiedState state) := by
  have hwrite : ∀ {seen rest}, (writeUnifiedState state).Trace seen rest →
      seen = [] ∧ (rest = .write (stringify state) (.done ()) ∨ rest = .done ()) := by
    intro seen rest h
    induction h with
    | start => exact ⟨rfl, Or.inl rfl⟩
    | read _ _ ih => rcases ih.2 with h | h <;> cases h
    | write _ ih =>
      rcases ih.2 with h | h
      · cases h
        exact ⟨ih.1, Or.inr rfl⟩
      · cases h
  refine ⟨fun ht => ?_, fun ht => ?_⟩
  · rcases (hwrite ht).2 with h | h <;> cases h
  · obtain ⟨rfl, heq | heq⟩ := hwrite ht
    · cases heq
      exact Or.inr ⟨state, rfl, h, rfl⟩
    · cases heq

/-- **A read is taken off**: the rest is to be right from whatever the read returns. -/
theorem Follows.read {f : UnifiedRotationState → Script StateFile Unit}
    (hquits : ∀ file, f (stateOf legacy file) = .done () → quits file)
    (hrest : ∀ file, Follows legacy quits (fun seen => writes (file :: seen))
      (f (stateOf legacy file))) :
    Follows legacy quits writes ((readUnifiedState legacy).bind f) := by
  refine ⟨fun {seen next c} ht hdone => ?_, fun {seen c next} ht => ?_⟩
  · rcases trace_readUnifiedState_bind ht with ⟨-, heq⟩ | ⟨-, -, heq⟩ | ⟨file, seen', -, ht'⟩
    · obtain rfl := Script.read.inj heq
      refine hquits c ?_
      revert hdone
      cases c with
      | json data => exact id
      | garbled held => exact id
      | absent =>
        split
        · exact nofun
        · exact id
    · cases heq
    · exact (hrest file).ends ht' hdone
  · rcases trace_readUnifiedState_bind ht with ⟨-, heq⟩ | ⟨rfl, hmig, heq⟩ | ⟨file, seen', rfl, ht'⟩
    · cases heq
    · cases heq
      exact Or.inl ⟨rfl, hmig, rfl, hquits .absent⟩
    · rcases (hrest file).wrote ht' with ⟨hlast, hmig, hc, hnext⟩ | h
      · refine Or.inl ⟨?_, hmig, hc, hnext⟩
        cases seen' with
        | nil => cases hlast
        | cons => exact hlast
      · exact Or.inr h

end Follows

end OpenCms.Rotation
