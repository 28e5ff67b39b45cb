import OpenCms.Rotation.HealthTracker

/-!
# Rate limits

`RateLimitTracker` knows until when an account is limited, at a provider or for one of its
models, and counts for each vector of provider, account and model how often it has failed since
the quota was last reset.
-/

namespace OpenCms.Rotation

/-- `getQuotaDayStart` at the time `now`: the last 16:00 in Taipei, which is 08:00 UTC. -/
def getQuotaDayStart (now : ℤ) : ℤ :=
  let day := 24 * 60 * 60 * 1000
  let todayReset := now / day * day + 8 * 60 * 60 * 1000
  if now < todayReset then todayReset - day else todayReset

def getNextQuotaReset (now : ℤ) : ℤ :=
  let day := 24 * 60 * 60 * 1000
  let nextReset := now / day * day + 8 * 60 * 60 * 1000
  if nextReset ≤ now then nextReset + day else nextReset

namespace RateLimitTracker

variable (legacy : LegacyFiles)

abbrev makeKey (provider accountId : String) : String := accountKey provider accountId

/-- The key of a model, or of all of them, inside of the limits of an account. -/
def modelKey (provider : String) (model : Option String) : String :=
  match model.filter (· ≠ "") with
  | some model => provider ++ ":" ++ model
  | none => provider

def dailyKey (provider accountId : String) (model : Option String) : String :=
  match model.filter (· ≠ "") with
  | some model => provider ++ ":" ++ accountId ++ ":" ++ model
  | none => provider ++ ":" ++ accountId

def loadFromFile : Script StateFile (Record (Record RateLimitState)) := do
  let state ← readUnifiedState legacy
  pure state.rateLimits

def persistToFile (limits : Record (Record RateLimitState)) : Script StateFile Unit := do
  let state ← readUnifiedState legacy
  writeUnifiedState (state.withLimits limits)

def markRateLimited (now : ℤ) (accountId provider : String) (reason : RateLimitReason)
    (backoffMs : ℚ) (model : Option String) : Script StateFile Unit := do
  let limits ← loadFromFile legacy
  let key := makeKey provider accountId
  let providerLimits := (limits.lookup key).getD ∅
  let limit := { resetTime := now + backoffMs, reason := reason, model := model }
  persistToFile legacy (limits.insert key (providerLimits.insert (modelKey provider model) limit))

/-- A counter after one more failure. It begins again with the day. -/
def bump (now : ℤ) (counter : Option DailyRateLimitCount) : DailyRateLimitCount :=
  match counter with
  | some counter =>
    if counter.lastReset < getQuotaDayStart now then ⟨1, now⟩ else ⟨counter.count + 1, now⟩
  | none => ⟨1, now⟩

def incrementDailyFailureCount (now : ℤ) (accountId provider : String) (model : Option String) :
    Script StateFile ℕ := do
  let state ← readUnifiedState legacy
  let key := dailyKey provider accountId model
  let counter := bump now (state.dailyRateLimitCounts.lookup key)
  writeUnifiedState (state.withDaily (state.dailyRateLimitCounts.insert key counter))
  pure counter.count

def clear (accountId provider : String) (model : Option String) : Script StateFile Unit := do
  let limits ← loadFromFile legacy
  let key := makeKey provider accountId
  match limits.lookup key with
  -- nothing is written
  | none => pure ()
  | some providerLimits =>
    persistToFile legacy (limits.insert key (providerLimits.erase (modelKey provider model)))

/-! ### What the methods do, when nobody else is at the file -/

variable {legacy} {now : ℤ} {accountId provider : String} {reason : RateLimitReason}
  {backoffMs : ℚ} {model : Option String} {file : StateFile}

theorem entry_mark (state : UnifiedRotationState) (limits : Record (Record RateLimitState))
    (key modelKey : String) (limit : RateLimitState) :
    (state.withLimits (limits.insert key
        (((limits.lookup key).getD ∅).insert modelKey limit))).entry =
      (state.withLimits limits).entry.set (.limit key modelKey) (some (.limit limit)) := by
  refine entry_insert_limits state key modelKey (v := some limit) (Finmap.lookup_insert _) ?_
  intro k hk
  rw [Finmap.lookup_insert_of_ne _ hk]
  cases limits.lookup key with
  | none => exact Finmap.lookup_empty k
  | some inner => rfl

theorem entry_clear (state : UnifiedRotationState) {limits : Record (Record RateLimitState)}
    {key : String} (modelKey : String) {inner : Record RateLimitState}
    (h : limits.lookup key = some inner) :
    (state.withLimits (limits.insert key (inner.erase modelKey))).entry =
      (state.withLimits limits).entry.set (.limit key modelKey) none := by
  refine entry_insert_limits state key modelKey (v := none) (Finmap.lookup_erase _ _) ?_
  intro k hk
  rw [Finmap.lookup_erase_ne hk, h]
  rfl

theorem entry_of_lookup_none {state : UnifiedRotationState} {key : String} (modelKey : String)
    (h : state.rateLimits.lookup key = none) :
    state.entry.set (.limit key modelKey) none = state.entry := by
  refine (Store.eq_set ?_ fun _ _ => rfl).symm
  simp [UnifiedRotationState.entry, h]

theorem view_markRateLimited :
    view legacy
        ((markRateLimited legacy now accountId provider reason backoffMs model).run file).2 =
      (view legacy file).set (.limit (makeKey provider accountId) (modelKey provider model))
        (some (.limit ⟨now + backoffMs, reason, model⟩)) := by
  simp only [markRateLimited, loadFromFile, persistToFile, Script.bind_eq, Script.pure_eq,
    Script.run_bind, Script.run_done, run_readUnifiedState_fst, run_writeUnifiedState,
    stateOf_run_readUnifiedState, view_stringify]
  rw [entry_mark]
  rfl

/-- **A failure is counted** at the slot of its vector, and the count returned is the one
written. -/
theorem run_incrementDailyFailureCount :
    let key := dailyKey provider accountId model
    let counter := bump now ((stateOf legacy file).dailyRateLimitCounts.lookup key)
    ((incrementDailyFailureCount legacy now accountId provider model).run file).1 = counter.count ∧
      view legacy ((incrementDailyFailureCount legacy now accountId provider model).run file).2 =
        (view legacy file).set (.daily key) (some (.daily counter)) := by
  simp only [incrementDailyFailureCount, Script.bind_eq, Script.pure_eq, Script.run_bind,
    Script.run_done, run_readUnifiedState_fst, run_writeUnifiedState, view_stringify, true_and]
  rw [entry_insert_daily]
  rfl

theorem view_clear :
    view legacy ((clear legacy accountId provider model).run file).2 =
      (view legacy file).set (.limit (makeKey provider accountId) (modelKey provider model))
        none := by
  simp only [clear, loadFromFile, persistToFile, Script.bind_eq, Script.pure_eq,
    Script.run_bind, Script.run_done, run_readUnifiedState_fst]
  cases h : (stateOf legacy file).rateLimits.lookup (makeKey provider accountId) with
  | none =>
    show (stateOf legacy ((readUnifiedState legacy).run file).2).entry = _
    rw [stateOf_run_readUnifiedState]
    exact (entry_of_lookup_none _ h).symm
  | some inner =>
    simp only [Script.run_bind, run_readUnifiedState_fst, run_writeUnifiedState,
      stateOf_run_readUnifiedState, view_stringify]
    rw [entry_clear _ _ h]
    rfl

end RateLimitTracker

end OpenCms.Rotation
