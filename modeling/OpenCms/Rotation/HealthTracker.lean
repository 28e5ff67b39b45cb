import OpenCms.Account.Families
import OpenCms.Rotation.State

/-!
# Health scores

`HealthScoreTracker` has a score for an account, or for an account and a model, and counts
how often it has failed in a row. Each of its methods loads the scores from the file, and the
ones that change a score write all of them back.
-/

namespace OpenCms.Rotation

structure HealthScoreConfig where
  initial : ℤ
  successReward : ℤ
  rateLimitPenalty : ℤ
  failurePenalty : ℤ
  recoveryRatePerHour : ℤ
  minUsable : ℤ
  maxScore : ℤ

def defaultHealthScoreConfig : HealthScoreConfig where
  initial := 70
  successReward := 1
  rateLimitPenalty := -10
  failurePenalty := -20
  recoveryRatePerHour := 2
  minUsable := 50
  maxScore := 100

def accountKey (provider accountId : String) : String :=
  if startsWith accountId (provider ++ ":") || startsWith accountId (provider ++ "-") then accountId
  else provider ++ ":" ++ accountId

namespace HealthScoreTracker

variable (legacy : LegacyFiles) (config : HealthScoreConfig)

def makeKey (provider accountId : String) (model : Option String) : String :=
  match model.filter (· ≠ "") with
  | some model => provider ++ ":" ++ accountId ++ ":" ++ model
  | none => accountKey provider accountId

def loadFromFile : Script StateFile (Record HealthScoreState) := do
  let state ← readUnifiedState legacy
  pure state.accountHealth

def persistToFile (scores : Record HealthScoreState) : Script StateFile Unit := do
  let state ← readUnifiedState legacy
  writeUnifiedState (state.withHealth scores)

def scoreAt (now : ℤ) : Option HealthScoreState → ℤ
  | none => config.initial
  | some state =>
    let recoveredPoints := (now - state.lastUpdated) * config.recoveryRatePerHour / (1000 * 60 * 60)
    min config.maxScore (state.score + recoveredPoints)

def getScore (now : ℤ) (accountId provider : String) (model : Option String) :
    Script StateFile (Record HealthScoreState × ℤ) := do
  let scores ← loadFromFile legacy
  pure (scores, scoreAt config now (scores.lookup (makeKey provider accountId model)))

def rewarded (now current : ℤ) : HealthScoreState where
  score := min config.maxScore (current + config.successReward)
  lastUpdated := now
  lastSuccess := now
  consecutiveFailures := 0

def penalized (penalty now current : ℤ) (state : Option HealthScoreState) : HealthScoreState where
  score := max 0 (current + penalty)
  lastUpdated := now
  lastSuccess := (state.map (·.lastSuccess)).getD 0
  consecutiveFailures := (state.map (·.consecutiveFailures)).getD 0 + 1

def recordSuccess (now : ℤ) (accountId provider : String) (model : Option String) :
    Script StateFile Unit := do
  let _ ← loadFromFile legacy
  let key := makeKey provider accountId model
  -- `getScore` loads the scores again, and these are the ones that are persisted
  let loaded ← getScore legacy config now accountId provider model
  persistToFile legacy (loaded.1.insert key (rewarded config now loaded.2))

def recordPenalty (penalty now : ℤ) (accountId provider : String) (model : Option String) :
    Script StateFile Unit := do
  let scores ← loadFromFile legacy
  let key := makeKey provider accountId model
  let state := scores.lookup key
  let loaded ← getScore legacy config now accountId provider model
  persistToFile legacy (loaded.1.insert key (penalized penalty now loaded.2 state))

def recordRateLimit (now : ℤ) (accountId provider : String) (model : Option String) :
    Script StateFile Unit :=
  recordPenalty legacy config config.rateLimitPenalty now accountId provider model

def recordFailure (now : ℤ) (accountId provider : String) (model : Option String) :
    Script StateFile Unit :=
  recordPenalty legacy config config.failurePenalty now accountId provider model

def getConsecutiveFailures (accountId provider : String) (model : Option String) :
    Script StateFile ℕ := do
  let scores ← loadFromFile legacy
  let key := makeKey provider accountId model
  pure (((scores.lookup key).map (·.consecutiveFailures)).getD 0)

/-! ### What the methods do, when nobody else is at the file -/

variable {legacy config} {now penalty : ℤ} {accountId provider : String} {model : Option String}
  {file : StateFile}

def entryAt (legacy : LegacyFiles) (file : StateFile) (key : String) : Option HealthScoreState :=
  (stateOf legacy file).accountHealth.lookup key

/-- **A success replaces one entry**, and nothing else in the file. -/
theorem view_recordSuccess :
    view legacy ((recordSuccess legacy config now accountId provider model).run file).2 =
      let key := makeKey provider accountId model
      (view legacy file).set (.health key)
        (some (.health (rewarded config now (scoreAt config now (entryAt legacy file key))))) := by
  simp [recordSuccess, loadFromFile, getScore, persistToFile, entry_insert_health]
  rfl

theorem view_recordPenalty :
    view legacy ((recordPenalty legacy config penalty now accountId provider model).run file).2 =
      let key := makeKey provider accountId model
      let state := entryAt legacy file key
      (view legacy file).set (.health key)
        (some (.health (penalized penalty now (scoreAt config now state) state))) := by
  simp [recordPenalty, loadFromFile, getScore, persistToFile, entry_insert_health]
  rfl

theorem run_getConsecutiveFailures :
    ((getConsecutiveFailures legacy accountId provider model).run file).1 =
        ((entryAt legacy file (makeKey provider accountId model)).map
          (·.consecutiveFailures)).getD 0 ∧
      stateOf legacy ((getConsecutiveFailures legacy accountId provider model).run file).2 =
        stateOf legacy file := by
  simp [getConsecutiveFailures, loadFromFile, entryAt]

end HealthScoreTracker

end OpenCms.Rotation
