import OpenCms.Lib.Script
import Mathlib.Data.Finmap
import Mathlib.Data.Rat.Defs
import Mathlib.Algebra.Order.Ring.Rat

/-!
# The rotation state

All that rotation remembers is in one file, `rotation-state.json`: how healthy an account
is, which limits it has run into, and how often it has failed on a day. Each tracker owns one
section of it, and all of them read and write the file as a whole.

`OpenCms.Rotation.readUnifiedState` falls back to the two files of former versions, and
to an empty state when it cannot read what is there. `OpenCms.Rotation.Store` is the state
without the file: a value at each slot.
-/

namespace OpenCms.Rotation

/-- A JavaScript object that is used as a map. (Assigning to `__proto__` is left out.) -/
abbrev Record (V : Type) := Finmap fun _ : String => V

/-- `ModelVector`, a point of the space that rotation moves in. -/
structure ModelVector where
  providerId : String
  accountId : String
  modelID : String
  deriving DecidableEq

inductive RateLimitReason
  | quotaExhausted
  | rateLimitExceeded
  | rateLimitShort
  | rateLimitLong
  | serviceUnavailable503
  | siteOverloaded529
  | modelCapacityExhausted
  | serverError
  | authFailed
  | tokenRefreshFailed
  | badRequest
  | unknown
  | http (status : ℤ)
  deriving DecidableEq

/-- `HealthScoreState`. Times are milliseconds since the epoch. -/
structure HealthScoreState where
  score : ℤ
  lastUpdated : ℤ
  lastSuccess : ℤ
  consecutiveFailures : ℕ
  deriving DecidableEq

structure RateLimitState where
  resetTime : ℚ
  reason : RateLimitReason
  model : Option String
  deriving DecidableEq

/-- An entry of `dailyRateLimitCounts`. -/
structure DailyRateLimitCount where
  count : ℕ
  lastReset : ℤ
  deriving DecidableEq

structure SameProviderRotationCooldownState where
  «until» : ℚ
  rotatedAt : ℤ
  fromAccountId : String
  toAccountId : String
  modelID : String
  deriving DecidableEq

structure UnifiedRotationState where
  version : ℤ
  accountHealth : Record HealthScoreState
  rateLimits : Record (Record RateLimitState)
  dailyRateLimitCounts : Record DailyRateLimitCount
  sameProviderRotationCooldowns : Record SameProviderRotationCooldownState

/-- What the trackers make do with when there is nothing to read. -/
def UnifiedRotationState.initial : UnifiedRotationState := ⟨1, ∅, ∅, ∅, ∅⟩

/-- What `JSON.parse` makes of the file: any of the fields may be missing. -/
structure ParsedState where
  version : Option ℤ
  accountHealth : Option (Record HealthScoreState)
  rateLimits : Option (Record (Record RateLimitState))
  dailyRateLimitCounts : Option (Record DailyRateLimitCount)
  sameProviderRotationCooldowns : Option (Record SameProviderRotationCooldownState)

def ParsedState.state (data : ParsedState) : UnifiedRotationState where
  version := data.version.getD 1
  accountHealth := data.accountHealth.getD ∅
  rateLimits := data.rateLimits.getD ∅
  dailyRateLimitCounts := data.dailyRateLimitCounts.getD ∅
  sameProviderRotationCooldowns := data.sameProviderRotationCooldowns.getD ∅

/-- `rotation-state.json`. The text of a garbled file still holds some entries, but it does
not parse. -/
inductive StateFile
  | absent
  | garbled (held : UnifiedRotationState)
  | json (data : ParsedState)

def stringify (state : UnifiedRotationState) : StateFile :=
  .json ⟨state.version, state.accountHealth, state.rateLimits, state.dailyRateLimitCounts,
    state.sameProviderRotationCooldowns⟩

/-- `rate-limits.json` and `account-health.json`, as far as they are there and parse. Nothing
writes them any more. -/
structure LegacyFiles where
  rateLimits : Option (Record (Record RateLimitState))
  accountHealth : Option (Record HealthScoreState)

def LegacyFiles.state (legacy : LegacyFiles) : UnifiedRotationState :=
  { UnifiedRotationState.initial with
    rateLimits := legacy.rateLimits.getD ∅
    accountHealth := legacy.accountHealth.getD ∅ }

def LegacyFiles.Migrates (legacy : LegacyFiles) : Prop :=
  legacy.state.rateLimits ≠ ∅ ∨ legacy.state.accountHealth ≠ ∅

instance (legacy : LegacyFiles) : Decidable legacy.Migrates :=
  inferInstanceAs (Decidable (_ ∨ _))

def writeUnifiedState (state : UnifiedRotationState) : Script StateFile Unit :=
  .write (stringify state) (.done ())

def readUnifiedState (legacy : LegacyFiles) : Script StateFile UnifiedRotationState :=
  .read fun
    | .json data => .done data.state
    | .garbled _ => .done UnifiedRotationState.initial
    | .absent =>
      -- the migration is completed by writing what there was
      if legacy.Migrates then
        (writeUnifiedState legacy.state).bind fun _ => .done legacy.state
      else
        .done legacy.state

variable {legacy : LegacyFiles}

def stateOf (legacy : LegacyFiles) : StateFile → UnifiedRotationState
  | .json data => data.state
  | .garbled _ => UnifiedRotationState.initial
  | .absent => legacy.state

@[simp] theorem stateOf_stringify (state : UnifiedRotationState) :
    stateOf legacy (stringify state) = state := rfl

/-! ### The state as a store -/

/-- A place of the state that holds one entry. -/
inductive Slot
  | health (key : String)
  | limit (key modelKey : String)
  | daily (key : String)
  | cooldown (key : String)
  deriving DecidableEq

inductive Entry
  | health (entry : HealthScoreState)
  | limit (entry : RateLimitState)
  | daily (entry : DailyRateLimitCount)
  | cooldown (entry : SameProviderRotationCooldownState)
  deriving DecidableEq

/-- The state, without the file it is kept in. -/
abbrev Store := Slot → Option Entry

def UnifiedRotationState.entry (state : UnifiedRotationState) : Store
  | .health key => (state.accountHealth.lookup key).map .health
  | .limit key modelKey =>
    ((state.rateLimits.lookup key).bind (·.lookup modelKey)).map .limit
  | .daily key => (state.dailyRateLimitCounts.lookup key).map .daily
  | .cooldown key => (state.sameProviderRotationCooldowns.lookup key).map .cooldown

def Store.set (store : Store) (slot : Slot) (entry : Option Entry) : Store :=
  Function.update store slot entry

@[simp] theorem Store.set_self (store : Store) (slot : Slot) (entry : Option Entry) :
    store.set slot entry slot = entry := Function.update_self ..

theorem Store.set_of_ne {store : Store} {slot slot' : Slot} {entry : Option Entry}
    (h : slot' ≠ slot) : store.set slot entry slot' = store slot' := Function.update_of_ne h ..

theorem Store.eq_set {store store' : Store} {slot : Slot} {entry : Option Entry}
    (hself : store slot = entry) (hother : ∀ slot' ≠ slot, store slot' = store' slot') :
    store = store'.set slot entry := by
  funext slot'
  rcases eq_or_ne slot' slot with rfl | hne
  · rw [Store.set_self, hself]
  · rw [Store.set_of_ne hne, hother slot' hne]

/-- A section of the state is replaced. -/
def UnifiedRotationState.withHealth (state : UnifiedRotationState)
    (scores : Record HealthScoreState) : UnifiedRotationState :=
  { state with accountHealth := scores }

@[inherit_doc UnifiedRotationState.withHealth]
def UnifiedRotationState.withLimits (state : UnifiedRotationState)
    (limits : Record (Record RateLimitState)) : UnifiedRotationState :=
  { state with rateLimits := limits }

@[inherit_doc UnifiedRotationState.withHealth]
def UnifiedRotationState.withDaily (state : UnifiedRotationState)
    (counts : Record DailyRateLimitCount) : UnifiedRotationState :=
  { state with dailyRateLimitCounts := counts }

def view (legacy : LegacyFiles) (file : StateFile) : Store := (stateOf legacy file).entry

/-- What the file's text holds, whether it parses or not. -/
def held (legacy : LegacyFiles) : StateFile → Store
  | .garbled held => held.entry
  | file => view legacy file

def StateFile.Parses : StateFile → Prop
  | .garbled _ => False
  | _ => True

instance : DecidablePred StateFile.Parses
  | .garbled _ => isFalse id
  | .absent => isTrue trivial
  | .json _ => isTrue trivial

theorem held_eq_view {file : StateFile} (h : file.Parses) :
    held legacy file = view legacy file := by
  cases file with
  | garbled _ => exact h.elim
  | absent => rfl
  | json _ => rfl

@[simp] theorem held_stringify (state : UnifiedRotationState) :
    held legacy (stringify state) = state.entry := rfl

@[simp] theorem view_stringify (state : UnifiedRotationState) :
    view legacy (stringify state) = state.entry := rfl

/-! ### Reading -/

/-- **A read is of what the file holds**, and leaves it held. -/
theorem run_readUnifiedState (file : StateFile) :
    ((readUnifiedState legacy).run file).1 = stateOf legacy file ∧
      stateOf legacy ((readUnifiedState legacy).run file).2 = stateOf legacy file := by
  cases file with
  | json data => exact ⟨rfl, rfl⟩
  | garbled _ => exact ⟨rfl, rfl⟩
  | absent =>
    unfold readUnifiedState
    rw [Script.run_read]
    dsimp only
    split
    · exact ⟨rfl, stateOf_stringify _⟩
    · exact ⟨rfl, rfl⟩

@[simp] theorem run_readUnifiedState_fst (file : StateFile) :
    ((readUnifiedState legacy).run file).1 = stateOf legacy file :=
  (run_readUnifiedState file).1

@[simp] theorem stateOf_run_readUnifiedState (file : StateFile) :
    stateOf legacy ((readUnifiedState legacy).run file).2 = stateOf legacy file :=
  (run_readUnifiedState file).2

@[simp] theorem run_writeUnifiedState (state : UnifiedRotationState) (file : StateFile) :
    (writeUnifiedState state).run file = ((), stringify state) := rfl

theorem trace_readUnifiedState {seen : List StateFile}
    {rest : Script StateFile UnifiedRotationState}
    (h : (readUnifiedState legacy).Trace seen rest) :
    (seen = [] ∧ rest = readUnifiedState legacy) ∨
      (seen = [.absent] ∧ legacy.Migrates ∧
          rest = .write (stringify legacy.state) (.done legacy.state)) ∨
        ∃ file, seen = [file] ∧ rest = .done (stateOf legacy file) := by
  induction h with
  | start => exact Or.inl ⟨rfl, rfl⟩
  | read c _ ih =>
    rcases ih with ⟨rfl, heq⟩ | ⟨-, -, heq⟩ | ⟨file, -, heq⟩
    · obtain rfl := Script.read.inj heq
      refine Or.inr ?_
      cases c with
      | json data => exact Or.inr ⟨_, rfl, rfl⟩
      | garbled held => exact Or.inr ⟨_, rfl, rfl⟩
      | absent =>
        split
        next h => exact Or.inl ⟨rfl, h, rfl⟩
        next => exact Or.inr ⟨_, rfl, rfl⟩
    · cases heq
    · cases heq
  | write _ ih =>
    rcases ih with ⟨-, heq⟩ | ⟨rfl, -, heq⟩ | ⟨file, -, heq⟩
    · cases heq
    · cases heq
      exact Or.inr (Or.inr ⟨.absent, rfl, rfl⟩)
    · cases heq

theorem trace_readUnifiedState_bind {α : Type} {f : UnifiedRotationState → Script StateFile α}
    {seen : List StateFile} {rest : Script StateFile α}
    (h : ((readUnifiedState legacy).bind f).Trace seen rest) :
    (seen = [] ∧ rest = (readUnifiedState legacy).bind f) ∨
      (seen = [.absent] ∧ legacy.Migrates ∧
          rest = .write (stringify legacy.state) (f legacy.state)) ∨
        ∃ file seen', seen = file :: seen' ∧ (f (stateOf legacy file)).Trace seen' rest := by
  rcases h.of_bind with ⟨rest', hread, rfl⟩ | ⟨seen₁, seen₂, state, rfl, hread, hrest⟩
  · rcases trace_readUnifiedState hread with ⟨rfl, rfl⟩ | ⟨rfl, hmig, rfl⟩ | ⟨file, rfl, rfl⟩
    · exact Or.inl ⟨rfl, rfl⟩
    · exact Or.inr (Or.inl ⟨rfl, hmig, rfl⟩)
    · exact Or.inr (Or.inr ⟨file, [], rfl, .start⟩)
  · rcases trace_readUnifiedState hread with ⟨-, heq⟩ | ⟨-, -, heq⟩ | ⟨file, rfl, heq⟩
    · cases heq
    · cases heq
    · cases heq
      exact Or.inr (Or.inr ⟨file, seen₂, rfl, hrest⟩)

/-! ### Writing

Each of these says which slot an edit of a section changes, and to what. -/

section Edits

variable (state : UnifiedRotationState) (key modelKey : String)

theorem entry_insert_health (scores : Record HealthScoreState) (v : HealthScoreState) :
    (state.withHealth (scores.insert key v)).entry =
      (state.withHealth scores).entry.set (.health key) (some (.health v)) := by
  refine Store.eq_set ?_ fun slot hne => ?_
  · simp [UnifiedRotationState.entry, UnifiedRotationState.withHealth]
  · cases slot with
    | health k =>
      have hk : k ≠ key := fun h => hne (congrArg Slot.health h)
      simp [UnifiedRotationState.entry, UnifiedRotationState.withHealth,
        Finmap.lookup_insert_of_ne _ hk]
    | limit _ _ | daily _ | cooldown _ => rfl

theorem entry_insert_daily (counts : Record DailyRateLimitCount) (v : DailyRateLimitCount) :
    (state.withDaily (counts.insert key v)).entry =
      (state.withDaily counts).entry.set (.daily key) (some (.daily v)) := by
  refine Store.eq_set ?_ fun slot hne => ?_
  · simp [UnifiedRotationState.entry, UnifiedRotationState.withDaily]
  · cases slot with
    | daily k =>
      have hk : k ≠ key := fun h => hne (congrArg Slot.daily h)
      simp [UnifiedRotationState.entry, UnifiedRotationState.withDaily,
        Finmap.lookup_insert_of_ne _ hk]
    | limit _ _ | health _ | cooldown _ => rfl

theorem entry_insert_limits {limits : Record (Record RateLimitState)}
    {inner : Record RateLimitState} {v : Option RateLimitState}
    (hself : inner.lookup modelKey = v)
    (hother : ∀ k ≠ modelKey, inner.lookup k = (limits.lookup key).bind (·.lookup k)) :
    (state.withLimits (limits.insert key inner)).entry =
      (state.withLimits limits).entry.set (.limit key modelKey) (v.map .limit) := by
  refine Store.eq_set ?_ fun slot hne => ?_
  · simp [UnifiedRotationState.entry, UnifiedRotationState.withLimits, hself]
  · cases slot with
    | limit k m =>
      rcases eq_or_ne k key with rfl | hk
      · have hm : m ≠ modelKey := fun h => hne (by rw [h])
        simp [UnifiedRotationState.entry, UnifiedRotationState.withLimits, hother m hm]
      · simp [UnifiedRotationState.entry, UnifiedRotationState.withLimits,
          Finmap.lookup_insert_of_ne _ hk]
    | health _ | daily _ | cooldown _ => rfl

end Edits

end OpenCms.Rotation
