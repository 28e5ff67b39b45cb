import OpenCms.Rotation.RateLimitViews
import Mathlib.Algebra.Order.Ring.Cast
import Mathlib.Data.Finset.Sort
import Mathlib.Data.String.Basic

/-!
# Clearing the cooldown of an account

`clearAccountCooldown` lifts what keeps an account at a provider from being used. The limits of its
models are found by reading their keys in a snapshot, which cuts them at their first colon, and the
counters by looking for the id and the provider anywhere in their keys. So a limit stays whose key
is cut at the wrong place, and a counter of another account goes whose id has this one inside it.
`OpenCms.Rotation.RateLimitTracker.cooldown_cleared_iff` says when neither happens.
-/

namespace OpenCms.Rotation.RateLimitTracker

variable (legacy : LegacyFiles)

/-! ### Counters and snapshots -/

/-- What a counter says at a time: it begins again with the day. -/
def countAt (now : ℤ) : Option DailyRateLimitCount → ℕ
  | none => 0
  | some counter => if counter.lastReset < getQuotaDayStart now then 0 else counter.count

def getDailyFailureCount (now : ℤ) (accountId provider : String) (model : Option String) :
    Script StateFile ℕ := do
  let state ← readUnifiedState legacy
  pure (countAt now (state.dailyRateLimitCounts.lookup (dailyKey provider accountId model)))

def beforeColon (key : String) : String := String.ofList (key.toList.takeWhile (· ≠ ':'))

def afterColon (key : String) : Option String :=
  if ':' ∈ key.toList then some (String.ofList ((key.toList.dropWhile (· ≠ ':')).drop 1)) else none

structure SnapshotEntry where
  accountId : String
  providerId : String
  modelID : Option String
  waitMs : ℚ
  reason : RateLimitReason
  deriving DecidableEq

def entryOf (now : ℤ) (key innerKey : String) (state : RateLimitState) : SnapshotEntry where
  accountId := (afterColon key).getD key
  providerId := beforeColon innerKey
  modelID := (afterColon innerKey).or state.model
  waitMs := state.resetTime - now
  reason := state.reason

def entriesOf (now : ℤ) (key : String) (providerLimits : Record RateLimitState) :
    List SnapshotEntry :=
  providerLimits.keys.sort.filterMap fun innerKey =>
    ((providerLimits.lookup innerKey).filter (isLive now ∘ some)).map (entryOf now key innerKey)

def snapshotLoop (now : ℤ) :
    List String → Record (Record RateLimitState) → Script StateFile (List SnapshotEntry)
  | [], _ => pure []
  | key :: keys, limits => do
    let entries := entriesOf now key ((limits.lookup key).getD ∅)
    let limits ← clearExpired legacy now limits key
    let rest ← snapshotLoop now keys limits
    pure (entries ++ rest)

/-- `getSnapshot3D`. The language goes through a map in the order in which it was filled; here the
keys are in their own order. -/
def getSnapshot3D (now : ℤ) : Script StateFile (List SnapshotEntry) := do
  let limits ← loadFromFile legacy
  snapshotLoop legacy now limits.keys.sort limits

/-! ### Clearing -/

def SnapshotEntry.IsOf (entry : SnapshotEntry) (accountId provider : String) : Prop :=
  entry.accountId = accountId ∧ entry.providerId = provider ∧ entry.modelID.filter (· ≠ "") ≠ none

instance (entry : SnapshotEntry) (accountId provider : String) :
    Decidable (entry.IsOf accountId provider) := inferInstanceAs (Decidable (_ ∧ _ ∧ _))

def clearEntries (accountId provider : String) : List SnapshotEntry → Script StateFile Unit
  | [] => pure ()
  | entry :: entries => do
    if entry.IsOf accountId provider then clear legacy accountId provider entry.modelID
    clearEntries accountId provider entries

def keyIncludes (key text : String) : Bool := decide (text.toList <:+: key.toList)

def Mentions (accountId provider key : String) : Prop :=
  keyIncludes key accountId ∧ keyIncludes key provider

instance (accountId provider key : String) : Decidable (Mentions accountId provider key) :=
  inferInstanceAs (Decidable (_ ∧ _))

def removeMentions (accountId provider : String) (counts : Record DailyRateLimitCount) :
    Record DailyRateLimitCount :=
  let keysToRemove := counts.keys.sort.filter fun key => Mentions accountId provider key
  keysToRemove.foldl (fun counts key => counts.erase key) counts

def clearAccountCooldown (config : HealthScoreConfig) (now : ℤ) (provider accountId : String) :
    Script StateFile Unit := do
  clear legacy accountId provider none
  let snapshot ← getSnapshot3D legacy now
  clearEntries legacy accountId provider snapshot
  HealthScoreTracker.recordSuccess legacy config now accountId provider none
  let unified ← readUnifiedState legacy
  writeUnifiedState
    (unified.withDaily (removeMentions accountId provider unified.dailyRateLimitCounts))

/-! ### What is asked for -/

variable {legacy} {now later : ℤ} {file file' : StateFile} {accountId provider key innerKey : String}
  {model : Option String} {limits : Record (Record RateLimitState)}

def dailyAt (legacy : LegacyFiles) (file : StateFile) (key : String) : Option DailyRateLimitCount :=
  (stateOf legacy file).dailyRateLimitCounts.lookup key

def dailyCount (legacy : LegacyFiles) (now : ℤ) (file : StateFile) (accountId provider : String)
    (model : Option String) : ℕ :=
  ((getDailyFailureCount legacy now accountId provider model).run file).1

/-- **The cooldown is cleared**, from one file to another: the account is not limited and not
counted for any model, and the limits and the counts of all others are what they were. -/
structure CooldownCleared (legacy : LegacyFiles) (now : ℤ) (file file' : StateFile)
    (accountId provider : String) : Prop where
  unlimited : ∀ model, ((isRateLimited legacy now accountId provider model).run file').1 = false
  uncounted : ∀ model, dailyCount legacy now file' accountId provider model = 0
  framed : ∀ accountId' provider', (accountId', provider') ≠ (accountId, provider) → ∀ model,
    looked legacy now file' accountId' provider' model =
        looked legacy now file accountId' provider' model ∧
      dailyCount legacy now file' accountId' provider' model =
        dailyCount legacy now file accountId' provider' model

def Listed (legacy : LegacyFiles) (now : ℤ) (file : StateFile) (accountId provider model : String) :
    Prop :=
  model ≠ "" ∧ ∃ key innerKey limit, (key, innerKey) ≠ (makeKey provider accountId, provider) ∧
    liveLimit legacy now file key innerKey = some limit ∧ (afterColon key).getD key = accountId ∧
    beforeColon innerKey = provider ∧ (afterColon innerKey).or limit.model = some model

def ClearedKey (legacy : LegacyFiles) (now : ℤ) (file : StateFile)
    (accountId provider innerKey : String) : Prop :=
  innerKey = provider ∨
    ∃ model, Listed legacy now file accountId provider model ∧ innerKey = provider ++ ":" ++ model

/-- **When a cooldown can be cleared**, at a time when limits are looked up later: every model that
is limited is read as one of the account; no other account has a limit under one of the keys that
are cleared; and no counter of another one mentions the account and the provider. -/
structure Clearable (legacy : LegacyFiles) (now later : ℤ) (file : StateFile)
    (accountId provider : String) : Prop where
  listed : ∀ model ≠ "",
    liveLimit legacy later file (makeKey provider accountId) (provider ++ ":" ++ model) ≠ none →
      Listed legacy now file accountId provider model
  unshared : ∀ accountId' provider', (accountId', provider') ≠ (accountId, provider) →
    makeKey provider' accountId' = makeKey provider accountId → ∀ innerKey,
      liveLimit legacy later file (makeKey provider accountId) innerKey ≠ none →
        ClearedKey legacy now file accountId provider innerKey →
          innerKey ≠ provider' ∧ ∀ model ≠ "", innerKey ≠ provider' ++ ":" ++ model
  unmentioned : ∀ accountId' provider', (accountId', provider') ≠ (accountId, provider) →
    ∀ model, dailyCount legacy later file accountId' provider' model ≠ 0 →
      ¬Mentions accountId provider (dailyKey provider' accountId' model)

/-! ### What the parts do -/

section Parts

theorem dailyCount_eq :
    dailyCount legacy now file accountId provider model =
      countAt now (dailyAt legacy file (dailyKey provider accountId model)) := by
  simp [dailyCount, getDailyFailureCount, dailyAt]

theorem isLive_of_le {limit : RateLimitState} (hle : now ≤ later)
    (h : isLive later (some limit) = true) : isLive now (some limit) = true := by
  have hlater : (later : ℚ) < limit.resetTime := of_decide_eq_true h
  exact decide_eq_true (lt_of_le_of_lt (Int.cast_le.mpr hle) hlater)

theorem filter_isLive_filter {limit : Option RateLimitState} (hle : now ≤ later) :
    (limit.filter (isLive now ∘ some)).filter (isLive later ∘ some) =
      limit.filter (isLive later ∘ some) := by
  rw [Option.filter_filter]
  cases limit with
  | none => rfl
  | some limit =>
    have hand : (isLive now (some limit) && isLive later (some limit)) =
        isLive later (some limit) := by
      cases h : isLive later (some limit) with
      | false => exact Bool.and_false _
      | true => rw [isLive_of_le hle h, Bool.and_true]
    simp only [Option.filter_some, Function.comp_apply, hand]

theorem liveLimit_of_view_none (h : view legacy file (.limit key innerKey) = none) :
    liveLimit legacy now file key innerKey = none := by
  rw [liveLimit, Option.map_eq_none_iff.mp h]
  rfl

theorem dailyAt_congr (h : view legacy file' (.daily key) = view legacy file (.daily key)) :
    dailyAt legacy file' key = dailyAt legacy file key := by
  have hinj : Function.Injective Entry.daily := fun _ _ heq => Entry.daily.inj heq
  exact Option.map_injective hinj h

theorem run_clearExpired (hlimits : (stateOf legacy file).rateLimits = limits) :
    let cleared := (clearExpired legacy now limits key).run file
    (stateOf legacy cleared.2).rateLimits = cleared.1 ∧
      (stateOf legacy cleared.2).dailyRateLimitCounts =
        (stateOf legacy file).dailyRateLimitCounts ∧
      ∀ key' innerKey, ((cleared.1.lookup key').bind (·.lookup innerKey)).filter
          (isLive now ∘ some) =
        ((limits.lookup key').bind (·.lookup innerKey)).filter (isLive now ∘ some) := by
  have hfile : (stateOf legacy ((clearExpired legacy now limits key).run file).2).rateLimits =
        ((clearExpired legacy now limits key).run file).1 ∧
      (stateOf legacy ((clearExpired legacy now limits key).run file).2).dailyRateLimitCounts =
        (stateOf legacy file).dailyRateLimitCounts := by
    unfold clearExpired
    split
    · exact ⟨hlimits, rfl⟩
    · dsimp only
      split_ifs
      · simp [persistToFile, UnifiedRotationState.withLimits]
      · simp [persistToFile, UnifiedRotationState.withLimits]
      · exact ⟨hlimits, rfl⟩
  refine ⟨hfile.1, hfile.2, fun key' innerKey => ?_⟩
  rcases eq_or_ne key' key with rfl | hne
  · rw [clearExpired_lookup, filter_isLive_filter le_rfl]
  · have hsame : ((clearExpired legacy now limits key).run file).1.lookup key' =
        limits.lookup key' := by
      unfold clearExpired
      split
      · rfl
      · dsimp only
        split_ifs
        · simp [persistToFile, Finmap.lookup_erase_ne hne]
        · simp [persistToFile, Finmap.lookup_insert_of_ne _ hne]
        · rfl
    rw [hsame]

theorem run_snapshotLoop (hle : now ≤ later) {keys : List String}
    (hlimits : (stateOf legacy file).rateLimits = limits) :
    let snapshot := (snapshotLoop legacy now keys limits).run file
    liveLimit legacy later snapshot.2 = liveLimit legacy later file ∧
      dailyAt legacy snapshot.2 = dailyAt legacy file ∧
      ∀ entry, entry ∈ snapshot.1 ↔ ∃ key ∈ keys, ∃ innerKey limit,
        liveLimit legacy now file key innerKey = some limit ∧
          entryOf now key innerKey limit = entry := by
  induction keys generalizing file limits with
  | nil =>
    refine ⟨rfl, rfl, fun entry => ?_⟩
    simp [snapshotLoop]
  | cons key keys ih =>
    obtain ⟨hcleared, hdaily, hlive⟩ := @run_clearExpired _ now _ key _ hlimits
    obtain ⟨hlater, hsame, hlisted⟩ := ih hcleared
    have hkept : ∀ now', now ≤ now' → liveLimit legacy now'
        ((clearExpired legacy now limits key).run file).2 = liveLimit legacy now' file := by
      intro now' hle
      funext key' innerKey
      unfold liveLimit
      rw [hcleared, hlimits, ← filter_isLive_filter hle, hlive, filter_isLive_filter hle]
    have hentries : ∀ entry, entry ∈ entriesOf now key ((limits.lookup key).getD ∅) ↔
        ∃ innerKey limit, liveLimit legacy now file key innerKey = some limit ∧
          entryOf now key innerKey limit = entry := by
      intro entry
      have hlookup : ∀ innerKey, (((limits.lookup key).getD ∅).lookup innerKey) =
          (limits.lookup key).bind (·.lookup innerKey) := by
        intro innerKey
        cases limits.lookup key with
        | none => exact Finmap.lookup_empty innerKey
        | some inner => rfl
      unfold entriesOf liveLimit
      simp only [List.mem_filterMap, Finset.mem_sort, Finmap.mem_keys, Option.map_eq_some_iff,
        hlookup, hlimits]
      constructor
      · rintro ⟨innerKey, -, limit, hlimit, hentry⟩
        exact ⟨innerKey, limit, hlimit, hentry⟩
      · rintro ⟨innerKey, limit, hlimit, hentry⟩
        refine ⟨innerKey, Finmap.mem_of_lookup_eq_some (b := limit) ?_, limit, hlimit, hentry⟩
        rw [hlookup]
        exact (Option.filter_eq_some_iff.mp hlimit).1
    simp only [snapshotLoop, Script.bind_eq, Script.pure_eq, Script.run_bind, Script.run_done]
    refine ⟨hlater.trans (hkept later hle), hsame.trans ?_, fun entry => ?_⟩
    · funext key'
      rw [dailyAt, hdaily, dailyAt]
    · simp only [List.mem_append, hentries, hlisted, hkept now le_rfl, List.mem_cons,
        exists_eq_or_imp]

/-- **A snapshot lists the limits that have not expired**, and changes none of them. -/
theorem run_getSnapshot3D (hle : now ≤ later) :
    let snapshot := (getSnapshot3D legacy now).run file
    liveLimit legacy later snapshot.2 = liveLimit legacy later file ∧
      dailyAt legacy snapshot.2 = dailyAt legacy file ∧
      ∀ entry, entry ∈ snapshot.1 ↔ ∃ key innerKey limit,
        liveLimit legacy now file key innerKey = some limit ∧
          entryOf now key innerKey limit = entry := by
  have hread : stateOf legacy ((readUnifiedState legacy).run file).2 = stateOf legacy file :=
    stateOf_run_readUnifiedState file
  obtain ⟨hlater, hdaily, hlisted⟩ := @run_snapshotLoop _ now _ _ _ hle
    (stateOf legacy file).rateLimits.keys.sort (congrArg _ hread)
  have hlive : ∀ now', liveLimit legacy now' ((readUnifiedState legacy).run file).2 =
      liveLimit legacy now' file := by
    intro now'
    funext key innerKey
    rw [liveLimit, hread, liveLimit]
  simp only [getSnapshot3D, loadFromFile, Script.bind_eq, Script.pure_eq, Script.run_bind,
    Script.run_done, run_readUnifiedState_fst]
  refine ⟨hlater.trans (hlive later), hdaily.trans ?_, fun entry => ?_⟩
  · funext key
    rw [dailyAt, hread, dailyAt]
  · rw [hlisted, hlive]
    constructor
    · rintro ⟨key, -, h⟩
      exact ⟨key, h⟩
    · rintro ⟨key, innerKey, limit, hlimit, hentry⟩
      refine ⟨key, ?_, innerKey, limit, hlimit, hentry⟩
      obtain ⟨inner, hinner, -⟩ := Option.bind_eq_some_iff.mp
        (Option.filter_eq_some_iff.mp hlimit).1
      rw [Finset.mem_sort, Finmap.mem_keys]
      exact Finmap.mem_of_lookup_eq_some hinner

theorem view_clearEntries {entries : List SnapshotEntry} (slot : Slot) :
    view legacy ((clearEntries legacy accountId provider entries).run file).2 slot =
      if ∃ entry ∈ entries, entry.IsOf accountId provider ∧
          slot = .limit (makeKey provider accountId) (modelKey provider entry.modelID) then none
      else view legacy file slot := by
  induction entries generalizing file with
  | nil => rfl
  | cons entry entries ih =>
    unfold clearEntries
    split
    next hof =>
      simp only [Script.bind_eq, Script.run_bind, List.exists_mem_cons_iff, hof, true_and]
      rw [ih, view_clear]
      rcases eq_or_ne slot (.limit (makeKey provider accountId) (modelKey provider entry.modelID))
        with rfl | hne
      · rw [Store.set_self, if_pos (Or.inl rfl), ite_self]
      · simp only [Store.set_of_ne hne, hne, false_or]
    next hof =>
      simp only [List.exists_mem_cons_iff, hof, false_and, false_or]
      exact ih

theorem lookup_foldl_erase {counts : Record DailyRateLimitCount} {keys : List String}
    (key : String) :
    (keys.foldl (fun counts key => counts.erase key) counts).lookup key =
      if key ∈ keys then none else counts.lookup key := by
  induction keys generalizing counts with
  | nil => rfl
  | cons first keys ih =>
    rw [List.foldl_cons, ih]
    rcases eq_or_ne key first with rfl | hne
    · simp [Finmap.lookup_erase]
    · simp [hne, Finmap.lookup_erase_ne hne]

theorem lookup_removeMentions {counts : Record DailyRateLimitCount} (key : String) :
    (removeMentions accountId provider counts).lookup key =
      if Mentions accountId provider key then none else counts.lookup key := by
  unfold removeMentions
  rw [lookup_foldl_erase]
  simp only [List.mem_filter, Finset.mem_sort, Finmap.mem_keys, decide_eq_true_eq]
  by_cases hmem : key ∈ counts
  · simp only [hmem, true_and]
  · simp [hmem, Finmap.lookup_eq_none.mpr hmem]

theorem liveLimit_clear :
    liveLimit legacy now ((clear legacy accountId provider model).run file).2 key innerKey =
      if (key, innerKey) = (makeKey provider accountId, modelKey provider model) then none
      else liveLimit legacy now file key innerKey := by
  split
  next h =>
    obtain ⟨rfl, rfl⟩ := Prod.mk.inj h
    exact liveLimit_of_view_none (by rw [view_clear, Store.set_self])
  next h =>
    refine liveLimit_congr ?_
    rw [view_clear, Store.set_of_ne]
    rintro heq
    obtain ⟨rfl, rfl⟩ := Slot.limit.inj heq
    exact h rfl

theorem dailyAt_clear :
    dailyAt legacy ((clear legacy accountId provider model).run file).2 = dailyAt legacy file := by
  funext key
  refine dailyAt_congr ?_
  rw [view_clear]
  exact Store.set_of_ne nofun

theorem filter_ne_none_iff {model : Option String} :
    model.filter (· ≠ "") ≠ none ↔ ∃ m, m ≠ "" ∧ model = some m := by
  cases model with
  | none => simp
  | some m => simp [Option.filter_some]

/-- **The keys that the entries of a snapshot lead to** are those of the models that are read as
ones of the account. -/
theorem exists_isOf_iff {snapshot : List SnapshotEntry}
    (hsnapshot : ∀ entry, entry ∈ snapshot ↔ ∃ key innerKey limit,
      liveLimit legacy now ((clear legacy accountId provider none).run file).2 key innerKey =
          some limit ∧ entryOf now key innerKey limit = entry) :
    (∃ entry ∈ snapshot, entry.IsOf accountId provider ∧
        Slot.limit key innerKey =
          .limit (makeKey provider accountId) (modelKey provider entry.modelID)) ↔
      key = makeKey provider accountId ∧ ∃ model,
        Listed legacy now file accountId provider model ∧ innerKey = provider ++ ":" ++ model := by
  have hlive : ∀ key innerKey limit,
      liveLimit legacy now ((clear legacy accountId provider none).run file).2 key innerKey =
          some limit ↔
        (key, innerKey) ≠ (makeKey provider accountId, provider) ∧
          liveLimit legacy now file key innerKey = some limit := by
    intro key innerKey limit
    rw [liveLimit_clear, modelKey_of_none rfl]
    split <;> simp [*]
  constructor
  · rintro ⟨entry, hentry, ⟨haccount, hprovider, hmodel⟩, hslot⟩
    obtain ⟨key', innerKey', limit, hlimit, rfl⟩ := (hsnapshot entry).mp hentry
    obtain ⟨model, hne, hmodel⟩ := filter_ne_none_iff.mp hmodel
    obtain ⟨hother, hlimit⟩ := (hlive _ _ _).mp hlimit
    obtain ⟨rfl, rfl⟩ := Slot.limit.inj hslot
    refine ⟨rfl, model, ⟨hne, key', innerKey', limit, hother, hlimit, haccount, hprovider,
      hmodel⟩, ?_⟩
    rw [hmodel]
    exact modelKey_of_some (by simp [hne])
  · rintro ⟨rfl, model, ⟨hne, key', innerKey', limit, hother, hlimit, haccount, hprovider,
      hmodel⟩, rfl⟩
    refine ⟨entryOf now key' innerKey' limit,
      (hsnapshot _).mpr ⟨key', innerKey', limit, (hlive _ _ _).mpr ⟨hother, hlimit⟩, rfl⟩,
      ⟨haccount, hprovider, filter_ne_none_iff.mpr ⟨model, hne, hmodel⟩⟩, ?_⟩
    have hkey : modelKey provider (entryOf now key' innerKey' limit).modelID =
        provider ++ ":" ++ model := by
      have hid : (entryOf now key' innerKey' limit).modelID = some model := hmodel
      rw [hid]
      exact modelKey_of_some (by simp [hne])
    rw [hkey]

open Classical in
/-- **What is cleared**: limits of the account under the keys that are cleared, and counters that
mention it; and no other limit or counter. -/
theorem run_clearAccountCooldown {config : HealthScoreConfig} (hle : now ≤ later) :
    let cleared := ((clearAccountCooldown legacy config now provider accountId).run file).2
    (∀ key innerKey, liveLimit legacy later cleared key innerKey =
      if key = makeKey provider accountId ∧
          ClearedKey legacy now file accountId provider innerKey then none
      else liveLimit legacy later file key innerKey) ∧
    ∀ key, dailyAt legacy cleared key =
      if Mentions accountId provider key then none else dailyAt legacy file key := by
  simp only [clearAccountCooldown, Script.bind_eq, Script.run_bind, run_readUnifiedState_fst,
    run_writeUnifiedState]
  obtain ⟨hlater, hdaily, hsnapshot⟩ := @run_getSnapshot3D legacy now _
    ((clear legacy accountId provider none).run file).2 hle
  generalize hsnap : (getSnapshot3D legacy now).run
    ((clear legacy accountId provider none).run file).2 = snap at hlater hdaily hsnapshot ⊢
  have hentries := @view_clearEntries legacy snap.2 accountId provider snap.1
  generalize ((clearEntries legacy accountId provider snap.1).run snap.2).2 = cleared
    at hentries ⊢
  -- the health of the account is in a slot of its own
  have hhealth := @HealthScoreTracker.view_recordSuccess legacy config now accountId provider none
    cleared
  generalize ((HealthScoreTracker.recordSuccess legacy config now accountId provider none).run
    cleared).2 = rewarded at hhealth ⊢
  constructor
  · intro key innerKey
    have hkept : liveLimit legacy later rewarded key innerKey =
        liveLimit legacy later cleared key innerKey :=
      liveLimit_congr (by rw [hhealth]; exact Store.set_of_ne nofun)
    have hfinal : liveLimit legacy later (stringify ((stateOf legacy rewarded).withDaily
        (removeMentions accountId provider (stateOf legacy rewarded).dailyRateLimitCounts)))
          key innerKey = liveLimit legacy later rewarded key innerKey := rfl
    have hlisted := @exists_isOf_iff _ _ _ _ _ key innerKey _ hsnapshot
    have hview := hentries (.limit key innerKey)
    rw [if_congr hlisted rfl rfl] at hview
    rw [hfinal, hkept]
    by_cases hmodel : key = makeKey provider accountId ∧ ∃ model,
        Listed legacy now file accountId provider model ∧ innerKey = provider ++ ":" ++ model
    · rw [if_pos hmodel] at hview
      rw [liveLimit_of_view_none hview, if_pos ⟨hmodel.1, Or.inr hmodel.2⟩]
    · rw [if_neg hmodel] at hview
      rw [liveLimit_congr hview, hlater, liveLimit_clear, modelKey_of_none rfl]
      refine if_congr ?_ rfl rfl
      simp only [Prod.mk.injEq, ClearedKey, and_or_left, hmodel, or_false]
  · intro key
    have hkept : dailyAt legacy rewarded key = dailyAt legacy cleared key :=
      dailyAt_congr (by rw [hhealth]; exact Store.set_of_ne nofun)
    have hsame : dailyAt legacy cleared key = dailyAt legacy snap.2 key :=
      dailyAt_congr ((hentries (.daily key)).trans (if_neg fun ⟨_, _, _, h⟩ => nomatch h))
    have hfile : dailyAt legacy rewarded key = dailyAt legacy file key := by
      rw [hkept, hsame, hdaily, dailyAt_clear]
    rw [← hfile]
    exact lookup_removeMentions key

theorem mentions_dailyKey : Mentions accountId provider (dailyKey provider accountId model) := by
  unfold Mentions keyIncludes dailyKey
  split
  · next m _ =>
    constructor
    · refine decide_eq_true ⟨(provider ++ ":").toList, (":" ++ m).toList, ?_⟩
      simp
    · refine decide_eq_true (List.IsPrefix.isInfix ⟨(":" ++ accountId ++ ":" ++ m).toList, ?_⟩)
      simp
  · constructor
    · refine decide_eq_true (List.IsSuffix.isInfix ⟨(provider ++ ":").toList, ?_⟩)
      simp
    · refine decide_eq_true (List.IsPrefix.isInfix ⟨(":" ++ accountId).toList, ?_⟩)
      simp

theorem clearedKey_model {m : String} :
    ClearedKey legacy now file accountId provider (provider ++ ":" ++ m) ↔
      Listed legacy now file accountId provider m := by
  constructor
  · rintro (h | ⟨model, hlisted, h⟩)
    · have hlength := congrArg String.length h
      have hcolon : ":".length = 1 := rfl
      rw [String.length_append, String.length_append] at hlength
      omega
    · obtain rfl : m = model := by simpa using h
      exact hlisted
  · exact fun h => Or.inr ⟨m, h, rfl⟩

theorem forall_bind_model_iff {α : Type} {f g : String → Option α} :
    (∀ model : Option String, (model.filter (· ≠ "")).bind f = (model.filter (· ≠ "")).bind g) ↔
      ∀ m ≠ "", f m = g m := by
  constructor
  · intro h m hne
    have hm := h (some m)
    rwa [Option.filter_some, if_pos (decide_eq_true hne), Option.bind_some, Option.bind_some] at hm
  · intro h model
    cases hm : model.filter (· ≠ "") with
    | none => rfl
    | some m => exact h m (of_decide_eq_true (Option.filter_eq_some_iff.mp hm).2)

/-- **An account is limited for no model** when it has no limit of its own nor one of a model. -/
theorem not_limited_iff :
    (∀ model, ((isRateLimited legacy now accountId provider model).run file).1 = false) ↔
      liveLimit legacy now file (makeKey provider accountId) provider = none ∧
        ∀ m ≠ "", liveLimit legacy now file (makeKey provider accountId)
          (provider ++ ":" ++ m) = none := by
  have hnone : ∀ {limit : Option RateLimitState}, limit.isSome = false ↔ limit = none := by
    simp
  have hmodels := forall_bind_model_iff (g := fun _ => none)
    (f := fun m => liveLimit legacy now file (makeKey provider accountId) (provider ++ ":" ++ m))
  simp only [Option.bind_fun_none] at hmodels
  simp only [run_isRateLimited, judged, looked, hnone, Option.or_eq_none_iff]
  rw [forall_and, hmodels, forall_const, and_comm]

theorem looked_eq_iff :
    (∀ model, looked legacy now file' accountId provider model =
        looked legacy now file accountId provider model) ↔
      liveLimit legacy now file' (makeKey provider accountId) provider =
          liveLimit legacy now file (makeKey provider accountId) provider ∧
        ∀ m ≠ "", liveLimit legacy now file' (makeKey provider accountId)
            (provider ++ ":" ++ m) =
          liveLimit legacy now file (makeKey provider accountId) (provider ++ ":" ++ m) := by
  simp only [looked, Prod.mk.injEq]
  rw [forall_and, forall_bind_model_iff, forall_const, and_comm]

end Parts

/-- **A cooldown is cleared exactly if it can be cleared**, by what is looked up at that time or
later. -/
theorem cooldown_cleared_iff (legacy : LegacyFiles) (config : HealthScoreConfig) (now : ℤ)
    (elapsed : ℕ) (file : StateFile) (accountId provider : String) :
    CooldownCleared legacy (now + elapsed) file
        ((clearAccountCooldown legacy config now provider accountId).run file).2 accountId
        provider ↔
      Clearable legacy now (now + elapsed) file accountId provider := by
  have hle : now ≤ now + elapsed := by omega
  obtain ⟨hlive, hdaily⟩ := @run_clearAccountCooldown legacy _ _ file accountId provider config hle
  generalize now + (elapsed : ℤ) = later at hlive hdaily ⊢
  generalize ((clearAccountCooldown legacy config now provider accountId).run file).2 = cleared
    at hlive hdaily ⊢
  have hown : liveLimit legacy later cleared (makeKey provider accountId) provider = none :=
    (hlive _ _).trans (if_pos ⟨rfl, Or.inl rfl⟩)
  -- a limit stays what it was if it is not cleared, or was none before
  have hkept : ∀ key innerKey, liveLimit legacy later cleared key innerKey =
      liveLimit legacy later file key innerKey ↔
        (key = makeKey provider accountId → liveLimit legacy later file key innerKey ≠ none →
          ¬ClearedKey legacy now file accountId provider innerKey) := by
    intro key innerKey
    by_cases h : key = makeKey provider accountId ∧
        ClearedKey legacy now file accountId provider innerKey
    · rw [hlive, if_pos h]
      constructor
      · exact fun heq _ hne => absurd heq.symm hne
      · intro himp
        by_contra hne
        exact himp h.1 (Ne.symm hne) h.2
    · rw [hlive, if_neg h]
      exact iff_of_true rfl fun hkey _ hcleared => h ⟨hkey, hcleared⟩
  have hcount : ∀ accountId' provider' model,
      dailyCount legacy later cleared accountId' provider' model =
          dailyCount legacy later file accountId' provider' model ↔
        (dailyCount legacy later file accountId' provider' model ≠ 0 →
          ¬Mentions accountId provider (dailyKey provider' accountId' model)) := by
    intro accountId' provider' model
    rw [dailyCount_eq, dailyCount_eq, hdaily]
    split
    next h => exact ⟨fun heq hne => absurd heq.symm hne, fun himp => by
      by_contra hne
      exact himp (Ne.symm hne) h⟩
    next h => exact iff_of_true rfl fun _ => h
  constructor
  · intro h
    refine ⟨fun m hne hlimit => ?_, fun accountId' provider' hother hkey innerKey hlimit hcleared =>
      ?_, fun accountId' provider' hother model => ?_⟩
    · have hnone := (not_limited_iff.mp h.unlimited).2 m hne
      by_contra hlisted
      rw [hlive, if_neg fun hcleared => hlisted (clearedKey_model.mp hcleared.2)] at hnone
      exact hlimit hnone
    · obtain ⟨hprovider, hmodels⟩ := looked_eq_iff.mp fun model =>
        (h.framed accountId' provider' hother model).1
      rw [hkey] at hprovider hmodels
      constructor
      · rintro rfl
        exact (hkept _ _).mp hprovider rfl hlimit hcleared
      · rintro m hne rfl
        exact (hkept _ _).mp (hmodels m hne) rfl hlimit hcleared
    · exact (hcount _ _ _).mp (h.framed accountId' provider' hother model).2
  · intro h
    refine ⟨not_limited_iff.mpr ⟨hown, fun m hne => ?_⟩, fun model => ?_,
      fun accountId' provider' hother model => ⟨?_, ?_⟩⟩
    · by_cases hlimit :
        liveLimit legacy later file (makeKey provider accountId) (provider ++ ":" ++ m) = none
      · rw [(hkept _ _).mpr fun _ hne => absurd hlimit hne, hlimit]
      · rw [hlive, if_pos ⟨rfl, clearedKey_model.mpr (h.listed m hne hlimit)⟩]
    · rw [dailyCount_eq, hdaily, if_pos mentions_dailyKey]
      rfl
    · refine looked_eq_iff.mpr ⟨(hkept _ _).mpr fun hkey hlimit hcleared => ?_, fun m hne =>
        (hkept _ _).mpr fun hkey hlimit hcleared => ?_⟩ model
      · rw [hkey] at hlimit
        exact (h.unshared accountId' provider' hother hkey _ hlimit hcleared).1 rfl
      · rw [hkey] at hlimit
        exact (h.unshared accountId' provider' hother hkey _ hlimit hcleared).2 m hne rfl
    · exact (hcount _ _ _).mpr (h.unmentioned accountId' provider' hother model)

/-- The counter of the account `acc10` is removed with those of `acc1`. -/
theorem not_cooldown_cleared : ¬∀ (legacy : LegacyFiles) (config : HealthScoreConfig) (now : ℤ)
    (elapsed : ℕ) (file : StateFile) (accountId provider : String),
    CooldownCleared legacy (now + elapsed) file
      ((clearAccountCooldown legacy config now provider accountId).run file).2 accountId
      provider := by
  intro h
  have hframed := ((h ⟨none, none⟩ defaultHealthScoreConfig 0 0
    (stringify { UnifiedRotationState.initial with
      dailyRateLimitCounts := Finmap.singleton "openai:acc10" ⟨3, 0⟩ })
    "acc1" "openai").framed "acc10" "openai" (by decide) none).2
  rw [dailyCount_eq, dailyCount_eq, (run_clearAccountCooldown (le_refl (0 : ℤ))).2,
    if_pos (by decide)] at hframed
  revert hframed
  decide

end OpenCms.Rotation.RateLimitTracker
