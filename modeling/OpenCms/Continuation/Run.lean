import OpenCms.Continuation.Digest
import OpenCms.Lib.Runs

/-!
# Notices after a break of the chain

An event that breaks the chain of a session is dispatched: what is to be said about it is left as a
mark, which the next prompt consumes, and the key of the event is recorded, so that the same event
is not dispatched again for a while. There is one mark and one record for a session, and both are
written some time after the dispatch.

So a notice is reflected by the next prompt as long as no mark takes a flag from another one and no
prompt is built between a dispatch and its mark; and an event is dispatched once as long as the
record is always the one of the last dispatch (`OpenCms.Continuation.kept_of_apart`).
-/

namespace OpenCms.Continuation

/-! ### Events -/

/-- `ContinuationEventKind`. -/
inductive Kind
  | accountSwitch
  | accountRotate
  | providerSwitch
  | modelSwitchSameFamily
  | modelSwitchCrossFamily
  | sessionFork
  | sessionResumeDaemonAlive
  | sessionResumeAfterDaemonRestart
  | capabilityLayerRefresh
  | compactionNarrative
  | compactionCacheAware
  | compactionStallRecovery
  | compactionPreemptiveDaemonRestart
  | compactionServerSide
  | emptyResponseRecovery
  | wsReconnect
  | subagentSpawn
  | userClear
  | backendFailureForcedResend
  deriving DecidableEq

inductive ContinuationEvent
  | accountSwitch (previousAccountId accountId providerId : JsString)
  | accountRotate (previousAccountId accountId providerId : JsString)
  | providerSwitch (previousProviderId providerId : JsString)
  | modelSwitchSameFamily (previousModelId modelId providerId : JsString)
  | modelSwitchCrossFamily (previousModelId modelId providerId : JsString)
  | sessionFork (providerId : Option JsString)
  | sessionResumeDaemonAlive (providerId : Option JsString)
  | sessionResumeAfterDaemonRestart (providerId : Option JsString)
  | capabilityLayerRefresh (providerId : Option JsString)
  | compactionNarrative (anchorId providerId : JsString)
  | compactionCacheAware (anchorId providerId : JsString)
  | compactionStallRecovery (anchorId providerId : JsString)
  | compactionPreemptiveDaemonRestart (anchorId providerId : JsString)
  | compactionServerSide (anchorId providerId : JsString)
  | emptyResponseRecovery (providerId : Option JsString)
  | wsReconnect (providerId : Option JsString)
  | subagentSpawn (providerId : Option JsString)
  | userClear (providerId : Option JsString)
  | backendFailureForcedResend (providerId : JsString)
  deriving DecidableEq

def ContinuationEvent.kind : ContinuationEvent → Kind
  | .accountSwitch _ _ _ => .accountSwitch
  | .accountRotate _ _ _ => .accountRotate
  | .providerSwitch _ _ => .providerSwitch
  | .modelSwitchSameFamily _ _ _ => .modelSwitchSameFamily
  | .modelSwitchCrossFamily _ _ _ => .modelSwitchCrossFamily
  | .sessionFork _ => .sessionFork
  | .sessionResumeDaemonAlive _ => .sessionResumeDaemonAlive
  | .sessionResumeAfterDaemonRestart _ => .sessionResumeAfterDaemonRestart
  | .capabilityLayerRefresh _ => .capabilityLayerRefresh
  | .compactionNarrative _ _ => .compactionNarrative
  | .compactionCacheAware _ _ => .compactionCacheAware
  | .compactionStallRecovery _ _ => .compactionStallRecovery
  | .compactionPreemptiveDaemonRestart _ _ => .compactionPreemptiveDaemonRestart
  | .compactionServerSide _ _ => .compactionServerSide
  | .emptyResponseRecovery _ => .emptyResponseRecovery
  | .wsReconnect _ => .wsReconnect
  | .subagentSpawn _ => .subagentSpawn
  | .userClear _ => .userClear
  | .backendFailureForcedResend _ => .backendFailureForcedResend

def ContinuationEvent.providerId : ContinuationEvent → Option JsString
  | .accountSwitch _ _ providerId => providerId
  | .accountRotate _ _ providerId => providerId
  | .providerSwitch _ providerId => providerId
  | .modelSwitchSameFamily _ _ providerId => providerId
  | .modelSwitchCrossFamily _ _ providerId => providerId
  | .sessionFork providerId => providerId
  | .sessionResumeDaemonAlive providerId => providerId
  | .sessionResumeAfterDaemonRestart providerId => providerId
  | .capabilityLayerRefresh providerId => providerId
  | .compactionNarrative _ providerId => providerId
  | .compactionCacheAware _ providerId => providerId
  | .compactionStallRecovery _ providerId => providerId
  | .compactionPreemptiveDaemonRestart _ providerId => providerId
  | .compactionServerSide _ providerId => providerId
  | .emptyResponseRecovery providerId => providerId
  | .wsReconnect providerId => providerId
  | .subagentSpawn providerId => providerId
  | .userClear providerId => providerId
  | .backendFailureForcedResend providerId => providerId

def ContinuationEvent.anchorId : ContinuationEvent → Option JsString
  | .compactionNarrative anchorId _ => anchorId
  | .compactionCacheAware anchorId _ => anchorId
  | .compactionStallRecovery anchorId _ => anchorId
  | .compactionPreemptiveDaemonRestart anchorId _ => anchorId
  | .compactionServerSide anchorId _ => anchorId
  | _ => none

def transitionKey (kind : String) (previousId newId : JsString) : JsString :=
  js kind ++ js ":" ++ previousId ++ js "→" ++ newId

def dedupKeyFor : ContinuationEvent → Option JsString
  | .accountSwitch previousAccountId accountId _ =>
    transitionKey "account_switch" previousAccountId accountId
  | .accountRotate previousAccountId accountId _ =>
    transitionKey "account_rotate" previousAccountId accountId
  | .providerSwitch previousProviderId providerId =>
    transitionKey "provider_switch" previousProviderId providerId
  | .modelSwitchSameFamily previousModelId modelId _ =>
    transitionKey "model_switch_same_family" previousModelId modelId
  | .modelSwitchCrossFamily previousModelId modelId _ =>
    transitionKey "model_switch_cross_family" previousModelId modelId
  | _ => none

/-! ### Decisions -/

inductive ProviderChainClass
  | ss
  | sl
  | hybrid
  deriving DecidableEq

def chainSemantics : List (JsString × ProviderChainClass) :=
  [(js "openai", .ss), (js "codex", .ss), (js "github-copilot", .ss), (js "copilot-cli", .ss),
    (js "claude-cli", .sl), (js "google-api", .sl), (js "gemini-cli", .sl), (js "openrouter", .sl),
    (js "vercel", .sl), (js "gitlab", .sl), (js "gmicloud", .sl), (js "opencode", .sl)]

/-- `classifyProvider`: nothing for a provider that is not registered. (The names that every object
inherits are left out.) -/
def classifyProvider (providerId : JsString) : Option ProviderChainClass :=
  (chainSemantics.find? fun entry => entry.1 = providerId).map Prod.snd

def resolveProviderClass (event : ContinuationEvent) : Option ProviderChainClass :=
  match event.providerId with
  | none => some .sl
  | some providerId => if providerId = [] then some .sl else classifyProvider providerId

inductive ChainBreakClass
  | ssBreak
  | slNoop
  | capabilityOnly
  | userIntent
  | preserved
  deriving DecidableEq

inductive SkipReason
  | userClear
  | subagentSpawn
  | noPriorChain
  | capabilityOnly
  | wsReconnect
  | slProvider
  | serverSideCompaction
  | amnesiaSupersedes
  deriving DecidableEq

structure DecisionShape where
  capturesDigest : Bool
  recomputesChainStable : Bool
  injectsChainInit : Bool
  injectsAmnesia : Bool
  bumpsRebindEpoch : Bool
  ssBreaks : Bool
  ssBreakClass : ChainBreakClass
  skipReason : Option SkipReason
  deriving DecidableEq

def breaking : DecisionShape := ⟨true, true, true, false, true, true, .ssBreak, none⟩

def compacting : DecisionShape :=
  ⟨true, true, false, true, true, true, .ssBreak, some .amnesiaSupersedes⟩

/-- The shape of an event after which nothing happens. -/
def preserving (skipReason : SkipReason) : DecisionShape :=
  ⟨false, false, false, false, false, false, .preserved, some skipReason⟩

def shapeByKind : Kind → DecisionShape
  | .accountSwitch => breaking
  | .accountRotate => breaking
  | .providerSwitch => breaking
  | .modelSwitchSameFamily => breaking
  | .modelSwitchCrossFamily => breaking
  | .sessionFork => preserving .noPriorChain
  | .sessionResumeDaemonAlive =>
    ⟨false, false, false, false, true, false, .capabilityOnly, some .capabilityOnly⟩
  | .sessionResumeAfterDaemonRestart => breaking
  | .capabilityLayerRefresh =>
    ⟨false, true, false, false, true, false, .capabilityOnly, some .capabilityOnly⟩
  | .compactionNarrative => compacting
  | .compactionCacheAware => compacting
  | .compactionStallRecovery => compacting
  | .compactionPreemptiveDaemonRestart => compacting
  | .compactionServerSide => preserving .serverSideCompaction
  | .emptyResponseRecovery => breaking
  | .wsReconnect => preserving .wsReconnect
  | .subagentSpawn => preserving .subagentSpawn
  | .userClear => ⟨false, true, false, false, true, true, .userIntent, some .userClear⟩
  | .backendFailureForcedResend => breaking

structure ContinuationDecision where
  breaksChain : Bool
  capturesDigest : Bool
  recomputesChainStable : Bool
  injectsChainInit : Bool
  injectsAmnesia : Bool
  bumpsRebindEpoch : Bool
  chainBreakClass : ChainBreakClass
  skipReason : Option SkipReason
  deriving DecidableEq

def DecisionShape.decide (shape : DecisionShape) (providerClass : ProviderChainClass) :
    ContinuationDecision :=
  if providerClass = .sl then
    { breaksChain := false
      capturesDigest := shape.capturesDigest
      recomputesChainStable := shape.recomputesChainStable
      injectsChainInit := false
      injectsAmnesia := shape.injectsAmnesia
      bumpsRebindEpoch := shape.bumpsRebindEpoch
      chainBreakClass := if shape.ssBreaks then .slNoop else shape.ssBreakClass
      skipReason := if shape.injectsChainInit then some .slProvider else shape.skipReason }
  else
    { breaksChain := shape.ssBreaks
      capturesDigest := shape.capturesDigest
      recomputesChainStable := shape.recomputesChainStable
      injectsChainInit := shape.injectsChainInit
      injectsAmnesia := shape.injectsAmnesia
      bumpsRebindEpoch := shape.bumpsRebindEpoch
      chainBreakClass := shape.ssBreakClass
      skipReason := if shape.injectsChainInit then none else shape.skipReason }

def classify (event : ContinuationEvent) : Option ContinuationDecision :=
  (resolveProviderClass event).map (shapeByKind event.kind).decide

/-! ### The mark and the record -/

structure Notices where
  chainInit : Bool
  amnesia : Bool
  deriving DecidableEq

def Notices.none : Notices := ⟨false, false⟩

def Notices.Within (notices notices' : Notices) : Prop :=
  (notices.chainInit = true → notices'.chainInit = true) ∧
    (notices.amnesia = true → notices'.amnesia = true)

instance (notices notices' : Notices) : Decidable (notices.Within notices') :=
  inferInstanceAs (Decidable (_ ∧ _))

def ContinuationDecision.notices (decision : ContinuationDecision) : Notices :=
  ⟨decision.injectsChainInit, decision.injectsAmnesia⟩

structure PendingContinuationInjection extends Notices where
  digest : Option CommitmentDigest
  reason : Kind
  anchorId : Option JsString
  ts : ℕ

structure DedupEntry where
  key : JsString
  ts : ℕ
  deriving DecidableEq

def defaultTtlMs : ℕ := 60 * 60 * 1000

def shouldDispatch (store : Option DedupEntry) (key : Option JsString) (now ttlMs : ℕ) : Bool :=
  match key, store with
  | none, _ => true
  | some _, none => true
  | some key, some entry =>
    if entry.key ≠ key then true else if ttlMs ≤ now - entry.ts then true else false

def record (store : Option DedupEntry) (key : Option JsString) (now : ℕ) : Option DedupEntry :=
  match key with
  | none => store
  | some key => some ⟨key, now⟩

/-! ### Runs that overlap -/

/-- A run that was dispatched, and whether it has come past its mark. -/
structure Run where
  event : ContinuationEvent
  decision : ContinuationDecision
  marked : Bool
  deriving DecidableEq

/-- What is remembered of a session: a run with its key and time, and the notices if it was
dispatched; or what was consumed. -/
inductive Item
  | ran (key : Option JsString) (time : ℕ) (dispatched : Option Notices)
  | consumed (notices : Notices)
  deriving DecidableEq

structure Dispatch where
  id : ℕ
  key : JsString
  time : ℕ
  deriving DecidableEq

/-- What the stores hold for a session, the runs that were dispatched and are not over, the last one
of them with a key, and what happened, the last first. -/
structure World where
  now : ℕ
  mark : Option PendingContinuationInjection
  dedup : Option DedupEntry
  runs : ℕ → Option Run
  next : ℕ
  latest : Option Dispatch
  log : List Item

/-- What happens. A run goes past its mark, and is over when its key is recorded. -/
inductive Event
  | elapse (ms : ℕ)
  | run (event : ContinuationEvent)
  | goesOn (id : ℕ) (digest : Option CommitmentDigest)
  | ends (id : ℕ)
  | consume

namespace World

variable (world : World)

def dispatch (event : ContinuationEvent) (decision : ContinuationDecision) : World :=
  { world with
    runs := Function.update world.runs world.next (some ⟨event, decision, false⟩)
    next := world.next + 1
    latest := match dedupKeyFor event with
      | none => world.latest
      | some key => some ⟨world.next, key, world.now⟩
    log := .ran (dedupKeyFor event) world.now (some decision.notices) :: world.log }

def goOn (id : ℕ) (run : Run) (digest : Option CommitmentDigest) : World :=
  { world with
    runs := Function.update world.runs id (some { run with marked := true })
    mark :=
      if run.decision.injectsChainInit || run.decision.injectsAmnesia then
        some
          { run.decision.notices with
            digest := if run.decision.capturesDigest then digest else none
            reason := run.event.kind
            anchorId := run.event.anchorId
            ts := world.now }
      else world.mark }

def finish (id : ℕ) (run : Run) : World :=
  { world with
    runs := Function.update world.runs id none
    dedup := record world.dedup (dedupKeyFor run.event) world.now }

def notices : Notices :=
  match world.mark with
  | none => Notices.none
  | some mark => mark.toNotices

def step : Event → World
  | .elapse ms => { world with now := world.now + ms }
  | .run event =>
    match classify event with
    | none => world
    | some decision =>
      if shouldDispatch world.dedup (dedupKeyFor event) world.now defaultTtlMs then
        world.dispatch event decision
      else { world with log := .ran (dedupKeyFor event) world.now none :: world.log }
  | .goesOn id digest =>
    match world.runs id with
    | none => world
    | some run => if run.marked then world else world.goOn id run digest
  | .ends id =>
    match world.runs id with
    | none => world
    | some run => if run.marked then world.finish id run else world
  | .consume => { world with mark := none, log := .consumed world.notices :: world.log }

end World

def World.init : World := ⟨0, none, none, fun _ => none, 0, none, []⟩

/-- The notices of what was dispatched since the mark was consumed last. -/
def owed : List Item → List Notices
  | [] => []
  | .consumed _ :: _ => []
  | .ran _ _ none :: log => owed log
  | .ran _ _ (some notices) :: log => notices :: owed log

/-- **Every notice is reflected by the next mark that is consumed.** -/
def Reflected : List Item → Prop
  | [] => True
  | .consumed notices :: log => (∀ notices' ∈ owed log, notices'.Within notices) ∧ Reflected log
  | .ran _ _ _ :: log => Reflected log

/-- When a key was dispatched since the last run that had another one. -/
def stretch (key : JsString) : List Item → List ℕ
  | [] => []
  | .consumed _ :: log => stretch key log
  | .ran none _ _ :: log => stretch key log
  | .ran (some other) time dispatched :: log =>
    if other = key then if dispatched.isSome then time :: stretch key log else stretch key log
    else []

/-- **A key is dispatched once in a stretch of runs that have it**, within the time to live. -/
def Once : List Item → Prop
  | [] => True
  | .ran (some key) time (some _) :: log =>
    (∀ earlier ∈ stretch key log, earlier + defaultTtlMs ≤ time) ∧ Once log
  | _ :: log => Once log

structure Kept (world : World) : Prop where
  reflected : Reflected world.log
  once : Once world.log

/-- What an event must meet. When an event is dispatched, the last dispatch of its key is recorded,
if nothing was dispatched after it; a run takes no flag from a pending mark, and does not record
its key over that of a later dispatch; and nothing is consumed before a mark is written. -/
def Apart (world : World) : Event → Prop
  | .elapse _ => True
  | .run event =>
    (classify event).isSome → ∀ latest ∈ world.latest, dedupKeyFor event = some latest.key →
      world.now < latest.time + defaultTtlMs → world.runs latest.id = none
  | .goesOn id _ =>
    ∀ run ∈ world.runs id, run.marked = false →
      run.decision.notices ≠ Notices.none → world.notices.Within run.decision.notices
  | .ends id =>
    ∀ run ∈ world.runs id, (dedupKeyFor run.event).isSome → ∀ latest ∈ world.latest,
      latest.id = id ∨ world.runs latest.id ≠ none
  | .consume =>
    ∀ id < world.next, ∀ run ∈ world.runs id, run.marked = false →
      run.decision.notices = Notices.none

instance (world : World) : (event : Event) → Decidable (Apart world event)
  | .elapse _ => isTrue trivial
  | .run event =>
    inferInstanceAs (Decidable ((classify event).isSome → ∀ latest ∈ world.latest,
      dedupKeyFor event = some latest.key → world.now < latest.time + defaultTtlMs →
        world.runs latest.id = none))
  | .goesOn id _ =>
    inferInstanceAs (Decidable (∀ run ∈ world.runs id, run.marked = false →
      run.decision.notices ≠ Notices.none → world.notices.Within run.decision.notices))
  | .ends id =>
    inferInstanceAs (Decidable (∀ run ∈ world.runs id, (dedupKeyFor run.event).isSome →
      ∀ latest ∈ world.latest, latest.id = id ∨ world.runs latest.id ≠ none))
  | .consume =>
    inferInstanceAs (Decidable (∀ id < world.next, ∀ run ∈ world.runs id, run.marked = false →
      run.decision.notices = Notices.none))

/-! ### Notices -/

section Notices

variable {notices notices' notices'' : Notices}

theorem Notices.Within.refl (notices : Notices) : notices.Within notices := ⟨id, id⟩

theorem Notices.Within.trans (h : notices.Within notices') (h' : notices'.Within notices'') :
    notices.Within notices'' :=
  ⟨fun hinit => h'.1 (h.1 hinit), fun hamnesia => h'.2 (h.2 hamnesia)⟩

theorem Notices.none_within : Notices.none.Within notices :=
  ⟨fun h => absurd h Bool.false_ne_true, fun h => absurd h Bool.false_ne_true⟩

theorem injects_iff {decision : ContinuationDecision} :
    (decision.injectsChainInit || decision.injectsAmnesia) = true ↔
      decision.notices ≠ Notices.none := by
  rw [ContinuationDecision.notices, Notices.none]
  rcases decision.injectsChainInit with _ | _
  · rcases decision.injectsAmnesia with _ | _
    · simp
    · simp
  · simp

theorem le_of_shouldDispatch {entry : DedupEntry} {now ttlMs : ℕ}
    (h : shouldDispatch (some entry) (some entry.key) now ttlMs = true) :
    ttlMs ≤ now - entry.ts := by
  rw [shouldDispatch, if_neg fun hne => hne rfl] at h
  by_contra hlt
  rw [if_neg hlt] at h
  cases h

end Notices

/-! ### One step -/

/-- What every run whose events are apart keeps: what was dispatched since the mark was consumed is
in the mark or is still to be written, and the last dispatch of a key is recorded or is still to be.
-/
structure Inv (world : World) : Prop where
  fresh : ∀ id, world.next ≤ id → world.runs id = none
  owes : ∀ notices ∈ owed world.log, notices.Within world.notices ∨ ∃ id run,
    world.runs id = some run ∧ run.marked = false ∧ run.decision.notices = notices
  kept : Kept world
  stretches : ∀ key, ∀ time ∈ stretch key world.log, ∃ last, world.latest = some last ∧
    last.key = key ∧ time ≤ last.time
  earlier : ∀ last, world.latest = some last → last.id < world.next ∧ last.time ≤ world.now
  running : ∀ last run, world.latest = some last → world.runs last.id = some run →
    dedupKeyFor run.event = some last.key
  recorded : ∀ last, world.latest = some last → world.runs last.id = none →
    ∃ entry, world.dedup = some entry ∧ entry.key = last.key ∧ last.time ≤ entry.ts

section Step

variable {world : World} {event : ContinuationEvent} {decision : ContinuationDecision} {id : ℕ}
  {run : Run}

theorem Inv.lt_of_runs (h : Inv world) (hrun : world.runs id = some run) : id < world.next := by
  by_contra hle
  rw [h.fresh id (not_lt.mp hle)] at hrun
  cases hrun

theorem mem_stretch_skipped {key : Option JsString} {time time' : ℕ} {log : List Item}
    {other : JsString} (h : time ∈ stretch other (.ran key time' none :: log)) :
    time ∈ stretch other log := by
  rcases key with _ | key
  · exact h
  · rw [stretch] at h
    split at h
    · exact h
    · exact absurd h List.not_mem_nil

theorem Inv.dispatch (h : Inv world)
    (hdispatch : shouldDispatch world.dedup (dedupKeyFor event) world.now defaultTtlMs = true)
    (hapart : ∀ latest ∈ world.latest, dedupKeyFor event = some latest.key →
      world.now < latest.time + defaultTtlMs → world.runs latest.id = none) :
    Inv (world.dispatch event decision) := by
  have hnew : (world.dispatch event decision).runs world.next = some ⟨event, decision, false⟩ :=
    Function.update_self _ _ _
  have hold : ∀ {id}, id ≠ world.next →
      (world.dispatch event decision).runs id = world.runs id :=
    fun hne => Function.update_of_ne hne _ _
  have hfresh : ∀ id, world.next + 1 ≤ id → (world.dispatch event decision).runs id = none := by
    intro id hid
    rw [hold (by omega)]
    exact h.fresh id (by omega)
  have howes : ∀ notices ∈ decision.notices :: owed world.log, notices.Within world.notices ∨
      ∃ id run, (world.dispatch event decision).runs id = some run ∧ run.marked = false ∧
        run.decision.notices = notices := by
    intro notices hnotices
    rcases List.mem_cons.mp hnotices with rfl | hnotices
    · exact Or.inr ⟨world.next, _, hnew, rfl, rfl⟩
    · refine (h.owes notices hnotices).imp_right ?_
      rintro ⟨id, run, hrun, hrest⟩
      refine ⟨id, run, ?_, hrest⟩
      rw [hold (h.lt_of_runs hrun).ne]
      exact hrun
  rcases hkey : dedupKeyFor event with _ | key
  · have hlatest : (world.dispatch event decision).latest = world.latest := by
      rw [World.dispatch, hkey]
    have hlog : (world.dispatch event decision).log =
        .ran none world.now (some decision.notices) :: world.log := by
      rw [World.dispatch, hkey]
    have hne : ∀ last, world.latest = some last → last.id ≠ world.next :=
      fun last hlast => (h.earlier last hlast).1.ne
    refine ⟨hfresh, howes, ⟨h.kept.reflected, ?_⟩, ?_, ?_, ?_, ?_⟩
    · rw [hlog]
      exact h.kept.once
    · rw [hlog, hlatest]
      exact h.stretches
    · rw [hlatest]
      intro last hlast
      exact ⟨Nat.lt_succ_of_lt (h.earlier last hlast).1, (h.earlier last hlast).2⟩
    · rw [hlatest]
      intro last run hlast hrun
      rw [hold (hne last hlast)] at hrun
      exact h.running last run hlast hrun
    · rw [hlatest]
      intro last hlast hnone
      rw [hold (hne last hlast)] at hnone
      exact h.recorded last hlast hnone
  · have hlatest : (world.dispatch event decision).latest = some ⟨world.next, key, world.now⟩ := by
      rw [World.dispatch, hkey]
    have hlog : (world.dispatch event decision).log =
        .ran (some key) world.now (some decision.notices) :: world.log := by
      rw [World.dispatch, hkey]
    refine ⟨hfresh, howes, ⟨h.kept.reflected, ?_⟩, ?_, ?_, ?_, ?_⟩
    · rw [hlog]
      refine ⟨fun earlier hearlier => ?_, h.kept.once⟩
      obtain ⟨last, hlast, hlast_key, hle⟩ := h.stretches key earlier hearlier
      have hnow := (h.earlier last hlast).2
      by_contra hlt
      have hnone := hapart last hlast (by rw [hkey, hlast_key]) (by omega)
      obtain ⟨entry, hentry, hentry_key, hts⟩ := h.recorded last hlast hnone
      rw [hentry, hkey, ← hlast_key, ← hentry_key] at hdispatch
      have httl := le_of_shouldDispatch hdispatch
      omega
    · rw [hlog, hlatest]
      intro other time htime
      rw [stretch] at htime
      split at htime
      next heq =>
        refine ⟨_, rfl, heq, ?_⟩
        rcases List.mem_cons.mp htime with rfl | htime
        · exact le_refl _
        · obtain ⟨last, hlast, -, hle⟩ := h.stretches other time htime
          exact hle.trans (h.earlier last hlast).2
      next => exact absurd htime List.not_mem_nil
    · rw [hlatest]
      rintro last ⟨⟩
      exact ⟨Nat.lt_succ_self _, le_refl _⟩
    · rw [hlatest]
      rintro last run ⟨⟩ hrun
      rw [hnew] at hrun
      obtain rfl := Option.some.inj hrun
      exact hkey
    · rw [hlatest]
      rintro last ⟨⟩ hnone
      rw [hnew] at hnone
      cases hnone

theorem Inv.skip (h : Inv world) : Inv
    { world with log := .ran (dedupKeyFor event) world.now none :: world.log } := by
  refine ⟨h.fresh, h.owes, ⟨h.kept.reflected, ?_⟩, fun key time htime => ?_, h.earlier, h.running,
    h.recorded⟩
  · change Once (.ran (dedupKeyFor event) world.now none :: world.log)
    rcases dedupKeyFor event with _ | key
    · exact h.kept.once
    · exact h.kept.once
  · exact h.stretches key time (mem_stretch_skipped htime)

theorem Inv.goOn (h : Inv world) (hrun : world.runs id = some run)
    {digest : Option CommitmentDigest}
    (hapart : run.decision.notices ≠ Notices.none →
      world.notices.Within run.decision.notices) : Inv (world.goOn id run digest) := by
  have hnew : (world.goOn id run digest).runs id = some { run with marked := true } :=
    Function.update_self _ _ _
  have hold : ∀ {id'}, id' ≠ id → (world.goOn id run digest).runs id' = world.runs id' :=
    fun hne => Function.update_of_ne hne _ _
  -- the new mark covers what the run is about, and what the old one did
  have hmark : run.decision.notices.Within (world.goOn id run digest).notices ∧
      world.notices.Within (world.goOn id run digest).notices := by
    by_cases hinjects : run.decision.notices = Notices.none
    · have hsame : (world.goOn id run digest).notices = world.notices := by
        rw [World.notices, World.goOn, World.notices]
        rw [if_neg fun h => injects_iff.mp h hinjects]
      rw [hsame, hinjects]
      exact ⟨Notices.none_within, Notices.Within.refl _⟩
    · have hsame : (world.goOn id run digest).notices = run.decision.notices := by
        rw [World.notices, World.goOn]
        rw [if_pos (injects_iff.mpr hinjects)]
      rw [hsame]
      exact ⟨Notices.Within.refl _, hapart hinjects⟩
  have hrunning : ∀ last run', world.latest = some last →
      (world.goOn id run digest).runs last.id = some run' →
        dedupKeyFor run'.event = some last.key := by
    intro last run' hlast hrun'
    rcases eq_or_ne last.id id with heq | hne
    · rw [heq, hnew] at hrun'
      obtain rfl := Option.some.inj hrun'
      exact h.running last run hlast (by rw [heq]; exact hrun)
    · rw [hold hne] at hrun'
      exact h.running last run' hlast hrun'
  refine ⟨fun id' hid => ?_, fun notices hnotices => ?_,
    ⟨h.kept.reflected, h.kept.once⟩, h.stretches, h.earlier, hrunning, fun last hlast hnone => ?_⟩
  · have hlt := h.lt_of_runs hrun
    have hid : world.next ≤ id' := hid
    rw [hold (by omega)]
    exact h.fresh id' hid
  · rcases h.owes notices hnotices with hwithin | ⟨id', run', hrun', hmarked, rfl⟩
    · exact Or.inl (hwithin.trans hmark.2)
    · rcases eq_or_ne id' id with rfl | hne
      · obtain rfl := Option.some.inj (hrun.symm.trans hrun')
        exact Or.inl hmark.1
      · refine Or.inr ⟨id', run', ?_, hmarked, rfl⟩
        rw [hold hne]
        exact hrun'
  · refine h.recorded last hlast ?_
    rcases eq_or_ne last.id id with heq | hne
    · rw [heq, hnew] at hnone
      cases hnone
    · rw [hold hne] at hnone
      exact hnone

theorem Inv.finish (h : Inv world) (hrun : world.runs id = some run) (hmarked : run.marked = true)
    (hapart : (dedupKeyFor run.event).isSome → ∀ latest ∈ world.latest,
      latest.id = id ∨ world.runs latest.id ≠ none) : Inv (world.finish id run) := by
  have hgone : (world.finish id run).runs id = none := Function.update_self _ _ _
  have hold : ∀ {id'}, id' ≠ id → (world.finish id run).runs id' = world.runs id' :=
    fun hne => Function.update_of_ne hne _ _
  refine ⟨fun id' hid => ?_, fun notices hnotices => (h.owes notices hnotices).imp_right ?_,
    ⟨h.kept.reflected, h.kept.once⟩, h.stretches, h.earlier, fun last run' hlast hrun' => ?_,
    fun last hlast hnone => ?_⟩
  · have hlt := h.lt_of_runs hrun
    have hid : world.next ≤ id' := hid
    rw [hold (by omega)]
    exact h.fresh id' hid
  · rintro ⟨id', run', hrun', hnot, hnotices⟩
    refine ⟨id', run', ?_, hnot, hnotices⟩
    rw [hold ?_]
    · exact hrun'
    · rintro rfl
      obtain rfl := Option.some.inj (hrun.symm.trans hrun')
      exact absurd (hnot.symm.trans hmarked) Bool.false_ne_true
  · rcases eq_or_ne last.id id with heq | hne
    · rw [heq, hgone] at hrun'
      cases hrun'
    · rw [hold hne] at hrun'
      exact h.running last run' hlast hrun'
  · change ∃ entry, record world.dedup (dedupKeyFor run.event) world.now = some entry ∧ _
    rcases eq_or_ne last.id id with heq | hne
    · rw [h.running last run hlast (by rw [heq]; exact hrun)]
      exact ⟨_, rfl, rfl, (h.earlier last hlast).2⟩
    · rw [hold hne] at hnone
      rcases hkey : dedupKeyFor run.event with _ | key
      · exact h.recorded last hlast hnone
      · rw [hkey] at hapart
        rcases hapart rfl last hlast with heq | hrunning
        · exact absurd heq hne
        · exact absurd hnone hrunning

/-- **An event that meets its condition keeps what every run keeps.** -/
theorem Inv.step (h : Inv world) {event : Event} (hapart : Apart world event) :
    Inv (world.step event) := by
  rcases event with ms | event | ⟨id, digest⟩ | id | _
  · refine ⟨h.fresh, h.owes, ⟨h.kept.reflected, h.kept.once⟩, h.stretches, fun last hlast => ?_,
      h.running, h.recorded⟩
    obtain ⟨hid, htime⟩ := h.earlier last hlast
    exact ⟨hid, htime.trans (Nat.le_add_right _ _)⟩
  · rw [World.step]
    rcases hdecision : classify event with _ | decision
    · exact h
    · dsimp only
      split
      next hdispatch =>
        refine h.dispatch hdispatch (hapart ?_)
        rw [hdecision]
        rfl
      next => exact h.skip
  · rw [World.step]
    rcases hrun : world.runs id with _ | run
    · exact h
    · dsimp only
      split
      next => exact h
      next hmarked => exact h.goOn hrun (hapart run hrun (Bool.eq_false_iff.mpr hmarked))
  · rw [World.step]
    rcases hrun : world.runs id with _ | run
    · exact h
    · dsimp only
      split
      next hmarked => exact h.finish hrun hmarked (hapart run hrun)
      next => exact h
  · refine ⟨h.fresh, fun _ hnotices => absurd hnotices List.not_mem_nil,
      ⟨⟨fun notices hnotices => ?_, h.kept.reflected⟩, h.kept.once⟩, h.stretches, h.earlier,
      h.running, h.recorded⟩
    rcases h.owes notices hnotices with hwithin | ⟨id, run, hrun, hmarked, rfl⟩
    · exact hwithin
    · rw [hapart id (h.lt_of_runs hrun) run hrun hmarked]
      exact Notices.none_within

theorem inv_init : Inv World.init := by
  refine ⟨fun _ _ => rfl, fun _ h => absurd h List.not_mem_nil, ⟨trivial, trivial⟩,
    fun _ _ h => absurd h List.not_mem_nil, ?_, ?_, ?_⟩
  · rintro last ⟨⟩
  · rintro last run ⟨⟩
  · rintro last ⟨⟩

end Step

/-- **If no mark takes a flag from another one, nothing is consumed before a mark is written, and
the record is the one of the last dispatch, then every notice is reflected by the next mark that is
consumed, and a key is dispatched once in a stretch of runs that have it.** -/
theorem kept_of_apart (events : List Event)
    (hapart : Meets World.step Apart World.init events) :
    ∀ past, past <+: events → Kept (run World.step World.init past) := by
  intro past hpast
  have hinv := (hapart.initial hpast).invariant Inv inv_init fun _ _ hinv hok => hinv.step hok
  exact hinv.kept

def switched : Event := .run (.accountSwitch (js "a") (js "b") (js "codex"))

def compacted : Event := .run (.compactionNarrative (js "msg_1") (js "codex"))

/-- The account is switched, which is found out again; then the session is compacted. -/
def oneByOne : List Event :=
  [switched, .goesOn 0 none, .ends 0, .consume, .elapse 5, switched, compacted, .goesOn 1 none,
    .ends 1, .consume]

theorem oneByOne_kept : Kept (run World.step World.init oneByOne) :=
  kept_of_apart oneByOne (by decide) oneByOne (List.prefix_refl oneByOne)

/-- The session is compacted before the next prompt after a switch. -/
def bothNotices : List Event :=
  [switched, .goesOn 0 none, .ends 0, compacted, .goesOn 1 none, .ends 1, .consume]

def foundTwice : List Event := [switched, switched]

/-- **A notice is lost when another one follows it, and a switch that is found out twice at a time is
dispatched twice.** -/
theorem lost_or_repeated :
    (¬∀ events, Reflected (run World.step World.init events).log) ∧
      ¬∀ events, Once (run World.step World.init events).log := by
  constructor
  · intro h
    have hlog : (run World.step World.init bothNotices).log =
        [.consumed ⟨false, true⟩, .ran none 0 (some ⟨false, true⟩),
          .ran (some (js "account_switch:a→b")) 0 (some ⟨true, false⟩)] := by decide
    have hreflected := h bothNotices
    have hwithin := hreflected.1 ⟨true, false⟩ (by decide)
    exact absurd (hwithin.1 rfl) Bool.false_ne_true
  · intro h
    have hlog : (run World.step World.init foundTwice).log =
        [.ran (some (js "account_switch:a→b")) 0 (some ⟨true, false⟩),
          .ran (some (js "account_switch:a→b")) 0 (some ⟨true, false⟩)] := by decide
    have honce := h foundTwice
    rw [hlog] at honce
    have hle := honce.1 0 (by decide)
    rw [defaultTtlMs] at hle
    omega

end OpenCms.Continuation
