import OpenCms.Daemon.Started
import OpenCms.RunQueue.Calls

/-!
# Resuming a session

The supervisor picks a session that is to go on from the run queue and runs its prompt loop, through
the lane of its workspace, or directly where the lane does not take the task or settles its promise
with an error. Until the loop ends, the attempt holds the entry it picked. When the loop fails, the
attempt removes what the session has in the queue, or puts the entry it holds in its place.

Between any two of its steps other sessions are enqueued, and other attempts go on. The model keeps
beside each attempt what was enqueued for its session since it picked its item, whoever removes it
until the error handling is over, and which of the calls of the queue are those of its error
handling.
-/

namespace OpenCms.WorkflowRunner

open RunQueue (PendingContinuation TriggerPriority Lane Slot QueueEntry)

/-! ### What is enqueued -/

/-- The input of `enqueuePendingContinuation`. -/
structure ContinuationInput where
  pending : PendingContinuation
  triggerType : Option JsString
  priority : Option TriggerPriority
  deriving DecidableEq

/-- The input of `RunQueue.enqueue`, with the defaults for what is missing. -/
def ContinuationInput.toInput (input : ContinuationInput) : RunQueue.Input where
  toPendingContinuation := input.pending
  triggerType := input.triggerType.getD (js "continuation")
  priority := input.priority.getD .normal

def parses (pending : PendingContinuation) : Bool :=
  (js (Identifier.prefixes .session)).isPrefixOf pending.sessionID &&
    (js (Identifier.prefixes .message)).isPrefixOf pending.messageID

/-- `enqueuePendingContinuation`, up to where it waits for the queue. -/
def enqueuePendingContinuation (world : RunQueue.World) (input : ContinuationInput) (now : ℕ) :
    RunQueue.World :=
  if parses input.pending then world.step (.enqueue input.toInput now) else world

/-- What is listed: an entry of the queue, or, while there is none at all, a legacy entry. -/
inductive Item
  | queued (entry : QueueEntry)
  | legacy (pending : PendingContinuation)
  deriving DecidableEq

namespace Item

def pending : Item → PendingContinuation
  | queued entry => entry.toPendingContinuation
  | legacy pending => pending

abbrev sessionID (item : Item) : JsString := item.pending.sessionID

def triggerType : Item → Option JsString
  | queued entry => some entry.triggerType
  | legacy _ => none

def lane : Item → Option Lane
  | queued entry => some entry.lane
  | legacy _ => none

def toInput (item : Item) : ContinuationInput := ⟨item.pending, item.triggerType, none⟩

end Item

def readSlot (queue : RunQueue.Queue) (sessionID : JsString) : Slot → Option Item
  | .lane lane => (Table.lookup QueueEntry.key (queue.lanes lane) sessionID).map .queued
  | .legacy => (Table.lookup PendingContinuation.key queue.legacy sessionID).map .legacy

/-! ### Failures -/

inductive ResumeFailureCategory
  | providerRateLimit
  | providerAuth
  | providerTransient
  | toolRuntime
  | sessionState
  | unknown
  deriving DecidableEq

def ResumeFailureCategory.shouldRetry : ResumeFailureCategory → Bool
  | providerRateLimit => true
  | providerAuth => false
  | providerTransient => true
  | toolRuntime => false
  | sessionState => false
  | unknown => true

def ResumeFailureCategory.shouldBlockImmediately : ResumeFailureCategory → Bool
  | providerRateLimit => false
  | providerAuth => true
  | providerTransient => false
  | toolRuntime => true
  | sessionState => true
  | unknown => false

def MAX_RESUME_FAILURES : ℕ := 3

def shouldBlockAfterResumeFailure (consecutiveFailures : ℕ) : Bool :=
  MAX_RESUME_FAILURES ≤ consecutiveFailures

/-- How a prompt loop fails: the category of its error, and how many failures there were before. -/
structure Failure where
  category : ResumeFailureCategory
  consecutiveResumeFailures : ℕ
  deriving DecidableEq

def Failure.blocked (failure : Failure) : Bool :=
  let nextFailures := failure.consecutiveResumeFailures + 1
  failure.category.shouldBlockImmediately ||
    (!failure.category.shouldRetry && 1 ≤ nextFailures) ||
    shouldBlockAfterResumeFailure nextFailures

/-! ### Attempts -/

def RESUME_IN_FLIGHT_TIMEOUT_MS : ℕ := 5 * 60000

/-- Where a run of `doResume` is: it asks for the kill switch, is in the prompt loop, waits for a
call of the queue, or is over. -/
inductive Point
  | idle
  | checking
  | looping
  | waiting (call : ℕ)
  | ended
  deriving DecidableEq

/-- A run of `doResume`, and how many prompt loops it has started. -/
structure Run where
  point : Point := .idle
  loops : ℕ := 0
  deriving DecidableEq

/-- Who runs `doResume`: the lane, or `executeResumeInLane` itself. -/
inductive Place
  | lane
  | direct
  deriving DecidableEq

/-- How far an attempt is: its item was read; it was selected; it was launched, with a promise of
the lane unless there is no workspace; or it was left, since the session is in flight. -/
inductive Stage
  | picked
  | selected
  | launched (promise : Option ℕ)
  | left
  deriving DecidableEq

inductive Handling
  | notBegun
  | begun
  | handled
  deriving DecidableEq

structure Attempt where
  item : Item
  stage : Stage := .picked
  run : Place → Run := fun _ => {}
  handling : Handling := .notBegun
  /-- The calls of its error handling. -/
  handlers : List ℕ := []
  /-- What it has put back into the queue. -/
  requeued : List QueueEntry := []
  /-- What was put into each lane for the session since the item was picked, unless something has
  removed it since the error handling was over. -/
  newer : Lane → Option QueueEntry := fun _ => none
  /-- The lane in which what it has put back is. -/
  own : Option Lane := none

namespace Attempt

variable (attempt : Attempt)

def setRun (place : Place) (run : Run) : Attempt :=
  { attempt with run := Function.update attempt.run place run }

def handled : Attempt :=
  { attempt with handling := if attempt.handling = .begun then .handled else attempt.handling }

/-- The prompt loops that were started. -/
def loops : ℕ := (attempt.run .lane).loops + (attempt.run .direct).loops

end Attempt

/-- What happens to the file of a session in a lane: who does it, and what is there then. -/
structure Change where
  call : ℕ
  sessionID : JsString
  lane : Lane
  content : Option QueueEntry

def writes (call : RunQueue.Call) : Option Change :=
  if call.pending = [] ∧ call.written = false then
    (call.entry.filter QueueEntry.parses).map fun entry =>
      ⟨call.id, entry.sessionID, entry.lane, some entry⟩
  else none

def changeOf (world : RunQueue.World) : RunQueue.Event → Option Change
  | .removed id (.lane lane) =>
    ((Table.lookup RunQueue.Call.id world.calls id).filter
      fun call => .lane lane ∈ call.pending).map fun call => ⟨id, call.sessionID, lane, none⟩
  | .goesOn id => (Table.lookup RunQueue.Call.id world.calls id).bind writes
  | _ => none

def Attempt.note (change : Change) (attempt : Attempt) : Attempt :=
  if attempt.item.sessionID ≠ change.sessionID then attempt
  else if change.call ∈ attempt.handlers then
    { attempt with
      own := if change.content.isSome then some change.lane
        else attempt.own.filter (· ≠ change.lane) }
  else
    { attempt with
      newer :=
        if change.content = none ∧ attempt.handling ≠ .handled then attempt.newer
        else Function.update attempt.newer change.lane change.content
      own := attempt.own.filter (· ≠ change.lane) }

/-! ### The state -/

/-- The queue with the calls in progress, the lanes of the workspaces, the sessions in flight, and
the attempts. -/
structure State where
  world : RunQueue.World
  lanes : Lanes.State
  resumeInFlight : JsString → Option ℕ
  attempts : List Attempt

/-- What happens. A task of the lane comes back at its first `await`. -/
inductive Event
  | enqueue (input : ContinuationInput) (now : ℕ)
  | remove (sessionID : JsString)
  | removed (id : ℕ) (slot : Slot)
  | goesOn (id : ℕ)
  | registerWorkspace (workspaceId : JsString) (concurrency : Lanes.CommandLane → Option ℚ)
  | unregisterWorkspace (workspaceId : JsString)
  | resetAll
  | returned
  | pick (sessionID : JsString) (slot : Slot)
  | select (attempt : ℕ) (now : ℕ)
  | launch (attempt : ℕ) (workspaceId : Option JsString) (isDraining : Bool)
  | begin (attempt : ℕ)
  | check (attempt : ℕ) (place : Place) (active : Bool)
  | ended (attempt : ℕ) (place : Place) (failure : Option Failure) (now : ℕ)
  | finish (attempt : ℕ) (place : Place)
  | complete (attempt : ℕ)
  | fallBack (attempt : ℕ)

namespace State

variable (s : State)

def set (i : ℕ) (attempt : Attempt) : State := { s with attempts := s.attempts.set i attempt }

def queueStep (event : RunQueue.Event) : State :=
  { s with
    world := s.world.step event
    attempts :=
      match changeOf s.world event with
      | none => s.attempts
      | some change => s.attempts.map (Attempt.note change) }

/-- A step of the lanes. Nothing else happens while a task has not come back. -/
def laneStep (event : Lanes.Event) : State :=
  if s.lanes.stack = [] then { s with lanes := Lanes.step s.lanes event } else s

def inFlight (sessionID : JsString) (now : ℕ) : Bool :=
  (s.resumeInFlight sessionID).any fun since => now - since < RESUME_IN_FLIGHT_TIMEOUT_MS

def select (i : ℕ) (attempt : Attempt) (now : ℕ) : State :=
  if attempt.stage ≠ .picked then s
  else if s.inFlight attempt.item.sessionID now then s.set i { attempt with stage := .left }
  else
    { s.set i { attempt with stage := .selected } with
      resumeInFlight := Function.update s.resumeInFlight attempt.item.sessionID (some now) }

/-- `executeResumeInLane`, up to where it waits for the lane. -/
def launch (i : ℕ) (attempt : Attempt) (workspaceId : Option JsString) (isDraining : Bool) :
    State :=
  if attempt.stage = .selected ∧ s.lanes.stack = [] then
    match workspaceId.filter (· ≠ []) with
    | none =>
      s.set i ({ attempt with stage := .launched none }.setRun .direct { point := .checking })
    | some workspaceId =>
      { s.set i { attempt with stage := .launched (some s.lanes.keys.length) } with
        lanes := Lanes.step s.lanes (.enqueue .main workspaceId isDraining) }
  else s

def begin_ (i : ℕ) (attempt : Attempt) : State :=
  match attempt.stage with
  | .launched (some promise) =>
    if promise ∈ s.lanes.started ∧ (attempt.run .lane).point = .idle then
      s.set i (attempt.setRun .lane { point := .checking })
    else s
  | _ => s

/-- What the kill switch is found to be: the queue is cleared, or a prompt loop is started. -/
def check (i : ℕ) (attempt : Attempt) (place : Place) (active : Bool) : State :=
  if (attempt.run place).point ≠ .checking then s
  else if active then
    { s.set i (attempt.setRun place { attempt.run place with point := .waiting s.world.next }) with
      world := s.world.step (.remove attempt.item.sessionID) }
  else
    s.set i (attempt.setRun place ⟨.looping, (attempt.run place).loops + 1⟩)

def leave (i : ℕ) (attempt : Attempt) (place : Place) : State :=
  { s.set i (attempt.setRun place { attempt.run place with point := .ended }) with
    resumeInFlight := Function.update s.resumeInFlight attempt.item.sessionID none }

/-- The prompt loop has failed: the queue is cleared, or the item is put back. -/
def fail (i : ℕ) (attempt : Attempt) (place : Place) (failure : Failure) (now : ℕ) : State :=
  let waiting :=
    { attempt.setRun place { attempt.run place with point := .waiting s.world.next } with
      handling := .begun }
  if failure.blocked then
    { s.set i { waiting with handlers := s.world.next :: attempt.handlers } with
      world := s.world.step (.remove attempt.item.sessionID) }
  else if parses attempt.item.pending then
    { s.set i
        { waiting with
          handlers := s.world.next :: attempt.handlers
          requeued := attempt.item.toInput.toInput.entry now :: attempt.requeued } with
      world := enqueuePendingContinuation s.world attempt.item.toInput now }
  else
    -- what `parse` throws is caught
    s.leave i { attempt with handling := .handled } place

def ended (i : ℕ) (attempt : Attempt) (place : Place) (failure : Option Failure) (now : ℕ) :
    State :=
  if (attempt.run place).point ≠ .looping then s
  else
    match failure with
    | none => s.leave i attempt place
    | some failure => s.fail i attempt place failure now

def finish (i : ℕ) (attempt : Attempt) (place : Place) : State :=
  match (attempt.run place).point with
  | .waiting call =>
    if call ∈ s.world.calls.map RunQueue.Call.id then s else s.leave i attempt.handled place
  | _ => s

def complete (attempt : Attempt) : State :=
  match attempt.stage with
  | .launched (some promise) =>
    if (attempt.run .lane).point = .ended then
      match s.lanes.running.find? (·.entry.promise = promise) with
      | none => s
      | some task => s.laneStep (.complete task true)
    else s
  | _ => s

def fallBack (i : ℕ) (attempt : Attempt) : State :=
  match attempt.stage with
  | .launched (some promise) =>
    if (attempt.run .direct).point = .idle ∧
        s.lanes.settled promise ≠ none ∧ s.lanes.settled promise ≠ some .resolved then
      s.set i (attempt.setRun .direct { point := .checking })
    else s
  | _ => s

def at_ (i : ℕ) (go : Attempt → State) : State :=
  match s.attempts[i]? with
  | none => s
  | some attempt => go attempt

end State

def step (s : State) : Event → State
  | .enqueue input now => { s with world := enqueuePendingContinuation s.world input now }
  | .remove sessionID => s.queueStep (.remove sessionID)
  | .removed id slot => s.queueStep (.removed id slot)
  | .goesOn id => s.queueStep (.goesOn id)
  | .registerWorkspace workspaceId concurrency =>
    s.laneStep (.registerWorkspace workspaceId concurrency)
  | .unregisterWorkspace workspaceId => s.laneStep (.unregisterWorkspace workspaceId)
  | .resetAll => s.laneStep .resetAll
  | .returned => { s with lanes := Lanes.step s.lanes .returned }
  | .pick sessionID slot =>
    match readSlot s.world.queue sessionID slot with
    | none => s
    | some item => { s with attempts := s.attempts ++ [{ item }] }
  | .select i now => s.at_ i fun attempt => s.select i attempt now
  | .launch i workspaceId isDraining =>
    s.at_ i fun attempt => s.launch i attempt workspaceId isDraining
  | .begin i => s.at_ i fun attempt => s.begin_ i attempt
  | .check i place active => s.at_ i fun attempt => s.check i attempt place active
  | .ended i place failure now => s.at_ i fun attempt => s.ended i attempt place failure now
  | .finish i place => s.at_ i fun attempt => s.finish i attempt place
  | .complete i => s.at_ i fun attempt => s.complete attempt
  | .fallBack i => s.at_ i fun attempt => s.fallBack i attempt

def State.init (queue : RunQueue.Queue) : State where
  world := .init queue
  lanes := .start
  resumeInFlight _ := none
  attempts := []

/-! ### What a failed attempt must leave -/

/-- What was enqueued since the attempt picked its item is still the entry of the session when its
error handling has begun: it is stored where it was put, and what the attempt has put back is not
stored beside it. -/
structure Kept (queue : RunQueue.Queue) (attempt : Attempt) : Prop where
  stored : attempt.handling ≠ .notBegun → ∀ lane, ∀ entry ∈ attempt.newer lane,
    Table.lookup QueueEntry.key (queue.lanes lane) attempt.item.sessionID = some entry
  alone : attempt.own ≠ none → ∀ lane, attempt.newer lane = none

structure Keeps (item : Item) (entry : QueueEntry) : Prop where
  lane : ∀ lane ∈ item.lane, entry.lane = lane
  triggerType : ∀ triggerType ∈ item.triggerType, entry.triggerType = triggerType
  createdAt : entry.createdAt = item.pending.createdAt
  text : entry.text = item.pending.text

/-- What every attempt must meet. -/
structure Sound (s : State) : Prop where
  kept : ∀ attempt ∈ s.attempts, Kept s.world.queue attempt
  requeued : ∀ attempt ∈ s.attempts, ∀ entry ∈ attempt.requeued, Keeps attempt.item entry
  once : ∀ attempt ∈ s.attempts, attempt.loops ≤ 1

end OpenCms.WorkflowRunner
