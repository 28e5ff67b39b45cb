import OpenCms.Util.Wildcard
import Mathlib.Data.List.AList
import Mathlib.Data.Finset.Card
import Mathlib.Data.Rat.Defs
import Mathlib.Logic.Function.Basic

/-!
# Command lanes

A task is put into the queue of its lane, and started from there as soon as the lane has room
for it. Lanes belong to workspaces and are found by a key made of both; a lane that is
registered again is a new one under the same key, and what was going on in the old one still
knows the old one.

`OpenCms.Lanes.step` is one step of it all. A task is a function that runs until it comes back
with its promise, and until then it may do whatever the rest of the program may do: put other
tasks into a queue, register workspaces, start what is waiting. So starting a task is not the
end of a step of the pump but interrupts it, and `OpenCms.Lanes.State.stack` has the pumps that
go on when the tasks come back.

Objects are told apart by numbers here: the lanes by where they are in
`OpenCms.Lanes.State.heap`, and the promises by when they were made.
-/

namespace OpenCms.Lanes

/-! ### Lanes and their keys -/

inductive CommandLane
  | main
  | cron
  | subagent
  | nested
  deriving DecidableEq

def CommandLane.values : List CommandLane := [.main, .cron, .subagent, .nested]

def CommandLane.name : CommandLane → JsString
  | .main => js "main"
  | .cron => js "cron"
  | .subagent => js "subagent"
  | .nested => js "nested"

def DEFAULT_CONCURRENCY : CommandLane → ℚ
  | .main => 1
  | .cron => 1
  | .subagent => 2
  | .nested => 1

def buildLaneKey (workspaceId : JsString) (lane : CommandLane) : JsString :=
  workspaceId ++ 58 :: lane.name

def parseLaneKey (key : JsString) : Option (JsString × CommandLane) :=
  let name := (key.reverse.takeWhile (· ≠ 58)).reverse
  if name.length = key.length then none
  else
    (CommandLane.values.find? (·.name = name)).map fun lane =>
      (key.take (key.length - name.length - 1), lane)

/-! ### The state -/

/-- `QueueEntry`; what `resolve` and `reject` settle is a promise. -/
structure QueueEntry where
  id : ℕ
  promise : ℕ
  generation : ℕ
  deriving DecidableEq

structure LaneState where
  queue : List QueueEntry := []
  activeTaskIds : Finset ℕ := ∅
  maxConcurrent : ℚ
  generation : ℕ := 0
  draining : Bool := false

/-- How a promise is settled: with the value of the task, with what it threw, with
`CommandLaneClearedError`, or with `GatewayDrainingError`. -/
inductive Settlement
  | resolved
  | failed
  | cleared
  | draining
  deriving DecidableEq

/-- An `executeEntry` under way. -/
structure Task where
  laneKey : JsString
  lane : ℕ
  entry : QueueEntry
  deriving DecidableEq

/-- A `pump` under way, with the lane it found. -/
structure Loop where
  laneKey : JsString
  lane : ℕ
  deriving DecidableEq

/-- A task that has not come back yet, and the loops that go on when it does, one after the
other. -/
structure Frame where
  task : Task
  loops : List Loop
  deriving DecidableEq

/-- The state: the lanes that were ever made, those that are registered, the key each promise
was asked for and how it is settled, the tasks under way, the promises of the tasks started,
and the tasks that have not come back. -/
structure State where
  heap : ℕ → LaneState
  next : ℕ
  lanes : AList fun _ : JsString => ℕ
  taskIdCounter : ℕ
  keys : List JsString
  settled : ℕ → Option Settlement
  running : List Task
  started : List ℕ
  stack : List Frame

def State.start : State where
  heap _ := { maxConcurrent := 0 }
  next := 0
  lanes := ∅
  taskIdCounter := 0
  keys := []
  settled _ := none
  running := []
  started := []
  stack := []

/-! ### What the operations are made of -/

def settle (settled : ℕ → Option Settlement) (promise : ℕ) (how : Settlement) :
    ℕ → Option Settlement :=
  Function.update settled promise ((settled promise).or (some how))

def rejectAll (settled : ℕ → Option Settlement) (queue : List QueueEntry) :
    ℕ → Option Settlement :=
  queue.foldl (fun settled entry => settle settled entry.promise .cleared) settled

def State.addLane (s : State) (key : JsString) (maxConcurrent : ℚ) : State :=
  { s with
    heap := Function.update s.heap s.next { maxConcurrent }
    next := s.next + 1
    lanes := s.lanes.insert key s.next }

section

variable {s : State} {key key' : JsString} {maxConcurrent : ℚ} {lane : ℕ}

theorem State.addLane_queue : ((s.addLane key maxConcurrent).heap s.next).queue = [] := by
  simp only [addLane, Function.update_self]

theorem State.addLane_heap (hne : lane ≠ s.next) :
    (s.addLane key maxConcurrent).heap lane = s.heap lane := Function.update_of_ne hne ..

theorem State.mem_addLane_queue {s : State} {key : JsString} {maxConcurrent : ℚ} {lane : ℕ}
    {entry : QueueEntry} (hentry : entry ∈ ((s.addLane key maxConcurrent).heap lane).queue) :
    lane ≠ s.next ∧ entry ∈ (s.heap lane).queue := by
  rcases eq_or_ne lane s.next with rfl | hne
  · simp [State.addLane_queue] at hentry
  · rw [State.addLane_heap hne] at hentry
    exact ⟨hne, hentry⟩

theorem State.addLane_lookup : (s.addLane key maxConcurrent).lanes.lookup key = some s.next :=
  AList.lookup_insert _

theorem State.addLane_lookup_of_ne (hne : key' ≠ key) :
    (s.addLane key maxConcurrent).lanes.lookup key' = s.lanes.lookup key' :=
  AList.lookup_insert_ne hne

end

def getLane (s : State) (laneKey : JsString) : State × ℕ :=
  match s.lanes.lookup laneKey with
  | some lane => (s, lane)
  | none =>
    let maxConcurrent :=
      match parseLaneKey laneKey with
      | some (_, lane) => DEFAULT_CONCURRENCY lane
      | none => 1
    (s.addLane laneKey maxConcurrent, s.next)

def State.startEntry (s : State) (loop : Loop) (entry : QueueEntry) (queue : List QueueEntry)
    (loops : List Loop) : State :=
  let laneState := s.heap loop.lane
  let task : Task := ⟨loop.laneKey, loop.lane, entry⟩
  { s with
    heap := Function.update s.heap loop.lane
      { laneState with queue, activeTaskIds := insert entry.id laneState.activeTaskIds }
    running := s.running ++ [task]
    started := s.started ++ [entry.promise]
    stack := ⟨task, loop :: loops⟩ :: s.stack }

section

variable {s : State} {loop : Loop} {entry : QueueEntry} {queue : List QueueEntry}
  {loops : List Loop} {lane : ℕ}

theorem State.startEntry_queue :
    ((s.startEntry loop entry queue loops).heap loop.lane).queue = queue := by
  simp only [startEntry, Function.update_self]

theorem State.startEntry_heap (hne : lane ≠ loop.lane) :
    (s.startEntry loop entry queue loops).heap lane = s.heap lane := Function.update_of_ne hne ..

end

/-- The loops of `pump` go on, up to the next task that is started. -/
def drive (s : State) : List Loop → State
  | [] => s
  | loop :: loops =>
    match (s.heap loop.lane).queue with
    -- this loop is over, and the one it was called from goes on
    | [] => drive s loops
    | entry :: queue =>
      if ((s.heap loop.lane).activeTaskIds.card : ℚ) < (s.heap loop.lane).maxConcurrent then
        s.startEntry loop entry queue loops
      else drive s loops

def pump (s : State) (laneKey : JsString) (loops : List Loop) : State :=
  let (s, lane) := getLane s laneKey
  -- `draining` is looked at once, before the loop
  if (s.heap lane).draining then drive s loops else drive s (⟨laneKey, lane⟩ :: loops)

def State.push (s : State) (lane : ℕ) (key : JsString) : State :=
  let laneState := s.heap lane
  let id := s.taskIdCounter + 1
  let entry : QueueEntry := ⟨id, s.keys.length, laneState.generation⟩
  { s with
    taskIdCounter := id
    keys := s.keys ++ [key]
    heap := Function.update s.heap lane { laneState with queue := laneState.queue ++ [entry] } }

theorem State.push_queue (s : State) (lane : ℕ) (key : JsString) :
    ((s.push lane key).heap lane).queue = (s.heap lane).queue ++
      [⟨s.taskIdCounter + 1, s.keys.length, (s.heap lane).generation⟩] := by
  simp only [push, Function.update_self]

theorem State.push_heap (s : State) {lane lane' : ℕ} (key : JsString) (hne : lane' ≠ lane) :
    (s.push lane key).heap lane' = s.heap lane' := Function.update_of_ne hne ..

theorem State.mem_push_queue {s : State} {lane lane' : ℕ} {key : JsString} {entry : QueueEntry}
    (hentry : entry ∈ ((s.push lane key).heap lane').queue) :
    entry ∈ (s.heap lane').queue ∨ lane' = lane ∧
      entry = ⟨s.taskIdCounter + 1, s.keys.length, (s.heap lane).generation⟩ := by
  rcases eq_or_ne lane' lane with rfl | hne
  · rw [s.push_queue] at hentry
    exact (List.mem_append.mp hentry).imp_right fun hnew => ⟨rfl, List.mem_singleton.mp hnew⟩
  · rw [s.push_heap key hne] at hentry
    exact Or.inl hentry

/-- The end of `executeEntry`, and the loops that go on after it. -/
def finishEntry (s : State) (task : Task) (how : Settlement) (loops : List Loop) : State :=
  let laneState := s.heap task.lane
  pump
    { s with
      settled := settle s.settled task.entry.promise how
      running := s.running.erase task
      heap := Function.update s.heap task.lane
        { laneState with activeTaskIds := laneState.activeTaskIds.erase task.entry.id } }
    task.laneKey loops

def State.resetLane (s : State) (lane : ℕ) : State :=
  let laneState := s.heap lane
  { s with
    settled := rejectAll s.settled laneState.queue
    heap := Function.update s.heap lane
      { laneState with
        generation := laneState.generation + 1
        queue := []
        activeTaskIds := ∅
        draining := false } }

def State.dropLane (s : State) (key : JsString) : State :=
  match s.lanes.lookup key with
  | some lane =>
    { s with
      settled := rejectAll s.settled (s.heap lane).queue
      lanes := s.lanes.erase key }
  | none => s

/-! ### The operations -/

def registerWorkspace (s : State) (workspaceId : JsString)
    (concurrency : CommandLane → Option ℚ) : State :=
  CommandLane.values.foldl
    (fun s lane =>
      s.addLane (buildLaneKey workspaceId lane)
        ((concurrency lane).getD (DEFAULT_CONCURRENCY lane))) s

def unregisterWorkspace (s : State) (workspaceId : JsString) : State :=
  CommandLane.values.foldl (fun s lane => s.dropLane (buildLaneKey workspaceId lane)) s

def enqueue (s : State) (lane : CommandLane) (workspaceId : JsString) (isDraining : Bool) :
    State :=
  let key := buildLaneKey workspaceId lane
  if isDraining then
    { s with
      keys := s.keys ++ [key]
      settled := settle s.settled s.keys.length .draining }
  else
    let (s, laneState) := getLane s key
    pump (s.push laneState key) key []

def resetAll (s : State) : State :=
  s.lanes.entries.foldl (fun s entry => s.resetLane entry.2) s

/-- What may happen: an operation, by the program or by a task that has not come back; the
last task started comes back with its promise, or throws before; and, when all have come back,
the promise of a task is settled. -/
inductive Event
  | registerWorkspace (workspaceId : JsString) (concurrency : CommandLane → Option ℚ)
  | unregisterWorkspace (workspaceId : JsString)
  | enqueue (lane : CommandLane) (workspaceId : JsString) (isDraining : Bool)
  | resetAll
  | returned
  | threw
  | complete (task : Task) (fulfilled : Bool)

def step (s : State) : Event → State
  | .registerWorkspace workspaceId concurrency => registerWorkspace s workspaceId concurrency
  | .unregisterWorkspace workspaceId => unregisterWorkspace s workspaceId
  | .enqueue lane workspaceId isDraining => enqueue s lane workspaceId isDraining
  | .resetAll => resetAll s
  | .returned =>
    match s.stack with
    | [] => s
    | frame :: stack => drive { s with stack } frame.loops
  | .threw =>
    match s.stack with
    | [] => s
    | frame :: stack => finishEntry { s with stack } frame.task .failed frame.loops
  | .complete task fulfilled =>
    if s.stack = [] ∧ task ∈ s.running then
      let how : Settlement :=
        if ¬fulfilled then .failed
        -- the lane was reset in the meantime
        else if task.entry.generation ≠ (s.heap task.lane).generation then .cleared
        else .resolved
      finishEntry s task how []
    else s

end OpenCms.Lanes
