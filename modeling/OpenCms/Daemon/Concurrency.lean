import OpenCms.Daemon.Tasks
import Mathlib.Algebra.Order.Floor.Semiring
import Mathlib.Data.Rat.Floor
import Mathlib.Data.List.Sort

/-!
# How many tasks of a lane are under way

A lane starts a task while its set of active tasks has room, and a task leaves the set when it
finishes. A reset, which follows a restart, clears the set, so the tasks under way at that time
are not counted any more and those that come after them find the lane empty:
`OpenCms.Lanes.concurrency_exceeded` is such a run. What is bounded are the tasks of the
lane's current generation, those that were put into its queue after its last reset
(`OpenCms.Lanes.lane_bounded`).

The tasks of a lane begin in the order in which they were put into its queue, whatever happens
in between. `OpenCms.Lanes.startLog` has the tasks of a run in the order in which they begin.
-/

namespace OpenCms.Lanes

/-! ### The tasks of a run -/

/-- The task that begins in a step, which is then the one on top of the stack. -/
def startedBy (s s' : State) : Option Task :=
  if s'.started.length = s.started.length then none else s'.stack.head?.map (·.task)

def logStep (p : State × List Task) (event : Event) : State × List Task :=
  let s := step p.1 event
  (s, p.2 ++ (startedBy p.1 s).toList)

def startLog (events : List Event) : List Task := (run logStep (.start, []) events).2

def State.current (s : State) (lane : ℕ) : List Task :=
  s.running.filter fun task =>
    task.lane = lane ∧ task.entry.generation = (s.heap lane).generation

def InOrder (log : List Task) (lane : ℕ) : Prop :=
  (log.filter (·.lane = lane)).Pairwise fun task task' =>
    task.entry.promise < task'.entry.promise

def State.Has (s : State) (log : List Task) (entry : QueueEntry) : Prop :=
  (∃ lane, entry ∈ (s.heap lane).queue) ∨ ∃ task ∈ log, task.entry = entry

/-- What holds of a state and of the tasks that have begun so far. -/
structure Bounded (s : State) (log : List Task) : Prop where
  log_started : log.map (·.entry.promise) = s.started
  running_log : s.running.Sublist log
  stack_log : ∀ frame ∈ s.stack, frame.task ∈ log
  task_lt : ∀ task ∈ log, task.lane < s.next
  loop_lt : ∀ frame ∈ s.stack, ∀ loop ∈ frame.loops, loop.lane < s.next
  id_le : ∀ {entry : QueueEntry}, s.Has log entry → entry.id ≤ s.taskIdCounter
  id_inj : ∀ {entry entry' : QueueEntry}, s.Has log entry → s.Has log entry' →
    entry.id = entry'.id → entry.promise = entry'.promise
  queue_generation : ∀ {lane : ℕ}, ∀ entry ∈ (s.heap lane).queue,
    entry.generation ≤ (s.heap lane).generation
  task_generation : ∀ task ∈ log, task.entry.generation ≤ (s.heap task.lane).generation
  /-- Only a reset takes a task out of the set before it finishes. -/
  active : ∀ task ∈ s.running, task.entry.generation = (s.heap task.lane).generation →
    task.entry.id ∈ (s.heap task.lane).activeTaskIds
  card_le : ∀ lane, (s.heap lane).activeTaskIds.card ≤ ⌈(s.heap lane).maxConcurrent⌉₊
  queue_sorted : ∀ lane, (s.heap lane).queue.Pairwise fun entry entry' =>
    entry.promise < entry'.promise
  log_lt : ∀ task ∈ log, ∀ entry ∈ (s.heap task.lane).queue,
    task.entry.promise < entry.promise
  in_order : ∀ lane, InOrder log lane

variable {s s' t : State} {log : List Task}

theorem Bounded.start : Bounded .start [] where
  log_started := rfl
  running_log := List.Sublist.refl _
  stack_log _ h := absurd h List.not_mem_nil
  task_lt _ h := absurd h List.not_mem_nil
  loop_lt _ h := absurd h List.not_mem_nil
  id_le := by
    rintro entry (⟨lane, h⟩ | ⟨task, h, -⟩)
    · exact absurd h List.not_mem_nil
    · exact absurd h List.not_mem_nil
  id_inj := by
    rintro entry entry' (⟨lane, h⟩ | ⟨task, h, -⟩)
    · exact absurd h List.not_mem_nil
    · exact absurd h List.not_mem_nil
  queue_generation _ h := absurd h List.not_mem_nil
  task_generation _ h := absurd h List.not_mem_nil
  active _ h := absurd h List.not_mem_nil
  card_le _ := Nat.zero_le _
  queue_sorted _ := List.Pairwise.nil
  log_lt _ h := absurd h List.not_mem_nil
  in_order _ := List.Pairwise.nil

theorem Bounded.task_inj {task task' : Task} (h : Bounded s log) (hs : Ledger False s)
    (htask : task ∈ log) (htask' : task' ∈ log)
    (heq : task.entry.promise = task'.entry.promise) : task = task' := by
  have hnodup : (log.map (·.entry.promise)).Nodup := h.log_started ▸ hs.started_nodup
  exact List.inj_on_of_nodup_map hnodup htask htask' heq

theorem Bounded.current_le (h : Bounded s log) (hs : Ledger False s) (lane : ℕ) :
    (s.current lane).length ≤ ⌈(s.heap lane).maxConcurrent⌉₊ := by
  have hsub : (s.current lane).Sublist log := List.filter_sublist.trans h.running_log
  have hnodup : ((s.current lane).map (·.entry.id)).Nodup := by
    have hlog : log.Nodup := List.Nodup.of_map (·.entry.promise) (h.log_started ▸ hs.started_nodup)
    refine List.Nodup.map_on (fun task htask task' htask' heq => ?_) (hlog.sublist hsub)
    have hmem := hsub.subset htask
    have hmem' := hsub.subset htask'
    exact h.task_inj hs hmem hmem'
      (h.id_inj (Or.inr ⟨task, hmem, rfl⟩) (Or.inr ⟨task', hmem', rfl⟩) heq)
  have hactive : ((s.current lane).map (·.entry.id)).toFinset ⊆ (s.heap lane).activeTaskIds := by
    intro id hid
    obtain ⟨task, htask, rfl⟩ := List.mem_map.mp (List.mem_toFinset.mp hid)
    obtain ⟨hrunning, hcurrent⟩ := List.mem_filter.mp htask
    obtain ⟨rfl, hgeneration⟩ := of_decide_eq_true hcurrent
    exact h.active task hrunning hgeneration
  calc
    (s.current lane).length = ((s.current lane).map (·.entry.id)).toFinset.card := by
      rw [List.toFinset_card_of_nodup hnodup, List.length_map]
    _ ≤ (s.heap lane).activeTaskIds.card := Finset.card_le_card hactive
    _ ≤ ⌈(s.heap lane).maxConcurrent⌉₊ := h.card_le lane

/-! ### The parts of the operations -/

theorem startedBy_of_eq (h : s'.started = s.started) : startedBy s s' = none :=
  if_pos (congrArg List.length h)

theorem Bounded.of_started (h : Bounded s' log) (hstarted : s'.started = s.started) :
    Bounded s' (log ++ (startedBy s s').toList) := by
  rwa [startedBy_of_eq hstarted, Option.toList_none, List.append_nil]

theorem startedBy_congr (h : t.started = s.started) : startedBy t s' = startedBy s s' := by
  rw [startedBy, startedBy, h]

theorem Bounded.shrink {heap : ℕ → LaneState} {lanes : AList fun _ : JsString => ℕ}
    {running : List Task} {settled : ℕ → Option Settlement} (h : Bounded s log)
    (hqueue : ∀ lane, (heap lane).queue.Sublist (s.heap lane).queue)
    (hgeneration : ∀ lane, (s.heap lane).generation ≤ (heap lane).generation)
    (hcard : ∀ lane, (heap lane).activeTaskIds.card ≤ ⌈(heap lane).maxConcurrent⌉₊)
    (hrunning : running.Sublist s.running)
    (hactive : ∀ task ∈ running, task.entry.generation = (heap task.lane).generation →
      task.entry.id ∈ (heap task.lane).activeTaskIds) :
    Bounded { s with heap, lanes, running, settled } log := by
  have hhas {entry : QueueEntry}
      (hentry : State.Has { s with heap, lanes, running, settled } log entry) :
      s.Has log entry :=
    hentry.imp_left fun ⟨lane, hmem⟩ => ⟨lane, (hqueue lane).subset hmem⟩
  exact
    { log_started := h.log_started
      running_log := hrunning.trans h.running_log
      stack_log := h.stack_log
      task_lt := h.task_lt
      loop_lt := h.loop_lt
      id_le := fun hentry => h.id_le (hhas hentry)
      id_inj := fun hentry hentry' => h.id_inj (hhas hentry) (hhas hentry')
      queue_generation := fun {lane} entry hentry =>
        (h.queue_generation entry ((hqueue lane).subset hentry)).trans (hgeneration lane)
      task_generation := fun task htask =>
        (h.task_generation task htask).trans (hgeneration task.lane)
      active := hactive
      card_le := hcard
      queue_sorted := fun lane => (h.queue_sorted lane).sublist (hqueue lane)
      log_lt := fun task htask entry hentry =>
        h.log_lt task htask entry ((hqueue task.lane).subset hentry)
      in_order := h.in_order }

theorem Bounded.pop {frame : Frame} {stack : List Frame} (h : Bounded s log)
    (hstack : s.stack = frame :: stack) : Bounded { s with stack } log :=
  { h with
    stack_log := fun frame' hframe =>
      h.stack_log frame' (hstack ▸ List.mem_cons_of_mem _ hframe)
    loop_lt := fun frame' hframe =>
      h.loop_lt frame' (hstack ▸ List.mem_cons_of_mem _ hframe) }

theorem Bounded.addLane {key : JsString} {maxConcurrent : ℚ} (h : Bounded s log) :
    Bounded (s.addLane key maxConcurrent) log := by
  have hhas {entry : QueueEntry} (hentry : (s.addLane key maxConcurrent).Has log entry) :
      s.Has log entry :=
    hentry.imp_left fun ⟨lane, hmem⟩ => ⟨lane, (State.mem_addLane_queue hmem).2⟩
  -- a task that has begun is of a lane that was there before
  have htask {task : Task} (hmem : task ∈ log) :
      (s.addLane key maxConcurrent).heap task.lane = s.heap task.lane :=
    State.addLane_heap (h.task_lt task hmem).ne
  refine ⟨h.log_started, h.running_log, h.stack_log, fun task hmem => ?_,
    fun frame hframe loop hloop => ?_, fun hentry => h.id_le (hhas hentry),
    fun hentry hentry' => h.id_inj (hhas hentry) (hhas hentry'), fun {lane} entry hentry => ?_,
    fun task hmem => ?_, fun task hmem => ?_, fun lane => ?_, fun lane => ?_,
    fun task hmem entry hentry => h.log_lt task hmem entry (State.mem_addLane_queue hentry).2,
    h.in_order⟩
  · exact (h.task_lt task hmem).trans (Nat.lt_succ_self _)
  · exact (h.loop_lt frame hframe loop hloop).trans (Nat.lt_succ_self _)
  · obtain ⟨hne, hold⟩ := State.mem_addLane_queue hentry
    rw [State.addLane_heap hne]
    exact h.queue_generation entry hold
  · rw [htask hmem]
    exact h.task_generation task hmem
  · rw [htask (h.running_log.subset hmem)]
    exact h.active task hmem
  · rcases eq_or_ne lane s.next with rfl | hne
    · simp only [State.addLane, Function.update_self, Finset.card_empty, Nat.zero_le]
    · rw [State.addLane_heap hne]
      exact h.card_le lane
  · rcases eq_or_ne lane s.next with rfl | hne
    · rw [State.addLane_queue]
      exact List.Pairwise.nil
    · rw [State.addLane_heap hne]
      exact h.queue_sorted lane

theorem Bounded.getLane (h : Bounded s log) (laneKey : JsString) :
    Bounded (getLane s laneKey).1 log ∧ (getLane s laneKey).1.started = s.started := by
  unfold Lanes.getLane
  cases s.lanes.lookup laneKey with
  | some lane => exact ⟨h, rfl⟩
  | none => exact ⟨h.addLane, rfl⟩

theorem State.startEntry_sublist {loop : Loop} {entry : QueueEntry} {queue : List QueueEntry}
    {loops : List Loop} (hloop : (s.heap loop.lane).queue = entry :: queue) (lane : ℕ) :
    ((s.startEntry loop entry queue loops).heap lane).queue.Sublist (s.heap lane).queue := by
  rcases eq_or_ne lane loop.lane with rfl | hne
  · rw [State.startEntry_queue, hloop]
    exact List.sublist_cons_self _ _
  · rw [State.startEntry_heap hne]

theorem State.startEntry_generation (s : State) (loop : Loop) (entry : QueueEntry)
    (queue : List QueueEntry) (loops : List Loop) (lane : ℕ) :
    ((s.startEntry loop entry queue loops).heap lane).generation = (s.heap lane).generation := by
  rcases eq_or_ne lane loop.lane with rfl | hne
  · simp only [State.startEntry, Function.update_self]
  · rw [State.startEntry_heap hne]

theorem InOrder.concat {task : Task} {lane : ℕ} (h : InOrder log lane)
    (hlast : ∀ task' ∈ log, task'.lane = task.lane → task'.entry.promise < task.entry.promise) :
    InOrder (log ++ [task]) lane := by
  unfold InOrder
  rw [List.filter_append, List.pairwise_append]
  refine ⟨h, List.Pairwise.filter _ (List.pairwise_singleton _ _),
    fun task' htask' new hnew => ?_⟩
  obtain ⟨hold, hlane⟩ := List.mem_filter.mp htask'
  obtain ⟨hnew, hlane'⟩ := List.mem_filter.mp hnew
  obtain rfl := List.mem_singleton.mp hnew
  exact hlast task' hold ((of_decide_eq_true hlane).trans (of_decide_eq_true hlane').symm)

theorem Bounded.startEntry {loop : Loop} {entry : QueueEntry} {queue : List QueueEntry}
    {loops : List Loop} (h : Bounded s log)
    (hloops : ∀ loop' ∈ loop :: loops, loop'.lane < s.next)
    (hloop : (s.heap loop.lane).queue = entry :: queue)
    (hroom : ((s.heap loop.lane).activeTaskIds.card : ℚ) < (s.heap loop.lane).maxConcurrent) :
    Bounded (s.startEntry loop entry queue loops)
      (log ++ [⟨loop.laneKey, loop.lane, entry⟩]) := by
  have hfirst : entry ∈ (s.heap loop.lane).queue := hloop ▸ List.mem_cons_self
  have hsorted := h.queue_sorted loop.lane
  rw [hloop, List.pairwise_cons] at hsorted
  have hqueue (lane : ℕ) := @State.startEntry_sublist s loop entry queue loops hloop lane
  have hgeneration := s.startEntry_generation loop entry queue loops
  have hmem {task : Task} (htask : task ∈ log ++ [⟨loop.laneKey, loop.lane, entry⟩]) :
      task ∈ log ∨ task = ⟨loop.laneKey, loop.lane, entry⟩ :=
    (List.mem_append.mp htask).imp_right List.mem_singleton.mp
  -- the entry goes from the queue to the log, so that there is no new one
  have hhas {e : QueueEntry} (he : (s.startEntry loop entry queue loops).Has
      (log ++ [⟨loop.laneKey, loop.lane, entry⟩]) e) : s.Has log e := by
    rcases he with ⟨lane, he⟩ | ⟨task, htask, rfl⟩
    · exact Or.inl ⟨lane, (hqueue lane).subset he⟩
    · rcases hmem htask with hold | rfl
      · exact Or.inr ⟨task, hold, rfl⟩
      · exact Or.inl ⟨loop.lane, hfirst⟩
  refine ⟨?_, ?_, fun frame hframe => ?_, fun task htask => ?_, fun frame hframe => ?_,
    fun he => h.id_le (hhas he), fun he he' => h.id_inj (hhas he) (hhas he'),
    fun {lane} e he => ?_, fun task htask => ?_, fun task htask hcurrent => ?_, fun lane => ?_,
    fun lane => (h.queue_sorted lane).sublist (hqueue lane), fun task htask e he => ?_,
    fun lane => ?_⟩
  · rw [List.map_append, h.log_started]
    rfl
  · exact h.running_log.append (List.Sublist.refl _)
  · rcases List.mem_cons.mp hframe with rfl | hframe
    · exact List.mem_append_right _ List.mem_cons_self
    · exact List.mem_append_left _ (h.stack_log frame hframe)
  · rcases hmem htask with hold | rfl
    · exact h.task_lt task hold
    · exact hloops loop List.mem_cons_self
  · rcases List.mem_cons.mp hframe with rfl | hframe
    · exact hloops
    · exact h.loop_lt frame hframe
  · rw [hgeneration]
    exact h.queue_generation e ((hqueue lane).subset he)
  · rw [hgeneration]
    rcases hmem htask with hold | rfl
    · exact h.task_generation task hold
    · exact h.queue_generation entry hfirst
  · rw [hgeneration] at hcurrent
    rcases List.mem_append.mp htask with hold | hnew
    · have hid := h.active task hold hcurrent
      rcases eq_or_ne task.lane loop.lane with heq | hne
      · rw [heq] at hid ⊢
        simp only [State.startEntry, Function.update_self]
        exact Finset.mem_insert_of_mem hid
      · rwa [State.startEntry_heap hne]
    · obtain rfl := List.mem_singleton.mp hnew
      simp only [State.startEntry, Function.update_self]
      exact Finset.mem_insert_self _ _
  · rcases eq_or_ne lane loop.lane with rfl | hne
    · simp only [State.startEntry, Function.update_self]
      exact (Finset.card_insert_le _ _).trans (Nat.lt_ceil.mpr hroom)
    · rw [State.startEntry_heap hne]
      exact h.card_le lane
  · rcases hmem htask with hold | rfl
    · exact h.log_lt task hold e ((hqueue task.lane).subset he)
    · rw [State.startEntry_queue] at he
      exact hsorted.1 e he
  · exact (h.in_order lane).concat fun task hold hsame => h.log_lt task hold entry (hsame ▸ hfirst)

theorem Bounded.drive {loops : List Loop} (h : Bounded s log)
    (hloops : ∀ loop ∈ loops, loop.lane < s.next) :
    Bounded (drive s loops) (log ++ (startedBy s (drive s loops)).toList) := by
  induction loops with
  | nil => exact h.of_started rfl
  | cons loop loops ih =>
    have hrest := ih fun loop' hloop' => hloops loop' (List.mem_cons_of_mem _ hloop')
    unfold Lanes.drive
    split
    · exact hrest
    next entry queue hloop =>
      split
      next hroom =>
        have hnew : startedBy s (s.startEntry loop entry queue loops) =
            some ⟨loop.laneKey, loop.lane, entry⟩ :=
          if_neg (by simp [State.startEntry])
        rw [hnew]
        exact h.startEntry hloops hloop hroom
      · exact hrest

theorem Bounded.pump {laneKey : JsString} {loops : List Loop} (h : Bounded s log)
    (hs : Ledger False s) (hloops : ∀ loop ∈ loops, loop.lane < s.next) :
    Bounded (pump s laneKey loops) (log ++ (startedBy s (pump s laneKey loops)).toList) := by
  obtain ⟨hledger, hlane⟩ := hs.getLane laneKey
  obtain ⟨hbounded, hstarted⟩ := h.getLane laneKey
  have hloops' : ∀ loop ∈ loops, loop.lane < (Lanes.getLane s laneKey).1.next := by
    intro loop hloop
    have hle : s.next ≤ (Lanes.getLane s laneKey).1.next := by
      unfold Lanes.getLane
      cases s.lanes.lookup laneKey with
      | some lane => exact le_refl _
      | none => exact Nat.le_succ _
    exact (hloops loop hloop).trans_le hle
  unfold Lanes.pump
  dsimp only
  rw [← startedBy_congr hstarted]
  split
  · exact hbounded.drive hloops'
  · refine hbounded.drive fun loop hloop => ?_
    rcases List.mem_cons.mp hloop with rfl | hloop
    · exact hledger.lane_lt hlane
    · exact hloops' loop hloop

theorem State.push_lane (s : State) (lane : ℕ) (key : JsString) (lane' : ℕ) :
    ((s.push lane key).heap lane').generation = (s.heap lane').generation ∧
      ((s.push lane key).heap lane').activeTaskIds = (s.heap lane').activeTaskIds ∧
      ((s.push lane key).heap lane').maxConcurrent = (s.heap lane').maxConcurrent := by
  rcases eq_or_ne lane' lane with rfl | hne
  · simp only [State.push, Function.update_self, and_self]
  · rw [s.push_heap key hne]
    exact ⟨rfl, rfl, rfl⟩

theorem Bounded.push {key : JsString} {lane : ℕ} (h : Bounded s log) (hs : Ledger False s) :
    Bounded (s.push lane key) log := by
  have hhas {e : QueueEntry} (he : (s.push lane key).Has log e) : s.Has log e ∨
      e = ⟨s.taskIdCounter + 1, s.keys.length, (s.heap lane).generation⟩ := by
    rcases he with ⟨lane', he⟩ | htask
    · exact (State.mem_push_queue he).imp (fun he => Or.inl ⟨lane', he⟩) And.right
    · exact Or.inl (Or.inr htask)
  have hlane := s.push_lane lane key
  -- whatever began was put into a queue before
  have hlog {task : Task} (htask : task ∈ log) : task.entry.promise < s.keys.length :=
    hs.started_lt _ (h.log_started ▸ List.mem_map_of_mem htask)
  refine ⟨h.log_started, h.running_log, h.stack_log, h.task_lt, h.loop_lt, fun he => ?_,
    fun {e e'} he he' heq => ?_, fun {lane'} e he => ?_, fun task htask => ?_,
    fun task htask => ?_, fun lane' => ?_, fun lane' => ?_, fun task htask e he => ?_,
    h.in_order⟩
  · show _ ≤ s.taskIdCounter + 1
    rcases hhas he with hold | rfl
    · exact (h.id_le hold).trans (Nat.le_succ _)
    · exact le_refl _
  · rcases hhas he with hold | rfl
    · rcases hhas he' with hold' | rfl
      · exact h.id_inj hold hold' heq
      · have hle := h.id_le hold
        dsimp only at heq
        omega
    · rcases hhas he' with hold' | rfl
      · have hle := h.id_le hold'
        dsimp only at heq
        omega
      · rfl
  · rw [(hlane lane').1]
    rcases State.mem_push_queue he with hold | ⟨rfl, rfl⟩
    · exact h.queue_generation e hold
    · exact le_refl _
  · rw [(hlane task.lane).1]
    exact h.task_generation task htask
  · rw [(hlane task.lane).1, (hlane task.lane).2.1]
    exact h.active task htask
  · rw [(hlane lane').2.1, (hlane lane').2.2]
    exact h.card_le lane'
  · rcases eq_or_ne lane' lane with rfl | hne
    · rw [s.push_queue, List.pairwise_append]
      refine ⟨h.queue_sorted lane', List.pairwise_singleton _ _, fun e he e' he' => ?_⟩
      obtain rfl := List.mem_singleton.mp he'
      exact hs.queue_lt he
    · rw [s.push_heap key hne]
      exact h.queue_sorted lane'
  · rcases State.mem_push_queue he with hold | ⟨-, rfl⟩
    · exact h.log_lt task htask e hold
    · exact hlog htask

theorem Bounded.dropLane (h : Bounded s log) (key : JsString) :
    Bounded (s.dropLane key) log ∧ (s.dropLane key).started = s.started := by
  unfold State.dropLane
  cases s.lanes.lookup key with
  | none => exact ⟨h, rfl⟩
  | some lane =>
    exact ⟨h.shrink (fun _ => List.Sublist.refl _) (fun _ => le_refl _) h.card_le
      (List.Sublist.refl _) h.active, rfl⟩

theorem Bounded.resetLane {lane : ℕ} (h : Bounded s log) : Bounded (s.resetLane lane) log := by
  refine h.shrink (fun lane' => ?_) (fun lane' => ?_) (fun lane' => ?_) (List.Sublist.refl _)
    fun task htask => ?_
  · rcases eq_or_ne lane' lane with rfl | hne
    · simp only [Function.update_self, List.nil_sublist]
    · rw [Function.update_of_ne hne]
  · rcases eq_or_ne lane' lane with rfl | hne
    · simp only [Function.update_self, Nat.le_succ]
    · rw [Function.update_of_ne hne]
  · rcases eq_or_ne lane' lane with rfl | hne
    · simp only [Function.update_self, Finset.card_empty, Nat.zero_le]
    · rw [Function.update_of_ne hne]
      exact h.card_le lane'
  · rcases eq_or_ne task.lane lane with rfl | hne
    · have hle := h.task_generation task (h.running_log.subset htask)
      simp only [Function.update_self]
      omega
    · rw [Function.update_of_ne hne]
      exact h.active task htask

theorem Bounded.finishEntry {task : Task} {how : Settlement} {loops : List Loop}
    (h : Bounded s log) (hs : Ledger False s) (htask : task ∈ log)
    (hloops : ∀ loop ∈ loops, loop.lane < s.next) :
    Bounded (finishEntry s task how loops)
      (log ++ (startedBy s (finishEntry s task how loops)).toList) := by
  have hstarted : task.entry.promise ∈ s.started := h.log_started ▸ List.mem_map_of_mem htask
  refine Bounded.pump (h.shrink (fun lane => ?_) (fun lane => ?_) (fun lane => ?_)
    List.erase_sublist fun task' htask' => ?_) (hs.finished hstarted) hloops
  · rcases eq_or_ne lane task.lane with rfl | hne
    · simp only [Function.update_self, List.Sublist.refl]
    · rw [Function.update_of_ne hne]
  · rcases eq_or_ne lane task.lane with rfl | hne
    · simp only [Function.update_self, le_refl]
    · rw [Function.update_of_ne hne]
  · rcases eq_or_ne lane task.lane with rfl | hne
    · simp only [Function.update_self]
      exact (Finset.card_le_card (Finset.erase_subset _ _)).trans (h.card_le task.lane)
    · rw [Function.update_of_ne hne]
      exact h.card_le lane
  · have hlog : log.Nodup :=
      List.Nodup.of_map (·.entry.promise) (h.log_started ▸ hs.started_nodup)
    obtain ⟨hne, hrunning⟩ := (hlog.sublist h.running_log).mem_erase_iff.mp htask'
    have hmem := h.running_log.subset hrunning
    have hid : task'.entry.id ≠ task.entry.id := fun heq =>
      hne (h.task_inj hs hmem htask
        (h.id_inj (Or.inr ⟨task', hmem, rfl⟩) (Or.inr ⟨task, htask, rfl⟩) heq))
    rcases eq_or_ne task'.lane task.lane with heq | hne'
    · have hactive := h.active task' hrunning
      rw [heq] at hactive ⊢
      simp only [Function.update_self]
      exact fun hcurrent => Finset.mem_erase.mpr ⟨hid, hactive hcurrent⟩
    · rw [Function.update_of_ne hne']
      exact h.active task' hrunning

/-! ### The operations -/

theorem Bounded.addLanes {key : CommandLane → JsString} {maxConcurrent : CommandLane → ℚ}
    {lanes : List CommandLane} (h : Bounded s log) :
    Bounded (lanes.foldl (fun s lane => s.addLane (key lane) (maxConcurrent lane)) s) log ∧
      (lanes.foldl (fun s lane => s.addLane (key lane) (maxConcurrent lane)) s).started =
        s.started := by
  induction lanes generalizing s with
  | nil => exact ⟨h, rfl⟩
  | cons lane lanes ih => exact ih h.addLane

theorem Bounded.unregisterWorkspace {workspaceId : JsString} (h : Bounded s log) :
    Bounded (unregisterWorkspace s workspaceId) log ∧
      (Lanes.unregisterWorkspace s workspaceId).started = s.started := by
  unfold Lanes.unregisterWorkspace
  induction CommandLane.values generalizing s with
  | nil => exact ⟨h, rfl⟩
  | cons lane lanes ih =>
    obtain ⟨hlane, hstarted⟩ := h.dropLane (buildLaneKey workspaceId lane)
    exact ⟨(ih hlane).1, (ih hlane).2.trans hstarted⟩

theorem Bounded.resetAll (h : Bounded s log) :
    Bounded (resetAll s) log ∧ (Lanes.resetAll s).started = s.started := by
  unfold Lanes.resetAll
  induction s.lanes.entries generalizing s with
  | nil => exact ⟨h, rfl⟩
  | cons entry entries ih => exact ih h.resetLane

theorem Bounded.enqueue {lane : CommandLane} {workspaceId : JsString} {isDraining : Bool}
    (h : Bounded s log) (hs : Ledger False s) :
    Bounded (enqueue s lane workspaceId isDraining)
      (log ++ (startedBy s (Lanes.enqueue s lane workspaceId isDraining)).toList) := by
  unfold Lanes.enqueue
  dsimp only
  split
  · exact Bounded.of_started { h with } rfl
  · obtain ⟨hledger, hlane⟩ := hs.getLane (buildLaneKey workspaceId lane)
    obtain ⟨hbounded, hstarted⟩ := h.getLane (buildLaneKey workspaceId lane)
    rw [← startedBy_congr hstarted]
    exact (hbounded.push hledger).pump (hledger.push hlane) fun _ hloop =>
      absurd hloop List.not_mem_nil

/-- **What one step preserves.** -/
theorem Bounded.step {event : Event} (h : Bounded s log) (hs : Ledger False s) :
    Bounded (step s event) (log ++ (startedBy s (step s event)).toList) := by
  have hsame {s' : State} (hs' : Bounded s' log ∧ s'.started = s.started) :
      Bounded s' (log ++ (startedBy s s').toList) := hs'.1.of_started hs'.2
  cases event with
  | registerWorkspace workspaceId concurrency => exact hsame h.addLanes
  | unregisterWorkspace workspaceId => exact hsame h.unregisterWorkspace
  | enqueue lane workspaceId isDraining => exact h.enqueue hs
  | resetAll => exact hsame h.resetAll
  | returned =>
    unfold Lanes.step
    dsimp only
    split
    · exact hsame ⟨h, rfl⟩
    next frame stack hstack =>
      have hframe : frame ∈ s.stack := hstack ▸ List.mem_cons_self
      exact (h.pop hstack).drive (h.loop_lt frame hframe)
  | threw =>
    unfold Lanes.step
    dsimp only
    split
    · exact hsame ⟨h, rfl⟩
    next frame stack hstack =>
      have hframe : frame ∈ s.stack := hstack ▸ List.mem_cons_self
      exact (h.pop hstack).finishEntry (hs.pop hstack) (h.stack_log frame hframe)
        (h.loop_lt frame hframe)
  | complete task fulfilled =>
    unfold Lanes.step
    dsimp only
    split
    next hrunning =>
      exact h.finishEntry hs (h.running_log.subset hrunning.2) fun _ hloop =>
        absurd hloop List.not_mem_nil
    · exact hsame ⟨h, rfl⟩

theorem run_logStep (events : List Event) :
    (run logStep (.start, []) events).1 = run step .start events :=
  (List.foldl_hom Prod.fst fun _ _ => rfl).symm

theorem bounded_run (events : List Event) :
    Bounded (run step .start events) (startLog events) := by
  have hstep (p : State × List Task) (event : Event) (h : Ledger False p.1 ∧ Bounded p.1 p.2) :
      Ledger False (logStep p event).1 ∧ Bounded (logStep p event).1 (logStep p event).2 :=
    ⟨h.1.step False.elim, h.2.step h.1⟩
  have hrun := run_invariant (fun p : State × List Task => Ledger False p.1 ∧ Bounded p.1 p.2)
    (s := (.start, [])) ⟨.start, .start⟩ hstep events
  exact run_logStep events ▸ hrun.2

/-- **A lane has no more tasks of its current generation under way than it may**, after every
run, and its tasks began in the order in which they were put into its queue. -/
theorem lane_bounded (events : List Event) (lane : ℕ) :
    ((run step .start events).current lane).length ≤
        ⌈((run step .start events).heap lane).maxConcurrent⌉₊ ∧
      InOrder (startLog events) lane :=
  ⟨(bounded_run events).current_le (ledger_run events) lane, (bounded_run events).in_order lane⟩

/-- A number of tasks that is not whole is rounded up. -/
example : ((run step .start [.registerWorkspace (js "default") fun _ => some (3 / 2),
    .enqueue .main (js "default") false, .returned,
    .enqueue .main (js "default") false]).current 0).length = 2 := by
  decide +kernel

def Event.OnLanes : Event → Prop
  | .registerWorkspace .. => False
  | .unregisterWorkspace _ => False
  | _ => True

/-- **A lane has more tasks under way than it may** when one is put into its queue after a
reset that found another one under way. -/
theorem concurrency_exceeded :
    ¬∀ workspaceId concurrency events, (∀ event ∈ events, Event.OnLanes event) → ∀ lane,
      let start := step .start (.registerWorkspace workspaceId concurrency)
      (((run step start events).running.filter (·.lane = lane)).length : ℚ) ≤
          ((run step start events).heap lane).maxConcurrent ∧
        InOrder (startLog (.registerWorkspace workspaceId concurrency :: events)) lane := by
  intro h
  have hevents : ∀ event ∈ [.enqueue .main (js "default") false, .returned, .resetAll,
      .enqueue .main (js "default") false], Event.OnLanes event := by
    simp [Event.OnLanes]
  exact absurd (h (js "default") (fun _ => none) _ hevents 0).1 (by decide)

end OpenCms.Lanes
