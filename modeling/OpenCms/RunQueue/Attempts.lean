import OpenCms.RunQueue.Resume

/-!
# Attempts that fail

While an attempt is in its prompt loop, another continuation of the session may be enqueued. When
the loop fails, the attempt does not look at the queue again: it removes what is there, or puts its
own item in its place. That item it enqueues with the default priority, so it is in the normal lane
from then on. And when the lane was reset while the task ran, the promise is settled with an error
though the task has come to its end, and the task is run once more.

So a failed attempt keeps what it should as long as its error handling and what is enqueued since it
picked its item keep out of each other's way, nothing else removes that, only items of the normal
lane are put back, and a lane is not reset while a prompt loop runs in it
(`OpenCms.WorkflowRunner.resume_sound`).
-/

namespace OpenCms.WorkflowRunner

open RunQueue (Lane Slot QueueEntry lanesByPriority)

/-! ### What an event must meet -/

/-- The error handling of an attempt has a lane behind it: it does not remove the file there, and if
it puts back the item, it has done so. -/
def Behind (world : RunQueue.World) (attempt : Attempt) (lane : Lane) : Prop :=
  ∀ call ∈ world.calls, call.id ∈ attempt.handlers →
    .lane lane ∉ call.pending ∧ (call.target ≠ none → call.written = true)

instance Behind.instDecidable (world : RunQueue.World) (attempt : Attempt) (lane : Lane) :
    Decidable (Behind world attempt lane) :=
  inferInstanceAs (Decidable (∀ call ∈ world.calls, call.id ∈ attempt.handlers →
    .lane lane ∉ call.pending ∧ (call.target ≠ none → call.written = true)))

/-- What a change of a file must meet for an attempt. A removal takes nothing away that was enqueued
since the item was picked, while the error handling is in progress; an entry is written when the
error handling has the lane behind it, and what it has put back is not in another lane. -/
def MayChange (world : RunQueue.World) (change : Change) (attempt : Attempt) : Prop :=
  attempt.item.sessionID = change.sessionID → change.call ∉ attempt.handlers →
    (change.content = none → attempt.handling = .begun → attempt.newer change.lane = none) ∧
      (change.content ≠ none →
        Behind world attempt change.lane ∧ (attempt.own = none ∨ attempt.own = some change.lane))

instance MayChange.instDecidable (world : RunQueue.World) (change : Change) (attempt : Attempt) :
    Decidable (MayChange world change attempt) :=
  inferInstanceAs (Decidable (_ → _ → (_ → _ → _) ∧ (_ → _ ∧ _)))

/-- What the error handling of an attempt must meet. If it calls the queue, nothing was enqueued
since the item was picked, and an item that is put back is of the normal lane; if not, what was
enqueued is still there. -/
def MayHandle (queue : RunQueue.Queue) (attempt : Attempt) (failure : Failure) : Prop :=
  if failure.blocked = true ∨ parses attempt.item.pending = true then
    (∀ lane ∈ lanesByPriority, attempt.newer lane = none) ∧
      (failure.blocked = false → attempt.item.lane = none ∨ attempt.item.lane = some .normal)
  else
    ∀ lane ∈ lanesByPriority, ∀ entry ∈ attempt.newer lane,
      Table.lookup QueueEntry.key (queue.lanes lane) attempt.item.sessionID = some entry

instance MayHandle.instDecidable (queue : RunQueue.Queue) (attempt : Attempt)
    (failure : Failure) : Decidable (MayHandle queue attempt failure) :=
  inferInstanceAs (Decidable (ite _ ((∀ lane ∈ lanesByPriority, _) ∧ (_ → _))
    (∀ lane ∈ lanesByPriority, ∀ entry ∈ attempt.newer lane, _)))

def MayComplete (lanes : Lanes.State) (attempt : Attempt) : Prop :=
  ∀ task ∈ lanes.running, attempt.stage = .launched (some task.entry.promise) →
    task.entry.generation = (lanes.heap task.lane).generation ∨ (attempt.run .lane).loops = 0

instance MayComplete.instDecidable (lanes : Lanes.State) (attempt : Attempt) :
    Decidable (MayComplete lanes attempt) :=
  inferInstanceAs (Decidable (∀ task ∈ lanes.running,
    attempt.stage = .launched (some task.entry.promise) → _ ∨ _))

def MayStep (s : State) (event : RunQueue.Event) : Prop :=
  ∀ change ∈ changeOf s.world event, ∀ attempt ∈ s.attempts, MayChange s.world change attempt

instance MayStep.instDecidable (s : State) (event : RunQueue.Event) :
    Decidable (MayStep s event) :=
  inferInstanceAs (Decidable (∀ change ∈ changeOf s.world event, ∀ attempt ∈ s.attempts,
    MayChange s.world change attempt))

def Fit (s : State) : Event → Prop
  | .removed id slot => MayStep s (.removed id slot)
  | .goesOn id => MayStep s (.goesOn id)
  | .ended i place failed _ =>
    ∀ attempt ∈ s.attempts[i]?, (attempt.run place).point = .looping →
      ∀ failure ∈ failed, MayHandle s.world.queue attempt failure
  | .complete i => ∀ attempt ∈ s.attempts[i]?, MayComplete s.lanes attempt
  | _ => True

instance Fit.instDecidable (s : State) : (event : Event) → Decidable (Fit s event)
  | .removed id slot => inferInstanceAs (Decidable (MayStep s (.removed id slot)))
  | .goesOn id => inferInstanceAs (Decidable (MayStep s (.goesOn id)))
  | .ended i place failed _ =>
    inferInstanceAs (Decidable (∀ attempt ∈ s.attempts[i]?,
      (attempt.run place).point = .looping →
        ∀ failure ∈ failed, MayHandle s.world.queue attempt failure))
  | .complete i =>
    inferInstanceAs (Decidable (∀ attempt ∈ s.attempts[i]?, MayComplete s.lanes attempt))
  | .enqueue _ _ => isTrue trivial
  | .remove _ => isTrue trivial
  | .registerWorkspace _ _ => isTrue trivial
  | .unregisterWorkspace _ => isTrue trivial
  | .resetAll => isTrue trivial
  | .returned => isTrue trivial
  | .pick _ _ => isTrue trivial
  | .select _ _ => isTrue trivial
  | .launch _ _ _ => isTrue trivial
  | .begin _ => isTrue trivial
  | .check _ _ _ => isTrue trivial
  | .finish _ _ => isTrue trivial
  | .fallBack _ => isTrue trivial

/-! ### What happens to the files -/

section Files

variable {world : RunQueue.World} {event : RunQueue.Event} {change : Change}

def entryOf (world : RunQueue.World) (lane : Lane) (sessionID : JsString) : Option QueueEntry :=
  Table.lookup QueueEntry.key (world.queue.lanes lane) sessionID

theorem entryOf_clear {id : JsString} {slot : Slot} {lane : Lane} {sessionID : JsString}
    {calls : List RunQueue.Call} {next : ℕ} :
    entryOf ⟨world.queue.clear id slot, calls, next⟩ lane sessionID =
      if sessionID = id ∧ slot = .lane lane then none else entryOf world lane sessionID := by
  rw [entryOf, entryOf]
  cases slot with
  | legacy =>
    rw [if_neg (by rintro ⟨-, ⟨⟩⟩)]
    rfl
  | lane other =>
    dsimp only [RunQueue.Queue.clear, RunQueue.Queue.remove]
    by_cases hlane : lane = other
    · rw [if_pos hlane, Table.lookup_erase, hlane]
      simp only [and_true]
    · rw [if_neg hlane, if_neg]
      rintro ⟨-, heq⟩
      exact hlane (Slot.lane.inj heq).symm

theorem entryOf_write {entry : QueueEntry} {lane : Lane} {sessionID : JsString}
    {calls : List RunQueue.Call} {next : ℕ} :
    entryOf ⟨world.queue.write entry, calls, next⟩ lane sessionID =
      if sessionID = entry.sessionID ∧ lane = entry.lane then some entry
      else entryOf world lane sessionID := by
  rw [entryOf, entryOf]
  dsimp only [RunQueue.Queue.write]
  by_cases hlane : lane = entry.lane
  · rw [if_pos hlane, Table.lookup_upsert]
    simp only [hlane, and_true]
  · rw [if_neg hlane, if_neg fun h => hlane h.2]

/-- **A step of the queue changes one file of a lane at most.** -/
theorem entryOf_step (lane : Lane) (sessionID : JsString) :
    entryOf (world.step event) lane sessionID =
      match changeOf world event with
      | none => entryOf world lane sessionID
      | some change =>
        if sessionID = change.sessionID ∧ lane = change.lane then change.content
        else entryOf world lane sessionID := by
  cases event with
  | enqueue input now => rfl
  | remove id => rfl
  | removed id slot =>
    rw [RunQueue.World.step]
    cases hcall : Table.lookup RunQueue.Call.id world.calls id with
    | none => cases slot <;> simp [changeOf, hcall]
    | some call =>
      dsimp only
      by_cases hpending : slot ∈ call.pending
      · rw [if_pos hpending, entryOf_clear]
        cases slot with
        | legacy => simp [changeOf]
        | lane other =>
          simp only [changeOf, hcall, Option.filter_some, hpending, decide_true, if_true,
            Option.map_some, Slot.lane.injEq, eq_comm]
      · rw [if_neg hpending]
        cases slot with
        | legacy => rfl
        | lane other =>
          rw [changeOf, hcall, Option.filter_some, if_neg (by simpa using hpending),
            Option.map_none]
  | goesOn id =>
    rw [RunQueue.World.step, changeOf]
    cases hcall : Table.lookup RunQueue.Call.id world.calls id with
    | none => rfl
    | some call =>
      rw [Option.bind_some, writes]
      dsimp only
      by_cases hpending : call.pending = []
      · rw [if_pos hpending, RunQueue.World.goOn]
        cases hentry : call.entry.filter QueueEntry.parses with
        | none =>
          rw [Option.map_none, ite_self]
          rfl
        | some entry =>
          dsimp only
          by_cases hwritten : call.written = true
          · rw [if_pos hwritten, if_neg (by simp [hwritten])]
            rfl
          · rw [if_neg hwritten, if_pos ⟨hpending, by simpa using hwritten⟩, entryOf_write,
              Option.map_some]
      · rw [if_neg hpending, if_neg fun h => hpending h.1]

theorem call_of_change (h : changeOf world event = some change) :
    ∃ call ∈ world.calls, call.id = change.call ∧
      (change.content = none ∧ .lane change.lane ∈ call.pending ∨
        change.content ≠ none ∧ call.target ≠ none ∧ call.written = false) := by
  cases event with
  | enqueue input now => cases h
  | remove id => cases h
  | removed id slot =>
    cases slot with
    | legacy => cases h
    | lane lane =>
      obtain ⟨call, hcall, rfl⟩ := Option.map_eq_some_iff.mp h
      obtain ⟨hfound, hpending⟩ := Option.filter_eq_some_iff.mp hcall
      exact ⟨call, Table.mem_of_lookup hfound, Table.key_of_lookup hfound,
        Or.inl ⟨rfl, of_decide_eq_true hpending⟩⟩
  | goesOn id =>
    obtain ⟨call, hfound, hwrites⟩ := Option.bind_eq_some_iff.mp h
    rw [writes] at hwrites
    split at hwrites
    next hready =>
      obtain ⟨entry, hentry, rfl⟩ := Option.map_eq_some_iff.mp hwrites
      refine ⟨call, Table.mem_of_lookup hfound, rfl,
        Or.inr ⟨Option.some_ne_none entry, ?_, hready.2⟩⟩
      rw [RunQueue.Call.target, RunQueue.laneOf, hentry]
      exact Option.some_ne_none entry.lane
    next => cases hwrites

def IsStep : RunQueue.Event → Prop
  | .enqueue _ _ => False
  | .remove _ => False
  | _ => True

theorem call_of_step (h : IsStep event) {call' : RunQueue.Call}
    (hcall' : call' ∈ (world.step event).calls) :
    ∃ call ∈ world.calls, call'.id = call.id ∧ (∀ slot ∈ call'.pending, slot ∈ call.pending) ∧
      call'.target = call.target ∧ (call.written = true → call'.written = true) := by
  have hsame : call' ∈ world.calls → ∃ call ∈ world.calls, call'.id = call.id ∧
      (∀ slot ∈ call'.pending, slot ∈ call.pending) ∧ call'.target = call.target ∧
        (call.written = true → call'.written = true) := fun hcall =>
    ⟨call', hcall, rfl, fun _ => id, rfl, id⟩
  cases event with
  | enqueue input now => exact h.elim
  | remove id => exact h.elim
  | removed id slot =>
    rw [RunQueue.World.step] at hcall'
    split at hcall'
    next => exact hsame hcall'
    next =>
      split at hcall'
      next =>
        rcases Table.mem_update.mp hcall' with ⟨hcall, -⟩ | ⟨call, hcall, -, rfl⟩
        · exact hsame hcall
        · exact ⟨call, hcall, rfl, fun _ => List.mem_of_mem_filter, rfl, fun h => h⟩
      next => exact hsame hcall'
  | goesOn id =>
    rw [RunQueue.World.step] at hcall'
    split at hcall'
    next => exact hsame hcall'
    next =>
      split at hcall'
      next =>
        rw [RunQueue.World.goOn] at hcall'
        split at hcall'
        next => exact hsame (Table.mem_erase.mp hcall').1
        next =>
          split at hcall'
          next => exact hsame (Table.mem_erase.mp hcall').1
          next =>
            rcases Table.mem_update.mp hcall' with ⟨hcall, -⟩ | ⟨call, hcall, -, rfl⟩
            · exact hsame hcall
            · exact ⟨call, hcall, rfl, fun _ h => h, rfl, fun _ => rfl⟩
      next => exact hsame hcall'

theorem next_step (h : IsStep event) : (world.step event).next = world.next := by
  cases event with
  | enqueue input now => exact h.elim
  | remove id => exact h.elim
  | removed id slot =>
    rw [RunQueue.World.step]
    split
    next => rfl
    next => split <;> rfl
  | goesOn id =>
    rw [RunQueue.World.step]
    split
    next => rfl
    next =>
      split
      next =>
        rw [RunQueue.World.goOn]
        split
        next => rfl
        next => split <;> rfl
      next => rfl

end Files

/-! ### What an attempt keeps track of -/

/-- What every run keeps of an attempt in the queue. -/
structure Tracked (world : RunQueue.World) (attempt : Attempt) : Prop where
  kept : Kept world.queue attempt
  behind : ∀ lane, attempt.newer lane ≠ none → Behind world attempt lane
  handlers : ∀ id ∈ attempt.handlers, id < world.next

section Tracked

variable {world : RunQueue.World} {event : RunQueue.Event} {change : Change} {attempt : Attempt}
  {sessionID : JsString} {entry : Option QueueEntry} {lane : Lane}

theorem Behind.start (h : Behind world attempt lane)
    (hhandlers : ∀ id ∈ attempt.handlers, id < world.next) :
    Behind (world.start sessionID entry) attempt lane := by
  intro call hcall hid
  rcases List.mem_append.mp hcall with hcall | hcall
  · exact h call hcall hid
  · rw [List.mem_singleton.mp hcall] at hid
    exact absurd (hhandlers _ hid) (lt_irrefl _)

theorem Behind.step (h : Behind world attempt lane) (hstep : IsStep event) :
    Behind (world.step event) attempt lane := by
  intro call' hcall' hid
  obtain ⟨call, hcall, heq, hpending, htarget, hwritten⟩ := call_of_step hstep hcall'
  obtain ⟨hfree, hdone⟩ := h call hcall (heq ▸ hid)
  exact ⟨fun hmem => hfree (hpending _ hmem), fun hne => hwritten (hdone (htarget ▸ hne))⟩

theorem Tracked.start (h : Tracked world attempt) :
    Tracked (world.start sessionID entry) attempt where
  kept := h.kept
  behind lane hne := (h.behind lane hne).start h.handlers
  handlers id hid := Nat.lt_succ_of_lt (h.handlers id hid)

theorem Tracked.step (h : Tracked world attempt) (hstep : IsStep event)
    (hchange : changeOf world event = none) : Tracked (world.step event) attempt where
  kept := by
    refine ⟨fun hbegun lane entry hentry => ?_, h.kept.alone⟩
    change entryOf (world.step event) lane _ = _
    rw [entryOf_step, hchange]
    exact h.kept.stored hbegun lane entry hentry
  behind lane hne := (h.behind lane hne).step hstep
  handlers id hid := (next_step hstep).symm ▸ h.handlers id hid

theorem Tracked.newer_eq_none (h : Tracked world attempt)
    (hchange : changeOf world event = some change) (hown :
      change.call ∈ attempt.handlers) : attempt.newer change.lane = none ∧
      (change.content ≠ none → ∀ lane, attempt.newer lane = none) := by
  obtain ⟨call, hcall, hid, hkind⟩ := call_of_change hchange
  have hbehind : ∀ lane, attempt.newer lane ≠ none →
      .lane lane ∉ call.pending ∧ (call.target ≠ none → call.written = true) :=
    fun lane hne => h.behind lane hne call hcall (hid ▸ hown)
  rcases hkind with ⟨hnone, hpending⟩ | ⟨hsome, htarget, hwritten⟩
  · refine ⟨?_, fun hsome => absurd hnone hsome⟩
    by_contra hne
    exact (hbehind _ hne).1 hpending
  · have hall : ∀ lane, attempt.newer lane = none := by
      intro lane
      by_contra hne
      have hdone := (hbehind lane hne).2 htarget
      rw [hwritten] at hdone
      cases hdone
    exact ⟨hall _, fun _ => hall⟩

theorem own_filter {own : Option Lane} (h : own.filter (· ≠ lane) ≠ none) :
    own ≠ none ∧ own ≠ some lane := by
  obtain ⟨other, hother⟩ := Option.ne_none_iff_exists'.mp h
  obtain ⟨hown, hne⟩ := Option.filter_eq_some_iff.mp hother
  refine ⟨hown ▸ Option.some_ne_none other, ?_⟩
  rintro heq
  rw [hown] at heq
  exact of_decide_eq_true hne (Option.some.inj heq)

theorem entryOf_changed (hchange : changeOf world event = some change) (lane : Lane) :
    entryOf (world.step event) lane sessionID =
      if sessionID = change.sessionID ∧ lane = change.lane then change.content
      else entryOf world lane sessionID := by
  rw [entryOf_step, hchange]

theorem Attempt.newer_note (hsession : attempt.item.sessionID = change.sessionID)
    (hother : change.call ∉ attempt.handlers) (lane : Lane) :
    (attempt.note change).newer lane =
      if change.content = none ∧ attempt.handling ≠ .handled then attempt.newer lane
      else if lane = change.lane then change.content else attempt.newer lane := by
  rw [Attempt.note, if_neg (not_not.mpr hsession), if_neg hother]
  dsimp only
  rw [apply_ite fun newer : Lane → Option QueueEntry => newer lane, Function.update_apply]

/-- A change that a call of its own error handling makes. -/
theorem Tracked.note_own (h : Tracked world attempt) (hstep : IsStep event)
    (hchange : changeOf world event = some change)
    (hsession : attempt.item.sessionID = change.sessionID)
    (hown : change.call ∈ attempt.handlers) :
    Tracked (world.step event) (attempt.note change) := by
  obtain ⟨hlane, hall⟩ := h.newer_eq_none hchange hown
  rw [Attempt.note, if_neg (not_not.mpr hsession), if_pos hown]
  refine ⟨⟨fun hbegun lane entry hnewer => ?_, fun hne => ?_⟩,
    fun lane hne => (h.behind lane hne).step hstep,
    fun id hid => (next_step hstep).symm ▸ h.handlers id hid⟩
  · change entryOf (world.step event) lane _ = _
    rw [entryOf_changed hchange, if_neg]
    · exact h.kept.stored hbegun lane entry hnewer
    · rintro ⟨-, rfl⟩
      have hnone : attempt.newer change.lane = some entry := hnewer
      rw [hlane] at hnone
      cases hnone
  · split at hne
    next hsome => exact hall (Option.isSome_iff_ne_none.mp hsome)
    next => exact h.kept.alone (own_filter hne).1

theorem Tracked.stored_note (h : Tracked world attempt)
    (hchange : changeOf world event = some change)
    (hsession : attempt.item.sessionID = change.sessionID)
    (hother : change.call ∉ attempt.handlers)
    (hremoves : change.content = none → attempt.handling = .begun →
      attempt.newer change.lane = none) (hbegun : attempt.handling ≠ .notBegun) {stored : QueueEntry}
    (hstored : (attempt.note change).newer lane = some stored) :
    entryOf (world.step event) lane attempt.item.sessionID = some stored := by
  rw [Attempt.newer_note hsession hother] at hstored
  rw [entryOf_changed hchange]
  by_cases hlane : lane = change.lane
  · rw [if_pos ⟨hsession, hlane⟩]
    split at hstored
    next hgone =>
      -- what is removed while the error handling is in progress is not newer
      have hhandling : attempt.handling = .begun := by
        cases heq : attempt.handling with
        | notBegun => exact absurd heq hbegun
        | begun => rfl
        | handled => exact absurd heq hgone.2
      rw [hlane, hremoves hgone.1 hhandling] at hstored
      cases hstored
    next => exact hstored
  · rw [if_neg fun hboth => hlane hboth.2]
    rw [if_neg hlane, ite_self] at hstored
    exact h.kept.stored hbegun lane stored hstored

/-- A change that another call makes. -/
theorem Tracked.note_other (h : Tracked world attempt) (hstep : IsStep event)
    (hchange : changeOf world event = some change) (hmay : MayChange world change attempt)
    (hsession : attempt.item.sessionID = change.sessionID)
    (hother : change.call ∉ attempt.handlers) :
    Tracked (world.step event) (attempt.note change) := by
  obtain ⟨hremoves, hwrites⟩ := hmay hsession hother
  have hnewer := Attempt.newer_note hsession hother
  have hstored := fun lane => @Tracked.stored_note _ _ _ _ lane h hchange hsession hother hremoves
  rw [Attempt.note, if_neg (not_not.mpr hsession), if_neg hother] at hnewer hstored ⊢
  refine ⟨⟨fun hbegun lane entry hentry => hstored lane hbegun hentry, fun hne lane => ?_⟩,
    fun lane hne => ?_, fun id hid => (next_step hstep).symm ▸ h.handlers id hid⟩
  · obtain ⟨hne, hdifferent⟩ := own_filter hne
    have hall := h.kept.alone hne
    rw [hnewer]
    split_ifs with hgone hlane
    · exact hall lane
    · by_contra hsome
      rcases (hwrites hsome).2 with hnone | heq
      · exact hne hnone
      · exact hdifferent heq
    · exact hall lane
  · rw [hnewer] at hne
    split_ifs at hne with hgone hlane
    · exact (h.behind lane hne).step hstep
    · rw [hlane]
      exact ((hwrites hne).1).step hstep
    · exact (h.behind lane hne).step hstep

/-- **A step that changes a file of a lane.** -/
theorem Tracked.note (h : Tracked world attempt) (hstep : IsStep event)
    (hchange : changeOf world event = some change) (hmay : MayChange world change attempt) :
    Tracked (world.step event) (attempt.note change) := by
  by_cases hsession : attempt.item.sessionID = change.sessionID
  · by_cases hown : change.call ∈ attempt.handlers
    · exact h.note_own hstep hchange hsession hown
    · exact h.note_other hstep hchange hmay hsession hown
  · -- the file of another session
    rw [Attempt.note, if_pos hsession]
    refine ⟨⟨fun hbegun lane entry hnewer => ?_, h.kept.alone⟩,
      fun lane hne => (h.behind lane hne).step hstep,
      fun id hid => (next_step hstep).symm ▸ h.handlers id hid⟩
    change entryOf (world.step event) lane _ = _
    rw [entryOf_changed hchange, if_neg fun hboth => hsession hboth.1]
    exact h.kept.stored hbegun lane entry hnewer

end Tracked

/-! ### How often the prompt loop is started -/

/-- What every run keeps of an attempt in the lanes. -/
structure Launched (lanes : Lanes.State) (attempt : Attempt) : Prop where
  once : ∀ place, (attempt.run place).loops ≤ 1
  fresh : ∀ place, (attempt.run place).point = .idle ∨ (attempt.run place).point = .checking →
    (attempt.run place).loops = 0
  inLane : (attempt.run .lane).point ≠ .idle →
    ∃ promise ∈ lanes.started, attempt.stage = .launched (some promise)
  direct : (attempt.run .direct).point ≠ .idle → attempt.stage = .launched none ∨
    ∃ promise how, attempt.stage = .launched (some promise) ∧
      lanes.settled promise = some how ∧ how ≠ .resolved
  /-- A task that was started is settled by its end only, and with an error only if it has started
  no prompt loop. -/
  ended : ∀ promise ∈ lanes.started, attempt.stage = .launched (some promise) →
    lanes.settled promise = none ∨ (attempt.run .lane).point = .ended ∧
      (lanes.settled promise = some .resolved ∨ (attempt.run .lane).loops = 0)
  known : ∀ promise, attempt.stage = .launched (some promise) → promise < lanes.keys.length

section Launched

variable {lanes lanes' : Lanes.State} {attempt : Attempt} {place : Place} {run : Run}

/-- **The prompt loop is started once at most**, in the lane or directly. -/
theorem Launched.loops_le_one (h : Launched lanes attempt) : attempt.loops ≤ 1 := by
  have hlane := h.once .lane
  have hdirect := h.once .direct
  have hidle : ∀ place, (attempt.run place).loops ≠ 0 → (attempt.run place).point ≠ .idle :=
    fun place hloops hpoint => hloops (h.fresh place (Or.inl hpoint))
  rw [Attempt.loops]
  by_contra hmany
  obtain ⟨promise, hstarted, hstage⟩ := h.inLane (hidle .lane (by omega))
  rcases h.direct (hidle .direct (by omega)) with hnone | ⟨promise', how, hstage', hsettled, hhow⟩
  · rw [hstage] at hnone
    cases hnone
  · obtain rfl : promise = promise' := by
      rw [hstage] at hstage'
      exact Option.some.inj (Stage.launched.inj hstage')
    rcases h.ended promise hstarted hstage with hnone | ⟨-, hresolved | hloops⟩
    · rw [hsettled] at hnone
      cases hnone
    · rw [hsettled] at hresolved
      exact hhow (Option.some.inj hresolved)
    · omega

theorem Launched.onward (h : Launched lanes attempt) (honward : Lanes.Onward lanes lanes') :
    Launched lanes' attempt where
  once := h.once
  fresh := h.fresh
  inLane hpoint := by
    obtain ⟨promise, hstarted, hstage⟩ := h.inLane hpoint
    exact ⟨promise, honward.started promise hstarted, hstage⟩
  direct hpoint := by
    refine (h.direct hpoint).imp_right ?_
    rintro ⟨promise, how, hstage, hsettled, hhow⟩
    exact ⟨promise, how, hstage, honward.once hsettled, hhow⟩
  ended promise hstarted hstage := by
    rcases honward.fresh promise hstarted with hold | hnone
    · rw [honward.kept promise hold]
      exact h.ended promise hold hstage
    · exact Or.inl hnone
  known promise hstage := (h.known promise hstage).trans_le honward.keys

theorem Launched.setRun (h : Launched lanes attempt) (hidle : (attempt.run place).point ≠ .idle)
    (hover : (attempt.run place).point ≠ .ended) (honce : run.loops ≤ 1)
    (hfresh : run.point = .idle ∨ run.point = .checking → run.loops = 0) :
    Launched lanes (attempt.setRun place run) where
  once other := by
    change (Function.update attempt.run place run other).loops ≤ 1
    rcases eq_or_ne other place with rfl | hne
    · rwa [Function.update_self]
    · rw [Function.update_of_ne hne]
      exact h.once other
  fresh other := by
    change (Function.update attempt.run place run other).point = _ ∨
      (Function.update attempt.run place run other).point = _ →
        (Function.update attempt.run place run other).loops = 0
    rcases eq_or_ne other place with rfl | hne
    · rwa [Function.update_self]
    · rw [Function.update_of_ne hne]
      exact h.fresh other
  inLane hpoint := by
    rcases eq_or_ne place .lane with rfl | hne
    · exact h.inLane hidle
    · refine h.inLane ?_
      change (Function.update attempt.run place run .lane).point ≠ _ at hpoint
      rwa [Function.update_of_ne hne.symm] at hpoint
  direct hpoint := by
    rcases eq_or_ne place .direct with rfl | hne
    · exact h.direct hidle
    · refine h.direct ?_
      change (Function.update attempt.run place run .direct).point ≠ _ at hpoint
      rwa [Function.update_of_ne hne.symm] at hpoint
  ended promise hstarted hstage := by
    rcases eq_or_ne place .lane with rfl | hne
    · refine (h.ended promise hstarted hstage).imp_right fun hend => absurd hend.1 hover
    · change _ ∨ (Function.update attempt.run place run .lane).point = _ ∧
        (_ ∨ (Function.update attempt.run place run .lane).loops = 0)
      rw [Function.update_of_ne hne.symm]
      exact h.ended promise hstarted hstage
  known := h.known

end Launched

/-! ### One step -/

structure Inv (s : State) : Prop where
  ledger : Lanes.Ledger False s.lanes
  registered : s.lanes.Registered
  tracked : ∀ attempt ∈ s.attempts, Tracked s.world attempt
  requeued : ∀ attempt ∈ s.attempts, ∀ entry ∈ attempt.requeued, Keeps attempt.item entry
  launched : ∀ attempt ∈ s.attempts, Launched s.lanes attempt
  apart : ∀ {i j : ℕ} {attempt attempt' : Attempt} {promise : ℕ},
    s.attempts[i]? = some attempt → s.attempts[j]? = some attempt' →
      attempt.stage = .launched (some promise) → attempt'.stage = .launched (some promise) → i = j

theorem Inv.sound {s : State} (h : Inv s) : Sound s :=
  ⟨fun attempt hattempt => (h.tracked attempt hattempt).kept, h.requeued,
    fun attempt hattempt => (h.launched attempt hattempt).loops_le_one⟩

theorem inv_init (queue : RunQueue.Queue) : Inv (.init queue) where
  ledger := .start
  registered := Lanes.registered_of_stack rfl
  tracked _ h := absurd h List.not_mem_nil
  requeued _ h := absurd h List.not_mem_nil
  launched _ h := absurd h List.not_mem_nil
  apart h := by cases h

section Step

variable {s : State} {i : ℕ} {attempt attempt' : Attempt} {place : Place} {run : Run}
  {world : RunQueue.World} {lanes : Lanes.State} {resumeInFlight : JsString → Option ℕ}

theorem Inv.withLanes (h : Inv s) (hledger : Lanes.Ledger False lanes)
    (hregistered : lanes.Registered) (hlaunched : ∀ other ∈ s.attempts, Launched lanes other) :
    Inv { s with lanes := lanes } :=
  ⟨hledger, hregistered, h.tracked, h.requeued, hlaunched, h.apart⟩

theorem Inv.onward (h : Inv s) (hledger : Lanes.Ledger False lanes)
    (honward : Lanes.Onward s.lanes lanes) : Inv { s with lanes := lanes } :=
  h.withLanes hledger honward.registered fun other hother =>
    (h.launched other hother).onward honward

theorem Inv.set (h : Inv s) (hi : s.attempts[i]? = some attempt)
    (hledger : Lanes.Ledger False lanes) (honward : Lanes.Onward s.lanes lanes)
    (hworld : ∀ other ∈ s.attempts, Tracked world other) (htracked : Tracked world attempt')
    (hrequeued : ∀ entry ∈ attempt'.requeued, Keeps attempt'.item entry)
    (hlaunched : Launched lanes attempt')
    (hstage : ∀ promise, attempt'.stage = .launched (some promise) →
      attempt.stage = .launched (some promise) ∨ s.lanes.keys.length ≤ promise) :
    Inv ⟨world, lanes, resumeInFlight, s.attempts.set i attempt'⟩ := by
  have hmem : ∀ other ∈ s.attempts.set i attempt', other ∈ s.attempts ∨ other = attempt' :=
    fun _ => List.mem_or_eq_of_mem_set
  refine ⟨hledger, honward.registered, fun other hother => ?_, fun other hother => ?_,
    fun other hother => ?_, ?_⟩
  · rcases hmem other hother with hother | rfl
    · exact hworld other hother
    · exact htracked
  · rcases hmem other hother with hother | rfl
    · exact h.requeued other hother
    · exact hrequeued
  · rcases hmem other hother with hother | rfl
    · exact (h.launched other hother).onward honward
    · exact hlaunched
  · -- a promise that is new is no promise of another attempt
    have hfresh : ∀ {j : ℕ} {other : Attempt} {promise : ℕ}, s.attempts[j]? = some other →
        other.stage = .launched (some promise) → attempt'.stage = .launched (some promise) →
          j = i := by
      intro j other promise hj hother hown
      rcases hstage promise hown with hold | hnew
      · exact h.apart hj hi hother hold
      · have hknown := (h.launched other (List.mem_of_getElem? hj)).known promise hother
        omega
    intro j k first second promise hj hk hfirst hsecond
    change (s.attempts.set i attempt')[j]? = _ at hj
    change (s.attempts.set i attempt')[k]? = _ at hk
    rw [List.getElem?_set] at hj hk
    split at hj
    next hij =>
      split at hk
      next hik => omega
      next hik =>
        split at hj
        next =>
          obtain rfl := Option.some.inj hj
          have heq := hfresh hk hsecond hfirst
          omega
        next => cases hj
    next hij =>
      split at hk
      next hik =>
        split at hk
        next =>
          obtain rfl := Option.some.inj hk
          have heq := hfresh hj hfirst hsecond
          omega
        next => cases hk
      next hik => exact h.apart hj hk hfirst hsecond

theorem onward_refl (h : s.lanes.Registered) : Lanes.Onward s.lanes s.lanes :=
  .of_eq h rfl rfl le_rfl

theorem Inv.setRun (h : Inv s) (hi : s.attempts[i]? = some attempt)
    (hworld : ∀ other ∈ s.attempts, Tracked world other)
    (hlaunched : Launched s.lanes (attempt.setRun place run)) :
    Inv ⟨world, s.lanes, resumeInFlight, s.attempts.set i (attempt.setRun place run)⟩ := by
  have hattempt := List.mem_of_getElem? hi
  have htracked := hworld attempt hattempt
  exact h.set hi h.ledger (onward_refl h.registered) hworld
    ⟨⟨htracked.kept.stored, htracked.kept.alone⟩, htracked.behind, htracked.handlers⟩
    (h.requeued attempt hattempt) hlaunched fun promise hstage => Or.inl hstage

theorem Inv.queueStep (h : Inv s) {event : RunQueue.Event} (hstep : IsStep event)
    (hmay : MayStep s event) : Inv (s.queueStep event) := by
  rw [State.queueStep]
  cases hchange : changeOf s.world event with
  | none =>
    exact ⟨h.ledger, h.registered, fun other hother => (h.tracked other hother).step hstep hchange,
      h.requeued, h.launched, h.apart⟩
  | some change =>
    have hnote : ∀ other : Attempt, (other.note change).stage = other.stage ∧
        (other.note change).requeued = other.requeued ∧ (other.note change).item = other.item ∧
          (other.note change).run = other.run := by
      intro other
      rw [Attempt.note]
      split
      next => exact ⟨rfl, rfl, rfl, rfl⟩
      next => split <;> exact ⟨rfl, rfl, rfl, rfl⟩
    refine ⟨h.ledger, h.registered, fun other' hother' => ?_, fun other' hother' => ?_,
      fun other' hother' => ?_, ?_⟩
    · obtain ⟨other, hother, rfl⟩ := List.mem_map.mp hother'
      exact (h.tracked other hother).note hstep hchange (hmay change hchange other hother)
    · obtain ⟨other, hother, rfl⟩ := List.mem_map.mp hother'
      obtain ⟨-, hrequeued, hitem, -⟩ := hnote other
      rw [hrequeued, hitem]
      exact h.requeued other hother
    · obtain ⟨other, hother, rfl⟩ := List.mem_map.mp hother'
      obtain ⟨hstage, -, -, hrun⟩ := hnote other
      have hlaunched := h.launched other hother
      refine ⟨?_, ?_, ?_, ?_, ?_, ?_⟩
      · rw [hrun]
        exact hlaunched.once
      · rw [hrun]
        exact hlaunched.fresh
      · rw [hrun, hstage]
        exact hlaunched.inLane
      · rw [hrun, hstage]
        exact hlaunched.direct
      · rw [hrun, hstage]
        exact hlaunched.ended
      · rw [hstage]
        exact hlaunched.known
    · intro j k first second promise hj hk hfirst hsecond
      change (s.attempts.map (Attempt.note change))[j]? = _ at hj
      change (s.attempts.map (Attempt.note change))[k]? = _ at hk
      rw [List.getElem?_map] at hj hk
      obtain ⟨other, hother, rfl⟩ := Option.map_eq_some_iff.mp hj
      obtain ⟨other', hother', rfl⟩ := Option.map_eq_some_iff.mp hk
      rw [(hnote other).1] at hfirst
      rw [(hnote other').1] at hsecond
      exact h.apart hother hother' hfirst hsecond

theorem Inv.start (h : Inv s) (sessionID : JsString) (entry : Option QueueEntry) :
    Inv { s with world := s.world.start sessionID entry } :=
  ⟨h.ledger, h.registered, fun other hother => (h.tracked other hother).start, h.requeued,
    h.launched, h.apart⟩

theorem Inv.pick (h : Inv s) (item : Item) :
    Inv { s with attempts := s.attempts ++ [{ item }] } := by
  have hmem : ∀ other ∈ s.attempts ++ [({ item } : Attempt)],
      other ∈ s.attempts ∨ other = { item } := by
    intro other hother
    rw [List.mem_append, List.mem_singleton] at hother
    exact hother
  refine ⟨h.ledger, h.registered, fun other hother => ?_, fun other hother => ?_,
    fun other hother => ?_, ?_⟩
  · rcases hmem other hother with hother | rfl
    · exact h.tracked other hother
    · exact ⟨⟨fun _ _ _ hnone => (by cases hnone), fun hne => absurd rfl hne⟩,
        fun _ hne => absurd rfl hne, fun _ hid => absurd hid List.not_mem_nil⟩
  · rcases hmem other hother with hother | rfl
    · exact h.requeued other hother
    · exact fun _ hentry => absurd hentry List.not_mem_nil
  · rcases hmem other hother with hother | rfl
    · exact h.launched other hother
    · refine ⟨fun _ => Nat.zero_le 1, fun _ _ => rfl, fun hne => absurd rfl hne,
        fun hne => absurd rfl hne, fun _ _ hstage => ?_, fun _ hstage => ?_⟩ <;> cases hstage
  · have hold : ∀ {j : ℕ} {other : Attempt} {promise : ℕ},
        (s.attempts ++ [({ item } : Attempt)])[j]? = some other →
          other.stage = .launched (some promise) → s.attempts[j]? = some other := by
      intro j other promise hj hstage
      rcases getElem?_concat hj with hj | ⟨-, rfl⟩
      · exact hj
      · cases hstage
    intro j k first second promise hj hk hfirst hsecond
    exact h.apart (hold hj hfirst) (hold hk hsecond) hfirst hsecond

theorem Launched.idle (h : Launched s.lanes attempt)
    (hstage : ∀ promise, attempt.stage ≠ .launched promise) (place :
      Place) : (attempt.run place).point = .idle := by
  by_contra hpoint
  cases place with
  | lane =>
    obtain ⟨promise, -, heq⟩ := h.inLane hpoint
    exact hstage _ heq
  | direct =>
    rcases h.direct hpoint with heq | ⟨promise, -, heq, -⟩
    · exact hstage _ heq
    · exact hstage _ heq

end Step

section Events

variable {s : State} {i : ℕ} {attempt : Attempt} {place : Place} {lanes : Lanes.State}

theorem Launched.restage (h : Launched lanes attempt)
    (hidle : ∀ place, (attempt.run place).point = .idle) {stage : Stage}
    (hnew : ∀ promise, stage = .launched (some promise) →
      promise < lanes.keys.length ∧ (promise ∈ lanes.started → lanes.settled promise = none)) :
    Launched lanes { attempt with stage := stage } where
  once := h.once
  fresh := h.fresh
  inLane hpoint := absurd (hidle .lane) hpoint
  direct hpoint := absurd (hidle .direct) hpoint
  ended promise hstarted hstage := Or.inl ((hnew promise hstage).2 hstarted)
  known promise hstage := (hnew promise hstage).1

theorem Launched.beginDirect (h : Launched lanes attempt)
    (hdirect : attempt.stage = .launched none ∨ ∃ promise how,
      attempt.stage = .launched (some promise) ∧ lanes.settled promise = some how ∧
        how ≠ .resolved) : Launched lanes (attempt.setRun .direct { point := .checking }) where
  once other := by
    cases other with
    | lane => exact h.once .lane
    | direct => exact Nat.zero_le 1
  fresh other := by
    cases other with
    | lane => exact h.fresh .lane
    | direct => exact fun _ => rfl
  inLane := h.inLane
  direct _ := hdirect
  ended := h.ended
  known := h.known

theorem Launched.beginLane (h : Launched lanes attempt) {promise : ℕ}
    (hstarted : promise ∈ lanes.started) (hstage : attempt.stage = .launched (some promise))
    (hidle : (attempt.run .lane).point = .idle) :
    Launched lanes (attempt.setRun .lane { point := .checking }) where
  once other := by
    cases other with
    | lane => exact Nat.zero_le 1
    | direct => exact h.once .direct
  fresh other := by
    cases other with
    | lane => exact fun _ => rfl
    | direct => exact h.fresh .direct
  inLane _ := ⟨promise, hstarted, hstage⟩
  direct := h.direct
  ended other hother hstage' := by
    rcases h.ended other hother hstage' with hnone | ⟨hover, -⟩
    · exact Or.inl hnone
    · rw [hidle] at hover
      cases hover
  known := h.known

theorem Inv.select (h : Inv s) (hi : s.attempts[i]? = some attempt) (now : ℕ) :
    Inv (s.select i attempt now) := by
  rw [State.select]
  split
  next => exact h
  next hpicked =>
    have hattempt := List.mem_of_getElem? hi
    have hstage : attempt.stage = .picked := not_not.mp hpicked
    have hidle := (h.launched attempt hattempt).idle fun promise heq => by
      rw [hstage] at heq
      cases heq
    have htracked := h.tracked attempt hattempt
    have hrestage : ∀ (stage : Stage) (resumeInFlight : JsString → Option ℕ),
        (∀ promise, stage ≠ .launched promise) →
          Inv ⟨s.world, s.lanes, resumeInFlight,
            s.attempts.set i { attempt with stage := stage }⟩ := by
      intro stage resumeInFlight hnot
      exact h.set hi h.ledger (onward_refl h.registered) h.tracked
        ⟨⟨htracked.kept.stored, htracked.kept.alone⟩, htracked.behind, htracked.handlers⟩
        (h.requeued attempt hattempt)
        ((h.launched attempt hattempt).restage hidle fun promise heq => absurd heq (hnot _))
        fun promise heq => absurd heq (hnot _)
    split
    next => exact hrestage .left _ fun promise heq => by cases heq
    next => exact hrestage .selected _ fun promise heq => by cases heq

theorem Inv.launch (h : Inv s) (hi : s.attempts[i]? = some attempt) (workspaceId : Option JsString)
    (isDraining : Bool) : Inv (s.launch i attempt workspaceId isDraining) := by
  rw [State.launch]
  split
  next hready =>
    obtain ⟨hstage, hstack⟩ := hready
    have hattempt := List.mem_of_getElem? hi
    have hlaunched := h.launched attempt hattempt
    have htracked := h.tracked attempt hattempt
    have hidle := hlaunched.idle fun promise heq => by
      rw [hstage] at heq
      cases heq
    split
    next =>
      refine h.set hi h.ledger (onward_refl h.registered) h.tracked
        ⟨⟨htracked.kept.stored, htracked.kept.alone⟩, htracked.behind, htracked.handlers⟩
        (h.requeued attempt hattempt) ?_ fun promise heq => by cases heq
      exact (hlaunched.restage hidle fun promise heq => by cases heq).beginDirect (Or.inl rfl)
    next workspaceId _ =>
      have honward := Lanes.Onward.enqueue h.ledger hstack .main workspaceId isDraining
      refine h.set hi h.ledger.enqueue honward h.tracked
        ⟨⟨htracked.kept.stored, htracked.kept.alone⟩, htracked.behind, htracked.handlers⟩
        (h.requeued attempt hattempt) ?_ ?_
      · refine (hlaunched.onward honward).restage hidle ?_
        rintro promise ⟨⟩
        refine ⟨Lanes.length_keys_enqueue h.ledger hstack .main workspaceId isDraining, ?_⟩
        intro hp
        rcases honward.fresh _ hp with hold | hnone
        · exact absurd (h.ledger.started_lt _ hold) (lt_irrefl _)
        · exact hnone
      · rintro promise ⟨⟩
        exact Or.inr le_rfl
  next => exact h

theorem Inv.begin (h : Inv s) (hi : s.attempts[i]? = some attempt) : Inv (s.begin_ i attempt) := by
  rw [State.begin_]
  split
  next promise hstage =>
    split
    next hready =>
      refine h.setRun hi h.tracked ?_
      exact (h.launched attempt (List.mem_of_getElem? hi)).beginLane hready.1 hstage hready.2
    next => exact h
  next => exact h

theorem Inv.fallBack (h : Inv s) (hi : s.attempts[i]? = some attempt) :
    Inv (s.fallBack i attempt) := by
  rw [State.fallBack]
  split
  next promise hstage =>
    split
    next hready =>
      obtain ⟨-, hsome, hresolved⟩ := hready
      obtain ⟨how, hhow⟩ := Option.ne_none_iff_exists'.mp hsome
      refine h.setRun hi h.tracked ?_
      refine (h.launched attempt (List.mem_of_getElem? hi)).beginDirect
        (Or.inr ⟨promise, how, hstage, hhow, ?_⟩)
      rintro rfl
      exact hresolved hhow
    next => exact h
  next => exact h

theorem Inv.check (h : Inv s) (hi : s.attempts[i]? = some attempt) (place : Place) (active : Bool) :
    Inv (s.check i attempt place active) := by
  rw [State.check]
  split
  next => exact h
  next hpoint =>
    have hpoint : (attempt.run place).point = .checking := not_not.mp hpoint
    have hlaunched := h.launched attempt (List.mem_of_getElem? hi)
    have hidle : (attempt.run place).point ≠ .idle := by
      rw [hpoint]
      rintro ⟨⟩
    have hover : (attempt.run place).point ≠ .ended := by
      rw [hpoint]
      rintro ⟨⟩
    split
    next =>
      refine h.setRun hi (fun other hother => (h.tracked other hother).start) ?_
      refine hlaunched.setRun hidle hover (hlaunched.once place) ?_
      rintro (heq | heq) <;> cases heq
    next =>
      refine h.setRun hi h.tracked (hlaunched.setRun hidle hover ?_ ?_)
      · rw [hlaunched.fresh place (Or.inr hpoint)]
      · rintro (heq | heq) <;> cases heq

theorem Inv.leave (h : Inv s) (hi : s.attempts[i]? = some attempt)
    (hidle : (attempt.run place).point ≠ .idle) (hover : (attempt.run place).point ≠ .ended)
    (handling : Handling) (hstored : handling ≠ .notBegun → ∀ lane, ∀ entry ∈ attempt.newer lane,
      Table.lookup QueueEntry.key (s.world.queue.lanes lane) attempt.item.sessionID =
        some entry) : Inv (s.leave i { attempt with handling } place) := by
  have hattempt := List.mem_of_getElem? hi
  have hlaunched := h.launched attempt hattempt
  have htracked := h.tracked attempt hattempt
  have hended : Launched s.lanes
      (attempt.setRun place { attempt.run place with point := .ended }) := by
    refine hlaunched.setRun hidle hover (hlaunched.once place) ?_
    rintro (heq | heq) <;> cases heq
  exact h.set hi h.ledger (onward_refl h.registered) h.tracked
    ⟨⟨hstored, htracked.kept.alone⟩, htracked.behind, htracked.handlers⟩
    (h.requeued attempt hattempt) ⟨hended.once, hended.fresh, hended.inLane, hended.direct,
      hended.ended, hended.known⟩ fun promise hstage => Or.inl hstage

theorem Inv.fail (h : Inv s) (hi : s.attempts[i]? = some attempt)
    (hpoint : (attempt.run place).point = .looping) (failure : Failure) (now : ℕ)
    (hmay : MayHandle s.world.queue attempt failure) :
    Inv (s.fail i attempt place failure now) := by
  have hattempt := List.mem_of_getElem? hi
  have hidle : (attempt.run place).point ≠ .idle := by
    rw [hpoint]
    rintro ⟨⟩
  have hover : (attempt.run place).point ≠ .ended := by
    rw [hpoint]
    rintro ⟨⟩
  have hlaunched : Launched s.lanes
      (attempt.setRun place { attempt.run place with point := .waiting s.world.next }) := by
    have hold := h.launched attempt hattempt
    refine hold.setRun hidle hover (hold.once place) ?_
    rintro (heq | heq) <;> cases heq
  -- nothing was enqueued since, so there is nothing to lose
  have htracked : (∀ lane ∈ lanesByPriority, attempt.newer lane = none) →
      ∀ (requeued : List QueueEntry) (run : Place → Run) (sessionID : JsString)
        (entry : Option QueueEntry), Tracked (s.world.start sessionID entry)
          { attempt with
            run, requeued, handling := .begun
            handlers := s.world.next :: attempt.handlers } := by
    intro hnone requeued run sessionID entry
    have hall : ∀ lane, attempt.newer lane = none := fun lane =>
      hnone lane (by cases lane <;> decide)
    refine ⟨⟨fun _ lane entry hnewer => ?_, fun _ => hall⟩, fun lane hne => absurd (hall lane) hne,
      fun id hid => ?_⟩
    · have hsome : attempt.newer lane = some entry := hnewer
      rw [hall lane] at hsome
      cases hsome
    · rcases List.mem_cons.mp hid with rfl | hid
      · exact Nat.lt_succ_self _
      · exact Nat.lt_succ_of_lt ((h.tracked attempt hattempt).handlers id hid)
  rw [State.fail]
  rw [MayHandle] at hmay
  split
  next hblocked =>
    rw [if_pos (Or.inl hblocked)] at hmay
    exact h.set hi h.ledger (onward_refl h.registered)
      (fun other hother => (h.tracked other hother).start)
      (htracked hmay.1 _ _ _ _)
      (h.requeued attempt hattempt) ⟨hlaunched.once, hlaunched.fresh, hlaunched.inLane,
        hlaunched.direct, hlaunched.ended, hlaunched.known⟩ fun promise hstage => Or.inl hstage
  next hblocked =>
    split
    next hparses =>
      rw [if_pos (Or.inr hparses)] at hmay
      obtain ⟨hnone, hlane⟩ := hmay
      have hlane := hlane (by simpa using hblocked)
      have hinput : parses attempt.item.toInput.pending = true := hparses
      rw [enqueuePendingContinuation, if_pos hinput]
      refine h.set hi h.ledger (onward_refl h.registered)
        (fun other hother => (h.tracked other hother).start) (htracked hnone _ _ _ _) ?_
        ⟨hlaunched.once, hlaunched.fresh, hlaunched.inLane, hlaunched.direct, hlaunched.ended,
          hlaunched.known⟩ fun promise hstage => Or.inl hstage
      intro entry hentry
      rcases List.mem_cons.mp hentry with rfl | hentry
      · refine ⟨fun lane hitem => ?_, fun triggerType hitem => ?_, rfl, rfl⟩
        · have hitem : attempt.item.lane = some lane := hitem
          rcases hlane with hnot | hnormal
          · rw [hnot] at hitem
            cases hitem
          · rw [hnormal] at hitem
            exact Option.some.inj hitem
        · have hitem : attempt.item.triggerType = some triggerType := hitem
          change attempt.item.triggerType.getD _ = triggerType
          rw [hitem, Option.getD_some]
      · exact h.requeued attempt hattempt entry hentry
    next hparses =>
      rw [if_neg (by simp [hblocked, hparses])] at hmay
      exact h.leave hi hidle hover .handled fun _ lane => hmay lane (by cases lane <;> decide)

theorem Inv.ended (h : Inv s) (hi : s.attempts[i]? = some attempt) (place : Place)
    (failed : Option Failure) (now : ℕ) (hmay : (attempt.run place).point = .looping →
      ∀ failure ∈ failed, MayHandle s.world.queue attempt failure) :
    Inv (s.ended i attempt place failed now) := by
  rw [State.ended.eq_def]
  split
  next => exact h
  next hpoint =>
    have hpoint : (attempt.run place).point = .looping := not_not.mp hpoint
    cases failed with
    | none =>
      refine h.leave hi ?_ ?_ attempt.handling
          (h.tracked attempt (List.mem_of_getElem? hi)).kept.stored <;>
        · rw [hpoint]
          rintro ⟨⟩
    | some failure => exact h.fail hi hpoint failure now (hmay hpoint failure rfl)

theorem Inv.finish (h : Inv s) (hi : s.attempts[i]? = some attempt) (place : Place) :
    Inv (s.finish i attempt place) := by
  rw [State.finish]
  split
  next call hpoint =>
    split
    next => exact h
    next =>
      have hkept := (h.tracked attempt (List.mem_of_getElem? hi)).kept
      refine h.leave hi ?_ ?_ attempt.handled.handling fun hbegun => hkept.stored fun hnot => ?_
      · rw [hpoint]
        rintro ⟨⟩
      · rw [hpoint]
        rintro ⟨⟩
      · rw [Attempt.handled, hnot] at hbegun
        exact hbegun rfl
  next => exact h

/-- **The task in the lane is over.** -/
theorem Inv.complete (h : Inv s) (hi : s.attempts[i]? = some attempt)
    (hmay : MayComplete s.lanes attempt) : Inv (s.complete attempt) := by
  rw [State.complete]
  split
  next promise hstage =>
    split
    next hover =>
      split
      next => exact h
      next task hfind =>
        rw [State.laneStep]
        split
        next hstack =>
          obtain rfl : task.entry.promise = promise := by simpa using List.find?_some hfind
          have htask := List.mem_of_find?_eq_some hfind
          have honward := Lanes.complete_settled h.ledger hstack htask rfl
          refine h.withLanes (h.ledger.step False.elim) honward.registered fun other hother => ?_
          refine Launched.onward ?_ honward
          have hlaunched := h.launched other hother
          obtain ⟨j, hj⟩ := List.mem_iff_getElem?.mp hother
          refine ⟨hlaunched.once, hlaunched.fresh, hlaunched.inLane, fun hpoint => ?_,
            fun other' hstarted hstage' => ?_, hlaunched.known⟩
          · refine (hlaunched.direct hpoint).imp_right ?_
            rintro ⟨promise, how, heq, hsettled, hhow⟩
            exact ⟨promise, how, heq, Lanes.settle_of_some hsettled, hhow⟩
          · dsimp only
            by_cases heq : other' = task.entry.promise
            · -- it is the task of this attempt
              subst heq
              obtain rfl := h.apart hi hj hstage hstage'
              obtain rfl := Option.some.inj (hi.symm.trans hj)
              refine Or.inr ⟨hover, ?_⟩
              rcases hlaunched.ended _ hstarted hstage with hnone | ⟨-, hresolved | hloops⟩
              · rcases hmay task htask hstage with hgeneration | hloops
                · left
                  rw [Lanes.settle, Function.update_self, hnone, if_neg (not_not.mpr hgeneration)]
                  rfl
                · exact Or.inr hloops
              · exact Or.inl (Lanes.settle_of_some hresolved)
              · exact Or.inr hloops
            · rw [Lanes.settle_of_ne heq]
              exact hlaunched.ended other' hstarted hstage'
        next => exact h
    next => exact h
  next => exact h

theorem Inv.at_ (h : Inv s) {go : Attempt → State}
    (hgo : ∀ attempt, s.attempts[i]? = some attempt → Inv (go attempt)) : Inv (s.at_ i go) := by
  rw [State.at_]
  split
  next => exact h
  next attempt hi => exact hgo attempt hi

theorem Inv.laneStep (h : Inv s) {event : Lanes.Event}
    (honward : s.lanes.stack = [] → Lanes.Onward s.lanes (Lanes.step s.lanes event)) :
    Inv (s.laneStep event) := by
  rw [State.laneStep]
  split
  next hstack => exact h.onward (h.ledger.step False.elim) (honward hstack)
  next => exact h

/-- **An event that meets its condition keeps what every run keeps.** -/
theorem Inv.step (h : Inv s) {event : Event} (hfit : Fit s event) : Inv (step s event) := by
  cases event with
  | enqueue input now =>
    change Inv { s with world := enqueuePendingContinuation s.world input now }
    rw [enqueuePendingContinuation]
    split
    next => exact h.start _ _
    next => exact h
  | remove sessionID => exact h.start _ _
  | removed id slot => exact h.queueStep trivial hfit
  | goesOn id => exact h.queueStep trivial hfit
  | registerWorkspace workspaceId concurrency =>
    exact h.laneStep fun hstack => .registerWorkspace hstack workspaceId concurrency
  | unregisterWorkspace workspaceId =>
    exact h.laneStep fun hstack => .unregisterWorkspace h.ledger hstack workspaceId
  | resetAll => exact h.laneStep fun hstack => .resetAll h.ledger hstack
  | returned =>
    exact h.onward (h.ledger.step False.elim) (.returned h.ledger h.registered)
  | pick sessionID slot =>
    rw [WorkflowRunner.step]
    split
    next => exact h
    next item _ => exact h.pick item
  | select i now => exact h.at_ fun attempt hi => h.select hi now
  | launch i workspaceId isDraining =>
    exact h.at_ fun attempt hi => h.launch hi workspaceId isDraining
  | begin i => exact h.at_ fun attempt hi => h.begin hi
  | check i place active => exact h.at_ fun attempt hi => h.check hi place active
  | ended i place failure now =>
    exact h.at_ fun attempt hi => h.ended hi place failure now (hfit attempt hi)
  | finish i place => exact h.at_ fun attempt hi => h.finish hi place
  | complete i => exact h.at_ fun attempt hi => h.complete hi (hfit attempt hi)
  | fallBack i => exact h.at_ fun attempt hi => h.fallBack hi

end Events

/-- **A failed resume loses nothing**, puts back what it held, and starts one prompt loop at most:
in every run in which nothing is enqueued for a session between the picking of its item and the end
of the error handling, but for lanes that the error handling has behind it and where nothing else
removes it, in which only items of the normal lane are put back, and in which no lane is reset while
a prompt loop runs in it. -/
theorem resume_sound (queue : RunQueue.Queue) (events : List Event)
    (h : Meets step Fit (.init queue) events) :
    ∀ past, past <+: events → Sound (run step (.init queue) past) := by
  intro past hpast
  have hinv := (h.initial hpast).invariant Inv (inv_init queue) fun _ _ hinv hfit => hinv.step hfit
  exact hinv.sound

def continuation (triggerType : JsString) (priority : RunQueue.TriggerPriority) :
    ContinuationInput :=
  ⟨⟨js "ses_1", js "msg_1", 0, 0, .todoPending, js "go on"⟩, some triggerType, some priority⟩

def queued (id : ℕ) : List Event := RunQueue.slots.map (.removed id) ++ [.goesOn id, .goesOn id]

def stored (priority : RunQueue.TriggerPriority) : List Event :=
  .enqueue (continuation (js "continuation") priority) 7 :: queued 0

/-- It is picked from its lane, and a prompt loop is started. -/
def resumed (lane : Lane) : List Event :=
  [.pick (js "ses_1") (.lane lane), .select 0 8, .launch 0 none false, .check 0 .direct false]

/-- The prompt loop fails, and the item is put back; then a subagent is done. -/
def putBack : List Event :=
  stored .normal ++ resumed .normal ++ .ended 0 .direct (some ⟨.unknown, 0⟩) 9 :: queued 1 ++
    .finish 0 .direct :: .enqueue (continuation (js "task_completion") .normal) 10 :: queued 2

theorem resume_sound_putBack : Sound (run step (.init .empty) putBack) :=
  resume_sound .empty putBack (by decide +kernel) putBack (List.prefix_refl putBack)

/-- A subagent is done while the prompt loop runs, and the loop fails. -/
def overtaken : List Event :=
  stored .normal ++ resumed .normal ++
    .enqueue (continuation (js "task_completion") .normal) 9 :: queued 1 ++
      .ended 0 .direct (some ⟨.unknown, 0⟩) 10 :: queued 2

/-- The prompt loop of an item in the critical lane fails. -/
def critical : List Event :=
  stored .critical ++ resumed .critical ++ [.ended 0 .direct (some ⟨.unknown, 0⟩) 9]

def reset : List Event :=
  stored .normal ++ [.pick (js "ses_1") (.lane .normal), .select 0 8,
    .launch 0 (some (js "app")) false, .returned, .begin 0, .check 0 .lane false, .resetAll,
    .ended 0 .lane none 9, .complete 0, .fallBack 0, .check 0 .direct false]

/-- **A failed attempt loses what was enqueued since, takes its item to the normal lane, and a lane
that is reset has its task run again.** -/
theorem not_resume_sound :
    (¬∀ events, ∀ attempt ∈ (run step (.init .empty) events).attempts,
        Kept (run step (.init .empty) events).world.queue attempt) ∧
      (¬∀ events, ∀ attempt ∈ (run step (.init .empty) events).attempts,
        ∀ entry ∈ attempt.requeued, Keeps attempt.item entry) ∧
      ¬∀ events, ∀ attempt ∈ (run step (.init .empty) events).attempts, attempt.loops ≤ 1 := by
  refine ⟨fun h => ?_, fun h => ?_, fun h => ?_⟩
  · have hlost : ∃ attempt ∈ (run step (.init .empty) overtaken).attempts,
        attempt.handling ≠ .notBegun ∧ attempt.newer .normal =
            some ((continuation (js "task_completion") .normal).toInput.entry 9) ∧
          Table.lookup QueueEntry.key
              ((run step (.init .empty) overtaken).world.queue.lanes .normal)
              attempt.item.sessionID ≠
            some ((continuation (js "task_completion") .normal).toInput.entry 9) := by
      decide
    obtain ⟨attempt, hattempt, hbegun, hnewer, hstored⟩ := hlost
    exact hstored ((h overtaken attempt hattempt).stored hbegun .normal _ hnewer)
  · have hmoved : ∃ attempt ∈ (run step (.init .empty) critical).attempts,
        attempt.item.lane = some .critical ∧ ∃ entry ∈ attempt.requeued, entry.lane = .normal := by
      decide
    obtain ⟨attempt, hattempt, hlane, entry, hentry, hnormal⟩ := hmoved
    have hkept := (h critical attempt hattempt entry hentry).lane .critical hlane
    rw [hnormal] at hkept
    cases hkept
  · have htwice : ∃ attempt ∈ (run step (.init .empty) reset).attempts, attempt.loops = 2 := by
      decide +kernel
    obtain ⟨attempt, hattempt, hloops⟩ := htwice
    have honce := h reset attempt hattempt
    omega

end OpenCms.WorkflowRunner
