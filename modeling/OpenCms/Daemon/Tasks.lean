import OpenCms.Daemon.Lanes
import OpenCms.Lib.Runs

/-!
# What becomes of a task

A task in the queue of a lane is found by the key of the lane only. So it is not forgotten as
long as the lane is the one registered under its key, or its promise is settled when it is not
any more. Taking a lane away and resetting all do that, but a workspace that is registered has
new lanes whether or not tasks are waiting in the old ones: `OpenCms.Lanes.kept_iff` says
that this is the only way a task is forgotten. `OpenCms.Lanes.task_forgotten` is such a run.

That a task is started once is true of every run: it is in one queue at one place, and is taken
from there to be started.
-/

namespace OpenCms.Lanes

/-- A promise is not forgotten: it is settled, or waits in the lane registered under its key,
or its task is under way. -/
def State.Kept (s : State) (promise : ℕ) (key : JsString) : Prop :=
  s.settled promise ≠ none ∨
    (∃ lane, s.lanes.lookup key = some lane ∧
      ∃ entry ∈ (s.heap lane).queue, entry.promise = promise) ∨
    ∃ task ∈ s.running, task.entry.promise = promise

def State.AllKept (s : State) : Prop :=
  ∀ promise key, s.keys[promise]? = some key → s.Kept promise key

def State.NoneWaits (s : State) (key : JsString) : Prop :=
  ∀ lane, s.lanes.lookup key = some lane → (s.heap lane).queue = []

def NoneReplaced (s : State) : Event → Prop
  | .registerWorkspace workspaceId _ => ∀ lane, s.NoneWaits (buildLaneKey workspaceId lane)
  | _ => True

def TasksKept (events : List Event) : Prop :=
  ∀ before, before <+: events →
    (run step .start before).AllKept ∧ (run step .start before).started.Nodup

/-- What holds along a run, and what else if `K` does. -/
structure Ledger (K : Prop) (s : State) : Prop where
  lane_lt : ∀ {key : JsString} {lane : ℕ}, s.lanes.lookup key = some lane → lane < s.next
  key_inj : ∀ {key key' : JsString} {lane : ℕ}, s.lanes.lookup key = some lane →
    s.lanes.lookup key' = some lane → key = key'
  queue_lt : ∀ {lane : ℕ} {entry : QueueEntry}, entry ∈ (s.heap lane).queue →
    entry.promise < s.keys.length
  queue_fresh : ∀ {lane : ℕ} {entry : QueueEntry}, entry ∈ (s.heap lane).queue →
    entry.promise ∉ s.started
  /-- An entry is at one place in its queue, -/
  queue_nodup : ∀ lane, ((s.heap lane).queue.map (·.promise)).Nodup
  /-- and in no other. -/
  queue_apart : ∀ {lane lane' : ℕ} {entry entry' : QueueEntry}, entry ∈ (s.heap lane).queue →
    entry' ∈ (s.heap lane').queue → entry.promise = entry'.promise → lane = lane'
  started_nodup : s.started.Nodup
  started_lt : ∀ promise ∈ s.started, promise < s.keys.length
  running_started : ∀ task ∈ s.running, task.entry.promise ∈ s.started
  stack_started : ∀ frame ∈ s.stack, frame.task.entry.promise ∈ s.started
  settled_lt : ∀ {promise : ℕ}, s.settled promise ≠ none → promise < s.keys.length
  /-- What waits in a registered lane waits under its key, and is not settled. -/
  registered : ∀ {key : JsString} {lane : ℕ} {entry : QueueEntry},
    s.lanes.lookup key = some lane → entry ∈ (s.heap lane).queue →
      s.keys[entry.promise]? = some key ∧ s.settled entry.promise = none
  kept : K → s.AllKept

variable {K : Prop} {s : State} {settled : ℕ → Option Settlement} {key : JsString}
  {loops : List Loop} {maxConcurrent : ℚ} {how : Settlement}

theorem Ledger.start : Ledger K .start where
  lane_lt h := by simp [State.start] at h
  key_inj h := by simp [State.start] at h
  queue_lt h := absurd h List.not_mem_nil
  queue_fresh h := absurd h List.not_mem_nil
  queue_nodup _ := List.nodup_nil
  queue_apart h := absurd h List.not_mem_nil
  started_nodup := List.nodup_nil
  started_lt _ h := absurd h List.not_mem_nil
  running_started _ h := absurd h List.not_mem_nil
  stack_started _ h := absurd h List.not_mem_nil
  settled_lt h := absurd rfl h
  registered h := by simp [State.start] at h
  kept _ promise key h := by simp [State.start] at h

/-! ### Settling -/

theorem settle_ne_none {p q : ℕ} : settle settled p how q ≠ none ↔ q = p ∨ settled q ≠ none := by
  unfold settle
  rcases eq_or_ne q p with rfl | hne
  · cases settled q <;> simp
  · simp [hne]

theorem rejectAll_ne_none {queue : List QueueEntry} {q : ℕ} :
    rejectAll settled queue q ≠ none ↔
      (∃ entry ∈ queue, entry.promise = q) ∨ settled q ≠ none := by
  unfold rejectAll
  induction queue generalizing settled with
  | nil => simp
  | cons entry queue ih =>
    rw [List.foldl_cons, ih, settle_ne_none]
    constructor
    · rintro (⟨e, he, hq⟩ | rfl | hq)
      · exact Or.inl ⟨e, List.mem_cons_of_mem _ he, hq⟩
      · exact Or.inl ⟨entry, List.mem_cons_self, rfl⟩
      · exact Or.inr hq
    · rintro (⟨e, he, hq⟩ | hq)
      · rcases List.mem_cons.mp he with rfl | he
        · exact Or.inr (Or.inl hq.symm)
        · exact Or.inl ⟨e, he, hq⟩
      · exact Or.inr (Or.inr hq)

/-! ### The parts of the operations -/

theorem Ledger.shrink {heap : ℕ → LaneState} {lanes : AList fun _ : JsString => ℕ}
    {running : List Task} (h : Ledger K s)
    (hlanes : ∀ {key lane}, lanes.lookup key = some lane → s.lanes.lookup key = some lane)
    (hqueue : ∀ lane, (heap lane).queue.Sublist (s.heap lane).queue)
    (hrunning : ∀ task ∈ running, task ∈ s.running)
    (hlt : ∀ {promise}, settled promise ≠ none → promise < s.keys.length)
    (hnone : ∀ {key lane entry}, lanes.lookup key = some lane → entry ∈ (heap lane).queue →
      settled entry.promise = none)
    (hkept : ∀ promise key, s.Kept promise key →
      State.Kept { s with heap, lanes, running, settled } promise key) :
    Ledger K { s with heap, lanes, running, settled } where
  lane_lt hlane := h.lane_lt (hlanes hlane)
  key_inj hlane hlane' := h.key_inj (hlanes hlane) (hlanes hlane')
  queue_lt hentry := h.queue_lt ((hqueue _).subset hentry)
  queue_fresh hentry := h.queue_fresh ((hqueue _).subset hentry)
  queue_nodup lane := (h.queue_nodup lane).sublist ((hqueue lane).map _)
  queue_apart hentry hentry' :=
    h.queue_apart ((hqueue _).subset hentry) ((hqueue _).subset hentry')
  started_nodup := h.started_nodup
  started_lt := h.started_lt
  running_started task htask := h.running_started task (hrunning task htask)
  stack_started := h.stack_started
  settled_lt := hlt
  registered hlane hentry :=
    ⟨(h.registered (hlanes hlane) ((hqueue _).subset hentry)).1, hnone hlane hentry⟩
  kept hK promise key hkey := hkept promise key (h.kept hK promise key hkey)

theorem Ledger.pop {frame : Frame} {stack : List Frame} (h : Ledger K s)
    (hstack : s.stack = frame :: stack) : Ledger K { s with stack } :=
  ⟨h.lane_lt, h.key_inj, h.queue_lt, h.queue_fresh, h.queue_nodup, h.queue_apart,
    h.started_nodup, h.started_lt, h.running_started,
    fun frame' hframe => h.stack_started frame' (hstack ▸ List.mem_cons_of_mem _ hframe),
    h.settled_lt, h.registered, h.kept⟩

theorem Ledger.addLane (h : Ledger K s) (hempty : K → s.NoneWaits key) :
    Ledger K (s.addLane key maxConcurrent) := by
  have hlookup {key' : JsString} {lane : ℕ}
      (hlane : (s.addLane key maxConcurrent).lanes.lookup key' = some lane) :
      key' = key ∧ lane = s.next ∨ key' ≠ key ∧ s.lanes.lookup key' = some lane := by
    rcases eq_or_ne key' key with rfl | hne
    · rw [State.addLane_lookup] at hlane
      exact Or.inl ⟨rfl, (Option.some.inj hlane).symm⟩
    · rw [State.addLane_lookup_of_ne hne] at hlane
      exact Or.inr ⟨hne, hlane⟩
  refine ⟨fun hlane => ?_, fun hlane hlane' => ?_,
    fun hentry => h.queue_lt (State.mem_addLane_queue hentry).2,
    fun hentry => h.queue_fresh (State.mem_addLane_queue hentry).2, fun lane => ?_,
    fun hentry hentry' => h.queue_apart (State.mem_addLane_queue hentry).2
      (State.mem_addLane_queue hentry').2, h.started_nodup,
    h.started_lt, h.running_started, h.stack_started, h.settled_lt, fun hlane hentry => ?_,
    fun hK promise key' hkey => ?_⟩
  · rcases hlookup hlane with ⟨-, rfl⟩ | ⟨-, hlane⟩
    · exact Nat.lt_succ_self _
    · exact (h.lane_lt hlane).trans (Nat.lt_succ_self _)
  · rcases hlookup hlane with ⟨rfl, rfl⟩ | ⟨-, hold⟩
    · rcases hlookup hlane' with ⟨rfl, -⟩ | ⟨-, hold⟩
      · rfl
      · exact absurd (h.lane_lt hold) (lt_irrefl _)
    · rcases hlookup hlane' with ⟨-, rfl⟩ | ⟨-, hold'⟩
      · exact absurd (h.lane_lt hold) (lt_irrefl _)
      · exact h.key_inj hold hold'
  · rcases eq_or_ne lane s.next with rfl | hne
    · simp [State.addLane_queue]
    · rw [State.addLane_heap hne]
      exact h.queue_nodup lane
  · obtain ⟨hne, hentry⟩ := State.mem_addLane_queue hentry
    rcases hlookup hlane with ⟨-, rfl⟩ | ⟨-, hlane⟩
    · exact absurd rfl hne
    · exact h.registered hlane hentry
  · rcases h.kept hK promise key' hkey with hsettled | ⟨lane, hlane, entry, hentry, hpromise⟩ | hrun
    · exact Or.inl hsettled
    · have hne : key' ≠ key := by
        rintro rfl
        simp [hempty hK lane hlane] at hentry
      refine Or.inr (Or.inl ⟨lane, (State.addLane_lookup_of_ne hne).trans hlane, entry, ?_,
        hpromise⟩)
      rw [State.addLane_heap (h.lane_lt hlane).ne]
      exact hentry
    · exact Or.inr (Or.inr hrun)

theorem Ledger.getLane (h : Ledger K s) (laneKey : JsString) :
    Ledger K (getLane s laneKey).1 ∧
      (getLane s laneKey).1.lanes.lookup laneKey = some (getLane s laneKey).2 := by
  unfold Lanes.getLane
  cases hlookup : s.lanes.lookup laneKey with
  | some lane => exact ⟨h, hlookup⟩
  | none => exact ⟨h.addLane fun _ ref href => by simp [hlookup] at href, AList.lookup_insert _⟩

theorem Ledger.startEntry {loop : Loop} {entry : QueueEntry} {queue : List QueueEntry}
    (h : Ledger K s) (hloop : (s.heap loop.lane).queue = entry :: queue) :
    Ledger K (s.startEntry loop entry queue loops) := by
  have hfirst : entry ∈ (s.heap loop.lane).queue := hloop ▸ List.mem_cons_self
  have hnodup := h.queue_nodup loop.lane
  rw [hloop, List.map_cons, List.nodup_cons] at hnodup
  have hqueue {lane : ℕ} {e : QueueEntry}
      (he : e ∈ ((s.startEntry loop entry queue loops).heap lane).queue) :
      e ∈ (s.heap lane).queue ∧ e.promise ≠ entry.promise := by
    rcases eq_or_ne lane loop.lane with rfl | hne
    · rw [State.startEntry_queue] at he
      refine ⟨hloop ▸ List.mem_cons_of_mem _ he, fun heq => hnodup.1 ?_⟩
      exact List.mem_map.mpr ⟨e, he, heq⟩
    · rw [State.startEntry_heap hne] at he
      exact ⟨he, fun heq => hne (h.queue_apart he hfirst heq)⟩
  refine ⟨h.lane_lt, h.key_inj, fun he => h.queue_lt (hqueue he).1, fun he => ?_,
    fun lane => ?_, fun he he' => h.queue_apart (hqueue he).1 (hqueue he').1, ?_,
    fun p hp => ?_, fun task htask => ?_, fun frame hframe => ?_, h.settled_lt,
    fun hlane he => h.registered hlane (hqueue he).1, fun hK promise key hkey => ?_⟩
  · obtain ⟨hold, hne⟩ := hqueue he
    refine fun hmem => (List.mem_append.mp hmem).elim (h.queue_fresh hold) fun hmem => ?_
    exact hne (List.mem_singleton.mp hmem)
  · rcases eq_or_ne lane loop.lane with rfl | hne
    · rw [State.startEntry_queue]
      exact hnodup.2
    · rw [State.startEntry_heap hne]
      exact h.queue_nodup lane
  · have hstarted := h.started_nodup.concat (h.queue_fresh hfirst)
    rwa [List.concat_eq_append] at hstarted
  · rcases List.mem_append.mp hp with hp | hp
    · exact h.started_lt p hp
    · exact List.mem_singleton.mp hp ▸ h.queue_lt hfirst
  · rcases List.mem_append.mp htask with htask | htask
    · exact List.mem_append_left _ (h.running_started task htask)
    · obtain rfl := List.mem_singleton.mp htask
      exact List.mem_append_right _ List.mem_cons_self
  · rcases List.mem_cons.mp hframe with rfl | hframe
    · exact List.mem_append_right _ List.mem_cons_self
    · exact List.mem_append_left _ (h.stack_started frame hframe)
  · rcases h.kept hK promise key hkey with hsettled | ⟨lane, hlane, e, he, rfl⟩ | ⟨task, htask, hp⟩
    · exact Or.inl hsettled
    · by_cases heq : e.promise = entry.promise
      · refine Or.inr (Or.inr ⟨⟨loop.laneKey, loop.lane, entry⟩, ?_, heq.symm⟩)
        exact List.mem_append_right _ List.mem_cons_self
      · refine Or.inr (Or.inl ⟨lane, hlane, e, ?_, rfl⟩)
        rcases eq_or_ne lane loop.lane with rfl | hne
        · rw [State.startEntry_queue]
          rw [hloop] at he
          exact (List.mem_cons.mp he).resolve_left fun hsame => heq (hsame ▸ rfl)
        · rw [State.startEntry_heap hne]
          exact he
    · exact Or.inr (Or.inr ⟨task, List.mem_append_left _ htask, hp⟩)

theorem Ledger.drive (h : Ledger K s) : Ledger K (drive s loops) := by
  induction loops with
  | nil => exact h
  | cons loop loops ih =>
    unfold Lanes.drive
    split
    · exact ih
    next entry queue hloop =>
      split
      · exact h.startEntry hloop
      · exact ih

theorem Ledger.pump {laneKey : JsString} (h : Ledger K s) : Ledger K (pump s laneKey loops) := by
  unfold Lanes.pump
  dsimp only
  split
  · exact (h.getLane laneKey).1.drive
  · exact (h.getLane laneKey).1.drive

theorem Ledger.push {lane : ℕ} (h : Ledger K s) (hlane : s.lanes.lookup key = some lane) :
    Ledger K (s.push lane key) := by
  have hlength : (s.push lane key).keys.length = s.keys.length + 1 := List.length_append
  have hqueue {lane' : ℕ} {e : QueueEntry} (he : e ∈ ((s.push lane key).heap lane').queue) :
      e ∈ (s.heap lane').queue ∨ lane' = lane ∧ e.promise = s.keys.length :=
    (State.mem_push_queue he).imp_right (And.imp_right (congrArg QueueEntry.promise))
  have hkeep {lane' : ℕ} {e : QueueEntry} (he : e ∈ (s.heap lane').queue) :
      e ∈ ((s.push lane key).heap lane').queue := by
    rcases eq_or_ne lane' lane with rfl | hne
    · rw [s.push_queue]
      exact List.mem_append_left _ he
    · rwa [s.push_heap key hne]
  refine ⟨h.lane_lt, h.key_inj, fun he => ?_, fun he => ?_, fun lane' => ?_,
    fun he he' hsame => ?_, h.started_nodup, fun p hp => ?_, h.running_started,
    h.stack_started, fun hp => ?_, fun {key' lane' e} hlane' he => ?_,
    fun hK promise key' hkey => ?_⟩
  · rcases hqueue he with he | ⟨-, he⟩
    · have hlt := h.queue_lt he
      omega
    · omega
  · rcases hqueue he with he | ⟨-, he⟩
    · exact h.queue_fresh he
    · exact fun hmem => absurd (h.started_lt _ hmem) (by omega)
  · rcases eq_or_ne lane' lane with rfl | hne
    · rw [s.push_queue, List.map_append]
      -- the new promise is the next one
      have hnew : s.keys.length ∉ (s.heap lane').queue.map (·.promise) := by
        intro hmem
        obtain ⟨e, he, hp⟩ := List.mem_map.mp hmem
        exact absurd (h.queue_lt he) (not_lt.mpr hp.ge)
      have hnodup := (h.queue_nodup lane').concat hnew
      rwa [List.concat_eq_append] at hnodup
    · rw [s.push_heap key hne]
      exact h.queue_nodup lane'
  · rcases hqueue he with he | ⟨rfl, hp⟩
    · rcases hqueue he' with he' | ⟨-, hp'⟩
      · exact h.queue_apart he he' hsame
      · have hlt := h.queue_lt he
        omega
    · rcases hqueue he' with he' | ⟨rfl, -⟩
      · have hlt := h.queue_lt he'
        omega
      · rfl
  · have hlt := h.started_lt p hp
    omega
  · have hlt := h.settled_lt hp
    omega
  · rcases hqueue he with he | ⟨rfl, hp⟩
    · obtain ⟨hkey, hnone⟩ := h.registered hlane' he
      exact ⟨(List.getElem?_append_left (h.queue_lt he)).trans hkey, hnone⟩
    · obtain rfl := h.key_inj hlane hlane'
      refine ⟨?_, ?_⟩
      · rw [hp, State.push, List.getElem?_concat_length]
      · rw [hp]
        by_contra hsettled
        exact absurd (h.settled_lt hsettled) (lt_irrefl _)
  · rcases getElem?_concat hkey with hold | ⟨rfl, rfl⟩
    · rcases h.kept hK promise key' hold with hsettled | ⟨lane', hlane', e, he, hp⟩ | hrun
      · exact Or.inl hsettled
      · exact Or.inr (Or.inl ⟨lane', hlane', e, hkeep he, hp⟩)
      · exact Or.inr (Or.inr hrun)
    · refine Or.inr (Or.inl ⟨lane, hlane, ?_⟩)
      rw [s.push_queue]
      exact ⟨_, List.mem_append_right _ List.mem_cons_self, rfl⟩

theorem Ledger.reject (h : Ledger K s) :
    Ledger K
      { s with
        keys := s.keys ++ [key]
        settled := settle s.settled s.keys.length .draining } := by
  have hlength : (s.keys ++ [key]).length = s.keys.length + 1 := List.length_append
  refine ⟨h.lane_lt, h.key_inj, fun he => ?_, h.queue_fresh, h.queue_nodup, h.queue_apart,
    h.started_nodup, fun p hp => ?_, h.running_started, h.stack_started, fun hp => ?_,
    fun {key' lane e} hlane he => ?_, fun hK promise key' hkey => ?_⟩
  · have hlt := h.queue_lt he
    simp only
    omega
  · have hlt := h.started_lt p hp
    simp only
    omega
  · simp only
    rcases settle_ne_none.mp hp with rfl | hp
    · omega
    · have hlt := h.settled_lt hp
      omega
  · obtain ⟨hkey, hnone⟩ := h.registered hlane he
    have hlt := h.queue_lt he
    refine ⟨(List.getElem?_append_left hlt).trans hkey, ?_⟩
    by_contra hsettled
    rcases settle_ne_none.mp hsettled with heq | hold
    · omega
    · exact hold hnone
  · rcases getElem?_concat hkey with hold | ⟨rfl, rfl⟩
    · rcases h.kept hK promise key' hold with hsettled | hqueued | hrun
      · exact Or.inl (settle_ne_none.mpr (Or.inr hsettled))
      · exact Or.inr (Or.inl hqueued)
      · exact Or.inr (Or.inr hrun)
    · exact Or.inl (settle_ne_none.mpr (Or.inl rfl))

theorem Ledger.clear {heap : ℕ → LaneState} {lanes : AList fun _ : JsString => ℕ} {lane : ℕ}
    (h : Ledger K s) (hlane : s.lanes.lookup key = some lane)
    (hlanes : ∀ {key' lane'}, lanes.lookup key' = some lane' → s.lanes.lookup key' = some lane')
    (hqueue : ∀ lane', (heap lane').queue.Sublist (s.heap lane').queue)
    (hgone : ∀ {entry}, lanes.lookup key = some lane → entry ∉ (heap lane).queue)
    (hother : ∀ {key' lane'}, key' ≠ key → s.lanes.lookup key' = some lane' →
      lanes.lookup key' = some lane' ∧ heap lane' = s.heap lane') :
    Ledger K { s with heap, lanes, settled := rejectAll s.settled (s.heap lane).queue } := by
  refine h.shrink hlanes hqueue (fun _ htask => htask) (fun hp => ?_)
    (fun {key' lane' e} hlane' he => ?_) fun promise key' hkept => ?_
  · rcases rejectAll_ne_none.mp hp with ⟨e, he, rfl⟩ | hold
    · exact h.queue_lt he
    · exact h.settled_lt hold
  · by_contra hsettled
    rcases rejectAll_ne_none.mp hsettled with ⟨e', he', hp⟩ | hold
    · obtain rfl := h.queue_apart he' ((hqueue _).subset he) hp
      obtain rfl := h.key_inj hlane (hlanes hlane')
      exact hgone hlane' he
    · exact hold (h.registered (hlanes hlane') ((hqueue _).subset he)).2
  · rcases hkept with hsettled | ⟨lane', hlane', e, he, hp⟩ | hrun
    · exact Or.inl (rejectAll_ne_none.mpr (Or.inr hsettled))
    · rcases eq_or_ne key' key with rfl | hne
      · obtain rfl := Option.some.inj (hlane.symm.trans hlane')
        exact Or.inl (rejectAll_ne_none.mpr (Or.inl ⟨e, he, hp⟩))
      · obtain ⟨hkeep, hheap⟩ := hother hne hlane'
        refine Or.inr (Or.inl ⟨lane', hkeep, e, ?_, hp⟩)
        dsimp only
        rwa [hheap]
    · exact Or.inr (Or.inr hrun)

theorem Ledger.dropLane (h : Ledger K s) : Ledger K (s.dropLane key) := by
  unfold State.dropLane
  cases hlane : s.lanes.lookup key with
  | none => exact h
  | some lane =>
    refine h.clear hlane (fun {key' lane'} hlane' => ?_) (fun _ => List.Sublist.refl _)
      (fun {entry} hkey => ?_) fun hne hlane' => ⟨(AList.lookup_erase_ne hne).trans hlane', rfl⟩
    · rcases eq_or_ne key' key with rfl | hne
      · simp at hlane'
      · rwa [AList.lookup_erase_ne hne] at hlane'
    · simp at hkey

theorem Ledger.resetLane {lane : ℕ} (h : Ledger K s) (hlane : s.lanes.lookup key = some lane) :
    Ledger K (s.resetLane lane) := by
  refine h.clear hlane (fun hlane' => hlane') (fun lane' => ?_) (fun {entry} _ => ?_)
    fun {key' lane'} hne hlane' => ⟨hlane', ?_⟩
  · rcases eq_or_ne lane' lane with rfl | hne
    · simp only [Function.update_self, List.nil_sublist]
    · rw [Function.update_of_ne hne]
  · simp only [Function.update_self, List.not_mem_nil, not_false_eq_true]
  · have hother : lane' ≠ lane := by
      rintro rfl
      exact hne (h.key_inj hlane' hlane)
    exact Function.update_of_ne hother ..

theorem Ledger.finished {task : Task} (h : Ledger K s) (htask : task.entry.promise ∈ s.started) :
    Ledger K
      { s with
        settled := settle s.settled task.entry.promise how
        running := s.running.erase task
        heap := Function.update s.heap task.lane
          { s.heap task.lane with
            activeTaskIds := (s.heap task.lane).activeTaskIds.erase task.entry.id } } := by
  have hheap (lane : ℕ) : (Function.update s.heap task.lane
      { s.heap task.lane with
        activeTaskIds := (s.heap task.lane).activeTaskIds.erase task.entry.id } lane).queue =
      (s.heap lane).queue := by
    rcases eq_or_ne lane task.lane with rfl | hne
    · simp only [Function.update_self]
    · rw [Function.update_of_ne hne]
  refine h.shrink (fun hlane => hlane) (fun lane => ?_)
    (fun _ => List.mem_of_mem_erase) (fun hp => ?_) (fun {key lane e} hlane he => ?_)
    fun promise key hkept => ?_
  · rw [hheap]
  · rcases settle_ne_none.mp hp with rfl | hold
    · exact h.started_lt _ htask
    · exact h.settled_lt hold
  · rw [hheap] at he
    by_contra hsettled
    rcases settle_ne_none.mp hsettled with heq | hold
    · exact h.queue_fresh he (heq ▸ htask)
    · exact hold (h.registered hlane he).2
  · rcases hkept with hsettled | ⟨lane, hlane, e, he, hp⟩ | ⟨task', htask', rfl⟩
    · exact Or.inl (settle_ne_none.mpr (Or.inr hsettled))
    · exact Or.inr (Or.inl ⟨lane, hlane, e, (hheap lane).symm ▸ he, hp⟩)
    · rcases eq_or_ne task' task with rfl | hne
      · exact Or.inl (settle_ne_none.mpr (Or.inl rfl))
      · exact Or.inr (Or.inr ⟨task', (List.mem_erase_of_ne hne).mpr htask', rfl⟩)

theorem Ledger.finishEntry {task : Task} (h : Ledger K s) (htask : task.entry.promise ∈ s.started) :
    Ledger K (finishEntry s task how loops) :=
  (h.finished htask).pump

/-! ### The operations -/

theorem Ledger.noneWaits_addLane {key' : JsString} (h : Ledger K s) (hnone : s.NoneWaits key) :
    (s.addLane key' maxConcurrent).NoneWaits key := by
  intro lane hlane
  rcases eq_or_ne key key' with rfl | hne
  · rw [State.addLane_lookup] at hlane
    obtain rfl := Option.some.inj hlane
    exact State.addLane_queue
  · rw [State.addLane_lookup_of_ne hne] at hlane
    rw [State.addLane_heap (h.lane_lt hlane).ne]
    exact hnone lane hlane

theorem State.noneWaits_addLane : (s.addLane key maxConcurrent).NoneWaits key := by
  intro lane hlane
  rw [State.addLane_lookup] at hlane
  obtain rfl := Option.some.inj hlane
  exact State.addLane_queue

theorem Ledger.addLanes {key : CommandLane → JsString} {maxConcurrent : CommandLane → ℚ}
    {lanes : List CommandLane} (h : Ledger K s)
    (hnone : K → ∀ lane, s.NoneWaits (key lane)) :
    Ledger K (lanes.foldl (fun s lane => s.addLane (key lane) (maxConcurrent lane)) s) := by
  induction lanes generalizing s with
  | nil => exact h
  | cons lane lanes ih =>
    exact ih (h.addLane fun hK => hnone hK lane) fun hK lane' =>
      h.noneWaits_addLane (hnone hK lane')

theorem Ledger.noneWaits_addLanes (key : CommandLane → JsString)
    (maxConcurrent : CommandLane → ℚ) {lanes : List CommandLane} {lane : CommandLane}
    (h : Ledger False s) (hlane : lane ∈ lanes ∨ s.NoneWaits (key lane)) :
    (lanes.foldl (fun s lane => s.addLane (key lane) (maxConcurrent lane)) s).NoneWaits
      (key lane) := by
  induction lanes generalizing s with
  | nil => exact hlane.resolve_left List.not_mem_nil
  | cons first lanes ih =>
    refine ih (h.addLane False.elim) ?_
    rcases hlane with hmem | hnone
    · rcases List.mem_cons.mp hmem with rfl | hmem
      · exact Or.inr State.noneWaits_addLane
      · exact Or.inl hmem
    · exact Or.inr (h.noneWaits_addLane hnone)

theorem Ledger.unregisterWorkspace {workspaceId : JsString} (h : Ledger K s) :
    Ledger K (unregisterWorkspace s workspaceId) := by
  unfold Lanes.unregisterWorkspace
  induction CommandLane.values generalizing s with
  | nil => exact h
  | cons lane lanes ih => exact ih h.dropLane

theorem Ledger.enqueue {lane : CommandLane} {workspaceId : JsString} {isDraining : Bool}
    (h : Ledger K s) : Ledger K (enqueue s lane workspaceId isDraining) := by
  unfold Lanes.enqueue
  dsimp only
  split
  · exact h.reject
  · obtain ⟨hledger, hlane⟩ := h.getLane (buildLaneKey workspaceId lane)
    exact (hledger.push hlane).pump

theorem Ledger.resetAll (h : Ledger K s) : Ledger K (resetAll s) := by
  unfold Lanes.resetAll
  have hentries : ∀ entry ∈ s.lanes.entries, s.lanes.lookup entry.1 = some entry.2 :=
    fun _ hentry => AList.mem_lookup_iff.mpr hentry
  generalize s.lanes.entries = entries at hentries
  induction entries generalizing s with
  | nil => exact h
  | cons entry entries ih =>
    refine ih (h.resetLane (hentries entry List.mem_cons_self)) fun entry' hentry' => ?_
    exact hentries entry' (List.mem_cons_of_mem _ hentry')

/-- **What one step preserves.** -/
theorem Ledger.step {event : Event} (h : Ledger K s) (hok : K → NoneReplaced s event) :
    Ledger K (step s event) := by
  cases event with
  | registerWorkspace workspaceId concurrency => exact h.addLanes hok
  | unregisterWorkspace workspaceId => exact h.unregisterWorkspace
  | enqueue lane workspaceId isDraining => exact h.enqueue
  | resetAll => exact h.resetAll
  | returned =>
    unfold Lanes.step
    dsimp only
    split
    · exact h
    next frame stack hstack => exact (h.pop hstack).drive
  | threw =>
    unfold Lanes.step
    dsimp only
    split
    · exact h
    next frame stack hstack =>
      exact (h.pop hstack).finishEntry (h.stack_started frame (hstack ▸ List.mem_cons_self))
  | complete task fulfilled =>
    unfold Lanes.step
    dsimp only
    split
    next hrunning => exact h.finishEntry (h.running_started task hrunning.2)
    · exact h

theorem ledger_run (events : List Event) : Ledger False (run step .start events) :=
  run_invariant (Ledger False) .start (fun _ _ h => h.step False.elim) events

/-- **Tasks are forgotten exactly by registering a workspace over them.** Along a run every
promise is settled, or waits in the lane registered under its key, or its task is under way,
and no task is started twice; and this is so if and only if no workspace is registered while
a task waits in one of its lanes. -/
theorem kept_iff (events : List Event) :
    TasksKept events ↔ Meets step NoneReplaced .start events := by
  constructor
  · intro h
    refine Meets.iff_split.mpr fun before event after hevents => ?_
    cases event with
    | registerWorkspace workspaceId concurrency =>
      intro lane ref hlane
      by_contra hqueue
      obtain ⟨entry, hentry⟩ := List.exists_mem_of_ne_nil _ hqueue
      have hledger := ledger_run before
      obtain ⟨hkey, hnone⟩ := hledger.registered hlane hentry
      -- the task waits nowhere afterwards, and was not started
      have hkept := (h (before ++ [.registerWorkspace workspaceId concurrency])
        ⟨after, by simp [hevents]⟩).1
      rw [run_concat] at hkept
      rcases hkept entry.promise _ hkey with hsettled | ⟨ref', hlane', e, he, -⟩ | ⟨task, htask, hp⟩
      · exact hsettled hnone
      · have hvalue : lane ∈ CommandLane.values := by cases lane <;> decide
        have hempty := Ledger.noneWaits_addLanes (buildLaneKey workspaceId)
          (fun lane => (concurrency lane).getD (DEFAULT_CONCURRENCY lane)) hledger
          (Or.inl hvalue)
        exact absurd (hempty ref' hlane' ▸ he) List.not_mem_nil
      · exact hledger.queue_fresh hentry (hp ▸ hledger.running_started task htask)
    | _ => trivial
  · intro h before hbefore
    have hledger : Ledger True (run step .start before) :=
      (h.initial hbefore).invariant (Ledger True) .start fun _ _ hs hok => hs.step fun _ => hok
    exact ⟨hledger.kept trivial, hledger.started_nodup⟩

/-- **A task is forgotten** that waits while its workspace is registered again. -/
theorem task_forgotten : ¬∀ events, TasksKept events := by
  intro h
  let events : List Event := [.enqueue .main (js "default") false, .returned,
    .enqueue .main (js "default") false, .registerWorkspace (js "default") fun _ => none]
  have hkept := (h events events (List.prefix_refl _)).1 1 (buildLaneKey (js "default") .main)
    (by decide)
  have hlookup : (run step .start events).lanes.lookup (buildLaneKey (js "default") .main) =
      some 1 := by decide
  rcases hkept with hsettled | ⟨lane, hlane, hwaits⟩ | hrunning
  · exact hsettled (by decide)
  · obtain rfl := Option.some.inj (hlookup.symm.trans hlane)
    revert hwaits
    decide
  · revert hrunning
    decide

end OpenCms.Lanes
