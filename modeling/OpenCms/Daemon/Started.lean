import OpenCms.Daemon.Tasks

/-!
# What a lane starts

A pump goes on with the lane it found, and takes what waits there whether or not its promise is
settled. But a promise is settled while its task waits only when its lane is reset or taken away,
and no pump is in the middle of a lane that is taken away as long as every task comes back before
anything else happens. So a task that is started is one whose promise is not settled, and from then
on its promise is settled by its own end only (`OpenCms.Lanes.Onward`).
-/

namespace OpenCms.Lanes

/-- The pumps that are interrupted go through lanes that are registered. -/
def State.Registered (s : State) : Prop :=
  ∀ frame ∈ s.stack, ∀ loop ∈ frame.loops, s.lanes.lookup loop.laneKey = some loop.lane

/-- What the lanes do on their own: the tasks that were started are settled or not as before, and
what is started is not settled. -/
structure Onward (s s' : State) : Prop where
  /-- A promise is settled once. -/
  once : ∀ {promise : ℕ} {how : Settlement}, s.settled promise = some how →
    s'.settled promise = some how
  started : ∀ promise ∈ s.started, promise ∈ s'.started
  kept : ∀ promise ∈ s.started, s'.settled promise = s.settled promise
  fresh : ∀ promise ∈ s'.started, promise ∈ s.started ∨ s'.settled promise = none
  registered : s'.Registered
  keys : s.keys.length ≤ s'.keys.length

variable {s s' s'' : State} {lane : ℕ} {key : JsString} {loops : List Loop}

theorem Onward.trans (h : Onward s s') (h' : Onward s' s'') : Onward s s'' where
  once hsettled := h'.once (h.once hsettled)
  started promise hpromise := h'.started promise (h.started promise hpromise)
  kept promise hpromise :=
    (h'.kept promise (h.started promise hpromise)).trans (h.kept promise hpromise)
  fresh promise hpromise := by
    rcases h'.fresh promise hpromise with hstarted | hnone
    · refine (h.fresh promise hstarted).imp_right fun hnone => ?_
      rw [h'.kept promise hstarted, hnone]
    · exact Or.inr hnone
  registered := h'.registered
  keys := h.keys.trans h'.keys

theorem Onward.of_started (hstack : s'.Registered) (hstarted : s'.started = s.started)
    (honce : ∀ {promise : ℕ} {how : Settlement}, s.settled promise = some how →
      s'.settled promise = some how)
    (hkept : ∀ promise ∈ s.started, s'.settled promise = s.settled promise)
    (hkeys : s.keys.length ≤ s'.keys.length) : Onward s s' where
  once := honce
  started _ hpromise := hstarted ▸ hpromise
  kept := hkept
  fresh _ hpromise := Or.inl (hstarted ▸ hpromise)
  registered := hstack
  keys := hkeys

theorem Onward.of_eq (hstack : s'.Registered) (hstarted : s'.started = s.started)
    (hsettled : s'.settled = s.settled) (hkeys : s.keys.length ≤ s'.keys.length) : Onward s s' :=
  .of_started hstack hstarted (fun h => hsettled ▸ h) (fun promise _ => by rw [hsettled]) hkeys

theorem registered_of_stack (h : s.stack = []) : s.Registered := by
  intro frame hframe
  rw [h] at hframe
  cases hframe

/-! ### Settling once -/

section Settle

variable {settled : ℕ → Option Settlement} {how how' : Settlement} {p q : ℕ}

theorem settle_of_some (h : settled p = some how) : settle settled q how' p = some how := by
  rw [settle]
  rcases eq_or_ne p q with rfl | hne
  · rw [Function.update_self, h, Option.some_or]
  · rw [Function.update_of_ne hne, h]

theorem settle_of_ne (h : p ≠ q) : settle settled q how p = settled p :=
  Function.update_of_ne h ..

theorem rejectAll_of_some {queue : List QueueEntry} (h : settled p = some how) :
    rejectAll settled queue p = some how := by
  induction queue generalizing settled with
  | nil => exact h
  | cons entry queue ih => exact ih (settle_of_some h)

theorem rejectAll_of_notMem {queue : List QueueEntry} (h : ∀ entry ∈ queue, entry.promise ≠ p) :
    rejectAll settled queue p = settled p := by
  rw [rejectAll]
  induction queue generalizing settled with
  | nil => rfl
  | cons entry queue ih =>
    rw [List.foldl_cons, ih fun entry' hentry' => h entry' (List.mem_cons_of_mem _ hentry')]
    exact settle_of_ne (h entry List.mem_cons_self).symm

end Settle

/-! ### The pumps -/

/-- **What a pump starts is not settled.** -/
theorem Onward.drive (h : Ledger False s) (hstack : s.Registered)
    (hloops : ∀ loop ∈ loops, s.lanes.lookup loop.laneKey = some loop.lane) :
    Onward s (drive s loops) := by
  induction loops with
  | nil => exact .of_eq hstack rfl rfl le_rfl
  | cons loop loops ih =>
    have hrest := fun other hother => hloops other (List.mem_cons_of_mem _ hother)
    rw [Lanes.drive]
    split
    next => exact ih hrest
    next entry queue hqueue =>
      split
      next =>
        have hlane := hloops loop List.mem_cons_self
        have hentry : entry ∈ (s.heap loop.lane).queue := hqueue ▸ List.mem_cons_self
        refine ⟨id, fun promise hpromise => List.mem_append_left _ hpromise, fun _ _ => rfl,
          fun promise hpromise => ?_, ?_, le_rfl⟩
        · rcases List.mem_append.mp hpromise with hpromise | hpromise
          · exact Or.inl hpromise
          · rw [List.mem_singleton.mp hpromise]
            exact Or.inr (h.registered hlane hentry).2
        · intro frame hframe
          rcases List.mem_cons.mp hframe with rfl | hframe
          · exact hloops
          · exact hstack frame hframe
      next => exact ih hrest

theorem registered_getLane (hstack : s.stack = []) (key : JsString) :
    Onward s (getLane s key).1 ∧ (getLane s key).1.stack = [] ∧
      (getLane s key).1.lanes.lookup key = some (getLane s key).2 := by
  rw [getLane]
  split
  next lane hlane => exact ⟨.of_eq (registered_of_stack hstack) rfl rfl le_rfl, hstack, hlane⟩
  next =>
    exact ⟨.of_eq (registered_of_stack hstack) rfl rfl le_rfl, hstack, State.addLane_lookup⟩

theorem Onward.pump (h : Ledger False s) (hstack : s.stack = []) (key : JsString) :
    Onward s (pump s key []) := by
  obtain ⟨honward, hempty, hlane⟩ := registered_getLane hstack key
  obtain ⟨hledger, -⟩ := h.getLane key
  rw [Lanes.pump]
  dsimp only
  split
  next => exact honward
  next =>
    refine honward.trans (.drive hledger (registered_of_stack hempty) fun loop hloop => ?_)
    rw [List.mem_singleton.mp hloop]
    exact hlane

/-! ### The operations -/

theorem Onward.dropLane (h : Ledger False s) (hstack : s.stack = []) :
    Onward s (s.dropLane key) := by
  rw [State.dropLane]
  split
  next lane hlane =>
    refine .of_started (registered_of_stack hstack) rfl rejectAll_of_some
      (fun promise hpromise => rejectAll_of_notMem fun entry hentry heq => ?_) le_rfl
    exact h.queue_fresh hentry (heq ▸ hpromise)
  next => exact .of_eq (registered_of_stack hstack) rfl rfl le_rfl

theorem Onward.resetLane (h : Ledger False s) (hstack : s.stack = []) :
    Onward s (s.resetLane lane) := by
  refine .of_started (registered_of_stack hstack) rfl rejectAll_of_some
    (fun promise hpromise => rejectAll_of_notMem fun entry hentry heq => ?_) le_rfl
  exact h.queue_fresh hentry (heq ▸ hpromise)

theorem stack_dropLane : (s.dropLane key).stack = s.stack := by
  rw [State.dropLane]
  split <;> rfl

theorem Onward.unregisterWorkspace (h : Ledger False s) (hstack : s.stack = [])
    (workspaceId : JsString) : Onward s (unregisterWorkspace s workspaceId) := by
  rw [Lanes.unregisterWorkspace]
  generalize CommandLane.values = lanes
  induction lanes generalizing s with
  | nil => exact .of_eq (registered_of_stack hstack) rfl rfl le_rfl
  | cons lane lanes ih =>
    exact (Onward.dropLane h hstack).trans (ih h.dropLane (stack_dropLane.trans hstack))

theorem Onward.registerWorkspace (hstack : s.stack = []) (workspaceId : JsString)
    (concurrency : CommandLane → Option ℚ) :
    Onward s (registerWorkspace s workspaceId concurrency) := by
  rw [Lanes.registerWorkspace]
  generalize CommandLane.values = lanes
  induction lanes generalizing s with
  | nil => exact .of_eq (registered_of_stack hstack) rfl rfl le_rfl
  | cons lane lanes ih =>
    have hfirst : Onward s (s.addLane (buildLaneKey workspaceId lane)
        ((concurrency lane).getD (DEFAULT_CONCURRENCY lane))) :=
      .of_eq (registered_of_stack hstack) rfl rfl le_rfl
    exact hfirst.trans (ih hstack)

theorem Onward.resetAll (h : Ledger False s) (hstack : s.stack = []) : Onward s (resetAll s) := by
  rw [Lanes.resetAll]
  have hentries : ∀ entry ∈ s.lanes.entries, s.lanes.lookup entry.1 = some entry.2 :=
    fun _ hentry => AList.mem_lookup_iff.mpr hentry
  generalize s.lanes.entries = entries at hentries
  induction entries generalizing s with
  | nil => exact .of_eq (registered_of_stack hstack) rfl rfl le_rfl
  | cons entry entries ih =>
    refine (Onward.resetLane h hstack).trans
      (ih (h.resetLane (hentries entry List.mem_cons_self)) hstack fun entry' hentry' => ?_)
    exact hentries entry' (List.mem_cons_of_mem _ hentry')

theorem Onward.enqueue (h : Ledger False s) (hstack : s.stack = []) (lane : CommandLane)
    (workspaceId : JsString) (isDraining : Bool) :
    Onward s (enqueue s lane workspaceId isDraining) := by
  rw [Lanes.enqueue]
  dsimp only
  split
  next =>
    refine .of_started (registered_of_stack hstack) rfl settle_of_some
      (fun promise hpromise => ?_) ?_
    · exact settle_of_ne (h.started_lt promise hpromise).ne
    · rw [List.length_append]
      exact Nat.le_add_right _ _
  next =>
    obtain ⟨honward, hempty, -⟩ := registered_getLane hstack (buildLaneKey workspaceId lane)
    obtain ⟨hledger, hlane⟩ := h.getLane (buildLaneKey workspaceId lane)
    refine honward.trans ?_
    have hpush : Onward (getLane s (buildLaneKey workspaceId lane)).1
        ((getLane s (buildLaneKey workspaceId lane)).1.push
          (getLane s (buildLaneKey workspaceId lane)).2 (buildLaneKey workspaceId lane)) :=
      .of_eq (registered_of_stack hempty) rfl rfl
        (by rw [State.push, List.length_append]; exact Nat.le_add_right _ _)
    exact hpush.trans (.pump (hledger.push hlane) hempty _)

theorem length_keys_enqueue (h : Ledger False s) (hstack : s.stack = []) (lane : CommandLane)
    (workspaceId : JsString) (isDraining : Bool) :
    s.keys.length < (enqueue s lane workspaceId isDraining).keys.length := by
  rw [Lanes.enqueue]
  split
  next => simp
  next =>
    obtain ⟨honward, hempty, -⟩ := registered_getLane hstack (buildLaneKey workspaceId lane)
    obtain ⟨hledger, hlane⟩ := h.getLane (buildLaneKey workspaceId lane)
    have hpump := (Onward.pump (hledger.push hlane) hempty (buildLaneKey workspaceId lane)).keys
    rw [State.push, List.length_append, List.length_singleton] at hpump
    exact (Nat.lt_succ_of_le honward.keys).trans_le hpump

/-- A task comes back, and the pumps that it interrupted go on. -/
theorem Onward.returned (h : Ledger False s) (hregistered : s.Registered) :
    Onward s (step s .returned) := by
  rw [Lanes.step]
  split
  next => exact .of_eq hregistered rfl rfl le_rfl
  next frame stack hstack =>
    have hrest : State.Registered { s with stack } := fun other hother =>
      hregistered other (hstack ▸ List.mem_cons_of_mem _ hother)
    have hpop : Onward s { s with stack } := .of_eq hrest rfl rfl le_rfl
    refine hpop.trans (.drive (h.pop hstack) hrest ?_)
    exact hregistered frame (hstack ▸ List.mem_cons_self)

/-- **A task that ends settles its promise**, unless it is settled: with its value, or as cleared if
its lane was reset since it was put there. -/
theorem complete_settled (h : Ledger False s) {task : Task} (hstack : s.stack = [])
    (htask : task ∈ s.running) {how : Settlement}
    (hhow : how = if task.entry.generation ≠ (s.heap task.lane).generation then .cleared
      else .resolved) :
    Onward { s with settled := settle s.settled task.entry.promise how }
      (step s (.complete task true)) := by
  have hand := (⟨hstack, htask⟩ : s.stack = [] ∧ task ∈ s.running)
  rw [Lanes.step, if_pos hand, if_neg (by simp), ← hhow, finishEntry]
  have hledger := @Ledger.finished _ _ how _ h (h.running_started task htask)
  have hend : Onward { s with settled := settle s.settled task.entry.promise how }
      { s with
        settled := settle s.settled task.entry.promise how
        running := s.running.erase task
        heap := Function.update s.heap task.lane
          { s.heap task.lane with
            activeTaskIds := (s.heap task.lane).activeTaskIds.erase task.entry.id } } :=
    .of_eq (registered_of_stack hstack) rfl rfl le_rfl
  exact hend.trans (.pump hledger hstack task.laneKey)

end OpenCms.Lanes
