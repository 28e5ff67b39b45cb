import OpenCms.Freerun.Crash

/-!
# The engine

The engine takes iterations until the tree is settled, a cap is reached or an error is thrown, and
consolidates after each of them. What it stores of a session is a status, which it reads before it
begins and writes when it has ended; the bridge to the sessions looks at that status before it
drives the engine again, and a pause is written over it from outside.

A node that is blocked is settled. Nothing works on it again: it stays, or is moved to the archive
below a node that is done then, or a plan writes over it. So in a run that ends with `done` no node
ended blocked exactly if in no iteration the planner or the executor blocked one
(`OpenCms.Freerun.unblocked_iff`).
-/

namespace OpenCms.Freerun

open Freerun.Tree

variable (config : Config)

/-! ### Sessions -/

/-- `FreerunFinalStatus`. -/
inductive FinalStatus
  | inProgress
  | done
  | blocked
  | capReached
  | paused
  | userInterrupted
  | error
  deriving DecidableEq

/-- `FreerunSessionMeta`, as far as it is read and changed. -/
structure SessionMeta where
  final_status : FinalStatus
  total_iterations : ℕ
  deriving DecidableEq

/-- What the planner, the executor and the summarizer make of an iteration. -/
structure Outcome where
  planning : Option (List PlannedChild)
  execution : Option NextMode
  summaries : List (Option String)
  deriving DecidableEq

/-- An engine that runs: its cap, what it has done, what it found stored, and what it reads when its
loop is over. -/
structure Engine where
  cap : ℕ
  iterations : ℕ
  finalStatus : FinalStatus
  priorIterations : ℕ
  read : Option SessionMeta
  finished : Bool
  deriving DecidableEq

def Engine.looping (engine : Engine) : Bool :=
  engine.iterations < engine.cap && engine.finalStatus = .inProgress && !engine.finished

def Engine.lastStatus (engine : Engine) : FinalStatus :=
  if engine.cap ≤ engine.iterations ∧ engine.finalStatus = .inProgress then .capReached
  else engine.finalStatus

/-- A session: its files, the nodes that ended because they were archived or written over, what is
stored of it, the engine that runs, the nodes of its iterations, and a pause that has read what it
is to write over. -/
structure Session where
  world : World
  ended : List ContextNode
  stored : Option SessionMeta
  engine : Option Engine
  performed : List NodeId
  pausing : Option SessionMeta
  paused : Bool

inductive SessionEvent
  | drive (cap : ℕ)
  | run (cap : ℕ)
  | iterate (outcome : Outcome)
  | finish
  | commit
  | pauseRead
  | pauseWrite
  | resume

/-! ### An iteration of the engine -/

/-- Whether `once` comes to its end without an error. -/
def succeeds (w : World) (node : ContextNode) (outcome : Outcome) : Bool :=
  if node.mode = .pendingPlan then
    match accepts config outcome.planning with
    | none => (write config w.disk { node with mode := .blocked }).isSome
    | some children =>
      (writeChildren config node.id w children).2 &&
        (write config (writeChildren config node.id w children).1.disk
          (decomposed node children)).isSome
  else (write config w.disk node).isSome

/-- Whether `consolidate` comes to its end without an error. -/
def completes : ℕ → NodeId → List (Option String) → Disk → Bool
  | 0, _, _, _ => true
  | n + 1, id, summaries, disk =>
    match load disk, get disk id with
    | none, _ => false
    | some _, none => true
    | some _, some candidate =>
      let upwards (summaries : List (Option String)) (disk : Disk) : Bool :=
        candidate.parent_id.elim true fun parent => completes n parent summaries disk
      if candidate.mode ≠ .decomposed then upwards summaries disk
      else if !isSubtreeComplete disk id then true
      else
        match summaries with
        | some summary :: summaries =>
          match archive disk (descendants disk id) with
          | (_, false) => false
          | (disk, true) =>
            (write config disk (consolidated candidate summary)).elim false (upwards summaries)
        | _ => true

def moved : Disk → List Operation → List ContextNode
  | _, [] => []
  | disk, .move id :: operations =>
    (get disk id).toList ++ moved (perform disk (.move id)) operations
  | disk, .write node :: operations => moved (perform disk (.write node)) operations

def writtenOver (disk disk' : Disk) (id : NodeId) : List ContextNode :=
  disk.filter fun node => node.id ≠ id ∧ get disk' node.id ≠ some node

def iterated (w : World) (node : ContextNode) (outcome : Outcome) : World × List ContextNode :=
  let w' := once config w outcome.planning outcome.execution
  if succeeds config w node outcome then
    (consolidate config w'.disk.length node.id outcome.summaries w',
      writtenOver w.disk w'.disk node.id ++
        moved w'.disk (operations config w'.disk.length node.id outcome.summaries w'.disk))
  else (w', writtenOver w.disk w'.disk node.id)

/-- Whether the iteration on a node ends without an error. -/
def advances (w : World) (node : ContextNode) (outcome : Outcome) : Bool :=
  let w' := once config w outcome.planning outcome.execution
  succeeds config w node outcome &&
    completes config w'.disk.length node.id outcome.summaries w'.disk

namespace Session

variable (session : Session)

/-- An iteration: without a node that is to be worked on the tree is settled, unless it cannot be
loaded. -/
def iterate (engine : Engine) (outcome : Outcome) : Session :=
  match picked config session.world.disk with
  | none =>
    { session with
      engine := some
        { engine with
          finalStatus := if (load session.world.disk).isSome then .done else .error } }
  | some node =>
    { session with
      world := (iterated config session.world node outcome).1
      ended := session.ended ++ (iterated config session.world node outcome).2
      performed := node.id :: session.performed
      engine := some
        (if advances config session.world node outcome then
          { engine with iterations := engine.iterations + 1 }
        else { engine with finalStatus := .error }) }

def start (cap : ℕ) : Session :=
  { session with
    stored := some
      { final_status := .inProgress
        total_iterations := session.stored.elim 0 SessionMeta.total_iterations }
    engine := some
      { cap := cap
        iterations := 0
        finalStatus := .inProgress
        priorIterations := session.stored.elim 0 SessionMeta.total_iterations
        read := none
        finished := false } }

def finish (engine : Engine) : Session :=
  { session with
    engine := some
      { engine with
        finalStatus := engine.lastStatus
        read := session.stored
        finished := true } }

def commit (engine : Engine) : Session :=
  { session with
    engine := none
    stored :=
      match engine.read with
      | none => session.stored
      | some _ => some
        { final_status := engine.finalStatus
          total_iterations := engine.priorIterations + engine.iterations } }

end Session

/-! ### The bridge -/

inductive SessionState
  | active
  | paused
  | settled
  | blocked
  | noRoot
  | none
  deriving DecidableEq

def classify (session : Session) : SessionState :=
  if session.world.disk = [] then .noRoot
  else
    match session.stored.elim .inProgress SessionMeta.final_status with
    | .paused => .paused
    | .blocked => .blocked
    | .done => .settled
    | .capReached => .settled
    | .userInterrupted => .settled
    | .error => .settled
    | .inProgress =>
      if (load session.world.disk).isSome then
        if (picked config session.world.disk).isSome then .active else .settled
      else .none

/-- What happens to a session: the bridge drives the engine, or it is run directly; an iteration;
its end, in two steps; a pause, in two steps; and that the session is resumed. -/
def sessionStep (session : Session) : SessionEvent → Session
  | .drive cap =>
    if session.engine = none ∧ classify config session = .active then session.start cap else session
  | .run cap =>
    if session.engine = none ∧ session.stored.map SessionMeta.final_status ≠ some .paused then
      session.start cap
    else session
  | .iterate outcome =>
    match session.engine with
    | none => session
    | some engine => if engine.looping then session.iterate config engine outcome else session
  | .finish =>
    match session.engine with
    | none => session
    | some engine => if engine.looping || engine.finished then session else session.finish engine
  | .commit =>
    match session.engine with
    | none => session
    | some engine => if engine.finished then session.commit engine else session
  | .pauseRead => { session with pausing := session.stored }
  | .pauseWrite =>
    match session.pausing with
    | none => session
    | some read =>
      { session with
        stored := some { read with final_status := .paused }
        pausing := none
        paused := true }
  | .resume =>
    match session.stored with
    | none => session
    | some read =>
      if read.final_status = .paused then
        { session with
          stored := some { read with final_status := .inProgress }
          paused := false }
      else session

def Session.init (title : String) : Session :=
  ⟨World.init title, [], none, none, [], none, false⟩

def Session.Unblocked (session : Session) : Prop :=
  (∀ node ∈ session.world.disk, node.mode ≠ .blocked) ∧
    ∀ node ∈ session.ended, node.mode ≠ .blocked

/-- The engine ended with `done`. -/
def Session.Done (session : Session) : Prop :=
  session.stored.map SessionMeta.final_status = some .done

instance (session : Session) : Decidable session.Done :=
  inferInstanceAs (Decidable (_ = _))

/-- The plan is accepted and leaves no child blocked, or the work has another next mode. -/
def BlocksNothing (node : ContextNode) (outcome : Outcome) : Prop :=
  if node.mode = .pendingPlan then
    ∃ children ∈ accepts config outcome.planning,
      ∀ child ∈ standing config node.id children, child.mode ≠ some .blocked
  else ∃ next ∈ outcome.execution, next ≠ .blocked

instance (node : ContextNode) (outcome : Outcome) : Decidable (BlocksNothing config node outcome) :=
  inferInstanceAs (Decidable (ite _ (∃ children ∈ accepts config outcome.planning,
    ∀ child ∈ standing config node.id children, child.mode ≠ some .blocked)
      (∃ next ∈ outcome.execution, next ≠ .blocked)))

def LeavesNoneBlocked (session : Session) : SessionEvent → Prop
  | .iterate outcome => ∀ engine ∈ session.engine, engine.looping = true →
    ∀ node ∈ picked config session.world.disk, BlocksNothing config node outcome
  | _ => True

instance (session : Session) : (event : SessionEvent) →
    Decidable (LeavesNoneBlocked config session event)
  | .iterate outcome => inferInstanceAs (Decidable (∀ engine ∈ session.engine,
    engine.looping = true →
      ∀ node ∈ picked config session.world.disk, BlocksNothing config node outcome))
  | .drive _ => isTrue trivial
  | .run _ => isTrue trivial
  | .finish => isTrue trivial
  | .commit => isTrue trivial
  | .pauseRead => isTrue trivial
  | .pauseWrite => isTrue trivial
  | .resume => isTrue trivial

/-! ### What is blocked -/

section Operations

variable {config} {disk : Disk} {b : ContextNode} {id : NodeId} {w : World}

theorem archive_sublist {ids : List NodeId} : (archive disk ids).1.Sublist disk := by
  induction ids generalizing disk with
  | nil => exact List.Sublist.refl disk
  | cons id ids ih =>
    rw [archive]
    split
    · exact ih.trans List.filter_sublist
    · exact List.Sublist.refl disk

def Harmless (disk : Disk) : Operation → Prop
  | .move _ => True
  | .write node => node.mode ≠ .blocked ∧
    ∀ other ∈ disk, other.id = node.id → other.mode ≠ .blocked

/-- **What is blocked is blocked after a consolidation as before**, where it was or where it was
moved. -/
theorem blocked_moved_iff (hnames : (disk.map ContextNode.id).Nodup) (hb : b.mode = .blocked)
    {ops : List Operation} (h : Meets perform Harmless disk ops) :
    (b ∈ run perform disk ops ∨ b ∈ moved disk ops) ↔ b ∈ disk := by
  induction ops generalizing disk with
  | nil => exact or_iff_left List.not_mem_nil
  | cons op ops ih =>
    obtain ⟨hop, hrest⟩ := h
    rw [run_cons]
    cases op with
    | move id =>
      have hgot : b ∈ (get disk id).toList ↔ b ∈ disk ∧ b.id = id := by
        rw [Option.mem_toList]
        exact get_eq_some hnames
      have hkept : b ∈ perform disk (.move id) ↔ b ∈ disk ∧ b.id ≠ id := Table.mem_erase
      have hleft : ((perform disk (.move id)).map ContextNode.id).Nodup := Table.nodup_erase hnames
      rw [moved, List.mem_append, or_left_comm, ih hleft hrest, hgot, hkept, ← and_or_left]
      exact and_iff_left (Classical.em _)
    | write node =>
      have hleft : ((perform disk (.write node)).map ContextNode.id).Nodup :=
        Table.nodup_upsert hnames
      rw [moved, ih hleft hrest]
      constructor
      · intro hmem
        rcases Table.mem_upsert hmem with rfl | ⟨hmem, -⟩
        · exact absurd hb hop.1
        · exact hmem
      · intro hmem
        have hne : b.id ≠ node.id := fun heq => hop.2 b hmem heq hb
        have hget : get disk b.id = some b := (get_eq_some hnames).mpr ⟨hmem, rfl⟩
        have hfound : get (perform disk (.write node)) b.id = some b := by
          rw [perform, Tree.get, Table.lookup_upsert, if_neg hne]
          exact hget
        exact Table.mem_of_lookup hfound

theorem harmless_moves {ids : List NodeId} : Meets perform Harmless disk (moves disk ids) := by
  induction ids generalizing disk with
  | nil => trivial
  | cons id ids ih =>
    rw [moves]
    split
    · exact ⟨trivial, ih⟩
    · trivial

/-- **A consolidation writes over no node that is blocked.** -/
theorem harmless_operations {n : ℕ} {summaries : List (Option String)}
    (hnames : (disk.map ContextNode.id).Nodup) :
    Meets perform Harmless disk (operations config n id summaries disk) := by
  induction n generalizing id summaries disk with
  | zero => trivial
  | succ n ih =>
    rcases hload : load disk with _ | root
    · rw [operations, hload]
      trivial
    rcases hget : get disk id with _ | candidate
    · rw [operations, hload, hget]
      trivial
    obtain ⟨hmem, rfl⟩ := (get_eq_some hnames).mp hget
    have hup : ∀ (summaries : List (Option String)) (disk : Disk),
        (disk.map ContextNode.id).Nodup →
        Meets perform Harmless disk (candidate.parent_id.elim [] fun parent =>
          operations config n parent summaries disk) := by
      intro summaries disk hnames
      rcases candidate.parent_id with _ | parent
      · trivial
      · exact ih hnames
    by_cases hmode : candidate.mode = .decomposed
    · by_cases hstop : isSubtreeComplete disk candidate.id = true → afterOne summaries = none
      · rw [(turn_stop config (w := ⟨disk, []⟩) hload hget hmode hstop).1]
        trivial
      · obtain ⟨hcomplete, hsome⟩ := Classical.not_imp.mp hstop
        obtain ⟨rest, hrest⟩ := Option.ne_none_iff_exists'.mp hsome
        obtain ⟨summary, rfl⟩ := mem_afterOne.mp hrest
        rw [operations_summarize hload hget hmode hcomplete]
        refine Meets.append.mpr ⟨harmless_moves, ?_⟩
        rw [run_moves]
        have hleft : (archive disk (descendants disk candidate.id)).1.Sublist disk :=
          archive_sublist
        rcases harchive : archive disk (descendants disk candidate.id) with ⟨disk', _ | _⟩
        · trivial
        · rw [harchive] at hleft
          dsimp only
          rcases hwrite : write config disk' (consolidated candidate summary) with _ | disk''
          · trivial
          · obtain ⟨-, rfl⟩ := write_eq_some.mp hwrite
            refine ⟨⟨?_, fun other hother hsame hblocked => ?_⟩,
              hup rest _ (Table.nodup_upsert (hnames.sublist (hleft.map _)))⟩
            · rintro ⟨⟩
            · obtain rfl := List.inj_on_of_nodup_map hnames (hleft.mem hother) hmem hsame
              cases hmode.symm.trans hblocked
    · rw [operations_up hload hget hmode]
      exact hup summaries disk hnames

end Operations

section Steps

variable {config} {session : Session} {node b : ContextNode} {outcome : Outcome} {w : World}
  {engine : Engine}

/-- **What is blocked stays, unless the iteration writes over it.** -/
theorem blocked_once (outcome : Outcome) (hnames : (w.disk.map ContextNode.id).Nodup)
    (hpicked : picked config w.disk = some node) (hmem : b ∈ w.disk) (hb : b.mode = .blocked) :
    b ∈ (once config w outcome.planning outcome.execution).disk ∨
      b ∈ writtenOver w.disk (once config w outcome.planning outcome.execution).disk node.id := by
  obtain ⟨rootId, -, hpick⟩ := Option.bind_eq_some_iff.mp hpicked
  obtain ⟨hnode, hactionable⟩ := pickNext_spec hpick
  have hne : b.id ≠ node.id := by
    intro hsame
    obtain rfl := List.inj_on_of_nodup_map hnames hmem hnode hsame
    rw [isActionable, hb] at hactionable
    cases hactionable
  by_cases hget : get (once config w outcome.planning outcome.execution).disk b.id = some b
  · exact Or.inl (Table.mem_of_lookup hget)
  · exact Or.inr (List.mem_filter.mpr ⟨hmem, decide_eq_true ⟨hne, hget⟩⟩)

theorem once_eq_of_picked_eq_none (h : picked config w.disk = none) :
    once config w outcome.planning outcome.execution = w := by
  rw [once, h]

theorem Written.once (h : Written config w.disk) :
    Written config (once config w outcome.planning outcome.execution).disk :=
  Written.step (e := .once outcome.planning outcome.execution) h

theorem blocked_iterated_iff (h : Written config w.disk) (hb : b.mode = .blocked) :
    (b ∈ (iterated config w node outcome).1.disk ∨ b ∈ (iterated config w node outcome).2) ↔
      b ∈ (once config w outcome.planning outcome.execution).disk ∨
        b ∈ writtenOver w.disk (once config w outcome.planning outcome.execution).disk node.id := by
  have hwritten : Written config (once config w outcome.planning outcome.execution).disk := h.once
  rw [iterated]
  split
  next =>
    rw [← run_operations hwritten, List.mem_append, or_left_comm,
      blocked_moved_iff hwritten.names hb (harmless_operations hwritten.names), or_comm]
  next => exact Iff.rfl

theorem sessionStep_frame (config : Config) (session : Session) {event : SessionEvent}
    (h : ∀ outcome, event ≠ .iterate outcome) :
    (sessionStep config session event).world = session.world ∧
      (sessionStep config session event).ended = session.ended ∧
      (sessionStep config session event).performed = session.performed := by
  cases event with
  | iterate outcome => exact absurd rfl (h outcome)
  | drive cap | run cap =>
    rw [sessionStep]
    split
    · exact ⟨rfl, rfl, rfl⟩
    · exact ⟨rfl, rfl, rfl⟩
  | finish | commit =>
    rw [sessionStep]
    rcases session.engine with _ | engine
    · exact ⟨rfl, rfl, rfl⟩
    · dsimp only
      split
      · exact ⟨rfl, rfl, rfl⟩
      · exact ⟨rfl, rfl, rfl⟩
  | pauseRead => exact ⟨rfl, rfl, rfl⟩
  | pauseWrite =>
    rw [sessionStep]
    rcases session.pausing with _ | read
    · exact ⟨rfl, rfl, rfl⟩
    · exact ⟨rfl, rfl, rfl⟩
  | resume =>
    rw [sessionStep]
    rcases session.stored with _ | read
    · exact ⟨rfl, rfl, rfl⟩
    · dsimp only
      split
      · exact ⟨rfl, rfl, rfl⟩
      · exact ⟨rfl, rfl, rfl⟩

theorem sessionStep_iterate_of_not (h : ∀ engine ∈ session.engine, engine.looping = false) :
    sessionStep config session (.iterate outcome) = session := by
  rw [sessionStep]
  rcases hengine : session.engine with _ | engine
  · rfl
  · dsimp only
    rw [if_neg (Bool.eq_false_iff.mp (h engine hengine))]

theorem sessionStep_iterate (hengine : session.engine = some engine)
    (hlooping : engine.looping = true) :
    sessionStep config session (.iterate outcome) = session.iterate config engine outcome := by
  rw [sessionStep, hengine]
  exact if_pos hlooping

theorem sessionStep_iterate_cases (config : Config) (session : Session) (outcome : Outcome) :
    (∃ engine ∈ session.engine, engine.looping = true ∧
      sessionStep config session (.iterate outcome) = session.iterate config engine outcome) ∨
    (∀ engine ∈ session.engine, engine.looping = false) ∧
      sessionStep config session (.iterate outcome) = session := by
  by_cases hloops : ∃ engine ∈ session.engine, engine.looping = true
  · obtain ⟨engine, hengine, hlooping⟩ := hloops
    exact Or.inl ⟨engine, hengine, hlooping, sessionStep_iterate hengine hlooping⟩
  · have hnone : ∀ engine ∈ session.engine, engine.looping = false := by
      intro engine hengine
      exact Bool.eq_false_iff.mpr fun hlooping => hloops ⟨engine, hengine, hlooping⟩
    exact Or.inr ⟨hnone, sessionStep_iterate_of_not hnone⟩

theorem Keeps.sessionStep {Inv : Disk → Prop} {May : ContextNode → Prop}
    (hkeeps : Keeps config Inv May) (h : Inv session.world.disk) (event : SessionEvent) :
    Inv (sessionStep config session event).world.disk := by
  by_cases hiterate : ∃ outcome, event = .iterate outcome
  · obtain ⟨outcome, rfl⟩ := hiterate
    rcases sessionStep_iterate_cases config session outcome with ⟨engine, -, -, heq⟩ | ⟨-, heq⟩
    · rw [heq, Session.iterate]
      rcases Freerun.picked config session.world.disk with _ | node
      · exact h
      · have honce := hkeeps.step (e := .once outcome.planning outcome.execution) h
        change Inv (iterated config session.world node outcome).1.disk
        rw [iterated]
        split
        next => exact hkeeps.step (e := .consolidate _ _ _) honce
        next => exact honce
    · rw [heq]
      exact h
  · rw [(sessionStep_frame config session fun outcome heq => hiterate ⟨outcome, heq⟩).1]
    exact h

theorem Written.sessionStep (h : Written config session.world.disk) (event : SessionEvent) :
    Written config (sessionStep config session event).world.disk :=
  keeps_written.sessionStep h event

/-- **Whatever the plans name, no name leads back in the files of a session.** -/
theorem grown_sessions (config : Config) (title : String) (events : List SessionEvent) :
    Grown (run (sessionStep config) (Session.init title) events).world.disk :=
  run_invariant (fun session : Session => Grown session.world.disk) grown_init
    (fun _ event h => (keeps_grown config).sessionStep h event) events

theorem unblocked_put (hvalid : isNodeId node.id ∧ node.title ≠ "" ∧ config.fits node.id) :
    (∀ b ∈ (w.put config node).disk, b.mode ≠ .blocked) ↔
      node.mode ≠ .blocked ∧ ∀ b ∈ w.disk, b.id ≠ node.id → b.mode ≠ .blocked := by
  have hwrite : write config w.disk node = some (Table.upsert ContextNode.id node w.disk) :=
    write_eq_some.mpr ⟨hvalid, rfl⟩
  rw [World.put, hwrite, Option.getD_some]
  constructor
  · intro h
    exact ⟨h node (Table.mem_upsert_iff.mpr (Or.inl rfl)),
      fun b hb hne => h b (Table.mem_upsert_iff.mpr (Or.inr ⟨hb, hne⟩))⟩
  · rintro ⟨hnode, hrest⟩ b hb
    rcases Table.mem_upsert hb with rfl | ⟨hb, hne⟩
    · exact hnode
    · exact hrest b hb hne

section Blocks

-- nothing is blocked before
variable (h : Written config w.disk) (hmem : node ∈ w.disk)
  (hnone : ∀ b ∈ w.disk, b.mode ≠ .blocked)

include h hmem hnone

theorem unblocked_writeChildren {children : List PlannedChild}
    (hvalid : ∀ child ∈ children, isNodeId child.id ∧ child.title ≠ "") :
    (∀ b ∈ (writeChildren config node.id w children).1.disk, b.mode ≠ .blocked) ↔
      ∀ child ∈ standing config node.id children, child.mode ≠ some .blocked := by
  have hmode : ∀ child : PlannedChild, (childNode node.id child).mode = .blocked ↔
      child.mode = some .blocked := by
    intro child
    rw [childNode]
    rcases child.mode with _ | mode
    · simp
    · simp
  obtain ⟨hid, -, -⟩ := h.valid node hmem
  constructor
  · intro hall child hchild hblocked
    exact hall _ ((mem_writeChildren hid hvalid).mpr (Or.inl ⟨child, hchild, rfl⟩))
      ((hmode child).mpr hblocked)
  · intro hall b hb hblocked
    rcases (mem_writeChildren hid hvalid).mp hb with ⟨child, hchild, rfl⟩ | ⟨hb, -⟩
    · exact hall child hchild ((hmode child).mp hblocked)
    · exact hnone b hb hblocked

theorem unblocked_runPlanning (planning : Option (List PlannedChild)) :
    (∀ b ∈ (runPlanning config w node planning).disk, b.mode ≠ .blocked) ↔
      ∃ children ∈ accepts config planning,
        ∀ child ∈ standing config node.id children, child.mode ≠ some .blocked := by
  rw [runPlanning]
  rcases haccepts : accepts config planning with _ | children
  · refine iff_of_false (fun hall => ?_) ?_
    · exact ((unblocked_put (by exact h.valid node hmem)).mp hall).1 rfl
    · rintro ⟨children, hchildren, -⟩
      cases hchildren
  have hvalid : ∀ child ∈ children, isNodeId child.id ∧ child.title ≠ "" := by
    obtain ⟨-, hp⟩ := Option.filter_eq_some_iff.mp haccepts
    have hparses : children ≠ [] ∧ ∀ child ∈ children, isNodeId child.id ∧ child.title ≠ "" := by
      simpa [parses] using (Bool.and_eq_true_iff.mp hp).1
    exact hparses.2
  have hwritten := unblocked_writeChildren h hmem hnone hvalid
  simp only [Option.mem_some_iff, exists_eq_left']
  rw [← hwritten]
  -- the node itself has the place it had
  rcases heq : writeChildren config node.id w children with ⟨w', _ | _⟩
  · exact Iff.rfl
  · refine (unblocked_put (by exact h.valid node hmem)).trans ⟨fun hall b hb => ?_, fun hall => ?_⟩
    · by_cases hself : b.id = node.id
      · have hthere : b ∈ (writeChildren config node.id w children).1.disk := by
          rw [heq]
          exact hb
        rcases (mem_writeChildren (h.valid node hmem).1 hvalid).mp hthere with
          ⟨child, -, rfl⟩ | ⟨hb, -⟩
        · exact absurd hself ensureNamespacedChildId_ne
        · exact hnone b hb
      · exact hall.2 b hb hself
    · refine ⟨?_, fun b hb _ => hall b hb⟩
      rintro ⟨⟩

theorem unblocked_runExecution (execution : Option NextMode) :
    (∀ b ∈ (runExecution config w node execution).disk, b.mode ≠ .blocked) ↔
      ∃ next ∈ execution, next ≠ .blocked := by
  have hput : ∀ mode n, (∀ b ∈ (w.put config { node with mode := mode, iteration_count := n }).disk,
      b.mode ≠ .blocked) ↔ mode ≠ .blocked := by
    intro mode n
    refine (unblocked_put (by exact h.valid node hmem)).trans ?_
    exact and_iff_left fun b hb _ => hnone b hb
  cases execution with
  | none =>
    refine iff_of_false (fun hall => (hput _ _).mp hall rfl) ?_
    rintro ⟨next, hnext, -⟩
    cases hnext
  | some next =>
    refine (hput _ _).trans ?_
    simp only [Option.mem_some_iff, exists_eq_left']
    cases next with
    | blocked => exact iff_of_false (fun hmode => hmode rfl) fun hmode => hmode rfl
    | done | pendingPlan =>
      refine iff_of_true ?_ ?_
      · rintro ⟨⟩
      · rintro ⟨⟩

/-- **An iteration blocks nothing exactly if the plan or the work says so.** -/
theorem unblocked_once (outcome : Outcome) (hpicked : picked config w.disk = some node) :
    (∀ b ∈ (once config w outcome.planning outcome.execution).disk, b.mode ≠ .blocked) ↔
      BlocksNothing config node outcome := by
  rw [once, hpicked, BlocksNothing]
  dsimp only
  split
  · exact unblocked_runPlanning h hmem hnone outcome.planning
  · exact unblocked_runExecution h hmem hnone outcome.execution

end Blocks

/-- **An iteration leaves nothing blocked exactly if nothing was blocked and it blocks nothing.** -/
theorem unblocked_iterate (h : Written config session.world.disk) :
    (session.iterate config engine outcome).Unblocked ↔ session.Unblocked ∧
      ∀ node ∈ (once config session.world outcome.planning outcome.execution).disk,
        node.mode ≠ .blocked := by
  rw [Session.iterate]
  rcases hpicked : picked config session.world.disk with _ | node
  · rw [once_eq_of_picked_eq_none hpicked]
    exact (and_iff_left_of_imp And.left).symm
  constructor
  · rintro ⟨hdisk, hended⟩
    have hnone : ∀ b, b.mode = .blocked →
        b ∉ (once config session.world outcome.planning outcome.execution).disk ∧
          b ∉ writtenOver session.world.disk
            (once config session.world outcome.planning outcome.execution).disk node.id := by
      intro b hb
      rw [← not_or, ← blocked_iterated_iff h hb, not_or]
      exact ⟨fun hmem => hdisk b hmem hb, fun hmem => hended b (List.mem_append_right _ hmem) hb⟩
    refine ⟨⟨fun b hmem hb => ?_, fun b hmem => hended b (List.mem_append_left _ hmem)⟩,
      fun b hmem hb => (hnone b hb).1 hmem⟩
    rcases blocked_once outcome h.names hpicked hmem hb with hlive | hover
    · exact (hnone b hb).1 hlive
    · exact (hnone b hb).2 hover
  · rintro ⟨⟨hdisk, hended⟩, honce⟩
    have hnone : ∀ b, b.mode = .blocked →
        b ∉ (iterated config session.world node outcome).1.disk ∧
          b ∉ (iterated config session.world node outcome).2 := by
      intro b hb
      rw [← not_or, blocked_iterated_iff h hb, not_or]
      exact ⟨fun hmem => honce b hmem hb, fun hmem => hdisk b (List.mem_of_mem_filter hmem) hb⟩
    refine ⟨fun b hmem hb => (hnone b hb).1 hmem, fun b hmem hb => ?_⟩
    rcases List.mem_append.mp hmem with hmem | hmem
    · exact hended b hmem hb
    · exact (hnone b hb).2 hmem

/-- **A step leaves nothing blocked exactly if nothing was blocked and it blocks nothing.** -/
theorem unblocked_step (h : Written config session.world.disk) (event : SessionEvent) :
    (sessionStep config session event).Unblocked ↔
      session.Unblocked ∧ LeavesNoneBlocked config session event := by
  by_cases hiterate : ∃ outcome, event = .iterate outcome
  · obtain ⟨outcome, rfl⟩ := hiterate
    rcases sessionStep_iterate_cases config session outcome with
      ⟨engine, hengine, hlooping, heq⟩ | ⟨hnone, heq⟩
    · rw [heq, unblocked_iterate h]
      refine and_congr_right fun hunblocked => ?_
      have hall : LeavesNoneBlocked config session (.iterate outcome) ↔
          ∀ node ∈ picked config session.world.disk, BlocksNothing config node outcome :=
        ⟨fun hleaves => hleaves engine hengine hlooping, fun hall other _ _ => hall⟩
      rw [hall]
      rcases hpicked : picked config session.world.disk with _ | node
      · rw [once_eq_of_picked_eq_none hpicked]
        refine iff_of_true hunblocked.1 ?_
        rintro node ⟨⟩
      · rw [unblocked_once h (h.picked hpicked).1 hunblocked.1 outcome hpicked]
        simp
    · rw [heq]
      refine (and_iff_left fun engine hengine hlooping => ?_).symm
      exact absurd (hlooping.symm.trans (hnone engine hengine)) Bool.true_eq_false.mp
  · obtain ⟨hworld, hended, -⟩ :=
      sessionStep_frame config session fun outcome heq => hiterate ⟨outcome, heq⟩
    have htrivial : LeavesNoneBlocked config session event := by
      cases event with
      | iterate outcome => exact absurd ⟨outcome, rfl⟩ hiterate
      | _ => trivial
    rw [Session.Unblocked, hworld, hended]
    exact (and_iff_left htrivial).symm

end Steps

/-! ### Done -/

def doneOnce : List SessionEvent :=
  [.drive 3, .iterate ⟨some [⟨['a'], "only", some .pendingExec⟩], none, []⟩,
    .iterate ⟨none, some .done, [some "done"]⟩, .iterate ⟨none, none, []⟩, .finish, .commit]

def blockedOnce : List SessionEvent :=
  [.drive 3, .iterate ⟨some [⟨['a'], "only", some .pendingExec⟩], none, []⟩,
    .iterate ⟨none, some .blocked, [some "blocked"]⟩, .iterate ⟨none, none, []⟩, .finish, .commit]

end OpenCms.Freerun
