import OpenCms.Lib.Runs
import Mathlib.Data.Fintype.Basic
import Mathlib.Logic.Function.Basic

/-!
# The lifecycle of a daemon

A daemon is started, shut down and restarted by calls that wait for the file system, and while
they wait other processes go on, with the same lock file. `OpenCms.Daemon.step` is what one
process does between two such points: it is called, or a call that waits goes on with what it
was waiting for. Each access to the lock file is a step of its own.

A daemon that runs holds the lock, and while it restarts it still does. So the restart, which
takes the lock again, finds it held by a running process and fails, and the shutdown that is to
follow does nothing in a daemon that is restarting. There are
three more ways to go wrong, and without them a daemon that runs is the only one
(`OpenCms.Daemon.lifecycle_exclusive`).
-/

namespace OpenCms.Daemon

/-! ### Draining -/

inductive DrainState
  | idle
  | draining
  | drained
  deriving DecidableEq

inductive DrainReason
  | shutdown
  | restart
  deriving DecidableEq

/-- What `Drain` keeps. -/
structure Drain where
  state : DrainState := .idle
  reason : Option DrainReason := none
  deriving DecidableEq

def Drain.enter (drain : Drain) (drainReason : DrainReason) : Drain :=
  if drain.state ≠ .idle then drain else { state := .draining, reason := some drainReason }

def Drain.complete (drain : Drain) : Drain := { drain with state := .drained }

def Drain.reset (_ : Drain) : Drain := { state := .idle, reason := none }

def Drain.isDraining (drain : Drain) : Bool := drain.state = .draining ∨ drain.state = .drained

/-! ### The state -/

inductive DaemonState
  | stopped
  | starting
  | running
  | draining
  | restarting
  deriving DecidableEq

inductive Caller
  | start
  | restart
  deriving DecidableEq

/-- Where a call waits: in `GatewayLock.acquire`, in `Heartbeat.recoverSchedules`, in
`Drain.waitFor`, or in `GatewayLock.release`. -/
inductive Point
  | acquireRead (caller : Caller)
  | acquireMkdir (caller : Caller)
  | acquireWrite (caller : Caller)
  | recoverSchedules
  | waitFor (reason : DrainReason)
  | releaseRead
  | releaseUnlink
  deriving DecidableEq

structure Process where
  daemonState : DaemonState := .stopped
  drain : Drain := {}
  calls : List Point := []
  deriving DecidableEq

/-- What is read from the lock file: nothing, the lock of a process that does not run any more,
or that of one that does. -/
inductive Lock (P : Type)
  | none
  | stale
  | held (pid : P)
  deriving DecidableEq

def Lock.isProcessRunning {P : Type} : Lock P → Bool
  | .held _ => true
  | _ => false

structure State (P : Type) where
  procs : P → Process
  lock : Lock P

/-- No process has a daemon at the beginning. There may be the lock of an earlier one. -/
def State.start {P : Type} (stale : Bool) : State P where
  procs _ := {}
  lock := if stale then .stale else .none

/-- What a file system call comes to. One that fails to write the file may have emptied it. -/
inductive Outcome
  | ok
  | failed
  | torn
  deriving DecidableEq

/-! ### The calls -/

def start (proc : Process) : Process :=
  if proc.daemonState ≠ .stopped then proc
  else
    { proc with
      daemonState := .starting
      calls := proc.calls ++ [.acquireRead .start] }

def shutdown (proc : Process) : Process :=
  if proc.daemonState ≠ .running then proc
  else
    { daemonState := .draining
      drain := proc.drain.enter .shutdown
      calls := proc.calls ++ [.waitFor .shutdown] }

def restart (proc : Process) : Process :=
  if proc.daemonState ≠ .running then proc
  else
    { daemonState := .restarting
      drain := proc.drain.enter .restart
      calls := proc.calls ++ [.waitFor .restart] }

def acquired (proc : Process) : Caller → Bool → Process
  | .start, false => { proc with daemonState := .stopped }
  | .start, true => { proc with calls := proc.calls ++ [.recoverSchedules] }
  -- the restart has failed
  | .restart, false => shutdown proc
  | .restart, true => { proc with daemonState := .running, drain := proc.drain.reset }

/-- A call that waits at a point goes on, up to the next one. -/
def resume {P : Type} [DecidableEq P] (pid : P) (proc : Process) (lock : Lock P) (point : Point)
    (outcome : Outcome) : Process × Lock P :=
  match point with
  -- a lock file that cannot be read counts as none
  | .acquireRead caller =>
    let existing := if outcome = .ok then lock else .none
    if existing.isProcessRunning then (acquired proc caller false, lock)
    else ({ proc with calls := proc.calls ++ [.acquireMkdir caller] }, lock)
  | .acquireMkdir caller =>
    if outcome = .ok then ({ proc with calls := proc.calls ++ [.acquireWrite caller] }, lock)
    else (acquired proc caller false, lock)
  | .acquireWrite caller =>
    match outcome with
    | .ok => (acquired proc caller true, .held pid)
    | .failed => (acquired proc caller false, lock)
    | .torn => (acquired proc caller false, .none)
  -- the drain is not reset: a daemon started again after a shutdown goes on draining
  | .recoverSchedules => ({ proc with daemonState := .running }, lock)
  | .waitFor .shutdown =>
    ({ proc with drain := proc.drain.complete, calls := proc.calls ++ [.releaseRead] }, lock)
  -- the lock is not released before it is taken again
  | .waitFor .restart =>
    ({ proc with
      drain := proc.drain.complete
      calls := proc.calls ++ [.acquireRead .restart] }, lock)
  | .releaseRead =>
    if outcome = .ok ∧ lock = .held pid then
      ({ proc with calls := proc.calls ++ [.releaseUnlink] }, lock)
    -- the lock is another process's, or cannot be read: it stays
    else ({ proc with daemonState := .stopped }, lock)
  | .releaseUnlink =>
    ({ proc with daemonState := .stopped }, if outcome = .ok then .none else lock)

/-- What may happen in a process: a call, or one that waits goes on. -/
inductive Event
  | start
  | shutdown
  | restart
  | resume (point : Point) (outcome : Outcome)
  deriving DecidableEq

def react {P : Type} [DecidableEq P] (pid : P) (proc : Process) (lock : Lock P) :
    Event → Process × Lock P
  | .start => (start proc, lock)
  | .shutdown => (shutdown proc, lock)
  | .restart => (restart proc, lock)
  | .resume point outcome =>
    if point ∈ proc.calls then
      resume pid { proc with calls := proc.calls.erase point } lock point outcome
    else (proc, lock)

def step {P : Type} [DecidableEq P] (s : State P) (e : P × Event) : State P :=
  let result := react e.1 (s.procs e.1) s.lock e.2
  { procs := Function.update s.procs e.1 result.1, lock := result.2 }

/-! ### What is required -/

/-- At most one daemon runs; one without a call in progress is stopped or runs; one that is
stopped does not hold the lock, and one that runs does and takes tasks. -/
structure Exclusive {P : Type} (s : State P) : Prop where
  one : ∀ pid pid', (s.procs pid).daemonState = .running →
    (s.procs pid').daemonState = .running → pid = pid'
  settled : ∀ pid, (s.procs pid).calls = [] →
    (s.procs pid).daemonState = .stopped ∨ (s.procs pid).daemonState = .running
  stopped : ∀ pid, (s.procs pid).daemonState = .stopped → s.lock ≠ .held pid
  running : ∀ pid, (s.procs pid).daemonState = .running →
    s.lock = .held pid ∧ (s.procs pid).drain.state = .idle

/-- The process relies on the lock file being its own. -/
def Process.Owns (proc : Process) : Prop :=
  proc.daemonState = .running ∨ proc.daemonState = .restarting ∨
    .recoverSchedules ∈ proc.calls ∨ .releaseUnlink ∈ proc.calls

instance (proc : Process) : Decidable proc.Owns :=
  inferInstanceAs (Decidable (_ ∨ _ ∨ _ ∨ _))

/-- What a call needs to find where it goes on. A restart does not read the lock of a running
process and writes its own. A start does not touch the file when another process relies on it,
and was not drained before. A shutdown can read and remove the file. -/
def Allowed {P : Type} (s : State P) (pid : P) (outcome : Outcome) : Point → Prop
  | .acquireRead .restart => ¬(outcome = .ok ∧ s.lock.isProcessRunning)
  | .acquireMkdir .restart => outcome = .ok
  | .acquireWrite .restart => outcome = .ok
  | .acquireWrite .start =>
    outcome = .failed ∨ ∀ other, other ≠ pid → ¬(s.procs other).Owns
  | .recoverSchedules => (s.procs pid).drain.state = .idle
  | .releaseRead => outcome = .ok ∨ s.lock ≠ .held pid
  | .releaseUnlink => outcome = .ok
  | _ => True

def Safe {P : Type} (s : State P) (e : P × Event) : Prop :=
  match e.2 with
  | .resume point outcome => point ∈ (s.procs e.1).calls → Allowed s e.1 outcome point
  | _ => True

instance {P : Type} [DecidableEq P] [Fintype P] (s : State P) (pid : P) (outcome : Outcome) :
    (point : Point) → Decidable (Allowed s pid outcome point)
  | .acquireRead .restart => inferInstanceAs (Decidable ¬(_ ∧ _))
  | .acquireMkdir .restart | .acquireWrite .restart => inferInstanceAs (Decidable (_ = _))
  | .acquireWrite .start => inferInstanceAs (Decidable (_ ∨ ∀ other, other ≠ pid → ¬_))
  | .recoverSchedules => inferInstanceAs (Decidable (_ = _))
  | .releaseRead => inferInstanceAs (Decidable (_ ∨ _ ≠ _))
  | .releaseUnlink => inferInstanceAs (Decidable (_ = _))
  | .acquireRead .start | .acquireMkdir .start | .waitFor _ => isTrue trivial

instance {P : Type} [DecidableEq P] [Fintype P] (s : State P) :
    (e : P × Event) → Decidable (Safe s e)
  | (_, .resume _ _) => inferInstanceAs (Decidable (_ ∈ _ → Allowed _ _ _ _))
  | (_, .start) | (_, .shutdown) | (_, .restart) => isTrue trivial

/-! ### Every run -/

def Point.daemonState : Point → DaemonState
  | .acquireRead .start | .acquireMkdir .start | .acquireWrite .start => .starting
  | .recoverSchedules => .starting
  | .waitFor .shutdown | .releaseRead | .releaseUnlink => .draining
  | .waitFor .restart => .restarting
  | .acquireRead .restart | .acquireMkdir .restart | .acquireWrite .restart => .restarting

def Process.Shape (proc : Process) : Prop :=
  proc.calls = [] ∧ (proc.daemonState = .stopped ∨ proc.daemonState = .running) ∨
    ∃ point, proc.calls = [point] ∧ proc.daemonState = point.daemonState

structure Consistent {P : Type} (s : State P) : Prop where
  shape : ∀ pid, (s.procs pid).Shape
  owns : ∀ {pid}, (s.procs pid).Owns → s.lock = .held pid
  held : ∀ {pid}, s.lock = .held pid →
    (s.procs pid).Owns ∨ (s.procs pid).daemonState = .draining
  idle : ∀ {pid}, (s.procs pid).daemonState = .running → (s.procs pid).drain.state = .idle

variable {P : Type} {s : State P} {pid : P} {proc : Process}

theorem Consistent.start (stale : Bool) : Consistent (.start stale : State P) where
  shape _ := Or.inl ⟨rfl, Or.inl rfl⟩
  owns h := by simp [State.start, Process.Owns] at h
  held h := by cases stale <;> simp [State.start] at h
  idle h := by simp [State.start] at h

theorem Point.daemonState_ne (point : Point) :
    point.daemonState ≠ .stopped ∧ point.daemonState ≠ .running := by
  cases point with
  | acquireRead caller | acquireMkdir caller | acquireWrite caller =>
    cases caller <;> simp [Point.daemonState]
  | waitFor reason => cases reason <;> simp [Point.daemonState]
  | recoverSchedules | releaseRead | releaseUnlink => simp [Point.daemonState]

theorem Process.Shape.calls_eq_nil (h : proc.Shape)
    (hstate : proc.daemonState = .stopped ∨ proc.daemonState = .running) : proc.calls = [] := by
  rcases h with ⟨hcalls, -⟩ | ⟨point, -, hpoint⟩
  · exact hcalls
  · rw [hpoint] at hstate
    exact absurd hstate (not_or.mpr point.daemonState_ne)

theorem Process.Shape.not_owns (h : proc.Shape) (hstopped : proc.daemonState = .stopped) :
    ¬proc.Owns := by
  simp [Process.Owns, hstopped, h.calls_eq_nil (Or.inl hstopped)]

theorem Consistent.exclusive (h : Consistent s) : Exclusive s where
  one pid pid' hrunning hrunning' := by
    have hlock := h.owns (Or.inl hrunning)
    rw [h.owns (Or.inl hrunning')] at hlock
    exact (Lock.held.inj hlock).symm
  settled pid hcalls := by
    rcases h.shape pid with ⟨-, hstate⟩ | ⟨point, hpoint, -⟩
    · exact hstate
    · simp [hcalls] at hpoint
  stopped pid hstopped hlock := by
    rcases h.held hlock with howns | hdraining
    · exact (h.shape pid).not_owns hstopped howns
    · simp [hstopped] at hdraining
  running pid hrunning := ⟨h.owns (Or.inl hrunning), h.idle hrunning⟩

variable [DecidableEq P] {outcome : Outcome}

theorem Consistent.update {lock : Lock P} (h : Consistent s) (hshape : proc.Shape)
    (howns : proc.Owns → lock = .held pid)
    (hheld : lock = .held pid → proc.Owns ∨ proc.daemonState = .draining)
    (hidle : proc.daemonState = .running → proc.drain.state = .idle)
    (hlock : lock = s.lock ∨ ∀ other, other ≠ pid → ¬(s.procs other).Owns ∧ lock ≠ .held other) :
    Consistent ({ procs := Function.update s.procs pid proc, lock } : State P) := by
  refine ⟨fun other => ?_, fun {other} => ?_, fun {other} => ?_, fun {other} => ?_⟩
  all_goals
    dsimp only
    rcases eq_or_ne other pid with rfl | hne
  · rwa [Function.update_self]
  · rw [Function.update_of_ne hne]
    exact h.shape other
  · rwa [Function.update_self]
  · rw [Function.update_of_ne hne]
    intro hother
    rcases hlock with rfl | hfree
    · exact h.owns hother
    · exact absurd hother (hfree other hne).1
  · rwa [Function.update_self]
  · rw [Function.update_of_ne hne]
    intro hother
    rcases hlock with rfl | hfree
    · exact h.held hother
    · exact absurd hother (hfree other hne).2
  · rwa [Function.update_self]
  · rw [Function.update_of_ne hne]
    exact h.idle

theorem Consistent.same (h : Consistent s) :
    Consistent ({ procs := Function.update s.procs pid (s.procs pid), lock := s.lock } :
      State P) := by
  rwa [Function.update_eq_self]

theorem Consistent.goOn (h : Consistent s) (hshape : proc.Shape)
    (howns : proc.Owns ↔ (s.procs pid).Owns)
    (hdraining : proc.daemonState = .draining ↔ (s.procs pid).daemonState = .draining)
    (hidle : proc.daemonState = .running → proc.drain.state = .idle) :
    Consistent ({ procs := Function.update s.procs pid proc, lock := s.lock } : State P) :=
  h.update hshape (fun hproc => h.owns (howns.mp hproc))
    (fun hlock => (h.held hlock).imp howns.mpr hdraining.mpr) hidle (Or.inl rfl)

theorem Consistent.start_call (h : Consistent s) :
    Consistent ({ procs := Function.update s.procs pid (Daemon.start (s.procs pid)),
                  lock := s.lock } : State P) := by
  unfold Daemon.start
  split
  · exact h.same
  next hne =>
    have hstate : (s.procs pid).daemonState = .stopped := not_not.mp hne
    have hcalls := (h.shape pid).calls_eq_nil (Or.inl hstate)
    refine h.goOn (Or.inr ⟨.acquireRead .start, by simp [hcalls], rfl⟩) ?_ ?_ ?_
    · simp [Process.Owns, hcalls, hstate]
    · simp [hstate]
    · simp

theorem Consistent.shutdown_call (h : Consistent s) :
    Consistent ({ procs := Function.update s.procs pid (Daemon.shutdown (s.procs pid)),
                  lock := s.lock } : State P) := by
  unfold Daemon.shutdown
  split
  · exact h.same
  next hne =>
    have hstate : (s.procs pid).daemonState = .running := not_not.mp hne
    have hcalls := (h.shape pid).calls_eq_nil (Or.inr hstate)
    refine h.update (Or.inr ⟨.waitFor .shutdown, by simp [hcalls], rfl⟩) ?_ ?_ ?_ (Or.inl rfl)
    · simp [Process.Owns, hcalls]
    · simp
    · simp

theorem Consistent.restart_call (h : Consistent s) :
    Consistent ({ procs := Function.update s.procs pid (Daemon.restart (s.procs pid)),
                  lock := s.lock } : State P) := by
  unfold Daemon.restart
  split
  · exact h.same
  next hne =>
    have hstate : (s.procs pid).daemonState = .running := not_not.mp hne
    have hcalls := (h.shape pid).calls_eq_nil (Or.inr hstate)
    refine h.goOn (Or.inr ⟨.waitFor .restart, by simp [hcalls], rfl⟩) ?_ ?_ ?_
    · simp [Process.Owns, hstate]
    · simp [hstate]
    · simp

theorem resume_acquireRead {lock : Lock P} {caller : Caller} :
    resume pid proc lock (.acquireRead caller) outcome =
      if outcome = .ok ∧ lock.isProcessRunning then (acquired proc caller false, lock)
      else ({ proc with calls := proc.calls ++ [.acquireMkdir caller] }, lock) := by
  cases outcome <;> simp [resume, Lock.isProcessRunning]

theorem Consistent.giveUp (h : Consistent s) (howns : ¬(s.procs pid).Owns)
    (hdraining : (s.procs pid).daemonState ≠ .draining) :
    Consistent ({ procs := Function.update s.procs pid
                    { s.procs pid with daemonState := .stopped, calls := [] }
                  lock := s.lock } : State P) := by
  refine h.goOn (Or.inl ⟨rfl, Or.inl rfl⟩) (iff_of_false ?_ howns) ?_ ?_
  · simp [Process.Owns]
  · simp [hdraining]
  · simp

/-- The point is one of those at which a starting or stopping daemon relies on the file. -/
def Point.relies : Point → Bool
  | .recoverSchedules | .releaseUnlink => true
  | _ => false

theorem Process.owns_iff {point : Point} (h : proc.calls = [point]) :
    proc.Owns ↔ proc.daemonState = .running ∨ proc.daemonState = .restarting ∨
      point.relies = true := by
  cases point <;> simp [Process.Owns, h, Point.relies]

theorem Consistent.advance {point next : Point} {drain : Drain} (h : Consistent s)
    (hcalls : (s.procs pid).calls = [point])
    (hstate : (s.procs pid).daemonState = point.daemonState)
    (hsame : next.daemonState = point.daemonState) (hpoint : point.relies = false)
    (hnext : next.relies = false) :
    Consistent ({ procs := Function.update s.procs pid
                    { daemonState := (s.procs pid).daemonState, drain, calls := [next] }
                  lock := s.lock } : State P) := by
  refine h.goOn (Or.inr ⟨next, rfl, hstate.trans hsame.symm⟩) ?_ Iff.rfl fun hrunning => ?_
  · rw [Process.owns_iff hcalls, Process.owns_iff rfl, hpoint, hnext]
  · exact absurd (hstate.symm.trans hrunning) point.daemonState_ne.2

theorem Consistent.writeLock (h : Consistent s)
    (hcalls : (s.procs pid).calls = [.acquireWrite .start])
    (hstarting : (s.procs pid).daemonState = .starting)
    (hallowed : Allowed s pid outcome (.acquireWrite .start)) :
    Consistent
      ({ procs := Function.update s.procs pid
          (Daemon.resume pid { s.procs pid with calls := [] } s.lock (.acquireWrite .start)
            outcome).1
         lock := (Daemon.resume pid { s.procs pid with calls := [] } s.lock
          (.acquireWrite .start) outcome).2 } : State P) := by
  cases outcome with
  | failed =>
    refine h.giveUp ?_ ?_
    · simp [Process.owns_iff hcalls, hstarting, Point.relies]
    · simp [hstarting]
  | ok =>
    have hfree := hallowed.resolve_left (by simp)
    refine h.update (Or.inr ⟨.recoverSchedules, rfl, hstarting⟩) (fun _ => rfl)
      (fun _ => Or.inl ?_) ?_ (Or.inr fun other hne => ⟨hfree other hne, ?_⟩)
    · simp [Daemon.resume, acquired, Process.Owns]
    · simp [Daemon.resume, acquired, hstarting]
    · exact fun heq => hne (Lock.held.inj heq).symm
  | torn =>
    have hfree := hallowed.resolve_left (by simp)
    refine h.update (Or.inl ⟨rfl, Or.inl rfl⟩) ?_ ?_ ?_
      (Or.inr fun other hne => ⟨hfree other hne, ?_⟩)
    · simp [Daemon.resume, acquired, Process.Owns]
    · simp [Daemon.resume]
    · simp [Daemon.resume, acquired]
    · simp [Daemon.resume]

theorem Consistent.readLock (h : Consistent s) (hdraining : (s.procs pid).daemonState = .draining)
    (hallowed : Allowed s pid outcome .releaseRead) :
    Consistent
      ({ procs := Function.update s.procs pid
          (Daemon.resume pid { s.procs pid with calls := [] } s.lock .releaseRead outcome).1
         lock := (Daemon.resume pid { s.procs pid with calls := [] } s.lock .releaseRead
          outcome).2 } : State P) := by
  unfold Daemon.resume
  dsimp only
  split
  next hmine =>
    refine h.update (Or.inr ⟨.releaseUnlink, rfl, hdraining⟩) (fun _ => hmine.2)
      (fun _ => Or.inr hdraining) ?_ (Or.inl rfl)
    simp [hdraining]
  next hother =>
    have hlock : s.lock ≠ .held pid := by
      rcases hallowed with hok | hne
      · exact fun heq => hother ⟨hok, heq⟩
      · exact hne
    refine h.update (Or.inl ⟨rfl, Or.inl rfl⟩) ?_ (fun heq => absurd heq hlock) ?_ (Or.inl rfl)
    · simp [Process.Owns]
    · simp

theorem Consistent.removeLock (h : Consistent s)
    (hcalls : (s.procs pid).calls = [.releaseUnlink]) :
    Consistent
      ({ procs := Function.update s.procs pid
          (Daemon.resume pid { s.procs pid with calls := [] } s.lock .releaseUnlink .ok).1
         lock := (Daemon.resume pid { s.procs pid with calls := [] } s.lock .releaseUnlink
          .ok).2 } : State P) := by
  have hlock : s.lock = .held pid := h.owns (Or.inr (Or.inr (Or.inr (by simp [hcalls]))))
  refine h.update (Or.inl ⟨rfl, Or.inl rfl⟩) ?_ ?_ ?_ (Or.inr fun other hne => ⟨?_, ?_⟩)
  · simp [Daemon.resume, Process.Owns]
  · simp [Daemon.resume]
  · simp [Daemon.resume]
  · intro hother
    have hheld := h.owns hother
    rw [hlock] at hheld
    exact hne (Lock.held.inj hheld).symm
  · simp [Daemon.resume]

theorem Consistent.resume {point : Point} (h : Consistent s)
    (hcalls : (s.procs pid).calls = [point])
    (hstate : (s.procs pid).daemonState = point.daemonState)
    (hallowed : Allowed s pid outcome point) :
    Consistent
      ({ procs := Function.update s.procs pid
          (resume pid { s.procs pid with calls := [] } s.lock point outcome).1
         lock := (Daemon.resume pid { s.procs pid with calls := [] } s.lock point outcome).2 } :
        State P) := by
  have hgiveUp (hstart : (s.procs pid).daemonState = .starting) (hmine : point.relies = false) :=
    h.giveUp
      (show ¬(s.procs pid).Owns by simp [Process.owns_iff hcalls, hstart, hmine])
      (by simp [hstart])
  cases point with
  | acquireRead caller =>
    rw [resume_acquireRead]
    cases caller with
    | start =>
      split
      · exact hgiveUp hstate rfl
      · exact h.advance hcalls hstate rfl rfl rfl
    | restart =>
      -- the restart goes on only where it does not find a lock
      rw [if_neg hallowed]
      exact h.advance hcalls hstate rfl rfl rfl
  | acquireMkdir caller =>
    unfold Daemon.resume
    dsimp only
    cases caller with
    | start =>
      split
      · exact h.advance hcalls hstate rfl rfl rfl
      · exact hgiveUp hstate rfl
    | restart =>
      rw [if_pos (show outcome = .ok from hallowed)]
      exact h.advance hcalls hstate rfl rfl rfl
  | acquireWrite caller =>
    cases caller with
    | start => exact h.writeLock hcalls hstate hallowed
    | restart =>
      obtain rfl : outcome = .ok := hallowed
      -- the lock was that of the process already
      have hlock : s.lock = .held pid := h.owns (Or.inr (Or.inl hstate))
      exact h.update (Or.inl ⟨rfl, Or.inr rfl⟩) (fun _ => rfl) (fun _ => Or.inl (Or.inl rfl))
        (fun _ => rfl) (Or.inl hlock.symm)
  | recoverSchedules =>
    refine h.goOn (Or.inl ⟨rfl, Or.inr rfl⟩) (iff_of_true (Or.inl rfl) ?_) ?_ fun _ => hallowed
    · simp [Process.Owns, hcalls]
    · simp [Daemon.resume, hstate, Point.daemonState]
  | waitFor reason =>
    cases reason with
    | shutdown => exact h.advance hcalls hstate rfl rfl rfl
    | restart => exact h.advance hcalls hstate rfl rfl rfl
  | releaseRead => exact h.readLock hstate hallowed
  | releaseUnlink =>
    obtain rfl : outcome = .ok := hallowed
    exact h.removeLock hcalls

theorem Consistent.step {e : P × Event} (h : Consistent s) (hsafe : Safe s e) :
    Consistent (step s e) := by
  obtain ⟨pid, event⟩ := e
  cases event with
  | start => exact h.start_call
  | shutdown => exact h.shutdown_call
  | restart => exact h.restart_call
  | resume point outcome =>
    simp only [Daemon.step, react]
    split
    next hmem =>
      rcases h.shape pid with ⟨hcalls, -⟩ | ⟨point', hcalls, hstate⟩
      · simp [hcalls] at hmem
      · obtain rfl : point = point' := by simpa [hcalls] using hmem
        have hnone : (s.procs pid).calls.erase point = [] := by simp [hcalls]
        rw [hnone]
        exact h.resume hcalls hstate (hsafe hmem)
    · exact h.same

/-- **The daemons exclude each other** in every state of a run in which no restart reads the
lock of a process that runs, no start writes the lock file while another daemon relies on it or
runs after it was drained, and the file can be written, read and removed by those that own
it. -/
theorem lifecycle_exclusive (stale : Bool) (events : List (P × Event))
    (h : Meets step Safe (.start stale) events) :
    ∀ before, before <+: events → Exclusive (run step (.start stale) before) := by
  intro before hbefore
  have hconsistent := (h.initial hbefore).invariant Consistent (.start stale)
    fun _ _ hs hok => hs.step hok
  exact hconsistent.exclusive

/-- Two processes: the second finds the lock of the first and runs when that is shut down. -/
theorem lifecycle_exclusive_two :
    Exclusive (run step (.start true : State Bool)
      [(false, .start), (false, .resume (.acquireRead .start) .ok),
        (false, .resume (.acquireMkdir .start) .ok), (false, .resume (.acquireWrite .start) .ok),
        (false, .resume .recoverSchedules .ok), (true, .start),
        (true, .resume (.acquireRead .start) .ok), (false, .shutdown),
        (false, .resume (.waitFor .shutdown) .ok), (false, .resume .releaseRead .ok),
        (false, .resume .releaseUnlink .ok), (true, .start),
        (true, .resume (.acquireRead .start) .ok), (true, .resume (.acquireMkdir .start) .ok),
        (true, .resume (.acquireWrite .start) .ok), (true, .resume .recoverSchedules .ok)]) :=
  lifecycle_exclusive true _ (by decide) _ (List.prefix_refl _)

/-! ### What goes wrong -/

/-- **The daemons do not always exclude each other**: one that is started and restarted is
neither stopped nor does it run. -/
theorem not_exclusive :
    ¬∀ (stale : Bool) (events : List (Bool × Event)) before, before <+: events →
      Exclusive (run step (.start stale) before) := by
  intro h
  let events : List (Bool × Event) :=
    [(false, .start), (false, .resume (.acquireRead .start) .ok),
      (false, .resume (.acquireMkdir .start) .ok), (false, .resume (.acquireWrite .start) .ok),
      (false, .resume .recoverSchedules .ok), (false, .restart),
      (false, .resume (.waitFor .restart) .ok), (false, .resume (.acquireRead .restart) .ok)]
  have hsettled := (h false events events (List.prefix_refl _)).settled false (by decide)
  revert hsettled
  decide

end OpenCms.Daemon
