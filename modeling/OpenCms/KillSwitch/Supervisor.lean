import OpenCms.Lib.JsString
import OpenCms.Lib.Runs

/-!
# The kill switch and the supervisor

A kill switch is global, or for one workspace. The supervisor consults it before a pass over the
pending continuations, for each of them, and when a continuation gets its turn in the lane of its
workspace; it may change at any moment.

Before a pass it is asked without a workspace, and then any switch stops the pass; in the lane its
scope is not looked at. So a switch stops exactly what it covers as long as it covers every pending
session when a pass begins, and the session that gets its turn; and as long as none is set between
the turn of a session that it covers and its prompt loop (`OpenCms.KillSwitch.exact_of_within`).
-/

namespace OpenCms.KillSwitch

/-! ### The switch -/

/-- `State`, as far as it is asked for. -/
structure State where
  active : Bool
  scope : JsString
  workspaceId : Option JsString
  initiatedAt : ℤ
  ttl : Option ℤ
  deriving DecidableEq

def defaultTtlMs : ℤ := 5 * 60 * 1000

def State.expired (state : State) (now : ℤ) : Bool :=
  state.active && state.ttl.getD defaultTtlMs < now - state.initiatedAt

def getState (stored : Option State) (now : ℤ) : Option State :=
  stored.filter fun state => !state.expired now

def present (text : Option JsString) : Bool := text.any fun text => text ≠ []

def assertSchedulingAllowed (state : Option State) (workspaceId : Option JsString) : Option State :=
  match state with
  | none => none
  | some state =>
    if !state.active then none
    else if state.scope = js "global" || !present state.workspaceId then some state
    else if present workspaceId && state.workspaceId ≠ workspaceId then none
    else some state

/-- What a switch is for: everything, or one workspace. -/
def State.covers (state : State) (workspaceId : JsString) : Bool :=
  state.active && (state.scope = js "global" || !present state.workspaceId ||
    state.workspaceId = some workspaceId)

/-! ### The supervisor -/

def resumeInFlightTimeoutMs : ℤ := 5 * 60000

/-- A pass over the pending continuations: those that are still to be looked at, the one that is
looked at, those that can be resumed, and those that were selected. -/
structure Pass where
  items : List JsString
  current : Option JsString
  resumable : List JsString
  selected : List JsString
  deriving DecidableEq

/-- Where a continuation is in its lane: before its turn, before its prompt loop, or in it. -/
inductive Phase
  | waiting
  | checked
  | looping
  deriving DecidableEq

structure Resume where
  sessionID : JsString
  phase : Phase
  deriving DecidableEq

/-- What became of sessions: a pass was stopped with its items, a session was passed over, its
continuation was aborted, or its prompt loop was started; with the switch that was read, or that was
set then. -/
inductive Record
  | stopped (state : State) (items : List JsString)
  | passedOver (state : State) (sessionID : JsString)
  | aborted (state : State) (sessionID : JsString)
  | started (state : Option State) (sessionID : JsString)
  deriving DecidableEq

/-- The switch that is stored, the pending continuations, what the supervisor holds, and what became
of sessions. -/
structure World where
  now : ℤ
  stored : Option State
  pending : List JsString
  inFlight : JsString → Option ℤ
  pass : Option Pass
  resumes : ℕ → Option Resume
  next : ℕ
  log : List Record

inductive Event
  | elapse (ms : ℕ)
  | set (state : State)
  | clear
  | enqueue (sessionID : JsString)
  | begin
  | look (found : Bool)
  | consult (resolved : Bool)
  | select (selected : List JsString)
  | dispatch
  | check (id : ℕ)
  | loop (id : ℕ)
  | finish (id : ℕ) (requeued : Option Bool)

namespace World

variable (world : World)

def switch : Option State := getState world.stored world.now

def read : World := { world with stored := world.switch }

def clearPending (sessionID : JsString) : World :=
  { world with pending := world.pending.filter (· ≠ sessionID) }

def release (id : ℕ) (resume : Resume) : World :=
  { world with
    resumes := Function.update world.resumes id none
    inFlight := Function.update world.inFlight resume.sessionID none }

/-- `resumePendingContinuations` begins: the gate, and the list of what is pending. -/
def begin : World :=
  let world := world.read
  match assertSchedulingAllowed world.stored none with
  | some state => { world with log := .stopped state world.pending :: world.log }
  | none => { world with pass := some ⟨world.pending, none, [], []⟩ }

def look (pass : Pass) (found : Bool) : World :=
  match pass.items with
  | [] => world
  | sessionID :: items =>
    let rest : Pass := { pass with items := items }
    if (world.inFlight sessionID).any fun since => world.now - since < resumeInFlightTimeoutMs then
      { world with pass := some rest }
    else
      let world := { world with inFlight := Function.update world.inFlight sessionID none }
      if found then { world with pass := some { rest with current := some sessionID } }
      else World.clearPending { world with pass := some rest } sessionID

def consult (pass : Pass) (sessionID : JsString) (workspaceId : Option JsString) : World :=
  let rest : Pass := { pass with current := none }
  let pushed : Pass := { rest with resumable := rest.resumable ++ [sessionID] }
  if present workspaceId then
    let world := world.read
    match assertSchedulingAllowed world.stored workspaceId with
    | some state =>
      { world with pass := some rest, log := .passedOver state sessionID :: world.log }
    | none => { world with pass := some pushed }
  else { world with pass := some pushed }

def dispatch (pass : Pass) : World :=
  match pass.selected with
  | [] => { world with pass := none }
  | sessionID :: selected =>
    { world with
      pass := some { pass with selected := selected }
      inFlight := Function.update world.inFlight sessionID (some world.now)
      resumes := Function.update world.resumes world.next (some ⟨sessionID, .waiting⟩)
      next := world.next + 1 }

/-- `doResume` begins: if a switch is active, the continuation is cleared and blocked. -/
def check (id : ℕ) (resume : Resume) : World :=
  let world := world.read
  match world.stored.filter State.active with
  | some state =>
    World.release (World.clearPending
      { world with log := .aborted state resume.sessionID :: world.log } resume.sessionID) id resume
  | none =>
    { world with
      resumes := Function.update world.resumes id (some { resume with phase := .checked }) }

/-- The prompt loop is over; after an error the continuation is cleared, or enqueued again. -/
def finish (id : ℕ) (resume : Resume) (requeued : Option Bool) : World :=
  match requeued with
  | none => world.release id resume
  | some false => (world.clearPending resume.sessionID).release id resume
  | some true =>
    World.release { world with pending := world.pending.insert resume.sessionID } id resume

end World

/-- What happens to the supervisor, where the workspaces of the sessions are known. -/
def step (workspaceOf : JsString → JsString) (world : World) : Event → World
  | .elapse ms => { world with now := world.now + ms }
  | .set state => { world with stored := some state }
  | .clear => { world with stored := none }
  | .enqueue sessionID => { world with pending := world.pending.insert sessionID }
  | .begin => if world.pass = none then world.begin else world
  | .look found =>
    match world.pass with
    | some pass => if pass.current = none then world.look pass found else world
    | none => world
  | .consult resolved =>
    match world.pass with
    | some pass =>
      match pass.current with
      | some sessionID =>
        world.consult pass sessionID (if resolved then some (workspaceOf sessionID) else none)
      | none => world
    | none => world
  | .select selected =>
    match world.pass with
    | some pass =>
      if pass.items = [] ∧ pass.current = none then
        { world with
          pass := some
            { pass with selected := selected.filter (· ∈ pass.resumable), resumable := [] } }
      else world
    | none => world
  | .dispatch =>
    match world.pass with
    | some pass =>
      if pass.items = [] ∧ pass.current = none ∧ pass.resumable = [] then world.dispatch pass
      else world
    | none => world
  | .check id =>
    match world.resumes id with
    | some resume => if resume.phase = .waiting then world.check id resume else world
    | none => world
  | .loop id =>
    match world.resumes id with
    | some resume =>
      if resume.phase = .checked then
        { world with
          resumes := Function.update world.resumes id (some { resume with phase := .looping })
          log := .started world.switch resume.sessionID :: world.log }
      else world
    | none => world
  | .finish id requeued =>
    match world.resumes id with
    | some resume =>
      if resume.phase = .waiting then world else world.finish id resume requeued
    | none => world

def World.init (now : ℤ) (stored : Option State) (pending : List JsString) : World :=
  ⟨now, stored, pending, fun _ => none, none, fun _ => none, 0, []⟩

def Record.Exact (workspaceOf : JsString → JsString) : Record → Prop
  | .stopped state items => ∀ sessionID ∈ items, state.covers (workspaceOf sessionID) = true
  | .passedOver state sessionID => state.covers (workspaceOf sessionID) = true
  | .aborted state sessionID => state.covers (workspaceOf sessionID) = true
  | .started switch sessionID => ∀ state ∈ switch, State.covers state (workspaceOf sessionID) = false

/-- What an event must meet: a switch covers the pending sessions when a pass begins, and the session
that gets its turn; and none is set between the turn of a session that it covers and its loop. -/
def Within (workspaceOf : JsString → JsString) (world : World) : Event → Prop
  | .begin => ∀ state ∈ world.switch, state.active = true →
    ∀ sessionID ∈ world.pending, state.covers (workspaceOf sessionID) = true
  | .check id => ∀ resume ∈ world.resumes id, ∀ state ∈ world.switch, state.active = true →
    state.covers (workspaceOf resume.sessionID) = true
  | .set state => ∀ id < world.next, ∀ resume ∈ world.resumes id, resume.phase = .checked →
    state.covers (workspaceOf resume.sessionID) = false
  | _ => True

instance (workspaceOf : JsString → JsString) (world : World) :
    (event : Event) → Decidable (Within workspaceOf world event)
  | .begin => inferInstanceAs (Decidable (∀ state ∈ world.switch, state.active = true →
    ∀ sessionID ∈ world.pending, state.covers (workspaceOf sessionID) = true))
  | .check id => inferInstanceAs (Decidable (∀ resume ∈ world.resumes id, ∀ state ∈ world.switch,
    state.active = true → state.covers (workspaceOf resume.sessionID) = true))
  | .set state => inferInstanceAs (Decidable (∀ id < world.next, ∀ resume ∈ world.resumes id,
    resume.phase = .checked → state.covers (workspaceOf resume.sessionID) = false))
  | .elapse _ => isTrue trivial
  | .clear => isTrue trivial
  | .enqueue _ => isTrue trivial
  | .look _ => isTrue trivial
  | .consult _ => isTrue trivial
  | .select _ => isTrue trivial
  | .dispatch => isTrue trivial
  | .loop _ => isTrue trivial
  | .finish _ _ => isTrue trivial

/-! ### Reading the switch -/

section Switch

variable {stored : Option State} {state : State} {now : ℤ}

theorem mem_getState : state ∈ getState stored now ↔
    state ∈ stored ∧ state.expired now = false := by
  rw [getState, Option.mem_filter_iff, Bool.not_eq_true']

theorem mem_getState_of_le {later : ℤ} (hle : now ≤ later) (h : state ∈ getState stored later) :
    state ∈ getState stored now := by
  obtain ⟨hstored, hexpired⟩ := mem_getState.mp h
  refine mem_getState.mpr ⟨hstored, ?_⟩
  rw [State.expired, Bool.and_eq_false_iff, decide_eq_false_iff_not] at hexpired ⊢
  refine hexpired.imp_right fun hnot hlt => hnot ?_
  omega

theorem getState_getState : getState (getState stored now) now = getState stored now := by
  rw [getState, getState, Option.filter_filter]
  simp only [Bool.and_self]

theorem covers_eq_false (h : state.active = false) (workspaceId : JsString) :
    state.covers workspaceId = false := by
  rw [State.covers, h, Bool.false_and]

theorem covers_of_not_allowed {workspaceId : JsString} (hpresent : present (some workspaceId) = true)
    (h : assertSchedulingAllowed stored (some workspaceId) = some state) :
    state.covers workspaceId = true := by
  rcases stored with _ | stored
  · cases h
  · rw [assertSchedulingAllowed] at h
    split at h
    next => cases h
    next hactive =>
      have hactive : stored.active = true := by simpa using hactive
      split at h
      next hglobal =>
        obtain rfl := Option.some.inj h
        rw [State.covers, hactive, Bool.true_and, Bool.or_eq_true]
        exact Or.inl hglobal
      next =>
        split at h
        next => cases h
        next hsame =>
          obtain rfl := Option.some.inj h
          rw [hpresent, Bool.true_and, decide_eq_true_eq, not_not] at hsame
          rw [State.covers, hactive, Bool.true_and, Bool.or_eq_true, decide_eq_true_eq]
          exact Or.inr hsame

theorem of_not_allowed (h : assertSchedulingAllowed stored none = some state) :
    stored = some state ∧ state.active = true := by
  rcases stored with _ | stored
  · cases h
  · rw [assertSchedulingAllowed] at h
    split at h
    next => cases h
    next hactive =>
      have hactive : stored.active = true := by simpa using hactive
      split at h
      next =>
        obtain rfl := Option.some.inj h
        exact ⟨rfl, hactive⟩
      next =>
        obtain rfl := Option.some.inj h
        exact ⟨rfl, hactive⟩

end Switch

/-! ### One step -/

/-- What every run keeps: the records are right, and no switch covers a session that had its turn and
is not in its prompt loop. -/
structure Inv (workspaceOf : JsString → JsString) (world : World) : Prop where
  exact : ∀ record ∈ world.log, record.Exact workspaceOf
  free : ∀ id resume, world.resumes id = some resume → resume.phase = .checked →
    ∀ state ∈ world.switch, state.covers (workspaceOf resume.sessionID) = false
  fresh : ∀ id resume, world.resumes id = some resume → id < world.next

section Step

variable {workspaceOf : JsString → JsString} {world : World} {pass : Pass} {id : ℕ}
  {resume : Resume}

theorem Inv.congr {world' : World} (h : Inv workspaceOf world) (hlog : world'.log = world.log)
    (hswitch : ∀ state ∈ world'.switch, state ∈ world.switch)
    (hresumes : world'.resumes = world.resumes) (hnext : world'.next = world.next) :
    Inv workspaceOf world' := by
  refine ⟨?_, fun id resume hresume hchecked state hstate => ?_, fun id resume hresume => ?_⟩
  · rw [hlog]
    exact h.exact
  · rw [hresumes] at hresume
    exact h.free id resume hresume hchecked state (hswitch state hstate)
  · rw [hresumes] at hresume
    rw [hnext]
    exact h.fresh id resume hresume

theorem Inv.record (h : Inv workspaceOf world) {record : Record}
    (hrecord : record.Exact workspaceOf) :
    Inv workspaceOf { world with log := record :: world.log } := by
  refine ⟨fun other hother => ?_, h.free, h.fresh⟩
  rcases List.mem_cons.mp hother with rfl | hother
  · exact hrecord
  · exact h.exact other hother

theorem Inv.read (h : Inv workspaceOf world) : Inv workspaceOf world.read := by
  refine h.congr rfl (fun state hstate => ?_) rfl rfl
  change state ∈ getState (getState world.stored world.now) world.now at hstate
  rw [getState_getState] at hstate
  exact hstate

theorem Inv.release (h : Inv workspaceOf world) : Inv workspaceOf (world.release id resume) := by
  have hmem : ∀ {id' other}, (world.release id resume).resumes id' = some other →
      world.resumes id' = some other := by
    intro id' other hother
    change Function.update world.resumes id none id' = some other at hother
    rw [Function.update_apply] at hother
    split at hother
    · cases hother
    · exact hother
  exact ⟨h.exact, fun id' other hother => h.free id' other (hmem hother),
    fun id' other hother => h.fresh id' other (hmem hother)⟩

theorem Inv.phase (h : Inv workspaceOf world) (hresume : world.resumes id = some resume)
    {phase : Phase} (hfree : phase = .checked → ∀ state ∈ world.switch,
      state.covers (workspaceOf resume.sessionID) = false) :
    Inv workspaceOf { world with
      resumes := Function.update world.resumes id (some { resume with phase := phase }) } := by
  refine ⟨h.exact, fun id' other hother hchecked => ?_, fun id' other hother => ?_⟩
  · change Function.update world.resumes id _ id' = some other at hother
    rw [Function.update_apply] at hother
    split at hother
    next =>
      obtain rfl := Option.some.inj hother
      exact hfree hchecked
    next => exact h.free id' other hother hchecked
  · change Function.update world.resumes id _ id' = some other at hother
    rw [Function.update_apply] at hother
    split at hother
    next heq =>
      rw [heq]
      exact h.fresh id resume hresume
    next => exact h.fresh id' other hother

theorem Inv.begin (h : Inv workspaceOf world)
    (hwithin : ∀ state ∈ world.switch, state.active = true → ∀ sessionID ∈ world.pending,
      state.covers (workspaceOf sessionID) = true) : Inv workspaceOf world.begin := by
  rw [World.begin]
  rcases hgate : assertSchedulingAllowed world.read.stored none with _ | state
  · exact h.read.congr rfl (fun _ h => h) rfl rfl
  · obtain ⟨hstored, hactive⟩ := of_not_allowed hgate
    exact h.read.record (hwithin state hstored hactive)

theorem Inv.look (h : Inv workspaceOf world) {found : Bool} :
    Inv workspaceOf (world.look pass found) := by
  rw [World.look]
  rcases pass.items with _ | ⟨sessionID, items⟩
  · exact h
  · dsimp only
    split
    · exact h.congr rfl (fun _ h => h) rfl rfl
    · split
      · exact h.congr rfl (fun _ h => h) rfl rfl
      · exact h.congr rfl (fun _ h => h) rfl rfl

theorem Inv.consult (h : Inv workspaceOf world) {sessionID : JsString} {workspaceId : Option JsString}
    (hworkspace : ∀ id ∈ workspaceId, id = workspaceOf sessionID) :
    Inv workspaceOf (world.consult pass sessionID workspaceId) := by
  rw [World.consult]
  dsimp only
  split
  next hpresent =>
    rcases hgate : assertSchedulingAllowed world.read.stored workspaceId with _ | state
    · exact h.read.congr rfl (fun _ h => h) rfl rfl
    · rcases workspaceId with _ | workspaceId
      · cases hpresent
      · have hcovers := covers_of_not_allowed hpresent hgate
        rw [hworkspace workspaceId rfl] at hcovers
        have hrecord : (Record.passedOver state sessionID).Exact workspaceOf := hcovers
        exact (h.read.record hrecord).congr rfl (fun _ h => h) rfl rfl
  next => exact h.congr rfl (fun _ h => h) rfl rfl

theorem Inv.dispatch (h : Inv workspaceOf world) : Inv workspaceOf (world.dispatch pass) := by
  rw [World.dispatch]
  rcases pass.selected with _ | ⟨sessionID, selected⟩
  · exact h.congr rfl (fun _ h => h) rfl rfl
  · refine ⟨h.exact, fun id resume hresume hchecked => ?_, fun id resume hresume => ?_⟩
    · change Function.update world.resumes world.next _ id = some resume at hresume
      rw [Function.update_apply] at hresume
      split at hresume
      next =>
        obtain rfl := Option.some.inj hresume
        cases hchecked
      next => exact h.free id resume hresume hchecked
    · change Function.update world.resumes world.next _ id = some resume at hresume
      rw [Function.update_apply] at hresume
      split at hresume
      next heq =>
        rw [heq]
        exact Nat.lt_succ_self _
      next => exact Nat.lt_succ_of_lt (h.fresh id resume hresume)

theorem Inv.check (h : Inv workspaceOf world) (hresume : world.resumes id = some resume)
    (hwithin : ∀ state ∈ world.switch, state.active = true →
      state.covers (workspaceOf resume.sessionID) = true) :
    Inv workspaceOf (world.check id resume) := by
  rw [World.check]
  rcases hactive : world.read.stored.filter State.active with _ | state
  · refine h.read.phase hresume fun _ state hstate => covers_eq_false ?_ _
    change state ∈ getState (getState world.stored world.now) world.now at hstate
    rw [getState_getState] at hstate
    by_contra hnot
    have hmem : state ∈ world.read.stored.filter State.active :=
      Option.mem_filter_iff.mpr ⟨hstate, by simpa using hnot⟩
    rw [hactive] at hmem
    cases hmem
  · obtain ⟨hstored, hstate⟩ := Option.mem_filter_iff.mp hactive
    have hrecord : (Record.aborted state resume.sessionID).Exact workspaceOf :=
      hwithin state hstored hstate
    have hcleared : Inv workspaceOf (World.clearPending
        { world.read with log := .aborted state resume.sessionID :: world.read.log }
        resume.sessionID) :=
      (h.read.record hrecord).congr rfl (fun _ h => h) rfl rfl
    exact hcleared.release

theorem Inv.finish (h : Inv workspaceOf world) {requeued : Option Bool} :
    Inv workspaceOf (world.finish id resume requeued) := by
  rcases requeued with _ | _ | _
  · exact h.release
  · exact Inv.release (h.congr rfl (fun _ h => h) rfl rfl)
  · exact Inv.release (h.congr rfl (fun _ h => h) rfl rfl)

/-- **An event that meets its condition keeps what every run keeps.** -/
theorem Inv.step (h : Inv workspaceOf world) {event : Event}
    (hwithin : Within workspaceOf world event) : Inv workspaceOf (step workspaceOf world event) := by
  cases event with
  | elapse ms =>
    refine h.congr rfl (fun state hstate => ?_) rfl rfl
    refine mem_getState_of_le ?_ hstate
    change world.now ≤ world.now + ms
    omega
  | set state =>
    refine ⟨h.exact, fun id resume hresume hchecked other hother => ?_, h.fresh⟩
    obtain ⟨hstored, -⟩ := mem_getState.mp hother
    obtain rfl : state = other := Option.some.inj hstored
    exact hwithin id (h.fresh id resume hresume) resume hresume hchecked
  | clear =>
    refine h.congr rfl (fun state hstate => ?_) rfl rfl
    obtain ⟨hstored, -⟩ := mem_getState.mp hstate
    cases hstored
  | enqueue sessionID => exact h.congr rfl (fun _ h => h) rfl rfl
  | begin =>
    rw [KillSwitch.step]
    split
    · exact h.begin hwithin
    · exact h
  | look found =>
    rw [KillSwitch.step]
    rcases world.pass with _ | pass
    · exact h
    · dsimp only
      split
      · exact h.look
      · exact h
  | consult resolved =>
    rw [KillSwitch.step]
    rcases world.pass with _ | pass
    · exact h
    · dsimp only
      rcases pass.current with _ | sessionID
      · exact h
      · refine h.consult fun id hid => ?_
        split at hid
        · exact (Option.some.inj hid).symm
        · cases hid
  | select selected =>
    rw [KillSwitch.step]
    rcases world.pass with _ | pass
    · exact h
    · dsimp only
      split
      · exact h.congr rfl (fun _ h => h) rfl rfl
      · exact h
  | dispatch =>
    rw [KillSwitch.step]
    rcases world.pass with _ | pass
    · exact h
    · dsimp only
      split
      · exact h.dispatch
      · exact h
  | check id =>
    rw [KillSwitch.step]
    rcases hresume : world.resumes id with _ | resume
    · exact h
    · dsimp only
      split
      · exact h.check hresume (hwithin resume hresume)
      · exact h
  | loop id =>
    rw [KillSwitch.step]
    rcases hresume : world.resumes id with _ | resume
    · exact h
    · dsimp only
      split
      next hchecked =>
        have hrecord : (Record.started world.switch resume.sessionID).Exact workspaceOf :=
          h.free id resume hresume hchecked
        refine Inv.phase (h.record hrecord) hresume fun hphase => ?_
        cases hphase
      next => exact h
  | finish id requeued =>
    rw [KillSwitch.step]
    rcases world.resumes id with _ | resume
    · exact h
    · dsimp only
      split
      · exact h
      · exact h.finish

end Step

/-- **If a switch covers what is there when it is read without its scope, and none is set between the
turn of a session that it covers and its prompt loop, then a switch stops exactly what it covers.**
-/
theorem exact_of_within (workspaceOf : JsString → JsString) (now : ℤ) (stored : Option State)
    (pending : List JsString) (events : List Event)
    (hwithin : Meets (step workspaceOf) (Within workspaceOf) (World.init now stored pending) events) :
    ∀ past, past <+: events →
      ∀ record ∈ (run (step workspaceOf) (World.init now stored pending) past).log,
        record.Exact workspaceOf := by
  intro past hpast
  have hstart : Inv workspaceOf (World.init now stored pending) := by
    refine ⟨fun _ h => absurd h List.not_mem_nil, ?_, ?_⟩
    · rintro id resume ⟨⟩
    · rintro id resume ⟨⟩
  have hinv := (hwithin.initial hpast).invariant (Inv workspaceOf) hstart
    fun _ _ hinv hok => hinv.step hok
  exact hinv.exact

def forWorkspace (workspaceId : String) : State :=
  ⟨true, js "workspace", some (js workspaceId), 0, none⟩

def ownWorkspace (sessionID : JsString) : JsString := js "of " ++ sessionID

def stoppedAndResumed : List Event :=
  [.begin, .look true, .set (forWorkspace "of ses_1"), .consult true, .dispatch, .clear, .begin,
    .look true, .consult true, .select [js "ses_1"], .dispatch, .dispatch, .check 0, .loop 0,
    .finish 0 none]

theorem stoppedAndResumed_exact :
    (Record.passedOver (forWorkspace "of ses_1") (js "ses_1")).Exact ownWorkspace :=
  exact_of_within ownWorkspace 0 none [js "ses_1"] stoppedAndResumed (by decide)
    stoppedAndResumed (List.prefix_refl stoppedAndResumed) _ (by decide +kernel)

/-- Another workspace is stopped before the session gets its turn. -/
def otherStopped : List Event :=
  [.begin, .look true, .consult true, .select [js "ses_1"], .dispatch,
    .set (forWorkspace "of ses_2"), .check 0]

/-- **A continuation is aborted for a switch of another workspace.** -/
theorem not_exact : ¬∀ (workspaceOf : JsString → JsString) now stored pending events,
    ∀ record ∈ (run (step workspaceOf) (World.init now stored pending) events).log,
      record.Exact workspaceOf := by
  intro h
  have hmem : Record.aborted (forWorkspace "of ses_2") (js "ses_1") ∈
      (run (step ownWorkspace) (World.init 0 none [js "ses_1"]) otherStopped).log := by
    decide
  have hcovers : (forWorkspace "of ses_2").covers (ownWorkspace (js "ses_1")) = true :=
    h ownWorkspace 0 none [js "ses_1"] otherStopped _ hmem
  have hnot : (forWorkspace "of ses_2").covers (ownWorkspace (js "ses_1")) = false := by
    decide +kernel
  exact Bool.false_ne_true (hnot.symm.trans hcovers)

end OpenCms.KillSwitch
