import OpenCms.Lib.Runs
import Mathlib.Data.Finset.Card
import Mathlib.Data.Fintype.Card
import Mathlib.Algebra.GroupWithZero.Nat

/-!
# The connection table

A request that goes to a backend leaves the gateway with two sockets, which it joins by
two pipes and registers with epoll under a pointer to a slot of `g_conns`. A batch of
events is taken from the kernel at once and handled one by one, and between two of them
other entries of the batch may close connections and start new ones in their slots.

`OpenCms.Gateway.connStep` is one step of that loop. Its state carries, next to the table
itself, which connection a slot holds (`OpenCms.Gateway.ConnState.holds`) and a record of
what events did to which connection; no step reads these. A queued event remembers the
connection it was registered for, which the gateway cannot do: it has only the slot.

`OpenCms.Gateway.SlotsServeOne` says of the record that events acted on their own
connections only, that an event marks no daemon dead but the one its connection leads to,
and that the counter is the number of open connections. It holds after every run in which
each event finds its connection still open, no event both ends a transfer and reports a
hang-up, and no web route starts a connection (`OpenCms.Gateway.slots_serve_one`); a late
event reaches the next connection of the slot (`OpenCms.Gateway.late_event_hits_next`).
-/

namespace OpenCms.Gateway

/-! ### The table -/

def maxConns : ℕ := 1024

instance : NeZero maxConns := ⟨by decide⟩

/-- An index of `g_conns`. -/
abbrev ConnSlot : Type := Fin maxConns

def maxUsers : ℕ := 64

instance : NeZero maxUsers := ⟨by decide⟩

/-- An index of `g_daemons`. -/
abbrev DaemonIx : Type := Fin maxUsers

inductive DaemonState
  | none
  | starting
  | ready
  | dead
  deriving DecidableEq

/-- `Connection`. A descriptor of `-1` is `none`; the two ends of a pipe come and go
together. -/
structure Connection where
  clientFd : Option ℕ
  daemonFd : Option ℕ
  pipeC2d : Option (ℕ × ℕ)
  pipeD2c : Option (ℕ × ℕ)
  daemon : Option DaemonIx
  closed : Bool
  deriving DecidableEq

/-- A slot after the initialisation in `main`. -/
def Connection.init : Connection := ⟨none, none, none, none, none, false⟩

/-- The side of a connection an event is about: `ECTX_SPLICE_CLIENT` or
`ECTX_SPLICE_DAEMON`. -/
inductive Side
  | client
  | daemon
  deriving DecidableEq

/-- An entry of a batch. The gateway sees the slot, the side and the flags; `conn` is the
connection that the slot held when the kernel reported it. -/
structure SpliceEvent where
  slot : ConnSlot
  side : Side
  epollIn : Bool
  /-- `EPOLLHUP | EPOLLERR`. -/
  epollHup : Bool
  conn : ℕ
  deriving DecidableEq

/-- Why a daemon was marked dead. -/
inductive DeathCause
  /-- An event that was registered for a connection. -/
  | event (conn : ℕ)
  /-- `start_splice_proxy` returned nothing for it. -/
  | failedStart
  /-- Its process ended. -/
  | exited
  deriving DecidableEq

/-- What an event did: it read and wrote, or closed, the connection `touched`. -/
structure Act where
  event : ℕ
  touched : ℕ
  deriving DecidableEq

/-- The table, the counter, the states of the daemons, the rest of the batch, and the
record. -/
structure ConnState where
  conns : ConnSlot → Connection
  nconns : ℕ
  daemons : DaemonIx → DaemonState
  batch : List SpliceEvent
  /-- The connections started so far, each with the daemon it leads to, if any. -/
  opened : List (Option DaemonIx)
  /-- The connection a slot holds. -/
  holds : ConnSlot → Option ℕ
  acts : List Act
  deaths : List (DaemonIx × DeathCause)

def ConnState.init : ConnState where
  conns _ := .init
  nconns := 0
  daemons _ := .none
  batch := []
  opened := []
  holds _ := none
  acts := []
  deaths := []

/-! ### Slots -/

def allocConn (s : ConnState) : Option ConnSlot :=
  (List.finRange maxConns).find? fun i => (s.conns i).clientFd.isNone && !(s.conns i).closed

/-- `close_conn`: the flag that is raised first is lowered again at the end. -/
def closeConn (s : ConnState) (i : ConnSlot) : ConnState :=
  if (s.conns i).closed then s
  else
    { s with
      conns := Function.update s.conns i
        { s.conns i with
          clientFd := none, daemonFd := none, pipeC2d := none, pipeD2c := none, closed := false }
      nconns := s.nconns - 1
      holds := Function.update s.holds i none }

def ConnState.fill (s : ConnState) (i : ConnSlot) (c : Connection) (backend : Option DaemonIx) :
    ConnState :=
  { s with
    conns := Function.update s.conns i c
    opened := s.opened ++ [backend]
    holds := Function.update s.holds i (some s.opened.length) }

def ConnState.markDead (s : ConnState) (d : DaemonIx) (cause : DeathCause) : ConnState :=
  { s with
    daemons := Function.update s.daemons d .dead
    deaths := s.deaths ++ [(d, cause)] }

def ConnState.touch (s : ConnState) (ev : SpliceEvent) : ConnState :=
  match s.holds ev.slot with
  | none => s
  | some k => { s with acts := s.acts ++ [⟨ev.conn, k⟩] }

/-- `start_splice_proxy`, given what `connect_unix` and the two calls of `pipe` return.
`none` is the null pointer, with the state it leaves. -/
def startSpliceProxy (s : ConnState) (d : DaemonIx) (clientFd : ℕ) (connected : Option ℕ)
    (pipe₁ pipe₂ : Option (ℕ × ℕ)) : Option ConnSlot × ConnState :=
  match connected with
  | none => (none, s)
  | some daemonFd =>
    match allocConn s with
    | none => (none, s)
    | some i =>
      match pipe₁, pipe₂ with
      | some c2d, some d2c =>
        let c := ⟨some clientFd, some daemonFd, some c2d, some d2c, some d, false⟩
        let s := s.fill i c (some d)
        (some i, { s with nconns := s.nconns + 1 })
      | _, _ =>
        -- what the first call opened is closed again
        (none, { s with conns := Function.update s.conns i { s.conns i with pipeC2d := none } })

/-- The web-route branch of `route_complete_request`, once its backend is connected: it
fills the slot itself, and neither counts the connection nor sets its daemon. -/
def startWebRoute (s : ConnState) (clientFd backendFd : ℕ) (pipe₁ pipe₂ : Option (ℕ × ℕ)) :
    ConnState :=
  match allocConn s with
  | none => s
  | some i =>
    match pipe₁, pipe₂ with
    | some c2d, some d2c =>
      let c := { s.conns i with
        clientFd := some clientFd, daemonFd := some backendFd
        pipeC2d := some c2d, pipeD2c := some d2c }
      s.fill i c none
    | _, _ =>
      let c := { s.conns i with
        clientFd := none, daemonFd := none, pipeC2d := none, pipeD2c := none }
      { s with conns := Function.update s.conns i c }

/-! ### Transfers -/

/-- What `splice` and `poll` return. -/
inductive SpliceResult
  | moved (n : ℕ)
  | again
  | failed
  /-- `poll`: the destination takes bytes again. -/
  | writable
  /-- `poll`: it did not within five seconds. -/
  | timeout
  deriving DecidableEq

/-- Whether the two loops of `splice_one_direction` end in `close_conn`, with `remaining`
bytes in the pipe. A descriptor of `-1` fails at once. A list that ends early stands for a
source without more bytes, and for a destination that stays full. -/
def spliceCloses (srcOk dstOk : Bool) : ℕ → List SpliceResult → Bool
  | 0, [] => !srcOk
  | 0, .moved 0 :: _ => true
  | 0, .moved (n + 1) :: rs => if srcOk then spliceCloses srcOk dstOk (n + 1) rs else true
  | 0, .again :: _ => !srcOk
  | 0, _ :: _ => true
  | remaining + 1, .moved (m + 1) :: rs =>
    if dstOk then spliceCloses srcOk dstOk (remaining - m) rs else true
  | remaining + 1, .again :: .writable :: rs =>
    if dstOk then spliceCloses srcOk dstOk (remaining + 1) rs else true
  | _ + 1, _ => true

def transferCloses (s : ConnState) (ev : SpliceEvent) (results : List SpliceResult) : Bool :=
  let c := s.conns ev.slot
  match ev.side with
  | .client => spliceCloses (c.clientFd.isSome && c.pipeC2d.isSome) c.daemonFd.isSome 0 results
  | .daemon => spliceCloses (c.daemonFd.isSome && c.pipeD2c.isSome) c.clientFd.isSome 0 results

def spliceOneDirection (s : ConnState) (ev : SpliceEvent) (results : List SpliceResult) :
    ConnState :=
  if (s.conns ev.slot).closed then s
  else
    let touched := s.touch ev
    if transferCloses s ev results then closeConn touched ev.slot else touched

def hangUpDaemon (s : ConnState) (ev : SpliceEvent) : ConnState :=
  match ev.side, (s.conns ev.slot).daemon with
  | .daemon, some d => if s.daemons d = .ready then s.markDead d (.event ev.conn) else s
  | _, _ => s

/-- The cases `ECTX_SPLICE_CLIENT` and `ECTX_SPLICE_DAEMON` of the main loop. -/
def handleSplice (s : ConnState) (ev : SpliceEvent) (results : List SpliceResult) : ConnState :=
  if (s.conns ev.slot).closed then s
  else
    let s := if ev.epollIn then spliceOneDirection s ev results else s
    if ev.epollHup then closeConn ((hangUpDaemon s ev).touch ev) ev.slot else s

/-! ### The machine -/

inductive ConnEvent
  /-- `epoll_wait` returns, with these slots, sides and flags. -/
  | wait (events : List (ConnSlot × Side × Bool × Bool))
  /-- The next splice event of the batch is handled. -/
  | handle (results : List SpliceResult)
  /-- A request goes to its user's daemon. -/
  | proxy (d : DaemonIx) (clientFd : ℕ) (connected : Option ℕ) (pipe₁ pipe₂ : Option (ℕ × ℕ))
  /-- A request goes to a web route whose backend is connected. -/
  | webRoute (clientFd backendFd : ℕ) (pipe₁ pipe₂ : Option (ℕ × ℕ))
  /-- `ensure_daemon_running` succeeded. -/
  | ready (d : DaemonIx)
  /-- `on_sigchld` reaped the daemon's process. -/
  | exited (d : DaemonIx)

/-- What the kernel reports: events of descriptors that are registered. -/
def report (s : ConnState) (events : List (ConnSlot × Side × Bool × Bool)) : List SpliceEvent :=
  events.filterMap fun e => (s.holds e.1).map fun k => ⟨e.1, e.2.1, e.2.2.1, e.2.2.2, k⟩

def connStep (s : ConnState) : ConnEvent → ConnState
  | .wait events => if s.batch = [] then { s with batch := report s events } else s
  | .handle results =>
    match s.batch with
    | [] => s
    | ev :: rest => handleSplice { s with batch := rest } ev results
  | .proxy d clientFd connected pipe₁ pipe₂ =>
    match startSpliceProxy s d clientFd connected pipe₁ pipe₂ with
    | (some _, s) => s
    | (none, s) => s.markDead d .failedStart
  | .webRoute clientFd backendFd pipe₁ pipe₂ => startWebRoute s clientFd backendFd pipe₁ pipe₂
  | .ready d => { s with daemons := Function.update s.daemons d .ready }
  | .exited d => s.markDead d .exited

abbrev connsAfter (events : List ConnEvent) : ConnState := run connStep .init events

def ConnState.openSlots (s : ConnState) : Finset ConnSlot :=
  Finset.univ.filter fun i => (s.conns i).clientFd.isSome

/-- **A slot serves one connection at a time**: events act on the connection they were
registered for, and mark no other daemon than its own; and `g_nconns` counts the open
connections. -/
structure SlotsServeOne (s : ConnState) : Prop where
  acts_own : ∀ a ∈ s.acts, a.touched = a.event
  deaths_own : ∀ d k, (d, DeathCause.event k) ∈ s.deaths → s.opened[k]? = some (some d)
  counted : s.nconns = s.openSlots.card

/-! ### Open slots -/

variable {i : ConnSlot} {c : Connection}

theorem mem_openSlots {s : ConnState} : i ∈ s.openSlots ↔ (s.conns i).clientFd.isSome := by
  simp [ConnState.openSlots]

theorem allocConn_free {s : ConnState} (h : allocConn s = some i) :
    (s.conns i).clientFd = none := by
  have hi := List.find?_some h
  simp only [Bool.and_eq_true, Option.isNone_iff_eq_none] at hi
  exact hi.1

theorem openSlots_update {s t : ConnState} (h : t.conns = Function.update s.conns i c) :
    t.openSlots = if c.clientFd.isSome then insert i s.openSlots else s.openSlots.erase i := by
  ext j
  rw [mem_openSlots, h]
  by_cases hj : j = i
  · subst hj
    cases hc : c.clientFd.isSome <;> simp [hc]
  · cases c.clientFd.isSome <;> simp [hj, mem_openSlots]

/-! ### What every step keeps -/

/-- The law, and what ties the record to the table. -/
structure ConnInv (s : ConnState) : Prop extends SlotsServeOne s where
  held : ∀ i k, s.holds i = some k →
    (s.conns i).clientFd.isSome ∧ s.opened[k]? = some (s.conns i).daemon
  unheld : ∀ i, s.holds i = none → (s.conns i).clientFd = none
  not_closed : ∀ i, (s.conns i).closed = false

theorem ConnInv.init : ConnInv .init where
  acts_own := by simp [ConnState.init]
  deaths_own := by simp [ConnState.init]
  counted := by simp [ConnState.init, ConnState.openSlots, Connection.init]
  held := by simp [ConnState.init]
  unheld := by simp [ConnState.init, Connection.init]
  not_closed := by simp [ConnState.init, Connection.init]

variable {s : ConnState} {ev : SpliceEvent}

theorem ConnInv.batch (h : ConnInv s) (batch : List SpliceEvent) :
    ConnInv { s with batch } :=
  ⟨⟨h.acts_own, h.deaths_own, h.counted⟩, h.held, h.unheld, h.not_closed⟩

theorem ConnInv.daemons (h : ConnInv s) (daemons : DaemonIx → DaemonState) :
    ConnInv { s with daemons } :=
  ⟨⟨h.acts_own, h.deaths_own, h.counted⟩, h.held, h.unheld, h.not_closed⟩

theorem ConnInv.markDead (h : ConnInv s) {d : DaemonIx} {cause : DeathCause}
    (hcause : ∀ k, cause = .event k → s.opened[k]? = some (some d)) :
    ConnInv (s.markDead d cause) := by
  refine ⟨⟨h.acts_own, fun d' k hmem => ?_, h.counted⟩, h.held, h.unheld, h.not_closed⟩
  rcases List.mem_append.mp hmem with hold | hnew
  · exact h.deaths_own d' k hold
  · obtain ⟨rfl, hk⟩ : d' = d ∧ DeathCause.event k = cause := by simpa using hnew
    exact hcause k hk.symm

theorem ConnInv.touch (h : ConnInv s) (hev : s.holds ev.slot = some ev.conn) :
    ConnInv (s.touch ev) := by
  rw [ConnState.touch, hev]
  refine ⟨⟨fun a ha => ?_, h.deaths_own, h.counted⟩, h.held, h.unheld, h.not_closed⟩
  rcases List.mem_append.mp ha with hold | hnew
  · exact h.acts_own a hold
  · rw [List.mem_singleton.mp hnew]

@[simp] theorem touch_conns (s : ConnState) (ev : SpliceEvent) : (s.touch ev).conns = s.conns := by
  unfold ConnState.touch
  split <;> rfl

@[simp] theorem touch_holds (s : ConnState) (ev : SpliceEvent) : (s.touch ev).holds = s.holds := by
  unfold ConnState.touch
  split <;> rfl

theorem ConnInv.close (h : ConnInv s) {k : ℕ} (hi : s.holds i = some k) :
    ConnInv (closeConn s i) := by
  rw [closeConn, if_neg (by simp [h.not_closed i])]
  refine ⟨⟨h.acts_own, h.deaths_own, ?_⟩, fun j k' hj => ?_, fun j hj => ?_, fun j => ?_⟩
  · rw [openSlots_update rfl]
    have hmem : i ∈ s.openSlots := mem_openSlots.mpr (h.held i k hi).1
    simp [Finset.card_erase_of_mem hmem, h.counted]
  · have hne : j ≠ i := fun hji => by simp [hji] at hj
    simp only [Function.update_of_ne hne] at hj ⊢
    exact h.held j k' hj
  · by_cases hji : j = i
    · simp [hji]
    · simp only [Function.update_of_ne hji] at hj ⊢
      exact h.unheld j hj
  · by_cases hji : j = i
    · simp [hji]
    · simpa only [Function.update_of_ne hji] using h.not_closed j

theorem ConnInv.fill (h : ConnInv s) {backend : Option DaemonIx} (hi : (s.conns i).clientFd = none)
    (hclient : c.clientFd.isSome) (hclosed : c.closed = false) (hdaemon : c.daemon = backend) :
    ConnInv { s.fill i c backend with nconns := s.nconns + 1 } := by
  have hopened : ∀ (k : ℕ) (b : Option DaemonIx), s.opened[k]? = some b →
      (s.opened ++ [backend])[k]? = some b := by
    intro k b hk
    rw [List.getElem?_append_left (List.getElem?_eq_some_iff.mp hk).1, hk]
  refine ⟨⟨h.acts_own, fun d k hk => hopened k _ (h.deaths_own d k hk), ?_⟩, fun j k hj => ?_,
    fun j hj => ?_, fun j => ?_⟩
  · rw [openSlots_update rfl, if_pos hclient]
    have hmem : i ∉ s.openSlots := fun hmem => by simp [mem_openSlots, hi] at hmem
    simp only [Finset.card_insert_of_notMem hmem, h.counted]
  · by_cases hji : j = i
    · subst hji
      obtain rfl : s.opened.length = k := by simpa [ConnState.fill] using hj
      simp [ConnState.fill, hclient, hdaemon]
    · simp only [ConnState.fill, Function.update_of_ne hji] at hj ⊢
      exact ⟨(h.held j k hj).1, hopened k _ (h.held j k hj).2⟩
  · by_cases hji : j = i
    · simp [ConnState.fill, hji] at hj
    · simp only [ConnState.fill, Function.update_of_ne hji] at hj ⊢
      exact h.unheld j hj
  · by_cases hji : j = i
    · simpa [ConnState.fill, hji] using hclosed
    · simpa only [ConnState.fill, Function.update_of_ne hji] using h.not_closed j

theorem ConnInv.scratch (h : ConnInv s) (hi : (s.conns i).clientFd = none)
    (hclient : c.clientFd = none) (hclosed : c.closed = false) :
    ConnInv { s with conns := Function.update s.conns i c } := by
  have hfree : ∀ k, s.holds i ≠ some k := fun k hk => by simpa [hi] using (h.held i k hk).1
  refine ⟨⟨h.acts_own, h.deaths_own, ?_⟩, fun j k hj => ?_, fun j hj => ?_, fun j => ?_⟩
  · rw [openSlots_update rfl]
    have hmem : i ∉ s.openSlots := fun hmem => by simp [mem_openSlots, hi] at hmem
    simp [hclient, Finset.erase_eq_of_notMem hmem, h.counted]
  · have hne : j ≠ i := fun hji => hfree k (hji ▸ hj)
    simpa only [Function.update_of_ne hne] using h.held j k hj
  · by_cases hji : j = i
    · simpa [hji] using hclient
    · simpa only [Function.update_of_ne hji] using h.unheld j hj
  · by_cases hji : j = i
    · simpa [hji] using hclosed
    · simpa only [Function.update_of_ne hji] using h.not_closed j

/-! ### Steps -/

theorem ConnInv.startSpliceProxy (h : ConnInv s) (d : DaemonIx) (clientFd : ℕ)
    (connected : Option ℕ) (pipe₁ pipe₂ : Option (ℕ × ℕ)) :
    ConnInv (Gateway.startSpliceProxy s d clientFd connected pipe₁ pipe₂).2 := by
  unfold Gateway.startSpliceProxy
  split
  · exact h
  · split
    · exact h
    next i halloc =>
      have hfree := allocConn_free halloc
      split
      · exact h.fill hfree rfl rfl rfl
      · exact h.scratch hfree hfree (h.not_closed i)

theorem ConnInv.startWebRoute (h : ConnInv s) (clientFd backendFd : ℕ)
    {pipe₁ pipe₂ : Option (ℕ × ℕ)}
    (hnone : ¬((allocConn s).isSome ∧ pipe₁.isSome ∧ pipe₂.isSome)) :
    ConnInv (Gateway.startWebRoute s clientFd backendFd pipe₁ pipe₂) := by
  unfold Gateway.startWebRoute
  split
  · exact h
  next i halloc =>
    split
    · exact absurd ⟨Option.isSome_of_eq_some halloc, rfl, rfl⟩ hnone
    · exact h.scratch (allocConn_free halloc) rfl (h.not_closed i)

def HandledInTime (s : ConnState) (ev : SpliceEvent) (results : List SpliceResult) : Prop :=
  s.holds ev.slot = some ev.conn ∧
    ¬(ev.epollIn = true ∧ ev.epollHup = true ∧ transferCloses s ev results = true)

theorem ConnInv.hangUpDaemon (h : ConnInv s) (hev : s.holds ev.slot = some ev.conn) :
    ConnInv (Gateway.hangUpDaemon s ev) := by
  unfold Gateway.hangUpDaemon
  split
  next d _ hd =>
    split
    · refine h.markDead fun k hk => ?_
      obtain rfl : ev.conn = k := by simpa using hk
      rw [(h.held _ _ hev).2, hd]
    · exact h
  · exact h

theorem hangUpDaemon_holds (s : ConnState) (ev : SpliceEvent) :
    (hangUpDaemon s ev).holds = s.holds := by
  unfold hangUpDaemon
  split
  · split <;> rfl
  · rfl

theorem ConnInv.transfer (h : ConnInv s) (hev : s.holds ev.slot = some ev.conn)
    (results : List SpliceResult) :
    ConnInv (spliceOneDirection s ev results) ∧
      (transferCloses s ev results = false →
        (spliceOneDirection s ev results).holds ev.slot = some ev.conn) := by
  have htouch : ConnInv (s.touch ev) := h.touch hev
  rw [spliceOneDirection, if_neg (by simp [h.not_closed])]
  cases hc : transferCloses s ev results with
  | true => exact ⟨htouch.close (k := ev.conn) (by rw [touch_holds, hev]), by simp⟩
  | false => exact ⟨htouch, fun _ => by simp [hev]⟩

/-- **One event, handled in time, keeps the law.** -/
theorem ConnInv.handleSplice (h : ConnInv s) {results : List SpliceResult}
    (hin : (ev.epollIn || ev.epollHup) = true → HandledInTime s ev results) :
    ConnInv (Gateway.handleSplice s ev results) := by
  rw [Gateway.handleSplice, if_neg (by simp [h.not_closed])]
  cases hI : ev.epollIn with
  | false =>
    cases hH : ev.epollHup with
    | false => exact h
    | true =>
      have hev := (hin (by simp [hH])).1
      have hhang := h.hangUpDaemon hev
      rw [← hangUpDaemon_holds] at hev
      exact (hhang.touch hev).close (k := ev.conn) (by rw [touch_holds, hev])
  | true =>
    obtain ⟨hev, hboth⟩ := hin (by simp [hI])
    obtain ⟨htransfer, hstays⟩ := h.transfer hev results
    cases hH : ev.epollHup with
    | false => exact htransfer
    | true =>
      have hopen := hstays (by simpa [hI, hH] using hboth)
      have hhang := htransfer.hangUpDaemon hopen
      rw [← hangUpDaemon_holds] at hopen
      exact (hhang.touch hopen).close (k := ev.conn) (by rw [touch_holds, hopen])

/-- The condition on a step: a splice event finds its connection open and does not both end
a transfer and hang up; a web route starts no connection. -/
def ConnStepInTime (s : ConnState) : ConnEvent → Prop
  | .handle results => ∀ ev ∈ s.batch.head?,
      (ev.epollIn || ev.epollHup) = true → HandledInTime s ev results
  | .webRoute _ _ pipe₁ pipe₂ => ¬((allocConn s).isSome ∧ pipe₁.isSome ∧ pipe₂.isSome)
  | _ => True

instance (s : ConnState) (ev : SpliceEvent) (results : List SpliceResult) :
    Decidable (HandledInTime s ev results) :=
  inferInstanceAs (Decidable (_ ∧ _))

instance (s : ConnState) (e : ConnEvent) : Decidable (ConnStepInTime s e) :=
  match e with
  | .handle results => inferInstanceAs (Decidable (∀ ev ∈ s.batch.head?,
      (ev.epollIn || ev.epollHup) = true → HandledInTime s ev results))
  | .webRoute _ _ pipe₁ pipe₂ =>
    inferInstanceAs (Decidable ¬((allocConn s).isSome ∧ pipe₁.isSome ∧ pipe₂.isSome))
  | .wait _ | .proxy .. | .ready _ | .exited _ => isTrue trivial

theorem ConnInv.step (h : ConnInv s) (e : ConnEvent) (hok : ConnStepInTime s e) :
    ConnInv (connStep s e) := by
  cases e with
  | wait events =>
    rw [connStep]
    split
    · exact h.batch _
    · exact h
  | handle results =>
    rw [connStep]
    split
    · exact h
    next ev rest hbatch => exact (h.batch rest).handleSplice (hok ev (by simp [hbatch]))
  | proxy d clientFd connected pipe₁ pipe₂ =>
    have hstart := h.startSpliceProxy d clientFd connected pipe₁ pipe₂
    rw [connStep]
    split
    next hs => rwa [hs] at hstart
    next hs =>
      rw [hs] at hstart
      refine hstart.markDead ?_
      rintro k ⟨⟩
  | webRoute clientFd backendFd pipe₁ pipe₂ =>
    rw [connStep]
    exact h.startWebRoute clientFd backendFd hok
  | ready d => exact h.daemons _
  | exited d =>
    refine h.markDead ?_
    rintro k ⟨⟩

/-- **A slot serves one connection at a time** in every run whose events find their
connection open and hang up or end a transfer but not both, and in which no web route starts
a connection. -/
theorem slots_serve_one (events : List ConnEvent)
    (hin : Meets connStep ConnStepInTime .init events) : SlotsServeOne (connsAfter events) :=
  (hin.invariant ConnInv ConnInv.init fun _ e h hok => h.step e hok).toSlotsServeOne

/-! ### Examples -/

/-- Two connections to one daemon: the first is told the daemon hung up, then the second
sends five bytes. -/
def sampleConnRun : List ConnEvent :=
  [.ready 0, .proxy 0 7 (some 8) (some (9, 10)) (some (11, 12)),
    .proxy 0 13 (some 14) (some (15, 16)) (some (17, 18)),
    .wait [(0, .daemon, false, true), (1, .client, true, false)], .handle [],
    .handle [.moved 5, .moved 5, .again]]

/-- The sample run keeps its connections apart. -/
theorem slots_serve_one_sample : SlotsServeOne (connsAfter sampleConnRun) :=
  slots_serve_one sampleConnRun (by decide +kernel)

/-- One batch reports both sides of a connection to the first daemon. Its client has left,
and the slot goes to a request for the second daemon before the other event is handled. -/
def lateEventRun : List ConnEvent :=
  [.ready 0, .ready 1, .proxy 0 7 (some 8) (some (9, 10)) (some (11, 12)),
    .wait [(0, .client, true, false), (0, .daemon, false, true)], .handle [.moved 0],
    .proxy 1 13 (some 14) (some (15, 16)) (some (17, 18)), .handle []]

/-- **A late event reaches the next connection of its slot**: it closes the second user's
connection and marks the second user's daemon dead. -/
theorem late_event_hits_next :
    (⟨0, 1⟩ ∈ (connsAfter lateEventRun).acts ∧
      (1, DeathCause.event 0) ∈ (connsAfter lateEventRun).deaths ∧
      (connsAfter lateEventRun).opened = [some 0, some 1]) ∧
    ¬ ∀ events : List ConnEvent, SlotsServeOne (connsAfter events) := by
  have hrun : ⟨0, 1⟩ ∈ (connsAfter lateEventRun).acts ∧
      (1, DeathCause.event 0) ∈ (connsAfter lateEventRun).deaths ∧
      (connsAfter lateEventRun).opened = [some 0, some 1] := by decide +kernel
  refine ⟨hrun, fun h => ?_⟩
  have hown := (h lateEventRun).acts_own _ hrun.1
  exact absurd hown (by decide)

end OpenCms.Gateway
