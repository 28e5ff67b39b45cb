import OpenCms.Gateway.Connections
import OpenCms.Gateway.Route

/-!
# The daemons of the users

Each user has a daemon that runs under their own uid, and the gateway, which runs as root,
passes their requests to it. It keeps an entry for each user: the path of the daemon's
socket and the daemon's pid. A daemon that is not known to run is first looked for in the
file `daemon.json` of the user's runtime directory, which the user can write; then whoever
holds the user's lock is ended; then a new daemon is started.

`OpenCms.Gateway.registryStep` is one step. The function that does all this waits on the
system in many places, and between two of them other processes end and begin and the signal
handler changes the entries; so the machine has a program counter
(`OpenCms.Gateway.Point`), and a step of the main loop leads from one such place to the
next. Whom a process belongs to is part of the state, and not the gateway's to say.

Users are kept apart (`OpenCms.Gateway.KeepsApart`) if requests go to sockets in the user's
own runtime directory only, and signals on behalf of an entry to processes of its user only.
The path and the pid that are read off `daemon.json` are taken as they are, where the pid
read off the lock is checked (`OpenCms.Gateway.discovery_is_trusted`); users are kept apart
in every run in which these files tell the truth and no pid that is held goes to the process
of another user (`OpenCms.Gateway.users_kept_apart`).
-/

namespace OpenCms.Gateway

/-! ### Runtime directories -/

/-- What the file system has for `resolve_runtime_dir`. -/
structure RuntimeDirs where
  /-- The directory of the user is there, or can be made. -/
  runUser : Bool
  /-- `XDG_RUNTIME_DIR` of the gateway, if it is set and a directory. -/
  xdg : Option Bytes

def runUserDir (uid : ℕ) : Bytes := lit "/run/user/" ++ decimalNat (uid % 2 ^ 32)

def fallbackDir (uid : ℕ) : Bytes := lit "/tmp/opencode-" ++ decimalNat (uid % 2 ^ 32)

def resolveRuntimeDir (dirs : RuntimeDirs) (uid : ℕ) : Bytes :=
  if dirs.runUser then runUserDir uid
  else
    match dirs.xdg with
    | some dir => fit 128 dir
    | none => fallbackDir uid

/-- What `connect_unix` keeps of a path. -/
def sunPath (path : Bytes) : Bytes := fit 108 path

/-- **A path in a user's own runtime directory**: it begins with the directory and does not
leave it again. -/
def LiesIn (uid : ℕ) (path : Bytes) : Prop :=
  (∃ dir ∈ [runUserDir uid, fallbackDir uid], dir ++ [47] <+: path) ∧
    ¬lit "/../" <:+: path ++ [47]

instance (uid : ℕ) (path : Bytes) : Decidable (LiesIn uid path) :=
  inferInstanceAs (Decidable (_ ∧ _))

/-! ### Entries -/

/-- `DaemonInfo`. A pid of `-1` is `none`. -/
structure DaemonInfo where
  uid : ℕ
  socketPath : Bytes
  pid : Option ℕ
  state : DaemonState
  deriving DecidableEq

def DaemonInfo.reset (d : DaemonInfo) : DaemonInfo := { d with pid := none, state := .none }

def DaemonInfo.create (uid : ℕ) (dirs : RuntimeDirs) : DaemonInfo where
  uid := uid
  socketPath := fit 256 (resolveRuntimeDir dirs uid ++ lit "/opencode/daemon.sock")
  pid := none
  state := .none

/-! ### Reading the files -/

/-- The path `try_adopt_from_discovery` reads off the file. -/
def discoverySocket (buf : Bytes) : Option Bytes := do
  let sp ← strstr buf (lit "\"socketPath\"")
  let _ ← strstr buf (lit "\"pid\"")
  let colon ← strchr 34 (sp.drop 12)
  let path ← untilQuote (colon.drop 1)
  if path = [] ∨ 256 ≤ path.length then none else some path

def discoveryPid (buf : Bytes) : Option ℕ := do
  let pp ← strstr buf (lit "\"pid\"")
  let pval ← strchr 58 (pp.drop 5)
  let pid := atoi (pval.drop 1)
  if pid ≤ 0 then none else some pid.toNat

def lockPid (buf : Bytes) : Option ℕ := do
  let p ← strstr buf (lit "\"pid\"")
  let p ← strchr 58 p
  let (pid, _) ← strtol ((p.drop 1).dropWhile fun c => c == 32 || c == 9 || c == 10)
  if pid ≤ 1 ∨ 2 ^ 31 - 1 < pid then none else some pid.toNat

/-! ### The machine -/

/-- What the dispatcher does when `ensure_daemon_running` returns. -/
inductive Cont
  /-- Nothing: the page that waits for the daemon was sent before. -/
  | page
  /-- The bytes go to the daemon, in the first or the second attempt. -/
  | proxy (second : Bool) (buf : Bytes)
  deriving DecidableEq

/-- A call of `ensure_daemon_running` for a request that was authenticated as a user. -/
structure Call where
  entry : ℕ
  uid : ℕ
  cont : Cont
  deriving DecidableEq

/-- Where the main loop stands in a call, next to what it holds in a local variable. -/
inductive Point
  /-- At the beginning of `ensure_daemon_running`. -/
  | ensure
  /-- Before `try_adopt_from_discovery`. -/
  | adopt
  /-- Before `detect_lock_holder_pid`. -/
  | detect
  /-- In `cleanup_orphan_daemon`, before the owner is looked up again. -/
  | check (pid : ℕ)
  /-- Before `SIGTERM`. -/
  | term (pid : ℕ)
  /-- After it, while the process may still end by itself. -/
  | poll (pid : ℕ)
  /-- Before a new daemon is started. -/
  | spawn
  /-- In `wait_for_daemon_ready`. -/
  | wait (pid : ℕ)
  /-- Before the signal to a daemon that did not become ready. -/
  | abort (pid : ℕ)
  /-- Before `start_splice_proxy`. -/
  | splice
  deriving DecidableEq

/-- The pid of a process that is signalled without another look at its owner. -/
def Point.held : Point → Option ℕ
  | .term pid => some pid
  | .poll pid => some pid
  | .wait pid => some pid
  | .abort pid => some pid
  | _ => none

/-- The program counter of the main loop. -/
inductive Pc
  | idle
  | inCall (c : Call) (p : Point)
  /-- In the loop over the entries at the end of `main`. -/
  | shutdown (next : ℕ)
  | stopped
  deriving DecidableEq

/-- Bytes that were sent to a socket for a user. -/
structure Forward where
  uid : ℕ
  path : Bytes
  bytes : Bytes
  deriving DecidableEq

/-- A signal that was sent on behalf of a user's entry, and whom it reached. -/
structure Signal where
  uid : ℕ
  pid : ℕ
  owner : ℕ
  deriving DecidableEq

/-- The entries, the processes of the system with their owners, the program counter, and
the record of what was sent. -/
structure Registry where
  daemons : List DaemonInfo
  procs : ℕ → Option ℕ
  pc : Pc
  forwarded : List Forward
  signals : List Signal

/-- The state `main` starts from. -/
def Registry.init (procs : ℕ → Option ℕ) : Registry where
  daemons := []
  procs := procs
  pc := .idle
  forwarded := []
  signals := []

/-- What the system answers to one step of the main loop. -/
structure Answers where
  /-- `connect_unix`. -/
  connects : Bool
  /-- The contents of `daemon.json`, if it opens. -/
  discovery : Option Bytes
  /-- The contents of `daemon.lock`, if it opens. -/
  lock : Option Bytes
  /-- The process has ended before the time is over. -/
  gone : Bool
  /-- `ensure_socket_parent_dir`. -/
  parentDir : Bool
  /-- `user_is_sudoer`. -/
  sudoer : Bool
  /-- `systemctl start`. -/
  systemctl : Bool
  /-- The pid of the child, if there is one. -/
  fork : Option ℕ
  /-- The socket of the new daemon takes connections in time. -/
  ready : Bool
  /-- `start_splice_proxy`. -/
  splices : Bool

/-- An entry is changed. -/
def Registry.modify (s : Registry) (i : ℕ) (f : DaemonInfo → DaemonInfo) : Registry :=
  { s with daemons := s.daemons.modify i f }

/-- The main loop goes on elsewhere. -/
def Registry.goto (s : Registry) (pc : Pc) : Registry := { s with pc := pc }

def Registry.signal (s : Registry) (uid pid : ℕ) : Registry :=
  match s.procs pid with
  | some owner => { s with signals := s.signals ++ [⟨uid, pid, owner⟩] }
  | none => s

def Registry.returns (s : Registry) (c : Call) (running : Bool) : Registry :=
  match running, c.cont with
  | true, .proxy _ _ => s.goto (.inCall c .splice)
  | _, _ => s.goto .idle

def Registry.ensure (s : Registry) (c : Call) (d : DaemonInfo) (a : Answers) : Registry :=
  match d.state with
  | .ready =>
    let alive :=
      match d.pid with
      | some pid => (s.procs pid).isSome
      | none => true
    if alive && a.connects then s.returns c true
    else (s.modify c.entry fun d => { d with state := .dead }).goto (.inCall c .adopt)
  | .starting => s.returns c false
  | _ => s.goto (.inCall c .adopt)

def Registry.tryAdoptFromDiscovery (s : Registry) (c : Call) (a : Answers) : Registry :=
  match a.discovery with
  | none => s.goto (.inCall c .detect)
  | some file =>
    let buf := cstr (file.take 1023)
    match discoverySocket buf with
    | none => (s.modify c.entry .reset).goto (.inCall c .detect)
    | some path =>
      match discoveryPid buf with
      | none =>
        (s.modify c.entry fun d => { d with socketPath := path }.reset).goto (.inCall c .detect)
      | some pid =>
        if (s.procs pid).isSome && a.connects then
          (s.modify c.entry fun d => { d with socketPath := path, pid := some pid, state := .ready }
            ).returns c true
        else
          (s.modify c.entry fun d => { d with socketPath := path }.reset).goto (.inCall c .detect)

def Registry.detectLockHolderPid (s : Registry) (c : Call) (a : Answers) : Registry :=
  match a.lock.bind fun file => lockPid (cstr (file.take 511)) with
  | some pid =>
    if s.procs pid = some c.uid then s.goto (.inCall c (.check pid))
    else s.goto (.inCall c .spawn)
  | none => s.goto (.inCall c .spawn)

/-- The start of a new daemon, by systemd or as a child. The child is the user's from the
start: it gives up its privileges before it does anything else. -/
def Registry.spawn (s : Registry) (c : Call) (a : Answers) : Registry :=
  if !a.parentDir then s.returns c false
  else if a.sudoer then
    if !a.systemctl then s.returns c false
    else if !a.ready then (s.modify c.entry .reset).returns c false
    else (s.modify c.entry fun d => { d with pid := none, state := .ready }).returns c true
  else
    match a.fork with
    | none => (s.modify c.entry fun d => { d with state := .starting }).returns c false
    | some pid =>
      let s := s.modify c.entry fun d => { d with pid := some pid, state := .starting }
      let procs := Function.update s.procs pid (some c.uid)
      { s with procs := procs }.goto (.inCall c (.wait pid))

def Registry.startSpliceProxy (s : Registry) (c : Call) (d : DaemonInfo) (a : Answers) :
    Registry :=
  match c.cont with
  | .page => s.goto .idle
  | .proxy second buf =>
    if a.splices then
      let sent : Forward := ⟨c.uid, sunPath d.socketPath, buf⟩
      { s with forwarded := s.forwarded ++ [sent] }.goto .idle
    else
      let s := s.modify c.entry fun d => { d with state := .dead }
      if second then s.goto .idle
      else s.goto (.inCall { c with cont := .proxy true buf } .ensure)

def Registry.advanceCall (s : Registry) (c : Call) (d : DaemonInfo) (a : Answers) :
    Point → Registry
  | .ensure => s.ensure c d a
  | .adopt => s.tryAdoptFromDiscovery c a
  | .detect => s.detectLockHolderPid c a
  | .check pid =>
    if s.procs pid = some c.uid then s.goto (.inCall c (.term pid))
    else s.goto (.inCall c .spawn)
  | .term pid =>
    if (s.procs pid).isSome then (s.signal c.uid pid).goto (.inCall c (.poll pid))
    else s.goto (.inCall c .spawn)
  | .poll pid =>
    if a.gone then s.goto (.inCall c .spawn)
    else (s.signal c.uid pid).goto (.inCall c .spawn)
  | .spawn => s.spawn c a
  | .wait pid =>
    if a.ready then (s.modify c.entry fun d => { d with state := .ready }).returns c true
    else (s.modify c.entry .reset).goto (.inCall c (.abort pid))
  | .abort pid => (s.signal c.uid pid).returns c false
  | .splice => s.startSpliceProxy c d a

def Registry.advance (s : Registry) (a : Answers) : Registry :=
  match s.pc with
  | .inCall c p =>
    match s.daemons[c.entry]? with
    | some d => s.advanceCall c d a p
    | none => s.goto .idle
  | .shutdown i =>
    match s.daemons[i]? with
    | some d =>
      match d.pid with
      | some pid => (s.signal d.uid pid).goto (.shutdown (i + 1))
      | none => s.goto (.shutdown (i + 1))
    | none => s.goto .stopped
  | _ => s

structure DaemonRequest where
  env : Env
  routes : List WebRoute
  buf : Bytes
  dirs : RuntimeDirs

def Registry.findOrCreateDaemon (s : Registry) (r : DaemonRequest) (username : Bytes) :
    Option (ℕ × Registry) :=
  (r.env.getpwnam username).bind fun pw =>
    match s.daemons.findIdx? fun d => d.uid == pw.uid with
    | some i => some (i, s)
    | none =>
      if maxUsers ≤ s.daemons.length then none
      else
        some (s.daemons.length, { s with daemons := s.daemons ++ [.create pw.uid r.dirs] })

/-- A path for which a page is sent while the daemon starts. -/
def isPageRequest (path : Bytes) : Bool :=
  path == lit "/" || (lit "/session").isPrefixOf path || (lit "/admin").isPrefixOf path

def Registry.dispatch (s : Registry) (r : DaemonRequest) : Registry :=
  match routeCompleteRequest r.env r.routes r.buf with
  | some (req, .daemon username uid) =>
    match s.findOrCreateDaemon r username with
    | none => s
    | some (i, s) =>
      match s.daemons[i]? with
      | none => s
      | some d =>
        if d.uid ≠ uid then s
        else
          let needsColdStart := d.state == .none || d.state == .dead
          let cont : Cont :=
            if needsColdStart && isPageRequest req.path then .page else .proxy false r.buf
          s.goto (.inCall ⟨i, uid, cont⟩ .ensure)
  | _ => s

inductive RegistryEvent
  /-- A request is dispatched. -/
  | request (r : DaemonRequest)
  /-- The main loop goes one step on in what it is doing. -/
  | advance (a : Answers)
  /-- The handler of `SIGCHLD` has reaped a child. -/
  | sigchld (pid : ℕ)
  /-- The daemon's side of a connection hangs up. -/
  | hangup (entry : ℕ)
  /-- The gateway is told to end. -/
  | sigterm
  /-- A process ends, begins or changes its owner. -/
  | process (pid : ℕ) (owner : Option ℕ)

def registryStep (s : Registry) : RegistryEvent → Registry
  | .request r => if s.pc = .idle then s.dispatch r else s
  | .advance a => s.advance a
  | .sigchld pid =>
    { s with daemons := s.daemons.map fun d =>
        if d.pid = some pid then { d with pid := none, state := .dead } else d }
  | .hangup i =>
    if s.pc = .idle then
      s.modify i fun d => if d.state = .ready then { d with state := .dead } else d
    else s
  | .sigterm => if s.pc = .idle then s.goto (.shutdown 0) else s
  | .process pid owner => { s with procs := Function.update s.procs pid owner }

def registryAfter (procs : ℕ → Option ℕ) (events : List RegistryEvent) : Registry :=
  run registryStep (.init procs) events

/-! ### What is asked of it -/

/-- **Users are kept apart.** -/
structure KeepsApart (s : Registry) : Prop where
  /-- Requests of a user go to sockets in the user's own runtime directory. -/
  forwarded : ∀ m ∈ s.forwarded, LiesIn m.uid m.path
  /-- Signals on behalf of a user's entry reach processes of the user. -/
  signals : ∀ m ∈ s.signals, m.owner = m.uid

def BelongsTo (procs : ℕ → Option ℕ) (pid uid : ℕ) : Prop := ∀ owner ∈ procs pid, owner = uid

instance (procs : ℕ → Option ℕ) (pid uid : ℕ) : Decidable (BelongsTo procs pid uid) :=
  inferInstanceAs (Decidable (∀ owner ∈ procs pid, owner = uid))

/-- Every pid that the gateway has in an entry or will signal next, with the user it is held
for. -/
def Registry.holders (s : Registry) : List (ℕ × ℕ) :=
  (s.daemons.filterMap fun d => d.pid.map fun pid => (pid, d.uid)) ++
    match s.pc with
    | .inCall c p => (p.held.map fun pid => (pid, c.uid)).toList
    | _ => []

def DiscoveryHonest (s : Registry) (a : Answers) : Prop :=
  match s.pc, a.discovery with
  | .inCall c .adopt, some file =>
    let buf := cstr (file.take 1023)
    ∀ path ∈ discoverySocket buf, LiesIn c.uid (sunPath path) ∧
      (a.connects = true → ∀ pid ∈ discoveryPid buf, BelongsTo s.procs pid c.uid)
  | _, _ => True

/-- The pid of a child is not one that is still held for another user. -/
def ForkFresh (s : Registry) (a : Answers) : Prop :=
  match s.pc, a.fork with
  | .inCall c .spawn, some pid =>
    a.parentDir = true → a.sudoer = false → ∀ x ∈ s.holders, x.1 = pid → x.2 = c.uid
  | _, _ => True

/-- **The condition**: the runtime directory of a user is the user's own, the files tell the
truth, and no pid that is held for a user goes to the process of another. -/
def Trustworthy (s : Registry) : RegistryEvent → Prop
  | .request r => r.dirs.runUser = true ∨ r.dirs.xdg = none
  | .advance a => DiscoveryHonest s a ∧ ForkFresh s a
  | .process pid owner => ∀ x ∈ s.holders, x.1 = pid → owner = none ∨ owner = some x.2
  | _ => True

instance (s : Registry) (a : Answers) : Decidable (DiscoveryHonest s a) := by
  unfold DiscoveryHonest
  split <;> infer_instance

instance (s : Registry) (a : Answers) : Decidable (ForkFresh s a) := by
  unfold ForkFresh
  split <;> infer_instance

instance (s : Registry) (e : RegistryEvent) : Decidable (Trustworthy s e) := by
  cases e <;> unfold Trustworthy <;> infer_instance

/-! ### Directories -/

theorem dot_notMem_decimalNat (n : ℕ) : (46 : Byte) ∉ decimalNat n := fun h =>
  absurd (isDigit_of_mem_decimalNat _ h) (by decide)

theorem length_decimalUid_le (uid : ℕ) : (decimalNat (uid % 2 ^ 32)).length ≤ 10 := by
  exact length_decimalNat_le (by decide) (by omega)

theorem not_infix_of_count {path : Bytes} (h : path.count 46 ≤ 1) :
    ¬lit "/../" <:+: path ++ [47] := by
  intro hin
  have hcount := hin.sublist.count_le 46
  have hpat : (lit "/../").count 46 = 2 := by decide
  have hslash : ([47] : Bytes).count 46 = 0 := by decide
  rw [hpat, List.count_append, hslash] at hcount
  omega

/-- **The socket of a new entry lies in the user's own runtime directory**, unless the
gateway's own directory stands in for it. -/
theorem liesIn_create {uid : ℕ} {dirs : RuntimeDirs} (h : dirs.runUser = true ∨ dirs.xdg = none) :
    LiesIn uid (sunPath (DaemonInfo.create uid dirs).socketPath) := by
  have hdir : ∀ base : Bytes, base.length ≤ 20 → base.count 46 = 0 →
      base ++ decimalNat (uid % 2 ^ 32) ∈ [runUserDir uid, fallbackDir uid] →
      LiesIn uid (sunPath (fit 256 (base ++ decimalNat (uid % 2 ^ 32) ++
        lit "/opencode/daemon.sock"))) := by
    intro base hbase hdots hmem
    have huid := length_decimalUid_le uid
    have hlen :
        (base ++ decimalNat (uid % 2 ^ 32) ++ lit "/opencode/daemon.sock").length < 108 := by
      have hname : (lit "/opencode/daemon.sock").length = 21 := rfl
      simp only [List.length_append, hname]
      omega
    rw [sunPath, fit_of_lt (show _ < 256 by omega), fit_of_lt hlen]
    refine ⟨⟨_, hmem, lit "opencode/daemon.sock", by simp; rfl⟩, not_infix_of_count ?_⟩
    have hname : (lit "/opencode/daemon.sock").count 46 = 1 := by decide
    rw [List.count_append, List.count_append, hdots, hname,
      List.count_eq_zero.mpr (dot_notMem_decimalNat _)]
  have hrun : LiesIn uid (sunPath (fit 256 (runUserDir uid ++ lit "/opencode/daemon.sock"))) :=
    hdir (lit "/run/user/") (by decide) (by decide) List.mem_cons_self
  have htmp : LiesIn uid (sunPath (fit 256 (fallbackDir uid ++ lit "/opencode/daemon.sock"))) :=
    hdir (lit "/tmp/opencode-") (by decide) (by decide) (List.mem_cons_of_mem _ List.mem_cons_self)
  simp only [DaemonInfo.create, resolveRuntimeDir]
  split
  · exact hrun
  next hno =>
    rw [h.resolve_left hno]
    exact htmp

/-! ### The invariant -/

/-- **What is true of an entry**: its socket lies in its user's directory, and its pid is
none or that of a process of its user. -/
structure EntryOk (procs : ℕ → Option ℕ) (d : DaemonInfo) : Prop where
  socket : LiesIn d.uid (sunPath d.socketPath)
  held : ∀ pid ∈ d.pid, BelongsTo procs pid d.uid

def CallOk (s : Registry) (c : Call) : Prop := ∃ d, s.daemons[c.entry]? = some d ∧ d.uid = c.uid

/-- What is true where the main loop stands. -/
structure PcOk (s : Registry) (pc : Pc) : Prop where
  call : ∀ c p, pc = .inCall c p → CallOk s c
  held : ∀ c p, pc = .inCall c p → ∀ pid ∈ p.held, BelongsTo s.procs pid c.uid

/-- **The invariant.** -/
structure RegistryInv (s : Registry) : Prop where
  entries : ∀ d ∈ s.daemons, EntryOk s.procs d
  apart : KeepsApart s
  pc : PcOk s s.pc

theorem RegistryInv.init (procs : ℕ → Option ℕ) : RegistryInv (.init procs) where
  entries d h := absurd h (List.not_mem_nil)
  apart := ⟨fun m h => absurd h (List.not_mem_nil), fun m h => absurd h (List.not_mem_nil)⟩
  pc := ⟨fun c p h => by simp [Registry.init] at h, fun c p h => by simp [Registry.init] at h⟩

variable {p : Point}

section Moves

variable {s : Registry} {c : Call} {f : DaemonInfo → DaemonInfo}

theorem pcOk_idle : PcOk s .idle := ⟨fun c p h => by simp at h, fun c p h => by simp at h⟩

theorem pcOk_shutdown (i : ℕ) : PcOk s (.shutdown i) :=
  ⟨fun c p h => by simp at h, fun c p h => by simp at h⟩

theorem pcOk_stopped : PcOk s .stopped := ⟨fun c p h => by simp at h, fun c p h => by simp at h⟩

theorem pcOk_inCall (hc : CallOk s c) (hp : ∀ pid ∈ p.held, BelongsTo s.procs pid c.uid) :
    PcOk s (.inCall c p) := by
  constructor
  · intro c' p' h
    obtain ⟨rfl, rfl⟩ := Pc.inCall.inj h
    exact hc
  · intro c' p' h
    obtain ⟨rfl, rfl⟩ := Pc.inCall.inj h
    exact hp

theorem pcOk_free (hc : CallOk s c) (hp : p.held = none) : PcOk s (.inCall c p) :=
  pcOk_inCall hc fun pid h => by simp [hp] at h

theorem RegistryInv.goto (h : RegistryInv s) {pc : Pc} (hpc : PcOk s pc) :
    RegistryInv (s.goto pc) := ⟨h.entries, ⟨h.apart.forwarded, h.apart.signals⟩, hpc.call, hpc.held⟩

theorem RegistryInv.returns (h : RegistryInv s) (hc : CallOk s c) (running : Bool) :
    RegistryInv (s.returns c running) := by
  unfold Registry.returns
  split
  · exact h.goto (pcOk_free hc rfl)
  · exact h.goto pcOk_idle

theorem CallOk.modify (hc : CallOk s c) {i : ℕ} (hf : ∀ d, (f d).uid = d.uid) :
    CallOk (s.modify i f) c := by
  obtain ⟨d, hd, huid⟩ := hc
  refine ⟨if i = c.entry then f d else d, ?_, ?_⟩
  · simp only [Registry.modify, List.getElem?_modify, hd]
    split <;> rfl
  · split
    · exact (hf d).trans huid
    · exact huid

/-- **An entry that is changed keeps the invariant** if it is in order afterwards. -/
theorem RegistryInv.modify (h : RegistryInv s) {i : ℕ} (huid : ∀ d, (f d).uid = d.uid)
    (hf : ∀ d, s.daemons[i]? = some d → EntryOk s.procs d → EntryOk s.procs (f d)) :
    RegistryInv (s.modify i f) := by
  refine ⟨fun d hd => ?_, ⟨h.apart.forwarded, h.apart.signals⟩,
    ⟨fun c p hp => (h.pc.call c p hp).modify huid, h.pc.held⟩⟩
  obtain ⟨k, hk⟩ := List.getElem?_of_mem hd
  simp only [Registry.modify, List.getElem?_modify] at hk
  obtain ⟨d', hd', rfl⟩ := Option.map_eq_some_iff.mp hk
  have hok := h.entries d' (List.mem_of_getElem? hd')
  split
  · next hik => exact hf d' (hik ▸ hd') hok
  · exact hok

theorem RegistryInv.modify_goto (h : RegistryInv s) (hc : CallOk s c)
    (huid : ∀ d, (f d).uid = d.uid) (hp : p.held = none)
    (hf : ∀ d, s.daemons[c.entry]? = some d → EntryOk s.procs d → EntryOk s.procs (f d)) :
    RegistryInv ((s.modify c.entry f).goto (.inCall c p)) :=
  (h.modify huid hf).goto (pcOk_free (hc.modify huid) hp)

theorem RegistryInv.modify_returns (h : RegistryInv s) (hc : CallOk s c) {running : Bool}
    (huid : ∀ d, (f d).uid = d.uid)
    (hf : ∀ d, s.daemons[c.entry]? = some d → EntryOk s.procs d → EntryOk s.procs (f d)) :
    RegistryInv ((s.modify c.entry f).returns c running) :=
  (h.modify huid hf).returns (hc.modify huid) running

theorem EntryOk.reset {procs : ℕ → Option ℕ} {d : DaemonInfo} (h : EntryOk procs d) :
    EntryOk procs d.reset := ⟨h.socket, fun pid hpid => by simp [DaemonInfo.reset] at hpid⟩

theorem EntryOk.setState {procs : ℕ → Option ℕ} {d : DaemonInfo} (h : EntryOk procs d)
    (state : DaemonState) : EntryOk procs { d with state := state } := ⟨h.socket, h.held⟩

theorem RegistryInv.signal (h : RegistryInv s) {uid pid : ℕ} (hpid : BelongsTo s.procs pid uid) :
    RegistryInv (s.signal uid pid) := by
  unfold Registry.signal
  split
  · next owner howner =>
    refine ⟨h.entries, ⟨h.apart.forwarded, fun m hm => ?_⟩, ⟨h.pc.call, h.pc.held⟩⟩
    rcases List.mem_append.mp hm with hold | hnew
    · exact h.apart.signals m hold
    · obtain rfl := List.mem_singleton.mp hnew
      exact hpid owner howner
  · exact h

theorem CallOk.signal (hc : CallOk s c) (uid pid : ℕ) : CallOk (s.signal uid pid) c := by
  unfold Registry.signal
  split <;> exact hc

@[simp] theorem procs_signal (uid pid : ℕ) : (s.signal uid pid).procs = s.procs := by
  unfold Registry.signal
  split <;> rfl

end Moves

/-! ### Every step keeps the invariant -/

section Steps

variable {s : Registry} {c : Call} {d : DaemonInfo} {a : Answers}

theorem mem_holders_of_entry {pid : ℕ} (hd : d ∈ s.daemons) (hpid : pid ∈ d.pid) :
    (pid, d.uid) ∈ s.holders := by
  refine List.mem_append_left _ (List.mem_filterMap.mpr ⟨d, hd, ?_⟩)
  rw [Option.mem_def.mp hpid, Option.map_some]

theorem mem_holders_of_point {pid : ℕ} (hpc : s.pc = .inCall c p) (hpid : pid ∈ p.held) :
    (pid, c.uid) ∈ s.holders := by
  refine List.mem_append_right _ ?_
  simp [hpc, Option.mem_def.mp hpid]

/-- **A process that ends, begins or changes its owner** leaves what is held alone. -/
theorem RegistryInv.process (h : RegistryInv s) {pid : ℕ} {owner : Option ℕ}
    (hheld : ∀ x ∈ s.holders, x.1 = pid → owner = none ∨ owner = some x.2) :
    RegistryInv { s with procs := Function.update s.procs pid owner } := by
  have hkeep : ∀ pid' uid, (pid', uid) ∈ s.holders → BelongsTo s.procs pid' uid →
      BelongsTo (Function.update s.procs pid owner) pid' uid := by
    intro pid' uid hmem hold o ho
    by_cases hp : pid' = pid
    · rw [hp, Function.update_self] at ho
      rcases hheld _ hmem hp with hnone | hsome
      · simp [hnone] at ho
      · rw [hsome] at ho
        exact (Option.some.inj ho).symm
    · rw [Function.update_of_ne hp] at ho
      exact hold o ho
  refine ⟨fun d hd => ⟨(h.entries d hd).socket, fun pid' hpid => ?_⟩,
    ⟨h.apart.forwarded, h.apart.signals⟩, ⟨h.pc.call, fun c p hpc pid' hpid => ?_⟩⟩
  · exact hkeep _ _ (mem_holders_of_entry hd hpid) ((h.entries d hd).held pid' hpid)
  · exact hkeep _ _ (mem_holders_of_point hpc hpid) (h.pc.held c p hpc pid' hpid)

theorem RegistryInv.ensure (h : RegistryInv s) (hc : CallOk s c) (d : DaemonInfo) (a : Answers) :
    RegistryInv (s.ensure c d a) := by
  unfold Registry.ensure
  split
  · simp only
    split_ifs
    · exact h.returns hc true
    · refine h.modify_goto hc ?_ rfl fun d _ hok => ?_
      · exact fun _ => rfl
      · exact hok.setState .dead
  · exact h.returns hc false
  · exact h.goto (pcOk_free hc rfl)

/-- **An adoption keeps the invariant if the file tells the truth.** -/
theorem RegistryInv.tryAdoptFromDiscovery (h : RegistryInv s) (hpc : s.pc = .inCall c .adopt)
    (hhonest : DiscoveryHonest s a) : RegistryInv (s.tryAdoptFromDiscovery c a) := by
  have hc := h.pc.call c .adopt hpc
  have hown : ∀ d, s.daemons[c.entry]? = some d → d.uid = c.uid := by
    obtain ⟨d', hd', huid⟩ := hc
    intro d hd
    rw [hd', Option.some.injEq] at hd
    exact hd ▸ huid
  unfold Registry.tryAdoptFromDiscovery
  cases hfile : a.discovery with
  | none => exact h.goto (pcOk_free hc rfl)
  | some file =>
    simp only [DiscoveryHonest, hpc, hfile] at hhonest ⊢
    cases hsock : discoverySocket (cstr (file.take 1023)) with
    | none =>
      refine h.modify_goto hc ?_ rfl fun d _ hok => hok.reset
      exact fun _ => rfl
    | some path =>
      obtain ⟨hpath, hpid⟩ := hhonest path hsock
      -- an adoption that fails has stored the path all the same
      have hstore : RegistryInv ((s.modify c.entry fun d =>
          { d with socketPath := path }.reset).goto (.inCall c .detect)) := by
        refine h.modify_goto hc ?_ rfl fun d hd _ => ?_
        · exact fun _ => rfl
        · exact ⟨(hown d hd).symm ▸ hpath, fun pid hpid => by simp [DaemonInfo.reset] at hpid⟩
      cases hp : discoveryPid (cstr (file.take 1023)) with
      | none => exact hstore
      | some pid =>
        simp only
        split_ifs with halive
        · have hbelongs := hpid (Bool.and_eq_true _ _ ▸ halive).2 pid hp
          refine h.modify_returns hc ?_ fun d hd _ => ?_
          · exact fun _ => rfl
          · refine ⟨(hown d hd).symm ▸ hpath, fun pid' hpid' => ?_⟩
            obtain rfl : pid = pid' := by simpa using hpid'
            exact (hown d hd).symm ▸ hbelongs
        · exact hstore

theorem RegistryInv.detectLockHolderPid (h : RegistryInv s) (hc : CallOk s c) (a : Answers) :
    RegistryInv (s.detectLockHolderPid c a) := by
  unfold Registry.detectLockHolderPid
  split
  · split_ifs
    · exact h.goto (pcOk_free hc rfl)
    · exact h.goto (pcOk_free hc rfl)
  · exact h.goto (pcOk_free hc rfl)

theorem RegistryInv.spawn (h : RegistryInv s) (hpc : s.pc = .inCall c .spawn)
    (hfresh : ForkFresh s a) : RegistryInv (s.spawn c a) := by
  have hc := h.pc.call c .spawn hpc
  unfold Registry.spawn
  split_ifs with hdir hsudo hsystemctl hready
  · exact h.returns hc false
  · exact h.returns hc false
  · refine h.modify_returns hc ?_ fun d _ hok => hok.reset
    exact fun _ => rfl
  · refine h.modify_returns hc ?_ fun d _ hok => ?_
    · exact fun _ => rfl
    · exact ⟨hok.socket, fun pid hpid => by simp at hpid⟩
  · cases hfork : a.fork with
    | none =>
      refine h.modify_returns hc ?_ fun d _ hok => hok.setState .starting
      exact fun _ => rfl
    | some pid =>
      simp only [ForkFresh, hpc, hfork] at hfresh
      have hnew : ∀ x ∈ s.holders, x.1 = pid → some c.uid = none ∨ some c.uid = some x.2 :=
        fun x hx hp => Or.inr (congrArg some
          (hfresh (by simpa using hdir) (by simpa using hsudo) x hx hp).symm)
      have hproc := h.process hnew
      have hself : BelongsTo (Function.update s.procs pid (some c.uid)) pid c.uid := fun o ho => by
        rw [Function.update_self] at ho
        exact (Option.some.inj ho).symm
      obtain ⟨d', hd', huid⟩ := hc
      have hkeep : ∀ d : DaemonInfo, { d with pid := some pid, state := .starting }.uid = d.uid :=
        fun _ => rfl
      have hcall : CallOk { s with procs := Function.update s.procs pid (some c.uid) } c :=
        ⟨d', hd', huid⟩
      refine (hproc.modify hkeep fun d hd hok => ?_).goto
        (pcOk_inCall (hcall.modify hkeep) fun pid' hpid' => ?_)
      · refine ⟨hok.socket, fun pid' hpid' => ?_⟩
        obtain rfl : pid = pid' := by simpa using hpid'
        obtain rfl : d' = d := Option.some.inj (hd'.symm.trans hd)
        exact huid.symm ▸ hself
      · obtain rfl : pid = pid' := by simpa [Point.held] using hpid'
        exact hself

/-- **A request goes to the socket of its user's entry.** -/
theorem RegistryInv.startSpliceProxy (h : RegistryInv s) (hc : CallOk s c)
    (hd : s.daemons[c.entry]? = some d) (a : Answers) :
    RegistryInv (s.startSpliceProxy c d a) := by
  have huid : d.uid = c.uid := by
    obtain ⟨d', hd', huid⟩ := hc
    exact Option.some.inj (hd'.symm.trans hd) ▸ huid
  have hsocket := (h.entries d (List.mem_of_getElem? hd)).socket
  have hkeep : ∀ d : DaemonInfo, { d with state := .dead }.uid = d.uid := fun _ => rfl
  have hdead := h.modify (i := c.entry) hkeep fun d _ hok => hok.setState .dead
  unfold Registry.startSpliceProxy
  split
  · exact h.goto pcOk_idle
  · split_ifs
    · refine ⟨h.entries, ⟨fun m hm => ?_, h.apart.signals⟩, pcOk_idle⟩
      rcases List.mem_append.mp hm with hold | hnew
      · exact h.apart.forwarded m hold
      · obtain rfl := List.mem_singleton.mp hnew
        exact huid ▸ hsocket
    · exact hdead.goto pcOk_idle
    · have hretry : ∀ cont, CallOk (s.modify c.entry fun d => { d with state := .dead })
          { c with cont := cont } := fun _ => hc.modify hkeep
      exact hdead.goto (pcOk_free (hretry _) rfl)

/-- **Every step of a call keeps the invariant.** -/
theorem RegistryInv.advanceCall (h : RegistryInv s) (hpc : s.pc = .inCall c p)
    (hd : s.daemons[c.entry]? = some d) (hhonest : DiscoveryHonest s a) (hfresh : ForkFresh s a) :
    RegistryInv (s.advanceCall c d a p) := by
  have hc := h.pc.call c p hpc
  have hheld := h.pc.held c p hpc
  cases p with
  | ensure => exact h.ensure hc d a
  | adopt => exact h.tryAdoptFromDiscovery hpc hhonest
  | detect => exact h.detectLockHolderPid hc a
  | check pid =>
    simp only [Registry.advanceCall]
    split_ifs with howner
    · -- the owner was looked up a moment ago
      refine h.goto (pcOk_inCall hc fun pid' hpid' o ho => ?_)
      obtain rfl : pid = pid' := by simpa [Point.held] using hpid'
      exact Option.some.inj (ho.symm.trans howner)
    · exact h.goto (pcOk_free hc rfl)
  | term pid =>
    have hpid := hheld pid rfl
    simp only [Registry.advanceCall]
    split_ifs
    · refine (h.signal hpid).goto (pcOk_inCall (hc.signal _ _) fun pid' hpid' => ?_)
      obtain rfl : pid = pid' := by simpa [Point.held] using hpid'
      rwa [procs_signal]
    · exact h.goto (pcOk_free hc rfl)
  | poll pid =>
    simp only [Registry.advanceCall]
    split_ifs
    · exact h.goto (pcOk_free hc rfl)
    · exact (h.signal (hheld pid rfl)).goto (pcOk_free (hc.signal _ _) rfl)
  | spawn => exact h.spawn hpc hfresh
  | wait pid =>
    simp only [Registry.advanceCall]
    split_ifs
    · refine h.modify_returns hc ?_ fun d _ hok => hok.setState .ready
      exact fun _ => rfl
    · have hkeep : ∀ d : DaemonInfo, d.reset.uid = d.uid := fun _ => rfl
      exact (h.modify hkeep fun d _ hok => hok.reset).goto (pcOk_inCall (hc.modify hkeep) hheld)
  | abort pid => exact (h.signal (hheld pid rfl)).returns (hc.signal _ _) false
  | splice => exact h.startSpliceProxy hc hd a

theorem RegistryInv.advance (h : RegistryInv s) (hhonest : DiscoveryHonest s a)
    (hfresh : ForkFresh s a) : RegistryInv (s.advance a) := by
  unfold Registry.advance
  split
  · next c p hpc =>
    split
    · next d hd => exact h.advanceCall hpc hd hhonest hfresh
    · exact h.goto pcOk_idle
  · split
    · next d hd =>
      split
      · next pid hpid =>
        have hbelongs := (h.entries d (List.mem_of_getElem? hd)).held pid hpid
        exact (h.signal hbelongs).goto (pcOk_shutdown _)
      · exact h.goto (pcOk_shutdown _)
    · exact h.goto pcOk_stopped
  · exact h

theorem RegistryInv.create (h : RegistryInv s) {uid : ℕ} {dirs : RuntimeDirs}
    (hdirs : dirs.runUser = true ∨ dirs.xdg = none) :
    RegistryInv { s with daemons := s.daemons ++ [.create uid dirs] } := by
  refine ⟨fun d hd => ?_, ⟨h.apart.forwarded, h.apart.signals⟩, ⟨fun c p hpc => ?_, h.pc.held⟩⟩
  · rcases List.mem_append.mp hd with hold | hnew
    · exact h.entries d hold
    · obtain rfl := List.mem_singleton.mp hnew
      exact ⟨liesIn_create hdirs, fun pid hpid => by simp [DaemonInfo.create] at hpid⟩
  · obtain ⟨d, hd, huid⟩ := h.pc.call c p hpc
    refine ⟨d, ?_, huid⟩
    rw [List.getElem?_append_left ((List.getElem?_eq_some_iff.mp hd).1)]
    exact hd

theorem RegistryInv.findOrCreateDaemon (h : RegistryInv s) {r : DaemonRequest} {username : Bytes}
    (hdirs : r.dirs.runUser = true ∨ r.dirs.xdg = none) {i : ℕ} {s' : Registry}
    (hfind : s.findOrCreateDaemon r username = some (i, s')) : RegistryInv s' := by
  obtain ⟨pw, -, hfind⟩ := Option.bind_eq_some_iff.mp hfind
  split at hfind
  · obtain ⟨-, rfl⟩ := Prod.mk.inj (Option.some.inj hfind)
    exact h
  · split at hfind
    · simp at hfind
    · obtain ⟨-, rfl⟩ := Prod.mk.inj (Option.some.inj hfind)
      exact h.create hdirs

theorem RegistryInv.dispatch (h : RegistryInv s) {r : DaemonRequest}
    (hdirs : r.dirs.runUser = true ∨ r.dirs.xdg = none) : RegistryInv (s.dispatch r) := by
  unfold Registry.dispatch
  split
  · next req username uid _ =>
    split
    · exact h
    · next i s' hfind =>
      have h' := h.findOrCreateDaemon hdirs hfind
      split
      · exact h'
      · next d hd =>
        split
        · exact h'
        · next huid => exact h'.goto (pcOk_free ⟨d, hd, not_not.mp huid⟩ rfl)
  · exact h

/-- **Every step that meets the condition keeps the invariant.** -/
theorem RegistryInv.step (h : RegistryInv s) {e : RegistryEvent} (ht : Trustworthy s e) :
    RegistryInv (registryStep s e) := by
  cases e with
  | request r =>
    simp only [registryStep]
    split_ifs
    · exact h.dispatch ht
    · exact h
  | advance a => exact h.advance ht.1 ht.2
  | sigchld pid =>
    refine ⟨fun d hd => ?_, ⟨h.apart.forwarded, h.apart.signals⟩, ⟨fun c p hpc => ?_, h.pc.held⟩⟩
    · obtain ⟨d', hd', rfl⟩ := List.mem_map.mp hd
      have hok := h.entries d' hd'
      split_ifs
      · exact ⟨hok.socket, fun pid hpid => by simp at hpid⟩
      · exact hok
    · obtain ⟨d, hd, huid⟩ := h.pc.call c p hpc
      refine ⟨if d.pid = some pid then { d with pid := none, state := .dead } else d, ?_, ?_⟩
      · simp only [registryStep, List.getElem?_map, hd, Option.map_some]
      · split_ifs <;> exact huid
  | hangup i =>
    simp only [registryStep]
    split_ifs
    · refine h.modify (fun d => ?_) fun d _ hok => ?_
      · split_ifs <;> rfl
      · split_ifs
        · exact ⟨hok.socket, hok.held⟩
        · exact hok
    · exact h
  | sigterm =>
    simp only [registryStep]
    split_ifs
    · exact h.goto (pcOk_shutdown 0)
    · exact h
  | process pid owner => exact h.process ht

end Steps

/-- **Users are kept apart** in every run in which every runtime directory is its user's own,
every `daemon.json` that is read names a socket in it and, if it is adopted, a process of the
user, and no pid that is held for a user goes to the process of another. -/
theorem users_kept_apart (procs : ℕ → Option ℕ) (events : List RegistryEvent)
    (h : Meets registryStep Trustworthy (.init procs) events) :
    KeepsApart (registryAfter procs events) :=
  (h.invariant RegistryInv (.init procs) fun _ _ hinv ht => hinv.step ht).apart

section Sample

theorem routeCompleteRequest_of {env : Env} {routes : List WebRoute} {buf : Bytes}
    {req : HttpRequest} {e : Endpoint} {action : Action}
    (hparse : parseRequest env.forceSecure buf = some req)
    (hendpoint : endpoint routes req = e) (haction : e.action env req buf = action) :
    routeCompleteRequest env routes buf = some (req, action) := by
  rw [routeCompleteRequest, hparse, Option.map_some, hendpoint, haction]

theorem action_daemon {env : Env} {req : HttpRequest} {buf username : Bytes} {uid : ℕ}
    (h : cookieUser env req.cookie = some (username, uid)) :
    Endpoint.daemon.action env req buf = .daemon username uid := by
  simp only [Endpoint.action, h]

theorem step_request {s s' : Registry} {r : DaemonRequest} {req : HttpRequest}
    {username : Bytes} {i : ℕ} {d : DaemonInfo} (hidle : s.pc = .idle)
    (hread : routeCompleteRequest r.env r.routes r.buf = some (req, .daemon username d.uid))
    (hfind : s.findOrCreateDaemon r username = some (i, s')) (hentry : s'.daemons[i]? = some d)
    (hpage : isPageRequest req.path = false) :
    registryStep s (.request r) = s'.goto (.inCall ⟨i, d.uid, .proxy false r.buf⟩ .ensure) := by
  simp only [registryStep, hidle, if_true, Registry.dispatch, hread, hfind, hentry, ne_eq,
    not_true_eq_false, if_false, hpage, Bool.and_false, Bool.false_eq_true]

def sampleDaemonRequest : DaemonRequest where
  env := ⟨sampleHmac, sampleUsers, 1700086400, false, []⟩
  routes := []
  buf := lit "GET /file HTTP/1.1\r\nCookie: oc_jwt=" ++
    loginToken sampleHmac (lit "bob") 1700000000 ++ blankLine
  dirs := ⟨true, none⟩

/-- A system on which `init` runs and one process of the sample user. -/
def sampleProcs (pid : ℕ) : Option ℕ :=
  if pid = 1 then some 0 else if pid = 300 then some 1000 else none

def sampleAnswers (discovery : Bytes) : Answers where
  connects := true
  discovery := some discovery
  lock := none
  gone := false
  parentDir := true
  sudoer := false
  systemctl := false
  fork := none
  ready := false
  splices := true

/-- A request finds no daemon, adopts the one of the file and is passed to it; then the
gateway ends. -/
def sampleAdoption (discovery : Bytes) : List RegistryEvent :=
  let advance : RegistryEvent := .advance (sampleAnswers discovery)
  [.request sampleDaemonRequest, advance, advance, advance, .sigterm, advance, advance]

def sampleHttpRequest : HttpRequest where
  method := lit "GET"
  path := lit "/file"
  cookie := lit "oc_jwt=" ++ loginToken sampleHmac (lit "bob") 1700000000
  body := []
  isSecure := false

theorem jwtCookie_sample : jwtCookie sampleHttpRequest.cookie =
    some (loginToken sampleHmac (lit "bob") 1700000000) := by
  rw [jwtCookie, sampleHttpRequest, loginToken_sample, sampleMessage]
  repeat rw [lit_ofList]
  decide +kernel

theorem sampleDaemonRequest_read :
    routeCompleteRequest sampleDaemonRequest.env sampleDaemonRequest.routes
      sampleDaemonRequest.buf = some (sampleHttpRequest, .daemon (lit "bob") 1000) := by
  refine routeCompleteRequest_of (e := .daemon) ?_ ?_ (action_daemon ?_)
  · rw [parseRequest, sampleDaemonRequest, sampleHttpRequest, loginToken_sample, sampleMessage]
    repeat rw [lit_ofList]
    decide +kernel
  · show endpoint [] sampleHttpRequest = .daemon
    unfold endpoint HttpRequest.isAt
    rw [jwtCookie_sample, sampleHttpRequest]
    repeat rw [lit_ofList]
    decide +kernel
  · rw [cookieUser, jwtCookie_sample, Option.bind_some]
    exact jwtVerify_sample

theorem sampleDaemonRequest_step :
    registryStep (.init sampleProcs) (.request sampleDaemonRequest) =
      { Registry.init sampleProcs with
        daemons := [.create 1000 ⟨true, none⟩]
        pc := .inCall ⟨0, 1000, .proxy false sampleDaemonRequest.buf⟩ .ensure } := by
  have huser : sampleDaemonRequest.env.getpwnam (lit "bob") = some sampleUser := by
    show sampleUsers (lit "bob") = some sampleUser
    exact if_pos rfl
  have hfind : (Registry.init sampleProcs).findOrCreateDaemon sampleDaemonRequest (lit "bob") =
      some (0, { Registry.init sampleProcs with daemons := [.create 1000 ⟨true, none⟩] }) := by
    rw [Registry.findOrCreateDaemon, huser]
    rfl
  have hpage : isPageRequest sampleHttpRequest.path = false := by
    rw [isPageRequest, sampleHttpRequest]
    repeat rw [lit_ofList]
    rfl
  exact step_request rfl (d := .create 1000 ⟨true, none⟩) sampleDaemonRequest_read hfind rfl hpage

/-- Users are kept apart when the file names the user's own socket and process. -/
theorem users_kept_apart_sample :
    KeepsApart (registryAfter sampleProcs (sampleAdoption
      (lit "\x7b\"socketPath\":\"/run/user/1000/opencode/daemon.sock\",\"pid\":300\x7d"))) := by
  refine users_kept_apart sampleProcs _ ⟨Or.inl rfl, ?_⟩
  rw [sampleDaemonRequest_step, lit_ofList]
  decide

theorem sampleAdoption_trusted :
    let s := registryAfter sampleProcs (sampleAdoption
      (lit "\x7b\"socketPath\":\"/run/user/1001/opencode/daemon.sock\",\"pid\":1\x7d"))
    s.forwarded = [⟨1000, lit "/run/user/1001/opencode/daemon.sock", sampleDaemonRequest.buf⟩] ∧
      s.signals = [⟨1000, 1, 0⟩] := by
  rw [sampleAdoption, registryAfter, run_cons, sampleDaemonRequest_step, sampleDaemonRequest,
    loginToken_sample, sampleMessage]
  repeat rw [lit_ofList]
  decide +kernel

/-- **What the file says is believed**: the user who writes it has their requests passed to
the socket of another user and, when the gateway ends, a process of root ended. -/
theorem discovery_is_trusted :
    let s := registryAfter sampleProcs (sampleAdoption
      (lit "\x7b\"socketPath\":\"/run/user/1001/opencode/daemon.sock\",\"pid\":1\x7d"))
    (s.forwarded = [⟨1000, lit "/run/user/1001/opencode/daemon.sock", sampleDaemonRequest.buf⟩] ∧
      s.signals = [⟨1000, 1, 0⟩]) ∧
      ¬∀ procs events, KeepsApart (registryAfter procs events) := by
  refine ⟨sampleAdoption_trusted, fun h => ?_⟩
  obtain ⟨-, hsignals⟩ := sampleAdoption_trusted
  have hroot := (h sampleProcs _).signals _ (hsignals.symm ▸ List.mem_singleton_self _)
  exact absurd hroot (by decide)

end Sample

end OpenCms.Gateway
