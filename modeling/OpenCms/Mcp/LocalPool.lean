import OpenCms.Lib.JsString
import OpenCms.Lib.Runs

/-!
# The pool of local MCP children

Callers with the same key share one child. The first caller spawns it, those that come meanwhile
wait and look again when the spawn has settled, and the child is closed when the last of them has
closed it.

A caller that has waited and finds that another one is spawning again does not wait once more, but
spawns a child of its own. If that never happens, there is one child of a key at a time, and each
child is closed once, when its last caller has closed it (`OpenCms.LocalMcpPool.pool_sound`).
-/

namespace OpenCms.LocalMcpPool

/-! ### The pool -/

/-- `Entry`: the spawn it belongs to, its references, whether it has a resource with a client, and
whether `inflight` is set. -/
structure Entry where
  spawn : ℕ
  refs : ℤ
  client : Bool
  inflight : Bool
  deriving DecidableEq

/-- A caller that spawns, and whether the spawn has settled. -/
structure Spawn where
  key : JsString
  settled : Bool
  deriving DecidableEq

structure Waiter where
  key : JsString
  spawn : ℕ
  deriving DecidableEq

/-- A child: its key, the callers that got it and have not closed it, and how often it was really
closed. -/
structure Child where
  key : JsString
  holders : ℕ
  closed : ℕ
  deriving DecidableEq

inductive Outcome
  | failed
  | clientless
  | client
  deriving DecidableEq

/-- The entries, the calls in progress, and the children that were spawned. A resource has the name
of its spawn. -/
structure World where
  entries : JsString → Option Entry
  spawns : ℕ → Option Spawn
  waiters : ℕ → Option Waiter
  children : ℕ → Option Child
  next : ℕ

inductive Event
  | acquire (shareKey : JsString)
  | settle (id : ℕ) (outcome : Outcome)
  | resume (id : ℕ)
  | wake (id : ℕ)
  | close (id : ℕ)

namespace World

variable (world : World)

def updateOwn (key : JsString) (id : ℕ) (f : Entry → Entry) : JsString → Option Entry :=
  Function.update world.entries key
    ((world.entries key).map fun entry => if entry.spawn = id then f entry else entry)

def spawn (shareKey : JsString) : World :=
  { world with
    entries := Function.update world.entries shareKey (some ⟨world.next, 0, false, true⟩)
    spawns := Function.update world.spawns world.next (some ⟨shareKey, false⟩)
    next := world.next + 1 }

def share (shareKey : JsString) (entry : Entry) : World :=
  { world with
    entries := Function.update world.entries shareKey (some { entry with refs := entry.refs + 1 })
    children := Function.update world.children entry.spawn
      ((world.children entry.spawn).map fun child => { child with holders := child.holders + 1 }) }

/-- What a caller does that does not wait: the child is shared, or one is spawned. -/
def take (shareKey : JsString) : World :=
  match world.entries shareKey with
  | some entry => if entry.client then world.share shareKey entry else world.spawn shareKey
  | none => world.spawn shareKey

/-- `acquire`, as far as it goes at once. -/
def acquire (shareKey : JsString) : World :=
  match world.entries shareKey with
  | some entry =>
    if entry.inflight then
      { world with
        waiters := Function.update world.waiters world.next (some ⟨shareKey, entry.spawn⟩)
        next := world.next + 1 }
    else world.take shareKey
  | none => world.take shareKey

def settle (id : ℕ) (spawn : Spawn) (outcome : Outcome) : World :=
  let spawns := Function.update world.spawns id (some { spawn with settled := true })
  match outcome with
  | .client =>
    { world with
      entries := world.updateOwn spawn.key id fun entry => { entry with client := true, refs := 1 }
      spawns := spawns
      children := Function.update world.children id (some ⟨spawn.key, 1, 0⟩) }
  | _ => { world with entries := Function.update world.entries spawn.key none, spawns := spawns }

def resume (id : ℕ) (spawn : Spawn) : World :=
  { world with
    entries := world.updateOwn spawn.key id fun entry => { entry with inflight := false }
    spawns := Function.update world.spawns id none }

def close (id : ℕ) (child : Child) : World :=
  let closed (entries : JsString → Option Entry) : World :=
    { world with
      entries := entries
      children := Function.update world.children id
        (some { child with holders := child.holders - 1, closed := child.closed + 1 }) }
  match world.entries child.key with
  | some cur =>
    if cur.client && cur.spawn = id then
      if cur.refs - 1 ≤ 0 then closed (Function.update world.entries child.key none)
      else
        { world with
          entries := Function.update world.entries child.key (some { cur with refs := cur.refs - 1 })
          children := Function.update world.children id
            (some { child with holders := child.holders - 1 }) }
    else closed world.entries
  | none => closed world.entries

/-- The callers of a child that can close it: the one that spawned it has to go on first. -/
def closers (id : ℕ) (child : Child) : ℕ :=
  child.holders - if (world.spawns id).isSome then 1 else 0

def step : Event → World
  | .acquire shareKey => world.acquire shareKey
  | .settle id outcome =>
    match world.spawns id with
    | some spawn => if spawn.settled then world else world.settle id spawn outcome
    | none => world
  | .resume id =>
    match world.spawns id with
    | some spawn => if spawn.settled then world.resume id spawn else world
    | none => world
  | .wake id =>
    match world.waiters id with
    | some waiter =>
      if (world.spawns waiter.spawn).all Spawn.settled then
        World.take { world with waiters := Function.update world.waiters id none } waiter.key
      else world
    | none => world
  | .close id =>
    match world.children id with
    | some child => if world.closers id child = 0 then world else world.close id child
    | none => world

end World

def World.init : World := ⟨fun _ => none, fun _ => none, fun _ => none, fun _ => none, 0⟩

/-- A child is closed once, when the last of its callers has closed it, and not before; and there is
one child of a key at a time. -/
structure Sound (world : World) : Prop where
  closed : ∀ id child, world.children id = some child →
    child.closed = if child.holders = 0 then 1 else 0
  one : ∀ id id' child child', world.children id = some child → world.children id' = some child' →
    child.closed = 0 → child'.closed = 0 → child.key = child'.key → id = id'

/-- What an event must meet: a caller that has waited finds no other spawn. -/
def Alone (world : World) : Event → Prop
  | .wake id => ∀ waiter ∈ world.waiters id, ∀ entry ∈ world.entries waiter.key,
    (world.spawns waiter.spawn).all Spawn.settled = true → entry.client = true
  | _ => True

instance (world : World) : (event : Event) → Decidable (Alone world event)
  | .wake id => inferInstanceAs (Decidable (∀ waiter ∈ world.waiters id,
    ∀ entry ∈ world.entries waiter.key,
      (world.spawns waiter.spawn).all Spawn.settled = true → entry.client = true))
  | .acquire _ => isTrue trivial
  | .settle _ _ => isTrue trivial
  | .resume _ => isTrue trivial
  | .close _ => isTrue trivial

/-! ### One step -/

/-- What every run keeps: an entry without a client belongs to the one spawn of its key that has not
settled, and an entry with a client to the one child of its key that is not closed, which has as
many callers as the entry has references. -/
structure Inv (world : World) : Prop where
  fresh : ∀ id, world.next ≤ id → world.spawns id = none ∧ world.children id = none
  inFlight : ∀ key entry, world.entries key = some entry → entry.client = false →
    entry.inflight = true ∧ world.spawns entry.spawn = some ⟨key, false⟩
  shared : ∀ key entry, world.entries key = some entry → entry.client = true →
    ∃ holders : ℕ, world.children entry.spawn = some ⟨key, holders, 0⟩ ∧ 0 < holders ∧
      entry.refs = holders
  spawning : ∀ id key, world.spawns id = some ⟨key, false⟩ → world.children id = none ∧
    ∃ entry, world.entries key = some entry ∧ entry.spawn = id ∧ entry.client = false
  alive : ∀ id child, world.children id = some child → (child.closed = 1 ∧ child.holders = 0) ∨
    child.closed = 0 ∧ 0 < child.holders ∧
      ∃ entry, world.entries child.key = some entry ∧ entry.spawn = id ∧ entry.client = true

section Step

variable {world : World} {key : JsString} {id : ℕ} {entry : Entry} {child : Child}
  {outcome : Outcome}

theorem Inv.lt_of_spawns (h : Inv world) {spawn : Spawn} (hspawn : world.spawns id = some spawn) :
    id < world.next := by
  by_contra hle
  rw [(h.fresh id (not_lt.mp hle)).1] at hspawn
  cases hspawn

theorem Inv.lt_of_children (h : Inv world) (hchild : world.children id = some child) :
    id < world.next := by
  by_contra hle
  rw [(h.fresh id (not_lt.mp hle)).2] at hchild
  cases hchild

theorem Inv.withWaiters (h : Inv world) {waiters : ℕ → Option Waiter} {next : ℕ}
    (hle : world.next ≤ next) : Inv { world with waiters := waiters, next := next } :=
  ⟨fun id hid => h.fresh id (hle.trans hid), h.inFlight, h.shared, h.spawning, h.alive⟩

/-- What every run keeps, of a key and the one spawn that its entry can belong to. -/
structure Fits (world : World) (key : JsString) (id : ℕ) : Prop where
  own : ∀ entry, world.entries key = some entry → entry.spawn = id
  inFlight : ∀ entry, world.entries key = some entry → entry.client = false →
    entry.inflight = true ∧ world.spawns id = some ⟨key, false⟩
  shared : ∀ entry, world.entries key = some entry → entry.client = true →
    ∃ holders : ℕ, world.children id = some ⟨key, holders, 0⟩ ∧ 0 < holders ∧ entry.refs = holders
  spawning : ∀ key', world.spawns id = some ⟨key', false⟩ →
    key' = key ∧ world.children id = none ∧
      ∃ entry, world.entries key = some entry ∧ entry.client = false
  alive : ∀ child, world.children id = some child → (child.closed = 1 ∧ child.holders = 0) ∨
    child.key = key ∧ child.closed = 0 ∧ 0 < child.holders ∧
      ∃ entry, world.entries key = some entry ∧ entry.client = true

theorem Inv.fits (h : Inv world) (hentry : world.entries key = some entry) :
    Fits world key entry.spawn := by
  have hown : ∀ other, world.entries key = some other → other = entry :=
    fun other hother => Option.some.inj (hother.symm.trans hentry)
  refine ⟨fun other hother => by rw [hown other hother], fun other hother hclient => ?_,
    fun other hother hclient => ?_, fun key' hspawn => ?_, fun child hchild => ?_⟩
  · obtain rfl := hown other hother
    exact h.inFlight key other hother hclient
  · obtain rfl := hown other hother
    exact h.shared key other hother hclient
  · obtain ⟨hnone, -⟩ := h.spawning entry.spawn key' hspawn
    rcases hclient : entry.client with _ | _
    · have hsame := (h.inFlight key entry hentry hclient).2
      rw [hspawn] at hsame
      exact ⟨congrArg Spawn.key (Option.some.inj hsame), hnone, entry, hentry, hclient⟩
    · obtain ⟨holders, hchild, -⟩ := h.shared key entry hentry hclient
      rw [hnone] at hchild
      cases hchild
  · refine (h.alive entry.spawn child hchild).imp_right ?_
    rintro ⟨hclosed, hholders, -⟩
    rcases hclient : entry.client with _ | _
    · have hnone := (h.spawning _ key (h.inFlight key entry hentry hclient).2).1
      rw [hchild] at hnone
      cases hnone
    · obtain ⟨holders, hsame, -⟩ := h.shared key entry hentry hclient
      rw [hchild] at hsame
      exact ⟨congrArg Child.key (Option.some.inj hsame), hclosed, hholders, entry, hentry, hclient⟩

/-- **What changes of a key and its spawn** keeps what every run keeps, if it is kept of them. -/
theorem Inv.update (h : Inv world) {world' : World} (hfits : Fits world key id)
    (hfits' : Fits world' key id) (hnext : world.next ≤ world'.next) (hid : id < world'.next)
    (hentries : ∀ key' ≠ key, world'.entries key' = world.entries key')
    (hspawns : ∀ id' ≠ id, world'.spawns id' = world.spawns id')
    (hchildren : ∀ id' ≠ id, world'.children id' = world.children id') : Inv world' := by
  -- the entries of other keys belong to other spawns
  have hother : ∀ key' other, key' ≠ key → world.entries key' = some other → other.spawn ≠ id := by
    rintro key' other hne hentry rfl
    rcases hclient : other.client with _ | _
    · exact hne (hfits.spawning key' (h.inFlight key' other hentry hclient).2).1
    · obtain ⟨holders, hchild, -⟩ := h.shared key' other hentry hclient
      rcases hfits.alive _ hchild with ⟨hclosed, -⟩ | ⟨hkey, -⟩
      · cases hclosed
      · exact hne hkey
  have hkey : ∀ key' other, world.entries key' = some other → other.spawn ≠ id → key' ≠ key := by
    rintro key' other hentry hne rfl
    exact hne (hfits.own other hentry)
  refine ⟨fun id' hle => ?_, fun key' other hentry hclient => ?_,
    fun key' other hentry hclient => ?_, fun id' key' hspawn => ?_, fun id' child hchild => ?_⟩
  · rw [hspawns id' (by omega), hchildren id' (by omega)]
    exact h.fresh id' (hnext.trans hle)
  · rcases eq_or_ne key' key with rfl | hne
    · rw [hfits'.own other hentry]
      exact hfits'.inFlight other hentry hclient
    · rw [hentries key' hne] at hentry
      rw [hspawns _ (hother key' other hne hentry)]
      exact h.inFlight key' other hentry hclient
  · rcases eq_or_ne key' key with rfl | hne
    · rw [hfits'.own other hentry]
      exact hfits'.shared other hentry hclient
    · rw [hentries key' hne] at hentry
      rw [hchildren _ (hother key' other hne hentry)]
      exact h.shared key' other hentry hclient
  · rcases eq_or_ne id' id with rfl | hne
    · obtain ⟨rfl, hnone, other, hentry, hclient⟩ := hfits'.spawning key' hspawn
      exact ⟨hnone, other, hentry, hfits'.own other hentry, hclient⟩
    · rw [hspawns id' hne] at hspawn
      obtain ⟨hnone, other, hentry, rfl, hclient⟩ := h.spawning id' key' hspawn
      rw [hchildren _ hne, hentries key' (hkey key' other hentry hne)]
      exact ⟨hnone, other, hentry, rfl, hclient⟩
  · rcases eq_or_ne id' id with rfl | hne
    · refine (hfits'.alive child hchild).imp_right ?_
      rintro ⟨hsame, hclosed, hholders, other, hentry, hclient⟩
      rw [hsame]
      exact ⟨hclosed, hholders, other, hentry, hfits'.own other hentry, hclient⟩
    · rw [hchildren id' hne] at hchild
      refine (h.alive id' child hchild).imp_right ?_
      rintro ⟨hclosed, hholders, other, hentry, rfl, hclient⟩
      rw [hentries _ (hkey _ other hentry hne)]
      exact ⟨hclosed, hholders, other, hentry, rfl, hclient⟩

theorem Fits.ofClient {holders : ℕ} (hentry : world.entries key = some entry)
    (hown : entry.spawn = id) (hclient : entry.client = true)
    (hchild : world.children id = some ⟨key, holders, 0⟩) (hholders : 0 < holders)
    (hrefs : entry.refs = holders) (hspawn : ∀ key', world.spawns id ≠ some ⟨key', false⟩) :
    Fits world key id where
  own other hother := by rwa [Option.some.inj (hother.symm.trans hentry)]
  inFlight other hother hnot := by
    obtain rfl := Option.some.inj (hother.symm.trans hentry)
    exact absurd (hnot.symm.trans hclient) Bool.false_ne_true
  shared other hother _ := by
    obtain rfl := Option.some.inj (hother.symm.trans hentry)
    exact ⟨holders, hchild, hholders, hrefs⟩
  spawning key' hspawn' := absurd hspawn' (hspawn key')
  alive child hother := by
    obtain rfl := Option.some.inj (hother.symm.trans hchild)
    exact Or.inr ⟨rfl, rfl, hholders, entry, hentry, hclient⟩

theorem Fits.ofNone (hnone : world.entries key = none)
    (hspawn : ∀ key', world.spawns id ≠ some ⟨key', false⟩)
    (hchild : ∀ child, world.children id = some child → child.closed = 1 ∧ child.holders = 0) :
    Fits world key id := by
  have hfalse : ∀ other, world.entries key ≠ some other := by simp [hnone]
  exact ⟨fun other hother => absurd hother (hfalse other),
    fun other hother => absurd hother (hfalse other),
    fun other hother => absurd hother (hfalse other), fun key' hother => absurd hother (hspawn key'),
    fun child hother => Or.inl (hchild child hother)⟩

theorem Inv.spawn (h : Inv world) (hnone : world.entries key = none) : Inv (world.spawn key) := by
  obtain ⟨hspawn, hchild⟩ := h.fresh world.next le_rfl
  have hfits : Fits world key world.next :=
    .ofNone hnone (by simp [hspawn]) (by simp [hchild])
  have hentry : (world.spawn key).entries key = some ⟨world.next, 0, false, true⟩ :=
    Function.update_self _ _ _
  have hspawn' : (world.spawn key).spawns world.next = some ⟨key, false⟩ :=
    Function.update_self _ _ _
  have hchild' : (world.spawn key).children world.next = none := hchild
  refine h.update hfits ?_ (Nat.le_succ _) (Nat.lt_succ_self _)
    (fun key' hne => Function.update_of_ne hne _ _) (fun id' hne => Function.update_of_ne hne _ _)
    fun id' _ => rfl
  refine ⟨?_, ?_, ?_, ?_, ?_⟩
  · simp [hentry]
  · simp [hentry, hspawn']
  · simp [hentry]
  · intro key' hother
    rw [hspawn'] at hother
    obtain rfl : key = key' := congrArg Spawn.key (Option.some.inj hother)
    exact ⟨rfl, hchild', _, hentry, rfl⟩
  · simp [hchild']

theorem Inv.settled (h : Inv world) (hchild : world.children id = some child) (key' : JsString) :
    world.spawns id ≠ some ⟨key', false⟩ := by
  intro hspawn
  rw [(h.spawning id key' hspawn).1] at hchild
  cases hchild

theorem Inv.share (h : Inv world) (hentry : world.entries key = some entry)
    (hclient : entry.client = true) : Inv (world.share key entry) := by
  obtain ⟨holders, hchild, hpositive, hrefs⟩ := h.shared key entry hentry hclient
  have hnew : (world.share key entry).children entry.spawn = some ⟨key, holders + 1, 0⟩ := by
    refine (Function.update_self _ _ _).trans ?_
    rw [hchild]
    rfl
  refine h.update (h.fits hentry) ?_ le_rfl (h.lt_of_children hchild)
    (fun key' hne => Function.update_of_ne hne _ _) (fun id' _ => rfl)
    fun id' hne => Function.update_of_ne hne _ _
  refine .ofClient (Function.update_self _ _ _) rfl hclient hnew (Nat.succ_pos holders) ?_
    (h.settled hchild)
  change entry.refs + 1 = _
  omega

theorem Inv.take (h : Inv world)
    (halone : ∀ entry ∈ world.entries key, entry.client = true) : Inv (world.take key) := by
  rw [World.take]
  rcases hentry : world.entries key with _ | entry
  · exact h.spawn hentry
  · have hclient := halone entry hentry
    dsimp only
    rw [if_pos hclient]
    exact h.share hentry hclient

theorem Inv.acquire (h : Inv world) : Inv (world.acquire key) := by
  rw [World.acquire]
  rcases hentry : world.entries key with _ | entry
  · refine h.take fun entry hsome => ?_
    rw [hentry] at hsome
    cases hsome
  · dsimp only
    split
    next => exact h.withWaiters (Nat.le_succ _)
    next hinflight =>
      refine h.take fun other hother => ?_
      obtain rfl := Option.some.inj (hentry.symm.trans hother)
      by_contra hclient
      exact hinflight (h.inFlight key entry hentry (Bool.eq_false_iff.mpr hclient)).1

theorem Inv.fail (h : Inv world) (hspawn : world.spawns id = some ⟨key, false⟩) :
    Inv { world with
      entries := Function.update world.entries key none
      spawns := Function.update world.spawns id (some ⟨key, true⟩) } := by
  obtain ⟨hnone, entry, hentry, rfl, -⟩ := h.spawning id key hspawn
  refine h.update (h.fits hentry) ?_ le_rfl (h.lt_of_spawns hspawn)
    (fun key' hne => Function.update_of_ne hne _ _) (fun id' hne => Function.update_of_ne hne _ _)
    fun id' _ => rfl
  exact .ofNone (Function.update_self _ _ _) (by simp) (by simp [hnone])

theorem Inv.succeed (h : Inv world) (hspawn : world.spawns id = some ⟨key, false⟩) :
    Inv (world.settle id ⟨key, false⟩ .client) := by
  obtain ⟨-, entry, hentry, rfl, -⟩ := h.spawning id key hspawn
  have hkey : (world.settle entry.spawn ⟨key, false⟩ .client).entries key =
      some { entry with client := true, refs := 1 } := by
    refine (Function.update_self _ _ _).trans ?_
    rw [hentry, Option.map_some, if_pos rfl]
  refine h.update (h.fits hentry) ?_ le_rfl (h.lt_of_spawns hspawn)
    (fun key' hne => Function.update_of_ne hne _ _) (fun id' hne => Function.update_of_ne hne _ _)
    fun id' hne => Function.update_of_ne hne _ _
  exact .ofClient hkey rfl rfl (Function.update_self _ _ _) Nat.one_pos rfl
    (by simp [World.settle])

theorem Inv.forget (h : Inv world) (hspawn : world.spawns id = some ⟨key, true⟩) :
    Inv { world with spawns := Function.update world.spawns id none } := by
  have hsame : ∀ {id' key'}, world.spawns id' = some ⟨key', false⟩ →
      Function.update world.spawns id none id' = some ⟨key', false⟩ := by
    intro id' key' hspawn'
    refine (Function.update_of_ne ?_ _ _).trans hspawn'
    rintro rfl
    rw [hspawn] at hspawn'
    cases hspawn'
  refine ⟨fun id' hid => ?_, fun key' entry hentry hclient => ?_, h.shared,
    fun id' key' hspawn' => ?_, h.alive⟩
  · have hlt := h.lt_of_spawns hspawn
    have hid : world.next ≤ id' := hid
    exact ⟨(Function.update_of_ne (by omega) _ _).trans (h.fresh id' hid).1, (h.fresh id' hid).2⟩
  · obtain ⟨hinflight, hspawn'⟩ := h.inFlight key' entry hentry hclient
    exact ⟨hinflight, hsame hspawn'⟩
  · change Function.update world.spawns id none id' = _ at hspawn'
    rw [Function.update_apply] at hspawn'
    split at hspawn'
    next => cases hspawn'
    next => exact h.spawning id' key' hspawn'

theorem Inv.resume (h : Inv world) (hspawn : world.spawns id = some ⟨key, true⟩) :
    Inv (world.resume id ⟨key, true⟩) := by
  have hforget := h.forget hspawn
  by_cases hown : ∃ entry, world.entries key = some entry ∧ entry.spawn = id
  · obtain ⟨entry, hentry, rfl⟩ := hown
    have hclient : entry.client = true := by
      by_contra hnot
      have hspawn' := (h.inFlight key entry hentry (Bool.eq_false_iff.mpr hnot)).2
      rw [hspawn] at hspawn'
      cases hspawn'
    obtain ⟨holders, hchild, hpositive, hrefs⟩ := h.shared key entry hentry hclient
    have hkey : (world.resume entry.spawn ⟨key, true⟩).entries key =
        some { entry with inflight := false } := by
      refine (Function.update_self _ _ _).trans ?_
      rw [hentry, Option.map_some, if_pos rfl]
    refine hforget.update (hforget.fits hentry) ?_ le_rfl (h.lt_of_spawns hspawn)
      (fun key' hne => Function.update_of_ne hne _ _) (fun id' _ => rfl) fun id' _ => rfl
    exact .ofClient hkey rfl hclient hchild hpositive hrefs (by simp [World.resume])
  · -- the entry of the key, if there is one, belongs to another spawn
    have hsame : world.updateOwn key id (fun entry => { entry with inflight := false }) =
        world.entries := by
      rw [World.updateOwn, Function.update_eq_self_iff]
      rcases hentry : world.entries key with _ | entry
      · rfl
      · rw [Option.map_some, if_neg fun hid => hown ⟨entry, hentry, hid⟩]
    rw [World.resume, hsame]
    exact hforget

theorem Inv.close (h : Inv world) (hchild : world.children id = some child)
    (hholders : 0 < child.holders) : Inv (world.close id child) := by
  obtain ⟨-, hzero⟩ | ⟨-, -, entry, hentry, rfl, hclient⟩ := h.alive id child hchild
  · omega
  obtain ⟨holders, hsome, -, hrefs⟩ := h.shared child.key entry hentry hclient
  obtain ⟨key, holders', closed⟩ := child
  obtain ⟨rfl, rfl⟩ : holders' = holders ∧ closed = 0 := by
    have heq := Option.some.inj (hchild.symm.trans hsome)
    exact ⟨congrArg Child.holders heq, congrArg Child.closed heq⟩
  have hown : (entry.client && decide (entry.spawn = entry.spawn)) = true := by
    rw [hclient, decide_eq_true rfl, Bool.true_and]
  rw [World.close]
  rw [hentry]
  dsimp only
  rw [if_pos hown]
  split
  next hlast =>
    refine h.update (h.fits hentry) (.ofNone (Function.update_self _ _ _) (h.settled hchild) ?_)
      le_rfl (h.lt_of_children hchild) (fun key' hne => Function.update_of_ne hne _ _)
      (fun id' _ => rfl) fun id' hne => Function.update_of_ne hne _ _
    intro child hlast'
    change Function.update world.children entry.spawn _ entry.spawn = some child at hlast'
    rw [Function.update_self] at hlast'
    obtain rfl := Option.some.inj hlast'
    exact ⟨rfl, show holders' - 1 = 0 by omega⟩
  next hmore =>
    refine h.update (h.fits hentry) (.ofClient (Function.update_self _ _ _) rfl hclient
      (Function.update_self _ _ _) (by omega : 0 < holders' - 1) ?_ (h.settled hchild)) le_rfl
      (h.lt_of_children hchild) (fun key' hne => Function.update_of_ne hne _ _) (fun id' _ => rfl)
      fun id' hne => Function.update_of_ne hne _ _
    change entry.refs - 1 = ((holders' - 1 : ℕ) : ℤ)
    omega

/-- **An event that meets its condition keeps what every run keeps.** -/
theorem Inv.step (h : Inv world) {event : Event} (halone : Alone world event) :
    Inv (world.step event) := by
  rcases event with key | ⟨id, outcome⟩ | id | id | id
  · exact h.acquire
  · rw [World.step]
    rcases hspawn : world.spawns id with _ | ⟨key, _ | _⟩
    · exact h
    · rcases outcome with _ | _ | _
      · exact h.fail hspawn
      · exact h.fail hspawn
      · exact h.succeed hspawn
    · exact h
  · rw [World.step]
    rcases hspawn : world.spawns id with _ | ⟨key, _ | _⟩
    · exact h
    · exact h
    · exact h.resume hspawn
  · rw [World.step]
    rcases hwaiter : world.waiters id with _ | waiter
    · exact h
    · dsimp only
      split
      next hsettled =>
        refine (h.withWaiters le_rfl).take fun entry hentry => ?_
        exact halone waiter hwaiter entry hentry hsettled
      next => exact h
  · rw [World.step]
    rcases hchild : world.children id with _ | child
    · exact h
    · dsimp only
      split
      next => exact h
      next hclosers =>
        refine h.close hchild ?_
        rw [World.closers] at hclosers
        omega

theorem inv_init : Inv World.init := by
  refine ⟨fun _ _ => ⟨rfl, rfl⟩, ?_, ?_, ?_, ?_⟩
  · rintro key entry ⟨⟩
  · rintro key entry ⟨⟩
  · rintro id key ⟨⟩
  · rintro id child ⟨⟩

theorem Inv.sound (h : Inv world) : Sound world := by
  constructor
  · intro id child hchild
    rcases h.alive id child hchild with ⟨hclosed, hholders⟩ | ⟨hclosed, hholders, -⟩
    · rw [if_pos hholders, hclosed]
    · rw [if_neg hholders.ne', hclosed]
  · intro id id' child child' hchild hchild' hopen hopen' hkey
    obtain ⟨hclosed, -⟩ | ⟨-, -, entry, hentry, rfl, -⟩ := h.alive id child hchild
    · omega
    obtain ⟨hclosed, -⟩ | ⟨-, -, entry', hentry', rfl, -⟩ := h.alive id' child' hchild'
    · omega
    rw [hkey] at hentry
    rw [Option.some.inj (hentry.symm.trans hentry')]

end Step

/-- **If no caller that has waited finds another spawn, there is one child of a key at a time, and
each child is closed once, when its last caller has closed it.** -/
theorem pool_sound (events : List Event) (halone : Meets World.step Alone World.init events) :
    ∀ past, past <+: events → Sound (run World.step World.init past) := by
  intro past hpast
  have hinv := (halone.initial hpast).invariant Inv inv_init fun _ _ hinv hok => hinv.step hok
  exact hinv.sound

def sharedAndClosed : List Event :=
  [.acquire (js "k"), .acquire (js "k"), .settle 0 .client, .resume 0, .wake 1, .close 0, .close 0]

theorem sharedAndClosed_sound : Sound (run World.step World.init sharedAndClosed) :=
  pool_sound sharedAndClosed (by decide) sharedAndClosed (List.prefix_refl sharedAndClosed)

def bothSpawn : List Event :=
  [.acquire (js "k"), .acquire (js "k"), .acquire (js "k"), .settle 0 .failed, .resume 0, .wake 1,
    .wake 2, .settle 3 .client, .settle 4 .client]

/-- **Two callers that waited leave two children of their key.** -/
theorem not_pool_sound : ¬∀ events, Sound (run World.step World.init events) := by
  intro h
  have hone : (run World.step World.init bothSpawn).children 3 = some ⟨js "k", 1, 0⟩ := by
    decide
  have htwo : (run World.step World.init bothSpawn).children 4 = some ⟨js "k", 1, 0⟩ := by
    decide
  have hsame := (h bothSpawn).one 3 4 _ _ hone htwo rfl rfl rfl
  omega

end OpenCms.LocalMcpPool
