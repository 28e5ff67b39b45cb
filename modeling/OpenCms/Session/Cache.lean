import OpenCms.Lib.JsString
import OpenCms.Lib.Runs
import OpenCms.Lib.Table

/-!
# The session cache

What was loaded for a session is kept until an event of the session drops it, until it is too old,
or until there are too many entries. A version for each session counts its events, and is part of
its ETag.

A load may take any time, and its result is stored without a look at the events that came in
meanwhile; and a session that is deleted has version zero again. So the cache is coherent in the
runs in which nothing is stored that an event would have dropped since it was read, and in which no
event leaves a version that an ETag of the session was already issued for
(`OpenCms.SessionCache.coherent_of_timely`).
-/

namespace OpenCms.SessionCache

/-! ### Keys -/

inductive Request
  | session
  | metadata
  | messages (limit : JsString)
  deriving DecidableEq

def Request.key (request : Request) (sessionID : JsString) : JsString :=
  match request with
  | .session => js "session:" ++ sessionID
  | .metadata => js "session:" ++ sessionID ++ js ":meta"
  | .messages limit => js "messages:" ++ sessionID ++ js ":" ++ limit

def covers (sessionID key : JsString) : Bool :=
  key = js "session:" ++ sessionID || (js "session:" ++ sessionID ++ js ":").isPrefixOf key ||
    (js "messages:" ++ sessionID ++ js ":").isPrefixOf key

theorem covers_key (request : Request) (sessionID : JsString) :
    covers sessionID (request.key sessionID) = true := by
  rw [covers, Bool.or_eq_true, Bool.or_eq_true, decide_eq_true_eq, List.isPrefixOf_iff_prefix,
    List.isPrefixOf_iff_prefix]
  rcases request with _ | _ | limit
  · exact Or.inl (Or.inl rfl)
  · refine Or.inl (Or.inr ⟨js "meta", ?_⟩)
    rw [Request.key, List.append_assoc _ (js ":")]
    rfl
  · exact Or.inr ⟨limit, rfl⟩

/-! ### The cache -/

/-- `Entry`, with its key. -/
structure Entry (α : Type) where
  key : JsString
  data : α
  version : ℕ
  createdAt : ℤ
  accessAt : ℤ
  deriving DecidableEq

/-- The state of the cache: the entries in the order of the map, the versions, the sessions whose
timer is set, and whether the subscriptions are alive. -/
structure Cache (α : Type) where
  entries : List (Entry α)
  versions : JsString → Option ℕ
  timers : List JsString
  subscriptionAlive : Bool

/-- `currentCap`. -/
structure Cap where
  enabled : Bool
  ttlMs : ℤ
  max : ℕ

def enforceCapacity {α : Type} (max : ℕ) : List (Entry α) → List (Entry α)
  | [] => []
  | entry :: entries =>
    if max < (entry :: entries).length then enforceCapacity max entries else entry :: entries

namespace Cache

variable {α : Type} (cache : Cache α) (sessionID : JsString)

def getVersion : ℕ := (cache.versions sessionID).getD 0

def bumpVersion : Cache α :=
  { cache with
    versions := Function.update cache.versions sessionID (some (cache.getVersion sessionID + 1)) }

def invalidate : Cache α :=
  { cache with entries := cache.entries.filter fun entry => !covers sessionID entry.key }

def scheduleDeltaInvalidate : Cache α :=
  if sessionID ∈ cache.timers then cache else { cache with timers := sessionID :: cache.timers }

def flushDeltaInvalidate : Cache α := { cache with timers := cache.timers.filter (· ≠ sessionID) }

def fire : Cache α :=
  if sessionID ∈ cache.timers then (cache.flushDeltaInvalidate sessionID).invalidate sessionID
  else cache

def forgetSession : Cache α :=
  let cache := (cache.flushDeltaInvalidate sessionID).invalidate sessionID
  { cache with versions := Function.update cache.versions sessionID none }

end Cache

def etag (epoch sessionID : JsString) (version : ℕ) : JsString :=
  js "W/\"" ++ sessionID ++ js ":" ++ JsString.decimal version ++ js ":" ++ epoch ++ js "\""

def currentEtag {α : Type} (epoch : JsString) (cache : Cache α) (sessionID : JsString) : JsString :=
  etag epoch sessionID (cache.getVersion sessionID)

def isEtagMatch {α : Type} (epoch : JsString) (cache : Cache α) (sessionID : JsString)
    (header : Option JsString) : Bool :=
  match header with
  | none => false
  | some header => header ≠ [] && JsString.trim header = currentEtag epoch cache sessionID

/-! ### The events of the bus -/

/-- The events that the cache subscribes to. A session that is missing is empty. -/
inductive BusEvent
  | messageUpdated (sessionID : JsString)
  | messageRemoved (sessionID : JsString)
  | partUpdated (sessionID : JsString) (delta : Bool)
  | partRemoved (sessionID : JsString)
  | sessionCreated (sessionID : JsString)
  | sessionUpdated (sessionID : JsString)
  | sessionDeleted (sessionID : JsString)
  deriving DecidableEq

def BusEvent.sessionID : BusEvent → JsString
  | .messageUpdated sessionID => sessionID
  | .messageRemoved sessionID => sessionID
  | .partUpdated sessionID _ => sessionID
  | .partRemoved sessionID => sessionID
  | .sessionCreated sessionID => sessionID
  | .sessionUpdated sessionID => sessionID
  | .sessionDeleted sessionID => sessionID

def BusEvent.isDelta : BusEvent → Bool
  | .partUpdated _ delta => delta
  | _ => false

def Cache.bumpAndInvalidate {α : Type} (cache : Cache α) (sessionID : JsString) : Cache α :=
  (cache.bumpVersion sessionID).invalidate sessionID

def Cache.handler {α : Type} (cache : Cache α) : BusEvent → Cache α
  | .messageUpdated sessionID => cache.bumpAndInvalidate sessionID
  | .messageRemoved sessionID => cache.bumpAndInvalidate sessionID
  | .partUpdated sessionID true => (cache.bumpVersion sessionID).scheduleDeltaInvalidate sessionID
  | .partUpdated sessionID false =>
    ((cache.bumpVersion sessionID).flushDeltaInvalidate sessionID).invalidate sessionID
  | .partRemoved sessionID => cache.bumpAndInvalidate sessionID
  | .sessionCreated sessionID => cache.bumpAndInvalidate sessionID
  | .sessionUpdated sessionID => cache.bumpAndInvalidate sessionID
  | .sessionDeleted sessionID => cache.forgetSession sessionID

def Cache.handle {α : Type} (cache : Cache α) (event : BusEvent) : Cache α :=
  if event.sessionID = [] then cache else cache.handler event

def BusEvent.leaves (event : BusEvent) (version : ℕ) : ℕ :=
  match event with
  | .sessionDeleted _ => 0
  | _ => version + 1

/-! ### Calls -/

/-- Where a call is: before it has looked into the cache, or in its loader, which may have read. The
data that a loader reads is the number of events that were processed before. -/
inductive Phase
  | waiting
  | loading (memoize : Bool) (data : Option ℕ)
  deriving DecidableEq

def Phase.stores : Phase → Option ℕ
  | .loading true data => data
  | _ => none

/-- A call of `get`, and how many events were processed when it began. -/
structure Get where
  id : ℕ
  request : Request
  sessionID : JsString
  began : ℕ
  phase : Phase
  deriving DecidableEq

def Get.key (get : Get) : JsString := get.request.key get.sessionID

/-- A hit: what was returned, and how many events were processed when the call began. -/
structure Hit where
  sessionID : JsString
  data : ℕ
  began : ℕ
  deriving DecidableEq

/-- An ETag that was issued, and how many events were processed before. -/
structure Issued where
  sessionID : JsString
  version : ℕ
  moment : ℕ
  deriving DecidableEq

/-- The cache and the calls in progress, and what is remembered of the past: the sessions of the
events that were processed, deltas apart, the hits, and the ETags that were issued. -/
structure World where
  cache : Cache ℕ
  gets : List Get
  next : ℕ
  processed : List JsString
  hits : List Hit
  issued : List Issued

inductive Event
  | bus (event : BusEvent)
  | timer (sessionID : JsString)
  | get (request : Request) (sessionID : JsString)
  | looksUp (id : ℕ) (now : ℤ)
  | reads (id : ℕ)
  | loaded (id : ℕ) (now : ℤ)
  | fails (id : ℕ)
  | issue (sessionID : JsString)

namespace World

variable (world : World)

def finish (get : Get) : World := { world with gets := Table.erase Get.id get.id world.gets }

def goOn (get : Get) (phase : Phase) : World :=
  { world with
    gets := Table.update Get.id get.id (fun get => { get with phase := phase }) world.gets }

def withEntries (entries : List (Entry ℕ)) : World :=
  { world with cache := { world.cache with entries := entries } }

def bus (event : BusEvent) : World :=
  { world with
    cache := world.cache.handle event
    processed :=
      if event.sessionID = [] ∨ event.isDelta then world.processed
      else world.processed ++ [event.sessionID] }

def looksUp (cap : Cap) (get : Get) (now : ℤ) : World :=
  if cap.enabled then
    match Table.lookup Entry.key world.cache.entries get.key with
    | none => world.goOn get (.loading true none)
    | some existing =>
      let rest := Table.erase Entry.key get.key world.cache.entries
      if now - existing.createdAt ≤ cap.ttlMs then
        -- the entry moves to the tail
        World.finish { world.withEntries (rest ++ [{ existing with accessAt := now }]) with
          hits := world.hits ++ [⟨get.sessionID, existing.data, get.began⟩] } get
      else (world.withEntries rest).goOn get (.loading true none)
  else world.goOn get (.loading false none)

def loaded (cap : Cap) (get : Get) (memoize : Bool) (data : ℕ) (now : ℤ) : World :=
  if memoize && world.cache.subscriptionAlive then
    let entry : Entry ℕ := ⟨get.key, data, world.cache.getVersion get.sessionID, now, now⟩
    World.finish (world.withEntries (enforceCapacity cap.max
      (Table.upsert Entry.key entry world.cache.entries))) get
  else world.finish get

end World

def step (cap : Cap) (world : World) : Event → World
  | .bus event => world.bus event
  | .timer sessionID => { world with cache := world.cache.fire sessionID }
  | .get request sessionID =>
    { world with
      gets := world.gets ++ [⟨world.next, request, sessionID, world.processed.length, .waiting⟩]
      next := world.next + 1 }
  | .looksUp id now =>
    match Table.lookup Get.id world.gets id with
    | some get => if get.phase = .waiting then world.looksUp cap get now else world
    | none => world
  | .reads id =>
    match Table.lookup Get.id world.gets id with
    | some get =>
      match get.phase with
      | .loading memoize none => world.goOn get (.loading memoize (some world.processed.length))
      | _ => world
    | none => world
  | .loaded id now =>
    match Table.lookup Get.id world.gets id with
    | some get =>
      match get.phase with
      | .loading memoize (some data) => world.loaded cap get memoize data now
      | _ => world
    | none => world
  | .fails id =>
    match Table.lookup Get.id world.gets id with
    | some get => if get.phase = .waiting then world else world.finish get
    | none => world
  | .issue sessionID =>
    { world with
      issued := world.issued ++
        [⟨sessionID, world.cache.getVersion sessionID, world.processed.length⟩] }

/-- Nothing is cached, and no call is in progress. -/
def World.init (subscriptionAlive : Bool) : World :=
  ⟨⟨[], fun _ => none, [], subscriptionAlive⟩, [], 0, [], [], []⟩

structure Coherent (cap : Cap) (epoch : JsString) (world : World) : Prop where
  hits : ∀ hit ∈ world.hits,
    hit.sessionID ∉ (world.processed.take hit.began).drop hit.data
  etags : ∀ issued ∈ world.issued,
    isEtagMatch epoch world.cache issued.sessionID
        (some (etag epoch issued.sessionID issued.version)) →
      issued.sessionID ∉ world.processed.drop issued.moment
  size : world.cache.entries.length ≤ cap.max

/-- What an event must meet: no ETag of the session was issued for the version that it leaves; and
nothing is stored that an event would have dropped since it was read. -/
def Timely (world : World) : Event → Prop
  | .bus event =>
    event.sessionID ≠ [] → ∀ issued ∈ world.issued, issued.sessionID = event.sessionID →
      issued.version ≠ event.leaves (world.cache.getVersion event.sessionID)
  | .loaded id _ =>
    ∀ get ∈ Table.lookup Get.id world.gets id, ∀ data ∈ get.phase.stores,
      ∀ sessionID ∈ world.processed.drop data, covers sessionID get.key = false
  | _ => True

instance (world : World) : (event : Event) → Decidable (Timely world event)
  | .bus event => inferInstanceAs (Decidable (event.sessionID ≠ [] → ∀ issued ∈ world.issued,
      issued.sessionID = event.sessionID →
        issued.version ≠ event.leaves (world.cache.getVersion event.sessionID)))
  | .loaded id _ => inferInstanceAs (Decidable (∀ get ∈ Table.lookup Get.id world.gets id,
      ∀ data ∈ get.phase.stores, ∀ sessionID ∈ world.processed.drop data,
        covers sessionID get.key = false))
  | .timer _ => isTrue trivial
  | .get _ _ => isTrue trivial
  | .looksUp _ _ => isTrue trivial
  | .reads _ => isTrue trivial
  | .fails _ => isTrue trivial
  | .issue _ => isTrue trivial

/-! ### ETags -/

section Etag

variable {epoch sessionID : JsString} {version version' : ℕ}

theorem etag_injective (h : etag epoch sessionID version = etag epoch sessionID version') :
    version = version' := by
  have htail := List.append_cancel_right (List.append_cancel_right (List.append_cancel_right h))
  have hnumber := congrArg JsString.number (List.append_cancel_left htail)
  rwa [JsString.number_decimal, JsString.number_decimal] at hnumber

theorem trim_etag : JsString.trim (etag epoch sessionID version) = etag epoch sessionID version := by
  have hhead : js "W/\"" = [87, 47, 34] := by decide
  have hlast : js "\"" = [34] := by decide
  refine JsString.trim_eq_self ?_ ?_
  · intro c hc
    obtain rfl : 87 = c := Option.some.inj hc
    decide
  · intro c hc
    rw [etag, hlast, List.getLast?_concat] at hc
    obtain rfl : 34 = c := Option.some.inj hc
    decide

theorem isEtagMatch_etag {cache : Cache ℕ} :
    isEtagMatch epoch cache sessionID (some (etag epoch sessionID version)) = true ↔
      cache.getVersion sessionID = version := by
  have hne : etag epoch sessionID version ≠ [] := by
    intro hnil
    have hlength := congrArg List.length hnil
    have hhead : js "W/\"" = [87, 47, 34] := by decide
    cases hlength
  rw [isEtagMatch, trim_etag, currentEtag, Bool.and_eq_true, decide_eq_true_eq, decide_eq_true_eq,
    and_iff_right hne]
  constructor
  · intro h
    exact (etag_injective h).symm
  · rintro rfl
    rfl

end Etag

/-! ### What the cache does -/

section Cache

variable {α : Type} {cache : Cache α} {event : BusEvent} {sessionID : JsString} {entry : Entry α}
  {entries : List (Entry α)} {max : ℕ}

theorem enforceCapacity_suffix : enforceCapacity max entries <:+ entries := by
  induction entries with
  | nil => exact List.suffix_rfl
  | cons entry entries ih =>
    rw [enforceCapacity]
    split
    next => exact ih.trans (List.suffix_cons entry entries)
    next => exact List.suffix_rfl

theorem length_enforceCapacity_le : (enforceCapacity max entries).length ≤ max := by
  induction entries with
  | nil => exact Nat.zero_le max
  | cons entry entries ih =>
    rw [enforceCapacity]
    split
    next => exact ih
    next h => exact not_lt.mp h

theorem invalidate_sublist : (cache.invalidate sessionID).entries.Sublist cache.entries :=
  List.filter_sublist

theorem mem_invalidate (h : entry ∈ (cache.invalidate sessionID).entries) :
    entry ∈ cache.entries ∧ covers sessionID entry.key = false := by
  obtain ⟨hentry, hcovers⟩ := List.mem_filter.mp h
  exact ⟨hentry, by simpa using hcovers⟩

theorem fire_sublist : (cache.fire sessionID).entries.Sublist cache.entries := by
  rw [Cache.fire]
  split
  · exact invalidate_sublist
  · exact List.Sublist.refl cache.entries

theorem getVersion_fire {other : JsString} :
    (cache.fire sessionID).getVersion other = cache.getVersion other := by
  rw [Cache.fire]
  split
  · rfl
  · rfl

theorem handle_sublist : (cache.handle event).entries.Sublist cache.entries := by
  rw [Cache.handle]
  split
  · exact List.Sublist.refl cache.entries
  · rcases event with _ | _ | ⟨sessionID, _ | _⟩ | _ | _ | _ | _
    case partUpdated.true =>
      change ((cache.bumpVersion sessionID).scheduleDeltaInvalidate sessionID).entries.Sublist _
      rw [Cache.scheduleDeltaInvalidate]
      split
      · exact List.Sublist.refl cache.entries
      · exact List.Sublist.refl cache.entries
    all_goals exact List.filter_sublist

theorem mem_handle (h : entry ∈ (cache.handle event).entries) (hsession : event.sessionID ≠ [])
    (hdelta : event.isDelta = false) : covers event.sessionID entry.key = false := by
  rw [Cache.handle, if_neg hsession] at h
  rcases event with _ | _ | ⟨_, _ | _⟩ | _ | _ | _ | _
  case partUpdated.true => cases hdelta
  all_goals exact (mem_invalidate h).2

theorem getVersion_bumpVersion {other : JsString} : (cache.bumpVersion sessionID).getVersion other =
    if other = sessionID then cache.getVersion sessionID + 1 else cache.getVersion other := by
  change (Function.update cache.versions sessionID _ other).getD 0 = _
  rw [Function.update_apply]
  split
  · rfl
  · rfl

theorem getVersion_handle (hsession : event.sessionID ≠ []) {other : JsString} :
    (cache.handle event).getVersion other =
      if other = event.sessionID then event.leaves (cache.getVersion event.sessionID)
      else cache.getVersion other := by
  rw [Cache.handle, if_neg hsession]
  rcases event with _ | _ | ⟨sessionID, _ | _⟩ | _ | _ | _ | sessionID
  case sessionDeleted =>
    change (Function.update cache.versions sessionID none other).getD 0 = _
    rw [Function.update_apply]
    split
    next h => exact (if_pos h).symm
    next h => exact (if_neg h).symm
  case partUpdated.true =>
    refine Eq.trans ?_ getVersion_bumpVersion
    change ((cache.bumpVersion sessionID).scheduleDeltaInvalidate sessionID).getVersion other = _
    rw [Cache.scheduleDeltaInvalidate]
    split
    · rfl
    · rfl
  all_goals exact getVersion_bumpVersion

end Cache

/-! ### One step -/

/-- No event was processed since an entry was read that would have dropped it. -/
def Fresh (processed : List JsString) (entry : Entry ℕ) : Prop :=
  entry.data ≤ processed.length ∧
    ∀ sessionID ∈ processed.drop entry.data, covers sessionID entry.key = false

/-- What every run that is timely keeps. -/
structure Inv (cap : Cap) (world : World) : Prop where
  size : world.cache.entries.length ≤ cap.max
  fresh : ∀ entry ∈ world.cache.entries, Fresh world.processed entry
  began : ∀ get ∈ world.gets, get.began ≤ world.processed.length
  read : ∀ get ∈ world.gets, ∀ memoize data, get.phase = .loading memoize (some data) →
    data ≤ world.processed.length
  hits : ∀ hit ∈ world.hits, hit.began ≤ world.processed.length ∧
    hit.sessionID ∉ (world.processed.take hit.began).drop hit.data
  etags : ∀ issued ∈ world.issued, issued.moment ≤ world.processed.length ∧
    (world.cache.getVersion issued.sessionID = issued.version →
      issued.sessionID ∉ world.processed.drop issued.moment)

section Step

variable {cap : Cap} {world : World} {get : Get} {now : ℤ} {entries : List (Entry ℕ)}

theorem Inv.withEntries (h : Inv cap world) (hsize : entries.length ≤ cap.max)
    (hfresh : ∀ entry ∈ entries, Fresh world.processed entry) :
    Inv cap (world.withEntries entries) :=
  ⟨hsize, hfresh, h.began, h.read, h.hits, h.etags⟩

theorem Inv.finish (h : Inv cap world) : Inv cap (world.finish get) := by
  have hmem : ∀ other ∈ Table.erase Get.id get.id world.gets, other ∈ world.gets :=
    fun other hother => (Table.mem_erase.mp hother).1
  exact ⟨h.size, h.fresh, fun other hother => h.began other (hmem other hother),
    fun other hother => h.read other (hmem other hother), h.hits, h.etags⟩

theorem Inv.goOn (h : Inv cap world) {phase : Phase}
    (hphase : ∀ memoize data, phase = .loading memoize (some data) →
      data ≤ world.processed.length) : Inv cap (world.goOn get phase) := by
  refine ⟨h.size, h.fresh, fun other hother => ?_, fun other hother memoize data hdata => ?_,
    h.hits, h.etags⟩
  · rcases Table.mem_update.mp hother with ⟨hother, -⟩ | ⟨old, hold, -, rfl⟩
    · exact h.began other hother
    · exact h.began old hold
  · rcases Table.mem_update.mp hother with ⟨hother, -⟩ | ⟨old, hold, -, rfl⟩
    · exact h.read other hother memoize data hdata
    · exact hphase memoize data hdata

theorem Inv.bus (h : Inv cap world) {event : BusEvent}
    (htimely : event.sessionID ≠ [] → ∀ issued ∈ world.issued,
      issued.sessionID = event.sessionID →
        issued.version ≠ event.leaves (world.cache.getVersion event.sessionID)) :
    Inv cap (world.bus event) := by
  -- what is processed now, and what that changes
  obtain ⟨added, hadded, hsessions⟩ : ∃ added, (world.bus event).processed =
      world.processed ++ added ∧ ∀ sessionID ∈ added, sessionID = event.sessionID ∧
        event.sessionID ≠ [] ∧ event.isDelta = false := by
    rw [World.bus]
    split
    next => exact ⟨[], (List.append_nil _).symm, fun _ hmem => absurd hmem List.not_mem_nil⟩
    next hnot =>
      rw [not_or] at hnot
      refine ⟨[event.sessionID], rfl, fun sessionID hmem => ?_⟩
      exact ⟨List.mem_singleton.mp hmem, hnot.1, by simpa using hnot.2⟩
  have hdrop : ∀ n ≤ world.processed.length, (world.bus event).processed.drop n =
      world.processed.drop n ++ added := by
    intro n hn
    rw [hadded, List.drop_append_of_le_length hn]
  have hlength : world.processed.length ≤ (world.bus event).processed.length := by
    rw [hadded, List.length_append]
    omega
  refine ⟨handle_sublist.length_le.trans h.size, fun entry hentry => ?_,
    fun get hget => (h.began get hget).trans hlength,
    fun get hget memoize data hdata => (h.read get hget memoize data hdata).trans hlength,
    fun hit hhit => ?_, fun issued hissued => ?_⟩
  · obtain ⟨hle, hfresh⟩ := h.fresh entry (handle_sublist.subset hentry)
    refine ⟨hle.trans hlength, fun sessionID hmem => ?_⟩
    rw [hdrop _ hle] at hmem
    rcases List.mem_append.mp hmem with hmem | hmem
    · exact hfresh sessionID hmem
    · obtain ⟨rfl, hsession, hdelta⟩ := hsessions sessionID hmem
      exact mem_handle hentry hsession hdelta
  · obtain ⟨hle, hhit⟩ := h.hits hit hhit
    refine ⟨hle.trans hlength, ?_⟩
    rw [hadded, List.take_append_of_le_length hle]
    exact hhit
  · obtain ⟨hle, hversion⟩ := h.etags issued hissued
    refine ⟨hle.trans hlength, fun hmatch => ?_⟩
    change (world.cache.handle event).getVersion issued.sessionID = issued.version at hmatch
    rw [hdrop _ hle, List.mem_append, not_or]
    rcases eq_or_ne event.sessionID [] with hnil | hsession
    · rw [Cache.handle, if_pos hnil] at hmatch
      refine ⟨hversion hmatch, fun hmem => ?_⟩
      exact (hsessions _ hmem).2.1 hnil
    · rw [getVersion_handle hsession] at hmatch
      split at hmatch
      next heq => exact absurd hmatch.symm (htimely hsession issued hissued heq)
      next hne => exact ⟨hversion hmatch, fun hmem => hne (hsessions _ hmem).1⟩

theorem Inv.looksUp (h : Inv cap world) (hget : get ∈ world.gets) :
    Inv cap (world.looksUp cap get now) := by
  have hloading : ∀ {world : World} memoize, Inv cap world →
      Inv cap (world.goOn get (.loading memoize none)) := by
    intro world memoize h
    refine h.goOn fun memoize' data hdata => ?_
    cases hdata
  rw [World.looksUp]
  split
  next =>
    rcases hfound : Table.lookup Entry.key world.cache.entries get.key with _ | existing
    · exact hloading true h
    · have hexisting := Table.mem_of_lookup hfound
      have hkey := Table.key_of_lookup hfound
      have hrest : ∀ entry ∈ Table.erase Entry.key get.key world.cache.entries,
          Fresh world.processed entry :=
        fun entry hentry => h.fresh entry (Table.mem_erase.mp hentry).1
      have hlt : (Table.erase Entry.key get.key world.cache.entries).length <
          world.cache.entries.length := by
        refine List.length_filter_lt_length_iff_exists.mpr ⟨existing, hexisting, ?_⟩
        rw [decide_eq_true_eq, not_not]
        exact hkey
      dsimp only
      split
      next =>
        obtain ⟨hle, hfresh⟩ := h.fresh existing hexisting
        refine Inv.finish ⟨?_, fun entry hentry => ?_, h.began, h.read, fun hit hhit => ?_, h.etags⟩
        · change (_ ++ [_]).length ≤ cap.max
          rw [List.length_append, List.length_singleton]
          exact Nat.le_trans hlt h.size
        · rcases List.mem_append.mp hentry with hentry | hentry
          · exact hrest entry hentry
          · rw [List.mem_singleton.mp hentry]
            exact ⟨hle, hfresh⟩
        · rcases List.mem_append.mp hhit with hhit | hhit
          · exact h.hits hit hhit
          · rw [List.mem_singleton.mp hhit]
            refine ⟨h.began get hget, fun hmem => ?_⟩
            have hdropped := hfresh get.sessionID
              (((List.take_sublist _ _).drop existing.data).subset hmem)
            rw [hkey, Get.key, covers_key] at hdropped
            cases hdropped
      next => exact hloading true (h.withEntries (hlt.le.trans h.size) hrest)
  next => exact hloading false h

theorem Inv.loaded (h : Inv cap world) {memoize : Bool} {data : ℕ}
    (hle : data ≤ world.processed.length)
    (htimely : memoize = true → ∀ sessionID ∈ world.processed.drop data,
      covers sessionID get.key = false) : Inv cap (world.loaded cap get memoize data now) := by
  rw [World.loaded]
  split
  next hstored =>
    refine Inv.finish (h.withEntries length_enforceCapacity_le fun entry hentry => ?_)
    rcases Table.mem_upsert (enforceCapacity_suffix.subset hentry) with rfl | ⟨hentry, -⟩
    · exact ⟨hle, htimely (Bool.and_eq_true_iff.mp hstored).1⟩
    · exact h.fresh entry hentry
  next => exact h.finish

/-- **An event that is timely keeps what every run keeps.** -/
theorem Inv.step (h : Inv cap world) {event : Event} (htimely : Timely world event) :
    Inv cap (step cap world event) := by
  rcases event with event | sessionID | ⟨request, sessionID⟩ | ⟨id, now⟩ | id | ⟨id, now⟩ | id |
    sessionID
  · exact h.bus htimely
  · refine ⟨fire_sublist.length_le.trans h.size,
      fun entry hentry => h.fresh entry (fire_sublist.subset hentry), h.began, h.read, h.hits,
      fun issued hissued => ?_⟩
    obtain ⟨hle, hversion⟩ := h.etags issued hissued
    refine ⟨hle, fun hmatch => hversion ?_⟩
    rw [← hmatch]
    exact getVersion_fire.symm
  · refine ⟨h.size, h.fresh, fun get hget => ?_, fun get hget memoize data hdata => ?_, h.hits,
      h.etags⟩
    · rcases List.mem_append.mp hget with hget | hget
      · exact h.began get hget
      · rw [List.mem_singleton.mp hget]
        exact le_refl _
    · rcases List.mem_append.mp hget with hget | hget
      · exact h.read get hget memoize data hdata
      · rw [List.mem_singleton.mp hget] at hdata
        cases hdata
  · rw [SessionCache.step]
    rcases hfound : Table.lookup Get.id world.gets id with _ | get
    · exact h
    · dsimp only
      split
      next => exact h.looksUp (Table.mem_of_lookup hfound)
      next => exact h
  · rw [SessionCache.step]
    rcases hfound : Table.lookup Get.id world.gets id with _ | get
    · exact h
    · dsimp only
      rcases get.phase with _ | ⟨memoize, _ | data⟩
      · exact h
      · refine h.goOn fun memoize data hdata => ?_
        cases hdata
        exact le_refl _
      · exact h
  · rw [SessionCache.step]
    rcases hfound : Table.lookup Get.id world.gets id with _ | get
    · exact h
    · dsimp only
      rcases hphase : get.phase with _ | ⟨memoize, _ | data⟩
      · exact h
      · exact h
      · refine h.loaded (h.read get (Table.mem_of_lookup hfound) memoize data hphase) ?_
        rintro rfl
        refine htimely get hfound data ?_
        rw [hphase]
        rfl
  · rw [SessionCache.step]
    rcases hfound : Table.lookup Get.id world.gets id with _ | get
    · exact h
    · dsimp only
      split
      next => exact h
      next => exact h.finish
  · refine ⟨h.size, h.fresh, h.began, h.read, h.hits, fun issued hissued => ?_⟩
    rcases List.mem_append.mp hissued with hissued | hissued
    · exact h.etags issued hissued
    · rw [List.mem_singleton.mp hissued]
      refine ⟨le_refl _, fun _ => ?_⟩
      change sessionID ∉ world.processed.drop world.processed.length
      rw [List.drop_length]
      exact List.not_mem_nil

theorem inv_init (subscriptionAlive : Bool) : Inv cap (World.init subscriptionAlive) :=
  ⟨Nat.zero_le _, fun _ h => absurd h List.not_mem_nil, fun _ h => absurd h List.not_mem_nil,
    fun _ h => absurd h List.not_mem_nil, fun _ h => absurd h List.not_mem_nil,
    fun _ h => absurd h List.not_mem_nil⟩

theorem Inv.coherent (h : Inv cap world) {epoch : JsString} : Coherent cap epoch world := by
  refine ⟨fun hit hhit => (h.hits hit hhit).2, fun issued hissued hmatch => ?_, h.size⟩
  exact (h.etags issued hissued).2 (isEtagMatch_etag.mp hmatch)

end Step

/-- **In a run that is timely the cache is coherent**: a hit returns nothing that was read before an
event of its session that was processed when the call began, an ETag matches only until the next
event of its session, and there are never too many entries. -/
theorem coherent_of_timely (cap : Cap) (epoch : JsString) (subscriptionAlive : Bool)
    (events : List Event)
    (htimely : Meets (step cap) Timely (World.init subscriptionAlive) events) :
    ∀ past, past <+: events →
      Coherent cap epoch (run (step cap) (World.init subscriptionAlive) past) := by
  intro past hpast
  have hinv := (htimely.initial hpast).invariant (Inv cap) (inv_init subscriptionAlive)
    fun _ _ hinv hok => hinv.step hok
  exact hinv.coherent

def tenEntries : Cap := ⟨true, 60000, 10⟩

def aSession : JsString := js "ses_1"

/-- A session is loaded, changes, is loaded again, and is found; an ETag is issued before it changes.
-/
def inTime : List Event :=
  [.issue aSession, .get .session aSession, .looksUp 0 0, .reads 0, .loaded 0 5,
    .bus (.sessionUpdated aSession), .get .session aSession, .looksUp 1 10, .reads 1, .loaded 1 15,
    .get .session aSession, .looksUp 2 20]

theorem inTime_coherent :
    Coherent tenEntries (js "k3") (run (step tenEntries) (World.init true) inTime) :=
  coherent_of_timely tenEntries (js "k3") true inTime (by decide +kernel) inTime
    (List.prefix_refl inTime)

/-- A session changes after a loader has read it, and is found as it was before. -/
def storedLate : List Event :=
  [.get .session aSession, .looksUp 0 0, .reads 0, .bus (.sessionUpdated aSession), .loaded 0 5,
    .get .session aSession, .looksUp 1 10]

def deleted : List Event := [.issue aSession, .bus (.sessionDeleted aSession)]

/-- **A hit returns what was read before the session changed, and an ETag matches after the session
was deleted.** -/
theorem not_coherent :
    (∃ hit ∈ (run (step tenEntries) (World.init true) storedLate).hits,
      hit.sessionID ∈ ((run (step tenEntries) (World.init true) storedLate).processed.take
        hit.began).drop hit.data) ∧
      ¬∀ cap epoch events, Coherent cap epoch (run (step cap) (World.init true) events) := by
  refine ⟨by decide, fun h => ?_⟩
  have hmatch : isEtagMatch (js "k3") (run (step tenEntries) (World.init true) deleted).cache
      aSession (some (etag (js "k3") aSession 0)) = true := by decide
  have hmem : (⟨aSession, 0, 0⟩ : Issued) ∈
      (run (step tenEntries) (World.init true) deleted).issued := by decide
  have hprocessed : aSession ∈
      (run (step tenEntries) (World.init true) deleted).processed.drop 0 := by decide +kernel
  exact (h tenEntries (js "k3") deleted).etags _ hmem hmatch hprocessed

end OpenCms.SessionCache
