import OpenCms.Lib.Runs
import OpenCms.Lib.Table

/-!
# The pool of writer handles

A writer handle of a session's database is kept in a pool and handed out to everyone who asks for
the session. To open one takes a while: in between other calls are answered. A sweep closes the
handles that nobody asked for lately, and when there are too many the one that was asked for the
longest ago is closed, whether someone still reads through it or not.

That a handle is opened while another one for its session is being opened, that it is left open
when it cannot be set up, and that one is closed that a paused reader needs is all that goes wrong
(`OpenCms.ConnectionPool.acquired_sound_iff`).
-/

namespace OpenCms.ConnectionPool

structure Writer where
  db : ℕ
  sessionID : String
  deriving DecidableEq

structure PoolEntry where
  sessionID : String
  db : ℕ
  lastUsedMs : ℕ
  deriving DecidableEq

/-- A call of `acquire` whose `onColdOpen` is running; `reader` if it is for a `stream`. -/
structure ColdOpen where
  sessionID : String
  db : ℕ
  reader : Bool
  deriving DecidableEq

/-- A `stream`, with the number of messages it has still to give once it has listed them. -/
structure Reader where
  db : ℕ
  rows : Option ℕ
  deriving DecidableEq

/-- A `stream` that reads again when its consumer goes on. -/
def Reader.Unfinished (r : Reader) : Prop := r.rows ≠ some 0

instance (r : Reader) : Decidable r.Unfinished := inferInstanceAs (Decidable (r.rows ≠ some 0))

structure State where
  entries : List PoolEntry
  /-- The calls that wait for their hook. -/
  pending : List ColdOpen
  /-- How many handles have been opened. -/
  opened : ℕ
  writers : List Writer
  readers : List Reader
  /-- What was closed because there were too many. -/
  evicted : List ℕ
  deriving DecidableEq

/-- The pool of a new process. -/
def State.init : State := ⟨[], [], 0, [], [], []⟩

/-- Something that happens; times are in milliseconds. -/
inductive Event
  /-- `acquire` with a hook; the pragmas may fail. -/
  | acquire (sessionID : String) (reader pragmas : Bool) (now : ℕ)
  /-- The hook of a call ends. -/
  | settles (db : ℕ) (ok : Bool) (now : ℕ)
  /-- The consumer of a stream goes on; a stream that begins finds so many messages. -/
  | next (reader : ℕ) (found : ℕ)
  | sweep (now : ℕ)
  | close (sessionID : String)
  | closeAll

namespace State

variable (capacity idleMs : ℕ) (s : State)

def closeDb (db : ℕ) : State := { s with writers := s.writers.filter fun w => w.db ≠ db }

def close (sessionID : String) : State :=
  match Table.lookup PoolEntry.sessionID s.entries sessionID with
  | none => s
  | some entry =>
    { s.closeDb entry.db with
      entries := Table.erase PoolEntry.sessionID sessionID s.entries }

/-- The entry that was used the longest ago, the first of them. -/
def oldest (entries : List PoolEntry) : Option PoolEntry :=
  entries.foldl (fun best entry =>
    match best with
    | none => some entry
    | some b => if entry.lastUsedMs < b.lastUsedMs then some entry else some b) none

/-- The loop of `enforceCapacity`. -/
def evict : ℕ → State → State
  | 0, s => s
  | n + 1, s =>
    if capacity < s.entries.length then
      match oldest s.entries with
      | none => s
      | some entry => evict n { s.close entry.sessionID with evicted := entry.db :: s.evicted }
    else s

/-- `enforceCapacity`: each turn of its loop closes an entry. -/
def enforceCapacity : State := evict capacity s.entries.length s

def grant (db : ℕ) (reader : Bool) : List Reader :=
  if reader then s.readers ++ [⟨db, none⟩] else s.readers

/-- `entries.set`, and the handle is handed out. -/
def place (c : ColdOpen) (now : ℕ) : State :=
  { s with
    entries := Table.upsert PoolEntry.sessionID ⟨c.sessionID, c.db, now⟩ s.entries
    readers := s.grant c.db c.reader }

/-- `new Database`. -/
def opens (sessionID : String) : State :=
  { s with opened := s.opened + 1, writers := s.writers ++ [⟨s.opened, sessionID⟩] }

/-- `acquire` with mode `rw`: a call for a session without an entry waits for its hook. -/
def acquire (sessionID : String) (reader pragmas : Bool) (now : ℕ) : State :=
  match Table.lookup PoolEntry.sessionID s.entries sessionID with
  | some cached =>
    { s with
      entries := Table.update PoolEntry.sessionID sessionID
        (fun entry => { entry with lastUsedMs := now }) s.entries
      readers := s.grant cached.db reader }
  | none =>
    -- an error of the pragmas is thrown, and the handle stays open
    if !pragmas then s.opens sessionID
    else { s.opens sessionID with pending := s.pending ++ [⟨sessionID, s.opened, reader⟩] }

def unwait (db : ℕ) : State := { s with pending := s.pending.filter fun c => c.db ≠ db }

/-- The end of a hook: on an error the handle is closed. -/
def settles (db : ℕ) (ok : Bool) (now : ℕ) : State :=
  match Table.lookup ColdOpen.db s.pending db with
  | none => s
  | some c =>
    if ok then ((s.unwait db).place c now).enforceCapacity capacity
    else (s.unwait db).closeDb db

/-- The next message of a stream: one without its handle throws, and so it is over. -/
def next (reader found : ℕ) : State :=
  match s.readers[reader]? with
  | none => s
  | some r =>
    let ended := { s with readers := s.readers.eraseIdx reader }
    let left (rows : ℕ) := { s with readers := s.readers.set reader ⟨r.db, some rows⟩ }
    if r.rows = some 0 ∨ r.db ∉ s.writers.map Writer.db then ended
    else
      match r.rows.getD found with
      | 0 => ended
      | rows + 1 => left rows

/-- The entries that nobody asked for lately. -/
def stale (now : ℕ) : List String :=
  (s.entries.filter fun entry => entry.lastUsedMs + idleMs < now).map PoolEntry.sessionID

def step : Event → State
  | .acquire sessionID reader pragmas now => s.acquire sessionID reader pragmas now
  | .settles db ok now => s.settles capacity db ok now
  | .next reader found => s.next reader found
  | .sweep now => (s.stale idleMs now).foldl close s
  | .close sessionID => s.close sessionID
  | .closeAll => (s.entries.map PoolEntry.sessionID).foldl close s

/-! ### What is asked of the pool -/

/-- Every open handle is the one of its session or is being opened, a session has one at most, and
no stream has lost its handle to the others. -/
structure Sound : Prop where
  owned : ∀ w ∈ s.writers,
    (∃ entry ∈ s.entries, entry.sessionID = w.sessionID ∧ entry.db = w.db) ∨
      ∃ c ∈ s.pending, c.sessionID = w.sessionID ∧ c.db = w.db
  single : (s.writers.map Writer.sessionID).Nodup
  kept : ∀ r ∈ s.readers, r.Unfinished → r.db ∉ s.evicted

/-- If one entry is too many, no stream reads through the oldest one. -/
def Spares : Prop :=
  capacity < s.entries.length →
    ∀ entry ∈ oldest s.entries, ∀ r ∈ s.readers, r.Unfinished → r.db ≠ entry.db

def Calm (s : State) : Event → Prop
  | .acquire sessionID _ pragmas _ =>
    Table.lookup PoolEntry.sessionID s.entries sessionID = none →
      pragmas ∧ ∀ c ∈ s.pending, c.sessionID ≠ sessionID
  | .settles db ok now =>
    ok → ∀ c ∈ Table.lookup ColdOpen.db s.pending db,
      ((s.unwait db).place c now).Spares capacity
  | _ => True

/-! ### Which entry is the oldest -/

section

variable {capacity idleMs n : ℕ} {s : State} {entry : PoolEntry} {entries : List PoolEntry}
  {sessionID : String} {e : PoolEntry}

theorem mem_of_oldest (h : oldest entries = some entry) : entry ∈ entries := by
  induction entries using List.reverseRecOn generalizing entry with
  | nil => cases h
  | append_singleton entries e ih =>
    rw [oldest, List.foldl_append, List.foldl_cons, List.foldl_nil, ← oldest] at h
    rcases hbest : oldest entries with _ | best
    · rw [hbest] at h
      obtain rfl := Option.some.inj h
      exact List.mem_append_right _ (List.mem_singleton_self _)
    · simp only [hbest] at h
      split at h
      · obtain rfl := Option.some.inj h
        exact List.mem_append_right _ (List.mem_singleton_self _)
      · obtain rfl := Option.some.inj h
        exact List.mem_append_left _ (ih hbest)

theorem oldest_ne_none (h : entries ≠ []) : oldest entries ≠ none := by
  induction entries using List.reverseRecOn with
  | nil => exact absurd rfl h
  | append_singleton entries e ih =>
    rw [oldest, List.foldl_append, List.foldl_cons, List.foldl_nil, ← oldest]
    rcases oldest entries with _ | best
    · exact Option.some_ne_none _
    · show (if e.lastUsedMs < best.lastUsedMs then some e else some best) ≠ none
      split <;> exact Option.some_ne_none _

/-! ### Handles and entries -/

/-- What holds of every pool, with `n` entries at most: the entries and the calls that wait have
open handles of their own. -/
structure Inv (n : ℕ) (s : State) : Prop where
  keys : (s.entries.map PoolEntry.sessionID).Nodup
  room : s.entries.length ≤ n
  entry : ∀ e ∈ s.entries, ⟨e.db, e.sessionID⟩ ∈ s.writers
  cold : ∀ c ∈ s.pending, ⟨c.db, c.sessionID⟩ ∈ s.writers
  distinct : (s.entries.map PoolEntry.db ++ s.pending.map ColdOpen.db).Nodup
  handles : (s.writers.map Writer.db).Nodup
  fresh : ∀ w ∈ s.writers, w.db < s.opened
  closed : ∀ db ∈ s.evicted, db < s.opened ∧ db ∉ s.writers.map Writer.db

theorem inv_init : Inv n State.init where
  keys := List.nodup_nil
  room := Nat.zero_le n
  entry _ h := by cases h
  cold _ h := by cases h
  distinct := List.nodup_nil
  handles := List.nodup_nil
  fresh _ h := by cases h
  closed _ h := by cases h

theorem mem_closeDb {db : ℕ} {w : Writer} :
    w ∈ (s.closeDb db).writers ↔ w ∈ s.writers ∧ w.db ≠ db := by
  simp [closeDb]

theorem mem_erase :
    e ∈ Table.erase PoolEntry.sessionID sessionID s.entries ↔
      e ∈ s.entries ∧ e.sessionID ≠ sessionID := by
  simp [Table.erase]

theorem close_of_mem (h : Inv n s) (hentry : entry ∈ s.entries) :
    s.close entry.sessionID =
      { s.closeDb entry.db with
        entries := Table.erase PoolEntry.sessionID entry.sessionID s.entries } := by
  have hlookup := (Table.lookup_eq_some_iff h.keys).mpr ⟨hentry, rfl⟩
  rw [close, hlookup]

theorem Inv.entry_inj (h : Inv n s) {e' : PoolEntry} (he : e ∈ s.entries) (he' : e' ∈ s.entries)
    (hdb : e.db = e'.db) : e = e' :=
  List.inj_on_of_nodup_map (List.nodup_append.mp h.distinct).1 he he' hdb

theorem Inv.apart (h : Inv n s) {c : ColdOpen} (he : e ∈ s.entries) (hc : c ∈ s.pending) :
    e.db ≠ c.db :=
  (List.nodup_append.mp h.distinct).2.2 _ (List.mem_map_of_mem he) _ (List.mem_map_of_mem hc)

theorem Inv.mono (h : Inv n s) : Inv (n + 1) s := { h with room := Nat.le_succ_of_le h.room }

theorem Inv.close_entry (h : Inv (n + 1) s) (hentry : entry ∈ s.entries) :
    Inv n (s.close entry.sessionID) := by
  rw [close_of_mem h hentry]
  refine
    { keys := Table.nodup_erase h.keys
      room := ?_
      entry := fun e he => ?_
      cold := fun c hc => ?_
      distinct := h.distinct.sublist ((List.filter_sublist.map _).append_right _)
      handles := h.handles.sublist (List.filter_sublist.map _)
      fresh := fun w hw => h.fresh w (mem_closeDb.mp hw).1
      closed := fun db hdb => ⟨(h.closed db hdb).1, fun hmem => (h.closed db hdb).2 ?_⟩ }
  · have hlt : (Table.erase PoolEntry.sessionID entry.sessionID s.entries).length <
        s.entries.length :=
      List.length_filter_lt_length_iff_exists.mpr ⟨entry, hentry, by simp⟩
    exact Nat.lt_succ_iff.mp (hlt.trans_le h.room)
  · obtain ⟨hmem, hsession⟩ := mem_erase.mp he
    refine mem_closeDb.mpr ⟨h.entry e hmem, fun hdb => hsession ?_⟩
    rw [h.entry_inj hmem hentry hdb]
  · exact mem_closeDb.mpr ⟨h.cold c hc, (h.apart hentry hc).symm⟩
  · exact (List.filter_sublist.map _).subset hmem

theorem close_eq (sessionID : String) :
    s.close sessionID = s ∨ ∃ e ∈ s.entries, e.sessionID = sessionID := by
  rw [close]
  rcases hlookup : Table.lookup PoolEntry.sessionID s.entries sessionID with _ | e
  · exact Or.inl rfl
  · exact Or.inr ⟨e, Table.mem_of_lookup hlookup, Table.key_of_lookup hlookup⟩

theorem Inv.close (h : Inv n s) (sessionID : String) : Inv n (s.close sessionID) := by
  rcases close_eq sessionID with heq | ⟨e, he, rfl⟩
  · rw [heq]
    exact h
  · exact h.mono.close_entry he

theorem Sound.close (hs : s.Sound) (h : Inv n s) (sessionID : String) :
    (s.close sessionID).Sound := by
  rcases close_eq sessionID with heq | ⟨e, he, rfl⟩
  · rw [heq]
    exact hs
  · rw [close_of_mem h he]
    refine
      { owned := fun w hw => ?_
        single := hs.single.sublist (List.filter_sublist.map _)
        kept := hs.kept }
    obtain ⟨hmem, hdb⟩ := mem_closeDb.mp hw
    refine (hs.owned w hmem).imp_left ?_
    rintro ⟨e', he', hsession, hdb'⟩
    refine ⟨e', mem_erase.mpr ⟨he', fun hsame => hdb ?_⟩, hsession, hdb'⟩
    rw [← hdb', List.inj_on_of_nodup_map h.keys he' he hsame]

theorem foldl_close (h : Inv n s) (sessionIDs : List String) :
    Inv n (sessionIDs.foldl State.close s) ∧ (s.Sound → (sessionIDs.foldl State.close s).Sound) := by
  induction sessionIDs generalizing s with
  | nil => exact ⟨h, id⟩
  | cons sessionID sessionIDs ih =>
    obtain ⟨hinv, hsound⟩ := ih (h.close sessionID)
    exact ⟨hinv, fun hs => hsound (hs.close h sessionID)⟩

/-! ### Too many entries -/

def evictOne (s : State) (entry : PoolEntry) : State :=
  { s.close entry.sessionID with evicted := entry.db :: s.evicted }

theorem Inv.evictOne (h : Inv (n + 1) s) (hentry : entry ∈ s.entries) :
    Inv n (s.evictOne entry) := by
  have hclosed := h.close_entry hentry
  have hopen := h.fresh _ (h.entry entry hentry)
  have hwriters : (s.evictOne entry).writers = (s.closeDb entry.db).writers := by
    rw [State.evictOne, close_of_mem h hentry]
  refine { hclosed with closed := fun db hdb => ?_ }
  rcases List.mem_cons.mp hdb with rfl | hdb
  · refine ⟨?_, fun hmem => ?_⟩
    · rw [State.evictOne, close_of_mem h hentry]
      exact hopen
    · rw [hwriters] at hmem
      obtain ⟨w, hw, hdb⟩ := List.mem_map.mp hmem
      exact (mem_closeDb.mp hw).2 hdb
  · have hevicted : (s.close entry.sessionID).evicted = s.evicted := by
      rw [close_of_mem h hentry]
      rfl
    exact hclosed.closed db (by rwa [hevicted])

theorem sound_evictOne (hs : s.Sound) (h : Inv n s) (hentry : entry ∈ s.entries) :
    (s.evictOne entry).Sound ↔ ∀ r ∈ s.readers, r.Unfinished → r.db ≠ entry.db := by
  have hclosed := hs.close h entry.sessionID
  have hreaders : (s.evictOne entry).readers = s.readers := by
    rw [State.evictOne, close_of_mem h hentry]
    rfl
  constructor
  · intro hsound r hr hunfinished hdb
    refine hsound.kept r (hreaders ▸ hr) hunfinished ?_
    rw [hdb]
    exact List.mem_cons_self
  · refine fun hspares => { hclosed with kept := fun r hr hunfinished hmem => ?_ }
    rw [hreaders] at hr
    rcases List.mem_cons.mp hmem with hdb | hmem
    · exact hspares r hr hunfinished hdb
    · exact hs.kept r hr hunfinished hmem

theorem evict_of_le (h : s.entries.length ≤ capacity) : evict capacity n s = s := by
  rcases n with _ | n
  · rfl
  · exact if_neg (Nat.not_lt.mpr h)

/-- **`enforceCapacity` closes the oldest entry if there is one too many.** -/
theorem enforceCapacity_eq (h : Inv (capacity + 1) s) :
    s.entries.length ≤ capacity ∧ s.enforceCapacity capacity = s ∨
      capacity < s.entries.length ∧ ∃ e, oldest s.entries = some e ∧
        s.enforceCapacity capacity = s.evictOne e := by
  rcases Nat.lt_or_ge capacity s.entries.length with hlt | hle
  · refine Or.inr ⟨hlt, ?_⟩
    have hne : s.entries ≠ [] := by
      rintro hnil
      rw [hnil] at hlt
      exact absurd hlt (Nat.not_lt_zero _)
    obtain ⟨e, he⟩ := Option.ne_none_iff_exists'.mp (oldest_ne_none hne)
    obtain ⟨m, hm⟩ := Nat.exists_eq_succ_of_ne_zero (Nat.ne_zero_of_lt hlt)
    refine ⟨e, he, ?_⟩
    rw [enforceCapacity, hm, evict, if_pos hlt]
    simp only [he]
    exact evict_of_le (h.evictOne (mem_of_oldest he)).room
  · exact Or.inl ⟨hle, evict_of_le hle⟩

theorem Inv.enforceCapacity (h : Inv (capacity + 1) s) :
    Inv capacity (s.enforceCapacity capacity) := by
  rcases enforceCapacity_eq h with ⟨hle, heq⟩ | ⟨-, e, he, heq⟩
  · rw [heq]
    exact { h with room := hle }
  · rw [heq]
    exact h.evictOne (mem_of_oldest he)

theorem sound_enforceCapacity (hs : s.Sound) (h : Inv (capacity + 1) s) :
    (s.enforceCapacity capacity).Sound ↔ s.Spares capacity := by
  rcases enforceCapacity_eq h with ⟨hle, heq⟩ | ⟨hlt, e, he, heq⟩
  · rw [heq]
    exact iff_of_true hs fun hlt => absurd hlt (Nat.not_lt.mpr hle)
  · rw [heq, sound_evictOne hs h (mem_of_oldest he), Spares, he]
    simp [hlt]

/-! ### A handle is handed out -/

theorem mem_grant {db : ℕ} {reader : Bool} {r : Reader} (h : r ∈ s.grant db reader) :
    r ∈ s.readers ∨ r.db = db := by
  rw [grant] at h
  split at h
  · refine (List.mem_append.mp h).imp_right fun hr => ?_
    rw [List.mem_singleton.mp hr]
  · exact Or.inl h

theorem length_upsert_le (new : PoolEntry) (entries : List PoolEntry) :
    (Table.upsert PoolEntry.sessionID new entries).length ≤ entries.length + 1 := by
  rw [Table.upsert]
  split
  · rw [Table.update, List.length_map]
    exact Nat.le_succ _
  · rw [List.length_append, List.length_singleton]

variable {c : ColdOpen} {now : ℕ}

theorem Inv.place (h : Inv n s) (hwriter : ⟨c.db, c.sessionID⟩ ∈ s.writers)
    (hentries : ∀ e ∈ s.entries, e.db ≠ c.db) (hpending : ∀ c' ∈ s.pending, c'.db ≠ c.db) :
    Inv (n + 1) (s.place c now) := by
  have hkeys : ((s.place c now).entries.map PoolEntry.sessionID).Nodup :=
    Table.nodup_upsert h.keys
  refine
    { keys := hkeys
      room := (length_upsert_le _ _).trans (Nat.succ_le_succ h.room)
      entry := fun e he => ?_
      cold := h.cold
      distinct := ?_
      handles := h.handles
      fresh := h.fresh
      closed := h.closed }
  · rcases Table.mem_upsert he with rfl | ⟨he, -⟩
    · exact hwriter
    · exact h.entry e he
  · refine List.nodup_append.mpr ⟨?_, (List.nodup_append.mp h.distinct).2.1, ?_⟩
    · refine (hkeys.of_map _).map_on fun e he e' he' hdb => ?_
      rcases Table.mem_upsert he with rfl | ⟨he, -⟩
      · rcases Table.mem_upsert he' with rfl | ⟨he', -⟩
        · rfl
        · exact absurd hdb.symm (hentries e' he')
      · rcases Table.mem_upsert he' with rfl | ⟨he', -⟩
        · exact absurd hdb (hentries e he)
        · exact h.entry_inj he he' hdb
    · rintro db hdb db' hdb' rfl
      obtain ⟨e, he, rfl⟩ := List.mem_map.mp hdb
      obtain ⟨c', hc', heq⟩ := List.mem_map.mp hdb'
      rcases Table.mem_upsert he with rfl | ⟨he, -⟩
      · exact hpending c' hc' heq
      · exact h.apart he hc' heq.symm

theorem sound_place (h : Inv n s) (hwriter : ⟨c.db, c.sessionID⟩ ∈ s.writers)
    (hentries : ∀ e ∈ s.entries, e.db ≠ c.db)
    (howned : ∀ w ∈ s.writers, w.db ≠ c.db →
      (∃ e ∈ s.entries, e.sessionID = w.sessionID ∧ e.db = w.db) ∨
        ∃ c' ∈ s.pending, c'.sessionID = w.sessionID ∧ c'.db = w.db)
    (hsingle : (s.writers.map Writer.sessionID).Nodup)
    (hkept : ∀ r ∈ s.readers, r.Unfinished → r.db ∉ s.evicted) : (s.place c now).Sound := by
  have hfound : Table.lookup PoolEntry.sessionID (s.place c now).entries c.sessionID =
      some ⟨c.sessionID, c.db, now⟩ := Table.lookup_upsert.trans (if_pos rfl)
  have hnew := Table.mem_of_lookup hfound
  have hother : ∀ e ∈ s.entries, e.sessionID ≠ c.sessionID := by
    intro e he hsession
    have hsame := List.inj_on_of_nodup_map hsingle (h.entry e he) hwriter hsession
    exact hentries e he (congrArg Writer.db hsame)
  refine { owned := fun w hw => ?_, single := hsingle, kept := fun r hr hunfinished => ?_ }
  · rcases eq_or_ne w.db c.db with hdb | hdb
    · have hsame := List.inj_on_of_nodup_map h.handles hw hwriter hdb
      rw [hsame]
      exact Or.inl ⟨_, hnew, rfl, rfl⟩
    · refine (howned w hw hdb).imp_left ?_
      rintro ⟨e, he, hsession, hdb'⟩
      have hlookup : Table.lookup PoolEntry.sessionID (s.place c now).entries e.sessionID =
          some e := by
        refine Table.lookup_upsert.trans ((if_neg (hother e he)).trans ?_)
        exact (Table.lookup_eq_some_iff h.keys).mpr ⟨he, rfl⟩
      exact ⟨e, Table.mem_of_lookup hlookup, hsession, hdb'⟩
  · rcases mem_grant hr with hr | hdb
    · exact hkept r hr hunfinished
    · exact fun hmem => (h.closed _ hmem).2 (hdb ▸ List.mem_map_of_mem hwriter)

/-! ### Waiting -/

theorem Inv.unwait (h : Inv n s) (db : ℕ) : Inv n (s.unwait db) where
  keys := h.keys
  room := h.room
  entry := h.entry
  cold c hc := h.cold c (List.mem_filter.mp hc).1
  distinct := h.distinct.sublist ((List.filter_sublist.map _).append_left _)
  handles := h.handles
  fresh := h.fresh
  closed := h.closed

theorem Inv.opens (h : Inv n s) (sessionID : String) : Inv n (s.opens sessionID) where
  keys := h.keys
  room := h.room
  entry e he := List.mem_append_left _ (h.entry e he)
  cold c hc := List.mem_append_left _ (h.cold c hc)
  distinct := h.distinct
  handles := by
    rw [State.opens, List.map_append, List.map_singleton, ← List.concat_eq_append]
    refine h.handles.concat fun hmem => ?_
    obtain ⟨w, hw, hdb⟩ := List.mem_map.mp hmem
    exact absurd hdb (h.fresh w hw).ne
  fresh w hw := by
    rcases List.mem_append.mp hw with hw | hw
    · exact (h.fresh w hw).trans (Nat.lt_succ_self _)
    · rw [List.mem_singleton.mp hw]
      exact Nat.lt_succ_self _
  closed db hdb := by
    obtain ⟨hlt, hnot⟩ := h.closed db hdb
    refine ⟨hlt.trans (Nat.lt_succ_self _), fun hmem => ?_⟩
    rw [State.opens, List.map_append, List.mem_append] at hmem
    rcases hmem with hmem | hmem
    · exact hnot hmem
    · exact absurd (List.mem_singleton.mp hmem) hlt.ne

def waits (s : State) (sessionID : String) (reader : Bool) : State :=
  { s.opens sessionID with pending := s.pending ++ [⟨sessionID, s.opened, reader⟩] }

theorem Inv.waits (h : Inv n s) (sessionID : String) (reader : Bool) :
    Inv n (s.waits sessionID reader) := by
  refine { h.opens sessionID with cold := fun c hc => ?_, distinct := ?_ }
  · rcases List.mem_append.mp hc with hc | hc
    · exact List.mem_append_left _ (h.cold c hc)
    · rw [List.mem_singleton.mp hc]
      exact List.mem_append_right _ (List.mem_singleton_self _)
  · rw [State.waits, List.map_append, ← List.append_assoc, List.map_singleton,
      ← List.concat_eq_append]
    refine h.distinct.concat fun hmem => ?_
    rcases List.mem_append.mp hmem with hmem | hmem
    · obtain ⟨e, he, hdb⟩ := List.mem_map.mp hmem
      exact absurd hdb (h.fresh _ (h.entry e he)).ne
    · obtain ⟨c, hc, hdb⟩ := List.mem_map.mp hmem
      exact absurd hdb (h.fresh _ (h.cold c hc)).ne

/-- **A second call that opens a handle of a session is the first that goes wrong.** -/
theorem sound_waits (hs : s.Sound) (h : Inv n s) {reader : Bool}
    (hnone : ∀ e ∈ s.entries, e.sessionID ≠ sessionID) :
    (s.waits sessionID reader).Sound ↔ ∀ c ∈ s.pending, c.sessionID ≠ sessionID := by
  have hwriters : (s.waits sessionID reader).writers.map Writer.sessionID =
      (s.writers.map Writer.sessionID).concat sessionID := by
    rw [List.concat_eq_append]
    exact List.map_append
  constructor
  · rintro hsound c hc rfl
    have hnodup := hsound.single
    rw [hwriters] at hnodup
    have hdisjoint := (List.nodup_append.mp (List.concat_eq_append ▸ hnodup)).2.2
    exact hdisjoint _ (List.mem_map_of_mem (h.cold c hc)) _ (List.mem_singleton_self _) rfl
  · intro hpending
    refine { owned := fun w hw => ?_, single := ?_, kept := hs.kept }
    · rcases List.mem_append.mp hw with hw | hw
      · refine (hs.owned w hw).imp_right ?_
        rintro ⟨c, hc, hsame⟩
        exact ⟨c, List.mem_append_left _ hc, hsame⟩
      · rw [List.mem_singleton.mp hw]
        exact Or.inr ⟨_, List.mem_append_right _ (List.mem_singleton_self _), rfl, rfl⟩
    · rw [hwriters]
      refine hs.single.concat fun hmem => ?_
      obtain ⟨w, hw, hsession⟩ := List.mem_map.mp hmem
      rcases hs.owned w hw with ⟨e, he, hsame, -⟩ | ⟨c, hc, hsame, -⟩
      · exact hnone e he (hsame.trans hsession)
      · exact hpending c hc (hsame.trans hsession)

theorem not_sound_opens (h : Inv n s) (sessionID : String) : ¬(s.opens sessionID).Sound := by
  intro hsound
  rcases hsound.owned ⟨s.opened, sessionID⟩
      (List.mem_append_right _ (List.mem_singleton_self _)) with ⟨e, he, -, hdb⟩ | ⟨c, hc, -, hdb⟩
  · exact absurd hdb (h.fresh _ (h.entry e he)).ne
  · exact absurd hdb (h.fresh _ (h.cold c hc)).ne

/-! ### Steps -/

theorem update_lastUsed {now : ℕ}
    (he : e ∈ Table.update PoolEntry.sessionID sessionID
      (fun entry => { entry with lastUsedMs := now }) entries) :
    ∃ e' ∈ entries, e'.sessionID = e.sessionID ∧ e'.db = e.db := by
  obtain ⟨e', he', rfl⟩ := List.mem_map.mp he
  refine ⟨e', he', ?_⟩
  split <;> exact ⟨rfl, rfl⟩

def warm (s : State) (cached : PoolEntry) (reader : Bool) (now : ℕ) : State :=
  { s with
    entries := Table.update PoolEntry.sessionID cached.sessionID
      (fun entry => { entry with lastUsedMs := now }) s.entries
    readers := s.grant cached.db reader }

theorem map_warm {β : Type} {f : PoolEntry → β} (cached : PoolEntry) (reader : Bool) (now : ℕ)
    (hf : ∀ e : PoolEntry, f { e with lastUsedMs := now } = f e) :
    (s.warm cached reader now).entries.map f = s.entries.map f := by
  rw [State.warm, Table.update, List.map_map]
  refine List.map_congr_left fun e _ => ?_
  rw [Function.comp_apply]
  split
  · exact hf e
  · rfl

theorem Inv.warm (h : Inv n s) (cached : PoolEntry) (reader : Bool) (now : ℕ) :
    Inv n (s.warm cached reader now) := by
  have hkeys : (s.warm cached reader now).entries.map PoolEntry.sessionID =
      s.entries.map PoolEntry.sessionID := map_warm cached reader now fun _ => rfl
  have hdbs : (s.warm cached reader now).entries.map PoolEntry.db = s.entries.map PoolEntry.db :=
    map_warm cached reader now fun _ => rfl
  refine
    { keys := ?_
      room := ?_
      entry := fun e he => ?_
      cold := h.cold
      distinct := ?_
      handles := h.handles
      fresh := h.fresh
      closed := h.closed }
  · rw [hkeys]
    exact h.keys
  · rw [State.warm, Table.update, List.length_map]
    exact h.room
  · obtain ⟨e', he', hsession, hdb⟩ := update_lastUsed he
    rw [← hsession, ← hdb]
    exact h.entry e' he'
  · rw [hdbs]
    exact h.distinct

theorem Sound.warm (hs : s.Sound) (h : Inv n s) {cached : PoolEntry} (hcached : cached ∈ s.entries)
    (reader : Bool) (now : ℕ) : (s.warm cached reader now).Sound where
  owned w hw := by
    refine (hs.owned w hw).imp_left ?_
    rintro ⟨e, he, hsession, hdb⟩
    refine ⟨_, List.mem_map_of_mem he, ?_, ?_⟩
    · split <;> exact hsession
    · split <;> exact hdb
  single := hs.single
  kept r hr hunfinished := by
    rcases mem_grant hr with hr | hdb
    · exact hs.kept r hr hunfinished
    · exact fun hmem => (h.closed _ hmem).2 (hdb ▸ List.mem_map_of_mem (h.entry cached hcached))

theorem Inv.throws (h : Inv n s) (db : ℕ) (hcold : ∀ e ∈ s.entries, e.db ≠ db) :
    Inv n ((s.unwait db).closeDb db) := by
  have hwait := h.unwait db
  refine
    { hwait with
      entry := fun e he => mem_closeDb.mpr ⟨h.entry e he, hcold e he⟩
      cold := fun c' hc' => mem_closeDb.mpr ⟨hwait.cold c' hc', ?_⟩
      handles := h.handles.sublist (List.filter_sublist.map _)
      fresh := fun w hw => h.fresh w (mem_closeDb.mp hw).1
      closed := fun db' hdb => ⟨(h.closed db' hdb).1, fun hmem => (h.closed db' hdb).2 ?_⟩ }
  · simpa using (List.mem_filter.mp hc').2
  · exact (List.filter_sublist.map _).subset hmem

theorem Sound.throws (hs : s.Sound) (db : ℕ) : ((s.unwait db).closeDb db).Sound where
  owned w hw := by
    obtain ⟨hw, hdb⟩ := mem_closeDb.mp hw
    refine (hs.owned w hw).imp_right ?_
    rintro ⟨c', hc', hsession, hdb'⟩
    refine ⟨c', List.mem_filter.mpr ⟨hc', ?_⟩, hsession, hdb'⟩
    rw [hdb']
    simpa using hdb
  single := hs.single.sublist (List.filter_sublist.map _)
  kept := hs.kept

theorem acquire_cases (s : State) (sessionID : String) (reader pragmas : Bool) (now : ℕ) :
    (∃ cached, Table.lookup PoolEntry.sessionID s.entries sessionID = some cached ∧
      cached.sessionID = sessionID ∧
      s.acquire sessionID reader pragmas now = s.warm cached reader now) ∨
    (Table.lookup PoolEntry.sessionID s.entries sessionID = none ∧
      s.acquire sessionID reader pragmas now =
        if pragmas then s.waits sessionID reader else s.opens sessionID) := by
  rcases hlookup : Table.lookup PoolEntry.sessionID s.entries sessionID with _ | cached
  · refine Or.inr ⟨rfl, ?_⟩
    rw [acquire, hlookup]
    cases pragmas <;> rfl
  · obtain rfl := Table.key_of_lookup hlookup
    refine Or.inl ⟨cached, rfl, rfl, ?_⟩
    rw [acquire, hlookup]
    rfl

theorem settles_cases (capacity : ℕ) (s : State) (db : ℕ) (ok : Bool) (now : ℕ) :
    (Table.lookup ColdOpen.db s.pending db = none ∧ s.settles capacity db ok now = s) ∨
    ∃ c ∈ s.pending, Table.lookup ColdOpen.db s.pending db = some c ∧ c.db = db ∧
      s.settles capacity db ok now =
        if ok then ((s.unwait db).place c now).enforceCapacity capacity
        else (s.unwait db).closeDb db := by
  rcases hlookup : Table.lookup ColdOpen.db s.pending db with _ | c
  · refine Or.inl ⟨rfl, ?_⟩
    rw [settles, hlookup]
  · refine Or.inr ⟨c, Table.mem_of_lookup hlookup, rfl, Table.key_of_lookup hlookup, ?_⟩
    rw [settles, hlookup]

theorem next_cases (s : State) (reader found : ℕ) :
    ∃ readers, s.next reader found = { s with readers := readers } ∧
      ∀ r ∈ readers, r.Unfinished → ∃ r' ∈ s.readers, r'.Unfinished ∧ r'.db = r.db := by
  have hsame : ∀ readers : List Reader, (∀ r ∈ readers, r ∈ s.readers) →
      ∀ r ∈ readers, r.Unfinished → ∃ r' ∈ s.readers, r'.Unfinished ∧ r'.db = r.db :=
    fun _ hsub r hr hunfinished => ⟨r, hsub r hr, hunfinished, rfl⟩
  have hover := hsame (s.readers.eraseIdx reader) fun _ hr => List.mem_of_mem_eraseIdx hr
  rw [next]
  rcases hreader : s.readers[reader]? with _ | old
  · exact ⟨s.readers, rfl, hsame _ fun _ => id⟩
  · show ∃ readers, (if old.rows = some 0 ∨ _ then _ else _) = _ ∧ _
    split
    next => exact ⟨_, rfl, hover⟩
    next hread =>
      split
      next => exact ⟨_, rfl, hover⟩
      next rows _ =>
        refine ⟨_, rfl, fun r hr hunfinished => ?_⟩
        rcases List.mem_or_eq_of_mem_set hr with hr | rfl
        · exact ⟨r, hr, hunfinished, rfl⟩
        · exact ⟨old, List.mem_of_getElem? hreader, (not_or.mp hread).1, rfl⟩

theorem Inv.settled (h : Inv n s) (hc : c ∈ s.pending) :
    Inv (n + 1) ((s.unwait c.db).place c now) :=
  (h.unwait c.db).place (h.cold c hc) (fun _ he => h.apart he hc) fun c' hc' => by
    simpa using (List.mem_filter.mp hc').2

theorem Sound.settled (hs : s.Sound) (h : Inv n s) (hc : c ∈ s.pending) :
    ((s.unwait c.db).place c now).Sound := by
  refine sound_place (h.unwait c.db) (h.cold c hc) (fun _ he => h.apart he hc) ?_ hs.single hs.kept
  intro w hw hdb
  refine (hs.owned w hw).imp_right ?_
  rintro ⟨c', hc', hsession, hdb'⟩
  refine ⟨c', List.mem_filter.mpr ⟨hc', ?_⟩, hsession, hdb'⟩
  rw [hdb']
  simpa using hdb

theorem Inv.step (h : Inv capacity s) (e : Event) : Inv capacity (s.step capacity idleMs e) := by
  rcases e with ⟨sessionID, reader, pragmas, now⟩ | ⟨db, ok, now⟩ | ⟨reader, found⟩ | now |
    sessionID | _
  · rw [State.step]
    rcases acquire_cases s sessionID reader pragmas now with ⟨cached, -, -, heq⟩ | ⟨-, heq⟩
    · rw [heq]
      exact h.warm cached reader now
    · rw [heq]
      split
      · exact h.waits sessionID reader
      · exact h.opens sessionID
  · rw [State.step]
    rcases settles_cases capacity s db ok now with ⟨-, heq⟩ | ⟨c, hc, -, rfl, heq⟩
    · rw [heq]
      exact h
    · rw [heq]
      split
      · exact (h.settled hc).enforceCapacity
      · exact h.throws c.db fun _ he => h.apart he hc
  · obtain ⟨readers, heq, -⟩ := next_cases s reader found
    rw [State.step, heq]
    exact { h with }
  · exact (foldl_close h _).1
  · exact h.close sessionID
  · exact (foldl_close h _).1

/-- **A step keeps what is asked of the pool exactly if it is a calm one.** -/
theorem sound_step (h : Inv capacity s) (hs : s.Sound) (e : Event) :
    (s.step capacity idleMs e).Sound ↔ s.Calm capacity e := by
  rcases e with ⟨sessionID, reader, pragmas, now⟩ | ⟨db, ok, now⟩ | ⟨reader, found⟩ | now |
    sessionID | _
  · rw [State.step, Calm]
    rcases acquire_cases s sessionID reader pragmas now with
      ⟨cached, hlookup, -, heq⟩ | ⟨hlookup, heq⟩
    · rw [heq, hlookup]
      exact iff_of_true (hs.warm h (Table.mem_of_lookup hlookup) reader now) fun hnone => by
        cases hnone
    · have hnone : ∀ e ∈ s.entries, e.sessionID ≠ sessionID := by
        rintro e he rfl
        exact Table.lookup_eq_none.mp hlookup (List.mem_map_of_mem he)
      rw [heq, hlookup]
      cases pragmas with
      | true => simpa using sound_waits hs h hnone
      | false => simpa using not_sound_opens h sessionID
  · rw [State.step, Calm]
    rcases settles_cases capacity s db ok now with ⟨hlookup, heq⟩ | ⟨c, hc, hlookup, rfl, heq⟩
    · rw [heq, hlookup]
      exact iff_of_true hs fun _ c hc => by cases hc
    · rw [heq, hlookup]
      cases ok with
      | true => simpa using sound_enforceCapacity (hs.settled h hc) (h.settled hc)
      | false => simpa using hs.throws c.db
  · obtain ⟨readers, heq, hreaders⟩ := next_cases s reader found
    rw [State.step, heq]
    refine iff_of_true { hs with kept := fun r hr hunfinished => ?_ } trivial
    obtain ⟨r', hr', hunfinished', hdb⟩ := hreaders r hr hunfinished
    exact hdb ▸ hs.kept r' hr' hunfinished'
  · exact iff_of_true ((foldl_close h _).2 hs) trivial
  · exact iff_of_true (hs.close h sessionID) trivial
  · exact iff_of_true ((foldl_close h _).2 hs) trivial

end

end State

/-- **What is asked of the pool holds in every state that it reaches exactly if its steps are
calm**: no handle is opened for a session while another one is being opened for it, none is left
open because its pragmas failed, and none is closed for the others that a stream still reads
through. -/
theorem acquired_sound_iff (capacity idleMs : ℕ) (events : List Event) :
    (∀ past, past <+: events → (run (State.step capacity idleMs) State.init past).Sound) ↔
      Meets (State.step capacity idleMs) (State.Calm capacity) State.init events := by
  refine throughout_iff_meets (State.Inv capacity) State.Sound State.inv_init ?_
    (fun s e h => h.step e) (fun s e h hs => State.sound_step h hs e) events
  exact
    { owned := fun _ h => by cases h
      single := List.nodup_nil
      kept := fun _ h => by cases h }

/-- **Two calls for one session at the same time open two handles**, and only the second of them
gets into the pool. -/
theorem not_acquired_sound : ¬∀ (capacity idleMs : ℕ) (events : List Event),
    ∀ past, past <+: events → (run (State.step capacity idleMs) State.init past).Sound := by
  intro h
  have hsound := h 32 60000 [.acquire "ses_1" false true 0, .acquire "ses_1" false true 1,
    .settles 0 true 2, .settles 1 true 3] _ (List.prefix_refl _)
  exact absurd hsound.single (by decide)

end OpenCms.ConnectionPool
