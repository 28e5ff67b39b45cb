import OpenCms.Lib.Runs
import Mathlib.Data.List.Nodup
import Mathlib.Data.List.Sublists
import Mathlib.Logic.Function.Basic

/-!
# The read/write lock

Whoever asks for a key gets a handle when the lock of the key lets them in, and until then waits
in a queue of that lock. A lock is made when its key is asked for and dropped when nobody holds
it, and a handle still knows the lock it came from; so there may be two locks of a key, one of
them not found under the key any more. That there are never two that matter is what the
invariant `OpenCms.Lock.Sound` says: what is held or waits is of the lock found under its key.

Locks are told apart by where they are in `OpenCms.Lock.State.heap`, and the calls by when they
were made.
-/

namespace OpenCms.Lock

/-- A call of `Lock.read` or `Lock.write`, with the lock that it found. -/
structure Request (K : Type) where
  promise : ℕ
  key : K
  lock : ℕ
  write : Bool
  deriving DecidableEq

/-- An entry of `locks`. A waiting call is what its closure admits. -/
structure LockState (K : Type) where
  readers : ℤ := 0
  writer : Bool := false
  waitingReaders : List (Request K) := []
  waitingWriters : List (Request K) := []

/-- The state: the locks that were ever made, those found under a key, the calls, those that
were given a handle, in that order, and those whose handle is not disposed of. -/
structure State (K : Type) where
  heap : ℕ → LockState K
  next : ℕ
  locks : K → Option ℕ
  requests : List (Request K)
  admitted : List (Request K)
  held : List (Request K)

def State.start {K : Type} : State K where
  heap _ := {}
  next := 0
  locks _ := none
  requests := []
  admitted := []
  held := []

section Operations

variable {K : Type} [DecidableEq K]

/-! ### The operations -/

def get (s : State K) (key : K) : State K × ℕ :=
  match s.locks key with
  | some lock => (s, lock)
  | none =>
    ({ s with
      heap := Function.update s.heap s.next {}
      next := s.next + 1
      locks := Function.update s.locks key (some s.next) }, s.next)

/-- The lock counts a call, whose promise is resolved with a handle. -/
def State.accept (s : State K) (request : Request K) : State K :=
  let lock := s.heap request.lock
  { s with
    heap := Function.update s.heap request.lock
      (if request.write then { lock with writer := true }
      else { lock with readers := lock.readers + 1 })
    admitted := s.admitted ++ [request]
    held := s.held ++ [request] }

def State.wait (s : State K) (request : Request K) : State K :=
  let lock := s.heap request.lock
  { s with
    heap := Function.update s.heap request.lock
      (if request.write then { lock with waitingWriters := lock.waitingWriters ++ [request] }
      else { lock with waitingReaders := lock.waitingReaders ++ [request] }) }

def process (s : State K) (key : K) : State K :=
  match s.locks key with
  | none => s
  | some ref =>
    let lock := s.heap ref
    if lock.writer ∨ 0 < lock.readers then s
    else
      -- a writer is let in before all readers
      match lock.waitingWriters with
      | nextWriter :: waitingWriters =>
        State.accept { s with heap := Function.update s.heap ref { lock with waitingWriters } }
          nextWriter
      | [] =>
        let s := lock.waitingReaders.foldl State.accept
          { s with heap := Function.update s.heap ref { lock with waitingReaders := [] } }
        -- nobody was waiting
        let lock := s.heap ref
        if lock.readers = 0 ∧ ¬lock.writer ∧ lock.waitingReaders = [] ∧ lock.waitingWriters = []
        then { s with locks := Function.update s.locks key none }
        else s

def State.call (s : State K) (key : K) (lock : ℕ) (write : Bool) : State K × Request K :=
  let request : Request K := ⟨s.requests.length, key, lock, write⟩
  ({ s with requests := s.requests ++ [request] }, request)

def read (s : State K) (key : K) : State K :=
  let (s, ref) := get s key
  let lock := s.heap ref
  let (s, request) := s.call key ref false
  if ¬lock.writer ∧ lock.waitingWriters = [] then s.accept request else s.wait request

def write (s : State K) (key : K) : State K :=
  let (s, ref) := get s key
  let lock := s.heap ref
  let (s, request) := s.call key ref true
  if ¬lock.writer ∧ lock.readers = 0 then s.accept request else s.wait request

/-- The lock does not count a call any more. -/
def State.release (s : State K) (request : Request K) : State K :=
  let lock := s.heap request.lock
  { s with
    heap := Function.update s.heap request.lock
      (if request.write then { lock with writer := false }
      else { lock with readers := lock.readers - 1 })
    held := s.held.erase request }

def dispose (s : State K) (request : Request K) : State K :=
  process (s.release request) request.key

/-- What may happen. A handle can be disposed of when it was given to a call. -/
inductive Event (K : Type)
  | read (key : K)
  | write (key : K)
  | dispose (request : Request K)

def step (s : State K) : Event K → State K
  | .read key => read s key
  | .write key => write s key
  | .dispose request => if request ∈ s.held then dispose s request else s

end Operations

/-! ### What is required -/

variable {K : Type}

def Exclusive (s : State K) : Prop :=
  s.held.Nodup ∧ ∀ request ∈ s.held, ∀ request' ∈ s.held, request.key = request'.key →
    request.write = true → request = request'

def State.waiting [DecidableEq K] (s : State K) : List (Request K) :=
  s.requests.filter (· ∉ s.admitted)

def Woken [DecidableEq K] (s : State K) : Prop :=
  ∀ request ∈ s.waiting, ∃ holder ∈ s.held, holder.key = request.key

def WritersFirst [DecidableEq K] (events : List (Event K)) : Prop :=
  ∀ before key after, events = before ++ .read key :: after →
    ∀ writer ∈ (run step .start before).waiting, writer.key = key → writer.write = true →
      ∀ reader ∈ (run step .start events).admitted,
        reader.promise = (run step .start before).requests.length →
          [writer, reader].Sublist (run step .start events).admitted

/-! ### The invariant -/

variable {s : State K} {request : Request K} {todo : List (Request K)} {lock : ℕ} {key : K}
  {r : Request K}

def State.holders (s : State K) (lock : ℕ) : List (Request K) :=
  s.held.filter (·.lock = lock)

def Counted (lock : LockState K) (holders : List (Request K)) : Prop :=
  (lock.writer = false ∧ lock.readers = holders.length ∧ ∀ r ∈ holders, r.write = false) ∨
    (lock.writer = true ∧ lock.readers = 0 ∧ ∃ writer, holders = [writer] ∧ writer.write = true)

def LockState.queue (lock : LockState K) (write : Bool) : List (Request K) :=
  if write then lock.waitingWriters else lock.waitingReaders

/-- What holds between two steps, and inside of one, when the calls `todo` have left the queue
they were in, or did not come to one yet. -/
structure Linked (s : State K) (todo : List (Request K)) : Prop where
  locks_lt : ∀ {key : K} {lock : ℕ}, s.locks key = some lock → lock < s.next
  locks_inj : ∀ {key key' : K} {lock : ℕ}, s.locks key = some lock →
    s.locks key' = some lock → key = key'
  promise_lt : ∀ r ∈ s.requests, r.promise < s.requests.length
  promise_inj : ∀ r ∈ s.requests, ∀ r' ∈ s.requests, r.promise = r'.promise → r = r'
  admitted_nodup : s.admitted.Nodup
  admitted_sub : ∀ r ∈ s.admitted, r ∈ s.requests
  held_admitted : s.held.Sublist s.admitted
  /-- What is held or waits is of the lock found under its key. -/
  place : ∀ r ∈ s.requests, r ∈ s.held ∨ r ∉ s.admitted → s.locks r.key = some r.lock
  queued : ∀ r ∈ s.requests, r ∉ s.admitted → r ∈ todo ∨ r ∈ (s.heap r.lock).queue r.write
  todo_nodup : todo.Nodup
  todo_sub : ∀ r ∈ todo, r ∈ s.requests ∧ r ∉ s.admitted ∧ r ∉ (s.heap r.lock).queue r.write
  queue_nodup : ∀ lock write, ((s.heap lock).queue write).Nodup
  queue_sub : ∀ lock write, ∀ r ∈ (s.heap lock).queue write,
    r ∈ s.requests ∧ r ∉ s.admitted ∧ r.lock = lock ∧ r.write = write
  counted : ∀ lock, Counted (s.heap lock) (s.holders lock)

/-- A lock found under a key is held. -/
structure Sound (s : State K) : Prop where
  linked : Linked s []
  occupied : ∀ key lock, s.locks key = some lock → s.holders lock ≠ []

theorem LockState.queue_nil (write : Bool) : ({} : LockState K).queue write = [] := by
  cases write <;> rfl

theorem mem_holders : r ∈ s.holders lock ↔ r ∈ s.held ∧ r.lock = lock := by
  simp [State.holders]

theorem Sound.start : Sound (.start : State K) := by
  refine ⟨⟨?_, ?_, ?_, ?_, List.nodup_nil, ?_, List.Sublist.refl _, ?_, ?_, List.nodup_nil, ?_,
    fun lock write => ?_, fun lock write r hr => ?_, fun lock => Or.inl ⟨rfl, rfl, ?_⟩⟩, ?_⟩
  all_goals try simp [State.start]
  · show (({} : LockState K).queue write).Nodup
    rw [LockState.queue_nil]
    exact List.nodup_nil
  · simp [State.start, LockState.queue_nil] at hr
  · simp [State.holders]

theorem Linked.held_requests (h : Linked s todo) (hr : r ∈ s.held) :
    r ∈ s.requests := h.admitted_sub r (h.held_admitted.subset hr)

theorem Linked.held_nodup (h : Linked s todo) : s.held.Nodup :=
  h.admitted_nodup.sublist h.held_admitted

theorem Linked.lock_lt (h : Linked s todo) (hr : r ∈ s.requests)
    (hlive : r ∈ s.held ∨ r ∉ s.admitted) : r.lock < s.next :=
  h.locks_lt (h.place r hr hlive)

theorem Linked.fresh [DecidableEq K] (h : Linked s []) (hkey : s.locks key = none) :
    Linked
      { s with
        heap := Function.update s.heap s.next {}
        next := s.next + 1
        locks := Function.update s.locks key (some s.next) } [] := by
  have hlookup {key' : K} {lock : ℕ}
      (hlock : Function.update s.locks key (some s.next) key' = some lock) :
      key' = key ∧ lock = s.next ∨ s.locks key' = some lock := by
    rcases eq_or_ne key' key with rfl | hne
    · rw [Function.update_self] at hlock
      exact Or.inl ⟨rfl, (Option.some.inj hlock).symm⟩
    · rw [Function.update_of_ne hne] at hlock
      exact Or.inr hlock
  refine ⟨fun hlock => ?_, fun hlock hlock' => ?_, h.promise_lt, h.promise_inj, h.admitted_nodup,
    h.admitted_sub, h.held_admitted, fun r hr hlive => ?_, fun r hr hwaits => Or.inr ?_,
    List.nodup_nil, fun r hr => absurd hr List.not_mem_nil, fun lock write => ?_,
    fun lock write => ?_, fun lock => ?_⟩
  all_goals dsimp only at *
  · rcases hlookup hlock with ⟨-, rfl⟩ | hold
    · exact Nat.lt_succ_self _
    · exact (h.locks_lt hold).trans (Nat.lt_succ_self _)
  · rcases hlookup hlock with ⟨rfl, rfl⟩ | hold
    · rcases hlookup hlock' with ⟨rfl, -⟩ | hold'
      · rfl
      · exact absurd (h.locks_lt hold') (lt_irrefl _)
    · rcases hlookup hlock' with ⟨-, rfl⟩ | hold'
      · exact absurd (h.locks_lt hold) (lt_irrefl _)
      · exact h.locks_inj hold hold'
  · have hplace := h.place r hr hlive
    have hne : r.key ≠ key := by
      rintro rfl
      simp [hkey] at hplace
    exact (Function.update_of_ne hne ..).trans hplace
  · rw [Function.update_of_ne (h.lock_lt hr (Or.inr hwaits)).ne]
    exact (h.queued r hr hwaits).resolve_left List.not_mem_nil
  · rcases eq_or_ne lock s.next with rfl | hne
    · rw [Function.update_self, LockState.queue_nil]
      exact List.nodup_nil
    · rw [Function.update_of_ne hne]
      exact h.queue_nodup lock write
  · rcases eq_or_ne lock s.next with rfl | hne
    · rw [Function.update_self, LockState.queue_nil]
      exact fun r hr => absurd hr List.not_mem_nil
    · rw [Function.update_of_ne hne]
      exact h.queue_sub lock write
  · rcases eq_or_ne lock s.next with rfl | hne
    · rw [Function.update_self]
      have hnone : State.holders
          { s with
            heap := Function.update s.heap s.next {}
            next := s.next + 1
            locks := Function.update s.locks key (some s.next) } s.next = [] := by
        refine List.eq_nil_iff_forall_not_mem.mpr fun r hr => ?_
        obtain ⟨hheld, hlock⟩ := mem_holders.mp hr
        exact absurd hlock (h.lock_lt (h.held_requests hheld) (Or.inl hheld)).ne
      rw [hnone]
      exact Or.inl ⟨rfl, rfl, fun r hr => absurd hr List.not_mem_nil⟩
    · rw [Function.update_of_ne hne]
      exact h.counted lock

theorem Linked.call {write : Bool} (h : Linked s []) (hlock : s.locks key = some lock) :
    Linked (s.call key lock write).1 [(s.call key lock write).2] := by
  unfold State.call
  have hnew : (⟨s.requests.length, key, lock, write⟩ : Request K) ∉ s.requests := fun hmem =>
    absurd (h.promise_lt _ hmem) (lt_irrefl _)
  have hmem {r : Request K} (hr : r ∈ s.requests ++ [⟨s.requests.length, key, lock, write⟩]) :
      r ∈ s.requests ∨ r = ⟨s.requests.length, key, lock, write⟩ :=
    (List.mem_append.mp hr).imp_right List.mem_singleton.mp
  refine ⟨h.locks_lt, h.locks_inj, fun r hr => ?_, fun r hr r' hr' heq => ?_, h.admitted_nodup,
    fun r hr => List.mem_append_left _ (h.admitted_sub r hr), h.held_admitted,
    fun r hr hlive => ?_, fun r hr hwaits => ?_, List.nodup_singleton _, fun r hr => ?_,
    h.queue_nodup, fun lock' write' r hr => ?_, h.counted⟩
  · rw [List.length_append, List.length_singleton]
    rcases hmem hr with hold | rfl
    · exact (h.promise_lt r hold).trans (Nat.lt_succ_self _)
    · exact Nat.lt_succ_self _
  · rcases hmem hr with hold | rfl
    · rcases hmem hr' with hold' | rfl
      · exact h.promise_inj r hold r' hold' heq
      · exact absurd (h.promise_lt r hold) heq.not_lt
    · rcases hmem hr' with hold' | rfl
      · exact absurd (h.promise_lt r' hold') heq.not_gt
      · rfl
  · rcases hmem hr with hold | rfl
    · exact h.place r hold hlive
    · exact hlock
  · rcases hmem hr with hold | rfl
    · exact Or.inr ((h.queued r hold hwaits).resolve_left List.not_mem_nil)
    · exact Or.inl List.mem_cons_self
  · obtain rfl := List.mem_singleton.mp hr
    refine ⟨List.mem_append_right _ List.mem_cons_self,
      fun hadmitted => hnew (h.admitted_sub _ hadmitted), fun hqueue => ?_⟩
    exact hnew (h.queue_sub _ _ _ hqueue).1
  · obtain ⟨hold, hrest⟩ := h.queue_sub lock' write' r hr
    exact ⟨List.mem_append_left _ hold, hrest⟩

theorem State.wait_queue (s : State K) (request : Request K) (lock : ℕ) (write : Bool) :
    ((s.wait request).heap lock).queue write =
      if lock = request.lock ∧ write = request.write then (s.heap lock).queue write ++ [request]
      else (s.heap lock).queue write := by
  unfold State.wait
  dsimp only
  rcases eq_or_ne lock request.lock with rfl | hne
  · cases write <;> cases hwrite : request.write <;> simp [LockState.queue]
  · rw [Function.update_of_ne hne, if_neg fun h => hne h.1]

theorem Linked.wait (h : Linked s [request]) : Linked (s.wait request) [] := by
  obtain ⟨hrequest, hwaits, hnew⟩ := h.todo_sub request List.mem_cons_self
  have hcounted (lock : ℕ) : Counted ((s.wait request).heap lock) (s.holders lock) := by
    unfold State.wait
    dsimp only
    rcases eq_or_ne lock request.lock with rfl | hne
    · rw [Function.update_self]
      cases request.write <;> exact h.counted _
    · rw [Function.update_of_ne hne]
      exact h.counted lock
  refine ⟨h.locks_lt, h.locks_inj, h.promise_lt, h.promise_inj, h.admitted_nodup,
    h.admitted_sub, h.held_admitted, h.place, fun r hr hr' => Or.inr ?_, List.nodup_nil,
    fun r hr => absurd hr List.not_mem_nil, fun lock write => ?_, fun lock write r hr => ?_,
    hcounted⟩
  · rw [State.wait_queue]
    rcases h.queued r hr hr' with hsame | hqueue
    · obtain rfl := List.mem_singleton.mp hsame
      rw [if_pos ⟨rfl, rfl⟩]
      exact List.mem_append_right _ List.mem_cons_self
    · split
      · exact List.mem_append_left _ hqueue
      · exact hqueue
  · rw [State.wait_queue]
    split
    next hsame =>
      obtain ⟨rfl, rfl⟩ := hsame
      have hnodup := (h.queue_nodup _ _).concat hnew
      rwa [List.concat_eq_append] at hnodup
    · exact h.queue_nodup lock write
  · rw [State.wait_queue] at hr
    split at hr
    next hsame =>
      obtain ⟨rfl, rfl⟩ := hsame
      rcases List.mem_append.mp hr with hold | hlast
      · exact h.queue_sub _ _ r hold
      · obtain rfl := List.mem_singleton.mp hlast
        exact ⟨hrequest, hwaits, rfl, rfl⟩
    · exact h.queue_sub lock write r hr

theorem Linked.take {lockState : LockState K} {write : Bool} {taken rest : List (Request K)}
    (h : Linked s []) (hqueue : (s.heap lock).queue write = taken ++ rest)
    (hrest : lockState.queue write = rest)
    (hother : lockState.queue (!write) = (s.heap lock).queue (!write))
    (hreaders : lockState.readers = (s.heap lock).readers)
    (hwriter : lockState.writer = (s.heap lock).writer) :
    Linked { s with heap := Function.update s.heap lock lockState } taken := by
  obtain ⟨htaken, hnodup, hapart⟩ := List.nodup_append.mp (hqueue ▸ h.queue_nodup lock write)
  have hsub {r : Request K} (hr : r ∈ taken) :=
    h.queue_sub lock write r (hqueue ▸ List.mem_append_left _ hr)
  -- of all queues only this one is cut
  have hqueues (lock' : ℕ) (write' : Bool) :
      (Function.update s.heap lock lockState lock').queue write' =
        if lock' = lock ∧ write' = write then rest else (s.heap lock').queue write' := by
    rcases eq_or_ne lock' lock with rfl | hne
    · rw [Function.update_self]
      rcases eq_or_ne write' write with rfl | hne
      · rw [if_pos ⟨rfl, rfl⟩, hrest]
      · rw [if_neg fun heq => hne heq.2, Bool.eq_not.mpr hne, hother]
    · rw [Function.update_of_ne hne, if_neg fun heq => hne heq.1]
  refine ⟨h.locks_lt, h.locks_inj, h.promise_lt, h.promise_inj, h.admitted_nodup,
    h.admitted_sub, h.held_admitted, h.place, fun r hr hwaits => ?_, htaken, fun r hr => ?_,
    fun lock' write' => ?_, fun lock' write' r hr => ?_, fun lock' => ?_⟩
  · rw [hqueues]
    have hold := (h.queued r hr hwaits).resolve_left List.not_mem_nil
    split
    next hsame =>
      rw [hsame.1, hsame.2, hqueue] at hold
      exact List.mem_append.mp hold
    · exact Or.inr hold
  · obtain ⟨hrequest, hwaits, hlock, hwrite⟩ := hsub hr
    refine ⟨hrequest, hwaits, ?_⟩
    rw [hqueues, if_pos ⟨hlock, hwrite⟩]
    exact fun hmem => hapart r hr r hmem rfl
  · rw [hqueues]
    split
    · exact hnodup
    · exact h.queue_nodup lock' write'
  · rw [hqueues] at hr
    split at hr
    next hsame =>
      obtain ⟨rfl, rfl⟩ := hsame
      exact h.queue_sub _ _ r (hqueue ▸ List.mem_append_right _ hr)
    · exact h.queue_sub lock' write' r hr
  · dsimp only
    rcases eq_or_ne lock' lock with rfl | hne
    · rw [Function.update_self, Counted, hreaders, hwriter]
      exact h.counted lock'
    · rw [Function.update_of_ne hne]
      exact h.counted lock'

theorem State.accept_queue (s : State K) (request : Request K) (lock : ℕ) (write : Bool) :
    ((s.accept request).heap lock).queue write = (s.heap lock).queue write := by
  unfold State.accept
  dsimp only
  rcases eq_or_ne lock request.lock with rfl | hne
  · rw [Function.update_self]
    cases request.write <;> rfl
  · rw [Function.update_of_ne hne]

theorem State.accept_holders (s : State K) (request : Request K) (lock : ℕ) :
    (s.accept request).holders lock =
      if request.lock = lock then s.holders lock ++ [request] else s.holders lock := by
  show (s.held ++ [request]).filter _ = _
  split
  next heq => simp [heq, State.holders]
  next hne => simp [hne, State.holders]

theorem Linked.accept (h : Linked s (request :: todo))
    (hfree : (s.heap request.lock).writer = false)
    (hwrite : request.write = true → s.holders request.lock = []) :
    Linked (s.accept request) todo := by
  obtain ⟨hrequest, hwaits, hnew⟩ := h.todo_sub request List.mem_cons_self
  obtain ⟨hnotin, htodo⟩ := List.nodup_cons.mp h.todo_nodup
  have hadmitted {r : Request K} (hr : r ∉ s.admitted ++ [request]) :
      r ∉ s.admitted ∧ r ≠ request := by
    simpa only [List.mem_append, List.mem_singleton, not_or] using hr
  refine ⟨h.locks_lt, h.locks_inj, h.promise_lt, h.promise_inj, ?_, fun r hr => ?_,
    h.held_admitted.append (List.Sublist.refl _), fun r hr hlive => ?_, fun r hr hr' => ?_,
    htodo, fun r hr => ?_, fun lock write => ?_, fun lock write r hr => ?_, fun lock => ?_⟩
  · have hnodup := h.admitted_nodup.concat hwaits
    rwa [List.concat_eq_append] at hnodup
  · rcases List.mem_append.mp hr with hold | hlast
    · exact h.admitted_sub r hold
    · exact List.mem_singleton.mp hlast ▸ hrequest
  · rcases hlive with hheld | hr'
    · rcases List.mem_append.mp hheld with hold | hlast
      · exact h.place r hr (Or.inl hold)
      · obtain rfl := List.mem_singleton.mp hlast
        exact h.place r hr (Or.inr hwaits)
    · exact h.place r hr (Or.inr (hadmitted hr').1)
  · obtain ⟨hold, hne⟩ := hadmitted hr'
    rw [State.accept_queue]
    rcases h.queued r hr hold with hmem | hqueue
    · exact Or.inl ((List.mem_cons.mp hmem).resolve_left hne)
    · exact Or.inr hqueue
  · obtain ⟨hold, hr', hqueue⟩ := h.todo_sub r (List.mem_cons_of_mem _ hr)
    rw [State.accept_queue]
    refine ⟨hold, fun hmem => ?_, hqueue⟩
    rcases List.mem_append.mp hmem with hmem | hlast
    · exact hr' hmem
    · exact hnotin (List.mem_singleton.mp hlast ▸ hr)
  · rw [State.accept_queue]
    exact h.queue_nodup lock write
  · rw [State.accept_queue] at hr
    obtain ⟨hold, hr', rfl, rfl⟩ := h.queue_sub lock write r hr
    refine ⟨hold, fun hmem => ?_, rfl, rfl⟩
    rcases List.mem_append.mp hmem with hmem | hlast
    · exact hr' hmem
    · obtain rfl := List.mem_singleton.mp hlast
      exact hnew hr
  · rw [State.accept_holders]
    unfold State.accept
    dsimp only
    rcases eq_or_ne request.lock lock with rfl | hne
    · rw [Function.update_self, if_pos rfl]
      -- the lock is not a writer's: a reader is one more, a writer finds it free
      rcases h.counted request.lock with ⟨hwriter, hreaders, hall⟩ | ⟨hwriter, -⟩
      · cases hkind : request.write with
        | true =>
          have hnone := hwrite hkind
          rw [hnone] at hreaders ⊢
          exact Or.inr ⟨rfl, by simpa using hreaders, request, rfl, hkind⟩
        | false =>
          refine Or.inl ⟨hwriter, ?_, fun r hr => ?_⟩
          · simp [hreaders]
          · rcases List.mem_append.mp hr with hold | hlast
            · exact hall r hold
            · exact List.mem_singleton.mp hlast ▸ hkind
      · simp [hfree] at hwriter
    · rw [Function.update_of_ne hne.symm, if_neg hne]
      exact h.counted lock

theorem State.release_queue [DecidableEq K] (s : State K) (request : Request K) (lock : ℕ)
    (write : Bool) :
    ((s.release request).heap lock).queue write = (s.heap lock).queue write := by
  unfold State.release
  dsimp only
  rcases eq_or_ne lock request.lock with rfl | hne
  · rw [Function.update_self]
    cases request.write <;> rfl
  · rw [Function.update_of_ne hne]

theorem State.release_holders [DecidableEq K] (s : State K) (request : Request K) (lock : ℕ) :
    (s.release request).holders lock = (s.holders lock).erase request :=
  (List.erase_filter).symm

theorem Linked.release [DecidableEq K] (h : Linked s []) (hheld : request ∈ s.held) :
    Linked (s.release request) [] := by
  refine ⟨h.locks_lt, h.locks_inj, h.promise_lt, h.promise_inj, h.admitted_nodup,
    h.admitted_sub, List.erase_sublist.trans h.held_admitted,
    fun r hr hlive => h.place r hr (hlive.imp_left List.mem_of_mem_erase), fun r hr hr' => ?_,
    List.nodup_nil, fun r hr => absurd hr List.not_mem_nil, fun lock write => ?_,
    fun lock write r hr => ?_, fun lock => ?_⟩
  · rw [State.release_queue]
    exact h.queued r hr hr'
  · rw [State.release_queue]
    exact h.queue_nodup lock write
  · rw [State.release_queue] at hr
    exact h.queue_sub lock write r hr
  · rw [State.release_holders]
    unfold State.release
    dsimp only
    rcases eq_or_ne request.lock lock with rfl | hne
    · have hmem : request ∈ s.holders request.lock := mem_holders.mpr ⟨hheld, rfl⟩
      rw [Function.update_self]
      rcases h.counted request.lock with ⟨hwriter, hreaders, hall⟩ | ⟨hwriter, hreaders, w, hw⟩
      · rw [hall request hmem]
        refine Or.inl ⟨hwriter, ?_, fun r hr => hall r (List.mem_of_mem_erase hr)⟩
        have hpos := List.length_pos_of_mem hmem
        have hlength := List.length_erase_of_mem hmem
        simp only [Bool.false_eq_true, if_false]
        omega
      · obtain ⟨hholders, hwrite⟩ := hw
        rw [hholders] at hmem ⊢
        obtain rfl := List.mem_singleton.mp hmem
        rw [hwrite]
        exact Or.inl ⟨rfl, by simpa using hreaders, by simp⟩
    · rw [Function.update_of_ne hne.symm]
      have hnotin : request ∉ s.holders lock := fun hmem => hne (mem_holders.mp hmem).2
      rw [List.erase_of_not_mem hnotin]
      exact h.counted lock

theorem Linked.drop [DecidableEq K] (h : Linked s []) (hlock : s.locks key = some lock)
    (hholders : s.holders lock = []) (hqueue : ∀ write, (s.heap lock).queue write = []) :
    Linked { s with locks := Function.update s.locks key none } [] := by
  have hlookup {key' : K} {lock' : ℕ} (hlock' : Function.update s.locks key none key' =
      some lock') : s.locks key' = some lock' := by
    rcases eq_or_ne key' key with rfl | hne
    · simp at hlock'
    · rwa [Function.update_of_ne hne] at hlock'
  refine { h with
    locks_lt := fun hlock' => h.locks_lt (hlookup hlock')
    locks_inj := fun hlock' hlock'' => h.locks_inj (hlookup hlock') (hlookup hlock'')
    place := fun r hr hlive => ?_ }
  have hplace := h.place r hr hlive
  have hne : r.key ≠ key := by
    rintro rfl
    obtain rfl := Option.some.inj (hlock.symm.trans hplace)
    rcases hlive with hheld | hwaits
    · exact absurd (hholders ▸ mem_holders.mpr ⟨hheld, rfl⟩) List.not_mem_nil
    · have hmem := (h.queued r hr hwaits).resolve_left List.not_mem_nil
      exact absurd (hqueue _ ▸ hmem) List.not_mem_nil
  exact (Function.update_of_ne hne ..).trans hplace

/-! ### Every step -/

def State.OthersOccupied (s : State K) (key : K) : Prop :=
  ∀ key' lock, key' ≠ key → s.locks key' = some lock → s.holders lock ≠ []

theorem Sound.get [DecidableEq K] (h : Sound s) (key : K) :
    Linked (get s key).1 [] ∧ (get s key).1.locks key = some (Lock.get s key).2 ∧
      (Lock.get s key).1.OthersOccupied key ∧
      ((Lock.get s key).1.holders (Lock.get s key).2 ≠ [] ∨
        (Lock.get s key).1.heap (Lock.get s key).2 = {}) := by
  unfold Lock.get
  cases hkey : s.locks key with
  | some lock =>
    exact ⟨h.linked, hkey, fun key' lock' _ => h.occupied key' lock',
      Or.inl (h.occupied key lock hkey)⟩
  | none =>
    refine ⟨h.linked.fresh hkey, Function.update_self .., fun key' lock hne hlock => ?_,
      Or.inr (Function.update_self ..)⟩
    dsimp only at hlock
    rw [Function.update_of_ne hne] at hlock
    exact h.occupied key' lock hlock

theorem Linked.holders_eq_nil_iff (h : Linked s todo) :
    s.holders lock = [] ↔ (s.heap lock).writer = false ∧ (s.heap lock).readers = 0 := by
  rcases h.counted lock with ⟨hwriter, hreaders, -⟩ | ⟨hwriter, -, w, hw, -⟩
  · constructor
    · exact fun hnone => ⟨hwriter, by simpa [hnone] using hreaders⟩
    · exact fun hzero => List.length_eq_zero_iff.mp (by omega)
  · constructor
    · exact fun hnone => absurd (hw.symm.trans hnone) (List.cons_ne_nil _ _)
    · exact fun hzero => absurd (hwriter.symm.trans hzero.1) nofun

theorem Sound.of_others (h : Linked s []) (hlock : s.locks key = some lock)
    (hothers : s.OthersOccupied key) (hheld : s.holders lock ≠ []) : Sound s := by
  refine ⟨h, fun key' lock' hlock' => ?_⟩
  rcases eq_or_ne key' key with rfl | hne
  · obtain rfl := Option.some.inj (hlock.symm.trans hlock')
    exact hheld
  · exact hothers key' lock' hne hlock'

theorem Sound.accepted (h : Linked (s.accept request) []) (hlock : s.locks key = some request.lock)
    (hothers : s.OthersOccupied key) : Sound (s.accept request) := by
  have hkey : (s.accept request).locks key = some request.lock := hlock
  refine Sound.of_others h hkey (fun key' lock' hne hlock' => ?_) ?_
  · rw [State.accept_holders]
    split
    · exact List.append_ne_nil_of_right_ne_nil _ (List.cons_ne_nil _ _)
    · exact hothers key' lock' hne hlock'
  · rw [State.accept_holders, if_pos rfl]
    exact List.append_ne_nil_of_right_ne_nil _ (List.cons_ne_nil _ _)

theorem Sound.enter {write : Bool} {c : Prop} [Decidable c] (h : Linked s [])
    (hlock : s.locks key = some lock) (hothers : s.OthersOccupied key)
    (hfree : c → (s.heap lock).writer = false ∧ (write = true → s.holders lock = []))
    (hheld : ¬c → s.holders lock ≠ []) :
    Sound (if c then (s.call key lock write).1.accept (s.call key lock write).2
      else (s.call key lock write).1.wait (s.call key lock write).2) := by
  have hcall : Linked (s.call key lock write).1 [(s.call key lock write).2] := h.call hlock
  split
  next hc => exact Sound.accepted (hcall.accept (hfree hc).1 (hfree hc).2) hlock hothers
  next hc => exact Sound.of_others hcall.wait hlock hothers (hheld hc)

theorem Sound.read [DecidableEq K] (h : Sound s) (key : K) : Sound (read s key) := by
  obtain ⟨hlinked, hlock, hothers, hheld⟩ := h.get key
  unfold Lock.read
  generalize Lock.get s key = found at *
  obtain ⟨s', lock⟩ := found
  refine Sound.enter hlinked hlock hothers (fun hc => ⟨by simpa using hc.1, nofun⟩) fun hc => ?_
  refine hheld.resolve_right fun hnew => hc ?_
  dsimp only at hnew
  rw [hnew]
  exact ⟨nofun, rfl⟩

theorem Sound.write [DecidableEq K] (h : Sound s) (key : K) : Sound (write s key) := by
  obtain ⟨hlinked, hlock, hothers, hheld⟩ := h.get key
  unfold Lock.write
  generalize Lock.get s key = found at *
  obtain ⟨s', lock⟩ := found
  refine Sound.enter hlinked hlock hothers (fun hc => ?_) fun hc => ?_
  · have hwriter : (s'.heap lock).writer = false := by simpa using hc.1
    exact ⟨hwriter, fun _ => hlinked.holders_eq_nil_iff.mpr ⟨hwriter, hc.2⟩⟩
  · refine hheld.resolve_right fun hnew => hc ?_
    dsimp only at hnew
    rw [hnew]
    exact ⟨nofun, rfl⟩

theorem Linked.acceptAll {readers : List (Request K)} (h : Linked s readers)
    (hreaders : ∀ r ∈ readers, r.lock = lock ∧ r.write = false)
    (hfree : (s.heap lock).writer = false) :
    Linked (readers.foldl State.accept s) [] ∧
      (readers.foldl State.accept s).locks = s.locks ∧
      (readers.foldl State.accept s).admitted = s.admitted ++ readers ∧
      (∀ lock' write, ((readers.foldl State.accept s).heap lock').queue write =
        (s.heap lock').queue write) ∧
      ∀ lock', (readers.foldl State.accept s).holders lock' =
        if lock = lock' then s.holders lock' ++ readers else s.holders lock' := by
  induction readers generalizing s with
  | nil => exact ⟨h, rfl, (List.append_nil _).symm, fun _ _ => rfl, fun lock' => by simp⟩
  | cons r readers ih =>
    obtain ⟨hr, hrest⟩ := List.forall_mem_cons.mp hreaders
    obtain ⟨rfl, hread⟩ := hr
    have hfree' : ((s.accept r).heap r.lock).writer = false := by
      simp [State.accept, hread, hfree]
    obtain ⟨hlinked, hlocks, hadmitted, hqueue, hholders⟩ :=
      ih (h.accept hfree (by simp [hread])) hrest hfree'
    refine ⟨hlinked, hlocks, ?_, fun lock' write => ?_, fun lock' => ?_⟩
    · rw [List.foldl_cons, hadmitted]
      simp [State.accept]
    · rw [List.foldl_cons, hqueue, State.accept_queue]
    · rw [List.foldl_cons, hholders, State.accept_holders]
      split <;> simp

theorem Sound.cleanUp [DecidableEq K] (h : Linked s []) (hlock : s.locks key = some lock)
    (hothers : s.OthersOccupied key) (hqueue : ∀ write, (s.heap lock).queue write = []) :
    Sound (if (s.heap lock).readers = 0 ∧ ¬(s.heap lock).writer ∧
        (s.heap lock).waitingReaders = [] ∧ (s.heap lock).waitingWriters = []
      then { s with locks := Function.update s.locks key none } else s) := by
  split
  next hc =>
    have hnone : s.holders lock = [] :=
      h.holders_eq_nil_iff.mpr ⟨by simpa using hc.2.1, hc.1⟩
    refine ⟨h.drop hlock hnone hqueue, fun key' lock' hlock' => ?_⟩
    dsimp only at hlock'
    rcases eq_or_ne key' key with rfl | hne
    · simp at hlock'
    · rw [Function.update_of_ne hne] at hlock'
      exact hothers key' lock' hne hlock'
  next hc =>
    refine Sound.of_others h hlock hothers fun hnone => ?_
    obtain ⟨hwriter, hreaders⟩ := h.holders_eq_nil_iff.mp hnone
    exact hc ⟨hreaders, by simp [hwriter], hqueue false, hqueue true⟩

theorem Sound.processWriter {nextWriter : Request K} {waitingWriters : List (Request K)}
    (h : Linked s []) (hlock : s.locks key = some nextWriter.lock) (hothers : s.OthersOccupied key)
    (hnone : s.holders nextWriter.lock = [])
    (hqueue : (s.heap nextWriter.lock).queue true = [nextWriter] ++ waitingWriters) :
    Sound (State.accept
      { s with
        heap := Function.update s.heap nextWriter.lock
          { s.heap nextWriter.lock with waitingWriters } } nextWriter) := by
  have htaken : Linked
      { s with
        heap := Function.update s.heap nextWriter.lock
          { s.heap nextWriter.lock with waitingWriters } } [nextWriter] :=
    h.take hqueue rfl rfl rfl rfl
  refine Sound.accepted (htaken.accept ?_ fun _ => hnone) hlock hothers
  dsimp only
  rw [Function.update_self]
  exact (h.holders_eq_nil_iff.mp hnone).1

theorem Sound.processReaders [DecidableEq K] {t : State K} (h : Linked s [])
    (hlock : s.locks key = some lock) (hothers : s.OthersOccupied key) (hnone : s.holders lock = [])
    (hwriters : (s.heap lock).waitingWriters = [])
    (ht : (s.heap lock).waitingReaders.foldl State.accept
      { s with heap := Function.update s.heap lock { s.heap lock with waitingReaders := [] } } =
        t) :
    Sound (if (t.heap lock).readers = 0 ∧ ¬(t.heap lock).writer ∧
        (t.heap lock).waitingReaders = [] ∧ (t.heap lock).waitingWriters = []
      then { t with locks := Function.update t.locks key none } else t) ∧
      t.admitted = s.admitted ++ (s.heap lock).waitingReaders := by
  have hreader : ∀ r ∈ (s.heap lock).waitingReaders, r.lock = lock ∧ r.write = false :=
    fun r hr => (h.queue_sub lock false r hr).2.2
  have hset : Function.update s.heap lock { s.heap lock with waitingReaders := [] } lock =
      { s.heap lock with waitingReaders := [] } := Function.update_self ..
  have hfree : (Function.update s.heap lock
      { s.heap lock with waitingReaders := [] } lock).writer = false := by
    rw [hset]
    exact (h.holders_eq_nil_iff.mp hnone).1
  have hall : (s.heap lock).queue false = (s.heap lock).waitingReaders ++ [] :=
    (List.append_nil _).symm
  have hrest : LockState.queue { s.heap lock with waitingReaders := [] } false = [] := rfl
  obtain ⟨hlinked, hlocks, hadmitted, hqueue, hholders⟩ :=
    (h.take hall hrest rfl rfl rfl).acceptAll hreader hfree
  rw [ht] at hlinked hlocks hadmitted hqueue hholders
  refine ⟨Sound.cleanUp hlinked (hlocks ▸ hlock) (fun key' lock' hne hlock' => ?_)
    fun write => ?_, hadmitted⟩
  · rw [hlocks] at hlock'
    have hlocks' : lock ≠ lock' := fun heq => hne (h.locks_inj hlock' (heq ▸ hlock))
    rw [hholders, if_neg hlocks']
    exact hothers key' lock' hne hlock'
  · have hnobody := hqueue lock write
    dsimp only at hnobody
    rw [hset] at hnobody
    refine hnobody.trans ?_
    cases write with
    | false => rfl
    | true => exact hwriters

/-- What `process` lets in, when it is called for a key with a lock: nobody, or those that
waited, readers only when no writer waited. -/
theorem Sound.process [DecidableEq K] (h : Linked s []) (hlock : s.locks key = some lock)
    (hothers : s.OthersOccupied key) :
    Sound (process s key) ∧ ∃ admitted, (Lock.process s key).admitted = s.admitted ++ admitted ∧
      ∀ r ∈ admitted, r.write = false →
        r.lock = lock ∧ (s.heap lock).queue true = [] := by
  unfold Lock.process
  rw [hlock]
  dsimp only
  split
  next hheld =>
    refine ⟨Sound.of_others h hlock hothers fun hnone => ?_, [], (List.append_nil _).symm,
      fun r hr => absurd hr List.not_mem_nil⟩
    obtain ⟨hwriter, hreaders⟩ := h.holders_eq_nil_iff.mp hnone
    simp [hwriter, hreaders] at hheld
  next hfree =>
    have hnone : s.holders lock = [] := by
      obtain ⟨hwriter, hreaders⟩ := not_or.mp hfree
      rcases h.counted lock with ⟨-, hcount, -⟩ | ⟨hwriter', -⟩
      · exact List.length_eq_zero_iff.mp (by omega)
      · exact absurd hwriter' hwriter
    split
    next nextWriter waitingWriters hqueue =>
      have hfirst : nextWriter ∈ (s.heap lock).queue true :=
        List.mem_of_mem_head? (congrArg List.head? hqueue)
      obtain ⟨-, -, rfl, hwrite⟩ := h.queue_sub lock true nextWriter hfirst
      refine ⟨Sound.processWriter h hlock hothers hnone hqueue, [nextWriter], rfl,
        fun r hr hread => ?_⟩
      obtain rfl := List.mem_singleton.mp hr
      exact absurd (hwrite.symm.trans hread) nofun
    next hwriters =>
      obtain ⟨hsound, hadmitted⟩ := Sound.processReaders h hlock hothers hnone hwriters rfl
      refine ⟨hsound, (s.heap lock).waitingReaders, ?_,
        fun r hr _ => ⟨(h.queue_sub lock false r hr).2.2.1, hwriters⟩⟩
      split
      · exact hadmitted
      · exact hadmitted

theorem Sound.dispose [DecidableEq K] (h : Sound s) (hheld : request ∈ s.held) :
    Sound (dispose s request) ∧ ∃ admitted,
      (Lock.dispose s request).admitted = s.admitted ++ admitted ∧
        ∀ r ∈ admitted, r.write = false →
          r.lock = request.lock ∧ (s.heap request.lock).queue true = [] := by
  have hlock := h.linked.place request (h.linked.held_requests hheld) (Or.inl hheld)
  have hothers : (s.release request).OthersOccupied request.key := by
    intro key' lock hne hlock'
    have hnotin : request ∉ s.holders lock := by
      intro hmem
      rw [(mem_holders.mp hmem).2] at hlock
      exact hne (h.linked.locks_inj hlock' hlock)
    rw [State.release_holders, List.erase_of_not_mem hnotin]
    exact h.occupied key' lock hlock'
  obtain ⟨hsound, admitted, hadmitted, hreaders⟩ :=
    Sound.process (h.linked.release hheld) hlock hothers
  refine ⟨hsound, admitted, hadmitted, fun r hr hread => ?_⟩
  rw [← State.release_queue s request]
  exact hreaders r hr hread

theorem enter_admitted {c : Prop} [Decidable c] (s : State K) (key : K) (lock : ℕ)
    (write : Bool) :
    ∃ admitted, State.admitted (if c then (s.call key lock write).1.accept (s.call key lock write).2
        else (s.call key lock write).1.wait (s.call key lock write).2) = s.admitted ++ admitted ∧
      ∀ r ∈ admitted, r.promise = s.requests.length := by
  split
  · refine ⟨[(s.call key lock write).2], rfl, fun r hr => ?_⟩
    rw [List.mem_singleton.mp hr]
    rfl
  · exact ⟨[], (List.append_nil _).symm, fun r hr => absurd hr List.not_mem_nil⟩

variable [DecidableEq K]

theorem get_admitted (s : State K) (key : K) :
    (get s key).1.admitted = s.admitted ∧ (get s key).1.requests = s.requests := by
  unfold get
  cases s.locks key with
  | some lock => exact ⟨rfl, rfl⟩
  | none => exact ⟨rfl, rfl⟩

omit [DecidableEq K] in
theorem foldl_accept_requests (readers : List (Request K)) (s : State K) :
    (readers.foldl State.accept s).requests = s.requests := by
  induction readers generalizing s with
  | nil => rfl
  | cons r readers ih => exact ih _

theorem process_requests (s : State K) (key : K) : (process s key).requests = s.requests := by
  unfold process
  split
  · rfl
  · dsimp only
    split
    · rfl
    · split
      · rfl
      · split <;> exact foldl_accept_requests _ _

theorem mem_step_requests {event : Event K} (hr : request ∈ s.requests) :
    request ∈ (step s event).requests := by
  cases event with
  | read key =>
    have hmem := List.mem_append_left [((get s key).1.call key (get s key).2 false).2]
      ((get_admitted s key).2 ▸ hr)
    simp only [step, read]
    split <;> exact hmem
  | write key =>
    have hmem := List.mem_append_left [((get s key).1.call key (get s key).2 true).2]
      ((get_admitted s key).2 ▸ hr)
    simp only [step, write]
    split <;> exact hmem
  | dispose request' =>
    simp only [step]
    split
    · rw [dispose, process_requests]
      exact hr
    · exact hr

theorem read_admitted (s : State K) (key : K) :
    ∃ admitted, (read s key).admitted = s.admitted ++ admitted ∧
      ∀ r ∈ admitted, r.promise = s.requests.length := by
  obtain ⟨hadmitted, hrequests⟩ := get_admitted s key
  rw [← hadmitted, ← hrequests]
  exact enter_admitted ..

theorem write_admitted (s : State K) (key : K) :
    ∃ admitted, (write s key).admitted = s.admitted ++ admitted ∧
      ∀ r ∈ admitted, r.promise = s.requests.length := by
  obtain ⟨hadmitted, hrequests⟩ := get_admitted s key
  rw [← hadmitted, ← hrequests]
  exact enter_admitted ..

/-- **What one step preserves**, and what it does: whoever is let in comes in this step, or is
a writer, or a reader of a lock for which no writer waits. -/
theorem Sound.step (h : Sound s) (event : Event K) :
    Sound (step s event) ∧ ∃ admitted, (Lock.step s event).admitted = s.admitted ++ admitted ∧
      ∀ r ∈ admitted, r ∈ s.requests → r.write = false → (s.heap r.lock).queue true = [] := by
  have hfresh {r : Request K} (hr : r.promise = s.requests.length) (hmem : r ∈ s.requests) :
      False := absurd (h.linked.promise_lt r hmem) hr.not_lt
  cases event with
  | read key =>
    obtain ⟨admitted, heq, hnew⟩ := read_admitted s key
    exact ⟨h.read key, admitted, heq, fun r hr hmem => (hfresh (hnew r hr) hmem).elim⟩
  | write key =>
    obtain ⟨admitted, heq, hnew⟩ := write_admitted s key
    exact ⟨h.write key, admitted, heq, fun r hr hmem => (hfresh (hnew r hr) hmem).elim⟩
  | dispose request =>
    unfold Lock.step
    dsimp only
    split
    next hheld =>
      obtain ⟨hsound, admitted, hadmitted, hreaders⟩ := h.dispose hheld
      refine ⟨hsound, admitted, hadmitted, fun r hr _ hread => ?_⟩
      obtain ⟨hlock, hqueue⟩ := hreaders r hr hread
      rwa [hlock]
    · exact ⟨h, [], (List.append_nil _).symm, fun r hr => absurd hr List.not_mem_nil⟩

theorem sound_run (events : List (Event K)) : Sound (run step .start events) :=
  run_invariant Sound .start (fun _ event h => (h.step event).1) events

omit [DecidableEq K] in
theorem Sound.exclusive (h : Sound s) : Exclusive s := by
  refine ⟨h.linked.held_nodup, fun r hr r' hr' hkey hwrite => ?_⟩
  have hlock := h.linked.place r (h.linked.held_requests hr) (Or.inl hr)
  have hlock' := h.linked.place r' (h.linked.held_requests hr') (Or.inl hr')
  have hsame : r'.lock = r.lock := Option.some.inj (hlock'.symm.trans (hkey ▸ hlock))
  have hmem : r ∈ s.holders r.lock := mem_holders.mpr ⟨hr, rfl⟩
  have hmem' : r' ∈ s.holders r.lock := mem_holders.mpr ⟨hr', hsame⟩
  rcases h.linked.counted r.lock with ⟨-, -, hall⟩ | ⟨-, -, w, hw, -⟩
  · simp [hall r hmem] at hwrite
  · rw [hw] at hmem hmem'
    exact (List.mem_singleton.mp hmem).trans (List.mem_singleton.mp hmem').symm

theorem Sound.woken (h : Sound s) : Woken s := by
  intro r hr
  obtain ⟨hrequest, hwaits⟩ := List.mem_filter.mp hr
  have hlock := h.linked.place r hrequest (Or.inr (of_decide_eq_true hwaits))
  obtain ⟨holder, hholder⟩ := List.exists_mem_of_ne_nil _ (h.occupied _ _ hlock)
  obtain ⟨hheld, hsame⟩ := mem_holders.mp hholder
  have hplace := h.linked.place holder (h.linked.held_requests hheld) (Or.inl hheld)
  exact ⟨holder, hheld, h.linked.locks_inj (hsame ▸ hplace) hlock⟩

/-- The reader is not let in before the writer. -/
structure Behind (writer reader : Request K) (s : State K) : Prop where
  writer_mem : writer ∈ s.requests
  reader_mem : reader ∈ s.requests
  order : reader ∈ s.admitted → [writer, reader].Sublist s.admitted

theorem Behind.step {writer reader : Request K} {event : Event K} (h : Behind writer reader s)
    (hs : Sound s) (hkey : writer.key = reader.key) (hwrite : writer.write = true)
    (hread : reader.write = false) : Behind writer reader (step s event) := by
  obtain ⟨-, admitted, hadmitted, hreaders⟩ := hs.step event
  refine ⟨mem_step_requests h.writer_mem, mem_step_requests h.reader_mem, fun hmem => ?_⟩
  rw [hadmitted] at hmem ⊢
  by_cases hold : reader ∈ s.admitted
  · exact (h.order hold).trans (List.sublist_append_left _ _)
  · have hnew := (List.mem_append.mp hmem).resolve_left hold
    have hqueue := hreaders reader hnew h.reader_mem hread
    have hwriter : writer ∈ s.admitted := by
      by_contra hwaits
      -- the writer would be in the queue that is empty
      have hplace := hs.linked.place writer h.writer_mem (Or.inr hwaits)
      have hplace' := hs.linked.place reader h.reader_mem (Or.inr hold)
      have hsame : writer.lock = reader.lock :=
        Option.some.inj (hplace.symm.trans (hkey ▸ hplace'))
      have hqueued := (hs.linked.queued writer h.writer_mem hwaits).resolve_left
        List.not_mem_nil
      rw [hwrite, hsame, hqueue] at hqueued
      exact List.not_mem_nil hqueued
    exact (List.singleton_sublist.mpr hwriter).append (List.singleton_sublist.mpr hnew)

theorem Sound.behind {writer : Request K} (h : Sound s) (hwaits : writer ∈ s.waiting)
    (hkey : writer.key = key) (hwrite : writer.write = true) :
    ∃ reader : Request K, reader.promise = s.requests.length ∧ reader.key = key ∧
      reader.write = false ∧ Behind writer reader (Lock.step s (.read key)) := by
  subst hkey
  obtain ⟨hrequest, hnot⟩ := List.mem_filter.mp hwaits
  have hnot : writer ∉ s.admitted := of_decide_eq_true hnot
  have hlock := h.linked.place writer hrequest (Or.inr hnot)
  have hqueued : writer ∈ (s.heap writer.lock).waitingWriters := by
    have hqueue := (h.linked.queued writer hrequest hnot).resolve_left List.not_mem_nil
    rwa [hwrite] at hqueue
  have hget : Lock.get s writer.key = (s, writer.lock) := by
    unfold Lock.get
    rw [hlock]
  refine ⟨⟨s.requests.length, writer.key, writer.lock, false⟩, rfl, rfl, rfl, ?_⟩
  have hread : Lock.read s writer.key = (s.call writer.key writer.lock false).1.wait
      (s.call writer.key writer.lock false).2 := by
    unfold Lock.read
    rw [hget]
    exact if_neg fun hc => List.not_mem_nil (hc.2 ▸ hqueued)
  show Behind _ _ (Lock.read s writer.key)
  rw [hread]
  refine ⟨List.mem_append_left _ hrequest, List.mem_append_right _ List.mem_cons_self,
    fun hmem => ?_⟩
  exact absurd (h.linked.promise_lt _ (h.linked.admitted_sub _ hmem)) (lt_irrefl _)

theorem writersFirst (events : List (Event K)) : WritersFirst events := by
  rintro before key after rfl writer hwaits hkey hwrite reader hreader hpromise
  have hsound := sound_run before
  obtain ⟨reader', hpromise', hkey', hread, hbehind⟩ := hsound.behind hwaits hkey hwrite
  have hstep (s : State K) (event : Event K) (h : Sound s ∧ Behind writer reader' s) :
      Sound (step s event) ∧ Behind writer reader' (step s event) :=
    ⟨(h.1.step event).1, h.2.step h.1 (hkey.trans hkey'.symm) hwrite hread⟩
  have hrun := run_invariant _ ⟨(hsound.step _).1, hbehind⟩ hstep after
  have hend : run step (Lock.step (run step .start before) (.read key)) after =
      run step .start (before ++ .read key :: after) := by
    rw [run_append, run_cons]
  rw [hend] at hrun
  obtain rfl : reader = reader' := hrun.1.linked.promise_inj reader
    (hrun.1.linked.admitted_sub reader hreader) reader' hrun.2.reader_mem
    (hpromise.trans hpromise'.symm)
  exact hrun.2.order hreader

end OpenCms.Lock
