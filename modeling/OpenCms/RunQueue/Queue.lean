import OpenCms.Lib.JsString
import OpenCms.Lib.Table
import OpenCms.Util.Identifier
import Mathlib.Data.List.Perm.Subperm
import Mathlib.Data.Rat.Defs

/-!
# The run queue

A session that is to go on without its user has an entry in one of three lanes. The lanes are
drained in the order of their priority, each up to a cap, and a session that is preferred comes
first in its lane.

A session that is preferred is not looked up among those that were picked before it. So what is
drained is right for every number that is asked for exactly if the session that is preferred is not
in two lanes that have capacity (`OpenCms.RunQueue.drains_iff`).
-/

namespace OpenCms.RunQueue

/-! ### Lanes -/

inductive Lane
  | critical
  | normal
  | background
  deriving DecidableEq

def Lane.concurrencyCap : Lane → ℤ
  | .critical => 2
  | .normal => 4
  | .background => 2

def Lane.priorityRank : Lane → ℕ
  | .critical => 0
  | .normal => 1
  | .background => 2

def lanesByPriority : List Lane := [.critical, .normal, .background]

def laneHasCapacity (lane : Lane) (currentInFlight : ℤ) : Bool :=
  currentInFlight < lane.concurrencyCap

inductive Reason
  | todoPending
  | todoInProgress
  deriving DecidableEq

/-- What a session is to go on with: the value of the legacy key. -/
structure PendingContinuation where
  sessionID : JsString
  messageID : JsString
  createdAt : ℚ
  roundCount : ℚ
  reason : Reason
  text : JsString
  deriving DecidableEq

structure QueueEntry extends PendingContinuation where
  id : JsString
  lane : Lane
  triggerType : JsString
  enqueuedAt : ℕ
  deriving DecidableEq

def QueueEntry.parses (entry : QueueEntry) : Bool :=
  (js (Identifier.prefixes .session)).isPrefixOf entry.sessionID &&
    (js (Identifier.prefixes .message)).isPrefixOf entry.messageID

/-! ### What is stored -/

abbrev QueueEntry.key (entry : QueueEntry) : JsString := entry.sessionID

abbrev PendingContinuation.key (pending : PendingContinuation) : JsString := pending.sessionID

/-- What is stored: the entries of each lane and the legacy entries, by session. An entry is stored
in its lane. -/
structure Queue where
  lanes : Lane → List QueueEntry
  legacy : List PendingContinuation
  keyed : ∀ lane, ((lanes lane).map QueueEntry.key).Nodup
  laned : ∀ lane, ∀ entry ∈ lanes lane, entry.lane = lane

namespace Queue

def empty : Queue := ⟨fun _ => [], [], fun _ => List.nodup_nil, fun _ _ h => absurd h List.not_mem_nil⟩

variable (queue : Queue) (lane : Lane) (sessionID : JsString)

def Has : Prop := sessionID ∈ (queue.lanes lane).map QueueEntry.key

def HasLegacy : Prop := sessionID ∈ queue.legacy.map PendingContinuation.key

instance : Decidable (queue.Has lane sessionID) :=
  inferInstanceAs (Decidable (_ ∈ List.map _ _))

instance : Decidable (queue.HasLegacy sessionID) := inferInstanceAs (Decidable (_ ∈ List.map _ _))

def write (entry : QueueEntry) : Queue where
  lanes lane :=
    if lane = entry.lane then Table.upsert QueueEntry.key entry (queue.lanes lane)
    else queue.lanes lane
  legacy := queue.legacy
  keyed lane := by
    split
    · exact Table.nodup_upsert (queue.keyed lane)
    · exact queue.keyed lane
  laned lane other hother := by
    split at hother
    next h =>
      rcases Table.mem_upsert hother with rfl | ⟨hother, -⟩
      · exact h.symm
      · exact queue.laned lane other hother
    next => exact queue.laned lane other hother

def remove : Queue where
  lanes other :=
    if other = lane then Table.erase QueueEntry.key sessionID (queue.lanes other)
    else queue.lanes other
  legacy := queue.legacy
  keyed other := by
    split
    · exact Table.nodup_erase (queue.keyed other)
    · exact queue.keyed other
  laned other entry hentry := by
    split at hentry
    · exact queue.laned other entry (List.mem_of_mem_filter hentry)
    · exact queue.laned other entry hentry

def writeLegacy (pending : PendingContinuation) : Queue :=
  { queue with legacy := Table.upsert PendingContinuation.key pending queue.legacy }

def removeLegacy : Queue :=
  { queue with legacy := Table.erase PendingContinuation.key sessionID queue.legacy }

/-! ### Draining -/

def listLane : List QueueEntry :=
  (queue.lanes lane).mergeSort fun a b => a.createdAt ≤ b.createdAt

structure Request where
  maxCount : ℤ
  inFlightByLane : Lane → ℤ
  preferredSessionID : Option JsString

def Request.count (request : Request) : ℕ := request.maxCount.toNat

def Request.capacity (request : Request) (lane : Lane) : ℕ :=
  (lane.concurrencyCap - request.inFlightByLane lane).toNat

def countOf (picked : List QueueEntry) : ℕ := (picked.filter fun entry => entry.lane = lane).length

def take (maxCount toTake : ℕ) : List QueueEntry → List QueueEntry → List QueueEntry
  | picked, [] => picked
  | picked, entry :: entries =>
    if maxCount ≤ picked.length then picked
    else if entry.sessionID ∈ picked.map QueueEntry.key then take maxCount toTake picked entries
    else if toTake ≤ countOf lane picked then picked
    else take maxCount toTake (picked ++ [entry]) entries

def preferred (request : Request) : List QueueEntry :=
  (request.preferredSessionID.bind fun id =>
    (queue.listLane lane).find? fun entry => entry.sessionID = id).toList

def drainLane (request : Request) (picked : List QueueEntry) : List QueueEntry :=
  if request.count ≤ picked.length then picked
  else if laneHasCapacity lane (request.inFlightByLane lane) = false then picked
  else
    let entries := queue.listLane lane
    let toTake := min entries.length (min (request.capacity lane) (request.count - picked.length))
    take lane request.count toTake (picked ++ queue.preferred lane request) entries

def drain (request : Request) : List QueueEntry :=
  lanesByPriority.foldl (fun picked lane => queue.drainLane lane request picked) []

end Queue

open Queue

def Settled (queue : Queue) (request : Request) (picked : List QueueEntry) (lane : Lane) : Prop :=
  request.capacity lane ≤ countOf lane picked ∨
    ∀ entry ∈ queue.lanes lane, entry.sessionID ∈ picked.map QueueEntry.key

/-- What a drain must keep: the number asked for, one entry of a session, the caps, and no entry of
a lane while a lane before it has capacity and a session that was not picked. -/
structure Fair (queue : Queue) (request : Request) (picked : List QueueEntry) : Prop where
  stored : ∀ entry ∈ picked, entry ∈ queue.lanes entry.lane
  count : picked.length ≤ request.count
  once : (picked.map QueueEntry.key).Nodup
  capped : ∀ lane, countOf lane picked ≤ request.capacity lane
  order : ∀ entry ∈ picked, ∀ lane, lane.priorityRank < entry.lane.priorityRank →
    Settled queue request picked lane

def Single (queue : Queue) (inFlightByLane : Lane → ℤ) (preferredSessionID : Option JsString) : Prop :=
  ∀ id ∈ preferredSessionID, ∀ lane lane', queue.Has lane id → queue.Has lane' id →
    laneHasCapacity lane (inFlightByLane lane) → laneHasCapacity lane' (inFlightByLane lane') →
      lane = lane'

/-! ### What is taken from a lane -/

section Take

variable {lane other : Lane} {maxCount toTake : ℕ} {picked entries : List QueueEntry}
  {entry : QueueEntry}

theorem countOf_append (picked picked' : List QueueEntry) :
    countOf lane (picked ++ picked') = countOf lane picked + countOf lane picked' := by
  rw [countOf, List.filter_append, List.length_append, countOf, countOf]

theorem countOf_singleton : countOf lane [entry] = if entry.lane = lane then 1 else 0 := by
  by_cases h : entry.lane = lane
  · simp [countOf, h]
  · simp [countOf, h]

theorem countOf_le_length (picked : List QueueEntry) : countOf lane picked ≤ picked.length :=
  List.length_filter_le _ _

theorem countOf_of_forall (h : ∀ entry ∈ picked, entry.lane ≠ lane) : countOf lane picked = 0 := by
  rw [countOf, List.length_eq_zero_iff, List.filter_eq_nil_iff]
  intro entry hentry heq
  exact h entry hentry (of_decide_eq_true heq)

/-- **What is kept by taking one entry is kept by taking from a lane.** -/
theorem take_induction (P : List QueueEntry → Prop) (h : P picked)
    (hpush : ∀ picked, ∀ entry ∈ entries, P picked → picked.length < maxCount →
      entry.sessionID ∉ picked.map QueueEntry.key → countOf lane picked < toTake →
        P (picked ++ [entry])) : P (take lane maxCount toTake picked entries) := by
  induction entries generalizing picked with
  | nil => exact h
  | cons entry entries ih =>
    have hrest : ∀ picked, ∀ entry ∈ entries, P picked → picked.length < maxCount →
        entry.sessionID ∉ picked.map QueueEntry.key → countOf lane picked < toTake →
          P (picked ++ [entry]) :=
      fun picked entry hentry => hpush picked entry (List.mem_cons_of_mem _ hentry)
    rw [take]
    split
    next => exact h
    next hroom =>
      split
      next => exact ih h hrest
      next hnew =>
        split
        next => exact h
        next htake =>
          refine ih (hpush picked entry List.mem_cons_self h ?_ hnew ?_) hrest
          · omega
          · omega

theorem isPrefix_take : picked <+: take lane maxCount toTake picked entries :=
  take_induction (picked <+: ·) (List.prefix_refl picked)
    fun _ entry _ h _ _ _ => h.trans (List.prefix_append _ [entry])

theorem mem_take (h : entry ∈ take lane maxCount toTake picked entries) :
    entry ∈ picked ∨ entry ∈ entries := by
  refine take_induction (fun taken => entry ∈ taken → entry ∈ picked ∨ entry ∈ entries)
    Or.inl ?_ h
  intro taken other hother ih _ _ _ hentry
  rcases List.mem_append.mp hentry with hentry | hentry
  · exact ih hentry
  · rw [List.mem_singleton.mp hentry]
    exact Or.inr hother

theorem nodup_take (h : (picked.map QueueEntry.key).Nodup) :
    ((take lane maxCount toTake picked entries).map QueueEntry.key).Nodup := by
  refine take_induction (fun taken => (taken.map QueueEntry.key).Nodup) h ?_
  intro taken entry _ ih _ hnew _
  rw [List.map_append, List.map_singleton, ← List.concat_eq_append]
  exact ih.concat hnew

theorem length_take_le (h : picked.length ≤ maxCount) :
    (take lane maxCount toTake picked entries).length ≤ maxCount := by
  refine take_induction (fun taken => taken.length ≤ maxCount) h ?_
  intro taken entry _ _ hroom _ _
  rw [List.length_append, List.length_singleton]
  omega

theorem countOf_take_le (h : countOf lane picked ≤ toTake) :
    countOf lane (take lane maxCount toTake picked entries) ≤ toTake := by
  refine take_induction (fun taken => countOf lane taken ≤ toTake) h ?_
  intro taken entry _ _ _ _ htake
  rw [countOf_append, countOf_singleton]
  split
  · omega
  · omega

theorem countOf_take_of_ne (hlane : ∀ entry ∈ entries, entry.lane = lane) (hne : other ≠ lane) :
    countOf other (take lane maxCount toTake picked entries) = countOf other picked := by
  refine take_induction (fun taken => countOf other taken = countOf other picked) rfl ?_
  intro taken entry hentry ih _ _ _
  have hother : entry.lane ≠ other := by
    rw [hlane entry hentry]
    exact hne.symm
  rw [countOf_append, countOf_singleton, if_neg hother, ih, Nat.add_zero]

theorem take_stops :
    maxCount ≤ (take lane maxCount toTake picked entries).length ∨
      toTake ≤ countOf lane (take lane maxCount toTake picked entries) ∨
        ∀ entry ∈ entries, entry.sessionID ∈
          (take lane maxCount toTake picked entries).map QueueEntry.key := by
  induction entries generalizing picked with
  | nil => exact Or.inr (Or.inr fun _ h => absurd h List.not_mem_nil)
  | cons entry entries ih =>
    rw [take]
    split
    next h => exact Or.inl h
    next =>
      have hrest : ∀ picked, entry.sessionID ∈ picked.map QueueEntry.key →
          maxCount ≤ (take lane maxCount toTake picked entries).length ∨
            toTake ≤ countOf lane (take lane maxCount toTake picked entries) ∨
              ∀ other ∈ entry :: entries, other.sessionID ∈
                (take lane maxCount toTake picked entries).map QueueEntry.key := by
        intro picked hpicked
        rcases @ih picked with h | h | h
        · exact Or.inl h
        · exact Or.inr (Or.inl h)
        · refine Or.inr (Or.inr fun other hother => ?_)
          rcases List.mem_cons.mp hother with rfl | hother
          · exact (isPrefix_take.map QueueEntry.key).subset hpicked
          · exact h other hother
      split
      next hpicked => exact hrest picked hpicked
      next =>
        split
        next h => exact Or.inr (Or.inl h)
        next => exact hrest _ (by simp)

end Take

/-! ### What is drained from a lane -/

section Drain

variable {queue : Queue} {request : Request} {lane : Lane} {picked : List QueueEntry}
  {entry : QueueEntry} {k : ℕ}

theorem mem_listLane : entry ∈ queue.listLane lane ↔ entry ∈ queue.lanes lane := by
  rw [listLane, List.mem_mergeSort]

theorem lane_of_mem_listLane (h : entry ∈ queue.listLane lane) : entry.lane = lane :=
  queue.laned lane entry (mem_listLane.mp h)

theorem mem_preferred (h : entry ∈ queue.preferred lane request) :
    entry ∈ queue.listLane lane ∧ entry.sessionID ∈ request.preferredSessionID := by
  rw [preferred, Option.mem_toList] at h
  obtain ⟨id, hid, hfind⟩ := Option.bind_eq_some_iff.mp h
  refine ⟨List.mem_of_find?_eq_some hfind, ?_⟩
  have heq : entry.sessionID = id := by simpa using List.find?_some hfind
  rw [heq]
  exact hid

theorem length_preferred_le : (queue.preferred lane request).length ≤ 1 := by
  exact Option.length_toList_le

/-- What is drained of the lanes of a lower rank is right so far. -/
structure Drained (queue : Queue) (request : Request) (k : ℕ) (picked : List QueueEntry) : Prop where
  stored : ∀ entry ∈ picked, entry ∈ queue.lanes entry.lane ∧ entry.lane.priorityRank < k ∧
    laneHasCapacity entry.lane (request.inFlightByLane entry.lane)
  count : picked.length ≤ request.count
  once : (picked.map QueueEntry.key).Nodup
  capped : ∀ lane, countOf lane picked ≤ request.capacity lane
  settled : picked.length < request.count → ∀ lane, lane.priorityRank < k →
    Settled queue request picked lane
  order : ∀ entry ∈ picked, ∀ lane, lane.priorityRank < entry.lane.priorityRank →
    Settled queue request picked lane

theorem Settled.mono {picked' : List QueueEntry} (h : Settled queue request picked lane)
    (hinitial : picked <+: picked') : Settled queue request picked' lane := by
  obtain ⟨rest, rfl⟩ := hinitial
  rcases h with hfull | hall
  · refine Or.inl (hfull.trans ?_)
    rw [countOf_append]
    exact Nat.le_add_right _ _
  · refine Or.inr fun entry hentry => ?_
    rw [List.map_append]
    exact List.mem_append_left _ (hall entry hentry)

theorem priorityRank_injective : Function.Injective Lane.priorityRank := by
  intro a b h
  cases a <;> cases b <;> first | rfl | cases h

theorem capacity_pos (h : laneHasCapacity lane (request.inFlightByLane lane)) :
    0 < request.capacity lane := by
  have hlt : request.inFlightByLane lane < lane.concurrencyCap := of_decide_eq_true h
  rw [Request.capacity]
  omega

theorem Drained.countOf_eq_zero (h : Drained queue request lane.priorityRank picked) :
    countOf lane picked = 0 := by
  refine countOf_of_forall fun entry hentry heq => ?_
  have hlt := (h.stored entry hentry).2.1
  rw [heq] at hlt
  exact lt_irrefl _ hlt

theorem mem_of_length_le_countOf (hstored : ∀ entry ∈ picked, entry ∈ queue.lanes entry.lane)
    (honce : (picked.map QueueEntry.key).Nodup)
    (h : (queue.listLane lane).length ≤ countOf lane picked) :
    ∀ entry ∈ queue.lanes lane, entry.sessionID ∈ picked.map QueueEntry.key := by
  have hnodup : (picked.filter fun entry => entry.lane = lane).Nodup :=
    (List.Nodup.of_map QueueEntry.key honce).filter _
  have hsubset : picked.filter (fun entry => entry.lane = lane) ⊆ queue.listLane lane := by
    intro entry hentry
    obtain ⟨hmem, heq⟩ := List.mem_filter.mp hentry
    have hlane : entry.lane = lane := of_decide_eq_true heq
    rw [mem_listLane, ← hlane]
    exact hstored entry hmem
  have hperm := (List.subperm_of_subset hnodup hsubset).perm_of_length_le h
  intro entry hentry
  have hmem := hperm.mem_iff.mpr (mem_listLane.mpr hentry)
  exact List.mem_map_of_mem (List.mem_of_mem_filter hmem)

theorem Drained.preferred_new (h : Drained queue request lane.priorityRank picked)
    (hsingle : Single queue request.inFlightByLane request.preferredSessionID)
    (hcapacity : laneHasCapacity lane (request.inFlightByLane lane))
    (hentry : entry ∈ queue.preferred lane request) :
    entry.sessionID ∉ picked.map QueueEntry.key := by
  obtain ⟨hlane, hpreferred⟩ := mem_preferred hentry
  intro hpicked
  obtain ⟨other, hother, hkey⟩ := List.mem_map.mp hpicked
  obtain ⟨hstored, hrank, hcapacity'⟩ := h.stored other hother
  have hhas : queue.Has lane entry.sessionID := List.mem_map_of_mem (mem_listLane.mp hlane)
  have hhas' : queue.Has other.lane entry.sessionID := by
    rw [← hkey]
    exact List.mem_map_of_mem hstored
  have hsame := hsingle entry.sessionID hpreferred lane other.lane hhas hhas' hcapacity hcapacity'
  rw [hsame] at hrank
  exact lt_irrefl _ hrank

theorem Drained.preferred (h : Drained queue request lane.priorityRank picked)
    (hsingle : Single queue request.inFlightByLane request.preferredSessionID)
    (hroom : picked.length < request.count)
    (hcapacity : laneHasCapacity lane (request.inFlightByLane lane)) :
    (picked ++ queue.preferred lane request).length ≤ request.count ∧
      ((picked ++ queue.preferred lane request).map QueueEntry.key).Nodup ∧
      countOf lane (picked ++ queue.preferred lane request) ≤
        min (queue.listLane lane).length
          (min (request.capacity lane) (request.count - picked.length)) := by
  have hpositive := capacity_pos hcapacity
  have hzero := h.countOf_eq_zero
  have hnew := fun entry => @Drained.preferred_new queue request lane picked entry h hsingle hcapacity
  have hmem : ∀ entry ∈ queue.preferred lane request, entry ∈ queue.listLane lane :=
    fun entry hentry => (mem_preferred hentry).1
  rw [List.length_append, List.map_append, countOf_append, hzero]
  rcases hpreferred : queue.preferred lane request with _ | ⟨entry, rest⟩
  · refine ⟨hroom.le, ?_, Nat.zero_le _⟩
    rw [List.map_nil, List.append_nil]
    exact h.once
  · have hrest : rest = [] := by
      have hle := @length_preferred_le queue request lane
      rw [hpreferred, List.length_cons] at hle
      exact List.eq_nil_of_length_eq_zero (by omega)
    rw [hpreferred, hrest] at hnew hmem
    rw [hrest]
    have hlength := List.length_pos_of_mem (hmem entry List.mem_cons_self)
    have hone := @countOf_le_length lane [entry]
    rw [List.length_singleton] at hone ⊢
    refine ⟨by omega, ?_, by omega⟩
    rw [List.map_singleton, ← List.concat_eq_append]
    exact h.once.concat (hnew entry List.mem_cons_self)

/-- **What a lane adds is right**, when the session that is preferred was not picked before. -/
theorem Drained.drainLane (h : Drained queue request lane.priorityRank picked)
    (hsingle : Single queue request.inFlightByLane request.preferredSessionID) :
    Drained queue request (lane.priorityRank + 1) (queue.drainLane lane request picked) := by
  have hrank : ∀ other : Lane, other.priorityRank < lane.priorityRank + 1 →
      other.priorityRank < lane.priorityRank ∨ other = lane := by
    intro other hlt
    rcases Nat.lt_succ_iff_lt_or_eq.mp hlt with hlt | heq
    · exact Or.inl hlt
    · exact Or.inr (priorityRank_injective heq)
  have hstored : ∀ entry ∈ picked, entry ∈ queue.lanes entry.lane ∧
      entry.lane.priorityRank < lane.priorityRank + 1 ∧
        laneHasCapacity entry.lane (request.inFlightByLane entry.lane) := fun entry hentry =>
    ⟨(h.stored entry hentry).1, Nat.lt_succ_of_lt (h.stored entry hentry).2.1,
      (h.stored entry hentry).2.2⟩
  rw [Queue.drainLane]
  split
  next hfull =>
    exact ⟨hstored, h.count, h.once, h.capped, fun hroom => absurd hfull (not_le.mpr hroom), h.order⟩
  next hroom =>
    split
    next hcapacity =>
      refine ⟨hstored, h.count, h.once, h.capped, fun hroom' other hother => ?_, h.order⟩
      rcases hrank other hother with hlt | rfl
      · exact h.settled hroom' other hlt
      · refine Or.inl ?_
        have hnot : ¬request.inFlightByLane other < other.concurrencyCap :=
          of_decide_eq_false hcapacity
        rw [Request.capacity]
        omega
    next hcapacity =>
      have hroom : picked.length < request.count := not_le.mp hroom
      have hcapacity : laneHasCapacity lane (request.inFlightByLane lane) := by
        simpa using hcapacity
      obtain ⟨hlength, hnodup, hcount⟩ := h.preferred hsingle hroom hcapacity
      generalize hT : take lane request.count (min (queue.listLane lane).length
        (min (request.capacity lane) (request.count - picked.length)))
        (picked ++ queue.preferred lane request) (queue.listLane lane) = taken
      have hinitial : picked <+: taken := by
        rw [← hT]
        exact (List.prefix_append _ _).trans isPrefix_take
      have horigin : ∀ entry ∈ taken, entry ∈ picked ∨ entry ∈ queue.listLane lane := by
        intro entry hentry
        rw [← hT] at hentry
        rcases mem_take hentry with hentry | hentry
        · rcases List.mem_append.mp hentry with hentry | hentry
          · exact Or.inl hentry
          · exact Or.inr (mem_preferred hentry).1
        · exact Or.inr hentry
      have htaken : countOf lane taken ≤ min (queue.listLane lane).length
          (min (request.capacity lane) (request.count - picked.length)) := by
        rw [← hT]
        exact countOf_take_le hcount
      have hall : ∀ entry ∈ taken, entry ∈ queue.lanes entry.lane ∧
          entry.lane.priorityRank < lane.priorityRank + 1 ∧
            laneHasCapacity entry.lane (request.inFlightByLane entry.lane) := by
        intro entry hentry
        rcases horigin entry hentry with hentry | hentry
        · exact hstored entry hentry
        · rw [lane_of_mem_listLane hentry]
          exact ⟨mem_listLane.mp hentry, Nat.lt_succ_self _, hcapacity⟩
      have honce : (taken.map QueueEntry.key).Nodup := by
        rw [← hT]
        exact nodup_take hnodup
      refine ⟨hall, ?_, honce, fun other => ?_, fun hroom' other hother => ?_, ?_⟩
      · rw [← hT]
        exact length_take_le hlength
      · rcases eq_or_ne other lane with rfl | hne
        · omega
        · rw [← hT, countOf_take_of_ne (fun entry => lane_of_mem_listLane) hne, countOf_append,
            @countOf_of_forall other (queue.preferred lane request)]
          · exact h.capped other
          · intro entry hentry
            rw [lane_of_mem_listLane (mem_preferred hentry).1]
            exact hne.symm
      · rcases hrank other hother with hlt | rfl
        · exact (h.settled hroom other hlt).mono hinitial
        · have hstops := @take_stops other request.count (min (queue.listLane other).length
            (min (request.capacity other) (request.count - picked.length)))
            (picked ++ queue.preferred other request) (queue.listLane other)
          rw [hT] at hstops
          rcases hstops with hfull | henough | hend
          · omega
          · have hzero := h.countOf_eq_zero
            obtain ⟨rest, hrest⟩ := hinitial
            have hadded : countOf other taken ≤ rest.length := by
              rw [← hrest, countOf_append, hzero, Nat.zero_add]
              exact countOf_le_length rest
            have hlengths : taken.length = picked.length + rest.length := by
              rw [← hrest, List.length_append]
            rcases Nat.lt_or_ge (countOf other taken) (request.capacity other) with hlt | hge
            · refine Or.inr (mem_of_length_le_countOf (fun entry hentry => (hall entry hentry).1)
                honce ?_)
              omega
            · exact Or.inl hge
          · exact Or.inr fun entry hentry => hend entry (mem_listLane.mpr hentry)
      · intro entry hentry other hother
        rcases horigin entry hentry with hentry | hentry
        · exact (h.order entry hentry other hother).mono hinitial
        · rw [lane_of_mem_listLane hentry] at hother
          exact (h.settled hroom other hother).mono hinitial

/-- **A drain is right** if the session that is preferred is in one lane. -/
theorem fair_of_single (hsingle : Single queue request.inFlightByLane request.preferredSessionID) :
    Fair queue request (queue.drain request) := by
  have hstart : Drained queue request Lane.critical.priorityRank [] := by
    refine ⟨fun _ h => absurd h List.not_mem_nil, Nat.zero_le _, List.nodup_nil,
      fun _ => Nat.zero_le _, fun _ lane hlane => absurd hlane (Nat.not_lt_zero _),
      fun _ h => absurd h List.not_mem_nil⟩
  have hcritical : Drained queue request Lane.normal.priorityRank _ := hstart.drainLane hsingle
  have hnormal : Drained queue request Lane.background.priorityRank _ := hcritical.drainLane hsingle
  have hall := hnormal.drainLane hsingle
  exact ⟨fun entry hentry => (hall.stored entry hentry).1, hall.count, hall.once, hall.capped,
    hall.order⟩

/-! ### The session that is preferred -/

theorem length_take_le_add {maxCount toTake : ℕ} {entries : List QueueEntry} :
    (take lane maxCount toTake picked entries).length ≤ picked.length + entries.length := by
  induction entries generalizing picked with
  | nil => exact le_refl _
  | cons entry entries ih =>
    rw [take, List.length_cons]
    split
    next => omega
    next =>
      split
      next =>
        have hle := @ih picked
        omega
      next =>
        split
        next => omega
        next =>
          have hle := @ih (picked ++ [entry])
          rw [List.length_append, List.length_singleton] at hle
          omega

theorem length_drainLane_le : (queue.drainLane lane request picked).length ≤
    picked.length + (queue.listLane lane).length + 1 := by
  rw [Queue.drainLane]
  split
  next => omega
  next =>
    split
    next => omega
    next =>
      refine length_take_le_add.trans ?_
      have hle := @length_preferred_le queue request lane
      rw [List.length_append]
      omega

def occurs (queue : Queue) (inFlightByLane : Lane → ℤ) (id : JsString) (lane : Lane) : ℕ :=
  if queue.Has lane id ∧ laneHasCapacity lane (inFlightByLane lane) then 1 else 0

theorem preferred_eq_singleton {id : JsString} (hid : request.preferredSessionID = some id)
    (h : queue.Has lane id) : ∃ entry, queue.preferred lane request = [entry] ∧
      entry.sessionID = id := by
  obtain ⟨entry, hentry, hkey⟩ := List.mem_map.mp h
  rcases hfind : (queue.listLane lane).find? fun entry => entry.sessionID = id with _ | found
  · have hnone := List.find?_eq_none.mp hfind entry (mem_listLane.mpr hentry)
    exact absurd (decide_eq_true hkey) hnone
  · refine ⟨found, ?_, by simpa using List.find?_some hfind⟩
    rw [preferred, hid, Option.bind_some, hfind]
    rfl

theorem occurs_le_count {id : JsString} (hid : request.preferredSessionID = some id)
    (hroom : picked.length < request.count) :
    (picked.map QueueEntry.key).count id + occurs queue request.inFlightByLane id lane ≤
      ((queue.drainLane lane request picked).map QueueEntry.key).count id := by
  rw [Queue.drainLane, if_neg (not_le.mpr hroom), occurs]
  by_cases hcapacity : laneHasCapacity lane (request.inFlightByLane lane) = false
  · rw [if_pos hcapacity, hcapacity, if_neg fun h => Bool.false_ne_true h.2]
    exact le_refl _
  · rw [if_neg hcapacity]
    refine le_trans ?_ ((isPrefix_take.map QueueEntry.key).sublist.count_le id)
    rw [List.map_append, List.count_append]
    refine Nat.add_le_add_left ?_ _
    split
    next h =>
      obtain ⟨entry, hentry, hkey⟩ := preferred_eq_singleton hid h.1
      rw [hentry, List.map_singleton, List.count_singleton, if_pos (beq_iff_eq.mpr hkey)]
    next => exact Nat.zero_le _

/-- What is asked for is more than there is. -/
def ample (queue : Queue) : ℤ :=
  (queue.listLane .critical).length + (queue.listLane .normal).length +
    (queue.listLane .background).length + 4

theorem occurs_le_count_drain {inFlightByLane : Lane → ℤ} {id : JsString} :
    occurs queue inFlightByLane id .critical + occurs queue inFlightByLane id .normal +
        occurs queue inFlightByLane id .background ≤
      ((queue.drain ⟨ample queue, inFlightByLane, some id⟩).map QueueEntry.key).count id := by
  have hcount : (⟨ample queue, inFlightByLane, some id⟩ : Request).count =
      (queue.listLane .critical).length + (queue.listLane .normal).length +
        (queue.listLane .background).length + 4 := by
    change (ample queue).toNat = _
    rw [ample]
    omega
  generalize hrequest : (⟨ample queue, inFlightByLane, some id⟩ : Request) = request at hcount
  have hid : request.preferredSessionID = some id := by rw [← hrequest]
  have hinFlight : request.inFlightByLane = inFlightByLane := by rw [← hrequest]
  have hlength := @length_drainLane_le queue request .critical []
  have hlength' := @length_drainLane_le queue request .normal
    (queue.drainLane .critical request [])
  rw [List.length_nil] at hlength
  have hcritical := @occurs_le_count queue request .critical [] id hid (by
    rw [List.length_nil]
    omega)
  have hnormal := @occurs_le_count queue request .normal (queue.drainLane .critical request []) id
    hid (by omega)
  have hbackground := @occurs_le_count queue request .background
    (queue.drainLane .normal request (queue.drainLane .critical request [])) id hid (by omega)
  rw [hinFlight] at hcritical hnormal hbackground
  have hdrain : queue.drain request = queue.drainLane .background request
    (queue.drainLane .normal request (queue.drainLane .critical request [])) := rfl
  rw [hdrain]
  omega

end Drain

/-- **A drain is right for every number that is asked for exactly if the session that is preferred
is in one of the lanes that have capacity at most.** -/
theorem drains_iff (queue : Queue) (inFlightByLane : Lane → ℤ)
    (preferredSessionID : Option JsString) :
    (∀ maxCount, Fair queue ⟨maxCount, inFlightByLane, preferredSessionID⟩
        (queue.drain ⟨maxCount, inFlightByLane, preferredSessionID⟩)) ↔
      Single queue inFlightByLane preferredSessionID := by
  refine ⟨fun h => ?_, fun hsingle maxCount => fair_of_single hsingle⟩
  rintro id ⟨⟩ lane lane' hhas hhas' hcapacity hcapacity'
  have honce := List.nodup_iff_count_le_one.mp (h (ample queue)).once id
  have hle := (@occurs_le_count_drain queue inFlightByLane id).trans honce
  have hone : occurs queue inFlightByLane id lane = 1 := if_pos ⟨hhas, hcapacity⟩
  have hone' : occurs queue inFlightByLane id lane' = 1 := if_pos ⟨hhas', hcapacity'⟩
  by_contra hne
  cases lane <;> cases lane' <;> first | exact hne rfl | omega

end OpenCms.RunQueue
