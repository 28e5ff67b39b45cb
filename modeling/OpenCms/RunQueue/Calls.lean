import OpenCms.RunQueue.Queue
import OpenCms.Lib.Runs
import Mathlib.Data.Set.Insert

/-!
# Calls of the run queue that overlap

To enqueue is to remove what a session has in any lane and then to write two files. Between the
operations on files other calls take their steps. When no call of a session is left, it should have
one entry at most, and the legacy entry if and only if it has one.

Calls of a session may overlap as long as none of them can undo half of what another one writes: to
remove only while nothing is enqueued; to enqueue only while the others that have not written yet
write the same lane, and while those that remove have left its two files behind them
(`OpenCms.RunQueue.queue_sound`).
-/

namespace OpenCms.RunQueue

/-! ### Calls -/

inductive TriggerPriority
  | critical
  | normal
  | background
  deriving DecidableEq

def triggerPriorityToLane : TriggerPriority → Lane
  | .critical => .critical
  | .normal => .normal
  | .background => .background

/-- The input of `enqueue`. -/
structure Input extends PendingContinuation where
  triggerType : JsString
  priority : TriggerPriority
  deriving DecidableEq

def Input.entry (input : Input) (now : ℕ) : QueueEntry where
  toPendingContinuation := input.toPendingContinuation
  id := js "qe_" ++ (Nat.toDigits 36 now).flatMap utf16 ++ js "_" ++
    input.sessionID.drop (input.sessionID.length - 6)
  lane := triggerPriorityToLane input.priority
  triggerType := input.triggerType
  enqueuedAt := now

inductive Slot
  | lane (lane : Lane)
  | legacy
  deriving DecidableEq

def slots : List Slot := [.lane .critical, .lane .normal, .lane .background, .legacy]

theorem mem_slots (slot : Slot) : slot ∈ slots := by
  rcases slot with lane | _
  · cases lane <;> decide
  · decide

/-- A call that is in progress: what it still removes, and what it enqueues. -/
structure Call where
  id : ℕ
  sessionID : JsString
  entry : Option QueueEntry
  pending : List Slot
  written : Bool
  deriving DecidableEq

def laneOf (entry : Option QueueEntry) : Option Lane :=
  (entry.filter QueueEntry.parses).map QueueEntry.lane

def Call.target (call : Call) : Option Lane := laneOf call.entry

def Call.Writes (call : Call) (lane : Lane) : Prop := call.target = some lane ∧ call.written = false

instance (call : Call) (lane : Lane) : Decidable (call.Writes lane) :=
  inferInstanceAs (Decidable (_ ∧ _))

structure World where
  queue : Queue
  calls : List Call
  next : ℕ

/-- What happens: a call starts, one of its removals is done, or it goes on after them. -/
inductive Event
  | enqueue (input : Input) (now : ℕ)
  | remove (sessionID : JsString)
  | removed (id : ℕ) (slot : Slot)
  | goesOn (id : ℕ)

def Queue.clear (queue : Queue) (sessionID : JsString) : Slot → Queue
  | .lane lane => queue.remove lane sessionID
  | .legacy => queue.removeLegacy sessionID

namespace World

variable (world : World)

def start (sessionID : JsString) (entry : Option QueueEntry) : World where
  queue := world.queue
  calls := world.calls ++ [⟨world.next, sessionID, entry, slots, false⟩]
  next := world.next + 1

def finish (id : ℕ) : World := { world with calls := Table.erase Call.id id world.calls }

def goOn (call : Call) : World :=
  match call.entry.filter QueueEntry.parses with
  | none => world.finish call.id
  | some entry =>
    if call.written then
      World.finish { world with queue := world.queue.writeLegacy entry.toPendingContinuation } call.id
    else
      { world with
        queue := world.queue.write entry
        calls := Table.update Call.id call.id (fun call => { call with written := true }) world.calls }

def step : Event → World
  | .enqueue input now => world.start input.sessionID (some (input.entry now))
  | .remove sessionID => world.start sessionID none
  | .removed id slot =>
    match Table.lookup Call.id world.calls id with
    | none => world
    | some call =>
      if slot ∈ call.pending then
        { world with
          queue := world.queue.clear call.sessionID slot
          calls := Table.update Call.id id
            (fun call => { call with pending := call.pending.filter (· ≠ slot) }) world.calls }
      else world
  | .goesOn id =>
    match Table.lookup Call.id world.calls id with
    | none => world
    | some call => if call.pending = [] then world.goOn call else world

end World

def World.init (queue : Queue) : World := ⟨queue, [], 0⟩

/-- A session without a call in progress has one entry at most, and the legacy entry if and only if
it has one. -/
structure Sound (world : World) : Prop where
  once : ∀ sessionID, (∀ call ∈ world.calls, call.sessionID ≠ sessionID) →
    ∀ lane lane', world.queue.Has lane sessionID → world.queue.Has lane' sessionID → lane = lane'
  legacy : ∀ sessionID, (∀ call ∈ world.calls, call.sessionID ≠ sessionID) →
    (world.queue.HasLegacy sessionID ↔ ∃ lane, world.queue.Has lane sessionID)

def MayStart (world : World) (sessionID : JsString) (target : Option Lane) : Prop :=
  ∀ call ∈ world.calls, call.sessionID = sessionID →
    match target with
    | none => call.target = none
    | some lane =>
      (call.target = none → .lane lane ∉ call.pending ∧ .legacy ∉ call.pending) ∧
        ∀ other ∈ call.target, call.written = false → other = lane

instance (world : World) (sessionID : JsString) : (target : Option Lane) →
    Decidable (MayStart world sessionID target)
  | none =>
    inferInstanceAs (Decidable (∀ call ∈ world.calls, call.sessionID = sessionID →
      call.target = none))
  | some lane =>
    inferInstanceAs (Decidable (∀ call ∈ world.calls, call.sessionID = sessionID →
      (call.target = none → .lane lane ∉ call.pending ∧ .legacy ∉ call.pending) ∧
        ∀ other ∈ call.target, call.written = false → other = lane))

def Apart (world : World) : Event → Prop
  | .enqueue input now =>
    MayStart world input.sessionID (laneOf (some (input.entry now)))
  | .remove sessionID => MayStart world sessionID none
  | _ => True

instance (world : World) : (event : Event) → Decidable (Apart world event)
  | .enqueue input now =>
    inferInstanceAs (Decidable (MayStart world input.sessionID (laneOf (some (input.entry now)))))
  | .remove sessionID => inferInstanceAs (Decidable (MayStart world sessionID none))
  | .removed _ _ => isTrue trivial
  | .goesOn _ => isTrue trivial

/-! ### What the calls of a session leave -/

def Standing (has : Slot → Prop) (calls : Set Call) (lane : Lane) : Prop :=
  (∃ call ∈ calls, call.Writes lane) ∨
    (∀ call ∈ calls, ∀ other, ¬call.Writes other) ∧ has (.lane lane)

/-- The calls of a session, and the files that it has: nothing is left half written. -/
structure Tidy (has : Slot → Prop) (calls : Set Call) : Prop where
  same : ∀ call ∈ calls, ∀ call' ∈ calls, ∀ lane lane', call.Writes lane → call'.Writes lane' →
    lane = lane'
  clears : ∀ call ∈ calls, ∀ lane, call.Writes lane → ∀ other, has (.lane other) → other ≠ lane →
    .lane other ∈ call.pending
  alone : (∀ call ∈ calls, ∀ lane, ¬call.Writes lane) →
    ∀ lane lane', has (.lane lane) → has (.lane lane') → lane = lane'
  apart : ∀ call ∈ calls, call.target = none → ∀ other ∈ calls, other.target ≠ none →
    .legacy ∉ call.pending ∧ ∀ lane, Standing has calls lane → .lane lane ∉ call.pending
  kept : (∃ call ∈ calls, call.written = true) → (∀ call ∈ calls, ∀ lane, ¬call.Writes lane) →
    ∃ lane, has (.lane lane)
  quiet : (∀ call ∈ calls, call.target = none) →
    ((has .legacy ∧ ∀ call ∈ calls, .legacy ∉ call.pending) ↔
      ∃ lane, has (.lane lane) ∧ ∀ call ∈ calls, .lane lane ∉ call.pending)

section Tidy

variable {has has' : Slot → Prop} {calls : Set Call} {call : Call} {lane : Lane} {slot : Slot}

theorem tidy_empty : Tidy has ∅ ↔ (∀ lane lane', has (.lane lane) → has (.lane lane') →
    lane = lane') ∧ (has .legacy ↔ ∃ lane, has (.lane lane)) := by
  constructor
  · intro h
    refine ⟨h.alone fun _ hcall => hcall.elim, ?_⟩
    have hquiet := h.quiet fun _ hcall => hcall.elim
    simpa using hquiet
  · rintro ⟨halone, hlegacy⟩
    refine ⟨fun _ h => h.elim, fun _ h => h.elim, fun _ => halone, fun _ h => h.elim, ?_, fun _ => ?_⟩
    · rintro ⟨_, h, -⟩
      exact h.elim
    · simpa using hlegacy

theorem Tidy.start_remove (h : Tidy has calls) (hcalls : ∀ other ∈ calls, other.target = none)
    (htarget : call.target = none) (hpending : ∀ slot, slot ∈ call.pending)
    (hwritten : call.written = false) : Tidy has (insert call calls) := by
  have hnone : ∀ other ∈ insert call calls, other.target = none := by
    rintro other (rfl | hother)
    · exact htarget
    · exact hcalls other hother
  have hwrites : ∀ other ∈ insert call calls, ∀ lane, ¬other.Writes lane := by
    rintro other hother lane ⟨heq, -⟩
    rw [hnone other hother] at heq
    cases heq
  refine ⟨fun other hother _ _ lane _ hlane => absurd hlane (hwrites other hother lane),
    fun other hother lane hlane => absurd hlane (hwrites other hother lane),
    fun _ => h.alone fun other hother => hwrites other (Or.inr hother),
    fun _ _ _ other hother hne => absurd (hnone other hother) hne, ?_, fun _ => ?_⟩
  · rintro ⟨other, rfl | hother, htrue⟩ _
    · rw [hwritten] at htrue
      cases htrue
    · exact h.kept ⟨other, hother, htrue⟩ fun other hother => hwrites other (Or.inr hother)
  · refine iff_of_false ?_ ?_
    · rintro ⟨-, hfree⟩
      exact hfree call (Or.inl rfl) (hpending _)
    · rintro ⟨lane, -, hfree⟩
      exact hfree call (Or.inl rfl) (hpending _)

theorem Tidy.start_enqueue (h : Tidy has calls)
    (hcalls : ∀ other ∈ calls,
      (other.target = none → .lane lane ∉ other.pending ∧ .legacy ∉ other.pending) ∧
        ∀ lane' ∈ other.target, other.written = false → lane' = lane)
    (htarget : call.target = some lane) (hpending : ∀ slot, slot ∈ call.pending)
    (hwritten : call.written = false) : Tidy has (insert call calls) := by
  have hwrites : call.Writes lane := ⟨htarget, hwritten⟩
  have hsame : ∀ other ∈ insert call calls, ∀ lane', other.Writes lane' → lane' = lane := by
    rintro other (rfl | hother) lane' hlane'
    · exact Option.some.inj (hlane'.1.symm.trans htarget)
    · exact (hcalls other hother).2 lane' hlane'.1 hlane'.2
  refine ⟨fun other hother other' hother' l l' hl hl' => ?_, ?_,
    fun hnone => absurd hwrites (hnone call (Or.inl rfl) lane), ?_,
    fun _ hnone => absurd hwrites (hnone call (Or.inl rfl) lane), fun hnone => ?_⟩
  · rw [hsame other hother l hl, hsame other' hother' l' hl']
  · rintro other (rfl | hother) l hl k hk hne
    · exact hpending _
    · exact h.clears other hother l hl k hk hne
  · rintro other (rfl | hother) hother_target _ _ _
    · rw [htarget] at hother_target
      cases hother_target
    · obtain ⟨hlane, hlegacy⟩ := (hcalls other hother).1 hother_target
      refine ⟨hlegacy, ?_⟩
      rintro l (⟨writer, hwriter, hl⟩ | ⟨hnone, -⟩)
      · rw [hsame writer hwriter l hl]
        exact hlane
      · exact absurd hwrites (hnone call (Or.inl rfl) lane)
  · have hnot := hnone call (Or.inl rfl)
    rw [htarget] at hnot
    cases hnot

theorem Tidy.removed (h : Tidy has calls) (hcall : call ∈ calls) {call' : Call}
    (htarget : call'.target = call.target) (hwritten : call'.written = call.written)
    (hpending : ∀ other, other ∈ call'.pending ↔ other ∈ call.pending ∧ other ≠ slot)
    (hslot : slot ∈ call.pending)
    (hdone : ∀ c ∈ calls, c.written = true → c.pending = [] ∧ c.target ≠ none)
    (hhas : ∀ other, has' other ↔ has other ∧ other ≠ slot) :
    Tidy has' (insert call' (calls \ {call})) := by
  -- a call and what it was
  have hold : ∀ c' ∈ insert call' (calls \ {call}), ∃ c ∈ calls, c'.target = c.target ∧
      c'.written = c.written ∧ (∀ other ∈ c'.pending, other ∈ c.pending) ∧
        ∀ other, other ≠ slot → (other ∈ c'.pending ↔ other ∈ c.pending) := by
    rintro c' (rfl | hc')
    · refine ⟨call, hcall, htarget, hwritten, fun other hother => ((hpending other).mp hother).1, ?_⟩
      exact fun other hne => (hpending other).trans (and_iff_left hne)
    · exact ⟨c', hc'.1, rfl, rfl, fun _ => id, fun _ _ => Iff.rfl⟩
  have hnew : ∀ c ∈ calls, ∃ c' ∈ insert call' (calls \ {call}), c'.target = c.target ∧
      c'.written = c.written ∧ ∀ other, other ≠ slot → (other ∈ c'.pending ↔ other ∈ c.pending) := by
    intro c hc
    rcases eq_or_ne c call with rfl | hne
    · exact ⟨call', Or.inl rfl, htarget, hwritten,
        fun other hne => (hpending other).trans (and_iff_left hne)⟩
    · exact ⟨c, Or.inr ⟨hc, hne⟩, rfl, rfl, fun _ _ => Iff.rfl⟩
  have hwrites : ∀ c c' : Call, c'.target = c.target → c'.written = c.written →
      ∀ lane, (c'.Writes lane ↔ c.Writes lane) := by
    intro c c' ht hw lane
    rw [Call.Writes, ht, hw, Call.Writes]
  have hnowriter : (∀ c' ∈ insert call' (calls \ {call}), ∀ lane, ¬c'.Writes lane) →
      ∀ c ∈ calls, ∀ lane, ¬c.Writes lane := by
    intro hnone c hc lane hlane
    obtain ⟨c', hc', ht, hw, -⟩ := hnew c hc
    exact hnone c' hc' lane ((hwrites c c' ht hw lane).mpr hlane)
  refine ⟨?_, ?_, ?_, ?_, ?_, ?_⟩
  · intro c₁ hc₁ c₂ hc₂ l₁ l₂ hl₁ hl₂
    obtain ⟨d₁, hd₁, ht₁, hw₁, -⟩ := hold c₁ hc₁
    obtain ⟨d₂, hd₂, ht₂, hw₂, -⟩ := hold c₂ hc₂
    exact h.same d₁ hd₁ d₂ hd₂ l₁ l₂ ((hwrites d₁ c₁ ht₁ hw₁ l₁).mp hl₁)
      ((hwrites d₂ c₂ ht₂ hw₂ l₂).mp hl₂)
  · intro c' hc' lane hlane other hother hne
    obtain ⟨c, hc, ht, hw, -, hsame⟩ := hold c' hc'
    obtain ⟨hother, hnot⟩ := (hhas _).mp hother
    exact (hsame _ hnot).mpr
      (h.clears c hc lane ((hwrites c c' ht hw lane).mp hlane) other hother hne)
  · intro hnone lane lane' hlane hlane'
    exact h.alone (hnowriter hnone) lane lane' ((hhas _).mp hlane).1 ((hhas _).mp hlane').1
  · intro c' hc' hc'_target d' hd' hd'_target
    obtain ⟨c, hc, ht, -, hsub, -⟩ := hold c' hc'
    obtain ⟨d, hd, ht', -⟩ := hold d' hd'
    rw [ht] at hc'_target
    rw [ht'] at hd'_target
    obtain ⟨hlegacy, hlanes⟩ := h.apart c hc hc'_target d hd hd'_target
    refine ⟨fun hmem => hlegacy (hsub _ hmem), fun lane hlane hmem => hlanes lane ?_ (hsub _ hmem)⟩
    rcases hlane with ⟨writer', hwriter', hlane⟩ | ⟨hnone, hlane⟩
    · obtain ⟨writer, hwriter, ht, hw, -⟩ := hold writer' hwriter'
      exact Or.inl ⟨writer, hwriter, (hwrites writer writer' ht hw lane).mp hlane⟩
    · exact Or.inr ⟨hnowriter hnone, ((hhas _).mp hlane).1⟩
  · rintro ⟨closer', hcloser', htrue⟩ hnone
    obtain ⟨closer, hcloser, ht, hw, -⟩ := hold closer' hcloser'
    rw [hw] at htrue
    obtain ⟨lane, hlane⟩ := h.kept ⟨closer, hcloser, htrue⟩ (hnowriter hnone)
    refine ⟨lane, (hhas _).mpr ⟨hlane, ?_⟩⟩
    -- the call that removes is none that enqueues: the others have written
    rintro rfl
    have hcall_target : call.target = none := by
      rcases hct : call.target with _ | l
      · rfl
      · rcases hcw : call.written with _ | _
        · exact absurd ⟨hct, hcw⟩ (hnowriter hnone call hcall l)
        · rw [(hdone call hcall hcw).1] at hslot
          cases hslot
    have hcloser_target : closer.target ≠ none := (hdone closer hcloser htrue).2
    exact (h.apart call hcall hcall_target closer hcloser hcloser_target).2 lane
      (Or.inr ⟨hnowriter hnone, hlane⟩) hslot
  · intro hnone
    have hnone' : ∀ c ∈ calls, c.target = none := by
      intro c hc
      obtain ⟨c', hc', ht, -⟩ := hnew c hc
      rw [← ht]
      exact hnone c' hc'
    have hfree : ∀ other, (has' other ∧ ∀ c' ∈ insert call' (calls \ {call}), other ∉ c'.pending) ↔
        has other ∧ ∀ c ∈ calls, other ∉ c.pending := by
      intro other
      constructor
      · rintro ⟨hother, hfree⟩
        obtain ⟨hother, hne⟩ := (hhas _).mp hother
        refine ⟨hother, fun c hc hmem => ?_⟩
        obtain ⟨c', hc', -, -, hsame⟩ := hnew c hc
        exact hfree c' hc' ((hsame _ hne).mpr hmem)
      · rintro ⟨hother, hfree⟩
        refine ⟨(hhas _).mpr ⟨hother, fun heq => hfree call hcall (heq ▸ hslot)⟩, fun c' hc' hmem => ?_⟩
        obtain ⟨c, hc, -, -, hsub, -⟩ := hold c' hc'
        exact hfree c hc (hsub _ hmem)
    rw [hfree, h.quiet hnone']
    exact exists_congr fun lane => (hfree _).symm

theorem Tidy.wrote (h : Tidy has calls) (hcall : call ∈ calls) {call' : Call}
    (hwrites : call.Writes lane) (hpending : call.pending = [])
    (htarget : call'.target = call.target) (hwritten : call'.written = true)
    (hpending' : call'.pending = [])
    (hhas : ∀ other, has' other ↔ has other ∨ other = .lane lane) :
    Tidy has' (insert call' (calls \ {call})) := by
  have hold : ∀ c' ∈ insert call' (calls \ {call}), ∀ l, c'.Writes l → c' ∈ calls := by
    rintro c' (rfl | hc') l ⟨-, hnot⟩
    · rw [hwritten] at hnot
      cases hnot
    · exact hc'.1
  -- the call has removed every other lane
  have hlanes : ∀ other, has' (.lane other) → other = lane := by
    intro other hother
    rcases (hhas _).mp hother with hother | heq
    · by_contra hne
      have hmem := h.clears call hcall lane hwrites other hother hne
      rw [hpending] at hmem
      cases hmem
    · exact Slot.lane.inj heq
  have hcall_target : call.target ≠ none := by
    rw [hwrites.1]
    exact Option.some_ne_none lane
  refine ⟨?_, ?_, ?_, ?_, ?_, ?_⟩
  · intro c₁ hc₁ c₂ hc₂ l₁ l₂ hl₁ hl₂
    exact h.same c₁ (hold c₁ hc₁ l₁ hl₁) c₂ (hold c₂ hc₂ l₂ hl₂) l₁ l₂ hl₁ hl₂
  · intro c' hc' l hl other hother hne
    refine absurd ?_ hne
    rw [hlanes other hother]
    exact h.same call hcall c' (hold c' hc' l hl) lane l hwrites hl
  · intro _ l l' hl hl'
    rw [hlanes l hl, hlanes l' hl']
  · rintro c' (rfl | hc') hc'_target other hother hother_target
    · rw [htarget] at hc'_target
      exact absurd hc'_target hcall_target
    · obtain ⟨hlegacy, hfree⟩ := h.apart c' hc'.1 hc'_target call hcall hcall_target
      refine ⟨hlegacy, ?_⟩
      rintro l (⟨writer, hwriter, hl⟩ | ⟨-, hl⟩)
      · exact hfree l (Or.inl ⟨writer, hold writer hwriter l hl, hl⟩)
      · rw [hlanes l hl]
        exact hfree lane (Or.inl ⟨call, hcall, hwrites⟩)
  · intro _ _
    exact ⟨lane, (hhas _).mpr (Or.inr rfl)⟩
  · intro hnone
    have hnot := hnone call' (Or.inl rfl)
    rw [htarget] at hnot
    exact absurd hnot hcall_target

theorem Tidy.closed (h : Tidy has calls) (hcall : call ∈ calls) (htarget : call.target ≠ none)
    (hwritten : call.written = true) (hhas : ∀ other, has' other ↔ has other ∨ other = .legacy) :
    Tidy has' (calls \ {call}) := by
  have hnowriter : (∀ c ∈ calls \ {call}, ∀ l, ¬c.Writes l) → ∀ c ∈ calls, ∀ l, ¬c.Writes l := by
    intro hnone c hc l hl
    rcases eq_or_ne c call with rfl | hne
    · rw [hl.2] at hwritten
      cases hwritten
    · exact hnone c ⟨hc, hne⟩ l hl
  have hlane : ∀ l, has' (.lane l) ↔ has (.lane l) := fun l =>
    (hhas _).trans (or_iff_left fun heq => Slot.noConfusion heq)
  have hfree : ∀ c ∈ calls, c.target = none → .legacy ∉ c.pending ∧
      ∀ l, Standing has' (calls \ {call}) l → .lane l ∉ c.pending := by
    intro c hc hc_target
    obtain ⟨hlegacy, hlanes⟩ := h.apart c hc hc_target call hcall htarget
    refine ⟨hlegacy, ?_⟩
    rintro l (⟨writer, hwriter, hl⟩ | ⟨hnone, hl⟩)
    · exact hlanes l (Or.inl ⟨writer, hwriter.1, hl⟩)
    · exact hlanes l (Or.inr ⟨hnowriter hnone, (hlane l).mp hl⟩)
  refine ⟨fun c hc c' hc' => h.same c hc.1 c' hc'.1, fun c hc l hl other hother =>
    h.clears c hc.1 l hl other ((hlane other).mp hother), fun hnone l l' hl hl' =>
    h.alone (hnowriter hnone) l l' ((hlane l).mp hl) ((hlane l').mp hl'),
    fun c hc hc_target _ _ _ => hfree c hc.1 hc_target, ?_, fun hnone => ?_⟩
  · rintro - hnone
    obtain ⟨l, hl⟩ := h.kept ⟨call, hcall, hwritten⟩ (hnowriter hnone)
    exact ⟨l, (hlane l).mpr hl⟩
  · have hwrites : ∀ c ∈ calls \ {call}, ∀ l, ¬c.Writes l := by
      rintro c hc l ⟨heq, -⟩
      rw [hnone c hc] at heq
      cases heq
    obtain ⟨l, hl⟩ := h.kept ⟨call, hcall, hwritten⟩ (hnowriter hwrites)
    refine iff_of_true ⟨(hhas _).mpr (Or.inr rfl), fun c hc => (hfree c hc.1 (hnone c hc)).1⟩
      ⟨l, (hlane l).mpr hl, fun c hc => (hfree c hc.1 (hnone c hc)).2 l ?_⟩
    exact Or.inr ⟨hwrites, (hlane l).mpr hl⟩

theorem Tidy.ended (h : Tidy has calls) (hcall : call ∈ calls) (htarget : call.target = none)
    (hwritten : call.written = false) (hpending : call.pending = []) :
    Tidy has (calls \ {call}) := by
  have hnowriter : (∀ c ∈ calls \ {call}, ∀ l, ¬c.Writes l) → ∀ c ∈ calls, ∀ l, ¬c.Writes l := by
    intro hnone c hc l hl
    rcases eq_or_ne c call with rfl | hne
    · rw [hl.1] at htarget
      cases htarget
    · exact hnone c ⟨hc, hne⟩ l hl
  refine ⟨fun c hc c' hc' => h.same c hc.1 c' hc'.1, fun c hc => h.clears c hc.1,
    fun hnone => h.alone (hnowriter hnone), fun c hc hc_target other hother hother_target => ?_,
    ?_, fun hnone => ?_⟩
  · obtain ⟨hlegacy, hlanes⟩ := h.apart c hc.1 hc_target other hother.1 hother_target
    refine ⟨hlegacy, ?_⟩
    rintro l (⟨writer, hwriter, hl⟩ | ⟨hnone, hl⟩)
    · exact hlanes l (Or.inl ⟨writer, hwriter.1, hl⟩)
    · exact hlanes l (Or.inr ⟨hnowriter hnone, hl⟩)
  · rintro ⟨closer, hcloser, htrue⟩ hnone
    exact h.kept ⟨closer, hcloser.1, htrue⟩ (hnowriter hnone)
  · have hnone' : ∀ c ∈ calls, c.target = none := by
      intro c hc
      rcases eq_or_ne c call with rfl | hne
      · exact htarget
      · exact hnone c ⟨hc, hne⟩
    have hfree : ∀ slot, (∀ c ∈ calls \ {call}, slot ∉ c.pending) ↔ ∀ c ∈ calls, slot ∉ c.pending := by
      intro slot
      refine ⟨fun hfree c hc => ?_, fun hfree c hc => hfree c hc.1⟩
      rcases eq_or_ne c call with rfl | hne
      · rw [hpending]
        exact List.not_mem_nil
      · exact hfree c ⟨hc, hne⟩
    simp only [hfree]
    exact h.quiet hnone'

end Tidy

/-! ### The files of a session -/

def Queue.HasSlot (queue : Queue) (sessionID : JsString) : Slot → Prop
  | .lane lane => queue.Has lane sessionID
  | .legacy => queue.HasLegacy sessionID

section Files

variable {queue : Queue} {sessionID id : JsString} {slot other : Slot} {entry : QueueEntry}

theorem hasSlot_clear : (queue.clear id slot).HasSlot sessionID other ↔
    queue.HasSlot sessionID other ∧ ¬(sessionID = id ∧ other = slot) := by
  rcases slot with lane | _ <;> rcases other with lane' | _
  · change sessionID ∈ ((queue.remove lane id).lanes lane').map QueueEntry.key ↔
      sessionID ∈ (queue.lanes lane').map QueueEntry.key ∧ _
    dsimp only [Queue.remove]
    split
    next h =>
      rw [Table.mem_keys_erase, h, and_iff_left rfl, and_comm]
    next h =>
      refine (and_iff_left ?_).symm
      rintro ⟨-, heq⟩
      exact h (Slot.lane.inj heq)
  · refine (and_iff_left ?_).symm
    rintro ⟨-, heq⟩
    cases heq
  · refine (and_iff_left ?_).symm
    rintro ⟨-, heq⟩
    cases heq
  · change sessionID ∈ (Table.erase _ id queue.legacy).map PendingContinuation.key ↔
      sessionID ∈ queue.legacy.map PendingContinuation.key ∧ _
    rw [Table.mem_keys_erase, and_iff_left rfl, and_comm]

theorem hasSlot_write : (queue.write entry).HasSlot sessionID other ↔
    queue.HasSlot sessionID other ∨ sessionID = entry.sessionID ∧ other = .lane entry.lane := by
  rcases other with lane | _
  · change sessionID ∈ ((queue.write entry).lanes lane).map QueueEntry.key ↔
      sessionID ∈ (queue.lanes lane).map QueueEntry.key ∨ _
    dsimp only [Queue.write]
    split
    next h => rw [Table.mem_keys_upsert, h, and_iff_left rfl, or_comm]
    next h =>
      refine (or_iff_left ?_).symm
      rintro ⟨-, heq⟩
      exact h (Slot.lane.inj heq)
  · refine (or_iff_left ?_).symm
    rintro ⟨-, heq⟩
    cases heq

theorem hasSlot_writeLegacy {pending : PendingContinuation} :
    (queue.writeLegacy pending).HasSlot sessionID other ↔
      queue.HasSlot sessionID other ∨ sessionID = pending.sessionID ∧ other = .legacy := by
  rcases other with lane | _
  · refine (or_iff_left ?_).symm
    rintro ⟨-, heq⟩
    cases heq
  · change sessionID ∈ (Table.upsert _ pending queue.legacy).map PendingContinuation.key ↔
      sessionID ∈ queue.legacy.map PendingContinuation.key ∨ _
    rw [Table.mem_keys_upsert, and_iff_left rfl, or_comm]

end Files

/-! ### The calls of a session -/

def callsOf (calls : List Call) (sessionID : JsString) : Set Call :=
  {call | call ∈ calls ∧ call.sessionID = sessionID}

section Calls

variable {calls : List Call} {call : Call} {sessionID : JsString}

theorem mem_callsOf : call ∈ callsOf calls sessionID ↔
    call ∈ calls ∧ call.sessionID = sessionID := Iff.rfl

theorem callsOf_append : callsOf (calls ++ [call]) sessionID =
    if call.sessionID = sessionID then insert call (callsOf calls sessionID)
    else callsOf calls sessionID := by
  ext other
  rw [mem_callsOf, List.mem_append, List.mem_singleton]
  split
  next h =>
    constructor
    · rintro ⟨hother | rfl, heq⟩
      · exact Or.inr ⟨hother, heq⟩
      · exact Or.inl rfl
    · rintro (rfl | ⟨hother, heq⟩)
      · exact ⟨Or.inr rfl, h⟩
      · exact ⟨Or.inl hother, heq⟩
  next h =>
    refine and_congr_left fun heq => or_iff_left ?_
    rintro rfl
    exact h heq

theorem eq_of_id (hids : (calls.map Call.id).Nodup) (hcall : call ∈ calls) {other : Call}
    (hother : other ∈ calls) : other.id = call.id ↔ other = call := by
  refine ⟨fun h => List.inj_on_of_nodup_map hids hother hcall h, ?_⟩
  rintro rfl
  rfl

theorem callsOf_erase (hids : (calls.map Call.id).Nodup) (hcall : call ∈ calls) :
    callsOf (Table.erase Call.id call.id calls) sessionID =
      if call.sessionID = sessionID then callsOf calls sessionID \ {call}
      else callsOf calls sessionID := by
  have hmem : ∀ other, other ∈ Table.erase Call.id call.id calls ↔ other ∈ calls ∧ other ≠ call := by
    intro other
    rw [Table.mem_erase]
    exact and_congr_right fun hother => not_congr (eq_of_id hids hcall hother)
  ext other
  rw [mem_callsOf, hmem]
  split
  next => exact and_right_comm
  next h =>
    refine and_congr_left fun heq => and_iff_left ?_
    rintro rfl
    exact h heq

theorem callsOf_update {f : Call → Call} (hids : (calls.map Call.id).Nodup) (hcall : call ∈ calls)
    (hf : (f call).sessionID = call.sessionID) :
    callsOf (Table.update Call.id call.id f calls) sessionID =
      if call.sessionID = sessionID then insert (f call) (callsOf calls sessionID \ {call})
      else callsOf calls sessionID := by
  have hmem : ∀ other, other ∈ Table.update Call.id call.id f calls ↔
      (other ∈ calls ∧ other ≠ call) ∨ other = f call := by
    intro other
    rw [Table.mem_update]
    refine or_congr (and_congr_right fun hother => not_congr (eq_of_id hids hcall hother)) ?_
    constructor
    · rintro ⟨old, hold, hid, rfl⟩
      rw [(eq_of_id hids hcall hold).mp hid]
    · rintro rfl
      exact ⟨call, hcall, rfl, rfl⟩
  ext other
  rw [mem_callsOf, hmem]
  split
  next h =>
    constructor
    · rintro ⟨⟨hother, hne⟩ | rfl, heq⟩
      · exact Or.inr ⟨⟨hother, heq⟩, hne⟩
      · exact Or.inl rfl
    · rintro (rfl | ⟨⟨hother, heq⟩, hne⟩)
      · exact ⟨Or.inr rfl, hf.trans h⟩
      · exact ⟨Or.inl ⟨hother, hne⟩, heq⟩
  next h =>
    refine and_congr_left fun heq => ⟨?_, fun hother => Or.inl ⟨hother, ?_⟩⟩
    · rintro (⟨hother, -⟩ | rfl)
      · exact hother
      · exact absurd (hf.symm.trans heq) h
    · rintro rfl
      exact h heq

end Calls

/-! ### One step -/

/-- What every run keeps: the calls have names of their own, a call that has written its lane has
removed everything, and what the calls of a session leave is not half written. -/
structure Inv (world : World) : Prop where
  ids : (world.calls.map Call.id).Nodup
  fresh : ∀ call ∈ world.calls, call.id < world.next
  done : ∀ call ∈ world.calls, call.written = true → call.pending = [] ∧ call.target ≠ none
  own : ∀ call ∈ world.calls, ∀ entry ∈ call.entry, entry.sessionID = call.sessionID
  tidy : ∀ sessionID, Tidy (world.queue.HasSlot sessionID) (callsOf world.calls sessionID)

section Step

variable {world : World} {call : Call} {slot : Slot} {sessionID : JsString}
  {entry : Option QueueEntry}

theorem Inv.start (h : Inv world) (hown : ∀ e ∈ entry, e.sessionID = sessionID)
    (hmay : MayStart world sessionID (laneOf entry)) : Inv (world.start sessionID entry) := by
  have hfresh : ∀ call ∈ world.calls, call.id ≠ world.next := fun call hcall =>
    (h.fresh call hcall).ne
  refine ⟨?_, ?_, ?_, ?_, fun id => ?_⟩
  · rw [World.start, List.map_append, List.map_singleton, ← List.concat_eq_append]
    refine h.ids.concat ?_
    rintro hmem
    obtain ⟨call, hcall, heq⟩ := List.mem_map.mp hmem
    exact hfresh call hcall heq
  · intro call hcall
    rcases List.mem_append.mp hcall with hcall | hcall
    · exact Nat.lt_succ_of_lt (h.fresh call hcall)
    · rw [List.mem_singleton.mp hcall]
      exact Nat.lt_succ_self _
  · intro call hcall htrue
    rcases List.mem_append.mp hcall with hcall | hcall
    · exact h.done call hcall htrue
    · rw [List.mem_singleton.mp hcall] at htrue
      cases htrue
  · intro call hcall
    rcases List.mem_append.mp hcall with hcall | hcall
    · exact h.own call hcall
    · rw [List.mem_singleton.mp hcall]
      exact hown
  · have htidy := h.tidy id
    change Tidy (world.queue.HasSlot id) (callsOf (world.calls ++ [_]) id)
    rw [callsOf_append]
    split
    next heq =>
      obtain rfl : sessionID = id := heq
      rcases htarget : laneOf entry with _ | lane
      · refine htidy.start_remove (fun other hother => ?_) htarget mem_slots rfl
        have hother := hmay other hother.1 hother.2
        rw [htarget] at hother
        exact hother
      · refine htidy.start_enqueue (fun other hother => ?_) htarget mem_slots rfl
        have hother := hmay other hother.1 hother.2
        rw [htarget] at hother
        exact hother
    next => exact htidy

theorem Inv.finish (h : Inv world) (hcall : call ∈ world.calls) {queue : Queue}
    (htidy : ∀ sessionID, Tidy (queue.HasSlot sessionID)
      (if call.sessionID = sessionID then callsOf world.calls sessionID \ {call}
        else callsOf world.calls sessionID)) :
    Inv (World.finish { world with queue := queue } call.id) := by
  have hmem : ∀ other ∈ Table.erase Call.id call.id world.calls, other ∈ world.calls :=
    fun other hother => (Table.mem_erase.mp hother).1
  refine ⟨Table.nodup_erase h.ids, fun other hother => h.fresh other (hmem other hother),
    fun other hother => h.done other (hmem other hother),
    fun other hother => h.own other (hmem other hother), fun id => ?_⟩
  change Tidy (queue.HasSlot id) (callsOf (Table.erase Call.id call.id world.calls) id)
  rw [callsOf_erase h.ids hcall]
  exact htidy id

theorem Inv.update (h : Inv world) (hcall : call ∈ world.calls) {queue : Queue} {f : Call → Call}
    (hid : ∀ other : Call, (f other).id = other.id)
    (hsession : ∀ other : Call, (f other).sessionID = other.sessionID)
    (hentry : ∀ other : Call, (f other).entry = other.entry)
    (hdone : (f call).written = true → (f call).pending = [] ∧ (f call).target ≠ none)
    (htidy : ∀ sessionID, Tidy (queue.HasSlot sessionID)
      (if call.sessionID = sessionID then insert (f call) (callsOf world.calls sessionID \ {call})
        else callsOf world.calls sessionID)) :
    Inv { world with
      queue := queue
      calls := Table.update Call.id call.id f world.calls } := by
  have hmem : ∀ other ∈ Table.update Call.id call.id f world.calls,
      other ∈ world.calls ∨ other = f call := by
    intro other hother
    rcases Table.mem_update.mp hother with ⟨hother, -⟩ | ⟨old, hold, hid, rfl⟩
    · exact Or.inl hother
    · rw [(eq_of_id h.ids hcall hold).mp hid]
      exact Or.inr rfl
  refine ⟨?_, fun other hother => ?_, fun other hother htrue => ?_, fun other hother => ?_,
    fun id => ?_⟩
  · change ((Table.update Call.id call.id f world.calls).map Call.id).Nodup
    rw [Table.keys_update fun other hother => (hid other).trans hother]
    exact h.ids
  · rcases hmem other hother with hother | rfl
    · exact h.fresh other hother
    · rw [hid]
      exact h.fresh call hcall
  · rcases hmem other hother with hother | rfl
    · exact h.done other hother htrue
    · exact hdone htrue
  · rcases hmem other hother with hother | rfl
    · exact h.own other hother
    · rw [hentry, hsession]
      exact h.own call hcall
  · change Tidy (queue.HasSlot id) (callsOf (Table.update Call.id call.id f world.calls) id)
    rw [callsOf_update h.ids hcall (hsession call)]
    exact htidy id

theorem Inv.removed (h : Inv world) (hcall : call ∈ world.calls) (hslot : slot ∈ call.pending) :
    Inv { world with
      queue := world.queue.clear call.sessionID slot
      calls := Table.update Call.id call.id
        (fun call => { call with pending := call.pending.filter (· ≠ slot) }) world.calls } := by
  have hmem : ∀ other, other ∈ call.pending.filter (· ≠ slot) ↔
      other ∈ call.pending ∧ other ≠ slot := by
    intro other
    rw [List.mem_filter, decide_eq_true_eq]
  refine h.update hcall (fun _ => rfl) (fun _ => rfl) (fun _ => rfl) (fun htrue => ?_) fun id => ?_
  · obtain ⟨hpending, htarget⟩ := h.done call hcall htrue
    rw [hpending] at hslot
    cases hslot
  · have htidy := h.tidy id
    split
    next heq =>
      refine htidy.removed ⟨hcall, heq⟩ rfl rfl hmem hslot
        (fun other hother => h.done other hother.1) fun other => ?_
      rw [hasSlot_clear, heq, eq_self_iff_true, true_and]
    next hne =>
      have hsame : (world.queue.clear call.sessionID slot).HasSlot id = world.queue.HasSlot id := by
        funext other
        refine propext (hasSlot_clear.trans (and_iff_left ?_))
        rintro ⟨rfl, -⟩
        exact hne rfl
      rw [hsame]
      exact htidy

theorem Inv.goOn (h : Inv world) (hcall : call ∈ world.calls) (hpending : call.pending = []) :
    Inv (world.goOn call) := by
  rw [World.goOn]
  rcases hparsed : call.entry.filter QueueEntry.parses with _ | entry
  · have htarget : call.target = none := by rw [Call.target, laneOf, hparsed, Option.map_none]
    have hwritten : call.written = false := by
      rcases htrue : call.written with _ | _
      · rfl
      · exact absurd htarget (h.done call hcall htrue).2
    refine Inv.finish (h : Inv { world with queue := world.queue }) hcall fun id => ?_
    split
    next heq => exact (h.tidy id).ended ⟨hcall, heq⟩ htarget hwritten hpending
    next => exact h.tidy id
  · have htarget : call.target = some entry.lane := by
      rw [Call.target, laneOf, hparsed, Option.map_some]
    have hsession : entry.sessionID = call.sessionID :=
      h.own call hcall entry (Option.mem_filter_iff.mp hparsed).1
    dsimp only
    split
    next hwritten =>
      refine h.finish hcall fun id => ?_
      split
      next heq =>
        refine (h.tidy id).closed ⟨hcall, heq⟩ ?_ hwritten fun other => ?_
        · rw [htarget]
          exact Option.some_ne_none entry.lane
        · rw [hasSlot_writeLegacy, hsession, heq, eq_self_iff_true, true_and]
      next hne =>
        have hsame : (world.queue.writeLegacy entry.toPendingContinuation).HasSlot id =
            world.queue.HasSlot id := by
          funext other
          refine propext (hasSlot_writeLegacy.trans (or_iff_left ?_))
          rintro ⟨rfl, -⟩
          exact hne hsession.symm
        rw [hsame]
        exact h.tidy id
    next hwritten =>
      have hwritten : call.written = false := by simpa using hwritten
      refine h.update hcall (fun _ => rfl) (fun _ => rfl) (fun _ => rfl) (fun _ => ⟨hpending, ?_⟩)
        fun id => ?_
      · change laneOf call.entry ≠ none
        rw [← Call.target, htarget]
        exact Option.some_ne_none entry.lane
      · split
        next heq =>
          refine (h.tidy id).wrote ⟨hcall, heq⟩ ⟨htarget, hwritten⟩ hpending rfl rfl hpending
            fun other => ?_
          rw [hasSlot_write, hsession, heq, eq_self_iff_true, true_and]
        next hne =>
          have hsame : (world.queue.write entry).HasSlot id = world.queue.HasSlot id := by
            funext other
            refine propext (hasSlot_write.trans (or_iff_left ?_))
            rintro ⟨rfl, -⟩
            exact hne hsession.symm
          rw [hsame]
          exact h.tidy id

/-- **An event that meets its condition keeps what every run keeps.** -/
theorem Inv.step (h : Inv world) {event : Event} (hapart : Apart world event) :
    Inv (world.step event) := by
  rcases event with ⟨input, now⟩ | sessionID | ⟨id, slot⟩ | id
  · refine h.start ?_ hapart
    rintro e ⟨⟩
    rfl
  · refine h.start ?_ hapart
    rintro e ⟨⟩
  · rw [World.step]
    rcases hfound : Table.lookup Call.id world.calls id with _ | call
    · exact h
    · dsimp only
      split
      next hslot =>
        obtain rfl := Table.key_of_lookup hfound
        exact h.removed (Table.mem_of_lookup hfound) hslot
      next => exact h
  · rw [World.step]
    rcases hfound : Table.lookup Call.id world.calls id with _ | call
    · exact h
    · dsimp only
      split
      next hpending => exact h.goOn (Table.mem_of_lookup hfound) hpending
      next => exact h

theorem Inv.sound (h : Inv world) : Sound world := by
  have hempty : ∀ sessionID, (∀ call ∈ world.calls, call.sessionID ≠ sessionID) →
      Tidy (world.queue.HasSlot sessionID) ∅ := by
    intro sessionID hnone
    have hcalls : callsOf world.calls sessionID = ∅ :=
      Set.eq_empty_of_forall_notMem fun call hcall => hnone call hcall.1 hcall.2
    rw [← hcalls]
    exact h.tidy sessionID
  exact ⟨fun sessionID hnone => (tidy_empty.mp (hempty sessionID hnone)).1,
    fun sessionID hnone => (tidy_empty.mp (hempty sessionID hnone)).2⟩

theorem inv_init {queue : Queue} (h : Sound (World.init queue)) : Inv (World.init queue) := by
  have hnone : ∀ sessionID, ∀ call ∈ (World.init queue).calls, call.sessionID ≠ sessionID :=
    fun _ _ hcall => absurd hcall List.not_mem_nil
  refine ⟨List.nodup_nil, fun _ hcall => absurd hcall List.not_mem_nil,
    fun _ hcall => absurd hcall List.not_mem_nil, fun _ hcall => absurd hcall List.not_mem_nil,
    fun sessionID => ?_⟩
  have hcalls : callsOf (World.init queue).calls sessionID = ∅ :=
    Set.eq_empty_of_forall_notMem fun call hcall => List.not_mem_nil hcall.1
  rw [hcalls]
  exact tidy_empty.mpr ⟨h.once sessionID (hnone sessionID), h.legacy sessionID (hnone sessionID)⟩

end Step

/-- **When calls of a session do not undo half of what another one writes, a session without a call
in progress has one entry at most, and the legacy entry if and only if it has one**; and a drain is
right for every number that is asked for exactly if the session that is preferred is in one of the
lanes that have capacity at most. -/
theorem queue_sound (queue : Queue) (hqueue : Sound (World.init queue)) (events : List Event)
    (hapart : Meets World.step Apart (World.init queue) events) :
    (∀ past, past <+: events → Sound (run World.step (World.init queue) past)) ∧
      ∀ stored inFlightByLane preferredSessionID,
        (∀ maxCount, Fair stored ⟨maxCount, inFlightByLane, preferredSessionID⟩
            (stored.drain ⟨maxCount, inFlightByLane, preferredSessionID⟩)) ↔
          Single stored inFlightByLane preferredSessionID := by
  refine ⟨fun past hpast => ?_, drains_iff⟩
  have hinv := (hapart.initial hpast).invariant Inv (inv_init hqueue)
    fun _ _ hinv hok => hinv.step hok
  exact hinv.sound

theorem sound_empty : Sound (World.init .empty) :=
  ⟨fun _ _ _ _ h => absurd h List.not_mem_nil, fun _ _ =>
    iff_of_false List.not_mem_nil fun ⟨_, h⟩ => List.not_mem_nil h⟩

def going (priority : TriggerPriority) : Input :=
  ⟨⟨js "ses_1", js "msg_1", 0, 0, .todoPending, js "go on"⟩, js "continuation", priority⟩

def removals (id : ℕ) : List Event := slots.map (.removed id)

/-- A session is enqueued, and again when the first call is over. -/
def oneAfterTheOther : List Event :=
  .enqueue (going .background) 7 :: removals 0 ++ [.goesOn 0, .goesOn 0] ++
    .enqueue (going .critical) 9 :: removals 1 ++ [.goesOn 1, .goesOn 1]

theorem oneAfterTheOther_sound : Sound (run World.step (World.init .empty) oneAfterTheOther) :=
  (queue_sound .empty sound_empty oneAfterTheOther (by decide)).1 oneAfterTheOther
    (List.prefix_refl oneAfterTheOther)

/-- A session is enqueued in two lanes at a time. -/
def atOnce : List Event :=
  .enqueue (going .background) 7 :: .enqueue (going .critical) 7 :: removals 0 ++ removals 1 ++
    [.goesOn 0, .goesOn 0, .goesOn 1, .goesOn 1]

/-- **Calls that overlap leave a session in two lanes.** -/
theorem not_queue_sound :
    ¬((∀ events, Sound (run World.step (World.init .empty) events)) ∧
      ∀ (stored : Queue) request, Fair stored request (stored.drain request)) := by
  rintro ⟨h, -⟩
  have hcalls : (run World.step (World.init .empty) atOnce).calls = [] := by decide
  have honce := (h atOnce).once (js "ses_1") (fun call hcall => by
    exact absurd hcall List.not_mem_nil) .background .critical (by decide)
    (by decide)
  cases honce

end OpenCms.RunQueue
