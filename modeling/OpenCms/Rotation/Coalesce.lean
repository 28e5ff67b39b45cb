import OpenCms.Lib.Runs
import Mathlib.Data.Rat.Defs
import Mathlib.Algebra.Order.Ring.Rat
import Mathlib.Logic.Function.Basic

/-!
# Rotations that coalesce

When requests run into a rate limit the account is rotated, and `withRotationCoalesce` sees to it
that a burst of them makes one rotation: calls for one key share the promise in flight, or for
some time the result that it had, and the rotations of a provider are to be some time apart.

`OpenCms.Coalesce.step` is what happens between two points at which a call waits: for its timer,
for the work it was given, or for its turn in the chain of promises. Work begins inside of the
call and may make calls itself before it comes back with a promise; `OpenCms.Coalesce.State.stack`
has the calls whose work has not come back yet, and it is only then that the promise in flight is
known to others.
-/

namespace OpenCms.Coalesce

/-- `COALESCE_WINDOW_MS_INTERNAL` and `MIN_INTERVAL_MS_INTERNAL`. -/
structure Timing where
  coalesceWindow : ℚ
  minInterval : ℚ

/-- `CoalesceInput`. What the work comes to is an event. -/
structure CoalesceInput (K P R : Type) where
  coalesceKey : K
  providerId : P
  eligibleForCoalesce : Bool
  shouldCache : R → Bool

/-- Where a `runWithGuard` is, and the promises that follow it: at its timer, inside of `work`,
waiting for the work, before `then` with a result, before `finally` with a result or an error,
and settled. -/
inductive Phase (R : Type)
  | sleeping (wakeAt : ℚ)
  | starting
  | working
  | decided (result : R)
  | settled (outcome : Option R)
  | done (outcome : Option R)
  deriving DecidableEq

/-- A `runWithGuard`, with what it read. -/
structure Flight (K P R : Type) where
  input : CoalesceInput K P R
  lastAt : Option ℕ
  phase : Phase R

/-- What a call comes back with: a result from the cache, the promise of another call, or its
own. -/
inductive Call (K P R : Type)
  | cached (result : R)
  | joined (flight : ℕ)
  | flight (flight : Flight K P R)

/-- An entry of `recentDecisions`, under its key. -/
structure Decision (K R : Type) where
  coalesceKey : K
  result : R
  decidedAt : ℕ

/-- The state, with the time, the calls by their number, and what was decided so far: the
results that were accepted, by provider and time, and those that came into the cache. -/
structure State (K P R : Type) where
  now : ℕ
  inflight : K → Option ℕ
  recentDecisions : K → Option (R × ℕ)
  lastRotationByProvider : P → Option ℕ
  calls : ℕ → Option (Call K P R)
  next : ℕ
  stack : List ℕ
  rotations : List (P × ℕ)
  decisions : List (Decision K R)

def State.start {K P R : Type} (now : ℕ) : State K P R where
  now
  inflight _ := none
  recentDecisions _ := none
  lastRotationByProvider _ := none
  calls _ := none
  next := 0
  stack := []
  rotations := []
  decisions := []

variable {K P R : Type}

def State.add (s : State K P R) (call : Call K P R) : State K P R :=
  { s with
    calls := Function.update s.calls s.next (some call)
    next := s.next + 1 }

def State.setFlight (s : State K P R) (c : ℕ) (flight : Flight K P R) : State K P R :=
  { s with calls := Function.update s.calls c (some (.flight flight)) }

theorem State.add_calls {s : State K P R} {call call' : Call K P R} {c : ℕ}
    (h : (s.add call).calls c = some call') :
    c = s.next ∧ call' = call ∨ c ≠ s.next ∧ s.calls c = some call' := by
  unfold State.add at h
  dsimp only at h
  rcases eq_or_ne c s.next with rfl | hne
  · rw [Function.update_self] at h
    exact Or.inl ⟨rfl, (Option.some.inj h).symm⟩
  · rw [Function.update_of_ne hne] at h
    exact Or.inr ⟨hne, h⟩

theorem State.setFlight_calls {s : State K P R} {c c' : ℕ} {flight : Flight K P R}
    {call : Call K P R} (h : (s.setFlight c flight).calls c' = some call) :
    c' = c ∧ call = .flight flight ∨ c' ≠ c ∧ s.calls c' = some call := by
  unfold State.setFlight at h
  dsimp only at h
  rcases eq_or_ne c' c with rfl | hne
  · rw [Function.update_self] at h
    exact Or.inl ⟨rfl, (Option.some.inj h).symm⟩
  · rw [Function.update_of_ne hne] at h
    exact Or.inr ⟨hne, h⟩

def gcRecentDecisions (timing : Timing) (s : State K P R) : State K P R :=
  { s with
    recentDecisions := fun key =>
      (s.recentDecisions key).filter fun decision =>
        ¬timing.coalesceWindow < (s.now : ℚ) - decision.2 }

def State.waitMs (timing : Timing) (s : State K P R) (providerId : P) : ℚ :=
  ((s.lastRotationByProvider providerId).getD 0 : ℕ) + timing.minInterval - s.now

section Operations

variable [DecidableEq K] [DecidableEq P]

def runWithGuard (timing : Timing) (s : State K P R) (input : CoalesceInput K P R) :
    State K P R :=
  let lastAt := s.lastRotationByProvider input.providerId
  let waitMs := s.waitMs timing input.providerId
  if 0 < waitMs then
    let sleeping := s.add (.flight ⟨input, lastAt, .sleeping (s.now + waitMs)⟩)
    -- waiting for the timer, it has come back with its promise
    if input.eligibleForCoalesce then
      { sleeping with inflight := Function.update s.inflight input.coalesceKey (some s.next) }
    else sleeping
  else if input.eligibleForCoalesce then
    -- the work is called before anyone else can see the promise
    { s.add (.flight ⟨input, lastAt, .starting⟩) with stack := s.next :: s.stack }
  else s.add (.flight ⟨input, lastAt, .working⟩)

def withRotationCoalesce (timing : Timing) (s : State K P R) (input : CoalesceInput K P R) :
    State K P R :=
  if input.eligibleForCoalesce then
    let s := gcRecentDecisions timing s
    match s.recentDecisions input.coalesceKey with
    | some (result, _) => s.add (.cached result)
    | none =>
      match s.inflight input.coalesceKey with
      | some existing => s.add (.joined existing)
      | none => runWithGuard timing s input
  else runWithGuard timing s input

/-- The work that began last comes back with its promise, or throws instead, and the call puts
its own promise in flight. -/
def workReturned (s : State K P R) (threw : Bool) : State K P R :=
  match s.stack with
  | [] => s
  | c :: stack =>
    match s.calls c with
    | some (.flight ⟨input, lastAt, .starting⟩) =>
      State.setFlight
        { s with
          stack
          inflight := Function.update s.inflight input.coalesceKey (some c) }
        c ⟨input, lastAt, if threw then .settled none else .working⟩
    | _ => s

/-- The timer of a call fires, not before its time, and the work begins. A `setTimeout` keeps to this
for waits that fit into 31 bits, so `MIN_INTERVAL_MS` is at most `2 ^ 31 - 1`. -/
def wake (s : State K P R) (c : ℕ) : State K P R :=
  match s.calls c with
  | some (.flight ⟨input, lastAt, .sleeping wakeAt⟩) =>
    if wakeAt ≤ s.now then s.setFlight c ⟨input, lastAt, .working⟩ else s
  | _ => s

/-- The work of a call comes to a result or throws, and `runWithGuard` comes to its end. -/
def worked (s : State K P R) (c : ℕ) (outcome : Option R) : State K P R :=
  match s.calls c with
  | some (.flight ⟨input, lastAt, .working⟩) =>
    match outcome with
    -- a call that does not coalesce has no `then` and no `finally`
    | none =>
      s.setFlight c ⟨input, lastAt, if input.eligibleForCoalesce then .settled none else .done none⟩
    | some result =>
      let decided : State K P R :=
        if input.shouldCache result then
          { s with
            lastRotationByProvider :=
              Function.update s.lastRotationByProvider input.providerId (some s.now)
            rotations := s.rotations ++ [(input.providerId, s.now)] }
        else s
      decided.setFlight c
        ⟨input, lastAt,
          if input.eligibleForCoalesce then .decided result else .done (some result)⟩
  | _ => s

/-- What `then` does. -/
def cache (s : State K P R) (c : ℕ) : State K P R :=
  match s.calls c with
  | some (.flight ⟨input, lastAt, .decided result⟩) =>
    let cached : State K P R :=
      if input.shouldCache result then
        { s with
          recentDecisions :=
            Function.update s.recentDecisions input.coalesceKey (some (result, s.now))
          decisions := s.decisions ++ [⟨input.coalesceKey, result, s.now⟩] }
      else s
    cached.setFlight c ⟨input, lastAt, .settled (some result)⟩
  | _ => s

/-- What `finally` does. -/
def finish (s : State K P R) (c : ℕ) : State K P R :=
  match s.calls c with
  | some (.flight ⟨input, lastAt, .settled outcome⟩) =>
    State.setFlight { s with inflight := Function.update s.inflight input.coalesceKey none }
      c ⟨input, lastAt, .done outcome⟩
  | _ => s

/-- What may happen: time goes by, a call is made, by the program or by work that has not come
back, work comes back, or one of the things that a call waits for. -/
inductive Event (K P R : Type)
  | tick (ms : ℕ)
  | call (input : CoalesceInput K P R)
  | workReturned (threw : Bool)
  | wake (c : ℕ)
  | worked (c : ℕ) (outcome : Option R)
  | cache (c : ℕ)
  | finish (c : ℕ)

/-- One step. Nothing that a call waits for happens inside of work. -/
def step (timing : Timing) (s : State K P R) : Event K P R → State K P R
  | .tick ms => { s with now := s.now + ms }
  | .call input => withRotationCoalesce timing s input
  | .workReturned threw => workReturned s threw
  | .wake c => if s.stack = [] then wake s c else s
  | .worked c outcome => if s.stack = [] then worked s c outcome else s
  | .cache c => if s.stack = [] then cache s c else s
  | .finish c => if s.stack = [] then finish s c else s

/-! ### What a step does -/

/-- A call does not find a result in the cache. -/
def State.Missed (timing : Timing) (s : State K P R) (key : K) : Prop :=
  (gcRecentDecisions timing s).recentDecisions key = none

inductive Transition (timing : Timing) (s : State K P R) :
    Event K P R → State K P R → Prop
  | stays {event} (hcall : ∀ input, event ≠ .call input)
      (hidle : ∀ c outcome input lastAt, event = .worked c outcome → s.stack = [] →
        s.calls c ≠ some (.flight ⟨input, lastAt, .working⟩)) :
      Transition timing s event s
  | tick (ms : ℕ) : Transition timing s (.tick ms) { s with now := s.now + ms }
  | cached {input result decidedAt} (heligible : input.eligibleForCoalesce = true)
      (hcached : (gcRecentDecisions timing s).recentDecisions input.coalesceKey =
        some (result, decidedAt)) :
      Transition timing s (.call input) ((gcRecentDecisions timing s).add (.cached result))
  | joined {input existing} (heligible : input.eligibleForCoalesce = true)
      (hmissed : s.Missed timing input.coalesceKey)
      (hexisting : s.inflight input.coalesceKey = some existing) :
      Transition timing s (.call input) ((gcRecentDecisions timing s).add (.joined existing))
  | sleeps {input} (heligible : input.eligibleForCoalesce = true)
      (hmissed : s.Missed timing input.coalesceKey)
      (hfree : s.inflight input.coalesceKey = none) :
      Transition timing s (.call input)
        { (gcRecentDecisions timing s).add (.flight ⟨input,
            s.lastRotationByProvider input.providerId,
            .sleeping (s.now + s.waitMs timing input.providerId)⟩) with
          inflight := Function.update s.inflight input.coalesceKey (some s.next) }
  | starts {input} (heligible : input.eligibleForCoalesce = true)
      (hmissed : s.Missed timing input.coalesceKey)
      (hfree : s.inflight input.coalesceKey = none)
      (hwait : ¬0 < s.waitMs timing input.providerId) :
      Transition timing s (.call input)
        { (gcRecentDecisions timing s).add (.flight ⟨input,
            s.lastRotationByProvider input.providerId, .starting⟩) with
          stack := s.next :: s.stack }
  | sleepsAlone {input} (heligible : input.eligibleForCoalesce = false) :
      Transition timing s (.call input)
        (s.add (.flight ⟨input, s.lastRotationByProvider input.providerId,
          .sleeping (s.now + s.waitMs timing input.providerId)⟩))
  | worksAlone {input} (heligible : input.eligibleForCoalesce = false)
      (hwait : ¬0 < s.waitMs timing input.providerId) :
      Transition timing s (.call input)
        (s.add (.flight ⟨input, s.lastRotationByProvider input.providerId, .working⟩))
  | returned {c stack input lastAt threw} (hstack : s.stack = c :: stack)
      (hcall : s.calls c = some (.flight ⟨input, lastAt, .starting⟩)) :
      Transition timing s (.workReturned threw)
        (State.setFlight
          { s with
            stack
            inflight := Function.update s.inflight input.coalesceKey (some c) }
          c ⟨input, lastAt, if threw then .settled none else .working⟩)
  | wakes {c input lastAt wakeAt} (hstack : s.stack = [])
      (hcall : s.calls c = some (.flight ⟨input, lastAt, .sleeping wakeAt⟩))
      (hwake : wakeAt ≤ s.now) :
      Transition timing s (.wake c) (s.setFlight c ⟨input, lastAt, .working⟩)
  | fails {c input lastAt} (hstack : s.stack = [])
      (hcall : s.calls c = some (.flight ⟨input, lastAt, .working⟩)) :
      Transition timing s (.worked c none) (s.setFlight c
        ⟨input, lastAt, if input.eligibleForCoalesce then .settled none else .done none⟩)
  | declines {c input lastAt result} (hstack : s.stack = [])
      (hcall : s.calls c = some (.flight ⟨input, lastAt, .working⟩))
      (haccept : input.shouldCache result = false) :
      Transition timing s (.worked c (some result)) (s.setFlight c ⟨input, lastAt,
        if input.eligibleForCoalesce then .decided result else .done (some result)⟩)
  | accepts {c input lastAt result} (hstack : s.stack = [])
      (hcall : s.calls c = some (.flight ⟨input, lastAt, .working⟩))
      (haccept : input.shouldCache result = true) :
      Transition timing s (.worked c (some result))
        (State.setFlight
          { s with
            lastRotationByProvider :=
              Function.update s.lastRotationByProvider input.providerId (some s.now)
            rotations := s.rotations ++ [(input.providerId, s.now)] }
          c ⟨input, lastAt,
            if input.eligibleForCoalesce then .decided result else .done (some result)⟩)
  | passes {c input lastAt result} (hstack : s.stack = [])
      (hcall : s.calls c = some (.flight ⟨input, lastAt, .decided result⟩))
      (haccept : input.shouldCache result = false) :
      Transition timing s (.cache c) (s.setFlight c ⟨input, lastAt, .settled (some result)⟩)
  | caches {c input lastAt result} (hstack : s.stack = [])
      (hcall : s.calls c = some (.flight ⟨input, lastAt, .decided result⟩))
      (haccept : input.shouldCache result = true) :
      Transition timing s (.cache c)
        (State.setFlight
          { s with
            recentDecisions :=
              Function.update s.recentDecisions input.coalesceKey (some (result, s.now))
            decisions := s.decisions ++ [⟨input.coalesceKey, result, s.now⟩] }
          c ⟨input, lastAt, .settled (some result)⟩)
  | finishes {c input lastAt outcome} (hstack : s.stack = [])
      (hcall : s.calls c = some (.flight ⟨input, lastAt, .settled outcome⟩)) :
      Transition timing s (.finish c)
        (State.setFlight
          { s with inflight := Function.update s.inflight input.coalesceKey none }
          c ⟨input, lastAt, .done outcome⟩)

theorem Transition.call (timing : Timing) (s : State K P R) (input : CoalesceInput K P R) :
    Transition timing s (.call input) (withRotationCoalesce timing s input) := by
  unfold withRotationCoalesce
  cases heligible : input.eligibleForCoalesce with
  | true =>
    simp only [if_true]
    cases hcached : (gcRecentDecisions timing s).recentDecisions input.coalesceKey with
    | some decision => exact .cached heligible hcached
    | none =>
      cases hexisting : s.inflight input.coalesceKey with
      | some existing =>
        have hsame : (gcRecentDecisions timing s).inflight input.coalesceKey = some existing :=
          hexisting
        rw [hsame]
        exact .joined heligible hcached hexisting
      | none =>
        have hsame : (gcRecentDecisions timing s).inflight input.coalesceKey = none := hexisting
        rw [hsame]
        unfold runWithGuard
        dsimp only
        split
        · exact .sleeps heligible hcached hexisting
        next hwait => exact .starts heligible hcached hexisting hwait
  | false =>
    unfold runWithGuard
    rw [heligible]
    simp only [Bool.false_eq_true, if_false]
    split
    · exact .sleepsAlone heligible
    next hwait => exact .worksAlone heligible hwait

theorem transition (timing : Timing) (s : State K P R) (event : Event K P R) :
    Transition timing s event (step timing s event) := by
  cases event with
  | tick ms => exact .tick ms
  | call input => exact .call timing s input
  | workReturned threw =>
    simp only [step, workReturned]
    split
    · exact .stays nofun nofun
    next c stack hstack =>
      split
      next input lastAt hcall => exact .returned hstack hcall
      · exact .stays nofun nofun
  | wake c =>
    simp only [step, wake]
    split
    next hstack =>
      split
      next input lastAt wakeAt hcall =>
        split
        next hwake => exact .wakes hstack hcall hwake
        · exact .stays nofun nofun
      · exact .stays nofun nofun
    · exact .stays nofun nofun
  | worked c outcome =>
    simp only [step, worked]
    split
    next hstack =>
      split
      next input lastAt hcall =>
        cases outcome with
        | none => exact .fails hstack hcall
        | some result =>
          dsimp only
          cases haccept : input.shouldCache result with
          | true => exact .accepts hstack hcall haccept
          | false => exact .declines hstack hcall haccept
      next hother =>
        refine .stays nofun fun c' outcome' input lastAt heq _ hcall => ?_
        obtain ⟨rfl, -⟩ := Event.worked.inj heq
        exact hother input lastAt hcall
    next hstack => exact .stays nofun fun _ _ _ _ _ hnil => absurd hnil hstack
  | cache c =>
    simp only [step, cache]
    split
    next hstack =>
      split
      next input lastAt result hcall =>
        cases haccept : input.shouldCache result with
        | true => exact .caches hstack hcall haccept
        | false => exact .passes hstack hcall haccept
      · exact .stays nofun nofun
    · exact .stays nofun nofun
  | finish c =>
    simp only [step, finish]
    split
    next hstack =>
      split
      next input lastAt outcome hcall => exact .finishes hstack hcall
      · exact .stays nofun nofun
    · exact .stays nofun nofun

end Operations

end OpenCms.Coalesce
