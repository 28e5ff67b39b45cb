import OpenCms.Rotation.Coalesce
import Mathlib.Tactic.Linarith

/-!
# One rotation at a time

While a rotation for a key is under way others for it share its promise, and for some time after
its decision they share the result. What makes this work is the order in which the promises of a
call settle: the result is in the cache before the promise is taken out of those in flight, so
there is no moment between the two at which a call would find neither.

The promise comes into flight only when the work has come back with its own, so work that makes a
call for the same key before is not seen by it. Runs are considered here in which no work does
that (`OpenCms.Coalesce.NoReentry`).
-/

namespace OpenCms.Coalesce

variable {K P R : Type} {timing : Timing} {s : State K P R} {input : CoalesceInput K P R}
  {lastAt : Option ℕ} {c : ℕ} {flight : Flight K P R} {call : Call K P R} {phase : Phase R} {c' : ℕ}

/-- A rotation that may be shared is under way. -/
def Flight.InProgress (flight : Flight K P R) : Prop :=
  flight.input.eligibleForCoalesce = true ∧ ∀ outcome, flight.phase ≠ .done outcome

/-- Work that has not come back does not call for its own key. -/
def NoReentry (s : State K P R) : Event K P R → Prop
  | .call input =>
    input.eligibleForCoalesce = true → ∀ c ∈ s.stack, ∀ flight,
      s.calls c = some (.flight flight) → flight.input.coalesceKey ≠ input.coalesceKey
  | _ => True

def Phase.outcome : Phase R → Option (Option R)
  | .done outcome => some outcome
  | _ => none

def State.outcome (s : State K P R) (c : ℕ) : Option (Option R) :=
  match s.calls c with
  | some (.cached result) => some (some result)
  | some (.joined c') =>
    match s.calls c' with
    | some (.flight flight) => flight.phase.outcome
    | _ => none
  | some (.flight flight) => flight.phase.outcome
  | none => none

section Requirement

variable [DecidableEq K] [DecidableEq P]

def answer (timing : Timing) (s : State K P R) (input : CoalesceInput K P R) :
    Option (Call K P R) :=
  (withRotationCoalesce timing s input).calls s.next

/-- One rotation of a key is under way at a time, and a call makes another one only when there
is none and the last decision is over. -/
structure SingleFlight (timing : Timing) (s : State K P R) : Prop where
  single : ∀ {c c' flight flight'}, s.calls c = some (.flight flight) →
    s.calls c' = some (.flight flight') → flight.InProgress → flight'.InProgress →
      flight.input.coalesceKey = flight'.input.coalesceKey → c = c'
  shares : ∀ {input c flight}, input.eligibleForCoalesce = true → NoReentry s (.call input) →
    s.calls c = some (.flight flight) → flight.InProgress →
      flight.input.coalesceKey = input.coalesceKey →
        answer timing s input = some (.joined c) ∨
          ∃ result, flight.phase = .settled (some result) ∧
            answer timing s input = some (.cached result)
  reuses : ∀ {input}, input.eligibleForCoalesce = true → ∀ decision ∈ s.decisions,
    decision.coalesceKey = input.coalesceKey →
      (s.now : ℚ) - decision.decidedAt ≤ timing.coalesceWindow →
        answer timing s input = some (.cached decision.result)
  runs : ∀ {input}, input.eligibleForCoalesce = true →
    (∀ c flight, s.calls c = some (.flight flight) → flight.InProgress →
      flight.input.coalesceKey ≠ input.coalesceKey) →
    (∀ decision ∈ s.decisions, decision.coalesceKey = input.coalesceKey →
      timing.coalesceWindow < (s.now : ℚ) - decision.decidedAt) →
    ∃ flight, answer timing s input = some (.flight flight)
  frees : ∀ {c input lastAt outcome}, s.stack = [] →
    s.calls c = some (.flight ⟨input, lastAt, .settled outcome⟩) →
    (∀ result, outcome = some result → input.shouldCache result = false) →
    ∀ input', input'.eligibleForCoalesce = true → input'.coalesceKey = input.coalesceKey →
      ∃ flight, answer timing (step timing s (.finish c)) input' = some (.flight flight)

/-- A call that comes while a rotation of its key is under way does not run work and has the
outcome of that rotation. -/
def Received (timing : Timing) (now : ℕ) (events : List (Event K P R)) : Prop :=
  ∀ before input after, events = before ++ .call input :: after →
    input.eligibleForCoalesce = true →
    ∀ c flight, (run (step timing) (.start now) before).calls c = some (.flight flight) →
      flight.InProgress → flight.input.coalesceKey = input.coalesceKey →
        (∀ flight', (run (step timing) (.start now) events).calls
          (run (step timing) (.start now) before).next ≠ some (.flight flight')) ∧
        ∀ outcome, (run (step timing) (.start now) events).outcome c = some outcome →
          (run (step timing) (.start now) events).outcome
            (run (step timing) (.start now) before).next = some outcome

end Requirement

/-! ### The invariant -/

def Flight.Known (flight : Flight K P R) : Prop :=
  flight.InProgress ∧ flight.phase ≠ .starting

structure Sound (timing : Timing) (s : State K P R) : Prop where
  call_lt : ∀ {c call}, s.calls c = some call → c < s.next
  alone : ∀ {c flight}, s.calls c = some (.flight flight) →
    flight.input.eligibleForCoalesce = false →
      (∃ wakeAt, flight.phase = .sleeping wakeAt) ∨ flight.phase = .working ∨
        ∃ outcome, flight.phase = .done outcome
  known : ∀ {c flight}, s.calls c = some (.flight flight) → flight.Known →
    s.inflight flight.input.coalesceKey = some c
  inflight : ∀ {key c}, s.inflight key = some c →
    ∃ flight, s.calls c = some (.flight flight) ∧ flight.Known ∧ flight.input.coalesceKey = key
  stack_nodup : s.stack.Nodup
  mem_stack : ∀ {c}, c ∈ s.stack ↔
    ∃ flight, s.calls c = some (.flight flight) ∧ flight.phase = .starting
  /-- Work that has not come back is the only one for its key. -/
  starting : ∀ {c flight}, s.calls c = some (.flight flight) → flight.phase = .starting →
    s.inflight flight.input.coalesceKey = none
  starting_inj : ∀ {c c' flight flight'}, s.calls c = some (.flight flight) →
    s.calls c' = some (.flight flight') → flight.phase = .starting →
      flight'.phase = .starting →
        flight.input.coalesceKey = flight'.input.coalesceKey → c = c'
  recent : ∀ {key result decidedAt}, s.recentDecisions key = some (result, decidedAt) →
    ⟨key, result, decidedAt⟩ ∈ s.decisions
  decision : ∀ decision ∈ s.decisions,
    s.recentDecisions decision.coalesceKey = some (decision.result, decision.decidedAt) ∨
      timing.coalesceWindow < (s.now : ℚ) - decision.decidedAt
  /-- There is nothing in the cache for a key while a rotation is under way, up to its own
  result. -/
  cache : ∀ {c flight result decidedAt}, s.calls c = some (.flight flight) →
    flight.InProgress →
      s.recentDecisions flight.input.coalesceKey = some (result, decidedAt) →
        flight.phase = .settled (some result) ∧ flight.input.shouldCache result = true

theorem Sound.start (now : ℕ) : Sound timing (.start now : State K P R) where
  call_lt h := by simp [State.start] at h
  alone h := by simp [State.start] at h
  known h := by simp [State.start] at h
  inflight h := by simp [State.start] at h
  stack_nodup := List.nodup_nil
  mem_stack := by simp [State.start]
  starting h := by simp [State.start] at h
  starting_inj h := by simp [State.start] at h
  recent h := by simp [State.start] at h
  decision _ h := absurd h List.not_mem_nil
  cache h := by simp [State.start] at h

theorem Sound.single {flight' : Flight K P R} (h : Sound timing s)
    (hcall : s.calls c = some (.flight flight)) (hcall' : s.calls c' = some (.flight flight'))
    (hflight : flight.InProgress) (hflight' : flight'.InProgress)
    (hkey : flight.input.coalesceKey = flight'.input.coalesceKey) : c = c' := by
  -- a call is in flight under its key, but not before its work has come back
  by_cases hstarting : flight.phase = .starting
  · have hfree := h.starting hcall hstarting
    by_cases hstarting' : flight'.phase = .starting
    · exact h.starting_inj hcall hcall' hstarting hstarting' hkey
    · have hknown := h.known hcall' ⟨hflight', hstarting'⟩
      rw [hkey, hknown] at hfree
      exact absurd hfree (Option.some_ne_none _)
  · have hknown := h.known hcall ⟨hflight, hstarting⟩
    by_cases hstarting' : flight'.phase = .starting
    · have hfree := h.starting hcall' hstarting'
      rw [← hkey, hknown] at hfree
      exact absurd hfree (Option.some_ne_none _)
    · have hknown' := h.known hcall' ⟨hflight', hstarting'⟩
      rw [← hkey, hknown] at hknown'
      exact Option.some.inj hknown'

theorem Sound.congr {lastRotationByProvider : P → Option ℕ} {rotations : List (P × ℕ)}
    (h : Sound timing s) : Sound timing { s with lastRotationByProvider, rotations } :=
  ⟨h.call_lt, h.alone, h.known, h.inflight, h.stack_nodup, h.mem_stack, h.starting,
    h.starting_inj, h.recent, h.decision, h.cache⟩

theorem Sound.tick (h : Sound timing s) (ms : ℕ) :
    Sound timing { s with now := s.now + ms } := by
  refine { h with decision := fun d hd => (h.decision d hd).imp_right fun hlong => ?_ }
  show _ < ((s.now + ms : ℕ) : ℚ) - d.decidedAt
  rw [Nat.cast_add]
  linarith

theorem Sound.gc (h : Sound timing s) : Sound timing (gcRecentDecisions timing s) := by
  have hold {key : K} {result : R} {decidedAt : ℕ}
      (hrecent : (gcRecentDecisions timing s).recentDecisions key = some (result, decidedAt)) :
      s.recentDecisions key = some (result, decidedAt) :=
    (Option.filter_eq_some_iff.mp hrecent).1
  refine { h with
    recent := fun hrecent => h.recent (hold hrecent)
    decision := fun d hd => ?_
    cache := fun hcall hprogress hrecent => h.cache hcall hprogress (hold hrecent) }
  rcases h.decision d hd with hrecent | hlong
  · by_cases hlong : timing.coalesceWindow < (s.now : ℚ) - d.decidedAt
    · exact Or.inr hlong
    · exact Or.inl (Option.filter_eq_some_iff.mpr ⟨hrecent, by simpa using hlong⟩)
  · exact Or.inr hlong

theorem State.add_old {call' : Call K P R} (h : Sound timing s) (hcall : s.calls c = some call') :
    (s.add call).calls c = some call' :=
  (Function.update_of_ne (h.call_lt hcall).ne ..).trans hcall

theorem Sound.inProgress_of_starting (h : Sound timing s)
    (hcall : s.calls c = some (.flight flight)) (hphase : flight.phase = .starting) :
    flight.InProgress := by
  constructor
  · by_contra hnot
    rcases h.alone hcall (by simpa using hnot) with ⟨wakeAt, hother⟩ | hother | ⟨o, hother⟩
    all_goals
      rw [hphase] at hother
      cases hother
  · rw [hphase]
    nofun

/-- What has to hold of one call, given what the others have. -/
structure Flight.Fits (s : State K P R) (c : ℕ) (flight : Flight K P R) : Prop where
  alone : flight.input.eligibleForCoalesce = false →
    (∃ wakeAt, flight.phase = .sleeping wakeAt) ∨ flight.phase = .working ∨
      ∃ outcome, flight.phase = .done outcome
  known : flight.Known → s.inflight flight.input.coalesceKey = some c
  starting : flight.phase = .starting → s.inflight flight.input.coalesceKey = none
  starting_inj : flight.phase = .starting → ∀ {c' flight'}, c' ≠ c →
    s.calls c' = some (.flight flight') → flight'.phase = .starting →
      flight'.input.coalesceKey ≠ flight.input.coalesceKey
  cache : flight.InProgress → ∀ {result decidedAt},
    s.recentDecisions flight.input.coalesceKey = some (result, decidedAt) →
      flight.phase = .settled (some result) ∧ flight.input.shouldCache result = true

/-- **One call changes, or comes to the others.** What has to be seen is that it fits, and that
what the maps say of the others is what they said. -/
theorem Sound.put {s' : State K P R} (h : Sound timing s)
    (hcalls : s'.calls = Function.update s.calls c (some call)) (hlt : c < s'.next)
    (hnext : s.next ≤ s'.next)
    (hdecided : s'.now = s.now ∧ s'.recentDecisions = s.recentDecisions ∧ s'.decisions = s.decisions)
    (hfits : ∀ flight, call = .flight flight → flight.Fits s' c)
    (hothers : ∀ {c' flight}, c' ≠ c → s.calls c' = some (.flight flight) → flight.InProgress →
      s'.inflight flight.input.coalesceKey = s.inflight flight.input.coalesceKey)
    (hinflight : ∀ {key c'}, s'.inflight key = some c' →
      (c' = c ∧ ∃ flight, call = .flight flight ∧ flight.Known ∧ flight.input.coalesceKey = key) ∨
      (c' ≠ c ∧ s.inflight key = some c'))
    (hnodup : s'.stack.Nodup)
    (hstack : ∀ {c'}, c' ∈ s'.stack ↔
      (c' = c ∧ ∃ flight, call = .flight flight ∧ flight.phase = .starting) ∨
      (c' ≠ c ∧ c' ∈ s.stack)) : Sound timing s' := by
  obtain ⟨hnow, hrecent, hdecisions⟩ := hdecided
  have hcases {c' : ℕ} {call' : Call K P R} (hcall' : s'.calls c' = some call') :
      (c' = c ∧ call' = call) ∨ (c' ≠ c ∧ s.calls c' = some call') := by
    rw [hcalls] at hcall'
    rcases eq_or_ne c' c with rfl | hne
    · rw [Function.update_self] at hcall'
      exact Or.inl ⟨rfl, (Option.some.inj hcall').symm⟩
    · rw [Function.update_of_ne hne] at hcall'
      exact Or.inr ⟨hne, hcall'⟩
  have hself : s'.calls c = some call := by rw [hcalls, Function.update_self]
  have hold {c' : ℕ} {call' : Call K P R} (hne : c' ≠ c) (hcall' : s.calls c' = some call') :
      s'.calls c' = some call' := by rwa [hcalls, Function.update_of_ne hne]
  -- each part is about this call, which fits, or about another one, which is as it was
  refine ⟨fun hcall' => ?_, fun hcall' hnot => ?_, fun hcall' hknown => ?_, fun hflight => ?_,
    hnodup, fun {c'} => ?_, fun hcall' hphase => ?_,
    fun hcall' hcall'' hphase hphase' hkey => ?_, ?_, ?_,
    fun hcall' hprogress hcached => ?_⟩
  · rcases hcases hcall' with ⟨rfl, -⟩ | ⟨-, hcall'⟩
    · exact hlt
    · exact (h.call_lt hcall').trans_le hnext
  · rcases hcases hcall' with ⟨-, heq⟩ | ⟨-, hcall'⟩
    · exact (hfits _ heq.symm).alone hnot
    · exact h.alone hcall' hnot
  · rcases hcases hcall' with ⟨rfl, heq⟩ | ⟨hne, hcall'⟩
    · exact (hfits _ heq.symm).known hknown
    · exact (hothers hne hcall' hknown.1).trans (h.known hcall' hknown)
  · rcases hinflight hflight with ⟨rfl, flight, rfl, hrest⟩ | ⟨hne, hflight⟩
    · exact ⟨flight, hself, hrest⟩
    · obtain ⟨flight, hcall', hrest⟩ := h.inflight hflight
      exact ⟨flight, hold hne hcall', hrest⟩
  · rw [hstack, h.mem_stack]
    constructor
    · rintro (⟨rfl, flight, rfl, hphase⟩ | ⟨hne, flight, hcall', hphase⟩)
      · exact ⟨flight, hself, hphase⟩
      · exact ⟨flight, hold hne hcall', hphase⟩
    · rintro ⟨flight, hcall', hphase⟩
      rcases hcases hcall' with ⟨rfl, heq⟩ | ⟨hne, hcall'⟩
      · exact Or.inl ⟨rfl, flight, heq.symm, hphase⟩
      · exact Or.inr ⟨hne, flight, hcall', hphase⟩
  · rcases hcases hcall' with ⟨-, heq⟩ | ⟨hne, hcall'⟩
    · exact (hfits _ heq.symm).starting hphase
    · exact (hothers hne hcall' (h.inProgress_of_starting hcall' hphase)).trans
        (h.starting hcall' hphase)
  · rcases hcases hcall' with ⟨rfl, heq⟩ | ⟨hne, hold'⟩
    · rcases hcases hcall'' with ⟨rfl, -⟩ | ⟨hne, -⟩
      · rfl
      · exact absurd hkey.symm ((hfits _ heq.symm).starting_inj hphase hne hcall'' hphase')
    · rcases hcases hcall'' with ⟨rfl, heq⟩ | ⟨-, hold''⟩
      · exact absurd hkey ((hfits _ heq.symm).starting_inj hphase' hne hcall' hphase)
      · exact h.starting_inj hold' hold'' hphase hphase' hkey
  · rw [hrecent, hdecisions]
    exact h.recent
  · rw [hnow, hrecent, hdecisions]
    exact h.decision
  · rcases hcases hcall' with ⟨-, heq⟩ | ⟨-, hcall'⟩
    · exact (hfits _ heq.symm).cache hprogress hcached
    · rw [hrecent] at hcached
      exact h.cache hcall' hprogress hcached

theorem Sound.stack_same (h : Sound timing s) (hcall : s.calls c = some (.flight flight))
    (hbefore : flight.phase ≠ .starting)
    (hafter : ∀ flight', call = .flight flight' → flight'.phase ≠ .starting) :
    c' ∈ s.stack ↔
      (c' = c ∧ ∃ flight', call = .flight flight' ∧ flight'.phase = .starting) ∨
        (c' ≠ c ∧ c' ∈ s.stack) := by
  constructor
  · intro hmem
    refine Or.inr ⟨?_, hmem⟩
    rintro rfl
    obtain ⟨flight', hcall', hphase⟩ := h.mem_stack.mp hmem
    rw [hcall] at hcall'
    cases hcall'
    exact hbefore hphase
  · rintro (⟨-, flight', heq, hphase⟩ | ⟨-, hmem⟩)
    · exact absurd hphase (hafter flight' heq)
    · exact hmem

theorem Sound.ne_next_of_mem (h : Sound timing s) (hmem : c ∈ s.stack) : c ≠ s.next := by
  obtain ⟨flight, hcall, -⟩ := h.mem_stack.mp hmem
  exact (h.call_lt hcall).ne

theorem Sound.stack_new (h : Sound timing s)
    (hafter : ∀ flight', call = .flight flight' → flight'.phase ≠ .starting) :
    c' ∈ s.stack ↔
      (c' = s.next ∧ ∃ flight', call = .flight flight' ∧ flight'.phase = .starting) ∨
        (c' ≠ s.next ∧ c' ∈ s.stack) := by
  constructor
  · exact fun hmem => Or.inr ⟨h.ne_next_of_mem hmem, hmem⟩
  · rintro (⟨-, flight', heq, hphase⟩ | ⟨-, hmem⟩)
    · exact absurd hphase (hafter flight' heq)
    · exact hmem

theorem Sound.ne_next_of_inflight {key : K} (h : Sound timing s) (hflight : s.inflight key = some c)
    : c ≠ s.next := by
  obtain ⟨flight, hcall, -⟩ := h.inflight hflight
  exact (h.call_lt hcall).ne

theorem Sound.add (h : Sound timing s)
    (hcall : ∀ flight, call = .flight flight → flight.input.eligibleForCoalesce = false ∧
      ((∃ wakeAt, flight.phase = .sleeping wakeAt) ∨ flight.phase = .working)) :
    Sound timing (s.add call) := by
  have halone {flight : Flight K P R} (heq : call = .flight flight) : ¬flight.InProgress :=
    fun hprogress => absurd (hprogress.1.symm.trans (hcall flight heq).1) nofun
  have hstarting (flight : Flight K P R) (heq : call = .flight flight) :
      flight.phase ≠ .starting := by
    rcases (hcall flight heq).2 with ⟨wakeAt, hphase⟩ | hphase
    · rw [hphase]
      nofun
    · rw [hphase]
      nofun
  refine h.put rfl (Nat.lt_succ_self _) (Nat.le_succ _) ⟨rfl, rfl, rfl⟩ (fun flight heq => ?_)
    (fun _ _ _ => rfl) (fun hflight => Or.inr ⟨h.ne_next_of_inflight hflight, hflight⟩)
    h.stack_nodup (h.stack_new hstarting)
  exact
    { alone := fun _ => (hcall flight heq).2.imp_right Or.inl
      known := fun hknown => absurd hknown.1 (halone heq)
      starting := fun hphase => absurd hphase (hstarting flight heq)
      starting_inj := fun hphase => absurd hphase (hstarting flight heq)
      cache := fun hprogress => absurd hprogress (halone heq) }

theorem Sound.noOther (h : Sound timing s) (heligible : input.eligibleForCoalesce = true)
    (hfree : s.inflight input.coalesceKey = none) (hreentry : NoReentry s (.call input))
    (hcall : s.calls c = some (.flight flight)) (hprogress : flight.InProgress) :
    flight.input.coalesceKey ≠ input.coalesceKey := by
  intro hkey
  -- its work has not come back, and the new call comes from there, or it is in flight
  by_cases hstarting : flight.phase = .starting
  · exact hreentry heligible c (h.mem_stack.mpr ⟨flight, hcall, hstarting⟩) flight hcall hkey
  · rw [← hkey, h.known hcall ⟨hprogress, hstarting⟩] at hfree
    exact Option.some_ne_none _ hfree

theorem Sound.ne_of_inflight {key : K} (h : Sound timing s)
    (hcall : s.calls c = some (.flight flight)) (hflight : s.inflight key = some c')
    (hne : key ≠ flight.input.coalesceKey) : c' ≠ c := by
  rintro rfl
  obtain ⟨flight', hcall', -, rfl⟩ := h.inflight hflight
  rw [hcall] at hcall'
  cases hcall'
  exact hne rfl

theorem Sound.move {phase' : Phase R} (h : Sound timing s)
    (hcall : s.calls c = some (.flight ⟨input, lastAt, phase⟩))
    (hbefore : phase ≠ .starting ∧ ∀ outcome, phase ≠ .settled outcome)
    (hafter : phase' ≠ .starting)
    (halone : input.eligibleForCoalesce = false → phase' = .working ∨ ∃ outcome, phase' = .done outcome)
    (hprogress : input.eligibleForCoalesce = true →
      ((∀ outcome, phase' ≠ .done outcome) ↔ ∀ outcome, phase ≠ .done outcome)) :
    Sound timing (s.setFlight c ⟨input, lastAt, phase'⟩) := by
  have hsame : Flight.InProgress ⟨input, lastAt, phase'⟩ ↔
      Flight.InProgress ⟨input, lastAt, phase⟩ := and_congr_right hprogress
  have hstarting (flight : Flight K P R)
      (heq : Call.flight ⟨input, lastAt, phase'⟩ = .flight flight) :
      flight.phase ≠ .starting := by
    cases heq
    exact hafter
  refine h.put rfl (h.call_lt hcall) le_rfl ⟨rfl, rfl, rfl⟩ (fun flight heq => ?_)
    (fun _ _ _ => rfl) (fun {key c'} hflight => ?_) h.stack_nodup
    (h.stack_same hcall hbefore.1 hstarting)
  · cases heq
    exact
      { alone := fun hnot => Or.inr (halone hnot)
        known := fun hknown => by
          have hold := h.known hcall ⟨hsame.mp hknown.1, hbefore.1⟩
          exact hold
        starting := fun hphase => absurd hphase hafter
        starting_inj := fun hphase => absurd hphase hafter
        cache := fun hrun _ _ hrecent =>
          absurd (h.cache hcall (hsame.mp hrun) hrecent).1 (hbefore.2 _) }
  · rcases eq_or_ne c' c with rfl | hne
    · obtain ⟨flight, hcall', hknown, hkey⟩ := h.inflight hflight
      rw [hcall] at hcall'
      cases hcall'
      exact Or.inl ⟨rfl, _, rfl, ⟨hsame.mpr hknown.1, hafter⟩, hkey⟩
    · exact Or.inr ⟨hne, hflight⟩

theorem Sound.remember [DecidableEq K] {result : R} (h : Sound timing s)
    (hcall : s.calls c = some (.flight ⟨input, lastAt, .settled (some result)⟩))
    (heligible : input.eligibleForCoalesce = true) (haccept : input.shouldCache result = true)
    (hnone : s.recentDecisions input.coalesceKey = none) :
    Sound timing
      { s with
        recentDecisions :=
          Function.update s.recentDecisions input.coalesceKey (some (result, s.now))
        decisions := s.decisions ++ [⟨input.coalesceKey, result, s.now⟩] } := by
  refine { h with
    recent := fun {key r decidedAt} hrecent => ?_
    decision := fun d hd => ?_
    cache := fun {c' flight r decidedAt} hcall' hprogress hrecent => ?_ }
  · dsimp only at hrecent
    rcases eq_or_ne key input.coalesceKey with rfl | hne
    · rw [Function.update_self] at hrecent
      cases hrecent
      exact List.mem_append_right _ List.mem_cons_self
    · rw [Function.update_of_ne hne] at hrecent
      exact List.mem_append_left _ (h.recent hrecent)
  · dsimp only
    rcases List.mem_append.mp hd with hold | hnew
    · refine (h.decision d hold).imp_left fun hrecent => ?_
      -- there is nothing for the key yet, so that no decision is overwritten
      have hne : d.coalesceKey ≠ input.coalesceKey := by
        intro heq
        rw [heq, hnone] at hrecent
        cases hrecent
      rwa [Function.update_of_ne hne]
    · obtain rfl := List.mem_singleton.mp hnew
      exact Or.inl (Function.update_self ..)
  · dsimp only at hrecent
    rcases eq_or_ne flight.input.coalesceKey input.coalesceKey with heq | hne
    · obtain rfl := h.single hcall' hcall hprogress ⟨heligible, nofun⟩ heq
      rw [hcall] at hcall'
      cases hcall'
      rw [Function.update_self] at hrecent
      cases hrecent
      exact ⟨rfl, haccept⟩
    · rw [Function.update_of_ne hne] at hrecent
      exact h.cache hcall' hprogress hrecent

theorem Sound.otherKey {flight' : Flight K P R} (h : Sound timing s)
    (hcall : s.calls c = some (.flight flight)) (hcall' : s.calls c' = some (.flight flight'))
    (hflight : flight.InProgress) (hflight' : flight'.InProgress) (hne : c' ≠ c) :
    flight'.input.coalesceKey ≠ flight.input.coalesceKey :=
  fun hkey => hne (h.single hcall' hcall hflight' hflight hkey)

theorem Sound.finishes [DecidableEq K] {outcome : Option R} (h : Sound timing s)
    (hcall : s.calls c = some (.flight ⟨input, lastAt, .settled outcome⟩))
    (heligible : input.eligibleForCoalesce = true) :
    Sound timing
      (State.setFlight
        { s with inflight := Function.update s.inflight input.coalesceKey none }
        c ⟨input, lastAt, .done outcome⟩) := by
  have hprogress : Flight.InProgress ⟨input, lastAt, .settled outcome⟩ := ⟨heligible, nofun⟩
  refine h.put rfl (h.call_lt hcall) le_rfl ⟨rfl, rfl, rfl⟩ (fun flight heq => ?_)
    (fun hne hcall' hrun => ?_) (fun {key c'} hflight => ?_) h.stack_nodup
    (h.stack_same hcall nofun ?_)
  · cases heq
    exact
      { alone := fun _ => Or.inr (Or.inr ⟨outcome, rfl⟩)
        known := fun hknown => absurd rfl (hknown.1.2 outcome)
        starting := nofun
        starting_inj := nofun
        cache := fun hrun => absurd rfl (hrun.2 outcome) }
  · exact Function.update_of_ne (h.otherKey hcall hcall' hprogress hrun hne) ..
  · have hne : key ≠ input.coalesceKey := by
      rintro rfl
      exact absurd ((Function.update_self ..).symm.trans hflight) nofun
    have hflight : s.inflight key = some c' := (Function.update_of_ne hne ..).symm.trans hflight
    exact Or.inr ⟨h.ne_of_inflight hcall hflight hne, hflight⟩
  · rintro flight' ⟨⟩
    nofun

theorem Sound.returned [DecidableEq K] {stack : List ℕ} (h : Sound timing s)
    (hstack : s.stack = c :: stack) (hcall : s.calls c = some (.flight ⟨input, lastAt, .starting⟩))
    (hphase : phase = .working ∨ phase = .settled none) :
    Sound timing
      (State.setFlight
        { s with
          stack
          inflight := Function.update s.inflight input.coalesceKey (some c) }
        c ⟨input, lastAt, phase⟩) := by
  have hprogress := h.inProgress_of_starting hcall rfl
  have hknown : Flight.Known ⟨input, lastAt, phase⟩ := by
    rcases hphase with rfl | rfl
    · exact ⟨⟨hprogress.1, nofun⟩, nofun⟩
    · exact ⟨⟨hprogress.1, nofun⟩, nofun⟩
  obtain ⟨hnotin, hnodup⟩ := List.nodup_cons.mp (hstack ▸ h.stack_nodup)
  refine h.put rfl (h.call_lt hcall) le_rfl ⟨rfl, rfl, rfl⟩ (fun flight heq => ?_)
    (fun hne hcall' hrun => ?_) (fun {key c'} hflight => ?_) hnodup (fun {c'} => ?_)
  · cases heq
    exact
      { alone := fun hnot => absurd (hprogress.1.symm.trans hnot) nofun
        known := fun _ => Function.update_self ..
        starting := fun hstarting => absurd hstarting hknown.2
        starting_inj := fun hstarting => absurd hstarting hknown.2
        cache := fun _ _ _ hrecent => absurd (h.cache hcall hprogress hrecent).1 nofun }
  · exact Function.update_of_ne (h.otherKey hcall hcall' hprogress hrun hne) ..
  · have hflight : Function.update s.inflight input.coalesceKey (some c) key = some c' := hflight
    rcases eq_or_ne key input.coalesceKey with rfl | hne
    · rw [Function.update_self] at hflight
      exact Or.inl ⟨(Option.some.inj hflight).symm, _, rfl, hknown, rfl⟩
    · rw [Function.update_of_ne hne] at hflight
      exact Or.inr ⟨h.ne_of_inflight hcall hflight hne, hflight⟩
  · show c' ∈ stack ↔ _
    rw [hstack, List.mem_cons]
    constructor
    · exact fun hmem => Or.inr ⟨fun heq => hnotin (heq ▸ hmem), Or.inr hmem⟩
    · rintro (⟨-, flight, ⟨⟩, hstarting⟩ | ⟨hne, hmem⟩)
      · exact absurd hstarting hknown.2
      · exact hmem.resolve_left hne

theorem Sound.sleeps [DecidableEq K] {wakeAt : ℚ} (h : Sound timing s)
    (heligible : input.eligibleForCoalesce = true)
    (hmissed : s.recentDecisions input.coalesceKey = none)
    (hfree : s.inflight input.coalesceKey = none) (hreentry : NoReentry s (.call input)) :
    Sound timing
      { s.add (.flight ⟨input, lastAt, .sleeping wakeAt⟩) with
        inflight := Function.update s.inflight input.coalesceKey (some s.next) } := by
  refine h.put rfl (Nat.lt_succ_self _) (Nat.le_succ _) ⟨rfl, rfl, rfl⟩ (fun flight heq => ?_)
    (fun _ hcall hprogress => ?_) (fun {key c} hflight => ?_) h.stack_nodup (h.stack_new ?_)
  · cases heq
    exact
      { alone := fun hnot => absurd (heligible.symm.trans hnot) nofun
        known := fun _ => Function.update_self ..
        starting := nofun
        starting_inj := nofun
        cache := fun _ _ _ hrecent => absurd (hrecent.symm.trans hmissed) nofun }
  · exact Function.update_of_ne (h.noOther heligible hfree hreentry hcall hprogress) ..
  · dsimp only at hflight
    rcases eq_or_ne key input.coalesceKey with rfl | hne
    · rw [Function.update_self] at hflight
      exact Or.inl
        ⟨(Option.some.inj hflight).symm, _, rfl, ⟨⟨heligible, nofun⟩, nofun⟩, rfl⟩
    · rw [Function.update_of_ne hne] at hflight
      exact Or.inr ⟨h.ne_next_of_inflight hflight, hflight⟩
  · rintro flight' ⟨⟩
    nofun

theorem Sound.starts (h : Sound timing s) (heligible : input.eligibleForCoalesce = true)
    (hmissed : s.recentDecisions input.coalesceKey = none)
    (hfree : s.inflight input.coalesceKey = none) (hreentry : NoReentry s (.call input)) :
    Sound timing
      { s.add (.flight ⟨input, lastAt, .starting⟩) with stack := s.next :: s.stack } := by
  refine h.put rfl (Nat.lt_succ_self _) (Nat.le_succ _) ⟨rfl, rfl, rfl⟩ (fun flight heq => ?_)
    (fun _ _ _ => rfl) (fun hflight => Or.inr ⟨h.ne_next_of_inflight hflight, hflight⟩)
    (List.nodup_cons.mpr ⟨fun hmem => h.ne_next_of_mem hmem rfl, h.stack_nodup⟩)
    (fun {c'} => ?_)
  · cases heq
    exact
      { alone := fun hnot => absurd (heligible.symm.trans hnot) nofun
        known := fun hknown => absurd rfl hknown.2
        starting := fun _ => hfree
        starting_inj := fun _ {c' flight'} hne hcall' hphase' => by
          have hcall' : s.calls c' = some (.flight flight') :=
            (Function.update_of_ne hne ..).symm.trans hcall'
          exact h.noOther heligible hfree hreentry hcall' (h.inProgress_of_starting hcall' hphase')
        cache := fun _ _ _ hrecent => absurd (hrecent.symm.trans hmissed) nofun }
  · show c' ∈ s.next :: s.stack ↔ _
    rw [List.mem_cons]
    constructor
    · rintro (rfl | hmem)
      · exact Or.inl ⟨rfl, _, rfl, rfl⟩
      · exact Or.inr ⟨h.ne_next_of_mem hmem, hmem⟩
    · exact fun hmem => hmem.imp And.left And.right

/-- A promise that is followed by others is one that may be shared. -/
theorem Sound.eligible (h : Sound timing s)
    (hcall : s.calls c = some (.flight ⟨input, lastAt, phase⟩))
    (hphase : (∃ result, phase = .decided result) ∨ ∃ outcome, phase = .settled outcome) :
    input.eligibleForCoalesce = true := by
  by_contra hnot
  rcases h.alone hcall (by simpa using hnot) with ⟨wakeAt, hother⟩ | hother | ⟨o, hother⟩
  all_goals
    obtain rfl : phase = _ := hother
    rcases hphase with ⟨_, heq⟩ | ⟨_, heq⟩ <;> cases heq

theorem Sound.worked {outcome : Option R} (h : Sound timing s)
    (hcall : s.calls c = some (.flight ⟨input, lastAt, .working⟩)) (hstarting : phase ≠ .starting)
    (hdone : ∀ outcome, phase ≠ .done outcome) :
    Sound timing (s.setFlight c
      ⟨input, lastAt, if input.eligibleForCoalesce then phase else .done outcome⟩) := by
  cases heligible : input.eligibleForCoalesce with
  | true =>
    exact h.move hcall ⟨nofun, nofun⟩ hstarting
      (fun hnot => absurd (heligible.symm.trans hnot) nofun) fun _ => iff_of_true hdone nofun
  | false =>
    exact h.move hcall ⟨nofun, nofun⟩ nofun (fun _ => Or.inr ⟨_, rfl⟩)
      fun hyes => absurd (heligible.symm.trans hyes) nofun

theorem Sound.step [DecidableEq K] [DecidableEq P] {event : Event K P R} (h : Sound timing s)
    (hreentry : NoReentry s event) : Sound timing (step timing s event) := by
  have htransition := transition timing s event
  generalize Coalesce.step timing s event = s' at htransition ⊢
  cases htransition with
  | stays => exact h
  | tick ms => exact h.tick ms
  | cached => exact h.gc.add nofun
  | joined => exact h.gc.add nofun
  | sleeps heligible hmissed hfree => exact h.gc.sleeps heligible hmissed hfree hreentry
  | starts heligible hmissed hfree => exact h.gc.starts heligible hmissed hfree hreentry
  | sleepsAlone heligible =>
    refine h.add fun flight heq => ?_
    cases heq
    exact ⟨heligible, Or.inl ⟨_, rfl⟩⟩
  | worksAlone heligible =>
    refine h.add fun flight heq => ?_
    cases heq
    exact ⟨heligible, Or.inr rfl⟩
  | @returned c stack input lastAt threw hstack hcall =>
    refine h.returned hstack hcall ?_
    cases threw with
    | true => exact Or.inr rfl
    | false => exact Or.inl rfl
  | wakes hstack hcall hwake =>
    exact h.move hcall ⟨nofun, nofun⟩ nofun (fun _ => Or.inl rfl) fun _ => iff_of_true nofun nofun
  | fails hstack hcall => exact h.worked hcall nofun nofun
  | declines hstack hcall haccept => exact h.worked hcall nofun nofun
  | accepts hstack hcall haccept => exact Sound.worked h.congr hcall nofun nofun
  | passes hstack hcall haccept =>
    exact h.move hcall ⟨nofun, nofun⟩ nofun
      (fun hnot => absurd ((h.eligible hcall (Or.inl ⟨_, rfl⟩)).symm.trans hnot) nofun)
      fun _ => iff_of_true nofun nofun
  | @caches c input lastAt result hstack hcall haccept =>
    have heligible := h.eligible hcall (Or.inl ⟨_, rfl⟩)
    have hnone : s.recentDecisions input.coalesceKey = none := by
      cases hrecent : s.recentDecisions input.coalesceKey with
      | none => rfl
      | some decision => exact absurd (h.cache hcall ⟨heligible, nofun⟩ hrecent).1 nofun
    have hmove : Sound timing (s.setFlight c ⟨input, lastAt, .settled (some result)⟩) :=
      h.move hcall ⟨nofun, nofun⟩ nofun
        (fun hnot => absurd (heligible.symm.trans hnot) nofun) fun _ => iff_of_true nofun nofun
    exact hmove.remember (Function.update_self ..) heligible haccept hnone
  | finishes hstack hcall =>
    exact h.finishes hcall (h.eligible hcall (Or.inr ⟨_, rfl⟩))

/-! ### What a call finds -/

theorem Sound.recent_of_le {decision : Decision K R} (h : Sound timing s)
    (hmem : decision ∈ s.decisions)
    (hle : (s.now : ℚ) - decision.decidedAt ≤ timing.coalesceWindow) :
    (gcRecentDecisions timing s).recentDecisions decision.coalesceKey =
      some (decision.result, decision.decidedAt) :=
  (h.gc.decision decision hmem).resolve_right (not_lt.mpr hle)

theorem Sound.decided_of_recent {key : K} {result : R} {decidedAt : ℕ} (h : Sound timing s)
    (hrecent : (gcRecentDecisions timing s).recentDecisions key = some (result, decidedAt)) :
    ⟨key, result, decidedAt⟩ ∈ s.decisions ∧
      (s.now : ℚ) - decidedAt ≤ timing.coalesceWindow := by
  obtain ⟨hold, hwindow⟩ := Option.filter_eq_some_iff.mp hrecent
  exact ⟨h.recent hold, by simpa using hwindow⟩

section Answer

variable [DecidableEq K] [DecidableEq P]

theorem answer_eq (timing : Timing) (s : State K P R)
    (heligible : input.eligibleForCoalesce = true) :
    (∃ result decidedAt, (gcRecentDecisions timing s).recentDecisions input.coalesceKey =
        some (result, decidedAt) ∧ answer timing s input = some (.cached result)) ∨
      s.Missed timing input.coalesceKey ∧
        ((∃ c, s.inflight input.coalesceKey = some c ∧
            answer timing s input = some (.joined c)) ∨
          s.inflight input.coalesceKey = none ∧
            ∃ flight, answer timing s input = some (.flight flight)) := by
  have htransition := Transition.call timing s input
  unfold answer
  generalize withRotationCoalesce timing s input = s' at htransition ⊢
  cases htransition with
  | stays hcall => exact absurd rfl (hcall input)
  | cached _ hcached => exact Or.inl ⟨_, _, hcached, Function.update_self ..⟩
  | joined _ hmissed hexisting =>
    exact Or.inr ⟨hmissed, Or.inl ⟨_, hexisting, Function.update_self ..⟩⟩
  | sleeps _ hmissed hfree | starts _ hmissed hfree =>
    exact Or.inr ⟨hmissed, Or.inr ⟨hfree, _, Function.update_self ..⟩⟩
  | sleepsAlone hnot => exact absurd (heligible.symm.trans hnot) nofun
  | worksAlone hnot => exact absurd (heligible.symm.trans hnot) nofun

theorem Sound.shares (h : Sound timing s) (heligible : input.eligibleForCoalesce = true)
    (hreentry : NoReentry s (.call input)) (hcall : s.calls c = some (.flight flight))
    (hprogress : flight.InProgress) (hkey : flight.input.coalesceKey = input.coalesceKey) :
    answer timing s input = some (.joined c) ∨
      ∃ result, flight.phase = .settled (some result) ∧
        answer timing s input = some (.cached result) := by
  have hstarting : flight.phase ≠ .starting := fun hstarting =>
    hreentry heligible c (h.mem_stack.mpr ⟨flight, hcall, hstarting⟩) flight hcall hkey
  have hknown := h.known hcall ⟨hprogress, hstarting⟩
  rcases answer_eq timing s heligible with
    ⟨result, decidedAt, hcached, hanswer⟩ | ⟨-, ⟨c', hexisting, hanswer⟩ | ⟨hfree, -⟩⟩
  · rw [← hkey] at hcached
    exact Or.inr ⟨result, (h.gc.cache hcall hprogress hcached).1, hanswer⟩
  · rw [← hkey, hknown] at hexisting
    exact Or.inl (Option.some.inj hexisting ▸ hanswer)
  · rw [← hkey, hknown] at hfree
    exact absurd hfree nofun

theorem Sound.runs (h : Sound timing s) (heligible : input.eligibleForCoalesce = true)
    (hnone : ∀ c flight, s.calls c = some (.flight flight) → flight.InProgress →
      flight.input.coalesceKey ≠ input.coalesceKey)
    (hold : ∀ decision ∈ s.decisions, decision.coalesceKey = input.coalesceKey →
      timing.coalesceWindow < (s.now : ℚ) - decision.decidedAt) :
    ∃ flight, answer timing s input = some (.flight flight) := by
  rcases answer_eq timing s heligible with
    ⟨result, decidedAt, hcached, -⟩ | ⟨-, ⟨c, hexisting, -⟩ | ⟨-, hflight⟩⟩
  · obtain ⟨hmem, hwindow⟩ := h.decided_of_recent hcached
    exact absurd (hold _ hmem rfl) (not_lt.mpr hwindow)
  · obtain ⟨flight, hcall, hknown, hkey⟩ := h.inflight hexisting
    exact absurd hkey (hnone c flight hcall hknown.1)
  · exact hflight

theorem Sound.singleFlight (h : Sound timing s) : SingleFlight timing s where
  single := h.single
  shares := h.shares
  reuses {input} heligible decision hmem hkey hwindow := by
    have hrecent := h.recent_of_le hmem hwindow
    rw [hkey] at hrecent
    rcases answer_eq timing s heligible with
      ⟨result, decidedAt, hcached, hanswer⟩ | ⟨hmissed, -⟩
    · rw [hrecent] at hcached
      cases hcached
      exact hanswer
    · rw [hmissed] at hrecent
      cases hrecent
  runs := h.runs
  frees {c input lastAt outcome} hstack hcall hdeclined input' heligible' hkey := by
    have heligible := h.eligible hcall (Or.inr ⟨_, rfl⟩)
    have hprogress' : Flight.InProgress ⟨input, lastAt, .settled outcome⟩ :=
      ⟨heligible, fun _ hdone => by cases hdone⟩
    have hstep : Coalesce.step timing s (.finish c) =
        State.setFlight { s with inflight := Function.update s.inflight input.coalesceKey none }
          c ⟨input, lastAt, .done outcome⟩ := by
      simp only [Coalesce.step, if_pos hstack, finish, hcall]
    have hfinished := h.finishes hcall heligible
    rw [← hstep] at hfinished
    refine hfinished.runs heligible' (fun c' flight hcall' hprogress hkey' => ?_)
      fun decision hmem hkey' => ?_
    · rw [hstep] at hcall'
      rcases State.setFlight_calls hcall' with ⟨-, heq⟩ | ⟨hne, hcall'⟩
      · cases heq
        exact hprogress.2 outcome rfl
      · exact h.otherKey hcall hcall' hprogress' hprogress hne (hkey'.trans hkey)
    · rw [hstep] at hmem ⊢
      refine (h.decision decision hmem).resolve_left fun hrecent => ?_
      rw [hkey'.trans hkey] at hrecent
      obtain ⟨hphase, haccept⟩ := h.cache hcall hprogress' hrecent
      cases hphase
      simp [hdeclined _ rfl] at haccept

/-! ### What a call comes to -/

/-- **What one step does to a call**: nothing, or it is the one that goes on. -/
theorem Sound.calls_step (h : Sound timing s) (event : Event K P R)
    (hcall : s.calls c = some call) :
    (Coalesce.step timing s event).calls c = some call ∨
      ∃ flight flight', call = .flight flight ∧
        (Coalesce.step timing s event).calls c = some (.flight flight') ∧
        (∀ outcome, flight.phase = .settled outcome → flight'.phase = .done outcome) ∧
        ∀ outcome, flight.phase ≠ .done outcome := by
  have hmove {s' : State K P R} {c' : ℕ} {old new : Flight K P R} (hcalls : s'.calls = s.calls)
      (hold : s.calls c' = some (.flight old))
      (hsettled : ∀ outcome, old.phase = .settled outcome → new.phase = .done outcome)
      (hdone : ∀ outcome, old.phase ≠ .done outcome) :
      (s'.setFlight c' new).calls c = some call ∨
        ∃ flight flight', call = .flight flight ∧
          (s'.setFlight c' new).calls c = some (.flight flight') ∧
          (∀ outcome, flight.phase = .settled outcome → flight'.phase = .done outcome) ∧
          ∀ outcome, flight.phase ≠ .done outcome := by
    rcases eq_or_ne c c' with rfl | hne
    · rw [hcall] at hold
      cases hold
      exact Or.inr ⟨old, new, rfl, Function.update_self .., hsettled, hdone⟩
    · exact Or.inl ((Function.update_of_ne hne ..).trans ((congrFun hcalls c).trans hcall))
  have htransition := transition timing s event
  generalize Coalesce.step timing s event = s' at htransition ⊢
  cases htransition with
  | stays => exact Or.inl hcall
  | tick ms => exact Or.inl hcall
  | cached | joined | sleeps | starts => exact Or.inl (State.add_old h.gc hcall)
  | sleepsAlone => exact Or.inl (State.add_old h hcall)
  | worksAlone => exact Or.inl (State.add_old h hcall)
  | returned _ hcall' | wakes _ hcall' | fails _ hcall' | declines _ hcall' | accepts _ hcall'
  | passes _ hcall' | caches _ hcall' => exact hmove rfl hcall' nofun nofun
  | finishes _ hcall' =>
    refine hmove rfl hcall' (fun outcome hphase => ?_) nofun
    cases hphase
    rfl

theorem Sound.calls_call (h : Sound timing s) (input : CoalesceInput K P R)
    (hcall : s.calls c = some call) :
    (withRotationCoalesce timing s input).calls c = some call := by
  have htransition := Transition.call timing s input
  generalize withRotationCoalesce timing s input = s' at htransition ⊢
  cases htransition with
  | stays => exact hcall
  | cached | joined | sleeps | starts => exact State.add_old h.gc hcall
  | sleepsAlone => exact State.add_old h hcall
  | worksAlone => exact State.add_old h hcall

def Shares (s : State K P R) (c c' : ℕ) : Prop :=
  ∃ flight, s.calls c = some (.flight flight) ∧
    (s.calls c' = some (.joined c) ∨
      ∃ result, s.calls c' = some (.cached result) ∧
        (flight.phase = .settled (some result) ∨ flight.phase = .done (some result)))

omit [DecidableEq K] [DecidableEq P] in
theorem Shares.outcome {outcome : Option R} (h : Shares s c c')
    (houtcome : s.outcome c = some outcome) : s.outcome c' = some outcome := by
  obtain ⟨flight, hcall, hcall' | ⟨result, hcall', hphase⟩⟩ := h
  · unfold State.outcome at houtcome ⊢
    rw [hcall] at houtcome
    rw [hcall']
    dsimp only at houtcome ⊢
    rw [hcall]
    exact houtcome
  · unfold State.outcome at houtcome ⊢
    rw [hcall] at houtcome
    rw [hcall']
    dsimp only at houtcome ⊢
    rcases hphase with hphase | hphase
    · rw [hphase] at houtcome
      cases houtcome
    · rw [hphase] at houtcome
      exact houtcome

theorem Shares.step {event : Event K P R} (h : Shares s c c') (hs : Sound timing s) :
    Shares (step timing s event) c c' := by
  obtain ⟨flight, hcall, hshare⟩ := h
  have hcall' {call : Call K P R} (hother : s.calls c' = some call)
      (hnot : ∀ flight, call ≠ .flight flight) :
      (Coalesce.step timing s event).calls c' = some call := by
    rcases hs.calls_step event hother with hsame | ⟨flight', -, heq, -⟩
    · exact hsame
    · exact absurd heq (hnot flight')
  rcases hs.calls_step event hcall with hsame | ⟨f, flight', heq, hnext, hsettled, hdone⟩
  · refine ⟨flight, hsame, hshare.imp (fun hj => hcall' hj nofun) ?_⟩
    rintro ⟨result, hcached, hphase⟩
    exact ⟨result, hcall' hcached nofun, hphase⟩
  · cases heq
    refine ⟨flight', hnext, hshare.imp (fun hj => hcall' hj nofun) ?_⟩
    rintro ⟨result, hcached, hphase | hphase⟩
    · exact ⟨result, hcall' hcached nofun, Or.inr (hsettled _ hphase)⟩
    · exact absurd hphase (hdone _)

end Answer

section Runs

variable [DecidableEq K] [DecidableEq P]

theorem sound_run {now : ℕ} {events : List (Event K P R)}
    (h : Meets (step timing) NoReentry (.start now) events) :
    Sound timing (run (step timing) (.start now) events) :=
  h.invariant (Sound timing) (.start now) fun _ _ hs hok => hs.step hok

/-- **A call shares the rotation that it finds**, whatever happens then. -/
theorem received {now : ℕ} {events : List (Event K P R)}
    (h : Meets (step timing) NoReentry (.start now) events) : Received timing now events := by
  rintro before input after rfl heligible c flight hcall hprogress hkey
  obtain ⟨hbefore, hreentry, hafter⟩ := Meets.append.mp h
  have hsound := sound_run hbefore
  have hend : run (step timing) (.start now) (before ++ .call input :: after) =
      run (step timing) (step timing (run (step timing) (.start now) before) (.call input))
        after := by
    rw [run_append, run_cons]
  rw [hend]
  generalize run (step timing) (.start now) before = s at *
  have hshares : Shares (step timing s (.call input)) c s.next := by
    have hkeep := hsound.calls_call input hcall
    rcases hsound.shares heligible hreentry hcall hprogress hkey with
      hjoined | ⟨result, hphase, hcached⟩
    · exact ⟨flight, hkeep, Or.inl hjoined⟩
    · exact ⟨flight, hkeep, Or.inr ⟨result, hcached, Or.inl hphase⟩⟩
  have hrun := hafter.invariant (fun t => Sound timing t ∧ Shares t c s.next)
    ⟨hsound.step hreentry, hshares⟩ fun t event ht hok => ⟨ht.1.step hok, ht.2.step ht.1⟩
  obtain ⟨flight', -, hshare⟩ := hrun.2
  refine ⟨fun flight'' hflight => ?_, fun outcome houtcome => hrun.2.outcome houtcome⟩
  rcases hshare with hjoined | ⟨result, hcached, -⟩
  · exact absurd (hjoined.symm.trans hflight) nofun
  · exact absurd (hcached.symm.trans hflight) nofun

end Runs

end OpenCms.Coalesce
