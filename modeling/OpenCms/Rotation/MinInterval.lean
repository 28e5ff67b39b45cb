import OpenCms.Rotation.Coalesce
import Mathlib.Algebra.Order.Ring.Rat
import Mathlib.Tactic.Linarith

/-!
# The interval between two rotations

A call reads when its provider was rotated last and waits until the interval is over; then it
runs its work, and if the result is accepted this is the last rotation. What another call did in
the meantime it does not see. `OpenCms.Coalesce.spaced_iff` says that this is the only thing that
can bring two rotations of a provider too close to each other, and
`OpenCms.Coalesce.rotations_too_close` is a run in which it does.
-/

namespace OpenCms.Coalesce

variable {K P R : Type} {timing : Timing} {s : State K P R}

def Spaced (timing : Timing) (s : State K P R) : Prop :=
  s.rotations.Pairwise fun rotation rotation' =>
    rotation.1 = rotation'.1 → (rotation.2 : ℚ) + timing.minInterval ≤ rotation'.2

/-- When the result of a call is accepted, no other was accepted for the provider since the call
read the time of the last one, or that is long enough ago. -/
def Undisturbed (timing : Timing) (s : State K P R) : Event K P R → Prop
  | .worked c (some result) =>
    ∀ input lastAt, s.stack = [] → s.calls c = some (.flight ⟨input, lastAt, .working⟩) →
      input.shouldCache result = true →
      ∀ last, s.lastRotationByProvider input.providerId = some last →
        lastAt = some last ∨ (last : ℚ) + timing.minInterval ≤ s.now
  | _ => True

/-- A call is past its guard when the interval was over after the rotation it knows. -/
def Flight.Guarded (timing : Timing) (now : ℕ) (flight : Flight K P R) : Prop :=
  match flight.phase with
  | .sleeping wakeAt => ((flight.lastAt.getD 0 : ℕ) : ℚ) + timing.minInterval ≤ wakeAt
  | .starting | .working => ((flight.lastAt.getD 0 : ℕ) : ℚ) + timing.minInterval ≤ now
  | _ => True

structure Guarded (timing : Timing) (s : State K P R) : Prop where
  last_mem : ∀ {providerId last}, s.lastRotationByProvider providerId = some last →
    (providerId, last) ∈ s.rotations
  le_last : ∀ {providerId decidedAt}, (providerId, decidedAt) ∈ s.rotations →
    ∃ last, s.lastRotationByProvider providerId = some last ∧ decidedAt ≤ last
  last_le : ∀ {providerId last}, s.lastRotationByProvider providerId = some last → last ≤ s.now
  flight : ∀ {c flight}, s.calls c = some (.flight flight) → flight.Guarded timing s.now

theorem Guarded.start (now : ℕ) : Guarded timing (.start now : State K P R) where
  last_mem h := by simp [State.start] at h
  le_last h := absurd h List.not_mem_nil
  last_le h := by simp [State.start] at h
  flight h := by simp [State.start] at h

theorem Flight.Guarded.mono {flight : Flight K P R} {now now' : ℕ}
    (h : flight.Guarded timing now) (hle : now ≤ now') : flight.Guarded timing now' := by
  have hcast : (now : ℚ) ≤ now' := Nat.cast_le.mpr hle
  unfold Flight.Guarded at *
  split <;> simp_all only
  all_goals exact h.trans hcast

theorem Guarded.setFlight {c : ℕ} {flight : Flight K P R} (h : Guarded timing s)
    (hflight : flight.Guarded timing s.now) : Guarded timing (s.setFlight c flight) := by
  refine ⟨h.last_mem, h.le_last, h.last_le, fun {c' flight'} hcall => ?_⟩
  rcases State.setFlight_calls hcall with ⟨-, heq⟩ | ⟨-, hold⟩
  · cases heq
    exact hflight
  · exact h.flight hold

theorem Guarded.add {call : Call K P R} (h : Guarded timing s)
    (hcall : ∀ flight, call = .flight flight → flight.Guarded timing s.now) :
    Guarded timing (s.add call) := by
  refine ⟨h.last_mem, h.le_last, h.last_le, fun {c' flight'} hcall' => ?_⟩
  rcases State.add_calls hcall' with ⟨-, heq⟩ | ⟨-, hold⟩
  · exact hcall flight' heq.symm
  · exact h.flight hold

theorem Guarded.gc (h : Guarded timing s) : Guarded timing (gcRecentDecisions timing s) :=
  ⟨h.last_mem, h.le_last, h.last_le, h.flight⟩

theorem guarded_sleeping (s : State K P R) (input : CoalesceInput K P R) :
    Flight.Guarded timing s.now ⟨input, s.lastRotationByProvider input.providerId,
      .sleeping (s.now + s.waitMs timing input.providerId)⟩ := by
  show _ ≤ (s.now : ℚ) + s.waitMs timing input.providerId
  unfold State.waitMs
  linarith

theorem le_now_of_waitMs {providerId : P} (hwait : ¬0 < s.waitMs timing providerId) :
    (((s.lastRotationByProvider providerId).getD 0 : ℕ) : ℚ) + timing.minInterval ≤ s.now := by
  unfold State.waitMs at hwait
  linarith

theorem Guarded.addFlight {flight : Flight K P R} (h : Guarded timing s)
    (hflight : flight.Guarded timing s.now) : Guarded timing (s.add (.flight flight)) := by
  refine h.add fun flight' heq => ?_
  cases heq
  exact hflight

theorem Guarded.congr {inflight : K → Option ℕ} {recentDecisions : K → Option (R × ℕ)}
    {stack : List ℕ} {decisions : List (Decision K R)} (h : Guarded timing s) :
    Guarded timing { s with inflight, recentDecisions, stack, decisions } :=
  ⟨h.last_mem, h.le_last, h.last_le, h.flight⟩

variable [DecidableEq K] [DecidableEq P]

omit [DecidableEq K] in
theorem Guarded.rotate (h : Guarded timing s) (providerId : P) :
    Guarded timing
      { s with
        lastRotationByProvider :=
          Function.update s.lastRotationByProvider providerId (some s.now)
        rotations := s.rotations ++ [(providerId, s.now)] } := by
  refine ⟨fun {providerId' last} hlast => ?_, fun {providerId' decidedAt} hmem => ?_,
    fun {providerId' last} hlast => ?_, h.flight⟩
  · dsimp only at hlast ⊢
    rcases eq_or_ne providerId' providerId with rfl | hne
    · rw [Function.update_self] at hlast
      obtain rfl := Option.some.inj hlast
      exact List.mem_append_right _ List.mem_cons_self
    · rw [Function.update_of_ne hne] at hlast
      exact List.mem_append_left _ (h.last_mem hlast)
  · rcases List.mem_append.mp hmem with hold | hnew
    · obtain ⟨last, hlast, hle⟩ := h.le_last hold
      rcases eq_or_ne providerId' providerId with rfl | hne
      · exact ⟨s.now, Function.update_self .., hle.trans (h.last_le hlast)⟩
      · exact ⟨last, (Function.update_of_ne hne ..).trans hlast, hle⟩
    · obtain ⟨rfl, rfl⟩ := Prod.mk.inj (List.mem_singleton.mp hnew)
      exact ⟨s.now, Function.update_self .., le_refl _⟩
  · dsimp only at hlast ⊢
    rcases eq_or_ne providerId' providerId with rfl | hne
    · rw [Function.update_self] at hlast
      exact (Option.some.inj hlast).ge
    · rw [Function.update_of_ne hne] at hlast
      exact h.last_le hlast

theorem Guarded.step {event : Event K P R} (h : Guarded timing s) :
    Guarded timing (step timing s event) := by
  have htransition := transition timing s event
  generalize Coalesce.step timing s event = s' at htransition ⊢
  cases htransition with
  | stays => exact h
  | tick ms =>
    exact ⟨h.last_mem, h.le_last, fun hlast => (h.last_le hlast).trans (Nat.le_add_right _ _),
      fun hcall => (h.flight hcall).mono (Nat.le_add_right _ _)⟩
  | cached => exact h.gc.add nofun
  | joined => exact h.gc.add nofun
  | @sleeps input => exact (h.gc.addFlight (guarded_sleeping s input)).congr
  | @starts input _ _ _ hwait =>
    have hflight : Flight.Guarded timing s.now
        ⟨input, s.lastRotationByProvider input.providerId, .starting⟩ := le_now_of_waitMs hwait
    exact (h.gc.addFlight hflight).congr
  | @sleepsAlone input => exact h.addFlight (guarded_sleeping s input)
  | worksAlone _ hwait => exact h.addFlight (le_now_of_waitMs hwait)
  | @returned c stack input lastAt threw hstack hcall =>
    refine h.congr.setFlight ?_
    have hguard : Flight.Guarded timing s.now ⟨input, lastAt, .starting⟩ := h.flight hcall
    cases threw with
    | true => trivial
    | false => exact hguard
  | wakes hstack hcall hwake => exact h.setFlight (le_trans (h.flight hcall) hwake)
  | @fails c input lastAt hstack hcall | @declines c input lastAt result hstack hcall haccept =>
    refine h.setFlight ?_
    cases input.eligibleForCoalesce <;> trivial
  | @accepts c input lastAt result hstack hcall haccept =>
    refine Guarded.setFlight (h.rotate input.providerId) ?_
    cases input.eligibleForCoalesce <;> trivial
  | passes hstack hcall haccept => exact h.setFlight trivial
  | caches hstack hcall haccept => exact h.congr.setFlight trivial
  | finishes hstack hcall => exact h.congr.setFlight trivial

/-- **What one step adds.** The rotations stay the interval apart exactly when the step meets
the condition. -/
theorem Guarded.spaced_step {event : Event K P R} (h : Guarded timing s) :
    Spaced timing (Coalesce.step timing s event) ↔
      Spaced timing s ∧ Undisturbed timing s event := by
  have hsame {s' : State K P R} (hs' : s'.rotations = s.rotations)
      (hevent : Undisturbed timing s event) :
      Spaced timing s' ↔ Spaced timing s ∧ Undisturbed timing s event := by
    unfold Spaced
    rw [hs']
    exact (and_iff_left hevent).symm
  have htransition := transition timing s event
  generalize Coalesce.step timing s event = s' at htransition ⊢
  cases htransition with
  | stays hcall hidle =>
    refine hsame rfl ?_
    unfold Undisturbed
    split
    next c result =>
      exact fun input lastAt hstack hcall => absurd hcall (hidle c _ input lastAt rfl hstack)
    · trivial
  | tick ms | cached | joined | sleeps | starts | sleepsAlone | worksAlone | returned | wakes
  | fails => exact hsame rfl trivial
  | declines hstack hcall haccept =>
    refine hsame rfl fun input lastAt _ hcall' haccept' => ?_
    rw [hcall] at hcall'
    cases hcall'
    simp [haccept] at haccept'
  | @accepts c input lastAt result hstack hcall haccept =>
    have hguard : ((lastAt.getD 0 : ℕ) : ℚ) + timing.minInterval ≤ s.now := h.flight hcall
    show (s.rotations ++ [(input.providerId, s.now)]).Pairwise _ ↔ _
    rw [List.pairwise_append]
    constructor
    · rintro ⟨hspaced, -, hnew⟩
      refine ⟨hspaced, fun input' lastAt' _ hcall' _ last hlast => Or.inr ?_⟩
      rw [hcall] at hcall'
      cases hcall'
      exact hnew _ (h.last_mem hlast) _ List.mem_cons_self rfl
    -- the last rotation of the provider is the one that is nearest
    · rintro ⟨hspaced, hundisturbed⟩
      refine ⟨hspaced, List.pairwise_singleton _ _, fun rotation hold rotation' hnew hsame => ?_⟩
      obtain rfl := List.mem_singleton.mp hnew
      obtain ⟨last, hlast, hle⟩ := h.le_last hold
      rw [hsame] at hlast
      have hle' : (rotation.2 : ℚ) ≤ last := Nat.cast_le.mpr hle
      rcases hundisturbed input lastAt hstack hcall haccept last hlast with rfl | hlong
      · rw [Option.getD_some] at hguard
        linarith
      · linarith
  | passes | caches | finishes => exact hsame rfl trivial

/-- **The rotations of a provider are the interval apart** along a run exactly when no result is
accepted after another one of the provider that the call did not see, as long as the interval
since is not over. -/
theorem spaced_iff (timing : Timing) (now : ℕ) (events : List (Event K P R)) :
    Spaced timing (run (step timing) (.start now) events) ↔
      Meets (step timing) (Undisturbed timing) (.start now) events := by
  have hstart : Spaced timing (.start now : State K P R) := List.Pairwise.nil
  have hrun : Spaced timing (run (step timing) (.start now) events) ↔
      Spaced timing (.start now : State K P R) ∧
        Meets (step timing) (Undisturbed timing) (.start now) events :=
    run_iff_meets (Guarded timing) (Spaced timing) (.start now) (fun _ _ h => h.step)
      (fun _ _ h => h.spaced_step) events
  rw [hrun, and_iff_right hstart]

/-- **Two rotations of a provider may be too close to each other**: two calls with different
keys are past their guards when the first of them rotates. -/
theorem rotations_too_close :
    ¬∀ (timing : Timing) (now : ℕ) (events : List (Event ℕ ℕ Unit)),
      Spaced timing (run (step timing) (.start now) events) := by
  intro h
  let input (coalesceKey : ℕ) : CoalesceInput ℕ ℕ Unit := ⟨coalesceKey, 0, true, fun _ => true⟩
  have hspaced := h ⟨3000, 5000⟩ 10000 [.call (input 1), .workReturned false, .call (input 2),
    .workReturned false, .worked 0 (some ()), .worked 1 (some ())]
  revert hspaced
  unfold Spaced
  decide +kernel

end OpenCms.Coalesce
