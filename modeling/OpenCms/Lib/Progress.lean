import OpenCms.Lib.Runs

/-!
# Runs that do not end

`OpenCms.trace` is a run through infinitely many events. What is to be shown of such a run is of
one of two kinds: that a property holds of all its states, by `OpenCms.trace_invariant`, or that
something happens in the end, by `OpenCms.eventually_of_decreasing`: while it has not happened, a
measure has to get smaller from time to time.
-/

namespace OpenCms

section Trace

variable {σ ε : Type*} (step : σ → ε → σ) (s : σ) (events : ℕ → ε)

/-- The states of a run through infinitely many events. -/
def trace : ℕ → σ
  | 0 => s
  | n + 1 => step (trace n) (events n)

@[simp] theorem trace_zero : trace step s events 0 = s := rfl

@[simp] theorem trace_succ (n : ℕ) :
    trace step s events (n + 1) = step (trace step s events n) (events n) := rfl

theorem trace_eq_run (n : ℕ) :
    trace step s events n = run step s ((List.range n).map events) := by
  induction n with
  | zero => rfl
  | succ n ih => rw [trace_succ, ih, List.range_succ, List.map_append, List.map_singleton, run_concat]

variable {step s events}

/-- **The induction along a run**: what holds at the start and is kept by every step that meets a
condition holds always. -/
theorem trace_invariant {ok : σ → ε → Prop} (Inv : σ → Prop)
    (hok : ∀ n, ok (trace step s events n) (events n)) (hs : Inv s)
    (hstep : ∀ s e, Inv s → ok s e → Inv (step s e)) (n : ℕ) : Inv (trace step s events n) := by
  induction n with
  | zero => exact hs
  | succ n ih => exact hstep _ _ ih (hok n)

/-- The events of a list, and then always the same one. -/
def followedBy (es : List ε) (idle : ε) (n : ℕ) : ε := es[n]?.getD idle

theorem map_range_followedBy (es : List ε) (idle : ε) {n : ℕ} (hle : n ≤ es.length) :
    (List.range n).map (followedBy es idle) = es.take n := by
  refine List.ext_getElem (by simp [hle]) fun i hi hi' => ?_
  have hlt : i < es.length := by
    rw [List.length_take] at hi'
    omega
  simp [followedBy, hlt]

theorem Meets.followedBy {ok : σ → ε → Prop} {es : List ε} {idle : ε} (h : Meets step ok s es)
    (hidle : ∀ s, ok s idle) (n : ℕ) :
    ok (trace step s (followedBy es idle) n) (followedBy es idle n) := by
  rcases Nat.lt_or_ge n es.length with hlt | hge
  · rw [trace_eq_run, map_range_followedBy es idle hlt.le, OpenCms.followedBy,
      List.getElem?_eq_getElem hlt, Option.getD_some]
    exact Meets.iff_split.mp h _ _ (es.drop (n + 1)) (by simp)
  · rw [OpenCms.followedBy, List.getElem?_eq_none hge, Option.getD_none]
    exact hidle _

end Trace

section Eventually

variable {σ : Type*} {state : ℕ → σ}

/-- **What happens in the end**: as long as it has not happened, a measure gets smaller later on. -/
theorem eventually_of_decreasing {P Q : σ → Prop} (rank : σ → ℕ)
    (h : ∀ n, P (state n) → Q (state n) ∨
      ∃ m, n ≤ m ∧ P (state m) ∧ rank (state m) < rank (state n)) (n : ℕ) (hP : P (state n)) :
    ∃ m, n ≤ m ∧ Q (state m) := by
  induction hr : rank (state n) using Nat.strong_induction_on generalizing n with
  | _ r ih =>
    rcases h n hP with hQ | ⟨m, hle, hP', hlt⟩
    · exact ⟨n, le_rfl, hQ⟩
    · obtain ⟨m', hle', hQ⟩ := ih _ (hr ▸ hlt) m hP' rfl
      exact ⟨m', hle.trans hle', hQ⟩

end Eventually

end OpenCms
