import OpenCms.Permission.Next

/-!
# Approvals against denials

`OpenCms.PermissionNext.evaluate` reads the rules of the agent first and the approved ones
behind them, and the last rule that matches decides. An answer `always` puts rules behind
all the others, so it outranks every rule of the agent, a denial too. Along a run that
starts with nothing approved, a pair that the agent's rules deny stays denied exactly as
long as no answer `always` covers it (`OpenCms.PermissionNext.denied_iff_never_widened`);
the first one that does allows the pair from then on.
-/

namespace OpenCms.PermissionNext

section Approved

variable (canon : UInt16 → UInt16)

def Rule.covers (rule : Rule) (permission pattern : JsString) : Bool :=
  Wildcard.match' canon permission rule.permission && Wildcard.match' canon pattern rule.pattern

def Widens (permission pattern : JsString) (s : State) : Call → Prop
  | .ask _ _ _ => False
  | .reply requestID answer _ _ =>
    answer = .always ∧ ∃ existing, lookup requestID s.pending = some existing ∧
      ∃ rule ∈ existing.info.granted, rule.covers canon permission pattern = true

variable {canon} {permission pattern : JsString}

/-! ### Two rulesets -/

theorem evaluate_append (R A : Ruleset) :
    evaluate canon permission pattern [R, A] =
      ((A.reverse.find? fun rule => rule.covers canon permission pattern).getD
        (evaluate canon permission pattern [R])) := by
  have hmerge : (merge [R, A]).reverse = A.reverse ++ (merge [R]).reverse := by simp [merge]
  rw [evaluate, hmerge, List.find?_append]
  show ((A.reverse.find? fun rule => rule.covers canon permission pattern).or _).getD _ = _
  cases A.reverse.find? fun rule => rule.covers canon permission pattern with
  | none => rfl
  | some rule => rfl

theorem evaluate_of_not_covered {R A : Ruleset}
    (h : ∀ rule ∈ A, rule.covers canon permission pattern = false) :
    evaluate canon permission pattern [R, A] = evaluate canon permission pattern [R] := by
  have hnone : (A.reverse.find? fun rule => rule.covers canon permission pattern) = none :=
    List.find?_eq_none.mpr fun rule hrule => by simp [h rule (List.mem_reverse.mp hrule)]
  rw [evaluate_append, hnone, Option.getD_none]

theorem evaluate_of_covered {R A : Ruleset} (hA : ∀ rule ∈ A, rule.action = .allow)
    (h : ∃ rule ∈ A, rule.covers canon permission pattern = true) :
    (evaluate canon permission pattern [R, A]).action = .allow := by
  rw [evaluate_append]
  cases hfind : A.reverse.find? fun rule => rule.covers canon permission pattern with
  | none =>
    obtain ⟨rule, hrule, hcovers⟩ := h
    have hnot := List.find?_eq_none.mp hfind rule (List.mem_reverse.mpr hrule)
    exact absurd hcovers hnot
  | some found => exact hA found (List.mem_reverse.mp (List.mem_of_find?_eq_some hfind))

/-! ### What a call approves -/

theorem foldl_approved {α : Type*} {f : State → α → State}
    (hf : ∀ s e, (f s e).approved = s.approved) (es : List α) (s : State) :
    (es.foldl f s).approved = s.approved :=
  List.foldlRecOn es f (motive := fun t => t.approved = s.approved) rfl
    fun t ht e _ => (hf t e).trans ht

theorem rejectSession_approved (s : State) (sessionID : SessionID) :
    (rejectSession s sessionID).approved = s.approved := by
  refine foldl_approved (fun s e => ?_) s.pending s
  split <;> rfl

theorem resolveSession_approved (s : State) (sessionID : SessionID) :
    (resolveSession canon s sessionID).approved = s.approved := by
  refine foldl_approved (fun s e => ?_) s.pending s
  split
  · rfl
  · split <;> rfl

def grants (s : State) : Call → Ruleset
  | .reply requestID .always _ _ =>
    match lookup requestID s.pending with
    | some existing => existing.info.granted
    | none => []
  | _ => []

/-- **The approved rules only grow**, by what the answers `always` grant. -/
theorem step_approved (s : State) (call : Call) :
    (step canon s call).approved = s.approved ++ grants s call := by
  rcases call with ⟨mode, input, fresh⟩ | ⟨requestID, answer, message, saved⟩
  · have hgrants : grants s (.ask mode input fresh) = [] := rfl
    rw [step, hgrants, List.append_nil, ask]
    split <;> rfl
  · rw [step, reply]
    rcases hfound : lookup requestID s.pending with - | existing
    · have hgrants : grants s (.reply requestID answer message saved) = [] := by
        cases answer <;> simp [grants, hfound]
      rw [hgrants, List.append_nil]
    · cases answer with
      | reject =>
        show (rejectSession _ _).approved = s.approved ++ []
        rw [rejectSession_approved, List.append_nil]
        rfl
      | once => exact (List.append_nil s.approved).symm
      | always =>
        show (resolveSession canon _ _).approved = s.approved ++ grants s _
        rw [resolveSession_approved]
        simp [State.close, grants, hfound]

theorem grants_allow {s : State} {call : Call} : ∀ rule ∈ grants s call, rule.action = .allow := by
  intro rule hrule
  unfold grants at hrule
  split at hrule
  · split at hrule
    · obtain ⟨pattern, -, rfl⟩ := List.mem_map.mp hrule
      rfl
    · simp at hrule
  · simp at hrule

theorem widens_iff {s : State} {call : Call} :
    Widens canon permission pattern s call ↔
      ∃ rule ∈ grants s call, rule.covers canon permission pattern = true := by
  rcases call with ⟨mode, input, fresh⟩ | ⟨requestID, answer, message, saved⟩
  · simp [Widens, grants]
  · rcases hfound : lookup requestID s.pending with - | existing <;>
      cases answer <;> simp [Widens, grants, hfound]

/-! ### Along a run -/

def Uncovered (canon : UInt16 → UInt16) (permission pattern : JsString) (s : State) : Prop :=
  ∀ rule ∈ s.approved, rule.covers canon permission pattern = false

theorem uncovered_step {s : State} {call : Call} :
    Uncovered canon permission pattern (step canon s call) ↔
      Uncovered canon permission pattern s ∧ ¬Widens canon permission pattern s call := by
  rw [Uncovered, step_approved, List.forall_mem_append, widens_iff]
  refine and_congr_right fun _ => ⟨fun h => ?_, fun h rule hrule => ?_⟩
  · rintro ⟨rule, hrule, hcovers⟩
    rw [h rule hrule] at hcovers
    simp at hcovers
  · by_contra hcovers
    exact h ⟨rule, hrule, by simpa using hcovers⟩

theorem uncovered_run {s : State} {calls : List Call} :
    Uncovered canon permission pattern (run (step canon) s calls) ↔
      Uncovered canon permission pattern s ∧
        Meets (step canon) (fun s call => ¬Widens canon permission pattern s call) s calls := by
  exact run_iff_meets (fun _ => True) (Uncovered canon permission pattern) trivial
    (fun _ _ _ => trivial) (fun _ _ _ => uncovered_step) calls

/-- **What the agent's rules deny stays denied until an answer `always` covers it.** Along
any run from a state with nothing approved, a pair that the ruleset alone denies evaluates
to a denial exactly if no answer `always` of the run covers it, and is allowed otherwise. -/
theorem denied_iff_never_widened (canon : UInt16 → UInt16) (R : Ruleset)
    (permission pattern : JsString) (s : State) (calls : List Call) (hs : s.approved = [])
    (hdeny : (evaluate canon permission pattern [R]).action = .deny) :
    ((evaluate canon permission pattern [R, (run (step canon) s calls).approved]).action = .deny ↔
        Meets (step canon) (fun s call => ¬Widens canon permission pattern s call) s calls) ∧
      ((evaluate canon permission pattern [R, (run (step canon) s calls).approved]).action =
          .allow ↔
        ¬Meets (step canon) (fun s call => ¬Widens canon permission pattern s call) s calls) := by
  have hmeets : Uncovered canon permission pattern (run (step canon) s calls) ↔
      Meets (step canon) (fun s call => ¬Widens canon permission pattern s call) s calls := by
    rw [uncovered_run]
    exact and_iff_right (by simp [Uncovered, hs])
  have hallow : ∀ rule ∈ (run (step canon) s calls).approved, rule.action = .allow := by
    refine run_invariant (fun s : State => ∀ rule ∈ s.approved, rule.action = .allow)
      (by simp [hs]) (fun s call h => ?_) calls
    rw [step_approved, List.forall_mem_append]
    exact ⟨h, grants_allow⟩
  rw [← hmeets]
  by_cases h : Uncovered canon permission pattern (run (step canon) s calls)
  · rw [evaluate_of_not_covered h, hdeny]
    simp [h]
  · have hcovered : ∃ rule ∈ (run (step canon) s calls).approved,
        rule.covers canon permission pattern = true := by simpa [Uncovered] using h
    rw [evaluate_of_covered hallow hcovered]
    simp [h]

def editInput (file : JsString) (ruleset : Ruleset) : AskInput where
  id := none
  sessionID := someSession
  permission := js "edit"
  patterns := [file]
  always := [js "*"]
  ruleset := ruleset

def secretRules : Ruleset :=
  [⟨js "edit", js "*", .ask⟩, ⟨js "edit", js "secret/*", .deny⟩]

def editAllowed : List Call :=
  [.ask none (editInput (js "a.ts") secretRules) ⟨js "per_1", by decide⟩,
    .reply ⟨js "per_1", by decide⟩ .always none true]

/-- A command is allowed always, and an edit once. -/
def listAllowed : List Call :=
  [.ask none { editInput (js "ls") [] with permission := js "bash" } ⟨js "per_1", by decide⟩,
    .reply ⟨js "per_1", by decide⟩ .always none true,
    .ask none (editInput (js "a.ts") secretRules) ⟨js "per_2", by decide⟩,
    .reply ⟨js "per_2", by decide⟩ .once none true]

/-- The secrets stay denied. -/
theorem denied_iff_never_widened_sample :
    (run (step id) (createState none) listAllowed).approved ≠ [] ∧
      (evaluate id (js "edit") (js "secret/key")
        [secretRules, (run (step id) (createState none) listAllowed).approved]).action = .deny := by
  have hnone : ∀ existing ∈ lookup ⟨js "per_1", by decide⟩
      (run (step id) (createState none) (listAllowed.take 1)).pending,
      ∀ rule ∈ existing.info.granted, rule.covers id (js "edit") (js "secret/key") = false := by
    decide
  refine ⟨by decide, (denied_iff_never_widened id secretRules (js "edit") (js "secret/key")
    (createState none) listAllowed rfl (by decide)).1.mpr ⟨id, ?_, id, ?_, trivial⟩⟩
  · rintro ⟨-, existing, hexisting, rule, hrule, hcovers⟩
    rw [hnone existing hexisting rule hrule] at hcovers
    cases hcovers
  · rintro ⟨⟨⟩, -⟩

/-- **Allowing one edit always allows the denied ones too**: the tool asks to be allowed `*`,
and that rule stands behind the denial. -/
theorem denial_outranked :
    ¬∀ (canon : UInt16 → UInt16) (R : Ruleset) (permission pattern : JsString) (s : State)
      (calls : List Call), s.approved = [] →
      (evaluate canon permission pattern [R]).action = .deny →
      (evaluate canon permission pattern [R, (run (step canon) s calls).approved]).action =
        .deny := by
  intro h
  have hsecret := h id secretRules (js "edit") (js "secret/key") (createState none) editAllowed rfl
    (by decide)
  exact absurd hsecret (by decide)

end Approved

end OpenCms.PermissionNext
