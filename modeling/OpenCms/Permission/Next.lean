import OpenCms.Lib.Runs
import OpenCms.Util.Wildcard
import Mathlib.Data.List.Basic

/-!
# Permission requests

Before a tool runs it asks for a permission, naming the permission and the patterns it
wants to use. `OpenCms.PermissionNext.evaluate` lets the last rule that matches decide a
pattern; `OpenCms.PermissionNext.ask` walks the patterns, throws at one that is denied
and waits for the user at one that is to be asked; `OpenCms.PermissionNext.reply` is the
user's answer, which may settle other waiting requests of the session with it.

What a caller sees of `ask` is the promise it holds. The state numbers the promises in
the order of the calls, and `OpenCms.PermissionNext.DeniedForGood` says of a call that
its promise is rejected with a `DeniedError` at once, that no later calls change this and
that nothing is left waiting. For a request with a denied pattern this is so exactly when
the walk reaches the denied pattern (`OpenCms.PermissionNext.denied_for_good_iff`): a
pattern to be asked that comes first ends it, and a single answer then lets the whole
request through (`OpenCms.PermissionNext.once_returns`).
-/

namespace OpenCms.PermissionNext

/-! ### Rules -/

inductive Action
  | allow
  | deny
  | ask
  deriving DecidableEq

structure Rule where
  permission : JsString
  pattern : JsString
  action : Action
  deriving DecidableEq

abbrev Ruleset : Type := List Rule

def merge (rulesets : List Ruleset) : Ruleset := rulesets.flatten

/-- `PermissionMode`; `auto` takes every question as answered. -/
inductive PermissionMode
  | ask
  | auto
  deriving DecidableEq

/-! ### Requests -/

/-- A string that `Identifier.schema` lets through: it begins with the kind's letters. -/
structure Identifier (kind : JsString) where
  val : JsString
  startsWith : kind <+: val
  deriving DecidableEq

abbrev SessionID : Type := Identifier (js "ses")

abbrev PermissionID : Type := Identifier (js "per")

/-- `Request`, without the fields that only ride along. -/
structure Request where
  id : PermissionID
  sessionID : SessionID
  permission : JsString
  patterns : List JsString
  always : List JsString
  deriving DecidableEq

/-- The input of `ask`: a request whose identifier may be missing, and the rules of the
agent. -/
structure AskInput where
  id : Option PermissionID
  sessionID : SessionID
  permission : JsString
  patterns : List JsString
  always : List JsString
  ruleset : Ruleset

inductive Reply
  | once
  | always
  | reject
  deriving DecidableEq

inductive Settlement
  | returned
  /-- `DeniedError`, with the rules about the permission. -/
  | denied (ruleset : Ruleset)
  /-- `RejectedError`. -/
  | rejected
  /-- `CorrectedError`. -/
  | corrected (message : JsString)
  deriving DecidableEq

inductive Event
  | asked (info : Request)
  | replied (sessionID : SessionID) (requestID : PermissionID) (reply : Reply)
  deriving DecidableEq

/-- A waiting request and the promise that its caller holds. -/
structure Pending where
  info : Request
  promise : ℕ
  deriving DecidableEq

structure State where
  /-- The record of the waiting requests, in the order of its keys. -/
  pending : List (PermissionID × Pending)
  approved : Ruleset
  /-- What the storage holds for the project. -/
  stored : Ruleset
  /-- The promises handed out so far. -/
  promises : List (Option Settlement)
  published : List Event

/-- `createState`; an unreadable file counts as an empty one. -/
def createState (stored : Option Ruleset) : State :=
  ⟨[], stored.getD [], stored.getD [], [], []⟩

/-! ### The record of waiting requests -/

def lookup (id : PermissionID) (pending : List (PermissionID × Pending)) : Option Pending :=
  (pending.find? fun e => e.1 = id).map Prod.snd

/-- `s.pending[id] = entry`: a key that is there keeps its place. -/
def assign (id : PermissionID) (entry : Pending) (pending : List (PermissionID × Pending)) :
    List (PermissionID × Pending) :=
  if pending.any fun e => e.1 = id then
    pending.map fun e => if e.1 = id then (id, entry) else e
  else pending ++ [(id, entry)]

def delete (id : PermissionID) (pending : List (PermissionID × Pending)) :
    List (PermissionID × Pending) :=
  pending.filter fun e => e.1 ≠ id

@[simp] theorem lookup_assign (id : PermissionID) (entry : Pending)
    (pending : List (PermissionID × Pending)) :
    lookup id (assign id entry pending) = some entry := by
  unfold lookup assign
  split
  next hmem =>
    induction pending with
    | nil => simp at hmem
    | cons e pending ih =>
      by_cases he : e.1 = id
      · simp [he]
      · have hrest : (pending.any fun e => e.1 = id) = true := by simpa [he] using hmem
        simpa [he] using ih hrest
  next hmem =>
    have hnone : (pending.find? fun e => e.1 = id) = none := by
      rw [List.find?_eq_none]
      simpa only [List.any_eq_true, not_exists, not_and] using hmem
    simp [List.find?_append, hnone]

/-! ### Promises -/

/-- `resolve` and `reject`: a promise that is settled stays so. -/
def settle (promise : ℕ) (how : Settlement) (promises : List (Option Settlement)) :
    List (Option Settlement) :=
  promises.modify promise fun p => p.or (some how)

variable {how : Settlement} {i : ℕ}

theorem settle_settled {promises : List (Option Settlement)} (h : promises[i]? = some (some how))
    (p : ℕ) (how' : Settlement) : (settle p how' promises)[i]? = some (some how) := by
  rw [settle, List.getElem?_modify, h]
  split <;> rfl

theorem settle_waiting {promises : List (Option Settlement)} (h : promises[i]? = some none)
    (how : Settlement) : (settle i how promises)[i]? = some (some how) := by
  rw [settle, List.getElem?_modify, h]
  simp

/-- One waiting request is taken off the record, its answer published and its promise
settled. -/
def State.close (s : State) (id : PermissionID) (entry : Pending) (reply : Reply)
    (how : Settlement) : State :=
  { s with
    pending := delete id s.pending
    published := s.published ++ [.replied entry.info.sessionID entry.info.id reply]
    promises := settle entry.promise how s.promises }

section Rules

variable (canon : UInt16 → UInt16)

/-! ### Evaluation -/

def evaluate (permission pattern : JsString) (rulesets : List Ruleset) : Rule :=
  let found := (merge rulesets).reverse.find? fun rule =>
    Wildcard.match' canon permission rule.permission && Wildcard.match' canon pattern rule.pattern
  found.getD ⟨permission, js "*", .ask⟩

inductive Walk
  | returned
  | denied
  | asked
  deriving DecidableEq

def walk (mode : Option PermissionMode) (action : JsString → Action) : List JsString → Walk
  | [] => .returned
  | pattern :: patterns =>
    match action pattern with
    | .deny => .denied
    | .ask => if mode = some .auto then walk mode action patterns else .asked
    | .allow => walk mode action patterns

/-! ### The two calls -/

def AskInput.request (input : AskInput) (fresh : PermissionID) : Request where
  id := input.id.getD fresh
  sessionID := input.sessionID
  permission := input.permission
  patterns := input.patterns
  always := input.always

/-- What a pattern of the request evaluates to at the time of the call. -/
def AskInput.action (input : AskInput) (approved : Ruleset) (pattern : JsString) : Action :=
  (evaluate canon input.permission pattern [input.ruleset, approved]).action

/-- `ask`, where `fresh` is the identifier drawn when the caller names none. -/
def ask (s : State) (mode : Option PermissionMode) (input : AskInput) (fresh : PermissionID) :
    State :=
  match walk mode (input.action canon s.approved) input.patterns with
  | .returned => { s with promises := s.promises ++ [some .returned] }
  | .denied =>
    let rules := input.ruleset.filter fun r =>
      Wildcard.match' canon input.permission r.permission
    { s with promises := s.promises ++ [some (.denied rules)] }
  | .asked =>
    let info := input.request fresh
    { s with
      pending := assign info.id ⟨info, s.promises.length⟩ s.pending
      promises := s.promises ++ [none]
      published := s.published ++ [.asked info] }

/-- The other waiting requests of a session, rejected with the one that was. -/
def rejectSession (s : State) (sessionID : SessionID) : State :=
  s.pending.foldl (fun s e =>
    if e.2.info.sessionID = sessionID then s.close e.1 e.2 .reject .rejected else s) s

/-- The waiting requests of a session that the approved rules now allow. -/
def resolveSession (s : State) (sessionID : SessionID) : State :=
  s.pending.foldl (fun s e =>
    if e.2.info.sessionID ≠ sessionID then s
    else if e.2.info.patterns.all fun pattern =>
        (evaluate canon e.2.info.permission pattern [s.approved]).action = .allow then
      s.close e.1 e.2 .always .returned
    else s) s

/-- The error of a rejection: a message that is not empty goes with it. -/
def rejection : Option JsString → Settlement
  | some (c :: message) => .corrected (c :: message)
  | _ => .rejected

def Request.granted (info : Request) : Ruleset :=
  info.always.map fun pattern => ⟨info.permission, pattern, .allow⟩

/-- `reply`, where `saved` says whether the storage took the approved rules. -/
def reply (s : State) (requestID : PermissionID) (answer : Reply) (message : Option JsString)
    (saved : Bool) : State :=
  match lookup requestID s.pending with
  | none => s
  | some existing =>
    match answer with
    | .reject =>
      rejectSession (s.close requestID existing .reject (rejection message))
        existing.info.sessionID
    | .once => s.close requestID existing .once .returned
    | .always =>
      let s := { s with approved := s.approved ++ existing.info.granted }
      let s := resolveSession canon (s.close requestID existing .always .returned)
        existing.info.sessionID
      { s with stored := if saved then s.approved else s.stored }

/-- A call of the module, with what the world decides about it. -/
inductive Call
  | ask (mode : Option PermissionMode) (input : AskInput) (fresh : PermissionID)
  | reply (requestID : PermissionID) (answer : Reply) (message : Option JsString) (saved : Bool)

def step (s : State) : Call → State
  | .ask mode input fresh => ask canon s mode input fresh
  | .reply requestID answer message saved => reply canon s requestID answer message saved

variable {canon} {mode : Option PermissionMode} {action : JsString → Action}
  {patterns : List JsString} {s : State} {input : AskInput}

/-! ### The walk -/

/-- **The walk ends in a denial exactly when it gets to a denied pattern**: nothing before
it is to be asked, or questions count as answered. -/
theorem walk_denied_iff :
    walk mode action patterns = .denied ↔
      ∃ before p after, patterns = before ++ p :: after ∧ action p = .deny ∧
        (mode = some .auto ∨ ∀ q ∈ before, action q ≠ .ask) ∧ ∀ q ∈ before, action q ≠ .deny := by
  induction patterns with
  | nil => simp [walk]
  | cons p patterns ih =>
    constructor
    · intro h
      rw [walk] at h
      cases hp : action p with
      | deny => exact ⟨[], p, patterns, rfl, hp, Or.inr (by simp), by simp⟩
      | ask =>
        rw [hp] at h
        by_cases hmode : mode = some .auto
        · obtain ⟨before, q, after, rfl, hq, -, hdeny⟩ := ih.mp (by simpa [hmode] using h)
          exact ⟨p :: before, q, after, rfl, hq, Or.inl hmode, by simpa [hp] using hdeny⟩
        · simp [hmode] at h
      | allow =>
        rw [hp] at h
        obtain ⟨before, q, after, rfl, hq, hask, hdeny⟩ := ih.mp h
        refine ⟨p :: before, q, after, rfl, hq, ?_, by simpa [hp] using hdeny⟩
        exact hask.imp_right fun hask => by simpa [hp] using hask
    · rintro ⟨before, q, after, hsplit, hq, hask, hdeny⟩
      cases before with
      | nil =>
        obtain ⟨rfl, rfl⟩ : p = q ∧ patterns = after := by simpa using hsplit
        simp [walk, hq]
      | cons b before =>
        obtain ⟨rfl, rfl⟩ : p = b ∧ patterns = before ++ q :: after := by simpa using hsplit
        have hwalk : walk mode action (before ++ q :: after) = .denied :=
          ih.mpr ⟨before, q, after, rfl, hq,
            hask.imp_right fun hask r hr => hask r (List.mem_cons_of_mem _ hr),
            fun r hr => hdeny r (List.mem_cons_of_mem _ hr)⟩
        have hp : action p ≠ .deny := hdeny p List.mem_cons_self
        rw [walk]
        cases hap : action p with
        | deny => exact absurd hap hp
        | allow => exact hwalk
        | ask =>
          have hmode : mode = some .auto :=
            hask.resolve_right fun h => h p List.mem_cons_self hap
          simpa [hmode] using hwalk

theorem walk_ne_returned (h : ∃ p ∈ patterns, action p = .deny) :
    walk mode action patterns ≠ .returned := by
  induction patterns with
  | nil => simp at h
  | cons p patterns ih =>
    rw [walk]
    cases hp : action p with
    | deny => simp
    | ask =>
      have hrest : ∃ q ∈ patterns, action q = .deny := by simpa [hp] using h
      by_cases hmode : mode = some .auto
      · simpa [hmode] using ih hrest
      · simp [hmode]
    | allow =>
      have hrest : ∃ q ∈ patterns, action q = .deny := by simpa [hp] using h
      exact ih hrest

theorem exists_first_denied (h : ∃ p ∈ patterns, action p = .deny) :
    ∃ before p after, patterns = before ++ p :: after ∧ action p = .deny ∧
      ∀ q ∈ before, action q ≠ .deny := by
  induction patterns with
  | nil => simp at h
  | cons p patterns ih =>
    by_cases hp : action p = .deny
    · exact ⟨[], p, patterns, rfl, hp, by simp⟩
    · obtain ⟨before, q, after, rfl, hq, hbefore⟩ := ih (by simpa [hp] using h)
      exact ⟨p :: before, q, after, rfl, hq, by simpa [hp] using hbefore⟩

/-! ### A settled promise stays settled -/

theorem foldl_settled {α : Type*} {f : State → α → State}
    (hf : ∀ s e, s.promises[i]? = some (some how) → (f s e).promises[i]? = some (some how))
    (es : List α) (s : State) (h : s.promises[i]? = some (some how)) :
    (es.foldl f s).promises[i]? = some (some how) :=
  List.foldlRecOn es f h fun s hs e _ => hf s e hs

theorem rejectSession_settled (h : s.promises[i]? = some (some how)) (sessionID : SessionID) :
    (rejectSession s sessionID).promises[i]? = some (some how) := by
  refine foldl_settled (fun s e hs => ?_) s.pending s h
  split
  · exact settle_settled hs _ _
  · exact hs

theorem resolveSession_settled (h : s.promises[i]? = some (some how)) (sessionID : SessionID) :
    (resolveSession canon s sessionID).promises[i]? = some (some how) := by
  refine foldl_settled (fun s e hs => ?_) s.pending s h
  split
  · exact hs
  · split
    · exact settle_settled hs _ _
    · exact hs

theorem reply_settled (h : s.promises[i]? = some (some how)) (requestID : PermissionID)
    (answer : Reply) (message : Option JsString) (saved : Bool) :
    (reply canon s requestID answer message saved).promises[i]? = some (some how) := by
  unfold reply
  split
  · exact h
  · split
    · exact rejectSession_settled (settle_settled h _ _) _
    · exact settle_settled h _ _
    · refine resolveSession_settled ?_ _
      exact settle_settled h _ _

theorem ask_promises (canon : UInt16 → UInt16) (s : State) (mode : Option PermissionMode)
    (input : AskInput) (fresh : PermissionID) :
    ∃ p, (ask canon s mode input fresh).promises = s.promises ++ [p] := by
  unfold ask
  split <;> exact ⟨_, rfl⟩

theorem step_settled (h : s.promises[i]? = some (some how)) (call : Call) :
    (step canon s call).promises[i]? = some (some how) := by
  cases call with
  | ask mode input fresh =>
    obtain ⟨p, hp⟩ := ask_promises canon s mode input fresh
    have hi : i < s.promises.length := (List.getElem?_eq_some_iff.mp h).1
    rw [step, hp, List.getElem?_append_left hi, h]
  | reply requestID answer message saved => exact reply_settled h _ _ _ _

/-- **Nothing unsettles a promise**, whatever is called later. -/
theorem run_settled (h : s.promises[i]? = some (some how)) (calls : List Call) :
    (run (step canon) s calls).promises[i]? = some (some how) :=
  run_invariant (fun s : State => s.promises[i]? = some (some how)) h
    (fun _ call hs => step_settled hs call) calls

/-! ### Denied requests -/

/-- The call is over with a `DeniedError`: whatever is called later, its promise stays
rejected with one, and it left nothing waiting. -/
structure DeniedForGood (canon : UInt16 → UInt16) (s : State) (mode : Option PermissionMode)
    (input : AskInput) (fresh : PermissionID) : Prop where
  thrown : ∀ calls : List Call, ∃ rules : Ruleset,
    (run (step canon) (ask canon s mode input fresh) calls).promises[s.promises.length]? =
      some (some (.denied rules))
  nothing_waits : (ask canon s mode input fresh).pending = s.pending

def DenyComesFirst (action : JsString → Action) (patterns : List JsString) : Prop :=
  ∃ before p after, patterns = before ++ p :: after ∧ action p = .deny ∧
    ∀ q ∈ before, action q ≠ .ask

theorem walk_denied_of_denyComesFirst (h : DenyComesFirst action patterns) :
    walk mode action patterns = .denied := by
  obtain ⟨before, p, after, rfl, hp, hask⟩ := h
  by_cases hdeny : ∃ q ∈ before, action q = .deny
  · obtain ⟨before, q, rest, rfl, hq, hbefore⟩ := exists_first_denied hdeny
    refine walk_denied_iff.mpr ⟨before, q, rest ++ p :: after, by simp, hq, Or.inr ?_, hbefore⟩
    exact fun r hr => hask r (List.mem_append_left _ hr)
  · refine walk_denied_iff.mpr ⟨before, p, after, rfl, hp, Or.inr hask, ?_⟩
    exact fun q hq hdq => hdeny ⟨q, hq, hdq⟩

theorem walk_denied_iff_of_denied (h : ∃ p ∈ patterns, action p = .deny) :
    walk mode action patterns = .denied ↔
      mode = some .auto ∨ DenyComesFirst action patterns := by
  constructor
  · intro hw
    obtain ⟨before, p, after, hsplit, hp, hask, -⟩ := walk_denied_iff.mp hw
    exact hask.imp_right fun hask => ⟨before, p, after, hsplit, hp, hask⟩
  · rintro (hmode | hfirst)
    · obtain ⟨before, p, after, hsplit, hp, hbefore⟩ := exists_first_denied h
      exact walk_denied_iff.mpr ⟨before, p, after, hsplit, hp, Or.inl hmode, hbefore⟩
    · exact walk_denied_of_denyComesFirst hfirst

theorem ask_of_denied (h : walk mode (input.action canon s.approved) input.patterns = .denied)
    (fresh : PermissionID) :
    ∃ rules, ask canon s mode input fresh =
      { s with promises := s.promises ++ [some (.denied rules)] } := by
  rw [ask, h]
  exact ⟨_, rfl⟩

theorem ask_of_asked (h : walk mode (input.action canon s.approved) input.patterns = .asked)
    (fresh : PermissionID) :
    ask canon s mode input fresh =
      { s with
        pending := assign (input.request fresh).id ⟨input.request fresh, s.promises.length⟩
          s.pending
        promises := s.promises ++ [none]
        published := s.published ++ [.asked (input.request fresh)] } := by
  rw [ask, h]

/-- **A denied request is over exactly when its denied pattern is reached**: a request with
a pattern that evaluates to `deny` is thrown out for good if questions count as answered, or
if no pattern before some denied one is to be asked; and in no other case. -/
theorem denied_for_good_iff (canon : UInt16 → UInt16) (s : State) (mode : Option PermissionMode)
    (input : AskInput) (fresh : PermissionID)
    (hdeny : ∃ p ∈ input.patterns, input.action canon s.approved p = .deny) :
    DeniedForGood canon s mode input fresh ↔
      mode = some .auto ∨ DenyComesFirst (input.action canon s.approved) input.patterns := by
  rw [← walk_denied_iff_of_denied hdeny]
  constructor
  · rintro ⟨hthrown, -⟩
    by_contra hw
    have hasked : walk mode (input.action canon s.approved) input.patterns = .asked := by
      cases hwalk : walk mode (input.action canon s.approved) input.patterns with
      | returned => exact absurd hwalk (walk_ne_returned hdeny)
      | denied => exact absurd hwalk hw
      | asked => rfl
    obtain ⟨rules, hrules⟩ := hthrown []
    rw [run_nil, ask_of_asked hasked] at hrules
    simp at hrules
  · intro hw
    obtain ⟨rules, hask⟩ := ask_of_denied hw fresh
    refine ⟨fun calls => ⟨rules, run_settled ?_ calls⟩, by rw [hask]⟩
    rw [hask]
    simp

def someSession : SessionID := ⟨js "ses_1", by decide⟩

def bashInput (patterns : List JsString) (ruleset : Ruleset) : AskInput where
  id := none
  sessionID := someSession
  permission := js "bash"
  patterns := patterns
  always := []
  ruleset := ruleset

/-- Two allowed commands do not hide the third. -/
theorem denied_for_good_sample :
    DeniedForGood id (createState none) none
      (bashInput [js "echo hello", js "ls", js "rm -rf /"]
        [⟨js "bash", js "*", .allow⟩, ⟨js "bash", js "rm *", .deny⟩])
      ⟨js "per_1", by decide⟩ := by
  refine (denied_for_good_iff id _ _ _ _ ⟨js "rm -rf /", by decide, by decide⟩).mpr (Or.inr ?_)
  exact ⟨[js "echo hello", js "ls"], js "rm -rf /", [], rfl, by decide, by decide⟩

/-- **One answer lets all of a request through.** A request that ended at a question returns
normally once that question is answered, also with a denied pattern behind it. -/
theorem once_returns (h : walk mode (input.action canon s.approved) input.patterns = .asked)
    (fresh : PermissionID) (message : Option JsString) (saved : Bool) :
    (reply canon (ask canon s mode input fresh) (input.request fresh).id .once message
      saved).promises[s.promises.length]? = some (some .returned) := by
  rw [ask_of_asked h]
  simp only [reply, lookup_assign, State.close]
  exact settle_waiting (by simp) _

/-- **A question hides a denial**: with no rule about `ls` the walk stops there, and the user
who allows `ls` once has allowed the denied command behind it. -/
theorem denial_hidden_by_question :
    ¬ ∀ (canon : UInt16 → UInt16) (s : State) (mode : Option PermissionMode) (input : AskInput)
      (fresh : PermissionID), (∃ p ∈ input.patterns, input.action canon s.approved p = .deny) →
      DeniedForGood canon s mode input fresh := by
  intro h
  have hrules := h id (createState none) none
    (bashInput [js "ls", js "rm -rf /"] [⟨js "bash", js "rm *", .deny⟩]) ⟨js "per_1", by decide⟩
    ⟨js "rm -rf /", by decide, by decide⟩
  obtain ⟨rules, hthrown⟩ := hrules.thrown [.reply ⟨js "per_1", by decide⟩ .once none true]
  have hasked : walk none
      ((bashInput [js "ls", js "rm -rf /"] [⟨js "bash", js "rm *", .deny⟩]).action id
        (createState none).approved) [js "ls", js "rm -rf /"] = .asked := by decide
  have hreturned := once_returns hasked ⟨js "per_1", by decide⟩ none true
  have hboth : some (some (Settlement.denied rules)) = some (some .returned) :=
    hthrown.symm.trans hreturned
  simp at hboth

end Rules

end OpenCms.PermissionNext
