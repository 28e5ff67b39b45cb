import OpenCms.Claude.Salvage
import OpenCms.Lib.Progress
import OpenCms.Lib.Stringify
import Mathlib.Logic.Function.Basic

/-!
# Tool calls that are made twice

A model may make the same call of a tool twice, at once or one after the other. The second one is
to take the result of the first: a table holds the promises of the calls that are under way, and
the history of the session shows those that are completed.

The table is read when a call comes, and written only after the history was looked up; so two calls
that come at once both go on to run the tool. The hook before the tool stands between the entry in
the table and the part that takes it out again, so that a hook that throws leaves an entry that is
never removed and a promise that is never settled. `OpenCms.ToolInvoker.runs_once` says that with
neither of the two a tool is run to success at most once, that every call settles, and that the
table is left empty.
-/

namespace OpenCms.ToolInvoker

/-! ### The signature of a call -/

/-- What a call is made with, and what a part of the history holds of it. -/
abbrev Args : Type := JsValue JsString JsString

mutual

/-- `stableStringify`: as `JSON.stringify`, but with the keys in their order. The text of a number
is left open. -/
def stableStringify (numeral : ℚ → JsString) : Args → Option JsString
  | .undefined => none
  | .null | .nan | .infinity _ => some (js "null")
  | .bool b => some (if b then js "true" else js "false")
  | .num q => some (numeral q)
  | .str s => some (Claude.quote s)
  | .arr items => some (91 :: [44].intercalate (stableItems numeral items) ++ [93])
  | .obj members =>
    some (123 :: [44].intercalate
      (((stableMembers numeral members).insertionSort fun a b => a.1 ≤ b.1).map fun member =>
        Claude.quote member.1 ++ 58 :: member.2) ++ [125])

/-- The items of an array: nothing is written for `undefined`. -/
def stableItems (numeral : ℚ → JsString) : List Args → List JsString
  | [] => []
  | v :: items => (stableStringify numeral v).getD [] :: stableItems numeral items

/-- The members of an object: `undefined` is written as the word. -/
def stableMembers (numeral : ℚ → JsString) :
    List (JsString × Args) → List (JsString × JsString)
  | [] => []
  | (k, v) :: members =>
    (k, (stableStringify numeral v).getD (js "undefined")) :: stableMembers numeral members

end

def textOf (members : List (JsString × Args)) (key : JsString) : Option JsString :=
  match members.lookup key with
  | some (.str text) => if text = [] then none else some text
  | _ => none

def normalizeArgsForDedup (toolID : JsString) (args : Args) : Args :=
  match args with
  | .obj members =>
    if toolID = js "apply_patch" then
      match (textOf members (js "input")).or (textOf members (js "patchText")) with
      | some text => .obj [(js "input", .str text)]
      | none => args
    else args
  | _ => args

def signature (numeral : ℚ → JsString) (toolID : JsString) (args : Args) : Option JsString :=
  stableStringify numeral (normalizeArgsForDedup toolID args)

def inflightKey (numeral : ℚ → JsString) (sessionID toolID : JsString) (args : Args) : JsString :=
  sessionID ++ 0 :: toolID ++ 0 :: (signature numeral toolID args).getD (js "undefined")

/-! ### Tools -/

/-- `Tool.Kind`. -/
inductive Kind
  | exploration
  | modify
  | other
  deriving DecidableEq

def explorationTools : List String :=
  ["read", "glob", "grep", "codesearch", "webfetch", "bash", "attachment", "read_subsession",
    "system-manager_get_system_status", "system-manager_get_session",
    "system-manager_get_favorites", "system-manager_list_subagents",
    "system-manager_read_subsession", "system-manager_list_mcp_apps"]

def modifyTools : List String :=
  ["edit", "write", "apply_patch", "gdrive_setup", "gdrive_mount", "multiedit", "notebookedit",
    "scratchpad_write", "system-manager_switch_session", "system-manager_switch_model",
    "system-manager_switch_account", "system-manager_switch_provider",
    "system-manager_switch_theme", "system-manager_toggle_mcp", "system-manager_copy_to_clipboard",
    "system-manager_execute_command", "system-manager_update_models",
    "system-manager_switch_agent", "system-manager_open_in_editor",
    "system-manager_open_fileview", "system-manager_display_inline_image",
    "system-manager_rename_session", "system-manager_manage_session",
    "system-manager_app_control", "system-manager_set_ui_config",
    "system-manager_export_transcript", "system-manager_set_log_level",
    "system-manager_install_mcp_app", "system-manager_remove_mcp_app",
    "system-manager_restart_self", "system-manager_skill_loader"]

def kind (toolID : JsString) : Kind :=
  if toolID ∈ explorationTools.map js then .exploration
  else if toolID ∈ modifyTools.map js then .modify
  else .other

def isDedupEligible (toolID : JsString) : Bool := toolID = js "apply_patch"

def tickExplorationDepth (depth : ℕ) : Kind → ℕ
  | .exploration => depth + 1
  | .modify => 0
  | .other => depth

def explorationPostscript (depth : ℕ) : JsString :=
  if depth < 3 then []
  else [JsString.newline].intercalate
    [[], js "[working-cache] Depth " ++ JsString.decimal depth ++
        js " reached. Note what you just figured out —",
      js "emit a `cache-digest` fenced block in your reasoning content (purpose + 1–3 facts",
      js "+ evidence refs). Default to emitting; skip only if exploration was a dead end.",
      js "Cost ~100 tokens, saves ~3K–10K on future re-derivation."]

/-! ### The history -/

inductive Status
  | pending
  | running
  | completed
  | error
  deriving DecidableEq

/-- `ToolPart`: the output is there if it is a string. -/
structure ToolPart where
  callID : JsString
  tool : JsString
  status : Status
  input : Args
  output : Option JsString

inductive Part
  | tool (part : ToolPart)
  | other

inductive Role
  | user
  | assistant
  deriving DecidableEq

structure WithParts where
  role : Role
  parts : List Part

structure Options where
  toolID : JsString
  args : Args
  callID : JsString

variable (numeral : ℚ → JsString)

def isDuplicate (options : Options) (part : ToolPart) : Bool :=
  part.callID ≠ options.callID ∧ part.tool = options.toolID ∧ part.status = .completed ∧
    part.output.isSome ∧
    signature numeral options.toolID part.input =
      signature numeral options.toolID options.args

def findAmong (options : Options) : List WithParts → Option ToolPart
  | [] => none
  | m :: messages =>
    match m.role with
    | .user => none
    | .assistant =>
      (m.parts.findSome? fun part =>
        match part with
        | .tool part => if isDuplicate numeral options part then some part else none
        | .other => none).or (findAmong options messages)

def findDuplicateSiblingInMessages (messages : List WithParts) (options : Options) :
    Option ToolPart :=
  findAmong numeral options messages.reverse

/-! ### Calls -/

/-- The metadata of a result: what the tool says, or whose result it is. -/
inductive Metadata (ρ : Type)
  | tool (rest : ρ)
  | dedup (siblingCallID : Option JsString) (reason : JsString)

structure ToolExecutionResult (ρ : Type) where
  title : JsString
  output : JsString
  metadata : Metadata ρ

variable {C ρ : Type}

/-- What is put before a result that is used once more. -/
def prefixed (toolID output : JsString) : JsString :=
  if kind toolID = .exploration then output
  else js "[already executed — reusing result]\n" ++ output

/-- The result of a call that has waited for another one. -/
def reuse (toolID : JsString) (result : ToolExecutionResult ρ) : ToolExecutionResult ρ where
  title := result.title
  output := prefixed toolID result.output
  metadata := .dedup none (js "in-flight parallel dedup")

def reuseSibling (toolID : JsString) (dup : ToolPart) : ToolExecutionResult ρ where
  title := []
  output := prefixed toolID (dup.output.getD [])
  metadata := .dedup (some dup.callID) (js "identical (tool, args) within current user turn")

inductive Promise (α : Type)
  | pending
  | fulfilled (value : α)
  | rejected

def Promise.settle {α : Type} : Option α → Promise α
  | some value => .fulfilled value
  | none => .rejected

/-- Where a call stands: what it waits for, or how it ended. -/
inductive Phase (C ρ : Type)
  | inflight (first : C)
  | lookup
  | lookedUp (dup : Option ToolPart)
  | beforeHook
  | body
  | afterHook (result : ToolExecutionResult ρ)
  | settled (result : Option (ToolExecutionResult ρ))

/-- The calls of a session, the table of those under way, and the history. Besides it is counted
how often the body of a tool has succeeded since the last message of the user. -/
structure World (C ρ : Type) where
  phase : C → Option (Phase C ρ)
  promise : C → Promise (ToolExecutionResult ρ)
  inflightDedup : JsString → Option C
  explorationDepth : ℕ
  messages : List WithParts
  succeeded : ℕ

/-- What happens. A call is made; it goes on, since what it waited for has settled; the history is
read for it, or cannot be; a hook or the body of the tool ends or throws. The user sends a message,
and the history changes otherwise. -/
inductive Event (C ρ : Type)
  | call (c : C)
  | resume (c : C)
  | lookup (c : C) (ok : Bool)
  | before (c : C) (ok : Bool)
  | body (c : C) (result : Option (ToolExecutionResult ρ))
  | after (c : C) (ok : Bool)
  | userMessage (parts : List Part)
  | stored (messages : List WithParts)

variable (sessionID : JsString) (options : C → Options)

def key (c : C) : JsString := inflightKey numeral sessionID (options c).toolID (options c).args

/-! ### Steps -/

section Machine

variable [DecidableEq C]

namespace World

variable (w : World C ρ)

def enter (c : C) (phase : Phase C ρ) : World C ρ :=
  { w with phase := Function.update w.phase c (some phase) }

/-- A call is entered into the table, and the hook before the tool is called. -/
def register (c : C) : World C ρ :=
  { w with
    phase := Function.update w.phase c (some .beforeHook)
    inflightDedup := Function.update w.inflightDedup (key numeral sessionID options c) (some c) }

/-- A call ends: its promise is settled, and the entry is taken out of the table. -/
def finish (c : C) (result : Option (ToolExecutionResult ρ)) : World C ρ :=
  { w with
    phase := Function.update w.phase c (some (.settled result))
    promise := Function.update w.promise c (.settle result)
    inflightDedup := Function.update w.inflightDedup (key numeral sessionID options c) none }

def succeed (c : C) (result : ToolExecutionResult ρ) : World C ρ :=
  let toolKind := kind (options c).toolID
  let depth := tickExplorationDepth w.explorationDepth toolKind
  let postscript := explorationPostscript depth
  let result := if toolKind = .exploration ∧ postscript ≠ [] then
      { result with output := result.output ++ JsString.newline :: postscript }
    else result
  { w with
    phase := Function.update w.phase c (some (.afterHook result))
    explorationDepth := depth
    succeeded := w.succeeded + 1 }

def bodyEnds (c : C) : Option (ToolExecutionResult ρ) → World C ρ
  | some result => w.succeed options c result
  | none => w.finish numeral sessionID options c none

def execute (c : C) : World C ρ :=
  if isDedupEligible (options c).toolID then
    match w.inflightDedup (key numeral sessionID options c) with
    | some first => w.enter c (.inflight first)
    | none => w.enter c .lookup
  else w.register numeral sessionID options c

def resume (c : C) : World C ρ :=
  match w.phase c with
  | some (.inflight first) =>
    match w.promise first with
    | .pending => w
    | .fulfilled result => w.enter c (.settled (some (reuse (options c).toolID result)))
    | .rejected => w.enter c .lookup
  | some (.lookedUp (some dup)) =>
    w.enter c (.settled (some (reuseSibling (options c).toolID dup)))
  | some (.lookedUp none) => w.register numeral sessionID options c
  | _ => w

end World

/-- One thing happens; a call that is not at the place for it does not go on. -/
def step (w : World C ρ) : Event C ρ → World C ρ
  | .call c =>
    match w.phase c with
    | none => w.execute numeral sessionID options c
    | some _ => w
  | .resume c => w.resume numeral sessionID options c
  | .lookup c ok =>
    match w.phase c with
    | some .lookup => w.enter c (.lookedUp
        (if ok then findDuplicateSiblingInMessages numeral w.messages (options c) else none))
    | _ => w
  | .before c ok =>
    match w.phase c with
    | some .beforeHook => w.enter c (if ok then .body else .settled none)
    | _ => w
  | .body c result =>
    match w.phase c with
    | some .body => w.bodyEnds numeral sessionID options c result
    | _ => w
  | .after c ok =>
    match w.phase c with
    | some (.afterHook result) =>
      w.finish numeral sessionID options c (if ok then some result else none)
    | _ => w
  | .userMessage parts => { w with messages := w.messages ++ [⟨.user, parts⟩], succeeded := 0 }
  | .stored messages => { w with messages := messages }

def World.init (messages : List WithParts) : World C ρ where
  phase := fun _ => none
  promise := fun _ => .pending
  inflightDedup := fun _ => none
  explorationDepth := 0
  messages := messages
  succeeded := 0

section Fields

variable {numeral sessionID options} {w : World C ρ} {c d : C} {phase : Phase C ρ}
  {result : ToolExecutionResult ρ} {outcome : Option (ToolExecutionResult ρ)}

theorem phase_enter : (w.enter c phase).phase d = if d = c then some phase else w.phase d :=
  Function.update_apply ..

theorem phase_register : (w.register numeral sessionID options c).phase d =
    if d = c then some .beforeHook else w.phase d :=
  Function.update_apply ..

theorem phase_finish : (w.finish numeral sessionID options c outcome).phase d =
    if d = c then some (.settled outcome) else w.phase d :=
  Function.update_apply ..

theorem promise_finish : (w.finish numeral sessionID options c outcome).promise d =
    if d = c then .settle outcome else w.promise d :=
  Function.update_apply ..

theorem inflightDedup_register {k : JsString} (hkey : key numeral sessionID options c = k) :
    (w.register numeral sessionID options c).inflightDedup k = some c := by
  subst hkey
  exact Function.update_self ..

theorem inflightDedup_finish {k : JsString} (hkey : key numeral sessionID options c = k) :
    (w.finish numeral sessionID options c outcome).inflightDedup k = none := by
  subst hkey
  exact Function.update_self ..

theorem phase_succeed : ∃ last, ∀ d, (w.succeed options c result).phase d =
    if d = c then some (.afterHook last) else w.phase d :=
  ⟨_, fun _ => Function.update_apply ..⟩

end Fields

end Machine

/-! ### What is to hold -/

namespace Phase

/-- Whether a call is between its entry in the table and its end. -/
def isUnderWay : Phase C ρ → Bool
  | .beforeHook => true
  | .body => true
  | .afterHook _ => true
  | _ => false

def isSettled : Phase C ρ → Bool
  | .settled _ => true
  | _ => false

/-- Whether the lookup has found nothing, so that the call is entered next. -/
def isNew : Phase C ρ → Bool
  | .lookedUp none => true
  | _ => false

def isBeforeHook : Phase C ρ → Bool
  | .beforeHook => true
  | _ => false

def rank : Phase C ρ → ℕ
  | .inflight _ => 6
  | .lookup => 5
  | .lookedUp _ => 4
  | .beforeHook => 3
  | .body => 2
  | .afterHook _ => 1
  | .settled _ => 0

end Phase

namespace World

variable (w : World C ρ) (c : C)

def At (p : Phase C ρ → Bool) : Prop := (w.phase c).any p = true

instance At.instDecidable (p : Phase C ρ → Bool) : Decidable (w.At c p) :=
  inferInstanceAs (Decidable (_ = _))

def CanGoOn : Prop :=
  ∃ phase, w.phase c = some phase ∧ phase.isSettled = false ∧
    ∀ first, phase = .inflight first → w.promise first ≠ .pending

end World

/-- Each call stands where it stood, or has got further. -/
def Advances (w w' : World C ρ) : Prop :=
  ∀ c, w'.phase c = w.phase c ∨
    ∃ next, w'.phase c = some next ∧ ∀ phase, w.phase c = some phase → next.rank < phase.rank

theorem Advances.refl (w : World C ρ) : Advances w w := fun _ => Or.inl rfl

/-- Lookups, hooks and the bodies of tools settle, and what waits for them goes on. -/
def Fair (state : ℕ → World C ρ) : Prop :=
  ∀ c n, (state n).CanGoOn c → ∃ m, n ≤ m ∧ (state (m + 1)).phase c ≠ (state m).phase c

/-- **A tool is run once**: its body succeeds at most once between two messages of the user, every
call settles, and the entry of the table is gone when no call is in progress. -/
structure RunsOnce (key : JsString) (state : ℕ → World C ρ) : Prop where
  once : ∀ n, (state n).succeeded ≤ 1
  settles : Fair state → ∀ c n, (state n).phase c ≠ none →
    ∃ m, n ≤ m ∧ (state m).At c Phase.isSettled
  empty : ∀ n, (∀ c, (state n).phase c = none ∨ (state n).At c Phase.isSettled) →
    (state n).inflightDedup key = none

/-- **When a step goes well**: a call that was not found in the history is entered only if no other
one is in the table and none has succeeded, and the hook before the tool does not throw. -/
def Clear (w : World C ρ) : Event C ρ → Prop
  | .resume c => w.At c Phase.isNew →
      w.inflightDedup (key numeral sessionID options c) = none ∧ w.succeeded = 0
  | .before c ok => w.At c Phase.isBeforeHook → ok = true
  | _ => True

instance Clear.instDecidable (w : World C ρ) :
    (e : Event C ρ) → Decidable (Clear numeral sessionID options w e)
  | .resume _ => inferInstanceAs (Decidable (_ → _ = none ∧ _))
  | .before _ _ => inferInstanceAs (Decidable (_ → _))
  | .call _ => isTrue trivial
  | .lookup _ _ => isTrue trivial
  | .body _ _ => isTrue trivial
  | .after _ _ => isTrue trivial
  | .userMessage _ => isTrue trivial
  | .stored _ => isTrue trivial

/-! ### How far a call gets -/

section Advances

variable [DecidableEq C] {numeral sessionID options} {w w' : World C ρ} {c : C} {phase : Phase C ρ}

theorem Advances.of_update (hphase : w'.phase = Function.update w.phase c (some phase))
    (hrank : ∀ old, w.phase c = some old → phase.rank < old.rank) : Advances w w' := by
  intro d
  rw [hphase, Function.update_apply]
  split
  next hd =>
    subst hd
    exact Or.inr ⟨phase, rfl, hrank⟩
  next => exact Or.inl rfl

theorem advances_of_some {old : Phase C ρ} (h : w.phase c = some old)
    (hphase : w'.phase = Function.update w.phase c (some phase)) (hrank : phase.rank < old.rank) :
    Advances w w' :=
  Advances.of_update hphase fun other hother => by
    obtain rfl := Option.some.inj (h.symm.trans hother)
    exact hrank

theorem advances_execute (h : w.phase c = none) :
    Advances w (w.execute numeral sessionID options c) := by
  have hnone : ∀ (phase old : Phase C ρ), w.phase c = some old → phase.rank < old.rank := by
    intro phase old hold
    rw [h] at hold
    cases hold
  rw [World.execute]
  split
  next =>
    split
    next => exact Advances.of_update rfl (hnone _)
    next => exact Advances.of_update rfl (hnone _)
  next => exact Advances.of_update rfl (hnone _)

theorem advances_resume : Advances w (w.resume numeral sessionID options c) := by
  rw [World.resume]
  split
  next hphase =>
    split
    next => exact Advances.refl w
    next => exact advances_of_some hphase rfl (by simp [Phase.rank])
    next => exact advances_of_some hphase rfl (by simp [Phase.rank])
  next hphase => exact advances_of_some hphase rfl (by simp [Phase.rank])
  next hphase => exact advances_of_some hphase rfl (by simp [Phase.rank])
  next => exact Advances.refl w

/-- **A call never goes back.** -/
theorem advances_step (w : World C ρ) (e : Event C ρ) :
    Advances w (step numeral sessionID options w e) := by
  cases e with
  | call c =>
    rw [step]
    split
    next h => exact advances_execute h
    next => exact Advances.refl w
  | resume c => exact advances_resume
  | lookup c ok =>
    rw [step]
    split
    next h => exact advances_of_some h rfl (by simp [Phase.rank])
    next => exact Advances.refl w
  | before c ok =>
    rw [step]
    split
    next h =>
      cases ok with
      | true => exact advances_of_some h rfl (by simp [Phase.rank])
      | false => exact advances_of_some h rfl (by simp [Phase.rank])
    next => exact Advances.refl w
  | body c result =>
    rw [step]
    split
    next h =>
      cases result with
      | some result | none =>
        exact advances_of_some h rfl (by simp [Phase.rank])
    next => exact Advances.refl w
  | after c ok =>
    rw [step]
    split
    next h => exact advances_of_some h rfl (by simp [Phase.rank])
    next => exact Advances.refl w
  | userMessage => exact Advances.refl w
  | stored => exact Advances.refl w

end Advances

/-! ### The table -/

section Table

variable {w : World C ρ} {c : C} {phase : Phase C ρ} {k : JsString}

/-- **What holds along a run whose steps go well**: the table has the one call that is under way,
a call waits only for a promise that has settled or will be, and the body that is run is the first
one since the last message of the user. -/
structure Inv (k : JsString) (w : World C ρ) : Prop where
  registered : ∀ c, w.inflightDedup k = some c ↔ w.At c Phase.isUnderWay
  waiting : ∀ c first, w.phase c = some (.inflight first) →
    w.promise first ≠ .pending ∨ w.At first Phase.isUnderWay
  once : w.succeeded ≤ 1
  first : ∀ c, w.phase c = some .beforeHook ∨ w.phase c = some .body → w.succeeded = 0

theorem inv_init (k : JsString) (messages : List WithParts) :
    Inv k (World.init messages : World C ρ) where
  registered _ := iff_of_false (by rintro ⟨⟩) (by rintro ⟨⟩)
  waiting _ _ h := by cases h
  once := Nat.zero_le 1
  first _ h := by rcases h with h | h <;> cases h

theorem Inv.underWay_unique (h : Inv k w) {d : C} (hc : w.At c Phase.isUnderWay)
    (hd : w.At d Phase.isUnderWay) : d = c :=
  Option.some.inj (((h.registered d).mpr hd).symm.trans ((h.registered c).mpr hc))

theorem at_of_phase {p : Phase C ρ → Bool} (h : w.phase c = some phase) :
    w.At c p ↔ p phase = true := by
  rw [World.At, h, Option.any_some]

theorem exists_of_at {p : Phase C ρ → Bool} (h : w.At c p) :
    ∃ phase, w.phase c = some phase ∧ p phase = true :=
  (Option.any_eq_true p _).mp h

theorem underWay_of_running (h : w.phase c = some .beforeHook ∨ w.phase c = some .body) :
    w.At c Phase.isUnderWay := by
  rcases h with h | h
  · exact (at_of_phase h).mpr rfl
  · exact (at_of_phase h).mpr rfl

variable [DecidableEq C] {numeral sessionID options}

/-- **A call that gets to a phase that is like the one before for the table.** -/
theorem Inv.enter (h : Inv k w) (hsame : (w.phase c).any Phase.isUnderWay = phase.isUnderWay)
    (hwaits : ∀ first, phase = .inflight first → w.inflightDedup k = some first)
    (hfirst : phase = .beforeHook ∨ phase = .body → w.succeeded = 0) :
    Inv k (w.enter c phase) := by
  have hat : ∀ d, (w.enter c phase).At d Phase.isUnderWay ↔ w.At d Phase.isUnderWay := by
    intro d
    rw [World.At, World.At, phase_enter]
    split
    next hd => rw [hd, hsame, Option.any_some]
    next => rfl
  refine ⟨fun d => (h.registered d).trans (hat d).symm, fun d first hd => ?_, h.once,
    fun d hd => ?_⟩
  · rw [hat]
    rw [phase_enter] at hd
    split at hd
    next =>
      obtain rfl := Option.some.inj hd
      exact Or.inr ((h.registered first).mp (hwaits first rfl))
    next => exact h.waiting d first hd
  · rw [phase_enter] at hd
    split at hd
    next =>
      rw [Option.some_inj, Option.some_inj] at hd
      exact hfirst hd
    next => exact h.first d hd

theorem Inv.register (h : Inv k w) (hkey : key numeral sessionID options c = k)
    (hempty : w.inflightDedup k = none) (hzero : w.succeeded = 0) :
    Inv k (w.register numeral sessionID options c) := by
  have hnone : ∀ d, ¬w.At d Phase.isUnderWay := by
    intro d hd
    rw [(h.registered d).mpr hd] at hempty
    cases hempty
  have hat : ∀ d, (w.register numeral sessionID options c).At d Phase.isUnderWay ↔ d = c := by
    intro d
    rw [World.At, phase_register]
    split
    next hd => exact iff_of_true rfl hd
    next hd => exact iff_of_false (hnone d) hd
  refine ⟨fun d => ?_, fun d first hd => ?_, h.once, fun _ _ => hzero⟩
  · rw [hat, inflightDedup_register hkey, Option.some_inj]
    exact eq_comm
  · rw [phase_register] at hd
    split at hd
    next => cases hd
    next => exact Or.inl ((h.waiting d first hd).resolve_right (hnone first))

theorem Inv.succeed (h : Inv k w) (hphase : w.phase c = some .body)
    (result : ToolExecutionResult ρ) : Inv k (w.succeed options c result) := by
  have hunder : w.At c Phase.isUnderWay := underWay_of_running (Or.inr hphase)
  have hzero := h.first c (Or.inr hphase)
  have hsucceed : ∃ last, ∀ d, (w.succeed options c result).phase d =
      if d = c then some (.afterHook last) else w.phase d := phase_succeed
  obtain ⟨last, hlast⟩ := hsucceed
  have hat : ∀ d, (w.succeed options c result).At d Phase.isUnderWay ↔
      w.At d Phase.isUnderWay := by
    intro d
    rw [World.At, hlast]
    split
    next hd => exact iff_of_true rfl (hd ▸ hunder)
    next => rfl
  refine ⟨fun d => (h.registered d).trans (hat d).symm, fun d first hd => ?_, ?_, fun d hd => ?_⟩
  · rw [hat]
    rw [hlast] at hd
    split at hd
    next => cases hd
    next => exact h.waiting d first hd
  · change w.succeeded + 1 ≤ 1
    omega
  · rw [hlast] at hd
    split at hd
    next => rcases hd with hd | hd <;> cases hd
    next hne => exact absurd (h.underWay_unique hunder (underWay_of_running hd)) hne

theorem Inv.finish (h : Inv k w) (hkey : key numeral sessionID options c = k)
    (hunder : w.At c Phase.isUnderWay) (outcome : Option (ToolExecutionResult ρ)) :
    Inv k (w.finish numeral sessionID options c outcome) := by
  have hat : ∀ d, ¬(w.finish numeral sessionID options c outcome).At d Phase.isUnderWay := by
    intro d
    rw [World.At, phase_finish]
    split
    next => rintro ⟨⟩
    next hne => exact fun hd => hne (h.underWay_unique hunder hd)
  refine ⟨fun d => ?_, fun d first hd => Or.inl ?_, h.once,
    fun d hd => absurd (underWay_of_running hd) (hat d)⟩
  · refine iff_of_false ?_ (hat d)
    rw [inflightDedup_finish hkey]
    rintro ⟨⟩
  · rw [phase_finish] at hd
    split at hd
    next => cases hd
    next =>
      rw [promise_finish]
      split
      next => cases outcome <;> rintro ⟨⟩
      next hne =>
        refine (h.waiting d first hd).resolve_right fun hfirst => ?_
        exact hne (h.underWay_unique hunder hfirst)

variable (hkey : ∀ c, key numeral sessionID options c = k)

include hkey

theorem Inv.resume (h : Inv k w)
    (hclear : w.At c Phase.isNew → w.inflightDedup k = none ∧ w.succeeded = 0) :
    Inv k (w.resume numeral sessionID options c) := by
  rw [World.resume]
  split
  next first hphase =>
    split
    next => exact h
    next =>
      refine h.enter ?_ (by rintro _ ⟨⟩) (by rintro (h | h) <;> cases h)
      rw [hphase]
      rfl
    next =>
      refine h.enter ?_ (by rintro _ ⟨⟩) (by rintro (h | h) <;> cases h)
      rw [hphase]
      rfl
  next dup hphase =>
    refine h.enter ?_ (by rintro _ ⟨⟩) (by rintro (h | h) <;> cases h)
    rw [hphase]
    rfl
  next hphase =>
    obtain ⟨hempty, hzero⟩ := hclear ((at_of_phase hphase).mpr rfl)
    exact h.register (hkey c) hempty hzero
  next => exact h

variable (heligible : ∀ c, isDedupEligible (options c).toolID = true)

include heligible

theorem Inv.execute (h : Inv k w) (hphase : w.phase c = none) :
    Inv k (w.execute numeral sessionID options c) := by
  rw [World.execute, if_pos (heligible c), hkey]
  split
  next first htable =>
    refine h.enter ?_ (fun other hother => ?_) (by rintro (h | h) <;> cases h)
    · rw [hphase]
      rfl
    · cases hother
      exact htable
  next =>
    refine h.enter ?_ (by rintro _ ⟨⟩) (by rintro (h | h) <;> cases h)
    rw [hphase]
    rfl

/-- **One step that goes well keeps the invariant.** -/
theorem Inv.step (h : Inv k w) (e : Event C ρ) (hclear : Clear numeral sessionID options w e) :
    Inv k (step numeral sessionID options w e) := by
  cases e with
  | call c =>
    rw [ToolInvoker.step]
    split
    next hphase => exact h.execute hkey heligible hphase
    next => exact h
  | resume c =>
    refine h.resume hkey fun hnew => ?_
    rw [← hkey c]
    exact hclear hnew
  | lookup c ok =>
    rw [ToolInvoker.step]
    split
    next hphase =>
      refine h.enter ?_ (by rintro _ ⟨⟩) (by rintro (h | h) <;> cases h)
      rw [hphase]
      rfl
    next => exact h
  | before c ok =>
    rw [ToolInvoker.step]
    split
    next hphase =>
      obtain rfl : ok = true := hclear ((at_of_phase hphase).mpr rfl)
      refine h.enter ?_ (by rintro _ ⟨⟩) fun _ => h.first c (Or.inl hphase)
      rw [hphase]
      rfl
    next => exact h
  | body c result =>
    rw [ToolInvoker.step]
    split
    next hphase =>
      cases result with
      | some result => exact h.succeed hphase result
      | none => exact h.finish (hkey c) (underWay_of_running (Or.inr hphase)) none
    next => exact h
  | after c ok =>
    rw [ToolInvoker.step]
    split
    next hphase => exact h.finish (hkey c) ((at_of_phase hphase).mpr rfl) _
    next => exact h
  | userMessage parts => exact ⟨h.registered, h.waiting, Nat.zero_le 1, fun _ _ => rfl⟩
  | stored messages => exact ⟨h.registered, h.waiting, h.once, h.first⟩

end Table

/-! ### Every call settles -/

section Settles

variable {state : ℕ → World C ρ} {k : JsString} {c : C} {n : ℕ} {phase : Phase C ρ}
  (hadvances : ∀ n, Advances (state n) (state (n + 1))) (hfair : Fair state)

include hadvances

theorem phase_later {m : ℕ} (hle : n ≤ m) (h : (state n).phase c = some phase) :
    (state m).phase c = some phase ∨
      ∃ next, (state m).phase c = some next ∧ next.rank < phase.rank := by
  induction m, hle using Nat.le_induction with
  | base => exact Or.inl h
  | succ m _ ih =>
    rcases hadvances m c with hsame | ⟨next, hnext, hlt⟩
    · rwa [hsame]
    · refine Or.inr ⟨next, hnext, ?_⟩
      rcases ih with hphase | ⟨last, hlast, hlt'⟩
      · exact hlt _ hphase
      · exact (hlt _ hlast).trans hlt'

include hfair

theorem goes_on (hcan : (state n).CanGoOn c) (h : (state n).phase c = some phase) :
    ∃ m, n ≤ m ∧ ∃ next, (state m).phase c = some next ∧ next.rank < phase.rank := by
  obtain ⟨m, hle, hchanges⟩ := hfair c n hcan
  refine ⟨m + 1, hle.trans (Nat.le_succ m), ?_⟩
  obtain ⟨next, hnext, hlt⟩ := (hadvances m c).resolve_left hchanges
  refine ⟨next, hnext, ?_⟩
  rcases phase_later hadvances hle h with hphase | ⟨last, hlast, hlt'⟩
  · exact hlt _ hphase
  · exact (hlt _ hlast).trans hlt'

theorem settles_of_rank (h : (state n).phase c = some phase) (hrank : phase.rank < 6) :
    ∃ m, n ≤ m ∧ (state m).At c Phase.isSettled := by
  refine eventually_of_decreasing
    (P := fun w : World C ρ => ∃ phase, w.phase c = some phase ∧ phase.rank < 6)
    (Q := fun w : World C ρ => w.At c Phase.isSettled)
    (fun w : World C ρ => (w.phase c).elim 0 Phase.rank) (fun n hn => ?_) n ⟨phase, h, hrank⟩
  obtain ⟨phase, h, hrank⟩ := hn
  cases hsettled : phase.isSettled with
  | true => exact Or.inl ((at_of_phase h).mpr hsettled)
  | false =>
    refine Or.inr ?_
    have hcan : (state n).CanGoOn c := by
      refine ⟨phase, h, hsettled, fun first hfirst => ?_⟩
      rw [hfirst] at hrank
      exact absurd hrank (lt_irrefl 6)
    obtain ⟨m, hle, next, hnext, hlt⟩ := goes_on hadvances hfair hcan h
    refine ⟨m, hle, ⟨next, hnext, hlt.trans hrank⟩, ?_⟩
    rw [hnext, h]
    exact hlt

/-- **A call that waits for the one that is in the table settles**, since that one does. -/
theorem settles_of_inv (hinv : ∀ n, Inv k (state n)) (h : (state n).phase c ≠ none) :
    ∃ m, n ≤ m ∧ (state m).At c Phase.isSettled := by
  obtain ⟨phase, hphase⟩ := Option.ne_none_iff_exists'.mp h
  have hlater : ∀ m, n ≤ m → ∀ next, (state m).phase c = some next → next.rank < 6 →
      ∃ m, n ≤ m ∧ (state m).At c Phase.isSettled := by
    intro m hle next hnext hrank
    obtain ⟨m', hle', hsettled⟩ := settles_of_rank hadvances hfair hnext hrank
    exact ⟨m', hle.trans hle', hsettled⟩
  have hwoken : ∀ m first, n ≤ m → (state m).phase c = some (.inflight first) →
      (state m).promise first ≠ .pending → ∃ m, n ≤ m ∧ (state m).At c Phase.isSettled := by
    intro m first hle hwaits hpromise
    have hcan : (state m).CanGoOn c := by
      refine ⟨_, hwaits, rfl, fun other hother => ?_⟩
      cases hother
      exact hpromise
    obtain ⟨m', hle', next, hnext, hlt⟩ := goes_on hadvances hfair hcan hwaits
    exact hlater m' (hle.trans hle') next hnext hlt
  by_cases hrank : phase.rank < 6
  · exact hlater n le_rfl phase hphase hrank
  · obtain ⟨first, rfl⟩ : ∃ first, phase = .inflight first := by
      cases phase <;> simp [Phase.rank] at hrank ⊢
    rcases (hinv n).waiting c first hphase with hpromise | hunder
    · exact hwoken n first le_rfl hphase hpromise
    · -- The first call settles, and then its promise has.
      obtain ⟨place, hplace, hunder⟩ := exists_of_at hunder
      have hfirst : place.rank < 6 := by
        cases place <;> simp [Phase.rank] at hunder ⊢
        cases hunder
      obtain ⟨m, hle, hsettled⟩ := settles_of_rank hadvances hfair hplace hfirst
      rcases phase_later hadvances hle hphase with hwaits | ⟨next, hnext, hlt⟩
      · refine hwoken m first hle hwaits (((hinv m).waiting c first hwaits).resolve_right ?_)
        obtain ⟨last, hlast, hlastSettled⟩ := exists_of_at hsettled
        intro hnot
        obtain hlastUnder := (at_of_phase hlast).mp hnot
        cases last <;> simp [Phase.isSettled, Phase.isUnderWay] at hlastSettled hlastUnder
      · exact hlater m hle next hnext hlt

end Settles

/-! ### Runs -/

section Runs

variable [DecidableEq C] {toolID : JsString} {sig : Option JsString}

/-- **A tool is run once if every step goes well**, for the calls of one tool that is eligible,
with arguments that are the same when normalised. -/
theorem runs_once (hcalls : ∀ c, (options c).toolID = toolID ∧
      signature numeral toolID (options c).args = sig)
    (heligible : isDedupEligible toolID = true) (messages : List WithParts)
    (events : ℕ → Event C ρ)
    (hclear : ∀ n, Clear numeral sessionID options
      (trace (step numeral sessionID options) (World.init messages) events n) (events n)) :
    RunsOnce (sessionID ++ 0 :: toolID ++ 0 :: sig.getD (js "undefined"))
      (trace (step numeral sessionID options) (World.init messages) events) := by
  have hkey : ∀ c, key numeral sessionID options c =
      sessionID ++ 0 :: toolID ++ 0 :: sig.getD (js "undefined") := by
    intro c
    rw [key, inflightKey, (hcalls c).1, (hcalls c).2]
  have helig : ∀ c, isDedupEligible (options c).toolID = true := by
    intro c
    rw [(hcalls c).1]
    exact heligible
  have hinv := trace_invariant (Inv (sessionID ++ 0 :: toolID ++ 0 :: sig.getD (js "undefined")))
    hclear (inv_init _ messages) fun w e h hok => h.step hkey helig e hok
  refine ⟨fun n => (hinv n).once, fun hfair c n h => ?_, fun n h => ?_⟩
  · exact settles_of_inv (fun n => advances_step _ _) hfair hinv h
  · rw [Option.eq_none_iff_forall_ne_some]
    intro c hc
    obtain ⟨phase, hphase, hunder⟩ := exists_of_at (((hinv n).registered c).mp hc)
    rcases h c with hnone | hsettled
    · rw [hphase] at hnone
      cases hnone
    · have hsettled' := (at_of_phase hphase).mp hsettled
      cases phase <;> simp [Phase.isSettled, Phase.isUnderWay] at hsettled' hunder

end Runs

/-! ### Two calls -/

def exampleOptions (c : Bool) : Options where
  toolID := js "apply_patch"
  args := .obj [(if c then js "input" else js "patchText", .str (js "p"))]
  callID := if c then js "call_a" else js "call_b"

def exampleResult : ToolExecutionResult Unit := ⟨js "patch", js "done", .tool ()⟩

def exampleHistory : List WithParts :=
  [⟨.user, []⟩, ⟨.assistant, [.tool ⟨js "call_a", js "apply_patch", .completed,
    .obj [(js "input", .str (js "p"))], some (js "done")⟩]⟩]

/-- The second call comes while the first one is under way, waits for it, and takes its result; a
third one would find it in the history. -/
theorem runs_once_waiting :
    RunsOnce (js "ses_a" ++ 0 :: js "apply_patch" ++ 0 ::
        (signature (fun _ => []) (js "apply_patch") (exampleOptions true).args).getD
          (js "undefined"))
      (trace (step (fun _ => []) (js "ses_a") exampleOptions) (World.init [⟨.user, []⟩])
        (followedBy [.call true, .lookup true true, .resume true, .before true true, .call false,
          .body true (some exampleResult), .after true true, .resume false,
          .stored exampleHistory] (.stored exampleHistory))) := by
  refine runs_once (fun _ => []) (js "ses_a") exampleOptions (fun c => ?_) (by decide +kernel)
    [⟨.user, []⟩] _ (Meets.followedBy (by decide +kernel) fun _ => trivial)
  cases c
  · exact ⟨rfl, by decide⟩
  · exact ⟨rfl, rfl⟩

/-- **Two calls that come at once both run the tool**, since both look into the table before one of
them is entered. -/
theorem not_runs_once_parallel :
    ¬RunsOnce (js "ses_a" ++ 0 :: js "apply_patch" ++ 0 ::
        (signature (fun _ => []) (js "apply_patch") (exampleOptions true).args).getD
          (js "undefined"))
      (trace (step (fun _ => []) (js "ses_a") exampleOptions) (World.init [⟨.user, []⟩])
        (followedBy [.call true, .call false, .lookup true true, .lookup false true, .resume true,
          .resume false, .before true true, .before false true, .body true (some exampleResult),
          .body false (some exampleResult)] (.stored exampleHistory))) := by
  intro h
  have hle := h.once 10
  revert hle
  decide

end OpenCms.ToolInvoker
