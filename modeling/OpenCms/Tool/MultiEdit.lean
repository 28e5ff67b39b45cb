import OpenCms.Tool.Replace

/-!
# Many edits of one file

`multiedit` makes its edits one after the other, each on what the ones before it have left, and
each is written before the next is looked at. It is meant that either all succeed or none are
applied; and an edit that fails leaves the file as it finds it, but those before it have been
written.

So the tool is all or nothing exactly if, whenever an edit is refused, or has no place in what the
replacements before it make of the file, these replacements undo one another
(`OpenCms.MultiEdit.edits_allOrNothing_iff`).
-/

namespace OpenCms

open JsString

/-! ### One edit -/

namespace EditTool

/-- How the bytes of a file are read as a text, and how a text is written: not every file is read
as what is written back to the same bytes, and half a surrogate pair has no bytes. -/
structure Codec where
  decode : List UInt8 → JsString
  encode : JsString → List UInt8

inductive Entry
  | missing
  | directory
  | file (content : List UInt8)
  deriving DecidableEq

/-- The parameters of an edit but for the place of the file. -/
structure Params where
  oldString : JsString
  newString : JsString
  replaceAll : Bool

/-- What the session has for an edit: whether a place outside of the project may be touched
(`assertExternalDirectory`), whether what was read of the file is still what is there
(`FileTime.assert`), and whether the edit is approved (`ctx.ask`). -/
structure Session where
  external : Bool
  read : Bool
  approve : Bool

variable (codec : Codec)

/-- `execute`, and what is at the place afterwards. -/
def execute (filePath : JsString) (params : Params) (session : Session) (entry : Entry) :
    Except Edit.EditError Entry :=
  if filePath = [] then .error .noPath
  else if params.oldString = params.newString then .error .identical
  else if ¬session.external then .error .external
  else if params.oldString = [] then
    -- whatever is there, the file is made new
    if ¬session.approve then .error .rejected
    else if entry = .directory then .error .isDirectory
    else .ok (.file (codec.encode params.newString))
  else
    match entry with
    | .missing => .error .notFound
    | .directory => .error .isDirectory
    | .file content =>
      if ¬session.read then .error .notRead
      else
        match Edit.replace (codec.decode content) params.oldString params.newString
            params.replaceAll with
        | .error e => .error e
        | .ok contentNew =>
          if ¬session.approve then .error .rejected else .ok (.file (codec.encode contentNew))

end EditTool

/-! ### Many edits -/

namespace MultiEdit

open EditTool

/-- An edit of many, with what the session has for it when its turn comes. -/
structure Turn where
  edit : Params
  session : Session

variable (codec : Codec)

/-- The edits one after the other: the error, if one fails, and what is at the place then. -/
def executeEdits (filePath : JsString) : List Turn → Entry → Option Edit.EditError × Entry
  | [], entry => (none, entry)
  | turn :: turns, entry =>
    match EditTool.execute codec filePath turn.edit turn.session entry with
    | .error e => (some e, entry)
    | .ok entry => executeEdits filePath turns entry

def execute (filePath : JsString) (turns : List Turn) (entry : Entry) :
    Option Edit.EditError × Entry :=
  let (error, entry) := executeEdits codec filePath turns entry
  if error = none ∧ turns = [] then (some .noEdits, entry) else (error, entry)

/-! ### The replacements -/

/-- What an edit is made on. There is nothing yet if there is no file. -/
def bytes : Entry → List UInt8
  | .file content => content
  | _ => []

/-- The replacement that an edit is. Where `oldString` is empty it is the new text of the file: an
empty text is never looked for. -/
def replacement (content : List UInt8) (edit : Params) :
    Except Edit.EditError (List UInt8) :=
  if edit.oldString = [] then .ok (codec.encode edit.newString)
  else (Edit.replace (codec.decode content) edit.oldString edit.newString edit.replaceAll).map
    codec.encode

/-- The tool is **all or nothing** when it leaves what was there if it throws, and what the
replacements make of it, in their order, if it returns. -/
def AllOrNothing (filePath : JsString) (turns : List Turn) (entry : Entry) : Prop :=
  match execute codec filePath turns entry with
  | (some _, after) => after = entry
  | (none, after) => ∃ content, after = .file content ∧
      (turns.map Turn.edit).foldlM (replacement codec) (bytes entry) = .ok content

/-- An edit that may be made, wherever its text is. -/
def Turn.Allowed (turn : Turn) : Prop :=
  turn.edit.oldString ≠ turn.edit.newString ∧ turn.session.external ∧ turn.session.approve ∧
    (turn.edit.oldString ≠ [] → turn.session.read)

/-- There is something an edit can be made on: a file, or nothing, if it makes a new one. -/
def Begins (turn : Turn) : Entry → Prop
  | .missing => turn.edit.oldString = []
  | .directory => False
  | .file _ => True

/-- If edits are all allowed, and what the replacements make of the file has no place for the next
one, or this one is not allowed, the replacements have **undone** one another. -/
def Undone (filePath : JsString) (turns : List Turn) (entry : Entry) : Prop :=
  ∀ first before turn rest content, turns = first :: before ++ turn :: rest →
    filePath ≠ [] → Begins first entry → (∀ t ∈ first :: before, t.Allowed) →
    ((first :: before).map Turn.edit).foldlM (replacement codec) (bytes entry) = .ok content →
    (turn.Allowed → ∃ e, replacement codec content turn.edit = .error e) →
    entry = .file content

def executeAll (filePath : JsString) (turns : List Turn) (entry : Entry) :
    Except Edit.EditError Entry :=
  turns.foldlM (fun entry turn => EditTool.execute codec filePath turn.edit turn.session entry)
    entry

variable {codec} {filePath : JsString} {turn : Turn} {turns : List Turn}
  {entry entry' after : Entry}

theorem executeAll_cons :
    executeAll codec filePath (turn :: turns) entry =
      (EditTool.execute codec filePath turn.edit turn.session entry).bind
        (executeAll codec filePath turns) := List.foldlM_cons

/-- **An edit succeeds** if it is allowed and its text has a place, and it leaves its
replacement. -/
theorem execute_eq_ok :
    EditTool.execute codec filePath turn.edit turn.session entry = .ok after ↔
      filePath ≠ [] ∧ turn.Allowed ∧ Begins turn entry ∧
        ∃ content, after = .file content ∧
          replacement codec (bytes entry) turn.edit = .ok content := by
  unfold EditTool.execute Turn.Allowed replacement
  by_cases hpath : filePath = []
  · simp [hpath]
  by_cases hsame : turn.edit.oldString = turn.edit.newString
  · simp [hpath, hsame]
  by_cases hexternal : turn.session.external
  swap
  · simp [hpath, hsame, hexternal]
  by_cases hempty : turn.edit.oldString = []
  · rw [hempty] at hsame
    cases entry <;> cases turn.session.approve <;>
      simp [hpath, hsame, hexternal, hempty, Begins, @eq_comm _ after]
  · cases entry with
    | missing | directory => simp [hpath, hsame, hexternal, hempty, Begins]
    | file content =>
      cases hreplace : Edit.replace (codec.decode content) turn.edit.oldString
          turn.edit.newString turn.edit.replaceAll <;>
        cases turn.session.read <;> cases turn.session.approve <;>
        simp [hpath, hsame, hexternal, hempty, Begins, bytes, hreplace, Except.map,
          @eq_comm _ after]

/-- **Edits that all succeed** are allowed, and leave what the replacements make of the file. -/
theorem executeAll_eq_ok :
    executeAll codec filePath (turn :: turns) entry = .ok after ↔
      filePath ≠ [] ∧ Begins turn entry ∧ (∀ t ∈ turn :: turns, t.Allowed) ∧
        ∃ content, after = .file content ∧
          ((turn :: turns).map Turn.edit).foldlM (replacement codec) (bytes entry) =
            .ok content := by
  induction turns generalizing turn entry with
  | nil =>
    have hlast : executeAll codec filePath [turn] entry =
        EditTool.execute codec filePath turn.edit turn.session entry := by
      rw [executeAll_cons]
      cases EditTool.execute codec filePath turn.edit turn.session entry <;> rfl
    have hfold : ([turn].map Turn.edit).foldlM (replacement codec) (bytes entry) =
        replacement codec (bytes entry) turn.edit := by
      rw [List.map_singleton, List.foldlM_cons]
      cases replacement codec (bytes entry) turn.edit <;> rfl
    rw [hlast, execute_eq_ok, hfold]
    simp only [List.mem_singleton, forall_eq]
    tauto
  | cons next turns ih =>
    rw [executeAll_cons]
    constructor
    · intro h
      cases hturn : EditTool.execute codec filePath turn.edit turn.session entry with
      | error e =>
        rw [hturn] at h
        cases h
      | ok between =>
        rw [hturn] at h
        obtain ⟨hpath, hallowed, hbegins, content, rfl, hcontent⟩ := execute_eq_ok.mp hturn
        obtain ⟨-, -, hrest, last, rfl, hfold⟩ := ih.mp h
        refine ⟨hpath, hbegins, List.forall_mem_cons.mpr ⟨hallowed, hrest⟩, last, rfl, ?_⟩
        rw [List.map_cons, List.foldlM_cons, hcontent]
        exact hfold
    · rintro ⟨hpath, hbegins, hallowed, last, rfl, hfold⟩
      rw [List.map_cons, List.foldlM_cons] at hfold
      obtain ⟨hturn, hrest⟩ := List.forall_mem_cons.mp hallowed
      cases hcontent : replacement codec (bytes entry) turn.edit with
      | error e =>
        rw [hcontent] at hfold
        cases hfold
      | ok content =>
        rw [hcontent] at hfold
        rw [execute_eq_ok.mpr ⟨hpath, hturn, hbegins, content, rfl, hcontent⟩]
        exact ih.mpr ⟨hpath, trivial, hrest, last, rfl, hfold⟩

/-- **The edits all succeed, or one fails** where those before it have left the file. -/
theorem executeEdits_cases (codec : Codec) (filePath : JsString) (turns : List Turn) (entry : Entry) :
    (∃ after, executeAll codec filePath turns entry = .ok after ∧
      executeEdits codec filePath turns entry = (none, after)) ∨
    ∃ before turn rest between e, turns = before ++ turn :: rest ∧
      executeAll codec filePath before entry = .ok between ∧
      EditTool.execute codec filePath turn.edit turn.session between = .error e ∧
      executeEdits codec filePath turns entry = (some e, between) := by
  induction turns generalizing entry with
  | nil => exact Or.inl ⟨entry, rfl, rfl⟩
  | cons turn turns ih =>
    unfold executeEdits
    cases hturn : EditTool.execute codec filePath turn.edit turn.session entry with
    | error e => exact Or.inr ⟨[], turn, turns, entry, e, rfl, rfl, hturn, rfl⟩
    | ok next =>
      rcases ih next with
        ⟨after, hall, heq⟩ | ⟨before, turn', rest, between, e, rfl, hall, herr, heq⟩
      · refine Or.inl ⟨after, ?_, heq⟩
        rw [executeAll_cons, hturn]
        exact hall
      · refine Or.inr ⟨turn :: before, turn', rest, between, e, rfl, ?_, herr, heq⟩
        rw [executeAll_cons, hturn]
        exact hall

theorem executeEdits_of_error {before rest : List Turn} {between : Entry} {e : Edit.EditError}
    (hall : executeAll codec filePath before entry = .ok between)
    (herr : EditTool.execute codec filePath turn.edit turn.session between = .error e) :
    executeEdits codec filePath (before ++ turn :: rest) entry = (some e, between) := by
  induction before generalizing entry with
  | nil =>
    obtain rfl := Except.ok.inj hall
    rw [List.nil_append, executeEdits, herr]
  | cons first before ih =>
    rw [executeAll_cons] at hall
    rw [List.cons_append, executeEdits]
    cases hfirst : EditTool.execute codec filePath first.edit first.session entry with
    | error e =>
      rw [hfirst] at hall
      cases hall
    | ok next =>
      rw [hfirst] at hall
      exact ih hall

/-- An edit that is not allowed, or whose text has no place, fails. -/
theorem execute_error {content : List UInt8}
    (h : turn.Allowed → ∃ e, replacement codec content turn.edit = .error e) :
    ∃ e, EditTool.execute codec filePath turn.edit turn.session (.file content) = .error e := by
  cases hturn : EditTool.execute codec filePath turn.edit turn.session (.file content) with
  | error e => exact ⟨e, rfl⟩
  | ok after =>
    obtain ⟨-, hallowed, -, last, -, hlast⟩ := execute_eq_ok.mp hturn
    obtain ⟨e, he⟩ := h hallowed
    rw [bytes, he] at hlast
    cases hlast

/-- **Many edits are all or nothing exactly if, whenever one is refused or has no place, the
replacements before it undo one another.** -/
theorem edits_allOrNothing_iff (codec : Codec) (filePath : JsString) (turns : List Turn)
    (entry : Entry) :
    AllOrNothing codec filePath turns entry ↔ Undone codec filePath turns entry := by
  unfold AllOrNothing execute
  constructor
  · rintro h first before turn rest content rfl hpath hbegins hallowed hfold herr
    have hall : executeAll codec filePath (first :: before) entry = .ok (.file content) :=
      executeAll_eq_ok.mpr ⟨hpath, hbegins, hallowed, content, rfl, hfold⟩
    obtain ⟨e, herr⟩ : ∃ e, EditTool.execute codec filePath turn.edit turn.session
        (.file content) = .error e := execute_error herr
    rw [executeEdits_of_error hall herr] at h
    simpa using h.symm
  · intro h
    rcases executeEdits_cases codec filePath turns entry with
      ⟨after, hall, heq⟩ | ⟨before, turn, rest, between, e, rfl, hall, herr, heq⟩
    · rw [heq]
      dsimp only
      cases turns with
      | nil =>
        obtain rfl := Except.ok.inj hall
        rw [if_pos ⟨rfl, rfl⟩]
      | cons turn turns =>
        obtain ⟨-, -, -, hleft⟩ := executeAll_eq_ok.mp hall
        exact hleft
    · rw [heq]
      dsimp only
      rw [if_neg fun hnone => Option.some_ne_none _ hnone.1]
      cases before with
      | nil => exact (Except.ok.inj hall).symm
      | cons first before =>
        obtain ⟨hpath, hbegins, hallowed, content, rfl, hfold⟩ := executeAll_eq_ok.mp hall
        refine (h first before turn rest content rfl hpath hbegins hallowed hfold ?_).symm
        intro hturn
        cases hlast : replacement codec content turn.edit with
        | error e => exact ⟨e, rfl⟩
        | ok last =>
          rw [execute_eq_ok.mpr ⟨hpath, hturn, show Begins turn (.file content) from trivial, last,
            rfl, hlast⟩] at herr
          cases herr

/-- Files of plain characters: a byte is a code unit. -/
def ascii : Codec where
  decode content := content.map fun b => b.toNat.toUInt16
  encode text := text.map fun c => c.toNat.toUInt8

/-- An edit that is made, and after it one whose text is not there. -/
theorem not_edits_allOrNothing :
    ¬∀ turns : List Turn, AllOrNothing ascii (js "f") turns (.file (ascii.encode (js "ab"))) := by
  intro h
  have hfile := h [⟨⟨js "a", js "x", false⟩, ⟨true, true, true⟩⟩,
    ⟨⟨js "c", js "y", false⟩, ⟨true, true, true⟩⟩]
  have hrun : execute ascii (js "f") [⟨⟨js "a", js "x", false⟩, ⟨true, true, true⟩⟩,
      ⟨⟨js "c", js "y", false⟩, ⟨true, true, true⟩⟩] (.file (ascii.encode (js "ab"))) =
        (some .noMatch, .file (ascii.encode (js "xb"))) := by decide
  unfold AllOrNothing at hfile
  rw [hrun] at hfile
  revert hfile
  decide

end MultiEdit

end OpenCms
