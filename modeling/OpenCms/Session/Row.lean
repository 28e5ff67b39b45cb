import OpenCms.Lib.Stringify

/-!
# A message as a row

A message is kept as a row of a table. Its promoted fields have columns of their own; what is left
of it is written as JSON into one column more. Reading a row puts the two together again.

Some columns are read by their truth: an empty text and a `false` come back as nothing, and the sum
of the tokens comes back for a message that had none. This is all that is lost
(`OpenCms.SqliteStore.roundTrips_iff`).
-/

namespace OpenCms.SqliteStore

open JsValue

abbrev Value : Type := JsValue String String

abbrev Record : Type := JsMembers String String

abbrev Text : Type := List (String × Json String String)

/-! ### Messages -/

/-- What is left of an object without certain fields. -/
structure Rest (promoted : List String) where
  members : Record
  apart : ∀ kv ∈ members, kv.1 ∉ promoted

def Rest.spread (promoted : List String) (extra : Record) : Rest promoted where
  members := extra.filter fun kv => kv.1 ∉ promoted
  apart kv h := by simpa using (List.mem_filter.mp h).2

def userFields : List String := ["id", "sessionID", "role", "time", "agent", "model"]

def assistantFields : List String :=
  ["id", "sessionID", "role", "time", "parentID", "modelID", "providerId", "accountId", "mode",
    "agent", "finish", "tokens", "cost", "summary", "error"]

/-- `MessageV2.User["model"]`. -/
structure Model where
  modelID : String
  providerId : String
  accountId : Option String
  deriving DecidableEq

/-- `MessageV2.User`. -/
@[ext]
structure User where
  id : String
  sessionID : String
  timeCreated : ℚ
  agent : String
  model : Option Model
  rest : Rest userFields

/-- `MessageV2.Assistant["tokens"]`. -/
@[ext]
structure Tokens where
  total : Option ℚ
  input : ℚ
  output : ℚ
  reasoning : ℚ
  cacheRead : ℚ
  cacheWrite : ℚ
  deriving DecidableEq

/-- `MessageV2.Assistant`. -/
@[ext]
structure Assistant where
  id : String
  sessionID : String
  timeCreated : ℚ
  timeCompleted : Option ℚ
  parentID : String
  modelID : String
  providerId : String
  accountId : Option String
  mode : String
  agent : String
  finish : Option String
  tokens : Tokens
  cost : ℚ
  summary : Option Bool
  error : Option Record
  rest : Rest assistantFields

/-- `MessageV2.Info`. -/
inductive Info
  | user (info : User)
  | assistant (info : Assistant)

/-! ### Rows -/

/-- `MessageRow["role"]`. -/
inductive Role
  | user
  | assistant
  deriving DecidableEq

structure MessageRow where
  id : String
  role : Role
  parent_id : Option String
  time_created : ℚ
  time_completed : Option ℚ
  model_id : Option String
  provider_id : Option String
  account_id : Option String
  mode : Option String
  agent : Option String
  finish : Option String
  tokens_input : ℚ
  tokens_output : ℚ
  tokens_total : ℚ
  tokens_cache_read : ℚ
  tokens_cache_write : ℚ
  tokens_reasoning : ℚ
  cost : ℚ
  summary : ℚ
  error_json : Option Text
  info_extra_json : Text

def encodeUser (info : User) : MessageRow where
  id := info.id
  role := .user
  parent_id := none
  time_created := info.timeCreated
  time_completed := none
  model_id := info.model.map Model.modelID
  provider_id := info.model.map Model.providerId
  account_id := info.model.bind Model.accountId
  mode := none
  agent := some info.agent
  finish := none
  tokens_input := 0
  tokens_output := 0
  tokens_total := 0
  tokens_cache_read := 0
  tokens_cache_write := 0
  tokens_reasoning := 0
  cost := 0
  summary := 0
  error_json := none
  info_extra_json := stringifyMembers info.rest.members

def Tokens.totalDerived (tokens : Tokens) : ℚ :=
  tokens.total.getD (tokens.input + tokens.output + tokens.cacheRead + tokens.cacheWrite)

def encodeAssistant (info : Assistant) : MessageRow where
  id := info.id
  role := .assistant
  parent_id := some info.parentID
  time_created := info.timeCreated
  time_completed := info.timeCompleted
  model_id := some info.modelID
  provider_id := some info.providerId
  account_id := info.accountId
  mode := some info.mode
  agent := some info.agent
  finish := info.finish
  tokens_input := info.tokens.input
  tokens_output := info.tokens.output
  tokens_total := info.tokens.totalDerived
  tokens_cache_read := info.tokens.cacheRead
  tokens_cache_write := info.tokens.cacheWrite
  tokens_reasoning := info.tokens.reasoning
  cost := info.cost
  summary := if info.summary = some true then 1 else 0
  error_json := info.error.map stringifyMembers
  info_extra_json := stringifyMembers info.rest.members

def encodeMessageInfo : Info → MessageRow
  | .user info => encodeUser info
  | .assistant info => encodeAssistant info

/-! ### Reading a row -/

def truthy (column : Option String) : Option String := column.filter (· ≠ "")

def field (extra : Record) (key : String) : Option Value :=
  (extra.find? fun kv => kv.1 = key).map Prod.snd

def textField (extra : Record) (key : String) : Option String :=
  match field extra key with
  | some (.str s) => some s
  | _ => none

def boolField (extra : Record) (key : String) : Option Bool :=
  match field extra key with
  | some (.bool b) => some b
  | _ => none

def recordField (extra : Record) (key : String) : Option Record :=
  match field extra key with
  | some (.obj members) => some members
  | _ => none

def modelField (extra : Record) : Option Model := do
  let members ← recordField extra "model"
  return ⟨← textField members "modelID", ← textField members "providerId",
    textField members "accountId"⟩

def decodeUser (row : MessageRow) (sessionID : String) : User :=
  let extra := ofJsonMembers row.info_extra_json
  { id := row.id
    sessionID := sessionID
    timeCreated := row.time_created
    agent := (row.agent.or (textField extra "agent")).getD ""
    model :=
      if (truthy row.model_id).isSome || (truthy row.provider_id).isSome then
        some ⟨row.model_id.getD "", row.provider_id.getD "", truthy row.account_id⟩
      else modelField extra
    rest := Rest.spread userFields extra }

def decodeAssistant (row : MessageRow) (sessionID : String) : Assistant :=
  let extra := ofJsonMembers row.info_extra_json
  { id := row.id
    sessionID := sessionID
    timeCreated := row.time_created
    timeCompleted := row.time_completed
    parentID := row.parent_id.getD ""
    modelID := row.model_id.getD ""
    providerId := row.provider_id.getD ""
    accountId := (truthy row.account_id).or (textField extra "accountId")
    mode := row.mode.getD ""
    agent := row.agent.getD ""
    finish := (truthy row.finish).or (textField extra "finish")
    tokens :=
      { total := some row.tokens_total
        input := row.tokens_input
        output := row.tokens_output
        reasoning := row.tokens_reasoning
        cacheRead := row.tokens_cache_read
        cacheWrite := row.tokens_cache_write }
    cost := row.cost
    summary := if row.summary = 1 then some true else boolField extra "summary"
    error := (row.error_json.map ofJsonMembers).or (recordField extra "error")
    rest := Rest.spread assistantFields extra }

def decodeMessageInfo (row : MessageRow) (sessionID : String) : Info :=
  match row.role with
  | .user => .user (decodeUser row sessionID)
  | .assistant => .assistant (decodeAssistant row sessionID)

/-! ### Up to fields that are `undefined` -/

theorem mem_of_mem_keptMembers {members : Record} {key : String}
    (h : key ∈ (keptMembers members).map Prod.fst) : key ∈ members.map Prod.fst := by
  induction members with
  | nil => exact h
  | cons kv members ih =>
    rw [keptMembers] at h
    split at h
    · exact List.mem_cons_of_mem _ (ih h)
    · exact List.mem_cons.mpr ((List.mem_cons.mp h).imp_right ih)

/-- The rest without the fields that are `undefined`. -/
def Rest.kept {promoted : List String} (rest : Rest promoted) : Rest promoted where
  members := keptMembers rest.members
  apart kv h := by
    obtain ⟨kv', hmem, hkey⟩ := List.mem_map.mp
      (mem_of_mem_keptMembers (List.mem_map_of_mem h))
    exact hkey ▸ rest.apart kv' hmem

/-- A message without the fields that are `undefined`. -/
def Info.kept : Info → Info
  | .user info => .user { info with rest := info.rest.kept }
  | .assistant info =>
    .assistant { info with error := info.error.map keptMembers, rest := info.rest.kept }

/-- Two messages are equal up to fields that are `undefined`. -/
def Info.Same (a b : Info) : Prop := a.kept = b.kept

def Info.sessionID : Info → String
  | .user info => info.sessionID
  | .assistant info => info.sessionID

/-- A message comes back from its row, and the row from what was read of it. -/
def Info.RoundTrips (info : Info) : Prop :=
  (decodeMessageInfo (encodeMessageInfo info) info.sessionID).Same info ∧
    encodeMessageInfo (decodeMessageInfo (encodeMessageInfo info) info.sessionID) =
      encodeMessageInfo info

/-! ### What is lost -/

def Model.Storable (model : Model) : Prop :=
  (model.modelID ≠ "" ∨ model.providerId ≠ "") ∧ model.accountId ≠ some ""

def Info.Storable : Info → Prop
  | .user info => (∀ model ∈ info.model, model.Storable) ∧ isPlainMembers info.rest.members
  | .assistant info =>
    info.accountId ≠ some "" ∧ info.finish ≠ some "" ∧ info.tokens.total ≠ none ∧
      info.summary ≠ some false ∧ (∀ error ∈ info.error, isPlainMembers error) ∧
      isPlainMembers info.rest.members

section Rereading

variable {promoted : List String} (rest : Rest promoted)

def Rest.reread : Rest promoted :=
  Rest.spread promoted (ofJsonMembers (stringifyMembers rest.members))

theorem Rest.key_notMem {kv : String × Value}
    (h : kv ∈ ofJsonMembers (stringifyMembers rest.members)) : kv.1 ∉ promoted := by
  obtain ⟨kv', hmem, hkey⟩ := List.mem_map.mp (fst_mem_of_mem_ofJsonMembers h)
  exact hkey ▸ rest.apart kv' hmem

theorem Rest.members_reread :
    rest.reread.members = ofJsonMembers (stringifyMembers rest.members) :=
  List.filter_eq_self.mpr fun _ h => decide_eq_true (rest.key_notMem h)

theorem Rest.field_reread {key : String} (hkey : key ∈ promoted) :
    field (ofJsonMembers (stringifyMembers rest.members)) key = none := by
  have hnone : (ofJsonMembers (stringifyMembers rest.members)).find? (fun kv => kv.1 = key) =
      none := by
    refine List.find?_eq_none.mpr fun kv hkv => ?_
    rw [decide_eq_true_eq]
    rintro rfl
    exact rest.key_notMem hkv hkey
  rw [field, hnone, Option.map_none]

theorem Rest.kept_reread : rest.reread.kept = rest.kept ↔ isPlainMembers rest.members := by
  rw [← keptMembers_ofJsonMembers_iff, ← rest.members_reread]
  exact ⟨fun h => congrArg Rest.members h, fun h => by simpa [Rest.kept] using h⟩

theorem Rest.stringify_reread :
    stringifyMembers rest.reread.members = stringifyMembers rest.members := by
  rw [rest.members_reread, stringifyMembers_ofJsonMembers_self]

end Rereading

def Model.reread (model : Model) : Option Model :=
  if model.modelID = "" ∧ model.providerId = "" then none
  else some { model with accountId := truthy model.accountId }

theorem truthy_some {text : String} :
    truthy (some text) = if text = "" then none else some text := by
  by_cases h : text = "" <;> simp [truthy, Option.filter_some, h]

theorem isSome_truthy {text : String} : (truthy (some text)).isSome ↔ text ≠ "" := by
  by_cases h : text = "" <;> simp [truthy_some, h]

theorem truthy_eq_self {column : Option String} : truthy column = column ↔ column ≠ some "" := by
  rcases column with _ | text
  · exact iff_of_true rfl (Option.some_ne_none _).symm
  · rw [truthy_some]
    split
    next h => simp [h]
    next h => simp [h]

theorem modelField_of_none {extra : Record} (h : field extra "model" = none) :
    modelField extra = none := by
  rw [modelField, recordField, h]
  rfl

theorem model_of_columns (model : Option Model) {extra : Record}
    (h : field extra "model" = none) :
    (if (truthy (model.map Model.modelID)).isSome || (truthy (model.map Model.providerId)).isSome then
        some ⟨(model.map Model.modelID).getD "", (model.map Model.providerId).getD "",
          truthy (model.bind Model.accountId)⟩
      else modelField extra) = model.bind Model.reread := by
  rcases model with _ | model
  · exact modelField_of_none h
  · rw [Option.map_some, Option.map_some, Option.bind_some, Option.bind_some, Model.reread]
    by_cases hempty : model.modelID = "" ∧ model.providerId = ""
    · rw [if_pos hempty, hempty.1, hempty.2]
      exact modelField_of_none h
    · rw [if_neg hempty, if_pos]
      · rfl
      · rw [Bool.or_eq_true, isSome_truthy, isSome_truthy]
        exact not_and_or.mp hempty

theorem decode_encodeUser (info : User) :
    decodeUser (encodeUser info) info.sessionID =
      { info with model := info.model.bind Model.reread, rest := info.rest.reread } := by
  have hmodel : field (ofJsonMembers (stringifyMembers info.rest.members)) "model" = none :=
    info.rest.field_reread (by decide)
  rw [← model_of_columns info.model hmodel]
  rfl

theorem decode_encodeAssistant (info : Assistant) :
    decodeAssistant (encodeAssistant info) info.sessionID =
      { info with
        accountId := truthy info.accountId
        finish := truthy info.finish
        tokens := { info.tokens with total := some info.tokens.totalDerived }
        summary := info.summary.filter (· = true)
        error := info.error.map fun error => ofJsonMembers (stringifyMembers error)
        rest := info.rest.reread } := by
  have hfield : ∀ key ∈ assistantFields,
      field (ofJsonMembers (stringifyMembers info.rest.members)) key = none :=
    fun _ hkey => info.rest.field_reread hkey
  have haccount := hfield "accountId" (by decide)
  have hfinish := hfield "finish" (by decide)
  have hsummary := hfield "summary" (by decide)
  have herror := hfield "error" (by decide)
  have hsum : (if (if info.summary = some true then (1 : ℚ) else 0) = 1 then some true else none) =
      info.summary.filter (· = true) := by
    rcases info.summary with _ | _ | _ <;> simp [Option.filter_some]
  rw [← hsum]
  simp only [decodeAssistant, encodeAssistant, textField, boolField, recordField, haccount, hfinish,
    hsummary, herror, Option.or_none, Option.getD_some, Option.map_map, Rest.reread]
  rfl

/-! ### What comes back -/

theorem bind_reread {model : Option Model} :
    model.bind Model.reread = model ↔ ∀ m ∈ model, m.Storable := by
  rcases model with _ | model
  · simp
  · rw [Option.bind_some, Model.reread]
    simp only [Option.mem_some_iff, forall_eq', Model.Storable, ← truthy_eq_self]
    split
    next h => simp [h.1, h.2]
    next h =>
      rw [not_and_or] at h
      rw [Option.some.injEq, and_iff_right h]
      exact ⟨fun heq => congrArg Model.accountId heq, fun heq => by rw [heq]⟩

theorem map_reread {error : Option Record} :
    (error.map fun e => ofJsonMembers (stringifyMembers e)).map keptMembers =
      error.map keptMembers ↔ ∀ e ∈ error, isPlainMembers e := by
  rcases error with _ | e
  · simp
  · simp [keptMembers_ofJsonMembers_iff]

theorem same_user {info : User} :
    (Info.user (decodeUser (encodeUser info) info.sessionID)).Same (.user info) ↔
      (Info.user info).Storable := by
  rw [decode_encodeUser, Info.Storable, ← bind_reread, ← info.rest.kept_reread]
  simp [Info.Same, Info.kept, User.ext_iff]

theorem same_assistant {info : Assistant} :
    (Info.assistant (decodeAssistant (encodeAssistant info) info.sessionID)).Same
      (.assistant info) ↔ (Info.assistant info).Storable := by
  have htotal : (some info.tokens.totalDerived = info.tokens.total) ↔
      info.tokens.total ≠ none := by
    rw [Tokens.totalDerived]
    rcases info.tokens.total with _ | total <;> simp
  have hsummary : info.summary.filter (· = true) = info.summary ↔ info.summary ≠ some false := by
    rcases info.summary with _ | _ | _ <;> simp [Option.filter_some]
  rw [decode_encodeAssistant, Info.Storable, ← truthy_eq_self, ← truthy_eq_self, ← htotal,
    ← hsummary, ← map_reread, ← info.rest.kept_reread]
  simp [Info.Same, Info.kept, Assistant.ext_iff, Tokens.ext_iff]

theorem same_iff (info : Info) :
    (decodeMessageInfo (encodeMessageInfo info) info.sessionID).Same info ↔ info.Storable := by
  rcases info with info | info
  · exact same_user
  · exact same_assistant

/-- The row of a message that was read is the row that it was read from. -/
theorem encode_decodeUser {info : User} (h : (Info.user info).Storable) :
    encodeUser (decodeUser (encodeUser info) info.sessionID) = encodeUser info := by
  rw [decode_encodeUser, bind_reread.mpr h.1, encodeUser, info.rest.stringify_reread]
  rfl

theorem encode_decodeAssistant {info : Assistant} (h : (Info.assistant info).Storable) :
    encodeAssistant (decodeAssistant (encodeAssistant info) info.sessionID) =
      encodeAssistant info := by
  obtain ⟨haccount, hfinish, -, -, -, -⟩ := h
  have hsummary : info.summary.filter (· = true) = some true ↔ info.summary = some true := by
    rcases info.summary with _ | _ | _ <;> simp [Option.filter_some]
  have herror : (info.error.map fun e => ofJsonMembers (stringifyMembers e)).map stringifyMembers =
      info.error.map stringifyMembers := by
    rw [Option.map_map]
    exact Option.map_congr fun e _ => stringifyMembers_ofJsonMembers_self _
  rw [decode_encodeAssistant, truthy_eq_self.mpr haccount, truthy_eq_self.mpr hfinish]
  simp only [encodeAssistant, hsummary, herror, info.rest.stringify_reread]
  rfl

/-- **A message comes back from its row, and the row from the message, exactly if a row can hold
it**: a model has a name, no account, no finish reason and no name of a model is the empty text,
the sum of the tokens is there, `summary` is not `false`, and the rest is plain. -/
theorem roundTrips_iff (info : Info) : info.RoundTrips ↔ info.Storable := by
  refine ⟨fun h => (same_iff info).mp h.1, fun h => ⟨(same_iff info).mpr h, ?_⟩⟩
  rcases info with info | info
  · exact encode_decodeUser h
  · exact encode_decodeAssistant h

/-- An assistant message as it is made at the start of a turn: there is no sum of the tokens. -/
def created : Info :=
  .assistant
    { id := "msg_1"
      sessionID := "ses_1"
      timeCreated := 1
      timeCompleted := none
      parentID := "msg_0"
      modelID := "m"
      providerId := "p"
      accountId := none
      mode := "build"
      agent := "build"
      finish := none
      tokens := ⟨none, 0, 0, 0, 0, 0⟩
      cost := 0
      summary := none
      error := none
      rest := ⟨[], by simp⟩ }

/-- **A message without a sum of its tokens comes back with one.** -/
theorem not_roundTrips : ¬∀ info : Info, info.RoundTrips := fun h =>
  (same_assistant.mp (h created).1).2.2.1 rfl

end OpenCms.SqliteStore
