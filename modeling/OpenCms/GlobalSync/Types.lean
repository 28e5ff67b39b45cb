import OpenCms.Lib.BinarySearch
import OpenCms.Lib.JsString
import OpenCms.Lib.Table
import Mathlib.Data.String.Basic
import Mathlib.Logic.Function.Basic
import Mathlib.Order.BoundedOrder.Basic

/-!
# What the client keeps

The client of the application holds a copy of what the server has: the sessions of a directory,
the messages of each session, the parts of each message, and the requests for permission and the
questions that wait in a session. The server's events keep the copy up to date.

Identifiers are strings, and all that is used of them is their order and the empty string, which
is the least one. What is not looked at of a record is kept as it is (`rest`).
-/

namespace OpenCms.GlobalSync

/-- The identifiers of the client. -/
instance instOrderBotString : OrderBot String where
  bot := ""
  bot_le _ := not_lt.mp fun h => List.not_lt_nil _ (String.lt_iff_toList_lt.mp h)

structure Session (ι V : Type*) where
  id : ι
  parentID : Option ι
  /-- `time.created`. -/
  created : ℤ
  /-- `time.updated`. -/
  updated : Option ℤ
  /-- `time.archived`. -/
  archived : Option ℤ
  rest : V

/-- The role of a message. -/
inductive Role
  | user
  | assistant
  deriving DecidableEq

structure Message (ι V : Type*) where
  id : ι
  sessionID : ι
  role : Role
  /-- `time.completed`. -/
  completed : Option ℤ
  rest : V

/-- What is looked at of a part, by its type. -/
inductive PartBody
  /-- `text` or `reasoning`; the text can have been left out. -/
  | text (reasoning : Bool) (text : Option JsString)
  | file (url mime : JsString)
  /-- Any other type: it has no text. -/
  | other

structure Part (ι V : Type*) where
  id : ι
  messageID : ι
  body : PartBody
  /-- How much of the text is missing in front. -/
  truncatedPrefix : Option ℕ
  metadata : Option (JsString → Option V)
  rest : V

/-- `PermissionRequest` and `QuestionRequest`. -/
structure Request (ι V : Type*) where
  id : ι
  sessionID : ι
  rest : V

inductive SessionStatus
  | idle
  | busy
  | retry
  deriving DecidableEq

/-- What the events change of the `State`. The keys of `message` have an order. -/
structure State (ι V : Type*) where
  session : List (Session ι V)
  sessionTotal : ℕ
  limit : ℤ
  session_status : ι → Option SessionStatus
  /-- `workspace.attachments.activeSessionId`. -/
  activeSessionId : Option ι
  message : List (ι × List (Message ι V))
  part : ι → Option (List (Part ι V))
  permission : ι → Option (List (Request ι V))
  question : ι → Option (List (Request ι V))

/-- The store, and what the reducer remembers besides. -/
structure Client (ι V : Type*) where
  store : State ι V
  /-- `_knownMessageIds`. -/
  knownMessageIds : ι → Bool
  /-- `_liveStreamingIds`. -/
  liveStreamingIds : ι → Bool
  /-- `_viewingSessionId`. -/
  viewingSessionId : Option ι
  /-- `_compactionWindows`. -/
  compactionWindows : ι → Bool
  /-- `_appliedTextLength`: by the message and the part. -/
  appliedTextLength : ι × ι → Option ℕ

/-- `frontendTweaks`. -/
structure Tweaks where
  /-- `frontend_session_lazyload`. -/
  lazyload : Bool
  tail_window_kb : ℕ

variable {ι V : Type*}

def isMessageLive (msg : Message ι V) : Bool :=
  match msg.role with
  | .user => false
  | .assistant => msg.completed.isNone

def Part.text (part : Part ι V) : Option JsString :=
  match part.body with
  | .text _ text => text
  | .file .. => none
  | .other => none

def Part.setText (part : Part ι V) (text : JsString) : Part ι V :=
  match part.body with
  | .text reasoning _ => { part with body := .text reasoning (some text) }
  | .file .. => part
  | .other => part

def Part.isText (part : Part ι V) : Bool :=
  match part.body with
  | .text .. => true
  | .file .. => false
  | .other => false

def State.messages [DecidableEq ι] (store : State ι V) (sessionID : ι) :
    Option (List (Message ι V)) :=
  (Table.lookup Prod.fst store.message sessionID).map Prod.snd

def Client.empty (limit : ℤ) : Client ι V where
  store :=
    { session := []
      sessionTotal := 0
      limit := limit
      session_status := fun _ => none
      activeSessionId := none
      message := []
      part := fun _ => none
      permission := fun _ => none
      question := fun _ => none }
  knownMessageIds := fun _ => false
  liveStreamingIds := fun _ => false
  viewingSessionId := none
  compactionWindows := fun _ => false
  appliedTextLength := fun _ => none

section Text

variable {part : Part ι V} {text : JsString}

theorem Part.isText_of_text (h : part.text = some text) : part.isText = true := by
  obtain ⟨id, messageID, body, truncatedPrefix, metadata, rest⟩ := part
  cases body with
  | text => rfl
  | file => cases h
  | other => cases h

@[simp] theorem Part.setText_id : (part.setText text).id = part.id := by
  obtain ⟨id, messageID, body, truncatedPrefix, metadata, rest⟩ := part
  cases body <;> rfl

@[simp] theorem Part.setText_metadata : (part.setText text).metadata = part.metadata := by
  obtain ⟨id, messageID, body, truncatedPrefix, metadata, rest⟩ := part
  cases body <;> rfl

theorem Part.setText_text (h : part.isText = true) : (part.setText text).text = some text := by
  obtain ⟨id, messageID, body, truncatedPrefix, metadata, rest⟩ := part
  cases body with
  | text => rfl
  | file => cases h
  | other => cases h

theorem Part.setText_self (h : part.text = some text) : part.setText text = part := by
  obtain ⟨id, messageID, body, truncatedPrefix, metadata, rest⟩ := part
  cases body with
  | text reasoning old =>
    obtain rfl : old = some text := h
    rfl
  | file => cases h
  | other => cases h

end Text

end OpenCms.GlobalSync
