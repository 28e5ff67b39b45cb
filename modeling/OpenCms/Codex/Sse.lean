import OpenCms.Lib.JsString
import OpenCms.Lib.Table
import OpenCms.Lib.Runs

/-!
# The parts of a response stream

The events of the Responses API are mapped to the parts of a language model stream. One slot holds
the open text, and a counter the reasoning that goes on; items are tracked by their output index,
and the arguments of a call are gathered by it. When the events end, what is left is flushed and the
stream is finished.
-/

namespace OpenCms.Codex

/-! ### Events -/

inductive ItemType
  | message
  | functionCall
  | reasoning
  | other
  deriving DecidableEq

structure OutputItem where
  type : ItemType
  id : Option JsString
  name : Option JsString
  call_id : Option JsString
  arguments : Option JsString
  deriving DecidableEq

/-- `ResponseUsage`. -/
structure Usage where
  inputTokens : ℕ
  outputTokens : ℕ
  cachedTokens : Option ℕ
  reasoningTokens : Option ℕ
  deriving DecidableEq

/-- What is read of a `ResponseObject`. -/
structure ResponseObject where
  id : Option JsString
  usage : Option Usage
  status : Option JsString
  incompleteReason : Option JsString
  errorMessage : Option JsString
  deriving DecidableEq

/-- `ResponseStreamEvent`. -/
inductive Event
  | created (response : ResponseObject)
  | outputItemAdded (output_index : ℤ) (item : OutputItem)
  | outputTextDelta (delta : JsString)
  | outputTextDone
  | functionCallArgumentsDelta (output_index : ℤ) (call_id : Option JsString) (delta : JsString)
  | functionCallArgumentsDone (output_index : ℤ) (call_id arguments : Option JsString)
  | reasoningSummaryTextDelta (delta : JsString)
  | reasoningSummaryTextDone
  | outputItemDone (item : OutputItem)
  | incomplete (response : ResponseObject)
  | completed (response : ResponseObject)
  | failed (response : ResponseObject)
  | error (message : JsString)
  | other
  deriving DecidableEq

/-! ### Parts -/

/-- `LanguageModelV2FinishReason`. -/
inductive FinishReason
  | stop
  | length
  | toolCalls
  | error
  | other
  | unknown
  deriving DecidableEq

inductive CauseFamily
  | wsTruncation
  | wsNoFrames
  | serverEmptyOutputWithReasoning
  | serverIncomplete
  | serverFailed
  | unclassified
  deriving DecidableEq

/-- The actions of `RECOVERY_ACTION` that are chosen. -/
inductive RecoveryAction
  | retryOnceThenSoftFail
  | passThroughToRunloopNudge
  deriving DecidableEq

inductive SuspectParam
  | reasoningEffort
  | includeReasoningEncryptedContent
  deriving DecidableEq

/-- `emptyTurnClassification`. -/
structure EmptyTurn where
  causeFamily : CauseFamily
  recoveryAction : RecoveryAction
  suspectParams : List SuspectParam
  logSequence : ℕ
  retryAttempted : Bool
  retryAlsoEmpty : Option Bool
  previousLogSequence : Option ℕ
  deriving DecidableEq

/-- `LanguageModelV2StreamPart`. -/
inductive Part
  | textStart (id : JsString)
  | textDelta (id delta : JsString)
  | textEnd (id : JsString)
  | reasoningStart (id : JsString)
  | reasoningDelta (id delta : JsString)
  | reasoningEnd (id : JsString)
  | toolInputStart (id toolName : JsString)
  | toolInputDelta (id delta : JsString)
  | toolInputEnd (id : JsString)
  | toolCall (toolCallId toolName input : JsString) (itemId : Option JsString)
  | error (message : JsString)
  | finish (finishReason : FinishReason) (usage : Option Usage) (responseId : Option JsString)
      (emptyTurnClassification : Option EmptyTurn)
  deriving DecidableEq

/-! ### The state of a stream -/

/-- An entry of `outputItems`. -/
structure TrackedItem where
  index : ℤ
  type : ItemType
  id : JsString
  name : Option JsString
  callId : Option JsString
  deriving DecidableEq

/-- An entry of `toolArgBuffer`. -/
structure Buffered where
  index : ℤ
  text : JsString
  deriving DecidableEq

structure StreamState where
  responseId : Option JsString
  outputItems : List TrackedItem
  textIdCounter : ℕ
  toolIdCounter : ℕ
  reasoningIdCounter : ℕ
  usage : Option Usage
  finishReason : Option FinishReason
  hasFunctionCall : Bool
  openTextId : Option JsString
  toolArgBuffer : List Buffered
  emittedToolCalls : List JsString
  emittedTextDeltas : ℕ
  deriving DecidableEq

def StreamState.init : StreamState where
  responseId := none
  outputItems := []
  textIdCounter := 0
  toolIdCounter := 0
  reasoningIdCounter := 0
  usage := none
  finishReason := none
  hasFunctionCall := false
  openTextId := none
  toolArgBuffer := []
  emittedToolCalls := []
  emittedTextDeltas := 0

def truthy (s : Option JsString) : Option JsString := s.filter (· ≠ [])

def wholeNumber : ℤ → JsString
  | .ofNat n => JsString.decimal n
  | .negSucc n => js "-" ++ JsString.decimal (n + 1)

def textId (n : ℕ) : JsString := js "text_" ++ JsString.decimal n

def reasoningId (n : ℕ) : JsString := js "reasoning_" ++ JsString.decimal n

def toolNameOf (name : Option JsString) : JsString := name.getD (js "unknown")

def mapFinishReason (status : Option JsString) : FinishReason :=
  if status = some (js "completed") then .stop
  else if status = some (js "cancelled") then .stop
  else if status = some (js "failed") then .error
  else if status = some (js "incomplete") then .length
  else .other

namespace StreamState

variable (state : StreamState)

def trackedItem (index : ℤ) : Option TrackedItem :=
  Table.lookup TrackedItem.index state.outputItems index

def buffered (index : ℤ) : Option JsString :=
  (Table.lookup Buffered.index state.toolArgBuffer index).map Buffered.text

def callId (output_index : ℤ) (call_id : Option JsString) : JsString :=
  (((state.trackedItem output_index).bind TrackedItem.callId).or call_id).getD
    (js "tool_" ++ wholeNumber output_index)

/-- The key under which the reasoning that goes on is kept among the items. -/
def reasoningKey : ℤ := -1000 - state.reasoningIdCounter

def seeResponse (response : ResponseObject) : StreamState :=
  { state with responseId := (truthy response.id).or state.responseId }

def seeEnd (response : ResponseObject) (finishReason : FinishReason) : StreamState :=
  { state.seeResponse response with
    usage := response.usage.or state.usage
    finishReason := some finishReason }

def startText : List Part × StreamState :=
  let id := textId state.textIdCounter
  ([.textStart id],
    { state with textIdCounter := state.textIdCounter + 1, openTextId := some id })

def addedId (item : OutputItem) : JsString :=
  item.call_id.getD (js "tool_" ++ JsString.decimal state.toolIdCounter)

def completeArguments (item : OutputItem) : Option JsString :=
  (truthy item.arguments).filter (· ≠ js "{}")

def addFunctionCall (item : OutputItem) : List Part × StreamState :=
  let id := state.addedId item
  let name := toolNameOf item.name
  let state :=
    { state with
      hasFunctionCall := true
      toolIdCounter := state.toolIdCounter + if item.call_id = none then 1 else 0 }
  match completeArguments item with
  | none => ([.toolInputStart id name], state)
  | some arguments =>
    ([.toolInputStart id name, .toolInputDelta id arguments, .toolInputEnd id,
      .toolCall id name arguments (truthy item.id)],
      { state with emittedToolCalls := state.emittedToolCalls ++ [id] })

def track (item : TrackedItem) : StreamState :=
  { state with outputItems := Table.upsert TrackedItem.index item state.outputItems }

def trackedOf (output_index : ℤ) (item : OutputItem) : TrackedItem :=
  ⟨output_index, item.type, item.id.getD (js "item_" ++ wholeNumber output_index), item.name,
    item.call_id⟩

/-- A call is handed on, unless it was before. -/
def emitToolCall (id name input : JsString) (itemId : Option JsString) : List Part × StreamState :=
  if id ∈ state.emittedToolCalls then ([], state)
  else
    ([.toolCall id name input itemId],
      { state with hasFunctionCall := true, emittedToolCalls := state.emittedToolCalls ++ [id] })

def doneFunctionCall (id : JsString) (item : OutputItem) : List Part × StreamState :=
  if id ∈ state.emittedToolCalls then ([], { state with hasFunctionCall := true })
  else
    let call := state.emitToolCall id (toolNameOf item.name) (item.arguments.getD (js "{}"))
      (truthy item.id)
    (.toolInputEnd id :: call.1, call.2)

end StreamState

open StreamState

def mapEvent (state : StreamState) : Event → List Part × StreamState
  | .created response => ([], state.seeResponse response)
  | .outputItemAdded output_index item =>
    let state := state.track (trackedOf output_index item)
    match item.type with
    | .message => state.startText
    | .functionCall => state.addFunctionCall item
    | _ => ([], state)
  | .outputTextDelta delta =>
    let text := state.openTextId.elim state.startText fun _ => ([], state)
    (text.1 ++ [.textDelta (text.2.openTextId.getD []) delta],
      { text.2 with emittedTextDeltas := state.emittedTextDeltas + 1 })
  | .outputTextDone =>
    state.openTextId.elim ([], state) fun id => ([.textEnd id], { state with openTextId := none })
  | .functionCallArgumentsDelta output_index call_id delta =>
    ([.toolInputDelta (state.callId output_index call_id) delta],
      { state with
        toolArgBuffer := Table.upsert Buffered.index
          ⟨output_index, (state.buffered output_index).getD [] ++ delta⟩ state.toolArgBuffer })
  | .functionCallArgumentsDone output_index call_id arguments =>
    let id := state.callId output_index call_id
    let tracked := state.trackedItem output_index
    let finalArgs := (arguments.or (state.buffered output_index)).getD (js "{}")
    let call := state.emitToolCall id (toolNameOf (tracked.bind TrackedItem.name)) finalArgs
      (truthy (tracked.map TrackedItem.id))
    (.toolInputEnd id :: call.1,
      { call.2 with toolArgBuffer := Table.erase Buffered.index output_index state.toolArgBuffer })
  | .reasoningSummaryTextDelta delta =>
    let id := reasoningId state.reasoningIdCounter
    if (state.trackedItem state.reasoningKey).isSome then ([.reasoningDelta id delta], state)
    else
      ([.reasoningStart id, .reasoningDelta id delta],
        state.track ⟨state.reasoningKey, .reasoning, id, none, none⟩)
  | .reasoningSummaryTextDone =>
    let next := { state with reasoningIdCounter := state.reasoningIdCounter + 1 }
    if (state.trackedItem state.reasoningKey).isSome then
      ([.reasoningEnd (reasoningId state.reasoningIdCounter)],
        { next with
          outputItems := Table.erase TrackedItem.index state.reasoningKey state.outputItems })
    else ([], next)
  | .outputItemDone item =>
    match item.type, truthy item.call_id with
    | .functionCall, some id => state.doneFunctionCall id item
    | _, _ => ([], state)
  | .incomplete response =>
    ([], state.seeEnd response
      (if response.incompleteReason = some (js "max_output_tokens") then .length else .other))
  | .completed response => ([], state.seeEnd response (mapFinishReason response.status))
  | .failed response =>
    ([.error (response.errorMessage.getD (js "Response failed"))],
      { state with finishReason := some .error })
  | .error message => ([.error message], { state with finishReason := some .error })
  | .other => ([], state)

section TextEvents

variable {state : StreamState} {id delta : JsString}

theorem mapEvent_outputTextDelta_none (h : state.openTextId = none) :
    mapEvent state (.outputTextDelta delta) =
      ([.textStart (textId state.textIdCounter), .textDelta (textId state.textIdCounter) delta],
        { state with
          textIdCounter := state.textIdCounter + 1
          openTextId := some (textId state.textIdCounter)
          emittedTextDeltas := state.emittedTextDeltas + 1 }) := by
  simp [mapEvent, h, startText]

theorem mapEvent_outputTextDelta_some (h : state.openTextId = some id) :
    mapEvent state (.outputTextDelta delta) =
      ([.textDelta id delta],
        { state with emittedTextDeltas := state.emittedTextDeltas + 1 }) := by
  simp [mapEvent, h]

theorem mapEvent_outputTextDone_none (h : state.openTextId = none) :
    mapEvent state .outputTextDone = ([], state) := by
  simp [mapEvent, h]

theorem mapEvent_outputTextDone_some (h : state.openTextId = some id) :
    mapEvent state .outputTextDone = ([.textEnd id], { state with openTextId := none }) := by
  simp [mapEvent, h]

end TextEvents

/-! ### The end of a stream -/

def danglingCall (state : StreamState) (entry : Buffered) : Option (JsString × TrackedItem) := do
  let tracked ← state.trackedItem entry.index
  let id ← truthy tracked.callId
  if tracked.type = .functionCall ∧ id ∉ state.emittedToolCalls then some (id, tracked) else none

section Dangling

variable {state : StreamState} {id id' name input : JsString} {itemId : Option JsString}
  {entry : Buffered} {tracked : TrackedItem}

theorem danglingCall_eq_some : danglingCall state entry = some (id, tracked) ↔
    state.trackedItem entry.index = some tracked ∧ truthy tracked.callId = some id ∧
      tracked.type = .functionCall ∧ id ∉ state.emittedToolCalls := by
  rw [danglingCall]
  rcases state.trackedItem entry.index with _ | tracked'
  · simp
  · rcases hid : truthy tracked'.callId with _ | id'
    · simp only [Option.bind_eq_bind, Option.bind_some, hid, Option.bind_none, Option.some.injEq]
      constructor
      · rintro ⟨⟩
      · rintro ⟨rfl, hsome, -⟩
        rw [hid] at hsome
        cases hsome
    · simp only [Option.bind_eq_bind, Option.bind_some, hid, Option.some.injEq]
      split
      next h =>
        simp only [Option.some.injEq, Prod.mk.injEq]
        constructor
        · rintro ⟨rfl, rfl⟩
          exact ⟨rfl, hid, h⟩
        · rintro ⟨rfl, hsome, -⟩
          rw [hid] at hsome
          exact ⟨Option.some.inj hsome, rfl⟩
      next h =>
        constructor
        · rintro ⟨⟩
        · rintro ⟨rfl, hsome, h'⟩
          rw [hid] at hsome
          obtain rfl := Option.some.inj hsome
          exact absurd h' h

theorem danglingCall_emitToolCall (hid : id ∉ state.emittedToolCalls) :
    danglingCall (state.emitToolCall id name input itemId).2 entry = some (id', tracked) ↔
      id' ≠ id ∧ danglingCall state entry = some (id', tracked) := by
  rw [danglingCall_eq_some, danglingCall_eq_some, emitToolCall, if_neg hid, List.mem_append,
    List.mem_singleton, not_or]
  constructor
  · rintro ⟨htracked, hid', htype, hold, hne⟩
    exact ⟨hne, htracked, hid', htype, hold⟩
  · rintro ⟨hne, htracked, hid', htype, hold⟩
    exact ⟨htracked, hid', htype, hold, hne⟩

end Dangling

def flushToolCalls (state : StreamState) : List Buffered → List Part × StreamState
  | [] => ([], state)
  | entry :: entries =>
    match danglingCall state entry with
    | none => flushToolCalls state entries
    | some (id, tracked) =>
      let call := state.emitToolCall id (toolNameOf tracked.name)
        (if entry.text = [] then js "{}" else entry.text) (truthy (some tracked.id))
      let rest := flushToolCalls call.2 entries
      (.toolInputEnd id :: call.1 ++ rest.1, rest.2)

def flush (state : StreamState) : List Part × StreamState :=
  let calls := flushToolCalls { state with openTextId := none } state.toolArgBuffer
  ((state.openTextId.elim [] fun id => [.textEnd id]) ++ calls.1,
    { calls.2 with toolArgBuffer := [] })

def finishReasonOf (state : StreamState) : FinishReason :=
  match state.finishReason with
  | some .stop => if state.hasFunctionCall then .toolCalls else .stop
  | some finishReason => finishReason
  | none =>
    if state.hasFunctionCall ∨ state.emittedToolCalls ≠ [] then .toolCalls
    else if 0 < state.emittedTextDeltas then .stop
    else .unknown

/-- `terminalEventType`. -/
inductive TerminalEvent
  | completed
  | incomplete
  | failed
  | error
  deriving DecidableEq

/-- What is read of `RequestOptionsShape`. -/
structure RequestOptionsShape where
  hasReasoningEffort : Bool
  includesEncryptedContent : Bool
  deriving DecidableEq

/-- What is read of `logContext`, and the number that its entry of the log gets. -/
structure LogContext where
  requestOptionsShape : RequestOptionsShape
  retryAttempted : Bool
  previousLogSequence : Option ℕ
  logSequence : ℕ
  deriving DecidableEq

structure TransportSnapshot where
  wsFrameCount : ℕ
  terminalEventReceived : Bool
  terminalEventType : Option TerminalEvent
  deriving DecidableEq

structure MapResponseStreamOptions where
  logContext : Option LogContext
  getTransportSnapshot : Option TransportSnapshot
  deriving DecidableEq

def fallbackSnapshot (state : StreamState) : TransportSnapshot where
  wsFrameCount := if state.finishReason.isSome then 1 else 0
  terminalEventReceived := state.finishReason.isSome
  terminalEventType :=
    match state.finishReason with
    | some .stop => some .completed
    | some .length => some .incomplete
    | some .error => some .failed
    | _ => none

def suspectParams (shape : RequestOptionsShape) : List SuspectParam :=
  (if shape.hasReasoningEffort then [.reasoningEffort] else []) ++
    if shape.includesEncryptedContent then [.includeReasoningEncryptedContent] else []

def classifyEmptyTurnInner (snapshot : TransportSnapshot) (shape : RequestOptionsShape) :
    CauseFamily × RecoveryAction × List SuspectParam :=
  let type := if snapshot.terminalEventReceived then snapshot.terminalEventType else none
  if type = some .failed ∨ type = some .error then
    (.serverFailed, .passThroughToRunloopNudge, [])
  else if type = some .incomplete then (.serverIncomplete, .passThroughToRunloopNudge, [])
  else if type = some .completed ∧ suspectParams shape ≠ [] then
    (.serverEmptyOutputWithReasoning, .passThroughToRunloopNudge, suspectParams shape)
  else if snapshot.wsFrameCount = 0 then (.wsNoFrames, .retryOnceThenSoftFail, [])
  else if snapshot.terminalEventReceived = false then (.wsTruncation, .retryOnceThenSoftFail, [])
  else (.unclassified, .passThroughToRunloopNudge, [])

/-- `classifyEmptyTurn`: a second attempt is not followed by a third. -/
def classifyEmptyTurn (snapshot : TransportSnapshot) (context : LogContext) : EmptyTurn :=
  let (causeFamily, recoveryAction, suspectParams) :=
    classifyEmptyTurnInner snapshot context.requestOptionsShape
  { causeFamily := causeFamily
    recoveryAction :=
      if context.retryAttempted then .passThroughToRunloopNudge else recoveryAction
    suspectParams := suspectParams
    logSequence := context.logSequence
    retryAttempted := context.retryAttempted
    retryAlsoEmpty := if context.retryAttempted then some true else none
    previousLogSequence := context.previousLogSequence }

def emptyTurnReason (causeFamily : CauseFamily) (finishReason : FinishReason) : FinishReason :=
  match causeFamily, finishReason with
  | .serverEmptyOutputWithReasoning, _ => .other
  | .serverIncomplete, .unknown => .other
  | .serverFailed, .unknown => .error
  | _, finishReason => finishReason

def finishPart (options : MapResponseStreamOptions) (state : StreamState) : Part :=
  let emptyTurn :=
    if state.emittedTextDeltas = 0 ∧ state.emittedToolCalls = [] then
      options.logContext.map
        (classifyEmptyTurn (options.getTransportSnapshot.getD (fallbackSnapshot state)))
    else none
  .finish
    (emptyTurn.elim (finishReasonOf state) fun turn =>
      emptyTurnReason turn.causeFamily (finishReasonOf state))
    state.usage (truthy state.responseId) emptyTurn

/-! ### Streams -/

/-- What was read of a stream, and what was handed on. -/
structure Mapped where
  state : StreamState
  parts : List Part
  deriving DecidableEq

def Mapped.init : Mapped := ⟨.init, []⟩

def Mapped.step (mapped : Mapped) (event : Event) : Mapped :=
  let mappedEvent := mapEvent mapped.state event
  ⟨mappedEvent.2, mapped.parts ++ mappedEvent.1⟩

def Mapped.close (options : MapResponseStreamOptions) (mapped : Mapped) : List Part :=
  let flushed := flush mapped.state
  mapped.parts ++ flushed.1 ++ [finishPart options flushed.2]

def mapResponseStream (options : MapResponseStreamOptions) (events : List Event) : List Part :=
  (run Mapped.step .init events).close options

end OpenCms.Codex
