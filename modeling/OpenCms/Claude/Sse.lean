import OpenCms.Claude.Salvage
import OpenCms.Lib.Runs
import Mathlib.Logic.Function.Basic

/-!
# Events of a message

`dispatchEvent` maps each event of a message to parts. A content block is known by its index from
its start to its stop; what is added to it in between is kept, since a call of a tool is made when
its block stops, and calls that are written out in a text are found then.
-/

namespace OpenCms.Claude

/-! ### Events -/

structure MessageUsage where
  input_tokens : Option ℤ
  cache_read_input_tokens : Option ℤ
  cache_creation_input_tokens : Option ℤ
  deriving DecidableEq

structure Message where
  id : Option JsString
  model : Option JsString
  usage : Option MessageUsage
  deriving DecidableEq

inductive ContentBlock
  | text
  | thinking
  | toolUse (id name : Option JsString)
  | other
  deriving DecidableEq

inductive Delta
  | text (text : Option JsString)
  | thinking (thinking : Option JsString)
  | signature (signature : Option JsString)
  | inputJson (partial_json : Option JsString)
  | other
  deriving DecidableEq

/-- What is read of a line with data. What is not an object, and what has another type, is
`other`. -/
inductive Event
  | messageStart (message : Option Message)
  | contentBlockStart (index : ℤ) (content_block : Option ContentBlock)
  | contentBlockDelta (index : ℤ) (delta : Option Delta)
  | contentBlockStop (index : ℤ)
  | messageDelta (output_tokens : Option (Option ℤ)) (stop_reason : Option JsString)
  | messageStop
  | ping
  | error (error : JsString)
  | other
  deriving DecidableEq

/-! ### Parts -/

/-- `LanguageModelV2FinishReason`. -/
inductive FinishReason
  | stop
  | length
  | toolCalls
  | contentFilter
  | other
  deriving DecidableEq

/-- `LanguageModelV2Usage`. -/
structure Usage where
  inputTokens : Option ℤ
  outputTokens : Option ℤ
  cachedInputTokens : Option ℤ
  deriving DecidableEq

/-- `LanguageModelV2StreamPart`. -/
inductive Part
  | streamStart
  | raw (rawValue : Event)
  | responseMetadata (id modelId : Option JsString)
  | textStart (id : JsString)
  | textDelta (id : JsString) (delta : Option JsString)
  | textEnd (id : JsString)
  | reasoningStart (id : JsString)
  | reasoningDelta (id : JsString) (delta : Option JsString)
  | reasoningEnd (id : JsString) (signature : Option JsString)
  | toolInputStart (id toolName : JsString)
  | toolInputDelta (id : JsString) (delta : Option JsString)
  | toolInputEnd (id : JsString)
  | toolCall (toolCallId toolName input : JsString)
  | finish (finishReason : FinishReason) (usage : Usage) (rawStopReason : Option JsString)
      (cacheCreationInputTokens : Option ℤ)
  | error (error : JsString)
  deriving DecidableEq

/-! ### The state of a stream -/

inductive BlockType
  | text
  | thinking
  | toolUse
  deriving DecidableEq

/-- A block that is not stopped. What it does not have is empty. -/
structure ActiveBlock where
  type : BlockType
  id : JsString
  toolName : JsString
  input : JsString
  signature : JsString
  text : JsString
  deriving DecidableEq

/-- The variables of `parseAnthropicSSE` that `dispatchEvent` uses. -/
structure StreamState where
  activeBlocks : ℤ → Option ActiveBlock
  blockCounter : ℕ
  usage : Usage
  sawMessageStop : Bool
  lastStopReason : Option JsString
  producedText : ℕ
  producedReasoning : ℕ
  producedToolUse : ℕ
  salvagedToolUse : Bool
  cacheCreationTokens : Option ℤ

def StreamState.init : StreamState where
  activeBlocks := fun _ => none
  blockCounter := 0
  usage := ⟨none, none, none⟩
  sawMessageStop := false
  lastStopReason := none
  producedText := 0
  producedReasoning := 0
  producedToolUse := 0
  salvagedToolUse := false
  cacheCreationTokens := none

def truthy (s : Option JsString) : Option JsString := s.filter (· ≠ [])

def mapFinishReason (reason : Option JsString) : FinishReason :=
  if reason ∈ [some (js "end_turn"), some (js "stop"), some (js "stop_sequence"),
      some (js "pause_turn")] then .stop
  else if reason ∈ [some (js "max_tokens"), some (js "model_context_window_exceeded")] then .length
  else if reason = some (js "tool_use") then .toolCalls
  else if reason ∈ [some (js "refusal"), some (js "content_filter")] then .contentFilter
  else .other

def stripToolPrefix (name : JsString) : JsString := (name.dropPrefix? (js "mcp__")).getD name

def blockId (n : ℕ) : JsString := js "block-" ++ JsString.decimal n

def salvageId (n : ℕ) : JsString := js "salvage-" ++ JsString.decimal n

namespace StreamState

variable (state : StreamState)

def setBlock (index : ℤ) (block : ActiveBlock) : StreamState :=
  { state with activeBlocks := Function.update state.activeBlocks index (some block) }

def startMessage : Option Message → List Part × StreamState
  | none => ([], state)
  | some message =>
    ([.responseMetadata message.id message.model],
      message.usage.elim state fun usage =>
        { state with
          usage := { state.usage with
            inputTokens := usage.input_tokens
            cachedInputTokens := usage.cache_read_input_tokens }
          cacheCreationTokens := usage.cache_creation_input_tokens })

/-- A block starts. Every start takes a number, also one that is not understood. -/
def startBlock (index : ℤ) (content_block : Option ContentBlock) : List Part × StreamState :=
  let id := blockId state.blockCounter
  let state := { state with blockCounter := state.blockCounter + 1 }
  match content_block with
  | some .text =>
    ([.textStart id],
      { state with producedText := state.producedText + 1 }.setBlock index
        ⟨.text, id, [], [], [], []⟩)
  | some .thinking =>
    ([.reasoningStart id],
      { state with producedReasoning := state.producedReasoning + 1 }.setBlock index
        ⟨.thinking, id, [], [], [], []⟩)
  | some (.toolUse ownId name) =>
    let id := (truthy ownId).getD id
    let toolName := stripToolPrefix (name.getD [])
    ([.toolInputStart id toolName],
      { state with producedToolUse := state.producedToolUse + 1 }.setBlock index
        ⟨.toolUse, id, toolName, [], [], []⟩)
  | some .other | none => ([], state)

def addDelta (index : ℤ) (info : ActiveBlock) : Delta → List Part × StreamState
  | .text text =>
    ([.textDelta info.id text],
      state.setBlock index { info with text := info.text ++ text.getD [] })
  | .thinking thinking => ([.reasoningDelta info.id thinking], state)
  | .signature signature =>
    ([], state.setBlock index { info with signature := info.signature ++ signature.getD [] })
  | .inputJson partial_json =>
    ([.toolInputDelta info.id partial_json],
      state.setBlock index { info with input := info.input ++ partial_json.getD [] })
  | .other => ([], state)

def salvage (state : StreamState) : List SalvagedCall → List Part × StreamState
  | [] => ([], state)
  | call :: calls =>
    let id := salvageId state.blockCounter
    let toolName := stripToolPrefix call.name
    let rest := salvage { state with
      blockCounter := state.blockCounter + 1
      producedToolUse := state.producedToolUse + 1
      salvagedToolUse := true } calls
    (.toolInputStart id toolName :: .toolInputEnd id :: .toolCall id toolName call.input :: rest.1,
      rest.2)

def stopBlock (info : ActiveBlock) : List Part × StreamState :=
  match info.type with
  | .text =>
    let salvaged := state.salvage (salvageAntmlInvokes info.text)
    (.textEnd info.id :: salvaged.1, salvaged.2)
  | .thinking => ([.reasoningEnd info.id (truthy (some info.signature))], state)
  | .toolUse =>
    ([.toolInputEnd info.id, .toolCall info.id info.toolName
      (if info.input = [] then js "{}" else info.input)], state)

def deleteBlock (index : ℤ) : StreamState :=
  { state with activeBlocks := Function.update state.activeBlocks index none }

def finishPart : Part :=
  .finish (if state.salvagedToolUse then .toolCalls else mapFinishReason state.lastStopReason)
    state.usage state.lastStopReason state.cacheCreationTokens

end StreamState

def dispatchEvent (state : StreamState) : Event → List Part × StreamState
  | .messageStart message => state.startMessage message
  | .contentBlockStart index content_block => state.startBlock index content_block
  | .contentBlockDelta index delta =>
    match state.activeBlocks index, delta with
    | some info, some delta => state.addDelta index info delta
    | _, _ => ([], state)
  | .contentBlockStop index =>
    match state.activeBlocks index with
    | none => ([], state)
    | some info =>
      let stopped := state.stopBlock info
      (stopped.1, stopped.2.deleteBlock index)
  | .messageDelta output_tokens stop_reason =>
    ([], { state with
      usage := output_tokens.elim state.usage fun outputTokens =>
        { state.usage with outputTokens := outputTokens }
      lastStopReason := (truthy stop_reason).or state.lastStopReason })
  | .messageStop => ([state.finishPart], { state with sawMessageStop := true })
  | .error error => ([.error error], state)
  | .ping | .other => ([], state)

section Blocks

variable {state : StreamState} {index : ℤ} {info : ActiveBlock}

theorem dispatchEvent_delta (h : state.activeBlocks index = some info) (delta : Delta) :
    dispatchEvent state (.contentBlockDelta index (some delta)) =
      state.addDelta index info delta := by
  simp only [dispatchEvent, h]

theorem dispatchEvent_delta_none (delta : Option Delta)
    (h : state.activeBlocks index = none ∨ delta = none) :
    dispatchEvent state (.contentBlockDelta index delta) = ([], state) := by
  rcases h with h | rfl
  · simp only [dispatchEvent, h]
  · rcases h : state.activeBlocks index with _ | info <;> simp only [dispatchEvent, h]

theorem dispatchEvent_stop (h : state.activeBlocks index = some info) :
    dispatchEvent state (.contentBlockStop index) =
      ((state.stopBlock info).1, (state.stopBlock info).2.deleteBlock index) := by
  simp only [dispatchEvent, h]

theorem dispatchEvent_stop_none (h : state.activeBlocks index = none) :
    dispatchEvent state (.contentBlockStop index) = ([], state) := by
  simp only [dispatchEvent, h]

end Blocks

/-- The message of the error at the end of a stream that was cut off. -/
def StreamState.truncated (state : StreamState) : JsString :=
  js "claude-cli stream closed without message_stop (truncated response: text=" ++
    JsString.decimal state.producedText ++ js " reasoning=" ++
      JsString.decimal state.producedReasoning ++ js " toolUse=" ++
        JsString.decimal state.producedToolUse ++ js " lastStop=" ++
          state.lastStopReason.getD (js "undefined") ++ js ")"

def StreamState.close (state : StreamState) : List Part :=
  if state.sawMessageStop then [] else [.error state.truncated]

/-! ### Streams -/

/-- What was read of a stream, and what was handed on. -/
structure Mapped where
  state : StreamState
  parts : List Part

/-- Nothing was read, and the start of the stream was handed on. -/
def Mapped.init : Mapped := ⟨.init, [.streamStart]⟩

/-- The parts that an event leads to: the event itself comes before what it is mapped to. -/
def eventParts (state : StreamState) (event : Event) : List Part :=
  .raw event :: (dispatchEvent state event).1

def Mapped.step (mapped : Mapped) (event : Event) : Mapped :=
  ⟨(dispatchEvent mapped.state event).2, mapped.parts ++ eventParts mapped.state event⟩

def streamParts (events : List Event) : List Part :=
  (run Mapped.step .init events).parts ++ (run Mapped.step .init events).state.close

end OpenCms.Claude
