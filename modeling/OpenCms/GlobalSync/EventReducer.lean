import OpenCms.GlobalSync.SessionTrim

/-!
# What an event does to the client's copy

Each event of the server changes the store at once (`OpenCms.GlobalSync.applyDirectoryEvent`);
besides there are the windows that a compaction opens and closes, the session that is looked at,
and the sweep that removes the oldest messages when there are too many of them. What the reducer
remembers outside the store – which messages it knows, which are still being written, how much of
a text it has applied – is part of the state.

The clock, the settings and the size of the store are parameters.
-/

namespace OpenCms.GlobalSync

variable {ι V : Type*} [LinearOrder ι] [OrderBot ι]

/-! ### The parts of a message -/

/-- A text that is cut in front. -/
structure Windowed where
  text : JsString
  truncatedPrefix : ℕ

def applyStreamingOomCap (text : JsString) (cfg : Tweaks) : Windowed :=
  if cfg.lazyload = false then ⟨text, 0⟩
  else
    let cap := cfg.tail_window_kb * 1024 * 16
    if text.length ≤ cap then ⟨text, 0⟩
    else
      let truncatedPrefix := text.length - cap
      ⟨text.drop truncatedPrefix, truncatedPrefix⟩

/-- What a text that comes as a whole is taken for. -/
inductive Decision
  | append
  | replace
  deriving DecidableEq

def classifyNonDeltaUpdate (existingText incomingText : JsString) : Decision :=
  if incomingText.length ≤ existingText.length then .replace
  else
    let compareLen := min 1024 existingText.length
    if compareLen = 0 then .replace
    else if existingText.take compareLen = incomingText.take compareLen then .append
    else .replace

def mergeMetadata (existing incoming : Option (JsString → Option V)) :
    Option (JsString → Option V) :=
  match incoming, existing with
  | none, _ => existing
  | some new, none => some new
  | some new, some old => some fun key => (new key).or (old key)

def appendDelta (cfg : Tweaks) (existing part : Part ι V) (existingText delta : JsString) :
    Part ι V :=
  let rawText := part.text.getD (existingText ++ delta)
  let windowed := applyStreamingOomCap rawText cfg
  let effectiveTruncated := existing.truncatedPrefix.getD 0 + windowed.truncatedPrefix
  { existing.setText windowed.text with
    truncatedPrefix :=
      if effectiveTruncated > 0 then some effectiveTruncated
      else if existing.truncatedPrefix.isSome then some 0
      else none
    metadata := mergeMetadata existing.metadata part.metadata }

def appendRebuild (cfg : Tweaks) (existing part : Part ι V) (partText : JsString) : Part ι V :=
  let windowed := applyStreamingOomCap partText cfg
  { existing.setText windowed.text with
    truncatedPrefix :=
      if windowed.truncatedPrefix > 0 then some windowed.truncatedPrefix
      else existing.truncatedPrefix
    metadata := mergeMetadata existing.metadata part.metadata }

def capped (cfg : Tweaks) (part : Part ι V) : Part ι V :=
  match part.text with
  | none => part
  | some text =>
    let windowed := applyStreamingOomCap text cfg
    if windowed.truncatedPrefix > 0 then
      { part.setText windowed.text with truncatedPrefix := some windowed.truncatedPrefix }
    else part

/-- Where the same file is already, under whatever identifier. -/
def semanticIndex (part : Part ι V) (parts : List (Part ι V)) : Option ℕ :=
  match part.body with
  | .file url mime =>
    let isInlineImage := (js "data:image/").isPrefixOf url
    parts.findIdx? fun existing =>
      match existing.body with
      | .file url' mime' => url' == url && (isInlineImage || mime' == mime)
      | .text .. => false
      | .other => false
  | .text .. => none
  | .other => none

/-- The part takes the place of the one with its identifier, or of the same file, or is put
between its neighbours. -/
def receive (cfg : Tweaks) (part : Part ι V) (parts : List (Part ι V)) : List (Part ι V) :=
  let part := capped cfg part
  let result := Binary.search parts part.id Part.id
  if result.found then parts.set result.index part
  else
    match semanticIndex part parts with
    | some index => parts.set index part
    | none => parts.insertIdx result.index part

def findText (parts : List (Part ι V)) (id : ι) : Option (ℕ × Part ι V × JsString) :=
  let result := Binary.search parts id Part.id
  if result.found then
    parts[result.index]?.bind fun existing =>
      existing.text.map fun text => (result.index, existing, text)
  else none

/-- The properties of `message.part.updated`. -/
structure PartUpdate (ι V : Type*) where
  part : Part ι V
  delta : Option JsString
  textLength : Option ℕ

def PartUpdate.hasDelta (props : PartUpdate ι V) : Bool := props.delta.getD [] != []

def PartUpdate.reconstructed (props : PartUpdate ι V) : Part ι V :=
  if props.part.text.isSome then props.part else props.part.setText (props.delta.getD [])

def Client.setParts (w : Client ι V) (messageID : ι) (parts : List (Part ι V)) : Client ι V :=
  { w with store := { w.store with
      part := Function.update w.store.part messageID (some parts) } }

/-- How much of a text has been applied, as far as it is known. -/
def Client.applied (w : Client ι V) (part : Part ι V) (existingText : JsString) : ℕ :=
  (w.appliedTextLength (part.messageID, part.id)).getD existingText.length

def partUpdated (cfg : Tweaks) (props : PartUpdate ι V) (w : Client ι V) : Client ι V :=
  let part := props.part
  let delta := props.delta.getD []
  match w.store.part part.messageID with
  | none => w.setParts part.messageID [capped cfg part]
  | some parts =>
    if props.hasDelta ∧ part.isText then
      match findText parts part.id with
      | some (index, existing, existingText) =>
        let appended := parts.set index (appendDelta cfg existing part existingText delta)
        match props.textLength with
        | some textLength =>
          if textLength ≤ w.applied part existingText then w
          else
            { w.setParts part.messageID appended with
              appliedTextLength :=
                Function.update w.appliedTextLength (part.messageID, part.id) (some textLength) }
        | none => w.setParts part.messageID appended
      | none => w.setParts part.messageID (receive cfg props.reconstructed parts)
    else
      match part.text, findText parts part.id with
      | some partText, some (index, existing, existingText) =>
        match classifyNonDeltaUpdate existingText partText with
        | .append =>
          w.setParts part.messageID (parts.set index (appendRebuild cfg existing part partText))
        | .replace => w.setParts part.messageID (receive cfg part parts)
      | _, _ => w.setParts part.messageID (receive cfg part parts)

def partRemoved (messageID partID : ι) (store : State ι V) : State ι V :=
  match store.part messageID with
  | none => store
  | some parts =>
    let result := Binary.search parts partID Part.id
    if result.found then
      let list := parts.eraseIdx result.index
      { store with
        part := Function.update store.part messageID (if list.length = 0 then none else some list) }
    else store

/-! ### The requests of a session -/

def asked (request : Request ι V) (requests : ι → Option (List (Request ι V))) :
    ι → Option (List (Request ι V)) :=
  match requests request.sessionID with
  | none => Function.update requests request.sessionID (some [request])
  | some list =>
    Function.update requests request.sessionID (some (Binary.put list request Request.id))

/-- `permission.replied`, `question.replied` and `question.rejected`. -/
def replied (sessionID requestID : ι) (requests : ι → Option (List (Request ι V))) :
    ι → Option (List (Request ι V)) :=
  match requests sessionID with
  | none => requests
  | some list =>
    Function.update requests sessionID (some (Binary.remove list requestID Request.id))

/-! ### Sessions -/

def cleanupSessionCaches (store : State ι V) (sessionID : ι) : State ι V :=
  if sessionID = ⊥ then store
  else
    { store with
      part := ((store.messages sessionID).getD []).foldl (fun part message =>
        if message.id = ⊥ then part else Function.update part message.id none) store.part
      message := Table.erase Prod.fst sessionID store.message
      permission := Function.update store.permission sessionID none
      question := Function.update store.question sessionID none
      session_status := Function.update store.session_status sessionID none }

def insertSession (now : ℤ) (info : Session ι V) (store : State ι V) : State ι V :=
  let result := Binary.search store.session info.id Session.id
  let next := store.session.insertIdx result.index info
  { store with session := trimSessions next store.limit store.permission now }

def sessionCreated (now : ℤ) (info : Session ι V) (store : State ι V) : State ι V :=
  let result := Binary.search store.session info.id Session.id
  if result.found then { store with session := store.session.set result.index info }
  else
    let store := insertSession now info store
    { store with
      sessionTotal := if info.isRoot then store.sessionTotal + 1 else store.sessionTotal }

def sessionDeleted (info : Session ι V) (store : State ι V) : State ι V :=
  let store := cleanupSessionCaches
    { store with session := Binary.remove store.session info.id Session.id } info.id
  { store with sessionTotal := if info.isRoot then store.sessionTotal - 1 else store.sessionTotal }

def sessionUpdated (now : ℤ) (info : Session ι V) (store : State ι V) : State ι V :=
  if info.isArchived then sessionDeleted info store
  else
    let result := Binary.search store.session info.id Session.id
    if result.found then { store with session := store.session.set result.index info }
    else insertSession now info store

/-! ### Messages -/

def State.setMessages (store : State ι V) (sessionID : ι) (messages : List (Message ι V)) :
    State ι V :=
  { store with message := Table.upsert Prod.fst (sessionID, messages) store.message }

def messageUpdated (info : Message ι V) (w : Client ι V) : Client ι V :=
  let w := { w with
    liveStreamingIds := Function.update w.liveStreamingIds info.id (isMessageLive info) }
  let known := { w with knownMessageIds := Function.update w.knownMessageIds info.id true }
  match w.store.messages info.sessionID with
  | none => { known with store := w.store.setMessages info.sessionID [info] }
  | some messages =>
    match messages.findIdx? fun m => m.id = info.id with
    | some existingIdx =>
      if w.compactionWindows info.sessionID ∧ ¬w.liveStreamingIds info.id then w
      else { w with store := w.store.setMessages info.sessionID (messages.set existingIdx info) }
    | none =>
      -- a message that is known is looked for once more in the store, where it is not
      if w.knownMessageIds info.id then w
      else { known with store := w.store.setMessages info.sessionID (messages ++ [info]) }

def State.dropMessage (store : State ι V) (sessionID messageID : ι) : State ι V :=
  { store with
    message :=
      match store.messages sessionID with
      | none => store.message
      | some messages =>
        match messages.findIdx? fun m => m.id = messageID with
        | none => store.message
        | some index =>
          Table.upsert Prod.fst (sessionID, messages.eraseIdx index) store.message
    part := Function.update store.part messageID none }

def messageRemoved (sessionID messageID : ι) (w : Client ι V) : Client ι V :=
  let w := { w with
    knownMessageIds := Function.update w.knownMessageIds messageID false
    liveStreamingIds := Function.update w.liveStreamingIds messageID false }
  if w.compactionWindows sessionID then w
  else { w with store := w.store.dropMessage sessionID messageID }

/-! ### All events -/

/-- The events that change what is modelled of the store. -/
inductive Event (ι V : Type*)
  | sessionCreated (info : Session ι V)
  | sessionUpdated (info : Session ι V)
  | sessionDeleted (info : Session ι V)
  | sessionStatus (sessionID : ι) (status : SessionStatus)
  | workspaceUpdated (activeSessionId : Option ι)
  | messageUpdated (info : Message ι V)
  | messageRemoved (sessionID messageID : ι)
  | partUpdated (props : PartUpdate ι V)
  | partRemoved (messageID partID : ι)
  | permissionAsked (permission : Request ι V)
  | permissionReplied (sessionID requestID : ι)
  | questionAsked (question : Request ι V)
  /-- `question.replied` and `question.rejected`. -/
  | questionReplied (sessionID requestID : ι)

def applyDirectoryEvent (cfg : Tweaks) (now : ℤ) (w : Client ι V) : Event ι V → Client ι V
  | .sessionCreated info => { w with store := sessionCreated now info w.store }
  | .sessionUpdated info => { w with store := sessionUpdated now info w.store }
  | .sessionDeleted info => { w with store := sessionDeleted info w.store }
  | .sessionStatus sessionID status =>
    { w with store := { w.store with
        session_status := Function.update w.store.session_status sessionID (some status) } }
  | .workspaceUpdated activeSessionId =>
    { w with store := { w.store with activeSessionId := activeSessionId } }
  | .messageUpdated info => messageUpdated info w
  | .messageRemoved sessionID messageID => messageRemoved sessionID messageID w
  | .partUpdated props => partUpdated cfg props w
  | .partRemoved messageID partID => { w with store := partRemoved messageID partID w.store }
  | .permissionAsked permission =>
    { w with store := { w.store with permission := asked permission w.store.permission } }
  | .permissionReplied sessionID requestID =>
    { w with store :=
        { w.store with permission := replied sessionID requestID w.store.permission } }
  | .questionAsked question =>
    { w with store := { w.store with question := asked question w.store.question } }
  | .questionReplied sessionID requestID =>
    { w with store := { w.store with question := replied sessionID requestID w.store.question } }

/-! ### Compaction windows, and the sweep -/

def beginCompactionWindow (sessionID : ι) (w : Client ι V) : Client ι V :=
  if sessionID = ⊥ then w
  else { w with compactionWindows := Function.update w.compactionWindows sessionID true }

def endCompactionWindow (sessionID : ι) (w : Client ι V) : Client ι V :=
  if sessionID = ⊥ then w
  else { w with compactionWindows := Function.update w.compactionWindows sessionID false }

def setViewingSession (sessionID : Option ι) (w : Client ι V) : Client ι V :=
  { w with viewingSessionId := sessionID.filter (· ≠ ⊥) }

/-- `buildProtectedSessionIds`. -/
def protectedSession (w : Client ι V) (sessionID : ι) : Bool :=
  w.viewingSessionId.filter (· ≠ ⊥) = some sessionID ||
    w.store.activeSessionId.filter (· ≠ ⊥) = some sessionID ||
    match w.store.session_status sessionID with
    | none => false
    | some status => status != .idle

def computeGlobalEvictions (messagesBySession : List (ι × List (Message ι V))) (cap : ℕ)
    (live protectedId : ι → Bool) : List (ι × ι) :=
  let all := messagesBySession.flatMap fun entry =>
    if protectedId entry.1 then []
    else (entry.2.filter fun msg => msg.id ≠ ⊥).map fun msg => (entry.1, msg.id)
  if all.length ≤ cap then []
  else
    let overage := all.length - cap
    let sorted := all.insertionSort fun a b => cmp a.2 b.2 ≤ 0
    (sorted.filter fun candidate => !live candidate.2).take overage

def runDeferredEviction (cap : ℕ) (w : Client ι V) : Client ι V :=
  let decisions :=
    computeGlobalEvictions w.store.message cap w.liveStreamingIds (protectedSession w)
  { w with store := decisions.foldl (fun store decision =>
      if (store.messages decision.1).isSome then store.dropMessage decision.1 decision.2
      else store) w.store }

end OpenCms.GlobalSync
