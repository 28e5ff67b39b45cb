import OpenCms.Lib.JsonText
import Mathlib.Data.List.Nodup

/-!
# What the messages become for a provider

`ProviderTransform.message` makes the messages fit for a model. Claude and Mistral allow some
characters only in the ids of calls, and Mistral nine of them, so the ids are rewritten, in the
calls and in the results alike. Nothing keeps two ids apart that become the same. The calls keep
their results, and nobody else's, exactly if no two ids of the messages do
(`OpenCms.ProviderTransform.paired_iff`).
-/

namespace OpenCms.ProviderTransform

open JsString

/-! ### Messages and models -/

/-- `providerOptions`. -/
abbrev Options : Type := Members String JsString

inductive Role
  | system
  | user
  | assistant
  | tool
  deriving DecidableEq

/-- What a part is, with what it has besides in `ρ`. An image is what `toString` makes of it. -/
inductive Body (ρ : Type)
  | text (text : JsString)
  | reasoning (text : JsString)
  | image (image : JsString) (rest : ρ)
  | file (mediaType : JsString) (filename : Option JsString) (rest : ρ)
  | toolCall (toolCallId : JsString) (rest : ρ)
  | toolResult (toolCallId : JsString) (rest : ρ)
  | other (rest : ρ)

structure Part (ρ : Type) where
  body : Body ρ
  providerOptions : Option Options

/-- `ModelMessage["content"]`. -/
inductive Content (ρ : Type)
  | string (text : JsString)
  | parts (parts : List (Part ρ))

structure ModelMessage (ρ : Type) where
  role : Role
  content : Content ρ
  providerOptions : Option Options

inductive Modality
  | image
  | audio
  | video
  | pdf
  deriving DecidableEq

/-- `Provider.Model`. Of `interleaved` there is the field, if it names one. -/
structure Model where
  id : String
  providerId : String
  npm : String
  apiId : String
  interleaved : Option String
  input : Modality → Bool

variable {ρ : Type}

def Content.map (f : Part ρ → Part ρ) : Content ρ → Content ρ
  | .string text => .string text
  | .parts content => .parts (content.map f)

def ModelMessage.parts (msg : ModelMessage ρ) : List (Part ρ) :=
  match msg.content with
  | .string _ => []
  | .parts parts => parts

def ModelMessage.hasTools (msg : ModelMessage ρ) : Bool :=
  msg.role = .assistant ∨ msg.role = .tool

def includes (s search : String) : Bool := OpenCms.includes s.toList search.toList

/-! ### `unsupportedParts` -/

def mimeToModality (mime : JsString) : Option Modality :=
  if (js "image/").isPrefixOf mime then some .image
  else if (js "audio/").isPrefixOf mime then some .audio
  else if (js "video/").isPrefixOf mime then some .video
  else if mime = js "application/pdf" then some .pdf
  else none

def Modality.name : Modality → JsString
  | image => js "image"
  | audio => js "audio"
  | video => js "video"
  | pdf => js "pdf"

def beforeSemicolon (s : JsString) : JsString := s.takeWhile fun c => c ≠ 0x3B

/-- An image of which `/^data:([^;]+);base64,(.*)$/` finds nothing in the second group. -/
def isEmptyImage (image : JsString) : Bool :=
  let inside := image.drop (js "data:").length
  (js "data:").isPrefixOf image && beforeSemicolon inside ≠ [] &&
    inside.drop (beforeSemicolon inside).length = js ";base64,"

def imageMime (image : JsString) : JsString :=
  let first := beforeSemicolon image
  match indexOf (js "data:") first with
  | some i => first.take i ++ first.drop (i + (js "data:").length)
  | none => first

def supported (model : Model) (part : Part ρ) (mime : JsString) (filename : Option JsString) :
    Part ρ :=
  match mimeToModality mime with
  | none => part
  | some modality =>
    if model.input modality then part
    else
      let name := match filename.filter (· ≠ []) with
        | some filename => js "\"" ++ filename ++ js "\""
        | none => modality.name
      ⟨.text (js "ERROR: Cannot read " ++ name ++ js " (this model does not support " ++
        modality.name ++ js " input). Inform the user."), none⟩

def supportedPart (model : Model) (part : Part ρ) : Part ρ :=
  match part.body with
  | .image image _ =>
    if isEmptyImage image then
      ⟨.text (js "ERROR: Image file is empty or corrupted. Please provide a valid image."), none⟩
    else supported model part (imageMime image) none
  | .file mediaType filename _ => supported model part mediaType filename
  | _ => part

def unsupportedParts (model : Model) (msgs : List (ModelMessage ρ)) : List (ModelMessage ρ) :=
  msgs.map fun msg =>
    if msg.role = .user then { msg with content := msg.content.map (supportedPart model) } else msg

/-! ### `normalizeMessages` -/

def Part.isEmpty (part : Part ρ) : Bool :=
  match part.body with
  | .text text => text = []
  | .reasoning text => text = []
  | _ => false

def withoutEmpty (msg : ModelMessage ρ) : Option (ModelMessage ρ) :=
  match msg.content with
  | .string text => if text = [] then none else some msg
  | .parts parts =>
    let filtered := parts.filter fun part => !part.isEmpty
    if filtered = [] then none else some { msg with content := .parts filtered }

/-- A character of `[a-zA-Z0-9]`. -/
def isAlphanumeric (c : UInt16) : Bool :=
  97 ≤ c.toNat ∧ c.toNat ≤ 122 ∨ 65 ≤ c.toNat ∧ c.toNat ≤ 90 ∨ JsString.isDigit c

/-- A character of `[^a-zA-Z0-9_-]`. -/
def isReplaced (c : UInt16) : Bool := !(isAlphanumeric c || c = 0x5F || c = 0x2D)

def claudeId (toolCallId : JsString) : JsString :=
  toolCallId.map fun c => if isReplaced c then 0x5F else c

/-- The id for Mistral: nine letters and digits, with zeros behind them if there are fewer. -/
def mistralId (toolCallId : JsString) : JsString :=
  let s := (toolCallId.filter isAlphanumeric).take 9
  s ++ List.replicate (9 - s.length) 0x30

def Part.withId (newId : JsString → JsString) (part : Part ρ) : Part ρ :=
  match part.body with
  | .toolCall toolCallId rest => { part with body := .toolCall (newId toolCallId) rest }
  | .toolResult toolCallId rest => { part with body := .toolResult (newId toolCallId) rest }
  | _ => part

def withIds (newId : JsString → JsString) (msg : ModelMessage ρ) : ModelMessage ρ :=
  if msg.hasTools then { msg with content := msg.content.map (Part.withId newId) } else msg

/-- What is put between the messages of tools and of the user. -/
def done : ModelMessage ρ := ⟨.assistant, .parts [⟨.text (js "Done."), none⟩], none⟩

def mistralMessages : List (ModelMessage ρ) → List (ModelMessage ρ)
  | [] => []
  | msg :: msgs =>
    withIds mistralId msg ::
      if msg.role = .tool ∧ msgs.head?.any (fun next => next.role = .user) then
        done :: mistralMessages msgs
      else mistralMessages msgs

def Part.thought (part : Part ρ) : Option JsString :=
  match part.body with
  | .reasoning text => some text
  | _ => none

def interleave (field : String) (msg : ModelMessage ρ) : ModelMessage ρ :=
  match msg.role, msg.content with
  | .assistant, .parts parts =>
    let reasoningText := (parts.filterMap Part.thought).flatten
    let msg := { msg with content := .parts (parts.filter fun part => part.thought = none) }
    if reasoningText = [] then msg
    else
      let options := msg.providerOptions.getD []
      let openaiCompatible := match Members.get options "openaiCompatible" with
        | some (.obj members) => members
        | _ => []
      { msg with providerOptions := some (Members.set options "openaiCompatible"
          (.obj (Members.set openaiCompatible field (.str reasoningText)))) }
  | _, _ => msg

section Transform

-- `toLowerCase` and `toLocaleLowerCase`, and `mergeDeep` of `remeda`.
variable (lower localeLower : String → String) (mergeDeep : Options → Options → Options)
  (model : Model) (msgs : List (ModelMessage ρ))

def Model.isClaude (model : Model) : Bool := includes model.apiId "claude"

def Model.isMistral (model : Model) : Bool :=
  model.providerId = "mistral" || includes (lower model.apiId) "mistral" ||
    includes (localeLower model.apiId) "devstral"

def normalizeMessages : List (ModelMessage ρ) :=
  let msgs :=
    if model.npm = "@ai-sdk/anthropic" ∨ model.npm = "@ai-sdk/google" ∨
        includes (lower model.apiId) "deepseek" then msgs.filterMap withoutEmpty
    else msgs
  if model.isClaude then msgs.map (withIds claudeId)
  else if model.isMistral lower localeLower then mistralMessages msgs
  else
    match model.interleaved with
    | some field => msgs.map (interleave field)
    | none => msgs

/-! ### `applyCaching` -/

def cachingOptions : Options :=
  let ephemeral : Json String JsString := .obj [("type", .str (js "ephemeral"))]
  [("anthropic", .obj [("cacheControl", ephemeral)]),
    ("openrouter", .obj [("cacheControl", ephemeral)]),
    ("bedrock", .obj [("cachePoint", .obj [("type", .str (js "default"))])]),
    ("openaiCompatible", .obj [("cache_control", ephemeral)]),
    ("copilot", .obj [("copilot_cache_control", ephemeral)])]

def merged (providerOptions : Option Options) : Option Options :=
  some (mergeDeep (providerOptions.getD []) cachingOptions)

def Part.isBreakpoint (part : Part ρ) : Bool :=
  match part.providerOptions.bind fun options => Members.get options "phaseB" with
  | some (.obj members) =>
    match Members.get members "breakpoint" with
    | some (.bool b) => b
    | _ => false
  | _ => false

def Part.cached (part : Part ρ) : Part ρ :=
  { part with providerOptions := merged mergeDeep part.providerOptions }

/-- A message that is marked, in its last part if it may be, unless it has marks of its own. -/
def legacyCached (useMessageLevelOptions : Bool) (msg : ModelMessage ρ) : ModelMessage ρ :=
  if msg.parts.any Part.isBreakpoint then msg
  else if !useMessageLevelOptions && msg.parts ≠ [] then
    let cached := msg.parts.modify (msg.parts.length - 1) (Part.cached mergeDeep)
    { msg with content := .parts cached }
  else { msg with providerOptions := merged mergeDeep msg.providerOptions }

/-- The messages of `[...system, ...final]`. -/
def legacyIndices : List ℕ :=
  let indices (system : Bool) :=
    (msgs.zipIdx.filter fun m => decide (m.1.role = .system) = system).map Prod.snd
  (indices true).take 2 ++ (indices false).drop ((indices false).length - 2)

def applyCaching (providerId : String) : List (ModelMessage ρ) :=
  let useMessageLevelOptions := includes providerId "bedrock"
  let marked :=
    if useMessageLevelOptions then msgs
    else msgs.map fun msg => { msg with content := msg.content.map fun part =>
      if part.isBreakpoint then part.cached mergeDeep else part }
  (legacyIndices msgs).foldl
    (fun msgs i => msgs.modify i (legacyCached mergeDeep useMessageLevelOptions)) marked

/-! ### `ProviderTransform.message` -/

def sdkKey (npm : String) : Option String :=
  if npm = "@ai-sdk/github-copilot" then some "copilot"
  else if npm = "@ai-sdk/openai" ∨ npm = "@ai-sdk/azure" then some "openai"
  else if npm = "@ai-sdk/amazon-bedrock" then some "bedrock"
  else if npm = "@ai-sdk/anthropic" ∨ npm = "@ai-sdk/google-vertex/anthropic" then some "anthropic"
  else if npm = "@ai-sdk/google-vertex" ∨ npm = "@ai-sdk/google" then some "google"
  else if npm = "@ai-sdk/gateway" then some "gateway"
  else if npm = "@openrouter/ai-sdk-provider" then some "openrouter"
  else none

def remap (providerId key : String) (opts : Options) : Options :=
  match Members.get opts providerId with
  | none => opts
  | some value => (Members.set opts key value).filter fun kv => kv.1 ≠ providerId

def remapMessage (providerId key : String) (msg : ModelMessage ρ) : ModelMessage ρ :=
  { msg with
    providerOptions := msg.providerOptions.map (remap providerId key)
    content := msg.content.map fun part =>
      { part with providerOptions := part.providerOptions.map (remap providerId key) } }

def message (subscription : Bool) : List (ModelMessage ρ) :=
  let msgs := normalizeMessages lower localeLower model (unsupportedParts model msgs)
  let isCached := includes model.apiId "anthropic" || includes model.apiId "claude" ||
    includes model.id "anthropic" || includes model.id "claude" || model.npm = "@ai-sdk/anthropic"
  let isSubscription := subscription || includes model.providerId "subscription"
  let isNativeProvider := model.npm = "@opencode-ai/provider-claude" ∨
    model.npm = "@opencode-ai/provider-codex"
  let msgs :=
    if isCached ∧ ¬isSubscription ∧ ¬isNativeProvider then
      applyCaching mergeDeep msgs model.providerId
    else msgs
  match sdkKey model.npm with
  | none => msgs
  | some key =>
    if key ≠ model.providerId ∧ model.npm ≠ "@ai-sdk/azure" then
      msgs.map (remapMessage model.providerId key)
    else msgs

end Transform

/-! ### Calls and their results -/

/-- A call or a result: its id, and what it has besides. -/
structure Ref (ρ : Type) where
  isCall : Bool
  toolCallId : JsString
  rest : ρ

def Part.ref (part : Part ρ) : Option (Ref ρ) :=
  match part.body with
  | .toolCall toolCallId rest => some ⟨true, toolCallId, rest⟩
  | .toolResult toolCallId rest => some ⟨false, toolCallId, rest⟩
  | _ => none

def ModelMessage.refs (msg : ModelMessage ρ) : List (Ref ρ) :=
  if msg.hasTools then msg.parts.filterMap Part.ref else []

def refs (msgs : List (ModelMessage ρ)) : List (Ref ρ) := msgs.flatMap ModelMessage.refs

def callIds (refs : List (Ref ρ)) : List JsString := (refs.filter Ref.isCall).map Ref.toolCallId

def Named (refs : List (Ref ρ)) : Prop :=
  ∀ (j : ℕ) (r : Ref ρ), refs[j]? = some r → r.isCall = false →
    ∃ i c, i < j ∧ refs[i]? = some c ∧ c.isCall ∧ c.toolCallId = r.toolCallId

/-- The calls keep their results: none is dropped, distinct calls have distinct ids, and a result
names a call afterwards exactly if it did before. -/
structure Paired (before after : List (Ref ρ)) : Prop where
  kept : after.map (fun r => (r.isCall, r.rest)) = before.map fun r => (r.isCall, r.rest)
  distinct : (callIds after).Nodup
  named : ∀ (i j : ℕ) (c r c' r' : Ref ρ), before[i]? = some c → before[j]? = some r →
    after[i]? = some c' → after[j]? = some r' → c.isCall → r.isCall = false →
      (c'.toolCallId = r'.toolCallId ↔ c.toolCallId = r.toolCallId)

/-- Two ids that cannot be told apart any more. For Claude they differ in characters only that are
`_` or become it; for Mistral they have the same first nine letters and digits, where zeros stand
for those that are missing. -/
def Collide (lower localeLower : String → String) (model : Model) (a b : JsString) : Prop :=
  if model.isClaude then
    List.Forall₂ (fun c d => c = d ∨
      (c = 0x5F ∨ isReplaced c) ∧ (d = 0x5F ∨ isReplaced d)) a b
  else if model.isMistral lower localeLower then
    ∀ k < 9, (a.filter isAlphanumeric)[k]?.getD 0x30 = (b.filter isAlphanumeric)[k]?.getD 0x30
  else a = b

/-! ### Rewritten ids -/

section Ids

variable {a b : JsString}

theorem unit_eq_iff (c d : UInt16) :
    (if isReplaced c then 0x5F else c) = (if isReplaced d then 0x5F else d) ↔
      c = d ∨ (c = 0x5F ∨ isReplaced c) ∧ (d = 0x5F ∨ isReplaced d) := by
  by_cases hc : isReplaced c = true
  · by_cases hd : isReplaced d = true
    · simp only [hc, hd, if_true, or_true, and_self]
    · rw [if_pos hc, if_neg hd]
      constructor
      · intro heq
        exact Or.inr ⟨Or.inr hc, Or.inl heq.symm⟩
      · rintro (rfl | ⟨-, rfl | hd'⟩)
        · exact absurd hc hd
        · rfl
        · exact absurd hd' hd
  · by_cases hd : isReplaced d = true
    · rw [if_neg hc, if_pos hd]
      constructor
      · intro heq
        exact Or.inr ⟨Or.inl heq, Or.inr hd⟩
      · rintro (rfl | ⟨rfl | hc', -⟩)
        · exact absurd hd hc
        · rfl
        · exact absurd hc' hc
    · rw [if_neg hc, if_neg hd]
      constructor
      · exact Or.inl
      · rintro (heq | ⟨hc' | hc', hd' | hd'⟩)
        · exact heq
        · rw [hc', hd']
        · exact absurd hd' hd
        · exact absurd hc' hc
        · exact absurd hc' hc

theorem claudeId_eq_iff : claudeId a = claudeId b ↔ List.Forall₂ (fun c d => c = d ∨
    (c = 0x5F ∨ isReplaced c) ∧ (d = 0x5F ∨ isReplaced d)) a b := by
  unfold claudeId
  rw [← List.forall₂_eq_eq_eq, List.forall₂_map_left_iff, List.forall₂_map_right_iff]
  simp only [unit_eq_iff]

theorem getElem?_mistralId (a : JsString) (k : ℕ) :
    (mistralId a)[k]? =
      if k < 9 then some ((a.filter isAlphanumeric)[k]?.getD 0x30) else none := by
  unfold mistralId
  generalize a.filter isAlphanumeric = s
  have hlength := List.length_take (l := s) (i := 9)
  by_cases hk : k < 9
  · rw [if_pos hk]
    by_cases hks : k < s.length
    · rw [List.getElem?_append_left (by omega), List.getElem?_take_of_lt hk,
        List.getElem?_eq_getElem hks, Option.getD_some]
    · rw [List.getElem?_append_right (by omega), List.getElem?_replicate_of_lt (by omega),
        List.getElem?_eq_none (by omega), Option.getD_none]
  · rw [if_neg hk]
    refine List.getElem?_eq_none ?_
    rw [List.length_append, List.length_replicate]
    omega

theorem mistralId_eq_iff : mistralId a = mistralId b ↔ ∀ k < 9,
    (a.filter isAlphanumeric)[k]?.getD 0x30 = (b.filter isAlphanumeric)[k]?.getD 0x30 := by
  constructor
  · intro heq k hk
    have hk' := getElem?_mistralId a k
    rw [heq, getElem?_mistralId b k, if_pos hk, if_pos hk] at hk'
    exact (Option.some.inj hk').symm
  · intro h
    refine List.ext_getElem? fun k => ?_
    rw [getElem?_mistralId, getElem?_mistralId]
    by_cases hk : k < 9
    · rw [if_pos hk, if_pos hk, h k hk]
    · rw [if_neg hk, if_neg hk]

end Ids

/-! ### The calls and results of the messages -/

section Refs

variable {msg : ModelMessage ρ} {msgs : List (ModelMessage ρ)} {newId : JsString → JsString}
  {f : ModelMessage ρ → ModelMessage ρ}

def Ref.rename (newId : JsString → JsString) (r : Ref ρ) : Ref ρ :=
  { r with toolCallId := newId r.toolCallId }

theorem rename_id : Ref.rename (ρ := ρ) id = id := rfl

theorem refs_map {g : Ref ρ → Ref ρ} (h : ∀ msg ∈ msgs, (f msg).refs = msg.refs.map g) :
    refs (msgs.map f) = (refs msgs).map g := by
  unfold refs
  rw [List.flatMap_map, List.map_flatMap]
  exact List.flatMap_congr h

theorem refs_map_same (h : ∀ msg, (f msg).refs = msg.refs) : refs (msgs.map f) = refs msgs := by
  have hid : ∀ msg ∈ msgs, (f msg).refs = msg.refs.map id := by
    intro msg _
    rw [h, List.map_id]
  rw [refs_map hid, List.map_id]

theorem refs_modify (h : ∀ msg, (f msg).refs = msg.refs) (i : ℕ) :
    refs (msgs.modify i f) = refs msgs := by
  induction msgs generalizing i with
  | nil => simp
  | cons msg msgs ih =>
    rcases i with - | i
    · rw [List.modify_zero_cons]
      simp only [refs, List.flatMap_cons, h]
    · rw [List.modify_succ_cons]
      simp only [refs, List.flatMap_cons] at ih ⊢
      rw [ih]

theorem refs_content_map {f : Part ρ → Part ρ} {g : Ref ρ → Ref ρ}
    (h : ∀ part, (f part).ref = part.ref.map g) (msg : ModelMessage ρ)
    (providerOptions : Option Options) :
    ModelMessage.refs ⟨msg.role, msg.content.map f, providerOptions⟩ = msg.refs.map g := by
  unfold ModelMessage.refs ModelMessage.parts ModelMessage.hasTools
  split
  · rcases msg.content with text | parts
    · rfl
    · simp only [Content.map]
      rw [List.filterMap_map, List.map_filterMap]
      exact List.filterMap_congr fun part _ => h part
  · rfl

theorem refs_content_map_same {f : Part ρ → Part ρ} (h : ∀ part, (f part).ref = part.ref)
    (msg : ModelMessage ρ) (providerOptions : Option Options) :
    ModelMessage.refs ⟨msg.role, msg.content.map f, providerOptions⟩ = msg.refs := by
  have hid : ∀ part, (f part).ref = part.ref.map id := by
    intro part
    rw [h, Option.map_id, id]
  rw [refs_content_map hid, List.map_id]

theorem refs_remapMessage (providerId key : String) (msg : ModelMessage ρ) :
    (remapMessage providerId key msg).refs = msg.refs :=
  refs_content_map_same
    (f := fun part => ⟨part.body, part.providerOptions.map (remap providerId key)⟩)
    (fun _ => rfl) msg _

theorem refs_filter {parts : List (Part ρ)} (keep : Part ρ → Bool)
    (h : ∀ part, keep part = false → part.ref = none) (hcontent : msg.content = .parts parts) :
    ModelMessage.refs { msg with content := .parts (parts.filter keep) } = msg.refs := by
  unfold ModelMessage.refs ModelMessage.parts ModelMessage.hasTools
  rw [hcontent]
  split
  · simp only [List.filterMap_filter]
    refine List.filterMap_congr fun part _ => ?_
    rcases hkeep : keep part with - | -
    · simp [h part hkeep]
    · simp
  · rfl

theorem refs_unsupportedParts (model : Model) : refs (unsupportedParts model msgs) = refs msgs := by
  refine refs_map_same fun msg => ?_
  split
  · next huser =>
    -- Messages of the user have no calls.
    have hnone : msg.hasTools = false := by
      unfold ModelMessage.hasTools
      rw [huser]
      decide
    unfold ModelMessage.refs
    rw [hnone, show ModelMessage.hasTools { msg with
      content := msg.content.map (supportedPart model) } = msg.hasTools from rfl, hnone]
    rfl
  · rfl

theorem ref_withId (part : Part ρ) :
    (part.withId newId).ref = part.ref.map (Ref.rename newId) := by
  rcases part with ⟨body, providerOptions⟩
  cases body <;> rfl

theorem refs_withIds (msg : ModelMessage ρ) :
    (withIds newId msg).refs = msg.refs.map (Ref.rename newId) := by
  unfold withIds
  split
  · exact refs_content_map ref_withId msg _
  · next hnone => simp [ModelMessage.refs, hnone]

theorem refs_withoutEmpty : refs (msgs.filterMap withoutEmpty) = refs msgs := by
  have hone : ∀ msg : ModelMessage ρ,
      ((withoutEmpty msg).toList.flatMap ModelMessage.refs) = msg.refs := by
    intro msg
    rcases hcontent : msg.content with text | parts
    · have hrefs : msg.refs = [] := by simp [ModelMessage.refs, ModelMessage.parts, hcontent]
      simp only [withoutEmpty, hcontent]
      split <;> simp [hrefs]
    · have hrefs := refs_filter (fun part => !part.isEmpty) (fun part hempty => by
        rcases part with ⟨body, providerOptions⟩
        cases body <;> first | rfl | cases hempty) hcontent
      simp only [withoutEmpty, hcontent]
      split
      · next hnil =>
        rw [hnil] at hrefs
        rw [← hrefs]
        simp [ModelMessage.refs, ModelMessage.parts]
      · simpa using hrefs
  induction msgs with
  | nil => rfl
  | cons msg msgs ih =>
    have hmsg := hone msg
    unfold refs at ih ⊢
    rw [List.filterMap_cons, List.flatMap_cons, ← hmsg]
    rcases withoutEmpty msg with - | msg'
    · simpa using ih
    · simp [ih]

theorem refs_mistralMessages :
    refs (mistralMessages msgs) = (refs msgs).map (Ref.rename mistralId) := by
  induction msgs with
  | nil => rfl
  | cons msg msgs ih =>
    unfold refs at ih ⊢
    rw [mistralMessages, List.flatMap_cons, List.flatMap_cons, List.map_append, refs_withIds]
    split
    · rw [List.flatMap_cons, ih]
      rfl
    · rw [ih]

theorem refs_interleave (field : String) (msg : ModelMessage ρ) :
    (interleave field msg).refs = msg.refs := by
  unfold interleave
  split
  · next parts hrole hcontent =>
    have hrefs := refs_filter (fun part => decide (part.thought = none))
      (fun part hthought => by
        rcases part with ⟨body, providerOptions⟩
        cases body <;> first | rfl | simp [Part.thought] at hthought) hcontent
    dsimp only
    split
    · exact hrefs
    · exact hrefs
  · rfl

end Refs

/-! ### The result -/

section Message

variable (lower localeLower : String → String) (mergeDeep : Options → Options → Options)
  (model : Model)

def newId : JsString → JsString :=
  if model.isClaude then claudeId
  else if model.isMistral lower localeLower then mistralId
  else id

variable {lower localeLower mergeDeep model} {msgs : List (ModelMessage ρ)}

theorem newId_eq_iff {a b : JsString} :
    newId lower localeLower model a = newId lower localeLower model b ↔
      Collide lower localeLower model a b := by
  unfold newId Collide
  split
  · exact claudeId_eq_iff
  · split
    · exact mistralId_eq_iff
    · exact Iff.rfl

theorem refs_normalizeMessages :
    refs (normalizeMessages lower localeLower model msgs) =
      (refs msgs).map (Ref.rename (newId lower localeLower model)) := by
  unfold normalizeMessages newId
  have hempty : refs (if model.npm = "@ai-sdk/anthropic" ∨ model.npm = "@ai-sdk/google" ∨
      includes (lower model.apiId) "deepseek" then msgs.filterMap withoutEmpty else msgs) =
        refs msgs := by
    split
    · exact refs_withoutEmpty
    · rfl
  dsimp only
  split
  · rw [refs_map fun msg _ => refs_withIds msg, hempty]
  · split
    · rw [refs_mistralMessages, hempty]
    · rw [rename_id, List.map_id]
      split
      · rw [refs_map_same (refs_interleave _), hempty]
      · exact hempty

theorem refs_legacyCached (useMessageLevelOptions : Bool) (msg : ModelMessage ρ) :
    (legacyCached mergeDeep useMessageLevelOptions msg).refs = msg.refs := by
  unfold legacyCached
  split
  · rfl
  · split
    · have hparts : (msg.parts.modify (msg.parts.length - 1) (Part.cached mergeDeep)).filterMap
          Part.ref = msg.parts.filterMap Part.ref := by
        generalize msg.parts.length - 1 = i
        induction msg.parts generalizing i with
        | nil => simp
        | cons part parts ih =>
          rcases i with - | i
          · rfl
          · rw [List.modify_succ_cons, List.filterMap_cons, List.filterMap_cons, ih i]
      unfold ModelMessage.refs ModelMessage.hasTools
      split
      · exact hparts
      · rfl
    · rfl

theorem refs_applyCaching (providerId : String) :
    refs (applyCaching mergeDeep msgs providerId) = refs msgs := by
  have hfold : ∀ (is : List ℕ) (useMessageLevelOptions : Bool) (msgs : List (ModelMessage ρ)),
      refs (is.foldl (fun msgs i => msgs.modify i (legacyCached mergeDeep useMessageLevelOptions))
        msgs) = refs msgs := by
    intro is useMessageLevelOptions
    induction is with
    | nil => exact fun msgs => rfl
    | cons i is ih =>
      intro msgs
      rw [List.foldl_cons, ih, refs_modify (refs_legacyCached useMessageLevelOptions)]
  unfold applyCaching
  rw [hfold]
  split
  · rfl
  · refine refs_map_same fun msg => refs_content_map_same (fun part => ?_) msg _
    split <;> rfl

/-- **The calls and results of the messages are the old ones with new ids.** -/
theorem refs_message (subscription : Bool) :
    refs (message lower localeLower mergeDeep model msgs subscription) =
      (refs msgs).map (Ref.rename (newId lower localeLower model)) := by
  have hnormalized :
      refs (normalizeMessages lower localeLower model (unsupportedParts model msgs)) =
        (refs msgs).map (Ref.rename (newId lower localeLower model)) := by
    rw [refs_normalizeMessages, refs_unsupportedParts]
  unfold message
  generalize normalizeMessages lower localeLower model (unsupportedParts model msgs) = normalized
    at hnormalized
  have hcached : ∀ P : Prop, [Decidable P] → refs (if P then
      applyCaching mergeDeep normalized model.providerId else normalized) = refs normalized := by
    intro P _
    split
    · exact refs_applyCaching model.providerId
    · rfl
  rcases sdkKey model.npm with - | key
  · rw [hcached, hnormalized]
  · dsimp only
    split
    · rw [refs_map_same (refs_remapMessage model.providerId key), hcached, hnormalized]
    · rw [hcached, hnormalized]

end Message

theorem paired_rename_iff {before : List (Ref ρ)} {f : JsString → JsString}
    (hnodup : (callIds before).Nodup) (hnamed : Named before) :
    Paired before (before.map (Ref.rename f)) ↔
      ∀ a ∈ callIds before, ∀ b ∈ callIds before, f a = f b → a = b := by
  have hids : callIds (before.map (Ref.rename f)) = (callIds before).map f := by
    unfold callIds
    rw [List.filter_map, List.map_map, List.map_map]
    rfl
  constructor
  · intro h a ha b hb heq
    have hdistinct := h.distinct
    rw [hids] at hdistinct
    exact List.inj_on_of_nodup_map hdistinct ha hb heq
  · intro hinj
    constructor
    case kept =>
      rw [List.map_map]
      rfl
    case distinct =>
      rw [hids]
      exact hnodup.map_on hinj
    case named =>
      intro i j c r c' r' hc hr hc' hr' hcall hresult
      rw [List.getElem?_map, hc] at hc'
      rw [List.getElem?_map, hr] at hr'
      rw [← Option.some.inj hc', ← Option.some.inj hr']
      have hmem : ∀ {k : ℕ} {d : Ref ρ}, before[k]? = some d → d.isCall →
          d.toolCallId ∈ callIds before := fun hd hcall =>
        List.mem_map_of_mem (List.mem_filter.mpr ⟨List.mem_of_getElem? hd, hcall⟩)
      -- The result has the id of a call.
      obtain ⟨k, d, -, hd, hdcall, hdr⟩ := hnamed j r hr hresult
      have hr_mem := hmem hd hdcall
      rw [hdr] at hr_mem
      exact ⟨hinj _ (hmem hc hcall) _ hr_mem, congrArg f⟩

/-- **The calls of the messages keep their results exactly if no two ids of them collide.** -/
theorem paired_iff (lower localeLower : String → String)
    (mergeDeep : Options → Options → Options) (model : Model) (subscription : Bool)
    {msgs : List (ModelMessage ρ)} (hnodup : (callIds (refs msgs)).Nodup)
    (hnamed : Named (refs msgs)) :
    Paired (refs msgs) (refs (message lower localeLower mergeDeep model msgs subscription)) ↔
      ∀ a ∈ callIds (refs msgs), ∀ b ∈ callIds (refs msgs),
        Collide lower localeLower model a b → a = b := by
  rw [refs_message, paired_rename_iff hnodup hnamed]
  simp only [newId_eq_iff]

def claude : Model :=
  ⟨"claude", "anthropic", "@ai-sdk/anthropic", "claude", none, fun modality => modality = .image⟩

def callAndResult (toolCallId : String) : List (ModelMessage Unit) :=
  [⟨.assistant, .parts [⟨.toolCall (js toolCallId) (), none⟩], none⟩,
    ⟨.tool, .parts [⟨.toolResult (js toolCallId) (), none⟩], none⟩]

/-- Two calls, whose ids become `call_1` and `call_2`. -/
theorem paired_iff_two :
    Paired (refs (callAndResult "call:1" ++ callAndResult "call:2"))
      (refs (message id id (fun _ options => options) claude
        (callAndResult "call:1" ++ callAndResult "call:2") false)) :=
  (paired_iff id id (fun _ options => options) claude false (by decide) (by
    intro j r hr hresult
    rcases j with - | - | - | - | j
    · rw [← Option.some.inj hr] at hresult
      cases hresult
    · rw [← Option.some.inj hr]
      exact ⟨0, _, by decide, rfl, rfl, rfl⟩
    · rw [← Option.some.inj hr] at hresult
      cases hresult
    · rw [← Option.some.inj hr]
      exact ⟨2, _, by decide, rfl, rfl, rfl⟩
    · cases hr)).mpr (by
      simp only [← newId_eq_iff]
      decide)

/-- Two ids become the same. -/
theorem not_paired :
    ¬∀ msgs : List (ModelMessage Unit), (callIds (refs msgs)).Nodup → Named (refs msgs) →
      Paired (refs msgs)
        (refs (message id id (fun _ options => options) claude msgs false)) := by
  intro h
  have hpaired := h [⟨.assistant, .parts [⟨.toolCall (js "call:1") (), none⟩,
    ⟨.toolCall (js "call_1") (), none⟩], none⟩] (by decide) (by
      intro j r hr hresult
      rcases j with - | - | j
      · rw [← Option.some.inj hr] at hresult
        cases hresult
      · rw [← Option.some.inj hr] at hresult
        cases hresult
      · cases hr)
  exact absurd hpaired.distinct (by decide)

end OpenCms.ProviderTransform
