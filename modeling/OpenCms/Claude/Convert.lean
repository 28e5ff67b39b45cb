import OpenCms.Lib.JsString
import Mathlib.Algebra.BigOperators.Group.List.Basic
import Mathlib.Data.List.TakeWhile
import Mathlib.Algebra.GroupWithZero.Nat

/-!
# What of a request is cached

A request may have four markers up to which it is cached. Two are set in the system blocks, by
`convertSystemBlocks`, and two in the messages, by `applyConversationCacheBreakpoint`: one in the
last message, and one before what changes with every request. This is the preface, a message that is
put in front of the last one of the user. Neither marker is in a preface, and behind these markers
it is not known any more which messages were prefaces.

The second marker comes before all prefaces that have other messages behind them, except if the
first message is a preface itself: then it is in the last message but one
(`OpenCms.Claude.Convert.request_markers`).
-/

namespace OpenCms.Claude.Convert

open JsString

/-! ### Blocks and messages -/

/-- `CacheControl`, which is ephemeral, and lives for the time of `CLAUDE_CACHE_TTL`. -/
structure CacheControl where
  scope : Option String
  ttl : Option String
  deriving DecidableEq

/-- What `cache_control` of a block can be. -/
inductive CacheField
  | absent
  | null
  | marker (control : CacheControl)
  deriving DecidableEq

def CacheField.isMarker : CacheField → Bool
  | marker _ => true
  | _ => false

def ephemeral (scope : Option String) : CacheField := .marker ⟨scope, some "1h"⟩

inductive BlockType
  | text
  | image
  | toolUse
  | toolResult
  | thinking
  | redactedThinking
  deriving DecidableEq

/-- `AnthropicContentBlock`: its type, what it is made of, and its marker. -/
structure Block (ρ : Type) where
  type : BlockType
  rest : ρ
  cacheControl : CacheField
  deriving DecidableEq

/-- `AnthropicMessage["content"]`. -/
inductive Content (ρ : Type)
  | string (text : ρ)
  | blocks (blocks : List (Block ρ))
  deriving DecidableEq

/-- `AnthropicMessage`. -/
structure Message (ρ : Type) where
  user : Bool
  content : Content ρ
  isContextPreface : Option Bool
  deriving DecidableEq

variable {ρ : Type}

def Message.blocks (m : Message ρ) : List (Block ρ) :=
  match m.content with
  | .string _ => []
  | .blocks blocks => blocks

def Message.markers (m : Message ρ) : ℕ := m.blocks.countP fun b => b.cacheControl.isMarker

def Message.isPreface (m : Message ρ) : Bool := m.isContextPreface = some true

/-! ### `convertPrompt` -/

/-- A part of a message of the user: what is converted of it, and whether it is marked as a part of
the preface. -/
inductive UserPart (ρ : Type)
  | text (rest : ρ) (contextPreface : Bool)
  | file (isUrl : Bool) (rest : ρ) (contextPreface : Bool)

inductive AssistantPart (ρ : Type)
  | text (rest : ρ)
  | reasoning (rest : ρ) (signature : Option JsString)
  | toolCall (rest : ρ)
  | other

inductive PromptMessage (ρ : Type)
  | system
  | user (parts : List (UserPart ρ)) (contextPreface : Bool)
  | assistant (parts : List (AssistantPart ρ))
  | tool (results : List ρ)

def UserPart.toBlock : UserPart ρ → Block ρ
  | text rest _ => ⟨.text, rest, .absent⟩
  | file isUrl rest _ => ⟨if isUrl then .text else .image, rest, .absent⟩

def UserPart.contextPreface : UserPart ρ → Bool
  | text _ contextPreface => contextPreface
  | file _ _ contextPreface => contextPreface

def AssistantPart.toBlock : AssistantPart ρ → Option (Block ρ)
  | text rest => some ⟨.text, rest, .absent⟩
  | reasoning rest signature =>
    if signature.getD [] = [] then none else some ⟨.thinking, rest, .absent⟩
  | toolCall rest => some ⟨.toolUse, rest, .absent⟩
  | other => none

def PromptMessage.convert : PromptMessage ρ → Option (Message ρ)
  | system => none
  | user parts contextPreface =>
    let blocks := parts.map UserPart.toBlock
    let isContextPreface := parts.any UserPart.contextPreface || contextPreface
    if blocks = [] then none
    else some ⟨true, .blocks blocks, if isContextPreface then some true else none⟩
  | assistant parts =>
    let blocks := parts.filterMap AssistantPart.toBlock
    if blocks = [] then none else some ⟨false, .blocks blocks, none⟩
  | tool results =>
    let blocks := results.map fun rest => ⟨.toolResult, rest, .absent⟩
    if blocks = [] then none else some ⟨true, .blocks blocks, none⟩

def convertPrompt (prompt : List (PromptMessage ρ)) : List (Message ρ) :=
  (prompt.filterMap PromptMessage.convert).rdropWhile fun m => !m.user

/-! ### `applyConversationCacheBreakpoint` -/

/-- `f`, for the indices below one. -/
def lastReal (messages : List (Message ρ)) : ℕ → Option ℕ
  | 0 => none
  | i + 1 => if messages[i]?.any Message.isPreface then lastReal messages i else some i

def firstPrefaceIdx (messages : List (Message ρ)) : Option ℕ :=
  messages.findIdx? Message.isPreface

def lastIdx (messages : List (Message ρ)) : Option ℕ := lastReal messages messages.length

def secondIdx (messages : List (Message ρ)) : Option ℕ :=
  match lastIdx messages with
  | none => none
  | some lastIdx =>
    let secondIdx :=
      match firstPrefaceIdx messages with
      | none => lastReal messages lastIdx
      | some first =>
        if 0 < first ∧ first < lastIdx then some (first - 1) else lastReal messages lastIdx
    secondIdx.filter fun i => i < lastIdx

def mark (msg : Message ρ) : Message ρ :=
  match msg.content with
  | .string _ => msg
  | .blocks blocks =>
    match blocks.getLast? with
    | none => msg
    | some last =>
      if last.type = .thinking ∨ last.type = .redactedThinking then msg
      else { msg with
        content := .blocks (blocks.dropLast ++ [{ last with cacheControl := ephemeral none }]) }

def strip (m : Message ρ) : Message ρ := { m with isContextPreface := none }

def breakpoints (messages : List (Message ρ)) : List ℕ :=
  (lastIdx messages).toList ++ (secondIdx messages).toList

def applyConversationCacheBreakpoint (messages : List (Message ρ)) (enableCaching : Bool) :
    List (Message ρ) :=
  let marked :=
    if !enableCaching || messages.isEmpty then messages
    else (breakpoints messages).foldl (fun messages idx => messages.modify idx mark) messages
  marked.map strip

/-! ### `convertSystemBlocks` -/

/-- `AnthropicSystemBlock`. -/
structure SystemBlock where
  text : JsString
  cacheControl : CacheField
  deriving DecidableEq

structure ConvertSystemOptions where
  systemText : Option JsString
  enableCaching : Bool
  identity : JsString
  billingContent : Option JsString
  lowFreqText : Option JsString

def boundaryMarker : JsString := js "__SYSTEM_PROMPT_DYNAMIC_BOUNDARY__"

def cached (enableCaching : Bool) (scope : Option String) : CacheField :=
  if enableCaching then ephemeral scope else .absent

def textBlocks (enableCaching : Bool) (systemText : JsString) : List SystemBlock :=
  match indexOf boundaryMarker systemText with
  | some boundaryIdx =>
    let staticPart := trim (systemText.take boundaryIdx)
    let dynamicPart := trim (systemText.drop (boundaryIdx + boundaryMarker.length))
    (if staticPart = [] then [] else [⟨staticPart, cached enableCaching (some "global")⟩]) ++
      if dynamicPart = [] then [] else [⟨dynamicPart, .absent⟩]
  | none => [⟨systemText, cached enableCaching (some "org")⟩]

def convertSystemBlocks (buildBillingHeader : JsString → JsString)
    (options : ConvertSystemOptions) : List SystemBlock :=
  let systemText := options.systemText.getD []
  let lowFreqText := options.lowFreqText.getD []
  let hasLowFreq := trim lowFreqText ≠ []
  let billing := options.billingContent.getD []
  let dropIdentityBreakpoint := hasLowFreq ∧ systemText ≠ []
  let blocks :=
    (if billing = [] then []
      else [⟨js "x-anthropic-billing-header: " ++ buildBillingHeader billing, .null⟩]) ++
    [⟨options.identity, if dropIdentityBreakpoint then .absent
      else cached options.enableCaching (some "org")⟩] ++
    (if systemText = [] then [] else textBlocks options.enableCaching systemText) ++
    if hasLowFreq then [⟨lowFreqText, cached options.enableCaching none⟩] else []
  blocks.filter fun b => trim b.text ≠ []

def systemMarkers (blocks : List SystemBlock) : ℕ :=
  blocks.countP fun b => b.cacheControl.isMarker

def messageMarkers (messages : List (Message ρ)) : ℕ := (messages.map Message.markers).sum

/-! ### Markers of the system blocks -/

section System

variable {enableCaching : Bool} {scope : Option String}

theorem isMarker_cached : (cached enableCaching scope).isMarker = enableCaching := by
  cases enableCaching <;> rfl

theorem systemMarkers_textBlocks (systemText : JsString) :
    systemMarkers (textBlocks enableCaching systemText) ≤ if enableCaching then 1 else 0 := by
  unfold textBlocks
  split
  · simp only [systemMarkers, List.countP_append]
    have hdynamic : ∀ part : JsString, List.countP (fun b : SystemBlock => b.cacheControl.isMarker)
        (if part = [] then [] else [⟨part, .absent⟩]) = 0 := by
      intro part
      split <;> rfl
    rw [hdynamic, Nat.add_zero]
    split
    · exact Nat.zero_le _
    · simp [isMarker_cached]
  · simp [systemMarkers, isMarker_cached]

theorem countP_cached (text : JsString) :
    List.countP (fun b : SystemBlock => b.cacheControl.isMarker)
      [⟨text, cached enableCaching scope⟩] = if enableCaching then 1 else 0 := by
  simp [isMarker_cached]

theorem countP_no_marker (text : JsString) :
    List.countP (fun b : SystemBlock => b.cacheControl.isMarker) [⟨text, .absent⟩] = 0 := rfl

/-- **The system blocks have two markers**, at most, and none without caching. -/
theorem systemMarkers_convertSystemBlocks (buildBillingHeader : JsString → JsString)
    (options : ConvertSystemOptions) :
    systemMarkers (convertSystemBlocks buildBillingHeader options) ≤
      if options.enableCaching then 2 else 0 := by
  have htext := @systemMarkers_textBlocks options.enableCaching
    (options.systemText.getD [])
  have hbilling : List.countP (fun b : SystemBlock => b.cacheControl.isMarker)
      (if options.billingContent.getD [] = [] then []
        else [⟨js "x-anthropic-billing-header: " ++
          buildBillingHeader (options.billingContent.getD []), .null⟩]) = 0 := by
    split <;> rfl
  refine (List.Sublist.countP_le List.filter_sublist).trans ?_
  simp only [systemMarkers] at htext
  simp only [List.countP_append]
  rw [hbilling]
  -- The identity has a marker of its own if there are not two texts behind it.
  by_cases hlow : trim (options.lowFreqText.getD []) = []
  · rw [if_neg (fun h => h.1 hlow), if_neg (not_not.mpr hlow), List.countP_nil, countP_cached]
    by_cases hsystem : options.systemText.getD [] = []
    · rw [if_pos hsystem, List.countP_nil]
      split <;> omega
    · rw [if_neg hsystem]
      split at htext
      · next h =>
        simp only [if_pos h]
        omega
      · next h =>
        simp only [if_neg h]
        omega
  · rw [if_pos hlow, countP_cached]
    by_cases hsystem : options.systemText.getD [] = []
    · rw [if_neg (fun h => h.2 hsystem), if_pos hsystem, List.countP_nil, countP_cached]
      split <;> omega
    · rw [if_pos ⟨hlow, hsystem⟩, if_neg hsystem, countP_no_marker]
      split at htext
      · next h =>
        simp only [if_pos h]
        omega
      · next h =>
        simp only [if_neg h]
        omega

end System

/-! ### Markers of the messages -/

section Messages

variable {messages : List (Message ρ)} {m : Message ρ} {i n : ℕ}

theorem lastReal_eq_some (h : lastReal messages n = some i) :
    i < n ∧ messages[i]?.any Message.isPreface = false ∧
      ∀ j, i < j → j < n → messages[j]?.any Message.isPreface := by
  induction n with
  | zero => cases h
  | succ n ih =>
    rw [lastReal] at h
    split at h
    · next hpreface =>
      obtain ⟨hlt, hreal, hbetween⟩ := ih h
      refine ⟨by omega, hreal, fun j hij hjn => ?_⟩
      rcases Nat.lt_or_ge j n with hlt' | hge
      · exact hbetween j hij hlt'
      · obtain rfl : j = n := by omega
        exact hpreface
    · next hpreface =>
      obtain rfl := Option.some.inj h
      exact ⟨by omega, by simpa using hpreface, fun j hij hjn => by omega⟩

def IsReal (messages : List (Message ρ)) (i : ℕ) : Prop :=
  ∃ m, messages[i]? = some m ∧ m.isPreface = false

def IsPrefaceAt (messages : List (Message ρ)) (i : ℕ) : Prop :=
  ∃ m, messages[i]? = some m ∧ m.isPreface

theorem isReal_of_any (hi : i < messages.length)
    (h : messages[i]?.any Message.isPreface = false) : IsReal messages i := by
  refine ⟨messages[i], List.getElem?_eq_getElem hi, ?_⟩
  rw [List.getElem?_eq_getElem hi] at h
  exact h

theorem IsReal.not_any (h : IsReal messages i) : ¬messages[i]?.any Message.isPreface := by
  obtain ⟨m, hm, hreal⟩ := h
  rw [hm]
  simpa using hreal

theorem IsReal.lt (h : IsReal messages i) : i < messages.length := by
  obtain ⟨m, hm, -⟩ := h
  exact (List.getElem?_eq_some_iff.mp hm).1

theorem le_lastIdx {last : ℕ} (hlast : lastIdx messages = some last) (h : IsReal messages i) :
    i ≤ last := by
  obtain ⟨-, -, hbetween⟩ := lastReal_eq_some hlast
  by_contra hlt
  exact h.not_any (hbetween i (by omega) h.lt)

theorem isReal_lastIdx {last : ℕ} (hlast : lastIdx messages = some last) :
    IsReal messages last := by
  obtain ⟨hlt, hreal, -⟩ := lastReal_eq_some hlast
  exact isReal_of_any hlt hreal

theorem firstPrefaceIdx_eq_some {first : ℕ} (h : firstPrefaceIdx messages = some first) :
    IsPrefaceAt messages first ∧ ∀ j < first, IsReal messages j := by
  obtain ⟨hlt, hpreface, hbefore⟩ := List.findIdx?_eq_some_iff_getElem.mp h
  refine ⟨⟨messages[first], List.getElem?_eq_getElem hlt, hpreface⟩, fun j hj => ?_⟩
  refine ⟨messages[j], List.getElem?_eq_getElem (by omega), ?_⟩
  simpa using hbefore j hj

theorem secondIdx_eq_some (h : secondIdx messages = some i) : ∃ last,
    lastIdx messages = some last ∧ i < last ∧
      ((∃ first, firstPrefaceIdx messages = some first ∧ 0 < first ∧ first < last ∧
          i + 1 = first) ∨
        ((∀ first, firstPrefaceIdx messages = some first → ¬(0 < first ∧ first < last)) ∧
          lastReal messages last = some i)) := by
  rcases hlast : lastIdx messages with - | last
  · simp [secondIdx, hlast] at h
  · simp only [secondIdx, hlast, Option.filter_eq_some_iff, decide_eq_true_eq] at h
    obtain ⟨hi, hlt⟩ := h
    refine ⟨last, rfl, hlt, ?_⟩
    rcases hfirst : firstPrefaceIdx messages with - | first
    · rw [hfirst] at hi
      exact Or.inr ⟨by simp, hi⟩
    · simp only [hfirst] at hi
      split at hi
      · next hmid =>
        have hi := Option.some.inj hi
        exact Or.inl ⟨first, rfl, hmid.1, hmid.2, by omega⟩
      · next hmid =>
        refine Or.inr ⟨fun first' hfirst' => ?_, hi⟩
        rwa [← Option.some.inj hfirst']

theorem isReal_secondIdx (h : secondIdx messages = some i) : IsReal messages i := by
  obtain ⟨last, hlast, hlt, ⟨first, hfirst, -, -, heq⟩ | ⟨-, hreal⟩⟩ := secondIdx_eq_some h
  · exact (firstPrefaceIdx_eq_some hfirst).2 i (by omega)
  · have hlast_lt := (isReal_lastIdx hlast).lt
    exact isReal_of_any (by omega) (lastReal_eq_some hreal).2.1

theorem isReal_of_mem_breakpoints (h : i ∈ breakpoints messages) : IsReal messages i := by
  rcases List.mem_append.mp h with h | h
  · exact isReal_lastIdx (Option.mem_toList.mp h)
  · exact isReal_secondIdx (Option.mem_toList.mp h)

/-- **The second marker is before the prefaces** that have other messages behind them, if the first
message is none. -/
theorem secondIdx_lt (hhead : messages.head?.any Message.isPreface = false)
    (h : secondIdx messages = some i) {p r : ℕ} (hp : IsPrefaceAt messages p) (hpr : p < r)
    (hr : IsReal messages r) : i < p := by
  obtain ⟨m, hm, hpreface⟩ := hp
  obtain ⟨last, hlast, -, hsecond⟩ := secondIdx_eq_some h
  have hrlast := le_lastIdx hlast hr
  -- There is a first preface, and it is not the first message.
  rcases hfirst : firstPrefaceIdx messages with - | first
  · have hnone := List.findIdx?_eq_none_iff.mp hfirst m (List.mem_of_getElem? hm)
    rw [hnone] at hpreface
    cases hpreface
  · obtain ⟨⟨m', hm', hpreface'⟩, hbefore⟩ := firstPrefaceIdx_eq_some hfirst
    have hfirst_le : first ≤ p := by
      by_contra hlt
      obtain ⟨m'', hm'', hreal⟩ := hbefore p (by omega)
      rw [hm] at hm''
      rw [Option.some.inj hm'', hreal] at hpreface
      cases hpreface
    have hfirst_pos : 0 < first := by
      rcases Nat.eq_zero_or_pos first with rfl | hpos
      · rw [List.head?_eq_getElem?, hm'] at hhead
        rw [Option.any_some, hpreface'] at hhead
        cases hhead
      · exact hpos
    rcases hsecond with ⟨first', hfirst', -, -, heq⟩ | ⟨hnot, -⟩
    · rw [hfirst] at hfirst'
      obtain rfl := Option.some.inj hfirst'
      omega
    · exact absurd ⟨hfirst_pos, by omega⟩ (hnot first hfirst)

end Messages

/-! ### Marking -/

section Marking

variable {messages : List (Message ρ)} {m : Message ρ} {i : ℕ}

def Allowed (m : Message ρ) : Prop :=
  ∀ b ∈ m.blocks, b.cacheControl.isMarker → b.type ≠ .thinking ∧ b.type ≠ .redactedThinking

theorem mark_cases (m : Message ρ) : mark m = m ∨ ∃ front last,
    m.content = .blocks (front ++ [last]) ∧
      last.type ≠ .thinking ∧ last.type ≠ .redactedThinking ∧
      mark m = { m with
        content := .blocks (front ++ [{ last with cacheControl := ephemeral none }]) } := by
  rcases hcontent : m.content with text | blocks
  · exact Or.inl (by simp only [mark, hcontent])
  · rcases hlast : blocks.getLast? with - | last
    · exact Or.inl (by simp only [mark, hcontent, hlast])
    · by_cases hthought : last.type = .thinking ∨ last.type = .redactedThinking
      · exact Or.inl (by simp only [mark, hcontent, hlast, if_pos hthought])
      · obtain ⟨front, rfl⟩ := List.getLast?_eq_some_iff.mp hlast
        have hmark : mark m = { m with
            content := .blocks (front ++ [{ last with cacheControl := ephemeral none }]) } := by
          simp only [mark, hcontent, hlast, if_neg hthought, List.dropLast_concat]
        rw [not_or] at hthought
        exact Or.inr ⟨front, last, rfl, hthought.1, hthought.2, hmark⟩

theorem markers_mark (m : Message ρ) : (mark m).markers ≤ m.markers + 1 := by
  rcases mark_cases m with heq | ⟨front, last, hcontent, -, -, heq⟩
  · rw [heq]
    omega
  · rw [heq]
    simp only [Message.markers, Message.blocks, hcontent, List.countP_append]
    have hone : List.countP (fun b : Block ρ => b.cacheControl.isMarker)
        [{ last with cacheControl := ephemeral none }] ≤ 1 := List.countP_le_length
    omega

theorem allowed_mark (h : Allowed m) : Allowed (mark m) := by
  rcases mark_cases m with heq | ⟨front, last, hcontent, hthinking, hredacted, heq⟩
  · rwa [heq]
  · rw [heq]
    intro b hb hmarker
    rcases List.mem_append.mp hb with hb | hb
    · have hmem : b ∈ m.blocks := by
        rw [Message.blocks, hcontent]
        exact List.mem_append_left _ hb
      exact h b hmem hmarker
    · rw [List.mem_singleton.mp hb]
      exact ⟨hthinking, hredacted⟩

theorem markers_modify (messages : List (Message ρ)) (i : ℕ) :
    messageMarkers (messages.modify i mark) ≤ messageMarkers messages + 1 := by
  unfold messageMarkers
  induction messages generalizing i with
  | nil => simp
  | cons m messages ih =>
    rcases i with - | i
    · rw [List.modify_zero_cons, List.map_cons, List.map_cons, List.sum_cons, List.sum_cons]
      have hmark := markers_mark m
      omega
    · rw [List.modify_succ_cons, List.map_cons, List.map_cons, List.sum_cons, List.sum_cons]
      have hrest := ih i
      omega

theorem markers_foldl (is : List ℕ) (messages : List (Message ρ)) :
    messageMarkers (is.foldl (fun messages idx => messages.modify idx mark) messages) ≤
      messageMarkers messages + is.length := by
  induction is generalizing messages with
  | nil => exact Nat.le_refl _
  | cons i is ih =>
    have hrest := ih (messages.modify i mark)
    have hmark := markers_modify messages i
    rw [List.foldl_cons, List.length_cons]
    omega

theorem getElem?_foldl {is : List ℕ} (hi : i ∉ is) (messages : List (Message ρ)) :
    (is.foldl (fun messages idx => messages.modify idx mark) messages)[i]? = messages[i]? := by
  induction is generalizing messages with
  | nil => rfl
  | cons k is ih =>
    rw [List.mem_cons, not_or] at hi
    rw [List.foldl_cons, ih hi.2, List.getElem?_modify]
    rcases messages[i]? with - | m
    · rfl
    · show some (if k = i then mark m else m) = some m
      rw [if_neg (Ne.symm hi.1)]

theorem allowed_foldl {is : List ℕ} (h : ∀ m ∈ messages, Allowed m) :
    ∀ m ∈ is.foldl (fun messages idx => messages.modify idx mark) messages, Allowed m := by
  induction is generalizing messages with
  | nil => exact h
  | cons k is ih =>
    refine ih fun m hm => ?_
    obtain ⟨j, hj⟩ := List.getElem?_of_mem hm
    rw [List.getElem?_modify] at hj
    obtain ⟨m', hm', heq⟩ := Option.map_eq_some_iff.mp hj
    have hmem : m' ∈ messages := List.mem_of_getElem? hm'
    split at heq
    · rw [← heq]
      exact allowed_mark (h m' hmem)
    · rw [← heq]
      exact h m' hmem

theorem messageMarkers_strip (messages : List (Message ρ)) :
    messageMarkers (messages.map strip) = messageMarkers messages := by
  rw [messageMarkers, List.map_map]
  rfl

def Unmarked (messages : List (Message ρ)) : Prop := ∀ m ∈ messages, m.markers = 0

theorem Unmarked.messageMarkers (h : Unmarked messages) : messageMarkers messages = 0 := by
  refine List.sum_eq_zero fun n hn => ?_
  obtain ⟨m, hm, rfl⟩ := List.mem_map.mp hn
  exact h m hm

theorem unmarked_convertPrompt (prompt : List (PromptMessage ρ)) :
    Unmarked (convertPrompt prompt) := by
  intro m hm
  have hmem := (List.rdropWhile_prefix _ _).subset hm
  obtain ⟨message, -, hconvert⟩ := List.mem_filterMap.mp hmem
  have hblocks : ∀ blocks : List (Block ρ), (∀ b ∈ blocks, b.cacheControl = .absent) →
      blocks.countP (fun b => b.cacheControl.isMarker) = 0 := by
    intro blocks habsent
    rw [List.countP_eq_zero]
    intro b hb
    rw [habsent b hb]
    decide
  rcases message with - | ⟨parts, contextPreface⟩ | parts | results
  · cases hconvert
  · simp only [PromptMessage.convert] at hconvert
    split at hconvert
    · cases hconvert
    · rw [← Option.some.inj hconvert]
      refine hblocks _ fun b hb => ?_
      obtain ⟨part, -, rfl⟩ := List.mem_map.mp hb
      rcases part with - | -
      · rfl
      · rfl
  · simp only [PromptMessage.convert] at hconvert
    split at hconvert
    · cases hconvert
    · rw [← Option.some.inj hconvert]
      refine hblocks _ fun b hb => ?_
      obtain ⟨part, -, hpart⟩ := List.mem_filterMap.mp hb
      unfold AssistantPart.toBlock at hpart
      split at hpart
      · rw [← Option.some.inj hpart]
      · split at hpart
        · cases hpart
        · rw [← Option.some.inj hpart]
      · rw [← Option.some.inj hpart]
      · cases hpart
  · simp only [PromptMessage.convert] at hconvert
    split at hconvert
    · cases hconvert
    · rw [← Option.some.inj hconvert]
      refine hblocks _ fun b hb => ?_
      obtain ⟨rest, -, rfl⟩ := List.mem_map.mp hb
      rfl

theorem mem_breakpoints_of_marked {enableCaching : Bool} (hunmarked : Unmarked messages)
    (hm : (applyConversationCacheBreakpoint messages enableCaching)[i]? = some m)
    (hmarked : 0 < m.markers) : i ∈ breakpoints messages := by
  by_contra hi
  unfold applyConversationCacheBreakpoint at hm
  rw [List.getElem?_map] at hm
  obtain ⟨m', hm', rfl⟩ := Option.map_eq_some_iff.mp hm
  have hmem : m' ∈ messages := by
    split at hm'
    · exact List.mem_of_getElem? hm'
    · rw [getElem?_foldl hi] at hm'
      exact List.mem_of_getElem? hm'
  have hzero : (strip m').markers = 0 := hunmarked m' hmem
  omega

end Marking

/-! ### Markers of a request -/

/-- The markers of a request: four at most, none in thoughts or in a preface, and none without
caching; those that are not in the last real message come before the prefaces that have other
messages behind them; and no message says that it is a preface. -/
structure IsMarked (messages : List (Message ρ)) (enableCaching : Bool)
    (system : List SystemBlock) (out : List (Message ρ)) : Prop where
  budget : systemMarkers system + messageMarkers out ≤ 4
  allowed : ∀ m ∈ out, Allowed m
  real : ∀ i m, out[i]? = some m → 0 < m.markers → IsReal messages i
  off : enableCaching = false → systemMarkers system = 0 ∧ messageMarkers out = 0
  stable : messages.head?.any Message.isPreface = false →
    ∀ i m, out[i]? = some m → 0 < m.markers → (∃ r, i < r ∧ IsReal messages r) →
      ∀ p, IsPrefaceAt messages p → (∃ r, p < r ∧ IsReal messages r) → i < p
  stripped : ∀ m ∈ out, m.isContextPreface = none

/-- **The markers of a request**, whose messages have none before. -/
theorem request_markers (buildBillingHeader : JsString → JsString) (options : ConvertSystemOptions)
    {messages : List (Message ρ)} (hunmarked : Unmarked messages) :
    IsMarked messages options.enableCaching (convertSystemBlocks buildBillingHeader options)
      (applyConversationCacheBreakpoint messages options.enableCaching) := by
  have hsystem := systemMarkers_convertSystemBlocks buildBillingHeader options
  have hzero := hunmarked.messageMarkers
  have hlength : (breakpoints messages).length ≤ 2 := by
    rw [breakpoints, List.length_append]
    rcases lastIdx messages with - | last <;> rcases secondIdx messages with - | second <;> simp
  constructor
  case budget =>
    have hmessages : messageMarkers
        (applyConversationCacheBreakpoint messages options.enableCaching) ≤ 2 := by
      unfold applyConversationCacheBreakpoint
      rw [messageMarkers_strip]
      split
      · omega
      · have hfoldl := markers_foldl (breakpoints messages) messages
        omega
    split at hsystem <;> omega
  case allowed =>
    have hallowed : ∀ m ∈ messages, Allowed m := by
      intro m hm b hb hmarker
      exact absurd hmarker (List.countP_eq_zero.mp (hunmarked m hm) b hb)
    intro m hm
    obtain ⟨m', hm', rfl⟩ := List.mem_map.mp hm
    split at hm'
    · exact hallowed m' hm'
    · exact allowed_foldl hallowed m' hm'
  case real =>
    intro i m hm hmarked
    exact isReal_of_mem_breakpoints (mem_breakpoints_of_marked hunmarked hm hmarked)
  case off =>
    intro hoff
    rw [hoff] at hsystem ⊢
    refine ⟨Nat.le_zero.mp hsystem, ?_⟩
    have hsame : applyConversationCacheBreakpoint messages false = messages.map strip := rfl
    rw [hsame, messageMarkers_strip, hzero]
  case stable =>
    intro hhead i m hm hmarked ⟨r, hir, hr⟩ p hp ⟨r', hpr', hr'⟩
    rcases List.mem_append.mp (mem_breakpoints_of_marked hunmarked hm hmarked) with hi | hi
    · -- The last real message has none behind it.
      have hle := le_lastIdx (Option.mem_toList.mp hi) hr
      omega
    · exact secondIdx_lt hhead (Option.mem_toList.mp hi) hp hpr' hr'
  case stripped =>
    intro m hm
    obtain ⟨m', -, rfl⟩ := List.mem_map.mp hm
    rfl

/-- A prompt, an answer with a call, its result, the preface of the context, and a prompt again. -/
def withPreface : List (PromptMessage JsString) :=
  [.user [.text (js "Hello") false] false,
    .assistant [.text (js "I will look."), .toolCall (js "read")],
    .tool [js "const a = 1"],
    .user [.text (js "# Context") true] false,
    .user [.text (js "And now?") false] false]

/-- The markers are in the last prompt, and in the result before the preface. -/
theorem request_markers_preface :
    IsMarked (convertPrompt withPreface) true
      (convertSystemBlocks (fun _ => js "cc_version=2.1.169;")
        ⟨some (js "Be brief."), true, js "You are an agent.", some (js "Hello"), none⟩)
      (applyConversationCacheBreakpoint (convertPrompt withPreface) true) ∧
    (applyConversationCacheBreakpoint (convertPrompt withPreface) true).map Message.markers =
      [0, 0, 1, 0, 1] :=
  ⟨request_markers (fun _ => js "cc_version=2.1.169;")
    ⟨some (js "Be brief."), true, js "You are an agent.", some (js "Hello"), none⟩
    (unmarked_convertPrompt withPreface), by decide⟩

/-- The first message is a preface here. A prompt, an answer with a call, and a result come after
it, and the second marker is in the answer. -/
theorem not_before_preface :
    ¬∀ prompt : List (PromptMessage Unit), ∀ i m,
      (applyConversationCacheBreakpoint (convertPrompt prompt) true)[i]? = some m →
        0 < m.markers → (∃ r, i < r ∧ IsReal (convertPrompt prompt) r) →
          ∀ p, IsPrefaceAt (convertPrompt prompt) p →
            (∃ r, p < r ∧ IsReal (convertPrompt prompt) r) → i < p := by
  intro h
  have hlt := h [.user [.text () true] false, .user [.text () false] false,
      .assistant [.toolCall ()], .tool [()]] 2
    { user := false, content := .blocks [⟨.toolUse, (), ephemeral none⟩]
      isContextPreface := none } (by decide) (by decide)
    ⟨3, by decide, _, rfl, rfl⟩ 0 ⟨_, rfl, rfl⟩ ⟨1, by decide, _, rfl, rfl⟩
  exact absurd hlt (by decide)

end OpenCms.Claude.Convert
