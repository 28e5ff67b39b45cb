import Mathlib.Data.List.Basic
import Mathlib.Tactic.Tauto

/-!
# Tool calls without results

Before messages are sent to a model, tool calls without a result become text, and messages of tools
with a result that no call asked for are dropped, as a whole. What is an orphan is settled once, at
the beginning. So a message that is dropped may take the results of other calls with it, and a
result without a call stays where it is when its message is not one of a tool.

The calls and the results are those of the same ids afterwards exactly if nothing of the kind
happens (`OpenCms.SessionCompaction.paired_sanitize_iff`).
-/

namespace OpenCms.SessionCompaction

/-! ### Messages and their repair -/

/-- A part of a message: what is read of it, and the rest. -/
inductive Part (ρ : Type)
  | toolCall (toolCallId : String) (rest : ρ)
  | toolResult (toolCallId : String) (rest : ρ)
  | text (text : String)
  | other (rest : ρ)

inductive Content (ρ : Type)
  | string (text : String)
  | array (parts : List (Part ρ))

structure ModelMessage (ρ : Type) where
  role : String
  content : Content ρ
  rest : ρ

variable {ρ : Type}

def ModelMessage.parts (msg : ModelMessage ρ) : List (Part ρ) :=
  match msg.content with
  | .string _ => []
  | .array parts => parts

def Part.callId : Part ρ → Option String
  | .toolCall toolCallId _ => some toolCallId
  | _ => none

def Part.resultId : Part ρ → Option String
  | .toolResult toolCallId _ => some toolCallId
  | _ => none

def callIds (messages : List (ModelMessage ρ)) : List String :=
  messages.flatMap fun msg => msg.parts.filterMap Part.callId

def resultIds (messages : List (ModelMessage ρ)) : List String :=
  messages.flatMap fun msg => msg.parts.filterMap Part.resultId

def missingResults (messages : List (ModelMessage ρ)) : List String :=
  (callIds messages).filter fun id => id ∉ resultIds messages

def missingCalls (messages : List (ModelMessage ρ)) : List String :=
  (resultIds messages).filter fun id => id ∉ callIds messages

def repairPart (missingResults : List String) (part : Part ρ) : Part ρ :=
  match part with
  | .toolCall toolCallId _ =>
    if toolCallId ∈ missingResults then .text s!"[tool result missing: {toolCallId}]" else part
  | _ => part

def hasOrphan (missingCalls : List String) (parts : List (Part ρ)) : Bool :=
  parts.any fun part => part.resultId.any fun id => id ∈ missingCalls

def repair (missingResults missingCalls : List String) (msg : ModelMessage ρ) :
    Option (ModelMessage ρ) :=
  match msg.content with
  | .string _ => some msg
  | .array parts =>
    if msg.role = "tool" then if hasOrphan missingCalls parts then none else some msg
    else some { msg with content := .array (parts.map (repairPart missingResults)) }

def sanitizeOrphanedToolCalls (messages : List (ModelMessage ρ)) : List (ModelMessage ρ) :=
  if missingResults messages = [] ∧ missingCalls messages = [] then messages
  else messages.filterMap (repair (missingResults messages) (missingCalls messages))

/-! ### When it pairs them -/

def Paired (messages : List (ModelMessage ρ)) : Prop :=
  ∀ id, id ∈ callIds messages ↔ id ∈ resultIds messages

def ModelMessage.Calls (msg : ModelMessage ρ) (id : String) : Prop :=
  ∃ part ∈ msg.parts, part.callId = some id

def ModelMessage.Results (msg : ModelMessage ρ) (id : String) : Prop :=
  ∃ part ∈ msg.parts, part.resultId = some id

def Kept (messages : List (ModelMessage ρ)) (msg : ModelMessage ρ) : Prop :=
  msg ∈ messages ∧ ¬(msg.role = "tool" ∧ ∃ id, msg.Results id ∧ id ∉ callIds messages)

/-- **What the repair can repair**: in messages that are kept, each result has a call, and each
call in a message of a tool has a result; and of what is paired, a call is kept exactly if a result
is. -/
structure Repairable (messages : List (ModelMessage ρ)) : Prop where
  result : ∀ msg, Kept messages msg → ∀ id, msg.Results id → id ∈ callIds messages
  call : ∀ msg, Kept messages msg → msg.role = "tool" →
    ∀ id, msg.Calls id → id ∈ resultIds messages
  pair : ∀ id, id ∈ callIds messages → id ∈ resultIds messages →
    ((∃ msg, Kept messages msg ∧ msg.Calls id) ↔ ∃ msg, Kept messages msg ∧ msg.Results id)

variable {messages : List (ModelMessage ρ)} {msg : ModelMessage ρ} {id : String}

theorem mem_callIds : id ∈ callIds messages ↔ ∃ msg ∈ messages, msg.Calls id := by
  simp [callIds, ModelMessage.Calls]

theorem mem_resultIds : id ∈ resultIds messages ↔ ∃ msg ∈ messages, msg.Results id := by
  simp [resultIds, ModelMessage.Results]

theorem mem_missingResults :
    id ∈ missingResults messages ↔ id ∈ callIds messages ∧ id ∉ resultIds messages := by
  simp [missingResults]

theorem mem_missingCalls :
    id ∈ missingCalls messages ↔ id ∈ resultIds messages ∧ id ∉ callIds messages := by
  simp [missingCalls]

theorem hasOrphan_iff (hmsg : msg ∈ messages) :
    hasOrphan (missingCalls messages) msg.parts ↔
      ∃ id, msg.Results id ∧ id ∉ callIds messages := by
  simp only [hasOrphan, List.any_eq_true, Option.any_eq_true, decide_eq_true_eq]
  constructor
  · rintro ⟨part, hpart, id, hid, hmissing⟩
    exact ⟨id, ⟨part, hpart, hid⟩, (mem_missingCalls.mp hmissing).2⟩
  · rintro ⟨id, ⟨part, hpart, hid⟩, hcall⟩
    refine ⟨part, hpart, id, hid, mem_missingCalls.mpr ⟨?_, hcall⟩⟩
    exact mem_resultIds.mpr ⟨msg, hmsg, part, hpart, hid⟩

theorem paired_iff_missing :
    Paired messages ↔ missingResults messages = [] ∧ missingCalls messages = [] := by
  rw [missingResults, missingCalls, List.filter_eq_nil_iff, List.filter_eq_nil_iff]
  simp only [decide_eq_true_eq, not_not]
  exact ⟨fun h => ⟨fun id => (h id).mp, fun id => (h id).mpr⟩, fun h id => ⟨h.1 id, h.2 id⟩⟩

theorem repairPart_nil (part : Part ρ) : repairPart [] part = part := by
  cases part <;> rfl

theorem repair_nil : repair [] [] msg = some msg := by
  obtain ⟨role, content, rest⟩ := msg
  cases content with
  | string text => rfl
  | array parts =>
    have hnone : hasOrphan [] parts = false := by
      simp [hasOrphan]
    have hsame : parts.map (repairPart []) = parts := by
      simp [funext repairPart_nil]
    simp [repair, hnone, hsame]

theorem sanitize_eq_filterMap (messages : List (ModelMessage ρ)) :
    sanitizeOrphanedToolCalls messages =
      messages.filterMap (repair (missingResults messages) (missingCalls messages)) := by
  unfold sanitizeOrphanedToolCalls
  split
  next h =>
    have hnone : repair [] [] = (some : ModelMessage ρ → _) := funext fun _ => repair_nil
    rw [h.1, h.2, hnone, List.filterMap_some]
  next => rfl

theorem callId_repairPart {part : Part ρ} {missing : List String} :
    (repairPart missing part).callId = some id ↔ part.callId = some id ∧ id ∉ missing := by
  cases part with
  | toolCall toolCallId rest =>
    dsimp only [repairPart]
    split
    next hmem =>
      refine iff_of_false nofun ?_
      rintro ⟨heq, hnot⟩
      exact hnot (Option.some.inj heq ▸ hmem)
    next hnot => exact (and_iff_left_of_imp fun heq => Option.some.inj heq ▸ hnot).symm
  | toolResult | text | other => exact iff_of_false nofun fun h => nomatch h.1

theorem resultId_repairPart (missing : List String) (part : Part ρ) :
    (repairPart missing part).resultId = part.resultId := by
  cases part with
  | toolCall toolCallId rest =>
    dsimp only [repairPart]
    split <;> rfl
  | toolResult | text | other => rfl

/-- **What becomes of a message that is kept**: a call stays in a message of a tool, or if it is no
orphan, and all results stay. -/
theorem repair_of_kept (h : Kept messages msg) :
    ∃ msg', repair (missingResults messages) (missingCalls messages) msg = some msg' ∧
      (∀ id, msg'.Calls id ↔ msg.Calls id ∧ (msg.role = "tool" ∨ id ∈ resultIds messages)) ∧
      ∀ id, msg'.Results id ↔ msg.Results id := by
  obtain ⟨hmsg, hkept⟩ := h
  rw [← hasOrphan_iff hmsg] at hkept
  obtain ⟨role, content, rest⟩ := msg
  cases content with
  | string text =>
    have hcalls : ∀ id, ¬ModelMessage.Calls (⟨role, .string text, rest⟩ : ModelMessage ρ) id :=
      fun id ⟨part, hpart, _⟩ => nomatch hpart
    exact ⟨_, rfl, fun id => iff_of_false (hcalls id) fun h => hcalls id h.1, fun id => Iff.rfl⟩
  | array parts =>
    by_cases htool : role = "tool"
    · refine ⟨_, (if_pos htool).trans (if_neg fun h => hkept ⟨htool, h⟩), fun id => ?_,
        fun id => Iff.rfl⟩
      exact (and_iff_left (Or.inl htool)).symm
    · refine ⟨_, if_neg htool, fun id => ?_, fun id => ?_⟩
      · simp only [ModelMessage.Calls, ModelMessage.parts, List.mem_map, exists_exists_and_eq_and,
          callId_repairPart, mem_missingResults, htool, false_or]
        constructor
        · rintro ⟨part, hpart, hid, hmissing⟩
          refine ⟨⟨part, hpart, hid⟩, ?_⟩
          by_contra hresult
          exact hmissing ⟨mem_callIds.mpr ⟨_, hmsg, part, hpart, hid⟩, hresult⟩
        · rintro ⟨⟨part, hpart, hid⟩, hresult⟩
          exact ⟨part, hpart, hid, fun hmissing => hmissing.2 hresult⟩
      · simp only [ModelMessage.Results, ModelMessage.parts, List.mem_map,
          exists_exists_and_eq_and, resultId_repairPart]

theorem repair_of_not_kept (hmsg : msg ∈ messages) (h : ¬Kept messages msg) :
    repair (missingResults messages) (missingCalls messages) msg = none := by
  obtain ⟨htool, horphan⟩ : msg.role = "tool" ∧ ∃ id, msg.Results id ∧ id ∉ callIds messages := by
    by_contra hnot
    exact h ⟨hmsg, hnot⟩
  rw [← hasOrphan_iff hmsg] at horphan
  obtain ⟨role, content, rest⟩ := msg
  cases content with
  | string text => exact absurd horphan nofun
  | array parts => exact (if_pos htool).trans (if_pos horphan)

theorem mem_sanitize {msg' : ModelMessage ρ} :
    msg' ∈ sanitizeOrphanedToolCalls messages ↔ ∃ msg, Kept messages msg ∧
      repair (missingResults messages) (missingCalls messages) msg = some msg' := by
  rw [sanitize_eq_filterMap, List.mem_filterMap]
  refine exists_congr fun msg => and_congr_left fun hrepair => ⟨fun hmsg => ?_, fun h => h.1⟩
  by_contra hkept
  rw [repair_of_not_kept hmsg hkept] at hrepair
  cases hrepair

theorem mem_callIds_sanitize :
    id ∈ callIds (sanitizeOrphanedToolCalls messages) ↔
      ∃ msg, Kept messages msg ∧ msg.Calls id ∧
        (msg.role = "tool" ∨ id ∈ resultIds messages) := by
  rw [mem_callIds]
  constructor
  · rintro ⟨msg', hmsg', hcalls⟩
    obtain ⟨msg, hkept, hrepair⟩ := mem_sanitize.mp hmsg'
    obtain ⟨msg'', hrepair', hcall, _⟩ := repair_of_kept hkept
    obtain rfl := Option.some.inj (hrepair.symm.trans hrepair')
    exact ⟨msg, hkept, (hcall id).mp hcalls⟩
  · rintro ⟨msg, hkept, hcalls⟩
    obtain ⟨msg', hrepair, hcall, _⟩ := repair_of_kept hkept
    exact ⟨msg', mem_sanitize.mpr ⟨msg, hkept, hrepair⟩, (hcall id).mpr hcalls⟩

theorem mem_resultIds_sanitize :
    id ∈ resultIds (sanitizeOrphanedToolCalls messages) ↔
      ∃ msg, Kept messages msg ∧ msg.Results id := by
  rw [mem_resultIds]
  constructor
  · rintro ⟨msg', hmsg', hresults⟩
    obtain ⟨msg, hkept, hrepair⟩ := mem_sanitize.mp hmsg'
    obtain ⟨msg'', hrepair', _, hresult⟩ := repair_of_kept hkept
    obtain rfl := Option.some.inj (hrepair.symm.trans hrepair')
    exact ⟨msg, hkept, (hresult id).mp hresults⟩
  · rintro ⟨msg, hkept, hresults⟩
    obtain ⟨msg', hrepair, _, hresult⟩ := repair_of_kept hkept
    exact ⟨msg', mem_sanitize.mpr ⟨msg, hkept, hrepair⟩, (hresult id).mpr hresults⟩

/-- **Messages that are paired are left as they are, and others are paired afterwards exactly if
they can be repaired.** -/
theorem paired_sanitize_iff (messages : List (ModelMessage ρ)) :
    (Paired messages → sanitizeOrphanedToolCalls messages = messages) ∧
    (Paired (sanitizeOrphanedToolCalls messages) ↔ Repairable messages) := by
  refine ⟨fun h => if_pos (paired_iff_missing.mp h), ⟨fun h => ⟨?_, ?_, ?_⟩, fun h id => ?_⟩⟩
  · intro msg hkept id hresult
    obtain ⟨msg', hkept', hcall, _⟩ := mem_callIds_sanitize.mp
      ((h id).mpr (mem_resultIds_sanitize.mpr ⟨msg, hkept, hresult⟩))
    exact mem_callIds.mpr ⟨msg', hkept'.1, hcall⟩
  · intro msg hkept htool id hcall
    obtain ⟨msg', hkept', hresult⟩ := mem_resultIds_sanitize.mp
      ((h id).mp (mem_callIds_sanitize.mpr ⟨msg, hkept, hcall, Or.inl htool⟩))
    exact mem_resultIds.mpr ⟨msg', hkept'.1, hresult⟩
  · intro id _ hid
    constructor
    · rintro ⟨msg, hkept, hcall⟩
      exact mem_resultIds_sanitize.mp
        ((h id).mp (mem_callIds_sanitize.mpr ⟨msg, hkept, hcall, Or.inr hid⟩))
    · intro hresult
      obtain ⟨msg, hkept, hcall, _⟩ := mem_callIds_sanitize.mp
        ((h id).mpr (mem_resultIds_sanitize.mpr hresult))
      exact ⟨msg, hkept, hcall⟩
  · rw [mem_callIds_sanitize, mem_resultIds_sanitize]
    constructor
    · rintro ⟨msg, hkept, hcall, hstays⟩
      have hid : id ∈ resultIds messages :=
        hstays.elim (fun htool => h.call msg hkept htool id hcall) fun hid => hid
      exact (h.pair id (mem_callIds.mpr ⟨msg, hkept.1, hcall⟩) hid).mp ⟨msg, hkept, hcall⟩
    · rintro ⟨msg, hkept, hresult⟩
      have hid : id ∈ resultIds messages := mem_resultIds.mpr ⟨msg, hkept.1, hresult⟩
      obtain ⟨msg', hkept', hcall⟩ := (h.pair id (h.result msg hkept id hresult) hid).mpr
        ⟨msg, hkept, hresult⟩
      exact ⟨msg', hkept', hcall, Or.inr hid⟩

/-- A message of an assistant that makes a call, and one of a tool that has a result for it and
another result: the call is left without a result. -/
theorem not_paired_sanitize :
    ¬∀ messages : List (ModelMessage Unit), Paired (sanitizeOrphanedToolCalls messages) := by
  intro h
  have hpaired := h [⟨"assistant", .array [.toolCall "a" ()], ()⟩,
    ⟨"tool", .array [.toolResult "a" (), .toolResult "b" ()], ()⟩] "a"
  revert hpaired
  decide

end OpenCms.SessionCompaction
