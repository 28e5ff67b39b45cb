import OpenCms.Claude.Convert
import OpenCms.Claude.Sse

/-!
# Tools in a request

The call of a tool and its result are known by one identifier. `convertPrompt` drops the messages of
an assistant at the end, so a call without a result can be lost there, but nothing else is: the calls
and results that are sent are those up to the last message of the user or of a tool.

On the wire every tool has a prefix in front of its name, which is taken off again when the tool is
called. It is not put in front of a name that has it already, and so such a name does not come back.
-/

namespace OpenCms.Claude.Convert

variable {ρ σ : Type}

/-! ### Names -/

def TOOL_PREFIX : JsString := js "mcp__"

def prefixToolName (name : JsString) : JsString :=
  if TOOL_PREFIX <+: name then name else TOOL_PREFIX ++ name

structure Tool (σ : Type) where
  name : JsString
  rest : σ

def convertTools : Option (List (Tool σ)) → Option (List (Tool σ))
  | none | some [] => none
  | some tools => some (tools.map fun tool => { tool with name := prefixToolName tool.name })

def wireNames (tools : List (Tool σ)) : List JsString :=
  ((convertTools (some tools)).getD []).map Tool.name

theorem wireNames_eq (tools : List (Tool σ)) :
    wireNames tools = tools.map fun tool => prefixToolName tool.name := by
  cases tools with
  | nil => rfl
  | cons tool tools => simp [wireNames, convertTools]

theorem stripToolPrefix_prefixToolName (name : JsString) :
    stripToolPrefix (prefixToolName name) = name ↔ ¬TOOL_PREFIX <+: name := by
  have hstrip : ∀ name, stripToolPrefix (TOOL_PREFIX ++ name) = name := fun name => by
    have hdrop : (TOOL_PREFIX ++ name).dropPrefix? TOOL_PREFIX = some name := by
      rw [List.dropPrefix?_eq_some_iff]
      exact ⟨TOOL_PREFIX, rfl, beq_self_eq_true _⟩
    rw [stripToolPrefix, ← TOOL_PREFIX, hdrop, Option.getD_some]
  by_cases hprefix : TOOL_PREFIX <+: name
  · obtain ⟨name, rfl⟩ := hprefix
    rw [prefixToolName, if_pos (List.prefix_append ..), hstrip]
    exact iff_of_false (fun h => List.cons_ne_nil _ _ (List.self_eq_append_left.mp h))
      (not_not_intro (List.prefix_append ..))
  · rw [prefixToolName, if_neg hprefix, hstrip]
    exact iff_of_true rfl hprefix

theorem names_come_back_iff {tools : List (Tool σ)} (hnames : (tools.map Tool.name).Nodup) :
    ((wireNames tools).Nodup ∧
        ∀ tool ∈ tools, stripToolPrefix (prefixToolName tool.name) = tool.name) ↔
      ∀ tool ∈ tools, ¬TOOL_PREFIX <+: tool.name := by
  simp only [stripToolPrefix_prefixToolName]
  refine and_iff_right_of_imp fun hplain => ?_
  have hwire : wireNames tools = (tools.map Tool.name).map (TOOL_PREFIX ++ ·) := by
    rw [wireNames_eq, List.map_map]
    exact List.map_congr_left fun tool hmem => if_neg (hplain tool hmem)
  rw [hwire]
  exact hnames.map (List.append_right_injective _)

/-! ### Calls and results -/

inductive ToolEvent
  | call (id : JsString)
  | result (id : JsString)
  deriving DecidableEq

def ToolEvent.id : ToolEvent → JsString
  | call id => id
  | result id => id

def ToolEvent.isResult : ToolEvent → Bool
  | call _ => false
  | result _ => true

section Events

/- What is converted of a part has an identifier: `toolCallId`, `id` and `tool_use_id`. -/
variable (id : ρ → JsString)

def Block.event (block : Block ρ) : Option ToolEvent :=
  match block.type with
  | .toolUse => some (.call (id block.rest))
  | .toolResult => some (.result (id block.rest))
  | _ => none

def Message.events (m : Message ρ) : List ToolEvent := m.blocks.filterMap (Block.event id)

def AssistantPart.event : AssistantPart ρ → Option ToolEvent
  | toolCall rest => some (.call (id rest))
  | _ => none

def PromptMessage.events : PromptMessage ρ → List ToolEvent
  | assistant parts => parts.filterMap (AssistantPart.event id)
  | tool results => results.map fun rest => .result (id rest)
  | _ => []

/-- A result comes after a call with its identifier, and a call has a result. -/
structure Linked (events : List ToolEvent) : Prop where
  call_mem : ∀ before call after, events = before ++ .result call :: after → .call call ∈ before
  result_mem : ∀ call, .call call ∈ events → .result call ∈ events

/-- Everything that is called or answered is called once, and answered once after that. -/
def AnsweredOnce (asked sent : List ToolEvent) : Prop :=
  ∀ event ∈ asked, sent.filter (·.id = event.id) = [.call event.id, .result event.id]

/-- The prompt up to its last message that is sent as one of the user. -/
def answered (prompt : List (PromptMessage ρ)) : List (PromptMessage ρ) :=
  prompt.rdropWhile fun m => m.convert.all fun m => !m.user

theorem filterMap_rdropWhile {α β : Type} (f : α → Option β) (p : β → Bool) (l : List α) :
    (l.filterMap f).rdropWhile p = (l.rdropWhile fun x => (f x).all p).filterMap f := by
  induction l using List.reverseRecOn with
  | nil => rfl
  | append_singleton l x ih =>
    rw [List.filterMap_append]
    cases hx : f x with
    | none =>
      rw [List.rdropWhile_concat_pos _ _ _ (by simp [hx]), ← ih]
      simp [hx]
    | some y =>
      by_cases hy : p y = true
      · rw [List.rdropWhile_concat_pos _ _ _ (by simp [hx, hy]), ← ih]
        simp [hx, List.rdropWhile_concat_pos, hy]
      · rw [List.rdropWhile_concat_neg _ _ _ (by simp [hx, hy])]
        simp [hx, List.rdropWhile_concat_neg, hy]

theorem events_convert (m : PromptMessage ρ) :
    m.convert.toList.flatMap (Message.events id) = m.events id := by
  have hkeep : ∀ (blocks : List (Block ρ)) user preface,
      (if blocks = [] then none else some ⟨user, .blocks blocks, preface⟩ :
        Option (Message ρ)).toList.flatMap (Message.events id) =
      blocks.filterMap (Block.event id) := by
    intro blocks user preface
    split
    · next h =>
      rw [h]
      rfl
    · simp [Message.events, Message.blocks]
  cases m with
  | system => rfl
  | user parts contextPreface =>
    refine (hkeep _ _ _).trans ?_
    rw [List.filterMap_map, List.filterMap_eq_nil_iff.mpr]
    · rfl
    · intro part _
      cases part with
      | text rest contextPreface => rfl
      | file isUrl rest contextPreface => cases isUrl <;> rfl
  | assistant parts =>
    refine (hkeep _ _ _).trans ?_
    rw [List.filterMap_filterMap]
    refine List.filterMap_congr fun part _ => ?_
    cases part with
    | reasoning rest signature =>
      rw [AssistantPart.toBlock]
      split <;> rfl
    | text rest => rfl
    | toolCall rest => rfl
    | other => rfl
  | tool results =>
    refine (hkeep _ _ _).trans ?_
    rw [List.filterMap_map]
    exact List.filterMap_eq_map_iff_forall_eq_some.mpr fun rest _ => rfl

theorem events_filterMap_convert (prompt : List (PromptMessage ρ)) :
    (prompt.filterMap PromptMessage.convert).flatMap (Message.events id) =
      prompt.flatMap (PromptMessage.events id) := by
  induction prompt with
  | nil => rfl
  | cons m prompt ih =>
    rw [List.flatMap_cons, ← ih, ← events_convert]
    cases hm : m.convert with
    | none => simp [hm]
    | some message => simp [hm]

/-- **What is sent are the calls and results up to the last message of the user.** -/
theorem events_convertPrompt (prompt : List (PromptMessage ρ)) :
    (convertPrompt prompt).flatMap (Message.events id) =
      (answered prompt).flatMap (PromptMessage.events id) := by
  rw [convertPrompt, filterMap_rdropWhile, events_filterMap_convert]
  rfl

/-- Nothing behind the last message of the user is a result. -/
theorem events_eq_append (prompt : List (PromptMessage ρ)) : ∃ dropped,
    prompt.flatMap (PromptMessage.events id) =
      (answered prompt).flatMap (PromptMessage.events id) ++ dropped ∧
      ∀ event ∈ dropped, event.isResult = false := by
  refine ⟨(prompt.rtakeWhile fun m => m.convert.all fun m => !m.user).flatMap
    (PromptMessage.events id), ?_, ?_⟩
  · rw [← List.flatMap_append, answered, List.rdropWhile_append_rtakeWhile]
  · intro event hevent
    obtain ⟨m, hm, hevent⟩ := List.mem_flatMap.mp hevent
    have hall := List.mem_rtakeWhile_imp hm
    cases m with
    | system => cases hevent
    | user parts contextPreface => cases hevent
    | assistant parts =>
      obtain ⟨part, -, hpart⟩ := List.mem_filterMap.mp hevent
      cases part <;> simp only [AssistantPart.event, Option.some.injEq, reduceCtorEq] at hpart
      rw [← hpart]
      rfl
    | tool results =>
      cases results with
      | nil => cases hevent
      | cons rest results => simp [PromptMessage.convert] at hall

end Events

variable {sent dropped : List ToolEvent}

/-- **Everything is answered once exactly if nothing is sent twice.** -/
theorem answeredOnce_iff (hlinked : Linked (sent ++ dropped))
    (hdropped : ∀ event ∈ dropped, event.isResult = false) :
    AnsweredOnce (sent ++ dropped) sent ↔ sent.Nodup := by
  constructor
  · intro honce
    rw [List.nodup_iff_count_le_one]
    intro event
    by_cases hmem : event ∈ sent
    · have hfilter := honce event (List.mem_append_left _ hmem)
      have hcount : sent.count event = (sent.filter (·.id = event.id)).count event := by
        rw [List.count_filter (by simp)]
      rw [hcount, hfilter]
      cases event with
      | call name => simp [ToolEvent.id]
      | result name => simp [ToolEvent.id]
    · rw [List.count_eq_zero_of_not_mem hmem]
      exact Nat.zero_le _
  · intro hnodup event hevent
    have hcall : .call event.id ∈ sent ++ dropped := by
      cases event with
      | call name => exact hevent
      | result name =>
        obtain ⟨before, after, heq⟩ := List.append_of_mem hevent
        rw [heq]
        exact List.mem_append_left _ (hlinked.call_mem _ _ _ heq)
    have hresult : .result event.id ∈ sent := by
      refine (List.mem_append.mp (hlinked.result_mem _ hcall)).resolve_right fun hmem => ?_
      exact absurd (hdropped _ hmem) nofun
    -- the call is in front of the result, and neither is anywhere else
    obtain ⟨before, after, rfl⟩ := List.append_of_mem hresult
    have hbefore := hlinked.call_mem before event.id (after ++ dropped) (by simp)
    obtain ⟨first, between, rfl⟩ := List.append_of_mem hbefore
    have hnone : ∀ part : List ToolEvent, .call event.id ∉ part → .result event.id ∉ part →
        part.filter (·.id = event.id) = [] := by
      intro part hcall hresult
      refine List.filter_eq_nil_iff.mpr fun other hother => ?_
      rw [decide_eq_true_eq]
      rintro heq
      cases other with
      | call name =>
        obtain rfl : name = event.id := heq
        exact hcall hother
      | result name =>
        obtain rfl : name = event.id := heq
        exact hresult hother
    simp only [List.nodup_append, List.nodup_cons, List.mem_append, List.mem_cons] at hnodup
    rw [List.filter_append, List.filter_append, List.filter_cons_of_pos (by simp [ToolEvent.id]),
      List.filter_cons_of_pos (by simp [ToolEvent.id]), hnone first, hnone between, hnone after]
    · rfl
    all_goals grind

theorem getLast?_convertPrompt (prompt : List (PromptMessage ρ)) :
    (convertPrompt prompt).getLast?.all Message.user := by
  rw [convertPrompt]
  cases hlast : (List.rdropWhile _ _).getLast? with
  | none => rfl
  | some m =>
    have hne : List.rdropWhile (fun m : Message ρ => !m.user) (prompt.filterMap PromptMessage.convert) ≠ [] :=
      fun hnil => by simp [hnil] at hlast
    have hnot := List.rdropWhile_last_not _ _ hne
    rw [List.getLast?_eq_some_getLast hne] at hlast
    obtain rfl := Option.some.inj hlast
    simpa using hnot

/-- **Calls stay with their results and tools come back exactly if nothing is sent twice and no tool
has the prefix in its own name.** -/
theorem tools_kept_iff (id : ρ → JsString) {prompt : List (PromptMessage ρ)}
    {tools : List (Tool σ)} (hlinked : Linked (prompt.flatMap (PromptMessage.events id)))
    (hnames : (tools.map Tool.name).Nodup) :
    ((convertPrompt prompt).getLast?.all Message.user ∧
        AnsweredOnce (prompt.flatMap (PromptMessage.events id))
          ((convertPrompt prompt).flatMap (Message.events id)) ∧
        (wireNames tools).Nodup ∧
          ∀ tool ∈ tools, stripToolPrefix (prefixToolName tool.name) = tool.name) ↔
      ((answered prompt).flatMap (PromptMessage.events id)).Nodup ∧
        ∀ tool ∈ tools, ¬TOOL_PREFIX <+: tool.name := by
  rw [and_iff_right (getLast?_convertPrompt prompt), names_come_back_iff hnames,
    events_convertPrompt]
  obtain ⟨dropped, heq, hdropped⟩ := events_eq_append id prompt
  rw [heq] at hlinked ⊢
  rw [answeredOnce_iff hlinked hdropped]

def answeredPrompt : List (PromptMessage JsString) :=
  [.user [.text (js "?") false] false, .assistant [.toolCall (js "t")], .tool [js "t"]]

theorem linked_answeredPrompt :
    Linked (answeredPrompt.flatMap (PromptMessage.events fun id => id)) where
  call_mem before call after heq := by
    match before with
    | [] => cases heq
    | [_] =>
      cases heq
      exact List.mem_singleton_self _
    | _ :: _ :: before => simp [answeredPrompt, PromptMessage.events, AssistantPart.event] at heq
  result_mem call hmem := by
    simp [answeredPrompt, PromptMessage.events, AssistantPart.event] at hmem ⊢
    exact hmem

theorem tools_kept_read :
    (convertPrompt answeredPrompt).getLast?.all Message.user ∧
      AnsweredOnce (answeredPrompt.flatMap (PromptMessage.events fun id => id))
        ((convertPrompt answeredPrompt).flatMap (Message.events fun id => id)) ∧
      (wireNames [(⟨js "read", ()⟩ : Tool Unit)]).Nodup ∧
        ∀ tool ∈ [(⟨js "read", ()⟩ : Tool Unit)],
          stripToolPrefix (prefixToolName tool.name) = tool.name := by
  have hnames : ([(⟨js "read", ()⟩ : Tool Unit)].map Tool.name).Nodup := List.nodup_singleton _
  exact (tools_kept_iff (fun id => id) linked_answeredPrompt hnames).mpr ⟨by decide, by decide⟩

/-- Two tools get the same name, and one of them does not come back. -/
theorem not_tools_kept : ¬∀ (prompt : List (PromptMessage JsString)) (tools : List (Tool Unit)),
    Linked (prompt.flatMap (PromptMessage.events fun id => id)) → (tools.map Tool.name).Nodup →
      (convertPrompt prompt).getLast?.all Message.user ∧
        AnsweredOnce (prompt.flatMap (PromptMessage.events fun id => id))
          ((convertPrompt prompt).flatMap (Message.events fun id => id)) ∧
        (wireNames tools).Nodup ∧
          ∀ tool ∈ tools, stripToolPrefix (prefixToolName tool.name) = tool.name := by
  intro h
  have hnames : ([⟨js "read", ()⟩, ⟨js "mcp__read", ()⟩] : List (Tool Unit)).map Tool.name |>.Nodup :=
    by decide
  have hkept := (h [] _ ⟨by simp, by simp⟩ hnames).2.2
  exact (names_come_back_iff hnames).mp hkept ⟨js "mcp__read", ()⟩ (by simp) (by decide)

end OpenCms.Claude.Convert
