import OpenCms.Codex.Calls

/-!
# The dispatch of function calls

A function call is handed on in one of four places: where it is added with its arguments, where its
arguments are done, where its item is done, and where the stream ends. Here it is asked when each
call that was added is handed on once, with what the events said of it, wherever the stream is cut
off. That is so exactly if every call is added with its arguments or after some of them, and the
events agree about it (`OpenCms.Codex.dispatched_iff`).

What the events say is kept in a ledger next to the stream.
-/

namespace OpenCms.Codex

open StreamState

/-! ### Calls -/

def orEmptyObject (text : JsString) : JsString := if text = [] then js "{}" else text

/-- What the events say of a call: its index, the arguments of the last event that has them, and the
deltas of its index. -/
structure Call where
  id : JsString
  name : JsString
  index : ℤ
  carried : Option JsString
  deltas : JsString
  deriving DecidableEq

/-- The arguments of a call: those of an event, or else the deltas, or else none. -/
def Call.input (call : Call) : JsString := call.carried.getD (orEmptyObject call.deltas)

def Call.toolCall (call : Call) : ToolCall := ⟨call.id, call.name, call.input⟩

def Call.learn (event : Event) (call : Call) : Call :=
  match event with
  | .functionCallArgumentsDelta output_index _ delta =>
    if call.index = output_index then { call with deltas := call.deltas ++ delta } else call
  | .functionCallArgumentsDone output_index _ arguments =>
    if call.index = output_index then { call with carried := arguments.or call.carried } else call
  | .outputItemDone item =>
    if item.type = .functionCall ∧ item.call_id = some call.id then
      { call with carried := item.arguments.or call.carried }
    else call
  | _ => call

/-- A stream, with the calls that were added. -/
structure Ledgered where
  mapped : Mapped
  calls : List Call

def Ledgered.init : Ledgered := ⟨.init, []⟩

def addedCall (state : StreamState) : Event → Option Call
  | .outputItemAdded output_index item =>
    if item.type = .functionCall then
      item.call_id.map fun id => ⟨id, toolNameOf item.name, output_index, completeArguments item,
        (state.buffered output_index).getD []⟩
    else none
  | _ => none

def Ledgered.step (ledgered : Ledgered) (event : Event) : Ledgered where
  mapped := ledgered.mapped.step event
  calls := ledgered.calls.map (Call.learn event) ++ (addedCall ledgered.mapped.state event).toList

def functionCalls (events : List Event) : List (ℤ × Option JsString) :=
  events.filterMap fun
    | .outputItemAdded output_index item =>
      if item.type = .functionCall then some (output_index, item.call_id) else none
    | _ => none

/-- Function calls have different names and different indices. -/
structure Distinct (events : List Event) : Prop where
  named : ∀ call ∈ functionCalls events, call.2.isSome
  ids : ((functionCalls events).map Prod.snd).Nodup
  indices : ((functionCalls events).map Prod.fst).Nodup

def Event.isFailure : Event → Bool
  | .incomplete _ | .failed _ | .error _ => true
  | _ => false

/-- **Every call that was added is handed on once**, with what the events said of it, before the
stream is finished, and no other call; and the stream does not finish with calls if there are
none. -/
structure Dispatched (events : List Event) (parts : List Part) : Prop where
  calls : (toolCalls parts).Perm ((run Ledgered.step .init events).calls.map Call.toolCall)
  before : toolCalls (parts.dropWhile fun part => part.toFinishReason.isNone) = []
  finish : ∀ finishReason ∈ parts.filterMap Part.toFinishReason, finishReason = .toolCalls →
    (∀ event ∈ events, event.isFailure = false) → toolCalls parts ≠ []

def Ledgered.Sent (ledgered : Ledgered) (index : ℤ) : Prop :=
  ∀ call ∈ ledgered.calls, call.index = index → call.id ∈ ledgered.mapped.state.emittedToolCalls

def Told (ledgered : Ledgered) : Event → Prop
  | .outputItemAdded output_index item =>
    if item.type = .functionCall then
      (completeArguments item).isSome ∨
        item.call_id ≠ some [] ∧ (ledgered.mapped.state.buffered output_index).isSome
    else ledgered.Sent output_index
  | .functionCallArgumentsDelta output_index _ delta =>
    ∀ call ∈ ledgered.calls, call.index = output_index →
      call.id ∈ ledgered.mapped.state.emittedToolCalls → call.carried = none →
        orEmptyObject (call.deltas ++ delta) = orEmptyObject call.deltas
  | .functionCallArgumentsDone output_index call_id arguments =>
    let id := ledgered.mapped.state.callId output_index call_id
    (id ∉ ledgered.mapped.state.emittedToolCalls → ∃ call ∈ ledgered.calls, call.id = id ∧
      call.name =
        toolNameOf ((ledgered.mapped.state.trackedItem output_index).bind TrackedItem.name) ∧
      (if call.index = output_index then arguments.getD call.input else call.input) =
        (arguments.or (ledgered.mapped.state.buffered output_index)).getD (js "{}")) ∧
    ∀ call ∈ ledgered.calls, call.index = output_index →
      call.id ∈ ledgered.mapped.state.emittedToolCalls → ∀ a ∈ arguments, a = call.input
  | .outputItemDone item => item.type = .functionCall → ∀ id ∈ item.call_id,
    (id ≠ [] → id ∉ ledgered.mapped.state.emittedToolCalls → ∃ call ∈ ledgered.calls, call.id = id ∧
      call.name = toolNameOf item.name ∧ (item.arguments.isSome ∨ call.input = js "{}")) ∧
    ∀ call ∈ ledgered.calls, call.id = id → id ∈ ledgered.mapped.state.emittedToolCalls →
      ∀ a ∈ item.arguments, a = call.input
  | .reasoningSummaryTextDone => ledgered.Sent ledgered.mapped.state.reasoningKey
  | _ => True

/-! ### The ledger -/

variable {item : OutputItem} {id : JsString}

section Ledger

variable {ledgered : Ledgered} {event : Event} {call call' : Call} {k : ℤ}

theorem Call.learn_same : (call.learn event).id = call.id ∧ (call.learn event).name = call.name ∧
    (call.learn event).index = call.index := by
  have hite : ∀ (p : Prop) [Decidable p] (call' : Call),
      call'.id = call.id ∧ call'.name = call.name ∧ call'.index = call.index →
        (if p then call' else call).id = call.id ∧ (if p then call' else call).name = call.name ∧
          (if p then call' else call).index = call.index := by
    intro p _ call' h
    split
    · exact h
    · exact ⟨rfl, rfl, rfl⟩
  cases event with
  | functionCallArgumentsDelta output_index call_id delta
  | functionCallArgumentsDone output_index call_id arguments | outputItemDone item =>
    exact hite _ _ ⟨rfl, rfl, rfl⟩
  | _ => exact ⟨rfl, rfl, rfl⟩

@[simp] theorem Call.learn_id : (call.learn event).id = call.id := Call.learn_same.1

@[simp] theorem Call.learn_name : (call.learn event).name = call.name := Call.learn_same.2.1

@[simp] theorem Call.learn_index : (call.learn event).index = call.index := Call.learn_same.2.2

def Tracked (state : StreamState) (call : Call) : Prop :=
  ∃ t, state.trackedItem call.index = some t ∧ t.type = .functionCall ∧ t.callId = some call.id

/-- The end of the stream would hand the call on. -/
structure Held (state : StreamState) (call : Call) : Prop where
  new : call.id ∉ state.emittedToolCalls
  named : call.id ≠ []
  tracked : Tracked state call
  buffered : (state.buffered call.index).isSome

/-- What is known of the calls that were added. -/
structure Ledgered.Inv (ledgered : Ledgered) : Prop where
  ids : (ledgered.calls.map Call.id).Nodup
  indices : (ledgered.calls.map Call.index).Nodup
  tracked : ∀ k t, ledgered.mapped.state.trackedItem k = some t → t.type = .functionCall →
    ∃ call ∈ ledgered.calls, call.index = k ∧ t.callId = some call.id ∧ toolNameOf t.name = call.name
  gathered : ∀ call ∈ ledgered.calls, call.id ∉ ledgered.mapped.state.emittedToolCalls →
    call.id ≠ [] → Tracked ledgered.mapped.state call →
      call.carried = none ∧ call.deltas = (ledgered.mapped.state.buffered call.index).getD []
  emitted : ∀ id, id ∈ ledgered.mapped.state.emittedToolCalls ↔
    id ∈ (toolCalls ledgered.mapped.parts).map ToolCall.id
  function : ledgered.mapped.state.hasFunctionCall →
    ledgered.calls ≠ [] ∨ ledgered.mapped.state.emittedToolCalls ≠ []
  reason : ledgered.mapped.state.finishReason ≠ some .toolCalls
  finish : ledgered.mapped.parts.filterMap Part.toFinishReason = []
  buffer : (ledgered.mapped.state.toolArgBuffer.map Buffered.index).Nodup

/-- Every call that was added was handed on once or is held, and no other call was handed on. -/
structure Ledgered.Good (ledgered : Ledgered) : Prop where
  once : ((toolCalls ledgered.mapped.parts).map ToolCall.id).Nodup
  known : ∀ tool ∈ toolCalls ledgered.mapped.parts, ∃ call ∈ ledgered.calls, call.toolCall = tool
  held : ∀ call ∈ ledgered.calls, call.id ∈ ledgered.mapped.state.emittedToolCalls ∨
    Held ledgered.mapped.state call

def Fresh (ledgered : Ledgered) : Event → Prop
  | .outputItemAdded output_index item => item.type = .functionCall → ∃ id, item.call_id = some id ∧
    id ∉ ledgered.calls.map Call.id ∧ output_index ∉ ledgered.calls.map Call.index
  | _ => True

/-! ### What a step does to the ledger -/

theorem toolCalls_append {parts parts' : List Part} :
    toolCalls (parts ++ parts') = toolCalls parts ++ toolCalls parts' := List.filterMap_append

theorem toolCalls_step : toolCalls (ledgered.step event).mapped.parts =
    toolCalls ledgered.mapped.parts ++ (handed ledgered.mapped.state event).toList := by
  rw [← (callMove ledgered.mapped.state event).calls, ← toolCalls_append]
  rfl

theorem mem_toolCalls_step {tool : ToolCall} :
    tool ∈ toolCalls (ledgered.step event).mapped.parts ↔
      tool ∈ toolCalls ledgered.mapped.parts ∨ tool ∈ handed ledgered.mapped.state event := by
  rw [toolCalls_step, List.mem_append, Option.mem_toList, Option.mem_def]

theorem mem_emitted_step :
    id ∈ (ledgered.step event).mapped.state.emittedToolCalls ↔
      id ∈ ledgered.mapped.state.emittedToolCalls ∨
        ∃ tool ∈ handed ledgered.mapped.state event, tool.id = id :=
  (callMove ledgered.mapped.state event).emitted id

theorem mem_calls_step : call' ∈ (ledgered.step event).calls ↔
    (∃ call ∈ ledgered.calls, call.learn event = call') ∨
      call' ∈ addedCall ledgered.mapped.state event := by
  rw [Ledgered.step, List.mem_append, List.mem_map, Option.mem_toList, Option.mem_def]

theorem mem_addedCall {state : StreamState} : call ∈ addedCall state event ↔
    ∃ item, event = .outputItemAdded call.index item ∧ item.type = .functionCall ∧
      item.call_id = some call.id ∧ call.name = toolNameOf item.name ∧
      call.carried = completeArguments item ∧
      call.deltas = (state.buffered call.index).getD [] := by
  constructor
  · intro h
    cases event with
    | outputItemAdded output_index item =>
      rw [addedCall] at h
      split at h
      next htype =>
        obtain ⟨id, hid, rfl⟩ := Option.map_eq_some_iff.mp h
        exact ⟨item, rfl, htype, hid, rfl, rfl, rfl⟩
      next => cases h
    | _ => cases h
  · rintro ⟨item, rfl, htype, hid, hname, hcarried, hdeltas⟩
    rw [addedCall, if_pos htype, hid, Option.map_some, Option.mem_some_iff, ← hname, ← hcarried,
      ← hdeltas]

theorem Fresh.added (h : Fresh ledgered event)
    (hadded : call ∈ addedCall ledgered.mapped.state event) :
    call.id ∉ ledgered.calls.map Call.id ∧ call.index ∉ ledgered.calls.map Call.index := by
  obtain ⟨item, rfl, htype, hid, -⟩ := mem_addedCall.mp hadded
  obtain ⟨id, hid', hfresh⟩ := h htype
  rw [hid] at hid'
  obtain rfl := Option.some.inj hid'
  exact hfresh

theorem Fresh.exists_added (h : Fresh ledgered (.outputItemAdded k item))
    (hitem : item.type = .functionCall) :
    ∃ call ∈ (ledgered.step (.outputItemAdded k item)).calls, call.index = k ∧
      item.call_id = some call.id ∧ toolNameOf item.name = call.name := by
  obtain ⟨id, hid, -⟩ := h hitem
  refine ⟨⟨id, toolNameOf item.name, k, completeArguments item,
    (ledgered.mapped.state.buffered k).getD []⟩, mem_calls_step.mpr (Or.inr ?_), rfl, hid, rfl⟩
  exact mem_addedCall.mpr ⟨item, rfl, hitem, hid, rfl, rfl, rfl⟩

theorem map_learn_calls {α : Type*} {f : Call → α} (hf : ∀ call, f (call.learn event) = f call) :
    (ledgered.step event).calls.map f =
      ledgered.calls.map f ++ (addedCall ledgered.mapped.state event).toList.map f := by
  rw [Ledgered.step, List.map_append, List.map_map]
  exact congrArg (· ++ _) (List.map_congr_left fun call _ => hf call)

theorem nodup_calls_step {α : Type*} {f : Call → α} (hf : ∀ call, f (call.learn event) = f call)
    (h : (ledgered.calls.map f).Nodup)
    (hnew : ∀ call ∈ addedCall ledgered.mapped.state event, f call ∉ ledgered.calls.map f) :
    ((ledgered.step event).calls.map f).Nodup := by
  rw [map_learn_calls hf]
  rcases hadded : addedCall ledgered.mapped.state event with _ | call
  · rw [Option.toList_none, List.map_nil, List.append_nil]
    exact h
  · rw [Option.toList_some, List.map_singleton, ← List.concat_eq_append]
    exact h.concat (hnew call hadded)

theorem Tracked.of_mapEvent (hfresh : Fresh ledgered event) (hcall : call ∈ ledgered.calls)
    (h : Tracked (mapEvent ledgered.mapped.state event).2 call) :
    Tracked ledgered.mapped.state call := by
  obtain ⟨t, ht, htype, hid⟩ := h
  rcases trackedItem_of_mapEvent ht htype with hold | ⟨item, rfl, hitem, -⟩
  · exact ⟨t, hold, htype, hid⟩
  · obtain ⟨_, _, _, hindex⟩ := hfresh hitem
    exact absurd (List.mem_map_of_mem hcall) hindex

theorem Tracked.callId_eq {call_id : Option JsString}
    (h : Tracked ledgered.mapped.state call) :
    ledgered.mapped.state.callId call.index call_id = call.id := by
  obtain ⟨t, ht, -, hid⟩ := h
  rw [callId, ht, Option.bind_some, hid]
  rfl

theorem emitted_of_argumentsDone {call_id arguments : Option JsString}
    (h : Tracked ledgered.mapped.state call) :
    call.id ∈ (mapEvent ledgered.mapped.state
      (.functionCallArgumentsDone call.index call_id arguments)).2.emittedToolCalls := by
  rw [(callMove _ _).emitted]
  by_cases hemitted : call.id ∈ ledgered.mapped.state.emittedToolCalls
  · exact Or.inl hemitted
  · refine Or.inr ⟨_, mem_handed_argumentsDone.mpr ⟨?_, rfl⟩, h.callId_eq⟩
    rw [h.callId_eq]
    exact hemitted

theorem gathered_learn (hid : call.id ∉ (mapEvent ledgered.mapped.state event).2.emittedToolCalls)
    (hne : call.id ≠ []) (htracked : Tracked ledgered.mapped.state call)
    (hcarried : call.carried = none)
    (hdeltas : call.deltas = (ledgered.mapped.state.buffered call.index).getD []) :
    (call.learn event).carried = none ∧ (call.learn event).deltas =
      ((mapEvent ledgered.mapped.state event).2.buffered call.index).getD [] := by
  rw [buffered_mapEvent]
  cases event with
  | functionCallArgumentsDelta output_index call_id delta =>
    dsimp only [Call.learn]
    split
    next hindex =>
      rw [← hindex, ← hdeltas]
      exact ⟨hcarried, rfl⟩
    next => exact ⟨hcarried, hdeltas⟩
  | functionCallArgumentsDone output_index call_id arguments =>
    dsimp only [Call.learn]
    split
    next hindex =>
      subst hindex
      exact absurd (emitted_of_argumentsDone htracked) hid
    next => exact ⟨hcarried, hdeltas⟩
  | outputItemDone item =>
    rw [Call.learn]
    split
    next h =>
      -- it would be handed on
      refine absurd ?_ hid
      rw [(callMove _ _).emitted]
      by_cases hemitted : call.id ∈ ledgered.mapped.state.emittedToolCalls
      · exact Or.inl hemitted
      · exact Or.inr ⟨⟨call.id, _, _⟩,
          mem_handed_itemDone.mpr ⟨h.1, h.2, hne, hemitted, rfl, rfl⟩, rfl⟩
    next => exact ⟨hcarried, hdeltas⟩
  | _ => exact ⟨hcarried, hdeltas⟩

theorem Ledgered.Inv.init : Ledgered.Inv .init where
  ids := List.nodup_nil
  indices := List.nodup_nil
  tracked _ _ ht := nomatch ht
  gathered _ hcall := absurd hcall List.not_mem_nil
  emitted _ := Iff.rfl
  function h := nomatch h
  reason h := nomatch h
  finish := rfl
  buffer := List.nodup_nil

theorem Ledgered.Inv.step (h : ledgered.Inv) (hfresh : Fresh ledgered event) :
    (ledgered.step event).Inv where
  ids := nodup_calls_step (fun _ => Call.learn_id) h.ids fun _ hadded => (hfresh.added hadded).1
  indices :=
    nodup_calls_step (fun _ => Call.learn_index) h.indices fun _ hadded => (hfresh.added hadded).2
  tracked := by
    intro k t ht htype
    rcases trackedItem_of_mapEvent ht htype with hold | ⟨item, rfl, hitem, rfl⟩
    · obtain ⟨call, hcall, hindex, hid, hname⟩ := h.tracked k t hold htype
      refine ⟨call.learn event, mem_calls_step.mpr (Or.inl ⟨call, hcall, rfl⟩), ?_⟩
      rw [Call.learn_index, Call.learn_id, Call.learn_name]
      exact ⟨hindex, hid, hname⟩
    · exact hfresh.exists_added hitem
  gathered := by
    intro call' hcall' hid hne htracked
    rcases mem_calls_step.mp hcall' with ⟨call, hcall, rfl⟩ | hadded
    · rw [Call.learn_id] at hid hne
      have htracked' : Tracked (mapEvent ledgered.mapped.state event).2 call := by
        rw [Tracked, Call.learn_index, Call.learn_id] at htracked
        exact htracked
      have hold := Tracked.of_mapEvent hfresh hcall htracked'
      have hnew : call.id ∉ ledgered.mapped.state.emittedToolCalls :=
        fun hemitted => hid (mem_emitted_step.mpr (Or.inl hemitted))
      obtain ⟨hcarried, hdeltas⟩ := h.gathered call hcall hnew hne hold
      rw [Call.learn_index]
      exact gathered_learn hid hne hold hcarried hdeltas
    · obtain ⟨item, rfl, hitem, hcall_id, -, hcarried, hdeltas⟩ := mem_addedCall.mp hadded
      refine ⟨?_, ?_⟩
      · rw [hcarried]
        rcases hcomplete : completeArguments item with _ | arguments
        · rfl
        · -- it was handed on with its arguments
          refine absurd (mem_emitted_step.mpr (Or.inr ⟨_, mem_handed_added.mpr
            ⟨hitem, arguments, hcomplete, rfl⟩, ?_⟩)) hid
          rw [addedId, hcall_id]
          rfl
      · rw [hdeltas]
        have hbuffered := @buffered_mapEvent ledgered.mapped.state
          (.outputItemAdded call'.index item) call'.index
        exact congrArg (Option.getD · []) hbuffered.symm
  emitted := by
    intro id
    rw [mem_emitted_step, h.emitted, List.mem_map, List.mem_map]
    constructor
    · rintro (⟨tool, htool, rfl⟩ | ⟨tool, htool, rfl⟩)
      · exact ⟨tool, mem_toolCalls_step.mpr (Or.inl htool), rfl⟩
      · exact ⟨tool, mem_toolCalls_step.mpr (Or.inr htool), rfl⟩
    · rintro ⟨tool, htool, rfl⟩
      rcases mem_toolCalls_step.mp htool with htool | htool
      · exact Or.inl ⟨tool, htool, rfl⟩
      · exact Or.inr ⟨tool, htool, rfl⟩
  function := by
    intro hfunction
    rcases (callMove ledgered.mapped.state event).hasFunctionCall hfunction with
      hold | hne | ⟨k, item, rfl, hitem⟩
    · rcases h.function hold with hcalls | hemitted
      · obtain ⟨call, hcall⟩ := List.exists_mem_of_ne_nil _ hcalls
        exact Or.inl (List.ne_nil_of_mem (mem_calls_step.mpr (Or.inl ⟨call, hcall, rfl⟩)))
      · obtain ⟨id, hid⟩ := List.exists_mem_of_ne_nil _ hemitted
        exact Or.inr (List.ne_nil_of_mem (mem_emitted_step.mpr (Or.inl hid)))
    · exact Or.inr hne
    · obtain ⟨call, hcall, -⟩ := hfresh.exists_added hitem
      exact Or.inl (List.ne_nil_of_mem hcall)
  reason hreason := h.reason ((callMove ledgered.mapped.state event).reason hreason)
  finish := by
    have hnone := (callMove ledgered.mapped.state event).finish
    change (ledgered.mapped.parts ++ (mapEvent ledgered.mapped.state event).1).filterMap _ = []
    rw [List.filterMap_append, h.finish, hnone]
    rfl
  buffer := nodup_toolArgBuffer_mapEvent h.buffer

/-! ### What a step keeps -/

theorem Ledgered.Inv.call_eq (h : ledgered.Inv) (hcall : call ∈ ledgered.calls)
    (hcall' : call' ∈ ledgered.calls) (hid : call.id = call'.id) : call = call' :=
  List.inj_on_of_nodup_map h.ids hcall hcall' hid

theorem Ledgered.Good.sent (hgood : ledgered.Good) (h : ledgered.Inv)
    (hcall : call ∈ ledgered.calls) (hid : call.id ∈ ledgered.mapped.state.emittedToolCalls) :
    call.toolCall ∈ toolCalls ledgered.mapped.parts := by
  obtain ⟨tool, htool, heq⟩ := List.mem_map.mp ((h.emitted _).mp hid)
  obtain ⟨call', hcall', rfl⟩ := hgood.known tool htool
  rw [h.call_eq hcall hcall' heq.symm]
  exact htool

theorem Ledgered.Good.known_id (hgood : ledgered.Good) (h : ledgered.Inv)
    (hid : id ∈ ledgered.mapped.state.emittedToolCalls) : id ∈ ledgered.calls.map Call.id := by
  obtain ⟨tool, htool, rfl⟩ := List.mem_map.mp ((h.emitted _).mp hid)
  obtain ⟨call, hcall, rfl⟩ := hgood.known tool htool
  exact List.mem_map_of_mem hcall

theorem Ledgered.Good.handed_new (hgood : ledgered.Good) (h : ledgered.Inv)
    (hfresh : Fresh ledgered event) {tool : ToolCall}
    (htool : tool ∈ handed ledgered.mapped.state event) :
    tool.id ∉ ledgered.mapped.state.emittedToolCalls := by
  cases event with
  | outputItemAdded output_index item =>
    obtain ⟨hitem, arguments, -, rfl⟩ := mem_handed_added.mp htool
    obtain ⟨id, hid, hnew, -⟩ := hfresh hitem
    intro hemitted
    rw [addedId, hid] at hemitted
    exact hnew (hgood.known_id h hemitted)
  | functionCallArgumentsDone output_index call_id arguments =>
    obtain ⟨hnew, rfl⟩ := mem_handed_argumentsDone.mp htool
    exact hnew
  | outputItemDone item =>
    exact (mem_handed_itemDone.mp htool).2.2.2.1
  | _ => cases htool

def Keeps (state : StreamState) (call : Call) : Event → Prop
  | .outputItemAdded output_index item => item.type = .functionCall ∨ call.index ≠ output_index
  | .reasoningSummaryTextDone => call.index ≠ state.reasoningKey
  | _ => True

theorem Tracked.mapEvent_iff (h : Tracked ledgered.mapped.state call)
    (hfresh : Fresh ledgered event) (hcall : call ∈ ledgered.calls) :
    Tracked (mapEvent ledgered.mapped.state event).2 call ↔
      Keeps ledgered.mapped.state call event := by
  obtain ⟨t, ht, htype, hid⟩ := h
  rw [Tracked, trackedItem_mapEvent]
  cases event with
  | outputItemAdded output_index item =>
    dsimp only [Keeps]
    split
    next hindex =>
      constructor
      · rintro ⟨_, heq, hitem, -⟩
        rw [← Option.some.inj heq] at hitem
        exact Or.inl hitem
      · rintro (hitem | hne)
        · obtain ⟨_, _, _, hnew⟩ := hfresh hitem
          rw [← hindex] at hnew
          exact absurd (List.mem_map_of_mem hcall) hnew
        · exact absurd hindex hne
    next hne => exact iff_of_true ⟨t, ht, htype, hid⟩ (Or.inr hne)
  | reasoningSummaryTextDelta delta =>
    refine iff_of_true ⟨t, ?_, htype, hid⟩ trivial
    rw [if_neg, ht]
    rintro ⟨-, hnone⟩
    rw [ht] at hnone
    cases hnone
  | reasoningSummaryTextDone =>
    dsimp only [Keeps]
    split
    next hindex =>
      refine iff_of_false ?_ (not_not_intro hindex)
      rintro ⟨_, hnone, -⟩
      cases hnone
    next hne => exact iff_of_true ⟨t, ht, htype, hid⟩ hne
  | _ => exact iff_of_true ⟨t, ht, htype, hid⟩ trivial

theorem Held.goes_on (h : Held ledgered.mapped.state call)
    (hkept : Tracked (mapEvent ledgered.mapped.state event).2 call) :
    call.id ∈ (mapEvent ledgered.mapped.state event).2.emittedToolCalls ∨
      Held (mapEvent ledgered.mapped.state event).2 call := by
  by_cases hemitted : call.id ∈ (mapEvent ledgered.mapped.state event).2.emittedToolCalls
  · exact Or.inl hemitted
  · refine Or.inr ⟨hemitted, h.named, hkept, ?_⟩
    rw [buffered_mapEvent]
    cases event with
    | functionCallArgumentsDelta output_index call_id delta =>
      dsimp only
      split
      next => rfl
      next => exact h.buffered
    | functionCallArgumentsDone output_index call_id arguments =>
      dsimp only
      split
      next hindex =>
        subst hindex
        exact absurd (emitted_of_argumentsDone h.tracked) hemitted
      next => exact h.buffered
    | _ => exact h.buffered

theorem handed_of_not_keeps {state : StreamState} (h : ¬Keeps state call event) :
    handed state event = none := by
  cases event with
  | outputItemAdded output_index item => exact if_neg fun hitem => h (Or.inl hitem)
  | reasoningSummaryTextDone => rfl
  | _ => exact absurd trivial h

theorem Ledgered.Good.held_iff (hgood : ledgered.Good) (hfresh : Fresh ledgered event) :
    (∀ call ∈ (ledgered.step event).calls,
        call.id ∈ (ledgered.step event).mapped.state.emittedToolCalls ∨
          Held (ledgered.step event).mapped.state call) ↔
      (∀ call ∈ ledgered.calls, call.id ∉ ledgered.mapped.state.emittedToolCalls →
        Keeps ledgered.mapped.state call event) ∧
      ∀ call ∈ addedCall ledgered.mapped.state event,
        call.id ∈ (ledgered.step event).mapped.state.emittedToolCalls ∨
          Held (ledgered.step event).mapped.state call := by
  have hlearn : ∀ call : Call, Held (ledgered.step event).mapped.state (call.learn event) ↔
      Held (ledgered.step event).mapped.state call := by
    intro call
    constructor
    · rintro ⟨hnew, hne, htracked, hbuffered⟩
      rw [Tracked] at htracked
      rw [Call.learn_id, Call.learn_index] at *
      exact ⟨hnew, hne, htracked, hbuffered⟩
    · rintro ⟨hnew, hne, htracked, hbuffered⟩
      refine ⟨?_, ?_, ?_, ?_⟩
      · rwa [Call.learn_id]
      · rwa [Call.learn_id]
      · rwa [Tracked, Call.learn_id, Call.learn_index]
      · rwa [Call.learn_index]
  constructor
  · refine fun h => ⟨fun call hcall hnew => ?_, fun call hadded =>
      h call (mem_calls_step.mpr (Or.inr hadded))⟩
    have hheld := (hgood.held call hcall).resolve_left hnew
    by_contra hlost
    have hcase := h (call.learn event) (mem_calls_step.mpr (Or.inl ⟨call, hcall, rfl⟩))
    rw [Call.learn_id, hlearn] at hcase
    rcases hcase with hemitted | hheld'
    · rcases mem_emitted_step.mp hemitted with hemitted | ⟨tool, htool, -⟩
      · exact hnew hemitted
      · rw [handed_of_not_keeps hlost] at htool
        cases htool
    · exact hlost ((hheld.tracked.mapEvent_iff hfresh hcall).mp hheld'.tracked)
  · rintro ⟨hkeeps, hadded⟩ call' hcall'
    rcases mem_calls_step.mp hcall' with ⟨call, hcall, rfl⟩ | hnew
    · rw [Call.learn_id, hlearn]
      by_cases hemitted : call.id ∈ ledgered.mapped.state.emittedToolCalls
      · exact Or.inl (mem_emitted_step.mpr (Or.inl hemitted))
      · have hheld := (hgood.held call hcall).resolve_left hemitted
        exact hheld.goes_on
          ((hheld.tracked.mapEvent_iff hfresh hcall).mpr (hkeeps call hcall hemitted))
    · exact hadded call' hnew

/-- **What a step must meet**: what it hands on is a call, what it says of a call that was handed on
is what was handed on, and no call is lost. -/
theorem Ledgered.Good.step_iff (hgood : ledgered.Good) (h : ledgered.Inv)
    (hfresh : Fresh ledgered event) :
    (ledgered.step event).Good ↔
      (∀ tool ∈ handed ledgered.mapped.state event,
        ∃ call ∈ (ledgered.step event).calls, call.toolCall = tool) ∧
      (∀ call ∈ ledgered.calls, call.id ∈ ledgered.mapped.state.emittedToolCalls →
        (call.learn event).toolCall = call.toolCall) ∧
      (∀ call ∈ ledgered.calls, call.id ∉ ledgered.mapped.state.emittedToolCalls →
        Keeps ledgered.mapped.state call event) ∧
      ∀ call ∈ addedCall ledgered.mapped.state event,
        call.id ∈ (ledgered.step event).mapped.state.emittedToolCalls ∨
          Held (ledgered.step event).mapped.state call := by
  rw [← hgood.held_iff hfresh]
  constructor
  · rintro ⟨-, hknown, hheld⟩
    refine ⟨fun tool htool => hknown tool (mem_toolCalls_step.mpr (Or.inr htool)), ?_, hheld⟩
    intro call hcall hemitted
    obtain ⟨call', hcall', heq⟩ :=
      hknown _ (mem_toolCalls_step.mpr (Or.inl (hgood.sent h hcall hemitted)))
    have hid : call'.id = (call.learn event).id := by
      rw [Call.learn_id]
      exact congrArg ToolCall.id heq
    rw [← (h.step hfresh).call_eq hcall' (mem_calls_step.mpr (Or.inl ⟨call, hcall, rfl⟩)) hid]
    exact heq
  · rintro ⟨hhanded, hsame, hheld⟩
    refine ⟨?_, fun tool htool => ?_, hheld⟩
    · rw [toolCalls_step, List.map_append]
      refine hgood.once.append ?_ ?_
      · rcases handed ledgered.mapped.state event with _ | tool
        · exact List.nodup_nil
        · exact List.nodup_singleton _
      · intro id hold hnew
        obtain ⟨tool, htool, rfl⟩ := List.mem_map.mp hnew
        exact hgood.handed_new h hfresh (Option.mem_toList.mp htool) ((h.emitted _).mpr hold)
    · rcases mem_toolCalls_step.mp htool with hold | hnew
      · obtain ⟨call, hcall, rfl⟩ := hgood.known tool hold
        have hemitted := (h.emitted call.id).mpr (List.mem_map_of_mem hold)
        exact ⟨call.learn event, mem_calls_step.mpr (Or.inl ⟨call, hcall, rfl⟩),
          hsame call hcall hemitted⟩
      · exact hhanded tool hnew

theorem Ledgered.Good.added_iff (hgood : ledgered.Good) (h : ledgered.Inv)
    (hfresh : Fresh ledgered (.outputItemAdded k item)) (hitem : item.type = .functionCall) :
    (∀ call ∈ addedCall ledgered.mapped.state (.outputItemAdded k item),
      call.id ∈ (ledgered.step (.outputItemAdded k item)).mapped.state.emittedToolCalls ∨
        Held (ledgered.step (.outputItemAdded k item)).mapped.state call) ↔
      (completeArguments item).isSome ∨
        item.call_id ≠ some [] ∧ (ledgered.mapped.state.buffered k).isSome := by
  obtain ⟨id, hid, hnew, -⟩ := hfresh hitem
  have hbuffered : (ledgered.step (.outputItemAdded k item)).mapped.state.buffered k =
      ledgered.mapped.state.buffered k := buffered_mapEvent
  constructor
  · intro hadded
    refine or_iff_not_imp_left.mpr fun hincomplete => ?_
    have hcase := hadded ⟨id, toolNameOf item.name, k, completeArguments item,
      (ledgered.mapped.state.buffered k).getD []⟩
      (mem_addedCall.mpr ⟨item, rfl, hitem, hid, rfl, rfl, rfl⟩)
    rcases hcase with hemitted | hheld
    · rcases mem_emitted_step.mp hemitted with hemitted | ⟨tool, htool, -⟩
      · exact absurd (hgood.known_id h hemitted) hnew
      · obtain ⟨-, arguments, hcomplete, -⟩ := mem_handed_added.mp htool
        exact absurd (Option.isSome_of_eq_some hcomplete) hincomplete
    · refine ⟨fun hempty => hheld.named ?_, ?_⟩
      · rw [hid] at hempty
        exact Option.some.inj hempty
      · rw [← hbuffered]
        exact hheld.buffered
  · intro htold call hadded
    obtain ⟨item', heq, -, hid', hname, -, -⟩ := mem_addedCall.mp hadded
    obtain ⟨hindex, rfl⟩ := Event.outputItemAdded.inj heq
    rw [hid] at hid'
    obtain rfl := Option.some.inj hid'
    by_cases hcomplete : (completeArguments item).isSome
    · obtain ⟨arguments, harguments⟩ := Option.isSome_iff_exists.mp hcomplete
      refine Or.inl (mem_emitted_step.mpr (Or.inr
        ⟨_, mem_handed_added.mpr ⟨hitem, arguments, harguments, rfl⟩, ?_⟩))
      rw [addedId, hid]
      rfl
    · obtain ⟨hne, hsome⟩ := htold.resolve_left hcomplete
      refine Or.inr ⟨fun hemitted => ?_, fun hempty => hne (by rw [hid, hempty]), ?_, ?_⟩
      · rcases mem_emitted_step.mp hemitted with hemitted | ⟨tool, htool, -⟩
        · exact hnew (hgood.known_id h hemitted)
        · obtain ⟨-, arguments, harguments, -⟩ := mem_handed_added.mp htool
          exact hcomplete (Option.isSome_of_eq_some harguments)
      · refine ⟨trackedOf k item, ?_, hitem, hid⟩
        rw [← hindex]
        exact trackedItem_mapEvent.trans (if_pos rfl)
      · rw [← hindex, hbuffered]
        exact hsome

/-- **What a step must meet that adds no call.** -/
theorem Ledgered.Good.step_iff_of_none (hgood : ledgered.Good) (h : ledgered.Inv)
    (hfresh : Fresh ledgered event) (hnone : addedCall ledgered.mapped.state event = none) :
    (ledgered.step event).Good ↔
      (∀ tool ∈ handed ledgered.mapped.state event,
        ∃ call ∈ ledgered.calls, (call.learn event).toolCall = tool) ∧
      (∀ call ∈ ledgered.calls, call.id ∈ ledgered.mapped.state.emittedToolCalls →
        (call.learn event).toolCall = call.toolCall) ∧
      ∀ call ∈ ledgered.calls, call.id ∉ ledgered.mapped.state.emittedToolCalls →
        Keeps ledgered.mapped.state call event := by
  simp [hgood.step_iff h hfresh, mem_calls_step, hnone]

section Carry

variable {p : Prop} [Decidable p] {arguments : Option JsString}

theorem Call.toolCall_carry :
    (if p then { call with carried := arguments.or call.carried } else call).toolCall =
      ⟨call.id, call.name, if p then arguments.getD call.input else call.input⟩ := by
  split
  next =>
    rcases arguments with _ | a
    · rfl
    · rfl
  next => rfl

theorem Call.toolCall_carry_eq :
    ToolCall.mk call.id call.name (if p then arguments.getD call.input else call.input) =
      call.toolCall ↔ p → ∀ a ∈ arguments, a = call.input := by
  rw [Call.toolCall, ToolCall.mk.injEq, and_iff_right rfl, and_iff_right rfl]
  split
  next hp =>
    rcases arguments with _ | a
    · simp
    · simp [hp]
  next hp => exact iff_of_true rfl fun h => absurd h hp

end Carry

theorem Ledgered.Good.told_iff_of_argumentsDone {arguments : Option JsString}
    {call_id : Option JsString} (hgood : ledgered.Good) (h : ledgered.Inv)
    (hfresh : Fresh ledgered (.functionCallArgumentsDone k call_id arguments)) :
    (ledgered.step (.functionCallArgumentsDone k call_id arguments)).Good ↔
      Told ledgered (.functionCallArgumentsDone k call_id arguments) := by
  simp only [hgood.step_iff_of_none h hfresh rfl, Call.learn, Call.toolCall_carry,
    Call.toolCall_carry_eq, mem_handed_argumentsDone]
  constructor
  · rintro ⟨hhanded, hsame, -⟩
    refine ⟨fun hnew => ?_, fun call hcall hindex hemitted => hsame call hcall hemitted hindex⟩
    obtain ⟨call, hcall, heq⟩ := hhanded _ ⟨hnew, rfl⟩
    obtain ⟨hid, hname, hargs⟩ := ToolCall.mk.inj heq
    exact ⟨call, hcall, hid, hname, hargs⟩
  · rintro ⟨hhanded, hsame⟩
    refine ⟨?_, fun call hcall hemitted hindex => hsame call hcall hindex hemitted,
      fun _ _ _ => trivial⟩
    rintro tool ⟨hnew, rfl⟩
    obtain ⟨call, hcall, hid, hname, hargs⟩ := hhanded hnew
    refine ⟨call, hcall, ?_⟩
    rw [hid, hname, hargs]

theorem Ledgered.Good.told_iff_of_itemDone (hgood : ledgered.Good) (h : ledgered.Inv)
    (hfresh : Fresh ledgered (.outputItemDone item)) :
    (ledgered.step (.outputItemDone item)).Good ↔ Told ledgered (.outputItemDone item) := by
  simp only [hgood.step_iff_of_none h hfresh rfl, Call.learn, Call.toolCall_carry,
    Call.toolCall_carry_eq, mem_handed_itemDone]
  constructor
  · rintro ⟨hhanded, hsame, -⟩ hitem id hid
    refine ⟨fun hne hnew => ?_, ?_⟩
    · obtain ⟨call, hcall, heq⟩ := hhanded
        ⟨id, toolNameOf item.name, item.arguments.getD (js "{}")⟩ ⟨hitem, hid, hne, hnew, rfl, rfl⟩
      obtain ⟨rfl, hname, hargs⟩ := ToolCall.mk.inj heq
      rw [if_pos ⟨hitem, hid⟩] at hargs
      refine ⟨call, hcall, rfl, hname, ?_⟩
      rcases harguments : item.arguments with _ | a
      · rw [harguments] at hargs
        exact Or.inr hargs
      · exact Or.inl rfl
    · rintro call hcall rfl hemitted
      exact hsame call hcall hemitted ⟨hitem, hid⟩
  · intro htold
    refine ⟨?_, fun call hcall hemitted hcase => (htold hcase.1 call.id hcase.2).2 call hcall rfl
      hemitted, fun _ _ _ => trivial⟩
    rintro ⟨id, name, input⟩ ⟨hitem, hid, hne, hnew, rfl, rfl⟩
    obtain ⟨call, hcall, rfl, hname, hargs⟩ := (htold hitem id hid).1 hne hnew
    refine ⟨call, hcall, ?_⟩
    rw [if_pos ⟨hitem, hid⟩, hname]
    rcases harguments : item.arguments with _ | a
    · rw [harguments] at hargs
      rw [hargs.resolve_left Bool.false_ne_true]
    · rfl

/-- **What an event must meet** for every call to be handed on once or held. -/
theorem Ledgered.Good.told_iff (hgood : ledgered.Good) (h : ledgered.Inv)
    (hfresh : Fresh ledgered event) : (ledgered.step event).Good ↔ Told ledgered event := by
  cases event with
  | outputItemAdded output_index item =>
    dsimp only [Told]
    split
    next hitem =>
      rw [hgood.step_iff h hfresh, ← hgood.added_iff h hfresh hitem]
      refine ⟨fun hall => hall.2.2.2, fun hadded => ⟨fun tool htool => ?_, fun _ _ _ => rfl,
        fun _ _ _ => Or.inl hitem, hadded⟩⟩
      obtain ⟨-, arguments, hcomplete, rfl⟩ := mem_handed_added.mp htool
      obtain ⟨id, hid, -⟩ := hfresh hitem
      refine ⟨⟨id, toolNameOf item.name, output_index, completeArguments item,
        (ledgered.mapped.state.buffered output_index).getD []⟩,
        mem_calls_step.mpr (Or.inr (mem_addedCall.mpr ⟨item, rfl, hitem, hid, rfl, rfl, rfl⟩)), ?_⟩
      rw [addedId, hid, hcomplete]
      rfl
    next hitem =>
      have hnone : handed ledgered.mapped.state (.outputItemAdded output_index item) = none :=
        if_neg hitem
      rw [hgood.step_iff_of_none h hfresh (if_neg hitem), hnone]
      constructor
      · rintro ⟨-, -, hkeeps⟩ call hcall hindex
        by_contra hnew
        exact (hkeeps call hcall hnew).elim hitem fun hne => hne hindex
      · intro hsent
        refine ⟨nofun, fun _ _ _ => rfl, fun call hcall hnew => ?_⟩
        exact Or.inr fun hindex => hnew (hsent call hcall hindex)
  | functionCallArgumentsDelta output_index call_id delta =>
    have hlearn : ∀ call : Call,
        (call.learn (.functionCallArgumentsDelta output_index call_id delta)).toolCall =
            call.toolCall ↔
          (call.index = output_index → call.carried = none →
            orEmptyObject (call.deltas ++ delta) = orEmptyObject call.deltas) := by
      intro call
      dsimp only [Call.learn]
      split
      next hindex =>
        rcases hcarried : call.carried with _ | arguments
        · simp [Call.toolCall, Call.input, hcarried, hindex]
        · simp [Call.toolCall, Call.input, hcarried]
      next hindex => simp [hindex]
    simp only [hgood.step_iff_of_none h hfresh rfl, hlearn]
    constructor
    · rintro ⟨-, hsame, -⟩ call hcall hindex hemitted hcarried
      exact hsame call hcall hemitted hindex hcarried
    · intro htold
      exact ⟨nofun, fun call hcall hemitted hindex => htold call hcall hindex hemitted,
        fun _ _ _ => trivial⟩
  | functionCallArgumentsDone output_index call_id arguments =>
    exact hgood.told_iff_of_argumentsDone h hfresh
  | outputItemDone item => exact hgood.told_iff_of_itemDone h hfresh
  | reasoningSummaryTextDone =>
    rw [hgood.step_iff_of_none h hfresh rfl]
    constructor
    · rintro ⟨-, -, hkeeps⟩ call hcall hindex
      by_contra hnew
      exact hkeeps call hcall hnew hindex
    · exact fun hsent => ⟨nofun, fun _ _ _ => rfl,
        fun call hcall hnew hindex => hnew (hsent call hcall hindex)⟩
  | _ =>
    rw [hgood.step_iff_of_none h hfresh rfl]
    exact iff_of_true ⟨nofun, fun _ _ _ => rfl, fun _ _ _ => trivial⟩ trivial

end Ledger

/-! ### The end of a stream -/

section Flush

variable {state : StreamState} {entries : List Buffered} {tool : ToolCall}

theorem flushToolCalls_cons {entry : Buffered} {t : TrackedItem}
    (h : danglingCall state entry = some (id, t)) :
    toolCalls (flushToolCalls state (entry :: entries)).1 =
      ⟨id, toolNameOf t.name, orEmptyObject entry.text⟩ ::
        toolCalls (flushToolCalls (state.emitToolCall id (toolNameOf t.name)
          (orEmptyObject entry.text) (truthy (some t.id))).2 entries).1 := by
  have hflush : (flushToolCalls state (entry :: entries)).1 =
      .toolInputEnd id :: (state.emitToolCall id (toolNameOf t.name) (orEmptyObject entry.text)
        (truthy (some t.id))).1 ++ (flushToolCalls (state.emitToolCall id (toolNameOf t.name)
          (orEmptyObject entry.text) (truthy (some t.id))).2 entries).1 := by
    rw [flushToolCalls, h]
    rfl
  have hend : toolCalls [.toolInputEnd id] = [] := rfl
  rw [hflush, ← List.singleton_append, toolCalls_append, toolCalls_append,
    emitToolCall_emitted.calls, if_neg (danglingCall_eq_some.mp h).2.2.2, hend]
  rfl

theorem flushToolCalls_cons_none {entry : Buffered} (h : danglingCall state entry = none) :
    flushToolCalls state (entry :: entries) = flushToolCalls state entries := by
  rw [flushToolCalls, h]

/-- **What the buffer is handed on as**: each call once, no call that was handed on, and each entry
that dangles. -/
theorem flushToolCalls_calls (state : StreamState) (entries : List Buffered) :
    ((toolCalls (flushToolCalls state entries).1).map ToolCall.id).Nodup ∧
      (∀ tool ∈ toolCalls (flushToolCalls state entries).1, ∃ entry ∈ entries, ∃ t,
        danglingCall state entry = some (tool.id, t) ∧ tool.name = toolNameOf t.name ∧
          tool.input = orEmptyObject entry.text) ∧
      ∀ entry ∈ entries, ∀ id t, danglingCall state entry = some (id, t) →
        ∃ tool ∈ toolCalls (flushToolCalls state entries).1, tool.id = id := by
  induction entries generalizing state with
  | nil =>
    exact ⟨List.nodup_nil, fun _ htool => absurd htool List.not_mem_nil,
      fun _ hentry => absurd hentry List.not_mem_nil⟩
  | cons entry entries ih =>
    rcases hdangling : danglingCall state entry with _ | ⟨id, t⟩
    · obtain ⟨hnodup, hfrom, hto⟩ := ih state
      rw [flushToolCalls_cons_none hdangling]
      refine ⟨hnodup, fun tool htool => ?_, fun entry' hentry' id t h => ?_⟩
      · obtain ⟨entry', hentry', hrest⟩ := hfrom tool htool
        exact ⟨entry', List.mem_cons_of_mem _ hentry', hrest⟩
      · rcases List.mem_cons.mp hentry' with rfl | hmem
        · rw [hdangling] at h
          cases h
        · exact hto entry' hmem id t h
    · obtain ⟨hnodup, hfrom, hto⟩ := ih (state.emitToolCall id (toolNameOf t.name)
        (orEmptyObject entry.text) (truthy (some t.id))).2
      have hnew := (danglingCall_eq_some.mp hdangling).2.2.2
      rw [flushToolCalls_cons hdangling]
      refine ⟨?_, fun tool htool => ?_, fun entry' hentry' id' t' h => ?_⟩
      · rw [List.map_cons, List.nodup_cons]
        refine ⟨fun hmem => ?_, hnodup⟩
        obtain ⟨tool, htool, heq⟩ := List.mem_map.mp hmem
        obtain ⟨entry', -, t', h', -⟩ := hfrom tool htool
        exact ((danglingCall_emitToolCall hnew).mp h').1 heq
      · rcases List.mem_cons.mp htool with rfl | htool
        · exact ⟨entry, List.mem_cons_self, t, hdangling, rfl, rfl⟩
        · obtain ⟨entry', hentry', t', h', hrest⟩ := hfrom tool htool
          exact ⟨entry', List.mem_cons_of_mem _ hentry', t',
            ((danglingCall_emitToolCall hnew).mp h').2, hrest⟩
      · rcases eq_or_ne id' id with rfl | hne
        · exact ⟨_, List.mem_cons_self, rfl⟩
        · rcases List.mem_cons.mp hentry' with rfl | hmem
          · rw [hdangling] at h
            exact absurd (Prod.mk.inj (Option.some.inj h)).1.symm hne
          · obtain ⟨tool, htool, heq⟩ :=
              hto entry' hmem id' t' ((danglingCall_emitToolCall hnew).mpr ⟨hne, h⟩)
            exact ⟨tool, List.mem_cons_of_mem _ htool, heq⟩

/-- A buffer from which nothing is handed on leaves everything as it was. -/
theorem flushToolCalls_of_nil (h : toolCalls (flushToolCalls state entries).1 = []) :
    (flushToolCalls state entries).2 = state := by
  induction entries with
  | nil => rfl
  | cons entry entries ih =>
    rcases hdangling : danglingCall state entry with _ | ⟨id, t⟩
    · rw [flushToolCalls_cons_none hdangling] at h ⊢
      exact ih h
    · rw [flushToolCalls_cons hdangling] at h
      cases h

theorem toFinishReason_flushToolCalls (state : StreamState) (entries : List Buffered) :
    (flushToolCalls state entries).1.filterMap Part.toFinishReason = [] := by
  induction entries generalizing state with
  | nil => rfl
  | cons entry entries ih =>
    rcases hdangling : danglingCall state entry with _ | ⟨id, t⟩
    · rw [flushToolCalls_cons_none hdangling]
      exact ih state
    · rw [flushToolCalls, hdangling]
      rw [List.filterMap_append, ih, List.filterMap_cons_none rfl, List.append_nil]
      exact emitToolCall_emitted.finish

end Flush

/-! ### Where the stream is cut off -/

section Close

variable {ledgered : Ledgered} {options : MapResponseStreamOptions} {tool : ToolCall}
  {finishReason : FinishReason} (events : List Event)

theorem toolCalls_flush {state : StreamState} : toolCalls (flush state).1 = toolCalls
    (flushToolCalls { state with openTextId := none } state.toolArgBuffer).1 := by
  rw [flush, toolCalls_append]
  rcases state.openTextId with _ | id
  · rfl
  · rfl

theorem toolCalls_close {mapped : Mapped} : toolCalls (mapped.close options) =
    toolCalls mapped.parts ++ toolCalls (flush mapped.state).1 := by
  have hfinish : toolCalls [finishPart options (flush mapped.state).2] = [] := rfl
  rw [Mapped.close, toolCalls_append, toolCalls_append, hfinish, List.append_nil]

theorem nodup_flush {state : StreamState} : ((toolCalls (flush state).1).map ToolCall.id).Nodup := by
  rw [toolCalls_flush]
  exact (flushToolCalls_calls _ _).1

/-- **What the end of the stream hands on** are the calls that are held. -/
theorem Ledgered.Inv.mem_flush (h : ledgered.Inv) :
    tool ∈ toolCalls (flush ledgered.mapped.state).1 ↔
      ∃ call ∈ ledgered.calls, Held ledgered.mapped.state call ∧ call.toolCall = tool := by
  obtain ⟨-, hfrom, hto⟩ := flushToolCalls_calls
    { ledgered.mapped.state with openTextId := none } ledgered.mapped.state.toolArgBuffer
  have hheld : ∀ tool ∈ toolCalls (flush ledgered.mapped.state).1,
      ∃ call ∈ ledgered.calls, Held ledgered.mapped.state call ∧ call.toolCall = tool := by
    intro tool htool
    rw [toolCalls_flush] at htool
    obtain ⟨entry, hentry, t, hdangling, hname, hinput⟩ := hfrom tool htool
    obtain ⟨htracked, hid, htype, hnew⟩ := danglingCall_eq_some.mp hdangling
    obtain ⟨hid, hne⟩ := Option.filter_eq_some_iff.mp hid
    obtain ⟨call, hcall, hindex, hcallId, hcallName⟩ := h.tracked entry.index t htracked htype
    rw [hcallId] at hid
    have hcall_id : call.id = tool.id := Option.some.inj hid
    have hbuffered : ledgered.mapped.state.buffered call.index = some entry.text := by
      rw [hindex, buffered, (Table.lookup_eq_some_iff h.buffer).mpr ⟨hentry, rfl⟩]
      rfl
    have hcallTracked : Tracked ledgered.mapped.state call := by
      rw [Tracked, hindex]
      exact ⟨t, htracked, htype, hcallId⟩
    rw [← hcall_id] at hnew
    have hnamed : call.id ≠ [] := by
      rw [hcall_id]
      exact of_decide_eq_true hne
    obtain ⟨hcarried, hdeltas⟩ := h.gathered call hcall hnew hnamed hcallTracked
    rw [hbuffered] at hdeltas
    refine ⟨call, hcall, ⟨hnew, hnamed, hcallTracked, ?_⟩, ?_⟩
    · rw [hbuffered]
      rfl
    · rw [Call.toolCall, Call.input, hcarried, hdeltas, hcall_id, ← hcallName, ← hname]
      exact congrArg (ToolCall.mk tool.id tool.name) hinput.symm
  refine ⟨hheld tool, ?_⟩
  rintro ⟨call, hcall, hcallHeld, rfl⟩
  obtain ⟨t, ht, htype, hid⟩ := hcallHeld.tracked
  -- the entry that holds the arguments of the call
  obtain ⟨entry, hentry⟩ : ∃ entry, Table.lookup Buffered.index ledgered.mapped.state.toolArgBuffer
      call.index = some entry := by
    have hsome := hcallHeld.buffered
    rw [buffered, Option.isSome_map] at hsome
    exact Option.isSome_iff_exists.mp hsome
  obtain ⟨tool, htool, heq⟩ := hto entry (Table.mem_of_lookup hentry) call.id t (by
    rw [danglingCall_eq_some, Table.key_of_lookup hentry]
    refine ⟨ht, ?_, htype, hcallHeld.new⟩
    rw [hid]
    exact Option.filter_some_pos (decide_eq_true hcallHeld.named))
  rw [← toolCalls_flush] at htool
  obtain ⟨call', hcall', -, rfl⟩ := hheld tool htool
  rw [h.call_eq hcall hcall' heq.symm]
  exact htool

/-- **Every call is handed on once at the end** exactly if every call was handed on once or is held,
and no other call was handed on. -/
theorem Ledgered.Inv.perm_iff (h : ledgered.Inv) :
    (toolCalls (ledgered.mapped.close options)).Perm (ledgered.calls.map Call.toolCall) ↔
      ledgered.Good := by
  have hids : (ledgered.calls.map Call.toolCall).map ToolCall.id = ledgered.calls.map Call.id := by
    rw [List.map_map]
    rfl
  have hnodup : (ledgered.calls.map Call.toolCall).Nodup := by
    refine List.Nodup.of_map ToolCall.id ?_
    rw [hids]
    exact h.ids
  rw [toolCalls_close]
  constructor
  · intro hperm
    refine ⟨?_, fun tool htool => ?_, fun call hcall => ?_⟩
    · have hmap := hperm.map ToolCall.id
      rw [hids, List.map_append] at hmap
      exact (hmap.nodup_iff.mpr h.ids).of_append_left
    · exact List.mem_map.mp (hperm.mem_iff.mp (List.mem_append_left _ htool))
    · rcases List.mem_append.mp (hperm.mem_iff.mpr (List.mem_map_of_mem hcall)) with hsent | hflush
      · exact Or.inl ((h.emitted _).mpr (List.mem_map_of_mem hsent))
      · obtain ⟨call', hcall', hheld, heq⟩ := h.mem_flush.mp hflush
        rw [← h.call_eq hcall' hcall (congrArg ToolCall.id heq)]
        exact Or.inr hheld
  · intro hgood
    have hdisjoint : List.Disjoint ((toolCalls ledgered.mapped.parts).map ToolCall.id)
        ((toolCalls (flush ledgered.mapped.state).1).map ToolCall.id) := by
      intro id hsent hflush
      obtain ⟨tool, htool, rfl⟩ := List.mem_map.mp hflush
      obtain ⟨call, -, hheld, rfl⟩ := h.mem_flush.mp htool
      exact hheld.new ((h.emitted _).mpr hsent)
    have hsent : (toolCalls ledgered.mapped.parts ++
        toolCalls (flush ledgered.mapped.state).1).Nodup := by
      refine List.Nodup.of_map ToolCall.id ?_
      rw [List.map_append]
      exact hgood.once.append nodup_flush hdisjoint
    refine (List.perm_ext_iff_of_nodup hsent hnodup).mpr fun tool => ?_
    rw [List.mem_append, h.mem_flush, List.mem_map]
    constructor
    · rintro (htool | ⟨call, hcall, -, heq⟩)
      · exact hgood.known tool htool
      · exact ⟨call, hcall, heq⟩
    · rintro ⟨call, hcall, rfl⟩
      rcases hgood.held call hcall with hemitted | hheld
      · exact Or.inl (hgood.sent h hcall hemitted)
      · exact Or.inr ⟨call, hcall, hheld, rfl⟩

theorem finishReasonOf_eq_toolCalls {state : StreamState} (h : finishReasonOf state = .toolCalls)
    (hreason : state.finishReason ≠ some .toolCalls) :
    state.hasFunctionCall ∨ state.emittedToolCalls ≠ [] := by
  rw [finishReasonOf] at h
  split at h
  next =>
    split at h
    next hfunction => exact Or.inl hfunction
    next => cases h
  next finishReason _ heq =>
    rw [heq, h] at hreason
    exact absurd rfl hreason
  next =>
    split at h
    next hcalls => exact hcalls
    next =>
      split at h
      next => cases h
      next => cases h

theorem emptyTurnReason_eq_toolCalls {causeFamily : CauseFamily}
    (h : emptyTurnReason causeFamily finishReason = .toolCalls) : finishReason = .toolCalls := by
  unfold emptyTurnReason at h
  split at h
  next => cases h
  next => cases h
  next => cases h
  next => exact h

theorem finishPart_toolCalls {state : StreamState}
    (h : (finishPart options state).toFinishReason = some .toolCalls) :
    finishReasonOf state = .toolCalls := by
  have heq := Option.some.inj h
  revert heq
  generalize (if state.emittedTextDeltas = 0 ∧ state.emittedToolCalls = [] then
    options.logContext.map
      (classifyEmptyTurn (options.getTransportSnapshot.getD (fallbackSnapshot state)))
    else none) = emptyTurn
  intro heq
  rcases emptyTurn with _ | turn
  · exact heq
  · exact emptyTurnReason_eq_toolCalls heq

theorem toFinishReason_flush (state : StreamState) :
    (flush state).1.filterMap Part.toFinishReason = [] := by
  rw [flush, List.filterMap_append, toFinishReason_flushToolCalls]
  rcases state.openTextId with _ | id
  · rfl
  · rfl

theorem Ledgered.Inv.calls_before (h : ledgered.Inv) : toolCalls
    ((ledgered.mapped.close options).dropWhile fun part => part.toFinishReason.isNone) = [] := by
  have hbody : ∀ part ∈ ledgered.mapped.parts ++ (flush ledgered.mapped.state).1,
      part.toFinishReason.isNone := by
    intro part hpart
    rw [Option.isNone_iff_eq_none]
    rcases List.mem_append.mp hpart with hmem | hmem
    · exact List.filterMap_eq_nil_iff.mp h.finish part hmem
    · exact List.filterMap_eq_nil_iff.mp (toFinishReason_flush _) part hmem
  rw [Mapped.close, List.dropWhile_append_of_pos hbody]
  rfl

theorem Ledgered.Inv.toolCalls_ne_nil (h : ledgered.Inv)
    (hperm : (toolCalls (ledgered.mapped.close options)).Perm (ledgered.calls.map Call.toolCall))
    (hmem : finishReason ∈ (ledgered.mapped.close options).filterMap Part.toFinishReason)
    (heq : finishReason = .toolCalls) : toolCalls (ledgered.mapped.close options) ≠ [] := by
  rw [toolCalls_close] at hperm ⊢
  intro hnil
  obtain ⟨hsent, hflush⟩ := List.append_eq_nil_iff.mp hnil
  have hcalls : ledgered.calls = [] := by
    rw [hnil] at hperm
    exact List.map_eq_nil_iff.mp hperm.symm.eq_nil
  have hemitted : ledgered.mapped.state.emittedToolCalls = [] := by
    refine List.eq_nil_iff_forall_not_mem.mpr fun id hid => ?_
    have hid := (h.emitted id).mp hid
    rw [hsent] at hid
    cases hid
  have hstate : (flush ledgered.mapped.state).2 =
      { ledgered.mapped.state with openTextId := none, toolArgBuffer := [] } := by
    rw [toolCalls_flush] at hflush
    rw [flush, flushToolCalls_of_nil hflush]
  have hfinish : (finishPart options (flush ledgered.mapped.state).2).toFinishReason =
      some finishReason := by
    rw [Mapped.close, List.filterMap_append, List.filterMap_append, h.finish,
      toFinishReason_flush] at hmem
    exact (List.mem_singleton.mp hmem).symm ▸ rfl
  rw [heq] at hfinish
  rcases finishReasonOf_eq_toolCalls (finishPart_toolCalls hfinish)
    (by rw [hstate]; exact h.reason) with hfunction | hne
  · rw [hstate] at hfunction
    rcases h.function hfunction with hne | hne
    · exact hne hcalls
    · exact hne hemitted
  · rw [hstate] at hne
    exact hne hemitted

theorem Ledgered.mapped_run :
    (run Ledgered.step .init events).mapped = run Mapped.step .init events := by
  induction events using List.reverseRecOn with
  | nil => rfl
  | append_singleton events e ih =>
    rw [run_concat, run_concat, ← ih]
    rfl

theorem functionCalls_append (events' : List Event) :
    functionCalls (events ++ events') = functionCalls events ++ functionCalls events' :=
  List.filterMap_append

theorem functionCalls_cons_added (k : ℤ) (hitem : item.type = .functionCall) (events : List Event) :
    functionCalls (.outputItemAdded k item :: events) =
      (k, item.call_id) :: functionCalls events :=
  List.filterMap_cons_some (if_pos hitem)

theorem mem_functionCalls :
    ∀ call ∈ (run Ledgered.step .init events).calls,
      (call.index, some call.id) ∈ functionCalls events := by
  induction events using List.reverseRecOn with
  | nil => exact fun _ hcall => absurd hcall List.not_mem_nil
  | append_singleton events e ih =>
    intro call' hcall'
    rw [run_concat] at hcall'
    rw [functionCalls_append, List.mem_append]
    rcases mem_calls_step.mp hcall' with ⟨call, hcall, rfl⟩ | hadded
    · rw [Call.learn_index, Call.learn_id]
      exact Or.inl (ih call hcall)
    · obtain ⟨item, rfl, hitem, hid, -⟩ := mem_addedCall.mp hadded
      rw [functionCalls_cons_added _ hitem, hid]
      exact Or.inr List.mem_cons_self

theorem Distinct.meets {events : List Event} (h : Distinct events) :
    Meets Ledgered.step Fresh .init events := by
  refine Meets.iff_split.mpr fun before e after hsplit => ?_
  cases e with
  | outputItemAdded k item =>
    intro hitem
    have hcalls : functionCalls events =
        functionCalls before ++ (k, item.call_id) :: functionCalls after := by
      rw [hsplit, functionCalls_append, functionCalls_cons_added k hitem]
    obtain ⟨hnamed, hids, hindices⟩ := h
    rw [hcalls] at hnamed hids hindices
    rw [List.map_append, List.map_cons] at hids hindices
    obtain ⟨id, hid⟩ := Option.isSome_iff_exists.mp
      (hnamed (k, item.call_id) (List.mem_append_right _ List.mem_cons_self))
    refine ⟨id, hid, fun hmem => ?_, fun hmem => ?_⟩
    · obtain ⟨call, hcall, rfl⟩ := List.mem_map.mp hmem
      have hold := List.mem_map_of_mem (f := Prod.snd) (mem_functionCalls before call hcall)
      rw [hid] at hids
      exact (List.disjoint_of_nodup_append hids) hold List.mem_cons_self
    · obtain ⟨call, hcall, rfl⟩ := List.mem_map.mp hmem
      have hold := List.mem_map_of_mem (f := Prod.fst) (mem_functionCalls before call hcall)
      exact (List.disjoint_of_nodup_append hindices) hold List.mem_cons_self
  | _ => trivial

theorem Ledgered.Good.init : Ledgered.Good .init where
  once := List.nodup_nil
  known _ htool := absurd htool List.not_mem_nil
  held _ hcall := absurd hcall List.not_mem_nil

theorem dispatched_iff_good {past : List Event} (h : Meets Ledgered.step Fresh .init past) :
    Dispatched past (mapResponseStream options past) ↔ (run Ledgered.step .init past).Good := by
  have hinv : (run Ledgered.step .init past).Inv :=
    h.invariant Ledgered.Inv .init fun _ _ hinv hfresh => hinv.step hfresh
  have hgood : (toolCalls ((run Ledgered.step .init past).mapped.close options)).Perm
      ((run Ledgered.step .init past).calls.map Call.toolCall) ↔
        (run Ledgered.step .init past).Good := hinv.perm_iff
  rw [mapResponseStream, ← Ledgered.mapped_run, ← hgood]
  exact ⟨Dispatched.calls, fun hperm => ⟨hperm, hinv.calls_before, fun _ hmem heq _ =>
    hinv.toolCalls_ne_nil hperm hmem heq⟩⟩

end Close

/-- **Each call is handed on once wherever the stream is cut off, exactly if every call is added
with its arguments or with some of them in the buffer, the events that come for a call that was
handed on say nothing new of it, those that hand a call on know it, and no item of a call that was
not handed on is replaced.** -/
theorem dispatched_iff (options : MapResponseStreamOptions) (events : List Event)
    (h : Distinct events) :
    (∀ past, past <+: events → Dispatched past (mapResponseStream options past)) ↔
      Meets Ledgered.step Told .init events := by
  rw [← h.meets.throughout_iff_meets Ledgered.Inv Ledgered.Good .init .init
    (fun _ _ hinv hfresh => hinv.step hfresh)
    fun _ _ hinv hgood hfresh => hgood.told_iff hinv hfresh]
  exact forall₂_congr fun past hpast => dispatched_iff_good (h.meets.initial hpast)

/-- One call comes with its arguments, those of the other are streamed. -/
def twoCalls : List Event :=
  [.outputItemAdded 0 ⟨.functionCall, none, some (js "bash"), some (js "call_1"), some (js "[1]")⟩,
    .functionCallArgumentsDelta 1 none (js "[2"),
    .outputItemAdded 1 ⟨.functionCall, none, some (js "read"), some (js "call_2"), none⟩,
    .functionCallArgumentsDelta 1 none (js "]"),
    .functionCallArgumentsDone 1 none (some (js "[2]"))]

/-- They are handed on. -/
theorem dispatched_twoCalls : Dispatched twoCalls (mapResponseStream ⟨none, none⟩ twoCalls) := by
  refine (dispatched_iff _ twoCalls ⟨?_, ?_, ?_⟩).mpr
    ⟨Or.inl ?_, ?_, Or.inr ⟨?_, ?_⟩, ?_, ⟨?_, ?_⟩, trivial⟩ twoCalls (List.prefix_refl twoCalls)
  case refine_5 | refine_8 =>
    unfold Told
    decide
  all_goals decide

/-- A call that is cut off before any arguments came is not handed on, and the stream finishes as if
it were. -/
theorem not_dispatched : ¬∀ (options : MapResponseStreamOptions) (events : List Event),
    Distinct events → ∀ past, past <+: events →
      Dispatched past (mapResponseStream options past) := by
  intro h
  have hevents : Distinct [.outputItemAdded 0
      ⟨.functionCall, none, some (js "bash"), some (js "call_1"), none⟩] := by
    refine ⟨?_, ?_, ?_⟩
    all_goals decide
  have hperm := (h ⟨none, none⟩ _ hevents _ (List.prefix_refl _)).calls
  exact absurd hperm.length_eq (by decide)

end OpenCms.Codex
