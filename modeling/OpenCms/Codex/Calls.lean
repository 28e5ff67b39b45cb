import OpenCms.Codex.Sse

/-!
# The calls of a stream

What an event does to the function calls: which call it hands on, and what becomes of the items that
are tracked and of the arguments that are gathered.
-/

namespace OpenCms.Codex

open StreamState

structure ToolCall where
  id : JsString
  name : JsString
  input : JsString
  deriving DecidableEq

def Part.toToolCall : Part → Option ToolCall
  | .toolCall id name input _ => some ⟨id, name, input⟩
  | _ => none

def toolCalls (parts : List Part) : List ToolCall := parts.filterMap Part.toToolCall

def Part.toFinishReason : Part → Option FinishReason
  | .finish finishReason _ _ _ => some finishReason
  | _ => none

/-! ### What an event does to the calls -/

section Slices

variable {state : StreamState} {e : Event} {id name input : JsString} {itemId : Option JsString}
  {k : ℤ} {t : TrackedItem}

def handed (state : StreamState) : Event → Option ToolCall
  | .outputItemAdded _ item =>
    if item.type = .functionCall then
      (completeArguments item).map fun arguments =>
        ⟨state.addedId item, toolNameOf item.name, arguments⟩
    else none
  | .functionCallArgumentsDone output_index call_id arguments =>
    let id := state.callId output_index call_id
    if id ∈ state.emittedToolCalls then none
    else
      some ⟨id, toolNameOf ((state.trackedItem output_index).bind TrackedItem.name),
        (arguments.or (state.buffered output_index)).getD (js "{}")⟩
  | .outputItemDone item =>
    if item.type = .functionCall then
      ((truthy item.call_id).filter (· ∉ state.emittedToolCalls)).map fun id =>
        ⟨id, toolNameOf item.name, item.arguments.getD (js "{}")⟩
    else none
  | _ => none

theorem mem_handed_added {output_index : ℤ} {item : OutputItem} {call : ToolCall} :
    call ∈ handed state (.outputItemAdded output_index item) ↔ item.type = .functionCall ∧
      ∃ arguments, completeArguments item = some arguments ∧
        call = ⟨state.addedId item, toolNameOf item.name, arguments⟩ := by
  rw [handed]
  split
  next htype =>
    rw [Option.mem_def, Option.map_eq_some_iff, and_iff_right htype]
    constructor
    · rintro ⟨arguments, harguments, rfl⟩
      exact ⟨arguments, harguments, rfl⟩
    · rintro ⟨arguments, harguments, rfl⟩
      exact ⟨arguments, harguments, rfl⟩
  next htype => simp [htype]

theorem mem_handed_argumentsDone {output_index : ℤ} {call_id arguments : Option JsString}
    {call : ToolCall} :
    call ∈ handed state (.functionCallArgumentsDone output_index call_id arguments) ↔
      state.callId output_index call_id ∉ state.emittedToolCalls ∧
        call = ⟨state.callId output_index call_id,
          toolNameOf ((state.trackedItem output_index).bind TrackedItem.name),
          (arguments.or (state.buffered output_index)).getD (js "{}")⟩ := by
  rw [handed]
  split
  next h => simp [h]
  next h => simp [h, eq_comm]

theorem mem_handed_itemDone {item : OutputItem} {call : ToolCall} :
    call ∈ handed state (.outputItemDone item) ↔ item.type = .functionCall ∧
      item.call_id = some call.id ∧ call.id ≠ [] ∧ call.id ∉ state.emittedToolCalls ∧
        call.name = toolNameOf item.name ∧ call.input = item.arguments.getD (js "{}") := by
  rw [handed]
  split
  next h =>
    simp only [truthy, Option.mem_def, Option.map_eq_some_iff, Option.filter_eq_some_iff,
      decide_eq_true_eq, h, true_and]
    constructor
    · rintro ⟨id, ⟨⟨hid, hne⟩, hnew⟩, rfl⟩
      exact ⟨hid, hne, hnew, rfl, rfl⟩
    · rintro ⟨hid, hne, hnew, hname, hinput⟩
      exact ⟨call.id, ⟨⟨hid, hne⟩, hnew⟩, by rw [← hname, ← hinput]⟩
  next h => simp [h]

/-- What an event does to the calls, the items and the buffer. -/
structure CallMove (state next : StreamState) (e : Event) (parts : List Part) : Prop where
  calls : toolCalls parts = (handed state e).toList
  emitted : ∀ id, id ∈ next.emittedToolCalls ↔
    id ∈ state.emittedToolCalls ∨ ∃ call ∈ handed state e, call.id = id
  hasFunctionCall : next.hasFunctionCall → state.hasFunctionCall ∨ next.emittedToolCalls ≠ [] ∨
    ∃ output_index item, e = .outputItemAdded output_index item ∧ item.type = .functionCall
  reason : next.finishReason = some .toolCalls → state.finishReason = some .toolCalls
  finish : parts.filterMap Part.toFinishReason = []

/-- A call is handed on once. -/
structure Emitted (state : StreamState) (id name input : JsString)
    (mapped : List Part × StreamState) : Prop where
  calls : toolCalls mapped.1 = if id ∈ state.emittedToolCalls then [] else [⟨id, name, input⟩]
  emitted : ∀ id', id' ∈ mapped.2.emittedToolCalls ↔ id' ∈ state.emittedToolCalls ∨ id' = id
  outputItems : mapped.2.outputItems = state.outputItems
  toolArgBuffer : mapped.2.toolArgBuffer = state.toolArgBuffer
  reason : mapped.2.finishReason = state.finishReason
  finish : mapped.1.filterMap Part.toFinishReason = []
  ne_nil : mapped.2.emittedToolCalls ≠ []

theorem emitToolCall_emitted :
    Emitted state id name input (state.emitToolCall id name input itemId) := by
  rw [emitToolCall]
  split
  next h =>
    refine ⟨(if_pos h).symm, fun id' => ⟨Or.inl, ?_⟩, rfl, rfl, rfl, rfl, List.ne_nil_of_mem h⟩
    rintro (h' | rfl)
    · exact h'
    · exact h
  next h =>
    refine ⟨(if_neg h).symm, fun id' => ?_, rfl, rfl, rfl, rfl, by simp⟩
    rw [List.mem_append, List.mem_singleton]

theorem CallMove.of_none {next : StreamState} {parts : List Part} (hcalls : toolCalls parts = [])
    (hhanded : handed state e = none) (hemitted : next.emittedToolCalls = state.emittedToolCalls)
    (hfunction : next.hasFunctionCall = state.hasFunctionCall)
    (hreason : next.finishReason = some .toolCalls → state.finishReason = some .toolCalls)
    (hfinish : parts.filterMap Part.toFinishReason = []) : CallMove state next e parts := by
  refine ⟨?_, fun id => ?_, fun h => Or.inl ?_, hreason, hfinish⟩
  · rw [hcalls, hhanded]
    rfl
  · rw [hemitted, hhanded]
    simp
  · rw [← hfunction]
    exact h

theorem mapFinishReason_ne_toolCalls {status : Option JsString} :
    mapFinishReason status ≠ .toolCalls := by
  rw [mapFinishReason]
  split_ifs
  all_goals rintro ⟨⟩

theorem callMove (state : StreamState) (e : Event) :
    CallMove state (mapEvent state e).2 e (mapEvent state e).1 := by
  cases e with
  | outputItemAdded output_index item =>
    rw [mapEvent]
    split
    next htype =>
      refine .of_none rfl ?_ rfl rfl id rfl
      rw [handed, htype]
      rfl
    next htype =>
      have hid : (state.track (trackedOf output_index item)).addedId item = state.addedId item := rfl
      have hfunction : ∃ index item', Event.outputItemAdded output_index item =
          .outputItemAdded index item' ∧ item'.type = .functionCall := ⟨_, _, rfl, htype⟩
      rw [addFunctionCall, hid]
      rcases hcomplete : completeArguments item with _ | arguments
      · have hhanded : handed state (.outputItemAdded output_index item) = none := by
          rw [handed, if_pos htype, hcomplete]
          rfl
        refine ⟨?_, fun id => ?_, fun _ => Or.inr (Or.inr hfunction), id, rfl⟩
        · rw [hhanded]
          rfl
        · rw [hhanded]
          simp [track]
      · have hhanded : handed state (.outputItemAdded output_index item) =
            some ⟨state.addedId item, toolNameOf item.name, arguments⟩ := by
          rw [handed, if_pos htype, hcomplete]
          rfl
        refine ⟨?_, fun id => ?_, fun _ => Or.inr (Or.inr hfunction), id, rfl⟩
        · rw [hhanded]
          rfl
        · rw [hhanded]
          simp [track, eq_comm]
    next hmessage hcall => exact .of_none rfl (if_neg hcall) rfl rfl id rfl
  | outputTextDelta delta =>
    rcases hopen : state.openTextId with _ | t
    · rw [mapEvent_outputTextDelta_none hopen]
      exact .of_none rfl rfl rfl rfl id rfl
    · rw [mapEvent_outputTextDelta_some hopen]
      exact .of_none rfl rfl rfl rfl id rfl
  | outputTextDone =>
    rcases hopen : state.openTextId with _ | t
    · rw [mapEvent_outputTextDone_none hopen]
      exact .of_none rfl rfl rfl rfl id rfl
    · rw [mapEvent_outputTextDone_some hopen]
      exact .of_none rfl rfl rfl rfl id rfl
  | functionCallArgumentsDone output_index call_id arguments =>
    refine ⟨emitToolCall_emitted.calls.trans ?_, fun id => (emitToolCall_emitted.emitted id).trans ?_,
      fun _ => Or.inr (Or.inl emitToolCall_emitted.ne_nil), emitToolCall_emitted.reason.symm.trans,
      emitToolCall_emitted.finish⟩
    · rw [handed]
      split
      next => rfl
      next => rfl
    · rw [handed]
      split
      next h =>
        constructor
        · rintro (hid | rfl)
          · exact Or.inl hid
          · exact Or.inl h
        · rintro (hid | ⟨_, ⟨⟩, -⟩)
          exact Or.inl hid
      next =>
        simp [eq_comm]
  | reasoningSummaryTextDelta delta | reasoningSummaryTextDone =>
    rw [mapEvent]
    split
    next => exact .of_none rfl rfl rfl rfl id rfl
    next => exact .of_none rfl rfl rfl rfl id rfl
  | outputItemDone item =>
    rw [mapEvent]
    split
    next id htype hid =>
      rw [doneFunctionCall]
      split
      next hemitted =>
        have hhanded : handed state (.outputItemDone item) = none := by
          rw [handed, if_pos htype, hid, Option.filter_some_neg (by simpa using hemitted)]
          rfl
        refine ⟨?_, fun id => ?_, fun _ => Or.inr (Or.inl (List.ne_nil_of_mem hemitted)),
          fun h => h, rfl⟩
        · rw [hhanded]
          rfl
        · rw [hhanded]
          simp
      next hnew =>
        have hhanded : handed state (.outputItemDone item) =
            some ⟨id, toolNameOf item.name, item.arguments.getD (js "{}")⟩ := by
          rw [handed, if_pos htype, hid, Option.filter_some_pos (by simpa using hnew)]
          rfl
        refine ⟨?_, fun id' => (emitToolCall_emitted.emitted id').trans ?_,
          fun _ => Or.inr (Or.inl emitToolCall_emitted.ne_nil),
          emitToolCall_emitted.reason.symm.trans, emitToolCall_emitted.finish⟩
        · rw [hhanded]
          exact emitToolCall_emitted.calls.trans (if_neg hnew)
        · rw [hhanded]
          simp [eq_comm]
    next h =>
      refine .of_none rfl ?_ rfl rfl id rfl
      rw [handed]
      split
      next htype =>
        rcases hid : truthy item.call_id with _ | id
        · rfl
        · exact absurd hid (h id htype)
      next => rfl
  | incomplete response =>
    refine .of_none rfl rfl rfl rfl (fun h => ?_) rfl
    rw [mapEvent, seeEnd, Option.some.injEq] at h
    split at h
    · cases h
    · cases h
  | completed response =>
    refine .of_none rfl rfl rfl rfl (fun h => ?_) rfl
    exact absurd (Option.some.inj h) mapFinishReason_ne_toolCalls
  | failed response => exact .of_none rfl rfl rfl rfl (by rintro ⟨⟩) rfl
  | error message => exact .of_none rfl rfl rfl rfl (by rintro ⟨⟩) rfl
  | _ => exact .of_none rfl rfl rfl rfl id rfl

theorem toolArgBuffer_mapEvent : (mapEvent state e).2.toolArgBuffer =
    match e with
    | .functionCallArgumentsDelta output_index _ delta =>
      Table.upsert Buffered.index
        ⟨output_index, (state.buffered output_index).getD [] ++ delta⟩ state.toolArgBuffer
    | .functionCallArgumentsDone output_index _ _ =>
      Table.erase Buffered.index output_index state.toolArgBuffer
    | _ => state.toolArgBuffer := by
  cases e with
  | outputItemAdded output_index item =>
    rw [mapEvent]
    split
    next => rfl
    next =>
      rw [addFunctionCall]
      rcases completeArguments item with _ | arguments
      · rfl
      · rfl
    next => rfl
  | outputTextDelta delta =>
    rcases hopen : state.openTextId with _ | t
    · rw [mapEvent_outputTextDelta_none hopen]
    · rw [mapEvent_outputTextDelta_some hopen]
  | outputTextDone =>
    rcases hopen : state.openTextId with _ | t
    · rw [mapEvent_outputTextDone_none hopen]
    · rw [mapEvent_outputTextDone_some hopen]
  | reasoningSummaryTextDelta delta | reasoningSummaryTextDone =>
    rw [mapEvent]
    split
    next => rfl
    next => rfl
  | outputItemDone item =>
    rw [mapEvent]
    split
    next id _ _ =>
      rw [doneFunctionCall]
      split
      next => rfl
      next => exact emitToolCall_emitted.toolArgBuffer
    next => rfl
  | _ => rfl

theorem buffered_mapEvent : (mapEvent state e).2.buffered k =
    match e with
    | .functionCallArgumentsDelta output_index _ delta =>
      if k = output_index then some ((state.buffered output_index).getD [] ++ delta)
      else state.buffered k
    | .functionCallArgumentsDone output_index _ _ =>
      if k = output_index then none else state.buffered k
    | _ => state.buffered k := by
  rw [buffered, toolArgBuffer_mapEvent]
  cases e with
  | functionCallArgumentsDelta output_index call_id delta =>
    simp only [Table.lookup_upsert, apply_ite (Option.map Buffered.text), Option.map_some]
    rfl
  | functionCallArgumentsDone output_index call_id arguments =>
    simp only [Table.lookup_erase, apply_ite (Option.map Buffered.text), Option.map_none]
    rfl
  | _ => rfl

theorem nodup_toolArgBuffer_mapEvent (h : (state.toolArgBuffer.map Buffered.index).Nodup) :
    ((mapEvent state e).2.toolArgBuffer.map Buffered.index).Nodup := by
  rw [toolArgBuffer_mapEvent]
  split
  next => exact Table.nodup_upsert h
  next => exact Table.nodup_erase h
  next => exact h

theorem trackedItem_mapEvent : (mapEvent state e).2.trackedItem k =
    match e with
    | .outputItemAdded output_index item =>
      if k = output_index then some (trackedOf output_index item) else state.trackedItem k
    | .reasoningSummaryTextDelta _ =>
      if k = state.reasoningKey ∧ state.trackedItem k = none then
        some ⟨k, .reasoning, reasoningId state.reasoningIdCounter, none, none⟩
      else state.trackedItem k
    | .reasoningSummaryTextDone =>
      if k = state.reasoningKey then none else state.trackedItem k
    | _ => state.trackedItem k := by
  have hsame : ∀ next : StreamState, next.outputItems = state.outputItems →
      next.trackedItem k = state.trackedItem k := by
    intro next heq
    rw [trackedItem, heq, trackedItem]
  cases e with
  | outputItemAdded output_index item =>
    have htrack : (state.track (trackedOf output_index item)).trackedItem k =
        if k = output_index then some (trackedOf output_index item) else state.trackedItem k :=
      Table.lookup_upsert
    rw [mapEvent]
    split
    next => exact htrack
    next =>
      rw [addFunctionCall]
      rcases completeArguments item with _ | arguments
      · exact htrack
      · exact htrack
    next => exact htrack
  | outputTextDelta delta =>
    rcases hopen : state.openTextId with _ | t
    · rw [mapEvent_outputTextDelta_none hopen]
      rfl
    · rw [mapEvent_outputTextDelta_some hopen]
      rfl
  | outputTextDone =>
    rcases hopen : state.openTextId with _ | t
    · rw [mapEvent_outputTextDone_none hopen]
    · rw [mapEvent_outputTextDone_some hopen]
      rfl
  | functionCallArgumentsDone output_index call_id arguments =>
    exact hsame _ emitToolCall_emitted.outputItems
  | reasoningSummaryTextDelta delta =>
    rw [mapEvent]
    split
    next hsome =>
      rw [if_neg]
      rintro ⟨rfl, hnone⟩
      rw [hnone] at hsome
      cases hsome
    next hnone =>
      rw [trackedItem, track, Table.lookup_upsert]
      by_cases hk : k = state.reasoningKey
      · rw [if_pos hk, if_pos ⟨hk, hk ▸ Option.not_isSome_iff_eq_none.mp hnone⟩, hk]
      · rw [if_neg hk, if_neg fun h => hk h.1, trackedItem]
  | reasoningSummaryTextDone =>
    rw [mapEvent]
    split
    next =>
      rw [trackedItem, Table.lookup_erase, trackedItem]
    next hnone =>
      refine (hsame _ rfl).trans ?_
      by_cases hk : k = state.reasoningKey
      · rw [hk]
        exact (Option.not_isSome_iff_eq_none.mp hnone).trans (if_pos rfl).symm
      · exact (if_neg hk).symm
  | outputItemDone item =>
    rw [mapEvent]
    split
    next id _ _ =>
      rw [doneFunctionCall]
      split
      next => rfl
      next => exact hsame _ emitToolCall_emitted.outputItems
    next => rfl
  | _ => rfl

theorem trackedItem_of_mapEvent (h : (mapEvent state e).2.trackedItem k = some t)
    (htype : t.type = .functionCall) : state.trackedItem k = some t ∨
      ∃ item, e = .outputItemAdded k item ∧ item.type = .functionCall ∧ t = trackedOf k item := by
  rw [trackedItem_mapEvent] at h
  split at h
  next output_index item =>
    split at h
    next hk =>
      obtain rfl := Option.some.inj h
      exact Or.inr ⟨item, by rw [hk], htype, by rw [hk]⟩
    next => exact Or.inl h
  next =>
    split at h
    next =>
      obtain rfl := Option.some.inj h
      cases htype
    next => exact Or.inl h
  next =>
    split at h
    next => cases h
    next => exact Or.inl h
  next => exact Or.inl h

end Slices

end OpenCms.Codex
