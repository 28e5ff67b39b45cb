import OpenCms.Codex.Sse
import OpenCms.Lib.Brackets
import Mathlib.Data.Finset.Option

/-!
# Parts in brackets

A reader of the parts keeps what is open by its name, and gives up when a part names something that
is not. The parts of a stream are in order exactly if the events are: a text is not added while one
is open, a function call not under a name that is, arguments come for a call that is open, and when
the events end no reasoning is open and no call that the buffer does not hold
(`OpenCms.Codex.bracketed_iff`).

The three kinds of brackets do not touch each other. For each there is one lemma that says what an
event does to it.
-/

namespace OpenCms.Codex

open StreamState

/-! ### Marks -/

def Part.textMark : Part → Option (Mark JsString)
  | .textStart id => some (.start id)
  | .textDelta id _ => some (.touch id)
  | .textEnd id => some (.stop id)
  | _ => none

def Part.reasoningMark : Part → Option (Mark JsString)
  | .reasoningStart id => some (.start id)
  | .reasoningDelta id _ => some (.touch id)
  | .reasoningEnd id => some (.stop id)
  | _ => none

def Part.toolMark : Part → Option (Mark JsString)
  | .toolInputStart id _ => some (.start id)
  | .toolInputDelta id _ => some (.touch id)
  | .toolInputEnd id => some (.stop id)
  | _ => none

def Part.isFinish : Part → Bool
  | .finish _ _ _ _ => true
  | _ => false

/-- Every delta and every end is for what is open, what is started is ended once and not started
while it is open, and one part finishes the stream, the last one. -/
structure WellBracketed (parts : List Part) : Prop where
  text : Balanced (parts.filterMap Part.textMark)
  reasoning : Balanced (parts.filterMap Part.reasoningMark)
  toolInput : Balanced (parts.filterMap Part.toolMark)
  finish : ∃ body last, parts = body ++ [last] ∧ last.isFinish ∧
    ∀ part ∈ body, part.isFinish = false

/-! ### Events in order -/

/-- A stream, with the calls whose input was started and not ended, and whether a reasoning was. -/
structure Traced where
  mapped : Mapped
  tools : Finset JsString
  reasoning : Bool

def Traced.init : Traced := ⟨.init, ∅, false⟩

def openTools (state : StreamState) (tools : Finset JsString) : Event → Finset JsString
  | .outputItemAdded _ item =>
    if item.type = .functionCall ∧ completeArguments item = none then
      insert (state.addedId item) tools
    else tools
  | .functionCallArgumentsDone output_index call_id _ =>
    tools.erase (state.callId output_index call_id)
  | .outputItemDone item =>
    if item.type = .functionCall then
      ((truthy item.call_id).filter (· ∉ state.emittedToolCalls)).elim tools tools.erase
    else tools
  | _ => tools

def openReasoning (reasoning : Bool) : Event → Bool
  | .reasoningSummaryTextDelta _ => true
  | .reasoningSummaryTextDone => false
  | _ => reasoning

def Traced.step (traced : Traced) (event : Event) : Traced where
  mapped := traced.mapped.step event
  tools := openTools traced.mapped.state traced.tools event
  reasoning := openReasoning traced.reasoning event

def TextOrdered (state : StreamState) : Event → Prop
  | .outputItemAdded _ item => item.type = .message → state.openTextId = none
  | _ => True

def ReasoningOrdered (state : StreamState) (reasoning : Bool) : Event → Prop
  | .reasoningSummaryTextDelta _ | .reasoningSummaryTextDone =>
    (state.trackedItem state.reasoningKey).isSome → reasoning
  | _ => True

/-- A call is added under a name that is not open, and arguments come for one that is. -/
def ToolOrdered (state : StreamState) (tools : Finset JsString) : Event → Prop
  | .outputItemAdded _ item => item.type = .functionCall → state.addedId item ∉ tools
  | .functionCallArgumentsDelta output_index call_id _
  | .functionCallArgumentsDone output_index call_id _ => state.callId output_index call_id ∈ tools
  | .outputItemDone item => item.type = .functionCall → ∀ id ∈ truthy item.call_id,
      id ∉ state.emittedToolCalls → id ∈ tools
  | _ => True

structure Ordered (traced : Traced) (event : Event) : Prop where
  text : TextOrdered traced.mapped.state event
  reasoning : ReasoningOrdered traced.mapped.state traced.reasoning event
  tool : ToolOrdered traced.mapped.state traced.tools event

/-- What must be so in the end: no reasoning is open, and the open calls are those that the buffer
holds. -/
structure Traced.Settled (traced : Traced) : Prop where
  reasoning : traced.reasoning = false
  tools : ∀ id, id ∈ traced.tools ↔
    ∃ entry ∈ traced.mapped.state.toolArgBuffer, ∃ tracked,
      danglingCall traced.mapped.state entry = some (id, tracked)

/-! ### What calls do not touch -/

section Frame

variable {state : StreamState} {item : OutputItem} {id name input : JsString}
  {itemId : Option JsString}

/-- Parts and a state, of which texts and reasonings know nothing. -/
structure Framed (state : StreamState) (mapped : List Part × StreamState) : Prop where
  openTextId : mapped.2.openTextId = state.openTextId
  textIdCounter : mapped.2.textIdCounter = state.textIdCounter
  outputItems : mapped.2.outputItems = state.outputItems
  reasoningIdCounter : mapped.2.reasoningIdCounter = state.reasoningIdCounter
  text : mapped.1.filterMap Part.textMark = []
  reasoning : mapped.1.filterMap Part.reasoningMark = []

theorem addFunctionCall_framed : Framed state (state.addFunctionCall item) := by
  rw [addFunctionCall]
  split
  next => exact ⟨rfl, rfl, rfl, rfl, rfl, rfl⟩
  next => exact ⟨rfl, rfl, rfl, rfl, rfl, rfl⟩

theorem emitToolCall_framed : Framed state (state.emitToolCall id name input itemId) := by
  rw [emitToolCall]
  split
  next => exact ⟨rfl, rfl, rfl, rfl, rfl, rfl⟩
  next => exact ⟨rfl, rfl, rfl, rfl, rfl, rfl⟩

theorem doneFunctionCall_framed : Framed state (state.doneFunctionCall id item) := by
  rw [doneFunctionCall]
  split
  next => exact ⟨rfl, rfl, rfl, rfl, rfl, rfl⟩
  next h =>
    rw [emitToolCall, if_neg h]
    exact ⟨rfl, rfl, rfl, rfl, rfl, rfl⟩

theorem toolMark_emitToolCall :
    (state.emitToolCall id name input itemId).1.filterMap Part.toolMark = [] := by
  rw [emitToolCall]
  split
  next => rfl
  next => rfl

end Frame

/-! ### Texts -/

section Text

variable {state next : StreamState} {e : Event} {o : Finset JsString} {ms : List (Mark JsString)}

theorem textId_injective : Function.Injective textId := by
  intro n m h
  have hdecimal : JsString.decimal n = JsString.decimal m := List.append_cancel_left h
  rw [← JsString.number_decimal n, hdecimal, JsString.number_decimal]

inductive TextMove (state next : StreamState) (e : Event) : List (Mark JsString) → Prop
  | same (hopen : next.openTextId = state.openTextId)
      (hcounter : next.textIdCounter = state.textIdCounter) (hordered : TextOrdered state e) :
      TextMove state next e []
  | starts (used : List (Mark JsString))
      (hused : ∀ m ∈ used, m = Mark.touch (textId state.textIdCounter))
      (hopen : next.openTextId = some (textId state.textIdCounter))
      (hcounter : next.textIdCounter = state.textIdCounter + 1)
      (hordered : TextOrdered state e ↔ state.openTextId = none) :
      TextMove state next e (.start (textId state.textIdCounter) :: used)
  | goesOn (id : JsString) (hid : state.openTextId = some id) (hopen : next.openTextId = some id)
      (hcounter : next.textIdCounter = state.textIdCounter) (hordered : TextOrdered state e) :
      TextMove state next e [.touch id]
  | ends (id : JsString) (hid : state.openTextId = some id) (hopen : next.openTextId = none)
      (hcounter : next.textIdCounter = state.textIdCounter) (hordered : TextOrdered state e) :
      TextMove state next e [.stop id]

theorem textMove (state : StreamState) (e : Event) :
    TextMove state (mapEvent state e).2 e ((mapEvent state e).1.filterMap Part.textMark) := by
  cases e with
  | outputItemAdded output_index item =>
    rw [mapEvent]
    split
    next htype =>
      refine .starts [] (fun m hm => absurd hm List.not_mem_nil) rfl rfl ?_
      exact ⟨fun h => h htype, fun h _ => h⟩
    next htype =>
      rw [addFunctionCall_framed.text]
      refine .same addFunctionCall_framed.openTextId addFunctionCall_framed.textIdCounter
        fun hmessage => ?_
      rw [hmessage] at htype
      cases htype
    next hmessage _ => exact .same rfl rfl fun h => absurd h hmessage
  | outputTextDelta delta =>
    rcases hopen : state.openTextId with _ | id
    · rw [mapEvent_outputTextDelta_none hopen]
      refine .starts [.touch (textId state.textIdCounter)] ?_ rfl rfl ?_
      · rintro m hm
        exact List.mem_singleton.mp hm
      · exact iff_of_true trivial hopen
    · rw [mapEvent_outputTextDelta_some hopen]
      exact .goesOn id hopen hopen rfl trivial
  | outputTextDone =>
    rcases hopen : state.openTextId with _ | id
    · rw [mapEvent_outputTextDone_none hopen]
      exact .same rfl rfl trivial
    · rw [mapEvent_outputTextDone_some hopen]
      exact .ends id hopen rfl rfl trivial
  | functionCallArgumentsDone output_index call_id arguments =>
    rw [mapEvent, List.filterMap_cons_none rfl, emitToolCall_framed.text]
    exact .same emitToolCall_framed.openTextId emitToolCall_framed.textIdCounter trivial
  | reasoningSummaryTextDelta delta | reasoningSummaryTextDone =>
    rw [mapEvent]
    split
    next => exact .same rfl rfl trivial
    next => exact .same rfl rfl trivial
  | outputItemDone item =>
    rw [mapEvent]
    split
    next =>
      rw [doneFunctionCall_framed.text]
      exact .same doneFunctionCall_framed.openTextId doneFunctionCall_framed.textIdCounter trivial
    next => exact .same rfl rfl trivial
  | _ => exact .same rfl rfl trivial

/-- The open text is open, and what is open had a number. -/
structure TextInv (state : StreamState) (o : Finset JsString) : Prop where
  there : ∀ id ∈ state.openTextId, id ∈ o
  numbered : ∀ id ∈ o, ∃ n < state.textIdCounter, id = textId n

theorem TextInv.fresh (h : TextInv state o) : textId state.textIdCounter ∉ o := by
  intro hmem
  obtain ⟨n, hn, heq⟩ := h.numbered _ hmem
  exact Nat.ne_of_gt hn (textId_injective heq)

/-- **What an event does to the texts**: it keeps one slot for all that is open exactly if it is in
order. -/
theorem TextInv.move (h : TextInv state o) (hmove : TextMove state next e ms) :
    (∀ o', opened o ms = some o' → TextInv next o') ∧
      (opened o ms = some next.openTextId.toFinset ↔
        o = state.openTextId.toFinset ∧ TextOrdered state e) := by
  cases hmove with
  | same hopen hcounter hordered =>
    refine ⟨?_, ?_⟩
    · rintro o' ⟨⟩
      refine ⟨?_, ?_⟩
      · rw [hopen]
        exact h.there
      · rw [hcounter]
        exact h.numbered
    · rw [hopen, opened_nil, Option.some.injEq, and_iff_left hordered]
  | starts used hused hopen hcounter hordered =>
    have hstart : opened o (.start (textId state.textIdCounter) :: used) =
        some (insert (textId state.textIdCounter) o) := by
      rw [opened_start h.fresh, opened_touches (Finset.mem_insert_self _ _) hused]
    rw [hstart]
    refine ⟨?_, ?_⟩
    · rintro o' ⟨⟩
      refine ⟨fun id hid => ?_, fun id hid => ?_⟩
      · rw [hopen] at hid
        rw [← Option.some.inj hid]
        exact Finset.mem_insert_self _ _
      · rw [hcounter]
        rcases Finset.mem_insert.mp hid with rfl | hid
        · exact ⟨state.textIdCounter, Nat.lt_succ_self _, rfl⟩
        · obtain ⟨n, hn, heq⟩ := h.numbered id hid
          exact ⟨n, Nat.lt_succ_of_lt hn, heq⟩
    · rw [hopen, hordered, Option.some.injEq]
      constructor
      · intro heq
        -- the text that was open would still be
        have hempty : o = ∅ := by
          refine Finset.eq_empty_of_forall_notMem fun id hid => ?_
          have hsame : id ∈ insert (textId state.textIdCounter) o := Finset.mem_insert_of_mem hid
          rw [heq, Option.mem_toFinset, Option.mem_some_iff] at hsame
          rw [← hsame] at hid
          exact h.fresh hid
        have hnone : state.openTextId = none := by
          rcases hid : state.openTextId with _ | id
          · rfl
          · have hmem := h.there id hid
            rw [hempty] at hmem
            cases hmem
        rw [hnone, hempty]
        exact ⟨rfl, rfl⟩
      · rintro ⟨heq, hnone⟩
        rw [heq, hnone]
        rfl
  | goesOn id hid hopen hcounter hordered =>
    rw [opened_touch (h.there id hid)]
    refine ⟨?_, ?_⟩
    · rintro o' ⟨⟩
      refine ⟨?_, ?_⟩
      · rw [hopen, ← hid]
        exact h.there
      · rw [hcounter]
        exact h.numbered
    · rw [hopen, ← hid, opened_nil, Option.some.injEq, and_iff_left hordered]
  | ends id hid hopen hcounter hordered =>
    rw [opened_stop (h.there id hid), opened_nil]
    refine ⟨?_, ?_⟩
    · rintro o' ⟨⟩
      refine ⟨?_, ?_⟩
      · rw [hopen]
        rintro id' ⟨⟩
      · rw [hcounter]
        exact fun id' hid' => h.numbered id' (Finset.mem_of_mem_erase hid')
    · rw [hopen, hid, and_iff_left hordered, Option.some.injEq, Option.toFinset_none,
        Option.toFinset_some, Finset.erase_eq_empty_iff]
      constructor
      · rintro (hempty | heq)
        · have hmem := h.there id hid
          rw [hempty] at hmem
          cases hmem
        · exact heq
      · exact Or.inr

end Text

/-! ### Reasonings -/

section Reasoning

variable {state : StreamState} {e : Event} {reasoning : Bool}

theorem isSome_trackedItem_track {item : TrackedItem} {k : ℤ}
    (h : k = item.index ∨ (state.trackedItem k).isSome) :
    ((state.track item).trackedItem k).isSome := by
  rw [trackedItem, track, Table.lookup_upsert]
  split
  next => rfl
  next hk => exact h.resolve_left hk

def Event.isReasoning : Event → Bool
  | .reasoningSummaryTextDelta _ | .reasoningSummaryTextDone => true
  | _ => false

theorem reasoning_same (he : e.isReasoning = false) :
    (mapEvent state e).1.filterMap Part.reasoningMark = [] ∧
      (mapEvent state e).2.reasoningIdCounter = state.reasoningIdCounter ∧
      ∀ k, (state.trackedItem k).isSome → ((mapEvent state e).2.trackedItem k).isSome := by
  have hitems : ∀ next : StreamState, next.outputItems = state.outputItems →
      ∀ k, (state.trackedItem k).isSome → (next.trackedItem k).isSome := by
    intro next heq k hk
    rw [trackedItem, heq]
    exact hk
  cases e with
  | outputItemAdded output_index item =>
    have htrack : ∀ k, (state.trackedItem k).isSome →
        ((state.track (trackedOf output_index item)).trackedItem k).isSome :=
      fun k hk => isSome_trackedItem_track (Or.inr hk)
    rw [mapEvent]
    split
    next => exact ⟨rfl, rfl, htrack⟩
    next =>
      refine ⟨addFunctionCall_framed.reasoning, addFunctionCall_framed.reasoningIdCounter,
        fun k hk => ?_⟩
      rw [trackedItem, addFunctionCall_framed.outputItems]
      exact htrack k hk
    next => exact ⟨rfl, rfl, htrack⟩
  | outputTextDelta delta =>
    rcases hopen : state.openTextId with _ | t
    · rw [mapEvent_outputTextDelta_none hopen]
      exact ⟨rfl, rfl, fun _ => id⟩
    · rw [mapEvent_outputTextDelta_some hopen]
      exact ⟨rfl, rfl, fun _ => id⟩
  | outputTextDone =>
    rcases hopen : state.openTextId with _ | t
    · rw [mapEvent_outputTextDone_none hopen]
      exact ⟨rfl, rfl, fun _ => id⟩
    · rw [mapEvent_outputTextDone_some hopen]
      exact ⟨rfl, rfl, fun _ => id⟩
  | functionCallArgumentsDone output_index call_id arguments =>
    rw [mapEvent, List.filterMap_cons_none rfl, emitToolCall_framed.reasoning]
    exact ⟨rfl, emitToolCall_framed.reasoningIdCounter, hitems _ emitToolCall_framed.outputItems⟩
  | reasoningSummaryTextDelta delta => cases he
  | reasoningSummaryTextDone => cases he
  | outputItemDone item =>
    rw [mapEvent]
    split
    next =>
      exact ⟨doneFunctionCall_framed.reasoning, doneFunctionCall_framed.reasoningIdCounter,
        hitems _ doneFunctionCall_framed.outputItems⟩
    next => exact ⟨rfl, rfl, fun _ => id⟩
  | _ => exact ⟨rfl, rfl, fun _ => id⟩

def openReasonings (state : StreamState) (reasoning : Bool) : Finset JsString :=
  if reasoning then {reasoningId state.reasoningIdCounter} else ∅

def KeyTaken (state : StreamState) (reasoning : Bool) : Prop :=
  reasoning → (state.trackedItem state.reasoningKey).isSome

theorem ordered_of_isReasoning_eq_false (he : e.isReasoning = false) :
    openReasoning reasoning e = reasoning ∧ ReasoningOrdered state reasoning e := by
  cases e with
  | reasoningSummaryTextDelta delta => cases he
  | reasoningSummaryTextDone => cases he
  | _ => exact ⟨rfl, trivial⟩

theorem KeyTaken.move (h : KeyTaken state reasoning) :
    KeyTaken (mapEvent state e).2 (openReasoning reasoning e) ∧
      (ReasoningOrdered state reasoning e →
        opened (openReasonings state reasoning) ((mapEvent state e).1.filterMap Part.reasoningMark) =
          some (openReasonings (mapEvent state e).2 (openReasoning reasoning e))) ∧
      (¬ ReasoningOrdered state reasoning e →
        opened (openReasonings state reasoning)
          ((mapEvent state e).1.filterMap Part.reasoningMark) = none) := by
  rcases Bool.eq_false_or_eq_true e.isReasoning with he | he
  swap
  · obtain ⟨hms, hcounter, hkeys⟩ := reasoning_same he
    obtain ⟨hopen, hordered⟩ := @ordered_of_isReasoning_eq_false state e reasoning he
    have hkey : (mapEvent state e).2.reasoningKey = state.reasoningKey := by
      rw [reasoningKey, hcounter, reasoningKey]
    rw [hms, hopen]
    refine ⟨fun hreasoning => ?_, fun _ => ?_, absurd hordered⟩
    · rw [hkey]
      exact hkeys _ (h hreasoning)
    · rw [opened_nil, openReasonings, openReasonings, hcounter]
  cases e with
  | reasoningSummaryTextDelta delta =>
    rw [mapEvent, ReasoningOrdered]
    split
    next hkey =>
      refine ⟨fun _ => hkey, fun hordered => ?_, fun hordered => ?_⟩
      · rw [hordered hkey]
        exact opened_touch (Finset.mem_singleton_self _)
      · have hreasoning : reasoning = false :=
          Bool.eq_false_iff.mpr fun htrue => hordered fun _ => htrue
        rw [hreasoning]
        exact opened_touch_of_notMem (Finset.notMem_empty _)
    next hkey =>
      have hreasoning : reasoning = false := Bool.eq_false_iff.mpr fun htrue => hkey (h htrue)
      refine ⟨fun _ => ?_, fun _ => ?_, fun hordered => ?_⟩
      · exact isSome_trackedItem_track (Or.inl rfl)
      · rw [hreasoning]
        exact (opened_start (Finset.notMem_empty _)).trans (opened_touch (Finset.mem_insert_self _ _))
      · exact absurd (fun htaken => absurd htaken hkey) hordered
  | reasoningSummaryTextDone =>
    rw [mapEvent, ReasoningOrdered]
    split
    next hkey =>
      refine ⟨fun hreasoning => absurd hreasoning Bool.false_ne_true, fun hordered => ?_,
        fun hordered => ?_⟩
      · rw [hordered hkey]
        refine (opened_stop (Finset.mem_singleton_self _)).trans ?_
        rw [Finset.erase_singleton]
        rfl
      · have hreasoning : reasoning = false :=
          Bool.eq_false_iff.mpr fun htrue => hordered fun _ => htrue
        rw [hreasoning]
        exact opened_stop_of_notMem (Finset.notMem_empty _)
    next hkey =>
      have hreasoning : reasoning = false := Bool.eq_false_iff.mpr fun htrue => hkey (h htrue)
      refine ⟨fun hreasoning => absurd hreasoning Bool.false_ne_true, fun _ => ?_,
        fun hordered => absurd (fun htaken => absurd htaken hkey) hordered⟩
      rw [hreasoning]
      rfl
  | _ => cases he

end Reasoning

/-! ### Tool inputs -/

section Tool

variable {state : StreamState} {e : Event} {tools : Finset JsString}

theorem toolMark_doneFunctionCall {id : JsString} {item : OutputItem} :
    (state.doneFunctionCall id item).1.filterMap Part.toolMark =
      if id ∈ state.emittedToolCalls then [] else [.stop id] := by
  rw [doneFunctionCall]
  split
  next => rfl
  next => exact congrArg (Mark.stop id :: ·) toolMark_emitToolCall

theorem tool_move (state : StreamState) (tools : Finset JsString) (e : Event) :
    (ToolOrdered state tools e →
      opened tools ((mapEvent state e).1.filterMap Part.toolMark) = some (openTools state tools e)) ∧
      (¬ ToolOrdered state tools e →
        opened tools ((mapEvent state e).1.filterMap Part.toolMark) = none) := by
  cases e with
  | outputItemAdded output_index item =>
    rw [mapEvent, ToolOrdered, openTools]
    split
    next htype =>
      rw [htype]
      exact ⟨fun _ => rfl, fun h => absurd (fun hcall => by cases hcall) h⟩
    next htype =>
      have hid : (state.track (trackedOf output_index item)).addedId item = state.addedId item :=
        rfl
      rw [addFunctionCall, hid]
      rcases hcomplete : completeArguments item with _ | arguments
      · have hnone : item.type = .functionCall ∧ (none : Option JsString) = none := ⟨htype, rfl⟩
        rw [if_pos hnone]
        refine ⟨fun h => opened_start (h htype), fun h => opened_start_of_mem ?_⟩
        exact not_not.mp fun hid => h fun _ => hid
      · have hsome : ¬ (item.type = .functionCall ∧ some arguments = none) := by
          rintro ⟨-, h⟩
          cases h
        rw [if_neg hsome]
        refine ⟨fun h => ?_, fun h => opened_start_of_mem ?_⟩
        · refine (opened_start (h htype)).trans ((opened_touch (Finset.mem_insert_self _ _)).trans
            ((opened_stop (Finset.mem_insert_self _ _)).trans ?_))
          rw [Finset.erase_insert (h htype)]
          rfl
        · exact not_not.mp fun hid => h fun _ => hid
    next hmessage hcall =>
      rw [if_neg fun h => hcall h.1]
      exact ⟨fun _ => rfl, fun h => absurd (fun htype => absurd htype hcall) h⟩
  | outputTextDelta delta =>
    refine ⟨fun _ => ?_, fun h => absurd trivial h⟩
    rcases hopen : state.openTextId with _ | t
    · rw [mapEvent_outputTextDelta_none hopen]
      rfl
    · rw [mapEvent_outputTextDelta_some hopen]
      rfl
  | outputTextDone =>
    refine ⟨fun _ => ?_, fun h => absurd trivial h⟩
    rcases hopen : state.openTextId with _ | t
    · rw [mapEvent_outputTextDone_none hopen]
      rfl
    · rw [mapEvent_outputTextDone_some hopen]
      rfl
  | functionCallArgumentsDelta output_index call_id delta =>
    exact ⟨fun h => opened_touch h, fun h => opened_touch_of_notMem h⟩
  | functionCallArgumentsDone output_index call_id arguments =>
    have hmarks : (mapEvent state (.functionCallArgumentsDone output_index call_id
        arguments)).1.filterMap Part.toolMark = [.stop (state.callId output_index call_id)] :=
      congrArg (Mark.stop (state.callId output_index call_id) :: ·) toolMark_emitToolCall
    rw [hmarks]
    exact ⟨fun h => opened_stop h, fun h => opened_stop_of_notMem h⟩
  | reasoningSummaryTextDelta delta | reasoningSummaryTextDone =>
    refine ⟨fun _ => ?_, fun h => absurd trivial h⟩
    rw [mapEvent]
    split
    next => rfl
    next => rfl
  | outputItemDone item =>
    rw [mapEvent, ToolOrdered, openTools]
    split
    next id htype hid =>
      rw [toolMark_doneFunctionCall, if_pos htype, hid]
      by_cases hemitted : id ∈ state.emittedToolCalls
      · rw [if_pos hemitted, Option.filter_some_neg (by simpa using hemitted)]
        refine ⟨fun _ => rfl, fun h => absurd ?_ h⟩
        rintro - id' ⟨⟩ hnew
        exact absurd hemitted hnew
      · rw [if_neg hemitted, Option.filter_some_pos (by simpa using hemitted)]
        refine ⟨fun h => opened_stop (h htype id rfl hemitted), fun h => opened_stop_of_notMem ?_⟩
        intro hmem
        refine h ?_
        rintro - id' ⟨⟩ -
        exact hmem
    next h =>
      refine ⟨fun _ => ?_, fun hordered => absurd ?_ hordered⟩
      · split
        next htype =>
          rcases hid : truthy item.call_id with _ | id
          · rfl
          · exact absurd hid (h id htype)
        next => rfl
      · intro htype id hid
        exact absurd hid (h id htype)
  | _ => exact ⟨fun _ => rfl, fun h => absurd trivial h⟩

end Tool

/-! ### The end of a stream -/

section Flush

variable {state : StreamState} {id id' : JsString}
  {entry : Buffered} {entries : List Buffered} {tracked : TrackedItem} {o : Finset JsString}

/-- **What the flush does to the tool inputs**: it ends those that the buffer holds, each once. -/
theorem toolMark_flushToolCalls : ∃ ids : List JsString, ids.Nodup ∧
    (∀ id, id ∈ ids ↔ ∃ entry ∈ entries, ∃ tracked, danglingCall state entry = some (id, tracked)) ∧
      (flushToolCalls state entries).1.filterMap Part.toolMark = ids.map Mark.stop := by
  induction entries generalizing state with
  | nil => exact ⟨[], List.nodup_nil, fun id => by simp, rfl⟩
  | cons entry entries ih =>
    rw [flushToolCalls]
    rcases hdangling : danglingCall state entry with _ | ⟨id, tracked⟩
    · obtain ⟨ids, hnodup, hmem, hms⟩ := @ih state
      refine ⟨ids, hnodup, fun id => (hmem id).trans ?_, hms⟩
      simp [hdangling]
    · obtain ⟨-, -, -, hnew⟩ := danglingCall_eq_some.mp hdangling
      obtain ⟨ids, hnodup, hmem, hms⟩ := @ih (state.emitToolCall id (toolNameOf tracked.name)
        (if entry.text = [] then js "{}" else entry.text) (truthy (some tracked.id))).2
      refine ⟨id :: ids, List.nodup_cons.mpr ⟨fun hid => ?_, hnodup⟩, fun id' => ?_, ?_⟩
      · obtain ⟨entry', -, tracked', h⟩ := (hmem id).mp hid
        exact ((danglingCall_emitToolCall hnew).mp h).1 rfl
      · simp only [List.mem_cons, hmem, danglingCall_emitToolCall hnew, exists_eq_or_imp, hdangling,
          Option.some.injEq, Prod.mk.injEq]
        constructor
        · rintro (rfl | ⟨entry', hentry', tracked', -, h⟩)
          · exact Or.inl ⟨tracked, rfl, rfl⟩
          · exact Or.inr ⟨entry', hentry', tracked', h⟩
        · rintro (⟨tracked', rfl, -⟩ | ⟨entry', hentry', tracked', h⟩)
          · exact Or.inl rfl
          · by_cases heq : id' = id
            · exact Or.inl heq
            · exact Or.inr ⟨entry', hentry', tracked', heq, h⟩
      · rw [List.map_cons, ← hms]
        refine congrArg (Mark.stop id :: ·) (List.filterMap_append.trans ?_)
        rw [toolMark_emitToolCall, List.nil_append]

theorem flushToolCalls_frame : (flushToolCalls state entries).1.filterMap Part.textMark = [] ∧
    (flushToolCalls state entries).1.filterMap Part.reasoningMark = [] ∧
      ∀ part ∈ (flushToolCalls state entries).1, part.isFinish = false := by
  induction entries generalizing state with
  | nil => exact ⟨rfl, rfl, fun _ h => absurd h List.not_mem_nil⟩
  | cons entry entries ih =>
    rw [flushToolCalls]
    split
    next => exact ih
    next id tracked hdangling =>
      obtain ⟨-, -, -, hnew⟩ := danglingCall_eq_some.mp hdangling
      rw [emitToolCall, if_neg hnew]
      obtain ⟨htext, hreasoning, hfinish⟩ := @ih { state with
        hasFunctionCall := true
        emittedToolCalls := state.emittedToolCalls ++ [id] }
      refine ⟨htext, hreasoning, ?_⟩
      rintro part hpart
      rcases List.mem_cons.mp hpart with rfl | hpart
      · rfl
      · rcases List.mem_cons.mp hpart with rfl | hpart
        · rfl
        · exact hfinish part hpart

theorem TextInv.flush (h : TextInv state o) :
    opened o (state.openTextId.elim [] fun id => [.stop id]) = some ∅ ↔
      o = state.openTextId.toFinset := by
  rcases hid : state.openTextId with _ | id
  · exact Option.some.injEq o ∅ ▸ Iff.rfl
  · have hmem : id ∈ o := h.there id hid
    rw [Option.elim_some, opened_stop hmem, opened_nil, Option.some.injEq,
      Finset.erase_eq_empty_iff, Option.toFinset_some]
    refine ⟨fun hor => hor.resolve_left ?_, Or.inr⟩
    rintro rfl
    cases hmem

end Flush

/-! ### Whole streams -/

section Stream

variable {traced : Traced} {event : Event} {options : MapResponseStreamOptions}

/-- What is known of what is open, if everything was in order. -/
structure Traced.Inv (traced : Traced) : Prop where
  text : ∀ o, opened ∅ (traced.mapped.parts.filterMap Part.textMark) = some o →
    TextInv traced.mapped.state o
  key : KeyTaken traced.mapped.state traced.reasoning
  reasoning : ∀ o, opened ∅ (traced.mapped.parts.filterMap Part.reasoningMark) = some o →
    o = openReasonings traced.mapped.state traced.reasoning
  tools : ∀ o, opened ∅ (traced.mapped.parts.filterMap Part.toolMark) = some o → o = traced.tools
  finish : ∀ part ∈ traced.mapped.parts, part.isFinish = false

/-- Everything was in order, and one text at most is open. -/
structure Traced.Live (traced : Traced) : Prop where
  text : opened ∅ (traced.mapped.parts.filterMap Part.textMark) =
    some traced.mapped.state.openTextId.toFinset
  reasoning : opened ∅ (traced.mapped.parts.filterMap Part.reasoningMark) =
    some (openReasonings traced.mapped.state traced.reasoning)
  tools : opened ∅ (traced.mapped.parts.filterMap Part.toolMark) = some traced.tools

theorem isFinish_emitToolCall {state : StreamState} {id name input : JsString}
    {itemId : Option JsString} :
    ∀ part ∈ (state.emitToolCall id name input itemId).1, part.isFinish = false := by
  rw [emitToolCall]
  split
  next => exact fun _ h => absurd h List.not_mem_nil
  next => exact List.forall_mem_singleton.mpr rfl

theorem isFinish_mapEvent (state : StreamState) (e : Event) :
    ∀ part ∈ (mapEvent state e).1, part.isFinish = false := by
  have hnil : ∀ part ∈ ([] : List Part), part.isFinish = false := fun _ h => absurd h List.not_mem_nil
  cases e with
  | outputItemAdded output_index item =>
    rw [mapEvent]
    split
    next => exact List.forall_mem_singleton.mpr rfl
    next =>
      rw [addFunctionCall]
      rcases completeArguments item with _ | arguments
      · exact List.forall_mem_singleton.mpr rfl
      · rintro part hpart
        simp only [List.mem_cons, List.not_mem_nil, or_false] at hpart
        rcases hpart with rfl | rfl | rfl | rfl <;> rfl
    next => exact hnil
  | outputTextDelta delta =>
    rcases hopen : state.openTextId with _ | t
    · rw [mapEvent_outputTextDelta_none hopen]
      exact List.forall_mem_cons.mpr ⟨rfl, List.forall_mem_singleton.mpr rfl⟩
    · rw [mapEvent_outputTextDelta_some hopen]
      exact List.forall_mem_singleton.mpr rfl
  | outputTextDone =>
    rcases hopen : state.openTextId with _ | t
    · rw [mapEvent_outputTextDone_none hopen]
      exact hnil
    · rw [mapEvent_outputTextDone_some hopen]
      exact List.forall_mem_singleton.mpr rfl
  | functionCallArgumentsDelta output_index call_id delta => exact List.forall_mem_singleton.mpr rfl
  | functionCallArgumentsDone output_index call_id arguments =>
    exact List.forall_mem_cons.mpr ⟨rfl, isFinish_emitToolCall⟩
  | reasoningSummaryTextDelta delta =>
    rw [mapEvent]
    split
    next => exact List.forall_mem_singleton.mpr rfl
    next => exact List.forall_mem_cons.mpr ⟨rfl, List.forall_mem_singleton.mpr rfl⟩
  | reasoningSummaryTextDone =>
    rw [mapEvent]
    split
    next => exact List.forall_mem_singleton.mpr rfl
    next => exact hnil
  | outputItemDone item =>
    rw [mapEvent]
    split
    next id _ _ =>
      rw [doneFunctionCall]
      split
      next => exact hnil
      next => exact List.forall_mem_cons.mpr ⟨rfl, isFinish_emitToolCall⟩
    next => exact hnil
  | failed response => exact List.forall_mem_singleton.mpr rfl
  | error message => exact List.forall_mem_singleton.mpr rfl
  | _ => exact hnil

theorem Traced.Inv.init : Traced.init.Inv where
  text := by
    rintro o ⟨⟩
    exact ⟨fun _ h => absurd h (Option.not_mem_none _), fun _ h => absurd h (Finset.notMem_empty _)⟩
  key h := absurd h Bool.false_ne_true
  reasoning := by
    rintro o ⟨⟩
    rfl
  tools := by
    rintro o ⟨⟩
    rfl
  finish := fun _ h => absurd h List.not_mem_nil

theorem marks_step (traced : Traced) (event : Event) (mark : Part → Option (Mark JsString)) :
    (traced.step event).mapped.parts.filterMap mark =
      traced.mapped.parts.filterMap mark ++
        (mapEvent traced.mapped.state event).1.filterMap mark := List.filterMap_append

theorem Traced.Inv.step (h : traced.Inv) : (traced.step event).Inv where
  text o ho := by
    rw [marks_step] at ho
    obtain ⟨o', hold, hnew⟩ := opened_append_eq_some.mp ho
    exact ((h.text o' hold).move (textMove traced.mapped.state event)).1 o hnew
  key := (h.key.move).1
  reasoning o ho := by
    rw [marks_step] at ho
    obtain ⟨-, hordered, hnot⟩ := h.key.move (e := event)
    exact (opened_append_iff h.reasoning hordered hnot).2 o ho
  tools o ho := by
    rw [marks_step] at ho
    obtain ⟨hordered, hnot⟩ := tool_move traced.mapped.state traced.tools event
    exact (opened_append_iff h.tools hordered hnot).2 o ho
  finish part hpart := by
    rcases List.mem_append.mp hpart with hpart | hpart
    · exact h.finish part hpart
    · exact isFinish_mapEvent _ _ part hpart

/-- **A step keeps everything in order exactly if its event is.** -/
theorem Traced.Inv.live_step (h : traced.Inv) :
    (traced.step event).Live ↔ traced.Live ∧ Ordered traced event := by
  have htext : opened ∅ ((traced.step event).mapped.parts.filterMap Part.textMark) =
      some (traced.step event).mapped.state.openTextId.toFinset ↔
        opened ∅ (traced.mapped.parts.filterMap Part.textMark) =
          some traced.mapped.state.openTextId.toFinset ∧ TextOrdered traced.mapped.state event := by
    rw [marks_step, opened_append_eq_some]
    constructor
    · rintro ⟨o, hold, hnew⟩
      obtain ⟨rfl, hordered⟩ :=
        ((h.text o hold).move (textMove traced.mapped.state event)).2.mp hnew
      exact ⟨hold, hordered⟩
    · rintro ⟨hold, hordered⟩
      exact ⟨_, hold, ((h.text _ hold).move (textMove traced.mapped.state event)).2.mpr
        ⟨rfl, hordered⟩⟩
  obtain ⟨-, hordered, hnot⟩ := h.key.move (e := event)
  have hreasoning := (opened_append_iff h.reasoning hordered hnot).1
  obtain ⟨hordered', hnot'⟩ := tool_move traced.mapped.state traced.tools event
  have htools := (opened_append_iff h.tools hordered' hnot').1
  rw [← marks_step] at hreasoning htools
  constructor
  · rintro ⟨h₁, h₂, h₃⟩
    exact ⟨⟨(htext.mp h₁).1, (hreasoning.mp h₂).1, (htools.mp h₃).1⟩,
      ⟨(htext.mp h₁).2, (hreasoning.mp h₂).2, (htools.mp h₃).2⟩⟩
  · rintro ⟨⟨h₁, h₂, h₃⟩, ⟨h₁', h₂', h₃'⟩⟩
    exact ⟨htext.mpr ⟨h₁, h₁'⟩, hreasoning.mpr ⟨h₂, h₂'⟩, htools.mpr ⟨h₃, h₃'⟩⟩

/-- **The end leaves nothing open exactly if everything was in order and is settled.** -/
theorem Traced.Inv.wellBracketed (h : traced.Inv) :
    WellBracketed (traced.mapped.close options) ↔ traced.Live ∧ traced.Settled := by
  obtain ⟨hcallText, hcallReasoning, hcallFinish⟩ := @flushToolCalls_frame
    { traced.mapped.state with openTextId := none } traced.mapped.state.toolArgBuffer
  obtain ⟨ids, hnodup, hmem, hms⟩ := @toolMark_flushToolCalls
    { traced.mapped.state with openTextId := none } traced.mapped.state.toolArgBuffer
  -- what the end adds to each kind of marks
  have hclose : ∀ mark : Part → Option (Mark JsString),
      (∀ state, mark (finishPart options state) = none) →
      (traced.mapped.close options).filterMap mark = traced.mapped.parts.filterMap mark ++
        ((traced.mapped.state.openTextId.elim [] fun id => [Part.textEnd id]).filterMap mark ++
          (flushToolCalls { traced.mapped.state with openTextId := none }
            traced.mapped.state.toolArgBuffer).1.filterMap mark) := by
    intro mark hmark
    rw [Mapped.close, List.filterMap_append, List.filterMap_append,
      List.filterMap_cons_none (hmark _), List.filterMap_nil, List.append_nil, flush,
      List.filterMap_append]
  have htext : Balanced ((traced.mapped.close options).filterMap Part.textMark) ↔
      opened ∅ (traced.mapped.parts.filterMap Part.textMark) =
        some traced.mapped.state.openTextId.toFinset := by
    have hend : (traced.mapped.state.openTextId.elim [] fun id => [Part.textEnd id]).filterMap
        Part.textMark = traced.mapped.state.openTextId.elim [] fun id => [.stop id] := by
      rcases traced.mapped.state.openTextId with _ | id <;> rfl
    rw [Balanced, hclose Part.textMark fun _ => rfl, hcallText, hend, List.append_nil,
      opened_append_eq_some]
    constructor
    · rintro ⟨o, hold, hflush⟩
      rw [hold, (h.text o hold).flush.mp hflush]
    · intro hold
      exact ⟨_, hold, (h.text _ hold).flush.mpr rfl⟩
  have hreasoning : Balanced ((traced.mapped.close options).filterMap Part.reasoningMark) ↔
      opened ∅ (traced.mapped.parts.filterMap Part.reasoningMark) =
        some (openReasonings traced.mapped.state traced.reasoning) ∧ traced.reasoning = false := by
    have hend : (traced.mapped.state.openTextId.elim [] fun id => [Part.textEnd id]).filterMap
        Part.reasoningMark = [] := by
      rcases traced.mapped.state.openTextId with _ | id <;> rfl
    rw [Balanced, hclose Part.reasoningMark fun _ => rfl, hcallReasoning, hend, List.append_nil,
      List.append_nil]
    constructor
    · intro hbalanced
      have hempty := h.reasoning ∅ hbalanced
      refine ⟨hbalanced.trans (congrArg some hempty), Bool.eq_false_iff.mpr fun htrue => ?_⟩
      rw [htrue] at hempty
      exact Finset.singleton_ne_empty _ hempty.symm
    · rintro ⟨hopened, hfalse⟩
      rw [hopened, hfalse]
      rfl
  have htools : Balanced ((traced.mapped.close options).filterMap Part.toolMark) ↔
      opened ∅ (traced.mapped.parts.filterMap Part.toolMark) = some traced.tools ∧
        ∀ id, id ∈ traced.tools ↔ ∃ entry ∈ traced.mapped.state.toolArgBuffer, ∃ tracked,
          danglingCall traced.mapped.state entry = some (id, tracked) := by
    have hend : (traced.mapped.state.openTextId.elim [] fun id => [Part.textEnd id]).filterMap
        Part.toolMark = [] := by
      rcases traced.mapped.state.openTextId with _ | id <;> rfl
    have hids : (∀ id, id ∈ traced.tools ↔ ∃ entry ∈ traced.mapped.state.toolArgBuffer, ∃ tracked,
        danglingCall traced.mapped.state entry = some (id, tracked)) ↔
          ∀ id, id ∈ traced.tools ↔ id ∈ ids :=
      forall_congr' fun id => iff_congr Iff.rfl (hmem id).symm
    rw [Balanced, hclose Part.toolMark fun _ => rfl, hms, hend, List.nil_append,
      opened_append_eq_some, hids, ← opened_stops_eq_empty hnodup]
    constructor
    · rintro ⟨o, hold, hflush⟩
      obtain rfl := h.tools o hold
      exact ⟨hold, hflush⟩
    · rintro ⟨hold, hflush⟩
      exact ⟨_, hold, hflush⟩
  constructor
  · rintro ⟨h₁, h₂, h₃, -⟩
    exact ⟨⟨htext.mp h₁, (hreasoning.mp h₂).1, (htools.mp h₃).1⟩,
      ⟨(hreasoning.mp h₂).2, (htools.mp h₃).2⟩⟩
  · rintro ⟨⟨h₁, h₂, h₃⟩, ⟨h₂', h₃'⟩⟩
    refine ⟨htext.mpr h₁, hreasoning.mpr ⟨h₂, h₂'⟩, htools.mpr ⟨h₃, h₃'⟩, ?_⟩
    refine ⟨_, _, rfl, rfl, fun part hpart => ?_⟩
    rcases List.mem_append.mp hpart with hpart | hpart
    · exact h.finish part hpart
    · rcases List.mem_append.mp hpart with hpart | hpart
      · rcases hopen : traced.mapped.state.openTextId with _ | id
        · rw [hopen] at hpart
          cases hpart
        · rw [hopen] at hpart
          rw [List.mem_singleton.mp hpart]
          rfl
      · exact hcallFinish part hpart

theorem Traced.Live.init : Traced.init.Live := ⟨rfl, rfl, rfl⟩

theorem mapped_run (events : List Event) (traced : Traced) :
    (run Traced.step traced events).mapped = run Mapped.step traced.mapped events := by
  induction events generalizing traced with
  | nil => rfl
  | cons e es ih => exact ih (traced.step e)

/-- **The parts of a stream are in brackets exactly if its events are in order**, and in the end no
reasoning is open and the buffer holds the calls that are. -/
theorem bracketed_iff (options : MapResponseStreamOptions) (events : List Event) :
    WellBracketed (mapResponseStream options events) ↔
      Meets Traced.step Ordered .init events ∧ (run Traced.step .init events).Settled := by
  have hstep : ∀ (traced : Traced) (event : Event), traced.Inv → (traced.step event).Inv :=
    fun _ _ h => h.step
  have hlive : (run Traced.step .init events).Live ↔
      Traced.init.Live ∧ Meets Traced.step Ordered .init events :=
    run_iff_meets Traced.Inv Traced.Live Traced.Inv.init hstep (fun _ _ h => h.live_step) events
  have hinv : (run Traced.step .init events).Inv :=
    run_invariant Traced.Inv Traced.Inv.init hstep events
  have hmapped : (run Traced.step .init events).mapped = run Mapped.step .init events :=
    mapped_run events .init
  rw [mapResponseStream, ← hmapped, hinv.wellBracketed, hlive, and_iff_right Traced.Live.init]

/-- **A reasoning that is cut off is not ended.** -/
theorem not_bracketed : ¬ ∀ (options : MapResponseStreamOptions) (events : List Event),
    WellBracketed (mapResponseStream options events) := by
  intro h
  have hbalanced := (h ⟨none, none⟩ [.reasoningSummaryTextDelta (js "Let")]).reasoning
  revert hbalanced
  decide

end Stream

end OpenCms.Codex
