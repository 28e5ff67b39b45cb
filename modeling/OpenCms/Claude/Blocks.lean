import OpenCms.Claude.Sse
import OpenCms.Lib.Brackets

/-!
# What becomes of the blocks of a message

The parts of a stream are told from its events alone. A call is made when a block stops: with the
arguments that were added to it, if it is the use of a tool, and if it is a text, for every call
that is written out in it. Each stop of the message is a finish, and its reason is that calls were
made as soon as one was found in a text (`OpenCms.Claude.streamParts_sound`).

The parts are in brackets only if the events are proper: an index does not start again before it is
stopped, what is added to a block is of its type, and the use of a tool does not come under the id
of another one that is not stopped, nor under an id that is given to a call found in a text.
-/

namespace OpenCms.Claude

/-! ### What events say -/

/-- A block that began, and what was added to it. -/
structure Begun where
  block : ContentBlock
  input : JsString
  text : JsString
  deriving DecidableEq

def Begun.add (begun : Begun) : Delta → Begun
  | .text text => { begun with text := begun.text ++ text.getD [] }
  | .inputJson partial_json => { begun with input := begun.input ++ partial_json.getD [] }
  | _ => begun

def Begun.step (index : ℤ) (begun : Option Begun) : Event → Option Begun
  | .contentBlockStart index' block =>
    if index' = index then block.map fun block => ⟨block, [], []⟩ else begun
  | .contentBlockDelta index' delta =>
    if index' = index then begun.map fun begun => delta.elim begun begun.add else begun
  | .contentBlockStop index' => if index' = index then none else begun
  | _ => begun

def blockAt (index : ℤ) (past : List Event) : Option Begun := run (Begun.step index) none past

/-- A call that events ask for. An id that is not given is chosen. -/
structure Call where
  id : Option JsString
  toolName : JsString
  input : JsString
  deriving DecidableEq

def recoveredAt (past : List Event) : Event → List SalvagedCall
  | .contentBlockStop index =>
    match blockAt index past with
    | some ⟨.text, _, text⟩ => salvageAntmlInvokes text
    | _ => []
  | _ => []

def usedAt (past : List Event) : Event → Option Call
  | .contentBlockStop index =>
    match blockAt index past with
    | some ⟨.toolUse id name, input, _⟩ =>
      some ⟨truthy id, stripToolPrefix (name.getD []), if input = [] then js "{}" else input⟩
    | _ => none
  | _ => none

def callsAt (past : List Event) (event : Event) : List Call :=
  (usedAt past event).toList ++
    (recoveredAt past event).map fun call => ⟨none, stripToolPrefix call.name, call.input⟩

def Recovered (events : List Event) : Prop := along recoveredAt [] events ≠ []

instance (events : List Event) : Decidable (Recovered events) :=
  inferInstanceAs (Decidable (along recoveredAt [] events ≠ []))

def Event.stopReason : Event → Option JsString
  | .messageDelta _ stop_reason => truthy stop_reason
  | _ => none

def finishAt (past : List Event) (event : Event) : Option FinishReason :=
  if event = .messageStop then
    some (if Recovered past then .toolCalls
      else mapFinishReason (past.filterMap Event.stopReason).getLast?)
  else none

/-! ### What parts say -/

def Part.mark : Part → Option (BlockType × Mark JsString)
  | .textStart id => some (.text, .start id)
  | .textDelta id _ => some (.text, .touch id)
  | .textEnd id => some (.text, .stop id)
  | .reasoningStart id => some (.thinking, .start id)
  | .reasoningDelta id _ => some (.thinking, .touch id)
  | .reasoningEnd id _ => some (.thinking, .stop id)
  | .toolInputStart id _ => some (.toolUse, .start id)
  | .toolInputDelta id _ => some (.toolUse, .touch id)
  | .toolInputEnd id => some (.toolUse, .stop id)
  | _ => none

def Part.markOf (type : BlockType) (part : Part) : Option (Mark JsString) :=
  part.mark.bind fun mark => if mark.1 = type then some mark.2 else none

def Part.toCall : Part → Option Call
  | .toolCall id toolName input => some ⟨some id, toolName, input⟩
  | _ => none

def Part.toFinishReason : Part → Option FinishReason
  | .finish finishReason _ _ _ => some finishReason
  | _ => none

def Part.toRaw : Part → Option Event
  | .raw rawValue => some rawValue
  | _ => none

structure Call.Answers (call asked : Call) : Prop where
  toolName : call.toolName = asked.toolName
  input : call.input = asked.input
  id : ∀ id ∈ asked.id, call.id = some id

/-- **The mapping is sound**: parts are in brackets, every call that is asked for is made, every
stop of the message is a finish, and a stream without one ends with an error. -/
structure Sound (events : List Event) (parts : List Part) : Prop where
  bracketed : ∀ type, (opened ∅ (parts.filterMap (Part.markOf type))).isSome
  calls : List.Forall₂ Call.Answers (parts.filterMap Part.toCall) (along callsAt [] events)
  finishes : parts.filterMap Part.toFinishReason =
    along (fun past event => (finishAt past event).toList) [] events
  truncated : .messageStop ∉ events → ∃ message, .error message ∈ parts

def Delta.Fits (type : BlockType) : Delta → Prop
  | .text _ => type = .text
  | .thinking _ | .signature _ => type = .thinking
  | .inputJson _ => type = .toolUse
  | .other => True

def StreamState.startId (state : StreamState) (id : Option JsString) : JsString :=
  (truthy id).getD (blockId state.blockCounter)

def Proper (mapped : Mapped) : Event → Prop
  | .contentBlockStart index content_block => mapped.state.activeBlocks index = none ∧
      ∀ id name, content_block = some (.toolUse id name) →
        (∀ index' info, mapped.state.activeBlocks index' = some info → info.type = .toolUse →
          info.id ≠ mapped.state.startId id) ∧
        ∀ n, mapped.state.startId id ≠ salvageId n
  | .contentBlockDelta index delta => ∀ info, mapped.state.activeBlocks index = some info →
      ∀ added, delta = some added → added.Fits info.type
  | _ => True

/-! ### Brackets -/

def StreamState.held (state : StreamState) (index : ℤ) : Option (BlockType × JsString) :=
  (state.activeBlocks index).map fun info => (info.type, info.id)

/-- The ids of what is held are told apart, and come from the counter or from elsewhere. -/
structure Apart (held : ℤ → Option (BlockType × JsString)) (counter : ℕ) : Prop where
  distinct : ∀ index index' x, held index = some x → held index' = some x → index = index'
  own : ∀ index type id, held index = some (type, id) → type ≠ .toolUse →
    ∃ n < counter, id = blockId n
  foreign : ∀ index id, held index = some (.toolUse, id) → ∀ n, id ≠ salvageId n

def Opens (held : ℤ → Option (BlockType × JsString)) (type : BlockType) (o : Finset JsString) :
    Prop :=
  ∀ id, id ∈ o ↔ ∃ index, held index = some (type, id)

def marksOf (type : BlockType) (ms : List (BlockType × Mark JsString)) : List (Mark JsString) :=
  ms.filterMap fun mark => if mark.1 = type then some mark.2 else none

section Brackets

variable {held : ℤ → Option (BlockType × JsString)} {counter counter' : ℕ} {o : Finset JsString}
  {type : BlockType}
  {ms : List (BlockType × Mark JsString)}

theorem blockId_injective : Function.Injective blockId := by
  intro n m h
  have hdecimal : JsString.decimal n = JsString.decimal m := List.append_cancel_left h
  rw [← JsString.number_decimal n, hdecimal, JsString.number_decimal]

theorem marksOf_cons_self {m : Mark JsString} :
    marksOf type ((type, m) :: ms) = m :: marksOf type ms :=
  List.filterMap_cons_some (if_pos rfl)

theorem marksOf_cons_of_ne {type' : BlockType} (h : type' ≠ type) {m : Mark JsString} :
    marksOf type ((type', m) :: ms) = marksOf type ms :=
  List.filterMap_cons_none (if_neg h)

theorem marksOf_nil : marksOf type [] = [] := rfl

theorem filterMap_markOf (type : BlockType) (parts : List Part) :
    parts.filterMap (Part.markOf type) = marksOf type (parts.filterMap Part.mark) := by
  rw [marksOf, List.filterMap_filterMap]
  rfl

/-- What an event does to what is held. -/
inductive Move (held : ℤ → Option (BlockType × JsString)) (counter : ℕ) :
    (ℤ → Option (BlockType × JsString)) → ℕ → List (BlockType × Mark JsString) → Prop
  | same {counter' : ℕ} (hcounter : counter ≤ counter') : Move held counter held counter' []
  | start (index : ℤ) (type : BlockType) (id : JsString) (hindex : held index = none)
      (hnew : ∀ index', held index' ≠ some (type, id))
      (hown : type ≠ .toolUse → id = blockId counter)
      (hforeign : type = .toolUse → ∀ n, id ≠ salvageId n) :
      Move held counter (Function.update held index (some (type, id))) (counter + 1)
        [(type, .start id)]
  | touch (index : ℤ) (type : BlockType) (id : JsString) (hindex : held index = some (type, id)) :
      Move held counter held counter [(type, .touch id)]
  | stop {counter' : ℕ} (index : ℤ) (type : BlockType) (id : JsString) (calls : List JsString)
      (hcounter : counter ≤ counter') (hindex : held index = some (type, id))
      (hcalls : ∀ call ∈ calls, ∃ n, call = salvageId n) :
      Move held counter (Function.update held index none) counter' ((type, .stop id) ::
        calls.flatMap fun call => [(.toolUse, .start call), (.toolUse, .stop call)])

theorem Apart.move {held' : ℤ → Option (BlockType × JsString)} (h : Apart held counter)
    (hmove : Move held counter held' counter' ms) : Apart held' counter' := by
  rcases hmove with hcounter | ⟨index, type, id, hindex, hnew, hown, hforeign⟩ | _ |
    ⟨index, type, id, calls, hcounter, hindex, hcalls⟩
  · refine ⟨h.distinct, fun index type id hid htype => ?_, h.foreign⟩
    obtain ⟨n, hn, hid⟩ := h.own index type id hid htype
    exact ⟨n, hn.trans_le hcounter, hid⟩
  · refine ⟨fun i j x hi hj => ?_, fun i t x hi ht => ?_, fun i x hi n => ?_⟩
    · -- what starts is held under no other index
      rcases eq_or_ne i index with rfl | hne
      · rw [Function.update_self] at hi
        rcases eq_or_ne j i with rfl | hne'
        · rfl
        · rw [Function.update_of_ne hne', ← hi] at hj
          exact absurd hj (hnew j)
      · rw [Function.update_of_ne hne] at hi
        rcases eq_or_ne j index with rfl | hne'
        · rw [Function.update_self] at hj
          exact absurd (hi.trans hj.symm) (hnew i)
        · rw [Function.update_of_ne hne'] at hj
          exact h.distinct i j x hi hj
    · rcases eq_or_ne i index with rfl | hne
      · rw [Function.update_self] at hi
        cases hi
        exact ⟨counter, Nat.lt_succ_self counter, hown ht⟩
      · rw [Function.update_of_ne hne] at hi
        obtain ⟨n, hn, hx⟩ := h.own i t x hi ht
        exact ⟨n, hn.trans (Nat.lt_succ_self counter), hx⟩
    · rcases eq_or_ne i index with rfl | hne
      · rw [Function.update_self] at hi
        cases hi
        exact hforeign rfl n
      · rw [Function.update_of_ne hne] at hi
        exact h.foreign i x hi n
  · exact h
  · have hheld : ∀ i x, Function.update held index none i = some x → held i = some x := by
      intro i x hi
      rcases eq_or_ne i index with rfl | hne
      · rw [Function.update_self] at hi
        exact absurd hi.symm (Option.some_ne_none x)
      · rwa [Function.update_of_ne hne] at hi
    refine ⟨fun i j x hi hj => h.distinct i j x (hheld i x hi) (hheld j x hj),
      fun i t x hi ht => ?_, fun i x hi => h.foreign i x (hheld i _ hi)⟩
    obtain ⟨n, hn, hx⟩ := h.own i t x (hheld i _ hi) ht
    exact ⟨n, hn.trans_le hcounter, hx⟩

/-- **What is open stays what is held.** -/
theorem Opens.move {held' : ℤ → Option (BlockType × JsString)} (ho : Opens held type o)
    (h : Apart held counter) (hmove : Move held counter held' counter' ms) :
    ∃ o', opened o (marksOf type ms) = some o' ∧ Opens held' type o' := by
  rcases hmove with hcounter | ⟨index, type', id, hindex, hnew, hown, hforeign⟩ |
    ⟨index, type', id, hindex⟩ | ⟨index, type', id, calls, hcounter, hindex, hcalls⟩
  · exact ⟨o, rfl, ho⟩
  · rcases eq_or_ne type' type with rfl | hne
    · have hid : id ∉ o := fun hmem => by
        obtain ⟨index', hheld⟩ := (ho id).mp hmem
        exact hnew index' hheld
      refine ⟨insert id o, ?_, fun x => ?_⟩
      · rw [marksOf_cons_self, marksOf_nil, opened_start hid, opened_nil]
      · rw [Finset.mem_insert, ho x]
        constructor
        · rintro (rfl | ⟨i, hi⟩)
          · exact ⟨index, Function.update_self ..⟩
          · refine ⟨i, ?_⟩
            rwa [Function.update_of_ne]
            rintro rfl
            exact absurd (hindex.symm.trans hi) (Option.some_ne_none _).symm
        · rintro ⟨i, hi⟩
          rcases eq_or_ne i index with rfl | hne'
          · rw [Function.update_self] at hi
            cases hi
            exact .inl rfl
          · rw [Function.update_of_ne hne'] at hi
            exact .inr ⟨i, hi⟩
    · refine ⟨o, ?_, fun x => (ho x).trans (exists_congr fun i => ?_)⟩
      · rw [marksOf_cons_of_ne hne, marksOf_nil, opened_nil]
      · rcases eq_or_ne i index with rfl | hne'
        · rw [Function.update_self, hindex]
          refine iff_of_false (Option.some_ne_none _).symm fun hsome => hne ?_
          cases hsome
          rfl
        · rw [Function.update_of_ne hne']
  · refine ⟨o, ?_, ho⟩
    rcases eq_or_ne type' type with rfl | hne
    · rw [marksOf_cons_self, marksOf_nil, opened_touch ((ho id).mpr ⟨index, hindex⟩), opened_nil]
    · rw [marksOf_cons_of_ne hne, marksOf_nil, opened_nil]
  · -- the calls that were found are started and stopped at once
    have hcall : ∀ o' : Finset JsString, (type = .toolUse → ∀ n, salvageId n ∉ o') →
        opened o' (marksOf type (calls.flatMap fun call =>
          [(.toolUse, .start call), (.toolUse, .stop call)])) = some o' := by
      intro o' hnot
      rcases eq_or_ne BlockType.toolUse type with rfl | hne
      · have hmarks : marksOf .toolUse (calls.flatMap fun call =>
            [(.toolUse, .start call), (.toolUse, .stop call)]) =
              calls.flatMap fun call => [.start call, .stop call] := by
          rw [marksOf, List.filterMap_flatMap]
          rfl
        rw [hmarks]
        refine opened_flatMap_start_stop fun call hmem => ?_
        obtain ⟨n, rfl⟩ := hcalls call hmem
        exact hnot rfl n
      · have hmarks : marksOf type (calls.flatMap fun call =>
            [(.toolUse, .start call), (.toolUse, .stop call)]) = [] := by
          rw [marksOf, List.filterMap_flatMap]
          exact List.flatMap_eq_nil_iff.mpr fun call _ =>
            (marksOf_cons_of_ne hne).trans (marksOf_cons_of_ne hne)
        rw [hmarks, opened_nil]
    have hforeign : type = .toolUse → ∀ n, salvageId n ∉ o := by
      rintro rfl n hmem
      obtain ⟨i, hi⟩ := (ho _).mp hmem
      exact h.foreign i _ hi n rfl
    rcases eq_or_ne type' type with rfl | hne
    · refine ⟨o.erase id, ?_, fun x => ?_⟩
      · rw [marksOf_cons_self, opened_stop ((ho id).mpr ⟨index, hindex⟩)]
        exact hcall _ fun htype n hmem => hforeign htype n (Finset.mem_of_mem_erase hmem)
      · rw [Finset.mem_erase, ho x]
        constructor
        · rintro ⟨hx, i, hi⟩
          refine ⟨i, ?_⟩
          rwa [Function.update_of_ne]
          rintro rfl
          rw [hindex] at hi
          cases hi
          exact hx rfl
        · rintro ⟨i, hi⟩
          rcases eq_or_ne i index with rfl | hne'
          · rw [Function.update_self] at hi
            exact absurd hi.symm (Option.some_ne_none _)
          · rw [Function.update_of_ne hne'] at hi
            refine ⟨?_, i, hi⟩
            rintro rfl
            exact hne' (h.distinct i index _ hi hindex)
    · refine ⟨o, ?_, fun x => (ho x).trans (exists_congr fun i => ?_)⟩
      · rw [marksOf_cons_of_ne hne]
        exact hcall o hforeign
      · rcases eq_or_ne i index with rfl | hne'
        · rw [Function.update_self, hindex]
          refine iff_of_false (fun hsome => hne ?_) (Option.some_ne_none _).symm
          cases hsome
          rfl
        · rw [Function.update_of_ne hne']

end Brackets

/-! ### What an event does -/

section Dispatch

variable {state : StreamState} {mapped : Mapped} {event : Event} {index : ℤ} {info : ActiveBlock}

theorem held_setBlock : (state.setBlock index info).held =
    Function.update state.held index (some (info.type, info.id)) := by
  funext i
  change Option.map _ (Function.update state.activeBlocks index (some info) i) = _
  rcases eq_or_ne i index with rfl | hne
  · rw [Function.update_self, Function.update_self, Option.map_some]
  · rw [Function.update_of_ne hne, Function.update_of_ne hne, StreamState.held]

theorem held_deleteBlock :
    (state.deleteBlock index).held = Function.update state.held index none := by
  funext i
  change Option.map _ (Function.update state.activeBlocks index none i) = _
  rcases eq_or_ne i index with rfl | hne
  · rw [Function.update_self, Function.update_self, Option.map_none]
  · rw [Function.update_of_ne hne, Function.update_of_ne hne, StreamState.held]

theorem held_of_activeBlocks (h : state.activeBlocks index = some info) :
    state.held index = some (info.type, info.id) := by
  rw [StreamState.held, h, Option.map_some]

theorem salvage_frame (state : StreamState) (calls : List SalvagedCall) :
    (state.salvage calls).2.activeBlocks = state.activeBlocks ∧
      (state.salvage calls).2.sawMessageStop = state.sawMessageStop ∧
      (state.salvage calls).2.lastStopReason = state.lastStopReason ∧
      state.blockCounter ≤ (state.salvage calls).2.blockCounter ∧
      ((state.salvage calls).2.salvagedToolUse = true ↔
        state.salvagedToolUse = true ∨ calls ≠ []) := by
  induction calls generalizing state with
  | nil => exact ⟨rfl, rfl, rfl, le_rfl, (or_iff_left fun h => h rfl).symm⟩
  | cons call calls ih =>
    obtain ⟨hblocks, hstop, hreason, hcounter, hsalvaged⟩ := ih { state with
      blockCounter := state.blockCounter + 1
      producedToolUse := state.producedToolUse + 1
      salvagedToolUse := true }
    refine ⟨hblocks, hstop, hreason, (Nat.le_succ _).trans hcounter, ?_⟩
    exact iff_of_true (hsalvaged.mpr (.inl rfl)) (.inr (List.cons_ne_nil call calls))

theorem mark_salvage (state : StreamState) (calls : List SalvagedCall) : ∃ ids : List JsString,
    (∀ id ∈ ids, ∃ n, id = salvageId n) ∧ (state.salvage calls).1.filterMap Part.mark =
      ids.flatMap fun id => [(.toolUse, .start id), (.toolUse, .stop id)] := by
  induction calls generalizing state with
  | nil => exact ⟨[], fun id h => absurd h List.not_mem_nil, rfl⟩
  | cons call calls ih =>
    obtain ⟨ids, hids, hmarks⟩ := ih { state with
      blockCounter := state.blockCounter + 1
      producedToolUse := state.producedToolUse + 1
      salvagedToolUse := true }
    refine ⟨salvageId state.blockCounter :: ids, List.forall_mem_cons.mpr ⟨⟨_, rfl⟩, hids⟩, ?_⟩
    rw [List.flatMap_cons, ← hmarks]
    rfl

theorem Apart.fresh (h : Apart state.held state.blockCounter) {type : BlockType}
    (htype : type ≠ .toolUse) (i : ℤ) :
    state.held i ≠ some (type, blockId state.blockCounter) := by
  intro hi
  obtain ⟨n, hn, hid⟩ := h.own i type _ hi htype
  exact hn.ne (blockId_injective hid).symm

theorem Apart.move_start (h : Apart mapped.state.held mapped.state.blockCounter)
    (content_block : Option ContentBlock)
    (hproper : Proper mapped (.contentBlockStart index content_block)) :
    Move mapped.state.held mapped.state.blockCounter
      (mapped.state.startBlock index content_block).2.held
      (mapped.state.startBlock index content_block).2.blockCounter
      ((mapped.state.startBlock index content_block).1.filterMap Part.mark) := by
  obtain ⟨hnone, htool⟩ := hproper
  have hindex : mapped.state.held index = none := by
    rw [StreamState.held, hnone, Option.map_none]
  rcases content_block with _ | _ | _ | ⟨id, name⟩ | _
  · exact .same (Nat.le_succ _)
  · dsimp only [StreamState.startBlock]
    rw [held_setBlock]
    exact .start index .text _ hindex (h.fresh (by rintro ⟨⟩)) (fun _ => rfl) (by rintro ⟨⟩)
  · dsimp only [StreamState.startBlock]
    rw [held_setBlock]
    exact .start index .thinking _ hindex (h.fresh (by rintro ⟨⟩)) (fun _ => rfl) (by rintro ⟨⟩)
  · obtain ⟨hnew, hforeign⟩ := htool id name rfl
    dsimp only [StreamState.startBlock]
    rw [held_setBlock]
    refine .start index .toolUse _ hindex (fun i hi => ?_) (fun hne => absurd rfl hne)
      fun _ => hforeign
    rw [StreamState.held, Option.map_eq_some_iff] at hi
    obtain ⟨info, hinfo, hid⟩ := hi
    exact hnew i info hinfo (congrArg Prod.fst hid) (congrArg Prod.snd hid)
  · exact .same (Nat.le_succ _)

theorem move_delta (hinfo : state.activeBlocks index = some info) {delta : Delta}
    (hfits : delta.Fits info.type) : Move state.held state.blockCounter
      (state.addDelta index info delta).2.held (state.addDelta index info delta).2.blockCounter
      ((state.addDelta index info delta).1.filterMap Part.mark) := by
  have hheld := held_of_activeBlocks hinfo
  have hset : ∀ info' : ActiveBlock, info'.type = info.type → info'.id = info.id →
      (state.setBlock index info').held = state.held := by
    rintro info' htype hid
    rw [held_setBlock, htype, hid, ← hheld, Function.update_eq_self]
  rcases delta with text | thinking | signature | partial_json | _
  · dsimp only [StreamState.addDelta]
    rw [hset { info with text := info.text ++ text.getD [] } rfl rfl]
    exact .touch index .text info.id (hheld.trans (by rw [hfits]))
  · exact .touch index .thinking info.id (hheld.trans (by rw [hfits]))
  · dsimp only [StreamState.addDelta]
    rw [hset { info with signature := info.signature ++ signature.getD [] } rfl rfl]
    exact .same le_rfl
  · dsimp only [StreamState.addDelta]
    rw [hset { info with input := info.input ++ partial_json.getD [] } rfl rfl]
    exact .touch index .toolUse info.id (hheld.trans (by rw [hfits]))
  · exact .same le_rfl

theorem move_stop (hinfo : state.activeBlocks index = some info) :
    Move state.held state.blockCounter ((state.stopBlock info).2.deleteBlock index).held
      ((state.stopBlock info).2.deleteBlock index).blockCounter
      ((state.stopBlock info).1.filterMap Part.mark) := by
  have hheld := held_of_activeBlocks hinfo
  rw [held_deleteBlock, StreamState.stopBlock]
  rcases htype : info.type with _ | _ | _
  · obtain ⟨hblocks, -, -, hcounter, -⟩ := salvage_frame state (salvageAntmlInvokes info.text)
    obtain ⟨ids, hids, hmarks⟩ := mark_salvage state (salvageAntmlInvokes info.text)
    have hsame : (state.salvage (salvageAntmlInvokes info.text)).2.held = state.held := by
      funext i
      rw [StreamState.held, hblocks, StreamState.held]
    have hend : (Part.textEnd info.id :: (state.salvage (salvageAntmlInvokes info.text)).1).filterMap
        Part.mark = (.text, .stop info.id) ::
          ids.flatMap fun id => [(.toolUse, .start id), (.toolUse, .stop id)] := by
      rw [← hmarks]
      rfl
    rw [hend, hsame]
    exact .stop index .text info.id ids hcounter (hheld.trans (by rw [htype])) hids
  · exact .stop index .thinking info.id [] le_rfl (hheld.trans (by rw [htype]))
      fun call hcall => absurd hcall List.not_mem_nil
  · exact .stop index .toolUse info.id [] le_rfl (hheld.trans (by rw [htype]))
      fun call hcall => absurd hcall List.not_mem_nil

/-- **What a proper event does to what is held.** -/
theorem Apart.move_step (h : Apart mapped.state.held mapped.state.blockCounter)
    (hproper : Proper mapped event) :
    Move mapped.state.held mapped.state.blockCounter (mapped.step event).state.held
      (mapped.step event).state.blockCounter
      ((eventParts mapped.state event).filterMap Part.mark) := by
  rw [eventParts, List.filterMap_cons_none rfl, Mapped.step]
  rcases event with message | ⟨index, content_block⟩ | ⟨index, delta⟩ | index | _ | _ | _ | _ | _
  · rcases message with _ | ⟨id, model, usage⟩
    · exact .same le_rfl
    · rcases usage with _ | usage <;> exact .same le_rfl
  · exact h.move_start content_block hproper
  · rcases hinfo : mapped.state.activeBlocks index with _ | info
    · rw [dispatchEvent_delta_none delta (.inl hinfo)]
      exact .same le_rfl
    · rcases delta with _ | delta
      · rw [dispatchEvent_delta_none none (.inr rfl)]
        exact .same le_rfl
      · rw [dispatchEvent_delta hinfo]
        exact move_delta hinfo (hproper info hinfo delta rfl)
  · rcases hinfo : mapped.state.activeBlocks index with _ | info
    · rw [dispatchEvent_stop_none hinfo]
      exact .same le_rfl
    · rw [dispatchEvent_stop hinfo]
      exact move_stop hinfo
  all_goals exact .same le_rfl

end Dispatch

/-! ### What the state keeps of the events -/

def Begun.Is (begun : Begun) (info : ActiveBlock) : Prop :=
  match begun.block with
  | .text => info.type = .text ∧ info.text = begun.text
  | .thinking => info.type = .thinking
  | .toolUse id name => info.type = .toolUse ∧ info.toolName = stripToolPrefix (name.getD []) ∧
      info.input = begun.input ∧ ∀ own ∈ truthy id, info.id = own
  | .other => False

/-- A block is kept from its start to its stop, if it is understood. -/
def Kept (begun : Option Begun) (info : Option ActiveBlock) : Prop :=
  match begun, info with
  | none, info => info = none
  | some begun, none => begun.block = .other
  | some begun, some info => begun.Is info

/-- The state says what the events say. -/
structure Describes (past : List Event) (state : StreamState) : Prop where
  blocks : ∀ index, Kept (blockAt index past) (state.activeBlocks index)
  recovered : state.salvagedToolUse = true ↔ Recovered past
  reason : state.lastStopReason = (past.filterMap Event.stopReason).getLast?
  stopped : state.sawMessageStop = true ↔ .messageStop ∈ past

section Describe

variable {past : List Event} {state : StreamState} {event : Event} {index : ℤ}

theorem blockAt_concat : blockAt index (past ++ [event]) =
    Begun.step index (blockAt index past) event := run_concat ..

theorem activeBlocks_startBlock {i : ℤ} (hi : i ≠ index) (block : Option ContentBlock) :
    (state.startBlock index block).2.activeBlocks i = state.activeBlocks i := by
  rcases block with _ | _ | _ | ⟨id, name⟩ | _
  · rfl
  · exact Function.update_of_ne hi _ _
  · exact Function.update_of_ne hi _ _
  · exact Function.update_of_ne hi _ _
  · rfl

theorem activeBlocks_addDelta {i : ℤ} (hi : i ≠ index) (info : ActiveBlock) (delta : Delta) :
    (state.addDelta index info delta).2.activeBlocks i = state.activeBlocks i := by
  rcases delta with text | thinking | signature | partial_json | _
  · exact Function.update_of_ne hi _ _
  · rfl
  · exact Function.update_of_ne hi _ _
  · exact Function.update_of_ne hi _ _
  · rfl

theorem stopBlock_frame (state : StreamState) (info : ActiveBlock) :
    (state.stopBlock info).2.activeBlocks = state.activeBlocks ∧
      (state.stopBlock info).2.sawMessageStop = state.sawMessageStop ∧
      (state.stopBlock info).2.lastStopReason = state.lastStopReason := by
  rw [StreamState.stopBlock]
  rcases info.type with _ | _ | _
  · obtain ⟨hblocks, hstop, hreason, -, -⟩ :=
      salvage_frame state (salvageAntmlInvokes info.text)
    exact ⟨hblocks, hstop, hreason⟩
  · exact ⟨rfl, rfl, rfl⟩
  · exact ⟨rfl, rfl, rfl⟩

theorem Begun.Is.kept {begun : Begun} {info : ActiveBlock} (h : begun.Is info)
    (blocks : ℤ → Option ActiveBlock) (index : ℤ) :
    Kept (some begun) (Function.update blocks index (some info) index) := by
  rw [Function.update_self]
  exact h

theorem kept_startBlock (hnone : state.activeBlocks index = none) (block : Option ContentBlock) :
    Kept (block.map fun block => ⟨block, [], []⟩)
      ((state.startBlock index block).2.activeBlocks index) := by
  rcases block with _ | _ | _ | ⟨id, name⟩ | _
  · exact hnone
  · have his : Begun.Is ⟨.text, [], []⟩ ⟨.text, blockId state.blockCounter, [], [], [], []⟩ :=
      ⟨rfl, rfl⟩
    exact his.kept state.activeBlocks index
  · have his : Begun.Is ⟨.thinking, [], []⟩
        ⟨.thinking, blockId state.blockCounter, [], [], [], []⟩ := rfl
    exact his.kept state.activeBlocks index
  · have his : Begun.Is ⟨.toolUse id name, [], []⟩
        ⟨.toolUse, state.startId id, stripToolPrefix (name.getD []), [], [], []⟩ := by
      refine ⟨rfl, rfl, rfl, fun own hown => ?_⟩
      rw [StreamState.startId, hown, Option.getD_some]
    exact his.kept state.activeBlocks index
  · change Kept (some _) (state.activeBlocks index)
    rw [hnone]
    rfl

theorem Begun.Is.add {begun : Begun} {info : ActiveBlock} (h : begun.Is info)
    (hinfo : state.activeBlocks index = some info) (delta : Delta) :
    Kept (some (begun.add delta)) ((state.addDelta index info delta).2.activeBlocks index) := by
  have hsame : Kept (some begun) (state.activeBlocks index) := by
    rw [hinfo]
    exact h
  rcases begun with ⟨block, input, text⟩
  rcases delta with added | thinking | signature | added | _
  · have his : Begun.Is ⟨block, input, text ++ added.getD []⟩
        { info with text := info.text ++ added.getD [] } := by
      rcases block with _ | _ | ⟨id, name⟩ | _
      · exact ⟨h.1, congrArg (· ++ added.getD []) h.2⟩
      all_goals exact h
    exact his.kept state.activeBlocks index
  · exact hsame
  · have his : Begun.Is ⟨block, input, text⟩
        { info with signature := info.signature ++ signature.getD [] } := by
      rcases block with _ | _ | ⟨id, name⟩ | _ <;> exact h
    exact his.kept state.activeBlocks index
  · have his : Begun.Is ⟨block, input ++ added.getD [], text⟩
        { info with input := info.input ++ added.getD [] } := by
      rcases block with _ | _ | ⟨id, name⟩ | _
      · exact h
      · exact h
      · exact ⟨h.1, h.2.1, congrArg (· ++ added.getD []) h.2.2.1, h.2.2.2⟩
      · exact h
    exact his.kept state.activeBlocks index
  · exact hsame

theorem Begun.block_add (begun : Begun) (delta : Delta) : (begun.add delta).block = begun.block := by
  rcases delta with _ | _ | _ | _ | _ <;> rfl

theorem kept_dispatchEvent {mapped : Mapped}
    (h : ∀ i, Kept (blockAt i past) (mapped.state.activeBlocks i)) (hproper : Proper mapped event)
    (i : ℤ) : Kept (blockAt i (past ++ [event]))
      ((dispatchEvent mapped.state event).2.activeBlocks i) := by
  rw [blockAt_concat]
  rcases event with message | ⟨index, block⟩ | ⟨index, delta⟩ | index | _ | _ | _ | _ | _
  · rcases message with _ | ⟨id, model, _ | usage⟩ <;> exact h i
  · rcases eq_or_ne i index with rfl | hne
    · rw [Begun.step, if_pos rfl]
      exact kept_startBlock hproper.1 block
    · rw [Begun.step, if_neg hne.symm, dispatchEvent, activeBlocks_startBlock hne]
      exact h i
  · rcases hinfo : mapped.state.activeBlocks index with _ | info
    · rw [dispatchEvent_delta_none delta (.inl hinfo)]
      rcases eq_or_ne i index with rfl | hne
      · have hkept := h i
        rw [Begun.step, if_pos rfl]
        rw [hinfo] at hkept ⊢
        rcases hblock : blockAt i past with _ | begun
        · rfl
        · -- what is not understood is not kept, whatever is added
          rw [hblock] at hkept
          rcases delta with _ | delta
          · exact hkept
          · exact (begun.block_add delta).trans hkept
      · rw [Begun.step, if_neg hne.symm]
        exact h i
    · rcases eq_or_ne i index with rfl | hne
      · have hkept := h i
        rw [Begun.step, if_pos rfl]
        rcases hblock : blockAt i past with _ | begun
        · rw [hblock, hinfo] at hkept
          exact absurd hkept (Option.some_ne_none info)
        · rw [hblock] at hkept
          rcases delta with _ | delta
          · rw [dispatchEvent_delta_none none (.inr rfl)]
            exact hkept
          · rw [hinfo] at hkept
            rw [dispatchEvent_delta hinfo]
            exact Begun.Is.add hkept hinfo delta
      · rw [Begun.step, if_neg hne.symm]
        rcases delta with _ | delta
        · rw [dispatchEvent_delta_none none (.inr rfl)]
          exact h i
        · rw [dispatchEvent_delta hinfo, activeBlocks_addDelta hne]
          exact h i
  · rcases hinfo : mapped.state.activeBlocks index with _ | info
    · rw [dispatchEvent_stop_none hinfo]
      rcases eq_or_ne i index with rfl | hne
      · rw [Begun.step, if_pos rfl]
        exact hinfo
      · rw [Begun.step, if_neg hne.symm]
        exact h i
    · rw [dispatchEvent_stop hinfo]
      rcases eq_or_ne i index with rfl | hne
      · rw [Begun.step, if_pos rfl]
        exact Function.update_self ..
      · rw [Begun.step, if_neg hne.symm]
        change Kept _ (Function.update (mapped.state.stopBlock info).2.activeBlocks index none i)
        rw [Function.update_of_ne hne, (stopBlock_frame mapped.state info).1]
        exact h i
  all_goals exact h i

theorem callsAt_of_ne (h : ∀ index, event ≠ .contentBlockStop index) :
    usedAt past event = none ∧ recoveredAt past event = [] := by
  rcases event with _ | _ | _ | index | _ | _ | _ | _ | _
  · exact ⟨rfl, rfl⟩
  · exact ⟨rfl, rfl⟩
  · exact ⟨rfl, rfl⟩
  · exact absurd rfl (h index)
  all_goals exact ⟨rfl, rfl⟩

/-- A part hands no event on, makes no call and finishes nothing. -/
def Part.isQuiet (part : Part) : Bool :=
  part.toRaw.isNone && part.toCall.isNone && part.toFinishReason.isNone

/-- What only some events do: they stop a block, or say something about the end. -/
structure Dispatched (state : StreamState) (event : Event) (parts : List Part)
    (next : StreamState) : Prop where
  raw : ∀ part ∈ parts, part.toRaw = none
  finish : event ≠ .messageStop → ∀ part ∈ parts, part.toFinishReason = none
  call : (∀ index, event ≠ .contentBlockStop index) → ∀ part ∈ parts, part.toCall = none
  salvaged : (∀ index, event ≠ .contentBlockStop index) →
    next.salvagedToolUse = state.salvagedToolUse
  reason : next.lastStopReason = event.stopReason.or state.lastStopReason
  stopped : next.sawMessageStop = true ↔ state.sawMessageStop = true ∨ event = .messageStop

theorem Dispatched.of_quiet {parts : List Part} {next : StreamState}
    (hquiet : parts.all Part.isQuiet) (hnone : event.stopReason = none)
    (hne : event ≠ .messageStop) (hsalvaged : next.salvagedToolUse = state.salvagedToolUse)
    (hreason : next.lastStopReason = state.lastStopReason)
    (hstopped : next.sawMessageStop = state.sawMessageStop) :
    Dispatched state event parts next := by
  have hparts : ∀ part ∈ parts, (part.toRaw = none ∧ part.toCall = none) ∧
      part.toFinishReason = none := by
    simpa [Part.isQuiet] using hquiet
  refine ⟨fun part hpart => (hparts part hpart).1.1, fun _ part hpart => (hparts part hpart).2,
    fun _ part hpart => (hparts part hpart).1.2, fun _ => hsalvaged, ?_, ?_⟩
  · rw [hnone, hreason]
    rfl
  · rw [hstopped]
    exact (or_iff_left hne).symm

theorem mem_salvage {part : Part} (calls : List SalvagedCall) (h : part ∈ (state.salvage calls).1) :
    part.toRaw = none ∧ part.toFinishReason = none := by
  induction calls generalizing state with
  | nil => cases h
  | cons call calls ih =>
    simp only [StreamState.salvage, List.mem_cons] at h
    rcases h with rfl | rfl | rfl | h
    · exact ⟨rfl, rfl⟩
    · exact ⟨rfl, rfl⟩
    · exact ⟨rfl, rfl⟩
    · exact ih h

theorem dispatched (state : StreamState) (event : Event) :
    Dispatched state event (dispatchEvent state event).1 (dispatchEvent state event).2 := by
  rcases event with message | ⟨index, block⟩ | ⟨index, delta⟩ | index | _ | _ | _ | _ | _
  · rcases message with _ | ⟨id, model, _ | usage⟩ <;> exact .of_quiet rfl rfl nofun rfl rfl rfl
  · rcases block with _ | _ | _ | ⟨id, name⟩ | _ <;> exact .of_quiet rfl rfl nofun rfl rfl rfl
  · rcases hinfo : state.activeBlocks index with _ | info
    · rw [dispatchEvent_delta_none delta (.inl hinfo)]
      exact .of_quiet rfl rfl nofun rfl rfl rfl
    · rcases delta with _ | delta
      · rw [dispatchEvent_delta_none none (.inr rfl)]
        exact .of_quiet rfl rfl nofun rfl rfl rfl
      · rw [dispatchEvent_delta hinfo]
        rcases delta with _ | _ | _ | _ | _ <;> exact .of_quiet rfl rfl nofun rfl rfl rfl
  · rcases hinfo : state.activeBlocks index with _ | info
    · rw [dispatchEvent_stop_none hinfo]
      exact .of_quiet rfl rfl nofun rfl rfl rfl
    · rw [dispatchEvent_stop hinfo]
      obtain ⟨-, hstopped, hreason⟩ := stopBlock_frame state info
      have hparts : ∀ part ∈ (state.stopBlock info).1,
          part.toRaw = none ∧ part.toFinishReason = none := by
        rw [StreamState.stopBlock]
        rcases info.type with _ | _ | _
        · exact List.forall_mem_cons.mpr ⟨⟨rfl, rfl⟩, fun part hpart => mem_salvage _ hpart⟩
        · simp [Part.toRaw, Part.toFinishReason]
        · simp [Part.toRaw, Part.toFinishReason]
      exact ⟨fun part hpart => (hparts part hpart).1, fun _ part hpart => (hparts part hpart).2,
        fun h => absurd rfl (h index), fun h => absurd rfl (h index), hreason,
        hstopped ▸ (or_iff_left nofun).symm⟩
  · exact ⟨List.forall_mem_nil _, fun _ => List.forall_mem_nil _, fun _ => List.forall_mem_nil _,
      fun _ => rfl, rfl, (or_iff_left nofun).symm⟩
  · exact ⟨List.forall_mem_singleton.mpr rfl, fun h => absurd rfl h,
      fun _ => List.forall_mem_singleton.mpr rfl, fun _ => rfl, rfl, iff_of_true rfl (.inr rfl)⟩
  all_goals exact .of_quiet rfl rfl nofun rfl rfl rfl

/-- **A call is found where a text that holds one stops.** -/
theorem salvagedToolUse_step (h : ∀ i, Kept (blockAt i past) (state.activeBlocks i)) :
    (dispatchEvent state event).2.salvagedToolUse = true ↔
      state.salvagedToolUse = true ∨ recoveredAt past event ≠ [] := by
  by_cases hstop : ∃ index, event = .contentBlockStop index
  · obtain ⟨index, rfl⟩ := hstop
    have hkept := h index
    rw [recoveredAt]
    rcases hinfo : state.activeBlocks index with _ | info
    · rw [dispatchEvent_stop_none hinfo]
      rw [hinfo] at hkept
      rcases hblock : blockAt index past with _ | ⟨block, input, text⟩
      · exact (or_iff_left fun hne => hne rfl).symm
      · rw [hblock] at hkept
        obtain rfl : block = .other := hkept
        exact (or_iff_left fun hne => hne rfl).symm
    · rw [dispatchEvent_stop hinfo]
      rw [hinfo] at hkept
      rcases hblock : blockAt index past with _ | ⟨block, input, text⟩
      · rw [hblock] at hkept
        exact absurd hkept (Option.some_ne_none info)
      · rw [hblock] at hkept
        change (state.stopBlock info).2.salvagedToolUse = true ↔ _
        rw [StreamState.stopBlock]
        rcases block with _ | _ | ⟨id, name⟩ | _
        · obtain ⟨htype, rfl⟩ := hkept
          rw [htype]
          exact (salvage_frame state (salvageAntmlInvokes info.text)).2.2.2.2
        · rw [show info.type = .thinking from hkept]
          exact (or_iff_left fun hne => hne rfl).symm
        · rw [hkept.1]
          exact (or_iff_left fun hne => hne rfl).symm
        · exact hkept.elim
  · have hne : ∀ index, event ≠ .contentBlockStop index := fun index heq => hstop ⟨index, heq⟩
    rw [(dispatched state event).salvaged hne, (callsAt_of_ne hne).2]
    exact (or_iff_left fun hne => hne rfl).symm

theorem toCall_salvage (state : StreamState) (calls : List SalvagedCall) :
    List.Forall₂ Call.Answers ((state.salvage calls).1.filterMap Part.toCall)
      (calls.map fun call => ⟨none, stripToolPrefix call.name, call.input⟩) := by
  induction calls generalizing state with
  | nil => exact .nil
  | cons call calls ih =>
    refine .cons ⟨rfl, rfl, fun id hid => ?_⟩ (ih _)
    exact absurd hid (Option.not_mem_none id)

theorem answers_eventParts (h : ∀ i, Kept (blockAt i past) (state.activeBlocks i)) :
    List.Forall₂ Call.Answers ((eventParts state event).filterMap Part.toCall)
      (callsAt past event) := by
  by_cases hstop : ∃ index, event = .contentBlockStop index
  · obtain ⟨index, rfl⟩ := hstop
    have hkept := h index
    rw [eventParts, List.filterMap_cons_none rfl, callsAt, usedAt, recoveredAt]
    rcases hinfo : state.activeBlocks index with _ | info
    · rw [dispatchEvent_stop_none hinfo]
      rw [hinfo] at hkept
      rcases hblock : blockAt index past with _ | ⟨block, input, text⟩
      · exact .nil
      · rw [hblock] at hkept
        obtain rfl : block = .other := hkept
        exact .nil
    · rw [dispatchEvent_stop hinfo, StreamState.stopBlock]
      rw [hinfo] at hkept
      rcases hblock : blockAt index past with _ | ⟨block, input, text⟩
      · rw [hblock] at hkept
        exact absurd hkept (Option.some_ne_none info)
      · rw [hblock] at hkept
        rcases block with _ | _ | ⟨id, name⟩ | _
        · obtain ⟨htype, rfl⟩ := hkept
          rw [htype]
          exact toCall_salvage state (salvageAntmlInvokes info.text)
        · rw [show info.type = .thinking from hkept]
          exact .nil
        · obtain ⟨htype, hname, rfl, hid⟩ := hkept
          rw [htype]
          exact .cons ⟨hname, rfl, fun own hown => congrArg some (hid own hown)⟩ .nil
        · exact hkept.elim
  · have hne : ∀ index, event ≠ .contentBlockStop index := fun index heq => hstop ⟨index, heq⟩
    have hnil : (eventParts state event).filterMap Part.toCall = [] := by
      rw [eventParts, List.filterMap_cons_none rfl, List.filterMap_eq_nil_iff]
      exact (dispatched state event).call hne
    rw [hnil, callsAt, (callsAt_of_ne hne).1, (callsAt_of_ne hne).2]
    exact .nil

theorem toFinishReason_eventParts (h : Describes past state) :
    (eventParts state event).filterMap Part.toFinishReason = (finishAt past event).toList := by
  rw [eventParts, List.filterMap_cons_none rfl, finishAt]
  split
  next hstop =>
    rw [hstop, ← h.reason, if_congr h.recovered.symm rfl rfl]
    rfl
  next hne => exact List.filterMap_eq_nil_iff.mpr ((dispatched state event).finish hne)

theorem Describes.step {mapped : Mapped} (h : Describes past mapped.state)
    (hproper : Proper mapped event) :
    Describes (past ++ [event]) (mapped.step event).state where
  blocks := kept_dispatchEvent h.blocks hproper
  recovered := by
    rw [Mapped.step, salvagedToolUse_step h.blocks, h.recovered, Recovered, Recovered,
      along_concat, List.nil_append, ne_eq, ne_eq, ne_eq, List.append_eq_nil_iff, not_and_or]
  reason := by
    rw [Mapped.step, (dispatched _ _).reason, h.reason, List.filterMap_append]
    rcases hreason : event.stopReason with _ | reason
    · rw [List.filterMap_cons_none hreason, List.filterMap_nil, List.append_nil, Option.none_or]
    · rw [List.filterMap_cons_some hreason, List.filterMap_nil, List.getLast?_concat,
        Option.some_or]
  stopped := by
    rw [Mapped.step, (dispatched _ _).stopped, h.stopped, List.mem_append, List.mem_singleton,
      eq_comm (a := event)]

end Describe

/-! ### Streams -/

section Streams

variable {past : List Event} {mapped : Mapped} {event : Event}

structure Read (past : List Event) (mapped : Mapped) : Prop where
  apart : Apart mapped.state.held mapped.state.blockCounter
  opens : ∀ type, ∃ o, opened ∅ (mapped.parts.filterMap (Part.markOf type)) = some o ∧
    Opens mapped.state.held type o
  describes : Describes past mapped.state
  calls : List.Forall₂ Call.Answers (mapped.parts.filterMap Part.toCall)
    (along callsAt [] past)
  finishes : mapped.parts.filterMap Part.toFinishReason =
    along (fun past event => (finishAt past event).toList) [] past

theorem Read.init : Read [] .init where
  apart := ⟨by rintro i j x ⟨⟩, by rintro i type id ⟨⟩, by rintro i id ⟨⟩⟩
  opens type := ⟨∅, rfl, fun id => iff_of_false (Finset.notMem_empty id) (by rintro ⟨i, ⟨⟩⟩)⟩
  describes := ⟨fun _ => rfl, iff_of_false Bool.false_ne_true fun h => h rfl, rfl,
    iff_of_false Bool.false_ne_true List.not_mem_nil⟩
  calls := .nil
  finishes := rfl

theorem Read.step (h : Read past mapped) (hproper : Proper mapped event) :
    Read (past ++ [event]) (mapped.step event) where
  apart := h.apart.move (h.apart.move_step hproper)
  opens type := by
    obtain ⟨o, hopened, ho⟩ := h.opens type
    obtain ⟨o', hopened', ho'⟩ := ho.move h.apart (h.apart.move_step hproper)
    refine ⟨o', ?_, ho'⟩
    rw [Mapped.step, List.filterMap_append, filterMap_markOf type (eventParts _ _), opened_append,
      hopened, Option.bind_some, hopened']
  describes := h.describes.step hproper
  calls := by
    rw [Mapped.step, List.filterMap_append, along_concat, List.nil_append]
    exact List.rel_append h.calls (answers_eventParts h.describes.blocks)
  finishes := by
    rw [Mapped.step, List.filterMap_append, along_concat, List.nil_append, h.finishes,
      toFinishReason_eventParts h.describes]

theorem read_run (events : List Event) (h : Meets Mapped.step Proper .init events) :
    Read events (run Mapped.step .init events) := by
  induction events using List.reverseRecOn with
  | nil => exact Read.init
  | append_singleton events event ih =>
    obtain ⟨hevents, hevent, -⟩ := Meets.append.mp h
    rw [run_concat]
    exact (ih hevents).step hevent

/-- **The mapping of proper events is sound.** -/
theorem streamParts_sound (events : List Event) (h : Meets Mapped.step Proper .init events) :
    Sound events (streamParts events) := by
  have hread := read_run events h
  -- the end adds nothing but an error
  have hclose : ∀ {β : Type} (f : Part → Option β), (∀ message, f (.error message) = none) →
      (streamParts events).filterMap f = (run Mapped.step .init events).parts.filterMap f := by
    intro β f hf
    rw [streamParts, List.filterMap_append, StreamState.close]
    split
    next => rw [List.filterMap_nil, List.append_nil]
    next => rw [List.filterMap_cons_none (hf _), List.filterMap_nil, List.append_nil]
  constructor
  · intro type
    obtain ⟨o, hopened, -⟩ := hread.opens type
    rw [hclose (Part.markOf type) fun _ => rfl, hopened]
    rfl
  · rw [hclose Part.toCall fun _ => rfl]
    exact hread.calls
  · rw [hclose Part.toFinishReason fun _ => rfl]
    exact hread.finishes
  · intro hstop
    have hnot : ¬(run Mapped.step .init events).state.sawMessageStop = true :=
      fun hsaw => hstop (hread.describes.stopped.mp hsaw)
    refine ⟨(run Mapped.step .init events).state.truncated, List.mem_append_right _ ?_⟩
    rw [StreamState.close, if_neg hnot]
    exact List.mem_singleton_self _

def textAndTool : List Event :=
  [.contentBlockStart 0 (some .text), .contentBlockDelta 0 (some (.text (some (js "Let me see")))),
    .contentBlockStop 0, .contentBlockStart 1 (some (.toolUse (some (js "t1")) (some (js "bash")))),
    .contentBlockDelta 1 (some (.inputJson (some (js "[]")))), .contentBlockStop 1,
    .messageDelta none (some (js "tool_use")), .messageStop]

theorem textAndTool_sound : Sound textAndTool (streamParts textAndTool) := by
  refine streamParts_sound textAndTool ⟨⟨rfl, by rintro id name ⟨⟩⟩, ?_, trivial, ⟨rfl, ?_⟩,
    ?_, trivial, trivial, trivial, trivial⟩
  · rintro info hinfo added hadded
    cases hinfo
    cases hadded
    rfl
  · rintro id name hblock
    cases hblock
    refine ⟨fun index info hinfo htype => ?_, fun n hn => ?_⟩
    · -- the text has stopped
      have hnone : ∀ i : ℤ, Function.update (Function.update (Function.update (fun _ => none) 0
          (some (ActiveBlock.mk .text (blockId 0) [] [] [] []))) 0
          (some (ActiveBlock.mk .text (blockId 0) [] [] [] (js "Let me see")))) 0 none i = none := by
        intro i
        rcases eq_or_ne i 0 with rfl | hne
        · rfl
        · rw [Function.update_of_ne hne, Function.update_of_ne hne, Function.update_of_ne hne]
      exact absurd (hinfo.symm.trans (hnone index)) (Option.some_ne_none info)
    · have hsalvage : (salvageId n).head? = some 115 := by
        rfl
      have hid : (js "t1").head? = some 115 := (congrArg List.head? hn).trans hsalvage
      exact absurd hid (by decide)
  · rintro info hinfo added hadded
    cases hinfo
    cases hadded
    rfl

def NotRestarted (mapped : Mapped) : Event → Prop
  | .contentBlockStart index _ => mapped.state.activeBlocks index = none
  | _ => True

instance (mapped : Mapped) (event : Event) : Decidable (NotRestarted mapped event) :=
  match event with
  | .contentBlockStart index _ =>
    inferInstanceAs (Decidable (mapped.state.activeBlocks index = none))
  | .messageStart _ | .contentBlockDelta _ _ | .contentBlockStop _ | .messageDelta _ _
  | .messageStop | .ping | .error _ | .other => isTrue trivial

def sameId : List Event :=
  [.contentBlockStart 0 (some (.toolUse (some (js "t1")) (some (js "bash")))),
    .contentBlockStart 1 (some (.toolUse (some (js "t1")) (some (js "read")))), .contentBlockStop 0,
    .contentBlockStop 1]

def textInThought : List Event :=
  [.contentBlockStart 0 (some .thinking), .contentBlockDelta 0 (some (.text (some (js "Let me")))),
    .contentBlockStop 0]

/-- **An index that does not start again is not enough**: ids must differ, and what is added must be
of the type of the block. -/
theorem not_sound_of_notRestarted : (Meets Mapped.step NotRestarted .init sameId ∧
      ¬Sound sameId (streamParts sameId)) ∧
    Meets Mapped.step NotRestarted .init textInThought ∧
      ¬Sound textInThought (streamParts textInThought) := by
  refine ⟨⟨by decide, fun h => ?_⟩, by decide +kernel, fun h => ?_⟩
  · exact absurd (h.bracketed .toolUse) (by decide +kernel)
  · exact absurd (h.bracketed .text) (by decide)

end Streams

end OpenCms.Claude
