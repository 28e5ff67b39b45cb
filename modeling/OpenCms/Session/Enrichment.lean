import OpenCms.Lib.Runs
import OpenCms.Session.Context

/-!
# Better summaries in the background

When an anchor has been written, a model is asked for a better summary of what is in it. What it
answers is streamed into a stub, a message that is marked as a summary from the beginning, and is
then put into the anchor in place of the old text. Meanwhile messages arrive, and other compactions
write their own anchors and remove what they take for the previous one.

What they take for it is the last message that is marked, so that it may be the stub: then the new
anchor hides what was in the old one. Nothing gets lost as long as this does not happen, and the
model is given all of an anchor that has been written to its end
(`OpenCms.SessionCompaction.enrichment_hides_nothing`).
-/

namespace OpenCms.SessionCompaction

open MessageV2 (WithParts PartBody Info)

/-! ### The enrichment, step by step -/

/-- Where an enrichment is: the model is being asked, the anchor is to be written, the marks are to
be taken away. -/
inductive Phase
  | scheduled
  | compressing (narrativeAnchorId : String) (narrativeContent : List String)
      (anchorsTodemote : List (WithParts Body)) (stub : Option String)
  | upgrading (part : MessageV2.Part Body) (stubMsg : WithParts Body)
      (anchorsTodemote : List (WithParts Body))
  | demotingStub (stubMsg : WithParts Body) (anchorsTodemote : List (WithParts Body))
  | demotingOld (anchorsTodemote : List (WithParts Body))
  | ended
  deriving DecidableEq

/-- A session with an enrichment, and the writes of another compaction that are still to come. -/
structure State where
  messages : List (WithParts Body)
  phase : Phase
  compaction : List (Write Body)

/-- What happens: a message arrives; the enrichment starts, if the anchor is large enough, has a
stub written, has text streamed into it, hears from the model, does its next write; another
compaction has read the session, does its next write. -/
inductive Event
  | arrives (m : WithParts Body)
  | starts (enrich : Bool) (defensiveInputCharCap : ℕ)
  | writesStub (id : String) (created : ℤ) (rest : Body)
  | streams (partID : String) (text : Body)
  | returns (success : Bool)
  | writes (fails : Bool)
  | compacts (draft : AnchorDraft Body)
  | compactionWrites

/-- The end of a text, as far as it is given to the model. -/
def clamp (latestBody : List String) (defensiveInputCharCap : ℕ) : List String :=
  latestBody.drop (latestBody.length - defensiveInputCharCap)

def begin (messages : List (WithParts Body)) (enrich : Bool) (defensiveInputCharCap : ℕ) :
    Phase :=
  match getAnchorMessage messages with
  | none => .ended
  | some narrativeAnchorMsg =>
    if enrich then
      .compressing narrativeAnchorMsg.id
        (clamp (textBody narrativeAnchorMsg) defensiveInputCharCap)
        (messages.filter isSummary).dropLast none
    else .ended

def isBlank (m : WithParts Body) : Bool :=
  m.parts.all fun p => match p.body with
    | .text _ body => body.blank
    | _ => true

def isText (p : MessageV2.Part Body) : Bool :=
  match p.body with
  | .text _ _ => true
  | _ => false

def withText (p : MessageV2.Part Body) (text : Body) : MessageV2.Part Body :=
  match p.body with
  | .text compactionReplay _ => { p with body := .text compactionReplay text }
  | _ => p

/-- What is done when the model has answered: the text of the stub goes into the anchor, unless the
anchor is gone or another one has come between. -/
def upgrade (messages : List (WithParts Body)) (narrativeAnchorId : String)
    (anchorsTodemote : List (WithParts Body)) : Phase :=
  match lastMatch isSummary messages with
  | none => .ended
  | some (stubMsg, after) =>
    let stubIdx := messages.length - (after.length + 1)
    let narrativeIdx := messages.findIdx fun m => m.id = narrativeAnchorId
    if stubMsg.id = narrativeAnchorId then .ended
    else
      match messages[narrativeIdx]? with
      | none => .ended
      | some narrativeFresh =>
        let interloperAnchorBetween :=
          ((messages.take stubIdx).drop (narrativeIdx + 1)).any isSummary
        if interloperAnchorBetween then .ended
        else if isBlank stubMsg then .ended
        else
          match narrativeFresh.parts.find? isText with
          | none => .ended
          | some narrativeTextPart =>
            .upgrading (withText narrativeTextPart ⟨textBody stubMsg, false⟩) stubMsg
              anchorsTodemote

def unmarked : Info Body → Info Body
  | .assistant finish _ rest => .assistant finish false rest
  | info => info

def demote (m : WithParts Body) : Write Body := .updateMessage m.id m.created (unmarked m.info)

/-- A write of the enrichment. If it fails, the enrichment ends, except that it goes on with the
next of the older anchors. -/
def State.write (s : State) (fails : Bool) : State :=
  match s.phase with
  | .upgrading part stubMsg anchorsTodemote =>
    if fails then { s with phase := .ended }
    else { s with
      messages := (Write.updatePart part).apply s.messages
      phase := .demotingStub stubMsg anchorsTodemote }
  | .demotingStub stubMsg anchorsTodemote =>
    if fails then { s with phase := .ended }
    else { s with
      messages := (demote stubMsg).apply s.messages
      phase := .demotingOld anchorsTodemote }
  | .demotingOld [] => { s with phase := .ended }
  | .demotingOld (old :: anchorsTodemote) =>
    { s with
      messages := if fails then s.messages else (demote old).apply s.messages
      phase := .demotingOld anchorsTodemote }
  | _ => s

/-- `scheduleHybridEnrichment` among what else happens. -/
def enrich (s : State) : Event → State
  | .arrives m => { s with messages := s.messages ++ [m] }
  | .starts enrich defensiveInputCharCap =>
    match s.phase with
    | .scheduled => { s with phase := begin s.messages enrich defensiveInputCharCap }
    | _ => s
  | .writesStub id created rest =>
    match s.phase with
    | .compressing narrativeAnchorId narrativeContent anchorsTodemote _ =>
      { s with
        messages := (Write.updateMessage id created (.assistant none true rest)).apply s.messages
        phase := .compressing narrativeAnchorId narrativeContent anchorsTodemote (some id) }
    | _ => s
  | .streams partID text =>
    match s.phase with
    | .compressing _ _ _ (some stub) =>
      { s with messages := (Write.updatePart ⟨partID, stub, .text false text⟩).apply s.messages }
    | _ => s
  | .returns success =>
    match s.phase with
    | .compressing narrativeAnchorId _ anchorsTodemote _ =>
      { s with phase :=
          if success then upgrade s.messages narrativeAnchorId anchorsTodemote else .ended }
    | _ => s
  | .writes fails => s.write fails
  | .compacts draft =>
    if s.compaction = [] ∧ s.messages.any WithParts.isUser then
      { s with compaction := anchorWrites draft (getAnchorMessage s.messages) }
    else s
  | .compactionWrites =>
    match s.compaction with
    | [] => s
    | write :: compaction =>
      { s with messages := write.apply s.messages, compaction := compaction }

/-! ### What may happen -/

def Phase.ids : Phase → List String
  | .compressing narrativeAnchorId _ anchorsTodemote stub =>
    narrativeAnchorId :: stub.toList ++ anchorsTodemote.map WithParts.id
  | .upgrading part stubMsg anchorsTodemote =>
    part.messageID :: stubMsg.id :: anchorsTodemote.map WithParts.id
  | .demotingStub stubMsg anchorsTodemote => stubMsg.id :: anchorsTodemote.map WithParts.id
  | .demotingOld anchorsTodemote => anchorsTodemote.map WithParts.id
  | .scheduled => []
  | .ended => []

def State.ids (s : State) : List String :=
  s.messages.map WithParts.id ++ (s.phase.ids ++ s.compaction.map Write.target)

def HasParts (m : WithParts Body) : Prop :=
  (m.parts.map MessageV2.Part.id).Nodup ∧ ∀ p ∈ m.parts, p.messageID = m.id

instance (m : WithParts Body) : Decidable (HasParts m) :=
  inferInstanceAs (Decidable (_ ∧ _))

def Phase.stub : Phase → Option String
  | .compressing _ _ _ stub => stub
  | _ => none

def Phase.content : Phase → List String
  | .compressing _ narrativeContent _ _ => narrativeContent
  | _ => []

def toSummarise (messages : List (WithParts Body)) : List String :=
  match lastMatch isSummary messages with
  | none => messages.map WithParts.id
  | some (prevAnchor, after) => textBody prevAnchor ++ after.map WithParts.id

/-- What happens is as it should be: identifiers are new; what arrives is no summary; an answer of
the model is a summary of what it was given; compactions work one after another, and an anchor is a
summary of what it is to be one of. -/
def Regular (s : State) : Event → Prop
  | .arrives m => m.id ∉ s.ids ∧ isPlain m ∧ HasParts m
  | .writesStub id _ _ => id ∉ s.ids
  | .returns success => success = true →
    ∃ m ∈ s.messages, s.phase.stub = some m.id ∧ ∀ id ∈ s.phase.content, id ∈ textBody m
  | .compacts draft => s.compaction = [] ∧ draft.id ∉ s.ids ∧
    draft.textPartID ≠ draft.compactionPartID ∧
    ∀ id ∈ toSummarise s.messages, id ∈ draft.body.covers
  | _ => True

instance (s : State) : (e : Event) → Decidable (Regular s e)
  | .arrives m => inferInstanceAs (Decidable (m.id ∉ s.ids ∧ isPlain m ∧ HasParts m))
  | .starts _ _ => isTrue trivial
  | .writesStub id _ _ => inferInstanceAs (Decidable (id ∉ s.ids))
  | .returns success => inferInstanceAs (Decidable (success = true →
      ∃ m ∈ s.messages, s.phase.stub = some m.id ∧ ∀ id ∈ s.phase.content, id ∈ textBody m))
  | .compacts draft => inferInstanceAs (Decidable (s.compaction = [] ∧ draft.id ∉ s.ids ∧
      draft.textPartID ≠ draft.compactionPartID ∧
      ∀ id ∈ toSummarise s.messages, id ∈ draft.body.covers))
  | .streams _ _ => isTrue trivial
  | .writes _ => isTrue trivial
  | .compactionWrites => isTrue trivial

/-- **What is read is whole**: another compaction takes the anchor that is shown for the previous
one, and the enrichment starts when no anchor is half written, and has room for all of the text. -/
def ReadsWhole (s : State) : Event → Prop
  | .starts _ defensiveInputCharCap => s.compaction = [] ∧
    ∀ anchor ∈ getAnchorMessage s.messages, (textBody anchor).length ≤ defensiveInputCharCap
  | .compacts _ => getAnchorMessage s.messages = activeAnchor s.messages
  | _ => True

instance (s : State) : (e : Event) → Decidable (ReadsWhole s e)
  | .starts _ defensiveInputCharCap => inferInstanceAs (Decidable (s.compaction = [] ∧
      ∀ anchor ∈ getAnchorMessage s.messages, (textBody anchor).length ≤ defensiveInputCharCap))
  | .compacts _ =>
    inferInstanceAs (Decidable (getAnchorMessage s.messages = activeAnchor s.messages))
  | .arrives _ | .writesStub _ _ _ | .streams _ _ | .returns _ | .writes _
  | .compactionWrites => isTrue trivial

/-! ### What writes change -/

variable {parts : List (MessageV2.Part Body)} {f : WithParts Body → WithParts Body}
  {info : Info Body} {created : ℤ}

section Writes

variable {messages : List (WithParts Body)} {m : WithParts Body}
  {part : MessageV2.Part Body}
  {id : String}

def withPart (part : MessageV2.Part Body) (m : WithParts Body) : WithParts Body :=
  if m.id = part.messageID then { m with parts := upsertPart m.parts part } else m

theorem apply_updatePart : (Write.updatePart part).apply messages = messages.map (withPart part) :=
  rfl

theorem withPart_id (m : WithParts Body) : (withPart part m).id = m.id := by
  unfold withPart
  split_ifs <;> rfl

theorem withPart_info (m : WithParts Body) : (withPart part m).info = m.info := by
  unfold withPart
  split_ifs <;> rfl

theorem withPart_of_ne (h : m.id ≠ part.messageID) : withPart part m = m := if_neg h

theorem mem_upsertPart : part ∈ upsertPart parts part := by
  unfold upsertPart
  split_ifs with h
  · obtain ⟨p, hp, hid⟩ := List.any_eq_true.mp h
    exact List.mem_map.mpr ⟨p, hp, if_pos (of_decide_eq_true hid)⟩
  · exact List.mem_append_right _ (List.mem_singleton_self _)

theorem HasParts.withPart (h : HasParts m) : HasParts (withPart part m) := by
  unfold SessionCompaction.withPart
  split_ifs with hid
  · refine ⟨?_, ?_⟩
    · simp only [upsertPart]
      split_ifs with hany
      · have hmap : (m.parts.map fun p => if p.id = part.id then part else p).map
            MessageV2.Part.id = m.parts.map MessageV2.Part.id := by
          rw [List.map_map]
          refine List.map_congr_left fun p _ => ?_
          simp only [Function.comp_apply]
          split_ifs with hp
          · exact hp.symm
          · rfl
        rw [hmap]
        exact h.1
      · rw [List.map_append, List.nodup_append]
        refine ⟨h.1, List.nodup_singleton _, ?_⟩
        rintro _ hp _ hq rfl
        rw [List.map_singleton, List.mem_singleton] at hq
        obtain ⟨p, hmem, hpid⟩ := List.mem_map.mp hp
        exact hany (List.any_eq_true.mpr ⟨p, hmem, decide_eq_true (hpid.trans hq)⟩)
    · intro p hp
      simp only [upsertPart] at hp
      split_ifs at hp with hany
      · obtain ⟨q, hq, rfl⟩ := List.mem_map.mp hp
        split_ifs
        · exact hid.symm
        · exact h.2 q hq
      · rcases List.mem_append.mp hp with hp | hp
        · exact h.2 p hp
        · rw [List.mem_singleton.mp hp]
          exact hid.symm
  · exact h

theorem compactionPart_upsert (hpart : part.compaction = none)
    (hparts : ∀ p ∈ parts, p.id = part.id → p.compaction = none) :
    (upsertPart parts part).findSome? MessageV2.Part.compaction =
      parts.findSome? MessageV2.Part.compaction := by
  unfold upsertPart
  split_ifs with hany
  · clear hany
    induction parts with
    | nil => rfl
    | cons p parts ih =>
      have ih := ih fun q hq => hparts q (List.mem_cons_of_mem _ hq)
      rw [List.map_cons, List.findSome?_cons, List.findSome?_cons, ih]
      split_ifs with hid
      · rw [hpart, hparts p List.mem_cons_self hid]
      · rfl
  · rw [List.findSome?_append, List.findSome?_cons, hpart]
    simp

/-- **A text that is written over no compaction part changes nothing of what is read here.** -/
theorem keeps_withPart (hpart : part.compaction = none)
    (hparts : ∀ m ∈ messages, m.id = part.messageID → ∀ p ∈ m.parts, p.id = part.id →
      p.compaction = none) : Keeps (withPart part) messages where
  id m _ := withPart_id m
  isUser m _ := by rw [WithParts.isUser, withPart_info, WithParts.isUser]
  hasCompactionAnchor m hm := by
    unfold withPart
    split_ifs with hid
    · exact congrArg Option.isSome (compactionPart_upsert hpart (hparts m hm hid))
    · rfl

theorem compaction_of_not_anchor (h : m.hasCompactionAnchor = false) {p : MessageV2.Part Body}
    (hp : p ∈ m.parts) : p.compaction = none := by
  have hnone : m.compactionPart = none := Option.not_isSome_iff_eq_none.mp (Bool.eq_false_iff.mp h)
  exact List.findSome?_eq_none_iff.mp hnone p hp

theorem isSummary_withPart (m : WithParts Body) : isSummary (withPart part m) = isSummary m := by
  rw [isSummary, withPart_info, isSummary]

def withInfo (id : String) (created : ℤ) (info : Info Body) (m : WithParts Body) :
    WithParts Body :=
  if m.id = id then { m with created := created, info := info } else m

theorem withInfo_id (m : WithParts Body) : (withInfo id created info m).id = m.id := by
  unfold withInfo
  split_ifs <;> rfl

theorem withInfo_parts (m : WithParts Body) : (withInfo id created info m).parts = m.parts := by
  unfold withInfo
  split_ifs <;> rfl

theorem apply_updateMessage (messages : List (WithParts Body)) (id : String) (created : ℤ)
    (info : Info Body) :
    (id ∉ messages.map WithParts.id ∧
        (Write.updateMessage id created info).apply messages =
          messages ++ [⟨id, created, info, []⟩]) ∨
      (Write.updateMessage id created info).apply messages =
        messages.map (withInfo id created info) := by
  by_cases h : messages.any fun m => m.id = id
  · exact Or.inr (if_pos h)
  · refine Or.inl ⟨fun hmem => h ?_, if_neg h⟩
    obtain ⟨m, hm, hid⟩ := List.mem_map.mp hmem
    exact List.any_eq_true.mpr ⟨m, hm, decide_eq_true hid⟩

end Writes

/-! ### The messages of a session -/

section WellFormed

variable {messages before after : List (WithParts Body)} {m : WithParts Body} {id : String}

/-- The messages have different identifiers, and their parts are their own. -/
structure WellFormed (messages : List (WithParts Body)) : Prop where
  nodup : (messages.map WithParts.id).Nodup
  parts : ∀ m ∈ messages, HasParts m

theorem WellFormed.append (h : WellFormed messages) (hid : m.id ∉ messages.map WithParts.id)
    (hparts : HasParts m) : WellFormed (messages ++ [m]) where
  nodup := by
    rw [List.map_append, List.nodup_append]
    refine ⟨h.nodup, List.nodup_singleton _, ?_⟩
    rintro _ hm _ hm' rfl
    rw [List.map_singleton, List.mem_singleton] at hm'
    exact hid (hm' ▸ hm)
  parts m' hm' := by
    rcases List.mem_append.mp hm' with hm' | hm'
    · exact h.parts m' hm'
    · rw [List.mem_singleton.mp hm']
      exact hparts

theorem WellFormed.map (h : WellFormed messages) (hid : ∀ m ∈ messages, (f m).id = m.id)
    (hparts : ∀ m ∈ messages, HasParts (f m)) : WellFormed (messages.map f) where
  nodup := by
    have hmap : messages.map (WithParts.id ∘ f) = messages.map WithParts.id :=
      List.map_congr_left hid
    rw [List.map_map, hmap]
    exact h.nodup
  parts m hm := by
    obtain ⟨m', hm', rfl⟩ := List.mem_map.mp hm
    exact hparts m' hm'

theorem WellFormed.withPart {part : MessageV2.Part Body} (h : WellFormed messages) :
    WellFormed (messages.map (withPart part)) :=
  h.map (fun m _ => withPart_id m) fun m hm => (h.parts m hm).withPart

theorem WellFormed.filter (h : WellFormed messages) (p : WithParts Body → Bool) :
    WellFormed (messages.filter p) where
  nodup := h.nodup.sublist (List.filter_sublist.map _)
  parts m hm := h.parts m (List.mem_filter.mp hm).1

theorem WellFormed.eq (h : WellFormed messages) {m' : WithParts Body} (hm : m ∈ messages)
    (hm' : m' ∈ messages) (hid : m.id = m'.id) : m = m' :=
  List.inj_on_of_nodup_map h.nodup hm hm' hid

/-- A message that is being written is in its place, and no anchor is behind it. -/
def RowAt (messages : List (WithParts Body)) (id : String) (parts : List (MessageV2.Part Body)) :
    Prop :=
  ∃ before row after, messages = before ++ row :: after ∧ row.id = id ∧ row.parts = parts ∧
    ∀ m ∈ after, m.hasCompactionAnchor = false

theorem RowAt.mem (h : RowAt messages id parts) : id ∈ messages.map WithParts.id := by
  obtain ⟨before, row, after, rfl, rfl, -, -⟩ := h
  exact List.mem_map_of_mem (List.mem_append_right _ List.mem_cons_self)

theorem RowAt.append (h : RowAt messages id parts) (hm : m.hasCompactionAnchor = false) :
    RowAt (messages ++ [m]) id parts := by
  obtain ⟨before, row, after, rfl, hid, hparts, hafter⟩ := h
  exact ⟨before, row, after ++ [m], by simp, hid, hparts, none_append hafter hm⟩

theorem RowAt.map {parts' : List (MessageV2.Part Body)} (h : RowAt messages id parts)
    (hid : ∀ m ∈ messages, (f m).id = m.id)
    (hrow : ∀ m ∈ messages, m.id = id → m.parts = parts → (f m).parts = parts')
    (hanchor : ∀ m ∈ messages, m.id ≠ id → (f m).hasCompactionAnchor = m.hasCompactionAnchor)
    (hnodup : (messages.map WithParts.id).Nodup) : RowAt (messages.map f) id parts' := by
  obtain ⟨before, row, after, rfl, hrid, hparts, hafter⟩ := h
  have hmem : row ∈ before ++ row :: after := List.mem_append_right _ List.mem_cons_self
  refine ⟨before.map f, f row, after.map f, by simp, (hid row hmem).trans hrid,
    hrow row hmem hrid hparts, fun m hm => ?_⟩
  obtain ⟨m', hm', rfl⟩ := List.mem_map.mp hm
  have hmem' : m' ∈ before ++ row :: after :=
    List.mem_append_right _ (List.mem_cons_of_mem _ hm')
  rw [hanchor m' hmem' fun heq => ?_, hafter m' hm']
  rw [List.map_append, List.map_cons, List.nodup_append, List.nodup_cons] at hnodup
  exact hnodup.2.1.1 (hrid.trans heq.symm ▸ List.mem_map_of_mem hm')

theorem RowAt.filter (h : RowAt messages id parts) {p : WithParts Body → Bool}
    (hp : ∀ m ∈ messages, m.id = id → p m) : RowAt (messages.filter p) id parts := by
  obtain ⟨before, row, after, rfl, hid, hparts, hafter⟩ := h
  have hrow : p row := hp row (List.mem_append_right _ List.mem_cons_self) hid
  refine ⟨before.filter p, row, after.filter p, ?_, hid, hparts, fun m hm =>
    hafter m (List.mem_filter.mp hm).1⟩
  rw [List.filter_append, List.filter_cons_of_pos hrow]

end WellFormed

/-! ### What holds of an enrichment -/

section Invariant

variable {old : String → Prop} {messages before after : List (WithParts Body)}
  {m : WithParts Body} {phase phase' : Phase} {compaction : List (Write Body)} {id : String}
  {anchorsTodemote : List (WithParts Body)} {narrativeAnchorId : String}
  {narrativeContent : List String} {anchors : List (WithParts Body)} {stub : Option String}

/-- A change of messages that leaves who wrote them. -/
structure SameHeads (f : WithParts Body → WithParts Body) (messages : List (WithParts Body)) :
    Prop where
  id : ∀ m ∈ messages, (f m).id = m.id
  isUser : ∀ m ∈ messages, (f m).isUser = m.isUser

theorem Keeps.sameHeads (hf : Keeps f messages) : SameHeads f messages := ⟨hf.id, hf.isUser⟩

/-- The anchors whose marks are taken away are messages of assistants, and so is what has their
identifiers. -/
def Assistants (messages anchors : List (WithParts Body)) : Prop :=
  ∀ a ∈ anchors, a.isUser = false ∧ ∀ m ∈ messages, m.id = a.id → m.isUser = false

def StubAt (messages : List (WithParts Body)) (narrativeAnchorId id : String) : Prop :=
  id ≠ narrativeAnchorId ∧ ∃ before stub after, messages = before ++ stub :: after ∧
    stub.id = id ∧ isSummary stub ∧ stub.hasCompactionAnchor = false ∧
    ∀ m ∈ after, m.id ≠ narrativeAnchorId

/-- What an enrichment knows is so: what the anchor holds was given to the model, and what is to be
written into the anchor is a summary of what it holds. -/
def PhaseInv (messages : List (WithParts Body)) : Phase → Prop
  | .compressing narrativeAnchorId narrativeContent anchorsTodemote stub =>
    (∀ m ∈ messages, m.id = narrativeAnchorId → ∀ id ∈ textBody m, id ∈ narrativeContent) ∧
      Assistants messages anchorsTodemote ∧
      ∀ id, stub = some id → StubAt messages narrativeAnchorId id
  | .upgrading part stubMsg anchorsTodemote =>
    (∃ compactionReplay text, part.body = .text compactionReplay text ∧
        ∀ m ∈ messages, m.id = part.messageID →
          (∀ p ∈ m.parts, p.id = part.id → p.compaction = none) ∧
            ∀ id ∈ textBody m, id ∈ text.covers) ∧
      Assistants messages (stubMsg :: anchorsTodemote)
  | .demotingStub stubMsg anchorsTodemote => Assistants messages (stubMsg :: anchorsTodemote)
  | .demotingOld anchorsTodemote => Assistants messages anchorsTodemote
  | .scheduled => True
  | .ended => True

/-- **An anchor of which some writes are done** is a summary of all that is to be kept. Neither it
nor the message that is removed is one of the enrichment, except that the anchor that is enriched
may be removed. -/
structure Writing (old : String → Prop) (messages : List (WithParts Body)) (phase : Phase)
    (draft : AnchorDraft Body) (prev : Option (WithParts Body)) (n : ℕ) : Prop where
  fresh : draft.id ∉ phase.ids
  parts : draft.textPartID ≠ draft.compactionPartID
  covers : ∀ id, old id → id ∈ draft.body.covers
  prev : ∀ p ∈ prev, p.id ≠ draft.id ∧ phase.stub ≠ some p.id
  absent : n = 0 → draft.id ∉ messages.map WithParts.id
  row : 0 < n → RowAt messages draft.id (draft.message.parts.take (n - 1))

def Pending (old : String → Prop) (messages : List (WithParts Body)) (phase : Phase)
    (compaction : List (Write Body)) : Prop :=
  compaction = [] ∨ ∃ draft prev n, n ≤ 3 ∧ compaction = (anchorWrites draft prev).drop n ∧
    Writing old messages phase draft prev n

/-- **The invariant**: what is to be kept is kept. -/
structure Inv (old : String → Prop) (s : State) : Prop where
  wellFormed : WellFormed s.messages
  kept : ∀ id, old id → Retained s.messages id
  phase : PhaseInv s.messages s.phase
  pending : Pending old s.messages s.phase s.compaction

theorem Assistants.append (h : Assistants messages anchors)
    (hm : m.isUser = false ∨ m.id ∉ anchors.map WithParts.id) :
    Assistants (messages ++ [m]) anchors := by
  refine fun a ha => ⟨(h a ha).1, fun m' hm' hid => ?_⟩
  rcases List.mem_append.mp hm' with hm' | hm'
  · exact (h a ha).2 m' hm' hid
  · obtain rfl := List.mem_singleton.mp hm'
    refine hm.resolve_right fun hnot => hnot ?_
    exact hid ▸ List.mem_map_of_mem ha

theorem Assistants.map (h : Assistants messages anchors) (hf : SameHeads f messages) :
    Assistants (messages.map f) anchors := by
  refine fun a ha => ⟨(h a ha).1, fun m hm hid => ?_⟩
  obtain ⟨m', hm', rfl⟩ := List.mem_map.mp hm
  rw [hf.isUser m' hm']
  exact (h a ha).2 m' hm' ((hf.id m' hm').symm.trans hid)

theorem Assistants.mono {anchors' messages' : List (WithParts Body)}
    (h : Assistants messages anchors) (hmessages : ∀ m ∈ messages', m ∈ messages)
    (hanchors : ∀ a ∈ anchors', a ∈ anchors) : Assistants messages' anchors' :=
  fun a ha => ⟨(h a (hanchors a ha)).1, fun m hm => (h a (hanchors a ha)).2 m (hmessages m hm)⟩

/-! ### Messages that come, change and go -/

theorem PhaseInv.append (h : PhaseInv messages phase) (hm : m.id ∉ phase.ids) :
    PhaseInv (messages ++ [m]) phase := by
  have hlast : ∀ m' ∈ messages ++ [m], m' ∈ messages ∨ m' = m := by
    intro m' hm'
    exact (List.mem_append.mp hm').imp_right List.mem_singleton.mp
  cases phase with
  | scheduled => trivial
  | ended => trivial
  | compressing narrativeAnchorId narrativeContent anchorsTodemote stub =>
    simp only [Phase.ids, List.mem_cons, List.mem_append, not_or, List.cons_append] at hm
    obtain ⟨hcontent, hassistants, hstub⟩ := h
    refine ⟨fun m' hm' hid => ?_, hassistants.append (Or.inr hm.2.2), fun id hid => ?_⟩
    · rcases hlast m' hm' with hm' | rfl
      · exact hcontent m' hm' hid
      · exact absurd hid hm.1
    · obtain ⟨hne, before, st, after, rfl, hst, hsummary, hanchor, hafter⟩ := hstub id hid
      refine ⟨hne, before, st, after ++ [m], by simp, hst, hsummary, hanchor, fun m' hm' => ?_⟩
      rcases List.mem_append.mp hm' with hm' | hm'
      · exact hafter m' hm'
      · rw [List.mem_singleton.mp hm']
        exact hm.1
  | upgrading part stubMsg anchorsTodemote =>
    simp only [Phase.ids, List.mem_cons, not_or] at hm
    obtain ⟨⟨flag, text, hbody, hpart⟩, hassistants⟩ := h
    refine ⟨⟨flag, text, hbody, fun m' hm' hid => ?_⟩, hassistants.append (Or.inr ?_)⟩
    · rcases hlast m' hm' with hm' | rfl
      · exact hpart m' hm' hid
      · exact absurd hid hm.1
    · rw [List.map_cons, List.mem_cons, not_or]
      exact hm.2
  | demotingStub stubMsg anchorsTodemote => exact Assistants.append h (Or.inr hm)
  | demotingOld anchorsTodemote => exact Assistants.append h (Or.inr hm)

theorem PhaseInv.map (h : PhaseInv messages phase) (hf : SameHeads f messages)
    (hanchor : ∀ m ∈ messages, m.id ∈ phase.ids → isSummary (f m) = isSummary m ∧
      (f m).hasCompactionAnchor = m.hasCompactionAnchor)
    (hparts : ∀ m ∈ messages, m.id ∈ phase.ids → phase.stub ≠ some m.id → (f m).parts = m.parts) :
    PhaseInv (messages.map f) phase := by
  have htext : ∀ m ∈ messages, m.id ∈ phase.ids → phase.stub ≠ some m.id →
      textBody (f m) = textBody m := by
    intro m hm hid hstub
    rw [textBody, hparts m hm hid hstub, textBody]
  cases phase with
  | scheduled => trivial
  | ended => trivial
  | compressing narrativeAnchorId narrativeContent anchorsTodemote stub =>
    obtain ⟨hcontent, hassistants, hstub⟩ := h
    refine ⟨fun m hm hid => ?_, hassistants.map hf, fun id hid => ?_⟩
    · obtain ⟨m', hm', rfl⟩ := List.mem_map.mp hm
      rw [hf.id m' hm'] at hid
      rw [htext m' hm' (by simp [Phase.ids, hid]) fun hsome => ?_]
      · exact hcontent m' hm' hid
      · exact (hstub _ hsome).1 hid
    · obtain ⟨hne, before, st, after, rfl, hst, hsum, hstAnchor, hafter⟩ := hstub id hid
      have hmem : st ∈ before ++ st :: after := List.mem_append_right _ List.mem_cons_self
      have hids := hanchor st hmem (by simp [Phase.ids, hst, hid])
      refine ⟨hne, before.map f, f st, after.map f, by simp, (hf.id st hmem).trans hst,
        hids.1.trans hsum, hids.2.trans hstAnchor, fun m hm => ?_⟩
      obtain ⟨m', hm', rfl⟩ := List.mem_map.mp hm
      rw [hf.id m' (List.mem_append_right _ (List.mem_cons_of_mem _ hm'))]
      exact hafter m' hm'
  | upgrading part stubMsg anchorsTodemote =>
    obtain ⟨⟨flag, text, hbody, hpart⟩, hassistants⟩ := h
    refine ⟨⟨flag, text, hbody, fun m hm hid => ?_⟩, hassistants.map hf⟩
    obtain ⟨m', hm', rfl⟩ := List.mem_map.mp hm
    rw [hf.id m' hm'] at hid
    have hids : m'.id ∈ (Phase.upgrading part stubMsg anchorsTodemote).ids := by
      simp [Phase.ids, hid]
    have hnone : (Phase.upgrading part stubMsg anchorsTodemote).stub ≠ some m'.id :=
      (Option.some_ne_none _).symm
    rw [hparts m' hm' hids hnone, htext m' hm' hids hnone]
    exact hpart m' hm' hid
  | demotingStub stubMsg anchorsTodemote => exact Assistants.map h hf
  | demotingOld anchorsTodemote => exact Assistants.map h hf

theorem PhaseInv.remove (h : PhaseInv messages phase) (hid : phase.stub ≠ some id) :
    PhaseInv (messages.filter fun m => m.id ≠ id) phase := by
  have hsub : ∀ m ∈ messages.filter (fun m => m.id ≠ id), m ∈ messages := fun m hm =>
    (List.mem_filter.mp hm).1
  cases phase with
  | scheduled => trivial
  | ended => trivial
  | compressing narrativeAnchorId narrativeContent anchorsTodemote stub =>
    obtain ⟨hcontent, hassistants, hstub⟩ := h
    refine ⟨fun m hm => hcontent m (hsub m hm), hassistants.mono hsub fun a ha => ha,
      fun sid hsid => ?_⟩
    obtain ⟨hne, before, st, after, rfl, hst, hsum, hanchor, hafter⟩ := hstub sid hsid
    refine ⟨hne, before.filter fun m => m.id ≠ id, st, after.filter fun m => m.id ≠ id, ?_, hst,
      hsum, hanchor, fun m hm => hafter m (List.mem_filter.mp hm).1⟩
    rw [List.filter_append, List.filter_cons_of_pos]
    refine decide_eq_true fun heq => hid ?_
    rw [← heq, hst]
    exact hsid
  | upgrading part stubMsg anchorsTodemote =>
    obtain ⟨⟨flag, text, hbody, hpart⟩, hassistants⟩ := h
    exact ⟨⟨flag, text, hbody, fun m hm => hpart m (hsub m hm)⟩,
      hassistants.mono hsub fun a ha => ha⟩
  | demotingStub stubMsg anchorsTodemote => exact Assistants.mono h hsub fun a ha => ha
  | demotingOld anchorsTodemote => exact Assistants.mono h hsub fun a ha => ha

theorem Pending.append (h : Pending old messages phase compaction)
    (hm : m.hasCompactionAnchor = false)
    (hid : m.id ∈ phase.ids ∨ m.id ∉ compaction.map Write.target) :
    Pending old (messages ++ [m]) phase compaction := by
  refine h.imp_right ?_
  rintro ⟨draft, prev, n, hn, rfl, hphase, hparts, hcovers, hprev, hnew, hrow⟩
  refine ⟨draft, prev, n, hn, rfl, hphase, hparts, hcovers, hprev, fun hzero hmem => ?_,
    fun hpos => (hrow hpos).append hm⟩
  rw [List.map_append, List.mem_append, List.map_singleton, List.mem_singleton] at hmem
  have heq := hmem.resolve_left (hnew hzero)
  rcases hid with hid | hid
  · exact hphase (heq ▸ hid)
  · subst hzero
    exact hid (heq ▸ List.mem_cons_self)

theorem Pending.map (h : Pending old messages phase compaction) (hwf : WellFormed messages)
    (hf : SameHeads f messages)
    (hanchor : ∀ m ∈ messages, (f m).hasCompactionAnchor = m.hasCompactionAnchor)
    (hparts : ∀ m ∈ messages, m.id ∉ phase.ids → (f m).parts = m.parts) :
    Pending old (messages.map f) phase compaction := by
  refine h.imp_right ?_
  rintro ⟨draft, prev, n, hn, rfl, hphase, hids, hcovers, hprev, hnew, hrow⟩
  refine ⟨draft, prev, n, hn, rfl, hphase, hids, hcovers, hprev, fun hzero hmem => ?_,
    fun hpos => ?_⟩
  · obtain ⟨m, hm, hid⟩ := List.mem_map.mp hmem
    obtain ⟨m', hm', rfl⟩ := List.mem_map.mp hm
    rw [hf.id m' hm'] at hid
    exact hnew hzero (hid ▸ List.mem_map_of_mem hm')
  · refine (hrow hpos).map hf.id (fun m hm hid heq => ?_) (fun m hm _ => hanchor m hm) hwf.nodup
    rw [hparts m hm (hid ▸ hphase), heq]

theorem Pending.forget (h : Pending old messages phase compaction)
    (hids : ∀ id ∈ phase'.ids, id ∈ phase.ids) (hstub : phase'.stub = none) :
    Pending old messages phase' compaction := by
  refine h.imp_right ?_
  rintro ⟨draft, prev, n, hn, rfl, hphase, hparts, hcovers, hprev, hnew, hrow⟩
  refine ⟨draft, prev, n, hn, rfl, fun hid => hphase (hids _ hid), hparts, hcovers,
    fun p hp => ⟨(hprev p hp).1, ?_⟩, hnew, hrow⟩
  rw [hstub]
  exact (Option.some_ne_none _).symm

theorem target_of_prev {draft : AnchorDraft Body} {prev : WithParts Body} {n : ℕ} (hn : n ≤ 3) :
    prev.id ∈ ((anchorWrites draft (some prev)).drop n).map Write.target := by
  have happend : anchorWrites draft (some prev) =
      anchorWrites draft none ++ [.removeMessage prev.id] := rfl
  rw [happend, List.drop_append_of_le_length hn, List.map_append]
  exact List.mem_append_right _ (List.mem_singleton_self _)

theorem Pending.withStub
    (h : Pending old messages
      (.compressing narrativeAnchorId narrativeContent anchorsTodemote stub) compaction)
    (hmessages : id ∉ messages.map WithParts.id) (htargets : id ∉ compaction.map Write.target) :
    Pending old messages
      (.compressing narrativeAnchorId narrativeContent anchorsTodemote (some id)) compaction := by
  refine h.imp_right ?_
  rintro ⟨draft, prev, n, hn, rfl, hphase, hparts, hcovers, hprev, hnew, hrow⟩
  have hne : draft.id ≠ id := by
    rintro rfl
    rcases Nat.eq_zero_or_pos n with rfl | hpos
    · exact htargets List.mem_cons_self
    · exact hmessages (hrow hpos).mem
  refine ⟨draft, prev, n, hn, rfl, fun hid => ?_, hparts, hcovers,
    fun p hp => ⟨(hprev p hp).1, fun hid => ?_⟩, hnew, hrow⟩
  · simp only [Phase.ids, List.cons_append, List.mem_cons, List.mem_append, Option.toList_some,
      List.not_mem_nil, false_or, not_or] at hid hphase
    rcases hid with hid | hid | hid
    · exact hphase.1 hid
    · exact hne hid
    · exact hphase.2.2 hid
  · obtain rfl : prev = some p := hp
    rw [Phase.stub, Option.some_inj] at hid
    exact htargets (hid ▸ target_of_prev hn)

/-! ### The steps of the enrichment -/

variable {s : State}

theorem Inv.append (h : Inv old s) (hid : m.id ∉ s.ids) (hm : m.hasCompactionAnchor = false)
    (hparts : HasParts m) : Inv old { s with messages := s.messages ++ [m] } := by
  rw [State.ids, List.mem_append, not_or, List.mem_append, not_or] at hid
  exact ⟨h.wellFormed.append hid.1 hparts, fun id hold => (h.kept id hold).append hm,
    h.phase.append hid.2.1, h.pending.append hm (Or.inr hid.2.2)⟩

theorem Inv.starts (h : Inv old s) (hs : s.compaction = []) {defensiveInputCharCap : ℕ}
    (hfits : ∀ anchor ∈ getAnchorMessage s.messages,
      (textBody anchor).length ≤ defensiveInputCharCap) (enrich : Bool) :
    Inv old { s with phase := begin s.messages enrich defensiveInputCharCap } := by
  refine ⟨h.wellFormed, h.kept, ?_, Or.inl hs⟩
  unfold begin
  cases hanchor : getAnchorMessage s.messages with
  | none => trivial
  | some narrativeAnchorMsg =>
    cases enrich with
    | false => trivial
    | true =>
      have hmem := (getAnchorMessage_eq_some hanchor).1
      refine ⟨fun m hm hid => ?_, fun a ha => ?_, fun id hid => by cases hid⟩
      · rw [h.wellFormed.eq hm hmem hid, clamp, Nat.sub_eq_zero_of_le (hfits _ hanchor),
          List.drop_zero]
        exact fun id hid => hid
      · have ha' := List.mem_filter.mp (List.mem_of_mem_dropLast ha)
        have huser := isUser_of_isSummary ha'.2
        exact ⟨huser, fun m hm hid => h.wellFormed.eq hm ha'.1 hid ▸ huser⟩

theorem hasParts_row : HasParts ⟨id, created, info, []⟩ :=
  ⟨List.nodup_nil, fun _ hp => by cases hp⟩

theorem not_anchor_row :
    (⟨id, created, info, []⟩ : WithParts Body).hasCompactionAnchor = false := rfl

theorem Inv.writesStub (h : Inv old s)
    (hphase : s.phase = .compressing narrativeAnchorId narrativeContent anchorsTodemote stub)
    (hid : id ∉ s.ids) (created : ℤ) (rest : Body) :
    Inv old { s with
      messages := (Write.updateMessage id created (.assistant none true rest)).apply s.messages
      phase := .compressing narrativeAnchorId narrativeContent anchorsTodemote (some id) } := by
  have hids := hid
  rw [State.ids, List.mem_append, not_or, List.mem_append, not_or] at hids
  obtain ⟨hmessages, hphaseIds, htargets⟩ := hids
  have hpending := (hphase ▸ h.pending).withStub hmessages htargets
  let row : WithParts Body := ⟨id, created, .assistant none true rest, []⟩
  have happly : (Write.updateMessage id created (.assistant none true rest)).apply s.messages =
      s.messages ++ [row] := by
    refine if_neg fun hany => hmessages ?_
    obtain ⟨m, hm, heq⟩ := List.any_eq_true.mp hany
    exact of_decide_eq_true heq ▸ List.mem_map_of_mem hm
  have happend : Inv old { s with messages := s.messages ++ [row] } :=
    h.append hid not_anchor_row hasParts_row
  rw [hphase] at hphaseIds
  simp only [Phase.ids, List.cons_append, List.mem_cons, List.mem_append, not_or] at hphaseIds
  obtain ⟨hcontent, hassistants, -⟩ := hphase ▸ happend.phase
  simp only [happly]
  refine ⟨happend.wellFormed, happend.kept, ⟨hcontent, hassistants, fun id' hid' => ?_⟩, ?_⟩
  · cases hid'
    exact ⟨hphaseIds.1, s.messages, row, [], rfl, rfl, rfl, rfl, fun m hm => by cases hm⟩
  · exact hpending.append not_anchor_row (Or.inr htargets)

theorem Inv.streams (h : Inv old s) {stub : String}
    (hphase : s.phase = .compressing narrativeAnchorId narrativeContent anchorsTodemote (some stub))
    (partID : String) (text : Body) :
    Inv old { s with
      messages := (Write.updatePart ⟨partID, stub, .text false text⟩).apply s.messages } := by
  obtain ⟨-, -, hstub⟩ := hphase ▸ h.phase
  obtain ⟨-, before, st, after, hmessages, hst, -, hanchor, -⟩ := hstub stub rfl
  have hmem : st ∈ s.messages := by
    rw [hmessages]
    exact List.mem_append_right _ List.mem_cons_self
  have heq : ∀ m ∈ s.messages, m.id = stub → m = st := fun m hm hid =>
    h.wellFormed.eq hm hmem (hid.trans hst.symm)
  have hkeeps : Keeps (withPart ⟨partID, stub, .text false text⟩) s.messages := by
    refine keeps_withPart rfl fun m hm hid p hp _ => ?_
    obtain rfl := heq m hm hid
    exact compaction_of_not_anchor hanchor hp
  have hother : ∀ m : WithParts Body, m.id ≠ stub →
      withPart ⟨partID, stub, .text false text⟩ m = m := fun m hid => withPart_of_ne hid
  rw [apply_updatePart]
  refine ⟨h.wellFormed.withPart,
    fun id hold => (h.kept id hold).map hkeeps (fun m hm hplain => ?_) fun m hm hm' id hid => ?_,
    h.phase.map hkeeps.sameHeads
      (fun m hm _ => ⟨isSummary_withPart m, hkeeps.hasCompactionAnchor m hm⟩)
      fun m _ _ hid => ?_,
    h.pending.map h.wellFormed hkeeps.sameHeads (fun m hm => hkeeps.hasCompactionAnchor m hm)
      fun m _ hid => ?_⟩
  · rw [isPlain, isSummary_withPart, hkeeps.hasCompactionAnchor m hm]
    exact hplain
  · rw [hother m fun hid => ?_]
    · exact hid
    · rw [heq m hm hid, hanchor] at hm'
      cases hm'
  · rw [hphase, Phase.stub, ne_eq, Option.some_inj] at hid
    rw [hother m (Ne.symm hid)]
  · rw [hother m fun heq => hid ?_]
    rw [hphase, heq]
    simp [Phase.ids]

theorem own_of_not_between {st stubMsg : WithParts Body} {rest : List (WithParts Body)}
    (hlast : lastMatch isSummary (before ++ st :: after) = some (stubMsg, rest))
    (hst : isSummary st) (hnarrative : ∃ m ∈ before, m.id = narrativeAnchorId)
    (hbetween : ¬(((before ++ st :: after).take
      ((before ++ st :: after).length - (rest.length + 1))).drop
      ((before ++ st :: after).findIdx (fun m => m.id = narrativeAnchorId) + 1)).any isSummary) :
    stubMsg = st := by
  have hidx : (before ++ st :: after).findIdx (fun m => m.id = narrativeAnchorId) <
      before.length := by
    have hlt : before.findIdx (fun m => m.id = narrativeAnchorId) < before.length :=
      List.findIdx_lt_length.mpr (by simpa using hnarrative)
    rw [List.findIdx_append, if_pos hlt]
    exact hlt
  rw [lastMatch_append, lastMatch, if_pos hst] at hlast
  cases hafter : lastMatch isSummary after with
  | none =>
    rw [hafter] at hlast
    exact (congrArg Prod.fst (Option.some.inj hlast)).symm
  | some found =>
    rw [hafter] at hlast
    obtain rfl : found = (stubMsg, rest) := Option.some.inj hlast
    -- then the stub is itself between them
    obtain ⟨between, rfl, -, -⟩ := lastMatch_eq_some.mp hafter
    refine absurd (List.any_eq_true.mpr ⟨st, ?_, hst⟩) hbetween
    have hlength : (before ++ st :: (between ++ stubMsg :: rest)).length - (rest.length + 1) =
        (before ++ st :: between).length := by
      simp only [List.length_append, List.length_cons]
      omega
    have htake : (before ++ st :: (between ++ stubMsg :: rest)).take
        (before ++ st :: between).length = before ++ st :: between := by
      have happend : before ++ st :: (between ++ stubMsg :: rest) =
          (before ++ st :: between) ++ stubMsg :: rest := by simp
      rw [happend, List.take_left']
      rfl
    rw [hlength, htake, List.drop_append_of_le_length hidx]
    exact List.mem_append_right _ List.mem_cons_self

/-- **What an enrichment writes is what was streamed into its own stub**, or it writes nothing. -/
theorem upgrade_cases {stub : String} (hstub : StubAt messages narrativeAnchorId stub)
    (anchorsTodemote : List (WithParts Body)) :
    upgrade messages narrativeAnchorId anchorsTodemote = .ended ∨
      ∃ stubMsg ∈ messages, ∃ narrativeFresh ∈ messages, ∃ p ∈ narrativeFresh.parts,
        stubMsg.id = stub ∧ isSummary stubMsg ∧ narrativeFresh.id = narrativeAnchorId ∧ isText p ∧
          upgrade messages narrativeAnchorId anchorsTodemote =
            .upgrading (withText p ⟨textBody stubMsg, false⟩) stubMsg anchorsTodemote := by
  obtain ⟨hne, before, st, after, rfl, hst, hsummary, -, hafter⟩ := hstub
  have hstMem : st ∈ before ++ st :: after := List.mem_append_right _ List.mem_cons_self
  unfold upgrade
  cases hlast : lastMatch isSummary (before ++ st :: after) with
  | none => exact Or.inl rfl
  | some found =>
    obtain ⟨stubMsg, rest⟩ := found
    simp only
    by_cases hsame : stubMsg.id = narrativeAnchorId
    · rw [if_pos hsame]
      exact Or.inl rfl
    rw [if_neg hsame]
    cases hfresh : (before ++ st :: after)[(before ++ st :: after).findIdx fun m =>
        m.id = narrativeAnchorId]? with
    | none => exact Or.inl rfl
    | some narrativeFresh =>
      have hid : narrativeFresh.id = narrativeAnchorId := by
        simpa using List.findIdx_of_getElem?_eq_some hfresh
      have hmem := List.mem_of_getElem? hfresh
      have hbefore : narrativeFresh ∈ before := by
        refine (List.mem_append.mp hmem).resolve_right fun hmem => ?_
        rcases List.mem_cons.mp hmem with rfl | hmem
        · exact hne (hst.symm.trans hid)
        · exact hafter _ hmem hid
      simp only
      by_cases hbetween : (((before ++ st :: after).take
          ((before ++ st :: after).length - (rest.length + 1))).drop
          ((before ++ st :: after).findIdx (fun m => m.id = narrativeAnchorId) + 1)).any isSummary
      · rw [if_pos hbetween]
        exact Or.inl rfl
      rw [if_neg hbetween]
      by_cases hblank : isBlank stubMsg
      · rw [if_pos hblank]
        exact Or.inl rfl
      rw [if_neg hblank]
      cases hfind : narrativeFresh.parts.find? isText with
      | none => exact Or.inl rfl
      | some p =>
        obtain rfl := own_of_not_between hlast hsummary ⟨_, hbefore, hid⟩ hbetween
        exact Or.inr ⟨_, hstMem, narrativeFresh, hmem, p, List.mem_of_find?_eq_some hfind, hst,
          hsummary, hid, List.find?_some hfind, rfl⟩

theorem withText_eq {p : MessageV2.Part Body} (hp : isText p) (text : Body) :
    (withText p text).id = p.id ∧ (withText p text).messageID = p.messageID ∧
      p.compaction = none ∧ ∃ compactionReplay, (withText p text).body =
        .text compactionReplay text := by
  unfold isText at hp
  unfold withText MessageV2.Part.compaction
  cases hbody : p.body with
  | text compactionReplay rest => exact ⟨rfl, rfl, rfl, compactionReplay, rfl⟩
  | compaction rawTailProjection rest | compactionRequest rest | other rest =>
    rw [hbody] at hp; cases hp

theorem Inv.returns (h : Inv old s)
    (hphase : s.phase = .compressing narrativeAnchorId narrativeContent anchorsTodemote stub)
    {success : Bool}
    (hsuccess : success = true → ∃ m ∈ s.messages, stub = some m.id ∧
      ∀ id ∈ narrativeContent, id ∈ textBody m) :
    Inv old { s with phase :=
      if success then upgrade s.messages narrativeAnchorId anchorsTodemote else .ended } := by
  have hended : Inv old { s with phase := .ended } :=
    ⟨h.wellFormed, h.kept, trivial, h.pending.forget (fun id hid => by cases hid) rfl⟩
  cases success with
  | false => exact hended
  | true =>
    obtain ⟨m, hm, rfl, hcovers⟩ := hsuccess rfl
    obtain ⟨hcontent, hassistants, hstub⟩ := hphase ▸ h.phase
    rw [if_pos rfl]
    rcases upgrade_cases (hstub m.id rfl) anchorsTodemote with hupgrade |
      ⟨stubMsg, hstubMsg, narrativeFresh, hfresh, p, hp, hid, hsummary, rfl, htext, hupgrade⟩
    · rw [hupgrade]
      exact hended
    obtain rfl := h.wellFormed.eq hstubMsg hm hid
    obtain ⟨hpid, hpmessage, hcompaction, compactionReplay, hbody⟩ :=
      withText_eq htext ⟨textBody stubMsg, false⟩
    have hmessage := hpmessage.trans ((h.wellFormed.parts narrativeFresh hfresh).2 p hp)
    rw [hupgrade]
    refine ⟨h.wellFormed, h.kept, ⟨⟨compactionReplay, _, hbody, fun m hm hmid => ?_⟩, ?_⟩,
      h.pending.forget (fun id hid => ?_) rfl⟩
    · obtain rfl := h.wellFormed.eq hm hfresh (hmid.trans hmessage)
      refine ⟨fun q hq hqid => ?_, fun id hid => hcovers id (hcontent m hm rfl id hid)⟩
      obtain rfl := List.inj_on_of_nodup_map (h.wellFormed.parts m hm).1 hq hp (hqid.trans hpid)
      exact hcompaction
    · refine fun a ha => ?_
      rcases List.mem_cons.mp ha with rfl | ha
      · have huser := isUser_of_isSummary hsummary
        exact ⟨huser, fun m' hm' heq => h.wellFormed.eq hm' hm heq ▸ huser⟩
      · exact hassistants a ha
    · rw [hphase]
      simp only [Phase.ids, hmessage] at hid ⊢
      simpa using hid

theorem Inv.writesText (h : Inv old s) {part : MessageV2.Part Body} {stubMsg : WithParts Body}
    (hphase : s.phase = .upgrading part stubMsg anchorsTodemote) :
    Inv old { s with
      messages := (Write.updatePart part).apply s.messages
      phase := .demotingStub stubMsg anchorsTodemote } := by
  obtain ⟨⟨compactionReplay, text, hbody, hpart⟩, hassistants⟩ := hphase ▸ h.phase
  have hkeeps : Keeps (withPart part) s.messages := by
    refine keeps_withPart (by rw [MessageV2.Part.compaction, hbody]) fun m hm hid p hp hpid => ?_
    exact (hpart m hm hid).1 p hp hpid
  have hpending : Pending old (s.messages.map (withPart part)) s.phase s.compaction := by
    refine h.pending.map h.wellFormed hkeeps.sameHeads
      (fun m hm => hkeeps.hasCompactionAnchor m hm) fun m _ hid => ?_
    rw [withPart_of_ne fun heq => hid ?_]
    rw [hphase, heq]
    exact List.mem_cons_self
  rw [apply_updatePart]
  refine ⟨h.wellFormed.withPart,
    fun id hold => (h.kept id hold).map hkeeps (fun m hm hplain => ?_) fun m hm _ id hid => ?_,
    hassistants.map hkeeps.sameHeads, hpending.forget (fun id hid => ?_) rfl⟩
  · rw [isPlain, isSummary_withPart, hkeeps.hasCompactionAnchor m hm]
    exact hplain
  · by_cases hmid : m.id = part.messageID
    · -- the new text is a summary of the old one
      rw [textBody, withPart, if_pos hmid, List.mem_flatMap]
      refine ⟨part, mem_upsertPart, ?_⟩
      rw [hbody]
      exact (hpart m hm hmid).2 id hid
    · rw [withPart_of_ne hmid]
      exact hid
  · rw [hphase]
    exact List.mem_cons_of_mem _ hid

theorem isSummary_unmarked : isSummary ⟨id, created, unmarked info, parts⟩ = false := by
  cases info <;> rfl

theorem Inv.demotes (h : Inv old s) {a : WithParts Body}
    (hassistants : Assistants s.messages (a :: anchors))
    (hids : ∀ id ∈ (a :: anchors).map WithParts.id, id ∈ s.phase.ids) :
    Inv old { s with messages := (demote a).apply s.messages, phase := .demotingOld anchors } := by
  have hrest : Assistants s.messages anchors :=
    hassistants.mono (fun m hm => hm) fun a ha => List.mem_cons_of_mem _ ha
  obtain ⟨hauser, hsame⟩ := hassistants a List.mem_cons_self
  have huser : ∀ parts, (⟨a.id, a.created, unmarked a.info, parts⟩ : WithParts Body).isUser =
      false := by
    intro parts
    rw [← hauser, WithParts.isUser, WithParts.isUser]
    cases a.info <;> rfl
  have hforget : ∀ id ∈ (Phase.demotingOld anchors).ids, id ∈ s.phase.ids := fun id hid =>
    hids id (List.mem_cons_of_mem _ hid)
  rcases apply_updateMessage s.messages a.id a.created (unmarked a.info) with
    ⟨hnew, happly⟩ | happly
  · rw [demote, happly]
    exact ⟨h.wellFormed.append hnew hasParts_row,
      fun id hold => (h.kept id hold).append not_anchor_row, hrest.append (Or.inl (huser [])),
      (h.pending.append not_anchor_row (Or.inl (hids a.id List.mem_cons_self))).forget hforget rfl⟩
  · have hkeeps : Keeps (withInfo a.id a.created (unmarked a.info)) s.messages := by
      refine ⟨fun m _ => withInfo_id m, fun m hm => ?_, fun m _ => ?_⟩
      · unfold withInfo
        split_ifs with hid
        · rw [hsame m hm hid]
          exact huser m.parts
        · rfl
      · rw [WithParts.hasCompactionAnchor, WithParts.compactionPart, withInfo_parts]
        rfl
    rw [demote, happly]
    refine ⟨h.wellFormed.map (fun m _ => withInfo_id m) fun m hm => ?_,
      fun id hold => (h.kept id hold).map hkeeps (fun m hm hplain => ?_) fun m hm _ id hid => ?_,
      hrest.map hkeeps.sameHeads,
      (h.pending.map h.wellFormed hkeeps.sameHeads (fun m hm => hkeeps.hasCompactionAnchor m hm)
        fun m _ _ => withInfo_parts m).forget hforget rfl⟩
    · rw [HasParts, withInfo_parts, withInfo_id]
      exact h.wellFormed.parts m hm
    · rw [isPlain, Bool.and_eq_true] at hplain ⊢
      refine ⟨?_, by rw [hkeeps.hasCompactionAnchor m hm]; exact hplain.2⟩
      unfold withInfo
      split_ifs
      · rw [isSummary_unmarked]
        rfl
      · exact hplain.1
    · rw [textBody, withInfo_parts]
      exact hid

theorem Inv.write (h : Inv old s) (fails : Bool) : Inv old (s.write fails) := by
  have hended : Inv old { s with phase := .ended } :=
    ⟨h.wellFormed, h.kept, trivial, h.pending.forget (fun id hid => by cases hid) rfl⟩
  have hinv := h.phase
  unfold State.write
  cases hphase : s.phase with
  | scheduled | ended | compressing narrativeAnchorId narrativeContent anchorsTodemote stub =>
    exact h
  | upgrading part stubMsg anchorsTodemote =>
    cases fails with
    | true => exact hended
    | false => exact h.writesText hphase
  | demotingStub stubMsg anchorsTodemote =>
    cases fails with
    | true => exact hended
    | false =>
      rw [hphase] at hinv
      exact h.demotes hinv fun id hid => hphase ▸ hid
  | demotingOld anchorsTodemote =>
    rw [hphase] at hinv
    cases anchorsTodemote with
    | nil => exact hended
    | cons a anchors =>
      cases fails with
      | false => exact h.demotes hinv fun id hid => hphase ▸ hid
      | true =>
        refine ⟨h.wellFormed, h.kept, Assistants.mono hinv (fun m hm => hm)
          fun a ha => List.mem_cons_of_mem _ ha, h.pending.forget (fun id hid => ?_) rfl⟩
        rw [hphase]
        exact List.mem_cons_of_mem _ hid

/-! ### The steps of another compaction -/

/-- **A new anchor is a summary of all that is kept**, if it is one of the anchor that is shown and
of what is behind it. -/
theorem covers_of_retained {draft : AnchorDraft Body} (hwf : WellFormed messages)
    (hprev : getAnchorMessage messages = activeAnchor messages)
    (hcovers : ∀ id ∈ toSummarise messages, id ∈ draft.body.covers)
    (hkept : Retained messages id) : id ∈ draft.body.covers := by
  rcases anchor_cases messages with hnone | ⟨before, anchor, after, rfl, hanchor, hafter⟩
  · rw [activeAnchor_of_none hnone, getAnchorMessage, Option.map_eq_none_iff] at hprev
    rw [toSummarise, hprev] at hcovers
    obtain ⟨m, hm, rfl, -⟩ := (retained_of_none hnone).mp hkept
    exact hcovers m.id (List.mem_map_of_mem hm)
  · rw [activeAnchor_of_anchor hanchor hafter] at hprev
    obtain ⟨⟨found, behind⟩, hfound, rfl⟩ := Option.map_eq_some_iff.mp hprev
    rw [toSummarise, hfound] at hcovers
    rcases (retained_of_anchor hanchor hafter).mp hkept with ⟨m, hm, rfl, -⟩ | hid
    · obtain ⟨front, hsplit, -, -⟩ := lastMatch_eq_some.mp hfound
      have hnodup := hwf.nodup.of_map
      rw [hsplit, List.nodup_append, List.nodup_cons] at hnodup
      have hsame := (List.append_cons_inj_of_notMem (fun hmem => hnodup.2.2 _ hmem _
        List.mem_cons_self rfl) hnodup.2.1.1).mp hsplit.symm
      rw [← hsame.2.2] at hm
      exact hcovers m.id (List.mem_append_right _ (List.mem_map_of_mem hm))
    · exact hcovers id (List.mem_append_left _ hid)

theorem activeAnchor_eq_some (h : activeAnchor messages = some m) :
    m ∈ messages ∧ m.hasCompactionAnchor := by
  obtain ⟨⟨found, after⟩, hfound, rfl⟩ := Option.map_eq_some_iff.mp h
  obtain ⟨before, rfl, hm, -⟩ := lastMatch_eq_some.mp hfound
  exact ⟨List.mem_append_right _ List.mem_cons_self, hm⟩

theorem PhaseInv.stub_ne (h : PhaseInv messages phase) (hwf : WellFormed messages)
    (hm : m ∈ messages) (hanchor : m.hasCompactionAnchor) : phase.stub ≠ some m.id := by
  intro hstub
  cases phase with
  | compressing narrativeAnchorId narrativeContent anchorsTodemote stub =>
    obtain ⟨-, before, st, after, rfl, hst, -, hnot, -⟩ := h.2.2 _ hstub
    obtain rfl := hwf.eq hm (List.mem_append_right _ List.mem_cons_self) hst.symm
    rw [hanchor] at hnot
    cases hnot
  | scheduled | upgrading part stubMsg anchorsTodemote | demotingStub stubMsg anchorsTodemote
  | demotingOld anchorsTodemote | ended => cases hstub

theorem Inv.compacts (h : Inv old s) {draft : AnchorDraft Body} (hnew : draft.id ∉ s.ids)
    (hparts : draft.textPartID ≠ draft.compactionPartID)
    (hactive : getAnchorMessage s.messages = activeAnchor s.messages)
    (hcovers : ∀ id, old id → id ∈ draft.body.covers) :
    Inv old { s with compaction := anchorWrites draft (getAnchorMessage s.messages) } := by
  rw [State.ids, List.mem_append, not_or, List.mem_append, not_or] at hnew
  refine ⟨h.wellFormed, h.kept, h.phase, Or.inr ⟨draft, _, 0, Nat.zero_le 3, rfl, ?_⟩⟩
  refine ⟨hnew.2.1, hparts, hcovers, fun p hp => ?_, fun _ => hnew.1,
    fun hpos => absurd hpos (Nat.lt_irrefl 0)⟩
  obtain ⟨hmem, hanchor⟩ := activeAnchor_eq_some (hactive.symm.trans hp)
  exact ⟨fun heq => hnew.1 (heq ▸ List.mem_map_of_mem hmem),
    h.phase.stub_ne h.wellFormed hmem hanchor⟩

variable {draft : AnchorDraft Body} {prev : Option (WithParts Body)}

theorem Inv.writesRow (h : Inv old s) (hw : Writing old s.messages s.phase draft prev 0) :
    Inv old { s with
      messages :=
        (Write.updateMessage draft.id draft.created draft.message.info).apply s.messages
      compaction := (anchorWrites draft prev).drop 1 } := by
  have happly : (Write.updateMessage draft.id draft.created draft.message.info).apply s.messages =
      s.messages ++ [⟨draft.id, draft.created, draft.message.info, []⟩] := by
    refine if_neg fun hany => hw.absent rfl ?_
    obtain ⟨m, hm, heq⟩ := List.any_eq_true.mp hany
    exact of_decide_eq_true heq ▸ List.mem_map_of_mem hm
  rw [happly]
  refine ⟨h.wellFormed.append (hw.absent rfl) hasParts_row,
    fun id hold => (h.kept id hold).append not_anchor_row, h.phase.append hw.fresh,
    Or.inr ⟨draft, prev, 1, by omega, rfl, hw.fresh, hw.parts, hw.covers, hw.prev,
      fun hone => absurd hone Nat.one_ne_zero, fun _ => ?_⟩⟩
  exact ⟨s.messages, _, [], rfl, rfl, rfl, fun m hm => by cases hm⟩

theorem sameHeads_withPart (part : MessageV2.Part Body) : SameHeads (withPart part) messages where
  id m _ := withPart_id m
  isUser m _ := by rw [WithParts.isUser, withPart_info, WithParts.isUser]

theorem Writing.withPart_eq {n : ℕ} (hw : Writing old messages phase draft prev n)
    {part : MessageV2.Part Body} (hpart : part.messageID = draft.id) (hid : m.id ∈ phase.ids) :
    withPart part m = m :=
  withPart_of_ne fun heq => hw.fresh (hpart ▸ heq ▸ hid)

theorem Inv.writesBody (h : Inv old s) (hw : Writing old s.messages s.phase draft prev 1) :
    Inv old { s with
      messages :=
        (Write.updatePart ⟨draft.textPartID, draft.id, .text false draft.body⟩).apply s.messages
      compaction := (anchorWrites draft prev).drop 2 } := by
  have hrow := hw.row Nat.one_pos
  obtain ⟨before, row, after, hmessages, hrowid, hrowparts, -⟩ := hrow
  have heq : ∀ m ∈ s.messages, m.id = draft.id → m.parts = [] := by
    intro m hm hid
    have hmem : row ∈ s.messages := by
      rw [hmessages]
      exact List.mem_append_right _ List.mem_cons_self
    rw [h.wellFormed.eq hm hmem (hid.trans hrowid.symm)]
    exact hrowparts
  have hkeeps : Keeps (withPart ⟨draft.textPartID, draft.id, .text false draft.body⟩)
      s.messages := by
    refine keeps_withPart rfl fun m hm hid p hp _ => ?_
    rw [heq m hm hid] at hp
    cases hp
  rw [apply_updatePart]
  refine ⟨h.wellFormed.withPart,
    fun id hold => (h.kept id hold).map hkeeps (fun m hm hplain => ?_) fun m hm hm' id hid => ?_,
    h.phase.map hkeeps.sameHeads
      (fun m hm _ => ⟨isSummary_withPart m, hkeeps.hasCompactionAnchor m hm⟩)
      fun m _ hid _ => by rw [hw.withPart_eq rfl hid],
    Or.inr ⟨draft, prev, 2, by omega, rfl, hw.fresh, hw.parts, hw.covers, hw.prev,
      fun htwo => absurd htwo (by omega), fun _ => ?_⟩⟩
  · rw [isPlain, isSummary_withPart, hkeeps.hasCompactionAnchor m hm]
    exact hplain
  · rw [withPart_of_ne fun hmid => ?_]
    · exact hid
    · rw [WithParts.hasCompactionAnchor, WithParts.compactionPart, heq m hm hmid] at hm'
      cases hm'
  · refine (hw.row Nat.one_pos).map (fun m _ => withPart_id m) (fun m _ hid hparts => ?_)
      (fun m hm _ => hkeeps.hasCompactionAnchor m hm) h.wellFormed.nodup
    rw [withPart, if_pos hid, hparts]
    rfl

theorem RowAt.kept (hrow : RowAt messages draft.id draft.message.parts)
    (hid : id ∈ draft.body.covers) : Retained messages id := by
  obtain ⟨before, row, after, rfl, -, hparts, hafter⟩ := hrow
  refine retained_of_mem_textBody ?_ hafter ?_
  · rw [WithParts.hasCompactionAnchor, WithParts.compactionPart, hparts]
    rfl
  · rw [textBody, hparts]
    exact List.mem_append_left _ hid

theorem Inv.writesMark (h : Inv old s) (hw : Writing old s.messages s.phase draft prev 2) :
    Inv old { s with
      messages := (Write.updatePart ⟨draft.compactionPartID, draft.id,
        .compaction draft.rawTailProjection draft.compaction⟩).apply s.messages
      compaction := (anchorWrites draft prev).drop 3 } := by
  have hrow : RowAt (s.messages.map (withPart ⟨draft.compactionPartID, draft.id,
      .compaction draft.rawTailProjection draft.compaction⟩)) draft.id draft.message.parts := by
    refine (hw.row Nat.two_pos).map (fun m _ => withPart_id m) (fun m _ hid hparts => ?_)
      (fun m _ hid => by rw [withPart_of_ne hid]) h.wellFormed.nodup
    rw [withPart, if_pos hid, hparts]
    exact if_neg (by simpa [AnchorDraft.message] using hw.parts)
  rw [apply_updatePart]
  exact ⟨h.wellFormed.withPart,
    fun id hold => hrow.kept (hw.covers id hold),
    h.phase.map (sameHeads_withPart _)
      (fun m _ hid => by rw [hw.withPart_eq rfl hid]; exact ⟨rfl, rfl⟩)
      fun m _ hid _ => by rw [hw.withPart_eq rfl hid],
    Or.inr ⟨draft, prev, 3, le_rfl, rfl, hw.fresh, hw.parts, hw.covers, hw.prev,
      fun hthree => absurd hthree (by omega), fun _ => hrow⟩⟩

theorem Inv.removes {p : WithParts Body} (h : Inv old s)
    (hw : Writing old s.messages s.phase draft (some p) 3) :
    Inv old { s with
      messages := (Write.removeMessage p.id).apply s.messages
      compaction := [] } := by
  obtain ⟨hne, hstub⟩ := hw.prev p rfl
  have hrow : RowAt (s.messages.filter fun m => m.id ≠ p.id) draft.id draft.message.parts :=
    (hw.row (by omega)).filter fun m _ hid => decide_eq_true (hid.trans_ne hne.symm)
  exact ⟨h.wellFormed.filter _, fun id hold => hrow.kept (hw.covers id hold),
    h.phase.remove hstub, Or.inl rfl⟩

theorem Inv.compactionWrites (h : Inv old s) {write : Write Body}
    {compaction : List (Write Body)} (hs : s.compaction = write :: compaction) :
    Inv old { s with messages := write.apply s.messages, compaction := compaction } := by
  rcases h.pending with hnil | ⟨draft, prev, n, hn, hcompaction, hw⟩
  · rw [hnil] at hs
    cases hs
  · rw [hs] at hcompaction
    obtain rfl | rfl | rfl | rfl : n = 0 ∨ n = 1 ∨ n = 2 ∨ n = 3 := by omega
    · obtain ⟨rfl, rfl⟩ := List.cons.inj hcompaction
      exact h.writesRow hw
    · obtain ⟨rfl, rfl⟩ := List.cons.inj hcompaction
      exact h.writesBody hw
    · obtain ⟨rfl, rfl⟩ := List.cons.inj hcompaction
      exact h.writesMark hw
    · cases prev with
      | none => cases hcompaction
      | some p =>
        obtain ⟨rfl, rfl⟩ := List.cons.inj hcompaction
        exact h.removes hw

/-! ### Runs -/

/-- **A step hides nothing**, if what is read is whole. -/
theorem Inv.enrich (h : Inv old s) {e : Event} (hregular : Regular s e)
    (hwhole : ReadsWhole s e) : Inv old (enrich s e) := by
  cases e with
  | arrives m =>
    obtain ⟨hid, hplain, hparts⟩ := hregular
    rw [isPlain, Bool.and_eq_true, Bool.not_eq_true', Bool.not_eq_true'] at hplain
    exact h.append hid hplain.2 hparts
  | starts enrich defensiveInputCharCap =>
    rw [SessionCompaction.enrich]
    split
    · exact h.starts hwhole.1 hwhole.2 enrich
    · exact h
  | writesStub id created rest =>
    rw [SessionCompaction.enrich]
    split
    next hphase => exact h.writesStub hphase hregular created rest
    next => exact h
  | streams partID text =>
    rw [SessionCompaction.enrich]
    split
    next hphase => exact h.streams hphase partID text
    next => exact h
  | returns success =>
    rw [SessionCompaction.enrich]
    split
    next hphase =>
      rw [Regular, hphase] at hregular
      exact h.returns hphase hregular
    next => exact h
  | writes fails => exact h.write fails
  | compacts draft =>
    obtain ⟨-, hnew, hparts, hcovers⟩ := hregular
    rw [SessionCompaction.enrich]
    split_ifs
    · exact h.compacts hnew hparts hwhole fun id hold =>
        covers_of_retained h.wellFormed hwhole hcovers (h.kept id hold)
    · exact h
  | compactionWrites =>
    rw [SessionCompaction.enrich]
    split
    next => exact h
    next hcompaction => exact h.compactionWrites hcompaction

end Invariant

/-- **An enrichment hides nothing** while other compactions take the anchor that is shown for the
previous one and the model is given all of the anchor, whatever arrives, whatever else is written
and however it ends. -/
theorem enrichment_hides_nothing {s : State} {events : List Event}
    (hwf : WellFormed s.messages) (hphase : s.phase = .scheduled) (hcompaction : s.compaction = [])
    (hregular : Meets enrich Regular s events) (hwhole : Meets enrich ReadsWhole s events)
    (id : String) (hkept : Retained s.messages id) :
    Retained (run enrich s events).messages id := by
  have hinv : Inv (Retained s.messages) s :=
    ⟨hwf, fun id hkept => hkept, by rw [hphase]; trivial, Or.inl hcompaction⟩
  have hrun := (hregular.and hwhole).invariant (Inv (Retained s.messages)) hinv
    fun s e h hok => h.enrich hok.1 hok.2
  exact hrun.kept id hkept

def question (id : String) : WithParts Body :=
  ⟨id, 0, .user ⟨[], false⟩, [⟨id ++ "_p", id, .text false ⟨[], false⟩⟩]⟩

def anchored : State where
  messages := [question "msg_1",
    ⟨"msg_2", 0, .assistant none true ⟨[], false⟩,
      [⟨"prt_1", "msg_2", .text false ⟨["msg_0"], false⟩⟩,
        ⟨"prt_2", "msg_2", .compaction none ⟨[], false⟩⟩]⟩,
    question "msg_3"]
  phase := .scheduled
  compaction := []

def undisturbed : List Event :=
  [.starts true 120000, .writesStub "msg_4" 0 ⟨[], false⟩, .arrives (question "msg_5"),
    .streams "prt_3" ⟨["msg_0"], false⟩, .returns true, .writes false, .writes false, .writes false,
    .compacts ⟨"msg_6", 0, ⟨[], false⟩, "prt_4", ⟨["msg_0", "msg_3", "msg_4", "msg_5"], false⟩,
      "prt_5", none, ⟨[], false⟩⟩,
    .compactionWrites, .compactionWrites, .compactionWrites, .compactionWrites]

theorem undisturbed_keeps : Retained anchored.messages "msg_0" ∧
    Retained (run enrich anchored undisturbed).messages "msg_0" :=
  ⟨by decide, enrichment_hides_nothing ⟨by decide, by decide⟩ rfl rfl (by decide) (by decide)
    "msg_0" (by decide)⟩

/-- Another compaction reads the session when the stub is there, and the enrichment fails. -/
def overtaken : List Event :=
  [.starts true 120000, .writesStub "msg_4" 0 ⟨[], false⟩, .arrives (question "msg_5"),
    .compacts ⟨"msg_6", 0, ⟨[], false⟩, "prt_3", ⟨["msg_5"], false⟩, "prt_4", none, ⟨[], false⟩⟩,
    .compactionWrites, .compactionWrites, .compactionWrites, .compactionWrites, .returns false]

/-- **Not so otherwise**: a compaction that takes the stub for the previous anchor hides what the
anchor is a summary of, and what is between them. -/
theorem stub_hides : ¬∀ (s : State) (events : List Event), WellFormed s.messages →
    s.phase = .scheduled → s.compaction = [] → Meets enrich Regular s events →
    ∀ id, Retained s.messages id → Retained (run enrich s events).messages id := by
  intro h
  have hkept := h anchored overtaken ⟨by decide, by decide⟩ rfl rfl (by decide) "msg_0" (by decide)
  exact absurd hkept (by decide)

end OpenCms.SessionCompaction
