import OpenCms.Lib.LastMatch
import OpenCms.Session.Filter
import OpenCms.Session.Writes

/-!
# Anchors

An anchor is a message of an assistant that is marked as a summary, and it has a compaction part:
what is read of a session begins with it. The mark is what the next compaction looks for, the part
is what decides what is shown.
-/

namespace OpenCms.SessionCompaction

open MessageV2 (WithParts PartBody)

variable {ρ : Type}

def isSummary (m : WithParts ρ) : Bool :=
  match m.info with
  | .assistant _ summary _ => summary
  | .user _ => false

def getAnchorMessage (messages : List (WithParts ρ)) : Option (WithParts ρ) :=
  (lastMatch isSummary messages).map Prod.fst

structure AnchorDraft (ρ : Type) where
  id : String
  created : ℤ
  info : ρ
  textPartID : String
  body : ρ
  compactionPartID : String
  rawTailProjection : Option ℕ
  compaction : ρ

def AnchorDraft.message (draft : AnchorDraft ρ) : WithParts ρ where
  id := draft.id
  created := draft.created
  info := .assistant none true draft.info
  parts := [⟨draft.textPartID, draft.id, .text false draft.body⟩,
    ⟨draft.compactionPartID, draft.id, .compaction draft.rawTailProjection draft.compaction⟩]

def anchorWrites (draft : AnchorDraft ρ) (prevAnchor : Option (WithParts ρ)) : List (Write ρ) :=
  .updateMessage draft.id draft.created draft.message.info ::
    draft.message.parts.map .updatePart ++
      prevAnchor.toList.map fun prevAnchor => .removeMessage prevAnchor.id

/-- `writeAnchorFromBody`, up to what it announces. -/
def writeAnchorFromBody (messages : List (WithParts ρ)) (draft : AnchorDraft ρ) :
    List (WithParts ρ) :=
  let msgs := MessageV2.chronological messages
  if msgs.any WithParts.isUser then
    (anchorWrites draft (getAnchorMessage msgs)).foldl Write.apply messages
  else messages

section Anchor

variable {messages : List (WithParts ρ)} {m : WithParts ρ}

theorem getAnchorMessage_eq_some (h : getAnchorMessage messages = some m) :
    m ∈ messages ∧ isSummary m := by
  obtain ⟨found, hfound, rfl⟩ := Option.map_eq_some_iff.mp h
  obtain ⟨before, rfl, hm, -⟩ := lastMatch_eq_some.mp (show _ = some (found.1, found.2) from hfound)
  exact ⟨List.mem_append_right _ List.mem_cons_self, hm⟩

theorem isUser_of_isSummary (h : isSummary m) : m.isUser = false := by
  unfold isSummary at h
  unfold WithParts.isUser
  cases hinfo : m.info with
  | user rest =>
    rw [hinfo] at h
    cases h
  | assistant finish summary rest => rfl

end Anchor

end OpenCms.SessionCompaction
