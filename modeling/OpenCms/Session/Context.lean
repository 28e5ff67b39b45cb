import OpenCms.Session.Anchor
import Mathlib.Data.List.TakeWhile

/-!
# What a compacted session keeps

The messages of a session, the oldest first, where a text part holds the identifiers of the
messages that it is a summary of. A message is kept if it is behind the newest anchor, or if this
anchor is a summary of it; both are shown to the model.
-/

namespace OpenCms.SessionCompaction

open MessageV2 (WithParts PartBody filterCompacted)

/-- A text: what it is a summary of, and whether there is nothing in it. -/
structure Body where
  covers : List String
  blank : Bool
  deriving DecidableEq

def textBody (m : WithParts Body) : List String :=
  m.parts.flatMap fun p => match p.body with
    | .text _ body => body.covers
    | _ => []

def activeAnchor (messages : List (WithParts Body)) : Option (WithParts Body) :=
  (lastMatch WithParts.hasCompactionAnchor messages).map Prod.fst

def isPlain (m : WithParts Body) : Bool := !isSummary m && !m.hasCompactionAnchor

def postAnchor (messages : List (WithParts Body)) : List (WithParts Body) :=
  (messages.reverse.takeWhile fun m => !m.hasCompactionAnchor).reverse

/-- **What is kept**: what is behind the newest anchor and is no summary, and what this anchor is a
summary of. -/
def Retained (messages : List (WithParts Body)) (id : String) : Prop :=
  (∃ m ∈ postAnchor messages, m.id = id ∧ isPlain m) ∨
    ∃ anchor ∈ activeAnchor messages, id ∈ textBody anchor

instance (messages : List (WithParts Body)) (id : String) : Decidable (Retained messages id) :=
  inferInstanceAs (Decidable (_ ∨ _))

section PostAnchor

variable {messages before after : List (WithParts Body)} {anchor m : WithParts Body}

theorem postAnchor_of_none (h : ∀ m ∈ messages, m.hasCompactionAnchor = false) :
    postAnchor messages = messages := by
  have htake : messages.reverse.takeWhile (fun m => !m.hasCompactionAnchor) = messages.reverse :=
    List.takeWhile_eq_self_iff.mpr fun m hm => by rw [h m (List.mem_reverse.mp hm)]; rfl
  rw [postAnchor, htake, List.reverse_reverse]

theorem postAnchor_of_anchor (hanchor : anchor.hasCompactionAnchor)
    (hafter : ∀ m ∈ after, m.hasCompactionAnchor = false) :
    postAnchor (before ++ anchor :: after) = after := by
  have hall : ∀ m ∈ after.reverse, (!m.hasCompactionAnchor) = true := fun m hm => by
    rw [hafter m (List.mem_reverse.mp hm)]
    rfl
  have hreverse : (before ++ anchor :: after).reverse =
      after.reverse ++ anchor :: before.reverse := by simp
  rw [postAnchor, hreverse, List.takeWhile_append_of_pos hall,
    List.takeWhile_cons_of_neg (by simp [hanchor]), List.append_nil, List.reverse_reverse]

/-- A change of messages that changes nothing of what is read of them here. -/
structure Keeps (f : WithParts Body → WithParts Body) (messages : List (WithParts Body)) :
    Prop where
  id : ∀ m ∈ messages, (f m).id = m.id
  isUser : ∀ m ∈ messages, (f m).isUser = m.isUser
  hasCompactionAnchor : ∀ m ∈ messages, (f m).hasCompactionAnchor = m.hasCompactionAnchor

variable {f : WithParts Body → WithParts Body}

theorem Keeps.mono {messages' : List (WithParts Body)} (hf : Keeps f messages)
    (h : ∀ m ∈ messages', m ∈ messages) : Keeps f messages' where
  id m hm := hf.id m (h m hm)
  isUser m hm := hf.isUser m (h m hm)
  hasCompactionAnchor m hm := hf.hasCompactionAnchor m (h m hm)

theorem Keeps.none_map (hf : Keeps f messages)
    (h : ∀ m ∈ messages, m.hasCompactionAnchor = false) :
    ∀ m ∈ messages.map f, m.hasCompactionAnchor = false := by
  intro m hm
  obtain ⟨m', hm', rfl⟩ := List.mem_map.mp hm
  rw [hf.hasCompactionAnchor m' hm', h m' hm']

end PostAnchor

section Retained

variable {messages before after : List (WithParts Body)} {anchor m : WithParts Body} {id : String}

theorem activeAnchor_of_anchor (hanchor : anchor.hasCompactionAnchor)
    (hafter : ∀ m ∈ after, m.hasCompactionAnchor = false) :
    activeAnchor (before ++ anchor :: after) = some anchor := by
  rw [activeAnchor, lastMatch_eq_some.mpr ⟨before, rfl, hanchor, hafter⟩]
  rfl

theorem activeAnchor_of_none (h : ∀ m ∈ messages, m.hasCompactionAnchor = false) :
    activeAnchor messages = none := by
  rw [activeAnchor, lastMatch_eq_none.mpr h]
  rfl

theorem anchor_cases (messages : List (WithParts Body)) :
    (∀ m ∈ messages, m.hasCompactionAnchor = false) ∨
      ∃ before anchor after, messages = before ++ anchor :: after ∧ anchor.hasCompactionAnchor ∧
        ∀ m ∈ after, m.hasCompactionAnchor = false := by
  cases h : lastMatch WithParts.hasCompactionAnchor messages with
  | none => exact Or.inl (lastMatch_eq_none.mp h)
  | some found =>
    obtain ⟨before, heq, hanchor, hafter⟩ := lastMatch_eq_some.mp h
    exact Or.inr ⟨before, found.1, found.2, heq, hanchor, hafter⟩

theorem retained_of_none (h : ∀ m ∈ messages, m.hasCompactionAnchor = false) :
    Retained messages id ↔ ∃ m ∈ messages, m.id = id ∧ isPlain m := by
  rw [Retained, postAnchor_of_none h, activeAnchor_of_none h]
  simp

theorem retained_of_anchor (hanchor : anchor.hasCompactionAnchor)
    (hafter : ∀ m ∈ after, m.hasCompactionAnchor = false) :
    Retained (before ++ anchor :: after) id ↔
      (∃ m ∈ after, m.id = id ∧ isPlain m) ∨ id ∈ textBody anchor := by
  rw [Retained, postAnchor_of_anchor hanchor hafter, activeAnchor_of_anchor hanchor hafter]
  simp

theorem none_append (h : ∀ m ∈ messages, m.hasCompactionAnchor = false)
    (hm : m.hasCompactionAnchor = false) :
    ∀ m' ∈ messages ++ [m], m'.hasCompactionAnchor = false := by
  intro m' hm'
  rcases List.mem_append.mp hm' with hm' | hm'
  · exact h m' hm'
  · rw [List.mem_singleton.mp hm', hm]

theorem Retained.append (h : Retained messages id) (hm : m.hasCompactionAnchor = false) :
    Retained (messages ++ [m]) id := by
  rcases anchor_cases messages with hnone | ⟨before, anchor, after, rfl, hanchor, hafter⟩
  · rw [retained_of_none (none_append hnone hm)]
    obtain ⟨m', hm', hkept⟩ := (retained_of_none hnone).mp h
    exact ⟨m', List.mem_append_left _ hm', hkept⟩
  · rw [List.append_assoc, List.cons_append, retained_of_anchor hanchor (none_append hafter hm)]
    refine ((retained_of_anchor hanchor hafter).mp h).imp_left ?_
    rintro ⟨m', hm', hkept⟩
    exact ⟨m', List.mem_append_left _ hm', hkept⟩

/-- **A change of messages hides nothing** if it leaves what is read of them, makes no summary of
what was none, and if the newest anchor stays a summary of what it was one of. -/
theorem Retained.map {f : WithParts Body → WithParts Body} (hf : Keeps f messages)
    (hplain : ∀ m ∈ messages, isPlain m → isPlain (f m))
    (hcover : ∀ anchor ∈ messages, anchor.hasCompactionAnchor →
      ∀ id ∈ textBody anchor, id ∈ textBody (f anchor))
    (h : Retained messages id) : Retained (messages.map f) id := by
  have hmap : ∀ {l : List (WithParts Body)}, (∀ m ∈ l, m ∈ messages) →
      (∃ m ∈ l, m.id = id ∧ isPlain m) → ∃ m ∈ l.map f, m.id = id ∧ isPlain m := by
    rintro l hl ⟨m, hm, hid, hp⟩
    exact ⟨f m, List.mem_map_of_mem hm, (hf.id m (hl m hm)).trans hid, hplain m (hl m hm) hp⟩
  rcases anchor_cases messages with hnone | ⟨before, anchor, after, rfl, hanchor, hafter⟩
  · rw [retained_of_none (hf.none_map hnone)]
    exact hmap (fun m hm => hm) ((retained_of_none hnone).mp h)
  · have hmem : anchor ∈ before ++ anchor :: after :=
      List.mem_append_right _ List.mem_cons_self
    have hafterMem : ∀ m ∈ after, m ∈ before ++ anchor :: after := fun m hm =>
      List.mem_append_right _ (List.mem_cons_of_mem _ hm)
    have hanchor' : (f anchor).hasCompactionAnchor := by
      rw [hf.hasCompactionAnchor anchor hmem, hanchor]
    rw [List.map_append, List.map_cons,
      retained_of_anchor hanchor' ((hf.mono hafterMem).none_map hafter)]
    exact ((retained_of_anchor hanchor hafter).mp h).imp (hmap hafterMem)
      fun hid => hcover anchor hmem hanchor id hid

theorem retained_of_mem_textBody (hanchor : anchor.hasCompactionAnchor)
    (hafter : ∀ m ∈ after, m.hasCompactionAnchor = false) (hid : id ∈ textBody anchor) :
    Retained (before ++ anchor :: after) id :=
  (retained_of_anchor hanchor hafter).mpr (Or.inr hid)

end Retained

end OpenCms.SessionCompaction
