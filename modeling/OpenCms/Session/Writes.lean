import OpenCms.Session.Message
import Mathlib.Data.List.Nodup

/-!
# Writes to a session

Messages are written first and their parts one after another; a message is removed with its parts.
-/

namespace OpenCms.SessionCompaction

open MessageV2 (WithParts Info)

variable {ρ : Type}

inductive Write (ρ : Type)
  | updateMessage (id : String) (created : ℤ) (info : Info ρ)
  | updatePart (part : MessageV2.Part ρ)
  | removeMessage (messageID : String)

def upsertPart (parts : List (MessageV2.Part ρ)) (part : MessageV2.Part ρ) :
    List (MessageV2.Part ρ) :=
  if parts.any fun p => p.id = part.id then
    parts.map fun p => if p.id = part.id then part else p
  else parts ++ [part]

def Write.apply (messages : List (WithParts ρ)) : Write ρ → List (WithParts ρ)
  | .updateMessage id created info =>
    if messages.any fun m => m.id = id then
      messages.map fun m => if m.id = id then { m with created := created, info := info } else m
    else messages ++ [⟨id, created, info, []⟩]
  | .updatePart part =>
    messages.map fun m =>
      if m.id = part.messageID then { m with parts := upsertPart m.parts part } else m
  | .removeMessage messageID => messages.filter fun m => m.id ≠ messageID

def Write.target : Write ρ → String
  | .updateMessage id _ _ => id
  | .updatePart part => part.messageID
  | .removeMessage messageID => messageID

/-! ### What they do -/

section Writes

variable {messages : List (WithParts ρ)} {m : WithParts ρ}

theorem mem_apply {write : Write ρ} (hm : m ∈ messages) (htarget : write.target ≠ m.id) :
    m ∈ write.apply messages := by
  cases write with
  | updateMessage id created info =>
    rw [Write.apply]
    split_ifs
    · exact List.mem_map.mpr ⟨m, hm, if_neg htarget.symm⟩
    · exact List.mem_append_left _ hm
  | updatePart part => exact List.mem_map.mpr ⟨m, hm, if_neg htarget.symm⟩
  | removeMessage messageID =>
    exact List.mem_filter.mpr ⟨hm, decide_eq_true htarget.symm⟩

theorem mem_foldl_apply {writes : List (Write ρ)} (hm : m ∈ messages)
    (htarget : ∀ write ∈ writes, write.target ≠ m.id) :
    m ∈ writes.foldl Write.apply messages := by
  induction writes generalizing messages with
  | nil => exact hm
  | cons write writes ih =>
    exact ih (mem_apply hm (htarget write List.mem_cons_self))
      fun write hw => htarget write (List.mem_cons_of_mem _ hw)

theorem foldl_updatePart (hm : ∀ m' ∈ messages, m'.id ≠ m.id) {parts : List (MessageV2.Part ρ)}
    (hparts : ∀ part ∈ parts, part.messageID = m.id)
    (hnodup : ((m.parts ++ parts).map MessageV2.Part.id).Nodup) :
    (parts.map Write.updatePart).foldl Write.apply (messages ++ [m]) =
      messages ++ [{ m with parts := m.parts ++ parts }] := by
  induction parts generalizing m with
  | nil => rw [List.append_nil]; rfl
  | cons part parts ih =>
    have hnew : ¬m.parts.any fun p => p.id = part.id := by
      simp only [List.any_eq_true, decide_eq_true_eq, not_exists, not_and]
      intro p hp heq
      rw [List.map_append, List.nodup_append] at hnodup
      exact hnodup.2.2 p.id (List.mem_map_of_mem hp) part.id
        (List.mem_map_of_mem List.mem_cons_self) heq
    have hstep : (Write.updatePart part).apply (messages ++ [m]) =
        messages ++ [{ m with parts := m.parts ++ [part] }] := by
      rw [Write.apply, List.map_append, List.map_singleton,
        if_pos (hparts part List.mem_cons_self).symm, upsertPart, if_neg hnew]
      refine congrArg (· ++ _) ((List.map_congr_left fun m' hm' => if_neg ?_).trans (List.map_id _))
      rw [hparts part List.mem_cons_self]
      exact hm m' hm'
    rw [List.map_cons, List.foldl_cons, hstep,
      ih (m := { m with parts := m.parts ++ [part] }) hm
        (fun p hp => hparts p (List.mem_cons_of_mem _ hp)) (by simpa using hnodup)]
    simp

end Writes

end OpenCms.SessionCompaction
