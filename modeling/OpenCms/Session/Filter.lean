import OpenCms.Session.Message
import Mathlib.Data.List.Sort
import Mathlib.Data.String.Basic

/-!
# What a session shows to the model

The messages of a session are read from the newest to the oldest, up to the newest one with a
compaction part: what is older is in its body. If this anchor says so, some rounds before it are
shown as well.
-/

namespace OpenCms.MessageV2

variable {ρ : Type} {stream : List (WithParts ρ)} {m : WithParts ρ}

def newestFirst (messages : List (WithParts ρ)) : List (WithParts ρ) :=
  messages.insertionSort fun m m' =>
    m'.created < m.created ∨ m'.created = m.created ∧ m'.id ≤ m.id

def chronological (messages : List (WithParts ρ)) : List (WithParts ρ) :=
  (newestFirst messages).reverse

/-- If a part is a compaction part: how many rounds before it are shown. -/
def Part.compaction (p : Part ρ) : Option (Option ℕ) :=
  match p.body with
  | .compaction rawTailProjection _ => some rawTailProjection
  | _ => none

def WithParts.compactionPart (m : WithParts ρ) : Option (Option ℕ) :=
  m.parts.findSome? Part.compaction

def WithParts.hasCompactionAnchor (m : WithParts ρ) : Bool := m.compactionPart.isSome

/-- The loop of `collectRawTailAfterAnchor`, with the rounds that are collected and whether an
answer of the next one has been. -/
def collectRawTail (rounds : ℕ) : ℕ → Bool → List (WithParts ρ) → List (WithParts ρ)
  | _, _, [] => []
  | collectedRounds, hasAssistantForRound, m :: older =>
    if m.hasCompactionAnchor then []
    else if m.isUser then
      if hasAssistantForRound then
        if rounds ≤ collectedRounds + 1 then [m]
        else m :: collectRawTail rounds (collectedRounds + 1) false older
      else collectRawTail rounds collectedRounds false older
    else m :: collectRawTail rounds collectedRounds true older

def collectRawTailAfterAnchor (older : List (WithParts ρ)) (rounds : ℕ) : List (WithParts ρ) :=
  collectRawTail rounds 0 false older

def filterCompacted (stream : List (WithParts ρ)) : List (WithParts ρ) :=
  let postAnchor := stream.takeWhile fun m => !m.hasCompactionAnchor
  match stream.dropWhile fun m => !m.hasCompactionAnchor with
  | [] => postAnchor.reverse
  | anchor :: older =>
    match anchor.compactionPart with
    | some (some rounds) =>
      if 0 < rounds then
        anchor :: ((collectRawTailAfterAnchor older rounds).reverse ++ postAnchor.reverse)
      else anchor :: postAnchor.reverse
    | _ => anchor :: postAnchor.reverse

theorem perm_newestFirst (messages : List (WithParts ρ)) :
    (newestFirst messages).Perm messages := List.perm_insertionSort _ messages

@[simp] theorem mem_newestFirst : m ∈ newestFirst stream ↔ m ∈ stream :=
  (perm_newestFirst stream).mem_iff

@[simp] theorem mem_chronological : m ∈ chronological stream ↔ m ∈ stream := by
  rw [chronological, List.mem_reverse, mem_newestFirst]

theorem mem_of_mem_collectRawTail {rounds collected : ℕ} {has : Bool}
    (h : m ∈ collectRawTail rounds collected has stream) : m ∈ stream := by
  induction stream generalizing collected has with
  | nil => cases h
  | cons m' older ih =>
    rw [collectRawTail] at h
    split_ifs at h
    · cases h
    · rw [List.mem_singleton.mp h]
      exact List.mem_cons_self
    · rcases List.mem_cons.mp h with rfl | h
      · exact List.mem_cons_self
      · exact List.mem_cons_of_mem _ (ih h)
    · exact List.mem_cons_of_mem _ (ih h)
    · rcases List.mem_cons.mp h with rfl | h
      · exact List.mem_cons_self
      · exact List.mem_cons_of_mem _ (ih h)

theorem mem_of_mem_filterCompacted (h : m ∈ filterCompacted stream) : m ∈ stream := by
  have hpost : m ∈ (stream.takeWhile fun m => !m.hasCompactionAnchor).reverse → m ∈ stream :=
    fun h => (List.takeWhile_sublist _).mem (List.mem_reverse.mp h)
  unfold filterCompacted at h
  cases hdrop : stream.dropWhile fun m => !m.hasCompactionAnchor with
  | nil =>
    simp only [hdrop] at h
    exact hpost h
  | cons anchor older =>
    have holder : ∀ {m}, m ∈ anchor :: older → m ∈ stream := by
      intro m h
      rw [← hdrop] at h
      exact (List.dropWhile_sublist _).mem h
    simp only [hdrop] at h
    split at h
    · split_ifs at h
      · rcases List.mem_cons.mp h with rfl | h
        · exact holder List.mem_cons_self
        · rcases List.mem_append.mp h with h | h
          · exact holder (List.mem_cons_of_mem _
              (mem_of_mem_collectRawTail (List.mem_reverse.mp h)))
          · exact hpost h
      · rcases List.mem_cons.mp h with rfl | h
        · exact holder List.mem_cons_self
        · exact hpost h
    · rcases List.mem_cons.mp h with rfl | h
      · exact holder List.mem_cons_self
      · exact hpost h

/-- The anchor that the messages are read up to is shown. -/
theorem mem_filterCompacted_of_find? (h : stream.find? WithParts.hasCompactionAnchor = some m) :
    m ∈ filterCompacted stream := by
  obtain ⟨hanchor, newer, older, rfl, hnewer⟩ := List.find?_eq_some_iff_append.mp h
  have hpost : ∀ m ∈ newer, (!m.hasCompactionAnchor) = true := hnewer
  have hdrop : (newer ++ m :: older).dropWhile (fun m => !m.hasCompactionAnchor) = m :: older := by
    rw [List.dropWhile_append_of_pos hpost, List.dropWhile_cons_of_neg (by simp [hanchor])]
  simp only [filterCompacted, hdrop]
  split
  · split_ifs
    · exact List.mem_cons_self
    · exact List.mem_cons_self
  · exact List.mem_cons_self

end OpenCms.MessageV2
