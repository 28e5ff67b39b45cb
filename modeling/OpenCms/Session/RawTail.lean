import OpenCms.Session.Filter
import Mathlib.Data.List.TakeWhile

/-!
# The rounds that are shown before the anchor

Behind the newest anchor of a session the model sees everything. Of what is before it, it sees as
many rounds as the anchor says: these are read from the newest to the oldest, by the loop that
`filterCompacted` leaves its iterator to. A message of the user counts as a round only if it was
answered, that is, if the next message is of an assistant. One that was not is left out, and not
only at the end: also where the user wrote twice in a row, only the second message is shown.

So what is shown is no block of the messages, but a block without these
(`OpenCms.MessageV2.filterCompacted_ranges`).
-/

namespace OpenCms.MessageV2

variable {ρ : Type}

/-! ### Rounds of a block -/

/-- The messages of a block, the newest first, each with the one that was written after it. -/
def withNext (next : Option (WithParts ρ)) (block : List (WithParts ρ)) :
    List (WithParts ρ × Option (WithParts ρ)) :=
  block.zip (next :: block.map some)

/-- A message of the user that is answered by the next one. -/
def opensRound (p : WithParts ρ × Option (WithParts ρ)) : Bool :=
  p.1.isUser && p.2.any WithParts.isAssistant

def roundsOf (next : Option (WithParts ρ)) (block : List (WithParts ρ)) : ℕ :=
  (withNext next block).countP opensRound

def answered (next : Option (WithParts ρ)) (block : List (WithParts ρ)) : List (WithParts ρ) :=
  ((withNext next block).filter fun p => !p.1.isUser || opensRound p).map Prod.fst

/-- What is shown of the messages before an anchor, the newest first: behind the prompts that have
no answer, a block of them, which ends with the message that opens the last of the rounds, or else
at the previous anchor or the start of the session. -/
def IsRawTail (rounds : ℕ) (older tail : List (WithParts ρ)) : Prop :=
  ∃ prompts block rest, older = prompts ++ (block ++ rest) ∧
    (∀ m ∈ prompts, m.isUser) ∧
    (∀ m ∈ prompts ++ block, m.hasCompactionAnchor = false) ∧
    (∀ m ∈ block.head?, m.isAssistant) ∧
    tail = answered none block ∧
    ((∃ newer opening, block = newer ++ [opening] ∧ opening.isUser ∧
        roundsOf none newer + 1 = rounds ∧ roundsOf none block = rounds) ∨
      (roundsOf none block < rounds ∧ ∀ m ∈ rest.head?, m.hasCompactionAnchor))

section Blocks

variable {next : Option (WithParts ρ)} {m : WithParts ρ} {block : List (WithParts ρ)}

@[simp] theorem withNext_nil : withNext next [] = [] := rfl

@[simp] theorem withNext_cons :
    withNext next (m :: block) = (m, next) :: withNext (some m) block := rfl

@[simp] theorem roundsOf_nil : roundsOf next [] = 0 := rfl

@[simp] theorem answered_nil : answered next [] = [] := rfl

theorem roundsOf_cons : roundsOf next (m :: block) =
    roundsOf (some m) block + if opensRound (m, next) then 1 else 0 := by
  unfold roundsOf
  rw [withNext_cons, List.countP_cons]

theorem answered_cons : answered next (m :: block) =
    if !m.isUser || opensRound (m, next) then m :: answered (some m) block
    else answered (some m) block := by
  unfold answered
  rw [withNext_cons, List.filter_cons]
  split <;> rfl

theorem fst_withNext : (withNext next block).map Prod.fst = block := by
  induction block generalizing next with
  | nil => rfl
  | cons m older ih => rw [withNext_cons, List.map_cons, ih]

theorem answered_sublist : (answered next block).Sublist block := by
  have h := (List.filter_sublist (l := withNext next block)
    (p := fun p => !p.1.isUser || opensRound p)).map Prod.fst
  rwa [fst_withNext] at h

end Blocks

/-! ### The loop over the older messages -/

/-- How the loop comes out: what it answers is shown of a block in front of which an anchor or
enough rounds are. -/
def Collected (rounds collectedRounds : ℕ) (next : Option (WithParts ρ))
    (older result : List (WithParts ρ)) : Prop :=
  ∃ block rest, older = block ++ rest ∧
    (∀ m ∈ block, m.hasCompactionAnchor = false) ∧ result = answered next block ∧
    ((∃ newer opening, block = newer ++ [opening] ∧ opening.isUser ∧
        collectedRounds + roundsOf next newer + 1 = rounds ∧
        collectedRounds + roundsOf next block = rounds) ∨
      (collectedRounds + roundsOf next block < rounds ∧
        ∀ m ∈ rest.head?, m.hasCompactionAnchor))

/-- What the loop does with the messages it has in front of it. It goes by the message it has read
last only: whether this was an answer. -/
theorem collectRawTail_spec {rounds : ℕ} (older : List (WithParts ρ)) (next : Option (WithParts ρ))
    {collectedRounds : ℕ} (hc : collectedRounds < rounds) :
    Collected rounds collectedRounds next older
      (collectRawTail rounds collectedRounds (next.any WithParts.isAssistant) older) := by
  induction older generalizing next collectedRounds with
  | nil => exact ⟨[], [], rfl, by simp, rfl, Or.inr ⟨by simpa using hc, by simp⟩⟩
  | cons m older ih =>
    rw [collectRawTail]
    by_cases hanchor : m.hasCompactionAnchor
    · -- The previous anchor: the block is empty.
      rw [if_pos hanchor]
      exact ⟨[], m :: older, rfl, by simp, rfl, Or.inr ⟨by simpa using hc, by simpa using hanchor⟩⟩
    rw [if_neg hanchor]
    have hm : m.hasCompactionAnchor = false := by simpa using hanchor
    have hnext : (some m).any WithParts.isAssistant = !m.isUser := m.isAssistant_eq
    -- The rest of the loop, if it goes on, counting from `c` and with `m` as the last message.
    have step : ∀ c < rounds,
        c = collectedRounds + (if opensRound (m, next) then 1 else 0) →
        Collected rounds collectedRounds next (m :: older)
          (if !m.isUser || opensRound (m, next) then
            m :: collectRawTail rounds c (!m.isUser) older
          else collectRawTail rounds c (!m.isUser) older) := by
      intro c hc' hcount
      obtain ⟨block, rest, hsplit, hno, hres, hstop⟩ := ih (some m) hc'
      rw [hnext] at hres
      refine ⟨m :: block, rest, by rw [hsplit, List.cons_append], ?_, ?_, ?_⟩
      · intro m' hm'
        rcases List.mem_cons.mp hm' with rfl | hm'
        · exact hm
        · exact hno m' hm'
      · rw [answered_cons, hres]
      · rcases hstop with ⟨newer, opening, hblock, hopen, hlt, heq⟩ | ⟨hlt, hrest⟩
        · refine Or.inl ⟨m :: newer, opening, by rw [hblock, List.cons_append], hopen, ?_, ?_⟩
          · rw [roundsOf_cons]
            omega
          · rw [roundsOf_cons]
            omega
        · refine Or.inr ⟨?_, hrest⟩
          rw [roundsOf_cons]
          omega
    by_cases huser : m.isUser
    · rw [if_pos huser]
      by_cases hhas : next.any WithParts.isAssistant
      · -- An answered message of the user: it is the last round, or one more of them.
        have hopens : opensRound (m, next) = true := by simp [opensRound, huser, hhas]
        rw [if_pos hhas]
        by_cases hlast : rounds ≤ collectedRounds + 1
        · rw [if_pos hlast]
          refine ⟨[m], older, rfl, by simpa using hm, by simp [answered_cons, hopens], Or.inl
            ⟨[], m, rfl, huser, ?_, ?_⟩⟩
          · rw [roundsOf_nil]
            omega
          · simp only [roundsOf_cons, roundsOf_nil, if_pos hopens]
            omega
        · rw [if_neg hlast]
          simpa [hopens, huser] using step (collectedRounds + 1) (by omega) (by simp [hopens])
      · have hopens : opensRound (m, next) = false := by simp [opensRound, hhas]
        rw [if_neg hhas]
        simpa [hopens, huser] using step collectedRounds hc (by simp [hopens])
    · have hopens : opensRound (m, next) = false := by simp [opensRound, huser]
      simpa [hopens, huser] using step collectedRounds hc (by simp [hopens])

theorem dropWhile_isUser_spec (block : List (WithParts ρ)) (next : Option (WithParts ρ))
    (hnext : next.any WithParts.isAssistant = false) :
    answered next block = answered none (block.dropWhile WithParts.isUser) ∧
      roundsOf next block = roundsOf none (block.dropWhile WithParts.isUser) := by
  induction block generalizing next with
  | nil => exact ⟨rfl, rfl⟩
  | cons m older ih =>
    have hopens : opensRound (m, next) = false := by simp [opensRound, hnext]
    by_cases huser : m.isUser
    · obtain ⟨hans, hrounds⟩ := ih (some m) (by simpa [WithParts.isAssistant_eq] using huser)
      rw [List.dropWhile_cons_of_pos huser, answered_cons, roundsOf_cons, hopens]
      simpa [huser] using ⟨hans, hrounds⟩
    · have hopens' : opensRound (m, none) = false := by simp [opensRound]
      rw [List.dropWhile_cons_of_neg huser, answered_cons, answered_cons, roundsOf_cons,
        roundsOf_cons, hopens, hopens']
      exact ⟨rfl, rfl⟩

theorem isRawTail_collectRawTailAfterAnchor {rounds : ℕ} (hrounds : 0 < rounds)
    (older : List (WithParts ρ)) :
    IsRawTail rounds older (collectRawTailAfterAnchor older rounds) := by
  obtain ⟨all, rest, hsplit, hno, hres, hstop⟩ := collectRawTail_spec older none hrounds
  have hdrop : all = all.takeWhile WithParts.isUser ++ all.dropWhile WithParts.isUser :=
    List.takeWhile_append_dropWhile.symm
  obtain ⟨hans, hcount⟩ := dropWhile_isUser_spec all none rfl
  refine ⟨all.takeWhile WithParts.isUser, all.dropWhile WithParts.isUser, rest, ?_, ?_, ?_, ?_,
    ?_, ?_⟩
  · rw [← List.append_assoc, ← hdrop, hsplit]
  · intro m hm
    exact List.mem_takeWhile_imp hm
  · rwa [← hdrop]
  · intro m hm
    have hhead := List.head?_dropWhile_not WithParts.isUser all
    rw [Option.mem_def.mp hm] at hhead
    simpa [WithParts.isAssistant_eq] using hhead
  · rw [← hans]
    exact hres
  · rcases hstop with ⟨newer, opening, hblock, hopen, hlt, heq⟩ | ⟨hlt, hrest⟩
    · refine Or.inl ?_
      obtain ⟨-, hnewer⟩ := dropWhile_isUser_spec newer none rfl
      -- The message that opens the round is answered, so it is not one of the first prompts.
      have hassistant : ∃ m ∈ newer, ¬m.isUser := by
        by_contra hall
        push Not at hall
        have hzero : all.dropWhile WithParts.isUser = [] := by
          refine List.dropWhile_eq_nil_iff.mpr fun m hm => ?_
          rw [hblock] at hm
          rcases List.mem_append.mp hm with hm | hm
          · exact hall m hm
          · rwa [List.mem_singleton.mp hm]
        rw [hzero, roundsOf_nil] at hcount
        omega
      obtain ⟨a, ha, hauser⟩ := hassistant
      refine ⟨newer.dropWhile WithParts.isUser, opening, ?_, hopen, by omega, by omega⟩
      rw [hblock, List.dropWhile_append, if_neg]
      intro hempty
      exact hauser (List.dropWhile_eq_nil_iff.mp (List.isEmpty_iff.mp hempty) a ha)
    · exact Or.inr ⟨by omega, hrest⟩

theorem IsRawTail.sublist {rounds : ℕ} {older tail : List (WithParts ρ)}
    (h : IsRawTail rounds older tail) : tail.Sublist older := by
  obtain ⟨prompts, block, rest, rfl, -, -, -, rfl, -⟩ := h
  exact (answered_sublist.trans (List.sublist_append_left block rest)).trans
    (List.sublist_append_right prompts _)

/-! ### The whole projection -/

def WithParts.rawRounds (anchor : WithParts ρ) : ℕ :=
  (anchor.compactionPart.getD none).getD 0

theorem filterCompacted_anchor {post older : List (WithParts ρ)} {anchor : WithParts ρ}
    (hpost : ∀ m ∈ post, m.hasCompactionAnchor = false) (ha : anchor.hasCompactionAnchor) :
    filterCompacted (post ++ anchor :: older) =
      anchor :: ((if 0 < anchor.rawRounds then
          collectRawTailAfterAnchor older anchor.rawRounds else []).reverse ++ post.reverse) := by
  have htake : (post ++ anchor :: older).takeWhile (fun m => !m.hasCompactionAnchor) = post := by
    rw [List.takeWhile_append_of_pos (by simpa using hpost), List.takeWhile_cons_of_neg (by simpa),
      List.append_nil]
  have hdrop : (post ++ anchor :: older).dropWhile (fun m => !m.hasCompactionAnchor) =
      anchor :: older := by
    rw [List.dropWhile_append_of_pos (by simpa using hpost), List.dropWhile_cons_of_neg (by simpa)]
  unfold filterCompacted WithParts.rawRounds
  rw [htake, hdrop]
  rcases hpart : anchor.compactionPart with - | - | rounds
  · simp [hpart]
  · simp [hpart]
  · by_cases hr : 0 < rounds
    · simp [hpart, hr]
    · simp [hpart, hr]

/-- **What a session shows to the model.** Without an anchor, all of it. Otherwise the newest
anchor, then the tail of what is before it, then all that is behind it; and nothing twice. -/
theorem filterCompacted_ranges (stream : List (WithParts ρ)) :
    (filterCompacted stream).Subperm stream ∧
      ((∀ m ∈ stream, m.hasCompactionAnchor = false) ∧ filterCompacted stream = stream.reverse ∨
        ∃ post anchor older tail, stream = post ++ anchor :: older ∧
          (∀ m ∈ post, m.hasCompactionAnchor = false) ∧ anchor.hasCompactionAnchor ∧
          filterCompacted stream = anchor :: (tail.reverse ++ post.reverse) ∧
          if 0 < anchor.rawRounds then IsRawTail anchor.rawRounds older tail else tail = []) := by
  have hspan := List.takeWhile_append_dropWhile (p := fun m : WithParts ρ => !m.hasCompactionAnchor)
    (l := stream)
  have hpost : ∀ m ∈ stream.takeWhile (fun m => !m.hasCompactionAnchor),
      m.hasCompactionAnchor = false := by
    intro m hm
    simpa using List.mem_takeWhile_imp hm
  rcases hdrop : stream.dropWhile fun m => !m.hasCompactionAnchor with - | ⟨anchor, older⟩
  · rw [hdrop, List.append_nil] at hspan
    have hall : filterCompacted stream = stream.reverse := by
      unfold filterCompacted
      rw [hdrop, hspan]
    rw [hspan] at hpost
    refine ⟨?_, Or.inl ⟨hpost, hall⟩⟩
    rw [hall]
    exact (List.reverse_perm stream).subperm
  · have ha : anchor.hasCompactionAnchor := by
      have hhead := List.head?_dropWhile_not (fun m => !m.hasCompactionAnchor) stream
      rw [hdrop] at hhead
      simpa using hhead
    rw [hdrop] at hspan
    generalize stream.takeWhile (fun m => !m.hasCompactionAnchor) = post at hspan hpost
    subst hspan
    rw [filterCompacted_anchor hpost ha]
    set tail := if 0 < anchor.rawRounds then
      collectRawTailAfterAnchor older anchor.rawRounds else [] with htail
    have hcond : if 0 < anchor.rawRounds then IsRawTail anchor.rawRounds older tail
        else tail = [] := by
      split
      · next hr =>
        rw [htail, if_pos hr]
        exact isRawTail_collectRawTailAfterAnchor hr older
      · next hr => rw [htail, if_neg hr]
    have hsub : tail.Sublist older := by
      by_cases hr : 0 < anchor.rawRounds
      · rw [if_pos hr] at hcond
        exact hcond.sublist
      · rw [if_neg hr] at hcond
        rw [hcond]
        exact List.nil_sublist older
    refine ⟨?_, Or.inr ⟨post, anchor, older, tail, rfl, hpost, ha, rfl, hcond⟩⟩
    have hperm : (anchor :: (tail.reverse ++ post.reverse)).Perm (post ++ anchor :: tail) :=
      ((((List.reverse_perm tail).append (List.reverse_perm post)).trans
        List.perm_append_comm).cons anchor).trans List.perm_middle.symm
    exact hperm.subperm.trans ((hsub.cons_cons anchor).append_left post).subperm

/-! ### The user writes twice in a row -/

def plain (id : String) (created : ℤ) (info : Info Unit) : WithParts Unit :=
  { id := id, created := created, info := info, parts := [] }

/-- The newest of them is an anchor that shows two rounds. -/
def writtenTwice : List (WithParts Unit) :=
  [{ id := "msg_6", created := 6, info := .assistant (some "stop") true ()
     parts := [{ id := "prt_1", messageID := "msg_6", body := .compaction (some 2) () }] },
    plain "msg_5" 5 (.assistant (some "stop") false ()),
    plain "msg_4" 4 (.user ()),
    plain "msg_3" 3 (.user ()),
    plain "msg_2" 2 (.assistant (some "stop") false ()),
    plain "msg_1" 1 (.user ())]

/-- What is shown before the anchor is no block: `msg_3` is left out between `msg_2` and `msg_4`. -/
theorem filterCompacted_not_infix :
    ¬∀ post older : List (WithParts Unit), ∀ anchor : WithParts Unit,
      (∀ m ∈ post, m.hasCompactionAnchor = false) → anchor.hasCompactionAnchor →
        ∃ block, block <:+: older ∧
          filterCompacted (post ++ anchor :: older) =
            anchor :: (block.reverse ++ post.reverse) := by
  intro h
  obtain ⟨block, hinfix, heq⟩ := h [] writtenTwice.tail (writtenTwice.head (by decide)) (by simp)
    (by decide)
  have hblock : block.reverse = (filterCompacted writtenTwice).tail := by
    have htail := congrArg List.tail heq
    rw [List.reverse_nil, List.append_nil] at htail
    exact htail.symm
  rw [← List.reverse_reverse block, hblock] at hinfix
  exact absurd hinfix (by decide)

end OpenCms.MessageV2
