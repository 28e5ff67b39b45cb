import OpenCms.Lib.LastMatch
import OpenCms.Session.Message
import Mathlib.Data.List.TakeWhile
import Mathlib.Tactic.Tauto

/-!
# The prompt that is not answered yet

When a session is compacted, the messages of the user become rounds of the summary, except for the
one that is not answered: this one is written again behind the summary. Which one it is, is found
out twice, by `findUnansweredUserMessageId` for the summary and by `snapshotUnansweredUserMessage`
for what is written again. Only the second one knows of chains of tool calls that were interrupted,
of answers that were cut off by an overflow, and of requests to compact that are no prompts, and
only the first one stops at the previous summary.

They agree exactly if none of this makes a difference
(`OpenCms.SessionCompaction.detectors_agree_iff`).
-/

namespace OpenCms.SessionCompaction

open MessageV2 (WithParts PartBody)

variable {ρ : Type}

/-! ### The two detectors -/

/-- `Observed`: why a session is compacted. -/
inductive Observed
  | overflow
  | cacheAware
  | rebind
  | continuationInvalidated
  | providerSwitched
  | stallRecovery
  | manual
  | idle
  | emptyResponse
  | reload
  deriving DecidableEq

/-- An answer ends in a way that counts as answered, for the summary. -/
def isFinished (finish : Option String) : Bool :=
  finish = some "stop" ∨ finish = some "tool-calls" ∨ finish = some "length"

def startOf (prevAnchorIdx : Option ℕ) : ℕ :=
  match prevAnchorIdx with
  | some idx => idx + 1
  | none => 0

def findUnansweredUserMessageId (messages : List (WithParts ρ)) (prevAnchorIdx : Option ℕ) :
    Option String :=
  match lastMatch WithParts.isUser (messages.drop (startOf prevAnchorIdx)) with
  | none => none
  | some (user, after) =>
    match after.find? WithParts.isAssistant with
    | some assistantChild => if isFinished assistantChild.finish then none else some user.id
    | none => some user.id

structure UserMessageSnapshot (ρ : Type) where
  user : WithParts ρ
  emptyAssistantID : Option String
  deriving DecidableEq

/-- A request to compact that was written when the context had run over. -/
def isPlaceholder (m : WithParts ρ) : Bool :=
  m.parts ≠ [] ∧ m.parts.all fun p => match p.body with
    | .compactionRequest _ => true
    | _ => false

def isPrompt (m : WithParts ρ) : Bool := m.isUser && !isPlaceholder m

def isAnswered (observed : Observed) (children : List (WithParts ρ)) : Bool :=
  match children.head? with
  | none => false
  | some assistantChild =>
    let finish := assistantChild.finish
    let lengthIsAnswered := observed ≠ .overflow
    let toolCallsInterrupted :=
      finish = some "tool-calls" ∧ ∀ m ∈ children, m.finish ≠ some "stop"
    let toolCallsAnswered := finish = some "tool-calls" ∧ ¬toolCallsInterrupted
    finish = some "stop" ∨ toolCallsAnswered ∨ lengthIsAnswered ∧ finish = some "length"

def snapshotUnansweredUserMessage (observed : Observed) (msgs : List (WithParts ρ)) :
    Option (UserMessageSnapshot ρ) :=
  match lastMatch isPrompt msgs with
  | none => none
  | some (user, after) =>
    let children := after.takeWhile WithParts.isAssistant
    if isAnswered observed children then none
    else some ⟨user, children.head?.map WithParts.id⟩

/-! ### The rounds of the summary -/

def eligibleRounds (tail : List (WithParts ρ)) (excludeUserMessageID : Option String) :
    List (WithParts ρ) :=
  match excludeUserMessageID with
  | none => tail.filter WithParts.isUser
  | some excludeId =>
    if excludeId = "" then tail.filter WithParts.isUser
    else (tail.filter WithParts.isUser).filter fun round => round.id ≠ excludeId

/-! ### Where they agree -/

/-- The first answer counts as one for the summary only: it was cut off by the overflow, or it
called tools and no answer after it came to an end. -/
def Interrupted (observed : Observed) (children : List (WithParts ρ)) : Prop :=
  ∃ child, children.head? = some child ∧
    (child.finish = some "tool-calls" ∧ (∀ m ∈ children, m.finish ≠ some "stop") ∨
      child.finish = some "length" ∧ observed = .overflow)

/-- The first answer, if there is one, ends in a way that counts for the summary. -/
def isFirstFinished (children : List (WithParts ρ)) : Bool :=
  children.head?.any fun child => isFinished child.finish

def LastPrompt (messages : List (WithParts ρ)) (prompt : WithParts ρ)
    (after : List (WithParts ρ)) : Prop :=
  ∃ before, messages = before ++ prompt :: after ∧ isPrompt prompt ∧
    ∀ m ∈ after, isPrompt m = false

/-- **Where the two agree**, by the last message of the user. If it is a prompt behind the previous
summary, it is not interrupted; if it is one before that, it is answered. A request to compact
counts as a prompt for the summary only: it is finished or before the previous summary while the
last prompt is answered, or else it is not told from a prompt that is not answered. -/
def Mirrored (observed : Observed) (start : ℕ) (messages : List (WithParts ρ)) : Prop :=
  ∀ before user after, messages = before ++ user :: after → user.isUser →
    (∀ m ∈ after, m.isUser = false) →
    if isPlaceholder user then
      if start ≤ before.length ∧ ¬isFirstFinished after then
        ∃ prompt rest, LastPrompt messages prompt rest ∧
          isAnswered observed (rest.takeWhile WithParts.isAssistant) = false ∧
          prompt.id = user.id
      else
        ∀ prompt rest, LastPrompt messages prompt rest →
          isAnswered observed (rest.takeWhile WithParts.isAssistant)
    else if start ≤ before.length then ¬Interrupted observed after
    else isAnswered observed after

section Agreement

variable {observed : Observed} {messages children after before : List (WithParts ρ)}
  {user : WithParts ρ} {prevAnchorIdx : Option ℕ}

theorem isAnswered_iff :
    isAnswered observed children ↔ isFirstFinished children ∧ ¬Interrupted observed children := by
  unfold isAnswered isFirstFinished Interrupted isFinished
  cases children.head? with
  | none => simp
  | some child =>
    by_cases hstop : child.finish = some "stop"
    · simp [hstop]
    · by_cases htools : child.finish = some "tool-calls"
      · simp [htools]
      · by_cases hlength : child.finish = some "length"
        · simp [hlength]
        · simp [hstop, htools, hlength]

theorem snapshot_eq_none : snapshotUnansweredUserMessage observed messages = none ↔
    ∀ prompt rest, LastPrompt messages prompt rest →
      isAnswered observed (rest.takeWhile WithParts.isAssistant) := by
  unfold snapshotUnansweredUserMessage LastPrompt
  simp only [← lastMatch_eq_some]
  cases lastMatch isPrompt messages with
  | none => simp
  | some found =>
    obtain ⟨prompt, rest⟩ := found
    simp

theorem map_snapshot_eq_some {id : String} :
    (snapshotUnansweredUserMessage observed messages).map (fun s => s.user.id) = some id ↔
      ∃ prompt rest, LastPrompt messages prompt rest ∧
        isAnswered observed (rest.takeWhile WithParts.isAssistant) = false ∧ prompt.id = id := by
  unfold snapshotUnansweredUserMessage LastPrompt
  simp only [← lastMatch_eq_some]
  cases lastMatch isPrompt messages with
  | none => simp
  | some found =>
    obtain ⟨prompt, rest⟩ := found
    cases isAnswered observed (rest.takeWhile WithParts.isAssistant) <;> simp

theorem not_isPrompt_of_not_isUser {m : WithParts ρ} (h : m.isUser = false) :
    isPrompt m = false := by
  rw [isPrompt, h, Bool.false_and]

theorem find_eq (huser : user.isUser) (hafter : ∀ m ∈ after, m.isUser = false) :
    findUnansweredUserMessageId (before ++ user :: after) prevAnchorIdx =
      if startOf prevAnchorIdx ≤ before.length ∧ ¬isFirstFinished after then some user.id
      else none := by
  have hlast : lastMatch WithParts.isUser (before ++ user :: after) = some (user, after) :=
    lastMatch_eq_some.mpr ⟨before, rfl, huser, hafter⟩
  unfold findUnansweredUserMessageId
  rw [lastMatch_drop, hlast, Option.filter_some]
  simp only [List.length_append, List.length_cons, decide_eq_true_eq]
  by_cases hle : startOf prevAnchorIdx ≤ before.length
  · rw [if_pos (by omega)]
    cases after with
    | nil => simp [hle, isFirstFinished]
    | cons child rest =>
      -- everything behind the last message of the user is of assistants
      have hchild : child.isAssistant := by
        rw [WithParts.isAssistant_eq, hafter child List.mem_cons_self]
        rfl
      cases hfinished : isFinished child.finish <;>
        simp [hle, isFirstFinished, hchild, hfinished]
  · rw [if_neg (by omega), if_neg fun h => hle h.1]

theorem map_snapshot_eq (huser : user.isUser) (hplaceholder : isPlaceholder user = false)
    (hafter : ∀ m ∈ after, m.isUser = false) :
    (snapshotUnansweredUserMessage observed (before ++ user :: after)).map (fun s => s.user.id) =
      if isAnswered observed after then none else some user.id := by
  have hprompt : isPrompt user := by
    rw [isPrompt, huser, hplaceholder]
    rfl
  have hlast : lastMatch isPrompt (before ++ user :: after) = some (user, after) :=
    lastMatch_eq_some.mpr
      ⟨before, rfl, hprompt, fun m hm => not_isPrompt_of_not_isUser (hafter m hm)⟩
  have htake : after.takeWhile WithParts.isAssistant = after := by
    refine List.takeWhile_eq_self_iff.mpr fun m hm => ?_
    rw [WithParts.isAssistant_eq, hafter m hm]
    rfl
  unfold snapshotUnansweredUserMessage
  rw [hlast]
  simp only [htake]
  split <;> rfl

theorem isFirstFinished_of_interrupted (h : Interrupted observed children) :
    isFirstFinished children := by
  obtain ⟨child, hchild, h⟩ := h
  rcases h with ⟨h, -⟩ | ⟨h, -⟩ <;> simp [isFirstFinished, isFinished, hchild, h]

theorem mirrored_iff (huser : user.isUser) (hafter : ∀ m ∈ after, m.isUser = false) {start : ℕ} :
    Mirrored observed start (before ++ user :: after) ↔
      if isPlaceholder user then
        if start ≤ before.length ∧ ¬isFirstFinished after then
          ∃ prompt rest, LastPrompt (before ++ user :: after) prompt rest ∧
            isAnswered observed (rest.takeWhile WithParts.isAssistant) = false ∧
            prompt.id = user.id
        else
          ∀ prompt rest, LastPrompt (before ++ user :: after) prompt rest →
            isAnswered observed (rest.takeWhile WithParts.isAssistant)
      else if start ≤ before.length then ¬Interrupted observed after
      else isAnswered observed after := by
  refine ⟨fun h => h before user after rfl huser hafter, ?_⟩
  intro h before' user' after' heq huser' hafter'
  -- there is only one last message of the user
  have hlast := lastMatch_eq_some.mpr ⟨before', heq, huser', hafter'⟩
  rw [lastMatch_eq_some.mpr ⟨before, rfl, huser, hafter⟩] at hlast
  cases hlast
  obtain rfl := List.append_cancel_right heq
  exact h

theorem agree_iff (huser : user.isUser) (hafter : ∀ m ∈ after, m.isUser = false) :
    findUnansweredUserMessageId (before ++ user :: after) prevAnchorIdx =
        (snapshotUnansweredUserMessage observed (before ++ user :: after)).map
          (fun s => s.user.id) ↔
      Mirrored observed (startOf prevAnchorIdx) (before ++ user :: after) := by
  rw [mirrored_iff huser hafter, find_eq huser hafter]
  by_cases hplaceholder : isPlaceholder user
  · rw [if_pos hplaceholder, ← snapshot_eq_none, ← map_snapshot_eq_some]
    split_ifs with hunanswered
    · exact eq_comm
    · rw [eq_comm, Option.map_eq_none_iff]
  · rw [if_neg hplaceholder, map_snapshot_eq huser (Bool.not_eq_true _ ▸ hplaceholder) hafter]
    by_cases hle : startOf prevAnchorIdx ≤ before.length
    · rw [if_pos hle]
      by_cases hfinished : isFirstFinished after
      · rw [if_neg fun h => h.2 hfinished]
        by_cases hanswered : isAnswered observed after
        · rw [if_pos hanswered]
          exact iff_of_true rfl (isAnswered_iff.mp hanswered).2
        · rw [if_neg hanswered]
          exact iff_of_false (fun heq => by cases heq) fun h =>
            hanswered (isAnswered_iff.mpr ⟨hfinished, h⟩)
      · have hanswered : ¬isAnswered observed after := fun h =>
          hfinished (isAnswered_iff.mp h).1
        rw [if_pos ⟨hle, hfinished⟩, if_neg hanswered]
        exact iff_of_true rfl fun h => hfinished (isFirstFinished_of_interrupted h)
    · rw [if_neg hle, if_neg fun h => hle h.1]
      split_ifs with hanswered
      · exact iff_of_true rfl hanswered
      · exact iff_of_false (fun heq => by cases heq) hanswered

theorem mem_eligibleRounds_iff
    (h : findUnansweredUserMessageId messages prevAnchorIdx =
      (snapshotUnansweredUserMessage observed messages).map fun s => s.user.id)
    {tail : List (WithParts ρ)} {round : WithParts ρ} (hround : round ∈ tail)
    (huser : round.isUser) (hid : round.id ≠ "") :
    round ∈ eligibleRounds tail (findUnansweredUserMessageId messages prevAnchorIdx) ↔
      ∀ s, snapshotUnansweredUserMessage observed messages = some s → s.user.id ≠ round.id := by
  have hmem : round ∈ tail.filter WithParts.isUser := List.mem_filter.mpr ⟨hround, huser⟩
  rw [h]
  cases snapshotUnansweredUserMessage observed messages with
  | none => exact iff_of_true hmem fun s heq => by cases heq
  | some s =>
    simp only [Option.map_some, eligibleRounds, Option.some.injEq, forall_eq']
    split_ifs with hempty
    · exact iff_of_true hmem fun heq => hid (heq.symm.trans hempty)
    · rw [List.mem_filter, decide_eq_true_eq]
      exact ⟨fun hne => hne.2.symm, fun hne => ⟨hmem, hne.symm⟩⟩

/-- **The two detectors find the same prompt exactly if no interrupted answer, no request to
compact and no earlier summary comes between them**; and then each round behind the previous
summary is either part of the new one or written again. -/
theorem detectors_agree_iff (observed : Observed) (messages : List (WithParts ρ))
    (prevAnchorIdx : Option ℕ) :
    (findUnansweredUserMessageId messages prevAnchorIdx =
        (snapshotUnansweredUserMessage observed messages).map (fun s => s.user.id) ↔
      Mirrored observed (startOf prevAnchorIdx) messages) ∧
    (findUnansweredUserMessageId messages prevAnchorIdx =
        (snapshotUnansweredUserMessage observed messages).map (fun s => s.user.id) →
      ∀ round ∈ messages.drop (startOf prevAnchorIdx), round.isUser → round.id ≠ "" →
        (round ∈ eligibleRounds (messages.drop (startOf prevAnchorIdx))
            (findUnansweredUserMessageId messages prevAnchorIdx) ↔
          ∀ s, snapshotUnansweredUserMessage observed messages = some s →
            s.user.id ≠ round.id)) := by
  refine ⟨?_, fun h round hround huser hid => mem_eligibleRounds_iff h hround huser hid⟩
  cases hlast : lastMatch WithParts.isUser messages with
  | none =>
    have hno := lastMatch_eq_none.mp hlast
    have hprompt : lastMatch isPrompt messages = none :=
      lastMatch_eq_none.mpr fun m hm => not_isPrompt_of_not_isUser (hno m hm)
    refine iff_of_true ?_ fun before user after heq huser _ => ?_
    · unfold findUnansweredUserMessageId snapshotUnansweredUserMessage
      rw [hprompt, lastMatch_drop, hlast]
      rfl
    · have hfalse := hno user (by rw [heq]; simp)
      rw [huser] at hfalse
      cases hfalse
  | some found =>
    obtain ⟨before, rfl, huser, hafter⟩ := lastMatch_eq_some.mp hlast
    exact agree_iff huser hafter

/-- A prompt whose answer called tools and was interrupted is written again, and it is part of the
summary as well. -/
theorem not_detectors_agree : ¬∀ (observed : Observed) (messages : List (WithParts Unit))
    (prevAnchorIdx : Option ℕ),
    findUnansweredUserMessageId messages prevAnchorIdx =
      (snapshotUnansweredUserMessage observed messages).map fun s => s.user.id := by
  intro h
  have hfind := h .cacheAware
    [⟨"msg_1", 1, .user (), [⟨"prt_1", "msg_1", .text false ()⟩]⟩,
      ⟨"msg_2", 2, .assistant (some "tool-calls") false (), [⟨"prt_2", "msg_2", .other ()⟩]⟩] none
  revert hfind
  decide

end Agreement

end OpenCms.SessionCompaction
