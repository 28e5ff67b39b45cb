import OpenCms.Lib.JsString
import OpenCms.Session.Message
import Mathlib.Algebra.Order.Group.Nat
import Mathlib.Algebra.GroupWithZero.Nat

/-!
# The dialog of a session as a text

When a session is compacted, what was said becomes a text of rounds, which is put behind the text of
the last time. A round begins with a message of the user and has all answers up to the next one.
Answers before the first message of the user belong to no round, and are left out.

The texts of two parts of a session, one behind the other, are the text of both if the rounds of the
second are numbered on from those of the first (`OpenCms.DialogSerializer.serialize_folds`). Which
number is the next is read off the text, from the lines that begin a round. A message that has such
a line itself is counted as well.
-/

namespace OpenCms.DialogSerializer

open JsString
open MessageV2 (WithParts Part)

variable {ρ : Type}

/-! ### Rounds -/

structure SerializeOptions where
  startRound : Option ℤ
  excludeUserMessageID : Option String
  omitLastRounds : Option ℤ

structure SerializeResult where
  text : JsString
  lastRound : ℕ
  messagesEmitted : ℕ
  deriving DecidableEq

structure RoundDraft (ρ : Type) where
  number : ℕ
  userMessage : WithParts ρ
  assistantMessages : List (WithParts ρ)

/-- Where the loop over the messages is. -/
structure Drafting (ρ : Type) where
  rounds : List (RoundDraft ρ)
  current : Option (RoundDraft ρ)
  nextRoundNumber : ℕ

def Drafting.step (s : Drafting ρ) (m : WithParts ρ) : Drafting ρ :=
  if m.isUser then
    { rounds := s.rounds ++ s.current.toList
      current := some ⟨s.nextRoundNumber, m, []⟩
      nextRoundNumber := s.nextRoundNumber + 1 }
  else
    { s with current := s.current.map fun current =>
        { current with assistantMessages := current.assistantMessages ++ [m] } }

def rounds (startRound : ℕ) (messages : List (WithParts ρ)) : List (RoundDraft ρ) :=
  let s := messages.foldl Drafting.step ⟨[], none, startRound⟩
  s.rounds ++ s.current.toList

def eligibleRounds (excludeId : Option String) (rounds : List (RoundDraft ρ)) :
    List (RoundDraft ρ) :=
  match excludeId with
  | none => rounds
  | some excludeId =>
    if excludeId = "" then rounds
    else rounds.filter fun round => round.userMessage.id ≠ excludeId

def roundsToRender (omitLastRounds : ℕ) (eligibleRounds : List (RoundDraft ρ)) :
    List (RoundDraft ρ) :=
  if 0 < omitLastRounds then eligibleRounds.take (eligibleRounds.length - omitLastRounds)
  else eligibleRounds

/-! ### Texts -/

section Texts

variable (text : ρ → JsString)

def fragment (p : MessageV2.Part ρ) : Option JsString :=
  match p.body with
  | .text _ rest => if text rest = [] then none else some (text rest)
  | _ => none

def collectText (parts : List (MessageV2.Part ρ)) : JsString :=
  trim ([newline].intercalate (parts.filterMap (fragment text)))

def userMessageText (msg : WithParts ρ) : JsString := collectText text msg.parts

def renderAssistantParts (msg : WithParts ρ) : List JsString :=
  let answer := collectText text msg.parts
  if answer = [] then [] else [js "**Assistant**", answer]

def blankLine : JsString := [newline, newline]

def roundHeader (number : ℕ) : JsString := js "## Round " ++ JsString.decimal number

def sections (round : RoundDraft ρ) : List JsString :=
  let userText := userMessageText text round.userMessage
  [roundHeader round.number, js "**User**", if userText = [] then js "_(empty)_" else userText] ++
    round.assistantMessages.flatMap (renderAssistantParts text)

def renderRound (round : RoundDraft ρ) : JsString := blankLine.intercalate (sections text round)

/-- What the loop over the rounds has made. -/
structure Rendered where
  blocks : List JsString
  lastRound : ℕ
  messagesEmitted : ℕ

def Rendered.step (s : Rendered) (round : RoundDraft ρ) : Rendered :=
  let block := renderRound text round
  if block = [] then s
  else
    { blocks := s.blocks ++ [block]
      lastRound := round.number
      messagesEmitted := s.messagesEmitted + (1 + round.assistantMessages.length) }

def SerializeOptions.start (options : SerializeOptions) : ℕ :=
  (max 1 (options.startRound.getD 1)).toNat

def SerializeOptions.omitted (options : SerializeOptions) : ℕ :=
  (max 0 (options.omitLastRounds.getD 0)).toNat

def shown (messages : List (WithParts ρ)) (options : SerializeOptions) : List (RoundDraft ρ) :=
  roundsToRender options.omitted
    (eligibleRounds options.excludeUserMessageID (rounds options.start messages))

def serializeRedactedDialog (messages : List (WithParts ρ)) (options : SerializeOptions) :
    SerializeResult :=
  let startRound := options.start
  let s := (shown messages options).foldl (Rendered.step text) ⟨[], startRound - 1, 0⟩
  { text := blankLine.intercalate s.blocks
    lastRound := if s.lastRound < startRound - 1 then 0 else max s.lastRound 0
    messagesEmitted := s.messagesEmitted }

/-- The options of `tryLocalRedactedDialog`, where no rounds are left out. -/
def options (startRound : ℕ) (excludeUserMessageID : Option String) : SerializeOptions :=
  ⟨some startRound, excludeUserMessageID, none⟩

end Texts

def joinBodies (prevBody tailText : JsString) : JsString :=
  if prevBody ≠ [] ∧ tailText ≠ [] then prevBody ++ (blankLine ++ tailText)
  else if prevBody ≠ [] then prevBody else tailText

/-- Where a line ends, for `^` and `$`. -/
def isLineTerminator (c : UInt16) : Bool :=
  c.toNat = 0xA || c.toNat = 0xD || c.toNat = 0x2028 || c.toNat = 0x2029

/-- `ROUND_HEADER_RE` on one line: the number that it captures. That `\s*` can run over the end of
the line makes no difference, because there it may stop. -/
def headerNumber (line : JsString) : Option ℕ :=
  if (js "## Round ").isPrefixOf line then
    let rest := line.drop (js "## Round ").length
    let ds := rest.takeWhile JsString.isDigit
    if ds ≠ [] ∧ (rest.dropWhile JsString.isDigit).all isWhiteSpace then some (number ds) else none
  else none

def parsePrevLastRound (prevBody : JsString) : ℕ :=
  ((prevBody.splitOnP isLineTerminator).filterMap headerNumber).foldl max 0

/-! ### What the rounds are -/

def RoundDraft.messages (round : RoundDraft ρ) : List (WithParts ρ) :=
  round.userMessage :: round.assistantMessages

def Drafting.all (s : Drafting ρ) : List (RoundDraft ρ) := s.rounds ++ s.current.toList

section Rounds

variable {messages earlier later : List (WithParts ρ)} {m user : WithParts ρ} {k : ℕ}

theorem Drafting.all_foldl (done : List (RoundDraft ρ)) (current : Option (RoundDraft ρ)) (k : ℕ)
    (messages : List (WithParts ρ)) :
    (messages.foldl step ⟨done, current, k⟩).all =
      done ++ (messages.foldl step ⟨[], current, k⟩).all := by
  induction messages generalizing done current k with
  | nil => simp [all]
  | cons m messages ih =>
    rw [List.foldl_cons, List.foldl_cons]
    by_cases huser : m.isUser
    · simp only [step, if_pos huser, List.nil_append]
      rw [ih, ih current.toList, List.append_assoc]
    · simp only [step, if_neg huser]
      rw [ih]

theorem all_foldl_open (current : RoundDraft ρ) (k : ℕ) (messages : List (WithParts ρ)) :
    (messages.foldl Drafting.step ⟨[], some current, k⟩).all =
      { current with
        assistantMessages :=
          current.assistantMessages ++ messages.takeWhile fun m => !m.isUser } ::
        rounds k messages := by
  induction messages generalizing current with
  | nil => simp [Drafting.all, rounds]
  | cons m messages ih =>
    rw [List.foldl_cons]
    by_cases huser : m.isUser
    · rw [Drafting.all_foldl, List.takeWhile_cons_of_neg (by simpa using huser)]
      simp [rounds, Drafting.all, Drafting.step, huser]
    · simp only [Drafting.step, if_neg huser, Option.map_some]
      rw [ih, List.takeWhile_cons_of_pos (by simpa using huser)]
      simp [rounds, Drafting.step, huser]

theorem rounds_cons_assistant (h : ¬m.isUser) :
    rounds k (m :: messages) = rounds k messages := by
  simp [rounds, Drafting.step, h]

theorem rounds_cons_user (h : m.isUser) : rounds k (m :: messages) =
    ⟨k, m, messages.takeWhile fun m => !m.isUser⟩ :: rounds (k + 1) messages := by
  have hopen : rounds k (m :: messages) =
      (messages.foldl Drafting.step ⟨[], some ⟨k, m, []⟩, k + 1⟩).all := by
    simp [rounds, Drafting.all, Drafting.step, h]
  rw [hopen, all_foldl_open]
  rfl

/-- **The rounds of two lists of messages** are those of both, if the second begins with a message
of the user. -/
theorem rounds_append (huser : user.isUser) :
    rounds k (earlier ++ user :: later) =
      rounds k earlier ++ rounds (k + earlier.countP WithParts.isUser) (user :: later) := by
  induction earlier generalizing k with
  | nil => rfl
  | cons m earlier ih =>
    rw [List.cons_append]
    by_cases hm : m.isUser
    · -- The answers end before the message of the user.
      have htake : (earlier ++ user :: later).takeWhile (fun m => !m.isUser) =
          earlier.takeWhile fun m => !m.isUser := by
        rw [List.takeWhile_append, List.takeWhile_cons_of_neg (by simpa using huser)]
        split
        next hall => rw [List.append_nil, (List.takeWhile_prefix _).eq_of_length hall]
        next => rfl
      rw [rounds_cons_user hm, rounds_cons_user hm, htake, ih, List.countP_cons_of_pos hm,
        List.cons_append, Nat.add_right_comm, Nat.add_assoc]
    · rw [rounds_cons_assistant hm, rounds_cons_assistant hm, ih, List.countP_cons_of_neg hm]

def RoundDraft.IsRound (round : RoundDraft ρ) : Prop :=
  round.userMessage.isUser ∧ ∀ m ∈ round.assistantMessages, m.isAssistant

theorem isRound_of_mem_rounds {r : RoundDraft ρ} (h : r ∈ rounds k messages) : r.IsRound := by
  induction messages generalizing k with
  | nil => cases h
  | cons m messages ih =>
    by_cases huser : m.isUser
    · rw [rounds_cons_user huser] at h
      rcases List.mem_cons.mp h with rfl | h
      · refine ⟨huser, fun m' hm' => ?_⟩
        rw [WithParts.isAssistant_eq]
        exact List.all_eq_true.mp (List.all_takeWhile (p := fun m => !m.isUser)) m' hm'
      · exact ih h
    · exact ih (rounds_cons_assistant huser ▸ h)

theorem flatMap_rounds (k : ℕ) (messages : List (WithParts ρ)) :
    (rounds k messages).flatMap RoundDraft.messages =
      messages.dropWhile fun m => !m.isUser := by
  induction messages generalizing k with
  | nil => rfl
  | cons m messages ih =>
    by_cases huser : m.isUser
    · rw [List.dropWhile_cons_of_neg (by simpa using huser), rounds_cons_user huser,
        List.flatMap_cons, ih, RoundDraft.messages, List.cons_append,
        List.takeWhile_append_dropWhile]
    · rw [List.dropWhile_cons_of_pos (by simpa using huser), rounds_cons_assistant huser, ih]

theorem number_rounds (k : ℕ) (messages : List (WithParts ρ)) :
    (rounds k messages).map RoundDraft.number =
      List.range' k (messages.countP WithParts.isUser) := by
  induction messages generalizing k with
  | nil => rfl
  | cons m messages ih =>
    by_cases huser : m.isUser
    · rw [rounds_cons_user huser, List.map_cons, ih, List.countP_cons_of_pos huser,
        List.range'_succ]
    · rw [rounds_cons_assistant huser, ih, List.countP_cons_of_neg huser]

theorem userMessage_rounds (k : ℕ) (messages : List (WithParts ρ)) :
    (rounds k messages).map RoundDraft.userMessage = messages.filter WithParts.isUser := by
  induction messages generalizing k with
  | nil => rfl
  | cons m messages ih =>
    by_cases huser : m.isUser
    · rw [rounds_cons_user huser, List.map_cons, ih, List.filter_cons_of_pos huser]
    · rw [rounds_cons_assistant huser, ih, List.filter_cons_of_neg huser]

end Rounds

/-! ### Which rounds are written -/

/-- Whether the round of a message of the user is left out because of its id. -/
def isExcluded (excludeId : Option String) (user : WithParts ρ) : Bool :=
  excludeId = some user.id ∧ user.id ≠ ""

theorem eligibleRounds_eq (excludeId : Option String) (rounds : List (RoundDraft ρ)) :
    eligibleRounds excludeId rounds =
      rounds.filter fun round => !isExcluded excludeId round.userMessage := by
  rcases excludeId with - | excludeId
  · simp [eligibleRounds, isExcluded]
  · by_cases hempty : excludeId = ""
    · -- The empty id excludes nothing.
      have hall : ∀ round ∈ rounds, (!isExcluded (some excludeId) round.userMessage) = true := by
        intro round _
        by_cases hid : round.userMessage.id = ""
        · simp [isExcluded, hid]
        · simp [isExcluded, hempty, Ne.symm hid]
      rw [eligibleRounds, if_pos hempty, List.filter_eq_self.mpr hall]
    · rw [eligibleRounds, if_neg hempty]
      refine List.filter_congr fun round _ => ?_
      by_cases hid : round.userMessage.id = excludeId
      · simp [isExcluded, hid, hempty]
      · simp [isExcluded, hid, Ne.symm hid]

theorem roundsToRender_eq (omitLastRounds : ℕ) (eligible : List (RoundDraft ρ)) :
    roundsToRender omitLastRounds eligible =
      eligible.take (eligible.length - omitLastRounds) := by
  unfold roundsToRender
  split
  · rfl
  · rw [List.take_of_length_le (by omega)]

section Shown

variable {messages : List (WithParts ρ)} {opts : SerializeOptions} {startRound : ℕ}
  {excludeId : Option String}

@[simp] theorem start_options (h : 1 ≤ startRound) :
    (options startRound excludeId).start = startRound := by
  simp only [options, SerializeOptions.start, Option.getD_some]
  omega

theorem shown_options (h : 1 ≤ startRound) : shown messages (options startRound excludeId) =
    (rounds startRound messages).filter fun round => !isExcluded excludeId round.userMessage := by
  rw [shown, start_options h, roundsToRender_eq, eligibleRounds_eq]
  exact List.take_of_length_le (Nat.le_refl _)

theorem shown_sublist : (shown messages opts).Sublist (rounds opts.start messages) := by
  rw [shown, roundsToRender_eq, eligibleRounds_eq]
  exact (List.take_sublist _ _).trans List.filter_sublist

theorem pairwise_number_shown :
    ((shown messages opts).map RoundDraft.number).Pairwise (· < ·) := by
  have hsub := (@shown_sublist _ messages opts).map RoundDraft.number
  rw [number_rounds] at hsub
  exact List.Pairwise.sublist hsub List.pairwise_lt_range'

theorem start_le_number {r : RoundDraft ρ} (h : r ∈ shown messages opts) :
    opts.start ≤ r.number := by
  have hmem : r.number ∈ (rounds opts.start messages).map RoundDraft.number :=
    List.mem_map_of_mem (shown_sublist.mem h)
  rw [number_rounds, List.mem_range'_1] at hmem
  exact hmem.1

theorem number_le_getLast {r last : RoundDraft ρ} (h : r ∈ shown messages opts)
    (hlast : (shown messages opts).getLast? = some last) : r.number ≤ last.number := by
  obtain ⟨init, hinit⟩ := List.getLast?_eq_some_iff.mp hlast
  have hsorted := @pairwise_number_shown _ messages opts
  rw [hinit] at h hsorted
  rcases List.mem_append.mp h with h | h
  · rw [List.map_append, List.pairwise_append] at hsorted
    exact (hsorted.2.2 _ (List.mem_map_of_mem h) _ (by simp)).le
  · rw [List.mem_singleton.mp h]

end Shown

/-! ### What is written -/

section Written

variable (text : ρ → JsString)

theorem sections_ne_nil (round : RoundDraft ρ) : sections text round ≠ [] := by
  simp [sections]

theorem joinBodies_nil_left (tailText : JsString) : joinBodies [] tailText = tailText := by
  simp [joinBodies]

theorem joinBodies_nil_right (prevBody : JsString) : joinBodies prevBody [] = prevBody := by
  rcases prevBody with - | ⟨c, prevBody⟩
  · rfl
  · rfl

theorem joinBodies_of_ne_nil {prevBody tailText : JsString} (h : prevBody ≠ [])
    (h' : tailText ≠ []) : joinBodies prevBody tailText = prevBody ++ (blankLine ++ tailText) :=
  if_pos ⟨h, h'⟩

theorem intercalate_ne_nil {blocks : List JsString} (hne : blocks ≠ [])
    (hblocks : ∀ b ∈ blocks, b ≠ []) : blankLine.intercalate blocks ≠ [] := by
  rcases blocks with - | ⟨b, - | ⟨b', blocks⟩⟩
  · exact absurd rfl hne
  · rw [List.intercalate_singleton]
    exact hblocks b List.mem_cons_self
  · rw [List.intercalate_cons_cons]
    exact List.append_ne_nil_of_left_ne_nil
      (List.append_ne_nil_of_left_ne_nil (hblocks b List.mem_cons_self) _) _

theorem intercalate_append {blocks blocks' : List JsString} (hblocks : ∀ b ∈ blocks, b ≠ [])
    (hblocks' : ∀ b ∈ blocks', b ≠ []) : blankLine.intercalate (blocks ++ blocks') =
      joinBodies (blankLine.intercalate blocks) (blankLine.intercalate blocks') := by
  rcases eq_or_ne blocks' [] with rfl | hne'
  · rw [List.append_nil, List.intercalate_nil, joinBodies_nil_right]
  · have hright := intercalate_ne_nil hne' hblocks'
    induction blocks with
    | nil => rw [List.nil_append, List.intercalate_nil, joinBodies_nil_left]
    | cons b blocks ih =>
      have hrest := fun c hc => hblocks c (List.mem_cons_of_mem b hc)
      rw [joinBodies_of_ne_nil (intercalate_ne_nil (by simp) hblocks) hright]
      rcases eq_or_ne blocks [] with rfl | hne
      · obtain ⟨b', blocks', rfl⟩ := List.exists_cons_of_ne_nil hne'
        rw [List.singleton_append, List.intercalate_cons_cons, List.intercalate_singleton,
          List.append_assoc]
      · have hleft := intercalate_ne_nil hne hrest
        obtain ⟨b', blocks, rfl⟩ := List.exists_cons_of_ne_nil hne
        rw [List.cons_append, List.cons_append, List.intercalate_cons_cons, ← List.cons_append,
          ih hrest, joinBodies_of_ne_nil hleft hright, List.intercalate_cons_cons]
        simp only [List.append_assoc]

theorem sections_nonempty {round : RoundDraft ρ} {s : JsString}
    (h : s ∈ sections text round) : s ≠ [] := by
  simp only [sections, List.cons_append, List.nil_append, List.mem_cons, List.mem_flatMap] at h
  rcases h with rfl | rfl | rfl | ⟨m, _, h⟩
  · exact List.append_ne_nil_of_left_ne_nil (by decide) _
  · decide
  · split
    · decide
    · assumption
  · simp only [renderAssistantParts] at h
    split at h
    · cases h
    · next hne =>
      rcases List.mem_cons.mp h with rfl | h
      · decide
      · rw [List.mem_singleton.mp h]
        exact hne

theorem renderRound_ne_nil (round : RoundDraft ρ) : renderRound text round ≠ [] :=
  intercalate_ne_nil (sections_ne_nil text round) fun _ => sections_nonempty text

theorem foldl_step (s : Rendered) (rs : List (RoundDraft ρ)) :
    rs.foldl (Rendered.step text) s =
      { blocks := s.blocks ++ rs.map (renderRound text)
        lastRound := (rs.getLast?.map RoundDraft.number).getD s.lastRound
        messagesEmitted := s.messagesEmitted + (rs.map fun r => r.messages.length).sum } := by
  induction rs generalizing s with
  | nil => simp
  | cons r rs ih =>
    have hstep : Rendered.step text s r =
        { blocks := s.blocks ++ [renderRound text r]
          lastRound := r.number
          messagesEmitted := s.messagesEmitted + (1 + r.assistantMessages.length) } := by
      rw [Rendered.step]
      exact if_neg (renderRound_ne_nil text r)
    rw [List.foldl_cons, hstep, ih, List.map_cons, List.map_cons, List.sum_cons,
      List.append_assoc, List.singleton_append, RoundDraft.messages, List.length_cons,
      List.getLast?_cons]
    congr 1
    · cases rs.getLast? <;> rfl
    · show s.messagesEmitted + (1 + r.assistantMessages.length) + _ = _
      omega

theorem intercalate_sections (rs : List (RoundDraft ρ)) :
    blankLine.intercalate (rs.map (renderRound text)) =
      blankLine.intercalate (rs.flatMap (sections text)) := by
  induction rs with
  | nil => rfl
  | cons r rs ih =>
    have hblocks : ∀ b ∈ rs.map (renderRound text), b ≠ [] := by
      intro b hb
      obtain ⟨r', _, rfl⟩ := List.mem_map.mp hb
      exact renderRound_ne_nil text r'
    have hsections : ∀ s ∈ rs.flatMap (sections text), s ≠ [] := by
      intro s hs
      obtain ⟨r', _, hs⟩ := List.mem_flatMap.mp hs
      exact sections_nonempty text hs
    rw [List.map_cons, ← List.singleton_append, intercalate_append _ hblocks, ih,
      List.flatMap_cons, intercalate_append (fun _ => sections_nonempty text) hsections,
      List.intercalate_singleton, renderRound]
    intro b hb
    rw [List.mem_singleton.mp hb]
    exact renderRound_ne_nil text r

variable (messages : List (WithParts ρ)) (opts : SerializeOptions)

theorem text_serializeRedactedDialog : (serializeRedactedDialog text messages opts).text =
    blankLine.intercalate ((shown messages opts).map (renderRound text)) := by
  simp [serializeRedactedDialog, foldl_step]

theorem lastRound_serializeRedactedDialog : (serializeRedactedDialog text messages opts).lastRound =
    ((shown messages opts).getLast?.map RoundDraft.number).getD (opts.start - 1) := by
  simp only [serializeRedactedDialog, foldl_step, Nat.max_zero]
  rcases hlast : (shown messages opts).getLast? with - | last
  · simp
  · have hstart := start_le_number (List.mem_of_mem_getLast? hlast)
    simp only [Option.map_some, Option.getD_some]
    rw [if_neg (by omega)]

theorem lastRound_cases :
    (serializeRedactedDialog text messages opts).lastRound = opts.start - 1 ∨
      ∃ r ∈ shown messages opts,
        r.number = (serializeRedactedDialog text messages opts).lastRound := by
  rw [lastRound_serializeRedactedDialog]
  rcases hlast : (shown messages opts).getLast? with - | last
  · exact Or.inl rfl
  · exact Or.inr ⟨last, List.mem_of_mem_getLast? hlast, rfl⟩

theorem number_le_lastRound {r : RoundDraft ρ} (h : r ∈ shown messages opts) :
    r.number ≤ (serializeRedactedDialog text messages opts).lastRound := by
  obtain ⟨last, hlast⟩ := Option.isSome_iff_exists.mp
    (List.getLast?_isSome.mpr (List.ne_nil_of_mem h))
  rw [lastRound_serializeRedactedDialog, hlast]
  exact number_le_getLast h hlast

end Written

/-! ### The number of the last round -/

section Numbers

variable {s t : JsString} {n : ℕ}

theorem foldl_max_append (xs ys : List ℕ) :
    (xs ++ ys).foldl max 0 = max (xs.foldl max 0) (ys.foldl max 0) := by
  rw [List.foldl_append, ← Nat.max_zero (xs.foldl max 0), List.foldl_assoc, Nat.max_zero]

theorem foldl_max_le_iff (xs : List ℕ) : xs.foldl max 0 ≤ n ↔ ∀ x ∈ xs, x ≤ n := by
  induction xs with
  | nil => simp
  | cons x xs ih =>
    rw [← List.singleton_append, foldl_max_append, max_le_iff, ih, List.singleton_append,
      List.forall_mem_cons]
    simp

theorem parsePrevLastRound_append_cons {c : UInt16} (hc : isLineTerminator c) :
    parsePrevLastRound (s ++ c :: t) = max (parsePrevLastRound s) (parsePrevLastRound t) := by
  unfold parsePrevLastRound
  rw [List.splitOnP_append_cons s t hc, List.filterMap_append, foldl_max_append]

theorem parsePrevLastRound_blankLine :
    parsePrevLastRound (s ++ (blankLine ++ t)) =
      max (parsePrevLastRound s) (parsePrevLastRound t) := by
  have hnewline : isLineTerminator newline = true := by decide
  have hskip : parsePrevLastRound (newline :: t) = parsePrevLastRound t := by
    have h := parsePrevLastRound_append_cons (s := []) (t := t) hnewline
    rw [List.nil_append] at h
    exact Nat.zero_max _
  show parsePrevLastRound (s ++ newline :: (newline :: t)) = _
  rw [parsePrevLastRound_append_cons hnewline, hskip]

theorem parsePrevLastRound_joinBodies : parsePrevLastRound (joinBodies s t) =
    max (parsePrevLastRound s) (parsePrevLastRound t) := by
  rcases eq_or_ne s [] with rfl | hs
  · exact (Nat.zero_max _).symm
  · rcases eq_or_ne t [] with rfl | ht
    · rw [joinBodies_nil_right]
      exact (Nat.max_zero _).symm
    · rw [joinBodies_of_ne_nil hs ht, parsePrevLastRound_blankLine]

theorem parsePrevLastRound_intercalate_le_iff (blocks : List JsString) :
    parsePrevLastRound (blankLine.intercalate blocks) ≤ n ↔
      ∀ b ∈ blocks, parsePrevLastRound b ≤ n := by
  induction blocks with
  | nil => simp [parsePrevLastRound, headerNumber, js]
  | cons b blocks ih =>
    rw [List.forall_mem_cons, ← ih]
    rcases eq_or_ne blocks [] with rfl | hne
    · simp [parsePrevLastRound, headerNumber, js]
    · obtain ⟨b', blocks, rfl⟩ := List.exists_cons_of_ne_nil hne
      rw [List.intercalate_cons_cons, List.append_assoc, parsePrevLastRound_blankLine, max_le_iff]

theorem isLineTerminator_of_isDigit {c : UInt16} (h : JsString.isDigit c) :
    isLineTerminator c = false := by
  simp only [JsString.isDigit, Bool.and_eq_true, decide_eq_true_eq] at h
  simp only [isLineTerminator, Bool.or_eq_false_iff, decide_eq_false_iff_not]
  omega

theorem isLineTerminator_of_all {s : JsString} (h : (s.all fun c => !isLineTerminator c) = true) :
    ∀ c ∈ s, isLineTerminator c = false := by
  simpa using h

@[simp] theorem parsePrevLastRound_roundHeader (n : ℕ) :
    parsePrevLastRound (roundHeader n) = n := by
  have hdigits : ∀ c ∈ JsString.decimal n, JsString.isDigit c := fun c hc =>
    isDigit_of_mem_decimal hc
  have hline : ∀ c ∈ roundHeader n, isLineTerminator c = false := by
    intro c hc
    rcases List.mem_append.mp hc with hc | hc
    · exact isLineTerminator_of_all (s := js "## Round ") (by decide) c hc
    · exact isLineTerminator_of_isDigit (hdigits c hc)
  have htake : (JsString.decimal n).takeWhile JsString.isDigit = JsString.decimal n :=
    List.takeWhile_eq_self_iff.mpr hdigits
  have hdrop : (JsString.decimal n).dropWhile JsString.isDigit = [] :=
    List.dropWhile_eq_nil_iff.mpr hdigits
  have hheader : headerNumber (roundHeader n) = some n := by
    unfold headerNumber roundHeader
    rw [if_pos (List.isPrefixOf_iff_prefix.mpr (List.prefix_append _ _)), List.drop_left]
    simp only [htake, hdrop, number_decimal]
    exact if_pos ⟨decimal_ne_nil n, rfl⟩
  unfold parsePrevLastRound
  rw [List.splitOnP_eq_singleton hline]
  simp [hheader]

variable (text : ρ → JsString)

def NoHeaderAbove (n : ℕ) (msg : WithParts ρ) : Prop :=
  ∀ line ∈ (collectText text msg.parts).splitOnP isLineTerminator,
    ∀ k, headerNumber line = some k → k ≤ n

theorem noHeaderAbove_iff {msg : WithParts ρ} :
    NoHeaderAbove text n msg ↔ parsePrevLastRound (collectText text msg.parts) ≤ n := by
  rw [parsePrevLastRound, foldl_max_le_iff]
  simp only [List.mem_filterMap, forall_exists_index, and_imp]
  exact ⟨fun h k line hline hk => h line hline k hk, fun h line hline k hk => h k line hline hk⟩

theorem parsePrevLastRound_sections_le_iff (round : RoundDraft ρ) :
    (∀ s ∈ sections text round, parsePrevLastRound s ≤ n) ↔
      round.number ≤ n ∧ ∀ m ∈ round.messages, NoHeaderAbove text n m := by
  have hempty : parsePrevLastRound [] = 0 := by decide
  have huser : parsePrevLastRound (js "**User**") = 0 := by decide
  have hassistant : parsePrevLastRound (js "**Assistant**") = 0 := by decide
  have hplaceholder : parsePrevLastRound (js "_(empty)_") = 0 := by decide
  have hanswer : ∀ m : WithParts ρ, (∀ s ∈ renderAssistantParts text m, parsePrevLastRound s ≤ n) ↔
      NoHeaderAbove text n m := by
    intro m
    rw [noHeaderAbove_iff]
    by_cases h : collectText text m.parts = []
    · simp [renderAssistantParts, h, hempty]
    · simp [renderAssistantParts, h, hassistant]
  have hprompt : parsePrevLastRound (if userMessageText text round.userMessage = [] then
      js "_(empty)_" else userMessageText text round.userMessage) =
        parsePrevLastRound (collectText text round.userMessage.parts) := by
    unfold userMessageText
    split
    · next h => rw [hplaceholder, h, hempty]
    · rfl
  simp only [sections, RoundDraft.messages, List.forall_mem_append, List.forall_mem_cons,
    parsePrevLastRound_roundHeader, huser, hprompt, List.mem_flatMap, forall_exists_index, and_imp,
    Nat.zero_le, true_and, ← noHeaderAbove_iff]
  constructor
  · rintro ⟨⟨hnumber, hp, -⟩, hanswers⟩
    exact ⟨hnumber, hp, fun m hm => (hanswer m).mp fun s hs => hanswers s m hm hs⟩
  · rintro ⟨hnumber, hp, hanswers⟩
    exact ⟨⟨hnumber, hp, by simp⟩, fun s m hm hs => (hanswer m).mpr (hanswers m hm) s hs⟩

theorem parsePrevLastRound_text_le_iff (messages : List (WithParts ρ)) (opts : SerializeOptions) :
    parsePrevLastRound (serializeRedactedDialog text messages opts).text ≤ n ↔
      ∀ r ∈ shown messages opts, r.number ≤ n ∧ ∀ m ∈ r.messages, NoHeaderAbove text n m := by
  rw [text_serializeRedactedDialog, intercalate_sections, parsePrevLastRound_intercalate_le_iff]
  simp only [List.mem_flatMap, forall_exists_index, and_imp]
  constructor
  · intro h r hr
    exact (parsePrevLastRound_sections_le_iff text r).mp fun s hs => h s r hr hs
  · intro h s r hr hs
    exact (parsePrevLastRound_sections_le_iff text r).mpr (h r hr) s hs

end Numbers

/-! ### Folding -/

inductive Section
  | round (number : ℕ)
  | user (userText : JsString)
  | assistant (answer : JsString)
  deriving DecidableEq

def Section.render : Section → List JsString
  | round number => [roundHeader number]
  | user userText => [js "**User**", if userText = [] then js "_(empty)_" else userText]
  | assistant answer => [js "**Assistant**", answer]

def Section.answer? : Section → Option JsString
  | assistant answer => some answer
  | _ => none

section Folding

variable (text : ρ → JsString)

def answer (msg : WithParts ρ) : Option JsString :=
  let answer := collectText text msg.parts
  if answer = [] then none else some answer

def sectionsOf (round : RoundDraft ρ) : List Section :=
  [.round round.number, .user (userMessageText text round.userMessage)] ++
    (round.assistantMessages.filterMap (answer text)).map .assistant

theorem render_sectionsOf (round : RoundDraft ρ) :
    (sectionsOf text round).flatMap Section.render = sections text round := by
  have hanswers : ∀ messages : List (WithParts ρ),
      ((messages.filterMap (answer text)).map Section.assistant).flatMap Section.render =
        messages.flatMap (renderAssistantParts text) := by
    intro messages
    induction messages with
    | nil => rfl
    | cons m messages ih =>
      rw [List.flatMap_cons, ← ih]
      by_cases h : collectText text m.parts = []
      · simp [answer, renderAssistantParts, h]
      · simp [answer, renderAssistantParts, h, Section.render]
  rw [sectionsOf, List.flatMap_append, hanswers]
  rfl

theorem answer?_sectionsOf (rs : List (RoundDraft ρ)) :
    (rs.flatMap (sectionsOf text)).filterMap Section.answer? =
      (rs.flatMap RoundDraft.assistantMessages).filterMap (answer text) := by
  induction rs with
  | nil => rfl
  | cons r rs ih =>
    rw [List.flatMap_cons, List.filterMap_append, ih]
    have hmap : ∀ answers : List JsString,
        (answers.map Section.assistant).filterMap Section.answer? = answers := by
      intro answers
      rw [List.filterMap_map]
      exact List.filterMap_some
    show ((r.assistantMessages.filterMap (answer text)).map _).filterMap _ ++ _ = _
    rw [hmap, List.flatMap_cons, List.filterMap_append]

variable {earlier rest : List (WithParts ρ)} {user : WithParts ρ} {excludeId : Option String}

theorem lastRound_options (n : ℕ)
    (hlast : ∀ u ∈ (earlier.filter WithParts.isUser).getLast?, isExcluded excludeId u = false) :
    (serializeRedactedDialog text earlier (options (n + 1) excludeId)).lastRound =
      n + earlier.countP WithParts.isUser := by
  have hstart : 1 ≤ n + 1 := Nat.le_add_left 1 n
  rw [lastRound_serializeRedactedDialog, shown_options hstart, start_options hstart]
  have hnumbers := number_rounds (n + 1) earlier
  rw [← userMessage_rounds (n + 1) earlier, List.getLast?_map] at hlast
  rcases hrounds : (rounds (n + 1) earlier).eq_nil_or_concat with hnil | ⟨init, r, hr⟩
  · rw [hnil] at hnumbers ⊢
    have hlength := congrArg List.length hnumbers
    rw [List.length_range'] at hlength
    rw [← hlength]
    rfl
  · rw [hr, List.concat_eq_append] at hlast hnumbers ⊢
    have hkept : isExcluded excludeId r.userMessage = false :=
      hlast r.userMessage (by simp)
    have hlength := congrArg List.length hnumbers
    have hnumber := congrArg List.getLast? hnumbers
    simp only [List.length_map, List.length_append, List.length_singleton,
      List.length_range'] at hlength
    rw [← hlength, List.range'_concat, List.getLast?_map] at hnumber
    simp only [List.getLast?_append, List.getLast?_singleton, Option.some_or, Option.map_some,
      Option.some.injEq] at hnumber
    rw [List.filter_append, List.filter_cons_of_pos (by simpa using hkept), List.filter_nil]
    simp only [List.getLast?_append, List.getLast?_singleton, Option.some_or, Option.map_some,
      Option.getD_some]
    omega

/-- **Texts fold**: what is written of a later part of the session, numbered on from what was
written earlier and put behind it, is what is written of both. -/
theorem serialize_append (huser : user.isUser) (n : ℕ)
    (hlast : ∀ u ∈ (earlier.filter WithParts.isUser).getLast?, isExcluded excludeId u = false) :
    let opts := options (n + 1) excludeId
    let before := serializeRedactedDialog text earlier opts
    let after := serializeRedactedDialog text (user :: rest)
      (options (before.lastRound + 1) excludeId)
    let whole := serializeRedactedDialog text (earlier ++ user :: rest) opts
    whole.text = joinBodies before.text after.text ∧ whole.lastRound = after.lastRound := by
  intro opts before after whole
  have hfirst : 1 ≤ n + 1 := Nat.le_add_left 1 n
  have hcount : before.lastRound = n + earlier.countP WithParts.isUser :=
    lastRound_options text n hlast
  have hstart : 1 ≤ before.lastRound + 1 := by omega
  have hsplit : shown (earlier ++ user :: rest) opts =
      shown earlier opts ++ shown (user :: rest) (options (before.lastRound + 1) excludeId) := by
    rw [shown_options hfirst, shown_options hfirst, shown_options hstart, hcount,
      rounds_append huser, List.filter_append, Nat.add_right_comm]
  have hne : ∀ rs : List (RoundDraft ρ), ∀ b ∈ rs.map (renderRound text), b ≠ [] := by
    intro rs b hb
    obtain ⟨r, _, rfl⟩ := List.mem_map.mp hb
    exact renderRound_ne_nil text r
  constructor
  · simp only [whole, before, after, text_serializeRedactedDialog]
    rw [hsplit, List.map_append, intercalate_append (hne _) (hne _)]
  · have hbefore : before.lastRound = ((shown earlier opts).getLast?.map RoundDraft.number).getD n := by
      have hread := lastRound_serializeRedactedDialog text earlier opts
      rwa [start_options hfirst] at hread
    simp only [whole, after, lastRound_serializeRedactedDialog]
    rw [hsplit, List.getLast?_append, start_options hfirst, start_options hstart]
    rcases (shown (user :: rest) (options (before.lastRound + 1) excludeId)).getLast? with - | r
    · simpa using hbefore.symm
    · simp

/-- **The next number** is read off the text of both, if no message has a line that begins a round
with a greater number. -/
theorem parsePrevLastRound_fold :
    let before := serializeRedactedDialog text earlier (options 1 excludeId)
    let later := options (before.lastRound + 1) excludeId
    let after := serializeRedactedDialog text (user :: rest) later
    (∀ r ∈ shown earlier (options 1 excludeId) ++ shown (user :: rest) later,
        ∀ m ∈ r.messages, NoHeaderAbove text after.lastRound m) →
      parsePrevLastRound (joinBodies before.text after.text) = after.lastRound := by
  intro before later after htexts
  have hstart : later.start - 1 = before.lastRound := by
    rw [show later.start = before.lastRound + 1 from start_options (by omega), Nat.add_sub_cancel]
  -- The rounds that are written earlier end before those that are written later.
  have hle : before.lastRound ≤ after.lastRound := by
    rcases lastRound_cases text (user :: rest) later with hnone | ⟨r, hr, hnumber⟩
    · exact (hstart.symm.trans hnone.symm).le
    · have hfirst := start_le_number hr
      rw [← hstart, show after.lastRound = r.number from hnumber.symm]
      omega
  rw [parsePrevLastRound_joinBodies]
  refine le_antisymm (max_le ?_ ?_) ?_
  · refine (parsePrevLastRound_text_le_iff text _ _).mpr fun r hr => ⟨?_, ?_⟩
    · exact (number_le_lastRound text _ _ hr).trans hle
    · exact htexts r (List.mem_append_left _ hr)
  · refine (parsePrevLastRound_text_le_iff text _ _).mpr fun r hr => ⟨?_, ?_⟩
    · exact number_le_lastRound text _ _ hr
    · exact htexts r (List.mem_append_right _ hr)
  · -- The last round that is written begins with its number.
    have hread : ∀ messages opts, ∀ r ∈ shown messages opts,
        r.number ≤ parsePrevLastRound (serializeRedactedDialog text messages opts).text := by
      intro messages opts r hr
      exact ((parsePrevLastRound_text_le_iff text messages opts).mp (Nat.le_refl _) r hr).1
    rcases lastRound_cases text (user :: rest) later with hnone | ⟨r, hr, hnumber⟩
    · rw [show after.lastRound = before.lastRound from hnone.trans hstart]
      rcases lastRound_cases text earlier (options 1 excludeId) with hnone | ⟨r, hr, hnumber⟩
      · rw [show before.lastRound = 0 from hnone]
        exact Nat.zero_le _
      · rw [show before.lastRound = r.number from hnumber.symm]
        exact (hread _ _ r hr).trans (le_max_left _ _)
    · rw [show after.lastRound = r.number from hnumber.symm]
      exact (hread _ _ r hr).trans (le_max_right _ _)

/-- **What a text has of the messages**: behind the first message of the user they are in rounds,
each answer of the rounds that are not left out is one of the sections if it has a text, and no
other section is an answer. -/
structure IsWritten (messages : List (WithParts ρ)) (opts : SerializeOptions) : Prop where
  /-- Only what is before the first message of the user is in no round. -/
  split : messages = (messages.takeWhile fun m => !m.isUser) ++
    (rounds opts.start messages).flatMap RoundDraft.messages
  isRound : ∀ r ∈ rounds opts.start messages, r.IsRound
  numbered : (rounds opts.start messages).map RoundDraft.number =
    List.range' opts.start (messages.countP WithParts.isUser)
  shown : shown messages opts = roundsToRender opts.omitted
    ((rounds opts.start messages).filter fun r => !isExcluded opts.excludeUserMessageID
      r.userMessage)
  written : (serializeRedactedDialog text messages opts).text = blankLine.intercalate
    (((DialogSerializer.shown messages opts).flatMap (sectionsOf text)).flatMap Section.render)
  answers : ((DialogSerializer.shown messages opts).flatMap (sectionsOf text)).filterMap
      Section.answer? =
    ((DialogSerializer.shown messages opts).flatMap RoundDraft.assistantMessages).filterMap
      (answer text)

theorem isWritten (messages : List (WithParts ρ)) (opts : SerializeOptions) :
    IsWritten text messages opts where
  split := by rw [flatMap_rounds, List.takeWhile_append_dropWhile]
  isRound := fun _ => isRound_of_mem_rounds
  numbered := number_rounds _ _
  shown := by rw [DialogSerializer.shown, eligibleRounds_eq]
  written := by
    rw [text_serializeRedactedDialog, intercalate_sections, List.flatMap_assoc]
    simp only [render_sectionsOf]
  answers := answer?_sectionsOf text _

/-- **Texts fold, the next number is read off them, and nothing is lost behind the first message
of the user.** -/
theorem serialize_folds (earlier rest : List (WithParts ρ)) (user : WithParts ρ)
    (excludeId : Option String) (huser : user.isUser) :
    (∀ n : ℕ,
      let before := serializeRedactedDialog text earlier (options (n + 1) excludeId)
      let after := serializeRedactedDialog text (user :: rest)
        (options (before.lastRound + 1) excludeId)
      let whole := serializeRedactedDialog text (earlier ++ user :: rest)
        (options (n + 1) excludeId)
      (∀ u ∈ (earlier.filter WithParts.isUser).getLast?, isExcluded excludeId u = false) →
        whole.text = joinBodies before.text after.text ∧ whole.lastRound = after.lastRound) ∧
    (let before := serializeRedactedDialog text earlier (options 1 excludeId)
      let later := options (before.lastRound + 1) excludeId
      let after := serializeRedactedDialog text (user :: rest) later
      (∀ r ∈ shown earlier (options 1 excludeId) ++ shown (user :: rest) later,
          ∀ m ∈ r.messages, NoHeaderAbove text after.lastRound m) →
        parsePrevLastRound (joinBodies before.text after.text) = after.lastRound) ∧
    ∀ messages opts, IsWritten text messages opts :=
  ⟨fun n => serialize_append text huser n, parsePrevLastRound_fold text, isWritten text⟩

end Folding

/-! ### Two messages -/

def said (id : String) (info : MessageV2.Info JsString) (text : JsString) : WithParts JsString :=
  { id := id, created := 0, info := info
    parts := [{ id := "prt", messageID := id, body := .text false text }] }

def prompt (id : String) (text : JsString) : WithParts JsString := said id (.user []) text

def reply (id : String) (text : JsString) : WithParts JsString :=
  said id (.assistant (some "stop") false []) text

/-- A prompt and its answer, and then another prompt. -/
theorem serialize_folds_hello :
    (serializeRedactedDialog id [prompt "msg_1" (js "Hello"), reply "msg_2" (js "Hi"),
      prompt "msg_3" (js "More")] (options 1 none)).text =
    joinBodies
      (serializeRedactedDialog id [prompt "msg_1" (js "Hello"), reply "msg_2" (js "Hi")]
        (options 1 none)).text
      (serializeRedactedDialog id [prompt "msg_3" (js "More")] (options 2 none)).text :=
  ((serialize_folds id [prompt "msg_1" (js "Hello"), reply "msg_2" (js "Hi")] []
    (prompt "msg_3" (js "More")) none rfl).1 0 (by decide)).1

/-- A prompt may have a line like those that begin a round, and then its number is read. And an
answer that comes first is left out. -/
theorem not_folds :
    (¬∀ user : WithParts JsString, user.isUser → userMessageText id user ≠ [] →
        parsePrevLastRound (serializeRedactedDialog id [user] (options 1 none)).text =
          (serializeRedactedDialog id [user] (options 1 none)).lastRound) ∧
      ¬∀ messages : List (WithParts JsString), ∀ m ∈ messages, m.isAssistant →
        collectText id m.parts ≠ [] →
          includes (serializeRedactedDialog id messages (options 1 none)).text
            (collectText id m.parts) := by
  constructor
  · intro h
    exact absurd (h (prompt "msg_1" (js "## Round 7")) rfl (by decide)) (by decide)
  · intro h
    exact absurd (h [reply "msg_0" (js "Done"), prompt "msg_1" (js "Hello")]
      (reply "msg_0" (js "Done")) List.mem_cons_self rfl (by decide)) (by decide)

end OpenCms.DialogSerializer
