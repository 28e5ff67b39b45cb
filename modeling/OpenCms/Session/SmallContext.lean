import OpenCms.Lib.FittingSuffix
import OpenCms.Lib.JsonText
import Mathlib.Logic.Relation

/-!
# Messages for a small window

Before a session is summarized, its messages are cut to what the window of the model can hold: the
oldest ones are dropped, and if a single message is left that is still too long, its texts are cut.
These are looked for among the `parts` of the message. What is dropped may have the calls of tool
results that are kept; these are repaired behind it, by `sanitizeOrphanedToolCalls`.

`OpenCms.SmallContext.isTruncation` says what is left of the messages.
-/

namespace OpenCms.SmallContext

open JsString

abbrev ModelMessage : Type := Members JsString JsString

abbrev Value : Type := Json JsString JsString

def smallContextMax : ℤ := 128000

def smallContextReservedTokens : ℤ := 5000

def charsPerToken : ℤ := 4

def safeCharBudgetOf (contextLimit : ℤ) : ℤ :=
  (min contextLimit smallContextMax - smallContextReservedTokens) * charsPerToken

def strOf : Value → Option JsString
  | .str s => some s
  | _ => none

def strMember (key : JsString) : Value → Option JsString
  | .obj members => (Members.get members key).bind strOf
  | _ => none

def textOf (part : Value) : Option JsString :=
  if strMember (js "type") part = some (js "text") then
    (strMember (js "text") part).filter fun text => 0 < text.length
  else none

def setText (text : JsString) : Value → Value
  | .obj members => .obj (Members.set members (js "text") (.str text))
  | part => part

def shortened (text : JsString) : JsString :=
  if text.length ≤ 512 then [] else text.drop (text.length - text.length / 2)

/-- The parts after the first text of theirs is cut, if they have one. -/
def shrinkParts : List Value → Option (List Value)
  | [] => none
  | part :: parts =>
    match textOf part with
    | some text => some (setText (shortened text) part :: parts)
    | none => (shrinkParts parts).map (part :: ·)

def partsOf (only : ModelMessage) : List Value :=
  match only.get (js "parts") with
  | some (.arr parts) => parts
  | _ => []

def setParts (only : ModelMessage) (parts : List Value) : ModelMessage :=
  only.set (js "parts") (.arr parts)

def textTotal (parts : List Value) : ℕ := (parts.map fun part => ((textOf part).getD []).length).sum

variable {part : Value}

theorem strMember_setText (key : JsString) (text : JsString)
    (hpart : ∃ members, part = .obj members) :
    strMember key (setText text part) =
      if key = js "text" then some text else strMember key part := by
  obtain ⟨members, rfl⟩ := hpart
  rw [setText, strMember, strMember, Members.get_set]
  split <;> rfl

variable {text : JsString}

theorem exists_obj_of_textOf (h : textOf part = some text) : ∃ members, part = .obj members := by
  rcases part with _ | _ | _ | _ | _ | members
  case obj => exact ⟨members, rfl⟩
  all_goals simp [textOf, strMember] at h

theorem textOf_ne_nil (h : textOf part = some text) : text ≠ [] := by
  unfold textOf at h
  split at h
  · have hlength := (Option.filter_eq_some_iff.mp h).2
    rw [decide_eq_true_eq] at hlength
    exact List.length_pos_iff.mp hlength
  · cases h

theorem textOf_setText (h : textOf part = some text) (text' : JsString) :
    ((textOf (setText text' part)).getD []) = text' := by
  have hobj := exists_obj_of_textOf h
  have htype : strMember (js "type") part = some (js "text") := by
    by_contra hne
    rw [textOf, if_neg hne] at h
    cases h
  have hkey : js "type" ≠ js "text" := by decide
  rw [textOf, strMember_setText _ _ hobj, if_neg hkey, if_pos htype, strMember_setText _ _ hobj,
    if_pos rfl]
  rcases text' with - | ⟨c, text'⟩
  · rfl
  · rfl

theorem length_shortened (h : text ≠ []) : (shortened text).length < text.length := by
  have hpos := List.length_pos_iff.mpr h
  unfold shortened
  split
  · exact hpos
  · rw [List.length_drop]
    omega

theorem textTotal_shrinkParts {parts parts' : List Value} (h : shrinkParts parts = some parts') :
    textTotal parts' < textTotal parts := by
  induction parts generalizing parts' with
  | nil => cases h
  | cons part parts ih =>
    rw [shrinkParts] at h
    rcases htext : textOf part with - | text
    · rw [htext] at h
      obtain ⟨rest, hrest, rfl⟩ := Option.map_eq_some_iff.mp h
      have hlt := ih hrest
      simp only [textTotal, List.map_cons, List.sum_cons] at hlt ⊢
      omega
    · rw [htext] at h
      obtain rfl := Option.some.inj h
      have hlt := length_shortened (textOf_ne_nil htext)
      simp only [textTotal, List.map_cons, List.sum_cons, textOf_setText htext, htext,
        Option.getD_some]
      omega

theorem partsOf_setParts (only : ModelMessage) (parts : List Value) :
    partsOf (setParts only parts) = parts := by
  rw [partsOf, setParts, Members.get_set, if_pos rfl]

section Truncate

variable (numLength : ℚ → ℕ)

def stringifyLength (messages : List ModelMessage) : ℕ :=
  Json.textLength numLength (.arr (messages.map .obj))

/-- The loop over a single message that is too long. It ends because each time there is less text to
cut. -/
def shrink (safeCharBudget : ℕ) (only : ModelMessage) : ModelMessage :=
  if stringifyLength numLength [only] ≤ safeCharBudget then only
  else
    match _h : shrinkParts (partsOf only) with
    | none => only
    | some parts => shrink safeCharBudget (setParts only parts)
termination_by textTotal (partsOf only)
decreasing_by
  rw [partsOf_setParts]
  exact textTotal_shrinkParts _h

def messageSize (message : ModelMessage) : ℕ := Json.textLength numLength (.obj message) + 1

/-- The result of `truncateModelMessagesForSmallContext`. -/
structure Truncated where
  messages : List ModelMessage
  truncated : Bool
  safeCharBudget : ℕ

def truncateModelMessagesForSmallContext (modelMessages : List ModelMessage) (contextLimit : ℤ) :
    Truncated :=
  let smallContextLimit := min contextLimit smallContextMax
  if smallContextLimit = 0 ∨ safeCharBudgetOf contextLimit ≤ 0 then ⟨modelMessages, false, 0⟩
  else
    let safeCharBudget := (safeCharBudgetOf contextLimit).toNat
    if stringifyLength numLength modelMessages ≤ safeCharBudget then
      ⟨modelMessages, false, safeCharBudget⟩
    else
      let truncated := fittingSuffix (messageSize numLength) safeCharBudget 2 modelMessages
      match truncated with
      | [only] =>
        if safeCharBudget < stringifyLength numLength [only] then
          ⟨[shrink numLength safeCharBudget only], true, safeCharBudget⟩
        else ⟨[only], true, safeCharBudget⟩
      | _ => ⟨truncated, true, safeCharBudget⟩

end Truncate

/-! ### What is left of a single message -/

def ShrinkStep (only only' : ModelMessage) : Prop :=
  ∃ before part after text text', partsOf only = before ++ part :: after ∧
    textOf part = some text ∧ text' <:+ text ∧
    only' = setParts only (before ++ setText text' part :: after)

/-- Some texts of a message have become suffixes of themselves. -/
abbrev Shrunk : ModelMessage → ModelMessage → Prop := Relation.ReflTransGen ShrinkStep

theorem exists_of_shrinkParts {parts parts' : List Value} (h : shrinkParts parts = some parts') :
    ∃ before part after text, parts = before ++ part :: after ∧ textOf part = some text ∧
      parts' = before ++ setText (shortened text) part :: after := by
  induction parts generalizing parts' with
  | nil => cases h
  | cons part parts ih =>
    rw [shrinkParts] at h
    rcases htext : textOf part with - | text
    · rw [htext] at h
      obtain ⟨rest, hrest, rfl⟩ := Option.map_eq_some_iff.mp h
      obtain ⟨before, part', after, text, rfl, htext', rfl⟩ := ih hrest
      exact ⟨part :: before, part', after, text, rfl, htext', rfl⟩
    · rw [htext] at h
      obtain rfl := Option.some.inj h
      exact ⟨[], part, parts, text, rfl, htext, rfl⟩

theorem shortened_isSuffix (text : JsString) : shortened text <:+ text := by
  unfold shortened
  split
  · exact List.nil_suffix
  · exact List.drop_suffix _ _

theorem Shrunk.get_eq {only only' : ModelMessage} (h : Shrunk only only') {key : JsString}
    (hkey : key ≠ js "parts") : only'.get key = only.get key := by
  induction h with
  | refl => rfl
  | tail _ hstep ih =>
    obtain ⟨_, _, _, _, _, _, _, _, rfl⟩ := hstep
    rw [setParts, Members.get_set, if_neg hkey, ih]

variable (numLength : ℚ → ℕ)

theorem shrunk_shrink (safeCharBudget : ℕ) (only : ModelMessage) :
    Shrunk only (shrink numLength safeCharBudget only) := by
  induction only using shrink.induct numLength safeCharBudget with
  | case1 only hfits =>
    rw [shrink, if_pos hfits]
  | case2 only hlong hnone =>
    rw [shrink, if_neg hlong]
    split
    · exact Relation.ReflTransGen.refl
    · next parts hparts =>
      rw [hnone] at hparts
      cases hparts
  | case3 only hlong parts hparts ih =>
    have hshrink : shrink numLength safeCharBudget only =
        shrink numLength safeCharBudget (setParts only parts) := by
      conv_lhs => rw [shrink, if_neg hlong]
      split
      · next hnone =>
        rw [hparts] at hnone
        cases hnone
      · next parts' hparts' =>
        rw [hparts] at hparts'
        rw [Option.some.inj hparts']
    rw [hshrink]
    obtain ⟨before, part, after, text, hsplit, htext, rfl⟩ := exists_of_shrinkParts hparts
    exact Relation.ReflTransGen.head
      ⟨before, part, after, text, shortened text, hsplit, htext, shortened_isSuffix text, rfl⟩ ih

/-! ### Calls and results -/

def contentOf (message : ModelMessage) : List Value :=
  match message.get (js "content") with
  | some (.arr items) => items
  | _ => []

def itemsOf (messages : List ModelMessage) : List Value := messages.flatMap contentOf

def callId (item : Value) : Option JsString :=
  if strMember (js "type") item = some (js "tool-call") then strMember (js "toolCallId") item
  else none

def resultId (item : Value) : Option JsString :=
  if strMember (js "type") item = some (js "tool-result") then strMember (js "toolCallId") item
  else none

/-- Each result comes behind a call, which may be among those of `earlier`. -/
def PairedAfter (earlier items : List Value) : Prop :=
  ∀ before item after, items = before ++ item :: after → ∀ id, resultId item = some id →
    ∃ call ∈ earlier ++ before, callId call = some id

/-- Each result comes behind its call. -/
def Paired (messages : List ModelMessage) : Prop := PairedAfter [] (itemsOf messages)

theorem itemsOf_append (messages messages' : List ModelMessage) :
    itemsOf (messages ++ messages') = itemsOf messages ++ itemsOf messages' :=
  List.flatMap_append

theorem Paired.pairedAfter {dropped kept : List ModelMessage} (h : Paired (dropped ++ kept)) :
    PairedAfter (itemsOf dropped) (itemsOf kept) := by
  intro before item after hsplit id hid
  refine h (itemsOf dropped ++ before) item after ?_ id hid
  rw [itemsOf_append, hsplit, List.append_assoc]

theorem Shrunk.contentOf_eq {only only' : ModelMessage} (h : Shrunk only only') :
    contentOf only' = contentOf only := by
  rw [contentOf, contentOf, h.get_eq (by decide)]

/-! ### What is left of all messages -/

section Truncation

variable {messages : List ModelMessage} {contextLimit : ℤ}

/-- What is left of messages that are too long for a budget: a suffix, as long as possible, but at
least the last message, whose texts are cut if it is still too long. A result whose call is not left
had it in a message that was dropped. -/
def IsLeft (messages : List ModelMessage) (budget : ℕ) (left : List ModelMessage) : Prop :=
  ∃ dropped kept, messages = dropped ++ kept ∧ (messages ≠ [] → kept ≠ []) ∧
    (left = kept ∨ ∃ only only', kept = [only] ∧ left = [only'] ∧ Shrunk only only' ∧
      budget < stringifyLength numLength [only]) ∧
    (∀ longer, longer <:+ messages → kept.length < longer.length →
      budget ≤ stringifyLength numLength longer) ∧
    (Paired messages → PairedAfter (itemsOf dropped) (itemsOf left))

/-- What is left: everything if there is no budget or if it fits, and otherwise a suffix. It is
within the budget if the last message is. -/
structure IsTruncation (messages : List ModelMessage) (contextLimit : ℤ) (out : Truncated) :
    Prop where
  noBudget : safeCharBudgetOf contextLimit ≤ 0 → out = ⟨messages, false, 0⟩
  same : 0 < safeCharBudgetOf contextLimit →
    stringifyLength numLength messages ≤ (safeCharBudgetOf contextLimit).toNat →
      out = ⟨messages, false, (safeCharBudgetOf contextLimit).toNat⟩
  truncated : 0 < safeCharBudgetOf contextLimit →
    (safeCharBudgetOf contextLimit).toNat < stringifyLength numLength messages →
      out.truncated ∧ out.safeCharBudget = (safeCharBudgetOf contextLimit).toNat
  suffix : IsLeft numLength messages (safeCharBudgetOf contextLimit).toNat out.messages
  fits : 0 < safeCharBudgetOf contextLimit → ∀ last ∈ messages.getLast?,
    stringifyLength numLength [last] ≤ (safeCharBudgetOf contextLimit).toNat →
      stringifyLength numLength out.messages ≤ (safeCharBudgetOf contextLimit).toNat

theorem stringifyLength_add_one (hne : messages ≠ []) :
    stringifyLength numLength messages + 1 =
      2 + (messages.map (messageSize numLength)).sum := by
  have hne' : messages.map Json.obj ≠ [] := by simpa using hne
  have h := Json.textLength_arr numLength hne'
  rwa [List.map_map] at h

theorem guard_of_pos (hbudget : 0 < safeCharBudgetOf contextLimit) :
    ¬(min contextLimit smallContextMax = 0 ∨ safeCharBudgetOf contextLimit ≤ 0) := by
  rintro (h | h)
  · rw [safeCharBudgetOf, h] at hbudget
    exact absurd hbudget (by decide)
  · omega

theorem truncate_eq (hbudget : 0 < safeCharBudgetOf contextLimit)
    (hlong : (safeCharBudgetOf contextLimit).toNat < stringifyLength numLength messages) :
    let budget := (safeCharBudgetOf contextLimit).toNat
    let kept := fittingSuffix (messageSize numLength) budget 2 messages
    let out := truncateModelMessagesForSmallContext numLength messages contextLimit
    out.truncated ∧ out.safeCharBudget = budget ∧
      (out.messages = kept ∧ (∀ only, kept = [only] → stringifyLength numLength [only] ≤ budget) ∨
        ∃ only, kept = [only] ∧ budget < stringifyLength numLength [only] ∧
          out.messages = [shrink numLength budget only]) := by
  intro budget kept out
  have hout : out = match kept with
      | [only] =>
        if budget < stringifyLength numLength [only] then
          ⟨[shrink numLength budget only], true, budget⟩
        else ⟨[only], true, budget⟩
      | _ => ⟨kept, true, budget⟩ := by
    simp only [out, truncateModelMessagesForSmallContext]
    rw [if_neg (guard_of_pos hbudget), if_neg (by omega)]
  rcases hkept : kept with - | ⟨only, - | ⟨second, rest⟩⟩
  · have hout' : out = ⟨[], true, budget⟩ := by rw [hout, hkept]
    rw [hout']
    exact ⟨rfl, rfl, Or.inl ⟨rfl, by simp⟩⟩
  · by_cases honly : budget < stringifyLength numLength [only]
    · have hout' : out = ⟨[shrink numLength budget only], true, budget⟩ := by
        rw [hout, hkept]
        exact if_pos honly
      rw [hout']
      exact ⟨rfl, rfl, Or.inr ⟨only, rfl, honly, rfl⟩⟩
    · have hout' : out = ⟨[only], true, budget⟩ := by
        rw [hout, hkept]
        exact if_neg honly
      rw [hout']
      refine ⟨rfl, rfl, Or.inl ⟨rfl, fun only' heq => ?_⟩⟩
      rw [← List.head_eq_of_cons_eq heq]
      omega
  · have hout' : out = ⟨only :: second :: rest, true, budget⟩ := by rw [hout, hkept]
    rw [hout']
    exact ⟨rfl, rfl, Or.inl ⟨rfl, by simp⟩⟩

theorem isLeft_refl (messages : List ModelMessage) (budget : ℕ) :
    IsLeft numLength messages budget messages :=
  ⟨[], messages, rfl, id, Or.inl rfl,
    fun _ hlonger hlt => absurd hlonger.length_le (Nat.not_le_of_lt hlt), id⟩

theorem le_stringifyLength_of_longer {budget : ℕ} {longer : List ModelMessage}
    (hlonger : longer <:+ messages)
    (hlt : (fittingSuffix (messageSize numLength) budget 2 messages).length < longer.length) :
    budget ≤ stringifyLength numLength longer := by
  by_contra hle
  have hne : longer ≠ [] := List.ne_nil_of_length_pos (by omega)
  have hsum := stringifyLength_add_one numLength hne
  have hsub := @isSuffix_fittingSuffix _ (messageSize numLength) _ 2 _ _ hlonger
    (by omega : 2 + (longer.map (messageSize numLength)).sum ≤ budget)
  exact absurd hsub.length_le (Nat.not_le_of_lt hlt)

theorem isLeft_truncate (hbudget : 0 < safeCharBudgetOf contextLimit)
    (hlong : (safeCharBudgetOf contextLimit).toNat < stringifyLength numLength messages) :
    IsLeft numLength messages (safeCharBudgetOf contextLimit).toNat
      (truncateModelMessagesForSmallContext numLength messages contextLimit).messages := by
  obtain ⟨-, -, hmessages⟩ := truncate_eq numLength hbudget hlong
  obtain ⟨before, hsplit, -, -⟩ := @fittingSuffix_spec _ (messageSize numLength)
    (safeCharBudgetOf contextLimit).toNat 2 messages
  refine ⟨before, _, hsplit, fittingSuffix_ne_nil, ?_,
    fun longer hlonger hlt => le_stringifyLength_of_longer numLength hlonger hlt, ?_⟩
  · rcases hmessages with ⟨heq, -⟩ | ⟨only, hkept, honly, heq⟩
    · exact Or.inl heq
    · exact Or.inr ⟨only, _, hkept, heq, shrunk_shrink numLength _ only, honly⟩
  · intro hpaired
    have hafter := (hsplit ▸ hpaired : Paired (before ++ _)).pairedAfter
    rcases hmessages with ⟨heq, -⟩ | ⟨only, hkept, -, heq⟩
    · rwa [heq]
    · rw [hkept] at hafter
      have hitems : itemsOf [shrink numLength (safeCharBudgetOf contextLimit).toNat only] =
          itemsOf [only] := by
        simp only [itemsOf, List.flatMap_singleton]
        exact (shrunk_shrink numLength _ only).contentOf_eq
      rwa [heq, hitems]

theorem truncate_fits (hbudget : 0 < safeCharBudgetOf contextLimit)
    (hlong : (safeCharBudgetOf contextLimit).toNat < stringifyLength numLength messages)
    {last : ModelMessage} (hlast : last ∈ messages.getLast?)
    (hfits : stringifyLength numLength [last] ≤ (safeCharBudgetOf contextLimit).toNat) :
    stringifyLength numLength
        (truncateModelMessagesForSmallContext numLength messages contextLimit).messages ≤
      (safeCharBudgetOf contextLimit).toNat := by
  obtain ⟨-, -, hmessages⟩ := truncate_eq numLength hbudget hlong
  obtain ⟨before, hsplit, hshort, -⟩ := @fittingSuffix_spec _ (messageSize numLength)
    (safeCharBudgetOf contextLimit).toNat 2 messages
  have hne := @fittingSuffix_ne_nil _ (messageSize numLength)
    (safeCharBudgetOf contextLimit).toNat 2 _ (List.ne_nil_of_mem (List.mem_of_mem_getLast? hlast))
  generalize fittingSuffix (messageSize numLength) (safeCharBudgetOf contextLimit).toNat 2
    messages = kept at *
  rcases hmessages with ⟨heq, hsingle⟩ | ⟨only, hkept, honly, heq⟩
  · rw [heq]
    rcases hshort with hshort | hsum
    · -- One message is kept.
      obtain ⟨only, rest, rfl⟩ := List.exists_cons_of_ne_nil hne
      rw [List.length_cons] at hshort
      obtain rfl : rest = [] := List.length_eq_zero_iff.mp (by omega)
      exact hsingle only rfl
    · have hadd := stringifyLength_add_one numLength hne
      omega
  · -- The last message is the one that is kept, and it fits.
    rw [hsplit, hkept, List.getLast?_append] at hlast
    obtain rfl : only = last := by simpa using hlast
    omega

/-- **What is left of messages for a small window.** -/
theorem isTruncation (messages : List ModelMessage) (contextLimit : ℤ) :
    IsTruncation numLength messages contextLimit
      (truncateModelMessagesForSmallContext numLength messages contextLimit) := by
  set out := truncateModelMessagesForSmallContext numLength messages contextLimit with hout
  have hnoBudget : safeCharBudgetOf contextLimit ≤ 0 → out = ⟨messages, false, 0⟩ :=
    fun h => if_pos (Or.inr h)
  have hsame : 0 < safeCharBudgetOf contextLimit →
      stringifyLength numLength messages ≤ (safeCharBudgetOf contextLimit).toNat →
        out = ⟨messages, false, (safeCharBudgetOf contextLimit).toNat⟩ := by
    intro hbudget hfits
    rw [hout, truncateModelMessagesForSmallContext]
    rw [if_neg (guard_of_pos hbudget), if_pos hfits]
  rcases lt_or_ge 0 (safeCharBudgetOf contextLimit) with hbudget | hbudget
  · rcases Nat.lt_or_ge (safeCharBudgetOf contextLimit).toNat
      (stringifyLength numLength messages) with hlong | hfits
    · obtain ⟨htruncated, hsafe, -⟩ := truncate_eq numLength hbudget hlong
      exact ⟨hnoBudget, hsame, fun _ _ => ⟨htruncated, hsafe⟩,
        isLeft_truncate numLength hbudget hlong,
        fun _ _ hlast => truncate_fits numLength hbudget hlong hlast⟩
    · have heq := hsame hbudget hfits
      refine ⟨hnoBudget, hsame, fun _ h => absurd h (by omega), ?_, fun _ _ _ _ => ?_⟩
      · rw [heq]
        exact isLeft_refl numLength messages _
      · rwa [heq]
  · have heq := hnoBudget hbudget
    refine ⟨hnoBudget, hsame, fun h => absurd h (by omega), ?_, fun h => absurd h (by omega)⟩
    rw [heq]
    exact isLeft_refl numLength messages _

end Truncation

/-! ### Without a budget, and without a call -/

def itemMessage (role : String) (item : Members JsString JsString) : ModelMessage :=
  [(js "role", .str (js role)), (js "content", .arr [.obj item])]

def callMessage : ModelMessage :=
  itemMessage "assistant" [(js "type", .str (js "tool-call")),
    (js "toolCallId", .str (js "call_1")), (js "toolName", .str (js "read")),
    (js "input", .obj [(js "filePath", .str (js "notes.md"))])]

def resultMessage : ModelMessage :=
  itemMessage "tool" [(js "type", .str (js "tool-result")),
    (js "toolCallId", .str (js "call_1")), (js "toolName", .str (js "read")),
    (js "output", .obj [(js "type", .str (js "text")), (js "value", .str (js "Hello"))])]

theorem paired_call_result : Paired [callMessage, resultMessage] := by
  intro before item after hsplit id hid
  rcases before with - | ⟨first, before⟩
  · -- The first item is the call.
    have hfirst := (List.cons.inj hsplit).1
    rw [← hfirst] at hid
    exact absurd hid (by rw [resultId, if_neg (by decide)]; simp)
  · have hfirst := (List.cons.inj hsplit).1
    have hrest := (List.cons.inj hsplit).2
    rcases before with - | ⟨second, before⟩
    · have hsecond := (List.cons.inj hrest).1
      rw [← hsecond] at hid
      refine ⟨first, by simp, ?_⟩
      rw [← hfirst, ← hid]
      decide
    · have hnone : [] = before ++ item :: after := (List.cons.inj hrest).2
      simp at hnone

/-- Without a limit there is no budget, and everything is left. And a result may be left whose call
is dropped. -/
theorem not_isTruncation :
    (¬∀ messages contextLimit,
      let out := truncateModelMessagesForSmallContext (fun _ => 1) messages contextLimit
      out.messages ≠ [] → stringifyLength (fun _ => 1) out.messages ≤ out.safeCharBudget) ∧
    ¬∀ messages contextLimit, Paired messages →
      Paired (truncateModelMessagesForSmallContext (fun _ => 1) messages contextLimit).messages := by
  constructor
  · intro h
    exact absurd (h [callMessage] 0 (List.cons_ne_nil _ _)) (by decide)
  · intro h
    have hbudget : 0 < safeCharBudgetOf 5050 := by decide
    have hlong : (safeCharBudgetOf 5050).toNat <
        stringifyLength (fun _ => 1) [callMessage, resultMessage] := by decide
    have hkept : fittingSuffix (messageSize fun _ => 1) (safeCharBudgetOf 5050).toNat 2
        [callMessage, resultMessage] = [resultMessage] := rfl
    have hfits : stringifyLength (fun _ => 1) [resultMessage] ≤ (safeCharBudgetOf 5050).toNat := by
      decide
    have hpaired := h [callMessage, resultMessage] 5050 paired_call_result
    obtain ⟨-, -, ⟨hout, -⟩ | ⟨only, honly, hlt, -⟩⟩ := truncate_eq (fun _ => 1) hbudget hlong
    · obtain ⟨call, hcall, -⟩ := hpaired [] _ [] rfl (js "call_1") (by decide)
      cases hcall
    · rw [← List.head_eq_of_cons_eq honly] at hlt
      omega

end OpenCms.SmallContext
