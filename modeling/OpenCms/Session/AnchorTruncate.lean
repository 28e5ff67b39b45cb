import OpenCms.Lib.Cut
import OpenCms.Lib.FittingSuffix
import OpenCms.Session.Anchor
import OpenCms.Session.DialogSerializer

/-!
# The body of an anchor, cut to a budget

When a session goes to a model with a smaller window, the text of its anchor is cut: its head stays,
and of its rounds the newest ones that fit. Where the rounds begin is read off the text, from lines
that name a round and who spoke. The text of `rebuildStreamFromText` has these lines, but that of
`serializeRedactedDialog` has not, so of it the oldest part is kept. And a message with such a line
in it is taken for the beginning of a round.

What becomes of a body by design is `OpenCms.SessionCompaction.truncate_isCut`.
-/

namespace OpenCms.SessionCompaction

open JsString
open DialogSerializer (blankLine isLineTerminator shown renderRound serializeRedactedDialog
  roundHeader sections SerializeOptions)
open MessageV2 (WithParts Part)

variable {ρ : Type} {prev : Option UInt16}

/-! ### Cutting -/

def elision : JsString :=
  js "\n\n…(older rounds elided — use `session_recall` to query them)…\n\n"

def isRoundLine (line : JsString) : Bool :=
  (js "## Round ").isPrefixOf line &&
    let rest := line.drop (js "## Round ").length
    rest.takeWhile JsString.isDigit ≠ [] &&
      (rest.dropWhile JsString.isDigit = js " (user)" ||
        rest.dropWhile JsString.isDigit = js " (assistant)")

/-- Whether `ROUND_RE` matches in front of a text, from what comes before it. -/
def atRound (prev : Option UInt16) (s : JsString) : Bool :=
  prev.all isLineTerminator && isRoundLine (s.takeWhile fun c => !isLineTerminator c)

def truncateAnchorBodyToBudget (body : JsString) (budgetChars : ℕ) : JsString :=
  if budgetChars = 0 ∨ body.length ≤ budgetChars then body
  else
    match firstMark atRound none body with
    -- No rounds: the head that fits.
    | none => body.take (budgetChars - elision.length) ++ elision
    | some firstRoundIdx =>
      let head := body.take firstRoundIdx
      if budgetChars ≤ head.length + elision.length then
        head.take (budgetChars - elision.length) ++ elision
      else
        let rounds := (cut atRound none (body.drop firstRoundIdx)).filter fun s => 0 < s.length
        let tailBudget := budgetChars - head.length - elision.length
        let kept := fittingSuffix List.length tailBudget 0 rounds
        if kept.length = rounds.length then body
        else head ++ (elision ++ kept.flatten)

/-! ### The text of `rebuildStreamFromText` -/

/-- A round of `rebuildStreamFromText`: who spoke, and what was said. -/
structure TextRound where
  user : Bool
  text : JsString
  deriving DecidableEq

section Extract

variable (text : ρ → JsString) (synthetic : ρ → Bool)

def seenText (p : MessageV2.Part ρ) : Option JsString :=
  match p.body with
  | .text _ rest => if synthetic rest ∨ text rest = [] then none else some (text rest)
  | _ => none

def textRound (m : WithParts ρ) : Option TextRound :=
  if isSummary m then none
  else
    let combinedText := trim ([newline].intercalate (m.parts.filterMap (seenText text synthetic)))
    if combinedText = [] then none else some ⟨m.isUser, combinedText⟩

def collectTextRounds (charBudget : ℕ) : ℕ → List TextRound → List (WithParts ρ) → List TextRound
  | _, rounds, [] => rounds
  | totalChars, rounds, m :: older =>
    if totalChars < charBudget then
      match textRound text synthetic m with
      | none => collectTextRounds charBudget totalChars rounds older
      | some round =>
        collectTextRounds charBudget (totalChars + round.text.length) (round :: rounds) older
    else rounds

end Extract

def amnesiaHeader : JsString :=
  unlines [js "---",
    js "\u2139\ufe0f Session context was compacted \u2014 only a short narrative anchor is in your prompt.",
    js "Full tool call history, reasoning, and patch records ARE PRESERVED in the session database.",
    js "Use the `session_recall` tool to query past actions, outputs, or reasoning when you need them.",
    js "Re-read files directly via `read` if you need current bytes.", js "---", js ""]

def label (roundNumber : ℕ) (user : Bool) : JsString :=
  js "## Round " ++
    (JsString.decimal roundNumber ++ if user then js " (user)" else js " (assistant)")

def roundBodies : ℕ → List TextRound → List JsString
  | _, [] => []
  | roundNumber, round :: rounds =>
    let number := if round.user then roundNumber + 1 else roundNumber
    (label number round.user ++ newline :: round.text) :: roundBodies number rounds

def anchorBody (rounds : List TextRound) : JsString :=
  amnesiaHeader ++ blankLine.intercalate (roundBodies 0 rounds)

/-! ### What is to be kept -/

/-- A body that fits is left as it is. Otherwise the head is kept, and the newest rounds, and it
fits. -/
structure KeepsNewest (head : JsString) (rounds : List JsString) (budget : ℕ) (out : JsString) :
    Prop where
  fits : out.length ≤ budget
  same : (head ++ blankLine.intercalate rounds).length ≤ budget →
    out = head ++ blankLine.intercalate rounds
  newest : out = head ++ blankLine.intercalate rounds ∨
    ∃ later, later <:+ rounds ∧ out = head ++ (elision ++ blankLine.intercalate later)

/-- What becomes of the body of an anchor by design: it is left as it is if it fits; if its head
leaves no room, it is the head that is cut; and otherwise the head is kept and as many of the newest
rounds as fit, if one of them does. -/
structure IsCut (head : JsString) (rounds : List JsString) (budget : ℕ) (out : JsString) :
    Prop where
  same : (head ++ blankLine.intercalate rounds).length ≤ budget →
    out = head ++ blankLine.intercalate rounds
  headOnly : budget < (head ++ blankLine.intercalate rounds).length →
    budget ≤ head.length + elision.length →
      out = head.take (budget - elision.length) ++ elision ∧ out.length = budget
  newest : budget < (head ++ blankLine.intercalate rounds).length →
    ∀ last ∈ rounds.getLast?, head.length + elision.length + last.length ≤ budget →
      ∃ later, later <:+ rounds ∧ later ≠ [] ∧
        out = head ++ (elision ++ blankLine.intercalate later) ∧ out.length ≤ budget ∧
        ∀ longer, longer <:+ rounds → later.length < longer.length →
          budget < (head ++ (elision ++ blankLine.intercalate longer)).length

/-! ### Where a text is cut -/

section Cutting

variable {body head s t : JsString} {budget : ℕ}

theorem truncate_of_le (h : body.length ≤ budget) : truncateAnchorBodyToBudget body budget = body :=
  if_pos (Or.inr h)

theorem atRound_none (h : atRound prev s) : atRound none s := by
  simp only [atRound, Bool.and_eq_true] at h
  simpa [atRound] using h.2

theorem atRound_append (hs : ∃ c ∈ s, isLineTerminator c) :
    atRound prev (s ++ t) = atRound prev s := by
  have htake : (s ++ t).takeWhile (fun c => !isLineTerminator c) =
      s.takeWhile fun c => !isLineTerminator c := by
    induction s with
    | nil => simp at hs
    | cons a s ih =>
      by_cases ha : isLineTerminator a
      · simp [ha]
      · obtain ⟨c, hc, hterm⟩ := hs
        have hmem : c ∈ s := by
          rcases List.mem_cons.mp hc with rfl | hc
          · exact absurd hterm ha
          · exact hc
        rw [List.cons_append, List.takeWhile_cons, List.takeWhile_cons, ih ⟨c, hmem, hterm⟩]
  rw [atRound, atRound, htake]

theorem firstMark_append {front : JsString}
    (hlast : ∃ c, front.getLast? = some c ∧ isLineTerminator c)
    (hnone : firstMark atRound prev front = none) :
    firstMark atRound prev (front ++ t) =
      (firstMark atRound front.getLast? t).map (· + front.length) := by
  induction front generalizing prev with
  | nil => simp at hlast
  | cons a front ih =>
    obtain ⟨c, hc, hterm⟩ := hlast
    have hmark : atRound prev (a :: front ++ t) = atRound prev (a :: front) :=
      atRound_append ⟨c, List.mem_of_mem_getLast? hc, hterm⟩
    rw [firstMark] at hnone
    split at hnone
    · cases hnone
    next hfirst =>
    rw [List.cons_append, firstMark, ← List.cons_append, hmark, if_neg hfirst]
    rcases eq_or_ne front [] with rfl | hne
    · simp
    · have hc' : front.getLast? = some c := by
        rw [List.getLast?_cons, List.getLast?_eq_some_getLast hne] at hc
        rw [List.getLast?_eq_some_getLast hne]
        exact hc
      have hrest : firstMark atRound (some a) front = none := by simpa using hnone
      rw [ih ⟨c, hc', hterm⟩ hrest, Option.map_map, List.getLast?_cons, hc']
      simp [Function.comp_def, Nat.add_assoc]

/-- **What is kept** of a body whose head leaves some room: a suffix that begins at a mark, and no
longer one fits. -/
theorem truncate_eq (hbudget : elision.length < budget) (hlong : budget < (head ++ s).length)
    (hfirst : firstMark atRound none (head ++ s) = some head.length)
    (hroom : head.length + elision.length < budget) :
    ∃ kept ∈ markedSuffixes atRound none s,
      truncateAnchorBodyToBudget (head ++ s) budget =
        (if kept = s then head ++ s else head ++ (elision ++ kept)) ∧
      ∀ t ∈ markedSuffixes atRound none s, head.length + elision.length + t.length ≤ budget →
        t.length ≤ kept.length ∧ head.length + elision.length + kept.length ≤ budget := by
  obtain ⟨_, _, _, hne, hmark⟩ := firstMark_eq_some hfirst
  rw [List.drop_left] at hne hmark
  obtain ⟨first, rest, hcut, hflatten, hpieces, hmarked⟩ := @cut_spec _ atRound none s
  -- The text behind the head begins with a round, so nothing is in front of the first cut.
  have hempty : first = [] := by
    obtain ⟨later, hsuffix, -, hlater⟩ :=
      (hmarked s).mp (mem_markedSuffixes_self hne (atRound_none hmark))
    have hlength := @sum_le_of_isSuffix _ List.length _ _ hsuffix
    rw [← List.length_flatten, ← List.length_flatten, ← hlater, ← hflatten,
      List.length_append] at hlength
    exact List.length_eq_zero_iff.mp (by omega)
  subst hempty
  rw [List.nil_append] at hflatten
  have hfilter : (cut atRound none s).filter (fun s => 0 < s.length) = rest := by
    rw [hcut, List.filter_cons_of_neg (by simp), List.filter_eq_self]
    intro piece hpiece
    simpa using List.length_pos_iff.mpr (hpieces piece hpiece)
  have hrest : rest ≠ [] := by
    rintro rfl
    exact hne hflatten.symm
  set tailBudget := budget - head.length - elision.length with htail
  set kept := fittingSuffix List.length tailBudget 0 rest with hkept
  have hsuffix : kept <:+ rest := fittingSuffix_isSuffix
  have hkept_ne : kept ≠ [] := fittingSuffix_ne_nil hrest
  refine ⟨kept.flatten, (hmarked _).mpr ⟨kept, hsuffix, hkept_ne, rfl⟩, ?_, fun t ht hfits => ?_⟩
  · have hall : kept.length = rest.length ↔ kept.flatten = s := by
      constructor
      · intro hlength
        rw [hsuffix.eq_of_length hlength, hflatten]
      · intro heq
        obtain ⟨before, hbefore⟩ := hsuffix
        have hnil : before.flatten = [] := by
          rw [← hflatten, ← hbefore, List.flatten_append] at heq
          exact List.self_eq_append_left.mp heq
        have hnone : before = [] := by
          refine List.eq_nil_iff_forall_not_mem.mpr fun piece hpiece => ?_
          refine hpieces piece (hbefore ▸ List.mem_append_left kept hpiece) ?_
          exact List.flatten_eq_nil_iff.mp hnil piece hpiece
        rw [← hbefore, hnone, List.nil_append]
    unfold truncateAnchorBodyToBudget
    rw [if_neg (by omega), hfirst]
    simp only [List.take_left, List.drop_left, hfilter]
    rw [if_neg (by omega), ← htail, ← hkept]
    simp only [hall]
  · obtain ⟨later, hlater, hlater_ne, rfl⟩ := (hmarked t).mp ht
    rw [List.length_flatten] at hfits
    have hsum : 0 + (later.map List.length).sum ≤ tailBudget := by omega
    have hle := @sum_le_of_isSuffix _ List.length _ _ (isSuffix_fittingSuffix hlater hsum)
    have hkept_fits := fittingSuffix_fits hlater hlater_ne hsum
    rw [← hkept] at hle hkept_fits
    rw [List.length_flatten, List.length_flatten]
    exact ⟨hle, by omega⟩

end Cutting

/-! ### The text of `rebuildStreamFromText`, cut -/

section Rebuilt

variable {rounds : List TextRound} {later : List JsString} {budget : ℕ}

theorem takeWhile_line {line rest : JsString} (h : ∀ c ∈ line, isLineTerminator c = false) :
    (line ++ newline :: rest).takeWhile (fun c => !isLineTerminator c) = line := by
  rw [List.takeWhile_append_of_pos (by simpa using h), List.takeWhile_cons_of_neg (by decide),
    List.append_nil]

theorem isLineTerminator_label (number : ℕ) (user : Bool) :
    ∀ c ∈ label number user, isLineTerminator c = false := by
  intro c hc
  simp only [label, List.mem_append] at hc
  rcases hc with hc | hc | hc
  · exact DialogSerializer.isLineTerminator_of_all (s := js "## Round ") (by decide) c hc
  · exact DialogSerializer.isLineTerminator_of_isDigit (isDigit_of_mem_decimal hc)
  · rcases user with - | -
    · exact DialogSerializer.isLineTerminator_of_all (s := js " (assistant)") (by decide) c hc
    · exact DialogSerializer.isLineTerminator_of_all (s := js " (user)") (by decide) c hc

theorem isRoundLine_label (number : ℕ) (user : Bool) : isRoundLine (label number user) := by
  have hdigits : ∀ c ∈ JsString.decimal number, JsString.isDigit c :=
    fun c hc => isDigit_of_mem_decimal hc
  have hrole : ∀ role : JsString, role = js " (user)" ∨ role = js " (assistant)" →
      isRoundLine (js "## Round " ++ (JsString.decimal number ++ role)) := by
    intro role hrole
    obtain ⟨rest, rfl⟩ : ∃ rest, role = 32 :: rest := by
      rcases hrole with rfl | rfl
      · exact ⟨_, rfl⟩
      · exact ⟨_, rfl⟩
    have htake : (JsString.decimal number ++ 32 :: rest).takeWhile JsString.isDigit =
        JsString.decimal number := by
      rw [List.takeWhile_append_of_pos hdigits, List.takeWhile_cons_of_neg (by decide),
        List.append_nil]
    have hdrop : (JsString.decimal number ++ 32 :: rest).dropWhile JsString.isDigit =
        32 :: rest := by
      rw [List.dropWhile_append_of_pos hdigits, List.dropWhile_cons_of_neg (by decide)]
    unfold isRoundLine
    rw [List.isPrefixOf_iff_prefix.mpr (List.prefix_append _ _), List.drop_left]
    simp only [htake, hdrop, Bool.true_and, Bool.and_eq_true, decide_eq_true_eq, Bool.or_eq_true]
    exact ⟨decimal_ne_nil number, hrole⟩
  rcases user with - | -
  · exact hrole _ (Or.inr rfl)
  · exact hrole _ (Or.inl rfl)

theorem mem_roundBodies {k : ℕ} {b : JsString} (h : b ∈ roundBodies k rounds) :
    ∃ number user said, b = label number user ++ newline :: said := by
  induction rounds generalizing k with
  | nil => cases h
  | cons round rounds ih =>
    rcases List.mem_cons.mp h with rfl | h
    · exact ⟨_, _, _, rfl⟩
    · exact ih h

theorem roundBody_ne_nil {k : ℕ} : ∀ b ∈ roundBodies k rounds, b ≠ [] := by
  intro b hb
  obtain ⟨number, user, said, rfl⟩ := mem_roundBodies hb
  simp

theorem atRound_intercalate {k : ℕ} (hprev : prev.all isLineTerminator)
    (hlater : later <:+ roundBodies k rounds) (hne : later ≠ []) :
    atRound prev (blankLine.intercalate later) := by
  obtain ⟨b, later, rfl⟩ := List.exists_cons_of_ne_nil hne
  obtain ⟨number, user, said, rfl⟩ := mem_roundBodies (hlater.mem List.mem_cons_self)
  have htext : ∃ rest, blankLine.intercalate ((label number user ++ newline :: said) :: later) =
      label number user ++ newline :: rest := by
    rcases later with - | ⟨b', later⟩
    · exact ⟨said, List.intercalate_singleton⟩
    · refine ⟨said ++ (blankLine ++ blankLine.intercalate (b' :: later)), ?_⟩
      rw [List.intercalate_cons_cons]
      simp only [List.append_assoc, List.cons_append]
  obtain ⟨rest, hrest⟩ := htext
  rw [hrest, atRound, takeWhile_line (isLineTerminator_label number user), hprev,
    isRoundLine_label]
  rfl

theorem mem_markedSuffixes_intercalate (hlater : later <:+ roundBodies 0 rounds)
    (hne : later ≠ []) : blankLine.intercalate later ∈
      markedSuffixes atRound none (blankLine.intercalate (roundBodies 0 rounds)) := by
  have hne_text : blankLine.intercalate later ≠ [] :=
    DialogSerializer.intercalate_ne_nil hne fun b hb => roundBody_ne_nil b (hlater.mem hb)
  have hmark := @atRound_intercalate none _ _ _ rfl hlater hne
  have hmark' := @atRound_intercalate (some newline) _ _ _ (by decide) hlater hne
  obtain ⟨before, hbefore⟩ := hlater
  rcases eq_or_ne before [] with rfl | hbefore_ne
  · rw [← hbefore, List.nil_append]
    exact mem_markedSuffixes_self hne_text hmark
  · -- Two line ends are between what comes before and the round.
    have hall : ∀ b ∈ before ++ later, b ≠ [] := fun b hb => roundBody_ne_nil b (hbefore ▸ hb)
    have hleft := fun b hb => hall b (List.mem_append_left later hb)
    have hright := fun b hb => hall b (List.mem_append_right before hb)
    have hsplit : blankLine.intercalate (before ++ later) =
        (blankLine.intercalate before ++ [newline]) ++
          newline :: blankLine.intercalate later := by
      rw [DialogSerializer.intercalate_append hleft hright, DialogSerializer.joinBodies_of_ne_nil
        (DialogSerializer.intercalate_ne_nil hbefore_ne hleft) hne_text, List.append_assoc]
      rfl
    rw [← hbefore, hsplit]
    exact mem_markedSuffixes_append hne_text hmark'

theorem atRound_append_newline (prev : Option UInt16) (t r : JsString) :
    atRound prev (t ++ newline :: r) = atRound prev t := by
  have htake : (t ++ newline :: r).takeWhile (fun c => !isLineTerminator c) =
      t.takeWhile fun c => !isLineTerminator c := by
    induction t with
    | nil => exact List.takeWhile_cons_of_neg (by decide)
    | cons a t ih => rw [List.cons_append, List.takeWhile_cons, List.takeWhile_cons, ih]
  rw [atRound, atRound, htake]

theorem markedSuffixes_append_newline (prev : Option UInt16) (t r : JsString) :
    markedSuffixes atRound prev (t ++ newline :: r) =
      (markedSuffixes atRound prev t).map (· ++ newline :: r) ++
        markedSuffixes atRound (some newline) r := by
  induction t generalizing prev with
  | nil =>
    have hmark : atRound prev (newline :: r) = false := by
      have h := atRound_append_newline prev [] r
      rw [List.nil_append] at h
      rw [h]
      exact Bool.and_false _
    rw [List.nil_append, markedSuffixes_cons, hmark]
    rfl
  | cons a t ih =>
    have hmark := atRound_append_newline prev (a :: t) r
    rw [List.cons_append] at hmark ⊢
    rw [markedSuffixes_cons, markedSuffixes_cons, hmark, ih]
    split <;> rfl

/-- At the beginning of a text a line begins, just as behind a line end. -/
theorem markedSuffixes_newline (t : JsString) :
    markedSuffixes atRound (some newline) t = markedSuffixes atRound none t := by
  rcases t with - | ⟨a, t⟩
  · rfl
  · rfl

theorem markedSuffixes_line {b : UInt16} {line : JsString} (hb : isLineTerminator b = false)
    (h : ∀ c ∈ line, isLineTerminator c = false) : markedSuffixes atRound (some b) line = [] := by
  induction line generalizing b with
  | nil => rfl
  | cons c line ih =>
    obtain ⟨hc, hline⟩ := List.forall_mem_cons.mp h
    rw [markedSuffixes_cons, ih hc hline]
    simp [atRound, hb]

theorem markedSuffixes_roundBody {number : ℕ} {user : Bool} {said : JsString}
    (hsaid : firstMark atRound none said = none) :
    markedSuffixes atRound none (label number user ++ newline :: said) =
      [label number user ++ newline :: said] := by
  have hmark : atRound none (label number user) = true := by
    rw [atRound, List.takeWhile_eq_self_iff.mpr, isRoundLine_label]
    · rfl
    · intro c hc
      simpa using isLineTerminator_label number user c hc
  have hlabel : markedSuffixes atRound none (label number user) = [label number user] := by
    have hline := isLineTerminator_label number user
    obtain ⟨c, line, hc⟩ : ∃ c line, label number user = c :: line := ⟨_, _, rfl⟩
    rw [hc] at hmark hline ⊢
    obtain ⟨hc', hline'⟩ := List.forall_mem_cons.mp hline
    rw [markedSuffixes_cons, if_pos hmark, markedSuffixes_line hc' hline']
  rw [markedSuffixes_append_newline, hlabel, markedSuffixes_newline,
    markedSuffixes_eq_nil.mpr hsaid]
  rfl

/-- **The marks of the text** of rounds are where they begin, if nothing that was said has a line
like theirs. -/
theorem mem_markedSuffixes_iff {k : ℕ} (hsaid : ∀ r ∈ rounds, firstMark atRound none r.text = none)
    (t : JsString) : t ∈ markedSuffixes atRound none (blankLine.intercalate (roundBodies k rounds)) ↔
      ∃ later, later <:+ roundBodies k rounds ∧ later ≠ [] ∧ t = blankLine.intercalate later := by
  induction rounds generalizing k with
  | nil =>
    refine iff_of_false List.not_mem_nil ?_
    rintro ⟨later, hlater, hne, -⟩
    exact hne (List.suffix_nil.mp hlater)
  | cons round rounds ih =>
    obtain ⟨hround, hrounds⟩ := List.forall_mem_cons.mp hsaid
    simp only [roundBodies]
    generalize (if round.user then k + 1 else k) = number
    have hfirst := @markedSuffixes_roundBody number round.user _ hround
    generalize label number round.user ++ newline :: round.text = b at hfirst ⊢
    have hsplit : t ∈ markedSuffixes atRound none
          (blankLine.intercalate (b :: roundBodies number rounds)) ↔
        t = blankLine.intercalate (b :: roundBodies number rounds) ∨
          t ∈ markedSuffixes atRound none (blankLine.intercalate (roundBodies number rounds)) := by
      rcases hnext : roundBodies number rounds with - | ⟨b', bodies⟩
      · rw [List.intercalate_singleton, hfirst, List.intercalate_nil, List.mem_singleton]
        simp [markedSuffixes]
      · have htext : blankLine.intercalate (b :: b' :: bodies) =
            b ++ newline :: ([] ++ newline :: blankLine.intercalate (b' :: bodies)) := by
          rw [List.intercalate_cons_cons, List.append_assoc]
          rfl
        rw [htext, markedSuffixes_append_newline, hfirst, markedSuffixes_append_newline]
        simp [markedSuffixes, markedSuffixes_newline]
    rw [hsplit, ih hrounds]
    constructor
    · rintro (rfl | ⟨later, hlater, hne, rfl⟩)
      · exact ⟨_, List.suffix_refl _, List.cons_ne_nil _ _, rfl⟩
      · exact ⟨later, hlater.trans (List.suffix_cons _ _), hne, rfl⟩
    · rintro ⟨later, hlater, hne, rfl⟩
      rcases List.suffix_cons_iff.mp hlater with rfl | hlater
      · exact Or.inl rfl
      · exact Or.inr ⟨later, hlater, hne, rfl⟩

theorem getLast?_unlines {s : JsString} {ls : List JsString} (hlast : ls.getLast? = some []) :
    (unlines (s :: ls)).getLast? = some newline := by
  induction ls generalizing s with
  | nil => cases hlast
  | cons s' ls ih =>
    rw [unlines_cons (List.cons_ne_nil s' ls)]
    rcases eq_or_ne ls [] with rfl | hne
    · obtain rfl : s' = [] := by simpa using hlast
      simp [unlines]
    · have hlast' : ls.getLast? = some [] := by
        rw [List.getLast?_cons, List.getLast?_eq_some_getLast hne] at hlast
        rw [List.getLast?_eq_some_getLast hne]
        exact hlast
      rw [List.getLast?_append, List.getLast?_cons, ih hlast']
      rfl

theorem getLast?_amnesiaHeader : amnesiaHeader.getLast? = some newline := getLast?_unlines rfl

theorem firstMark_amnesiaHeader : firstMark atRound none amnesiaHeader = none := by
  rw [amnesiaHeader]
  repeat rw [js_ofList]
  decide +kernel

/-- A head without rounds, and what comes behind it. -/
structure IsHead (head : JsString) : Prop where
  getLast? : head.getLast? = some newline
  firstMark : firstMark atRound none head = none

theorem isHead_amnesiaHeader : IsHead amnesiaHeader :=
  ⟨getLast?_amnesiaHeader, firstMark_amnesiaHeader⟩

variable {head : JsString}

theorem IsHead.firstMark_append (hhead : IsHead head) (hne : roundBodies 0 rounds ≠ []) :
    OpenCms.firstMark atRound none (head ++ blankLine.intercalate (roundBodies 0 rounds)) =
      some head.length := by
  have hmark := @atRound_intercalate (some newline) _ _ _ (by decide) (List.suffix_refl _) hne
  have htext := DialogSerializer.intercalate_ne_nil hne roundBody_ne_nil
  rw [SessionCompaction.firstMark_append ⟨newline, hhead.getLast?, by decide⟩ hhead.firstMark,
    hhead.getLast?]
  obtain ⟨c, text, hc⟩ := List.exists_cons_of_ne_nil htext
  rw [hc] at hmark ⊢
  rw [OpenCms.firstMark, if_pos hmark]
  simp

theorem IsHead.truncate (hhead : IsHead head)
    (hlong : budget < (head ++ blankLine.intercalate (roundBodies 0 rounds)).length)
    (hroom : budget ≤ head.length + elision.length) (hbudget : elision.length < budget) :
    truncateAnchorBodyToBudget (head ++ blankLine.intercalate (roundBodies 0 rounds)) budget =
      head.take (budget - elision.length) ++ elision := by
  unfold truncateAnchorBodyToBudget
  rw [if_neg (by omega)]
  rcases eq_or_ne (roundBodies 0 rounds) [] with hnil | hne
  · rw [hnil, List.intercalate_nil, List.append_nil, hhead.firstMark]
  · rw [hhead.firstMark_append hne]
    simp only [List.take_left]
    rw [if_pos hroom]

/-- **The newest rounds are kept** of a text like that of `rebuildStreamFromText`, if nothing that
was said in them has a line like theirs. -/
theorem IsHead.isCut (hhead : IsHead head) (hbudget : elision.length < budget)
    (hsaid : ∀ r ∈ rounds, OpenCms.firstMark atRound none r.text = none) :
    IsCut head (roundBodies 0 rounds) budget
      (truncateAnchorBodyToBudget (head ++ blankLine.intercalate (roundBodies 0 rounds)) budget)
    where
  same := truncate_of_le
  headOnly hlong hroom := by
    rw [hhead.truncate hlong hroom hbudget]
    refine ⟨rfl, ?_⟩
    rw [List.length_append, List.length_take]
    omega
  newest hlong last hlast hfits := by
    have hlast_mem := List.mem_of_mem_getLast? hlast
    have hne := List.ne_nil_of_mem hlast_mem
    have hroom : head.length + elision.length < budget := by
      have hpos := List.length_pos_iff.mpr (roundBody_ne_nil last hlast_mem)
      omega
    obtain ⟨kept, hkept, hout, hlongest⟩ :=
      truncate_eq hbudget hlong (hhead.firstMark_append hne) hroom
    obtain ⟨later, hlater, hlater_ne, rfl⟩ := (mem_markedSuffixes_iff hsaid kept).mp hkept
    -- The last round fits, so what is kept does.
    have hlast_suffix : [last] <:+ roundBodies 0 rounds := by
      obtain ⟨init, hinit⟩ := List.getLast?_eq_some_iff.mp hlast
      exact ⟨init, hinit.symm⟩
    have hlast_marked := mem_markedSuffixes_intercalate hlast_suffix (by simp)
    rw [List.intercalate_singleton] at hlast_marked
    have hkept_fits := (hlongest last hlast_marked hfits).2
    have hnotall : blankLine.intercalate later ≠ blankLine.intercalate (roundBodies 0 rounds) := by
      intro heq
      rw [heq] at hkept_fits
      rw [List.length_append] at hlong
      omega
    rw [if_neg hnotall] at hout
    refine ⟨later, hlater, hlater_ne, hout, ?_, fun longer hlonger hlt => ?_⟩
    · rw [hout, List.length_append, List.length_append]
      omega
    · by_contra hle
      rw [List.length_append, List.length_append] at hle
      have hlonger_ne : longer ≠ [] := by
        rintro rfl
        exact Nat.not_lt_zero _ hlt
      have hlonger_le := (hlongest _ (mem_markedSuffixes_intercalate hlonger hlonger_ne)
        (by omega)).1
      -- A longer list of rounds has a longer text.
      obtain ⟨more, hmore⟩ := List.suffix_of_suffix_length_le hlater hlonger hlt.le
      have hmore_ne : more ≠ [] := by
        rintro rfl
        rw [← hmore, List.nil_append] at hlt
        exact Nat.lt_irrefl _ hlt
      have hbodies : ∀ b ∈ more ++ later, b ≠ [] := by
        rw [hmore]
        exact fun b hb => roundBody_ne_nil b (hlonger.mem hb)
      have hleft := fun b hb => hbodies b (List.mem_append_left later hb)
      have hright := fun b hb => hbodies b (List.mem_append_right more hb)
      rw [← hmore, DialogSerializer.intercalate_append hleft hright,
        DialogSerializer.joinBodies_of_ne_nil (DialogSerializer.intercalate_ne_nil hmore_ne hleft)
          (DialogSerializer.intercalate_ne_nil hlater_ne hright), List.length_append,
        List.length_append] at hlonger_le
      have hblank : blankLine.length = 2 := rfl
      omega

end Rebuilt

/-- **A body that fits is left as it is; and of the text of `rebuildStreamFromText` the newest
rounds are kept**, if nothing that was said in them has a line like theirs. -/
theorem truncate_isCut (text : ρ → JsString) (synthetic : ρ → Bool) {budget : ℕ}
    (hbudget : elision.length < budget) :
    (∀ body : JsString, body.length ≤ budget → truncateAnchorBodyToBudget body budget = body) ∧
    ∀ charBudget stream,
      let rounds := collectTextRounds text synthetic charBudget 0 [] stream
      (∀ r ∈ rounds, firstMark atRound none r.text = none) →
        IsCut amnesiaHeader (roundBodies 0 rounds) budget
          (truncateAnchorBodyToBudget (anchorBody rounds) budget) :=
  ⟨fun _ => truncate_of_le, fun _ _ hsaid => isHead_amnesiaHeader.isCut hbudget hsaid⟩

theorem length_elision : elision.length = 64 := by
  rw [elision, js_ofList]
  rfl

def twoRounds : List (WithParts JsString) :=
  [DialogSerializer.reply "msg_4" (js "Done"), DialogSerializer.prompt "msg_3" (js "More"),
    DialogSerializer.reply "msg_2" (js "Hi"), DialogSerializer.prompt "msg_1" (js "Hello")]

theorem collectTextRounds_twoRounds : collectTextRounds id (fun _ => false) 1000 0 [] twoRounds =
    [⟨true, js "Hello"⟩, ⟨false, js "Hi"⟩, ⟨true, js "More"⟩, ⟨false, js "Done"⟩] := by decide

set_option maxRecDepth 4000 in
theorem length_amnesiaHeader : amnesiaHeader.length = 340 := by
  rw [amnesiaHeader, js_ofList, js_ofList, js_ofList, js_ofList, js_ofList, js_ofList]
  rfl

/-- Of four texts only the newest ones are kept behind the head. -/
theorem truncate_isCut_hello :
    let rounds := collectTextRounds id (fun _ => false) 1000 0 [] twoRounds
    let out := truncateAnchorBodyToBudget (anchorBody rounds) 440
    440 < (anchorBody rounds).length ∧ ∃ later, later <:+ roundBodies 0 rounds ∧ later ≠ [] ∧
      out = amnesiaHeader ++ (elision ++ blankLine.intercalate later) ∧ out.length ≤ 440 := by
  intro rounds out
  have hbodies : roundBodies 0 rounds =
      [js "## Round 1 (user)\nHello", js "## Round 1 (assistant)\nHi",
        js "## Round 2 (user)\nMore", js "## Round 2 (assistant)\nDone"] := by
    simp only [rounds, collectTextRounds_twoRounds]
    decide
  have hcut : IsCut amnesiaHeader (roundBodies 0 rounds) 440 out :=
    (truncate_isCut id (fun _ => false) (by simp [length_elision] : elision.length < 440)).2 1000
      twoRounds (by rw [collectTextRounds_twoRounds]; decide)
  have hlong : 440 < (amnesiaHeader ++ blankLine.intercalate (roundBodies 0 rounds)).length := by
    rw [hbodies, List.length_append, length_amnesiaHeader]
    decide
  obtain ⟨later, hlater, hne, hout, hfits, -⟩ := hcut.newest hlong
    (js "## Round 2 (assistant)\nDone") (by rw [hbodies]; rfl) (by
      rw [length_amnesiaHeader, length_elision]
      decide)
  exact ⟨hlong, later, hlater, hne, hout, hfits⟩

/-- Of the text of two rounds the beginning of the first one is kept, and nothing of the second. And
where there is no room for the head, it is cut. -/
theorem not_keepsNewest :
    (¬∀ messages : List (WithParts JsString), ∀ budget : ℕ, elision.length < budget →
      KeepsNewest [] ((shown messages (DialogSerializer.options 1 none)).map (renderRound id))
        budget (truncateAnchorBodyToBudget (serializeRedactedDialog id messages
          (DialogSerializer.options 1 none)).text budget)) ∧
    ¬∀ stream : List (WithParts JsString), ∀ budget : ℕ, elision.length < budget →
      let rounds := collectTextRounds id (fun _ => false) 1000 0 [] stream
      KeepsNewest amnesiaHeader (roundBodies 0 rounds) budget
        (truncateAnchorBodyToBudget (anchorBody rounds) budget) := by
  constructor
  · intro h
    have hkeeps := h [DialogSerializer.prompt "msg_1" (js "What is in the file?"),
      DialogSerializer.reply "msg_2" (js "A list of names."),
      DialogSerializer.prompt "msg_3" (js "How many are there?"),
      DialogSerializer.reply "msg_4" (js "There are four of them.")] 100 (by simp [length_elision])
    -- The text begins with the first round, and not with what stands for it.
    rcases hkeeps.newest with hsame | ⟨later, -, hsame⟩
    · have hfits := hkeeps.fits
      rw [hsame] at hfits
      exact absurd hfits (by decide +kernel)
    · have hhead := congrArg List.head? hsame
      have helision : ([] ++ elision ++ blankLine.intercalate later).head? = some newline := rfl
      rw [← List.append_assoc, helision] at hhead
      exact absurd hhead (by decide +kernel)
  · intro h
    have hrounds : collectTextRounds id (fun _ => false) 1000 0 []
        [DialogSerializer.prompt "msg_1" (List.replicate 66 97)] =
          [⟨true, List.replicate 66 97⟩] := by decide
    have hkeeps := h [DialogSerializer.prompt "msg_1" (List.replicate 66 97)] 65
      (by simp [length_elision])
    simp only [hrounds] at hkeeps
    have helision := length_elision
    have hhead : 3 ≤ amnesiaHeader.length := by
      have hline : (js "---").length = 3 := by decide
      rw [amnesiaHeader, unlines_cons (by simp), List.length_append]
      omega
    have hfits := hkeeps.fits
    rcases hkeeps.newest with hsame | ⟨later, -, hsame⟩
    · rw [hsame] at hfits
      simp only [roundBodies, List.intercalate_singleton, List.length_append, List.length_cons,
        List.length_replicate] at hfits
      omega
    · rw [hsame, List.length_append, List.length_append] at hfits
      omega

end OpenCms.SessionCompaction
