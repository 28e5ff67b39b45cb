import OpenCms.Lib.JsString
import Mathlib.Data.List.Basic
import Mathlib.Algebra.GroupWithZero.Nat

/-!
# Finding the text to edit

An edit says what text is to be replaced, and that need not be exactly what is in the file: nine
replacers propose what else could be meant, one after the other, and the first proposal that occurs
in the file once is taken (`OpenCms.Edit.replace`). What comes out is the file with that one
occurrence replaced (`OpenCms.Edit.replace_eq_ok`).
-/

namespace OpenCms.Edit

open JsString

/-! ### How much alike two lines are -/

/-- A row of the matrix, from the one above it: the cell before, the cells above, and the cell to
the left of those that are missing. -/
def nextRow (c : UInt16) : JsString → ℕ → List ℕ → ℕ → List ℕ
  | d :: b, before, above :: row, left =>
    left :: nextRow c b above row
      (min (min (above + 1) (left + 1)) (before + if c = d then 0 else 1))
  | _, _, _, left => [left]

def lastRow (b : JsString) : JsString → ℕ → List ℕ → List ℕ
  | [], _, row => row
  | c :: a, i, row => lastRow b a (i + 1) (nextRow c b (row.headD 0) row.tail (i + 1))

def levenshtein (a b : JsString) : ℕ :=
  if a = [] ∨ b = [] then max a.length b.length
  else (lastRow b a 0 (List.range (b.length + 1))).getLastD 0

def SINGLE_CANDIDATE_SIMILARITY_THRESHOLD : Float := 0.0

def MULTIPLE_CANDIDATES_SIMILARITY_THRESHOLD : Float := 0.3

/-- How much alike two lines are that are not both empty. -/
def likeness (originalLine searchLine : JsString) : Option Float :=
  let maxLen := max originalLine.length searchLine.length
  if maxLen = 0 then none
  else some (1 - (levenshtein originalLine searchLine).toFloat / maxLen.toFloat)

/-! ### The replacers -/

/-- A replacer proposes, for the text and what is to be found in it, what could be meant. -/
abbrev Replacer : Type := JsString → JsString → List JsString

def SimpleReplacer : Replacer := fun _ find => [find]

/-- The lines of what is to be found, without an empty one at the end. -/
def popLast (ls : List JsString) : List JsString :=
  if ls.getLast? = some [] then ls.dropLast else ls

/-- So many lines of a text, from one on, as the part of the text that they are. -/
def block (content : JsString) (originalLines : List JsString) (startLine count : ℕ) : JsString :=
  let matchStartIndex := ((originalLines.take startLine).map fun line => line.length + 1).sum
  let lengths := ((originalLines.drop startLine).take count).map List.length
  substring content matchStartIndex (matchStartIndex + lengths.sum + (count - 1))

def positions (lines count : ℕ) : List ℕ :=
  if count ≤ lines then List.range (lines - count + 1) else []

def LineTrimmedReplacer : Replacer := fun content find =>
  let originalLines := lines content
  let searchLines := popLast (lines find)
  ((positions originalLines.length searchLines.length).filter fun i =>
    ((originalLines.drop i).take searchLines.length).map trim = searchLines.map trim).map fun i =>
      block content originalLines i searchLines.length

/-- The lines where a block may begin and end: where the first and the last line are. -/
def candidates (originalLines : List JsString) (firstLine lastLine : JsString) : List (ℕ × ℕ) :=
  (List.range originalLines.length).filterMap fun i =>
    if (originalLines.getD i []).trim = firstLine then
      -- only the first match of the last line counts
      ((List.range originalLines.length).find? fun j =>
        decide (i + 2 ≤ j) && decide ((originalLines.getD j []).trim = lastLine)).map fun j =>
          (i, j)
    else none

def middle (originalLines searchLines : List JsString) (candidate : ℕ × ℕ) :
    List (Option Float) × ℕ :=
  let actualBlockSize := candidate.2 - candidate.1 + 1
  let count := min (searchLines.length - 2) (actualBlockSize - 2)
  let line (j : ℕ) := (originalLines.getD (candidate.1 + (j + 1)) []).trim
  ((List.range count).map fun j => likeness (line j) (searchLines.getD (j + 1) []).trim, count)

/-- The similarity of the only block, as far as it is counted: enough is enough. -/
def similaritySingle (linesToCheck : ℕ) : List (Option Float) → Float → Float
  | [], similarity => similarity
  | none :: rest, similarity => similaritySingle linesToCheck rest similarity
  | some value :: rest, similarity =>
    let similarity := similarity + value / linesToCheck.toFloat
    if SINGLE_CANDIDATE_SIMILARITY_THRESHOLD ≤ similarity then similarity
    else similaritySingle linesToCheck rest similarity

def similarityMultiple (values : List (Option Float) × ℕ) : Float :=
  if values.2 = 0 then 1.0
  else values.1.foldl (fun similarity value => similarity + value.getD 0) 0 / values.2.toFloat

def bestMatch (similarity : ℕ × ℕ → Float) :
    List (ℕ × ℕ) → Option (ℕ × ℕ) × Float → Option (ℕ × ℕ) × Float
  | [], best => best
  | candidate :: rest, (best, maxSimilarity) =>
    if maxSimilarity < similarity candidate then
      bestMatch similarity rest (some candidate, similarity candidate)
    else bestMatch similarity rest (best, maxSimilarity)

def BlockAnchorReplacer : Replacer := fun content find =>
  let originalLines := lines content
  if (lines find).length < 3 then []
  else
    let searchLines := popLast (lines find)
    let found := candidates originalLines (searchLines.headD []).trim (searchLines.getLastD []).trim
    let text (candidate : ℕ × ℕ) :=
      block content originalLines candidate.1 (candidate.2 - candidate.1 + 1)
    match found with
    | [] => []
    | [candidate] =>
      let (values, linesToCheck) := middle originalLines searchLines candidate
      let similarity := if linesToCheck = 0 then 1.0 else similaritySingle linesToCheck values 0
      if SINGLE_CANDIDATE_SIMILARITY_THRESHOLD ≤ similarity then [text candidate] else []
    | _ =>
      match bestMatch (fun candidate =>
          similarityMultiple (middle originalLines searchLines candidate)) found (none, -1) with
      | (some candidate, maxSimilarity) =>
        if MULTIPLE_CANDIDATES_SIMILARITY_THRESHOLD ≤ maxSimilarity then [text candidate] else []
      | (none, _) => []

/-- The text with a blank for all white space in a row, where some may just have been passed. -/
def collapse : Bool → JsString → JsString
  | _, [] => []
  | passed, c :: s =>
    if isWhiteSpace c then if passed then collapse true s else 32 :: collapse true s
    else c :: collapse false s

def normalizeWhitespace (text : JsString) : JsString := trim (collapse false text)

def matchWords : List JsString → JsString → Option JsString
  | [], _ => some []
  | [word], s => if word <+: s then some word else none
  | word :: words, s =>
    if word <+: s then
      -- the next word does not begin with white space, so that all of it is passed
      let rest := s.drop word.length
      if (rest.takeWhile isWhiteSpace).isEmpty then none
      else (matchWords words (rest.dropWhile isWhiteSpace)).map fun found =>
        word ++ rest.takeWhile isWhiteSpace ++ found
    else none

def blocks (lines : List JsString) (count : ℕ) : List JsString :=
  (positions lines.length count).map fun i => unlines ((lines.drop i).take count)

def WhitespaceNormalizedReplacer : Replacer := fun content find =>
  let normalizedFind := normalizeWhitespace find
  let words := (collapse false (trim find)).splitOn 32
  let single := (lines content).filterMap fun line =>
    if normalizeWhitespace line = normalizedFind then some line
    else if includes (normalizeWhitespace line) normalizedFind then
      line.tails.findSome? (matchWords words)
    else none
  let multi :=
    if 1 < (lines find).length then
      (blocks (lines content) (lines find).length).filter fun block =>
        normalizeWhitespace block = normalizedFind
    else []
  single ++ multi

def removeIndentation (text : JsString) : JsString :=
  let nonEmptyLines := (lines text).filter fun line => trim line ≠ []
  match (nonEmptyLines.map fun line => (line.takeWhile isWhiteSpace).length).min? with
  | none => text
  | some minIndent =>
    unlines ((lines text).map fun line => if trim line = [] then line else line.drop minIndent)

def IndentationFlexibleReplacer : Replacer := fun content find =>
  (blocks (lines content) (lines find).length).filter fun block =>
    removeIndentation block = removeIndentation find

def unescapeChar : UInt16 → Option UInt16
  | 110 => some 10
  | 116 => some 9
  | 114 => some 13
  | 39 => some 39
  | 34 => some 34
  | 96 => some 96
  | 92 => some 92
  | 10 => some 10
  | 36 => some 36
  | _ => none

def unescapeString : JsString → JsString
  | 92 :: c :: s =>
    match unescapeChar c with
    | some d => d :: unescapeString s
    | none => 92 :: unescapeString (c :: s)
  | c :: s => c :: unescapeString s
  | [] => []

def EscapeNormalizedReplacer : Replacer := fun content find =>
  let unescapedFind := unescapeString find
  (if includes content unescapedFind then [unescapedFind] else []) ++
    (blocks (lines content) (lines unescapedFind).length).filter fun block =>
      unescapeString block = unescapedFind

def TrimmedBoundaryReplacer : Replacer := fun content find =>
  let trimmedFind := trim find
  if trimmedFind = find then []
  else
    (if includes content trimmedFind then [trimmedFind] else []) ++
      (blocks (lines content) (lines find).length).filter fun block => trim block = trimmedFind

def halfMatch (blockLines findLines : List JsString) : Bool :=
  let middle := ((blockLines.zip findLines).drop 1).dropLast.map fun (a, b) => (trim a, trim b)
  let nonEmpty := middle.filter fun (a, b) => a ≠ [] ∨ b ≠ []
  let matching := nonEmpty.filter fun (a, b) => a = b
  nonEmpty.isEmpty || decide (0.5 ≤ matching.length.toFloat / nonEmpty.length.toFloat)

def ContextAwareReplacer : Replacer := fun content find =>
  if (lines find).length < 3 then []
  else
    let findLines := popLast (lines find)
    let contentLines := lines content
    (candidates contentLines (findLines.headD []).trim (findLines.getLastD []).trim).filterMap
      fun (i, j) =>
        let blockLines := (contentLines.drop i).take (j - i + 1)
        if blockLines.length = findLines.length ∧ halfMatch blockLines findLines then
          some (unlines blockLines)
        else none

/-- `MultiOccurrenceReplacer`, which has no end for an empty string: that is never looked for. -/
def MultiOccurrenceReplacer : Replacer := fun content find =>
  (occurrences find 0 0 content).map fun _ => find

def replacers : List Replacer :=
  [SimpleReplacer, LineTrimmedReplacer, BlockAnchorReplacer, WhitespaceNormalizedReplacer,
    IndentationFlexibleReplacer, EscapeNormalizedReplacer, TrimmedBoundaryReplacer,
    ContextAwareReplacer, MultiOccurrenceReplacer]

def searches (content oldString : JsString) : List JsString :=
  replacers.flatMap fun replacer => replacer content oldString

/-! ### Replacing -/

inductive EditError
  /-- `filePath is required`. -/
  | noPath
  /-- `No changes to apply: oldString and newString are identical.` -/
  | identical
  /-- The file is outside of the project, and it is not to be touched there. -/
  | external
  /-- `File … not found`. -/
  | notFound
  /-- `Path is a directory, not a file: …`. -/
  | isDirectory
  /-- The file was not read before, or it has changed since. -/
  | notRead
  /-- The permission to edit is not given. -/
  | rejected
  /-- `Could not find oldString in the file. …`. -/
  | noMatch
  /-- `Found multiple matches for oldString. …`. -/
  | multipleMatches
  /-- There are no edits, so that there is no result to report. -/
  | noEdits
  deriving DecidableEq

/-- The first proposal that will do, where it is known whether nothing has been found so far. -/
def replaceFirst (content newString : JsString) (all : Bool) :
    Bool → List JsString → Except EditError JsString
  | notFound, [] => .error (if notFound then .noMatch else .multipleMatches)
  | notFound, search :: rest =>
    match indexOf search content with
    | none => replaceFirst content newString all notFound rest
    | some index =>
      if all then .ok (replaceAll content search newString)
      else if lastIndexOf search content = some index then
        .ok (content.take index ++ newString ++ content.drop (index + search.length))
      else replaceFirst content newString all false rest

def replace (content oldString newString : JsString) (all : Bool) : Except EditError JsString :=
  if oldString = newString then .error .identical
  else replaceFirst content newString all true (searches content oldString)

/-- A text **occurs once** at a place. -/
def OccursOnce (search content : JsString) (index : ℕ) : Prop :=
  index ≤ content.length ∧ search <+: content.drop index ∧
    ∀ j ≤ content.length, search <+: content.drop j → j = index

section Replace

variable {content oldString newString result search : JsString} {notFound : Bool} {index : ℕ}
  {proposals : List JsString}

theorem replaceFirst_eq_ok
    (h : replaceFirst content newString false notFound proposals = .ok result) :
    ∃ search ∈ proposals, ∃ index, OccursOnce search content index ∧
      result = content.take index ++ newString ++ content.drop (index + search.length) := by
  induction proposals generalizing notFound with
  | nil => cases h
  | cons search rest ih =>
    have hrest : ∀ notFound, replaceFirst content newString false notFound rest = .ok result →
        ∃ search' ∈ search :: rest, ∃ index, OccursOnce search' content index ∧
          result = content.take index ++ newString ++ content.drop (index + search'.length) := by
      intro notFound h
      obtain ⟨search', hmem, hfound⟩ := ih h
      exact ⟨search', List.mem_cons_of_mem _ hmem, hfound⟩
    unfold replaceFirst at h
    cases hindex : indexOf search content with
    | none =>
      rw [hindex] at h
      exact hrest _ h
    | some index =>
      rw [hindex] at h
      dsimp only at h
      rw [if_neg Bool.false_ne_true] at h
      split at h
      next hlast =>
        refine ⟨search, List.mem_cons_self, index, ?_, (Except.ok.inj h).symm⟩
        exact indexOf_eq_lastIndexOf_iff.mp ⟨hindex, hlast⟩
      next => exact hrest _ h

/-- **What is replaced is one of the proposals, where it occurs once**, and nothing else of the text
is changed. -/
theorem replace_eq_ok (h : replace content oldString newString false = .ok result) :
    ∃ search ∈ searches content oldString, ∃ index, OccursOnce search content index ∧
      result = content.take index ++ newString ++ content.drop (index + search.length) := by
  unfold replace at h
  split at h
  · cases h
  · exact replaceFirst_eq_ok h

end Replace

end OpenCms.Edit
