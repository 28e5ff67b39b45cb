import OpenCms.Patch.Lines

/-!
# The patch format

A patch is a list of hunks between `*** Begin Patch` and `*** End Patch`: files to add, to
delete and to update, where an update has chunks of lines kept, taken away and put in.
`OpenCms.Patch.parsePatch` reads it line by line. The source runs one index over the lines;
here a loop gives the lines that it leaves to the next one, and each of them leaves no more
than it was given.
-/

namespace OpenCms.Patch

/-! ### Hunks -/

/-- `UpdateFileChunk`. -/
structure Chunk where
  old_lines : List Line
  new_lines : List Line
  change_context : Option Line
  is_end_of_file : Bool
  deriving DecidableEq

inductive Hunk
  | add (path : Text) (contents : Text)
  | delete (path : Text)
  | update (path : Text) (move_path : Option Text) (chunks : List Chunk)
  deriving DecidableEq

/-! ### The heredoc around a patch -/

/-- A character of a name (`\w`). -/
def isWord (c : Char) : Bool := c.isAlphanum || c = '_'

/-- `['"]?` -/
def dropQuote : Text → Text
  | c :: t => if c = '\'' || c = '"' then t else c :: t
  | [] => []

/-- What can follow `\s*\n` in a text, the longest white space first. -/
def afterBlankLines : Text → List Text
  | [] => []
  | c :: t =>
    if isSpace c then afterBlankLines t ++ (if c = '\n' then [t] else []) else []

/-- `([\s\S]*?)\n\1\s*$`: the text before a last line that is the tag. -/
def beforeTag (tag t : Text) : Option Text :=
  let t := trimEnd t
  if '\n' :: tag <:+ t then some (t.take (t.length - (tag.length + 1))) else none

def heredocBody : Text → Option Text
  | '<' :: '<' :: t =>
    let t := dropQuote t
    let tag := t.takeWhile isWord
    if tag = [] then none
    else (afterBlankLines (dropQuote (t.dropWhile isWord))).findSome? (beforeTag tag)
  | _ => none

def stripHeredoc (input : Text) : Text :=
  let t :=
    match input with
    | 'c' :: 'a' :: 't' :: c :: t => if isSpace c then trimStart t else input
    | _ => input
  (heredocBody t).getD input

/-! ### The three loops -/

/-- `parsePatchHeader`, with the lines after the header. -/
structure Header where
  filePath : Text
  movePath : Option Text
  rest : List Line

def headerPath (marker : String) (line : Line) : Option Text :=
  let filePath := trim (line.drop (txt marker).length)
  if filePath = [] then none else some filePath

/-- The path to move an updated file to, when the line says one, and the lines after it. -/
def moveDirective : List Line → Option Text × List Line
  | [] => (none, [])
  | next :: rest =>
    if txt "*** Move to:" <+: next then
      (some (trim (next.drop (txt "*** Move to:").length)), rest)
    else (none, next :: rest)

def parsePatchHeader : List Line → Option Header
  | [] => none
  | line :: rest =>
    if txt "*** Add File:" <+: line then
      (headerPath "*** Add File:" line).map fun filePath => ⟨filePath, none, rest⟩
    else if txt "*** Delete File:" <+: line then
      (headerPath "*** Delete File:" line).map fun filePath => ⟨filePath, none, rest⟩
    else if txt "*** Update File:" <+: line then
      (headerPath "*** Update File:" line).map fun filePath =>
        ⟨filePath, (moveDirective rest).1, (moveDirective rest).2⟩
    else none

/-- The lines of one chunk, and the lines after it. -/
structure Change where
  oldLines : List Line
  newLines : List Line
  isEndOfFile : Bool
  rest : List Line

/-- The inner loop of `parseUpdateFileChunks`, over the lines of one chunk. -/
def parseChange : List Line → Change
  | [] => ⟨[], [], false, []⟩
  | line :: rest =>
    if txt "@@" <+: line ∨ txt "***" <+: line then ⟨[], [], false, line :: rest⟩
    else if line = txt "*** End of File" then ⟨[], [], true, rest⟩
    else
      let change := parseChange rest
      match line with
      | ' ' :: content =>
        { change with
          oldLines := content :: change.oldLines
          newLines := content :: change.newLines }
      | '-' :: content => { change with oldLines := content :: change.oldLines }
      | '+' :: content => { change with newLines := content :: change.newLines }
      | _ => change

theorem parseChange_rest_length (lines : List Line) :
    (parseChange lines).rest.length ≤ lines.length := by
  induction lines with
  | nil => exact Nat.le_refl _
  | cons line rest ih =>
    rw [parseChange]
    split
    · exact Nat.le_refl _
    · split
      · exact Nat.le_succ _
      · split <;> exact Nat.le_succ_of_le ih

def parseUpdateFileChunks : List Line → List Chunk × List Line
  | [] => ([], [])
  | line :: rest =>
    if txt "***" <+: line then ([], line :: rest)
    else if txt "@@" <+: line then
      let contextLine := trim (line.drop 2)
      let change := parseChange rest
      let chunks := parseUpdateFileChunks change.rest
      ({ old_lines := change.oldLines
         new_lines := change.newLines
         change_context := if contextLine = [] then none else some contextLine
         is_end_of_file := change.isEndOfFile } :: chunks.1, chunks.2)
    else parseUpdateFileChunks rest
  termination_by lines => lines.length
  decreasing_by
    · exact Nat.lt_succ_of_le (parseChange_rest_length rest)
    · exact Nat.lt_succ_self _

def parseAddLines : List Line → Text × List Line
  | [] => ([], [])
  | line :: rest =>
    if txt "***" <+: line then ([], line :: rest)
    else
      let content := parseAddLines rest
      match line with
      | '+' :: text => (text ++ '\n' :: content.1, content.2)
      | _ => content

def parseAddFileContent (lines : List Line) : Text × List Line :=
  let content := parseAddLines lines
  (if txt "\n" <:+ content.1 then content.1.dropLast else content.1, content.2)

def parseHunk (line : Line) (header : Header) : Hunk × List Line :=
  if txt "*** Add File:" <+: line then
    let content := parseAddFileContent header.rest
    (.add header.filePath content.1, content.2)
  else if txt "*** Delete File:" <+: line then (.delete header.filePath, header.rest)
  else
    let chunks := parseUpdateFileChunks header.rest
    (.update header.filePath header.movePath chunks.1, chunks.2)

theorem parseUpdateFileChunks_rest_length (lines : List Line) :
    (parseUpdateFileChunks lines).2.length ≤ lines.length := by
  fun_induction parseUpdateFileChunks lines with
  | case1 => exact Nat.le_refl _
  | case2 line rest h => exact Nat.le_refl _
  | case3 line rest h h' contextLine change chunks ih =>
    exact Nat.le_succ_of_le (ih.trans (parseChange_rest_length rest))
  | case4 line rest h h' ih => exact Nat.le_succ_of_le ih

theorem parseAddLines_rest_length (lines : List Line) :
    (parseAddLines lines).2.length ≤ lines.length := by
  induction lines with
  | nil => exact Nat.le_refl _
  | cons line rest ih =>
    rw [parseAddLines]
    split
    · exact Nat.le_refl _
    · split <;> exact Nat.le_succ_of_le ih

theorem moveDirective_rest_length (lines : List Line) :
    (moveDirective lines).2.length ≤ lines.length := by
  cases lines with
  | nil => exact Nat.le_refl _
  | cons next rest =>
    rw [moveDirective]
    split
    · exact Nat.le_succ _
    · exact Nat.le_refl _

theorem parsePatchHeader_rest_length {line : Line} {rest : List Line} {header : Header}
    (h : parsePatchHeader (line :: rest) = some header) : header.rest.length ≤ rest.length := by
  rw [parsePatchHeader] at h
  split at h
  · obtain ⟨filePath, -, rfl⟩ := Option.map_eq_some_iff.mp h
    exact Nat.le_refl _
  · split at h
    · obtain ⟨filePath, -, rfl⟩ := Option.map_eq_some_iff.mp h
      exact Nat.le_refl _
    · split at h
      · obtain ⟨filePath, -, rfl⟩ := Option.map_eq_some_iff.mp h
        exact moveDirective_rest_length rest
      · simp at h

theorem parseHunk_rest_length (line : Line) (header : Header) :
    (parseHunk line header).2.length ≤ header.rest.length := by
  unfold parseHunk
  split
  · exact parseAddLines_rest_length header.rest
  · split
    · exact Nat.le_refl _
    · exact parseUpdateFileChunks_rest_length header.rest

/-- The loop of `parsePatch`, as long as more than `stop` lines are left: those from the
end marker on. -/
def parseHunks (stop : ℕ) : List Line → List Hunk
  | [] => []
  | line :: rest =>
    if rest.length + 1 ≤ stop then []
    else
      match _hheader : parsePatchHeader (line :: rest) with
      | none => parseHunks stop rest
      | some header =>
        (parseHunk line header).1 :: parseHunks stop (parseHunk line header).2
  termination_by lines => lines.length
  decreasing_by
    · exact Nat.lt_succ_self _
    · exact Nat.lt_succ_of_le
        ((parseHunk_rest_length line header).trans (parsePatchHeader_rest_length _hheader))

/-- `parsePatch`; without both markers, in their order, it throws. -/
def parsePatch (patchText : Text) : Option (List Hunk) :=
  let lines := split (stripHeredoc (trim patchText))
  match lines.findIdx? fun line => trim line = txt "*** Begin Patch",
    lines.findIdx? fun line => trim line = txt "*** End Patch" with
  | some beginIdx, some endIdx =>
    if beginIdx < endIdx then
      some (parseHunks (lines.length - endIdx) (lines.drop (beginIdx + 1)))
    else none
  | _, _ => none

end OpenCms.Patch
