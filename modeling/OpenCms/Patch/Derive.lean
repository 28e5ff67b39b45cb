import OpenCms.Patch.Parse
import Mathlib.Data.List.Sort

/-!
# Chunks applied to a file

`OpenCms.Patch.deriveNewContentsFromChunks` finds the lines of each chunk in the file, each
chunk behind the one before, with less and less care about blanks and punctuation, and
puts the new lines in their place; a chunk without old lines goes to the end of the file.

The places are found in a loop over the chunks. `OpenCms.Patch.Located` says what the loop
comes to without it (`OpenCms.Patch.findReplacements_eq_ok`), and
`OpenCms.Patch.exchange` says at once what splicing line by line amounts to
(`OpenCms.Patch.applyReplacements_eq`). Chunks that are not found may have been applied already, and
are passed over then (`OpenCms.Patch.deriveOrSkip`).
-/

namespace OpenCms.Patch

/-! ### Finding lines -/

/-- `normalizeUnicode`: punctuation that has an ASCII equivalent. -/
def normalizeChar (c : Char) : Text :=
  let n := c.toNat
  if 0x2018 ≤ n ∧ n ≤ 0x201B then ['\'']
  else if 0x201C ≤ n ∧ n ≤ 0x201F then ['"']
  else if 0x2010 ≤ n ∧ n ≤ 0x2015 then ['-']
  else if n = 0x2026 then ['.', '.', '.']
  else if n = 0x00A0 then [' ']
  else [c]

def normalizeUnicode (str : Text) : Text := str.flatMap normalizeChar

def matchesHere (compare : Line → Line → Bool) : List Line → List Line → Bool
  | _, [] => true
  | l :: lines, p :: pattern => compare l p && matchesHere compare lines pattern
  | [], _ :: _ => false

def searchFrom (compare : Line → Line → Bool) (pattern : List Line) (i : ℕ) :
    List Line → Option ℕ
  | [] => if matchesHere compare [] pattern then some i else none
  | l :: lines =>
    if matchesHere compare (l :: lines) pattern then some i
    else searchFrom compare pattern (i + 1) lines

def tryMatch (lines pattern : List Line) (startIndex : ℕ) (compare : Line → Line → Bool)
    (eof : Bool) : Option ℕ :=
  let fromEnd := lines.length - pattern.length
  if eof ∧ startIndex + pattern.length ≤ lines.length ∧
      matchesHere compare (lines.drop fromEnd) pattern then some fromEnd
  else searchFrom compare pattern startIndex (lines.drop startIndex)

def seekSequence (lines pattern : List Line) (startIndex : ℕ) (eof : Bool) : Option ℕ :=
  if pattern = [] then none
  else
    (tryMatch lines pattern startIndex (fun a b => a = b) eof).or <|
    (tryMatch lines pattern startIndex (fun a b => trimEnd a = trimEnd b) eof).or <|
    (tryMatch lines pattern startIndex (fun a b => trim a = trim b) eof).or <|
    tryMatch lines pattern startIndex
      (fun a b => normalizeUnicode (trim a) = normalizeUnicode (trim b)) eof

/-! ### The replacements of a list of chunks -/

/-- A place in the file, how many lines go there, and the lines that come. -/
structure Replacement where
  startIdx : ℕ
  oldLen : ℕ
  newLines : List Line
  deriving DecidableEq

/-- Why chunks cannot be applied. -/
inductive DeriveError
  /-- `Failed to find context '…' in …`. -/
  | context (changeContext : Line)
  /-- `Failed to find expected lines in …`, with the first of them. -/
  | expected (firstOldLine : Option Line)
  deriving DecidableEq

def Chunk.seekContext (chunk : Chunk) : Option Line := chunk.change_context.filter (· ≠ [])

/-- Where lines are put that replace none: at the end, but before an empty last line. -/
def insertionIdx (lines : List Line) : ℕ :=
  if lines.getLast? = some [] then lines.length - 1 else lines.length

def dropTrailingEmpty (lines : List Line) : List Line :=
  if lines.getLast? = some [] then lines.dropLast else lines

def locate (lines : List Line) (chunk : Chunk) (lineIndex : ℕ) : Option Replacement :=
  match seekSequence lines chunk.old_lines lineIndex chunk.is_end_of_file with
  | some found => some ⟨found, chunk.old_lines.length, chunk.new_lines⟩
  | none =>
    if chunk.old_lines.getLast? = some [] then
      let pattern := chunk.old_lines.dropLast
      (seekSequence lines pattern lineIndex chunk.is_end_of_file).map fun found =>
        ⟨found, pattern.length, dropTrailingEmpty chunk.new_lines⟩
    else none

def skipContext (lines : List Line) (chunk : Chunk) (lineIndex : ℕ) : Except DeriveError ℕ :=
  match chunk.seekContext with
  | none => .ok lineIndex
  | some context =>
    match seekSequence lines [context] lineIndex false with
    | none => .error (.context context)
    | some contextIdx => .ok (contextIdx + 1)

/-- The loop of `computeReplacements`. -/
def findReplacements (lines : List Line) : ℕ → List Chunk → Except DeriveError (List Replacement)
  | _, [] => .ok []
  | lineIndex, chunk :: chunks => do
    let lineIndex ← skipContext lines chunk lineIndex
    if chunk.old_lines = [] then
      let rest ← findReplacements lines lineIndex chunks
      return ⟨insertionIdx lines, 0, chunk.new_lines⟩ :: rest
    else
      match locate lines chunk lineIndex with
      | some r =>
        let rest ← findReplacements lines (r.startIdx + r.oldLen) chunks
        return r :: rest
      | none => throw (.expected chunk.old_lines.head?)

def byPlace (rs : List Replacement) : List Replacement :=
  rs.insertionSort fun r r' => r.startIdx ≤ r'.startIdx

def computeReplacements (originalLines : List Line) (chunks : List Chunk) :
    Except DeriveError (List Replacement) := do
  let replacements ← findReplacements originalLines 0 chunks
  return byPlace replacements

/-! ### The replacements made -/

def splice (start deleteCount : ℕ) (items lines : List Line) : List Line :=
  lines.take start ++ items ++ lines.drop (start + deleteCount)

/-- The inner loop of `applyReplacements`: the new lines put in one by one. -/
def insertAll (start : ℕ) : List Line → List Line → List Line
  | [], result => result
  | l :: newSegment, result => insertAll (start + 1) newSegment (splice start 0 [l] result)

/-- `applyReplacements`, from the last place to the first. -/
def applyReplacements (lines : List Line) (replacements : List Replacement) : List Line :=
  replacements.reverse.foldl
    (fun result r => insertAll r.startIdx r.newLines (splice r.startIdx r.oldLen [] result)) lines

def fileLines (content : Text) : List Line := dropTrailingEmpty (split content)

def fileText (newLines : List Line) : Text :=
  join (if newLines.getLast? = some [] then newLines else newLines ++ [[]])

def deriveNewContentsFromChunks (originalContent : Text) (chunks : List Chunk) :
    Except DeriveError Text := do
  let originalLines := fileLines originalContent
  let replacements ← computeReplacements originalLines chunks
  return fileText (applyReplacements originalLines replacements)

/-! ### The guard -/

/-- The loop of `isChunksAlreadyApplied`. -/
def newLinesFound (lines : List Line) : ℕ → List Chunk → Bool
  | _, [] => true
  | lineIndex, chunk :: chunks =>
    if chunk.new_lines = [] then newLinesFound lines lineIndex chunks
    else
      match skipContext lines chunk lineIndex with
      | .error _ => false
      | .ok lineIndex =>
        match seekSequence lines chunk.new_lines lineIndex chunk.is_end_of_file with
        | none => false
        | some found => newLinesFound lines (found + chunk.new_lines.length) chunks

/-- `isChunksAlreadyApplied`, for what it reads from the file. -/
def isChunksAlreadyApplied (content : Text) (chunks : List Chunk) : Bool :=
  newLinesFound (fileLines content) 0 chunks

/-! ### What the loops come to -/

def BehindContext (lines : List Line) (chunk : Chunk) (i i' : ℕ) : Prop :=
  match chunk.seekContext with
  | none => i' = i
  | some context => ∃ k, seekSequence lines [context] i false = some k ∧ i' = k + 1

/-- The chunks are found in the lines, each behind the one before, and are to be replaced
as listed. -/
inductive Located (lines : List Line) : ℕ → List Chunk → List Replacement → Prop
  | nil (i : ℕ) : Located lines i [] []
  /-- A chunk without old lines goes to the end. -/
  | addition {i i' : ℕ} {chunk : Chunk} {chunks : List Chunk} {rs : List Replacement}
      (context : BehindContext lines chunk i i') (pure : chunk.old_lines = [])
      (rest : Located lines i' chunks rs) :
      Located lines i (chunk :: chunks) (⟨insertionIdx lines, 0, chunk.new_lines⟩ :: rs)
  | found {i i' : ℕ} {chunk : Chunk} {chunks : List Chunk} {r : Replacement}
      {rs : List Replacement} (context : BehindContext lines chunk i i')
      (old : chunk.old_lines ≠ []) (here : locate lines chunk i' = some r)
      (rest : Located lines (r.startIdx + r.oldLen) chunks rs) :
      Located lines i (chunk :: chunks) (r :: rs)

variable {lines : List Line}

theorem skipContext_eq_ok {chunk : Chunk} {i i' : ℕ} :
    skipContext lines chunk i = .ok i' ↔ BehindContext lines chunk i i' := by
  unfold skipContext BehindContext
  cases chunk.seekContext with
  | none => simp [eq_comm]
  | some context =>
    cases hseek : seekSequence lines [context] i false with
    | none => simp [hseek]
    | some k =>
      simp only [hseek]
      constructor
      · intro h
        exact ⟨k, rfl, (Except.ok.inj h).symm⟩
      · rintro ⟨k', hk, rfl⟩
        obtain rfl := Option.some.inj hk
        rfl

theorem bind_eq_ok {ε α β : Type} {x : Except ε α} {f : α → Except ε β} {b : β} :
    x >>= f = .ok b ↔ ∃ a, x = .ok a ∧ f a = .ok b := by
  cases x with
  | error e => simp [bind, Except.bind]
  | ok a => simp [bind, Except.bind]

variable {chunks : List Chunk}

theorem findReplacements_eq_ok {i : ℕ} {rs : List Replacement} :
    findReplacements lines i chunks = .ok rs ↔ Located lines i chunks rs := by
  induction chunks generalizing i rs with
  | nil =>
    constructor
    · intro h
      obtain rfl := Except.ok.inj h
      exact .nil i
    · rintro ⟨⟩
      rfl
  | cons chunk chunks ih =>
    rw [findReplacements, bind_eq_ok]
    constructor
    · rintro ⟨i', hcontext, h⟩
      have hbehind := skipContext_eq_ok.mp hcontext
      split at h
      next hpure =>
        obtain ⟨rest, hrest, hrs⟩ := bind_eq_ok.mp h
        obtain rfl := Except.ok.inj hrs
        exact .addition hbehind hpure (ih.mp hrest)
      next hold =>
        split at h
        next r hhere =>
          obtain ⟨rest, hrest, hrs⟩ := bind_eq_ok.mp h
          obtain rfl := Except.ok.inj hrs
          exact .found hbehind hold hhere (ih.mp hrest)
        next => simp [throw, throwThe, MonadExceptOf.throw] at h
    · rintro (- | ⟨hcontext, hpure, hrest⟩ | ⟨hcontext, hold, hhere, hrest⟩)
      · refine ⟨_, skipContext_eq_ok.mpr hcontext, ?_⟩
        rw [if_pos hpure, bind_eq_ok]
        exact ⟨_, ih.mpr hrest, rfl⟩
      · refine ⟨_, skipContext_eq_ok.mpr hcontext, ?_⟩
        rw [if_neg hold, hhere]
        exact bind_eq_ok.mpr ⟨_, ih.mpr hrest, rfl⟩

def exchange (lines : List Line) (rs : List Replacement) : List Line :=
  rs.foldr (fun r lines =>
    lines.take r.startIdx ++ r.newLines ++ lines.drop (r.startIdx + r.oldLen)) lines

theorem exchange_cons (lines : List Line) (r : Replacement) (rs : List Replacement) :
    exchange lines (r :: rs) =
      (exchange lines rs).take r.startIdx ++ r.newLines ++
        (exchange lines rs).drop (r.startIdx + r.oldLen) := rfl

theorem insertAll_eq {start : ℕ} {before after : List Line}
    (h : before.length = start ∨ before.length ≤ start ∧ after = []) (new : List Line) :
    insertAll start new (before ++ after) = before ++ new ++ after := by
  induction new generalizing start before with
  | nil => simp [insertAll]
  | cons l new ih =>
    have hsplice : splice start 0 [l] (before ++ after) = (before ++ [l]) ++ after := by
      rcases h with hlen | ⟨hlen, hafter⟩
      · simp [splice, ← hlen]
      · simp [splice, hafter, List.take_of_length_le hlen, List.drop_eq_nil_of_le hlen]
    have hnext : (before ++ [l]).length = start + 1 ∨
        (before ++ [l]).length ≤ start + 1 ∧ after = [] := by
      rw [List.length_append, List.length_singleton]
      exact h.imp (congrArg (· + 1)) (And.imp_left Nat.succ_le_succ)
    rw [insertAll, hsplice, ih hnext]
    simp

theorem applyReplacements_eq (lines : List Line) (rs : List Replacement) :
    applyReplacements lines rs = exchange lines rs := by
  rw [applyReplacements, List.foldl_reverse]
  induction rs with
  | nil => rfl
  | cons r rs ih =>
    rw [List.foldr_cons, ih, exchange_cons, splice, List.append_nil, insertAll_eq]
    · rcases Nat.le_total r.startIdx (exchange lines rs).length with hle | hle
      · exact Or.inl (List.length_take_of_le hle)
      · refine Or.inr ⟨List.length_take_le _ _, List.drop_eq_nil_of_le ?_⟩
        omega

/-- What the tool makes of the chunks of an update: a new content, or nothing when they are
not found and count as applied. -/
def deriveOrSkip (content : Text) (chunks : List Chunk) : Except DeriveError (Option Text) :=
  match deriveNewContentsFromChunks content chunks with
  | .ok newContent => .ok (some newContent)
  | .error e => if isChunksAlreadyApplied content chunks then .ok none else .error e

/-- The chunks are applied to the content without a failure and without a change. -/
def NoOp (content : Text) (chunks : List Chunk) : Prop :=
  ∃ written, deriveOrSkip content chunks = .ok written ∧ ∀ newContent ∈ written,
    newContent = content

end OpenCms.Patch
