import OpenCms.Patch.Parse
import Mathlib.Tactic.ByContra

/-!
# Patches written down and read back

The same chunk can be written in many ways: its old and its new lines may be told apart or
run together as lines kept. A `OpenCms.Patch.Doc` fixes one way, line by line, and
`OpenCms.Patch.Doc.hunk` is the hunk it stands for. So what is said here of `OpenCms.Patch.print` is said of
every writer of patches.

Two things keep a patch from coming back as it was written. The reader of a chunk stops
at every line that begins with three stars, the end-of-file mark among them, before it
looks whether it is one: `OpenCms.Patch.parse_bare` says that no patch read ever
has a marked chunk. And the end of the patch is looked for in all of its lines, so that a
line kept in some hunk can be taken for it; the hunks behind that one are dropped.
-/

namespace OpenCms.Patch

/-! ### Writing -/

/-- A line of a chunk: its first character says what becomes of it. -/
inductive ChangeLine
  | keep (content : Line)
  | remove (content : Line)
  | add (content : Line)

def ChangeLine.line : ChangeLine → Line
  | .keep content => ' ' :: content
  | .remove content => '-' :: content
  | .add content => '+' :: content

def ChangeLine.old : ChangeLine → Option Line
  | .keep content => some content
  | .remove content => some content
  | .add _ => none

def ChangeLine.new : ChangeLine → Option Line
  | .keep content => some content
  | .remove _ => none
  | .add content => some content

structure ChunkDoc where
  context : Option Line
  changes : List ChangeLine
  isEndOfFile : Bool

inductive Doc
  | add (path : Text) (contents : Text)
  | delete (path : Text)
  | update (path : Text) (movePath : Option Text) (chunks : List ChunkDoc)

def ChunkDoc.chunk (c : ChunkDoc) : Chunk where
  old_lines := c.changes.filterMap ChangeLine.old
  new_lines := c.changes.filterMap ChangeLine.new
  change_context := c.context
  is_end_of_file := c.isEndOfFile

def Doc.hunk : Doc → Hunk
  | .add path contents => .add path contents
  | .delete path => .delete path
  | .update path movePath chunks => .update path movePath (chunks.map ChunkDoc.chunk)

def contextLine : Option Line → Line
  | none => txt "@@"
  | some context => txt "@@ " ++ context

def ChunkDoc.lines (c : ChunkDoc) : List Line :=
  contextLine c.context ::
    (c.changes.map ChangeLine.line ++ if c.isEndOfFile then [txt "*** End of File"] else [])

def Doc.lines : Doc → List Line
  | .add path contents => (txt "*** Add File: " ++ path) :: (split contents).map ('+' :: ·)
  | .delete path => [txt "*** Delete File: " ++ path]
  | .update path movePath chunks =>
    (txt "*** Update File: " ++ path) ::
      ((movePath.map (txt "*** Move to: " ++ ·)).toList ++ chunks.flatMap ChunkDoc.lines)

def patchLines (docs : List Doc) : List Line :=
  txt "*** Begin Patch" :: (docs.flatMap Doc.lines ++ [txt "*** End Patch"])

def print (docs : List Doc) : Text := join (patchLines docs)

/-! ### What may be written -/

/-- A path that stands on a line: not empty, on one line, and no blanks around it. -/
structure GoodPath (path : Text) : Prop where
  oneLine : '\n' ∉ path
  trimmed : trim path = path
  nonempty : path ≠ []

/-- The lines of a chunk are lines, and its context has no blanks around it. -/
structure ChunkDoc.Good (c : ChunkDoc) : Prop where
  oneLine : ∀ l ∈ c.changes, '\n' ∉ l.line
  context : ∀ l ∈ c.context, '\n' ∉ l ∧ trim l = l

def Doc.Good : Doc → Prop
  | .add path _ => GoodPath path
  | .delete path => GoodPath path
  | .update path movePath chunks =>
    GoodPath path ∧ (∀ p ∈ movePath, '\n' ∉ p ∧ trim p = p) ∧ ∀ c ∈ chunks, c.Good

/-! ### Reading a chunk -/

def EndsChange (line : Line) : Prop := txt "@@" <+: line ∨ txt "***" <+: line

theorem ChangeLine.not_endsChange (l : ChangeLine) : ¬EndsChange l.line := by
  cases l <;> simp [EndsChange, ChangeLine.line, txt]

variable {tail : List Line} {docs : List Doc} (ls : List Line) {stop : ℕ} {d : Doc}

theorem parseChange_append (changes : List ChangeLine) (h : ∀ line ∈ tail.head?, EndsChange line) :
    parseChange (changes.map ChangeLine.line ++ tail) =
      ⟨changes.filterMap ChangeLine.old, changes.filterMap ChangeLine.new, false, tail⟩ := by
  induction changes with
  | nil =>
    rcases tail with - | ⟨line, rest⟩
    · rfl
    · have hline : txt "@@" <+: line ∨ txt "***" <+: line := h line rfl
      show parseChange (line :: rest) = _
      rw [parseChange, if_pos hline]
      rfl
  | cons l changes ih =>
    have hends : ¬(txt "@@" <+: l.line ∨ txt "***" <+: l.line) := l.not_endsChange
    have hmark : l.line ≠ txt "*** End of File" := by
      cases l <;> simp [ChangeLine.line, txt]
    rw [List.map_cons, List.cons_append, parseChange, if_neg hends, if_neg hmark, ih]
    cases l <;> rfl

theorem trim_contextLine {context : Option Line} (h : ∀ l ∈ context, trim l = l) :
    (if trim ((contextLine context).drop 2) = [] then none
      else some (trim ((contextLine context).drop 2))) = context.filter (· ≠ []) := by
  rcases context with - | l
  · rfl
  · have hdrop : (contextLine (some l)).drop 2 = ' ' :: l := rfl
    rw [hdrop, trim_cons_space (by decide), h l rfl]
    by_cases hl : l = [] <;> simp [hl, Option.filter]

/-- A chunk without the mark and with a context worth writing. -/
structure ChunkDoc.Plain (c : ChunkDoc) : Prop where
  unmarked : c.isEndOfFile = false
  context : c.context ≠ some []

theorem ChunkDoc.lines_of_unmarked {c : ChunkDoc} (h : c.isEndOfFile = false) :
    c.lines = contextLine c.context :: c.changes.map ChangeLine.line := by
  rw [ChunkDoc.lines, h]
  simp

theorem contextLine_endsChange (context : Option Line) : EndsChange (contextLine context) := by
  cases context <;> simp [EndsChange, contextLine, txt]

theorem parseUpdateFileChunks_append {chunks : List ChunkDoc} (hgood : ∀ c ∈ chunks, c.Good)
    (hplain : ∀ c ∈ chunks, c.Plain) (h : ∀ line ∈ tail.head?, txt "***" <+: line) :
    parseUpdateFileChunks (chunks.flatMap ChunkDoc.lines ++ tail) =
      (chunks.map ChunkDoc.chunk, tail) := by
  induction chunks with
  | nil =>
    rcases tail with - | ⟨line, rest⟩
    · exact parseUpdateFileChunks.eq_1
    · show parseUpdateFileChunks (line :: rest) = _
      rw [parseUpdateFileChunks, if_pos (h line rfl)]
      rfl
  | cons c chunks ih =>
    obtain ⟨hc, hplain⟩ := List.forall_mem_cons.mp hplain
    obtain ⟨hcgood, hgood⟩ := List.forall_mem_cons.mp hgood
    -- what follows the changes is another chunk or the end of the hunk
    have hnext : ∀ line ∈ (chunks.flatMap ChunkDoc.lines ++ tail).head?, EndsChange line := by
      rcases chunks with - | ⟨d, chunks⟩
      · exact fun line hline => Or.inr (h line hline)
      · rintro line ⟨rfl⟩
        exact contextLine_endsChange d.context
    have hstars : ¬txt "***" <+: contextLine c.context := by
      cases c.context <;> simp [contextLine, txt]
    have hat : txt "@@" <+: contextLine c.context := by
      cases c.context <;> simp [contextLine, txt]
    have hcontext : ∀ l ∈ c.context, trim l = l := fun l hl => (hcgood.context l hl).2
    have hkept : c.context.filter (· ≠ []) = c.context := by
      rcases hctx : c.context with - | l
      · rfl
      · have hl : l ≠ [] := fun hl => hc.context (by rw [hctx, hl])
        simp [Option.filter, hl]
    rw [List.flatMap_cons, ChunkDoc.lines_of_unmarked hc.unmarked, List.append_assoc,
      List.cons_append, parseUpdateFileChunks, if_neg hstars, if_pos hat,
      parseChange_append _ hnext]
    simp only [ih hgood hplain, trim_contextLine hcontext, hkept]
    rw [List.map_cons, ChunkDoc.chunk, hc.unmarked]

/-! ### Reading an added file -/

theorem parseAddLines_append (h : ∀ line ∈ tail.head?, txt "***" <+: line) :
    parseAddLines (ls.map ('+' :: ·) ++ tail) = (ls.flatMap (· ++ ['\n']), tail) := by
  induction ls with
  | nil =>
    rcases tail with - | ⟨line, rest⟩
    · rfl
    · show parseAddLines (line :: rest) = _
      rw [parseAddLines, if_pos (h line rfl)]
      rfl
  | cons l ls ih =>
    have hstars : ¬txt "***" <+: '+' :: l := by simp [txt]
    rw [List.map_cons, List.cons_append, parseAddLines, if_neg hstars, ih]
    simp

/-- The lines of a text, each with its end, are the text and one more line end. -/
theorem flatMap_split (h : ls ≠ []) : ls.flatMap (· ++ ['\n']) = join ls ++ ['\n'] := by
  induction ls with
  | nil => exact absurd rfl h
  | cons l ls ih =>
    rcases ls with - | ⟨l', ls⟩
    · simp [join]
    · rw [List.flatMap_cons, ih (by simp), join_cons_cons]
      simp

theorem parseAddFileContent_append (contents : Text) (h : ∀ line ∈ tail.head?, txt "***" <+: line) :
    parseAddFileContent ((split contents).map ('+' :: ·) ++ tail) = (contents, tail) := by
  have hends : txt "\n" <:+ contents ++ ['\n'] := ⟨contents, rfl⟩
  rw [parseAddFileContent, parseAddLines_append _ h, flatMap_split _ (split_ne_nil contents),
    join_split]
  simp only [if_pos hends, List.dropLast_concat]

/-! ### Reading a hunk -/

def Doc.header : Doc → Line
  | .add path _ => txt "*** Add File: " ++ path
  | .delete path => txt "*** Delete File: " ++ path
  | .update path _ _ => txt "*** Update File: " ++ path

def Doc.body : Doc → List Line
  | .add _ contents => (split contents).map ('+' :: ·)
  | .delete _ => []
  | .update _ movePath chunks =>
    (movePath.map (txt "*** Move to: " ++ ·)).toList ++ chunks.flatMap ChunkDoc.lines

theorem Doc.lines_eq (d : Doc) : d.lines = d.header :: d.body := by
  cases d <;> rfl

/-- A line that can follow a hunk: a header or the end of the patch. -/
structure EndsHunk (line : Line) : Prop where
  stars : txt "***" <+: line
  noMove : ¬txt "*** Move to:" <+: line

theorem Doc.header_endsHunk (d : Doc) : EndsHunk d.header := by
  cases d <;> exact ⟨by simp [Doc.header, txt], by simp [Doc.header, txt]⟩

/-- No chunk of the hunk has the mark, or an empty context written out. -/
def Doc.Plain : Doc → Prop
  | .update _ _ chunks => ∀ c ∈ chunks, c.Plain
  | _ => True

theorem headerPath_append (marker : String) {path : Text} (h : GoodPath path) :
    headerPath marker (txt marker ++ ' ' :: path) = some path := by
  rw [headerPath, List.drop_left, trim_cons_space (by decide), h.trimmed]
  simp [h.nonempty]

theorem moveDirective_append {movePath : Option Text} (chunks : List ChunkDoc)
    (hmove : ∀ p ∈ movePath, trim p = p) (h : ∀ line ∈ tail.head?, EndsHunk line) :
    moveDirective ((movePath.map (txt "*** Move to: " ++ ·)).toList ++
      (chunks.flatMap ChunkDoc.lines ++ tail)) =
        (movePath, chunks.flatMap ChunkDoc.lines ++ tail) := by
  rcases movePath with - | p
  · -- the next line is the context of a chunk or follows the hunk
    rcases chunks with - | ⟨c, chunks⟩
    · rcases tail with - | ⟨line, rest⟩
      · rfl
      · show moveDirective (line :: rest) = _
        rw [moveDirective, if_neg (h line rfl).noMove]
        rfl
    · have hmarker : ¬txt "*** Move to:" <+: contextLine c.context := by
        cases c.context <;> simp [contextLine, txt]
      show moveDirective (contextLine c.context :: _) = _
      rw [moveDirective, if_neg hmarker]
      rfl
  · have hline : txt "*** Move to: " ++ p = txt "*** Move to:" ++ ' ' :: p := by simp [txt]
    show moveDirective ((txt "*** Move to: " ++ p) :: _) = _
    rw [hline, moveDirective, if_pos (List.prefix_append _ _), List.drop_left,
      trim_cons_space (by decide), hmove p rfl]
    rfl

theorem parseHunk_append (hgood : d.Good) (hplain : d.Plain)
    (h : ∀ line ∈ tail.head?, EndsHunk line) :
    ∃ header, parsePatchHeader (d.header :: (d.body ++ tail)) = some header ∧
      parseHunk d.header header = (d.hunk, tail) := by
  have hstars : ∀ line ∈ tail.head?, txt "***" <+: line := fun line hl => (h line hl).stars
  rcases d with ⟨path, contents⟩ | path | ⟨path, movePath, chunks⟩
  · have hline : txt "*** Add File: " ++ path = txt "*** Add File:" ++ ' ' :: path := by
      simp [txt]
    refine ⟨⟨path, none, (split contents).map ('+' :: ·) ++ tail⟩, ?_, ?_⟩
    · rw [Doc.header, hline, parsePatchHeader, if_pos (List.prefix_append _ _),
        headerPath_append _ hgood]
      rfl
    · rw [Doc.header, hline, parseHunk, if_pos (List.prefix_append _ _),
        parseAddFileContent_append contents hstars]
      rfl
  · have hline : txt "*** Delete File: " ++ path = txt "*** Delete File:" ++ ' ' :: path := by
      simp [txt]
    have hadd : ¬txt "*** Add File:" <+: txt "*** Delete File:" ++ ' ' :: path := by simp [txt]
    refine ⟨⟨path, none, tail⟩, ?_, ?_⟩
    · rw [Doc.header, hline, parsePatchHeader, if_neg hadd, if_pos (List.prefix_append _ _),
        headerPath_append _ hgood]
      rfl
    · rfl
  · obtain ⟨hpath, hmove, hchunks⟩ := hgood
    have hline : txt "*** Update File: " ++ path = txt "*** Update File:" ++ ' ' :: path := by
      simp [txt]
    have hadd : ¬txt "*** Add File:" <+: txt "*** Update File:" ++ ' ' :: path := by simp [txt]
    have hdelete : ¬txt "*** Delete File:" <+: txt "*** Update File:" ++ ' ' :: path := by
      simp [txt]
    have hdirective := moveDirective_append chunks (fun p hp => (hmove p hp).2) h
    refine ⟨⟨path, movePath, chunks.flatMap ChunkDoc.lines ++ tail⟩, ?_, ?_⟩
    · rw [Doc.header, hline, parsePatchHeader, if_neg hadd, if_neg hdelete,
        if_pos (List.prefix_append _ _), headerPath_append _ hpath, Doc.body, List.append_assoc,
        hdirective]
      rfl
    · rw [Doc.header, hline, parseHunk, if_neg hadd, if_neg hdelete,
        parseUpdateFileChunks_append hchunks hplain hstars]
      rfl

/-! ### Reading a patch -/

theorem parseHunks_append (hgood : d.Good) (hplain : d.Plain)
    (h : ∀ line ∈ tail.head?, EndsHunk line) :
    parseHunks stop (d.lines ++ tail) =
      if (d.lines ++ tail).length ≤ stop then [] else d.hunk :: parseHunks stop tail := by
  obtain ⟨header, hheader, hhunk⟩ := parseHunk_append hgood hplain h
  rw [Doc.lines_eq, List.cons_append, parseHunks, List.length_cons]
  split
  · rfl
  · split
    next hnone =>
      rw [hheader] at hnone
      simp at hnone
    next header' hsome =>
      rw [hheader] at hsome
      obtain rfl := Option.some.inj hsome
      rw [hhunk]

def endLine : Line := txt "*** End Patch"

theorem endLine_endsHunk : EndsHunk endLine :=
  ⟨by simp [endLine, txt], by simp [endLine, txt]⟩

theorem endsHunk_head (docs : List Doc) :
    ∀ line ∈ (docs.flatMap Doc.lines ++ [endLine]).head?, EndsHunk line := by
  rcases docs with - | ⟨d, docs⟩
  · rintro line ⟨rfl⟩
    exact endLine_endsHunk
  · rw [List.flatMap_cons, Doc.lines_eq]
    rintro line ⟨rfl⟩
    exact d.header_endsHunk

theorem parseHunks_of_le {lines : List Line} (h : lines.length ≤ stop) :
    parseHunks stop lines = [] := by
  cases lines with
  | nil => exact parseHunks.eq_1 stop
  | cons line rest =>
    have hlen : rest.length + 1 ≤ stop := h
    rw [parseHunks, if_pos hlen]

theorem parseHunks_all {last : Doc} (hgood : ∀ d ∈ docs ++ [last], d.Good)
    (hplain : ∀ d ∈ docs ++ [last], d.Plain) (hpos : 1 ≤ stop) (h : stop ≤ last.lines.length) :
    parseHunks stop ((docs ++ [last]).flatMap Doc.lines ++ [endLine]) =
      (docs ++ [last]).map Doc.hunk := by
  induction docs with
  | nil =>
    have hlen : ¬(last.lines ++ [endLine]).length ≤ stop := by
      rw [List.length_append, List.length_singleton]
      omega
    have htail : ∀ line ∈ [endLine].head?, EndsHunk line := endsHunk_head []
    rw [List.nil_append, List.flatMap_singleton,
      parseHunks_append (hgood last (by simp)) (hplain last (by simp)) htail, if_neg hlen,
      parseHunks_of_le hpos]
    rfl
  | cons d docs ih =>
    rw [List.cons_append] at hgood hplain ⊢
    obtain ⟨hd, hgood⟩ := List.forall_mem_cons.mp hgood
    obtain ⟨hd', hplain⟩ := List.forall_mem_cons.mp hplain
    have hlen : stop < (d.lines ++ ((docs ++ [last]).flatMap Doc.lines ++ [endLine])).length := by
      simp only [List.flatMap_append, List.flatMap_singleton, List.length_append,
        List.length_singleton]
      omega
    rw [List.flatMap_cons, List.append_assoc, parseHunks_append hd hd' (endsHunk_head _),
      if_neg (by omega), ih hgood hplain, List.map_cons]

theorem parseHunks_few {before after : List Doc} (hgood : ∀ d ∈ before, d.Good)
    (hplain : ∀ d ∈ before, d.Plain) (h : (after.flatMap Doc.lines).length + 1 ≤ stop) :
    (parseHunks stop ((before ++ after).flatMap Doc.lines ++ [endLine])).length ≤
      before.length := by
  induction before with
  | nil =>
    rw [List.nil_append, parseHunks_of_le (by simpa using h)]
    rfl
  | cons d before ih =>
    obtain ⟨hd, hgood⟩ := List.forall_mem_cons.mp hgood
    obtain ⟨hd', hplain⟩ := List.forall_mem_cons.mp hplain
    rw [List.cons_append, List.flatMap_cons, List.append_assoc,
      parseHunks_append hd hd' (endsHunk_head _)]
    split
    · exact Nat.zero_le _
    · exact Nat.succ_le_succ (ih hgood hplain)

/-! ### What a patch read never has -/

theorem parseChange_isEndOfFile (lines : List Line) :
    (parseChange lines).isEndOfFile = false := by
  induction lines with
  | nil => rfl
  | cons line rest ih =>
    rw [parseChange]
    split
    · rfl
    next hends =>
      have hmark : line ≠ txt "*** End of File" := by
        rintro rfl
        exact hends (Or.inr (by simp [txt]))
      rw [if_neg hmark]
      split <;> exact ih

/-- A hunk with no chunk marked as the last and no empty context written out. -/
def Hunk.Bare : Hunk → Prop
  | .update _ _ chunks => ∀ c ∈ chunks, c.is_end_of_file = false ∧ c.change_context ≠ some []
  | _ => True

theorem parseUpdateFileChunks_bare (lines : List Line) :
    ∀ c ∈ (parseUpdateFileChunks lines).1,
      c.is_end_of_file = false ∧ c.change_context ≠ some [] := by
  fun_induction parseUpdateFileChunks lines with
  | case1 => simp
  | case2 line rest h => simp
  | case3 line rest h h' contextLine change chunks ih =>
    refine List.forall_mem_cons.mpr ⟨⟨parseChange_isEndOfFile rest, ?_⟩, ih⟩
    show (if contextLine = [] then none else some contextLine) ≠ some []
    split
    · simp
    next hne => simpa using hne
  | case4 line rest h h' ih => exact ih

theorem parseHunk_bare (line : Line) (header : Header) : (parseHunk line header).1.Bare := by
  unfold parseHunk
  split
  · trivial
  · split
    · trivial
    · exact parseUpdateFileChunks_bare header.rest

theorem parseHunks_bare (stop : ℕ) (lines : List Line) :
    ∀ h ∈ parseHunks stop lines, h.Bare := by
  fun_induction parseHunks stop lines with
  | case1 => simp
  | case2 line rest h => simp
  | case3 line rest h _ ih => exact ih
  | case4 line rest h header _ ih => exact List.forall_mem_cons.mpr ⟨parseHunk_bare line header, ih⟩

/-- **The end-of-file mark is never read**: no chunk of a patch read has it. -/
theorem parse_bare {patchText : Text} {hunks : List Hunk} (h : parsePatch patchText = some hunks) :
    ∀ hunk ∈ hunks, hunk.Bare := by
  unfold parsePatch at h
  simp only at h
  split at h
  · split at h
    · obtain rfl := Option.some.inj h
      exact parseHunks_bare _ _
    · simp at h
  · simp at h

/-! ### Round trip -/

def ChunkDoc.EndLike (c : ChunkDoc) : Prop :=
  ∃ content, ChangeLine.keep content ∈ c.changes ∧ trim content = endLine

def Doc.EndLike : Doc → Prop
  | .update _ _ chunks => ∃ c ∈ chunks, c.EndLike
  | _ => False

theorem not_end_of_head {l : Line} (hl : ∀ c ∈ l.head?, isSpace c = false)
    (h : ¬endLine <+: l) : trim l ≠ endLine := by
  rcases l with - | ⟨c, l⟩
  · decide
  · intro htrim
    exact h (htrim ▸ trim_cons_isPrefix (hl c rfl) l)

theorem head_marker {c : Char} (hc : isSpace c = false) {l : Line} (h : l.head? = some c) :
    ∀ d ∈ l.head?, isSpace d = false := by
  rintro d hd
  rw [h] at hd
  obtain rfl := Option.some.inj hd
  exact hc

theorem ChangeLine.end_iff (l : ChangeLine) :
    trim l.line = endLine ↔ ∃ content, l = .keep content ∧ trim content = endLine := by
  rcases l with content | content | content
  · rw [ChangeLine.line, trim_cons_space (by decide)]
    simp
  · refine iff_of_false (not_end_of_head (head_marker (by decide) rfl) ?_) (by simp)
    simp [ChangeLine.line, endLine, txt]
  · refine iff_of_false (not_end_of_head (head_marker (by decide) rfl) ?_) (by simp)
    simp [ChangeLine.line, endLine, txt]

theorem ChunkDoc.end_iff (c : ChunkDoc) :
    (∃ l ∈ c.lines, trim l = endLine) ↔ c.EndLike := by
  have hcontext : trim (contextLine c.context) ≠ endLine := by
    cases c.context with
    | none => decide
    | some context =>
      refine not_end_of_head (head_marker (c := '@') (by decide) rfl) ?_
      simp [contextLine, endLine, txt]
  have hmark : trim (txt "*** End of File") ≠ endLine := by decide
  constructor
  · rintro ⟨l, hl, htrim⟩
    rcases List.mem_cons.mp hl with rfl | hl
    · exact absurd htrim hcontext
    · rcases List.mem_append.mp hl with hl | hl
      · obtain ⟨change, hchange, rfl⟩ := List.mem_map.mp hl
        obtain ⟨content, rfl, hcontent⟩ := change.end_iff.mp htrim
        exact ⟨content, hchange, hcontent⟩
      · split at hl
        · obtain rfl := List.mem_singleton.mp hl
          exact absurd htrim hmark
        · simp at hl
  · rintro ⟨content, hchange, hcontent⟩
    refine ⟨(ChangeLine.keep content).line, ?_, (ChangeLine.end_iff _).mpr ⟨content, rfl, hcontent⟩⟩
    exact List.mem_cons_of_mem _ (List.mem_append_left _ (List.mem_map_of_mem hchange))

theorem Doc.end_iff (d : Doc) : (∃ l ∈ d.lines, trim l = endLine) ↔ d.EndLike := by
  have hheader : trim d.header ≠ endLine := by
    refine not_end_of_head (head_marker (c := '*') (by decide) (by cases d <;> rfl)) ?_
    cases d <;> simp [Doc.header, endLine, txt]
  have hsplit : (∃ l ∈ d.lines, trim l = endLine) ↔ ∃ l ∈ d.body, trim l = endLine := by
    rw [Doc.lines_eq]
    simp [hheader]
  rw [hsplit]
  rcases d with ⟨path, contents⟩ | path | ⟨path, movePath, chunks⟩
  · refine iff_of_false ?_ id
    rintro ⟨l, hl, htrim⟩
    obtain ⟨text, -, rfl⟩ := List.mem_map.mp hl
    refine not_end_of_head (head_marker (c := '+') (by decide) rfl) ?_ htrim
    simp [endLine, txt]
  · simp [Doc.body, Doc.EndLike]
  · have hmove : ∀ p : Text, trim (txt "*** Move to: " ++ p) ≠ endLine := fun p =>
      not_end_of_head (head_marker (c := '*') (by decide) rfl) (by simp [endLine, txt])
    have hnone : ∀ l ∈ (movePath.map (txt "*** Move to: " ++ ·)).toList, trim l ≠ endLine := by
      cases movePath with
      | none => simp
      | some p => simpa using hmove p
    constructor
    · rintro ⟨l, hl, htrim⟩
      rcases List.mem_append.mp hl with hl | hl
      · exact absurd htrim (hnone l hl)
      · obtain ⟨c, hc, hl⟩ := List.mem_flatMap.mp hl
        exact ⟨c, hc, c.end_iff.mp ⟨l, hl, htrim⟩⟩
    · rintro ⟨c, hc, hend⟩
      obtain ⟨l, hl, htrim⟩ := c.end_iff.mpr hend
      exact ⟨l, List.mem_append_right _ (List.mem_flatMap.mpr ⟨c, hc, hl⟩), htrim⟩

theorem ChunkDoc.Good.lines_oneLine {c : ChunkDoc} (h : c.Good) : ∀ l ∈ c.lines, '\n' ∉ l := by
  have hcontext : '\n' ∉ contextLine c.context := by
    rcases hc : c.context with - | l
    · decide
    · have hl := (h.context l hc).1
      simpa [contextLine, txt] using hl
  refine List.forall_mem_cons.mpr ⟨hcontext, List.forall_mem_append.mpr ⟨?_, ?_⟩⟩
  · rintro l hl
    obtain ⟨change, hchange, rfl⟩ := List.mem_map.mp hl
    exact h.oneLine change hchange
  · split
    · rintro l hl
      obtain rfl := List.mem_singleton.mp hl
      decide
    · simp

theorem Doc.Good.lines_oneLine (h : d.Good) : ∀ l ∈ d.lines, '\n' ∉ l := by
  rcases d with ⟨path, contents⟩ | path | ⟨path, movePath, chunks⟩
  · have hpath : '\n' ∉ path := GoodPath.oneLine h
    refine List.forall_mem_cons.mpr ⟨by simpa [txt] using hpath, ?_⟩
    rintro l hl
    obtain ⟨text, htext, rfl⟩ := List.mem_map.mp hl
    simpa using not_mem_of_mem_split htext
  · have hpath : '\n' ∉ path := GoodPath.oneLine h
    exact List.forall_mem_cons.mpr ⟨by simpa [txt] using hpath, by simp⟩
  · obtain ⟨hpath, hmove, hchunks⟩ := h
    refine List.forall_mem_cons.mpr ⟨by simpa [txt] using hpath.oneLine,
      List.forall_mem_append.mpr ⟨?_, ?_⟩⟩
    · cases movePath with
      | none => simp
      | some p => simpa [txt] using (hmove p rfl).1
    · rintro l hl
      obtain ⟨c, hc, hl⟩ := List.mem_flatMap.mp hl
      exact (hchunks c hc).lines_oneLine l hl

theorem split_print (h : ∀ d ∈ docs, d.Good) : split (print docs) = patchLines docs := by
  refine split_join ?_ (by simp [patchLines])
  refine List.forall_mem_cons.mpr ⟨by decide, List.forall_mem_append.mpr ⟨?_, ?_⟩⟩
  · rintro l hl
    obtain ⟨d, hd, hl⟩ := List.mem_flatMap.mp hl
    exact (h d hd).lines_oneLine l hl
  · rintro l hl
    obtain rfl := List.mem_singleton.mp hl
    decide

theorem join_concat (l : Line) : ∃ u, join (ls ++ [l]) = u ++ l := by
  induction ls with
  | nil => exact ⟨[], by simp [join]⟩
  | cons l' ls ih =>
    obtain ⟨u, hu⟩ := ih
    obtain ⟨l'', ls', hls⟩ := List.exists_cons_of_ne_nil (List.append_ne_nil_of_right_ne_nil ls
      (List.cons_ne_nil l []))
    refine ⟨l' ++ '\n' :: u, ?_⟩
    rw [List.cons_append, hls, join_cons_cons, ← hls, hu]
    simp

theorem stripHeredoc_print (docs : List Doc) : stripHeredoc (trim (print docs)) = print docs := by
  obtain ⟨u, hu⟩ := join_concat (txt "*** Begin Patch" :: docs.flatMap Doc.lines) endLine
  obtain ⟨t, ht⟩ : ∃ t, print docs = '*' :: t := by
    obtain ⟨l, ls, hls⟩ := List.exists_cons_of_ne_nil (List.append_ne_nil_of_right_ne_nil
      (docs.flatMap Doc.lines) (List.cons_ne_nil endLine []))
    have hlines : patchLines docs = txt "*** Begin Patch" :: l :: ls := by
      rw [← hls]
      rfl
    exact ⟨_, by rw [print, hlines, join_cons_cons]; rfl⟩
  have hend : '*' :: t = (u ++ txt "*** End Patc") ++ ['h'] := by
    rw [← ht, List.append_assoc]
    exact hu
  rw [ht, trim_of_ends (by decide) (by decide) hend]
  rfl

theorem findIdx?_split {α : Type*} {p : α → Bool} {xs ys : List α} {m : α}
    (hxs : ∀ x ∈ xs, p x = false) (hm : p m = true) :
    (xs ++ m :: ys).findIdx? p = some xs.length := by
  induction xs with
  | nil => simp [List.findIdx?_cons, hm]
  | cons x xs ih =>
    obtain ⟨hx, hxs⟩ := List.forall_mem_cons.mp hxs
    simp [List.findIdx?_cons, hx, ih hxs]

theorem parsePatch_print (hgood : ∀ d ∈ docs, d.Good) {before after : List Line} {line : Line}
    (hsplit : docs.flatMap Doc.lines ++ [endLine] = before ++ line :: after)
    (hbefore : ∀ l ∈ before, trim l ≠ endLine) (hline : trim line = endLine) :
    parsePatch (print docs) =
      some (parseHunks (after.length + 1) (docs.flatMap Doc.lines ++ [endLine])) := by
  have hlines : patchLines docs =
      (txt "*** Begin Patch" :: before) ++ line :: after := congrArg (_ :: ·) hsplit
  have hbegin : (patchLines docs).findIdx? (fun l => trim l = txt "*** Begin Patch") = some 0 :=
    findIdx?_split (List.forall_mem_nil _) (by decide)
  have hend : (patchLines docs).findIdx? (fun l => trim l = txt "*** End Patch") =
      some (before.length + 1) := by
    rw [hlines]
    refine findIdx?_split (List.forall_mem_cons.mpr ⟨by decide, fun l hl => ?_⟩) ?_
    · exact decide_eq_false (hbefore l hl)
    · exact decide_eq_true hline
  have hstop : (patchLines docs).length - (before.length + 1) = after.length + 1 := by
    rw [hlines, List.length_append, List.length_cons, List.length_cons]
    omega
  unfold parsePatch
  simp only [stripHeredoc_print, split_print hgood, hbegin, hend, hstop]
  rfl

theorem exists_first_endLike (h : ∃ d ∈ docs, d.EndLike) :
    ∃ before d after, docs = before ++ d :: after ∧ d.EndLike ∧ ∀ b ∈ before, ¬b.EndLike := by
  induction docs with
  | nil => simp at h
  | cons d docs ih =>
    by_cases hd : d.EndLike
    · exact ⟨[], d, docs, rfl, hd, by simp⟩
    · obtain ⟨before, e, after, rfl, he, hbefore⟩ := ih (by simpa [hd] using h)
      exact ⟨d :: before, e, after, rfl, he, List.forall_mem_cons.mpr ⟨hd, hbefore⟩⟩

theorem exists_first_end {lines : List Line} (h : ∃ l ∈ lines, trim l = endLine) :
    ∃ before line after, lines = before ++ line :: after ∧ trim line = endLine ∧
      ∀ l ∈ before, trim l ≠ endLine := by
  induction lines with
  | nil => simp at h
  | cons l lines ih =>
    by_cases hl : trim l = endLine
    · exact ⟨[], l, lines, rfl, hl, by simp⟩
    · obtain ⟨before, line, after, rfl, hline, hbefore⟩ := ih (by simpa [hl] using h)
      exact ⟨l :: before, line, after, rfl, hline, List.forall_mem_cons.mpr ⟨hl, hbefore⟩⟩

theorem unlike_lines (h : ∀ d ∈ docs, ¬d.EndLike) :
    ∀ l ∈ docs.flatMap Doc.lines, trim l ≠ endLine := by
  rintro l hl htrim
  obtain ⟨d, hd, hl⟩ := List.mem_flatMap.mp hl
  exact h d hd (d.end_iff.mp ⟨l, hl, htrim⟩)

theorem parse_print_of_plain (hne : docs ≠ []) (hgood : ∀ d ∈ docs, d.Good)
    (hplain : ∀ d ∈ docs, d.Plain) :
    parsePatch (print docs) = some (docs.map Doc.hunk) ↔ ∀ d ∈ docs.dropLast, ¬d.EndLike := by
  by_cases hend : ∃ d ∈ docs, d.EndLike
  · obtain ⟨before, d, after, rfl, hd, hbefore⟩ := exists_first_endLike hend
    -- the first such line stands in `d`, behind its header
    obtain ⟨above, line, below, hlines, hline, habove⟩ := exists_first_end (d.end_iff.mpr hd)
    have hsplit : (before ++ d :: after).flatMap Doc.lines ++ [endLine] =
        (before.flatMap Doc.lines ++ above) ++
          line :: (below ++ (after.flatMap Doc.lines ++ [endLine])) := by
      simp [List.flatMap_append, hlines]
    have hparse := parsePatch_print hgood hsplit
      (List.forall_mem_append.mpr ⟨unlike_lines hbefore, habove⟩) hline
    have hheader : 1 ≤ above.length := by
      rcases above with - | ⟨l, above⟩
      · have hhead : d.header = line := by
          have hcons := d.lines_eq.symm.trans hlines
          exact (List.cons.inj hcons).1
        refine absurd hline ?_
        rw [← hhead]
        refine not_end_of_head (head_marker (c := '*') (by decide) (by cases d <;> rfl)) ?_
        cases d <;> simp [Doc.header, endLine, txt]
      · exact Nat.succ_le_succ (Nat.zero_le _)
    have hlen := congrArg List.length hlines
    rw [List.length_append, List.length_cons] at hlen
    rcases eq_or_ne after [] with rfl | hafter
    · -- nothing stands behind it
      rw [hparse, List.dropLast_concat]
      refine iff_of_true (congrArg some (parseHunks_all hgood hplain (by simp) ?_)) hbefore
      simp only [List.flatMap_nil, List.nil_append, List.length_append, List.length_singleton]
      omega
    · rw [hparse]
      refine iff_of_false (fun hall => ?_) fun hnone => ?_
      · have hsplit : before ++ d :: after = (before ++ [d]) ++ after := by simp
        rw [hsplit] at hgood hplain hall
        have hstop : (after.flatMap Doc.lines).length + 1 ≤
            (below ++ (after.flatMap Doc.lines ++ [endLine])).length + 1 := by
          simp only [List.length_append, List.length_singleton]
          omega
        have hfew := parseHunks_few (List.forall_mem_append.mp hgood).1
          (List.forall_mem_append.mp hplain).1 hstop
        rw [Option.some.inj hall, List.length_map, List.length_append] at hfew
        exact hafter (List.length_eq_zero_iff.mp (by omega))
      · refine hnone d ?_ hd
        rw [List.dropLast_append_of_ne_nil (List.cons_ne_nil d after),
          List.dropLast_cons_of_ne_nil hafter]
        exact List.mem_append_right _ List.mem_cons_self
  · have hunlike : ∀ d ∈ docs, ¬d.EndLike := fun d hd he => hend ⟨d, hd, he⟩
    obtain ⟨init, last, rfl⟩ := (List.eq_nil_or_concat' docs).resolve_left hne
    have hsplit : (init ++ [last]).flatMap Doc.lines ++ [endLine] =
        (init ++ [last]).flatMap Doc.lines ++ endLine :: [] := rfl
    have hparse := parsePatch_print hgood hsplit (unlike_lines hunlike) (by decide)
    rw [hparse]
    refine iff_of_true (congrArg some (parseHunks_all hgood hplain (by simp) ?_))
      fun d hd => hunlike d (List.mem_of_mem_dropLast hd)
    rw [Doc.lines_eq]
    exact Nat.succ_le_succ (Nat.zero_le _)

theorem Doc.plain_of_bare (h : d.hunk.Bare) : d.Plain := by
  rcases d with ⟨path, contents⟩ | path | ⟨path, movePath, chunks⟩
  · trivial
  · trivial
  · intro c hc
    obtain ⟨hmark, hcontext⟩ := h c.chunk (List.mem_map_of_mem hc)
    exact ⟨hmark, hcontext⟩

/-- **What is written comes back** exactly if no chunk has the end-of-file mark or an empty
context written out, and no hunk but the last keeps a line that looks like the end of the
patch. -/
theorem parse_print_iff {docs : List Doc} (hne : docs ≠ []) (hgood : ∀ d ∈ docs, d.Good) :
    parsePatch (print docs) = some (docs.map Doc.hunk) ↔
      (∀ d ∈ docs, d.Plain) ∧ ∀ d ∈ docs.dropLast, ¬d.EndLike := by
  constructor
  · intro h
    have hplain : ∀ d ∈ docs, d.Plain := fun d hd =>
      Doc.plain_of_bare (parse_bare h d.hunk (List.mem_map_of_mem hd))
    exact ⟨hplain, (parse_print_of_plain hne hgood hplain).mp h⟩
  · rintro ⟨hplain, hunlike⟩
    exact (parse_print_of_plain hne hgood hplain).mpr hunlike

/-- An update that takes one line out of a function and puts another one in. -/
def sampleDoc (isEndOfFile : Bool) : Doc :=
  .update (txt "src/a.ts") none
    [⟨some (txt "function f() \x7b"),
      [.keep (txt "  // *** End Patch"), .remove (txt "  return 1"), .add (txt "  return 2")],
      isEndOfFile⟩]

theorem sampleDoc_good (isEndOfFile : Bool) : (sampleDoc isEndOfFile).Good := by
  refine ⟨⟨by decide, by decide, by decide⟩, by simp, ?_⟩
  rintro c hc
  obtain rfl := List.mem_singleton.mp hc
  refine ⟨by simp [ChangeLine.line, txt], ?_⟩
  rintro l ⟨rfl⟩
  exact ⟨by decide, by decide⟩

/-- Two hunks, written and read back. -/
theorem parse_print_sample :
    parsePatch (print [sampleDoc false, .delete (txt "b.ts")]) =
      some [(sampleDoc false).hunk, .delete (txt "b.ts")] := by
  refine (parse_print_iff (by simp) ?_).mpr ⟨?_, ?_⟩
  · exact List.forall_mem_cons.mpr ⟨sampleDoc_good false,
      List.forall_mem_singleton.mpr ⟨by decide, by decide, by decide⟩⟩
  · refine List.forall_mem_cons.mpr ⟨?_, List.forall_mem_singleton.mpr trivial⟩
    rintro c hc
    obtain rfl := List.mem_singleton.mp hc
    exact ⟨rfl, by decide⟩
  · rintro d hd
    obtain rfl : d = sampleDoc false := by simpa using hd
    rintro ⟨c, hc, content, hkeep, htrim⟩
    obtain rfl := List.mem_singleton.mp hc
    obtain rfl : content = txt "  // *** End Patch" := by simpa using hkeep
    exact absurd htrim (by decide)

/-- **The end-of-file mark does not come back.** -/
theorem mark_dropped :
    ¬∀ docs : List Doc, docs ≠ [] → (∀ d ∈ docs, d.Good) →
      parsePatch (print docs) = some (docs.map Doc.hunk) := by
  intro h
  have hread := h [sampleDoc true] (by simp) (by simpa using sampleDoc_good true)
  have hbare := parse_bare hread (sampleDoc true).hunk (by simp)
  have hmark := (Doc.plain_of_bare hbare _ List.mem_cons_self).unmarked
  simp at hmark

end OpenCms.Patch
