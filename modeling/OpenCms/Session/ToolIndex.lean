import OpenCms.Lib.JsString
import OpenCms.Lib.Runs

/-!
# The index of tool calls

A summary ends with a table of the tool calls that are in it, so that what they gave can still be
asked for. Each compaction reads the table of the summary before, puts the new calls behind the old
ones, drops the oldest if there are too many, and writes the table again.

A row is read by its bars. In the arguments of a call a bar is written with a backslash before it,
but it stays a bar, and a line end stays a line end: such a row is not read again. This, and the
lines of the text before the table, decide what is read
(`OpenCms.ToolIndex.recallable_iff`).
-/

namespace OpenCms.ToolIndex

open JsString

/-- `ToolIndexEntry["status"]`. -/
inductive Status
  | ok
  | error
  | abort
  | unknown
  deriving DecidableEq

def Status.text : Status → JsString
  | .ok => js "ok"
  | .error => js "error"
  | .abort => js "abort"
  | .unknown => js "unknown"

structure ToolIndexEntry where
  toolCallId : JsString
  toolName : JsString
  argsBrief : JsString
  status : Status
  outputChars : ℕ
  deriving DecidableEq

/-- What is to be read again of an entry: all but the arguments. -/
def ToolIndexEntry.key (e : ToolIndexEntry) : JsString × JsString × Status × ℕ :=
  (e.toolCallId, e.toolName, e.status, e.outputChars)

/-! ### Reading -/

/-- `|`. -/
def bar : UInt16 := 124

/-- `ROW_REGEX`: there is no bar in a cell, so that the bars of a row are those around its five
cells. The first one is not blank, the last one is a number. -/
def cells (trimmed : JsString) :
    Option (JsString × JsString × JsString × JsString × JsString) :=
  match trimmed.splitOn bar with
  | [[], id, name, args, status, chars, []] =>
    if trim id ≠ [] ∧ trim chars ≠ [] ∧ (trim chars).all JsString.isDigit then
      some (trim id, trim name, trim args, trim status, trim chars)
    else none
  | _ => none

/-- `/^\|\s*-+/`. -/
def isSeparator : JsString → Bool
  | [] => false
  | c :: rest => c = bar && (rest.dropWhile isWhiteSpace).head? = some 45

/-- A letter in lower case. No other unit becomes one of those that it is compared with. -/
def toLowerCase (c : UInt16) : UInt16 := if 65 ≤ c.toNat ∧ c.toNat ≤ 90 then c + 32 else c

def normStatus (status : JsString) : Status :=
  if status = js "ok" then .ok
  else if status = js "error" then .error
  else if status = js "abort" then .abort
  else .unknown

def readRow (line : JsString) : Option ToolIndexEntry :=
  let trimmed := trim line
  if trimmed.head? ≠ some bar then none
  else if isSeparator trimmed then none
  else
    match cells trimmed with
    | none => none
    | some (id, name, args, status, chars) =>
      if id.map toLowerCase = js "tool_call_id" then none
      else if id.head? = some 40 then none
      else some ⟨id, name, args, normStatus status, number chars⟩

def isLineTerminator (c : UInt16) : Bool := c = 10 || c = 13 || c = 0x2028 || c = 0x2029

/-- `\s*$`. -/
def closes : JsString → Bool
  | [] => true
  | c :: rest => isLineTerminator c || (isWhiteSpace c && closes rest)

def isMarker (s : JsString) : Bool :=
  let hashes := (s.takeWhile (· = 35)).length
  let rest := s.dropWhile (· = 35)
  let name := rest.dropWhile isWhiteSpace
  (hashes = 2 || hashes = 3) && rest.head?.any isWhiteSpace &&
    (name.take 10).map toLowerCase = js "tool_index" && closes (name.drop 10)

def findMarker : Bool → JsString → Option ℕ
  | _, [] => none
  | lineStart, c :: rest =>
    if lineStart && isMarker (c :: rest) then some 0
    else (findMarker (isLineTerminator c) rest).map (· + 1)

def findMarkerIndex (body : JsString) : Option ℕ := findMarker true body

def chomp (line : JsString) : JsString := if line.getLast? = some 13 then line.dropLast else line

def splitLines (s : JsString) : List JsString :=
  (lines s).dropLast.map chomp ++ (lines s).getLast?.toList

def parseFromBody (body : JsString) : List ToolIndexEntry :=
  match findMarkerIndex body with
  | none => []
  | some markerIdx => (splitLines (body.drop markerIdx)).filterMap readRow

/-! ### Writing -/

def sectionMarker : JsString := js "## TOOL_INDEX"

/-- `replace(/\|/g, "\\|")`. -/
def escape (s : JsString) : JsString := s.flatMap fun c => if c = bar then [92, bar] else [c]

def rowLine (e : ToolIndexEntry) : JsString :=
  js "| " ++ (js " | ").intercalate
    [e.toolCallId, e.toolName, escape e.argsBrief, e.status.text,
      JsString.decimal e.outputChars] ++ js " |"

def rowLines (entries : List ToolIndexEntry) : List JsString :=
  if entries = [] then [js "| (no tool calls in this period) | — | — | — | 0 |"]
  else entries.map rowLine

def renderSection (entries : List ToolIndexEntry) : JsString :=
  unlines ([sectionMarker, [],
    js "| tool_call_id | tool_name | args_brief | status | output_chars |",
    js "|---|---|---|---|---|"] ++ rowLines entries ++ [[]])

/-! ### From one compaction to the next -/

def merge (prior fresh : List ToolIndexEntry) : List ToolIndexEntry :=
  let freshIds := fresh.map ToolIndexEntry.toolCallId
  prior.filter (fun e => e.toolCallId ∉ freshIds) ++ fresh

def retainRecentMin : ℕ := 10

/-- The loop of `applyBudget`: the oldest entries are dropped, as long as the table is too long. -/
def dropOldest (maxBytes floor : ℕ) : List ToolIndexEntry → List ToolIndexEntry × ℕ
  | [] => ([], 0)
  | e :: entries =>
    if floor < entries.length + 1 then
      if byteLength (renderSection (e :: entries)) ≤ maxBytes then (e :: entries, 0)
      else
        let (trimmed, truncated) := dropOldest maxBytes floor entries
        (trimmed, truncated + 1)
    else (e :: entries, 0)

def strip (e : ToolIndexEntry) : ToolIndexEntry := { e with argsBrief := js "—", outputChars := 0 }

def placeholder (truncated kept : ℕ) : ToolIndexEntry where
  toolCallId := js "(truncated " ++ JsString.decimal truncated ++ js " earlier entries — recent " ++
    JsString.decimal kept ++ js " kept below; older recall by narrative)"
  toolName := js "—"
  argsBrief := js "—"
  status := .unknown
  outputChars := 0

def applyBudget (entries : List ToolIndexEntry) (maxBytes : ℕ) : List ToolIndexEntry × ℕ :=
  let floor := min retainRecentMin entries.length
  let (trimmed, truncated) := dropOldest maxBytes floor entries
  let trimmed :=
    if 0 < truncated ∧ maxBytes < byteLength (renderSection trimmed) then trimmed.map strip
    else trimmed
  if 0 < truncated then (placeholder truncated trimmed.length :: trimmed, truncated)
  else (trimmed, truncated)

/-! ### What can be read -/

def IsCell (s : JsString) : Prop := trim s = s ∧ bar ∉ s ∧ newline ∉ s

def IsId (id : JsString) : Prop :=
  id ≠ [] ∧ id.head? ≠ some 45 ∧ id.head? ≠ some 40 ∧ id.map toLowerCase ≠ js "tool_call_id"

/-- **An entry that can be read again**: there is neither a bar nor a line end in it. -/
def Readable (e : ToolIndexEntry) : Prop :=
  IsCell e.toolCallId ∧ IsId e.toolCallId ∧ IsCell e.toolName ∧
    bar ∉ e.argsBrief ∧ newline ∉ e.argsBrief

instance (s : JsString) : Decidable (IsCell s) := inferInstanceAs (Decidable (_ ∧ _))

instance (id : JsString) : Decidable (IsId id) := inferInstanceAs (Decidable (_ ∧ _))

instance (e : ToolIndexEntry) : Decidable (Readable e) := inferInstanceAs (Decidable (_ ∧ _))

def rowsOf (text : JsString) : List ToolIndexEntry := (lines text).filterMap readRow

/-! ### Rows -/

section Rows

variable {c1 c2 c3 c4 c5 line : JsString} {e : ToolIndexEntry}

def row (c1 c2 c3 c4 c5 : JsString) : JsString :=
  bar :: (c1 ++ bar :: (c2 ++ bar :: (c3 ++ bar :: (c4 ++ bar :: (c5 ++ [bar])))))

theorem trim_row : trim (row c1 c2 c3 c4 c5) = row c1 c2 c3 c4 c5 := by
  refine trim_eq_self (fun c hc => ?_) fun c hc => ?_
  · obtain rfl : bar = c := Option.some.inj hc
    rfl
  · have hrow : row c1 c2 c3 c4 c5 =
        bar :: (c1 ++ bar :: (c2 ++ bar :: (c3 ++ bar :: (c4 ++ bar :: c5)))) ++ [bar] := by
      simp [row]
    rw [hrow, List.getLast?_concat] at hc
    obtain rfl : bar = c := Option.some.inj hc
    rfl

theorem splitOn_row (h1 : bar ∉ c1) (h2 : bar ∉ c2) (h3 : bar ∉ c3) (h4 : bar ∉ c4)
    (h5 : bar ∉ c5) : (row c1 c2 c3 c4 c5).splitOn bar = [[], c1, c2, c3, c4, c5, []] := by
  have hcut : ∀ {c : JsString} (rest : JsString), bar ∉ c →
      (c ++ bar :: rest).splitOn bar = c :: rest.splitOn bar := fun rest hc =>
    List.splitOn_append_cons_self_of_not_mem hc rest
  have hfirst := hcut (c1 ++ bar :: (c2 ++ bar :: (c3 ++ bar :: (c4 ++ bar :: (c5 ++ [bar])))))
    List.not_mem_nil
  rw [List.nil_append] at hfirst
  rw [row, hfirst, hcut _ h1, hcut _ h2, hcut _ h3, hcut _ h4, hcut _ h5, List.splitOn_nil]

theorem isSeparator_row (h1 : trim c1 ≠ []) :
    isSeparator (row c1 c2 c3 c4 c5) = decide ((trim c1).head? = some 45) := by
  have hdrop : c1.dropWhile isWhiteSpace ≠ [] := by
    intro h
    rw [trim, h] at h1
    exact h1 rfl
  rw [head?_trim, row, isSeparator, List.dropWhile_append, if_neg (by simpa using hdrop),
    List.head?_append_of_ne_nil _ hdrop]
  simp

theorem cells_row (h1 : bar ∉ c1) (h2 : bar ∉ c2) (h3 : bar ∉ c3) (h4 : bar ∉ c4)
    (h5 : bar ∉ c5) : cells (row c1 c2 c3 c4 c5) =
      if trim c1 ≠ [] ∧ trim c5 ≠ [] ∧ (trim c5).all JsString.isDigit then
        some (trim c1, trim c2, trim c3, trim c4, trim c5)
      else none := by
  rw [cells, splitOn_row h1 h2 h3 h4 h5]

theorem readRow_row (h1 : bar ∉ c1) (h2 : bar ∉ c2) (h3 : bar ∉ c3) (h4 : bar ∉ c4)
    (h5 : bar ∉ c5) : readRow (row c1 c2 c3 c4 c5) =
      if IsId (trim c1) ∧ trim c5 ≠ [] ∧ (trim c5).all JsString.isDigit then
        some ⟨trim c1, trim c2, trim c3, normStatus (trim c4), number (trim c5)⟩
      else none := by
  have hhead : ¬(row c1 c2 c3 c4 c5).head? ≠ some bar := not_not.mpr rfl
  have hcells := cells_row h1 h2 h3 h4 h5
  rw [readRow, trim_row]
  by_cases hread : trim c1 ≠ [] ∧ trim c5 ≠ [] ∧ (trim c5).all JsString.isDigit
  · rw [if_pos hread] at hcells
    rw [if_neg hhead, hcells, isSeparator_row hread.1]
    by_cases hseparator : (trim c1).head? = some 45
    · rw [if_pos (decide_eq_true hseparator), if_neg fun h => h.1.2.1 hseparator]
    rw [if_neg (by simpa using hseparator)]
    simp only
    by_cases hheader : (trim c1).map toLowerCase = js "tool_call_id"
    · rw [if_pos hheader, if_neg fun h => h.1.2.2.2 hheader]
    rw [if_neg hheader]
    by_cases hplaceholder : (trim c1).head? = some 40
    · rw [if_pos hplaceholder, if_neg fun h => h.1.2.2.1 hplaceholder]
    rw [if_neg hplaceholder,
      if_pos ⟨⟨hread.1, hseparator, hplaceholder, hheader⟩, hread.2⟩]
  · have hnone : ¬(IsId (trim c1) ∧ trim c5 ≠ [] ∧ (trim c5).all JsString.isDigit) := fun h =>
      hread ⟨h.1.1, h.2⟩
    rw [if_neg hread] at hcells
    rw [if_neg hnone, if_neg hhead, hcells]
    exact ite_self _

structure IsRow (line c1 c2 c3 c4 c5 : JsString) : Prop where
  trim_eq : trim line = row c1 c2 c3 c4 c5
  bars : bar ∉ c1 ∧ bar ∉ c2 ∧ bar ∉ c3 ∧ bar ∉ c4 ∧ bar ∉ c5
  isId : IsId (trim c1)
  digits : trim c5 ≠ [] ∧ (trim c5).all JsString.isDigit

theorem exists_isRow (h : readRow line = some e) : ∃ c1 c2 c3 c4 c5,
    IsRow line c1 c2 c3 c4 c5 ∧
      e = ⟨trim c1, trim c2, trim c3, normStatus (trim c4), number (trim c5)⟩ := by
  have hsplit : ∃ c1 c2 c3 c4 c5, (trim line).splitOn bar = [[], c1, c2, c3, c4, c5, []] := by
    by_contra hnot
    have hcells : cells (trim line) = none := by
      unfold cells
      split
      next c1 c2 c3 c4 c5 heq => exact absurd ⟨c1, c2, c3, c4, c5, heq⟩ hnot
      next => rfl
    rw [readRow] at h
    simp only [hcells] at h
    split_ifs at h
  obtain ⟨c1, c2, c3, c4, c5, hsplit⟩ := hsplit
  have hbar : ∀ {c : JsString}, c ∈ [[], c1, c2, c3, c4, c5, []] → bar ∉ c := fun hc =>
    notMem_of_mem_splitOn (hsplit ▸ hc)
  have hbars : bar ∉ c1 ∧ bar ∉ c2 ∧ bar ∉ c3 ∧ bar ∉ c4 ∧ bar ∉ c5 :=
    ⟨hbar (by simp), hbar (by simp), hbar (by simp), hbar (by simp), hbar (by simp)⟩
  have hrow : trim line = row c1 c2 c3 c4 c5 := by
    have hjoin : [bar].intercalate ((trim line).splitOn bar) = trim line :=
      List.intercalate_splitOn bar
    rw [hsplit] at hjoin
    rw [← hjoin]
    simp [row, List.intercalate]
  have hread : readRow (row c1 c2 c3 c4 c5) = some e := by
    rw [← hrow, readRow, trim_trim]
    exact h
  rw [readRow_row hbars.1 hbars.2.1 hbars.2.2.1 hbars.2.2.2.1 hbars.2.2.2.2] at hread
  split_ifs at hread with hok
  exact ⟨c1, c2, c3, c4, c5, ⟨hrow, hbars, hok.1, hok.2⟩, (Option.some.inj hread).symm⟩

theorem count_row : (row c1 c2 c3 c4 c5).count bar =
    c1.count bar + c2.count bar + c3.count bar + c4.count bar + c5.count bar + 6 := by
  simp only [row, List.count_cons_self, List.count_append, List.count_nil]
  omega

theorem count_of_readRow (h : readRow line = some e) : line.count bar = 6 := by
  obtain ⟨c1, c2, c3, c4, c5, hrow, -⟩ := exists_isRow h
  obtain ⟨h1, h2, h3, h4, h5⟩ := hrow.bars
  have hcount := congrArg (List.count bar) hrow.trim_eq
  rw [count_trim rfl, count_row, List.count_eq_zero.mpr h1, List.count_eq_zero.mpr h2,
    List.count_eq_zero.mpr h3, List.count_eq_zero.mpr h4, List.count_eq_zero.mpr h5] at hcount
  exact hcount

theorem head?_of_readRow (h : readRow line = some e) : (trim line).head? = some bar := by
  obtain ⟨c1, c2, c3, c4, c5, hrow, -⟩ := exists_isRow h
  rw [hrow.trim_eq]
  rfl

theorem not_escaped_of_readRow (h : readRow line = some e) (before : JsString) :
    trim line ≠ before ++ [92, bar] := by
  obtain ⟨c1, c2, c3, c4, c5, hrow, -⟩ := exists_isRow h
  obtain ⟨hne, hdigits⟩ := hrow.digits
  intro heq
  rcases List.eq_nil_or_concat c5 with rfl | ⟨c5', d, rfl⟩
  · exact hne rfl
  · have hlast : (bar :: (c1 ++ bar :: (c2 ++ bar :: (c3 ++ bar :: (c4 ++ bar :: c5'))))) ++
        [d, bar] = before ++ [92, bar] := by
      rw [← heq, hrow.trim_eq]
      simp [row]
    have hd : d = 92 := (List.cons.inj (List.append_inj_right' hlast rfl)).1
    have hmem : d ∈ trim (c5'.concat d) := by
      rw [mem_trim (by rw [hd]; rfl), List.concat_eq_append]
      exact List.mem_append_right _ (List.mem_singleton_self d)
    have hdigit := List.all_eq_true.mp hdigits d hmem
    rw [hd] at hdigit
    cases hdigit

theorem readable_of_readRow (hline : newline ∉ line) (h : readRow line = some e) :
    Readable e := by
  obtain ⟨c1, c2, c3, c4, c5, hrow, rfl⟩ := exists_isRow h
  obtain ⟨h1, h2, h3, -, -⟩ := hrow.bars
  have hsub : ∀ c ∈ row c1 c2 c3 c4 c5, c ∈ line := fun c hc =>
    mem_of_mem_trim (hrow.trim_eq ▸ hc)
  have hcell : ∀ {c : JsString}, bar ∉ c → (∀ u ∈ c, u ∈ row c1 c2 c3 c4 c5) →
      IsCell (trim c) := fun hbar hmem =>
    ⟨trim_trim _, fun h => hbar (mem_of_mem_trim h),
      fun h => hline (hsub _ (hmem _ (mem_of_mem_trim h)))⟩
  have h3' := hcell h3 fun u hu => by simp [row, hu]
  exact ⟨hcell h1 fun u hu => by simp [row, hu], hrow.isId,
    hcell h2 fun u hu => by simp [row, hu], h3'.2⟩

end Rows

/-! ### The row of an entry -/

section Entry

variable {e : ToolIndexEntry} {s t : JsString}

theorem escape_append (s t : JsString) : escape (s ++ t) = escape s ++ escape t :=
  List.flatMap_append

theorem escape_of_notMem (h : bar ∉ s) : escape s = s := by
  induction s with
  | nil => rfl
  | cons c s ih =>
    rw [List.mem_cons, not_or] at h
    rw [escape, List.flatMap_cons, if_neg (Ne.symm h.1)]
    exact congrArg (c :: ·) (ih h.2)

theorem count_escape (s : JsString) : (escape s).count bar = s.count bar := by
  induction s with
  | nil => rfl
  | cons c s ih =>
    rw [escape, List.flatMap_cons, List.count_append, List.count_cons]
    rw [escape] at ih
    rw [ih]
    by_cases hc : c = bar
    · subst hc
      exact Nat.add_comm _ _
    · rw [if_neg hc, if_neg (by simpa using hc), List.count_singleton, if_neg (by simpa using hc)]
      exact Nat.add_comm _ _

theorem newline_mem_escape : newline ∈ escape s ↔ newline ∈ s := by
  rw [escape, List.mem_flatMap]
  constructor
  · rintro ⟨c, hc, hmem⟩
    split_ifs at hmem
    · exact absurd hmem (by decide)
    · rw [List.mem_singleton.mp hmem]
      exact hc
  · intro h
    exact ⟨newline, h, by rw [if_neg (by decide)]; exact List.mem_singleton_self _⟩

theorem head?_escape (s : JsString) :
    ((escape s).dropWhile isWhiteSpace).head? ≠ some bar := by
  induction s with
  | nil => exact (Option.some_ne_none bar).symm
  | cons c s ih =>
    rw [escape, List.flatMap_cons]
    split_ifs with hc
    · exact fun h => absurd (Option.some.inj h) (by decide)
    · rw [List.singleton_append, List.dropWhile_cons]
      split_ifs
      · exact ih
      · exact fun h => hc (Option.some.inj h)

theorem rdropWhile_escape (before s : JsString) :
    (before ++ escape s).rdropWhile isWhiteSpace = before.rdropWhile isWhiteSpace ∨
      ∃ front last, (before ++ escape s).rdropWhile isWhiteSpace = front ++ last ∧
        (last = [92, bar] ∨ ∃ c ≠ bar, last = [c]) := by
  induction s using List.reverseRecOn with
  | nil => exact Or.inl (by rw [escape, List.flatMap_nil, List.append_nil])
  | append_singleton s c ih =>
    have hlast : escape [c] = if c = bar then [92, bar] else [c] := List.flatMap_singleton _ _
    rw [escape_append, ← List.append_assoc, hlast]
    by_cases hc : c = bar
    · refine Or.inr ⟨before ++ escape s, [92, bar], ?_, Or.inl rfl⟩
      rw [if_pos hc, List.append_cons, List.rdropWhile_concat_neg _ _ _ (by decide)]
    · rw [if_neg hc]
      by_cases hws : isWhiteSpace c
      · rw [List.rdropWhile_concat_pos _ _ _ hws]
        exact ih
      · rw [List.rdropWhile_concat_neg _ _ _ hws]
        exact Or.inr ⟨_, [c], rfl, Or.inr ⟨c, hc, rfl⟩⟩

def padded (s : JsString) : JsString := 32 :: (s ++ [32])

theorem trim_padded (s : JsString) : trim (padded s) = trim s := by
  rw [padded, trim_cons rfl, trim_concat rfl]

theorem mem_padded {c : UInt16} (hc : c ≠ 32) : c ∈ padded s ↔ c ∈ s := by
  simp [padded, hc]

theorem count_padded (s : JsString) : (padded s).count bar = s.count bar := by
  have hblank : ((32 : UInt16) == bar) = false := by decide
  simp [padded, List.count_append, List.count_cons, hblank]

theorem notMem_padded {c : UInt16} (hc : c ≠ 32) (h : c ∉ s) : c ∉ padded s := fun hmem =>
  h ((mem_padded hc).mp hmem)

theorem rowLine_eq (e : ToolIndexEntry) : rowLine e = row (padded e.toolCallId)
    (padded e.toolName) (padded (escape e.argsBrief)) (padded e.status.text)
    (padded (JsString.decimal e.outputChars)) := by
  have hopen : js "| " = [bar, 32] := by decide
  have hbetween : js " | " = [32, bar, 32] := by decide
  have hclose : js " |" = [32, bar] := by decide
  rw [rowLine, hopen, hbetween, hclose]
  simp [row, padded, List.intercalate]

theorem text_status (status : Status) : normStatus status.text = status ∧
    trim status.text = status.text ∧ bar ∉ status.text ∧ newline ∉ status.text := by
  cases status <;> decide

theorem notMem_decimal {c : UInt16} (hc : JsString.isDigit c = false) (n : ℕ) :
    c ∉ JsString.decimal n := by
  intro h
  rw [JsString.isDigit_of_mem_decimal h] at hc
  cases hc

theorem trim_decimal (n : ℕ) : trim (JsString.decimal n) = JsString.decimal n :=
  trim_of_forall fun _ hc => isWhiteSpace_of_isDigit (JsString.isDigit_of_mem_decimal hc)

/-- **An entry is read as it was written**, if there are no bars in it. -/
theorem readRow_rowLine (hid : bar ∉ e.toolCallId) (hname : bar ∉ e.toolName)
    (hargs : bar ∉ e.argsBrief) : readRow (rowLine e) =
      if IsId (trim e.toolCallId) then
        some ⟨trim e.toolCallId, trim e.toolName, trim e.argsBrief, e.status, e.outputChars⟩
      else none := by
  obtain ⟨hnorm, htrim, hbar, -⟩ := text_status e.status
  have hpadded : ∀ {s : JsString}, bar ∉ s → bar ∉ padded s := notMem_padded (by decide)
  have hdigits : JsString.decimal e.outputChars ≠ [] ∧
      (JsString.decimal e.outputChars).all JsString.isDigit :=
    ⟨JsString.decimal_ne_nil _,
      List.all_eq_true.mpr fun _ hc => JsString.isDigit_of_mem_decimal hc⟩
  rw [rowLine_eq, escape_of_notMem hargs, readRow_row (hpadded hid) (hpadded hname)
    (hpadded hargs) (hpadded hbar) (hpadded (notMem_decimal rfl _))]
  simp only [trim_padded, trim_decimal, htrim, hnorm, number_decimal, and_iff_left hdigits]

def readBack (e : ToolIndexEntry) : ToolIndexEntry := { e with argsBrief := trim e.argsBrief }

theorem key_readBack (e : ToolIndexEntry) : (readBack e).key = e.key := rfl

theorem newline_notMem_rowLine (hid : newline ∉ e.toolCallId) (hname : newline ∉ e.toolName)
    (hargs : newline ∉ e.argsBrief) : newline ∉ rowLine e := by
  have hpadded : ∀ {s : JsString}, newline ∉ s → newline ∉ padded s := notMem_padded (by decide)
  have hbar : newline ≠ bar := by decide
  rw [rowLine_eq]
  simp only [row, List.mem_cons, List.mem_append, List.not_mem_nil, hbar, or_false, false_or,
    not_or]
  exact ⟨hpadded hid, hpadded hname, hpadded fun h => hargs (newline_mem_escape.mp h),
    hpadded (text_status e.status).2.2.2, hpadded (notMem_decimal rfl _)⟩

theorem rowsOf_append (s t : JsString) : rowsOf (s ++ newline :: t) = rowsOf s ++ rowsOf t := by
  rw [rowsOf, lines_append, List.filterMap_append, rowsOf, rowsOf]

theorem rowsOf_of_notMem (h : newline ∉ s) : rowsOf s = (readRow s).toList := by
  rw [rowsOf, lines_of_notMem h]
  cases hread : readRow s <;> simp [hread]

/-- **What can be read again is.** -/
theorem rowsOf_of_readable (h : Readable e) : rowsOf (rowLine e) = [readBack e] := by
  obtain ⟨hid, hisId, hname, hbar, hnewline⟩ := h
  rw [rowsOf_of_notMem (newline_notMem_rowLine hid.2.2 hname.2.2 hnewline),
    readRow_rowLine hid.2.1 hname.2.1 hbar, hid.1, if_pos hisId, hname.1]
  rfl

def rowEnd (e : ToolIndexEntry) : JsString :=
  32 :: bar :: (padded e.status.text ++ bar :: (padded (JsString.decimal e.outputChars) ++ [bar]))

def rowStart (e : ToolIndexEntry) : JsString :=
  bar :: (padded e.toolCallId ++ bar :: (padded e.toolName ++ [bar, 32]))

theorem rowLine_eq_append (e : ToolIndexEntry) :
    rowLine e = rowStart e ++ (escape e.argsBrief ++ rowEnd e) := by
  rw [rowLine_eq]
  simp [row, padded, rowStart, rowEnd]

theorem count_rowEnd (e : ToolIndexEntry) : (rowEnd e).count bar = 3 := by
  have hblank : ((32 : UInt16) == bar) = false := by decide
  have htext := List.count_eq_zero.mpr (text_status e.status).2.2.1
  have hchars : (JsString.decimal e.outputChars).count bar = 0 :=
    List.count_eq_zero.mpr (notMem_decimal rfl _)
  simp [rowEnd, List.count_cons, List.count_append, count_padded, htext, hchars, hblank]

theorem newline_notMem_rowEnd (e : ToolIndexEntry) : newline ∉ rowEnd e := by
  have hpadded : ∀ {s : JsString}, newline ∉ s → newline ∉ padded s := notMem_padded (by decide)
  have hbar : newline ≠ bar := by decide
  have hblank : newline ≠ 32 := by decide
  simp only [rowEnd, List.mem_cons, List.mem_append, List.not_mem_nil, hbar, hblank, or_false,
    false_or, not_or]
  exact ⟨hpadded (text_status e.status).2.2.2, hpadded (notMem_decimal rfl _)⟩

theorem readRow_of_head (h : (s.dropWhile isWhiteSpace).head? ≠ some bar) : readRow s = none := by
  cases hread : readRow s with
  | none => rfl
  | some e => exact absurd ((head?_trim s).symm.trans (head?_of_readRow hread)) h

theorem readRow_escape (s : JsString) : readRow (escape s) = none :=
  readRow_of_head (head?_escape s)

theorem readRow_escape_rowEnd (e : ToolIndexEntry) (s : JsString) :
    readRow (escape s ++ rowEnd e) = none := by
  by_cases hblank : (escape s).dropWhile isWhiteSpace = []
  · cases hread : readRow (escape s ++ rowEnd e) with
    | none => rfl
    | some e' =>
      have hzero : (escape s).count bar = 0 := by
        refine List.count_eq_zero.mpr fun hmem => ?_
        have hws := List.dropWhile_eq_nil_iff.mp hblank bar hmem
        cases hws
      have hcount := count_of_readRow hread
      rw [List.count_append, hzero, count_rowEnd] at hcount
      omega
  · refine readRow_of_head ?_
    rw [List.dropWhile_append, if_neg (by simpa using hblank),
      List.head?_append_of_ne_nil _ hblank]
    exact head?_escape s

/-- **Behind a line end in the arguments there is no row.** -/
theorem rowsOf_escape (e : ToolIndexEntry) (s : JsString) : rowsOf (escape s ++ rowEnd e) = [] := by
  induction hlength : s.length using Nat.strong_induction_on generalizing s with
  | _ n ih =>
    by_cases hnewline : newline ∈ s
    · obtain ⟨before, after, rfl, hbefore⟩ := List.eq_append_cons_of_mem hnewline
      have hsplit : escape (before ++ newline :: after) ++ rowEnd e =
          escape before ++ newline :: (escape after ++ rowEnd e) := by
        rw [escape_append, List.append_assoc]
        rfl
      have hlt : after.length < n := by
        rw [← hlength, List.length_append, List.length_cons]
        omega
      rw [hsplit, rowsOf_append, ih after.length hlt after rfl,
        rowsOf_of_notMem fun h => hbefore (newline_mem_escape.mp h), readRow_escape]
      rfl
    · have hline : newline ∉ escape s ++ rowEnd e := by
        rw [List.mem_append, not_or]
        exact ⟨fun h => hnewline (newline_mem_escape.mp h), newline_notMem_rowEnd e⟩
      rw [rowsOf_of_notMem hline, readRow_escape_rowEnd]
      rfl

/-- **What is before a line end in the arguments is no row.** -/
theorem readRow_rowStart (hid : bar ∉ e.toolCallId) (hname : bar ∉ e.toolName) (s : JsString) :
    readRow (rowStart e ++ escape s) = none := by
  have hthree : (rowStart e).count bar = 3 := by
    have hblank : ((32 : UInt16) == bar) = false := by decide
    simp [rowStart, List.count_cons, List.count_append, count_padded, List.count_eq_zero.mpr hid,
      List.count_eq_zero.mpr hname, hblank]
  have htrim : ∀ t, trim (rowStart e ++ t) = (rowStart e ++ t).rdropWhile isWhiteSpace := by
    intro t
    rw [trim, rowStart, List.cons_append, List.dropWhile_cons_of_neg (by decide)]
  cases hread : readRow (rowStart e ++ escape s) with
  | none => rfl
  | some e' =>
    have hsix := count_of_readRow hread
    obtain ⟨c1, c2, c3, c4, c5, hrow, -⟩ := exists_isRow hread
    rcases rdropWhile_escape (rowStart e) s with hblank | ⟨front, last, heq, rfl | ⟨c, hc, rfl⟩⟩
    · -- then there is nothing but the start of the row
      have hstart := htrim []
      rw [List.append_nil] at hstart
      have hsame := (htrim (escape s)).trans (hblank.trans hstart.symm)
      have hcount := congrArg (List.count bar) hsame
      rw [count_trim rfl, count_trim rfl, hsix, hthree] at hcount
      omega
    · exact absurd ((htrim _).trans heq) (not_escaped_of_readRow hread front)
    · have hbar : (row c1 c2 c3 c4 c5).getLast? = some c := by
        rw [← hrow.trim_eq, htrim, heq, List.getLast?_concat]
      have hconcat : row c1 c2 c3 c4 c5 =
          bar :: (c1 ++ bar :: (c2 ++ bar :: (c3 ++ bar :: (c4 ++ bar :: c5)))) ++ [bar] := by
        simp [row]
      rw [hconcat, List.getLast?_concat] at hbar
      exact absurd (Option.some.inj hbar).symm hc

/-- **What cannot be read again is not.** -/
theorem rowsOf_of_not_readable (hid : IsCell e.toolCallId) (hname : IsCell e.toolName)
    (h : ¬Readable e) : rowsOf (rowLine e) = [] := by
  by_cases hnewline : newline ∈ e.argsBrief
  · obtain ⟨before, after, hargs, hbefore⟩ := List.eq_append_cons_of_mem hnewline
    have hsplit : rowLine e =
        (rowStart e ++ escape before) ++ newline :: (escape after ++ rowEnd e) := by
      rw [rowLine_eq_append, hargs, escape_append]
      simp [escape, bar, newline]
    have hstart : newline ∉ rowStart e ++ escape before := by
      have hbar : newline ≠ bar := by decide
      have hblank : newline ≠ 32 := by decide
      simp only [rowStart, List.mem_cons, List.mem_append, List.not_mem_nil, hbar, hblank,
        or_false, false_or, not_or]
      exact ⟨⟨notMem_padded hblank hid.2.2, notMem_padded hblank hname.2.2⟩,
        fun h => hbefore (newline_mem_escape.mp h)⟩
    rw [hsplit, rowsOf_append, rowsOf_escape, rowsOf_of_notMem hstart,
      readRow_rowStart hid.2.1 hname.2.1]
    rfl
  · rw [rowsOf_of_notMem (newline_notMem_rowLine hid.2.2 hname.2.2 hnewline)]
    by_cases hbar : bar ∈ e.argsBrief
    · cases hread : readRow (rowLine e) with
      | none => rfl
      | some e' =>
        have hcount := count_of_readRow hread
        have hpos := List.count_pos_iff.mpr hbar
        rw [rowLine_eq, count_row, count_padded (escape e.argsBrief), count_escape] at hcount
        omega
    · rw [readRow_rowLine hid.2.1 hname.2.1 hbar, hid.1,
        if_neg fun hisId => h ⟨hid, hisId, hname, hbar, hnewline⟩]
      rfl

end Entry

/-! ### Lines and markers -/

section Text

variable {s t : JsString} {e : ToolIndexEntry} {i : ℕ}

theorem trim_chomp (line : JsString) : trim (chomp line) = trim line := by
  unfold chomp
  split_ifs with h
  · obtain ⟨before, rfl⟩ := List.getLast?_eq_some_iff.mp h
    rw [List.dropLast_concat, trim_concat rfl]
  · rfl

theorem readRow_chomp (line : JsString) : readRow (chomp line) = readRow line := by
  rw [readRow, trim_chomp, readRow]

theorem filterMap_splitLines (s : JsString) : (splitLines s).filterMap readRow = rowsOf s := by
  have hlast : (lines s).dropLast ++ (lines s).getLast?.toList = lines s := by
    obtain ⟨before, last, heq⟩ : ∃ before last, lines s = before ++ [last] := by
      obtain ⟨before, last, -, -, heq, -⟩ := splitOn_append (a := newline) s []
      exact ⟨before, last, heq⟩
    rw [heq, List.dropLast_concat, List.getLast?_concat]
    rfl
  have hchomp : (readRow ∘ chomp) = readRow := funext readRow_chomp
  rw [splitLines, List.filterMap_append, List.filterMap_map, hchomp, ← List.filterMap_append,
    hlast, rowsOf]

theorem readable_of_mem_rowsOf (h : e ∈ rowsOf s) : Readable e := by
  obtain ⟨line, hline, hread⟩ := List.mem_filterMap.mp h
  exact readable_of_readRow (notMem_of_mem_splitOn hline) hread

theorem closes_append (s t : JsString) : closes (s ++ newline :: t) = closes s := by
  induction s with
  | nil => rfl
  | cons c s ih => rw [List.cons_append, closes, ih, closes]

def EndsInLetter (s : JsString) : Prop := ∀ c ∈ s.getLast?, c ≠ 35 ∧ isWhiteSpace c = false

theorem EndsInLetter.of_suffix (h : EndsInLetter t) (hs : s <:+ t) : EndsInLetter s := by
  intro c hc
  obtain ⟨before, rfl⟩ := hs
  refine h c ?_
  rw [List.getLast?_append, hc]
  rfl

theorem isMarker_append (hs : EndsInLetter s) (hne : s ≠ []) (t : JsString) :
    isMarker (s ++ newline :: t) = isMarker s := by
  obtain ⟨hhash, hblank⟩ := hs _ (List.getLast?_eq_some_getLast hne)
  have hrest : s.dropWhile (· = 35) ≠ [] := fun h =>
    hhash (of_decide_eq_true (List.dropWhile_eq_nil_iff.mp h _ (List.getLast_mem hne)))
  have hrestEnd : EndsInLetter (s.dropWhile (· = 35)) := hs.of_suffix (List.dropWhile_suffix _)
  have hname : (s.dropWhile (· = 35)).dropWhile isWhiteSpace ≠ [] := by
    intro h
    have hws := List.dropWhile_eq_nil_iff.mp h _ (List.getLast_mem hrest)
    rw [(hrestEnd _ (List.getLast?_eq_some_getLast hrest)).2] at hws
    cases hws
  have htake : (s ++ newline :: t).takeWhile (· = 35) = s.takeWhile (· = 35) := by
    rw [List.takeWhile_append, if_neg]
    intro hlength
    have hself := (List.takeWhile_sublist _).eq_of_length hlength
    exact hrest (List.dropWhile_eq_nil_iff.mpr (List.takeWhile_eq_self_iff.mp hself))
  have hdrop : (s ++ newline :: t).dropWhile (· = 35) =
      s.dropWhile (· = 35) ++ newline :: t := by
    rw [List.dropWhile_append, if_neg (by simpa using hrest)]
  unfold isMarker
  simp only [htake, hdrop, List.head?_append_of_ne_nil _ hrest]
  rw [List.dropWhile_append, if_neg (by simpa using hname)]
  generalize (s.dropWhile (· = 35)).dropWhile isWhiteSpace = name
  by_cases hlength : 10 ≤ name.length
  · rw [List.take_append_of_le_length hlength, List.drop_append_of_le_length hlength,
      closes_append]
  · have hshort : (name.take 10).map toLowerCase ≠ js "tool_index" := by
      intro h
      have hten := congrArg List.length h
      rw [List.length_map, List.length_take] at hten
      have : (js "tool_index").length = 10 := by decide
      omega
    have hcut : ((name ++ newline :: t).take 10).map toLowerCase ≠ js "tool_index" := by
      intro h
      have hmem : toLowerCase newline ∈ ((name ++ newline :: t).take 10).map toLowerCase := by
        refine List.mem_map_of_mem ?_
        rw [List.take_append, List.mem_append]
        obtain ⟨k, hk⟩ : ∃ k, 10 - name.length = k + 1 := ⟨9 - name.length, by omega⟩
        rw [hk, List.take_succ_cons]
        exact Or.inr List.mem_cons_self
      rw [h] at hmem
      exact absurd hmem (by decide)
    simp only [decide_eq_false hshort, decide_eq_false hcut, Bool.and_false, Bool.false_and]

theorem isMarker_newline (t : JsString) : isMarker (newline :: t) = false := rfl

theorem findMarker_append (hs : EndsInLetter s) (b : Bool) (t : JsString) :
    findMarker b (s ++ newline :: t) =
      (findMarker b s).or ((findMarker true t).map (· + (s.length + 1))) := by
  induction s generalizing b with
  | nil =>
    have hnot : (b && isMarker (newline :: t)) = false := by
      rw [isMarker_newline, Bool.and_false]
    exact if_neg (by rw [hnot]; exact Bool.false_ne_true)
  | cons c s ih =>
    have hmarker := isMarker_append hs (List.cons_ne_nil c s) t
    rw [List.cons_append] at hmarker
    rw [List.cons_append, findMarker, hmarker, findMarker,
      ih (hs.of_suffix (List.suffix_cons c s))]
    split_ifs
    · rfl
    · rw [Option.map_or, Option.map_map]
      rfl

theorem findMarker_eq_some {b : Bool} (h : findMarker b s = some i) :
    i < s.length ∧ isMarker (s.drop i) := by
  induction s generalizing b i with
  | nil => cases h
  | cons c s ih =>
    rw [findMarker] at h
    split_ifs at h with hmarker
    · obtain rfl := Option.some.inj h
      exact ⟨Nat.succ_pos _, (Bool.and_eq_true _ _ ▸ hmarker).2⟩
    · obtain ⟨j, hj, rfl⟩ := Option.map_eq_some_iff.mp h
      obtain ⟨hlt, hmark⟩ := ih hj
      exact ⟨Nat.succ_lt_succ hlt, hmark⟩

theorem head?_of_isMarker (h : isMarker s) : s.head? = some 35 := by
  cases s with
  | nil => cases h
  | cons c s =>
    by_cases hc : c = 35
    · rw [hc]
      rfl
    · have hfalse : isMarker (c :: s) = false := by
        unfold isMarker
        rw [List.takeWhile_cons_of_neg (by simpa using hc)]
        rfl
      rw [hfalse] at h
      cases h

end Text

/-! ### A table behind a text -/

section Table

variable {entries : List ToolIndexEntry} {e : ToolIndexEntry}

def table (entries : List ToolIndexEntry) : JsString :=
  unlines ([[], js "| tool_call_id | tool_name | args_brief | status | output_chars |",
    js "|---|---|---|---|---|"] ++ rowLines entries ++ [[]])

theorem renderSection_eq (entries : List ToolIndexEntry) :
    renderSection entries = sectionMarker ++ newline :: table entries :=
  unlines_cons (List.cons_ne_nil _ _)

def frameLines : List JsString :=
  [[], js "| tool_call_id | tool_name | args_brief | status | output_chars |",
    js "|---|---|---|---|---|", js "| (no tool calls in this period) | — | — | — | 0 |"]

theorem frameLines_plain : ∀ line ∈ frameLines,
    newline ∉ line ∧ (35 : UInt16) ∉ line ∧ readRow line = none := by
  rw [frameLines]
  repeat rw [js_ofList]
  decide

theorem rowsOf_frameLine {line : JsString} (h : line ∈ frameLines) : rowsOf line = [] := by
  obtain ⟨hnewline, -, hread⟩ := frameLines_plain line h
  rw [rowsOf_of_notMem hnewline, hread]
  rfl

def HasCells (e : ToolIndexEntry) : Prop := IsCell e.toolCallId ∧ IsCell e.toolName

instance (e : ToolIndexEntry) : Decidable (HasCells e) := inferInstanceAs (Decidable (_ ∧ _))

theorem flatMap_rowsOf (h : ∀ e ∈ entries, HasCells e) :
    (rowLines entries).flatMap rowsOf = (entries.filter fun e => Readable e).map readBack := by
  rcases eq_or_ne entries [] with rfl | hne
  · exact (List.flatMap_singleton _ _).trans (rowsOf_frameLine (by simp [frameLines]))
  · rw [rowLines, if_neg hne]
    clear hne
    induction entries with
    | nil => rfl
    | cons e entries ih =>
      rw [List.map_cons, List.flatMap_cons, ih fun e he => h e (List.mem_cons_of_mem _ he)]
      obtain ⟨hid, hname⟩ := h e List.mem_cons_self
      by_cases hread : Readable e
      · rw [rowsOf_of_readable hread, List.filter_cons_of_pos (by simpa using hread)]
        rfl
      · rw [rowsOf_of_not_readable hid hname hread,
          List.filter_cons_of_neg (by simpa using hread)]
        rfl

/-- **What is read in a table** is what can be read again of its entries. -/
theorem rowsOf_table (h : ∀ e ∈ entries, HasCells e) :
    rowsOf (table entries) = (entries.filter fun e => Readable e).map readBack := by
  rw [← flatMap_rowsOf h, rowsOf, table, lines_unlines (by simp), List.filterMap_flatMap,
    List.flatMap_append, List.flatMap_append]
  have hframe : ∀ ls : List JsString, (∀ line ∈ ls, line ∈ frameLines) →
      ls.flatMap (fun line => (lines line).filterMap readRow) = [] := fun ls hls =>
    List.flatMap_eq_nil_iff.mpr fun line hline => rowsOf_frameLine (hls line hline)
  rw [hframe _ (by simp [frameLines]), hframe [[]] (by simp [frameLines]), List.nil_append, List.append_nil]
  rfl

theorem exists_rest_of_hash {s : JsString} (before : JsString) (hs : s.head? = some 35) :
    ∃ front line rest, lines (before ++ s) = front ++ line :: rest ∧ (35 : UInt16) ∈ line ∧
      rowsOf s = rest.filterMap readRow := by
  obtain ⟨front, last, first, rest, -, hrest, hall⟩ := splitOn_append (a := newline) before s
  obtain ⟨tail, rfl⟩ := List.head?_eq_some_iff.mp hs
  obtain ⟨first', hfirst⟩ : ∃ first', first = 35 :: first' := by
    rw [List.splitOn_cons_eq_if_modifyHead, if_neg (by decide)] at hrest
    obtain ⟨x, xs, hx⟩ := List.exists_cons_of_ne_nil (List.splitOn_ne_nil newline tail)
    rw [hx] at hrest
    exact ⟨x, (List.cons.inj hrest).1.symm⟩
  have hnone : readRow first = none := by
    rw [hfirst]
    exact readRow_of_head (by
      exact fun h => absurd (Option.some.inj h) (by decide))
  refine ⟨front, last ++ first, rest, hall, ?_, ?_⟩
  · rw [hfirst]
    exact List.mem_append_right _ List.mem_cons_self
  · rw [rowsOf, lines, hrest, List.filterMap_cons_none hnone]

/-- **From a marker in the table on, an entry is missing.** -/
theorem length_rowsOf_drop_lt (h : ∀ e ∈ entries, HasCells e) {i : ℕ}
    (hi : findMarkerIndex (table entries) = some i) :
    (rowsOf ((table entries).drop i)).length < entries.length := by
  have hhash := head?_of_isMarker (findMarker_eq_some hi).2
  obtain ⟨front, line, rest, hlines, hmem, hrest⟩ :=
    exists_rest_of_hash ((table entries).take i) hhash
  rw [List.take_append_drop] at hlines
  have hrows := rowsOf_table h
  rw [rowsOf, hlines, List.filterMap_append, List.filterMap_cons] at hrows
  have hlength := congrArg List.length hrows
  rw [List.length_append, List.length_map] at hlength
  have hfilter : (entries.filter fun e => Readable e).length ≤ entries.length :=
    List.length_filter_le _ _
  rw [hrest]
  by_cases hall : ∀ e ∈ entries, Readable e
  · -- the marker is then in the row of an entry
    have hline : line ∈ lines (table entries) := by
      rw [hlines]
      exact List.mem_append_right _ List.mem_cons_self
    have hrow : ∃ e ∈ entries, line = rowLine e := by
      rw [table, lines_unlines (by simp), List.mem_flatMap] at hline
      obtain ⟨l, hl, hline⟩ := hline
      have hframe : l ∉ frameLines := fun hl => by
        obtain ⟨hnewline, hnone, -⟩ := frameLines_plain l hl
        rw [lines_of_notMem hnewline, List.mem_singleton] at hline
        exact hnone (hline ▸ hmem)
      have hl : l ∈ rowLines entries := by
        by_contra hnot
        simp only [List.mem_append, hnot, or_false] at hl
        rcases hl with hl | hl
        · exact hframe (List.mem_append_left
            [js "| (no tool calls in this period) | — | — | — | 0 |"] hl)
        · exact hframe (List.mem_singleton.mp hl ▸ List.mem_cons_self)
      rw [rowLines] at hl
      split_ifs at hl
      · rw [List.mem_singleton.mp hl] at hframe
        exact absurd (by simp [frameLines]) hframe
      · obtain ⟨e, he, rfl⟩ := List.mem_map.mp hl
        obtain ⟨hid, -, hname, -, hnewline⟩ := hall e he
        rw [lines_of_notMem (newline_notMem_rowLine hid.2.2 hname.2.2 hnewline),
          List.mem_singleton] at hline
        exact ⟨e, he, hline⟩
    obtain ⟨e, he, rfl⟩ := hrow
    have hread := rowsOf_of_readable (hall e he)
    have hnewline := hall e he
    rw [rowsOf_of_notMem (newline_notMem_rowLine hnewline.1.2.2 hnewline.2.2.1.2.2
      hnewline.2.2.2.2)] at hread
    cases hsome : readRow (rowLine e) with
    | none =>
      rw [hsome] at hread
      cases hread
    | some e' =>
      rw [hsome, List.length_cons] at hlength
      omega
  · have hlt : (entries.filter fun e => Readable e).length < entries.length := by
      refine lt_of_le_of_ne hfilter fun heq => hall fun e he => ?_
      have hself := List.filter_eq_self.mp (List.filter_sublist.eq_of_length heq) e he
      exact of_decide_eq_true hself
    have hle : (rest.filterMap readRow).length ≤ (entries.filter fun e => Readable e).length := by
      rw [← hlength]
      cases readRow line with
      | none => exact Nat.le_add_left _ _
      | some e' => exact (Nat.le_succ _).trans (Nat.le_add_left _ _)
    omega

end Table

/-! ### What is read again -/

section Section

variable {prose body : JsString} {entries : List ToolIndexEntry} {e : ToolIndexEntry} {i : ℕ}

theorem parseFromBody_eq (body : JsString) : parseFromBody body =
    match findMarkerIndex body with
    | none => []
    | some markerIdx => rowsOf (body.drop markerIdx) := by
  rw [parseFromBody]
  cases findMarkerIndex body with
  | none => rfl
  | some markerIdx => exact filterMap_splitLines _

theorem readable_of_mem_parseFromBody (h : e ∈ parseFromBody body) : Readable e := by
  rw [parseFromBody_eq] at h
  cases hi : findMarkerIndex body with
  | none =>
    rw [hi] at h
    cases h
  | some markerIdx =>
    rw [hi] at h
    exact readable_of_mem_rowsOf h

theorem endsInLetter_marker (prose : JsString) : EndsInLetter (prose ++ sectionMarker) := by
  intro c hc
  have hlast : sectionMarker.getLast? = some 88 := by decide
  rw [List.getLast?_append, hlast] at hc
  obtain rfl : 88 = c := Option.some.inj hc
  decide

def proseRows (prose : JsString) : Option (List ToolIndexEntry) :=
  (findMarkerIndex (prose ++ sectionMarker)).map fun i => rowsOf ((prose ++ sectionMarker).drop i)

theorem parseFromBody_of_some {rows : List ToolIndexEntry} (h : proseRows prose = some rows) :
    parseFromBody (prose ++ renderSection entries) = rows ++ rowsOf (table entries) := by
  obtain ⟨i, hi, rfl⟩ := Option.map_eq_some_iff.mp h
  rw [renderSection_eq, ← List.append_assoc, parseFromBody_eq, findMarkerIndex,
    findMarker_append (endsInLetter_marker prose)]
  rw [findMarkerIndex] at hi
  rw [hi, Option.some_or]
  simp only
  rw [List.drop_append_of_le_length (findMarker_eq_some hi).1.le, rowsOf_append]

theorem parseFromBody_of_none (h : proseRows prose = none) :
    parseFromBody (prose ++ renderSection entries) =
      match findMarkerIndex (table entries) with
      | none => []
      | some i => rowsOf ((table entries).drop i) := by
  rw [proseRows, Option.map_eq_none_iff, findMarkerIndex] at h
  rw [renderSection_eq, ← List.append_assoc, parseFromBody_eq, findMarkerIndex,
    findMarker_append (endsInLetter_marker prose), h, Option.none_or, findMarkerIndex]
  cases findMarker true (table entries) with
  | none => rfl
  | some i =>
    simp only [Option.map_some]
    have hlength : ((prose ++ sectionMarker).length + 1) + i =
        i + ((prose ++ sectionMarker).length + 1) := Nat.add_comm _ _
    rw [← hlength, ← List.drop_drop, List.append_cons, List.drop_left']
    rw [List.length_append, List.length_singleton]

/-- **When all is read again**: there is neither a bar nor a line end in identifiers and names, and
what the text before the table gives for a row, with what can be read again of the entries, are the
entries. -/
def Legible (prose : JsString) (entries : List ToolIndexEntry) : Prop :=
  (∀ e ∈ entries, HasCells e) ∧
    match proseRows prose with
    | none => entries = []
    | some rows => (rows ++ entries.filter fun e => Readable e).map ToolIndexEntry.key =
        entries.map ToolIndexEntry.key

/-- **A table is read again exactly if it is legible.** -/
theorem parse_render_iff (prose : JsString) (entries : List ToolIndexEntry) :
    (parseFromBody (prose ++ renderSection entries)).map ToolIndexEntry.key =
      entries.map ToolIndexEntry.key ↔ Legible prose entries := by
  have hkey : ToolIndexEntry.key ∘ readBack = ToolIndexEntry.key := funext key_readBack
  rw [Legible]
  constructor
  · intro h
    have hcells : ∀ e ∈ entries, HasCells e := by
      intro e he
      have hmem : e.key ∈ entries.map ToolIndexEntry.key := List.mem_map_of_mem he
      rw [← h] at hmem
      obtain ⟨r, hr, hrkey⟩ := List.mem_map.mp hmem
      obtain ⟨hid, -, hname, -⟩ := readable_of_mem_parseFromBody hr
      have hids : r.toolCallId = e.toolCallId := congrArg Prod.fst hrkey
      have hnames : r.toolName = e.toolName := congrArg (fun k => k.2.1) hrkey
      exact ⟨hids ▸ hid, hnames ▸ hname⟩
    refine ⟨hcells, ?_⟩
    cases hrows : proseRows prose with
    | some rows =>
      rw [parseFromBody_of_some hrows, rowsOf_table hcells, List.map_append, List.map_map,
        hkey] at h
      simp only
      rw [List.map_append]
      exact h
    | none =>
      rw [parseFromBody_of_none hrows] at h
      cases hi : findMarkerIndex (table entries) with
      | none =>
        rw [hi] at h
        exact List.map_eq_nil_iff.mp h.symm
      | some i =>
        rw [hi] at h
        simp only at h
        have hlt := length_rowsOf_drop_lt hcells hi
        have hlength := congrArg List.length h
        rw [List.length_map, List.length_map] at hlength
        omega
  · rintro ⟨hcells, h⟩
    cases hrows : proseRows prose with
    | some rows =>
      rw [hrows] at h
      simp only at h
      rw [parseFromBody_of_some hrows, rowsOf_table hcells, List.map_append, List.map_map, hkey,
        ← List.map_append]
      exact h
    | none =>
      rw [hrows] at h
      simp only at h
      subst h
      rw [parseFromBody_of_none hrows]
      cases hi : findMarkerIndex (table []) with
      | none => rfl
      | some i => exact absurd (length_rowsOf_drop_lt hcells hi) (Nat.not_lt_zero _)

theorem legible_iff (h : proseRows prose = some []) (hcells : ∀ e ∈ entries, HasCells e) :
    Legible prose entries ↔ ∀ e ∈ entries, Readable e := by
  rw [Legible, h, and_iff_right hcells]
  simp only
  rw [List.nil_append]
  constructor
  · intro hkeys e he
    have hlength := congrArg List.length hkeys
    rw [List.length_map, List.length_map] at hlength
    exact of_decide_eq_true
      (List.filter_eq_self.mp (List.filter_sublist.eq_of_length hlength) e he)
  · intro hall
    rw [List.filter_eq_self.mpr fun e he => decide_eq_true (hall e he)]

end Section

/-! ### The oldest entries are dropped -/

section Budget

variable {entries : List ToolIndexEntry} {e : ToolIndexEntry} {maxBytes : ℕ}

theorem dropOldest_eq (maxBytes floor : ℕ) (entries : List ToolIndexEntry) :
    (dropOldest maxBytes floor entries).1 =
      entries.drop (dropOldest maxBytes floor entries).2 := by
  induction entries with
  | nil => rfl
  | cons e entries ih =>
    rw [dropOldest]
    split_ifs
    · rfl
    · exact ih
    · rfl

/-- **What a budget leaves**: a row in the place of what was dropped, and the newer entries, maybe
without their details. -/
theorem applyBudget_eq (entries : List ToolIndexEntry) (maxBytes : ℕ) : ∃ kept,
    (kept = entries.drop (applyBudget entries maxBytes).2 ∨
      kept = (entries.drop (applyBudget entries maxBytes).2).map strip) ∧
    (applyBudget entries maxBytes).1 =
      (if 0 < (applyBudget entries maxBytes).2 then
        [placeholder (applyBudget entries maxBytes).2 kept.length] else []) ++ kept := by
  have hdrop := dropOldest_eq maxBytes (min retainRecentMin entries.length) entries
  rw [applyBudget]
  simp only
  rw [hdrop]
  generalize (dropOldest maxBytes (min retainRecentMin entries.length) entries).2 = truncated
  by_cases hpos : 0 < truncated
  · split_ifs
    · exact ⟨_, Or.inr rfl, rfl⟩
    · exact ⟨_, Or.inl rfl, rfl⟩
  · simp only [hpos, false_and, if_false]
    exact ⟨_, Or.inl rfl, rfl⟩

theorem readable_strip (h : Readable e) : Readable (strip e) := by
  obtain ⟨hid, hisId, hname, -⟩ := h
  have hdash : bar ∉ js "—" ∧ newline ∉ js "—" := by decide
  exact ⟨hid, hisId, hname, hdash⟩

theorem hasCells_placeholder (truncated kept : ℕ) : HasCells (placeholder truncated kept) := by
  have hopen : bar ∉ js "(truncated " ∧ newline ∉ js "(truncated " := by decide
  have hmiddle : bar ∉ js " earlier entries — recent " ∧
      newline ∉ js " earlier entries — recent " := by decide
  have hclose : bar ∉ js " kept below; older recall by narrative)" ∧
      newline ∉ js " kept below; older recall by narrative)" := by decide
  have hlast : (js " kept below; older recall by narrative)").getLast? = some 41 := by decide
  have hname : IsCell (js "—") := by decide
  refine ⟨⟨trim_eq_self (fun c hc => ?_) fun c hc => ?_, ?_, ?_⟩, hname⟩
  · obtain rfl : 40 = c := Option.some.inj hc
    rfl
  · rw [placeholder, List.getLast?_append, hlast] at hc
    obtain rfl : 41 = c := Option.some.inj hc
    rfl
  · simp only [placeholder, List.mem_append, not_or]
    exact ⟨⟨⟨⟨hopen.1, notMem_decimal rfl _⟩, hmiddle.1⟩, notMem_decimal rfl _⟩, hclose.1⟩
  · simp only [placeholder, List.mem_append, not_or]
    exact ⟨⟨⟨⟨hopen.2, notMem_decimal rfl _⟩, hmiddle.2⟩, notMem_decimal rfl _⟩, hclose.2⟩

theorem not_readable_placeholder (truncated kept : ℕ) : ¬Readable (placeholder truncated kept) := by
  intro h
  have hhead : (placeholder truncated kept).toolCallId.head? = some 40 := by
    rfl
  exact h.2.1.2.2.1 hhead

end Budget

/-! ### Any number of compactions -/

/-- What a compaction has: the text before the table, and the tool calls of the session. -/
structure Generation where
  prose : JsString
  fresh : List ToolIndexEntry

structure Summary where
  body : JsString
  dropped : List JsString

/-- A compaction: the table of the summary before is read and goes on. -/
def compact (maxBytes : ℕ) (s : Summary) (g : Generation) : Summary :=
  let merged := merge (parseFromBody s.body) g.fresh
  let (budgeted, truncatedCount) := applyBudget merged maxBytes
  { body := g.prose ++ renderSection budgeted
    dropped := s.dropped ++ (merged.take truncatedCount).map ToolIndexEntry.toolCallId }

def Summary.ids (s : Summary) : List JsString :=
  (parseFromBody s.body).map ToolIndexEntry.toolCallId

/-- A compaction whose table can be read again: so can its calls, and there is a marker but no row
before the table. -/
def Generation.Legible (g : Generation) : Prop :=
  (∀ e ∈ g.fresh, Readable e) ∧ proseRows g.prose = some []

section Compactions

variable {maxBytes : ℕ} {s : Summary} {g : Generation} {id : JsString}

/-- **What can be asked for after a compaction** is what there was before and is new, but for the
oldest. -/
theorem ids_compact (hg : g.Legible) : (compact maxBytes s g).ids =
    ((merge (parseFromBody s.body) g.fresh).drop
      (applyBudget (merge (parseFromBody s.body) g.fresh) maxBytes).2).map
        ToolIndexEntry.toolCallId := by
  obtain ⟨hfresh, hprose⟩ := hg
  have hmerged : ∀ e ∈ merge (parseFromBody s.body) g.fresh, Readable e := by
    intro e he
    rcases List.mem_append.mp he with he | he
    · exact readable_of_mem_parseFromBody (List.mem_filter.mp he).1
    · exact hfresh e he
  rw [Summary.ids, compact]
  revert hmerged
  generalize merge (parseFromBody s.body) g.fresh = merged
  intro hmerged
  obtain ⟨kept, hkept, hbudgeted⟩ := applyBudget_eq merged maxBytes
  generalize (applyBudget merged maxBytes).2 = truncated at hkept hbudgeted
  have hdropped : ∀ e ∈ merged.drop truncated, Readable e := fun e he =>
    hmerged e (List.mem_of_mem_drop he)
  have hreadable : ∀ e ∈ kept, Readable e := by
    intro e he
    rcases hkept with rfl | rfl
    · exact hdropped e he
    · obtain ⟨e', he', rfl⟩ := List.mem_map.mp he
      exact readable_strip (hdropped e' he')
  have hids : kept.map ToolIndexEntry.toolCallId =
      (merged.drop truncated).map ToolIndexEntry.toolCallId := by
    rcases hkept with rfl | rfl
    · rfl
    · rw [List.map_map]
      rfl
  have hcells : ∀ e ∈ (applyBudget merged maxBytes).1, HasCells e := by
    rw [hbudgeted]
    intro e he
    rcases List.mem_append.mp he with he | he
    · split_ifs at he
      · rw [List.mem_singleton.mp he]
        exact hasCells_placeholder _ _
      · cases he
    · exact ⟨(hreadable e he).1, (hreadable e he).2.2.1⟩
  have hfilter : ((applyBudget merged maxBytes).1.filter fun e => Readable e) = kept := by
    rw [hbudgeted, List.filter_append,
      List.filter_eq_self.mpr fun e he => decide_eq_true (hreadable e he)]
    split_ifs
    · rw [List.filter_cons_of_neg (by simpa using not_readable_placeholder _ _)]
      rfl
    · rfl
  rw [parseFromBody_of_some hprose, rowsOf_table hcells, hfilter, List.nil_append, List.map_map,
    ← hids]
  rfl

theorem mem_ids_compact (hg : g.Legible)
    (hid : id ∈ s.ids ∨ id ∈ g.fresh.map ToolIndexEntry.toolCallId) :
    id ∈ (compact maxBytes s g).ids ∨ id ∈ (compact maxBytes s g).dropped := by
  have hmerged : id ∈ (merge (parseFromBody s.body) g.fresh).map ToolIndexEntry.toolCallId := by
    rw [merge, List.map_append, List.mem_append]
    by_cases hfresh : id ∈ g.fresh.map ToolIndexEntry.toolCallId
    · exact Or.inr hfresh
    · obtain ⟨e, he, rfl⟩ := List.mem_map.mp (hid.resolve_right hfresh)
      exact Or.inl (List.mem_map_of_mem (List.mem_filter.mpr ⟨he, decide_eq_true hfresh⟩))
  rw [ids_compact hg]
  rw [← List.take_append_drop (applyBudget (merge (parseFromBody s.body) g.fresh) maxBytes).2
    (merge (parseFromBody s.body) g.fresh), List.map_append, List.mem_append] at hmerged
  exact hmerged.symm.imp_right fun h => List.mem_append_right _ h

/-- **Over any number of compactions nothing else is lost.** -/
theorem mem_ids_run {generations : List Generation} (hg : ∀ g ∈ generations, g.Legible)
    (hid : id ∈ s.ids ∨ id ∈ s.dropped ∨
      ∃ g ∈ generations, id ∈ g.fresh.map ToolIndexEntry.toolCallId) :
    id ∈ (run (compact maxBytes) s generations).ids ∨
      id ∈ (run (compact maxBytes) s generations).dropped := by
  induction generations generalizing s with
  | nil => simpa using hid
  | cons g generations ih =>
    have hlegible := hg g List.mem_cons_self
    refine ih (fun g hmem => hg g (List.mem_cons_of_mem _ hmem)) ?_
    rcases hid with hid | hid | ⟨g', hmem, hid⟩
    · exact (mem_ids_compact hlegible (Or.inl hid)).imp_right Or.inl
    · exact Or.inr (Or.inl (List.mem_append_left _ hid))
    · rcases List.mem_cons.mp hmem with rfl | hmem
      · exact (mem_ids_compact hlegible (Or.inr hid)).imp_right Or.inl
      · exact Or.inr (Or.inr ⟨g', hmem, hid⟩)

end Compactions

/-- **What can be recalled**: a table is read again exactly if it is legible, and over any number of
compactions with legible tables only what was dropped for the budget is lost. -/
theorem recallable_iff (prose : JsString) (entries : List ToolIndexEntry) (maxBytes : ℕ)
    (body : JsString) (generations : List Generation) :
    ((parseFromBody (prose ++ renderSection entries)).map ToolIndexEntry.key =
      entries.map ToolIndexEntry.key ↔ Legible prose entries) ∧
    ((∀ g ∈ generations, g.Legible) → ∀ id,
      (id ∈ (⟨body, []⟩ : Summary).ids ∨
        ∃ g ∈ generations, id ∈ g.fresh.map ToolIndexEntry.toolCallId) →
      id ∈ (run (compact maxBytes) ⟨body, []⟩ generations).ids ∨
        id ∈ (run (compact maxBytes) ⟨body, []⟩ generations).dropped) :=
  ⟨parse_render_iff prose entries, fun hg _ hid => mem_ids_run hg (hid.imp_right Or.inr)⟩

def call (argsBrief : JsString) : ToolIndexEntry where
  toolCallId := js "call_1"
  toolName := js "bash"
  argsBrief := argsBrief
  status := .ok
  outputChars := 4

def twoCalls : Generation where
  prose := js "Notes.\n\n"
  fresh := [call (js "ls"), { call (js "pwd") with toolCallId := js "call_2" }]

def thirdCall : Generation where
  prose := js "More notes.\n\n"
  fresh := [{ call (js "ls -l") with toolCallId := js "call_3" }]

theorem recallable_twoGenerations :
    (parseFromBody (twoCalls.prose ++ renderSection twoCalls.fresh)).map ToolIndexEntry.key =
        twoCalls.fresh.map ToolIndexEntry.key ∧
      ∀ id ∈ [js "call_1", js "call_2", js "call_3"],
        id ∈ (run (compact 30000) ⟨[], []⟩ [twoCalls, thirdCall]).ids ∨
          id ∈ (run (compact 30000) ⟨[], []⟩ [twoCalls, thirdCall]).dropped := by
  have hlegible : twoCalls.Legible := ⟨by decide, by decide⟩
  have hall : ∀ g ∈ [twoCalls, thirdCall], g.Legible :=
    List.forall_mem_cons.mpr ⟨hlegible, List.forall_mem_singleton.mpr ⟨by decide, by decide⟩⟩
  have hfresh : ∀ id ∈ [js "call_1", js "call_2", js "call_3"],
      ∃ g ∈ [twoCalls, thirdCall], id ∈ g.fresh.map ToolIndexEntry.toolCallId := by decide
  have hboth := recallable_iff twoCalls.prose twoCalls.fresh 30000 [] [twoCalls, thirdCall]
  exact ⟨hboth.1.mpr ((legible_iff hlegible.2 (by decide)).mpr hlegible.1),
    fun id hid => hboth.2 hall id (Or.inr (hfresh id hid))⟩

/-- **A bar in the arguments of a call is written with a backslash, and the row is not read
again.** -/
theorem not_recallable : ¬∀ prose entries,
    (∀ e ∈ entries, ∀ c ∈ e.toolCallId, c ≠ bar ∧ isWhiteSpace c = false) →
    (parseFromBody (prose ++ renderSection entries)).map ToolIndexEntry.key =
      entries.map ToolIndexEntry.key := by
  intro h
  have hid : (js "call_1").all fun c => c ≠ bar && !isWhiteSpace c := by decide
  have hplain : ∀ e ∈ [call (js "ls | wc")], ∀ c ∈ e.toolCallId,
      c ≠ bar ∧ isWhiteSpace c = false := by
    intro e he c hc
    rw [List.mem_singleton.mp he] at hc
    simpa using List.all_eq_true.mp hid c hc
  exact absurd (h (js "Notes.\n\n") [call (js "ls | wc")] hplain) (by decide +kernel)

end OpenCms.ToolIndex
