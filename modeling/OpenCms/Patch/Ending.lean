import OpenCms.Patch.Placement

/-!
# The end of a file that is patched

The lines of a file are taken without the empty piece behind the last line end, and when they are
put together again this piece is added – unless there is an empty line at the end already. So a
file that ends with an empty line loses it, even if the chunks change nothing.

`OpenCms.Patch.LeavesAlone` and `OpenCms.Patch.KeepsEnd` say what a patch should not do, and
`OpenCms.Patch.ending_kept_iff` when it does not.
-/

namespace OpenCms.Patch

/-! ### What a patch should leave as it is -/

def wholeText (lines : List Line) : Text := join (lines ++ [[]])

/-- **The chunks change nothing**: the new lines of each are the old ones, and where they are found
they stand exactly so. The block may be found without an empty last line of the chunk. -/
def ChangesNothing (lines : List Line) (chunks : List Chunk) : Prop :=
  (∀ c ∈ chunks, c.new_lines = c.old_lines) ∧
    ∀ before chunk after r, chunks = before ++ chunk :: after → Block lines 0 before chunk r →
      (lines.drop r.startIdx).take r.oldLen = chunk.old_lines.take r.oldLen

def LeavesAlone (content : Text) (chunks : List Chunk) (content' : Text) : Prop :=
  ChangesNothing (fileLines content) chunks →
    content' = content ∨ content.getLast? ≠ some '\n' ∧ content' = content ++ ['\n']

def LastInside (lines : List Line) (chunks : List Chunk) : Prop :=
  ∃ before chunk after r, chunks = before ++ chunk :: after ∧ Block lines 0 before chunk r ∧
    r.startIdx + r.oldLen = lines.length

/-- **Blank lines at the end are kept**: if the last line is blank, and no block takes it in, then
all that is up to it is in the new file, each line with its end. Lines may be added behind it. -/
def KeepsEnd (content : Text) (chunks : List Chunk) (content' : Text) : Prop :=
  ∀ rs, computeReplacements (fileLines content) chunks = .ok rs →
    (∃ last, (fileLines content).getLast? = some last ∧ trim last = []) →
      ¬LastInside (fileLines content) chunks →
        wholeText (substitute (fileLines content) 0
          (rs.filter fun r => r.startIdx < (fileLines content).length)) <+: content'

/-! ### Text and lines -/

section Text

variable {content : Text} {lines lines' : List Line}

theorem join_append (h : lines ≠ []) (h' : lines' ≠ []) :
    join (lines ++ lines') = join lines ++ '\n' :: join lines' := by
  induction lines with
  | nil => exact absurd rfl h
  | cons l lines ih =>
    cases lines with
    | nil =>
      obtain ⟨l', lines', rfl⟩ := List.exists_cons_of_ne_nil h'
      simp [join]
    | cons l₂ lines =>
      rw [List.cons_append, List.cons_append, join_cons_cons, ← List.cons_append,
        ih (List.cons_ne_nil _ _), join_cons_cons]
      simp

theorem wholeText_eq (h : lines ≠ []) : wholeText lines = join lines ++ ['\n'] :=
  join_append h (List.cons_ne_nil _ _)

theorem fileText_of_last (h : lines.getLast? = some []) : fileText lines = join lines := by
  rw [fileText, if_pos h]

theorem fileText_of_ne (h : lines.getLast? ≠ some []) : fileText lines = wholeText lines := by
  rw [fileText, if_neg h, wholeText]

theorem fileLines_cases (content : Text) :
    content = wholeText (fileLines content) ∨
      content = join (fileLines content) ∧ (fileLines content).getLast? ≠ some [] ∧
        content.getLast? ≠ some '\n' := by
  rw [fileLines, dropTrailingEmpty]
  split
  next hlast =>
    refine Or.inl ?_
    rw [wholeText, List.dropLast_append_getLast? [] hlast, join_split]
  next hlast =>
    refine Or.inr ⟨(join_split content).symm, hlast, fun hend => ?_⟩
    obtain ⟨front, rfl⟩ := List.getLast?_eq_some_iff.mp hend
    refine hlast ?_
    rw [split, List.splitOn_append_cons_self front []]
    exact List.getLast?_append_of_ne_nil _ (List.cons_ne_nil _ _)

theorem content_of_last (h : (fileLines content).getLast? = some []) :
    content = join (fileLines content) ++ ['\n'] := by
  have hne : fileLines content ≠ [] := by
    intro hnil
    rw [hnil] at h
    cases h
  rcases fileLines_cases content with hwhole | ⟨-, hlast, -⟩
  · exact hwhole.trans (wholeText_eq hne)
  · exact absurd h hlast

end Text

/-! ### Chunks that change nothing -/

section Unchanged

variable {lines : List Line} {chunks : List Chunk} {chunk : Chunk} {rs : List Replacement}
  {r : Replacement} {i : ℕ}

theorem newLines_of_locate (h : locate lines chunk i = some r)
    (hsame : chunk.new_lines = chunk.old_lines) :
    r.newLines = chunk.old_lines.take r.oldLen := by
  rw [locate] at h
  split at h
  next found _ =>
    obtain rfl := Option.some.inj h
    rw [hsame, List.take_length]
  next =>
    split at h
    next hlast =>
      obtain ⟨found, -, rfl⟩ := Option.map_eq_some_iff.mp h
      rw [hsame, dropTrailingEmpty, if_pos hlast, List.dropLast_eq_take, List.length_take,
        Nat.min_eq_left (Nat.sub_le _ _)]
    next => cases h

theorem ChangesNothing.newLines_eq (h : ChangesNothing lines chunks)
    (hlocated : Located lines 0 chunks rs) (hr : r ∈ rs) :
    r.newLines = (lines.drop r.startIdx).take r.oldLen := by
  rcases hlocated.mem_iff.mp hr with ⟨c, hc, hpure, rfl⟩ | ⟨before, chunk, after, heq, hblock⟩
  · rw [List.take_zero, h.1 c hc, hpure]
  · have hchunk : chunk ∈ chunks := heq ▸ List.mem_append_right before List.mem_cons_self
    obtain ⟨_, _, _, _, _, hhere⟩ := id hblock
    rw [newLines_of_locate hhere (h.1 chunk hchunk), h.2 before chunk after r heq hblock]

theorem exchange_of_same (h : ∀ r ∈ rs, r.newLines = (lines.drop r.startIdx).take r.oldLen) :
    exchange lines rs = lines := by
  induction rs with
  | nil => rfl
  | cons r rs ih =>
    obtain ⟨hr, hrs⟩ := List.forall_mem_cons.mp h
    rw [exchange_cons, ih hrs, hr, List.append_assoc, ← List.drop_drop, List.take_append_drop,
      List.take_append_drop]

/-- **Chunks that change nothing leave the lines as they are.** -/
theorem ChangesNothing.applyReplacements_eq (h : ChangesNothing lines chunks)
    (hrs : computeReplacements lines chunks = .ok rs) : applyReplacements lines rs = lines := by
  obtain ⟨found, hlocated, rfl⟩ := computeReplacements_eq_ok.mp hrs
  rw [Patch.applyReplacements_eq, exchange_of_same]
  intro r hr
  exact h.newLines_eq hlocated (List.mem_insertionSort _ |>.mp hr)

end Unchanged

/-! ### Lines that no block takes in -/

section Outside

variable {lines : List Line} {chunks : List Chunk} {rs : List Replacement} {r : Replacement}
  {i : ℕ}

theorem substitute_filter_isPrefix (hwithin : ∀ r ∈ rs, r.startIdx ≤ lines.length)
    (hsorted : rs.Pairwise fun r r' => r.startIdx ≤ r'.startIdx) (i : ℕ) :
    substitute lines i (rs.filter fun r => r.startIdx < lines.length) <+:
      substitute lines i rs := by
  induction rs generalizing i with
  | nil => exact List.prefix_refl _
  | cons r rs ih =>
    obtain ⟨hr, hwithin⟩ := List.forall_mem_cons.mp hwithin
    obtain ⟨hnext, hsorted⟩ := List.pairwise_cons.mp hsorted
    by_cases hlt : r.startIdx < lines.length
    · rw [List.filter_cons, if_pos (decide_eq_true hlt), substitute, substitute]
      exact (List.prefix_append_right_inj _).mpr (ih hwithin hsorted _)
    · -- all that follow are behind the last line too
      have hnone : (r :: rs).filter (fun r => r.startIdx < lines.length) = [] := by
        rw [List.filter_eq_nil_iff]
        intro r' hr'
        rcases List.mem_cons.mp hr' with rfl | hr'
        · simpa using hlt
        · have := hnext r' hr'
          simp only [decide_eq_true_eq]
          omega
      rw [hnone, substitute, substitute, List.append_assoc, List.take_of_length_le]
      · exact List.prefix_append _ _
      · rw [List.length_drop]
        omega

theorem getLast?_substitute (hbefore : ∀ r ∈ rs, r.startIdx + r.oldLen < lines.length)
    (hi : i < lines.length) : (substitute lines i rs).getLast? = lines.getLast? := by
  induction rs generalizing i with
  | nil =>
    rw [substitute, List.getLast?_drop, if_neg (by omega)]
  | cons r rs ih =>
    obtain ⟨hr, hbefore⟩ := List.forall_mem_cons.mp hbefore
    have hrest := ih hbefore hr
    rw [substitute, List.getLast?_append, hrest, Option.or_of_isSome]
    rw [List.getLast?_isSome]
    rintro rfl
    exact absurd hi (Nat.not_lt_zero i)

theorem nothingInside_of_outside (h : ¬LastInside lines chunks) :
    NothingInside lines 0 chunks := by
  intro before chunk after r heq hblock htakes
  exact absurd ⟨before, chunk, after, r, heq, hblock, htakes.2⟩ h

theorem end_lt_of_outside (h : ¬LastInside lines chunks)
    (hrs : computeReplacements lines chunks = .ok rs) (hr : r ∈ rs)
    (hlt : r.startIdx < lines.length) : r.startIdx + r.oldLen < lines.length := by
  obtain ⟨found, hlocated, rfl⟩ := computeReplacements_eq_ok.mp hrs
  rcases hlocated.mem_iff.mp (List.mem_insertionSort _ |>.mp hr) with
    ⟨c, -, -, rfl⟩ | ⟨before, chunk, after, heq, hblock⟩
  · exact hlt
  · refine lt_of_le_of_ne hblock.bounds.2.2 fun hend => ?_
    exact h ⟨before, chunk, after, r, heq, hblock, hend⟩

end Outside

/-! ### When the end is kept -/

section Kept

variable {content content' : Text} {chunks : List Chunk} {rs : List Replacement} {last : Line}

theorem derive_eq_fileText (hrs : computeReplacements (fileLines content) chunks = .ok rs)
    (h : deriveNewContentsFromChunks content chunks = .ok content') :
    content' = fileText (applyReplacements (fileLines content) rs) := by
  rw [deriveNewContentsFromChunks, hrs] at h
  exact (Except.ok.inj h).symm

theorem exists_computeReplacements (h : deriveNewContentsFromChunks content chunks = .ok content') :
    ∃ rs, computeReplacements (fileLines content) chunks = .ok rs := by
  obtain ⟨rs, hrs, -⟩ := bind_eq_ok.mp h
  exact ⟨rs, hrs⟩

theorem leavesAlone_of_last (h : deriveNewContentsFromChunks content chunks = .ok content')
    (hlast : (fileLines content).getLast? ≠ some []) : LeavesAlone content chunks content' := by
  intro hnothing
  obtain ⟨rs, hrs⟩ := exists_computeReplacements h
  have hcontent' := derive_eq_fileText hrs h
  rw [hnothing.applyReplacements_eq hrs, fileText_of_ne hlast] at hcontent'
  rcases fileLines_cases content with hwhole | ⟨hjoin, -, hend⟩
  · exact Or.inl (hcontent'.trans hwhole.symm)
  · by_cases hnil : fileLines content = []
    · rw [hnil] at hjoin hcontent'
      exact Or.inl (hcontent'.trans hjoin.symm)
    · rw [wholeText_eq hnil, ← hjoin] at hcontent'
      exact Or.inr ⟨hend, hcontent'⟩

/-- **A file that ends with an empty line loses it**, if the chunks change nothing. -/
theorem not_leavesAlone (h : deriveNewContentsFromChunks content chunks = .ok content')
    (hlast : (fileLines content).getLast? = some [])
    (hnothing : ChangesNothing (fileLines content) chunks) :
    ¬LeavesAlone content chunks content' := by
  intro halone
  obtain ⟨rs, hrs⟩ := exists_computeReplacements h
  have hcontent' := derive_eq_fileText hrs h
  rw [hnothing.applyReplacements_eq hrs, fileText_of_last hlast] at hcontent'
  have hcontent := content_of_last hlast
  rw [← hcontent'] at hcontent
  have hlength := congrArg List.length hcontent
  rw [List.length_append, List.length_singleton] at hlength
  rcases halone hnothing with heq | ⟨-, heq⟩
  · rw [heq] at hlength
    omega
  · rw [heq, List.length_append, List.length_singleton] at hlength
    omega

theorem applyReplacements_of_outside
    (hrs : computeReplacements (fileLines content) chunks = .ok rs)
    (houtside : ¬LastInside (fileLines content) chunks) :
    applyReplacements (fileLines content) rs = substitute (fileLines content) 0 rs :=
  ((wellPlaced_iff hrs).mpr (nothingInside_of_outside houtside)).applyReplacements_eq

theorem wholeText_isPrefix {lines lines' : List Line} (h : lines ≠ []) (h' : lines' ≠ []) :
    wholeText lines <+: join (lines ++ lines') := by
  rw [wholeText_eq h, join_append h h']
  exact ⟨join lines', List.append_assoc _ _ _⟩

/-- **A file that does not end with an empty line keeps its end.** -/
theorem keepsEnd_of_last (h : deriveNewContentsFromChunks content chunks = .ok content')
    (hlast : (fileLines content).getLast? ≠ some []) : KeepsEnd content chunks content' := by
  rintro rs hrs ⟨last, hsome, -⟩ houtside
  have hwell := (wellPlaced_iff hrs).mpr (nothingInside_of_outside houtside)
  have hcontent' := derive_eq_fileText hrs h
  rw [applyReplacements_of_outside hrs houtside] at hcontent'
  obtain ⟨behind, hbehind⟩ := substitute_filter_isPrefix
    (fun r hr => (Nat.le_add_right _ _).trans (hwell.within r hr)) hwell.sorted 0
  -- the last line is still the last one of what is before the additions
  have hkept : (substitute (fileLines content) 0
      (rs.filter fun r => r.startIdx < (fileLines content).length)).getLast? = some last := by
    rw [getLast?_substitute, hsome]
    · intro r hr
      obtain ⟨hmem, hlt⟩ := List.mem_filter.mp hr
      exact end_lt_of_outside houtside hrs hmem (of_decide_eq_true hlt)
    · rw [List.length_pos_iff]
      intro hnil
      rw [hnil] at hsome
      cases hsome
  rw [hsome] at hlast
  generalize substitute (fileLines content) 0
    (rs.filter fun r => r.startIdx < (fileLines content).length) = before at hbehind hkept ⊢
  have hbefore : before ≠ [] := by
    rintro rfl
    cases hkept
  rw [hcontent', ← hbehind]
  by_cases hempty : (before ++ behind).getLast? = some []
  · rw [fileText_of_last hempty]
    refine wholeText_isPrefix hbefore ?_
    rintro rfl
    rw [List.append_nil, hkept] at hempty
    exact hlast hempty
  · have hwhole : wholeText (before ++ behind) = join (before ++ (behind ++ [[]])) := by
      rw [wholeText, List.append_assoc]
    rw [fileText_of_ne hempty, hwhole]
    exact wholeText_isPrefix hbefore (by simp)

/-- **An empty line at the end is lost**, if no block takes it in. -/
theorem not_keepsEnd (h : deriveNewContentsFromChunks content chunks = .ok content')
    (hlast : (fileLines content).getLast? = some [])
    (houtside : ¬LastInside (fileLines content) chunks) : ¬KeepsEnd content chunks content' := by
  intro hkeeps
  obtain ⟨rs, hrs⟩ := exists_computeReplacements h
  have hcontent' := derive_eq_fileText hrs h
  rw [applyReplacements_of_outside hrs houtside] at hcontent'
  have hpos : 0 < (fileLines content).length := by
    rw [List.length_pos_iff]
    intro hnil
    rw [hnil] at hlast
    cases hlast
  have hstart : ∀ r ∈ rs, r.startIdx < (fileLines content).length := by
    obtain ⟨found, hlocated, rfl⟩ := computeReplacements_eq_ok.mp hrs
    intro r hr
    rcases hlocated.mem_iff.mp (List.mem_insertionSort _ |>.mp hr) with
      ⟨c, -, -, rfl⟩ | ⟨before, chunk, after, -, hblock⟩
    · rw [insertionIdx_of_last hlast]
      exact Nat.sub_lt hpos Nat.one_pos
    · have hbounds := hblock.bounds
      omega
  have hall : rs.filter (fun r => r.startIdx < (fileLines content).length) = rs :=
    List.filter_eq_self.mpr fun r hr => decide_eq_true (hstart r hr)
  have hprefix := hkeeps rs hrs ⟨[], hlast, rfl⟩ houtside
  have hkept : (substitute (fileLines content) 0 rs).getLast? = some [] := by
    rw [getLast?_substitute (fun r hr => end_lt_of_outside houtside hrs hr (hstart r hr)) hpos,
      hlast]
  rw [hall, hcontent', fileText_of_last hkept, wholeText_eq] at hprefix
  · have hlength := hprefix.length_le
    rw [List.length_append, List.length_singleton] at hlength
    omega
  · intro hnil
    rw [hnil] at hkept
    cases hkept

/-- **Chunks that change nothing leave the file alone, and blank lines at its end are kept**,
exactly if the file does not end with an empty line, or some block takes that line in and the
chunks change something. -/
theorem ending_kept_iff (h : deriveNewContentsFromChunks content chunks = .ok content') :
    LeavesAlone content chunks content' ∧ KeepsEnd content chunks content' ↔
      ((fileLines content).getLast? = some [] →
        ¬ChangesNothing (fileLines content) chunks ∧ LastInside (fileLines content) chunks) := by
  constructor
  · rintro ⟨halone, hkeeps⟩ hlast
    refine ⟨fun hnothing => not_leavesAlone h hlast hnothing halone, ?_⟩
    by_contra houtside
    exact not_keepsEnd h hlast houtside hkeeps
  · intro hcondition
    by_cases hlast : (fileLines content).getLast? = some []
    · obtain ⟨hchanges, hinside⟩ := hcondition hlast
      exact ⟨fun hnothing => absurd hnothing hchanges,
        fun rs _ _ houtside => absurd hinside houtside⟩
    · exact ⟨leavesAlone_of_last h hlast, keepsEnd_of_last h hlast⟩

end Kept

def sameChunk : Chunk := ⟨[txt "a"], [txt "a"], none, false⟩

/-- The file has one line, which is not empty. -/
theorem ending_kept_iff_line : LeavesAlone (txt "a") [sameChunk] (txt "a\n") ∧
    KeepsEnd (txt "a") [sameChunk] (txt "a\n") :=
  (ending_kept_iff rfl).mpr fun hlast => absurd hlast (by decide)

/-- **A file with an empty line at its end loses it**, though the chunk changes nothing. -/
theorem ending_lost :
    ¬∀ (content : Text) (chunks : List Chunk) (content' : Text),
      deriveNewContentsFromChunks content chunks = .ok content' →
        LeavesAlone content chunks content' ∧ KeepsEnd content chunks content' := by
  intro h
  have hlocated : Located (fileLines (txt "a\n\n")) 0 [sameChunk] [⟨0, 1, [txt "a"]⟩] :=
    findReplacements_eq_ok.mp rfl
  have hnothing : ChangesNothing (fileLines (txt "a\n\n")) [sameChunk] := by
    refine ⟨fun c hc => List.mem_singleton.mp hc ▸ rfl, fun before chunk after r heq hblock => ?_⟩
    have hr := hlocated.mem_iff.mpr (Or.inr ⟨before, chunk, after, heq, hblock⟩)
    have hchunk : chunk ∈ [sameChunk] := heq ▸ List.mem_append_right before List.mem_cons_self
    rw [List.mem_singleton.mp hr, List.mem_singleton.mp hchunk]
    rfl
  rcases (h (txt "a\n\n") [sameChunk] (txt "a\n") rfl).1 hnothing with heq | ⟨-, heq⟩
  · exact absurd heq (by decide)
  · exact absurd heq (by decide)

end OpenCms.Patch
