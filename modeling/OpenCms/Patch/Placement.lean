import OpenCms.Lib.StableSort
import OpenCms.Patch.Derive

/-!
# Where the replacements of a patch stand

The chunks of a patch are found one behind the other, so the blocks they replace do not overlap,
and the replacements can be made from the last to the first. A chunk that only adds lines is not
placed behind the one before: it goes to the end of the file, or before the last line if that is
empty. So it may come into the middle of a block that takes in this empty line; then it is made
first, and the lines it has added are taken away with the block.

`OpenCms.Patch.substitute` says what is meant, from the first line to the last, and
`OpenCms.Patch.placed_iff` when it is what comes out.
-/

namespace OpenCms.Patch

/-! ### What is meant -/

def substitute (lines : List Line) : ℕ → List Replacement → List Line
  | i, [] => lines.drop i
  | i, r :: rs =>
    (lines.drop i).take (r.startIdx - i) ++ r.newLines ++
      substitute lines (r.startIdx + r.oldLen) rs

/-- **Replacements that do not overlap**: they are within the lines, in their order, and none begins
before the one before it ends. -/
structure WellPlaced (lines : List Line) (rs : List Replacement) : Prop where
  within : ∀ r ∈ rs, r.startIdx + r.oldLen ≤ lines.length
  sorted : rs.Pairwise fun r r' => r.startIdx ≤ r'.startIdx
  apart : rs.Pairwise fun r r' => r.startIdx + r.oldLen ≤ r'.startIdx

section Exchange

variable {lines : List Line} {rs : List Replacement}

theorem exchange_eq_substitute {i : ℕ}
    (hwithin : ∀ r ∈ rs, r.startIdx + r.oldLen ≤ lines.length)
    (hapart : rs.Pairwise fun r r' => r.startIdx + r.oldLen ≤ r'.startIdx)
    (hi : ∀ r ∈ rs, i ≤ r.startIdx) :
    exchange lines rs = lines.take i ++ substitute lines i rs := by
  induction rs generalizing i with
  | nil => exact (List.take_append_drop i lines).symm
  | cons r rs ih =>
    obtain ⟨hnext, hapart⟩ := List.pairwise_cons.mp hapart
    obtain ⟨hr, hwithin⟩ := List.forall_mem_cons.mp hwithin
    have hir : i ≤ r.startIdx := hi r List.mem_cons_self
    have hlen : (lines.take (r.startIdx + r.oldLen)).length = r.startIdx + r.oldLen :=
      List.length_take_of_le hr
    -- what is before the block, and what is behind it, once the others are made
    have hbefore : (exchange lines rs).take r.startIdx = lines.take r.startIdx := by
      rw [ih hwithin hapart hnext, List.take_append_of_le_length (by omega), List.take_take,
        Nat.min_eq_left (Nat.le_add_right _ _)]
    have hbehind : (exchange lines rs).drop (r.startIdx + r.oldLen) =
        substitute lines (r.startIdx + r.oldLen) rs := by
      rw [ih hwithin hapart hnext, List.drop_left' hlen]
    have hsplit : lines.take r.startIdx =
        lines.take i ++ (lines.drop i).take (r.startIdx - i) := by
      conv_lhs => rw [← Nat.add_sub_of_le hir, List.take_add]
    rw [exchange_cons, hbefore, hbehind, hsplit, substitute]
    simp only [List.append_assoc]

/-- **Replacements that do not overlap do what is meant.** -/
theorem WellPlaced.applyReplacements_eq (h : WellPlaced lines rs) :
    applyReplacements lines rs = substitute lines 0 rs := by
  rw [Patch.applyReplacements_eq,
    exchange_eq_substitute h.within h.apart fun r _ => Nat.zero_le _]
  rfl

end Exchange

/-! ### Where lines are found -/

variable {i' : ℕ}

section Seek

variable {compare : Line → Line → Bool} {lines pattern : List Line} {i k : ℕ} {eof : Bool}
  {chunk : Chunk} {r : Replacement}

theorem length_le_of_matchesHere (h : matchesHere compare lines pattern = true) :
    pattern.length ≤ lines.length := by
  induction pattern generalizing lines with
  | nil => exact Nat.zero_le _
  | cons p pattern ih =>
    cases lines with
    | nil => cases h
    | cons l lines =>
      rw [matchesHere, Bool.and_eq_true] at h
      exact Nat.succ_le_succ (ih h.2)

theorem searchFrom_bounds (h : searchFrom compare pattern i lines = some k) :
    i ≤ k ∧ k + pattern.length ≤ i + lines.length := by
  induction lines generalizing i with
  | nil =>
    rw [searchFrom] at h
    split at h
    next hhere =>
      obtain rfl := Option.some.inj h
      exact ⟨le_rfl, Nat.add_le_add_left (length_le_of_matchesHere hhere) i⟩
    next => cases h
  | cons l lines ih =>
    rw [searchFrom] at h
    split at h
    next hhere =>
      obtain rfl := Option.some.inj h
      exact ⟨le_rfl, Nat.add_le_add_left (length_le_of_matchesHere hhere) i⟩
    next =>
      obtain ⟨hik, hlen⟩ := ih h
      rw [List.length_cons]
      omega

theorem tryMatch_bounds (hpattern : pattern ≠ [])
    (h : tryMatch lines pattern i compare eof = some k) :
    i ≤ k ∧ k + pattern.length ≤ lines.length := by
  have hpos : 0 < pattern.length := List.length_pos_iff.mpr hpattern
  rw [tryMatch] at h
  split at h
  next hend =>
    obtain rfl := Option.some.inj h
    omega
  next =>
    obtain ⟨hik, hlen⟩ := searchFrom_bounds h
    rw [List.length_drop] at hlen
    omega

/-- **What is found is within the lines**, behind the place the search begins at. -/
theorem seekSequence_bounds (h : seekSequence lines pattern i eof = some k) :
    pattern ≠ [] ∧ i ≤ k ∧ k + pattern.length ≤ lines.length := by
  rw [seekSequence] at h
  split at h
  next => cases h
  next hpattern =>
    refine ⟨hpattern, ?_⟩
    simp only [Option.or_eq_some_iff] at h
    rcases h with h | ⟨-, h | ⟨-, h | ⟨-, h⟩⟩⟩ <;> exact tryMatch_bounds hpattern h

theorem locate_bounds (h : locate lines chunk i = some r) :
    0 < r.oldLen ∧ i ≤ r.startIdx ∧ r.startIdx + r.oldLen ≤ lines.length := by
  rw [locate] at h
  split at h
  next found hfound =>
    obtain ⟨hpattern, hbounds⟩ := seekSequence_bounds hfound
    obtain rfl := Option.some.inj h
    exact ⟨List.length_pos_iff.mpr hpattern, hbounds⟩
  next =>
    split at h
    next =>
      obtain ⟨found, hfound, rfl⟩ := Option.map_eq_some_iff.mp h
      obtain ⟨hpattern, hbounds⟩ := seekSequence_bounds hfound
      exact ⟨List.length_pos_iff.mpr hpattern, hbounds⟩
    next => cases h

theorem le_of_behindContext (h : BehindContext lines chunk i i') : i ≤ i' := by
  rw [BehindContext] at h
  split at h
  next => exact h.ge
  next =>
    obtain ⟨k, hk, rfl⟩ := h
    have := (seekSequence_bounds hk).2.1
    omega

theorem insertionIdx_of_last (h : lines.getLast? = some []) :
    insertionIdx lines = lines.length - 1 := if_pos h

theorem insertionIdx_of_ne (h : lines.getLast? ≠ some []) : insertionIdx lines = lines.length :=
  if_neg h

theorem insertionIdx_le : insertionIdx lines ≤ lines.length := by
  rw [insertionIdx]
  split <;> omega

end Seek

/-! ### Blocks and additions -/

/-- The search goes on at `j` behind the chunks, from `i` on. -/
inductive Passed (lines : List Line) : ℕ → List Chunk → ℕ → Prop
  | nil (i : ℕ) : Passed lines i [] i
  | addition {i i' j : ℕ} {chunk : Chunk} {chunks : List Chunk}
      (context : BehindContext lines chunk i i') (pure : chunk.old_lines = [])
      (rest : Passed lines i' chunks j) : Passed lines i (chunk :: chunks) j
  | found {i i' j : ℕ} {chunk : Chunk} {chunks : List Chunk} {r : Replacement}
      (context : BehindContext lines chunk i i') (old : chunk.old_lines ≠ [])
      (here : locate lines chunk i' = some r)
      (rest : Passed lines (r.startIdx + r.oldLen) chunks j) : Passed lines i (chunk :: chunks) j

def Block (lines : List Line) (i : ℕ) (before : List Chunk) (chunk : Chunk) (r : Replacement) :
    Prop :=
  ∃ j j', Passed lines i before j ∧ BehindContext lines chunk j j' ∧ chunk.old_lines ≠ [] ∧
    locate lines chunk j' = some r

def TakesEmptyLast (lines : List Line) (r : Replacement) : Prop :=
  lines.getLast? = some [] ∧ r.startIdx + r.oldLen = lines.length

/-- **Nothing is added into a block**: no chunk that only adds lines stands behind one of which the
block takes in the empty last line, and none before it, unless the block is this line alone. -/
def NothingInside (lines : List Line) (i : ℕ) (chunks : List Chunk) : Prop :=
  ∀ before chunk after r, chunks = before ++ chunk :: after → Block lines i before chunk r →
    TakesEmptyLast lines r →
      (∀ c ∈ after, c.old_lines ≠ []) ∧ (r.oldLen = 1 ∨ ∀ c ∈ before, c.old_lines ≠ [])

section Blocks

variable {lines : List Line} {i j : ℕ} {chunk : Chunk} {chunks before : List Chunk}
  {r r' : Replacement} {rs : List Replacement} {c : Chunk}

theorem le_of_passed (h : Passed lines i chunks j) : i ≤ j := by
  induction h with
  | nil => exact le_rfl
  | addition context _ _ ih => exact (le_of_behindContext context).trans ih
  | found context _ here _ ih =>
    have hcontext := le_of_behindContext context
    have hhere := locate_bounds here
    omega

theorem Block.bounds (h : Block lines i before chunk r) :
    0 < r.oldLen ∧ i ≤ r.startIdx ∧ r.startIdx + r.oldLen ≤ lines.length := by
  obtain ⟨j, j', hpassed, hcontext, -, hhere⟩ := h
  obtain ⟨hpos, hstart, hend⟩ := locate_bounds hhere
  have := le_of_passed hpassed
  have := le_of_behindContext hcontext
  exact ⟨hpos, by omega, hend⟩

theorem BehindContext.unique {i'' : ℕ} (h : BehindContext lines chunk i i')
    (h' : BehindContext lines chunk i i'') : i'' = i' := by
  have hok := (skipContext_eq_ok.mpr h).symm.trans (skipContext_eq_ok.mpr h')
  exact (Except.ok.inj hok).symm

theorem block_cons_addition (hcontext : BehindContext lines c i i') (hpure : c.old_lines = []) :
    Block lines i (c :: before) chunk r ↔ Block lines i' before chunk r := by
  constructor
  · rintro ⟨j, j', hpassed, hhere⟩
    cases hpassed with
    | addition hcontext' _ hrest =>
      obtain rfl := hcontext.unique hcontext'
      exact ⟨j, j', hrest, hhere⟩
    | found _ hold _ _ => exact absurd hpure hold
  · rintro ⟨j, j', hpassed, hhere⟩
    exact ⟨j, j', .addition hcontext hpure hpassed, hhere⟩

theorem block_cons_found (hcontext : BehindContext lines c i i') (hold : c.old_lines ≠ [])
    (hfound : locate lines c i' = some r') :
    Block lines i (c :: before) chunk r ↔
      Block lines (r'.startIdx + r'.oldLen) before chunk r := by
  constructor
  · rintro ⟨j, j', hpassed, hhere⟩
    cases hpassed with
    | addition _ hpure _ => exact absurd hpure hold
    | found hcontext' _ hfound' hrest =>
      obtain rfl := hcontext.unique hcontext'
      obtain rfl := Option.some.inj (hfound.symm.trans hfound')
      exact ⟨j, j', hrest, hhere⟩
  · rintro ⟨j, j', hpassed, hhere⟩
    exact ⟨j, j', .found hcontext hold hfound hpassed, hhere⟩

theorem block_nil (hcontext : BehindContext lines chunk i i') :
    Block lines i [] chunk r ↔ chunk.old_lines ≠ [] ∧ locate lines chunk i' = some r := by
  constructor
  · rintro ⟨j, j', hpassed, hcontext', hhere⟩
    cases hpassed
    obtain rfl := hcontext.unique hcontext'
    exact hhere
  · intro hhere
    exact ⟨i, i', .nil i, hcontext, hhere⟩

/-- **A replacement is an addition of one of the chunks, or the block of one.** -/
theorem Located.mem_iff (h : Located lines i chunks rs) :
    r ∈ rs ↔ (∃ c ∈ chunks, c.old_lines = [] ∧ r = ⟨insertionIdx lines, 0, c.new_lines⟩) ∨
      ∃ before chunk after, chunks = before ++ chunk :: after ∧ Block lines i before chunk r := by
  induction h with
  | nil => simp
  | @addition i i' c chunks rs context pure _ ih =>
    rw [List.mem_cons, ih]
    constructor
    · rintro (rfl | ⟨c', hc', hadd⟩ | ⟨before, chunk, after, rfl, hblock⟩)
      · exact Or.inl ⟨c, List.mem_cons_self, pure, rfl⟩
      · exact Or.inl ⟨c', List.mem_cons_of_mem c hc', hadd⟩
      · exact Or.inr ⟨c :: before, chunk, after, rfl, (block_cons_addition context pure).mpr hblock⟩
    · rintro (⟨c', hc', hadd⟩ | ⟨before, chunk, after, heq, hblock⟩)
      · rcases List.mem_cons.mp hc' with rfl | hc'
        · exact Or.inl hadd.2
        · exact Or.inr (Or.inl ⟨c', hc', hadd⟩)
      · rcases List.cons_eq_append_iff.mp heq with ⟨rfl, hcons⟩ | ⟨before', rfl, rfl⟩
        · obtain ⟨rfl, rfl⟩ := List.cons.inj hcons
          exact absurd pure ((block_nil context).mp hblock).1
        · exact Or.inr (Or.inr ⟨before', chunk, after, rfl,
            (block_cons_addition context pure).mp hblock⟩)
  | @found i i' c chunks r' rs context old here _ ih =>
    rw [List.mem_cons, ih]
    constructor
    · rintro (rfl | ⟨c', hc', hadd⟩ | ⟨before, chunk, after, rfl, hblock⟩)
      · exact Or.inr ⟨[], c, chunks, rfl, (block_nil context).mpr ⟨old, here⟩⟩
      · exact Or.inl ⟨c', List.mem_cons_of_mem c hc', hadd⟩
      · exact Or.inr ⟨c :: before, chunk, after, rfl,
          (block_cons_found context old here).mpr hblock⟩
    · rintro (⟨c', hc', hadd⟩ | ⟨before, chunk, after, heq, hblock⟩)
      · rcases List.mem_cons.mp hc' with rfl | hc'
        · exact absurd hadd.1 old
        · exact Or.inr (Or.inl ⟨c', hc', hadd⟩)
      · rcases List.cons_eq_append_iff.mp heq with ⟨rfl, hcons⟩ | ⟨before', rfl, rfl⟩
        · obtain ⟨rfl, rfl⟩ := List.cons.inj hcons
          have hhere := ((block_nil context).mp hblock).2
          exact Or.inl (Option.some.inj (hhere.symm.trans here))
        · exact Or.inr (Or.inr ⟨before', chunk, after, rfl,
            (block_cons_found context old here).mp hblock⟩)

theorem nothingInside_addition (hcontext : BehindContext lines c i i') (hpure : c.old_lines = []) :
    NothingInside lines i (c :: chunks) ↔
      (∀ before chunk after r, chunks = before ++ chunk :: after → Block lines i' before chunk r →
        TakesEmptyLast lines r → r.oldLen = 1) ∧ NothingInside lines i' chunks := by
  constructor
  · intro h
    refine ⟨fun before chunk after r heq hblock htakes => ?_,
      fun before chunk after r heq hblock htakes => ?_⟩
    · have hblock' := (block_cons_addition hcontext hpure).mpr hblock
      have hnothing := h (c :: before) chunk after r (congrArg (c :: ·) heq) hblock' htakes
      exact hnothing.2.resolve_right fun hnone => hnone c List.mem_cons_self hpure
    · have hblock' := (block_cons_addition hcontext hpure).mpr hblock
      have hnothing := h (c :: before) chunk after r (congrArg (c :: ·) heq) hblock' htakes
      exact hnothing.imp_right fun hor => hor.imp_right fun hnone c' hc' =>
        hnone c' (List.mem_cons_of_mem c hc')
  · rintro ⟨halone, h⟩ before chunk after r heq hblock htakes
    rcases List.cons_eq_append_iff.mp heq with ⟨rfl, hcons⟩ | ⟨before', rfl, rfl⟩
    · obtain ⟨rfl, rfl⟩ := List.cons.inj hcons
      exact absurd hpure ((block_nil hcontext).mp hblock).1
    · have hblock' := (block_cons_addition hcontext hpure).mp hblock
      exact ⟨(h before' chunk after r rfl hblock' htakes).1,
        Or.inl (halone before' chunk after r rfl hblock' htakes)⟩

theorem nothingInside_found (hcontext : BehindContext lines c i i') (hold : c.old_lines ≠ [])
    (hhere : locate lines c i' = some r) :
    NothingInside lines i (c :: chunks) ↔
      (TakesEmptyLast lines r → ∀ c' ∈ chunks, c'.old_lines ≠ []) ∧
        NothingInside lines (r.startIdx + r.oldLen) chunks := by
  constructor
  · intro h
    refine ⟨fun htakes => ?_, fun before chunk after r' heq hblock htakes => ?_⟩
    · exact (h [] c chunks r rfl ((block_nil hcontext).mpr ⟨hold, hhere⟩) htakes).1
    · have hblock' := (block_cons_found hcontext hold hhere).mpr hblock
      have hnothing := h (c :: before) chunk after r' (congrArg (c :: ·) heq) hblock' htakes
      exact hnothing.imp_right fun hor => hor.imp_right fun hnone c' hc' =>
        hnone c' (List.mem_cons_of_mem c hc')
  · rintro ⟨hnone, h⟩ before chunk after r' heq hblock htakes
    rcases List.cons_eq_append_iff.mp heq with ⟨rfl, hcons⟩ | ⟨before', rfl, rfl⟩
    · obtain ⟨rfl, rfl⟩ := List.cons.inj hcons
      obtain rfl := Option.some.inj (hhere.symm.trans ((block_nil hcontext).mp hblock).2)
      exact ⟨hnone htakes, Or.inr fun c hc => absurd hc List.not_mem_nil⟩
    · have hblock' := (block_cons_found hcontext hold hhere).mp hblock
      obtain ⟨hafter, hor⟩ := h before' chunk after r' rfl hblock' htakes
      refine ⟨hafter, hor.imp_right fun hbefore c' hc' => ?_⟩
      rcases List.mem_cons.mp hc' with rfl | hc'
      · exact hold
      · exact hbefore c' hc'

/-! ### The order of the replacements -/

/-- The first of two replacements ends where the second begins, or before. -/
abbrev Before (r r' : Replacement) : Prop := r.startIdx + r.oldLen ≤ r'.startIdx

/-- Two replacements do not overlap once they are sorted. -/
abbrev Apart : Replacement → Replacement → Prop :=
  StableSort.Sorted (fun r r' => r.startIdx ≤ r'.startIdx) Before

theorem apart_addition_block {new : List Line} (h : Block lines i before chunk r) :
    Apart ⟨insertionIdx lines, 0, new⟩ r ↔ (TakesEmptyLast lines r → r.oldLen = 1) := by
  obtain ⟨hpos, -, hend⟩ := h.bounds
  rw [Apart, StableSort.Sorted, TakesEmptyLast]
  by_cases hlast : lines.getLast? = some []
  · simp only [insertionIdx_of_last hlast, hlast, true_and, Before]
    split <;> omega
  · simp only [insertionIdx_of_ne hlast, hlast, false_and, false_implies, iff_true, Before]
    split <;> omega

theorem apart_block_addition {new : List Line} (h : Block lines i before chunk r) :
    Apart r ⟨insertionIdx lines, 0, new⟩ ↔ ¬TakesEmptyLast lines r := by
  obtain ⟨hpos, -, hend⟩ := h.bounds
  rw [Apart, StableSort.Sorted, TakesEmptyLast]
  by_cases hlast : lines.getLast? = some []
  · simp only [insertionIdx_of_last hlast, hlast, true_and, Before]
    split <;> omega
  · simp only [insertionIdx_of_ne hlast, hlast, false_and, not_false_eq_true, iff_true, Before]
    split <;> omega

theorem apart_block_block (h : Block lines (r.startIdx + r.oldLen) before chunk r') :
    Apart r r' := by
  obtain ⟨-, hstart, -⟩ := h.bounds
  rw [Apart, StableSort.Sorted, if_pos (by omega)]
  exact hstart

theorem apart_addition_addition {new new' : List Line} :
    Apart ⟨insertionIdx lines, 0, new⟩ ⟨insertionIdx lines, 0, new'⟩ := by
  rw [Apart, StableSort.Sorted, if_pos le_rfl]
  exact le_rfl

/-- **The replacements do not overlap exactly if nothing is added into a block.** -/
theorem Located.pairwise_apart_iff (h : Located lines i chunks rs) :
    rs.Pairwise Apart ↔ NothingInside lines i chunks := by
  induction h with
  | nil => exact iff_of_true List.Pairwise.nil fun before chunk after r heq => by simp at heq
  | addition context pure rest ih =>
    rw [List.pairwise_cons, ih, nothingInside_addition context pure]
    refine and_congr_left fun _ => ⟨fun hall before chunk after r heq hblock => ?_, ?_⟩
    · refine (apart_addition_block hblock).mp (hall r ?_)
      exact rest.mem_iff.mpr (Or.inr ⟨before, chunk, after, heq, hblock⟩)
    · intro hall r hr
      rcases rest.mem_iff.mp hr with ⟨c, -, -, rfl⟩ | ⟨before, chunk, after, heq, hblock⟩
      · exact apart_addition_addition
      · exact (apart_addition_block hblock).mpr (hall before chunk after r heq hblock)
  | @found i i' c chunks r rs context old here rest ih =>
    have hblock : Block lines i [] c r := (block_nil context).mpr ⟨old, here⟩
    rw [List.pairwise_cons, ih, nothingInside_found context old here]
    refine and_congr_left fun _ => ⟨fun hall htakes c' hc' hpure => ?_, ?_⟩
    · have hadd := hall _ (rest.mem_iff.mpr (Or.inl ⟨c', hc', hpure, rfl⟩))
      exact (apart_block_addition hblock).mp hadd htakes
    · intro hnone r' hr'
      rcases rest.mem_iff.mp hr' with ⟨c', hc', hpure, rfl⟩ | ⟨before, chunk, after, -, hlater⟩
      · exact (apart_block_addition hblock).mpr fun htakes => hnone htakes c' hc' hpure
      · exact apart_block_block hlater

theorem Located.within (h : Located lines i chunks rs) (hr : r ∈ rs) :
    r.startIdx + r.oldLen ≤ lines.length := by
  rcases h.mem_iff.mp hr with ⟨c, -, -, rfl⟩ | ⟨before, chunk, after, -, hblock⟩
  · exact insertionIdx_le
  · exact hblock.bounds.2.2

end Blocks

/-! ### When the replacements do what is meant -/

section Placed

variable {lines : List Line} {chunks : List Chunk} {rs : List Replacement}

theorem computeReplacements_eq_ok :
    computeReplacements lines chunks = .ok rs ↔
      ∃ found, Located lines 0 chunks found ∧ byPlace found = rs := by
  rw [computeReplacements]
  simp only [bind_eq_ok, findReplacements_eq_ok]
  exact exists_congr fun found =>
    and_congr_right fun _ => ⟨Except.ok.inj, fun heq => congrArg Except.ok heq⟩

theorem wellPlaced_iff (h : computeReplacements lines chunks = .ok rs) :
    WellPlaced lines rs ↔ NothingInside lines 0 chunks := by
  obtain ⟨found, hlocated, rfl⟩ := computeReplacements_eq_ok.mp h
  have hiff : (byPlace found).Pairwise Before ↔ NothingInside lines 0 chunks :=
    StableSort.pairwise_insertionSort_iff.trans hlocated.pairwise_apart_iff
  refine ⟨fun hwell => hiff.mp hwell.apart, fun hnothing => ⟨fun r hr => ?_, ?_, ?_⟩⟩
  · exact hlocated.within (List.mem_insertionSort _ |>.mp hr)
  · exact List.pairwise_insertionSort _ found
  · exact hiff.mpr hnothing

/-- **The replacements are within the lines, sorted and apart, and made they give the lines with
each block exchanged for its new lines**, exactly if nothing is added into a block. -/
theorem placed_iff (h : computeReplacements lines chunks = .ok rs) :
    WellPlaced lines rs ∧ applyReplacements lines rs = substitute lines 0 rs ↔
      NothingInside lines 0 chunks := by
  rw [← wellPlaced_iff h]
  exact and_iff_left_of_imp WellPlaced.applyReplacements_eq

end Placed

/-- A chunk that changes the first line of two, with the empty line behind it. -/
def blockChunk : Chunk := ⟨[txt "a", []], [txt "b", []], none, false⟩

def additionChunk : Chunk := ⟨[], [txt "x"], none, false⟩

/-- The line is added before the block: nothing is added into it, since the last line is not
empty. -/
theorem placed_iff_added :
    WellPlaced [txt "a", [], txt "c"] [⟨0, 2, [txt "b", []]⟩, ⟨3, 0, [txt "x"]⟩] ∧
      applyReplacements [txt "a", [], txt "c"] [⟨0, 2, [txt "b", []]⟩, ⟨3, 0, [txt "x"]⟩] =
        substitute [txt "a", [], txt "c"] 0 [⟨0, 2, [txt "b", []]⟩, ⟨3, 0, [txt "x"]⟩] := by
  have hfound : computeReplacements [txt "a", [], txt "c"] [additionChunk, blockChunk] =
      .ok [⟨0, 2, [txt "b", []]⟩, ⟨3, 0, [txt "x"]⟩] := rfl
  refine (placed_iff hfound).mpr fun before chunk after r _ _ htakes => ?_
  exact absurd htakes.1 (by decide)

/-- **A line that is added before the empty last line is lost** when a block takes that line in: the
lines of the file are `a` and an empty one. -/
theorem not_placed :
    ¬∀ (lines : List Line) (chunks : List Chunk) (rs : List Replacement),
      computeReplacements lines chunks = .ok rs →
        WellPlaced lines rs ∧ applyReplacements lines rs = substitute lines 0 rs := by
  intro h
  have hplaced := (h [txt "a", []] [blockChunk, additionChunk]
    [⟨0, 2, [txt "b", []]⟩, ⟨1, 0, [txt "x"]⟩] rfl).1.apart
  have hbefore := List.rel_of_pairwise_cons hplaced List.mem_cons_self
  exact absurd hbefore (by decide)

end OpenCms.Patch
