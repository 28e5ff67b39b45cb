import OpenCms.Tool.Replace

/-!
# A text to edit that is not unique

An edit is to fail when the text to be replaced is found more than once. The first replacer then
does not settle it, but the others are asked: each of them proposes texts that are like the one to
be replaced, and if one of these occurs once, it is taken for what was meant. So an edit is refused
exactly if nothing that the looser replacers propose occurs once
(`OpenCms.Edit.refuses_iff`).
-/

namespace OpenCms.Edit

open JsString

/-- The replacers that propose something else than the text itself. -/
def looser : List Replacer :=
  [LineTrimmedReplacer, BlockAnchorReplacer, WhitespaceNormalizedReplacer,
    IndentationFlexibleReplacer, EscapeNormalizedReplacer, TrimmedBoundaryReplacer,
    ContextAwareReplacer]

/-- A text **occurs more than once**. -/
def Ambiguous (search content : JsString) : Prop :=
  ∃ i j, i ≠ j ∧ i ≤ content.length ∧ j ≤ content.length ∧ search <+: content.drop i ∧
    search <+: content.drop j

section Refuse

variable {content oldString newString search result : JsString} {notFound : Bool} {index : ℕ}
  {proposals : List JsString}

theorem Ambiguous.not_occursOnce (h : Ambiguous search content) :
    ¬OccursOnce search content index := by
  rintro ⟨-, -, honly⟩
  obtain ⟨i, j, hne, hi, hj, hsi, hsj⟩ := h
  exact hne ((honly i hi hsi).trans (honly j hj hsj).symm)

/-- **The first proposal that occurs once is taken.** -/
theorem exists_replaceFirst (hmem : search ∈ proposals) (honce : OccursOnce search content index) :
    ∃ result, replaceFirst content newString false notFound proposals = .ok result := by
  induction proposals generalizing notFound with
  | nil => cases hmem
  | cons first rest ih =>
    rw [replaceFirst]
    cases hindex : indexOf first content with
    | none =>
      rcases List.mem_cons.mp hmem with rfl | hmem
      · rw [(indexOf_eq_lastIndexOf_iff.mpr honce).1] at hindex
        cases hindex
      · exact ih hmem
    | some found =>
      dsimp only
      rw [if_neg Bool.false_ne_true]
      split
      next => exact ⟨_, rfl⟩
      next hlast =>
        rcases List.mem_cons.mp hmem with rfl | hmem
        · obtain ⟨hfirst, honly⟩ := indexOf_eq_lastIndexOf_iff.mpr honce
          rw [hfirst] at hindex
          obtain rfl := Option.some.inj hindex
          exact absurd honly hlast
        · exact ih hmem

theorem replace_eq_error_iff (hdiff : oldString ≠ newString) :
    (∃ e, replace content oldString newString false = .error e) ↔
      ∀ search ∈ searches content oldString, ∀ index, ¬OccursOnce search content index := by
  constructor
  · rintro ⟨e, he⟩ search hmem index honce
    obtain ⟨result, hresult⟩ : ∃ result,
        replaceFirst content newString false true (searches content oldString) = .ok result :=
      exists_replaceFirst hmem honce
    rw [replace, if_neg hdiff, hresult] at he
    cases he
  · intro hnone
    cases hreplace : replace content oldString newString false with
    | error e => exact ⟨e, rfl⟩
    | ok result =>
      obtain ⟨search, hmem, index, honce, -⟩ := replace_eq_ok hreplace
      exact absurd honce (hnone search hmem index)

theorem mem_searches :
    search ∈ searches content oldString →
      search = oldString ∨ ∃ replacer ∈ looser, search ∈ replacer content oldString := by
  intro h
  obtain ⟨replacer, hreplacer, hmem⟩ := List.mem_flatMap.mp h
  -- the first replacer and the last one propose the text itself
  have hsplit : replacers = SimpleReplacer :: (looser ++ [MultiOccurrenceReplacer]) := rfl
  rw [hsplit, List.mem_cons, List.mem_append, List.mem_singleton] at hreplacer
  rcases hreplacer with rfl | hlooser | rfl
  · exact Or.inl (List.mem_singleton.mp hmem)
  · exact Or.inr ⟨replacer, hlooser, hmem⟩
  · obtain ⟨-, -, rfl⟩ := List.mem_map.mp hmem
    exact Or.inl rfl

theorem mem_searches_of_looser {replacer : Replacer} (hreplacer : replacer ∈ looser)
    (h : search ∈ replacer content oldString) : search ∈ searches content oldString := by
  refine List.mem_flatMap.mpr ⟨replacer, ?_, h⟩
  exact List.mem_cons_of_mem _ (List.mem_append_left _ hreplacer)

/-- **An ambiguous text is refused** exactly if nothing that a looser replacer proposes occurs
once. -/
theorem refuses_iff (content oldString newString : JsString) (hempty : oldString ≠ [])
    (hdiff : oldString ≠ newString) (hambiguous : Ambiguous oldString content) :
    (∃ e, replace content oldString newString false = .error e) ↔
      ∀ replacer ∈ looser, ∀ search ∈ replacer content oldString, ∀ index,
        ¬OccursOnce search content index := by
  rw [replace_eq_error_iff hdiff]
  constructor
  · intro hnone replacer hreplacer search hmem
    exact hnone search (mem_searches_of_looser hreplacer hmem)
  · intro hnone search hmem index
    rcases mem_searches hmem with rfl | ⟨replacer, hreplacer, hmem⟩
    · exact hambiguous.not_occursOnce
    · exact hnone replacer hreplacer search hmem index

end Refuse

/-- In one line a text that stands there twice is refused. -/
theorem refuses_iff_line : ∃ e, replace (js "aa") (js "a") (js "b") false = .error e := by
  have hlooser : ∀ replacer ∈ looser, ∀ search ∈ replacer (js "aa") (js "a"),
      indexOf search (js "aa") ≠ lastIndexOf search (js "aa") := by decide
  refine (refuses_iff (js "aa") (js "a") (js "b") (by decide) (by decide)
    ⟨0, 1, by decide, by decide, by decide, by decide, by decide⟩).mpr ?_
  intro replacer hreplacer search hsearch index honce
  obtain ⟨hfirst, hlast⟩ := indexOf_eq_lastIndexOf_iff.mpr honce
  exact hlooser replacer hreplacer search hsearch (hfirst.trans hlast.symm)

/-- **A looser match is edited**: the text stands there three times, but only once on a line of its
own behind a blank. -/
theorem not_refuses :
    ¬∀ content oldString newString : JsString, oldString ≠ [] → oldString ≠ newString →
      Ambiguous oldString content →
        ∃ e, replace content oldString newString false = .error e := by
  intro h
  obtain ⟨e, he⟩ := h (js "aa\n a") (js "a") (js "b") (by decide) (by decide)
    ⟨0, 1, by decide, by decide, by decide, by decide, by decide⟩
  have hnone := (replace_eq_error_iff (by decide)).mp ⟨e, he⟩
  have hmem : js " a" ∈ searches (js "aa\n a") (js "a") :=
    mem_searches_of_looser List.mem_cons_self (by decide)
  exact hnone (js " a") hmem 3 (indexOf_eq_lastIndexOf_iff.mp (by decide))

end OpenCms.Edit
