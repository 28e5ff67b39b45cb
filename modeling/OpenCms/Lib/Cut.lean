import Mathlib.Data.List.Basic
import Mathlib.Data.Nat.Notation

/-!
# A list that is cut

A list is cut before certain elements. Whether it is cut before one of them depends on the element
before it, if there is one, and on all that follows; so a text can be cut where lines begin. The
pieces are the list, one after the other, and from each piece but the first on they are one of the
suffixes that begin at a mark.
-/

namespace OpenCms

variable {α : Type*} (mark : Option α → List α → Bool)

/-- The pieces. The first one comes before the first mark, and it may be empty. -/
def cut : Option α → List α → List (List α)
  | _, [] => [[]]
  | prev, a :: s =>
    let pieces := (cut (some a) s).modifyHead (a :: ·)
    if mark prev (a :: s) then [] :: pieces else pieces

def firstMark : Option α → List α → Option ℕ
  | _, [] => none
  | prev, a :: s => if mark prev (a :: s) then some 0 else (firstMark (some a) s).map (· + 1)

/-- The suffixes that begin at a mark, the longest first. -/
def markedSuffixes : Option α → List α → List (List α)
  | _, [] => []
  | prev, a :: s =>
    if mark prev (a :: s) then (a :: s) :: markedSuffixes (some a) s
    else markedSuffixes (some a) s

variable {mark} {prev : Option α} {s t : List α} {n : ℕ}

theorem markedSuffixes_cons {a : α} : markedSuffixes mark prev (a :: s) =
    if mark prev (a :: s) then (a :: s) :: markedSuffixes mark (some a) s
    else markedSuffixes mark (some a) s := rfl

theorem mem_markedSuffixes_self (hs : s ≠ []) (h : mark prev s) : s ∈ markedSuffixes mark prev s := by
  obtain ⟨a, s, rfl⟩ := List.exists_cons_of_ne_nil hs
  rw [markedSuffixes_cons, if_pos h]
  exact List.mem_cons_self

theorem markedSuffixes_eq_nil : markedSuffixes mark prev s = [] ↔ firstMark mark prev s = none := by
  induction s generalizing prev with
  | nil => exact iff_of_true rfl rfl
  | cons a s ih =>
    rw [markedSuffixes_cons, firstMark]
    split
    · simp
    · rw [ih, Option.map_eq_none_iff]

theorem mem_markedSuffixes_append {front : List α} {a : α} (ht : t ≠ []) (h : mark (some a) t) :
    t ∈ markedSuffixes mark prev (front ++ a :: t) := by
  induction front generalizing prev with
  | nil =>
    rw [List.nil_append, markedSuffixes_cons]
    have hmem := mem_markedSuffixes_self ht h
    split
    · exact List.mem_cons_of_mem _ hmem
    · exact hmem
  | cons b front ih =>
    rw [List.cons_append, markedSuffixes_cons]
    split
    · exact List.mem_cons_of_mem _ ih
    · exact ih

/-- **The pieces and the marks**: the pieces are the list, and from one of them on, but for the
first, they are the suffix at its mark. None of these is empty. -/
theorem cut_spec (prev : Option α) (s : List α) : ∃ first rest, cut mark prev s = first :: rest ∧
    first ++ rest.flatten = s ∧ (∀ piece ∈ rest, piece ≠ []) ∧
    (∀ t, t ∈ markedSuffixes mark prev s ↔ ∃ later, later <:+ rest ∧ later ≠ [] ∧
      t = later.flatten) := by
  induction s generalizing prev with
  | nil =>
    refine ⟨[], [], rfl, rfl, by simp, fun t => iff_of_false List.not_mem_nil ?_⟩
    rintro ⟨later, hsuffix, hne, -⟩
    exact hne (List.suffix_nil.mp hsuffix)
  | cons a s ih =>
    obtain ⟨first, rest, hcut, hflatten, hpieces, hmarked⟩ := ih (some a)
    have hhead : (cut mark (some a) s).modifyHead (a :: ·) = (a :: first) :: rest := by
      rw [hcut, List.modifyHead_cons]
    by_cases hmark : mark prev (a :: s)
    · refine ⟨[], (a :: first) :: rest, ?_, ?_, ?_, fun t => ?_⟩
      · rw [cut, if_pos hmark, hhead]
      · rw [List.nil_append, List.flatten_cons, List.cons_append, hflatten]
      · intro piece hpiece
        rcases List.mem_cons.mp hpiece with rfl | hpiece
        · exact List.cons_ne_nil a first
        · exact hpieces piece hpiece
      · rw [markedSuffixes_cons, if_pos hmark, List.mem_cons, hmarked]
        constructor
        · rintro (rfl | ⟨later, hsuffix, hne, rfl⟩)
          · refine ⟨(a :: first) :: rest, List.suffix_refl _, List.cons_ne_nil _ _, ?_⟩
            rw [List.flatten_cons, List.cons_append, hflatten]
          · exact ⟨later, hsuffix.trans (List.suffix_cons _ _), hne, rfl⟩
        · rintro ⟨later, hsuffix, hne, rfl⟩
          rcases List.suffix_cons_iff.mp hsuffix with rfl | hsuffix
          · left
            rw [List.flatten_cons, List.cons_append, hflatten]
          · exact Or.inr ⟨later, hsuffix, hne, rfl⟩
    · refine ⟨a :: first, rest, ?_, ?_, hpieces, fun t => ?_⟩
      · rw [cut, if_neg hmark, hhead]
      · rw [List.cons_append, hflatten]
      · rw [markedSuffixes_cons, if_neg hmark, hmarked]

theorem firstMark_eq_some (h : firstMark mark prev s = some n) : ∃ front,
    s = front ++ s.drop n ∧ front.length = n ∧ s.drop n ≠ [] ∧
      mark (front.getLast?.or prev) (s.drop n) := by
  induction s generalizing prev n with
  | nil => cases h
  | cons a s ih =>
    rw [firstMark] at h
    split at h
    · next hmark =>
      obtain rfl := Option.some.inj h
      exact ⟨[], rfl, rfl, List.cons_ne_nil a s, by simpa using hmark⟩
    · obtain ⟨n, hn, rfl⟩ := Option.map_eq_some_iff.mp h
      obtain ⟨front, hsplit, hlength, hne, hmark⟩ := ih hn
      refine ⟨a :: front, ?_, by simp [hlength], by simpa using hne, ?_⟩
      · rw [List.drop_succ_cons, List.cons_append, ← hsplit]
      · rw [List.drop_succ_cons, List.getLast?_cons]
        rcases hlast : front.getLast? with - | b
        · rw [hlast] at hmark
          simpa using hmark
        · rw [hlast] at hmark
          simpa using hmark

end OpenCms
