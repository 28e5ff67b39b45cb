import Mathlib.Algebra.BigOperators.Group.List.Basic
import Mathlib.Algebra.Order.Group.Nat
import Mathlib.Algebra.GroupWithZero.Nat

/-!
# What fits, from the end

A list is taken from its end as long as the sizes of what is taken, together, are within a limit.
The last element is taken in any case. What is taken is the longest suffix that fits, or, if none
does, the last element alone.
-/

namespace OpenCms

variable {α : Type*} (size : α → ℕ) (limit : ℕ)

/-- The loop, with what is used of the limit, what is taken, and what comes before, the last one
first. -/
def takeFitting : ℕ → List α → List α → List α
  | _, taken, [] => taken
  | used, taken, a :: before =>
    if !taken.isEmpty && limit < used + size a then taken
    else takeFitting (used + size a) (a :: taken) before

def fittingSuffix (used : ℕ) (l : List α) : List α := takeFitting size limit used [] l.reverse

variable {size limit} {used : ℕ} {l taken before : List α} {a : α}

theorem takeFitting_spec (used : ℕ) (taken before : List α)
    (hfits : taken.length ≤ 1 ∨ used ≤ limit) :
    ∃ kept rest, before = kept ++ rest ∧
      takeFitting size limit used taken before = kept.reverse ++ taken ∧
      ((kept.reverse ++ taken).length ≤ 1 ∨ used + (kept.map size).sum ≤ limit) ∧
      ∀ a ∈ rest.head?, kept.reverse ++ taken ≠ [] ∧
        limit < used + (kept.map size).sum + size a := by
  induction before generalizing used taken with
  | nil => exact ⟨[], [], rfl, rfl, by simpa using hfits, by simp⟩
  | cons a before ih =>
    rw [takeFitting]
    by_cases hstop : (!taken.isEmpty && limit < used + size a) = true
    · -- It does not fit, and something is taken already.
      rw [if_pos hstop]
      simp only [Bool.and_eq_true, Bool.not_eq_true', List.isEmpty_eq_false_iff,
        decide_eq_true_eq] at hstop
      refine ⟨[], a :: before, rfl, rfl, by simpa using hfits, fun a' ha' => ?_⟩
      obtain rfl : a = a' := by simpa using ha'
      exact ⟨by simpa using hstop.1, by simpa using hstop.2⟩
    · rw [if_neg hstop]
      have hnext : (a :: taken).length ≤ 1 ∨ used + size a ≤ limit := by
        rcases eq_or_ne taken [] with rfl | hne
        · exact Or.inl (Nat.le_refl 1)
        · refine Or.inr (Nat.le_of_not_lt fun hlt => hstop ?_)
          simp [hne, hlt]
      obtain ⟨kept, rest, rfl, hres, hsum, hrest⟩ := ih (used + size a) (a :: taken) hnext
      refine ⟨a :: kept, rest, rfl, by simpa using hres, ?_, fun a' ha' => ?_⟩
      · rw [List.reverse_cons, List.append_assoc, List.singleton_append, List.map_cons,
          List.sum_cons]
        exact hsum.imp_right fun h => by omega
      · obtain ⟨hne, hlt⟩ := hrest a' ha'
        rw [List.reverse_cons, List.append_assoc, List.singleton_append, List.map_cons,
          List.sum_cons]
        exact ⟨hne, by omega⟩

/-- **What is taken**: a suffix, which fits or is at most one element; and whatever comes before it
does not fit in addition. -/
theorem fittingSuffix_spec (used : ℕ) (l : List α) : ∃ before,
    l = before ++ fittingSuffix size limit used l ∧
      ((fittingSuffix size limit used l).length ≤ 1 ∨
        used + ((fittingSuffix size limit used l).map size).sum ≤ limit) ∧
      ∀ a ∈ before.getLast?, fittingSuffix size limit used l ≠ [] ∧
        limit < used + ((fittingSuffix size limit used l).map size).sum + size a := by
  obtain ⟨kept, rest, hsplit, hres, hsum, hrest⟩ :=
    @takeFitting_spec _ size limit used [] l.reverse (Or.inl (Nat.zero_le 1))
  rw [List.append_nil] at hres hsum hrest
  have hperm : (kept.reverse.map size).sum = (kept.map size).sum := by
    rw [List.map_reverse, List.sum_reverse]
  have hsuffix : fittingSuffix size limit used l = kept.reverse := hres
  refine ⟨rest.reverse, ?_, ?_, ?_⟩
  · rw [hsuffix, ← List.reverse_append, ← hsplit, List.reverse_reverse]
  · rwa [hsuffix, hperm]
  · rw [hsuffix, hperm, List.getLast?_reverse]
    exact hrest

theorem fittingSuffix_isSuffix : fittingSuffix size limit used l <:+ l := by
  obtain ⟨before, hsplit, -⟩ := @fittingSuffix_spec _ size limit used l
  exact ⟨before, hsplit.symm⟩

theorem fittingSuffix_ne_nil (h : l ≠ []) : fittingSuffix size limit used l ≠ [] := by
  obtain ⟨before, hsplit, -, hbefore⟩ :=
    @fittingSuffix_spec _ size limit used l
  rcases hlast : before.getLast? with - | a
  · rw [List.getLast?_eq_none_iff.mp hlast, List.nil_append] at hsplit
    rwa [← hsplit]
  · exact (hbefore a hlast).1

theorem sum_le_of_isSuffix {s t : List α} (h : s <:+ t) : (s.map size).sum ≤ (t.map size).sum := by
  obtain ⟨before, rfl⟩ := h
  rw [List.map_append, List.sum_append]
  omega

theorem isSuffix_fittingSuffix {s : List α} (hs : s <:+ l)
    (hfits : used + (s.map size).sum ≤ limit) : s <:+ fittingSuffix size limit used l := by
  obtain ⟨before, hsplit, -, hbefore⟩ :=
    @fittingSuffix_spec _ size limit used l
  generalize fittingSuffix size limit used l = kept at hsplit hbefore ⊢
  subst hsplit
  rcases List.suffix_or_suffix_of_suffix hs (List.suffix_append before kept) with h | h
  · exact h
  · obtain ⟨more, rfl⟩ := h
    rcases more.eq_nil_or_concat with rfl | ⟨init, a, rfl⟩
    · exact ⟨[], rfl⟩
    · -- The element before what is taken would fit in addition.
      exfalso
      obtain ⟨front, hfront⟩ := hs
      rw [List.concat_eq_append, ← List.append_assoc] at hfront
      have hlast : a ∈ before.getLast? := by
        have hbefore_eq := List.append_cancel_right hfront
        rw [← hbefore_eq, ← List.append_assoc]
        simp
      have hlt := (hbefore a hlast).2
      rw [List.concat_eq_append, List.map_append, List.map_append, List.sum_append,
        List.sum_append] at hfits
      simp only [List.map_cons, List.map_nil, List.sum_singleton] at hfits
      omega

theorem fittingSuffix_fits {s : List α} (hs : s <:+ l) (hne : s ≠ [])
    (hfits : used + (s.map size).sum ≤ limit) :
    used + ((fittingSuffix size limit used l).map size).sum ≤ limit := by
  obtain ⟨before, -, hshort | hsum, -⟩ :=
    @fittingSuffix_spec _ size limit used l
  · -- One element is taken, and it is the last one.
    have hsub := isSuffix_fittingSuffix hs hfits
    have hlength := hsub.length_le
    have hpos := List.length_pos_iff.mpr hne
    have heq := hsub.eq_of_length (by omega)
    rwa [← heq]
  · exact hsum

end OpenCms
