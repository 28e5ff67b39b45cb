import Mathlib.Data.List.Basic

/-!
# The last element with a property

A walk through a list from its end, to the first element that it is looking for. What it finds is
told with what comes after it in the list.
-/

namespace OpenCms

variable {α : Type*} {p : α → Bool} {l l' after : List α} {a : α}

/-- The last element with the property, and what comes after it. -/
def lastMatch (p : α → Bool) : List α → Option (α × List α)
  | [] => none
  | a :: l => (lastMatch p l).or (if p a then some (a, l) else none)

theorem lastMatch_eq_none : lastMatch p l = none ↔ ∀ a ∈ l, p a = false := by
  induction l with
  | nil => simp [lastMatch]
  | cons a l ih =>
    rw [lastMatch, Option.or_eq_none_iff, ih, List.forall_mem_cons, and_comm]
    simp

theorem lastMatch_eq_some : lastMatch p l = some (a, after) ↔
    ∃ before, l = before ++ a :: after ∧ p a ∧ ∀ b ∈ after, p b = false := by
  induction l with
  | nil => simp [lastMatch]
  | cons b l ih =>
    rw [lastMatch, Option.or_eq_some_iff, ih, lastMatch_eq_none]
    constructor
    · rintro (⟨before, rfl, ha, hafter⟩ | ⟨hnone, h⟩)
      · exact ⟨b :: before, rfl, ha, hafter⟩
      · split at h
        next hb =>
          cases h
          exact ⟨[], rfl, hb, hnone⟩
        next => cases h
    · rintro ⟨before, heq, ha, hafter⟩
      cases before with
      | nil =>
        obtain ⟨rfl, rfl⟩ := List.cons.inj heq
        exact Or.inr ⟨hafter, if_pos ha⟩
      | cons c before =>
        obtain ⟨rfl, rfl⟩ := List.cons.inj heq
        exact Or.inl ⟨before, rfl, ha, hafter⟩

theorem lastMatch_append : lastMatch p (l ++ l') =
    (lastMatch p l').or ((lastMatch p l).map fun found => (found.1, found.2 ++ l')) := by
  induction l with
  | nil => simp [lastMatch]
  | cons a l ih =>
    rw [List.cons_append, lastMatch, ih, lastMatch, Option.or_assoc]
    cases lastMatch p l with
    | none => split <;> rfl
    | some found => rfl

theorem lastMatch_drop (n : ℕ) : lastMatch p (l.drop n) =
    (lastMatch p l).filter fun found => n + found.2.length < l.length := by
  have happend : lastMatch p (l.take n ++ l.drop n) = _ := lastMatch_append
  rw [List.take_append_drop] at happend
  rw [happend]
  cases hdrop : lastMatch p (l.drop n) with
  | some found =>
    obtain ⟨a, after⟩ := found
    obtain ⟨before, heq, -, -⟩ := lastMatch_eq_some.mp hdrop
    have hlen := congrArg List.length heq
    rw [List.length_drop, List.length_append, List.length_cons] at hlen
    rw [Option.some_or, Option.filter_some, if_pos]
    exact decide_eq_true (by show n + after.length < l.length; omega)
  | none =>
    rw [Option.none_or]
    cases lastMatch p (l.take n) with
    | none => rfl
    | some found =>
      rw [Option.map_some, Option.filter_some, if_neg]
      simp only [List.length_append, List.length_drop, decide_eq_true_eq]
      omega

end OpenCms
