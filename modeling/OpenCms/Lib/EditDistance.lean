import Mathlib.Order.Bounds.Defs
import Mathlib.Order.MinMax
import Mathlib.Data.List.Basic

/-!
# The distance of two lists

One list is made of another by inserting, deleting and replacing elements. The least number of
elements that are touched is their distance, and it can be found element by element
(`OpenCms.isLeast_editDistance`).
-/

namespace OpenCms

/-- The one list is made of the other by touching so many elements. -/
inductive Edits {α : Type} : List α → List α → ℕ → Prop
  | nil : Edits [] [] 0
  | keep {a b : List α} {n : ℕ} (c : α) : Edits a b n → Edits (c :: a) (c :: b) n
  | replace {a b : List α} {n : ℕ} (c d : α) : Edits a b n → Edits (c :: a) (d :: b) (n + 1)
  | delete {a b : List α} {n : ℕ} (c : α) : Edits a b n → Edits (c :: a) b (n + 1)
  | insert {a b : List α} {n : ℕ} (d : α) : Edits a b n → Edits a (d :: b) (n + 1)

variable {α : Type} {a b : List α} {n : ℕ}

namespace Edits

theorem append {a' b' : List α} {m : ℕ} (h : Edits a b n) (h' : Edits a' b' m) :
    Edits (a ++ a') (b ++ b') (n + m) := by
  induction h with
  | nil => rwa [Nat.zero_add]
  | keep c _ ih => exact ih.keep c
  | replace c d _ ih =>
    rw [Nat.add_right_comm]
    exact ih.replace c d
  | delete c _ ih =>
    rw [Nat.add_right_comm]
    exact ih.delete c
  | insert d _ ih =>
    rw [Nat.add_right_comm]
    exact ih.insert d

theorem reverse (h : Edits a b n) : Edits a.reverse b.reverse n := by
  induction h with
  | nil => exact nil
  | keep c _ ih =>
    rw [List.reverse_cons, List.reverse_cons]
    exact ih.append (.keep c .nil)
  | replace c d _ ih =>
    rw [List.reverse_cons, List.reverse_cons]
    exact ih.append (.replace c d .nil)
  | delete c _ ih =>
    rw [List.reverse_cons]
    simpa using ih.append (.delete c .nil)
  | insert d _ ih =>
    rw [List.reverse_cons]
    simpa using ih.append (.insert d .nil)

theorem reverse_iff : Edits a.reverse b.reverse n ↔ Edits a b n :=
  ⟨fun h => by simpa using h.reverse, reverse⟩

theorem of_nil (b : List α) : Edits [] b b.length := by
  induction b with
  | nil => exact nil
  | cons d b ih => exact ih.insert d

theorem to_nil (a : List α) : Edits a [] a.length := by
  induction a with
  | nil => exact nil
  | cons c a ih => exact ih.delete c

end Edits

variable [DecidableEq α]

def editDistance : List α → List α → ℕ
  | [], b => b.length
  | a, [] => a.length
  | c :: a, d :: b =>
    min (min (editDistance a (d :: b) + 1) (editDistance (c :: a) b + 1))
      (editDistance a b + if c = d then 0 else 1)
termination_by a b => a.length + b.length

theorem editDistance_nil_left (b : List α) : editDistance [] b = b.length := by
  rw [editDistance]

theorem editDistance_nil_right (a : List α) : editDistance a [] = a.length := by
  cases a with
  | nil => rw [editDistance]
  | cons c a => rw [editDistance]; exact nofun

theorem editDistance_cons_cons (c d : α) (a b : List α) : editDistance (c :: a) (d :: b) =
    min (min (editDistance a (d :: b) + 1) (editDistance (c :: a) b + 1))
      (editDistance a b + if c = d then 0 else 1) := by
  rw [editDistance]

theorem edits_editDistance (a b : List α) : Edits a b (editDistance a b) := by
  fun_induction editDistance a b with
  | case1 b => exact .of_nil b
  | case2 a => exact .to_nil a
  | case3 c a d b hdelete hinsert hboth =>
    rcases min_choice (min (editDistance a (d :: b) + 1) (editDistance (c :: a) b + 1))
      (editDistance a b + if c = d then 0 else 1) with heq | heq
    · rw [heq]
      rcases min_choice (editDistance a (d :: b) + 1) (editDistance (c :: a) b + 1) with heq | heq
      · rw [heq]
        exact hdelete.delete c
      · rw [heq]
        exact hinsert.insert d
    · rw [heq]
      split
      · next hsame =>
        rw [hsame]
        exact hboth.keep d
      · exact hboth.replace c d

theorem editDistance_cons_left_le (c : α) (a b : List α) :
    editDistance (c :: a) b ≤ editDistance a b + 1 := by
  cases b with
  | nil => rw [editDistance_nil_right, editDistance_nil_right, List.length_cons]
  | cons d b =>
    rw [editDistance_cons_cons]
    exact (min_le_left _ _).trans (min_le_left _ _)

theorem editDistance_cons_right_le (d : α) (a b : List α) :
    editDistance a (d :: b) ≤ editDistance a b + 1 := by
  cases a with
  | nil => rw [editDistance_nil_left, editDistance_nil_left, List.length_cons]
  | cons c a =>
    rw [editDistance_cons_cons]
    exact (min_le_left _ _).trans (min_le_right _ _)

theorem editDistance_cons_cons_le (c d : α) (a b : List α) : editDistance (c :: a) (d :: b) ≤
    editDistance a b + if c = d then 0 else 1 := by
  rw [editDistance_cons_cons]
  exact min_le_right _ _

/-- **The distance is the least number of elements that are touched.** -/
theorem isLeast_editDistance (a b : List α) : IsLeast {n | Edits a b n} (editDistance a b) := by
  refine ⟨edits_editDistance a b, fun n h => ?_⟩
  induction h with
  | nil => rw [editDistance_nil_left]; rfl
  | @keep a b n c _ ih =>
    have hle := editDistance_cons_cons_le c c a b
    rw [if_pos rfl] at hle
    exact hle.trans ih
  | @replace a b n c d _ ih =>
    have hle := editDistance_cons_cons_le c d a b
    split at hle <;> omega
  | delete c _ ih => exact (editDistance_cons_left_le c _ _).trans (Nat.add_le_add_right ih 1)
  | insert d _ ih => exact (editDistance_cons_right_le d _ _).trans (Nat.add_le_add_right ih 1)

end OpenCms
