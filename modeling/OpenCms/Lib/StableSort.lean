import Mathlib.Data.List.Sort

/-!
# What a stable sort makes neighbours of

After a stable sort two elements stand in the order of their keys, and where the keys are the same
in the order in which they stood before. So a relation that holds of any two elements in a sorted
list is one that holds of any two in the list before, one way round or the other
(`OpenCms.StableSort.pairwise_insertionSort_iff`).
-/

namespace OpenCms.StableSort

variable {α : Type*} (le : α → α → Prop) [DecidableRel le]

/-- The relation in the order in which a stable sort puts two elements. -/
def Sorted (R : α → α → Prop) (a b : α) : Prop := if le a b then R a b else R b a

variable {le} {R : α → α → Prop} {a : α} {l : List α}

theorem pairwise_orderedInsert_iff [IsTrans α le] (h : l.Pairwise le) :
    (l.orderedInsert le a).Pairwise R ↔ l.Pairwise R ∧ ∀ b ∈ l, Sorted le R a b := by
  induction l with
  | nil => simp
  | cons b l ih =>
    obtain ⟨hb, hl⟩ := List.pairwise_cons.mp h
    rw [List.orderedInsert_cons]
    split
    next hab =>
      -- all that come after are not less either
      have hall : ∀ c ∈ b :: l, Sorted le R a c ↔ R a c := by
        intro c hc
        have hac : le a c := by
          rcases List.mem_cons.mp hc with rfl | hc
          · exact hab
          · exact IsTrans.trans a b c hab (hb c hc)
        rw [Sorted, if_pos hac]
      rw [List.pairwise_cons, and_comm, forall₂_congr hall]
    next hab =>
      have hba : Sorted le R a b ↔ R b a := by rw [Sorted, if_neg hab]
      have hins : (∀ c ∈ l.orderedInsert le a, R b c) ↔ R b a ∧ ∀ c ∈ l, R b c := by
        simp only [List.mem_orderedInsert, forall_eq_or_imp]
      rw [List.pairwise_cons, ih hl, hins, List.pairwise_cons, List.forall_mem_cons, hba]
      exact ⟨fun ⟨⟨h1, h2⟩, h3, h4⟩ => ⟨⟨h2, h3⟩, h1, h4⟩,
        fun ⟨⟨h2, h3⟩, h1, h4⟩ => ⟨⟨h1, h2⟩, h3, h4⟩⟩

/-- **Any two elements of the sorted list** are any two of the list, in the order of the sort. -/
theorem pairwise_insertionSort_iff [IsTrans α le] [Std.Total le] :
    (l.insertionSort le).Pairwise R ↔ l.Pairwise (Sorted le R) := by
  induction l with
  | nil => simp
  | cons a l ih =>
    rw [List.insertionSort_cons,
      pairwise_orderedInsert_iff (List.pairwise_insertionSort le l), ih, List.pairwise_cons,
      and_comm]
    simp only [List.mem_insertionSort]

end OpenCms.StableSort
