import OpenCms.Lib.EditDistance
import OpenCms.Tool.Replace

/-!
# The distance of two lines

How much alike two lines are is told by their distance. It is found row by row in a matrix, of which
only the last row is kept: each cell is the distance of the part of one line that has been gone
through and a part of the other.
-/

namespace OpenCms.Edit

/-- The cells of a row behind the first, for what is gone through of both lines and what is left of
one. What is gone through stands in reverse. -/
def cells (p q : JsString) : JsString → List ℕ
  | [] => []
  | d :: b => editDistance p (d :: q) :: cells p (d :: q) b

variable {a b p q : JsString}

theorem nextRow_cells (c : UInt16) :
    nextRow c b (editDistance p q) (cells p q b) (editDistance (c :: p) q) =
      editDistance (c :: p) q :: cells (c :: p) q b := by
  induction b generalizing q with
  | nil => rfl
  | cons d b ih =>
    rw [cells, cells, nextRow, ← editDistance_cons_cons, ih]

theorem lastRow_cells :
    lastRow b a p.length (editDistance p [] :: cells p [] b) =
      editDistance (a.reverse ++ p) [] :: cells (a.reverse ++ p) [] b := by
  induction a generalizing p with
  | nil => rfl
  | cons c a ih =>
    have hleft : p.length + 1 = editDistance (c :: p) [] := by
      rw [editDistance_nil_right, List.length_cons]
    have hrow := @ih (c :: p)
    rw [List.length_cons] at hrow
    rw [lastRow, List.headD_cons, List.tail_cons, hleft, nextRow_cells, ← hleft]
    simpa [hleft] using hrow

theorem range_eq_cells : List.range' q.length (b.length + 1) =
    editDistance [] q :: cells [] q b := by
  induction b generalizing q with
  | nil => rw [editDistance_nil_left]; rfl
  | cons d b ih =>
    rw [cells, ← ih, editDistance_nil_left, List.length_cons, List.range'_succ]
    rfl

theorem getLastD_cells (n : ℕ) :
    (editDistance p q :: cells p q b).getLastD n = editDistance p (b.reverse ++ q) := by
  induction b generalizing q n with
  | nil => rfl
  | cons d b ih =>
    rw [cells, List.getLastD_cons, ih]
    simp

/-- **The matrix has the distance of the lines, read from their ends, in its last cell.** -/
theorem levenshtein_eq (a b : JsString) :
    levenshtein a b = editDistance a.reverse b.reverse := by
  rw [levenshtein]
  split
  · next hempty =>
    rcases hempty with rfl | rfl
    · simp [editDistance_nil_left]
    · simp [editDistance_nil_right]
  · have hfirst : List.range (b.length + 1) = editDistance ([] : JsString) [] :: cells [] [] b := by
      rw [List.range_eq_range', ← range_eq_cells]
      rfl
    have hrow := @lastRow_cells a b []
    rw [List.length_nil] at hrow
    rw [hfirst, hrow, getLastD_cells, List.append_nil, List.append_nil]

/-- **`levenshtein` is the least number of units that have to be inserted, deleted or replaced.** -/
theorem isLeast_levenshtein (a b : JsString) : IsLeast {n | Edits a b n} (levenshtein a b) := by
  have hleast := isLeast_editDistance a.reverse b.reverse
  simp only [Edits.reverse_iff] at hleast
  rwa [levenshtein_eq]

end OpenCms.Edit
