import Mathlib.Data.List.Basic
import Mathlib.Data.List.DropRight
import Mathlib.Data.List.Infix

/-!
# Text and its lines

A patch and the files it is about are text, which travels as UTF-8: a list of characters.
This module has what the patch code does with text before it looks at patches:
cutting it into lines and putting it together again, and trimming.
-/

namespace OpenCms.Patch

abbrev Text : Type := List Char

abbrev Line : Type := List Char

def txt (s : String) : Text := s.toList

def split (t : Text) : List Line := t.splitOn '\n'

def join (ls : List Line) : Text := ['\n'].intercalate ls

theorem join_split (t : Text) : join (split t) = t := List.intercalate_splitOn '\n'

theorem split_join {ls : List Line} (h : ∀ l ∈ ls, '\n' ∉ l) (hne : ls ≠ []) :
    split (join ls) = ls := List.splitOn_intercalate '\n' h hne

theorem split_ne_nil (t : Text) : split t ≠ [] := List.splitOn_ne_nil '\n' t

theorem not_mem_of_mem_split {t : Text} {l : Line} (h : l ∈ split t) : '\n' ∉ l := by
  unfold split at h
  induction t generalizing l with
  | nil =>
    obtain rfl : l = [] := by simpa using h
    simp
  | cons c t ih =>
    rw [List.splitOn_cons_eq_if_modifyHead] at h
    split at h
    · rcases List.mem_cons.mp h with rfl | h
      · simp
      · exact ih h
    next hc =>
      obtain ⟨l', ls, hls⟩ := List.exists_cons_of_ne_nil (List.splitOn_ne_nil '\n' t)
      rw [hls] at h ih
      rcases List.mem_cons.mp h with rfl | h
      · have hc' : c ≠ '\n' := by simpa using hc
        simpa [hc'.symm] using ih List.mem_cons_self
      · exact ih (List.mem_cons_of_mem _ h)

theorem join_cons_cons (l l' : Line) (ls : List Line) :
    join (l :: l' :: ls) = l ++ '\n' :: join (l' :: ls) := by
  simp [join, List.intercalate_cons_cons]

/-! ### Trimming -/

/-- The characters that `trim` takes away: white space and line ends. -/
def isSpace (c : Char) : Bool :=
  let n := c.toNat
  (0x9 ≤ n && n ≤ 0xD) || n = 0x20 || n = 0xA0 || n = 0x1680 || (0x2000 ≤ n && n ≤ 0x200A) ||
    n = 0x2028 || n = 0x2029 || n = 0x202F || n = 0x205F || n = 0x3000 || n = 0xFEFF

def trimStart (t : Text) : Text := t.dropWhile isSpace

def trimEnd (t : Text) : Text := t.rdropWhile isSpace

def trim (t : Text) : Text := trimEnd (trimStart t)

theorem trim_cons_space {c : Char} (hc : isSpace c = true) (t : Text) :
    trim (c :: t) = trim t := by
  rw [trim, trimStart, List.dropWhile_cons_of_pos hc]
  rfl

theorem trim_cons {c : Char} (hc : isSpace c = false) (t : Text) :
    trim (c :: t) = trimEnd (c :: t) := by
  rw [trim, trimStart, List.dropWhile_cons_of_neg (by simp [hc])]

theorem trim_cons_isPrefix {c : Char} (hc : isSpace c = false) (t : Text) :
    trim (c :: t) <+: c :: t := by
  rw [trim_cons hc]
  exact List.rdropWhile_prefix _ _

theorem trim_of_ends {c d : Char} (hc : isSpace c = false) (hd : isSpace d = false) {t u : Text}
    (h : c :: t = u ++ [d]) : trim (c :: t) = c :: t := by
  rw [trim_cons hc, h]
  exact List.rdropWhile_concat_neg _ _ _ (by simp [hd])

end OpenCms.Patch
