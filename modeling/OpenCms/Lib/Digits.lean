import Mathlib.Data.List.Lex
import Mathlib.Data.Nat.Basic
import Mathlib.Data.Set.Function
import Mathlib.Algebra.Order.Group.Nat
import Mathlib.Order.Basic

/-!
# Numbers as digits of a fixed width

The last digits of a number, the highest first. Lists of digits are compared from the left, so that
they compare as the numbers do that the digits make (`OpenCms.digits_lt_iff`). That stays so when
each digit is written as two of a smaller base (`OpenCms.flatMap_digits`), and when the digits are
replaced by others in the same order (`OpenCms.map_lt_map_iff`).
-/

namespace OpenCms

/-- The last `width` digits of a number, the highest first. -/
def digits (base : ℕ) : ℕ → ℕ → List ℕ
  | 0, _ => []
  | width + 1, n => n / base ^ width % base :: digits base width n

section Digits

variable {base : ℕ} {n m : ℕ}

@[simp] theorem length_digits (width : ℕ) : (digits base width n).length = width := by
  induction width with
  | zero => rfl
  | succ width ih => rw [digits, List.length_cons, ih]

theorem lt_of_mem_digits (hbase : 0 < base) {width d : ℕ} (h : d ∈ digits base width n) :
    d < base := by
  induction width with
  | zero => cases h
  | succ width ih =>
    rcases List.mem_cons.mp h with rfl | h
    · exact Nat.mod_lt _ hbase
    · exact ih h

theorem add_mul_lt_iff {place a a' d d' : ℕ} (ha : a < place) (ha' : a' < place) :
    a + place * d < a' + place * d' ↔ d < d' ∨ d = d' ∧ a < a' := by
  rcases Nat.lt_trichotomy d d' with hlt | rfl | hgt
  · have hle := Nat.mul_le_mul_left place hlt
    rw [Nat.mul_succ] at hle
    exact iff_of_true (by omega) (Or.inl hlt)
  · simp
  · have hle := Nat.mul_le_mul_left place hgt
    rw [Nat.mul_succ] at hle
    exact iff_of_false (by omega) (by omega)

theorem eq_iff_of_lt_iff {α β : Type*} [LinearOrder α] [LinearOrder β] {x y : α} {u v : β}
    (hlt : x < y ↔ u < v) (hgt : y < x ↔ v < u) : x = y ↔ u = v := by
  rw [le_antisymm_iff, le_antisymm_iff, ← not_lt, ← not_lt, ← not_lt, ← not_lt, hlt, hgt]

/-- **Digits compare as the numbers do that they make.** -/
theorem digits_lt_iff (hbase : 0 < base) (width : ℕ) :
    digits base width n < digits base width m ↔ n % base ^ width < m % base ^ width := by
  induction width with
  | zero => simp [digits, Nat.mod_one]
  | succ width ih =>
    have hn := Nat.mod_lt n (Nat.pow_pos hbase (n := width))
    have hm := Nat.mod_lt m (Nat.pow_pos hbase (n := width))
    rw [digits, digits, List.cons_lt_cons_iff, ih, Nat.pow_succ, Nat.mod_mul, Nat.mod_mul,
      add_mul_lt_iff hn hm]

theorem digits_eq_iff (hbase : 0 < base) (width : ℕ) :
    digits base width n = digits base width m ↔ n % base ^ width = m % base ^ width :=
  eq_iff_of_lt_iff (digits_lt_iff hbase width) (digits_lt_iff hbase width)

/-- **Digits make the number again**, up to what the width cuts off. -/
theorem foldl_digits (width a : ℕ) :
    (digits base width n).foldl (fun a d => base * a + d) a =
      base ^ width * a + n % base ^ width := by
  induction width generalizing a with
  | zero => simp [digits, Nat.mod_one]
  | succ width ih =>
    have hmod : n % base ^ (width + 1) =
        n % base ^ width + base ^ width * (n / base ^ width % base) := by
      rw [Nat.pow_succ, Nat.mod_mul]
    rw [digits, List.foldl_cons, ih, hmod, Nat.pow_succ, Nat.mul_add, Nat.mul_assoc]
    omega

/-- **Each digit may be written as two of the smaller base.** -/
theorem flatMap_digits (width : ℕ) :
    (digits (base * base) width n).flatMap (fun d => [d / base, d % base]) =
      digits base (2 * width) n := by
  induction width with
  | zero => rfl
  | succ width ih =>
    have hpow : (base * base) ^ width = base ^ (2 * width) := by
      rw [Nat.mul_pow, ← Nat.pow_add, Nat.two_mul]
    have hhigh : n / base ^ (2 * width) % (base * base) / base =
        n / base ^ (2 * width + 1) % base := by
      rw [Nat.mod_mul_left_div_self, Nat.div_div_eq_div_mul, ← Nat.pow_succ]
    rw [digits, List.flatMap_cons, ih, hpow, hhigh, Nat.mod_mul_left_mod]
    rfl

end Digits

/-! ### Lists that are compared from the left -/

section Lex

variable {α β : Type*} [LinearOrder α] [LinearOrder β]

theorem append_lt_append_iff {xs ys us vs : List α} (h : xs.length = ys.length) :
    xs ++ us < ys ++ vs ↔ xs < ys ∨ xs = ys ∧ us < vs := by
  induction xs generalizing ys with
  | nil =>
    obtain rfl := List.length_eq_zero_iff.mp h.symm
    simp
  | cons x xs ih =>
    cases ys with
    | nil => cases h
    | cons y ys =>
      have hlength : xs.length = ys.length := by simpa using h
      rw [List.cons_append, List.cons_append, List.cons_lt_cons_iff, ih hlength,
        List.cons_lt_cons_iff, List.cons.injEq]
      tauto

/-- **Entries may be replaced by others in the same order.** -/
theorem map_lt_map_iff {f : α → β} {s : Set α} (hf : StrictMonoOn f s) {xs ys : List α}
    (hxs : ∀ x ∈ xs, x ∈ s) (hys : ∀ y ∈ ys, y ∈ s) :
    xs.map f < ys.map f ↔ xs < ys := by
  induction xs generalizing ys with
  | nil => cases ys <;> simp
  | cons x xs ih =>
    cases ys with
    | nil => simp
    | cons y ys =>
      obtain ⟨hx, hxs⟩ := List.forall_mem_cons.mp hxs
      obtain ⟨hy, hys⟩ := List.forall_mem_cons.mp hys
      rw [List.map_cons, List.map_cons, List.cons_lt_cons_iff, List.cons_lt_cons_iff, ih hxs hys,
        hf.lt_iff_lt hx hy, hf.injOn.eq_iff hx hy]

theorem map_eq_map_iff {f : α → β} {s : Set α} (hf : StrictMonoOn f s) {xs ys : List α}
    (hxs : ∀ x ∈ xs, x ∈ s) (hys : ∀ y ∈ ys, y ∈ s) :
    xs.map f = ys.map f ↔ xs = ys :=
  eq_iff_of_lt_iff (map_lt_map_iff hf hxs hys) (map_lt_map_iff hf hys hxs)

end Lex

end OpenCms
