import Mathlib.Data.List.Basic
import Mathlib.Data.List.Perm.Basic
import Mathlib.Data.List.Pairwise

/-!
# Exchange sort by a key, largest first

The sort of two nested loops that compares the current slot with every later one
and swaps where the later key is larger. One turn of the outer loop is
`OpenCms.exchange`: it walks the rest of the list with the current slot in hand.

The comparison is strict, so that a list that is in order is left exactly as it is
(`OpenCms.exchangeSort_of_pairwise`).
-/

namespace OpenCms

section ExchangeSort

variable {α : Type*} (key : α → ℕ)

/-- The inner loop: what ends up in the current slot, and in the later ones. -/
def exchange (x : α) : List α → α × List α
  | [] => (x, [])
  | y :: ys =>
    if key x < key y then
      let (m, rest) := exchange y ys
      (m, x :: rest)
    else
      let (m, rest) := exchange x ys
      (m, y :: rest)

/-- The outer loop, over the slots that are left. -/
def exchangeSortFrom : ℕ → List α → List α
  | fuel + 1, x :: xs =>
    let (m, rest) := exchange key x xs
    m :: exchangeSortFrom fuel rest
  | _, xs => xs

def exchangeSort (xs : List α) : List α := exchangeSortFrom key xs.length xs

theorem exchange_perm (x : α) (ys : List α) :
    ((exchange key x ys).1 :: (exchange key x ys).2).Perm (x :: ys) := by
  induction ys generalizing x with
  | nil => exact List.Perm.refl _
  | cons y ys ih =>
    rw [exchange]
    split
    · exact (List.Perm.swap x _ _).trans ((ih y).cons x)
    · exact ((List.Perm.swap y _ _).trans ((ih x).cons y)).trans (List.Perm.swap x y ys)

theorem length_exchange (x : α) (ys : List α) : (exchange key x ys).2.length = ys.length := by
  simpa using (exchange_perm key x ys).length_eq

theorem exchange_max (x : α) (ys : List α) :
    key x ≤ key (exchange key x ys).1 ∧
      ∀ y ∈ (exchange key x ys).2, key y ≤ key (exchange key x ys).1 := by
  induction ys generalizing x with
  | nil => simp [exchange]
  | cons y ys ih =>
    rw [exchange]
    split
    · next h =>
      obtain ⟨hy, hrest⟩ := ih y
      refine ⟨by simp only; omega, fun z hz => ?_⟩
      rcases List.mem_cons.mp hz with rfl | hz
      · simp only
        omega
      · exact hrest z hz
    · next h =>
      obtain ⟨hx, hrest⟩ := ih x
      refine ⟨hx, fun z hz => ?_⟩
      rcases List.mem_cons.mp hz with rfl | hz
      · simp only
        omega
      · exact hrest z hz

theorem exchangeSortFrom_perm (fuel : ℕ) (xs : List α) :
    (exchangeSortFrom key fuel xs).Perm xs := by
  induction fuel generalizing xs with
  | zero => exact List.Perm.refl _
  | succ fuel ih =>
    cases xs with
    | nil => exact List.Perm.refl _
    | cons x xs =>
      exact ((ih _).cons _).trans (exchange_perm key x xs)

/-- **Sorting only moves the elements around.** -/
theorem exchangeSort_perm (xs : List α) : (exchangeSort key xs).Perm xs :=
  exchangeSortFrom_perm key xs.length xs

theorem exchangeSortFrom_pairwise (fuel : ℕ) (xs : List α) (hfuel : xs.length ≤ fuel) :
    (exchangeSortFrom key fuel xs).Pairwise fun a b => key b ≤ key a := by
  induction fuel generalizing xs with
  | zero =>
    obtain rfl : xs = [] := List.eq_nil_of_length_eq_zero (by omega)
    exact List.Pairwise.nil
  | succ fuel ih =>
    cases xs with
    | nil => exact List.Pairwise.nil
    | cons x xs =>
      rw [List.length_cons] at hfuel
      refine List.pairwise_cons.mpr ⟨fun y hy => ?_, ih _ ?_⟩
      · exact (exchange_max key x xs).2 y ((exchangeSortFrom_perm key fuel _).mem_iff.mp hy)
      · rw [length_exchange]
        omega

/-- **The result is in order**, largest key first. -/
theorem exchangeSort_pairwise (xs : List α) :
    (exchangeSort key xs).Pairwise fun a b => key b ≤ key a :=
  exchangeSortFrom_pairwise key xs.length xs (Nat.le_refl _)

theorem exchange_of_max {x : α} {ys : List α} (h : ∀ y ∈ ys, key y ≤ key x) :
    exchange key x ys = (x, ys) := by
  induction ys with
  | nil => rfl
  | cons y ys ih =>
    have hy := h y List.mem_cons_self
    rw [exchange, if_neg (by omega), ih fun z hz => h z (List.mem_cons_of_mem _ hz)]

theorem exchangeSortFrom_of_pairwise (fuel : ℕ) {xs : List α}
    (h : xs.Pairwise fun a b => key b ≤ key a) : exchangeSortFrom key fuel xs = xs := by
  induction fuel generalizing xs with
  | zero => rfl
  | succ fuel ih =>
    cases xs with
    | nil => rfl
    | cons x xs =>
      obtain ⟨hx, hxs⟩ := List.pairwise_cons.mp h
      rw [exchangeSortFrom, exchange_of_max key hx]
      simp only [ih hxs]

/-- **A list that is in order is left as it is**, equal keys included. -/
theorem exchangeSort_of_pairwise {xs : List α} (h : xs.Pairwise fun a b => key b ≤ key a) :
    exchangeSort key xs = xs :=
  exchangeSortFrom_of_pairwise key xs.length h

end ExchangeSort

end OpenCms
