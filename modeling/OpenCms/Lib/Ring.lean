import OpenCms.Lib.Runs
import Mathlib.Data.List.Basic
import Mathlib.Data.Nat.ModEq
import Mathlib.Logic.Function.Basic

/-!
# Ring buffers

A queue in `n` slots: the elements stand from `head` up to `tail`, wrapping around,
and one slot stays empty so that a full ring can be told from an empty one. The slots
outside that range keep what they last held.

`OpenCms.Ring.Holds` says which list a ring holds. Each operation has its rule:
`OpenCms.Ring.Holds.push`, `OpenCms.Ring.Holds.unpush`, `OpenCms.Ring.Holds.pop`,
`OpenCms.Ring.Holds.modify`.
-/

namespace OpenCms

section Slots

variable {n : ℕ} [NeZero n]

theorem slots_pos : 0 < n := Nat.pos_of_ne_zero (NeZero.ne n)

def slotAt (head : Fin n) (k : ℕ) : Fin n := ⟨(head + k) % n, Nat.mod_lt _ slots_pos⟩

def slotBefore (i : Fin n) : Fin n := ⟨(i + n - 1) % n, Nat.mod_lt _ slots_pos⟩

@[simp] theorem slotAt_zero (head : Fin n) : slotAt head 0 = head := by
  ext
  simp [slotAt, Nat.mod_eq_of_lt head.isLt]

theorem slotAt_slotAt (head : Fin n) (j k : ℕ) :
    slotAt (slotAt head j) k = slotAt head (j + k) := by
  ext
  simp [slotAt, Nat.add_assoc]

theorem slotAt_inj {head : Fin n} {j k : ℕ} (hj : j < n) (hk : k < n)
    (h : slotAt head j = slotAt head k) : j = k := by
  have hmod : (head + j : ℕ) ≡ head + k [MOD n] := congrArg Fin.val h
  have hjk : j ≡ k [MOD n] := hmod.add_left_cancel' _
  rwa [Nat.ModEq, Nat.mod_eq_of_lt hj, Nat.mod_eq_of_lt hk] at hjk

theorem slotBefore_slotAt_one (i : Fin n) : slotBefore (slotAt i 1) = i := by
  ext
  have hi := i.isLt
  simp only [slotBefore, slotAt]
  rcases Nat.lt_or_ge (i + 1) n with h | h
  · rw [Nat.mod_eq_of_lt h, show (i : ℕ) + 1 + n - 1 = i + n by omega, Nat.add_mod_right,
      Nat.mod_eq_of_lt hi]
  · rw [show (i : ℕ) + 1 = n by omega, Nat.mod_self, Nat.mod_eq_of_lt (by omega)]
    omega

end Slots

/-- A ring of `n` slots. -/
structure Ring (α : Type*) (n : ℕ) where
  slots : Fin n → α
  head : Fin n
  tail : Fin n

namespace Ring

variable {α : Type*} {n : ℕ} [NeZero n]

def isEmpty (r : Ring α n) : Bool := r.head == r.tail

/-- The ring is full: one more element would make it look empty. -/
def isFull (r : Ring α n) : Bool := slotAt r.tail 1 == r.head

def front (r : Ring α n) : α := r.slots r.head

/-- The ring with one element more. -/
def push (r : Ring α n) (a : α) : Ring α n :=
  { r with slots := Function.update r.slots r.tail a, tail := slotAt r.tail 1 }

def unpush (r : Ring α n) : Ring α n := { r with tail := slotBefore r.tail }

def pop (r : Ring α n) : Ring α n := { r with head := slotAt r.head 1 }

def modify (r : Ring α n) (i : Fin n) (f : α → α) : Ring α n :=
  { r with slots := Function.update r.slots i (f (r.slots i)) }

/-- **The list a ring holds.** -/
structure Holds (r : Ring α n) (xs : List α) : Prop where
  length_lt : xs.length < n
  tail_eq : r.tail = slotAt r.head xs.length
  slots_eq : ∀ k x, xs[k]? = some x → r.slots (slotAt r.head k) = x

variable {r : Ring α n} {xs : List α}

theorem lt_of_getElem? {k : ℕ} {x : α} (h : xs[k]? = some x) : k < xs.length :=
  (List.getElem?_eq_some_iff.mp h).1

omit [NeZero n] in
theorem front_modify_eq {β : Type*} (g : α → β) (r : Ring α n) (i : Fin n) {f : α → α}
    (h : ∀ a, g (f a) = g a) : g (r.modify i f).front = g r.front := by
  simp only [front, modify]
  by_cases hi : r.head = i
  · rw [hi, Function.update_self, h]
  · rw [Function.update_of_ne hi]

theorem Holds.slotAt_ne_tail (h : r.Holds xs) {k : ℕ} (hk : k < xs.length) :
    slotAt r.head k ≠ r.tail := by
  intro heq
  have hlt := h.length_lt
  have := slotAt_inj (Nat.lt_trans hk hlt) hlt (heq.trans h.tail_eq)
  omega

theorem Holds.isEmpty_iff (h : r.Holds xs) : r.isEmpty = true ↔ xs = [] := by
  rw [isEmpty, beq_iff_eq, h.tail_eq]
  constructor
  · intro heq
    have hlen := slotAt_inj slots_pos h.length_lt ((slotAt_zero r.head).trans heq)
    exact List.eq_nil_of_length_eq_zero hlen.symm
  · rintro rfl
    exact (slotAt_zero r.head).symm

theorem Holds.isFull_iff (h : r.Holds xs) : r.isFull = true ↔ xs.length + 1 = n := by
  have hlt := h.length_lt
  rw [isFull, beq_iff_eq, h.tail_eq, slotAt_slotAt]
  constructor
  · intro heq
    by_contra hne
    have := slotAt_inj (by omega) slots_pos (heq.trans (slotAt_zero r.head).symm)
    omega
  · intro hn
    ext
    simp [slotAt, hn, Nat.mod_eq_of_lt r.head.isLt]

theorem Holds.front_eq {x : α} (h : r.Holds (x :: xs)) : r.front = x := by
  have := h.slots_eq 0 x rfl
  rwa [slotAt_zero] at this

/-- **One element more**, while there is room. -/
theorem Holds.push (h : r.Holds xs) (hfull : r.isFull = false) (a : α) :
    (r.push a).Holds (xs ++ [a]) := by
  have hlt := h.length_lt
  have hroom : xs.length + 1 ≠ n := fun hn => by
    rw [h.isFull_iff.mpr hn] at hfull
    exact absurd hfull (by decide)
  constructor
  · rw [List.length_append, List.length_singleton]
    omega
  · rw [List.length_append, List.length_singleton, ← slotAt_slotAt]
    exact congrArg (slotAt · 1) h.tail_eq
  · intro k x hx
    simp only [Ring.push]
    rcases getElem?_concat hx with hx | ⟨hk, rfl⟩
    · rw [Function.update_of_ne (h.slotAt_ne_tail (lt_of_getElem? hx))]
      exact h.slots_eq k x hx
    · rw [hk, ← h.tail_eq, Function.update_self]

/-- **An element that is taken back** leaves the list as it was, whatever its slot holds
now. -/
theorem Holds.unpush_push (h : r.Holds xs) (a : α) : ((r.push a).unpush).Holds xs := by
  constructor
  · exact h.length_lt
  · simp only [Ring.push, Ring.unpush, slotBefore_slotAt_one]
    exact h.tail_eq
  · intro k x hx
    simp only [Ring.push, Ring.unpush]
    rw [Function.update_of_ne (h.slotAt_ne_tail (lt_of_getElem? hx))]
    exact h.slots_eq k x hx

theorem Holds.pop {x : α} (h : r.Holds (x :: xs)) : r.pop.Holds xs := by
  have hlt := h.length_lt
  rw [List.length_cons] at hlt
  constructor
  · omega
  · simp only [Ring.pop, slotAt_slotAt]
    rw [h.tail_eq, List.length_cons, Nat.add_comm]
  · intro k y hy
    simp only [Ring.pop, slotAt_slotAt]
    exact h.slots_eq (1 + k) y (by rwa [Nat.add_comm, List.getElem?_cons_succ])

theorem Holds.modify (h : r.Holds xs) {k : ℕ} (hk : k < xs.length) (f : α → α) :
    (r.modify (slotAt r.head k) f).Holds (xs.modify k f) := by
  have hlt := h.length_lt
  constructor
  · rwa [List.length_modify]
  · rw [List.length_modify]
    exact h.tail_eq
  · intro j y hy
    simp only [Ring.modify]
    rw [List.getElem?_modify] at hy
    obtain ⟨x, hx, rfl⟩ := Option.map_eq_some_iff.mp hy
    by_cases hjk : k = j
    · subst hjk
      rw [Function.update_self, if_pos rfl, h.slots_eq k x hx]
    · have hne : slotAt r.head j ≠ slotAt r.head k := fun heq =>
        hjk (slotAt_inj (Nat.lt_trans (lt_of_getElem? hx) hlt) (Nat.lt_trans hk hlt) heq).symm
      rw [Function.update_of_ne hne, if_neg hjk]
      exact h.slots_eq j x hx

end Ring

end OpenCms
