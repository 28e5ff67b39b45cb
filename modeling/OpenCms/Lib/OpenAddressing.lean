import OpenCms.Lib.Ring

/-!
# Sets with open addressing

A set of keys in `n` slots: a key is looked for from the slot of its hash on, one slot
after the other, up to a free one. Nothing is ever removed, so that the slots before a
key stay in use (`OpenCms.ProbeSet.Reachable`), and a key that stands in the table is
found (`OpenCms.ProbeSet.contains_iff`).

A full table takes no new key; `OpenCms.ProbeSet.contains_insert` says that it takes
one as long as a slot is free, and `OpenCms.ProbeSet.contains_insert_of_ne` that the
answer for the other keys is the same in either case.
-/

namespace OpenCms

/-- A table of `n` slots, each free or in use. -/
abbrev ProbeSet (α : Type*) (n : ℕ) : Type _ := Fin n → Option α

namespace ProbeSet

variable {α : Type*} [DecidableEq α] {n : ℕ} [NeZero n] (hash : α → Fin n)

/-- The search for a key from the `i`-th slot on, with `fuel` slots left to look at. -/
def containsFrom (t : ProbeSet α n) (a : α) : ℕ → ℕ → Bool
  | 0, _ => false
  | fuel + 1, i =>
    match t (slotAt (hash a) i) with
    | none => false
    | some b => if b = a then true else containsFrom t a fuel (i + 1)

/-- Whether a key is in the set. -/
def contains (t : ProbeSet α n) (a : α) : Bool := containsFrom hash t a n 0

def insertFrom (t : ProbeSet α n) (a : α) : ℕ → ℕ → ProbeSet α n
  | 0, _ => t
  | fuel + 1, i =>
    match t (slotAt (hash a) i) with
    | none => Function.update t (slotAt (hash a) i) (some a)
    | some b => if b = a then t else insertFrom t a fuel (i + 1)

/-- The set with one key more, if there is a slot for it. -/
def insert (t : ProbeSet α n) (a : α) : ProbeSet α n := insertFrom hash t a n 0

def empty : ProbeSet α n := fun _ => none

/-- **Every key can be reached**: no slot is free between the slot of its hash and its
own. -/
def Reachable (t : ProbeSet α n) : Prop :=
  ∀ j a, t j = some a → ∃ i < n, j = slotAt (hash a) i ∧ ∀ k < i, t (slotAt (hash a) k) ≠ none

variable {hash} {t : ProbeSet α n} {a : α}

omit [DecidableEq α] in
theorem reachable_empty : Reachable hash (empty : ProbeSet α n) := by
  intro j a h
  simp [empty] at h

omit [DecidableEq α] in
theorem exists_slotAt (head j : Fin n) : ∃ i < n, j = slotAt head i := by
  have hj := j.isLt
  rcases Nat.lt_or_ge (j : ℕ) head with hlt | hge
  · refine ⟨n + j - head, by omega, Fin.ext ?_⟩
    simp only [slotAt]
    rw [show (head : ℕ) + (n + j - head) = n + j by omega, Nat.add_mod_left, Nat.mod_eq_of_lt hj]
  · refine ⟨j - head, by omega, Fin.ext ?_⟩
    simp only [slotAt]
    rw [show (head : ℕ) + (j - head) = j by omega, Nat.mod_eq_of_lt hj]

/-- **What the search answers**: the key stands in a slot before the first free one. -/
theorem containsFrom_iff {fuel i : ℕ} :
    containsFrom hash t a fuel i = true ↔
      ∃ k < fuel, t (slotAt (hash a) (i + k)) = some a ∧
        ∀ l < k, t (slotAt (hash a) (i + l)) ≠ none := by
  induction fuel generalizing i with
  | zero => simp [containsFrom]
  | succ fuel ih =>
    rw [containsFrom]
    split
    · next hfree =>
      refine ⟨fun h => absurd h (by simp), ?_⟩
      rintro ⟨k, -, hk, hbefore⟩
      cases k with
      | zero => simp [hfree] at hk
      | succ k => exact absurd hfree (hbefore 0 (by omega))
    · next b hb =>
      split
      · next heq =>
        refine ⟨fun _ => ⟨0, by omega, by rw [Nat.add_zero, hb, heq], fun l hl => by omega⟩,
          fun _ => rfl⟩
      · next hne =>
        rw [ih]
        constructor
        · rintro ⟨k, hk, hka, hbefore⟩
          refine ⟨k + 1, by omega, by rwa [Nat.add_comm k, ← Nat.add_assoc], fun l hl => ?_⟩
          cases l with
          | zero => simp [hb]
          | succ l =>
            rw [Nat.add_comm l, ← Nat.add_assoc]
            exact hbefore l (by omega)
        · rintro ⟨k, hk, hka, hbefore⟩
          cases k with
          | zero =>
            rw [Nat.add_zero, hb, Option.some.injEq] at hka
            exact absurd hka hne
          | succ k =>
            refine ⟨k, by omega, by rwa [Nat.add_assoc, Nat.add_comm 1], fun l hl => ?_⟩
            rw [Nat.add_assoc, Nat.add_comm 1]
            exact hbefore (l + 1) (by omega)

/-- **A key is found exactly when it is there.** -/
theorem contains_iff (h : Reachable hash t) : contains hash t a = true ↔ ∃ j, t j = some a := by
  rw [contains, containsFrom_iff]
  simp only [Nat.zero_add]
  constructor
  · rintro ⟨k, -, hk, -⟩
    exact ⟨_, hk⟩
  · rintro ⟨j, hj⟩
    obtain ⟨i, hi, rfl, hbefore⟩ := h j a hj
    exact ⟨i, hi, hj, hbefore⟩

variable (hash t a) in
/-- **What an insertion does**: nothing, where the key is there or no slot is free, or it
takes the first free slot. -/
theorem insertFrom_cases (fuel i : ℕ) :
    (insertFrom hash t a fuel i = t ∧ ((∃ j, t j = some a) ∨
      ∀ k < fuel, t (slotAt (hash a) (i + k)) ≠ none)) ∨
    ∃ k < fuel, t (slotAt (hash a) (i + k)) = none ∧
      (∀ l < k, t (slotAt (hash a) (i + l)) ≠ none) ∧
      insertFrom hash t a fuel i = Function.update t (slotAt (hash a) (i + k)) (some a) := by
  induction fuel generalizing i with
  | zero => exact Or.inl ⟨rfl, Or.inr fun k hk => by omega⟩
  | succ fuel ih =>
    rw [insertFrom]
    split
    · next hfree => exact Or.inr ⟨0, by omega, hfree, fun l hl => by omega, rfl⟩
    · next b hb =>
      split
      · next heq => exact Or.inl ⟨rfl, Or.inl ⟨_, heq ▸ hb⟩⟩
      · have hshift : ∀ l, (∀ k < l, t (slotAt (hash a) (i + 1 + k)) ≠ none) →
            ∀ k < l + 1, t (slotAt (hash a) (i + k)) ≠ none := fun l hl k hk => by
          cases k with
          | zero => simp [hb]
          | succ k =>
            rw [Nat.add_comm k, ← Nat.add_assoc]
            exact hl k (by omega)
        rcases ih (i + 1) with ⟨heq, hthere | hfull⟩ | ⟨k, hk, hfree, hbefore, heq⟩
        · exact Or.inl ⟨heq, Or.inl hthere⟩
        · exact Or.inl ⟨heq, Or.inr (hshift fuel hfull)⟩
        · rw [Nat.add_assoc, Nat.add_comm 1] at hfree heq
          exact Or.inr ⟨k + 1, by omega, hfree, hshift k hbefore, heq⟩

theorem insert_of_some {j : Fin n} {b : α} (h : t j = some b) (a : α) :
    insert hash t a j = some b := by
  rcases insertFrom_cases hash t a n 0 with
    ⟨heq, -⟩ | ⟨k, -, hfree, -, heq⟩
  · rw [insert, heq, h]
  · rw [insert, heq, Function.update_of_ne, h]
    rintro rfl
    rw [h] at hfree
    exact absurd hfree (by simp)

theorem Reachable.insert (h : Reachable hash t) (a : α) : Reachable hash (insert hash t a) := by
  have hkeep : ∀ j, t j ≠ none → ProbeSet.insert hash t a j ≠ none := fun j hj => by
    obtain ⟨b, hb⟩ := Option.ne_none_iff_exists'.mp hj
    rw [insert_of_some hb]
    simp
  intro j b hb
  by_cases hold : ∃ b', t j = some b'
  · obtain ⟨b', hb'⟩ := hold
    rw [insert_of_some hb', Option.some.injEq] at hb
    subst hb
    obtain ⟨i, hi, hj, hbefore⟩ := h j b' hb'
    exact ⟨i, hi, hj, fun k hk => hkeep _ (hbefore k hk)⟩
  · -- the slot is the one the new key took
    have hnone : t j = none := by
      cases htj : t j with
      | none => rfl
      | some b' => exact absurd ⟨b', htj⟩ hold
    rcases insertFrom_cases hash t a n 0 with
      ⟨heq, -⟩ | ⟨k, hk, -, hbefore, heq⟩
    · rw [ProbeSet.insert, heq, hnone] at hb
      exact absurd hb (by simp)
    · simp only [Nat.zero_add] at hbefore heq
      have hj : j = slotAt (hash a) k := by
        by_contra hne
        rw [ProbeSet.insert, heq, Function.update_of_ne hne, hnone] at hb
        exact absurd hb (by simp)
      subst hj
      rw [ProbeSet.insert, heq, Function.update_self, Option.some.injEq] at hb
      subst hb
      exact ⟨k, hk, rfl, fun l hl => hkeep _ (hbefore l hl)⟩

/-- **A new key is found afterwards**, if a slot was free. -/
theorem contains_insert (h : Reachable hash t) (hfree : ∃ j, t j = none) :
    contains hash (insert hash t a) a = true := by
  rw [contains_iff (h.insert a)]
  rcases insertFrom_cases hash t a n 0 with
    ⟨heq, ⟨j, hj⟩ | hfull⟩ | ⟨k, -, -, -, heq⟩
  · exact ⟨j, insert_of_some hj a⟩
  · obtain ⟨j, hj⟩ := hfree
    obtain ⟨i, hi, rfl⟩ := exists_slotAt (hash a) j
    exact absurd hj (by simpa using hfull i hi)
  · exact ⟨_, by rw [insert, heq, Function.update_self]⟩

/-- **The answer for every other key is the same.** -/
theorem contains_insert_of_ne (h : Reachable hash t) {b : α} (hne : b ≠ a) :
    contains hash (insert hash t a) b = contains hash t b := by
  rw [Bool.eq_iff_iff, contains_iff (h.insert a), contains_iff h]
  constructor
  · rintro ⟨j, hj⟩
    refine ⟨j, ?_⟩
    rcases insertFrom_cases hash t a n 0 with
      ⟨heq, -⟩ | ⟨k, -, -, -, heq⟩
    · rwa [insert, heq] at hj
    · rw [insert, heq] at hj
      by_cases hjk : j = slotAt (hash a) (0 + k)
      · subst hjk
        rw [Function.update_self, Option.some.injEq] at hj
        exact absurd hj.symm hne
      · rwa [Function.update_of_ne hjk] at hj
  · rintro ⟨j, hj⟩
    exact ⟨j, insert_of_some hj a⟩

theorem contains_insert_of_contains (h : Reachable hash t) (a : α) {b : α}
    (hb : contains hash t b = true) : contains hash (insert hash t a) b = true := by
  obtain ⟨j, hj⟩ := (contains_iff h).mp hb
  exact (contains_iff (h.insert a)).mpr ⟨j, insert_of_some hj a⟩

end ProbeSet

end OpenCms
