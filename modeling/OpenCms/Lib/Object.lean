import Mathlib.Data.List.AList
import Mathlib.Data.List.Sort
import Mathlib.Algebra.Group.Nat.Defs

/-!
# Objects as dictionaries

A JavaScript object that is used as a dictionary. `OpenCms.Object` is an association list of
Mathlib in which the latest key stands first; what the language adds is that assigning to a key
that is there leaves it in its place (`OpenCms.Object.set`), and the order in which the entries
are enumerated (`OpenCms.Object.toEntries`): keys that are array indices first, by their number,
and then the others in the order in which they came.

Only own entries count: the names that every object inherits are not keys here.
-/

namespace OpenCms

abbrev Object (V : Type*) := AList fun _ : String => V

namespace Object

variable {V : Type*}

def set (o : Object V) (key : String) (value : V) : Object V :=
  if key ∈ o then o.replace key value else o.insert key value

def delete (o : Object V) (key : String) : Object V := AList.erase key o

def arrayIndex (key : String) : Option ℕ :=
  let digits := key.toList
  if digits ≠ [] ∧ digits.all Char.isDigit ∧ (digits = ['0'] ∨ digits.head? ≠ some '0') then
    some (digits.foldl (fun n c => 10 * n + (c.toNat - '0'.toNat)) 0) |>.filter (· < 2 ^ 32 - 1)
  else none

def toEntries (o : Object V) : List (String × V) :=
  let pairs := o.entries.reverse.map fun entry => (entry.1, entry.2)
  let index (entry : String × V) := (arrayIndex entry.1).getD 0
  ((pairs.filter fun entry => (arrayIndex entry.1).isSome).insertionSort fun a b =>
    index a ≤ index b) ++ pairs.filter fun entry => !(arrayIndex entry.1).isSome

def toKeys (o : Object V) : List String := o.toEntries.map Prod.fst

/-! ### Assigning -/

variable {o : Object V} {key other : String} {value : V}

theorem kreplace_cons (k : String) (v : V) (entries : List (Sigma fun _ : String => V)) :
    List.kreplace key value (⟨k, v⟩ :: entries) =
      if key = k then ⟨key, value⟩ :: entries else ⟨k, v⟩ :: List.kreplace key value entries := by
  split
  next h => exact List.lookmap_cons_some _ _ (dif_pos h)
  next h => exact List.lookmap_cons_none _ _ (dif_neg h)

theorem dlookup_kreplace {entries : List (Sigma fun _ : String => V)}
    (hmem : key ∈ entries.keys) :
    List.dlookup other (List.kreplace key value entries) =
      if other = key then some value else List.dlookup other entries := by
  induction entries with
  | nil => cases hmem
  | cons entry entries ih =>
    obtain ⟨k, v⟩ := entry
    rw [kreplace_cons]
    rcases eq_or_ne key k with rfl | hk
    · rw [if_pos rfl]
      split
      next h =>
        rw [h]
        exact List.dlookup_cons_eq _ _ _
      next h => rw [List.dlookup_cons_ne _ _ h, List.dlookup_cons_ne _ _ h]
    · have hmem : key ∈ entries.keys := (List.mem_cons.mp hmem).resolve_left hk
      rw [if_neg hk]
      rcases eq_or_ne other k with rfl | ho
      · rw [List.dlookup_cons_eq, List.dlookup_cons_eq, if_neg hk.symm]
      · rw [List.dlookup_cons_ne _ _ ho, List.dlookup_cons_ne _ _ ho, ih hmem]

/-- **What is assigned is found under its key, and nothing else changes.** -/
theorem lookup_set : (o.set key value).lookup other =
    if other = key then some value else o.lookup other := by
  unfold set
  split
  next h => exact dlookup_kreplace (AList.mem_keys.mp h)
  next =>
    split
    next heq =>
      rw [heq]
      exact AList.lookup_insert o
    next hne => exact AList.lookup_insert_ne hne

@[simp] theorem lookup_set_self : (o.set key value).lookup key = some value := by
  rw [lookup_set, if_pos rfl]

theorem lookup_set_of_ne (h : other ≠ key) :
    (o.set key value).lookup other = o.lookup other := by
  rw [lookup_set, if_neg h]

@[simp] theorem mem_set : other ∈ o.set key value ↔ other = key ∨ other ∈ o := by
  unfold set
  split
  next h =>
    rw [AList.mem_replace]
    exact ⟨Or.inr, fun hor => hor.elim (fun heq => heq ▸ h) id⟩
  next => exact AList.mem_insert o

theorem mem_of_lookup (h : o.lookup key = some value) : key ∈ o :=
  AList.lookup_isSome.mp (h ▸ rfl)

theorem set_of_lookup (h : o.lookup key = some value) : o.set key value = o := by
  unfold set
  rw [if_pos (mem_of_lookup h)]
  exact AList.ext (List.kreplace_self o.nodupKeys (AList.mem_lookup_iff.mp h))

theorem lookup_delete : (o.delete key).lookup other =
    if other = key then none else o.lookup other := by
  split
  next h =>
    rw [h]
    exact AList.lookup_erase key o
  next h => exact AList.lookup_erase_ne h

@[simp] theorem mem_delete : other ∈ o.delete key ↔ other ≠ key ∧ other ∈ o :=
  AList.mem_erase

/-! ### Enumerating -/

theorem toEntries_perm (o : Object V) :
    o.toEntries.Perm (o.entries.map fun entry => (entry.1, entry.2)) := by
  refine ((List.perm_insertionSort _ _).append_right _).trans ?_
  refine (List.filter_append_perm _ _).trans ?_
  exact (List.reverse_perm _).map _

@[simp] theorem mem_toEntries : (key, value) ∈ o.toEntries ↔ o.lookup key = some value := by
  rw [(toEntries_perm o).mem_iff, List.mem_map, ← Option.mem_def, AList.mem_lookup_iff]
  constructor
  · rintro ⟨⟨k, v⟩, hmem, heq⟩
    obtain ⟨rfl, rfl⟩ := Prod.mk.injEq .. ▸ heq
    exact hmem
  · exact fun hmem => ⟨⟨key, value⟩, hmem, rfl⟩

theorem toKeys_perm (o : Object V) : o.toKeys.Perm o.keys := by
  refine ((toEntries_perm o).map _).trans (List.Perm.of_eq ?_)
  rw [List.map_map]
  rfl

@[simp] theorem mem_toKeys : key ∈ o.toKeys ↔ key ∈ o :=
  (toKeys_perm o).mem_iff

theorem nodup_toKeys (o : Object V) : o.toKeys.Nodup :=
  (toKeys_perm o).nodup_iff.mpr o.keys_nodup

theorem mem_of_head?_toKeys (h : o.toKeys.head? = some key) : key ∈ o :=
  mem_toKeys.mp (List.mem_of_mem_head? h)

theorem notMem_of_head?_toKeys (h : o.toKeys.head? = none) (key : String) : key ∉ o := by
  intro hmem
  rw [← mem_toKeys, List.head?_eq_none_iff.mp h] at hmem
  cases hmem

end Object

end OpenCms
