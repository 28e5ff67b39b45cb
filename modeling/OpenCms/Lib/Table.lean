import Mathlib.Data.List.Nodup

/-!
# Tables with a primary key

The rows of a table, as a list in which no key stands twice. An update changes the row with a key
where it stands; `INSERT … ON CONFLICT DO UPDATE` is an update if there is such a row, and otherwise
puts the new row behind the others. What is found under a key afterwards is said by one lemma for
each of them.
-/

namespace OpenCms.Table

variable {α κ : Type*} [DecidableEq κ]

def lookup (key : α → κ) (rows : List α) (k : κ) : Option α := rows.find? fun r => key r = k

def update (key : α → κ) (k : κ) (f : α → α) (rows : List α) : List α :=
  rows.map fun r => if key r = k then f r else r

/-- `INSERT … ON CONFLICT(key) DO UPDATE` with all the columns. -/
def upsert (key : α → κ) (row : α) (rows : List α) : List α :=
  if key row ∈ rows.map key then update key (key row) (fun _ => row) rows else rows ++ [row]

def erase (key : α → κ) (k : κ) (rows : List α) : List α := rows.filter fun r => key r ≠ k

variable {key : α → κ} {rows : List α} {row r : α} {k k' : κ} {f : α → α}

/-! ### What is found -/

theorem lookup_cons : lookup key (r :: rows) k = if key r = k then some r else lookup key rows k := by
  rw [lookup, List.find?_cons]
  split
  next h => rw [if_pos (of_decide_eq_true h)]
  next h => rw [if_neg (of_decide_eq_false h), lookup]

theorem lookup_eq_none : lookup key rows k = none ↔ k ∉ rows.map key := by
  simp [lookup, List.find?_eq_none]

theorem isSome_lookup : (lookup key rows k).isSome ↔ k ∈ rows.map key := by
  rw [Option.isSome_iff_ne_none, ne_eq, lookup_eq_none, not_not]

theorem key_of_lookup (h : lookup key rows k = some r) : key r = k := by
  simpa using List.find?_some h

theorem mem_of_lookup (h : lookup key rows k = some r) : r ∈ rows := List.mem_of_find?_eq_some h

/-- **If no key stands twice, every row is found under its key.** -/
theorem lookup_eq_some_iff (hnodup : (rows.map key).Nodup) :
    lookup key rows k = some r ↔ r ∈ rows ∧ key r = k := by
  refine ⟨fun h => ⟨mem_of_lookup h, key_of_lookup h⟩, ?_⟩
  rintro ⟨hmem, rfl⟩
  have hfound : (lookup key rows (key r)).isSome := isSome_lookup.mpr (List.mem_map_of_mem hmem)
  obtain ⟨r', hr'⟩ := Option.isSome_iff_exists.mp hfound
  rw [hr', List.inj_on_of_nodup_map hnodup (mem_of_lookup hr') hmem (key_of_lookup hr')]

/-! ### Updates -/

theorem keys_update (hf : ∀ r, key r = k → key (f r) = k) :
    (update key k f rows).map key = rows.map key := by
  rw [update, List.map_map]
  refine List.map_congr_left fun r _ => ?_
  rw [Function.comp_apply]
  split
  next h => rw [hf r h, h]
  next => rfl

theorem lookup_update (hf : ∀ r, key r = k → key (f r) = k) :
    lookup key (update key k f rows) k' =
      if k' = k then (lookup key rows k).map f else lookup key rows k' := by
  induction rows with
  | nil => exact (ite_self none).symm
  | cons r rows ih =>
    rw [update, List.map_cons, lookup_cons, ← update, ih, lookup_cons, lookup_cons]
    by_cases hr : key r = k
    · rw [if_pos hr, if_pos hr, hf r hr, hr]
      rcases eq_or_ne k' k with rfl | hk
      · rw [if_pos rfl, if_pos rfl, Option.map_some]
      · rw [if_neg hk, if_neg hk, if_neg hk.symm, if_neg hk.symm]
    · rw [if_neg hr, if_neg hr]
      rcases eq_or_ne k' k with rfl | hk
      · rw [if_neg hr, if_pos rfl, if_pos rfl]
      · rw [if_neg hk, if_neg hk]

theorem update_of_notMem (h : k ∉ rows.map key) : update key k f rows = rows := by
  refine (List.map_congr_left fun r hr => ?_).trans (List.map_id rows)
  exact if_neg fun heq => h (List.mem_map.mpr ⟨r, hr, heq⟩)

/-- **If no key stands twice, the row with a key is changed where it is found first.** -/
theorem modify_findIdx (hnodup : (rows.map key).Nodup) {i : ℕ}
    (h : (rows.findIdx? fun r => key r = k) = some i) : rows.modify i f = update key k f rows := by
  induction rows generalizing i with
  | nil => cases h
  | cons r rows ih =>
    obtain ⟨hr, hrows⟩ := List.nodup_cons.mp hnodup
    rw [update, List.map_cons, ← update]
    rw [List.findIdx?_cons] at h
    rcases eq_or_ne (key r) k with rfl | hne
    · rw [decide_eq_true rfl, if_pos rfl] at h
      obtain rfl := Option.some.inj h
      rw [List.modify_zero_cons, if_pos rfl, update_of_notMem hr]
    · rw [decide_eq_false hne, if_neg Bool.false_ne_true] at h
      obtain ⟨j, hj, rfl⟩ := Option.map_eq_some_iff.mp h
      rw [List.modify_succ_cons, if_neg hne, ih hrows hj]

/-! ### Inserting and deleting -/

theorem lookup_upsert : lookup key (upsert key row rows) k =
    if k = key row then some row else lookup key rows k := by
  unfold upsert
  split
  next hmem =>
    rw [lookup_update fun _ _ => rfl]
    split
    next =>
      obtain ⟨r, hr⟩ := Option.isSome_iff_exists.mp (isSome_lookup.mpr hmem)
      rw [hr, Option.map_some]
    next => rfl
  next hmem =>
    rw [lookup, List.find?_append, ← lookup, List.find?_singleton]
    rcases eq_or_ne k (key row) with rfl | hk
    · rw [lookup_eq_none.mpr hmem, if_pos rfl, decide_eq_true rfl]
      rfl
    · rw [if_neg hk, decide_eq_false hk.symm]
      exact Option.or_none

theorem mem_upsert (h : r ∈ upsert key row rows) : r = row ∨ r ∈ rows ∧ key r ≠ key row := by
  rw [upsert] at h
  split at h
  next =>
    obtain ⟨r', hr', rfl⟩ := List.mem_map.mp h
    split
    next => exact Or.inl rfl
    next hne => exact Or.inr ⟨hr', hne⟩
  next hnew =>
    rcases List.mem_append.mp h with hr | hr
    · refine Or.inr ⟨hr, fun hkey => hnew ?_⟩
      rw [← hkey]
      exact List.mem_map_of_mem hr
    · exact Or.inl (List.mem_singleton.mp hr)

theorem mem_upsert_iff : r ∈ upsert key row rows ↔ r = row ∨ r ∈ rows ∧ key r ≠ key row := by
  refine ⟨mem_upsert, ?_⟩
  rintro (rfl | ⟨hr, hne⟩)
  · exact mem_of_lookup (lookup_upsert.trans (if_pos rfl))
  · rw [upsert]
    split
    next => exact List.mem_map.mpr ⟨r, hr, if_neg hne⟩
    next => exact List.mem_append_left _ hr

theorem nodup_upsert (h : (rows.map key).Nodup) : ((upsert key row rows).map key).Nodup := by
  unfold upsert
  split
  next =>
    rw [keys_update fun _ _ => rfl]
    exact h
  next hmem =>
    rw [List.map_append, List.map_singleton, ← List.concat_eq_append]
    exact h.concat hmem

theorem lookup_erase : lookup key (erase key k rows) k' =
    if k' = k then none else lookup key rows k' := by
  induction rows with
  | nil => exact (ite_self none).symm
  | cons r rows ih =>
    rw [erase, List.filter_cons, ← erase]
    by_cases hr : key r = k
    · rw [if_neg (by simpa using hr), ih, lookup_cons, hr]
      rcases eq_or_ne k' k with rfl | hk
      · rw [if_pos rfl, if_pos rfl]
      · rw [if_neg hk, if_neg hk, if_neg hk.symm]
    · rw [if_pos (by simpa using hr), lookup_cons, lookup_cons, ih]
      rcases eq_or_ne k' k with rfl | hk
      · rw [if_neg hr, if_pos rfl, if_pos rfl]
      · rw [if_neg hk, if_neg hk]

theorem erase_erase : erase key k (erase key k rows) = erase key k rows := by
  rw [erase, erase, List.filter_filter]
  exact List.filter_congr fun r _ => Bool.and_self _

theorem nodup_erase (h : (rows.map key).Nodup) : ((erase key k rows).map key).Nodup :=
  h.sublist (List.filter_sublist.map key)

theorem mem_erase : r ∈ erase key k rows ↔ r ∈ rows ∧ key r ≠ k := by
  rw [erase, List.mem_filter, decide_eq_true_eq]

theorem mem_keys_upsert :
    k ∈ (upsert key row rows).map key ↔ k = key row ∨ k ∈ rows.map key := by
  rw [← isSome_lookup, lookup_upsert, ← isSome_lookup]
  split
  next h => exact iff_of_true rfl (Or.inl h)
  next h => exact (or_iff_right h).symm

theorem mem_keys_erase : k' ∈ (erase key k rows).map key ↔ k' ≠ k ∧ k' ∈ rows.map key := by
  rw [← isSome_lookup, lookup_erase, ← isSome_lookup]
  split
  next h => exact iff_of_false Bool.false_ne_true fun hne => hne.1 h
  next h => exact (and_iff_right h).symm

theorem mem_update : r ∈ update key k f rows ↔
    (r ∈ rows ∧ key r ≠ k) ∨ ∃ old ∈ rows, key old = k ∧ f old = r := by
  rw [update, List.mem_map]
  constructor
  · rintro ⟨old, hold, rfl⟩
    split
    next h => exact Or.inr ⟨old, hold, h, rfl⟩
    next h => exact Or.inl ⟨hold, h⟩
  · rintro (⟨hr, hne⟩ | ⟨old, hold, hkey, rfl⟩)
    · exact ⟨r, hr, if_neg hne⟩
    · exact ⟨old, hold, if_pos hkey⟩

theorem map_upsert {β : Type*} {key' : β → κ} {g : α → β} (hg : ∀ r, key' (g r) = key r) :
    (upsert key row rows).map g = upsert key' (g row) (rows.map g) := by
  have hkeys : (rows.map g).map key' = rows.map key := by
    rw [List.map_map]
    exact List.map_congr_left fun r _ => hg r
  unfold upsert
  rw [hkeys, hg]
  split
  next =>
    rw [update, update, List.map_map, List.map_map]
    refine List.map_congr_left fun r _ => ?_
    rw [Function.comp_apply, Function.comp_apply, hg, apply_ite g]
  next => rw [List.map_append, List.map_singleton]

end OpenCms.Table
