import Mathlib.Data.List.Basic
import Mathlib.Data.List.InsertIdx
import Mathlib.Data.List.Sort
import Mathlib.Order.Basic
import Mathlib.Order.Nat

/-!
# Lists that are kept sorted and searched by halving

`OpenCms.Binary.search` looks for a key in a list by halving the range in which it can stand, and
tells where the key is or where it would have to be put. What it tells is right if the keys
ascend: `OpenCms.Binary.search_cases` says once what it returns, together with how the list is
split there, and everything else is read off the split. `OpenCms.Binary.put` and
`OpenCms.Binary.remove` are the two updates that keep the keys ascending.
-/

namespace OpenCms.Binary

variable {α κ : Type*} [LinearOrder κ]

structure Result where
  /-- Whether the key is there. -/
  found : Bool
  /-- Where it is, or would be. -/
  index : ℕ
  deriving DecidableEq, Repr

/-- The range from `left` to before `stop` is halved until the key is found or nothing is left of
it. It gets shorter in each turn, so that as many turns as it is long are enough. -/
def search.loop (array : List α) (id : κ) (compare : α → κ) : ℕ → ℕ → ℕ → Result
  | 0, left, _ => ⟨false, left⟩
  | turns + 1, left, stop =>
    if left < stop then
      let mid := (left + (stop - 1)) / 2
      match array[mid]? with
      | none => ⟨false, left⟩
      | some item =>
        if compare item = id then ⟨true, mid⟩
        else if compare item < id then search.loop array id compare turns (mid + 1) stop
        else search.loop array id compare turns left mid
    else ⟨false, left⟩

def search (array : List α) (id : κ) (compare : α → κ) : Result :=
  search.loop array id compare array.length 0 array.length

def Sorted (compare : α → κ) (array : List α) : Prop :=
  array.Pairwise fun a b => compare a < compare b

instance Sorted.instDecidable (compare : α → κ) (array : List α) :
    Decidable (Sorted compare array) :=
  inferInstanceAs (Decidable (array.Pairwise _))

variable {compare : α → κ} {array before after : List α} {id : κ} {item : α}

/-! ### Sorted lists and where they are split -/

theorem Sorted.sublist {array' : List α} (h : Sorted compare array)
    (hsub : List.Sublist array' array) : Sorted compare array' :=
  List.Pairwise.sublist hsub h

theorem sorted_append :
    Sorted compare (before ++ after) ↔
      Sorted compare before ∧ Sorted compare after ∧
        ∀ a ∈ before, ∀ b ∈ after, compare a < compare b :=
  List.pairwise_append

theorem sorted_split :
    Sorted compare (before ++ item :: after) ↔
      Sorted compare (before ++ after) ∧ (∀ a ∈ before, compare a < compare item) ∧
        ∀ b ∈ after, compare item < compare b := by
  rw [sorted_append, sorted_append, Sorted, Sorted, List.pairwise_cons]
  constructor
  · rintro ⟨hbefore, ⟨hitem, hafter⟩, hcross⟩
    exact ⟨⟨hbefore, hafter, fun a ha b hb => hcross a ha b (List.mem_cons_of_mem item hb)⟩,
      fun a ha => hcross a ha item List.mem_cons_self, hitem⟩
  · rintro ⟨⟨hbefore, hafter, hcross⟩, hlt, hitem⟩
    refine ⟨hbefore, ⟨hitem, hafter⟩, fun a ha b hb => ?_⟩
    rcases List.mem_cons.mp hb with rfl | hb
    · exact hlt a ha
    · exact hcross a ha b hb

/-! What is done to a list at the place where it is split. -/

theorem getElem?_split : (before ++ item :: after)[before.length]? = some item := by
  rw [List.getElem?_append_right le_rfl, Nat.sub_self, List.getElem?_cons_zero]

theorem set_split (new : α) :
    (before ++ item :: after).set before.length new = before ++ new :: after := by
  rw [List.set_append_right _ _ le_rfl, Nat.sub_self, List.set_cons_zero]

theorem eraseIdx_split : (before ++ item :: after).eraseIdx before.length = before ++ after := by
  rw [List.eraseIdx_append_of_length_le le_rfl, Nat.sub_self, List.eraseIdx_cons_zero]

theorem insertIdx_split :
    (before ++ after).insertIdx before.length item = before ++ item :: after := by
  induction before with
  | nil => rfl
  | cons a before ih =>
    rw [List.cons_append, List.length_cons, List.insertIdx_succ_cons, ih, List.cons_append]

theorem Sorted.eq_of_getElem? {i j : ℕ} {other : α} (h : Sorted compare array)
    (hi : array[i]? = some item) (hj : array[j]? = some other)
    (hkey : compare item = compare other) : i = j := by
  obtain ⟨hilt, rfl⟩ := List.getElem?_eq_some_iff.mp hi
  obtain ⟨hjlt, rfl⟩ := List.getElem?_eq_some_iff.mp hj
  have hpairwise := List.pairwise_iff_getElem.mp h
  rcases Nat.lt_trichotomy i j with hlt | rfl | hgt
  · exact absurd (hpairwise i j hilt hjlt hlt) (by rw [hkey]; exact lt_irrefl _)
  · rfl
  · exact absurd (hpairwise j i hjlt hilt hgt) (by rw [hkey]; exact lt_irrefl _)

theorem Sorted.eq_of_mem {other : α} (h : Sorted compare array) (hitem : item ∈ array)
    (hother : other ∈ array) (hkey : compare item = compare other) : item = other := by
  obtain ⟨i, hi⟩ := List.mem_iff_getElem?.mp hitem
  obtain ⟨j, hj⟩ := List.mem_iff_getElem?.mp hother
  obtain rfl := h.eq_of_getElem? hi hj hkey
  exact Option.some.inj (hi.symm.trans hj)

theorem Sorted.nodup (h : Sorted compare array) : array.Nodup :=
  List.Pairwise.imp (fun hlt heq => absurd (congrArg compare heq) hlt.ne) h

theorem Sorted.nodup_map {entries : List α} (h : Sorted compare array) (hentries : entries.Nodup)
    (hsub : entries ⊆ array) : (entries.map compare).Nodup :=
  hentries.map_on fun _ ha _ hb hkey => h.eq_of_mem (hsub ha) (hsub hb) hkey

/-- **A sorted list is known by its members.** -/
theorem Sorted.ext {array' : List α} (h : Sorted compare array) (h' : Sorted compare array')
    (hmem : ∀ a, a ∈ array ↔ a ∈ array') : array = array' := by
  have hperm := (List.perm_ext_iff_of_nodup h.nodup h'.nodup).mpr hmem
  refine List.Perm.eq_of_pairwise ?_ h h' hperm
  intro a b _ _ hlt hgt
  exact absurd (hlt.trans hgt) (lt_irrefl _)

theorem sorted_insertionSort {r : α → α → Prop} [DecidableRel r]
    (hr : ∀ a b, r a b ↔ compare a ≤ compare b) (h : (array.map compare).Nodup) :
    Sorted compare (array.insertionSort r) := by
  have : Std.Total r := ⟨fun a b => (le_total _ _).imp (hr a b).mpr (hr b a).mpr⟩
  have : IsTrans α r :=
    ⟨fun a b c hab hbc => (hr a c).mpr (((hr a b).mp hab).trans ((hr b c).mp hbc))⟩
  have hperm := List.perm_insertionSort r array
  have hne := List.pairwise_map.mp ((hperm.map compare).nodup_iff.mpr h)
  refine ((List.pairwise_insertionSort r array).and hne).imp fun hab => ?_
  exact lt_of_le_of_ne ((hr _ _).mp hab.1) hab.2

theorem length_eq_countP (hlt : ∀ a ∈ before, compare a < id) (hgt : ∀ a ∈ after, id < compare a) :
    before.length = (before ++ after).countP fun a => decide (compare a < id) := by
  rw [List.countP_append, List.countP_eq_length.mpr fun a ha => decide_eq_true (hlt a ha),
    List.countP_eq_zero.mpr fun a ha => ?_, Nat.add_zero]
  rw [decide_eq_true_eq]
  exact (hgt a ha).asymm

/-! ### What the search tells -/

theorem split_at {left : ℕ} (hle : left ≤ array.length)
    (hbefore : ∀ a ∈ array.take left, compare a < id)
    (hafter : ∀ a ∈ array.drop left, id < compare a) :
    ∃ before after, array = before ++ after ∧ (∀ a ∈ before, compare a < id) ∧
      (∀ a ∈ after, id < compare a) ∧ (⟨false, left⟩ : Result) = ⟨false, before.length⟩ := by
  refine ⟨array.take left, array.drop left, (List.take_append_drop left array).symm, hbefore,
    hafter, ?_⟩
  rw [List.length_take_of_le hle]

theorem search.loop_cases (h : Sorted compare array) {turns left stop : ℕ}
    (hstop : stop ≤ array.length) (hle : left ≤ stop) (hturns : stop - left ≤ turns)
    (hbefore : ∀ a ∈ array.take left, compare a < id)
    (hafter : ∀ a ∈ array.drop stop, id < compare a) :
    (∃ before item after, array = before ++ item :: after ∧ compare item = id ∧
        search.loop array id compare turns left stop = ⟨true, before.length⟩) ∨
      ∃ before after, array = before ++ after ∧ (∀ a ∈ before, compare a < id) ∧
        (∀ a ∈ after, id < compare a) ∧
        search.loop array id compare turns left stop = ⟨false, before.length⟩ := by
  induction turns generalizing left stop with
  | zero =>
    obtain rfl : left = stop := by omega
    exact Or.inr (split_at hstop hbefore hafter)
  | succ turns ih =>
    rw [search.loop]
    split
    next hlt =>
      obtain ⟨mid, hmid⟩ : ∃ mid, mid = (left + (stop - 1)) / 2 := ⟨_, rfl⟩
      have hmidstop : mid < stop := by omega
      have hmidlt : mid < array.length := by omega
      have hsplit : array = array.take mid ++ array[mid] :: array.drop (mid + 1) := by
        rw [← List.drop_eq_getElem_cons hmidlt, List.take_append_drop]
      have hsorted := sorted_split.mp (hsplit ▸ h)
      simp only [← hmid, List.getElem?_eq_getElem hmidlt]
      split
      next hkey =>
        refine Or.inl ⟨_, _, _, hsplit, hkey, ?_⟩
        rw [List.length_take_of_le hmidlt.le]
      next hkey =>
        split
        next hless =>
          refine ih hstop hmidstop (by omega) (fun a ha => ?_) hafter
          rw [List.take_succ_eq_append_getElem hmidlt] at ha
          rcases List.mem_append.mp ha with ha | ha
          · exact (hsorted.2.1 a ha).trans hless
          · rwa [List.mem_singleton.mp ha]
        next hless =>
          have hgreater : id < compare array[mid] := lt_of_le_of_ne (not_lt.mp hless) (Ne.symm hkey)
          refine ih hmidlt.le (by omega) (by omega) hbefore (fun a ha => ?_)
          rw [List.drop_eq_getElem_cons hmidlt] at ha
          rcases List.mem_cons.mp ha with rfl | ha
          · exact hgreater
          · exact hgreater.trans (hsorted.2.2 a ha)
    next hnot =>
      obtain rfl : left = stop := by omega
      exact Or.inr (split_at hstop hbefore hafter)

/-- **What a search of a sorted list tells**: where the list splits at the key. -/
theorem search_cases (h : Sorted compare array) (id : κ) :
    (∃ before item after, array = before ++ item :: after ∧ compare item = id ∧
        search array id compare = ⟨true, before.length⟩) ∨
      ∃ before after, array = before ++ after ∧ (∀ a ∈ before, compare a < id) ∧
        (∀ a ∈ after, id < compare a) ∧ search array id compare = ⟨false, before.length⟩ := by
  refine search.loop_cases h le_rfl (Nat.zero_le _) (by omega) (fun a ha => ?_) (fun a ha => ?_)
  · exact absurd ha List.not_mem_nil
  · rw [List.drop_length] at ha
    exact absurd ha List.not_mem_nil

/-- **Every entry of a sorted list is found where it stands.** -/
theorem search_of_getElem? {i : ℕ} (h : Sorted compare array) (hi : array[i]? = some item) :
    search array (compare item) compare = ⟨true, i⟩ := by
  rcases search_cases h (compare item) with
    ⟨before, other, after, rfl, hkey, hresult⟩ | ⟨before, after, rfl, hlt, hgt, -⟩
  · have hother : (before ++ other :: after)[before.length]? = some other := getElem?_split
    rw [hresult, h.eq_of_getElem? hi hother hkey.symm]
  · rcases List.mem_append.mp (List.mem_of_getElem? hi) with hmem | hmem
    · exact absurd (hlt item hmem) (lt_irrefl _)
    · exact absurd (hgt item hmem) (lt_irrefl _)

theorem search_of_split (h : Sorted compare (before ++ item :: after)) :
    search (before ++ item :: after) (compare item) compare = ⟨true, before.length⟩ := by
  exact search_of_getElem? h getElem?_split

theorem find?_split (h : Sorted compare (before ++ item :: after)) :
    (before ++ item :: after).find? (fun a => compare a = compare item) = some item := by
  have hbefore : before.find? (fun a => compare a = compare item) = none := by
    rw [List.find?_eq_none]
    intro a ha
    rw [decide_eq_true_eq]
    exact ((sorted_split.mp h).2.1 a ha).ne
  rw [List.find?_append, hbefore, Option.none_or, List.find?_cons, decide_eq_true rfl]

/-- A key that is not there is given the place between the smaller and the greater ones. -/
theorem search_of_gap (h : Sorted compare (before ++ after)) (hlt : ∀ a ∈ before, compare a < id)
    (hgt : ∀ a ∈ after, id < compare a) :
    search (before ++ after) id compare = ⟨false, before.length⟩ := by
  rcases search_cases h id with
    ⟨before', item, after', heq, hkey, -⟩ | ⟨before', after', heq, hlt', hgt', hresult⟩
  · have hmem : item ∈ before ++ after := heq ▸ List.mem_append_right _ List.mem_cons_self
    rcases List.mem_append.mp hmem with hmem | hmem
    · exact absurd hkey (hlt item hmem).ne
    · exact absurd hkey (hgt item hmem).ne'
  · rw [hresult, length_eq_countP hlt hgt, length_eq_countP hlt' hgt', heq]

/-- An entry whose place is next to another one can replace it. -/
theorem sorted_set_gap {index : ℕ} (h : Sorted compare (before ++ after))
    (hlt : ∀ a ∈ before, compare a < compare item) (hgt : ∀ a ∈ after, compare item < compare a)
    (hindex : index < (before ++ after).length)
    (hplace : before.length = index ∨ before.length = index + 1) :
    Sorted compare ((before ++ after).set index item) := by
  rcases hplace with rfl | hplace
  · cases after with
    | nil => simp at hindex
    | cons a after =>
      rw [set_split]
      refine sorted_split.mpr ⟨(sorted_split.mp h).1, hlt, fun b hb => ?_⟩
      exact hgt b (List.mem_cons_of_mem a hb)
  · rcases List.eq_nil_or_concat before with rfl | ⟨before, a, rfl⟩
    · cases hplace
    · obtain rfl : before.length = index := by simpa using hplace
      rw [List.concat_eq_append] at h hlt
      rw [List.concat_eq_append, List.append_assoc, List.singleton_append, set_split]
      rw [List.append_assoc, List.singleton_append] at h
      exact sorted_split.mpr ⟨(sorted_split.mp h).1,
        fun b hb => hlt b (List.mem_append_left _ hb), hgt⟩

/-! ### The two updates -/

/-- The entry replaces the one with its key, or is put between its neighbours. -/
def put (array : List α) (item : α) (compare : α → κ) : List α :=
  let result := search array (compare item) compare
  if result.found then array.set result.index item else array.insertIdx result.index item

/-- The entry with a key is taken out. -/
def remove (array : List α) (id : κ) (compare : α → κ) : List α :=
  let result := search array id compare
  if result.found then array.eraseIdx result.index else array

theorem put_cases (h : Sorted compare array) (item : α) :
    ∃ before after, (∀ a ∈ before, compare a < compare item) ∧
      (∀ a ∈ after, compare item < compare a) ∧ Sorted compare (before ++ after) ∧
      put array item compare = before ++ item :: after ∧
      (array = before ++ after ∨
        ∃ old, compare old = compare item ∧ array = before ++ old :: after) := by
  rcases search_cases h (compare item) with
    ⟨before, old, after, rfl, hkey, hresult⟩ | ⟨before, after, rfl, hlt, hgt, hresult⟩
  · have hsplit := sorted_split.mp h
    rw [hkey] at hsplit
    refine ⟨before, after, hsplit.2.1, hsplit.2.2, hsplit.1, ?_, Or.inr ⟨old, hkey, rfl⟩⟩
    rw [put, hresult]
    exact set_split item
  · refine ⟨before, after, hlt, hgt, h, ?_, Or.inl rfl⟩
    rw [put, hresult]
    exact insertIdx_split

theorem Sorted.put (h : Sorted compare array) (item : α) :
    Sorted compare (put array item compare) := by
  obtain ⟨before, after, hlt, hgt, hsorted, hput, -⟩ := put_cases h item
  rw [hput]
  exact sorted_split.mpr ⟨hsorted, hlt, hgt⟩

theorem mem_put (h : Sorted compare array) {a : α} :
    a ∈ put array item compare ↔ a = item ∨ a ∈ array ∧ compare a ≠ compare item := by
  obtain ⟨before, after, hlt, hgt, -, hput, harray⟩ := put_cases h item
  have hne : a ∈ before ++ after → compare a ≠ compare item := by
    intro hmem
    rcases List.mem_append.mp hmem with hmem | hmem
    · exact (hlt a hmem).ne
    · exact (hgt a hmem).ne'
  have hmem : a ∈ array ∧ compare a ≠ compare item ↔ a ∈ before ++ after := by
    rcases harray with rfl | ⟨old, hkey, rfl⟩
    · exact ⟨And.left, fun hmem => ⟨hmem, hne hmem⟩⟩
    · rw [List.mem_append, List.mem_cons, or_left_comm, ← List.mem_append]
      constructor
      · rintro ⟨rfl | hmem, hkey'⟩
        · exact absurd hkey hkey'
        · exact hmem
      · exact fun hmem => ⟨Or.inr hmem, hne hmem⟩
  rw [hput, hmem, List.mem_append, List.mem_cons, or_left_comm, ← List.mem_append]

theorem search_put (h : Sorted compare array) (item : α) :
    (search (put array item compare) (compare item) compare).found = true := by
  obtain ⟨before, after, hlt, hgt, hsorted, hput, -⟩ := put_cases h item
  rw [hput, search_of_split (sorted_split.mpr ⟨hsorted, hlt, hgt⟩)]

theorem found_iff (h : Sorted compare array) :
    (search array id compare).found = true ↔ ∃ a ∈ array, compare a = id := by
  rcases search_cases h id with
    ⟨before, item, after, rfl, hkey, hresult⟩ | ⟨before, after, rfl, hlt, hgt, hresult⟩
  · rw [hresult]
    exact iff_of_true rfl ⟨item, List.mem_append_right _ List.mem_cons_self, hkey⟩
  · rw [hresult]
    refine iff_of_false Bool.false_ne_true ?_
    rintro ⟨a, ha, rfl⟩
    rcases List.mem_append.mp ha with ha | ha
    · exact lt_irrefl _ (hlt a ha)
    · exact lt_irrefl _ (hgt a ha)

theorem put_self (h : Sorted compare array) (hmem : item ∈ array) :
    put array item compare = array := by
  obtain ⟨before, after, rfl⟩ := List.append_of_mem hmem
  rw [put, search_of_split h]
  exact set_split item

/-- **Putting an entry in a second time changes nothing.** -/
theorem put_put (h : Sorted compare array) (item : α) :
    put (put array item compare) item compare = put array item compare :=
  put_self (h.put item) ((mem_put h).mpr (Or.inl rfl))

theorem remove_cases (h : Sorted compare array) (id : κ) :
    ∃ before after, (∀ a ∈ before, compare a < id) ∧ (∀ a ∈ after, id < compare a) ∧
      remove array id compare = before ++ after ∧
      (array = before ++ after ∨ ∃ old, compare old = id ∧ array = before ++ old :: after) := by
  rcases search_cases h id with
    ⟨before, old, after, rfl, hkey, hresult⟩ | ⟨before, after, rfl, hlt, hgt, hresult⟩
  · have hsplit := sorted_split.mp h
    rw [hkey] at hsplit
    refine ⟨before, after, hsplit.2.1, hsplit.2.2, ?_, Or.inr ⟨old, hkey, rfl⟩⟩
    rw [remove, hresult]
    exact eraseIdx_split
  · refine ⟨before, after, hlt, hgt, ?_, Or.inl rfl⟩
    rw [remove, hresult]
    rfl

theorem Sorted.remove (h : Sorted compare array) (id : κ) :
    Sorted compare (remove array id compare) := by
  rw [Binary.remove]
  split
  · exact h.sublist (List.eraseIdx_sublist _ _)
  · exact h

/-- **Nothing is left to be taken out a second time.** -/
theorem remove_remove (h : Sorted compare array) (id : κ) :
    remove (remove array id compare) id compare = remove array id compare := by
  obtain ⟨before, after, hlt, hgt, hremove, -⟩ := remove_cases h id
  have hsorted := h.remove id
  rw [hremove] at hsorted ⊢
  rw [remove, search_of_gap hsorted hlt hgt]
  rfl

end OpenCms.Binary
