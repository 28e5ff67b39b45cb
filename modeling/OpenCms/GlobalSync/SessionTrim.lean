import OpenCms.GlobalSync.Types
import Mathlib.Data.Prod.Lex
import Mathlib.Order.OrderDual

/-!
# Which sessions stay in the list

When a session is put into the list, the list is trimmed: of the sessions that have no parent
those stay that were changed last, up to the limit, and some more that were changed not long ago;
of the others those whose parent stays, and some for reasons of their own
(`OpenCms.GlobalSync.trimSessions`).

Of a list in the order of the identifiers the trimmed one is the part that meets a condition,
`OpenCms.GlobalSync.trimSessions_eq_filter`, and what was dropped makes no difference to it:
`OpenCms.GlobalSync.trimSessions_filter`.
-/

namespace OpenCms.GlobalSync

section Lists

variable {α : Type*} {l : List α} {p : α → Bool} {n : ℕ}

theorem dropLast_take_concat (l : List α) (a : α) (n : ℕ) :
    (if n < (l.take n ++ [a]).length then (l.take n ++ [a]).dropLast else l.take n ++ [a]) =
      (l ++ [a]).take n := by
  rw [List.length_append, List.length_take, List.length_singleton, List.dropLast_concat]
  rcases Nat.lt_or_ge l.length n with hlt | hge
  · rw [Nat.min_eq_right hlt.le, if_neg (by omega), List.take_of_length_le hlt.le,
      List.take_of_length_le (by rw [List.length_append, List.length_singleton]; omega)]
  · rw [Nat.min_eq_left hge, if_pos (by omega), List.take_append_of_le_length hge]

/-- The first entries stay the first ones if none of them is left out. -/
theorem filter_eq_take_append (h : ∀ a ∈ l.take n, p a = true) :
    l.filter p = l.take n ++ (l.drop n).filter p := by
  conv_lhs => rw [← List.take_append_drop n l]
  rw [List.filter_append, List.filter_eq_self.mpr h]

theorem take_filter (h : ∀ a ∈ l.take n, p a = true) : (l.filter p).take n = l.take n := by
  rw [filter_eq_take_append h]
  rcases Nat.lt_or_ge l.length n with hlt | hge
  · rw [List.drop_of_length_le hlt.le, List.filter_nil, List.append_nil, List.take_take,
      Nat.min_self]
  · exact List.take_left' (List.length_take_of_le hge)

theorem drop_filter (h : ∀ a ∈ l.take n, p a = true) :
    (l.filter p).drop n = (l.drop n).filter p := by
  rw [filter_eq_take_append h]
  rcases Nat.lt_or_ge l.length n with hlt | hge
  · rw [List.drop_of_length_le hlt.le, List.filter_nil, List.append_nil]
    exact List.drop_of_length_le (by rw [List.length_take]; omega)
  · exact List.drop_left' (List.length_take_of_le hge)

end Lists

variable {ι V : Type*} [LinearOrder ι]

def cmp (a b : ι) : ℤ := if a < b then -1 else if b < a then 1 else 0

def sessionUpdatedAt (session : Session ι V) : ℤ := session.updated.getD session.created

def compareSessionRecent (a b : Session ι V) : ℤ :=
  let aUpdated := sessionUpdatedAt a
  let bUpdated := sessionUpdatedAt b
  if aUpdated ≠ bUpdated then bUpdated - aUpdated else cmp a.id b.id

/-! ### The order of recency -/

/-- What the comparison compares: the later change first, and then the identifiers. -/
def recency (s : Session ι V) : Lex (ℤᵒᵈ × ι) :=
  toLex (OrderDual.toDual (sessionUpdatedAt s), s.id)

theorem cmp_nonpos_iff {a b : ι} : cmp a b ≤ 0 ↔ a ≤ b := by
  rw [cmp]
  split
  next h => exact iff_of_true (by decide) h.le
  next h =>
    split
    next h' => exact iff_of_false (by decide) h'.not_ge
    next h' => exact iff_of_true le_rfl (not_lt.mp h')

theorem compareSessionRecent_nonpos_iff {a b : Session ι V} :
    compareSessionRecent a b ≤ 0 ↔ recency a ≤ recency b := by
  rw [recency, recency, Prod.Lex.toLex_le_toLex]
  change (if sessionUpdatedAt a ≠ sessionUpdatedAt b then sessionUpdatedAt b - sessionUpdatedAt a
    else cmp a.id b.id) ≤ 0 ↔ sessionUpdatedAt b < sessionUpdatedAt a ∨
      sessionUpdatedAt a = sessionUpdatedAt b ∧ a.id ≤ b.id
  split
  next h => omega
  next h =>
    have heq := not_not.mp h
    rw [cmp_nonpos_iff, heq]
    exact ⟨fun hle => Or.inr ⟨rfl, hle⟩, fun hor => (hor.resolve_left (lt_irrefl _)).2⟩

/-! ### Trimming -/

section Trim

variable [OrderBot ι]

def sessionRecentWindow : ℤ := 4 * 60 * 60 * 1000

def sessionRecentLimit : ℕ := 50

def Session.isRoot (session : Session ι V) : Bool := decide (session.parentID.getD ⊥ = ⊥)

def Session.isArchived (session : Session ι V) : Bool := decide (session.archived.getD 0 ≠ 0)

def takeRecentSessions.turn (limit : ℕ) (cutoff : ℤ) (acc : List (Session ι V) × List ι)
    (session : Session ι V) : List (Session ι V) × List ι :=
  if session.id = ⊥ then acc
  else if session.id ∈ acc.2 then acc
  else if sessionUpdatedAt session ≤ cutoff then (acc.1, session.id :: acc.2)
  else
    let selected :=
      match acc.1.findIdx? fun x => compareSessionRecent session x < 0 with
      | none => acc.1 ++ [session]
      | some index => acc.1.insertIdx index session
    (if limit < selected.length then selected.dropLast else selected, session.id :: acc.2)

def takeRecentSessions (sessions : List (Session ι V)) (limit : ℕ) (cutoff : ℤ) :
    List (Session ι V) :=
  if limit = 0 then []
  else (sessions.foldl (takeRecentSessions.turn limit cutoff) ([], [])).1

def listed (input : List (Session ι V)) : List (Session ι V) :=
  (input.filter fun s => s.id ≠ ⊥).filter fun s => !s.isArchived

/-- `roots` of `trimSessions`, sorted: the session that was updated last comes first. -/
def rootsByRecency (input : List (Session ι V)) : List (Session ι V) :=
  ((listed input).filter fun s => s.isRoot).insertionSort fun a b => compareSessionRecent a b ≤ 0

def keepRoots (input : List (Session ι V)) (limit now : ℤ) : List (Session ι V) :=
  let limit := (max 0 limit).toNat
  let cutoff := now - sessionRecentWindow
  let roots := rootsByRecency input
  let base := roots.take limit
  let remaining := roots.drop limit
  base ++ takeRecentSessions remaining sessionRecentLimit cutoff

def keepsChild (keepRootIds : List ι) (permission : ι → Option (List (Request ι V))) (now : ℤ)
    (s : Session ι V) : Bool :=
  if s.parentID.getD ⊥ ∈ keepRootIds then true
  else if ((permission s.id).getD []).length > 0 then true
  else sessionUpdatedAt s > now - sessionRecentWindow

def trimSessions (input : List (Session ι V)) (limit : ℤ)
    (permission : ι → Option (List (Request ι V))) (now : ℤ) : List (Session ι V) :=
  let children := (listed input).filter fun s => !s.isRoot
  let keepRootIds := (keepRoots input limit now).map Session.id
  let keepChildren := children.filter (keepsChild keepRootIds permission now)
  (keepRoots input limit now ++ keepChildren).insertionSort fun a b => cmp a.id b.id ≤ 0

variable {L : List (Session ι V)} {s : Session ι V} {limit : ℤ}
  {permission : ι → Option (List (Request ι V))} {now cutoff : ℤ}

theorem foldl_turn (h : Binary.Sorted recency L) (hnodup : (L.map Session.id).Nodup)
    (hid : ∀ s ∈ L, s.id ≠ ⊥) (limit : ℕ) :
    L.foldl (takeRecentSessions.turn limit cutoff) ([], []) =
      ((L.filter fun s => decide (cutoff < sessionUpdatedAt s)).take limit,
        (L.map Session.id).reverse) := by
  induction L using List.reverseRecOn with
  | nil => rw [List.foldl_nil, List.filter_nil, List.take_nil, List.map_nil, List.reverse_nil]
  | append_singleton L s ih =>
    have hsub : List.Sublist L (L ++ [s]) := List.sublist_append_left L [s]
    have hseen : s.id ∉ (L.map Session.id).reverse := by
      rw [List.map_append, List.nodup_append] at hnodup
      intro hmem
      exact hnodup.2.2 s.id (List.mem_reverse.mp hmem) s.id List.mem_cons_self rfl
    rw [List.foldl_append, ih (h.sublist hsub) (hnodup.sublist (hsub.map _))
      (fun s hs => hid s (hsub.mem hs)), List.foldl_cons, List.foldl_nil, takeRecentSessions.turn,
      if_neg (hid s (List.mem_append_right _ List.mem_cons_self)), if_neg hseen,
      List.filter_append, List.map_append, List.reverse_append]
    split
    next hold =>
      rw [List.filter_cons_of_neg (by simpa using hold), List.filter_nil, List.append_nil]
      rfl
    next hnew =>
      -- the sessions that are selected already come before this one
      have hlast : ((L.filter fun s => decide (cutoff < sessionUpdatedAt s)).take limit).findIdx?
          (fun x => compareSessionRecent s x < 0) = none := by
        rw [List.findIdx?_eq_none_iff]
        intro x hx
        have hbefore : recency x < recency s := by
          have hmem := List.mem_of_mem_filter (List.mem_of_mem_take hx)
          exact (Binary.sorted_append.mp h).2.2 x hmem s List.mem_cons_self
        refine decide_eq_false fun hneg => hbefore.not_ge ?_
        exact compareSessionRecent_nonpos_iff.mp hneg.le
      rw [List.filter_cons_of_pos (by simpa using hnew), List.filter_nil, hlast]
      refine Prod.ext ?_ rfl
      exact dropLast_take_concat _ s limit

theorem takeRecentSessions_eq (h : Binary.Sorted recency L) (hnodup : (L.map Session.id).Nodup)
    (hid : ∀ s ∈ L, s.id ≠ ⊥) (limit : ℕ) :
    takeRecentSessions L limit cutoff =
      (L.filter fun s => decide (cutoff < sessionUpdatedAt s)).take limit := by
  rw [takeRecentSessions]
  split
  next hzero => rw [hzero, List.take_zero]
  next => rw [foldl_turn h hnodup hid limit]

/-! ### What is kept of a sorted list -/

theorem mem_listed : s ∈ listed L ↔ s ∈ L ∧ s.id ≠ ⊥ ∧ s.isArchived = false := by
  rw [listed, List.mem_filter, List.mem_filter, decide_eq_true_eq, Bool.not_eq_true', and_assoc]

theorem mem_rootsByRecency : s ∈ rootsByRecency L ↔ s ∈ listed L ∧ s.isRoot = true := by
  rw [rootsByRecency, List.mem_insertionSort, List.mem_filter]

theorem rootsByRecency_subset : rootsByRecency L ⊆ L :=
  fun _ hs => (mem_listed.mp (mem_rootsByRecency.mp hs).1).1

/-- What a sorted list is filtered by when it is trimmed, once the roots are chosen. -/
def kept (keepRootIds : List ι) (permission : ι → Option (List (Request ι V))) (now : ℤ)
    (s : Session ι V) : Bool :=
  decide (s.id ≠ ⊥) && !s.isArchived &&
    if s.isRoot then decide (s.id ∈ keepRootIds) else keepsChild keepRootIds permission now s

theorem kept_iff_of_isRoot {keepRootIds : List ι} (hroot : s.isRoot = true) :
    kept keepRootIds permission now s = true ↔
      (s.id ≠ ⊥ ∧ s.isArchived = false) ∧ s.id ∈ keepRootIds := by
  rw [kept, hroot, if_pos rfl, Bool.and_eq_true, Bool.and_eq_true, decide_eq_true_eq,
    decide_eq_true_eq, Bool.not_eq_true']

theorem kept_iff_of_not_isRoot {keepRootIds : List ι} (hroot : s.isRoot = false) :
    kept keepRootIds permission now s = true ↔
      (s.id ≠ ⊥ ∧ s.isArchived = false) ∧ keepsChild keepRootIds permission now s = true := by
  rw [kept, hroot, if_neg Bool.false_ne_true, Bool.and_eq_true, Bool.and_eq_true,
    decide_eq_true_eq, Bool.not_eq_true']

section Kept

variable (h : Binary.Sorted Session.id L)

include h

theorem nodup_listed : (listed L).Nodup := (h.nodup.filter _).filter _

theorem sorted_rootsByRecency : Binary.Sorted recency (rootsByRecency L) := by
  refine Binary.sorted_insertionSort (fun a b => compareSessionRecent_nonpos_iff) ?_
  have hnodup : ((listed L).filter fun s => s.isRoot).Nodup := (nodup_listed h).filter _
  refine hnodup.map_on fun s hs t ht hkey => ?_
  have hid : s.id = t.id := congrArg (fun k => (ofLex k).2) hkey
  exact h.eq_of_mem (mem_listed.mp (List.mem_of_mem_filter hs)).1
    (mem_listed.mp (List.mem_of_mem_filter ht)).1 hid

theorem keepRoots_eq (limit now : ℤ) :
    keepRoots L limit now =
      (rootsByRecency L).take (max 0 limit).toNat ++
        (((rootsByRecency L).drop (max 0 limit).toNat).filter fun s =>
          decide (now - sessionRecentWindow < sessionUpdatedAt s)).take sessionRecentLimit := by
  have hsorted := sorted_rootsByRecency h
  have hsub := List.drop_sublist (max 0 limit).toNat (rootsByRecency L)
  have hnodup := h.nodup_map hsorted.nodup rootsByRecency_subset
  change _ ++ takeRecentSessions _ _ _ = _
  rw [takeRecentSessions_eq (hsorted.sublist hsub) (hnodup.sublist (hsub.map _)) fun s hs => ?_]
  exact (mem_listed.mp (mem_rootsByRecency.mp (hsub.mem hs)).1).2.1

theorem keepRoots_sublist : List.Sublist (keepRoots L limit now) (rootsByRecency L) := by
  rw [keepRoots_eq h]
  conv_rhs => rw [← List.take_append_drop (max 0 limit).toNat (rootsByRecency L)]
  exact (List.Sublist.refl _).append ((List.take_sublist _ _).trans List.filter_sublist)

theorem mem_keepRoots (hs : s ∈ keepRoots L limit now) : s ∈ listed L ∧ s.isRoot = true :=
  mem_rootsByRecency.mp ((keepRoots_sublist h).mem hs)

/-- **Of a sorted list trimming leaves the sessions that are kept, in their order.** -/
theorem trimSessions_eq_filter :
    trimSessions L limit permission now =
      L.filter (kept ((keepRoots L limit now).map Session.id) permission now) := by
  have hroots : keepRoots L limit now ⊆ L := fun s hs => (mem_listed.mp (mem_keepRoots h hs).1).1
  have hchildren : (((listed L).filter fun s => !s.isRoot).filter
      (keepsChild ((keepRoots L limit now).map Session.id) permission now)) ⊆ L := fun s hs =>
    (mem_listed.mp (List.mem_of_mem_filter (List.mem_of_mem_filter hs))).1
  have hsorted : Binary.Sorted Session.id (trimSessions L limit permission now) := by
    refine Binary.sorted_insertionSort (fun a b => cmp_nonpos_iff) (h.nodup_map ?_ ?_)
    · refine List.Nodup.append ?_ (((nodup_listed h).filter _).filter _) ?_
      · exact (sorted_rootsByRecency h).nodup.sublist (keepRoots_sublist h)
      · intro s hs hs'
        have hroot := (mem_keepRoots h hs).2
        have hchild := (List.mem_filter.mp (List.mem_of_mem_filter hs')).2
        rw [hroot] at hchild
        exact Bool.false_ne_true hchild
    · exact List.append_subset.mpr ⟨hroots, hchildren⟩
  refine hsorted.ext (h.sublist List.filter_sublist) fun s => ?_
  rw [trimSessions, List.mem_insertionSort, List.mem_append, List.mem_filter, List.mem_filter,
    List.mem_filter, mem_listed]
  cases hroot : s.isRoot with
  | true =>
    rw [kept_iff_of_isRoot hroot]
    constructor
    · rintro (hs | ⟨⟨-, hfalse⟩, -⟩)
      · have hlisted := mem_listed.mp (mem_keepRoots h hs).1
        exact ⟨hlisted.1, hlisted.2, List.mem_map_of_mem hs⟩
      · exact absurd hfalse Bool.false_ne_true
    · rintro ⟨hs, -, hid⟩
      obtain ⟨t, ht, hkey⟩ := List.mem_map.mp hid
      obtain rfl := h.eq_of_mem (hroots ht) hs hkey
      exact Or.inl ht
  | false =>
    rw [kept_iff_of_not_isRoot hroot]
    constructor
    · rintro (hs | ⟨⟨⟨hs, hlisted⟩, -⟩, hkeeps⟩)
      · rw [(mem_keepRoots h hs).2] at hroot
        exact absurd hroot.symm Bool.false_ne_true
      · exact ⟨hs, hlisted, hkeeps⟩
    · rintro ⟨hs, hlisted, hkeeps⟩
      exact Or.inr ⟨⟨⟨hs, hlisted⟩, rfl⟩, hkeeps⟩

theorem sorted_trimSessions : Binary.Sorted Session.id (trimSessions L limit permission now) := by
  rw [trimSessions_eq_filter h]
  exact h.sublist List.filter_sublist

theorem keepRoots_filter {p : Session ι V → Bool}
    (hp : ∀ s ∈ keepRoots L limit now, p s = true) :
    keepRoots (L.filter p) limit now = keepRoots L limit now := by
  have hroots : rootsByRecency (L.filter p) = (rootsByRecency L).filter p := by
    have hfilter := h.sublist (List.filter_sublist (p := p) (l := L))
    refine (sorted_rootsByRecency hfilter).ext
      ((sorted_rootsByRecency h).sublist List.filter_sublist) fun s => ?_
    rw [List.mem_filter, mem_rootsByRecency, mem_rootsByRecency, mem_listed, mem_listed,
      List.mem_filter]
    tauto
  rw [keepRoots_eq h] at hp ⊢
  have hbase := fun s hs => hp s (List.mem_append_left _ hs)
  have hrecent := fun s hs => hp s (List.mem_append_right _ hs)
  rw [keepRoots_eq (h.sublist List.filter_sublist), hroots, take_filter hbase, drop_filter hbase,
    List.filter_comm, take_filter hrecent]

/-- **What was left out of a sorted list makes no difference to what is left of it.** -/
theorem trimSessions_filter {p : Session ι V → Bool}
    (hp : ∀ s ∈ trimSessions L limit permission now, p s = true) :
    trimSessions (L.filter p) limit permission now = trimSessions L limit permission now := by
  rw [trimSessions_eq_filter h] at hp
  have hroots : ∀ s ∈ keepRoots L limit now, p s = true := by
    intro s hs
    obtain ⟨hlisted, hroot⟩ := mem_keepRoots h hs
    have hmem := mem_listed.mp hlisted
    refine hp s (List.mem_filter.mpr ⟨hmem.1, (kept_iff_of_isRoot hroot).mpr ⟨hmem.2, ?_⟩⟩)
    exact List.mem_map_of_mem hs
  rw [trimSessions_eq_filter h, trimSessions_eq_filter (h.sublist List.filter_sublist),
    keepRoots_filter h hroots, List.filter_filter]
  refine List.filter_congr fun s hs => ?_
  cases hkept : kept ((keepRoots L limit now).map Session.id) permission now s with
  | true => rw [hp s (List.mem_filter.mpr ⟨hs, hkept⟩), Bool.and_true]
  | false => rw [Bool.false_and]

/-- **Whatever a trimmed list is made of, putting the same session in again and trimming again
changes nothing.** -/
theorem trimSessions_put (info : Session ι V) (hinfo : info ∈ L) :
    trimSessions (Binary.put (trimSessions L limit permission now) info Session.id) limit permission
      now = trimSessions L limit permission now := by
  -- the list into which the session is put again is again a part of the whole one
  have hput : Binary.put (trimSessions L limit permission now) info Session.id =
      L.filter fun s =>
        kept ((keepRoots L limit now).map Session.id) permission now s ||
          decide (s.id = info.id) := by
    refine ((sorted_trimSessions h).put info).ext (h.sublist List.filter_sublist) fun s => ?_
    rw [Binary.mem_put (sorted_trimSessions h), trimSessions_eq_filter h, List.mem_filter,
      List.mem_filter, Bool.or_eq_true, decide_eq_true_eq]
    constructor
    · rintro (rfl | ⟨⟨hs, hkept⟩, -⟩)
      · exact ⟨hinfo, Or.inr rfl⟩
      · exact ⟨hs, Or.inl hkept⟩
    · rintro ⟨hs, hor⟩
      rcases eq_or_ne s.id info.id with hid | hne
      · exact Or.inl (h.eq_of_mem hs hinfo hid)
      · exact Or.inr ⟨⟨hs, hor.resolve_right hne⟩, hne⟩
  rw [hput]
  refine trimSessions_filter h fun s hs => ?_
  rw [trimSessions_eq_filter h] at hs
  rw [(List.mem_filter.mp hs).2, Bool.true_or]

end Kept

end Trim

end OpenCms.GlobalSync
