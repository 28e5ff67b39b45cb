import Mathlib.Data.Finset.Basic
import Mathlib.Data.Option.Basic

/-!
# Brackets

Things with names are started, used and stopped. A record of that is balanced if nothing is started
that is open, nothing is used or stopped that is not, and nothing is open in the end. The names that
are open after a part of the record say all about it that the rest depends on
(`OpenCms.opened_append`).
-/

namespace OpenCms

inductive Mark (κ : Type*)
  | start (k : κ)
  | touch (k : κ)
  | stop (k : κ)

section Brackets

variable {κ : Type*} [DecidableEq κ]

/-- What is open after an entry, or nothing if the entry is not in order. -/
def Mark.after (o : Finset κ) : Mark κ → Option (Finset κ)
  | .start k => if k ∈ o then none else some (insert k o)
  | .touch k => if k ∈ o then some o else none
  | .stop k => if k ∈ o then some (o.erase k) else none

def opened (o : Finset κ) (ms : List (Mark κ)) : Option (Finset κ) := ms.foldlM Mark.after o

/-- **Everything is in order, and nothing is left open.** -/
def Balanced (ms : List (Mark κ)) : Prop := opened ∅ ms = some ∅

instance (ms : List (Mark κ)) : Decidable (Balanced ms) :=
  inferInstanceAs (Decidable (opened ∅ ms = some ∅))

variable {o o' : Finset κ} {k : κ} {m : Mark κ} {ms ms' : List (Mark κ)}

@[simp] theorem opened_nil : opened o [] = some o := rfl

theorem opened_cons : opened o (m :: ms) = (m.after o).bind (opened · ms) := List.foldlM_cons ..

theorem opened_append : opened o (ms ++ ms') = (opened o ms).bind (opened · ms') :=
  List.foldlM_append ..

theorem opened_append_eq_some : opened o (ms ++ ms') = some o' ↔
    ∃ o₁, opened o ms = some o₁ ∧ opened o₁ ms' = some o' := by
  rw [opened_append, Option.bind_eq_some_iff]

/-- **One more part of a record**, where what is open before it is known: it leaves open what is
expected exactly if it is in order. -/
theorem opened_append_iff {ok : Prop} {o₁ : Finset κ} (hknown : ∀ o', opened o ms = some o' → o' = o₁)
    (hok : ok → opened o₁ ms' = some o') (hnot : ¬ ok → opened o₁ ms' = none) :
    (opened o (ms ++ ms') = some o' ↔ opened o ms = some o₁ ∧ ok) ∧
      ∀ o₂, opened o (ms ++ ms') = some o₂ → o₂ = o' := by
  have hsplit : ∀ o₂, opened o (ms ++ ms') = some o₂ →
      opened o ms = some o₁ ∧ ok ∧ opened o₁ ms' = some o₂ := by
    intro o₂ h
    obtain ⟨o₃, hms, hms'⟩ := opened_append_eq_some.mp h
    obtain rfl := hknown o₃ hms
    refine ⟨hms, ?_, hms'⟩
    by_contra hno
    rw [hnot hno] at hms'
    cases hms'
  refine ⟨⟨fun h => ⟨(hsplit o' h).1, (hsplit o' h).2.1⟩, ?_⟩, fun o₂ h => ?_⟩
  · rintro ⟨hms, hokay⟩
    exact opened_append_eq_some.mpr ⟨o₁, hms, hok hokay⟩
  · obtain ⟨-, hokay, hms'⟩ := hsplit o₂ h
    exact Option.some.inj (hms'.symm.trans (hok hokay))

theorem opened_start (h : k ∉ o) : opened o (.start k :: ms) = opened (insert k o) ms := by
  rw [opened_cons, Mark.after, if_neg h, Option.bind_some]

theorem opened_start_of_mem (h : k ∈ o) : opened o (.start k :: ms) = none := by
  rw [opened_cons, Mark.after, if_pos h, Option.bind_none]

theorem opened_touch (h : k ∈ o) : opened o (.touch k :: ms) = opened o ms := by
  rw [opened_cons, Mark.after, if_pos h, Option.bind_some]

theorem opened_touch_of_notMem (h : k ∉ o) : opened o (.touch k :: ms) = none := by
  rw [opened_cons, Mark.after, if_neg h, Option.bind_none]

theorem opened_stop (h : k ∈ o) : opened o (.stop k :: ms) = opened (o.erase k) ms := by
  rw [opened_cons, Mark.after, if_pos h, Option.bind_some]

theorem opened_stop_of_notMem (h : k ∉ o) : opened o (.stop k :: ms) = none := by
  rw [opened_cons, Mark.after, if_neg h, Option.bind_none]

theorem opened_touches (hk : k ∈ o) (h : ∀ m ∈ ms, m = .touch k) : opened o ms = some o := by
  induction ms with
  | nil => rfl
  | cons m ms ih =>
    obtain ⟨rfl, hms⟩ := List.forall_mem_cons.mp h
    rw [opened_touch hk, ih hms]

/-- **Different names are stopped together** exactly if they are all open. -/
theorem opened_stops {ks : List κ} (hks : ks.Nodup) :
    opened o (ks.map .stop) = if ks.toFinset ⊆ o then some (o \ ks.toFinset) else none := by
  induction ks generalizing o with
  | nil => simp
  | cons k ks ih =>
    obtain ⟨hk, hks⟩ := List.nodup_cons.mp hks
    rw [List.map_cons, List.toFinset_cons]
    by_cases ho : k ∈ o
    · have hsubset : ks.toFinset ⊆ o.erase k ↔ insert k ks.toFinset ⊆ o := by
        rw [Finset.subset_erase, Finset.insert_subset_iff, List.mem_toFinset]
        exact ⟨fun h => ⟨ho, h.1⟩, fun h => ⟨h.2, hk⟩⟩
      rw [opened_stop ho, ih hks]
      refine if_congr hsubset ?_ rfl
      rw [Finset.sdiff_insert, Finset.erase_sdiff_comm]
    · rw [opened_stop_of_notMem ho, if_neg fun h => ho (h (Finset.mem_insert_self _ _))]

/-- **What is left open can be stopped** exactly if the names are those that are open. -/
theorem opened_stops_eq_empty {ks : List κ} (hks : ks.Nodup) :
    opened o (ks.map .stop) = some ∅ ↔ ∀ k, k ∈ o ↔ k ∈ ks := by
  rw [opened_stops hks]
  constructor
  · intro h k
    split at h
    next hsubset =>
      rw [Option.some.injEq, Finset.sdiff_eq_empty_iff_subset] at h
      exact ⟨fun hk => List.mem_toFinset.mp (h hk), fun hk => hsubset (List.mem_toFinset.mpr hk)⟩
    next => cases h
  · intro h
    have heq : o = ks.toFinset := by
      ext k
      rw [h, List.mem_toFinset]
    rw [heq, if_pos (Finset.Subset.refl _), sdiff_self]
    rfl

theorem opened_flatMap_start_stop {ks : List κ} (h : ∀ k ∈ ks, k ∉ o) :
    opened o (ks.flatMap fun k => [.start k, .stop k]) = some o := by
  induction ks with
  | nil => rfl
  | cons k ks ih =>
    obtain ⟨hk, hks⟩ := List.forall_mem_cons.mp h
    rw [List.flatMap_cons, List.cons_append, opened_start hk, List.singleton_append,
      opened_stop (Finset.mem_insert_self k o), Finset.erase_insert hk, ih hks]

end Brackets

end OpenCms
