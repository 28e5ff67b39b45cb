import Mathlib.Data.List.Nodup
import Mathlib.Data.List.Perm.Subperm
import Mathlib.Order.Nat

/-!
# An array that changes while it is walked through

A loop over an array that goes by the index sees the array as it is at each turn. What is pushed
meanwhile comes at the end; what is removed at or before the index moves all that follows one place
down, and the loop passes over what has come to the place where it stands.

The elements come in with growing keys, so that those below a bound, which were there at some
moment, stand before all that have come since. `OpenCms.LiveArray.none_skipped_iff` says when a turn
passes over none of them.
-/

namespace OpenCms.LiveArray

variable {α : Type*} {key : α → ℕ} {l l' kept new before after : List α} {i : ℕ} {a : α}

def Ordered (key : α → ℕ) (l : List α) : Prop := l.Pairwise fun a b => key a < key b

theorem Ordered.nodup (h : Ordered key l) : l.Nodup :=
  List.Pairwise.imp (fun hab heq => absurd (congrArg key heq) hab.ne) h

theorem Ordered.sublist (h : Ordered key l) (hsub : l'.Sublist l) : Ordered key l' :=
  List.Pairwise.sublist hsub h

theorem Ordered.concat (h : Ordered key l) (ha : ∀ b ∈ l, key b < key a) :
    Ordered key (l ++ [a]) := by
  refine List.pairwise_append.mpr ⟨h, List.pairwise_singleton _ _, fun b hb c hc => ?_⟩
  rw [List.mem_singleton.mp hc]
  exact ha b hb

theorem Ordered.notMem_eraseP (h : Ordered key l) : a ∉ l.eraseP fun b => key b = key a := by
  intro hmem
  obtain ⟨b, before, after, hbefore, hb, hl, herase⟩ :=
    List.exists_of_eraseP (p := fun b => decide (key b = key a)) (List.mem_of_mem_eraseP hmem)
      (decide_eq_true rfl)
  rw [herase] at hmem
  rcases List.mem_append.mp hmem with hmem | hmem
  · exact hbefore a hmem (decide_eq_true rfl)
  · rw [hl] at h
    have hlt := (List.pairwise_cons.mp (List.pairwise_append.mp h).2.1).1 a hmem
    exact absurd (of_decide_eq_true hb) hlt.ne

theorem notMem_drop (h : l.Nodup) (hl : l = before ++ a :: after) (hi : before.length < i) :
    a ∉ l.drop i := by
  have hmem : a ∈ l.take i := by
    rw [hl, List.take_append, List.take_of_length_le hi.le]
    refine List.mem_append_right _ ?_
    obtain ⟨n, hn⟩ := Nat.exists_eq_succ_of_ne_zero (Nat.sub_ne_zero_of_lt hi)
    rw [hn, List.take_succ_cons]
    exact List.mem_cons_self
  rw [← List.take_append_drop i l] at h
  exact List.disjoint_of_nodup_append h hmem

/-- **Nothing is passed over exactly if nothing at or before the index is removed**, or if nothing
that could be passed over is left. -/
theorem none_skipped_iff (bound : ℕ) (hl : Ordered key l) (hl' : Ordered key l')
    (heq : l' = kept ++ new) (hkept : kept.Sublist l) (hnew : ∀ a ∈ new, ∀ b ∈ l, key b < key a)
    (hi : i ≤ l.length) :
    (∀ a ∈ l.drop i, key a < bound → a ∈ l' → a ∈ l'.drop i) ↔
      (∀ a ∈ l.take i, a ∈ l') ∨ ∀ a ∈ l.drop i, key a < bound → a ∉ l' := by
  have hold : ∀ a ∈ l, a ∈ l' → a ∈ kept := fun a ha hmem => by
    rw [heq] at hmem
    exact (List.mem_append.mp hmem).resolve_right fun h => lt_irrefl _ (hnew a h a ha)
  -- what is kept is some of what stands before the index and some of what stands behind it
  obtain ⟨before, after, rfl, hbefore, hafter⟩ : ∃ before after, kept = before ++ after ∧
      before.Sublist (l.take i) ∧ after.Sublist (l.drop i) := by
    rw [← List.take_append_drop i l] at hkept
    exact List.sublist_append_iff.mp hkept
  have hdisjoint : ∀ a ∈ l.take i, a ∉ l.drop i := by
    have hnodup := hl.nodup
    rw [← List.take_append_drop i l] at hnodup
    exact fun a ha => List.disjoint_of_nodup_append hnodup ha
  have hbehind : ∀ a ∈ l.drop i, a ∈ l' → a ∈ after := fun a ha hmem =>
    (List.mem_append.mp (hold a (List.mem_of_mem_drop ha) hmem)).resolve_left fun h =>
      hdisjoint a (hbefore.subset h) ha
  constructor
  · intro h
    by_contra! hcon
    obtain ⟨⟨gone, hgone, hmissing⟩, a, ha, hlt, hmem⟩ := hcon
    -- something is removed, so the first one behind the index comes to stand before it
    have hshort : before.length < i := by
      have hle := hbefore.length_le
      rw [List.length_take_of_le hi] at hle
      refine lt_of_le_of_ne hle fun hlen => hmissing ?_
      rw [heq, hbefore.eq_of_length (by rw [hlen, List.length_take_of_le hi])]
      exact List.mem_append_left _ (List.mem_append_left _ hgone)
    obtain ⟨first, others, hfirst⟩ : ∃ first others, after = first :: others :=
      List.exists_cons_of_ne_nil (List.ne_nil_of_mem (hbehind a ha hmem))
    have hsplit : l' = before ++ first :: (others ++ new) := by
      rw [heq, hfirst, List.append_assoc, List.cons_append]
    have hearly : key first < bound := by
      have ha' := hbehind a ha hmem
      rw [hfirst] at ha'
      rcases List.mem_cons.mp ha' with rfl | hother
      · exact hlt
      · have hordered : Ordered key after := hl.sublist (hafter.trans (List.drop_sublist i l))
        rw [hfirst] at hordered
        exact ((List.pairwise_cons.mp hordered).1 a hother).trans hlt
    refine notMem_drop hl'.nodup hsplit hshort (h first (hafter.subset ?_) hearly ?_)
    · rw [hfirst]
      exact List.mem_cons_self
    · rw [hsplit]
      exact List.mem_append_right _ List.mem_cons_self
  · rintro (hall | hnone) a ha hlt hmem
    · -- nothing is removed before the index, so that what is behind it stays there
      have hsub : l.take i ⊆ before := fun b hb =>
        (List.mem_append.mp (hold b (List.mem_of_mem_take hb) (hall b hb))).resolve_right fun h =>
          hdisjoint b hb (hafter.subset h)
      have hfull : before.length = i := by
        refine le_antisymm (hbefore.length_le.trans (List.length_take_le i l)) ?_
        have hle := ((hl.nodup.sublist (List.take_sublist i l)).subperm hsub).length_le
        rwa [List.length_take_of_le hi] at hle
      rw [heq, List.append_assoc, List.drop_left' hfull]
      exact List.mem_append_left _ (hbehind a ha hmem)
    · exact absurd hmem (hnone a ha hlt)

end OpenCms.LiveArray
