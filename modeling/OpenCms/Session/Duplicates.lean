import OpenCms.Session.ToolInvoker
import Mathlib.Data.List.Nodup

/-!
# Calls that are the same

Two calls are the same for `ToolInvoker` when their signatures are. The signature does not depend on
the order in which the members of an object are written, at any depth. The call that another one is
answered from is of the turn of the user that goes on, and it is the first one of the latest message
that has any.
-/

namespace OpenCms.ToolInvoker

variable {numeral : ℚ → JsString}

/-! ### The order of members -/

/-- The same arguments, with the members of objects in another order. -/
inductive SameArgs : Args → Args → Prop
  | refl (v : Args) : SameArgs v v
  | trans {u v w : Args} : SameArgs u v → SameArgs v w → SameArgs u w
  | order {members members' : List (JsString × Args)} : members.Perm members' →
      (members.map Prod.fst).Nodup → SameArgs (.obj members) (.obj members')
  | member {v w : Args} (before : List (JsString × Args)) (key : JsString)
      (after : List (JsString × Args)) : SameArgs v w →
      SameArgs (.obj (before ++ (key, v) :: after)) (.obj (before ++ (key, w) :: after))
  | item {v w : Args} (before after : List Args) : SameArgs v w →
      SameArgs (.arr (before ++ v :: after)) (.arr (before ++ w :: after))

theorem stableMembers_eq (members : List (JsString × Args)) : stableMembers numeral members =
    members.map fun member =>
      (member.1, (stableStringify numeral member.2).getD (js "undefined")) := by
  induction members with
  | nil => simp [stableMembers]
  | cons member members ih => simp [stableMembers, ih]

theorem stableItems_eq (items : List Args) : stableItems numeral items =
    items.map fun v => (stableStringify numeral v).getD [] := by
  induction items with
  | nil => simp [stableItems]
  | cons v items ih => simp [stableItems, ih]

/-- Members with different keys are sorted into one order. -/
theorem insertionSort_members_eq {members members' : List (JsString × JsString)}
    (hperm : members.Perm members') (hkeys : (members.map Prod.fst).Nodup) :
    (members.insertionSort fun a b => a.1 ≤ b.1) =
      members'.insertionSort fun a b => a.1 ≤ b.1 := by
  have hsorted := List.perm_insertionSort (fun a b : JsString × JsString => a.1 ≤ b.1) members
  have hsorted' := List.perm_insertionSort (fun a b : JsString × JsString => a.1 ≤ b.1) members'
  refine List.Perm.eq_of_pairwise (fun a b ha hb hab hba => ?_) (List.pairwise_insertionSort _ _)
    (List.pairwise_insertionSort _ _) ((hsorted.trans hperm).trans hsorted'.symm)
  exact List.inj_on_of_nodup_map hkeys (hsorted.mem_iff.mp ha)
    (hperm.mem_iff.mpr (hsorted'.mem_iff.mp hb)) (List.le_antisymm hab hba)

theorem stableStringify_of_sameArgs {v w : Args} (h : SameArgs v w) :
    stableStringify numeral v = stableStringify numeral w := by
  induction h with
  | refl v => rfl
  | trans _ _ ih ih' => exact ih.trans ih'
  | order hperm hkeys =>
    rw [stableStringify, stableStringify, stableMembers_eq, stableMembers_eq,
      insertionSort_members_eq (hperm.map _)]
    rwa [List.map_map]
  | member before key after _ ih =>
    rw [stableStringify, stableStringify, stableMembers_eq, stableMembers_eq]
    simp [ih]
  | item before after _ ih =>
    rw [stableStringify, stableStringify, stableItems_eq, stableItems_eq]
    simp [ih]

theorem lookup_of_perm {β : Type} {members members' : List (JsString × β)}
    (hperm : members.Perm members') (hkeys : (members.map Prod.fst).Nodup) (key : JsString) :
    members.lookup key = members'.lookup key := by
  induction hperm with
  | nil => rfl
  | cons member _ ih =>
    have ih := ih (List.nodup_cons.mp hkeys).2
    rw [List.lookup_cons, List.lookup_cons, ih]
  | swap a b members =>
    have hne : b.1 ≠ a.1 := by
      intro heq
      simp [heq] at hkeys
    rw [List.lookup_cons, List.lookup_cons, List.lookup_cons, List.lookup_cons]
    by_cases ha : key = a.1
    · subst ha
      simp [beq_eq_false_iff_ne.mpr hne.symm]
    · simp [beq_eq_false_iff_ne.mpr ha]
  | trans hperm _ ih ih' =>
    exact (ih hkeys).trans (ih' ((hperm.map Prod.fst).nodup_iff.mp hkeys))

theorem str_of_sameArgs {v w : Args} (h : SameArgs v w) (s : JsString) :
    v = .str s ↔ w = .str s := by
  induction h with
  | refl v => exact Iff.rfl
  | trans _ _ ih ih' => exact ih.trans ih'
  | order => simp
  | member => simp
  | item => simp

def filledText : Args → Option JsString
  | .str text => if text = [] then none else some text
  | _ => none

theorem textOf_of_sameArgs {v w : Args} (h : SameArgs v w) :
    (∀ members, v ≠ .obj members) ∧ v = w ∨ (∀ members, v ≠ .obj members) ∧
        (∀ members, w ≠ .obj members) ∨
      ∃ members members', v = .obj members ∧ w = .obj members' ∧
        ∀ key, textOf members key = textOf members' key := by
  induction h with
  | refl v =>
    cases v with
    | obj members => exact .inr (.inr ⟨members, members, rfl, rfl, fun _ => rfl⟩)
    | _ => exact .inl ⟨by simp, rfl⟩
  | trans _ _ ih ih' =>
    rcases ih with ⟨hv, rfl⟩ | ⟨hv, hw⟩ | ⟨members, members', rfl, rfl, htext⟩
    · exact ih'
    · rcases ih' with ⟨-, rfl⟩ | ⟨-, hw'⟩ | ⟨members, -, rfl, -, -⟩
      · exact .inr (.inl ⟨hv, hw⟩)
      · exact .inr (.inl ⟨hv, hw'⟩)
      · exact absurd rfl (hw members)
    · rcases ih' with ⟨hw, -⟩ | ⟨hw, -⟩ | ⟨_, members'', heq, rfl, htext'⟩
      · exact absurd rfl (hw members')
      · exact absurd rfl (hw members')
      · cases heq
        exact .inr (.inr ⟨members, members'', rfl, rfl, fun key => (htext key).trans (htext' key)⟩)
  | order hperm hkeys =>
    refine .inr (.inr ⟨_, _, rfl, rfl, fun key => ?_⟩)
    rw [textOf, textOf, lookup_of_perm hperm hkeys]
  | @member v w before key after hsame =>
    refine .inr (.inr ⟨_, _, rfl, rfl, fun other => ?_⟩)
    have hstr := str_of_sameArgs hsame
    have hvalue : ∀ members : List (JsString × Args), textOf members other =
        (members.lookup other).elim none filledText := by
      intro members
      rw [textOf]
      cases members.lookup other with
      | none => rfl
      | some value => cases value <;> rfl
    rw [hvalue, hvalue, List.lookup_append, List.lookup_append, List.lookup_cons,
      List.lookup_cons]
    cases before.lookup other with
    | some value => rfl
    | none =>
      by_cases hkey : other = key
      · simp only [hkey, BEq.rfl, Option.none_or, Option.elim_some]
        cases v with
        | str s => rw [(hstr s).mp rfl]
        | _ =>
          cases w with
          | str s => cases (hstr s).mpr rfl
          | _ => rfl
      · simp [beq_eq_false_iff_ne.mpr hkey]
  | item => exact .inr (.inl ⟨by simp, by simp⟩)

/-- **The order of members makes no difference to a signature**, nor does it to the key in the table
of the calls that are under way. -/
theorem signature_order_free {args args' : Args} (h : SameArgs args args') (toolID : JsString) :
    signature numeral toolID args = signature numeral toolID args' ∧
      ∀ sessionID, inflightKey numeral sessionID toolID args =
        inflightKey numeral sessionID toolID args' := by
  have hsig : signature numeral toolID args = signature numeral toolID args' := by
    rw [signature, signature]
    have hstring := @stableStringify_of_sameArgs numeral _ _ h
    rcases textOf_of_sameArgs h with ⟨-, rfl⟩ | ⟨hv, hw⟩ | ⟨members, members', rfl, rfl, htext⟩
    · rfl
    · have hplain : ∀ v : Args, (∀ members, v ≠ .obj members) →
          normalizeArgsForDedup toolID v = v := by
        intro v hv
        cases v with
        | obj members => exact absurd rfl (hv members)
        | _ => rfl
      rw [hplain _ hv, hplain _ hw, hstring]
    · simp only [normalizeArgsForDedup, htext]
      split
      · split
        · rfl
        · exact hstring
      · exact hstring
  refine ⟨hsig, fun sessionID => ?_⟩
  rw [inflightKey, inflightKey, hsig]

/-- A command with an environment, in either order, and the members of the environment too. -/
theorem signature_order_free_environment : signature (fun _ => []) (js "bash")
    (.obj [(js "command", .str (js "ls")),
      (js "env", .obj [(js "HOME", .str (js "/")), (js "CI", .bool true)])]) =
      signature (fun _ => []) (js "bash")
        (.obj [(js "env", .obj [(js "CI", .bool true), (js "HOME", .str (js "/"))]),
          (js "command", .str (js "ls"))]) :=
  (signature_order_free (.trans (.member [(js "command", .str (js "ls"))] (js "env") []
    (.order (.swap _ _ _) (by decide))) (.order (.swap _ _ _) (by decide))) _).1

end OpenCms.ToolInvoker
