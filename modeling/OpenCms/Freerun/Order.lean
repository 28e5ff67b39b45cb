import OpenCms.Freerun.Tree

/-!
# What is worked on next

A step of a session works on one node of the tree: a node high up that is still to be planned, and
otherwise the first one that is to be worked on. `OpenCms.Freerun.pickNext_first` says which one that
is without the two walks that find it, by the depth of a node and the order of the children.
-/

namespace OpenCms.Freerun

open Freerun.Tree

section First

variable {α : Type*} {R : α → α → Prop} {p : α → Bool} {l : List α} {a : α}

theorem first_of_find? (hl : l.Pairwise R) (h : l.find? p = some a) :
    ∀ b ∈ l, p b → b ≠ a → R a b := by
  obtain ⟨-, before, after, rfl, hbefore⟩ := List.find?_eq_some_iff_append.mp h
  intro b hb hp hne
  rcases List.mem_append.mp hb with hb | hb
  · have hnot := hbefore b hb
    rw [hp] at hnot
    cases hnot
  · have hafter := (List.mem_cons.mp hb).resolve_left hne
    exact (List.pairwise_cons.mp (List.pairwise_append.mp hl).2.1).1 b hafter

theorem mem_takeWhile_of_le {f : α → ℕ} {limit : ℕ} (hl : l.Pairwise fun a b => f a ≤ f b) :
    a ∈ l.takeWhile (f · ≤ limit) ↔ a ∈ l ∧ f a ≤ limit := by
  induction l with
  | nil => simp
  | cons b l ih =>
    obtain ⟨hhead, htail⟩ := List.pairwise_cons.mp hl
    by_cases hb : f b ≤ limit
    · rw [List.takeWhile_cons_of_pos (by simpa using hb), List.mem_cons, List.mem_cons, ih htail]
      constructor
      · rintro (rfl | ⟨ha, hle⟩)
        · exact ⟨Or.inl rfl, hb⟩
        · exact ⟨Or.inr ha, hle⟩
      · rintro ⟨rfl | ha, hle⟩
        · exact Or.inl rfl
        · exact Or.inr ⟨ha, hle⟩
    · rw [List.takeWhile_cons_of_neg (by simpa using hb)]
      refine ⟨fun ha => absurd ha List.not_mem_nil, ?_⟩
      rintro ⟨ha, hle⟩
      rcases List.mem_cons.mp ha with rfl | ha
      · exact absurd hle hb
      · have := hhead a ha
        omega

end First

variable {tree : Disk} {rootId : NodeId} {limit : ℕ} {node : ContextNode}

/-- A node that is below the root, at this depth. -/
structure IsAt (tree : Disk) (rootId : NodeId) (depth : ℕ) (node : ContextNode) : Prop where
  mem : node ∈ tree
  below : Below (kids tree) rootId node.id
  depth : Depth (shape tree) depth node.id

def Waits (tree : Disk) (rootId : NodeId) (limit depth : ℕ) (node : ContextNode) : Prop :=
  IsAt tree rootId depth node ∧ depth ≤ limit ∧ node.mode = .pendingPlan

section

variable (h : IsTree tree) (hload : load tree = some rootId)

include h hload

omit h in
theorem exists_root : ∃ root ∈ tree, root.id = rootId ∧ root.parent_id = none := by
  unfold load at hload
  split at hload
  next root hfilter =>
    have hmem : root ∈ tree.filter fun node => node.parent_id = none := by
      rw [hfilter]
      exact List.mem_singleton_self root
    obtain ⟨hmem, hnone⟩ := List.mem_filter.mp hmem
    exact ⟨root, hmem, Option.some.inj hload, by simpa using hnone⟩
  next => cases hload

theorem mem_walkBFS {depth : ℕ} :
    (node, depth) ∈ walkBFS tree (turns tree) [(rootId, 0)] ↔ IsAt tree rootId depth node := by
  obtain ⟨root, hroot, rfl, hnone⟩ := exists_root hload
  have hshape : shape tree root.id = some (none, root.children_ids) := by
    rw [shape_of_mem h.names hroot, hnone]
  have hperm : ∀ new rest : List NodeId, (rest ++ new).Perm (new ++ rest) :=
    fun _ _ => List.perm_append_comm
  have hdepth : ∀ {id d}, (id, d) ∈ levels (kids tree) (turns tree) [(root.id, 0)] →
      Depth (shape tree) d id := by
    intro id d hmem
    obtain ⟨entry, hentry, hbelow⟩ := below_of_mem_walk (fun _ _ => List.perm_append_comm) hmem
    rw [List.mem_singleton.mp hentry] at hbelow
    exact Depth.of_deeper hshape hbelow
  have hmet : ∀ id, (∃ d, (id, d) ∈ levels (kids tree) (turns tree) [(root.id, 0)]) ↔
      Below (kids tree) root.id id := by
    intro id
    rw [← (h.mem_walk hroot hperm).1, ← List.map_singleton (f := Prod.fst) (a := (root.id, 0)),
      ← levels_map_fst, List.mem_map]
    exact ⟨fun ⟨d, hd⟩ => ⟨(id, d), hd, rfl⟩, fun ⟨⟨_, d⟩, hd, hid⟩ => ⟨d, hid ▸ hd⟩⟩
  rw [walkBFS_eq, List.mem_filterMap]
  constructor
  · rintro ⟨⟨id, d⟩, hmem, hget⟩
    obtain ⟨node, hfound, hpair⟩ := Option.map_eq_some_iff.mp hget
    obtain ⟨rfl, rfl⟩ := Prod.mk.inj hpair
    obtain ⟨hnode, rfl⟩ := (get_eq_some h.names).mp hfound
    exact ⟨hnode, (hmet _).mp ⟨d, hmem⟩, hdepth hmem⟩
  · rintro ⟨hnode, hbelow, hat⟩
    obtain ⟨d, hmem⟩ := (hmet _).mpr hbelow
    obtain rfl := h.rooted.depth_unique hat (hdepth hmem)
    exact ⟨(node.id, depth), hmem, by rw [(get_eq_some h.names).mpr ⟨hnode, rfl⟩]; rfl⟩

omit h hload in
theorem pairwise_walkBFS :
    (walkBFS tree (turns tree) [(rootId, 0)]).Pairwise fun x y =>
      x.2 < y.2 ∨ x.2 = y.2 ∧ Apart (kids tree) x.1.id y.1.id := by
  rw [walkBFS_eq, List.pairwise_filterMap]
  refine (pairwise_levels (List.pairwise_singleton _ _)).imp fun {x y} hxy a ha b hb => ?_
  obtain ⟨n, hn, rfl⟩ := Option.map_eq_some_iff.mp ha
  obtain ⟨m, hm, rfl⟩ := Option.map_eq_some_iff.mp hb
  rw [Table.key_of_lookup hn, Table.key_of_lookup hm]
  exact hxy

theorem pairwise_subtree :
    (subtree tree rootId).Pairwise fun x y => Before (kids tree) x.id y.id := by
  obtain ⟨root, hroot, rfl, -⟩ := exists_root hload
  rw [subtree, walkDFS_eq, List.pairwise_filterMap]
  refine (pairwise_preorder (List.pairwise_singleton _ _) (h.mem_preorder hroot).2).imp
    fun {x y} hxy a ha b hb => ?_
  rw [Table.key_of_lookup ha, Table.key_of_lookup hb]
  exact hxy

/-- **What is picked is the first that is to be worked on.** Nothing is picked if nothing is to be
worked on. If a node down to the limit waits to be planned, the highest such node is picked, and of
those at its depth the first in the order of the children; otherwise the first node to be worked on
in depth-first order. -/
theorem pickNext_first :
    (pickNext tree rootId limit = none ↔
      ∀ node ∈ tree, Below (kids tree) rootId node.id → isActionable node = false) ∧
    ∀ node, pickNext tree rootId limit = some node →
      ((∃ depth other, Waits tree rootId limit depth other) →
        ∃ depth, Waits tree rootId limit depth node ∧
          ∀ depth' other, Waits tree rootId limit depth' other → other ≠ node →
            depth < depth' ∨ depth = depth' ∧ Before (kids tree) node.id other.id) ∧
      ((¬∃ depth other, Waits tree rootId limit depth other) →
        (node ∈ tree ∧ Below (kids tree) rootId node.id ∧ isActionable node = true) ∧
          ∀ other ∈ tree, Below (kids tree) rootId other.id → isActionable other = true →
            other ≠ node → Before (kids tree) node.id other.id) := by
  obtain ⟨root, hroot, hid, -⟩ := exists_root hload
  have hsubtree : ∀ node, node ∈ subtree tree rootId ↔
      node ∈ tree ∧ Below (kids tree) rootId node.id := by
    intro node
    rw [← hid]
    exact mem_subtree h hroot
  have hwaits : ∀ node depth, (node, depth) ∈ (walkBFS tree (turns tree) [(rootId, 0)]).takeWhile
      (·.2 ≤ limit) ∧ node.mode = .pendingPlan ↔ Waits tree rootId limit depth node := by
    intro node depth
    have hdepths : (walkBFS tree (turns tree) [(rootId, 0)]).Pairwise fun x y => x.2 ≤ y.2 :=
      pairwise_walkBFS.imp fun hxy => by omega
    rw [mem_takeWhile_of_le hdepths, mem_walkBFS h hload, Waits, and_assoc]
  rw [pickNext]
  split
  next node depth hfind =>
    have hmode : node.mode = .pendingPlan := by simpa using List.find?_some hfind
    have hnode := (hwaits node depth).mp ⟨List.mem_of_find?_eq_some hfind, hmode⟩
    refine ⟨iff_of_false (by simp) fun hnone => ?_, fun node' hnode' => ?_⟩
    · have hactionable := hnone node hnode.1.mem hnode.1.below
      rw [isActionable, hmode] at hactionable
      cases hactionable
    · obtain rfl := Option.some.inj hnode'
      refine ⟨fun _ => ⟨depth, hnode, fun depth' other hother hne => ?_⟩,
        fun hnone => absurd ⟨depth, _, hnode⟩ hnone⟩
      obtain ⟨hmem, hmode'⟩ := (hwaits other depth').mpr hother
      have hfirst := first_of_find? (pairwise_walkBFS.sublist (List.takeWhile_sublist _)) hfind
        (other, depth') hmem (by simpa using hmode') (fun hsame => hne (congrArg Prod.fst hsame))
      exact hfirst.imp_right (And.imp_right Or.inr)
  next hfind =>
    have hnone : ¬∃ depth other, Waits tree rootId limit depth other := by
      rintro ⟨depth, other, hother⟩
      obtain ⟨hmem, hmode⟩ := (hwaits other depth).mpr hother
      exact List.find?_eq_none.mp hfind _ hmem (by simpa using hmode)
    refine ⟨?_, fun node hnode => ⟨fun hsome => absurd hsome hnone, fun _ => ⟨?_, ?_⟩⟩⟩
    · rw [List.find?_eq_none]
      constructor
      · intro hall node hmem hbelow
        exact Bool.eq_false_iff.mpr (hall node ((hsubtree node).mpr ⟨hmem, hbelow⟩))
      · intro hall node hmem
        obtain ⟨hmem, hbelow⟩ := (hsubtree node).mp hmem
        exact Bool.eq_false_iff.mp (hall node hmem hbelow)
    · obtain ⟨hmem, hbelow⟩ := (hsubtree node).mp (List.mem_of_find?_eq_some hnode)
      exact ⟨hmem, hbelow, List.find?_some hnode⟩
    · intro other hmem hbelow hactionable hne
      exact first_of_find? (pairwise_subtree h hload) hnode other
        ((hsubtree other).mpr ⟨hmem, hbelow⟩) hactionable hne

end

def grove : Disk :=
  [⟨['r'], none, [['a'], ['b']], "plan", .decomposed, 0, none⟩,
    ⟨['a'], some ['r'], [], "execute", .pendingExec, 0, none⟩,
    ⟨['b'], some ['r'], [], "split", .pendingPlan, 0, none⟩]

theorem isTree_grove : IsTree grove where
  names := by decide
  root := ⟨grove.head (by decide), by decide, rfl, by decide⟩
  child := by decide
  once := by decide
  found := by
    have hroot : ∀ root ∈ grove, root.parent_id = none → root.id = ['r'] := by decide
    have hkid : ∀ node ∈ grove, node.id = ['r'] ∨ node.id ∈ kids grove ['r'] := by decide
    intro root hmem hnone node hnode
    rw [hroot root hmem hnone]
    rcases hkid node hnode with hid | hid
    · rw [hid]
      exact Relation.ReflTransGen.refl
    · exact Relation.ReflTransGen.single hid

/-- The node to be planned is picked first, if it is not too deep. -/
theorem pickNext_grove : ∃ node, pickNext grove ['r'] 1 = some node ∧ node.id = ['b'] ∧
    ∃ depth, Waits grove ['r'] 1 depth node ∧
      ∀ depth' other, Waits grove ['r'] 1 depth' other → other ≠ node →
        depth < depth' ∨ depth = depth' ∧ Before (kids grove) node.id other.id := by
  have hwaits : Waits grove ['r'] 1 1 ⟨['b'], some ['r'], [], "split", .pendingPlan, 0, none⟩ :=
    ⟨⟨by decide, Relation.ReflTransGen.single (by decide),
      Depth.child (a := ['r']) (Depth.root rfl) (by decide)⟩, Nat.le_refl _, rfl⟩
  exact ⟨_, rfl, rfl, ((pickNext_first isTree_grove rfl).2 _ rfl).1 ⟨1, _, hwaits⟩⟩

end OpenCms.Freerun
