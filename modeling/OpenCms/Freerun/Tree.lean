import OpenCms.Lib.RootedTree
import OpenCms.Lib.Table

/-!
# The context tree on disk

A session keeps its plan as a tree of nodes, each in a file named after it. A node names its parent
and its children. The tree is read anew for each step: its root is the node without a parent, and
everything else is found by walking.

That the files form a tree is `OpenCms.Freerun.IsTree`. In a tree a walk from a node meets what is
below it (`OpenCms.Freerun.mem_subtree`). Elsewhere a node that is named more than once is met more
than once; a walk comes to its end as long as no name leads back (`OpenCms.Freerun.Grown.walks_eq`).
-/

namespace OpenCms.Freerun

abbrev NodeId : Type := List Char

inductive NodeMode
  | pendingPlan
  | pendingExec
  | doing
  | decomposed
  | done
  | blocked
  deriving DecidableEq

structure ContextNode where
  id : NodeId
  parent_id : Option NodeId
  children_ids : List NodeId
  title : String
  mode : NodeMode
  iteration_count : ℕ
  consolidated_summary : Option String
  deriving DecidableEq

abbrev Disk : Type := List ContextNode

namespace Tree

variable (tree : Disk)

def get (id : NodeId) : Option ContextNode := Table.lookup ContextNode.id tree id

/-- `load`: the root, or nothing if an error is thrown because there is none or more than one. -/
def load : Option NodeId :=
  match tree.filter fun node => node.parent_id = none with
  | [root] => some root.id
  | _ => none

/-- `walkDFS`, of so many turns: the top of the stack is taken first, and a name without a node is
skipped. -/
def walkDFS : ℕ → List NodeId → List ContextNode
  | 0, _ => []
  | _ + 1, [] => []
  | n + 1, id :: stack =>
    match get tree id with
    | none => walkDFS n stack
    | some node => node :: walkDFS n (node.children_ids ++ stack)

/-- `walkBFS`, of so many turns. -/
def walkBFS : ℕ → List (NodeId × ℕ) → List (ContextNode × ℕ)
  | 0, _ => []
  | _ + 1, [] => []
  | n + 1, (id, depth) :: queue =>
    match get tree id with
    | none => walkBFS n queue
    | some node => (node, depth) :: walkBFS n (queue ++ node.children_ids.map (·, depth + 1))

/-- As many turns as a walk can take, if no name leads back. -/
def turns : ℕ := ((tree.flatMap ContextNode.children_ids).length + 2) ^ tree.length

def subtree (id : NodeId) : List ContextNode := walkDFS tree (turns tree) [id]

def isActionable (node : ContextNode) : Bool :=
  node.mode = .pendingPlan || node.mode = .pendingExec || node.mode = .doing

def isSubtreeComplete (id : NodeId) : Bool := (subtree tree id).all fun node => !isActionable node

/-- `pickNext`: the shallowest node to be planned, down to a depth, and otherwise the leftmost one
to be worked on. The depths of `walkBFS` do not decrease, so the first one found is the
shallowest. -/
def pickNext (rootId : NodeId) (topLevelsToPlan : ℕ) : Option ContextNode :=
  let plannable := (walkBFS tree (turns tree) [(rootId, 0)]).takeWhile (·.2 ≤ topLevelsToPlan)
  match plannable.find? fun entry => entry.1.mode = .pendingPlan with
  | some (node, _) => some node
  | none => (subtree tree rootId).find? isActionable

/-! ### What is walked -/

def shape : Family NodeId := fun id =>
  (get tree id).map fun node => (node.parent_id, node.children_ids)

def kids (id : NodeId) : List NodeId := (shape tree).kids id

theorem walkDFS_eq (n : ℕ) (stack : List NodeId) :
    walkDFS tree n stack = (preorder (kids tree) n stack).filterMap (get tree) := by
  induction n generalizing stack with
  | zero => rfl
  | succ n ih =>
    rcases stack with _ | ⟨id, stack⟩
    · rfl
    · rw [walkDFS, preorder, List.filterMap_cons, kids, Family.kids, shape]
      rcases get tree id with _ | node
      · exact ih stack
      · exact congrArg (node :: ·) (ih _)

theorem walkBFS_eq (n : ℕ) (queue : List (NodeId × ℕ)) :
    walkBFS tree n queue =
      (levels (kids tree) n queue).filterMap fun e => (get tree e.1).map (·, e.2) := by
  unfold levels
  induction n generalizing queue with
  | zero => rfl
  | succ n ih =>
    rcases queue with _ | ⟨⟨id, depth⟩, queue⟩
    · rfl
    · rw [walkBFS, walk, List.filterMap_cons, deeper, kids, Family.kids, shape]
      rcases get tree id with _ | node
      · rw [ih]
        simp
      · exact congrArg ((node, depth) :: ·) (ih _)

theorem length_le_turns : tree.length ≤ turns tree :=
  (Nat.lt_pow_self (by omega)).le

variable {tree}

theorem mem_of_mem_walkDFS {n : ℕ} {stack : List NodeId} {node : ContextNode}
    (h : node ∈ walkDFS tree n stack) : node ∈ tree := by
  rw [walkDFS_eq, List.mem_filterMap] at h
  obtain ⟨id, -, hget⟩ := h
  exact Table.mem_of_lookup hget

theorem mem_of_mem_walkBFS {n : ℕ} {queue : List (NodeId × ℕ)} {entry : ContextNode × ℕ}
    (h : entry ∈ walkBFS tree n queue) : entry.1 ∈ tree := by
  induction n generalizing queue with
  | zero => cases h
  | succ n ih =>
    rcases queue with _ | ⟨⟨id, depth⟩, queue⟩
    · cases h
    · rw [walkBFS] at h
      rcases hget : get tree id with _ | node
      · rw [hget] at h
        exact ih h
      · rw [hget] at h
        rcases List.mem_cons.mp h with rfl | h
        · exact Table.mem_of_lookup hget
        · exact ih h

theorem pickNext_spec {rootId : NodeId} {topLevelsToPlan : ℕ} {node : ContextNode}
    (h : pickNext tree rootId topLevelsToPlan = some node) :
    node ∈ tree ∧ isActionable node := by
  rw [pickNext] at h
  split at h
  next entry depth hfind =>
    obtain rfl := Option.some.inj h
    have hmem := List.mem_of_find?_eq_some hfind
    refine ⟨mem_of_mem_walkBFS ((List.takeWhile_sublist _).mem hmem), ?_⟩
    have hmode := List.find?_some hfind
    simp [isActionable, hmode]
  next => exact ⟨mem_of_mem_walkDFS (List.mem_of_find?_eq_some h), List.find?_some h⟩

end Tree

/-! ### The end of a walk -/

/-- A child has a longer name than the node that names it. -/
def Grown (tree : Disk) : Prop :=
  ∀ node ∈ tree, ∀ id ∈ node.children_ids, node.id.length < id.length

open Freerun.Tree in
/-- **More turns make no difference to a walk.** -/
theorem Grown.walks_eq {tree : Disk} (h : Grown tree) {n : ℕ} (hn : turns tree ≤ n) (id : NodeId) :
    walkDFS tree n [id] = subtree tree id ∧
      ∀ depth, walkBFS tree n [(id, depth)] = walkBFS tree (turns tree) [(id, depth)] := by
  have hmem : ∀ a, ∀ b ∈ kids tree a, ∃ node ∈ tree, node.id = a ∧ kids tree a = node.children_ids := by
    intro a b hb
    obtain ⟨p, ids, hshape, -⟩ := Family.exists_of_mem_kids hb
    obtain ⟨node, hget, hsame⟩ := Option.map_eq_some_iff.mp hshape
    exact ⟨node, Table.mem_of_lookup hget, Table.key_of_lookup hget,
      (Family.kids_of_eq hshape).trans (Prod.mk.inj hsame).2.symm⟩
  have hlive : ∀ a, kids tree a ≠ [] → a ∈ tree.map ContextNode.id := by
    intro a hne
    obtain ⟨b, hb⟩ := List.exists_mem_of_ne_nil _ hne
    obtain ⟨node, hnode, rfl, -⟩ := hmem a b hb
    exact List.mem_map_of_mem hnode
  have hfew : ∀ a, (kids tree a).length ≤ (tree.flatMap ContextNode.children_ids).length := by
    intro a
    rcases hkids : kids tree a with _ | ⟨b, rest⟩
    · exact Nat.zero_le _
    · obtain ⟨node, hnode, -, hsame⟩ := hmem a b (by rw [hkids]; exact List.mem_cons_self)
      rw [← hkids, hsame]
      exact (List.sublist_flatten_of_mem (List.mem_map_of_mem hnode)).length_le
  have hup : ∀ a, ∀ b ∈ kids tree a, a.length < b.length := by
    intro a b hb
    obtain ⟨node, hnode, rfl, hsame⟩ := hmem a b hb
    rw [hsame] at hb
    exact h node hnode b hb
  rw [turns, ← List.length_map ContextNode.id] at hn
  obtain ⟨hdepth, hlevels⟩ := walk_over (a := id) hup hlive hfew hn
  rw [List.length_map] at hdepth hlevels
  refine ⟨?_, fun depth => ?_⟩
  · rw [subtree, walkDFS_eq, walkDFS_eq, hdepth, turns]
  · rw [walkBFS_eq, walkBFS_eq, hlevels, turns]

/-! ### Trees -/

open Freerun.Tree

/-- The files form one tree: there is one root, every name of a child is the name of one file whose
node has the one that names it for its parent, none is named twice, and every node is found from the
root. -/
structure IsTree (tree : Disk) : Prop where
  names : (tree.map ContextNode.id).Nodup
  root : ∃ root ∈ tree, root.parent_id = none ∧
    ∀ node ∈ tree, node.parent_id = none → node = root
  child : ∀ node ∈ tree, ∀ id ∈ node.children_ids, ∃ c ∈ tree, c.id = id ∧
    c.parent_id = some node.id
  once : (tree.flatMap ContextNode.children_ids).Nodup
  found : ∀ root ∈ tree, root.parent_id = none → ∀ node ∈ tree, Below (kids tree) root.id node.id

section

variable {tree : Disk} {id : NodeId} {node : ContextNode}

theorem get_eq_some (hnames : (tree.map ContextNode.id).Nodup) :
    get tree id = some node ↔ node ∈ tree ∧ node.id = id := Table.lookup_eq_some_iff hnames

theorem shape_eq_some {p : Option NodeId} {ids : List NodeId} :
    shape tree id = some (p, ids) ↔
      ∃ node, get tree id = some node ∧ node.parent_id = p ∧ node.children_ids = ids := by
  simp [shape, Option.map_eq_some_iff]

theorem shape_of_mem (hnames : (tree.map ContextNode.id).Nodup) (h : node ∈ tree) :
    shape tree node.id = some (node.parent_id, node.children_ids) :=
  shape_eq_some.mpr ⟨node, (get_eq_some hnames).mpr ⟨h, rfl⟩, rfl, rfl⟩

theorem nodup_children (hnames : (tree.map ContextNode.id).Nodup)
    (hchild : ∀ node ∈ tree, ∀ id ∈ node.children_ids, ∃ c ∈ tree, c.id = id ∧
      c.parent_id = some node.id)
    (honce : ∀ node ∈ tree, node.children_ids.Nodup) :
    (tree.flatMap ContextNode.children_ids).Nodup := by
  refine List.nodup_flatMap.mpr ⟨honce, ?_⟩
  have hpairs : tree.Pairwise fun node node' => node.id ≠ node'.id := List.pairwise_map.mp hnames
  refine hpairs.imp_of_mem fun {node node'} hnode hnode' hne => ?_
  intro id hid hid'
  obtain ⟨c, hc, rfl, hparent⟩ := hchild node hnode id hid
  obtain ⟨c', hc', hsame, hparent'⟩ := hchild node' hnode' c.id hid'
  obtain rfl := List.inj_on_of_nodup_map hnames hc' hc hsame
  exact hne (Option.some.inj (hparent.symm.trans hparent'))

/-- **The files form a tree exactly if the families do.** -/
theorem isTree_iff : IsTree tree ↔ (tree.map ContextNode.id).Nodup ∧ Rooted (shape tree) := by
  constructor
  · intro h
    refine ⟨h.names, ⟨?_, ?_, ?_, ?_⟩⟩
    · obtain ⟨root, hmem, hnone, huniq⟩ := h.root
      refine ⟨root.id, root.children_ids, ?_, fun id ids hid => ?_⟩
      · rw [shape_of_mem h.names hmem, hnone]
      · obtain ⟨node, hget, hparent, -⟩ := shape_eq_some.mp hid
        obtain ⟨hnode, rfl⟩ := (get_eq_some h.names).mp hget
        rw [huniq node hnode hparent]
    · intro id p ids hid c hc
      obtain ⟨node, hget, -, rfl⟩ := shape_eq_some.mp hid
      obtain ⟨hnode, rfl⟩ := (get_eq_some h.names).mp hget
      obtain ⟨child, hmem, rfl, hparent⟩ := h.child node hnode c hc
      refine ⟨child.children_ids, ?_⟩
      rw [shape_of_mem h.names hmem, hparent]
    · intro id p ids hid
      obtain ⟨node, hget, -, rfl⟩ := shape_eq_some.mp hid
      exact (List.nodup_flatMap.mp h.once).1 node (Table.mem_of_lookup hget)
    · rintro r ids hr id ⟨p, ids'⟩ hid
      obtain ⟨root, hget, hnone, -⟩ := shape_eq_some.mp hr
      obtain ⟨node, hget', -, -⟩ := shape_eq_some.mp hid
      obtain ⟨hmem, rfl⟩ := (get_eq_some h.names).mp hget
      obtain ⟨hmem', rfl⟩ := (get_eq_some h.names).mp hget'
      exact h.found root hmem hnone node hmem'
  · rintro ⟨hnames, h⟩
    have hchild : ∀ node ∈ tree, ∀ id ∈ node.children_ids, ∃ c ∈ tree, c.id = id ∧
        c.parent_id = some node.id := by
      intro node hnode id hid
      obtain ⟨ids, hshape⟩ := h.child _ _ _ (shape_of_mem hnames hnode) id hid
      obtain ⟨c, hget, hparent, -⟩ := shape_eq_some.mp hshape
      obtain ⟨hmem, hcid⟩ := (get_eq_some hnames).mp hget
      exact ⟨c, hmem, hcid, hparent⟩
    refine ⟨hnames, ?_, hchild, nodup_children hnames hchild fun node hnode => ?_, ?_⟩
    · obtain ⟨r, ids, hr, huniq⟩ := h.root
      obtain ⟨root, hget, hnone, -⟩ := shape_eq_some.mp hr
      obtain ⟨hmem, rfl⟩ := (get_eq_some hnames).mp hget
      refine ⟨root, hmem, hnone, fun node hnode hparent => ?_⟩
      have hshape : shape tree node.id = some (none, node.children_ids) := by
        rw [shape_of_mem hnames hnode, hparent]
      exact List.inj_on_of_nodup_map hnames hnode hmem (huniq node.id _ hshape)
    · exact h.once _ _ _ (shape_of_mem hnames hnode)
    · intro root hmem hnone node hnode
      have hroot : shape tree root.id = some (none, root.children_ids) := by
        rw [shape_of_mem hnames hmem, hnone]
      exact h.found root.id _ hroot node.id _ (shape_of_mem hnames hnode)

variable (h : IsTree tree)

include h

theorem IsTree.rooted : Rooted (shape tree) := (isTree_iff.mp h).2

/-- **A walk meets exactly what is below its start**, and nothing twice, wherever it puts the
children. -/
theorem IsTree.mem_walk {start : ContextNode} (hstart : start ∈ tree)
    {push : List NodeId → List NodeId → List NodeId}
    (hpush : ∀ new rest, (push new rest).Perm (new ++ rest)) :
    (∀ b, b ∈ walk (kids tree) push (turns tree) [start.id] ↔ Below (kids tree) start.id b) ∧
      (walk (kids tree) push (turns tree) [start.id]).Nodup := by
  have hrooted := h.rooted
  have hlive : ∀ a ∈ tree.map ContextNode.id, ∀ b ∈ kids tree a, b ∈ tree.map ContextNode.id := by
    intro a _ b hb
    obtain ⟨ids, hshape⟩ := hrooted.eq_of_mem_kids hb
    obtain ⟨c, hget, -, -⟩ := shape_eq_some.mp hshape
    exact Table.isSome_lookup.mp (Option.isSome_of_eq_some hget)
  have hparent : ∀ a ∈ tree.map ContextNode.id, ∀ a' ∈ tree.map ContextNode.id, ∀ b,
      b ∈ kids tree a → b ∈ kids tree a' → a = a' :=
    fun _ _ _ _ _ hb hb' => hrooted.parent_inj hb hb'
  have hself : ∀ a, Below (kids tree) start.id a → start.id ∉ kids tree a :=
    fun _ hbelow => hrooted.notMem_kids_of_below (shape_of_mem h.names hstart) hbelow
  have hmem : start.id ∈ tree.map ContextNode.id := List.mem_map_of_mem hstart
  have hkids : ∀ a, (kids tree a).Nodup := hrooted.nodup_kids
  refine ⟨fun b => ?_, nodup_walk hpush hkids hlive hparent hself hmem⟩
  exact OpenCms.mem_walk hpush hkids hlive hparent hself hmem
    ((List.length_map ContextNode.id).trans_le (length_le_turns tree))

theorem IsTree.mem_preorder {start : ContextNode} (hstart : start ∈ tree) :
    (∀ b, b ∈ preorder (kids tree) (turns tree) [start.id] ↔ Below (kids tree) start.id b) ∧
      (preorder (kids tree) (turns tree) [start.id]).Nodup := by
  rw [preorder_eq_walk]
  exact h.mem_walk hstart fun _ _ => List.Perm.refl _

theorem mem_subtree {start : ContextNode} (hstart : start ∈ tree) :
    node ∈ subtree tree start.id ↔ node ∈ tree ∧ Below (kids tree) start.id node.id := by
  have hwalk := (h.mem_preorder hstart).1
  rw [subtree, walkDFS_eq, List.mem_filterMap]
  constructor
  · rintro ⟨b, hb, hget⟩
    obtain ⟨hmem, rfl⟩ := (get_eq_some h.names).mp hget
    exact ⟨hmem, (hwalk _).mp hb⟩
  · rintro ⟨hmem, hbelow⟩
    exact ⟨node.id, (hwalk _).mpr hbelow, (get_eq_some h.names).mpr ⟨hmem, rfl⟩⟩

theorem nodup_subtree {start : ContextNode} (hstart : start ∈ tree) :
    ((subtree tree start.id).map ContextNode.id).Nodup := by
  rw [subtree, walkDFS_eq, List.map_filterMap]
  refine (h.mem_preorder hstart).2.filterMap fun a a' b hb hb' => ?_
  obtain ⟨n, hn, rfl⟩ := Option.map_eq_some_iff.mp hb
  obtain ⟨n', hn', hsame⟩ := Option.map_eq_some_iff.mp hb'
  rw [← Table.key_of_lookup hn, ← Table.key_of_lookup hn', hsame]

end

end OpenCms.Freerun
