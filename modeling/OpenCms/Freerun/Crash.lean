import OpenCms.Freerun.Iterate

/-!
# A crash during a consolidation

A consolidation moves the files below a node to the archive, one after another. The node itself is
written after that, with its summary and without its children. A crash stops it between two of these
operations, and what it leaves is what the next one finds.

The comment on `archiveSubtree` asks for the other order, and with reason: after the first move a
node names a file that is not there, and no summary stands for it. So a consolidation can be stopped
at any moment, and be made up for, exactly if nothing is moved: if every node that it comes to is
unfinished, or gets no summary, or has no children (`OpenCms.Freerun.crashConsistent_iff`).
-/

namespace OpenCms.Freerun

open Freerun.Tree

variable (config : Config)

/-! ### One file at a time -/

/-- An operation on the files: one is moved to the archive, or a node is written. -/
inductive Operation
  | move (id : NodeId)
  | write (node : ContextNode)
  deriving DecidableEq

def Operation.writes : Operation → Bool
  | .move _ => false
  | .write _ => true

def perform (disk : Disk) : Operation → Disk
  | .move id => Table.erase ContextNode.id id disk
  | .write node => Table.upsert ContextNode.id node disk

/-- The operations of `archiveSubtree`, up to the first file that is not there. -/
def moves : Disk → List NodeId → List Operation
  | _, [] => []
  | disk, id :: ids =>
    if (get disk id).isSome then .move id :: moves (Table.erase ContextNode.id id disk) ids else []

/-- The operations of `consolidate`, of so many turns. -/
def operations : ℕ → NodeId → List (Option String) → Disk → List Operation
  | 0, _, _, _ => []
  | n + 1, id, summaries, disk =>
    match load disk, get disk id with
    | some _, some candidate =>
      let upwards (summaries : List (Option String)) (disk : Disk) : List Operation :=
        candidate.parent_id.elim [] fun parent => operations n parent summaries disk
      if candidate.mode ≠ .decomposed then upwards summaries disk
      else if !isSubtreeComplete disk id then []
      else
        match summaries with
        | some summary :: summaries =>
          moves disk (descendants disk id) ++
            match archive disk (descendants disk id) with
            | (_, false) => []
            | (disk, true) =>
              match write config disk (consolidated candidate summary) with
              | none => []
              | some disk => .write (consolidated candidate summary) :: upwards summaries disk
        | _ => []
    | _, _ => []

def Closed (disk : Disk) : Prop :=
  ∀ node ∈ disk, ∀ id ∈ node.children_ids,
    (get disk id).isSome ∨ node.consolidated_summary ≠ none

instance (disk : Disk) : Decidable (Closed disk) :=
  inferInstanceAs (Decidable (∀ node ∈ disk, ∀ id ∈ node.children_ids,
    (get disk id).isSome ∨ node.consolidated_summary ≠ none))

/-- Between any two operations the files are closed, and the consolidation that begins again from
there, with the summaries that were not written yet, ends as it would have ended. -/
def CrashConsistent (turns : ℕ) (seed : NodeId) (summaries : List (Option String)) (w : World) :
    Prop :=
  ∀ past, past <+: operations config turns seed summaries w.disk →
    Closed (run perform w.disk past) ∧
      consolidate config turns seed (summaries.drop (past.countP Operation.writes))
        { w with disk := run perform w.disk past } = consolidate config turns seed summaries w

def afterOne : List (Option String) → Option (List (Option String))
  | some _ :: summaries => some summaries
  | _ => none

def MovesNothing (disk : Disk) : ℕ → NodeId → List (Option String) → Prop
  | 0, _, _ => True
  | n + 1, id, summaries =>
    ∀ candidate ∈ get disk id,
      (candidate.mode ≠ .decomposed →
        ∀ parent ∈ candidate.parent_id, MovesNothing disk n parent summaries) ∧
      (candidate.mode = .decomposed → isSubtreeComplete disk id = true →
        ∀ rest ∈ afterOne summaries, candidate.children_ids = [] ∧
          ∀ parent ∈ candidate.parent_id, MovesNothing disk n parent rest)

instance MovesNothing.instDecidable (disk : Disk) :
    (n : ℕ) → (id : NodeId) → (summaries : List (Option String)) →
      Decidable (MovesNothing disk n id summaries)
  | 0, _, _ => isTrue trivial
  | n + 1, id, summaries =>
    haveI := MovesNothing.instDecidable disk n
    inferInstanceAs (Decidable (∀ candidate ∈ get disk id,
      (candidate.mode ≠ .decomposed →
        ∀ parent ∈ candidate.parent_id, MovesNothing disk n parent summaries) ∧
      (candidate.mode = .decomposed → isSubtreeComplete disk id = true →
        ∀ rest ∈ afterOne summaries, candidate.children_ids = [] ∧
          ∀ parent ∈ candidate.parent_id, MovesNothing disk n parent rest)))

/-! ### One turn -/

section Turns

variable {config} {disk : Disk} {w : World} {candidate : ContextNode} {root : NodeId} {n : ℕ}
  {id : NodeId} {summaries rest : List (Option String)} {summary : String}

theorem mem_afterOne : rest ∈ afterOne summaries ↔
    ∃ summary, summaries = some summary :: rest := by
  rcases summaries with _ | ⟨_ | summary, summaries⟩
  · simp [afterOne]
  · simp [afterOne]
  · simp [afterOne, eq_comm]

theorem operations_up (hload : load disk = some root) (hget : get disk id = some candidate)
    (hmode : candidate.mode ≠ .decomposed) :
    operations config (n + 1) id summaries disk = candidate.parent_id.elim [] fun parent =>
      operations config n parent summaries disk := by
  rw [operations, hload, hget]
  exact if_pos hmode

theorem consolidate_up (hload : load w.disk = some root) (hget : get w.disk id = some candidate)
    (hmode : candidate.mode ≠ .decomposed) :
    consolidate config (n + 1) id summaries w = candidate.parent_id.elim w fun parent =>
      consolidate config n parent summaries w := by
  rw [consolidate, hload, hget]
  exact if_pos hmode

theorem turn_stop (config : Config) (hload : load w.disk = some root)
    (hget : get w.disk id = some candidate) (hmode : candidate.mode = .decomposed)
    (hstop : isSubtreeComplete w.disk id = true → afterOne summaries = none) :
    operations config (n + 1) id summaries w.disk = [] ∧
      consolidate config (n + 1) id summaries w = w := by
  rw [operations, consolidate, hload, hget]
  dsimp only
  rw [if_neg (not_not.mpr hmode), if_neg (not_not.mpr hmode)]
  split
  next => exact ⟨rfl, rfl⟩
  next hcomplete =>
    have hnone := hstop (by simpa using hcomplete)
    rcases summaries with _ | ⟨_ | summary, summaries⟩
    · exact ⟨rfl, rfl⟩
    · exact ⟨rfl, rfl⟩
    · cases hnone

theorem operations_summarize (hload : load disk = some root) (hget : get disk id = some candidate)
    (hmode : candidate.mode = .decomposed) (hcomplete : isSubtreeComplete disk id = true) :
    operations config (n + 1) id (some summary :: rest) disk =
      moves disk (descendants disk id) ++
        match archive disk (descendants disk id) with
        | (_, false) => []
        | (disk, true) =>
          match write config disk (consolidated candidate summary) with
          | none => []
          | some disk => .write (consolidated candidate summary) ::
            candidate.parent_id.elim [] fun parent => operations config n parent rest disk := by
  rw [operations, hload, hget]
  dsimp only
  rw [if_neg (not_not.mpr hmode), hcomplete]
  rfl

theorem consolidate_summarize (hload : load w.disk = some root)
    (hget : get w.disk id = some candidate) (hmode : candidate.mode = .decomposed)
    (hcomplete : isSubtreeComplete w.disk id = true) :
    consolidate config (n + 1) id (some summary :: rest) w =
      match archive w.disk (descendants w.disk id) with
      | (disk, false) => { w with disk := disk }
      | (disk, true) =>
        candidate.parent_id.elim
          (World.put config { w with disk := disk } (consolidated candidate summary))
          fun parent => consolidate config n parent rest
            (World.put config { w with disk := disk } (consolidated candidate summary)) := by
  rw [consolidate, hload, hget]
  dsimp only
  rw [if_neg (not_not.mpr hmode), hcomplete]
  rfl

end Turns

/-! ### The operations are those of the consolidation -/

section Operations

variable {config} {disk : Disk} {w : World} {id : NodeId} {ids : List NodeId}

theorem run_moves : run perform disk (moves disk ids) = (archive disk ids).1 := by
  induction ids generalizing disk with
  | nil => rfl
  | cons id ids ih =>
    rw [moves, archive]
    split
    · exact ih
    · rfl

/-- **Together the operations do what the consolidation does.** -/
theorem run_operations {n : ℕ} {summaries : List (Option String)} (h : Written config w.disk) :
    run perform w.disk (operations config n id summaries w.disk) =
      (consolidate config n id summaries w).disk := by
  induction n generalizing id summaries w with
  | zero => rfl
  | succ n ih =>
    rcases hload : load w.disk with _ | root
    · rw [operations, consolidate, hload]
      rfl
    rcases hget : get w.disk id with _ | candidate
    · rw [operations, consolidate, hload, hget]
      rfl
    have hmem : candidate ∈ w.disk := Table.mem_of_lookup hget
    have hup : ∀ (summaries : List (Option String)) (w : World), Written config w.disk →
        run perform w.disk (candidate.parent_id.elim [] fun parent =>
          operations config n parent summaries w.disk) =
        (candidate.parent_id.elim w fun parent =>
          consolidate config n parent summaries w).disk := by
      intro summaries w hw
      rcases candidate.parent_id with _ | parent
      · rfl
      · exact ih hw
    by_cases hmode : candidate.mode = .decomposed
    · by_cases hstop : isSubtreeComplete w.disk id = true → afterOne summaries = none
      · obtain ⟨hnil, hsame⟩ := turn_stop config hload hget hmode hstop
        rw [hnil, hsame]
        rfl
      · obtain ⟨hcomplete, hsome⟩ := Classical.not_imp.mp hstop
        obtain ⟨rest, hrest⟩ := Option.ne_none_iff_exists'.mp hsome
        obtain ⟨summary, rfl⟩ := mem_afterOne.mp hrest
        rw [operations_summarize hload hget hmode hcomplete,
          consolidate_summarize hload hget hmode hcomplete, run_append, run_moves]
        have hleft : Written config (archive w.disk (descendants w.disk id)).1 :=
          keeps_written.archive h
        rcases harchive : archive w.disk (descendants w.disk id) with ⟨disk, _ | _⟩
        · rfl
        · rw [harchive] at hleft
          have hwrite : write config disk (consolidated candidate summary) =
              some (Table.upsert ContextNode.id (consolidated candidate summary) disk) :=
            write_eq_some.mpr ⟨h.valid candidate hmem, rfl⟩
          have hput : World.put config ⟨disk, w.overwritten⟩ (consolidated candidate summary) =
              ⟨Table.upsert ContextNode.id (consolidated candidate summary) disk,
                w.overwritten⟩ := by
            rw [World.put]
            rw [hwrite]
            rfl
          dsimp only
          rw [hwrite, hput]
          have hwritten := hleft.write (fun _ => rfl) hwrite
          exact hup rest ⟨_, w.overwritten⟩ hwritten
    · rw [operations_up hload hget hmode, consolidate_up hload hget hmode]
      exact hup summaries w h

end Operations

/-! ### Summaries -/

def Bare (disk : Disk) : Prop :=
  ∀ node ∈ disk, node.mode ≠ .done → node.consolidated_summary = none

section Bare

variable {config} {disk : Disk} {node : ContextNode}

theorem Bare.upsert (h : Bare disk) (hnode : node.mode ≠ .done → node.consolidated_summary = none) :
    Bare (Table.upsert ContextNode.id node disk) := by
  intro other hother
  rcases Table.mem_upsert hother with rfl | ⟨hother, -⟩
  · exact hnode
  · exact h other hother

theorem Bare.picked (h : Bare disk) (hpicked : picked config disk = some node) :
    node.consolidated_summary = none := by
  obtain ⟨rootId, -, hpick⟩ := Option.bind_eq_some_iff.mp hpicked
  obtain ⟨hmem, hactionable⟩ := pickNext_spec hpick
  refine h node hmem fun hmode => ?_
  rw [isActionable, hmode] at hactionable
  cases hactionable

theorem keeps_bare : Keeps config Bare fun node =>
    node.mode ≠ .done → node.consolidated_summary = none where
  write h hnode hwrite := by
    obtain ⟨-, rfl⟩ := write_eq_some.mp hwrite
    exact h.upsert hnode
  erase _ h node hnode := h node (List.mem_of_mem_filter hnode)
  child _ _ _ := rfl
  consolidated _ _ hmode := absurd rfl hmode
  worked h hpicked _ _ _ := by
    have hnone := h.picked hpicked
    exact hnone
  decomposed h hpicked _ _ := by
    have hnone := h.picked hpicked
    exact hnone

end Bare

/-- The files are a tree of valid nodes, and only a node that is done has a summary. -/
structure Tidy (disk : Disk) : Prop where
  tree : IsTree disk
  written : Written config disk
  bare : Bare disk

section Tidy

variable {config} {disk : Disk} {w : World} {node candidate : ContextNode} {id : NodeId}

/-- **The files are tidy throughout a run whose plans name different files that are not there.** -/
theorem tidy_run {title : String} (hseed : (write config [] (seed title)).isSome)
    {events : List Event} (hcalm : Meets (step config) (Calm config) (World.init title) events) :
    Tidy config (run (step config) (World.init title) events).disk := by
  have hinit : (World.init title).Planted ∧ Written config (World.init title).disk ∧
      Bare (World.init title).disk := by
    refine ⟨planted_init, written_init hseed, fun node hnode _ => ?_⟩
    rw [List.mem_singleton.mp hnode]
    rfl
  obtain ⟨htree, hwritten, hbare⟩ := hcalm.invariant
    (fun w => w.Planted ∧ Written config w.disk ∧ Bare w.disk) hinit fun w e hinv hok => by
      obtain ⟨hplanted, hwritten, hbare⟩ := hinv
      exact ⟨(planted_step hwritten hplanted).mpr hok, hwritten.step, keeps_bare.step hbare⟩
  exact ⟨htree.tree, hwritten, hbare⟩

theorem IsTree.exists_load (h : IsTree disk) : ∃ root, load disk = some root := by
  obtain ⟨root, hmem, hnone, huniq⟩ := h.root
  have hin : root ∈ disk.filter fun node => node.parent_id = none :=
    List.mem_filter.mpr ⟨hmem, decide_eq_true hnone⟩
  have hall : ∀ node ∈ disk.filter fun node => node.parent_id = none, node = root := by
    intro node hnode
    obtain ⟨hnode, hparent⟩ := List.mem_filter.mp hnode
    exact huniq node hnode (of_decide_eq_true hparent)
  have hnodup : (disk.filter fun node => node.parent_id = none).Nodup :=
    (List.Nodup.of_map ContextNode.id h.names).filter _
  rw [load]
  generalize disk.filter (fun node => node.parent_id = none) = roots at hin hall hnodup
  rcases roots with _ | ⟨a, _ | ⟨b, rest⟩⟩
  · exact absurd hin List.not_mem_nil
  · exact ⟨a.id, rfl⟩
  · have hab : a = b := (hall a List.mem_cons_self).trans
      (hall b (List.mem_cons_of_mem a List.mem_cons_self)).symm
    rw [hab] at hnodup
    exact absurd List.mem_cons_self (List.nodup_cons.mp hnodup).1

theorem Tidy.closed (h : Tidy config disk) : Closed disk := by
  intro node hnode id hid
  obtain ⟨c, hc, rfl, -⟩ := h.tree.child node hnode id hid
  exact Or.inl (Table.isSome_lookup.mpr (List.mem_map_of_mem hc))

theorem Tidy.bare_of_mem_children (h : Tidy config disk) (hnode : node ∈ disk)
    (hid : id ∈ node.children_ids) : node.consolidated_summary = none := by
  refine h.bare node hnode fun hdone => ?_
  rw [h.written.leaf node hnode (by rw [hdone]; exact fun hmode => by cases hmode)] at hid
  cases hid

theorem IsTree.named_of_mem_descendants (h : IsTree disk) (hmem : candidate ∈ disk)
    (hid : id ∈ descendants disk candidate.id) :
    ∃ node ∈ disk, id ∈ node.children_ids ∧ node.id ≠ id := by
  obtain ⟨-, hbelow, hne⟩ := (mem_descendants h hmem).mp hid
  rcases Relation.ReflTransGen.cases_tail hbelow with heq | ⟨parent, -, hkid⟩
  · exact absurd heq hne
  obtain ⟨p, ids, hshape, hids⟩ := Family.exists_of_mem_kids hkid
  obtain ⟨node, hget, -, rfl⟩ := shape_eq_some.mp hshape
  obtain ⟨hnode, rfl⟩ := (get_eq_some h.names).mp hget
  refine ⟨node, hnode, hids, ?_⟩
  rintro rfl
  exact h.rooted.notMem_kids_of_below hshape Relation.ReflTransGen.refl hkid

theorem IsTree.descendants_eq_nil_iff (h : IsTree disk) (hmem : candidate ∈ disk) :
    descendants disk candidate.id = [] ↔ candidate.children_ids = [] := by
  have hshape := shape_of_mem h.names hmem
  constructor
  · intro hnil
    refine List.eq_nil_iff_forall_not_mem.mpr fun id hid => ?_
    obtain ⟨c, hc, rfl, -⟩ := h.child candidate hmem id hid
    have hkid : c.id ∈ kids disk candidate.id := by
      rw [kids, Family.kids_of_eq hshape]
      exact hid
    have hne : c.id ≠ candidate.id := by
      intro hsame
      rw [hsame] at hkid
      exact h.rooted.notMem_kids_of_below hshape Relation.ReflTransGen.refl hkid
    have hdescendant : c.id ∈ descendants disk candidate.id :=
      (mem_descendants h hmem).mpr ⟨Table.isSome_lookup.mpr (List.mem_map_of_mem hc),
        Relation.ReflTransGen.single hkid, hne⟩
    rw [hnil] at hdescendant
    cases hdescendant
  · intro hnil
    refine List.eq_nil_iff_forall_not_mem.mpr fun id hid => ?_
    obtain ⟨-, hbelow, hne⟩ := (mem_descendants h hmem).mp hid
    rcases Relation.ReflTransGen.cases_head hbelow with heq | ⟨c, hkid, -⟩
    · exact absurd heq.symm hne
    · rw [kids, Family.kids_of_eq hshape, hnil] at hkid
      cases hkid

end Tidy

/-! ### A node without children -/

section Childless

variable {config} {disk : Disk} {candidate : ContextNode} {summary : String} {a : NodeId}

theorem Tidy.summarized (h : Tidy config disk) (summary : String) (hmem : candidate ∈ disk)
    (hleaf : candidate.children_ids = []) :
    write config disk (consolidated candidate summary) =
        some (Table.upsert ContextNode.id (consolidated candidate summary) disk) ∧
      Tidy config (Table.upsert ContextNode.id (consolidated candidate summary) disk) ∧
      shape (Table.upsert ContextNode.id (consolidated candidate summary) disk) = shape disk := by
  have hwrite : write config disk (consolidated candidate summary) =
      some (Table.upsert ContextNode.id (consolidated candidate summary) disk) :=
    write_eq_some.mpr ⟨h.written.valid candidate hmem, rfl⟩
  have hwritten := h.written.write (fun _ => rfl) hwrite
  have hshape : shape (Table.upsert ContextNode.id (consolidated candidate summary) disk) =
      shape disk := by
    funext a
    rw [shape_upsert]
    split
    next ha =>
      have hname : (consolidated candidate summary).id = candidate.id := rfl
      rw [ha, hname, shape_of_mem h.tree.names hmem, hleaf]
      rfl
    next => rfl
  refine ⟨hwrite, ⟨isTree_iff.mpr ⟨hwritten.names, ?_⟩, hwritten, ?_⟩, hshape⟩
  · rw [hshape]
    exact h.tree.rooted
  · exact h.bare.upsert fun hmode => absurd rfl hmode

theorem turns_summarized (hnames : (disk.map ContextNode.id).Nodup) (hmem : candidate ∈ disk)
    (hleaf : candidate.children_ids = []) :
    turns (Table.upsert ContextNode.id (consolidated candidate summary) disk) = turns disk := by
  have hkey : candidate.id ∈ disk.map ContextNode.id := List.mem_map_of_mem hmem
  have hkey : (consolidated candidate summary).id ∈ disk.map ContextNode.id := hkey
  have hsame : ∀ node ∈ disk, (if node.id = candidate.id then consolidated candidate summary
      else node).children_ids = node.children_ids := by
    intro node hnode
    split
    next hid =>
      obtain rfl := List.inj_on_of_nodup_map hnames hnode hmem hid
      exact hleaf.symm
    next => rfl
  rw [turns, turns, Table.upsert, if_pos hkey, Table.update, List.length_map, List.flatMap_map]
  exact congrArg (fun ids : List NodeId => (ids.length + 2) ^ disk.length)
    (List.flatMap_congr fun node hnode => hsame node hnode)

theorem isSubtreeComplete_summarized (hnames : (disk.map ContextNode.id).Nodup)
    (hmem : candidate ∈ disk) (hleaf : candidate.children_ids = [])
    (hmode : candidate.mode = .decomposed) (hget : get disk candidate.id = some candidate)
    (hshape : shape (Table.upsert ContextNode.id (consolidated candidate summary) disk) =
      shape disk) :
    isSubtreeComplete (Table.upsert ContextNode.id (consolidated candidate summary) disk) a =
      isSubtreeComplete disk a := by
  have hkids : kids (Table.upsert ContextNode.id (consolidated candidate summary) disk) =
      kids disk := by
    funext b
    rw [kids, kids, hshape]
  rw [isSubtreeComplete, isSubtreeComplete, subtree, subtree, walkDFS_eq, walkDFS_eq,
    turns_summarized hnames hmem hleaf, hkids, List.all_filterMap, List.all_filterMap]
  refine congrArg (List.all _) (funext fun b => ?_)
  have hnew : get (Table.upsert ContextNode.id (consolidated candidate summary) disk) b =
      if b = candidate.id then some (consolidated candidate summary) else get disk b :=
    Table.lookup_upsert
  rw [hnew]
  by_cases hb : b = candidate.id
  · rw [if_pos hb, hb, hget]
    dsimp only
    rw [isActionable, isActionable, hmode]
    rfl
  · rw [if_neg hb]

end Childless

/-! ### Crashes -/

/-- What files become when nodes without children get their summaries. -/
structure After (disk disk' : Disk) : Prop where
  tidy : Tidy config disk'
  shape : shape disk' = shape disk
  settled : ∀ a node, get disk a = some node → node.mode ≠ .decomposed →
    ∃ node', get disk' a = some node' ∧ node'.mode ≠ .decomposed

section After

variable {config} {disk disk' disk'' : Disk} {candidate node : ContextNode} {summary : String}
  {n : ℕ} {id : NodeId} {summaries : List (Option String)} {w : World}

theorem After.refl (h : Tidy config disk) : After config disk disk :=
  ⟨h, rfl, fun _ node hget hmode => ⟨node, hget, hmode⟩⟩

theorem After.trans (h : After config disk disk') (h' : After config disk' disk'') :
    After config disk disk'' := by
  refine ⟨h'.tidy, h'.shape.trans h.shape, fun a node hget hmode => ?_⟩
  obtain ⟨node', hget', hmode'⟩ := h.settled a node hget hmode
  exact h'.settled a node' hget' hmode'

theorem Tidy.after_summarized (h : Tidy config disk) (hmem : candidate ∈ disk)
    (hleaf : candidate.children_ids = []) :
    After config disk (Table.upsert ContextNode.id (consolidated candidate summary) disk) := by
  obtain ⟨-, htidy, hshape⟩ := h.summarized summary hmem hleaf
  refine ⟨htidy, hshape, fun a node hget hmode => ?_⟩
  rw [Tree.get, Table.lookup_upsert]
  split
  next => exact ⟨_, rfl, fun hdone => by cases hdone⟩
  next => exact ⟨node, hget, hmode⟩

theorem Tidy.not_below_parent (h : Tidy config disk) (hmem : candidate ∈ disk) {parent : NodeId}
    (hparent : candidate.parent_id = some parent) :
    ¬Below (kids disk) candidate.id parent := by
  intro hbelow
  have hshape := shape_of_mem h.tree.names hmem
  have hnamed := hshape
  rw [hparent] at hnamed
  exact h.tree.rooted.notMem_kids_of_below hshape hbelow (h.tree.rooted.mem_kids_of_parent hnamed)

theorem Tidy.movesNothing_summarized (h : Tidy config disk) (hmem : candidate ∈ disk)
    (hmode : candidate.mode = .decomposed) (hleaf : candidate.children_ids = [])
    (hbelow : ¬Below (kids disk) candidate.id id) :
    MovesNothing (Table.upsert ContextNode.id (consolidated candidate summary) disk) n id
      summaries ↔ MovesNothing disk n id summaries := by
  obtain ⟨-, -, hshape⟩ := h.summarized summary hmem hleaf
  have hself : get disk candidate.id = some candidate :=
    (get_eq_some h.tree.names).mpr ⟨hmem, rfl⟩
  induction n generalizing id summaries with
  | zero => exact Iff.rfl
  | succ n ih =>
    have hsame : get (Table.upsert ContextNode.id (consolidated candidate summary) disk) id =
        get disk id := by
      rw [Tree.get, Table.lookup_upsert, if_neg]
      · rfl
      · rintro rfl
        exact hbelow Relation.ReflTransGen.refl
    rw [MovesNothing, MovesNothing, hsame,
      isSubtreeComplete_summarized h.tree.names hmem hleaf hmode hself hshape]
    refine forall_congr' fun node => forall_congr' fun hget => ?_
    have hup : ∀ parent ∈ node.parent_id, ∀ summaries,
        MovesNothing (Table.upsert ContextNode.id (consolidated candidate summary) disk) n parent
          summaries ↔ MovesNothing disk n parent summaries := by
      intro parent hparent summaries
      refine ih fun hbelow' => hbelow ?_
      have hnamed : shape disk id = some (some parent, node.children_ids) :=
        shape_eq_some.mpr ⟨node, hget, hparent, rfl⟩
      exact hbelow'.tail (h.tree.rooted.mem_kids_of_parent hnamed)
    refine and_congr ?_ ?_
    · refine forall_congr' fun _ => forall_congr' fun parent => forall_congr' fun hparent => ?_
      exact hup parent hparent summaries
    · refine forall_congr' fun _ => forall_congr' fun _ => forall_congr' fun rest =>
        forall_congr' fun _ => and_congr_right fun _ => ?_
      exact forall_congr' fun parent => forall_congr' fun hparent => hup parent hparent rest

/-- **After the first move a name leads nowhere.** -/
theorem Tidy.not_closed_of_move (h : Tidy config disk) (hmem : candidate ∈ disk)
    (hid : id ∈ descendants disk candidate.id) : ¬Closed (perform disk (.move id)) := by
  intro hclosed
  obtain ⟨node, hnode, hnamed, hne⟩ := h.tree.named_of_mem_descendants hmem hid
  have hleft : node ∈ perform disk (.move id) := Table.mem_erase.mpr ⟨hnode, hne⟩
  rcases hclosed node hleft id hnamed with hlive | hsummary
  · rw [perform, Tree.get, Table.lookup_erase, if_pos rfl] at hlive
    cases hlive
  · exact hsummary (h.bare_of_mem_children hnode hnamed)

/-- **If the files are closed between any two operations, nothing is moved.** -/
theorem Tidy.movesNothing (h : Tidy config disk)
    (hclosed : ∀ past, past <+: operations config n id summaries disk →
      Closed (run perform disk past)) : MovesNothing disk n id summaries := by
  induction n generalizing id summaries disk with
  | zero => trivial
  | succ n ih =>
    intro candidate hget
    obtain ⟨root, hload⟩ := h.tree.exists_load
    obtain ⟨hmem, rfl⟩ := (get_eq_some h.tree.names).mp hget
    refine ⟨fun hmode parent hparent => ?_, fun hmode hcomplete rest hrest => ?_⟩
    · rw [operations_up hload hget hmode, hparent] at hclosed
      exact ih h hclosed
    · obtain ⟨summary, rfl⟩ := mem_afterOne.mp hrest
      rw [operations_summarize hload hget hmode hcomplete] at hclosed
      have hleaf : candidate.children_ids = [] := by
        rw [← h.tree.descendants_eq_nil_iff hmem]
        rcases hmoves : descendants disk candidate.id with _ | ⟨first, others⟩
        · rfl
        · have hfirst : first ∈ descendants disk candidate.id := by
            rw [hmoves]
            exact List.mem_cons_self
          have hlive := ((mem_descendants h.tree hmem).mp hfirst).1
          refine absurd (hclosed [.move first] ?_) (h.not_closed_of_move hmem hfirst)
          rw [hmoves, moves, if_pos hlive, List.cons_append]
          exact List.cons_prefix_cons.mpr ⟨rfl, List.nil_prefix⟩
      obtain ⟨hwrite, htidy, -⟩ := h.summarized summary hmem hleaf
      refine ⟨hleaf, fun parent hparent => ?_⟩
      rw [(h.tree.descendants_eq_nil_iff hmem).mpr hleaf, archive, moves,
        List.nil_append] at hclosed
      dsimp only at hclosed
      rw [hwrite, hparent] at hclosed
      refine (h.movesNothing_summarized hmem hmode hleaf (h.not_below_parent hmem hparent)).mp
        (ih htidy fun past hpast => ?_)
      exact hclosed (.write (consolidated candidate summary) :: past)
        (List.cons_prefix_cons.mpr ⟨rfl, hpast⟩)

theorem After.consolidate_again (h : After config w.disk disk')
    (hget : get w.disk id = some candidate) (hmode : candidate.mode ≠ .decomposed) (n : ℕ)
    (summaries : List (Option String)) :
    consolidate config (n + 1) id summaries { w with disk := disk' } =
      candidate.parent_id.elim { w with disk := disk' } fun parent =>
        consolidate config n parent summaries { w with disk := disk' } := by
  obtain ⟨root, hload⟩ := h.tidy.tree.exists_load
  obtain ⟨node', hget', hmode'⟩ := h.settled id candidate hget hmode
  have hparent : node'.parent_id = candidate.parent_id := by
    have hshape : Tree.shape disk' id = Tree.shape w.disk id := by rw [h.shape]
    rw [Tree.shape, Tree.shape, hget', hget] at hshape
    exact (Prod.mk.inj (Option.some.inj hshape)).1
  rw [consolidate_up hload hget' hmode', hparent]

/-- **If nothing is moved, a consolidation can be made up for from any moment of it.** -/
theorem Tidy.again (h : Tidy config w.disk) (hnothing : MovesNothing w.disk n id summaries)
    {past : List Operation} (hpast : past <+: operations config n id summaries w.disk) :
    After config w.disk (run perform w.disk past) ∧
      consolidate config n id (summaries.drop (past.countP Operation.writes))
        { w with disk := run perform w.disk past } = consolidate config n id summaries w := by
  induction n generalizing id summaries w past with
  | zero =>
    rw [List.prefix_nil.mp hpast]
    exact ⟨After.refl h, rfl⟩
  | succ n ih =>
    obtain ⟨root, hload⟩ := h.tree.exists_load
    have hstays : past = [] → After config w.disk (run perform w.disk past) ∧
        consolidate config (n + 1) id (summaries.drop (past.countP Operation.writes))
          { w with disk := run perform w.disk past } =
            consolidate config (n + 1) id summaries w := by
      rintro rfl
      exact ⟨After.refl h, rfl⟩
    rcases hget : get w.disk id with _ | candidate
    · rw [operations, hload, hget] at hpast
      exact hstays (List.prefix_nil.mp hpast)
    obtain ⟨hmem, rfl⟩ := (get_eq_some h.tree.names).mp hget
    obtain ⟨hpass, hstay⟩ := hnothing candidate hget
    -- from a node to the one above it
    have hup : ∀ (summaries : List (Option String)) (w : World) (past : List Operation),
        Tidy config w.disk →
        (∀ parent ∈ candidate.parent_id, MovesNothing w.disk n parent summaries) →
        past <+: (candidate.parent_id.elim [] fun parent =>
          operations config n parent summaries w.disk) →
        After config w.disk (run perform w.disk past) ∧
          (candidate.parent_id.elim { w with disk := run perform w.disk past } fun parent =>
            consolidate config n parent (summaries.drop (past.countP Operation.writes))
              { w with disk := run perform w.disk past }) =
            candidate.parent_id.elim w fun parent => consolidate config n parent summaries w := by
      intro summaries w past h hnothing hpast
      rcases hparent : candidate.parent_id with _ | parent
      · rw [hparent] at hpast
        rw [List.prefix_nil.mp hpast]
        exact ⟨After.refl h, rfl⟩
      · rw [hparent] at hpast
        exact ih h (hnothing parent hparent) hpast
    by_cases hmode : candidate.mode = .decomposed
    · by_cases hstop : isSubtreeComplete w.disk candidate.id = true → afterOne summaries = none
      · rw [(turn_stop config hload hget hmode hstop).1] at hpast
        exact hstays (List.prefix_nil.mp hpast)
      · obtain ⟨hcomplete, hsome⟩ := Classical.not_imp.mp hstop
        obtain ⟨rest, hrest⟩ := Option.ne_none_iff_exists'.mp hsome
        obtain ⟨summary, rfl⟩ := mem_afterOne.mp hrest
        obtain ⟨hleaf, hrest⟩ := hstay hmode hcomplete rest hrest
        obtain ⟨hwrite, htidy, -⟩ := h.summarized summary hmem hleaf
        have hnil := (h.tree.descendants_eq_nil_iff hmem).mpr hleaf
        rw [operations_summarize hload hget hmode hcomplete, hnil, archive, moves,
          List.nil_append] at hpast
        dsimp only at hpast
        rw [hwrite] at hpast
        rcases past with _ | ⟨first, past⟩
        · exact ⟨After.refl h, rfl⟩
        obtain ⟨rfl, hlater⟩ := List.cons_prefix_cons.mp hpast
        have hput : w.put config (consolidated candidate summary) =
            { w with
              disk := Table.upsert ContextNode.id (consolidated candidate summary) w.disk } := by
          rw [World.put, hwrite]
          rfl
        obtain ⟨hafter, hend⟩ := hup rest (w.put config (consolidated candidate summary)) past
          (by rw [hput]; exact htidy)
          (fun parent hparent => by
            rw [hput]
            exact (h.movesNothing_summarized hmem hmode hleaf
              (h.not_below_parent hmem hparent)).mpr (hrest parent hparent))
          (by rw [hput]; exact hlater)
        rw [hput] at hafter hend
        have hself : get (Table.upsert ContextNode.id (consolidated candidate summary) w.disk)
            candidate.id = some (consolidated candidate summary) := by
          rw [Tree.get, Table.lookup_upsert]
          exact if_pos rfl
        refine ⟨(h.after_summarized hmem hleaf).trans hafter, ?_⟩
        rw [consolidate_summarize hload hget hmode hcomplete, hnil, archive]
        dsimp only
        rw [hput, ← hend, List.countP_cons_of_pos rfl, List.drop_succ_cons, run_cons]
        have hagain := After.consolidate_again (w := { w with
          disk := Table.upsert ContextNode.id (consolidated candidate summary) w.disk }) hafter
          hself (fun hdone => by cases hdone) n (rest.drop (past.countP Operation.writes))
        exact hagain
    · rw [operations_up hload hget hmode] at hpast
      obtain ⟨hafter, hend⟩ := hup summaries w past h (hpass hmode) hpast
      refine ⟨hafter, ?_⟩
      rw [hafter.consolidate_again hget hmode n, hend, consolidate_up hload hget hmode]

end After

/-- **A consolidation can be stopped at any moment, and be made up for, exactly if nothing is
moved.** -/
theorem crashConsistent_iff (turns : ℕ) (seed : NodeId) (summaries : List (Option String))
    (w : World) (h : Tidy config w.disk) :
    CrashConsistent config turns seed summaries w ↔ MovesNothing w.disk turns seed summaries := by
  constructor
  · intro hconsistent
    exact h.movesNothing fun past hpast => (hconsistent past hpast).1
  · intro hnothing past hpast
    obtain ⟨hafter, hend⟩ := h.again hnothing hpast
    exact ⟨hafter.tidy.closed, hend⟩

def oneOfTwo : List Event :=
  [.once (some [⟨['a'], "first", some .pendingExec⟩, ⟨['b'], "second", some .pendingExec⟩]) none,
    .once none (some .done)]

theorem oneOfTwo_crashConsistent :
    CrashConsistent anyConfig 3 ['r', 'o', 'o', 't', '.', 'a'] [some "both"]
      (run (step anyConfig) (World.init "goal") oneOfTwo) :=
  (crashConsistent_iff anyConfig 3 _ _ _ (tidy_run (by decide) (by decide))).mpr (by decide)

def onlyOne : List Event :=
  [.once (some [⟨['a'], "first", some .pendingExec⟩]) none, .once none (some .done)]

/-- **A crash after the first move leaves a name that leads nowhere**, and what was interrupted is
not made up for. -/
theorem not_crashConsistent :
    (¬∀ (config : Config) turns seed summaries (w : World) past, Tidy config w.disk →
      past <+: operations config turns seed summaries w.disk → Closed (run perform w.disk past)) ∧
    ¬∀ (config : Config) turns seed summaries (w : World) past, Tidy config w.disk →
      past <+: operations config turns seed summaries w.disk →
        consolidate config turns seed (summaries.drop (past.countP Operation.writes))
          { w with disk := run perform w.disk past } =
            consolidate config turns seed summaries w := by
  have htidy : Tidy anyConfig (run (step anyConfig) (World.init "goal") onlyOne).disk :=
    tidy_run (by decide) (by decide)
  have hpast : [Operation.move ['r', 'o', 'o', 't', '.', 'a']] <+:
      operations anyConfig 3 ['r', 'o', 'o', 't', '.', 'a'] [some "all"]
        (run (step anyConfig) (World.init "goal") onlyOne).disk := by decide
  constructor
  · intro h
    have hclosed := h anyConfig 3 _ _ _ _ htidy hpast
    revert hclosed
    decide
  · intro h
    have hsame := congrArg World.disk (h anyConfig 3 _ _ _ _ htidy hpast)
    revert hsame
    decide

end OpenCms.Freerun
