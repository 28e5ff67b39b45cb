import OpenCms.Freerun.Tree
import OpenCms.Lib.Runs
import Mathlib.Data.List.TakeWhile

/-!
# Iterations and consolidation

An iteration takes the next node of the tree. A node that is to be planned gets the children that a
planner names, each written to a file under a name made from the one of its parent; a node that is
to be worked on is marked by the outcome. When everything below a node is settled, the nodes below
it are moved to the archive.

The names are not looked up before they are written. So the files stay a tree exactly if every plan
has different names, none of them the name of a file, that the file system takes
(`OpenCms.Freerun.planted_iff`).
-/

namespace OpenCms.Freerun

open Freerun.Tree

/-- A child in a `PlanningOutcome`. -/
structure PlannedChild where
  id : NodeId
  title : String
  mode : Option NodeMode
  deriving DecidableEq

/-- `ExecutionOutcome["next_mode"]`. -/
inductive NextMode
  | done
  | blocked
  | pendingPlan
  deriving DecidableEq

def NextMode.toMode : NextMode → NodeMode
  | .done => .done
  | .blocked => .blocked
  | .pendingPlan => .pendingPlan

/-- `/^[a-z0-9][a-z0-9._-]*$/`. -/
def isNodeId : NodeId → Bool
  | [] => false
  | c :: rest =>
    (c.isLower || c.isDigit) &&
      rest.all fun c => c.isLower || c.isDigit || c = '.' || c = '_' || c = '-'

def parses (children : List PlannedChild) : Bool :=
  children ≠ [] && children.all fun child => isNodeId child.id && child.title ≠ ""

def ensureNamespacedChildId (parentId childIdFromLlm : NodeId) : NodeId :=
  if (parentId ++ ['.']).isPrefixOf childIdFromLlm then childIdFromLlm
  else if childIdFromLlm = parentId then parentId ++ ['.', 'c', 'h', 'i', 'l', 'd']
  else parentId ++ '.' :: childIdFromLlm

/-- What is decided outside of the tree: the names that the file system takes, the plans that
`NoMetaIcom.assertValid` refuses, and the level down to which everything is planned first. -/
structure Config where
  fits : NodeId → Bool
  refuses : List PlannedChild → Bool
  topLevelsToPlan : ℕ

/-- The files, and the names of those that a plan wrote over though they had another parent. -/
structure World where
  disk : Disk
  overwritten : List NodeId

/-- What happens: an iteration, with the outcome of the planner and the next mode of the work if
there is one, or a consolidation of so many turns with the summaries that are made. -/
inductive Event
  | once (planning : Option (List PlannedChild)) (execution : Option NextMode)
  | consolidate (seed : NodeId) (turns : ℕ) (summaries : List (Option String))

variable (config : Config) {planning : Option (List PlannedChild)}
  {summaries : List (Option String)}

def write (disk : Disk) (node : ContextNode) : Option Disk :=
  if isNodeId node.id && node.title ≠ "" && config.fits node.id then
    some (Table.upsert ContextNode.id node disk)
  else none

def childNode (parent : NodeId) (child : PlannedChild) : ContextNode where
  id := ensureNamespacedChildId parent child.id
  parent_id := some parent
  children_ids := []
  title := child.title
  mode := child.mode.getD .pendingPlan
  iteration_count := 0
  consolidated_summary := none

/-- The names that a plan wrote over a node of another parent. -/
def foreign (disk : Disk) (parent id : NodeId) : List NodeId :=
  match get disk id with
  | some existing => if existing.parent_id = some parent then [] else [id]
  | none => []

/-- The children of a plan are written one after another, up to the first that cannot be. -/
def writeChildren (parent : NodeId) : World → List PlannedChild → World × Bool
  | w, [] => (w, true)
  | w, child :: children =>
    let node := childNode parent child
    match write config w.disk node with
    | none => (w, false)
    | some disk =>
      writeChildren parent ⟨disk, w.overwritten ++ foreign w.disk parent node.id⟩ children

/-- A node is written in the place of the one with its name; if it cannot be, an error is
thrown. -/
def World.put (w : World) (node : ContextNode) : World :=
  { w with disk := (write config w.disk node).getD w.disk }

def blockNode (w : World) (node : ContextNode) : World :=
  w.put config { node with mode := .blocked, iteration_count := node.iteration_count + 1 }

def plannedIds (parent : NodeId) (children : List PlannedChild) : List NodeId :=
  children.map fun child => ensureNamespacedChildId parent child.id

def decomposed (node : ContextNode) (children : List PlannedChild) : ContextNode :=
  { node with
    children_ids := node.children_ids ++ plannedIds node.id children
    mode := .decomposed
    iteration_count := node.iteration_count + 1 }

def accepts (planning : Option (List PlannedChild)) : Option (List PlannedChild) :=
  planning.filter fun children => parses children && !config.refuses children

def runPlanning (w : World) (node : ContextNode) (planning : Option (List PlannedChild)) : World :=
  match accepts config planning with
  | none => blockNode config w node
  | some children =>
    match writeChildren config node.id w children with
    | (w', false) => w'
    | (w', true) => w'.put config (decomposed node children)

def runExecution (w : World) (node : ContextNode) (execution : Option NextMode) : World :=
  match execution with
  | none => blockNode config w node
  | some next =>
    w.put config
      { node with mode := next.toMode, iteration_count := node.iteration_count + 1 }

def picked (disk : Disk) : Option ContextNode :=
  (load disk).bind fun rootId => pickNext disk rootId config.topLevelsToPlan

def once (w : World) (planning : Option (List PlannedChild)) (execution : Option NextMode) :
    World :=
  match picked config w.disk with
  | none => w
  | some node =>
    if node.mode = .pendingPlan then runPlanning config w node planning
    else runExecution config w node execution

/-- `NodeFS.archive` of one node after another, up to the first that is not there. -/
def archive : Disk → List NodeId → Disk × Bool
  | disk, [] => (disk, true)
  | disk, id :: ids =>
    if (get disk id).isSome then archive (Table.erase ContextNode.id id disk) ids
    else (disk, false)

def descendants (disk : Disk) (id : NodeId) : List NodeId :=
  (((subtree disk id).map ContextNode.id).filter fun other => other ≠ id).reverse

def consolidated (candidate : ContextNode) (summary : String) : ContextNode :=
  { candidate with
    children_ids := []
    mode := .done
    consolidated_summary := some summary }

/-- `consolidate`, of so many turns. -/
def consolidate : ℕ → NodeId → List (Option String) → World → World
  | 0, _, _, w => w
  | n + 1, id, summaries, w =>
    match load w.disk, get w.disk id with
    | some _, some candidate =>
      let upwards (summaries : List (Option String)) (w : World) : World :=
        candidate.parent_id.elim w fun parent => consolidate n parent summaries w
      if candidate.mode ≠ .decomposed then upwards summaries w
      else if !isSubtreeComplete w.disk id then w
      else
        match summaries with
        | some summary :: summaries =>
          match archive w.disk (descendants w.disk id) with
          | (disk, false) => { w with disk := disk }
          | (disk, true) =>
            upwards summaries (World.put config { w with disk := disk }
              (consolidated candidate summary))
        | _ => w
    | _, _ => w

def step (w : World) : Event → World
  | .once planning execution => once config w planning execution
  | .consolidate seed turns summaries => consolidate config turns seed summaries w

def seed (title : String) : ContextNode where
  id := ['r', 'o', 'o', 't']
  parent_id := none
  children_ids := []
  title := title
  mode := .pendingPlan
  iteration_count := 0
  consolidated_summary := none

def World.init (title : String) : World := ⟨[seed title], []⟩

/-- The files form a tree, and no plan wrote over a node of another parent. -/
structure World.Planted (w : World) : Prop where
  tree : IsTree w.disk
  kept : w.overwritten = []

/-- What an event must meet: a plan that is carried out names different files that are not there
and that the file system takes, or else its first file is not taken, and nothing is written. -/
def Calm (w : World) : Event → Prop
  | .once planning _ => ∀ node ∈ picked config w.disk, node.mode = .pendingPlan →
      ∀ children ∈ accepts config planning,
        ((plannedIds node.id children).Nodup ∧
          (∀ id ∈ plannedIds node.id children, get w.disk id = none) ∧
          ∀ id ∈ plannedIds node.id children, config.fits id) ∨
        ∃ id ∈ (plannedIds node.id children).head?, config.fits id = false
  | .consolidate _ _ _ => True

instance : (e : Event) → (w : World) → Decidable (Calm config w e)
  | .once planning _, w =>
    inferInstanceAs (Decidable (∀ node ∈ picked config w.disk, node.mode = .pendingPlan →
      ∀ children ∈ accepts config planning,
        ((plannedIds node.id children).Nodup ∧ (∀ id ∈ plannedIds node.id children,
          Tree.get w.disk id = none) ∧ ∀ id ∈ plannedIds node.id children, config.fits id) ∨
        ∃ id ∈ (plannedIds node.id children).head?, config.fits id = false))
  | .consolidate _ _ _, _ => isTrue trivial

/-! ### What is written -/

section Keeps

variable {config} {disk disk' : Disk} {node : ContextNode} {w : World} {id : NodeId}

theorem write_eq_some : write config disk node = some disk' ↔
    (isNodeId node.id ∧ node.title ≠ "" ∧ config.fits node.id) ∧
      Table.upsert ContextNode.id node disk = disk' := by
  simp [write, and_assoc]

def collapse (config : Config) (w : World) (candidate : ContextNode) (id : NodeId)
    (summary : String) : World :=
  match archive w.disk (descendants w.disk id) with
  | (disk, false) => { w with disk := disk }
  | (disk, true) => World.put config { w with disk := disk } (consolidated candidate summary)

theorem consolidate_keeps {P : World → Prop}
    (hcollapse : ∀ w id candidate summary, P w → get w.disk id = some candidate →
      P (collapse config w candidate id summary)) {n : ℕ} (h : P w) :
    P (consolidate config n id summaries w) := by
  induction n generalizing id summaries w with
  | zero => exact h
  | succ n ih =>
    rw [consolidate]
    split
    next candidate _ hget =>
      have hup : ∀ (summaries : List (Option String)) (w : World), P w →
          P (candidate.parent_id.elim w fun parent =>
            consolidate config n parent summaries w) := by
        intro summaries w hw
        rcases candidate.parent_id with _ | parent
        · exact hw
        · exact ih hw
      split
      next => exact hup _ _ h
      next =>
        split
        next => exact h
        next =>
          split
          next summary summaries =>
            have hturn := hcollapse w id candidate summary h hget
            rw [collapse] at hturn
            split
            next disk heq =>
              rw [heq] at hturn
              exact hturn
            next disk heq =>
              rw [heq] at hturn
              exact hup _ _ hturn
          next => exact h
    next => exact h

/-- What the steps keep: it stays when a node that may be written is, and when a file is moved
away. -/
structure Keeps (config : Config) (Inv : Disk → Prop) (May : ContextNode → Prop) : Prop where
  write : ∀ {disk disk' node}, Inv disk → May node → write config disk node = some disk' → Inv disk'
  erase : ∀ {disk} id, Inv disk → Inv (Table.erase ContextNode.id id disk)
  child : ∀ parent child, May (childNode parent child)
  consolidated : ∀ candidate summary, May (consolidated candidate summary)
  worked : ∀ {disk node}, Inv disk → picked config disk = some node →
    ∀ mode n, May { node with mode := mode, iteration_count := n }
  decomposed : ∀ {disk node}, Inv disk → picked config disk = some node →
    ∀ children, May (decomposed node children)

namespace Keeps

variable {Inv : Disk → Prop} {May : ContextNode → Prop} (hkeeps : Keeps config Inv May)

include hkeeps

theorem put (h : Inv w.disk) (hmay : May node) : Inv (w.put config node).disk := by
  rw [World.put]
  rcases hwrite : Freerun.write config w.disk node with _ | disk'
  · exact h
  · exact hkeeps.write h hmay hwrite

theorem writeChildren {parent : NodeId} {children : List PlannedChild} (h : Inv w.disk) :
    Inv (writeChildren config parent w children).1.disk := by
  induction children generalizing w with
  | nil => exact h
  | cons child children ih =>
    rw [Freerun.writeChildren]
    rcases hwrite : Freerun.write config w.disk (childNode parent child) with _ | disk'
    · exact h
    · exact ih (hkeeps.write h (hkeeps.child parent child) hwrite)

theorem archive {ids : List NodeId} (h : Inv disk) : Inv (archive disk ids).1 := by
  induction ids generalizing disk with
  | nil => exact h
  | cons id ids ih =>
    rw [Freerun.archive]
    split
    next => exact ih (hkeeps.erase id h)
    next => exact h

theorem step {e : Event} (h : Inv w.disk) : Inv (step config w e).disk := by
  cases e with
  | once planning execution =>
    rw [Freerun.step, once]
    split
    next => exact h
    next node hpicked =>
      have hworked := hkeeps.worked h hpicked
      split
      next =>
        rw [runPlanning]
        split
        next => exact hkeeps.put h (hworked _ _)
        next children _ =>
          have hchildren : Inv (Freerun.writeChildren config node.id w children).1.disk :=
            hkeeps.writeChildren h
          split
          next w' heq =>
            rw [heq] at hchildren
            exact hchildren
          next w' heq =>
            rw [heq] at hchildren
            exact hkeeps.put hchildren (hkeeps.decomposed h hpicked children)
      next =>
        rcases execution with _ | next
        · exact hkeeps.put h (hworked _ _)
        · exact hkeeps.put h (hworked _ _)
  | consolidate seed turns summaries =>
    refine consolidate_keeps (P := fun w => Inv w.disk) (fun w id candidate summary h _ => ?_) h
    have harchive : Inv (Freerun.archive w.disk (descendants w.disk id)).1 := hkeeps.archive h
    rw [collapse]
    split
    next disk heq =>
      rw [heq] at harchive
      exact harchive
    next disk heq =>
      rw [heq] at harchive
      exact hkeeps.put (w := ⟨disk, w.overwritten⟩) harchive (hkeeps.consolidated candidate summary)

end Keeps

end Keeps

/-- Every file was written once, with a valid node; a node that is not decomposed has no children. -/
structure Written (disk : Disk) : Prop where
  names : (disk.map ContextNode.id).Nodup
  valid : ∀ node ∈ disk, isNodeId node.id ∧ node.title ≠ "" ∧ config.fits node.id
  leaf : ∀ node ∈ disk, node.mode ≠ .decomposed → node.children_ids = []

section Written

variable {config} {disk disk' : Disk} {node : ContextNode} {w : World}

theorem Written.write (h : Written config disk) (hleaf : node.mode ≠ .decomposed →
    node.children_ids = []) (hwrite : write config disk node = some disk') :
    Written config disk' := by
  obtain ⟨hvalid, rfl⟩ := write_eq_some.mp hwrite
  refine ⟨Table.nodup_upsert h.names, fun other hother => ?_, fun other hother => ?_⟩
  · rcases Table.mem_upsert hother with rfl | ⟨hother, -⟩
    · exact hvalid
    · exact h.valid other hother
  · rcases Table.mem_upsert hother with rfl | ⟨hother, -⟩
    · exact hleaf
    · exact h.leaf other hother

theorem Written.picked (h : Written config disk) (hpicked : picked config disk = some node) :
    node ∈ disk ∧ node.children_ids = [] := by
  obtain ⟨rootId, -, hpick⟩ := Option.bind_eq_some_iff.mp hpicked
  obtain ⟨hmem, hactionable⟩ := pickNext_spec hpick
  refine ⟨hmem, h.leaf node hmem fun hmode => ?_⟩
  rw [isActionable, hmode] at hactionable
  cases hactionable

theorem keeps_written : Keeps config (Written config) fun node =>
    node.mode ≠ .decomposed → node.children_ids = [] where
  write h hleaf hwrite := h.write hleaf hwrite
  erase _ h := ⟨Table.nodup_erase h.names,
    fun node hnode => h.valid node (List.mem_of_mem_filter hnode),
    fun node hnode => h.leaf node (List.mem_of_mem_filter hnode)⟩
  child _ _ _ := rfl
  consolidated _ _ _ := rfl
  worked h hpicked _ _ _ := (h.picked hpicked).2
  decomposed _ _ _ hmode := absurd rfl hmode

/-- **Every step leaves valid files.** -/
theorem Written.step {e : Event} (h : Written config w.disk) :
    Written config (step config w e).disk :=
  keeps_written.step h

end Written

/-! ### Names -/

theorem length_lt_ensureNamespacedChildId {parent id : NodeId} :
    parent.length < (ensureNamespacedChildId parent id).length := by
  rw [ensureNamespacedChildId]
  split
  next hpre =>
    have hle := (List.isPrefixOf_iff_prefix.mp hpre).length_le
    rw [List.length_append, List.length_singleton] at hle
    omega
  next =>
    split
    · simp
    · rw [List.length_append, List.length_cons]
      omega

theorem ensureNamespacedChildId_ne {parent id : NodeId} :
    ensureNamespacedChildId parent id ≠ parent := fun h =>
  absurd (congrArg List.length h) length_lt_ensureNamespacedChildId.ne'

theorem keeps_grown : Keeps config Grown fun node =>
    ∀ id ∈ node.children_ids, node.id.length < id.length where
  write h hnode hwrite := by
    obtain ⟨-, rfl⟩ := write_eq_some.mp hwrite
    intro other hother
    rcases Table.mem_upsert hother with rfl | ⟨hother, -⟩
    · exact hnode
    · exact h other hother
  erase _ h node hnode := h node (List.mem_of_mem_filter hnode)
  child _ _ _ hid := absurd hid List.not_mem_nil
  consolidated _ _ _ hid := absurd hid List.not_mem_nil
  worked h hpicked _ _ := by
    obtain ⟨rootId, -, hpick⟩ := Option.bind_eq_some_iff.mp hpicked
    have hkids := h _ (pickNext_spec hpick).1
    exact hkids
  decomposed h hpicked children id hid := by
    obtain ⟨rootId, -, hpick⟩ := Option.bind_eq_some_iff.mp hpicked
    rcases List.mem_append.mp hid with hid | hid
    · exact h _ (pickNext_spec hpick).1 id hid
    · obtain ⟨child, -, rfl⟩ := List.mem_map.mp hid
      exact length_lt_ensureNamespacedChildId

theorem grown_init {title : String} : Grown (World.init title).disk := by
  intro node hnode id hid
  rw [List.mem_singleton.mp hnode] at hid
  exact absurd hid List.not_mem_nil

/-- **Whatever the plans name, no name leads back**, so that every walk of a run comes to its end. -/
theorem grown_run (title : String) (events : List Event) :
    Grown (run (step config) (World.init title) events).disk :=
  run_invariant (fun w : World => Grown w.disk) grown_init (fun _ _ h => (keeps_grown config).step h) events

/-! ### Plans -/

section Planning

variable {config} {disk : Disk} {node node' : ContextNode} {w : World} {a id parent : NodeId}
  {children : List PlannedChild} {p : Option NodeId} {ids : List NodeId}

theorem shape_upsert : shape (Table.upsert ContextNode.id node disk) a =
    if a = node.id then some (node.parent_id, node.children_ids) else shape disk a := by
  rw [shape, Tree.get, Table.lookup_upsert, apply_ite (Option.map _)]
  rfl

theorem World.Planted.put (h : w.Planted) (hmem : node ∈ w.disk) (hid : node'.id = node.id)
    (hparent : node'.parent_id = node.parent_id) (hkids : node'.children_ids = node.children_ids) :
    (w.put config node').Planted := by
  refine ⟨?_, h.kept⟩
  rw [World.put]
  rcases hwrite : write config w.disk node' with _ | disk'
  · exact h.tree
  · obtain ⟨-, rfl⟩ := write_eq_some.mp hwrite
    have hshape : shape (Table.upsert ContextNode.id node' w.disk) = shape w.disk := by
      funext a
      rw [shape_upsert]
      split
      next ha => rw [ha, hid, shape_of_mem h.tree.names hmem, hparent, hkids]
      next => rfl
    refine isTree_iff.mpr ⟨Table.nodup_upsert h.tree.names, ?_⟩
    rw [Option.getD_some, hshape]
    exact h.tree.rooted

/-! The names of planned children. -/

theorem isNodeId_append {q : NodeId} (h : isNodeId parent) (hq : q.all fun c =>
    c.isLower || c.isDigit || c = '.' || c = '_' || c = '-') : isNodeId (parent ++ q) := by
  rcases parent with _ | ⟨c, rest⟩
  · cases h
  · rw [isNodeId, Bool.and_eq_true] at h
    rw [List.cons_append, isNodeId, List.all_append, h.1, h.2, hq]
    rfl

theorem all_of_isNodeId (h : isNodeId id) : id.all fun c =>
    c.isLower || c.isDigit || c = '.' || c = '_' || c = '-' := by
  rcases id with _ | ⟨c, rest⟩
  · cases h
  · rw [isNodeId, Bool.and_eq_true, Bool.or_eq_true] at h
    rw [List.all_cons, h.2, Bool.and_true]
    rcases h.1 with hc | hc
    · rw [hc]
      rfl
    · rw [hc, Bool.or_true]
      rfl

theorem isNodeId_ensureNamespacedChildId (hparent : isNodeId parent) (hid : isNodeId id) :
    isNodeId (ensureNamespacedChildId parent id) := by
  rw [ensureNamespacedChildId]
  split
  · exact hid
  · split
    · exact isNodeId_append hparent (by decide)
    · refine isNodeId_append hparent ?_
      rw [List.all_cons, all_of_isNodeId hid]
      rfl

theorem plannedIds_cons {child : PlannedChild} : plannedIds parent (child :: children) =
    ensureNamespacedChildId parent child.id :: plannedIds parent children := rfl

def writtenIds (config : Config) (parent : NodeId) (children : List PlannedChild) : List NodeId :=
  (plannedIds parent children).takeWhile config.fits

theorem writtenIds_cons {child : PlannedChild} : writtenIds config parent (child :: children) =
    if config.fits (ensureNamespacedChildId parent child.id) then
      ensureNamespacedChildId parent child.id :: writtenIds config parent children
    else [] := by
  rw [writtenIds, plannedIds_cons, List.takeWhile_cons, writtenIds]

theorem writeChildren_cons {child : PlannedChild} (hparent : isNodeId parent)
    (hvalid : isNodeId child.id ∧ child.title ≠ "") :
    writeChildren config parent w (child :: children) =
      if config.fits (ensureNamespacedChildId parent child.id) then
        writeChildren config parent
          ⟨Table.upsert ContextNode.id (childNode parent child) w.disk,
            w.overwritten ++ foreign w.disk parent (childNode parent child).id⟩ children
      else (w, false) := by
  have hname : isNodeId (childNode parent child).id :=
    isNodeId_ensureNamespacedChildId hparent hvalid.1
  rw [writeChildren]
  split
  next hnone =>
    rw [if_neg]
    intro hfits
    rw [write_eq_some.mpr ⟨⟨hname, hvalid.2, hfits⟩, rfl⟩] at hnone
    cases hnone
  next disk' hsome =>
    obtain ⟨⟨-, -, hfits⟩, rfl⟩ := write_eq_some.mp hsome
    exact (if_pos hfits).symm

/-- The children that a plan leaves: those before the first whose name is not taken, and of several
with one name the last. -/
def standing (config : Config) (parent : NodeId) : List PlannedChild → List PlannedChild
  | [] => []
  | child :: children =>
    if config.fits (ensureNamespacedChildId parent child.id) then
      if ensureNamespacedChildId parent child.id ∈ writtenIds config parent children then
        standing config parent children
      else child :: standing config parent children
    else []

theorem mem_writeChildren (hparent : isNodeId parent)
    (hvalid : ∀ child ∈ children, isNodeId child.id ∧ child.title ≠ "") :
    node ∈ (writeChildren config parent w children).1.disk ↔
      (∃ child ∈ standing config parent children, node = childNode parent child) ∨
        node ∈ w.disk ∧ node.id ∉ writtenIds config parent children := by
  induction children generalizing w with
  | nil => simp [writeChildren, standing, writtenIds, plannedIds]
  | cons child children ih =>
    obtain ⟨hchild, hrest⟩ := List.forall_mem_cons.mp hvalid
    have hname : (childNode parent child).id = ensureNamespacedChildId parent child.id := rfl
    rw [writeChildren_cons hparent hchild, writtenIds_cons, standing]
    by_cases hfits : config.fits (ensureNamespacedChildId parent child.id)
    · rw [if_pos hfits, if_pos hfits, if_pos hfits, ih hrest, Table.mem_upsert_iff, hname,
        List.mem_cons, not_or]
      by_cases hagain : ensureNamespacedChildId parent child.id ∈ writtenIds config parent children
      · rw [if_pos hagain]
        refine or_congr_right ⟨?_, fun h => ⟨Or.inr ⟨h.1, h.2.1⟩, h.2.2⟩⟩
        rintro ⟨rfl | ⟨hmem, hne⟩, hnot⟩
        · exact absurd hagain hnot
        · exact ⟨hmem, hne, hnot⟩
      · rw [if_neg hagain]
        simp only [List.exists_mem_cons_iff]
        constructor
        · rintro (hstands | ⟨rfl | ⟨hmem, hne⟩, hnot⟩)
          · exact Or.inl (Or.inr hstands)
          · exact Or.inl (Or.inl rfl)
          · exact Or.inr ⟨hmem, hne, hnot⟩
        · rintro ((rfl | hstands) | ⟨hmem, hne, hnot⟩)
          · exact Or.inr ⟨Or.inl rfl, hagain⟩
          · exact Or.inl hstands
          · exact Or.inr ⟨Or.inr ⟨hmem, hne⟩, hnot⟩
    · rw [if_neg hfits, if_neg hfits, if_neg hfits]
      simp

theorem foreign_eq_nil : foreign disk parent id = [] ↔
    ∀ p ids, shape disk id = some (p, ids) → p = some parent := by
  rw [foreign]
  rcases hget : Tree.get disk id with _ | node
  · simp [shape, hget]
  · simp [shape, hget]

/-- **What `writeChildren` writes**: the children up to the first whose name is not taken, and it
notes those that were there with another parent. -/
theorem writeChildren_spec (config : Config) (w : World) (hparent : isNodeId parent)
    (hvalid : ∀ child ∈ children, isNodeId child.id ∧ child.title ≠ "") :
    (∀ a, shape (writeChildren config parent w children).1.disk a =
      if a ∈ writtenIds config parent children then some (some parent, []) else shape w.disk a) ∧
    ((writeChildren config parent w children).1.overwritten = [] ↔ w.overwritten = [] ∧
      ∀ a ∈ writtenIds config parent children, ∀ p ids, shape w.disk a = some (p, ids) →
        p = some parent) ∧
    ((writeChildren config parent w children).2 ↔
      ∀ a ∈ plannedIds parent children, config.fits a) := by
  induction children generalizing w with
  | nil => simp [writeChildren, writtenIds, plannedIds]
  | cons child children ih =>
    obtain ⟨hchild, hrest⟩ := List.forall_mem_cons.mp hvalid
    rw [writeChildren_cons hparent hchild, writtenIds_cons, plannedIds_cons, List.forall_mem_cons]
    by_cases hfits : config.fits (ensureNamespacedChildId parent child.id)
    · have hshape : ∀ a, shape (Table.upsert ContextNode.id (childNode parent child) w.disk) a =
          if a = ensureNamespacedChildId parent child.id then some (some parent, [])
          else shape w.disk a := fun _ => shape_upsert
      rw [if_pos hfits, if_pos hfits, List.forall_mem_cons]
      obtain ⟨ihshape, ihkept, ihall⟩ := ih
        ⟨Table.upsert ContextNode.id (childNode parent child) w.disk,
          w.overwritten ++ foreign w.disk parent (childNode parent child).id⟩ hrest
      refine ⟨fun a => ?_, ihkept.trans ?_, ihall.trans (and_iff_right hfits).symm⟩
      · rw [ihshape, hshape]
        by_cases hmem : a ∈ writtenIds config parent children
        · rw [if_pos hmem, if_pos (List.mem_cons_of_mem _ hmem)]
        · by_cases ha : a = ensureNamespacedChildId parent child.id
          · rw [if_neg hmem, if_pos ha, if_pos (List.mem_cons.mpr (Or.inl ha))]
          · rw [if_neg hmem, if_neg ha, if_neg]
            rintro hcons
            exact (List.mem_cons.mp hcons).elim ha hmem
      · -- a name that stands again has the parent of the plan by then
        have hlater : ∀ a, (∀ p ids, shape (Table.upsert ContextNode.id (childNode parent child)
            w.disk) a = some (p, ids) → p = some parent) ↔
              a = ensureNamespacedChildId parent child.id ∨
                ∀ p ids, shape w.disk a = some (p, ids) → p = some parent := by
          intro a
          rw [hshape]
          by_cases ha : a = ensureNamespacedChildId parent child.id
          · simp [ha]
          · simp [ha]
        rw [List.append_eq_nil_iff, foreign_eq_nil, and_assoc]
        refine and_congr_right fun _ => ⟨?_, ?_⟩
        · rintro ⟨hfirst, hothers⟩
          refine ⟨hfirst, fun a ha => ?_⟩
          rcases (hlater a).mp (hothers a ha) with rfl | h
          · exact hfirst
          · exact h
        · rintro ⟨hfirst, hothers⟩
          exact ⟨hfirst, fun a ha => (hlater a).mpr (Or.inr (hothers a ha))⟩
    · simp [hfits]

theorem not_planted_of_orphan (ha : shape w.disk a = some (some parent, ids))
    (hparent : shape w.disk parent = some (p, [])) : ¬ w.Planted := by
  intro h
  have hmem := h.tree.rooted.mem_kids_of_parent ha
  rw [Family.kids_of_eq hparent] at hmem
  cases hmem

theorem mem_writtenIds (h : a ∈ writtenIds config parent children) :
    a ∈ plannedIds parent children := (List.takeWhile_sublist _).mem h

theorem notMem_plannedIds : parent ∉ plannedIds parent children := by
  intro hmem
  obtain ⟨child, -, hself⟩ := List.mem_map.mp hmem
  exact ensureNamespacedChildId_ne hself

section Plan

variable (hwritten : Written config w.disk) (hmem : node ∈ w.disk)
  (hleaf : node.children_ids = [])
  (hvalid : ∀ child ∈ children, isNodeId child.id ∧ child.title ≠ "")

include hwritten hmem hleaf hvalid

theorem planted_decomposed {w' : World} (h : w.Planted)
    (heq : writeChildren config node.id w children = (w', true)) :
    (w'.put config (decomposed node children)).Planted ↔
      (plannedIds node.id children).Nodup ∧
        ∀ id ∈ plannedIds node.id children, Tree.get w.disk id = none := by
  obtain ⟨hid, htitle, hfits⟩ := hwritten.valid node hmem
  obtain ⟨hshape, hkept, hall⟩ := writeChildren_spec config w hid hvalid
  have hnames : (w'.disk.map ContextNode.id).Nodup := by
    have hthere : Written config (writeChildren config node.id w children).1.disk :=
      keeps_written.writeChildren hwritten
    rw [heq] at hthere
    exact hthere.names
  rw [heq] at hshape hkept hall
  have hself : writtenIds config node.id children = plannedIds node.id children :=
    List.takeWhile_eq_self_iff.mpr (hall.mp rfl)
  rw [hself] at hshape hkept
  have hx : shape w.disk node.id = some (node.parent_id, []) := by
    rw [shape_of_mem hwritten.names hmem, hleaf]
  have hwrite : write config w'.disk (decomposed node children) =
      some (Table.upsert ContextNode.id (decomposed node children) w'.disk) :=
    write_eq_some.mpr ⟨⟨hid, htitle, hfits⟩, rfl⟩
  have hgraft : shape (Table.upsert ContextNode.id (decomposed node children) w'.disk) =
      (shape w.disk).graft node.id node.parent_id (plannedIds node.id children) := by
    have hkids : (decomposed node children).children_ids = plannedIds node.id children := by
      rw [decomposed, hleaf, List.nil_append]
    have hname : (decomposed node children).id = node.id := rfl
    funext a
    rw [shape_upsert, hkids, hshape, hname, Family.graft]
    by_cases ha : a = node.id
    · rw [if_pos ha, ha, if_neg notMem_plannedIds, if_pos rfl]
      rfl
    · rw [if_neg ha, if_neg ha]
      by_cases hplan : a ∈ plannedIds node.id children
      · rw [if_pos hplan, if_pos hplan]
      · rw [if_neg hplan, if_neg hplan]
  rw [World.put, hwrite, Option.getD_some]
  constructor
  · intro hplanted
    have hnew := hplanted.tree.rooted
    rw [hgraft] at hnew
    have hkids : (shape w.disk).graft node.id node.parent_id (plannedIds node.id children) node.id =
        some (node.parent_id, plannedIds node.id children) := by
      rw [Family.graft, if_neg notMem_plannedIds, if_pos rfl]
    refine ⟨hnew.once _ _ _ hkids, fun id hplan => ?_⟩
    rcases hget : Tree.get w.disk id with _ | existing
    · rfl
    · -- whoever was there had the node for its parent, but the node named nobody
      have hexisting : shape w.disk id = some (existing.parent_id, existing.children_ids) :=
        shape_eq_some.mpr ⟨existing, hget, rfl, rfl⟩
      rw [(hkept.mp hplanted.kept).2 id hplan _ _ hexisting] at hexisting
      exact absurd h (not_planted_of_orphan hexisting hx)
  · rintro ⟨hnodup, hfresh⟩
    have hnone : ∀ id ∈ plannedIds node.id children, shape w.disk id = none := by
      intro id hplan
      rw [shape, hfresh id hplan]
      rfl
    refine ⟨isTree_iff.mpr ⟨Table.nodup_upsert hnames, ?_⟩, hkept.mpr ⟨h.kept, ?_⟩⟩
    · rw [hgraft]
      exact h.tree.rooted.graft hx hnodup hnone
    · intro id hplan p ids hsome
      rw [hnone id hplan] at hsome
      cases hsome

theorem not_planted_of_unwritten {w' : World}
    (heq : writeChildren config node.id w children = (w', false))
    (hhead : ∃ id ∈ (plannedIds node.id children).head?, config.fits id) : ¬ w'.Planted := by
  obtain ⟨hid, -, -⟩ := hwritten.valid node hmem
  obtain ⟨hshape, -, -⟩ := writeChildren_spec config w hid hvalid
  rw [heq] at hshape
  obtain ⟨id, hhead, hfits⟩ := hhead
  obtain ⟨rest, hplan⟩ := List.head?_eq_some_iff.mp hhead
  have hfirst : id ∈ writtenIds config node.id children := by
    have hids : plannedIds node.id children = id :: rest := hplan
    rw [writtenIds, hids, List.takeWhile_cons, if_pos hfits]
    exact List.mem_cons_self
  have hx : shape w'.disk node.id = some (node.parent_id, []) := by
    rw [hshape, if_neg fun hself => notMem_plannedIds (mem_writtenIds hself),
      shape_of_mem hwritten.names hmem, hleaf]
  exact not_planted_of_orphan ((hshape id).trans (if_pos hfirst)) hx

end Plan

/-- **A plan keeps the tree exactly if it names different files that are not there**, all of which
can be written, or else nothing is written. -/
theorem planted_runPlanning (hwritten : Written config w.disk) (h : w.Planted)
    (hmem : node ∈ w.disk) (hleaf : node.children_ids = []) :
    (runPlanning config w node planning).Planted ↔ ∀ children ∈ accepts config planning,
      ((plannedIds node.id children).Nodup ∧
          (∀ id ∈ plannedIds node.id children, Tree.get w.disk id = none) ∧
          ∀ id ∈ plannedIds node.id children, config.fits id) ∨
        ∃ id ∈ (plannedIds node.id children).head?, config.fits id = false := by
  rw [runPlanning]
  rcases haccepts : accepts config planning with _ | children
  · refine iff_of_true (h.put hmem rfl rfl rfl) ?_
    rintro children ⟨⟩
  obtain ⟨hne, hvalid⟩ : children ≠ [] ∧
      ∀ child ∈ children, isNodeId child.id ∧ child.title ≠ "" := by
    obtain ⟨-, hp⟩ := Option.filter_eq_some_iff.mp haccepts
    simpa [parses] using (Bool.and_eq_true_iff.mp hp).1
  obtain ⟨hid, -, -⟩ := hwritten.valid node hmem
  obtain ⟨-, -, hall⟩ := writeChildren_spec config w hid hvalid
  simp only [Option.mem_some_iff, forall_eq']
  rcases heq : writeChildren config node.id w children with ⟨w', _ | _⟩
  · rw [heq] at hall
    by_cases hhead : ∃ id ∈ (plannedIds node.id children).head?, config.fits id
    · refine iff_of_false (not_planted_of_unwritten hwritten hmem hleaf hvalid heq hhead) ?_
      rintro (⟨-, -, hfits⟩ | ⟨id, hid, hfits⟩)
      · cases hall.mpr hfits
      · obtain ⟨id', hid', hfits'⟩ := hhead
        obtain rfl := Option.mem_unique hid hid'
        rw [hfits] at hfits'
        cases hfits'
    · -- the first child is not taken, so nothing was written
      rcases children with _ | ⟨child, children⟩
      · exact absurd rfl hne
      have hfits : ¬ config.fits (ensureNamespacedChildId node.id child.id) :=
        fun hfits => hhead ⟨_, rfl, hfits⟩
      rw [writeChildren_cons hid (hvalid child List.mem_cons_self), if_neg hfits] at heq
      obtain ⟨rfl, -⟩ := Prod.mk.inj heq
      exact iff_of_true h (Or.inr ⟨_, rfl, Bool.eq_false_iff.mpr hfits⟩)
  · rw [heq] at hall
    have hfits := hall.mp rfl
    refine (planted_decomposed hwritten hmem hleaf hvalid h heq).trans ⟨?_, ?_⟩
    · rintro ⟨hnodup, hfresh⟩
      exact Or.inl ⟨hnodup, hfresh, hfits⟩
    · rintro (⟨hnodup, hfresh, -⟩ | ⟨id, hhead, hunfit⟩)
      · exact ⟨hnodup, hfresh⟩
      · rw [hfits id (List.mem_of_mem_head? hhead)] at hunfit
        cases hunfit

end Planning

/-! ### Consolidation -/

section Consolidation

variable {config} {disk : Disk} {node candidate : ContextNode} {w : World} {a id : NodeId}
  {ids : List NodeId}

theorem archive_spec (hnodup : ids.Nodup) (hlive : ∀ id ∈ ids, (Tree.get disk id).isSome) :
    (archive disk ids).2 = true ∧
      ∀ a, Tree.get (archive disk ids).1 a = if a ∈ ids then none else Tree.get disk a := by
  induction ids generalizing disk with
  | nil => exact ⟨rfl, fun a => (if_neg List.not_mem_nil).symm⟩
  | cons id ids ih =>
    obtain ⟨hid, hrest⟩ := List.forall_mem_cons.mp hlive
    obtain ⟨hnew, hnodup⟩ := List.nodup_cons.mp hnodup
    have hget : ∀ a, Tree.get (Table.erase ContextNode.id id disk) a =
        if a = id then none else Tree.get disk a := fun a => Table.lookup_erase
    obtain ⟨hall, hleft⟩ := ih hnodup fun other hother => by
      rw [hget, if_neg (ne_of_mem_of_not_mem hother hnew)]
      exact hrest other hother
    rw [archive, if_pos hid]
    refine ⟨hall, fun a => ?_⟩
    rw [hleft, hget]
    by_cases ha : a = id
    · rw [if_pos ha, ite_self, if_pos (List.mem_cons.mpr (Or.inl ha))]
    · by_cases hmem : a ∈ ids
      · rw [if_pos hmem, if_pos (List.mem_cons_of_mem id hmem)]
      · rw [if_neg hmem, if_neg ha, if_neg]
        rintro hcons
        exact (List.mem_cons.mp hcons).elim ha hmem

theorem mem_descendants (h : IsTree disk) (hmem : node ∈ disk) : a ∈ descendants disk node.id ↔
    (Tree.get disk a).isSome ∧ Below (kids disk) node.id a ∧ a ≠ node.id := by
  rw [descendants, List.mem_reverse, List.mem_filter, List.mem_map, decide_eq_true_iff]
  constructor
  · rintro ⟨⟨other, hother, rfl⟩, hne⟩
    obtain ⟨hlive, hbelow⟩ := (mem_subtree h hmem).mp hother
    exact ⟨Table.isSome_lookup.mpr (List.mem_map_of_mem hlive), hbelow, hne⟩
  · rintro ⟨hlive, hbelow, hne⟩
    obtain ⟨other, hother, rfl⟩ := List.mem_map.mp (Table.isSome_lookup.mp hlive)
    exact ⟨⟨other, (mem_subtree h hmem).mpr ⟨hother, hbelow⟩, rfl⟩, hne⟩

/-- **What is below a node can be moved away**, and the node takes its place. -/
theorem planted_collapse (hwritten : Written config w.disk) (h : w.Planted)
    (hmem : candidate ∈ w.disk) (summary : String) :
    ∃ disk, archive w.disk (descendants w.disk candidate.id) = (disk, true) ∧
      Written config disk ∧
      (World.put config { w with disk := disk } (consolidated candidate summary)).Planted := by
  have hnodup : (descendants w.disk candidate.id).Nodup := by
    rw [descendants, List.nodup_reverse]
    exact (nodup_subtree h.tree hmem).filter _
  obtain ⟨hall, hleft⟩ := archive_spec hnodup
    fun a ha => ((mem_descendants h.tree hmem).mp ha).1
  have harchive : Written config (archive w.disk (descendants w.disk candidate.id)).1 :=
    keeps_written.archive hwritten
  rcases heq : archive w.disk (descendants w.disk candidate.id) with ⟨disk, ok⟩
  rw [heq] at hall hleft harchive
  obtain rfl : ok = true := hall
  refine ⟨disk, rfl, harchive, ?_, h.kept⟩
  have hwrite : write config disk (consolidated candidate summary) =
      some (Table.upsert ContextNode.id (consolidated candidate summary) disk) :=
    write_eq_some.mpr ⟨hwritten.valid candidate hmem, rfl⟩
  have hname : (consolidated candidate summary).id = candidate.id := rfl
  rw [World.put, hwrite, Option.getD_some]
  refine isTree_iff.mpr ⟨Table.nodup_upsert harchive.names, ?_⟩
  convert h.tree.rooted.prune (shape_of_mem h.tree.names hmem) using 1
  funext a
  rw [shape_upsert, hname, Family.prune]
  by_cases ha : a = candidate.id
  · rw [if_pos ha, if_pos ha]
    rfl
  · rw [if_neg ha, if_neg ha, shape, hleft]
    by_cases hbelow : Below (shape w.disk).kids candidate.id a
    · split
      next => rfl
      next hmem' =>
        rcases hget : Tree.get w.disk a with _ | node
        · rfl
        · have hlive : (Tree.get w.disk a).isSome := Option.isSome_of_eq_some hget
          exact absurd ((mem_descendants h.tree hmem).mpr ⟨hlive, hbelow, ha⟩) hmem'
    · rw [if_neg fun hmem' => hbelow ((mem_descendants h.tree hmem).mp hmem').2.1, if_neg hbelow]
      rfl

theorem World.Planted.consolidate {n : ℕ} (hwritten : Written config w.disk) (h : w.Planted) :
    (consolidate config n id summaries w).Planted := by
  refine (consolidate_keeps (P := fun w => Written config w.disk ∧ w.Planted)
    (fun w id candidate summary h hget => ?_) ⟨hwritten, h⟩).2
  obtain ⟨hwritten, h⟩ := h
  obtain ⟨hmem, rfl⟩ := (get_eq_some hwritten.names).mp hget
  obtain ⟨disk, harchive, hleft, hplanted⟩ := planted_collapse hwritten h hmem summary
  rw [collapse, harchive]
  exact ⟨keeps_written.put (w := ⟨disk, w.overwritten⟩) hleft fun _ => rfl, hplanted⟩

end Consolidation

/-- **A step keeps the tree exactly if its plan does.** -/
theorem planted_step {config : Config} {w : World} {e : Event}
    (hwritten : Written config w.disk) (h : w.Planted) :
    (step config w e).Planted ↔ Calm config w e := by
  cases e with
  | once planning execution =>
    rw [step, once, Calm]
    rcases hpicked : picked config w.disk with _ | node
    · refine iff_of_true h ?_
      rintro node ⟨⟩
    obtain ⟨hmem, hleaf⟩ := hwritten.picked hpicked
    simp only [Option.mem_some_iff, forall_eq']
    by_cases hmode : node.mode = .pendingPlan
    · rw [if_pos hmode, planted_runPlanning hwritten h hmem hleaf]
      exact ⟨fun hcalm _ => hcalm, fun hcalm => hcalm hmode⟩
    · rw [if_neg hmode]
      refine iff_of_true ?_ fun hplan => absurd hplan hmode
      rcases execution with _ | next
      · exact h.put hmem rfl rfl rfl
      · exact h.put hmem rfl rfl rfl
  | consolidate seed turns summaries => exact iff_of_true (h.consolidate hwritten) trivial

section Claim

variable {config} {title : String}

theorem planted_init : (World.init title).Planted := by
  have hkids : ∀ node ∈ [seed title], node.children_ids = [] := by
    rintro node hnode
    rw [List.mem_singleton.mp hnode]
    rfl
  refine ⟨⟨List.nodup_singleton _, ?_, ?_, List.nodup_nil, ?_⟩, rfl⟩
  · exact ⟨seed title, List.mem_singleton_self _, rfl, fun node hnode _ => List.mem_singleton.mp hnode⟩
  · rintro node hnode id hid
    rw [hkids node hnode] at hid
    cases hid
  · rintro root hroot - node hnode
    rw [List.mem_singleton.mp hroot, List.mem_singleton.mp hnode]
    exact Relation.ReflTransGen.refl

theorem written_init (hseed : (write config [] (seed title)).isSome) :
    Written config (World.init title).disk := by
  obtain ⟨disk, hwrite⟩ := Option.isSome_iff_exists.mp hseed
  have hempty : Written config [] :=
    ⟨List.nodup_nil, fun _ h => absurd h List.not_mem_nil, fun _ h => absurd h List.not_mem_nil⟩
  have hwritten : Written config disk := hempty.write (fun _ => rfl) hwrite
  obtain ⟨-, rfl⟩ := write_eq_some.mp hwrite
  exact hwritten

end Claim

/-- Every name can be written, no plan is refused, and three levels are planned first. -/
def anyConfig : Config := ⟨fun _ => true, fun _ => false, 3⟩

end OpenCms.Freerun
