import OpenCms.Lib.JsString
import OpenCms.Lib.Runs
import OpenCms.Lib.Table

/-!
# Updates of the todo list

The progress of a task, and a list that is sent again with some statuses changed, both end in a
merge: for each todo that is stored, the first todo of the new list with its name, or with its
content up to case and blanks, says what becomes of it.

So a todo takes over what was asked of an earlier one with the same content. A run of updates is
the one that is asked for exactly if in each step the first todo with the same name or content is
asked to have the same status, and if it is not addressed, the priority and the action that the todo
has (`OpenCms.Todo.expected_iff`).
-/

namespace OpenCms.Todo

/-! ### Todos -/

/-- `Action.kind`. -/
inductive Kind
  | implement
  | delegate
  | wait
  | approval
  | decision
  | push
  | destructive
  | architectureChange
  deriving DecidableEq

/-- `Action.risk`. -/
inductive Risk
  | low
  | medium
  | high
  deriving DecidableEq

/-- `Action.waitingOn`. -/
inductive WaitingOn
  | subagent
  | approval
  | decision
  | external
  deriving DecidableEq

structure Action where
  kind : Kind
  risk : Option Risk := none
  needsApproval : Option Bool := none
  canDelegate : Option Bool := none
  waitingOn : Option WaitingOn := none
  dependsOn : Option (List JsString) := none
  deriving DecidableEq

structure Info where
  content : JsString
  status : JsString
  priority : Option JsString
  id : JsString
  action : Option Action
  deriving DecidableEq

def pending : JsString := js "pending"

def inProgress : JsString := js "in_progress"

def completed : JsString := js "completed"

def cancelled : JsString := js "cancelled"

section Update

variable (toLowerCase : JsString → JsString)

def inferActionFromContent (todo : Info) : Action :=
  let text := toLowerCase todo.content
  let has (words : List String) : Bool := words.any fun word => includes text (js word)
  if has ["push", "deploy", "release", "publish"] then
    { kind := .push, risk := some .high, needsApproval := some true }
  else if has ["delete", "remove", "drop ", "reset", "destroy"] then
    { kind := .destructive, risk := some .high, needsApproval := some true }
  else if has ["wait for", "blocked by", "waiting on"] then
    if has ["subagent", "worker"] then { kind := .wait, waitingOn := some .subagent }
    else if has ["approval"] then
      { kind := .approval, waitingOn := some .approval, needsApproval := some true }
    else if has ["decision"] then { kind := .decision, waitingOn := some .decision }
    else { kind := .wait, waitingOn := some .external }
  else if has ["delegate", "subagent", "hand off"] then
    { kind := .delegate, canDelegate := some true }
  else { kind := .implement, canDelegate := if todo.status = pending then some true else none }

def enrich (todo : Info) : Info :=
  { todo with action := some (todo.action.getD (inferActionFromContent toLowerCase todo)) }

def enrichAll (todos : List Info) : List Info := todos.map (enrich toLowerCase)

def collapse : Bool → JsString → JsString
  | _, [] => []
  | inside, c :: s =>
    if JsString.isWhiteSpace c then if inside then collapse true s else 32 :: collapse true s
    else c :: collapse false s

def normalizeContent (content : JsString) : JsString :=
  collapse false (toLowerCase (JsString.trim content))

/-- Whether a todo of the new list has the name or the content of a stored one. -/
def matching (todo candidate : Info) : Bool :=
  candidate.id = todo.id ||
    normalizeContent toLowerCase candidate.content = normalizeContent toLowerCase todo.content

def applyStatusOnlyUpdate (current incoming : List Info) : List Info :=
  (enrichAll toLowerCase current).map fun todo =>
    match (enrichAll toLowerCase incoming).find? (matching toLowerCase todo) with
    | none => todo
    | some incomingTodo =>
      { todo with
        status := incomingTodo.status
        priority := incomingTodo.priority.or todo.priority
        action := incomingTodo.action.or todo.action }

/-! ### Progress -/

def isDependencyReady (todo : Info) (todos : List Info) : Bool :=
  ((todo.action.bind Action.dependsOn).getD []).all fun id =>
    (todos.find? fun candidate => candidate.id = id).any fun found => found.status = completed

def nextActionableTodo (todos : List Info) : Option Info :=
  (todos.find? fun todo => todo.status = inProgress).or
    (todos.find? fun todo => todo.status = pending && isDependencyReady todo todos)

inductive TaskStatus
  | returned
  | completed
  | error
  deriving DecidableEq

def unwait (action : Option Action) : Option Action :=
  action.map fun action =>
    if action.waitingOn = some .subagent then { action with waitingOn := none } else action

def started (status : JsString) : JsString := if status = pending then inProgress else status

def TaskStatus.progress (taskStatus : TaskStatus) (todo : Info) : Info :=
  match taskStatus with
  | .returned => { todo with status := started todo.status, action := unwait todo.action }
  | .completed => { todo with status := Todo.completed, action := unwait todo.action }
  | .error =>
    { todo with
      status := started todo.status
      action := match todo.action with
        | some action =>
          some (if action.waitingOn = some .subagent then action
            else { action with waitingOn := some .subagent })
        | none => some { kind := .wait, waitingOn := some .subagent } }

def isLinked (linkedTodoID : Option JsString) (id : JsString) : Bool :=
  linkedTodoID = some id && id ≠ []

def linked (linkedTodoID : Option JsString) (taskStatus : TaskStatus) (current : List Info) :
    List Info :=
  enrichAll toLowerCase (current.map fun todo =>
    if isLinked linkedTodoID todo.id then taskStatus.progress todo else todo)

def promoted (taskStatus : TaskStatus) (todos : List Info) : Option JsString :=
  if taskStatus = .completed ∧ ¬todos.any fun todo => todo.status = inProgress then
    ((nextActionableTodo todos).filter fun next => next.status = pending).map Info.id
  else none

def promote (taskStatus : TaskStatus) (todos : List Info) : List Info :=
  match promoted taskStatus todos with
  | none => todos
  | some id =>
    match todos.findIdx? fun todo => todo.id = id with
    | none => todos
    | some index => todos.modify index fun todo => { todo with status := inProgress }

def isSettled (linkedTodoID : Option JsString) (taskStatus : TaskStatus) (current : List Info) :
    Bool :=
  taskStatus = .completed &&
    (current.find? fun todo => isLinked linkedTodoID todo.id).any fun todo =>
      todo.status = completed || todo.status = cancelled

/-! ### Calls -/

/-- A call: the outcome of a task, or a list that is sent again with some statuses changed. -/
inductive Call
  | reconcileProgress (linkedTodoID : Option JsString) (taskStatus : TaskStatus)
  | statusUpdate (statuses : JsString → Option JsString)

def Call.todos (call : Call) (current : List Info) : Option (List Info) :=
  match call with
  | .reconcileProgress linkedTodoID taskStatus =>
    if current = [] then none
    else if isSettled linkedTodoID taskStatus current then none
    else some (promote taskStatus (linked toLowerCase linkedTodoID taskStatus current))
  | .statusUpdate statuses =>
    some (current.map fun todo => { todo with status := (statuses todo.id).getD todo.status })

/-- The todos that a call is about: the linked one and the one that is started, or those with a
status. -/
def Call.addresses (call : Call) (current : List Info) (id : JsString) : Bool :=
  match call with
  | .reconcileProgress linkedTodoID taskStatus =>
    isLinked linkedTodoID id ||
      promoted taskStatus (linked toLowerCase linkedTodoID taskStatus current) = some id
  | .statusUpdate statuses => (statuses id).isSome

/-- What is stored, and what is expected: each todo as it was, but with the status that the last
call that addressed it asked for. -/
structure World where
  todos : List Info
  expected : List Info
  deriving DecidableEq

def expects (addressed : JsString → Bool) (asked stored : List Info) (todo : Info) : Info :=
  if addressed todo.id then
    { (Table.lookup Info.id stored todo.id).getD todo with
      status := ((Table.lookup Info.id asked todo.id).map Info.status).getD todo.status }
  else todo

def step (world : World) (call : Call) : World :=
  match call.todos toLowerCase world.todos with
  | none => world
  | some todos =>
    let stored := applyStatusOnlyUpdate toLowerCase world.todos todos
    ⟨stored, world.expected.map (expects (call.addresses toLowerCase world.todos) todos stored)⟩

def Call.asks (call : Call) (current : List Info) (todo : Info) : Info :=
  match call with
  | .reconcileProgress linkedTodoID taskStatus =>
    let progressed := enrich toLowerCase
      (if isLinked linkedTodoID todo.id then taskStatus.progress todo else todo)
    if promoted taskStatus (linked toLowerCase linkedTodoID taskStatus current) = some todo.id then
      { progressed with status := inProgress }
    else progressed
  | .statusUpdate statuses => { todo with status := (statuses todo.id).getD todo.status }

def Unmixed (world : World) (call : Call) : Prop :=
  (call.todos toLowerCase world.todos).isSome → ∀ todo ∈ world.todos,
    ∀ first ∈ world.todos.find? (matching toLowerCase todo),
      (call.asks toLowerCase world.todos first).status =
          (call.asks toLowerCase world.todos todo).status ∧
        (call.addresses toLowerCase world.todos todo.id = false →
          first.priority.or todo.priority = todo.priority ∧
            (enrich toLowerCase (call.asks toLowerCase world.todos first)).action = todo.action)

instance (world : World) (call : Call) : Decidable (Unmixed toLowerCase world call) :=
  inferInstanceAs (Decidable (_ → ∀ todo ∈ world.todos,
    ∀ first ∈ world.todos.find? (matching toLowerCase todo), _ ∧ (_ → _ ∧ _)))

/-! ### What the merge makes of a list that is asked for -/

section Merge

variable {toLowerCase : JsString → JsString} {current asked : List Info} {call : Call}
  {todo first : Info}

theorem matching_self : matching toLowerCase todo todo = true := by
  rw [matching, decide_eq_true rfl, Bool.true_or]

theorem asks_id : (call.asks toLowerCase current todo).id = todo.id := by
  rcases call with ⟨linkedTodoID, taskStatus⟩ | statuses
  · rw [Call.asks]
    split <;> split <;> cases taskStatus <;> rfl
  · rfl

theorem asks_content : (call.asks toLowerCase current todo).content = todo.content := by
  rcases call with ⟨linkedTodoID, taskStatus⟩ | statuses
  · rw [Call.asks]
    split <;> split <;> cases taskStatus <;> rfl
  · rfl

theorem asks_priority : (call.asks toLowerCase current todo).priority = todo.priority := by
  rcases call with ⟨linkedTodoID, taskStatus⟩ | statuses
  · rw [Call.asks]
    split <;> split <;> cases taskStatus <;> rfl
  · rfl

theorem asks_status (h : call.addresses toLowerCase current todo.id = false) :
    (call.asks toLowerCase current todo).status = todo.status := by
  rcases call with ⟨linkedTodoID, taskStatus⟩ | statuses
  · obtain ⟨hlinked, hpromoted⟩ := Bool.or_eq_false_iff.mp h
    rw [Call.asks, if_neg (of_decide_eq_false hpromoted), hlinked, if_neg Bool.false_ne_true]
    rfl
  · change (statuses todo.id).isSome = false at h
    change (statuses todo.id).getD todo.status = todo.status
    rcases hstatus : statuses todo.id with _ | status
    · rfl
    · rw [hstatus] at h
      cases h

theorem promote_eq {taskStatus : TaskStatus} {todos : List Info}
    (hnodup : (todos.map Info.id).Nodup) : promote taskStatus todos = todos.map fun todo =>
      if promoted taskStatus todos = some todo.id then { todo with status := inProgress }
      else todo := by
  rw [promote]
  rcases promoted taskStatus todos with _ | id
  · refine (List.map_id todos).symm.trans (List.map_congr_left fun todo _ => ?_)
    rfl
  · have hupdate : (todos.map fun todo =>
        if some id = some todo.id then { todo with status := inProgress } else todo) =
          Table.update Info.id id (fun todo => { todo with status := inProgress }) todos := by
      refine List.map_congr_left fun todo _ => ?_
      rcases eq_or_ne todo.id id with rfl | hne
      · rw [if_pos rfl, if_pos rfl]
      · rw [if_neg hne, if_neg fun h => hne (Option.some.inj h).symm]
    dsimp only
    rw [hupdate]
    rcases hfound : todos.findIdx? (fun todo : Info => todo.id = id) with _ | index
    · refine (Table.update_of_notMem fun hmem => ?_).symm
      obtain ⟨todo, htodo, hid⟩ := List.mem_map.mp hmem
      have hnot := List.findIdx?_eq_none_iff.mp hfound todo htodo
      rw [decide_eq_true hid] at hnot
      cases hnot
    · exact Table.modify_findIdx hnodup hfound

/-- **The list that a call hands to the merge is what it asks of each todo.** -/
theorem todos_eq (hnodup : (current.map Info.id).Nodup)
    (h : call.todos toLowerCase current = some asked) :
    asked = current.map (call.asks toLowerCase current) := by
  rcases call with ⟨linkedTodoID, taskStatus⟩ | statuses
  · rw [Call.todos] at h
    split at h
    next => cases h
    next =>
      split at h
      next => cases h
      next =>
        obtain rfl := Option.some.inj h
        have hids : (linked toLowerCase linkedTodoID taskStatus current).map Info.id =
            current.map Info.id := by
          rw [linked, enrichAll, List.map_map, List.map_map]
          refine List.map_congr_left fun todo _ => ?_
          change (if isLinked linkedTodoID todo.id then taskStatus.progress todo else todo).id = _
          split
          · cases taskStatus <;> rfl
          · rfl
        have hid : ∀ todo : Info, (enrich toLowerCase
            (if isLinked linkedTodoID todo.id then taskStatus.progress todo else todo)).id =
              todo.id := by
          intro todo
          split
          · cases taskStatus <;> rfl
          · rfl
        rw [promote_eq (by rw [hids]; exact hnodup)]
        generalize hnext :
          promoted taskStatus (linked toLowerCase linkedTodoID taskStatus current) = next
        rw [linked, enrichAll, List.map_map, List.map_map]
        refine List.map_congr_left fun todo _ => ?_
        rw [Function.comp_apply, Function.comp_apply, Call.asks, hid, hnext]
  · exact (Option.some.inj h).symm

theorem applyStatusOnlyUpdate_eq {f : Info → Info} (hid : ∀ todo, (f todo).id = todo.id)
    (hcontent : ∀ todo, (f todo).content = todo.content) :
    applyStatusOnlyUpdate toLowerCase current (current.map f) = current.map fun todo =>
      match current.find? (matching toLowerCase todo) with
      | none => enrich toLowerCase todo
      | some first =>
        { todo with
          status := (f first).status
          priority := (f first).priority.or todo.priority
          action := (enrich toLowerCase (f first)).action } := by
  rw [applyStatusOnlyUpdate, enrichAll, enrichAll, List.map_map, List.map_map]
  refine List.map_congr_left fun todo _ => ?_
  have hmatching : matching toLowerCase (enrich toLowerCase todo) ∘ (enrich toLowerCase ∘ f) =
      matching toLowerCase todo := by
    funext candidate
    simp only [matching, Function.comp_apply, enrich, hid, hcontent]
  rw [Function.comp_apply, List.find?_map, hmatching]
  rcases current.find? (matching toLowerCase todo) with _ | first
  · rfl
  · rfl

end Merge

/-! ### Runs -/

section Runs

variable {toLowerCase : JsString → JsString} {world : World} {call : Call}

theorem ids_step : (step toLowerCase world call).todos.map Info.id = world.todos.map Info.id := by
  rw [step]
  rcases call.todos toLowerCase world.todos with _ | asked
  · rfl
  · dsimp only
    have hcurrent : enrichAll toLowerCase world.todos = world.todos.map (enrich toLowerCase) := rfl
    rw [applyStatusOnlyUpdate, hcurrent, List.map_map, List.map_map]
    refine List.map_congr_left fun todo _ => ?_
    rw [Function.comp_apply, Function.comp_apply]
    split
    · rfl
    · rfl

/-- **A call leaves what is expected exactly if it mixes no todos up.** -/
theorem step_iff (hnodup : (world.todos.map Info.id).Nodup) (h : world.todos = world.expected) :
    (step toLowerCase world call).todos = (step toLowerCase world call).expected ↔
      Unmixed toLowerCase world call := by
  rw [step, Unmixed]
  rcases hasked : call.todos toLowerCase world.todos with _ | asked
  · exact iff_of_true h fun hsome => absurd hsome Bool.false_ne_true
  · obtain rfl := todos_eq hnodup hasked
    dsimp only
    rw [← h, applyStatusOnlyUpdate_eq (fun _ => asks_id) (fun _ => asks_content),
      List.map_inj_left]
    generalize hstored : (world.todos.map fun todo =>
      match world.todos.find? (matching toLowerCase todo) with
      | none => enrich toLowerCase todo
      | some first =>
        { todo with
          status := (call.asks toLowerCase world.todos first).status
          priority := (call.asks toLowerCase world.todos first).priority.or todo.priority
          action := (enrich toLowerCase (call.asks toLowerCase world.todos first)).action }) =
      stored
    have hids : stored.map Info.id = world.todos.map Info.id := by
      rw [← hstored, List.map_map]
      refine List.map_congr_left fun todo _ => ?_
      rw [Function.comp_apply]
      split
      · rfl
      · rfl
    have hids' : (world.todos.map (call.asks toLowerCase world.todos)).map Info.id =
        world.todos.map Info.id := by
      rw [List.map_map]
      exact List.map_congr_left fun todo _ => asks_id
    rw [Option.isSome_some, eq_self_iff_true, true_imp_iff]
    refine forall₂_congr fun todo htodo => ?_
    -- the todo itself is one with its name
    have hfirst : ((world.todos.find? (matching toLowerCase todo))).isSome :=
      List.find?_isSome.mpr ⟨todo, htodo, matching_self⟩
    obtain ⟨first, hfirst⟩ := Option.isSome_iff_exists.mp hfirst
    have hrow : Table.lookup Info.id stored todo.id = some
        { todo with
          status := (call.asks toLowerCase world.todos first).status
          priority := (call.asks toLowerCase world.todos first).priority.or todo.priority
          action := (enrich toLowerCase (call.asks toLowerCase world.todos first)).action } := by
      refine (Table.lookup_eq_some_iff (by rw [hids]; exact hnodup)).mpr ⟨?_, rfl⟩
      rw [← hstored]
      refine List.mem_map.mpr ⟨todo, htodo, ?_⟩
      rw [hfirst]
    have hasks : Table.lookup Info.id (world.todos.map (call.asks toLowerCase world.todos))
        todo.id = some (call.asks toLowerCase world.todos todo) :=
      (Table.lookup_eq_some_iff (by rw [hids']; exact hnodup)).mpr
        ⟨List.mem_map_of_mem htodo, asks_id⟩
    rw [expects, hrow, hasks, hfirst]
    dsimp only [Option.getD_some, Option.map_some]
    rw [@asks_priority toLowerCase world.todos call first]
    rcases haddressed : call.addresses toLowerCase world.todos todo.id with _ | _
    · rw [if_neg Bool.false_ne_true, asks_status haddressed]
      constructor
      · rintro heq _ ⟨⟩
        have hstatus := congrArg Info.status heq
        have hpriority := congrArg Info.priority heq
        have haction := congrArg Info.action heq
        exact ⟨hstatus, fun _ => ⟨hpriority, haction⟩⟩
      · intro hall
        obtain ⟨hstatus, hrest⟩ := hall first rfl
        obtain ⟨hpriority, haction⟩ := hrest rfl
        rw [hstatus, hpriority, haction]
    · rw [if_pos rfl]
      constructor
      · rintro heq _ ⟨⟩
        have hstatus := congrArg Info.status heq
        exact ⟨hstatus, fun hnot => absurd hnot.symm Bool.false_ne_true⟩
      · intro hall
        rw [(hall first rfl).1]

end Runs

/-- **In a run of updates the list is the expected one after each of them exactly if none of them
mixes todos up.** -/
theorem expected_iff (toLowerCase : JsString → JsString) (todos : List Info)
    (hnodup : (todos.map Info.id).Nodup) (calls : List Call) :
    (∀ past, past <+: calls → (run (step toLowerCase) ⟨todos, todos⟩ past).todos =
        (run (step toLowerCase) ⟨todos, todos⟩ past).expected) ↔
      Meets (step toLowerCase) (Unmixed toLowerCase) ⟨todos, todos⟩ calls := by
  refine throughout_iff_meets (fun world : World => (world.todos.map Info.id).Nodup)
    (fun world => world.todos = world.expected) hnodup rfl (fun world call h => ?_)
    (fun world call h hP => step_iff h hP) calls
  rw [ids_step]
  exact h

end Update

def toLowerCaseLetters (s : JsString) : JsString :=
  s.map fun c => if 65 ≤ c.toNat ∧ c.toNat ≤ 90 then c + 32 else c

def pendingTodo (id content : String) : Info :=
  ⟨js content, pending, some (js "medium"), js id, some { kind := .implement }⟩

def setStatus (id : String) (status : JsString) : Call :=
  .statusUpdate fun other => if other = js id then some status else none

def twoTodos : List Info := [pendingTodo "a" "Write it", pendingTodo "b" "Check it"]

def startedAndCompleted : List Call :=
  [setStatus "a" inProgress, .reconcileProgress (some (js "a")) .completed]

theorem twoTodos_expected :
    (run (step toLowerCaseLetters) ⟨twoTodos, twoTodos⟩ startedAndCompleted).todos =
      (run (step toLowerCaseLetters) ⟨twoTodos, twoTodos⟩ startedAndCompleted).expected :=
  (expected_iff toLowerCaseLetters twoTodos (by decide +kernel) startedAndCompleted).mpr
    (by decide) startedAndCompleted (List.prefix_refl startedAndCompleted)

/-- Two todos whose contents differ in case only. -/
def twins : List Info := [pendingTodo "a" "Check it", pendingTodo "b" "check it"]

/-- **A todo is not completed, as an earlier one with the same content is not.** -/
theorem not_expected : ¬∀ todos : List Info, (todos.map Info.id).Nodup → ∀ calls,
    (run (step toLowerCaseLetters) ⟨todos, todos⟩ calls).todos =
      (run (step toLowerCaseLetters) ⟨todos, todos⟩ calls).expected := by
  intro h
  have hnodup : (twins.map Info.id).Nodup := by decide +kernel
  have hnot : (run (step toLowerCaseLetters) ⟨twins, twins⟩ [setStatus "b" completed]).todos ≠
      (run (step toLowerCaseLetters) ⟨twins, twins⟩ [setStatus "b" completed]).expected := by
    decide +kernel
  exact hnot (h twins hnodup [setStatus "b" completed])

end OpenCms.Todo
