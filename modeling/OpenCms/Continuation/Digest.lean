import OpenCms.Lib.JsString
import Mathlib.Data.List.Flatten
import Mathlib.Data.List.Nodup

/-!
# The commitment digest

After the chain of a session is broken, the model is told which mutations it has already made. They
are collected from the messages of the session, and the last so many are kept.

The collector takes the messages for the oldest first, and the store hands them out newest first. So
what is kept is what is wanted exactly if all calls are in one message
(`OpenCms.Continuation.latest_iff`).
-/

namespace OpenCms.Continuation

/-! ### Calls -/

inductive Argument
  | text (s : JsString)
  /-- `null` or `undefined`. -/
  | nullish
  /-- Any other value, with what `String` makes of it. -/
  | other (shown : JsString)
  deriving DecidableEq

/-- The input of a tool, by key. -/
abbrev Input : Type := List (JsString × Argument)

/-- `ToolPart["state"]`. -/
inductive ToolState
  | pending (input : Input)
  | running (input : Input)
  | completed (input : Input) (output : JsString) (stop : ℤ)
  | error (input : Input) (error : JsString) (stop : ℤ)
  deriving DecidableEq

def ToolState.input : ToolState → Input
  | .pending input | .running input | .completed input _ _ | .error input _ _ => input

structure ToolPart where
  tool : JsString
  callID : JsString
  state : ToolState
  deriving DecidableEq

structure Part where
  id : JsString
  tool : Option ToolPart
  deriving DecidableEq

abbrev Message : Type := List Part

/-- What the store hands out: the messages, newest first. A name is the key of one part. -/
structure Stream where
  messages : List Message
  keys : (messages.flatten.map Part.id).Nodup

/-! ### Mutations -/

def mutationToolNames : List JsString :=
  [js "apply_patch", js "edit", js "write", js "move_file", js "delete_file"]

def bashWriteEffectMarkers : List JsString :=
  [js ">", js ">>", js "mv ", js "cp ", js "rm ", js "mkdir ", js "rmdir ", js "touch ", js "ln ",
    js "chmod ", js "chown ", js "sed -i", js "awk -i", js "tee ", js "git commit", js "git add",
    js "git push", js "git rm", js "git mv", js "git reset", js "git restore", js "npm install",
    js "bun install", js "yarn add", js "pnpm add", js "git stash", js "patch ", js "apt install",
    js "apt-get install", js "brew install", js "cargo add", js "cargo install", js "pip install",
    js "uv add"]

def Input.get (input : Input) (key : JsString) : Option Argument :=
  (input.find? fun entry => entry.1 = key).map Prod.snd

def classifyBashAsMutation (command : JsString) : Bool :=
  command ≠ [] && bashWriteEffectMarkers.any (includes (JsString.trim command))

def isMutationToolCall (part : ToolPart) : Bool :=
  if part.tool ∈ mutationToolNames then true
  else if part.tool = js "bash" then
    match part.state.input.get (js "command") with
    | some (.text command) => classifyBashAsMutation command
    | _ => false
  else false

/-! ### Entries -/

/-- `CommitmentDigestEntry["status"]`, but for the status that no entry gets. -/
inductive Status
  | completed
  | failed
  deriving DecidableEq

/-- `CommitmentDigestEntry`, with the name of the part that it was made of. -/
structure CommitmentDigestEntry where
  source : JsString
  call_id : JsString
  tool : JsString
  args_brief : JsString
  status : Status
  output_summary : JsString
  completed_at : ℤ
  deriving DecidableEq

def Input.shown (input : Input) (key : JsString) : Option JsString :=
  match input.get key with
  | some (.text s) | some (.other s) => some s
  | _ => none

def isLineTerminator (c : UInt16) : Bool := c = 10 || c = 13 || c = 0x2028 || c = 0x2029

def patchHeader (line : JsString) : Option JsString :=
  [js "*** Update File:", js "*** Add File:", js "*** Delete File:"].findSome? fun header =>
    if header.isPrefixOf line then some (line.drop header.length) else none

/-- The path after a header: white space is passed over, also line by line, and something on the
line must be left. -/
def patchPath (rest : JsString) : Option JsString :=
  let path := (rest.dropWhile JsString.isWhiteSpace).takeWhile fun c => !isLineTerminator c
  if path ≠ [] then some (JsString.trim path)
  else if (rest.takeWhile JsString.isWhiteSpace).any fun c => !isLineTerminator c then some []
  else none

def extractPatchPath : Bool → JsString → Option JsString
  | _, [] => none
  | start, c :: text =>
    match if start then (patchHeader (c :: text)).bind patchPath else none with
    | some path => some path
    | none => extractPatchPath (isLineTerminator c) text

def extractFirstPatchPath : Option Argument → Option JsString
  | some (.text patch) => extractPatchPath true patch
  | _ => none

def briefArgs (tool : JsString) (input : Input) : JsString :=
  if tool = js "apply_patch" then
    let patch := ((input.get (js "input")).filter (· ≠ .nullish)).or (input.get (js "patch"))
    (extractFirstPatchPath patch).getD (js "(patch)")
  else if tool = js "edit" ∨ tool = js "write" then
    ((input.shown (js "filePath")).or (input.shown (js "path"))).getD (js "(no path)")
  else if tool = js "move_file" then
    (input.shown (js "from")).getD (js "?") ++ js " → " ++ (input.shown (js "to")).getD (js "?")
  else if tool = js "delete_file" then (input.shown (js "path")).getD (js "(no path)")
  else if tool = js "bash" then (input.shown (js "command")).getD (js "(no command)")
  else
    (input.findSome? fun entry =>
      match entry.2 with
      | .text s => some s
      | _ => none).getD []

def briefOutput (tool output : JsString) : JsString :=
  let trimmed := JsString.trim output
  if tool = js "apply_patch" ∧ (js "Success").isPrefixOf trimmed then js "✓ Success"
  else if tool = js "bash" then
    (((JsString.lines trimmed).filter fun line => JsString.trim line ≠ []).getLast?).getD []
  else ((JsString.lines trimmed).head?).getD []

def briefError (error : JsString) : JsString := ((JsString.lines error).head?).getD []

def truncate (text : JsString) (limit : ℕ) : JsString :=
  if text.length ≤ limit then text else text.take (limit - 1) ++ js "…"

section Render

variable (scrubSecrets : JsString → JsString)

/-- `renderToolPartAsEntry`: a call that has not ended has no entry. Secrets are scrubbed by regular
expressions, which are not looked into. -/
def renderToolPartAsEntry (source : JsString) (part : ToolPart) : Option CommitmentDigestEntry :=
  let entry (input : Input) (status : Status) (output : JsString) (stop : ℤ) :
      CommitmentDigestEntry :=
    { source := source
      call_id := part.callID
      tool := part.tool
      args_brief := truncate (scrubSecrets (briefArgs part.tool input)) 80
      status := status
      output_summary := truncate (scrubSecrets output) 60
      completed_at := stop }
  match part.state with
  | .completed input output stop =>
    some (entry input .completed (briefOutput part.tool output) stop)
  | .error input error stop => some (entry input .failed (briefError error) stop)
  | _ => none

def Status.mark : Status → JsString
  | .completed => js "✓"
  | .failed => js "✗"

def renderDigest (entries : List CommitmentDigestEntry) : JsString :=
  if entries = [] then js "  (no recent mutation-class actions recorded)\n"
  else
    let lines := js "  Recent committed actions (you DID these, don't redo):" ::
      entries.map fun e => js "  - " ++ e.call_id ++ js "  " ++ e.tool ++ js "  " ++ e.args_brief ++
        js "  " ++ e.status.mark ++ js " " ++ e.output_summary
    let body := JsString.unlines lines ++ js "\n"
    if 1000 < body.length then body.take (1000 - 16) ++ js "\n  …truncated\n" else body

/-! ### Capturing -/

/-- `CaptureOptions`, with their defaults. -/
structure CaptureOptions where
  maxEntries : ℕ := 5
  maxMessagesScanned : ℕ := 50

structure CommitmentDigest where
  entries : List CommitmentDigestEntry
  bodyCharCount : ℕ
  sourceMessageCount : ℕ

def sliceFromEnd {α : Type*} (n : ℕ) (xs : List α) : List α :=
  if n = 0 then xs else xs.drop (xs.length - n)

def entriesOf (message : Message) : List CommitmentDigestEntry :=
  message.filterMap fun part =>
    (part.tool.filter isMutationToolCall).bind (renderToolPartAsEntry scrubSecrets part.id)

def window (stream : Stream) (options : CaptureOptions) : List Message :=
  stream.messages.take (options.maxMessagesScanned * 4)

def captureDigest (stream : Stream) (options : CaptureOptions) : CommitmentDigest :=
  let collected := (window stream options).flatMap (entriesOf scrubSecrets)
  let entries := sliceFromEnd options.maxEntries collected
  { entries := entries
    bodyCharCount := (renderDigest entries).length
    sourceMessageCount := min stream.messages.length (options.maxMessagesScanned * 4 + 1) }

/-- The last finished mutations of what is looked at, in the order of the session. -/
def latestEntries (stream : Stream) (options : CaptureOptions) : List CommitmentDigestEntry :=
  let chronological := (window stream options).reverse.flatMap (entriesOf scrubSecrets)
  chronological.drop (chronological.length - options.maxEntries)

def mutating (stream : Stream) (options : CaptureOptions) : List Message :=
  (window stream options).filter fun message => entriesOf scrubSecrets message ≠ []

/-! ### What is captured -/

section Order

variable {α β : Type*} {f : α → List β} {xs : List α}

theorem flatMap_filter_ne_nil [DecidableEq β] (f : α → List β) (xs : List α) :
    (xs.filter fun x => f x ≠ []).flatMap f = xs.flatMap f := by
  induction xs with
  | nil => rfl
  | cons x xs ih =>
    by_cases hx : f x = []
    · rw [List.filter_cons_of_neg (by simpa using hx), List.flatMap_cons, hx, List.nil_append, ih]
    · rw [List.filter_cons_of_pos (by simpa using hx), List.flatMap_cons, List.flatMap_cons, ih]

theorem getLast?_drop_sub {n : ℕ} (hn : n ≠ 0) (ys : List β) :
    (ys.drop (ys.length - n)).getLast? = ys.getLast? := by
  rw [List.getLast?_drop]
  split
  next hle =>
    have hnil : ys = [] := by
      rw [← List.length_eq_zero_iff]
      omega
    rw [hnil]
    rfl
  next => rfl

theorem length_le_one_of_getLast?_eq (hne : ∀ x ∈ xs, f x ≠ [])
    (hnodup : (xs.flatMap f).Nodup)
    (h : (xs.flatMap f).getLast? = (xs.reverse.flatMap f).getLast?) : xs.length ≤ 1 := by
  rcases xs with _ | ⟨x, _ | ⟨y, xs⟩⟩
  · exact Nat.zero_le 1
  · exact le_refl 1
  · exfalso
    rw [List.flatMap_cons] at h hnodup
    have hrest : (y :: xs).flatMap f ≠ [] := by
      exact List.append_ne_nil_of_left_ne_nil (hne y (by simp)) _
    obtain ⟨b, hb⟩ : ∃ b, (f x).getLast? = some b :=
      ⟨_, List.getLast?_eq_some_getLast (hne x (by simp))⟩
    have hlast : (((x :: y :: xs).reverse).flatMap f).getLast? = some b := by
      rw [List.reverse_cons, List.flatMap_append, List.flatMap_singleton,
        List.getLast?_append_of_ne_nil _ (hne x (by simp)), hb]
    rw [hlast, List.getLast?_append_of_ne_nil _ hrest] at h
    exact List.disjoint_of_nodup_append hnodup (List.mem_of_getLast? hb) (List.mem_of_getLast? h)

end Order

variable {scrubSecrets} {stream : Stream} {options : CaptureOptions}

theorem source_of_render {source : JsString} {part : ToolPart} {entry : CommitmentDigestEntry}
    (h : renderToolPartAsEntry scrubSecrets source part = some entry) : entry.source = source := by
  rw [renderToolPartAsEntry] at h
  split at h
  next => rw [← Option.some.inj h]
  next => rw [← Option.some.inj h]
  next => cases h

theorem sources_sublist (message : Message) :
    ((entriesOf scrubSecrets message).map CommitmentDigestEntry.source).Sublist
      (message.map Part.id) := by
  induction message with
  | nil => exact List.Sublist.refl []
  | cons part message ih =>
    rw [entriesOf, List.filterMap_cons, ← entriesOf]
    split
    next => exact ih.cons _
    next entry hentry =>
      obtain ⟨tool, -, hrender⟩ := Option.bind_eq_some_iff.mp hentry
      rw [List.map_cons, source_of_render hrender]
      exact ih.cons_cons _

theorem nodup_entries : ((window stream options).flatMap (entriesOf scrubSecrets)).Nodup := by
  refine List.Nodup.of_map CommitmentDigestEntry.source (stream.keys.sublist ?_)
  have hwindow : ((window stream options).flatten.map Part.id).Sublist
      (stream.messages.flatten.map Part.id) := ((List.take_sublist _ _).flatten).map Part.id
  refine List.Sublist.trans ?_ hwindow
  rw [List.map_flatMap, List.map_flatten, ← List.flatMap_def]
  exact List.Sublist.flatMap_right _ fun message _ => sources_sublist message

theorem flatMap_mutating : (mutating scrubSecrets stream options).flatMap (entriesOf scrubSecrets) =
    (window stream options).flatMap (entriesOf scrubSecrets) :=
  flatMap_filter_ne_nil _ _

theorem flatMap_reverse_mutating :
    (mutating scrubSecrets stream options).reverse.flatMap (entriesOf scrubSecrets) =
      (window stream options).reverse.flatMap (entriesOf scrubSecrets) := by
  rw [mutating, ← List.filter_reverse]
  exact flatMap_filter_ne_nil _ _

end Render

/-- **The last mutations are captured exactly if they are all in one message**, or none are asked
for and there are none. -/
theorem latest_iff (scrubSecrets : JsString → JsString) (stream : Stream)
    (options : CaptureOptions) :
    (captureDigest scrubSecrets stream options).entries =
        latestEntries scrubSecrets stream options ↔
      if options.maxEntries = 0 then mutating scrubSecrets stream options = []
      else (mutating scrubSecrets stream options).length ≤ 1 := by
  rw [captureDigest, latestEntries, ← flatMap_mutating, ← flatMap_reverse_mutating]
  have hne : ∀ message ∈ mutating scrubSecrets stream options,
      entriesOf scrubSecrets message ≠ [] := by
    intro message hmessage
    simpa using (List.mem_filter.mp hmessage).2
  rw [sliceFromEnd]
  split
  next hzero =>
    rw [hzero, Nat.sub_zero, List.drop_length]
    constructor
    · intro hnil
      refine List.eq_nil_iff_forall_not_mem.mpr fun message hmessage => hne message hmessage ?_
      exact List.flatMap_eq_nil_iff.mp hnil message hmessage
    · intro hnil
      rw [hnil]
      rfl
  next hpos =>
    constructor
    · intro h
      have hlast := congrArg List.getLast? h
      rw [getLast?_drop_sub hpos, getLast?_drop_sub hpos] at hlast
      refine length_le_one_of_getLast?_eq hne ?_ hlast
      rw [flatMap_mutating]
      exact nodup_entries
    · intro hone
      have hreverse : (mutating scrubSecrets stream options).reverse =
          mutating scrubSecrets stream options := by
        rcases hmutating : mutating scrubSecrets stream options with _ | ⟨message, messages⟩
        · rfl
        · rw [hmutating, List.length_cons] at hone
          rw [List.eq_nil_of_length_eq_zero (Nat.eq_zero_of_le_zero (Nat.le_of_succ_le_succ hone))]
          rfl
      rw [hreverse]

def written (id file : String) (stop : ℤ) : Message :=
  [⟨js id, some ⟨js "write", js id, .completed [(js "filePath", .text (js file))] (js "ok") stop⟩⟩]

def twoWrites : Stream where
  messages := [written "prt_2" "b.txt" 2, written "prt_1" "a.txt" 1]
  keys := by decide

/-- Of two writes the older one is kept. -/
theorem not_latest : ¬∀ (scrubSecrets : JsString → JsString) (stream : Stream)
    (options : CaptureOptions), (captureDigest scrubSecrets stream options).entries =
      latestEntries scrubSecrets stream options := by
  intro h
  exact absurd (h id twoWrites { maxEntries := 1 }) (by decide)

end OpenCms.Continuation
