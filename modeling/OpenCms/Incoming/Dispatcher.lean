import OpenCms.Lib.JsString
import OpenCms.Lib.PathWalk
import OpenCms.Lib.Stringify

/-!
# Files in the arguments of a tool

Before a tool of an app is called, every string in its arguments that looks like a path of the
project is uploaded to the app, and replaced by the token of the upload. A string looks like one if
it has a `/` that does not come first, or the ending of a document. That it stays in the project is
not checked: the path is resolved from the root of the project, and `..` leads out of it.

`OpenCms.IncomingDispatcher.contained_iff` says when all that is read is in the project: when every
candidate that is a file climbs nowhere above the root, or comes back to it by its own names. The
strings that are not replaced stay as they are, but for those of a member `__proto__`, which is
assigned to the copy of its object as its prototype.
-/

namespace OpenCms.IncomingDispatcher

/-! ### Paths -/

/-- `/`. -/
def slash : UInt16 := 47

def segmentHop (segment : JsString) : Option (PathWalk.Hop JsString) :=
  if segment = [] ∨ segment = js "." then none
  else if segment = js ".." then some .up
  else some (.down segment)

def hops (path : JsString) : List (PathWalk.Hop JsString) :=
  (path.splitOn slash).filterMap segmentHop

def isAbsolute (path : JsString) : Bool := path.head? = some slash

def resolve (cwd root path : JsString) : List JsString :=
  let full :=
    if isAbsolute path then path
    else if isAbsolute root then root ++ slash :: path
    else cwd ++ slash :: (root ++ slash :: path)
  PathWalk.walk [] (hops full)

def basename (path : JsString) : JsString :=
  ((path.splitOn slash).filter (· ≠ [])).getLast?.getD []

/-! ### What looks like a path -/

/-- `[a-zA-Z]`. -/
def isLetter (c : UInt16) : Bool := (65 ≤ c && c ≤ 90) || (97 ≤ c && c ≤ 122)

/-- `[a-zA-Z0-9+.-]`. -/
def isSchemeUnit (c : UInt16) : Bool := isLetter c || JsString.isDigit c || c ∈ js "+.-"

/-- `/^[a-zA-Z][a-zA-Z0-9+.-]*:/`. -/
def hasScheme : JsString → Bool
  | [] => false
  | c :: value => isLetter c && (value.dropWhile isSchemeUnit).head? = some 58

def extensions : List JsString :=
  [js ".doc", js ".docx", js ".xls", js ".xlsx", js ".ppt", js ".pptx", js ".pdf", js ".md",
    js ".txt", js ".csv", js ".json", js ".xml", js ".yml", js ".yaml"]

/-- `/\.(docx?|xlsx?|pptx?|pdf|md|txt|csv|json|xml|yml|yaml)$/i`. -/
def hasExtension (value : JsString) : Bool :=
  let lower := value.map fun c => if 65 ≤ c ∧ c ≤ 90 then c + 32 else c
  extensions.any fun extension => extension.isSuffixOf lower

def looksLikeRepoPath (value : JsString) : Bool :=
  if value = [] then false
  else if hasScheme value then false
  else if isAbsolute value then false
  else if (js "./").isPrefixOf value then true
  else if slash ∈ value then true
  else hasExtension value

def norm (node : JsString) : JsString := (node.dropPrefix? (js "./")).getD node

/-! ### The two walks over the arguments -/

abbrev Arg := JsValue JsString JsString

mutual

def collect : Arg → List JsString
  | .str node => if looksLikeRepoPath node then [norm node] else []
  | .arr items => collectItems items
  | .obj members => collectMembers members
  | _ => []

def collectItems : List Arg → List JsString
  | [] => []
  | v :: items => collect v ++ collectItems items

def collectMembers : JsMembers JsString JsString → List JsString
  | [] => []
  | (_, v) :: members => collect v ++ collectMembers members

end

def replacement (candidateSet : List (JsString × Option JsString)) (node : JsString) : JsString :=
  if looksLikeRepoPath node then
    match candidateSet.lookup (norm node) with
    | some (some repl) => if repl = [] then node else repl
    | _ => node
  else node

/-- The setter that `out["__proto__"] = …` calls. -/
def proto : JsString := js "__proto__"

section Walk2

variable (candidateSet : List (JsString × Option JsString))

mutual

def walk2 : Arg → Arg
  | .str node => .str (replacement candidateSet node)
  | .arr items => .arr (walk2Items items)
  | .obj members => .obj (walk2Members members)
  | v => v

def walk2Items : List Arg → List Arg
  | [] => []
  | v :: items => walk2 v :: walk2Items items

def walk2Members : JsMembers JsString JsString → JsMembers JsString JsString
  | [] => []
  | (k, v) :: members =>
    if k = proto then walk2Members members else (k, walk2 v) :: walk2Members members

end

end Walk2

/-! ### Uploads -/

inductive Response
  | transportError
  | status (code : ℕ)
  | malformed
  | token (token : JsString)
  deriving DecidableEq, Repr

/-- What the dispatcher finds around it: the project, if there is one, the app's endpoint, if it has
one, the files, by their resolved paths, and what the app answers. -/
structure Host (β : Type) where
  cwd : JsString
  projectRoot : Option JsString
  endpoint : Option JsString
  isFile : List JsString → Bool
  readFile : List JsString → Option β
  post : JsString → JsString → β → Response

variable {β : Type}

def uploadFile (host : Host β) (root repoPath : JsString) :
    Option (List JsString) × Except Unit (Option JsString) :=
  match host.endpoint with
  | none => (none, .ok none)
  | some ep =>
    let absolute := resolve host.cwd root repoPath
    if host.isFile absolute then
      match host.readFile absolute with
      | none => (none, .ok none)
      | some buf =>
        match host.post ep (basename repoPath) buf with
        | .transportError => (some absolute, .ok none)
        | .status _ => (some absolute, .ok none)
        | .malformed => (some absolute, .error ())
        | .token token => (some absolute, .ok (some token))
    else (none, .ok none)

/-- What `before` comes to: the files read, the uploads with their tokens, and the arguments that
the tool is called with, unless an upload fails with an error. -/
structure Dispatch where
  read : List (List JsString) := []
  uploadedTokens : List (JsString × JsString) := []
  rewrittenArgs : Option Arg

def candidates (args : Arg) : List JsString := (collect args).dedup

def before (host : Host β) (args : Arg) : Dispatch :=
  match host.projectRoot with
  | none => { rewrittenArgs := some args }
  | some root =>
    let results := (candidates args).map fun cand => (cand, uploadFile host root cand)
    let candidateSet := results.map fun result => (result.1, result.2.2.toOption.join)
    { read := results.filterMap fun result => result.2.1
      uploadedTokens := candidateSet.filterMap fun entry => entry.2.map (entry.1, ·)
      rewrittenArgs :=
        if results.any fun result => result.2.2.toBool = false then none
        else some (walk2 candidateSet args) }

/-! ### What should hold -/

def Host.root (host : Host β) (root : JsString) : List JsString := resolve host.cwd root []

inductive Step
  | index (i : ℕ)
  | key (key : JsString)
  deriving DecidableEq, Repr

def valueAt : List Step → Arg → Option Arg
  | [], v => some v
  | .index i :: place, .arr items => items[i]?.bind (valueAt place)
  | .key k :: place, .obj members => (members.lookup k).bind (valueAt place)
  | _ :: _, _ => none

def Contained (host : Host β) (args : Arg) : Prop :=
  ∀ root, host.projectRoot = some root → ∀ file ∈ (before host args).read, host.root root <+: file

def Kept (host : Host β) (args : Arg) : Prop :=
  ∀ rewritten, (before host args).rewrittenArgs = some rewritten →
    ∀ place node, valueAt place args = some (.str node) → ∃ node',
      valueAt place rewritten = some (.str node') ∧
        (node' = node ∨ (norm node, node') ∈ (before host args).uploadedTokens)

def Readable (host : Host β) (root cand : JsString) : Prop :=
  host.endpoint.isSome ∧ host.isFile (resolve host.cwd root cand) ∧
    (host.readFile (resolve host.cwd root cand)).isSome

/-- The candidate stays in the project: it climbs nowhere above the root, or comes back to it by the
root's own names. A candidate that starts at the top goes down to the root. -/
def Stays (host : Host β) (root cand : JsString) : Prop :=
  if isAbsolute cand then host.root root <+: PathWalk.walk [] (hops cand)
  else
    let (up, down) := PathWalk.climb (hops cand)
    up = 0 ∨ (host.root root).drop ((host.root root).length - up) <+: down

def Rejects (host : Host β) (args : Arg) : Prop :=
  ∃ root, host.projectRoot = some root ∧
    ∃ cand ∈ candidates args, (uploadFile host root cand).2 = .error ()

def NoProto (args : Arg) : Prop :=
  ∀ place node, valueAt place args = some (.str node) → Step.key proto ∉ place

/-! ### Where a path leads -/

variable {host : Host β} {root cand cwd path path' : JsString} {args : Arg}

theorem hops_append (path path' : JsString) :
    hops (path ++ slash :: path') = hops path ++ hops path' := by
  rw [hops, List.splitOn_append_cons_self, List.filterMap_append, ← hops, ← hops]

theorem hops_nil : hops [] = [] := rfl

theorem resolve_of_isAbsolute (h : isAbsolute path) :
    resolve cwd root path = PathWalk.walk [] (hops path) := by
  rw [resolve, if_pos h]

theorem resolve_of_not_isAbsolute (h : isAbsolute path = false) :
    resolve cwd root path = PathWalk.walk (resolve cwd root []) (hops path) := by
  have hnil : isAbsolute ([] : JsString) = false := rfl
  rw [resolve, resolve, h, hnil, if_neg Bool.false_ne_true, if_neg Bool.false_ne_true]
  split
  · rw [hops_append, hops_append, hops_nil, List.append_nil, PathWalk.walk_append]
  · rw [hops_append, hops_append, hops_append, hops_append, hops_nil, List.append_nil,
      ← List.append_assoc, PathWalk.walk_append]

/-- **A candidate stays in the project exactly if it resolves in it.** -/
theorem stays_iff : Stays host root cand ↔ host.root root <+: resolve host.cwd root cand := by
  rw [Stays]
  split
  next habsolute => rw [resolve_of_isAbsolute habsolute]
  next hrelative =>
    rw [resolve_of_not_isAbsolute (eq_false_of_ne_true hrelative), ← Host.root]
    constructor
    · rintro (hup | hdown)
      · exact PathWalk.prefix_walk_of_climb hup
      · exact PathWalk.prefix_walk_iff.mpr hdown
    · intro h
      exact Or.inr (PathWalk.prefix_walk_iff.mp h)

/-! ### What is read -/

theorem uploadFile_read {file : List JsString} : (uploadFile host root cand).1 = some file ↔
    Readable host root cand ∧ resolve host.cwd root cand = file := by
  rw [uploadFile, Readable]
  cases host.endpoint with
  | none => simp
  | some ep =>
    dsimp only
    split
    next hfile =>
      cases hread : host.readFile (resolve host.cwd root cand) with
      | none => simp
      | some buf =>
        dsimp only
        split <;> simp [hfile]
    next hfile => simp [hfile]

theorem mem_read {file : List JsString} (hroot : host.projectRoot = some root) :
    file ∈ (before host args).read ↔ ∃ cand ∈ candidates args, Readable host root cand ∧
      resolve host.cwd root cand = file := by
  rw [before, hroot]
  simp only [List.mem_filterMap, List.mem_map, exists_exists_and_eq_and, uploadFile_read]

theorem contained_iff_stays : Contained host args ↔ ∀ root, host.projectRoot = some root →
    ∀ cand ∈ candidates args, Readable host root cand → Stays host root cand := by
  refine forall_congr' fun root => forall_congr' fun hroot => ?_
  constructor
  · intro h cand hcand hreadable
    exact stays_iff.mpr (h _ ((mem_read hroot).mpr ⟨cand, hcand, hreadable, rfl⟩))
  · intro h file hfile
    obtain ⟨cand, hcand, hreadable, rfl⟩ := (mem_read hroot).mp hfile
    exact stays_iff.mp (h cand hcand hreadable)

/-! ### What is kept -/

section Kept

variable {candidateSet : List (JsString × Option JsString)} {place : List Step} {v w : Arg}
  {node key : JsString}

theorem walk2Items_eq (items : List Arg) :
    walk2Items candidateSet items = items.map (walk2 candidateSet) := by
  induction items with
  | nil => rfl
  | cons v items ih => rw [walk2Items, ih, List.map_cons]

theorem lookup_walk2Members (members : JsMembers JsString JsString) :
    (walk2Members candidateSet members).lookup key =
      if key = proto then none else (members.lookup key).map (walk2 candidateSet) := by
  induction members with
  | nil =>
    split <;> rfl
  | cons member members ih =>
    obtain ⟨k, v⟩ := member
    rw [walk2Members, List.lookup_cons]
    split
    next hk =>
      rw [ih]
      split
      · rfl
      next hkey =>
        have hne : (key == k) = false := beq_false_of_ne fun h => hkey (h.trans hk)
        rw [hne]
    next hk =>
      rw [List.lookup_cons, ih]
      rcases eq_or_ne key k with rfl | hne
      · rw [beq_self_eq_true]
        exact (if_neg hk).symm
      · rw [beq_false_of_ne hne]

theorem valueAt_walk2 (h : valueAt place v = some w) (hproto : Step.key proto ∉ place) :
    valueAt place (walk2 candidateSet v) = some (walk2 candidateSet w) := by
  induction place generalizing v with
  | nil =>
    obtain rfl := Option.some.inj h
    rfl
  | cons step place ih =>
    obtain ⟨hstep, hplace⟩ := not_or.mp fun hmem => hproto (List.mem_cons.mpr hmem)
    cases step with
    | index i =>
      cases v with
      | arr items =>
        obtain ⟨item, hitem, hw⟩ := Option.bind_eq_some_iff.mp h
        rw [walk2, valueAt, walk2Items_eq, List.getElem?_map, hitem]
        exact ih hw hplace
      | _ => cases h
    | key k =>
      cases v with
      | obj members =>
        obtain ⟨member, hmember, hw⟩ := Option.bind_eq_some_iff.mp h
        rw [walk2, valueAt, lookup_walk2Members, if_neg fun hk => hstep (by rw [hk]), hmember]
        exact ih hw hplace
      | _ => cases h

theorem valueAt_walk2_proto (hproto : Step.key proto ∈ place) :
    valueAt place (walk2 candidateSet v) = none := by
  induction place generalizing v with
  | nil => exact absurd hproto List.not_mem_nil
  | cons step place ih =>
    cases step with
    | index i =>
      have hplace := (List.mem_cons.mp hproto).resolve_left (by rintro ⟨⟩)
      cases v with
      | arr items =>
        rw [walk2, valueAt, walk2Items_eq, List.getElem?_map]
        cases items[i]? with
        | none => rfl
        | some item => exact ih hplace
      | _ => rfl
    | key k =>
      cases v with
      | obj members =>
        rw [walk2, valueAt, lookup_walk2Members]
        split
        · rfl
        next hk =>
          have hplace := (List.mem_cons.mp hproto).resolve_left fun h => hk (by cases h; rfl)
          cases members.lookup k with
          | none => rfl
          | some member => exact ih hplace
      | _ => rfl

theorem replacement_eq (candidateSet : List (JsString × Option JsString)) (node : JsString) :
    replacement candidateSet node = node ∨
      (norm node, replacement candidateSet node) ∈
        candidateSet.filterMap fun entry => entry.2.map (entry.1, ·) := by
  rw [replacement]
  split
  next =>
    split
    next repl hlookup =>
      split
      next => exact Or.inl rfl
      next =>
        obtain ⟨l, l', hsplit, -⟩ := List.lookup_eq_some_iff.mp hlookup
        refine Or.inr (List.mem_filterMap.mpr ⟨(norm node, some repl), ?_, rfl⟩)
        rw [hsplit]
        exact List.mem_append_right _ List.mem_cons_self
    next => exact Or.inl rfl
  next => exact Or.inl rfl

theorem rewrittenArgs_eq (args : Arg) {root : JsString} (hroot : host.projectRoot = some root) :
    ∃ candidateSet, (before host args).uploadedTokens =
        candidateSet.filterMap (fun entry => entry.2.map (entry.1, ·)) ∧
      (Rejects host args → (before host args).rewrittenArgs = none) ∧
      (¬Rejects host args →
        (before host args).rewrittenArgs = some (walk2 candidateSet args)) := by
  have hrejects : Rejects host args ↔
      (((candidates args).map fun cand => (cand, uploadFile host root cand)).any
        fun result => result.2.2.toBool = false) = true := by
    rw [List.any_map, List.any_eq_true, Rejects]
    constructor
    · rintro ⟨root', hroot', cand, hcand, herror⟩
      obtain rfl := Option.some.inj (hroot.symm.trans hroot')
      refine ⟨cand, hcand, decide_eq_true ?_⟩
      show (uploadFile host root cand).2.toBool = false
      rw [herror]
      rfl
    · rintro ⟨cand, hcand, hfalse⟩
      refine ⟨root, hroot, cand, hcand, ?_⟩
      replace hfalse : (uploadFile host root cand).2.toBool = false := of_decide_eq_true hfalse
      cases hresult : (uploadFile host root cand).2 with
      | error e => rfl
      | ok token =>
        rw [hresult] at hfalse
        exact absurd hfalse (by rintro ⟨⟩)
  rw [hrejects, before, hroot]
  exact ⟨_, rfl, fun h => if_pos h, fun h => if_neg h⟩

theorem unscoped_iff :
    Kept host args ↔ host.projectRoot = none ∨ Rejects host args ∨ NoProto args := by
  cases hroot : host.projectRoot with
  | none =>
    refine iff_of_true (fun rewritten h place node hnode => ?_) (Or.inl rfl)
    rw [before, hroot] at h
    obtain rfl := Option.some.inj h
    exact ⟨node, hnode, Or.inl rfl⟩
  | some root =>
    obtain ⟨candidateSet, htokens, hnone, hsome⟩ := rewrittenArgs_eq args hroot
    by_cases hrejects : Rejects host args
    · refine iff_of_true (fun rewritten h => ?_) (Or.inr (Or.inl hrejects))
      exact absurd ((hnone hrejects).symm.trans h) (by rintro ⟨⟩)
    · constructor
      · intro h
        refine Or.inr (Or.inr fun place node hnode hproto => ?_)
        obtain ⟨node', hnode', -⟩ := h _ (hsome hrejects) place node hnode
        rw [valueAt_walk2_proto hproto] at hnode'
        exact absurd hnode' (by rintro ⟨⟩)
      · rintro (h | h | hproto)
        · exact absurd h (by rintro ⟨⟩)
        · exact absurd h hrejects
        · intro rewritten h place node hnode
          obtain rfl := Option.some.inj ((hsome hrejects).symm.trans h)
          refine ⟨replacement candidateSet node, ?_, ?_⟩
          · rw [valueAt_walk2 hnode (hproto place node hnode), walk2]
          · rw [htokens]
            exact replacement_eq candidateSet node

end Kept

/-- **Tool arguments take no file out of the project, and are kept but for their tokens, exactly if
every candidate that is a file stays in the project and no string is in a member `__proto__`.** The
latter makes no difference if nothing is rewritten. -/
theorem contained_iff (host : Host β) (args : Arg) :
    Contained host args ∧ Kept host args ↔
      (∀ root, host.projectRoot = some root → ∀ cand ∈ candidates args,
        Readable host root cand → Stays host root cand) ∧
      (host.projectRoot = none ∨ Rejects host args ∨ NoProto args) :=
  and_congr contained_iff_stays unscoped_iff

/-! ### A path that leads out of the project -/

def secretHost : Host Unit where
  cwd := js "/"
  projectRoot := some (js "/work/app")
  endpoint := some (js "http://app.local")
  isFile file := file = [js "work", js "secret"]
  readFile _ := some ()
  post _ _ _ := .token (js "t1")

/-- **The secret is read and uploaded.** -/
theorem not_contained_secret :
    ¬(Contained secretHost (.obj [(js "path", .str (js "docs/../../secret"))]) ∧
      Kept secretHost (.obj [(js "path", .str (js "docs/../../secret"))])) := by
  rintro ⟨h, -⟩
  have hread := h (js "/work/app") rfl [js "work", js "secret"] (by decide)
  exact absurd hread (by decide)

end OpenCms.IncomingDispatcher
