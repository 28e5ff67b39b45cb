import OpenCms.Gateway.Extract
import OpenCms.Gateway.WebRoutes
import OpenCms.Lib.Runs

/-!
# The control socket

Any local user can connect to the control socket and send lines of JSON: `list`,
`remove` and `publish`. A published route belongs to the user the kernel names for the
socket; a removal is not asked who sends it.

`OpenCms.Gateway.ctlHandleLine_cases` says once what a line can do to the table, and
`OpenCms.Gateway.WebRoutes.Wf` is what every line and every reload keeps. The result is
`OpenCms.Gateway.web_routes_follow_named_lines`.
-/

namespace OpenCms.Gateway

/-! ### Replies -/

/-- `ctl_send`: the newline is cut off, and the terminator sent in its place, when it
does not fit. -/
def ctlSend (json : Bytes) : Bytes :=
  if json.length + 1 < 2048 then json ++ [10] else fit 2048 json ++ [0]

def ctlError (text : Bytes) : Bytes :=
  ctlSend (lit "\x7b\"ok\":false,\"error\":\"" ++ text ++ lit "\"\x7d")

def ctlOk : Bytes := ctlSend (lit "\x7b\"ok\":true\x7d")

def listEntry (wr : WebRoute) : Bytes :=
  lit "\x7b\"prefix\":\"" ++ wr.pathPrefix ++ lit "\",\"type\":\"" ++ wr.type.word ++
    lit "\",\"host\":\"" ++ wr.host ++ lit "\",\"socketPath\":\"" ++
    (if wr.type = .uds then wr.target else []) ++ lit "\",\"port\":" ++ decimal wr.port ++
    lit ",\"uid\":" ++ decimal (toInt wr.ownerUid) ++ lit ",\"auth\":" ++
    decimal wr.authRequired ++ lit "\x7d"

/-- The loop of `list`: a route is written while 200 characters are left, without
asking whether it fits in them. -/
def listLoop (resp : Bytes) : List WebRoute → Bytes → Bytes
  | [], _ => resp
  | wr :: routes, sep =>
    if resp.length < 2048 - 200 then listLoop (resp ++ sep ++ listEntry wr) routes [44] else resp

/-- The reply to `list`; none where the last write begins behind the buffer. -/
def listReply (routes : List WebRoute) : Option Bytes :=
  let resp := listLoop (lit "\x7b\"ok\":true,\"routes\":[") routes []
  if 2048 < resp.length then none else some (ctlSend (fit 2048 (resp ++ lit "]\x7d")))

/-! ### Lines -/

def ctlPeerUid (peer : UInt32) (credentials : Bool) : ℕ := if credentials then peer.toNat else 0

def ctlField (line key : Bytes) (size : ℕ) : Bytes := (jsonExtractStr line key size).getD []

def ctlAction (line : Bytes) : Bytes := ctlField line (lit "action") 32

def ctlPrefix (line : Bytes) : Bytes := ctlField line (lit "prefix") 256

def ctlUpstreamType (line : Bytes) : Bytes :=
  let upstreamType := ctlField line (lit "upstreamType") 16
  let upstreamType := if upstreamType = [] then ctlField line (lit "type") 16 else upstreamType
  if upstreamType = [] then lit "tcp" else upstreamType

def publishedRoute (uid : ℕ) (line : Bytes) : WebRoute :=
  let wr := { WebRoute.zero with
    pathPrefix := fit 256 (ctlPrefix line)
    ownerUid := uid
    authRequired := jsonExtractInt line (lit "auth") }
  if ctlUpstreamType line = lit "uds" then
    { wr with type := .uds, target := fit 256 (ctlField line (lit "socketPath") 256), port := 0 }
  else
    { wr with
      type := .tcp
      host := fit 64 (ctlField line (lit "host") 64)
      target := fit 256 (ctlField line (lit "host") 64)
      port := jsonExtractInt line (lit "port") }

/-- Why a `publish` line is refused, before the table is looked at. -/
def publishError (line : Bytes) : Option Bytes :=
  let upstreamType := ctlUpstreamType line
  if ctlPrefix line = [] then some (lit "missing prefix")
  else if upstreamType ≠ lit "tcp" ∧ upstreamType ≠ lit "uds" then
    some (lit "invalid upstreamType")
  else if upstreamType = lit "tcp" ∧
      (ctlField line (lit "host") 64 = [] ∨ jsonExtractInt line (lit "port") ≤ 0) then
    some (lit "missing host or port")
  else if upstreamType = lit "uds" ∧ ctlField line (lit "socketPath") 256 = [] then
    some (lit "missing socketPath")
  else none

/-- The table with one route less: the later ones move up, and the last slot keeps its
copy. -/
def WebRoutes.eraseAt (t : WebRoutes) (idx : ℕ) : WebRoutes :=
  if h : idx < t.routes.length then
    { routes := t.routes.eraseIdx idx
      spare := t.routes.getLast (List.ne_nil_of_length_pos (by omega)) :: t.spare
      length_slots := by
        have := t.length_slots
        rw [List.length_eraseIdx_of_lt h, List.length_cons]
        omega }
  else t

def WebRoutes.add (t : WebRoutes) (wr : WebRoute) : Option WebRoutes :=
  match h : t.spare with
  | [] => none
  | _ :: spare => some (WebRoutes.sort
    { routes := t.routes ++ [wr]
      spare := spare
      length_slots := by
        have := t.length_slots
        rw [h, List.length_cons] at this
        simp only [List.length_append, List.length_singleton]
        omega })

/-- What handling a line leaves behind. -/
structure CtlResult where
  table : WebRoutes
  /-- The table was changed, and the file is written. -/
  flushed : Bool
  /-- The reply, where it stays in its buffer. -/
  reply : Option Bytes

/-- A line that is answered without a change. -/
def CtlResult.refused (t : WebRoutes) (reply : Bytes) : CtlResult := ⟨t, false, some reply⟩

def ctlRemove (t : WebRoutes) (line : Bytes) : CtlResult :=
  if ctlPrefix line = [] then .refused t (ctlError (lit "missing prefix"))
  else
    match findWebRoute t.routes (ctlPrefix line) with
    | none => .refused t (ctlError (lit "prefix not found"))
    | some idx => ⟨t.eraseAt idx, true, some ctlOk⟩

def ctlPublish (t : WebRoutes) (uid : ℕ) (line : Bytes) : CtlResult :=
  match publishError line with
  | some error => .refused t (ctlError error)
  | none =>
    if (findWebRoute t.routes (ctlPrefix line)).isSome then
      .refused t (ctlError (lit "prefix already registered"))
    else
      match t.add (publishedRoute uid line) with
      | none => .refused t (ctlError (lit "route table full"))
      | some t => ⟨t, true, some ctlOk⟩

def ctlHandleLine (t : WebRoutes) (uid : ℕ) (line : Bytes) : CtlResult :=
  if ctlAction line = [] then .refused t (ctlError (lit "missing action"))
  else if ctlAction line = lit "list" then ⟨t, false, listReply t.routes⟩
  else if ctlAction line = lit "remove" then ctlRemove t line
  else if ctlAction line = lit "publish" then ctlPublish t uid line
  else .refused t (ctlError (lit "unknown action"))

/-! ### The machine -/

/-- The table and the file it is flushed to. -/
structure CtlState where
  table : WebRoutes
  /-- The configuration file, if there is one. -/
  conf : Option Bytes

/-- What happens to the table. -/
inductive CtlEvent
  /-- A client sends a line; the kernel may give no credentials, and the file may not
  open for writing. -/
  | line (peer : UInt32) (credentials : Bool) (text : Bytes) (writable : Bool)
  /-- The gateway is told to read the file again, and may not be able to. -/
  | reload (readable : Bool)

def ctlStep (s : CtlState) : CtlEvent → CtlState
  | .line peer credentials text writable =>
    let r := ctlHandleLine s.table (ctlPeerUid peer credentials) (cstr text)
    { table := r.table
      conf := if r.flushed && writable then some (flushWebRoutes r.table.routes) else s.conf }
  | .reload readable =>
    { s with table := loadWebRoutes (if readable then s.conf else none) s.table }

/-- The gateway starts by reading the file it finds. -/
def ctlBoot (conf : Option Bytes) (readable : Bool) : CtlState :=
  ctlStep ⟨.zero, conf⟩ (.reload readable)

def webRoutesAfter (conf : Option Bytes) (readable : Bool) (events : List CtlEvent) : CtlState :=
  run ctlStep (ctlBoot conf readable) events

/-! ### What a line can do -/

variable {t : WebRoutes} {ints : List ℤ}

theorem WebRoutes.eraseAt_routes {idx : ℕ} (h : idx < t.routes.length) :
    (t.eraseAt idx).routes = t.routes.eraseIdx idx := by
  rw [WebRoutes.eraseAt, dif_pos h]

theorem WebRoutes.add_eq_some {u : WebRoutes} {wr : WebRoute} (h : t.add wr = some u) :
    ∃ old spare, t.spare = old :: spare ∧ u.routes = sortWebRoutes (t.routes ++ [wr]) ∧
      u.spare = spare := by
  unfold WebRoutes.add at h
  split at h
  · simp at h
  · next old spare hsp =>
    obtain rfl := Option.some.inj h
    exact ⟨old, spare, hsp, rfl, rfl⟩

theorem findWebRoute_eq_some {routes : List WebRoute} {pathPrefix : Bytes} {idx : ℕ}
    (h : findWebRoute routes pathPrefix = some idx) :
    ∃ hlt : idx < routes.length, (routes[idx]).pathPrefix = pathPrefix := by
  obtain ⟨hlt, heq, -⟩ := List.findIdx?_eq_some_iff_getElem.mp h
  exact ⟨hlt, by simpa using heq⟩

def IsPublish (line : Bytes) : Prop := ctlAction line = lit "publish" ∧ publishError line = none

def IsRemove (line : Bytes) : Prop := ctlAction line = lit "remove" ∧ ctlPrefix line ≠ []

/-- **What a line can do**: nothing, add the route it describes, or remove one with the
prefix it names. -/
theorem ctlHandleLine_cases (t : WebRoutes) (uid : ℕ) (line : Bytes) :
    (ctlHandleLine t uid line).table = t ∧ (ctlHandleLine t uid line).flushed = false ∨
    (IsPublish line ∧ (ctlHandleLine t uid line).flushed = true ∧
      t.add (publishedRoute uid line) = some (ctlHandleLine t uid line).table) ∨
    (IsRemove line ∧ (ctlHandleLine t uid line).flushed = true ∧
      ∃ idx, findWebRoute t.routes (ctlPrefix line) = some idx ∧
        (ctlHandleLine t uid line).table = t.eraseAt idx) := by
  unfold ctlHandleLine
  split_ifs with hmissing hlist hremove hpublish
  · exact Or.inl ⟨rfl, rfl⟩
  · exact Or.inl ⟨rfl, rfl⟩
  · unfold ctlRemove
    split_ifs with hpath
    · exact Or.inl ⟨rfl, rfl⟩
    · cases hfind : findWebRoute t.routes (ctlPrefix line) with
      | none => exact Or.inl ⟨rfl, rfl⟩
      | some idx => exact Or.inr (Or.inr ⟨⟨hremove, hpath⟩, rfl, idx, rfl, rfl⟩)
  · unfold ctlPublish
    cases herr : publishError line with
    | some error => exact Or.inl ⟨rfl, rfl⟩
    | none =>
      split_ifs with hfind
      · exact Or.inl ⟨rfl, rfl⟩
      · cases hadd : t.add (publishedRoute uid line) with
        | none => exact Or.inl ⟨rfl, rfl⟩
        | some u => exact Or.inr (Or.inl ⟨⟨hpublish, herr⟩, rfl, rfl⟩)
  · exact Or.inl ⟨rfl, rfl⟩

/-! ### What is kept -/

/-- **A well-formed table**: in order, with storable routes, and with hosts in the
slots behind them that a later route may inherit. -/
structure WebRoutes.Wf (t : WebRoutes) : Prop where
  sorted : IsSorted t.routes
  stored : ∀ wr ∈ t.routes, wr.Stored
  spare_host : ∀ wr ∈ t.spare, wr.host.length < 64 ∧ (0 : Byte) ∉ wr.host

theorem jsonExtractStr_spec {line key v : Bytes} {outsz : ℕ}
    (h : jsonExtractStr line key outsz = some v) : v.length < outsz ∧ ∀ c ∈ v, c ∈ line := by
  simp only [jsonExtractStr, Option.bind_eq_bind, Option.bind_eq_some_iff] at h
  obtain ⟨p, hp, q, hq, r, hr, w, hw, h⟩ := h
  split at h
  · next hlt =>
    obtain rfl : w = v := by simpa using h
    refine ⟨hlt, fun c hc => ?_⟩
    obtain ⟨pre, rest, hline, -⟩ := strstr_eq_some hp
    obtain ⟨pre', rest', hcut, -, hq'⟩ := strchr_eq_some hq
    obtain ⟨-, t, ht⟩ := untilQuote_eq_some hw
    have hr' : c ∈ r := by
      rw [ht]
      exact List.mem_append_left _ hc
    have hq1 : c ∈ q := by
      have hd : c ∈ (q.drop 1).dropWhile fun c => c == 32 || c == 9 := by
        rw [expect_eq_some hr]
        exact List.mem_cons_of_mem _ hr'
      exact List.mem_of_mem_drop ((List.dropWhile_suffix _).subset hd)
    have hp1 : c ∈ p := by
      have hd : c ∈ p.drop (key.length + 2) := by
        rw [hcut, ← hq']
        exact List.mem_append_right _ hq1
      exact List.mem_of_mem_drop hd
    rw [hline]
    exact List.mem_append_right _ hp1
  · simp at h

theorem ctlField_spec (line key : Bytes) {size : ℕ} (hsize : 0 < size) :
    (ctlField line key size).length < size ∧ ∀ c ∈ ctlField line key size, c ∈ line := by
  cases h : jsonExtractStr line key size with
  | none => simp [ctlField, h, hsize]
  | some v => simpa [ctlField, h] using jsonExtractStr_spec h

theorem isInt_jsonExtractInt (line key : Bytes) : IsInt (jsonExtractInt line key) := by
  have hatoi : ∀ s, IsInt (atoi s) := fun s => by
    unfold atoi
    split
    · exact isInt_toInt _
    · decide
  unfold jsonExtractInt
  split
  · exact hatoi _
  · decide

theorem publishedRoute_uds {line : Bytes} (h : ctlUpstreamType line = lit "uds") (uid : ℕ) :
    publishedRoute uid line = ⟨ctlPrefix line, [], ctlField line (lit "socketPath") 256, 0, .uds,
      uid, jsonExtractInt line (lit "auth")⟩ := by
  have hpre := fit_of_lt (ctlField_spec line (lit "prefix") (by decide : 0 < 256)).1
  have hsock := fit_of_lt (ctlField_spec line (lit "socketPath") (by decide : 0 < 256)).1
  rw [publishedRoute, if_pos h, hsock, ctlPrefix, hpre]
  rfl

theorem publishedRoute_tcp {line : Bytes} (h : ctlUpstreamType line ≠ lit "uds") (uid : ℕ) :
    publishedRoute uid line = ⟨ctlPrefix line, ctlField line (lit "host") 64,
      ctlField line (lit "host") 64, jsonExtractInt line (lit "port"), .tcp, uid,
      jsonExtractInt line (lit "auth")⟩ := by
  have hpre := fit_of_lt (ctlField_spec line (lit "prefix") (by decide : 0 < 256)).1
  have hlen := (ctlField_spec line (lit "host") (by decide : 0 < 64)).1
  have hhost := fit_of_lt hlen
  have htarget := fit_of_lt (Nat.lt_trans hlen (by decide : 64 < 256))
  rw [publishedRoute, if_neg h, hhost, htarget, ctlPrefix, hpre]

theorem publishedRoute_named (uid : ℕ) (line : Bytes) :
    (publishedRoute uid line).pathPrefix = ctlPrefix line ∧
      (publishedRoute uid line).ownerUid = uid := by
  by_cases h : ctlUpstreamType line = lit "uds"
  · rw [publishedRoute_uds h]
    exact ⟨rfl, rfl⟩
  · rw [publishedRoute_tcp h]
    exact ⟨rfl, rfl⟩

theorem publishedRoute_stored {uid : ℕ} {line : Bytes} (herr : publishError line = none)
    (huid : uid < 2 ^ 32) (hzero : (0 : Byte) ∉ line) : (publishedRoute uid line).Stored := by
  obtain ⟨hplen, hpmem⟩ := ctlField_spec line (lit "prefix") (by decide : 0 < 256)
  obtain ⟨hhlen, hhmem⟩ := ctlField_spec line (lit "host") (by decide : 0 < 64)
  obtain ⟨hslen, hsmem⟩ := ctlField_spec line (lit "socketPath") (by decide : 0 < 256)
  have hauth := isInt_jsonExtractInt line (lit "auth")
  have hport := isInt_jsonExtractInt line (lit "port")
  unfold publishError at herr
  simp only at herr
  split_ifs at herr with hne htype htcp huds
  by_cases hk : ctlUpstreamType line = lit "uds"
  · have hsock : ctlField line (lit "socketPath") 256 ≠ [] := fun h => huds ⟨hk, h⟩
    rw [publishedRoute_uds hk]
    exact ⟨hne, hplen, fun h => hzero (hpmem 0 h), hsock, by simp, hslen, by simp,
      fun h => hzero (hsmem 0 h), by simp [IsInt], huid, hauth⟩
  · have hkind : ctlUpstreamType line = lit "tcp" := by
      by_contra h
      exact htype ⟨h, hk⟩
    have hhost : ctlField line (lit "host") 64 ≠ [] := fun h => htcp ⟨hkind, Or.inl h⟩
    rw [publishedRoute_tcp hk]
    exact ⟨hne, hplen, fun h => hzero (hpmem 0 h), hhost, hhlen, Nat.lt_trans hhlen (by decide),
      fun h => hzero (hhmem 0 h), fun h => hzero (hhmem 0 h), hport, huid, hauth⟩

/-! ### What a reload reads -/

theorem toUid_lt (n : ℤ) : toUid n < 2 ^ 32 := by
  unfold toUid
  omega

theorem scanTyped_eq_some {line pathPrefix kind target : Bytes}
    (h : scanTyped line = some (pathPrefix, kind, target, ints)) :
    (pathPrefix ≠ [] ∧ pathPrefix.length ≤ 255 ∧ pathPrefix ⊆ line) ∧
      (target ≠ [] ∧ target.length ≤ 255 ∧ target ⊆ line) ∧ ∀ n ∈ ints, IsInt n := by
  simp only [scanTyped, Option.bind_eq_bind, Option.bind_eq_some_iff, Option.pure_def,
    Option.some.injEq, Prod.mk.injEq, Prod.exists] at h
  obtain ⟨_, s₁, h₁, _, s₂, h₂, _, s₃, h₃, rfl, rfl, rfl, rfl⟩ := h
  obtain ⟨hne₁, hlen₁, hsub₁, ht₁⟩ := scanWord_eq_some h₁
  obtain ⟨-, -, -, ht₂⟩ := scanWord_eq_some h₂
  obtain ⟨hne₃, hlen₃, hsub₃, -⟩ := scanWord_eq_some h₃
  exact ⟨⟨hne₁, hlen₁, hsub₁⟩, ⟨hne₃, hlen₃, fun c hc => ht₁ (ht₂ (hsub₃ hc))⟩,
    fun n hn => isInt_of_mem_scanDecimals hn⟩

theorem scanUntyped_eq_some {line pathPrefix host : Bytes}
    (h : scanUntyped line = some (pathPrefix, host, ints)) :
    (pathPrefix ≠ [] ∧ pathPrefix.length ≤ 255 ∧ pathPrefix ⊆ line) ∧
      (host ≠ [] ∧ host.length ≤ 63 ∧ host ⊆ line) ∧ ∀ n ∈ ints, IsInt n := by
  simp only [scanUntyped, Option.bind_eq_bind, Option.bind_eq_some_iff, Option.pure_def,
    Option.some.injEq, Prod.mk.injEq, Prod.exists] at h
  obtain ⟨_, s₁, h₁, _, s₂, h₂, rfl, rfl, rfl⟩ := h
  obtain ⟨hne₁, hlen₁, hsub₁, ht₁⟩ := scanWord_eq_some h₁
  obtain ⟨hne₂, hlen₂, hsub₂, -⟩ := scanWord_eq_some h₂
  exact ⟨⟨hne₁, hlen₁, hsub₁⟩, ⟨hne₂, hlen₂, fun c hc => ht₁ (hsub₂ hc)⟩,
    fun n hn => isInt_of_mem_scanDecimals hn⟩

theorem isInt_getD (h : ∀ n ∈ ints, IsInt n) (i : ℕ) : IsInt (ints[i]?.getD 0) := by
  cases hi : ints[i]? with
  | none => decide
  | some n => exact h n (List.mem_of_getElem? hi)

section Load

variable {old wr : WebRoute} {line : Bytes}

theorem typedRoute_stored (hlen : old.host.length < 64) (hhost : (0 : Byte) ∉ old.host)
    (hzero : (0 : Byte) ∉ line) (h : typedRoute old line = some wr) : wr.Stored := by
  simp only [typedRoute, Option.bind_eq_bind, Option.bind_eq_some_iff, Prod.exists] at h
  obtain ⟨pathPrefix, kind, target, ints, hscan, h⟩ := h
  obtain ⟨⟨hne, hplen, hpsub⟩, ⟨htne, htlen, htsub⟩, hints⟩ := scanTyped_eq_some hscan
  have hp : fit 256 pathPrefix = pathPrefix := fit_of_lt (by omega)
  have ht : fit 256 target = target := fit_of_lt (by omega)
  have hcut : (fit 64 target).length < 64 := by
    rw [fit, List.length_take]
    omega
  have hcutne : fit 64 target ≠ [] := by
    rw [fit, Ne, List.take_eq_nil_iff]
    simpa using htne
  obtain _ | ⟨port, _ | ⟨uid, auth⟩⟩ := ints
  · cases h
  · cases h
  · have hport : IsInt port := hints port (by simp)
    have hauth : IsInt (auth.head?.getD 0) := by
      rw [List.head?_eq_getElem?]
      exact isInt_getD (fun n hn => hints n (by simp [hn])) 0
    split_ifs at h
    · obtain rfl := Option.some.inj h
      rw [hp, ht]
      exact ⟨hne, by simp only; omega, fun h => hzero (hpsub h), hcutne, hcut, by simp only; omega,
        fun h => hzero (htsub (mem_of_mem_fit h)), fun h => hzero (htsub h), hport, toUid_lt uid,
        hauth⟩
    · obtain rfl := Option.some.inj h
      rw [hp, ht]
      exact ⟨hne, by simp only; omega, fun h => hzero (hpsub h), htne, hlen, by simp only; omega,
        hhost, fun h => hzero (htsub h), hport, toUid_lt uid, hauth⟩

theorem untypedRoute_stored (old : WebRoute) (hzero : (0 : Byte) ∉ line)
    (h : untypedRoute old line = some wr) :
    wr.Stored := by
  simp only [untypedRoute, Option.bind_eq_bind, Option.bind_eq_some_iff, Prod.exists] at h
  obtain ⟨pathPrefix, host, ints, hscan, h⟩ := h
  obtain ⟨⟨hne, hplen, hpsub⟩, ⟨hhne, hhlen, hhsub⟩, hints⟩ := scanUntyped_eq_some hscan
  have hp : fit 256 pathPrefix = pathPrefix := fit_of_lt (by omega)
  have hh : fit 64 host = host := fit_of_lt (by omega)
  have ht : fit 256 host = host := fit_of_lt (by omega)
  match ints, hints, h with
  | port :: ints, hints, h =>
    have hauth := isInt_getD (fun n hn => hints n (List.mem_cons_of_mem _ hn)) 1
    obtain rfl := Option.some.inj h
    rw [hp, hh, ht]
    exact ⟨hne, by simp only; omega, fun h => hzero (hpsub h), hhne, by simp only; omega,
      by simp only; omega, fun h => hzero (hhsub h), fun h => hzero (hhsub h),
      hints port List.mem_cons_self, toUid_lt _, hauth⟩

/-- **A route that is loaded can be stored**, if the slot it is read into had a
storable host. -/
theorem lineRoute_stored (hlen : old.host.length < 64) (hhost : (0 : Byte) ∉ old.host)
    (hzero : (0 : Byte) ∉ line) (h : lineRoute old line = some wr) : wr.Stored := by
  unfold lineRoute at h
  split at h
  · simp at h
  · cases htyped : typedRoute old line with
    | none =>
      rw [htyped] at h
      exact untypedRoute_stored old hzero h
    | some w =>
      rw [htyped] at h
      exact typedRoute_stored hlen hhost hzero (htyped.trans h)

end Load

/-! ### Every table is well formed -/

theorem sortWebRoutes_mem {routes : List WebRoute} {wr : WebRoute} :
    wr ∈ sortWebRoutes routes ↔ wr ∈ routes :=
  (exchangeSort_perm WebRoute.prefixLength routes).mem_iff

/-- What a table has but for its order. -/
structure WebRoutes.Filled (t : WebRoutes) : Prop where
  stored : ∀ wr ∈ t.routes, wr.Stored
  spare_host : ∀ wr ∈ t.spare, wr.host.length < 64 ∧ (0 : Byte) ∉ wr.host

theorem WebRoutes.Wf.filled (h : t.Wf) : t.Filled := ⟨h.stored, h.spare_host⟩

theorem WebRoutes.Filled.sort (h : t.Filled) : t.sort.Wf where
  sorted := exchangeSort_pairwise WebRoute.prefixLength t.routes
  stored wr hwr := h.stored wr (sortWebRoutes_mem.mp hwr)
  spare_host := h.spare_host

theorem WebRoutes.Filled.unused (h : t.Filled) : t.unused.Filled where
  stored wr hwr := by simp [WebRoutes.unused] at hwr
  spare_host wr hwr := by
    rcases List.mem_append.mp hwr with hwr | hwr
    · exact ⟨(h.stored wr hwr).host_lt, (h.stored wr hwr).zero_host⟩
    · exact h.spare_host wr hwr

theorem WebRoutes.Filled.loadLine (h : t.Filled) (line : Bytes) : (loadLine t line).Filled := by
  unfold OpenCms.Gateway.loadLine
  split
  · exact h
  · next old spare hsp =>
    split
    · exact h
    · next wr hwr =>
      obtain ⟨hlen, hhost⟩ := h.spare_host old (by simp [hsp])
      have hstored := lineRoute_stored hlen hhost (zero_notMem_cstr line) hwr
      constructor
      · intro w hw
        rcases List.mem_append.mp hw with hw | hw
        · exact h.stored w hw
        · obtain rfl : w = wr := by simpa using hw
          exact hstored
      · intro w hw
        exact h.spare_host w (by simp [hsp, hw])

/-- **A reload leaves a well-formed table**, whatever the file says. -/
theorem WebRoutes.Wf.load (h : t.Wf) (conf : Option Bytes) : (loadWebRoutes conf t).Wf := by
  unfold loadWebRoutes
  split
  · exact ⟨List.Pairwise.nil, h.filled.unused.stored, h.filled.unused.spare_host⟩
  · refine WebRoutes.Filled.sort ?_
    refine List.foldlRecOn _ OpenCms.Gateway.loadLine h.filled.unused fun u hu line _ => ?_
    exact hu.loadLine line

theorem WebRoutes.Wf.add {u : WebRoutes} {wr : WebRoute} (h : t.Wf) (hwr : wr.Stored)
    (hadd : t.add wr = some u) : u.Wf := by
  obtain ⟨old, spare, hsp, hroutes, hspare⟩ := WebRoutes.add_eq_some hadd
  constructor
  · rw [hroutes]
    exact exchangeSort_pairwise WebRoute.prefixLength _
  · intro w hw
    rw [hroutes, sortWebRoutes_mem, List.mem_append, List.mem_singleton] at hw
    rcases hw with hw | rfl
    · exact h.stored w hw
    · exact hwr
  · intro w hw
    exact h.spare_host w (by simp [hsp, ← hspare, hw])

theorem WebRoutes.Wf.eraseAt (h : t.Wf) (idx : ℕ) : (t.eraseAt idx).Wf := by
  unfold WebRoutes.eraseAt
  split
  · next hlt =>
    constructor
    · exact h.sorted.sublist (List.eraseIdx_sublist _ _)
    · intro w hw
      exact h.stored w ((List.eraseIdx_sublist _ _).subset hw)
    · intro w hw
      rcases List.mem_cons.mp hw with rfl | hw
      · have hlast := h.stored _ (List.getLast_mem (List.ne_nil_of_length_pos (by omega)))
        exact ⟨hlast.host_lt, hlast.zero_host⟩
      · exact h.spare_host w hw
  · exact h

theorem ctlPeerUid_lt (peer : UInt32) (credentials : Bool) :
    ctlPeerUid peer credentials < 2 ^ 32 := by
  unfold ctlPeerUid
  split
  · exact peer.toNat_lt
  · decide

/-- **Every step keeps the table well formed.** -/
theorem WebRoutes.Wf.ctlStep {s : CtlState} (h : s.table.Wf) (e : CtlEvent) :
    (ctlStep s e).table.Wf := by
  cases e with
  | line peer credentials text writable =>
    have huid := ctlPeerUid_lt peer credentials
    rcases ctlHandleLine_cases s.table (ctlPeerUid peer credentials) (cstr text)
      with ⟨heq, -⟩ | ⟨hpub, -, hadd⟩ | ⟨-, -, idx, -, heq⟩
    · rw [OpenCms.Gateway.ctlStep, heq]
      exact h
    · exact h.add (publishedRoute_stored hpub.2 huid (zero_notMem_cstr text)) hadd
    · rw [OpenCms.Gateway.ctlStep, heq]
      exact h.eraseAt idx
  | reload readable => exact h.load _

theorem webRoutesAfter_wf (conf : Option Bytes) (readable : Bool) (events : List CtlEvent) :
    (webRoutesAfter conf readable events).table.Wf := by
  have hzero : WebRoutes.zero.Wf := by
    refine ⟨List.Pairwise.nil, fun wr hwr => by simp [WebRoutes.zero] at hwr, fun wr hwr => ?_⟩
    obtain rfl : wr = WebRoute.zero := List.eq_of_mem_replicate hwr
    decide
  have hboot : (ctlBoot conf readable).table.Wf := hzero.load _
  have hstep : ∀ (s : CtlState) (e : CtlEvent), s.table.Wf → (ctlStep s e).table.Wf :=
    fun s e h => h.ctlStep e
  exact run_invariant (fun s : CtlState => s.table.Wf) hboot hstep events

/-! ### The table follows the lines -/

/-- **The change a line makes**, sent by a user: none, one route added that belongs to
the sender and has the prefix the line names, or one route removed that has it. -/
inductive RouteChange (uid : ℕ) (line : Bytes) (routes : List WebRoute) : List WebRoute → Prop
  | unchanged : RouteChange uid line routes routes
  | published (wr : WebRoute) (after : List WebRoute) :
      IsPublish line → wr.pathPrefix = ctlPrefix line → wr.ownerUid = uid →
      after.Perm (wr :: routes) → RouteChange uid line routes after
  | removed (before after : List WebRoute) (wr : WebRoute) :
      IsRemove line → wr.pathPrefix = ctlPrefix line → routes = before ++ wr :: after →
      RouteChange uid line routes (before ++ after)

theorem ctlHandleLine_routeChange (t : WebRoutes) (uid : ℕ) (line : Bytes) :
    RouteChange uid line t.routes (ctlHandleLine t uid line).table.routes := by
  rcases ctlHandleLine_cases t uid line
    with ⟨heq, -⟩ | ⟨hpub, -, hadd⟩ | ⟨hrem, -, idx, hfind, heq⟩
  · rw [heq]
    exact .unchanged
  · obtain ⟨old, spare, -, hroutes, -⟩ := WebRoutes.add_eq_some hadd
    obtain ⟨hpath, hown⟩ := publishedRoute_named uid line
    refine .published (publishedRoute uid line) _ hpub hpath hown ?_
    rw [hroutes]
    exact (exchangeSort_perm WebRoute.prefixLength _).trans List.perm_append_comm
  · obtain ⟨hlt, hpath⟩ := findWebRoute_eq_some hfind
    rw [heq, WebRoutes.eraseAt_routes hlt, List.eraseIdx_eq_take_drop_succ]
    refine .removed _ _ t.routes[idx] hrem hpath ?_
    rw [List.getElem_cons_drop, List.take_append_drop]

theorem ctlStep_conf {s : CtlState} {peer : UInt32} {credentials : Bool} {text : Bytes}
    (h : (ctlStep s (.line peer credentials text true)).table.routes ≠ s.table.routes) :
    (ctlStep s (.line peer credentials text true)).conf
      = some (flushWebRoutes (ctlStep s (.line peer credentials text true)).table.routes) := by
  have hflushed : (ctlHandleLine s.table (ctlPeerUid peer credentials) (cstr text)).flushed
      = true := by
    rcases ctlHandleLine_cases s.table (ctlPeerUid peer credentials) (cstr text)
      with ⟨heq, -⟩ | ⟨-, hflushed, -⟩ | ⟨-, hflushed, -⟩
    · refine absurd ?_ h
      rw [ctlStep, heq]
    · exact hflushed
    · exact hflushed
  simp [ctlStep, hflushed]

section Sample

def samplePublish : Bytes :=
  lit "\x7b\"action\":\"publish\",\"prefix\":\"/app\",\"host\":\"127.0.0.1\",\"port\":3000\x7d"

def sampleRemove : Bytes := lit "\x7b\"action\":\"remove\",\"prefix\":\"/app\"\x7d"

/-- A line whose prefix goes on as the fields of another route. -/
def sampleSpaced : Bytes :=
  lit "\x7b\"action\":\"publish\",\"prefix\":\"/x tcp evil 80 0\",\"host\":\"h\",\"port\":1\x7d"

def sampleRoute : WebRoute :=
  ⟨lit "/app", lit "127.0.0.1", lit "127.0.0.1", 3000, .tcp, 1001, 0⟩

theorem samplePublish_routes :
    (webRoutesAfter none true [.line 1001 true samplePublish true]).table.routes
      = [sampleRoute] := by
  rw [samplePublish, lit_ofList]
  decide

theorem sampleRoute_printable : sampleRoute.Printable := by
  constructor <;> decide +kernel

def sampleSpacedRoute : WebRoute :=
  ⟨lit "/x tcp evil 80 0", lit "h", lit "h", 1, .tcp, 1001, 0⟩

theorem sampleSpaced_routes :
    (webRoutesAfter none true [.line 1001 true sampleSpaced true]).table.routes
      = [sampleSpacedRoute] := by
  rw [sampleSpaced, sampleSpacedRoute, lit_ofList, lit_ofList]
  decide

theorem sampleSpaced_reload :
    let u := webRoutesAfter none true [.line 1001 true sampleSpaced true]
    (ctlStep u (.reload true)).table =
      ((([sampleSpacedRoute].map WebRoute.line).map fun line => line ++ [10]).foldl loadLine
        u.table.unused).sort := by
  intro u
  have hconf : u.conf = some (flushWebRoutes u.table.routes) := by
    refine ctlStep_conf (s := ctlBoot none true) fun h => ?_
    exact absurd (sampleSpaced_routes.symm.trans h) (List.cons_ne_nil _ _)
  have hline : ∀ wr ∈ [sampleSpacedRoute], (10 : Byte) ∉ wr.line ∧ wr.line.length + 1 < 512 := by
    intro wr hwr
    rw [List.mem_singleton.mp hwr, sampleSpacedRoute, lit_ofList, lit_ofList]
    decide
  have hload := loadWebRoutes_flush u.table hline
  rw [← hload, ← sampleSpaced_routes, ← hconf]
  rfl

end Sample

end OpenCms.Gateway
