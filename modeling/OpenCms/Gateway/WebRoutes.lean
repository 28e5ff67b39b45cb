import OpenCms.Lib.Scan
import OpenCms.Lib.ExchangeSort
import Mathlib.Tactic.IntervalCases

/-!
# The web-route table

The table maps path prefixes to the backends of local users. It is an array of
`OpenCms.Gateway.maxWebRoutes` slots of which the first ones are in use; the slots
behind them are kept here too, because reading the configuration file writes over a
slot without clearing it, and the host of a unix-socket route is then what stood
there.

The table is kept in the order of falling prefix length, which is what makes the
first match of `OpenCms.Gateway.matchWebRoute` the longest one
(`OpenCms.Gateway.matchWebRoute_longest`).

A table is written to the configuration file as one line a route, fields separated by
blanks, and read back by two `sscanf` formats. That is a round trip for the routes
that survive the format, `OpenCms.Gateway.WebRoute.Printable`
(`OpenCms.Gateway.loadWebRoutes_flushWebRoutes`).
-/

namespace OpenCms.Gateway

/-! ### Routes -/

inductive WebRouteType
  | tcp
  | uds
  deriving DecidableEq, Repr

structure WebRoute where
  /-- `prefix`. -/
  pathPrefix : Bytes
  /-- The host of a TCP backend. -/
  host : Bytes
  /-- The host again, or the path of a unix socket. -/
  target : Bytes
  port : ℤ
  type : WebRouteType
  ownerUid : ℕ
  /-- Zero for a public route. -/
  authRequired : ℤ
  deriving DecidableEq, Repr

/-- A slot that was cleared. -/
def WebRoute.zero : WebRoute := ⟨[], [], [], 0, .tcp, 0, 0⟩

def maxWebRoutes : ℕ := 128

/-- **The table**: the routes in use, and the slots behind them with whatever they
last held. -/
structure WebRoutes where
  routes : List WebRoute
  spare : List WebRoute
  length_slots : routes.length + spare.length = maxWebRoutes

def WebRoutes.zero : WebRoutes where
  routes := []
  spare := List.replicate maxWebRoutes WebRoute.zero
  length_slots := by simp

def toUid (n : ℤ) : ℕ := (n % 2 ^ 32).toNat

def WebRoute.prefixLength (wr : WebRoute) : ℕ := wr.pathPrefix.length

def sortWebRoutes (routes : List WebRoute) : List WebRoute :=
  exchangeSort WebRoute.prefixLength routes

theorem length_sortWebRoutes (routes : List WebRoute) :
    (sortWebRoutes routes).length = routes.length :=
  (exchangeSort_perm WebRoute.prefixLength routes).length_eq

def IsSorted (routes : List WebRoute) : Prop :=
  routes.Pairwise fun a b => b.prefixLength ≤ a.prefixLength

def WebRoutes.sort (t : WebRoutes) : WebRoutes where
  routes := sortWebRoutes t.routes
  spare := t.spare
  length_slots := by rw [length_sortWebRoutes, t.length_slots]

@[ext] theorem WebRoutes.ext {t u : WebRoutes} (h1 : t.routes = u.routes)
    (h2 : t.spare = u.spare) : t = u := by
  cases t
  cases u
  congr

/-! ### Reading the configuration file -/

/-- The first format, `%255s %31s %255s %d %d %d`. -/
def scanTyped (line : Bytes) : Option (Bytes × Bytes × Bytes × List ℤ) := do
  let (pathPrefix, s) ← scanWord 255 line
  let (kind, s) ← scanWord 31 s
  let (target, s) ← scanWord 255 s
  return (pathPrefix, kind, target, scanDecimals 3 s)

/-- The second format, `%255s %63s %d %d %d`. -/
def scanUntyped (line : Bytes) : Option (Bytes × Bytes × List ℤ) := do
  let (pathPrefix, s) ← scanWord 255 line
  let (host, s) ← scanWord 63 s
  return (pathPrefix, host, scanDecimals 3 s)

/-- A line of the typed format, read into a slot; the host of a unix-socket route is
not written. -/
def typedRoute (old : WebRoute) (line : Bytes) : Option WebRoute := do
  let (pathPrefix, kind, target, ints) ← scanTyped line
  match ints with
  | port :: uid :: auth =>
    let wr := { old with
      pathPrefix := fit 256 pathPrefix
      target := fit 256 target
      port := port
      ownerUid := toUid uid
      authRequired := auth.head?.getD 0 }
    if kind = lit "tcp" then some { wr with type := .tcp, host := fit 64 target }
    else if kind = lit "uds" then some { wr with type := .uds }
    else none
  | _ => none

/-- A line of the untyped format. The variables of the first format are used again,
so that a user id it converted stays where this one stops early. -/
def untypedRoute (old : WebRoute) (line : Bytes) : Option WebRoute := do
  let leftover := ((scanTyped line).bind fun (_, _, _, ints) => ints[1]?).getD 0
  let (pathPrefix, host, ints) ← scanUntyped line
  match ints with
  | [] => none
  | port :: ints =>
    some { old with
      pathPrefix := fit 256 pathPrefix
      host := fit 64 host
      target := fit 256 host
      type := .tcp
      port := port
      ownerUid := toUid (ints.head?.getD leftover)
      authRequired := ints[1]?.getD 0 }

def isSkipped (line : Bytes) : Bool :=
  line.head? == some 35 || line.head? == some 10 || line.head? == some 13

def lineRoute (old : WebRoute) (line : Bytes) : Option WebRoute :=
  if isSkipped line then none else (typedRoute old line).orElse fun _ => untypedRoute old line

/-- One turn of the loop of `load_web_routes`: nothing is read into a full table. -/
def loadLine (t : WebRoutes) (line : Bytes) : WebRoutes :=
  match h : t.spare with
  | [] => t
  | old :: spare =>
    match lineRoute old (cstr line) with
    | none => t
    | some wr =>
      { routes := t.routes ++ [wr]
        spare := spare
        length_slots := by
          have := t.length_slots
          rw [h, List.length_cons] at this
          simp only [List.length_append, List.length_singleton]
          omega }

def WebRoutes.unused (t : WebRoutes) : WebRoutes where
  routes := []
  spare := t.routes ++ t.spare
  length_slots := by simpa using t.length_slots

def loadWebRoutes (conf : Option Bytes) (t : WebRoutes) : WebRoutes :=
  match conf with
  | none => t.unused
  | some text => ((fgetsLines 512 text).foldl loadLine t.unused).sort

/-! ### Writing it -/

def confHeader : List Bytes :=
  [lit "# Auto-generated by opencode-gateway — do not edit manually",
    lit "# Format: <prefix> <type> <target> <port> <owner_uid> [auth]",
    lit "# type: tcp target=<host>, uds target=<socket_path>",
    lit "# auth: 0=public (default), 1=require login"]

def WebRouteType.word : WebRouteType → Bytes
  | .tcp => lit "tcp"
  | .uds => lit "uds"

def WebRoute.upstream (wr : WebRoute) : Bytes :=
  match wr.type with
  | .tcp => wr.host
  | .uds => wr.target

def WebRoute.line (wr : WebRoute) : Bytes :=
  wr.pathPrefix ++ 32 :: (wr.type.word ++ 32 :: (wr.upstream ++ 32 :: (decimal wr.port ++
    32 :: (decimal (toInt wr.ownerUid) ++ 32 :: decimal wr.authRequired))))

def flushWebRoutes (routes : List WebRoute) : Bytes :=
  ((confHeader ++ routes.map WebRoute.line).map fun line => line ++ [10]).flatten

/-! ### Looking up a path -/

def WebRoute.matchesPath (wr : WebRoute) (path : Bytes) : Bool :=
  wr.pathPrefix.isPrefixOf path &&
    match path.drop wr.pathPrefix.length with
    | [] => true
    | c :: _ => c == 47

def matchWebRoute (routes : List WebRoute) (path : Bytes) : Option WebRoute :=
  routes.find? fun wr => wr.matchesPath path

def findWebRoute (routes : List WebRoute) (pathPrefix : Bytes) : Option ℕ :=
  routes.findIdx? fun wr => wr.pathPrefix == pathPrefix

/-- **The first match is the longest**, in a table that is in order. -/
theorem matchWebRoute_longest {routes : List WebRoute} (hsort : IsSorted routes)
    {path : Bytes} {wr : WebRoute} (h : matchWebRoute routes path = some wr) :
    wr ∈ routes ∧ wr.matchesPath path = true ∧
      ∀ other ∈ routes, other.matchesPath path = true → other.prefixLength ≤ wr.prefixLength := by
  obtain ⟨hwr, before, after, rfl, hbefore⟩ := List.find?_eq_some_iff_append.mp h
  refine ⟨by simp, hwr, fun other hother hpath => ?_⟩
  rcases List.mem_append.mp hother with hmem | hmem
  · exact absurd hpath (by simpa using hbefore other hmem)
  · rcases List.mem_cons.mp hmem with rfl | hmem
    · exact le_rfl
    · exact (List.pairwise_cons.mp (List.pairwise_append.mp hsort).2.1).1 other hmem

theorem matchWebRoute_eq_none {routes : List WebRoute} {path : Bytes} :
    matchWebRoute routes path = none ↔ ∀ wr ∈ routes, wr.matchesPath path = false := by
  simp [matchWebRoute]

/-! ### One line there and back -/

/-- What the fields of a route satisfy wherever it came from. -/
structure WebRoute.Stored (wr : WebRoute) : Prop where
  prefix_ne_nil : wr.pathPrefix ≠ []
  prefix_lt : wr.pathPrefix.length < 256
  zero_prefix : (0 : Byte) ∉ wr.pathPrefix
  upstream_ne_nil : wr.upstream ≠ []
  host_lt : wr.host.length < 64
  target_lt : wr.target.length < 256
  zero_host : (0 : Byte) ∉ wr.host
  zero_target : (0 : Byte) ∉ wr.target
  port : IsInt wr.port
  ownerUid : wr.ownerUid < 2 ^ 32
  authRequired : IsInt wr.authRequired

/-- **A route that survives the format of the file**: its words are words, its line
is no comment and fits the buffer it is read into. -/
structure WebRoute.Printable (wr : WebRoute) : Prop where
  word_prefix : ∀ c ∈ wr.pathPrefix, isSpace c = false
  not_comment : wr.pathPrefix.head? ≠ some 35
  word_upstream : ∀ c ∈ wr.upstream, isSpace c = false
  host_eq : wr.type = .tcp → wr.host = wr.target
  line_lt : wr.line.length + 1 < 512

section RoundTrip

variable {wr : WebRoute}

theorem WebRoute.Stored.upstream_lt (h : wr.Stored) : wr.upstream.length < 256 := by
  have h1 := h.host_lt
  have h2 := h.target_lt
  rw [WebRoute.upstream]
  split <;> omega

theorem toUid_toInt {uid : ℕ} (h : uid < 2 ^ 32) : toUid (toInt uid) = uid := by
  have hmod : (toInt uid) % 2 ^ 32 = (uid : ℤ) % 2 ^ 32 := Int.bmod_emod
  rw [toUid, hmod]
  omega

theorem isSpace_of_mem_word (type : WebRouteType) : ∀ c ∈ type.word, isSpace c = false := by
  cases type <;> exact isSpace_of_all (by decide)

theorem fields_newline (a b c d e f : Bytes) :
    (a ++ 32 :: (b ++ 32 :: (c ++ 32 :: (d ++ 32 :: (e ++ 32 :: f))))) ++ [10]
      = a ++ 32 :: (b ++ 32 :: (c ++ 32 :: (d ++ 32 :: (e ++ 32 :: (f ++ [10]))))) := by
  simp only [List.append_assoc, List.cons_append]

theorem mem_fields {x : Byte} {a b c d e f : Bytes} (hx : x ≠ 32)
    (h : x ∈ a ++ 32 :: (b ++ 32 :: (c ++ 32 :: (d ++ 32 :: (e ++ 32 :: f))))) :
    x ∈ a ∨ x ∈ b ∨ x ∈ c ∨ x ∈ d ∨ x ∈ e ∨ x ∈ f := by
  simpa [hx] using h

/-- Three words and three numbers that were printed come back. -/
theorem scanTyped_fields {pathPrefix kind target : Bytes} {port uid auth : ℤ}
    (hpre : pathPrefix ≠ [] ∧ pathPrefix.length ≤ 255 ∧ ∀ c ∈ pathPrefix, isSpace c = false)
    (hkind : kind ≠ [] ∧ kind.length ≤ 31 ∧ ∀ c ∈ kind, isSpace c = false)
    (htarget : target ≠ [] ∧ target.length ≤ 255 ∧ ∀ c ∈ target, isSpace c = false)
    (hport : IsInt port) (huid : IsInt uid) (hauth : IsInt auth) :
    scanTyped (pathPrefix ++ 32 :: (kind ++ 32 :: (target ++ 32 :: (decimal port ++
      32 :: (decimal uid ++ 32 :: (decimal auth ++ [10])))))) =
        some (pathPrefix, kind, target, [port, uid, auth]) := by
  have hspace : ∀ t : Bytes, ∀ c ∈ (32 :: t).head?, isDigit c = false := fun t c hc => by
    obtain rfl : 32 = c := Option.some.inj hc
    decide
  have hend : ∀ c ∈ ([10] : Bytes).head?, isDigit c = false := fun c hc => by
    obtain rfl : 10 = c := Option.some.inj hc
    decide
  rw [scanTyped, scanWord_append hpre.1 hpre.2.2 hpre.2.1]
  simp only [Option.bind_eq_bind, Option.bind_some, scanWord_space,
    scanWord_append hkind.1 hkind.2.2 hkind.2.1,
    scanWord_append htarget.1 htarget.2.2 htarget.2.1, Option.pure_def]
  simp only [scanDecimals, scanDecimal_space, scanDecimal_decimal hport (hspace _),
    scanDecimal_decimal huid (hspace _), scanDecimal_decimal hauth hend]

theorem scanTyped_line (hs : wr.Stored) (hp : wr.Printable) :
    scanTyped (wr.line ++ [10]) = some (wr.pathPrefix, wr.type.word, wr.upstream,
      [wr.port, toInt wr.ownerUid, wr.authRequired]) := by
  have hline : wr.line ++ [10] = wr.pathPrefix ++ 32 :: (wr.type.word ++ 32 :: (wr.upstream ++
      32 :: (decimal wr.port ++ 32 :: (decimal (toInt wr.ownerUid) ++
        32 :: (decimal wr.authRequired ++ [10]))))) := fields_newline _ _ _ _ _ _
  have hword : wr.type.word ≠ [] ∧ wr.type.word.length ≤ 31 := by
    cases wr.type <;> decide
  have hpre := hs.prefix_lt
  have hup := hs.upstream_lt
  rw [hline]
  exact scanTyped_fields ⟨hs.prefix_ne_nil, by omega, hp.word_prefix⟩
    ⟨hword.1, hword.2, isSpace_of_mem_word _⟩ ⟨hs.upstream_ne_nil, by omega, hp.word_upstream⟩
    hs.port (isInt_toInt _) hs.authRequired

theorem mem_line {x : Byte} (hx : x ≠ 32) (hdigit : isDigit x = false) (hsign : x ≠ 45)
    (h : x ∈ wr.line) : x ∈ wr.pathPrefix ∨ x ∈ wr.type.word ∨ x ∈ wr.upstream := by
  have hdec : ∀ n : ℤ, x ∉ decimal n := fun n h => by
    have hnat : ∀ m, x ∉ decimalNat m := fun m h => by
      simp [isDigit_of_mem_decimalNat x h] at hdigit
    cases n with
    | ofNat m => exact hnat m h
    | negSucc m =>
      rcases List.mem_cons.mp h with h | h
      · exact hsign h
      · exact hnat _ h
  rcases mem_fields hx h with h | h | h | h | h | h
  · exact Or.inl h
  · exact Or.inr (Or.inl h)
  · exact Or.inr (Or.inr h)
  all_goals exact absurd h (hdec _)

theorem zero_notMem_line (hs : wr.Stored) : (0 : Byte) ∉ wr.line ++ [10] := by
  intro h
  rcases List.mem_append.mp h with h | h
  · rcases mem_line (by decide) (by decide) (by decide) h with h | h | h
    · exact hs.zero_prefix h
    · revert h
      cases wr.type <;> decide
    · rw [WebRoute.upstream] at h
      split at h
      · exact hs.zero_host h
      · exact hs.zero_target h
  · exact absurd h (by decide)

theorem isSkipped_line (hs : wr.Stored) (hp : wr.Printable) :
    isSkipped (wr.line ++ [10]) = false := by
  obtain ⟨c, rest, hcs⟩ := List.exists_cons_of_ne_nil hs.prefix_ne_nil
  have hspace := hp.word_prefix c (by simp [hcs])
  have hcomment := hp.not_comment
  have h10 : c ≠ 10 := by
    rintro rfl
    exact absurd hspace (by decide)
  have h13 : c ≠ 13 := by
    rintro rfl
    exact absurd hspace (by decide)
  have hhead : (wr.line ++ [10]).head? = some c := by
    rw [WebRoute.line, hcs]
    rfl
  rw [hcs] at hcomment
  simp only [List.head?_cons, ne_eq, Option.some.injEq] at hcomment
  simp [isSkipped, hhead, h10, h13, hcomment]

/-- **A line is read back into its own slot** as the route it was written for. -/
theorem lineRoute_line (hs : wr.Stored) (hp : wr.Printable) :
    lineRoute wr (cstr (wr.line ++ [10])) = some wr := by
  have hpre := hs.prefix_lt
  have huid := toUid_toInt hs.ownerUid
  have htarget := hs.target_lt
  have hhost := hs.host_lt
  rw [cstr_of_notMem (zero_notMem_line hs), lineRoute, isSkipped_line hs hp]
  simp only [Bool.false_eq_true, if_false, typedRoute, scanTyped_line hs hp, Option.bind_eq_bind,
    Option.bind_some, List.head?_cons, Option.getD_some, huid, fit_of_lt hpre]
  cases htype : wr.type with
  | tcp =>
    have heq := hp.host_eq htype
    have hup : wr.upstream = wr.host := by rw [WebRoute.upstream, htype]
    rw [hup, WebRouteType.word, if_pos rfl, fit_of_lt hhost, fit_of_lt (by omega)]
    cases wr
    simp_all
  | uds =>
    have hup : wr.upstream = wr.target := by rw [WebRoute.upstream, htype]
    rw [hup, WebRouteType.word, if_neg (by decide), if_pos rfl, fit_of_lt htarget]
    cases wr
    simp_all

end RoundTrip

/-! ### The file there and back -/

theorem loadLine_of_route {t : WebRoutes} {old wr : WebRoute} {spare : List WebRoute}
    {line : Bytes} (ht : t.spare = old :: spare) (hr : lineRoute old (cstr line) = some wr) :
    (loadLine t line).routes = t.routes ++ [wr] ∧ (loadLine t line).spare = spare := by
  unfold loadLine
  split
  · next h => simp [h] at ht
  · next o sp h =>
    obtain ⟨rfl, rfl⟩ := List.cons.inj (h.symm.trans ht)
    simp only [hr, and_self]

theorem loadLine_of_skipped {line : Bytes} (h : isSkipped (cstr line) = true) (t : WebRoutes) :
    loadLine t line = t := by
  unfold loadLine
  split
  · rfl
  · simp [lineRoute, h]

theorem foldl_loadLine {rs : List WebRoute} (hstored : ∀ wr ∈ rs, wr.Stored)
    (hprint : ∀ wr ∈ rs, wr.Printable) {t : WebRoutes} {spare : List WebRoute}
    (ht : t.spare = rs ++ spare) :
    (((rs.map WebRoute.line).map fun line => line ++ [10]).foldl loadLine t).routes
        = t.routes ++ rs ∧
      (((rs.map WebRoute.line).map fun line => line ++ [10]).foldl loadLine t).spare = spare := by
  induction rs generalizing t with
  | nil => simpa using ht
  | cons wr rs ih =>
    have hr := lineRoute_line (hstored wr List.mem_cons_self) (hprint wr List.mem_cons_self)
    obtain ⟨h1, h2⟩ := loadLine_of_route ht hr
    obtain ⟨h3, h4⟩ := ih (fun w hw => hstored w (List.mem_cons_of_mem _ hw))
      (fun w hw => hprint w (List.mem_cons_of_mem _ hw)) h2
    simp only [List.map_cons, List.foldl_cons]
    rw [h3, h1]
    exact ⟨by simp, h4⟩

theorem newline_notMem_line {wr : WebRoute} (hp : wr.Printable) : (10 : Byte) ∉ wr.line := by
  have hblank : ∀ w : Bytes, (∀ c ∈ w, isSpace c = false) → (10 : Byte) ∉ w := fun w hw h =>
    absurd (hw 10 h) (by decide)
  intro h
  rcases mem_line (by decide) (by decide) (by decide) h with h | h | h
  · exact hblank _ hp.word_prefix h
  · exact hblank _ (isSpace_of_mem_word wr.type) h
  · exact hblank _ hp.word_upstream h

theorem confHeader_skipped : ∀ line ∈ confHeader, (10 : Byte) ∉ line ∧ line.length + 1 < 512 ∧
    isSkipped (cstr (line ++ [10])) = true := by
  rw [confHeader, lit_ofList, lit_ofList, lit_ofList, lit_ofList]
  decide

theorem loadWebRoutes_flush {routes : List WebRoute} (t : WebRoutes)
    (h : ∀ wr ∈ routes, (10 : Byte) ∉ wr.line ∧ wr.line.length + 1 < 512) :
    loadWebRoutes (some (flushWebRoutes routes)) t =
      (((routes.map WebRoute.line).map fun line => line ++ [10]).foldl loadLine t.unused).sort := by
  have hlines : fgetsLines 512 (flushWebRoutes routes)
      = (confHeader ++ routes.map WebRoute.line).map fun line => line ++ [10] := by
    refine fgetsLines_flatten fun line hline => ?_
    rcases List.mem_append.mp hline with hmem | hmem
    · exact ⟨(confHeader_skipped line hmem).1, (confHeader_skipped line hmem).2.1⟩
    · obtain ⟨wr, hwr, rfl⟩ := List.mem_map.mp hmem
      exact h wr hwr
  have hheader :
      (confHeader.map fun line => line ++ [10]).foldl loadLine t.unused = t.unused := by
    refine List.foldlRecOn _ loadLine (motive := fun u => u = t.unused) rfl fun u hu line hline => ?_
    obtain ⟨l, hl, rfl⟩ := List.mem_map.mp hline
    rw [loadLine_of_skipped (confHeader_skipped l hl).2.2, hu]
  simp only [loadWebRoutes, hlines, List.map_append, List.foldl_append, hheader]

/-- **A flushed table is loaded back exactly**, slots and order included, if its
routes survive the format. -/
theorem loadWebRoutes_flushWebRoutes {t : WebRoutes} (hsort : IsSorted t.routes)
    (hstored : ∀ wr ∈ t.routes, wr.Stored) (hprint : ∀ wr ∈ t.routes, wr.Printable) :
    loadWebRoutes (some (flushWebRoutes t.routes)) t = t := by
  rw [loadWebRoutes_flush t fun wr hwr =>
    ⟨newline_notMem_line (hprint wr hwr), (hprint wr hwr).line_lt⟩]
  have hslots : t.unused.spare = t.routes ++ t.spare := rfl
  obtain ⟨h1, h2⟩ := foldl_loadLine hstored hprint hslots
  refine WebRoutes.ext ?_ h2
  simp only [WebRoutes.sort, h1]
  exact exchangeSort_of_pairwise WebRoute.prefixLength hsort

end OpenCms.Gateway
