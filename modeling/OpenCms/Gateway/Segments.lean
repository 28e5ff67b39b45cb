import OpenCms.Gateway.OAuth

/-!
# A request in segments

The bytes of a client are collected until they contain a blank line, and what has arrived by
then is the request (`OpenCms.Gateway.receive`). The bytes that are still under way belong to
its body, and nothing waits for them.

`OpenCms.Gateway.outcome` is what the gateway makes of a list of segments, and
`OpenCms.Gateway.SegmentationBlind` says of a request that every way to cut it into segments
has the outcome of the request in one piece. That is so exactly when nothing in the body is
read: no beginning of it carries what its endpoint looks for, or changes what its endpoint reads
of the lines about the proxy before it, and no cookie line with a value begins in it that the
search would take for the head's (`OpenCms.Gateway.segmentation_blind_iff`).
-/

namespace OpenCms.Gateway

/-! ### Collecting a request -/

/-- How far the request of a client has come. -/
inductive Arrival
  /-- No blank line yet. -/
  | waiting (buf : Bytes)
  /-- The bytes that are dispatched. -/
  | complete (buf : Bytes)
  /-- The buffer is full, and there is no blank line. -/
  | tooLarge
  deriving DecidableEq

/-- The case `ECTX_PENDING` of the main loop: `recv` returns no more of a segment than there
is room for. -/
def receive (arrival : Arrival) (segment : Bytes) : Arrival :=
  match arrival with
  | .waiting buf =>
    let buf := buf ++ segment.take (pendingBufSize - 1 - buf.length)
    if (strstr (cstr buf) blankLine).isSome then .complete buf
    else if pendingBufSize - 1 ≤ buf.length then .tooLarge
    else .waiting buf
  | arrival => arrival

def arrive (segments : List Bytes) : Arrival := segments.foldl receive (.waiting [])

def tooLargeReply : HttpReply :=
  ⟨400, lit "Bad Request", textType, [], lit "Request too large", 17⟩

/-- An action without the bytes that it passes on, which go on arriving. -/
def Action.shape : Action → Action
  | .proxy wr upstream => .proxy wr (upstream.map fun _ => [])
  | action => action

/-- What an action goes on to take from the request. -/
inductive Taken
  | nothing
  /-- If the cookie of a login is for secure connections only. -/
  | secure (isSecure : Bool)
  /-- The redirect to Google, with the address it is to send the browser back to. -/
  | redirect (answer : Except HttpReply (OAuthState × HttpReply))
  deriving DecidableEq

def Action.taken (env : Env) (g : Google) (t : OAuthTable) (req : HttpRequest) (raw : Bytes) :
    Action → Taken
  | .jsonLogin _ _ | .formLogin _ _ | .renew _ => .secure req.isSecure
  | .googleCallback code state =>
    match (Gateway.googleCallback env g t code state).2 with
    | .ok _ => .secure req.isSecure
    | .error _ => .nothing
  | .googleLogin email =>
    match Gateway.googleLogin env g email with
    | .ok _ => .secure req.isSecure
    | .error _ => .nothing
  | .googleRedirect => .redirect (Gateway.googleRedirect env g t req.isSecure raw).2
  | .reply _ | .proxy _ _ | .daemon _ _ => .nothing

/-- What the gateway makes of the segments that have arrived. -/
inductive Outcome
  | waiting
  | dropped
  | routed (method path cookie : Bytes) (action : Action) (taken : Taken)
  deriving DecidableEq

def outcome (env : Env) (g : Google) (t : OAuthTable) (routes : List WebRoute)
    (segments : List Bytes) : Outcome :=
  match arrive segments with
  | .waiting _ => .waiting
  | .tooLarge => .routed [] [] [] (.reply tooLargeReply) .nothing
  | .complete buf =>
    match routeCompleteRequest env routes buf with
    | none => .dropped
    | some (req, action) =>
      .routed req.method req.path req.cookie action.shape (action.taken env g t req buf)

/-- **The answer does not depend on the segments**: however the bytes are cut, the gateway
takes the action it takes on the whole. -/
def SegmentationBlind (env : Env) (g : Google) (t : OAuthTable) (routes : List WebRoute)
    (bytes : Bytes) : Prop :=
  ∀ segments : List Bytes, segments.flatten = bytes → [] ∉ segments →
    outcome env g t routes segments = outcome env g t routes [bytes]

/-! ### The bytes that are dispatched -/

section Arrival

variable (h : RequestHead) {b body : Bytes}

theorem RequestHead.zero_notMem_bytes : (0 : Byte) ∉ h.bytes := by
  obtain ⟨hm, ht, hr⟩ : (0 : Byte) ∉ h.method ∧ (0 : Byte) ∉ h.target ∧ (0 : Byte) ∉ h.rest := by
    simpa [not_or] using h.no_zero
  have hblank : (0 : Byte) ∉ blankLine := by decide
  simp [RequestHead.bytes, hm, ht, hr, hblank]

theorem RequestHead.cstr_append (b : Bytes) : cstr (h.bytes ++ b) = h.bytes ++ cstr b :=
  OpenCms.cstr_append h.zero_notMem_bytes b

theorem RequestHead.isPrefix_of_cstr {buf : Bytes} (hbuf : buf <+: h.bytes ++ body)
    (hblank : blankLine <:+: cstr buf) : h.bytes <+: buf :=
  h.isPrefix_of_blankLine hbuf (hblank.trans (cstr_isPrefix buf).isInfix)

theorem foldl_receive_complete (buf : Bytes) (rest : List Bytes) :
    rest.foldl receive (.complete buf) = .complete buf := by
  induction rest with
  | nil => rfl
  | cons _ rest ih => exact ih

theorem foldl_receive_tooLarge (rest : List Bytes) : rest.foldl receive .tooLarge = .tooLarge := by
  induction rest with
  | nil => rfl
  | cons _ rest ih => exact ih

/-- **A request is dispatched once its head is there**, with whatever has arrived behind it. -/
theorem arrive_cases (segments : List Bytes) (hsegments : segments.flatten = h.bytes ++ body) :
    (∃ b, b <+: body ∧ arrive segments = .complete (h.bytes ++ b) ∧
      (h.bytes ++ b).length < pendingBufSize) ∨
    arrive segments = .tooLarge ∧ pendingBufSize ≤ (h.bytes ++ body).length := by
  -- the induction is on the segments that are left, with what has arrived in the buffer
  have hgo : ∀ (rest : List Bytes) (buf : Bytes), buf ++ rest.flatten = h.bytes ++ body →
      ¬blankLine <:+: cstr buf → buf.length < pendingBufSize - 1 →
      (∃ b, b <+: body ∧ rest.foldl receive (.waiting buf) = .complete (h.bytes ++ b) ∧
        (h.bytes ++ b).length < pendingBufSize) ∨
      rest.foldl receive (.waiting buf) = .tooLarge ∧
        pendingBufSize ≤ (h.bytes ++ body).length := by
    intro rest
    induction rest with
    | nil =>
      intro buf hbuf hnot _
      rw [List.flatten_nil, List.append_nil] at hbuf
      rw [hbuf, h.cstr_append, ← strstr_isSome_iff, h.strstr_blankLine] at hnot
      exact absurd rfl hnot
    | cons segment rest ih =>
      intro buf hbuf hnot hroom
      rw [List.foldl_cons, receive]
      generalize hnew : buf ++ segment.take (pendingBufSize - 1 - buf.length) = new
      have hpre : new <+: h.bytes ++ body := by
        rw [← hbuf, ← hnew, List.prefix_append_right_inj, List.flatten_cons]
        exact (List.take_prefix _ _).trans (List.prefix_append _ _)
      have hlen : new.length ≤ pendingBufSize - 1 := by
        rw [← hnew, List.length_append, List.length_take]
        omega
      by_cases hblank : blankLine <:+: cstr new
      · rw [if_pos (strstr_isSome_iff.mpr hblank), foldl_receive_complete]
        obtain ⟨b, rfl⟩ := h.isPrefix_of_cstr hpre hblank
        refine Or.inl ⟨b, (List.prefix_append_right_inj _).mp hpre, rfl, ?_⟩
        omega
      · rw [if_neg (mt strstr_isSome_iff.mp hblank)]
        by_cases hfull : pendingBufSize - 1 ≤ new.length
        · rw [if_pos hfull, foldl_receive_tooLarge]
          refine Or.inr ⟨rfl, ?_⟩
          by_contra hshort
          have heq : new = h.bytes ++ body := hpre.eq_of_length (by
            have hle := hpre.length_le
            omega)
          rw [heq, h.cstr_append, ← strstr_isSome_iff, h.strstr_blankLine] at hblank
          exact hblank rfl
        · rw [if_neg hfull]
          refine ih new ?_ hblank (by omega)
          -- the whole segment was taken, or the buffer would be full
          have htake : segment.take (pendingBufSize - 1 - buf.length) = segment := by
            rw [← hnew, List.length_append, List.length_take] at hfull
            exact List.take_of_length_le (by omega)
          rw [← hnew, htake, ← hbuf, List.flatten_cons, List.append_assoc]
  exact hgo segments [] (by simpa using hsegments) (by decide) (by decide)

theorem arrive_eq (hfits : (h.bytes ++ body).length < pendingBufSize) (segments : List Bytes)
    (hsegments : segments.flatten = h.bytes ++ body) :
    ∃ b, b <+: body ∧ arrive segments = .complete (h.bytes ++ b) := by
  rcases arrive_cases h segments hsegments with ⟨b, hb, harrive, -⟩ | ⟨-, hlong⟩
  · exact ⟨b, hb, harrive⟩
  · omega

theorem arrive_cut (hfits : (h.bytes ++ b).length < pendingBufSize) (rest : List Bytes) :
    arrive ((h.bytes ++ b) :: rest) = .complete (h.bytes ++ b) := by
  have htake : (h.bytes ++ b).take (pendingBufSize - 1) = h.bytes ++ b :=
    List.take_of_length_le (by omega)
  have hone : receive (.waiting []) (h.bytes ++ b) = .complete (h.bytes ++ b) := by
    simp only [receive, List.nil_append, List.length_nil, Nat.sub_zero, htake, h.cstr_append,
      h.strstr_blankLine, Option.isSome_some, if_true]
  rw [arrive, List.foldl_cons, hone, foldl_receive_complete]

end Arrival

/-! ### What is read of a head and the bytes behind it -/

section Read

variable (env : Env) (g : Google) (t : OAuthTable) (routes : List WebRoute) (h : RequestHead)

def RequestHead.request (b : Bytes) : HttpRequest where
  method := h.line.1
  path := h.line.2
  cookie := cookieField (h.bytes ++ cstr b)
  body := fit 4096 b
  isSecure := env.forceSecure || forwardedSecure (h.bytes ++ cstr b)

theorem parseRequest_append (b : Bytes) :
    parseRequest env.forceSecure (h.bytes ++ b) = some (h.request env b) := by
  have hbody : bodyField (h.bytes ++ b) = fit 4096 b := by
    have hlen : (h.bytes ++ cstr b).length - (blankLine ++ cstr b).length + 4 =
        h.bytes.length := by
      simp only [RequestHead.bytes, List.length_append, List.length_cons]
      have hblank : blankLine.length = 4 := rfl
      omega
    rw [bodyField, h.cstr_append, h.strstr_blankLine]
    simp only [hlen, List.drop_left]
  rw [parseRequest, h.cstr_append, h.requestLine_append, hbody]
  rfl

theorem outcome_of_arrive {b : Bytes} {segments : List Bytes} (hzero : (0 : Byte) ∉ b)
    (harrive : arrive segments = .complete (h.bytes ++ b)) :
    outcome env g t routes segments =
      .routed h.line.1 h.line.2 (cookieField (h.bytes ++ b))
        ((endpoint routes (h.request env b)).action env (h.request env b) (h.bytes ++ b)).shape
        (((endpoint routes (h.request env b)).action env (h.request env b) (h.bytes ++ b)).taken
          env g t (h.request env b) (h.bytes ++ b)) := by
  have hcookie : (h.request env b).cookie = cookieField (h.bytes ++ b) := by
    rw [RequestHead.request, cstr_of_notMem hzero]
  rw [outcome, harrive]
  simp only [routeCompleteRequest, parseRequest_append env h, Option.map_some, hcookie]
  rfl

end Read

/-! ### The cookie line -/

section Cookie

variable (h : RequestHead) {b body : Bytes}

/-- A line whose first occurrence has only blanks behind it. -/
def BlankField (name s : Bytes) : Prop :=
  ∃ r, strstr s name = some (name ++ r) ∧ r.dropWhile (· == 32) = []

/-- **No cookie begins in the body**: the head has a line in the first spelling, or else a
line that begins in the body – in the second spelling only where the head has none – has no
value, and takes no value away. -/
def CookieInHead (h : RequestHead) (body : Bytes) : Prop :=
  cookieName <:+: h.bytes ∨
    ((cookieName <:+: crlf ++ body →
        cookieField h.bytes = [] ∧ BlankField cookieName (crlf ++ body)) ∧
      (cookieName' <:+: h.bytes ∨
        (cookieName' <:+: crlf ++ body → BlankField cookieName' (crlf ++ body))))

theorem lineValue_blank {name r : Bytes} (hr : r.dropWhile (· == 32) = []) :
    lineValue name.length (name ++ r) = [] := by
  rw [lineValue, List.drop_left, hr]
  rfl

theorem lineValue_single {name r : Bytes} {c : Byte} (hr : ∀ x ∈ r, x = 32) (hc : c ≠ 32) :
    lineValue name.length (name ++ (r ++ [c])) = [c] := by
  have hskip : (r ++ [c]).dropWhile (· == 32) = [c] := by
    rw [List.dropWhile_append_of_pos (by simpa using hr)]
    simp [hc]
  have hnot : strstr [c] crlf = none := by
    rw [strstr_eq_none_iff]
    intro hin
    have hlen : 2 ≤ 1 := hin.length_le
    exact absurd hlen (by decide)
  rw [lineValue, List.drop_left, hskip, before, hnot]

theorem BlankField.of_isPrefix {name s u t : Bytes} (hs : BlankField name s) (hu : u <+: s)
    (ht : strstr u name = some t) : ∃ r, t = name ++ r ∧ ∀ x ∈ r, x = 32 := by
  obtain ⟨q, rfl⟩ := hu
  obtain ⟨r, hr, hblank⟩ := hs
  obtain ⟨-, r', -, rfl⟩ := strstr_eq_some ht
  have heq : r' ++ q = r := by
    have happ := (strstr_append ht q).symm.trans hr
    simpa using happ
  refine ⟨r', rfl, fun x hx => ?_⟩
  have hall := List.dropWhile_eq_nil_iff.mp hblank x (heq ▸ List.mem_append_left _ hx)
  simpa using hall

theorem dropWhile_eq_nil_of_blank {r : Bytes} (hr : ∀ x ∈ r, x = 32) :
    r.dropWhile (· == 32) = [] := by
  rw [List.dropWhile_eq_nil_iff]
  intro x hx
  simp [hr x hx]

theorem exists_cut {name s : Bytes} (hin : name <:+: s) (hnot : ¬BlankField name s) :
    ∃ u r c, u <+: s ∧ strstr u name = some (name ++ (r ++ [c])) ∧ (∀ x ∈ r, x = 32) ∧ c ≠ 32 := by
  obtain ⟨t, ht⟩ := Option.isSome_iff_exists.mp (strstr_isSome_iff.mpr hin)
  obtain ⟨pre, v, rfl, rfl⟩ := strstr_eq_some ht
  have hne : v.dropWhile (· == 32) ≠ [] := fun hnil => hnot ⟨v, ht, hnil⟩
  obtain ⟨c, q, hcq⟩ := List.exists_cons_of_ne_nil hne
  have hv : v = v.takeWhile (· == 32) ++ c :: q := by rw [← hcq, List.takeWhile_append_dropWhile]
  have hblank : ∀ x ∈ v.takeWhile (· == 32), x = 32 := fun x hx => by
    simpa using List.mem_takeWhile_imp hx
  have hc : c ≠ 32 := by
    have hhead := List.head_dropWhile_not (· == 32) hne
    simpa [hcq] using hhead
  refine ⟨pre ++ (name ++ (v.takeWhile (· == 32) ++ [c])), _, c, ⟨q, ?_⟩, ?_, hblank, hc⟩
  · conv_rhs => rw [hv]
    simp
  · refine strstr_of_append (q := q) ?_ ⟨pre, v.takeWhile (· == 32) ++ [c], by simp⟩
    have hsplit : pre ++ (name ++ (v.takeWhile (· == 32) ++ [c])) ++ q = pre ++ (name ++ v) := by
      conv_rhs => rw [hv]
      simp
    rw [hsplit, ht]
    conv_lhs => rw [hv]
    simp

theorem cookieField_of_mem (hin : cookieName <:+: h.bytes) (b : Bytes) :
    cookieField (h.bytes ++ b) = cookieField h.bytes := by
  obtain ⟨t, ht⟩ := Option.isSome_iff_exists.mp (strstr_isSome_iff.mpr hin)
  have happ := strstr_append ht b
  have hvalue : lineValue 9 (t ++ b) = lineValue 9 t :=
    h.lineValue_append (g := lit "\r\nCookie") ht b
  simp only [cookieField, headerLine, ht, happ, Option.orElse_some, cookieOfLine, hvalue]

theorem cookieField_of_first {p : Bytes} (hnot : ¬cookieName <:+: h.bytes)
    (hp : strstr (crlf ++ b) cookieName = some p) :
    cookieField (h.bytes ++ b) = fit 1024 (lineValue 9 p) := by
  have hfirst : strstr (h.bytes ++ b) cookieName = strstr (crlf ++ b) cookieName :=
    h.strstr_of_notMem (g := lit "\nCookie:") (by decide) hnot b
  rw [hp] at hfirst
  simp only [cookieField, headerLine, hfirst, Option.orElse_some, cookieOfLine]

theorem cookieField_of_mem' (hnot : ¬cookieName <:+: h.bytes)
    (hp : strstr (crlf ++ b) cookieName = none) (hin : cookieName' <:+: h.bytes) :
    cookieField (h.bytes ++ b) = cookieField h.bytes := by
  have hfirst : strstr (h.bytes ++ b) cookieName = strstr (crlf ++ b) cookieName :=
    h.strstr_of_notMem (g := lit "\nCookie:") (by decide) hnot b
  rw [hp] at hfirst
  have hnone : strstr h.bytes cookieName = none := strstr_eq_none_iff.mpr hnot
  obtain ⟨t, ht⟩ := Option.isSome_iff_exists.mp (strstr_isSome_iff.mpr hin)
  have happ := strstr_append ht b
  have hvalue : lineValue 9 (t ++ b) = lineValue 9 t :=
    h.lineValue_append (g := lit "\r\ncookie") ht b
  simp only [cookieField, headerLine, hfirst, hnone, Option.orElse_none, ht, happ, cookieOfLine,
    hvalue]

theorem cookieField_of_second (hnot : ¬cookieName <:+: h.bytes)
    (hp : strstr (crlf ++ b) cookieName = none) (hnot' : ¬cookieName' <:+: h.bytes) :
    cookieField (h.bytes ++ b) = cookieOfLine (strstr (crlf ++ b) cookieName') := by
  have hfirst : strstr (h.bytes ++ b) cookieName = strstr (crlf ++ b) cookieName :=
    h.strstr_of_notMem (g := lit "\nCookie:") (by decide) hnot b
  have hsecond : strstr (h.bytes ++ b) cookieName' = strstr (crlf ++ b) cookieName' :=
    h.strstr_of_notMem (g := lit "\ncookie:") (by decide) hnot' b
  rw [hp] at hfirst
  simp only [cookieField, headerLine, hfirst, Option.orElse_none, hsecond]

theorem cookieField_eq_nil (hnot : ¬cookieName <:+: h.bytes) (hnot' : ¬cookieName' <:+: h.bytes) :
    cookieField h.bytes = [] := by
  have h1 : strstr h.bytes cookieName = none := strstr_eq_none_iff.mpr hnot
  have h2 : strstr h.bytes cookieName' = none := strstr_eq_none_iff.mpr hnot'
  simp only [cookieField, headerLine, h1, h2, Option.orElse_none, cookieOfLine]

theorem fit_lineValue_of_blank {name p : Bytes} (hname : name.length = 9)
    (hblank : BlankField name (crlf ++ body)) (hb : b <+: body)
    (hp : strstr (crlf ++ b) name = some p) : fit 1024 (lineValue 9 p) = [] := by
  have hpre : crlf ++ b <+: crlf ++ body := (List.prefix_append_right_inj crlf).mpr hb
  obtain ⟨r, rfl, hr⟩ := hblank.of_isPrefix hpre hp
  rw [← hname, lineValue_blank (dropWhile_eq_nil_of_blank hr)]
  rfl

/-- **If no cookie begins in the body, the cookie is the head's**, whatever has arrived. -/
theorem CookieInHead.cookieField_append (hcookie : CookieInHead h body) (hb : b <+: body) :
    cookieField (h.bytes ++ b) = cookieField h.bytes := by
  have hpre : crlf ++ b <+: crlf ++ body := (List.prefix_append_right_inj crlf).mpr hb
  have hmono : ∀ {name p : Bytes}, strstr (crlf ++ b) name = some p → name <:+: crlf ++ body :=
    fun hp => (strstr_isSome_iff.mp (Option.isSome_of_eq_some hp)).trans hpre.isInfix
  by_cases hin : cookieName <:+: h.bytes
  · exact cookieField_of_mem h hin b
  obtain ⟨hfirst, hsecond⟩ := hcookie.resolve_left hin
  cases hp : strstr (crlf ++ b) cookieName with
  | some p =>
    obtain ⟨hnil, hblank⟩ := hfirst (hmono hp)
    rw [cookieField_of_first h hin hp, hnil, fit_lineValue_of_blank rfl hblank hb hp]
  | none =>
    by_cases hin' : cookieName' <:+: h.bytes
    · exact cookieField_of_mem' h hin hp hin'
    · rw [cookieField_of_second h hin hp hin', cookieField_eq_nil h hin hin']
      cases hp' : strstr (crlf ++ b) cookieName' with
      | some p =>
        have hblank := hsecond.resolve_left hin' (hmono hp')
        exact fit_lineValue_of_blank rfl hblank hb hp'
      | none => rfl

theorem exists_cut_body {name : Bytes} (hname : name.length = 9)
    (hin : name <:+: crlf ++ body) (hnot : ¬BlankField name (crlf ++ body)) :
    ∃ b p r c, b <+: body ∧ strstr (crlf ++ b) name = some p ∧ fit 1024 (lineValue 9 p) = [c] ∧
      p = name ++ (r ++ [c]) ∧ c ≠ 32 ∧ ∀ x ∈ r, x = 32 := by
  obtain ⟨u, r, c, hu, hp, hr, hc⟩ := exists_cut hin hnot
  have hlen : crlf.length ≤ u.length := by
    obtain ⟨pre, v, hpre, -⟩ := strstr_eq_some hp
    rw [hpre]
    have hcrlf : crlf.length = 2 := rfl
    simp only [List.length_append]
    omega
  obtain ⟨b, rfl⟩ := List.prefix_of_prefix_length_le (List.prefix_append crlf body) hu hlen
  refine ⟨b, _, r, c, (List.prefix_append_right_inj crlf).mp hu, hp, ?_, rfl, hc, hr⟩
  rw [← hname, lineValue_single hr hc]
  rfl

theorem eq_blank_of_cookie_lines {pre pre' r r' : Bytes} {c : Byte} (hr : ∀ x ∈ r, x = 32)
    (hr' : ∀ x ∈ r', x = 32)
    (heq : pre ++ (cookieName' ++ (r ++ [c])) = pre' ++ (cookieName ++ r')) : c = 32 := by
  rcases List.eq_nil_or_concat r' with rfl | ⟨r'', x, rfl⟩
  · -- then the value would end with the colon of the other name, behind its last letter
    have hname : cookieName = lit "\r\nCookie" ++ [58] := rfl
    have hdrop := congrArg List.dropLast heq
    rw [List.append_nil, hname, ← List.append_assoc, ← List.append_assoc, ← List.append_assoc,
      List.dropLast_concat, List.dropLast_concat] at hdrop
    have hlast := congrArg List.getLast? hdrop
    rw [List.getLast?_append_of_ne_nil (pre') (by decide)] at hlast
    rcases List.eq_nil_or_concat r with rfl | ⟨r'', x, rfl⟩
    · rw [List.append_nil, List.getLast?_append_of_ne_nil pre (by decide)] at hlast
      exact absurd hlast (by decide)
    · obtain rfl : x = 32 := hr x (by simp)
      rw [List.concat_eq_append, ← List.append_assoc, List.getLast?_concat] at hlast
      exact absurd hlast (by decide)
  · obtain rfl : x = 32 := hr' x (by simp)
    have hlast := congrArg List.getLast? heq
    simpa using hlast

/-- **The cookie is the head's whatever has arrived only if no cookie begins in the body.** -/
theorem cookieInHead_of_forall
    (hall : ∀ b, b <+: body → cookieField (h.bytes ++ b) = cookieField h.bytes) :
    CookieInHead h body := by
  by_cases hin : cookieName <:+: h.bytes
  · exact Or.inl hin
  -- a line in the first spelling, cut right behind its name, gives an empty cookie
  have hempty : cookieName <:+: crlf ++ body → cookieField h.bytes = [] := by
    intro hmem
    obtain ⟨t, ht⟩ := Option.isSome_iff_exists.mp (strstr_isSome_iff.mpr hmem)
    obtain ⟨pre, v, hpre, rfl⟩ := strstr_eq_some ht
    have hu : pre ++ cookieName <+: crlf ++ body := ⟨v, by simp [hpre]⟩
    have hp : strstr (pre ++ cookieName) cookieName = some cookieName := by
      refine strstr_of_append (q := v) ?_ (List.suffix_append _ _).isInfix
      rw [List.append_assoc, ← hpre, ht]
    have hlen : crlf.length ≤ (pre ++ cookieName).length := by
      have hname : cookieName.length = 9 := rfl
      have hcrlf : crlf.length = 2 := rfl
      simp only [List.length_append]
      omega
    obtain ⟨b, hb⟩ := List.prefix_of_prefix_length_le (List.prefix_append crlf body) hu hlen
    rw [← hb] at hp hu
    rw [← hall b ((List.prefix_append_right_inj crlf).mp hu), cookieField_of_first h hin hp]
    rfl
  have hfirst : cookieName <:+: crlf ++ body → BlankField cookieName (crlf ++ body) := by
    intro hmem
    by_contra hnot
    obtain ⟨b, p, r, c, hb, hp, hvalue, -⟩ := exists_cut_body rfl hmem hnot
    have hb' := hall b hb
    rw [cookieField_of_first h hin hp, hvalue, hempty hmem] at hb'
    exact absurd hb' (by simp)
  refine Or.inr ⟨fun hmem => ⟨hempty hmem, hfirst hmem⟩, ?_⟩
  by_cases hin' : cookieName' <:+: h.bytes
  · exact Or.inl hin'
  refine Or.inr fun hmem => ?_
  by_contra hnot
  obtain ⟨b, p, r, c, hb, hp, hvalue, rfl, hc, hr⟩ := exists_cut_body rfl hmem hnot
  have hb' := hall b hb
  rw [cookieField_eq_nil h hin hin'] at hb'
  cases hp1 : strstr (crlf ++ b) cookieName with
  | none =>
    rw [cookieField_of_second h hin hp1 hin', hp, cookieOfLine, hvalue] at hb'
    exact absurd hb' (by simp)
  | some p1 =>
    -- both lines would end the same bytes, the one with a colon, the other not
    have hpre : crlf ++ b <+: crlf ++ body := (List.prefix_append_right_inj crlf).mpr hb
    have hmem1 : cookieName <:+: crlf ++ body :=
      (strstr_isSome_iff.mp (Option.isSome_of_eq_some hp1)).trans hpre.isInfix
    obtain ⟨r1, rfl, hr1⟩ := (hfirst hmem1).of_isPrefix hpre hp1
    obtain ⟨pre, -, hpre1, -⟩ := strstr_eq_some hp
    obtain ⟨pre1, -, hpre2, -⟩ := strstr_eq_some hp1
    exact hc (eq_blank_of_cookie_lines hr hr1 (hpre1.symm.trans hpre2))

end Cookie

/-! ### The body -/

section Body

variable (env : Env) (g : Google) (t : OAuthTable) (routes : List WebRoute) (h : RequestHead)
  {b body : Bytes}

/-- The address that Google is to send the browser back to, if there is a host. -/
def redirectAddress (isSecure : Bool) (raw : Bytes) : Option Bytes :=
  if requestHost raw = [] then none
  else some (fit 512 (requestProto isSecure raw ++ lit "://" ++ requestHost raw ++
    lit "/auth/google/callback"))

/-- Logins with Google are set up, and there is room for one more. -/
def Redirects (env : Env) (g : Google) (t : OAuthTable) : Prop :=
  (g.clientId.getD [] ≠ []) ∧ (oauthStateAlloc t env.now).isSome

/-- Behind the head, the connection counts as secure, or not, as it does without. -/
def SameSecure (env : Env) (h : RequestHead) (b : Bytes) : Prop :=
  (env.forceSecure || forwardedSecure (h.bytes ++ b)) =
    (env.forceSecure || forwardedSecure h.bytes)

/-- An endpoint finds in the body nothing of what it reads: the fields it looks for, or a line
about the proxy before it that changes what the head says. -/
def Endpoint.FindsNothing (env : Env) (g : Google) (t : OAuthTable) (h : RequestHead)
    (b : Bytes) : Endpoint → Prop
  | .jsonLogin => jsonCredentials (fit 4096 b) = none
  | .googleLogin => googleEmail (fit 4096 b) = none
  | .formLogin => formCredentials (fit 4096 b) = none
  | .renew => ∀ username, renewAction env (cookieField h.bytes) = .renew username →
      SameSecure env h b
  | .googleCallback => ∀ code state pw, callbackAction h.line.2 = .googleCallback code state →
      (Gateway.googleCallback env g t code state).2 = .ok pw → SameSecure env h b
  | .googleRedirect => Redirects env g t →
      redirectAddress (env.forceSecure || forwardedSecure (h.bytes ++ b))
          (cstr (h.bytes ++ b ++ g.stack)) =
        redirectAddress (env.forceSecure || forwardedSecure h.bytes)
          (cstr (h.bytes ++ g.stack))
  | _ => True

/-- **Nothing in the body is read**: no cookie line begins in it, and no beginning of it
carries what the endpoint of the request looks for. -/
structure BodyUnread (env : Env) (g : Google) (t : OAuthTable) (routes : List WebRoute)
    (h : RequestHead) (body : Bytes) : Prop where
  cookie : CookieInHead h body
  fields : ∀ b, b <+: body → (endpoint routes (h.request env [])).FindsNothing env g t h b

/-- **A redirect rests on its address**, if it is made. -/
theorem googleRedirect_eq_iff (isSecure isSecure' : Bool) (raw raw' : Bytes) :
    (googleRedirect env g t isSecure raw).2 = (googleRedirect env g t isSecure' raw').2 ↔
      (Redirects env g t → redirectAddress isSecure (cstr (raw ++ g.stack)) =
        redirectAddress isSecure' (cstr (raw' ++ g.stack))) := by
  unfold googleRedirect Redirects redirectAddress
  rcases hid : g.clientId with - | - | ⟨c, id⟩
  · simp
  · simp
  · cases halloc : oauthStateAlloc t env.now with
    | none => simp
    | some slot =>
      obtain ⟨i, t'⟩ := slot
      by_cases hhost : requestHost (cstr (raw ++ g.stack)) = [] <;>
        by_cases hhost' : requestHost (cstr (raw' ++ g.stack)) = [] <;>
        simp [hhost, hhost']
      exact fun haddress => by rw [haddress]

/-- Rewriting succeeds or fails whatever stands behind the head, if it all fits. -/
theorem upstream_shape (hfits : (h.bytes ++ b).length < pendingBufSize) (pathPrefix : Bytes)
    (uds : Bool) :
    (buildUpstreamRequest (h.bytes ++ b) pathPrefix uds pendingBufSize).map
        (fun _ => ([] : Bytes)) =
      if uds && !pathPrefix.isPrefixOf h.target then none else some [] := by
  cases uds with
  | false =>
    rw [buildUpstreamRequest_tcp hfits.le]
    rfl
  | true =>
    rw [h.buildUpstreamRequest_append, Bool.true_and]
    by_cases hpre : pathPrefix.isPrefixOf h.target
    · have hsuffix : (if h.target.drop pathPrefix.length = [] then ([47] : Bytes)
          else h.target.drop pathPrefix.length).length ≤ h.target.length := by
        have hpos := List.length_pos_iff.mpr h.target_ne_nil
        split
        · exact hpos
        · simp
      rw [h.bytes_append] at hfits
      simp only [List.length_append, List.length_cons] at hfits
      simp only [hpre, Bool.not_true, Bool.false_eq_true, if_false]
      rw [if_neg]
      · rfl
      · simp only [List.length_append, List.length_cons]
        omega
    · simp [hpre]

theorem renewAction_cases (env : Env) (cookie : Bytes) :
    (∃ r, renewAction env cookie = .reply r) ∨ ∃ u, renewAction env cookie = .renew u := by
  rw [renewAction]
  split
  · dsimp only
    split_ifs
    · exact Or.inr ⟨_, rfl⟩
    · exact Or.inl ⟨_, rfl⟩
  · exact Or.inl ⟨_, rfl⟩

theorem callbackAction_cases (path : Bytes) :
    (∃ r, callbackAction path = .reply r) ∨
      ∃ code state, callbackAction path = .googleCallback code state := by
  simp only [callbackAction]
  split_ifs
  · exact Or.inl ⟨_, rfl⟩
  · exact Or.inl ⟨_, rfl⟩
  · exact Or.inr ⟨_, _, rfl⟩

theorem taken_webRouteAction (wr : WebRoute) (req req' : HttpRequest) (raw raw' : Bytes) :
    (webRouteAction env wr req raw).taken env g t req' raw' = .nothing := by
  rw [webRouteAction]
  split_ifs <;> rfl

theorem shape_webRouteAction (wr : WebRoute) (hfits : (h.bytes ++ b).length < pendingBufSize)
    (hcookie : (h.request env b).cookie = (h.request env []).cookie) :
    (webRouteAction env wr (h.request env b) (h.bytes ++ b)).shape =
      (webRouteAction env wr (h.request env []) h.bytes).shape := by
  have hnilFits : (h.bytes ++ []).length < pendingBufSize := by
    simp only [List.length_append, List.length_nil] at hfits ⊢
    omega
  have hadmits : admits env wr (h.request env b) = admits env wr (h.request env []) := by
    simp only [admits, hcookie]
    rfl
  have hpath : (h.request env b).path = (h.request env []).path := rfl
  have hshape := (upstream_shape h hfits wr.pathPrefix (wr.type == .uds)).trans
    (upstream_shape h hnilFits wr.pathPrefix (wr.type == .uds)).symm
  rw [List.append_nil] at hshape
  simp only [webRouteAction, hadmits, hpath]
  split
  · rfl
  · split
    · simp only [Action.shape, hshape]
    · rfl

/-- Only a callback that succeeds sets a cookie. -/
theorem taken_callbackAction_iff (path raw raw' : Bytes) (req req' : HttpRequest) :
    (callbackAction path).taken env g t req raw = (callbackAction path).taken env g t req' raw' ↔
      ∀ code state pw, callbackAction path = .googleCallback code state →
        (Gateway.googleCallback env g t code state).2 = .ok pw → req.isSecure = req'.isSecure := by
  rcases callbackAction_cases path with ⟨r, hr⟩ | ⟨code, state, hcode⟩
  · simp [hr, Action.taken]
  · simp only [hcode, Action.taken, Action.googleCallback.injEq]
    cases hlogin : (Gateway.googleCallback env g t code state).2 with
    | error r =>
      refine iff_of_true rfl ?_
      rintro _ _ pw ⟨rfl, rfl⟩ hok
      rw [hlogin] at hok
      cases hok
    | ok pw =>
      rw [Taken.secure.injEq]
      exact ⟨fun h _ _ _ _ _ => h, fun h => h code state pw ⟨rfl, rfl⟩ hlogin⟩

/-- **With the same cookie, an endpoint does the same exactly if it finds nothing in what has
arrived of the body.** -/
theorem Endpoint.action_iff (ep : Endpoint) (hzero : (0 : Byte) ∉ b)
    (hfits : (h.bytes ++ b).length < pendingBufSize)
    (hcookie : cookieField (h.bytes ++ b) = cookieField h.bytes) :
    ((ep.action env (h.request env b) (h.bytes ++ b)).shape =
        (ep.action env (h.request env []) h.bytes).shape ∧
      (ep.action env (h.request env b) (h.bytes ++ b)).taken env g t (h.request env b)
          (h.bytes ++ b) =
        (ep.action env (h.request env []) h.bytes).taken env g t (h.request env [])
          h.bytes) ↔
      ep.FindsNothing env g t h b := by
  have hnil : cstr [] = [] := rfl
  have hcookie0 : (h.request env []).cookie = cookieField h.bytes := by
    simp only [RequestHead.request, hnil, List.append_nil]
  have hcookieb : (h.request env b).cookie = cookieField h.bytes := by
    simp only [RequestHead.request, cstr_of_notMem hzero, hcookie]
  have hsecure0 : (h.request env []).isSecure = (env.forceSecure || forwardedSecure h.bytes) := by
    simp only [RequestHead.request, hnil, List.append_nil]
  have hsecureb : (h.request env b).isSecure =
      (env.forceSecure || forwardedSecure (h.bytes ++ b)) := by
    simp only [RequestHead.request, cstr_of_notMem hzero]
  have hbody : (h.request env b).body = fit 4096 b := rfl
  cases ep with
  | jsonLogin =>
    have hnone : jsonCredentials (h.request env []).body = none := by
      have : jsonCredentials (fit 4096 []) = none := by decide
      exact this
    simp only [Endpoint.action, Endpoint.FindsNothing, hnone, hbody]
    cases jsonCredentials (fit 4096 b) <;> simp [Action.shape, Action.taken]
  | googleLogin =>
    have hnone : googleEmail (h.request env []).body = none := by
      have : googleEmail (fit 4096 []) = none := by decide
      exact this
    simp only [Endpoint.action, Endpoint.FindsNothing, hnone, hbody]
    cases googleEmail (fit 4096 b) <;> simp [Action.shape, Action.taken]
  | formLogin =>
    have hnone : formCredentials (h.request env []).body = none := by
      have : formCredentials (fit 4096 []) = none := by decide
      exact this
    simp only [Endpoint.action, Endpoint.FindsNothing, hnone, hbody]
    cases formCredentials (fit 4096 b) <;> simp [Action.shape, Action.taken]
  | webRoute wr =>
    exact iff_of_true ⟨shape_webRouteAction env h wr hfits (hcookieb.trans hcookie0.symm),
      (taken_webRouteAction env g t wr _ _ _ _).trans
        (taken_webRouteAction env g t wr _ _ _ _).symm⟩ trivial
  | renew =>
    simp only [Endpoint.action, Endpoint.FindsNothing, hcookieb, hcookie0, SameSecure]
    rcases renewAction_cases env (cookieField h.bytes) with ⟨r, hr⟩ | ⟨u, hu⟩
    · simp [hr, Action.taken]
    · simp [hu, Action.taken, hsecureb, hsecure0]
  | googleCallback =>
    have hpath : ∀ b, (h.request env b).path = h.line.2 := fun _ => rfl
    simp only [Endpoint.action, Endpoint.FindsNothing, hpath, SameSecure, true_and,
      taken_callbackAction_iff, hsecureb, hsecure0]
  | googleRedirect =>
    simp only [Endpoint.action, Endpoint.FindsNothing, Action.taken, true_and,
      Taken.redirect.injEq, googleRedirect_eq_iff, hsecureb, hsecure0]
  | daemon =>
    simp only [Endpoint.action, Endpoint.FindsNothing, hcookieb, hcookie0, iff_true, true_and]
    cases cookieUser env (cookieField h.bytes) <;> rfl
  | session | logout | health | api | page => exact iff_of_true ⟨rfl, rfl⟩ trivial

theorem routed_iff (hzero : (0 : Byte) ∉ b) (hfits : (h.bytes ++ b).length < pendingBufSize) :
    Outcome.routed h.line.1 h.line.2 (cookieField (h.bytes ++ b))
        ((endpoint routes (h.request env b)).action env (h.request env b) (h.bytes ++ b)).shape
        (((endpoint routes (h.request env b)).action env (h.request env b) (h.bytes ++ b)).taken
          env g t (h.request env b) (h.bytes ++ b)) =
      .routed h.line.1 h.line.2 (cookieField (h.bytes ++ []))
        ((endpoint routes (h.request env [])).action env (h.request env []) (h.bytes ++ [])).shape
        (((endpoint routes (h.request env [])).action env (h.request env []) (h.bytes ++ [])).taken
          env g t (h.request env []) (h.bytes ++ [])) ↔
      cookieField (h.bytes ++ b) = cookieField h.bytes ∧
        (endpoint routes (h.request env [])).FindsNothing env g t h b := by
  rw [Outcome.routed.injEq]
  simp only [true_and, List.append_nil h.bytes]
  refine and_congr_right fun hcookie => ?_
  have hep : endpoint routes (h.request env b) = endpoint routes (h.request env []) :=
    endpoint_congr rfl rfl (by
      have hnil : cstr [] = [] := rfl
      simp only [RequestHead.request, cstr_of_notMem hzero, hcookie, hnil, List.append_nil])
  rw [hep]
  exact Endpoint.action_iff env g t h (endpoint routes (h.request env [])) hzero hfits hcookie

end Body

/-- **The gateway's answer does not depend on the segments exactly when nothing in the body is
read.** -/
theorem segmentation_blind_iff (env : Env) (g : Google) (t : OAuthTable) (routes : List WebRoute)
    (h : RequestHead) (body : Bytes) (hzero : (0 : Byte) ∉ body)
    (hfits : (h.bytes ++ body).length < pendingBufSize) :
    SegmentationBlind env g t routes (h.bytes ++ body) ↔ BodyUnread env g t routes h body := by
  have hzeros : ∀ {b}, b <+: body → (0 : Byte) ∉ b := fun hb h0 => hzero (hb.subset h0)
  have hfit : ∀ {b}, b <+: body → (h.bytes ++ b).length < pendingBufSize := by
    intro b hb
    have hlen := hb.length_le
    simp only [List.length_append] at hfits ⊢
    omega
  -- what has arrived with the head decides
  have hcut : ∀ {b}, b <+: body → ∀ rest, outcome env g t routes ((h.bytes ++ b) :: rest) = _ :=
    fun hb rest => outcome_of_arrive env g t routes h (hzeros hb) (arrive_cut h (hfit hb) rest)
  constructor
  · intro hblind
    have hwhole : ∀ b, b <+: body → outcome env g t routes [h.bytes ++ b, body.drop b.length] =
        outcome env g t routes [h.bytes ++ body] := by
      intro b hb
      obtain ⟨q, rfl⟩ := hb
      rw [List.drop_left]
      cases q with
      | nil => rw [hcut (by simp) [[]], List.append_nil, hcut (by simp) []]
      | cons c q =>
        refine hblind _ (by simp) ?_
        simp [RequestHead.bytes]
    have heq : ∀ b, b <+: body → cookieField (h.bytes ++ b) = cookieField h.bytes ∧
        (endpoint routes (h.request env [])).FindsNothing env g t h b := by
      intro b hb
      have hb1 := (hwhole b hb).trans (hwhole [] List.nil_prefix).symm
      rw [hcut hb, hcut List.nil_prefix] at hb1
      exact (routed_iff env g t routes h (hzeros hb) (hfit hb)).mp hb1
    exact ⟨cookieInHead_of_forall h fun b hb => (heq b hb).1, fun b hb => (heq b hb).2⟩
  · rintro ⟨hcookie, hfields⟩ segments hsegments -
    obtain ⟨b, hb, harrive⟩ := arrive_eq h hfits segments hsegments
    have hsame : ∀ {b}, b <+: body → _ := fun hb =>
      (routed_iff env g t routes h (hzeros hb) (hfit hb)).mpr
        ⟨hcookie.cookieField_append h hb, hfields _ hb⟩
    rw [outcome_of_arrive env g t routes h (hzeros hb) harrive, hcut (List.prefix_refl body) [],
      hsame hb, hsame (List.prefix_refl body)]

/-! ### Examples -/

section Sample

def sampleEnv : Env where
  hmac _ := Vector.replicate 32 0
  getpwnam _ := none
  now := 0
  forceSecure := false
  loginHtml := lit "<form>"

def noGoogle : Google where
  clientId := none
  clientSecret := none
  authUri := none
  tokenUri := none
  driveScope := none
  random := Vector.replicate 32 0
  token _ _ := .failed
  userinfo _ := .failed
  bindings := none
  stack := []

def sampleHead : RequestHead where
  method := lit "POST"
  target := lit "/auth/login"
  rest := lit "HTTP/1.1\r\nHost: a\r\nCookie: b=c"
  method_ne_nil := by decide
  method_word := isSpace_of_all (by decide)
  target_ne_nil := by decide
  target_word := isSpace_of_all (by decide)
  one_blank_line := by
    rw [← strstr_eq_none_iff]
    decide
  no_zero := by decide

/-- A body that names nobody may arrive in any number of pieces. -/
theorem segmentation_blind_sample :
    SegmentationBlind sampleEnv noGoogle .init [] (sampleHead.bytes ++ lit "a=b") := by
  refine (segmentation_blind_iff sampleEnv noGoogle .init [] sampleHead (lit "a=b") (by decide)
    (by decide)).mpr ⟨Or.inl ?_, fun b hb => ?_⟩
  · decide
  · have hmem := (List.mem_inits b (lit "a=b")).mpr hb
    have hall : ∀ b ∈ (lit "a=b").inits, formCredentials (fit 4096 b) = none := by decide
    exact hall b hmem

/-- **A login whose body comes late is not seen**: cut behind its head, the request is
answered with the login page. -/
theorem late_body_unread :
    outcome sampleEnv noGoogle .init [] [sampleHead.bytes, lit "username=bob&password=secret"] =
        .routed (lit "POST") (lit "/auth/login") (lit "b=c") (.reply (serveLoginPage sampleEnv)) .nothing ∧
      outcome sampleEnv noGoogle .init [] [sampleHead.bytes ++ lit "username=bob&password=secret"] =
        .routed (lit "POST") (lit "/auth/login") (lit "b=c")
          (.formLogin (lit "bob") (lit "secret")) (.secure false) ∧
      ¬ ∀ (env : Env) (g : Google) (t : OAuthTable) (routes : List WebRoute) (h : RequestHead)
          (body : Bytes), (0 : Byte) ∉ body → (h.bytes ++ body).length < pendingBufSize →
        SegmentationBlind env g t routes (h.bytes ++ body) := by
  have hcut : outcome sampleEnv noGoogle .init [] [sampleHead.bytes, lit "username=bob&password=secret"] =
      .routed (lit "POST") (lit "/auth/login") (lit "b=c") (.reply (serveLoginPage sampleEnv)) .nothing := by
    decide
  have hwhole : outcome sampleEnv noGoogle .init [] [sampleHead.bytes ++ lit "username=bob&password=secret"] =
      .routed (lit "POST") (lit "/auth/login") (lit "b=c")
        (.formLogin (lit "bob") (lit "secret")) (.secure false) := by
    decide
  refine ⟨hcut, hwhole, fun hall => ?_⟩
  have hblind := hall sampleEnv noGoogle .init [] sampleHead (lit "username=bob&password=secret") (by decide)
    (by decide) [sampleHead.bytes, lit "username=bob&password=secret"] (by simp) (by decide)
  exact absurd hblind (by decide)

end Sample

end OpenCms.Gateway
