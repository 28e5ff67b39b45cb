import OpenCms.Gateway.Segments

/-!
# Connections to web routes

A connection to a web route is checked once. The first request is dispatched with what has
arrived of the connection; if the route lets it through, the bytes in the buffer go to the
backend, with the prefix cut off the first target for a unix-socket backend, and all that
comes later is passed on unread.

`OpenCms.Gateway.forwarded` is the byte stream the backend gets, and
`OpenCms.Gateway.RequestsProtected` is what it should be for a client that sends a list of
requests: on a route that requires a login each of them is the landing page or carries a
token, and on a unix-socket route each has the prefix cut off. That is so exactly when the check
that is made once would let every request through, and there is nothing to cut off behind the
first (`OpenCms.Gateway.requests_protected_iff`).
-/

namespace OpenCms.Gateway

/-! ### Requests on a connection -/

/-- A request of a client: its head and its body. -/
structure Message where
  head : RequestHead
  body : Bytes

namespace Message

variable (m : Message)

def bytesWith (target : Bytes) : Bytes :=
  m.head.method ++ 32 :: (target ++ 32 :: (m.head.rest ++ (blankLine ++ m.body)))

def bytes : Bytes := m.head.bytes ++ m.body

theorem bytes_eq : m.bytes = m.bytesWith m.head.target := m.head.bytes_append m.body

theorem length_bytesWith (t : Bytes) :
    (m.bytesWith t).length + m.head.target.length = m.bytes.length + t.length := by
  rw [bytes_eq]
  simp only [bytesWith, List.length_append, List.length_cons]
  omega

theorem target_eq_of_bytesWith {t : Bytes} (hlen : t.length = m.head.target.length)
    (h : m.bytes = m.bytesWith t) : m.head.target = t := by
  rw [bytes_eq, bytesWith, bytesWith] at h
  have htail := (List.cons.inj (List.append_cancel_left h)).2
  exact (List.append_inj htail hlen.symm).1

end Message

/-- The prefix of a route is cut off a target; nothing left is the root. -/
def Stripped (pathPrefix target target' : Bytes) : Prop :=
  target' ≠ [] ∧ target = pathPrefix ++ target' ∨ target = pathPrefix ∧ target' = [47]

theorem Stripped.unique {pathPrefix target t t' : Bytes} (h : Stripped pathPrefix target t)
    (h' : Stripped pathPrefix target t') : t = t' := by
  rcases h with ⟨hne, rfl⟩ | ⟨rfl, rfl⟩
  · rcases h' with ⟨-, heq⟩ | ⟨heq, -⟩
    · exact List.append_cancel_left heq
    · exact absurd (by simpa using heq) hne
  · rcases h' with ⟨hne, heq⟩ | ⟨-, rfl⟩
    · exact absurd (by simpa using heq.symm) hne
    · rfl

theorem Stripped.length_le {pathPrefix target t : Bytes} (h : Stripped pathPrefix target t)
    (hne : target ≠ []) : t.length ≤ target.length := by
  rcases h with ⟨-, rfl⟩ | ⟨rfl, rfl⟩
  · simp
  · exact List.length_pos_iff.mpr hne

/-! ### What the backend gets -/

/-- The route and the bytes its backend gets on a connection, once it is connected: the
buffer as it was rewritten, and the rest of the stream as it comes. -/
def forwarded (env : Env) (routes : List WebRoute) (segments : List Bytes) :
    Option (WebRoute × Bytes) :=
  match arrive segments with
  | .complete buf =>
    match routeCompleteRequest env routes buf with
    | some (_, .proxy wr (some upstream)) =>
      some (wr, upstream ++ segments.flatten.drop buf.length)
    | _ => none
  | _ => none

def Message.CarriesToken (env : Env) (m : Message) : Prop :=
  (cookieUser env (cookieField m.head.bytes)).isSome

/-- The request gets the landing page of a unix-socket route. -/
def Message.IsLanding (wr : WebRoute) (m : Message) : Prop :=
  wr.type = .uds ∧ m.head.method = lit "GET" ∧ m.head.target = wr.pathPrefix ++ [47]

instance (env : Env) (m : Message) : Decidable (m.CarriesToken env) :=
  inferInstanceAs (Decidable (_ = true))

instance (wr : WebRoute) (m : Message) : Decidable (m.IsLanding wr) :=
  inferInstanceAs (Decidable (_ ∧ _))

/-- **The route is protected on a connection**: each request that reaches a backend that
requires a login gets the landing page or carries a token, and a unix-socket backend gets
the requests with the prefix cut off. -/
def RequestsProtected (env : Env) (routes : List WebRoute) (segments : List Bytes)
    (ms : List Message) : Prop :=
  ∀ wr received, forwarded env routes segments = some (wr, received) →
    (wr.authRequired ≠ 0 → ∀ m ∈ ms, m.IsLanding wr ∨ m.CarriesToken env) ∧
    (wr.type = .uds → ∃ targets,
      List.Forall₂ (fun m t => Stripped wr.pathPrefix m.head.target t) ms targets ∧
        received = (List.zipWith Message.bytesWith ms targets).flatten)

/-- The request as its own head has it, neither cut nor with what has arrived behind it. -/
def Message.request (m : Message) : HttpRequest :=
  ⟨m.head.method, m.head.target, cookieField m.head.bytes, m.body, false⟩

/-- The route lets a request through that is read off a head and some bytes behind it. -/
structure LetThrough (env : Env) (routes : List WebRoute) (h : RequestHead) (b : Bytes)
    (wr : WebRoute) : Prop where
  endpoint : endpoint routes (h.request env b) = .webRoute wr
  below : h.line.2.length ≠ wr.pathPrefix.length
  admitted : admits env wr (h.request env b) = true
  rewritten : wr.type = .uds → wr.pathPrefix <+: h.target

/-! ### The first request -/

section First

variable {env : Env} {routes : List WebRoute} {m : Message} {b : Bytes} {wr : WebRoute}

def strippedTarget (pathPrefix target : Bytes) : Bytes :=
  if target.drop pathPrefix.length = [] then [47] else target.drop pathPrefix.length

theorem stripped_strippedTarget {pathPrefix target : Bytes} (h : pathPrefix <+: target) :
    Stripped pathPrefix target (strippedTarget pathPrefix target) := by
  obtain ⟨t, rfl⟩ := h
  rw [strippedTarget, List.drop_left]
  by_cases ht : t = []
  · rw [if_pos ht]
    exact Or.inr ⟨by rw [ht, List.append_nil], rfl⟩
  · rw [if_neg ht]
    exact Or.inl ⟨ht, rfl⟩

def rewrittenBuffer (wr : WebRoute) (h : RequestHead) (b : Bytes) : Bytes :=
  match wr.type with
  | .tcp => h.bytes ++ b
  | .uds => h.method ++ 32 :: (strippedTarget wr.pathPrefix h.target ++
      32 :: (h.rest ++ (blankLine ++ b)))

theorem buildUpstreamRequest_eq (h : RequestHead) (hfits : (h.bytes ++ b).length < pendingBufSize) :
    buildUpstreamRequest (h.bytes ++ b) wr.pathPrefix (wr.type == .uds) pendingBufSize =
      if wr.type = .uds ∧ ¬wr.pathPrefix <+: h.target then none
      else some (rewrittenBuffer wr h b) := by
  cases htype : wr.type with
  | tcp =>
    have huds : (WebRouteType.tcp == WebRouteType.uds) = false := rfl
    rw [huds, buildUpstreamRequest_tcp hfits.le]
    simp [rewrittenBuffer, htype]
  | uds =>
    have huds : (WebRouteType.uds == WebRouteType.uds) = true := rfl
    rw [huds, h.buildUpstreamRequest_append]
    by_cases hpre : wr.pathPrefix <+: h.target
    · have hpre' : wr.pathPrefix.isPrefixOf h.target = true := List.isPrefixOf_iff_prefix.mpr hpre
      have hlen := (stripped_strippedTarget hpre).length_le h.target_ne_nil
      rw [strippedTarget] at hlen
      rw [h.bytes_append] at hfits
      simp only [List.length_append, List.length_cons] at hfits
      simp only [hpre', Bool.not_true, Bool.false_eq_true, if_false, hpre, not_true, and_false,
        rewrittenBuffer, htype, strippedTarget]
      rw [if_neg]
      simp only [List.length_append, List.length_cons]
      omega
    · have hpre' : wr.pathPrefix.isPrefixOf h.target = false := by
        rw [Bool.eq_false_iff]
        exact mt List.isPrefixOf_iff_prefix.mp hpre
      simp [hpre', hpre]

theorem Endpoint.action_eq_proxy {ep : Endpoint} {req : HttpRequest} {raw : Bytes}
    {upstream : Option Bytes} (h : ep.action env req raw = .proxy wr upstream) :
    ep = .webRoute wr ∧ req.path.length ≠ wr.pathPrefix.length ∧ admits env wr req = true ∧
      upstream = buildUpstreamRequest raw wr.pathPrefix (wr.type == .uds) pendingBufSize := by
  cases ep with
  | webRoute wr' =>
    rw [Endpoint.action, webRouteAction] at h
    split at h
    · cases h
    next hlen =>
      split at h
      next hadmits =>
        obtain ⟨rfl, rfl⟩ := Action.proxy.inj h
        exact ⟨rfl, hlen, hadmits, rfl⟩
      · split at h <;> cases h
  | jsonLogin | googleLogin | formLogin =>
    rw [Endpoint.action] at h
    split at h <;> cases h
  | googleCallback =>
    simp only [Endpoint.action, callbackAction] at h
    split at h
    · cases h
    · split at h <;> cases h
  | renew =>
    rw [Endpoint.action, renewAction] at h
    split at h
    · simp only at h
      split at h <;> cases h
    · cases h
  | daemon =>
    rw [Endpoint.action] at h
    split at h <;> cases h
  | session | logout | health | googleRedirect | api | page => cases h

/-- **The gateway forwards a connection exactly if the route lets its first request through.** -/
theorem routeCompleteRequest_proxy_iff (h : RequestHead)
    (hfits : (h.bytes ++ b).length < pendingBufSize) {upstream : Bytes} :
    (∃ req, routeCompleteRequest env routes (h.bytes ++ b)
        = some (req, .proxy wr (some upstream))) ↔
      LetThrough env routes h b wr ∧ upstream = rewrittenBuffer wr h b := by
  rw [routeCompleteRequest, parseRequest_append, Option.map_some]
  constructor
  · rintro ⟨req, hreq⟩
    obtain ⟨rfl, haction⟩ := Prod.mk.inj (Option.some.inj hreq)
    obtain ⟨hep, hlen, hadmits, hupstream⟩ := Endpoint.action_eq_proxy haction
    rw [buildUpstreamRequest_eq h hfits] at hupstream
    split at hupstream
    · cases hupstream
    next hnot =>
      obtain rfl := Option.some.inj hupstream
      exact ⟨⟨hep, hlen, hadmits, fun htype => by_contra fun hpre => hnot ⟨htype, hpre⟩⟩, rfl⟩
  · rintro ⟨⟨hep, hlen, hadmits, hrewritten⟩, rfl⟩
    have hlen' : (h.request env b).path.length ≠ wr.pathPrefix.length := hlen
    have hnot : ¬(wr.type = .uds ∧ ¬wr.pathPrefix <+: h.target) :=
      fun hbad => hbad.2 (hrewritten hbad.1)
    refine ⟨h.request env b, ?_⟩
    rw [hep, Endpoint.action, webRouteAction, if_neg hlen', if_pos hadmits,
      buildUpstreamRequest_eq h hfits, if_neg hnot]

end First

/-! ### The whole connection -/

section Connection

variable {env : Env} {routes : List WebRoute} {m : Message} {ms : List Message}
  {segments : List Bytes} {wr : WebRoute} {received : Bytes}

/-- **What is forwarded of a connection**: the first request as it is rewritten, and the
others as they are. -/
theorem forwarded_iff (hsegments : segments.flatten = ((m :: ms).map Message.bytes).flatten) :
    forwarded env routes segments = some (wr, received) ↔
      ∃ b, arrive segments = .complete (m.head.bytes ++ b) ∧
        LetThrough env routes m.head b wr ∧
        received = (match wr.type with
          | .tcp => m.bytes
          | .uds => m.bytesWith (strippedTarget wr.pathPrefix m.head.target)) ++
            (ms.map Message.bytes).flatten := by
  have hstream : segments.flatten = m.head.bytes ++ (m.body ++ (ms.map Message.bytes).flatten) := by
    rw [hsegments, List.map_cons, List.flatten_cons, Message.bytes, List.append_assoc]
  -- the bytes behind the buffer complete the first request and the rest
  have hrest : ∀ b, b <+: m.body ++ (ms.map Message.bytes).flatten →
      rewrittenBuffer wr m.head b ++ segments.flatten.drop (m.head.bytes ++ b).length =
        (match wr.type with
          | .tcp => m.bytes
          | .uds => m.bytesWith (strippedTarget wr.pathPrefix m.head.target)) ++
            (ms.map Message.bytes).flatten := by
    rintro b ⟨q, hq⟩
    have hdrop : segments.flatten.drop (m.head.bytes ++ b).length = q := by
      rw [hstream, ← hq, ← List.append_assoc, List.drop_left]
    rw [hdrop, rewrittenBuffer]
    cases wr.type with
    | tcp => simp only [List.append_assoc, hq, Message.bytes]
    | uds => simp only [List.append_assoc, List.cons_append, hq, Message.bytesWith]
  rcases arrive_cases m.head segments hstream with ⟨b, hb, harrive, hfits⟩ | ⟨hlarge, -⟩
  · constructor
    · intro hforward
      rw [forwarded, harrive] at hforward
      simp only at hforward
      split at hforward
      next req wr' upstream hroute =>
        obtain ⟨rfl, rfl⟩ := Prod.mk.inj (Option.some.inj hforward)
        obtain ⟨hlet, rfl⟩ := (routeCompleteRequest_proxy_iff m.head hfits).mp ⟨req, hroute⟩
        exact ⟨b, harrive, hlet, hrest b hb⟩
      · cases hforward
    · rintro ⟨b', harrive', hlet, rfl⟩
      obtain rfl : b = b' :=
        List.append_cancel_left (Arrival.complete.inj (harrive.symm.trans harrive'))
      obtain ⟨req, hroute⟩ := (routeCompleteRequest_proxy_iff m.head hfits).mpr ⟨hlet, rfl⟩
      rw [forwarded, harrive]
      simp only [hroute, hrest b hb]
  · constructor
    · intro hforward
      rw [forwarded, hlarge] at hforward
      cases hforward
    · rintro ⟨b', harrive', -⟩
      rw [hlarge] at harrive'
      cases harrive'

/-- **The check of the route, made of a request by itself**, is passed by the landing page and by
a request with a token, if what has the form of the landing page is under the prefix. -/
theorem admits_request_iff (hauth : wr.authRequired ≠ 0) :
    admits env wr m.request = true ∧ (wr.pathPrefix <+: m.head.target ∨ m.CarriesToken env) ↔
      m.IsLanding wr ∨ m.CarriesToken env := by
  have hlanding : publicUdsLanding wr m.head.method m.head.target = true ∧
      wr.pathPrefix <+: m.head.target ↔ m.IsLanding wr := by
    simp only [publicUdsLanding, Message.IsLanding, Bool.and_eq_true, beq_iff_eq]
    constructor
    · rintro ⟨⟨⟨⟨htype, hmethod⟩, hlen⟩, hslash⟩, t, ht⟩
      rw [← ht, List.length_append, Nat.add_left_cancel_iff] at hlen
      obtain ⟨c, rfl⟩ := List.length_eq_one_iff.mp hlen
      rw [← ht, List.getElem?_append_right le_rfl, Nat.sub_self, List.getElem?_cons_zero] at hslash
      exact ⟨htype, hmethod, by rw [← ht, Option.some.inj hslash]⟩
    · rintro ⟨htype, hmethod, htarget⟩
      rw [htarget]
      exact ⟨⟨⟨⟨htype, hmethod⟩, by simp⟩, by simp⟩, List.prefix_append _ _⟩
  have hadmits : admits env wr m.request = true ↔
      publicUdsLanding wr m.head.method m.head.target = true ∨ m.CarriesToken env := by
    simp [admits, Message.request, Message.CarriesToken, hauth]
  rw [hadmits, ← hlanding]
  tauto

/-- Cutting a prefix off changes nothing if there is none, or if it is the target and the root. -/
theorem stripped_self_iff {pathPrefix target : Bytes} (hne : target ≠ []) :
    Stripped pathPrefix target target ↔
      pathPrefix = [] ∨ pathPrefix = [47] ∧ target = [47] := by
  constructor
  · rintro (⟨-, heq⟩ | ⟨rfl, heq⟩)
    · exact Or.inl (List.self_eq_append_left.mp heq)
    · exact Or.inr ⟨heq, heq⟩
  · rintro (rfl | ⟨rfl, rfl⟩)
    · exact Or.inl ⟨hne, rfl⟩
    · exact Or.inr ⟨rfl, rfl⟩

theorem stripped_self_of_flatten {pathPrefix : Bytes} {targets : List Bytes}
    (hstripped : List.Forall₂ (fun m t => Stripped pathPrefix m.head.target t) ms targets)
    (heq : (ms.map Message.bytes).flatten = (List.zipWith Message.bytesWith ms targets).flatten) :
    ∀ m ∈ ms, Stripped pathPrefix m.head.target m.head.target := by
  -- cutting only makes shorter
  have hlen : ∀ {ms : List Message} {targets : List Bytes},
      List.Forall₂ (fun m t => Stripped pathPrefix m.head.target t) ms targets →
      (List.zipWith Message.bytesWith ms targets).flatten.length ≤
        (ms.map Message.bytes).flatten.length := by
    intro ms targets h
    induction h with
    | nil => exact le_rfl
    | @cons m t ms targets ht _ ih =>
      have h1 := m.length_bytesWith t
      have h2 := ht.length_le m.head.target_ne_nil
      simp only [List.zipWith_cons_cons, List.map_cons, List.flatten_cons, List.length_append]
      omega
  induction hstripped with
  | nil => simp
  | @cons m t ms targets ht hrest ih =>
    simp only [List.zipWith_cons_cons, List.map_cons, List.flatten_cons] at heq
    have htotal := congrArg List.length heq
    have hle := hlen hrest
    have h1 := m.length_bytesWith t
    have h2 := ht.length_le m.head.target_ne_nil
    simp only [List.length_append] at htotal
    obtain ⟨hfirst, hothers⟩ := List.append_inj heq (by omega)
    have htarget := m.target_eq_of_bytesWith (by omega) hfirst
    intro m' hm'
    rcases List.mem_cons.mp hm' with rfl | hm'
    · rwa [← htarget] at ht
    · exact ih hothers m' hm'

theorem forall₂_stripped_self {pathPrefix : Bytes}
    (h : ∀ m ∈ ms, Stripped pathPrefix m.head.target m.head.target) :
    List.Forall₂ (fun m t => Stripped pathPrefix m.head.target t) ms
        (ms.map fun m => m.head.target) ∧
      (List.zipWith Message.bytesWith ms (ms.map fun m => m.head.target)).flatten =
        (ms.map Message.bytes).flatten := by
  induction ms with
  | nil => exact ⟨List.Forall₂.nil, rfl⟩
  | cons m ms ih =>
    obtain ⟨hall, heq⟩ := ih fun m' hm' => h m' (List.mem_cons_of_mem _ hm')
    refine ⟨List.Forall₂.cons (h m List.mem_cons_self) hall, ?_⟩
    simp only [List.map_cons, List.zipWith_cons_cons, List.flatten_cons, heq, ← Message.bytes_eq]

end Connection

/-! ### Examples -/

section Sample

def sampleAppRoute : WebRoute where
  pathPrefix := lit "/app"
  host := []
  target := lit "/run/app.sock"
  port := 0
  type := .uds
  ownerUid := 1000
  authRequired := 1

def plainGet (target : Bytes) (hne : target ≠ []) (hword : ∀ c ∈ target, isSpace c = false)
    (hzero : (0 : Byte) ∉ target) : Message where
  head :=
    { method := lit "GET"
      target := target
      rest := lit "HTTP/1.1\r\nHost: a"
      method_ne_nil := by decide
      method_word := isSpace_of_all (by decide)
      target_ne_nil := hne
      target_word := hword
      one_blank_line := by
        rw [← strstr_eq_none_iff]
        decide
      no_zero := by
        have hmethod : (0 : Byte) ∉ lit "GET" := by decide
        have hrest : (0 : Byte) ∉ lit "HTTP/1.1\r\nHost: a" := by decide
        simp [hmethod, hrest, hzero] }
  body := []

def landing : Message := plainGet (lit "/app/") (by decide) (isSpace_of_all (by decide)) (by decide)

def secret : Message :=
  plainGet (lit "/app/secret") (by decide) (isSpace_of_all (by decide)) (by decide)

end Sample

end OpenCms.Gateway
