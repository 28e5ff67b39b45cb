import OpenCms.Gateway.AuthQueue
import OpenCms.Gateway.OAuth
import OpenCms.Gateway.Throttle

/-!
# Who gets a session

The parts meet here: a request that was read is dispatched, its password goes into the
queue for PAM, its login with Google passes through the table of states, and the answers
go back to the sockets of the requests they belong to. `OpenCms.Gateway.serverStep` is one
step of this machine, and everything the gateway itself sends is recorded in
`OpenCms.Gateway.ServerState.sent`, with the request it answers.

A session is *grounded* (`OpenCms.Gateway.Grounded`) if its own request carried a password
that PAM accepted for its user, or came back from Google with a state that was issued and
an address that is bound to the user, or carried a token of the user that is still valid.
The endpoint that takes the address from the request asks for none of these
(`OpenCms.Gateway.email_opens_session`); all sessions of a run are grounded exactly when no
request gets anything out of that endpoint that it does not have a token for
(`OpenCms.Gateway.sessions_grounded_iff`).
-/

namespace OpenCms.Gateway

/-! ### Sessions -/

def sendLoginSuccessEx (hmac : Bytes → Digest) (now : ℤ) (username : Bytes)
    (isSecure isJsonApi : Bool) : HttpReply :=
  let token := loginToken hmac username now
  if isJsonApi then
    let cookieHdr := fit 1200 (noStore ++ lit "Set-Cookie: oc_jwt=" ++ token ++
      lit "; Path=/; Max-Age=" ++ decimal jwtExpSeconds ++ lit "; SameSite=Lax" ++
      (if isSecure then lit "; Secure" else []) ++ crlf)
    .ofBody 200 (lit "OK") jsonType cookieHdr
      (fit 256 (lit "\x7b\"enabled\":true,\"authenticated\":true,\"username\":\"" ++ username ++
        lit "\"\x7d"))
  else
    .ofBody 200 (lit "OK") htmlType noStore
      (fit 2048 (lit "<!DOCTYPE html><html><head><meta charset=\"utf-8\"></head><body><script>" ++
        lit "document.cookie='oc_jwt=" ++ token ++ lit "; Path=/; Max-Age=" ++
        decimal jwtExpSeconds ++ lit "';window.location.replace('/');</script></body></html>"))

inductive Answer
  | http (r : HttpReply)
  /-- Bytes that are sent as they are. -/
  | raw (bytes : Bytes)
  /-- The session of a user. -/
  | session (username : Bytes) (r : HttpReply)
  deriving DecidableEq

/-- The answer to a login that PAM has decided, or that found no place in the queue. -/
def AuthReply.answer (hmac : Bytes → Digest) (now : ℤ) : AuthReply → Answer
  | .success username isSecure isJsonApi =>
    .session username (sendLoginSuccessEx hmac now username isSecure isJsonApi)
  | .failure true =>
    .http (.ofBody 401 (lit "Unauthorized") jsonType []
      (lit "\x7b\"error\":\"Invalid username or password\"\x7d"))
  | .failure false =>
    .raw (lit "HTTP/1.1 303 See Other\r\nLocation: /?error=1\r\nConnection: close\r\n\r\n")
  | .busy =>
    .http (.ofBody 503 (lit "Service Unavailable") textType [] (lit "Auth service busy"))

/-- What an answer of the queue means to the counters of its address. -/
def AuthReply.count (throttle : Throttle) (ip : UInt32) (now : ℤ) (writable : Bool) :
    AuthReply → Throttle
  | .success _ _ _ => throttleStep throttle (.success ip)
  | .failure _ => throttleStep throttle (.failure ip now writable)
  | .busy => throttle

/-! ### The machine -/

/-- A request that is complete, on its socket, and its surroundings. -/
structure ClientRequest where
  env : Env
  google : Google
  routes : List WebRoute
  buf : Bytes
  clientFd : ℕ
  peerIp : UInt32
  /-- Whether a thread can be created for its password. -/
  created : Bool
  /-- `time(NULL)` when a token is signed for it. -/
  signedAt : ℤ

def ClientRequest.read (r : ClientRequest) : Option (HttpRequest × Action) :=
  routeCompleteRequest r.env r.routes r.buf

/-- An answer, the request it is for and the socket it goes to. -/
structure Sent where
  request : ℕ
  clientFd : ℕ
  answer : Answer
  deriving DecidableEq

/-- The tables of the gateway, and the record of what happened. -/
structure ServerState where
  oauth : OAuthTable
  throttle : Throttle
  auth : AuthState
  /-- Every request, in order; its place is its number. -/
  requests : List ClientRequest
  /-- The request of each submission to the queue. -/
  submitted : List ℕ
  /-- Every state that was sent with a redirect. -/
  issued : List OAuthState
  /-- Everything that was sent. -/
  sent : List Sent

def ServerState.init (banFile : Bytes) : ServerState where
  oauth := .init
  throttle := .boot banFile
  auth := .init
  requests := []
  submitted := []
  issued := []
  sent := []

def ServerState.send (s : ServerState) (i : ℕ) (r : ClientRequest) (answer : Answer) :
    ServerState :=
  { s with sent := s.sent ++ [⟨i, r.clientFd, answer⟩] }

/-- The answers the queue has given since. -/
def AuthState.since (before after : AuthState) : List (ℕ × ℕ × AuthReply) :=
  after.replies.drop before.replies.length

/-- The queue has taken a step, and what it answers is sent. -/
def ServerState.deliver (s : ServerState) (auth : AuthState) (hmac : Bytes → Digest) (now : ℤ)
    (writable : Bool) : ServerState :=
  let new := s.auth.since auth
  let ip := s.auth.ring.front.peerIp
  { s with
    auth := auth
    throttle := new.foldl (fun t reply => reply.2.2.count t ip now writable) s.throttle
    sent := s.sent ++ new.map fun reply =>
      ⟨s.submitted.getD reply.1 0, reply.2.1, reply.2.2.answer hmac now⟩ }

def ServerState.submit (s : ServerState) (i : ℕ) (r : ClientRequest) (sub : Submission) :
    ServerState :=
  { s with submitted := s.submitted ++ [i] }.deliver (authStep s.auth (.login sub r.created))
    r.env.hmac r.signedAt false

def ServerState.finish (s : ServerState) (i : ℕ) (r : ClientRequest) (isSecure : Bool) :
    Except HttpReply Passwd → ServerState
  | .ok pw =>
    s.send i r (.session pw.name (sendLoginSuccessEx r.env.hmac r.signedAt pw.name isSecure false))
  | .error reply => s.send i r (.http reply)

/-- The answer to an address that has failed too often, one byte short. -/
def rateLimitedReply : HttpReply :=
  ⟨429, lit "Too Many Requests", textType, [],
    lit "Too many failed login attempts. Try again later.", 47⟩

/-- The rest of `route_complete_request`. What goes to a backend is not answered here. -/
def ServerState.act (s : ServerState) (i : ℕ) (r : ClientRequest) (req : HttpRequest) :
    Action → ServerState
  | .reply reply => s.send i r (.http reply)
  | .jsonLogin username password =>
    s.submit i r ⟨r.clientFd, username, password, req.isSecure, r.peerIp, true⟩
  | .formLogin username password =>
    let check := .formLogin r.peerIp r.env.now
    let allowed := handsOver s.throttle check
    let s := { s with throttle := throttleStep s.throttle check }
    if allowed then s.submit i r ⟨r.clientFd, username, password, req.isSecure, r.peerIp, false⟩
    else s.send i r (.http rateLimitedReply)
  | .proxy _ _ => s
  | .googleRedirect =>
    let (oauth, outcome) := googleRedirect r.env r.google s.oauth req.isSecure r.buf
    let s := { s with oauth := oauth }
    match outcome with
    | .ok (state, reply) => { s with issued := s.issued ++ [state] }.send i r (.http reply)
    | .error reply => s.send i r (.http reply)
  | .googleCallback code state =>
    let (oauth, user) := googleCallback r.env r.google s.oauth code state
    { s with oauth := oauth }.finish i r req.isSecure user
  | .googleLogin email => s.finish i r req.isSecure (googleLogin r.env r.google email)
  | .renew username =>
    s.send i r
      (.session username (sendLoginSuccessEx r.env.hmac r.signedAt username req.isSecure true))
  | .daemon _ _ => s

inductive ServerEvent
  /-- A request is dispatched. -/
  | request (r : ClientRequest)
  /-- A thread moves, or the main loop drains the queue. -/
  | queue (e : AuthEvent) (hmac : Bytes → Digest) (now : ℤ) (writable : Bool)

/-- One step. The main loop dispatches no request while it drains the queue, and nothing but
a request submits a login. -/
def serverStep (s : ServerState) : ServerEvent → ServerState
  | .request r =>
    if s.auth.draining then s
    else
      let i := s.requests.length
      let s := { s with requests := s.requests ++ [r] }
      match r.read with
      | some (req, action) => s.act i r req action
      | none => s
  | .queue (.login _ _) _ _ _ => s
  | .queue e hmac now writable => s.deliver (authStep s.auth e) hmac now writable

def serverAfter (banFile : Bytes) (events : List ServerEvent) : ServerState :=
  run serverStep (.init banFile) events

/-! ### Grounds -/

def ClientRequest.CarriesToken (r : ClientRequest) (username : Bytes) : Prop :=
  ∃ req action token uid expVal, r.read = some (req, action) ∧ jwtCookie req.cookie = some token ∧
    jwtVerifyEx r.env.hmac r.env.getpwnam r.env.now token = some (username, uid, expVal)

/-- **What a session of a user may rest on**: what its own request carried. -/
inductive Grounded (s : ServerState) (i : ℕ) (r : ClientRequest) (username : Bytes) : Prop
  /-- A password of the request that PAM accepted for the user. -/
  | password (req : HttpRequest) (action : Action) (number : ℕ) (password : Bytes)
      (read : r.read = some (req, action))
      (credentials : action = .jsonLogin username password ∨ action = .formLogin username password)
      (submitted : s.submitted[number]? = some i)
      (verdict : (number, username, password, true) ∈ s.auth.verdicts)
  /-- A callback with a state that was issued and has not expired, whose exchange with
  Google returned an address that is bound to the user. -/
  | callback (req : HttpRequest) (code : Bytes) (state : OAuthState) (email : Bytes) (pw : Passwd)
      (read : r.read = some (req, .googleCallback code state.stateToken))
      (issued : state ∈ s.issued) (unexpired : r.env.now - state.created ≤ oauthStateTtl)
      (verified : verifiedEmail r.google code (fit 512 state.redirectUri) = .ok email)
      (bound : boundUser r.env r.google email = some pw) (name : pw.name = username)
  /-- A token of the user that is still valid. -/
  | token (carries : r.CarriesToken username)

def Sent.IsGrounded (s : ServerState) (m : Sent) : Prop :=
  ∀ username reply, m.answer = .session username reply →
    ∃ r, s.requests[m.request]? = some r ∧ m.clientFd = r.clientFd ∧
      Grounded s m.request r username

/-- **Every session that was sent is grounded.** -/
def SessionsGrounded (s : ServerState) : Prop := ∀ m ∈ s.sent, m.IsGrounded s

/-- **The condition**: a request that names an address which is bound to a user carries a
token of this user as well. -/
def EmailBacked (s : ServerState) : ServerEvent → Prop
  | .request r => s.auth.draining = false → ∀ req email pw,
      r.read = some (req, .googleLogin email) → boundUser r.env r.google email = some pw →
        r.CarriesToken pw.name
  | .queue _ _ _ _ => True

/-! ### The record grows -/

/-- **The record is never rewritten**, and the main loop adds to it. -/
structure Extends (s s' : ServerState) : Prop where
  requests : s.requests <+: s'.requests
  submitted : s.submitted <+: s'.submitted
  issued : s.issued <+: s'.issued
  verdicts : s.auth.verdicts <+: s'.auth.verdicts
  sent : s.sent <+: s'.sent

theorem Extends.refl (s : ServerState) : Extends s s :=
  ⟨List.prefix_refl _, List.prefix_refl _, List.prefix_refl _, List.prefix_refl _,
    List.prefix_refl _⟩

theorem Extends.trans {s s' s'' : ServerState} (h : Extends s s') (h' : Extends s' s'') :
    Extends s s'' :=
  ⟨h.requests.trans h'.requests, h.submitted.trans h'.submitted, h.issued.trans h'.issued,
    h.verdicts.trans h'.verdicts, h.sent.trans h'.sent⟩

section Extend

variable {s s' : ServerState} {i : ℕ} {r : ClientRequest}

theorem Grounded.mono {username : Bytes} (h : Grounded s i r username) (he : Extends s s') :
    Grounded s' i r username := by
  cases h with
  | password req action number password read credentials submitted verdict =>
    exact .password req action number password read credentials
      (getElem?_of_isPrefix he.submitted submitted) (he.verdicts.subset verdict)
  | callback req code state email pw read issued unexpired verified bound name =>
    exact .callback req code state email pw read (he.issued.subset issued) unexpired verified
      bound name
  | token carries => exact .token carries

theorem Sent.IsGrounded.mono {m : Sent} (h : m.IsGrounded s) (he : Extends s s') :
    m.IsGrounded s' := by
  intro username reply hanswer
  obtain ⟨r, hr, hfd, hground⟩ := h username reply hanswer
  exact ⟨r, getElem?_of_isPrefix he.requests hr, hfd, hground.mono he⟩

theorem SessionsGrounded.of_sent_eq (h : SessionsGrounded s) (he : Extends s s')
    (hsent : s'.sent = s.sent) : SessionsGrounded s' := fun m hm =>
  (h m (hsent ▸ hm)).mono he

theorem Extends.send (s : ServerState) (i : ℕ) (r : ClientRequest) (answer : Answer) :
    Extends s (s.send i r answer) :=
  { Extends.refl s with sent := List.prefix_append _ _ }

theorem Extends.deliver (s : ServerState) (e : AuthEvent) (hmac : Bytes → Digest) (now : ℤ)
    (writable : Bool) : Extends s (s.deliver (authStep s.auth e) hmac now writable) :=
  { Extends.refl s with
    verdicts := (record_authStep s.auth e).2.1
    sent := List.prefix_append _ _ }

theorem Extends.submit (s : ServerState) (i : ℕ) (r : ClientRequest) (sub : Submission) :
    Extends s (s.submit i r sub) := by
  have hfirst : Extends s { s with submitted := s.submitted ++ [i] } :=
    { Extends.refl s with submitted := List.prefix_append _ _ }
  exact hfirst.trans (Extends.deliver { s with submitted := s.submitted ++ [i] } _ _ _ _)

theorem Extends.finish (s : ServerState) (i : ℕ) (r : ClientRequest) (isSecure : Bool)
    (user : Except HttpReply Passwd) : Extends s (s.finish i r isSecure user) := by
  cases user with
  | ok pw => exact Extends.send s i r _
  | error reply => exact Extends.send s i r _

theorem Extends.act (s : ServerState) (i : ℕ) (r : ClientRequest) (req : HttpRequest)
    (action : Action) : Extends s (s.act i r req action) := by
  cases action with
  | reply reply => exact Extends.send s i r _
  | jsonLogin username password => exact Extends.submit s i r _
  | formLogin username password =>
    have hcheck : ∀ throttle, Extends s { s with throttle := throttle } := fun _ =>
      { Extends.refl s with }
    simp only [ServerState.act]
    split
    · exact (hcheck _).trans (Extends.submit _ i r _)
    · exact (hcheck _).trans (Extends.send _ i r _)
  | proxy wr upstream => exact Extends.refl s
  | googleRedirect =>
    have htable : ∀ oauth, Extends s { s with oauth := oauth } := fun _ =>
      { Extends.refl s with }
    have hissue : ∀ oauth state,
        Extends s { s with oauth := oauth, issued := s.issued ++ [state] } := fun _ _ =>
      { Extends.refl s with issued := List.prefix_append _ _ }
    simp only [ServerState.act]
    split
    · exact (hissue _ _).trans (Extends.send _ i r _)
    · exact (htable _).trans (Extends.send _ i r _)
  | googleCallback code state =>
    have htable : ∀ oauth, Extends s { s with oauth := oauth } := fun _ =>
      { Extends.refl s with }
    exact (htable _).trans (Extends.finish _ i r _ _)
  | googleLogin email => exact Extends.finish s i r _ _
  | renew username => exact Extends.send s i r _
  | daemon username uid => exact Extends.refl s

theorem Extends.step (s : ServerState) (e : ServerEvent) : Extends s (serverStep s e) := by
  cases e with
  | request r =>
    have hread : Extends s { s with requests := s.requests ++ [r] } :=
      { Extends.refl s with requests := List.prefix_append _ _ }
    simp only [serverStep]
    split
    · exact Extends.refl s
    split
    · exact hread.trans (Extends.act _ _ r _ _)
    · exact hread
  | queue e hmac now writable =>
    cases e with
    | login sub created => exact Extends.refl s
    | pam | finish | notify | wake | drain => exact Extends.deliver s _ hmac now writable

theorem Extends.run (s : ServerState) (es : List ServerEvent) : Extends s (run serverStep s es) :=
  run_invariant (Extends s) (Extends.refl s) (fun _ e h => h.trans (Extends.step _ e)) es

end Extend

/-! ### The invariant -/

/-- Every submission to the queue has the credentials of a request, and its socket. -/
def Linked (requests : List ClientRequest) (submitted : List ℕ) (handed : List Submission) : Prop :=
  ∀ (number : ℕ) (sub : Submission), handed[number]? = some sub →
    ∃ (i : ℕ) (r : ClientRequest) (req : HttpRequest) (action : Action),
      submitted[number]? = some i ∧ requests[i]? = some r ∧ sub.clientFd = r.clientFd ∧
      r.read = some (req, action) ∧ (action = .jsonLogin sub.username sub.password ∨
        action = .formLogin sub.username sub.password)

/-- **The invariant of the gateway's tables.** -/
structure ServerInv (s : ServerState) : Prop where
  auth : AuthInv s.auth
  length : s.submitted.length = s.auth.handed.length
  linked : Linked s.requests s.submitted s.auth.handed
  oauth : s.oauth.Within s.issued

theorem ServerInv.init (banFile : Bytes) : ServerInv (.init banFile) where
  auth := .init
  length := rfl
  linked := by
    intro number sub h
    simp [ServerState.init, AuthState.init] at h
  oauth i h := by simp [ServerState.init, OAuthTable.init] at h

variable {action : Action}

theorem fit_credentials {r : ClientRequest} {req : HttpRequest} {username password : Bytes}
    (hread : r.read = some (req, action))
    (h : action = .jsonLogin username password ∨ action = .formLogin username password) :
    fit 256 username = username ∧ fit 256 password = password := by
  have hbacked := backed_of_routeCompleteRequest hread
  have hlen : username.length < 256 ∧ password.length < 256 := by
    rcases h with rfl | rfl
    · exact length_jsonCredentials_lt hbacked
    · exact length_formCredentials_lt hbacked
  exact ⟨fit_of_lt hlen.1, fit_of_lt hlen.2⟩

section Step

variable {s : ServerState} {i : ℕ} {r : ClientRequest} {req : HttpRequest} {sub : Submission}

theorem Linked.request {requests : List ClientRequest} {submitted : List ℕ}
    {handed : List Submission} (h : Linked requests submitted handed) (r : ClientRequest) :
    Linked (requests ++ [r]) submitted handed := by
  intro number sub hsub
  obtain ⟨i, r', req, action, hi, hr, hrest⟩ := h number sub hsub
  exact ⟨i, r', req, action, hi, getElem?_of_isPrefix (List.prefix_append _ _) hr, hrest⟩

def Asks (requests : List ClientRequest) (i : ℕ) (sub : Submission) : Prop :=
  ∃ r req action, requests[i]? = some r ∧ sub.clientFd = r.clientFd ∧
    r.read = some (req, action) ∧ (action = .jsonLogin sub.username sub.password ∨
      action = .formLogin sub.username sub.password)

theorem handed_login (hdrain : s.auth.draining = false) (created : Bool) :
    (authStep s.auth (.login sub created)).handed = s.auth.handed ++ [sub] := by
  simp [record_authStep, hdrain]

theorem ServerInv.linked_submit (h : ServerInv s) (hdrain : s.auth.draining = false)
    (hasks : Asks s.requests i sub) (created : Bool) :
    Linked s.requests (s.submitted ++ [i]) (authStep s.auth (.login sub created)).handed := by
  rw [handed_login hdrain]
  intro number sub' hsub
  rcases getElem?_concat hsub with hold | ⟨rfl, rfl⟩
  · obtain ⟨j, r', req', action', hj, hrest⟩ := h.linked number sub' hold
    exact ⟨j, r', req', action', getElem?_of_isPrefix (List.prefix_append _ _) hj, hrest⟩
  · obtain ⟨r, req, action, hrest⟩ := hasks
    exact ⟨i, r, req, action, by simp [← h.length], hrest⟩

theorem ServerInv.submit (h : ServerInv s) (hdrain : s.auth.draining = false)
    (hasks : Asks s.requests i sub) : ServerInv (s.submit i r sub) := by
  refine ⟨h.auth.step (.login sub r.created), ?_, h.linked_submit hdrain hasks _, h.oauth⟩
  change (s.submitted ++ [i]).length = (authStep s.auth (.login sub r.created)).handed.length
  rw [handed_login hdrain, List.length_append, List.length_append, h.length]
  rfl

theorem ServerInv.deliver (h : ServerInv s) {e : AuthEvent}
    (he : ∀ sub created, e ≠ .login sub created)
    (hmac : Bytes → Digest) (now : ℤ) (writable : Bool) :
    ServerInv (s.deliver (authStep s.auth e) hmac now writable) := by
  have hhanded : (authStep s.auth e).handed = s.auth.handed := by
    rw [(record_authStep _ _).1]
    cases e with
    | login sub created => exact absurd rfl (he sub created)
    | pam | finish | notify | wake | drain => exact List.append_nil _
  refine ⟨h.auth.step e, ?_, ?_, h.oauth⟩
  · exact hhanded ▸ h.length
  · exact hhanded ▸ h.linked

theorem ServerInv.finish (h : ServerInv s) (i : ℕ) (r : ClientRequest) (isSecure : Bool)
    (user : Except HttpReply Passwd) : ServerInv (s.finish i r isSecure user) := by
  cases user with
  | ok pw => exact ⟨h.auth, h.length, h.linked, h.oauth⟩
  | error reply => exact ⟨h.auth, h.length, h.linked, h.oauth⟩

/-- **What is done with a request keeps the invariant.** -/
theorem ServerInv.act (h : ServerInv s) (hdrain : s.auth.draining = false)
    (hr : s.requests[i]? = some r) (hread : r.read = some (req, action)) :
    ServerInv (s.act i r req action) := by
  cases action with
  | reply reply => exact ⟨h.auth, h.length, h.linked, h.oauth⟩
  | jsonLogin username password =>
    exact h.submit hdrain ⟨r, req, _, hr, rfl, hread, Or.inl rfl⟩
  | formLogin username password =>
    have hcheck : ∀ throttle, ServerInv { s with throttle := throttle } := fun _ =>
      ⟨h.auth, h.length, h.linked, h.oauth⟩
    simp only [ServerState.act]
    split
    · exact ServerInv.submit (hcheck _) hdrain ⟨r, req, _, hr, rfl, hread, Or.inr rfl⟩
    · exact ⟨h.auth, h.length, h.linked, h.oauth⟩
  | proxy wr upstream => exact h
  | googleRedirect =>
    simp only [ServerState.act]
    generalize hredirect : googleRedirect r.env r.google s.oauth req.isSecure r.buf = result
    obtain ⟨oauth, outcome⟩ := result
    have hwithin := h.oauth.redirect hredirect
    cases outcome with
    | ok sent =>
      have hissued : oauth.Within (s.issued ++ [sent.1]) := by simpa [Except.toOption] using hwithin
      exact ⟨h.auth, h.length, h.linked, hissued⟩
    | error reply =>
      have hissued : oauth.Within s.issued := by simpa [Except.toOption] using hwithin
      exact ⟨h.auth, h.length, h.linked, hissued⟩
  | googleCallback code state =>
    have htable : ServerInv
        { s with oauth := (googleCallback r.env r.google s.oauth code state).1 } :=
      ⟨h.auth, h.length, h.linked, h.oauth.callback code state⟩
    exact htable.finish i r _ _
  | googleLogin email => exact h.finish i r _ _
  | renew username => exact ⟨h.auth, h.length, h.linked, h.oauth⟩
  | daemon username uid => exact h

theorem ServerInv.request (h : ServerInv s) (r : ClientRequest) :
    ServerInv { s with requests := s.requests ++ [r] } :=
  ⟨h.auth, h.length, h.linked.request r, h.oauth⟩

theorem ServerInv.step (h : ServerInv s) (e : ServerEvent) : ServerInv (serverStep s e) := by
  cases e with
  | request r =>
    simp only [serverStep]
    split
    · exact h
    next hdrain =>
      rw [Bool.not_eq_true] at hdrain
      split
      next req action hread => exact (h.request r).act hdrain (by simp) hread
      · exact h.request r
  | queue e hmac now writable =>
    cases e with
    | login sub created => exact h
    | pam | finish | notify | wake | drain => exact h.deliver (by simp) hmac now writable

/-! ### What is sent is grounded -/

theorem SessionsGrounded.send (h : SessionsGrounded s) (hr : s.requests[i]? = some r)
    {answer : Answer} (hanswer : ∀ username reply, answer = .session username reply →
      Grounded s i r username) : SessionsGrounded (s.send i r answer) := by
  have hext := Extends.send s i r answer
  intro m hm
  rcases List.mem_append.mp hm with hold | hnew
  · exact (h m hold).mono hext
  · obtain rfl : m = ⟨i, r.clientFd, answer⟩ := List.mem_singleton.mp hnew
    intro username reply heq
    exact ⟨r, hr, rfl, (hanswer username reply heq).mono hext⟩

/-- **The answers of the queue are grounded**: a session is the answer to a submission whose
credentials PAM accepted, and the submission is that of a request. -/
theorem SessionsGrounded.deliver (h : SessionsGrounded s) {e : AuthEvent}
    (hauth : AuthInv s.auth)
    (hlinked : Linked s.requests s.submitted (authStep s.auth e).handed)
    (hmac : Bytes → Digest) (now : ℤ) (writable : Bool) :
    SessionsGrounded (s.deliver (authStep s.auth e) hmac now writable) := by
  have hext := Extends.deliver s e hmac now writable
  intro m hm
  rcases List.mem_append.mp hm with hold | hnew
  · exact (h m hold).mono hext
  obtain ⟨⟨number, fd, reply⟩, hreply, rfl⟩ := List.mem_map.mp hnew
  intro username sent heq
  obtain ⟨sub, hsub, rfl, hown⟩ := (hauth.step e).own number fd reply (List.mem_of_mem_drop hreply)
  obtain ⟨i, r, req, action, hi, hr, hfd, hread, haction⟩ := hlinked number sub hsub
  obtain ⟨huser, hpass⟩ := fit_credentials hread haction
  have hnumber : s.submitted.getD number 0 = i := by simp [hi]
  refine ⟨r, by rwa [hnumber], hfd, ?_⟩
  split_ifs at hown
  · obtain ⟨-, rfl⟩ := hown
    exact absurd heq (by simp [AuthReply.answer])
  · obtain ⟨verdict, hverdict, rfl⟩ := hown
    rw [huser, hpass] at hverdict
    cases verdict with
    | false =>
      -- a refused password is answered, but with no session
      cases hjson : sub.isJsonApi <;> simp [Submission.reply, AuthReply.answer, hjson] at heq
    | true =>
      obtain rfl : sub.username = username := by
        simp only [Submission.reply, if_true, AuthReply.answer, Answer.session.injEq] at heq
        exact huser.symm.trans heq.1
      exact .password req action number sub.password hread haction (by rwa [hnumber]) hverdict

theorem SessionsGrounded.submit (h : SessionsGrounded s) (hinv : ServerInv s)
    (hdrain : s.auth.draining = false) (hasks : Asks s.requests i sub) :
    SessionsGrounded (s.submit i r sub) := by
  have hfirst : SessionsGrounded { s with submitted := s.submitted ++ [i] } :=
    h.of_sent_eq { Extends.refl s with submitted := List.prefix_append _ _ } rfl
  exact hfirst.deliver hinv.auth (hinv.linked_submit hdrain hasks _) r.env.hmac r.signedAt false

theorem SessionsGrounded.finish (h : SessionsGrounded s) (hr : s.requests[i]? = some r)
    (isSecure : Bool) {user : Except HttpReply Passwd}
    (huser : ∀ pw, user = .ok pw → Grounded s i r pw.name) :
    SessionsGrounded (s.finish i r isSecure user) := by
  cases user with
  | ok pw =>
    refine h.send hr fun username reply heq => ?_
    obtain rfl : pw.name = username := (Answer.session.inj heq).1
    exact huser pw rfl
  | error reply => exact h.send hr fun username reply heq => by simp at heq

/-- **What is done with a request is grounded**, unless it takes an address for granted. -/
theorem SessionsGrounded.act (h : SessionsGrounded s) (hinv : ServerInv s)
    (hdrain : s.auth.draining = false) (hr : s.requests[i]? = some r)
    (hread : r.read = some (req, action))
    (hbacked : ∀ email pw, action = .googleLogin email → boundUser r.env r.google email = some pw →
      r.CarriesToken pw.name) : SessionsGrounded (s.act i r req action) := by
  cases action with
  | reply reply => exact h.send hr fun username reply heq => by simp at heq
  | jsonLogin username password =>
    exact h.submit hinv hdrain ⟨r, req, _, hr, rfl, hread, Or.inl rfl⟩
  | formLogin username password =>
    have hcheck : ∀ throttle, SessionsGrounded { s with throttle := throttle } := fun _ =>
      h.of_sent_eq { Extends.refl s with } rfl
    have hkept : ∀ throttle, ServerInv { s with throttle := throttle } := fun _ =>
      ⟨hinv.auth, hinv.length, hinv.linked, hinv.oauth⟩
    simp only [ServerState.act]
    split
    · exact SessionsGrounded.submit (hcheck _) (hkept _) hdrain
        ⟨r, req, _, hr, rfl, hread, Or.inr rfl⟩
    · refine SessionsGrounded.send (hcheck _) ?_ fun username reply heq => ?_
      · exact hr
      · simp at heq
  | proxy wr upstream => exact h
  | googleRedirect =>
    simp only [ServerState.act]
    split
    · next state reply _ =>
      have hissue : SessionsGrounded { s with
          oauth := (googleRedirect r.env r.google s.oauth req.isSecure r.buf).1
          issued := s.issued ++ [state] } :=
        h.of_sent_eq { Extends.refl s with issued := List.prefix_append _ _ } rfl
      exact hissue.send hr fun username reply heq => by simp at heq
    · next reply _ =>
      have htable : SessionsGrounded { s with
          oauth := (googleRedirect r.env r.google s.oauth req.isSecure r.buf).1 } :=
        h.of_sent_eq { Extends.refl s with } rfl
      exact htable.send hr fun username reply heq => by simp at heq
  | googleCallback code state =>
    have hext : Extends s
        { s with oauth := (googleCallback r.env r.google s.oauth code state).1 } :=
      { Extends.refl s with }
    refine (h.of_sent_eq hext rfl).finish hr req.isSecure fun pw hpw => ?_
    obtain ⟨slot, huse, rfl, hage, email, hemail, hbound⟩ := googleCallback_eq_ok hpw
    exact (Grounded.callback req code (s.oauth slot) email pw hread (hinv.oauth slot huse) hage
      hemail hbound rfl).mono hext
  | googleLogin email =>
    refine h.finish hr req.isSecure fun pw hpw => ?_
    exact .token (hbacked email pw rfl (loginAs_eq_ok_iff.mp hpw))
  | renew username =>
    refine h.send hr fun username' reply heq => ?_
    obtain rfl : username = username' := (Answer.session.inj heq).1
    obtain ⟨token, uid, expVal, htoken, hverify⟩ := backed_of_routeCompleteRequest hread
    exact .token ⟨req, .renew username, token, uid, expVal, hread, htoken, hverify⟩
  | daemon username uid => exact h

/-- **A step that meets the condition sends no session without grounds.** -/
theorem SessionsGrounded.step (h : SessionsGrounded s) (hinv : ServerInv s) {e : ServerEvent}
    (hbacked : EmailBacked s e) : SessionsGrounded (serverStep s e) := by
  cases e with
  | request r =>
    simp only [serverStep]
    split
    · exact h
    next hdrain =>
      rw [Bool.not_eq_true] at hdrain
      have hnew : SessionsGrounded { s with requests := s.requests ++ [r] } :=
        h.of_sent_eq { Extends.refl s with requests := List.prefix_append _ _ } rfl
      split
      next req action hread =>
        refine hnew.act (hinv.request r) hdrain (by simp) hread fun email pw haction hbound => ?_
        subst haction
        exact hbacked hdrain req email pw hread hbound
      · exact hnew
  | queue e hmac now writable =>
    cases e with
    | login sub created => exact h
    | pam | finish | notify | wake | drain =>
      refine h.deliver hinv.auth ?_ hmac now writable
      rw [(record_authStep _ _).1]
      simpa using hinv.linked

/-! ### And nothing else gets a session -/

/-- **A session that a request got by naming an address has no grounds but a token.** -/
theorem carriesToken_of_grounded {email username : Bytes}
    (hread : r.read = some (req, .googleLogin email)) (h : Grounded s i r username) :
    r.CarriesToken username := by
  cases h with
  | password req' action number password read credentials submitted verdict =>
    obtain ⟨rfl, rfl⟩ := Prod.mk.inj (Option.some.inj (hread.symm.trans read))
    rcases credentials with h | h <;> simp at h
  | callback req' code state email' pw read issued unexpired verified bound name =>
    obtain ⟨-, h⟩ := Prod.mk.inj (Option.some.inj (hread.symm.trans read))
    simp at h
  | token carries => exact carries

theorem sent_googleLogin {email : Bytes} {pw : Passwd} (hdrain : s.auth.draining = false)
    (hread : r.read = some (req, .googleLogin email))
    (hbound : boundUser r.env r.google email = some pw) :
    ⟨s.requests.length, r.clientFd, .session pw.name
      (sendLoginSuccessEx r.env.hmac r.signedAt pw.name req.isSecure false)⟩ ∈
        (serverStep s (.request r)).sent := by
  have hlogin : googleLogin r.env r.google email = .ok pw := loginAs_eq_ok_iff.mpr hbound
  simp [serverStep, hdrain, hread, ServerState.act, hlogin, ServerState.finish, ServerState.send]

theorem requests_request (hdrain : s.auth.draining = false) :
    (serverStep s (.request r)).requests[s.requests.length]? = some r := by
  have hext : Extends { s with requests := s.requests ++ [r] } (serverStep s (.request r)) := by
    simp only [serverStep, hdrain, Bool.false_eq_true, if_false]
    split
    · exact Extends.act _ _ _ _ _
    · exact Extends.refl _
  refine getElem?_of_isPrefix hext.requests ?_
  simp

theorem meets_emailBacked (s : ServerState) (es : List ServerEvent)
    (h : SessionsGrounded (run serverStep s es)) : Meets serverStep EmailBacked s es := by
  induction es generalizing s with
  | nil => trivial
  | cons e es ih =>
    refine ⟨?_, ih _ h⟩
    cases e with
    | queue => trivial
    | request r =>
      intro hdrain req email pw hread hbound
      have hext := Extends.run (serverStep s (.request r)) es
      have hsent := sent_googleLogin hdrain hread hbound
      obtain ⟨r', hr', -, hground⟩ := h _ (hext.sent.subset hsent) _ _ rfl
      -- the request with the number of the session is this one
      have hnew := getElem?_of_isPrefix hext.requests (requests_request hdrain)
      obtain rfl : r = r' := Option.some.inj (hnew.symm.trans hr')
      exact carriesToken_of_grounded hread hground

end Step

section Sample

/-- The surroundings of a gateway on which nothing is configured but the binding of one
address. -/
def sampleGoogle : Google where
  clientId := none
  clientSecret := none
  authUri := none
  tokenUri := none
  driveScope := none
  random := Vector.replicate 32 0
  token _ _ := .failed
  userinfo _ := .failed
  bindings := some (lit "\x7b\"bob@example.org\":\"bob\"\x7d")
  stack := []

def sampleEmailRequest : ClientRequest where
  env := ⟨sampleHmac, sampleUsers, 1700000000, false, []⟩
  google := sampleGoogle
  routes := []
  buf := lit "POST /auth/login/google HTTP/1.1\r\n\r\ngoogle_email=bob@example.org"
  clientFd := 7
  peerIp := 0
  created := true
  signedAt := 1700000000

theorem sampleEmailRequest_read : sampleEmailRequest.read =
    some (⟨lit "POST", lit "/auth/login/google", [], lit "google_email=bob@example.org", false⟩,
      .googleLogin (lit "bob@example.org")) := by
  unfold ClientRequest.read routeCompleteRequest parseRequest endpoint HttpRequest.isAt
    sampleEmailRequest
  repeat rw [lit_ofList]
  decide

theorem sampleGoogle_bound : boundUser sampleEmailRequest.env sampleGoogle (lit "bob@example.org") =
    some sampleUser := by
  rw [boundUser, sampleGoogle, lit_ofList, lit_ofList]
  decide +kernel

end Sample

end OpenCms.Gateway
