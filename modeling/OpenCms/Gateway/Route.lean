import OpenCms.Gateway.Http
import OpenCms.Gateway.Token
import OpenCms.Gateway.WebRoutes

/-!
# The dispatcher

`route_complete_request` asks one question after another: the endpoints of the gateway's
own login come first, then the web routes, then the rest of its own endpoints, and what is
left goes to the daemon of the user whose token the request carries, or to the login page.

`OpenCms.Gateway.endpoint` is the outcome of these questions. It looks at the method, the
path and whether there is a token, and at nothing else of the request; what the endpoint
then does with the cookie and the body is `OpenCms.Gateway.Endpoint.action`. The endpoints
for session, login and logout are asked for a second time behind the web routes in the
source, where no request gets that was taken by the first.
-/

namespace OpenCms.Gateway

/-! ### The surroundings -/

/-- What the dispatcher is given besides the request and the route table. -/
structure Env where
  /-- The digest under the loaded secret. -/
  hmac : Bytes → Digest
  getpwnam : Bytes → Option Passwd
  /-- `time(NULL)`. -/
  now : ℤ
  /-- `g_force_secure`. -/
  forceSecure : Bool
  /-- `g_login_html`. -/
  loginHtml : Bytes

/-! ### Fixed replies -/

def jsonType : Option Bytes := some (lit "application/json")

def textType : Option Bytes := some (lit "text/plain")

def htmlType : Option Bytes := some (lit "text/html; charset=utf-8")

/-- The line that forbids to keep a reply. -/
def noStore : Bytes := lit "Cache-Control: no-store\r\n"

def clearCookie : Bytes := lit "Set-Cookie: oc_jwt=; Path=/; Max-Age=0\r\n"

def serveLoginPage (env : Env) : HttpReply := .ofBody 200 (lit "OK") htmlType [] env.loginHtml

def sessionReply : HttpReply :=
  .ofBody 200 (lit "OK") jsonType noStore (lit "\x7b\"enabled\":false,\"authenticated\":true\x7d")

def missingCredentials : HttpReply :=
  .ofBody 400 (lit "Bad Request") jsonType []
    (lit "\x7b\"error\":\"Missing username or password\"\x7d")

def logoutReply : HttpReply :=
  .ofBody 303 (lit "See Other") none (noStore ++ clearCookie ++ lit "Location: /\r\n") []

def prefixRedirect (wr : WebRoute) : HttpReply :=
  .ofBody 301 (lit "Moved Permanently") none
    (fit 300 (lit "Location: " ++ wr.pathPrefix ++ lit "/\r\n")) []

/-- The answer to a request for data without a token, one byte short. -/
def unauthorizedReply : HttpReply :=
  ⟨401, lit "Unauthorized", jsonType, [], lit "\x7b\"error\":\"unauthorized\"\x7d", 23⟩

def healthReply : HttpReply :=
  ⟨200, lit "OK", jsonType, [], lit "\x7b\"healthy\":true,\"gateway\":true\x7d", 31⟩

def freshReply : HttpReply := ⟨204, lit "No Content", none, [], [], 0⟩

def clearReply : HttpReply :=
  .ofBody 401 (lit "Unauthorized") htmlType (noStore ++ clearCookie)
    (lit "<!DOCTYPE html><html><head><meta charset=\"utf-8\"><script>" ++
      lit "document.cookie=\"oc_jwt=; Path=/; Max-Age=0\";window.location.replace(\"/\");" ++
      lit "</script></head><body></body></html>")

def apiReply : HttpReply :=
  .ofBody 401 (lit "Unauthorized") jsonType noStore
    (lit "\x7b\"error\":\"unauthorized\",\"message\":\"Authentication required\"\x7d")

def deniedReply : HttpReply :=
  .ofBody 403 (lit "Forbidden") (some (lit "text/html")) []
    (lit "<html><body style='font-family:system-ui;text-align:center;padding:60px'>" ++
      lit "<h2>Authorization denied</h2><p><a href='/'>Back to login</a></p></body></html>")

def missingCode : HttpReply :=
  ⟨400, lit "Bad Request", textType, [], lit "Missing code or state", 21⟩

/-- A Google login without its field, and the zero byte behind the text. -/
def missingEmail : HttpReply :=
  ⟨400, lit "Bad Request", textType, [], lit "Missing google_email", 21⟩

/-! ### Reading the request -/

/-- The token in the cookies: what stands between `oc_jwt=` and the next semicolon. -/
def jwtCookie (cookie : Bytes) : Option Bytes :=
  (strstr cookie (lit "oc_jwt=")).map fun p => (p.drop 7).takeWhile (· != 59)

def cookieUser (env : Env) (cookie : Bytes) : Option (Bytes × ℕ) :=
  (jwtCookie cookie).bind (jwtVerify env.hmac env.getpwnam env.now)

def jsonCredentials (body : Bytes) : Option (Bytes × Bytes) := do
  let body := cstr body
  let json : Option (Bytes × Bytes) :=
    if (strstr body (lit "\"username\"")).isSome then do
      let user ← jsonExtractString body (lit "username") 256
      let pass ← jsonExtractString body (lit "password") 256
      return (user, pass)
    else none
  let form : Option (Bytes × Bytes) := do
    let user ← formExtractValue body (lit "username") 256
    let pass ← formExtractValue body (lit "password") 256
    return (user, pass)
  let (user, pass) ← json.orElse fun _ => form
  if user = [] then none else some (user, pass)

def formCredentials (body : Bytes) : Option (Bytes × Bytes) :=
  let user := (formExtractValue (cstr body) (lit "username") 256).getD []
  let pass := (formExtractValue (cstr body) (lit "password") 256).getD []
  if user = [] ∨ pass = [] then none else some (user, pass)

def googleEmail (body : Bytes) : Option Bytes :=
  (formExtractValue (cstr body) (lit "google_email") 256).bind fun email =>
    if email = [] then none else some email

/-! ### Endpoints -/

inductive Endpoint
  | session
  | jsonLogin
  | logout
  | webRoute (wr : WebRoute)
  | health
  | googleRedirect
  | googleCallback
  | googleLogin
  | formLogin
  | renew
  | daemon
  | api
  | page
  deriving DecidableEq

def HttpRequest.isAt (req : HttpRequest) (path : Bytes) : Bool :=
  req.path == path || req.path == lit "/api/v2" ++ path

/-- The questions of `route_complete_request`, in its order. -/
def endpoint (routes : List WebRoute) (req : HttpRequest) : Endpoint :=
  if req.isAt (lit "/global/auth/session") then .session
  else if req.isAt (lit "/global/auth/login") && req.method == lit "POST" then .jsonLogin
  else if req.isAt (lit "/global/auth/logout") then .logout
  else
    match matchWebRoute routes req.path with
    | some wr => .webRoute wr
    | none =>
      if req.method == lit "GET" && req.path == lit "/api/v2/global/health" then .health
      else if req.method == lit "GET" && req.path == lit "/auth/login/google" then .googleRedirect
      else if req.method == lit "GET" && (lit "/auth/google/callback").isPrefixOf req.path then
        .googleCallback
      else if req.method == lit "POST" && req.path == lit "/auth/login/google" then .googleLogin
      else if req.method == lit "POST" && req.path == lit "/auth/login" then .formLogin
      else if req.method == lit "GET" && req.isAt (lit "/auth/renew") then .renew
      else if (jwtCookie req.cookie).isSome then .daemon
      else if (lit "/api/").isPrefixOf req.path || (lit "/pty/").isPrefixOf req.path then .api
      else .page

/-! ### Actions -/

inductive Action
  /-- The reply is sent and the socket closed. -/
  | reply (r : HttpReply)
  /-- The password goes to PAM. -/
  | jsonLogin (username password : Bytes)
  /-- The same, if the address is not rate-limited. -/
  | formLogin (username password : Bytes)
  /-- The bytes go to the route's backend, unless they cannot be rewritten. -/
  | proxy (wr : WebRoute) (upstream : Option Bytes)
  | googleRedirect
  | googleCallback (code state : Bytes)
  | googleLogin (email : Bytes)
  /-- A new token for the user of a valid one. -/
  | renew (username : Bytes)
  /-- The bytes go to the user's daemon. -/
  | daemon (username : Bytes) (uid : ℕ)
  deriving DecidableEq

def publicUdsLanding (wr : WebRoute) (method path : Bytes) : Bool :=
  wr.type == .uds && method == lit "GET" && path.length == wr.pathPrefix.length + 1 &&
    path[wr.pathPrefix.length]? == some 47

def admits (env : Env) (wr : WebRoute) (req : HttpRequest) : Bool :=
  wr.authRequired == 0 || publicUdsLanding wr req.method req.path ||
    (cookieUser env req.cookie).isSome

def pendingBufSize : ℕ := 8192

def webRouteAction (env : Env) (wr : WebRoute) (req : HttpRequest) (raw : Bytes) : Action :=
  if req.path.length = wr.pathPrefix.length then .reply (prefixRedirect wr)
  else if admits env wr req then
    .proxy wr (buildUpstreamRequest raw wr.pathPrefix (wr.type == .uds) pendingBufSize)
  else if wr.pathPrefix.isPrefixOf req.path && (strstr req.path (lit "/api/")).isSome then
    .reply unauthorizedReply
  else .reply (serveLoginPage env)

def callbackAction (path : Bytes) : Action :=
  let code := (queryExtractValue path (lit "code") 512).getD []
  let state := (queryExtractValue path (lit "state") 128).getD []
  let error := (queryExtractValue path (lit "error") 256).getD []
  if error ≠ [] then .reply deniedReply
  else if code = [] ∨ state = [] then .reply missingCode
  else .googleCallback code state

/-- The renewal of a token: a new one is given in the second half of its life. -/
def renewAction (env : Env) (cookie : Bytes) : Action :=
  match (jwtCookie cookie).bind (jwtVerifyEx env.hmac env.getpwnam env.now) with
  | some (username, _, exp) =>
    let issuedAt := exp - jwtExpSeconds
    if issuedAt + jwtExpSeconds / 2 ≤ env.now then .renew username else .reply freshReply
  | none => .reply unauthorizedReply

def Endpoint.action (env : Env) (req : HttpRequest) (raw : Bytes) : Endpoint → Action
  | .session => .reply sessionReply
  | .jsonLogin =>
    match jsonCredentials req.body with
    | some (username, password) => .jsonLogin username password
    | none => .reply missingCredentials
  | .logout => .reply logoutReply
  | .webRoute wr => webRouteAction env wr req raw
  | .health => .reply healthReply
  | .googleRedirect => .googleRedirect
  | .googleCallback => callbackAction req.path
  | .googleLogin =>
    match googleEmail req.body with
    | some email => .googleLogin email
    | none => .reply missingEmail
  | .formLogin =>
    match formCredentials req.body with
    | some (username, password) => .formLogin username password
    | none => .reply (serveLoginPage env)
  | .renew => renewAction env req.cookie
  | .daemon =>
    match cookieUser env req.cookie with
    | some (username, uid) => .daemon username uid
    | none => .reply clearReply
  | .api => .reply apiReply
  | .page => .reply (serveLoginPage env)

/-- `route_complete_request`, up to what it does with the world: the request it read and
the action it takes. A request that cannot be read is dropped. -/
def routeCompleteRequest (env : Env) (routes : List WebRoute) (buf : Bytes) :
    Option (HttpRequest × Action) :=
  (parseRequest env.forceSecure buf).map fun req =>
    (req, (endpoint routes req).action env req buf)

/-! ### What an action rests on -/

theorem length_jsonCredentials_lt {body username password : Bytes}
    (h : jsonCredentials body = some (username, password)) :
    username.length < 256 ∧ password.length < 256 := by
  simp only [jsonCredentials, Option.bind_eq_bind, Option.bind_eq_some_iff, Option.pure_def] at h
  obtain ⟨⟨user, pass⟩, hread, h⟩ := h
  split at h
  · simp at h
  obtain ⟨rfl, rfl⟩ : user = username ∧ pass = password := by simpa using h
  rw [← Option.orElse_eq_orElse, Option.orElse_eq_some] at hread
  rcases hread with hjson | ⟨-, hform⟩
  · split at hjson
    · simp only [Option.bind_eq_some_iff, Option.some.injEq, Prod.mk.injEq] at hjson
      obtain ⟨u, hu, p, hp, rfl, rfl⟩ := hjson
      exact ⟨(jsonExtractString_spec hu).2.2, (jsonExtractString_spec hp).2.2⟩
    · simp at hjson
  · simp only [Option.bind_eq_some_iff, Option.some.injEq, Prod.mk.injEq] at hform
    obtain ⟨u, hu, p, hp, rfl, rfl⟩ := hform
    exact ⟨length_formExtractValue_lt (by decide) hu, length_formExtractValue_lt (by decide) hp⟩

theorem length_formCredentials_lt {body username password : Bytes}
    (h : formCredentials body = some (username, password)) :
    username.length < 256 ∧ password.length < 256 := by
  have hfield : ∀ field, ((formExtractValue (cstr body) field 256).getD []).length < 256 := by
    intro field
    cases hv : formExtractValue (cstr body) field 256 with
    | none => simp
    | some v => exact length_formExtractValue_lt (by decide) hv
  simp only [formCredentials] at h
  split at h
  · simp at h
  obtain ⟨rfl, rfl⟩ := Prod.mk.inj (Option.some.inj h)
  exact ⟨hfield _, hfield _⟩

/-- **What the request has that the action rests on**: the credentials that are handed to
PAM are in its body, and the user of a renewal is the one of a valid token in its cookies. -/
def Action.Backed (env : Env) (req : HttpRequest) : Action → Prop
  | .jsonLogin username password => jsonCredentials req.body = some (username, password)
  | .formLogin username password => formCredentials req.body = some (username, password)
  | .renew username => ∃ token uid expVal, jwtCookie req.cookie = some token ∧
      jwtVerifyEx env.hmac env.getpwnam env.now token = some (username, uid, expVal)
  | _ => True

theorem backed_webRouteAction (env : Env) (wr : WebRoute) (req : HttpRequest) (raw : Bytes) :
    (webRouteAction env wr req raw).Backed env req := by
  rw [webRouteAction]
  split_ifs <;> trivial

theorem backed_callbackAction (env : Env) (req : HttpRequest) :
    (callbackAction req.path).Backed env req := by
  simp only [callbackAction]
  split_ifs <;> trivial

theorem backed_renewAction (env : Env) (req : HttpRequest) :
    (renewAction env req.cookie).Backed env req := by
  rw [renewAction]
  split
  · next username uid expVal hverify =>
    simp only
    split_ifs
    · obtain ⟨token, htoken, hv⟩ := Option.bind_eq_some_iff.mp hverify
      exact ⟨token, uid, expVal, htoken, hv⟩
    · trivial
  · trivial

/-- **Every action of every endpoint is backed by its request.** -/
theorem Endpoint.backed_action (env : Env) (req : HttpRequest) (raw : Bytes) (ep : Endpoint) :
    (ep.action env req raw).Backed env req := by
  cases ep with
  | jsonLogin | formLogin =>
    rw [Endpoint.action]
    split
    · assumption
    · trivial
  | webRoute wr => exact backed_webRouteAction env wr req raw
  | googleCallback => exact backed_callbackAction env req
  | renew => exact backed_renewAction env req
  | googleLogin | daemon =>
    rw [Endpoint.action]
    split <;> trivial
  | session | logout | health | googleRedirect | api | page => trivial

theorem backed_of_routeCompleteRequest {env : Env} {routes : List WebRoute} {buf : Bytes}
    {req : HttpRequest} {action : Action}
    (h : routeCompleteRequest env routes buf = some (req, action)) : action.Backed env req := by
  obtain ⟨req', -, heq⟩ := Option.map_eq_some_iff.mp h
  obtain ⟨rfl, rfl⟩ := Prod.mk.inj heq
  exact Endpoint.backed_action env req' buf _

/-! ### What an endpoint looks at -/

theorem endpoint_congr {routes : List WebRoute} {req req' : HttpRequest}
    (hmethod : req'.method = req.method) (hpath : req'.path = req.path)
    (hcookie : req'.cookie = req.cookie) : endpoint routes req' = endpoint routes req := by
  obtain ⟨method, path, cookie, body, isSecure⟩ := req
  obtain ⟨method', path', cookie', body', isSecure'⟩ := req'
  obtain ⟨rfl, rfl, rfl⟩ : method' = method ∧ path' = path ∧ cookie' = cookie :=
    ⟨hmethod, hpath, hcookie⟩
  rfl

end OpenCms.Gateway
