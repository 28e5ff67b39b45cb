import OpenCms.Gateway.Route

/-!
# Logins with Google

A login with Google takes two requests. The first is answered with a redirect that carries
a random state, which the gateway keeps for five minutes in a table of 64
(`OpenCms.Gateway.googleRedirect`). The second comes back with the state and a code: the
gateway takes the state out of its table, exchanges the code for a token, asks Google with
the token for the address of the account, and looks the address up in its registry of
bindings (`OpenCms.Gateway.googleCallback`). A third endpoint looks up an address that the
request itself names (`OpenCms.Gateway.googleLogin`).

What the handlers return is the user of the login, or the reply that refuses it. What Google
and the environment answer is part of the request's surroundings, `OpenCms.Gateway.Google`.
-/

namespace OpenCms.Gateway

/-! ### The surroundings -/

inductive CurlResult
  /-- `curl_easy_init` returns nothing. -/
  | noHandle
  /-- `curl_easy_perform` fails. -/
  | failed
  /-- The body, in the pieces the callback is given. -/
  | body (chunks : List Bytes)

/-- The environment variables, the random bytes, the answers of Google and the registry. -/
structure Google where
  /-- `GOOGLE_CALENDAR_CLIENT_ID`. -/
  clientId : Option Bytes
  /-- `GOOGLE_CALENDAR_CLIENT_SECRET`. -/
  clientSecret : Option Bytes
  /-- `GOOGLE_CALENDAR_AUTH_URI`. -/
  authUri : Option Bytes
  /-- `GOOGLE_CALENDAR_TOKEN_URI`. -/
  tokenUri : Option Bytes
  /-- `OPENCODE_GDRIVE_SCOPE`. -/
  driveScope : Option Bytes
  /-- `RAND_bytes`. -/
  random : Vector Byte 32
  /-- The answer to a form that is posted to an address. -/
  token : Bytes → Bytes → CurlResult
  /-- The answer to a request for the account, by its `Authorization` line. -/
  userinfo : Bytes → CurlResult
  /-- The registry of bindings, if it opens. -/
  bindings : Option Bytes
  /-- What stands behind the copy of the request on the stack, which has no terminator. -/
  stack : Bytes

/-! ### States -/

def oauthStateTableSize : ℕ := 64

def oauthStateTtl : ℤ := 300

structure OAuthState where
  stateToken : Bytes
  redirectUri : Bytes
  created : ℤ
  inUse : Bool
  deriving DecidableEq

abbrev OAuthTable := Fin oauthStateTableSize → OAuthState

def OAuthTable.init : OAuthTable := fun _ => ⟨[], [], 0, false⟩

def oauthStateAlloc (t : OAuthTable) (now : ℤ) : Option (Fin oauthStateTableSize × OAuthTable) :=
  let free := (List.finRange oauthStateTableSize).find? fun i =>
    !(t i).inUse || decide (oauthStateTtl < now - (t i).created)
  free.map fun i => (i, Function.update t i { t i with inUse := true, created := now })

def oauthStateFree (t : OAuthTable) (i : Fin oauthStateTableSize) : OAuthTable :=
  Function.update t i { t i with inUse := false }

def oauthStateFind (t : OAuthTable) (now : ℤ) (token : Bytes) :
    Option (Fin oauthStateTableSize) × OAuthTable :=
  let found := (List.finRange oauthStateTableSize).find? fun i =>
    (t i).inUse && (t i).stateToken == token
  match found with
  | none => (none, t)
  | some i =>
    if oauthStateTtl < now - (t i).created then (none, oauthStateFree t i) else (some i, t)

def generateStateToken (raw : Vector Byte 32) : Bytes := raw.toList.flatMap (hex2 false)

/-! ### Transfers -/

/-- `curl_write_cb`: a piece that does not fit fails the transfer. -/
def curlWriteCb (cap : ℕ) (data chunk : Bytes) : Option Bytes :=
  if cap ≤ data.length + chunk.length then none else some (data ++ chunk)

/-- `curl_easy_perform` into a buffer. -/
def CurlResult.collect (cap : ℕ) (failure : HttpReply) : CurlResult → Except HttpReply Bytes
  | .noHandle =>
    .error ⟨500, lit "Internal Server Error", textType, [], lit "curl init failed", 16⟩
  | .failed => .error failure
  | .body chunks =>
    match chunks.foldlM (curlWriteCb cap) [] with
    | some data => .ok (cstr data)
    | none => .error failure

def badGateway (text : Bytes) : HttpReply := .ofBody 502 (lit "Bad Gateway") textType [] text

/-! ### The registry -/

def googleBindingLookup (file : Option Bytes) (email : Bytes) (outlen : ℕ) : Option Bytes := do
  let buf := cstr ((← file).take 16383)
  let keypat := quoted email
  if 320 ≤ keypat.length then none
  else
    let p ← strstr buf keypat
    let p ← expect 58 ((p.drop keypat.length).dropWhile isSpace)
    let p ← expect 34 (p.dropWhile isSpace)
    let username ← untilQuote p
    if username = [] ∨ outlen ≤ username.length then none else some username

def boundUser (env : Env) (g : Google) (email : Bytes) : Option Passwd :=
  (googleBindingLookup g.bindings email 256).bind env.getpwnam

def loginAs (env : Env) (g : Google) (unbound : HttpReply) (email : Bytes) :
    Except HttpReply Passwd :=
  match googleBindingLookup g.bindings email 256 with
  | none => .error unbound
  | some username =>
    match env.getpwnam username with
    | none =>
      .error ⟨403, lit "Forbidden", textType, [], lit "Bound Linux user is unavailable", 32⟩
    | some pw => .ok pw

/-! ### The redirect -/

def hostValue (skip : ℕ) (line : Bytes) : Bytes :=
  ((line.drop skip).takeWhile fun c => c != 13 && c != 10).take 255

def requestHost (raw : Bytes) : Bytes :=
  match headerLine (lit "\r\nX-Forwarded-Host: ") (lit "\r\nx-forwarded-host: ") raw with
  | some line => hostValue 20 line
  | none => ((headerLine (lit "\r\nHost: ") (lit "\r\nhost: ") raw).map (hostValue 8)).getD []

def requestProto (isSecure : Bool) (raw : Bytes) : Bytes :=
  let forwarded :=
    match headerLine (lit "\r\nX-Forwarded-Proto: ") (lit "\r\nx-forwarded-proto: ") raw with
    | some line => (line.drop 21).take 5 == lit "https"
    | none => false
  if isSecure || forwarded then lit "https" else lit "http"

def redirectReply (g : Google) (clientId redirectUri stateToken : Bytes) : HttpReply :=
  let authUri := g.authUri.getD (lit "https://accounts.google.com/o/oauth2/auth")
  let driveScope :=
    match g.driveScope with
    | none | some [] => lit "https://www.googleapis.com/auth/drive"
    | some scope => scope
  let location := fit 2048 (authUri ++ lit "?client_id=" ++ clientId ++ lit "&redirect_uri=" ++
    urlEncode redirectUri 600 ++ lit "&response_type=code&scope=openid%20email%20profile%20" ++
    urlEncode driveScope 256 ++ lit "&access_type=offline&include_granted_scopes=true" ++
    lit "&prompt=select_account&state=" ++ stateToken)
  let headers := fit 2200 (lit "Location: " ++ location ++ crlf ++ noStore)
  .ofBody 302 (lit "Found") textType headers (lit "Redirecting to Google")

/-- `GET /auth/login/google`: the table afterwards, and the state that was sent with its
redirect. -/
def googleRedirect (env : Env) (g : Google) (t : OAuthTable) (isSecure : Bool) (raw : Bytes) :
    OAuthTable × Except HttpReply (OAuthState × HttpReply) :=
  match g.clientId with
  | none | some [] =>
    (t, .error (.ofBody 500 (lit "Internal Server Error") textType []
      (lit "GOOGLE_CALENDAR_CLIENT_ID not configured")))
  | some clientId =>
    match oauthStateAlloc t env.now with
    | none =>
      (t, .error (.ofBody 503 (lit "Service Unavailable") textType []
        (lit "OAuth state table full")))
    | some (i, t) =>
      let stateToken := generateStateToken g.random
      let t := Function.update t i { t i with stateToken := stateToken }
      let raw := cstr (raw ++ g.stack)
      let host := requestHost raw
      if host = [] then
        (oauthStateFree t i,
          .error (.ofBody 400 (lit "Bad Request") textType [] (lit "Missing Host header")))
      else
        let redirectUri :=
          fit 512 (requestProto isSecure raw ++ lit "://" ++ host ++ lit "/auth/google/callback")
        let state := { t i with redirectUri := redirectUri }
        (Function.update t i state,
          .ok (state, redirectReply g clientId redirectUri stateToken))

/-! ### The callback -/

def exchangeCode (g : Google) (code callbackUri : Bytes) : Except HttpReply Bytes := do
  let tokenUri := g.tokenUri.getD (lit "https://oauth2.googleapis.com/token")
  match g.clientId, g.clientSecret with
  | some clientId, some clientSecret =>
    let postfields := fit 2048 (lit "code=" ++ urlEncode code 600 ++ lit "&client_id=" ++
      clientId ++ lit "&client_secret=" ++ clientSecret ++ lit "&redirect_uri=" ++
      urlEncode callbackUri 600 ++ lit "&grant_type=authorization_code")
    let tokenBuf ←
      (g.token tokenUri postfields).collect 8191 (badGateway (lit "Token exchange failed"))
    match jsonExtractString tokenBuf (lit "access_token") 2048 with
    | some accessToken => return accessToken
    | none => throw (badGateway (lit "No access token in response"))
  | _, _ =>
    throw ⟨500, lit "Internal Server Error", textType, [],
      lit "OAuth credentials not configured", 31⟩

def fetchEmail (g : Google) (accessToken : Bytes) : Except HttpReply Bytes := do
  let authHeader := fit 2200 (lit "Authorization: Bearer " ++ accessToken)
  let userinfoBuf ← (g.userinfo authHeader).collect 4095 (badGateway (lit "Userinfo fetch failed"))
  match jsonExtractString userinfoBuf (lit "email") 256 with
  | some email => return email
  | none => throw (badGateway (lit "No email in Google response"))

def verifiedEmail (g : Google) (code callbackUri : Bytes) : Except HttpReply Bytes := do
  fetchEmail g (← exchangeCode g code callbackUri)

def unboundPage : HttpReply :=
  .ofBody 403 (lit "Forbidden") (some (lit "text/html")) []
    (lit "<html><body style='font-family:system-ui;text-align:center;padding:60px'>" ++
      lit "<h2>Google identity not bound</h2>" ++
      lit "<p>This Google account is not linked to any Linux user.</p>" ++
      lit "<p>Please log in with your Linux credentials first, " ++
      lit "then bind your Google account in Settings.</p>" ++
      lit "<p><a href='/'>Back to login</a></p></body></html>")

def googleCallback (env : Env) (g : Google) (t : OAuthTable) (code state : Bytes) :
    OAuthTable × Except HttpReply Passwd :=
  match oauthStateFind t env.now state with
  | (none, t) =>
    (t, .error ⟨400, lit "Bad Request", textType, [], lit "Invalid or expired OAuth state", 29⟩)
  | (some i, t) =>
    let callbackUri := fit 512 (t i).redirectUri
    (oauthStateFree t i, do loginAs env g unboundPage (← verifiedEmail g code callbackUri))

/-! ### The address in the request -/

def unboundReply : HttpReply :=
  ⟨403, lit "Forbidden", textType, [], lit "Google identity is not bound to a Linux user", 46⟩

/-- `POST /auth/login/google`, once it has an address. -/
def googleLogin (env : Env) (g : Google) (email : Bytes) : Except HttpReply Passwd :=
  loginAs env g unboundReply email

/-! ### What a login rests on -/

section Grounds

variable {env : Env} {g : Google} {t : OAuthTable}

theorem loginAs_eq_ok_iff {unbound : HttpReply} {email : Bytes} {pw : Passwd} :
    loginAs env g unbound email = .ok pw ↔ boundUser env g email = some pw := by
  rw [loginAs, boundUser]
  cases googleBindingLookup g.bindings email 256 with
  | none => simp
  | some username =>
    cases hpw : env.getpwnam username with
    | none => simp [hpw]
    | some pw' => simp [hpw]

theorem oauthStateFind_eq_some {now : ℤ} {token : Bytes} {i : Fin oauthStateTableSize}
    {t' : OAuthTable} (h : oauthStateFind t now token = (some i, t')) :
    t' = t ∧ (t i).inUse = true ∧ (t i).stateToken = token ∧
      now - (t i).created ≤ oauthStateTtl := by
  rw [oauthStateFind] at h
  split at h
  · simp at h
  next j hj =>
    split at h
    · simp at h
    next hold =>
      obtain ⟨rfl, rfl⟩ : j = i ∧ t = t' := by simpa using h
      have hfound := List.find?_some hj
      rw [Bool.and_eq_true, beq_iff_eq] at hfound
      exact ⟨rfl, hfound.1, hfound.2, not_lt.mp hold⟩

def OAuthTable.Within (t : OAuthTable) (issued : List OAuthState) : Prop :=
  ∀ i, (t i).inUse = true → t i ∈ issued

namespace OAuthTable.Within

variable {issued : List OAuthState} (h : t.Within issued)

include h

theorem free (i : Fin oauthStateTableSize) : (oauthStateFree t i).Within issued := by
  intro j hj
  rw [oauthStateFree] at hj ⊢
  by_cases hji : j = i
  · subst hji
    simp at hj
  · rw [Function.update_of_ne hji] at hj ⊢
    exact h j hj

theorem find (now : ℤ) (token : Bytes) : (oauthStateFind t now token).2.Within issued := by
  rw [oauthStateFind]
  split
  · exact h
  next i _ =>
    split
    · exact h.free i
    · exact h

theorem callback (code state : Bytes) : (googleCallback env g t code state).1.Within issued := by
  have hfind := h.find env.now state
  rw [googleCallback]
  split
  next t' heq =>
    rw [heq] at hfind
    exact hfind
  next i t' heq =>
    rw [heq] at hfind
    exact hfind.free i

theorem fill (i : Fin oauthStateTableSize) (entry : OAuthState) :
    OAuthTable.Within (Function.update t i entry) (issued ++ [entry]) := by
  intro j hj
  by_cases hji : j = i
  · subst hji
    simp
  · rw [Function.update_of_ne hji] at hj ⊢
    exact List.mem_append_left _ (h j hj)

theorem free_update (i : Fin oauthStateTableSize) (entry : OAuthState) :
    (oauthStateFree (Function.update t i entry) i).Within issued := by
  rw [oauthStateFree, Function.update_idem, Function.update_self]
  intro j hj
  by_cases hji : j = i
  · subst hji
    simp at hj
  · rw [Function.update_of_ne hji] at hj ⊢
    exact h j hj

/-- **A redirect puts the state that it sends into the table**, and no other. -/
theorem redirect {isSecure : Bool} {raw : Bytes} {t' : OAuthTable}
    {outcome : Except HttpReply (OAuthState × HttpReply)}
    (hr : googleRedirect env g t isSecure raw = (t', outcome)) :
    t'.Within (issued ++ (outcome.toOption.map Prod.fst).toList) := by
  rw [googleRedirect] at hr
  split at hr
  · obtain ⟨rfl, rfl⟩ := Prod.mk.inj hr
    simpa [Except.toOption] using h
  · obtain ⟨rfl, rfl⟩ := Prod.mk.inj hr
    simpa [Except.toOption] using h
  split at hr
  · obtain ⟨rfl, rfl⟩ := Prod.mk.inj hr
    simpa [Except.toOption] using h
  next i t₁ hslot =>
    obtain ⟨j, -, heq⟩ := Option.map_eq_some_iff.mp hslot
    obtain ⟨rfl, rfl⟩ := Prod.mk.inj heq
    simp only [Function.update_self, Function.update_idem] at hr
    split at hr
    · obtain ⟨rfl, rfl⟩ := Prod.mk.inj hr
      simpa [Except.toOption] using h.free_update j _
    · obtain ⟨rfl, rfl⟩ := Prod.mk.inj hr
      simpa [Except.toOption] using h.fill j _

end OAuthTable.Within

/-- **What a callback rests on**: its state was in the table and has not expired, and Google
vouches for an address that is bound to the user. -/
theorem googleCallback_eq_ok {code state : Bytes} {pw : Passwd}
    (h : (googleCallback env g t code state).2 = .ok pw) :
    ∃ i, (t i).inUse = true ∧ (t i).stateToken = state ∧ env.now - (t i).created ≤ oauthStateTtl ∧
      ∃ email, verifiedEmail g code (fit 512 (t i).redirectUri) = .ok email ∧
        boundUser env g email = some pw := by
  rw [googleCallback] at h
  split at h
  · simp at h
  next i t' hfind =>
    obtain ⟨rfl, huse, htoken, hage⟩ := oauthStateFind_eq_some hfind
    refine ⟨i, huse, htoken, hage, ?_⟩
    cases hemail : verifiedEmail g code (fit 512 (t' i).redirectUri) with
    | error reply => simp [hemail, bind, Except.bind] at h
    | ok email =>
      have hlogin : loginAs env g unboundPage email = .ok pw := by
        simpa [hemail, bind, Except.bind] using h
      exact ⟨email, rfl, loginAs_eq_ok_iff.mp hlogin⟩

end Grounds

end OpenCms.Gateway
