import OpenCms.Gateway.Extract
import OpenCms.Lib.Base64
import Mathlib.Data.Set.Basic

/-!
# Session tokens

A session token is `header.payload.signature`: the payload is a two-field JSON
text that names a user and an expiry, written by `printf` and base64url-encoded
without its fill, and the signature is an HMAC over the two first parts. Reading
one back undoes each of these steps, by hand: the token is cut at its first two
dots, the signature recomputed and compared, the fill restored from the length,
and the two fields are searched for in the text.

The HMAC is a parameter – the digest of a message under the loaded secret – and so
is the user database. What an ideal HMAC promises about a string that is presented
as a token is `OpenCms.Gateway.Unforged`.

The two halves meet in `OpenCms.Gateway.session_tokens_round_trip_and_are_unaltered`:
a token comes back as the name it was signed for until it expires
(`OpenCms.Gateway.jwtVerify_loginToken`), and nothing but a signed header and
payload is ever accepted (`OpenCms.Gateway.jwtVerifyEx_unaltered`).
-/

namespace OpenCms.Gateway

/-! ### The surroundings -/

abbrev Digest := Vector Byte 32

/-- The entry of the user database that `getpwnam` answers. -/
structure Passwd where
  /-- `pw_name`. -/
  name : Bytes
  /-- `pw_uid`. -/
  uid : ℕ
  /-- `pw_gid`. -/
  gid : ℕ
  /-- `pw_dir`. -/
  dir : Bytes
  deriving DecidableEq, Repr

def jwtExpSeconds : ℤ := 7 * 24 * 3600

/-! ### base64url -/

def toUrlChar (c : Byte) : Byte := if c = 43 then 45 else if c = 47 then 95 else c

/-- Back to the standard alphabet. -/
def fromUrlChar (c : Byte) : Byte := if c = 45 then 43 else if c = 95 then 47 else c

def b64urlEncode (s : Bytes) : Bytes := (Base64.unfilled s).map toUrlChar

def b64urlDecode (s : Bytes) (outcap : ℕ) : Option Bytes :=
  let len := s.length
  if 1020 ≤ len then none
  else
    let pad := (4 - len % 4) % 4
    match Base64.decodeBlock (s.map fromUrlChar ++ List.replicate pad Base64.fill) with
    | none => none
    | some out =>
      let actual := out.length - pad
      if outcap ≤ actual then none else some (out.take actual)

/-! ### Signing and verifying -/

def jwtHeader : Bytes := lit "eyJhbGciOiJIUzI1NiIsInR5cCI6IkpXVCJ9"

def jwtMessage (payload : Bytes) : Bytes :=
  fit 1024 (jwtHeader ++ 46 :: b64urlEncode payload)

def jwtSign (hmac : Bytes → Digest) (payload : Bytes) (toklen : ℕ) : Bytes :=
  let msg := jwtMessage payload
  fit toklen (msg ++ 46 :: b64urlEncode (hmac msg).toList)

/-- The three parts of a token, cut at its first two dots; only its first 1023
characters are looked at. -/
def jwtParts (token : Bytes) : Option (Bytes × Bytes × Bytes) := do
  let buf := token.take 1023
  let dot1 ← strchr 46 buf
  let rest := dot1.drop 1
  let dot2 ← strchr 46 rest
  return (buf.take (buf.length - dot1.length), rest.take (rest.length - dot2.length), dot2.drop 1)

def jwtVerifyEx (hmac : Bytes → Digest) (getpwnam : Bytes → Option Passwd) (now : ℤ)
    (token : Bytes) : Option (Bytes × ℕ × ℤ) := do
  let (header, payload, sig64) ← jwtParts token
  if 1024 ≤ header.length + 1 + payload.length then none
  else if b64urlEncode (hmac (header ++ 46 :: payload)).toList ≠ sig64 then none
  else
    let payloadRaw ← b64urlDecode payload 512
    let payloadJson := cstr payloadRaw
    let username ← jsonExtractString payloadJson (lit "sub") 64
    let expVal ← jsonExtractLong payloadJson (lit "exp")
    if expVal ≤ now then none
    else
      let pw ← getpwnam username
      return (username, pw.uid, expVal)

def jwtVerify (hmac : Bytes → Digest) (getpwnam : Bytes → Option Passwd) (now : ℤ)
    (token : Bytes) : Option (Bytes × ℕ) :=
  (jwtVerifyEx hmac getpwnam now token).map fun (username, uid, _) => (username, uid)

/-- The payload `send_login_success_ex` prints. -/
def loginPayload (username : Bytes) (expTime : ℤ) : Bytes :=
  fit 512 (lit "\x7b\"sub\":\"" ++ username ++ lit "\",\"exp\":" ++ decimal expTime ++ lit "\x7d")

def loginToken (hmac : Bytes → Digest) (username : Bytes) (now : ℤ) : Bytes :=
  jwtSign hmac (loginPayload username (now + jwtExpSeconds)) 1024

/-! ### base64url there and back -/

theorem fromUrlChar_toUrlChar (v : ℕ) :
    fromUrlChar (toUrlChar (Base64.sextet v)) = Base64.sextet v := by
  obtain ⟨i, hi, heq⟩ := Base64.sextet_lt v
  rw [heq, Base64.sextet, Base64.alphabet, lit_ofList]
  interval_cases i <;> decide

theorem toUrlChar_sextet_ne_dot (v : ℕ) : toUrlChar (Base64.sextet v) ≠ 46 := by
  obtain ⟨i, hi, heq⟩ := Base64.sextet_lt v
  rw [heq, Base64.sextet, Base64.alphabet, lit_ofList]
  interval_cases i <;> decide

theorem dot_notMem_b64urlEncode (s : Bytes) : (46 : Byte) ∉ b64urlEncode s := by
  intro h
  obtain ⟨c, hc, h46⟩ := List.mem_map.mp h
  obtain ⟨v, rfl⟩ := Base64.mem_unfilled hc
  exact toUrlChar_sextet_ne_dot v h46

theorem length_b64urlEncode_le (s : Bytes) :
    (b64urlEncode s).length ≤ 4 * ((s.length + 2) / 3) := by
  rw [b64urlEncode, List.length_map]
  exact Base64.length_unfilled_le s

/-- **base64url comes back**, if the buffers are large enough. -/
theorem b64urlDecode_b64urlEncode {s : Bytes} {outcap : ℕ}
    (hlen : (b64urlEncode s).length < 1020) (hcap : s.length < outcap) :
    b64urlDecode (b64urlEncode s) outcap = some s := by
  have hmap : (b64urlEncode s).map fromUrlChar = Base64.unfilled s := by
    rw [b64urlEncode, List.map_map]
    refine (List.map_congr_left fun c hc => ?_).trans (List.map_id _)
    obtain ⟨v, rfl⟩ := Base64.mem_unfilled hc
    exact fromUrlChar_toUrlChar v
  have hl : (b64urlEncode s).length = (Base64.unfilled s).length := by
    rw [b64urlEncode, List.length_map]
  obtain ⟨hrefill, hcount⟩ := Base64.refill s
  have hout : (s ++ List.replicate (Base64.fillCount s.length) (0 : Byte)).length
      - Base64.fillCount s.length = s.length := by simp
  rw [hcount] at hrefill
  rw [hl] at hlen
  simp only [b64urlDecode, hmap, hl, hcount, hrefill, Base64.decodeBlock_encode, hout,
    if_neg (not_le.mpr hlen), if_neg (not_le.mpr hcap), List.take_left]

/-! ### The payload there and back -/

section Payload

variable {username : Bytes} {expTime : ℤ}

theorem dropWhile_isJsonBlank_decimal (n : ℤ) (t : Bytes) :
    (decimal n ++ t).dropWhile isJsonBlank = decimal n ++ t := by
  have hdigit : ∀ m, (decimalNat m ++ t).dropWhile isJsonBlank = decimalNat m ++ t := fun m => by
    obtain ⟨c, s, hcs⟩ := List.exists_cons_of_ne_nil (decimalNat_ne_nil m)
    have hc : isDigit c = true := isDigit_of_mem_decimalNat c (by rw [hcs]; simp)
    have hb : isJsonBlank c = false := by
      simp only [isJsonBlank, Bool.or_eq_false_iff, beq_eq_false_iff_ne]
      refine ⟨⟨⟨?_, ?_⟩, ?_⟩, ?_⟩ <;>
        · rintro rfl
          exact absurd hc (by decide)
    simp [hcs, hb]
  cases n with
  | ofNat m => exact hdigit m
  | negSucc m => simp [decimal, isJsonBlank]

/-- The first key of a payload is found at once, and the name behind it is read up
to its closing quote. -/
theorem jsonExtractString_sub (s : Bytes) (outlen : ℕ) :
    jsonExtractString (lit "\x7b\"sub\":\"" ++ s) (lit "sub") outlen
      = (untilQuote s).bind fun v => if v = [] ∨ outlen ≤ v.length then none else some v := by
  have hstr : strstr (lit "\x7b\"sub\":\"" ++ s) (quoted (lit "sub") ++ [58])
      = some (lit "\"sub\":\"" ++ s) := by
    have hsplit : lit "\x7b\"sub\":\"" ++ s = [123] ++ (lit "\"sub\":\"" ++ s) := rfl
    rw [hsplit]
    exact (strstr_append_of_notMem (c := 34) (by decide) _).trans
      (strstr_of_isPrefix ⟨34 :: s, rfl⟩)
  have hdrop : ((lit "\"sub\":\"" ++ s).drop ((lit "sub").length + 3)).dropWhile isJsonBlank
      = 34 :: s := rfl
  simp only [jsonExtractString, hstr, Option.bind_eq_bind, Option.bind_some, hdrop, expect_cons]

/-- The second key is found behind the name: nothing in a name that holds no quote
can be mistaken for it. -/
theorem strstr_exp (hv : (34 : Byte) ∉ username) (rest : Bytes) :
    strstr (lit "\x7b\"sub\":\"" ++ username ++ lit "\",\"exp\":" ++ rest)
      (quoted (lit "exp") ++ [58]) = some (lit "\"exp\":" ++ rest) := by
  have hpat : quoted (lit "exp") ++ [58] = 34 :: lit "exp\":" := rfl
  have hsplit : lit "\x7b\"sub\":\"" ++ username ++ lit "\",\"exp\":" ++ rest
      = [123] ++ (34 :: (lit "sub" ++ (34 :: ([58] ++ (34 :: (username ++
          (34 :: ([44] ++ (lit "\"exp\":" ++ rest))))))))) := by
    simp only [List.append_assoc]
    rfl
  -- a quote opens a match only if `exp":` follows it
  have hquote : ∀ t : Bytes, ¬lit "exp\":" <+: t →
      strstr (34 :: t) (34 :: lit "exp\":") = strstr t (34 :: lit "exp\":") := fun t ht =>
    strstr_cons fun h => ht (List.cons_prefix_cons.mp h).2
  have hcut : ∀ {v b : Bytes}, (34 : Byte) ∉ v → (v = lit "exp" → ∀ c ∈ b.head?, c ≠ 58) →
      ¬lit "exp\":" <+: v ++ 34 :: b := fun {v b} hv hb h => by
    obtain ⟨rfl, hp⟩ := prefix_cut (x := lit "exp") (a := [58]) (by decide) hv h
    cases b with
    | nil => simp at hp
    | cons c b => exact hb rfl c (by simp) (List.cons_prefix_cons.mp hp).1.symm
  have hcomma : ¬lit "exp\":" <+: [44] ++ (lit "\"exp\":" ++ rest) := fun h =>
    absurd (List.cons_prefix_cons.mp h).1 (by decide)
  rw [hpat, hsplit, strstr_append_of_notMem (by decide),
    hquote _ (hcut (by decide) fun h => absurd h (by decide)),
    strstr_append_of_notMem (by decide),
    hquote _ (hcut (by decide) fun h => absurd h (by decide)),
    strstr_append_of_notMem (by decide), hquote _ (hcut hv (by simp)),
    strstr_append_of_notMem hv, hquote _ hcomma, strstr_append_of_notMem (by decide)]
  exact strstr_of_isPrefix ⟨rest, rfl⟩

theorem jsonExtractLong_exp (hv : (34 : Byte) ∉ username) (h1 : longMin ≤ expTime)
    (h2 : expTime ≤ longMax) :
    jsonExtractLong (lit "\x7b\"sub\":\"" ++ username ++ lit "\",\"exp\":" ++
      (decimal expTime ++ lit "\x7d")) (lit "exp") = some expTime := by
  have hdrop : (lit "\"exp\":" ++ (decimal expTime ++ lit "\x7d")).drop ((lit "exp").length + 3)
      = decimal expTime ++ lit "\x7d" := rfl
  have hread : strtol (decimal expTime ++ lit "\x7d") = some (expTime, true) :=
    strtol_decimal h1 h2 fun c hc => by
      obtain rfl : 125 = c := Option.some.inj hc
      decide
  simp only [jsonExtractLong, strstr_exp hv, Option.bind_eq_bind, Option.bind_some, hdrop,
    dropWhile_isJsonBlank_decimal, hread, if_true]

theorem length_decimal_le (h1 : longMin ≤ expTime) (h2 : expTime ≤ longMax) :
    (decimal expTime).length ≤ 20 := by
  unfold longMin at h1
  unfold longMax at h2
  have hnat : ∀ m : ℕ, m < 10 ^ 19 → (decimalNat m).length ≤ 19 := fun m hm =>
    length_decimalNat_le (by omega) hm
  cases expTime with
  | ofNat m =>
    rw [Int.ofNat_eq_natCast] at h2
    have := hnat m (by omega)
    simp only [decimal]
    omega
  | negSucc m =>
    have := hnat (m + 1) (by omega)
    simp only [decimal, List.length_cons]
    omega

theorem loginPayload_eq (hlen : username.length < 64) (h1 : longMin ≤ expTime)
    (h2 : expTime ≤ longMax) :
    loginPayload username expTime = lit "\x7b\"sub\":\"" ++ username ++ lit "\",\"exp\":" ++
      (decimal expTime ++ lit "\x7d") := by
  have hd := length_decimal_le h1 h2
  have ha : (lit "\x7b\"sub\":\"").length = 8 := rfl
  have hb : (lit "\",\"exp\":").length = 8 := rfl
  have hc : (lit "\x7d").length = 1 := rfl
  rw [loginPayload, fit_of_lt]
  · simp only [List.append_assoc]
  · simp only [List.length_append, ha, hb, hc]
    omega

/-- **The `sub` of any payload that was printed**: the name up to its first quote,
however long the name was and wherever the buffer cut it. -/
theorem eq_takeWhile_of_sub {user : Bytes} {outlen : ℕ}
    (h : jsonExtractString (cstr (loginPayload username expTime)) (lit "sub") outlen = some user) :
    user = username.takeWhile (· != 34) := by
  have hlen : (lit "\x7b\"sub\":\"").length = 8 := rfl
  have hfit : loginPayload username expTime = lit "\x7b\"sub\":\"" ++
      (username ++ 34 :: (lit ",\"exp\":" ++ (decimal expTime ++ lit "\x7d"))).take 503 := by
    have happ : lit "\x7b\"sub\":\"" ++ username ++ lit "\",\"exp\":" ++ decimal expTime ++
        lit "\x7d" = lit "\x7b\"sub\":\"" ++ (username ++ 34 :: (lit ",\"exp\":" ++
          (decimal expTime ++ lit "\x7d"))) := by
      simp only [List.append_assoc]
      rfl
    rw [loginPayload, fit, happ, List.take_append, List.take_of_length_le (by omega), hlen]
  rw [hfit, cstr_append (by decide), jsonExtractString_sub, Option.bind_eq_some_iff] at h
  obtain ⟨v, hv, h⟩ := h
  split at h
  · simp at h
  obtain rfl : v = user := by simpa using h
  obtain ⟨hquote, t, ht⟩ := untilQuote_eq_some hv
  have hprefix : v ++ 34 :: t <+:
      username ++ 34 :: (lit ",\"exp\":" ++ (decimal expTime ++ lit "\x7d")) := by
    rw [← ht]
    exact (cstr_isPrefix _).trans (List.take_prefix _ _)
  rw [← takeWhile_of_isPrefix hquote hprefix, takeWhile_append_sep]

theorem length_loginPayload_le (username : Bytes) (expTime : ℤ) :
    (loginPayload username expTime).length ≤ 511 := by
  rw [loginPayload, fit, List.length_take]
  omega

theorem length_jwtHeader : jwtHeader.length = 36 := by
  rw [jwtHeader, lit_ofList]
  rfl

theorem jwtMessage_loginPayload (username : Bytes) (expTime : ℤ) :
    jwtMessage (loginPayload username expTime)
      = jwtHeader ++ 46 :: b64urlEncode (loginPayload username expTime) := by
  have hp := length_loginPayload_le username expTime
  have he := length_b64urlEncode_le (loginPayload username expTime)
  have hh := length_jwtHeader
  rw [jwtMessage, fit_of_lt]
  rw [List.length_append, List.length_cons, hh]
  omega

end Payload

/-! ### The parts of a token -/

theorem dot_notMem_jwtHeader : (46 : Byte) ∉ jwtHeader := by
  rw [jwtHeader, lit_ofList]
  decide

theorem jwtParts_append {header payload sig : Bytes} (hh : (46 : Byte) ∉ header)
    (hp : (46 : Byte) ∉ payload) (hlen : (header ++ 46 :: (payload ++ 46 :: sig)).length ≤ 1023) :
    jwtParts (header ++ 46 :: (payload ++ 46 :: sig)) = some (header, payload, sig) := by
  simp [jwtParts, List.take_of_length_le hlen, strchr_append hh, strchr_append hp]

theorem jwtParts_eq_some {token header payload sig : Bytes}
    (h : jwtParts token = some (header, payload, sig)) :
    (46 : Byte) ∉ header ∧ (46 : Byte) ∉ payload := by
  simp only [jwtParts, Option.bind_eq_bind, Option.bind_eq_some_iff, Option.pure_def,
    Option.some.injEq, Prod.mk.injEq] at h
  obtain ⟨dot1, hdot1, dot2, hdot2, rfl, rfl, -⟩ := h
  obtain ⟨pre, rest, hbuf, hpre, rfl⟩ := strchr_eq_some hdot1
  obtain ⟨pre', rest', hrest, hpre', rfl⟩ := strchr_eq_some hdot2
  have h1 : (List.take 1023 token).length - (46 :: rest).length = pre.length := by
    rw [hbuf]
    simp
  have h2 : ((46 :: rest).drop 1).length - (46 :: rest').length = pre'.length := by
    rw [hrest]
    simp
  rw [h1, h2, hbuf, hrest, List.take_left, List.take_left]
  exact ⟨hpre, hpre'⟩

section Verify

variable (hmac : Bytes → Digest) (getpwnam : Bytes → Option Passwd)

structure IsUserName (username : Bytes) : Prop where
  ne_nil : username ≠ []
  length_lt : username.length < 64
  quote : (34 : Byte) ∉ username
  backslash : (92 : Byte) ∉ username
  zero : (0 : Byte) ∉ username

/-- A clock whose tokens expire at a time that a `long` can hold. -/
structure IsClock (now : ℤ) : Prop where
  min_le : longMin ≤ now + jwtExpSeconds
  le_max : now + jwtExpSeconds ≤ longMax

theorem zero_notMem_decimal (n : ℤ) : (0 : Byte) ∉ decimal n := by
  have hnat : ∀ m, (0 : Byte) ∉ decimalNat m := fun m h =>
    absurd (isDigit_of_mem_decimalNat _ h) (by decide)
  cases n with
  | ofNat m => exact hnat m
  | negSucc m => simpa [decimal] using hnat (m + 1)

theorem length_loginPayload_le_hundred {username : Bytes} {signedAt : ℤ} (hname : IsUserName username)
    (hclock : IsClock signedAt) :
    (loginPayload username (signedAt + jwtExpSeconds)).length ≤ 100 := by
  have ha : (lit "\x7b\"sub\":\"").length = 8 := by
    rw [lit_ofList]
    rfl
  have hb : (lit "\",\"exp\":").length = 8 := by
    rw [lit_ofList]
    rfl
  have hc : (lit "\x7d").length = 1 := rfl
  have hd := length_decimal_le hclock.min_le hclock.le_max
  have := hname.length_lt
  rw [loginPayload_eq hname.length_lt hclock.min_le hclock.le_max, List.length_append,
    List.length_append, List.length_append, List.length_append, ha, hb, hc]
  omega

theorem loginToken_eq {username : Bytes} {signedAt : ℤ} (hname : IsUserName username)
    (hclock : IsClock signedAt) :
    loginToken hmac username signedAt =
      jwtMessage (loginPayload username (signedAt + jwtExpSeconds)) ++ 46 ::
        b64urlEncode (hmac (jwtMessage
          (loginPayload username (signedAt + jwtExpSeconds)))).toList := by
  have hlenp := length_loginPayload_le_hundred hname hclock
  have hlen64 := length_b64urlEncode_le (loginPayload username (signedAt + jwtExpSeconds))
  rw [loginToken, jwtSign, jwtMessage_loginPayload]
  generalize loginPayload username (signedAt + jwtExpSeconds) = P at *
  have hsig := length_b64urlEncode_le (hmac (jwtHeader ++ 46 :: b64urlEncode P)).toList
  have hsiglen : (hmac (jwtHeader ++ 46 :: b64urlEncode P)).toList.length = 32 := by simp
  have hh := length_jwtHeader
  refine fit_of_lt ?_
  rw [List.length_append, List.length_append, List.length_cons, List.length_cons, hh]
  omega

theorem jwtParts_loginToken {username : Bytes} {signedAt : ℤ} (hname : IsUserName username)
    (hclock : IsClock signedAt) :
    jwtParts (loginToken hmac username signedAt) =
      some (jwtHeader, b64urlEncode (loginPayload username (signedAt + jwtExpSeconds)),
        b64urlEncode (hmac (jwtMessage
          (loginPayload username (signedAt + jwtExpSeconds)))).toList) := by
  have hlenp := length_loginPayload_le_hundred hname hclock
  have hlen64 := length_b64urlEncode_le (loginPayload username (signedAt + jwtExpSeconds))
  rw [loginToken_eq hmac hname hclock, jwtMessage_loginPayload]
  generalize loginPayload username (signedAt + jwtExpSeconds) = P at *
  have hsig := length_b64urlEncode_le (hmac (jwtHeader ++ 46 :: b64urlEncode P)).toList
  have hsiglen : (hmac (jwtHeader ++ 46 :: b64urlEncode P)).toList.length = 32 := by simp
  have hh := length_jwtHeader
  rw [List.append_assoc, List.cons_append]
  refine jwtParts_append dot_notMem_jwtHeader (dot_notMem_b64urlEncode P) ?_
  rw [List.length_append, List.length_cons, List.length_append, List.length_cons, hh]
  omega

/-- **A token comes back** as the name it was signed for and that name's uid, as
long as it has not expired. -/
theorem jwtVerify_loginToken {username : Bytes} {pw : Passwd} {signedAt : ℤ}
    (hname : IsUserName username) (hclock : IsClock signedAt)
    (hpw : getpwnam username = some pw) (now : ℤ) :
    jwtVerify hmac getpwnam now (loginToken hmac username signedAt)
      = if now < signedAt + jwtExpSeconds then some (username, pw.uid) else none := by
  have hpay := loginPayload_eq hname.length_lt hclock.min_le hclock.le_max
  have hlenp := length_loginPayload_le_hundred hname hclock
  have hlen64 := length_b64urlEncode_le (loginPayload username (signedAt + jwtExpSeconds))
  have hparts := jwtParts_loginToken hmac hname hclock
  have hh := length_jwtHeader
  rw [jwtMessage_loginPayload] at hparts
  generalize hP : loginPayload username (signedAt + jwtExpSeconds) = P at *
  have hraw : b64urlDecode (b64urlEncode P) 512 = some P :=
    b64urlDecode_b64urlEncode (by omega) (by omega)
  have hcstr : cstr P = P := by
    refine cstr_of_notMem ?_
    rw [hpay]
    simp only [List.mem_append, not_or]
    exact ⟨⟨⟨by decide, hname.zero⟩, by decide⟩, zero_notMem_decimal _, by decide⟩
  have hsub : jsonExtractString P (lit "sub") 64 = some username := by
    have hopen : ¬(username = [] ∨ 64 ≤ username.length) := by
      rw [not_or, not_le]
      exact ⟨hname.ne_nil, hname.length_lt⟩
    have hquote : untilQuote (username ++ (lit "\",\"exp\":" ++
        (decimal (signedAt + jwtExpSeconds) ++ lit "\x7d"))) = some username :=
      untilQuote_append hname.quote _
    rw [hpay, List.append_assoc, List.append_assoc, jsonExtractString_sub, hquote,
      Option.bind_some, if_neg hopen]
  have hexp : jsonExtractLong P (lit "exp") = some (signedAt + jwtExpSeconds) := by
    rw [hpay]
    exact jsonExtractLong_exp hname.quote hclock.min_le hclock.le_max
  have hmsglen : ¬1024 ≤ jwtHeader.length + 1 + (b64urlEncode P).length := by omega
  rw [jwtVerify, jwtVerifyEx, hparts]
  simp only [Option.bind_eq_bind, Option.bind_some, if_neg hmsglen, ne_eq, not_true_eq_false,
    if_false, hraw, hcstr, hsub, hexp, hpw, Option.pure_def]
  by_cases hnow : now < signedAt + jwtExpSeconds
  · rw [if_pos hnow, if_neg (by omega)]
    rfl
  · rw [if_neg hnow, if_pos (by omega)]
    rfl

def signedMessages (issued : Set (Bytes × ℤ)) : Set Bytes :=
  {msg | ∃ username expTime, (username, expTime) ∈ issued ∧
    msg = jwtMessage (loginPayload username expTime)}

/-- **What an ideal HMAC promises about a presented string**: the signature it
carries fits only a message that was signed. -/
def Unforged (signed : Set Bytes) (token : Bytes) : Prop :=
  ∀ header payload sig, jwtParts token = some (header, payload, sig) →
    ∀ msg, b64urlEncode (hmac msg).toList = sig → msg ∈ signed

variable {hmac getpwnam}

/-- **Nothing but a signed header and payload is accepted**, and the user that is
returned is the payload's `sub`. -/
theorem jwtVerifyEx_unaltered {issued : Set (Bytes × ℤ)} {token username : Bytes} {uid : ℕ}
    {now expVal : ℤ} (hideal : Unforged hmac (signedMessages issued) token)
    (h : jwtVerifyEx hmac getpwnam now token = some (username, uid, expVal)) :
    ∃ name expTime sig, (name, expTime) ∈ issued ∧
      jwtParts token = some (jwtHeader, b64urlEncode (loginPayload name expTime), sig) ∧
      username = name.takeWhile (· != 34) := by
  simp only [jwtVerifyEx, Option.bind_eq_bind, Option.bind_eq_some_iff] at h
  obtain ⟨⟨header, payload, sig⟩, hparts, h⟩ := h
  split at h
  · simp at h
  split at h
  · simp at h
  next hsig =>
  rw [ne_eq, not_not] at hsig
  simp only [Option.bind_eq_some_iff] at h
  obtain ⟨raw, hraw, user, huser, exp, -, h⟩ := h
  split at h
  · simp at h
  simp only [Option.bind_eq_some_iff, Option.pure_def, Option.some.injEq, Prod.mk.injEq] at h
  obtain ⟨pw, -, rfl, -, -⟩ := h
  obtain ⟨name, expTime, hissued, hmsg⟩ := hideal _ _ _ hparts _ hsig
  rw [jwtMessage_loginPayload] at hmsg
  obtain ⟨hh, -⟩ := jwtParts_eq_some hparts
  obtain ⟨rfl, rfl⟩ := append_cut hh dot_notMem_jwtHeader hmsg
  refine ⟨name, expTime, sig, hissued, hparts, ?_⟩
  have hlen := length_loginPayload_le name expTime
  have hlen64 := length_b64urlEncode_le (loginPayload name expTime)
  rw [b64urlDecode_b64urlEncode (by omega) (by omega), Option.some.injEq] at hraw
  subst hraw
  exact eq_takeWhile_of_sub huser

variable (hmac getpwnam)

/-- **Session tokens round-trip and cannot be altered.** A token that was signed for
a user is read back as that user until it expires and rejected from then on; and
for an ideal HMAC every string that is accepted has the header and the payload of
a token that was signed, whose `sub` is the name that is returned. -/
theorem session_tokens_round_trip_and_are_unaltered :
    (∀ username pw signedAt, IsUserName username → IsClock signedAt →
      getpwnam username = some pw → ∀ now,
        jwtVerify hmac getpwnam now (loginToken hmac username signedAt)
          = if now < signedAt + jwtExpSeconds then some (username, pw.uid) else none) ∧
    ∀ issued token, Unforged hmac (signedMessages issued) token → ∀ now username uid,
      jwtVerify hmac getpwnam now token = some (username, uid) →
        ∃ name expTime sig, (name, expTime) ∈ issued ∧
          jwtParts token = some (jwtHeader, b64urlEncode (loginPayload name expTime), sig) ∧
          username = name.takeWhile (· != 34) := by
  refine ⟨fun username pw signedAt hname hclock hpw now =>
    jwtVerify_loginToken hmac getpwnam hname hclock hpw now, ?_⟩
  intro issued token hideal now username uid h
  obtain ⟨⟨user, uid', expVal⟩, hverify, heq⟩ := Option.map_eq_some_iff.mp h
  obtain ⟨rfl, rfl⟩ : user = username ∧ uid' = uid := by simpa using heq
  exact jwtVerifyEx_unaltered hideal hverify

end Verify

/-! ### One token -/

section Sample

def sampleUser : Passwd := ⟨lit "bob", 1000, 1000, lit "/home/bob"⟩

def sampleUsers (name : Bytes) : Option Passwd :=
  if name = sampleUser.name then some sampleUser else none

def sampleMessage : Bytes :=
  lit "eyJhbGciOiJIUzI1NiIsInR5cCI6IkpXVCJ9.eyJzdWIiOiJib2IiLCJleHAiOjE3MDA2MDQ4MDB9"

/-- The HMAC-SHA256 under the key `00 01 … 1f` on the message of the sample token. -/
def sampleHmac (msg : Bytes) : Digest :=
  if msg = sampleMessage then
    #v[49, 60, 8, 138, 131, 87, 120, 93, 194, 26, 37, 163, 97, 210, 55, 86,
      50, 41, 206, 86, 241, 151, 186, 8, 143, 18, 110, 203, 117, 41, 90, 255]
  else Vector.replicate 32 0

theorem sampleMessage_eq : sampleMessage = jwtMessage (loginPayload (lit "bob") 1700604800) := by
  rw [sampleMessage, jwtMessage_loginPayload, jwtHeader, lit_ofList, lit_ofList]
  decide

def sampleSignature : Bytes := lit "MTwIioNXeF3CGiWjYdI3VjIpzlbxl7oIjxJuy3UpWv8"

theorem sampleSignature_eq : b64urlEncode (sampleHmac sampleMessage).toList = sampleSignature := by
  rw [sampleHmac, if_pos rfl, sampleSignature, lit_ofList]
  decide +kernel

theorem isUserName_sample : IsUserName (lit "bob") := by constructor <;> decide

theorem isClock_sample : IsClock 1700000000 := by constructor <;> decide

theorem loginToken_sample : loginToken sampleHmac (lit "bob") 1700000000 =
    sampleMessage ++ 46 :: sampleSignature := by
  have hexp : (1700000000 : ℤ) + jwtExpSeconds = 1700604800 := rfl
  rw [loginToken_eq sampleHmac isUserName_sample isClock_sample, hexp, ← sampleMessage_eq,
    sampleSignature_eq]

theorem jwtParts_sample : (jwtParts (loginToken sampleHmac (lit "bob") 1700000000)).map (·.2.2) =
    some sampleSignature := by
  have hexp : (1700000000 : ℤ) + jwtExpSeconds = 1700604800 := rfl
  rw [jwtParts_loginToken sampleHmac isUserName_sample isClock_sample, hexp, ← sampleMessage_eq,
    sampleSignature_eq]
  rfl

theorem jwtVerify_sample : jwtVerify sampleHmac sampleUsers 1700086400
    (loginToken sampleHmac (lit "bob") 1700000000) = some (lit "bob", 1000) :=
  (jwtVerify_loginToken _ _ isUserName_sample isClock_sample
    (rfl : sampleUsers (lit "bob") = some sampleUser) 1700086400).trans
    (if_pos (by decide))

/-- The sample token is read back a day later and rejected a week later, and its
parts are the signed ones. -/
theorem session_tokens_sample :
    jwtVerify sampleHmac sampleUsers 1700086400 (loginToken sampleHmac (lit "bob") 1700000000)
        = some (lit "bob", 1000) ∧
      jwtVerify sampleHmac sampleUsers 1700604800 (loginToken sampleHmac (lit "bob") 1700000000)
        = none ∧
      ∃ name expTime sig, (name, expTime) ∈ ({(lit "bob", 1700604800)} : Set (Bytes × ℤ)) ∧
        jwtParts (loginToken sampleHmac (lit "bob") 1700000000)
          = some (jwtHeader, b64urlEncode (loginPayload name expTime), sig) ∧
        lit "bob" = name.takeWhile (· != 34) := by
  obtain ⟨hround, hunaltered⟩ := session_tokens_round_trip_and_are_unaltered sampleHmac sampleUsers
  have h := hround (lit "bob") sampleUser 1700000000 isUserName_sample isClock_sample rfl
  have hday := (h 1700086400).trans (if_pos (by decide))
  refine ⟨hday, (h 1700604800).trans (if_neg (by decide)), ?_⟩
  refine hunaltered _ _ ?_ _ _ _ hday
  -- the token's signature is the digest of the one signed message
  intro header payload sig hparts msg hsig
  have hsig' : sig = sampleSignature := by
    have hp := jwtParts_sample
    rw [hparts] at hp
    exact Option.some.inj hp
  refine ⟨lit "bob", 1700604800, rfl, ?_⟩
  rw [← sampleMessage_eq]
  by_contra hne
  have hz : sampleHmac msg = Vector.replicate 32 0 := if_neg hne
  rw [hz, hsig', sampleSignature, lit_ofList] at hsig
  exact absurd (congrArg List.head? hsig) (by decide)

end Sample

end OpenCms.Gateway
