import OpenCms.Lib.Scan

/-!
# The gateway's hand-written readers

The gateway reads JSON, form bodies and query strings without a parser: it
searches for a key and takes what stands behind it. Each reader below is the
recursion its C loop is; where the C function answers 0 and leaves the caller's
buffer alone, the reader answers `none`.

The readers are lenient, and the leniency is kept: `OpenCms.Gateway.urlDecode`
turns an escape that is no hexadecimal number into a zero byte, which then ends
the C string, and `OpenCms.Gateway.formExtractValue` cuts keys at 63 and values
at 255 characters and reads on from there.
-/

namespace OpenCms.Gateway

/-! ### Characters -/

def quoted (key : Bytes) : Bytes := 34 :: key ++ [34]

def expect (c : Byte) : Bytes → Option Bytes
  | d :: s => if d = c then some s else none
  | [] => none

def skipOne (c : Byte) : Bytes → Bytes
  | d :: s => if d = c then s else d :: s
  | [] => []

def isJsonBlank (c : Byte) : Bool := c == 32 || c == 9 || c == 10 || c == 13

@[simp] theorem expect_cons (c : Byte) (s : Bytes) : expect c (c :: s) = some s := by
  simp [expect]

theorem expect_eq_some {c : Byte} {s t : Bytes} (h : expect c s = some t) : s = c :: t := by
  cases s with
  | nil => simp [expect] at h
  | cons d s =>
    rw [expect] at h
    split at h
    · next hd =>
      obtain rfl : s = t := by simpa using h
      rw [hd]
    · simp at h

/-! ### JSON -/

/-- What stands before the next double quote: the shared end of the two JSON
string readers. -/
def untilQuote (s : Bytes) : Option Bytes := do
  let rest ← strchr 34 s
  return s.take (s.length - rest.length)

theorem untilQuote_append {v : Bytes} (h : (34 : Byte) ∉ v) (t : Bytes) :
    untilQuote (v ++ 34 :: t) = some v := by
  simp [untilQuote, strchr_append h]

theorem untilQuote_eq_some {s v : Bytes} (h : untilQuote s = some v) :
    (34 : Byte) ∉ v ∧ ∃ t, s = v ++ 34 :: t := by
  simp only [untilQuote, Option.bind_eq_bind, Option.pure_def, Option.bind_eq_some_iff,
    Option.some.injEq] at h
  obtain ⟨rest, hrest, rfl⟩ := h
  obtain ⟨pre, t, rfl, hpre, rfl⟩ := strchr_eq_some hrest
  have hlen : (pre ++ 34 :: t).length - (34 :: t).length = pre.length := by simp
  rw [hlen, List.take_left]
  exact ⟨hpre, t, rfl⟩

/-- `json_extract_string`: the string behind the first `"key":`, if it is neither
empty nor too long for the buffer. -/
def jsonExtractString (json key : Bytes) (outlen : ℕ) : Option Bytes := do
  let start ← strstr json (quoted key ++ [58])
  let start := (start.drop (key.length + 3)).dropWhile isJsonBlank
  let start ← expect 34 start
  let value ← untilQuote start
  if value = [] ∨ outlen ≤ value.length then none else some value

def jsonExtractLong (json key : Bytes) : Option ℤ := do
  let start ← strstr json (quoted key ++ [58])
  let start := (start.drop (key.length + 3)).dropWhile isJsonBlank
  let (value, inRange) ← strtol start
  if inRange then some value else none

/-- `json_extract_str`, the reader of the control socket: it looks for the key
first and for the colon afterwards, and takes the empty string. -/
def jsonExtractStr (line key : Bytes) (outsz : ℕ) : Option Bytes := do
  let p ← strstr line (quoted key)
  let p ← strchr 58 (p.drop (key.length + 2))
  let p ← expect 34 ((p.drop 1).dropWhile fun c => c == 32 || c == 9)
  let value ← untilQuote p
  if value.length < outsz then some value else none

/-- The number the control socket reads behind a key: what is no digit is
skipped, a sign included. -/
def jsonExtractInt (line key : Bytes) : ℤ :=
  match strstr line (quoted key) with
  | some p => atoi ((p.drop (key.length + 2)).dropWhile fun c => !isDigit c)
  | none => 0

theorem jsonExtractString_spec {json key v : Bytes} {outlen : ℕ}
    (h : jsonExtractString json key outlen = some v) :
    (34 : Byte) ∉ v ∧ v ≠ [] ∧ v.length < outlen := by
  simp only [jsonExtractString, Option.bind_eq_bind, Option.bind_eq_some_iff] at h
  obtain ⟨_, -, _, -, value, hv, h⟩ := h
  split at h
  · simp at h
  · next hne =>
    obtain rfl : value = v := by simpa using h
    rw [not_or, not_le] at hne
    exact ⟨(untilQuote_eq_some hv).1, hne.1, hne.2⟩

/-! ### Escapes -/

def isHexDigit (c : Byte) : Bool :=
  isDigit c || (65 ≤ c && c ≤ 70) || (97 ≤ c && c ≤ 102)

def hexVal (c : Byte) : ℕ :=
  if isDigit c then c.toNat - 48 else if c ≤ 70 then c.toNat - 55 else c.toNat - 87

/-- `(char)strtol(hex, NULL, 16)` for the two characters of an escape: blanks and
a sign are read as `strtol` reads them, and two characters that begin with no
digit count as zero. -/
def hexByte (a b : Byte) : Byte :=
  let (neg, s) := scanSign (skipSpace [a, b])
  let v := (s.takeWhile isHexDigit).foldl (fun n d => 16 * n + hexVal d) 0
  if neg then 0 - UInt8.ofNat v else UInt8.ofNat v

def urlDecodeRaw : ℕ → Bytes → Bytes
  | 0, _ => []
  | _ + 1, [] => []
  | room + 1, c :: s =>
    match c, s with
    | 37, a :: b :: s => hexByte a b :: urlDecodeRaw room s
    | 43, s => 32 :: urlDecodeRaw room s
    | c, s => c :: urlDecodeRaw room s

/-- `url_decode`: the C string that is in the buffer afterwards. -/
def urlDecode (src : Bytes) (dstlen : ℕ) : Bytes := cstr (urlDecodeRaw (dstlen - 1) src)

theorem length_urlDecodeRaw_le (room : ℕ) (src : Bytes) :
    (urlDecodeRaw room src).length ≤ room := by
  fun_induction urlDecodeRaw room src <;> simp_all

theorem length_urlDecode_lt {dstlen : ℕ} (h : 0 < dstlen) (src : Bytes) :
    (urlDecode src dstlen).length < dstlen := by
  have hcut := (cstr_isPrefix (urlDecodeRaw (dstlen - 1) src)).length_le
  have hraw := length_urlDecodeRaw_le (dstlen - 1) src
  rw [urlDecode]
  omega

def hexDigits (upper : Bool) : Bytes :=
  if upper then lit "0123456789ABCDEF" else lit "0123456789abcdef"

/-- `%02X`, `%02x`. -/
def hex2 (upper : Bool) (c : Byte) : Bytes :=
  [(hexDigits upper).getD (c.toNat / 16) 0, (hexDigits upper).getD (c.toNat % 16) 0]

def isUnreserved (c : Byte) : Bool :=
  (65 ≤ c && c ≤ 90) || (97 ≤ c && c ≤ 122) || isDigit c ||
    c == 45 || c == 95 || c == 46 || c == 126

/-- `url_encode`: a character is written while three more would still fit; `j`
counts what has been written. -/
def urlEncodeFrom (dstlen : ℕ) : ℕ → Bytes → Bytes
  | _, [] => []
  | j, c :: s =>
    if j + 3 < dstlen then
      if isUnreserved c then c :: urlEncodeFrom dstlen (j + 1) s
      else 37 :: hex2 true c ++ urlEncodeFrom dstlen (j + 3) s
    else []

def urlEncode (src : Bytes) (dstlen : ℕ) : Bytes := urlEncodeFrom dstlen 0 src

/-! ### Forms and queries -/

/-- The loop of `form_extract_value`, one field a turn; a turn reads at least one
character, so that the length of the body is enough fuel. -/
def formExtractLoop (field : Bytes) : ℕ → Bytes → Option Bytes
  | 0, _ => none
  | fuel + 1, p =>
    if p = [] then none
    else
      let key := (p.takeWhile (· != 61)).take 63
      let p := skipOne 61 (p.drop key.length)
      let val := (p.takeWhile (· != 38)).take 255
      let p := skipOne 38 (p.drop val.length)
      if key = field then some val else formExtractLoop field fuel p

def formExtractValue (body field : Bytes) (outlen : ℕ) : Option Bytes :=
  (formExtractLoop field body.length body).map fun val => urlDecode val outlen

theorem length_formExtractValue_lt {body field v : Bytes} {outlen : ℕ} (hlen : 0 < outlen)
    (h : formExtractValue body field outlen = some v) : v.length < outlen := by
  obtain ⟨val, -, rfl⟩ := Option.map_eq_some_iff.mp h
  exact length_urlDecode_lt hlen val

def queryExtractLoop (key : Bytes) (outlen : ℕ) : ℕ → Bytes → Option Bytes
  | 0, _ => none
  | fuel + 1, p =>
    if p = [] then none
    else if (key ++ [61]).isPrefixOf p then
      some (((p.drop (key.length + 1)).takeWhile (· != 38)).take (outlen - 1))
    else queryExtractLoop key outlen fuel (skipOne 38 (p.dropWhile (· != 38)))

def queryExtractValue (path key : Bytes) (outlen : ℕ) : Option Bytes := do
  let q ← strchr 63 path
  let value ← queryExtractLoop key outlen q.length (q.drop 1)
  return urlDecode value outlen

end OpenCms.Gateway
