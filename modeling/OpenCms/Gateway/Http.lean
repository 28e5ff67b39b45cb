import OpenCms.Lib.Scan
import Mathlib.Data.List.Basic

/-!
# Requests and replies

A request is read off the bytes that have arrived once they contain a blank line
(`OpenCms.Gateway.parseRequest`): the first two words are its method and its path, a
cookie line and a protocol line are searched for in all of the bytes, and the body is
what stands behind the first blank line. A request to a backend is passed on as it is,
or with the prefix of its route cut off its target
(`OpenCms.Gateway.buildUpstreamRequest`).

`OpenCms.Gateway.RequestHead` is the head of a well-formed request. What the reader
makes of a head with some bytes behind it is settled here: method and path are the
head's own (`OpenCms.Gateway.RequestHead.requestLine_append`), the body is what stands
behind it, and a search for a header line looks at the head first and then at the bytes
behind it, as if they were header lines too
(`OpenCms.Gateway.RequestHead.strstr_of_notMem`).
-/

namespace OpenCms.Gateway

/-! ### Replies -/

/-- The arguments of `http_send`. The length of the body is the caller's, and some callers
count wrong. -/
structure HttpReply where
  status : ℕ
  statusmsg : Bytes
  ctype : Option Bytes
  headers : Bytes
  body : Bytes
  bodylen : ℕ
  deriving DecidableEq

def HttpReply.head (r : HttpReply) : Bytes :=
  let ctype := match r.ctype with
    | some ctype => lit "Content-Type: " ++ ctype ++ lit "\r\n"
    | none => []
  fit 2048 (lit "HTTP/1.1 " ++ decimal r.status ++ 32 :: r.statusmsg ++ lit "\r\n" ++ ctype ++
    lit "Content-Length: " ++ decimal r.bodylen ++ lit "\r\n" ++ r.headers ++
    lit "Connection: close\r\n\r\n")

/-- The bytes `http_send` sends, where `beyond` stands behind the body in memory. -/
def HttpReply.bytes (r : HttpReply) (beyond : Bytes) : Bytes :=
  r.head ++ (r.body ++ 0 :: beyond).take r.bodylen

def HttpReply.ofBody (status : ℕ) (statusmsg : Bytes) (ctype : Option Bytes)
    (headers body : Bytes) : HttpReply :=
  ⟨status, statusmsg, ctype, headers, body, body.length⟩

/-! ### Requests -/

def crlf : Bytes := lit "\r\n"

def blankLine : Bytes := lit "\r\n\r\n"

structure HttpRequest where
  method : Bytes
  path : Bytes
  cookie : Bytes
  body : Bytes
  isSecure : Bool
  deriving DecidableEq

def requestLine (buf : Bytes) : Option (Bytes × Bytes) := do
  let (method, s) ← scanWord 7 buf
  let (path, _) ← scanWord 255 s
  return (method, path)

/-- A header line, under the first of its two spellings that is there. -/
def headerLine (name name' buf : Bytes) : Option Bytes :=
  (strstr buf name).orElse fun _ => strstr buf name'

/-- The value of a header line: from the first character that is no blank to the end of
the line. -/
def lineValue (skip : ℕ) (line : Bytes) : Bytes :=
  before crlf ((line.drop skip).dropWhile (· == 32))

def cookieName : Bytes := lit "\r\nCookie:"

def cookieName' : Bytes := lit "\r\ncookie:"

def cookieOfLine : Option Bytes → Bytes
  | some p => fit 1024 (lineValue 9 p)
  | none => []

def cookieField (buf : Bytes) : Bytes := cookieOfLine (headerLine cookieName cookieName' buf)

/-- `tolower` on letters. -/
def toLower (c : Byte) : Byte := if 65 ≤ c ∧ c ≤ 90 then c + 32 else c

/-- `req->is_secure` as the headers have it; the offset is one more than the length of the
name, so that the character behind the colon is not looked at. -/
def forwardedSecure (buf : Bytes) : Bool :=
  match headerLine (lit "\r\nX-Forwarded-Proto:") (lit "\r\nx-forwarded-proto:") buf with
  | some p => (((p.drop 21).dropWhile (· == 32)).take 5).map toLower == lit "https"
  | none => false

/-- `req->body`: what stands behind the first blank line, zero bytes included. -/
def bodyField (buf : Bytes) : Bytes :=
  match strstr (cstr buf) blankLine with
  | some p => fit 4096 (buf.drop ((cstr buf).length - p.length + 4))
  | none => []

def parseRequest (forceSecure : Bool) (buf : Bytes) : Option HttpRequest := do
  let (method, path) ← requestLine (cstr buf)
  return {
    method := method
    path := path
    cookie := cookieField (cstr buf)
    body := bodyField buf
    isSecure := forceSecure || forwardedSecure (cstr buf) }

def buildUpstreamRequest (raw pathPrefix : Bytes) (stripPrefix : Bool) (outcap : ℕ) :
    Option Bytes :=
  if !stripPrefix then
    if outcap < raw.length then none else some raw
  else do
    let sp1 ← strchr 32 raw
    let pathStart := sp1.drop 1
    let sp2 ← strchr 32 pathStart
    let path := pathStart.take (pathStart.length - sp2.length)
    if !pathPrefix.isPrefixOf path then none
    else
      let suffix := path.drop pathPrefix.length
      let suffix := if suffix = [] then [47] else suffix
      let out := raw.take (raw.length - pathStart.length) ++ suffix ++ sp2
      if outcap < out.length then none else some out

theorem buildUpstreamRequest_tcp {raw : Bytes} {outcap : ℕ} (hfits : raw.length ≤ outcap)
    (pathPrefix : Bytes) : buildUpstreamRequest raw pathPrefix false outcap = some raw := by
  have hle : ¬outcap < raw.length := by omega
  simp only [buildUpstreamRequest, Bool.not_false, if_true, if_neg hle]

/-! ### Heads -/

/-- **The head of a well-formed request**: a method, a target and the rest of the head –
version and header lines – up to its blank line. -/
structure RequestHead where
  method : Bytes
  target : Bytes
  rest : Bytes
  method_ne_nil : method ≠ []
  method_word : ∀ c ∈ method, isSpace c = false
  target_ne_nil : target ≠ []
  target_word : ∀ c ∈ target, isSpace c = false
  one_blank_line : ¬blankLine <:+: rest ++ lit "\r\n\r"
  no_zero : (0 : Byte) ∉ method ++ target ++ rest

namespace RequestHead

variable (h : RequestHead)

def bytes : Bytes := h.method ++ 32 :: (h.target ++ 32 :: (h.rest ++ blankLine))

/-- The two words a head begins with: a long method is cut, and its end read as the path. -/
def line : Bytes × Bytes :=
  (h.method.take 7, (if h.method.drop 7 = [] then h.target else h.method.drop 7).take 255)

theorem bytes_append (b : Bytes) :
    h.bytes ++ b = h.method ++ 32 :: (h.target ++ 32 :: (h.rest ++ (blankLine ++ b))) := by
  simp [bytes]

theorem cr_notMem_word {word : Bytes} (hword : ∀ c ∈ word, isSpace c = false) :
    (13 : Byte) ∉ word := fun hc => absurd (hword 13 hc) (by decide)

/-- **Method and path are the head's own**, whatever stands behind it. -/
theorem requestLine_append (b : Bytes) : requestLine (h.bytes ++ b) = some h.line := by
  rw [requestLine, bytes_append, scanWord_take h.method_ne_nil h.method_word (by decide)]
  simp only [Option.bind_eq_bind, Option.bind_some, line]
  by_cases hdrop : h.method.drop 7 = []
  · rw [hdrop, List.nil_append, scanWord_space,
      scanWord_take h.target_ne_nil h.target_word (by decide)]
    simp
  · have hword : ∀ c ∈ h.method.drop 7, isSpace c = false := fun c hc =>
      h.method_word c (List.mem_of_mem_drop hc)
    rw [scanWord_take hdrop hword (by decide)]
    simp [hdrop]

theorem strstr_blankLine (b : Bytes) :
    strstr (h.bytes ++ b) blankLine = some (blankLine ++ b) := by
  have hpre : (13 : Byte) ∉ h.method ++ 32 :: (h.target ++ [32]) := by
    simp [cr_notMem_word h.method_word, cr_notMem_word h.target_word]
  have hsplit : h.bytes ++ b =
      (h.method ++ 32 :: (h.target ++ [32])) ++ (h.rest ++ (blankLine ++ b)) := by
    simp [bytes]
  rw [hsplit]
  exact (strstr_append_of_notMem hpre _).trans (strstr_of_first h.one_blank_line b)

theorem isPrefix_of_blankLine {buf body : Bytes} (hbuf : buf <+: h.bytes ++ body)
    (hblank : blankLine <:+: buf) : h.bytes <+: buf := by
  obtain ⟨q, hq⟩ := hbuf
  obtain ⟨t, ht⟩ := Option.isSome_iff_exists.mp (strstr_isSome_iff.mpr hblank)
  have hwhole : t ++ q = blankLine ++ body := by
    have h2 := strstr_append ht q
    rw [hq, strstr_blankLine] at h2
    exact (Option.some.inj h2).symm
  obtain ⟨pre, rest, hpre, hrest⟩ := strstr_eq_some ht
  have hhead : h.bytes ++ body = (pre ++ blankLine) ++ (rest ++ q) := by
    rw [← hq, hpre, hrest]
    simp
  have hlen : h.bytes.length = (pre ++ blankLine).length := by
    have h3 := congrArg List.length hhead
    have h4 := congrArg List.length hwhole
    rw [hrest] at h4
    simp only [List.length_append] at h3 h4 ⊢
    omega
  have hbytes : h.bytes = pre ++ blankLine := (List.append_inj hhead hlen).1
  rw [hbytes, hpre, hrest]
  exact ⟨rest, by simp⟩

theorem exists_append_crlf : ∃ pre, h.bytes = pre ++ crlf :=
  ⟨h.method ++ 32 :: (h.target ++ 32 :: (h.rest ++ crlf)), by simp [bytes, blankLine, crlf, lit]⟩

/-- **A header line that the head does not hold is searched for behind it**, as if the bytes
there were lines of the head. -/
theorem strstr_of_notMem {g : Bytes} (hg : (13 : Byte) ∉ g) (hnot : ¬13 :: g <:+: h.bytes)
    (b : Bytes) : strstr (h.bytes ++ b) (13 :: g) = strstr (crlf ++ b) (13 :: g) := by
  obtain ⟨pre, hpre⟩ := h.exists_append_crlf
  have hnot' : ¬13 :: g <:+: pre := fun hin =>
    hnot (hpre ▸ hin.trans (List.infix_append [] pre crlf))
  have hcrlf : crlf ++ b = 13 :: (10 :: b) := rfl
  rw [hpre, List.append_assoc, hcrlf]
  exact strstr_append_border hg hnot' _

theorem dropWhile_blank_crlf (r : Bytes) : ∃ x, ∀ q : Bytes,
    (r ++ (crlf ++ q)).dropWhile (· == 32) = x ++ (crlf ++ q) := by
  induction r with
  | nil => exact ⟨[], fun q => rfl⟩
  | cons c r ih =>
    by_cases hc : c = 32
    · obtain ⟨x, hx⟩ := ih
      exact ⟨x, fun q => by simpa [hc] using hx q⟩
    · exact ⟨c :: r, fun q => by simp [hc]⟩

theorem exists_crlf_behind {g t : Bytes} (ht : strstr h.bytes (g ++ [58]) = some t) :
    ∃ r, t = g ++ 58 :: (r ++ crlf) := by
  obtain ⟨pre, r, hpre, rfl⟩ := strstr_eq_some ht
  obtain ⟨pre', hpre'⟩ := h.exists_append_crlf
  have hends : (pre ++ g) ++ 58 :: r = pre' ++ crlf := by
    rw [← hpre', hpre]
    simp
  rcases List.append_eq_append_iff.mp hends with ⟨x, -, hx⟩ | ⟨x, -, hx⟩
  · cases x with
    | nil => exact absurd (List.cons.inj hx).1 (by decide)
    | cons c x =>
      obtain ⟨-, rfl⟩ := List.cons.inj hx
      exact ⟨x, by simp⟩
  · have hmem : (58 : Byte) ∈ crlf := hx ▸ List.mem_append_right _ List.mem_cons_self
    exact absurd hmem (by decide)

/-- **The value of a line of the head does not reach behind it.** -/
theorem lineValue_append {g t : Bytes} (ht : strstr h.bytes (g ++ [58]) = some t) (b : Bytes) :
    lineValue (g.length + 1) (t ++ b) = lineValue (g.length + 1) t := by
  obtain ⟨r, rfl⟩ := h.exists_crlf_behind ht
  obtain ⟨x, hx⟩ := dropWhile_blank_crlf r
  have hdrop : ∀ q : Bytes,
      (g ++ 58 :: (r ++ crlf) ++ q).drop (g.length + 1) = r ++ (crlf ++ q) := by
    intro q
    have hsplit : g ++ 58 :: (r ++ crlf) ++ q = (g ++ [58]) ++ (r ++ (crlf ++ q)) := by simp
    rw [hsplit, List.drop_left' (by simp)]
  have hline : ∀ q : Bytes, lineValue (g.length + 1) (g ++ 58 :: (r ++ crlf) ++ q) =
      before crlf (x ++ crlf) := by
    intro q
    rw [lineValue, hdrop, hx, ← List.append_assoc]
    exact before_append ⟨x, [], by simp⟩ q
  have hnil := hline []
  rw [List.append_nil] at hnil
  rw [hline b, hnil]

theorem buildUpstreamRequest_append (pathPrefix b : Bytes) (outcap : ℕ) :
    buildUpstreamRequest (h.bytes ++ b) pathPrefix true outcap =
      if !pathPrefix.isPrefixOf h.target then none
      else
        let suffix := h.target.drop pathPrefix.length
        let suffix := if suffix = [] then [47] else suffix
        let out := h.method ++ 32 :: (suffix ++ 32 :: (h.rest ++ (blankLine ++ b)))
        if outcap < out.length then none else some out := by
  have hblank : ∀ {word : Bytes}, (∀ c ∈ word, isSpace c = false) → (32 : Byte) ∉ word :=
    fun hword hc => absurd (hword 32 hc) (by decide)
  have hsp1 := strchr_append (hblank h.method_word) (h.target ++ 32 :: (h.rest ++ (blankLine ++ b)))
  have hsp2 := strchr_append (hblank h.target_word) (h.rest ++ (blankLine ++ b))
  rw [bytes_append]
  simp only [buildUpstreamRequest, Bool.not_true, Bool.false_eq_true, if_false, hsp1,
    Option.bind_eq_bind, Option.bind_some, List.drop_succ_cons, List.drop_zero, hsp2]
  have hpath : ∀ t : Bytes, (h.target ++ t).take ((h.target ++ t).length - t.length) = h.target :=
    fun t => by simp
  have hhead : ∀ t : Bytes, (h.method ++ 32 :: t).take
      ((h.method ++ 32 :: t).length - t.length) = h.method ++ [32] := fun t => by
    have hsplit : h.method ++ 32 :: t = (h.method ++ [32]) ++ t := by simp
    rw [hsplit, List.length_append, Nat.add_sub_cancel, List.take_left]
  rw [hpath, hhead]
  simp

end RequestHead

end OpenCms.Gateway
