import OpenCms.Lib.Digits
import Mathlib.Data.String.Basic
import Mathlib.Data.List.DropRight
import Mathlib.Data.List.Sort
import Mathlib.Algebra.Group.Int.Defs

/-!
# Identifiers

An identifier is made of a prefix, of a timestamp in milliseconds with a number for those made in
the same millisecond, and of random characters. It is meant that identifiers sort as they were
made. For the timestamp and the number there are twelve hexadecimal digits, three of which are for
the number: so this is the case exactly while neither the digits for the timestamp nor those for
the number run over (`OpenCms.Identifier.inOrder_iff`).
-/

namespace OpenCms.Identifier

/-! ### Making identifiers -/

inductive Kind
  | session
  | message
  | permission
  | question
  | user
  | part
  | pty
  | tool
  deriving DecidableEq

def prefixes : Kind → String
  | .session => "ses"
  | .message => "msg"
  | .permission => "per"
  | .question => "que"
  | .user => "usr"
  | .part => "prt"
  | .pty => "pty"
  | .tool => "tool"

def LENGTH : ℕ := 26

/-- What is remembered from one identifier to the next. -/
structure State where
  lastTimestamp : ℤ
  counter : ℕ

def start : State := ⟨0, 0⟩

/-- A call of `create`, with the random bytes that it gets. -/
structure Call where
  kind : Kind
  descending : Bool
  timestamp : ℤ
  bytes : List UInt8
  length : bytes.length = LENGTH - 12

def chars : List Char := "0123456789ABCDEFGHIJKLMNOPQRSTUVWXYZabcdefghijklmnopqrstuvwxyz".toList

def randomBase62 (bytes : List UInt8) : List Char :=
  bytes.map fun byte => chars.getD (byte.toNat % 62) '0'

def hexDigit (digit : ℕ) : Char := "0123456789abcdef".toList.getD digit '0'

def hex (byte : ℕ) : List Char := [hexDigit (byte / 16), hexDigit (byte % 16)]

def timeBytes (now : ℤ) : List ℕ :=
  (List.range 6).map fun i : ℕ => ((now >>> (40 - 8 * i)) % 256).toNat

/-- The identifier of a call, where its timestamp and its number make `now`. -/
def render (call : Call) (now : ℤ) : String :=
  let now := if call.descending then ~~~now else now
  prefixes call.kind ++ "_" ++ String.ofList ((timeBytes now).flatMap hex) ++
    String.ofList (randomBase62 call.bytes)

def create (s : State) (call : Call) : String × State :=
  let s := if call.timestamp ≠ s.lastTimestamp then ⟨call.timestamp, 0⟩ else s
  let s := { s with counter := s.counter + 1 }
  (render call (call.timestamp * 0x1000 + s.counter), s)

def made (s : State) : List Call → List (Call × String)
  | [] => []
  | call :: calls =>
    let (id, s) := create s call
    (call, id) :: made s calls

/-- Of two identifiers with the same prefix, the later one is greater, or smaller if they are
descending. -/
def InOrder (x y : Call × String) : Prop :=
  x.1.kind = y.1.kind → x.1.descending = y.1.descending →
    if x.1.descending then y.2 < x.2 else x.2 < y.2

/-! ### The digits of an identifier -/

section Render

variable {call call' : Call} {n m : ℤ}

def field (n : ℤ) : ℕ := (n % 2 ^ 48).toNat

theorem timeBytes_eq (n : ℤ) : timeBytes n = digits 256 6 (field n) := by
  have hshift : ∀ place : ℕ, (n >>> place) = n / 2 ^ place := Int.shiftRight_eq_div_pow n
  have hbyte : ∀ i ∈ List.range 6, ((n >>> (40 - 8 * i)) % 256).toNat =
      field n / 256 ^ (5 - i) % 256 := by
    intro i hi
    have hi : i = 0 ∨ i = 1 ∨ i = 2 ∨ i = 3 ∨ i = 4 ∨ i = 5 := by
      have := List.mem_range.mp hi
      omega
    rw [hshift, field]
    rcases hi with rfl | rfl | rfl | rfl | rfl | rfl <;> omega
  exact List.map_congr_left hbyte

theorem flatMap_hex (n : ℤ) :
    (timeBytes n).flatMap hex = (digits 16 12 (field n)).map hexDigit := by
  have hflat : (digits 256 6 (field n)).flatMap (fun d => [d / 16, d % 16]) =
      digits 16 12 (field n) := flatMap_digits 6
  rw [timeBytes_eq, ← hflat, List.map_flatMap]
  rfl

theorem strictMonoOn_hexDigit : StrictMonoOn hexDigit {d | d < 16} := by
  have hall : ∀ d < 16, ∀ d' < 16, d < d' → hexDigit d < hexDigit d' := by decide
  exact fun d hd d' hd' => hall d hd d' hd'

theorem field_lt (n : ℤ) : field n < 16 ^ 12 := by
  unfold field
  omega

theorem field_not (n : ℤ) : field (~~~n) + field n + 1 = 2 ^ 48 := by
  have hnot : ~~~n = -n - 1 := by
    cases n with
    | ofNat n =>
      show Int.negSucc n = -(n : ℤ) - 1
      omega
    | negSucc n =>
      show (n : ℤ) = -Int.negSucc n - 1
      omega
  unfold field
  omega

/-- **The digits of an identifier sort as its timestamp with its number, and the random characters
decide if there is no difference.** -/
theorem render_lt_iff (hkind : call.kind = call'.kind)
    (hdescending : call.descending = call'.descending) :
    render call n < render call' m ↔
      (if call.descending then field m < field n else field n < field m) ∨
        field n = field m ∧ randomBase62 call.bytes < randomBase62 call'.bytes := by
  have hdigits : ∀ n m : ℤ,
      (timeBytes n).flatMap hex ++ randomBase62 call.bytes <
          (timeBytes m).flatMap hex ++ randomBase62 call'.bytes ↔
        field n < field m ∨
          field n = field m ∧ randomBase62 call.bytes < randomBase62 call'.bytes := by
    intro n m
    have hdigit : ∀ n : ℕ, ∀ d ∈ digits 16 12 n, d ∈ {d | d < 16} :=
      fun n d hd => lt_of_mem_digits (by decide) hd
    have hmod : ∀ n : ℤ, field n % 16 ^ 12 = field n := fun n => Nat.mod_eq_of_lt (field_lt n)
    rw [flatMap_hex, flatMap_hex, append_lt_append_iff (by simp),
      map_lt_map_iff strictMonoOn_hexDigit (hdigit _) (hdigit _), digits_lt_iff (by decide),
      map_eq_map_iff strictMonoOn_hexDigit (hdigit _) (hdigit _), digits_eq_iff (by decide),
      hmod, hmod]
  have hsame : ∀ xs us vs : List Char, xs ++ us < xs ++ vs ↔ us < vs := by
    intro xs us vs
    rw [append_lt_append_iff rfl]
    simp
  rw [String.lt_iff_toList_lt, render, render, ← hkind, ← hdescending]
  simp only [String.toList_append, String.toList_ofList, List.append_assoc, hsame]
  rw [hdigits]
  split
  next =>
    have hn := field_not n
    have hm := field_not m
    have hlt : field (~~~n) < field (~~~m) ↔ field m < field n := by omega
    have heq : field (~~~n) = field (~~~m) ↔ field n = field m := by omega
    rw [hlt, heq]
  next => rfl

end Render

/-! ### The numbers of a millisecond -/

/-- The number that a call gets in its millisecond, by the timestamps of the calls before. The
first of them may go on where the process is. -/
def number (s : State) (past : List ℤ) (timestamp : ℤ) : ℕ :=
  past.count timestamp +
    (if timestamp = s.lastTimestamp ∧ ∀ t ∈ past, t = timestamp then s.counter else 0) + 1

def stamps (s : State) (past : List ℤ) : List Call → List (Call × ℤ)
  | [] => []
  | call :: calls =>
    (call, call.timestamp * 4096 + number s past call.timestamp) ::
      stamps s (past ++ [call.timestamp]) calls

/-- The twelve digits of the second of two calls of the same kind are more than those of the
first; or they are the same, and it is random that the identifiers are in order. -/
def Ahead (x y : Call × ℤ) : Prop :=
  x.1.kind = y.1.kind → x.1.descending = y.1.descending →
    x.2 % 2 ^ 48 < y.2 % 2 ^ 48 ∨ x.2 % 2 ^ 48 = y.2 % 2 ^ 48 ∧
      if x.1.descending then randomBase62 y.1.bytes < randomBase62 x.1.bytes
      else randomBase62 x.1.bytes < randomBase62 y.1.bytes

section Order

variable {s s' : State} {past : List ℤ} {calls : List Call}

def State.next (s : State) (timestamp : ℤ) : ℕ :=
  if timestamp ≠ s.lastTimestamp then 1 else s.counter + 1

theorem create_eq (s : State) (call : Call) :
    create s call = (render call (call.timestamp * 4096 + s.next call.timestamp),
      ⟨call.timestamp, s.next call.timestamp⟩) := by
  unfold create State.next
  split
  · rfl
  next heq =>
    rw [not_not] at heq
    rw [heq]

theorem next_eq_number (s : State) (t : ℤ) : s.next t = number s [] t := by
  unfold State.next number
  rcases eq_or_ne t s.lastTimestamp with rfl | hne
  · simp
  · simp [hne]

/-- **One more call**: it counts on in its millisecond, or from the start in a later one. -/
theorem number_concat {t timestamp : ℤ} (hpast : ∀ x ∈ past, x ≤ t) (ht : t ≤ timestamp) :
    number s (past ++ [t]) timestamp =
      if timestamp ≠ t then 1 else number s past t + 1 := by
  unfold number
  rcases eq_or_ne timestamp t with rfl | hne
  · have hall : (∀ x ∈ past ++ [timestamp], x = timestamp) ↔ ∀ x ∈ past, x = timestamp := by
      constructor
      · exact fun h x hx => h x (List.mem_append_left _ hx)
      · rintro h x hx
        rcases List.mem_append.mp hx with hx | hx
        · exact h x hx
        · exact List.mem_singleton.mp hx
    have hcounter := if_congr (and_congr_right fun _ : timestamp = s.lastTimestamp => hall)
      (rfl : s.counter = _) (rfl : 0 = _)
    rw [List.count_append, List.count_singleton_self, hcounter, if_neg (not_not.mpr rfl)]
    omega
  · have hlt : t < timestamp := lt_of_le_of_ne ht hne.symm
    have hcount : (past ++ [t]).count timestamp = 0 := by
      refine List.count_eq_zero.mpr fun hmem => ?_
      rcases List.mem_append.mp hmem with hmem | hmem
      · exact absurd (hpast timestamp hmem) (not_le.mpr hlt)
      · exact hne (List.mem_singleton.mp hmem)
    rw [hcount, if_neg fun h => hne (h.2 t (by simp)).symm, if_pos hne]

/-- **The identifiers are those of the stamps**, where the state knows the numbers that come
next. -/
theorem made_eq (hnext : ∀ t, (∀ x ∈ past, x ≤ t) → s'.next t = number s past t)
    (hmono : (past ++ calls.map Call.timestamp).Pairwise (· ≤ ·)) :
    made s' calls = (stamps s past calls).map fun x => (x.1, render x.1 x.2) := by
  induction calls generalizing s' past with
  | nil => rfl
  | cons call calls ih =>
    have hpast : ∀ x ∈ past, x ≤ call.timestamp := fun x hx =>
      (List.pairwise_append.mp hmono).2.2 x hx call.timestamp (by simp)
    rw [made, create_eq, stamps, List.map_cons, hnext _ hpast]
    refine congrArg _ (ih (fun t ht => ?_) (by simpa using hmono))
    have hle : call.timestamp ≤ t := ht call.timestamp (by simp)
    rw [number_concat hpast hle, State.next]

/-- **Identifiers sort as they were made exactly if their stamps do**, as far as there is room for
them. -/
theorem inOrder_iff (s : State) (calls : List Call)
    (hmono : (calls.map Call.timestamp).Pairwise (· ≤ ·)) :
    (made s calls).Pairwise InOrder ↔ (stamps s [] calls).Pairwise Ahead := by
  have hmade : made s calls = (stamps s [] calls).map fun x => (x.1, render x.1 x.2) :=
    made_eq (fun t _ => next_eq_number s t) hmono
  rw [hmade, List.pairwise_map]
  refine List.Pairwise.iff fun x y => ?_
  obtain ⟨call, n⟩ := x
  obtain ⟨call', m⟩ := y
  refine forall₂_congr fun hkind hdescending => ?_
  have hlt : field n < field m ↔ n % 2 ^ 48 < m % 2 ^ 48 := by
    unfold field
    omega
  have heq : field n = field m ↔ n % 2 ^ 48 = m % 2 ^ 48 := by
    unfold field
    omega
  rw [render_lt_iff hkind hdescending, render_lt_iff hkind.symm hdescending.symm, ← hdescending]
  split
  next => rw [hlt, eq_comm, heq]
  next => rw [hlt, heq]

end Order

/-- A message that is made at a time, with the first of all random characters. -/
def message (timestamp : ℤ) : Call :=
  ⟨.message, false, timestamp, List.replicate 14 0, rfl⟩

theorem inOrder_iff_messages :
    (made start [message 1, message 1, message 2]).Pairwise InOrder :=
  (inOrder_iff start [message 1, message 1, message 2] (by decide)).mpr (by
    unfold Ahead
    decide)

/-- The twelve digits run over every 2 ^ 36 milliseconds, and the identifier that comes next is
smaller than all those before. -/
theorem not_inOrder :
    ¬∀ calls, (calls.map Call.timestamp).Pairwise (· ≤ ·) →
      (made start calls).Pairwise InOrder := by
  intro h
  have hpair := h [message 1786706395135, message 1786706395136] (by decide)
  have hlt := (List.pairwise_cons.mp hpair).1 _ List.mem_cons_self rfl rfl
  revert hlt
  decide

/-! ### Reading a timestamp

What comes back is the timestamp without what the digits have no room for, and with what the number
in its millisecond has run over. -/

def isWhiteSpace (c : Char) : Bool :=
  let n := c.toNat
  (0x9 ≤ n && n ≤ 0xD) || n = 0x20 || n = 0xA0 || n = 0x1680 || (0x2000 ≤ n && n ≤ 0x200A) ||
    n = 0x2028 || n = 0x2029 || n = 0x202F || n = 0x205F || n = 0x3000 || n = 0xFEFF

def hexValue (c : Char) : Option ℕ :=
  if '0' ≤ c ∧ c ≤ '9' then some (c.toNat - '0'.toNat)
  else if 'a' ≤ c ∧ c ≤ 'f' then some (c.toNat - 'a'.toNat + 10)
  else if 'A' ≤ c ∧ c ≤ 'F' then some (c.toNat - 'A'.toNat + 10)
  else none

def readHex : ℕ → List Char → Option ℕ
  | n, [] => some n
  | n, c :: cs => (hexValue c).bind fun d => readHex (16 * n + d) cs

def bigIntHex (hex : List Char) : Option ℕ :=
  let digits := hex.rdropWhile isWhiteSpace
  if digits = [] then none else readHex 0 digits

def timestamp (id : String) : Option ℕ :=
  let chars := id.toList
  let before := chars.takeWhile (· ≠ '_')
  let hex := (chars.drop (before.length + 1)).take 12
  (bigIntHex hex).map (· / 0x1000)

section Timestamp

variable {call : Call} {n : ℤ}

theorem hexValue_hexDigit {d : ℕ} (h : d < 16) : hexValue (hexDigit d) = some d := by
  have hall : ∀ d < 16, hexValue (hexDigit d) = some d := by decide
  exact hall d h

theorem isWhiteSpace_hexDigit {d : ℕ} (h : d < 16) : isWhiteSpace (hexDigit d) = false := by
  have hall : ∀ d < 16, isWhiteSpace (hexDigit d) = false := by decide
  exact hall d h

theorem readHex_map_hexDigit {ds : List ℕ} (h : ∀ d ∈ ds, d < 16) (m : ℕ) :
    readHex m (ds.map hexDigit) = some (ds.foldl (fun m d => 16 * m + d) m) := by
  induction ds generalizing m with
  | nil => rfl
  | cons d ds ih =>
    obtain ⟨hd, hds⟩ := List.forall_mem_cons.mp h
    rw [List.map_cons, readHex, hexValue_hexDigit hd, Option.bind_some, ih hds, List.foldl_cons]

theorem bigIntHex_digits (m : ℕ) :
    bigIntHex ((digits 16 12 m).map hexDigit) = some (m % 16 ^ 12) := by
  have hlt : ∀ d ∈ digits 16 12 m, d < 16 := fun d hd => lt_of_mem_digits (by decide) hd
  have hne : (digits 16 12 m).map hexDigit ≠ [] := by
    rw [ne_eq, ← List.length_eq_zero_iff]
    simp
  have hkept : ((digits 16 12 m).map hexDigit).rdropWhile isWhiteSpace =
      (digits 16 12 m).map hexDigit := by
    refine List.rdropWhile_eq_self_iff.mpr fun hl => ?_
    obtain ⟨d, hd, heq⟩ := List.mem_map.mp (List.getLast_mem hl)
    rw [← heq, isWhiteSpace_hexDigit (hlt d hd)]
    exact Bool.false_ne_true
  unfold bigIntHex
  rw [hkept, if_neg hne, readHex_map_hexDigit hlt, foldl_digits, Nat.mul_zero, Nat.zero_add]

/-- **What is read of an identifier** is what its digits have room for. -/
theorem timestamp_render (hascending : call.descending = false) :
    timestamp (render call n) = some (field n / 4096) := by
  have hprefix : ∀ kind, (prefixes kind).toList.takeWhile (· ≠ '_') = (prefixes kind).toList := by
    intro kind
    cases kind <;> rfl
  have hall : ∀ c ∈ (prefixes call.kind).toList, decide (c ≠ '_') = true :=
    List.takeWhile_eq_self_iff.mp <| hprefix call.kind
  have hchars : (render call n).toList = (prefixes call.kind).toList ++ '_' ::
      ((digits 16 12 (field n)).map hexDigit ++ randomBase62 call.bytes) := by
    unfold render
    rw [hascending, if_neg Bool.false_ne_true]
    dsimp only
    rw [flatMap_hex]
    simp
  have hbefore : (render call n).toList.takeWhile (· ≠ '_') = (prefixes call.kind).toList := by
    rw [hchars, List.takeWhile_append_of_pos hall, List.takeWhile_cons_of_neg (by simp),
      List.append_nil]
  have hhex : ((render call n).toList.drop ((prefixes call.kind).toList.length + 1)).take 12 =
      (digits 16 12 (field n)).map hexDigit := by
    rw [hchars, List.drop_append, List.drop_of_length_le (Nat.le_succ _), List.nil_append,
      Nat.add_sub_cancel_left, List.drop_succ_cons, List.drop_zero, List.take_append_of_le_length
        (by simp), List.take_of_length_le (by simp)]
  unfold timestamp
  dsimp only
  rw [hbefore, hhex, bigIntHex_digits, Nat.mod_eq_of_lt (field_lt n), Option.map_some]

/-- **The millisecond that an identifier encodes**: the one in which it is made, unless more are
made in it than the number has digits for. -/
def encoded (s : State) (timestamp : ℤ) : ℤ := timestamp + s.next timestamp / 4096

theorem timestamp_create (s : State) (hascending : call.descending = false) :
    timestamp (create s call).1 = some (encoded s call.timestamp % 2 ^ 36).toNat := by
  rw [create_eq, timestamp_render hascending, Option.some_inj]
  unfold field encoded
  omega

end Timestamp

end OpenCms.Identifier
