import OpenCms.Lib.CString
import Mathlib.Data.Nat.Digits.Defs
import Mathlib.Tactic.IntervalCases

/-!
# Numbers and words in C strings

What `printf("%d")` writes and what `strtol`, `atoi` and `scanf` read back. The
readers share one shape: blanks, an optional sign, the longest run of digits
(`OpenCms.scanInt`); they differ in how they narrow the value, which is done
afterwards (`OpenCms.strtol`, `OpenCms.atoi`).

The round trip `OpenCms.scanInt_decimal` says that a number that was printed is
read back whatever follows it, as long as that is not another digit.
-/

namespace OpenCms

/-! ### Blanks and digits -/

/-- `isspace` in the C locale. -/
def isSpace (c : Byte) : Bool := c == 32 || (9 ≤ c && c ≤ 13)

def isDigit (c : Byte) : Bool := 48 ≤ c && c ≤ 57

/-- A string after its leading blanks. -/
def skipSpace (s : Bytes) : Bytes := s.dropWhile isSpace

theorem skipSpace_of_head {c : Byte} (h : isSpace c = false) (s : Bytes) :
    skipSpace (c :: s) = c :: s := by
  simp [skipSpace, h]

theorem isSpace_of_all {word : Bytes} (h : (word.all fun c => !isSpace c) = true) :
    ∀ c ∈ word, isSpace c = false := by
  simpa using h

theorem isSpace_of_isDigit {c : Byte} (h : isDigit c = true) : isSpace c = false := by
  simp only [isDigit, isSpace, Bool.and_eq_true, decide_eq_true_eq, UInt8.le_iff_toNat_le] at *
  have h1 : (48 : Byte).toNat = 48 := rfl
  have h3 : (13 : Byte).toNat = 13 := rfl
  rw [Bool.or_eq_false_iff, Bool.and_eq_false_iff]
  refine ⟨?_, Or.inr ?_⟩
  · rw [beq_eq_false_iff_ne]
    rintro rfl
    exact absurd h.1 (by decide)
  · rw [decide_eq_false_iff_not]
    omega

/-! ### Printing -/

/-- `%d` for a number that is not negative. -/
def decimalNat (n : ℕ) : Bytes := (Nat.toDigits 10 n).map fun c => UInt8.ofNat c.toNat

/-- `%d`, `%ld`. -/
def decimal : ℤ → Bytes
  | .ofNat n => decimalNat n
  | .negSucc n => 45 :: decimalNat (n + 1)

def digitByte (d : ℕ) : Byte := UInt8.ofNat (48 + d)

theorem digitByte_toNat {d : ℕ} (h : d < 10) : (digitByte d).toNat = 48 + d := by
  simp [digitByte, UInt8.toNat_ofNat']
  omega

theorem isDigit_digitByte {d : ℕ} (h : d < 10) : isDigit (digitByte d) = true := by
  interval_cases d <;> rfl

theorem digitChar_byte {d : ℕ} (h : d < 10) :
    UInt8.ofNat d.digitChar.toNat = digitByte d := by
  interval_cases d <;> rfl

theorem decimalNat_eq (n : ℕ) :
    decimalNat n = (if n < 10 then [] else decimalNat (n / 10)) ++ [digitByte (n % 10)] := by
  unfold decimalNat
  rw [Nat.toDigits_eq_if (by omega)]
  split
  · next h => simp [digitChar_byte h, Nat.mod_eq_of_lt h]
  · simp [digitChar_byte (Nat.mod_lt n (by omega : 0 < 10))]

theorem isDigit_of_mem_decimalNat {n : ℕ} : ∀ c ∈ decimalNat n, isDigit c = true := by
  induction n using Nat.strong_induction_on with
  | _ n ih =>
    intro c hc
    rw [decimalNat_eq] at hc
    rcases List.mem_append.mp hc with h | h
    · split at h
      · simp at h
      · exact ih (n / 10) (by omega) c h
    · obtain rfl : c = digitByte (n % 10) := by simpa using h
      exact isDigit_digitByte (Nat.mod_lt n (by omega))

theorem decimalNat_ne_nil (n : ℕ) : decimalNat n ≠ [] := by
  rw [decimalNat_eq]
  simp

theorem length_decimalNat_le {n k : ℕ} (hk : 0 < k) (h : n < 10 ^ k) :
    (decimalNat n).length ≤ k := by
  rw [decimalNat, List.length_map]
  exact (Nat.length_toDigits_le_iff (by omega) hk).mpr h

/-! ### Reading -/

def digitsVal (ds : Bytes) : ℕ := ds.foldl (fun n d => 10 * n + (d.toNat - 48)) 0

/-- The sign a number may begin with, and what follows it. -/
def scanSign : Bytes → Bool × Bytes
  | c :: s => if c = 45 then (true, s) else if c = 43 then (false, s) else (false, c :: s)
  | [] => (false, [])

/-- **A number read off a string**: its exact value and what is left of the
string, or nothing when no digit is found. -/
def scanInt (s : Bytes) : Option (ℤ × Bytes) :=
  let (neg, s) := scanSign (skipSpace s)
  let ds := s.takeWhile isDigit
  if ds = [] then none
  else some (if neg then -(digitsVal ds : ℤ) else digitsVal ds, s.dropWhile isDigit)

def longMax : ℤ := 9223372036854775807

def longMin : ℤ := -9223372036854775808

/-- `strtol(s, &end, 10)`: the value clamped to a `long`, and whether `errno`
stayed zero. Nothing is returned where `end == s`. -/
def strtol (s : Bytes) : Option (ℤ × Bool) :=
  (scanInt s).map fun (n, _) => (max longMin (min longMax n), decide (longMin ≤ n ∧ n ≤ longMax))

/-- The `int` a wider value is narrowed to. -/
def toInt (n : ℤ) : ℤ := Int.bmod n (2 ^ 32)

/-- `atoi`: zero where there is no number. -/
def atoi (s : Bytes) : ℤ :=
  match strtol s with
  | some (n, _) => toInt n
  | none => 0

theorem digitsVal_append_one (ds : Bytes) (d : Byte) :
    digitsVal (ds ++ [d]) = 10 * digitsVal ds + (d.toNat - 48) := by
  simp [digitsVal, List.foldl_append]

theorem digitsVal_decimalNat (n : ℕ) : digitsVal (decimalNat n) = n := by
  induction n using Nat.strong_induction_on with
  | _ n ih =>
    rw [decimalNat_eq, digitsVal_append_one, digitByte_toNat (Nat.mod_lt n (by omega))]
    split
    · simp [digitsVal]
      omega
    · rw [ih (n / 10) (by omega)]
      omega

theorem takeWhile_isDigit_decimalNat {n : ℕ} {t : Bytes} (ht : ∀ c ∈ t.head?, isDigit c = false) :
    (decimalNat n ++ t).takeWhile isDigit = decimalNat n := by
  rw [List.takeWhile_append_of_pos isDigit_of_mem_decimalNat]
  cases t with
  | nil => simp
  | cons c t => simp [ht c (by simp)]

theorem dropWhile_isDigit_decimalNat {n : ℕ} {t : Bytes} (ht : ∀ c ∈ t.head?, isDigit c = false) :
    (decimalNat n ++ t).dropWhile isDigit = t := by
  rw [List.dropWhile_append_of_pos isDigit_of_mem_decimalNat]
  cases t with
  | nil => simp
  | cons c t => simp [ht c (by simp)]

theorem scanSign_decimalNat (n : ℕ) (t : Bytes) :
    scanSign (skipSpace (decimalNat n ++ t)) = (false, decimalNat n ++ t) := by
  obtain ⟨c, ds, hcs⟩ := List.exists_cons_of_ne_nil (decimalNat_ne_nil n)
  have hc : isDigit c = true := isDigit_of_mem_decimalNat c (by rw [hcs]; simp)
  have h1 : c ≠ 45 := by rintro rfl; exact absurd hc (by decide)
  have h2 : c ≠ 43 := by rintro rfl; exact absurd hc (by decide)
  rw [hcs, List.cons_append, skipSpace_of_head (isSpace_of_isDigit hc)]
  simp [scanSign, h1, h2]

theorem scanInt_of_scanSign {s t : Bytes} {neg : Bool} {n : ℕ}
    (hs : scanSign (skipSpace s) = (neg, decimalNat n ++ t))
    (ht : ∀ c ∈ t.head?, isDigit c = false) :
    scanInt s = some (if neg then -(n : ℤ) else n, t) := by
  unfold scanInt
  rw [hs]
  simp only [takeWhile_isDigit_decimalNat ht, dropWhile_isDigit_decimalNat ht,
    if_neg (decimalNat_ne_nil n), digitsVal_decimalNat]

/-- **A printed number is read back**, whatever follows it, as long as that does
not begin with a digit. -/
theorem scanInt_decimal (n : ℤ) {t : Bytes} (ht : ∀ c ∈ t.head?, isDigit c = false) :
    scanInt (decimal n ++ t) = some (n, t) := by
  cases n with
  | ofNat n =>
    rw [decimal, scanInt_of_scanSign (scanSign_decimalNat n t) ht]
    rfl
  | negSucc n =>
    have hs : scanSign (skipSpace (45 :: (decimalNat (n + 1) ++ t)))
        = (true, decimalNat (n + 1) ++ t) := by
      rw [skipSpace_of_head (by decide)]
      rfl
    rw [decimal, List.cons_append, scanInt_of_scanSign hs ht]
    rfl

theorem strtol_decimal {n : ℤ} {t : Bytes} (h1 : longMin ≤ n) (h2 : n ≤ longMax)
    (ht : ∀ c ∈ t.head?, isDigit c = false) : strtol (decimal n ++ t) = some (n, true) := by
  rw [strtol, scanInt_decimal n ht]
  simp [h1, h2]

theorem toInt_of_mem {n : ℤ} (h1 : -2147483648 ≤ n) (h2 : n ≤ 2147483647) : toInt n = n := by
  rw [toInt, Int.bmod_eq_of_le_mul_two] <;> omega

/-! ### `scanf` -/

/-- `scanf("%<width>s")`: blanks are skipped, then at most `width` characters
that are not blank are read. -/
def scanWord (width : ℕ) (s : Bytes) : Option (Bytes × Bytes) :=
  let s := skipSpace s
  let word := (s.takeWhile fun c => !isSpace c).take width
  if word = [] then none else some (word, s.drop word.length)

/-- `scanf("%d")`: the number is read as a `long` and narrowed. -/
def scanDecimal (s : Bytes) : Option (ℤ × Bytes) :=
  (scanInt s).map fun (n, rest) => (toInt (max longMin (min longMax n)), rest)

/-- `scanf("%u")`: a value that no `unsigned long` holds counts as the largest, and a
negative one wraps around. -/
def scanUnsigned (s : Bytes) : Option (UInt32 × Bytes) :=
  (scanInt s).map fun (n, rest) =>
    (if n.natAbs < 2 ^ 64 then UInt32.ofInt n else UInt32.ofNat (2 ^ 32 - 1), rest)

/-- `scanf("%d %d …")` with `n` conversions: the values of those that succeed. -/
def scanDecimals : ℕ → Bytes → List ℤ
  | 0, _ => []
  | n + 1, s =>
    match scanDecimal s with
    | some (v, rest) => v :: scanDecimals n rest
    | none => []

/-- A value of type `int`. -/
def IsInt (n : ℤ) : Prop := -2147483648 ≤ n ∧ n ≤ 2147483647

instance (n : ℤ) : Decidable (IsInt n) := inferInstanceAs (Decidable (_ ∧ _))

theorem isInt_toInt (n : ℤ) : IsInt (toInt n) := by
  have h1 := Int.le_bmod (x := n) (m := 2 ^ 32) (by decide)
  have h2 := Int.bmod_lt (x := n) (m := 2 ^ 32) (by decide)
  unfold IsInt toInt
  omega

theorem scanWord_take {width : ℕ} {word : Bytes} (hne : word ≠ [])
    (hword : ∀ c ∈ word, isSpace c = false) (hwidth : width ≠ 0) (t : Bytes) :
    scanWord width (word ++ 32 :: t) = some (word.take width, word.drop width ++ 32 :: t) := by
  obtain ⟨c, rest, hcs⟩ := List.exists_cons_of_ne_nil hne
  have hskip : skipSpace (word ++ 32 :: t) = word ++ 32 :: t := by
    rw [hcs, List.cons_append]
    exact skipSpace_of_head (hword c (by simp [hcs])) _
  have htake : (word ++ 32 :: t).takeWhile (fun c => !isSpace c) = word := by
    rw [List.takeWhile_append_of_pos fun c hc => by simp [hword c hc]]
    simp [isSpace]
  have htne : word.take width ≠ [] := by simp [hne, hwidth]
  have hdrop : (word ++ 32 :: t).drop (word.take width).length = word.drop width ++ 32 :: t := by
    rw [List.length_take]
    rcases Nat.le_total width word.length with hle | hle
    · rw [Nat.min_eq_left hle, List.drop_append_of_le_length hle]
    · rw [Nat.min_eq_right hle, List.drop_left, List.drop_eq_nil_of_le hle, List.nil_append]
  unfold scanWord
  simp only [hskip, htake, if_neg htne, hdrop]

theorem scanWord_append {width : ℕ} {word : Bytes} (hne : word ≠ [])
    (hword : ∀ c ∈ word, isSpace c = false) (hlen : word.length ≤ width) (t : Bytes) :
    scanWord width (word ++ 32 :: t) = some (word, 32 :: t) := by
  have hwidth : width ≠ 0 := fun hw => hne (List.eq_nil_of_length_eq_zero (by omega))
  rw [scanWord_take hne hword hwidth, List.take_of_length_le hlen, List.drop_eq_nil_of_le hlen,
    List.nil_append]

theorem scanWord_space (width : ℕ) (s : Bytes) :
    scanWord width (32 :: s) = scanWord width s := rfl

theorem scanWord_eq_some {width : ℕ} {s word t : Bytes} (h : scanWord width s = some (word, t)) :
    word ≠ [] ∧ word.length ≤ width ∧ word ⊆ s ∧ t ⊆ s := by
  unfold scanWord at h
  simp only at h
  split at h
  · simp at h
  · next hne =>
    obtain ⟨rfl, rfl⟩ := h
    have hskip : skipSpace s ⊆ s := (List.dropWhile_suffix _).subset
    refine ⟨hne, List.length_take_le _ _, fun c hc => hskip ?_, fun c hc => hskip ?_⟩
    · exact (List.takeWhile_prefix _).subset (List.mem_of_mem_take hc)
    · exact List.mem_of_mem_drop hc

theorem scanDecimal_decimal {n : ℤ} (hn : IsInt n) {t : Bytes}
    (ht : ∀ c ∈ t.head?, isDigit c = false) : scanDecimal (decimal n ++ t) = some (n, t) := by
  have hclamp : max longMin (min longMax n) = n := by
    unfold longMin longMax
    unfold IsInt at hn
    omega
  rw [scanDecimal, scanInt_decimal n ht, Option.map_some]
  simp only [hclamp, toInt_of_mem hn.1 hn.2]

theorem scanDecimal_space (s : Bytes) : scanDecimal (32 :: s) = scanDecimal s := rfl

theorem isInt_of_mem_scanDecimals {n : ℕ} {s : Bytes} {v : ℤ} (h : v ∈ scanDecimals n s) :
    IsInt v := by
  induction n generalizing s with
  | zero => simp [scanDecimals] at h
  | succ n ih =>
    rw [scanDecimals] at h
    split at h
    · next w rest hw =>
      rcases List.mem_cons.mp h with rfl | h
      · obtain ⟨p, -, hp⟩ := Option.map_eq_some_iff.mp hw
        obtain ⟨rfl, -⟩ := Prod.mk.injEq .. ▸ hp
        exact isInt_toInt _
      · exact ih h
    · simp at h

/-! ### Lines of a file -/

/-- `fgets`: up to the next newline, or as much as the buffer holds. -/
def fgets (size : ℕ) (s : Bytes) : Bytes :=
  let line := (s.takeWhile (· != 10)).take (size - 1)
  if line.length < size - 1 then s.take (line.length + 1) else line

/-- The lines that `fgets` cuts a file into, with as many turns as it is long. -/
def fgetsLoop (size : ℕ) : ℕ → Bytes → List Bytes
  | 0, _ => []
  | fuel + 1, s =>
    if s = [] then []
    else
      let line := fgets size s
      line :: fgetsLoop size fuel (s.drop line.length)

def fgetsLines (size : ℕ) (s : Bytes) : List Bytes := fgetsLoop size s.length s

theorem fgets_append {size : ℕ} {line : Bytes} (hline : (10 : Byte) ∉ line)
    (hlen : line.length + 1 < size) (t : Bytes) : fgets size (line ++ 10 :: t) = line ++ [10] := by
  have htake : (line ++ 10 :: t).takeWhile (· != 10) = line := by
    rw [takeWhile_append_sep, List.takeWhile_eq_self_iff]
    intro c hc
    simpa using fun h : c = 10 => hline (h ▸ hc)
  unfold fgets
  simp only [htake, List.take_of_length_le (show line.length ≤ size - 1 by omega),
    if_pos (show line.length < size - 1 by omega)]
  rw [List.take_append, List.take_of_length_le (by omega), Nat.add_sub_cancel_left]
  rfl

/-- **Lines that were written are read back**, each as one, if they fit the
buffer. -/
theorem fgetsLines_flatten {size : ℕ} {lines : List Bytes}
    (h : ∀ line ∈ lines, (10 : Byte) ∉ line ∧ line.length + 1 < size) :
    fgetsLines size (lines.map fun line => line ++ [10]).flatten
      = lines.map fun line => line ++ [10] := by
  suffices hloop : ∀ fuel, (lines.map fun line => line ++ [10]).flatten.length ≤ fuel →
      fgetsLoop size fuel (lines.map fun line => line ++ [10]).flatten
        = lines.map fun line => line ++ [10] from hloop _ le_rfl
  induction lines with
  | nil =>
    intro fuel _
    cases fuel <;> rfl
  | cons line lines ih =>
    intro fuel hfuel
    obtain ⟨hline, hlen⟩ := h line List.mem_cons_self
    simp only [List.map_cons, List.flatten_cons, List.length_append, List.length_cons,
      List.length_nil] at hfuel
    cases fuel with
    | zero => omega
    | succ fuel =>
      have hfgets := fgets_append hline hlen (lines.map fun line => line ++ [10]).flatten
      have hcons : (line ++ [10]) ++ (lines.map fun line => line ++ [10]).flatten
          = line ++ 10 :: (lines.map fun line => line ++ [10]).flatten := by simp
      rw [List.map_cons, List.flatten_cons, hcons, fgetsLoop, if_neg (by simp), hfgets]
      simp only [← hcons, List.drop_left, List.cons.injEq, true_and]
      exact ih (fun l hl => h l (List.mem_cons_of_mem _ hl)) fuel (by omega)

end OpenCms
