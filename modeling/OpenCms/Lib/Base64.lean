import OpenCms.Lib.CString
import Mathlib.Tactic.IntervalCases

/-!
# Base64, as the block codec computes it

The encoder writes four characters for three bytes and fills the last block up
with `=`; the decoder is the block decoder of a C library, which reads `=` as six
zero bits and always answers three bytes for four characters, so that its answer
ends in as many zero bytes as there were `=` signs
(`OpenCms.Base64.decodeBlock_encode`).

The fill can therefore be dropped in transit and put back from the length alone:
`OpenCms.Base64.refill` is that statement.
-/

namespace OpenCms.Base64

/-! ### The alphabet -/

def alphabet : Bytes := lit "ABCDEFGHIJKLMNOPQRSTUVWXYZabcdefghijklmnopqrstuvwxyz0123456789+/"

/-- The character of six bits. -/
def sextet (v : ℕ) : Byte := alphabet.getD (v % 64) 0

def fill : Byte := 61

/-- The six bits a character stands for; the fill stands for zero. -/
def sextetVal (c : Byte) : Option ℕ :=
  if 65 ≤ c ∧ c ≤ 90 then some (c.toNat - 65)
  else if 97 ≤ c ∧ c ≤ 122 then some (c.toNat - 71)
  else if 48 ≤ c ∧ c ≤ 57 then some (c.toNat + 4)
  else if c = 43 then some 62
  else if c = 47 then some 63
  else if c = fill then some 0
  else none

theorem sextet_lt (v : ℕ) : ∃ i < 64, sextet v = sextet i :=
  ⟨v % 64, Nat.mod_lt v (by omega), by rw [sextet, sextet, Nat.mod_mod]⟩

/-- **A character stands for the bits it was written for.** -/
theorem sextetVal_sextet (v : ℕ) : sextetVal (sextet v) = some (v % 64) := by
  obtain ⟨i, hi, heq⟩ : ∃ i < 64, v % 64 = i := ⟨v % 64, Nat.mod_lt v (by omega), rfl⟩
  rw [sextet, heq, alphabet, lit_ofList]
  interval_cases i <;> decide

theorem length_alphabet : alphabet.length = 64 := by
  rw [alphabet, lit_ofList]
  rfl

theorem sextet_ne {c : Byte} (h : c ∉ alphabet) (v : ℕ) : sextet v ≠ c := by
  rintro rfl
  refine h ?_
  have hv : v % 64 < alphabet.length := by
    rw [length_alphabet]
    exact Nat.mod_lt v (by decide)
  rw [sextet, ← List.getElem_eq_getD (h := hv)]
  exact List.getElem_mem hv

/-! ### The codec -/

/-- The encoding: four characters for three bytes, the last block filled up. -/
def encode : Bytes → Bytes
  | a :: b :: c :: s =>
    let v := a.toNat * 65536 + b.toNat * 256 + c.toNat
    sextet (v / 262144) :: sextet (v / 4096) :: sextet (v / 64) :: sextet v :: encode s
  | [a, b] =>
    let v := a.toNat * 65536 + b.toNat * 256
    [sextet (v / 262144), sextet (v / 4096), sextet (v / 64), fill]
  | [a] =>
    let v := a.toNat * 65536
    [sextet (v / 262144), sextet (v / 4096), fill, fill]
  | [] => []

/-- The blocks of the decoder: three bytes for four characters. -/
def decodeGroups : Bytes → Option Bytes
  | [] => some []
  | a :: b :: c :: d :: s => do
    let a ← sextetVal a
    let b ← sextetVal b
    let c ← sextetVal c
    let d ← sextetVal d
    let v := a * 262144 + b * 4096 + c * 64 + d
    let rest ← decodeGroups s
    return UInt8.ofNat (v / 65536) :: UInt8.ofNat (v / 256) :: UInt8.ofNat v :: rest
  | _ => none

/-- A blank the decoder skips at the front. -/
def isBlank (c : Byte) : Bool := c == 32 || c == 9

/-- What the decoder strips off the end: blanks, line ends and `-`. -/
def isTail (c : Byte) : Bool := isBlank c || c == 10 || c == 13 || c == 45

/-- Trailing characters are stripped while more than three are left. -/
def stripTail (s : Bytes) : Bytes :=
  s.take (max 3 (s.length - (s.reverse.takeWhile isTail).length))

/-- **The block decoder**: `EVP_DecodeBlock`. -/
def decodeBlock (s : Bytes) : Option Bytes := decodeGroups (stripTail (s.dropWhile isBlank))

/-! ### What an encoding looks like -/

/-- How many fill characters an encoding of `n` bytes ends in. -/
def fillCount (n : ℕ) : ℕ := (3 - n % 3) % 3

def unfilled (s : Bytes) : Bytes := (encode s).takeWhile (· != fill)

theorem mem_encode {s : Bytes} {c : Byte} (h : c ∈ encode s) :
    (∃ v, c = sextet v) ∨ c = fill := by
  fun_induction encode s with
  | case1 a b c' s v ih =>
    simp only [List.mem_cons] at h
    rcases h with h | h | h | h | h
    · exact Or.inl ⟨_, h⟩
    · exact Or.inl ⟨_, h⟩
    · exact Or.inl ⟨_, h⟩
    · exact Or.inl ⟨_, h⟩
    · exact ih h
  | case2 a b v =>
    simp only [List.mem_cons, List.not_mem_nil, or_false] at h
    rcases h with h | h | h | h
    · exact Or.inl ⟨_, h⟩
    · exact Or.inl ⟨_, h⟩
    · exact Or.inl ⟨_, h⟩
    · exact Or.inr h
  | case3 a v =>
    simp only [List.mem_cons, List.not_mem_nil, or_false] at h
    rcases h with h | h | h | h
    · exact Or.inl ⟨_, h⟩
    · exact Or.inl ⟨_, h⟩
    · exact Or.inr h
    · exact Or.inr h
  | case4 => simp at h

theorem isTail_sextet (v : ℕ) : isTail (sextet v) = false := by
  obtain ⟨i, hi, heq⟩ := sextet_lt v
  rw [heq, sextet, alphabet, lit_ofList]
  interval_cases i <;> decide

theorem isTail_of_mem_encode {s : Bytes} {c : Byte} (h : c ∈ encode s) : isTail c = false := by
  rcases mem_encode h with ⟨v, rfl⟩ | rfl
  · exact isTail_sextet v
  · decide

theorem decodeBlock_of_encode (s : Bytes) : decodeBlock (encode s) = decodeGroups (encode s) := by
  have hfront : (encode s).dropWhile isBlank = encode s := by
    rw [List.dropWhile_eq_self_iff]
    intro hl
    have := isTail_of_mem_encode (List.getElem_mem hl)
    simp only [isTail, Bool.or_eq_false_iff] at this
    simpa using this.1.1.1
  have htail : ((encode s).reverse.takeWhile isTail) = [] := by
    rw [List.takeWhile_eq_nil_iff]
    intro hl
    simpa using isTail_of_mem_encode (List.mem_reverse.mp (List.getElem_mem hl))
  rw [decodeBlock, hfront, stripTail, htail]
  congr 1
  exact List.take_of_length_le (by simp)

private theorem ofNat_toNat_of_eq {a : Byte} {n : ℕ} (h : n % 256 = a.toNat) :
    UInt8.ofNat n = a := by
  apply UInt8.toNat_inj.mp
  rw [UInt8.toNat_ofNat', h]

/-- **Decoding an encoding**: the bytes come back, followed by one zero byte for
each fill character. -/
theorem decodeGroups_encode (s : Bytes) :
    decodeGroups (encode s) = some (s ++ List.replicate (fillCount s.length) 0) := by
  fun_induction encode s with
  | case1 a b c s v ih =>
    have ha := a.toNat_lt
    have hb := b.toNat_lt
    have hc := c.toNat_lt
    have hcount : fillCount (a :: b :: c :: s).length = fillCount s.length := by
      simp only [List.length_cons, fillCount]
      omega
    simp only [decodeGroups, sextetVal_sextet, ih, Option.bind_eq_bind, Option.bind_some,
      Option.pure_def, hcount, List.cons_append]
    congr 2
    · exact ofNat_toNat_of_eq (by omega)
    congr 1
    · exact ofNat_toNat_of_eq (by omega)
    congr 1
    exact ofNat_toNat_of_eq (by omega)
  | case2 a b v =>
    have ha := a.toNat_lt
    have hb := b.toNat_lt
    have h0 : sextetVal fill = some 0 := by decide
    simp only [decodeGroups, sextetVal_sextet, h0, Option.bind_eq_bind, Option.bind_some,
      Option.pure_def]
    congr 2
    · exact ofNat_toNat_of_eq (by omega)
    congr 1
    · exact ofNat_toNat_of_eq (by omega)
    congr 1
    exact ofNat_toNat_of_eq (by simp; omega)
  | case3 a v =>
    have ha := a.toNat_lt
    have h0 : sextetVal fill = some 0 := by decide
    simp only [decodeGroups, sextetVal_sextet, h0, Option.bind_eq_bind, Option.bind_some,
      Option.pure_def]
    congr 2
    · exact ofNat_toNat_of_eq (by omega)
    congr 1
    · exact ofNat_toNat_of_eq (by simp; omega)
    congr 1
    exact ofNat_toNat_of_eq (by simp; omega)
  | case4 => rfl

theorem decodeBlock_encode (s : Bytes) :
    decodeBlock (encode s) = some (s ++ List.replicate (fillCount s.length) 0) := by
  rw [decodeBlock_of_encode, decodeGroups_encode]

/-! ### The fill in transit -/

theorem fill_notMem_alphabet : fill ∉ alphabet := by
  rw [alphabet, lit_ofList]
  decide

private theorem bne_fill (v : ℕ) : (sextet v != fill) = true := by
  simpa using sextet_ne fill_notMem_alphabet v

/-- **The fill is a function of the length**: an encoding is what stands before
its fill, followed by as many fill characters as complete the block. -/
theorem refill (s : Bytes) :
    unfilled s ++ List.replicate ((4 - (unfilled s).length % 4) % 4) fill = encode s ∧
      (4 - (unfilled s).length % 4) % 4 = fillCount s.length := by
  unfold unfilled
  fun_induction encode s with
  | case1 a b c s v ih =>
    obtain ⟨h1, h2⟩ := ih
    simp only [List.takeWhile_cons, bne_fill, if_true, List.length_cons, List.cons_append,
      List.cons.injEq, true_and]
    have hmod : (4 - ((List.takeWhile (· != fill) (encode s)).length + 1 + 1 + 1 + 1) % 4) % 4 =
        (4 - (List.takeWhile (· != fill) (encode s)).length % 4) % 4 := by omega
    rw [hmod]
    refine ⟨h1, ?_⟩
    rw [h2]
    simp only [fillCount]
    omega
  | case2 a b v => simp [bne_fill, fillCount]
  | case3 a v => simp [bne_fill, fillCount, List.replicate]
  | case4 => simp [fillCount]

theorem length_encode (s : Bytes) : (encode s).length = 4 * ((s.length + 2) / 3) := by
  fun_induction encode s with
  | case1 a b c s v ih => simp only [List.length_cons, ih]; omega
  | case2 a b v => simp
  | case3 a v => simp
  | case4 => rfl

theorem length_unfilled_le (s : Bytes) : (unfilled s).length ≤ 4 * ((s.length + 2) / 3) := by
  rw [← length_encode]
  exact (List.takeWhile_prefix _).length_le

theorem mem_unfilled {s : Bytes} {c : Byte} (h : c ∈ unfilled s) : ∃ v, c = sextet v := by
  rcases mem_encode ((List.takeWhile_prefix _).subset h) with hv | rfl
  · exact hv
  · simpa using List.mem_takeWhile_imp h

end OpenCms.Base64
