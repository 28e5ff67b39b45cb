import Mathlib.Data.List.Basic
import Mathlib.Data.Rat.Defs

/-!
# Values of JSON and the schemas that read them

A schema reads a value of a type from a JSON value, or refuses it, and writes values of the
type. It may leave things out when it reads, such as keys it does not know, so reading and
writing are not inverse to each other; but what was read once and is written is read as the
same (`OpenCms.Schema.stable`). That is a field of a schema, so that the schema of a record
has it from the schemas of its parts.

The part of a schema that reads a record is `OpenCms.Fields`: it looks at its own keys only,
which is why two of them for different keys can be put beside each other
(`OpenCms.Fields.pair`).
-/

namespace OpenCms

/-- A value of JSON, with keys of `κ` and strings of `σ`. -/
inductive Json (κ σ : Type) : Type
  | null
  | bool (b : Bool)
  | num (q : ℚ)
  | str (s : σ)
  | arr (items : List (Json κ σ))
  | obj (members : List (κ × Json κ σ))

/-- A way to read and to write values of a type. -/
structure Schema (κ σ α : Type) where
  parse : Json κ σ → Option α
  print : α → Json κ σ
  /-- What was read is read again from what is written for it. -/
  stable : ∀ {j a}, parse j = some a → parse (print a) = some a

abbrev Members (κ σ : Type) : Type := List (κ × Json κ σ)

section

variable {κ σ : Type} [DecidableEq κ]

/-- The value of a key. -/
def Members.get (l : Members κ σ) (k : κ) : Option (Json κ σ) := (l.find? (·.1 = k)).map Prod.snd

theorem Members.get_append {l l' : Members κ σ} {k : κ} (h : ∀ kv ∈ l, kv.1 ≠ k) :
    (l ++ l').get k = l'.get k := by
  have hnone : l.find? (·.1 = k) = none := List.find?_eq_none.mpr (by simpa using h)
  rw [get, get, List.find?_append, hnone, Option.none_or]

theorem Members.get_append_left {l l' : Members κ σ} {k : κ} (h : ∀ kv ∈ l', kv.1 ≠ k) :
    (l ++ l').get k = l.get k := by
  have hnone : l'.find? (·.1 = k) = none := List.find?_eq_none.mpr (by simpa using h)
  rw [get, get, List.find?_append, hnone, Option.or_none]

/-- A way to read and to write the members of an object that have certain keys. -/
structure Fields (κ σ α : Type) [DecidableEq κ] where
  keys : List κ
  parse : Members κ σ → Option α
  print : α → Members κ σ
  print_keys : ∀ a, ∀ kv ∈ print a, kv.1 ∈ keys
  /-- No key is asked for twice. -/
  apart : Bool
  /-- Only the own keys are looked at. -/
  congr : ∀ {l l' : Members κ σ}, (∀ k ∈ keys, l.get k = l'.get k) → parse l = parse l'
  stable : apart = true → ∀ {l a}, parse l = some a → parse (print a) = some a

end

namespace Schema

variable {κ σ α β : Type}

theorem mem_of_mapM {f : β → Option α} {l : List β} {as : List α} (h : l.mapM f = some as)
    {a : α} : a ∈ as ↔ ∃ b ∈ l, f b = some a := by
  induction l generalizing as with
  | nil =>
    obtain rfl : [] = as := Option.some.inj h
    simp
  | cons b l ih =>
    rw [List.mapM_cons] at h
    obtain ⟨a', ha', h⟩ := Option.bind_eq_some_iff.mp h
    obtain ⟨as', has', h⟩ := Option.bind_eq_some_iff.mp h
    obtain rfl := Option.some.inj h
    simp [ih has', ha', eq_comm]

theorem mapM_stable (s : Schema κ σ α) {l : List (Json κ σ)} {as : List α}
    (h : l.mapM s.parse = some as) : (as.map s.print).mapM s.parse = some as := by
  induction l generalizing as with
  | nil =>
    obtain rfl : [] = as := Option.some.inj h
    rfl
  | cons j l ih =>
    rw [List.mapM_cons] at h
    obtain ⟨a, ha, h⟩ := Option.bind_eq_some_iff.mp h
    obtain ⟨as', has', h⟩ := Option.bind_eq_some_iff.mp h
    obtain rfl := Option.some.inj h
    rw [List.map_cons, List.mapM_cons, s.stable ha, ih has']
    rfl

def str : Schema κ σ σ where
  parse | .str s => some s | _ => none
  print := .str
  stable _ := rfl

def strWhere (p : σ → Bool) : Schema κ σ σ where
  parse | .str s => if p s then some s else none | _ => none
  print := .str
  stable {j a} h := by
    cases j with
    | str s =>
      have hs : p s = true ∧ s = a := by simpa using h
      simp [← hs.2, hs.1]
    | _ => simp at h

/-- A truth value. -/
def bool : Schema κ σ Bool where
  parse | .bool b => some b | _ => none
  print := .bool
  stable _ := rfl

def num (p : ℚ → Bool) : Schema κ σ ℚ where
  parse | .num q => if p q then some q else none | _ => none
  print := .num
  stable {j a} h := by
    cases j with
    | num q =>
      have hq : p q = true ∧ q = a := by simpa using h
      simp [← hq.2, hq.1]
    | _ => simp at h

def onlyBool (b : Bool) : Schema κ σ Unit where
  parse | .bool b' => if b' = b then some () else none | _ => none
  print _ := .bool b
  stable _ := by simp

def onlyNum (q : ℚ) : Schema κ σ Unit where
  parse | .num q' => if q' = q then some () else none | _ => none
  print _ := .num q
  stable _ := by simp

/-- The schema for another type, whose values are made of the ones that are read. -/
def map (s : Schema κ σ α) (f : α → β) (g : β → α) (h : ∀ a, g (f a) = a) : Schema κ σ β where
  parse j := (s.parse j).map f
  print b := s.print (g b)
  stable {j b} hb := by
    obtain ⟨a, ha, rfl⟩ := Option.map_eq_some_iff.mp hb
    rw [h, s.stable ha, Option.map_some]

def array (s : Schema κ σ α) : Schema κ σ (List α) where
  parse | .arr l => l.mapM s.parse | _ => none
  print as := .arr (as.map s.print)
  stable {j as} h := by
    cases j with
    | arr l => exact s.mapM_stable h
    | _ => simp at h

/-- One schema or another that reads nothing of what the first writes. -/
def union (s : Schema κ σ α) (s' : Schema κ σ β) (apart : ∀ b, s.parse (s'.print b) = none) :
    Schema κ σ (α ⊕ β) where
  parse j := ((s.parse j).map Sum.inl).or ((s'.parse j).map Sum.inr)
  print | .inl a => s.print a | .inr b => s'.print b
  stable {j x} h := by
    rcases Option.or_eq_some_iff.mp h with h | ⟨-, h⟩
    · obtain ⟨a, ha, rfl⟩ := Option.map_eq_some_iff.mp h
      simp [s.stable ha]
    · obtain ⟨b, hb, rfl⟩ := Option.map_eq_some_iff.mp h
      simp [apart, s'.stable hb]

def only [DecidableEq σ] (s : σ) : Schema κ σ Unit where
  parse | .str s' => if s' = s then some () else none | _ => none
  print _ := .str s
  stable _ := by simp

def enum [DecidableEq σ] (values : List α) (name : α → σ) : Schema κ σ α where
  parse | .str s => values.find? (name · = s) | _ => none
  print a := .str (name a)
  stable {j a} h := by
    cases j with
    | str s =>
      have hs : name a = s := by simpa using List.find?_some h
      simpa [hs] using h
    | _ => simp at h

/-- An object; keys that are not its own are passed over. -/
def object [DecidableEq κ] (f : Fields κ σ α) (apart : f.apart = true) : Schema κ σ α where
  parse | .obj l => f.parse l | _ => none
  print a := .obj (f.print a)
  stable {j a} h := by
    cases j with
    | obj l => exact f.stable apart h
    | _ => simp at h

def record [DecidableEq κ] (f : Fields κ σ α) (make : α → β) (parts : β → α)
    (h : ∀ a, parts (make a) = a) (apart : f.apart = true) : Schema κ σ β :=
  (object f apart).map make parts h

end Schema

namespace Fields

variable {κ σ α β : Type} [DecidableEq κ]

def required (k : κ) (s : Schema κ σ α) : Fields κ σ α where
  keys := [k]
  parse l := (l.get k).bind s.parse
  print a := [(k, s.print a)]
  print_keys a kv h := by simpa using congrArg Prod.fst (List.mem_singleton.mp h)
  apart := true
  congr h := by rw [h k (List.mem_singleton_self k)]
  stable _ {l a} h := by
    obtain ⟨j, -, hj⟩ := Option.bind_eq_some_iff.mp h
    simpa [Members.get] using s.stable hj

/-- A key that may be missing. -/
def optional (k : κ) (s : Schema κ σ α) : Fields κ σ (Option α) where
  keys := [k]
  parse l :=
    match l.get k with
    | none => some none
    | some j => (s.parse j).map some
  print a := (a.map fun a => (k, s.print a)).toList
  print_keys a kv h := by
    obtain ⟨b, -, hb⟩ := Option.map_eq_some_iff.mp (Option.mem_toList.mp h)
    simp [← hb]
  apart := true
  congr h := by rw [h k (List.mem_singleton_self k)]
  stable _ {l a} h := by
    split at h
    · obtain rfl := Option.some.inj h
      rfl
    next j _ =>
      obtain ⟨b, hb, rfl⟩ := Option.map_eq_some_iff.mp h
      simp [Members.get, s.stable hb]

/-- The schema for another type, whose values are made of the ones that are read. -/
def map (f : Fields κ σ α) (make : α → β) (parts : β → α) (h : ∀ a, parts (make a) = a) :
    Fields κ σ β where
  keys := f.keys
  parse l := (f.parse l).map make
  print b := f.print (parts b)
  print_keys b := f.print_keys (parts b)
  apart := f.apart
  congr hl := by rw [f.congr hl]
  stable hapart {l b} hb := by
    obtain ⟨a, ha, rfl⟩ := Option.map_eq_some_iff.mp hb
    rw [h, f.stable hapart ha, Option.map_some]

/-- Two parts of an object. -/
def pair (f : Fields κ σ α) (g : Fields κ σ β) : Fields κ σ (α × β) where
  keys := f.keys ++ g.keys
  parse l := (f.parse l).bind fun a => (g.parse l).map fun b => (a, b)
  print x := f.print x.1 ++ g.print x.2
  print_keys x kv h := by
    rcases List.mem_append.mp h with h | h
    · exact List.mem_append_left _ (f.print_keys _ kv h)
    · exact List.mem_append_right _ (g.print_keys _ kv h)
  congr h := by
    rw [f.congr fun k hk => h k (List.mem_append_left _ hk),
      g.congr fun k hk => h k (List.mem_append_right _ hk)]
  apart := f.apart && g.apart && f.keys.all (· ∉ g.keys)
  stable hapart {l x} h := by
    obtain ⟨⟨hfst, hsnd⟩, hne⟩ : (f.apart = true ∧ g.apart = true) ∧ ∀ k ∈ f.keys, k ∉ g.keys := by
      simpa using hapart
    obtain ⟨a, ha, h⟩ := Option.bind_eq_some_iff.mp h
    obtain ⟨b, hb, rfl⟩ := Option.map_eq_some_iff.mp h
    have hf : f.parse (f.print a ++ g.print b) = f.parse (f.print a) := by
      refine f.congr fun k hk => Members.get_append_left fun kv hkv heq => ?_
      exact hne k hk (heq ▸ g.print_keys b kv hkv)
    have hg : g.parse (f.print a ++ g.print b) = g.parse (g.print b) := by
      refine g.congr fun k hk => Members.get_append fun kv hkv heq => ?_
      exact hne k (heq ▸ f.print_keys a kv hkv) hk
    rw [hf, hg, f.stable hfst ha, g.stable hsnd hb]
    rfl

/-- One kind of object or another, of which the first reads nothing of what the second
writes. -/
def choice (f : Fields κ σ α) (g : Fields κ σ β)
    (disjoint : ∀ b, f.parse (g.print b) = none) : Fields κ σ (α ⊕ β) where
  keys := f.keys ++ g.keys
  parse l := ((f.parse l).map Sum.inl).or ((g.parse l).map Sum.inr)
  print | .inl a => f.print a | .inr b => g.print b
  print_keys x kv h := by
    cases x with
    | inl a => exact List.mem_append_left _ (f.print_keys a kv h)
    | inr b => exact List.mem_append_right _ (g.print_keys b kv h)
  congr h := by
    rw [f.congr fun k hk => h k (List.mem_append_left _ hk),
      g.congr fun k hk => h k (List.mem_append_right _ hk)]
  apart := f.apart && g.apart
  stable hapart {l x} h := by
    obtain ⟨hfst, hsnd⟩ : f.apart = true ∧ g.apart = true := by simpa using hapart
    rcases Option.or_eq_some_iff.mp h with h | ⟨-, h⟩
    · obtain ⟨a, ha, rfl⟩ := Option.map_eq_some_iff.mp h
      simp [f.stable hfst ha]
    · obtain ⟨b, hb, rfl⟩ := Option.map_eq_some_iff.mp h
      simp [disjoint, g.stable hsnd hb]

end Fields

end OpenCms
