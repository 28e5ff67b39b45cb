import OpenCms.Lib.Schema

/-!
# What JSON keeps of a value

A value of the language can hold what a JSON text cannot: the value `undefined` and the numbers
that are not finite. `JSON.stringify` leaves out a member that is `undefined` and writes `null` for
everything else of this kind. So a value comes back from its text, up to members that are
`undefined`, exactly if it is plain (`OpenCms.JsValue.kept_ofJson_stringify`).

A text is identified with the value of `OpenCms.Json` that it denotes.
-/

namespace OpenCms

/-- A value of data. The members of an object stand in the order in which they are enumerated. -/
inductive JsValue (κ σ : Type) : Type
  | undefined
  | null
  | bool (b : Bool)
  | num (q : ℚ)
  | nan
  | infinity (negative : Bool)
  | str (s : σ)
  | arr (items : List (JsValue κ σ))
  | obj (members : List (κ × JsValue κ σ))

abbrev JsMembers (κ σ : Type) : Type := List (κ × JsValue κ σ)

@[elab_as_elim]
theorem Json.induct {κ σ : Type} {P : Json κ σ → Prop} (null : P null) (bool : ∀ b, P (bool b))
    (num : ∀ q, P (num q)) (str : ∀ s, P (str s))
    (arr : ∀ items : List (Json κ σ), (∀ j ∈ items, P j) → P (arr items))
    (obj : ∀ members : List (κ × Json κ σ), (∀ kj ∈ members, P kj.2) → P (obj members))
    (j : Json κ σ) : P j :=
  @Json.rec κ σ P (fun items => ∀ j ∈ items, P j) (fun members => ∀ kj ∈ members, P kj.2)
    (fun kj => P kj.2) null bool num str arr obj (by simp)
    (fun _ _ hj hitems => List.forall_mem_cons.mpr ⟨hj, hitems⟩) (by simp)
    (fun _ _ hkj hmembers => List.forall_mem_cons.mpr ⟨hkj, hmembers⟩) (fun _ _ hj => hj) j

namespace JsValue

variable {κ σ : Type}

@[elab_as_elim]
theorem induct {P : JsValue κ σ → Prop} (undefined : P undefined) (null : P null)
    (bool : ∀ b, P (bool b)) (num : ∀ q, P (num q)) (nan : P nan)
    (infinity : ∀ negative, P (infinity negative)) (str : ∀ s, P (str s))
    (arr : ∀ items : List (JsValue κ σ), (∀ v ∈ items, P v) → P (arr items))
    (obj : ∀ members : JsMembers κ σ, (∀ kv ∈ members, P kv.2) → P (obj members))
    (v : JsValue κ σ) : P v :=
  @JsValue.rec κ σ P (fun items => ∀ v ∈ items, P v) (fun members => ∀ kv ∈ members, P kv.2)
    (fun kv => P kv.2) undefined null bool num nan infinity str arr obj (by simp)
    (fun _ _ hv hitems => List.forall_mem_cons.mpr ⟨hv, hitems⟩) (by simp)
    (fun _ _ hkv hmembers => List.forall_mem_cons.mpr ⟨hkv, hmembers⟩) (fun _ _ hv => hv) v

/-! ### Writing and reading -/

mutual

def stringify : JsValue κ σ → Option (Json κ σ)
  | .undefined => none
  | .null | .nan | .infinity _ => some .null
  | .bool b => some (.bool b)
  | .num q => some (.num q)
  | .str s => some (.str s)
  | .arr items => some (.arr (stringifyItems items))
  | .obj members => some (.obj (stringifyMembers members))

/-- The items of an array: one that has no text is written as `null`. -/
def stringifyItems : List (JsValue κ σ) → List (Json κ σ)
  | [] => []
  | v :: items => (stringify v).getD .null :: stringifyItems items

/-- The members of an object: one that has no text is left out. -/
def stringifyMembers : JsMembers κ σ → List (κ × Json κ σ)
  | [] => []
  | (k, v) :: members => ((stringify v).map (k, ·)).toList ++ stringifyMembers members

end

mutual

def ofJson : Json κ σ → JsValue κ σ
  | .null => .null
  | .bool b => .bool b
  | .num q => .num q
  | .str s => .str s
  | .arr items => .arr (ofJsonItems items)
  | .obj members => .obj (ofJsonMembers members)

def ofJsonItems : List (Json κ σ) → List (JsValue κ σ)
  | [] => []
  | j :: items => ofJson j :: ofJsonItems items

def ofJsonMembers : List (κ × Json κ σ) → JsMembers κ σ
  | [] => []
  | (k, j) :: members => (k, ofJson j) :: ofJsonMembers members

end

/-! ### Up to members that are `undefined` -/

def isUndefined : JsValue κ σ → Bool
  | .undefined => true
  | _ => false

mutual

def kept : JsValue κ σ → JsValue κ σ
  | .arr items => .arr (keptItems items)
  | .obj members => .obj (keptMembers members)
  | v => v

def keptItems : List (JsValue κ σ) → List (JsValue κ σ)
  | [] => []
  | v :: items => kept v :: keptItems items

def keptMembers : JsMembers κ σ → JsMembers κ σ
  | [] => []
  | (k, v) :: members => if v.isUndefined then keptMembers members
      else (k, kept v) :: keptMembers members

end

mutual

/-- Every number is finite, and `undefined` stands as a member only. -/
def isPlain : JsValue κ σ → Bool
  | .nan | .infinity _ => false
  | .arr items => isPlainItems items
  | .obj members => isPlainMembers members
  | _ => true

def isPlainItems : List (JsValue κ σ) → Bool
  | [] => true
  | v :: items => !v.isUndefined && isPlain v && isPlainItems items

def isPlainMembers : JsMembers κ σ → Bool
  | [] => true
  | (_, v) :: members => isPlain v && isPlainMembers members

end

/-! ### What comes back -/

section

variable {v : JsValue κ σ} {items : List (JsValue κ σ)} {members : JsMembers κ σ}

theorem isUndefined_ofJson (j : Json κ σ) : (ofJson j).isUndefined = false := by
  cases j <;> rfl

theorem eq_undefined (h : v.isUndefined) : v = .undefined := by
  cases v with
  | undefined => rfl
  | _ => cases h

theorem stringify_eq_none : stringify v = none ↔ v.isUndefined := by
  cases v <;> simp [stringify, isUndefined]

theorem stringifyItems_ofJsonItems {items : List (Json κ σ)}
    (h : ∀ j ∈ items, stringify (ofJson j) = some j) :
    stringifyItems (ofJsonItems items) = items := by
  induction items with
  | nil => rfl
  | cons j items ih =>
    obtain ⟨hj, hitems⟩ := List.forall_mem_cons.mp h
    rw [ofJsonItems, stringifyItems, hj, ih hitems, Option.getD_some]

theorem stringifyMembers_ofJsonMembers {members : List (κ × Json κ σ)}
    (h : ∀ kj ∈ members, stringify (ofJson kj.2) = some kj.2) :
    stringifyMembers (ofJsonMembers members) = members := by
  induction members with
  | nil => rfl
  | cons kj members ih =>
    obtain ⟨hj, hmembers⟩ := List.forall_mem_cons.mp h
    rw [ofJsonMembers, stringifyMembers, hj, ih hmembers]
    rfl

/-- A text is read as a value that is written as the same text. -/
theorem stringify_ofJson (j : Json κ σ) : stringify (ofJson j) = some j := by
  induction j using Json.induct with
  | arr items ih => rw [ofJson, stringify, stringifyItems_ofJsonItems ih]
  | obj members ih => rw [ofJson, stringify, stringifyMembers_ofJsonMembers ih]
  | _ => rfl

theorem stringifyMembers_ofJsonMembers_self (members : List (κ × Json κ σ)) :
    stringifyMembers (ofJsonMembers members) = members :=
  stringifyMembers_ofJsonMembers fun kj _ => stringify_ofJson kj.2

theorem keptItems_stringifyItems
    (h : ∀ v ∈ items, ∀ j, stringify v = some j → (kept (ofJson j) = kept v ↔ v.isPlain)) :
    keptItems (ofJsonItems (stringifyItems items)) = keptItems items ↔ isPlainItems items := by
  induction items with
  | nil => exact iff_of_true rfl rfl
  | cons v items ih =>
    obtain ⟨hv, hitems⟩ := List.forall_mem_cons.mp h
    simp only [stringifyItems, ofJsonItems, keptItems, isPlainItems, List.cons.injEq,
      Bool.and_eq_true, ih hitems]
    refine and_congr_left' ?_
    rcases hs : stringify v with _ | j
    · -- `undefined` becomes `null`
      obtain rfl : v = .undefined := eq_undefined (stringify_eq_none.mp hs)
      simp [ofJson, kept, isUndefined]
    · have hdefined : v.isUndefined = false := by
        rw [← Bool.not_eq_true, ← stringify_eq_none, hs]
        exact Option.some_ne_none j
      simp [hdefined, hv j hs]

theorem keptMembers_stringifyMembers
    (h : ∀ kv ∈ members, ∀ j, stringify kv.2 = some j →
      (kept (ofJson j) = kept kv.2 ↔ kv.2.isPlain)) :
    keptMembers (ofJsonMembers (stringifyMembers members)) = keptMembers members ↔
      isPlainMembers members := by
  induction members with
  | nil => exact iff_of_true rfl rfl
  | cons kv members ih =>
    obtain ⟨k, v⟩ := kv
    obtain ⟨hv, hmembers⟩ := List.forall_mem_cons.mp h
    rcases hs : stringify v with _ | j
    · -- a member that is `undefined` is on neither side
      obtain rfl : v = .undefined := eq_undefined (stringify_eq_none.mp hs)
      simpa [stringifyMembers, stringify, keptMembers, isUndefined, isPlainMembers, isPlain]
        using ih hmembers
    · have hdefined : v.isUndefined = false := by
        rw [← Bool.not_eq_true, ← stringify_eq_none, hs]
        exact Option.some_ne_none j
      simp [stringifyMembers, hs, ofJsonMembers, keptMembers, isUndefined_ofJson, hdefined,
        isPlainMembers, hv j hs, ih hmembers]

/-- **A value comes back from its text exactly if it is plain.** -/
theorem kept_ofJson_stringify {j : Json κ σ} (h : stringify v = some j) :
    kept (ofJson j) = kept v ↔ v.isPlain := by
  induction v using JsValue.induct generalizing j with
  | undefined => cases h
  | nan | infinity negative =>
    obtain rfl := Option.some.inj h
    simp [ofJson, kept, isPlain]
  | arr items ih =>
    obtain rfl := Option.some.inj h
    rw [ofJson, kept, kept, JsValue.arr.injEq]
    exact keptItems_stringifyItems fun v hv j => ih v hv
  | obj members ih =>
    obtain rfl := Option.some.inj h
    rw [ofJson, kept, kept, JsValue.obj.injEq]
    exact keptMembers_stringifyMembers fun kv hkv j => ih kv hkv
  | _ =>
    obtain rfl := Option.some.inj h
    exact iff_of_true rfl rfl

/-- **The members of an object come back exactly if they are plain.** -/
theorem keptMembers_ofJsonMembers_iff :
    keptMembers (ofJsonMembers (stringifyMembers members)) = keptMembers members ↔
      isPlainMembers members :=
  keptMembers_stringifyMembers fun _ _ _ => kept_ofJson_stringify

theorem fst_mem_of_mem_ofJsonMembers {kv : κ × JsValue κ σ}
    (h : kv ∈ ofJsonMembers (stringifyMembers members)) : kv.1 ∈ members.map Prod.fst := by
  induction members with
  | nil => cases h
  | cons kv' members ih =>
    obtain ⟨k, v⟩ := kv'
    rw [List.map_cons, List.mem_cons]
    rcases hs : stringify v with _ | j
    · rw [stringifyMembers, hs] at h
      exact Or.inr (ih h)
    · rw [stringifyMembers, hs] at h
      rcases List.mem_cons.mp h with rfl | h
      · exact Or.inl rfl
      · exact Or.inr (ih h)

end

end JsValue

end OpenCms
