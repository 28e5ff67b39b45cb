import OpenCms.Lib.LiveArray
import OpenCms.Lib.Runs
import Mathlib.Logic.Function.Basic

/-!
# Publishing an event

An event is delivered to four lists of subscribers, one after the other: those of its type and those
of `"*"` of the instance, and then the global ones. The lists are walked through as they are at each
turn, and the callbacks called on the way subscribe and unsubscribe: a `once` does so in the middle
of a delivery whenever its predicate accepts.

`OpenCms.Bus.complete_iff` says when everyone who was there at the start and has not been
unsubscribed before is called: a callback must not throw while one of them waits, nor remove
anything at or before its own place in the list while one waits behind it there, nor may the
callbacks go on for ever subscribing others in a list while one waits in a later one.
-/

namespace OpenCms.Bus

/-- Where a list of subscribers is kept. -/
inductive Scope
  | instanceScoped | global
  deriving DecidableEq, Repr

/-- A list of subscribers: those of a type, or (`none`) those of `"*"`. -/
abbrev Place (τ : Type*) := Scope × Option τ

/-- What is pushed to a list: a function of the caller, or one that `once` or `subscribeGlobal` has
made. -/
inductive Callback (κ : Type*)
  | plain (callback : κ)
  | once
  | gated (minLevel : ℕ)
  deriving DecidableEq, Repr

/-- An entry of a list, by the number of its registration. -/
structure Sub (κ : Type*) where
  id : ℕ
  callback : Callback κ
  deriving DecidableEq, Repr

/-- The lists. Entries are pushed at the end, with growing numbers. -/
structure Registry (κ τ : Type*) where
  lists : Place τ → List (Sub κ)
  next : ℕ
  ordered : ∀ p, LiveArray.Ordered Sub.id (lists p)
  fresh : ∀ p, ∀ s ∈ lists p, s.id < next

/-- What a callback does to the lists. An `unsubscribe` is called with what it has closed over; no
one else has the function that a `once` has made. -/
inductive Action (κ τ : Type*)
  | subscribe (key : Option τ) (callback : κ)
  | once (type : τ)
  | subscribeGlobal (key : Option τ) (minLevel : ℕ)
  | unsubscribe (key : Option τ) (callback : κ)
  | unsubscribeGlobal (key : Option τ) (id : ℕ)
  deriving DecidableEq, Repr

/-- What happens when a callback is called: the log level there is then, what it does, whether it
throws, and what the predicate of a `once` answers. -/
structure Outcome (κ τ : Type*) where
  level : ℕ := 0
  actions : List (Action κ τ) := []
  throws : Bool := false
  accepts : Bool := false
  deriving DecidableEq, Repr

/-- An event on its way: the lists not finished, the first of them at an index, the calls made, and
who has been unsubscribed before its turn. -/
structure Delivery (κ τ : Type*) where
  registry : Registry κ τ
  todo : List (Place τ)
  index : ℕ := 0
  calls : List (Place τ × Sub κ) := []
  withdrawn : List (Place τ × Sub κ) := []

variable {κ τ : Type*} [DecidableEq κ] [DecidableEq τ]

/-! ### The lists -/

def Registry.push (r : Registry κ τ) (p : Place τ) (callback : Callback κ) : Registry κ τ where
  lists := Function.update r.lists p (r.lists p ++ [{ id := r.next, callback }])
  next := r.next + 1
  ordered q := by
    rcases eq_or_ne q p with rfl | hq
    · rw [Function.update_self]
      exact (r.ordered q).concat (r.fresh q)
    · rw [Function.update_of_ne hq]
      exact r.ordered q
  fresh q s hs := by
    rcases eq_or_ne q p with rfl | hq
    · rw [Function.update_self] at hs
      rcases List.mem_append.mp hs with hold | hnew
      · exact Nat.lt_succ_of_lt (r.fresh q s hold)
      · rw [List.mem_singleton.mp hnew]
        exact Nat.lt_succ_self r.next
    · rw [Function.update_of_ne hq] at hs
      exact Nat.lt_succ_of_lt (r.fresh q s hs)

/-- `match.splice(match.indexOf(..), 1)`. -/
def Registry.splice (r : Registry κ τ) (p : Place τ) (is : Sub κ → Bool) : Registry κ τ where
  lists := Function.update r.lists p ((r.lists p).eraseP is)
  next := r.next
  ordered q := by
    rcases eq_or_ne q p with rfl | hq
    · rw [Function.update_self]
      exact (r.ordered q).sublist List.eraseP_sublist
    · rw [Function.update_of_ne hq]
      exact r.ordered q
  fresh q s hs := by
    rcases eq_or_ne q p with rfl | hq
    · rw [Function.update_self] at hs
      exact r.fresh q s (List.mem_of_mem_eraseP hs)
    · rw [Function.update_of_ne hq] at hs
      exact r.fresh q s hs

/-- `raw`, `once`, `subscribeGlobal`, and the functions that the first and the last return. -/
def Registry.act (r : Registry κ τ) : Action κ τ → Registry κ τ
  | .subscribe key callback => r.push (.instanceScoped, key) (.plain callback)
  | .once type => r.push (.instanceScoped, some type) .once
  | .subscribeGlobal key minLevel => r.push (.global, key) (.gated minLevel)
  | .unsubscribe key callback =>
    r.splice (.instanceScoped, key) fun s => s.callback = .plain callback
  | .unsubscribeGlobal key id => r.splice (.global, key) fun s => s.id = id

def Registry.call (r : Registry κ τ) (p : Place τ) (sub : Sub κ) (o : Outcome κ τ) :
    Registry κ τ × Bool :=
  match sub.callback with
  | .plain _ => (o.actions.foldl Registry.act r, o.throws)
  | .gated minLevel =>
    if o.level < minLevel then (r, false) else (o.actions.foldl Registry.act r, o.throws)
  | .once =>
    let r := o.actions.foldl Registry.act r
    if !o.throws && o.accepts then (r.splice p fun s => s.id = sub.id, false) else (r, o.throws)

/-! ### The loops of `publish` -/

def keys (type : τ) : List (Place τ) :=
  [(.instanceScoped, some type), (.instanceScoped, none), (.global, some type), (.global, none)]

def Registry.seek (r : Registry κ τ) :
    List (Place τ) → ℕ → Option (Place τ × List (Place τ) × ℕ × Sub κ)
  | [], _ => none
  | p :: ps, i =>
    match (r.lists p)[i]? with
    | some sub => some (p, ps, i, sub)
    | none => r.seek ps 0

/-- Who stands in the lists not finished, from the index on. -/
def Registry.ahead (r : Registry κ τ) : List (Place τ) → ℕ → List (Place τ × Sub κ)
  | [], _ => []
  | p :: ps, i => ((r.lists p).drop i).map (p, ·) ++ r.ahead ps 0

def step (d : Delivery κ τ) (o : Outcome κ τ) : Delivery κ τ :=
  match d.registry.seek d.todo d.index with
  | none => d
  | some (p, ps, i, sub) =>
    let (registry, threw) := d.registry.call p sub o
    { registry
      todo := if threw then [] else p :: ps
      index := i + 1
      calls := d.calls ++ [(p, sub)]
      withdrawn := d.withdrawn ++
        (d.registry.ahead (p :: ps) (i + 1)).filter fun s => s.2 ∉ registry.lists s.1 }

/-- `publish`, after some calls. -/
def publish (r : Registry κ τ) (type : τ) (outcomes : List (Outcome κ τ)) : Delivery κ τ :=
  run step { registry := r, todo := keys type } outcomes

def firsts (behave : ℕ → Outcome κ τ) (n : ℕ) : List (Outcome κ τ) := (List.range n).map behave

/-! ### What a delivery owes -/

def Registry.registered (r : Registry κ τ) (type : τ) : List (Place τ × Sub κ) :=
  r.ahead (keys type) 0

def Delivery.ahead (d : Delivery κ τ) : List (Place τ × Sub κ) := d.registry.ahead d.todo d.index

def Delivery.turn (d : Delivery κ τ) : Option (Place τ × Sub κ) :=
  (d.registry.seek d.todo d.index).map fun found => (found.1, found.2.2.2)

def Accepts (d : Delivery κ τ) (o : Outcome κ τ) (p : Place τ) (sub : Sub κ) : Prop :=
  d.turn = some (p, sub) ∧ sub.callback = .once ∧ o.throws = false ∧ o.accepts

/-- **A delivery is complete**: whatever the callbacks do, who was registered at the start and is
not unsubscribed before its turn is called, in the order of registration and only once; and a `once`
whose predicate has accepted is called for no event published later, whatever else is done to the
lists until then. -/
structure Complete (r : Registry κ τ) (type : τ) (behave : ℕ → Outcome κ τ) : Prop where
  reached : ∀ s ∈ r.registered type, ∃ n,
    s ∈ (publish r type (firsts behave n)).withdrawn ∨ s ∈ (publish r type (firsts behave n)).calls
  inOrder : (r.registered type).Nodup ∧ ∀ n, ((publish r type (firsts behave n)).calls.filter
    fun s => s ∈ r.registered type).Sublist (r.registered type)
  once : ∀ n p sub, Accepts (publish r type (firsts behave n)) (behave n) p sub → ∀ n' > n,
    ∀ (actions : List (Action κ τ)) (type' : τ) (outcomes : List (Outcome κ τ)),
      (p, sub) ∉ (publish (actions.foldl Registry.act
        (publish r type (firsts behave n')).registry) type' outcomes).calls

/-- A turn harms no one: who was there at the start is not ahead any more when a callback throws,
and not ahead in the list any more when something at or before the index is removed from it. -/
def Harmless (r : Registry κ τ) (d : Delivery κ τ) (o : Outcome κ τ) : Prop :=
  match d.registry.seek d.todo d.index with
  | none => True
  | some (p, ps, i, sub) =>
    let (registry, threw) := d.registry.call p sub o
    if threw then
      ∀ s ∈ d.registry.ahead (p :: ps) (i + 1), s.2.id < r.next → s.2 ∉ registry.lists s.1
    else
      (∀ s ∈ (d.registry.lists p).take (i + 1), s ∈ registry.lists p) ∨
        ∀ s ∈ (d.registry.lists p).drop (i + 1), s.id < r.next → s ∉ registry.lists p

/-- From some call on it is only ever the turn of subscribers that came during the delivery, while
one that was registered at the start waits. -/
def Starves (r : Registry κ τ) (type : τ) (behave : ℕ → Outcome κ τ) : Prop :=
  ∃ n, ∀ n' ≥ n, (∃ p sub, (publish r type (firsts behave n')).turn = some (p, sub) ∧
      r.next ≤ sub.id) ∧
    ∃ s ∈ (publish r type (firsts behave n')).ahead, s.2.id < r.next

/-! ### How the lists change -/

/-- What has become of the lists: some of what was in them, and what has come since. -/
structure Registry.Evolves (r r' : Registry κ τ) : Prop where
  next : r.next ≤ r'.next
  lists : ∀ p, ∃ kept new, r'.lists p = kept ++ new ∧ kept.Sublist (r.lists p) ∧
    ∀ s ∈ new, r.next ≤ s.id

variable {r r' r'' : Registry κ τ} {p q : Place τ} {ps qs : List (Place τ)} {sub s : Sub κ}
  {i j : ℕ} {o : Outcome κ τ} {d : Delivery κ τ} {type : τ} {behave : ℕ → Outcome κ τ}

namespace Registry

omit [DecidableEq κ] [DecidableEq τ] in
theorem Evolves.refl (r : Registry κ τ) : r.Evolves r where
  next := le_rfl
  lists p := ⟨r.lists p, [], (List.append_nil _).symm, List.Sublist.refl _, by rintro s ⟨⟩⟩

omit [DecidableEq κ] [DecidableEq τ] in
theorem Evolves.trans (h : r.Evolves r') (h' : r'.Evolves r'') : r.Evolves r'' where
  next := h.next.trans h'.next
  lists p := by
    obtain ⟨kept, new, hlists, hkept, hnew⟩ := h.lists p
    obtain ⟨kept', new', hlists', hkept', hnew'⟩ := h'.lists p
    rw [hlists] at hkept'
    obtain ⟨a, b, rfl, ha, hb⟩ := List.sublist_append_iff.mp hkept'
    refine ⟨a, b ++ new', by rw [hlists', List.append_assoc], ha.trans hkept, fun s hs => ?_⟩
    rcases List.mem_append.mp hs with hs | hs
    · exact hnew s (hb.subset hs)
    · exact h.next.trans (hnew' s hs)

omit [DecidableEq κ] [DecidableEq τ] in
theorem Evolves.mem (h : r.Evolves r') (hs : s ∈ r'.lists p) (hid : s.id < r.next) :
    s ∈ r.lists p := by
  obtain ⟨kept, new, hlists, hkept, hnew⟩ := h.lists p
  rw [hlists] at hs
  rcases List.mem_append.mp hs with hs | hs
  · exact hkept.subset hs
  · exact absurd (hnew s hs) (Nat.not_le.mpr hid)

omit [DecidableEq κ] in
theorem Evolves.push (r : Registry κ τ) (p : Place τ) (callback : Callback κ) :
    r.Evolves (r.push p callback) where
  next := Nat.le_succ r.next
  lists q := by
    rcases eq_or_ne q p with rfl | hq
    · refine ⟨r.lists q, [_], Function.update_self .., List.Sublist.refl _, fun s hs => ?_⟩
      rw [List.mem_singleton.mp hs]
    · refine ⟨r.lists q, [], ?_, List.Sublist.refl _, by rintro s ⟨⟩⟩
      rw [List.append_nil]
      exact Function.update_of_ne hq ..

omit [DecidableEq κ] in
theorem Evolves.splice (r : Registry κ τ) (p : Place τ) (is : Sub κ → Bool) :
    r.Evolves (r.splice p is) where
  next := le_rfl
  lists q := by
    refine ⟨(r.splice p is).lists q, [], (List.append_nil _).symm, ?_, by rintro s ⟨⟩⟩
    show (Function.update r.lists p ((r.lists p).eraseP is) q).Sublist (r.lists q)
    rcases eq_or_ne q p with rfl | hq
    · rw [Function.update_self]
      exact List.eraseP_sublist
    · rw [Function.update_of_ne hq]

theorem Evolves.act (r : Registry κ τ) (action : Action κ τ) : r.Evolves (r.act action) := by
  cases action with
  | subscribe key callback | once type | subscribeGlobal key minLevel => exact .push ..
  | unsubscribe key callback => exact .splice ..
  | unsubscribeGlobal key id => exact .splice ..

theorem Evolves.acts (r : Registry κ τ) (actions : List (Action κ τ)) :
    r.Evolves (actions.foldl Registry.act r) := by
  induction actions generalizing r with
  | nil => exact .refl r
  | cons action actions ih => exact (Evolves.act r action).trans (ih (r.act action))

theorem Evolves.call (r : Registry κ τ) (p : Place τ) (sub : Sub κ) (o : Outcome κ τ) :
    r.Evolves (r.call p sub o).1 := by
  rw [Registry.call]
  split
  · exact .acts r o.actions
  · split
    · exact .refl r
    · exact .acts r o.actions
  · split
    · exact (Evolves.acts r o.actions).trans (.splice ..)
    · exact .acts r o.actions

/-! ### Who is ahead -/

omit [DecidableEq κ] [DecidableEq τ] in
theorem mem_ahead {s : Place τ × Sub κ} : s ∈ r.ahead ps 0 ↔ s.1 ∈ ps ∧ s.2 ∈ r.lists s.1 := by
  induction ps with
  | nil => simp [Registry.ahead]
  | cons p ps ih =>
    rw [Registry.ahead, List.drop_zero, List.mem_append, ih, List.mem_cons, or_and_right]
    refine or_congr_left ⟨?_, ?_⟩
    · intro h
      obtain ⟨sub, hsub, rfl⟩ := List.mem_map.mp h
      exact ⟨rfl, hsub⟩
    · obtain ⟨q, sub⟩ := s
      rintro ⟨rfl, hsub⟩
      exact List.mem_map.mpr ⟨sub, hsub, rfl⟩

omit [DecidableEq κ] [DecidableEq τ] in
theorem mem_ahead_cons {s : Place τ × Sub κ} : s ∈ r.ahead (p :: ps) i ↔
    s.1 = p ∧ s.2 ∈ (r.lists p).drop i ∨ s.1 ∈ ps ∧ s.2 ∈ r.lists s.1 := by
  rw [Registry.ahead, List.mem_append, mem_ahead]
  refine or_congr_left ⟨?_, ?_⟩
  · intro h
    obtain ⟨sub, hsub, rfl⟩ := List.mem_map.mp h
    exact ⟨rfl, hsub⟩
  · obtain ⟨q, sub⟩ := s
    rintro ⟨rfl, hsub⟩
    exact List.mem_map.mpr ⟨sub, hsub, rfl⟩

omit [DecidableEq κ] [DecidableEq τ] in
theorem mem_lists_of_ahead {s : Place τ × Sub κ} (h : s ∈ r.ahead ps i) : s.2 ∈ r.lists s.1 := by
  cases ps with
  | nil => exact absurd h List.not_mem_nil
  | cons p ps =>
    rcases mem_ahead_cons.mp h with ⟨hplace, hdrop⟩ | ⟨-, hlist⟩
    · rw [hplace]
      exact List.mem_of_mem_drop hdrop
    · exact hlist

omit [DecidableEq κ] [DecidableEq τ] in
theorem nodup_ahead (h : ps.Nodup) (r : Registry κ τ) (i : ℕ) : (r.ahead ps i).Nodup := by
  induction ps generalizing i with
  | nil => exact List.nodup_nil
  | cons p ps ih =>
    obtain ⟨hp, hps⟩ := List.nodup_cons.mp h
    refine List.nodup_append'.mpr ⟨?_, ih hps 0, fun s hs hs' => ?_⟩
    · refine List.Nodup.map (fun a b hab => congrArg Prod.snd hab) ?_
      exact (r.ordered p).nodup.sublist (List.drop_sublist i _)
    · obtain ⟨sub, -, rfl⟩ := List.mem_map.mp hs
      exact hp (mem_ahead.mp hs').1

omit [DecidableEq κ] [DecidableEq τ] in
theorem Evolves.ahead_sublist (h : r.Evolves r') {n : ℕ} (hn : n ≤ r.next)
    (ps : List (Place τ)) (i : ℕ) :
    ((r'.ahead ps i).filter fun s => s.2.id < n).Sublist
      ((r.ahead ps i).filter fun s => s.2.id < n) := by
  induction ps generalizing i with
  | nil => exact List.Sublist.refl _
  | cons p ps ih =>
    obtain ⟨kept, new, hlists, hkept, hnew⟩ := h.lists p
    have hlate : ((new.drop (i - kept.length)).map fun s => (p, s)).filter
        (fun s : Place τ × Sub κ => s.2.id < n) = [] := by
      refine List.filter_eq_nil_iff.mpr fun s hs => ?_
      obtain ⟨sub, hsub, rfl⟩ := List.mem_map.mp hs
      have hle := hn.trans (hnew sub (List.mem_of_mem_drop hsub))
      simpa using hle
    rw [Registry.ahead, Registry.ahead, List.filter_append, List.filter_append, hlists,
      List.drop_append, List.map_append, List.filter_append, hlate, List.append_nil]
    exact (((hkept.drop i).map _).filter _).append (ih 0)

omit [DecidableEq κ] [DecidableEq τ] in
theorem seek_eq_none (h : r.seek ps i = none) : r.ahead ps i = [] := by
  induction ps generalizing i with
  | nil => rfl
  | cons p ps ih =>
    rw [Registry.seek] at h
    split at h
    · exact absurd h (by rintro ⟨⟩)
    next hnone =>
      rw [Registry.ahead, ih h, List.drop_eq_nil_of_le (List.getElem?_eq_none_iff.mp hnone)]
      rfl

omit [DecidableEq κ] [DecidableEq τ] in
theorem seek_eq_some (h : r.seek ps i = some (p, qs, j, sub)) :
    r.ahead ps i = (p, sub) :: r.ahead (p :: qs) (j + 1) ∧ p :: qs <:+ ps ∧
      j < (r.lists p).length := by
  induction ps generalizing i with
  | nil => exact absurd h (by rintro ⟨⟩)
  | cons p' ps ih =>
    rw [Registry.seek] at h
    split at h
    next found hfound =>
      obtain ⟨rfl, rfl, rfl, rfl⟩ : p' = p ∧ ps = qs ∧ i = j ∧ found = sub := by
        simpa using h
      obtain ⟨hlt, rfl⟩ := List.getElem?_eq_some_iff.mp hfound
      refine ⟨?_, List.suffix_rfl, hlt⟩
      rw [Registry.ahead, Registry.ahead, List.drop_eq_getElem_cons hlt]
      rfl
    next hnone =>
      obtain ⟨hahead, hsuffix, hlt⟩ := ih h
      refine ⟨?_, hsuffix.trans (List.suffix_cons p' ps), hlt⟩
      rw [Registry.ahead, hahead, List.drop_eq_nil_of_le (List.getElem?_eq_none_iff.mp hnone)]
      rfl

end Registry

/-! ### One turn -/

def early (r : Registry κ τ) (s : Place τ × Sub κ) : Bool := s.2.id < r.next

omit [DecidableEq κ] [DecidableEq τ] in
theorem early_of_registered {s : Place τ × Sub κ} (h : s ∈ r.registered type) : early r s :=
  decide_eq_true (r.fresh s.1 s.2 (Registry.mem_ahead.mp h).2)

theorem step_of_none (h : d.registry.seek d.todo d.index = none) : step d o = d := by
  rw [step, h]

theorem step_of_some (h : d.registry.seek d.todo d.index = some (p, ps, i, sub)) : step d o =
    { registry := (d.registry.call p sub o).1
      todo := if (d.registry.call p sub o).2 then [] else p :: ps
      index := i + 1
      calls := d.calls ++ [(p, sub)]
      withdrawn := d.withdrawn ++ (d.registry.ahead (p :: ps) (i + 1)).filter
        fun s => s.2 ∉ (d.registry.call p sub o).1.lists s.1 } := by
  rw [step, h]

/-- **Who was there at the start is called in order, and none twice**: the calls made and those
still ahead are, of those registered, some in their order. Who has been unsubscribed is gone. -/
structure Inv (r : Registry κ τ) (type : τ) (d : Delivery κ τ) : Prop where
  evolves : r.Evolves d.registry
  todo : d.todo.Nodup
  inOrder : ((d.calls ++ d.ahead).filter (early r)).Sublist (r.registered type)
  gone : ∀ s ∈ d.withdrawn, early r s → s.2 ∉ d.registry.lists s.1

omit [DecidableEq κ] [DecidableEq τ] in
theorem keys_nodup (type : τ) : (keys type).Nodup := by simp [keys]

omit [DecidableEq κ] [DecidableEq τ] in
theorem nodup_registered : (r.registered type).Nodup :=
  Registry.nodup_ahead (keys_nodup type) r 0

omit [DecidableEq κ] [DecidableEq τ] in
theorem Inv.start (r : Registry κ τ) (type : τ) :
    Inv r type { registry := r, todo := keys type } where
  evolves := .refl r
  todo := keys_nodup type
  inOrder := List.filter_sublist
  gone := by rintro s ⟨⟩

theorem ahead_step (h : d.registry.seek d.todo d.index = some (p, ps, i, sub)) {n : ℕ}
    (hn : n ≤ d.registry.next) : ((step d o).ahead.filter fun s => s.2.id < n).Sublist
      ((d.registry.ahead (p :: ps) (i + 1)).filter fun s => s.2.id < n) := by
  rw [step_of_some h]
  by_cases hthrew : (d.registry.call p sub o).2 = true
  · rw [Delivery.ahead, if_pos hthrew]
    exact List.nil_sublist _
  · rw [Delivery.ahead, if_neg hthrew]
    exact (Registry.Evolves.call d.registry p sub o).ahead_sublist hn (p :: ps) (i + 1)

theorem Inv.step (h : Inv r type d) (o : Outcome κ τ) : Inv r type (step d o) := by
  cases hseek : d.registry.seek d.todo d.index with
  | none =>
    rw [step_of_none hseek]
    exact h
  | some found =>
    obtain ⟨p, ps, i, sub⟩ := found
    obtain ⟨hahead, hsuffix, -⟩ := Registry.seek_eq_some hseek
    have hcall := Registry.Evolves.call d.registry p sub o
    refine ⟨?_, ?_, ?_, ?_⟩
    · rw [step_of_some hseek]
      exact h.evolves.trans hcall
    · rw [step_of_some hseek]
      dsimp only
      split
      · exact List.nodup_nil
      · exact h.todo.sublist hsuffix.sublist
    · have hcalls : (Bus.step d o).calls = d.calls ++ [(p, sub)] := by rw [step_of_some hseek]
      replace hahead : d.ahead = (p, sub) :: d.registry.ahead (p :: ps) (i + 1) := hahead
      refine List.Sublist.trans ?_ h.inOrder
      rw [hcalls, hahead, List.append_assoc, List.singleton_append, List.filter_append,
        List.filter_append, List.filter_cons, List.filter_cons]
      refine (List.Sublist.refl _).append ?_
      have hrest := ahead_step (o := o) hseek h.evolves.next
      split
      · exact hrest.cons_cons _
      · exact hrest
    · intro s hs hearly
      rw [step_of_some hseek] at hs ⊢
      rcases List.mem_append.mp hs with hold | hnew
      · intro hmem
        have hid := (of_decide_eq_true hearly).trans_le h.evolves.next
        exact h.gone s hold hearly (hcall.mem hmem hid)
      · exact of_decide_eq_true (List.mem_filter.mp hnew).2

def Owed (r : Registry κ τ) (type : τ) (d : Delivery κ τ) : Prop :=
  ∀ s ∈ r.registered type, s ∈ d.ahead ∨ s ∈ d.calls ∨ s ∈ d.withdrawn

theorem owed_step_iff (h : Inv r type d) (howed : Owed r type d)
    (hseek : d.registry.seek d.todo d.index = some (p, ps, i, sub)) :
    Owed r type (step d o) ↔ ∀ s ∈ d.registry.ahead (p :: ps) (i + 1), early r s →
      s.2 ∈ (d.registry.call p sub o).1.lists s.1 → s ∈ (step d o).ahead := by
  have hahead : d.ahead = (p, sub) :: d.registry.ahead (p :: ps) (i + 1) :=
    (Registry.seek_eq_some hseek).1
  have hcalls : (step d o).calls = d.calls ++ [(p, sub)] := by rw [step_of_some hseek]
  have hwithdrawn : (step d o).withdrawn = d.withdrawn ++
      (d.registry.ahead (p :: ps) (i + 1)).filter
        fun s => s.2 ∉ (d.registry.call p sub o).1.lists s.1 := by rw [step_of_some hseek]
  constructor
  · intro howed' s hs hearly hmem
    have hfilter : (d.calls ++ [(p, sub)] ++ d.registry.ahead (p :: ps) (i + 1)).filter (early r) =
        (d.calls ++ d.ahead).filter (early r) := by
      rw [hahead, List.append_assoc, List.singleton_append]
    have hinOrder := h.inOrder
    rw [← hfilter, List.filter_append] at hinOrder
    have hkept := List.mem_filter.mpr ⟨hs, hearly⟩
    have hregistered := hinOrder.subset (List.mem_append_right _ hkept)
    rcases howed' s hregistered with hahead' | hcalled | hgone
    · exact hahead'
    · -- it cannot have been called, as no one is called twice
      rw [hcalls] at hcalled
      exact absurd hkept (List.disjoint_of_nodup_append (nodup_registered.sublist hinOrder)
        (List.mem_filter.mpr ⟨hcalled, hearly⟩))
    · rw [hwithdrawn] at hgone
      rcases List.mem_append.mp hgone with hold | hnew
      · exact absurd (Registry.mem_lists_of_ahead hs) (h.gone s hold hearly)
      · exact absurd hmem (of_decide_eq_true (List.mem_filter.mp hnew).2)
  · intro hkept s hs
    rw [hcalls, hwithdrawn]
    rcases howed s hs with hold | hcalled | hgone
    · rw [hahead] at hold
      rcases List.mem_cons.mp hold with rfl | hrest
      · exact Or.inr (Or.inl (List.mem_append_right _ (List.mem_singleton_self _)))
      · by_cases hmem : s.2 ∈ (d.registry.call p sub o).1.lists s.1
        · exact Or.inl (hkept s hrest (early_of_registered hs) hmem)
        · exact Or.inr (Or.inr (List.mem_append_right _
            (List.mem_filter.mpr ⟨hrest, decide_eq_true hmem⟩)))
    · exact Or.inr (Or.inl (List.mem_append_left _ hcalled))
    · exact Or.inr (Or.inr (List.mem_append_left _ hgone))

/-- **A turn keeps what is owed exactly if it harms no one.** -/
theorem owed_step (h : Inv r type d) (howed : Owed r type d) :
    Owed r type (step d o) ↔ Harmless r d o := by
  cases hseek : d.registry.seek d.todo d.index with
  | none =>
    rw [step_of_none hseek, Harmless, hseek]
    exact iff_of_true howed trivial
  | some found =>
    obtain ⟨p, ps, i, sub⟩ := found
    obtain ⟨-, hsuffix, hlt⟩ := Registry.seek_eq_some hseek
    rw [owed_step_iff h howed hseek, Harmless, hseek]
    dsimp only
    split
    next hthrew =>
      have hnone : (step d o).ahead = [] := by
        rw [Delivery.ahead, step_of_some hseek, if_pos hthrew]
        rfl
      simp only [hnone, List.not_mem_nil, early, decide_eq_true_eq]
    next hthrew =>
      have hahead : (step d o).ahead = (d.registry.call p sub o).1.ahead (p :: ps) (i + 1) := by
        rw [Delivery.ahead, step_of_some hseek, if_neg hthrew]
      have hcall := Registry.Evolves.call d.registry p sub o
      obtain ⟨kept, new, hlists, hkept, hnew⟩ := hcall.lists p
      have hp : p ∉ ps := (List.nodup_cons.mp (h.todo.sublist hsuffix.sublist)).1
      rw [← LiveArray.none_skipped_iff r.next (d.registry.ordered p)
        ((d.registry.call p sub o).1.ordered p) hlists hkept
        (fun a ha b hb => (d.registry.fresh p b hb).trans_le (hnew a ha)) hlt, hahead]
      constructor
      · intro hall s hs hid hmem
        have hrest : (p, s) ∈ d.registry.ahead (p :: ps) (i + 1) :=
          Registry.mem_ahead_cons.mpr (Or.inl ⟨rfl, hs⟩)
        rcases Registry.mem_ahead_cons.mp (hall (p, s) hrest (decide_eq_true hid) hmem) with h' | h'
        · exact h'.2
        · exact absurd h'.1 hp
      · rintro hall ⟨q, s⟩ hs hearly hmem
        rcases Registry.mem_ahead_cons.mp hs with ⟨rfl, hdrop⟩ | ⟨hq, -⟩
        · refine Registry.mem_ahead_cons.mpr (Or.inl ⟨rfl, ?_⟩)
          exact hall s hdrop (of_decide_eq_true hearly) hmem
        · exact Registry.mem_ahead_cons.mpr (Or.inr ⟨hq, hmem⟩)

/-! ### The whole delivery -/

section Delivered

variable {m n : ℕ}

theorem publish_succ : publish r type (firsts behave (n + 1)) =
    step (publish r type (firsts behave n)) (behave n) := by
  rw [firsts, List.range_succ, List.map_append, List.map_singleton, publish, run_concat, ← publish,
    ← firsts]

theorem Inv.publish (r : Registry κ τ) (type : τ) (outcomes : List (Outcome κ τ)) :
    Inv r type (publish r type outcomes) :=
  run_invariant (Inv r type) (Inv.start r type) (fun _ o h => h.step o) outcomes

omit [DecidableEq κ] [DecidableEq τ] in
theorem seek_of_turn (h : d.turn = some (p, sub)) :
    ∃ ps i, d.registry.seek d.todo d.index = some (p, ps, i, sub) := by
  obtain ⟨⟨p', ps, i, sub'⟩, hseek, heq⟩ := Option.map_eq_some_iff.mp h
  obtain ⟨rfl, rfl⟩ := Prod.mk.inj heq
  exact ⟨ps, i, hseek⟩

theorem evolves_step (d : Delivery κ τ) (o : Outcome κ τ) :
    d.registry.Evolves (step d o).registry := by
  cases hseek : d.registry.seek d.todo d.index with
  | none =>
    rw [step_of_none hseek]
    exact .refl _
  | some found =>
    rw [step_of_some hseek]
    exact .call ..

theorem evolves_of_le (h : m ≤ n) : (publish r type (firsts behave m)).registry.Evolves
    (publish r type (firsts behave n)).registry := by
  induction n, h using Nat.le_induction with
  | base => exact .refl _
  | succ n hmn ih =>
    rw [publish_succ]
    exact ih.trans (evolves_step _ _)

theorem ahead_filter_step (h : Inv r type d) (o : Outcome κ τ) :
    ((step d o).ahead.filter (early r)).Sublist (d.ahead.filter (early r)) := by
  cases hseek : d.registry.seek d.todo d.index with
  | none => rw [step_of_none hseek]
  | some found =>
    obtain ⟨p, ps, i, sub⟩ := found
    have hahead : d.ahead = (p, sub) :: d.registry.ahead (p :: ps) (i + 1) :=
      (Registry.seek_eq_some hseek).1
    rw [hahead]
    exact (ahead_step hseek h.evolves.next).trans ((List.sublist_cons_self _ _).filter _)

theorem length_ahead_step (h : Inv r type d) (hturn : d.turn = some (p, sub))
    (hid : sub.id < r.next) (o : Outcome κ τ) :
    ((step d o).ahead.filter (early r)).length < (d.ahead.filter (early r)).length := by
  obtain ⟨ps, i, hseek⟩ := seek_of_turn hturn
  have hahead : d.ahead = (p, sub) :: d.registry.ahead (p :: ps) (i + 1) :=
    (Registry.seek_eq_some hseek).1
  have hearly : early r ((p, sub) : Place τ × Sub κ) := decide_eq_true hid
  rw [hahead, List.filter_cons_of_pos hearly, List.length_cons]
  exact Nat.lt_succ_of_le (ahead_step hseek h.evolves.next).length_le

/-- The subscriber is dealt with: called, or unsubscribed before its turn. -/
def Done (d : Delivery κ τ) (s : Place τ × Sub κ) : Prop := s ∈ d.withdrawn ∨ s ∈ d.calls

theorem Done.step {s : Place τ × Sub κ} (h : Done d s) (o : Outcome κ τ) : Done (step d o) s := by
  cases hseek : d.registry.seek d.todo d.index with
  | none =>
    rw [step_of_none hseek]
    exact h
  | some found =>
    obtain ⟨p, ps, i, sub⟩ := found
    rw [step_of_some hseek]
    exact h.imp (List.mem_append_left _) (List.mem_append_left _)

theorem Done.of_le {s : Place τ × Sub κ} (h : Done (Bus.publish r type (firsts behave m)) s)
    (hmn : m ≤ n) : Done (Bus.publish r type (firsts behave n)) s := by
  induction n, hmn using Nat.le_induction with
  | base => exact h
  | succ n hmn ih =>
    rw [publish_succ]
    exact ih.step _

omit [DecidableEq κ] [DecidableEq τ] in
theorem Done.notMem_ahead {s : Place τ × Sub κ} (h : Inv r type d) (hdone : Done d s)
    (hearly : early r s) : s ∉ d.ahead := by
  intro hahead
  rcases hdone with hgone | hcalled
  · exact h.gone s hgone hearly (Registry.mem_lists_of_ahead hahead)
  · have hinOrder := h.inOrder
    rw [List.filter_append] at hinOrder
    exact List.disjoint_of_nodup_append (nodup_registered.sublist hinOrder)
      (List.mem_filter.mpr ⟨hcalled, hearly⟩) (List.mem_filter.mpr ⟨hahead, hearly⟩)

theorem ahead_or_done_of_step {s : Place τ × Sub κ} (h : Inv r type d) (hearly : early r s)
    (hs : s ∈ (step d o).ahead ∨ Done (step d o) s) : s ∈ d.ahead ∨ Done d s := by
  cases hseek : d.registry.seek d.todo d.index with
  | none =>
    rw [step_of_none hseek] at hs
    exact hs
  | some found =>
    obtain ⟨p, ps, i, sub⟩ := found
    have hahead : d.ahead = (p, sub) :: d.registry.ahead (p :: ps) (i + 1) :=
      (Registry.seek_eq_some hseek).1
    rcases hs with hs | hs
    · have hmem := (ahead_filter_step h o).subset (List.mem_filter.mpr ⟨hs, hearly⟩)
      exact Or.inl (List.mem_filter.mp hmem).1
    · rw [step_of_some hseek] at hs
      rcases hs with hs | hs
      · rcases List.mem_append.mp hs with hold | hnew
        · exact Or.inr (Or.inl hold)
        · rw [hahead]
          exact Or.inl (List.mem_cons_of_mem _ (List.mem_filter.mp hnew).1)
      · rcases List.mem_append.mp hs with hold | hnew
        · exact Or.inr (Or.inr hold)
        · rw [hahead, List.mem_singleton.mp hnew]
          exact Or.inl List.mem_cons_self

theorem owed_iff : (∀ n, Owed r type (publish r type (firsts behave n))) ↔
    ∀ n, Harmless r (publish r type (firsts behave n)) (behave n) := by
  constructor
  · intro h n
    have hnext := h (n + 1)
    rw [publish_succ] at hnext
    exact (owed_step (Inv.publish ..) (h n)).mp hnext
  · intro h n
    induction n with
    | zero => exact fun s hs => Or.inl hs
    | succ n ih =>
      rw [publish_succ]
      exact (owed_step (Inv.publish ..) ih).mpr (h n)

theorem starves_of_waits {s : Place τ × Sub κ} (hearly : early r s)
    (h : ∀ n, s ∈ (publish r type (firsts behave n)).ahead) : Starves r type behave := by
  by_contra hstarves
  have hturn : ∀ n, ∃ n' ≥ n, ∃ p sub,
      (publish r type (firsts behave n')).turn = some (p, sub) ∧ sub.id < r.next := by
    intro n
    by_contra! hlate
    refine hstarves ⟨n, fun n' hn' => ⟨?_, s, h n', of_decide_eq_true hearly⟩⟩
    cases hnext : (publish r type (firsts behave n')).turn with
    | none =>
      have hseek := Option.map_eq_none_iff.mp hnext
      have hnil : (publish r type (firsts behave n')).ahead = [] := Registry.seek_eq_none hseek
      have hmem := h n'
      rw [hnil] at hmem
      exact absurd hmem List.not_mem_nil
    | some found => exact ⟨found.1, found.2, rfl, hlate n' hn' found.1 found.2 hnext⟩
  have hanti : ∀ {m n}, m ≤ n → ((publish r type (firsts behave n)).ahead.filter (early r)).length ≤
      ((publish r type (firsts behave m)).ahead.filter (early r)).length := by
    intro m n hmn
    induction n, hmn using Nat.le_induction with
    | base => exact le_rfl
    | succ n hmn ih =>
      rw [publish_succ]
      exact (ahead_filter_step (Inv.publish ..) _).length_le.trans ih
  -- each such turn leaves fewer of them ahead
  have hfew : ∀ k n, ¬((publish r type (firsts behave n)).ahead.filter (early r)).length ≤ k := by
    intro k
    induction k with
    | zero =>
      intro n hle
      have hmem := List.mem_filter.mpr ⟨h n, hearly⟩
      rw [List.eq_nil_of_length_eq_zero (Nat.le_zero.mp hle)] at hmem
      exact absurd hmem List.not_mem_nil
    | succ k ih =>
      intro n hle
      obtain ⟨n', hn', p, sub, hnext, hid⟩ := hturn n
      have hless := length_ahead_step (Inv.publish r type (firsts behave n')) hnext hid (behave n')
      rw [← publish_succ] at hless
      refine ih (n' + 1) ?_
      have hle' := hanti hn'
      omega
  exact hfew _ 0 le_rfl

/-- Those who are all dealt with at some time are so at one time. -/
theorem exists_done {subs : List (Place τ × Sub κ)}
    (h : ∀ s ∈ subs, ∃ n, Done (publish r type (firsts behave n)) s) :
    ∃ n, ∀ s ∈ subs, Done (publish r type (firsts behave n)) s := by
  induction subs with
  | nil => exact ⟨0, by rintro s ⟨⟩⟩
  | cons s subs ih =>
    obtain ⟨⟨m, hm⟩, hsubs⟩ := List.forall_mem_cons.mp h
    obtain ⟨n, hn⟩ := ih hsubs
    refine ⟨max m n, List.forall_mem_cons.mpr ⟨hm.of_le (le_max_left m n), fun s hs => ?_⟩⟩
    exact (hn s hs).of_le (le_max_right m n)

theorem reached_iff : (∀ s ∈ r.registered type, ∃ n, Done (publish r type (firsts behave n)) s) ↔
    (∀ n, Harmless r (publish r type (firsts behave n)) (behave n)) ∧ ¬Starves r type behave := by
  rw [← owed_iff]
  constructor
  · intro h
    constructor
    · intro n s hs
      obtain ⟨N, hN⟩ := h s hs
      have hback : ∀ k, s ∈ (publish r type (firsts behave (n + k))).ahead ∨
          Done (publish r type (firsts behave (n + k))) s →
          s ∈ (publish r type (firsts behave n)).ahead ∨
          Done (publish r type (firsts behave n)) s := by
        intro k
        induction k with
        | zero => exact id
        | succ k ih =>
          intro hk
          rw [← Nat.add_assoc, publish_succ] at hk
          exact ih (ahead_or_done_of_step (Inv.publish ..) (early_of_registered hs) hk)
      have hthen := hback N (Or.inr (hN.of_le (Nat.le_add_left N n)))
      exact hthen.imp_right Or.symm
    · rintro ⟨n, hn⟩
      obtain ⟨N, hN⟩ := exists_done h
      obtain ⟨-, s, hahead, hid⟩ := hn (max n N) (le_max_left n N)
      have hinv := Inv.publish r type (firsts behave (max n N))
      have hearly : early r s := decide_eq_true hid
      have hregistered : s ∈ r.registered type :=
        hinv.inOrder.subset (List.mem_filter.mpr ⟨List.mem_append_right _ hahead, hearly⟩)
      exact ((hN s hregistered).of_le (le_max_right n N)).notMem_ahead hinv hearly hahead
  · rintro ⟨howed, hstarves⟩ s hs
    by_contra! hnever
    refine hstarves (starves_of_waits (early_of_registered hs) fun n => ?_)
    rcases howed n s hs with hahead | hdone
    · exact hahead
    · exact absurd hdone.symm (hnever n)

theorem notMem_of_accepts (h : Accepts d o p sub) : sub.id < (step d o).registry.next ∧
    sub ∉ (step d o).registry.lists p := by
  obtain ⟨hturn, hcallback, hthrows, haccepts⟩ := h
  obtain ⟨ps, i, hseek⟩ := seek_of_turn hturn
  have hmem : sub ∈ d.registry.lists p := by
    have hahead : (p, sub) ∈ d.registry.ahead d.todo d.index := by
      rw [(Registry.seek_eq_some hseek).1]
      exact List.mem_cons_self
    exact Registry.mem_lists_of_ahead hahead
  have hcall : (d.registry.call p sub o).1 =
      (o.actions.foldl Registry.act d.registry).splice p fun s => s.id = sub.id := by
    simp only [Registry.call, hcallback, hthrows, haccepts, Bool.not_false, Bool.and_self, if_true]
  refine ⟨(d.registry.fresh p sub hmem).trans_le (evolves_step d o).next, ?_⟩
  rw [step_of_some hseek]
  show sub ∉ (d.registry.call p sub o).1.lists p
  rw [hcall]
  show sub ∉ Function.update (o.actions.foldl Registry.act d.registry).lists p _ p
  rw [Function.update_self]
  exact ((o.actions.foldl Registry.act d.registry).ordered p).notMem_eraseP

theorem notMem_calls (hid : sub.id < r.next) (hmem : sub ∉ r.lists p)
    (outcomes : List (Outcome κ τ)) : (p, sub) ∉ (publish r type outcomes).calls := by
  intro hcalled
  have hearly : early r ((p, sub) : Place τ × Sub κ) := decide_eq_true hid
  have hregistered := (Inv.publish r type outcomes).inOrder.subset
    (List.mem_filter.mpr ⟨List.mem_append_left _ hcalled, hearly⟩)
  exact hmem (Registry.mem_lists_of_ahead hregistered)

/-- **A delivery is complete exactly if no turn harms anyone and no one starves**: no callback
throws while someone who was there at the start waits, or removes something at or before its own
place in the list while one of them waits behind it there, and the callbacks do not go on for ever
subscribing others in a list while one of them waits in a later one. -/
theorem complete_iff (r : Registry κ τ) (type : τ) (behave : ℕ → Outcome κ τ) :
    Complete r type behave ↔
      (∀ n, Harmless r (publish r type (firsts behave n)) (behave n)) ∧ ¬Starves r type behave := by
  rw [← reached_iff]
  constructor
  · intro h
    exact h.reached
  · intro h
    refine ⟨h, ⟨nodup_registered, fun n => ?_⟩, ?_⟩
    · have hinOrder := (Inv.publish r type (firsts behave n)).inOrder
      rw [List.filter_append] at hinOrder
      refine List.Sublist.trans ?_ ((List.sublist_append_left _ _).trans hinOrder)
      refine List.monotone_filter_right _ fun s hs => ?_
      exact early_of_registered (of_decide_eq_true hs)
    · intro n p sub haccepts n' hn' actions type' outcomes
      obtain ⟨hid, hmem⟩ := notMem_of_accepts haccepts
      rw [← publish_succ] at hid hmem
      have hthen : (publish r type (firsts behave (n + 1))).registry.Evolves
          (publish r type (firsts behave n')).registry := evolves_of_le hn'
      have hevolves := hthen.trans (.acts (publish r type (firsts behave n')).registry actions)
      exact notMem_calls (hid.trans_le hevolves.next) (fun hlater => hmem (hevolves.mem hlater hid))
        outcomes

/-! ### A `once` in front of another subscriber -/

def Registry.empty : Registry ℕ Unit where
  lists _ := []
  next := 0
  ordered _ := List.Pairwise.nil
  fresh := by rintro p s ⟨⟩

def onceFirst : Registry ℕ Unit :=
  (Registry.empty.act (.once ())).act (.subscribe (some ()) 0)

/-- **Whenever a `once` accepts, the subscriber behind it misses the event.** -/
theorem not_complete_onceFirst : ¬Complete onceFirst () fun _ => { accepts := true } := by
  intro h
  have hharmless := (reached_iff.mp h.reached).1 0
  rcases hharmless with hkept | hnone
  · exact absurd (hkept ⟨0, .once⟩ (by decide)) (by decide)
  · exact hnone ⟨1, .plain 0⟩ (by decide) (by decide) (by decide)

end Delivered

end OpenCms.Bus
