import OpenCms.Account.Storage
import Mathlib.Data.Set.Function
import Std.Data.String.ToNat

/-!
# Families under their own names

Families that were made from the ids of provider instances are merged into the family that they
are of, and where an account id is taken there, the account gets another one. No account is lost on
the way, and none takes the place of another (`OpenCms.Account.exists_kept_normalizeProviderKeys`);
and once it is done there is nothing left to do (`OpenCms.Account.normalizeProviderKeys_again`).

What makes this go through although families are merged while they are enumerated is that a family
which accounts are moved to is a known one, and a known family is never moved itself.
-/

namespace OpenCms.Account

variable {ρ : Type}

/-! ### The family that accounts belong to -/

def PROVIDERS : List String :=
  ["google-api", "openai", "claude-cli", "gemini-cli", "gitlab", "github-copilot", "gmicloud",
    "opencode"]

def RUNTIME_SYNTHETIC_FAMILIES : List String := ["github-copilot-enterprise"]

def listKnownProviders (fromModels : List String) : List String :=
  (PROVIDERS ++ RUNTIME_SYNTHETIC_FAMILIES ++ fromModels).eraseDups

/-- The first entry that has the highest count, if that is above what there is. -/
def winner : List (String × ℕ) → Option String × ℕ → Option String
  | [], best => best.1
  | (family, count) :: counts, best =>
    winner counts (if best.2 < count then (some family, count) else best)

def inferProviderKeyFromAccountIds (accounts : Object (Info ρ)) (knownFamilies : List String) :
    Option String :=
  let found := (accounts.toKeys.filterMap accountIdMatch).filter fun family =>
    family ≠ "" ∧ family ∈ knownFamilies
  winner (found.eraseDups.map fun family => (family, found.count family)) (none, 0)

def canonicalProviderKey (knownFamilies : List String) (family : String)
    (accounts : Object (Info ρ)) : Option String :=
  (resolveFamilyFromKnown family knownFamilies).or
    (inferProviderKeyFromAccountIds accounts knownFamilies)

/-! ### Merging -/

def candidateId (accountId : String) : ℕ → String
  | 0 => accountId ++ "-migrated"
  | n + 1 => accountId ++ "-migrated-" ++ toString (n + 2)

/-- The first of them that is free, where so many may be tried. -/
def nextIdFrom (accounts : Object (Info ρ)) (accountId : String) : ℕ → ℕ → String
  | 0, n => candidateId accountId n
  | fuel + 1, n =>
    -- there are more candidates than accounts, so that one of them is free
    if candidateId accountId n ∈ accounts then nextIdFrom accounts accountId fuel (n + 1)
    else candidateId accountId n

def placeOf (accounts : Object (Info ρ)) (accountId : String) : String :=
  if accountId ∈ accounts then nextIdFrom accounts accountId accounts.toKeys.length 0
  else accountId

def mergeAccounts (accounts : Object (Info ρ)) (entries : List (String × Info ρ)) :
    Object (Info ρ) :=
  entries.foldl (fun accounts entry => accounts.set (placeOf accounts entry.1) entry.2) accounts

def mergeProviderData (target source : ProviderData ρ) : ProviderData ρ × Bool :=
  let accounts := mergeAccounts target.accounts source.accounts.toEntries
  let changed := !source.accounts.toEntries.isEmpty
  if truthy source.activeAccount ∧ (∃ id ∈ source.activeAccount, id ∈ accounts) ∧
      ¬truthy target.activeAccount then
    (⟨source.activeAccount, accounts⟩, true)
  else (⟨target.activeAccount, accounts⟩, changed)

/-! ### Normalizing -/

structure ProviderNormalizationMove where
  «from» : String
  «to» : String
  accountCount : ℕ

/-- What `normalizeProviderKeys` returns. -/
structure Normalized (ρ : Type) where
  storage : Storage ρ
  changed : Bool
  moves : List ProviderNormalizationMove

def moveFamily (storage : Storage ρ) (family canonical : String) (data : ProviderData ρ) :
    Storage ρ :=
  let target := (mergeProviderData (dataOf storage canonical) data).1
  { storage with families := (storage.families.set canonical target).delete family }

def normalizeFamily (knownFamilies : List String) (result : Normalized ρ) (family : String) :
    Normalized ρ :=
  match result.storage.families.lookup family with
  | none => result
  | some data =>
    match canonicalProviderKey knownFamilies family data.accounts with
    | none => result
    | some canonical =>
      if canonical = "" ∨ canonical = family then result
      else
        -- here the two are different, so that something has changed even if nothing was merged
        { storage := moveFamily result.storage family canonical data
          changed := true
          moves := result.moves ++ [⟨family, canonical, data.accounts.toKeys.length⟩] }

def normalizeProviderKeys (fromModels : List String) (storage : Storage ρ) : Normalized ρ :=
  storage.families.toKeys.foldl (normalizeFamily (listKnownProviders fromModels))
    ⟨storage, false, []⟩

/-! ### Families that are known -/

section Known

variable {knownFamilies : List String} {family canonical : String} {accounts : Object (Info ρ)}

/-- A family is **known** when it is listed, and not the empty string. -/
def Known (knownFamilies : List String) (family : String) : Prop :=
  family ∈ knownFamilies ∧ family ≠ ""

theorem mem_of_winner {counts : List (String × ℕ)} {best : Option String × ℕ}
    (h : winner counts best = some family) :
    best.1 = some family ∨ ∃ count, (family, count) ∈ counts := by
  induction counts generalizing best with
  | nil => exact Or.inl h
  | cons entry counts ih =>
    obtain ⟨family', count⟩ := entry
    rcases ih h with hbest | ⟨count', hmem⟩
    · split at hbest
      · obtain rfl := Option.some.inj hbest
        exact Or.inr ⟨count, List.mem_cons_self⟩
      · exact Or.inl hbest
    · exact Or.inr ⟨count', List.mem_cons_of_mem _ hmem⟩

theorem known_of_infer (h : inferProviderKeyFromAccountIds accounts knownFamilies = some family) :
    Known knownFamilies family := by
  rcases mem_of_winner h with hnone | ⟨count, hmem⟩
  · cases hnone
  · obtain ⟨family', hfound, heq⟩ := List.mem_map.mp hmem
    obtain ⟨rfl, _⟩ := Prod.mk.injEq .. ▸ heq
    have hfilter := (List.mem_filter.mp (List.mem_eraseDups.mp hfound)).2
    obtain ⟨hne, hknown⟩ := of_decide_eq_true hfilter
    exact ⟨hknown, hne⟩

/-- **Accounts belong to a family that is known.** -/
theorem known_canonical (h : canonicalProviderKey knownFamilies family accounts = some canonical) :
    Known knownFamilies canonical := by
  rcases Option.or_eq_some_iff.mp h with hdirect | ⟨_, hinferred⟩
  · exact mem_of_resolveFamilyFromKnown hdirect
  · exact known_of_infer hinferred

theorem canonical_of_known (h : Known knownFamilies family) :
    canonicalProviderKey knownFamilies family accounts = some family := by
  unfold canonicalProviderKey
  rw [resolveFamilyFromKnown_of_mem h.1 h.2]
  rfl

end Known

/-! ### A free id -/

section Places

variable {accounts : Object (Info ρ)} {accountId : String}

theorem candidateId_injective (accountId : String) :
    Function.Injective (candidateId accountId) := by
  intro m n h
  have hchars := congrArg String.toList h
  cases m with
  | zero =>
    cases n with
    | zero => rfl
    | succ n => simp [candidateId] at hchars
  | succ m =>
    cases n with
    | zero => simp [candidateId] at hchars
    | succ n =>
      simp only [candidateId, String.toList_append, List.append_cancel_left_eq] at hchars
      have hrepr : m + 2 = n + 2 := Nat.repr_injective (String.toList_injective hchars)
      omega

/-- When what is found is taken, then so is everything that was tried. -/
theorem mem_of_nextIdFrom_mem {fuel n : ℕ} (h : nextIdFrom accounts accountId fuel n ∈ accounts) :
    ∀ k ≤ fuel, candidateId accountId (n + k) ∈ accounts := by
  induction fuel generalizing n with
  | zero =>
    intro k hk
    obtain rfl := Nat.le_zero.mp hk
    exact h
  | succ fuel ih =>
    unfold nextIdFrom at h
    split at h
    next hmem =>
      intro k hk
      cases k with
      | zero => exact hmem
      | succ k =>
        have hin := ih h k (by omega)
        rwa [show n + 1 + k = n + (k + 1) by omega] at hin
    next hfree => exact absurd h hfree

/-- **The id that is found is free**: more ids are tried than there are accounts. -/
theorem nextIdFrom_notMem (accounts : Object (Info ρ)) (accountId : String) :
    nextIdFrom accounts accountId accounts.toKeys.length 0 ∉ accounts := by
  intro h
  have hall := mem_of_nextIdFrom_mem h
  have htried : (List.range (accounts.toKeys.length + 1)).map (candidateId accountId) ⊆
      accounts.toKeys := by
    intro id hid
    obtain ⟨k, hk, rfl⟩ := List.mem_map.mp hid
    have hin := hall k (Nat.lt_succ_iff.mp (List.mem_range.mp hk))
    rw [Nat.zero_add] at hin
    exact Object.mem_toKeys.mpr hin
  have hnodup := (List.nodup_range (n := accounts.toKeys.length + 1)).map
    (candidateId_injective accountId)
  have hlength := (List.subperm_of_subset hnodup htried).length_le
  rw [List.length_map, List.length_range] at hlength
  omega

/-- An id is **migrated** from another when it is that, or has the suffix that says so. -/
def Migrated (accountId accountId' : String) : Prop :=
  accountId' = accountId ∨ accountId' = accountId ++ "-migrated" ∨
    ∃ n, 2 ≤ n ∧ accountId' = accountId ++ "-migrated-" ++ toString n

theorem migrated_nextIdFrom {fuel n : ℕ} :
    Migrated accountId (nextIdFrom accounts accountId fuel n) := by
  have hcandidate (n : ℕ) : Migrated accountId (candidateId accountId n) := by
    cases n with
    | zero => exact Or.inr (Or.inl rfl)
    | succ n => exact Or.inr (Or.inr ⟨n + 2, by omega, rfl⟩)
  induction fuel generalizing n with
  | zero => exact hcandidate n
  | succ fuel ih =>
    unfold nextIdFrom
    split
    · exact ih
    · exact hcandidate n

theorem placeOf_notMem (accounts : Object (Info ρ)) (accountId : String) :
    placeOf accounts accountId ∉ accounts := by
  unfold placeOf
  split
  · exact nextIdFrom_notMem accounts accountId
  next h => exact h

theorem migrated_placeOf : Migrated accountId (placeOf accounts accountId) := by
  unfold placeOf
  split
  · exact migrated_nextIdFrom
  · exact Or.inl rfl

theorem Migrated.ne_empty {accountId' : String} (h : Migrated accountId accountId')
    (hne : accountId ≠ "") : accountId' ≠ "" := by
  rcases h with rfl | rfl | ⟨n, _, rfl⟩
  · exact hne
  · intro heq
    have hchars := congrArg String.toList heq
    simp at hchars
  · intro heq
    have hchars := congrArg String.toList heq
    simp at hchars

end Places

/-! ### Merging loses nothing -/

/-- The accounts of one family **take in** those of another, each of these under the id that
`move` has for it: what is there stays, and what comes gets ids of its own. -/
structure TakesIn (accounts : Object (Info ρ)) (entries : List (String × Info ρ))
    (merged : Object (Info ρ)) (move : String → String) : Prop where
  stays : ∀ id ∈ accounts, merged.lookup id = accounts.lookup id
  comes : ∀ entry ∈ entries, merged.lookup (move entry.1) = some entry.2
  new : ∀ entry ∈ entries, move entry.1 ∉ accounts
  migrated : ∀ entry ∈ entries, Migrated entry.1 (move entry.1)
  injOn : Set.InjOn move {id | id ∈ entries.map Prod.fst}
  only : ∀ id ∈ merged, id ∈ accounts ∨ ∃ entry ∈ entries, id = move entry.1

section Merge

variable {accounts : Object (Info ρ)} {entries : List (String × Info ρ)}

/-- **Merging accounts loses none.** -/
theorem exists_takesIn (accounts : Object (Info ρ)) (entries : List (String × Info ρ))
    (hnodup : (entries.map Prod.fst).Nodup) :
    ∃ move, TakesIn accounts entries (mergeAccounts accounts entries) move := by
  induction entries generalizing accounts with
  | nil =>
    exact ⟨id, fun _ _ => rfl, nofun, nofun, nofun, Function.injective_id.injOn,
      fun _ h => Or.inl h⟩
  | cons entry entries ih =>
    obtain ⟨id, info⟩ := entry
    obtain ⟨hid, hnodup⟩ := List.nodup_cons.mp hnodup
    have hfree := placeOf_notMem accounts id
    obtain ⟨move, h⟩ := ih (accounts.set (placeOf accounts id) info) hnodup
    have hplace : placeOf accounts id ∈ accounts.set (placeOf accounts id) info :=
      Object.mem_set.mpr (Or.inl rfl)
    have hsame : Function.update move id (placeOf accounts id) id = placeOf accounts id :=
      Function.update_self ..
    have hother : ∀ entry ∈ entries,
        Function.update move id (placeOf accounts id) entry.1 = move entry.1 := by
      intro entry hentry
      refine Function.update_of_ne (fun heq => hid ?_) ..
      exact heq ▸ List.mem_map.mpr ⟨entry, hentry, rfl⟩
    -- what comes later is not put in the place of what came first
    have hapart : ∀ entry ∈ entries, move entry.1 ≠ placeOf accounts id :=
      fun entry hentry heq => h.new entry hentry (heq ▸ hplace)
    refine ⟨Function.update move id (placeOf accounts id), ?_, ?_, ?_, ?_, ?_, ?_⟩
    · intro id' hid'
      have hne : id' ≠ placeOf accounts id := fun heq => hfree (heq ▸ hid')
      exact (h.stays id' (Object.mem_set.mpr (Or.inr hid'))).trans (Object.lookup_set_of_ne hne)
    · rintro entry (_ | ⟨_, hentry⟩)
      · rw [hsame]
        exact (h.stays _ hplace).trans Object.lookup_set_self
      · rw [hother entry hentry]
        exact h.comes entry hentry
    · rintro entry (_ | ⟨_, hentry⟩)
      · rw [hsame]
        exact hfree
      · rw [hother entry hentry]
        exact fun hin => h.new entry hentry (Object.mem_set.mpr (Or.inr hin))
    · rintro entry (_ | ⟨_, hentry⟩)
      · rw [hsame]
        exact migrated_placeOf
      · rw [hother entry hentry]
        exact h.migrated entry hentry
    · intro id₁ hid₁ id₂ hid₂ heq
      -- two that come later are apart by induction
      rcases List.mem_cons.mp hid₁ with rfl | h₁ <;> rcases List.mem_cons.mp hid₂ with rfl | h₂
      · rfl
      · obtain ⟨entry, hentry, rfl⟩ := List.mem_map.mp h₂
        rw [hsame, hother entry hentry] at heq
        exact absurd heq.symm (hapart entry hentry)
      · obtain ⟨entry, hentry, rfl⟩ := List.mem_map.mp h₁
        rw [hsame, hother entry hentry] at heq
        exact absurd heq (hapart entry hentry)
      · obtain ⟨entry₁, hentry₁, rfl⟩ := List.mem_map.mp h₁
        obtain ⟨entry₂, hentry₂, rfl⟩ := List.mem_map.mp h₂
        rw [hother entry₁ hentry₁, hother entry₂ hentry₂] at heq
        exact h.injOn h₁ h₂ heq
    · intro id' hid'
      rcases h.only id' hid' with hin | ⟨entry, hentry, rfl⟩
      · rcases Object.mem_set.mp hin with rfl | hin
        · exact Or.inr ⟨(id, info), List.mem_cons_self, hsame.symm⟩
        · exact Or.inl hin
      · exact Or.inr ⟨entry, List.mem_cons_of_mem _ hentry, (hother entry hentry).symm⟩

theorem mem_mergeAccounts_of_mem {id : String} (h : id ∈ accounts ∨ id ∈ entries.map Prod.fst) :
    id ∈ mergeAccounts accounts entries := by
  induction entries generalizing accounts with
  | nil => exact h.resolve_right List.not_mem_nil
  | cons entry entries ih =>
    refine ih ?_
    rcases h with hin | hin
    · exact Or.inl (Object.mem_set.mpr (Or.inr hin))
    · rcases List.mem_cons.mp hin with rfl | hin
      · refine Or.inl (Object.mem_set.mpr ?_)
        unfold placeOf
        split
        next htaken => exact Or.inr htaken
        next => exact Or.inl rfl
      · exact Or.inr hin

theorem accounts_mergeProviderData (target source : ProviderData ρ) :
    (mergeProviderData target source).1.accounts =
      mergeAccounts target.accounts source.accounts.toEntries := by
  unfold mergeProviderData
  dsimp only
  split <;> rfl

theorem valid_mergeProviderData {target source : ProviderData ρ} (htarget : target.Valid)
    (hsource : source.Valid) : (mergeProviderData target source).1.Valid := by
  have hnodup : (source.accounts.toEntries.map Prod.fst).Nodup := Object.nodup_toKeys _
  obtain ⟨move, htakes⟩ := exists_takesIn target.accounts source.accounts.toEntries hnodup
  have hnonempty : "" ∉ mergeAccounts target.accounts source.accounts.toEntries := by
    intro hin
    rcases htakes.only "" hin with hin | ⟨⟨id, info⟩, hentry, heq⟩
    · exact htarget.nonempty hin
    · have hid : id ≠ "" := fun heq => hsource.nonempty
        (heq ▸ Object.mem_of_lookup (Object.mem_toEntries.mp hentry))
      exact (htakes.migrated _ hentry).ne_empty hid heq.symm
  unfold mergeProviderData
  rw [htarget.truthy_eq, hsource.truthy_eq]
  cases hactive : target.activeAccount with
  | some id =>
    have hmem : id ∈ mergeAccounts target.accounts source.accounts.toEntries :=
      mem_mergeAccounts_of_mem (Or.inl (htarget.named id hactive))
    rw [if_neg (by simp)]
    exact valid_of_mem hmem hnonempty
  | none =>
    have hempty := htarget.defined hactive
    cases hcoming : source.activeAccount with
    | some id =>
      have hmem : id ∈ mergeAccounts target.accounts source.accounts.toEntries :=
        mem_mergeAccounts_of_mem (Or.inr (Object.mem_toKeys.mpr (hsource.named id hcoming)))
      rw [if_pos ⟨rfl, ⟨id, rfl, hmem⟩, by simp⟩]
      exact valid_of_mem hmem hnonempty
    | none =>
      refine ⟨⟨nofun, fun _ id hin => ?_⟩, hnonempty⟩
      rcases htakes.only id hin with hin | ⟨⟨id', info⟩, hentry, _⟩
      · exact hempty id hin
      · exact hsource.defined hcoming id'
          (Object.mem_of_lookup (Object.mem_toEntries.mp hentry))

end Merge

/-! ### Moving a family loses nothing -/

def record (storage : Storage ρ) (place : String × String) : Option (Info ρ) :=
  (dataOf storage place.1).accounts.lookup place.2

def places (storage : Storage ρ) : Set (String × String) :=
  {place | (record storage place).isSome}

/-- The accounts of one storage are **kept** in another when these are exactly the accounts there,
each at the place that `move` has for it: where it was, or in the known family that it belongs to,
under an id that may be migrated. -/
structure Kept (knownFamilies : List String) (before after : Storage ρ)
    (move : String × String → String × String) : Prop where
  bijOn : Set.BijOn move (places before) (places after)
  record_move : ∀ place ∈ places before, record after (move place) = record before place
  moved : ∀ place ∈ places before, move place = place ∨
    ¬Known knownFamilies place.1 ∧ Migrated place.2 (move place).2 ∧
      ∃ data, before.families.lookup place.1 = some data ∧
        canonicalProviderKey knownFamilies place.1 data.accounts = some (move place).1
  rest : ∀ family, ¬Known knownFamilies family →
    after.families.lookup family = none ∨
      after.families.lookup family = before.families.lookup family

section Kept

variable {knownFamilies : List String} {storage before between after : Storage ρ}
  {family canonical : String} {data : ProviderData ρ}

theorem Kept.refl (knownFamilies : List String) (storage : Storage ρ) :
    Kept knownFamilies storage storage id where
  bijOn := Set.bijOn_id _
  record_move _ _ := rfl
  moved _ _ := Or.inl rfl
  rest _ _ := Or.inr rfl

theorem Kept.trans {move₁ move₂ : String × String → String × String}
    (h₁ : Kept knownFamilies before between move₁) (h₂ : Kept knownFamilies between after move₂) :
    Kept knownFamilies before after (move₂ ∘ move₁) where
  bijOn := h₂.bijOn.comp h₁.bijOn
  record_move place hplace :=
    (h₂.record_move _ (h₁.bijOn.mapsTo hplace)).trans (h₁.record_move place hplace)
  moved place hplace := by
    have hmid := h₁.bijOn.mapsTo hplace
    rcases h₁.moved place hplace with hstays | ⟨hunknown, hmigrated, data, hdata, hcanonical⟩
    · rw [hstays] at hmid
      rw [Function.comp_apply, hstays]
      rcases h₂.moved place hmid with hstays' | ⟨hunknown, hmigrated, data, hdata, hcanonical⟩
      · exact Or.inl hstays'
      · rcases h₁.rest place.1 hunknown with hnone | hsame
        · rw [hnone] at hdata
          cases hdata
        · exact Or.inr ⟨hunknown, hmigrated, data, hsame ▸ hdata, hcanonical⟩
    · rcases h₂.moved (move₁ place) hmid with hstays' | ⟨hunknown', _⟩
      · rw [Function.comp_apply, hstays']
        exact Or.inr ⟨hunknown, hmigrated, data, hdata, hcanonical⟩
      · exact absurd (known_canonical hcanonical) hunknown'
  rest family hunknown := by
    rcases h₂.rest family hunknown with hnone | hsame
    · exact Or.inl hnone
    · rcases h₁.rest family hunknown with hnone | hsame'
      · exact Or.inl (hsame.trans hnone)
      · exact Or.inr (hsame.trans hsame')

theorem lookup_moveFamily (other : String) :
    (moveFamily storage family canonical data).families.lookup other =
      if other = family then none
      else if other = canonical then some (mergeProviderData (dataOf storage canonical) data).1
      else storage.families.lookup other := by
  unfold moveFamily
  rw [Object.lookup_delete, Object.lookup_set]

theorem record_moveFamily (other id : String) :
    record (moveFamily storage family canonical data) (other, id) =
      if other = family then none
      else if other = canonical then
        (mergeProviderData (dataOf storage canonical) data).1.accounts.lookup id
      else record storage (other, id) := by
  unfold record
  rw [dataOf, lookup_moveFamily]
  split
  · exact AList.lookup_empty id
  · split
    · rfl
    · rfl

theorem mem_places {id : String} :
    (family, id) ∈ places storage ↔ id ∈ (dataOf storage family).accounts :=
  AList.lookup_isSome

def movePlace (family canonical : String) (move : String → String) (place : String × String) :
    String × String :=
  if place.1 = family then (canonical, move place.2) else place

theorem movePlace_self (move : String → String) (id : String) :
    movePlace family canonical move (family, id) = (canonical, move id) :=
  if_pos rfl

theorem movePlace_of_ne (move : String → String) {place : String × String}
    (h : place.1 ≠ family) : movePlace family canonical move place = place :=
  if_neg h

section Move

variable {move : String → String}
  (hdata : storage.families.lookup family = some data) (hne : canonical ≠ family)
  (htakes : TakesIn (dataOf storage canonical).accounts data.accounts.toEntries
    (mergeProviderData (dataOf storage canonical) data).1.accounts move)

include hdata in
theorem exists_entry {id : String} (h : (family, id) ∈ places storage) :
    ∃ info, (id, info) ∈ data.accounts.toEntries ∧ record storage (family, id) = some info := by
  obtain ⟨info, hinfo⟩ := Option.isSome_iff_exists.mp h
  refine ⟨info, Object.mem_toEntries.mpr ?_, hinfo⟩
  unfold record dataOf at hinfo
  rw [hdata] at hinfo
  exact hinfo

include hdata hne htakes in
theorem record_movePlace {place : String × String} (h : place ∈ places storage) :
    record (moveFamily storage family canonical data) (movePlace family canonical move place) =
      record storage place := by
  obtain ⟨f, id⟩ := place
  rcases eq_or_ne f family with rfl | hf
  · obtain ⟨info, hentry, hinfo⟩ := exists_entry hdata h
    rw [movePlace_self, record_moveFamily, if_neg hne, if_pos rfl, hinfo]
    exact htakes.comes _ hentry
  · rw [movePlace_of_ne move hf, record_moveFamily, if_neg hf]
    split
    next hc =>
      subst hc
      exact htakes.stays id (mem_places.mp h)
    next => rfl

include hdata htakes in
theorem injOn_movePlace : Set.InjOn (movePlace family canonical move) (places storage) := by
  -- an account that is moved does not come to the place of one that is there
  have hapart (id id' : String) (h : (family, id) ∈ places storage)
      (h' : (canonical, id') ∈ places storage) : move id ≠ id' := by
    rintro rfl
    obtain ⟨info, hentry, _⟩ := exists_entry hdata h
    exact htakes.new _ hentry (mem_places.mp h')
  rintro ⟨f₁, id₁⟩ h₁ ⟨f₂, id₂⟩ h₂ heq
  by_cases hf₁ : f₁ = family <;> by_cases hf₂ : f₂ = family
  · subst hf₁ hf₂
    rw [movePlace_self, movePlace_self, Prod.mk.injEq] at heq
    obtain ⟨info₁, hentry₁, _⟩ := exists_entry hdata h₁
    obtain ⟨info₂, hentry₂, _⟩ := exists_entry hdata h₂
    have hid := htakes.injOn (List.mem_map.mpr ⟨_, hentry₁, rfl⟩)
      (List.mem_map.mpr ⟨_, hentry₂, rfl⟩) heq.2
    rw [show id₁ = id₂ from hid]
  · subst hf₁
    rw [movePlace_self, movePlace_of_ne move hf₂, Prod.mk.injEq] at heq
    obtain ⟨rfl, hid⟩ := heq
    exact absurd hid (hapart id₁ id₂ h₁ h₂)
  · subst hf₂
    rw [movePlace_self, movePlace_of_ne move hf₁, Prod.mk.injEq] at heq
    obtain ⟨rfl, hid⟩ := heq
    exact absurd hid.symm (hapart id₂ id₁ h₂ h₁)
  · rwa [movePlace_of_ne move hf₁, movePlace_of_ne move hf₂] at heq

include hdata hne htakes in
theorem surjOn_movePlace : Set.SurjOn (movePlace family canonical move) (places storage)
    (places (moveFamily storage family canonical data)) := by
  rintro ⟨f, id⟩ h
  unfold places at h
  rw [Set.mem_ofPred, record_moveFamily] at h
  split at h
  · cases h
  next hf =>
    split at h
    next hc =>
      subst hc
      rcases htakes.only id (AList.lookup_isSome.mp h) with hin | ⟨⟨id', info⟩, hentry, rfl⟩
      · exact ⟨(f, id), mem_places.mpr hin, movePlace_of_ne move hf⟩
      · refine ⟨(family, id'), mem_places.mpr ?_, movePlace_self move id'⟩
        unfold dataOf
        rw [hdata]
        exact Object.mem_of_lookup (Object.mem_toEntries.mp hentry)
    next => exact ⟨(f, id), h, movePlace_of_ne move hf⟩

end Move

/-- **A family that is moved loses no account.** -/
theorem exists_kept_moveFamily (hdata : storage.families.lookup family = some data)
    (hcanonical : canonicalProviderKey knownFamilies family data.accounts = some canonical)
    (hne : canonical ≠ family) :
    ∃ move, Kept knownFamilies storage (moveFamily storage family canonical data) move := by
  obtain ⟨move, htakes⟩ := exists_takesIn (dataOf storage canonical).accounts
    data.accounts.toEntries (Object.nodup_toKeys _)
  rw [← accounts_mergeProviderData] at htakes
  have hunknown : ¬Known knownFamilies family := by
    intro hfamily
    rw [canonical_of_known hfamily] at hcanonical
    exact hne (Option.some.inj hcanonical).symm
  have hrecord (place : String × String) (h : place ∈ places storage) :=
    record_movePlace hdata hne htakes h
  refine ⟨movePlace family canonical move, ⟨?_, injOn_movePlace hdata htakes,
    surjOn_movePlace hdata hne htakes⟩, hrecord, ?_, ?_⟩
  · intro place h
    unfold places
    rw [Set.mem_ofPred, hrecord place h]
    exact h
  · rintro ⟨f, id⟩ h
    rcases eq_or_ne f family with rfl | hf
    · obtain ⟨info, hentry, _⟩ := exists_entry hdata h
      rw [movePlace_self]
      exact Or.inr ⟨hunknown, htakes.migrated _ hentry, data, hdata, hcanonical⟩
    · exact Or.inl (movePlace_of_ne move hf)
  · intro f hf
    have hc : f ≠ canonical := fun hc => hf (hc.symm ▸ known_canonical hcanonical)
    rw [lookup_moveFamily]
    rcases eq_or_ne f family with rfl | hother
    · exact Or.inl (if_pos rfl)
    · rw [if_neg hother, if_neg hc]
      exact Or.inr rfl

theorem valid_moveFamily (hvalid : storage.Valid)
    (hdata : storage.families.lookup family = some data) :
    (moveFamily storage family canonical data).Valid := by
  intro f data' hlookup
  rw [lookup_moveFamily] at hlookup
  split at hlookup
  · cases hlookup
  · split at hlookup
    · obtain rfl := Option.some.inj hlookup
      exact valid_mergeProviderData (hvalid.dataOf canonical) (hvalid family data hdata)
    · exact hvalid f data' hlookup

end Kept

/-! ### Normalizing all of them -/

section Normalize

variable {knownFamilies families : List String} {result : Normalized ρ} {storage : Storage ρ}
  {family : String} {data : ProviderData ρ}

def AtHome (knownFamilies : List String) (family : String) (data : ProviderData ρ) : Prop :=
  ∀ canonical, canonicalProviderKey knownFamilies family data.accounts = some canonical →
    canonical = family

theorem atHome_of_known (h : Known knownFamilies family) : AtHome knownFamilies family data := by
  intro canonical hcanonical
  rw [canonical_of_known h] at hcanonical
  exact (Option.some.inj hcanonical).symm

/-- **What the turn of a family does**: nothing if it is where it belongs or is not there at all,
and else it is moved. -/
theorem normalizeFamily_cases (knownFamilies : List String) (result : Normalized ρ)
    (family : String) :
    (normalizeFamily knownFamilies result family = result ∧
      ∀ data, result.storage.families.lookup family = some data →
        AtHome knownFamilies family data) ∨
    ∃ data canonical, result.storage.families.lookup family = some data ∧
      canonicalProviderKey knownFamilies family data.accounts = some canonical ∧
      canonical ≠ family ∧
      (normalizeFamily knownFamilies result family).storage =
        moveFamily result.storage family canonical data := by
  unfold normalizeFamily
  cases hlookup : result.storage.families.lookup family with
  | none => exact Or.inl ⟨rfl, nofun⟩
  | some data =>
    dsimp only
    cases hcanonical : canonicalProviderKey knownFamilies family data.accounts with
    | none =>
      refine Or.inl ⟨rfl, fun data' hdata canonical h => ?_⟩
      obtain rfl := Option.some.inj hdata
      rw [hcanonical] at h
      cases h
    | some canonical =>
      have hne : canonical ≠ "" := (known_canonical hcanonical).2
      dsimp only
      rcases eq_or_ne canonical family with heq | hother
      · rw [if_pos (Or.inr heq)]
        refine Or.inl ⟨rfl, fun data' hdata canonical' h => ?_⟩
        obtain rfl := Option.some.inj hdata
        obtain rfl := Option.some.inj (hcanonical.symm.trans h)
        exact heq
      · rw [if_neg (not_or.mpr ⟨hne, hother⟩)]
        exact Or.inr ⟨data, canonical, rfl, hcanonical, hother, rfl⟩

theorem exists_kept_normalizeFamily (knownFamilies : List String) (result : Normalized ρ)
    (family : String) :
    ∃ move, Kept knownFamilies result.storage
      (normalizeFamily knownFamilies result family).storage move := by
  rcases normalizeFamily_cases knownFamilies result family with
    ⟨heq, _⟩ | ⟨data, canonical, hdata, hcanonical, hne, heq⟩
  · rw [heq]
    exact ⟨id, Kept.refl knownFamilies result.storage⟩
  · rw [heq]
    exact exists_kept_moveFamily hdata hcanonical hne

theorem exists_kept_normalizeProviderKeys (fromModels : List String) (storage : Storage ρ) :
    ∃ move, Kept (listKnownProviders fromModels) storage
      (normalizeProviderKeys fromModels storage).storage move := by
  unfold normalizeProviderKeys
  generalize storage.families.toKeys = families
  refine List.foldlRecOn
    (motive := fun result : Normalized ρ =>
      ∃ move, Kept (listKnownProviders fromModels) storage result.storage move)
    families _ ⟨id, Kept.refl _ storage⟩ ?_
  rintro result ⟨move, hkept⟩ family _
  obtain ⟨move', hkept'⟩ :=
    exists_kept_normalizeFamily (listKnownProviders fromModels) result family
  exact ⟨move' ∘ move, hkept.trans hkept'⟩

theorem valid_normalizeProviderKeys (fromModels : List String) (hvalid : storage.Valid) :
    (normalizeProviderKeys fromModels storage).storage.Valid := by
  refine List.foldlRecOn (motive := fun result : Normalized ρ => result.storage.Valid) _ _
    hvalid ?_
  intro result hresult family _
  rcases normalizeFamily_cases (listKnownProviders fromModels) result family with
    ⟨heq, _⟩ | ⟨data, canonical, hdata, _, _, heq⟩
  · rw [heq]
    exact hresult
  · rw [heq]
    exact valid_moveFamily hresult hdata

theorem atHome_normalizeFamily
    (h : ∀ f data, result.storage.families.lookup f = some data →
      f ∈ family :: families ∨ AtHome knownFamilies f data) :
    ∀ f data, (normalizeFamily knownFamilies result family).storage.families.lookup f = some data →
      f ∈ families ∨ AtHome knownFamilies f data := by
  intro f data hlookup
  rcases normalizeFamily_cases knownFamilies result family with
    ⟨heq, hhome⟩ | ⟨moved, canonical, _, hcanonical, _, heq⟩
  · rw [heq] at hlookup
    rcases h f data hlookup with hmem | hdone
    · rcases List.mem_cons.mp hmem with rfl | hmem
      · exact Or.inr (hhome data hlookup)
      · exact Or.inl hmem
    · exact Or.inr hdone
  · rw [heq, lookup_moveFamily] at hlookup
    split at hlookup
    · cases hlookup
    next hne =>
      split at hlookup
      next hc => exact Or.inr (atHome_of_known (hc ▸ known_canonical hcanonical))
      next =>
        rcases h f data hlookup with hmem | hdone
        · exact Or.inl ((List.mem_cons.mp hmem).resolve_left hne)
        · exact Or.inr hdone

theorem atHome_foldl
    (h : ∀ f data, result.storage.families.lookup f = some data →
      f ∈ families ∨ AtHome knownFamilies f data) :
    ∀ f data, (families.foldl (normalizeFamily knownFamilies) result).storage.families.lookup f =
      some data → AtHome knownFamilies f data := by
  induction families generalizing result with
  | nil => exact fun f data hlookup => (h f data hlookup).resolve_left List.not_mem_nil
  | cons family families ih => exact ih (atHome_normalizeFamily h)

theorem foldl_normalizeFamily_of_atHome
    (h : ∀ f data, result.storage.families.lookup f = some data → AtHome knownFamilies f data) :
    families.foldl (normalizeFamily knownFamilies) result = result := by
  induction families with
  | nil => rfl
  | cons family families ih =>
    rw [List.foldl_cons]
    rcases normalizeFamily_cases knownFamilies result family with
      ⟨heq, _⟩ | ⟨data, canonical, hdata, hcanonical, hne, _⟩
    · rw [heq, ih]
    · exact absurd (h family data hdata canonical hcanonical) hne

theorem normalizeProviderKeys_again (fromModels : List String) (storage : Storage ρ) :
    normalizeProviderKeys fromModels (normalizeProviderKeys fromModels storage).storage =
      ⟨(normalizeProviderKeys fromModels storage).storage, false, []⟩ := by
  have hhome : ∀ f data,
      (normalizeProviderKeys fromModels storage).storage.families.lookup f = some data →
        AtHome (listKnownProviders fromModels) f data := by
    refine atHome_foldl fun f data hlookup => Or.inl ?_
    exact Object.mem_toKeys.mpr (Object.mem_of_lookup hlookup)
  exact foldl_normalizeFamily_of_atHome hhome

end Normalize

end OpenCms.Account
