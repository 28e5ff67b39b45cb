import OpenCms.Account.Families
import OpenCms.Lib.Object
import Mathlib.Data.Rat.Defs
import Mathlib.Algebra.GroupWithZero.Nat

/-!
# Accounts

The accounts are kept by families, and every family has a pointer to the account in use,
`activeAccount`. What should hold of it is `OpenCms.Account.ProviderData.Valid`: the pointer names
an account of the family, and it is there when there is any account. Accounts are added, changed,
removed and chosen, accounts with the same token are made one, and a storage of the first version
is brought to the second; each of these keeps the families valid.
-/

namespace OpenCms.Account

/-! ### What is stored -/

/-- `Account.Info`: what is read of an account, and the rest of it. -/
inductive Info (ρ : Type)
  | api (rest : ρ)
  | subscription (refreshToken : String) (email : Option String)
      (rateLimitResetTimes : Option (List String)) (rest : ρ)

/-- `ProviderData`, the accounts of a family. -/
structure ProviderData (ρ : Type) where
  activeAccount : Option String
  accounts : Object (Info ρ)

/-- `Account.Storage`. -/
structure Storage (ρ : Type) where
  version : ℚ
  families : Object (ProviderData ρ)

variable {ρ : Type}

def truthy : Option String → Bool
  | some s => decide (s ≠ "")
  | none => false

/-- `JWT.isUUID`. -/
def isUUID (str : String) : Bool :=
  let isHex (c : Char) : Bool :=
    c.isDigit || (decide ('a' ≤ c) && decide (c ≤ 'f')) || (decide ('A' ≤ c) && decide (c ≤ 'F'))
  let groups := str.toList.splitOn '-'
  groups.map List.length == [8, 4, 4, 4, 12] && groups.all (·.all isHex)

def find (storage : Storage ρ) (provider accountId : String) :
    Option (ProviderData ρ × Info ρ) :=
  (storage.families.lookup provider).bind fun data =>
    (data.accounts.lookup accountId).map fun info => (data, info)

def dataOf (storage : Storage ρ) (provider : String) : ProviderData ρ :=
  (storage.families.lookup provider).getD ⟨none, ∅⟩

def Storage.setFamily (storage : Storage ρ) (provider : String) (data : ProviderData ρ) :
    Storage ρ :=
  { storage with families := storage.families.set provider data }

/-! ### The operations -/

def add (provider accountId : String) (info : Info ρ) (storage : Storage ρ) :
    Except String (Storage ρ) :=
  if isUUID provider then
    .error (s!"Account.add rejected UUID family key \"{provider}\". " ++
      "UUIDs are JWT account identifiers (chatgpt_account_id), not provider families. " ++
      "The opencode account record id belongs in the accountId argument, " ++
      "not the provider argument.")
  else
    let data := dataOf storage provider
    if accountId ∈ data.accounts then
      .error (s!"Account ID {accountId} already exists for provider {provider}. " ++
        "Account.add does not permit silent overwrites.")
    else
      -- the first account of a family is the active one
      .ok (storage.setFamily provider
        { activeAccount := if truthy data.activeAccount then data.activeAccount else some accountId
          accounts := data.accounts.set accountId info })

/-- `Account.update`. The fields that are given take the place of those of the record. -/
def update (provider accountId : String) (patch : Info ρ → Info ρ) (storage : Storage ρ) :
    Except String (Storage ρ) :=
  match find storage provider accountId with
  | none => .error s!"Account not found: {provider}/{accountId}"
  | some (data, existing) =>
    .ok (storage.setFamily provider
      { data with accounts := data.accounts.set accountId (patch existing) })

/-- What is revoked upstream before an account is removed. -/
def revocation (provider : String) : Info ρ → Option String
  | .subscription refreshToken _ _ _ => if provider = "codex" then some refreshToken else none
  | .api _ => none

def remove (logoutCodex : String → Except String Unit) (provider accountId : String)
    (storage : Storage ρ) : Except String (Storage ρ) :=
  match find storage provider accountId with
  | none => .ok storage
  | some (data, info) => do
    -- what throws upstream leaves the account where it is
    (revocation provider info).elim (.ok ()) logoutCodex
    let accounts := data.accounts.delete accountId
    .ok (storage.setFamily provider
      { activeAccount :=
          if data.activeAccount = some accountId then accounts.toKeys.head? else data.activeAccount
        accounts := accounts })

def setActive (provider accountId : String) (storage : Storage ρ) : Except String (Storage ρ) :=
  match find storage provider accountId with
  | none => .error s!"Account not found: {provider}/{accountId}"
  | some (data, _) => .ok (storage.setFamily provider { data with activeAccount := some accountId })

/-! ### Accounts with the same token -/

def parseBaseToken (refreshToken : String) : String :=
  match refreshToken.toList.findIdx? (· = '|') with
  | some (n + 1) => String.ofList (refreshToken.toList.take (n + 1))
  | _ => refreshToken

def baseToken : Info ρ → Option String
  | .subscription refreshToken _ _ _ => some (parseBaseToken refreshToken)
  | .api _ => none

def byToken (accounts : Object (Info ρ)) : List (List String) :=
  let tokens := accounts.toEntries.filterMap fun (_, info) => baseToken info
  tokens.eraseDups.map fun token =>
    (accounts.toEntries.filter fun (_, info) => baseToken info = some token).map (·.1)

def utf16Length (s : String) : ℕ := (s.toList.map fun c => if c.toNat < 0x10000 then 1 else 2).sum

def hasEmail (accounts : Object (Info ρ)) (id : String) : Bool :=
  match accounts.lookup id with
  | some (.subscription _ email _ _) => truthy email
  | _ => false

/-- The first is not to stand behind the second: those with an email come first, then those with a
longer id. -/
def prefers (accounts : Object (Info ρ)) (a b : String) : Prop :=
  if hasEmail accounts a ∧ ¬hasEmail accounts b then True
  else if ¬hasEmail accounts a ∧ hasEmail accounts b then False
  else utf16Length b ≤ utf16Length a

instance (accounts : Object (Info ρ)) : DecidableRel (prefers accounts) := fun a b => by
  unfold prefers
  infer_instance

def dropDuplicates (keep : String) : List String → ProviderData ρ × ℕ → ProviderData ρ × ℕ
  | [], result => result
  | idToRemove :: ids, (data, removed) =>
    dropDuplicates keep ids
      ({ activeAccount := if data.activeAccount = some idToRemove then some keep
          else data.activeAccount
         accounts := data.accounts.delete idToRemove }, removed + 1)

def dropGroup (result : ProviderData ρ × ℕ) (ids : List String) : ProviderData ρ × ℕ :=
  -- the order is by the accounts that are left by now
  if ids.length ≤ 1 then result
  else
    match ids.insertionSort (prefers result.1.accounts) with
    | [] => result
    | keep :: rest => dropDuplicates keep rest result

def deduplicateByToken (provider : String) (storage : Storage ρ) : Storage ρ × ℕ :=
  match storage.families.lookup provider with
  | none => (storage, 0)
  | some data =>
    let result := (byToken data.accounts).foldl dropGroup (data, 0)
    (storage.setFamily provider result.1, result.2)

/-! ### The second version -/

def isGeminiCli : Info ρ → Bool
  | .subscription _ _ rateLimitResetTimes _ =>
    (rateLimitResetTimes.getD []).any fun k => startsWith k "gemini-cli"
  | .api _ => false

def geminiCliId (id : String) : String :=
  if startsWith id "google-" then "gemini-cli-" ++ String.ofList (id.toList.drop 7) else id

def splitGoogle (entries : List (String × Info ρ)) : Object (Info ρ) × Object (Info ρ) :=
  entries.foldl (fun (geminiCli, remaining) (id, account) =>
    if isGeminiCli account then (geminiCli.set (geminiCliId id) account, remaining)
    else (geminiCli, remaining.set id account)) (∅, ∅)

def migrateToV2 (storage : Storage ρ) : Storage ρ :=
  match storage.families.lookup "google" with
  | none => { storage with version := 2 }
  | some google =>
    let (geminiCli, remaining) := splitGoogle google.accounts.toEntries
    let families :=
      match geminiCli.toKeys.head? with
      | some first => storage.families.set "gemini-cli" ⟨some first, geminiCli⟩
      | none => storage.families
    { version := 2
      families :=
        match remaining.toKeys.head? with
        | some first => families.set "google" ⟨some first, remaining⟩
        | none => families.delete "google" }

/-! ### Families that are valid -/

/-- A family is **pointed** when `activeAccount` names an account, if it names anything, and names
one if there is any. -/
structure ProviderData.Pointed (data : ProviderData ρ) : Prop where
  named : ∀ id, data.activeAccount = some id → id ∈ data.accounts
  defined : data.activeAccount = none → ∀ id, id ∉ data.accounts

/-- A family is **valid** when it is pointed, and no account has the empty id, which would not
count as a name. -/
structure ProviderData.Valid (data : ProviderData ρ) : Prop extends data.Pointed where
  nonempty : "" ∉ data.accounts

def Storage.Pointed (storage : Storage ρ) : Prop :=
  ∀ family data, storage.families.lookup family = some data → data.Pointed

/-- A storage is **valid** when its families are. -/
def Storage.Valid (storage : Storage ρ) : Prop :=
  ∀ family data, storage.families.lookup family = some data → data.Valid

variable {storage storage' : Storage ρ} {data : ProviderData ρ} {provider accountId : String}
  {accounts : Object (Info ρ)} {id : String}

theorem Storage.Valid.setFamily (h : storage.Valid) (hdata : data.Valid) :
    (storage.setFamily provider data).Valid := by
  intro family data' hlookup
  unfold Storage.setFamily at hlookup
  rw [Object.lookup_set] at hlookup
  split at hlookup
  · obtain rfl := Option.some.inj hlookup
    exact hdata
  · exact h family data' hlookup

theorem find_eq_some {info : Info ρ} (h : find storage provider accountId = some (data, info)) :
    storage.families.lookup provider = some data ∧ data.accounts.lookup accountId = some info := by
  obtain ⟨data', hdata, hfound⟩ := Option.bind_eq_some_iff.mp h
  obtain ⟨info', hinfo, heq⟩ := Option.map_eq_some_iff.mp hfound
  obtain ⟨rfl, rfl⟩ := Prod.mk.injEq .. ▸ heq
  exact ⟨hdata, hinfo⟩

theorem ProviderData.Valid.truthy_eq (h : data.Valid) :
    truthy data.activeAccount = data.activeAccount.isSome := by
  cases hactive : data.activeAccount with
  | none => rfl
  | some id =>
    have hne : id ≠ "" := fun heq => h.nonempty (heq ▸ h.named id hactive)
    exact decide_eq_true hne

theorem valid_empty : (⟨none, ∅⟩ : ProviderData ρ).Valid where
  named _ h := nomatch h
  defined _ id := AList.notMem_empty id
  nonempty := AList.notMem_empty ""

theorem Storage.Valid.dataOf (h : storage.Valid) (provider : String) :
    (dataOf storage provider).Valid := by
  unfold Account.dataOf
  cases hlookup : storage.families.lookup provider with
  | none => exact valid_empty
  | some data => exact h provider data hlookup

theorem valid_of_mem (hid : id ∈ accounts) (hne : "" ∉ accounts) :
    (⟨some id, accounts⟩ : ProviderData ρ).Valid where
  named _ h := Option.some.inj h ▸ hid
  defined h := nomatch h
  nonempty := hne

/-! ### The operations keep families valid -/

theorem valid_add {info : Info ρ} (hvalid : storage.Valid) (hne : accountId ≠ "")
    (h : add provider accountId info storage = .ok storage') : storage'.Valid := by
  unfold add at h
  split at h
  · cases h
  · dsimp only at h
    split at h
    · cases h
    · cases h
      have hdata := hvalid.dataOf provider
      generalize dataOf storage provider = data at hdata
      have hnonempty : "" ∉ data.accounts.set accountId info := by
        rw [Object.mem_set]
        exact not_or.mpr ⟨hne.symm, hdata.nonempty⟩
      refine hvalid.setFamily ?_
      rw [hdata.truthy_eq]
      cases hactive : data.activeAccount with
      | none => exact valid_of_mem (Object.mem_set.mpr (Or.inl rfl)) hnonempty
      | some id =>
        exact valid_of_mem (Object.mem_set.mpr (Or.inr (hdata.named id hactive))) hnonempty

theorem valid_update {patch : Info ρ → Info ρ} (hvalid : storage.Valid)
    (h : update provider accountId patch storage = .ok storage') : storage'.Valid := by
  unfold update at h
  split at h
  · cases h
  next data existing hfound =>
    cases h
    obtain ⟨hdata, hexisting⟩ := find_eq_some hfound
    have hdata := hvalid provider data hdata
    have hmem : ∀ id, id ∈ data.accounts.set accountId (patch existing) ↔ id ∈ data.accounts := by
      intro id
      rw [Object.mem_set]
      exact or_iff_right_of_imp fun heq => heq ▸ Object.mem_of_lookup hexisting
    refine hvalid.setFamily ⟨⟨fun id hactive => ?_, fun hnone id => ?_⟩, ?_⟩
    · exact (hmem id).mpr (hdata.named id hactive)
    · exact fun hin => hdata.defined hnone id ((hmem id).mp hin)
    · exact fun hin => hdata.nonempty ((hmem "").mp hin)

theorem valid_delete (hdata : data.Valid) :
    (⟨if data.activeAccount = some accountId then (data.accounts.delete accountId).toKeys.head?
      else data.activeAccount, data.accounts.delete accountId⟩ : ProviderData ρ).Valid := by
  have hnonempty : "" ∉ data.accounts.delete accountId :=
    fun hin => hdata.nonempty (Object.mem_delete.mp hin).2
  split
  · cases hfirst : (data.accounts.delete accountId).toKeys.head? with
    | none => exact ⟨⟨nofun, fun _ => Object.notMem_of_head?_toKeys hfirst⟩, hnonempty⟩
    | some first => exact valid_of_mem (Object.mem_of_head?_toKeys hfirst) hnonempty
  next hother =>
    cases hactive : data.activeAccount with
    | none =>
      refine ⟨⟨nofun, fun _ id hin => ?_⟩, hnonempty⟩
      exact hdata.defined hactive id (Object.mem_delete.mp hin).2
    | some id =>
      have hne : id ≠ accountId := fun heq => hother (heq ▸ hactive)
      exact valid_of_mem (Object.mem_delete.mpr ⟨hne, hdata.named id hactive⟩) hnonempty

theorem valid_remove {logoutCodex : String → Except String Unit} (hvalid : storage.Valid)
    (h : remove logoutCodex provider accountId storage = .ok storage') : storage'.Valid := by
  unfold remove at h
  split at h
  · cases h
    exact hvalid
  next data info hfound =>
    obtain ⟨hlookup, hinfo⟩ := find_eq_some hfound
    have hdata := hvalid provider data hlookup
    cases hrevoked : (revocation provider info).elim (.ok ()) logoutCodex with
    | error e =>
      rw [hrevoked] at h
      cases h
    | ok =>
      rw [hrevoked] at h
      cases h
      exact hvalid.setFamily (valid_delete hdata)

theorem valid_setActive (hvalid : storage.Valid)
    (h : setActive provider accountId storage = .ok storage') : storage'.Valid := by
  unfold setActive at h
  split at h
  · cases h
  next data info hfound =>
    cases h
    obtain ⟨hdata, hinfo⟩ := find_eq_some hfound
    exact hvalid.setFamily
      (valid_of_mem (Object.mem_of_lookup hinfo) (hvalid provider data hdata).nonempty)

/-! ### Making accounts one keeps the family valid -/

section Duplicates

variable {keep : String} {ids : List String} {removed : ℕ} {result : ProviderData ρ × ℕ}

theorem mem_dropDuplicates :
    id ∈ (dropDuplicates keep ids result).1.accounts ↔ id ∉ ids ∧ id ∈ result.1.accounts := by
  induction ids generalizing result with
  | nil => simp [dropDuplicates]
  | cons idToRemove ids ih =>
    unfold dropDuplicates
    rw [ih, Object.mem_delete, List.mem_cons, not_or]
    tauto

theorem valid_dropDuplicates (hdata : result.1.Valid) (hkeep : keep ∈ result.1.accounts)
    (hnot : keep ∉ ids) : (dropDuplicates keep ids result).1.Valid := by
  induction ids generalizing result with
  | nil => exact hdata
  | cons idToRemove ids ih =>
    obtain ⟨data, removed⟩ := result
    obtain ⟨hne, hnot⟩ := not_or.mp (List.mem_cons.not.mp hnot)
    have hkept : keep ∈ data.accounts.delete idToRemove := Object.mem_delete.mpr ⟨hne, hkeep⟩
    have hnonempty : "" ∉ data.accounts.delete idToRemove :=
      fun hin => hdata.nonempty (Object.mem_delete.mp hin).2
    refine ih ?_ hkept hnot
    -- what was active is active still, unless it is what goes; then it is what is kept
    split
    · exact valid_of_mem hkept hnonempty
    next hother =>
      cases hactive : data.activeAccount with
      | none => exact absurd hkeep (hdata.defined hactive keep)
      | some id =>
        have hne : id ≠ idToRemove := fun heq => hother (heq ▸ hactive)
        exact valid_of_mem (Object.mem_delete.mpr ⟨hne, hdata.named id hactive⟩) hnonempty

/-- **Dropping the duplicates of a group** keeps the family valid, and the accounts that are not
in the group. -/
theorem valid_dropGroup (hdata : result.1.Valid) (hnodup : ids.Nodup)
    (hids : ∀ id ∈ ids, id ∈ result.1.accounts) :
    (dropGroup result ids).1.Valid ∧
      ∀ id, id ∉ ids → id ∈ result.1.accounts → id ∈ (dropGroup result ids).1.accounts := by
  unfold dropGroup
  split
  · exact ⟨hdata, fun _ _ h => h⟩
  · have hperm := List.perm_insertionSort (prefers result.1.accounts) ids
    split
    · exact ⟨hdata, fun _ _ h => h⟩
    next keep rest hsorted =>
      rw [hsorted] at hperm
      have hkeep : keep ∈ result.1.accounts := hids keep (hperm.mem_iff.mp List.mem_cons_self)
      have hnot : keep ∉ rest := (List.nodup_cons.mp (hperm.nodup_iff.mpr hnodup)).1
      refine ⟨valid_dropDuplicates hdata hkeep hnot, fun id hid hin => ?_⟩
      refine mem_dropDuplicates.mpr ⟨fun hrest => hid ?_, hin⟩
      exact hperm.mem_iff.mp (List.mem_cons_of_mem _ hrest)

theorem valid_foldl_dropGroup {groups : List (List String)} (hdata : result.1.Valid)
    (hapart : groups.Pairwise List.Disjoint)
    (hgroups : ∀ ids ∈ groups, ids.Nodup ∧ ∀ id ∈ ids, id ∈ result.1.accounts) :
    (groups.foldl dropGroup result).1.Valid := by
  induction groups generalizing result with
  | nil => exact hdata
  | cons ids groups ih =>
    obtain ⟨hdisjoint, hapart⟩ := List.pairwise_cons.mp hapart
    obtain ⟨hnodup, hids⟩ := hgroups ids List.mem_cons_self
    obtain ⟨hdropped, hkept⟩ := valid_dropGroup hdata hnodup hids
    refine ih hdropped hapart fun other hother => ?_
    obtain ⟨hnodup, hother'⟩ := hgroups other (List.mem_cons_of_mem _ hother)
    refine ⟨hnodup, fun id hid => hkept id (fun hin => ?_) (hother' id hid)⟩
    exact hdisjoint other hother hin hid

theorem nodup_eraseDups {α : Type} [DecidableEq α] : (l : List α) → l.eraseDups.Nodup
  | [] => List.nodup_nil
  | a :: l => by
    rw [List.eraseDups_cons, List.nodup_cons]
    refine ⟨fun hmem => ?_, nodup_eraseDups _⟩
    simpa using (List.mem_filter.mp (List.mem_eraseDups.mp hmem)).2
termination_by l => l.length
decreasing_by exact Nat.lt_succ_of_le (List.length_filter_le _ _)

theorem mem_group {token : String}
    (h : id ∈ (accounts.toEntries.filter fun (_, info) => baseToken info = some token).map (·.1)) :
    ∃ info, accounts.lookup id = some info ∧ baseToken info = some token := by
  obtain ⟨⟨id', info⟩, hmem, rfl⟩ := List.mem_map.mp h
  obtain ⟨hentry, htoken⟩ := List.mem_filter.mp hmem
  exact ⟨info, Object.mem_toEntries.mp hentry, by simpa using htoken⟩

/-- **No account is in the groups of two tokens.** -/
theorem pairwise_byToken (accounts : Object (Info ρ)) :
    (byToken accounts).Pairwise List.Disjoint := by
  refine List.pairwise_map.mpr ((nodup_eraseDups _).imp fun hne => ?_)
  intro id hid hid'
  obtain ⟨info, hinfo, htoken⟩ := mem_group hid
  obtain ⟨info', hinfo', htoken'⟩ := mem_group hid'
  obtain rfl := Option.some.inj (hinfo.symm.trans hinfo')
  exact hne (Option.some.inj (htoken.symm.trans htoken'))

theorem nodup_of_mem_byToken (h : ids ∈ byToken accounts) :
    ids.Nodup ∧ ∀ id ∈ ids, id ∈ accounts := by
  obtain ⟨token, _, rfl⟩ := List.mem_map.mp h
  constructor
  · exact (Object.nodup_toKeys accounts).sublist (List.filter_sublist.map _)
  · intro id hid
    obtain ⟨info, hinfo, _⟩ := mem_group hid
    exact Object.mem_of_lookup hinfo

theorem valid_deduplicateByToken (hvalid : storage.Valid) :
    (deduplicateByToken provider storage).1.Valid := by
  unfold deduplicateByToken
  split
  · exact hvalid
  next data hlookup =>
    refine hvalid.setFamily (valid_foldl_dropGroup (hvalid provider data hlookup) ?_ ?_)
    · exact pairwise_byToken data.accounts
    · exact fun ids hids => nodup_of_mem_byToken hids

end Duplicates

/-! ### The second version is valid -/

theorem geminiCliId_ne_empty (h : id ≠ "") : geminiCliId id ≠ "" := by
  unfold geminiCliId
  split
  · intro heq
    have hchars := congrArg String.toList heq
    simp at hchars
  · exact h

theorem notMem_splitGoogle {entries : List (String × Info ρ)}
    (h : ∀ entry ∈ entries, entry.1 ≠ "") :
    "" ∉ (splitGoogle entries).1 ∧ "" ∉ (splitGoogle entries).2 := by
  refine List.foldlRecOn
    (motive := fun parts : Object (Info ρ) × Object (Info ρ) => "" ∉ parts.1 ∧ "" ∉ parts.2)
    entries _ ⟨AList.notMem_empty "", AList.notMem_empty ""⟩ ?_
  rintro ⟨geminiCli, remaining⟩ ⟨hgemini, hremaining⟩ ⟨id, account⟩ hentry
  have hid : id ≠ "" := h (id, account) hentry
  dsimp only
  split
  · refine ⟨?_, hremaining⟩
    rw [Object.mem_set]
    exact not_or.mpr ⟨(geminiCliId_ne_empty hid).symm, hgemini⟩
  · refine ⟨hgemini, ?_⟩
    rw [Object.mem_set]
    exact not_or.mpr ⟨hid.symm, hremaining⟩

theorem valid_migrateToV2 (hvalid : storage.Valid) : (migrateToV2 storage).Valid := by
  unfold migrateToV2
  split
  · exact hvalid
  next google hgoogle =>
    have hids : ∀ entry ∈ google.accounts.toEntries, entry.1 ≠ "" := by
      rintro ⟨id, account⟩ hentry rfl
      exact (hvalid "google" google hgoogle).nonempty
        (Object.mem_of_lookup (Object.mem_toEntries.mp hentry))
    obtain ⟨hgemini, hremaining⟩ := notMem_splitGoogle hids
    generalize splitGoogle google.accounts.toEntries = parts at hgemini hremaining
    obtain ⟨geminiCli, remaining⟩ := parts
    dsimp only at hgemini hremaining ⊢
    -- the families once those of `gemini-cli` are there
    have hmoved : Storage.Valid ⟨2, match geminiCli.toKeys.head? with
        | some first => storage.families.set "gemini-cli" ⟨some first, geminiCli⟩
        | none => storage.families⟩ := by
      cases hfirst : geminiCli.toKeys.head? with
      | none => exact hvalid
      | some first =>
        exact hvalid.setFamily (valid_of_mem (Object.mem_of_head?_toKeys hfirst) hgemini)
    cases hfirst : remaining.toKeys.head? with
    | none =>
      intro family data hlookup
      rw [Object.lookup_delete] at hlookup
      split at hlookup
      · cases hlookup
      · exact hmoved family data hlookup
    | some first =>
      exact hmoved.setFamily (valid_of_mem (Object.mem_of_head?_toKeys hfirst) hremaining)

end OpenCms.Account
