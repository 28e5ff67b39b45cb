import OpenCms.Account.Normalize
import OpenCms.Lib.Runs

/-!
# The file of the accounts

The accounts are in `accounts.json`, and what was read of it is kept for as long as the file has
the same mtime. A call changes the storage that is kept, and then writes it. If the write fails,
the change is still there; and a load that fails for any reason is one of an empty storage, which
the next call that succeeds writes over the file.

So a save that rejects is not noticed later only if the call changed nothing, and accounts on the
disk outlive a load that fails only if the call that writes next has them all
(`OpenCms.Account.atomic_run`).

Functions of other processes come as changes of the file from outside, and so does the move of the
file from its old place, which is the first thing a load does when there is hardly any file.
-/

namespace OpenCms.Account

variable {ρ : Type}

/-! ### The file and what is kept of it -/

/-- What `accounts.json` holds: a storage, or something that is not one, with accounts in it. -/
inductive Content (ρ : Type)
  | stored (storage : Storage ρ)
  | broken (accounts : List (String × String))

structure File (ρ : Type) where
  content : Content ρ
  mtime : ℕ

/-- The file, what `migrate` finds in older files, and what is kept: `_storage` and `_mtime`.
It is remembered whether `_storage` comes from a load that failed. -/
structure State (ρ : Type) where
  file : Option (File ρ)
  older : Option (Storage ρ)
  _storage : Option (Storage ρ)
  _mtime : Option ℕ
  failed : Bool

/-- How a write ends: well, without the right mode, half way, or before anything is written. -/
inductive Write
  | written (mtime : ℕ)
  | chmodFailed (mtime : ℕ)
  | torn (accounts : List (String × String)) (mtime : ℕ)
  | refused

def Write.rejects : Write → Bool
  | .written _ => false
  | _ => true

/-- What the system has for a load: whether the file can be read, and how the two saves of the
load end if they are made. -/
structure Reading where
  readable : Bool
  migrated : Write
  tidied : Write

def noAccounts : Storage ρ := ⟨2, ∅⟩

def State.getDiskMtime (s : State ρ) : Option ℕ := s.file.map File.mtime

def save (storage : Storage ρ) (w : Write) (s : State ρ) : State ρ :=
  match w with
  | .written mtime => { s with file := some ⟨.stored storage, mtime⟩, _mtime := some mtime }
  | .chmodFailed mtime => { s with file := some ⟨.stored storage, mtime⟩ }
  | .torn accounts mtime => { s with file := some ⟨.broken accounts, mtime⟩ }
  | .refused => s

section Model

variable (fromModels managedKeys : List String)

def stripManaged (storage : Storage ρ) : Storage ρ × Bool :=
  managedKeys.foldl (fun (storage, shouldSave) key =>
    if key ∈ storage.families then
      ({ storage with families := storage.families.delete key }, true)
    else (storage, shouldSave)) (storage, false)

/-- What a load makes of a storage of the second version, and whether that is to be saved. -/
def tidy (storage : Storage ρ) : Storage ρ × Bool :=
  let (storage, shouldSave) := stripManaged managedKeys storage
  let normalized := normalizeProviderKeys fromModels storage
  (normalized.storage, shouldSave || normalized.changed)

/-- How `load` ends. -/
inductive Loaded (ρ : Type)
  | rejected
  | failed
  | loaded (storage : Storage ρ)

/-- The end of `load`, from the second version on. -/
def loadTidied (storage : Storage ρ) (r : Reading) (s : State ρ) : Loaded ρ × State ρ :=
  let (tidied, shouldSave) := tidy fromModels managedKeys storage
  if shouldSave then
    (if r.tidied.rejects then .failed else .loaded tidied, save tidied r.tidied s)
  else (.loaded tidied, s)

/-- `load`. What is thrown once there is a file counts as an empty storage. -/
def load (r : Reading) (s : State ρ) : Loaded ρ × State ρ :=
  match s.file with
  | none =>
    match s.older with
    | none => (.loaded noAccounts, s)
    | some storage =>
      -- this save is not in the `try`
      (if r.migrated.rejects then .rejected else .loaded storage, save storage r.migrated s)
  | some file =>
    match r.readable, file.content with
    | true, .stored storage =>
      if storage.version < 2 then
        let s := save (migrateToV2 storage) r.migrated s
        if r.migrated.rejects then (.failed, s)
        else loadTidied fromModels managedKeys (migrateToV2 storage) r s
      else loadTidied fromModels managedKeys storage r s
    | _, _ => (.failed, s)

/-- What is kept, while the file has the mtime it was read at. -/
def State.current (s : State ρ) : Option (Storage ρ) :=
  if s.getDiskMtime = s._mtime then s._storage else none

def State.keep (storage : Storage ρ) (failed : Bool) (s : State ρ) : State ρ :=
  { s with _storage := some storage, _mtime := s.getDiskMtime, failed := failed }

def state (r : Reading) (s : State ρ) : Option (Storage ρ) × State ρ :=
  match s.current with
  | some storage => (some storage, s)
  | none =>
    match load fromModels managedKeys r s with
    | (.rejected, s) => (none, s)
    | (.failed, s) => (some noAccounts, s.keep noAccounts true)
    | (.loaded storage, s) => (some storage, s.keep storage false)

def list (r : Reading) (s : State ρ) (provider : String) : Option (Object (Info ρ)) :=
  (state fromModels managedKeys r s).1.map fun storage => (dataOf storage provider).accounts

def get (r : Reading) (s : State ρ) (provider accountId : String) : Option (Option (Info ρ)) :=
  (state fromModels managedKeys r s).1.map fun storage =>
    (dataOf storage provider).accounts.lookup accountId

def getActive (r : Reading) (s : State ρ) (provider : String) : Option (Option String) :=
  (state fromModels managedKeys r s).1.map fun storage => (dataOf storage provider).activeAccount

/-! ### Calls -/

inductive Call (ρ : Type)
  | add (provider accountId : String) (info : Info ρ)
  | update (provider accountId : String) (patch : Info ρ → Info ρ)
  | remove (logoutCodex : String → Except String Unit) (provider accountId : String)
  | setActive (provider accountId : String)

def Call.place : Call ρ → String × String
  | .add provider accountId _ | .update provider accountId _ | .remove _ provider accountId
  | .setActive provider accountId => (provider, accountId)

/-- A call that rejects before it looks at the storage. -/
def Call.refused : Call ρ → Bool
  | .add provider _ _ => isUUID provider
  | _ => false

def Call.saved (storage : Storage ρ) : Call ρ → Option (Storage ρ)
  | .add provider accountId info => (Account.add provider accountId info storage).toOption
  | .update provider accountId patch => (Account.update provider accountId patch storage).toOption
  | .remove logoutCodex provider accountId =>
    -- without the account the call returns at once
    if (find storage provider accountId).isSome then
      (Account.remove logoutCodex provider accountId storage).toOption
    else none
  | .setActive provider accountId => (Account.setActive provider accountId storage).toOption

def Call.attempt (r : Reading) (s : State ρ) (call : Call ρ) : Option (Storage ρ) × State ρ :=
  if call.refused then (none, s)
  else
    let (storage, s) := state fromModels managedKeys r s
    (storage.bind call.saved, s)

def saveKept (w : Write) : Option (Storage ρ) × State ρ → State ρ
  | (some storage, s) => save storage w { s with _storage := some storage }
  | (none, s) => s

inductive Event (ρ : Type)
  /-- the storage is looked at -/
  | read (r : Reading)
  | call (call : Call ρ) (r : Reading) (w : Write)
  /-- another function changes the storage that is kept, and saves it -/
  | modify (f : Storage ρ → Option (Storage ρ)) (r : Reading) (w : Write)
  /-- the files change from outside -/
  | change (file : Option (File ρ)) (older : Option (Storage ρ))

def step (s : State ρ) : Event ρ → State ρ
  | .read r => (state fromModels managedKeys r s).2
  | .call call r w => saveKept w (call.attempt fromModels managedKeys r s)
  | .modify f r w =>
    let (storage, s) := state fromModels managedKeys r s
    saveKept w (storage.bind f, s)
  | .change file older => { s with file := file, older := older }

/-- Nothing is kept at first. -/
def start (file : Option (File ρ)) (older : Option (Storage ρ)) : State ρ :=
  ⟨file, older, none, none, false⟩

/-! ### What is to hold of a call -/

/-- Nothing goes wrong in a load, but for what the file holds. -/
def Reading.Reliable (r : Reading) : Prop :=
  r.readable ∧ r.migrated.rejects = false ∧ r.tidied.rejects = false

/-- The state after the storage has been looked at, again and again. -/
def reads (s : State ρ) (rs : List Reading) : State ρ :=
  rs.foldl (fun s r => (state fromModels managedKeys r s).2) s

/-- Whoever looks at the accounts later, when nothing goes wrong, is told what was told before. -/
def Unnoticed (before after : State ρ) : Prop :=
  ∀ rs r r', (∀ r'' ∈ r :: r' :: rs, r''.Reliable) → ∀ provider accountId,
    list fromModels managedKeys r' (reads fromModels managedKeys after rs) provider =
      list fromModels managedKeys r before provider ∧
    get fromModels managedKeys r' (reads fromModels managedKeys after rs) provider accountId =
      get fromModels managedKeys r before provider accountId ∧
    getActive fromModels managedKeys r' (reads fromModels managedKeys after rs) provider =
      getActive fromModels managedKeys r before provider

def State.onDisk (s : State ρ) : Set (String × String) :=
  match s.file with
  | none => ∅
  | some ⟨.stored storage, _⟩ => places storage
  | some ⟨.broken accounts, _⟩ => {place | place ∈ accounts}

def Call.Removes (place : String × String) : Call ρ → Prop
  | .remove _ provider accountId => place = (provider, accountId)
  | _ => False

/-- A call is **atomic** when nobody notices it if its save rejects, and it leaves no account out
of the file, but for the one it removes, because a load failed. -/
def Atomic (s : State ρ) : Event ρ → Prop
  | .call call r w =>
    let attempt := call.attempt fromModels managedKeys r s
    let after := step fromModels managedKeys s (.call call r w)
    attempt.1.isSome →
      (w.rejects → Unnoticed fromModels managedKeys s after) ∧
      (attempt.2.failed → ∀ place ∈ attempt.2.onDisk, place ∈ after.onDisk ∨ call.Removes place)
  | _ => True

/-! ### What is seen of the accounts -/

def secondVersion (storage : Storage ρ) : Storage ρ :=
  if storage.version < 2 then migrateToV2 storage else storage

def Content.read : Content ρ → Storage ρ
  | .stored storage => (tidy fromModels managedKeys (secondVersion storage)).1
  | .broken _ => noAccounts

/-- What the accounts are for those who look at them. -/
def seen (s : State ρ) : Storage ρ :=
  match s.current, s.file with
  | some storage, _ => storage
  | none, none => s.older.getD noAccounts
  | none, some file => file.content.read fromModels managedKeys

/-- Reading the file **fails** when it is broken or cannot be read, or when a save that is made on
the way rejects. -/
def Content.Fails (r : Reading) : Content ρ → Prop
  | .broken _ => True
  | .stored storage =>
    r.readable = false ∨ (storage.version < 2 ∧ r.migrated.rejects) ∨
      ((tidy fromModels managedKeys (secondVersion storage)).2 ∧ r.tidied.rejects)

def LoadFails (r : Reading) (s : State ρ) : Prop :=
  s.current = none ∧ ∃ file, s.file = some file ∧ file.content.Fails fromModels managedKeys r

variable {fromModels managedKeys} {s t : State ρ} {r : Reading} {w : Write}
  {storage storage' : Storage ρ} {call : Call ρ}

theorem current_keep (failed : Bool) : (s.keep storage failed).current = some storage :=
  if_pos rfl

theorem seen_of_current (h : s.current = some storage) :
    seen fromModels managedKeys s = storage := by
  unfold seen
  rw [h]

/-- **What is handed out is kept**, and the file has the mtime it is kept at. -/
theorem current_state (h : (state fromModels managedKeys r s).1 = some storage) :
    (state fromModels managedKeys r s).2.current = some storage := by
  unfold state at h ⊢
  split
  next kept hkept =>
    rw [hkept] at h
    exact hkept.trans h
  next hnone =>
    rw [hnone] at h
    split
    next hload =>
      rw [hload] at h
      cases h
    next hload =>
      rw [hload] at h
      cases h
      exact current_keep true
    next hload =>
      rw [hload] at h
      cases h
      exact current_keep false

theorem loadTidied_fst :
    (loadTidied fromModels managedKeys storage r s).1 =
      if (tidy fromModels managedKeys storage).2 ∧ r.tidied.rejects then .failed
      else .loaded (tidy fromModels managedKeys storage).1 := by
  unfold loadTidied
  generalize tidy fromModels managedKeys storage = tidied
  obtain ⟨tidied, shouldSave⟩ := tidied
  cases shouldSave with
  | false => rw [if_neg (by simp)]; rfl
  | true => simp

theorem load_fst_of_file {file : File ρ} (hfile : s.file = some file)
    (hgood : ¬file.content.Fails fromModels managedKeys r) :
    (load fromModels managedKeys r s).1 = .loaded (file.content.read fromModels managedKeys) := by
  obtain ⟨content, mtime⟩ := file
  unfold load
  rw [hfile]
  cases content with
  | broken accounts => exact absurd trivial hgood
  | stored storage =>
    obtain ⟨hreadable, hmigrated, htidied⟩ := by
      simpa [Content.Fails, not_or] using hgood
    dsimp only [Content.read]
    rw [hreadable]
    dsimp only
    by_cases hold : storage.version < 2
    · have hsecond : secondVersion storage = migrateToV2 storage := if_pos hold
      rw [hsecond] at htidied ⊢
      rw [if_pos hold, if_neg (by simp [hmigrated hold]), loadTidied_fst, if_neg (by simpa)]
    · have hsecond : secondVersion storage = storage := if_neg hold
      rw [hsecond] at htidied ⊢
      rw [if_neg hold, loadTidied_fst, if_neg (by simpa)]

/-- **A load that does not fail gives what is seen**, unless it rejects. -/
theorem state_eq_seen (h : (state fromModels managedKeys r s).1 = some storage)
    (hfails : ¬LoadFails fromModels managedKeys r s) :
    storage = seen fromModels managedKeys s := by
  unfold state at h
  cases hcurrent : s.current with
  | some kept =>
    rw [hcurrent] at h
    rw [seen_of_current hcurrent]
    exact (Option.some.inj h).symm
  | none =>
    rw [hcurrent] at h
    unfold seen
    rw [hcurrent]
    cases hfile : s.file with
    | none =>
      unfold load at h
      rw [hfile] at h
      cases holder : s.older with
      | none =>
        rw [holder] at h
        exact (Option.some.inj h).symm
      | some found =>
        rw [holder] at h
        cases hrejects : r.migrated.rejects with
        | true => simp [hrejects] at h
        | false => simpa [hrejects] using h.symm
    | some file =>
      have hload := load_fst_of_file hfile fun hbad => hfails ⟨hcurrent, file, hfile, hbad⟩
      generalize load fromModels managedKeys r s = result at h hload
      obtain ⟨loaded, after⟩ := result
      subst hload
      exact (Option.some.inj h).symm

theorem isSome_state (h : r.migrated.rejects = false) :
    ((state fromModels managedKeys r s).1).isSome := by
  unfold state
  cases s.current with
  | some kept => rfl
  | none =>
    have hload : (load fromModels managedKeys r s).1 ≠ .rejected := by
      unfold load
      cases s.file with
      | none =>
        cases s.older with
        | none => nofun
        | some storage => simp [h]
      | some file =>
        obtain ⟨content, mtime⟩ := file
        have htidied : ∀ (storage : Storage ρ) (s : State ρ),
            (loadTidied fromModels managedKeys storage r s).1 ≠ .rejected := by
          intro storage s
          rw [loadTidied_fst]
          split <;> nofun
        cases hreadable : r.readable with
        | false => nofun
        | true =>
          cases content with
          | broken accounts => nofun
          | stored storage =>
            dsimp only
            split
            · simpa [h] using htidied _ _
            · exact htidied _ _
    generalize load fromModels managedKeys r s = result at hload
    obtain ⟨loaded, after⟩ := result
    cases loaded with
    | rejected => exact absurd rfl hload
    | failed => rfl
    | loaded storage => rfl

/-- **When nothing goes wrong, what is seen is handed out.** -/
theorem state_of_reliable (hr : r.Reliable) :
    (state fromModels managedKeys r s).1 = some (seen fromModels managedKeys s) := by
  obtain ⟨hreadable, hmigrated, htidied⟩ := hr
  have hsome : ((state fromModels managedKeys r s).1).isSome := isSome_state hmigrated
  obtain ⟨storage, hstorage⟩ := Option.isSome_iff_exists.mp hsome
  by_cases hfails : LoadFails fromModels managedKeys r s
  · -- only a broken file makes such a load fail, and it counts as an empty one
    obtain ⟨hcurrent, ⟨content, mtime⟩, hfile, hbad⟩ := hfails
    cases content with
    | broken accounts =>
      unfold state seen load
      rw [hcurrent, hfile, hreadable]
      rfl
    | stored kept => simp [Content.Fails, hreadable, hmigrated, htidied] at hbad
  · rw [hstorage, state_eq_seen hstorage hfails]

theorem seen_state (hr : r.Reliable) :
    seen fromModels managedKeys (state fromModels managedKeys r s).2 =
      seen fromModels managedKeys s :=
  seen_of_current (current_state (state_of_reliable hr))

theorem seen_reads {rs : List Reading} (hrs : ∀ r ∈ rs, r.Reliable) :
    seen fromModels managedKeys (reads fromModels managedKeys s rs) =
      seen fromModels managedKeys s := by
  induction rs generalizing s with
  | nil => rfl
  | cons r rs ih =>
    obtain ⟨hr, hrs⟩ := List.forall_mem_cons.mp hrs
    exact (ih hrs).trans (seen_state hr)

/-- **What is told of the accounts is what is seen.** -/
theorem unnoticed_iff :
    Unnoticed fromModels managedKeys s t ↔ ∀ provider,
      dataOf (seen fromModels managedKeys t) provider =
        dataOf (seen fromModels managedKeys s) provider := by
  constructor
  · intro h provider
    let good : Reading := ⟨true, .written 0, .written 0⟩
    have hgood : good.Reliable := ⟨rfl, rfl, rfl⟩
    obtain ⟨hlist, _, hactive⟩ := h [] good good (by simpa using hgood) provider ""
    unfold list at hlist
    unfold getActive at hactive
    rw [reads, List.foldl_nil, state_of_reliable hgood, state_of_reliable hgood] at hlist hactive
    exact congrArg₂ ProviderData.mk (Option.some.inj hactive) (Option.some.inj hlist)
  · intro h rs r r' hrs provider accountId
    obtain ⟨hr, hrest⟩ := List.forall_mem_cons.mp hrs
    obtain ⟨hr', hrs⟩ := List.forall_mem_cons.mp hrest
    unfold list get getActive
    rw [state_of_reliable hr, state_of_reliable hr', seen_reads hrs]
    simp only [Option.map_some, h provider, and_self]

/-! ### What a call saves -/

/-- A call that changes nothing: it makes an account what it is, or chooses the one in use. -/
def Call.Idle (storage : Storage ρ) : Call ρ → Prop
  | .add .. | .remove .. => False
  | .update provider accountId patch =>
    ∀ info, record storage (provider, accountId) = some info → patch info = info
  | .setActive provider accountId => (dataOf storage provider).activeAccount = some accountId

theorem dataOf_of_lookup {provider : String} {data : ProviderData ρ}
    (h : storage.families.lookup provider = some data) : dataOf storage provider = data := by
  unfold dataOf
  rw [h, Option.getD_some]

theorem dataOf_setFamily (provider other : String) (data : ProviderData ρ) :
    dataOf (storage.setFamily provider data) other =
      if other = provider then data else dataOf storage other := by
  unfold dataOf Storage.setFamily
  rw [Object.lookup_set]
  split <;> rfl

theorem record_eq_of_find {provider accountId : String} {data : ProviderData ρ} {info : Info ρ}
    (h : find storage provider accountId = some (data, info)) :
    dataOf storage provider = data ∧ record storage (provider, accountId) = some info := by
  obtain ⟨hdata, hinfo⟩ := find_eq_some h
  have hof := dataOf_of_lookup hdata
  exact ⟨hof, by rw [record, hof]; exact hinfo⟩

theorem saved_eq_setFamily (h : call.saved storage = some storage') :
    ∃ data, storage' = storage.setFamily call.place.1 data ∧
      (∀ id, id ∈ data.accounts ↔
        (id ∈ (dataOf storage call.place.1).accounts ∨ id = call.place.2) ∧
          ¬call.Removes (call.place.1, id)) ∧
      (call.Idle storage ↔ data = dataOf storage call.place.1) ∧
      (call.Idle storage → storage.families.lookup call.place.1 = some data) := by
  cases call with
  | add provider accountId info =>
    dsimp only [Call.saved, Account.add] at h
    split at h
    · cases h
    · split at h
      · cases h
      next hfree =>
        refine ⟨_, (Option.some.inj h).symm, fun id => ?_, ⟨False.elim, fun heq => ?_⟩, nofun⟩
        · simp [Call.place, Call.Removes, or_comm]
        · refine hfree ?_
          have hmem := congrArg (fun data : ProviderData ρ => accountId ∈ data.accounts) heq
          simpa [Call.place] using hmem
  | update provider accountId patch =>
    dsimp only [Call.saved, Account.update] at h
    split at h
    · cases h
    next data existing hfound =>
      obtain ⟨hdata, hrecord⟩ := record_eq_of_find hfound
      obtain ⟨hlookup, hinfo⟩ := find_eq_some hfound
      have hsame : patch existing = existing →
          data.accounts.set accountId (patch existing) = data.accounts :=
        fun heq => heq.symm ▸ Object.set_of_lookup hinfo
      refine ⟨_, (Option.some.inj h).symm, fun id => ?_, ⟨fun hidle => ?_, fun heq => ?_⟩,
        fun hidle => ?_⟩
      · simp [Call.place, Call.Removes, hdata, or_comm]
      · show (⟨_, _⟩ : ProviderData ρ) = _
        rw [hsame (hidle existing hrecord)]
        exact hdata.symm
      · rintro info hinfo'
        obtain rfl := Option.some.inj (hrecord.symm.trans hinfo')
        have hset := congrArg (fun data : ProviderData ρ => data.accounts.lookup accountId) heq
        simpa [Call.place, hdata, hinfo] using hset
      · rw [hsame (hidle existing hrecord)]
        exact hlookup
  | remove logoutCodex provider accountId =>
    dsimp only [Call.saved, Account.remove] at h
    split at h
    next hsome =>
      split at h
      next hnone => simp [hnone] at hsome
      next data info hfound =>
        obtain ⟨hdata, hrecord⟩ := record_eq_of_find hfound
        obtain ⟨_, hinfo⟩ := find_eq_some hfound
        cases hlogout : (revocation provider info).elim (.ok ()) logoutCodex with
        | error e =>
          rw [hlogout] at h
          cases h
        | ok =>
          rw [hlogout] at h
          refine ⟨_, (Option.some.inj h).symm, fun id => ?_, ⟨False.elim, fun heq => ?_⟩, nofun⟩
          · simp only [Call.place, Call.Removes, hdata, Object.mem_delete, Prod.mk.injEq,
              true_and]
            tauto
          · have hmem := congrArg (fun data : ProviderData ρ => accountId ∈ data.accounts) heq
            simp [Call.place, hdata, Object.mem_of_lookup hinfo] at hmem
    · cases h
  | setActive provider accountId =>
    dsimp only [Call.saved, Account.setActive] at h
    split at h
    · cases h
    next data info hfound =>
      obtain ⟨hdata, hrecord⟩ := record_eq_of_find hfound
      obtain ⟨hlookup, hinfo⟩ := find_eq_some hfound
      refine ⟨_, (Option.some.inj h).symm, fun id => ?_, ⟨fun hidle => ?_, fun heq => ?_⟩,
        fun hidle => ?_⟩
      · simp only [Call.place, Call.Removes, hdata, not_false_eq_true, and_true]
        refine ⟨Or.inl, ?_⟩
        rintro (hmem | rfl)
        · exact hmem
        · exact Object.mem_of_lookup hinfo
      · rw [Call.Idle, hdata] at hidle
        dsimp only [Call.place]
        rw [hdata, ← hidle]
      · exact (congrArg ProviderData.activeAccount heq).symm
      · rw [Call.Idle, hdata] at hidle
        dsimp only [Call.place]
        rw [hlookup, ← hidle]

theorem mem_places_saved (h : call.saved storage = some storage') (place : String × String) :
    place ∈ places storage' ↔
      (place ∈ places storage ∨ place = call.place) ∧ ¬call.Removes place := by
  obtain ⟨data, rfl, hmem, _⟩ := saved_eq_setFamily h
  obtain ⟨provider, id⟩ := place
  rw [mem_places, mem_places, dataOf_setFamily]
  split
  next heq =>
    subst heq
    rw [hmem id, Prod.ext_iff]
    exact and_congr_left' (or_congr_right (and_iff_right rfl).symm)
  next hne =>
    have hother : (provider, id) ≠ call.place := fun heq => hne (congrArg Prod.fst heq)
    have hkept : ¬call.Removes (provider, id) := by
      cases call with
      | remove => exact hother
      | add | update | setActive => exact fun hfalse => hfalse
    simp [hother, hkept]

theorem saved_of_idle (h : call.saved storage = some storage') (hidle : call.Idle storage) :
    storage' = storage := by
  obtain ⟨data, rfl, _, _, hlookup⟩ := saved_eq_setFamily h
  unfold Storage.setFamily
  rw [Object.set_of_lookup (hlookup hidle)]

/-! ### When calls are atomic -/

/-- A load has nothing to do with a storage: it is of the second version, without families of
managed apps, and the families are under their own names. -/
def Settled (fromModels managedKeys : List String) (storage : Storage ρ) : Prop :=
  ¬storage.version < 2 ∧ tidy fromModels managedKeys storage = (storage, false)

/-- What is kept has to be what was there when a save rejects. That is so if the call changed
nothing; the file must be read as what is kept, then, if it is read again at all. A file that is
torn is read again as an empty storage, and so it would have to be one. -/
def Write.Spares (fromModels managedKeys : List String) (storage : Storage ρ) (call : Call ρ)
    (diskMtime : Option ℕ) : Write → Prop
  | .written _ => True
  | .refused => call.Idle storage
  | .chmodFailed mtime =>
    call.Idle storage ∧ (diskMtime = some mtime ∨ Settled fromModels managedKeys storage)
  | .torn _ mtime =>
    if diskMtime = some mtime then call.Idle storage
    else ∀ provider, dataOf storage provider = ⟨none, ∅⟩

def Write.Covers (storage : Storage ρ) (call : Call ρ) (onDisk : Set (String × String)) :
    Write → Prop
  | .written _ | .chmodFailed _ =>
    ∀ place ∈ onDisk, place ∈ places storage ∨ place = call.place
  | .torn accounts _ => ∀ place ∈ onDisk, place ∈ accounts ∨ call.Removes place
  | .refused => True

/-- **What it takes for a call to be atomic.** It matters only for a call that comes to its save:
if the save rejects, the storage must have been loaded well and be spared; and after a load that
failed, the call must cover what is on the disk. -/
def Safe (fromModels managedKeys : List String) (s : State ρ) : Event ρ → Prop
  | .call call r w =>
    ∀ storage, call.refused = false → (state fromModels managedKeys r s).1 = some storage →
      (call.saved storage).isSome →
        let between := (state fromModels managedKeys r s).2
        (w.rejects → ¬LoadFails fromModels managedKeys r s ∧
          w.Spares fromModels managedKeys storage call between.getDiskMtime) ∧
        (between.failed → w.Covers storage call between.onDisk)
  | _ => True

theorem getDiskMtime_of_current (h : s.current = some storage) : s.getDiskMtime = s._mtime := by
  unfold State.current at h
  split at h
  next heq => exact heq
  next => cases h

theorem read_of_settled (h : Settled fromModels managedKeys storage) :
    (Content.stored storage).read fromModels managedKeys = storage := by
  dsimp only [Content.read]
  rw [secondVersion, if_neg h.1, h.2]

theorem seen_of_file {file : File ρ} (hfile : s.file = some file)
    (hmtime : s._mtime ≠ some file.mtime) :
    seen fromModels managedKeys s = file.content.read fromModels managedKeys := by
  have hcurrent : s.current = none := by
    refine if_neg fun heq => hmtime ?_
    rw [← heq, State.getDiskMtime, hfile]
    rfl
  unfold seen
  rw [hcurrent, hfile]

theorem seen_of_kept (hcurrent : t.current = some storage) :
    seen fromModels managedKeys { t with _storage := some storage' } = storage' :=
  seen_of_current (if_pos (getDiskMtime_of_current hcurrent))

theorem seen_save_of_spares (hcurrent : t.current = some storage)
    (hsaved : call.saved storage = some storage') (hrejects : w.rejects)
    (hspares : w.Spares fromModels managedKeys storage call t.getDiskMtime) (provider : String) :
    dataOf (seen fromModels managedKeys
      (save storage' w { t with _storage := some storage' })) provider =
        dataOf storage provider := by
  have hmtime : t.getDiskMtime = t._mtime := getDiskMtime_of_current hcurrent
  cases w with
  | written mtime => cases hrejects
  | refused =>
    rw [saved_of_idle hsaved hspares]
    exact congrArg (dataOf · provider) (seen_of_kept hcurrent)
  | chmodFailed mtime =>
    obtain ⟨hidle, hread⟩ := hspares
    rw [saved_of_idle hsaved hidle]
    refine congrArg (dataOf · provider) ?_
    by_cases heq : t.getDiskMtime = some mtime
    · exact seen_of_current (if_pos (heq.symm.trans hmtime))
    · refine (seen_of_file rfl (hmtime ▸ heq)).trans ?_
      exact read_of_settled (hread.resolve_left heq)
  | torn accounts mtime =>
    dsimp only [Write.Spares] at hspares
    split at hspares
    next heq =>
      rw [saved_of_idle hsaved hspares]
      exact congrArg (dataOf · provider) (seen_of_current (if_pos (heq.symm.trans hmtime)))
    next hne =>
      rw [hspares provider, seen_of_file rfl (hmtime ▸ hne)]
      rfl

/-- **A write over the file leaves no account out exactly if the call covers the file.** -/
theorem covers_iff (hsaved : call.saved storage = some storage') :
    w.Covers storage call t.onDisk ↔ ∀ place ∈ t.onDisk,
      place ∈ (save storage' w { t with _storage := some storage' }).onDisk ∨
        call.Removes place := by
  have hwritten : ∀ place, place ∈ places storage' ∨ call.Removes place ↔
      place ∈ places storage ∨ place = call.place := by
    intro place
    rw [mem_places_saved hsaved]
    have hown : call.Removes place → place = call.place := by
      cases call with
      | remove => exact id
      | add | update | setActive => exact False.elim
    tauto
  cases w with
  | written mtime | chmodFailed mtime => exact forall₂_congr fun place _ => (hwritten place).symm
  | torn accounts mtime => exact Iff.rfl
  | refused => exact iff_of_true trivial fun place hplace => Or.inl hplace

theorem attempt_eq (h : (call.attempt fromModels managedKeys r s).1 = some storage') :
    call.refused = false ∧ ∃ storage, (state fromModels managedKeys r s).1 = some storage ∧
      call.saved storage = some storage' ∧
      call.attempt fromModels managedKeys r s =
        (some storage', (state fromModels managedKeys r s).2) := by
  unfold Call.attempt at h ⊢
  split at h
  · cases h
  next hrefused =>
    obtain ⟨storage, hstorage, hsaved⟩ := Option.bind_eq_some_iff.mp h
    refine ⟨by simpa using hrefused, storage, hstorage, hsaved, ?_⟩
    rw [if_neg hrefused]
    exact Prod.ext h rfl

theorem atomic_of_safe {e : Event ρ} (h : Safe fromModels managedKeys s e) :
    Atomic fromModels managedKeys s e := by
  cases e with
  | read | modify | change => trivial
  | call call r w =>
    intro hsome
    obtain ⟨storage', hattempt⟩ := Option.isSome_iff_exists.mp hsome
    obtain ⟨hrefused, storage, hstorage, hsaved, heq⟩ := attempt_eq hattempt
    have hcurrent := current_state hstorage
    obtain ⟨hrejects, hcovers⟩ := h storage hrefused hstorage (hsaved ▸ rfl)
    have hafter : step fromModels managedKeys s (.call call r w) = save storage' w
        { (state fromModels managedKeys r s).2 with _storage := some storage' } :=
      congrArg (saveKept w) heq
    rw [hafter, heq]
    refine ⟨fun hw => ?_, fun hfailed => (covers_iff hsaved).mp (hcovers hfailed)⟩
    obtain ⟨hloads, hspares⟩ := hrejects hw
    refine unnoticed_iff.mpr fun provider => ?_
    rw [← state_eq_seen hstorage hloads]
    exact seen_save_of_spares hcurrent hsaved hw hspares provider

/-- **In a run whose calls are safe, every call is atomic.** -/
theorem atomic_run {file : Option (File ρ)} {older : Option (Storage ρ)} {events : List (Event ρ)}
    (h : Meets (step fromModels managedKeys) (Safe fromModels managedKeys) (start file older)
      events) :
    ∀ before e after, events = before ++ e :: after →
      Atomic fromModels managedKeys
        (OpenCms.run (step fromModels managedKeys) (start file older) before) e :=
  fun before e after hsplit => atomic_of_safe (Meets.iff_split.mp h before e after hsplit)

end Model

/-! ### Calls that are noticed -/

def openaiWork : Storage Unit :=
  (⟨2, ∅⟩ : Storage Unit).setFamily "openai" ⟨some "work", Object.set ∅ "work" (.api ())⟩

def goodReading : Reading := ⟨true, .written 0, .written 0⟩

theorem atomic_run_openai :
    Atomic [] []
      (OpenCms.run (step [] []) (start (some ⟨.stored openaiWork, 1⟩) none)
        [.call (.add "openai" "home" (.api ())) goodReading (.written 2)])
      (.call (.setActive "openai" "work") goodReading .refused) := by
  have hsafe : Meets (step [] []) (Safe [] []) (start (some ⟨.stored openaiWork, 1⟩) none)
      [.call (.add "openai" "home" (.api ())) goodReading (.written 2),
        .call (.setActive "openai" "work") goodReading .refused] := by
    refine ⟨?_, ?_, trivial⟩
    · intro storage _ _ _
      exact ⟨nofun, fun hfailed => absurd hfailed (by decide)⟩
    · intro storage _ hstorage _
      refine ⟨fun _ => ⟨fun hfails => ?_, ?_⟩, fun _ => trivial⟩
      · have hcurrent := congrArg Option.isSome hfails.1
        revert hcurrent
        decide
      · have hactive := congrArg
          (Option.map fun storage => (dataOf storage "openai").activeAccount) hstorage
        exact Option.some.inj (hactive.symm.trans (by decide))
  exact atomic_run hsafe _ _ [] rfl

/-- An account that could not be written is there all the same; and where the file cannot be
parsed, its accounts are gone with the next one that is added. -/
theorem not_atomic :
    ¬Atomic [] [] (start (some ⟨.stored openaiWork, 1⟩) none)
      (.call (.add "openai" "home" (.api ())) goodReading .refused) ∧
    ¬Atomic (ρ := Unit) [] [] (start (some ⟨.broken [("openai", "work")], 1⟩) none)
      (.call (.add "openai" "home" (.api ())) goodReading (.written 2)) := by
  constructor
  · intro h
    have hgood : goodReading.Reliable := ⟨rfl, rfl, rfl⟩
    obtain ⟨hunnoticed, _⟩ := h (by decide)
    obtain ⟨hlist, _⟩ := hunnoticed rfl [] goodReading goodReading (by simpa using hgood)
      "openai" ""
    have hkeys := congrArg (Option.map Object.toKeys) hlist
    revert hkeys
    decide
  · intro h
    obtain ⟨_, hdisk⟩ := h (by decide)
    rcases hdisk rfl ("openai", "work") (List.mem_singleton_self _) with hmem | hfalse
    · have hhome : (record ((⟨2, ∅⟩ : Storage Unit).setFamily "openai"
          ⟨some "home", Object.set ∅ "home" (.api ())⟩) ("openai", "work")).isSome := hmem
      revert hhome
      decide
    · exact hfalse

end OpenCms.Account
