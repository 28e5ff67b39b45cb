import OpenCms.Account.Normalize

/-!
# The account storage over time

Whatever is done with the accounts, in whatever order, every family keeps an active account of its
own (`OpenCms.Account.valid_run`). Together with what is known of merging and normalizing this is
`OpenCms.Account.storage_kept`.

Two things are not so. Merging the same accounts again adds them again, which is what is meant to
happen when an id is taken; and an account whose id is the empty string does not count as the
active one, so that a family that is merged into another may lose its pointer.
-/

namespace OpenCms.Account

variable {ρ : Type}

inductive Op (ρ : Type)
  | add (provider accountId : String) (info : Info ρ)
  | update (provider accountId : String) (patch : Info ρ → Info ρ)
  | remove (logoutCodex : String → Except String Unit) (provider accountId : String)
  | setActive (provider accountId : String)
  | deduplicateByToken (provider : String)
  | normalizeProviderKeys (fromModels : List String)
  | migrateToV2

/-- What there is after an operation, which is what there was if it failed. -/
def orElse (storage : Storage ρ) : Except String (Storage ρ) → Storage ρ
  | .ok storage' => storage'
  | .error _ => storage

def Op.apply (storage : Storage ρ) : Op ρ → Storage ρ
  | .add provider accountId info => orElse storage (Account.add provider accountId info storage)
  | .update provider accountId patch =>
    orElse storage (Account.update provider accountId patch storage)
  | .remove logoutCodex provider accountId =>
    orElse storage (Account.remove logoutCodex provider accountId storage)
  | .setActive provider accountId =>
    orElse storage (Account.setActive provider accountId storage)
  | .deduplicateByToken provider => (Account.deduplicateByToken provider storage).1
  | .normalizeProviderKeys fromModels =>
    (Account.normalizeProviderKeys fromModels storage).storage
  | .migrateToV2 => Account.migrateToV2 storage

def run (storage : Storage ρ) (ops : List (Op ρ)) : Storage ρ := ops.foldl Op.apply storage

def Op.Named : Op ρ → Prop
  | .add _ accountId _ => accountId ≠ ""
  | _ => True

variable {storage : Storage ρ} {ops : List (Op ρ)}

theorem valid_orElse {result : Except String (Storage ρ)} (hvalid : storage.Valid)
    (h : ∀ storage', result = .ok storage' → storage'.Valid) :
    (orElse storage result).Valid := by
  cases result with
  | ok storage' => exact h storage' rfl
  | error _ => exact hvalid

/-- **Every operation keeps the families valid.** -/
theorem valid_apply {op : Op ρ} (hvalid : storage.Valid) (hop : op.Named) :
    (op.apply storage).Valid := by
  cases op with
  | add => exact valid_orElse hvalid fun _ h => valid_add hvalid hop h
  | update => exact valid_orElse hvalid fun _ h => valid_update hvalid h
  | remove => exact valid_orElse hvalid fun _ h => valid_remove hvalid h
  | setActive => exact valid_orElse hvalid fun _ h => valid_setActive hvalid h
  | deduplicateByToken => exact valid_deduplicateByToken hvalid
  | normalizeProviderKeys fromModels => exact valid_normalizeProviderKeys fromModels hvalid
  | migrateToV2 => exact valid_migrateToV2 hvalid

theorem valid_run (hvalid : storage.Valid) (hops : ∀ op ∈ ops, op.Named) :
    (run storage ops).Valid :=
  List.foldlRecOn ops Op.apply hvalid fun _ hvalid op hop => valid_apply hvalid (hops op hop)

/-- **The account storage keeps its accounts and its pointers.** A storage that is valid stays so
whatever is done; normalizing keeps every account there is and, when it is done again, does
nothing; and merging keeps the accounts of both sides. -/
theorem storage_kept (hvalid : storage.Valid) (hops : ∀ op ∈ ops, op.Named) :
    (run storage ops).Valid ∧
    (∀ (fromModels : List String) (before : Storage ρ),
      (∃ move, Kept (listKnownProviders fromModels) before
        (normalizeProviderKeys fromModels before).storage move) ∧
      normalizeProviderKeys fromModels (normalizeProviderKeys fromModels before).storage =
        ⟨(normalizeProviderKeys fromModels before).storage, false, []⟩) ∧
    ∀ target source : ProviderData ρ, ∃ move,
      TakesIn target.accounts source.accounts.toEntries
        (mergeProviderData target source).1.accounts move := by
  -- normalizing and merging keep the accounts of any storage, valid or not
  refine ⟨valid_run hvalid hops, fun fromModels before => ⟨?_, ?_⟩, fun target source => ?_⟩
  · exact exists_kept_normalizeProviderKeys fromModels before
  · exact normalizeProviderKeys_again fromModels before
  · rw [accounts_mergeProviderData]
    exact exists_takesIn _ _ (Object.nodup_toKeys _)

def nvidiaWork (accountId : String) : Storage Unit :=
  (⟨2, ∅⟩ : Storage Unit).setFamily "nvidia-work"
    ⟨some accountId, Object.set ∅ accountId (.api ())⟩

theorem storage_kept_nvidia :
    (run (nvidiaWork "a") [.normalizeProviderKeys ["nvidia"], .add "nvidia" "b" (.api ()),
      .remove (fun _ => .ok ()) "nvidia" "a"]).Valid ∧
    ((run (nvidiaWork "a") [.normalizeProviderKeys ["nvidia"], .add "nvidia" "b" (.api ()),
      .remove (fun _ => .ok ()) "nvidia" "a"]).families.lookup "nvidia").map (·.activeAccount) =
        some (some "b") := by
  have hempty : (⟨2, ∅⟩ : Storage Unit).Valid := by
    intro family data hlookup
    cases hlookup
  have hvalid : (nvidiaWork "a").Valid :=
    hempty.setFamily (valid_of_mem (by decide) (by decide))
  refine ⟨(storage_kept hvalid ?_).1, by decide⟩
  intro op hop
  simp only [List.mem_cons, List.not_mem_nil, or_false] at hop
  rcases hop with rfl | rfl | rfl
  · trivial
  · exact show "b" ≠ "" by decide
  · trivial

/-- The pointer of a family whose account has the empty id is lost when the family is moved; and
merging a family twice makes another account of each that it has. -/
theorem not_kept :
    (¬∀ storage : Storage Unit, storage.Pointed →
      (normalizeProviderKeys ["nvidia"] storage).storage.Pointed) ∧
    ∃ target source : ProviderData Unit, target.Valid ∧ source.Valid ∧
      (mergeProviderData (mergeProviderData target source).1 source).1.accounts.toKeys ≠
        (mergeProviderData target source).1.accounts.toKeys := by
  constructor
  · intro h
    have hpointed : (nvidiaWork "").Pointed := by
      intro family data hlookup
      unfold nvidiaWork Storage.setFamily at hlookup
      rw [Object.lookup_set] at hlookup
      split at hlookup
      · obtain rfl := Option.some.inj hlookup
        exact ⟨fun id hid => Option.some.inj hid ▸ by decide, nofun⟩
      · cases hlookup
    have hmoved : (normalizeProviderKeys ["nvidia"] (nvidiaWork "")).storage.families.lookup
        "nvidia" = some ⟨none, Object.set ∅ "" (.api ())⟩ := by rfl
    exact (h _ hpointed "nvidia" _ hmoved).defined rfl "" (by decide)
  · refine ⟨⟨none, ∅⟩, ⟨some "a", Object.set ∅ "a" (.api ())⟩, valid_empty, ?_, by decide⟩
    exact valid_of_mem (by decide) (by decide)

end OpenCms.Account
