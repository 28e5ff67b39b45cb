import OpenCms.Gateway.OAuth
import OpenCms.Lib.Runs
import Mathlib.Data.Finset.Card
import Mathlib.Data.Fintype.Basic
import Mathlib.Data.List.Count

/-!
# States are redeemed once

The two handlers of a login with Google share a table of states. Whatever requests come, in any
order, at any times and with any answers of Google, no more callbacks get past the table with a state
than redirects were sent with it (`OpenCms.Gateway.redeemed_le_issued`).
-/

namespace OpenCms.Gateway

inductive OAuthEvent
  | redirect (env : Env) (g : Google) (isSecure : Bool) (raw : Bytes)
  | callback (env : Env) (g : Google) (code state : Bytes)

/-- The table, the states that were sent with a redirect, and the states with which a callback got
past the table. -/
structure OAuthRun where
  table : OAuthTable
  issued : List Bytes
  redeemed : List Bytes

def oauthStep (s : OAuthRun) : OAuthEvent → OAuthRun
  | .redirect env g isSecure raw =>
    let (table, outcome) := googleRedirect env g s.table isSecure raw
    { s with
      table := table
      issued := s.issued ++ (outcome.toOption.map fun sent => sent.1.stateToken).toList }
  | .callback env g code state =>
    { s with
      table := (googleCallback env g s.table code state).1
      redeemed := s.redeemed ++
        if (oauthStateFind s.table env.now state).1.isSome then [state] else [] }

def oauthAfter (events : List OAuthEvent) : OAuthRun :=
  run oauthStep ⟨OAuthTable.init, [], []⟩ events

/-! ### What the table still allows -/

def OAuthTable.live (t : OAuthTable) (token : Bytes) : Finset (Fin oauthStateTableSize) :=
  Finset.univ.filter fun i => (t i).inUse = true ∧ (t i).stateToken = token

variable {t : OAuthTable} {token : Bytes} {i : Fin oauthStateTableSize}

theorem mem_live : i ∈ t.live token ↔ (t i).inUse = true ∧ (t i).stateToken = token := by
  simp [OAuthTable.live]

theorem live_free : (oauthStateFree t i).live token = (t.live token).erase i := by
  ext j
  rw [Finset.mem_erase, mem_live, mem_live, oauthStateFree]
  by_cases hj : j = i
  · subst hj
    simp
  · simp [hj]

theorem card_live_free_le : ((oauthStateFree t i).live token).card ≤ (t.live token).card := by
  rw [live_free]
  exact Finset.card_le_card (Finset.erase_subset _ _)

theorem card_live_free_update_le (entry : OAuthState) :
    ((oauthStateFree (Function.update t i entry) i).live token).card ≤ (t.live token).card := by
  refine Finset.card_le_card fun j hj => ?_
  rw [live_free, Finset.mem_erase, mem_live] at hj
  obtain ⟨hne, hj⟩ := hj
  rw [Function.update_of_ne hne] at hj
  exact mem_live.mpr hj

theorem card_live_update_le (entry : OAuthState) :
    (OAuthTable.live (Function.update t i entry) token).card ≤
      (t.live token).card + [entry.stateToken].count token := by
  have hsub : OAuthTable.live (Function.update t i entry) token ⊆
      if entry.stateToken = token then insert i (t.live token) else t.live token := by
    intro j hj
    rw [mem_live] at hj
    by_cases hji : j = i
    · subst hji
      rw [Function.update_self] at hj
      rw [if_pos hj.2]
      exact Finset.mem_insert_self _ _
    · rw [Function.update_of_ne hji] at hj
      split
      · exact Finset.mem_insert_of_mem (mem_live.mpr hj)
      · exact mem_live.mpr hj
  refine (Finset.card_le_card hsub).trans ?_
  split
  · next heq =>
    rw [heq, List.count_singleton_self]
    exact Finset.card_insert_le _ _
  · exact Nat.le_add_right _ _

theorem card_live_redirect_le {env : Env} {g : Google} {isSecure : Bool} {raw : Bytes}
    {t' : OAuthTable} {outcome : Except HttpReply (OAuthState × HttpReply)}
    (h : googleRedirect env g t isSecure raw = (t', outcome)) :
    (t'.live token).card ≤ (t.live token).card +
      (outcome.toOption.map fun sent => sent.1.stateToken).toList.count token := by
  rw [googleRedirect] at h
  split at h
  · obtain ⟨rfl, rfl⟩ := Prod.mk.inj h
    exact Nat.le_add_right _ _
  · obtain ⟨rfl, rfl⟩ := Prod.mk.inj h
    exact Nat.le_add_right _ _
  split at h
  · obtain ⟨rfl, rfl⟩ := Prod.mk.inj h
    exact Nat.le_add_right _ _
  next i t₁ hslot =>
    obtain ⟨j, -, heq⟩ := Option.map_eq_some_iff.mp hslot
    obtain ⟨rfl, rfl⟩ := Prod.mk.inj heq
    simp only [Function.update_self, Function.update_idem] at h
    split at h
    · obtain ⟨rfl, rfl⟩ := Prod.mk.inj h
      exact (card_live_free_update_le _).trans (Nat.le_add_right _ _)
    · obtain ⟨rfl, rfl⟩ := Prod.mk.inj h
      exact card_live_update_le _

/-- A callback that gets past the table takes its state out, and no callback puts any in. -/
theorem card_live_callback_le {env : Env} {g : Google} {code state : Bytes} :
    ((googleCallback env g t code state).1.live token).card +
        (if (oauthStateFind t env.now state).1.isSome then [state] else []).count token ≤
      (t.live token).card := by
  rw [googleCallback]
  split
  next t' heq =>
    rw [heq]
    have hfind : t' = t ∨ ∃ i, t' = oauthStateFree t i := by
      rw [oauthStateFind] at heq
      split at heq
      · exact .inl (Prod.mk.inj heq).2.symm
      next i _ =>
        split at heq
        · exact .inr ⟨i, (Prod.mk.inj heq).2.symm⟩
        · cases (Prod.mk.inj heq).1
    rcases hfind with rfl | ⟨i, rfl⟩
    · simp
    · simpa using card_live_free_le
  next i t' heq =>
    obtain ⟨rfl, huse, htoken, -⟩ := oauthStateFind_eq_some heq
    rw [heq, Option.isSome_some, if_pos rfl]
    by_cases hstate : state = token
    · have hmem : i ∈ t'.live token := mem_live.mpr ⟨huse, htoken.trans hstate⟩
      rw [hstate, List.count_singleton_self, live_free, Finset.card_erase_of_mem hmem]
      have hpos := Finset.card_pos.mpr ⟨i, hmem⟩
      omega
    · rw [List.count_singleton, beq_eq_false_iff_ne.mpr hstate]
      exact card_live_free_le

/-! ### Runs -/

/-- What was redeemed and what can still be redeemed was issued. -/
def OAuthRun.Sound (s : OAuthRun) : Prop :=
  ∀ token, s.redeemed.count token + (s.table.live token).card ≤ s.issued.count token

theorem OAuthRun.Sound.step {s : OAuthRun} (h : s.Sound) (e : OAuthEvent) :
    (oauthStep s e).Sound := by
  intro token
  have hs := h token
  cases e with
  | redirect env g isSecure raw =>
    obtain ⟨table, outcome, heq⟩ : ∃ table outcome,
        googleRedirect env g s.table isSecure raw = (table, outcome) := ⟨_, _, rfl⟩
    have hcard := @card_live_redirect_le s.table token _ _ _ _ _ _ heq
    simp only [oauthStep, heq, List.count_append]
    omega
  | callback env g code state =>
    have hcard := @card_live_callback_le s.table token env g code state
    simp only [oauthStep, List.count_append]
    omega

/-- **No state is redeemed more often than it was issued**, whatever requests come. -/
theorem redeemed_le_issued (events : List OAuthEvent) (token : Bytes) :
    (oauthAfter events).redeemed.count token ≤ (oauthAfter events).issued.count token := by
  have hsound : (oauthAfter events).Sound := by
    refine run_invariant OAuthRun.Sound (fun token => ?_) (fun s e h => h.step e) events
    simp [OAuthTable.live, OAuthTable.init]
  have h := hsound token
  omega

end OpenCms.Gateway
