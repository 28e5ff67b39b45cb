import OpenCms.Gateway.Extract
import OpenCms.Lib.OpenAddressing
import OpenCms.Lib.Runs
import Mathlib.Data.List.Count

/-!
# Throttling password guesses

Two tables of 256 entries count the failed logins of an address, in the slot of the
address modulo 256. The first counts within a window of a minute, and the form endpoint
asks it before it hands a password to PAM; the second counts failures in a row, and an
address that reaches five is banned for good, in memory and in a file.

An entry belongs to one address at a time: a failure of another address of the same slot
takes it over. What a table knows of an address is therefore described by a machine of
one address that forgets when that happens, `OpenCms.Gateway.windowStep` and
`OpenCms.Gateway.streakStep`; the tables refine it
(`OpenCms.Gateway.window_run`, `OpenCms.Gateway.streak_run`).

The result is `OpenCms.Gateway.guessing_is_throttled`. The JSON endpoint does not ask the
first table.
-/

namespace OpenCms.Gateway

/-! ### Rate limiting -/

def rateLimitMax : ℕ := 5

def rateLimitWindow : ℤ := 60

def counterSlot (ip : UInt32) : Fin 256 := ⟨ip.toNat % 256, Nat.mod_lt _ (by decide)⟩

structure RateLimitEntry where
  ip : UInt32
  failures : ℕ
  windowStart : ℤ

abbrev RateLimitTable := Fin 256 → RateLimitEntry

/-- `rate_limit_check`: whether the address may try, and the table afterwards. -/
def rateLimitCheck (t : RateLimitTable) (ip : UInt32) (now : ℤ) : Bool × RateLimitTable :=
  let entry := t (counterSlot ip)
  if entry.ip = ip then
    if rateLimitWindow < now - entry.windowStart then
      (true, Function.update t (counterSlot ip)
        { entry with failures := 0, windowStart := now })
    else (decide (entry.failures < rateLimitMax), t)
  else (true, t)

def rateLimitRecordFailure (t : RateLimitTable) (ip : UInt32) (now : ℤ) : RateLimitTable :=
  let entry := t (counterSlot ip)
  let entry :=
    if entry.ip ≠ ip ∨ rateLimitWindow < now - entry.windowStart then ⟨ip, 0, now⟩ else entry
  Function.update t (counterSlot ip) { entry with failures := entry.failures + 1 }

def rateLimitClear (t : RateLimitTable) (ip : UInt32) : RateLimitTable :=
  let entry := t (counterSlot ip)
  if entry.ip = ip then Function.update t (counterSlot ip) { entry with failures := 0 } else t

/-! ### Bans -/

/-- `is_whitelisted`: loopback and the private network. -/
def isWhitelisted (ip : UInt32) : Bool := ip >>> 24 == 127 || ip >>> 16 == 0xC0A8

def banTableSize : ℕ := 4096

instance : NeZero banTableSize := ⟨by decide⟩

def banSlot (ip : UInt32) : Fin banTableSize := ⟨ip.toNat % banTableSize, Nat.mod_lt _ (by decide)⟩

abbrev BanTable := ProbeSet UInt32 banTableSize

def banCheck (t : BanTable) (ip : UInt32) : Bool :=
  if isWhitelisted ip then false else t.contains banSlot ip

def banInsertMemory (t : BanTable) (ip : UInt32) : BanTable := t.insert banSlot ip

def addressText (ip : UInt32) : Bytes :=
  let octet (shift : UInt32) : Bytes := decimalNat (ip >>> shift &&& 0xff).toNat
  octet 24 ++ lit "." ++ octet 16 ++ lit "." ++ octet 8 ++ lit "." ++ octet 0

def banAdd (t : BanTable) (file : Bytes) (ip : UInt32) (writable : Bool) : BanTable × Bytes :=
  if isWhitelisted ip then (t, file)
  else if banCheck t ip then (t, file)
  else (banInsertMemory t ip, if writable then file ++ addressText ip ++ [10] else file)

/-- `sscanf(line, "%u.%u.%u.%u", …)`, where all four are read. -/
def scanAddress (line : Bytes) : Option UInt32 := do
  let (a, s) ← scanUnsigned line
  let s ← expect 46 s
  let (b, s) ← scanUnsigned s
  let s ← expect 46 s
  let (c, s) ← scanUnsigned s
  let s ← expect 46 s
  let (d, _) ← scanUnsigned s
  return a <<< 24 ||| b <<< 16 ||| c <<< 8 ||| d

def loadBan (t : BanTable) (line : Bytes) : BanTable :=
  let line := (cstr line).takeWhile (· != 10)
  if line = [] ∨ line.head? = some 35 then t
  else
    match scanAddress line with
    | some ip => if isWhitelisted ip then t else banInsertMemory t ip
    | none => t

def banlistLoad (file : Bytes) : BanTable :=
  (fgetsLines 64 file).foldl loadBan ProbeSet.empty

/-! ### Failures in a row -/

def banConsecMax : ℕ := 5

structure ConsecFailEntry where
  ip : UInt32
  failures : ℕ

abbrev ConsecFailTable := Fin 256 → ConsecFailEntry

/-- The counters, the bans and the ban file. -/
structure Throttle where
  rateLimit : RateLimitTable
  consecFail : ConsecFailTable
  banTable : BanTable
  banFile : Bytes

def consecFailRecord (s : Throttle) (ip : UInt32) (writable : Bool) : Throttle :=
  if isWhitelisted ip then s
  else
    let entry := s.consecFail (counterSlot ip)
    let entry := if entry.ip ≠ ip then ⟨ip, 0⟩ else entry
    let failures := entry.failures + 1
    if banConsecMax ≤ failures then
      let (banTable, banFile) := banAdd s.banTable s.banFile ip writable
      { s with
        consecFail := Function.update s.consecFail (counterSlot ip) ⟨entry.ip, 0⟩
        banTable := banTable
        banFile := banFile }
    else { s with consecFail := Function.update s.consecFail (counterSlot ip) ⟨entry.ip, failures⟩ }

def consecFailClear (t : ConsecFailTable) (ip : UInt32) : ConsecFailTable :=
  if (t (counterSlot ip)).ip = ip then Function.update t (counterSlot ip) ⟨ip, 0⟩ else t

/-! ### The machine -/

inductive LoginEvent
  /-- A login through the form endpoint. -/
  | formLogin (ip : UInt32) (now : ℤ)
  /-- A login through the JSON endpoint. -/
  | jsonLogin (ip : UInt32)
  /-- A job of the address is drained, and PAM had accepted. -/
  | success (ip : UInt32)
  /-- A job of the address is drained, and PAM had refused; the ban file may not open. -/
  | failure (ip : UInt32) (now : ℤ) (writable : Bool)

/-- The address an event is about. -/
def LoginEvent.ip : LoginEvent → UInt32
  | .formLogin ip _ => ip
  | .jsonLogin ip => ip
  | .success ip => ip
  | .failure ip _ _ => ip

def LoginEvent.isFailureOf (ip : UInt32) : LoginEvent → Bool
  | .failure b _ _ => b == ip
  | _ => false

def LoginEvent.isSuccessOf (ip : UInt32) : LoginEvent → Bool
  | .success b => b == ip
  | _ => false

def LoginEvent.disturbs (ip : UInt32) : LoginEvent → Bool
  | .failure b _ _ => b != ip && counterSlot b == counterSlot ip
  | _ => false

def LoginEvent.By (limit : ℤ) : LoginEvent → Prop
  | .formLogin _ now => now ≤ limit
  | .failure _ now _ => now ≤ limit
  | _ => True

def handsOver (s : Throttle) : LoginEvent → Bool
  | .formLogin ip now => (rateLimitCheck s.rateLimit ip now).1
  | .jsonLogin _ => true
  | _ => false

def throttleStep (s : Throttle) : LoginEvent → Throttle
  | .formLogin ip now => { s with rateLimit := (rateLimitCheck s.rateLimit ip now).2 }
  | .jsonLogin _ => s
  | .success ip =>
    { s with
      rateLimit := rateLimitClear s.rateLimit ip
      consecFail := consecFailClear s.consecFail ip }
  | .failure ip now writable =>
    consecFailRecord { s with rateLimit := rateLimitRecordFailure s.rateLimit ip now } ip writable

/-- The gateway starts with the bans of its file and with cleared counters. -/
def Throttle.boot (banFile : Bytes) : Throttle where
  rateLimit := fun _ => ⟨0, 0, 0⟩
  consecFail := fun _ => ⟨0, 0⟩
  banTable := banlistLoad banFile
  banFile := banFile

def throttleAfter (banFile : Bytes) (events : List LoginEvent) : Throttle :=
  run throttleStep (.boot banFile) events

/-! ### One address -/

/-- **The window of an address**: when it began and how many failures it holds. None where
the slot belongs to another address. -/
def Throttle.window (s : Throttle) (ip : UInt32) : Option (ℤ × ℕ) :=
  let entry := s.rateLimit (counterSlot ip)
  if entry.ip = ip then some (entry.windowStart, entry.failures) else none

/-- **The failures in a row of an address**, as far as the table knows of them. -/
def Throttle.streak (s : Throttle) (ip : UInt32) : ℕ :=
  let entry := s.consecFail (counterSlot ip)
  if entry.ip = ip then entry.failures else 0

/-- What an event does to the window of an address: a login or a failure after its end
begins a new one, a success empties it, and a failure of another address in the slot
makes it forgotten. -/
def windowStep (ip : UInt32) (window : Option (ℤ × ℕ)) (e : LoginEvent) : Option (ℤ × ℕ) :=
  if e.disturbs ip then none
  else if e.ip ≠ ip then window
  else
    match e, window with
    | .formLogin _ now, some (start, failures) =>
      if rateLimitWindow < now - start then some (now, 0) else some (start, failures)
    | .success _, some (start, _) => some (start, 0)
    | .failure _ now _, some (start, failures) =>
      if rateLimitWindow < now - start then some (now, 1) else some (start, failures + 1)
    | .failure _ now _, none => some (now, 1)
    | _, window => window

def streakStep (ip : UInt32) (streak : ℕ) (e : LoginEvent) : ℕ :=
  if e.disturbs ip && !isWhitelisted e.ip then 0
  else if e.ip ≠ ip then streak
  else
    match e with
    | .success _ => 0
    | .failure _ _ _ =>
      if isWhitelisted ip then streak
      else if banConsecMax ≤ streak + 1 then 0
      else streak + 1
    | _ => streak

theorem handsOver_formLogin (s : Throttle) (ip : UInt32) (now : ℤ) :
    handsOver s (.formLogin ip now) = match s.window ip with
      | some (start, failures) =>
        decide (rateLimitWindow < now - start ∨ failures < rateLimitMax)
      | none => true := by
  simp only [handsOver, rateLimitCheck, Throttle.window]
  split_ifs with hip hnow
  · simp [hnow]
  · simp [hnow]
  · rfl

/-! ### The tables refine the machine of one address -/

section Refine

variable {s : Throttle} {ip : UInt32}

theorem rateLimit_consecFailRecord (s : Throttle) (b : UInt32) (writable : Bool) :
    (consecFailRecord s b writable).rateLimit = s.rateLimit := by
  unfold consecFailRecord
  simp only
  split_ifs <;> rfl

theorem window_of_slot_ne {t : RateLimitTable} {b : UInt32} {entry : RateLimitEntry}
    (h : counterSlot b ≠ counterSlot ip) :
    Function.update t (counterSlot b) entry (counterSlot ip) = t (counterSlot ip) :=
  Function.update_of_ne (Ne.symm h) _ _

/-- **One event, one address**: the window in the table moves as the window of one
address does. -/
theorem window_step (e : LoginEvent) :
    (throttleStep s e).window ip = windowStep ip (s.window ip) e := by
  cases e with
  | formLogin b now | failure b now =>
    simp only [throttleStep, rateLimitCheck, Throttle.window, rateLimit_consecFailRecord,
      rateLimitRecordFailure, windowStep, LoginEvent.disturbs, LoginEvent.ip]
    by_cases hb : b = ip
    · subst hb
      by_cases hip : (s.rateLimit (counterSlot b)).ip = b
      · by_cases hnow : rateLimitWindow < now - (s.rateLimit (counterSlot b)).windowStart
        · simp [hip, hnow]
        · simp [hip, hnow]
      · simp [hip]
    · by_cases hslot : counterSlot b = counterSlot ip
      · -- a check changes the entry of its own address only, a failure takes the entry
        by_cases hown : (s.rateLimit (counterSlot ip)).ip = b
        · by_cases hnow : rateLimitWindow < now - (s.rateLimit (counterSlot ip)).windowStart
          · simp [hb, hslot, hown, hnow]
          · simp [hb, hslot, hown, hnow]
        · simp [hb, hslot, hown]
      · split_ifs <;> simp_all [window_of_slot_ne]
  | jsonLogin b =>
    simp only [throttleStep, windowStep, LoginEvent.disturbs, LoginEvent.ip]
    by_cases hb : b = ip <;> simp [hb]
  | success b =>
    simp only [throttleStep, rateLimitClear, Throttle.window, windowStep, LoginEvent.disturbs,
      LoginEvent.ip]
    by_cases hb : b = ip
    · subst hb
      by_cases hip : (s.rateLimit (counterSlot b)).ip = b <;> simp [hip]
    · by_cases hslot : counterSlot b = counterSlot ip
      · by_cases hown : (s.rateLimit (counterSlot ip)).ip = b <;> simp [hb, hslot, hown]
      · split_ifs <;> simp_all [window_of_slot_ne]

/-- **One event, one address**: the same for the failures in a row. -/
theorem streak_step (e : LoginEvent) :
    (throttleStep s e).streak ip = streakStep ip (s.streak ip) e := by
  cases e with
  | formLogin b now =>
    have hsame : (throttleStep s (.formLogin b now)).streak ip = s.streak ip := rfl
    rw [hsame]
    by_cases hb : b = ip <;> simp [streakStep, LoginEvent.disturbs, LoginEvent.ip, hb]
  | jsonLogin b =>
    simp only [throttleStep, streakStep, LoginEvent.disturbs, LoginEvent.ip]
    by_cases hb : b = ip <;> simp [hb]
  | success b =>
    simp only [throttleStep, consecFailClear, Throttle.streak, streakStep, LoginEvent.disturbs,
      LoginEvent.ip]
    by_cases hb : b = ip
    · subst hb
      by_cases hip : (s.consecFail (counterSlot b)).ip = b <;> simp [hip]
    · by_cases hslot : counterSlot b = counterSlot ip
      · by_cases hown : (s.consecFail (counterSlot ip)).ip = b <;> simp [hb, hslot, hown]
      · by_cases hown : (s.consecFail (counterSlot b)).ip = b
        · simp [hb, hown, Function.update_of_ne (Ne.symm hslot)]
        · simp [hb, hown]
  | failure b now writable =>
    simp only [throttleStep, Throttle.streak, consecFailRecord, streakStep, LoginEvent.disturbs,
      LoginEvent.ip]
    by_cases hb : b = ip
    · subst hb
      by_cases hw : isWhitelisted b = true
      · simp [hw]
      · by_cases hip : (s.consecFail (counterSlot b)).ip = b
        · by_cases hmax : banConsecMax ≤ (s.consecFail (counterSlot b)).failures + 1
          · simp [hw, hip, hmax]
          · simp [hw, hip, hmax]
        · by_cases hmax : banConsecMax ≤ 0 + 1
          · exact absurd hmax (by decide)
          · simp [hw, hip, hmax]
    · by_cases hw : isWhitelisted b = true
      · simp [hb, hw]
      · by_cases hslot : counterSlot b = counterSlot ip
        · -- the entry becomes the other address's
          have hentry : (if (s.consecFail (counterSlot ip)).ip ≠ b then
              (⟨b, 0⟩ : ConsecFailEntry) else s.consecFail (counterSlot ip)).ip = b := by
            split_ifs with h
            · rfl
            · exact not_not.mp h
          by_cases hmax : banConsecMax ≤ (if (s.consecFail (counterSlot ip)).ip ≠ b then
              (⟨b, 0⟩ : ConsecFailEntry) else s.consecFail (counterSlot ip)).failures + 1
          · simp only [hw, hslot, hmax, hentry, if_true, if_false, Function.update_self, hb,
              Bool.false_eq_true]
            simp [hb]
          · simp only [hw, hslot, hmax, hentry, if_false, Function.update_self, hb,
              Bool.false_eq_true]
            simp [hb]
        · split_ifs <;> simp_all [Function.update_of_ne (Ne.symm hslot)]

/-- **The table refines the window of one address**, over any run. -/
theorem window_run (es : List LoginEvent) :
    (run throttleStep s es).window ip = es.foldl (windowStep ip) (s.window ip) :=
  (List.foldl_hom (Throttle.window · ip) fun _ _ => (window_step ..).symm).symm

/-- **The table refines the failures in a row of one address**, over any run. -/
theorem streak_run (es : List LoginEvent) :
    (run throttleStep s es).streak ip = es.foldl (streakStep ip) (s.streak ip) :=
  (List.foldl_hom (Throttle.streak · ip) fun _ _ => (streak_step ..).symm).symm

end Refine

/-! ### A window fills up -/

variable {e : LoginEvent} {es : List LoginEvent}

section Window

variable {ip : UInt32} {start : ℤ} {failures : ℕ}

theorem windowStep_within (hdist : e.disturbs ip = false) (hsucc : e.isSuccessOf ip = false)
    (hby : e.ip = ip → e.By (start + rateLimitWindow)) :
    windowStep ip (some (start, failures)) e
      = some (start, failures + if e.isFailureOf ip then 1 else 0) := by
  by_cases hip : e.ip = ip
  · have hb := hby hip
    cases e with
    | formLogin b now =>
      simp only [LoginEvent.By, LoginEvent.ip] at hb hip
      have hnow : ¬rateLimitWindow < now - start := by omega
      simp [windowStep, LoginEvent.disturbs, LoginEvent.ip, hip, hnow, LoginEvent.isFailureOf]
    | jsonLogin b =>
      simp only [LoginEvent.ip] at hip
      simp [windowStep, LoginEvent.disturbs, LoginEvent.ip, hip, LoginEvent.isFailureOf]
    | success b =>
      simp only [LoginEvent.ip] at hip
      simp [LoginEvent.isSuccessOf, hip] at hsucc
    | failure b now writable =>
      simp only [LoginEvent.By, LoginEvent.ip] at hb hip
      have hnow : ¬rateLimitWindow < now - start := by omega
      simp [windowStep, LoginEvent.disturbs, LoginEvent.ip, hip, hnow, LoginEvent.isFailureOf]
  · have hfail : e.isFailureOf ip = false := by
      cases e <;> simp_all [LoginEvent.isFailureOf, LoginEvent.ip]
    unfold windowStep
    simp [hdist, hip, hfail]

theorem foldl_windowStep_within (hdist : ∀ e ∈ es, e.disturbs ip = false)
    (hsucc : ∀ e ∈ es, e.isSuccessOf ip = false)
    (hby : ∀ e ∈ es, e.ip = ip → e.By (start + rateLimitWindow)) :
    es.foldl (windowStep ip) (some (start, failures))
      = some (start, failures + es.countP (LoginEvent.isFailureOf ip)) := by
  induction es generalizing failures with
  | nil => simp
  | cons e es ih =>
    rw [List.foldl_cons, windowStep_within (hdist e List.mem_cons_self)
      (hsucc e List.mem_cons_self) (hby e List.mem_cons_self),
      ih (fun e he => hdist e (List.mem_cons_of_mem _ he))
        (fun e he => hsucc e (List.mem_cons_of_mem _ he))
        fun e he => hby e (List.mem_cons_of_mem _ he), List.countP_cons]
    simp only [Option.some.injEq, Prod.mk.injEq, true_and]
    omega

/-- **A full window hands nothing over** until it has passed. -/
theorem handsOver_of_window {s : Throttle} {now : ℤ}
    (hwindow : s.window ip = some (start, failures)) (hdist : ∀ e ∈ es, e.disturbs ip = false)
    (hsucc : ∀ e ∈ es, e.isSuccessOf ip = false)
    (hby : ∀ e ∈ es, e.ip = ip → e.By (start + rateLimitWindow))
    (hmax : rateLimitMax ≤ failures + es.countP (LoginEvent.isFailureOf ip))
    (hnow : now ≤ start + rateLimitWindow) :
    handsOver (run throttleStep s es) (.formLogin ip now) = false := by
  rw [handsOver_formLogin, window_run, hwindow, foldl_windowStep_within hdist hsucc hby]
  simp only [decide_eq_false_iff_not]
  omega

end Window

/-! ### Five failures in a row -/

theorem banlistLoad_reachable (file : Bytes) : ProbeSet.Reachable banSlot (banlistLoad file) := by
  refine List.foldlRecOn _ loadBan ProbeSet.reachable_empty fun t ht line _ => ?_
  unfold loadBan
  simp only
  split_ifs
  · exact ht
  · split
    · split_ifs
      · exact ht
      · exact ht.insert _
    · exact ht

section Ban

variable {s : Throttle} {ip : UInt32}

theorem banTable_consecFailRecord (s : Throttle) (b : UInt32) (writable : Bool) :
    (consecFailRecord s b writable).banTable =
      if isWhitelisted b then s.banTable
      else if banConsecMax ≤ s.streak b + 1 then (banAdd s.banTable s.banFile b writable).1
      else s.banTable := by
  have hstreak : (if (s.consecFail (counterSlot b)).ip ≠ b then (⟨b, 0⟩ : ConsecFailEntry)
      else s.consecFail (counterSlot b)).failures = s.streak b := by
    unfold Throttle.streak
    split_ifs <;> simp_all
  unfold consecFailRecord
  by_cases hw : isWhitelisted b = true
  · rw [if_pos hw, if_pos hw]
  · rw [if_neg hw, if_neg hw]
    simp only [hstreak]
    by_cases hmax : banConsecMax ≤ s.streak b + 1
    · rw [if_pos hmax, if_pos hmax]
    · rw [if_neg hmax, if_neg hmax]

/-- **What an event does to the bans**: nothing, or an address whose failures in a row are
complete is inserted. -/
theorem banTable_step (s : Throttle) (e : LoginEvent) :
    (throttleStep s e).banTable = s.banTable ∧
        (∀ now writable, e = .failure e.ip now writable → isWhitelisted e.ip = false →
          banConsecMax ≤ s.streak e.ip + 1 → banCheck s.banTable e.ip = true) ∨
      (isWhitelisted e.ip = false ∧
        (throttleStep s e).banTable = banInsertMemory s.banTable e.ip) := by
  cases e with
  | formLogin b now | jsonLogin b | success b => exact Or.inl ⟨rfl, fun _ _ h => by simp at h⟩
  | failure b now writable =>
    simp only [LoginEvent.ip, throttleStep, banTable_consecFailRecord]
    by_cases hw : isWhitelisted b = true
    · exact Or.inl ⟨if_pos hw, fun _ _ _ h => absurd (hw.symm.trans h) (by simp)⟩
    rw [if_neg hw]
    rw [Bool.not_eq_true] at hw
    by_cases hmax : banConsecMax ≤ s.streak b + 1
    · have hrate :
          Throttle.streak { s with rateLimit := rateLimitRecordFailure s.rateLimit b now } b
            = s.streak b := rfl
      rw [hrate, if_pos hmax]
      cases hban : banCheck s.banTable b with
      | true => exact Or.inl ⟨by simp [banAdd, hw, hban], fun _ _ _ _ _ => rfl⟩
      | false => exact Or.inr ⟨hw, by simp [banAdd, hw, hban]⟩
    · exact Or.inl ⟨if_neg hmax, fun _ _ _ _ h => absurd h hmax⟩

theorem reachable_step (h : ProbeSet.Reachable banSlot s.banTable) (e : LoginEvent) :
    ProbeSet.Reachable banSlot (throttleStep s e).banTable := by
  rcases banTable_step s e with ⟨heq, -⟩ | ⟨-, heq⟩
  · rwa [heq]
  · rw [heq]
    exact h.insert _

theorem banCheck_step (h : ProbeSet.Reachable banSlot s.banTable) (e : LoginEvent)
    (hban : banCheck s.banTable ip = true) : banCheck (throttleStep s e).banTable ip = true := by
  rcases banTable_step s e with ⟨heq, -⟩ | ⟨-, heq⟩
  · rwa [heq]
  · unfold banCheck at *
    split_ifs at hban with hw
    rw [if_neg hw, heq]
    exact ProbeSet.contains_insert_of_contains h _ hban

theorem banCheck_step_of_ne (h : ProbeSet.Reachable banSlot s.banTable) (hne : e.ip ≠ ip) :
    banCheck (throttleStep s e).banTable ip = banCheck s.banTable ip := by
  rcases banTable_step s e with ⟨heq, -⟩ | ⟨-, heq⟩
  · rw [heq]
  · unfold banCheck
    rw [heq]
    split_ifs
    · rfl
    · exact ProbeSet.contains_insert_of_ne h (Ne.symm hne)

theorem free_of_step (h : ∃ j, (throttleStep s e).banTable j = none) :
    ∃ j, s.banTable j = none := by
  obtain ⟨j, hj⟩ := h
  refine ⟨j, ?_⟩
  rcases banTable_step s e with ⟨heq, -⟩ | ⟨-, heq⟩
  · rwa [heq] at hj
  · cases hold : s.banTable j with
    | none => rfl
    | some b =>
      rw [heq, banInsertMemory, ProbeSet.insert_of_some hold] at hj
      exact absurd hj (by simp)

theorem free_of_run (h : ∃ j, (run throttleStep s es).banTable j = none) :
    ∃ j, s.banTable j = none := by
  induction es generalizing s with
  | nil => exact h
  | cons e es ih => exact free_of_step (ih h)

theorem banCheck_of_streak (h : ProbeSet.Reachable banSlot s.banTable)
    (hw : isWhitelisted ip = false) (hfree : ∃ j, s.banTable j = none) (now : ℤ) (writable : Bool)
    (hstreak : banConsecMax ≤ s.streak ip + 1) :
    banCheck (throttleStep s (.failure ip now writable)).banTable ip = true := by
  rcases banTable_step s (.failure ip now writable) with ⟨heq, hban⟩ | ⟨-, heq⟩
  · rw [heq]
    exact hban now writable rfl hw hstreak
  · rw [heq, banCheck, hw, if_neg (by simp)]
    exact ProbeSet.contains_insert h hfree

theorem streakStep_of_other {streak : ℕ} (hdist : e.disturbs ip = false)
    (hsucc : e.isSuccessOf ip = false) (hfail : e.isFailureOf ip = false) :
    streakStep ip streak e = streak := by
  unfold streakStep
  rw [hdist, Bool.false_and, if_neg (by simp)]
  by_cases hip : e.ip = ip
  · cases e with
    | formLogin b now => simp
    | jsonLogin b => simp
    | success b => simp_all [LoginEvent.isSuccessOf, LoginEvent.ip]
    | failure b now writable => simp_all [LoginEvent.isFailureOf, LoginEvent.ip]
  · rw [if_pos hip]

/-- **Failures in a row ban**: as many as are missing, with no success and no other
address in the slot between them. -/
theorem banCheck_of_failures (h : ProbeSet.Reachable banSlot s.banTable)
    (hw : isWhitelisted ip = false) (hdist : ∀ e ∈ es, e.disturbs ip = false)
    (hsucc : ∀ e ∈ es, e.isSuccessOf ip = false)
    (hmax : banConsecMax ≤ s.streak ip + es.countP (LoginEvent.isFailureOf ip))
    (hlt : s.streak ip < banConsecMax) (hfree : ∃ j, (run throttleStep s es).banTable j = none) :
    banCheck (run throttleStep s es).banTable ip = true := by
  induction es generalizing s with
  | nil =>
    rw [List.countP_nil] at hmax
    omega
  | cons e es ih =>
    have hrest : ∀ f ∈ es, f.disturbs ip = false := fun f hf => hdist f (List.mem_cons_of_mem _ hf)
    have hrest' : ∀ f ∈ es, f.isSuccessOf ip = false := fun f hf =>
      hsucc f (List.mem_cons_of_mem _ hf)
    have hstep := reachable_step h e
    rw [run_cons] at hfree ⊢
    rw [List.countP_cons] at hmax
    have hd := hdist e List.mem_cons_self
    have hs := hsucc e List.mem_cons_self
    by_cases hfail : e.isFailureOf ip = true
    · obtain ⟨now, writable, rfl⟩ : ∃ now writable, e = .failure ip now writable := by
        cases e <;> simp_all [LoginEvent.isFailureOf]
      by_cases hfive : banConsecMax ≤ s.streak ip + 1
      · -- this failure completes them, and the ban stays
        have hban := banCheck_of_streak h hw (free_of_step (free_of_run hfree)) now writable hfive
        revert hstep hban
        intro hu hban
        exact (run_invariant (fun u : Throttle => ProbeSet.Reachable banSlot u.banTable ∧
          banCheck u.banTable ip = true) ⟨hu, hban⟩
          (fun u e hu => ⟨reachable_step hu.1 e, banCheck_step hu.1 e hu.2⟩) es).2
      · have hstreak : (throttleStep s (.failure ip now writable)).streak ip = s.streak ip + 1 := by
          rw [streak_step, streakStep]
          simp [LoginEvent.disturbs, LoginEvent.ip, hw, hfive]
        rw [if_pos hfail] at hmax
        exact ih hstep hrest hrest' (by omega) (by omega) hfree
    · have hstreak : (throttleStep s e).streak ip = s.streak ip := by
        rw [streak_step, streakStep_of_other hd hs (by simpa using hfail)]
      rw [if_neg hfail] at hmax
      exact ih hstep hrest hrest' (by omega) (by omega) hfree

end Ban

/-! ### Other addresses -/

section Others

variable {ip : UInt32}

/-- The events that an address's answers depend on: its own, and the failures of others
in its slot. -/
def LoginEvent.concerns (ip : UInt32) (e : LoginEvent) : Bool := e.ip == ip || e.disturbs ip

theorem windowStep_of_not_concerns (h : e.concerns ip = false) (window : Option (ℤ × ℕ)) :
    windowStep ip window e = window := by
  obtain ⟨hip, hdist⟩ : e.ip ≠ ip ∧ e.disturbs ip = false := by
    simpa [LoginEvent.concerns] using h
  unfold windowStep
  rw [hdist, if_neg (by simp), if_pos hip]

theorem streakStep_of_not_concerns (h : e.concerns ip = false) (streak : ℕ) :
    streakStep ip streak e = streak := by
  obtain ⟨hip, hdist⟩ : e.ip ≠ ip ∧ e.disturbs ip = false := by
    simpa [LoginEvent.concerns] using h
  unfold streakStep
  rw [hdist, Bool.false_and, if_neg (by simp), if_pos hip]

theorem banCheck_step_own {s : Throttle} (h : ProbeSet.Reachable banSlot s.banTable)
    (hfree : ∃ j, s.banTable j = none) (hip : e.ip = ip) :
    banCheck (throttleStep s e).banTable ip = (banCheck s.banTable ip ||
      (e.isFailureOf ip && !isWhitelisted ip && decide (banConsecMax ≤ s.streak ip + 1))) := by
  cases e with
  | formLogin b now | jsonLogin b | success b => simp [throttleStep, LoginEvent.isFailureOf]
  | failure b now writable =>
    obtain rfl : b = ip := hip
    have hrate : Throttle.streak { s with rateLimit := rateLimitRecordFailure s.rateLimit b now } b
        = s.streak b := rfl
    cases hw : isWhitelisted b with
    | true => simp [banCheck, hw]
    | false =>
      by_cases hmax : banConsecMax ≤ s.streak b + 1
      · rw [banCheck_of_streak h hw hfree now writable hmax]
        simp [LoginEvent.isFailureOf, hmax]
      · simp [throttleStep, banTable_consecFailRecord, hw, hrate, hmax]

/-- **The answers of an address depend on what concerns it**, and on nothing else. -/
theorem banCheck_filter {s : Throttle} (h : ProbeSet.Reachable banSlot s.banTable)
    (es : List LoginEvent) (hfree : ∃ j, (run throttleStep s es).banTable j = none)
    (hfree' : ∃ j, (run throttleStep s (es.filter (LoginEvent.concerns ip))).banTable j = none) :
    banCheck (run throttleStep s es).banTable ip
      = banCheck (run throttleStep s (es.filter (LoginEvent.concerns ip))).banTable ip := by
  have hreach : ∀ fs, ProbeSet.Reachable banSlot (run throttleStep s fs).banTable := fun fs =>
    run_invariant (fun u : Throttle => ProbeSet.Reachable banSlot u.banTable) h
      (fun u e hu => reachable_step hu e) fs
  induction es using List.reverseRecOn with
  | nil => rfl
  | append_singleton es e ih =>
    rw [run_concat] at hfree
    have hbefore := free_of_step hfree
    cases hc : e.concerns ip with
    | false =>
      have hip : e.ip ≠ ip := by
        intro heq
        simp [LoginEvent.concerns, heq] at hc
      have hf : (es ++ [e]).filter (LoginEvent.concerns ip)
          = es.filter (LoginEvent.concerns ip) := by
        simp [hc]
      rw [hf] at hfree' ⊢
      rw [run_concat, banCheck_step_of_ne (hreach es) hip, ih hbefore hfree']
    | true =>
      have hf : (es ++ [e]).filter (LoginEvent.concerns ip)
          = es.filter (LoginEvent.concerns ip) ++ [e] := by simp [hc]
      rw [hf, run_concat] at hfree'
      have hbefore' := free_of_step hfree'
      have heq := ih hbefore hbefore'
      rw [hf, run_concat, run_concat]
      by_cases hip : e.ip = ip
      · have hstreak : (run throttleStep s es).streak ip
            = (run throttleStep s (es.filter (LoginEvent.concerns ip))).streak ip := by
          rw [streak_run, streak_run, foldl_filter_of_fixed fun e he x =>
            streakStep_of_not_concerns he x]
        rw [banCheck_step_own (hreach _) hbefore hip, banCheck_step_own (hreach _) hbefore' hip,
          heq, hstreak]
      · rw [banCheck_step_of_ne (hreach _) hip, banCheck_step_of_ne (hreach _) hip, heq]

end Others

/-! ### Guessing is throttled -/

/-- No success of an address, and no failure of another one in its slot. -/
def Unbroken (ip : UInt32) (es : List LoginEvent) : Prop :=
  ∀ e ∈ es, e.disturbs ip = false ∧ e.isSuccessOf ip = false

def HasRoom (s : Throttle) : Prop := ∃ j, s.banTable j = none

theorem streak_lt (banFile : Bytes) (events : List LoginEvent) (ip : UInt32) :
    (throttleAfter banFile events).streak ip < banConsecMax := by
  refine run_invariant (fun s : Throttle => s.streak ip < banConsecMax) ?_ (fun s e hs => ?_) events
  · have hzero : (Throttle.boot banFile).streak ip = 0 := ite_self 0
    rw [hzero]
    decide
  · rw [streak_step]
    unfold streakStep
    by_cases hdist : (e.disturbs ip && !isWhitelisted e.ip) = true
    · rw [if_pos hdist]
      decide
    rw [if_neg hdist]
    by_cases hne : e.ip ≠ ip
    · rwa [if_pos hne]
    rw [if_neg hne]
    cases e with
    | formLogin b now => exact hs
    | jsonLogin b => exact hs
    | success b => exact Nat.zero_lt_succ _
    | failure b now writable =>
      simp only
      split_ifs with hw hmax
      · exact hs
      · decide
      · omega

/-- **Password guessing is throttled per address.** A failure leaves its address a window
of a minute; once the window holds five failures, the form endpoint hands no password of
the address to PAM until the window has passed; five failures in a row ban the address,
for good; and only an address's own events and failures of others in its slot bear on
either answer. The first two hold as long as no failure of another address of the slot
comes in between, the bans as long as their table has room. -/
theorem guessing_is_throttled (banFile : Bytes) (events : List LoginEvent) (ip : UInt32)
    (hip : isWhitelisted ip = false) :
    let s := throttleAfter banFile events
    let s' := throttleAfter banFile (events.filter (LoginEvent.concerns ip))
    (∀ now writable, ∃ start failures,
      (throttleStep s (.failure ip now writable)).window ip = some (start, failures + 1) ∧
        (start = now ∧ failures = 0 ∨
          s.window ip = some (start, failures) ∧ now ≤ start + rateLimitWindow)) ∧
    (∀ start failures later now, s.window ip = some (start, failures) → Unbroken ip later →
      (∀ e ∈ later, e.ip = ip → e.By (start + rateLimitWindow)) →
      rateLimitMax ≤ failures + later.countP (LoginEvent.isFailureOf ip) →
      now ≤ start + rateLimitWindow →
        handsOver (run throttleStep s later) (.formLogin ip now) = false) ∧
    (∀ later, Unbroken ip later → banConsecMax ≤ later.countP (LoginEvent.isFailureOf ip) →
      HasRoom (run throttleStep s later) →
        banCheck (run throttleStep s later).banTable ip = true) ∧
    (banCheck s.banTable ip = true → ∀ later,
      banCheck (run throttleStep s later).banTable ip = true) ∧
    (∀ now, handsOver s (.formLogin ip now) = handsOver s' (.formLogin ip now)) ∧
    (HasRoom s → HasRoom s' → banCheck s.banTable ip = banCheck s'.banTable ip) := by
  intro s s'
  have hreach : ProbeSet.Reachable banSlot s.banTable :=
    run_invariant (fun u : Throttle => ProbeSet.Reachable banSlot u.banTable)
      (banlistLoad_reachable banFile) (fun u e hu => reachable_step hu e) events
  refine ⟨fun now writable => ?_, fun start failures later now hw hun hby hmax hnow => ?_,
    fun later hun hmax hroom => ?_, fun hban later => ?_, fun now => ?_, fun hroom hroom' => ?_⟩
  · rw [window_step]
    cases hw : s.window ip with
    | none =>
      exact ⟨now, 0, by simp [windowStep, LoginEvent.disturbs, LoginEvent.ip],
        Or.inl ⟨rfl, rfl⟩⟩
    | some w =>
      obtain ⟨start, failures⟩ := w
      by_cases hnow : rateLimitWindow < now - start
      · refine ⟨now, 0, ?_, Or.inl ⟨rfl, rfl⟩⟩
        simp [windowStep, LoginEvent.disturbs, LoginEvent.ip, hnow]
      · refine ⟨start, failures, ?_, Or.inr ⟨rfl, by omega⟩⟩
        simp [windowStep, LoginEvent.disturbs, LoginEvent.ip, hnow]
  · exact handsOver_of_window hw (fun e he => (hun e he).1) (fun e he => (hun e he).2) hby hmax hnow
  · exact banCheck_of_failures hreach hip (fun e he => (hun e he).1) (fun e he => (hun e he).2)
      (Nat.le_trans hmax (Nat.le_add_left _ _)) (streak_lt banFile events ip) hroom
  · exact (run_invariant (fun u : Throttle => ProbeSet.Reachable banSlot u.banTable ∧
      banCheck u.banTable ip = true) ⟨hreach, hban⟩
      (fun u e hu => ⟨reachable_step hu.1 e, banCheck_step hu.1 e hu.2⟩) later).2
  · have hwindow : s.window ip = s'.window ip := by
      simp only [s, s', throttleAfter, window_run]
      exact (foldl_filter_of_fixed (fun e he x => windowStep_of_not_concerns he x) _ _).symm
    rw [handsOver_formLogin, handsOver_formLogin, hwindow]
  · exact banCheck_filter (banlistLoad_reachable banFile) events hroom hroom'

section Sample

def sampleAddress : UInt32 := 0x0A000001

def sampleCollision : UInt32 := 0x0A000101

def sampleFailures : List LoginEvent :=
  [100, 101, 102, 103, 104].map fun now => .failure sampleAddress now true

theorem sampleFailures_eq (he : e ∈ sampleFailures) :
    e.disturbs sampleAddress = false ∧ e.isSuccessOf sampleAddress = false ∧
      e.By (100 + rateLimitWindow) := by
  simp only [sampleFailures, List.map_cons, List.map_nil, List.mem_cons, List.not_mem_nil,
    or_false] at he
  rcases he with rfl | rfl | rfl | rfl | rfl <;>
    exact ⟨by decide, by decide, by simp [LoginEvent.By, rateLimitWindow]⟩

/-- After five failures the sample address is refused for the rest of the minute, and
banned. -/
theorem guessing_throttled_sample :
    handsOver (run throttleStep (throttleAfter [] (sampleFailures.take 1))
        (sampleFailures.drop 1)) (.formLogin sampleAddress 160) = false ∧
      banCheck (run throttleStep (throttleAfter [] []) sampleFailures).banTable sampleAddress
        = true := by
  have hip : isWhitelisted sampleAddress = false := by decide
  -- the window begins with the first failure
  have hwindow : (throttleAfter [] (sampleFailures.take 1)).window sampleAddress
      = some (100, 1) := by decide
  have hroom : HasRoom (run throttleStep (throttleAfter [] []) sampleFailures) :=
    ⟨0, by decide⟩
  constructor
  · obtain ⟨-, hwithin, -⟩ := guessing_is_throttled [] (sampleFailures.take 1) sampleAddress hip
    refine hwithin 100 1 (sampleFailures.drop 1) 160 hwindow (fun e he => ?_) (fun e he _ => ?_)
      (by decide) (by decide)
    · have h := sampleFailures_eq (List.mem_of_mem_drop he)
      exact ⟨h.1, h.2.1⟩
    · exact (sampleFailures_eq (List.mem_of_mem_drop he)).2.2
  · obtain ⟨-, -, hban, -⟩ := guessing_is_throttled [] [] sampleAddress hip
    exact hban sampleFailures (fun e he => ⟨(sampleFailures_eq he).1, (sampleFailures_eq he).2.1⟩)
      (by decide) hroom

/-- **The throttle is evaded.** After five failures within the minute, the form endpoint
refuses the address; but a failure of another address of its slot makes it forget, and the
JSON endpoint does not ask; and five failures in a row do not ban an address when one of
another of its slot came in between. -/
theorem guessing_not_throttled :
    let s := throttleAfter [] sampleFailures
    let s' := throttleStep s (.failure sampleCollision 105 true)
    let u := throttleAfter [] ((sampleFailures.take 4 ++
      [.failure sampleCollision 103 true]) ++ sampleFailures.drop 4)
    isWhitelisted sampleAddress = false ∧
      handsOver s (.formLogin sampleAddress 106) = false ∧
      handsOver s' (.formLogin sampleAddress 106) = true ∧
      handsOver s (.jsonLogin sampleAddress) = true ∧
      banCheck u.banTable sampleAddress = false := by
  decide

end Sample

end OpenCms.Gateway
