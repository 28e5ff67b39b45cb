import OpenCms.Account.Families
import OpenCms.Util.Identifier

/-!
# Outputs of tools that are kept in files

An output that is too long for the prompt is kept in a file that has an identifier in its name, and
`cleanup` deletes the files whose identifiers are older than a day. It compares what it reads of the
identifiers with what it reads of one that it makes for a day ago. Both are only as long as there
are digits for: their milliseconds begin again every 2 ^ 36, which is every 795 days. And `cleanup`
looks below the sessions only, and stops at a name that it cannot read.

So a file is deleted exactly when it is older than a day, as long as neither of this comes between
(`OpenCms.Truncation.retention_iff`).
-/

namespace OpenCms.Truncation

/-- A file below the data directory, by the parts of its path. -/
abbrev Path := List String

def DIR : Path := ["storage", "session"]

def RETENTION_MS : ℤ := 24 * 60 * 60 * 1000

abbrev RandomBytes := { bytes : List UInt8 // bytes.length = Identifier.LENGTH - 12 }

def toolCall (timestamp : ℤ) (bytes : RandomBytes) : Identifier.Call :=
  ⟨.tool, false, timestamp, bytes.1, bytes.2⟩

def toolId (s : Identifier.State) (timestamp : ℤ) (bytes : RandomBytes) : String :=
  (Identifier.create s (toolCall timestamp bytes)).1

def sessionDirectory (hasInfo : String → Bool) (sessionID : String) : Option Path :=
  if hasInfo sessionID then some (DIR ++ [sessionID]) else none

def filepath (hasInfo : String → Bool) (sessionID : Option String) (id : String) : Path :=
  let sessionDir := (sessionID.filter (· ≠ "")).bind (sessionDirectory hasInfo)
  let dir := match sessionDir with
    | some sessionDir => sessionDir ++ ["output"]
    | none => ["storage", "output"]
  dir ++ ["output_" ++ id]

/-- The pattern `**/output/output_*`, below `DIR`. Directories that begin with a dot are passed
over. -/
def isEntry (path : Path) : Bool :=
  match path with
  | "storage" :: "session" :: rest =>
    match rest.reverse with
    | filename :: "output" :: dirs =>
      startsWith filename "output_" && dirs.all fun dir => !startsWith dir "."
    | _ => false
  | _ => false

def identifierOf (entry : Path) : String :=
  let filename := entry.getLastD ""
  if startsWith filename "output_" then
    String.ofList (filename.toList.drop "output_".toList.length)
  else filename

/-- The entries that the loop unlinks. A name that holds no timestamp is an error, which ends it. -/
def unlinked (cutoff : ℕ) : List Path → List Path
  | [] => []
  | entry :: entries =>
    match Identifier.timestamp (identifierOf entry) with
    | none => []
    | some timestamp =>
      if cutoff ≤ timestamp then unlinked cutoff entries else entry :: unlinked cutoff entries

def cutoffAt (s : Identifier.State) (bytes : RandomBytes) (now : ℤ) : Option ℕ :=
  Identifier.timestamp (toolId s (now - RETENTION_MS) bytes)

/-- `cleanup`: the files that are left, where nothing keeps a file from being unlinked. -/
def cleanup (s : Identifier.State) (bytes : RandomBytes) (now : ℤ) (files : List Path) :
    List Path :=
  match cutoffAt s bytes now with
  | none => files
  | some cutoff =>
    let gone := unlinked cutoff (files.filter isEntry)
    files.filter fun file => file ∉ gone

/-! ### What is deleted -/

/-- After so many milliseconds the digits of an identifier begin again. -/
def window : ℤ := 2 ^ 36

def Reached (files : List Path) (file : Path) : Prop :=
  ∃ before after, files.filter isEntry = before ++ file :: after ∧
    ∀ entry ∈ before, (Identifier.timestamp (identifierOf entry)).isSome

/-- Going on from `x` to `y` does not run over the end of a window, when whole windows between them
are left out. -/
def NoWrap (x y : ℤ) : Prop := x % window + (y - x) % window < window

/-- **When the retention is exact**, for an identifier of the millisecond `t` that encodes `x`, and
a cutoff at the millisecond `limit` that encodes `y`: a file that is to be deleted is reached, and
there are not just whole windows between it and the cutoff, nor an end of a window that makes it
look younger; and if the file is to be kept and is reached, no end of a window makes it look
older. -/
def Exact (files : List Path) (file : Path) (t x limit y : ℤ) : Prop :=
  if t < limit then Reached files file ∧ (y - x) % window ≠ 0 ∧ NoWrap x y
  else Reached files file → NoWrap y x

section Retention

variable {files entries : List Path} {file : Path} {cutoff timestamp : ℕ} {x y : ℤ}
  {s : Identifier.State} {bytes : RandomBytes} {t now : ℤ}

/-- **An entry is unlinked** when it is older than the cutoff and the names before it can be
read. -/
theorem mem_unlinked_iff (hfile : Identifier.timestamp (identifierOf file) = some timestamp) :
    file ∈ unlinked cutoff entries ↔ timestamp < cutoff ∧
      ∃ before after, entries = before ++ file :: after ∧
        ∀ entry ∈ before, (Identifier.timestamp (identifierOf entry)).isSome := by
  induction entries with
  | nil =>
    refine iff_of_false List.not_mem_nil ?_
    rintro ⟨-, before, after, heq, -⟩
    exact List.append_ne_nil_of_right_ne_nil before (List.cons_ne_nil file after) heq.symm
  | cons entry entries ih =>
    have hsplit : (∃ before after, entry :: entries = before ++ file :: after ∧
          ∀ entry ∈ before, (Identifier.timestamp (identifierOf entry)).isSome) ↔
        entry = file ∨ (Identifier.timestamp (identifierOf entry)).isSome ∧
          ∃ before after, entries = before ++ file :: after ∧
            ∀ entry ∈ before, (Identifier.timestamp (identifierOf entry)).isSome := by
      constructor
      · rintro ⟨before, after, heq, hall⟩
        cases before with
        | nil => exact Or.inl (List.cons.inj heq).1
        | cons first before =>
          obtain ⟨rfl, hrest⟩ := List.cons.inj heq
          obtain ⟨hfirst, hall⟩ := List.forall_mem_cons.mp hall
          exact Or.inr ⟨hfirst, before, after, hrest, hall⟩
      · rintro (rfl | ⟨hentry, before, after, rfl, hall⟩)
        · exact ⟨[], entries, rfl, fun _ h => absurd h List.not_mem_nil⟩
        · exact ⟨entry :: before, after, rfl, List.forall_mem_cons.mpr ⟨hentry, hall⟩⟩
    rw [hsplit]
    unfold unlinked
    cases hentry : Identifier.timestamp (identifierOf entry) with
    | none =>
      refine iff_of_false List.not_mem_nil ?_
      rintro ⟨-, rfl | ⟨h, -⟩⟩
      · rw [hfile] at hentry
        cases hentry
      · cases h
    | some other =>
      dsimp only
      rcases eq_or_ne entry file with rfl | hne
      · obtain rfl : timestamp = other := Option.some.inj (hfile.symm.trans hentry)
        split
        next hle =>
          rw [ih]
          exact iff_of_false (fun h => absurd hle (not_le.mpr h.1))
            fun h => absurd hle (not_le.mpr h.1)
        next hlt => exact iff_of_true List.mem_cons_self ⟨not_le.mp hlt, Or.inl rfl⟩
      · simp only [hne, false_or, Option.isSome_some, true_and, ← ih]
        split
        · rfl
        · rw [List.mem_cons, or_iff_right hne.symm]

theorem mod_lt_mod_iff : x % window < y % window ↔ (y - x) % window ≠ 0 ∧ NoWrap x y := by
  unfold NoWrap window
  omega

theorem not_mod_lt_mod_iff : ¬x % window < y % window ↔ NoWrap y x := by
  unfold NoWrap window
  omega

theorem older_iff (t now : ℤ) : t + RETENTION_MS < now ↔ t < now - RETENTION_MS := by omega

theorem startsWith_append (before rest : String) : startsWith (before ++ rest) before := by
  rw [startsWith, List.isPrefixOf_iff_prefix, String.toList_append]
  exact List.prefix_append _ _

theorem identifierOf_filepath (hasInfo : String → Bool) (sessionID : Option String) (id : String) :
    identifierOf (filepath hasInfo sessionID id) = id := by
  unfold identifierOf filepath
  simp only [List.getLastD_concat]
  rw [if_pos (startsWith_append _ _), String.toList_append, List.drop_left, String.ofList_toList]

theorem timestamp_filepath (hasInfo : String → Bool) (sessionID : Option String) :
    Identifier.timestamp (identifierOf (filepath hasInfo sessionID (toolId s t bytes))) =
      some (Identifier.encoded s t % window).toNat := by
  rw [identifierOf_filepath]
  exact Identifier.timestamp_create s rfl

theorem cutoffAt_eq : cutoffAt s bytes now =
    some (Identifier.encoded s (now - RETENTION_MS) % window).toNat :=
  Identifier.timestamp_create s rfl

/-- **An output is deleted** when what is kept of its millisecond is less than what is kept of the
cutoff, and `cleanup` comes to it. -/
theorem notMem_cleanup_iff {s' : Identifier.State} {bytes' : RandomBytes}
    {hasInfo : String → Bool} {sessionID : Option String}
    (hfile : filepath hasInfo sessionID (toolId s t bytes) ∈ files) :
    filepath hasInfo sessionID (toolId s t bytes) ∉ cleanup s' bytes' now files ↔
      Identifier.encoded s t % window < Identifier.encoded s' (now - RETENTION_MS) % window ∧
        Reached files (filepath hasInfo sessionID (toolId s t bytes)) := by
  have htimestamp := @timestamp_filepath s bytes t hasInfo sessionID
  rw [cleanup, cutoffAt_eq]
  simp only [List.mem_filter, hfile, true_and, decide_eq_true_eq, not_not,
    mem_unlinked_iff htimestamp]
  refine and_congr_left fun _ => ?_
  unfold window
  omega

end Retention

/-- **The file of an output is deleted exactly when it is older than a day, if the retention is
exact for it.** -/
theorem retention_iff (s s' : Identifier.State) (t now : ℤ) (bytes bytes' : RandomBytes)
    (hasInfo : String → Bool) (sessionID : Option String) (files : List Path)
    (hfile : filepath hasInfo sessionID (toolId s t bytes) ∈ files) :
    (filepath hasInfo sessionID (toolId s t bytes) ∉ cleanup s' bytes' now files ↔
        t + RETENTION_MS < now) ↔
      Exact files (filepath hasInfo sessionID (toolId s t bytes)) t (Identifier.encoded s t)
        (now - RETENTION_MS) (Identifier.encoded s' (now - RETENTION_MS)) := by
  rw [notMem_cleanup_iff hfile, older_iff t now, Exact]
  split
  next hlt => rw [iff_true_right hlt, mod_lt_mod_iff, and_comm]
  next hlt => rw [iff_false_right hlt, not_and', not_mod_lt_mod_iff]

theorem length_zeroBytes :
    (List.replicate 14 (0 : UInt8)).length = Identifier.LENGTH - 12 := rfl

def zeroBytes : RandomBytes := ⟨List.replicate 14 0, length_zeroBytes⟩

def outputFile (timestamp : ℤ) : Path :=
  filepath (· = "ses_1") (some "ses_1") (toolId Identifier.start timestamp zeroBytes)

/-- An output of seven days ago is deleted. -/
theorem retention_iff_output :
    outputFile 1000 ∉ cleanup Identifier.start zeroBytes 604802000 [outputFile 1000] := by
  have hreached : Reached [outputFile 1000] (outputFile 1000) :=
    ⟨[], [], by decide, fun _ h => absurd h List.not_mem_nil⟩
  exact ((retention_iff Identifier.start Identifier.start 1000 604802000 zeroBytes zeroBytes
    (· = "ses_1") (some "ses_1") [outputFile 1000] List.mem_cons_self).mpr
      ⟨hreached, by decide, by
        unfold NoWrap
        decide⟩).mpr (by decide)

/-- A new window has begun, and an output of it is deleted in the millisecond after. -/
theorem not_retention : ¬∀ (s s' : Identifier.State) (t now : ℤ) (bytes bytes' : RandomBytes)
    (hasInfo : String → Bool) (sessionID : Option String) (files : List Path),
    filepath hasInfo sessionID (toolId s t bytes) ∈ files →
      (filepath hasInfo sessionID (toolId s t bytes) ∉ cleanup s' bytes' now files ↔
        t + RETENTION_MS < now) := by
  intro h
  have hiff := h Identifier.start Identifier.start 1786706395141 1786706395142 zeroBytes zeroBytes
    (· = "ses_1") (some "ses_1") [outputFile 1786706395141] List.mem_cons_self
  have hreached : Reached [outputFile 1786706395141] (outputFile 1786706395141) :=
    ⟨[], [], by decide, fun _ h => absurd h List.not_mem_nil⟩
  have hdeleted := (@notMem_cleanup_iff _ _ _ _ 1786706395142 Identifier.start zeroBytes _ _
    List.mem_cons_self).mpr ⟨by decide, hreached⟩
  exact absurd (hiff.mp hdeleted) (by decide)

end OpenCms.Truncation
