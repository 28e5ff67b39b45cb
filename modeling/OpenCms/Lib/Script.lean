import OpenCms.Lib.Runs
import Mathlib.Logic.Function.Basic

/-!
# Programs over one shared file

A program that works on a file reads the whole of it, computes, and writes the whole
of it back. `OpenCms.Script` is the type of such programs: a tree whose nodes are
the reads and the writes, each of them one atomic step, and whose leaves are the
values returned.

A script is run alone by `OpenCms.Script.run`. Several processes that run scripts
over one file are `OpenCms.Shared`; there a step is one read or one write of one of
them, and nothing orders the steps of different processes. The rule for these is
`OpenCms.Shared.Serial.serial`: if every write is of what the operation makes of the
file *as it is then*, the file is at every moment what the finished operations,
applied whole and one after another, make of it.
-/

namespace OpenCms

/-- A program over a file that holds a `φ`. -/
inductive Script (φ : Type*) (α : Type*)
  | done (a : α)
  | read (next : φ → Script φ α)
  | write (content : φ) (next : Script φ α)

namespace Script

variable {φ α β : Type*}

/-- Run a script, then the one its value chooses. -/
def bind : Script φ α → (α → Script φ β) → Script φ β
  | done a, f => f a
  | read next, f => read fun c => (next c).bind f
  | write c next, f => write c (next.bind f)

instance : Monad (Script φ) where
  pure := done
  bind := bind

@[simp] theorem pure_eq (a : α) : (pure a : Script φ α) = done a := rfl

@[simp] theorem done_bind (a : α) (f : α → Script φ β) : (done a).bind f = f a := rfl

@[simp] theorem read_bind (next : φ → Script φ α) (f : α → Script φ β) :
    (read next).bind f = read fun c => (next c).bind f := rfl

@[simp] theorem write_bind (c : φ) (next : Script φ α) (f : α → Script φ β) :
    (write c next).bind f = write c (next.bind f) := rfl

theorem bind_assoc {γ : Type*} (x : Script φ α) (f : α → Script φ β) (g : β → Script φ γ) :
    (x.bind f).bind g = x.bind fun a => (f a).bind g := by
  induction x with
  | done a => rfl
  | read next ih => exact congrArg Script.read (funext ih)
  | write c next ih => exact congrArg (Script.write c) ih

@[simp] theorem bind_eq {φ α β : Type} (x : Script φ α) (f : α → Script φ β) :
    x >>= f = x.bind f := rfl

def run : Script φ α → φ → α × φ
  | done a, c => (a, c)
  | read next, c => (next c).run c
  | write c' next, _ => next.run c'

@[simp] theorem run_done (a : α) (c : φ) : (done a : Script φ α).run c = (a, c) := rfl

@[simp] theorem run_read (next : φ → Script φ α) (c : φ) :
    (read next).run c = (next c).run c := rfl

@[simp] theorem run_write (c' : φ) (next : Script φ α) (c : φ) :
    (write c' next).run c = next.run c' := rfl

@[simp] theorem run_bind (x : Script φ α) (f : α → Script φ β) (c : φ) :
    (x.bind f).run c = (f (x.run c).1).run (x.run c).2 := by
  induction x generalizing c with
  | done a => rfl
  | read next ih => exact ih c c
  | write c' next ih => exact ih c'

/-! ### Part of the way -/

/-- What is left of a script that has gone some way, and what its reads returned on
it, whoever wrote that. -/
inductive Trace (p : Script φ α) : List φ → Script φ α → Prop
  | start : Trace p [] p
  | read {seen next} (c : φ) : Trace p seen (.read next) → Trace p (seen ++ [c]) (next c)
  | write {seen c next} : Trace p seen (.write c next) → Trace p seen next

/-- **A sequence goes its way in two parts**: it is inside the first script, or past it. -/
theorem Trace.of_bind {x : Script φ α} {f : α → Script φ β} {seen : List φ} {rest : Script φ β}
    (h : Trace (x.bind f) seen rest) :
    (∃ rest', Trace x seen rest' ∧ rest = rest'.bind f) ∨
      ∃ seen₁ seen₂ a,
        seen = seen₁ ++ seen₂ ∧ Trace x seen₁ (.done a) ∧ Trace (f a) seen₂ rest := by
  -- what is left of the first script decides whether the next step is still its own
  have settle : ∀ {seen} {rest' : Script φ α} {rest : Script φ β}, Trace x seen rest' →
      rest = rest'.bind f → (∃ a, rest' = .done a) →
        ∃ seen₁ seen₂ a,
          seen = seen₁ ++ seen₂ ∧ Trace x seen₁ (.done a) ∧ Trace (f a) seen₂ rest := by
    rintro seen rest' rest hx rfl ⟨a, rfl⟩
    exact ⟨seen, [], a, (List.append_nil _).symm, hx, .start⟩
  induction h with
  | start => exact Or.inl ⟨x, .start, rfl⟩
  | read c _ ih =>
    rcases ih with ⟨rest', hx, heq⟩ | ⟨seen₁, seen₂, a, rfl, hx, hf⟩
    · cases rest' with
      | done a =>
        obtain ⟨seen₁, seen₂, b, rfl, hx', hf⟩ := settle hx heq ⟨a, rfl⟩
        exact Or.inr ⟨seen₁, seen₂ ++ [c], b, List.append_assoc .., hx', hf.read c⟩
      | read next' =>
        cases heq
        exact Or.inl ⟨next' c, hx.read c, rfl⟩
      | write c' next' => cases heq
    · exact Or.inr ⟨seen₁, seen₂ ++ [c], a, List.append_assoc .., hx, hf.read c⟩
  | write _ ih =>
    rcases ih with ⟨rest', hx, heq⟩ | ⟨seen₁, seen₂, a, rfl, hx, hf⟩
    · cases rest' with
      | done a =>
        obtain ⟨seen₁, seen₂, b, rfl, hx', hf⟩ := settle hx heq ⟨a, rfl⟩
        exact Or.inr ⟨seen₁, seen₂, b, rfl, hx', hf.write⟩
      | read next' => cases heq
      | write c' next' =>
        cases heq
        exact Or.inl ⟨next', hx.write, rfl⟩
    · exact Or.inr ⟨seen₁, seen₂, a, rfl, hx, hf.write⟩

end Script

/-! ### Several processes at one file -/

section Shared

variable {ι Op φ σ : Type*}

/-- A process in the middle of an operation: what its reads have returned, and what it
still has to do. -/
structure Process (Op φ : Type*) where
  op : Op
  seen : List φ
  rest : Script φ Unit

/-- The file, what each process is at, and the operations that have finished, in the
order in which they did. -/
structure Shared (ι Op φ : Type*) where
  file : φ
  procs : ι → Option (Process Op φ)
  finished : List Op

/-- A process starts an operation, or makes its next read or write. -/
inductive Shared.Action (ι Op : Type*)
  | start (i : ι) (op : Op)
  | advance (i : ι)

namespace Shared

def idle (file : φ) : Shared ι Op φ := ⟨file, fun _ => none, []⟩

variable [DecidableEq ι] (code : Op → Script φ Unit)

/-- A process goes on with its operation, which has finished when nothing is left. -/
def goOn (s : Shared ι Op φ) (i : ι) (p : Process Op φ) : Shared ι Op φ :=
  match p.rest with
  | .done _ => { s with procs := Function.update s.procs i none, finished := s.finished ++ [p.op] }
  | _ => { s with procs := Function.update s.procs i (some p) }

def step (s : Shared ι Op φ) : Action ι Op → Shared ι Op φ
  | .start i op =>
    match s.procs i with
    | none => { s with procs := Function.update s.procs i (some ⟨op, [], code op⟩) }
    | some _ => s
  | .advance i =>
    match s.procs i with
    | none => s
    | some p =>
      match p.rest with
      | .done _ => s
      | .read next => s.goOn i { p with seen := p.seen ++ [s.file], rest := next s.file }
      | .write c next => { s with file := c }.goOn i { p with rest := next }

/-- The condition `ok` on an operation, what its reads have returned and the file, at every
step that is a write. -/
def AtWrites (ok : Op → List φ → φ → Prop) (s : Shared ι Op φ) : Action ι Op → Prop
  | .start _ _ => True
  | .advance i =>
    ∀ p c next, s.procs i = some p → p.rest = .write c next → ok p.op p.seen s.file

/-- **The scripts of the operations follow an abstract store.** `view` is what a file holds
and `apply` what an operation does to it, at once. Under `ok`, the write that ends an
operation applies it to the file as it is, any other write leaves what the file holds as it
is, and an operation ends at a read only if it has nothing to do. -/
structure Serial (view : φ → σ) (apply : σ → Op → σ) (ok : Op → List φ → φ → Prop) : Prop where
  ends : ∀ {op seen next c}, (code op).Trace seen (.read next) → next c = .done () →
    apply (view c) op = view c
  inner : ∀ {op seen c next file}, (code op).Trace seen (.write c next) → next ≠ .done () →
    ok op seen file → view c = view file
  commit : ∀ {op seen c file}, (code op).Trace seen (.write c (.done ())) →
    ok op seen file → view c = apply (view file) op

variable {code} {view : φ → σ} {apply : σ → Op → σ} {ok : Op → List φ → φ → Prop}
  {s : Shared ι Op φ}

def Traced (code : Op → Script φ Unit) (s : Shared ι Op φ) : Prop :=
  ∀ i p, s.procs i = some p → (code p.op).Trace p.seen p.rest

omit [DecidableEq ι] in
theorem traced_idle (file : φ) : (idle file : Shared ι Op φ).Traced code := by
  intro i p hp
  cases hp

/-- An entry of a map that was written at one place is the one written, or an old one. -/
theorem update_eq_some {f : ι → Option (Process Op φ)} {i j : ι} {o : Option (Process Op φ)}
    {p : Process Op φ} (h : Function.update f i o j = some p) : o = some p ∨ f j = some p := by
  rcases eq_or_ne j i with rfl | hne
  · exact Or.inl (by rwa [Function.update_self] at h)
  · exact Or.inr (by rwa [Function.update_of_ne hne] at h)

theorem Traced.goOn {i : ι} {p : Process Op φ} (hs : s.Traced code)
    (hp : (code p.op).Trace p.seen p.rest) : (s.goOn i p).Traced code := by
  intro j q hq
  unfold Shared.goOn at hq
  split at hq
  · rcases update_eq_some hq with h | h
    · cases h
    · exact hs j q h
  · rcases update_eq_some hq with h | h
    · cases h
      exact hp
    · exact hs j q h

theorem Traced.step (hs : s.Traced code) (a : Action ι Op) : (s.step code a).Traced code := by
  cases a with
  | start i op =>
    unfold Shared.step
    dsimp only
    split
    · intro j q hq
      rcases update_eq_some hq with h | h
      · cases h
        exact .start
      · exact hs j q h
    · exact hs
  | advance i =>
    unfold Shared.step
    dsimp only
    cases hp : s.procs i with
    | none => exact hs
    | some p =>
      have ht := hs i p hp
      obtain ⟨op, seen, rest⟩ := p
      cases rest with
      | done _ => exact hs
      | read next => exact hs.goOn (ht.read s.file)
      | write c next => exact Traced.goOn (s := { s with file := c }) hs ht.write

@[simp] theorem goOn_file (s : Shared ι Op φ) (i : ι) (p : Process Op φ) :
    (s.goOn i p).file = s.file := by
  unfold Shared.goOn
  split <;> rfl

theorem step_file (code : Op → Script φ Unit) (s : Shared ι Op φ) (a : Action ι Op) :
    (s.step code a).file = s.file ∨
      ∃ i p c next, a = .advance i ∧ s.procs i = some p ∧ p.rest = .write c next ∧
        (s.step code a).file = c := by
  cases a with
  | start i op =>
    refine Or.inl ?_
    unfold Shared.step
    dsimp only
    split <;> rfl
  | advance i =>
    unfold Shared.step
    dsimp only
    cases hp : s.procs i with
    | none => exact Or.inl rfl
    | some p =>
      dsimp only
      cases hrest : p.rest with
      | done _ => exact Or.inl rfl
      | read next => exact Or.inl (goOn_file ..)
      | write c next => exact Or.inr ⟨i, p, c, next, rfl, hp, hrest, goOn_file ..⟩

/-- The operation that a step is a step of, if it goes on with one. -/
def opOf (s : Shared ι Op φ) : Action ι Op → Option Op
  | .start _ _ => none
  | .advance i => (s.procs i).map (·.op)

/-- **What one step does**: it leaves alone what the file holds, and no operation finishes;
or the operation it belongs to finishes, and is applied. -/
theorem Serial.step_cases (hser : Serial code view apply ok) (hs : s.Traced code)
    {a : Action ι Op} (ha : s.AtWrites ok a) :
    ((s.step code a).finished = s.finished ∧ view (s.step code a).file = view s.file) ∨
      ∃ op, s.opOf a = some op ∧ (s.step code a).finished = s.finished ++ [op] ∧
        view (s.step code a).file = apply (view s.file) op := by
  cases a with
  | start i op =>
    refine Or.inl ?_
    unfold Shared.step
    dsimp only
    split <;> exact ⟨rfl, rfl⟩
  | advance i =>
    unfold Shared.step Shared.opOf
    dsimp only
    cases hp : s.procs i with
    | none => exact Or.inl ⟨rfl, rfl⟩
    | some p =>
      have ht := hs i p hp
      have hok : ∀ c next, p.rest = .write c next → ok p.op p.seen s.file :=
        fun c next => ha p c next hp
      obtain ⟨op, seen, rest⟩ := p
      cases rest with
      | done _ => exact Or.inl ⟨rfl, rfl⟩
      | read next =>
        cases hnext : next s.file with
        | done _ =>
          refine Or.inr ⟨op, rfl, ?_, ?_⟩
          · simp only [Shared.goOn, hnext]
          · simp only [Shared.goOn, hnext]
            exact (hser.ends ht hnext).symm
        | read _ => exact Or.inl (by simp only [Shared.goOn, hnext, and_self])
        | write _ _ => exact Or.inl (by simp only [Shared.goOn, hnext, and_self])
      | write c next =>
        have hw := hok c next rfl
        cases next with
        | done _ => exact Or.inr ⟨op, rfl, rfl, hser.commit ht hw⟩
        | read _ => exact Or.inl ⟨rfl, hser.inner ht nofun hw⟩
        | write _ _ => exact Or.inl ⟨rfl, hser.inner ht nofun hw⟩

/-- **No update is lost**: in a run whose writes all meet the condition the file holds what
the finished operations, one after another, make of what it held. -/
theorem Serial.serial (hser : Serial code view apply ok) {file : φ} {acts : List (Action ι Op)}
    (hm : Meets (step code) (AtWrites ok) (idle file) acts) :
    view (run (step code) (idle file) acts).file =
      (run (step code) (idle file) acts).finished.foldl apply (view file) := by
  refine (hm.invariant
    (fun s => s.Traced code ∧ view s.file = s.finished.foldl apply (view file))
    ⟨traced_idle file, rfl⟩ fun s a hs ha => ⟨hs.1.step a, ?_⟩).2
  rcases hser.step_cases hs.1 ha with ⟨hfin, hview⟩ | ⟨op, -, hfin, hview⟩
  · rw [hfin, hview]
    exact hs.2
  · rw [hfin, hview, List.foldl_append, List.foldl_cons, List.foldl_nil, hs.2]

theorem traced_run {file : φ} (acts : List (Action ι Op)) :
    (run (step code) (idle file) acts).Traced code :=
  run_invariant _ (traced_idle file) (fun _ a hs => hs.step a) acts

end Shared

end Shared

end OpenCms
