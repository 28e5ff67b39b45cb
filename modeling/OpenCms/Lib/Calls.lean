/-!
# Programs that call a system

A program that does its work by calls of a system – of the files, of locks – waits for the answer of
each call before it goes on. `OpenCms.Proc` is the type of such programs: a tree whose nodes are
the calls, with one branch for each answer, and whose leaves are the values returned. So a program
is written once, and can be run alone, by `OpenCms.Proc.run`, or call by call between those of
others.
-/

namespace OpenCms

universe u v w

/-- A program that makes calls and returns an `α`. -/
inductive Proc {Call : Type u} (Answer : Call → Type v) (α : Type v) : Type (max u v)
  | done (a : α)
  | call (c : Call) (next : Answer c → Proc Answer α)

namespace Proc

variable {Call : Type u} {Answer : Call → Type v} {α β γ : Type v}

/-- Run a program, then the one its value chooses. -/
def bind : Proc Answer α → (α → Proc Answer β) → Proc Answer β
  | done a, f => f a
  | call c next, f => call c fun answer => (next answer).bind f

instance instMonad : Monad (Proc Answer) where
  pure := done
  bind := bind

def ask (c : Call) : Proc Answer (Answer c) := call c done

@[simp] theorem pure_eq (a : α) : (pure a : Proc Answer α) = done a := rfl

@[simp] theorem bind_eq (x : Proc Answer α) (f : α → Proc Answer β) : x >>= f = x.bind f := rfl

@[simp] theorem done_bind (a : α) (f : α → Proc Answer β) : (done a).bind f = f a := rfl

@[simp] theorem call_bind (c : Call) (next : Answer c → Proc Answer α)
    (f : α → Proc Answer β) :
    (call c next).bind f = call c fun answer => (next answer).bind f := rfl

@[simp] theorem ask_bind (c : Call) (f : Answer c → Proc Answer β) :
    (ask c).bind f = call c f := rfl

theorem bind_assoc (x : Proc Answer α) (f : α → Proc Answer β) (g : β → Proc Answer γ) :
    (x.bind f).bind g = x.bind fun a => (f a).bind g := by
  induction x with
  | done a => rfl
  | call c next ih => exact congrArg (Proc.call c) (funext ih)

/-- One program for each element of a list, one after the other. -/
def each (f : α → Proc Answer β) : List α → Proc Answer (List β)
  | [] => done []
  | a :: as => (f a).bind fun b => (each f as).bind fun bs => done (b :: bs)

/-! ### Alone -/

section Run

variable {σ : Type w} (handle : (c : Call) → σ → Answer c × σ)

def run : Proc Answer α → σ → α × σ
  | done a, s => (a, s)
  | call c next, s => (next (handle c s).1).run (handle c s).2

@[simp] theorem run_done (a : α) (s : σ) : (done a : Proc Answer α).run handle s = (a, s) := rfl

@[simp] theorem run_call (c : Call) (next : Answer c → Proc Answer α) (s : σ) :
    (call c next).run handle s = (next (handle c s).1).run handle (handle c s).2 := rfl

@[simp] theorem run_bind (x : Proc Answer α) (f : α → Proc Answer β) (s : σ) :
    (x.bind f).run handle s = (f (x.run handle s).1).run handle (x.run handle s).2 := by
  induction x generalizing s with
  | done a => rfl
  | call c next ih => exact ih (handle c s).1 (handle c s).2

variable {handle}

theorem run_each_of_looks {f : α → Proc Answer β} {g : α → β} {s : σ}
    (h : ∀ a, (f a).run handle s = (g a, s)) (as : List α) :
    (each f as).run handle s = (as.map g, s) := by
  induction as with
  | nil => rfl
  | cons a as ih => rw [each, run_bind, h, run_bind, ih, run_done, List.map_cons]

theorem run_each_of_changes {f : α → Proc Answer β} {change : α → σ → σ}
    (h : ∀ a s, ((f a).run handle s).2 = change a s) (as : List α) (s : σ) :
    ((each f as).run handle s).2 = as.foldl (fun s a => change a s) s := by
  induction as generalizing s with
  | nil => rfl
  | cons a as ih => rw [each, run_bind, run_bind, run_done, ih, h, List.foldl_cons]

end Run

end Proc

end OpenCms
