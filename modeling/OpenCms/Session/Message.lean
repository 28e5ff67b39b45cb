import Mathlib.Data.Int.Notation
import Mathlib.Data.Nat.Notation

/-!
# Messages of a session

A message is of the user or of an assistant, and it has parts. Here is what compaction reads of
them.
-/

namespace OpenCms.MessageV2

/-- What a part of a message is: what is read of it, and the rest. -/
inductive PartBody (ρ : Type)
  | text (compactionReplay : Bool) (rest : ρ)
  | compaction (rawTailProjection : Option ℕ) (rest : ρ)
  | compactionRequest (rest : ρ)
  | other (rest : ρ)
  deriving DecidableEq

structure Part (ρ : Type) where
  id : String
  messageID : String
  body : PartBody ρ
  deriving DecidableEq

/-- `Info`, but for what both kinds of messages have. -/
inductive Info (ρ : Type)
  | user (rest : ρ)
  | assistant (finish : Option String) (summary : Bool) (rest : ρ)
  deriving DecidableEq

/-- `WithParts`: a message with its parts. -/
structure WithParts (ρ : Type) where
  id : String
  created : ℤ
  info : Info ρ
  parts : List (Part ρ)
  deriving DecidableEq

variable {ρ : Type}

def WithParts.isUser (m : WithParts ρ) : Bool :=
  match m.info with
  | .user _ => true
  | .assistant _ _ _ => false

def WithParts.isAssistant (m : WithParts ρ) : Bool :=
  match m.info with
  | .user _ => false
  | .assistant _ _ _ => true

def WithParts.finish (m : WithParts ρ) : Option String :=
  match m.info with
  | .user _ => none
  | .assistant finish _ _ => finish

theorem WithParts.isAssistant_eq (m : WithParts ρ) : m.isAssistant = !m.isUser := by
  unfold isAssistant isUser
  cases m.info <;> rfl

end OpenCms.MessageV2
