/-!
Messages about the progress of a computation. A logged value is a value together with the messages
sent while it was found, oldest first; sending nothing and sending one after the other make it a
monad.
-/
namespace Calculator

inductive Level where
  | debug
  | trace
deriving DecidableEq, Repr

def Level.name : Level → String
  | .debug => "DEBUG"
  | .trace => "TRACE"

structure Message where
  level : Level
  text : String
deriving DecidableEq, Repr

structure Logged (α : Type) where
  value : α
  log : List Message

namespace Logged

variable {α β : Type}

@[inline] protected def pure (a : α) : Logged α := ⟨a, []⟩

@[inline] protected def bind : Logged α → (α → Logged β) → Logged β
  | ⟨a, front⟩, f =>
    match f a with
    | ⟨b, rest⟩ => ⟨b, front ++ rest⟩

instance : Monad Logged where
  pure := Logged.pure
  bind := Logged.bind

def send (level : Level) (text : String) : Logged Unit := ⟨(), [⟨level, text⟩]⟩

@[simp] theorem value_pure (a : α) : (pure a : Logged α).value = a := rfl

@[simp] theorem value_map (f : α → β) (x : Logged α) : (f <$> x).value = f x.value := rfl

@[simp] theorem log_pure (a : α) : (pure a : Logged α).log = [] := rfl

@[simp] theorem value_bind (x : Logged α) (f : α → Logged β) :
    (x >>= f).value = (f x.value).value := rfl

@[simp] theorem log_bind (x : Logged α) (f : α → Logged β) :
    (x >>= f).log = x.log ++ (f x.value).log := rfl

@[simp] theorem log_send (level : Level) (text : String) :
    (send level text).log = [⟨level, text⟩] := rfl

instance : LawfulMonad Logged := by
  refine LawfulMonad.mk' Logged ?_ ?_ ?_
  · intro α x
    change (⟨x.value, x.log ++ []⟩ : Logged α) = x
    rw [List.append_nil]
  · intro α β a f
    rfl
  · intro α β γ x f g
    change (⟨_, (x.log ++ (f x.value).log) ++ _⟩ : Logged γ) = ⟨_, x.log ++ ((f x.value).log ++ _)⟩
    rw [List.append_assoc]

end Logged

end Calculator
