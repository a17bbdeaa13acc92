import Planner.SortedSet

/-! # Values with a log

`Logged α` is a value and the log lines written on the way to it.  Taking the value commutes with
binding (`Logged.value_bind`), so what a computation gives can be read without its log. -/

namespace Planner

/-- How much a log line matters. -/
inductive Level
  | debug
  | info
  deriving DecidableEq, Repr

/-- A line of the log. -/
structure LogLine where
  level : Level
  text : String
  deriving DecidableEq, Repr

/-- The line with its level in front. -/
def LogLine.render (l : LogLine) : String :=
  (match l.level with | .debug => "DEBUG " | .info => "INFO ") ++ l.text

/-- A value and what was logged on the way to it. -/
structure Logged (α : Type) where
  value : α
  log : List LogLine

namespace Logged

instance : Monad Logged where
  pure a := ⟨a, []⟩
  bind x f := ⟨(f x.value).value, x.log ++ (f x.value).log⟩

/-- Writes a line for developers. -/
def debug (text : String) : Logged Unit := ⟨(), [⟨.debug, text⟩]⟩

/-- Writes a line for users. -/
def info (text : String) : Logged Unit := ⟨(), [⟨.info, text⟩]⟩

variable {α β : Type}

@[simp] theorem value_pure (a : α) : (pure a : Logged α).value = a := rfl

@[simp] theorem value_bind (x : Logged α) (f : α → Logged β) :
    (x >>= f).value = (f x.value).value := rfl

@[simp] theorem log_pure (a : α) : (pure a : Logged α).log = [] := rfl

@[simp] theorem log_bind (x : Logged α) (f : α → Logged β) :
    (x >>= f).log = x.log ++ (f x.value).log := rfl

end Logged

end Planner
