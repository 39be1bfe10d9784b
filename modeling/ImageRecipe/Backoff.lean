import ImageRecipe.Document.Fields
import ImageRecipe.Text.Number

/-! Repeating an operation that may fail for a while, with growing delays between the attempts. -/

namespace ImageRecipe

/-- How often an operation is attempted, and the delays in milliseconds between the attempts. -/
structure Backoff where
  attempts : Nat := 3
  initialDelay : Nat := 1000
  multiplier : Nat := 2
  maxDelay : Nat := 30000
  deriving DecidableEq, Repr

/-- A power, or the greatest number of 64 bits if the power exceeds it. -/
def saturatedPower (base exponent : Nat) : Nat :=
  if base ≤ 1 then if exponent = 0 then 1 else base
  else if 64 ≤ exponent then Text.limit64 - 1
  else min (base.pow exponent) (Text.limit64 - 1)

namespace Backoff

/-- The delay after the failed attempt of an index. -/
def delay (b : Backoff) (attempt : Nat) : Nat :=
  min (min (b.initialDelay * saturatedPower b.multiplier attempt) (Text.limit64 - 1)) b.maxDelay

section Retry

variable {m : Type → Type} [Monad m] {ε α : Type}

/-- Attempt an operation from an index on, with so many further attempts after it. -/
def retryFrom (b : Backoff) (sleep : Nat → m Unit) (op : Nat → m (Except ε α)) :
    Nat → Nat → m (Except ε α)
  | 0, attempt => op attempt
  | left + 1, attempt => do
    match ← op attempt with
    | .ok a => pure (.ok a)
    | .error _ =>
      sleep (b.delay attempt)
      retryFrom b sleep op left (attempt + 1)

/-- The number of attempts that are made at most; there is always one. -/
def limit (b : Backoff) : Nat := max b.attempts 1

/-- Attempt an operation until it succeeds or no attempt is left, and give the last outcome. -/
def retry (b : Backoff) (sleep : Nat → m Unit) (op : Nat → m (Except ε α)) : m (Except ε α) :=
  b.retryFrom sleep op (b.limit - 1) 0

end Retry

def toDocument (b : Backoff) : Document :=
  .table [
    ("max_attempts", .ofNat b.attempts),
    ("initial_delay_ms", .ofNat b.initialDelay),
    ("multiplier", .ofNat b.multiplier),
    ("max_delay_ms", .ofNat b.maxDelay)]

/-- The backoff of a document, each missing field at its default. -/
def ofDocument? (format : Format) (d : Document) : Option Backoff := do
  let standard : Backoff := {}
  match ← d.fields? format false ["max_attempts", "initial_delay_ms", "multiplier", "max_delay_ms"] with
  | [attempts, initialDelay, multiplier, maxDelay] =>
    pure {
      attempts := ← Field.defaulted (Document.nat? Text.limit32) standard.attempts attempts
      initialDelay := ← Field.defaulted (Document.nat? Text.limit64) standard.initialDelay initialDelay
      multiplier := ← Field.defaulted (Document.nat? Text.limit32) standard.multiplier multiplier
      maxDelay := ← Field.defaulted (Document.nat? Text.limit64) standard.maxDelay maxDelay }
  | _ => none

end Backoff

end ImageRecipe
