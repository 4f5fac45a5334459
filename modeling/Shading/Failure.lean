import Shading.Canonical
import Shading.Diagnostic
import Shading.Spirv.Instruction
import Shading.Wire.Decoder

/-! Failures of whole operations: a cause, and the work it happened within. -/
namespace Shading

/-- Why an operation has no result. -/
inductive Failure
  | diagnostic (d : Diagnostic)
  | evaluation (e : EvalError)
  | constants (e : ConstantError)
  | writing (e : WriteError)
  | decoding (e : Wire.DecodeError)
  | binary (e : Spirv.FormatError)
  | plain (message : Text)
  /-- a failure inside a named piece of work -/
  | within (work : Text) (inner : Failure)

namespace Failure

def message : Failure → Text
  | .diagnostic d => d.text
  | .evaluation e => e.message
  | .constants e => e.message
  | .writing e => e.message
  | .decoding e => e.message
  | .binary e => e.message
  | .plain m => m
  | .within work inner => work ++ ": " ++ inner.message

/-- The innermost failure. -/
def cause : Failure → Failure
  | .within _ inner => inner.cause
  | f => f

def diagnostic? (f : Failure) : Option Diagnostic :=
  match f.cause with
  | .diagnostic d => some d
  | _ => none

/-- Is the cause a diagnostic of a given kind of fault? -/
def isFault (f : Failure) (k : Fault) : Bool :=
  match f.diagnostic? with
  | some d => d.fault == k
  | none => false

end Failure

end Shading
