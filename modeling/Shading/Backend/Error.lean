import Shading.Check.Rejection

/-! Why a checked module has no form in a target. -/
namespace Shading

/-- Why a type or a value has no form in the target. -/
inductive FormError
  | undeclaredStruct (name : Text)
  | noEquivalent (t : Ty)
  | noConstant (form : Text)
  | notAValue (t : Ty)
  | primitive (p : Primitive)
  | unsupported (t : Ty)
  | notStorable (t : Ty)
  | inMember (struct member : Text) (inner : FormError)

def FormError.message : FormError → Text
  | .undeclaredStruct name => "struct " ++ name ++ " is not declared"
  | .noEquivalent t => "type " ++ t.text ++ " has no GLSL equivalent"
  | .noConstant form => "unsupported constant " ++ form
  | .notAValue t => t.text ++ " is not a value type"
  | .primitive p => "unsupported primitive type " ++ p.text
  | .unsupported t => "unsupported type " ++ t.text
  | .notStorable t => t.text ++ " cannot be stored in a buffer"
  | .inMember s m inner => "struct " ++ s ++ " member " ++ m ++ ": " ++ inner.message

/-- What stands in the way of a form in the target at a place of the module. -/
inductive Obstacle
  | emptyModule
  | unchecked (function : Text)
  | constants (e : ConstantError)
  | condition (e : EvalError)
  | conditionType (t : Ty)
  | strayBranch
  -- entry points
  | noEntry
  | noEntryFor (stage : Stage)
  | noEntryNamed (stage : Stage) (name : Text)
  | entryInput (name : Text)
  | unknownStruct (name : Text)
  | unplacedMember (name : Text)
  | builtin (b : Builtin)
  | stage (s : Stage)
  -- forms of types and values
  | form (e : FormError)
  | inMember (name : Text) (e : FormError)
  | inFunction (name : Text) (e : FormError)
  | inParameter (name : Text) (e : FormError)
  | inVariable (name : Text) (e : FormError)
  | inExternal (name : Text) (e : FormError)
  | externalType (name : Text) (t : Ty)
  | constantWithoutValue (name : Text)
  -- expressions and statements
  | unavailableVariable (id : Int)
  | unavailableFunction (id : Int)
  | expression (form : Text)
  | statement (form : Text)
  | callTarget (form : Text)
  | indexTarget (t : Ty)
  | memberNotConstant (struct : Text)
  | memberIndex (v : Value) (struct : Text)
  | binaryOperator (op : BinaryOp)
  | unaryOperator (op : UnaryOp)
  | intrinsic (f : Intrinsic)
  | intrinsicOn (f : Intrinsic) (t : Ty)
  | operands (op : BinaryOp) (l r : Ty)
  | comparison (op : BinaryOp) (p : Primitive)
  | sizeTarget
  | swizzledType (t : Ty)
  | swizzleTarget
  | notAssignable
  | matrixCast (source target : Ty)
  | castTarget (t : Ty)
  | untypedVariable (name : Text)
  | discardStage (stage : Stage)
  | discardCaller (function : Text)
  | strayBreak
  | strayContinue
  -- versions of the target
  | spirvVersion (major minor : UInt8)
  | doubleVersion (version : Text)
  | computeVersion (version : Text)
  | storageVersion (name version : Text)

namespace Obstacle

private def described (f : Text) : Text := if f == Expr.absent.form then f else "*ast." ++ f

def message : Obstacle → Text
  | .emptyModule => "empty module"
  | .unchecked f => "function " ++ f ++ " is not sanitized"
  | .constants e => e.message
  | .condition e => "cannot evaluate condition: " ++ e.message
  | .conditionType t => "condition must be a boolean, got " ++ t.text
  | .strayBranch => "branch outside of a function"
  | .noEntry => "module has no entry point"
  | .noEntryFor s => "module has no " ++ s.text ++ " entry point"
  | .noEntryNamed s name => "module has no " ++ s.text ++ " entry point named " ++ name
  | .entryInput name => "entry point " ++ name ++ " input must be a struct"
  | .unknownStruct name => "unknown struct " ++ name
  | .unplacedMember name => "member " ++ name ++ " needs a location or builtin attribute"
  | .builtin b => "unsupported builtin " ++ b.text
  | .stage s => "unsupported shader stage " ++ s.text
  | .form e => e.message
  | .inMember name e => "member " ++ name ++ ": " ++ e.message
  | .inFunction name e => "function " ++ name ++ ": " ++ e.message
  | .inParameter name e => "parameter " ++ name ++ ": " ++ e.message
  | .inVariable name e => "variable " ++ name ++ ": " ++ e.message
  | .inExternal name e => "external " ++ name ++ ": " ++ e.message
  | .externalType name t => "external " ++ name ++ " has unsupported type " ++ t.text
  | .constantWithoutValue name => "constant " ++ name ++ " has no value"
  | .unavailableVariable id => "variable #" ++ Text.ofInt id ++ " is not available"
  | .unavailableFunction id =>
    "function #" ++ Text.ofInt id ++ " is not available with the current options"
  | .expression f => "unsupported expression " ++ described f
  | .statement f => "unsupported statement " ++ described f
  | .callTarget f => "unsupported call target " ++ described f
  | .indexTarget t => "type " ++ t.text ++ " cannot be indexed"
  | .memberNotConstant s => "member index of " ++ s ++ " must be constant"
  | .memberIndex v s => "invalid member index " ++ v.text ++ " for struct " ++ s
  | .binaryOperator op => "unsupported binary operator " ++ op.text
  | .unaryOperator op => "unsupported unary operator " ++ op.text
  | .intrinsic f => "intrinsic " ++ f.text ++ " is not supported"
  | .intrinsicOn f t => "intrinsic " ++ f.text ++ " is not supported on " ++ t.text
  | .operands op l r =>
    "operator " ++ op.text ++ " is not supported between " ++ l.text ++ " and " ++ r.text
  | .comparison op p => "backend error: operator " ++ op.text ++ " is not supported on " ++ p.text
  | .sizeTarget => "Size can only be applied to a runtime array member of a storage buffer"
  | .swizzledType t => "cannot swizzle a value of type " ++ t.text
  | .swizzleTarget => "swizzle cannot be assigned to"
  | .notAssignable => "expression cannot be assigned to"
  | .matrixCast s t =>
    "matrix cast from " ++ s.text ++ " to " ++ t.text ++ " must be rewritten before emission"
  | .castTarget t => "cannot cast to " ++ t.text
  | .untypedVariable name => "variable " ++ name ++ " has no type"
  | .discardStage s =>
    "discard can only be used in fragment shaders, the function is used by a " ++ s.text ++ " entry point"
  | .discardCaller f =>
    "discard can only be used in fragment shaders, " ++ f ++ " is called from another stage"
  | .strayBreak => "break outside of a loop"
  | .strayContinue => "continue outside of a loop"
  | .spirvVersion major minor =>
    "unsupported SPIR-V version " ++ Text.ofNat major.toNat ++ "." ++ Text.ofNat minor.toNat
  | .doubleVersion v => "64-bit floats require GLSL 4.00, target is " ++ v
  | .computeVersion v => "compute shaders require GLSL 4.30 or GLSL ES 3.10, target is " ++ v
  | .storageVersion name v =>
    "storage buffer " ++ name ++ " requires GLSL 4.30 or GLSL ES 3.10, target is " ++ v

end Obstacle

/-- Why a target has no code for a module. -/
inductive BackendError
  /-- the module does not pass the check that comes before -/
  | checking (e : CheckError)
  | located (span : Span) (o : Obstacle)
  | unlocated (e : FormError)

def BackendError.toFailure : BackendError → Failure
  | .checking e => e.toFailure
  | .located span o => .diagnostic { fault := .backend, span, message := o.message }
  | .unlocated e => .plain e.message

end Shading
