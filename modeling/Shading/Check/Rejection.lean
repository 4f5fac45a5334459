import Shading.Failure
import Shading.Scope
import Shading.Swizzle
import Shading.Typing

/-! What makes a module wrong although its grammar is right. -/
namespace Shading

/-- Why a module is refused. -/
inductive Rejection
  | languageVersion (version : UInt32)
  | redeclared (kind : Category) (name : Text)
  | exportedLocal (name : Text)
  | outsideFunction
  | strayBreak
  | strayContinue
  | unexpectedStatement (form : Text)
  | notAtModuleScope (what : Text)
  -- imports
  | notExported (moduleName name : Text)
  | cyclicImport (moduleName : Text)
  | missingImport (moduleName reason : Text)
  | importDepth (moduleName : Text)
  -- constants and options
  | optionType (name : Text) (t : Ty)
  | optionNotConstant (name : Text) (e : EvalError)
  | optionDefaultType (name : Text) (t wanted : Ty)
  | optionValueType (name : Text) (t wanted : Ty)
  | constantType (name : Text) (wanted t : Ty)
  | constantNotConstant (name : Text)
  | aliasTarget
  -- structures
  | unknownLayout (name : Text)
  | duplicateMember (member struct : Text)
  | memberConditionNotConstant (member : Text)
  | memberConditionType (member : Text) (t : Ty)
  | unknownBuiltin (name : Text)
  | builtinType (builtin : Builtin) (wanted t : Ty)
  | builtinAndLocation (member : Text)
  -- resources
  | externalType (name : Text) (t : Ty)
  | missingBinding (name : Text)
  | sharedBinding (name : Text) (set binding : UInt32) (other : Text)
  -- functions
  | duplicateParameter (name : Text)
  | conditionType (t : Ty)
  | conditionNotConstant
  | conditionTypeOf (what : Text) (t : Ty)
  | variableWithoutValue (name : Text)
  | variableInit (name : Text) (wanted t : Ty)
  | variableType (name : Text) (t : Ty)
  | rangeType (t : Ty)
  | rangeBoundType (t wanted : Ty)
  | eachType (t : Ty)
  | missingResult (function : Text) (wanted : Ty)
  | superfluousResult (function : Text)
  | resultType (function : Text) (wanted t : Ty)
  -- attributes
  | identifierExpected
  | notConstant (what : Text)
  | notUnsigned (what : Text) (v : Value)
  | notBoolean (t : Ty)
  | unknownUnroll (name : Text)
  | workgroupSize (v : Value)
  | workgroupCount
  | unknownStage (name : Text)
  | unknownDepthWrite (name : Text)
  | onlyOn (what : Text) (stage : Text)
  | missingWorkgroup (name : Text)
  -- entry points
  | entryParameterCount (name : Text)
  | entryParameterType (name : Text) (t : Ty)
  | entryResultType (name : Text) (t : Ty)
  | computeResult (name : Text)
  | unknownStruct (name : Text)
  | builtinStage (builtin : Text) (stage : Stage)
  | builtinDirection (builtin : Text) (stage : Stage) (direction : Text)
  | computeLocation (member : Text)
  | sharedLocation (location : UInt32) (member other : Text)
  | locationType (direction member : Text) (t : Ty)
  | unplacedMember (member direction struct : Text)
  -- expressions
  | unknownId (what : Text) (id : Int)
  | unexpectedExpression (form : Text)
  | unknownIdentifier (name : Text)
  | typing (e : TypeError)
  | evaluation (e : EvalError)
  | storedType (op : AssignOp) (t target : Ty)
  | assignedType (t target : Ty)
  | externalTarget (name : Text) (t : Ty)
  | repeatedComponent (components : List UInt32)
  | constantTarget (name : Text)
  | notAssignable
  | ternaryTypes (t f : Ty)
  | indexType (t : Ty)
  | indexTarget (t : Ty)
  | indexRange (index : Int) (t : Ty)
  | memberNotConstant (struct : Text)
  | memberRange (index : Int) (struct : Text)
  | noStructMember (struct member : Text)
  | invalidSwizzle (name : Text)
  | noMember (t : Ty) (member : Text)
  | scalarSwizzle (components : List UInt32)
  | swizzleRange (components : List UInt32) (t : Ty)
  | swizzleCount
  | selfCall (function : Text)
  | entryCall (function : Text)
  | callCount (function : Text) (wanted count : Nat)
  | callArgument (index : Nat) (function : Text) (t wanted : Ty)
  | notCallable (t : Ty)
  | sizeArguments
  | noMethod (t : Ty) (method : Text)
  -- types
  | missingTypeArguments (name : Text)
  | typeExpected
  | typeArgumentCount (name : Text) (wanted count : Nat)
  | primitiveExpected (name : Text) (t : Ty)
  | matrixComponent (p : Primitive)
  | samplerComponent (p : Primitive)
  | arrayArguments (name : Text)
  | emptyArray
  | structExpected (name : Text) (t : Ty)

namespace Rejection

private def num (n : UInt32) : Text := Text.ofNat n.toNat

def message : Rejection → Text
  | .languageVersion v => "unsupported language version " ++ num (v / 100) ++ "." ++ num (v % 100)
  | .redeclared kind name => kind.text ++ " " ++ name ++ " is already declared in this scope"
  | .exportedLocal name => name ++ " cannot be exported from a function"
  | .outsideFunction => "statement is only allowed inside a function"
  | .strayBreak => "break outside of a loop"
  | .strayContinue => "continue outside of a loop"
  | .unexpectedStatement form => "unexpected statement " ++ form
  | .notAtModuleScope what => what ++ " must be declared at module scope"
  | .notExported m name => "module " ++ m ++ " does not export " ++ name
  | .cyclicImport m => "cyclic import of module " ++ m
  | .missingImport m reason => "cannot import module " ++ m ++ ": " ++ reason
  | .importDepth m => "imports are nested too deeply at module " ++ m
  | .optionType name t => "option " ++ name ++ " must have a scalar or vector type, got " ++ t.text
  | .optionNotConstant name e => "default value of option " ++ name ++ " must be constant: " ++ e.message
  | .optionDefaultType name t wanted =>
    "default value of option " ++ name ++ " has type " ++ t.text ++ ", expected " ++ wanted.text
  | .optionValueType name t wanted =>
    "value given for option " ++ name ++ " has type " ++ t.text ++ ", expected " ++ wanted.text
  | .constantType name wanted t =>
    "cannot initialize constant " ++ name ++ " of type " ++ wanted.text ++ " with a value of type " ++ t.text
  | .constantNotConstant name => "initializer of constant " ++ name ++ " is not a compile-time constant"
  | .aliasTarget => "alias target must be a type, struct or function"
  | .unknownLayout name => "unknown memory layout " ++ name
  | .duplicateMember m s => "duplicate member " ++ m ++ " in struct " ++ s
  | .memberConditionNotConstant m => "condition of member " ++ m ++ " must be a constant expression"
  | .memberConditionType m t => "condition of member " ++ m ++ " must be a boolean, got " ++ t.text
  | .unknownBuiltin name => "unknown builtin " ++ name
  | .builtinType b wanted t => "builtin " ++ b.text ++ " must have type " ++ wanted.text ++ ", got " ++ t.text
  | .builtinAndLocation m => "member " ++ m ++ " cannot have both a builtin and a location"
  | .externalType name t => "external " ++ name ++ " must be a uniform, storage or sampler, got " ++ t.text
  | .missingBinding name => "external " ++ name ++ " requires a binding"
  | .sharedBinding name set binding other =>
    "external " ++ name ++ " uses set " ++ num set ++ " binding " ++ num binding ++ " already used by " ++ other
  | .duplicateParameter name => "duplicate parameter " ++ name
  | .conditionType t => "condition must be a boolean, got " ++ t.text
  | .conditionNotConstant => "condition must be a constant expression"
  | .conditionTypeOf what t => what ++ " condition must be a boolean, got " ++ t.text
  | .variableWithoutValue name =>
    "variable " ++ name ++ " is initialized with an expression that has no value"
  | .variableInit name wanted t =>
    "cannot initialize variable " ++ name ++ " of type " ++ wanted.text ++ " with a value of type " ++ t.text
  | .variableType name t => "variable " ++ name ++ " cannot hold a value of type " ++ t.text
  | .rangeType t => "for loop bounds must be i32 or u32, got " ++ t.text
  | .rangeBoundType t wanted => "for loop bound has type " ++ t.text ++ ", expected " ++ wanted.text
  | .eachType t => "for-each requires an array, got " ++ t.text
  | .missingResult f wanted => "function " ++ f ++ " must return a value of type " ++ wanted.text
  | .superfluousResult f => "function " ++ f ++ " does not return a value"
  | .resultType f wanted t => "function " ++ f ++ " returns " ++ wanted.text ++ ", got " ++ t.text
  | .identifierExpected => "expected an identifier"
  | .notConstant what => what ++ " must be a constant expression"
  | .notUnsigned what v => what ++ " must be a non-negative integer, got " ++ v.text
  | .notBoolean t => "expected a boolean, got " ++ t.text
  | .unknownUnroll name => "unknown unroll mode " ++ name
  | .workgroupSize v => "workgroup size must be a positive integer, got " ++ v.text
  | .workgroupCount => "workgroup takes at most 3 sizes"
  | .unknownStage name => "unknown shader stage " ++ name
  | .unknownDepthWrite name => "unknown depth write mode " ++ name
  | .onlyOn what stage => what ++ " is only valid on " ++ stage ++ " entry points"
  | .missingWorkgroup name => "compute entry point " ++ name ++ " requires a workgroup size"
  | .entryParameterCount name => "entry point " ++ name ++ " takes at most one parameter"
  | .entryParameterType name t => "entry point " ++ name ++ " parameter must be a struct, got " ++ t.text
  | .entryResultType name t => "entry point " ++ name ++ " must return a struct or nothing, got " ++ t.text
  | .computeResult name => "compute entry point " ++ name ++ " cannot return a value"
  | .unknownStruct name => "unknown struct " ++ name
  | .builtinStage b stage => "builtin " ++ b ++ " is not available in " ++ stage.text ++ " stage"
  | .builtinDirection b stage direction =>
    "builtin " ++ b ++ " cannot be used as " ++ stage.text ++ " " ++ direction
  | .computeLocation m => "compute entry point inputs can only be builtins, " ++ m ++ " has a location"
  | .sharedLocation l m other => "location " ++ num l ++ " of " ++ m ++ " is already used by " ++ other
  | .locationType direction m t => direction ++ " " ++ m ++ " of type " ++ t.text ++ " cannot have a location"
  | .unplacedMember m direction s =>
    "member " ++ m ++ " of " ++ direction ++ " " ++ s ++ " needs a location or builtin attribute"
  | .unknownId what id => "unknown " ++ what ++ " #" ++ Text.ofInt id
  | .unexpectedExpression form => "unexpected expression " ++ form
  | .unknownIdentifier name => "unknown identifier " ++ name
  | .typing e => e.message
  | .evaluation e => e.message
  | .storedType op t target =>
    "operator " ++ op.text ++ " produces " ++ t.text ++ ", which cannot be stored in " ++ target.text
  | .assignedType t target => "cannot assign a value of type " ++ t.text ++ " to " ++ target.text
  | .externalTarget name t => "cannot assign to external " ++ name ++ " of type " ++ t.text
  | .repeatedComponent cs => "swizzle " ++ Swizzle.text cs ++ " cannot be assigned: it repeats a component"
  | .constantTarget name => "cannot assign to constant " ++ name
  | .notAssignable => "expression cannot be assigned to"
  | .ternaryTypes t f => "ternary branches have different types " ++ t.text ++ " and " ++ f.text
  | .indexType t => "index must be an integer, got " ++ t.text
  | .indexTarget t => "type " ++ t.text ++ " cannot be indexed"
  | .indexRange i t => "index " ++ Text.ofInt i ++ " is out of range for " ++ t.text
  | .memberNotConstant s => "struct " ++ s ++ " can only be indexed by a constant"
  | .memberRange i s => "member index " ++ Text.ofInt i ++ " out of range for struct " ++ s
  | .noStructMember s m => "struct " ++ s ++ " has no member " ++ m
  | .invalidSwizzle name => "invalid swizzle " ++ name
  | .noMember t m => "type " ++ t.text ++ " has no member " ++ m
  | .scalarSwizzle cs => "scalar swizzle can only use the first component, got " ++ Swizzle.text cs
  | .swizzleRange cs t => "swizzle " ++ Swizzle.text cs ++ " out of range for " ++ t.text
  | .swizzleCount => "swizzle must select 1 to 4 components"
  | .selfCall f => "function " ++ f ++ " cannot call itself: recursion is not supported"
  | .entryCall f => "entry point " ++ f ++ " cannot be called"
  | .callCount f wanted n =>
    "function " ++ f ++ " expects " ++ Text.ofNat wanted ++ " argument(s), got " ++ Text.ofNat n
  | .callArgument i f t wanted =>
    "argument " ++ Text.ofNat i ++ " of " ++ f ++ " has type " ++ t.text ++ ", expected " ++ wanted.text
  | .notCallable t => "expression of type " ++ t.text ++ " cannot be called"
  | .sizeArguments => "Size takes no arguments"
  | .noMethod t m => "type " ++ t.text ++ " has no method " ++ m
  | .missingTypeArguments name => "type " ++ name ++ " requires type arguments"
  | .typeExpected => "expected a type"
  | .typeArgumentCount name wanted n =>
    name ++ " expects " ++ Text.ofNat wanted ++ " type argument(s), got " ++ Text.ofNat n
  | .primitiveExpected name t => name ++ " expects a primitive type, got " ++ t.text
  | .matrixComponent p => "matrices must have a floating-point component type, got " ++ p.text
  | .samplerComponent p => "samplers only support f32, got " ++ p.text
  | .arrayArguments name => name ++ " expects an element type and an optional size"
  | .emptyArray => "array size must be positive"
  | .structExpected name t => name ++ " expects a struct, got " ++ t.text

end Rejection

/-- A refusal at a place, in a module itself or in one that it imports. -/
inductive CheckError
  | located (span : Span) (r : Rejection)
  | within (moduleName : Text) (inner : CheckError)

def CheckError.toFailure : CheckError → Failure
  | .located span r => .diagnostic { fault := .semantic, span, message := r.message }
  | .within m inner => .within ("in module " ++ m) inner.toFailure

end Shading
