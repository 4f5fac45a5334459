import Shading.Decimal.Reader
import Shading.Text.Quoted
import Shading.Value

/-! The values of literals. -/
namespace Shading.Literal

/-- Why the text of an integer literal has no value. -/
inductive IntError
  | malformed
  | range
deriving DecidableEq, Repr

/-- The number of digits in a base, if they are all digits of it and there is at least one. -/
def natOfBase? (base : Nat) (t : Text) : Option Nat :=
  if t.isEmpty then none
  else t.foldl (fun acc b => do
    let n ← acc
    let d ← Text.hexDigit? b
    if d < base then some (n * base + d) else none) (some 0)

/-- The value of an integer literal: decimal, or hexadecimal after `0x`; unsigned with the ending `u`.
Underscores only part the digits. -/
def int (lexeme : Text) : Except IntError Value := do
  let plain := lexeme.filter (· ≠ Text.byte '_')
  let (isUnsigned, digits) := match Text.dropSuffix? "u" plain with
    | some t => (true, t)
    | none => (false, plain)
  let hex := (Text.dropStart? "0x" digits).or (Text.dropStart? "0X" digits)
  let n ← match hex with
    | some t => (natOfBase? 16 t).elim (throw .malformed) pure
    | none => (natOfBase? 10 digits).elim (throw .malformed) pure
  if UInt64.size ≤ n then throw .malformed
  if isUnsigned then
    if UInt32.size ≤ n then throw .range
    return .u32 n.toUInt32
  if Int32.maxValue.toInt < n then throw .range
  return .i32 (Int32.ofNat n)

/-- The value of a float literal, which may end in `f`; none if it is too large. -/
def float? (lexeme : Text) : Option Value := do
  let plain := ((Text.dropSuffix? "f" lexeme).getD lexeme).filter (· ≠ Text.byte '_')
  let bits := (← Decimal.read? plain).magnitude .single
  guard (bits ≠ FloatFormat.single.infinity)
  return .f32 (Single.ofNat bits)

/-- Why a quoted text has no content. -/
inductive StringError
  | unquoted
  | danglingEscape
  | unknownEscape (b : UInt8)
deriving DecidableEq, Repr

def StringError.message : StringError → Text
  | .unquoted => "missing quotes"
  | .danglingEscape => "dangling escape"
  | .unknownEscape b => "unknown escape \\" ++ Text.ofChar (Char.ofNat b.toNat)

def unescape : Text → Except StringError Text
  | [] => .ok []
  | b :: rest =>
    if b ≠ Text.byte '\\' then do return b :: (← unescape rest)
    else match rest with
      | [] => .error .danglingEscape
      | c :: rest => do
        let d ← if c = Text.byte 'n' then pure (Text.byte '\n')
          else if c = Text.byte 't' then pure (Text.byte '\t')
          else if c = Text.byte '\\' || c = Text.byte '"' then pure c
          else throw (.unknownEscape c)
        return d :: (← unescape rest)

/-- The content of a string literal. -/
def string (lexeme : Text) : Except StringError Text :=
  if lexeme.length < 2 then .error .unquoted
  else unescape (lexeme.drop 1).dropLast

/-- The string literal with a given content. -/
def quote (t : Text) : Text :=
  "\"" ++ t.flatMap escape ++ "\""
where
  escape (b : UInt8) : Text :=
    if b = Text.byte '\\' then "\\\\"
    else if b = Text.byte '"' then "\\\""
    else if b = Text.byte '\n' then "\\n"
    else if b = Text.byte '\t' then "\\t"
    else [b]

end Shading.Literal
