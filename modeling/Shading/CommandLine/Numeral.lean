import Shading.Decimal.Reader
import Shading.Text.Quoted
import Shading.Text.Rune
import Shading.Value

/-! Numbers as they are written on a command line. -/
namespace Shading.CommandLine

/-- Why a text is no number. -/
inductive NumeralFault
  | malformed
  | range
deriving DecidableEq, Repr

/-- A text that is no number of the kind that was asked for. -/
structure NumeralError where
  kind : Text
  text : Text
  fault : NumeralFault

def NumeralError.message (e : NumeralError) : Text :=
  "strconv.Parse" ++ e.kind ++ ": parsing " ++ Quoted.text e.text ++
    match e.fault with
    | .malformed => Text.ofString ": invalid syntax"
    | .range => ": value out of range"

namespace Numeral

/-- The lower-case form of an ASCII letter. -/
def lower (b : UInt8) : UInt8 := b ||| 0x20

/-- The value of a digit or of a letter that stands for one. -/
def digit? (b : UInt8) : Option Nat :=
  if Decimal.isDigit b then some (b - Text.byte '0').toNat
  else if Text.byte 'a' ≤ lower b && lower b ≤ Text.byte 'z' then
    some ((lower b - Text.byte 'a').toNat + 10)
  else none

def underscore : UInt8 := Text.byte '_'

/-- Does each underscore follow a digit, and a digit each underscore? The flag tells whether the last
character was a digit, was an underscore, or neither. -/
def separated (hex : Bool) : Option Bool → Text → Bool
  | last, [] => last != some false
  | last, b :: rest =>
    if Decimal.isDigit b || (hex && Text.byte 'a' ≤ lower b && lower b ≤ Text.byte 'f') then
      separated hex (some true) rest
    else if b = underscore then last == some true && separated hex (some false) rest
    else last != some false && separated hex none rest

/-- The text without a sign. -/
def unsignedPart : Text → Text
  | b :: rest => if b = Text.byte '-' || b = Text.byte '+' then rest else b :: rest
  | [] => []

/-- Do underscores stand only between digits, or between a mark of the base and a digit? -/
def wellSeparated (t : Text) : Bool :=
  match unsignedPart t with
  | z :: m :: rest =>
    if z = Text.byte '0' && (Text.ofString "box").contains (lower m) then
      separated (lower m = Text.byte 'x') (some true) rest
    else separated false none (z :: m :: rest)
  | rest => separated false none rest

/-- The base of a numeral and the digits in it. -/
def based (t : Text) : Nat × Text :=
  match t with
  | z :: rest =>
    if z ≠ Text.byte '0' then (10, t)
    else match rest with
      | m :: d :: ds =>
        if lower m = Text.byte 'b' then (2, d :: ds)
        else if lower m = Text.byte 'o' then (8, d :: ds)
        else if lower m = Text.byte 'x' then (16, d :: ds)
        else (8, rest)
      | _ => (8, rest)
  | [] => (10, [])

/-- The number of digits in a base, below a bound. The first fault from the left counts. -/
def digits (base bound : Nat) : Nat → Text → Except NumeralFault Nat
  | n, [] => .ok n
  | n, b :: rest =>
    if b = underscore then digits base bound n rest
    else match digit? b with
      | none => .error .malformed
      | some d =>
        if base ≤ d then .error .malformed
        else if bound ≤ n * base + d then .error .range
        else digits base bound (n * base + d) rest

/-- A natural number below a bound: decimal, or after `0b`, `0o`, `0` or `0x` in another base.
Underscores may part its digits. -/
def natural (bound : Nat) (t : Text) : Except NumeralFault Nat := do
  if t.isEmpty then throw .malformed
  let (base, ds) := based t
  let n ← digits base bound 0 ds
  if t.contains underscore && !wellSeparated t then throw .malformed
  return n

/-- An integer of so many bits with a sign that may be missing. -/
def integer (bits : Nat) (t : Text) : Except NumeralFault Int := do
  let negative := t.head? == some (Text.byte '-')
  let n ← natural (1 <<< bits) (unsignedPart t)
  let limit := 1 <<< (bits - 1)
  if negative then
    if limit < n then throw .range
    return -(n : Int)
  if limit ≤ n then throw .range
  return n

/-- The digits of a number with a point: those before it, those after it, and the rest. -/
def mantissa (isDigit : UInt8 → Bool) (t : Text) : Text × Text × Text :=
  let part (b : UInt8) : Bool := isDigit b || b = underscore
  let plain (ds : Text) : Text := ds.filter (· ≠ underscore)
  match t.dropWhile part with
  | p :: rest =>
    if p = Text.byte '.' then (plain (t.takeWhile part), plain (rest.takeWhile part), rest.dropWhile part)
    else (plain (t.takeWhile part), [], p :: rest)
  | [] => (plain t, [], [])

/-- An exponent after its mark. -/
def exponent? (t : Text) : Option Int := do
  let ds := unsignedPart t
  guard (ds.head?.any Decimal.isDigit && ds.all fun b => Decimal.isDigit b || b = underscore)
  let e := Decimal.exponentOf (ds.filter (· ≠ underscore))
  return if t.head? == some (Text.byte '-') then -(e : Int) else e

/-- The magnitude of a hexadecimal number, which has to have a binary exponent. -/
def hexMagnitude? (t : Text) : Option Nat := do
  let (whole, fraction, rest) := mantissa (fun b => (Text.hexDigit? b).isSome) t
  guard (!(whole ++ fraction).isEmpty)
  match rest with
  | mark :: rest =>
    guard (lower mark = Text.byte 'p')
    let e := (← exponent? rest) - 4 * fraction.length
    let m := (whole ++ fraction).foldl (fun n b => n * 16 + (Text.hexDigit? b).getD 0) 0
    return FloatFormat.single.roundRatio (m <<< e.toNat) (1 <<< (-e).toNat)
  | [] => none

/-- The magnitude of a decimal number. -/
def decimalMagnitude? (t : Text) : Option Nat := do
  let (whole, fraction, rest) := mantissa Decimal.isDigit t
  guard (!(whole ++ fraction).isEmpty)
  let e ← match rest with
    | mark :: rest => if lower mark = Text.byte 'e' then exponent? rest else none
    | [] => some 0
  return Decimal.Spelling.magnitude .single ⟨whole, fraction, e⟩

/-- A number of the 32-bit format, the nearest to the one that is written. -/
def float (t : Text) : Except NumeralFault Single := do
  let negative := t.head? == some (Text.byte '-')
  let magnitude? := match unsignedPart t with
    | z :: x :: d :: rest =>
      if z = Text.byte '0' && lower x = Text.byte 'x' then hexMagnitude? (d :: rest)
      else decimalMagnitude? (z :: x :: d :: rest)
    | rest => decimalMagnitude? rest
  match magnitude? with
  | none => throw .malformed
  | some m =>
    if t.contains underscore && !wellSeparated t then throw .malformed
    if m = FloatFormat.single.infinity then throw .range
    return Single.ofNat (FloatFormat.single.withSign negative m)

end Numeral

/-- Why a value of an option cannot be used. -/
inductive DefinitionError
  | unnamed (text : Text)
  | empty (name : Text)
  | number (name : Text) (e : NumeralError)

def DefinitionError.message : DefinitionError → Text
  | .unnamed text => "invalid option " ++ Quoted.text text ++ ": missing name"
  | .empty name => "invalid value for option " ++ name ++ ": empty value"
  | .number name e => "invalid value for option " ++ name ++ ": " ++ e.message

/-- Reads a number: one that ends in `u` is unsigned, and one with a point or an exponent is a float. -/
def numberValue (t : Text) : Except NumeralError Value :=
  let failed (kind : Text) (text : Text) (fault : NumeralFault) : NumeralError := ⟨kind, text, fault⟩
  match Text.dropSuffix? "u" t with
  | some digits =>
    ((Numeral.natural UInt32.size digits).map fun n => .u32 n.toUInt32).mapError (failed "Uint" digits)
  | none =>
    if t.any (Text.ofString ".eE").contains && !(Text.ofString "0x").isPrefixOf t then
      ((Numeral.float t).map .f32).mapError (failed "Float" t)
    else ((Numeral.integer 32 t).map fun n => .i32 n.toInt32).mapError (failed "Int" t)

/-- Reads a name and a value with an equals sign between them. A name alone stands for a truth. -/
def definition (t : Text) : Except DefinitionError (Text × Value) := do
  let start := t.takeWhile (· ≠ Text.byte '=')
  let name := Blank.trim start
  if name.isEmpty then throw (.unnamed t)
  if start.length = t.length then return (name, .bool true)
  let value := Blank.trim (t.drop (start.length + 1))
  if value == Text.ofString "true" then return (name, .bool true)
  if value == Text.ofString "false" then return (name, .bool false)
  if value.isEmpty then throw (.empty name)
  match numberValue value with
  | .ok v => return (name, v)
  | .error e => throw (.number name e)

end Shading.CommandLine
