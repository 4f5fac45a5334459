import Shading.CommandLine.Numeral

/-! Flags of a command line. -/
namespace Shading.CommandLine

/-- What a flag takes, and what it changes. -/
inductive Argument (σ : Type)
  /-- nothing, or a truth value after an equals sign -/
  | switch (set : Bool → σ → σ)
  | number (set : Int → σ → σ)
  | text (default : Text) (set : Text → σ → σ)
  /-- a text, once for each time the flag is given -/
  | list (set : Text → σ → σ)

structure Flag (σ : Type) where
  name : Text
  usage : Text
  argument : Argument σ

/-- Why arguments cannot be used. -/
inductive FlagError
  | help
  | malformed (arg : Text)
  | unknown (name : Text)
  | missingValue (name : Text)
  | badSwitch (name value : Text)
  | badNumber (name value : Text) (fault : NumeralFault)

namespace FlagError

def isHelp : FlagError → Bool
  | .help => true
  | _ => false

/-- What is said before the usage. -/
def message : FlagError → Text
  | .help => []
  | .malformed arg => "bad flag syntax: " ++ arg ++ "\n"
  | .unknown name => "flag provided but not defined: -" ++ name ++ "\n"
  | .missingValue name => "flag needs an argument: -" ++ name ++ "\n"
  | .badSwitch name value =>
    "invalid boolean value " ++ Quoted.text value ++ " for -" ++ name ++ ": parse error\n"
  | .badNumber name value fault =>
    "invalid value " ++ Quoted.text value ++ " for flag -" ++ name ++
      match fault with
      | .malformed => Text.ofString ": parse error\n"
      | .range => ": value out of range\n"

end FlagError

namespace Flag

variable {σ : Type}

/-- The flag as it is explained in the usage. -/
def description (f : Flag σ) : Text :=
  let kind : Text := match f.argument with
    | .switch _ => []
    | .number _ => " int"
    | .text .. => " string"
    | .list _ => " value"
  let default : Text := match f.argument with
    | .text (b :: bs) _ => " (default " ++ Quoted.text (b :: bs) ++ ")"
    | _ => []
  let head := "  -" ++ f.name ++ kind
  head ++ (if head.length ≤ 4 then Text.ofString "\t" else "\n    \t") ++ f.usage ++ default ++ "\n"

/-- The explanations of flags in the order of their names. -/
def descriptions (flags : List (Flag σ)) : Text :=
  (flags.mergeSort fun a b => !b.name.before a.name).flatMap description

private def truth? (t : Text) : Option Bool :=
  if (["1", "t", "T", "true", "TRUE", "True"] : List Text).contains t then some true
  else if (["0", "f", "F", "false", "FALSE", "False"] : List Text).contains t then some false
  else none

/-- Takes up a flag with its value. -/
private def apply (f : Flag σ) (name value : Text) (config : σ) : Except FlagError σ :=
  match f.argument with
  | .switch set => (truth? value).elim (.error (.badSwitch name value)) fun b => .ok (set b config)
  | .number set =>
    match Numeral.integer 64 value with
    | .ok n => .ok (set n config)
    | .error fault => .error (.badNumber name value fault)
  | .text _ set | .list set => .ok (set value config)

private def isSwitch (f : Flag σ) : Bool :=
  match f.argument with
  | .switch _ => true
  | _ => false

/-- The name of a flag, and the value after an equals sign. -/
private def nameAndValue (t : Text) : Text × Option Text :=
  let name := t.takeWhile (· ≠ Text.byte '=')
  if name.length < t.length then (name, some (t.drop (name.length + 1))) else (name, none)

/-- What the first argument is. -/
private inductive Form
  | operand
  | separator
  | flag (text : Text)
  | malformed

private def formOf : Text → Form
  | d :: e :: rest =>
    if d ≠ Text.byte '-' then .operand
    else
      let text := if e = Text.byte '-' then rest else e :: rest
      match text with
      | [] => .separator
      | b :: _ => if b = Text.byte '-' || b = Text.byte '=' then .malformed else .flag text
  | _ => .operand

/-- Takes up flags until there is an argument that is none, and gives back the arguments from there on. -/
def parse (flags : List (Flag σ)) (config : σ) : List Text → Except FlagError (σ × List Text)
  | [] => .ok (config, [])
  | arg :: args =>
    match formOf arg with
    | .operand => .ok (config, arg :: args)
    | .separator => .ok (config, args)
    | .malformed => .error (.malformed arg)
    | .flag text =>
      let (name, value) := nameAndValue text
      match flags.find? (·.name == name) with
      | none =>
        if name == Text.ofString "help" || name == Text.ofString "h" then .error .help
        else .error (.unknown name)
      | some f =>
        match value, f.isSwitch, args with
        | some value, _, args => do parse flags (← f.apply name value config) args
        | none, true, args => do parse flags (← f.apply name "true" config) args
        | none, false, value :: args => do parse flags (← f.apply name value config) args
        | none, false, [] => .error (.missingValue name)

end Flag

end Shading.CommandLine
