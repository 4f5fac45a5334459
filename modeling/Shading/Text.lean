/-! Texts as byte strings. UTF-8 is one reading of a text and not a promise about it. -/
namespace Shading

/-- A text is the list of its bytes. -/
abbrev Text := List UInt8

namespace Text

/-- The UTF-8 bytes of a string. -/
def ofString (s : String) : Text := s.toUTF8.data.toList

instance : Coe String Text := ⟨ofString⟩

/-- The byte of an ASCII character. -/
def byte (c : Char) : UInt8 := c.toNat.toUInt8

def ofChar (c : Char) : Text := ofString (String.singleton c)

/-- Decimal digits, without leading zeros. -/
def ofNat (n : Nat) : Text := (Nat.toDigits 10 n).map byte

def ofInt : Int → Text
  | .ofNat n => ofNat n
  | .negSucc n => byte '-' :: ofNat (n + 1)

instance : Coe Nat Text := ⟨ofNat⟩
instance : Coe Int Text := ⟨ofInt⟩
instance : Coe UInt8 Text := ⟨fun n => ofNat n.toNat⟩
instance : Coe UInt32 Text := ⟨fun n => ofNat n.toNat⟩

def ofBool (b : Bool) : Text := if b then "true" else "false"

/-- Concatenation with a separator between neighbours. -/
def join (sep : Text) : List Text → Text
  | [] => []
  | [t] => t
  | t :: ts => t ++ (sep ++ join sep ts)

/-- The same text several times over. -/
def times (n : Nat) (t : Text) : Text := (List.replicate n t).flatten

/-- Cuts a text at every occurrence of a byte; there is always one piece more than cuts. -/
def cut (b : UInt8) : Text → List Text
  | [] => [[]]
  | c :: cs =>
    if c = b then [] :: cut b cs
    else match cut b cs with
      | [] => [[c]]
      | piece :: pieces => (c :: piece) :: pieces

/-- Does the needle occur at some position of the text? -/
def includes (needle : Text) : Text → Bool
  | [] => needle.isEmpty
  | c :: cs => needle.isPrefixOf (c :: cs) || includes needle cs

/-- Removes one occurrence of the ending, if there is one. -/
def dropSuffix? (ending t : Text) : Option Text :=
  if ending.isSuffixOf t then some (t.take (t.length - ending.length)) else none

/-- Removes one occurrence of the beginning, if there is one. -/
def dropStart? (beginning t : Text) : Option Text :=
  if beginning.isPrefixOf t then some (t.drop beginning.length) else none

/-- Pads on the left with blanks to a least width. -/
def padLeft (width : Nat) (t : Text) : Text := times (width - t.length) " " ++ t

/-- Pads on the right with blanks to a least width. -/
def padRight (width : Nat) (t : Text) : Text := t ++ times (width - t.length) " "

/-- Byte-wise lexicographic order. -/
def before : Text → Text → Bool
  | _, [] => false
  | [], _ :: _ => true
  | a :: as, b :: bs => a < b || (a = b && before as bs)

/-- Reads decimal digits only. -/
def toNat? (t : Text) : Option Nat :=
  if t.isEmpty then none
  else t.foldl (fun acc b => do
    let n ← acc
    if byte '0' ≤ b ∧ b ≤ byte '9' then some (n * 10 + (b - byte '0').toNat) else none) (some 0)

/-- The value of a hexadecimal digit of either case. -/
def hexDigit? (b : UInt8) : Option Nat :=
  if byte '0' ≤ b ∧ b ≤ byte '9' then some (b - byte '0').toNat
  else if byte 'a' ≤ b ∧ b ≤ byte 'f' then some ((b - byte 'a').toNat + 10)
  else if byte 'A' ≤ b ∧ b ≤ byte 'F' then some ((b - byte 'A').toNat + 10)
  else none

/-- Lower-case hexadecimal digits, padded with zeros to a least width. -/
def hex (width n : Nat) : Text :=
  let digits := (Nat.toDigits 16 n).map byte
  times (width - digits.length) "0" ++ digits

end Text

end Shading

-- The cyclic redundancy check of a text with the reflected polynomial `0xEDB88320`.
namespace Shading.Checksum

/-- Divides one bit out of the register. -/
private def shift (r : UInt32) : UInt32 :=
  if r % 2 = 1 then r >>> 1 ^^^ 0xEDB88320 else r >>> 1

/-- Feeds one byte into the register. -/
private def feed (r : UInt32) (b : UInt8) : UInt32 :=
  Nat.repeat shift 8 (r ^^^ b.toUInt32)

def crc32 (t : Text) : UInt32 := t.foldl feed 0xFFFFFFFF ^^^ 0xFFFFFFFF

end Shading.Checksum
