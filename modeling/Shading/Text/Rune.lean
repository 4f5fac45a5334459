import Shading.Text

/-! The runes of a text: maximal valid UTF-8 sequences, and single bytes where there is none. -/
namespace Shading

/-- A character of a text with the bytes that spell it. A byte that begins no valid UTF-8 sequence
is a rune of its own and reads as U+FFFD. -/
structure Rune where
  char : Char
  bytes : Text
deriving DecidableEq, Repr

namespace Rune

/-- The character that stands for a byte that is no UTF-8. -/
def replacement : Char := Char.ofNat 0xFFFD

def invalid (b : UInt8) : Rune := ⟨replacement, [b]⟩

def continuation (b : UInt8) : Bool := 0x80 ≤ b && b ≤ 0xBF

/-- The payload of a continuation byte. -/
def low (b : UInt8) : Nat := b.toNat % 64

/-- The least and the greatest second byte of the sequences that start with a given byte. They keep
out overlong forms, surrogates and values past U+10FFFF. -/
def secondRange (b : UInt8) : UInt8 × UInt8 :=
  if b = 0xE0 then (0xA0, 0xBF)
  else if b = 0xED then (0x80, 0x9F)
  else if b = 0xF0 then (0x90, 0xBF)
  else if b = 0xF4 then (0x80, 0x8F)
  else (0x80, 0xBF)

/-- The first rune of a non-empty text. -/
def first (b : UInt8) (rest : Text) : Rune :=
  if b < 0x80 then ⟨Char.ofNat b.toNat, [b]⟩
  else if 0xC2 ≤ b && b ≤ 0xDF then
    match rest with
    | c :: _ => if continuation c then ⟨Char.ofNat (b.toNat % 32 * 64 + low c), [b, c]⟩ else invalid b
    | [] => invalid b
  else if 0xE0 ≤ b && b ≤ 0xEF then
    match rest with
    | c :: d :: _ =>
      let (least, most) := secondRange b
      if least ≤ c && c ≤ most && continuation d then
        ⟨Char.ofNat ((b.toNat % 16 * 64 + low c) * 64 + low d), [b, c, d]⟩
      else invalid b
    | _ => invalid b
  else if 0xF0 ≤ b && b ≤ 0xF4 then
    match rest with
    | c :: d :: e :: _ =>
      let (least, most) := secondRange b
      if least ≤ c && c ≤ most && continuation d && continuation e then
        ⟨Char.ofNat (((b.toNat % 8 * 64 + low c) * 64 + low d) * 64 + low e), [b, c, d, e]⟩
      else invalid b
    | _ => invalid b
  else invalid b

/-- The runes of a text, given how many of the bytes in front belong to a rune already taken. -/
def scan : Nat → Text → List Rune
  | _, [] => []
  | skip + 1, _ :: rest => scan skip rest
  | 0, b :: rest =>
    let r := first b rest
    r :: scan (r.bytes.length - 1) rest

/-- The runes of a text in order. -/
def ofText (t : Text) : List Rune := scan 0 t

/-- The bytes that a list of runes spells. -/
def text (rs : List Rune) : Text := rs.flatMap Rune.bytes

def width (r : Rune) : Nat := r.bytes.length

end Rune

end Shading

namespace Shading.Blank

def isBlank (c : Char) : Bool :=
  let n := c.toNat
  (9 ≤ n && n ≤ 13) || n == 0x20 || n == 0x85 || n == 0xA0 || n == 0x1680 ||
    (0x2000 ≤ n && n ≤ 0x200A) || n == 0x2028 || n == 0x2029 || n == 0x202F || n == 0x205F || n == 0x3000

/-- The text without blanks at its ends. -/
def trim (t : Text) : Text :=
  let blank (r : Rune) : Bool := isBlank r.char
  Rune.text ((((Rune.ofText t).dropWhile blank).reverse.dropWhile blank).reverse)

end Shading.Blank
