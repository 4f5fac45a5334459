import Shading.Source

/-! The tokens of the language. -/
namespace Shading

/-- The kind of a token. The constructors that start with `kw` are keywords. -/
inductive TokenKind
  | endOfFile
  | identifier | intLiteral | floatLiteral | stringLiteral
  | plus | minus | star | slash | percent | ampersand | pipe | caret | tilde | bang | equal | less
  | greater | dot | comma | colon | semicolon | question | arrow | equalEqual | bangEqual | lessEqual
  | greaterEqual | ampAmp | pipePipe | lessLess | greaterGreater | plusEqual | minusEqual | starEqual
  | slashEqual | percentEqual | ampAmpEqual | pipePipeEqual
  | leftParen | rightParen | leftBrace | rightBrace | leftBracket | rightBracket
  | kwAlias | kwAs | kwBreak | kwConst | kwContinue | kwDiscard | kwElse | kwExternal | kwFalse | kwFn
  | kwFor | kwFrom | kwIf | kwImport | kwIn | kwLet | kwModule | kwOption | kwReturn | kwStruct
  | kwTrue | kwWhile
deriving DecidableEq, Repr

namespace TokenKind

/-- The spelling of an operator, a bracket or a keyword, and a description of any other kind. -/
def text : TokenKind → Text
  | .endOfFile => "end of file" | .identifier => "identifier" | .intLiteral => "integer literal"
  | .floatLiteral => "float literal" | .stringLiteral => "string literal"
  | .plus => "+" | .minus => "-" | .star => "*" | .slash => "/" | .percent => "%"
  | .ampersand => "&" | .pipe => "|" | .caret => "^" | .tilde => "~" | .bang => "!"
  | .equal => "=" | .less => "<" | .greater => ">" | .dot => "." | .comma => "," | .colon => ":"
  | .semicolon => ";" | .question => "?" | .arrow => "->" | .equalEqual => "==" | .bangEqual => "!="
  | .lessEqual => "<=" | .greaterEqual => ">=" | .ampAmp => "&&" | .pipePipe => "||"
  | .lessLess => "<<" | .greaterGreater => ">>" | .plusEqual => "+=" | .minusEqual => "-="
  | .starEqual => "*=" | .slashEqual => "/=" | .percentEqual => "%=" | .ampAmpEqual => "&&="
  | .pipePipeEqual => "||="
  | .leftParen => "(" | .rightParen => ")" | .leftBrace => "\x7b" | .rightBrace => "\x7d"
  | .leftBracket => "[" | .rightBracket => "]"
  | .kwAlias => "alias" | .kwAs => "as" | .kwBreak => "break" | .kwConst => "const"
  | .kwContinue => "continue" | .kwDiscard => "discard" | .kwElse => "else"
  | .kwExternal => "external" | .kwFalse => "false" | .kwFn => "fn" | .kwFor => "for"
  | .kwFrom => "from" | .kwIf => "if" | .kwImport => "import" | .kwIn => "in" | .kwLet => "let"
  | .kwModule => "module" | .kwOption => "option" | .kwReturn => "return" | .kwStruct => "struct"
  | .kwTrue => "true" | .kwWhile => "while"

/-- The operators and brackets, longer ones before their beginnings. -/
def symbols : List TokenKind :=
  [ampAmpEqual, pipePipeEqual,
   arrow, equalEqual, bangEqual, lessEqual, greaterEqual, ampAmp, pipePipe, lessLess, greaterGreater,
   plusEqual, minusEqual, starEqual, slashEqual, percentEqual,
   plus, minus, star, slash, percent, ampersand, pipe, caret, tilde, bang, equal, less, greater, dot,
   comma, colon, semicolon, question, leftParen, rightParen, leftBrace, rightBrace, leftBracket,
   rightBracket]

def keywords : List TokenKind :=
  [kwAlias, kwAs, kwBreak, kwConst, kwContinue, kwDiscard, kwElse, kwExternal, kwFalse, kwFn, kwFor,
   kwFrom, kwIf, kwImport, kwIn, kwLet, kwModule, kwOption, kwReturn, kwStruct, kwTrue, kwWhile]

/-- The kind of a word: a keyword or an identifier. -/
def ofWord (word : Text) : TokenKind := (keywords.find? (·.text == word)).getD .identifier

/-- Does the language keep the word for itself? -/
def isKeyword (word : Text) : Bool := keywords.any (·.text == word)

end TokenKind

/-- A token with the text that it stands for. -/
structure Token where
  kind : TokenKind := .endOfFile
  lexeme : Text := []
  span : Span := {}
deriving DecidableEq, Repr

end Shading
