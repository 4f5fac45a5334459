import Shading.Module
import Shading.Proofs.Canonical.Lexemes

/-! The parts of a canonical text: marks and names, and whole expressions and types between them. They
are given for what a source holds; other statements have no parts. -/
namespace Shading

/-- A part of a text. An expression is written in a context that binds as tightly as its level. -/
inductive Part
  | mark (k : TokenKind)
  | name (n : Text)
  /-- names joined by points -/
  | path (t : Text)
  | string (t : Text)
  | expr (level : Nat) (e : Expr)
  | type (e : Expr)

/-- The token of an assignment. An operator without a meaning has none. -/
def AssignOp.kind : AssignOp → TokenKind
  | .simple => .equal | .add => .plusEqual | .sub => .minusEqual | .mul => .starEqual
  | .div => .slashEqual | .mod => .percentEqual | .and => .ampAmpEqual | .or => .pipePipeEqual
  | .reserved _ => .endOfFile

/-- Is it an operand with its calls, indices and members, as opposed to operators with operands? -/
def Expr.isOperand : Expr → Bool
  | .binary .. | .unary .. | .assign .. | .ternary .. => false
  | _ => true

namespace Part

def pathLexemes (t : Text) : List Lexeme :=
  match Text.cut (Text.byte '.') t with
  | [] => []
  | n :: ns => (.identifier, n) :: Canonical.memberLexemes (ns.map (⟨·, {}⟩))

def lexemes : Part → List Lexeme
  | .mark k => [k.lexeme]
  | .name n => [(.identifier, n)]
  | .path t => pathLexemes t
  | .string t => [(.stringLiteral, Literal.quote t)]
  | .expr level e => Canonical.lexemes level e.methods
  | .type e => Canonical.lexemes 0 e.methods

/-- Is it a part of what the parser gives? -/
def isSource : Part → Bool
  | .mark _ | .string _ => true
  | .name n => Lexer.isName n
  | .path t => (Text.cut (Text.byte '.') t).all Lexer.isName
  | .expr level e => level ≤ Canonical.unaryLevel && e.methods.isSource
  | .type e => e.methods.isSource

/-- Does nothing that ends with a generic name stand on the left of a less-than sign? -/
def isClear : Part → Bool
  | .expr _ e | .type e => e.isClear
  | _ => true

/-- Is it an operand, if it is a type? Types are parsed as operands. -/
def isPlain : Part → Bool
  | .type e => e.isOperand
  | _ => true

def floats : Part → List Single
  | .expr _ e | .type e => e.floats
  | _ => []

/-- The lexemes of parts one after the other. -/
def spell (ps : List Part) : List Lexeme := ps.flatMap lexemes

/-- Parts with commas between them. -/
def separate : List (List Part) → List Part
  | [] => []
  | [ps] => ps
  | ps :: rest => ps ++ .mark .comma :: separate rest

def braces (ps : List Part) : List Part := .mark .leftBrace :: (ps ++ [.mark .rightBrace])

/-- A part after a mark, if there is something for it. -/
def optional (k : TokenKind) (part : Expr → Part) (e : Expr) : List Part :=
  if e.isAbsent then [] else [.mark k, part e]

section

variable {P : Part → Prop} (hmark : ∀ k, P (.mark k))
include hmark

/-- What holds of marks holds of separated parts if it holds of all of them. -/
theorem forall_separate (pss : List (List Part)) :
    (∀ p ∈ separate pss, P p) ↔ ∀ ps ∈ pss, ∀ p ∈ ps, P p := by
  induction pss with
  | nil => simp [separate]
  | cons ps pss ih =>
    cases pss with
    | nil => simp [separate]
    | cons qs pss =>
      have hcons : separate (ps :: qs :: pss) = ps ++ .mark .comma :: separate (qs :: pss) := rfl
      rw [hcons, List.forall_mem_append, List.forall_mem_cons, ih]
      constructor
      · intro h
        exact List.forall_mem_cons.mpr ⟨h.1, h.2.2⟩
      · intro h
        exact ⟨(List.forall_mem_cons.mp h).1, hmark _, (List.forall_mem_cons.mp h).2⟩

theorem forall_braces (ps : List Part) : (∀ p ∈ braces ps, P p) ↔ ∀ p ∈ ps, P p := by
  rw [braces, List.forall_mem_cons, List.forall_mem_append, List.forall_mem_singleton]
  exact ⟨fun h => h.2.1, fun h => ⟨hmark _, h, hmark _⟩⟩

theorem forall_optional (k : TokenKind) (part : Expr → Part) (e : Expr) :
    (∀ p ∈ optional k part e, P p) ↔ (e.isAbsent = false → P (part e)) := by
  unfold optional
  cases e.isAbsent with
  | true => simp
  | false => simp [hmark]

end

theorem source_expr {e : Expr} (h : e.Sourced) : (expr 0 e).isSource := by
  rw [isSource, h]
  rfl

theorem source_optional_type {k : TokenKind} {e : Expr} (h : e.MaybeSourced) : ∀ p ∈ optional k type e, p.isSource :=
  (forall_optional (fun _ => rfl) _ _ _).mpr h

theorem source_optional_expr {k : TokenKind} {e : Expr} (h : e.MaybeSourced) :
    ∀ p ∈ optional k (expr 0) e, p.isSource := (forall_optional (fun _ => rfl) _ _ _).mpr fun he => source_expr (h he)

theorem source_braces {ps : List Part} (h : ∀ p ∈ ps, p.isSource) : ∀ p ∈ braces ps, p.isSource :=
  (forall_braces (fun _ => rfl) ps).mpr h

@[simp] theorem spell_nil : spell [] = [] := rfl

@[simp] theorem spell_cons (p : Part) (ps : List Part) : spell (p :: ps) = p.lexemes ++ spell ps := rfl

@[simp] theorem spell_append (ps qs : List Part) : spell (ps ++ qs) = spell ps ++ spell qs :=
  List.flatMap_append

end Part

open Shading.Part (separate braces optional)

/-- An attribute as it is written. -/
structure Slot where
  name : Text
  args : List Expr := []

namespace Slot

def parts (s : Slot) : List Part :=
  .name s.name ::
    if s.args.isEmpty then []
    else .mark .leftParen :: (separate (s.args.map fun e => [Part.expr 0 e]) ++ [Part.mark .rightParen])

/-- An attribute list, if there are attributes. -/
def bracketed (slots : List Slot) : List Part :=
  if slots.isEmpty then []
  else .mark .leftBracket :: (separate (slots.map parts) ++ [Part.mark .rightBracket])

section

variable {P : Part → Prop} (hmark : ∀ k, P (.mark k))
include hmark

theorem forall_parts (s : Slot) :
    (∀ p ∈ s.parts, P p) ↔ P (.name s.name) ∧ ∀ e ∈ s.args, P (.expr 0 e) := by
  obtain ⟨name, args⟩ := s
  rw [parts, List.forall_mem_cons]
  cases args with
  | nil => simp
  | cons e args =>
    rw [List.isEmpty_cons, if_neg (by decide), List.forall_mem_cons, List.forall_mem_append,
      Part.forall_separate hmark, List.forall_mem_singleton, List.forall_mem_map]
    simp only [List.forall_mem_singleton]
    exact ⟨fun h => ⟨h.1, h.2.2.1⟩,
      fun h => ⟨h.1, hmark _, h.2, hmark _⟩⟩

theorem forall_bracketed (slots : List Slot) :
    (∀ p ∈ bracketed slots, P p) ↔ ∀ s ∈ slots, P (.name s.name) ∧ ∀ e ∈ s.args, P (.expr 0 e) := by
  unfold bracketed
  cases slots with
  | nil => simp
  | cons s slots =>
    rw [List.isEmpty_cons, if_neg (by decide), List.forall_mem_cons, List.forall_mem_append,
      Part.forall_separate hmark, List.forall_mem_singleton, List.forall_mem_map]
    simp only [forall_parts hmark]
    exact ⟨fun h => h.2.1, fun h => ⟨hmark _, h, hmark _⟩⟩

end

/-- The names and arguments of attributes are those of a source. -/
def AllSource (slots : List Slot) : Prop := ∀ s ∈ slots, Lexer.isName s.name ∧ Expr.AllSourced s.args

theorem allSource_iff (slots : List Slot) : (∀ p ∈ bracketed slots, p.isSource) ↔ AllSource slots := by
  rw [forall_bracketed (fun _ => rfl)]
  simp only [AllSource, Expr.AllSourced, Expr.Sourced, Part.isSource, Nat.zero_le, decide_true, Bool.true_and]

theorem AllSource.append {slots more : List Slot} (h : AllSource slots) (h' : AllSource more) :
    AllSource (slots ++ more) := List.forall_mem_append.mpr ⟨h, h'⟩

/-- An attribute with its argument, if it has one. -/
def ofExpr (name : Text) (e : Expr) : List Slot := if e.isAbsent then [] else [⟨name, [e]⟩]

/-- An attribute with the expression that was written, or with those that spell its value. -/
def ofAttr {α : Type} (name : Text) (a : Attr α) (known : List Expr) : List Slot :=
  if a.expr.isAbsent then (if a.value.isSome then [⟨name, known⟩] else []) else [⟨name, [a.expr]⟩]

/-- How a loop that is always unrolled is marked. -/
def ofUnroll (a : Attr Unroll) : List Slot := ofAttr "unroll" a [.name {} (Unroll.text .always)]

/-- The sizes of a workgroup, without the vector that they are gathered in. -/
def ofWorkgroup (a : Attr (UInt32 × UInt32 × UInt32)) : List Slot :=
  match a.expr with
  | .call _ _ args => [⟨"workgroup", args⟩]
  | _ => []

end Slot

def VarDecl.parts (d : VarDecl) : List Part :=
  .mark .kwLet :: .name d.name ::
    (optional .colon .type d.type ++ (optional .equal (.expr 0) d.init ++ [Part.mark .semicolon]))

def ConstDecl.parts (d : ConstDecl) : List Part :=
  .mark .kwConst :: .name d.name ::
    (optional .colon .type d.type ++ [Part.mark .equal, .expr 0 d.value, .mark .semicolon])

namespace Stmt

/-- The parts of an expression that is a statement. -/
def exprParts : Expr → List Part
  | .assign _ op l r => [.expr Canonical.unaryLevel l, .mark op.kind, .expr 0 r, .mark .semicolon]
  | e => [.expr 0 e, .mark .semicolon]

mutual

/-- The parts of a statement. Directly inside braces, a scope needs no braces of its own. -/
def parts (inBraces : Bool) : Stmt → List Part
  | .expr _ e => exprParts e
  | .letVar _ d => d.parts
  | .const _ d => d.parts
  | .multi _ body => allParts body
  | .scoped _ s => if inBraces then parts false s else braces (parts false s)
  | .branch _ isConst arms other =>
    (if isConst then [.mark .kwConst] else []) ++ (.mark .kwIf :: (armParts arms ++
      if other.isAbsent then [] else .mark .kwElse :: braces (parts true other)))
  | .forRange _ h body =>
    Slot.bracketed (Slot.ofUnroll h.unroll) ++
      (.mark .kwFor :: .name h.name :: .mark .kwIn :: .expr 0 h.start :: .mark .arrow :: .expr 0 h.stop ::
        (optional .colon (.expr 0) h.step ++ braces (parts true body)))
  | .forEach _ h body =>
    Slot.bracketed (Slot.ofUnroll h.unroll) ++
      (.mark .kwFor :: .name h.name :: .mark .kwIn :: .expr 0 h.array :: braces (parts true body))
  | .loop _ c unroll body =>
    Slot.bracketed (Slot.ofUnroll unroll) ++
      (.mark .kwWhile :: .mark .leftParen :: .expr 0 c :: .mark .rightParen :: braces (parts true body))
  | .returnWith _ e =>
    .mark .kwReturn :: ((if e.isAbsent then [] else [.expr 0 e]) ++ [.mark .semicolon])
  | .discard _ => [.mark .kwDiscard, .mark .semicolon]
  | .breakLoop _ => [.mark .kwBreak, .mark .semicolon]
  | .continueLoop _ => [.mark .kwContinue, .mark .semicolon]
  | .noOp _ => [.mark .semicolon]
  | _ => []

def allParts : List Stmt → List Part
  | [] => []
  | s :: ss => parts false s ++ allParts ss

/-- The parts of the arms of a chain of conditions, without the keyword of the first one. -/
def armParts : List (Expr × Stmt) → List Part
  | [] => []
  | (c, s) :: arms =>
    .mark .leftParen :: .expr 0 c :: .mark .rightParen :: (braces (parts true s) ++
      if arms.isEmpty then [] else .mark .kwElse :: .mark .kwIf :: armParts arms)

end

theorem allParts_eq (ss : List Stmt) : allParts ss = ss.flatMap (parts false) := by
  induction ss with
  | nil => rfl
  | cons s ss ih => rw [allParts, ih, List.flatMap_cons]

/-- What holds of marks holds of a statement's parts inside braces if it holds of them elsewhere. -/
theorem forall_inside {P : Part → Prop} (hmark : ∀ k, P (.mark k)) (s : Stmt) (b : Bool) :
    (∀ p ∈ parts b s, P p) ↔ ∀ p ∈ parts false s, P p := by
  cases s with
  | «scoped» i s =>
    cases b with
    | true =>
      rw [parts, parts, if_pos rfl, if_neg (by decide)]
      exact (Part.forall_braces hmark _).symm
    | false => rfl
  | _ => rfl

theorem source_inside {s : Stmt} (h : ∀ p ∈ parts false s, p.isSource) (b : Bool) : ∀ p ∈ parts b s, p.isSource :=
  (forall_inside (fun _ => rfl) s b).mpr h

theorem forall_armParts {P : Part → Prop} (hmark : ∀ k, P (.mark k)) (arms : List (Expr × Stmt)) :
    (∀ p ∈ armParts arms, P p) ↔ ∀ a ∈ arms, P (.expr 0 a.1) ∧ ∀ p ∈ parts true a.2, P p := by
  induction arms with
  | nil => simp [armParts]
  | cons a arms ih =>
    obtain ⟨c, s⟩ := a
    simp only [armParts, List.forall_mem_cons, List.forall_mem_append, Part.forall_braces hmark]
    cases arms with
    | nil => simp [hmark]
    | cons a' arms =>
      rw [List.isEmpty_cons, if_neg (by decide), List.forall_mem_cons, List.forall_mem_cons, ih]
      simp only [hmark, true_and, and_assoc, List.forall_mem_cons]

end Stmt

def ImportItem.parts (i : ImportItem) : List Part :=
  .name i.name :: if i.rename.isEmpty then [] else [.mark .kwAs, .name i.rename]

def StructMember.parts (m : StructMember) : List Part :=
  Slot.bracketed (Slot.ofExpr "cond" m.cond ++ Slot.ofAttr "builtin" m.builtin [] ++
    Slot.ofAttr "location" m.location []) ++ [Part.name m.name, .mark .colon, .type m.type]

def External.parts (v : External) : List Part :=
  Slot.bracketed (Slot.ofAttr "set" v.set [] ++ Slot.ofAttr "binding" v.binding []) ++
    [Part.name v.name, .mark .colon, .type v.type]

def FnParam.parts (p : FnParam) : List Part := [.name p.name, .mark .colon, .type p.type]

/-- The attributes of a function in the order of the text. -/
def FnHead.slots (h : FnHead) : List Slot :=
  Slot.ofAttr "entry" h.stage [] ++ Slot.ofWorkgroup h.workgroup ++
    Slot.ofAttr "early_fragment_tests" h.earlyTests [] ++ Slot.ofAttr "depth_write" h.depthWrite [] ++
    Slot.ofAttr "export" h.exported []

namespace Stmt

/-- The parts of a declaration, with attributes of conditions around it in front. -/
def declarationParts (slots : List Slot) : Stmt → List Part
  | .conditional _ c s => declarationParts (slots ++ [⟨"cond", [c]⟩]) s
  | .importFrom _ name items =>
    Slot.bracketed slots ++ (.mark .kwImport ::
      if items.isEmpty then [.path name, .mark .semicolon]
      else separate (items.map ImportItem.parts) ++ [.mark .kwFrom, .path name, .mark .semicolon])
  | .option _ d =>
    Slot.bracketed slots ++ (.mark .kwOption :: .name d.name :: .mark .colon :: .type d.type ::
      (optional .equal (.expr 0) d.default ++ [.mark .semicolon]))
  | .const _ d => Slot.bracketed (slots ++ Slot.ofAttr "export" d.exported []) ++ d.parts
  | .alias _ d =>
    Slot.bracketed (slots ++ Slot.ofAttr "export" d.exported []) ++
      [.mark .kwAlias, .name d.name, .mark .equal, .type d.target, .mark .semicolon]
  | .struct _ d =>
    Slot.bracketed (slots ++ Slot.ofAttr "export" d.exported [] ++ Slot.ofAttr "layout" d.layout []) ++
      (.mark .kwStruct :: .name d.name :: braces (separate (d.members.map StructMember.parts)))
  | .external _ set vars =>
    Slot.bracketed (slots ++ Slot.ofAttr "set" set []) ++
      (.mark .kwExternal :: braces (separate (vars.map External.parts)))
  | .function _ h body =>
    Slot.bracketed (slots ++ h.slots) ++
      (.mark .kwFn :: .name h.name :: .mark .leftParen :: (separate (h.params.map FnParam.parts) ++
        .mark .rightParen :: (optional .arrow .type h.result ++ braces (allParts body))))
  | _ => []

end Stmt

namespace Metadata

/-- The language version as it is written. -/
def versionText (m : Metadata) : Text :=
  Text.ofNat (m.version.toNat / 100) ++ "." ++ Text.ofNat (m.version.toNat % 100)

/-- The attributes of a module's head with their texts. -/
def strings (m : Metadata) : List (Text × Text) :=
  ("nzsl_version", m.versionText) ::
    [(("author" : Text), m.author), ("desc", m.description), ("license", m.license)].filter fun s => !s.2.isEmpty

/-- The parts of a module's head. -/
def parts (m : Metadata) : List Part :=
  .mark .leftBracket :: (separate (m.strings.map fun s =>
      [.name s.1, .mark .leftParen, .string s.2, .mark .rightParen]) ++
    Part.mark .rightBracket :: Part.mark .kwModule ::
      ((if m.name.isEmpty then [] else [Part.path m.name]) ++ [Part.mark .semicolon]))

end Metadata

namespace Module

/-- The parts of a module. -/
def parts (m : Module) : List Part :=
  (m.metadata.getD {}).parts ++ (m.root.getD {}).body.flatMap (Stmt.declarationParts [])

end Module

end Shading

-- The statements, declarations and modules that the parser gives. What their names and expressions are is said of
-- their parts.
namespace Shading

namespace Attr

variable {α : Type}

/-- Nothing is known but what was written. -/
def Given (a : Attr α) : Prop := a.value = Option.none

/-- As it was written, or with the value that the name alone stands for. -/
def GivenOr (v : α) (a : Attr α) : Prop := a.Given ∨ a = Attr.known v

/-- The sizes of a workgroup are gathered in a vector of three. -/
def Gathered (a : Attr (UInt32 × UInt32 × UInt32)) : Prop :=
  a.Given ∧ (a.expr = .absent ∨ ∃ i t args, a.expr = .call i t args ∧ args.length = 3)

end Attr

def Expr.isAssign : Expr → Bool
  | .assign .. => true
  | _ => false

namespace Stmt

/-- A statement of a function. -/
inductive Formed : Stmt → Prop
  | expr {s : Span} {e : Expr} (h : e.isAssign = false) : Formed (.expr s e)
  | assign {s : Span} {i : ExprInfo} {op : AssignOp} {l r : Expr} (h : op ∈ AssignOp.named) :
    Formed (.expr s (.assign i op l r))
  | letVar {s : Span} {d : VarDecl} (h : d.type.isAbsent = false ∨ d.init.isAbsent = false) : Formed (.letVar s d)
  | const {s : Span} {d : ConstDecl} : Formed (.const s d)
  | block {s : Span} {i : Span} {body : List Stmt} (h : ∀ x ∈ body, Formed x) :
    Formed (.scoped s (.multi i body))
  | branch {s : Span} {isConst : Bool} {arms : List (Expr × Stmt)} {other : Stmt} (hne : arms ≠ [])
    (h : ∀ a ∈ arms, Formed a.2) (hother : other.isAbsent = false → Formed other) :
    Formed (.branch s isConst arms other)
  | forRange {s : Span} {h : RangeHead} {body : Stmt} (hu : h.unroll.GivenOr .always) (hb : Formed body) :
    Formed (.forRange s h body)
  | forEach {s : Span} {h : EachHead} {body : Stmt} (hu : h.unroll.GivenOr .always) (hb : Formed body) :
    Formed (.forEach s h body)
  | loop {s : Span} {c : Expr} {unroll : Attr Unroll} {body : Stmt} (hu : unroll.GivenOr .always)
    (hb : Formed body) : Formed (.loop s c unroll body)
  | returnWith {s : Span} {e : Expr} : Formed (.returnWith s e)
  | discard {s : Span} : Formed (.discard s)
  | breakLoop {s : Span} : Formed (.breakLoop s)
  | continueLoop {s : Span} : Formed (.continueLoop s)
  | noOp {s : Span} : Formed (.noOp s)

end Stmt

def StructMember.Formed (m : StructMember) : Prop := m.builtin.Given ∧ m.location.Given

def External.Formed (v : External) : Prop := v.set.Given ∧ v.binding.Given

structure FnHead.Formed (h : FnHead) : Prop where
  stage : h.stage.Given
  earlyTests : h.earlyTests.GivenOr true
  depthWrite : h.depthWrite.Given
  workgroup : h.workgroup.Gathered
  exported : h.exported.GivenOr true

namespace Stmt

/-- A declaration without a condition. -/
inductive Declared : Stmt → Prop
  | importFrom {s : Span} {name : Text} {items : List ImportItem} : Declared (.importFrom s name items)
  | option {s : Span} {d : OptionDecl} : Declared (.option s d)
  | const {s : Span} {d : ConstDecl} (h : d.exported.GivenOr true) : Declared (.const s d)
  | alias {s : Span} {d : AliasDecl} (h : d.exported.GivenOr true) : Declared (.alias s d)
  | struct {s : Span} {d : StructDecl} (h : d.exported.GivenOr true) (hl : d.layout.Given)
    (hne : d.members ≠ []) (hm : ∀ m ∈ d.members, m.Formed) : Declared (.struct s d)
  | external {s : Span} {set : Attr UInt32} {vars : List External} (h : set.Given)
    (hv : ∀ v ∈ vars, v.Formed) : Declared (.external s set vars)
  | function {s : Span} {h : FnHead} {body : List Stmt} (hh : h.Formed) (hb : ∀ x ∈ body, x.Formed) :
    Declared (.function s h body)

/-- A declaration, under its condition if it has one. -/
def AtTop (s : Stmt) : Prop := s.Declared ∨ ∃ i c d, s = .conditional i c d ∧ d.Declared

end Stmt

/-- A module whose head holds a version that can be written and whose statements are declarations. -/
structure Module.Formed (m : Module) : Prop where
  head : ∃ d, m.metadata = some d ∧ d.version.toNat < 100 * UInt16.size
  body : ∃ b, m.root = some b ∧ ∀ s ∈ b.body, s.AtTop

end Shading
