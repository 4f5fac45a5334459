import Shading.Proofs.Expr.Source

/-! The tokens of expressions in canonical text. -/
namespace Shading

/-- The token of an operator. An operator without a meaning has none. -/
def BinaryOp.kind : BinaryOp → TokenKind
  | .add => .plus | .sub => .minus | .mul => .star | .div => .slash | .mod => .percent
  | .eq => .equalEqual | .ne => .bangEqual | .lt => .less | .le => .lessEqual | .gt => .greater
  | .ge => .greaterEqual | .and => .ampAmp | .or => .pipePipe
  | .bitAnd => .ampersand | .bitOr => .pipe | .bitXor => .caret | .shiftLeft => .lessLess
  | .shiftRight => .greaterGreater
  | .reserved _ => .endOfFile

def UnaryOp.kind : UnaryOp → TokenKind
  | .minus => .minus | .plus => .plus | .not => .bang | .bitNot => .tilde
  | .reserved _ => .endOfFile

/-- The token of a literal. -/
def Value.kind : Value → TokenKind
  | .bool true => .kwTrue
  | .bool false => .kwFalse
  | .f32 _ => .floatLiteral
  | _ => .intLiteral

namespace Canonical

/-- Printer and parser know the same operators at the same levels. -/
theorem binaryOp_kind {op : BinaryOp} {own : Nat} (h : level? op = some own) :
    Parser.binaryOp? op.kind = some (own, op) ∧ op.text = op.kind.text ∧
      op.kind ∈ TokenKind.symbols ∧ 1 ≤ own ∧ own ≤ 10 := by
  cases op <;> first
    | (cases h; decide)
    | cases h

theorem unaryOp_kind {op : UnaryOp} (h : UnaryOp.named.elem op) :
    Parser.unaryOp? op.kind = some op ∧ op.text = op.kind.text ∧ op.kind ∈ Lexer.unaryMarks := by
  cases op with
  | reserved c => simp [UnaryOp.named] at h
  | _ => decide

/-- Lexemes in parentheses where the context needs them. -/
def wrapped (needed : Bool) (ks : List Lexeme) : List Lexeme :=
  if needed then TokenKind.lexeme .leftParen :: (ks ++ [TokenKind.lexeme .rightParen]) else ks

def memberLexemes (ns : List Name) : List Lexeme :=
  ns.flatMap fun n => [TokenKind.lexeme .dot, (.identifier, n.text)]

mutual

/-- The lexemes of an expression of a source in a context that binds as tightly as the given level. -/
def lexemes (level : Nat) : Expr → List Lexeme
  | .name _ n => [(.identifier, n)]
  | .literal _ v => [(v.kind, v.text)]
  | .binary _ op l r =>
    let own := (level? op).getD 0
    wrapped (own < level) (lexemes own l ++ (op.kind.lexeme :: lexemes (own + 1) r))
  | .unary _ op e =>
    wrapped (unaryLevel < level) (op.kind.lexeme :: wrapped (isUnary e) (lexemes unaryLevel e))
  | .ternary _ c t f =>
    wrapped (0 < level) (lexemes 1 c ++
      (TokenKind.lexeme .question :: (lexemes 0 t ++ (TokenKind.lexeme .colon :: lexemes 0 f))))
  | .index _ b is =>
    if isName b then
      lexemes postfixLevel b ++
        (TokenKind.lexeme .leftBracket :: (separatedLexemes is ++ [TokenKind.lexeme .rightBracket]))
    else lexemes postfixLevel b ++ bracketLexemes is
  | .member _ b ns => lexemes postfixLevel b ++ memberLexemes ns
  | .call _ t as =>
    lexemes postfixLevel t ++
      (TokenKind.lexeme .leftParen :: (separatedLexemes as ++ [TokenKind.lexeme .rightParen]))
  | .method _ o n as =>
    lexemes postfixLevel o ++ (TokenKind.lexeme .dot :: (.identifier, n) ::
      TokenKind.lexeme .leftParen :: (separatedLexemes as ++ [TokenKind.lexeme .rightParen]))
  | _ => []

/-- The lexemes of expressions with commas between them. -/
def separatedLexemes : List Expr → List Lexeme
  | [] => []
  | e :: es =>
    match es with
    | [] => lexemes 0 e
    | _ :: _ => lexemes 0 e ++ (TokenKind.lexeme .comma :: separatedLexemes es)

/-- The lexemes of indices, each in brackets of its own. -/
def bracketLexemes : List Expr → List Lexeme
  | [] => []
  | e :: es =>
    TokenKind.lexeme .leftBracket :: (lexemes 0 e ++ (TokenKind.lexeme .rightBracket :: bracketLexemes es))

end

open Lexer

section

variable {t : Text} {ks : List Lexeme}

/-- A text in parentheses. -/
theorem yields_parens (h : Yields t ks) :
    YieldsAlways ("(" ++ t ++ ")") (TokenKind.lexeme .leftParen :: (ks ++ [TokenKind.lexeme .rightParen])) := by
  have hopen : YieldsAlways "(" [TokenKind.lexeme .leftParen] := YieldsAlways.mark (k := .leftParen) (by decide)
  have hclose : YieldsAlways ")" [TokenKind.lexeme .rightParen] :=
    YieldsAlways.mark (k := .rightParen) (by decide)
  rw [List.append_assoc]
  exact hopen.append (h.before hclose fun v => isSoft_cons v (by decide) (by decide))

theorem yields_wrap (needed : Bool) (h : Yields t ks) : Yields (wrap needed t) (wrapped needed ks) := by
  cases needed with
  | false => exact h
  | true => exact (yields_parens h).yields

theorem opensOperand_wrap (needed : Bool) (h : opensOperand t) : opensOperand (wrap needed t) := by
  cases needed with
  | false => exact h
  | true => rfl

theorem opensOperand_append (h : opensOperand t) (u : Text) : opensOperand (t ++ u) := by
  cases t with
  | nil => cases h
  | cons c t => exact h

end

theorem opensOperand_of_isWord {t : Text} (h : isWord t) : opensOperand t := by
  cases t with
  | nil => cases h
  | cons b t =>
    have hne : ∀ c : UInt8, c < 0x80 → isWordStart (Rune.ascii c).char = false → b ≠ c := by
      rintro c hc hstart rfl
      rw [isWord, Rune.ofText_cons_ascii _ hc, Bool.and_eq_true, hstart] at h
      cases h.1
    simp only [opensOperand, Bool.and_eq_true, bne_iff_ne]
    exact ⟨hne 61 (by decide) (by decide), hne 62 (by decide) (by decide)⟩

/-- The text of a literal is one token. -/
theorem yields_literal {v : Value} (h : v.isLiteral) : Yields v.text [(v.kind, v.text)] := by
  cases v with
  | bool b =>
    cases b with
    | true => exact Yields.word (t := "true") (by decide)
    | false => exact Yields.word (t := "false") (by decide)
  | u32 n =>
    obtain ⟨b, t, ht, hb, hds⟩ := Text.ofNat_eq_cons n.toNat
    rw [Value.text, ht]
    exact Yields.unsigned hb hds
  | i32 n =>
    obtain ⟨k, hk⟩ := Int.eq_ofNat_of_zero_le (of_decide_eq_true h)
    obtain ⟨b, t, ht, hb, hds⟩ := Text.ofNat_eq_cons k
    have htext : Value.text (.i32 n) = b :: t := by
      rw [Value.text, hk, ← ht]
      rfl
    rw [htext]
    exact Yields.int hb hds
  | f32 x => exact Yields.float (Single.isNumeral_text h)
  | _ => cases h

/-- A literal starts neither with a sign nor with what would go on with an operator. -/
theorem literal_text {v : Value} (h : v.isLiteral) :
    ∃ b t, v.text = b :: t ∧ b ≠ 45 ∧ b ≠ 61 ∧ b ≠ 62 := by
  have hdigit : ∀ b, Decimal.isDigit b → b ≠ 45 ∧ b ≠ 61 ∧ b ≠ 62 := Decimal.forall_isDigit (by decide)
  cases v with
  | bool b =>
    cases b with
    | true => exact ⟨_, _, rfl, by decide⟩
    | false => exact ⟨_, _, rfl, by decide⟩
  | u32 n =>
    obtain ⟨b, t, ht, hb, -⟩ := Text.ofNat_eq_cons n.toNat
    exact ⟨b, t ++ "u", by rw [Value.text, ht]; rfl, hdigit b hb⟩
  | i32 n =>
    obtain ⟨k, hk⟩ := Int.eq_ofNat_of_zero_le (of_decide_eq_true h)
    obtain ⟨b, t, ht, hb, -⟩ := Text.ofNat_eq_cons k
    exact ⟨b, t, by rw [Value.text, hk, ← ht]; rfl, hdigit b hb⟩
  | f32 x =>
    obtain ⟨b, ds, f, y, ht, hb, -⟩ := Single.isNumeral_text h
    rw [Value.text, ht, Value.pointed]
    split
    · exact ⟨b, _, rfl, hdigit b hb⟩
    · exact ⟨b, _, rfl, hdigit b hb⟩
  | _ => cases h

theorem isWord_of_isName {t : Text} (h : Lexer.isName t) : isWord t := by
  rw [Lexer.isName, Bool.and_eq_true] at h
  exact h.1

theorem yields_comma : YieldsAlways ", " [TokenKind.lexeme .comma] :=
  (YieldsAlways.mark (k := .comma) (by decide)).append .space

/-- An operator with blanks around it. -/
theorem yields_operator {k : TokenKind} (h : k ∈ TokenKind.symbols) :
    YieldsAlways (" " ++ (k.text ++ " ")) [k.lexeme] :=
  YieldsAlways.space.append (.spaced h)

/-- Two operands around an operator. -/
theorem Yields.operands {t u : Text} {ks ls : List Lexeme} {k : TokenKind} (ht : Yields t ks)
    (hk : k ∈ TokenKind.symbols) (hu : Yields u ls) :
    Yields (t ++ " " ++ k.text ++ " " ++ u) (ks ++ (k.lexeme :: ls)) := by
  have h := (ht.before (yields_operator hk) fun v => isSoft_cons _ (by decide) (by decide)).before hu
  simpa only [List.append_assoc, List.singleton_append] using h

theorem Yields.bracketed {t : Text} {ks : List Lexeme} (h : Yields t ks) :
    YieldsAlways ("[" ++ t ++ "]")
      (TokenKind.lexeme .leftBracket :: (ks ++ [TokenKind.lexeme .rightBracket])) := by
  have hopen : YieldsAlways "[" [TokenKind.lexeme .leftBracket] :=
    YieldsAlways.mark (k := .leftBracket) (by decide)
  have hclose : YieldsAlways "]" [TokenKind.lexeme .rightBracket] :=
    YieldsAlways.mark (k := .rightBracket) (by decide)
  rw [List.append_assoc]
  exact hopen.append (h.before hclose fun v => isSoft_cons v (by decide) (by decide))

theorem yields_members {ns : List Name} (h : ns.all fun n => Lexer.isName n.text) :
    Yields (ns.flatMap fun x => Text.byte '.' :: x.text) (memberLexemes ns) ∧
      ∀ v, isSoft v → isSoft ((ns.flatMap fun x => Text.byte '.' :: x.text) ++ v) := by
  induction ns with
  | nil => exact ⟨YieldsAlways.nil.yields, fun v hv => hv⟩
  | cons n ns ih =>
    rw [List.all_cons, Bool.and_eq_true] at h
    obtain ⟨hy, hsoft⟩ := ih h.2
    refine ⟨(Yields.dotName h.1).append hy hsoft, fun v _ => ?_⟩
    rw [List.flatMap_cons, List.append_assoc]
    exact isSoft_dot_name (isWord_of_isName h.1) _

theorem type_of_isSource {e : Expr} (h : e.isSource) : e.type = .unknown := by
  have hunknown : ∀ {t : Ty}, t.isUnknown → t = .unknown := by
    intro t ht
    cases t <;> first | rfl | cases ht
  cases e <;> simp only [Expr.isSource, Bool.and_eq_true, Bool.false_eq_true] at h
  case name => exact hunknown h.1
  case literal => exact hunknown h.1
  case binary => exact hunknown h.1.1.1
  case unary => exact hunknown h.1.1
  case ternary => exact hunknown h.1.1.1
  case index => exact hunknown h.1.1.1.1
  case member => exact hunknown h.1.1.1.1
  case call => exact hunknown h.1.1.1
  case method => exact hunknown h.1.1.1

mutual

/-- An expression of a source has a canonical text, and this has the expression's lexemes. No name is
looked up for it. -/
theorem expr_yields (e : Expr) (h : e.isSource) (level : Nat) :
    ∃ t, (∀ n, expr n level e = .ok t) ∧ Yields t (lexemes level e) ∧ opensOperand t := by
  cases e <;> simp only [Expr.isSource, Bool.and_eq_true, Bool.false_eq_true] at h
  case name i x =>
    exact ⟨x, fun n => by rw [expr], by rw [lexemes]; exact Yields.name h.2, opensOperand_of_isWord (isWord_of_isName h.2)⟩
  case literal i v =>
    obtain ⟨b, t, ht, hminus, hequal, hgreater⟩ := literal_text h.2
    have hsign : (v.text.head? == some (Text.byte '-')) = false := by
      have hbyte : Text.byte '-' = 45 := rfl
      simpa [ht, hbyte] using hminus
    refine ⟨v.text, fun n => ?_, by rw [lexemes]; exact yields_literal h.2, ?_⟩
    · simp only [expr, hsign, Bool.false_and, wrap, Bool.false_eq_true, if_false]
    · rw [ht]
      simpa [opensOperand] using ⟨hequal, hgreater⟩
  case binary i op l r =>
    obtain ⟨own, hown⟩ := Option.isSome_iff_exists.mp h.1.1.2
    obtain ⟨-, htext, hsymbol, -⟩ := binaryOp_kind hown
    obtain ⟨tl, hl, yl, ol⟩ := expr_yields l h.1.2 own
    obtain ⟨tr, hr, yr, -⟩ := expr_yields r h.2 (own + 1)
    refine ⟨wrap (own < level) (tl ++ " " ++ op.text ++ " " ++ tr), fun n => ?_, ?_, ?_⟩
    · simp only [expr, hown, hl, hr, bind, Except.bind]
      rfl
    · rw [lexemes, hown, htext]
      exact yields_wrap _ (Yields.operands yl hsymbol yr)
    · refine opensOperand_wrap _ ?_
      simp only [List.append_assoc]
      exact opensOperand_append ol _
  case unary i op e =>
    obtain ⟨-, htext, hmark⟩ := unaryOp_kind h.1.2
    obtain ⟨t, ht, yt, ot⟩ := expr_yields e h.2 unaryLevel
    refine ⟨wrap (unaryLevel < level) (op.text ++ wrap (isUnary e) t), fun n => ?_, ?_, ?_⟩
    · simp only [expr, ht, bind, Except.bind]
      rfl
    · rw [lexemes, htext]
      exact yields_wrap _ (.unary hmark (yields_wrap _ yt) (opensOperand_wrap _ ot))
    · refine opensOperand_wrap _ (opensOperand_append ?_ _)
      cases op with
      | reserved c => simp [UnaryOp.named] at h
      | _ => decide
  case ternary i c t f =>
    obtain ⟨tc, hc, yc, oc⟩ := expr_yields c h.1.1.2 1
    obtain ⟨tt, ht, yt, -⟩ := expr_yields t h.1.2 0
    obtain ⟨tf, hf, yf, -⟩ := expr_yields f h.2 0
    refine ⟨wrap (0 < level) (tc ++ " ? " ++ tt ++ " : " ++ tf), fun n => ?_, ?_, ?_⟩
    · simp only [expr, hc, ht, hf, bind, Except.bind]
      rfl
    · have hchoice := Yields.operands (k := .colon) yt (by decide) yf
      have hcond := Yields.operands (k := .question) yc (by decide) hchoice
      rw [lexemes]
      refine yields_wrap _ ?_
      simp only [List.append_assoc] at hcond ⊢
      exact hcond
    · refine opensOperand_wrap _ ?_
      simp only [List.append_assoc]
      exact opensOperand_append oc _
  case index i b indices =>
    obtain ⟨t, ht, yt, ot⟩ := expr_yields b h.1.1.1.2 postfixLevel
    by_cases hname : isName b
    · obtain ⟨ts, hts, -, yts⟩ := exprs_yields indices h.2
      refine ⟨t ++ "[" ++ Text.join ", " ts ++ "]", fun n => ?_, ?_, ?_⟩
      · simp only [expr, ht, hts, hname, if_true, bind, Except.bind]
        rfl
      · have hindex := (yt.before (Yields.bracketed yts)
          fun v => isSoft_cons _ (by decide) (by decide)).yields
        rw [lexemes, if_pos hname]
        simpa only [List.append_assoc] using hindex
      · simp only [List.append_assoc]
        exact opensOperand_append ot _
    · obtain ⟨tc, htc, ytc, soft⟩ := chain_yields indices h.2
      refine ⟨t ++ tc, fun n => ?_, ?_, opensOperand_append ot _⟩
      · simp only [expr, ht, hname, type_of_isSource h.1.1.1.2, htc, bind, Except.bind]
        rfl
      · rw [lexemes, if_neg hname]
        exact yt.append ytc soft
  case member i b names =>
    obtain ⟨t, ht, yt, ot⟩ := expr_yields b h.1.1.1.2 postfixLevel
    obtain ⟨ym, soft⟩ := yields_members h.2
    refine ⟨t ++ names.flatMap (fun x => Text.byte '.' :: x.text), fun n => ?_, ?_, opensOperand_append ot _⟩
    · simp only [expr, ht, bind, Except.bind]
      rfl
    · rw [lexemes]
      exact yt.append ym soft
  case call i t args =>
    obtain ⟨tt, ht, yt, ot⟩ := expr_yields t h.1.1.2 postfixLevel
    obtain ⟨ts, hts, -, yts⟩ := exprs_yields args h.2
    refine ⟨tt ++ "(" ++ Text.join ", " ts ++ ")", fun n => ?_, ?_, ?_⟩
    · simp only [expr, ht, hts, bind, Except.bind]
      rfl
    · have hcall := (yt.before (yields_parens yts)
        fun v => isSoft_cons _ (by decide) (by decide)).yields
      rw [lexemes]
      simpa only [List.append_assoc] using hcall
    · simp only [List.append_assoc]
      exact opensOperand_append ot _
  case method i o name args =>
    obtain ⟨tobj, ho, yo, oo⟩ := expr_yields o h.1.1.2 postfixLevel
    obtain ⟨ts, hts, -, yts⟩ := exprs_yields args h.2
    refine ⟨tobj ++ "." ++ name ++ "(" ++ Text.join ", " ts ++ ")", fun n => ?_, ?_, ?_⟩
    · simp only [expr, ho, hts, bind, Except.bind]
      rfl
    · have hcall := (Yields.dotName h.1.2).before (yields_parens yts)
        fun v => isSoft_cons _ (by decide) (by decide)
      have hsoft : ∀ v, isSoft ((46 :: name) ++ ("(" ++ Text.join ", " ts ++ ")") ++ v) := by
        intro v
        rw [List.append_assoc]
        exact isSoft_dot_name (isWord_of_isName h.1.2) _
      have hmethod := (yo.before hcall hsoft).yields
      rw [lexemes]
      simp only [List.append_assoc, List.cons_append, List.nil_append] at hmethod ⊢
      exact hmethod
    · simp only [List.append_assoc]
      exact opensOperand_append oo _

theorem exprs_yields (es : List Expr) (h : Expr.areSource es) :
    ∃ ts, (∀ n, exprs n es = .ok ts) ∧ ts.length = es.length ∧
      Yields (Text.join ", " ts) (separatedLexemes es) := by
  cases es with
  | nil => exact ⟨[], fun n => by rw [exprs], rfl, YieldsAlways.nil.yields⟩
  | cons e es =>
    rw [Expr.areSource, Bool.and_eq_true] at h
    obtain ⟨t, ht, yt, -⟩ := expr_yields e h.1 0
    obtain ⟨ts, hts, hlen, yts⟩ := exprs_yields es h.2
    refine ⟨t :: ts, fun n => ?_, by rw [List.length_cons, hlen, List.length_cons], ?_⟩
    · simp only [exprs, ht, hts, bind, Except.bind]
      rfl
    · match es, ts, hlen, yts with
      | [], [], _, _ => exact yt
      | e' :: es, t' :: ts, _, yts =>
        have hlist := (yt.before yields_comma fun v => isSoft_cons _ (by decide) (by decide)).before yts
        simp only [List.append_assoc] at hlist
        exact hlist

theorem chain_yields (es : List Expr) (h : Expr.areSource es) :
    ∃ t, (∀ n, indexChain n .unknown es = .ok t) ∧ Yields t (bracketLexemes es) ∧
      ∀ v, isSoft v → isSoft (t ++ v) := by
  cases es with
  | nil => exact ⟨[], fun n => by rw [indexChain], YieldsAlways.nil.yields, fun v hv => hv⟩
  | cons e es =>
    rw [Expr.areSource, Bool.and_eq_true] at h
    obtain ⟨t, ht, yt, -⟩ := expr_yields e h.1 0
    obtain ⟨ts, hts, yts, -⟩ := chain_yields es h.2
    refine ⟨"[" ++ t ++ "]" ++ ts, fun n => ?_, ?_, fun v _ => isSoft_cons _ (by decide) (by decide)⟩
    · simp only [indexChain, Ty.container?, Ty.element, ht, hts, bind, Except.bind]
      rfl
    · have hindex := (Yields.bracketed yt).before yts
      rw [bracketLexemes]
      simpa only [List.append_assoc, List.cons_append, List.nil_append] using hindex

end

/-- Does a token of the kind start an operand without a sign? -/
def startsOperand (k : TokenKind) : Bool :=
  [.identifier, .intLiteral, .floatLiteral, .kwTrue, .kwFalse, .leftParen].elem k

/-- Does a token of the kind start an expression? -/
def startsExpr (k : TokenKind) : Bool := startsOperand k || unaryMarks.elem k

theorem startsOperand_literal {v : Value} : startsOperand v.kind := by
  cases v with
  | bool b => cases b <;> rfl
  | _ => rfl

theorem startsExpr_of_startsOperand {k : TokenKind} (h : startsOperand k) : startsExpr k := by
  rw [startsExpr, h, Bool.true_or]

theorem wrapped_start {needed : Bool} {k : Lexeme} {ks : List Lexeme} (h : startsExpr k.1) :
    ∃ l ls, wrapped needed (k :: ks) = l :: ls ∧ startsExpr l.1 := by
  cases needed with
  | false => exact ⟨k, ks, rfl, h⟩
  | true => exact ⟨_, _, rfl, rfl⟩

theorem lexemes_start (e : Expr) (h : e.isSource) (level : Nat) :
    ∃ k ks, lexemes level e = k :: ks ∧ startsExpr k.1 := by
  cases e <;> simp only [Expr.isSource, Bool.and_eq_true, Bool.false_eq_true] at h
  case name i x => exact ⟨_, _, by rw [lexemes], rfl⟩
  case literal i v =>
    exact ⟨_, _, by rw [lexemes], startsExpr_of_startsOperand startsOperand_literal⟩
  case binary i op l r =>
    obtain ⟨k, ks, hk, hs⟩ := lexemes_start l h.1.2 ((level? op).getD 0)
    rw [lexemes, hk]
    exact wrapped_start hs
  case unary i op e =>
    rw [lexemes]
    refine wrapped_start ?_
    cases op with
    | reserved c => simp [UnaryOp.named] at h
    | _ => rfl
  case ternary i c t f =>
    obtain ⟨k, ks, hk, hs⟩ := lexemes_start c h.1.1.2 1
    rw [lexemes, hk]
    exact wrapped_start hs
  case index i b indices =>
    obtain ⟨k, ks, hk, hs⟩ := lexemes_start b h.1.1.1.2 postfixLevel
    rw [lexemes, hk]
    split <;> exact ⟨_, _, rfl, hs⟩
  case member i b names =>
    obtain ⟨k, ks, hk, hs⟩ := lexemes_start b h.1.1.1.2 postfixLevel
    rw [lexemes, hk]
    exact ⟨_, _, rfl, hs⟩
  case call i t args =>
    obtain ⟨k, ks, hk, hs⟩ := lexemes_start t h.1.1.2 postfixLevel
    rw [lexemes, hk]
    exact ⟨_, _, rfl, hs⟩
  case method i o name args =>
    obtain ⟨k, ks, hk, hs⟩ := lexemes_start o h.1.1.2 postfixLevel
    rw [lexemes, hk]
    exact ⟨_, _, rfl, hs⟩

/-- What a call, an index or a member follows starts without a sign. -/
theorem lexemes_startsOperand (e : Expr) (h : e.isSource) :
    ∃ k ks, lexemes postfixLevel e = k :: ks ∧ startsOperand k.1 := by
  cases e <;> simp only [Expr.isSource, Bool.and_eq_true, Bool.false_eq_true] at h
  case name i x => exact ⟨_, _, by rw [lexemes], rfl⟩
  case literal i v => exact ⟨_, _, by rw [lexemes], startsOperand_literal⟩
  case binary i op l r =>
    obtain ⟨own, hown⟩ := Option.isSome_iff_exists.mp h.1.1.2
    have hle := (binaryOp_kind hown).2.2.2.2
    have hlt : decide (own < postfixLevel) = true := by
      rw [decide_eq_true_eq, postfixLevel]
      omega
    simp only [lexemes, hown, Option.getD_some, hlt, wrapped, if_true]
    exact ⟨_, _, rfl, rfl⟩
  case unary i op e => exact ⟨_, _, by rw [lexemes]; rfl, rfl⟩
  case ternary i c t f => exact ⟨_, _, by rw [lexemes]; rfl, rfl⟩
  case index i b indices =>
    obtain ⟨k, ks, hk, hs⟩ := lexemes_startsOperand b h.1.1.1.2
    rw [lexemes, hk]
    split <;> exact ⟨_, _, rfl, hs⟩
  case member i b names =>
    obtain ⟨k, ks, hk, hs⟩ := lexemes_startsOperand b h.1.1.1.2
    rw [lexemes, hk]
    exact ⟨_, _, rfl, hs⟩
  case call i t args =>
    obtain ⟨k, ks, hk, hs⟩ := lexemes_startsOperand t h.1.1.2
    rw [lexemes, hk]
    exact ⟨_, _, rfl, hs⟩
  case method i o name args =>
    obtain ⟨k, ks, hk, hs⟩ := lexemes_startsOperand o h.1.1.2
    rw [lexemes, hk]
    exact ⟨_, _, rfl, hs⟩

end Canonical

end Shading
