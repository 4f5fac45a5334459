import Mathlib.Data.List.Forall2
import Shading.Proofs.Text.Rune
import Shading.Token.Lexer

/-! Tokens of texts that are put together. A text yields its tokens unless what follows it goes on with
the last of them. -/
namespace Shading

theorem bind_eq_ok {ε α β : Type} {x : Except ε α} {f : α → Except ε β} {y : β} (h : x >>= f = .ok y) :
    ∃ a, x = .ok a ∧ f a = .ok y := by
  cases x with
  | error e => cases h
  | ok a => exact ⟨a, rfl, h⟩

/-- A list that is worked through one after the other succeeds with the results of its items. -/
theorem mapM_eq_ok_iff {ε α β : Type} {f : α → Except ε β} {as : List α} {bs : List β} :
    as.mapM f = .ok bs ↔ List.Forall₂ (fun a b => f a = .ok b) as bs := by
  induction as generalizing bs with
  | nil => simp [pure, Except.pure, eq_comm]
  | cons a as ih =>
    rw [List.mapM_cons, List.forall₂_cons_left_iff]
    cases ha : f a with
    | error e => simp [bind, Except.bind]
    | ok b =>
      cases has : as.mapM f with
      | error e =>
        rw [has] at ih
        simp [bind, Except.bind, ← ih]
      | ok bs' =>
        rw [has] at ih
        simp [bind, Except.bind, pure, Except.pure, ← ih, eq_comm]

theorem ok_of_toOption {ε α : Type} {x : Except ε α} {a : α} (h : x.toOption = some a) : x = .ok a := by
  cases x with
  | error e => cases h
  | ok b =>
    cases h
    rfl

/-- A token without its place. -/
abbrev Lexeme := TokenKind × Text

/-- The kind of a token and its text. -/
def Token.spelling (t : Token) : Lexeme := (t.kind, t.lexeme)

/-- The lexeme of an operator, a bracket or a keyword. -/
def TokenKind.lexeme (k : TokenKind) : Lexeme := (k, k.text)

namespace Lexer

open Rune (ofText ascii)

/-- The runes are those of the tokens with these spellings. -/
def Scans (rs : List Rune) (ks : List Lexeme) : Prop :=
  ∀ file p, ∃ ts, scan file p rs = .ok ts ∧ ts.map Token.spelling = ks

theorem Scans.nil : Scans [] [(.endOfFile, [])] := by
  intro file p
  exact ⟨_, by rw [scan], rfl⟩

theorem Scans.token {r : Rune} {taken rest : List Rune} {kind : TokenKind} {ks : List Lexeme}
    (hstep : step r (taken ++ rest) = .token kind (1 + taken.length)) (h : Scans rest ks) :
    Scans (r :: (taken ++ rest)) ((kind, Rune.text (r :: taken)) :: ks) := by
  intro file p
  obtain ⟨ts, hts, hks⟩ := h file (p.after (r :: taken))
  rw [scan]
  simp only [hstep, Step.size, Nat.add_sub_cancel_left, List.take_left, List.drop_left, hts]
  exact ⟨_, rfl, by simp [Token.spelling, hks]⟩

theorem Scans.blank {r : Rune} {rest : List Rune} {ks : List Lexeme}
    (hstep : step r rest = .blank 1) (h : Scans rest ks) : Scans (r :: rest) ks := by
  intro file p
  obtain ⟨ts, hts, hks⟩ := h file (p.afterLines [r])
  rw [scan]
  simp only [hstep, Step.size, Nat.sub_self, List.take_zero, List.drop_zero]
  exact ⟨ts, hts, hks⟩

/-- Do the runes start with something that no word and no number goes on with? A point does so if a name
follows it. -/
def softAhead : List Rune → Bool
  | [] => true
  | r :: rs => " \n()[],;:".toList.elem r.char || (r.char == '.' && ahead isWordStart rs)

/-- Does the text start with something that no word and no number goes on with? -/
def isSoft (t : Text) : Bool := softAhead (ofText t)

/-- The whole text has the tokens with these spellings. -/
def Spells (t : Text) (ks : List Lexeme) : Prop := Scans (ofText t) ks

/-- In front of a text that starts softly, the text has the tokens with these spellings. -/
def Yields (t : Text) (ks : List Lexeme) : Prop :=
  ∀ u ls, isSoft u → Spells u ls → Spells (t ++ u) (ks ++ ls)

/-- In front of any text, the text has the tokens with these spellings. -/
def YieldsAlways (t : Text) (ks : List Lexeme) : Prop :=
  ∀ u ls, Spells u ls → Spells (t ++ u) (ks ++ ls)

section

variable {t u : Text} {ks ls : List Lexeme}

theorem YieldsAlways.yields (h : YieldsAlways t ks) : Yields t ks := fun u ls _ hu => h u ls hu

theorem YieldsAlways.append (h : YieldsAlways t ks) (h' : YieldsAlways u ls) :
    YieldsAlways (t ++ u) (ks ++ ls) := by
  intro v ms hv
  rw [List.append_assoc, List.append_assoc]
  exact h _ _ (h' _ _ hv)

/-- What follows a text that yields its tokens always may be anything. -/
theorem YieldsAlways.before (h : YieldsAlways t ks) (h' : Yields u ls) :
    Yields (t ++ u) (ks ++ ls) := by
  intro v ms hs hv
  rw [List.append_assoc, List.append_assoc]
  exact h _ _ (h' _ _ hs hv)

theorem Yields.append (h : Yields t ks) (h' : Yields u ls) (hsoft : ∀ v, isSoft v → isSoft (u ++ v)) :
    Yields (t ++ u) (ks ++ ls) := by
  intro v ms hs hv
  rw [List.append_assoc, List.append_assoc]
  exact h _ _ (hsoft v hs) (h' _ _ hs hv)

theorem Yields.before (h : Yields t ks) (h' : YieldsAlways u ls) (hsoft : ∀ v, isSoft (u ++ v)) :
    YieldsAlways (t ++ u) (ks ++ ls) := by
  intro v ms hv
  rw [List.append_assoc, List.append_assoc]
  exact h _ _ (hsoft v) (h' _ _ hv)

theorem Yields.spells (h : Yields t ks) : Spells t (ks ++ [(.endOfFile, [])]) := by
  have hnil : Spells [] [(.endOfFile, [])] := Scans.nil
  have ht := h [] _ rfl hnil
  rwa [List.append_nil] at ht

theorem YieldsAlways.nil : YieldsAlways [] [] := fun _ _ h => h

end

/-- A text whose bytes are of ASCII and that is one token by its first step. -/
theorem YieldsAlways.symbol (k : TokenKind) (b : UInt8) (t : Text) (hb : b < 0x80)
    (ht : ∀ c ∈ t, c < 0x80)
    (hstep : ∀ rs, step (ascii b) (t.map ascii ++ rs) = .token k (1 + t.length)) :
    YieldsAlways (b :: t) [(k, b :: t)] := by
  intro u ls hu
  have hstep' := hstep (ofText u)
  rw [← List.length_map ascii] at hstep'
  have htext : Rune.text (ascii b :: t.map ascii) = b :: t := by
    simp [Rune.text, ascii, List.flatMap_map]
  have h := Scans.token hstep' hu
  rw [htext] at h
  rw [Spells, List.cons_append, Rune.ofText_cons_ascii _ hb, Rune.ofText_append_ascii _ ht]
  exact h

/-- A blank is no token. -/
theorem YieldsAlways.blank (b : UInt8) (hb : b < 0x80) (hstep : ∀ rs, step (ascii b) rs = .blank 1) :
    YieldsAlways [b] [] := by
  intro u ls hu
  rw [Spells, List.cons_append, Rune.ofText_cons_ascii _ hb]
  exact Scans.blank (hstep _) hu

theorem YieldsAlways.space : YieldsAlways " " [] := .blank 32 (by decide) fun _ => rfl

/-- What holds of all characters of ASCII by their numbers holds of them. -/
theorem forall_ascii (p : Char → Prop) (h : ∀ n : Fin 128, p (Char.ofNat n)) {c : Char}
    (hc : c.toNat < 128) : p c := by
  have hp := h ⟨c.toNat, hc⟩
  rwa [Char.ofNat_toNat] at hp

theorem toNat_lt_of_isDigit {c : Char} (h : c.isDigit) : c.toNat < 128 := by
  simp only [Char.isDigit, Bool.and_eq_true, decide_eq_true_eq] at h
  have hle : c.toNat ≤ 57 := h.2
  omega

theorem isWordStart_of_isDigit {c : Char} (h : c.isDigit) : isWordStart c = false :=
  forall_ascii (fun c => c.isDigit → isWordStart c = false) (by decide) (toNat_lt_of_isDigit h) h

theorem isWordChar_replacement : isWordChar Rune.replacement = false := by
  rw [isWordChar, isWordStart, Letter.isLetter, ← Array.any_toList]
  decide +kernel

/-- Is the text a word of the language: a letter or an underscore, and more of these or digits? -/
def isWord (t : Text) : Bool :=
  match ofText t with
  | [] => false
  | r :: rs => isWordStart r.char && rs.all fun s => isWordChar s.char

/-- Is the text a word that the language does not keep for itself? -/
def isName (t : Text) : Bool := isWord t && !TokenKind.isKeyword t

theorem isWordChar_of_isWordStart {c : Char} (h : isWordStart c) : isWordChar c := by
  rw [isWordChar, h, Bool.true_or]

theorem run_append {p : Char → Bool} {rs rest : List Rune} (hrs : ∀ r ∈ rs, p r.char)
    (hrest : ahead p rest = false) : run p (rs ++ rest) = rs.length := by
  have htake : rest.takeWhile (fun r => p r.char) = [] := by
    cases rest with
    | nil => rfl
    | cons r rest => exact List.takeWhile_cons_of_neg (by rw [ahead] at hrest; simp [hrest])
  rw [run, List.takeWhile_append_of_pos hrs, htake, List.append_nil]

theorem step_word {r : Rune} {rs rest : List Rune} (hr : isWordStart r.char)
    (hrs : ∀ s ∈ rs, isWordChar s.char) (hrest : ahead isWordChar rest = false) :
    step r (rs ++ rest) = .token (.ofWord (Rune.text (r :: rs))) (1 + rs.length) := by
  have hne : ∀ d, isWordStart d = false → r.char ≠ d := by
    rintro d hd rfl
    rw [hr] at hd
    cases hd
  have hdigit : r.char.isDigit = false := by
    cases hd : r.char.isDigit with
    | false => rfl
    | true => rw [isWordStart_of_isDigit hd] at hr; cases hr
  rw [step]
  simp only [hne ' ' (by decide), hne '\r' (by decide), hne '\t' (by decide), hne '\n' (by decide),
    hne '/' (by decide), hne '"' (by decide), hne '.' (by decide), hdigit, hr, decide_false,
    Bool.or_self, Bool.false_and, Bool.false_eq_true, if_false, if_true, run_append hrs hrest]
  rw [show (r :: (rs ++ rest)).take (1 + rs.length) = r :: rs by rw [Nat.add_comm]; simp]

/-- What fails for all soft characters and for a point fails for what starts softly. -/
theorem ahead_of_softAhead (p : Char → Bool) {rs : List Rune} (h : softAhead rs)
    (hp : ∀ c ∈ ".  \n()[],;:".toList, p c = false) : ahead p rs = false := by
  cases rs with
  | nil => rfl
  | cons r rs =>
    simp only [softAhead, Bool.or_eq_true, Bool.and_eq_true, beq_iff_eq, List.elem_eq_mem,
      decide_eq_true_eq] at h
    apply hp
    rcases h with h | ⟨h, -⟩
    · exact List.mem_cons_of_mem _ (List.mem_cons_of_mem _ h)
    · rw [h]
      decide

theorem isWordChar_of_isWord {t : Text} (h : isWord t) : ∀ r ∈ ofText t, isWordChar r.char := by
  rw [isWord] at h
  cases ht : ofText t with
  | nil => simp
  | cons r rs =>
    rw [ht] at h
    simp only [Bool.and_eq_true, List.all_eq_true] at h
    exact List.forall_mem_cons.mpr ⟨isWordChar_of_isWordStart h.1, h.2⟩

/-- A word has no faulty bytes. -/
theorem char_ne_of_isWord {t : Text} (h : isWord t) : ∀ r ∈ ofText t, r.char ≠ Rune.replacement := by
  intro r hr heq
  have hchar := isWordChar_of_isWord h r hr
  rw [heq, isWordChar_replacement] at hchar
  cases hchar

theorem Yields.word {t : Text} (h : isWord t) : Yields t [(.ofWord t, t)] := by
  have hproper := char_ne_of_isWord h
  rw [isWord] at h
  cases ht : ofText t with
  | nil => rw [ht] at h; cases h
  | cons r rs =>
    rw [ht] at h
    simp only [Bool.and_eq_true, List.all_eq_true] at h
    have htext : Rune.text (r :: rs) = t := by rw [← ht, Rune.text_ofText]
    intro u ls hu hls
    have hstep := step_word h.1 h.2 (ahead_of_softAhead _ hu (by decide))
    have hscan := Scans.token hstep hls
    rw [htext] at hscan
    rw [Spells, Rune.ofText_append u hproper, ht]
    exact hscan

theorem ofWord_of_isName {t : Text} (h : isName t) : TokenKind.ofWord t = .identifier := by
  simp only [isName, TokenKind.isKeyword, Bool.and_eq_true, Bool.not_eq_true', List.any_eq_false] at h
  have hnone : TokenKind.keywords.find? (·.text == t) = none := List.find?_eq_none.mpr h.2
  rw [TokenKind.ofWord, hnone]
  rfl

theorem Yields.name {t : Text} (h : isName t) : Yields t [(.identifier, t)] := by
  have hw : isWord t := by
    rw [isName, Bool.and_eq_true] at h
    exact h.1
  have hy := Yields.word hw
  rwa [ofWord_of_isName h] at hy

/-- A point in front of a name is soft. -/
theorem isSoft_dot_name {t : Text} (h : isWord t) (u : Text) : isSoft (46 :: (t ++ u)) := by
  rw [isSoft, Rune.ofText_cons_ascii _ (by decide), Rune.ofText_append u (char_ne_of_isWord h)]
  rw [isWord] at h
  cases ht : ofText t with
  | nil => rw [ht] at h; cases h
  | cons r rs =>
    rw [ht] at h
    simp only [Bool.and_eq_true] at h
    simp only [softAhead, List.cons_append, ahead, h.1, Bool.and_true, Bool.or_eq_true]
    exact .inr rfl

/-- A text whose first byte is a soft character is soft. -/
theorem isSoft_cons {b : UInt8} (u : Text) (hb : b < 0x80)
    (hsoft : " \n()[],;:".toList.elem (Char.ofNat b.toNat)) : isSoft (b :: u) := by
  rw [isSoft, Rune.ofText_cons_ascii _ hb, softAhead, Bool.or_eq_true]
  exact .inl hsoft

/-- An operator or a bracket with a blank after it is taken whole. -/
theorem step_spaced (k : TokenKind) (h : k ∈ TokenKind.symbols) :
    ∃ b t, k.text = b :: t ∧ (∀ c ∈ b :: t, c < 0x80) ∧
      ∀ rs, step (ascii b) (t.map ascii ++ ascii 32 :: rs) = .token k (1 + t.length) := by
  cases k <;> first
    | exact absurd h (by decide)
    | exact ⟨_, _, rfl, by decide, fun _ => rfl⟩

theorem YieldsAlways.spaced {k : TokenKind} (h : k ∈ TokenKind.symbols) :
    YieldsAlways (k.text ++ " ") [k.lexeme] := by
  obtain ⟨b, t, htext, hascii, hstep⟩ := step_spaced k h
  intro u ls hu
  have hu' : Spells (32 :: u) ls := YieldsAlways.space u ls hu
  have htake := hstep (ofText u)
  rw [← List.length_map ascii, ← Rune.ofText_cons_ascii u (by decide)] at htake
  have hscan := Scans.token htake hu'
  have hspell : Rune.text (ascii b :: t.map ascii) = k.text := by
    simp [Rune.text, ascii, List.flatMap_map, htext]
  rw [hspell] at hscan
  have hrunes : ofText (k.text ++ 32 :: u) = ascii b :: (t.map ascii ++ ofText (32 :: u)) := by
    rw [htext, Rune.ofText_append_ascii _ hascii]
    rfl
  rw [Spells, List.append_assoc]
  change Scans (ofText (k.text ++ 32 :: u)) _
  rw [hrunes]
  exact hscan

/-- The brackets and marks that no other token starts with. -/
def marks : List TokenKind :=
  [.leftParen, .rightParen, .leftBracket, .rightBracket, .leftBrace, .rightBrace, .comma, .colon,
   .semicolon, .question]

theorem step_mark (k : TokenKind) (h : k ∈ marks) :
    ∃ b, k.text = [b] ∧ b < 0x80 ∧ ∀ rs, step (ascii b) rs = .token k 1 := by
  cases k <;> first
    | exact absurd h (by decide)
    | exact ⟨_, rfl, by decide, fun _ => rfl⟩

theorem YieldsAlways.mark {k : TokenKind} (h : k ∈ marks) : YieldsAlways k.text [k.lexeme] := by
  obtain ⟨b, htext, hb, hstep⟩ := step_mark k h
  rw [TokenKind.lexeme, htext]
  exact .symbol k b [] hb (by simp) hstep

theorem step_dot {rs : List Rune} (h : ahead Char.isDigit rs = false) :
    step (ascii 46) rs = .token .dot 1 := by
  unfold step
  rw [h]
  rfl

theorem Yields.dotName {t : Text} (h : isName t) :
    Yields (46 :: t) [TokenKind.lexeme .dot, (.identifier, t)] := by
  intro u ls hs hu
  have hname := Yields.name h u ls hs hu
  have hw : isWord t := by
    rw [isName, Bool.and_eq_true] at h
    exact h.1
  have hdigit : ahead Char.isDigit (ofText (t ++ u)) = false := by
    rw [Rune.ofText_append u (char_ne_of_isWord hw)]
    rw [isWord] at hw
    cases ht : ofText t with
    | nil => rw [ht] at hw; cases hw
    | cons r rs =>
      rw [ht, Bool.and_eq_true] at hw
      cases hd : r.char.isDigit with
      | false => exact hd
      | true => rw [isWordStart_of_isDigit hd] at hw; cases hw.1
  rw [Spells, List.cons_append, Rune.ofText_cons_ascii _ (by decide)]
  have hstep : step (ascii 46) ([] ++ ofText (t ++ u)) = .token .dot 1 := step_dot hdigit
  exact Scans.token hstep hname

/-- The operators of one operand. -/
def unaryMarks : List TokenKind := [.minus, .plus, .bang, .tilde]

/-- A sign is no beginning of a longer operator if neither `=` nor `>` follows it. -/
theorem find_unary {k : TokenKind} (h : k ∈ unaryMarks) {c : UInt8} (hc : c ≠ 61) (hc' : c ≠ 62)
    (x : Text) : TokenKind.symbols.find? (fun l => l.text.isPrefixOf (k.text ++ c :: x)) = some k := by
  have h61 : (61 == c) = false := by simpa using hc.symm
  have h62 : (62 == c) = false := by simpa using hc'.symm
  simp only [unaryMarks, List.mem_cons, List.not_mem_nil, or_false] at h
  rcases h with rfl | rfl | rfl | rfl
  · have harrow : (TokenKind.text .arrow).isPrefixOf (45 :: c :: x) = ((62 == c) && true) := rfl
    have hequal : (TokenKind.text .minusEqual).isPrefixOf (45 :: c :: x) = ((61 == c) && true) := rfl
    change TokenKind.symbols.find? (fun l => l.text.isPrefixOf (45 :: c :: x)) = _
    simp only [TokenKind.symbols, List.find?_cons]
    rw [harrow, hequal, h61, h62]
    rfl
  · have hequal : (TokenKind.text .plusEqual).isPrefixOf (43 :: c :: x) = ((61 == c) && true) := rfl
    change TokenKind.symbols.find? (fun l => l.text.isPrefixOf (43 :: c :: x)) = _
    simp only [TokenKind.symbols, List.find?_cons]
    rw [hequal, h61]
    rfl
  · have hequal : (TokenKind.text .bangEqual).isPrefixOf (33 :: c :: x) = ((61 == c) && true) := rfl
    change TokenKind.symbols.find? (fun l => l.text.isPrefixOf (33 :: c :: x)) = _
    simp only [TokenKind.symbols, List.find?_cons]
    rw [hequal, h61]
    rfl
  · rfl

/-- Neither `=` nor `>` in front: no operator in front of the text becomes a longer one. -/
def opensOperand : Text → Bool
  | [] => false
  | c :: _ => c != 61 && c != 62

theorem unary_text {k : TokenKind} (h : k ∈ unaryMarks) :
    ∃ b, k.text = [b] ∧ b < 0x80 ∧ ∀ rs, step (ascii b) rs =
      match TokenKind.symbols.find? (fun l => l.text.isPrefixOf (Rune.text ((ascii b :: rs).take 3))) with
      | some l => .token l l.text.length
      | none => .fault (.unexpected (ascii b).char) 1 := by
  simp only [unaryMarks, List.mem_cons, List.not_mem_nil, or_false] at h
  rcases h with rfl | rfl | rfl | rfl <;> exact ⟨_, rfl, by decide, fun _ => rfl⟩

theorem step_unary {k : TokenKind} (h : k ∈ unaryMarks) {u : Text} (hu : opensOperand u) :
    ∃ b, k.text = [b] ∧ b < 0x80 ∧ step (ascii b) (ofText u) = .token k 1 := by
  obtain ⟨b, htext, hb, hstep⟩ := unary_text h
  refine ⟨b, htext, hb, ?_⟩
  cases u with
  | nil => cases hu
  | cons c u =>
    simp only [opensOperand, Bool.and_eq_true, bne_iff_ne] at hu
    obtain ⟨more, hmore, _⟩ := Rune.first_bytes c u
    have hfront : Rune.text ((ascii b :: ofText (c :: u)).take 3) =
        k.text ++ c :: (more ++ Rune.text ((ofText (u.drop more.length)).take 1)) := by
      rw [Rune.ofText_cons, htext]
      simp [ascii, hmore]
    rw [hstep, hfront, find_unary h hu.1 hu.2]
    simp only [htext, List.length_singleton]

theorem Yields.unary {k : TokenKind} (h : k ∈ unaryMarks) {t : Text} {ks : List Lexeme}
    (ht : Yields t ks) (hopen : opensOperand t) : Yields (k.text ++ t) (k.lexeme :: ks) := by
  intro u ls hs hu
  have hopen' : opensOperand (t ++ u) := by
    cases t with
    | nil => cases hopen
    | cons c t => exact hopen
  obtain ⟨b, htext, hb, hstep⟩ := step_unary h hopen'
  have hstep' : step (ascii b) ([] ++ ofText (t ++ u)) = .token k 1 := hstep
  have hscan := Scans.token hstep' (ht u ls hs hu)
  have hrunes : ofText (k.text ++ t ++ u) = ascii b :: ofText (t ++ u) := by
    rw [htext, List.append_assoc, List.singleton_append, Rune.ofText_cons_ascii _ hb]
  have hspell : Rune.text [ascii b] = k.text := by
    rw [htext]
    rfl
  rw [hspell] at hscan
  rw [Spells, hrunes]
  exact hscan

end Lexer

end Shading
