import Shading.Literal
import Shading.Proofs.Token.Lexing

/-! String literals. A text in quotation marks is one token, and its content is the text again: what the printer puts
a backslash in front of is just what the scanner and the reader take together with one. -/
namespace Shading

namespace Rune

/-- The characters that a string treats in its own way are characters of ASCII. -/
theorem ascii_of_mem {c : Char} (hc : c ∈ ['"', '\n', '\\']) : 0 < c.toNat ∧ c.toNat < 0x80 := by
  simp only [List.mem_cons, List.not_mem_nil, or_false] at hc
  rcases hc with rfl | rfl | rfl <;> decide

theorem char_ne_of_mem {t : Text} (ht : ∀ b ∈ t, ¬ b < 0x80) {r : Rune} (hr : r ∈ ofText t) {c : Char}
    (hc : c ∈ ['"', '\n', '\\']) : r.char ≠ c := by
  induction hn : t.length using Nat.strongRecOn generalizing t with
  | ind n ih =>
    cases t with
    | nil => simp at hr
    | cons b rest =>
      rw [List.forall_mem_cons] at ht
      rw [ofText_cons] at hr
      rcases List.mem_cons.mp hr with rfl | hr
      · exact first_char_ne ht.1 rest (ascii_of_mem hc)
      · refine ih _ ?_ (fun x hx => ht.2 x (List.mem_of_mem_drop hx)) hr rfl
        rw [List.length_drop]
        rw [List.length_cons] at hn
        omega

end Rune

namespace Lexer

open Rune (ofText ascii)

/-- Runes that a string takes one by one. -/
theorem stringSize_append {rs rest : List Rune} {n : Nat} (hrs : ∀ r ∈ rs, ∀ c ∈ ['"', '\n', '\\'], r.char ≠ c)
    (h : stringSize rest = .ok n) : stringSize (rs ++ rest) = .ok (rs.length + n) := by
  induction rs with
  | nil => simpa using h
  | cons r rs ih =>
    rw [List.forall_mem_cons] at hrs
    have htail := ih hrs.2
    have hquote := hrs.1 '"' (by decide)
    have hline := hrs.1 '\n' (by decide)
    have hslash := hrs.1 '\\' (by decide)
    obtain ⟨s, more, hmore⟩ : ∃ s more, rs ++ rest = s :: more := by
      cases hcons : rs ++ rest with
      | nil => rw [hcons] at htail; cases htail
      | cons s more => exact ⟨s, more, rfl⟩
    rw [hmore] at htail
    rw [List.cons_append, hmore, stringSize, if_neg hquote, if_neg hline, if_neg hslash, htail]
    simp only [stringSize.shift, List.length_cons]
    congr 1
    omega

theorem stringSize_quote (rs : List Rune) : stringSize (ascii 34 :: rs) = .ok 1 := by
  cases rs <;> rfl

theorem stringSize_escape {rest : List Rune} {n : Nat} (r : Rune) (h : stringSize rest = .ok n) :
    stringSize (ascii 92 :: r :: rest) = .ok (2 + n) := by
  have hescape : stringSize (ascii 92 :: r :: rest) = stringSize.shift 2 (stringSize rest) := rfl
  rw [hescape, h, Nat.add_comm]
  rfl

/-- A character of ASCII that a string treats in its own way is written with a backslash. -/
theorem escape_of_ascii : ∀ b : UInt8, b < 0x80 →
    (∃ c, Literal.quote.escape b = [92, c] ∧ c < 0x80) ∨
      (Literal.quote.escape b = [b] ∧ ∀ c ∈ ['"', '\n', '\\'], (ascii b).char ≠ c) := by
  intro b hb
  unfold Literal.quote.escape
  split
  · exact .inl ⟨_, rfl, by decide⟩
  · split
    · exact .inl ⟨_, rfl, by decide⟩
    · split
      · exact .inl ⟨_, rfl, by decide⟩
      · split
        · exact .inl ⟨_, rfl, by decide⟩
        · next hslash hquote hline _ =>
          refine .inr ⟨rfl, fun c hc heq => ?_⟩
          have hbyte : b = Text.byte c := by
            rw [← heq]
            exact (Rune.byte_of_ascii b hb).symm
          simp only [List.mem_cons, List.not_mem_nil, or_false] at hc
          rcases hc with rfl | rfl | rfl
          · exact hquote hbyte
          · exact hline hbyte
          · exact hslash hbyte

theorem escape_of_not_ascii : ∀ b : UInt8, ¬ b < 0x80 → Literal.quote.escape b = [b] := by
  intro b hb
  have hne {c : UInt8} (hc : c < 0x80) : b ≠ c := fun heq => hb (heq ▸ hc)
  unfold Literal.quote.escape
  rw [if_neg (hne (by decide)), if_neg (hne (by decide)), if_neg (hne (by decide)), if_neg (hne (by decide))]

/-- The content of a literal goes up to its closing mark. The bytes in front of a character of ASCII are
gathered, since they may form one rune. -/
theorem stringSize_content (front t u : Text) (hfront : ∀ b ∈ front, ¬ b < 0x80) :
    stringSize (ofText (front ++ t.flatMap Literal.quote.escape ++ 34 :: u)) =
      .ok ((ofText (front ++ t.flatMap Literal.quote.escape)).length + 1) := by
  induction t generalizing front with
  | nil =>
    rw [List.flatMap_nil, List.append_nil, Rune.ofText_append_of_ascii _ (by decide),
      Rune.ofText_cons_ascii _ (by decide)]
    exact stringSize_append (fun r hr c hc => Rune.char_ne_of_mem hfront hr hc) (stringSize_quote _)
  | cons b t ih =>
    by_cases hb : b < 0x80
    · have htail := ih [] (by simp)
      rw [List.nil_append] at htail
      rcases escape_of_ascii b hb with ⟨c, hescape, hc⟩ | ⟨hescape, hplain⟩
      · have hsplit : ∀ v, ofText (front ++ (92 :: c :: v)) = ofText front ++ (ascii 92 :: ascii c :: ofText v) := by
          intro v
          rw [Rune.ofText_append_of_ascii _ (by decide), Rune.ofText_cons_ascii _ (by decide),
            Rune.ofText_cons_ascii _ hc]
        have hsize := stringSize_append (fun r hr c hc => Rune.char_ne_of_mem hfront hr hc)
          (stringSize_escape (ascii c) htail)
        simp only [List.flatMap_cons, hescape, List.cons_append, List.nil_append, List.append_assoc, hsplit]
        rw [hsize]
        simp only [List.length_append, List.length_cons]
        congr 1
        omega
      · have hsplit : ∀ v, ofText (front ++ (b :: v)) = ofText front ++ ([ascii b] ++ ofText v) := by
          intro v
          rw [Rune.ofText_append_of_ascii _ hb, Rune.ofText_cons_ascii _ hb]
          rfl
        have hone : ∀ r ∈ [ascii b], ∀ c ∈ ['"', '\n', '\\'], r.char ≠ c := by simpa using hplain
        have hsize := stringSize_append (fun r hr c hc => Rune.char_ne_of_mem hfront hr hc)
          (stringSize_append hone htail)
        simp only [List.flatMap_cons, hescape, List.cons_append, List.nil_append, List.append_assoc, hsplit]
        simp only [List.singleton_append] at hsize ⊢
        rw [hsize]
        simp only [List.length_append, List.length_cons, List.length_nil]
        congr 1
        omega
    · have hall : ∀ x ∈ front ++ [b], ¬ x < 0x80 := by
        intro x hx
        rcases List.mem_append.mp hx with hx | hx
        · exact hfront x hx
        · rw [List.mem_singleton.mp hx]
          exact hb
      have htail := ih (front ++ [b]) hall
      simpa [List.flatMap_cons, escape_of_not_ascii b hb] using htail

theorem quote_eq (t : Text) : Literal.quote t = 34 :: (t.flatMap Literal.quote.escape ++ [34]) := rfl

theorem step_string {rs : List Rune} {n : Nat} (h : stringSize rs = .ok n) :
    step (ascii 34) rs = .token .stringLiteral (1 + n) := by
  unfold step
  rw [h]
  rfl

theorem ofText_content (t u : Text) :
    ofText (t.flatMap Literal.quote.escape ++ 34 :: u) =
      (ofText (t.flatMap Literal.quote.escape) ++ [ascii 34]) ++ ofText u := by
  rw [Rune.ofText_append_of_ascii _ (by decide), Rune.ofText_cons_ascii _ (by decide), List.append_assoc]
  rfl

/-- The runes of a quoted text: those of its content stand between the two marks, whatever follows. -/
theorem ofText_quote (t u : Text) :
    ofText (Literal.quote t ++ u) =
      ascii 34 :: ((ofText (t.flatMap Literal.quote.escape) ++ [ascii 34]) ++ ofText u) := by
  rw [quote_eq, List.cons_append, List.append_assoc, Rune.ofText_cons_ascii _ (by decide),
    List.singleton_append, ofText_content]

/-- The first step into a quoted text takes all of it and nothing of what follows. -/
theorem step_quote (t u : Text) :
    step (ascii 34) ((ofText (t.flatMap Literal.quote.escape) ++ [ascii 34]) ++ ofText u) =
      .token .stringLiteral (1 + (ofText (t.flatMap Literal.quote.escape) ++ [ascii 34]).length) := by
  have hsize := stringSize_content [] t u (by simp)
  rw [List.nil_append, ofText_content] at hsize
  rw [step_string hsize, List.length_append, List.length_singleton]

theorem text_quote (t : Text) :
    Rune.text (ascii 34 :: (ofText (t.flatMap Literal.quote.escape) ++ [ascii 34])) = Literal.quote t := by
  rw [Rune.text_cons, Rune.text_append, Rune.text_ofText]
  rfl

theorem YieldsAlways.string (t : Text) : YieldsAlways (Literal.quote t) [(.stringLiteral, Literal.quote t)] := by
  intro u ls hu
  have hscan := Scans.token (step_quote t u) hu
  rw [text_quote] at hscan
  rw [Spells, ofText_quote]
  exact hscan

end Lexer

namespace Literal

theorem unescape_plain {b : UInt8} (hb : b ≠ 92) {rest t : Text} (h : unescape rest = .ok t) :
    unescape (b :: rest) = .ok (b :: t) := by
  have hslash : b ≠ Text.byte '\\' := hb
  rw [unescape.eq_def]
  simp only [if_pos hslash, h]
  rfl

/-- A backslash takes the byte after it along. -/
theorem unescape_pair {c d : UInt8} (hc : (c, d) ∈ [((92 : UInt8), (92 : UInt8)), (34, 34), (110, 10), (116, 9)])
    {rest t : Text} (h : unescape rest = .ok t) : unescape (92 :: c :: rest) = .ok (d :: t) := by
  rw [unescape.eq_def]
  simp only [List.mem_cons, Prod.mk.injEq, List.not_mem_nil, or_false] at hc
  rcases hc with ⟨rfl, rfl⟩ | ⟨rfl, rfl⟩ | ⟨rfl, rfl⟩ | ⟨rfl, rfl⟩ <;> simp only [h] <;> rfl

theorem unescape_escape {b : UInt8} {rest t : Text} (h : unescape rest = .ok t) :
    unescape (quote.escape b ++ rest) = .ok (b :: t) := by
  unfold quote.escape
  split
  · rename_i hb
    subst hb
    exact unescape_pair (by decide) h
  · split
    · rename_i hb
      subst hb
      exact unescape_pair (by decide) h
    · split
      · rename_i hb
        subst hb
        exact unescape_pair (by decide) h
      · split
        · rename_i hb
          subst hb
          exact unescape_pair (by decide) h
        · rename_i hslash _ _ _
          exact unescape_plain hslash h

theorem unescape_content (t : Text) : unescape (t.flatMap quote.escape) = .ok t := by
  induction t with
  | nil => rfl
  | cons b t ih =>
    rw [List.flatMap_cons]
    exact unescape_escape ih

/-- The content of a quoted text is the text. -/
theorem string_quote (t : Text) : string (quote t) = .ok t := by
  have hlength : ¬ (quote t).length < 2 := by
    rw [Lexer.quote_eq, List.length_cons, List.length_append, List.length_singleton]
    omega
  have hcontent : ((quote t).drop 1).dropLast = t.flatMap quote.escape := by
    rw [Lexer.quote_eq, List.drop_one, List.tail_cons, List.dropLast_concat]
  rw [string, if_neg hlength, hcontent, unescape_content]

end Literal

/-- A quoted text is one token up to its closing mark, and the content of the token is the text again, whatever bytes
it is made of. -/
theorem tokenize_quote (file t : Text) :
    (let stop := Position.after ⟨1, 1, 0⟩ (Rune.ofText (Literal.quote t));
      tokenize file (Literal.quote t) = .ok [⟨.stringLiteral, Literal.quote t, ⟨⟨1, 1, 0⟩, stop, file⟩⟩,
        ⟨.endOfFile, [], ⟨stop, stop, file⟩⟩]) ∧
      Literal.string (Literal.quote t) = .ok t := by
  refine ⟨?_, Literal.string_quote t⟩
  have hrunes := Lexer.ofText_quote t []
  have hstep := Lexer.step_quote t []
  rw [Rune.ofText_nil, List.append_nil] at hrunes hstep
  rw [List.append_nil] at hrunes
  generalize hinner : Rune.ofText (t.flatMap Literal.quote.escape) ++ [Rune.ascii 34] = inner at hrunes hstep
  have htext : Rune.text (Rune.ascii 34 :: inner) = Literal.quote t := by
    rw [← hinner, Lexer.text_quote]
  have htaken : inner.take (1 + inner.length - 1) = inner := List.take_of_length_le (by omega)
  have hrest : inner.drop (1 + inner.length - 1) = [] := List.drop_eq_nil_of_le (by omega)
  -- the only step takes all the runes, so that the end of the text is the end of the token
  dsimp only
  rw [tokenize, hrunes, Lexer.scan.eq_def]
  simp only [hstep, Lexer.Step.size, htaken, hrest, htext, Lexer.scan]
  rfl

end Shading
