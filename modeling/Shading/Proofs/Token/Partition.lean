import Shading.Proofs.Token.Lexing

/-! The tokens of a source text and what stands between them make up the text, and the identifiers among them are
names. -/
namespace Shading.Lexer

/-- A number is a literal, or there is a fault in it. -/
theorem number_cases (first : Char) (rs : List Rune) :
    (∃ kind n, number first rs = .token kind n ∧ (kind = .intLiteral ∨ kind = .floatLiteral)) ∨
      ∃ e n, number first rs = .fault e n := by
  rw [number]
  extract_lets _ _ _ _ _ _ _ _ _ _ _ _ _ _ _ _ _ kind
  have hkind : kind = .intLiteral ∨ kind = .floatLiteral := by
    unfold kind
    split <;> simp
  clear_value kind
  split
  · split
    · exact .inl ⟨_, _, rfl, .inl rfl⟩
    · exact .inr ⟨_, _, rfl⟩
  · split
    · exact .inr ⟨_, _, rfl⟩
    · split
      · exact .inr ⟨_, _, rfl⟩
      · exact .inl ⟨_, _, rfl, hkind⟩

theorem number_ne_identifier (first : Char) (rs : List Rune) (n : Nat) :
    number first rs ≠ .token .identifier n := by
  intro h
  rcases number_cases first rs with ⟨kind, m, hnumber, hkind⟩ | ⟨e, m, hnumber⟩
  · cases hnumber.symm.trans h
    rcases hkind with hkind | hkind <;> cases hkind
  · cases hnumber.symm.trans h

/-- Only a word is an identifier, and it is taken whole. -/
theorem step_identifier {r : Rune} {rs : List Rune} {n : Nat} (h : step r rs = .token .identifier n) :
    isWordStart r.char ∧ n = 1 + run isWordChar rs ∧
      TokenKind.ofWord (Rune.text ((r :: rs).take n)) = .identifier := by
  rw [step] at h
  extract_lets c size at h
  split at h
  · cases h
  split at h
  · cases h
  split at h
  · split at h <;> cases h
  split at h
  · split at h <;> cases h
  split at h
  · exact absurd h (number_ne_identifier _ _ _)
  split at h
  · rename_i hword
    injection h with hkind hn
    exact ⟨hword, hn.symm, by rw [← hn]; exact hkind⟩
  split at h
  · rename_i k hfind
    injection h with hkind hn
    have hmem := List.mem_of_find?_eq_some hfind
    rw [hkind] at hmem
    exact absurd hmem (by decide)
  · cases h

theorem isKeyword_of_ofWord {w : Text} (h : TokenKind.ofWord w = .identifier) : TokenKind.isKeyword w = false := by
  rw [TokenKind.isKeyword, List.any_eq_false]
  intro k hk heq
  cases hfind : TokenKind.keywords.find? (·.text == w) with
  | none => exact absurd heq (List.find?_eq_none.mp hfind k hk)
  | some k' =>
    rw [TokenKind.ofWord, hfind] at h
    have hmem := List.mem_of_find?_eq_some hfind
    rw [Option.getD_some] at h
    rw [h] at hmem
    exact absurd hmem (by decide)

theorem take_run (p : Char → Bool) (rs : List Rune) : rs.take (run p rs) = rs.takeWhile fun r => p r.char :=
  (List.prefix_iff_eq_take.mp (List.takeWhile_prefix _)).symm

/-- The text of a word among the runes of a text is a name. -/
theorem isName_of_step {r : Rune} {rs : List Rune} {n : Nat}
    (hrs : ∀ s ∈ r :: rs, ∃ b rest, s = Rune.first b rest) (h : step r rs = .token .identifier n) :
    isName (Rune.text ((r :: rs).take n)) := by
  obtain ⟨hstart, rfl, hword⟩ := step_identifier h
  have htake : (r :: rs).take (1 + run isWordChar rs) = r :: rs.takeWhile fun s => isWordChar s.char := by
    rw [Nat.add_comm, List.take_succ_cons, take_run]
  have hchars : ∀ s ∈ rs.takeWhile fun s => isWordChar s.char, isWordChar s.char := by
    have hall : (rs.takeWhile fun s => isWordChar s.char).all fun s => isWordChar s.char := List.all_takeWhile
    simpa only [List.all_eq_true] using hall
  have hproper : ∀ s ∈ r :: rs.takeWhile fun s => isWordChar s.char, s.char ≠ Rune.replacement := by
    intro s hs heq
    have hchar : isWordChar s.char := by
      rcases List.mem_cons.mp hs with rfl | hs
      · exact isWordChar_of_isWordStart hstart
      · exact hchars s hs
    rw [heq, isWordChar_replacement] at hchar
    cases hchar
  have hread : Rune.ofText (Rune.text (r :: rs.takeWhile fun s => isWordChar s.char)) =
      r :: rs.takeWhile fun s => isWordChar s.char := by
    refine Rune.ofText_text (fun s hs => hrs s ?_) hproper
    rcases List.mem_cons.mp hs with rfl | hs
    · exact List.mem_cons_self
    · exact List.mem_cons_of_mem _ (List.takeWhile_subset _ hs)
  rw [htake] at hword ⊢
  rw [isName, isKeyword_of_ofWord hword, Bool.not_false, Bool.and_true, isWord, hread]
  simp only [Bool.and_eq_true, List.all_eq_true]
  exact ⟨hstart, hchars⟩

theorem scan_named {file : Text} {p : Position} {rs : List Rune} {ts : List Token}
    (hrs : ∀ r ∈ rs, ∃ b rest, r = Rune.first b rest) (h : scan file p rs = .ok ts) :
    ∀ t ∈ ts, t.kind = .identifier → isName t.lexeme := by
  induction hn : rs.length using Nat.strongRecOn generalizing p rs ts with
  | ind n ih =>
    cases rs with
    | nil =>
      rw [scan] at h
      cases h
      simp
    | cons r rs =>
      have hlt : ∀ k, (rs.drop k).length < n := by
        intro k
        rw [List.length_drop]
        rw [List.length_cons] at hn
        omega
      have hdrop : ∀ k, ∀ s ∈ rs.drop k, ∃ b rest, s = Rune.first b rest := fun k s hs =>
        hrs s (List.mem_cons_of_mem _ (List.mem_of_mem_drop hs))
      rw [scan] at h
      cases hstep : step r rs with
      | token kind size =>
        simp only [hstep, Step.size] at h
        obtain ⟨us, hus, h⟩ := bind_eq_ok h
        cases h
        refine List.forall_mem_cons.mpr ⟨fun hkind => ?_, ih _ (hlt _) (hdrop _) hus rfl⟩
        simp only at hkind
        rw [hkind] at hstep
        have hsize := (step_identifier hstep).2.1
        have hname := isName_of_step hrs hstep
        obtain ⟨k, rfl⟩ : ∃ k, size = k + 1 := ⟨size - 1, by omega⟩
        rwa [List.take_succ_cons] at hname
      | blank size =>
        simp only [hstep, Step.size] at h
        exact ih _ (hlt _) (hdrop _) h rfl
      | fault e size => rw [hstep] at h; cases h
      | blankFault e size => rw [hstep] at h; cases h

end Shading.Lexer

namespace Shading

/-- The identifiers among the tokens of a text are names. -/
theorem tokenize_named {file source : Text} {ts : List Token} (h : tokenize file source = .ok ts) :
    ∀ t ∈ ts, t.kind = .identifier → Lexer.isName t.lexeme :=
  Lexer.scan_named (fun _ hr => Rune.mem_ofText hr) h

/-- The bytes of a text from one offset to another one. -/
def Text.slice (t : Text) (start stop : Int) : Text := (t.take stop.toNat).drop start.toNat

namespace Lexer

/-- The rest of a comment in which a number of comments are open. Each of them is closed, and the last one
at the end. -/
inductive CommentRest : Nat → Text → Prop
  | done : CommentRest 0 []
  | opens {d : Nat} {t : Text} : CommentRest (d + 2) t → CommentRest (d + 1) ("/*" ++ t)
  | closes {d : Nat} {t : Text} : CommentRest d t → CommentRest (d + 1) ("*/" ++ t)
  | other {d : Nat} {b : UInt8} {t : Text} : ¬ ("/*" : Text) <+: b :: t → ¬ ("*/" : Text) <+: b :: t →
      CommentRest (d + 1) t → CommentRest (d + 1) (b :: t)

/-- What stands between tokens: blanks, comments that run to the end of their line, and comments that may
hold comments. A comment on the last line of a text ends with the text. -/
inductive Gap (atEnd : Prop) : Text → Prop
  | nil : Gap atEnd []
  | blank {b : UInt8} {t : Text} : b ∈ (" \t\r\n" : Text) → Gap atEnd t → Gap atEnd (b :: t)
  | line {c t : Text} : Text.byte '\n' ∉ c → Gap atEnd t → Gap atEnd ("//" ++ c ++ Text.byte '\n' :: t)
  | lastLine {c : Text} : atEnd → Text.byte '\n' ∉ c → Gap atEnd ("//" ++ c)
  | comment {c t : Text} : CommentRest 1 c → Gap atEnd t → Gap atEnd ("/*" ++ c ++ t)

/-- From an offset on, a text consists of tokens, each after a gap. The end of the text is the last token. -/
inductive Tiles : Int → Text → List Token → Prop
  | last {o : Int} {g : Text} {e : Token} : Gap True g → e.kind = .endOfFile → e.lexeme = [] →
      e.span.start.offset = o + g.length → e.span.stop.offset = o + g.length → Tiles o g [e]
  | cons {o : Int} {g rest : Text} {t : Token} {ts : List Token} : Gap False g → t.kind ≠ .endOfFile →
      t.lexeme ≠ [] → t.span.start.offset = o + g.length →
      t.span.stop.offset = t.span.start.offset + t.lexeme.length →
      Tiles t.span.stop.offset rest ts → Tiles o (g ++ (t.lexeme ++ rest)) (t :: ts)

/-- A piece that may stand in front of any gap. -/
def IsPiece (t : Text) : Prop := ∀ atEnd g, Gap atEnd g → Gap atEnd (t ++ g)

theorem Tiles.before {o : Int} {piece t : Text} {ts : List Token} (hpiece : IsPiece piece)
    (h : Tiles (o + piece.length) t ts) : Tiles o (piece ++ t) ts := by
  cases h with
  | last hgap hkind hlexeme hstart hstop =>
    refine .last (hpiece _ _ hgap) hkind hlexeme ?_ ?_
    · rw [hstart, List.length_append]
      omega
    · rw [hstop, List.length_append]
      omega
  | cons hgap hkind hlexeme hstart hstop hrest =>
    rw [← List.append_assoc]
    refine .cons (hpiece _ _ hgap) hkind hlexeme ?_ hstop hrest
    rw [hstart, List.length_append]
    omega

/-- The runes are read from a text. -/
def AreRead (rs : List Rune) : Prop := ∀ r ∈ rs, ∃ b rest, r = Rune.first b rest

theorem bytes_of_char {r : Rune} {c : Char} (h : ∃ b rest, r = Rune.first b rest) (hr : r.char = c)
    (hc : 0 < c.toNat ∧ c.toNat < 0x80) : r.bytes = [Text.byte c] := by
  obtain ⟨b, rest, rfl⟩ := h
  exact Rune.bytes_first hc hr

/-- A byte of ASCII in a rune is the rune. -/
theorem char_of_mem_bytes {r : Rune} {x : UInt8} (h : ∃ b rest, r = Rune.first b rest) (hx : x ∈ r.bytes)
    (hascii : x < 0x80) : r.char = Char.ofNat x.toNat ∧ r.bytes = [x] := by
  obtain ⟨b, rest, rfl⟩ := h
  by_cases hb : b < 0x80
  · have hfirst : Rune.first b rest = Rune.ascii b := by rw [Rune.first.eq_def, if_pos hb, Rune.ascii]
    rw [hfirst] at hx ⊢
    rw [List.mem_singleton.mp hx]
    exact ⟨rfl, rfl⟩
  · exact absurd hascii (Rune.not_ascii_of_mem_first hb rest hx)

theorem newline_not_mem {rs : List Rune} (hrs : AreRead rs) (h : ∀ r ∈ rs, r.char ≠ '\n') :
    Text.byte '\n' ∉ Rune.text rs := by
  intro hmem
  obtain ⟨r, hr, hx⟩ := List.mem_flatMap.mp hmem
  exact h r hr (char_of_mem_bytes (hrs r hr) hx (by decide)).1

/-- Another rune of a comment. -/
theorem CommentRest.rune {d : Nat} {r : Rune} {t : Text} (hr : ∃ b rest, r = Rune.first b rest)
    (hopens : r.char = '/' → t.head? ≠ some (Text.byte '*'))
    (hcloses : r.char = '*' → t.head? ≠ some (Text.byte '/')) (h : CommentRest (d + 1) t) :
    CommentRest (d + 1) (r.bytes ++ t) := by
  -- only a rune of one byte can be the first half of a mark
  have hsuffix (bs : Text) (hbs : bs <:+ r.bytes) : CommentRest (d + 1) (bs ++ t) := by
    induction bs with
    | nil => exact h
    | cons b bs ih =>
      have hb : b ∈ r.bytes := hbs.subset List.mem_cons_self
      have hfirst {c e : Char} (hc : Text.byte c < 0x80) (hchar : Char.ofNat (Text.byte c).toNat = c)
          (hne : r.char = c → t.head? ≠ some (Text.byte e)) : ¬ [Text.byte c, Text.byte e] <+: b :: (bs ++ t) := by
        intro hprefix
        obtain ⟨rfl, hrest⟩ := List.cons_prefix_cons.mp hprefix
        obtain ⟨hrchar, hbytes⟩ := char_of_mem_bytes hr hb hc
        rw [hbytes] at hbs
        obtain rfl : bs = [] := by
          have hlength := hbs.length_le
          simpa using hlength
        obtain ⟨rest, hrest⟩ := hrest
        refine hne (hrchar.trans hchar) ?_
        rw [← List.nil_append t, ← hrest]
        rfl
      exact .other (hfirst (by decide) (by decide) hopens) (hfirst (by decide) (by decide) hcloses)
        (ih ((List.suffix_cons b bs).trans hbs))
  exact hsuffix r.bytes List.suffix_rfl

theorem head_text {r : Rune} {rs : List Rune} (hr : ∃ b rest, r = Rune.first b rest) {x : UInt8} (hx : x < 0x80)
    (h : (Rune.text (r :: rs)).head? = some x) : r.char = Char.ofNat x.toNat := by
  obtain ⟨b, rest, rfl⟩ := hr
  obtain ⟨more, hmore, -⟩ := Rune.first_bytes b rest
  rw [Rune.text_cons, hmore] at h
  cases h
  exact (char_of_mem_bytes ⟨_, _, rfl⟩ (by rw [hmore]; exact List.mem_cons_self) hx).1

/-- A comment that ends is closed as often as it is opened. -/
theorem commentRest_of_size {d n : Nat} {rs : List Rune} (hrs : AreRead rs)
    (h : commentSize (d + 1) rs = some n) : CommentRest (d + 1) (Rune.text (rs.take n)) := by
  induction hlength : rs.length using Nat.strongRecOn generalizing d rs n with
  | ind k ih =>
    match rs, hrs, h with
    | [], _, hsize => simp [commentSize] at hsize
    | [_], _, hsize => simp [commentSize] at hsize
    | r :: s :: rest, hrs, hsize =>
      obtain ⟨hr, hs, hrest⟩ := List.forall_mem_cons.mp hrs |>.imp_right List.forall_mem_cons.mp
      simp only [List.length_cons] at hlength
      rw [commentSize] at hsize
      split at hsize
      · rename_i hmark
        simp only [Bool.and_eq_true, decide_eq_true_eq] at hmark
        obtain ⟨m, hm, rfl⟩ := Option.map_eq_some_iff.mp hsize
        simp only [List.take_succ_cons, Rune.text_cons, bytes_of_char hr hmark.1 (by decide),
          bytes_of_char hs hmark.2 (by decide)]
        exact .opens (ih _ (by omega) hrest hm rfl)
      · rename_i hopens
        split at hsize
        · rename_i hmark
          simp only [Bool.and_eq_true, decide_eq_true_eq] at hmark
          have hbytes (t : Text) : r.bytes ++ (s.bytes ++ t) = ("*/" : Text) ++ t := by
            rw [bytes_of_char hr hmark.1 (by decide), bytes_of_char hs hmark.2 (by decide)]
            rfl
          split at hsize
          · rename_i hlast
            obtain rfl : d = 0 := by omega
            cases hsize
            simp only [List.take_succ_cons, Rune.text_cons, hbytes]
            exact .closes .done
          · obtain ⟨e, rfl⟩ : ∃ e, d = e + 1 := ⟨d - 1, by omega⟩
            obtain ⟨m, hm, rfl⟩ := Option.map_eq_some_iff.mp hsize
            simp only [List.take_succ_cons, Rune.text_cons, hbytes]
            exact .closes (ih _ (by omega) hrest hm rfl)
        · rename_i hcloses
          obtain ⟨m, hm, rfl⟩ := Option.map_eq_some_iff.mp hsize
          have hmore := ih _ (by simp only [List.length_cons]; omega) (List.forall_mem_cons.mpr ⟨hs, hrest⟩) hm rfl
          simp only [Bool.and_eq_true, decide_eq_true_eq, not_and] at hopens hcloses
          obtain ⟨m, rfl⟩ : ∃ l, m = l + 1 := by
            cases m with
            | zero => cases hmore
            | succ m => exact ⟨m, rfl⟩
          rw [List.take_succ_cons, Rune.text_cons]
          rw [List.take_succ_cons] at hmore ⊢
          exact hmore.rune hr (fun hc hhead => hopens hc (head_text hs (by decide) hhead))
            fun hc hhead => hcloses hc (head_text hs (by decide) hhead)

/-- No token but the last one stands for the end of the text. -/
theorem step_ne_endOfFile {r : Rune} {rs : List Rune} {kind : TokenKind} {n : Nat} (h : step r rs = .token kind n) :
    kind ≠ .endOfFile := by
  rw [step] at h
  extract_lets size front at h
  split at h
  · cases h
  split at h
  · cases h
  split at h
  · split at h <;> cases h
  split at h
  · split at h <;> cases h
    decide
  split at h
  · rcases number_cases r.char rs with ⟨_, _, hnumber, hkind⟩ | ⟨_, _, hnumber⟩
    · cases hnumber.symm.trans h
      rcases hkind with rfl | rfl <;> decide
    · cases hnumber.symm.trans h
  split at h
  · obtain ⟨rfl, rfl⟩ := Step.token.inj h
    cases hword : TokenKind.keywords.find? (·.text == Rune.text ((r :: rs).take size)) with
    | none =>
      rw [TokenKind.ofWord, hword]
      decide
    | some k =>
      rw [TokenKind.ofWord, hword]
      rintro (rfl : k = .endOfFile)
      exact absurd (List.mem_of_find?_eq_some hword) (by decide)
  split at h
  · rename_i hfind
    cases h
    rintro rfl
    exact absurd (List.mem_of_find?_eq_some hfind) (by decide)
  · cases h

/-- A comment that runs to the end of its line, with what follows it. -/
structure IsLine (taken rest : List Rune) : Prop where
  text : ∃ c, Text.byte '\n' ∉ c ∧ Rune.text taken = "//" ++ c
  ends : ∀ s ∈ rest.head?, s.char = '\n'

theorem isPiece_blank {r : Rune} (hr : ∃ b rest, r = Rune.first b rest)
    (hc : r.char = ' ' ∨ r.char = '\r' ∨ r.char = '\t' ∨ r.char = '\n') : IsPiece r.bytes := by
  have hbyte {c : Char} (hchar : r.char = c) (hascii : 0 < c.toNat ∧ c.toNat < 0x80)
      (hmem : Text.byte c ∈ (" \t\r\n" : Text)) : IsPiece r.bytes := by
    rw [bytes_of_char hr hchar hascii]
    exact fun _ _ hg => .blank hmem hg
  rcases hc with hc | hc | hc | hc <;> exact hbyte hc (by decide) (by decide)

theorem exists_of_ahead {p : Char → Bool} {rs : List Rune} (h : ahead p rs) : ∃ s rest, rs = s :: rest ∧ p s.char := by
  cases rs with
  | nil => cases h
  | cons s rest => exact ⟨s, rest, rfl, h⟩

theorem drop_run (p : Char → Bool) (rs : List Rune) : rs.drop (run p rs) = rs.dropWhile fun r => p r.char := by
  have h := List.takeWhile_append_dropWhile (p := fun r : Rune => p r.char) (l := rs)
  calc rs.drop (run p rs)
      = (rs.takeWhile (fun r => p r.char) ++ rs.dropWhile fun r => p r.char).drop (run p rs) := by rw [h]
    _ = rs.dropWhile fun r => p r.char := List.drop_left

/-- What is left out between tokens is a piece of a gap or a comment on the rest of a line. -/
theorem step_blank {r : Rune} {rs : List Rune} {n : Nat} (hrs : AreRead (r :: rs)) (h : step r rs = .blank n) :
    IsPiece (Rune.text (r :: rs.take (n - 1))) ∨ IsLine (r :: rs.take (n - 1)) (rs.drop (n - 1)) := by
  obtain ⟨hr, hrs⟩ := List.forall_mem_cons.mp hrs
  rw [step] at h
  extract_lets size front at h
  split at h
  · rename_i hc
    cases h
    simp only [Bool.or_eq_true, decide_eq_true_eq, or_assoc] at hc
    refine .inl ?_
    rw [Nat.sub_self, List.take_zero, Rune.text_cons, Rune.text_nil, List.append_nil]
    exact isPiece_blank hr hc
  split at h
  · rename_i hc
    cases h
    simp only [Bool.and_eq_true, decide_eq_true_eq] at hc
    refine .inr ?_
    rw [Nat.add_sub_cancel_left, take_run, drop_run]
    obtain ⟨s, rest, rfl, hslash⟩ := exists_of_ahead hc.2
    obtain ⟨hs, hrest⟩ := List.forall_mem_cons.mp hrs
    have hnewline : (fun r : Rune => decide (r.char ≠ '\n')) s = true := by simp [of_decide_eq_true hslash]
    refine ⟨⟨Rune.text (rest.takeWhile fun r => r.char ≠ '\n'), ?_, ?_⟩, fun x hx => ?_⟩
    · refine newline_not_mem (fun r hr => hrest r (List.takeWhile_subset _ hr)) fun r hr => ?_
      exact of_decide_eq_true (List.all_eq_true.mp List.all_takeWhile r hr)
    · rw [Rune.text_cons, List.takeWhile_cons_of_pos (p := fun r : Rune => decide (r.char ≠ '\n')) hnewline,
        Rune.text_cons, bytes_of_char hr hc.1 (by decide), bytes_of_char hs (of_decide_eq_true hslash) (by decide)]
      rfl
    · have hnot := List.head?_dropWhile_not (fun r : Rune => decide (r.char ≠ '\n')) (s :: rest)
      rw [Option.mem_def.mp hx] at hnot
      simpa using hnot
  split at h
  · rename_i hc
    simp only [Bool.and_eq_true, decide_eq_true_eq] at hc
    split at h
    · rename_i m hsize
      cases h
      obtain ⟨s, rest, rfl, hstar⟩ := exists_of_ahead hc.2
      obtain ⟨hs, hrest⟩ := List.forall_mem_cons.mp hrs
      refine .inl fun atEnd g hg => ?_
      have hcomment := Gap.comment (commentRest_of_size (d := 0) hrest hsize) hg
      rw [show 2 + m - 1 = m + 1 by omega, List.take_succ_cons, Rune.text_cons, Rune.text_cons,
        bytes_of_char hr hc.1 (by decide), bytes_of_char hs (of_decide_eq_true hstar) (by decide)]
      exact hcomment
    · cases h
  split at h
  · split at h <;> cases h
  split at h
  · rcases number_cases r.char rs with ⟨_, _, hnumber, -⟩ | ⟨_, _, hnumber⟩ <;> cases hnumber.symm.trans h
  split at h
  · cases h
  · split at h <;> cases h

theorem offset_after (p : Position) (rs : List Rune) : (p.after rs).offset = p.offset + (Rune.text rs).length := rfl

theorem offset_afterLines (p : Position) (rs : List Rune) :
    (p.afterLines rs).offset = p.offset + (Rune.text rs).length := by
  unfold Position.afterLines
  induction rs generalizing p with
  | nil => simp
  | cons r rs ih =>
    have hnext : (p.next r).offset = p.offset + r.bytes.length := by
      unfold Position.next
      split
      · rfl
      · rw [offset_after, Rune.text_cons, Rune.text_nil, List.append_nil]
    rw [List.foldl_cons, ih, hnext, Rune.text_cons, List.length_append]
    omega

theorem scan_newline {file : Text} {p : Position} {r : Rune} {rs : List Rune} (hr : r.char = '\n') :
    scan file p (r :: rs) = scan file (p.afterLines [r]) rs := by
  have hstep : step r rs = .blank 1 := by simp [step, hr]
  rw [scan]
  simp only [hstep, Step.size, Nat.sub_self, List.take_zero, List.drop_zero]

/-- The tokens of runes that are read from a text make up that text, with gaps between them. -/
theorem tiles_scan {file : Text} {p : Position} {rs : List Rune} {ts : List Token} (hrs : AreRead rs)
    (h : scan file p rs = .ok ts) : Tiles p.offset (Rune.text rs) ts := by
  induction hlength : rs.length using Nat.strongRecOn generalizing p rs ts with
  | ind k ih =>
    cases rs with
    | nil =>
      rw [scan] at h
      cases h
      exact .last .nil rfl rfl (by simp) (by simp)
    | cons r rs =>
      have hlt (n : Nat) : (rs.drop n).length < k := by
        rw [List.length_drop, ← hlength, List.length_cons]
        omega
      have hdrop (n : Nat) : AreRead (rs.drop n) := fun s hs => hrs s (List.mem_cons_of_mem _ (List.mem_of_mem_drop hs))
      have hsplit (n : Nat) : Rune.text (r :: rs) = Rune.text (r :: rs.take n) ++ Rune.text (rs.drop n) := by
        rw [← Rune.text_append, List.cons_append, List.take_append_drop]
      rw [scan] at h
      cases hstep : step r rs with
      | token kind n =>
        simp only [hstep, Step.size] at h
        obtain ⟨us, hus, h⟩ := bind_eq_ok h
        cases h
        have hrest := ih _ (hlt _) (hdrop _) hus rfl
        rw [hsplit (n - 1), ← List.nil_append (Rune.text (r :: rs.take (n - 1)))]
        refine Tiles.cons (g := []) (t := ⟨kind, Rune.text (r :: rs.take (n - 1)), _, _, file⟩) .nil
          (step_ne_endOfFile hstep) ?_ (Int.add_zero p.offset).symm rfl hrest
        obtain ⟨b, rest, hb⟩ := hrs r List.mem_cons_self
        obtain ⟨more, hmore, -⟩ := Rune.first_bytes b rest
        rw [Rune.text_cons, hb, hmore]
        exact List.cons_ne_nil _ _
      | blank n =>
        simp only [hstep, Step.size] at h
        rcases step_blank hrs hstep with hpiece | ⟨⟨c, hc, htext⟩, hends⟩
        · have hrest := ih _ (hlt _) (hdrop _) h rfl
          rw [offset_afterLines] at hrest
          rw [hsplit (n - 1)]
          exact hrest.before hpiece
        · -- the end of the line is taken along, so that what follows is a text of its own
          cases hdropped : rs.drop (n - 1) with
          | nil =>
            rw [hdropped, scan] at h
            cases h
            have hall := hsplit (n - 1)
            rw [hdropped, Rune.text_nil, List.append_nil] at hall
            rw [hall, htext]
            refine .last (.lastLine trivial hc) rfl rfl ?_ ?_ <;> rw [offset_afterLines, htext]
          | cons s rest =>
            have hs : s.char = '\n' := hends s (by rw [hdropped]; rfl)
            have hread := hdrop (n - 1)
            rw [hdropped] at hread
            have hbytes : s.bytes = [Text.byte '\n'] := bytes_of_char (hread s List.mem_cons_self) hs (by decide)
            have hlonger := hlt (n - 1)
            rw [hdropped, List.length_cons] at hlonger
            rw [hdropped, scan_newline hs] at h
            have hrest := ih _ (by omega) (fun x hx => hread x (List.mem_cons_of_mem _ hx)) h rfl
            have hpiece : IsPiece (("//" ++ c) ++ [Text.byte '\n']) := fun atEnd g hg => by
              rw [List.append_assoc]
              exact .line hc hg
            rw [hsplit (n - 1), hdropped, htext, Rune.text_cons, hbytes, ← List.append_assoc]
            refine Tiles.before hpiece ?_
            rwa [offset_afterLines, offset_afterLines, htext, Rune.text_cons, Rune.text_nil, hbytes, Int.add_assoc,
              ← Int.natCast_add, ← List.length_append] at hrest
      | fault e n => rw [hstep] at h; cases h
      | blankFault e n => rw [hstep] at h; cases h

end Lexer

open Lexer (Gap Tiles)

/-- Between an offset and the first of some tokens, and between each of them and the next one, there is nothing
but a gap. -/
def Gaps (source : Text) : Int → List Token → Prop
  | _, [] => True
  | o, t :: ts => Gap (t.kind = .endOfFile) (source.slice o t.span.start.offset) ∧ Gaps source t.span.stop.offset ts

/-- From an offset on, the tokens of a text in their order. Nothing is left out but what may stand between
tokens. -/
structure Partition (source : Text) (o : Int) (ts : List Token) : Prop where
  /-- each lexeme is what stands at its place -/
  lexemes : ∀ t ∈ ts, o ≤ t.span.start.offset ∧ t.span.start.offset ≤ t.span.stop.offset ∧
    t.span.stop.offset ≤ source.length ∧ t.lexeme = source.slice t.span.start.offset t.span.stop.offset
  /-- each token starts behind the one before it, and not where that one starts -/
  order : ts.Pairwise fun t u => t.span.start.offset < u.span.start.offset ∧
    t.span.stop.offset ≤ u.span.start.offset
  gaps : Gaps source o ts
  /-- only the last token stands for the end of the text, and that is where it is -/
  last : ∃ before, ∃ e : Token, ts = before ++ [e] ∧ e.kind = .endOfFile ∧ e.lexeme = [] ∧
    e.span.start.offset = source.length ∧ ∀ t ∈ before, t.kind ≠ .endOfFile ∧ t.lexeme ≠ []

theorem Text.slice_append (t u v : Text) : (t ++ (u ++ v)).slice t.length (t.length + u.length) = u := by
  have htake : ((t.length : Int) + u.length).toNat = (t ++ u).length := by
    rw [List.length_append]
    omega
  rw [slice, htake, ← List.append_assoc, List.take_left, Int.toNat_natCast, List.drop_left]

theorem Lexer.Tiles.partition {source before rest : Text} {o : Int} {ts : List Token} (h : Tiles o rest ts)
    (ho : o = before.length) (hsource : source = before ++ rest) : Partition source o ts := by
  induction h generalizing before with
  | @last o g e hgap hkind hlexeme hstart hstop =>
    subst ho hsource
    have hlength : ((before ++ g).length : Int) = before.length + g.length := by
      rw [List.length_append, Int.natCast_add]
    have hslice := Text.slice_append before g []
    rw [List.append_nil] at hslice
    refine ⟨fun t ht => ?_, List.pairwise_singleton _ _, ⟨?_, trivial⟩, [], e, rfl, hkind, hlexeme, ?_,
      fun _ hu => absurd hu List.not_mem_nil⟩
    · rw [List.mem_singleton.mp ht, hstart, hstop, hlexeme]
      refine ⟨by omega, by omega, by omega, ?_⟩
      have hempty := Text.slice_append (before ++ g) [] []
      rw [List.append_nil, List.append_nil, List.length_nil, Int.natCast_zero, Int.add_zero, hlength] at hempty
      exact hempty.symm
    · rw [hstart, hslice, hkind, eq_self]
      exact hgap
    · rw [hstart, hlength]
  | @cons o g rest t ts hgap hkind hlexeme hstart hstop _ ih =>
    subst ho hsource
    have hstart' : t.span.start.offset = (before ++ g).length := by
      rw [hstart, List.length_append, Int.natCast_add]
    have hstop' : t.span.stop.offset = (before ++ g ++ t.lexeme).length := by
      rw [hstop, hstart', ← Int.natCast_add, ← List.length_append]
    have hrest := ih hstop' (by simp only [List.append_assoc])
    have hpositive : 0 < t.lexeme.length := List.length_pos_iff.mpr hlexeme
    refine ⟨List.forall_mem_cons.mpr ⟨⟨by omega, by omega, ?_, ?_⟩, fun u hu => ?_⟩, ?_, ⟨?_, hrest.gaps⟩, ?_⟩
    · rw [hstop']
      simp only [List.length_append]
      omega
    · rw [hstop, hstart', ← List.append_assoc before, Text.slice_append]
    · obtain ⟨hfrom, hrest⟩ := hrest.lexemes u hu
      exact ⟨by omega, hrest⟩
    · refine List.pairwise_cons.mpr ⟨fun u hu => ?_, hrest.order⟩
      have hfrom := (hrest.lexemes u hu).1
      exact ⟨by omega, hfrom⟩
    · rw [hstart, Text.slice_append]
      rwa [eq_false hkind]
    · obtain ⟨us, e, rfl, hend, hempty, hplace, hus⟩ := hrest.last
      exact ⟨t :: us, e, rfl, hend, hempty, hplace, List.forall_mem_cons.mpr ⟨⟨hkind, hlexeme⟩, hus⟩⟩

/-- A text without tokens has a lexical fault. -/
theorem Lexer.fault_of_scan {file : Text} {p : Position} {rs : List Rune} {d : Diagnostic}
    (h : scan file p rs = .error d) : d.fault = .lexical := by
  induction hlength : rs.length using Nat.strongRecOn generalizing p rs with
  | ind k ih =>
    cases rs with
    | nil =>
      rw [scan] at h
      cases h
    | cons r rs =>
      have hlt (n : Nat) : (rs.drop n).length < k := by
        rw [List.length_drop, ← hlength, List.length_cons]
        omega
      rw [scan] at h
      cases hstep : step r rs with
      | token kind n =>
        simp only [hstep, Step.size] at h
        cases hrest : scan file (p.after (r :: rs.take (n - 1))) (rs.drop (n - 1)) with
        | error e =>
          rw [hrest] at h
          cases h
          exact ih _ (hlt _) hrest rfl
        | ok us =>
          rw [hrest] at h
          cases h
      | blank n =>
        simp only [hstep, Step.size] at h
        exact ih _ (hlt _) h rfl
      | fault e n | blankFault e n =>
        rw [hstep] at h
        cases h
        rfl

/-- Every text, whatever its bytes are, has tokens that make it up, along with gaps between them, or else a
lexical fault. -/
theorem tokenize_partition (file source : Text) :
    (∃ ts, tokenize file source = .ok ts ∧ Partition source 0 ts) ∨
      ∃ d, tokenize file source = .error d ∧ d.fault = .lexical := by
  cases h : tokenize file source with
  | error d => exact .inr ⟨d, rfl, Lexer.fault_of_scan h⟩
  | ok ts =>
    have htiles := Lexer.tiles_scan (fun _ hr => Rune.mem_ofText hr) h
    rw [Rune.text_ofText] at htiles
    have hstart : (0 : Int) = ([] : Text).length := rfl
    exact .inl ⟨ts, rfl, htiles.partition hstart rfl⟩

end Shading
