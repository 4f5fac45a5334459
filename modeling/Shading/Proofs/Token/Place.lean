import Mathlib.Data.List.DropRight
import Shading.Proofs.Token.Partition

/-! The places of tokens and of faults, against the lines of the source text. -/
namespace Shading

/-- The bytes behind the last end of a line. -/
def Text.lastLine (t : Text) : Text := t.rtakeWhile fun b => b ≠ Text.byte '\n'

/-- The place of an offset in a source text. Its line is one more than the number of ends of lines before it, and its
column is one more than the number of runes between the last of these and the offset. -/
def Text.place (source : Text) (offset : Nat) : Position :=
  let before := source.take offset
  ⟨(before.count (Text.byte '\n') + 1 : Nat), ((Rune.ofText (lastLine before)).length + 1 : Nat), offset⟩

namespace Text

variable {t u : Text}

theorem lastLine_of_not_mem (h : Text.byte '\n' ∉ t) : t.lastLine = t :=
  List.rtakeWhile_eq_self_iff.mpr fun _ hb => decide_eq_true fun hnewline => h (hnewline ▸ hb)

theorem lastLine_append (h : Text.byte '\n' ∉ u) : (t ++ Text.byte '\n' :: u).lastLine = u := by
  have hall : ∀ b ∈ u.reverse, decide (b ≠ Text.byte '\n') = true := fun b hb =>
    decide_eq_true fun hnewline => h (hnewline ▸ List.mem_reverse.mp hb)
  rw [lastLine, List.rtakeWhile, List.reverse_append, List.reverse_cons, List.append_assoc,
    List.takeWhile_append_of_pos hall, List.singleton_append, List.takeWhile_cons_of_neg (by simp), List.append_nil,
    List.reverse_reverse]

end Text

open Lexer (AreRead)

section

variable {p : Position} {rs : List Rune}

theorem Position.afterLines_of_one_line (h : ∀ r ∈ rs, r.char ≠ '\n') : p.afterLines rs = p.after rs := by
  induction rs generalizing p with
  | nil => simp [afterLines, after]
  | cons r rs ih =>
    obtain ⟨hr, hrs⟩ := List.forall_mem_cons.mp h
    have hnext : p.next r = p.after [r] := if_neg hr
    have hrest := ih (p := p.after [r]) hrs
    rw [afterLines] at hrest ⊢
    rw [List.foldl_cons, hnext, hrest]
    simp only [after, Rune.text_cons, Rune.text_nil, List.append_nil, List.length_cons, List.length_nil,
      List.length_append, Position.mk.injEq, true_and]
    omega

theorem Position.line_afterLines : (p.afterLines rs).line = p.line + rs.countP (fun r => r.char = '\n') := by
  unfold afterLines
  induction rs generalizing p with
  | nil => simp
  | cons r rs ih =>
    rw [List.foldl_cons, ih, List.countP_cons]
    by_cases hr : r.char = '\n'
    · simp only [next, hr, if_true, decide_true]
      omega
    · simp [next, hr, after]

/-- The runes that end lines are the bytes that do. -/
theorem count_newline (hrs : AreRead rs) :
    (Rune.text rs).count (Text.byte '\n') = rs.countP fun r => r.char = '\n' := by
  induction rs with
  | nil => rfl
  | cons r rs ih =>
    obtain ⟨hr, hrs⟩ := List.forall_mem_cons.mp hrs
    rw [Rune.text_cons, List.count_append, ih hrs, List.countP_cons]
    by_cases hchar : r.char = '\n'
    · rw [Lexer.bytes_of_char hr hchar (by decide)]
      simp [hchar, Nat.add_comm]
    · have hbytes : Text.byte '\n' ∉ r.bytes := fun hmem => hchar (Lexer.char_of_mem_bytes hr hmem (by decide)).1
      simp [hchar, List.count_eq_zero_of_not_mem hbytes]

/-- Runes have an end of a line that is the last one, if they have any. -/
theorem exists_last_newline (rs : List Rune) :
    (∀ r ∈ rs, r.char ≠ '\n') ∨
      ∃ before r line, rs = before ++ r :: line ∧ r.char = '\n' ∧ ∀ s ∈ line, s.char ≠ '\n' := by
  induction rs with
  | nil => exact .inl fun r hr => absurd hr List.not_mem_nil
  | cons r rs ih =>
    obtain hnone | ⟨before, s, line, rfl, hs, hline⟩ := ih
    · by_cases hr : r.char = '\n'
      · exact .inr ⟨[], r, rs, rfl, hr, hnone⟩
      · exact .inl (List.forall_mem_cons.mpr ⟨hr, hnone⟩)
    · exact .inr ⟨r :: before, s, line, rfl, hs, hline⟩

/-- The runes that are counted for the column are those of the last line. -/
theorem column_afterLines (hrs : Rune.ofText (Rune.text rs) = rs) :
    ((⟨1, 1, 0⟩ : Position).afterLines rs).column = ((Rune.ofText (Rune.text rs).lastLine).length + 1 : Nat) := by
  have hread : AreRead rs := fun r hr => Rune.mem_ofText (hrs.symm ▸ hr)
  obtain hone | ⟨before, r, line, rfl, hr, hone⟩ := exists_last_newline rs
  · rw [Text.lastLine_of_not_mem (Lexer.newline_not_mem hread hone), hrs, Position.afterLines_of_one_line hone]
    simp only [Position.after]
    omega
  · have hline : Rune.ofText (Rune.text line) = line := by
      have hdrop := Rune.ofText_text_drop (Rune.text (before ++ r :: line)) (before.length + 1)
      rwa [hrs, List.drop_append, List.drop_eq_nil_of_le (by omega), Nat.add_sub_cancel_left, List.drop_succ_cons,
        List.drop_zero, List.nil_append] at hdrop
    have hreadLine : AreRead line := fun s hs => hread s (by simp [hs])
    rw [Rune.text_append, Rune.text_cons, Lexer.bytes_of_char (hread r (by simp)) hr (by decide), List.singleton_append,
      Text.lastLine_append (Lexer.newline_not_mem hreadLine hone), hline, Position.afterLines, List.foldl_append,
      List.foldl_cons]
    change (Position.afterLines _ line).column = _
    rw [Position.afterLines_of_one_line hone, Position.next, if_pos hr]
    simp only [Position.after]
    omega

/-- Counting runes from the start of a text gives the place of the offset that is reached. -/
theorem place_text (hrs : Rune.ofText (Rune.text rs) = rs) (rest : Text) :
    (⟨1, 1, 0⟩ : Position).afterLines rs = (Rune.text rs ++ rest).place (Rune.text rs).length := by
  have hread : AreRead rs := fun r hr => Rune.mem_ofText (hrs.symm ▸ hr)
  have hline : ((⟨1, 1, 0⟩ : Position).afterLines rs).line = (rs.countP (fun r => r.char = '\n') + 1 : Nat) := by
    rw [Position.line_afterLines, Int.natCast_add]
    exact Int.add_comm _ _
  have hoffset : ((⟨1, 1, 0⟩ : Position).afterLines rs).offset = (Rune.text rs).length := by
    rw [Lexer.offset_afterLines, Int.zero_add]
  rw [Text.place, List.take_left, count_newline hread, ← hline, ← column_afterLines hrs, ← hoffset]

end

namespace Lexer

/-- None of the first runes ends a line. -/
def OneLine (rs : List Rune) (n : Nat) : Prop := ∀ r ∈ rs.take n, r.char ≠ '\n'

section

variable {p : Char → Bool} {rs : List Rune} {m n : Nat}

theorem OneLine.zero : OneLine rs 0 := nofun

theorem OneLine.add (hm : OneLine rs m) (hn : OneLine (rs.drop m) n) : OneLine rs (m + n) := by
  intro r hr
  rw [List.take_add, List.mem_append] at hr
  exact hr.elim (hm r) (hn r)

theorem OneLine.run (hp : p '\n' = false) : OneLine rs (run p rs) := by
  intro r hr hchar
  rw [take_run] at hr
  have hpr : p r.char = true := List.all_eq_true.mp List.all_takeWhile r hr
  rw [hchar, hp] at hpr
  cases hpr

theorem OneLine.one (hp : p '\n' = false) (h : ahead p rs) : OneLine rs 1 := by
  obtain ⟨s, rest, rfl, hs⟩ := exists_of_ahead h
  intro r hr hchar
  rw [List.mem_singleton.mp hr] at hchar
  rw [hchar, hp] at hs
  cases hs

theorem OneLine.ite {c : Prop} [Decidable c] (hm : c → OneLine rs m) (hn : ¬c → OneLine rs n) :
    OneLine rs (if c then m else n) := by
  split
  · exact hm ‹_›
  · exact hn ‹_›

/-- A number stands on one line. -/
theorem number_oneLine {first : Char} {kind : TokenKind} (h : number first rs = .token kind n) :
    OneLine rs (n - 1) := by
  rw [number] at h
  extract_lets digits hex unsigned whole behind pointed fraction rest₁ size scaled mark size₁ rest₂ power size₂ rest₃
    isFloat kind' ending at h
  split at h
  · rename_i hmark
    simp only [Bool.and_eq_true] at hmark
    split at h
    · cases h
      have hunsigned : OneLine (digits.drop hex) unsigned := .ite (fun h => .one (by decide) h) fun _ => .zero
      have hhex : OneLine digits (hex + unsigned) := .add (.run (by decide)) hunsigned
      have hall : OneLine rs (1 + (hex + unsigned)) := .add (.one (by decide) hmark.2) hhex
      rwa [show 2 + hex + unsigned - 1 = 1 + (hex + unsigned) by omega]
    · cases h
  split at h
  · cases h
  split at h
  · cases h
  obtain ⟨-, rfl⟩ := Step.token.inj h
  have hending : OneLine rest₃ ending := by
    refine .ite (fun h => ?_) fun _ => .zero
    simp only [Bool.or_eq_true, Bool.and_eq_true] at h
    rcases h with h | ⟨-, h⟩
    · exact .one (by decide) h
    · exact .one (by decide) h
  have hpower : OneLine rest₂ power := .ite (fun _ => .run (by decide)) fun _ => .zero
  have hmark : OneLine rest₁ mark := by
    refine .ite (fun _ => .zero) fun hscaled => ?_
    rw [Bool.not_eq_true', Bool.not_eq_false] at hscaled
    have hone : OneLine rest₁ 1 := .one (by decide) hscaled
    exact .ite (fun h => hone.add (.one (by decide) h)) fun _ => hone
  have hfraction : OneLine behind fraction := by
    refine .ite (fun h => ?_) fun _ => .zero
    simp only [pointed, Bool.and_eq_true] at h
    exact .add (.one (by decide) h.1.2) (.run (by decide))
  have hwhole : OneLine rs whole := .run (by decide)
  have hall := hwhole.add (hfraction.add (hmark.add (hpower.add hending)))
  rwa [show size₂ + ending - 1 = whole + (fraction + (mark + (power + ending))) by
    simp only [size₂, size₁, size]; omega]

end

/-- Somewhere a backslash stands in front of the end of a line. -/
def HasEscapedEnd (rs : List Rune) : Prop := ['\\', '\n'] <:+: rs.map Rune.char

section

variable {r : Rune} {rs : List Rune} {n : Nat}

theorem OneLine.cons (hr : r.char ≠ '\n') (h : OneLine rs n) : OneLine (r :: rs) (n + 1) := by
  rw [OneLine, List.take_succ_cons]
  exact List.forall_mem_cons.mpr ⟨hr, h⟩

theorem HasEscapedEnd.cons (h : HasEscapedEnd rs) : HasEscapedEnd (r :: rs) := List.infix_cons h

theorem shift_ok {k : Nat} {e : Except Nat Nat} (h : stringSize.shift k e = .ok n) : ∃ m, e = .ok m ∧ n = m + k := by
  cases e with
  | error m => cases h
  | ok m =>
    cases h
    exact ⟨m, rfl, rfl⟩

/-- A string that goes over the end of a line has a backslash in front of it. -/
theorem stringSize_escapedEnd (h : stringSize rs = .ok n) (hline : ¬OneLine rs n) : HasEscapedEnd (rs.take n) := by
  fun_induction stringSize rs generalizing n
  case case2 r hr | case5 r s rest hr =>
    cases h
    exact absurd (OneLine.cons (by rw [hr]; decide) .zero) hline
  case case7 r s rest hquote hend hback ih =>
    obtain ⟨m, hm, rfl⟩ := shift_ok h
    rw [List.take_succ_cons, List.take_succ_cons]
    by_cases hs : s.char = '\n'
    · exact ⟨[], (rest.take m).map Rune.char, by simp [hback, hs]⟩
    · have hrest := ih hm fun hone => hline (.cons hend (.cons hs hone))
      exact hrest.cons.cons
  case case8 r s rest hquote hend hback ih =>
    obtain ⟨m, hm, rfl⟩ := shift_ok h
    rw [List.take_succ_cons]
    exact (ih hm fun hone => hline (.cons hend hone)).cons
  all_goals cases h

/-- The runes that start like a text in ASCII are its characters. -/
theorem chars_of_prefix {t : Text} (ht : ∀ b ∈ t, b < 0x80) (hrs : AreRead rs) (h : t <+: Rune.text rs) :
    (rs.take t.length).map Rune.char = t.map fun b => Char.ofNat b.toNat := by
  induction t generalizing rs with
  | nil => rfl
  | cons b t ih =>
    obtain ⟨hb, ht⟩ := List.forall_mem_cons.mp ht
    cases rs with
    | nil => cases List.prefix_nil.mp h
    | cons r rs =>
      obtain ⟨hr, hrs⟩ := List.forall_mem_cons.mp hrs
      obtain ⟨more, hmore⟩ := h
      have hhead : (Rune.text (r :: rs)).head? = some b := by
        rw [← hmore]
        rfl
      have hchar : r.char = Char.ofNat b.toNat := head_text hr hb hhead
      have hbytes : r.bytes = [b] := by
        obtain ⟨c, rest, rfl⟩ := hr
        obtain ⟨tail, htail, -⟩ := Rune.first_bytes c rest
        have hbc : b = c := by
          rw [Rune.text_cons, htail] at hmore
          exact (List.cons.inj hmore).1
        exact (char_of_mem_bytes ⟨c, rest, rfl⟩ (by rw [htail, hbc]; exact List.mem_cons_self) hb).2
      rw [Rune.text_cons, hbytes] at hmore
      rw [List.length_cons, List.take_succ_cons, List.map_cons, List.map_cons, hchar,
        ih ht hrs ⟨more, (List.cons.inj hmore).2⟩]

theorem symbols_plain : ∀ k ∈ TokenKind.symbols, ∀ b ∈ k.text, b < 0x80 ∧ Char.ofNat b.toNat ≠ '\n' := by
  decide

/-- A token that goes over the end of a line is a string with a backslash there. -/
theorem step_token_escapedEnd {kind : TokenKind} (hrs : AreRead (r :: rs)) (h : step r rs = .token kind n)
    (hline : ¬OneLine (r :: rs) n) : HasEscapedEnd ((r :: rs).take n) := by
  rw [step] at h
  extract_lets size front at h
  split at h
  · cases h
  rename_i hblank
  simp only [Bool.or_eq_true, decide_eq_true_eq, not_or] at hblank
  split at h
  · cases h
  split at h
  · split at h <;> cases h
  split at h
  · split at h
    · rename_i m hm
      cases h
      rw [Nat.add_comm, List.take_succ_cons]
      rw [Nat.add_comm] at hline
      exact (stringSize_escapedEnd hm fun hone => hline (.cons hblank.2 hone)).cons
    · cases h
  split at h
  · rcases number_cases r.char rs with ⟨_, _, hnumber, -⟩ | ⟨_, _, hnumber⟩
    · have hone := number_oneLine h
      cases n with
      | zero => exact absurd .zero hline
      | succ n => exact absurd (.cons hblank.2 hone) hline
    · cases hnumber.symm.trans h
  split at h
  · obtain ⟨-, rfl⟩ := Step.token.inj h
    refine absurd ?_ hline
    unfold size
    rw [Nat.add_comm]
    exact .cons hblank.2 (.run (by decide))
  split at h
  · rename_i k hfind
    cases h
    have hmem := List.mem_of_find?_eq_some hfind
    have hfront : kind.text <+: Rune.text (r :: rs) := by
      have hprefix : kind.text.isPrefixOf front = true := by
        have hfound := List.find?_some hfind
        exact hfound
      refine (List.isPrefixOf_iff_prefix.mp hprefix).trans ⟨Rune.text ((r :: rs).drop 3), ?_⟩
      rw [← Rune.text_append, List.take_append_drop]
    have hchars := chars_of_prefix (fun b hb => (symbols_plain kind hmem b hb).1) hrs hfront
    refine absurd (fun s hs hend => ?_) hline
    have hchar := List.mem_map_of_mem (f := Rune.char) hs
    rw [hchars] at hchar
    obtain ⟨b, hb, hbs⟩ := List.mem_map.mp hchar
    exact (symbols_plain kind hmem b hb).2 (hbs.trans hend)
  · cases h

end

/-- A place that was reached in a text behind some of its runes. It is right as long as no end of a line was escaped. -/
structure Reached (source : Text) (p : Position) (before rs : List Rune) : Prop where
  split : Rune.ofText source = before ++ rs
  offset : p.offset = (Rune.text before).length
  place : ¬HasEscapedEnd before → p = (⟨1, 1, 0⟩ : Position).afterLines before

end Lexer

/-- A place in a text that is right, unless the end of a line is escaped before it. -/
structure Placed (source : Text) (p : Position) : Prop where
  inside : 0 ≤ p.offset ∧ p.offset ≤ source.length
  place : ¬("\\\n" : Text) <:+: source.take p.offset.toNat → p = source.place p.offset.toNat

/-- All tokens, or else the fault, start at places that are right unless the end of a line is escaped before them. -/
def AllPlaced (source : Text) : Except Diagnostic (List Token) → Prop
  | .ok ts => ∀ t ∈ ts, Placed source t.span.start
  | .error d => Placed source d.span.start

namespace Lexer

section

variable {source : Text} {p : Position} {before taken rs : List Rune}

theorem HasEscapedEnd.text (hrs : AreRead rs) (h : HasEscapedEnd rs) : ("\\\n" : Text) <:+: Rune.text rs := by
  obtain ⟨front, back, h⟩ := h
  obtain ⟨front', back', rfl, hfront, -⟩ := List.map_eq_append_iff.mp h.symm
  obtain ⟨before, marks, rfl, -, hmarks⟩ := List.map_eq_append_iff.mp hfront
  obtain ⟨r, rest, rfl, hr, hrest⟩ := List.map_eq_cons_iff.mp hmarks
  obtain ⟨s, none, rfl, hs, hnone⟩ := List.map_eq_cons_iff.mp hrest
  obtain rfl := List.map_eq_nil_iff.mp hnone
  refine ⟨Rune.text before, Rune.text back', ?_⟩
  rw [Rune.text_append, Rune.text_append, Rune.text_cons, Rune.text_cons, Rune.text_nil,
    bytes_of_char (hrs r (by simp)) hr (by decide), bytes_of_char (hrs s (by simp)) hs (by decide)]
  rfl

theorem HasEscapedEnd.left (h : HasEscapedEnd before) : HasEscapedEnd (before ++ taken) := by
  rw [HasEscapedEnd, List.map_append]
  exact h.trans (List.prefix_append _ _).isInfix

theorem HasEscapedEnd.right (h : HasEscapedEnd taken) : HasEscapedEnd (before ++ taken) := by
  rw [HasEscapedEnd, List.map_append]
  exact h.trans (List.suffix_append _ _).isInfix

theorem Reached.placed (h : Reached source p before rs) : Placed source p := by
  have htext : Rune.text before ++ Rune.text rs = source := by
    rw [← Rune.text_append, ← h.split, Rune.text_ofText]
  have hlength : source.length = (Rune.text before).length + (Rune.text rs).length := by
    rw [← htext, List.length_append]
  have hoffset : p.offset.toNat = (Rune.text before).length := by rw [h.offset, Int.toNat_natCast]
  refine ⟨⟨by rw [h.offset]; omega, by rw [h.offset]; omega⟩, fun hescaped => ?_⟩
  have hread : AreRead before := fun r hr => Rune.mem_ofText (h.split ▸ List.mem_append_left rs hr)
  have hself : Rune.ofText (Rune.text before) = before := by
    have hcut := Rune.ofText_text_take source before.length
    rwa [h.split, List.take_left] at hcut
  rw [hoffset, ← htext, List.take_left] at hescaped
  rw [hoffset, h.place fun hbefore => hescaped (hbefore.text hread), place_text hself (Rune.text rs), htext]

theorem Reached.blank (h : Reached source p before (taken ++ rs)) :
    Reached source (p.afterLines taken) (before ++ taken) rs := by
  refine ⟨by rw [h.split, List.append_assoc], ?_, fun hescaped => ?_⟩
  · rw [offset_afterLines, h.offset, Rune.text_append, List.length_append, Int.natCast_add]
  · rw [h.place fun hbefore => hescaped hbefore.left]
    exact (List.foldl_append ..).symm

/-- Behind a token the place stays right, unless the token goes over an end of a line that is escaped. -/
theorem Reached.token (h : Reached source p before (taken ++ rs))
    (htaken : (∃ r ∈ taken, r.char = '\n') → HasEscapedEnd taken) :
    Reached source (p.after taken) (before ++ taken) rs := by
  refine ⟨by rw [h.split, List.append_assoc], ?_, fun hescaped => ?_⟩
  · rw [offset_after, h.offset, Rune.text_append, List.length_append, Int.natCast_add]
  · have hone : ∀ r ∈ taken, r.char ≠ '\n' := fun r hr hend => hescaped (htaken ⟨r, hr, hend⟩).right
    rw [← Position.afterLines_of_one_line hone]
    exact h.blank.place hescaped

theorem placed_scan {file : Text} (h : Reached source p before rs) : AllPlaced source (scan file p rs) := by
  induction hlength : rs.length using Nat.strongRecOn generalizing p before rs with
  | ind k ih =>
    cases rs with
    | nil =>
      rw [scan]
      exact fun t ht => List.mem_singleton.mp ht ▸ h.placed
    | cons r rs =>
      have hread : AreRead (r :: rs) := fun s hs => Rune.mem_ofText (h.split ▸ List.mem_append_right before hs)
      have hlt (n : Nat) : (rs.drop n).length < k := by
        rw [List.length_drop, ← hlength, List.length_cons]
        omega
      have hsplit (n : Nat) : Reached source p before ((r :: rs.take n) ++ rs.drop n) := by
        rwa [List.cons_append, List.take_append_drop]
      rw [scan]
      cases hstep : step r rs with
      | token kind n =>
        simp only [Step.size]
        have htaken : (∃ s ∈ r :: rs.take (n - 1), s.char = '\n') → HasEscapedEnd (r :: rs.take (n - 1)) := by
          rintro ⟨s, hs, hend⟩
          cases n with
          | zero =>
            obtain rfl : s = r := List.mem_singleton.mp hs
            simp [step, hend] at hstep
          | succ n => exact step_token_escapedEnd hread hstep fun hone => hone s hs hend
        have hrest := ih _ (hlt (n - 1)) ((hsplit (n - 1)).token htaken) rfl
        cases hscan : scan file (p.after (r :: rs.take (n - 1))) (rs.drop (n - 1)) with
        | error d =>
          rw [hscan] at hrest
          exact hrest
        | ok ts =>
          rw [hscan] at hrest
          exact List.forall_mem_cons.mpr ⟨h.placed, hrest⟩
      | blank n =>
        simp only [Step.size]
        exact ih _ (hlt _) (hsplit (n - 1)).blank rfl
      | fault e n | blankFault e n => exact h.placed

end

end Lexer

/-- Tokens and faults have the places in the source text where they start, as lines and columns are counted there. The
one exception is what stands behind an end of a line that is escaped, as it can be in a string. -/
theorem tokenize_placed (file source : Text) : AllPlaced source (tokenize file source) :=
  Lexer.placed_scan (show Lexer.Reached source ⟨1, 1, 0⟩ [] (Rune.ofText source) from ⟨rfl, rfl, fun _ => rfl⟩)

/-- Behind an escaped end of a line the places are those of a text in which it is no end of a line. -/
example : (tokenize [] "\"\\\n\" x").toOption.map (fun ts => ts.map fun t => t.span.start) =
    some [⟨1, 1, 0⟩, ⟨1, 6, 5⟩, ⟨1, 7, 6⟩] ∧ ("\"\\\n\" x" : Text).place 5 = ⟨2, 3, 5⟩ := by
  decide +kernel

end Shading
