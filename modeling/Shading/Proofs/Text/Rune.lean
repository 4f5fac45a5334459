import Shading.Text.Rune

/-! How the runes of a text follow from those of its parts. -/
namespace Shading

/-- What is asked of the members of a list is decided by looking at them, also where the type of the members
could be gone through. -/
instance (priority := 2000) decidableForallMem {α : Type} (p : α → Prop) [DecidablePred p] (l : List α) :
    Decidable (∀ a ∈ l, p a) := List.decidableBAll p l

namespace Rune

theorem scan_eq_drop (skip : Nat) (t : Text) : scan skip t = ofText (t.drop skip) := by
  induction skip generalizing t with
  | zero => rfl
  | succ skip ih =>
    cases t with
    | nil => rfl
    | cons b t => exact ih t

@[simp] theorem ofText_nil : ofText [] = [] := rfl

theorem ofText_cons (b : UInt8) (rest : Text) :
    ofText (b :: rest) = first b rest :: ofText (rest.drop ((first b rest).bytes.length - 1)) := by
  rw [← scan_eq_drop]
  rfl

/-- A character of ASCII is a rune of its own. -/
def ascii (b : UInt8) : Rune := ⟨Char.ofNat b.toNat, [b]⟩

theorem ofText_cons_ascii {b : UInt8} (rest : Text) (hb : b < 0x80) :
    ofText (b :: rest) = ascii b :: ofText rest := by
  have hfirst : first b rest = ascii b := by rw [first.eq_def, if_pos hb, ascii]
  rw [ofText_cons, hfirst]
  rfl

theorem ofText_append_ascii {t : Text} (u : Text) (ht : ∀ b ∈ t, b < 0x80) :
    ofText (t ++ u) = t.map ascii ++ ofText u := by
  induction t with
  | nil => rfl
  | cons b t ih =>
    rw [List.cons_append, ofText_cons_ascii _ (ht b (by simp)), ih fun c hc => ht c (by simp [hc])]
    rfl

/-- The bytes of the first rune stand in front of the text. -/
theorem first_bytes (b : UInt8) (rest : Text) :
    ∃ more, (first b rest).bytes = b :: more ∧ more <+: rest := by
  fun_cases first b rest
  all_goals simp_all [invalid, List.prefix_iff_eq_append]

@[simp] theorem text_nil : text [] = [] := rfl

@[simp] theorem text_cons (r : Rune) (rs : List Rune) : text (r :: rs) = r.bytes ++ text rs := rfl

@[simp] theorem text_append (rs ss : List Rune) : text (rs ++ ss) = text rs ++ text ss := by
  simp [text]

/-- Runes spell the text that they are read from. -/
theorem text_ofText (t : Text) : text (ofText t) = t := by
  induction h : t.length using Nat.strongRecOn generalizing t with
  | ind n ih =>
    cases t with
    | nil => rfl
    | cons b rest =>
      obtain ⟨more, hmore, tail, rfl⟩ := first_bytes b rest
      rw [ofText_cons, text_cons, hmore]
      simp only [List.length_cons, Nat.add_one_sub_one, List.drop_left]
      rw [ih tail.length (by simp at h; omega) tail rfl]
      simp

/-- A rune that is no replacement for a faulty byte does not depend on what follows it. -/
theorem first_append {b : UInt8} {rest : Text} (u : Text) (h : (first b rest).char ≠ replacement) :
    first b (rest ++ u) = first b rest := by
  rw [first.eq_def] at h
  rw [first.eq_def b (rest ++ u), first.eq_def b rest]
  split
  · rfl
  next h₁ =>
  rw [if_neg h₁] at h
  split
  · next h₂ =>
    rw [if_pos h₂] at h
    cases rest with
    | nil => exact absurd rfl h
    | cons c r => rfl
  next h₂ =>
  rw [if_neg h₂] at h
  split
  · next h₃ =>
    rw [if_pos h₃] at h
    match rest with
    | [] | [_] => exact absurd rfl h
    | c :: d :: r => rfl
  next h₃ =>
  rw [if_neg h₃] at h
  split
  · next h₄ =>
    rw [if_pos h₄] at h
    match rest with
    | [] | [_] | [_, _] => exact absurd rfl h
    | c :: d :: e :: r => rfl
  · rfl

/-- A text without faulty bytes is read the same whatever follows it. -/
theorem ofText_append {t : Text} (u : Text) (h : ∀ r ∈ ofText t, r.char ≠ replacement) :
    ofText (t ++ u) = ofText t ++ ofText u := by
  induction hn : t.length using Nat.strongRecOn generalizing t with
  | ind n ih =>
    cases t with
    | nil => rfl
    | cons b rest =>
      rw [ofText_cons, List.forall_mem_cons] at h
      obtain ⟨more, hmore, tail, rfl⟩ := first_bytes b rest
      rw [List.cons_append, ofText_cons, ofText_cons, first_append u h.1, hmore]
      rw [hmore] at h
      simp only [List.length_cons, Nat.add_one_sub_one, List.drop_left, List.append_assoc] at h ⊢
      rw [ih tail.length (by simp at hn; omega) h.2 rfl, List.cons_append]

/-- A rune that is no replacement is read from its own bytes. -/
theorem first_self {b : UInt8} {rest : Text} (h : (first b rest).char ≠ replacement) :
    first b ((first b rest).bytes.drop 1) = first b rest := by
  rw [first.eq_def b rest] at h ⊢
  by_cases h₁ : b < 0x80
  · rw [if_pos h₁, first.eq_def, if_pos h₁]
  rw [if_neg h₁] at h ⊢
  by_cases h₂ : (0xC2 ≤ b && b ≤ 0xDF) = true
  · rw [if_pos h₂] at h ⊢
    match rest with
    | [] => exact absurd rfl h
    | c :: r =>
      simp only at h ⊢
      by_cases hc : continuation c = true
      · rw [if_pos hc, first.eq_def, if_neg h₁, if_pos h₂]
        exact if_pos hc
      · rw [if_neg hc] at h
        exact absurd rfl h
  rw [if_neg h₂] at h ⊢
  by_cases h₃ : (0xE0 ≤ b && b ≤ 0xEF) = true
  · rw [if_pos h₃] at h ⊢
    match rest with
    | [] | [_] => exact absurd rfl h
    | c :: d :: r =>
      simp only at h ⊢
      by_cases hc : ((secondRange b).1 ≤ c && c ≤ (secondRange b).2 && continuation d) = true
      · rw [if_pos hc, first.eq_def, if_neg h₁, if_neg h₂, if_pos h₃]
        exact if_pos hc
      · rw [if_neg hc] at h
        exact absurd rfl h
  rw [if_neg h₃] at h ⊢
  by_cases h₄ : (0xF0 ≤ b && b ≤ 0xF4) = true
  · rw [if_pos h₄] at h ⊢
    match rest with
    | [] | [_] | [_, _] => exact absurd rfl h
    | c :: d :: e :: r =>
      simp only at h ⊢
      by_cases hc : ((secondRange b).1 ≤ c && c ≤ (secondRange b).2 && continuation d && continuation e) = true
      · rw [if_pos hc, first.eq_def, if_neg h₁, if_neg h₂, if_neg h₃, if_pos h₄]
        exact if_pos hc
      · rw [if_neg hc] at h
        exact absurd rfl h
  rw [if_neg h₄] at h
  exact absurd rfl h

theorem continuation_of_ascii : ∀ c : UInt8, c < 0x80 → continuation c = false := by
  intro c hc
  rw [continuation, Bool.and_eq_false_iff, decide_eq_false_iff_not]
  exact .inl (UInt8.not_le.mpr hc)

theorem secondRange_of_ascii (b : UInt8) : ∀ c : UInt8, c < 0x80 → ((secondRange b).1 ≤ c) = False := by
  intro c hc
  have hle : 0x80 ≤ (secondRange b).1 := by
    unfold secondRange
    split
    · decide
    split
    · decide
    split
    · decide
    split <;> decide
  exact eq_false (UInt8.not_le.mpr (UInt8.lt_of_lt_of_le hc hle))

/-- A character of ASCII belongs to no rune that starts in front of it. -/
theorem first_append_ascii (b : UInt8) (rest : Text) {c : UInt8} (hc : c < 0x80) (u : Text) :
    first b (rest ++ c :: u) = first b rest := by
  have hcont := continuation_of_ascii c hc
  have hsecond := secondRange_of_ascii b c hc
  rw [first.eq_def b (rest ++ c :: u), first.eq_def b rest]
  match rest with
  | [] =>
    cases u with
    | nil => simp [hcont]
    | cons d u => cases u <;> simp [hcont, hsecond]
  | [x] => cases u <;> simp [hcont]
  | [x, y] => simp [hcont]
  | x :: y :: z :: r => rfl

theorem mem_ofText {t : Text} {r : Rune} (h : r ∈ ofText t) : ∃ b rest, r = first b rest := by
  induction hn : t.length using Nat.strongRecOn generalizing t with
  | ind n ih =>
    cases t with
    | nil => simp at h
    | cons b rest =>
      rw [ofText_cons] at h
      rcases List.mem_cons.mp h with rfl | h
      · exact ⟨b, rest, rfl⟩
      · refine ih _ ?_ h rfl
        rw [List.length_drop]
        rw [List.length_cons] at hn
        omega

/-- Runes that are no replacements are read from the text that they spell. -/
theorem ofText_text {rs : List Rune} (hrs : ∀ r ∈ rs, ∃ b rest, r = first b rest)
    (h : ∀ r ∈ rs, r.char ≠ replacement) : ofText (text rs) = rs := by
  induction rs with
  | nil => rfl
  | cons r rs ih =>
    rw [List.forall_mem_cons] at hrs h
    obtain ⟨b, rest, rfl⟩ := hrs.1
    have hself := first_self h.1
    obtain ⟨more, hmore, -⟩ := first_bytes b rest
    rw [hmore, List.drop_one, List.tail_cons] at hself
    have hfirst : first b (more ++ text rs) = first b rest := by
      rw [first_append _ (by rw [hself]; exact h.1), hself]
    rw [text_cons, hmore, List.cons_append, ofText_cons, hfirst, hmore, List.length_cons,
      Nat.add_one_sub_one, List.drop_left, ih hrs.2 h.2]

/-- A text is read the same in front of a character of ASCII. -/
theorem ofText_append_of_ascii (t : Text) {c : UInt8} (hc : c < 0x80) (u : Text) :
    ofText (t ++ c :: u) = ofText t ++ ofText (c :: u) := by
  induction hn : t.length using Nat.strongRecOn generalizing t with
  | ind n ih =>
    cases t with
    | nil => rfl
    | cons b rest =>
      obtain ⟨more, hmore, tail, rfl⟩ := first_bytes b rest
      rw [List.cons_append, ofText_cons, ofText_cons, first_append_ascii _ _ hc, hmore]
      simp only [List.length_cons, Nat.add_one_sub_one, List.drop_left, List.append_assoc]
      rw [ih tail.length (by simp at hn; omega) tail rfl, List.cons_append]

/-- What is no character of ASCII is not equal to one. -/
theorem ofNat_ne_of_le {n : Nat} (h : 0x80 ≤ n) {c : Char} (hrange : 0 < c.toNat ∧ c.toNat < 0x80) : Char.ofNat n ≠ c := by
  rintro rfl
  by_cases hn : n.isValidChar
  · rw [Char.ofNat, dif_pos hn] at hrange
    have hval : (Char.ofNatAux n hn).toNat = n := rfl
    omega
  · rw [Char.ofNat, dif_neg hn] at hrange
    exact absurd hrange.1 (by decide)

/-- After a first byte without payload, the second byte has some. -/
theorem low_of_secondRange {b x : UInt8} (hleast : (secondRange b).1 ≤ x) (hmost : x ≤ (secondRange b).2) :
    (b.toNat = 0xE0 → 0x20 ≤ low x) ∧ (b.toNat = 0xF0 → 0x10 ≤ low x) := by
  constructor
  · intro hb
    obtain rfl : b = 0xE0 := UInt8.toNat_inj.mp hb
    have hlow : 0xA0 ≤ x.toNat := hleast
    have hhigh : x.toNat ≤ 0xBF := hmost
    unfold low
    omega
  · intro hb
    obtain rfl : b = 0xF0 := UInt8.toNat_inj.mp hb
    have hlow : 0x90 ≤ x.toNat := hleast
    have hhigh : x.toNat ≤ 0xBF := hmost
    unfold low
    omega

theorem first_char_ne {b : UInt8} (hb : ¬ b < 0x80) (rest : Text) {c : Char}
    (hc : 0 < c.toNat ∧ c.toNat < 0x80) : (first b rest).char ≠ c := by
  have hinvalid : (invalid b).char ≠ c := ofNat_ne_of_le (n := 0xFFFD) (by decide) hc
  rw [first.eq_def, if_neg hb]
  split
  · rename_i hlead
    simp only [Bool.and_eq_true, decide_eq_true_eq] at hlead
    have hlow : 0xC2 ≤ b.toNat := hlead.1
    have hhigh : b.toNat ≤ 0xDF := hlead.2
    split
    · split
      · exact ofNat_ne_of_le (by unfold low; omega) hc
      · exact hinvalid
    · exact hinvalid
  · split
    · rename_i hlead
      simp only [Bool.and_eq_true, decide_eq_true_eq] at hlead
      have hlow : 0xE0 ≤ b.toNat := hlead.1
      have hhigh : b.toNat ≤ 0xEF := hlead.2
      split
      · rename_i x y _
        simp only
        split
        · rename_i hrange
          simp only [Bool.and_eq_true, decide_eq_true_eq] at hrange
          have hsecond := low_of_secondRange (b := b) (x := x) hrange.1.1 hrange.1.2
          exact ofNat_ne_of_le (by unfold low at hsecond ⊢; omega) hc
        · exact hinvalid
      · exact hinvalid
    · split
      · rename_i hlead
        simp only [Bool.and_eq_true, decide_eq_true_eq] at hlead
        have hlow : 0xF0 ≤ b.toNat := hlead.1
        have hhigh : b.toNat ≤ 0xF4 := hlead.2
        split
        · rename_i x y z _
          simp only
          split
          · rename_i hrange
            simp only [Bool.and_eq_true, decide_eq_true_eq] at hrange
            have hsecond := low_of_secondRange (b := b) (x := x) hrange.1.1.1 hrange.1.1.2
            exact ofNat_ne_of_le (by unfold low at hsecond ⊢; omega) hc
          · exact hinvalid
        · exact hinvalid
      · exact hinvalid

theorem byte_of_ascii : ∀ b : UInt8, b < 0x80 → Text.byte (Char.ofNat b.toNat) = b := by
  intro b hb
  have hlt : b.toNat < 0x80 := UInt8.lt_iff_toNat_lt.mp hb
  have hvalid : b.toNat.isValidChar := .inl (by omega)
  rw [Char.ofNat, dif_pos hvalid]
  exact UInt8.ofNat_toNat

/-- A rune that reads as a character of ASCII is spelled by it. -/
theorem bytes_first {b : UInt8} {rest : Text} {c : Char} (hc : 0 < c.toNat ∧ c.toNat < 0x80)
    (h : (first b rest).char = c) : (first b rest).bytes = [Text.byte c] := by
  by_cases hb : b < 0x80
  · have hfirst : first b rest = ascii b := by rw [first.eq_def, if_pos hb, ascii]
    rw [hfirst] at h ⊢
    rw [← h]
    exact congrArg (fun x => [x]) (byte_of_ascii b hb).symm
  · exact absurd h (first_char_ne hb rest hc)

/-- No byte of a rune outside ASCII is one of ASCII. -/
theorem not_ascii_of_mem_first {b : UInt8} (hb : ¬ b < 0x80) (rest : Text) {x : UInt8}
    (hx : x ∈ (first b rest).bytes) : ¬ x < 0x80 := by
  have hinvalid (h : x ∈ (invalid b).bytes) : ¬ x < 0x80 := List.mem_singleton.mp h ▸ hb
  have hcontinuation {c : UInt8} (hc : continuation c) : ¬ c < 0x80 := fun hlt => by
    rw [continuation_of_ascii c hlt] at hc
    cases hc
  have hsecond {c : UInt8} (hc : (secondRange b).1 ≤ c) : ¬ c < 0x80 := fun hlt => by
    rwa [secondRange_of_ascii b c hlt] at hc
  rw [first.eq_def, if_neg hb] at hx
  split at hx
  · split at hx
    · split at hx
      · rename_i hc
        simp only [List.mem_cons, List.not_mem_nil, or_false] at hx
        rcases hx with rfl | rfl
        · exact hb
        · exact hcontinuation hc
      · exact hinvalid hx
    · exact hinvalid hx
  · split at hx
    · split at hx
      · simp only at hx
        split at hx
        · rename_i hrange
          simp only [Bool.and_eq_true, decide_eq_true_eq] at hrange
          simp only [List.mem_cons, List.not_mem_nil, or_false] at hx
          rcases hx with rfl | rfl | rfl
          · exact hb
          · exact hsecond hrange.1.1
          · exact hcontinuation hrange.2
        · exact hinvalid hx
      · exact hinvalid hx
    · split at hx
      · split at hx
        · simp only at hx
          split at hx
          · rename_i hrange
            simp only [Bool.and_eq_true, decide_eq_true_eq] at hrange
            simp only [List.mem_cons, List.not_mem_nil, or_false] at hx
            rcases hx with rfl | rfl | rfl | rfl
            · exact hb
            · exact hsecond hrange.1.1.1
            · exact hcontinuation hrange.1.2
            · exact hcontinuation hrange.2
          · exact hinvalid hx
        · exact hinvalid hx
      · exact hinvalid hx

/-- A rune that is no faulty byte is read from its own bytes, whatever follows them. -/
theorem first_stable (b : UInt8) (rest : Text) :
    first b rest = invalid b ∨ ∀ more v, (first b rest).bytes = b :: more → first b (more ++ v) = first b rest := by
  fun_cases first b rest
  case case1 h₁ =>
    refine .inr fun more v _ => ?_
    rw [first.eq_def, if_pos h₁]
  case case2 h₁ h₂ c tail hc =>
    refine .inr fun more v h => ?_
    cases h
    rw [first.eq_def, if_neg h₁, if_pos h₂]
    exact if_pos hc
  case case5 h₁ h₂ h₃ c d tail least most hrange h =>
    refine .inr fun more v hmore => ?_
    cases hmore
    rw [first.eq_def, if_neg h₁, if_neg h₂, if_pos h₃]
    simp only [List.cons_append, hrange, if_pos h]
  case case8 h₁ h₂ h₃ h₄ c d e tail least most hrange h =>
    refine .inr fun more v hmore => ?_
    cases hmore
    rw [first.eq_def, if_neg h₁, if_neg h₂, if_neg h₃, if_pos h₄]
    simp only [List.cons_append, hrange, if_pos h]
  all_goals exact .inl rfl

/-- A rune is read the same when a text is cut off behind it. -/
theorem first_truncate {b : UInt8} {rest more : Text} (u : Text) (hbytes : (first b (rest ++ u)).bytes = b :: more)
    (hmore : more <+: rest) : first b rest = first b (rest ++ u) := by
  obtain hlong | hlong := first_stable b (rest ++ u)
  · obtain hshort | hshort := first_stable b rest
    · rw [hshort, hlong]
    · obtain ⟨more', hmore', tail, rfl⟩ := first_bytes b rest
      rw [List.append_assoc, hshort more' (tail ++ u) hmore']
  · obtain ⟨tail, rfl⟩ := hmore
    exact hlong more tail hbytes

/-- Runes in front are read from the text that they spell. -/
theorem ofText_text_take (t : Text) (n : Nat) : ofText (text ((ofText t).take n)) = (ofText t).take n := by
  induction n generalizing t with
  | zero => rfl
  | succ n ih =>
    cases t with
    | nil => rfl
    | cons b rest =>
      obtain ⟨more, hmore, tail, rfl⟩ := first_bytes b rest
      have hcut : first b (more ++ text ((ofText tail).take n)) = first b (more ++ tail) := by
        have hsplit : (more ++ text ((ofText tail).take n)) ++ text ((ofText tail).drop n) = more ++ tail := by
          rw [List.append_assoc, ← text_append, List.take_append_drop, text_ofText]
        rw [← hsplit]
        exact first_truncate _ (by rw [hsplit, hmore]) (List.prefix_append _ _)
      have htail : (more ++ tail).drop (more.length + 1 - 1) = tail := List.drop_left
      rw [ofText_cons, List.take_succ_cons, text_cons, hmore, List.length_cons, htail, List.cons_append, ofText_cons,
        hcut, hmore, List.length_cons, Nat.add_one_sub_one, List.drop_left, ih]

/-- The runes behind are read from the text that they spell. -/
theorem ofText_text_drop (t : Text) (n : Nat) : ofText (text ((ofText t).drop n)) = (ofText t).drop n := by
  induction n generalizing t with
  | zero => rw [List.drop_zero, text_ofText]
  | succ n ih =>
    cases t with
    | nil => rfl
    | cons b rest =>
      rw [ofText_cons, List.drop_succ_cons]
      exact ih _

end Rune

end Shading
