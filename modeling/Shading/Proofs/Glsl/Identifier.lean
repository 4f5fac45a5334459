import Shading.Proofs.Glsl.Namer

/-! Identifiers that GLSL leaves to programs. Whatever an identifier of the source is escaped to is one of them. A name
with a number behind it, or with a beginning of the generator's own in front of it, is one only if it ends, or begins,
in the right way. Two identifiers are escaped alike only if one of them looks like what the other one is escaped to. -/
namespace Shading.Glsl

/-- Do two underscores stand in a row? GLSL reserves the names in which they do. -/
def IsDoubled (name : Text) : Prop := Text.ofString "__" <:+: name

instance (name : Text) : Decidable (IsDoubled name) := inferInstanceAs (Decidable (Text.ofString "__" <:+: name))

/-- An identifier that GLSL leaves to programs. -/
structure Legal (name : Text) : Prop where
  unreserved : isReserved name = false
  notBuiltin : ¬ Text.ofString "gl_" <+: name
  separated : ¬ IsDoubled name

section

variable {b : UInt8} {t u : Text}

theorem not_isDoubled_nil : ¬ IsDoubled [] := by decide

theorem isDoubled_cons_iff :
    IsDoubled (b :: t) ↔ (b = Text.byte '_' ∧ t.head? = some (Text.byte '_')) ∨ IsDoubled t := by
  have hmark : Text.ofString "__" = [Text.byte '_', Text.byte '_'] := by decide
  have hfirst : [Text.byte '_', Text.byte '_'] <+: b :: t ↔ b = Text.byte '_' ∧ t.head? = some (Text.byte '_') := by
    cases t with
    | nil => simp
    | cons c t => simp [List.cons_prefix_cons, eq_comm]
  rw [IsDoubled, IsDoubled, List.infix_cons_iff, hmark, hfirst]

theorem not_isDoubled_of_not_mem (h : Text.byte '_' ∉ t) : ¬ IsDoubled t := fun hdoubled =>
  h (hdoubled.subset (by decide))

/-- Two underscores in a row stand in one of two parts, or they meet between them. -/
theorem isDoubled_append_iff : IsDoubled (t ++ u) ↔
    IsDoubled t ∨ IsDoubled u ∨ (t.getLast? = some (Text.byte '_') ∧ u.head? = some (Text.byte '_')) := by
  induction t with
  | nil => simp [not_isDoubled_nil]
  | cons b t ih =>
    rw [List.cons_append, isDoubled_cons_iff, ih, isDoubled_cons_iff]
    cases t with
    | nil => simp [not_isDoubled_nil, or_comm]
    | cons c t => simp [or_assoc]

theorem head_separateUnderscores : (separateUnderscores t).head? = t.head? := by
  fun_cases separateUnderscores t <;> rfl

/-- Of two underscores in a row the second one is replaced. -/
theorem not_isDoubled_separateUnderscores : ¬ IsDoubled (separateUnderscores t) := by
  fun_induction separateUnderscores t with
  | case1 => exact not_isDoubled_nil
  | case2 b => simp [isDoubled_cons_iff, not_isDoubled_nil]
  | case3 a b rest hboth ih =>
    rw [isDoubled_cons_iff, isDoubled_cons_iff]
    rintro (⟨-, hzero⟩ | ⟨hzero, -⟩ | hrest)
    · exact absurd (Option.some.inj hzero) (by decide)
    · exact absurd hzero (by decide)
    · exact ih hrest
  | case4 a b rest hboth ih =>
    rw [isDoubled_cons_iff, head_separateUnderscores]
    rintro (⟨ha, hb⟩ | hrest)
    · exact hboth ⟨ha, Option.some.inj hb⟩
    · exact ih hrest

/-- Only underscores in a row are replaced. -/
theorem separateUnderscores_of_not_isDoubled (h : ¬ IsDoubled t) : separateUnderscores t = t := by
  fun_induction separateUnderscores t with
  | case1 => rfl
  | case2 b => rfl
  | case3 a b rest hboth ih =>
    obtain ⟨rfl, rfl⟩ := hboth
    exact absurd (isDoubled_cons_iff.mpr (.inl ⟨rfl, rfl⟩)) h
  | case4 a b rest hboth ih => rw [ih fun hrest => h (isDoubled_cons_iff.mpr (.inr hrest))]

/-- The first one of two in a row stays. -/
theorem underscore_mem_separateUnderscores (h : IsDoubled t) : Text.byte '_' ∈ separateUnderscores t := by
  fun_induction separateUnderscores t with
  | case1 => exact absurd h not_isDoubled_nil
  | case2 b => simp [isDoubled_cons_iff, not_isDoubled_nil] at h
  | case3 a b rest hboth ih => exact hboth.1 ▸ List.mem_cons_self
  | case4 a b rest hboth ih =>
    rcases isDoubled_cons_iff.mp h with ⟨ha, hb⟩ | hrest
    · exact absurd ⟨ha, Option.some.inj hb⟩ hboth
    · exact List.mem_cons_of_mem _ (ih hrest)

theorem getLast_separateUnderscores (h : t.getLast? ≠ some (Text.byte '_')) :
    (separateUnderscores t).getLast? ≠ some (Text.byte '_') := by
  have hcons (b : UInt8) (t : Text) : ∃ rest, separateUnderscores (b :: t) = b :: rest :=
    List.head?_eq_some_iff.mp head_separateUnderscores
  fun_induction separateUnderscores t with
  | case1 => exact h
  | case2 b => exact h
  | case3 a b rest hboth ih =>
    cases rest with
    | nil => exact absurd (congrArg some hboth.2) h
    | cons c rest =>
      obtain ⟨tail, htail⟩ := hcons c rest
      rw [htail] at ih ⊢
      exact ih h
  | case4 a b rest hboth ih =>
    obtain ⟨tail, htail⟩ := hcons b rest
    rw [htail] at ih ⊢
    exact ih h

end

/-- What is put in front of a name without two underscores in a row, if it is given already. -/
def protect (name : Text) : Text :=
  if isReserved name || (Text.ofString "gl_").isPrefixOf name then "_" ++ name
  else if ownMark.isPrefixOf name then "u" ++ name
  else name

section

variable {name : Text}

theorem not_underscore_of_protected (h : (isReserved name || (Text.ofString "gl_").isPrefixOf name) = true) :
    name.head? ≠ some (Text.byte '_') := by
  intro hhead
  have hmark : Text.ofString "_" <+: name := by
    obtain ⟨rest, rfl⟩ := List.head?_eq_some_iff.mp hhead
    exact ⟨rest, rfl⟩
  rcases Bool.or_eq_true_iff.mp h with hword | hbuiltin
  · exact (isVocabulary_iff.mp (isVocabulary_of_isReserved hword)).1 hmark
  · have hgl := List.isPrefixOf_iff_prefix.mp hbuiltin
    exact absurd (List.prefix_of_prefix_length_le hmark hgl (by decide)) (by decide)

/-- A name that begins as no word of the language does is legal without two underscores in a row. -/
theorem legal_of_start (hsingle : ¬ IsDoubled name) (hstart : Text.ofString "_" <+: name ∨ Text.ofString "u_" <+: name) :
    Legal name := by
  refine ⟨Bool.eq_false_iff.mpr fun hreserved => ?_, fun hbuiltin => ?_, hsingle⟩
  · obtain ⟨hunderscore, hu, -⟩ := isVocabulary_iff.mp (isVocabulary_of_isReserved hreserved)
    exact hstart.elim hunderscore hu
  · rcases hstart with hstart | hstart
    · exact absurd (List.prefix_of_prefix_length_le hstart hbuiltin (by decide)) (by decide)
    · exact absurd (List.prefix_of_prefix_length_le hstart hbuiltin (by decide)) (by decide)

theorem legal_protect (h : ¬ IsDoubled name) : Legal (protect name) := by
  unfold protect
  split
  · next hprotected =>
    refine legal_of_start ?_ (.inl (List.prefix_append _ _))
    rw [isDoubled_append_iff]
    rintro (hone | hname | ⟨-, hhead⟩)
    · exact absurd hone (by decide)
    · exact h hname
    · exact not_underscore_of_protected hprotected hhead
  · next hplain =>
    split
    · next hown =>
      obtain ⟨rest, rfl⟩ := List.isPrefixOf_iff_prefix.mp hown
      refine legal_of_start ?_ (.inr ⟨ownMark.drop 1 ++ rest, rfl⟩)
      rw [isDoubled_append_iff]
      rintro (hone | hname | ⟨hlast, -⟩)
      · exact absurd hone (by decide)
      · exact h hname
      · exact absurd hlast (by decide)
    · obtain ⟨hreserved, hbuiltin⟩ := Bool.or_eq_false_iff.mp (Bool.eq_false_iff.mpr hplain)
      refine ⟨hreserved, fun hgl => ?_, h⟩
      rw [List.isPrefixOf_iff_prefix.mpr hgl] at hbuiltin
      cases hbuiltin

/-- At most one character is put in front of a name. -/
theorem protect_cases (name : Text) : protect name = name ∨ protect name = Text.byte '_' :: name ∨
    (ownMark <+: name ∧ protect name = Text.byte 'u' :: name) := by
  unfold protect
  split
  · exact .inr (.inl rfl)
  · split
    · next hown => exact .inr (.inr ⟨List.isPrefixOf_iff_prefix.mp hown, rfl⟩)
    · exact .inl rfl

theorem tail_protect (name : Text) : protect name = name ∨ ∃ b, protect name = b :: name := by
  rcases protect_cases name with hsame | hmarked | ⟨-, hmarked⟩
  · exact .inl hsame
  · exact .inr ⟨_, hmarked⟩
  · exact .inr ⟨_, hmarked⟩

/-- A legal name that does not begin as those of the generator's own is left as it is. -/
theorem protect_of_legal (h : Legal name) (hown : ¬ ownMark <+: name) : protect name = name := by
  unfold protect
  rw [if_neg, if_neg]
  · exact fun hmark => hown (List.isPrefixOf_iff_prefix.mp hmark)
  · intro hprotected
    rcases Bool.or_eq_true_iff.mp hprotected with hword | hbuiltin
    · rw [h.unreserved] at hword
      cases hword
    · exact h.notBuiltin (List.isPrefixOf_iff_prefix.mp hbuiltin)

/-- What a name is made of: the identifier without underscores in a row. -/
def stem (identifier : Text) : Text := if identifier.isEmpty then "_unnamed" else separateUnderscores identifier

theorem stem_cons (b : UInt8) (t : Text) : ∃ rest, stem (b :: t) = b :: rest :=
  List.head?_eq_some_iff.mp (head_separateUnderscores (t := b :: t))

theorem stem_ne_nil (identifier : Text) : stem identifier ≠ [] := by
  cases identifier with
  | nil => decide
  | cons b t =>
    obtain ⟨rest, hrest⟩ := stem_cons b t
    exact hrest ▸ List.cons_ne_nil b rest

theorem not_isDoubled_stem (identifier : Text) : ¬ IsDoubled (stem identifier) := by
  unfold stem
  split
  · decide
  · exact not_isDoubled_separateUnderscores

theorem escape_eq_protect (identifier : Text) : escape identifier = protect (stem identifier) := by
  unfold escape stem
  split
  · have hlegal : Legal "_unnamed" := legal_of_start (by decide) (.inl ⟨"unnamed", rfl⟩)
    exact (protect_of_legal hlegal (by decide)).symm
  · rfl

theorem escape_ne_nil (identifier : Text) : escape identifier ≠ [] := by
  rw [escape_eq_protect]
  rcases tail_protect (stem identifier) with hsame | ⟨b, hmarked⟩
  · rw [hsame]
    exact stem_ne_nil identifier
  · rw [hmarked]
    exact List.cons_ne_nil b _

/-- Whatever an identifier of the source is escaped to is left to programs. -/
theorem legal_escape (identifier : Text) : Legal (escape identifier) := by
  rw [escape_eq_protect]
  exact legal_protect (not_isDoubled_stem identifier)

/-- Can a number stand behind a name? An underscore stands between them. -/
def Numberable (name : Text) : Prop :=
  name ≠ Text.ofString "gl" ∧ name.getLast? ≠ some (Text.byte '_')

instance (name : Text) : Decidable (Numberable name) := inferInstanceAs (Decidable (_ ∧ _))

/-- Numbers can stand behind the names for identifiers that do not end in an underscore, apart from one. -/
theorem numberable_escape {identifier : Text} (hgl : identifier ≠ Text.ofString "gl")
    (hlast : identifier.getLast? ≠ some (Text.byte '_')) : Numberable (escape identifier) := by
  cases identifier with
  | nil => decide
  | cons c rest =>
    have hstem : stem (c :: rest) ≠ Text.ofString "gl" := by
      intro heq
      by_cases hdoubled : IsDoubled (c :: rest)
      · have hmem := underscore_mem_separateUnderscores hdoubled
        change _ ∈ stem (c :: rest) at hmem
        rw [heq] at hmem
        exact absurd hmem (by decide)
      · exact hgl (separateUnderscores_of_not_isDoubled hdoubled ▸ heq)
    have hlast' : (stem (c :: rest)).getLast? ≠ some (Text.byte '_') := getLast_separateUnderscores hlast
    rw [escape_eq_protect]
    obtain ⟨tail, htail⟩ := stem_cons c rest
    rw [htail] at hstem hlast' ⊢
    rcases protect_cases (c :: tail) with hsame | hmarked | ⟨-, hmarked⟩
    · rw [hsame]
      exact ⟨hstem, hlast'⟩
    · rw [hmarked]
      exact ⟨fun heq => absurd (List.cons.inj heq).1 (by decide), hlast'⟩
    · rw [hmarked]
      exact ⟨fun heq => absurd (List.cons.inj heq).1 (by decide), hlast'⟩

theorem underscore_not_mem_ofNat (n : Nat) : Text.byte '_' ∉ Text.ofNat n := by
  intro hmem
  exact absurd (Text.isDigit_of_mem_ofNat _ hmem) (by decide)

theorem hasNumber_of_digit {b : UInt8} (hb : Decimal.isDigit b) (rest : Text) :
    hasNumber (name ++ Text.byte '_' :: b :: rest) = true := by
  induction name with
  | nil => simp [hasNumber, hb]
  | cons a name ih =>
    cases name with
    | nil => simp_all [hasNumber]
    | cons c name => simp_all [hasNumber]

/-- A word with a mark behind it begins a name with the mark behind it only if it begins the name already, or if the
name is the word. -/
theorem mark_prefix_append_iff {mark : UInt8} {word t : Text} (hword : mark ∉ word) :
    word ++ [mark] <+: name ++ mark :: t ↔ word ++ [mark] <+: name ∨ name = word := by
  induction word generalizing name with
  | nil => cases name <;> simp
  | cons b word ih =>
    obtain ⟨hb, hrest⟩ := not_or.mp (mt List.mem_cons.mpr hword)
    cases name with
    | nil => simp [List.cons_prefix_cons, Ne.symm hb]
    | cons c name => simp [List.cons_prefix_cons, ih hrest, and_or_left, eq_comm]

/-- The underscore in front of a number meets the one that a name ends in. -/
theorem isDoubled_numbered_iff (h : ¬ IsDoubled name) (n : UInt32) :
    IsDoubled (Namer.numbered name n) ↔ name.getLast? = some (Text.byte '_') := by
  have hnone := underscore_not_mem_ofNat n.toNat
  have hfirst : (Text.ofNat n.toNat).head? ≠ some (Text.byte '_') := fun hhead => hnone (List.mem_of_head? hhead)
  rw [Namer.numbered_eq, isDoubled_append_iff, isDoubled_cons_iff]
  simp [h, not_isDoubled_of_not_mem hnone, hfirst]

example : IsDoubled (Namer.numbered (Text.ofString "a_") 1) := by decide

/-- A number behind a name can make it one that the language reserves. -/
theorem legal_numbered_iff (h : Legal name) (n : UInt32) : Legal (Namer.numbered name n) ↔ Numberable name := by
  have hunreserved : isReserved (Namer.numbered name n) = false := by
    refine Bool.eq_false_iff.mpr fun hreserved => ?_
    obtain ⟨-, -, -, hnumber⟩ := isVocabulary_iff.mp (isVocabulary_of_isReserved hreserved)
    obtain ⟨b, digits, hdigits, hb, -⟩ := Text.ofNat_eq_cons n.toNat
    rw [Namer.numbered_eq, hdigits, hasNumber_of_digit hb] at hnumber
    cases hnumber
  have hbuiltin : Text.ofString "gl_" <+: Namer.numbered name n ↔ name = Text.ofString "gl" := by
    have hmark : Text.ofString "gl_" = Text.ofString "gl" ++ [Text.byte '_'] := by decide
    have hgl := h.notBuiltin
    rw [hmark] at hgl
    rw [Namer.numbered_eq, hmark, mark_prefix_append_iff (by decide), or_iff_right hgl]
  have hdoubled := isDoubled_numbered_iff h.separated n
  constructor
  · intro hlegal
    exact ⟨mt hbuiltin.mpr hlegal.notBuiltin, mt hdoubled.mpr hlegal.separated⟩
  · intro hnumberable
    exact ⟨hunreserved, mt hbuiltin.mp hnumberable.1, mt hdoubled.mp hnumberable.2⟩

/-- A name behind a beginning of the generator's own, which ends in an underscore. -/
theorem legal_behind_iff {beginning : Text} (hown : ownMark <+: beginning) (hsingle : ¬ IsDoubled beginning)
    (hlast : beginning.getLast? = some (Text.byte '_')) :
    Legal (beginning ++ name) ↔ ¬ IsDoubled name ∧ name.head? ≠ some (Text.byte '_') := by
  have hdoubled : IsDoubled (beginning ++ name) ↔ IsDoubled name ∨ name.head? = some (Text.byte '_') := by
    rw [isDoubled_append_iff]
    simp [hsingle, hlast]
  constructor
  · intro hlegal
    exact not_or.mp (mt hdoubled.mpr hlegal.separated)
  · intro hname
    refine legal_of_start (mt hdoubled.mp (not_or.mpr hname)) (.inl ?_)
    have hfirst : Text.ofString "_" <+: ownMark := by decide
    exact hfirst.trans (hown.trans (List.prefix_append _ _))

/-- Are two identifiers escaped alike? They differ in underscores alone, or one of them looks like what the other one
is escaped to. -/
def Alike (a b : Text) : Prop := stem a = stem b ∨ stem a = escape b ∨ stem b = escape a

theorem escape_eq_escape_iff {a b : Text} : escape a = escape b ↔ Alike a b := by
  have hkept {a b : Text} (h : stem a = escape b) : escape a = escape b := by
    rw [escape_eq_protect a, h, protect_of_legal (legal_escape b) (not_own_escape b)]
  constructor
  · intro h
    rcases tail_protect (stem a) with hsame | ⟨x, hmarked⟩
    · rw [← escape_eq_protect, h] at hsame
      exact .inr (.inl hsame.symm)
    rcases tail_protect (stem b) with hsame | ⟨y, hmarked'⟩
    · rw [← escape_eq_protect, ← h] at hsame
      exact .inr (.inr hsame.symm)
    rw [escape_eq_protect, escape_eq_protect, hmarked, hmarked'] at h
    exact .inl (List.cons.inj h).2
  · rintro (h | h | h)
    · rw [escape_eq_protect, escape_eq_protect, h]
    · exact hkept h
    · exact (hkept h).symm

example : Alike "a__b" "a_0b" := .inl (by decide)

/-- An identifier that begins with another character than an underscore and has no two of them in a row. -/
structure Plain (identifier : Text) : Prop where
  separated : ¬ IsDoubled identifier
  start : ∃ b, identifier.head? = some b ∧ b ≠ Text.byte '_'

theorem Plain.stem_eq {identifier : Text} (h : Plain identifier) : stem identifier = identifier := by
  obtain ⟨b, hb, -⟩ := h.start
  obtain ⟨rest, rfl⟩ := List.head?_eq_some_iff.mp hb
  exact separateUnderscores_of_not_isDoubled h.separated

/-- Plain identifiers are alike only if they are the same. -/
theorem Plain.eq_of_alike {a b : Text} (ha : Plain a) (hb : Plain b) (h : Alike a b) : a = b := by
  have hkept {a b : Text} (ha : Plain a) (hb : Plain b) (h : stem a = escape b) : a = b := by
    rw [ha.stem_eq, escape_eq_protect, hb.stem_eq] at h
    rcases protect_cases b with hsame | hmarked | ⟨hown, -⟩
    · rw [h, hsame]
    · obtain ⟨x, hx, hne⟩ := ha.start
      rw [h, hmarked] at hx
      exact absurd (Option.some.inj hx).symm hne
    · obtain ⟨y, hy, hne⟩ := hb.start
      obtain ⟨rest, rfl⟩ := hown
      exact absurd (Option.some.inj hy).symm hne
  rcases h with h | h | h
  · rwa [ha.stem_eq, hb.stem_eq] at h
  · exact hkept ha hb h
  · exact (hkept hb ha h).symm

end

end Shading.Glsl
