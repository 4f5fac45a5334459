import Mathlib.Data.Set.Function
import Shading.Proofs.Literal
import Shading.Proofs.Wire.RoundTrip

/-! Values that are written alike, type and text, are the same, as long as that is so for the floats that they
hold. -/
namespace Shading

namespace Decimal

/-- Numerals hold digits, points, marks of exponents and signs only. -/
theorem IsNumeral.not_mem {t : Text} {b : UInt8} (h : IsNumeral t) (hdigit : isDigit b = false)
    (hb : b ∉ ([46, 101, 43, 45] : Text)) : b ∉ t := by
  have hno : ∀ {ds : Text}, (∀ c ∈ ds, isDigit c) → b ∉ ds := fun hds hmem => by
    rw [hds b hmem] at hdigit
    cases hdigit
  obtain ⟨c, ds, f, x, rfl, hc, hds, hf, hx⟩ := h
  simp only [List.mem_cons, List.not_mem_nil, not_or, or_false] at hb
  have hfirst : b ≠ c := fun h => by
    rw [← h, hdigit] at hc
    cases hc
  have hfraction : b ∉ f := by
    rcases hf with rfl | ⟨fs, rfl, -, hfs⟩
    · exact List.not_mem_nil
    · simp [hb.1, hno hfs]
  have hscale : b ∉ x := by
    rcases hx with rfl | ⟨sign, xs, rfl, hsign, -, hxs⟩
    · exact List.not_mem_nil
    · have hne : b ≠ sign := by
        rcases hsign with rfl | rfl
        · exact hb.2.2.1
        · exact hb.2.2.2
      simp [hb.2.1, hne, hno hxs]
  simp [hfirst, hno hds, hfraction, hscale]

theorem getLast_ofScaled (c : Nat) (e : Int) : ∀ k ∈ (ofScaled c e).digits.getLast?, k ≠ 0 := by
  intro k hk hzero
  rw [ofScaled, dropTrailingZeros, List.getLast?_reverse] at hk
  have hkept := List.head?_dropWhile_not (· == 0) (digitsOf c).reverse
  rw [hk, hzero] at hkept
  cases hkept

theorem getLast_search (i : Shortest.Interval) (magnitude : Int) (tries digits : Nat) :
    ∀ k ∈ (i.search magnitude tries digits).digits.getLast?, k ≠ 0 := by
  induction tries generalizing digits with
  | zero => exact getLast_ofScaled _ _
  | succ tries ih =>
    rw [Shortest.Interval.search]
    split
    · exact getLast_ofScaled _ _
    · exact ih _

/-- A text whose digits end with another one than zero has no point and zero at its end. -/
theorem append_digitText_ne {a t : Text} {ds : List Nat} (hds : ∀ d ∈ ds, d ≤ 9) (hne : ds ≠ [])
    (hlast : ∀ k ∈ ds.getLast?, k ≠ 0) : a ++ digitText ds ≠ t ++ ".0" := by
  intro h
  have hend := congrArg List.getLast? h
  have hzero : (t ++ (".0" : Text)).getLast? = some 48 := by
    rw [List.getLast?_append]
    rfl
  cases hk : ds.getLast? with
  | none => exact hne (List.getLast?_eq_none_iff.mp hk)
  | some k =>
    rw [hzero, List.getLast?_append, digitText, List.getLast?_map, hk] at hend
    have hle := hds k (List.mem_of_getLast? hk)
    have hpos := hlast k hk
    have hall : ∀ d : Fin 10, Text.byte '0' + d.val.toUInt8 = 48 → d.val = 0 := by decide
    exact hpos (hall ⟨k, by omega⟩ (Option.some.inj hend))

theorem digits_ne {ds t : Text} (hds : ∀ b ∈ ds, isDigit b) : ds ≠ t ++ ".0" := by
  intro h
  have hpoint : isDigit 46 := hds 46 (by rw [h]; exact List.mem_append_right _ (by decide))
  revert hpoint
  decide

/-- At the end of a text with two digits or more there is no point and zero. -/
theorem append_digits_ne {a ds t : Text} (hds : ∀ b ∈ ds, isDigit b) (hlength : 2 ≤ ds.length) :
    a ++ ds ≠ t ++ ".0" := by
  intro h
  have hsplit := List.append_eq_append_iff.mp h
  rcases hsplit with ⟨m, rfl, hm⟩ | ⟨m, rfl, hm⟩
  · exact digits_ne hds hm
  · have hlong := congrArg List.length hm
    have htwo : (".0" : Text).length = 2 := rfl
    rw [List.length_append, htwo] at hlong
    have hnil : m = [] := List.length_eq_zero_iff.mp (by omega)
    subst hnil
    exact digits_ne (t := []) hds hm.symm

theorem write_ne {d : Decimal} {t : Text} (n : Style) (hd : ∀ k ∈ d.digits, k ≤ 9)
    (hlast : ∀ k ∈ d.digits.getLast?, k ≠ 0) : d.write n ≠ t ++ ".0" := by
  rw [write]
  split
  · exact digits_ne (by decide)
  next hne =>
  have hne : d.digits ≠ [] := by simpa using hne
  split
  · rw [positional]
    split
    · exact append_digitText_ne hd hne hlast
    simp only
    split
    · exact digits_ne (List.forall_mem_append.mpr
        ⟨isDigit_of_mem_digitText fun k hk => hd k (List.mem_of_mem_take hk), isDigit_of_mem_zeros⟩)
    next hback =>
    have hback : d.digits.drop d.point.toNat ≠ [] := by simpa using hback
    refine append_digitText_ne (fun k hk => hd k (List.mem_of_mem_drop hk)) hback fun k hk => hlast k ?_
    rw [List.getLast?_drop] at hk
    split at hk
    · cases hk
    · exact hk
  · have hsize : ∀ b ∈ Text.ofNat (d.point - 1).natAbs, isDigit b := Text.isDigit_of_mem_ofNat
    have hpos := List.length_pos_iff.mpr (Text.ofNat_ne_nil (d.point - 1).natAbs)
    have hone : ("0" : Text).length = 1 := rfl
    have hpadded : ∀ padding : Text,
        padding = (if (Text.ofNat (d.point - 1).natAbs).length < 2 then Text.ofString "0" else []) →
        (∀ b ∈ padding ++ Text.ofNat (d.point - 1).natAbs, isDigit b) ∧
          2 ≤ (padding ++ Text.ofNat (d.point - 1).natAbs).length := by
      rintro padding rfl
      rw [List.length_append]
      split
      · exact ⟨List.forall_mem_append.mpr ⟨by decide, hsize⟩, by omega⟩
      · exact ⟨hsize, by omega⟩
    obtain ⟨hdigits, hlength⟩ := hpadded _ rfl
    rw [scientific, List.append_assoc]
    exact append_digits_ne hdigits hlength

end Decimal

namespace FloatFormat

variable (F : FloatFormat) (bits : Nat)

theorem not_mem_write {b : UInt8} (hdigit : Decimal.isDigit b = false)
    (hb : b ∉ ([46, 101, 43, 45] : Text)) (hspecial : b ∉ ("NaN+Inf" : Text)) : b ∉ F.write bits := by
  have hno : ∀ t : Text, t ⊆ "NaN+Inf-" → b ≠ 45 → b ∉ t := by
    intro t ht hne hmem
    rcases List.mem_append.mp (show b ∈ ("NaN+Inf" : Text) ++ [45] from ht hmem) with h | h
    · exact hspecial h
    · exact hne (List.mem_singleton.mp h)
  have hminus : b ≠ 45 := by
    rintro rfl
    exact hb (by decide)
  rw [write]
  split
  · exact hno _ (by decide) hminus
  · split <;> exact hno _ (by decide) hminus
  · next negative m q _ =>
    refine List.mem_append.not.mpr (not_or.mpr ⟨?_, ?_⟩)
    · split
      · exact hno _ (by decide) hminus
      · exact List.not_mem_nil
    · split
      · intro h
        rw [List.mem_singleton.mp h] at hdigit
        cases hdigit
      · exact (Decimal.isNumeral_write _ (Decimal.digits_search _ _ _ _)).not_mem hdigit hb

/-- A number is not written with a point and zero at the end. -/
theorem write_ne (t : Text) : F.write bits ≠ t ++ ".0" := by
  have hlast : (t ++ (".0" : Text)).getLast? = some 48 := by
    rw [List.getLast?_append]
    rfl
  have hspecial : ∀ w : Text, w.getLast? ≠ some 48 → w ≠ t ++ ".0" := by
    rintro w hw rfl
    exact hw hlast
  rw [write]
  split
  · exact hspecial _ (by decide)
  · split <;> exact hspecial _ (by decide)
  · next negative m q _ =>
    have hmagnitude (t : Text) : (if m = 0 then Text.ofString "0"
        else Decimal.write Decimal.general (Decimal.Shortest.shortest F m q)) ≠ t ++ ".0" := by
      split
      · exact Decimal.digits_ne (by decide)
      · exact Decimal.write_ne _ (Decimal.digits_search _ _ _ _) (Decimal.getLast_search _ _ _ _)
    dsimp only
    split
    · intro h
      cases t with
      | nil => cases (List.cons.inj h).1
      | cons b t => exact hmagnitude t (List.cons.inj h).2
    · exact hmagnitude t

theorem pointed_write_inj {F : FloatFormat} {a b : Nat}
    (h : Value.pointed (F.write a) = Value.pointed (F.write b)) : F.write a = F.write b := by
  rw [Value.pointed, Value.pointed] at h
  split at h
  · split at h
    · exact h
    · exact absurd h (F.write_ne a _)
  · split at h
    · exact absurd h.symm (F.write_ne b _)
    · exact List.append_cancel_right h

theorem not_mem_pointed_write {b : UInt8} (hdigit : Decimal.isDigit b = false)
    (hb : b ∉ ([46, 101, 43, 45] : Text)) (hspecial : b ∉ ("NaN+Inf" : Text)) :
    b ∉ Value.pointed (F.write bits) := by
  have hwrite := F.not_mem_write bits hdigit hb hspecial
  rw [Value.pointed]
  split
  · exact hwrite
  · intro hmem
    rcases List.mem_append.mp hmem with hmem | hmem
    · exact hwrite hmem
    · rcases List.mem_cons.mp (show b ∈ ([46, 48] : Text) from hmem) with rfl | hmem
      · exact hb (by decide)
      · rw [List.mem_singleton.mp hmem] at hdigit
        cases hdigit

end FloatFormat

namespace Value

/-- A scalar of a type; if it is a float, it is one of some numbers. -/
inductive IsScalar (S : Set Single) (D : Set Double) : Primitive → Value → Prop
  | bool (b : Bool) : IsScalar S D .bool (.bool b)
  | i32 (n : Int32) : IsScalar S D .i32 (.i32 n)
  | u32 (n : UInt32) : IsScalar S D .u32 (.u32 n)
  | f32 {x : Single} : x ∈ S → IsScalar S D .f32 (.f32 x)
  | f64 {x : Double} : x ∈ D → IsScalar S D .f64 (.f64 x)

/-- What stands behind a part of a text: nothing, a comma or a closing parenthesis. -/
def Delimited (s : Text) : Prop := ∀ b ∈ s.head?, b = 44 ∨ b = 41

/-- Neither a comma nor a closing parenthesis. -/
def isInner (b : UInt8) : Bool := b ≠ 44 && b ≠ 41

theorem Delimited.not_isInner {s : Text} (h : Delimited s) : ∀ b ∈ s.head?, isInner b = false := by
  intro b hb
  rcases h b hb with rfl | rfl <;> rfl

theorem delimited_comma (s : Text) : Delimited (", " ++ s) := by
  intro b hb
  cases hb
  exact .inl rfl

theorem delimited_close (s : Text) : Delimited (")" ++ s) := by
  intro b hb
  cases hb
  exact .inr rfl

/-- A text without delimiters ends at the first one. -/
theorem append_inj_of_isInner {a a' s s' : Text} (ha : ∀ b ∈ a, isInner b) (ha' : ∀ b ∈ a', isInner b)
    (hs : Delimited s) (hs' : Delimited s') (h : a ++ s = a' ++ s') : a = a' ∧ s = s' :=
  Text.append_eq_append_of_kind isInner ha ha' hs.not_isInner hs'.not_isInner h

theorem isInner_of_isDigit : ∀ b, Decimal.isDigit b → isInner b := Decimal.forall_isDigit (by decide)

theorem isInner_ofInt (n : Int) : ∀ b ∈ Text.ofInt n, isInner b := by
  cases n with
  | ofNat n => exact fun b hb => isInner_of_isDigit b (Text.isDigit_of_mem_ofNat b hb)
  | negSucc n =>
    exact List.forall_mem_cons.mpr
      ⟨by decide, fun b hb => isInner_of_isDigit b (Text.isDigit_of_mem_ofNat b hb)⟩

theorem ofInt_inj {m n : Int} (h : Text.ofInt m = Text.ofInt n) : m = n := by
  have hno (k : Nat) (t : Text) : Text.ofNat k ≠ Text.byte '-' :: t := by
    intro h
    have hdigit := Text.isDigit_of_mem_ofNat (n := k) (Text.byte '-') (by rw [h]; exact List.mem_cons_self)
    revert hdigit
    decide
  cases m with
  | ofNat m =>
    cases n with
    | ofNat n => rw [Text.ofNat_inj h]
    | negSucc n => exact absurd h (hno _ _)
  | negSucc m =>
    cases n with
    | ofNat n => exact absurd h.symm (hno _ _)
    | negSucc n =>
      have hsucc := Text.ofNat_inj (List.cons.inj h).2
      rw [Nat.succ.inj hsucc]

theorem isInner_pointed_write (F : FloatFormat) (bits : Nat) :
    ∀ b ∈ pointed (F.write bits), isInner b := by
  intro b hb
  rw [isInner, Bool.and_eq_true, decide_eq_true_eq, decide_eq_true_eq]
  constructor
  · rintro rfl
    exact F.not_mem_pointed_write bits (by decide) (by decide) (by decide) hb
  · rintro rfl
    exact F.not_mem_pointed_write bits (by decide) (by decide) (by decide) hb

variable {S : Set Single} {D : Set Double} {p : Primitive}

/-- A scalar is told from others of its type by the text up to a delimiter. -/
theorem IsScalar.append_inj (hS : S.InjOn Single.text) (hD : D.InjOn Double.text) {v w : Value} {s s' : Text}
    (hv : IsScalar S D p v) (hw : IsScalar S D p w) (hs : Delimited s) (hs' : Delimited s')
    (h : v.text ++ s = w.text ++ s') : v = w ∧ s = s' := by
  cases hv with
  | bool b =>
    cases hw with
    | bool c =>
      obtain ⟨htext, hrest⟩ := append_inj_of_isInner (by cases b <;> decide) (by cases c <;> decide) hs hs' h
      refine ⟨?_, hrest⟩
      cases b <;> cases c <;> first | rfl | cases (List.cons.inj htext).1
  | i32 m =>
    cases hw with
    | i32 n =>
      obtain ⟨htext, hrest⟩ := append_inj_of_isInner (isInner_ofInt _) (isInner_ofInt _) hs hs' h
      exact ⟨by rw [Int32.toInt_inj.mp (ofInt_inj htext)], hrest⟩
  | u32 m =>
    cases hw with
    | u32 n =>
      have hinner (k : UInt32) : ∀ b ∈ (Value.u32 k).text, isInner b :=
        List.forall_mem_append.mpr
          ⟨fun b hb => isInner_of_isDigit b (Text.isDigit_of_mem_ofNat b hb), by decide⟩
      obtain ⟨htext, hrest⟩ := append_inj_of_isInner (hinner m) (hinner n) hs hs' h
      exact ⟨by rw [UInt32.toNat_inj.mp (Text.ofNat_inj (List.append_cancel_right htext))], hrest⟩
  | @f32 x hx =>
    cases hw with
    | @f32 y hy =>
      obtain ⟨htext, hrest⟩ := append_inj_of_isInner (isInner_pointed_write _ _) (isInner_pointed_write _ _)
        hs hs' h
      exact ⟨by rw [hS hx hy (FloatFormat.pointed_write_inj htext)], hrest⟩
  | @f64 x hx =>
    cases hw with
    | @f64 y hy =>
      have hinner : pointed x.text ++ ((")" : Text) ++ s) = pointed y.text ++ ((")" : Text) ++ s') := by
        simp only [Value.text, List.append_assoc] at h
        exact List.append_cancel_left h
      obtain ⟨htext, hrest⟩ := append_inj_of_isInner (isInner_pointed_write _ _) (isInner_pointed_write _ _)
        (delimited_close s) (delimited_close s') hinner
      exact ⟨by rw [hD hx hy (FloatFormat.pointed_write_inj htext)], List.append_cancel_left hrest⟩

/-- Parts that are told apart up to a delimiter are told apart in a list too. -/
theorem join_append_inj {α : Type} {f : α → Text} {P : α → Prop}
    (hf : ∀ a a' s s', P a → P a' → Delimited s → Delimited s' → f a ++ s = f a' ++ s' → a = a' ∧ s = s')
    {as bs : List α} (hlength : as.length = bs.length) (has : ∀ a ∈ as, P a) (hbs : ∀ b ∈ bs, P b) {s s' : Text}
    (hs : Delimited s) (hs' : Delimited s')
    (h : Text.join ", " (as.map f) ++ s = Text.join ", " (bs.map f) ++ s') : as = bs ∧ s = s' := by
  induction as generalizing bs with
  | nil =>
    have hnil : bs = [] := List.length_eq_zero_iff.mp hlength.symm
    subst hnil
    exact ⟨rfl, h⟩
  | cons a as ih =>
    cases bs with
    | nil => cases hlength
    | cons b bs =>
      have htail : as.length = bs.length := Nat.succ.inj hlength
      rw [List.forall_mem_cons] at has hbs
      cases as with
      | nil =>
        have hnil : bs = [] := List.length_eq_zero_iff.mp htail.symm
        subst hnil
        obtain ⟨rfl, hrest⟩ := hf a b s s' has.1 hbs.1 hs hs' h
        exact ⟨rfl, hrest⟩
      | cons c as =>
        cases bs with
        | nil => cases htail
        | cons d bs =>
          simp only [List.map_cons, Text.join, List.append_assoc] at h
          obtain ⟨rfl, hrest⟩ := hf a b _ _ has.1 hbs.1 (delimited_comma _) (delimited_comma _) h
          obtain ⟨hsame, hend⟩ := ih htail has.2 hbs.2 (List.append_cancel_left hrest)
          exact ⟨by rw [hsame], hend⟩

theorem texts_eq_map (vs : List Value) : texts vs = vs.map text := by
  induction vs with
  | nil => rfl
  | cons v vs ih => rw [texts, ih, List.map_cons]

theorem columnTexts_eq_map (cs : List (List Value)) : columnTexts cs = cs.map fun c => text (.vector c) := by
  induction cs with
  | nil => rfl
  | cons c cs ih => rw [columnTexts, ih, List.map_cons, text]

theorem IsScalar.type {v : Value} (h : IsScalar S D p v) : v.type = .prim p := by
  cases h <;> rfl

theorem componentType_eq {cs : List Value} (hne : cs ≠ []) (h : ∀ c ∈ cs, IsScalar S D p c) :
    componentType (types cs) = p := by
  cases cs with
  | nil => exact absurd rfl hne
  | cons c cs =>
    rw [types, (h c List.mem_cons_self).type]
    rfl

/-- A vector is told from others of its size and type by its text, whatever follows. -/
theorem vector_append_inj (hS : S.InjOn Single.text) (hD : D.InjOn Double.text) {cs cs' : List Value}
    (hlength : cs.length = cs'.length) (hcs : ∀ c ∈ cs, IsScalar S D p c) (hcs' : ∀ c ∈ cs', IsScalar S D p c)
    {s s' : Text} (h : text (.vector cs) ++ s = text (.vector cs') ++ s') : cs = cs' ∧ s = s' := by
  have htype : Value.type (.vector cs) = Value.type (.vector cs') := by
    cases cs with
    | nil => rw [List.length_eq_zero_iff.mp hlength.symm]
    | cons c cs =>
      have hne : cs' ≠ [] := List.ne_nil_of_length_eq_add_one hlength.symm
      rw [Value.type, Value.type, componentType_eq (List.cons_ne_nil _ _) hcs, componentType_eq hne hcs', hlength]
  simp only [text, htype, texts_eq_map, List.append_assoc] at h
  obtain ⟨hsame, hrest⟩ := join_append_inj (fun _ _ _ _ ha hb hs hs' h => ha.append_inj hS hD hb hs hs' h)
    hlength hcs hcs' (delimited_close s) (delimited_close s')
    (List.append_cancel_left (List.append_cancel_left h))
  exact ⟨hsame, List.append_cancel_left hrest⟩

end Value

/-- A type of scalars, vectors or matrices. -/
inductive Ty.IsNumeric : Ty → Prop
  | prim {p : Primitive} : p ∈ Primitive.named → IsNumeric (.prim p)
  | vector {p : Primitive} (n : UInt32) : p ∈ Primitive.named → IsNumeric (.vector n p)
  | matrix {p : Primitive} (c r : UInt32) : p ∈ Primitive.named → IsNumeric (.matrix c r p)

theorem Primitive.text_inj_of_named :
    ∀ p ∈ Primitive.named, ∀ q ∈ Primitive.named, p.text = q.text → p = q := by decide

/-- The text of a scalar type does not start as that of a vector type or a matrix type does. -/
theorem Primitive.head_text_of_named :
    ∀ p ∈ Primitive.named, p.text.head? ≠ some 118 ∧ p.text.head? ≠ some 109 := by decide

theorem Ty.bracketed_inj {p q : Primitive} (hp : p ∈ Primitive.named) (hq : q ∈ Primitive.named)
    (h : ("[" : Text) ++ (p.text ++ "]") = "[" ++ (q.text ++ "]")) : p = q :=
  Primitive.text_inj_of_named p hp q hq (List.append_cancel_right (List.append_cancel_left h))

theorem Ty.text_inj_of_isNumeric {t u : Ty} (ht : t.IsNumeric) (hu : u.IsNumeric) (h : t.text = u.text) : t = u := by
  have hdigit : Decimal.isDigit 91 = false ∧ Decimal.isDigit 120 = false := by decide
  have hbracket (s : Text) : ∀ b ∈ (("[" : Text) ++ s).head?, Decimal.isDigit b = false :=
    Text.forall_head_append rfl hdigit.1
  have hcross (s : Text) : ∀ b ∈ (("x" : Text) ++ s).head?, Decimal.isDigit b = false :=
    Text.forall_head_append rfl hdigit.2
  have hmatrix (c r : UInt32) (p : Primitive) : (Ty.matrix c r p).text.head? = some 109 := by
    rw [Ty.text]
    split <;> rfl
  cases ht with
  | @prim p hp =>
    cases hu with
    | @prim q hq => rw [Primitive.text_inj_of_named p hp q hq h]
    | vector n hq => exact absurd (congrArg List.head? h) (Primitive.head_text_of_named p hp).1
    | matrix c r hq =>
      exact absurd ((congrArg List.head? h).trans (hmatrix _ _ _)) (Primitive.head_text_of_named p hp).2
  | @vector p n hp =>
    cases hu with
    | @prim q hq => exact absurd (congrArg List.head? h).symm (Primitive.head_text_of_named q hq).1
    | @vector q m hq =>
      simp only [Ty.text, List.append_assoc] at h
      obtain ⟨rfl, hrest⟩ := Text.ofNat_word_append_inj (hbracket _) (hbracket _) (List.append_cancel_left h)
      rw [bracketed_inj hp hq hrest]
    | matrix c r hq =>
      have hhead := (congrArg List.head? h).trans (hmatrix _ _ _)
      cases hhead
  | @matrix p c r hp =>
    cases hu with
    | @prim q hq =>
      exact absurd ((congrArg List.head? h).symm.trans (hmatrix _ _ _)) (Primitive.head_text_of_named q hq).2
    | vector n hq =>
      have hhead := (congrArg List.head? h).symm.trans (hmatrix _ _ _)
      cases hhead
    | @matrix q d s hq =>
      by_cases hc : c = r <;> by_cases hd : d = s
      · simp only [Ty.text, hc, hd, if_true, List.append_assoc] at h
        obtain ⟨rfl, hrest⟩ := Text.ofNat_word_append_inj (hbracket _) (hbracket _) (List.append_cancel_left h)
        rw [hc, hd, bracketed_inj hp hq hrest]
      · simp only [Ty.text, hc, hd, if_true, if_false, List.append_assoc] at h
        obtain ⟨-, hrest⟩ := Text.ofNat_word_append_inj (hbracket _) (hcross _) (List.append_cancel_left h)
        cases (List.cons.inj hrest).1
      · simp only [Ty.text, hc, hd, if_true, if_false, List.append_assoc] at h
        obtain ⟨-, hrest⟩ := Text.ofNat_word_append_inj (hcross _) (hbracket _) (List.append_cancel_left h)
        cases (List.cons.inj hrest).1
      · simp only [Ty.text, hc, hd, if_false, List.append_assoc] at h
        obtain ⟨rfl, hrows⟩ := Text.ofNat_word_append_inj (hcross _) (hcross _) (List.append_cancel_left h)
        obtain ⟨rfl, hrest⟩ := Text.ofNat_word_append_inj (hbracket _) (hbracket _) (List.append_cancel_left hrows)
        rw [bracketed_inj hp hq hrest]

namespace Value

variable {S : Set Single} {D : Set Double}

/-- A value that an option can have: a scalar, or a vector or a matrix of scalars of one type. -/
inductive WellFormed (S : Set Single) (D : Set Double) : Value → Prop
  | scalar {p : Primitive} {v : Value} : IsScalar S D p v → WellFormed S D v
  | vector {p : Primitive} {cs : List Value} : cs.length < UInt32.size → (∀ c ∈ cs, IsScalar S D p c) →
      WellFormed S D (.vector cs)
  | matrix {p : Primitive} {n : Nat} {cols : List (List Value)} : cols.length < UInt32.size →
      n < UInt32.size → (∀ c ∈ cols, c.length = n ∧ ∀ v ∈ c, IsScalar S D p v) → WellFormed S D (.matrix cols)

theorem IsScalar.named {p : Primitive} {v : Value} (h : IsScalar S D p v) : p ∈ Primitive.named := by
  cases h <;> decide

theorem componentType_named {p : Primitive} {cs : List Value} (h : ∀ c ∈ cs, IsScalar S D p c) :
    componentType (types cs) ∈ Primitive.named := by
  cases cs with
  | nil => decide
  | cons c cs =>
    rw [componentType_eq (List.cons_ne_nil _ _) h]
    exact (h c List.mem_cons_self).named

theorem WellFormed.isNumeric {v : Value} (h : WellFormed S D v) : v.type.IsNumeric := by
  cases h with
  | scalar h =>
    rw [h.type]
    exact .prim h.named
  | vector _ h => exact .vector _ (componentType_named h)
  | @matrix p n cols _ _ h =>
    cases cols with
    | nil => exact .matrix _ _ (by decide)
    | cons c cols => exact .matrix _ _ (componentType_named (h c List.mem_cons_self).2)

theorem length_inj {α β : Type} {as : List α} {bs : List β} (has : as.length < UInt32.size)
    (hbs : bs.length < UInt32.size) (h : as.length.toUInt32 = bs.length.toUInt32) : as.length = bs.length := by
  have hnat : (UInt32.ofNat as.length).toNat = (UInt32.ofNat bs.length).toNat := congrArg UInt32.toNat h
  rwa [UInt32.toNat_ofNat_of_lt' has, UInt32.toNat_ofNat_of_lt' hbs] at hnat

/-- Lists of scalars that are equally long and whose first scalars have one type are of one type. -/
theorem isScalar_of_componentType {p q : Primitive} {cs cs' : List Value} (hcs : ∀ c ∈ cs, IsScalar S D p c)
    (hcs' : ∀ c ∈ cs', IsScalar S D q c) (hlength : cs.length = cs'.length)
    (h : componentType (types cs) = componentType (types cs')) : cs.length = 0 ∨ p = q := by
  by_cases hne : cs = []
  · exact .inl (List.length_eq_zero_iff.mpr hne)
  · have hne' : cs' ≠ [] := fun h => hne (List.length_eq_zero_iff.mp (hlength.trans (List.length_eq_zero_iff.mpr h)))
    rw [componentType_eq hne hcs, componentType_eq hne' hcs'] at h
    exact .inr h

theorem text_matrix (cols : List (List Value)) : text (.matrix cols) =
    (Value.type (.matrix cols)).text ++ ("(" ++ (Text.join ", " (cols.map fun c => text (.vector c)) ++ ")")) := by
  rw [text, columnTexts_eq_map, List.append_assoc, List.append_assoc]

theorem matrix_eq_of_text (hS : S.InjOn Single.text) (hD : D.InjOn Double.text) {p q : Primitive} {m n : Nat}
    {as bs : List (List Value)} (has : as.length < UInt32.size) (hbs : bs.length < UInt32.size)
    (hm : m < UInt32.size) (hn : n < UInt32.size)
    (hcols : ∀ c ∈ as, c.length = m ∧ ∀ v ∈ c, IsScalar S D p v)
    (hcols' : ∀ c ∈ bs, c.length = n ∧ ∀ v ∈ c, IsScalar S D q v)
    (htype : Value.type (.matrix as) = Value.type (.matrix bs)) (h : text (.matrix as) = text (.matrix bs)) :
    Value.matrix as = .matrix bs := by
  have hlength : as.length = bs.length := by
    refine length_inj has hbs ?_
    cases as <;> cases bs <;> injection htype
  rw [text_matrix, text_matrix, htype] at h
  have hcolumns := List.append_cancel_left (List.append_cancel_left h)
  cases as with
  | nil => rw [List.length_eq_zero_iff.mp hlength.symm]
  | cons a as =>
    cases bs with
    | nil => cases hlength
    | cons b bs =>
      have ha := hcols a List.mem_cons_self
      have hb := hcols' b List.mem_cons_self
      injection htype with _ hrows hcomponent
      have hrows : a.length = b.length := length_inj (ha.1 ▸ hm) (hb.1 ▸ hn) hrows
      have hsame : ∀ c ∈ b :: bs, c.length = m ∧ ∀ v ∈ c, IsScalar S D p v := by
        intro c hc
        have hsize : c.length = m := (hcols' c hc).1.trans (hb.1.symm.trans (hrows.symm.trans ha.1))
        refine ⟨hsize, ?_⟩
        rcases isScalar_of_componentType ha.2 hb.2 hrows hcomponent with hzero | rfl
        · rw [List.length_eq_zero_iff.mp (hsize.trans (ha.1.symm.trans hzero))]
          exact List.forall_mem_nil _
        · exact (hcols' c hc).2
      have hclose : Delimited ")" := delimited_close []
      rw [(join_append_inj (fun _ _ _ _ ha hb _ _ h => vector_append_inj hS hD (ha.1.trans hb.1.symm) ha.2 hb.2 h)
        hlength hcols hsame hclose hclose hcolumns).1]

/-- Values that are written alike are the same. -/
theorem WellFormed.eq_of_text (hS : S.InjOn Single.text) (hD : D.InjOn Double.text) {v w : Value}
    (hv : WellFormed S D v) (hw : WellFormed S D w) (htype : v.type.text = w.type.text) (h : v.text = w.text) :
    v = w := by
  have htype := Ty.text_inj_of_isNumeric hv.isNumeric hw.isNumeric htype
  have hend : Delimited [] := nofun
  cases hv with
  | scalar hv =>
    cases hw with
    | scalar hw =>
      rw [hv.type, hw.type] at htype
      cases htype
      rw [← List.append_nil v.text, ← List.append_nil w.text] at h
      exact (hv.append_inj hS hD hw hend hend h).1
    | vector => cases hv <;> cases htype
    | @matrix _ _ cols => cases cols <;> cases hv <;> cases htype
  | @vector p cs hsize hcs =>
    cases hw with
    | scalar hw => cases hw <;> cases htype
    | @vector q cs' hsize' hcs' =>
      injection htype with hlength hcomponent
      have hlength := length_inj hsize hsize' hlength
      have hsame : ∀ c ∈ cs', IsScalar S D p c := by
        rcases isScalar_of_componentType hcs hcs' hlength hcomponent with hzero | rfl
        · rw [List.length_eq_zero_iff.mp (hlength.symm.trans hzero)]
          exact List.forall_mem_nil _
        · exact hcs'
      rw [← List.append_nil (text _), ← List.append_nil (text (.vector cs'))] at h
      rw [(vector_append_inj hS hD hlength hcs hsame h).1]
    | @matrix _ _ cols => cases cols <;> cases htype
  | @matrix p n cols hsize hn hcols =>
    cases hw with
    | scalar hw => cases cols <;> cases hw <;> cases htype
    | vector => cases cols <;> cases htype
    | @matrix q m cols' hsize' hm hcols' =>
      exact matrix_eq_of_text hS hD hsize hsize' hn hm hcols hcols' htype h

end Value

end Shading
