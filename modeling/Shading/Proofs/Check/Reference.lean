import Shading.Check.Expression
import Shading.Proofs.Check.Scopes

/-! What names and types lead to. -/
namespace Shading

/-- The sizes that a type constructor sets are those of vectors and matrices. -/
def TypeConstructor.Sized : TypeConstructor → Prop
  | .vector n => Ty.IsSize n
  | .matrix c r => Ty.IsSize c ∧ Ty.IsSize r
  | _ => True

namespace TypeConstructor

theorem size_isSize {t : Text} {n : UInt32} (h : size? t = some n) : Ty.IsSize n := by
  unfold size? at h
  split at h
  · rename_i b
    split at h
    · rename_i hb
      cases h
      have hlow : (Text.byte '2').toNat = 50 := rfl
      have hhigh : (Text.byte '4').toNat = 52 := rfl
      have hzero : (Text.byte '0').toNat = 48 := rfl
      have h1 := UInt8.le_iff_toNat_le.mp hb.1
      have h2 := UInt8.le_iff_toNat_le.mp hb.2
      have hsub : (b - Text.byte '0').toNat = b.toNat - 48 := by
        rw [UInt8.toNat_sub_of_le _ _ (UInt8.le_iff_toNat_le.mpr (by omega)), hzero]
      have htwo : (2 : UInt32).toNat = 2 := rfl
      have hfour : (4 : UInt32).toNat = 4 := rfl
      constructor <;> rw [UInt32.le_iff_toNat_le, UInt8.toNat_toUInt32] <;> omega
    · cases h
  · cases h

theorem sized_of_matrix {sizes : Text} {c : TypeConstructor} (h : matrix? sizes = some c) : c.Sized := by
  unfold matrix? at h
  split at h
  · split at h
    · simp only [Option.bind_eq_bind, Option.bind_eq_some_iff, Option.pure_def, Option.some.injEq] at h
      obtain ⟨n, hn, m, hm, rfl⟩ := h
      exact ⟨size_isSize hn, size_isSize hm⟩
    · cases h
  · simp only [Option.bind_eq_bind, Option.bind_eq_some_iff, Option.pure_def, Option.some.injEq] at h
    obtain ⟨n, hn, rfl⟩ := h
    exact ⟨size_isSize hn, size_isSize hn⟩

theorem sized_of_name {name : Text} {c : TypeConstructor} (h : ofName? name = some c) : c.Sized := by
  unfold ofName? at h
  split at h
  · obtain ⟨n, hn, rfl⟩ := Option.map_eq_some_iff.mp h
    exact size_isSize hn
  · exact sized_of_matrix h
  · have hmem : (name, c) ∈ others := Check.mem_of_lookup h
    simp only [others, List.mem_cons, Prod.mk.injEq, List.not_mem_nil, or_false] at hmem
    rcases hmem with ⟨-, rfl⟩ | ⟨-, rfl⟩ | ⟨-, rfl⟩ | ⟨-, rfl⟩ | ⟨-, rfl⟩ | ⟨-, rfl⟩ | ⟨-, rfl⟩ | ⟨-, rfl⟩ |
      ⟨-, rfl⟩ | ⟨-, rfl⟩ <;> trivial

end TypeConstructor

theorem Primitive.mem_named_of_name {name : Text} {p : Primitive} (h : ofName? name = some p) : p ∈ named :=
  List.mem_of_find?_eq_some h

theorem Expr.checked_ofType {p : Place} {t : Ty} (span : Span) (ht : Check.Known p.context t) :
    (Expr.ofType span t).Checked p :=
  .mk ⟨ht.1, ⟨rfl, ht.declared⟩, fun _ => ht.2⟩ fun c hc => (by cases hc)

namespace Check

variable {site : Site} {σ σ' : State} {P : Place → Prop} {p : Place}

theorem Sees.structure_known (hsees : Sees site p σ) {id : Int} (h : LeadsToStruct σ.session p.context id)
    {x : Structure} (hx : σ.session.structs.lookup id = some x) : Known p.context (.struct x.record) := by
  obtain ⟨y, hy, hmem, -⟩ := h
  cases hx.symm.trans hy
  refine ⟨hsees.proper _ hmem, fun r hr => ?_⟩
  cases hr
  exact hmem

theorem structType_ok {span : Span} {id : Int} {t : Ty} (h : structType span id site σ = .ok (t, σ')) :
    σ' = σ ∧ ∃ x, σ.session.structs.lookup id = some x ∧ t = .struct x.record := by
  obtain ⟨s, σ₁, hs, h⟩ := bind_ok.mp h
  obtain ⟨rfl, rfl⟩ := getSession_ok.mp hs
  cases hx : σ₁.session.structs.lookup id with
  | none => simp [hx] at h
  | some x =>
    simp only [hx, pure_ok] at h
    exact ⟨h.2, x, rfl, h.1⟩

/-- Does a reference lead to a declaration? -/
def Refers (s : Session) (Γ : List Referent) : Expr → Prop
  | .literal _ v => v.type.Proper ∧ v.HasType v.type
  | .var _ id => LeadsToVariable s Γ id
  | .const _ id => LeadsToConstant s Γ id
  | e => LeadsToTarget s Γ e

/-- A reference gets the type of what it leads to. -/
theorem reference_ok {e e' : Expr} (h : reference e site σ = .ok (e', σ')) :
    σ' = σ ∧ ∀ p, Sees site p σ → Refers σ.session p.context e → e'.Checked p := by
  cases e with
  | literal i v =>
    obtain ⟨rfl, rfl⟩ := pure_ok.mp h
    exact ⟨rfl, fun p _ hv => .mk ⟨hv.1, hv.2, trivial⟩ fun c hc => (by cases hc)⟩
  | var i id =>
    obtain ⟨s, σ₁, hs, h⟩ := bind_ok.mp h
    obtain ⟨rfl, rfl⟩ := getSession_ok.mp hs
    cases hv : σ₁.session.vars.lookup id with
    | none => simp [hv] at h
    | some v =>
      simp only [hv, pure_ok] at h
      obtain ⟨rfl, rfl⟩ := h
      refine ⟨rfl, fun p hsees ⟨w, hw, hmem⟩ => ?_⟩
      cases hv.symm.trans hw
      exact .mk ⟨hsees.proper _ hmem, hmem, trivial⟩ fun c hc => (by cases hc)
  | const i id =>
    obtain ⟨s, σ₁, hs, h⟩ := bind_ok.mp h
    obtain ⟨rfl, rfl⟩ := getSession_ok.mp hs
    cases hc : σ₁.session.constants.lookup id with
    | none => simp [hc] at h
    | some c =>
      simp only [hc, pure_ok] at h
      obtain ⟨rfl, rfl⟩ := h
      refine ⟨rfl, fun p hsees ⟨d, hd, hmem⟩ => ?_⟩
      cases hc.symm.trans hd
      exact .mk ⟨(hsees.proper _ hmem).1, ⟨_, hmem⟩, trivial⟩ fun c hc => (by cases hc)
  | function i id =>
    obtain ⟨s, σ₁, hs, h⟩ := bind_ok.mp h
    obtain ⟨rfl, rfl⟩ := getSession_ok.mp hs
    cases hf : σ₁.session.functions.lookup id with
    | none => simp [hf] at h
    | some f =>
      simp only [hf, pure_ok] at h
      obtain ⟨rfl, rfl⟩ := h
      refine ⟨rfl, fun p hsees ⟨g, hg, hmem, hid⟩ => ?_⟩
      cases hf.symm.trans hg
      exact .mk ⟨hsees.proper _ hmem, ⟨f, hmem, hid, rfl⟩, trivial⟩ fun c hc => (by cases hc)
  | structRef i id =>
    obtain ⟨t, σ₁, ht, h⟩ := bind_ok.mp h
    obtain ⟨rfl, x, hx, rfl⟩ := structType_ok ht
    obtain ⟨rfl, rfl⟩ := pure_ok.mp h
    refine ⟨rfl, fun p hsees ⟨y, hy, hmem, hid⟩ => ?_⟩
    cases hx.symm.trans hy
    exact .mk ⟨hsees.proper _ hmem, ⟨_, hmem, hid, rfl⟩, trivial⟩ fun c hc => (by cases hc)
  | typeRef i t =>
    obtain ⟨rfl, rfl⟩ := pure_ok.mp h
    exact ⟨rfl, fun p _ hknown => .mk ⟨hknown.1, ⟨rfl, hknown.declared⟩, fun _ => hknown.2⟩ fun c hc => (by cases hc)⟩
  | intrinsicRef i f =>
    obtain ⟨rfl, rfl⟩ := pure_ok.mp h
    exact ⟨rfl, fun p _ _ => .mk ⟨trivial, rfl, trivial⟩ fun c hc => (by cases hc)⟩
  | _ =>
    obtain ⟨-, rfl⟩ := pure_ok.mp h
    exact ⟨rfl, fun p _ hfalse => hfalse.elim⟩

theorem refers_of_target {s : Session} {Γ : List Referent} {e : Expr} (h : LeadsToTarget s Γ e) : Refers s Γ e := by
  cases e with
  | function | structRef | typeRef | intrinsicRef => exact h
  | _ => exact h.elim

theorem delivers_named (i : ExprInfo) (n : Text) : Delivers P (named i n) fun p e => e.Checked p := by
  refine .of_reads lasting_checked fun {site σ e σ'} h => ?_
  unfold named at h
  obtain ⟨b, σ₁, hb, h⟩ := bind_ok.mp h
  obtain ⟨rfl, rfl⟩ := lookup_ok.mp hb
  cases hb : σ₁.draft.scopes.lookup? n with
  | some b =>
    simp only [hb] at h
    cases b with
    | unresolved =>
      obtain ⟨rfl, rfl⟩ := pure_ok.mp h
      exact ⟨rfl, fun p hsees _ => (hsees.lookup hb).elim⟩
    | «alias» id target =>
      obtain ⟨rfl, hchecked⟩ := reference_ok h
      exact ⟨rfl, fun p hsees _ => hchecked p hsees (refers_of_target (hsees.lookup hb))⟩
    | _ =>
      obtain ⟨rfl, hchecked⟩ := reference_ok h
      exact ⟨rfl, fun p hsees _ => hchecked p hsees (hsees.lookup hb)⟩
  | none =>
    simp only [hb] at h
    cases hprim : Primitive.ofName? n with
    | some q =>
      simp only [hprim, pure_ok] at h
      obtain ⟨rfl, rfl⟩ := h
      exact ⟨rfl, fun p _ _ => Expr.checked_ofType _ ⟨Primitive.mem_named_of_name hprim, fun r hr => (by cases hr)⟩⟩
    | none =>
      cases hintrinsic : Intrinsic.ofName? n with
      | some f =>
        simp only [hprim, hintrinsic, pure_ok] at h
        obtain ⟨rfl, rfl⟩ := h
        exact ⟨rfl, fun p _ _ => .mk ⟨trivial, rfl, trivial⟩ fun c hc => (by cases hc)⟩
      | none =>
        simp only [hprim, hintrinsic] at h
        obtain ⟨d, σ₂, hd, h⟩ := bind_ok.mp h
        obtain ⟨rfl, rfl⟩ := getDraft_ok.mp hd
        cases hwild : σ₂.draft.wildcard with
        | true =>
          simp only [hwild, if_true, pure_ok] at h
          refine ⟨h.2, fun p hsees _ => ?_⟩
          rw [hsees.wildcard] at hwild
          cases hwild
        | false => simp [hwild] at h

theorem delivers_namedType (span : Span) (name : Text) (hops : Nat) :
    Delivers P (namedType? span name hops) fun p r => ∀ t, r = some t → Known p.context t := by
  refine .of_reads lasting_known_option fun {site σ r σ'} h => ?_
  induction hops generalizing span name with
  | zero =>
    obtain ⟨rfl, rfl⟩ := pure_ok.mp h
    exact ⟨rfl, fun p _ _ t ht => (by cases ht)⟩
  | succ hops ih =>
    unfold namedType? at h
    obtain ⟨b, σ₁, hb, h⟩ := bind_ok.mp h
    obtain ⟨rfl, rfl⟩ := lookup_ok.mp hb
    have structure_of {span' : Span} {id : Int}
        (h : (do return some (← structType span' id) : Check (Option Ty)) site σ₁ = .ok (r, σ'))
        (hleads : ∀ p, Sees site p σ₁ → LeadsToStruct σ₁.session p.context id) :
        σ' = σ₁ ∧ ∀ p, Sees site p σ₁ → P p → ∀ t, r = some t → Known p.context t := by
      obtain ⟨u, σ₂, hu, h⟩ := bind_ok.mp h
      obtain ⟨rfl, x, hx, rfl⟩ := structType_ok hu
      obtain ⟨rfl, rfl⟩ := pure_ok.mp h
      refine ⟨rfl, fun p hsees _ t ht => ?_⟩
      cases ht
      exact hsees.structure_known (hleads p hsees) hx
    have nothing (h : (pure none : Check (Option Ty)) site σ₁ = .ok (r, σ')) :
        σ' = σ₁ ∧ ∀ p, Sees site p σ₁ → P p → ∀ t, r = some t → Known p.context t := by
      obtain ⟨rfl, rfl⟩ := pure_ok.mp h
      exact ⟨rfl, fun p _ _ t ht => (by cases ht)⟩
    cases hb : σ₁.draft.scopes.lookup? name with
    | some b =>
      simp only [hb] at h
      cases b with
      | struct id => exact structure_of h fun p hsees => hsees.lookup hb
      | «alias» id target =>
        cases target with
        | typeRef i u =>
          obtain ⟨rfl, rfl⟩ := pure_ok.mp h
          refine ⟨rfl, fun p hsees _ t ht => ?_⟩
          cases ht
          exact hsees.lookup hb
        | structRef i id => exact structure_of h fun p hsees => hsees.lookup hb
        | name i n => exact ih i.span n h
        | _ => exact nothing h
      | _ => exact nothing h
    | none =>
      simp only [hb] at h
      cases hprim : Primitive.ofName? name with
      | some q =>
        simp only [hprim, pure_ok] at h
        obtain ⟨rfl, rfl⟩ := h
        refine ⟨rfl, fun p _ _ t ht => ?_⟩
        cases ht
        exact ⟨Primitive.mem_named_of_name hprim, fun r hr => (by cases hr)⟩
      | none =>
        simp only [hprim, reject_bind] at h
        split at h
        · exact (reject_ok.mp h).elim
        · exact nothing h

theorem delivers_constructor (name : Text) : Delivers P (constructor? name) fun _ r => ∀ c, r = some c → c.Sized := by
  unfold constructor?
  split
  · exact .pure fun _ _ c hc => (by cases hc)
  · rename_i c hc
    refine .of_reads (fun _ h => h) fun {site σ r σ'} h => ?_
    obtain ⟨b, σ₁, hb, hrest⟩ := bind_ok.mp h
    obtain ⟨-, rfl⟩ := lookup_ok.mp hb
    split at hrest
    · obtain ⟨rfl, rfl⟩ := pure_ok.mp hrest
      exact ⟨rfl, fun _ _ _ c hc => (by cases hc)⟩
    · obtain ⟨rfl, rfl⟩ := pure_ok.mp hrest
      refine ⟨rfl, fun _ _ _ d hd => ?_⟩
      cases hd
      exact TypeConstructor.sized_of_name hc

/-- No name in scope is that of a missing module. -/
theorem delivers_isUnresolved (e : Expr) : Delivers P (isUnresolved e) fun _ r => r = false := by
  refine .of_reads (fun _ h => h) fun {site σ r σ'} h => ?_
  cases e with
  | name i n =>
    obtain ⟨b, σ₁, hb, h⟩ := bind_ok.mp h
    obtain ⟨rfl, rfl⟩ := lookup_ok.mp hb
    cases hb : σ₁.draft.scopes.lookup? n with
    | some b =>
      simp only [hb] at h
      cases b with
      | unresolved =>
        obtain ⟨rfl, rfl⟩ := pure_ok.mp h
        exact ⟨rfl, fun p hsees _ => (hsees.lookup hb).elim⟩
      | _ =>
        obtain ⟨rfl, rfl⟩ := pure_ok.mp h
        exact ⟨rfl, fun _ _ _ => rfl⟩
    | none =>
      simp only [hb] at h
      obtain ⟨d, σ₂, hd, h⟩ := bind_ok.mp h
      obtain ⟨rfl, rfl⟩ := getDraft_ok.mp hd
      obtain ⟨rfl, rfl⟩ := pure_ok.mp h
      exact ⟨rfl, fun p hsees _ => hsees.wildcard⟩
  | _ =>
    obtain ⟨rfl, rfl⟩ := pure_ok.mp h
    exact ⟨rfl, fun _ _ _ => rfl⟩

theorem delivers_asType (e : Expr) {r : Option Ty} (hP : ∀ p, P p → ∀ t, r = some t → Known p.context t) :
    Delivers P (asType e r) fun p t => Known p.context t := by
  cases r with
  | some t => exact .pure fun p hp => hP p hp t rfl
  | none =>
    refine .bind (delivers_isUnresolved e) fun b => ?_
    cases b with
    | true => exact .pure fun p hp => (by cases hp.2)
    | false => exact .reject

theorem delivers_constantOf (span : Span) (what : Text) {e : Expr} (he : ∀ p, P p → e.Checked p) :
    Delivers P (constantOf span what e) fun _ v => v.HasType e.type := by
  refine .of_reads (fun _ h => h) fun {site σ r σ'} h => ?_
  obtain ⟨v, σ₁, hv, h⟩ := bind_ok.mp h
  obtain ⟨rfl, rfl⟩ := evaluateWithDefaults_ok.mp hv
  cases hvalue : e.evaluate σ₁.session.valueOrDefault? with
  | error err => simp [hvalue] at h
  | ok v =>
    simp only [hvalue, pure_ok] at h
    obtain ⟨rfl, rfl⟩ := h
    exact ⟨rfl, fun p hsees hp => Expr.evaluate_hasType hsees.fits_default e (he p hp) hvalue⟩

theorem delivers_unsignedOf (span : Span) (what : Text) {e : Expr} (he : ∀ p, P p → e.Checked p) :
    Delivers P (unsignedOf span what e) fun _ _ => True := by
  refine .bind (delivers_constantOf span what he) fun v => ?_
  split
  · split
    · exact .pure fun _ _ => trivial
    · exact .reject
  · exact .reject

/-- A type constructor makes a proper type of a proper one. -/
theorem delivers_constructed {c : TypeConstructor} {t : Ty} (name : Text) (span argSpan : Span)
    (hP : ∀ p, P p → c.Sized ∧ Known p.context t) :
    Delivers P (constructed c name span argSpan t) fun p u => Known p.context u := by
  have known {p : Place} {u : Ty} (hu : u.Proper) (hne : ∀ r, u.innermost ≠ .struct r) : Known p.context u :=
    ⟨hu, fun r hr => (hne r hr).elim⟩
  unfold constructed
  split
  · exact .pure fun p hp => known ⟨(hP p hp).1, (hP p hp).2.1⟩ fun _ h => (by cases h)
  · split
    · rename_i hfloat
      exact .pure fun p hp => known ⟨(hP p hp).1.1, (hP p hp).1.2, hfloat⟩ fun _ h => (by cases h)
    · exact .reject
  · split
    · exact .pure fun p hp => known (hP p hp).2.1 fun _ h => (by cases h)
    · exact .reject
  · exact .reject
  · exact .reject
  · exact .reject
  · exact .pure fun p hp => (hP p hp).2.1.elim
  · exact .pure fun p hp => (hP p hp).2.1.elim
  · exact .pure fun p hp => (hP p hp).2
  · exact .pure fun p hp => (hP p hp).2
  · exact .pure fun p hp => (hP p hp).2.1.elim
  · exact .pure fun p hp => (hP p hp).2.1.elim
  · exact .pure fun p hp => known (hP p hp).2.1 fun _ h => (by cases h)
  · exact .pure fun p hp => known (hP p hp).2.1 fun _ h => (by cases h)
  · exact .reject
  · exact .reject

end Check
end Shading
