import Shading.Proofs.Check.Apart
import Shading.Proofs.Typing.Regular

/-! Checks of expressions in any session. If what has been declared is of proper types, and known values are of these
types, then so it stays, and the result is sound. -/
namespace Shading.Check

variable {α β : Type}

/-- A constant of a proper type, whose values are of that type. -/
structure Constant.Typed (c : Constant) : Prop where
  proper : c.type.Proper
  value : ∀ v ∈ c.value, v.HasType c.type
  fallback : ∀ v ∈ c.fallback, v.HasType c.type

namespace Session

/-- The types of the constants that numbers stand for. -/
def Current (s : Session) (id : Int) (t : Ty) : Prop := ∃ c, s.constants.lookup id = some c ∧ c.type = t

/-- The types of all constants that have been declared, whatever their numbers stand for now. -/
def Recorded (s : Session) (id : Int) (t : Ty) : Prop := ∃ c, (id, c) ∈ s.constants ∧ c.type = t

/-- Everything that has been declared is of a proper type. -/
structure Typed (s : Session) : Prop where
  vars : ∀ x ∈ s.vars, x.2.type.Proper
  constants : ∀ x ∈ s.constants, x.2.Typed
  functions : ∀ x ∈ s.functions, x.2.type.Proper
  structs : ∀ x ∈ s.structs, (Ty.struct x.2.record).Proper
  finished : ∀ f ∈ s.finished, f.2.result.rootStmt.Sound s.Recorded ∧ ∀ b ∈ f.2.symbols, b.2.Known
  previous : ∀ x ∈ s.previous, x.2.rootStmt.Regular
  missing : s.missing = []

variable {s : Session}

theorem Current.recorded {id : Int} {t : Ty} (h : s.Current id t) : s.Recorded id t := by
  obtain ⟨c, hc, ht⟩ := h
  exact ⟨c, mem_of_lookup hc, ht⟩

/-- The values that are known of constants are of the types of these. -/
theorem Typed.suits (h : s.Typed) : Expr.Suits s.Current s.value? := by
  rintro id t w ⟨c, hc, rfl⟩ hw
  simp only [value?, constant?, hc, Option.bind_eq_bind, Option.bind_some] at hw
  exact (h.constants _ (mem_of_lookup hc)).value w hw

/-- The same with the defaults of options. -/
theorem Typed.suits_default (h : s.Typed) : Expr.Suits s.Current s.valueOrDefault? := by
  rintro id t w ⟨c, hc, rfl⟩ hw
  have htyped := h.constants _ (mem_of_lookup hc)
  simp only [valueOrDefault?, constant?, hc, Option.bind_eq_bind, Option.bind_some] at hw
  cases hvalue : c.value with
  | none =>
    rw [hvalue] at hw
    exact htyped.fallback w hw
  | some x =>
    rw [hvalue] at hw
    cases hw
    exact htyped.value _ hvalue

/-- The same constants have been declared, and the same modules are done and known from before. -/
structure Steady (s s' : Session) : Prop where
  constants : s'.constants = s.constants
  finished : s'.finished = s.finished
  previous : s'.previous = s.previous

namespace Steady

variable {s₁ s' : Session}

theorem refl (s : Session) : s.Steady s := ⟨rfl, rfl, rfl⟩

theorem trans (h : s.Steady s₁) (h' : s₁.Steady s') : s.Steady s' :=
  ⟨h'.constants.trans h.constants, h'.finished.trans h.finished, h'.previous.trans h.previous⟩

theorem current (h : s.Steady s') : s'.Current = s.Current := by
  funext id t
  simp only [Current, h.constants]

theorem recorded (h : s.Steady s') : s'.Recorded = s.Recorded := by
  funext id t
  simp only [Recorded, h.constants]

end Steady

end Session

/-- What has been declared is of proper types, and names stand for nothing that is missing. -/
structure State.Typed (σ : State) : Prop where
  session : σ.session.Typed
  scopes : ∀ level ∈ σ.draft.scopes.levels, ∀ b ∈ level, b.2.Known
  exports : ∀ b ∈ σ.draft.exports, b.2.Known
  wildcard : σ.draft.wildcard = false
  pending : ∀ s ∈ σ.draft.pending, s.IsVariable ∧ s.Sound σ.session.Recorded

theorem State.Typed.lookup {σ : State} (h : σ.Typed) {name : Text} {b : Binding}
    (hb : σ.draft.scopes.lookup? name = some b) : b.Known := by
  obtain ⟨level, hlevel, hbest⟩ := List.exists_of_findSome?_eq_some hb
  exact h.scopes level hlevel _ (mem_of_best hbest)

/-- A check that declares no constants, whose result has a property. The types of constants are given. -/
structure Upholds (Γ : Int → Ty → Prop) (x : Check α) (Q : α → Prop) : Prop where
  run : ∀ {site σ a σ'}, σ.Typed → σ.session.Current = Γ → x site σ = .ok (a, σ') →
    σ'.Typed ∧ σ.session.Steady σ'.session ∧ Q a

variable {Γ : Int → Ty → Prop}

namespace Upholds

variable {x : Check α} {P Q : α → Prop} {R : β → Prop}

theorem pure {a : α} (h : Q a) : Upholds Γ (Pure.pure a) Q := by
  refine ⟨fun hσ _ hx => ?_⟩
  obtain ⟨rfl, rfl⟩ := pure_ok.mp hx
  exact ⟨hσ, .refl _, h⟩

theorem reject {span : Span} {r : Rejection} : Upholds Γ (Check.reject span r : Check α) Q :=
  ⟨fun _ _ hx => (reject_ok.mp hx).elim⟩

theorem bind {f : α → Check β} (hx : Upholds Γ x P) (hf : ∀ a, P a → Upholds Γ (f a) R) : Upholds Γ (x >>= f) R := by
  refine ⟨fun {site σ b σ'} hσ hΓ h => ?_⟩
  obtain ⟨a, σ₁, hrun, hrest⟩ := bind_ok.mp h
  obtain ⟨hσ₁, hsteady, ha⟩ := hx.run hσ hΓ hrun
  obtain ⟨hσ', hsteady', hb⟩ := (hf a ha).run hσ₁ (hsteady.current.trans hΓ) hrest
  exact ⟨hσ', hsteady.trans hsteady', hb⟩

theorem post (hx : Upholds Γ x P) (h : ∀ a, P a → Q a) : Upholds Γ x Q := by
  refine ⟨fun hσ hΓ hrun => ?_⟩
  obtain ⟨hσ', hsteady, ha⟩ := hx.run hσ hΓ hrun
  exact ⟨hσ', hsteady, h _ ha⟩

/-- A check that changes nothing. -/
theorem of_reads (hx : Reads x)
    (h : ∀ {site σ a}, σ.Typed → σ.session.Current = Γ → x site σ = .ok (a, σ) → Q a) : Upholds Γ x Q := by
  refine ⟨fun {site σ a σ'} hσ hΓ hrun => ?_⟩
  obtain rfl := hx.run hrun
  exact ⟨hσ, .refl _, h hσ hΓ hrun⟩

/-- What is read first changes nothing. -/
theorem reading {f : α → Check β} (hx : Reads x) (hf : ∀ a, Upholds Γ (f a) R) : Upholds Γ (x >>= f) R :=
  .bind (P := fun _ => True) (.of_reads hx fun _ _ _ => trivial) fun a _ => hf a

theorem withReader {f : Site → Site} (hx : Upholds Γ x Q) : Upholds Γ (MonadWithReader.withReader f x) Q :=
  ⟨fun hσ hΓ h => hx.run hσ hΓ (withReader_ok.mp h)⟩

theorem typing (span : Span) (r : Except TypeError α) : Upholds Γ (Check.typing span r) fun a => r = .ok a :=
  .of_reads (.typing _ _) fun _ _ h => (typing_ok.mp h).1

end Upholds

theorem upholds_lookup (name : Text) : Upholds Γ (lookup? name) fun r => ∀ b ∈ r, b.Known := by
  refine .of_reads (.lookup name) fun hσ _ h b hb => ?_
  obtain ⟨rfl, -⟩ := lookup_ok.mp h
  exact hσ.lookup hb

theorem upholds_getDraft : Upholds Γ getDraft fun d => d.wildcard = false := by
  refine .of_reads .getDraft fun hσ _ h => ?_
  obtain ⟨rfl, -⟩ := getDraft_ok.mp h
  exact hσ.wildcard

theorem upholds_structType (span : Span) (id : Int) : Upholds Γ (structType span id) Ty.Proper := by
  refine .of_reads (reads_structType _ _) fun hσ _ h => ?_
  obtain ⟨-, x, hx, rfl⟩ := structType_ok h
  exact hσ.session.structs _ (mem_of_lookup hx)

/-- The tables as they are. -/
theorem upholds_getSession : Upholds Γ getSession fun s => s.Typed ∧ s.Current = Γ := by
  refine .of_reads .getSession fun hσ hΓ h => ?_
  obtain ⟨rfl, -⟩ := getSession_ok.mp h
  exact ⟨hσ.session, hΓ⟩

/-- What refers to something gets its type. -/
theorem upholds_reference {e : Expr} (h : e.IsReference) : Upholds Γ (reference e) (Expr.Typed Γ) := by
  have leaf {e : Expr} (hproper : e.type.Proper) (hderived : e.Derived Γ) (hchildren : e.children = []) : e.Typed Γ :=
    .of_children hproper hderived fun _ hc => absurd (hchildren ▸ hc) List.not_mem_nil
  cases e with
  | literal i v => exact .pure (leaf h.1 h.2 rfl)
  | var i id =>
    refine .bind upholds_getSession fun s ⟨hs, _⟩ => ?_
    split
    · rename_i v hv
      exact .pure (leaf (hs.vars _ (mem_of_lookup hv)) trivial rfl)
    · exact .reject
  | const i id =>
    refine .bind upholds_getSession fun s ⟨hs, hΓ⟩ => ?_
    split
    · rename_i c hc
      have hcurrent : s.Current id c.type := ⟨c, hc, rfl⟩
      rw [hΓ] at hcurrent
      exact .pure (leaf (hs.constants _ (mem_of_lookup hc)).proper hcurrent rfl)
    · exact .reject
  | function i id =>
    refine .bind upholds_getSession fun s ⟨hs, _⟩ => ?_
    split
    · rename_i f hf
      exact .pure (leaf (hs.functions _ (mem_of_lookup hf)) trivial rfl)
    · exact .reject
  | structRef i id => exact .bind (upholds_structType _ _) fun t ht => .pure (leaf ht trivial rfl)
  | typeRef i t => exact .pure (leaf h rfl rfl)
  | intrinsicRef i f => exact .pure (leaf trivial trivial rfl)
  | _ => exact h.elim

theorem upholds_named (i : ExprInfo) (n : Text) : Upholds Γ (named i n) (Expr.Typed Γ) := by
  refine .bind (upholds_lookup n) fun b hb => ?_
  split
  case h_1 | h_2 | h_3 | h_4 | h_5 => exact upholds_reference trivial
  case h_6 => exact upholds_reference (hb _ rfl).isReference
  case h_7 => exact (hb _ rfl).elim
  case h_8 =>
    split
    · rename_i p hp
      exact .pure ⟨rfl, .ofType _ (Primitive.mem_named_of_name hp)⟩
    split
    · exact .pure ⟨rfl, .leaf trivial trivial rfl⟩
    refine .bind upholds_getDraft fun d hd => ?_
    rw [hd]
    exact .reject

theorem upholds_namedType (span : Span) (name : Text) (hops : Nat) :
    Upholds Γ (namedType? span name hops) fun r => ∀ t, r = some t → t.Proper := by
  have nothing : Upholds Γ (pure none) fun r => ∀ t : Ty, r = some t → t.Proper := .pure nofun
  have found {x : Check Ty} (hx : Upholds Γ x Ty.Proper) :
      Upholds Γ (do return some (← x)) fun r => ∀ t, r = some t → t.Proper :=
    .bind hx fun t ht => .pure fun _ heq => Option.some.inj heq ▸ ht
  induction hops generalizing span name with
  | zero => exact nothing
  | succ hops ih =>
    refine .bind (upholds_lookup name) fun b hb => ?_
    split
    case h_1 | h_3 => exact found (upholds_structType _ _)
    case h_2 => exact .pure fun _ heq => Option.some.inj heq ▸ hb _ rfl
    case h_4 => exact (hb _ rfl).elim
    case h_5 => exact nothing
    case h_6 =>
      split
      · rename_i p hp
        exact .pure fun _ heq => Option.some.inj heq ▸ Primitive.mem_named_of_name hp
      simp only [reject_bind]
      split
      · exact .reject
      · exact nothing

theorem upholds_constructor (name : Text) : Upholds Γ (constructor? name) fun r => ∀ c, r = some c → c.Sized := by
  unfold constructor?
  split
  · exact .pure nofun
  · rename_i c hc
    refine .reading (.lookup name) fun b => ?_
    split
    · exact .pure nofun
    · exact .pure fun _ heq => Option.some.inj heq ▸ TypeConstructor.sized_of_name hc

/-- No name is one of a module that is missing. -/
theorem upholds_isUnresolved (e : Expr) : Upholds Γ (isUnresolved e) fun r => r = false := by
  unfold isUnresolved
  split
  · refine .bind (upholds_lookup _) fun b hb => ?_
    split
    · exact (hb _ rfl).elim
    · exact .pure rfl
    · exact .bind upholds_getDraft fun d hd => .pure hd
  · exact .pure rfl

theorem upholds_asType (e : Expr) {r : Option Ty} (h : ∀ t, r = some t → t.Proper) :
    Upholds Γ (asType e r) Ty.Proper := by
  unfold asType
  split
  · exact .pure (h _ rfl)
  · refine .bind (upholds_isUnresolved e) fun b hb => ?_
    rw [hb]
    exact .reject

/-- A type constructor makes a proper type of a proper one. -/
theorem upholds_constructed {c : TypeConstructor} {t : Ty} (name : Text) (span argSpan : Span) (hc : c.Sized)
    (ht : t.Proper) : Upholds Γ (constructed c name span argSpan t) Ty.Proper := by
  unfold constructed
  split
  case h_1 => exact .pure ⟨hc, ht⟩
  case h_2 =>
    split
    · rename_i hfloat
      exact .pure ⟨hc.1, hc.2, hfloat⟩
    · exact .reject
  case h_3 =>
    split
    · exact .pure ht
    · exact .reject
  case h_7 | h_8 | h_11 | h_12 => exact ht.elim
  case h_9 | h_10 | h_13 | h_14 => exact .pure ht
  all_goals exact .reject

section

variable {e l r : Expr} {args : List Expr}

theorem upholds_binary (i : ExprInfo) (op : BinaryOp) (hl : l.Typed Γ) (hr : r.Typed Γ) :
    Upholds Γ (binary i op l r) (Expr.Typed Γ) := by
  unfold binary
  rw [hl.known, hr.known]
  refine .bind (.typing _ _) fun t ht => .pure (.of_children (hl.proper.binary hr.proper ht) ht ?_)
  simp [Expr.children, hl.sound, hr.sound]

theorem upholds_unary (i : ExprInfo) (op : UnaryOp) (he : e.Typed Γ) : Upholds Γ (unary i op e) (Expr.Typed Γ) := by
  have folded {j : ExprInfo} {v w : Value} (hv : (Expr.literal j v).Typed Γ) (hw : v.unary op = .ok w) :
      Upholds Γ (Pure.pure (Expr.ofValue i.span w)) (Expr.Typed Γ) := by
    have hvalue : v.HasType j.type := hv.derived
    exact .pure (.ofValue _ hv.proper (hvalue.unary hw))
  unfold unary
  rw [he.known]
  refine .bind (.typing _ _) fun t ht => ?_
  split
  · split
    · rename_i hw
      exact folded he hw
    · exact .reject
  · split
    · rename_i hw
      exact folded he hw
    · exact .reject
  · refine .pure (.of_children (he.proper.unary ht) (Ty.unary_ok ht).2 ?_)
    simp [Expr.children, he.sound]

theorem upholds_requireBool (what : Text) (he : e.Typed Γ) : Upholds Γ (requireBool what e) fun _ => e.type.isBool := by
  unfold requireBool
  rw [he.known, Bool.true_and]
  split
  · exact .reject
  · rename_i hbool
    exact .pure (by simpa using hbool)

theorem upholds_ternary (i : ExprInfo) (he : e.Typed Γ) (hl : l.Typed Γ) (hr : r.Typed Γ) :
    Upholds Γ (ternary i e l r) (Expr.Typed Γ) := by
  unfold ternary
  rw [hl.known, hr.known]
  simp only [reject_bind]
  split
  · rename_i hfalse
    cases hfalse
  split
  · exact .reject
  · rename_i hsame
    refine .pure (.of_children hl.proper ⟨by simpa using hsame, rfl⟩ ?_)
    simp [Expr.children, he.sound, hl.sound, hr.sound]

theorem upholds_assign (i : ExprInfo) (op : AssignOp) (hl : l.Typed Γ) (hr : r.Typed Γ) :
    Upholds Γ (assign i op l r) (Expr.Typed Γ) := by
  have whole : Upholds Γ (Pure.pure (Expr.assign { i with type := l.type } op l r)) (Expr.Typed Γ) := by
    refine .pure (.of_children hl.proper trivial ?_)
    simp [Expr.children, hl.sound, hr.sound]
  refine .reading (reads_checkAssignable l) fun _ => ?_
  rw [hl.known, hr.known]
  simp only [reject_bind]
  split
  · rename_i hfalse
    cases hfalse
  split
  · refine .reading (.typing _ _) fun t => ?_
    split
    · exact .reject
    · exact whole
  · split
    · exact .reject
    · exact whole

theorem upholds_intrinsicCall (i : ExprInfo) (f : Intrinsic) (hargs : ∀ a ∈ args, a.Typed Γ) :
    Upholds Γ (intrinsicCall i f args) (Expr.Typed Γ) := by
  have hall : (args.all fun a => a.type.isKnown) = true := List.all_eq_true.mpr fun a ha => (hargs a ha).known
  unfold intrinsicCall
  rw [hall]
  refine .bind (.typing _ _) fun t ht => .pure (.of_children ?_ trivial fun a ha => (hargs a ha).sound)
  refine Intrinsic.resultType_proper (fun u hu => ?_) ht
  obtain ⟨a, ha, rfl⟩ := List.mem_map.mp hu
  exact (hargs a ha).proper

theorem upholds_call (i : ExprInfo) {target : Expr} (htarget : target.Typed Γ) (hargs : ∀ a ∈ args, a.Typed Γ) :
    Upholds Γ (call i target args) (Expr.Typed Γ) := by
  unfold call
  split
  · rename_i j id
    refine .bind upholds_getSession fun s ⟨hs, _⟩ => ?_
    split
    · exact .reject
    rename_i f hf
    have htype : f.type.Proper := hs.functions _ (mem_of_lookup hf)
    simp only [reject_bind]
    refine .reading .read fun site => ?_
    split
    · exact .reject
    split
    · exact .reject
    split
    · exact .reject
    refine .reading (reads_checkArguments _ _ _ _) fun _ => .pure ?_
    exact .of_children htype.2 trivial (List.forall_mem_cons.mpr ⟨htarget.sound, fun a ha => (hargs a ha).sound⟩)
  · exact upholds_intrinsicCall _ _ hargs
  · exact htarget.derived.elim
  · exact .reject

theorem upholds_methodCall (i : ExprInfo) (name : Text) (he : e.Typed Γ) (hargs : ∀ a ∈ args, a.Typed Γ) :
    Upholds Γ (methodCall i e name args) (Expr.Typed Γ) := by
  unfold methodCall
  dsimp only
  split
  · rename_i hunknown
    exact (hunknown ▸ he.proper).elim
  · split
    · exact upholds_intrinsicCall _ _ (List.forall_mem_cons.mpr ⟨he, hargs⟩)
    · exact .reject
  · split
    · exact .reject
    split
    · exact .reject
    split
    · exact .pure (.ofValue (t := .prim .u32) _ (by decide : Primitive.u32 ∈ Primitive.named) rfl)
    · exact upholds_intrinsicCall _ _ (List.forall_mem_singleton.mpr he)
  · exact .reject

/-- The type of an element or of a member. -/
theorem upholds_indexedType (span : Span) {t : Ty} {es : List Expr} (ht : t.Proper) (hes : ∀ e ∈ es, e.Typed Γ) :
    Upholds Γ (indexedType span t es) fun r => ∃ u, r = some u ∧ u.Proper ∧ u.Behind es.length t := by
  induction es generalizing t with
  | nil => exact .pure ⟨t, rfl, ht, rfl⟩
  | cons e es ih =>
    rw [List.forall_mem_cons] at hes
    have rest {u : Ty} (hu : u.Proper) (hbehind : ∀ {v}, Ty.Behind v es.length u → Ty.Behind v (es.length + 1) t) :
        Upholds Γ (indexedType span u es) fun r => ∃ v, r = some v ∧ v.Proper ∧ v.Behind (e :: es).length t :=
      (ih hu hes.2).post fun r ⟨v, hr, hv, hbehind'⟩ => ⟨v, hr, hv, hbehind hbehind'⟩
    unfold indexedType
    rw [ht.isKnown, hes.1.known]
    simp only [reject_bind]
    split
    · rename_i hfalse
      cases hfalse
    split
    · exact .reject
    split
    · split
      · exact .reading (reads_checkRange _ _ _) fun _ => rest ht fun _ => trivial
      · exact rest ht fun _ => trivial
    · exact .reading (reads_checkRange _ _ _) fun _ => rest ht.2 id
    · exact .reading (reads_checkRange _ _ _) fun _ =>
        rest ⟨ht.2.1, Primitive.mem_named_of_isFloat ht.2.2⟩ id
    · split
      · rename_i r hr
        have hmember : Upholds Γ (memberType e r) Ty.Proper := by
          refine .reading (.evaluate e) fun v => ?_
          split
          · exact .reject
          split
          · rename_i m hm
            refine .pure ?_
            have hmem : m ∈ r.members := by
              split at hm
              · cases hm
              · exact List.mem_of_getElem? hm
            exact Ty.proper_of_container ht hr hmem
          · exact .reject
        exact .bind hmember fun u hu => rest hu fun _ => .of_container hr _
      · exact .reject

theorem upholds_indexed (i : ExprInfo) (he : e.Typed Γ) (hargs : ∀ a ∈ args, a.Typed Γ) :
    Upholds Γ (indexed i e args) (Expr.Typed Γ) := by
  refine .bind (upholds_indexedType _ he.proper hargs) fun r ⟨t, hr, ht, hbehind⟩ => ?_
  rw [hr]
  exact .pure (.of_children ht hbehind (List.forall_mem_cons.mpr ⟨he.sound, fun a ha => (hargs a ha).sound⟩))

/-- A selection of components, of which there are one to four. -/
theorem typed_swizzle {base : Expr} {q : Primitive} {cs : List UInt32} (span : Span) (hbase : base.Typed Γ)
    (hq : base.type.scalarOrVector? = some q) (hlength : 1 ≤ cs.length ∧ cs.length ≤ 4) :
    (Expr.swizzle ⟨span, Ty.vectorOf q cs.length.toUInt32⟩ base (Selector.ofList cs)).Typed Γ := by
  have hcount := count_ofList hlength
  refine .of_children (Ty.proper_vectorOf (hbase.proper.scalarOrVector hq) hcount) ⟨q, hq, hcount, rfl⟩ fun c hc => ?_
  rw [List.mem_singleton.mp hc]
  exact hbase.sound

/-- What has components is a scalar or a vector. -/
theorem scalarOrVector_of_lt {t : Ty} {c : UInt32} (h : c < t.components) : ∃ q, t.scalarOrVector? = some q := by
  cases t with
  | prim q => exact ⟨q, rfl⟩
  | vector n q => exact ⟨q, rfl⟩
  | _ =>
    have hzero : c.toNat < 0 := UInt32.lt_iff_toNat_lt.mp h
    omega

theorem upholds_swizzled {source : Expr} (components : List UInt32) (span : Span) (hsource : source.Typed Γ) :
    Upholds Γ (swizzled source components span) (Expr.Typed Γ) := by
  unfold swizzled
  simp only [reject_bind]
  split
  · split <;> exact .reject
  rename_i hrange
  split
  · exact .reject
  rename_i hcount
  have hlength : 1 ≤ components.length ∧ components.length ≤ 4 := by
    cases components with
    | nil => simp at hcount
    | cons c cs => simp at hcount ⊢; omega
  obtain ⟨c, hc⟩ := List.exists_mem_of_length_pos hlength.1
  have hcomponents : ∀ c ∈ components, c < source.type.components := by simpa using hrange
  obtain ⟨q, hq⟩ := scalarOrVector_of_lt (hcomponents c hc)
  -- the base that is selected from, with the components that are selected of it
  have selection {base : Expr} {all : List UInt32} (hbase : base.Typed Γ) (htype : base.type.scalarOrVector? = some q)
      (hall : all.length = components.length) :
      Upholds Γ (if base.type.components = 1 && all.length = 1 then pure base
        else if base.type.isVector && base.type.components.toNat = all.length && isIdentity all then pure base
        else pure (.swizzle ⟨span, Ty.vectorOf (source.type.scalarOrVector?.getD .bool) all.length.toUInt32⟩ base
          (Selector.ofList all))) (Expr.Typed Γ) := by
    split
    · exact .pure hbase
    split
    · exact .pure hbase
    · rw [hq, Option.getD_some]
      exact .pure (typed_swizzle span hbase htype (by omega))
  cases source with
  | swizzle i inner s =>
    obtain ⟨q', hq', -, htype⟩ := hsource.derived
    replace htype : (Expr.swizzle i inner s).type = Ty.vectorOf q' s.count := htype
    rw [htype, scalarOrVector_vectorOf] at hq
    have hpresent : inner.isAbsent = false := by
      cases inner with
      | absent => cases hq'
      | _ => rfl
    have hinner : inner.Typed Γ := ⟨hpresent, hsource.sound.child List.mem_cons_self⟩
    exact selection hinner (hq'.trans hq) (by simp [Swizzle.compose])
  | _ => exact selection hsource hq rfl

/-- Members that are selected one after the other are one access. -/
theorem typed_selectMember {base index : Expr} {t : Ty} (span : Span) (hbase : base.Typed Γ) (hindex : index.Typed Γ)
    (ht : t.Proper) (hbehind : t.Behind 1 base.type) : (selectMember span base index t).Typed Γ := by
  unfold selectMember
  split
  · rename_i i b is
    have hinner : i.type.Behind is.length b.type := hbase.derived
    refine .of_children ht ?_ (List.forall_mem_cons.mpr ⟨hbase.sound.child List.mem_cons_self, fun c hc => ?_⟩)
    · show t.Behind (is ++ [index]).length b.type
      rw [List.length_append]
      exact hinner.succ hbehind
    · rcases List.mem_append.mp hc with hc | hc
      · exact hbase.sound.child (List.mem_cons_of_mem _ hc)
      · rw [List.mem_singleton.mp hc]
        exact hindex.sound
  · refine .of_children ht hbehind ?_
    simp [Expr.children, hbase.sound, hindex.sound]

theorem upholds_membersOf (i : ExprInfo) {base : Expr} (names : List Name) (hbase : base.Typed Γ) :
    Upholds Γ (membersOf i base names) (Expr.Typed Γ) := by
  induction names generalizing base with
  | nil => exact .pure hbase
  | cons n ns ih =>
    unfold membersOf
    dsimp only
    rw [hbase.known]
    simp only [reject_bind]
    split
    · rename_i hfalse
      cases hfalse
    split
    · rename_i r hr
      split
      · exact .reject
      rename_i k hk
      have hlt := List.of_findIdx?_eq_some hk
      cases hm : r.members[k]? with
      | none => simp [hm] at hlt
      | some m =>
        have hindex : (Expr.ofValue n.span (.i32 (Int32.ofNat k))).Typed Γ :=
          .ofValue (t := .prim .i32) _ (by decide : Primitive.i32 ∈ Primitive.named) rfl
        have hproper : m.2.Proper := Ty.proper_of_container hbase.proper hr (List.mem_of_getElem? hm)
        exact ih (typed_selectMember _ hbase hindex hproper (.of_container hr _))
    · split
      · exact .reject
      split
      · exact .reject
      · exact .bind (upholds_swizzled _ i.span hbase) fun e he => ih he

theorem upholds_foldCast (span : Span) {t : Ty} (args : List Expr) (ht : t.Proper) :
    Upholds Γ (foldCast span t args) fun r => ∀ v, r = some v → v.HasType t := by
  unfold foldCast
  split
  · exact .pure nofun
  refine .reading .getSession fun s => ?_
  split
  · exact .pure nofun
  split
  · rename_i v hv
    exact .pure fun w hw => Option.some.inj hw ▸ .cast ht hv
  · exact .reject

end

end Shading.Check

namespace Shading.Expr

variable {Γ : Int → Ty → Prop} {read : Expr} {d s r : UInt32} {q : Primitive}

/-- What is checked where nothing can be referred to is typed. -/
theorem Checked.typed {e : Expr} (h : e.Checked {}) : e.Typed Γ :=
  ⟨h.not_absent, h.sound.mono fun ⟨_, hv⟩ => absurd hv List.not_mem_nil⟩

theorem typed_resizedColumn (span : Span) (hread : read.Typed Γ) (htype : read.type = .matrix d s q)
    (hr : Ty.IsSize r) (c : Nat) : (resizedColumn span read d s r q q c).Typed Γ := by
  have hmatrix := hread.proper
  rw [htype] at hmatrix
  obtain ⟨-, hs, hq⟩ := hmatrix
  have hnamed := Primitive.mem_named_of_isFloat hq
  have hindex : (ofValue span (.i32 (Int32.ofNat c))).Typed Γ :=
    .ofValue (t := .prim .i32) span (by decide : Primitive.i32 ∈ Primitive.named) rfl
  have hcolumn : (Expr.index ⟨span, .vector s q⟩ read [ofValue span (.i32 (Int32.ofNat c))]).Typed Γ := by
    refine .of_children ⟨hs, hnamed⟩ ?_ ?_
    · show (Ty.vector s q).Behind 1 read.type
      rw [htype]
      rfl
    · simp [children, hread.sound, hindex.sound]
  unfold resizedColumn
  split
  · exact (checked_identityColumn span hr hq c).1.typed
  dsimp only
  split
  · exact hcolumn
  split
  · have hlength : ((List.range r.toNat).map Nat.toUInt32).length = r.toNat := by rw [List.length_map, List.length_range]
    have hge := UInt32.le_iff_toNat_le.mp hr.1
    have hle := UInt32.le_iff_toNat_le.mp hr.2
    have htwo : (2 : UInt32).toNat = 2 := rfl
    have hfour : (4 : UInt32).toNat = 4 := rfl
    rw [← vectorOf_range q hr]
    exact Check.typed_swizzle span hcolumn rfl (by omega)
  · refine .of_children ⟨hr, hnamed⟩ ⟨_, rfl⟩ (List.forall_mem_cons.mpr ⟨.ofType span ⟨hr, hnamed⟩, ?_⟩)
    refine List.forall_mem_cons.mpr ⟨hcolumn.sound, fun e he => ?_⟩
    obtain ⟨k, -, rfl⟩ := List.mem_map.mp he
    exact (Typed.ofValue (t := .prim q) span hnamed (Value.type_scalar hq _)).sound

theorem typed_resizedMatrix {columns : UInt32} (span : Span) (hread : read.Typed Γ) (htype : read.type = .matrix d s q)
    (hproper : (Ty.matrix columns r q).Proper) : (resizedMatrix span read d s q columns r q).Typed Γ := by
  refine .of_children hproper ⟨_, rfl⟩ (List.forall_mem_cons.mpr ⟨.ofType span hproper, fun e he => ?_⟩)
  obtain ⟨c, -, rfl⟩ := List.mem_map.mp he
  exact (typed_resizedColumn span hread htype hproper.2.1 c).sound

end Shading.Expr

namespace Shading.Check

variable {Γ : Int → Ty → Prop} {e : Expr} {args : List Expr}

/-- Tables stay typed when other things of a session change. -/
theorem Session.Typed.of_same {s s' : Session} (h : s.Typed) (hvars : s'.vars = s.vars)
    (hconstants : s'.constants = s.constants) (hfunctions : s'.functions = s.functions) (hstructs : s'.structs = s.structs)
    (hfinished : s'.finished = s.finished) (hprevious : s'.previous = s.previous) (hmissing : s'.missing = s.missing) :
    s'.Typed := by
  have hrecorded : s'.Recorded = s.Recorded := by
    funext id t
    simp only [Session.Recorded, hconstants]
  refine ⟨?_, ?_, ?_, ?_, ?_, ?_, hmissing.trans h.missing⟩
  · exact hvars ▸ h.vars
  · exact hconstants ▸ h.constants
  · exact hfunctions ▸ h.functions
  · exact hstructs ▸ h.structs
  · rw [hfinished, hrecorded]
    exact h.finished
  · exact hprevious ▸ h.previous

/-- A temporary variable is of the type of the expression whose value it holds. -/
theorem upholds_hoist (what : Text) {t : Ty} (ht : t.Proper) (he : e.Typed Γ) :
    Upholds Γ (hoist what t e) fun r => r.Typed Γ ∧ r.type = t := by
  refine ⟨fun {site σ a σ'} hσ hΓ h => ?_⟩
  cases h
  refine ⟨⟨hσ.session.of_same rfl rfl rfl rfl rfl rfl rfl, hσ.scopes, hσ.exports, hσ.wildcard, fun s hs => ?_⟩,
    ⟨rfl, rfl, rfl⟩, ⟨rfl, .ofVar _ _ ht⟩, rfl⟩
  rcases List.mem_append.mp hs with hs | hs
  · exact hσ.pending s hs
  · rw [List.mem_singleton.mp hs]
    refine ⟨⟨_, _, rfl⟩, (Stmt.sound_letVar _ _).mpr ⟨.inl rfl, .ofType _ ht, he.sound.mono fun h => ?_⟩⟩
    rw [← hΓ] at h
    exact h.recorded

theorem upholds_expandMatrix (span : Span) {c r d s : UInt32} {q : Primitive} (hproper : (Ty.matrix c r q).Proper)
    (he : e.Typed Γ) (htype : e.type = .matrix d s q) :
    Upholds Γ (expandMatrix span e c r q d s q) (Expr.Typed Γ) := by
  have hsource : (Ty.matrix d s q).Proper := htype ▸ he.proper
  refine .reading .read fun site => ?_
  dsimp only
  split
  · exact .bind (upholds_hoist _ hsource he) fun source ⟨hs, hstype⟩ =>
      .pure (Expr.typed_resizedMatrix span hs hstype hproper)
  · exact .pure (Expr.typed_resizedMatrix span he htype hproper)

theorem upholds_cast (i : ExprInfo) (target : Expr) {t : Ty} (ht : t.Proper) (hargs : ∀ a ∈ args, a.Typed Γ) :
    Upholds Γ (cast i target t args) (Expr.Typed Γ) := by
  have hall : (args.all fun a => a.type.isKnown) = true := List.all_eq_true.mpr fun a ha => (hargs a ha).known
  have whole : Upholds Γ (pure (Expr.cast { i with type := t } (.ofType target.span t) args)) (Expr.Typed Γ) :=
    .pure (.of_children ht ⟨_, rfl⟩ (List.forall_mem_cons.mpr ⟨.ofType _ ht, fun a ha => (hargs a ha).sound⟩))
  unfold cast
  dsimp only
  rw [ht.isKnown]
  split
  · rename_i hfalse
    cases hfalse
  split
  · rename_i hunknown
    simp [hall] at hunknown
  refine .bind (upholds_foldCast i.span args ht) fun r hr => ?_
  cases r with
  | some v => exact .pure (.ofValue _ ht (hr _ rfl))
  | none =>
    refine .bind (.typing _ _) fun _ hconstruct => ?_
    split
    · split
      · rename_i htype
        rw [List.map_singleton, htype] at hconstruct
        obtain rfl := construct_matrix hconstruct
        refine .reading .read fun site => ?_
        split
        · exact upholds_expandMatrix _ ht (List.forall_mem_singleton.mp hargs) htype
        · exact whole
      · exact whole
    · exact whole

mutual

theorem upholds_typeOf (e : Expr) (h : e.Regular) : Upholds Γ (typeOf? e) fun r => ∀ t, r = some t → t.Proper := by
  have found {x : Check Ty} (hx : Upholds Γ x Ty.Proper) :
      Upholds Γ (do return some (← x)) fun r => ∀ t, r = some t → t.Proper :=
    .bind hx fun t ht => .pure fun _ heq => Option.some.inj heq ▸ ht
  unfold typeOf?
  split
  · exact .pure fun _ heq => Option.some.inj heq ▸ h.self rfl
  · exact found (upholds_structType _ _)
  · exact .reading .getDraft fun d => upholds_namedType _ _ _
  · rename_i i j n args
    have hargs : ∀ a ∈ args, a.Regular := fun a ha => h.child (by simp [Expr.children, ha])
    refine .bind (upholds_constructor n) fun c hc => ?_
    split
    · exact found (upholds_constructedType n _ args hargs (hc _ rfl))
    · exact .pure nofun
  · exact .pure nofun
termination_by sizeOf e
decreasing_by
  subst_vars
  rw [Expr.index.sizeOf_spec]
  omega

theorem upholds_constructedType {c : TypeConstructor} (name : Text) (span : Span) (args : List Expr)
    (hargs : ∀ a ∈ args, a.Regular) (hc : c.Sized) : Upholds Γ (constructedType c name span args) Ty.Proper := by
  unfold constructedType
  split
  · rename_i e
    exact .bind (upholds_typeOf e (hargs e List.mem_cons_self)) fun r hr => .bind (upholds_asType e hr) fun t ht =>
      upholds_constructed _ _ _ hc ht
  · rename_i e size
    split
    · refine .bind (upholds_typeOf e (hargs e (by simp))) fun r hr => .bind (upholds_asType e hr) fun t ht => ?_
      rw [ht.isKnown]
      simp only [reject_bind]
      split
      · rename_i hfalse
        cases hfalse
      refine .bind (upholds_expression size (hargs size (by simp))) fun checked _ => ?_
      refine .reading (reads_unsignedOf _ _ _) fun n => ?_
      split
      · exact .reject
      · exact .pure ht
    · exact .reject
    · exact .reject
  · split <;> exact .reject
termination_by sizeOf args
decreasing_by
  all_goals
    subst_vars
    simp only [List.cons.sizeOf_spec]
    omega

/-- The type of a checked expression is that of its values. -/
theorem upholds_expression (e : Expr) (h : e.Regular) : Upholds Γ (expression e) (Expr.Typed Γ) := by
  unfold expression
  split
  case h_1 => exact .reject
  case h_2 i n => exact upholds_named i n
  case h_3 i v => exact upholds_reference (h.self rfl)
  case h_4 | h_5 | h_6 | h_7 | h_9 => exact upholds_reference trivial
  case h_8 i t => exact upholds_reference (h.self rfl)
  case h_10 i op l r =>
    exact .bind (upholds_expression l (h.child (by simp [Expr.children]))) fun l' hl =>
      .bind (upholds_expression r (h.child (by simp [Expr.children]))) fun r' hr => upholds_binary i op hl hr
  case h_11 i op e =>
    exact .bind (upholds_expression e (h.child (by simp [Expr.children]))) fun e' he => upholds_unary i op he
  case h_12 i op l r =>
    exact .bind (upholds_expression l (h.child (by simp [Expr.children]))) fun l' hl =>
      .bind (upholds_expression r (h.child (by simp [Expr.children]))) fun r' hr => upholds_assign i op hl hr
  case h_13 i target args =>
    have hargs : ∀ a ∈ args, a.Regular := fun a ha => h.child (by simp [Expr.children, ha])
    refine .bind (upholds_typeOf target (h.child (by simp [Expr.children]))) fun r hr => ?_
    refine .bind (upholds_asType target hr) fun t ht => .bind (upholds_expressions args hargs) fun args' hargs' => ?_
    exact upholds_cast i target ht hargs'
  case h_14 i c t f =>
    refine .bind (upholds_expression c (h.child (by simp [Expr.children]))) fun c' hc => ?_
    refine .bind (upholds_requireBool _ hc) fun _ _ => ?_
    exact .bind (upholds_expression t (h.child (by simp [Expr.children]))) fun t' ht =>
      .bind (upholds_expression f (h.child (by simp [Expr.children]))) fun f' hf => upholds_ternary i hc ht hf
  case h_15 i base indices =>
    have hindices : ∀ a ∈ indices, a.Regular := fun a ha => h.child (by simp [Expr.children, ha])
    have access : Upholds Γ (do
        let base ← expression base
        let indices ← expressions indices
        indexed i base indices) (Expr.Typed Γ) :=
      .bind (upholds_expression base (h.child (by simp [Expr.children]))) fun b hb =>
        .bind (upholds_expressions indices hindices) fun is his => upholds_indexed i hb his
    dsimp only
    split
    · rename_i n
      refine .bind (upholds_constructor n) fun c hc => ?_
      cases c with
      | none => exact access
      | some c =>
        show Upholds Γ (do return Expr.ofType i.span (← constructedType c n i.span indices)) _
        exact .bind (upholds_constructedType n _ indices hindices (hc c rfl)) fun t ht => .pure ⟨rfl, .ofType _ ht⟩
    · exact access
  case h_16 i base names =>
    exact .bind (upholds_expression base (h.child (by simp [Expr.children]))) fun b hb => upholds_membersOf i names hb
  case h_17 i base s =>
    refine .bind (upholds_expression base (h.child (by simp [Expr.children]))) fun b hb => ?_
    rw [hb.known]
    exact upholds_swizzled _ _ hb
  case h_18 i target args =>
    have hargs : ∀ a ∈ args, a.Regular := fun a ha => h.child (by simp [Expr.children, ha])
    refine .bind (upholds_typeOf target (h.child (by simp [Expr.children]))) fun r hr => ?_
    split
    · exact .bind (upholds_expressions args hargs) fun args' hargs' => upholds_cast _ _ (hr _ rfl) hargs'
    · exact .bind (upholds_expression target (h.child (by simp [Expr.children]))) fun t ht =>
        .bind (upholds_expressions args hargs) fun as has => upholds_call i ht has
  case h_19 i object name args =>
    have hargs : ∀ a ∈ args, a.Regular := fun a ha => h.child (by simp [Expr.children, ha])
    exact .bind (upholds_expression object (h.child (by simp [Expr.children]))) fun o ho =>
      .bind (upholds_expressions args hargs) fun as has => upholds_methodCall i name ho has
  case h_20 i f args =>
    have hargs : ∀ a ∈ args, a.Regular := fun a ha => h.child (by simp [Expr.children, ha])
    exact .bind (upholds_expressions args hargs) fun as has => upholds_intrinsicCall i f has
termination_by sizeOf e
decreasing_by
  all_goals
    subst_vars
    simp only [Expr.binary.sizeOf_spec, Expr.unary.sizeOf_spec, Expr.assign.sizeOf_spec, Expr.cast.sizeOf_spec,
      Expr.ternary.sizeOf_spec, Expr.index.sizeOf_spec, Expr.member.sizeOf_spec, Expr.swizzle.sizeOf_spec,
      Expr.call.sizeOf_spec, Expr.method.sizeOf_spec, Expr.intrinsic.sizeOf_spec]
    omega

theorem upholds_expressions (es : List Expr) (h : ∀ e ∈ es, e.Regular) :
    Upholds Γ (expressions es) fun es' => ∀ e ∈ es', e.Typed Γ := by
  cases es with
  | nil => exact .pure fun _ he => absurd he List.not_mem_nil
  | cons e es =>
    rw [List.forall_mem_cons] at h
    exact .bind (upholds_expression e h.1) fun e' he => .bind (upholds_expressions es h.2) fun es' hes =>
      .pure (List.forall_mem_cons.mpr ⟨he, hes⟩)
termination_by sizeOf es
decreasing_by
  all_goals
    subst_vars
    simp only [List.cons.sizeOf_spec]
    omega

end

end Shading.Check
