import Shading.Proofs.Check.Reference

/-! Operations of checked operands. -/
namespace Shading.Check

variable {P : Place → Prop}

theorem delivers_typing {α : Type} (span : Span) (x : Except TypeError α) :
    Delivers P (typing span x) fun _ a => x = .ok a := by
  refine .of_reads (fun _ h => h) fun {site σ a σ'} h => ?_
  obtain ⟨hx, rfl⟩ := typing_ok.mp h
  exact ⟨rfl, fun _ _ _ => hx⟩

/-- What is said of operands whose types are not known says nothing. -/
theorem known_of_checked {e : Expr} {p : Place} (h : e.Checked p) : e.type.isKnown = true := h.proper.isKnown

theorem delivers_binary {l r : Expr} (i : ExprInfo) (op : BinaryOp) (hP : ∀ p, P p → l.Checked p ∧ r.Checked p) :
    Delivers P (binary i op l r) fun p e => e.Checked p := by
  unfold binary
  split
  · rename_i hunknown
    refine .pure fun p hp => ?_
    simp [known_of_checked (hP p hp).1, known_of_checked (hP p hp).2] at hunknown
  · refine .bind (delivers_typing _ _) fun t => .pure fun p ⟨hp, ht⟩ => ?_
    obtain ⟨hl, hr⟩ := hP p hp
    refine .mk ⟨hl.proper.binary hr.proper ht, ht, trivial⟩ fun c hc => ?_
    simp only [Expr.children, List.mem_cons, List.not_mem_nil, or_false] at hc
    rcases hc with rfl | rfl
    · exact hl
    · exact hr

theorem delivers_unary {e : Expr} (i : ExprInfo) (op : UnaryOp) (hP : ∀ p, P p → e.Checked p) :
    Delivers P (unary i op e) fun p e => e.Checked p := by
  have value_case {j : ExprInfo} {v w : Value} (he : e = .literal j v) (hw : v.unary op = .ok w) (t : Ty) :
      Delivers (fun p => P p ∧ e.type.unary op = .ok t) (pure (Expr.ofValue i.span w)) fun p e => e.Checked p := by
    refine .pure fun p hp => ?_
    have hchecked := hP p hp.1
    have hv : v.HasType e.type := by
      have := hchecked.consistent
      subst he
      exact this
    exact Expr.checked_ofValue _ hchecked.proper (hv.unary hw)
  unfold unary
  split
  · rename_i hunknown
    refine .pure fun p hp => ?_
    simp [known_of_checked (hP p hp)] at hunknown
  · refine .bind (delivers_typing _ _) fun t => ?_
    split
    · split
      · rename_i hw
        exact value_case rfl hw t
      · exact .reject
    · split
      · rename_i hw
        exact value_case rfl hw t
      · exact .reject
    · refine .pure fun p hp => ?_
      obtain ⟨hp, ht⟩ := hp
      refine .mk ⟨(hP p hp).proper.unary ht, ht, trivial⟩ fun c hc => ?_
      rw [Expr.children, List.mem_singleton] at hc
      rw [hc]
      exact hP p hp

theorem delivers_requireBool (what : Text) {e : Expr} (hP : ∀ p, P p → e.Checked p) :
    Delivers P (requireBool what e) fun _ _ => e.type.isBool := by
  unfold requireBool
  split
  · exact .reject
  · rename_i hbool
    refine .pure fun p hp => ?_
    simpa [known_of_checked (hP p hp)] using hbool

theorem delivers_ternary {c t f : Expr} (i : ExprInfo)
    (hP : ∀ p, P p → c.type.isBool ∧ c.Checked p ∧ t.Checked p ∧ f.Checked p) :
    Delivers P (ternary i c t f) fun p e => e.Checked p := by
  unfold ternary
  split
  · rename_i hunknown
    refine .pure fun p hp => ?_
    simp [known_of_checked (hP p hp).2.2.1, known_of_checked (hP p hp).2.2.2] at hunknown
  · simp only [reject_bind]
    split
    · exact .reject
    · rename_i hsame
      refine .pure fun p hp => ?_
      obtain ⟨hbool, hc, ht, hf⟩ := hP p hp
      refine .mk ⟨ht.proper, ⟨hbool, by simpa using hsame, rfl⟩, trivial⟩ fun d hd => ?_
      simp only [Expr.children, List.mem_cons, List.not_mem_nil, or_false] at hd
      rcases hd with rfl | rfl | rfl
      · exact hc
      · exact ht
      · exact hf

theorem reads_checkAssignable (e : Expr) : Reads (checkAssignable e) := by
  induction e using Expr.induction_children with
  | h e ih =>
    cases e with
    | var i id =>
      refine .bind .getSession fun s => ?_
      split
      · split <;> first | exact .pure _ | exact .reject _ _
      · exact .pure _
    | index i b is => exact ih b (by simp [Expr.children])
    | swizzle i b s =>
      unfold checkAssignable
      split
      · exact ih b (by simp [Expr.children])
      · exact .reject _ _
    | member i b ns | name i n =>
      unfold checkAssignable
      split <;> first | exact .pure _ | exact .reject _ _
    | const i id => exact .bind .getSession fun s => .reject _ _
    | _ => exact .reject _ _

theorem delivers_assign {l r : Expr} (i : ExprInfo) (op : AssignOp) (hP : ∀ p, P p → l.Checked p ∧ r.Checked p) :
    Delivers P (assign i op l r) fun p e => e.Checked p := by
  have children {p : Place} {j : ExprInfo} (hp : P p) : ∀ c ∈ (Expr.assign j op l r).children, c.Checked p := by
    simpa [Expr.children] using hP p hp
  unfold assign
  refine .bind (.of_reads_only (reads_checkAssignable l)) fun _ => ?_
  split
  · rename_i hunknown
    refine .pure fun p ⟨hp, _⟩ => ?_
    simp [known_of_checked (hP p hp).1, known_of_checked (hP p hp).2] at hunknown
  · dsimp only
    split
    · rename_i b hb
      refine .bind (delivers_typing _ _) fun t => ?_
      simp only [reject_bind]
      split
      · exact .reject
      · rename_i hsame
        refine .pure fun p ⟨⟨hp, _⟩, ht⟩ => ?_
        refine .mk ⟨(hP p hp).1.proper, ⟨rfl, ?_⟩, trivial⟩ (children hp)
        rw [hb]
        exact ⟨t, ht, by simpa using hsame⟩
    · rename_i hb
      simp only [reject_bind]
      split
      · exact .reject
      · rename_i hsame
        refine .pure fun p ⟨hp, _⟩ => ?_
        refine .mk ⟨(hP p hp).1.proper, ⟨rfl, ?_⟩, trivial⟩ (children hp)
        rw [hb]
        simpa using hsame

theorem delivers_intrinsicCall {args : List Expr} (i : ExprInfo) (f : Intrinsic)
    (hP : ∀ p, P p → ∀ a ∈ args, a.Checked p) : Delivers P (intrinsicCall i f args) fun p e => e.Checked p := by
  unfold intrinsicCall
  split
  · rename_i hunknown
    refine .pure fun p hp => ?_
    have hall : (args.all fun a => a.type.isKnown) = true :=
      List.all_eq_true.mpr fun a ha => known_of_checked (hP p hp a ha)
    simp [hall] at hunknown
  · refine .bind (delivers_typing _ _) fun t => .pure fun p ⟨hp, ht⟩ => ?_
    have hproper : ∀ u ∈ args.map Expr.type, u.Proper := by
      intro u hu
      obtain ⟨a, ha, rfl⟩ := List.mem_map.mp hu
      exact (hP p hp a ha).proper
    exact .mk ⟨Intrinsic.resultType_proper hproper ht, ht, trivial⟩ fun c hc => hP p hp c hc

/-- Arguments of which none is refused are of the types of the parameters. -/
theorem delivers_checkArguments (f : Function) {args : List Expr} {params : List Ty} (n : Nat)
    (hlength : args.length = params.length)
    (hP : ∀ p, P p → (∀ a ∈ args, a.Checked p) ∧ ∀ t ∈ params, t.Proper) :
    Delivers P (checkArguments f args params n) fun _ _ => Ty.sameList (args.map Expr.type) params := by
  induction args generalizing params n with
  | nil =>
    cases params with
    | nil => exact .pure fun _ _ => rfl
    | cons t ts => cases hlength
  | cons e es ih =>
    cases params with
    | nil => cases hlength
    | cons t ts =>
      unfold checkArguments
      simp only [reject_bind]
      split
      · exact .reject
      · rename_i hsame
        have htail := ih (n + 1) (Nat.succ.inj hlength) fun p hp =>
          ⟨fun a ha => (hP p hp).1 a (List.mem_cons_of_mem _ ha), fun u hu => (hP p hp).2 u (List.mem_cons_of_mem _ hu)⟩
        refine htail.keep.post fun p _ ⟨hp, hes⟩ => ?_
        have hknown := known_of_checked ((hP p hp).1 e List.mem_cons_self)
        have hknown' := ((hP p hp).2 t List.mem_cons_self).isKnown
        have hhead : e.type.same t = true := by simpa [hknown, hknown'] using hsame
        simp only [List.map_cons, Ty.sameList, hhead, hes, Bool.and_self]

/-- A call is to a function that is in the tables, and of which its own body makes no call. -/
theorem delivers_call {target : Expr} {args : List Expr} (i : ExprInfo)
    (hP : ∀ p, P p → target.Checked p ∧ ∀ a ∈ args, a.Checked p) :
    Delivers P (call i target args) fun p e => e.Checked p := by
  unfold call
  split
  · rename_i j id
    refine ⟨fun {site σ e σ'} h => ?_⟩
    obtain ⟨s, σ₁, hs, hrest⟩ := bind_ok.mp h
    obtain ⟨rfl, rfl⟩ := getSession_ok.mp hs
    cases hf : σ₁.session.functions.lookup id with
    | none => simp [hf] at hrest
    | some f =>
      simp only [hf, reject_bind] at hrest
      obtain ⟨r, σ₂, hr, hchecks⟩ := bind_ok.mp hrest
      obtain ⟨rfl, rfl⟩ := read_ok.mp hr
      split at hchecks
      · exact (reject_ok.mp hchecks).elim
      rename_i hself
      split at hchecks
      · exact (reject_ok.mp hchecks).elim
      rename_i hentry
      split at hchecks
      · exact (reject_ok.mp hchecks).elim
      rename_i hlength
      let Target (q : Place) : Prop :=
        Referent.function f ∈ q.context ∧ Referent.Proper (.function f) ∧ f.id = id ∧ ∀ g ∈ q.function, id < g.id
      have tail : Delivers (fun q => P q ∧ Target q)
          (do checkArguments f args f.params 1; pure (Expr.call { i with type := f.result } (.function j id) args))
          fun p e => e.Checked p := by
        refine .bind (delivers_checkArguments f 1 (by simpa using hlength) fun q ⟨hq, _, hproper, _⟩ => ?_) fun _ => ?_
        · exact ⟨(hP q hq).2, (Ty.properList_iff _).mp hproper.1⟩
        · refine .pure fun q ⟨⟨hq, hmem, hproper, hid, horder⟩, hsame⟩ => ?_
          refine .mk ⟨hproper.2, ⟨j, f, by rw [hid], hmem, hsame, rfl⟩, ?_⟩ fun c hc => ?_
          · exact ⟨⟨f, hmem, hid, by simpa using hentry⟩, horder⟩
          · rcases List.mem_cons.mp hc with rfl | hc
            · exact (hP q hq).1
            · exact (hP q hq).2 c hc
      obtain ⟨qs, hqs, hnone, hpost⟩ := tail.run hchecks
      refine ⟨qs, hqs, hnone, fun env p hsees hp => hpost env p hsees fun q hq => ⟨hp q hq, ?_⟩⟩
      obtain ⟨g, hg, hid, -⟩ := (hP p hp.here).1.consistent
      have hrecorded : σ₂.session.functions.lookup g.id = some g := hsees.recorded _ hg
      rw [hid, hf] at hrecorded
      cases hrecorded
      refine ⟨hq.context hg, hsees.proper _ hg, hid, fun caller hcaller => ?_⟩
      rw [← hq.function, hsees.function] at hcaller
      have hle := hsees.order caller hcaller f hg
      have hne : caller.id ≠ f.id := by
        intro heq
        rw [Option.mem_def.mp hcaller] at hself
        simp [heq] at hself
      omega
  · exact delivers_intrinsicCall _ _ fun p hp => (hP p hp).2
  · exact .pure fun p hp => (hP p hp).1.consistent.elim
  · exact .reject

theorem delivers_methodCall {object : Expr} {args : List Expr} (i : ExprInfo) (name : Text)
    (hP : ∀ p, P p → object.Checked p ∧ ∀ a ∈ args, a.Checked p) :
    Delivers P (methodCall i object name args) fun p e => e.Checked p := by
  unfold methodCall
  dsimp only
  split
  · rename_i hunknown
    refine .pure fun p hp => ?_
    have := known_of_checked (hP p hp).1
    rw [hunknown] at this
    cases this
  · split
    · exact delivers_intrinsicCall _ _ fun p hp => List.forall_mem_cons.mpr (hP p hp)
    · exact .reject
  · rename_i t n _
    split
    · exact .reject
    · split
      · exact .reject
      · split
        · refine .pure fun p hp => Expr.checked_ofValue (t := .prim .u32) _ ?_ rfl
          exact (by decide : Primitive.u32 ∈ Primitive.named)
        · exact delivers_intrinsicCall _ _ fun p hp => List.forall_mem_singleton.mpr (hP p hp).1
  · exact .reject

theorem reads_checkRange (e : Expr) (length : UInt32) (t : Ty) : Reads (checkRange e length t) := by
  refine .bind (.evaluate e) fun r => ?_
  split
  · exact .pure _
  · split
    · split
      · exact .reject _ _
      · exact .pure _
    · exact .pure _

/-- The number that a value stands for is that of a member. -/
theorem selects_of_toInt {Γ : List Referent} {e : Expr} {v : Value} {n : Int} (he : e.Evaluates Γ v)
    (hn : v.toInt? = some n) (hpos : 0 ≤ n) : e.Selects Γ n.toNat := by
  cases v with
  | i32 x =>
    cases hn
    refine .inl ?_
    have hx : Int32.ofNat x.toInt.toNat = x := by
      apply Int32.toInt_inj.mp
      have hlt := x.toInt_lt
      rw [Int32.toInt_ofNat_of_lt (by omega)]
      omega
    rwa [hx]
  | u32 x =>
    cases hn
    refine .inr ?_
    have hx : UInt32.ofNat (x.toNat : Int).toNat = x := by simp
    rwa [hx]
  | _ => cases hn

theorem delivers_memberType {e : Expr} (r : Record Ty) (hP : ∀ p, P p → e.Checked p) :
    Delivers P (memberType e r) fun p t => ∃ k m, r.members[k]? = some m ∧ e.Selects p.context k ∧ t = m.2 := by
  refine .of_reads (fun hpq ⟨k, m, hm, hk, ht⟩ => ⟨k, m, hm, hk.imp (·.mono hpq.context) (·.mono hpq.context), ht⟩)
    fun {site σ t σ'} h => ?_
  obtain ⟨v, σ₁, hv, hrest⟩ := bind_ok.mp h
  obtain ⟨rfl, rfl⟩ := evaluate_ok.mp hv
  cases hvalue : e.evaluate σ₁.session.value? with
  | error err => simp [hvalue, Except.toOption] at hrest
  | ok v =>
    cases hn : v.toInt? with
    | none => simp [hvalue, Except.toOption, hn] at hrest
    | some n =>
      simp only [hvalue, Except.toOption, Option.bind_some, hn] at hrest
      cases hm : if n < 0 then none else r.members[n.toNat]? with
      | none => simp [hm] at hrest
      | some m =>
        simp only [hm, pure_ok] at hrest
        obtain ⟨rfl, rfl⟩ := hrest
        split at hm
        · cases hm
        · refine ⟨rfl, fun p hsees hp => ⟨n.toNat, m, hm, ?_, rfl⟩⟩
          exact selects_of_toInt ((hP p hp).evaluates hsees.agrees hvalue) hn (by omega)

theorem delivers_indexedType (span : Span) {t : Ty} {es : List Expr}
    (hP : ∀ p, P p → t.Proper ∧ ∀ e ∈ es, e.Checked p) :
    Delivers P (indexedType span t es) fun p r => ∃ u, r = some u ∧ Expr.IndexPath p.context t es u := by
  induction es generalizing t P with
  | nil => exact .pure fun _ _ => ⟨t, rfl, .nil⟩
  | cons e es ih =>
    have rest {u : Ty} {P' : Place → Prop} (hP' : ∀ p, P' p → P p)
        (hstep : ∀ p, P' p → Expr.IndexStep p.context e t u)
        (htype : e.type.isPrim .i32 || e.type.isPrim .u32) :
        Delivers P' (indexedType span u es) fun p r => ∃ u, r = some u ∧ Expr.IndexPath p.context t (e :: es) u := by
      have htail := ih (P := P') (t := u) fun p hp =>
        ⟨(hP p (hP' p hp)).1.indexStep (hstep p hp), fun e he => (hP p (hP' p hp)).2 e (List.mem_cons_of_mem _ he)⟩
      refine htail.keep.post fun p r ⟨hp, v, hr, hpath⟩ => ⟨v, hr, .cons ?_ (hstep p hp) hpath⟩
      rw [Bool.or_eq_true] at htype
      exact htype.imp Ty.eq_of_isPrim Ty.eq_of_isPrim
    unfold indexedType
    split
    · rename_i hunknown
      refine .pure fun p hp => ?_
      have hknown := known_of_checked ((hP p hp).2 e List.mem_cons_self)
      simp [hknown, (hP p hp).1.isKnown] at hunknown
    · simp only [reject_bind]
      split
      · exact .reject
      · rename_i htype
        rw [Bool.not_eq_true, Bool.not_eq_false'] at htype
        split
        · split
          · refine .bind (.of_reads_only (reads_checkRange _ _ _)) fun _ => ?_
            exact rest (fun p hp => hp.1) (fun _ _ => .array) htype
          · exact rest (fun p hp => hp) (fun _ _ => .array) htype
        · refine .bind (.of_reads_only (reads_checkRange _ _ _)) fun _ => ?_
          exact rest (fun p hp => hp.1) (fun _ _ => .vector) htype
        · refine .bind (.of_reads_only (reads_checkRange _ _ _)) fun _ => ?_
          exact rest (fun p hp => hp.1) (fun _ _ => .matrix) htype
        · split
          · rename_i r hr
            refine .bind (delivers_memberType r fun p hp => (hP p hp).2 e List.mem_cons_self) fun u => ?_
            refine rest (fun p hp => hp.1) (fun p ⟨_, k, m, hm, hk, hu⟩ => ?_) htype
            rw [hu]
            exact .member hr hm hk
          · exact .reject

theorem delivers_indexed {base : Expr} {indices : List Expr} (i : ExprInfo)
    (hP : ∀ p, P p → base.Checked p ∧ ∀ e ∈ indices, e.Checked p) :
    Delivers P (indexed i base indices) fun p e => e.Checked p := by
  refine .bind (delivers_indexedType _ fun p hp => ⟨(hP p hp).1.proper, (hP p hp).2⟩) fun r => ?_
  split
  · rename_i t
    refine .pure fun p ⟨hp, u, hu, hpath⟩ => ?_
    cases hu
    refine .mk ⟨(hP p hp).1.proper.indexPath hpath, hpath, trivial⟩ fun c hc => ?_
    rcases List.mem_cons.mp hc with rfl | hc
    · exact (hP p hp).1
    · exact (hP p hp).2 c hc
  · exact .pure fun p ⟨_, u, hu, _⟩ => (by cases hu)

theorem length_components_ofList {cs : List UInt32} (h : cs.length ≤ 4) : (Selector.ofList cs).count.toNat = cs.length := by
  simp only [Selector.ofList, Nat.toUInt32, UInt32.toNat_ofNat']
  omega

theorem components_ofList {cs : List UInt32} (h : cs.length ≤ 4) : (Selector.ofList cs).components = cs := by
  rw [Selector.components, length_components_ofList h]
  rcases cs with _ | ⟨a, _ | ⟨b, _ | ⟨c, _ | ⟨d, _ | ⟨e, cs⟩⟩⟩⟩⟩
  case cons.cons.cons.cons.cons =>
    simp only [List.length_cons] at h
    omega
  all_goals rfl

theorem count_ofList {cs : List UInt32} (h : 1 ≤ cs.length ∧ cs.length ≤ 4) :
    1 ≤ (Selector.ofList cs).count ∧ (Selector.ofList cs).count ≤ 4 := by
  have hnat := length_components_ofList h.2
  have hone : (1 : UInt32).toNat = 1 := rfl
  have hfour : (4 : UInt32).toNat = 4 := rfl
  constructor <;> rw [UInt32.le_iff_toNat_le] <;> omega

theorem scalarOrVector_vectorOf (p : Primitive) (n : UInt32) : (Ty.vectorOf p n).scalarOrVector? = some p := by
  unfold Ty.vectorOf
  split <;> rfl

theorem components_vectorOf (p : Primitive) (n : UInt32) : (Ty.vectorOf p n).components = n := by
  unfold Ty.vectorOf
  split
  · rename_i h
    exact h.symm
  · rfl

/-- A selection of components that exist is checked. -/
theorem checked_swizzle {p : Place} {base : Expr} {q : Primitive} {cs : List UInt32} (span : Span)
    (hbase : base.Checked p) (hq : base.type.scalarOrVector? = some q) (hlength : 1 ≤ cs.length ∧ cs.length ≤ 4)
    (hcs : ∀ c ∈ cs, c < base.type.components) :
    (Expr.swizzle ⟨span, Ty.vectorOf q cs.length.toUInt32⟩ base (Selector.ofList cs)).Checked p := by
  have hcount := count_ofList hlength
  refine .mk ⟨?_, ⟨q, hq, hcount, ?_, rfl⟩, trivial⟩ fun c hc => ?_
  · exact Ty.proper_vectorOf (hbase.proper.scalarOrVector hq) hcount
  · rw [components_ofList hlength.2]
    exact hcs
  · rw [Expr.children, List.mem_singleton] at hc
    rw [hc]
    exact hbase

theorem delivers_swizzled {source : Expr} {q : Primitive} (components : List UInt32) (span : Span)
    (hq : source.type.scalarOrVector? = some q) (hP : ∀ p, P p → source.Checked p) :
    Delivers P (swizzled source components span) fun p e => e.Checked p := by
  unfold swizzled
  simp only [reject_bind]
  split
  · split <;> exact .reject
  rename_i hrange
  split
  · exact .reject
  rename_i hcount
  have hlength : 1 ≤ components.length ∧ components.length ≤ 4 := by
    cases components with
    | nil => simp at hcount
    | cons c cs => simp at hcount ⊢; omega
  have hcomponents : ∀ c ∈ components, c < source.type.components := by simpa using hrange
  -- the base that is selected from, with the components that are selected of it
  have selection {base : Expr} {all : List UInt32}
      (hbase : ∀ p, P p → base.Checked p ∧ base.type.scalarOrVector? = some q ∧
        all.length = components.length ∧ ∀ c ∈ all, c < base.type.components) :
      Delivers P (if base.type.components = 1 && all.length = 1 then pure base
        else if base.type.isVector && base.type.components.toNat = all.length && isIdentity all then pure base
        else pure (.swizzle ⟨span, Ty.vectorOf (source.type.scalarOrVector?.getD .bool) all.length.toUInt32⟩ base
          (Selector.ofList all))) fun p e => e.Checked p := by
    split
    · exact .pure fun p hp => (hbase p hp).1
    split
    · exact .pure fun p hp => (hbase p hp).1
    · refine .pure fun p hp => ?_
      obtain ⟨hchecked, htype, hall, hcs⟩ := hbase p hp
      rw [hq, Option.getD_some]
      exact checked_swizzle span hchecked htype (by omega) hcs
  cases source with
  | swizzle i inner s =>
    refine selection fun p hp => ?_
    have hinner : inner.Checked p := (hP p hp).child (by simp [Expr.children])
    obtain ⟨q', hq', ⟨-, hs⟩, hcs, htype⟩ := (hP p hp).consistent
    replace htype : (Expr.swizzle i inner s).type = Ty.vectorOf q' s.count := htype
    rw [htype, scalarOrVector_vectorOf] at hq
    refine ⟨hinner, hq'.trans hq, by simp [Swizzle.compose], fun c hc => ?_⟩
    obtain ⟨d, hd, rfl⟩ := List.mem_map.mp hc
    have hlt := hcomponents d hd
    rw [htype, components_vectorOf] at hlt
    have hlt' : d.toNat < s.components.length := by
      rw [Selector.length_components hs]
      exact UInt32.lt_iff_toNat_lt.mp hlt
    rw [List.getD_eq_getElem?_getD, List.getElem?_eq_getElem hlt', Option.getD_some]
    exact hcs _ (List.getElem_mem _)
  | _ => exact selection fun p hp => ⟨hP p hp, hq, rfl, hcomponents⟩

theorem IndexPath_append {Γ : List Referent} {t u v : Ty} {es : List Expr} {e : Expr}
    (h : Expr.IndexPath Γ t es u) (h' : Expr.IndexPath Γ u [e] v) : Expr.IndexPath Γ t (es ++ [e]) v := by
  induction h with
  | nil => exact h'
  | cons he hstep _ ih => exact .cons he hstep (ih h')

/-- Members that are selected one after the other are one access. -/
theorem checked_selectMember {p : Place} {base index : Expr} {t : Ty} (span : Span) (hbase : base.Checked p)
    (hindex : index.Checked p) (ht : t.Proper) (hpath : Expr.IndexPath p.context base.type [index] t) :
    (selectMember span base index t).Checked p := by
  unfold selectMember
  split
  · rename_i i b is
    refine .mk ⟨ht, IndexPath_append hbase.consistent hpath, trivial⟩ fun c hc => ?_
    rcases List.mem_cons.mp hc with rfl | hc
    · exact hbase.child (by simp [Expr.children])
    · rcases List.mem_append.mp hc with hc | hc
      · exact hbase.child (by simp [Expr.children, hc])
      · rw [List.mem_singleton.mp hc]
        exact hindex
  · refine .mk ⟨ht, hpath, trivial⟩ fun c hc => ?_
    simp only [Expr.children, List.mem_cons, List.not_mem_nil, or_false] at hc
    rcases hc with rfl | rfl
    · exact hbase
    · exact hindex

theorem delivers_membersOf (i : ExprInfo) {base : Expr} (names : List Name) (hP : ∀ p, P p → base.Checked p) :
    Delivers P (membersOf i base names) fun p e => e.Checked p := by
  induction names generalizing base P with
  | nil => exact .pure hP
  | cons n ns ih =>
    unfold membersOf
    dsimp only
    split
    · rename_i hunknown
      refine .pure fun p hp => ?_
      simp [known_of_checked (hP p hp)] at hunknown
    · split
      · rename_i r hr
        split
        · exact .reject
        · rename_i k hk
          refine ih fun p hp => ?_
          have hlt := List.of_findIdx?_eq_some hk
          cases hm : r.members[k]? with
          | none => simp [hm] at hlt
          | some m =>
            have hi32 : (Ty.prim .i32).Proper := (by decide : Primitive.i32 ∈ Primitive.named)
            have hpath : Expr.IndexPath p.context base.type [.ofValue n.span (.i32 (Int32.ofNat k))] m.2 := by
              refine .cons (.inl rfl) (.member hr hm (.inl ?_)) .nil
              exact ⟨fun _ => none, fun _ _ h => (by cases h), rfl⟩
            refine checked_selectMember _ (hP p hp) (Expr.checked_ofValue (t := .prim .i32) _ hi32 rfl) ?_ hpath
            exact (hP p hp).proper.indexPath hpath
      · rename_i hnone
        simp only [reject_bind]
        split
        · exact .reject
        · rename_i hq
          obtain ⟨q, hq⟩ := Option.ne_none_iff_exists'.mp (by simpa using hq)
          split
          · exact .reject
          · rename_i components _
            refine .bind (delivers_swizzled components i.span hq hP) fun e => ?_
            exact ih fun p hp => hp.2

end Shading.Check
