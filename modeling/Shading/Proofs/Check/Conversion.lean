import Shading.Proofs.Check.Operation

/-! Conversions, and matrices that are built from columns. -/
namespace Shading

namespace Stmt

/-- The declaration of a temporary variable. -/
theorem everywhere_temp {env : Surroundings} {p : Place} {name : Text} {t : Ty} {init : Expr} {id : Int} (span : Span)
    (hinit : init.Checked p) (ht : Node.Valid p (.expr (.ofType span t))) (hsame : t.same init.type) :
    Everywhere env Node.Valid p (.letVar span { name, type := .ofType span t, init, id }) := by
  refine ⟨.inr ⟨⟨_, _, rfl⟩, .inr hsame⟩, fun e he n hn => ?_⟩
  simp only [ownExprs, List.mem_cons, List.not_mem_nil, or_false] at he
  rcases he with rfl | rfl
  · rw [Expr.nodes_eq rfl] at hn
    rw [List.mem_singleton.mp hn]
    exact ht
  · exact hinit.of_mem_nodes hn

end Stmt

namespace Check

variable {P : Place → Prop}

theorem hoist_ok {what : Text} {t : Ty} {init e : Expr} {site : Site} {σ σ' : State}
    (h : hoist what t init site σ = .ok (e, σ')) :
    e = .ofVar init.span σ.session.nextVar t ∧
      Hoists σ σ' [.letVar init.span
        { name := Supply.tempName what σ.draft.temporaries, type := .ofType init.span t, init, id := σ.session.nextVar }] := by
  cases h
  refine ⟨rfl, ⟨_, rfl⟩, ⟨_, rfl⟩, ?_, fun q hq => ⟨_, _, List.mem_singleton.mp hq⟩⟩
  rw [List.flatMap_singleton, Stmt.keys_letVar]
  show Numbered σ.session _ [(.variable, σ.session.next .variable)]
  refine .one rfl fun other hother => ?_
  cases other with
  | «variable» => exact (hother rfl).elim
  | _ => rfl

end Check

theorem Value.type_scalar {p : Primitive} (hp : p.isFloat) (b : Bool) : (Value.scalar p b).type = .prim p := by
  cases p with
  | f32 | f64 => rfl
  | _ => cases hp

namespace Expr

variable {p : Place} {read : Expr} {d s r : UInt32} {q : Primitive}

theorem checked_identityColumn (span : Span) (hr : Ty.IsSize r) (hq : q.isFloat) (c : Nat) :
    (ofValue span (.vector ((List.range r.toNat).map fun k => identityEntry q k c))).Checked p ∧
      (ofValue span (.vector ((List.range r.toNat).map fun k => identityEntry q k c))).type = .vector r q := by
  have hproper : (Ty.vector r q).Proper := ⟨hr, Primitive.mem_named_of_isFloat hq⟩
  have hvalue : (Value.vector ((List.range r.toNat).map fun k => identityEntry q k c)).HasType (.vector r q) := by
    refine ⟨_, rfl, by rw [List.length_map, List.length_range], fun x hx => ?_⟩
    obtain ⟨k, -, rfl⟩ := List.mem_map.mp hx
    exact Value.type_scalar hq _
  exact ⟨checked_ofValue span hproper hvalue, hvalue.type_eq hproper⟩

theorem checked_column (span : Span) (hread : read.Checked p) (htype : read.type = .matrix d s q) (c : Nat) :
    (Expr.index ⟨span, .vector s q⟩ read [ofValue span (.i32 (Int32.ofNat c))]).Checked p := by
  have hi32 : (Ty.prim .i32).Proper := (by decide : Primitive.i32 ∈ Primitive.named)
  have hmatrix := hread.proper
  rw [htype] at hmatrix
  refine .mk ⟨⟨hmatrix.2.1, Primitive.mem_named_of_isFloat hmatrix.2.2⟩, ?_, trivial⟩ fun e he => ?_
  · show IndexPath p.context read.type _ _
    rw [htype]
    exact .cons (.inl rfl) .matrix .nil
  · simp only [children, List.mem_cons, List.not_mem_nil, or_false] at he
    rcases he with rfl | rfl
    · exact hread
    · exact checked_ofValue (t := .prim .i32) span hi32 rfl

theorem checkParts_ok {target : Ty} {ts : List Ty} (hts : ∀ t ∈ ts, t = .prim q) (total : UInt32) :
    Ty.checkParts target q ts total = .ok (total + ts.length.toUInt32) := by
  induction ts generalizing total with
  | nil => simp [Ty.checkParts]
  | cons t ts ih =>
    rw [List.forall_mem_cons] at hts
    rw [hts.1, Ty.checkParts]
    simp only [Ty.scalarOrVector?, beq_self_eq_true, if_true, Ty.components, ih hts.2, List.length_cons, Nat.toUInt32,
      UInt32.ofNat_add]
    rw [UInt32.add_assoc, UInt32.add_comm 1]
    rfl

/-- A vector is made longer by scalars. -/
theorem checkVector_ok {ts : List Ty} (hts : ∀ t ∈ ts, t = .prim q) (hlength : s.toNat + ts.length = r.toNat)
    (hpos : ts ≠ []) : Ty.checkVector r q (.vector s q :: ts) = .ok () := by
  obtain ⟨t, rest, rfl⟩ := List.exists_cons_of_ne_nil hpos
  unfold Ty.checkVector
  have htotal : s + (t :: rest).length.toUInt32 = r := by
    apply UInt32.toNat_inj.mp
    have hr := r.toNat_lt
    rw [UInt32.toNat_add, Nat.toUInt32, UInt32.toNat_ofNat']
    omega
  have hparts : Ty.checkParts (.vector r q) q (.vector s q :: t :: rest) 0 = .ok r := by
    rw [Ty.checkParts]
    simp only [Ty.scalarOrVector?, beq_self_eq_true, if_true, Ty.components, UInt32.zero_add]
    rw [checkParts_ok hts, htotal]
  simp only [hparts]
  simp [bind, Except.bind]

/-- The type of the first components of a vector. -/
theorem vectorOf_range (q : Primitive) (hr : Ty.IsSize r) :
    Ty.vectorOf q ((List.range r.toNat).map Nat.toUInt32).length.toUInt32 = .vector r q := by
  have hge := UInt32.le_iff_toNat_le.mp hr.1
  have htwo : (2 : UInt32).toNat = 2 := rfl
  rw [List.length_map, List.length_range, Nat.toUInt32, UInt32.ofNat_toNat, Ty.vectorOf, if_neg]
  intro hone
  have : r.toNat = 1 := by rw [hone]; rfl
  omega

theorem checked_narrowed {column : Expr} (span : Span) (hcolumn : column.Checked p) (htype : column.type = .vector s q)
    (hr : Ty.IsSize r) (hlt : r < s) :
    (Expr.swizzle ⟨span, .vector r q⟩ column (Selector.ofList ((List.range r.toNat).map Nat.toUInt32))).Checked p := by
  have hle := UInt32.le_iff_toNat_le.mp hr.2
  have hge := UInt32.le_iff_toNat_le.mp hr.1
  have hlt' := UInt32.lt_iff_toNat_lt.mp hlt
  have htwo : (2 : UInt32).toNat = 2 := rfl
  have hfour : (4 : UInt32).toNat = 4 := rfl
  have hlength : ((List.range r.toNat).map Nat.toUInt32).length = r.toNat := by rw [List.length_map, List.length_range]
  rw [← vectorOf_range q hr]
  refine Check.checked_swizzle span hcolumn (by rw [htype]; rfl) (by omega) fun c hc => ?_
  obtain ⟨k, hk, rfl⟩ := List.mem_map.mp hc
  rw [htype, Ty.components, UInt32.lt_iff_toNat_lt, Nat.toUInt32, UInt32.toNat_ofNat']
  have := List.mem_range.mp hk
  omega

theorem checked_widened {column : Expr} (span : Span) (hcolumn : column.Checked p) (htype : column.type = .vector s q)
    (hq : q.isFloat) (hr : Ty.IsSize r) (hlt : s < r) (c : Nat) :
    (Expr.cast ⟨span, .vector r q⟩ (ofType span (.vector r q)) (column ::
      (List.range' s.toNat (r.toNat - s.toNat)).map fun k => ofValue span (identityEntry q k c))).Checked p := by
  have hlt' := UInt32.lt_iff_toNat_lt.mp hlt
  have hnamed := Primitive.mem_named_of_isFloat hq
  have hproper : (Ty.vector r q).Proper := ⟨hr, hnamed⟩
  have hentry (k : Nat) : (ofValue span (identityEntry q k c)).Checked p :=
    checked_ofValue (t := .prim q) span hnamed (Value.type_scalar hq _)
  refine .mk ⟨hproper, ⟨⟨_, rfl⟩, ?_⟩, trivial⟩ fun e he => ?_
  · simp only [List.map_cons, htype, List.map_map]
    refine checkVector_ok (fun t ht => ?_) ?_ ?_
    · obtain ⟨k, -, rfl⟩ := List.mem_map.mp ht
      exact Value.type_scalar hq _
    · rw [List.length_map, List.length_range']
      omega
    · intro hnil
      have := congrArg List.length hnil
      rw [List.length_map, List.length_range', List.length_nil] at this
      omega
  · simp only [children, List.mem_cons] at he
    rcases he with rfl | rfl | he
    · exact checked_ofType span ⟨hproper, fun r hr => (by cases hr)⟩
    · exact hcolumn
    · obtain ⟨k, -, rfl⟩ := List.mem_map.mp he
      exact hentry k

theorem checked_resizedColumn (span : Span) (hread : read.Checked p) (htype : read.type = .matrix d s q)
    (hr : Ty.IsSize r) (c : Nat) :
    (resizedColumn span read d s r q q c).Checked p ∧ (resizedColumn span read d s r q q c).type = .vector r q := by
  have hmatrix := hread.proper
  rw [htype] at hmatrix
  obtain ⟨-, hs, hq⟩ := hmatrix
  have hcolumn := checked_column span hread htype c
  unfold resizedColumn
  split
  · exact checked_identityColumn span hr hq c
  · dsimp only
    split
    · rename_i heq
      rw [heq]
      exact ⟨hcolumn, rfl⟩
    · rename_i hne
      split
      · rename_i hlt
        exact ⟨checked_narrowed span hcolumn rfl hr hlt, rfl⟩
      · rename_i hnot
        refine ⟨checked_widened span hcolumn rfl hq hr ?_ c, rfl⟩
        rw [UInt32.lt_iff_toNat_lt] at hnot ⊢
        have hne' : r.toNat ≠ s.toNat := fun h => hne (UInt32.toNat_inj.mp h)
        omega

theorem checked_resizedMatrix {columns : UInt32} (span : Span) (hread : read.Checked p)
    (htype : read.type = .matrix d s q) (hc : Ty.IsSize columns) (hr : Ty.IsSize r) :
    (resizedMatrix span read d s q columns r q).Checked p := by
  have hq : q.isFloat := by
    have hmatrix := hread.proper
    rw [htype] at hmatrix
    exact hmatrix.2.2
  have hproper : (Ty.matrix columns r q).Proper := ⟨hc, hr, hq⟩
  have hcolumn := checked_resizedColumn span hread htype hr
  refine .mk ⟨hproper, ⟨⟨_, rfl⟩, ?_⟩, trivial⟩ fun e he => ?_
  · have hall : (((List.range columns.toNat).map (resizedColumn span read d s r q q)).map Expr.type).all
        fun t => t.same (.vector r q) := by
      rw [List.all_eq_true]
      intro t ht
      obtain ⟨e, he, rfl⟩ := List.mem_map.mp ht
      obtain ⟨c, -, rfl⟩ := List.mem_map.mp he
      rw [(hcolumn c).2]
      simp [Ty.same]
    simp only [Ty.construct, hall, List.length_map, List.length_range, beq_self_eq_true, Bool.and_true, Bool.or_true,
      Bool.true_or, if_true]
  · rcases List.mem_cons.mp he with rfl | he
    · exact checked_ofType span ⟨hproper, fun r hr => (by cases hr)⟩
    · obtain ⟨c, -, rfl⟩ := List.mem_map.mp he
      exact (hcolumn c).1

end Expr

namespace Check

variable {P : Place → Prop}

theorem delivers_foldCast (span : Span) {t : Ty} (args : List Expr) (ht : ∀ p, P p → t.Proper) :
    Delivers P (foldCast span t args) fun _ r => ∀ v, r = some v → v.HasType t := by
  unfold foldCast
  split
  · exact .pure fun _ _ v hv => (by cases hv)
  · refine .of_reads (fun _ h => h) fun {site σ r σ'} h => ?_
    obtain ⟨s, σ₁, hs, hrest⟩ := bind_ok.mp h
    obtain ⟨rfl, rfl⟩ := getSession_ok.mp hs
    cases hvalues : Expr.evaluateAll σ₁.session.value? args with
    | error err =>
      simp only [hvalues, pure_ok] at hrest
      obtain ⟨rfl, rfl⟩ := hrest
      exact ⟨rfl, fun _ _ _ v hv => (by cases hv)⟩
    | ok vs =>
      simp only [hvalues] at hrest
      cases hcast : Value.cast t vs with
      | error err => simp [hcast] at hrest
      | ok w =>
        simp only [hcast, pure_ok] at hrest
        obtain ⟨rfl, rfl⟩ := hrest
        refine ⟨rfl, fun p _ hp v hv => ?_⟩
        cases hv
        exact .cast (ht p hp) hcast

theorem delivers_expandMatrix (span : Span) {arg : Expr} {c r d s : UInt32} {q q' : Primitive}
    (hP : ∀ p, P p → Ty.IsSize c ∧ Ty.IsSize r ∧ arg.Checked p ∧ q' = q) (htype : arg.type = .matrix d s q') :
    Delivers P (expandMatrix span arg c r q d s q') fun p e => e.Checked p := by
  have result {p : Place} (hp : P p) {source : Expr} (hsource : source.Checked p) (hsourceType : source.type = arg.type) :
      (Expr.resizedMatrix span source d s q' c r q).Checked p := by
    obtain ⟨hc, hr, -, rfl⟩ := hP p hp
    exact Expr.checked_resizedMatrix span hsource (hsourceType.trans htype) hc hr
  refine ⟨fun {site σ e σ'} h => ?_⟩
  obtain ⟨site', σ₁, hread, hrest⟩ := bind_ok.mp h
  obtain ⟨rfl, rfl⟩ := read_ok.mp hread
  dsimp only at hrest
  split at hrest
  · rename_i hcond
    obtain ⟨source, σ₂, hsource, hpure⟩ := bind_ok.mp hrest
    obtain ⟨rfl, rfl⟩ := pure_ok.mp hpure
    obtain ⟨rfl, hqs⟩ := hoist_ok hsource
    refine ⟨_, hqs, fun hnone => ?_, fun env p hsees hp => ?_⟩
    · simp [hnone] at hcond
    · have harg := (hP p hp.here).2.2.1
      have hproper : (Ty.matrix d s q').Proper := htype ▸ harg.proper
      have hknown : Known p.context (.matrix d s q') := ⟨hproper, fun r hr => (by cases hr)⟩
      have hsame : (Ty.matrix d s q').same arg.type := by rw [htype]; simp [Ty.same]
      refine ⟨⟨Stmt.everywhere_temp _ harg (Expr.checked_ofType _ hknown).valid hsame, trivial⟩, fun q₁ hq₁ => ?_⟩
      have hmem : Referent.variable σ₁.session.nextVar (.matrix d s q') ∈ q₁.context :=
        hq₁.context List.mem_cons_self
      refine result (hp.move ((Place.Within.refl p).after_right _) q₁ hq₁) ?_ htype.symm
      exact .mk ⟨hproper, hmem, trivial⟩ fun c hc => (by cases hc)
  · rw [pure_bind, pure_ok] at hrest
    obtain ⟨rfl, rfl⟩ := hrest
    refine ⟨[], .refl _, fun _ => rfl, fun env p _ hp => ⟨trivial, fun q₁ hq₁ => ?_⟩⟩
    exact result (hp q₁ hq₁) (hP q₁ (hp q₁ hq₁)).2.2.1 rfl

/-- A matrix is built from another one of the same component type only. -/
theorem construct_matrix {c r d s : UInt32} {q q' : Primitive}
    (h : (Ty.matrix c r q).construct [.matrix d s q'] = .ok ()) : q' = q := by
  unfold Ty.construct at h
  dsimp only at h
  split at h
  · rename_i hcond
    simpa [Ty.isResizable, Ty.same, Ty.isPrim] using hcond
  · cases h

theorem delivers_cast (i : ExprInfo) (target : Expr) {t : Ty} {args : List Expr}
    (hP : ∀ p, P p → Known p.context t ∧ ∀ a ∈ args, a.Checked p) :
    Delivers P (cast i target t args) fun p e => e.Checked p := by
  unfold cast
  dsimp only
  split
  · rename_i hunknown
    refine .pure fun p hp => ?_
    simp [(hP p hp).1.1.isKnown] at hunknown
  split
  · rename_i hunknown
    refine .pure fun p hp => ?_
    have hall : (args.all fun a => a.type.isKnown) = true :=
      List.all_eq_true.mpr fun a ha => known_of_checked ((hP p hp).2 a ha)
    simp [hall] at hunknown
  refine .bind (delivers_foldCast i.span args fun p hp => (hP p hp).1.1) fun r => ?_
  cases r with
  | some v => exact .pure fun p hp => Expr.checked_ofValue _ (hP p hp.1).1.1 (hp.2 v rfl)
  | none =>
    refine .bind (delivers_typing _ _) fun _ => ?_
    have whole {P' : Place → Prop} (hP' : ∀ p, P' p → P p ∧ t.construct (args.map Expr.type) = .ok ()) :
        Delivers P' (pure (Expr.cast { i with type := t } (.ofType target.span t) args)) fun p e => e.Checked p := by
      refine .pure fun p hp => ?_
      obtain ⟨hp, hconstruct⟩ := hP' p hp
      refine .mk ⟨(hP p hp).1.1, ⟨⟨_, rfl⟩, hconstruct⟩, trivial⟩ fun c hc => ?_
      rcases List.mem_cons.mp hc with rfl | hc
      · exact Expr.checked_ofType _ (hP p hp).1
      · exact (hP p hp).2 c hc
    split
    · split
      · rename_i htype
        refine .bind (.of_reads_only .read) fun site => ?_
        split
        · refine delivers_expandMatrix _ (fun p ⟨⟨⟨hp, _⟩, hconstruct⟩, _⟩ => ?_) htype
          rw [List.map_singleton, htype] at hconstruct
          exact ⟨(hP p hp).1.1.1, (hP p hp).1.1.2.1, (hP p hp).2 _ List.mem_cons_self, construct_matrix hconstruct⟩
        · exact whole fun p hp => ⟨hp.1.1.1, hp.1.2⟩
      · exact whole fun p hp => ⟨hp.1.1, hp.2⟩
    · exact whole fun p hp => ⟨hp.1.1, hp.2⟩

end Check

end Shading
