import Shading.Lowering
import Shading.Proofs.Walk

/-! Trees without names, whose calls go to some functions only. Lowerings keep them so. -/
namespace Shading

/-- Is a node no name, and does it call one of some functions if it is a call? -/
def Node.Linked (F : Int → Prop) : Node → Prop
  | .expr (.name ..) | .expr (.member ..) | .expr (.method ..) => False
  | .expr (.call _ target _) => ∃ i id, target = .function i id ∧ F id
  | _ => True

variable {F : Int → Prop}

namespace Expr

def Linked (F : Int → Prop) (e : Expr) : Prop := ∀ n ∈ e.nodes, n.Linked F

theorem linked_iff {e : Expr} (h : e.isAbsent = false) :
    e.Linked F ↔ (Node.expr e).Linked F ∧ ∀ c ∈ e.children, c.Linked F := forall_nodes h

/-- What is neither a name nor a call is as its parts are. -/
theorem linked_iff_children (e : Expr) (h : e.isAbsent = false) (hself : (Node.expr e).Linked F) :
    e.Linked F ↔ ∀ c ∈ e.children, c.Linked F := (linked_iff h).trans (and_iff_right hself)

@[simp] theorem linked_absent : Expr.absent.Linked F := fun _ hn => absurd hn List.not_mem_nil

@[simp] theorem linked_name (i : ExprInfo) (n : Text) : ¬ (Expr.name i n).Linked F := fun h => ((linked_iff rfl).mp h).1

@[simp] theorem linked_member (i : ExprInfo) (e : Expr) (ns : List Name) : ¬ (Expr.member i e ns).Linked F :=
  fun h => ((linked_iff rfl).mp h).1

@[simp] theorem linked_method (i : ExprInfo) (e : Expr) (n : Text) (as : List Expr) :
    ¬ (Expr.method i e n as).Linked F := fun h => ((linked_iff rfl).mp h).1

/-- What refers to something is made of nothing else. -/
theorem linked_of_leaf {e : Expr} (hself : (Node.expr e).Linked F) (hchildren : e.children = []) : e.Linked F := by
  cases h : e.isAbsent with
  | true =>
    cases e with
    | absent => exact linked_absent
    | _ => cases h
  | false =>
    rw [linked_iff h, hchildren]
    exact ⟨hself, fun _ hc => absurd hc List.not_mem_nil⟩

@[simp] theorem linked_literal (i : ExprInfo) (v : Value) : (Expr.literal i v).Linked F := linked_of_leaf trivial rfl

@[simp] theorem linked_var (i : ExprInfo) (id : Int) : (Expr.var i id).Linked F := linked_of_leaf trivial rfl

@[simp] theorem linked_const (i : ExprInfo) (id : Int) : (Expr.const i id).Linked F := linked_of_leaf trivial rfl

@[simp] theorem linked_function (i : ExprInfo) (id : Int) : (Expr.function i id).Linked F := linked_of_leaf trivial rfl

@[simp] theorem linked_structRef (i : ExprInfo) (id : Int) : (Expr.structRef i id).Linked F :=
  linked_of_leaf trivial rfl

@[simp] theorem linked_typeRef (i : ExprInfo) (t : Ty) : (Expr.typeRef i t).Linked F := linked_of_leaf trivial rfl

@[simp] theorem linked_intrinsicRef (i : ExprInfo) (f : Intrinsic) : (Expr.intrinsicRef i f).Linked F :=
  linked_of_leaf trivial rfl

@[simp] theorem linked_ofValue (span : Span) (v : Value) : (Expr.ofValue span v).Linked F := linked_literal _ _

@[simp] theorem linked_ofType (span : Span) (t : Ty) : (Expr.ofType span t).Linked F := linked_typeRef _ _

@[simp] theorem linked_ofVar (span : Span) (id : Int) (t : Ty) : (Expr.ofVar span id t).Linked F := linked_var _ _

@[simp] theorem linked_binary (i : ExprInfo) (op : BinaryOp) (l r : Expr) :
    (Expr.binary i op l r).Linked F ↔ l.Linked F ∧ r.Linked F := by
  rw [linked_iff_children (.binary i op l r) rfl trivial]
  simp [children]

@[simp] theorem linked_unary (i : ExprInfo) (op : UnaryOp) (e : Expr) : (Expr.unary i op e).Linked F ↔ e.Linked F := by
  rw [linked_iff_children (.unary i op e) rfl trivial]
  simp [children]

@[simp] theorem linked_assign (i : ExprInfo) (op : AssignOp) (l r : Expr) :
    (Expr.assign i op l r).Linked F ↔ l.Linked F ∧ r.Linked F := by
  rw [linked_iff_children (.assign i op l r) rfl trivial]
  simp [children]

@[simp] theorem linked_cast (i : ExprInfo) (t : Expr) (as : List Expr) :
    (Expr.cast i t as).Linked F ↔ t.Linked F ∧ ∀ a ∈ as, a.Linked F := by
  rw [linked_iff_children (.cast i t as) rfl trivial]
  simp [children]

@[simp] theorem linked_ternary (i : ExprInfo) (c t f : Expr) :
    (Expr.ternary i c t f).Linked F ↔ c.Linked F ∧ t.Linked F ∧ f.Linked F := by
  rw [linked_iff_children (.ternary i c t f) rfl trivial]
  simp [children]

@[simp] theorem linked_index (i : ExprInfo) (b : Expr) (is : List Expr) :
    (Expr.index i b is).Linked F ↔ b.Linked F ∧ ∀ a ∈ is, a.Linked F := by
  rw [linked_iff_children (.index i b is) rfl trivial]
  simp [children]

@[simp] theorem linked_swizzle (i : ExprInfo) (e : Expr) (s : Selector) :
    (Expr.swizzle i e s).Linked F ↔ e.Linked F := by
  rw [linked_iff_children (.swizzle i e s) rfl trivial]
  simp [children]

@[simp] theorem linked_intrinsic (i : ExprInfo) (f : Intrinsic) (as : List Expr) :
    (Expr.intrinsic i f as).Linked F ↔ ∀ a ∈ as, a.Linked F := by
  rw [linked_iff_children (.intrinsic i f as) rfl trivial]
  simp [children]

@[simp] theorem linked_call (i : ExprInfo) (t : Expr) (as : List Expr) :
    (Expr.call i t as).Linked F ↔ (∃ j id, t = .function j id ∧ F id) ∧ ∀ a ∈ as, a.Linked F := by
  rw [linked_iff rfl]
  constructor
  · rintro ⟨htarget, hchildren⟩
    exact ⟨htarget, fun a ha => hchildren a (List.mem_cons_of_mem _ ha)⟩
  · rintro ⟨⟨j, id, rfl, hid⟩, has⟩
    exact ⟨⟨j, id, rfl, hid⟩, List.forall_mem_cons.mpr ⟨linked_function j id, has⟩⟩

theorem linked_resizedColumn (span : Span) {read : Expr} (hread : read.Linked F) (d s r : UInt32) (p q : Primitive)
    (c : Nat) : (resizedColumn span read d s r p q c).Linked F := by
  have hcolumn : (Expr.index ⟨span, .vector s q⟩ read [ofValue span (.i32 (Int32.ofNat c))]).Linked F := by
    simp [hread]
  unfold resizedColumn
  dsimp only
  split
  · exact linked_ofValue _ _
  split
  · exact hcolumn
  split
  · exact (linked_swizzle _ _ _).mpr hcolumn
  · refine (linked_cast _ _ _).mpr ⟨linked_ofType _ _, List.forall_mem_cons.mpr ⟨hcolumn, fun a ha => ?_⟩⟩
    obtain ⟨k, -, rfl⟩ := List.mem_map.mp ha
    exact linked_ofValue _ _

theorem linked_resizedMatrix (span : Span) {read : Expr} (hread : read.Linked F) (d s : UInt32) (q : Primitive)
    (c r : UInt32) (p : Primitive) : (resizedMatrix span read d s q c r p).Linked F := by
  refine (linked_cast _ _ _).mpr ⟨linked_ofType _ _, fun a ha => ?_⟩
  obtain ⟨k, -, rfl⟩ := List.mem_map.mp ha
  exact linked_resizedColumn span hread d s r p q k

end Expr

namespace Stmt

def Linked (F : Int → Prop) (s : Stmt) : Prop := ∀ n ∈ s.nodes, n.Linked F

@[simp] theorem linked_absent : Stmt.absent.Linked F := fun _ hn => absurd hn List.not_mem_nil

theorem linked_iff {s : Stmt} (h : s.isAbsent = false) :
    s.Linked F ↔ (∀ e ∈ s.ownExprs, e.Linked F) ∧ ∀ c ∈ s.children, c.Linked F := by
  refine (forall_nodes h).trans ⟨And.right, fun h => ⟨?_, h⟩⟩
  cases s <;> trivial

@[simp] theorem linked_expr (span : Span) (e : Expr) : (Stmt.expr span e).Linked F ↔ e.Linked F := by
  rw [linked_iff rfl]
  simp [ownExprs, children]

@[simp] theorem linked_letVar (span : Span) (d : VarDecl) :
    (Stmt.letVar span d).Linked F ↔ d.type.Linked F ∧ d.init.Linked F := by
  rw [linked_iff rfl]
  simp [ownExprs, children]

@[simp] theorem linked_const (span : Span) (d : ConstDecl) :
    (Stmt.const span d).Linked F ↔ d.type.Linked F ∧ d.value.Linked F ∧ d.exported.expr.Linked F := by
  rw [linked_iff rfl]
  simp [ownExprs, children]

@[simp] theorem linked_alias (span : Span) (d : AliasDecl) :
    (Stmt.alias span d).Linked F ↔ d.target.Linked F ∧ d.exported.expr.Linked F := by
  rw [linked_iff rfl]
  simp [ownExprs, children]

@[simp] theorem linked_multi (span : Span) (body : List Stmt) :
    (Stmt.multi span body).Linked F ↔ ∀ s ∈ body, s.Linked F := by
  rw [linked_iff rfl]
  simp [ownExprs, children]

@[simp] theorem linked_scoped (span : Span) (body : Stmt) : (Stmt.scoped span body).Linked F ↔ body.Linked F := by
  rw [linked_iff rfl]
  simp [ownExprs, children]

@[simp] theorem linked_block (span : Span) (body : List Stmt) :
    (block span body).Linked F ↔ ∀ s ∈ body, s.Linked F := by
  rw [block, linked_scoped, linked_multi]

@[simp] theorem linked_branch (span : Span) (isConst : Bool) (arms : List (Expr × Stmt)) (other : Stmt) :
    (Stmt.branch span isConst arms other).Linked F ↔
      (∀ a ∈ arms, a.1.Linked F ∧ a.2.Linked F) ∧ other.Linked F := by
  rw [linked_iff rfl]
  simp only [ownExprs, children, List.forall_mem_append, List.forall_mem_map, List.forall_mem_singleton]
  grind

@[simp] theorem linked_conditional (span : Span) (c : Expr) (body : Stmt) :
    (Stmt.conditional span c body).Linked F ↔ c.Linked F ∧ body.Linked F := by
  rw [linked_iff rfl]
  simp [ownExprs, children]

@[simp] theorem linked_loop (span : Span) (c : Expr) (u : Attr Unroll) (body : Stmt) :
    (Stmt.loop span c u body).Linked F ↔ u.expr.Linked F ∧ c.Linked F ∧ body.Linked F := by
  rw [linked_iff rfl]
  simp [ownExprs, children, and_assoc]

@[simp] theorem linked_forRange (span : Span) (h : RangeHead) (body : Stmt) :
    (Stmt.forRange span h body).Linked F ↔
      (h.unroll.expr.Linked F ∧ h.start.Linked F ∧ h.stop.Linked F ∧ h.step.Linked F) ∧ body.Linked F := by
  rw [linked_iff rfl]
  simp [ownExprs, children]

@[simp] theorem linked_forEach (span : Span) (h : EachHead) (body : Stmt) :
    (Stmt.forEach span h body).Linked F ↔ (h.unroll.expr.Linked F ∧ h.array.Linked F) ∧ body.Linked F := by
  rw [linked_iff rfl]
  simp [ownExprs, children]

@[simp] theorem linked_returnWith (span : Span) (e : Expr) : (Stmt.returnWith span e).Linked F ↔ e.Linked F := by
  rw [linked_iff rfl]
  simp [ownExprs, children]

@[simp] theorem linked_noOp (span : Span) : (Stmt.noOp span).Linked F := by
  rw [linked_iff rfl]
  simp [ownExprs, children]

@[simp] theorem linked_discard (span : Span) : (Stmt.discard span).Linked F := by
  rw [linked_iff rfl]
  simp [ownExprs, children]

@[simp] theorem linked_breakLoop (span : Span) : (Stmt.breakLoop span).Linked F := by
  rw [linked_iff rfl]
  simp [ownExprs, children]

@[simp] theorem linked_continueLoop (span : Span) : (Stmt.continueLoop span).Linked F := by
  rw [linked_iff rfl]
  simp [ownExprs, children]

theorem linked_splitRest {other : Stmt} (hother : other.Linked F) {arms : List (Expr × Stmt)}
    (h : ∀ a ∈ arms, a.1.Linked F ∧ a.2.Linked F) : (splitRest other arms).Linked F := by
  induction arms with
  | nil => exact hother
  | cons a arms ih =>
    rw [List.forall_mem_cons] at h
    refine (linked_branch _ _ _ _).mpr ⟨?_, ih h.2⟩
    simpa using h.1

theorem linked_splitBranch (span : Span) (isConst : Bool) {arms : List (Expr × Stmt)} {other : Stmt}
    (h : ∀ a ∈ arms, a.1.Linked F ∧ a.2.Linked F) (hother : other.Linked F) :
    (splitBranch span isConst arms other).Linked F := by
  unfold splitBranch
  split
  · exact (linked_branch _ _ _ _).mpr ⟨h, hother⟩
  · exact (linked_branch _ _ _ _).mpr ⟨h, hother⟩
  · rw [List.forall_mem_cons] at h
    refine (linked_branch _ _ _ _).mpr ⟨?_, linked_splitRest hother h.2⟩
    simpa using h.1

mutual

theorem linked_beforeContinue {inc : Stmt} (hinc : inc.Linked F) (s : Stmt) (h : s.Linked F) :
    (beforeContinue inc s).Linked F := by
  cases s with
  | continueLoop span => simp [beforeContinue, hinc]
  | multi span body =>
    rw [linked_multi] at h
    exact (linked_multi _ _).mpr (linked_beforeContinueAll hinc body h)
  | «scoped» span body =>
    rw [linked_scoped] at h
    exact (linked_scoped _ _).mpr (linked_beforeContinue hinc body h)
  | branch span isConst arms other =>
    rw [linked_branch] at h
    exact (linked_branch _ _ _ _).mpr ⟨linked_beforeContinueArms hinc arms h.1, linked_beforeContinue hinc other h.2⟩
  | conditional span c body =>
    rw [linked_conditional] at h
    exact (linked_conditional _ _ _).mpr ⟨h.1, linked_beforeContinue hinc body h.2⟩
  | _ => exact h

theorem linked_beforeContinueAll {inc : Stmt} (hinc : inc.Linked F) (ss : List Stmt) (h : ∀ s ∈ ss, s.Linked F) :
    ∀ s ∈ beforeContinueAll inc ss, s.Linked F := by
  cases ss with
  | nil => exact fun _ hs => absurd hs List.not_mem_nil
  | cons s ss =>
    rw [List.forall_mem_cons] at h
    exact List.forall_mem_cons.mpr ⟨linked_beforeContinue hinc s h.1, linked_beforeContinueAll hinc ss h.2⟩

theorem linked_beforeContinueArms {inc : Stmt} (hinc : inc.Linked F) (arms : List (Expr × Stmt))
    (h : ∀ a ∈ arms, a.1.Linked F ∧ a.2.Linked F) : ∀ a ∈ beforeContinueArms inc arms, a.1.Linked F ∧ a.2.Linked F := by
  match arms with
  | [] => exact fun _ ha => absurd ha List.not_mem_nil
  | (c, s) :: arms =>
    rw [List.forall_mem_cons] at h
    exact List.forall_mem_cons.mpr
      ⟨⟨h.1.1, linked_beforeContinue hinc s h.1.2⟩, linked_beforeContinueArms hinc arms h.2⟩

end

theorem linked_temp (what : Text) (t : Ty) {init : Expr} (h : init.Linked F) (s : Supply) :
    ((Supply.temp what t init).run s).1.1.Linked F := (linked_letVar _ _).mpr ⟨Expr.linked_ofType _ _, h⟩

theorem linked_hold (what : Text) (t : Ty) {e : Expr} (h : e.Linked F) (s : Supply) :
    (∀ x ∈ ((hold what t e).run s).1.1, x.Linked F) ∧ ((hold what t e).run s).1.2.Linked F := by
  unfold hold
  split
  · exact ⟨fun _ hx => absurd hx List.not_mem_nil, h⟩
  · exact ⟨List.forall_mem_singleton.mpr (linked_temp what t h s), Expr.linked_ofVar _ _ _⟩

theorem linked_increment (span : Span) (id : Int) (t : Ty) {step : Expr} (h : step.Linked F) :
    (increment span id t step).Linked F := by
  simp [increment, h]

/-- The loop that takes the place of one over a range or an array. -/
theorem linked_reducedLoop (span : Span) {l r : Expr} (hl : l.Linked F) (hr : r.Linked F) {u : Attr Unroll}
    (hu : u.expr.Linked F) {inc body : Stmt} (hinc : inc.Linked F) (hbody : body.Linked F) {before : List Stmt}
    (hbefore : ∀ s ∈ before, s.Linked F) :
    (loop span (lessThan span l r) u (block span (before ++ [beforeContinue inc body, inc]))).Linked F := by
  refine (linked_loop _ _ _ _).mpr ⟨hu, (Expr.linked_binary _ _ _ _).mpr ⟨hl, hr⟩, (linked_block _ _).mpr ?_⟩
  refine List.forall_mem_append.mpr ⟨hbefore, List.forall_mem_cons.mpr ⟨linked_beforeContinue hinc body hbody, ?_⟩⟩
  exact List.forall_mem_singleton.mpr hinc

theorem linked_reduceRange (span : Span) {h : RangeHead} {p : Primitive} {body : Stmt}
    (hloop : (Stmt.forRange span h body).Linked F) (s : Supply) : ((reduceRange span h p body).run s).1.Linked F := by
  obtain ⟨⟨hunroll, hstart, hstop, hstep⟩, hbody⟩ := (linked_forRange _ _ _).mp hloop
  have shape {stopDecl stepDecl : List Stmt} (hstopDecl : ∀ x ∈ stopDecl, x.Linked F)
      (hstepDecl : ∀ x ∈ stepDecl, x.Linked F) {stop step : Expr} (hstop : stop.Linked F) (hstep : step.Linked F) :
      (block span (.letVar span { name := h.name, init := h.start, id := h.id } :: stopDecl ++ stepDecl ++
        [.loop span (lessThan span (.ofVar span h.id (.prim p)) stop) h.unroll
          (block span ([] ++ [beforeContinue (increment span h.id (.prim p) step) body,
            increment span h.id (.prim p) step]))])).Linked F := by
    have hloop := linked_reducedLoop span (Expr.linked_ofVar span h.id (.prim p)) hstop hunroll
      (linked_increment span h.id (.prim p) hstep) hbody fun x hx => absurd hx List.not_mem_nil
    have hlet : (letVar span { name := h.name, init := h.start, id := h.id }).Linked F :=
      (linked_letVar _ _).mpr ⟨Expr.linked_absent, hstart⟩
    refine (linked_block _ _).mpr (List.forall_mem_append.mpr ⟨List.forall_mem_append.mpr ⟨?_, hstepDecl⟩, ?_⟩)
    · exact List.forall_mem_cons.mpr ⟨hlet, hstopDecl⟩
    · exact List.forall_mem_singleton.mpr hloop
  cases habsent : h.step.isAbsent with
  | true =>
    simp only [reduceRange, habsent, if_true]
    exact shape (linked_hold _ _ hstop _).1 (fun x hx => absurd hx List.not_mem_nil) (linked_hold _ _ hstop _).2
      (Expr.linked_ofValue _ _)
  | false =>
    simp only [reduceRange, habsent]
    exact shape (linked_hold _ _ hstop _).1 (linked_hold _ _ hstep _).1 (linked_hold _ _ hstop _).2
      (linked_hold _ _ hstep _).2

theorem linked_reduceEach (span : Span) {h : EachHead} {elem : Ty} {n : UInt32} {body : Stmt}
    (hloop : (Stmt.forEach span h body).Linked F) (s : Supply) : ((reduceEach span h elem n body).run s).1.Linked F := by
  obtain ⟨⟨hunroll, harray⟩, hbody⟩ := (linked_forEach _ _ _).mp hloop
  have shape {arrayDecl : List Stmt} (harrayDecl : ∀ x ∈ arrayDecl, x.Linked F) {counterDecl : Stmt}
      (hcounter : counterDecl.Linked F) {array : Expr} (harray : array.Linked F) (id : Int) :
      (block span (arrayDecl ++ [counterDecl, .loop span (lessThan span (.ofVar span id (.prim .u32))
        (if n = 0 then .intrinsic ⟨span, .prim .u32⟩ .size [array] else .ofValue span (.u32 n))) h.unroll (block span
        ([.letVar span { name := h.name, init := .index ⟨span, elem⟩ array [.ofVar span id (.prim .u32)], id := h.id }] ++
          [beforeContinue (increment span id (.prim .u32) (.ofValue span (.u32 1))) body,
            increment span id (.prim .u32) (.ofValue span (.u32 1))]))])).Linked F := by
    have hsize : (if n = 0 then Expr.intrinsic ⟨span, .prim .u32⟩ .size [array] else .ofValue span (.u32 n)).Linked F := by
      split
      · simp [harray]
      · exact Expr.linked_ofValue _ _
    have hlet : (letVar span { name := h.name, init := .index ⟨span, elem⟩ array [.ofVar span id (.prim .u32)], id := h.id }).Linked F := by
      simp [harray]
    have hloop := linked_reducedLoop span (Expr.linked_ofVar span id (.prim .u32)) hsize hunroll
      (linked_increment span id (.prim .u32) (Expr.linked_ofValue span (.u32 1))) hbody (List.forall_mem_singleton.mpr hlet)
    refine (linked_block _ _).mpr (List.forall_mem_append.mpr ⟨harrayDecl, List.forall_mem_cons.mpr ⟨hcounter, ?_⟩⟩)
    exact List.forall_mem_singleton.mpr hloop
  cases hplace : h.array.isPlace with
  | true =>
    simp only [reduceEach, hplace, if_true]
    exact shape (fun x hx => absurd hx List.not_mem_nil) (linked_temp _ _ (Expr.linked_ofValue _ _) _) harray _
  | false =>
    simp only [reduceEach, hplace]
    exact shape (List.forall_mem_singleton.mpr (linked_temp _ _ harray _)) (linked_temp _ _ (Expr.linked_ofValue _ _) _)
      (Expr.linked_ofVar _ _ _) _

end Stmt

end Shading
