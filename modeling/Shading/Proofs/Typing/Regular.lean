import Shading.Proofs.Check.Expression
import Shading.Proofs.Parser.Written
import Shading.Proofs.Typing.Sound

/-! Trees in which all values and types are ones that the language has. What sources are parsed to is such a tree, and
so is what is sound. -/
namespace Shading

/-- The components of a literal share one type, and a reference to a type is to one that the language has. -/
def Expr.IsRegular : Expr → Prop
  | .literal _ v => v.type.Proper ∧ v.HasType v.type
  | .typeRef _ t => t.Proper
  | _ => True

/-- A variable has a type or a value. -/
def Stmt.IsRegular : Stmt → Prop
  | .letVar _ d => d.type.isPresent ∨ d.init.isPresent
  | _ => True

def Node.IsRegular : Node → Prop
  | .expr e => e.IsRegular
  | .stmt s => s.IsRegular

def Expr.Regular (e : Expr) : Prop := ∀ n ∈ e.nodes, n.IsRegular

def Stmt.Regular (s : Stmt) : Prop := ∀ n ∈ s.nodes, n.IsRegular

/-- A module with those that come along with it. -/
structure Module.Regular (m : Module) : Prop where
  root : m.rootStmt.Regular
  imported : ∀ x ∈ m.imported, x.2.rootStmt.Regular

/-- Modules that are not known are refused, those that are found are regular, and the components of each value that is
given share one type. -/
structure CheckSettings.Regular (settings : CheckSettings) : Prop where
  strict : settings.lenient = false
  found : ∀ x, settings.resolver = some x → ∀ name m, x.find name = .ok (some m) → m.rootStmt.Regular
  given : ∀ name v, settings.values.get? name = some v → v.HasType v.type

-- What is written in sources is regular, and so is what is sound.
theorem Node.IsWritten.regular {n : Node} (h : n.IsWritten) : n.IsRegular := by
  cases n with
  | expr e =>
    cases e with
    | literal i v => exact Value.hasType_of_isScalar h
    | typeRef i t => exact h.elim
    | _ => trivial
  | stmt s =>
    cases s with
    | letVar span d =>
      have hpresent := h.2 span d rfl
      simpa [IsRegular, Stmt.IsRegular, Expr.isPresent] using hpresent
    | _ => trivial

theorem Expr.Written.regular {e : Expr} (h : e.Written) : e.Regular := fun n hn => (h n hn).regular

theorem Stmt.Written.regular {s : Stmt} (h : s.Written) : s.Regular := fun n hn => (h n hn).regular

theorem Module.Written.regular {m : Module} (h : m.Written) : m.Regular := by
  refine ⟨Stmt.Written.regular h.root, fun x hx => ?_⟩
  rw [h.imported] at hx
  cases hx

variable {Γ : Int → Ty → Prop}

theorem Node.Sound.regular {n : Node} (h : n.Sound Γ) : n.IsRegular := by
  cases n with
  | expr e =>
    obtain ⟨hproper, hderived⟩ := h
    cases e with
    | literal i v =>
      have hvalue : v.HasType i.type := hderived
      have htype : v.type = i.type := hvalue.type_eq hproper
      show v.type.Proper ∧ v.HasType v.type
      rw [htype]
      exact ⟨hproper, hvalue⟩
    | typeRef i t =>
      have htype : i.type = t := hderived
      show t.Proper
      rw [← htype]
      exact hproper
    | _ => trivial
  | stmt s =>
    cases s with
    | letVar span d => exact h
    | _ => trivial

theorem Stmt.Sound.regular {s : Stmt} (h : s.Sound Γ) : s.Regular := fun n hn => (h n hn).regular

namespace Expr.Regular

variable {e : Expr}

theorem self (h : e.Regular) (hpresent : e.isAbsent = false) : e.IsRegular := h _ (mem_nodes_self hpresent)

theorem child (h : e.Regular) {c : Expr} (hc : c ∈ e.children) : c.Regular := nodes_child h hc

end Expr.Regular

namespace Stmt.Regular

variable {s : Stmt}

theorem self (h : s.Regular) (hpresent : s.isAbsent = false) : s.IsRegular :=
  ((forall_nodes hpresent).mp h).1

theorem expr (h : s.Regular) {e : Expr} (he : e ∈ s.ownExprs) : e.Regular := nodes_own h he

theorem child (h : s.Regular) {c : Stmt} (hc : c ∈ s.children) : c.Regular := nodes_child h hc

end Stmt.Regular

/-- An expression that is there, and sound. -/
structure Expr.Typed (Γ : Int → Ty → Prop) (e : Expr) : Prop where
  present : e.isAbsent = false
  sound : e.Sound Γ

namespace Expr.Typed

variable {e : Expr}

theorem of_children (hproper : e.type.Proper) (hderived : e.Derived Γ) (hchildren : ∀ c ∈ e.children, c.Sound Γ) :
    e.Typed Γ := by
  refine ⟨?_, .mk hproper hderived hchildren⟩
  cases e with
  | absent => exact hderived.elim
  | _ => rfl

theorem proper (h : e.Typed Γ) : e.type.Proper := h.sound.proper h.present

theorem derived (h : e.Typed Γ) : e.Derived Γ := h.sound.derived h.present

theorem known (h : e.Typed Γ) : e.type.isKnown = true := h.proper.isKnown

theorem mono {Δ : Int → Ty → Prop} (hsub : ∀ {id t}, Γ id t → Δ id t) (h : e.Typed Γ) : e.Typed Δ := ⟨h.present, h.sound.mono hsub⟩

theorem ofValue {v : Value} {t : Ty} (span : Span) (ht : t.Proper) (h : v.HasType t) : (Expr.ofValue span v).Typed Γ := by
  have htype : v.type = t := h.type_eq ht
  refine of_children ?_ ?_ fun _ hc => absurd hc List.not_mem_nil
  · show v.type.Proper
    rwa [htype]
  · show v.HasType v.type
    rwa [htype]

end Expr.Typed

/-- May an alias stand for it? It is a reference to a function or to a type. -/
def Expr.IsTarget : Expr → Prop
  | .function .. | .structRef .. | .intrinsicRef .. => True
  | .typeRef _ t => t.Proper
  | _ => False

/-- Does it refer to something by itself? A literal does so to a value. -/
def Expr.IsReference : Expr → Prop
  | .literal _ v => v.type.Proper ∧ v.HasType v.type
  | .var .. | .const .. => True
  | e => e.IsTarget

theorem Expr.IsTarget.isReference {e : Expr} (h : e.IsTarget) : e.IsReference := by
  cases e with
  | literal | var | const => exact h.elim
  | _ => exact h

/-- Does a name stand for something of a module that could be found? -/
def Binding.Known : Binding → Prop
  | .alias _ target => target.IsTarget
  | .unresolved => False
  | _ => True

end Shading

namespace Shading.Stmt

variable {Γ : Int → Ty → Prop}

theorem sound_splitRest {other : Stmt} (hother : other.Sound Γ) {arms : List (Expr × Stmt)}
    (h : ∀ a ∈ arms, a.1.Decides Γ ∧ a.2.Sound Γ) : (splitRest other arms).Sound Γ := by
  induction arms with
  | nil => exact hother
  | cons a arms ih =>
    rw [List.forall_mem_cons] at h
    exact (sound_branch _ _ _ _).mpr ⟨List.forall_mem_singleton.mpr h.1, ih h.2⟩

theorem sound_splitBranch {span : Span} {arms : List (Expr × Stmt)} {other : Stmt}
    (h : (Stmt.branch span false arms other).Sound Γ) : (splitBranch span false arms other).Sound Γ := by
  unfold splitBranch
  split
  · exact h
  · exact h
  · obtain ⟨harms, hother⟩ := (sound_branch _ _ _ _).mp h
    rw [List.forall_mem_cons] at harms
    exact (sound_branch _ _ _ _).mpr ⟨List.forall_mem_singleton.mpr harms.1, sound_splitRest hother harms.2⟩

mutual

theorem sound_beforeContinue {inc : Stmt} (hinc : inc.Sound Γ) (s : Stmt) (h : s.Sound Γ) :
    (beforeContinue inc s).Sound Γ := by
  cases s with
  | continueLoop span => simp [beforeContinue, hinc]
  | multi span body =>
    rw [sound_multi] at h
    exact (sound_multi _ _).mpr (sound_beforeContinueAll hinc body h)
  | «scoped» span body =>
    rw [sound_scoped] at h
    exact (sound_scoped _ _).mpr (sound_beforeContinue hinc body h)
  | branch span isConst arms other =>
    obtain ⟨harms, hother⟩ := (sound_branch _ _ _ _).mp h
    exact (sound_branch _ _ _ _).mpr ⟨sound_beforeContinueArms hinc arms harms, sound_beforeContinue hinc other hother⟩
  | conditional span c body =>
    obtain ⟨hc, hbody⟩ := (sound_conditional _ _ _).mp h
    exact (sound_conditional _ _ _).mpr ⟨hc, sound_beforeContinue hinc body hbody⟩
  | _ => exact h

theorem sound_beforeContinueAll {inc : Stmt} (hinc : inc.Sound Γ) (ss : List Stmt) (h : ∀ s ∈ ss, s.Sound Γ) :
    ∀ s ∈ beforeContinueAll inc ss, s.Sound Γ := by
  cases ss with
  | nil => exact h
  | cons s ss =>
    rw [List.forall_mem_cons] at h
    exact List.forall_mem_cons.mpr ⟨sound_beforeContinue hinc s h.1, sound_beforeContinueAll hinc ss h.2⟩

theorem sound_beforeContinueArms {inc : Stmt} (hinc : inc.Sound Γ) (arms : List (Expr × Stmt))
    (h : ∀ a ∈ arms, a.1.Decides Γ ∧ a.2.Sound Γ) : ∀ a ∈ beforeContinueArms inc arms, a.1.Decides Γ ∧ a.2.Sound Γ := by
  match arms with
  | [] => exact h
  | (c, s) :: arms =>
    rw [List.forall_mem_cons] at h
    exact List.forall_mem_cons.mpr
      ⟨⟨h.1.1, sound_beforeContinue hinc s h.1.2⟩, sound_beforeContinueArms hinc arms h.2⟩

end

theorem sound_temp (what : Text) {t : Ty} {init : Expr} (ht : t.Proper) (h : init.Sound Γ) (s : Supply) :
    ((Supply.temp what t init).run s).1.1.Sound Γ := (sound_letVar _ _).mpr ⟨.inl rfl, .ofType _ ht, h⟩

/-- What a value is held in has the type of the value. -/
theorem sound_hold (what : Text) {t : Ty} {e : Expr} (ht : t.Proper) (h : e.Sound Γ) (htype : e.type = t) (s : Supply) :
    (∀ x ∈ ((hold what t e).run s).1.1, x.Sound Γ) ∧
      ((hold what t e).run s).1.2.Sound Γ ∧ ((hold what t e).run s).1.2.type = t := by
  unfold hold
  split
  · exact ⟨fun _ hx => absurd hx List.not_mem_nil, h, htype⟩
  · exact ⟨List.forall_mem_singleton.mpr (sound_temp what ht h s), .ofVar _ _ ht, rfl⟩

theorem sound_increment (span : Span) (id : Int) {t : Ty} {step : Expr} (ht : t.Proper) (h : step.Sound Γ) :
    (increment span id t step).Sound Γ := by
  refine (sound_expr _ _).mpr (.mk ht trivial fun c hc => ?_)
  rcases List.mem_cons.mp hc with rfl | hc
  · exact .ofVar _ _ ht
  · exact List.mem_singleton.mp hc ▸ h

theorem decides_lessThan (span : Span) {l r : Expr} (hl : l.Sound Γ) (hr : r.Sound Γ)
    (h : l.type.binary .lt r.type = .ok (.prim .bool)) : (lessThan span l r).Decides Γ := by
  refine ⟨rfl, .mk Ty.proper_bool h fun c hc => ?_⟩
  rcases List.mem_cons.mp hc with rfl | hc
  · exact hl
  · exact List.mem_singleton.mp hc ▸ hr

/-- The loop that takes the place of one over a range or an array. -/
theorem sound_reducedLoop (span : Span) {c : Expr} (hc : c.Decides Γ) {u : Attr Unroll} (hu : u.expr.Sound Γ)
    {inc body : Stmt} (hinc : inc.Sound Γ) (hbody : body.Sound Γ) {before : List Stmt}
    (hbefore : ∀ s ∈ before, s.Sound Γ) :
    (loop span c u (block span (before ++ [beforeContinue inc body, inc]))).Sound Γ := by
  refine (sound_loop _ _ _ _).mpr ⟨hu, hc, (sound_block _ _).mpr (List.forall_mem_append.mpr ⟨hbefore, ?_⟩)⟩
  exact List.forall_mem_cons.mpr ⟨sound_beforeContinue hinc body hbody, List.forall_mem_singleton.mpr hinc⟩

/-- Bounds of a range: integers of one type. -/
structure Counted (Γ : Int → Ty → Prop) (h : RangeHead) (p : Primitive) : Prop where
  integer : p = .i32 ∨ p = .u32
  start : h.start.Typed Γ
  stop : h.stop.Sound Γ
  step : h.step.Sound Γ
  stopType : h.stop.type = .prim p
  stepType : h.step.isAbsent = false → h.step.type = .prim p
  unroll : h.unroll.expr.Sound Γ

theorem sound_reduceRange (span : Span) {h : RangeHead} {p : Primitive} {body : Stmt} (hh : Counted Γ h p)
    (hbody : body.Sound Γ) (s : Supply) : ((reduceRange span h p body).run s).1.Sound Γ := by
  have hp : (Ty.prim p).Proper := by
    rcases hh.integer with rfl | rfl <;> show _ ∈ Primitive.named <;> decide
  have hless : (Ty.prim p).binary .lt (.prim p) = .ok (.prim .bool) := by
    rcases hh.integer with rfl | rfl <;> rfl
  have shape {stopDecl stepDecl : List Stmt} (hstopDecl : ∀ x ∈ stopDecl, x.Sound Γ)
      (hstepDecl : ∀ x ∈ stepDecl, x.Sound Γ) {stop step : Expr} (hstop : stop.Sound Γ ∧ stop.type = .prim p)
      (hstep : step.Sound Γ) :
      (block span (.letVar span { name := h.name, init := h.start, id := h.id } :: stopDecl ++ stepDecl ++
        [.loop span (lessThan span (.ofVar span h.id (.prim p)) stop) h.unroll
          (block span ([] ++ [beforeContinue (increment span h.id (.prim p) step) body,
            increment span h.id (.prim p) step]))])).Sound Γ := by
    have hlet : (letVar span { name := h.name, init := h.start, id := h.id }).Sound Γ := by
      refine (sound_letVar _ _).mpr ⟨.inr ?_, .absent, hh.start.sound⟩
      simp [Expr.isPresent, hh.start.present]
    have hcond := decides_lessThan span (Expr.Sound.ofVar span h.id hp) hstop.1 (hstop.2.symm ▸ hless)
    have hloop := sound_reducedLoop span hcond hh.unroll (sound_increment span h.id hp hstep) hbody
      fun x hx => absurd hx List.not_mem_nil
    refine (sound_block _ _).mpr (List.forall_mem_append.mpr ⟨List.forall_mem_append.mpr ⟨?_, hstepDecl⟩, ?_⟩)
    · exact List.forall_mem_cons.mpr ⟨hlet, hstopDecl⟩
    · exact List.forall_mem_singleton.mpr hloop
  have hstop (s : Supply) := sound_hold "to" hp hh.stop hh.stopType s
  cases habsent : h.step.isAbsent with
  | true =>
    have hone : (Expr.ofValue span (Value.scalar p true)).Sound Γ := by
      have hvalue : (Value.scalar p true).HasType (.prim p) := by
        rcases hh.integer with rfl | rfl <;> rfl
      exact (Expr.Typed.ofValue span hp hvalue).sound
    simp only [reduceRange, habsent, if_true]
    exact shape (hstop _).1 (fun x hx => absurd hx List.not_mem_nil) (hstop _).2 hone
  | false =>
    have hstep (s : Supply) := sound_hold "step" hp hh.step (hh.stepType habsent) s
    simp only [reduceRange, habsent]
    exact shape (hstop _).1 (hstep _).1 (hstop _).2 (hstep _).2.1

theorem sound_reduceEach (span : Span) {h : EachHead} {elem : Ty} {n : UInt32} {body : Stmt} (harray : h.array.Typed Γ)
    (htype : h.array.type = .array elem n) (hunroll : h.unroll.expr.Sound Γ) (hbody : body.Sound Γ) (s : Supply) :
    ((reduceEach span h elem n body).run s).1.Sound Γ := by
  have hproper : (Ty.array elem n).Proper := htype ▸ harray.proper
  have hindex : (Ty.prim .u32).Proper := (by decide : Primitive.u32 ∈ Primitive.named)
  have hvalue (k : UInt32) : (Expr.ofValue span (.u32 k)).Sound Γ := by
    have hk : (Value.u32 k).HasType (.prim .u32) := rfl
    exact (Expr.Typed.ofValue span hindex hk).sound
  have shape {arrayDecl : List Stmt} (harrayDecl : ∀ x ∈ arrayDecl, x.Sound Γ) {counterDecl : Stmt}
      (hcounter : counterDecl.Sound Γ) {array : Expr} (harray : array.Sound Γ) (htype : array.type = .array elem n)
      (id : Int) :
      (block span (arrayDecl ++ [counterDecl, .loop span (lessThan span (.ofVar span id (.prim .u32))
        (if n = 0 then .intrinsic ⟨span, .prim .u32⟩ .size [array] else .ofValue span (.u32 n))) h.unroll (block span
        ([.letVar span { name := h.name, init := .index ⟨span, elem⟩ array [.ofVar span id (.prim .u32)], id := h.id }] ++
          [beforeContinue (increment span id (.prim .u32) (.ofValue span (.u32 1))) body,
            increment span id (.prim .u32) (.ofValue span (.u32 1))]))])).Sound Γ := by
    have hcond : (lessThan span (.ofVar span id (.prim .u32))
        (if n = 0 then .intrinsic ⟨span, .prim .u32⟩ .size [array] else .ofValue span (.u32 n))).Decides Γ := by
      split
      · refine decides_lessThan span (.ofVar span id hindex) (.mk hindex trivial fun c hc => ?_) rfl
        exact List.mem_singleton.mp hc ▸ harray
      · exact decides_lessThan span (.ofVar span id hindex) (hvalue n) rfl
    have hlet : (letVar span { name := h.name, init := .index ⟨span, elem⟩ array [.ofVar span id (.prim .u32)], id := h.id }).Sound Γ := by
      have hbehind : elem.Behind 1 array.type := by
        rw [htype]
        trivial
      refine (sound_letVar _ _).mpr ⟨.inr rfl, .absent, .mk hproper hbehind fun c hc => ?_⟩
      rcases List.mem_cons.mp hc with rfl | hc
      · exact harray
      · exact List.mem_singleton.mp hc ▸ .ofVar span id hindex
    have hloop := sound_reducedLoop span hcond hunroll (sound_increment span id hindex (hvalue 1)) hbody
      (List.forall_mem_singleton.mpr hlet)
    refine (sound_block _ _).mpr (List.forall_mem_append.mpr ⟨harrayDecl, List.forall_mem_cons.mpr ⟨hcounter, ?_⟩⟩)
    exact List.forall_mem_singleton.mpr hloop
  cases hplace : h.array.isPlace with
  | true =>
    simp only [reduceEach, hplace, if_true]
    exact shape (fun x hx => absurd hx List.not_mem_nil) (sound_temp _ hindex (hvalue 0) _) harray.sound htype _
  | false =>
    simp only [reduceEach, hplace]
    exact shape (List.forall_mem_singleton.mpr (sound_temp _ hproper harray.sound _)) (sound_temp _ hindex (hvalue 0) _)
      (.ofVar _ _ hproper) rfl _

end Shading.Stmt
