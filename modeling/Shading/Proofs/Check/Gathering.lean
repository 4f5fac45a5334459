import Shading.Lowering
import Shading.Module
import Shading.Proofs.Module.Declarations

/-! What is gathered from statements and those inside them, in their order: the names of imported modules, and the
declarations of constants and options. Lowerings keep it. -/
namespace Shading.Stmt

/-- Does a statement declare what may be used outside functions, or import it? -/
def isDeclaration : Stmt → Bool
  | .importFrom .. | .option .. | .const .. | .alias .. | .struct .. | .external .. | .function .. => true
  | _ => false

section

variable {α : Type} (f : Stmt → List α)

/-- What is gathered from a statement and from those inside it. -/
def gather (s : Stmt) : List α := (s.nodes.filterMap Node.stmt?).flatMap f

/-- Nothing is gathered from other statements than declarations. -/
abbrev FromDeclarations : Prop := ∀ s, isDeclaration s = false → f s = []

variable {f}

@[simp] theorem gather_absent : gather f .absent = [] := rfl

theorem gather_eq {s : Stmt} (h : s.isAbsent = false) : gather f s = f s ++ s.children.flatMap (gather f) := by
  rw [gather, filterMap_stmt_nodes h, List.flatMap_cons, List.filterMap_flatMap, List.flatMap_assoc]
  rfl

variable (hf : FromDeclarations f)

include hf

theorem gather_multi (span : Span) (body : List Stmt) : gather f (.multi span body) = body.flatMap (gather f) := by
  rw [gather_eq rfl, hf _ rfl, List.nil_append, children]

theorem gather_scoped (span : Span) (body : Stmt) : gather f (.scoped span body) = gather f body := by
  rw [gather_eq rfl, hf _ rfl, List.nil_append, children, List.flatMap_singleton]

theorem gather_block (span : Span) (body : List Stmt) : gather f (block span body) = body.flatMap (gather f) := by
  rw [block, gather_scoped hf, gather_multi hf]

theorem gather_conditional (span : Span) (c : Expr) (body : Stmt) :
    gather f (.conditional span c body) = gather f body := by
  rw [gather_eq rfl, hf _ rfl, List.nil_append, children, List.flatMap_singleton]

theorem gather_branch (span : Span) (isConst : Bool) (arms : List (Expr × Stmt)) (other : Stmt) :
    gather f (.branch span isConst arms other) = (arms.map (·.2)).flatMap (gather f) ++ gather f other := by
  rw [gather_eq rfl, hf _ rfl, List.nil_append, children, List.flatMap_append, List.flatMap_singleton]

theorem gather_loop (span : Span) (c : Expr) (u : Attr Unroll) (body : Stmt) :
    gather f (.loop span c u body) = gather f body := by
  rw [gather_eq rfl, hf _ rfl, List.nil_append, children, List.flatMap_singleton]

theorem gather_forRange (span : Span) (h : RangeHead) (body : Stmt) : gather f (.forRange span h body) = gather f body := by
  rw [gather_eq rfl, hf _ rfl, List.nil_append, children, List.flatMap_singleton]

theorem gather_forEach (span : Span) (h : EachHead) (body : Stmt) : gather f (.forEach span h body) = gather f body := by
  rw [gather_eq rfl, hf _ rfl, List.nil_append, children, List.flatMap_singleton]

/-- Statements that are no declarations, and have no others inside. -/
theorem gather_leaf {s : Stmt} (hs : s.isDeclaration = false) (hchildren : s.children = []) : gather f s = [] := by
  cases s with
  | absent => rfl
  | _ => rw [gather_eq rfl, hf _ hs, hchildren, List.nil_append, List.flatMap_nil]

theorem gather_splitRest (other : Stmt) (arms : List (Expr × Stmt)) :
    gather f (splitRest other arms) = (arms.map (·.2)).flatMap (gather f) ++ gather f other := by
  induction arms with
  | nil => rfl
  | cons a arms ih =>
    rw [splitRest, gather_branch hf, ih]
    simp

theorem gather_splitBranch (span : Span) (isConst : Bool) (arms : List (Expr × Stmt)) (other : Stmt) :
    gather f (splitBranch span isConst arms other) = (arms.map (·.2)).flatMap (gather f) ++ gather f other := by
  unfold splitBranch
  split
  · exact gather_branch hf _ _ _ _
  · exact gather_branch hf _ _ _ _
  · rw [gather_branch hf, gather_splitRest hf]
    simp

omit hf

mutual

theorem gather_beforeContinue (hf : FromDeclarations f) {inc : Stmt} (hinc : gather f inc = []) (s : Stmt) :
    gather f (beforeContinue inc s) = gather f s := by
  cases s with
  | continueLoop span => simp [beforeContinue, gather_block hf, hinc]
  | multi span body => rw [beforeContinue, gather_multi hf, gather_multi hf, gatherAll_beforeContinue hf hinc body]
  | «scoped» span body => rw [beforeContinue, gather_scoped hf, gather_scoped hf, gather_beforeContinue hf hinc body]
  | branch span isConst arms other =>
    rw [beforeContinue, gather_branch hf, gather_branch hf, gatherArms_beforeContinue hf hinc arms,
      gather_beforeContinue hf hinc other]
  | conditional span c body =>
    rw [beforeContinue, gather_conditional hf, gather_conditional hf, gather_beforeContinue hf hinc body]
  | _ => rfl

theorem gatherAll_beforeContinue (hf : FromDeclarations f) {inc : Stmt} (hinc : gather f inc = []) (ss : List Stmt) :
    (beforeContinueAll inc ss).flatMap (gather f) = ss.flatMap (gather f) := by
  cases ss with
  | nil => rfl
  | cons s ss =>
    rw [beforeContinueAll, List.flatMap_cons, List.flatMap_cons, gather_beforeContinue hf hinc s,
      gatherAll_beforeContinue hf hinc ss]

theorem gatherArms_beforeContinue (hf : FromDeclarations f) {inc : Stmt} (hinc : gather f inc = []) (arms : List (Expr × Stmt)) :
    ((beforeContinueArms inc arms).map (·.2)).flatMap (gather f) = (arms.map (·.2)).flatMap (gather f) := by
  match arms with
  | [] => rfl
  | (c, s) :: arms =>
    rw [beforeContinueArms, List.map_cons, List.map_cons, List.flatMap_cons, List.flatMap_cons,
      gather_beforeContinue hf hinc s, gatherArms_beforeContinue hf hinc arms]

end

include hf

theorem gather_letVar (span : Span) (d : VarDecl) : gather f (.letVar span d) = [] := gather_leaf hf rfl rfl

theorem gather_temp (what : Text) (t : Ty) (init : Expr) (s : Supply) :
    gather f ((Supply.temp what t init).run s).1.1 = [] := gather_letVar hf _ _

theorem gather_hold (what : Text) (t : Ty) (e : Expr) (s : Supply) :
    ((hold what t e).run s).1.1.flatMap (gather f) = [] := by
  unfold hold
  split
  · rfl
  · exact (List.flatMap_singleton _ _).trans (gather_temp hf what t e s)

theorem gather_increment (span : Span) (id : Int) (t : Ty) (step : Expr) : gather f (increment span id t step) = [] :=
  gather_leaf hf rfl rfl

theorem gather_loopBody {inc : Stmt} (hinc : gather f inc = []) {before : List Stmt}
    (hbefore : before.flatMap (gather f) = []) (span : Span) (c : Expr) (u : Attr Unroll) (body : Stmt) :
    gather f (loop span c u (block span (before ++ [beforeContinue inc body, inc]))) = gather f body := by
  simp [gather_loop hf, gather_block hf, hbefore, gather_beforeContinue hf hinc, hinc]

theorem gather_reduceRange (span : Span) (h : RangeHead) (p : Primitive) (body : Stmt) (s : Supply) :
    gather f ((reduceRange span h p body).run s).1 = gather f body := by
  have shape {stopDecl stepDecl : List Stmt} (hstop : stopDecl.flatMap (gather f) = [])
      (hstep : stepDecl.flatMap (gather f) = []) (c step : Expr) :
      gather f (block span (.letVar span { name := h.name, init := h.start, id := h.id } :: stopDecl ++ stepDecl ++
        [.loop span c h.unroll (block span ([] ++ [beforeContinue (increment span h.id (.prim p) step) body,
          increment span h.id (.prim p) step]))])) = gather f body := by
    rw [gather_block hf, List.flatMap_append, List.flatMap_append, List.flatMap_cons, hstop, hstep,
      List.flatMap_singleton, gather_loopBody hf (gather_increment hf _ _ _ _) List.flatMap_nil, gather_letVar hf]
    rfl
  cases hstep : h.step.isAbsent with
  | true =>
    simp only [reduceRange, hstep, if_true]
    exact shape (gather_hold hf _ _ _ _) rfl _ _
  | false =>
    simp only [reduceRange, hstep]
    exact shape (gather_hold hf _ _ _ _) (gather_hold hf _ _ _ _) _ _

theorem gather_reduceEach (span : Span) (h : EachHead) (elem : Ty) (n : UInt32) (body : Stmt) (s : Supply) :
    gather f ((reduceEach span h elem n body).run s).1 = gather f body := by
  have shape {arrayDecl : List Stmt} (harray : arrayDecl.flatMap (gather f) = []) {counterDecl : Stmt}
      (hcounter : gather f counterDecl = []) (c array : Expr) (id : Int) (inc : Stmt) (hinc : gather f inc = []) :
      gather f (block span (arrayDecl ++ [counterDecl, .loop span c h.unroll (block span
        ([.letVar span { name := h.name, init := .index ⟨span, elem⟩ array [.ofVar span id (.prim .u32)], id := h.id }] ++
          [beforeContinue inc body, inc]))])) = gather f body := by
    rw [gather_block hf, List.flatMap_append, harray, List.flatMap_cons, hcounter, List.flatMap_singleton,
      gather_loopBody hf hinc ((List.flatMap_singleton _ _).trans (gather_letVar hf _ _))]
    rfl
  cases hplace : h.array.isPlace with
  | true =>
    simp only [reduceEach, hplace, if_true]
    exact shape rfl (gather_temp hf _ _ _ _) _ _ _ _ (gather_increment hf _ _ _ _)
  | false =>
    simp only [reduceEach, hplace]
    exact shape ((List.flatMap_singleton _ _).trans (gather_temp hf _ _ _ _)) (gather_temp hf _ _ _ _) _ _ _ _
      (gather_increment hf _ _ _ _)

end

/-- A statement that declares a constant or an option. -/
def constant : Stmt → List Stmt
  | .const span d => [.const span d]
  | .option span d => [.option span d]
  | _ => []

/-- The declarations of constants and options of a statement and of those inside it. -/
def constants (s : Stmt) : List Stmt := s.gather constant

theorem constant_fromDeclarations : FromDeclarations constant := by
  intro s hs
  cases s with
  | const => cases hs
  | option => cases hs
  | _ => rfl

@[simp] theorem constants_const (span : Span) (d : ConstDecl) : constants (.const span d) = [.const span d] :=
  gather_eq rfl

@[simp] theorem constants_option (span : Span) (d : OptionDecl) : constants (.option span d) = [.option span d] :=
  gather_eq rfl

@[simp] theorem constants_function (span : Span) (h : FnHead) (body : List Stmt) :
    constants (.function span h body) = body.flatMap constants := gather_eq rfl

end Shading.Stmt

namespace Shading

/-- The name of the module that an import statement imports. -/
def Node.import? : Node → Option Text
  | .stmt (.importFrom _ name _) => some name
  | _ => none

namespace Stmt

/-- The names of the modules that a statement imports, and those inside it. -/
def imports (s : Stmt) : List Text := s.nodes.filterMap Node.import?

mutual

/-- The imports of a statement that stand under no condition. -/
def plainImports : Stmt → List Text
  | .importFrom _ name _ => [name]
  | .multi _ body => plainImportsAll body
  | _ => []

def plainImportsAll : List Stmt → List Text
  | [] => []
  | s :: ss => plainImports s ++ plainImportsAll ss

end

/-- The name of the module that a statement itself imports. -/
def ownImport (s : Stmt) : List Text := (Node.stmt s).import?.toList

theorem ownImport_fromDeclarations : FromDeclarations ownImport := by
  intro s hs
  cases s with
  | importFrom => cases hs
  | _ => rfl

theorem imports_eq_gather : imports = gather ownImport := by
  funext s
  rw [imports, gather]
  induction s.nodes with
  | nil => rfl
  | cons n ns ih =>
    cases n with
    | expr e => exact ih
    | stmt s =>
      rw [List.filterMap_cons_some (rfl : (Node.stmt s).stmt? = some s), List.flatMap_cons, ← ih, ownImport]
      cases h : (Node.stmt s).import? with
      | none => rw [List.filterMap_cons_none h]; rfl
      | some name => rw [List.filterMap_cons_some h]; rfl

@[simp] theorem imports_importFrom (span : Span) (name : Text) (items : List ImportItem) :
    imports (.importFrom span name items) = [name] := rfl

/-- What other statements import is imported inside them. -/
theorem imports_eq {s : Stmt} (hs : Node.import? (.stmt s) = none) : s.imports = s.children.flatMap imports := by
  cases s with
  | absent => rfl
  | _ =>
    rw [imports_eq_gather, gather_eq rfl, ownImport, hs]
    rfl

@[simp] theorem imports_multi (span : Span) (body : List Stmt) : imports (.multi span body) = body.flatMap imports :=
  imports_eq rfl

@[simp] theorem imports_function (span : Span) (h : FnHead) (body : List Stmt) :
    imports (.function span h body) = body.flatMap imports := imports_eq rfl

@[simp] theorem imports_scoped (span : Span) (body : Stmt) : imports (.scoped span body) = body.imports :=
  (imports_eq rfl).trans (List.flatMap_singleton _ _)

@[simp] theorem imports_conditional (span : Span) (c : Expr) (body : Stmt) :
    imports (.conditional span c body) = body.imports := (imports_eq rfl).trans (List.flatMap_singleton _ _)

@[simp] theorem imports_loop (span : Span) (c : Expr) (u : Attr Unroll) (body : Stmt) :
    imports (.loop span c u body) = body.imports := (imports_eq rfl).trans (List.flatMap_singleton _ _)

@[simp] theorem imports_forRange (span : Span) (h : RangeHead) (body : Stmt) :
    imports (.forRange span h body) = body.imports := (imports_eq rfl).trans (List.flatMap_singleton _ _)

@[simp] theorem imports_forEach (span : Span) (h : EachHead) (body : Stmt) :
    imports (.forEach span h body) = body.imports := (imports_eq rfl).trans (List.flatMap_singleton _ _)

@[simp] theorem imports_branch (span : Span) (isConst : Bool) (arms : List (Expr × Stmt)) (other : Stmt) :
    imports (.branch span isConst arms other) = (arms.map (·.2)).flatMap imports ++ other.imports := by
  rw [imports_eq rfl, children, List.flatMap_append, List.flatMap_singleton]

@[simp] theorem imports_letVar (span : Span) (d : VarDecl) : imports (.letVar span d) = [] := imports_eq rfl

@[simp] theorem imports_noOp (span : Span) : imports (.noOp span) = [] := imports_eq rfl

@[simp] theorem imports_block (span : Span) (body : List Stmt) : imports (block span body) = body.flatMap imports := by
  rw [block, imports_scoped, imports_multi]

@[simp] theorem imports_splitBranch (span : Span) (isConst : Bool) (arms : List (Expr × Stmt)) (other : Stmt) :
    (splitBranch span isConst arms other).imports = (arms.map (·.2)).flatMap imports ++ other.imports := by
  rw [imports_eq_gather]
  exact gather_splitBranch ownImport_fromDeclarations span isConst arms other

theorem imports_reduceRange (span : Span) (h : RangeHead) (p : Primitive) (body : Stmt) (s : Supply) :
    ((reduceRange span h p body).run s).1.imports = body.imports := by
  rw [imports_eq_gather]
  exact gather_reduceRange ownImport_fromDeclarations span h p body s

theorem imports_reduceEach (span : Span) (h : EachHead) (elem : Ty) (n : UInt32) (body : Stmt) (s : Supply) :
    ((reduceEach span h elem n body).run s).1.imports = body.imports := by
  rw [imports_eq_gather]
  exact gather_reduceEach ownImport_fromDeclarations span h elem n body s

end Stmt

/-- What remains of the imports of a module in another one. Those that stand under no condition are still there. -/
structure Module.KeepsImports (m r : Module) : Prop where
  sublist : r.rootStmt.imports.Sublist m.rootStmt.imports
  plain : m.rootStmt.plainImports ⊆ r.rootStmt.imports

end Shading
