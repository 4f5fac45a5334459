import Shading.Check.Expression
import Shading.Proofs.Check.Operation

/-! Checks of expressions that change nothing: names are looked up, types are found and rules are applied. -/
namespace Shading.Check

variable {α : Type}

theorem Reads.lookup (name : Text) : Reads (lookup? name) := ⟨fun h => (lookup_ok.mp h).2⟩

theorem Reads.typing (span : Span) (x : Except TypeError α) : Reads (typing span x) := ⟨fun h => (typing_ok.mp h).2⟩

theorem reads_structType (span : Span) (id : Int) : Reads (structType span id) := by
  refine .bind .getSession fun s => ?_
  split
  · exact .pure _
  · exact .reject _ _

theorem reads_reference (e : Expr) : Reads (reference e) := by
  unfold reference
  split
  case h_2 | h_3 | h_4 =>
    refine .bind .getSession fun s => ?_
    split
    · exact .pure _
    · exact .reject _ _
  case h_5 => exact .bind (reads_structType _ _) fun t => .pure _
  all_goals exact .pure _

theorem reads_named (i : ExprInfo) (n : Text) : Reads (named i n) := by
  refine .bind (.lookup n) fun b => ?_
  split
  case h_7 => exact .pure _
  case h_8 =>
    split
    · exact .pure _
    split
    · exact .pure _
    refine .bind .getDraft fun d => ?_
    split
    · exact .pure _
    · exact .reject _ _
  all_goals exact reads_reference _

theorem reads_namedType (span : Span) (name : Text) (hops : Nat) : Reads (namedType? span name hops) := by
  induction hops generalizing span name with
  | zero => exact .pure _
  | succ hops ih =>
    refine .bind (.lookup name) fun b => ?_
    split
    case h_1 | h_3 => exact .bind (reads_structType _ _) fun t => .pure _
    case h_4 i n => exact ih _ _
    case h_6 =>
      split
      · exact .pure _
      simp only [reject_bind]
      split
      · exact .reject _ _
      · exact .pure _
    all_goals exact .pure _

theorem reads_constructor (name : Text) : Reads (constructor? name) := by
  unfold constructor?
  split
  · exact .pure _
  · refine .bind (.lookup name) fun b => ?_
    split <;> exact .pure _

theorem reads_isUnresolved (e : Expr) : Reads (isUnresolved e) := by
  unfold isUnresolved
  split
  · refine .bind (.lookup _) fun b => ?_
    split
    · exact .pure _
    · exact .pure _
    · exact .bind .getDraft fun d => .pure _
  · exact .pure _

theorem reads_asType (e : Expr) (r : Option Ty) : Reads (asType e r) := by
  unfold asType
  split
  · exact .pure _
  · refine .bind (reads_isUnresolved e) fun b => ?_
    split
    · exact .pure _
    · exact .reject _ _

theorem reads_constantOf (span : Span) (what : Text) (e : Expr) : Reads (constantOf span what e) := by
  refine .bind (.evaluateWithDefaults e) fun r => ?_
  split
  · exact .pure _
  · exact .reject _ _

theorem reads_unsignedOf (span : Span) (what : Text) (e : Expr) : Reads (unsignedOf span what e) := by
  refine .bind (reads_constantOf span what e) fun v => ?_
  split
  · split
    · exact .pure _
    · exact .reject _ _
  · exact .reject _ _

theorem reads_foldCast (span : Span) (target : Ty) (args : List Expr) : Reads (foldCast span target args) := by
  unfold foldCast
  split
  · exact .pure _
  refine .bind .getSession fun s => ?_
  split
  · exact .pure _
  split
  · exact .pure _
  · exact .reject _ _

theorem reads_constructed (c : TypeConstructor) (name : Text) (span argSpan : Span) (t : Ty) :
    Reads (constructed c name span argSpan t) := by
  unfold constructed
  split
  case h_2 | h_3 =>
    split
    · exact .pure _
    · exact .reject _ _
  all_goals first | exact .pure _ | exact .reject _ _

theorem reads_requireBool (what : Text) (cond : Expr) : Reads (requireBool what cond) := by
  unfold requireBool
  split
  · exact .reject _ _
  · exact .pure _

theorem reads_binary (i : ExprInfo) (op : BinaryOp) (l r : Expr) : Reads (binary i op l r) := by
  unfold binary
  split
  · exact .pure _
  · exact .bind (.typing _ _) fun t => .pure _

theorem reads_unary (i : ExprInfo) (op : UnaryOp) (e : Expr) : Reads (unary i op e) := by
  unfold unary
  split
  · exact .pure _
  refine .bind (.typing _ _) fun t => ?_
  split
  case h_3 => exact .pure _
  all_goals
    split
    · exact .pure _
    · exact .reject _ _

theorem reads_assign (i : ExprInfo) (op : AssignOp) (l r : Expr) : Reads (assign i op l r) := by
  refine .bind (reads_checkAssignable l) fun _ => ?_
  split
  · exact .pure _
  simp only [reject_bind]
  split
  · refine .bind (.typing _ _) fun t => ?_
    split
    · exact .reject _ _
    · exact .pure _
  · split
    · exact .reject _ _
    · exact .pure _

theorem reads_ternary (i : ExprInfo) (c t f : Expr) : Reads (ternary i c t f) := by
  unfold ternary
  simp only [reject_bind]
  split
  · exact .pure _
  split
  · exact .reject _ _
  · exact .pure _

theorem reads_memberType (e : Expr) (r : Record Ty) : Reads (memberType e r) := by
  refine .bind (.evaluate e) fun v => ?_
  split
  · exact .reject _ _
  split
  · exact .pure _
  · exact .reject _ _

theorem reads_indexedType (span : Span) (t : Ty) (es : List Expr) : Reads (indexedType span t es) := by
  induction es generalizing t with
  | nil => exact .pure _
  | cons e es ih =>
    unfold indexedType
    simp only [reject_bind]
    split
    · exact .pure _
    split
    · exact .reject _ _
    split
    · split
      · exact .bind (reads_checkRange _ _ _) fun _ => ih _
      · exact ih _
    · exact .bind (reads_checkRange _ _ _) fun _ => ih _
    · exact .bind (reads_checkRange _ _ _) fun _ => ih _
    · split
      · exact .bind (reads_memberType _ _) fun t => ih t
      · exact .reject _ _

theorem reads_indexed (i : ExprInfo) (base : Expr) (indices : List Expr) : Reads (indexed i base indices) := by
  refine .bind (reads_indexedType _ _ _) fun r => ?_
  split <;> exact .pure _

theorem reads_swizzled (source : Expr) (components : List UInt32) (span : Span) :
    Reads (swizzled source components span) := by
  unfold swizzled
  simp only [reject_bind]
  split
  · split <;> exact .reject _ _
  split
  · exact .reject _ _
  split <;> (split; · exact .pure _) <;> split <;> exact .pure _

theorem reads_membersOf (i : ExprInfo) (base : Expr) (names : List Name) : Reads (membersOf i base names) := by
  induction names generalizing base with
  | nil => exact .pure _
  | cons n ns ih =>
    unfold membersOf
    simp only [reject_bind]
    split
    · exact .pure _
    split
    · split
      · exact .reject _ _
      · exact ih _
    · split
      · exact .reject _ _
      split
      · exact .reject _ _
      · exact .bind (reads_swizzled _ _ _) fun e => ih e

theorem reads_intrinsicCall (i : ExprInfo) (f : Intrinsic) (args : List Expr) : Reads (intrinsicCall i f args) := by
  unfold intrinsicCall
  split
  · exact .pure _
  · exact .bind (.typing _ _) fun t => .pure _

theorem reads_checkArguments (f : Function) (es : List Expr) (ts : List Ty) (n : Nat) :
    Reads (checkArguments f es ts n) := by
  induction es generalizing ts n with
  | nil => exact .pure _
  | cons e es ih =>
    cases ts with
    | nil => exact .pure _
    | cons t ts =>
      unfold checkArguments
      simp only [reject_bind]
      split
      · exact .reject _ _
      · exact ih ts (n + 1)

theorem reads_call (i : ExprInfo) (target : Expr) (args : List Expr) : Reads (call i target args) := by
  unfold call
  split
  · refine .bind .getSession fun s => ?_
    split
    · exact .reject _ _
    simp only [reject_bind]
    refine .bind .read fun site => ?_
    split
    · exact .reject _ _
    split
    · exact .reject _ _
    split
    · exact .reject _ _
    · exact .bind (reads_checkArguments _ _ _ _) fun _ => .pure _
  · exact reads_intrinsicCall _ _ _
  · exact .pure _
  · exact .reject _ _

theorem reads_methodCall (i : ExprInfo) (object : Expr) (name : Text) (args : List Expr) :
    Reads (methodCall i object name args) := by
  unfold methodCall
  split
  · exact .pure _
  · split
    · exact reads_intrinsicCall _ _ _
    · exact .reject _ _
  · split
    · exact .reject _ _
    split
    · exact .reject _ _
    split
    · exact .pure _
    · exact reads_intrinsicCall _ _ _
  · exact .reject _ _

end Shading.Check
