import Shading.Module.Copy
import Shading.Module.Equality

/-! When the comparison of trees answers yes: exactly when they differ in their marks only, that is in places and
in the numbers inside types. An attribute whose value is not known has none that could be compared. -/
namespace Shading

/-- What the comparison passes over. -/
inductive Mark
  | place (s : Span)
  | number (n : Int)

-- For every kind of node, `erase` takes its marks away and `marks` lists them.
namespace Ty

mutual

def erase : Ty → Ty
  | .array t n => .array (erase t) n
  | .struct ⟨_, name, ms⟩ => .struct ⟨0, name, eraseMembers ms⟩
  | .uniform ⟨_, name, ms⟩ => .uniform ⟨0, name, eraseMembers ms⟩
  | .storage ⟨_, name, ms⟩ => .storage ⟨0, name, eraseMembers ms⟩
  | .func _ name params result => .func 0 name (eraseList params) (erase result)
  | t => t

def eraseList : List Ty → List Ty
  | [] => []
  | t :: ts => erase t :: eraseList ts

def eraseMembers : List (Text × Ty) → List (Text × Ty)
  | [] => []
  | (name, t) :: ms => (name, erase t) :: eraseMembers ms

end

mutual

def marks : Ty → List Mark
  | .array t _ => marks t
  | .struct ⟨id, _, ms⟩ | .uniform ⟨id, _, ms⟩ | .storage ⟨id, _, ms⟩ => .number id :: marksMembers ms
  | .func id _ params result => .number id :: (marksList params ++ marks result)
  | _ => []

def marksList : List Ty → List Mark
  | [] => []
  | t :: ts => marks t ++ marksList ts

def marksMembers : List (Text × Ty) → List Mark
  | [] => []
  | (_, t) :: ms => marks t ++ marksMembers ms

end

mutual

theorem same_iff (t u : Ty) : t.same u = true ↔ t.erase = u.erase := by
  cases t with
  | array t n => cases u with
    | array u m => simp [same, erase, same_iff t u, and_comm]
    | _ => exact iff_of_false Bool.false_ne_true fun h => by cases h
  | struct r => cases u with
    | struct s => simp [same, erase, sameMembers_iff r.members s.members]
    | _ => exact iff_of_false Bool.false_ne_true fun h => by cases h
  | uniform r => cases u with
    | uniform s => simp [same, erase, sameMembers_iff r.members s.members]
    | _ => exact iff_of_false Bool.false_ne_true fun h => by cases h
  | storage r => cases u with
    | storage s => simp [same, erase, sameMembers_iff r.members s.members]
    | _ => exact iff_of_false Bool.false_ne_true fun h => by cases h
  | func _ _ ps a => cases u with
    | func _ _ qs b => simp [same, erase, sameList_iff ps qs, same_iff a b, and_assoc]
    | _ => exact iff_of_false Bool.false_ne_true fun h => by cases h
  | _ =>
    cases u <;> simp only [same, erase, Bool.and_eq_true, Bool.false_eq_true, beq_iff_eq, reduceCtorEq, prim.injEq,
      vector.injEq, matrix.injEq, sampler.injEq, intrinsic.injEq, and_assoc]

theorem sameList_iff (ts us : List Ty) : sameList ts us = true ↔ eraseList ts = eraseList us := by
  cases ts with
  | nil => cases us <;> simp [sameList, eraseList]
  | cons t ts => cases us with
    | nil => simp [sameList, eraseList]
    | cons u us => simp [sameList, eraseList, same_iff t u, sameList_iff ts us]

theorem sameMembers_iff (ms ns : List (Text × Ty)) :
    sameMembers ms ns = true ↔ eraseMembers ms = eraseMembers ns := by
  cases ms with
  | nil => cases ns <;> simp [sameMembers, eraseMembers]
  | cons m ms => cases ns with
    | nil => simp [sameMembers, eraseMembers]
    | cons n ns => simp [sameMembers, eraseMembers, same_iff m.2 n.2, sameMembers_iff ms ns]

end

@[simp] theorem same_refl (t : Ty) : t.same t = true := (same_iff t t).mpr rfl

/-- The marks in front of a list determine a type among those that are equal to it. -/
theorem marks_cancel : (∀ t u : Ty, t.same u = true → ∀ k l, t.marks ++ k = u.marks ++ l ↔ t = u ∧ k = l) ∧
    (∀ ts us : List Ty, sameList ts us = true → ∀ k l, marksList ts ++ k = marksList us ++ l ↔ ts = us ∧ k = l) ∧
    ∀ ms ns : List (Text × Ty), sameMembers ms ns = true →
      ∀ k l, marksMembers ms ++ k = marksMembers ns ++ l ↔ ms = ns ∧ k = l := by
  refine same.mutual_induct _ _ _ ?unknown ?prim ?vector ?matrix ?array ?struct ?sampler ?uniform ?storage ?func
    ?intrinsic ?void ?apart ?nil ?cons ?apartList ?nilMembers ?consMembers ?apartMembers
  case struct | uniform | storage =>
    intro ⟨_, _, _⟩ ⟨_, _, _⟩ ih h k l
    simp_all only [same, marks, Bool.and_eq_true, beq_iff_eq, List.cons_append, List.cons.injEq, Mark.number.injEq,
      struct.injEq, uniform.injEq, storage.injEq, Record.mk.injEq, true_and, and_assoc]
  case func | cons | consMembers =>
    intros
    simp_all only [same, sameList, sameMembers, marks, marksList, marksMembers, Bool.and_eq_true, beq_iff_eq,
      List.cons_append, List.append_assoc, List.cons.injEq, Mark.number.injEq, func.injEq, Prod.mk.injEq, true_and,
      and_assoc]
  case apart =>
    intros
    simp_all only [same, imp_false, Bool.forall_bool, Bool.false_eq_true]
  case apartList | apartMembers =>
    intros
    simp_all only [sameList, sameMembers, imp_false, Bool.false_eq_true]
  case array =>
    intros
    simp_all only [same, marks, Bool.and_eq_true, beq_iff_eq, array.injEq, and_true]
  all_goals
    intros
    simp_all only [same, sameList, sameMembers, marks, marksList, marksMembers, Bool.and_eq_true, beq_iff_eq,
      List.nil_append, true_and]

end Ty

namespace Value

mutual

theorem same_iff (v w : Value) : v.same w = true ↔ v = w := by
  cases v with
  | vector cs => cases w with
    | vector ds => simp [same, sameList_iff cs ds]
    | _ => simp [same]
  | matrix cols => cases w with
    | matrix cols' => simp [same, sameColumns_iff cols cols']
    | _ => simp [same]
  | _ => cases w <;> simp [same]

theorem sameList_iff (vs ws : List Value) : sameList vs ws = true ↔ vs = ws := by
  cases vs with
  | nil => cases ws <;> simp [sameList]
  | cons v vs => cases ws with
    | nil => simp [sameList]
    | cons w ws => simp [sameList, same_iff v w, sameList_iff vs ws]

theorem sameColumns_iff (cols cols' : List (List Value)) : sameColumns cols cols' = true ↔ cols = cols' := by
  cases cols with
  | nil => cases cols' <;> simp [sameColumns]
  | cons c cols => cases cols' with
    | nil => simp [sameColumns]
    | cons c' cols' => simp [sameColumns, sameList_iff c c', sameColumns_iff cols cols']

end

@[simp] theorem same_refl (v : Value) : v.same v = true := (same_iff v v).mpr rfl

end Value

namespace ExprInfo

def erase (i : ExprInfo) : ExprInfo := ⟨{}, i.type.erase⟩

def marks (i : ExprInfo) : List Mark := .place i.span :: i.type.marks

theorem erase_eq_iff {i j : ExprInfo} : i.erase = j.erase ↔ i.type.same j.type = true := by
  simp [erase, Ty.same_iff]

theorem marks_cancel {i j : ExprInfo} (h : i.type.same j.type = true) (k l : List Mark) :
    i.marks ++ k = j.marks ++ l ↔ i = j ∧ k = l := by
  obtain ⟨s, t⟩ := i
  obtain ⟨s', t'⟩ := j
  simp [marks, Ty.marks_cancel.1 t t' h, and_assoc]

end ExprInfo

namespace Name

def erase (n : Name) : Name := { n with span := {} }

def marks (n : Name) : List Mark := [.place n.span]

theorem texts_eq_iff {ns ms : List Name} : ns.map (·.text) = ms.map (·.text) ↔ ns.map erase = ms.map erase := by
  induction ns generalizing ms with
  | nil => cases ms <;> simp
  | cons n ns ih => cases ms <;> simp [erase, ih]

theorem marks_cancel {ns ms : List Name} (h : ns.map (·.text) = ms.map (·.text)) (k l : List Mark) :
    ns.flatMap marks ++ k = ms.flatMap marks ++ l ↔ ns = ms ∧ k = l := by
  induction ns generalizing ms with
  | nil =>
    obtain rfl : ms = [] := by simpa using h.symm
    simp
  | cons n ns ih =>
    cases ms with
    | nil => simp at h
    | cons m ms =>
      obtain ⟨t, s⟩ := n
      obtain ⟨t', s'⟩ := m
      simp only [List.map_cons, List.cons.injEq] at h
      simp [marks, ih h.2, h.1, and_assoc]

end Name

namespace Expr

mutual

def erase : Expr → Expr
  | .absent => .absent
  | .name i n => .name i.erase n
  | .var i id => .var i.erase id
  | .const i id => .const i.erase id
  | .literal i v => .literal i.erase v
  | .binary i op l r => .binary i.erase op (erase l) (erase r)
  | .unary i op e => .unary i.erase op (erase e)
  | .assign i op l r => .assign i.erase op (erase l) (erase r)
  | .cast i target args => .cast i.erase (erase target) (eraseList args)
  | .ternary i c t f => .ternary i.erase (erase c) (erase t) (erase f)
  | .index i base indices => .index i.erase (erase base) (eraseList indices)
  | .member i base names => .member i.erase (erase base) (names.map Name.erase)
  | .swizzle i base s => .swizzle i.erase (erase base) s
  | .call i target args => .call i.erase (erase target) (eraseList args)
  | .method i object n args => .method i.erase (erase object) n (eraseList args)
  | .intrinsic i fn args => .intrinsic i.erase fn (eraseList args)
  | .function i id => .function i.erase id
  | .intrinsicRef i fn => .intrinsicRef i.erase fn
  | .structRef i id => .structRef i.erase id
  | .typeRef i t => .typeRef i.erase t.erase

def eraseList : List Expr → List Expr
  | [] => []
  | e :: es => erase e :: eraseList es

end

mutual

def marks : Expr → List Mark
  | .absent => []
  | .name i _ | .var i _ | .const i _ | .literal i _ | .function i _ | .intrinsicRef i _ | .structRef i _ => i.marks
  | .typeRef i t => i.marks ++ t.marks
  | .unary i _ e | .swizzle i e _ => i.marks ++ marks e
  | .binary i _ l r | .assign i _ l r => i.marks ++ (marks l ++ marks r)
  | .ternary i c t f => i.marks ++ (marks c ++ (marks t ++ marks f))
  | .member i base names => i.marks ++ (marks base ++ names.flatMap Name.marks)
  | .cast i e args | .index i e args | .call i e args | .method i e _ args => i.marks ++ (marks e ++ marksList args)
  | .intrinsic i _ args => i.marks ++ marksList args

def marksList : List Expr → List Mark
  | [] => []
  | e :: es => marks e ++ marksList es

end

mutual

theorem same_iff (a b : Expr) : a.same b = true ↔ a.erase = b.erase := by
  cases a with
  | literal i v => cases b with
    | literal j w => simp [same, erase, ExprInfo.erase_eq_iff, Value.same_iff]
    | _ => exact iff_of_false Bool.false_ne_true fun h => by cases h
  | typeRef i t => cases b with
    | typeRef j u => simp [same, erase, ExprInfo.erase_eq_iff, Ty.same_iff]
    | _ => exact iff_of_false Bool.false_ne_true fun h => by cases h
  | binary i op l r => cases b with
    | binary j oq m s => simp [same, erase, ExprInfo.erase_eq_iff, same_iff l m, same_iff r s, and_assoc]
    | _ => exact iff_of_false Bool.false_ne_true fun h => by cases h
  | unary i op e => cases b with
    | unary j oq f => simp [same, erase, ExprInfo.erase_eq_iff, same_iff e f, and_assoc]
    | _ => exact iff_of_false Bool.false_ne_true fun h => by cases h
  | assign i op l r => cases b with
    | assign j oq m s => simp [same, erase, ExprInfo.erase_eq_iff, same_iff l m, same_iff r s, and_assoc]
    | _ => exact iff_of_false Bool.false_ne_true fun h => by cases h
  | cast i t as => cases b with
    | cast j u bs => simp [same, erase, ExprInfo.erase_eq_iff, same_iff t u, sameList_iff as bs, and_assoc]
    | _ => exact iff_of_false Bool.false_ne_true fun h => by cases h
  | ternary i c t f => cases b with
    | ternary j d u g =>
      simp [same, erase, ExprInfo.erase_eq_iff, same_iff c d, same_iff t u, same_iff f g, and_assoc]
    | _ => exact iff_of_false Bool.false_ne_true fun h => by cases h
  | index i e as => cases b with
    | index j f bs => simp [same, erase, ExprInfo.erase_eq_iff, same_iff e f, sameList_iff as bs, and_assoc]
    | _ => exact iff_of_false Bool.false_ne_true fun h => by cases h
  | member i e ns => cases b with
    | member j f ms => simp [same, erase, ExprInfo.erase_eq_iff, same_iff e f, Name.texts_eq_iff, and_assoc]
    | _ => exact iff_of_false Bool.false_ne_true fun h => by cases h
  | swizzle i e s => cases b with
    | swizzle j f t => simp [same, erase, ExprInfo.erase_eq_iff, same_iff e f, and_assoc, and_comm (a := s = t)]
    | _ => exact iff_of_false Bool.false_ne_true fun h => by cases h
  | call i t as => cases b with
    | call j u bs => simp [same, erase, ExprInfo.erase_eq_iff, same_iff t u, sameList_iff as bs, and_assoc]
    | _ => exact iff_of_false Bool.false_ne_true fun h => by cases h
  | method i o n as => cases b with
    | method j p m bs =>
      simp [same, erase, ExprInfo.erase_eq_iff, same_iff o p, sameList_iff as bs, and_assoc, and_left_comm]
    | _ => exact iff_of_false Bool.false_ne_true fun h => by cases h
  | intrinsic i f as => cases b with
    | intrinsic j g bs => simp [same, erase, ExprInfo.erase_eq_iff, sameList_iff as bs, and_assoc]
    | _ => exact iff_of_false Bool.false_ne_true fun h => by cases h
  | _ =>
    cases b <;> simp only [same, erase, ExprInfo.erase_eq_iff, Bool.and_eq_true, Bool.false_eq_true, beq_iff_eq,
      reduceCtorEq, name.injEq, var.injEq, const.injEq, function.injEq, intrinsicRef.injEq, structRef.injEq]

theorem sameList_iff (as bs : List Expr) : sameList as bs = true ↔ eraseList as = eraseList bs := by
  cases as with
  | nil => cases bs <;> simp [sameList, eraseList]
  | cons a as => cases bs with
    | nil => simp [sameList, eraseList]
    | cons b bs => simp [sameList, eraseList, same_iff a b, sameList_iff as bs]

end

/-- The marks in front of a list determine an expression among those that are equal to it. -/
theorem marks_cancel : (∀ a b : Expr, a.same b = true → ∀ k l, a.marks ++ k = b.marks ++ l ↔ a = b ∧ k = l) ∧
    ∀ as bs : List Expr, sameList as bs = true → ∀ k l, marksList as ++ k = marksList bs ++ l ↔ as = bs ∧ k = l := by
  refine same.mutual_induct _ _ ?absent ?name ?var ?const ?literal ?binary ?unary ?assign ?cast ?ternary ?index
    ?member ?swizzle ?call ?method ?intrinsic ?function ?intrinsicRef ?structRef ?typeRef ?apart ?nil ?cons ?apartList
  case binary | unary | assign | cast | ternary | index | swizzle | call | method | intrinsic =>
    intros
    simp_all only [same, marks, Bool.and_eq_true, beq_iff_eq, List.append_assoc, ExprInfo.marks_cancel, binary.injEq,
      unary.injEq, assign.injEq, cast.injEq, ternary.injEq, index.injEq, swizzle.injEq, call.injEq, method.injEq,
      intrinsic.injEq, true_and, and_true, and_assoc]
  case member =>
    intros
    simp_all only [same, marks, Bool.and_eq_true, beq_iff_eq, List.append_assoc, ExprInfo.marks_cancel,
      Name.marks_cancel, member.injEq, and_assoc]
  case typeRef =>
    intro i t j u h k l
    simp_all only [same, marks, Bool.and_eq_true, List.append_assoc, ExprInfo.marks_cancel, Ty.marks_cancel.1 t u,
      typeRef.injEq, and_assoc]
  case cons =>
    intros
    simp_all only [sameList, marksList, Bool.and_eq_true, List.append_assoc, List.cons.injEq, and_assoc]
  case apart | apartList =>
    intros
    simp_all only [same, sameList, imp_false, Bool.false_eq_true]
  case absent | nil =>
    intros
    simp_all only [same, sameList, marks, marksList, List.nil_append, true_and]
  all_goals
    intros
    simp_all only [same, marks, Bool.and_eq_true, beq_iff_eq, Value.same_iff, ExprInfo.marks_cancel, name.injEq,
      var.injEq, const.injEq, literal.injEq, function.injEq, intrinsicRef.injEq, structRef.injEq, and_true]

end Expr

namespace Attr

variable {α : Type}

def erase (a : Attr α) : Attr α := { a with expr := a.expr.erase }

def marks (a : Attr α) : List Mark := a.expr.marks

variable [BEq α] [LawfulBEq α] {a b : Attr α}

theorem same_iff : a.same b = true ↔ a.erase = b.erase := by
  simp [same, erase, Expr.same_iff, and_comm]

theorem marks_cancel (h : a.same b = true) (k l : List Mark) : a.marks ++ k = b.marks ++ l ↔ a = b ∧ k = l := by
  obtain ⟨e, v⟩ := a
  obtain ⟨f, w⟩ := b
  simp_all [same, marks, Expr.marks_cancel.1 e f]

end Attr

theorem sameBy_iff {α β : Type} {f : α → α → Bool} {g : α → β} (hf : ∀ a b, f a b = true ↔ g a = g b)
    (as bs : List α) : sameBy f as bs = true ↔ as.map g = bs.map g := by
  induction as generalizing bs with
  | nil => cases bs <;> simp [sameBy]
  | cons a as ih => cases bs <;> simp [sameBy, hf, ih]

theorem sameBy_cancel {α : Type} {f : α → α → Bool} {g : α → List Mark}
    (hg : ∀ a b, f a b = true → ∀ k l, g a ++ k = g b ++ l ↔ a = b ∧ k = l) (as bs : List α)
    (h : sameBy f as bs = true) (k l : List Mark) : as.flatMap g ++ k = bs.flatMap g ++ l ↔ as = bs ∧ k = l := by
  induction as generalizing bs with
  | nil => cases bs <;> simp_all [sameBy]
  | cons a as ih =>
    cases bs with
    | nil => simp [sameBy] at h
    | cons b bs =>
      obtain ⟨hab, hrest⟩ : f a b = true ∧ sameBy f as bs = true := by simpa [sameBy] using h
      simp [hg a b hab, ih bs hrest, and_assoc]

namespace StructMember

def erase (m : StructMember) : StructMember :=
  ⟨{}, m.name, m.type.erase, m.builtin.erase, m.location.erase, m.cond.erase⟩

def marks (m : StructMember) : List Mark :=
  .place m.span :: (m.type.marks ++ (m.builtin.marks ++ (m.location.marks ++ m.cond.marks)))

theorem same_iff (m n : StructMember) : m.same n = true ↔ m.erase = n.erase := by
  simp [same, erase, Expr.same_iff, Attr.same_iff, and_assoc]

theorem marks_cancel (m n : StructMember) (h : m.same n = true) (k l : List Mark) :
    m.marks ++ k = n.marks ++ l ↔ m = n ∧ k = l := by
  obtain ⟨_, _, t, _, _, c⟩ := m
  obtain ⟨_, _, u, _, _, d⟩ := n
  simp_all [same, marks, Expr.marks_cancel.1 t u, Expr.marks_cancel.1 c d, Attr.marks_cancel, and_assoc]

end StructMember

namespace FnParam

def erase (p : FnParam) : FnParam := ⟨{}, p.name, p.type.erase, p.id⟩

def marks (p : FnParam) : List Mark := .place p.span :: p.type.marks

end FnParam

namespace FnHead

def erase (h : FnHead) : FnHead :=
  ⟨h.name, h.params.map FnParam.erase, h.result.erase, h.stage.erase, h.earlyTests.erase, h.depthWrite.erase,
    h.workgroup.erase, h.exported.erase, h.id⟩

def marks (h : FnHead) : List Mark :=
  h.params.flatMap FnParam.marks ++ (h.result.marks ++ (h.stage.marks ++ (h.earlyTests.marks ++
    (h.depthWrite.marks ++ (h.workgroup.marks ++ h.exported.marks)))))

theorem same_iff (g h : FnHead) : g.same h = true ↔ g.erase = h.erase := by
  have hparams := sameBy_iff (f := fun p q => p.name == q.name && p.id == q.id && p.type.same q.type)
    (g := FnParam.erase) (by simp [FnParam.erase, Expr.same_iff, and_assoc, and_comm, and_left_comm]) g.params h.params
  simp [same, erase, hparams, Attr.same_iff, Expr.same_iff, and_assoc, and_comm, and_left_comm]

theorem marks_cancel (g h : FnHead) (hsame : g.same h = true) (k l : List Mark) :
    g.marks ++ k = h.marks ++ l ↔ g = h ∧ k = l := by
  have hparams := sameBy_cancel (f := fun p q => p.name == q.name && p.id == q.id && p.type.same q.type)
    (g := FnParam.marks) (fun p q hpq k l => by
      obtain ⟨_, _, t, _⟩ := p
      obtain ⟨_, _, u, _⟩ := q
      simp_all [FnParam.marks, Expr.marks_cancel.1 t u, and_assoc]) g.params h.params
  obtain ⟨_, _, t, _, _, _, _, _, _⟩ := g
  obtain ⟨_, _, u, _, _, _, _, _, _⟩ := h
  simp_all [same, marks, Expr.marks_cancel.1 t u, Attr.marks_cancel, and_assoc]

end FnHead

namespace External

def erase (v : External) : External := ⟨{}, v.name, v.type.erase, v.set.erase, v.binding.erase, v.id⟩

def marks (v : External) : List Mark := .place v.span :: (v.type.marks ++ (v.set.marks ++ v.binding.marks))

theorem same_iff (v w : External) : v.same w = true ↔ v.erase = w.erase := by
  simp [same, erase, Attr.same_iff, Expr.same_iff, and_assoc, and_comm, and_left_comm]

theorem marks_cancel (v w : External) (h : v.same w = true) (k l : List Mark) :
    v.marks ++ k = w.marks ++ l ↔ v = w ∧ k = l := by
  obtain ⟨_, _, t, _, _, _⟩ := v
  obtain ⟨_, _, u, _, _, _⟩ := w
  simp_all [same, marks, Expr.marks_cancel.1 t u, Attr.marks_cancel, and_assoc]

end External

namespace ImportItem

def erase (x : ImportItem) : ImportItem := { x with span := {} }

def marks (x : ImportItem) : List Mark := [.place x.span]

end ImportItem

namespace VarDecl

def erase (d : VarDecl) : VarDecl := { d with type := d.type.erase, init := d.init.erase }

def marks (d : VarDecl) : List Mark := d.type.marks ++ d.init.marks

end VarDecl

namespace ConstDecl

def erase (d : ConstDecl) : ConstDecl :=
  { d with type := d.type.erase, value := d.value.erase, exported := d.exported.erase }

def marks (d : ConstDecl) : List Mark := d.type.marks ++ (d.value.marks ++ d.exported.marks)

end ConstDecl

namespace AliasDecl

def erase (d : AliasDecl) : AliasDecl := { d with target := d.target.erase, exported := d.exported.erase }

def marks (d : AliasDecl) : List Mark := d.target.marks ++ d.exported.marks

end AliasDecl

namespace OptionDecl

def erase (d : OptionDecl) : OptionDecl := { d with type := d.type.erase, default := d.default.erase }

def marks (d : OptionDecl) : List Mark := d.type.marks ++ d.default.marks

end OptionDecl

namespace StructDecl

def erase (d : StructDecl) : StructDecl :=
  { d with layout := d.layout.erase, members := d.members.map StructMember.erase, exported := d.exported.erase }

def marks (d : StructDecl) : List Mark :=
  d.layout.marks ++ (d.members.flatMap StructMember.marks ++ d.exported.marks)

end StructDecl

namespace RangeHead

def erase (h : RangeHead) : RangeHead :=
  { h with start := h.start.erase, stop := h.stop.erase, step := h.step.erase, unroll := h.unroll.erase }

def marks (h : RangeHead) : List Mark := h.start.marks ++ (h.stop.marks ++ (h.step.marks ++ h.unroll.marks))

end RangeHead

namespace EachHead

def erase (h : EachHead) : EachHead := { h with array := h.array.erase, unroll := h.unroll.erase }

def marks (h : EachHead) : List Mark := h.array.marks ++ h.unroll.marks

end EachHead

namespace Stmt

mutual

def erase : Stmt → Stmt
  | .absent => .absent
  | .expr _ e => .expr {} e.erase
  | .letVar _ d => .letVar {} d.erase
  | .const _ d => .const {} d.erase
  | .alias _ d => .alias {} d.erase
  | .option _ d => .option {} d.erase
  | .struct _ d => .struct {} d.erase
  | .function _ head body => .function {} head.erase (eraseList body)
  | .external _ set vars => .external {} set.erase (vars.map External.erase)
  | .branch _ isConst arms other => .branch {} isConst (eraseArms arms) (erase other)
  | .conditional _ c body => .conditional {} c.erase (erase body)
  | .forRange _ head body => .forRange {} head.erase (erase body)
  | .forEach _ head body => .forEach {} head.erase (erase body)
  | .loop _ c unroll body => .loop {} c.erase unroll.erase (erase body)
  | .returnWith _ e => .returnWith {} e.erase
  | .discard _ => .discard {}
  | .breakLoop _ => .breakLoop {}
  | .continueLoop _ => .continueLoop {}
  | .importFrom _ name items => .importFrom {} name (items.map ImportItem.erase)
  | .multi _ body => .multi {} (eraseList body)
  | .scoped _ body => .scoped {} (erase body)
  | .noOp _ => .noOp {}

def eraseList : List Stmt → List Stmt
  | [] => []
  | s :: ss => erase s :: eraseList ss

def eraseArms : List (Expr × Stmt) → List (Expr × Stmt)
  | [] => []
  | (c, s) :: arms => (c.erase, erase s) :: eraseArms arms

end

mutual

def marks : Stmt → List Mark
  | .absent => []
  | .discard s | .breakLoop s | .continueLoop s | .noOp s => [.place s]
  | .expr s e | .returnWith s e => .place s :: e.marks
  | .letVar s d => .place s :: d.marks
  | .const s d => .place s :: d.marks
  | .alias s d => .place s :: d.marks
  | .option s d => .place s :: d.marks
  | .struct s d => .place s :: d.marks
  | .function s head body => .place s :: (head.marks ++ marksList body)
  | .external s set vars => .place s :: (set.marks ++ vars.flatMap External.marks)
  | .branch s _ arms other => .place s :: (marksArms arms ++ marks other)
  | .conditional s c body => .place s :: (c.marks ++ marks body)
  | .forRange s head body => .place s :: (head.marks ++ marks body)
  | .forEach s head body => .place s :: (head.marks ++ marks body)
  | .loop s c unroll body => .place s :: (c.marks ++ (unroll.marks ++ marks body))
  | .importFrom s _ items => .place s :: items.flatMap ImportItem.marks
  | .multi s body => .place s :: marksList body
  | .scoped s body => .place s :: marks body

def marksList : List Stmt → List Mark
  | [] => []
  | s :: ss => marks s ++ marksList ss

def marksArms : List (Expr × Stmt) → List Mark
  | [] => []
  | (c, s) :: arms => c.marks ++ (marks s ++ marksArms arms)

end

mutual

theorem same_iff (s t : Stmt) : s.same t = true ↔ s.erase = t.erase := by
  cases s with
  | letVar s d => cases t with
    | letVar t e => simp [same, erase, VarDecl.erase, Expr.same_iff, and_assoc, and_comm, and_left_comm]
    | _ => exact iff_of_false Bool.false_ne_true fun h => by cases h
  | const s d => cases t with
    | const t e =>
      simp [same, erase, ConstDecl.erase, Attr.same_iff, Expr.same_iff, and_assoc, and_comm, and_left_comm]
    | _ => exact iff_of_false Bool.false_ne_true fun h => by cases h
  | «alias» s d => cases t with
    | «alias» t e =>
      simp [same, erase, AliasDecl.erase, Attr.same_iff, Expr.same_iff, and_assoc, and_comm, and_left_comm]
    | _ => exact iff_of_false Bool.false_ne_true fun h => by cases h
  | option s d => cases t with
    | option t e => simp [same, erase, OptionDecl.erase, Expr.same_iff, and_assoc, and_comm, and_left_comm]
    | _ => exact iff_of_false Bool.false_ne_true fun h => by cases h
  | struct s d => cases t with
    | struct t e =>
      simp [same, erase, StructDecl.erase, Attr.same_iff, sameBy_iff StructMember.same_iff, and_assoc, and_comm,
        and_left_comm]
    | _ => exact iff_of_false Bool.false_ne_true fun h => by cases h
  | function s g as => cases t with
    | function t h bs => simp [same, erase, FnHead.same_iff, sameList_iff as bs]
    | _ => exact iff_of_false Bool.false_ne_true fun h => by cases h
  | external s set vs => cases t with
    | external t set' ws => simp [same, erase, Attr.same_iff, sameBy_iff External.same_iff]
    | _ => exact iff_of_false Bool.false_ne_true fun h => by cases h
  | branch s c as e => cases t with
    | branch t d bs f => simp [same, erase, sameArms_iff as bs, same_iff e f, and_assoc]
    | _ => exact iff_of_false Bool.false_ne_true fun h => by cases h
  | conditional s c b => cases t with
    | conditional t d b' => simp [same, erase, Expr.same_iff, same_iff b b']
    | _ => exact iff_of_false Bool.false_ne_true fun h => by cases h
  | forRange s g b => cases t with
    | forRange t h b' =>
      simp [same, erase, RangeHead.erase, Attr.same_iff, Expr.same_iff, same_iff b b', and_assoc, and_comm,
        and_left_comm]
    | _ => exact iff_of_false Bool.false_ne_true fun h => by cases h
  | forEach s g b => cases t with
    | forEach t h b' =>
      simp [same, erase, EachHead.erase, Attr.same_iff, Expr.same_iff, same_iff b b', and_assoc, and_comm,
        and_left_comm]
    | _ => exact iff_of_false Bool.false_ne_true fun h => by cases h
  | loop s c u b => cases t with
    | loop t d v b' => simp [same, erase, Attr.same_iff, Expr.same_iff, same_iff b b', and_assoc, and_left_comm]
    | _ => exact iff_of_false Bool.false_ne_true fun h => by cases h
  | importFrom s m xs => cases t with
    | importFrom t n ys =>
      have hitems := sameBy_iff (f := fun x y => x.name == y.name && x.rename == y.rename) (g := ImportItem.erase)
        (by simp [ImportItem.erase]) xs ys
      simp [same, erase, hitems]
    | _ => exact iff_of_false Bool.false_ne_true fun h => by cases h
  | multi s as => cases t with
    | multi t bs => simp [same, erase, sameList_iff as bs]
    | _ => exact iff_of_false Bool.false_ne_true fun h => by cases h
  | «scoped» s b => cases t with
    | «scoped» t b' => simp [same, erase, same_iff b b']
    | _ => exact iff_of_false Bool.false_ne_true fun h => by cases h
  | _ =>
    cases t <;> simp only [same, erase, Expr.same_iff, Bool.false_eq_true, reduceCtorEq, expr.injEq, returnWith.injEq,
      true_and]

theorem sameList_iff (as bs : List Stmt) : sameList as bs = true ↔ eraseList as = eraseList bs := by
  cases as with
  | nil => cases bs <;> simp [sameList, eraseList]
  | cons a as => cases bs with
    | nil => simp [sameList, eraseList]
    | cons b bs => simp [sameList, eraseList, same_iff a b, sameList_iff as bs]

theorem sameArms_iff (as bs : List (Expr × Stmt)) : sameArms as bs = true ↔ eraseArms as = eraseArms bs := by
  cases as with
  | nil => cases bs <;> simp [sameArms, eraseArms]
  | cons a as => cases bs with
    | nil => simp [sameArms, eraseArms]
    | cons b bs => simp [sameArms, eraseArms, Expr.same_iff, same_iff a.2 b.2, sameArms_iff as bs]

end

/-- The marks in front of a list determine a statement among those that are equal to it. -/
theorem marks_cancel : (∀ s t : Stmt, s.same t = true → ∀ k l, s.marks ++ k = t.marks ++ l ↔ s = t ∧ k = l) ∧
    (∀ as bs : List (Expr × Stmt), sameArms as bs = true →
      ∀ k l, marksArms as ++ k = marksArms bs ++ l ↔ as = bs ∧ k = l) ∧
    ∀ as bs : List Stmt, sameList as bs = true →
      ∀ k l, marksList as ++ k = marksList bs ++ l ↔ as = bs ∧ k = l := by
  have hexpr (e f : Expr) (h : e.same f = true) (k l : List Mark) := Expr.marks_cancel.1 e f h k l
  refine same.mutual_induct _ _ _ ?absent ?expr ?letVar ?const ?aliasOf ?option ?struct ?function ?external ?branch
    ?conditional ?forRange ?forEach ?loop ?returnWith ?discard ?breakLoop ?continueLoop ?noOp ?importFrom ?multi
    ?inScope ?apart ?nil ?cons ?apartList ?nilArms ?consArms ?apartArms
  case letVar =>
    intro s ⟨_, _, _, _⟩ t ⟨_, _, _, _⟩ h k l
    simp_all only [same, marks, VarDecl.marks, Bool.and_eq_true, beq_iff_eq, List.cons_append, List.append_assoc,
      List.cons.injEq, Mark.place.injEq, letVar.injEq, VarDecl.mk.injEq, and_true, true_and, and_assoc]
  case const =>
    intro s ⟨_, _, _, _, _⟩ t ⟨_, _, _, _, _⟩ h k l
    simp_all only [same, marks, ConstDecl.marks, Attr.marks_cancel, Bool.and_eq_true, beq_iff_eq, List.cons_append,
      List.append_assoc, List.cons.injEq, Mark.place.injEq, const.injEq, ConstDecl.mk.injEq, and_true, true_and,
      and_assoc]
  case aliasOf =>
    intro s ⟨_, _, _, _⟩ t ⟨_, _, _, _⟩ h k l
    simp_all only [same, marks, AliasDecl.marks, Attr.marks_cancel, Bool.and_eq_true, beq_iff_eq, List.cons_append,
      List.append_assoc, List.cons.injEq, Mark.place.injEq, alias.injEq, AliasDecl.mk.injEq, and_true, true_and,
      and_assoc]
  case option =>
    intro s ⟨_, _, _, _⟩ t ⟨_, _, _, _⟩ h k l
    simp_all only [same, marks, OptionDecl.marks, Bool.and_eq_true, beq_iff_eq, List.cons_append, List.append_assoc,
      List.cons.injEq, Mark.place.injEq, option.injEq, OptionDecl.mk.injEq, and_true, true_and, and_assoc]
  case struct =>
    intro s ⟨_, _, ms, _, _⟩ t ⟨_, _, ns, _, _⟩ h k l
    simp_all only [same, marks, StructDecl.marks, Attr.marks_cancel, sameBy_cancel StructMember.marks_cancel ms ns,
      Bool.and_eq_true, beq_iff_eq, List.cons_append, List.append_assoc, List.cons.injEq, Mark.place.injEq,
      struct.injEq, StructDecl.mk.injEq, and_true, true_and, and_assoc]
  case function =>
    intro s g as t h bs ih hsame k l
    simp_all only [same, marks, FnHead.marks_cancel g h, Bool.and_eq_true, List.cons_append, List.append_assoc,
      List.cons.injEq, Mark.place.injEq, function.injEq, and_assoc]
  case external =>
    intro s set vs t set' ws h k l
    simp_all only [same, marks, Attr.marks_cancel, sameBy_cancel External.marks_cancel vs ws, Bool.and_eq_true,
      List.cons_append, List.append_assoc, List.cons.injEq, Mark.place.injEq, external.injEq, and_assoc]
  case forRange =>
    intro s ⟨_, _, _, _, _, _⟩ b t ⟨_, _, _, _, _, _⟩ b' ih h k l
    simp_all only [same, marks, RangeHead.marks, Attr.marks_cancel, Bool.and_eq_true, beq_iff_eq, List.cons_append,
      List.append_assoc, List.cons.injEq, Mark.place.injEq, forRange.injEq, RangeHead.mk.injEq, and_true, true_and,
      and_assoc]
  case forEach =>
    intro s ⟨_, _, _, _⟩ b t ⟨_, _, _, _⟩ b' ih h k l
    simp_all only [same, marks, EachHead.marks, Attr.marks_cancel, Bool.and_eq_true, beq_iff_eq, List.cons_append,
      List.append_assoc, List.cons.injEq, Mark.place.injEq, forEach.injEq, EachHead.mk.injEq, and_true, true_and,
      and_assoc]
  case importFrom =>
    intro s m xs t n ys h k l
    have hitems := sameBy_cancel (f := fun x y => x.name == y.name && x.rename == y.rename) (g := ImportItem.marks)
      (fun x y hxy k l => by
        obtain ⟨_, _, _⟩ := x
        obtain ⟨_, _, _⟩ := y
        simp_all only [ImportItem.marks, Bool.and_eq_true, beq_iff_eq, List.cons_append, List.nil_append,
          List.cons.injEq, Mark.place.injEq, ImportItem.mk.injEq, and_self, and_true]) xs ys
    simp_all only [same, marks, Bool.and_eq_true, beq_iff_eq, forall_const, List.cons_append, List.cons.injEq,
      Mark.place.injEq, importFrom.injEq, true_and, and_assoc]
  case expr | branch | conditional | loop | returnWith | multi | inScope =>
    intros
    simp_all only [same, marks, Attr.marks_cancel, Bool.and_eq_true, beq_iff_eq, List.cons_append, List.append_assoc,
      List.cons.injEq, Mark.place.injEq, expr.injEq, branch.injEq, conditional.injEq, loop.injEq, returnWith.injEq,
      multi.injEq, scoped.injEq, true_and, and_assoc]
  case cons | consArms =>
    intros
    simp_all only [sameList, sameArms, marksList, marksArms, Bool.and_eq_true, List.append_assoc, List.cons.injEq,
      Prod.mk.injEq, and_assoc]
  case apart =>
    intros
    simp_all only [same, imp_false, Bool.forall_bool, Bool.false_eq_true]
  case apartList | apartArms =>
    intros
    simp_all only [sameList, sameArms, imp_false, Bool.false_eq_true]
  case absent | nil | nilArms =>
    intros
    simp_all only [same, sameList, sameArms, marks, marksList, marksArms, List.nil_append, true_and]
  all_goals
    intros
    simp_all only [same, marks, List.cons_append, List.nil_append, List.cons.injEq, Mark.place.injEq, discard.injEq,
      breakLoop.injEq, continueLoop.injEq, noOp.injEq]

end Stmt

namespace Block

def erase (b : Block) : Block := ⟨{}, Stmt.eraseList b.body⟩

def marks (b : Block) : List Mark := .place b.span :: Stmt.marksList b.body

end Block

namespace Module

mutual

def erase : Module → Module
  | ⟨m, is, r⟩ => ⟨m, eraseImported is, r.map Block.erase⟩

def eraseImported : List (Text × Module) → List (Text × Module)
  | [] => []
  | (name, m) :: ms => (name, erase m) :: eraseImported ms

end

mutual

def marks : Module → List Mark
  | ⟨_, is, r⟩ => marksImported is ++ r.toList.flatMap Block.marks

def marksImported : List (Text × Module) → List Mark
  | [] => []
  | (_, m) :: ms => marks m ++ marksImported ms

end

mutual

theorem same_iff (m n : Module) : m.same n = true ↔ m.erase = n.erase := by
  obtain ⟨md, is, r⟩ := m
  obtain ⟨nd, js, s⟩ := n
  cases r <;> cases s <;>
    simp [same, erase, Block.erase, Block.toStmt, Stmt.same, sameImported_iff is js, Stmt.sameList_iff, and_assoc]

theorem sameImported_iff (ms ns : List (Text × Module)) :
    sameImported ms ns = true ↔ eraseImported ms = eraseImported ns := by
  cases ms with
  | nil => cases ns <;> simp [sameImported, eraseImported]
  | cons m ms => cases ns with
    | nil => simp [sameImported, eraseImported]
    | cons n ns => simp [sameImported, eraseImported, same_iff m.2 n.2, sameImported_iff ms ns]

end

/-- The marks in front of a list determine a module among those that are equal to it. -/
theorem marks_cancel : (∀ m n : Module, m.same n = true → ∀ k l, m.marks ++ k = n.marks ++ l ↔ m = n ∧ k = l) ∧
    ∀ ms ns : List (Text × Module), sameImported ms ns = true →
      ∀ k l, marksImported ms ++ k = marksImported ns ++ l ↔ ms = ns ∧ k = l := by
  refine same.mutual_induct _ _ ?module ?nil ?cons ?apart
  case module =>
    intro m is r n js s ih h k l
    have hbody (as bs : List Stmt) := Stmt.marks_cancel.2.2 as bs
    rcases r with _ | ⟨_, as⟩ <;> rcases s with _ | ⟨_, bs⟩ <;>
      simp_all [same, marks, Block.marks, Block.toStmt, Stmt.same, and_assoc]
  case nil =>
    intros
    simp [marksImported]
  case cons =>
    intros
    simp_all [sameImported, marksImported, and_assoc]
  case apart =>
    intros
    simp_all [sameImported]

end Module

namespace Expr

mutual

@[simp] theorem clone_eq (e : Expr) : e.clone = e := by
  cases e with
  | binary i op l r => simp [clone, clone_eq l, clone_eq r]
  | unary i op e => simp [clone, clone_eq e]
  | assign i op l r => simp [clone, clone_eq l, clone_eq r]
  | cast i t args => simp [clone, clone_eq t, cloneList_eq args]
  | ternary i c t f => simp [clone, clone_eq c, clone_eq t, clone_eq f]
  | index i b indices => simp [clone, clone_eq b, cloneList_eq indices]
  | member i b names => simp [clone, clone_eq b]
  | swizzle i b s => simp [clone, clone_eq b]
  | call i t args => simp [clone, clone_eq t, cloneList_eq args]
  | method i o name args => simp [clone, clone_eq o, cloneList_eq args]
  | intrinsic i f args => simp [clone, cloneList_eq args]
  | _ => simp [clone]

theorem cloneList_eq (es : List Expr) : cloneList es = es := by
  cases es with
  | nil => rfl
  | cons e es => simp [cloneList, clone_eq e, cloneList_eq es]

end

end Expr

@[simp] theorem Attr.clone_eq {α : Type} (a : Attr α) : a.clone = a := by simp [Attr.clone]

theorem StructMember.clone_eq (m : StructMember) : m.clone = m := by simp [StructMember.clone]

theorem External.clone_eq (v : External) : v.clone = v := by simp [External.clone]

@[simp] theorem FnHead.clone_eq (h : FnHead) : h.clone = h := by
  simp [FnHead.clone, List.map_id'' (f := FnParam.clone) (by simp [FnParam.clone])]

namespace Stmt

mutual

@[simp] theorem clone_eq (s : Stmt) : s.clone = s := by
  cases s with
  | letVar s d => simp [clone, VarDecl.clone]
  | const s d => simp [clone, ConstDecl.clone]
  | «alias» s d => simp [clone, AliasDecl.clone]
  | option s d => simp [clone, OptionDecl.clone]
  | struct s d => simp [clone, StructDecl.clone, List.map_id'' StructMember.clone_eq]
  | function s head body => simp [clone, cloneList_eq body]
  | external s set vars => simp [clone, List.map_id'' External.clone_eq]
  | branch s c arms other => simp [clone, cloneArms_eq arms, clone_eq other]
  | conditional s c body => simp [clone, clone_eq body]
  | forRange s head body => simp [clone, RangeHead.clone, clone_eq body]
  | forEach s head body => simp [clone, EachHead.clone, clone_eq body]
  | loop s c u body => simp [clone, clone_eq body]
  | multi s body => simp [clone, cloneList_eq body]
  | «scoped» s body => simp [clone, clone_eq body]
  | _ => simp [clone]

theorem cloneList_eq (ss : List Stmt) : cloneList ss = ss := by
  cases ss with
  | nil => rfl
  | cons s ss => simp [cloneList, clone_eq s, cloneList_eq ss]

theorem cloneArms_eq (arms : List (Expr × Stmt)) : cloneArms arms = arms := by
  cases arms with
  | nil => rfl
  | cons a arms => simp [cloneArms, clone_eq a.2, cloneArms_eq arms]

end

end Stmt

namespace Module

mutual

@[simp] theorem clone_eq (m : Module) : m.clone = m := by
  obtain ⟨md, is, r⟩ := m
  cases r <;> simp [clone, cloneImported_eq is, Stmt.cloneList_eq]

theorem cloneImported_eq (ms : List (Text × Module)) : cloneImported ms = ms := by
  cases ms with
  | nil => rfl
  | cons m ms => simp [cloneImported, clone_eq m.2, cloneImported_eq ms]

end

theorem same_refl (m : Module) : m.same m = true := (same_iff m m).mpr rfl

theorem same_equivalence : Equivalence fun m n : Module => m.same n = true where
  refl := same_refl
  symm h := (same_iff _ _).mpr ((same_iff _ _).mp h).symm
  trans h h' := (same_iff _ _).mpr (((same_iff _ _).mp h).trans ((same_iff _ _).mp h'))

/-- What the comparison passes over and what it looks at are all there is. -/
theorem eq_iff_same_marks {m n : Module} : m = n ↔ m.same n = true ∧ m.marks = n.marks := by
  constructor
  · rintro rfl
    exact ⟨same_refl m, rfl⟩
  · rintro ⟨hsame, hmarks⟩
    have hcancel := marks_cancel.1 m n hsame [] []
    rw [List.append_nil, List.append_nil] at hcancel
    exact (hcancel.mp hmarks).1

theorem length_of_sameImported {ms ns : List (Text × Module)} (h : sameImported ms ns = true) : ms.length = ns.length := by
  induction ms generalizing ns with
  | nil =>
    cases ns with
    | nil => rfl
    | cons => simp [sameImported] at h
  | cons m ms ih =>
    cases ns with
    | nil => simp [sameImported] at h
    | cons n ns =>
      simp only [sameImported, Bool.and_eq_true] at h
      rw [List.length_cons, List.length_cons, ih h.2]

mutual

/-- Modules that have all their roots are compared to the end. -/
theorem equal?_of_isRooted (m n : Module) (hm : m.isRooted) (hn : n.isRooted) : m.equal? n = some (m.same n) := by
  obtain ⟨md, is, r⟩ := m
  obtain ⟨nd, js, s⟩ := n
  simp only [isRooted, Bool.and_eq_true, Option.isSome_iff_exists] at hm hn
  obtain ⟨⟨b, rfl⟩, his⟩ := hm
  obtain ⟨⟨c, rfl⟩, hjs⟩ := hn
  by_cases hlength : is.length = js.length
  · have himported := equalImported?_of_areRooted is js his hjs hlength
    simp only [equal?, same, himported, hlength]
    by_cases hmetadata : md = nd <;> cases sameImported is js <;> simp [hmetadata]
  · cases hsame : sameImported is js with
    | true => exact absurd (length_of_sameImported hsame) hlength
    | false => simp [equal?, same, hlength, hsame]

theorem equalImported?_of_areRooted (ms ns : List (Text × Module)) (hms : areRooted ms) (hns : areRooted ns)
    (hlength : ms.length = ns.length) : equalImported? ms ns = some (sameImported ms ns) := by
  cases ms with
  | nil =>
    cases ns with
    | nil => rfl
    | cons => cases hlength
  | cons m ms =>
    cases ns with
    | nil => cases hlength
    | cons n ns =>
      simp only [areRooted, Bool.and_eq_true] at hms hns
      have hhead := equal?_of_isRooted m.2 n.2 hms.1 hns.1
      have htail := equalImported?_of_areRooted ms ns hms.2 hns.2 (Nat.succ.inj hlength)
      simp only [equalImported?, sameImported, hhead, htail]
      by_cases hname : m.1 = n.1 <;> cases m.2.same n.2 <;> simp [hname]

end

mutual

/-- A module is found equal to itself, unless a root is missing in it. -/
theorem equal?_self (m : Module) : m.equal? m = if m.isRooted then some true else none := by
  obtain ⟨md, is, r⟩ := m
  have himported := equalImported?_self is
  cases r with
  | none => cases hrooted : areRooted is <;> simp [equal?, isRooted, himported, hrooted]
  | some b =>
    have hroot : b.toStmt.same b.toStmt = true := (Stmt.same_iff _ _).mpr rfl
    cases hrooted : areRooted is <;> simp [equal?, isRooted, himported, hrooted, hroot]

theorem equalImported?_self (ms : List (Text × Module)) :
    equalImported? ms ms = if areRooted ms then some true else none := by
  cases ms with
  | nil => rfl
  | cons m ms =>
    have hhead := equal?_self m.2
    have htail := equalImported?_self ms
    cases hm : m.2.isRooted <;> simp [equalImported?, areRooted, hhead, htail, hm]

end

/-- The comparison is exact. It is an equivalence that finds a copy equal, and modules that are equal but not one
and the same have different marks. Modules with all their roots are compared so. -/
theorem comparison_exact :
    (∀ m n : Module, m.same n = true ↔ m.erase = n.erase) ∧
      (Equivalence fun m n : Module => m.same n = true) ∧
      (∀ m : Module, m.clone.same m = true) ∧
      (∀ m n : Module, m = n ↔ m.same n = true ∧ m.marks = n.marks) ∧
      ∀ m n : Module, m.isRooted → n.isRooted → m.equal? n = some (m.same n) := by
  refine ⟨same_iff, same_equivalence, fun m => ?_, fun m n => eq_iff_same_marks, equal?_of_isRooted⟩
  rw [clone_eq]
  exact same_refl m

/-- Two modules with an import that differ in a place and in the name of a declaration. -/
theorem comparison_exact_renamed :
    let module (name : Text) (span : Span) : Module :=
      { imported := [("lib", { root := some {} })], root := some { span, body := [.const {} { name, value := .absent }] } }
    let first := module "x" {}
    let second := module "y" { file := "main" }
    first.isRooted ∧ second.isRooted ∧ first.equal? second = some (first.same second) ∧ first.same second = false := by
  intro module first second
  have hfirst : first.isRooted := by decide
  have hsecond : second.isRooted := by decide
  exact ⟨hfirst, hsecond, comparison_exact.2.2.2.2 first second hfirst hsecond, by decide⟩

end Module

end Shading
