import Shading.Proofs.Walk
import Shading.Check.Session

/-! What statements declare, and where each node of a tree stands. -/
namespace Shading

/-- A sequence of numbers. Declarations of different spaces may have the same number. -/
inductive Space
  | variable | constant | function | struct | alias
deriving DecidableEq, Repr

/-- A number of a declaration. -/
abbrev Key := Space × Int

/-- What is known of a declaration where it can be referred to. -/
inductive Referent
  | variable (id : Int) (t : Ty)
  /-- with its value, if it is known -/
  | constant (id : Int) (t : Ty) (value : Option Value)
  | function (f : Check.Function)
  | struct (r : Record Ty)
  | alias (id : Int)

namespace Referent

def key : Referent → Key
  | .variable id _ => (.variable, id)
  | .constant id _ _ => (.constant, id)
  | .function f => (.function, f.id)
  | .struct r => (.struct, r.id)
  | .alias id => (.alias, id)

end Referent

/-- The value of a literal. -/
def Expr.literal? : Expr → Option Value
  | .literal _ v => some v
  | _ => none

def VarDecl.declaration (d : VarDecl) : Referent :=
  .variable d.id (if d.type.isAbsent then d.init.type else d.type.type)

def ConstDecl.declaration (d : ConstDecl) : Referent := .constant d.id d.value.type d.value.literal?

def OptionDecl.declaration (given : OptionValues) (d : OptionDecl) : Referent :=
  .constant d.id d.type.type (given.get? d.name)

def StructDecl.record (d : StructDecl) : Record Ty := ⟨d.id, d.name, d.members.map fun m => (m.name, m.type.type)⟩

/-- The function that a head declares. -/
def FnHead.signature (h : FnHead) : Check.Function :=
  { id := h.id
    name := h.name
    isEntry := h.isEntry
    params := h.params.map (·.type.type)
    result := if h.result.isAbsent then .void else h.result.type }

def FnParam.declaration (p : FnParam) : Referent := .variable p.id p.type.type

def External.declaration (v : External) : Referent := .variable v.id v.type.type

def RangeHead.declaration (h : RangeHead) : Referent := .variable h.id h.start.type

def EachHead.declaration (h : EachHead) : Referent := .variable h.id h.array.type.element

namespace Stmt

/-- What a statement itself declares, wherever it can be referred to. -/
def own (given : OptionValues) : Stmt → List Referent
  | .letVar _ d => [d.declaration]
  | .const _ d => [d.declaration]
  | .alias _ d => [.alias d.id]
  | .option _ d => [d.declaration given]
  | .struct _ d => [.struct d.record]
  | .function _ h _ => .function h.signature :: h.params.map FnParam.declaration
  | .external _ _ vars => vars.map External.declaration
  | .forRange _ h _ => [h.declaration]
  | .forEach _ h _ => [h.declaration]
  | _ => []

/-- All declarations of a statement and of those inside it. -/
def declarations (given : OptionValues) (s : Stmt) : List Referent :=
  (s.nodes.filterMap Node.stmt?).flatMap (own given)

/-- The numbers of the declarations. -/
def keys (s : Stmt) : List Key := (s.declarations {}).map Referent.key

theorem map_key_own (given : OptionValues) (s : Stmt) :
    (s.own given).map Referent.key = (s.own {}).map Referent.key := by
  cases s <;> rfl

theorem map_key_declarations (given : OptionValues) (s : Stmt) :
    (s.declarations given).map Referent.key = s.keys := by
  simp only [keys, declarations, List.map_flatMap, map_key_own given]

theorem filterMap_stmt_flatMap (es : List Expr) : (es.flatMap Expr.nodes).filterMap Node.stmt? = [] := by
  rw [List.filterMap_flatMap, List.flatMap_eq_nil_iff]
  intro e _
  exact e.filterMap_stmt_nodes

theorem filterMap_stmt_arms (arms : List (Expr × Stmt)) :
    ((walkArms (fun _ => true) arms).filterMap Visit.node?).filterMap Node.stmt? =
      ((arms.map (·.2)).flatMap Stmt.nodes).filterMap Node.stmt? := by
  induction arms with
  | nil => rfl
  | cons a arms ih =>
    obtain ⟨c, s⟩ := a
    simp only [walkArms, List.filterMap_append, filterMap_expr, filterMap_walk, c.filterMap_stmt_nodes, ih,
      List.map_cons, List.flatMap_cons, List.nil_append]

theorem filterMap_stmt_nodes {s : Stmt} (h : s.isAbsent = false) :
    s.nodes.filterMap Node.stmt? = s :: (s.children.flatMap Stmt.nodes).filterMap Node.stmt? := by
  have hself : (Node.stmt s).stmt? = some s := rfl
  cases hb : s.isBranch with
  | false =>
    rw [nodes_eq h hb, List.filterMap_cons_some hself, List.filterMap_append, filterMap_stmt_flatMap, List.nil_append]
  | true =>
    cases s with
    | branch s c arms other =>
      rw [nodes, walk, Expr.filterMap_around, List.filterMap_cons_some hself, List.filterMap_append,
        List.filterMap_append, filterMap_stmt_arms, filterMap_walk, children, List.flatMap_append,
        List.filterMap_append, List.flatMap_singleton]
    | _ => cases hb

/-- The declarations of a statement are its own and those of the statements inside it. -/
theorem declarations_eq (given : OptionValues) (s : Stmt) :
    s.declarations given = s.own given ++ s.children.flatMap (declarations given) := by
  cases h : s.isAbsent with
  | true =>
    cases s with
    | absent => rfl
    | _ => cases h
  | false =>
    rw [declarations, filterMap_stmt_nodes h, List.flatMap_cons, List.filterMap_flatMap, List.flatMap_assoc]
    rfl

theorem keys_eq (s : Stmt) : s.keys = (s.own {}).map Referent.key ++ s.children.flatMap keys := by
  rw [keys, declarations_eq, List.map_append, List.map_flatMap]
  rfl

@[simp] theorem keys_letVar (span : Span) (d : VarDecl) : (Stmt.letVar span d).keys = [(.variable, d.id)] := by
  rw [keys_eq]
  rfl

end Stmt

/-- What surrounds a module: the values that are given for options, and what the import of a module
brings. -/
structure Surroundings where
  given : OptionValues
  imports : Text → Option (List Referent)

namespace Stmt

mutual

/-- What the statements after a statement can refer to because of it. -/
def declares (env : Surroundings) : Stmt → List Referent
  | .letVar _ d => [d.declaration]
  | .const _ d => [d.declaration]
  | .alias _ d => [.alias d.id]
  | .option _ d => [d.declaration env.given]
  | .struct _ d => [.struct d.record]
  | .function _ h _ => [.function h.signature]
  | .external _ _ vars => vars.map External.declaration
  | .conditional _ _ body => declares env body
  | .multi _ body => declaresAll env body
  | .importFrom _ name _ => (env.imports name).getD []
  | _ => []

/-- What statements declare, the last one first. -/
def declaresAll (env : Surroundings) : List Stmt → List Referent
  | [] => []
  | s :: ss => declaresAll env ss ++ declares env s

end

end Stmt

/-- What the import of each of some modules brings: what can be referred to at its end. Each of them comes
after those that it imports, and is known by the first one of its name. -/
def Module.brought (given : OptionValues) (ms : List (Text × Module)) : List (Text × List Referent) :=
  ms.foldl (fun known m => known ++ [(m.1, m.2.rootStmt.declares ⟨given, fun name => known.lookup name⟩)]) []

/-- The surroundings of a module that may import some others. -/
def Surroundings.among (given : OptionValues) (ms : List (Text × Module)) : Surroundings :=
  ⟨given, fun name => (Module.brought given ms).lookup name⟩

/-- Where a node stands: what it can refer to, and the function that it is part of. -/
structure Place where
  context : List Referent := []
  function : Option Check.Function := none

namespace Place

/-- The place after some declarations. -/
def after (p : Place) (ds : List Referent) : Place := { p with context := ds ++ p.context }

theorem after_after (p : Place) (ds es : List Referent) : (p.after ds).after es = p.after (es ++ ds) := by
  simp only [after, List.append_assoc]

/-- The place of the body of a function. -/
def inside (p : Place) (h : FnHead) : Place :=
  { context := h.params.map FnParam.declaration ++ .function h.signature :: p.context
    function := some h.signature }

end Place

namespace Stmt

section

variable (env : Surroundings) (P : Place → Node → Prop)

/-- Does a property hold of the statement itself and of its expressions? -/
def Here (p : Place) (s : Stmt) : Prop := P p (.stmt s) ∧ ∀ e ∈ s.ownExprs, ∀ n ∈ e.nodes, P p n

mutual

/-- Does a property hold of every node of a statement, each at its place? -/
def Everywhere (p : Place) : Stmt → Prop
  | .absent => True
  | .function s h body => Here P p (.function s h body) ∧ EverywhereAll (p.inside h) body
  | .branch s c arms other =>
    Here P p (.branch s c arms other) ∧ EverywhereArms p arms ∧ Everywhere p other
  | .conditional s c body => Here P p (.conditional s c body) ∧ Everywhere p body
  | .forRange s h body => Here P p (.forRange s h body) ∧ Everywhere (p.after [h.declaration]) body
  | .forEach s h body => Here P p (.forEach s h body) ∧ Everywhere (p.after [h.declaration]) body
  | .loop s c u body => Here P p (.loop s c u body) ∧ Everywhere p body
  | .multi s body => Here P p (.multi s body) ∧ EverywhereAll p body
  | .scoped s body => Here P p (.scoped s body) ∧ Everywhere p body
  | s => Here P p s

/-- The same of statements one after the other. -/
def EverywhereAll (p : Place) : List Stmt → Prop
  | [] => True
  | s :: ss => Everywhere p s ∧ EverywhereAll (p.after (s.declares env)) ss

/-- The same of the bodies of branches. -/
def EverywhereArms (p : Place) : List (Expr × Stmt) → Prop
  | [] => True
  | (_, s) :: arms => Everywhere p s ∧ EverywhereArms p arms

end

end

end Stmt

/-- Everything that can be referred to at one place can be referred to at another one. -/
structure Place.Within (p q : Place) : Prop where
  context : p.context ⊆ q.context
  function : p.function = q.function

namespace Place.Within

variable {p q r : Place}

theorem refl (p : Place) : p.Within p := ⟨List.Subset.refl _, rfl⟩

theorem trans (h : p.Within q) (h' : q.Within r) : p.Within r :=
  ⟨List.Subset.trans h.context h'.context, h.function.trans h'.function⟩

theorem after_right (h : p.Within q) (ds : List Referent) : p.Within (q.after ds) :=
  ⟨List.Subset.trans h.context (List.subset_append_right _ _), h.function⟩

theorem after (h : p.Within q) {ds es : List Referent} (hds : ds ⊆ es) : (p.after ds).Within (q.after es) :=
  ⟨List.append_subset.mpr
    ⟨List.Subset.trans hds (List.subset_append_left _ _), List.Subset.trans h.context (List.subset_append_right _ _)⟩,
    h.function⟩

theorem inside (h : p.Within q) (head : FnHead) : (p.inside head).Within (q.inside head) := by
  refine ⟨?_, rfl⟩
  apply List.append_subset.mpr
  refine ⟨List.subset_append_left _ _, ?_⟩
  exact List.Subset.trans (List.cons_subset_cons _ h.context) (List.subset_append_right _ _)

end Place.Within

/-- The same values are given, and imports bring at least as much. -/
structure Surroundings.Within (env env' : Surroundings) : Prop where
  given : env.given = env'.given
  imports : ∀ {name ds}, env.imports name = some ds → ∃ es, env'.imports name = some es ∧ ds ⊆ es

theorem Surroundings.Within.refl (env : Surroundings) : env.Within env :=
  ⟨rfl, fun {_ ds} h => ⟨ds, h, List.Subset.refl _⟩⟩

theorem Module.brought_concat (given : OptionValues) (ms : List (Text × Module)) (m : Text × Module) :
    brought given (ms ++ [m]) = brought given ms ++ [(m.1, m.2.rootStmt.declares (.among given ms))] := by
  rw [brought, List.foldl_append]
  rfl

theorem Module.brought_append (given : OptionValues) (ms ns : List (Text × Module)) :
    ∃ more, brought given (ms ++ ns) = brought given ms ++ more := by
  induction ns generalizing ms with
  | nil => exact ⟨[], by simp⟩
  | cons m ns ih =>
    obtain ⟨more, hmore⟩ := ih (ms ++ [m])
    rw [List.append_assoc, List.singleton_append] at hmore
    rw [hmore, brought_concat, List.append_assoc]
    exact ⟨_, rfl⟩

theorem Surroundings.among_append {given : OptionValues} {ms : List (Text × Module)} (ns : List (Text × Module))
    {name : Text} {ds : List Referent} (h : (among given ms).imports name = some ds) :
    (among given (ms ++ ns)).imports name = some ds := by
  obtain ⟨more, hmore⟩ := Module.brought_append given ms ns
  simp only [among, hmore, List.lookup_append] at h ⊢
  rw [h]
  rfl

/-- Imports bring nothing but some of these declarations. -/
def Surroundings.ImportsWithin (env : Surroundings) (Δ : List Referent) : Prop :=
  ∀ {name ds}, env.imports name = some ds → ds ⊆ Δ

namespace Stmt

variable {env env' : Surroundings} {P Q : Place → Node → Prop} {p q : Place} {s : Stmt}

@[simp] theorem declaresAll_append (env : Surroundings) (ss ts : List Stmt) :
    declaresAll env (ss ++ ts) = declaresAll env ts ++ declaresAll env ss := by
  induction ss with
  | nil => simp [declaresAll]
  | cons s ss ih => simp only [List.cons_append, declaresAll, ih, List.append_assoc]

theorem everywhereAll_append (ss ts : List Stmt) :
    EverywhereAll env P p (ss ++ ts) ↔
      EverywhereAll env P p ss ∧ EverywhereAll env P (p.after (declaresAll env ss)) ts := by
  induction ss generalizing p with
  | nil => simp [EverywhereAll, declaresAll, Place.after]
  | cons s ss ih =>
    have hafter : (p.after (s.declares env)).after (declaresAll env ss) =
        p.after (declaresAll env (s :: ss)) := by
      simp only [Place.after, declaresAll, List.append_assoc]
    simp only [List.cons_append, EverywhereAll, ih, hafter, and_assoc]

mutual

theorem declares_subset (henv : env.Within env') (s : Stmt) : s.declares env ⊆ s.declares env' := by
  cases s with
  | conditional s c body => exact declares_subset henv body
  | multi s body => exact declaresAll_subset henv body
  | importFrom s name items =>
    simp only [declares]
    cases hname : env.imports name with
    | none => exact List.nil_subset _
    | some ds =>
      obtain ⟨es, hes, hsub⟩ := henv.imports hname
      rw [hes]
      exact hsub
  | option s d =>
    simp only [declares, henv.given]
    exact List.Subset.refl _
  | _ => exact List.Subset.refl _

theorem declaresAll_subset (henv : env.Within env') (ss : List Stmt) :
    declaresAll env ss ⊆ declaresAll env' ss := by
  cases ss with
  | nil => exact List.Subset.refl _
  | cons s ss =>
    exact List.append_subset.mpr
      ⟨List.Subset.trans (declaresAll_subset henv ss) (List.subset_append_left _ _),
       List.Subset.trans (declares_subset henv s) (List.subset_append_right _ _)⟩

end

/-- What has a property at a place has another one wherever more can be referred to. -/
def Moves (P Q : Place → Node → Prop) : Prop := ∀ {p q : Place} {n : Node}, p.Within q → P p n → Q q n

theorem Here.mono (hPQ : Moves P Q) (hp : p.Within q) (h : Here P p s) : Here Q q s :=
  ⟨hPQ hp h.1, fun e he n hn => hPQ hp (h.2 e he n hn)⟩

mutual

/-- What holds of every node of a statement holds of them where more can be referred to. -/
theorem Everywhere.mono (hPQ : Moves P Q) (henv : env.Within env') {p q : Place} (hp : p.Within q) (s : Stmt)
    (h : Everywhere env P p s) : Everywhere env' Q q s := by
  cases s with
  | absent => trivial
  | function s head body => exact ⟨h.1.mono hPQ hp, EverywhereAll.mono hPQ henv (hp.inside head) body h.2⟩
  | branch s c arms other =>
    exact ⟨h.1.mono hPQ hp, EverywhereArms.mono hPQ henv hp arms h.2.1, Everywhere.mono hPQ henv hp other h.2.2⟩
  | conditional s c body => exact ⟨h.1.mono hPQ hp, Everywhere.mono hPQ henv hp body h.2⟩
  | forRange s head body =>
    exact ⟨h.1.mono hPQ hp, Everywhere.mono hPQ henv (hp.after (List.Subset.refl _)) body h.2⟩
  | forEach s head body =>
    exact ⟨h.1.mono hPQ hp, Everywhere.mono hPQ henv (hp.after (List.Subset.refl _)) body h.2⟩
  | loop s c u body => exact ⟨h.1.mono hPQ hp, Everywhere.mono hPQ henv hp body h.2⟩
  | multi s body => exact ⟨h.1.mono hPQ hp, EverywhereAll.mono hPQ henv hp body h.2⟩
  | «scoped» s body => exact ⟨h.1.mono hPQ hp, Everywhere.mono hPQ henv hp body h.2⟩
  | _ => exact Here.mono hPQ hp h

theorem EverywhereAll.mono (hPQ : Moves P Q) (henv : env.Within env') {p q : Place} (hp : p.Within q)
    (ss : List Stmt) (h : EverywhereAll env P p ss) : EverywhereAll env' Q q ss := by
  cases ss with
  | nil => trivial
  | cons s ss =>
    exact ⟨Everywhere.mono hPQ henv hp s h.1,
      EverywhereAll.mono hPQ henv (hp.after (declares_subset henv s)) ss h.2⟩

theorem EverywhereArms.mono (hPQ : Moves P Q) (henv : env.Within env') {p q : Place} (hp : p.Within q)
    (arms : List (Expr × Stmt)) (h : EverywhereArms env P p arms) : EverywhereArms env' Q q arms := by
  match arms with
  | [] => trivial
  | (_, s) :: arms =>
    exact ⟨Everywhere.mono hPQ henv hp s h.1, EverywhereArms.mono hPQ henv hp arms h.2⟩

end

-- A walk reaches nodes at places where nothing but declarations of the statement, what stands before it and imports
-- can be referred to.
theorem declarations_subset (given : OptionValues) {c : Stmt} (hc : c ∈ s.children) :
    c.declarations given ⊆ s.declarations given := by
  intro d hd
  rw [declarations_eq given s]
  exact List.mem_append_right _ (List.mem_flatMap.mpr ⟨c, hc, hd⟩)

theorem own_subset (given : OptionValues) (s : Stmt) : s.own given ⊆ s.declarations given := by
  rw [declarations_eq]
  exact List.subset_append_left _ _

variable {Δ : List Referent}

mutual

theorem declares_subset_of (himports : env.ImportsWithin Δ) (s : Stmt) (hs : s.declarations env.given ⊆ Δ) :
    s.declares env ⊆ Δ := by
  have hown := List.Subset.trans (own_subset env.given s) hs
  cases s with
  | conditional s c body =>
    have hbody : body.declarations env.given ⊆ (Stmt.conditional s c body).declarations env.given :=
      declarations_subset env.given (by simp [children])
    exact declares_subset_of himports body (List.Subset.trans hbody hs)
  | multi s body =>
    refine declaresAll_subset_of himports body fun c hc => ?_
    have hbody : c.declarations env.given ⊆ (Stmt.multi s body).declarations env.given :=
      declarations_subset env.given hc
    exact List.Subset.trans hbody hs
  | importFrom s name items =>
    simp only [declares]
    cases hname : env.imports name with
    | none => exact List.nil_subset _
    | some ds => exact himports hname
  | function s h body => exact List.Subset.trans (List.cons_subset_cons _ (List.nil_subset _)) hown
  | letVar | const | «alias» | option | struct | external => exact hown
  | _ => exact List.nil_subset _

theorem declaresAll_subset_of (himports : env.ImportsWithin Δ) (ss : List Stmt)
    (hss : ∀ s ∈ ss, s.declarations env.given ⊆ Δ) : declaresAll env ss ⊆ Δ := by
  cases ss with
  | nil => exact List.nil_subset _
  | cons s ss =>
    exact List.append_subset.mpr
      ⟨declaresAll_subset_of himports ss fun c hc => hss c (List.mem_cons_of_mem _ hc),
       declares_subset_of himports s (hss s List.mem_cons_self)⟩

end

theorem EverywhereAll.of_mem_all {ss : List Stmt} (h : EverywhereAll env P p ss) (hs : s ∈ ss) :
    ∃ q, Everywhere env P q s := by
  induction ss generalizing p with
  | nil => cases hs
  | cons c ss ih =>
    rcases List.mem_cons.mp hs with rfl | hs
    · exact ⟨p, h.1⟩
    · exact ih h.2 hs

theorem EverywhereAll.of_mem (himports : env.ImportsWithin Δ) {ss : List Stmt} (hp : p.context ⊆ Δ)
    (hss : ∀ s ∈ ss, s.declarations env.given ⊆ Δ) (h : EverywhereAll env P p ss) (hs : s ∈ ss) :
    ∃ q : Place, q.context ⊆ Δ ∧ q.function = p.function ∧ Everywhere env P q s := by
  induction ss generalizing p with
  | nil => cases hs
  | cons c ss ih =>
    rcases List.mem_cons.mp hs with rfl | hs
    · exact ⟨p, hp, rfl, h.1⟩
    · have hc := declares_subset_of himports c (hss c List.mem_cons_self)
      exact ih (p := p.after (c.declares env)) (List.append_subset.mpr ⟨hc, hp⟩)
        (fun c hc => hss c (List.mem_cons_of_mem _ hc)) h.2 hs

theorem EverywhereArms.of_mem {arms : List (Expr × Stmt)} (h : EverywhereArms env P p arms)
    (hs : s ∈ arms.map (·.2)) : Everywhere env P p s := by
  induction arms with
  | nil => cases hs
  | cons a arms ih =>
    rcases List.mem_cons.mp hs with rfl | hs
    · exact h.1
    · exact ih h.2 hs

theorem Everywhere.here (hs : s.isAbsent = false) (h : Everywhere env P p s) : Here P p s := by
  cases s with
  | absent => cases hs
  | function | branch | conditional | forRange | forEach | loop | multi | «scoped» => exact h.1
  | _ => exact h

/-- The place of the body of a function is one of the places of the module. -/
theorem inside_subset {given : OptionValues} {span : Span} {head : FnHead} {body : List Stmt} (hp : p.context ⊆ Δ)
    (hs : (Stmt.function span head body).declarations given ⊆ Δ) : (p.inside head).context ⊆ Δ := by
  have hown := List.Subset.trans (own_subset given _) hs
  refine List.append_subset.mpr ⟨fun d hd => hown (List.mem_cons_of_mem _ hd), ?_⟩
  exact List.cons_subset.mpr ⟨hown List.mem_cons_self, hp⟩

/-- A place inside a statement. Functions hold no functions. -/
theorem Everywhere.child (himports : env.ImportsWithin Δ)
    (hP : ∀ {q s h b}, P q (.stmt (.function s h b)) → q.function = none) (hp : p.context ⊆ Δ)
    (hs : s.declarations env.given ⊆ Δ) (h : Everywhere env P p s) {c : Stmt} (hc : c ∈ s.children) :
    ∃ q : Place, q.context ⊆ Δ ∧ (p.function.isSome → q.function = p.function) ∧ Everywhere env P q c := by
  have hown := List.Subset.trans (own_subset env.given s) hs
  have hchildren : ∀ c ∈ s.children, c.declarations env.given ⊆ Δ :=
    fun c hc => List.Subset.trans (declarations_subset env.given hc) hs
  cases s with
  | function s head body =>
    obtain ⟨q, hq, -, hqc⟩ := EverywhereAll.of_mem himports (inside_subset hp hs) hchildren h.2 hc
    refine ⟨q, hq, fun hsome => ?_, hqc⟩
    rw [hP h.1.1] at hsome
    cases hsome
  | branch s k arms other =>
    simp only [children, List.mem_append, List.mem_singleton] at hc
    rcases hc with hc | rfl
    · exact ⟨p, hp, fun _ => rfl, h.2.1.of_mem hc⟩
    · exact ⟨p, hp, fun _ => rfl, h.2.2⟩
  | forRange s head body | forEach s head body =>
    obtain rfl := List.mem_singleton.mp hc
    exact ⟨p.after [head.declaration], List.append_subset.mpr ⟨hown, hp⟩, fun _ => rfl, h.2⟩
  | multi s body =>
    obtain ⟨q, hq, hf, hqc⟩ := EverywhereAll.of_mem himports hp hchildren h.2 hc
    exact ⟨q, hq, fun _ => hf, hqc⟩
  | conditional s k body | loop s k u body | «scoped» s body =>
    obtain rfl := List.mem_singleton.mp hc
    exact ⟨p, hp, fun _ => rfl, h.2⟩
  | _ => cases hc

/-- What a walk reaches is a statement at some place or part of it, in the same function if there is one. -/
theorem Everywhere.reach (himports : env.ImportsWithin Δ)
    (hP : ∀ {q s h b}, P q (.stmt (.function s h b)) → q.function = none) {n : Node} (hp : p.context ⊆ Δ)
    (hs : s.declarations env.given ⊆ Δ) (h : Everywhere env P p s) (hn : n ∈ s.nodes) :
    ∃ (t : Stmt) (q : Place), (n = .stmt t ∨ ∃ e ∈ t.ownExprs, n ∈ e.nodes) ∧ t.isAbsent = false ∧
      t.declarations env.given ⊆ Δ ∧ q.context ⊆ Δ ∧ (p.function.isSome → q.function = p.function) ∧
      Everywhere env P q t := by
  induction s using induction_children generalizing p with
  | h s ih =>
    cases habsent : s.isAbsent with
    | true =>
      cases s with
      | absent => cases hn
      | _ => cases habsent
    | false =>
      rcases (mem_nodes habsent).mp hn with rfl | ⟨e, he, hn⟩ | ⟨c, hc, hn⟩
      · exact ⟨s, p, .inl rfl, habsent, hs, hp, fun _ => rfl, h⟩
      · exact ⟨s, p, .inr ⟨e, he, hn⟩, habsent, hs, hp, fun _ => rfl, h⟩
      · obtain ⟨q, hq, hf, hqc⟩ := h.child himports hP hp hs hc
        obtain ⟨t, q', ht, hpresent, hdeclared, hq', hf', hqt⟩ :=
          ih c hc hq (List.Subset.trans (declarations_subset env.given hc) hs) hqc hn
        refine ⟨t, q', ht, hpresent, hdeclared, hq', fun hsome => ?_, hqt⟩
        have heq := hf hsome
        exact (hf' (by rw [heq]; exact hsome)).trans heq

/-- What a walk reaches has the property at some place, in the same function if there is one. -/
theorem Everywhere.of_mem_nodes (himports : env.ImportsWithin Δ)
    (hP : ∀ {q s h b}, P q (.stmt (.function s h b)) → q.function = none) {n : Node} (hp : p.context ⊆ Δ)
    (hs : s.declarations env.given ⊆ Δ) (h : Everywhere env P p s) (hn : n ∈ s.nodes) :
    ∃ q : Place, q.context ⊆ Δ ∧ (p.function.isSome → q.function = p.function) ∧ P q n := by
  obtain ⟨t, q, ht, hpresent, -, hq, hf, hqt⟩ := h.reach himports hP hp hs hn
  refine ⟨q, hq, hf, ?_⟩
  rcases ht with rfl | ⟨e, he, hn⟩
  · exact (hqt.here hpresent).1
  · exact (hqt.here hpresent).2 e he n hn

/-- What stands in the body of a function that a walk reaches has the property at some place in that function. -/
theorem Everywhere.in_body (himports : env.ImportsWithin Δ)
    (hP : ∀ {q s h b}, P q (.stmt (.function s h b)) → q.function = none) (hp : p.context ⊆ Δ)
    (hs : s.declarations env.given ⊆ Δ) (h : Everywhere env P p s) {span : Span} {head : FnHead} {body : List Stmt}
    (hfunction : .stmt (.function span head body) ∈ s.nodes) {c : Stmt} (hc : c ∈ body) {n : Node} (hn : n ∈ c.nodes) :
    ∃ q : Place, q.context ⊆ Δ ∧ q.function = some head.signature ∧ P q n := by
  obtain ⟨t, q, ht, -, hdeclared, hq, -, hqt⟩ := h.reach himports hP hp hs hfunction
  rcases ht with ht | ⟨e, -, hmem⟩
  · cases ht
    have hchildren (c : Stmt) (hc : c ∈ body) : c.declarations env.given ⊆ Δ := by
      have hbody : c.declarations env.given ⊆ (Stmt.function span head body).declarations env.given :=
        declarations_subset env.given hc
      exact List.Subset.trans hbody hdeclared
    obtain ⟨q', hq', hf, hqc⟩ := EverywhereAll.of_mem himports (inside_subset hq hdeclared) hchildren hqt.2 hc
    obtain ⟨q'', hq'', hf', hqn⟩ := hqc.of_mem_nodes himports hP hq' (hchildren c hc) hn
    exact ⟨q'', hq'', (hf' (by rw [hf]; rfl)).trans hf, hqn⟩
  · have hstmt : Stmt.function span head body ∈ e.nodes.filterMap Node.stmt? := List.mem_filterMap.mpr ⟨_, hmem, rfl⟩
    rw [e.filterMap_stmt_nodes] at hstmt
    cases hstmt

end Stmt

end Shading

-- Trees as they are written in sources. Nothing has a number, and what refers to something does so by name.
namespace Shading

/-- Is it a number or a truth value? -/
def Value.isScalar : Value → Bool
  | .bool _ | .i32 _ | .u32 _ | .f32 _ | .f64 _ => true
  | _ => false

/-- Is the expression of a form that is written in sources? -/
def Expr.IsWritten : Expr → Prop
  | .name .. | .binary .. | .unary .. | .assign .. | .ternary .. | .index .. | .member .. | .call ..
  | .method .. => True
  | .literal _ v => v.isScalar
  | _ => False

/-- Do the declarations of the statement itself have no numbers? A variable has a type or a value. -/
def Stmt.IsWritten (s : Stmt) : Prop :=
  (∀ d ∈ s.own {}, d.key.2 = 0) ∧
    ∀ span d, s = .letVar span d → d.type.isAbsent = false ∨ d.init.isAbsent = false

theorem Stmt.IsWritten.of_own {s : Stmt} (h : ∀ d ∈ s.own {}, d.key.2 = 0) (hs : ∀ span d, s ≠ .letVar span d) :
    s.IsWritten := ⟨h, fun span d hd => (hs span d hd).elim⟩

def Node.IsWritten : Node → Prop
  | .expr e => e.IsWritten
  | .stmt s => s.IsWritten

/-- Are the expression and those that it is made of as they are written? -/
def Expr.Written (e : Expr) : Prop := ∀ n ∈ e.nodes, n.IsWritten

/-- Are the statement and everything inside it as they are written? -/
def Stmt.Written (s : Stmt) : Prop := ∀ n ∈ s.nodes, n.IsWritten

namespace Expr.Written

variable {e : Expr}

theorem absent : Expr.absent.Written := fun _ h => (by cases h)

theorem self (h : e.Written) (hpresent : e.isAbsent = false) : e.IsWritten := h _ (mem_nodes_self hpresent)

theorem child (h : e.Written) {c : Expr} (hc : c ∈ e.children) : c.Written := nodes_child h hc

/-- An expression is written if it is of such a form and so are those that it is made of. -/
theorem of_children (h : e.IsWritten) (hc : ∀ c ∈ e.children, c.Written) : e.Written := by
  intro n hn
  have hpresent : e.isAbsent = false := by
    cases e with
    | absent => exact h.elim
    | _ => rfl
  rw [nodes_eq hpresent] at hn
  rcases List.mem_cons.mp hn with rfl | hn
  · exact h
  · obtain ⟨c, hmem, hn⟩ := List.mem_flatMap.mp hn
    exact hc c hmem n hn

end Expr.Written

namespace Stmt.Written

variable {s : Stmt}

theorem absent : Stmt.absent.Written := fun _ h => (by cases h)

theorem self (h : s.Written) (hpresent : s.isAbsent = false) : s.IsWritten := h _ ((mem_nodes hpresent).mpr (.inl rfl))

theorem expr (h : s.Written) {e : Expr} (he : e ∈ s.ownExprs) : e.Written := nodes_own h he

theorem child (h : s.Written) {c : Stmt} (hc : c ∈ s.children) : c.Written := nodes_child h hc

/-- A statement is written if it is of such a form and so are its expressions and the statements inside it. -/
theorem of_children (h : s.IsWritten) (he : ∀ e ∈ s.ownExprs, e.Written) (hc : ∀ c ∈ s.children, c.Written) :
    s.Written := by
  intro n hn
  cases habsent : s.isAbsent with
  | true =>
    cases s with
    | absent => cases hn
    | _ => cases habsent
  | false =>
    rcases (mem_nodes habsent).mp hn with rfl | ⟨e, hmem, hn⟩ | ⟨c, hmem, hn⟩
    · exact h
    · exact he e hmem n hn
    · exact hc c hmem n hn

end Stmt.Written

end Shading
