import Shading.Proofs.Glsl.Namer
import Shading.Proofs.Glsl.Order

/-! The names of a shader. Each declaration that is written gets a name of its own, in the order in which the shader
is written, and so does each result that is computed before the statement that uses it. No two of them are the same. -/
namespace Shading.Glsl

/-- What names are looked up for by number. -/
inductive Kind
  | struct | constant | variable | function
deriving DecidableEq

/-- What gets a name: a declaration of the source, a result that is computed before the statement that uses it, and
what `main` gives to the entry point and takes from it. -/
inductive Subject
  | declared (kind : Kind) (id : Int) (identifier : Text)
  | result
  | input
  | output
deriving DecidableEq

namespace Subject

/-- The name that is wanted for it. -/
def base : Subject → Text
  | .declared _ _ identifier => escape identifier
  | .result => escape "cachedResult"
  | .input => "_nzslInput"
  | .output => "_nzslOutput"

/-- The entry under which a declaration finds its name. -/
def entry? (kind : Kind) : Subject × Text → Option (Int × Text)
  | (.declared k id _, name) => if k = kind then some (id, name) else none
  | _ => none

end Subject

/-- The names by number. -/
def State.names (σ : State) : Kind → List (Int × Text)
  | .struct => σ.structs
  | .constant => σ.constants
  | .variable => σ.vars
  | .function => σ.functions

/-- A name is put where it is looked up. -/
structure Puts (kind : Kind) (id : Int) (put : Text → State → State) : Prop where
  namer : ∀ name σ, (put name σ).namer = σ.namer
  names : ∀ name σ k, (put name σ).names k = (if kind = k then [(id, name)] else []) ++ σ.names k

theorem puts_struct (id : Int) : Puts .struct id fun name s => { s with structs := (id, name) :: s.structs } where
  namer _ _ := rfl
  names _ _ k := by cases k <;> rfl

theorem puts_constant (id : Int) : Puts .constant id fun name s => { s with constants := (id, name) :: s.constants } where
  namer _ _ := rfl
  names _ _ k := by cases k <;> rfl

theorem puts_variable (id : Int) : Puts .variable id fun name s => { s with vars := (id, name) :: s.vars } where
  namer _ _ := rfl
  names _ _ k := by cases k <;> rfl

theorem puts_function (id : Int) : Puts .function id fun name s => { s with functions := (id, name) :: s.functions } where
  namer _ _ := rfl
  names _ _ k := by cases k <;> rfl

/-- Between two states these names were given, in this order. -/
structure Gives (σ σ' : State) (given : List (Subject × Text)) : Prop where
  used : σ'.namer.used = (given.map (·.2)).reverse ++ σ.namer.used
  names : ∀ kind, σ'.names kind = (given.filterMap (Subject.entry? kind)).reverse ++ σ.names kind
  derived : ∀ g ∈ given, Namer.Derived g.1.base g.2
  apart : σ'.namer.used.length ≤ UInt32.size → σ.namer.used.Nodup → σ'.namer.used.Nodup

namespace Gives

variable {σ σ' σ'' : State} {given given' : List (Subject × Text)}

/-- Nothing is named where the names stay as they are. -/
theorem of_same (hnamer : σ'.namer = σ.namer) (hnames : σ'.names = σ.names) : Gives σ σ' [] where
  used := by simp [hnamer]
  names kind := by simp [hnames]
  derived _ hg := absurd hg List.not_mem_nil
  apart _ hnodup := hnamer ▸ hnodup

theorem trans (h : Gives σ σ' given) (h' : Gives σ' σ'' given') : Gives σ σ'' (given ++ given') where
  used := by rw [h'.used, h.used, List.map_append, List.reverse_append, List.append_assoc]
  names kind := by
    rw [h'.names, h.names, List.filterMap_append, List.reverse_append, List.append_assoc]
  derived g hg := by
    rcases List.mem_append.mp hg with hg | hg
    · exact h.derived g hg
    · exact h'.derived g hg
  apart hfew hnodup := by
    have hle : σ'.namer.used.length ≤ σ''.namer.used.length := by
      rw [h'.used, List.length_append]
      omega
    exact h'.apart hfew (h.apart (hle.trans hfew) hnodup)

/-- One name is given. -/
theorem one {s : Subject} {name : Text} (hname : (name, σ'.namer) = σ.namer.unique s.base)
    (hnames : ∀ kind, σ'.names kind = (Subject.entry? kind (s, name)).toList ++ σ.names kind) :
    Gives σ σ' [(s, name)] := by
  obtain ⟨hderived, hused⟩ := σ.namer.unique_derived s.base
  rw [← hname] at hderived hused
  refine ⟨by simpa using hused, fun kind => ?_, fun g hg => ?_, fun hfew hnodup => ?_⟩
  · rw [hnames]
    cases hentry : Subject.entry? kind (s, name) <;> simp [hentry]
  · obtain rfl := List.mem_singleton.mp hg
    exact hderived
  · rw [hused, List.length_cons] at hfew
    have hfresh := σ.namer.unique_fresh s.base (by omega)
    rw [← hname] at hfresh
    rw [hused]
    exact List.nodup_cons.mpr ⟨hfresh, hnodup⟩

end Gives

section

variable {α β : Type} {c : Context} {ss ss' : List Subject}

/-- Whenever something is written, names are given to these subjects in this order, and to any number of results
between them. -/
def Names (c : Context) (x : Glsl α) (ss : List Subject) : Prop :=
  ∀ σ a σ', x c σ = .ok (a, σ') → ∃ given, Gives σ σ' given ∧ (given.map (·.1)).filter (· != .result) = ss

theorem names_pure (a : α) : Names c (pure a) [] := by
  intro σ a σ' h
  cases h
  exact ⟨[], .of_same rfl rfl, rfl⟩

theorem names_throw (e : BackendError) : Names c (throw e : Glsl α) ss := by
  intro σ a σ' h
  cases h

theorem names_fail (span : Span) (o : Obstacle) : Names c (fail span o : Glsl α) ss := names_throw _

theorem names_get : Names c (get : Glsl State) [] := by
  intro σ a σ' h
  cases h
  exact ⟨[], .of_same rfl rfl, rfl⟩

namespace Names

/-- What the first step gives may decide what is named after it. -/
theorem bindOf {x : Glsl α} {f : α → Glsl β} (hx : Names c x ss)
    (hf : ∀ σ a σ', x c σ = .ok (a, σ') → Names c (f a) ss') : Names c (x >>= f) (ss ++ ss') := by
  intro σ b σ' h
  obtain ⟨a, σ₁, hfirst, hrest⟩ := bind_ok.mp h
  obtain ⟨given, hgives, rfl⟩ := hx _ _ _ hfirst
  obtain ⟨given', hgives', rfl⟩ := hf _ _ _ hfirst _ _ _ hrest
  exact ⟨given ++ given', hgives.trans hgives', by rw [List.map_append, List.filter_append]⟩

theorem bind {x : Glsl α} {f : α → Glsl β} (hx : Names c x ss) (hf : ∀ a, Names c (f a) ss') :
    Names c (x >>= f) (ss ++ ss') := hx.bindOf fun _ a _ _ => hf a

/-- Nothing is named before what the first step gives is known. -/
theorem beforeOf {x : Glsl α} {f : α → Glsl β} (hx : Names c x [])
    (hf : ∀ σ a σ', x c σ = .ok (a, σ') → Names c (f a) ss) : Names c (x >>= f) ss := hx.bindOf hf

theorem before {x : Glsl α} {f : α → Glsl β} (hx : Names c x []) (hf : ∀ a, Names c (f a) ss) :
    Names c (x >>= f) ss := hx.bind hf

/-- Nothing is named after the first step. -/
theorem after {x : Glsl α} {f : α → Glsl β} (hx : Names c x ss) (hf : ∀ a, Names c (f a) []) :
    Names c (x >>= f) ss := by
  have h := hx.bind hf
  rwa [List.append_nil] at h

end Names

/-- The surroundings are known. -/
theorem names_read {f : Context → Glsl α} (h : Names c (f c) ss) : Names c (read >>= f) ss := by
  intro σ a σ' hrun
  obtain ⟨c', σ₁, hread, hrest⟩ := bind_ok.mp hrun
  cases hread
  exact h _ _ _ hrest

theorem names_modify {f : State → State} (hnamer : ∀ σ, (f σ).namer = σ.namer) (hnames : ∀ σ, (f σ).names = σ.names) :
    Names c (modify f : Glsl PUnit) [] := by
  intro σ a σ' h
  cases h
  exact ⟨[], .of_same (hnamer σ) (hnames σ), rfl⟩

/-- What is known of the module is taken over. -/
theorem names_lift {x : Except BackendError α} {f : α → Glsl β} (h : ∀ a, x = .ok a → Names c (f a) ss) :
    Names c (liftM x >>= f) ss := by
  intro σ b σ' hrun
  obtain ⟨a, σ₁, hfirst, hrest⟩ := bind_ok.mp hrun
  cases x with
  | error e => cases hfirst
  | ok a' =>
    cases hfirst
    exact h a rfl _ _ _ hrest

theorem names_formed (span : Span) (obstacle : FormError → Obstacle) (x : Except FormError α) :
    Names c (formed span obstacle x) [] := by
  cases x with
  | ok a => exact names_pure a
  | error e => exact names_fail _ _

theorem names_formedHere (x : Except FormError α) : Names c (formedHere x) [] := by
  cases x with
  | ok a => exact names_pure a
  | error e => exact names_throw _

/-- A declaration gets its name. -/
theorem names_declared {kind : Kind} {id : Int} {identifier : Text} {put : Text → State → State} {f : Text → Glsl α}
    (hput : Puts kind id put) (hf : ∀ name, Names c (f name) ss) :
    Names c (do
      let name ← freshName identifier
      modify (put name)
      f name) (.declared kind id identifier :: ss) := by
  intro σ a σ' h
  obtain ⟨name, σ₁, hname, h⟩ := bind_ok.mp h
  obtain ⟨u, σ₂, hmodify, hrest⟩ := bind_ok.mp h
  cases hname
  cases hmodify
  obtain ⟨given, hgives, rfl⟩ := hf _ _ _ _ hrest
  have hone : Gives σ (put (σ.namer.fresh identifier).1 { σ with namer := (σ.namer.fresh identifier).2 })
      [(.declared kind id identifier, (σ.namer.fresh identifier).1)] := by
    refine .one ?_ fun k => ?_
    · rw [hput.namer]
      rfl
    · rw [hput.names]
      by_cases hk : kind = k
      · simp only [Subject.entry?, if_pos hk]
        rfl
      · simp only [Subject.entry?, if_neg hk]
        rfl
  refine ⟨_, hone.trans hgives, ?_⟩
  rw [List.map_append, List.filter_append]
  rfl

theorem names_declare {kind : Kind} {id : Int} {identifier : Text} {put : Text → State → State}
    (hput : Puts kind id put) :
    Names c (do
      let name ← freshName identifier
      modify (put name) : Glsl PUnit) [.declared kind id identifier] := by
  have h : Names c (freshName identifier >>= fun name => modify (put name) >>= fun _ => pure PUnit.unit)
      [.declared kind id identifier] := names_declared hput fun _ => names_pure _
  simpa only [bind_pure_unit] using h

/-- What `main` gives to the entry point or takes from it gets its name. -/
theorem names_own {s : Subject} {f : Text → Glsl α} (hs : s = .input ∨ s = .output) (hf : ∀ name, Names c (f name) ss) :
    Names c (uniqueName s.base >>= f) (s :: ss) := by
  intro σ a σ' h
  obtain ⟨name, σ₁, hname, hrest⟩ := bind_ok.mp h
  cases hname
  obtain ⟨given, hgives, rfl⟩ := hf _ _ _ _ hrest
  have hone : Gives σ { σ with namer := (σ.namer.unique s.base).2 } [(s, (σ.namer.unique s.base).1)] := by
    refine .one rfl fun k => ?_
    rcases hs with rfl | rfl <;> rfl
  refine ⟨_, hone.trans hgives, ?_⟩
  rw [List.map_append, List.filter_append]
  rcases hs with rfl | rfl <;> rfl

theorem names_forM {f : α → Glsl PUnit} {g : α → List Subject} {as : List α} (h : ∀ a ∈ as, Names c (f a) (g a)) :
    Names c (as.forM f) (as.flatMap g) := by
  induction as with
  | nil => exact names_pure _
  | cons a as ih =>
    obtain ⟨hfirst, hrest⟩ := List.forall_mem_cons.mp h
    exact hfirst.bind fun _ => ih hrest

theorem names_mapM {f : α → Glsl β} {g : α → List Subject} {as : List α} (h : ∀ a ∈ as, Names c (f a) (g a)) :
    Names c (as.mapM f) (as.flatMap g) := by
  induction as with
  | nil => exact names_pure _
  | cons a as ih =>
    obtain ⟨hfirst, hrest⟩ := List.forall_mem_cons.mp h
    rw [List.mapM_cons]
    exact hfirst.bind fun _ => (ih hrest).after fun _ => names_pure _

/-- Nothing is named for the elements of a list. -/
theorem names_each {f : α → Glsl β} {as : List α} (h : ∀ a ∈ as, Names c (f a) []) : Names c (as.mapM f) [] := by
  have hall := names_mapM (g := fun _ => []) h
  rwa [List.flatMap_eq_nil_iff.mpr fun _ _ => rfl] at hall

theorem names_foldlM {f : β → α → Glsl β} {as : List α} (h : ∀ b, ∀ a ∈ as, Names c (f b a) []) (b : β) :
    Names c (as.foldlM f b) [] := by
  induction as generalizing b with
  | nil => exact names_pure _
  | cons a as ih =>
    rw [List.foldlM_cons]
    exact (h b a List.mem_cons_self).before fun b' => ih (fun b a ha => h b a (List.mem_cons_of_mem _ ha)) b'

end

section

variable {c : Context}

theorem names_noteDouble (needed : Bool) : Names c (noteDouble needed) [] :=
  names_modify (fun _ => rfl) fun _ => rfl

theorem names_typeName (t : Ty) : Names c (typeName t) [] :=
  (names_noteDouble _).before fun _ => names_get.before fun _ => names_pure _

theorem names_declaration (t : Ty) (name : Text) : Names c (declaration t name) [] :=
  (names_noteDouble _).before fun _ => names_get.before fun _ => names_pure _

theorem names_literal (v : Value) : Names c (literal v) [] :=
  (names_noteDouble _).before fun _ => names_formedHere _

theorem names_constantLine (name : Text) (v : Value) : Names c (constantLine name v) [] := by
  unfold constantLine
  apply (names_declaration _ _).before
  intro form
  apply (names_formedHere _).before
  intro decl
  exact (names_literal v).before fun _ => names_pure _

theorem names_takePending : Names c takePending [] := by
  unfold takePending
  apply names_get.before
  intro σ
  refine (names_modify ?_ ?_).before fun _ => names_pure _
  · exact fun _ => rfl
  · exact fun _ => rfl

/-- A result that is computed before has a name, which is not that of a declaration. -/
theorem names_cacheResult (t : Ty) (value : Text) : Names c (cacheResult t value) [] := by
  intro σ a σ' h
  obtain ⟨name, σ₁, hname, h⟩ := bind_ok.mp h
  cases hname
  have hrest : Names c (do
      let decl ← formedHere (← declaration t (σ.namer.fresh "cachedResult").1)
      modify fun s => { s with pending := s.pending ++ [decl ++ " = " ++ value ++ ";"] }
      return (σ.namer.fresh "cachedResult").1) [] := by
    apply (names_declaration _ _).before
    intro form
    apply (names_formedHere _).before
    intro decl
    refine (names_modify ?_ ?_).before fun _ => names_pure _
    · exact fun _ => rfl
    · exact fun _ => rfl
  obtain ⟨given, hgives, hempty⟩ := hrest _ _ _ h
  have hone : Gives σ { σ with namer := (σ.namer.fresh "cachedResult").2 }
      [(.result, (σ.namer.fresh "cachedResult").1)] := .one rfl fun _ => rfl
  refine ⟨_, hone.trans hgives, ?_⟩
  rw [List.map_append, List.filter_append, hempty]
  rfl

theorem names_binary (op : BinaryOp) (t : Ty) (l r : Text) (span : Span) : Names c (binary op t l r span) [] := by
  unfold binary
  split
  · exact names_pure _
  · split
    · exact names_pure _
    · exact names_fail _ _

theorem names_unary (op : UnaryOp) (e : Text) (span : Span) : Names c (unary op e span) [] := by
  unfold unary
  split
  · exact names_pure _
  · exact names_pure _
  · exact names_pure _
  · exact names_pure _
  · exact names_fail _ _

theorem names_assignment (op : AssignOp) (t : Ty) (l r : Text) (span : Span) :
    Names c (assignment op t l r span) [] := by
  unfold assignment
  split
  · exact names_pure _
  · split
    · exact (names_binary _ _ _ _ _).before fun _ => names_pure _
    · exact names_pure _

theorem names_swizzled (i : ExprInfo) (source : Expr) (base : Text) (s : Selector) :
    Names c (swizzled i source base s) [] := by
  have htype (base : Text) : Names c (do
      let name ← formed i.span .form (← typeName i.type)
      return name ++ "(" ++ Text.join ", " (List.replicate s.count.toNat base) ++ ")") [] := by
    apply (names_typeName _).before
    intro form
    exact (names_formed _ _ _).before fun _ => names_pure _
  unfold swizzled
  split
  · exact names_pure _
  · split
    · exact names_pure _
    · split
      · exact (names_pure base).before htype
      · exact (names_cacheResult _ _).before htype

theorem names_intrinsicCall (span : Span) (f : Intrinsic) (args : List Text) :
    Names c (intrinsicCall span f args) [] := by
  unfold intrinsicCall
  split
  · apply names_read
    split
    · exact names_pure _
    · exact names_pure _
  · exact names_pure _
  · split
    · exact names_pure _
    · exact names_fail _ _

mutual

/-- An expression names results only. -/
theorem names_expression : ∀ e : Expr, Names c (expression e) []
  | .literal _ v => by
    rw [expression]
    exact names_literal v
  | .const i id => by
    rw [expression]
    apply names_get.before
    intro σ
    split
    · exact names_pure _
    · apply names_read
      split
      · exact names_literal _
      · exact names_fail _ _
  | .var i id => by
    rw [expression]
    apply names_get.before
    intro σ
    split
    · exact names_pure _
    · exact names_fail _ _
  | .index i base indices => by
    rw [expression]
    apply (names_expression base).before
    intro b
    exact (names_accesses i.span base.type indices).before fun _ => names_pure _
  | .swizzle i base s => by
    rw [expression]
    exact (names_expression base).before fun b => names_swizzled i base b s
  | .binary i op l r => by
    rw [expression]
    apply (names_expression l).before
    intro a
    exact (names_expression r).before fun b => names_binary op l.type a b i.span
  | .unary i op e => by
    rw [expression]
    exact (names_expression e).before fun a => names_unary op a i.span
  | .assign i op l r => by
    rw [expression]
    apply (names_expression r).before
    intro b
    apply (names_expression l).before
    intro a
    exact (names_assignment op l.type a b i.span).before fun _ => names_pure _
  | .cast i target args => by
    rw [expression]
    apply (names_expressions args).before
    intro texts
    apply (names_typeName _).before
    intro form
    exact (names_formed _ _ _).before fun _ => names_pure _
  | .ternary i cond t f => by
    rw [expression]
    apply (names_expression cond).before
    intro a
    apply (names_expression t).before
    intro b
    exact (names_expression f).before fun _ => names_pure _
  | .call i target args => by
    have hargs := names_expressions args
    cases target with
    | function _ id =>
      rw [expression]
      apply names_get.before
      intro σ
      split
      · exact names_fail _ _
      · exact hargs.before fun _ => names_pure _
    | _ =>
      simp only [expression]
      exact names_fail _ _
  | .intrinsic i f args => by
    rw [expression]
    exact (names_expressions args).before fun texts => names_intrinsicCall i.span f texts
  | .absent | .name .. | .function .. | .structRef .. | .typeRef .. | .intrinsicRef .. | .member .. | .method .. => by
    simp only [expression]
    exact names_fail _ _

theorem names_expressions : ∀ es : List Expr, Names c (expressions es) []
  | [] => by
    rw [expressions]
    exact names_pure _
  | e :: es => by
    rw [expressions]
    apply (names_expression e).before
    intro t
    exact (names_expressions es).before fun _ => names_pure _

theorem names_accesses (span : Span) : ∀ (t : Ty) (es : List Expr), Names c (accesses span t es) []
  | t, [] => by
    rw [accesses]
    exact names_pure _
  | t, e :: es => by
    have hrest := fun t => names_accesses span t es
    rw [accesses]
    split
    · apply names_read
      apply names_lift
      rintro ⟨n, name, member⟩ -
      exact (hrest member).before fun _ => names_pure _
    · apply (names_expression e).before
      intro index
      split
      · exact (hrest _).before fun _ => names_pure _
      · exact (hrest _).before fun _ => names_pure _
      · exact (hrest _).before fun _ => names_pure _
      · exact (names_fail _ _).before fun _ => names_pure _

end

theorem names_effect (e : Expr) : Names c (effect e) [] := by
  unfold effect
  split
  · apply (names_expression _).before
    intro b
    apply (names_expression _).before
    intro a
    exact names_assignment _ _ _ _ _
  · exact names_expression e

theorem names_condition (e : Expr) : Names c (condition e) [] := (names_expression e).before fun _ => names_pure _

end

mutual

/-- The variables and constants that are declared in what is written of a statement, from front to back. -/
def declaredIn (k : Constants) : Stmt → List Subject
  | .letVar _ d => [.declared .variable d.id d.name]
  | .const _ d => [.declared .constant d.id d.name]
  | .multi _ body => declaredInAll k body
  | .scoped _ body => declaredIn k body
  | .branch _ true arms otherwise =>
    match k.selectArm arms with
    | .ok n => if n < arms.length then declaredInArm k n arms else declaredIn k otherwise
    | .error _ => []
  | .branch _ false [] _ => []
  | .branch _ false (arm :: arms) otherwise =>
    declaredIn k arm.2 ++ (declaredInArms k arms ++ declaredIn k otherwise)
  | .conditional _ cond body =>
    match k.condition cond with
    | .ok true => declaredIn k body
    | _ => []
  | .loop _ _ _ body => declaredIn k body
  | _ => []

def declaredInAll (k : Constants) : List Stmt → List Subject
  | [] => []
  | s :: ss => declaredIn k s ++ declaredInAll k ss

def declaredInArm (k : Constants) : Nat → List (Expr × Stmt) → List Subject
  | _, [] => []
  | 0, (_, s) :: _ => declaredIn k s
  | n + 1, _ :: arms => declaredInArm k n arms

def declaredInArms (k : Constants) : List (Expr × Stmt) → List Subject
  | [] => []
  | (_, s) :: arms => declaredIn k s ++ declaredInArms k arms

end

section

variable {c : Context}

theorem names_variableLines (span : Span) (d : VarDecl) :
    Names c (variableLines span d) [.declared .variable d.id d.name] := by
  unfold variableLines
  extract_lets typed
  have htyped (t : Ty) : Names c (typed t) [.declared .variable d.id d.name] := by
    unfold typed
    extract_lets initialized
    have hinitialized (init : Text) : Names c (initialized init) [.declared .variable d.id d.name] := by
      apply names_declared (puts_variable _)
      intro name
      apply (names_declaration _ _).before
      intro form
      apply (names_formed _ _ _).before
      intro decl
      exact names_takePending.before fun _ => names_pure _
    split
    · exact (names_pure _).before hinitialized
    · exact (names_expression _).before hinitialized
  split
  · exact (names_pure _).before htyped
  · split
    · exact (names_pure _).before htyped
    · exact (names_fail _ _).before htyped

theorem names_constantLines (span : Span) (d : ConstDecl) :
    Names c (constantLines span d) [.declared .constant d.id d.name] := by
  unfold constantLines
  apply names_read
  split
  · exact names_fail _ _
  · apply names_declared (puts_constant _)
    intro name
    exact (names_constantLine _ _).before fun _ => names_pure _

mutual

/-- A statement names what it declares. -/
theorem names_content : ∀ s : Stmt, Names c (content s) (declaredIn c.source.constants s)
  | .expr _ e => by
    simp only [content, declaredIn]
    apply (names_effect e).before
    intro t
    exact names_takePending.before fun _ => names_pure _
  | .letVar span d => by
    rw [content, declaredIn]
    exact names_variableLines span d
  | .const span d => by
    rw [content, declaredIn]
    exact names_constantLines span d
  | .multi _ body => by
    rw [content, declaredIn]
    exact names_statements body
  | .scoped _ body => by
    rw [content, declaredIn]
    exact (names_content body).after fun _ => names_pure _
  | .branch span true arms otherwise => by
    have hselected := fun n => names_selectedArm n arms
    have hotherwise := names_content otherwise
    rw [content, declaredIn]
    apply names_read
    apply names_lift
    intro n hn
    rw [hn]
    dsimp only
    split
    · exact hselected n
    · exact hotherwise.after fun _ => names_pure _
  | .branch _ false [] _ => by
    rw [content, declaredIn]
    exact names_pure _
  | .branch _ false ((e, s) :: arms) otherwise => by
    have hbody := names_content s
    have hotherwise := names_content otherwise
    have harms := fun last hlast => names_furtherArms last (declaredIn c.source.constants otherwise) hlast arms
    rw [content, declaredIn]
    apply (names_condition e).before
    intro cond
    apply names_takePending.before
    intro before
    apply hbody.bind
    intro lines
    refine (harms _ ?_).after fun _ => names_pure _
    split
    · next habsent =>
      cases otherwise with
      | absent =>
        simp only [declaredIn]
        exact names_pure _
      | _ => cases habsent
    · exact hotherwise.after fun _ => names_pure _
  | .conditional _ cond body => by
    have hbody := names_content body
    rw [content, declaredIn]
    apply names_read
    apply names_lift
    intro holds hcond
    rw [hcond]
    split
    · next h =>
      rw [h]
      exact hbody.after fun _ => names_pure _
    · next h =>
      rw [Bool.eq_false_of_not_eq_true h]
      exact names_pure _
  | .loop _ cond _ body => by
    rw [content, declaredIn]
    apply (names_condition cond).before
    intro test
    apply names_takePending.before
    intro before
    exact (names_content body).after fun _ => names_pure _
  | .returnWith _ e => by
    by_cases he : e = .absent
    · rw [he, content, declaredIn]
      · exact names_pure _
      all_goals simp
    · rw [content, declaredIn]
      · apply (names_expression e).before
        intro t
        exact names_takePending.before fun _ => names_pure _
      all_goals simp [he]
  | .discard span => by
    simp only [content, declaredIn]
    apply names_read
    split
    · exact names_pure _
    · exact names_fail _ _
  | .forRange span h body => by
    simp only [content, declaredIn]
    exact names_fail _ _
  | .forEach span h body => by
    simp only [content, declaredIn]
    exact names_fail _ _
  | .absent | .breakLoop _ | .continueLoop _ | .noOp _ | .importFrom .. | .alias .. | .option .. | .struct ..
  | .function .. | .external .. => by
    simp only [content, declaredIn]
    exact names_pure _

theorem names_statements : ∀ ss : List Stmt, Names c (statements ss) (declaredInAll c.source.constants ss)
  | [] => by
    rw [statements, declaredInAll]
    exact names_pure _
  | s :: ss => by
    rw [statements, declaredInAll]
    apply (names_content s).bind
    intro first
    exact (names_statements ss).after fun _ => names_pure _

theorem names_selectedArm : ∀ (n : Nat) (arms : List (Expr × Stmt)),
    Names c (selectedArm n arms) (declaredInArm c.source.constants n arms)
  | _, [] => by
    rw [selectedArm, declaredInArm]
    exact names_pure _
  | 0, (_, s) :: arms => by
    rw [selectedArm, declaredInArm]
    exact (names_content s).after fun _ => names_pure _
  | n + 1, _ :: arms => by
    rw [selectedArm, declaredInArm]
    exact names_selectedArm n arms

theorem names_furtherArms (last : Glsl (List Text)) (ss : List Subject) (hlast : Names c last ss) :
    ∀ arms : List (Expr × Stmt), Names c (furtherArms last arms) (declaredInArms c.source.constants arms ++ ss)
  | [] => by
    rw [furtherArms, declaredInArms]
    exact hlast
  | (e, s) :: arms => by
    rw [furtherArms, declaredInArms, List.append_assoc]
    apply (names_condition e).before
    intro cond
    apply names_takePending.before
    intro before
    apply (names_content s).bind
    intro body
    exact (names_furtherArms last ss hlast arms).after fun _ => names_pure _

end

theorem names_memberLines (struct : Text) (ms : List (Text × Ty)) : Names c (memberLines struct ms) [] := by
  induction ms with
  | nil => exact names_pure _
  | cons m ms ih =>
    rw [memberLines]
    apply (names_declaration _ _).before
    intro form
    split
    · exact (names_pure _).before fun _ => ih.before fun _ => names_pure _
    · exact (names_throw _).before fun _ => ih.before fun _ => names_pure _

theorem names_structBlock (d : StructDecl) : Names c (structBlock d) [] := by
  unfold structBlock
  apply names_get.before
  intro σ
  exact (names_memberLines _ _).before fun _ => names_pure _

theorem names_structLines (depth : Nat) (d : StructDecl) (written : List Int) :
    Names c (structLines depth d written) [] := by
  induction depth generalizing d written with
  | zero => exact names_pure _
  | succ depth ih =>
    rw [structLines]
    split
    · exact names_pure _
    · apply names_read
      refine (names_foldlM (fun acc e _ => ?_) _).before fun acc => ?_
      · exact (ih _ _).before fun _ => names_pure _
      · dsimp only
        split
        · exact names_pure _
        · exact (names_structBlock d).before fun _ => names_pure _

theorem names_allStructLines : Names c allStructLines [] := by
  unfold allStructLines
  apply names_read
  refine (names_foldlM (fun acc d _ => ?_) _).before fun _ => names_pure _
  exact (names_structLines _ _ _).before fun _ => names_pure _

theorem names_constantsLines : Names c constantsLines [] := by
  unfold constantsLines
  apply names_read
  refine (names_each ?_).before fun _ => names_pure _
  rintro ⟨id, n⟩ -
  dsimp only
  split
  · exact names_fail _ _
  · exact names_get.before fun _ => names_constantLine _ _

theorem names_blockLines (start name : Text) (r : Record Ty) : Names c (blockLines start name r) [] :=
  (names_memberLines _ _).before fun _ => names_pure _

theorem names_externalLines (v : External) : Names c (externalLines v) [] := by
  unfold externalLines
  apply names_read
  apply names_get.before
  intro σ
  dsimp only
  split
  · exact names_blockLines _ _ _
  · split
    · exact (names_fail _ _).before fun _ => names_blockLines _ _ _
    · exact names_blockLines _ _ _
  · exact names_pure _
  · exact names_fail _ _

theorem names_externalsLines (reached : List FunctionDecl) : Names c (externalsLines reached) [] := by
  unfold externalsLines
  apply names_read
  exact (names_each fun v _ => names_externalLines v).before fun _ => names_pure _

theorem names_stageLines (f : FunctionDecl) : Names c (stageLines f) [] := by
  unfold stageLines
  apply names_read
  split
  · dsimp only
    split
    · exact (names_fail _ _).before fun _ => names_pure _
    · exact names_pure _
  · split
    · exact names_pure _
    · exact names_pure _
  · exact names_pure _

theorem names_interfaceStruct (f : FunctionDecl) (r : Record Ty) : Names c (interfaceStruct f r) [] := by
  unfold interfaceStruct
  apply names_read
  split
  · exact names_pure _
  · exact names_fail _ _

theorem names_entryStructs (f : FunctionDecl) : Names c (entryStructs f) [] := by
  have hsome (r : Record Ty) : Names c (some <$> interfaceStruct f r) [] := by
    rw [← bind_pure_comp]
    exact (names_interfaceStruct f r).before fun _ => names_pure _
  unfold entryStructs
  extract_lets withInput
  have houtput (input : Option StructDecl) : Names c (withInput input) [] := by
    unfold withInput
    dsimp only
    split
    · exact (hsome _).before fun _ => names_pure _
    · exact (names_pure _).before fun _ => names_pure _
  split
  · split
    · exact (hsome _).before houtput
    · exact (names_fail _ _).before houtput
  · exact (names_pure _).before houtput

theorem names_interfaceLine (output : Bool) (m : StructMember) (location : UInt32) :
    Names c (interfaceLine output m location) [] := by
  unfold interfaceLine
  apply names_read
  apply (names_declaration _ _).before
  intro form
  apply (names_formed _ _ _).before
  intro decl
  dsimp only
  split
  · exact names_pure _
  · exact names_pure _

theorem names_interface (f : FunctionDecl) : Names c (interface f) [] := by
  unfold interface
  apply (names_stageLines f).before
  intro stage
  apply (names_entryStructs f).before
  intro structs
  apply (names_each fun m _ => names_interfaceLine _ _ _).before
  intro inputs
  exact (names_each fun m _ => names_interfaceLine _ _ _).before fun _ => names_pure _

/-- The variables that are the parameters of a function. -/
def parameters (ps : List FnParam) : List Subject := ps.map fun p => .declared .variable p.id p.name

theorem names_parameterTexts (ps : List FnParam) : Names c (parameterTexts ps) (parameters ps) := by
  induction ps with
  | nil => exact names_pure _
  | cons p ps ih =>
    rw [parameterTexts]
    apply names_declared (puts_variable _)
    intro name
    apply (names_declaration _ _).before
    intro form
    apply (names_formed _ _ _).before
    intro decl
    exact ih.after fun _ => names_pure _

theorem names_functionLines (f : FunctionDecl) :
    Names c (functionLines f) (parameters f.head.params ++ declaredInAll c.source.constants f.body) := by
  unfold functionLines
  apply (names_typeName _).before
  intro form
  apply (names_formed _ _ _).before
  intro result
  apply (names_parameterTexts _).bind
  intro params
  apply names_get.before
  intro σ
  exact (names_statements f.body).after fun _ => names_pure _

theorem names_memberVariable (output : Bool) (m : StructMember) : Names c (memberVariable output m) [] := by
  unfold memberVariable
  split
  · split
    · exact names_pure _
    · exact names_fail _ _
  · exact names_read (names_pure _)
  · exact names_fail _ _

/-- What `main` gives to an entry point and takes from it. -/
def exchanged (f : FunctionDecl) : List Subject :=
  (match f.head.params with
    | [_] => [.input]
    | _ => []) ++
  match f.head.result.denoted with
    | .struct _ => [.output]
    | _ => []

theorem interfaceStruct_ok {f : FunctionDecl} {r : Record Ty} {σ σ' : State} {d : Option StructDecl}
    (h : (some <$> interfaceStruct f r) c σ = .ok (d, σ')) : d.isSome := by
  rw [← bind_pure_comp] at h
  obtain ⟨d', σ₁, -, hpure⟩ := bind_ok.mp h
  cases hpure
  rfl

/-- The result of an entry point decides about the output, whatever the input is. -/
theorem withOutput_ok {f : FunctionDecl} {result : Ty} {given input output : Option StructDecl} {σ σ' : State}
    (h : (match result with
      | .struct r => do
        let output ← some <$> interfaceStruct f r
        pure (given, output)
      | _ => do
        let output ← pure none
        pure (given, output) : Glsl (Option StructDecl × Option StructDecl)) c σ = .ok ((input, output), σ')) :
    given = input ∧ (match result with
      | .struct _ => [Subject.output]
      | _ => []) = if output.isSome then [.output] else [] := by
  cases result with
  | struct r =>
    obtain ⟨d, σ₁, hd, hpure⟩ := bind_ok.mp h
    have hsome := interfaceStruct_ok hd
    cases hpure
    rw [if_pos hsome]
    exact ⟨rfl, rfl⟩
  | _ =>
    obtain ⟨d, σ₁, hd, hpure⟩ := bind_ok.mp h
    cases hd
    cases hpure
    exact ⟨rfl, rfl⟩

theorem entryStructs_ok {f : FunctionDecl} {σ σ' : State} {input output : Option StructDecl}
    (h : entryStructs f c σ = .ok ((input, output), σ')) :
    exchanged f =
      (if input.isSome then [Subject.input] else []) ++ if output.isSome then [Subject.output] else [] := by
  unfold entryStructs at h
  unfold exchanged
  generalize f.head.result.denoted = result at h ⊢
  dsimp only at h
  match hparams : f.head.params with
  | [p] =>
    rw [hparams] at h
    dsimp only at h
    cases ht : p.type.denoted with
    | struct r =>
      rw [ht] at h
      obtain ⟨d, σ₁, hd, hrest⟩ := bind_ok.mp h
      have hsome := interfaceStruct_ok hd
      obtain ⟨rfl, heq⟩ := withOutput_ok hrest
      rw [heq, if_pos hsome]
    | _ =>
      rw [ht] at h
      obtain ⟨d, σ₁, hd, hrest⟩ := bind_ok.mp h
      cases hd
  | [] | _ :: _ :: _ =>
    rw [hparams] at h
    obtain ⟨d, σ₁, hd, hrest⟩ := bind_ok.mp h
    cases hd
    obtain ⟨rfl, heq⟩ := withOutput_ok hrest
    rw [heq]
    rfl

theorem names_mainLines (f : FunctionDecl) : Names c (mainLines f) (exchanged f) := by
  unfold mainLines
  refine (names_entryStructs f).beforeOf fun σ structs σ' hrun => ?_
  obtain ⟨input, output⟩ := structs
  rw [entryStructs_ok hrun]
  dsimp -zeta only
  extract_lets call
  have hcall (given : Text × List Text) : Names c (call given) (if output.isSome then [.output] else []) := by
    unfold call
    apply names_get.before
    intro σ
    dsimp only
    cases output with
    | none => exact (names_pure _).before fun _ => names_pure _
    | some d =>
      apply (names_each fun m _ => names_memberVariable _ m).before
      intro members
      refine names_own (s := .output) (.inr rfl) fun name => ?_
      apply names_get.before
      intro σ
      apply names_read
      exact (names_pure _).before fun _ => names_pure _
  cases input with
  | none => exact (names_pure _).before hcall
  | some d =>
    apply (names_each fun m _ => names_memberVariable _ m).before
    intro members
    refine names_own (s := .input) (.inl rfl) fun name => ?_
    apply names_get.before
    intro σ
    exact (names_pure _).before hcall

/-- Each of several declarations gets a name. -/
theorem declareAll_gives {α : Type} {f : α → Glsl PUnit} {as : List α} {u : PUnit} {σ σ' : State}
    (h : (as.forM f) c σ = .ok (u, σ')) {subject : α → Subject} (hf : ∀ a, Names c (f a) [subject a]) :
    ∃ given, Gives σ σ' given ∧ (given.map (·.1)).filter (· != .result) = as.map subject := by
  rw [List.map_eq_flatMap]
  exact names_forM (fun a _ => hf a) _ _ _ h

/-- What is declared outside functions. -/
def globals (source : Specialization) (reached : List FunctionDecl) : List Subject :=
  (source.structs.map fun d => Subject.declared .struct d.id d.name) ++
    ((source.named.map fun n => Subject.declared .constant n.1 n.2) ++
    ((source.externals.map fun v => Subject.declared .variable v.id v.name) ++
    reached.map fun f => Subject.declared .function f.head.id f.head.name))

/-- The declarations outside functions get their names after `main` has its own. -/
theorem nameDeclarations_gives {reached : List FunctionDecl} {u : PUnit} {σ' : State}
    (h : nameDeclarations reached c {} = .ok (u, σ')) :
    ∃ given, Gives { namer := { used := [Text.ofString "main"] } } σ' given ∧
      (given.map (·.1)).filter (· != .result) = globals c.source reached := by
  obtain ⟨v, σ₀, hreserve, h⟩ := bind_ok.mp h
  cases hreserve
  obtain ⟨c', σ₁, hread, h⟩ := bind_ok.mp h
  cases hread
  obtain ⟨u₁, σ₁, hstructs, h⟩ := bind_ok.mp h
  obtain ⟨u₂, σ₂, hconstants, h⟩ := bind_ok.mp h
  obtain ⟨u₃, σ₃, hvars, hfunctions⟩ := bind_ok.mp h
  obtain ⟨given₁, hgives₁, hsubjects₁⟩ := declareAll_gives hstructs fun d => names_declare (puts_struct d.id)
  obtain ⟨given₂, hgives₂, hsubjects₂⟩ := declareAll_gives hconstants fun n => names_declare (puts_constant n.1)
  obtain ⟨given₃, hgives₃, hsubjects₃⟩ := declareAll_gives hvars fun v => names_declare (puts_variable v.id)
  obtain ⟨given₄, hgives₄, hsubjects₄⟩ := declareAll_gives hfunctions fun f => names_declare (puts_function f.head.id)
  refine ⟨_, hgives₁.trans (hgives₂.trans (hgives₃.trans hgives₄)), ?_⟩
  rw [globals, ← hsubjects₁, ← hsubjects₂, ← hsubjects₃, ← hsubjects₄]
  simp only [List.map_append, List.filter_append]

/-- What gets a name in a shader, in the order in which it is written. -/
def subjects (c : Context) (entry : FunctionDecl) : List Subject :=
  globals c.source (reachable c.source entry) ++
    (((reachable c.source entry).flatMap fun f =>
      parameters f.head.params ++ declaredInAll c.source.constants f.body) ++
    exchanged entry)

theorem shaderLines_gives {entry : FunctionDecl} {lines : List Text} {σ' : State}
    (h : shaderLines entry c {} = .ok (lines, σ')) :
    ∃ given, Gives { namer := { used := [Text.ofString "main"] } } σ' given ∧
      (given.map (·.1)).filter (· != .result) = subjects c entry := by
  obtain ⟨c', σ₀, hread, h⟩ := bind_ok.mp h
  cases hread
  obtain ⟨u, σ₁, hnames, h⟩ := bind_ok.mp h
  obtain ⟨given, hgives, hglobals⟩ := nameDeclarations_gives hnames
  have hrest : Names c (do
      let structs ← allStructLines
      let constants ← constantsLines
      let externals ← externalsLines (reachable c.source entry)
      let stageVars ← interface entry
      let functions ← (reachable c.source entry).mapM functionLines
      let main ← mainLines entry
      if (← get).usesDouble && !c.version.supportsDouble then fail {} (.doubleVersion c.version.text)
      return [Text.ofString "#version " ++ c.version.text, []] ++ precisionLines c.version ++ structs ++
        constants ++ externals ++ stageVars ++ functions.flatten ++ main)
      (((reachable c.source entry).flatMap fun f =>
        parameters f.head.params ++ declaredInAll c.source.constants f.body) ++ exchanged entry) := by
    apply names_allStructLines.before
    intro structs
    apply names_constantsLines.before
    intro constants
    apply (names_externalsLines _).before
    intro externals
    apply (names_interface entry).before
    intro stageVars
    apply (names_mapM fun f _ => names_functionLines f).bind
    intro functions
    apply (names_mainLines entry).after
    intro main
    apply names_get.before
    intro σ
    dsimp only
    split
    · exact (names_fail _ _).before fun _ => names_pure _
    · exact names_pure _
  obtain ⟨given', hgives', hsubjects⟩ := hrest _ _ _ h
  refine ⟨given ++ given', hgives.trans hgives', ?_⟩
  rw [List.map_append, List.filter_append, hglobals, hsubjects, subjects]

end

/-- The names of a shader whose entry point is given, and the state in which it is finished. -/
structure NamesApart (c : Context) (entry : FunctionDecl) (σ : State) (given : List (Subject × Text)) : Prop where
  /-- everything that is declared has a name, and apart from it only results of calculations do -/
  subjects : (given.map (·.1)).filter (· != .result) = subjects c entry
  /-- the names are all that were given and those that are looked up -/
  used : σ.namer.used = (given.map (·.2)).reverse ++ [Text.ofString "main"]
  names : ∀ kind, σ.names kind = (given.filterMap (Subject.entry? kind)).reverse
  /-- each is the wanted one or has a number behind it -/
  derived : ∀ g ∈ given, Namer.Derived g.1.base g.2
  distinct : given.length < UInt32.size → (given.map (·.2)).Nodup ∧ Text.ofString "main" ∉ given.map (·.2)
  /-- none for the source starts as those of the generator's own -/
  source : ∀ g ∈ given, g.1 ≠ .input → g.1 ≠ .output → ¬ ownMark <+: g.2

theorem namesApart_of_gives {c : Context} {entry : FunctionDecl} {σ : State} {given : List (Subject × Text)}
    (h : Gives { namer := { used := [Text.ofString "main"] } } σ given)
    (hsubjects : (given.map (·.1)).filter (· != .result) = Glsl.subjects c entry) : NamesApart c entry σ given where
  subjects := hsubjects
  used := h.used
  names kind := by
    rw [h.names]
    cases kind <;> exact List.append_nil _
  derived := h.derived
  distinct hfew := by
    have hlength : σ.namer.used.length = given.length + 1 := by
      rw [h.used, List.length_append, List.length_reverse, List.length_map]
      rfl
    have hnodup := h.apart (by omega) (List.nodup_singleton _)
    rw [h.used] at hnodup
    obtain ⟨hnames, -, happart⟩ := List.nodup_append.mp hnodup
    refine ⟨List.nodup_reverse.mp hnames, fun hmain => ?_⟩
    exact happart _ (List.mem_reverse.mpr hmain) _ (List.mem_singleton_self _) rfl
  source g hg hinput houtput := by
    have hbase : ¬ ownMark <+: g.1.base := by
      cases hs : g.1 with
      | declared kind id identifier => exact not_own_escape identifier
      | result => exact not_own_escape _
      | input => exact absurd hs hinput
      | output => exact absurd hs houtput
    rcases h.derived g hg with heq | ⟨n, heq⟩
    · rwa [heq]
    · rw [heq]
      exact not_own_numbered hbase n

/-- Names in a shader never clash, and the search for a number behind a name that is given already always ends with
the first one that makes it new. -/
theorem generate_namesApart {m : Option Module} {target : Settings} {text : Text} (hrun : generate m target = .ok text) :
    (∃ (source : Specialization) (entry : FunctionDecl) (lines : List Text) (σ : State) (given : List (Subject × Text)),
      Specialization.ofModule m { reduceLoops := true, values := target.values } = .ok source ∧
      entryPoint ⟨target, source⟩ = .ok entry ∧ shaderLines entry ⟨target, source⟩ {} = .ok (lines, σ) ∧
      text = lines.flatMap (· ++ [Text.byte '\n']) ∧ NamesApart ⟨target, source⟩ entry σ given) ∧
    ∀ (n : Namer) (name : Text), name ∈ n.used → n.used.length < UInt32.size →
      ∃ k, 0 < k ∧ k ≤ n.used.length + 1 ∧
        (∀ j, 0 < j → j < k → Namer.numbered name (n.counter + UInt32.ofNat j) ∈ n.used) ∧
        Namer.numbered name (n.counter + UInt32.ofNat k) ∉ n.used ∧
        (n.unique name).1 = Namer.numbered name (n.counter + UInt32.ofNat k) := by
  constructor
  · obtain ⟨source, entry, lines, σ, hsource, hentry, hlines, htext⟩ := generate_ok hrun
    obtain ⟨given, hgives, hsubjects⟩ := shaderLines_gives hlines
    exact ⟨source, entry, lines, σ, given, hsource, hentry, hlines, htext, namesApart_of_gives hgives hsubjects⟩
  · intro n name hmem hfew
    obtain ⟨k, hpos, hle, hbefore, hnew, heq⟩ := n.unique_of_mem hmem hfew
    exact ⟨k, hpos, hle, hbefore, hnew, by rw [heq]⟩

theorem generate_namesApart_sample : ∃ (r : Module) (text : Text) (source : Specialization) (entry : FunctionDecl)
    (σ : State) (given : List (Subject × Text)), generate (some r) {} = .ok text ∧
      NamesApart ⟨{}, source⟩ entry σ given ∧ given.length < UInt32.size ∧ (given.map (·.2)).Nodup := by
  obtain ⟨x, hx, -, hfew⟩ := order_read
  obtain ⟨-, -, hsource, hentry, hlines, htext⟩ := Reading.of_text hx
  obtain ⟨⟨source, entry, lines, σ, given, hsource', hentry', hlines', -, happart⟩, -⟩ := generate_namesApart htext
  cases hsource.symm.trans hsource'
  cases hentry.symm.trans hentry'
  cases hlines.symm.trans hlines'
  have hlength : given.length < UInt32.size := by
    have hused := congrArg List.length happart.used
    rw [List.length_append, List.length_reverse, List.length_map, List.length_singleton] at hused
    omega
  exact ⟨_, _, _, _, _, given, htext, happart, hlength, (happart.distinct hlength).1⟩

end Shading.Glsl
