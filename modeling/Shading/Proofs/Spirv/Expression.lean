import Shading.Proofs.Spirv.Code
import Shading.Spirv.Expression

/-! The code of expressions keeps the form of the function that it is written into. The only expression that
starts blocks of its own is the choice between two values. -/
namespace Shading.Spirv.Code

variable {α : Type}

section

variable {K : ∀ {α : Type}, Code α → Prop} (hK : Closed @K)
include hK

theorem closed_part (base : Place) (t : Ty) (indices : List UInt32) (span : Span) : K (part base t indices span) := by
  apply hK.bind (closed_pointerTo hK _ _ _ _)
  intro type
  exact hK.bind (hK.result rfl _ _) fun pointer => hK.pure _

theorem closed_memberOf (r : Record Ty) (index : Expr) : K (memberOf r index) := by
  apply hK.bind hK.read
  intro c
  exact hK.bind (hK.liftM _) fun _ => hK.pure _

theorem closed_elementOf (t : Ty) (span : Span) : K (elementOf t span) := by
  unfold elementOf
  split
  · exact hK.pure _
  · exact hK.pure _
  · exact hK.pure _
  · exact closed_fail hK _ _

theorem closed_variablePlace (info : ExprInfo) (id : Int) : K (variablePlace info id) := by
  apply hK.bind (closed_lookup hK id)
  intro p
  split
  · exact hK.pure _
  · exact closed_fail hK _ _

theorem closed_componentPlace (info : ExprInfo) (base : Place) (component : UInt32) :
    K (componentPlace info base component) := by
  unfold componentPlace
  split
  · exact hK.bind (closed_constant hK _ _) fun index => closed_part hK _ _ _ _
  · exact hK.pure _

theorem closed_storeComponents (span : Span) (base : Option Place) (selector : List UInt32) (value : UInt32) :
    K (storeComponents span base selector value) := by
  unfold storeComponents
  split
  · split
    · apply hK.bind (closed_load hK _ span)
      intro old
      apply hK.bind (closed_typeId hK _ span)
      intro type
      exact hK.bind (hK.result rfl _ _) fun new => hK.store _ _
    · exact closed_fail hK _ _
  · exact closed_fail hK _ _

theorem closed_assigned (op : AssignOp) (span : Span) (lt rt : Ty) {current : Code UInt32} (h : K current)
    (value : UInt32) : K (assigned op span lt rt current value) := by
  unfold assigned
  split
  · exact hK.bind h fun old => closed_binary hK _ _ _ _ _ _ _
  · exact hK.pure _

end

/-- The label of a block is a number that was taken before. -/
theorem writes_fresh {c : Context} {placed pending : List UInt32} {ended : Bool} {spare : Nat} :
    Writes c ⟨placed, pending, ended, spare⟩ (drafted Draft.fresh) fun id => ⟨placed, id :: pending, ended, spare⟩ :=
  writes_drafted Drafting.writes_fresh

/-- A block ends with two branches, the first of which leads to the block that starts. -/
theorem writes_selection {c : Context} {placed before after : List UInt32} {ended : Bool} {spare : Nat}
    (condition accept reject merge : UInt32) (hreject : reject ∈ before ++ after) (hmerge : merge ∈ before ++ after) :
    Writes c ⟨placed, before ++ accept :: after, ended, spare⟩
      (drafted do
        Draft.selectionMerge merge 0
        Draft.branchConditional condition accept reject
        Draft.label accept)
      fun _ => ⟨placed, before ++ after, false, spare⟩ := by
  apply writes_drafted
  apply Drafting.writes_fork_label rfl rfl accept
  intro t ht
  simp only [Instruction.targets_selectionMerge, Instruction.targets_branchConditional] at ht
  grind

/-- A value is stored, and the block that computed it leads to where it is read. -/
theorem writes_meet {c : Context} {placed before after : List UInt32} {ended : Bool} {spare : Nat}
    (pointer value merge l : UInt32) (hmerge : merge ∈ before ++ l :: after) :
    Writes c ⟨placed, before ++ l :: after, ended, spare⟩
      (drafted do
        Draft.store pointer value
        Draft.branch merge
        Draft.label l)
      fun _ => ⟨placed, before ++ after, false, spare⟩ := by
  apply writes_drafted
  apply (Drafting.writes_store pointer value).bind
  intro _
  apply (Drafting.writes_branch (.inr hmerge)).bind
  intro _
  exact Drafting.writes_label l

/-- Both values are stored into the same variable, and the blocks that compute them meet where it is read. -/
theorem keeps_choice (info : ExprInfo) {condition accepted rejected : Code UInt32} (hc : Keeps condition)
    (ha : Keeps accepted) (hr : Keeps rejected) : Keeps (choice info condition accepted rejected) := by
  apply hc.bind
  intro condition
  apply (closed_pointerTo closed_keeps _ _ _ _).bind
  intro pointer
  apply (keeps_declare pointer).bind
  intro temporary ctx o hctx
  obtain ⟨placed, pending, ended, spare⟩ := o
  have hwithin : ∀ more, ctx.Within ⟨placed, more ++ pending, false, spare⟩ := fun more =>
    hctx.mono fun l hl => hl.imp_right (List.mem_append_right more)
  apply writes_fresh.bind
  intro accept
  apply writes_fresh.bind
  intro reject
  apply writes_fresh.bind
  intro merge
  apply (@writes_selection ctx placed [merge, reject] pending ended spare condition accept reject merge
    (by simp) (by simp)).bind
  intro _
  apply (ha ctx _ (hwithin [merge, reject])).bind
  intro value
  apply (@writes_meet ctx placed [merge] pending false spare temporary value merge reject (by simp)).bind
  intro _
  apply (hr ctx _ (hwithin [merge])).bind
  intro value
  apply (@writes_meet ctx placed [] pending false spare temporary value merge merge (by simp)).bind
  intro _
  exact closed_load closed_keeps _ _ ctx _ (hwithin [])

theorem keeps_storeTo {place : Code (Option Place)} (h : Keeps place) (span : Span) (new : UInt32) :
    Keeps (do
      match ← place with
      | some p => drafted (Draft.store p.pointer new)
      | none => fail span .notAssignable
      return new) := by
  apply h.bind
  intro p
  split
  · exact (keeps_store _ _).bind fun _ => keeps_pure new
  · exact (closed_fail closed_keeps _ _).bind fun _ => keeps_pure new

mutual

theorem keeps_value : ∀ e : Expr, Keeps (value e)
  | .literal i v => by
    rw [value]
    exact closed_constant closed_keeps v _
  | .const i id => by
    rw [value]
    apply keeps_read.bind
    intro c
    split
    · exact closed_constant closed_keeps _ _
    · exact closed_fail closed_keeps _ _
  | .var i id => by
    rw [value]
    exact (closed_variablePlace closed_keeps i id).bind fun p => closed_load closed_keeps p _
  | .index i base indices => by
    have hchain := fun t => keeps_chain i.span indices.length t indices
    rw [value]
    apply (keeps_place base).bind
    intro place
    split
    · apply (hchain _).bind
      intro _
      exact (closed_part closed_keeps _ _ _ _).bind fun p => closed_load closed_keeps p _
    · apply (keeps_value base).bind
      intro whole
      apply (closed_typeId closed_keeps _ _).bind
      intro type
      apply keeps_read.bind
      intro c
      dsimp only
      split
      · exact closed_extract closed_keeps _ _ _
      · apply (closed_pointerTo closed_keeps _ _ _ _).bind
        intro pointer
        apply (keeps_declare pointer).bind
        intro temporary
        apply (keeps_store _ _).bind
        intro _
        apply (hchain _).bind
        intro _
        exact (closed_part closed_keeps _ _ _ _).bind fun p => keeps_result rfl _ _
  | .swizzle i base selector => by
    rw [value]
    apply (keeps_value base).bind
    intro source
    exact (closed_typeId closed_keeps _ _).bind fun type => closed_swizzle closed_keeps _ _ _ _ _
  | .binary i op l r => by
    rw [value]
    apply (keeps_value l).bind
    intro left
    exact (keeps_value r).bind fun right => closed_binary closed_keeps _ _ _ _ _ _ _
  | .unary i op e => by
    rw [value]
    exact (keeps_value e).bind fun operand => closed_unary closed_keeps _ _ _ _
  | .assign i op l r => by
    have hplace := keeps_place l
    have hassigned := fun t => closed_assigned closed_keeps op i.span t r.type (keeps_value l)
    have hnew := keeps_value r
    cases l with
    | swizzle j base selector =>
      rw [value]
      apply hnew.bind
      intro new
      apply (hassigned _ new).bind
      intro new
      split
      · apply (keeps_place base).bind
        intro p
        exact (closed_storeComponents closed_keeps _ _ _ _).bind fun _ => keeps_pure new
      · exact keeps_storeTo hplace _ _
    | _ =>
      simp only [value]
      apply hnew.bind
      intro new
      exact (hassigned _ new).bind fun new => keeps_storeTo hplace _ new
  | .cast i target args => by
    rw [value]
    apply (closed_typeId closed_keeps _ _).bind
    intro type
    exact (keeps_values args).bind fun parts => closed_cast closed_keeps _ _ _ _
  | .ternary i c t f => by
    rw [value]
    exact keeps_choice i (keeps_value c) (keeps_value t) (keeps_value f)
  | .call i target args => by
    have hargs := keeps_values args
    cases target with
    | function _ id =>
      rw [value]
      apply keeps_read.bind
      intro c
      split
      · exact closed_fail closed_keeps _ _
      · apply hargs.bind
        intro ids
        exact (closed_typeId closed_keeps _ _).bind fun type => keeps_result rfl _ _
    | _ =>
      simp only [value]
      exact closed_fail closed_keeps _ _
  | .intrinsic i f args => by
    have hargs := keeps_values args
    have hsize := keeps_arraySize i args
    by_cases hf : f = .size
    · rw [hf]
      exact hsize
    · rw [value]
      · apply hargs.bind
        intro parts
        exact (closed_typeId closed_keeps _ _).bind fun type => closed_intrinsic closed_keeps _ _ _ _ _
      · exact fun _ _ _ _ h => absurd h hf
      · exact hf
  | .absent | .name .. | .member .. | .method .. | .function .. | .intrinsicRef .. | .structRef .. | .typeRef .. => by
    simp only [value]
    exact closed_fail closed_keeps _ _

/-- The length of an array whose length is not known, which is the last member of a buffer. -/
theorem keeps_arraySize (i : ExprInfo) : ∀ args : List Expr, Keeps (value (.intrinsic i .size args))
  | [] => by
    simp only [value]
    exact closed_fail closed_keeps _ _
  | arg :: args => by
    cases arg with
    | index j base indices =>
      have hchain := fun n t => keeps_chain i.span n t indices
      rw [value]
      split
      · exact closed_fail closed_keeps _ _
      · rename_i last _
        have hlength : ∀ p : Place, Keeps (match p.type.container? with
            | none => fail i.span .sizeTarget
            | some r => do
              let (member, _) ← memberOf r last
              let type ← typeId i.type i.span
              drafted (Draft.arrayLength type p.pointer member.toUInt32)) := by
          intro p
          split
          · exact closed_fail closed_keeps _ _
          · apply (closed_memberOf closed_keeps _ _).bind
            intro _
            exact (closed_typeId closed_keeps _ _).bind fun type => keeps_result rfl _ _
        apply (keeps_place base).bind
        intro p
        split
        · exact closed_fail closed_keeps _ _
        · dsimp only
          split
          · exact (keeps_pure _).bind hlength
          · apply (hchain _ _).bind
            intro _
            exact (closed_part closed_keeps _ _ _ _).bind hlength
    | _ =>
      simp only [value]
      exact closed_fail closed_keeps _ _

theorem keeps_values : ∀ es : List Expr, Keeps (values es)
  | [] => by
    rw [values]
    exact keeps_pure _
  | e :: es => by
    rw [values]
    apply (keeps_value e).bind
    intro id
    exact (keeps_values es).bind fun ids => keeps_pure _

theorem keeps_place : ∀ e : Expr, Keeps (place? e)
  | .var i id => by
    rw [place?]
    exact closed_map closed_keeps (closed_variablePlace closed_keeps i id)
  | .index i base indices => by
    rw [place?]
    apply (keeps_place base).bind
    intro p
    split
    · apply (keeps_chain _ _ _ _).bind
      intro _
      exact closed_map closed_keeps (closed_part closed_keeps _ _ _ _)
    · exact keeps_pure _
  | .swizzle i base selector => by
    rw [place?]
    split
    · exact keeps_pure _
    · apply (keeps_place base).bind
      intro p
      split
      · exact closed_map closed_keeps (closed_componentPlace closed_keeps _ _ _)
      · exact keeps_pure _
  | .absent | .name .. | .const .. | .literal .. | .binary .. | .unary .. | .assign .. | .cast .. | .ternary ..
  | .member .. | .call .. | .method .. | .intrinsic .. | .function .. | .intrinsicRef .. | .structRef ..
  | .typeRef .. => by
    simp only [place?]
    exact keeps_pure _

theorem keeps_chain (span : Span) : ∀ (n : Nat) (t : Ty) (es : List Expr), Keeps (chain span n t es)
  | 0, t, es => by
    rw [chain]
    exact keeps_pure _
  | n + 1, t, [] => by
    rw [chain]
    · exact keeps_pure _
    · exact Nat.succ_ne_zero n
  | n + 1, t, e :: es => by
    have hrest := fun t => keeps_chain span n t es
    have he := keeps_value e
    rw [chain]
    -- what follows the first index does not depend on how it was found
    have hlast : ∀ (id : UInt32) (t : Ty), Keeps (do
        let (t, ids) ← chain span n t es
        return (t, id :: ids)) := fun id t => (hrest t).bind fun _ => keeps_pure _
    split
    · apply (closed_memberOf closed_keeps _ _).bind
      intro _
      apply (closed_constant closed_keeps _ _).bind
      intro id
      exact (keeps_pure _).bind fun index => hlast index.1 index.2
    · apply he.bind
      intro id
      apply (closed_elementOf closed_keeps _ _).bind
      intro inner
      exact (keeps_pure _).bind fun index => hlast index.1 index.2

end

end Shading.Spirv.Code
