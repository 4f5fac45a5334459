import Shading.Proofs.Check.Run
import Shading.Proofs.Spirv.Writing
import Shading.Spirv.Code

/-! Properties of code that follow from those of its steps, such as that it keeps the form of the function that it is
written into. The code of operators has all of them. -/
namespace Shading.Spirv

namespace Opcode

/-- Does the operation compute without a call? -/
def isPlain (op : Opcode) : Bool := op.isStep && op != opFunctionCall

theorem isStep_of_isPlain {op : Opcode} (h : op.isPlain = true) : op.isStep = true := by
  simp only [isPlain, Bool.and_eq_true] at h
  exact h.1

end Opcode

/-- The blocks that a loop around the code leads to are known. -/
def Context.Within (c : Context) (o : Outline) : Prop := ∀ l, c.loop = some l → o.Names l.merge ∧ o.Names l.next

theorem Context.Within.mono {c : Context} {o o' : Outline} (h : c.Within o) (hnames : ∀ l, o.Names l → o'.Names l) :
    c.Within o' :=
  fun l hl => ⟨hnames _ (h l hl).1, hnames _ (h l hl).2⟩

namespace Code

variable {α β : Type} {c : Context} {o : Outline} {s s' : State} {b : β}

theorem bind_ok {x : Code α} {f : α → Code β} :
    (x >>= f) c s = .ok (b, s') ↔ ∃ a s₁, x c s = .ok (a, s₁) ∧ f a c s₁ = .ok (b, s') := run_bind_ok

/-- What holds after code if something holds before it and the code has a result. -/
def Ensures (c : Context) (before : State → Prop) (x : Code α) (after : α → State → Prop) : Prop :=
  ∀ s a s', before s → x c s = .ok (a, s') → after a s'

theorem Ensures.bind {x : Code α} {f : α → Code β} {before : State → Prop} {mid : α → State → Prop}
    {after : β → State → Prop} (hx : Ensures c before x mid) (hf : ∀ a, Ensures c (mid a) (f a) after) :
    Ensures c before (x >>= f) after := by
  intro s b s' hs h
  obtain ⟨a, s₁, hxs, hfs⟩ := bind_ok.mp h
  exact hf a s₁ b s' (hx s a s₁ hs hxs) hfs

/-- Code that leads from one outline to another. -/
def Writes (c : Context) (o : Outline) (x : Code α) (o' : α → Outline) : Prop :=
  ∀ start, Ensures c (fun s => Writing start o s.pool s.draft) x fun a s => Writing start (o' a) s.pool s.draft

theorem Writes.bind {x : Code α} {f : α → Code β} {mid : α → Outline} {last : β → Outline}
    (hx : Writes c o x mid) (hf : ∀ a, Writes c (mid a) (f a) last) : Writes c o (x >>= f) last :=
  fun start => (hx start).bind fun a => hf a start

theorem writes_drafted {x : Drafting α} {o' : α → Outline} (h : Drafting.Writes o x o') :
    Writes c o (drafted x) o' := by
  intro start s a s' hs hx
  cases hx
  exact h start s.pool s.draft hs

/-- Code that keeps what is known of the blocks, whatever the code around it promises. -/
def Keeps (x : Code α) : Prop := ∀ c o, c.Within o → Writes c o x fun _ => o.running

theorem keeps_pure (a : α) : Keeps (pure a) := by
  intro c o _ start s a' s' hs h
  cases h
  exact hs.running

theorem keeps_throw (e : BackendError) : Keeps (throw e : Code α) := by
  intro c o _ start s a s' _ h
  cases h

theorem keeps_get : Keeps (get : Code State) := by
  intro c o _ start s a s' hs h
  cases h
  exact hs.running

theorem keeps_read : Keeps (read : Code Context) := by
  intro c o _ start s a s' hs h
  cases h
  exact hs.running

theorem keeps_liftM (x : Except BackendError α) : Keeps (liftM x : Code α) := by
  intro c o _ start s a s' hs h
  cases x with
  | error e => cases h
  | ok a' =>
    cases h
    exact hs.running

theorem Keeps.bind {x : Code α} {f : α → Code β} (hx : Keeps x) (hf : ∀ a, Keeps (f a)) : Keeps (x >>= f) := by
  intro c o hc
  apply (hx c o hc).bind
  intro a
  exact hf a c o.running hc

/-- The variables of the function are changed only. -/
theorem keeps_modify {f : State → State} (hpool : ∀ s, (f s).pool = s.pool) (hdraft : ∀ s, (f s).draft = s.draft) :
    Keeps (modify f : Code PUnit) := by
  intro c o _ start s a s' hs h
  cases h
  rw [hpool, hdraft]
  exact hs.running

theorem keeps_drafted {x : Drafting α} (h : ∀ o, Drafting.Writes o x fun _ => o.running) : Keeps (drafted x) :=
  fun _ o _ => writes_drafted (h o)

/-- The end of a block that leads nowhere. -/
theorem keeps_leave {op : Opcode} {operands : List UInt32} (hop : op.isTerminator = true)
    (htargets : Instruction.targets ⟨op, operands⟩ = []) : Keeps (drafted (Draft.emit op operands)) := by
  apply keeps_drafted
  intro o start p d h
  have hnamed : ∀ t ∈ Instruction.targets ⟨op, operands⟩, o.Names t := by
    rw [htargets]
    exact List.forall_mem_nil _
  exact (Drafting.writes_leave hop hnamed start p d h).running

theorem keeps_result {op : Opcode} (hop : op.isStep = true) (type : UInt32) (operands : List UInt32) :
    Keeps (drafted (Draft.result op type operands)) :=
  keeps_drafted fun _ => Drafting.writes_result hop type operands

theorem keeps_declare (pointer : UInt32) : Keeps (drafted (Draft.declare pointer)) :=
  keeps_drafted fun _ start p d h => (Drafting.writes_declare pointer start p d h).running

theorem keeps_store (pointer value : UInt32) : Keeps (drafted (Draft.store pointer value)) :=
  keeps_drafted fun _ => Drafting.writes_store pointer value

theorem keeps_built {x : Build α} (h : Build.Adds x) : Keeps (built x) := by
  intro c o _ start s a s' hs hx
  cases hx
  obtain ⟨n, hadds⟩ := h s.pool.builder
  exact (hs.pool (.of_builder hadds)).running

/-- What is added to the module keeps the function. -/
theorem keeps_added {x : Pooling α} (h : Pooling.Adds x) {y : Code α}
    (hy : ∀ c s a s', y c s = .ok (a, s') → ∃ pool, x s.pool = .ok (a, pool) ∧ s' = { s with pool }) : Keeps y := by
  intro c o _ start s a s' hs hys
  obtain ⟨pool, hx, rfl⟩ := hy c s a s' hys
  exact (hs.pool (h s.pool a pool hx)).running

theorem pooled_ok {x : Pooling α} {span : Span} {obstacle : FormError → Obstacle} {a : α}
    (h : pooled span obstacle x c s = .ok (a, s')) : ∃ pool, x s.pool = .ok (a, pool) ∧ s' = { s with pool } := by
  obtain ⟨_, _, hget, hs⟩ := bind_ok.mp h
  cases hget
  cases hx : x s.pool with
  | error e =>
    rw [hx] at hs
    cases hs
  | ok r =>
    rw [hx] at hs
    cases hs
    exact ⟨r.2, rfl, rfl⟩

theorem keeps_parameter (type : UInt32) : Keeps (drafted (Draft.parameter type)) :=
  keeps_drafted fun _ start p d h => (Drafting.writes_parameter type start p d h).running

theorem isPlain_comparison {op : BinaryOp} {p : Primitive} {opcode : Opcode} (h : comparison? op p = some opcode) :
    opcode.isPlain = true := by
  cases op <;> cases p <;> cases h <;> rfl

theorem isPlain_bitwise (op : BinaryOp) (p : Primitive) : (bitwise op p).isPlain = true := by
  cases op <;> cases p <;> rfl

theorem isPlain_arithmetic (op : BinaryOp) (p : Primitive) : (Spirv.arithmetic op p).isPlain = true := by
  cases op <;> cases p <;> rfl

theorem isPlain_conversion {source target : Primitive} {op : Opcode} (h : conversion? source target = some op) :
    op.isPlain = true := by
  unfold conversion? at h
  repeat' split at h
  all_goals cases h
  all_goals rfl

theorem isPlain_product {lt rt : Ty} {l r a b : UInt32} {op : Opcode} (h : product? lt rt l r = some (op, a, b)) :
    op.isPlain = true := by
  unfold product? at h
  repeat' split at h
  all_goals cases h
  all_goals rfl

/-- A property that code has if the steps that it is put together from have it. Calls and the ends of blocks are not
among these steps. -/
structure Closed (K : ∀ {α : Type}, Code α → Prop) : Prop where
  pure {α : Type} (a : α) : K (pure a : Code α)
  throw {α : Type} (e : BackendError) : K (throw e : Code α)
  bind {α β : Type} {x : Code α} {f : α → Code β} : K x → (∀ a, K (f a)) → K (x >>= f)
  get : K (get : Code State)
  read : K (read : Code Context)
  liftM {α : Type} (x : Except BackendError α) : K (liftM x : Code α)
  modify {f : State → State} : (∀ s, (f s).pool = s.pool) → (∀ s, (f s).draft = s.draft) → K (modify f : Code PUnit)
  built {α : Type} {x : Build α} : Build.Adds x → K (built x)
  added {α : Type} {x : Pooling α} {y : Code α} : Pooling.Adds x →
    (∀ c s a s', y c s = .ok (a, s') → ∃ pool, x s.pool = .ok (a, pool) ∧ s' = { s with pool }) → K y
  parameter (type : UInt32) : K (drafted (Draft.parameter type))
  declare (pointer : UInt32) : K (drafted (Draft.declare pointer))
  store (pointer value : UInt32) : K (drafted (Draft.store pointer value))
  result {op : Opcode} : op.isPlain = true → ∀ type operands, K (drafted (Draft.result op type operands))

theorem closed_keeps : Closed @Keeps where
  pure := keeps_pure
  throw := keeps_throw
  bind := Keeps.bind
  get := keeps_get
  read := keeps_read
  liftM := keeps_liftM
  modify := keeps_modify
  built := keeps_built
  added h := keeps_added h
  parameter := keeps_parameter
  declare := keeps_declare
  store := keeps_store
  result hop := keeps_result (Opcode.isStep_of_isPlain hop)

section

variable {K : ∀ {α : Type}, Code α → Prop} (hK : Closed @K)
include hK

theorem closed_fail (span : Span) (obstacle : Obstacle) : K (fail span obstacle : Code α) := hK.throw _

theorem closed_map {x : Code α} {f : α → β} (hx : K x) : K (f <$> x) := by
  have heq : f <$> x = x >>= fun a => pure (f a) := (bind_pure_comp f x).symm
  rw [heq]
  exact hK.bind hx fun a => hK.pure (f a)

theorem closed_mapM {f : α → Code β} (hf : ∀ a, K (f a)) (xs : List α) : K (xs.mapM f) := by
  induction xs with
  | nil => exact hK.pure []
  | cons x xs ih =>
    rw [List.mapM_cons]
    apply hK.bind (hf x)
    intro y
    exact hK.bind ih fun ys => hK.pure (y :: ys)

theorem closed_giveName (id : UInt32) (text : Text) : K (giveName id text) := by
  apply hK.bind hK.read
  intro c
  split
  · exact hK.built (Build.adds_debugName rfl)
  · exact hK.pure ()

theorem closed_pooled {x : Pooling α} (h : Pooling.Adds x) (span : Span) (obstacle : FormError → Obstacle) :
    K (pooled span obstacle x) :=
  hK.added h fun _ _ _ _ => pooled_ok

theorem closed_typeId (t : Ty) (span : Span) : K (typeId t span) := closed_pooled hK (Pooling.adds_typeId t) span _

theorem closed_constant (v : Value) (span : Span) : K (constant v span) :=
  closed_pooled hK (Pooling.adds_constantId v) span _

theorem closed_pointerTo (storage : UInt32) (t : Ty) (span : Span) (obstacle : FormError → Obstacle) :
    K (pooled span obstacle (Pool.pointerTo storage t)) := closed_pooled hK (Pooling.adds_pointerTo storage t) span _

theorem closed_load (p : Place) (span : Span) : K (load p span) := by
  apply hK.bind (closed_typeId hK p.type span)
  intro type
  exact hK.result rfl type _

theorem closed_lookup (id : Int) : K (lookup? id) := by
  apply hK.bind hK.get
  intro s
  split
  · exact hK.pure _
  · exact hK.bind hK.read fun _ => hK.pure _

theorem closed_construct (type : UInt32) (parts : List UInt32) : K (drafted (Draft.compositeConstruct type parts)) :=
  hK.result rfl type parts

theorem closed_extract (type composite : UInt32) (indices : List UInt32) :
    K (drafted (Draft.compositeExtract type composite indices)) :=
  hK.result rfl type _

theorem closed_broadcast (value : UInt32) (source target : Ty) (span : Span) :
    K (broadcast value source target span) := by
  unfold broadcast
  split
  · exact hK.pure _
  · apply hK.bind (closed_typeId hK _ span)
    intro type
    exact closed_construct hK _ _
  · exact hK.pure _

theorem closed_columnwise {op : Opcode} (hop : op.isPlain = true) (columns rows : UInt32) (p : Primitive) (result : UInt32)
    (span : Span) (operands : List UInt32) : K (columnwise op columns rows p result span operands) := by
  apply hK.bind (closed_typeId hK _ span)
  intro type
  have hparts : ∀ n : Nat, K (do
      let args ← operands.mapM fun m => drafted (Draft.compositeExtract type m [n.toUInt32])
      drafted (Draft.result op type args)) := by
    intro n
    apply hK.bind (closed_mapM hK (fun m => closed_extract hK type m _) operands)
    intro args
    exact hK.result hop type args
  apply hK.bind (closed_mapM hK hparts _)
  intro parts
  exact closed_construct hK result parts

theorem closed_convert (value : UInt32) (source target : Primitive) (result : UInt32) :
    K (convert value source target result) := by
  unfold convert
  split
  · exact hK.pure value
  · rename_i op h
    exact hK.result (isPlain_conversion h) result _

theorem closed_binaryResult {op : Opcode} (hop : op.isPlain = true) (type l r : UInt32) :
    K (drafted (Draft.binary op type l r)) := hK.result hop type [l, r]

theorem closed_unaryResult {op : Opcode} (hop : op.isPlain = true) (type operand : UInt32) :
    K (drafted (Draft.unary op type operand)) := hK.result hop type [operand]

theorem closed_arithmetic (op : BinaryOp) (lt rt : Ty) (result l r : UInt32) (span : Span) :
    K (arithmetic op lt rt result l r span) := by
  have hop := isPlain_arithmetic op (lt.scalar?.getD .bool)
  unfold arithmetic
  dsimp only
  split
  · split
    · exact closed_columnwise hK hop _ _ _ _ _ _
    · exact closed_fail hK _ _
  · exact closed_fail hK _ _
  · exact closed_fail hK _ _
  · exact hK.bind (closed_broadcast hK _ _ _ _) fun r => closed_binaryResult hK hop _ _ _
  · exact hK.bind (closed_broadcast hK _ _ _ _) fun l => closed_binaryResult hK hop _ _ _
  · exact closed_binaryResult hK hop _ _ _

theorem closed_binary (op : BinaryOp) (lt rt result : Ty) (l r : UInt32) (span : Span) :
    K (binary op lt rt result l r span) := by
  apply hK.bind (closed_typeId hK result span)
  intro type
  dsimp only
  split
  · split <;> exact closed_binaryResult hK rfl _ _ _
  · split
    · split
      · rename_i opcode h
        exact closed_binaryResult hK (isPlain_comparison h) _ _ _
      · exact closed_fail hK _ _
    · split
      · exact hK.bind (closed_broadcast hK _ _ _ _) fun r => closed_binaryResult hK (isPlain_bitwise _ _) _ _ _
      · split
        · rename_i opcode a b h
          have hproduct : product? lt rt l r = some (opcode, a, b) := by
            split at h
            · exact h
            · cases h
          exact closed_binaryResult hK (isPlain_product hproduct) _ _ _
        · exact closed_arithmetic hK _ _ _ _ _ _ _

theorem closed_unary (op : UnaryOp) (result : Ty) (operand : UInt32) (span : Span) :
    K (unary op result operand span) := by
  unfold unary
  split
  · exact hK.pure _
  · apply hK.bind (closed_typeId hK result span)
    intro type
    have hnegation : (if (result.scalar?.getD .bool).isFloat then Opcode.opFNegate else .opSNegate).isPlain = true := by
      split <;> rfl
    dsimp only
    split
    · exact closed_unaryResult hK rfl _ _
    · exact closed_unaryResult hK rfl _ _
    · exact closed_columnwise hK hnegation _ _ _ _ _ _
    · exact closed_unaryResult hK hnegation _ _

theorem closed_columnsOf (type : UInt32) (rows n : Nat) (parts : List UInt32) : K (columnsOf type rows n parts) := by
  induction n generalizing parts with
  | zero => exact hK.pure []
  | succ n ih =>
    apply hK.bind (closed_construct hK type _)
    intro column
    exact hK.bind (ih _) fun columns => hK.pure _

theorem closed_cast (target : Ty) (result : UInt32) (args : List (UInt32 × Ty)) (span : Span) :
    K (cast target result args span) := by
  unfold cast
  dsimp only
  split
  · exact closed_convert hK _ _ _ _
  · apply hK.bind (closed_typeId hK _ span)
    intro scalar
    exact hK.bind (closed_convert hK _ _ _ _) fun v => closed_broadcast hK _ _ _ _
  · exact closed_convert hK _ _ _ _
  · exact closed_construct hK _ _
  · split
    · exact hK.pure _
    · exact closed_fail hK _ _
  · split
    · apply hK.bind (closed_typeId hK _ span)
      intro column
      exact hK.bind (closed_columnsOf hK _ _ _ _) fun columns => closed_construct hK _ _
    · exact closed_construct hK _ _
  · exact closed_construct hK _ _
  · exact closed_fail hK _ _

theorem closed_intrinsic (f : Intrinsic) (first : Ty) (result : UInt32) (args : List UInt32) (span : Span) :
    K (intrinsic f first result args span) := by
  unfold intrinsic
  split
  · exact closed_binaryResult hK rfl _ _ _
  · exact closed_unaryResult hK rfl _ _
  · exact closed_unaryResult hK rfl _ _
  · exact closed_unaryResult hK rfl _ _
  · apply hK.bind hK.read
    intro c
    split
    · exact hK.result rfl _ _
    · exact hK.bind (closed_constant hK _ span) fun lod => hK.result rfl _ _
  · split
    · exact hK.bind hK.read fun c => hK.result rfl _ _
    · exact closed_fail hK _ _

theorem closed_swizzle (selector : List UInt32) (source : Ty) (result value : UInt32) (span : Span) :
    K (swizzle selector source result value span) := by
  unfold swizzle
  split
  · exact hK.pure _
  · exact closed_construct hK _ _
  · exact closed_extract hK _ _ _
  · exact hK.result rfl _ _
  · exact closed_fail hK _ _

end

end Code

end Shading.Spirv
