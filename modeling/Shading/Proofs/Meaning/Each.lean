import Shading.Proofs.Meaning.Simulation

/-! Loops over arrays do what the loops over their indices do that they are lowered to. The index is a variable
that only the lowered loop has. -/
namespace Shading.Meaning

theorem binary_lt_u32 (x y : UInt32) :
    (Datum.plain (.u32 x)).binary .lt (.plain (.u32 y)) = some (.plain (.bool (decide (x < y)))) := by
  have hcompare : (compare x y == Ordering.lt) = decide (x < y) := by
    by_cases h : x < y
    · simp [h, compare, compareOfLessAndEq]
    · by_cases he : x = y <;> simp [h, he, compare, compareOfLessAndEq]
  simpa [Datum.binary, Datum.value?, Value.binary, Value.scalarBinary, Value.unsigned, Value.compared?,
    Except.toOption] using hcompare

theorem binary_add_u32 (x y : UInt32) :
    (Datum.plain (.u32 x)).binary .add (.plain (.u32 y)) = some (.plain (.u32 (x + y))) := by
  simp [Datum.binary, Datum.value?, Value.binary, Value.scalarBinary, Value.unsigned, Value.compared?,
    Except.toOption]

/-- The number of the round that follows one with this end. -/
def following (i : Nat) : Except Stop Flow → Nat
  | .ok .next | .ok .continued => i + 1
  | _ => i

/-- A loop whose rounds are visits. The store `τ i` is what the loop has for itself in round `i`. -/
structure Rounds (T : List Int) (τ : Nat → Store) (keeps : Store → Prop) (count : Nat) (visit : Nat → Run Flow)
    (cond : Run Bool) (body : Run Flow) : Prop where
  temporary (i : Nat) : Temporary T (τ i)
  cond {i : Nat} (hi : i ≤ count) {σ : Store} (hσ : keeps σ) :
    cond (overlay (τ i) σ) = some (.ok (decide (i < count)), overlay (τ i) σ)
  body {i : Nat} (hi : i < count) {σ : Store} (hσ : keeps σ) :
    body (overlay (τ i) σ) = (visit i σ).map fun o => (o.1, overlay (τ (following i o.1)) o.2)
  keeps {i : Nat} {σ σ' : Store} {r : Except Stop Flow} (hσ : keeps σ) (h : visit i σ = some (r, σ')) : keeps σ'

namespace Rounds

variable {T : List Int} {τ : Nat → Store} {keeps : Store → Prop} {count : Nat} {visit : Nat → Run Flow}
  {cond : Run Bool} {body : Run Flow} (R : Rounds T τ keeps count visit cond body)
include R

theorem last {again : Run Flow} {σ : Store} (hσ : keeps σ) :
    (round cond body again (overlay (τ count) σ)).map (forget T) = ((pure .next : Run Flow) σ).map (forget T) := by
  unfold round
  rw [bind_apply, R.cond (Nat.le_refl count) hσ, decide_eq_false (Nat.lt_irrefl count)]
  exact congrArg some (forget_overlay (R.temporary count) _ σ)

/-- One round is one visit, if what follows them agrees. -/
theorem step {again again' : Run Flow} {i : Nat} (hi : i < count) {σ : Store} (hσ : keeps σ)
    (h : ∀ σ', keeps σ' → (again (overlay (τ (i + 1)) σ')).map (forget T) = (again' σ').map (forget T)) :
    (round cond body again (overlay (τ i) σ)).map (forget T) =
      ((visit i >>= proceed again') σ).map (forget T) := by
  unfold round
  rw [bind_apply, R.cond (Nat.le_of_lt hi) hσ, decide_eq_true hi]
  show ((body >>= proceed again) _).map (forget T) = _
  rw [bind_apply, bind_apply, R.body hi hσ]
  cases hv : visit i σ with
  | none => rfl
  | some o =>
    obtain ⟨r, σ'⟩ := o
    have hσ' := R.keeps hσ hv
    cases r with
    | error e => exact congrArg some (forget_overlay (R.temporary i) _ σ')
    | ok f =>
      cases f with
      | next | continued => exact h σ' hσ'
      | broken | returned => exact congrArg some (forget_overlay (R.temporary i) _ σ')

theorem loop_eq_each (n : Nat) {i : Nat} (hi : i ≤ count) {σ : Store} (hσ : keeps σ) :
    (loop cond body n (overlay (τ i) σ)).map (forget T) =
      (each visit n (List.range' i (count - i)) σ).map (forget T) := by
  induction n generalizing i σ with
  | zero =>
    rcases Nat.eq_or_lt_of_le hi with rfl | hlt
    · rw [Nat.sub_self]
      exact R.last hσ
    · obtain ⟨k, hk⟩ : ∃ k, count - i = k + 1 := ⟨count - i - 1, by omega⟩
      rw [hk, List.range'_succ]
      exact R.step hlt hσ fun _ _ => rfl
  | succ n ih =>
    rcases Nat.eq_or_lt_of_le hi with rfl | hlt
    · rw [Nat.sub_self]
      exact R.last hσ
    · obtain ⟨k, hk⟩ : ∃ k, count - i = k + 1 := ⟨count - i - 1, by omega⟩
      have hk' : k = count - (i + 1) := by omega
      rw [hk, List.range'_succ, hk']
      exact R.step hlt hσ fun σ' hσ' => ih hlt hσ'

end Rounds

/-- The number of elements of the array of a lowered loop. -/
def arraySize (span : Span) (length : UInt32) (array : Expr) : Expr :=
  if length = 0 then .intrinsic ⟨span, .prim .u32⟩ .size [array] else .ofValue span (.u32 length)

/-- The declaration of the variable that stands for an element. -/
def elementDecl (span : Span) (h : EachHead) (elem : Ty) (array : Expr) (index : Int) : VarDecl :=
  { name := h.name, init := .index ⟨span, elem⟩ array [.ofVar span index (.prim .u32)], id := h.id }

/-- The lowered loop over an array with its index. -/
def indexLoop (span : Span) (h : EachHead) (elem : Ty) (length : UInt32) (body : Stmt) (array : Expr)
    (s : Supply) : List Stmt :=
  let inc := Stmt.increment span s.nextVar (.prim .u32) (.ofValue span (.u32 1))
  [.letVar span (tempDecl s "index" (.prim .u32) (.ofValue span (.u32 0))),
   .loop span (Stmt.lessThan span (.ofVar span s.nextVar (.prim .u32)) (arraySize span length array)) h.unroll
    (Stmt.block span [.letVar span (elementDecl span h elem array s.nextVar), .beforeContinue inc body, inc])]

theorem run_reduceEach (span : Span) (h : EachHead) (elem : Ty) (length : UInt32) (body : Stmt) (s : Supply) :
    ((Stmt.reduceEach span h elem length body).run s).1 =
      if h.array.isPlace then Stmt.block span (indexLoop span h elem length body h.array s)
      else Stmt.block span (.letVar h.array.span (tempDecl s "array" (.array elem length) h.array) ::
        indexLoop span h elem length body (.ofVar h.array.span s.nextVar (.array elem length))
          ⟨Serial.next s.nextVar, s.temporaries + 1⟩) := by
  unfold Stmt.reduceEach
  cases h.array.isPlace <;> rfl

section

variable {M : Machine} {call : Int → List Datum → Run Datum} {array : Expr} {d : Datum} {n : Nat}

theorem eval_arraySize {σ : Store} (h : eval M call array σ = some (.ok d, σ)) (span : Span) (elem : Ty)
    (length : UInt32) : eval M call (arraySize span length array) σ =
      orFault ((d.count? (.array elem length)).map fun m => .plain (.u32 m)) σ := by
  unfold arraySize Datum.count?
  by_cases hlength : length = 0
  · simp only [hlength, if_true, eval, evalAll, bind_assoc]
    rw [bind_of_ok h]
    rfl
  · simp only [hlength, if_false]
    rfl

/-- What a lowered loop over an array has for itself in a round: the index next to what it had before. -/
def indexed (τ : Store) (c : Int) (i : Nat) : Store :=
  Function.update τ c (some (.plain (.u32 (UInt32.ofNat i))))

variable {τ : Store} {c : Int}

theorem load_index (i : Nat) (σ : Store) : load c (overlay (indexed τ c i) σ) =
    some (.ok (.plain (.u32 (UInt32.ofNat i))), overlay (indexed τ c i) σ) := by
  have hheld : indexed τ c i c = some (.plain (.u32 (UInt32.ofNat i))) := Function.update_self ..
  rw [load_apply, overlay_of_some hheld]
  rfl

theorem advance_index (i : Nat) (σ : Store) : advance c (.plain (.u32 1)) (overlay (indexed τ c i) σ) =
    some (.ok (), overlay (indexed τ c (i + 1)) σ) := by
  have hadd : UInt32.ofNat i + 1 = UInt32.ofNat (i + 1) := UInt32.ofNat_add i 1 |>.symm
  unfold advance
  rw [bind_of_ok (load_index i σ), binary_add_u32, hadd]
  show store c _ _ = _
  rw [store_apply, update_overlay, indexed, indexed, Function.update_idem]

theorem stepping_index (i : Nat) (f : Flow) (σ : Store) :
    stepping c (.plain (.u32 1)) f (overlay (indexed τ c i) σ) =
      some (.ok f, overlay (indexed τ c (following i (.ok f))) σ) := by
  cases f with
  | next | continued => exact bind_of_ok (advance_index i σ) _
  | broken | returned => rfl

/-- What a loop over an array does with one element. -/
def visit (M : Machine) (call : Int → List Datum → Run Datum) (n : Nat) (h : EachHead) (body : Stmt) (d : Datum)
    (i : Nat) : Run Flow := do
  let x ← orFault (d.part? (.item i))
  store h.id (some x)
  exec M call n body

theorem eval_element {σ : Store} {i : Nat} (hi : i < UInt32.size)
    (h : eval M call array (overlay (indexed τ c i) σ) = some (.ok d, overlay (indexed τ c i) σ)) (j k : ExprInfo) :
    eval M call (.index j array [.var k c]) (overlay (indexed τ c i) σ) =
      orFault (d.part? (.item i)) (overlay (indexed τ c i) σ) := by
  have hint : (UInt32.ofNat i).toNat = i := UInt32.toNat_ofNat_of_lt' hi
  simp only [eval, items, bind_assoc, pure_bind]
  rw [bind_of_ok h, bind_of_ok (load_index i σ)]
  simp only [Datum.int?, Datum.value?, Value.toInt?, hint, Option.bind_eq_bind, Option.bind_some, orFault, pure_bind,
    Datum.follow, List.foldlM_cons, List.foldlM_nil, bind_pure]

theorem execAll_increment (span : Span) (body : Stmt) :
    execAll M call n [.beforeContinue (Stmt.increment span c (.prim .u32) (.ofValue span (.u32 1))) body,
      Stmt.increment span c (.prim .u32) (.ofValue span (.u32 1))] =
    exec M call n body >>= stepping c (.plain (.u32 1)) := by
  have hround : Frame (fun _ => none) Flow (exec M call n body >>= stepping c (.plain (.u32 1))) _ :=
    frame_round rfl (.literal ⟨span, .prim .u32⟩ (.u32 1)) (Frame.empty _) span (.prim .u32)
  exact hround.eq_of_empty

/-- A round of the lowered loop is a visit and a step of the index. -/
theorem exec_indexRound {σ : Store} {i : Nat} (hi : i < UInt32.size) (span : Span) (h : EachHead) (elem : Ty)
    (body : Stmt) (hread : eval M call array (overlay (indexed τ c i) σ) = some (.ok d, overlay (indexed τ c i) σ)) :
    exec M call n (Stmt.block span [.letVar span (elementDecl span h elem array c),
        .beforeContinue (Stmt.increment span c (.prim .u32) (.ofValue span (.u32 1))) body,
        Stmt.increment span c (.prim .u32) (.ofValue span (.u32 1))]) (overlay (indexed τ c i) σ) =
      (visit M call n h body d i >>= stepping c (.plain (.u32 1))) (overlay (indexed τ c i) σ) := by
  show execAll M call n _ _ = _
  rw [execAll_letVar _ _ rfl, execAll_increment]
  unfold visit
  simp only [bind_assoc]
  have helement : eval M call (elementDecl span h elem array c).init (overlay (indexed τ c i) σ) =
      orFault (d.part? (.item i)) (overlay (indexed τ c i) σ) := eval_element hi hread _ _
  rw [bind_apply, bind_apply (orFault _), helement]
  rfl

section

variable {T : List Int} (keeps : Store → Prop) {span : Span} {h : EachHead} {elem : Ty} {length : UInt32} {body : Stmt}
  {s : Supply}

/-- The lowered loop goes through the elements in order. -/
theorem rounds_each {count : UInt32} (span : Span) (hτ : Temporary T τ) (hc : c ∈ T)
    (hcount : d.count? (.array elem length) = some count)
    (hread : ∀ i σ, keeps σ → eval M call array (overlay (indexed τ c i) σ) = some (.ok d, overlay (indexed τ c i) σ))
    (hvisit : ∀ τ', Temporary T τ' → ∀ i, Frame τ' Flow (visit M call n h body d i) (visit M call n h body d i))
    (hkeeps : ∀ i σ r σ', keeps σ → visit M call n h body d i σ = some (r, σ') → keeps σ') :
    Rounds T (indexed τ c) keeps count.toNat (visit M call n h body d)
      (condition M call (Stmt.lessThan span (.ofVar span c (.prim .u32)) (arraySize span length array)))
      (exec M call n (Stmt.block span [.letVar span (elementDecl span h elem array c),
        .beforeContinue (Stmt.increment span c (.prim .u32) (.ofValue span (.u32 1))) body,
        Stmt.increment span c (.prim .u32) (.ofValue span (.u32 1))])) where
  temporary i := hτ.update hc _
  keeps hσ h := hkeeps _ _ _ _ hσ h
  cond {i} hi {σ} hσ := by
    have hlt : decide (UInt32.ofNat i < count) = decide (i < count.toNat) := by
      have hsize := count.toNat_lt
      rw [decide_eq_decide, UInt32.lt_iff_toNat_lt, UInt32.toNat_ofNat_of_lt' (by simp only [UInt32.size]; omega)]
    have hsize := eval_arraySize (hread i σ hσ) span elem length
    rw [hcount] at hsize
    simp only [condition, Stmt.lessThan, Expr.ofVar, eval, bind_assoc]
    rw [bind_of_ok (load_index i σ), bind_of_ok hsize, binary_lt_u32, hlt]
    rfl
  body {i} hi {σ} hσ := by
    have hsize := count.toNat_lt
    rw [exec_indexRound (by simp only [UInt32.size]; omega) span h elem body (hread i σ hσ), bind_apply,
      hvisit (indexed τ c i) (hτ.update hc _) i σ]
    cases visit M call n h body d i σ with
    | none => rfl
    | some o =>
      obtain ⟨r, σ'⟩ := o
      cases r with
      | error e => rfl
      | ok f => exact stepping_index i f σ'

theorem loop_of_error {cond : Run Bool} {b : Run Flow} {σ σ' : Store} {e : Stop}
    (h : cond σ = some (.error e, σ')) (n : Nat) : loop cond b n σ = some (.error e, σ') := by
  cases n with
  | zero => exact bind_of_error h _
  | succ n => exact bind_of_error h _

theorem loop_of_round_error {cond : Run Bool} {b : Run Flow} {σ σ₁ σ₂ : Store} {e : Stop}
    (h : cond σ = some (.ok true, σ₁)) (hb : b σ₁ = some (.error e, σ₂)) (n : Nat) :
    loop cond b n σ = some (.error e, σ₂) := by
  cases n with
  | zero => exact (bind_of_ok h _).trans (bind_of_error hb _)
  | succ n => exact (bind_of_ok h _).trans (bind_of_error hb _)

/-- The lowered loop starts with the index zero. -/
theorem execAll_indexLoop (σ : Store) :
    execAll M call n (indexLoop span h elem length body array s) (overlay τ σ) =
      loop (condition M call (Stmt.lessThan span (.ofVar span s.nextVar (.prim .u32)) (arraySize span length array)))
        (exec M call n (Stmt.block span [.letVar span (elementDecl span h elem array s.nextVar),
          .beforeContinue (Stmt.increment span s.nextVar (.prim .u32) (.ofValue span (.u32 1))) body,
          Stmt.increment span s.nextVar (.prim .u32) (.ofValue span (.u32 1))])) n
        (overlay (indexed τ s.nextVar 0) σ) := by
  unfold indexLoop
  rw [execAll_letVar _ _ rfl, execAll_singleton, indexed, ← update_overlay]
  rfl

theorem map_execAll_indexLoop (hτ : Temporary T τ) (hc : s.nextVar ∈ T)
    (hread : ∀ i σ, keeps σ →
      eval M call array (overlay (indexed τ s.nextVar i) σ) = some (.ok d, overlay (indexed τ s.nextVar i) σ))
    (hvisit : ∀ τ', Temporary T τ' → ∀ i, Frame τ' Flow (visit M call n h body d i) (visit M call n h body d i))
    (hkeeps : ∀ i σ r σ', keeps σ → visit M call n h body d i σ = some (r, σ') → keeps σ')
    {σ : Store} (hσ : keeps σ) :
    (execAll M call n (indexLoop span h elem length body array s) (overlay τ σ)).map (forget T) =
      ((do let count ← orFault (d.count? (.array elem length))
           each (visit M call n h body d) n (List.range count.toNat)) σ).map (forget T) := by
  rw [execAll_indexLoop]
  cases hcount : d.count? (.array elem length) with
  | none =>
    have hsize := eval_arraySize (hread 0 σ hσ) span elem length
    rw [hcount] at hsize
    have hcond : condition M call (Stmt.lessThan span (.ofVar span s.nextVar (.prim .u32))
        (arraySize span length array)) (overlay (indexed τ s.nextVar 0) σ) =
        some (.error .fault, overlay (indexed τ s.nextVar 0) σ) := by
      simp only [condition, Stmt.lessThan, Expr.ofVar, eval, bind_assoc]
      rw [bind_of_ok (load_index 0 σ)]
      exact bind_of_error hsize _
    rw [loop_of_error hcond]
    exact congrArg some (forget_overlay (hτ.update hc _) _ σ)
  | some count =>
    rw [(rounds_each keeps span hτ hc hcount hread hvisit hkeeps).loop_eq_each n (Nat.zero_le _) hσ, Nat.sub_zero,
      ← List.range_eq_range']
    rfl

/-- An array that cannot be read stops both loops before their first element. -/
theorem execAll_indexLoop_of_error {σ : Store} {e : Stop}
    (hread : eval M call array (overlay (indexed τ s.nextVar 0) σ) =
      some (.error e, overlay (indexed τ s.nextVar 0) σ)) :
    execAll M call n (indexLoop span h elem length body array s) (overlay τ σ) =
      some (.error e, overlay (indexed τ s.nextVar 0) σ) := by
  rw [execAll_indexLoop]
  by_cases hlength : length = 0
  · apply loop_of_error
    simp only [condition, Stmt.lessThan, Expr.ofVar, arraySize, hlength, if_true, eval, evalAll, bind_assoc]
    rw [bind_of_ok (load_index 0 σ)]
    exact bind_of_error hread _
  · apply loop_of_round_error
    · simp only [condition, Stmt.lessThan, Expr.ofVar, arraySize, hlength, if_false, Expr.ofValue, eval, bind_assoc,
        pure_bind]
      rw [bind_of_ok (load_index 0 σ), binary_lt_u32]
      have hpos : decide (UInt32.ofNat 0 < length) = true := by
        have hne : length.toNat ≠ 0 := fun h => hlength (UInt32.toNat_inj.mp h)
        rw [decide_eq_true_iff, UInt32.lt_iff_toNat_lt]
        exact Nat.pos_of_ne_zero hne
      rw [hpos]
      rfl
    · show execAll M call n _ _ = _
      rw [execAll_letVar _ _ rfl]
      have helement : eval M call (elementDecl span h elem array s.nextVar).init (overlay (indexed τ s.nextVar 0) σ) =
          some (.error e, overlay (indexed τ s.nextVar 0) σ) := by
        simp only [elementDecl, eval]
        exact bind_of_error hread _
      exact bind_of_error helement _

end

end

/-- The variables that occur in an expression. -/
def variablesOf (e : Expr) : List Int := e.nodes.flatMap reads

section

variable {M : Machine} {body : Stmt} {s : Supply} {span : Span} {h : EachHead} {elem : Ty} {length : UInt32}

theorem exec_forEach (htype : h.array.type = .array elem length) (n : Nat) :
    M.exec n (.forEach span h body) = (do
      let d ← eval M (M.call n) h.array
      let count ← orFault (d.count? (.array elem length))
      each (visit M (M.call n) n h body d) n (List.range count.toNat)) := by
  rw [← htype]
  rfl

/-- The visits leave alone what the body does not assign. -/
theorem keeps_visit {seen : Int → Prop} (hid : ¬seen h.id) (hbody : ∀ v, M.Assigns body v → ¬seen v) (n : Nat)
    (d : Datum) (i : Nat) :
    Keeps seen Flow (visit M (M.call n) n h body d i) (visit M (M.call n) n h body d i) := by
  have hL : Logical 0 (Keeps seen) (M.footprint body) := Keeps.logical _ hbody
  have hrun := hL.runs (M.footprint_closed body) n (M.footprint_covers body)
  exact (Keeps.orFault _).bind fun _ => (Keeps.store hid _).bind fun _ => hrun

theorem frame_visit {T : List Int} (havoid : M.Avoids (.forEach span h body) T) (n : Nat) (d : Datum) (τ : Store)
    (hτ : Temporary T τ) (i : Nat) :
    Frame τ Flow (visit M (M.call n) n h body d i) (visit M (M.call n) n h body d i) := by
  have hid : h.id ∉ T := havoid.notMem rfl List.mem_cons_self
  have hbody := havoid.frame_exec hτ n List.mem_cons_self
  exact (Frame.orFault _).bind fun _ => (Frame.store (hτ _ hid) _).bind fun _ => hbody

theorem simulates_reduceEach (htype : h.array.type = .array elem length)
    (havoid : M.Avoids (.forEach span h body) (temporaries s)) (hid : h.id ∉ variablesOf h.array)
    (hbody : ∀ v ∈ variablesOf h.array, ¬M.Assigns body v) (n : Nat) :
    Simulates (temporaries s) (fun _ => none) (M.exec n (.forEach span h body))
      (M.exec n ((Stmt.reduceEach span h elem length body).run s).1) := by
  have hnone : Temporary (temporaries s) fun _ => none := fun _ _ => rfl
  have hpresent : h.array.isAbsent = false := isAbsent_of_type (by rw [htype]; nofun)
  rw [exec_forEach htype, run_reduceEach]
  cases hplace : h.array.isPlace with
  | true =>
    -- the array is read again in every round, and nothing that it depends on changes
    have hreads (v : Int) (hv : v ∈ variablesOf h.array) : v ∉ temporaries s := by
      intro ht
      obtain ⟨m, hm, hv⟩ := List.mem_flatMap.mp hv
      have hcovers := (M.footprint_covers (.forEach span h body)).expr (e := h.array) (by simp [Stmt.ownExprs])
      exact (havoid v ht).1 ((hcovers m hm).1 v hv)
    intro σ
    have hplaces : Observes (· ∈ variablesOf h.array) (eval M (M.call n) h.array) :=
      Observes.place h.array hplace fun m hm v hv => List.mem_flatMap.mpr ⟨m, hm, hv⟩
    obtain ⟨r, hr⟩ := hplaces σ
    have hread {τ : Store} (hτ : Temporary (temporaries s) τ) (σ' : Store)
        (hσ' : ∀ v ∈ variablesOf h.array, σ' v = σ v) :
        eval M (M.call n) h.array (overlay τ σ') = some (r, overlay τ σ') :=
      hr _ fun v hv => (overlay_of_none (hτ v (hreads v hv)) σ').trans (hσ' v hv)
    have htemp (i : Nat) : Temporary (temporaries s) (indexed (fun _ => none) s.nextVar i) :=
      hnone.update List.mem_cons_self _
    show (execAll M (M.call n) n _ _).map _ = _
    cases r with
    | error e =>
      rw [bind_of_error (hr σ fun _ _ => rfl), execAll_indexLoop_of_error (hread (htemp 0) σ fun _ _ => rfl)]
      exact congrArg some (forget_overlay (htemp 0) _ σ)
    | ok d =>
      rw [bind_of_ok (hr σ fun _ _ => rfl)]
      apply map_execAll_indexLoop fun σ' => ∀ v ∈ variablesOf h.array, σ' v = σ v
      · exact hnone
      · exact List.mem_cons_self
      · exact fun i σ' hσ' => hread (htemp i) σ' hσ'
      · exact frame_visit havoid n d
      · intro i σ₁ r' σ₂ hσ₁ hvisit v hv
        have hkeeps := keeps_visit hid (fun v hv hmem => hbody v hmem hv) n d i
        exact (hkeeps.2 σ₁ r' σ₂ hvisit v hv).trans (hσ₁ v hv)
      · exact fun _ _ => rfl
  | false =>
    show Simulates _ _ _ (execAll M (M.call n) n _)
    rw [execAll_letVar _ _ hpresent]
    refine Simulates.bind hnone (havoid.frame_eval hnone n (by simp [Stmt.ownExprs])) fun d => ?_
    refine Simulates.store fun σ => ?_
    apply map_execAll_indexLoop fun _ => True
    · exact hnone.update List.mem_cons_self _
    · exact List.mem_cons_of_mem _ List.mem_cons_self
    · intro i σ _
      exact Held.eval (.update (.var _ (Function.update_self ..)) (Function.update_of_ne (next_ne _) ..) _) σ
    · exact frame_visit havoid n d
    · exact fun _ _ _ _ _ _ => trivial
    · trivial

end

end Shading.Meaning
