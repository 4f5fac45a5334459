import Shading.Proofs.Check.Operation
import Shading.Proofs.Token.Lexing

/-! Selections of components that follow each other are one selection. -/
namespace Shading

namespace Value

variable {v w : Value} {t : Ty} {p : Primitive} {components inner outer : List UInt32}

/-- Selected components: one alone stands for itself. -/
def gathered : List Value → Value
  | [x] => x
  | xs => .vector xs

/-- Are the components themselves no vectors? -/
def Flat (v : Value) : Prop := ∀ x ∈ v.spread, x.isScalar

/-- The components that are selected, in order. -/
def Picks (v : Value) (components : List UInt32) (xs : List Value) : Prop :=
  List.Forall₂ (fun c x => v.spread[c.toNat]? = some x) components xs

theorem picked_eq_ok_iff {source : List Value} {err : UInt32 → EvalError} :
    (do
      let picked ← components.mapM fun c : UInt32 =>
        match source[c.toNat]? with
        | some x => Except.ok x
        | none => .error (err c)
      match picked with
      | [x] => return x
      | xs => return .vector xs : Except EvalError Value) = .ok w ↔
      ∃ xs, List.Forall₂ (fun c x => source[c.toNat]? = some x) components xs ∧ w = gathered xs := by
  rw [bind_ok]
  refine exists_congr fun xs => and_congr ?_ ?_
  · rw [mapM_eq_ok_iff]
    refine iff_of_eq (congrArg (List.Forall₂ · components xs) ?_)
    funext c x
    cases source[c.toNat]? <;> simp
  · unfold gathered
    split <;> exact pure_ok.trans eq_comm

/-- Selecting from a value with components gathers what is picked. -/
theorem swizzle_eq_ok_iff (hv : v.isScalar ∨ ∃ cs, v = .vector cs) :
    v.swizzle components = .ok w ↔ ∃ xs, v.Picks components xs ∧ w = gathered xs := by
  rcases hv with hv | ⟨cs, rfl⟩
  · cases v <;> cases hv <;> exact picked_eq_ok_iff
  · exact picked_eq_ok_iff

theorem selectable_of_swizzle (h : v.swizzle components = .ok w) : v.isScalar ∨ ∃ cs, v = .vector cs := by
  cases v with
  | absent | matrix => cases h
  | vector cs => exact .inr ⟨cs, rfl⟩
  | _ => exact .inl rfl

theorem Picks.flat {xs : List Value} (hv : v.Flat) (h : v.Picks components xs) : ∀ x ∈ xs, x.isScalar := by
  induction h with
  | nil => exact fun x hx => (by cases hx)
  | cons hx _ ih => exact List.forall_mem_cons.mpr ⟨hv _ (List.mem_of_getElem? hx), ih⟩

theorem spread_of_isScalar (hv : v.isScalar) : v.spread = [v] := by
  cases v <;> cases hv <;> rfl

/-- What is gathered from scalars has them as its components. -/
theorem spread_gathered {xs : List Value} (h : ∀ x ∈ xs, x.isScalar) : (gathered xs).spread = xs := by
  unfold gathered
  split
  · rename_i x
    exact spread_of_isScalar (h x List.mem_cons_self)
  · rfl

theorem gathered_of_ne_one {xs : List Value} (h : xs.length ≠ 1) : gathered xs = .vector xs := by
  unfold gathered
  split
  · exact (h rfl).elim
  · rfl

/-- To pick from what was picked is to pick by the composed selector. -/
theorem Picks.compose {xs ys : List Value} (h : v.Picks inner xs)
    (h' : List.Forall₂ (fun c y => xs[c.toNat]? = some y) outer ys) :
    v.Picks (Swizzle.compose inner outer) ys := by
  unfold Picks Swizzle.compose
  rw [List.forall₂_map_left_iff]
  refine h'.imp fun c y hy => ?_
  obtain ⟨hlt, rfl⟩ := List.getElem?_eq_some_iff.mp hy
  have hlt' : c.toNat < inner.length := by rw [h.length_eq]; exact hlt
  rw [List.getD_eq_getElem?_getD, List.getElem?_eq_getElem hlt', Option.getD_some]
  exact h.get hlt' hlt

/-- One selection after another is the composed one. -/
theorem swizzle_compose (hv : v.Flat) (h : (v.swizzle inner >>= (·.swizzle outer)) = .ok w) :
    v.swizzle (Swizzle.compose inner outer) = .ok w := by
  obtain ⟨u, hinner, houter⟩ := bind_ok.mp h
  have hselectable := selectable_of_swizzle hinner
  obtain ⟨xs, hxs, rfl⟩ := (swizzle_eq_ok_iff hselectable).mp hinner
  obtain ⟨ys, hys, rfl⟩ := (swizzle_eq_ok_iff (selectable_of_swizzle houter)).mp houter
  rw [Picks, spread_gathered (hxs.flat hv)] at hys
  exact (swizzle_eq_ok_iff hselectable).mpr ⟨ys, hxs.compose hys, rfl⟩

theorem HasType.selectable (hv : v.HasType t) (ht : t.scalarOrVector? = some p) : v.isScalar ∨ ∃ cs, v = .vector cs := by
  rcases hv.of_scalarOrVector ht with ⟨-, hv⟩ | ⟨n, cs, -, rfl, -⟩
  · exact .inl (isScalar_of_type hv)
  · exact .inr ⟨cs, rfl⟩

theorem HasType.flat (hv : v.HasType t) (ht : t.scalarOrVector? = some p) : v.Flat :=
  fun x hx => isScalar_of_type (hv.of_spread ht x hx)

theorem HasType.length_spread (hv : v.HasType t) (ht : t.scalarOrVector? = some p) :
    v.spread.length = t.components.toNat := by
  rcases hv.of_scalarOrVector ht with ⟨rfl, hv⟩ | ⟨n, cs, rfl, rfl, hlength, -⟩
  · rw [spread_of_isScalar (isScalar_of_type hv)]
    rfl
  · exact hlength

/-- What is in range is there. -/
theorem HasType.exists_swizzle (hv : v.HasType t) (ht : t.scalarOrVector? = some p)
    (hcs : ∀ c ∈ components, c < t.components) : ∃ w, v.swizzle components = .ok w := by
  have hpicks : v.Picks components (components.map fun c => v.spread.getD c.toNat .absent) := by
    unfold Picks
    rw [List.forall₂_map_right_iff, List.forall₂_same]
    intro c hc
    have hlt : c.toNat < v.spread.length := by
      rw [hv.length_spread ht]
      exact UInt32.lt_iff_toNat_lt.mp (hcs c hc)
    rw [List.getD_eq_getElem?_getD, List.getElem?_eq_getElem hlt, Option.getD_some]
  exact ⟨_, (swizzle_eq_ok_iff (hv.selectable ht)).mpr ⟨_, hpicks, rfl⟩⟩

theorem HasType.gathered_spread {n : UInt32} (hv : v.HasType (.vectorOf p n)) : gathered v.spread = v := by
  by_cases hn : n = 1
  · rw [hn] at hv
    have hscalar := isScalar_of_type hv
    rw [spread_of_isScalar hscalar]
    rfl
  · rw [Ty.vectorOf, if_neg hn] at hv
    obtain ⟨cs, rfl, hlength, -⟩ := hv
    have hne : cs.length ≠ 1 := fun hone => hn (UInt32.toNat_inj.mp (hlength.symm.trans hone))
    exact gathered_of_ne_one hne

/-- The selection of all components in order is the value. -/
theorem HasType.swizzle_identity {n : UInt32} (hv : v.HasType (.vectorOf p n)) (hlength : components.length = n.toNat)
    (hid : Check.isIdentity components) : v.swizzle components = .ok v := by
  have hp := Check.scalarOrVector_vectorOf p n
  have hpicks : v.Picks components v.spread := by
    have hspread : components.length = v.spread.length := by
      rw [hv.length_spread hp, Check.components_vectorOf, hlength]
    rw [Check.isIdentity, beq_iff_eq] at hid
    rw [Picks, hid, List.forall₂_map_left_iff, List.forall₂_iff_get]
    refine ⟨by rw [List.length_range, hspread], fun k hk hk' => ?_⟩
    have hsmall : k < 2 ^ 32 := by
      have := n.toNat_lt
      rw [List.length_range] at hk
      omega
    simp only [List.get_eq_getElem, List.getElem_range, Nat.toUInt32, UInt32.toNat_ofNat_of_lt' hsmall]
    exact List.getElem?_eq_getElem hk'
  rw [swizzle_eq_ok_iff (hv.selectable hp)]
  exact ⟨_, hpicks, hv.gathered_spread.symm⟩

end Value

/-- What components are selected of: the base of a selection. -/
def Expr.origin : Expr → Expr
  | .swizzle _ base _ => base
  | e => e

namespace Check

/-- A chain of selections that are accepted one after the other. -/
inductive Selects (e : Expr) : List (List UInt32) → Expr → Prop
  | base : Selects e [] e
  | next {steps : List (List UInt32)} {r r' : Expr} {cs : List UInt32} {span : Span} {site : Site} {σ σ' : State} :
      Selects e steps r → swizzled r cs span site σ = .ok (r', σ') → Selects e (steps ++ [cs]) r'

/-- The selection of components of a base that is none itself, where it is needed. -/
def selection (base : Expr) (all : List UInt32) (t : Ty) (span : Span) : Expr :=
  if base.type.components = 1 && all.length = 1 then base
  else if base.type.isVector && base.type.components.toNat = all.length && isIdentity all then base
  else .swizzle ⟨span, t⟩ base (Selector.ofList all)

/-- What is selected from the origin of an expression by selecting from the expression. -/
def composed : Expr → List UInt32 → List UInt32
  | .swizzle _ _ s, cs => Swizzle.compose s.components cs
  | _, cs => cs

/-- The value of a selection, given that of its origin. -/
def selected : Expr → Value → Except EvalError Value
  | .swizzle _ _ s, v => v.swizzle s.components
  | _, v => .ok v

theorem length_composed (r : Expr) (cs : List UInt32) : (composed r cs).length = cs.length := by
  cases r with
  | swizzle => exact List.length_map ..
  | _ => rfl

section

variable {e r r' : Expr} {p : Primitive} {n : UInt32} {cs : List UInt32} {span : Span} {site : Site} {σ σ' : State}

theorem swizzled_ok (hp : r.type.scalarOrVector? = some p) (h : swizzled r cs span site σ = .ok (r', σ')) :
    (1 ≤ cs.length ∧ cs.length ≤ 4) ∧ (∀ c ∈ cs, c < r.type.components) ∧
      r' = selection r.origin (composed r cs) (Ty.vectorOf p cs.length.toUInt32) span := by
  unfold swizzled at h
  simp only [reject_bind] at h
  split at h
  · split at h <;> cases h
  rename_i hrange
  split at h
  · cases h
  rename_i hcount
  have hlength : 1 ≤ cs.length ∧ cs.length ≤ 4 := by
    cases cs with
    | nil => simp at hcount
    | cons c cs => simp at hcount ⊢; omega
  -- the base that is selected from, with the components that are selected of it
  have finish {base : Expr} {all : List UInt32} (hall : all.length = cs.length)
      (h : (if base.type.components = 1 && all.length = 1 then pure base
        else if base.type.isVector && base.type.components.toNat = all.length && isIdentity all then pure base
        else pure (.swizzle ⟨span, Ty.vectorOf (r.type.scalarOrVector?.getD .bool) all.length.toUInt32⟩ base
          (Selector.ofList all)) : Check Expr) site σ = .ok (r', σ')) :
      r' = selection base all (Ty.vectorOf p cs.length.toUInt32) span := by
    rw [hp, Option.getD_some, hall] at h
    rw [selection, hall]
    split at h
    · rw [if_pos ‹_›]
      exact (pure_ok.mp h).1
    rw [if_neg ‹_›]
    split at h
    · rw [if_pos ‹_›]
      exact (pure_ok.mp h).1
    · rw [if_neg ‹_›]
      exact (pure_ok.mp h).1
  refine ⟨hlength, by simpa using hrange, ?_⟩
  have hall := length_composed r cs
  cases r with
  | swizzle => exact finish hall h
  | _ => exact finish hall h

/-- The base of a chain, or one selection of it. -/
inductive Collapsed (e : Expr) (p : Primitive) : Expr → Prop
  | base : Collapsed e p e
  | one {i : ExprInfo} {s : Selector} : 1 ≤ s.count ∧ s.count ≤ 4 → (∀ c ∈ s.components, c < e.type.components) →
      i.type = .vectorOf p s.count → Collapsed e p (.swizzle i e s)

variable (htype : e.type = .vectorOf p n) (hbase : ∀ i b s, e ≠ .swizzle i b s)

theorem origin_eq (hbase : ∀ i b s, e ≠ .swizzle i b s) : e.origin = e := by
  cases e with
  | swizzle i b s => exact (hbase i b s rfl).elim
  | _ => rfl

theorem composed_eq (hbase : ∀ i b s, e ≠ .swizzle i b s) (cs : List UInt32) : composed e cs = cs := by
  cases e with
  | swizzle i b s => exact (hbase i b s rfl).elim
  | _ => rfl

theorem selected_eq (hbase : ∀ i b s, e ≠ .swizzle i b s) (v : Value) : selected e v = .ok v := by
  cases e with
  | swizzle i b s => exact (hbase i b s rfl).elim
  | _ => rfl

namespace Collapsed

include hbase in
theorem origin (h : Collapsed e p r) : r.origin = e := by
  cases h with
  | base => exact origin_eq hbase
  | one => rfl

include htype in
theorem type (h : Collapsed e p r) : ∃ m, r.type = .vectorOf p m := by
  cases h with
  | base => exact ⟨n, htype⟩
  | one _ _ hi => exact ⟨_, hi⟩

include htype hbase in
theorem selected {v : Value} (h : Collapsed e p r) (hv : v.HasType e.type) :
    ∃ w, Check.selected r v = .ok w ∧ w.HasType r.type := by
  have hp : e.type.scalarOrVector? = some p := by rw [htype, scalarOrVector_vectorOf]
  cases h with
  | base => exact ⟨v, selected_eq hbase v, hv⟩
  | one hs hin hi =>
    obtain ⟨w, hw⟩ := hv.exists_swizzle hp hin
    have hw' := hv.swizzle hp (Selector.length_components hs.2) hw
    exact ⟨w, hw, (congrArg w.HasType hi).mpr hw'⟩

include hbase in
theorem composed_lt (h : Collapsed e p r) (hcs : ∀ c ∈ cs, c < r.type.components) :
    ∀ c ∈ composed r cs, c < e.type.components := by
  cases h with
  | base =>
    rw [composed_eq hbase]
    exact hcs
  | @one i s hs hin hi =>
    intro c hc
    obtain ⟨d, hd, rfl⟩ := List.mem_map.mp hc
    have hlt : d < s.count := by
      have := hcs d hd
      rwa [show (Expr.swizzle i e s).type = _ from hi, components_vectorOf] at this
    have hlt' : d.toNat < s.components.length := by
      rw [Selector.length_components hs.2]
      exact UInt32.lt_iff_toNat_lt.mp hlt
    rw [List.getD_eq_getElem?_getD, List.getElem?_eq_getElem hlt', Option.getD_some]
    exact hin _ (List.getElem_mem _)

include htype hbase in
/-- A selection from the value is a selection from that of the base. -/
theorem swizzle_composed {v u w : Value} (h : Collapsed e p r) (hv : v.HasType e.type)
    (hu : Check.selected r v = .ok u) (hw : u.swizzle cs = .ok w) : v.swizzle (composed r cs) = .ok w := by
  have hp : e.type.scalarOrVector? = some p := by rw [htype, scalarOrVector_vectorOf]
  cases h with
  | base =>
    rw [selected_eq hbase] at hu
    cases hu
    rw [composed_eq hbase]
    exact hw
  | one => exact Value.swizzle_compose (hv.flat hp) (Value.bind_ok.mpr ⟨u, hu, hw⟩)

theorem evaluate {lookup : Int → Option Value} {v w : Value} (h : Collapsed e p r) (hv : e.evaluate lookup = .ok v)
    (hbase : ∀ i b s, e ≠ .swizzle i b s) (hw : Check.selected r v = .ok w) : r.evaluate lookup = .ok w := by
  cases h with
  | base =>
    rw [selected_eq hbase] at hw
    cases hw
    exact hv
  | one =>
    rw [Expr.evaluate]
    exact Value.bind_ok.mpr ⟨v, hv, hw⟩

end Collapsed

include htype hbase in
/-- A selection of a base is left out only where it is the base. -/
theorem collapsed_selection {all : List UInt32} (span : Span) (hlength : 1 ≤ all.length ∧ all.length ≤ 4)
    (hall : ∀ c ∈ all, c < e.type.components)
    (hr : r = selection e all (.vectorOf p all.length.toUInt32) span) :
    Collapsed e p r ∧ r.type = .vectorOf p all.length.toUInt32 ∧
      ∀ v, v.HasType e.type → selected r v = v.swizzle all := by
  have hcount : all.length.toUInt32.toNat = all.length := by
    simp only [Nat.toUInt32, UInt32.toNat_ofNat']
    omega
  have hcomponents : e.type.components = n := by rw [htype, components_vectorOf]
  have left_out (hn : n.toNat = all.length) (hid : isIdentity all) (hr : r = e) :
      Collapsed e p r ∧ r.type = .vectorOf p all.length.toUInt32 ∧
        ∀ v, v.HasType e.type → selected r v = v.swizzle all := by
    have hsame : n = all.length.toUInt32 := UInt32.toNat_inj.mp (hn.trans hcount.symm)
    rw [hr, ← hsame]
    refine ⟨.base, htype, fun v hv => ?_⟩
    rw [htype] at hv
    rw [selected_eq hbase, hv.swizzle_identity hn.symm hid]
  rw [selection, hcomponents] at hr
  split at hr
  · rename_i hone
    obtain ⟨hn, hlen⟩ : n = 1 ∧ all.length = 1 := by simpa using hone
    obtain ⟨c, rfl⟩ := List.length_eq_one_iff.mp hlen
    have hc : c < 1 := by simpa [hcomponents, hn] using hall
    have hzero : c = 0 := UInt32.lt_one_iff.mp hc
    exact left_out (by rw [hn]; rfl) (by rw [hzero]; rfl) hr
  split at hr
  · rename_i hid
    obtain ⟨⟨-, hn⟩, hid⟩ : (e.type.isVector ∧ n.toNat = all.length) ∧ isIdentity all := by simpa using hid
    exact left_out hn hid hr
  · rw [hr]
    refine ⟨.one (count_ofList hlength) ?_ rfl, rfl, fun v _ => ?_⟩
    · rw [components_ofList hlength.2]
      exact hall
    · rw [selected, components_ofList hlength.2]

include htype hbase in
/-- What one selection does to a chain. -/
theorem collapsed_step (h : Collapsed e p r) (hrun : swizzled r cs span site σ = .ok (r', σ')) :
    Collapsed e p r' ∧ r'.type = .vectorOf p cs.length.toUInt32 ∧
      ∀ v, v.HasType e.type → ∃ w, (selected r v >>= (·.swizzle cs)) = .ok w ∧ selected r' v = .ok w := by
  obtain ⟨m, hm⟩ := h.type htype
  have hp : r.type.scalarOrVector? = some p := by rw [hm, scalarOrVector_vectorOf]
  obtain ⟨hlength, hrange, hr'⟩ := swizzled_ok hp hrun
  rw [h.origin hbase, ← length_composed r cs] at hr'
  rw [← length_composed r cs] at hlength
  obtain ⟨hcollapsed, htype', hvalue⟩ :=
    collapsed_selection htype hbase span hlength (h.composed_lt hbase hrange) hr'
  rw [length_composed] at htype'
  refine ⟨hcollapsed, htype', fun v hv => ?_⟩
  obtain ⟨u, hu, hutype⟩ := h.selected htype hbase hv
  obtain ⟨w, hw⟩ := hutype.exists_swizzle hp hrange
  refine ⟨w, Value.bind_ok.mpr ⟨u, hu, hw⟩, ?_⟩
  rw [hvalue v hv]
  exact h.swizzle_composed htype hbase hv hu hw

include htype hbase in
theorem Selects.collapses {steps : List (List UInt32)} (h : Selects e steps r) :
    Collapsed e p r ∧ (r.type = steps.getLast?.elim e.type fun cs => .vectorOf p cs.length.toUInt32) ∧
      ∀ v, v.HasType e.type → ∃ w, steps.foldlM Value.swizzle v = .ok w ∧ selected r v = .ok w := by
  induction h with
  | base => exact ⟨.base, rfl, fun v _ => ⟨v, rfl, selected_eq hbase v⟩⟩
  | @next steps r r' cs span site σ σ' _ hrun ih =>
    obtain ⟨hcollapsed, htype', hvalue⟩ := collapsed_step htype hbase ih.1 hrun
    refine ⟨hcollapsed, by rw [List.getLast?_concat]; exact htype', fun v hv => ?_⟩
    obtain ⟨u, hu, hu'⟩ := ih.2.2 v hv
    obtain ⟨w, hw, hw'⟩ := hvalue v hv
    rw [hu'] at hw
    refine ⟨w, ?_, hw'⟩
    rw [List.foldlM_append, hu]
    show (Value.swizzle u cs >>= pure) = _
    rw [bind_pure]
    exact hw

/-- A member of a vector is a selection. -/
theorem membersOf_ok {i : ExprInfo} {name : Name} {names : List Name} {m : UInt32} (hm : r.type = .vectorOf p m)
    (h : membersOf i r (name :: names) site σ = .ok (r', σ')) :
    ∃ cs r₁ σ₁, Swizzle.parse? name.text = some cs ∧ swizzled r cs i.span site σ = .ok (r₁, σ₁) ∧
      membersOf i r₁ names site σ₁ = .ok (r', σ') := by
  have hp : r.type.scalarOrVector? = some p := by rw [hm, scalarOrVector_vectorOf]
  have hknown : r.type.isKnown = true := by
    cases ht : r.type with
    | unknown =>
      rw [ht] at hp
      cases hp
    | _ => rfl
  have hcontainer : r.type.container? = none := by
    cases ht : r.type with
    | prim | vector => rfl
    | _ =>
      rw [ht] at hp
      cases hp
  unfold membersOf at h
  simp only [hknown, hcontainer, hp, reject_bind, Bool.not_true, Bool.false_eq_true, if_false,
    Option.isNone_some] at h
  cases hcs : Swizzle.parse? name.text with
  | none =>
    rw [hcs] at h
    cases h
  | some cs =>
    rw [hcs] at h
    obtain ⟨r₁, σ₁, hrun, hrest⟩ := bind_ok.mp h
    exact ⟨cs, r₁, σ₁, rfl, hrun, hrest⟩

include htype hbase in
/-- Members that are accepted are a chain of selections. -/
theorem Selects.members {steps : List (List UInt32)} {i : ExprInfo} {names : List Name} (h : Selects e steps r)
    (hrun : membersOf i r names site σ = .ok (r', σ')) :
    ∃ added, names.map (Swizzle.parse? ·.text) = added.map some ∧ Selects e (steps ++ added) r' := by
  induction names generalizing steps r σ with
  | nil =>
    obtain ⟨rfl, -⟩ := pure_ok.mp hrun
    exact ⟨[], rfl, by rwa [List.append_nil]⟩
  | cons name names ih =>
    obtain ⟨m, hm⟩ := (h.collapses htype hbase).1.type htype
    obtain ⟨cs, r₁, σ₁, hcs, hstep, hrest⟩ := membersOf_ok hm hrun
    obtain ⟨added, hadded, hselects⟩ := ih (h.next hstep) hrest
    refine ⟨cs :: added, by rw [List.map_cons, List.map_cons, hcs, hadded], ?_⟩
    rwa [List.append_assoc] at hselects

end

/-- A chain of selections from a scalar or a vector is the base or one selection of it. It has the type of its
last step and the value that the steps have one after the other, as selectors compose. Members that are accepted
are such chains. -/
theorem selections_collapse {e : Expr} {p : Primitive} {n : UInt32} (htype : e.type = .vectorOf p n)
    (hbase : ∀ i b s, e ≠ .swizzle i b s) :
    (∀ steps r, Selects e steps r →
      (r = e ∨ ∃ i s, r = .swizzle i e s) ∧
      (r.type = steps.getLast?.elim e.type fun cs => .vectorOf p cs.length.toUInt32) ∧
      ∀ v, v.HasType e.type → ∃ w, steps.foldlM Value.swizzle v = .ok w ∧
        ∀ lookup, e.evaluate lookup = .ok v → r.evaluate lookup = .ok w) ∧
    (∀ steps r, Selects e steps r → ∀ i names site σ r' σ', membersOf i r names site σ = .ok (r', σ') →
      ∃ added, names.map (Swizzle.parse? ·.text) = added.map some ∧ Selects e (steps ++ added) r') ∧
    ∀ (v w : Value) (inner outer : List UInt32), v.Flat → (v.swizzle inner >>= (·.swizzle outer)) = .ok w →
      v.swizzle (Swizzle.compose inner outer) = .ok w := by
  refine ⟨fun steps r h => ?_, fun steps r h i names site σ r' σ' hrun => h.members htype hbase hrun,
    fun v w inner outer => Value.swizzle_compose⟩
  obtain ⟨hcollapsed, hlast, hvalue⟩ := h.collapses htype hbase
  refine ⟨?_, hlast, fun v hv => ?_⟩
  · cases hcollapsed with
    | base => exact .inl rfl
    | one => exact .inr ⟨_, _, rfl⟩
  · obtain ⟨w, hw, hselected⟩ := hvalue v hv
    exact ⟨w, hw, fun lookup he => hcollapsed.evaluate he hbase hselected⟩

theorem selections_collapse_reversed :
    let e := Expr.ofValue {} (.vector [.i32 5, .i32 6, .i32 7])
    e.type = .vectorOf .i32 3 ∧ (∀ i b s, e ≠ .swizzle i b s) ∧ (Value.vector [.i32 5, .i32 6, .i32 7]).HasType e.type ∧
      ∃ i s, Selects e [[2, 1, 0], [0]] (.swizzle i e s) ∧ i.type = .prim .i32 ∧
        (Expr.swizzle i e s).evaluate (fun _ => none) = .ok (.i32 7) := by
  intro e
  have htype : e.type = .vectorOf .i32 3 := rfl
  have hbase : ∀ i b s, e ≠ .swizzle i b s := nofun
  have hvalue : (Value.vector [.i32 5, .i32 6, .i32 7]).HasType e.type := ⟨_, rfl, rfl, by simp [Value.type]; rfl⟩
  let site : Site := { settings := {} }
  let σ : State := { session := {} }
  have hfirst : swizzled e [2, 1, 0] {} site σ =
      .ok (.swizzle ⟨{}, .vectorOf .i32 3⟩ e (.ofList [2, 1, 0]), σ) := rfl
  have hsecond : swizzled (.swizzle ⟨{}, .vectorOf .i32 3⟩ e (.ofList [2, 1, 0])) [0] {} site σ =
      .ok (.swizzle ⟨{}, .prim .i32⟩ e (.ofList [2]), σ) := rfl
  have hchain : Selects e [[2, 1, 0], [0]] (.swizzle ⟨{}, .prim .i32⟩ e (.ofList [2])) :=
    (Selects.base.next hfirst).next hsecond
  obtain ⟨-, hlast, hall⟩ := (selections_collapse htype hbase).1 _ _ hchain
  obtain ⟨w, hw, hevaluate⟩ := hall _ hvalue
  cases hw
  exact ⟨htype, hbase, hvalue, _, _, hchain, hlast, hevaluate _ rfl⟩

end Check

end Shading
