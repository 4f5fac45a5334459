import Mathlib.Data.List.Induction
import Shading.Proofs.Check.Binding
import Shading.Proofs.Module.Resolving

/-! Values that are given for options. They are kept under the checksums of the names, so that one for a name is one for
every name of the same checksum. Options of which the checksums differ leave each other alone, wherever a value is taken:
in the check of a declaration, in the check of a whole module and in the table of the constants of a module. -/
namespace Shading

namespace Table

variable {κ α : Type} {rank : κ → Nat} [DecidableEq κ]

theorem find?_place (hrank : ∀ {a b : κ}, rank a = rank b → a = b) (k : κ) (v : α) (key : κ) (es : List (κ × α)) :
    (place rank k v es).find? (·.1 == key) = if k = key then some (k, v) else es.find? (·.1 == key) := by
  induction es with
  | nil =>
    by_cases hk : k = key
    · simp [place, hk]
    · simp [place, hk]
  | cons e es ih =>
    rw [place]
    split
    · by_cases hk : k = key
      · simp [hk]
      · simp [hk]
    split
    · next heq =>
      obtain rfl := hrank heq
      by_cases hk : e.1 = key
      · simp [hk]
      · simp [hk]
    · next hne =>
      rw [List.find?_cons, ih, List.find?_cons]
      by_cases he : e.1 = key
      · have hk : k ≠ key := fun hk => hne (by rw [hk, he])
        simp [he, hk]
      · rw [beq_eq_false_iff_ne.mpr he]

theorem get?_insert (hrank : ∀ {a b : κ}, rank a = rank b → a = b) (t : Table rank α) (k : κ) (v : α) (key : κ) :
    (t.insert k v).get? key = if k = key then some v else t.get? key := by
  rw [get?, insert, find?_place hrank]
  split <;> rfl

end Table

namespace OptionValues

/-- The values that are there after some have been stored one after the other. -/
def ofSets (sets : List (Text × Value)) : OptionValues := sets.foldl (fun o e => o.set e.1 e.2) {}

/-- The last value that is stored for one of some names. -/
def last? (sets : List (Text × Value)) (p : Text → Bool) : Option Value :=
  (sets.filter fun e => p e.1).getLast?.map (·.2)

theorem get?_set (o : OptionValues) (n : Text) (v : Value) (name : Text) :
    (o.set n v).get? name = if key n = key name then some v else o.get? name :=
  Table.get?_insert UInt32.toNat_inj.mp o (key n) v (key name)

theorem get?_ofSets (sets : List (Text × Value)) (name : Text) :
    (ofSets sets).get? name = last? sets fun n => key n == key name := by
  induction sets using List.reverseRecOn with
  | nil => rfl
  | append_singleton sets e ih =>
    rw [ofSets, List.foldl_concat, ← ofSets, get?_set, last?, List.filter_append]
    split
    · next heq => simp [heq]
    · next hne => rw [ih, last?]; simp [hne]

/-- The value of the last store for the very name, if no other name with its checksum is stored. -/
theorem get?_ofSets_of_apart {sets : List (Text × Value)} {name : Text}
    (h : ∀ e ∈ sets, key e.1 = key name → e.1 = name) : (ofSets sets).get? name = last? sets (· == name) := by
  rw [get?_ofSets, last?, last?]
  refine congrArg (fun es => Option.map Prod.snd (List.getLast? es)) (List.filter_congr fun e he => ?_)
  rw [Bool.eq_iff_iff, beq_iff_eq, beq_iff_eq]
  exact ⟨h e he, congrArg key⟩

end OptionValues

theorem Expr.literal?_of_isAbsent {e : Expr} (h : e.isAbsent) : e.literal? = none := by
  rw [Check.absent_of_isAbsent h]
  rfl

namespace Check

variable {site : Site} {σ σ' : State}

theorem optionValue_run (span : Span) (name : Text) (t : Ty) (site : Site) (σ : State) :
    optionValue span name t site σ = match site.settings.values.get? name with
      | none => .ok (none, σ)
      | some v =>
        if t.isKnown && !v.type.same t then .error (.located span (.optionValueType name v.type t))
        else .ok (some v, σ) := by
  have hread (f : Site → Check (Option Value)) : (read >>= f) site σ = f site site σ := rfl
  rw [optionValue, hread]
  cases site.settings.values.get? name with
  | none => rfl
  | some v =>
    dsimp only
    split <;> rfl

theorem optionValue_eq {span : Span} {name : Text} {t : Ty} {v : Option Value}
    (h : optionValue span name t site σ = .ok (v, σ')) : v = site.settings.values.get? name := by
  rw [optionValue_run] at h
  split at h
  · cases h
    exact Eq.symm ‹_›
  · split at h
    · cases h
    · cases h
      exact Eq.symm ‹_›

theorem optionDefault_none {d : OptionDecl} {t : Ty} (h : optionDefault d t site σ = .ok (none, σ')) :
    d.default.isAbsent := by
  unfold optionDefault at h
  split at h
  · assumption
  obtain ⟨e, σ₁, -, h⟩ := bind_ok.mp h
  obtain ⟨v, σ₂, -, h⟩ := bind_ok.mp h
  split at h
  · exact (reject_ok.mp h).elim
  · simp only [reject_bind] at h
    split at h
    · exact (reject_ok.mp h).elim
    · cases (pure_ok.mp h).1

theorem optionDefault_literal {d : OptionDecl} {t : Ty} {i : ExprInfo} {v : Value} {f : Option (Span × Value)}
    (hdefault : d.default = .literal i v) (h : optionDefault d t site σ = .ok (f, σ')) : f.map (·.2) = some v := by
  unfold optionDefault at h
  rw [hdefault, if_neg (by simp [Expr.isAbsent])] at h
  obtain ⟨e, σ₁, he, hrest⟩ := bind_ok.mp h
  rw [expression, reference] at he
  obtain ⟨rfl, rfl⟩ := pure_ok.mp he
  obtain ⟨r, σ₂, hr, hlast⟩ := bind_ok.mp hrest
  obtain rfl : Except.ok v = r := congrArg Prod.fst (Except.ok.inj hr)
  simp only [reject_bind] at hlast
  split at hlast
  · exact (reject_ok.mp hlast).elim
  · obtain ⟨rfl, -⟩ := pure_ok.mp hlast
    rfl

/-- The check of an option finds what its default results in, and enters that and the given value under a number. -/
theorem declareOption_ok {span : Span} {d d' : OptionDecl} (h : declareOption span d site σ = .ok (d', σ')) :
    ∃ (t : Ty) (type : Expr) (id : Int) (fallback : Option (Span × Value)) (σ₁ σ₂ : State),
      optionDefault d t site σ₁ = .ok (fallback, σ₂) ∧
      d' = { d with type, default := fallback.elim d.default fun f => .ofValue f.1 f.2, id } ∧
      σ'.session.constant? id =
        some { name := d.name, type := t, value := site.settings.values.get? d.name, fallback := fallback.map (·.2) } := by
  obtain ⟨_, σ₁, -, h⟩ := bind_ok.mp h
  obtain ⟨⟨t, type⟩, σ₂, -, h⟩ := bind_ok.mp h
  obtain ⟨_, σ₃, -, h⟩ := bind_ok.mp h
  obtain ⟨fallback, σ₄, hfallback, h⟩ := bind_ok.mp h
  obtain ⟨value, σ₅, hvalue, h⟩ := bind_ok.mp h
  obtain ⟨id, σ₆, -, h⟩ := bind_ok.mp h
  obtain ⟨_, σ₇, hadd, h⟩ := bind_ok.mp h
  obtain ⟨_, σ₈, hdeclare, h⟩ := bind_ok.mp h
  obtain ⟨rfl, rfl⟩ := pure_ok.mp h
  obtain ⟨draft, rfl, -⟩ := declare_ok hdeclare
  refine ⟨t, type, id, fallback, σ₃, σ₄, hfallback, rfl, ?_⟩
  rw [modifySession_ok.mp hadd, ← optionValue_eq hvalue]
  exact List.lookup_cons_self

/-- A literal is the default that it results in. -/
theorem declareOption_literal {span : Span} {d d' : OptionDecl} {i : ExprInfo} {v : Value} (hdefault : d.default = .literal i v)
    (h : declareOption span d site σ = .ok (d', σ')) : d'.default.literal? = some v := by
  obtain ⟨t, type, id, fallback, σ₁, σ₂, hfallback, rfl, -⟩ := declareOption_ok h
  obtain ⟨f, rfl, rfl⟩ := Option.map_eq_some_iff.mp (optionDefault_literal hdefault hfallback)
  rfl

/-- The check of an option enters the value that is given for it and, as its fallback, the default that it results in. -/
theorem declareOption_values {span : Span} {d d' : OptionDecl} (h : declareOption span d site σ = .ok (d', σ')) :
    σ'.session.value? d'.id = site.settings.values.get? d.name ∧
      σ'.session.valueOrDefault? d'.id = (site.settings.values.get? d.name <|> d'.default.literal?) := by
  obtain ⟨t, type, id, fallback, σ₁, σ₂, hfallback, rfl, hconstant⟩ := declareOption_ok h
  rw [Session.value?, Session.valueOrDefault?, hconstant]
  refine ⟨rfl, ?_⟩
  cases fallback with
  | none =>
    simp [Expr.literal?_of_isAbsent (optionDefault_none hfallback)]
  | some f => simp [Expr.ofValue, Expr.literal?]

end Check

/-- At the end of a check, an option has the value that is given for it, and without one its default. -/
theorem Module.Ends.option_values {settings : CheckSettings} {m r : Module} {σ : Check.State} (h : m.Ends settings r σ)
    (hchecks : m.ChecksTo settings r) {span : Span} {d : OptionDecl} (hd : .option span d ∈ r.constants) :
    σ.session.value? d.id = settings.values.get? d.name ∧
      σ.session.valueOrDefault? d.id = (settings.values.get? d.name <|> d.default.literal?) := by
  obtain ⟨hm, hsettings⟩ := hchecks.regular
  obtain ⟨u, hu, hd⟩ := List.mem_flatMap.mp hd
  obtain ⟨c, older, hsuffix, hvalue, hnone, hsome⟩ := (h.unit hm hsettings hu).2 _ hd
  have hnodup := h.nodup hm hsettings hchecks.constantIds.1
  have hconstant := Check.Session.constant?_of_mem hnodup (hsuffix.subset List.mem_cons_self)
  have hliteral : d.default.literal? = c.fallback := by
    cases hfallback : c.fallback with
    | none => exact Expr.literal?_of_isAbsent (hnone hfallback)
    | some v =>
      obtain ⟨place, hdefault⟩ := hsome v hfallback
      rw [hdefault]
      rfl
  rw [Check.Session.value?, Check.Session.valueOrDefault?, hconstant, hliteral, ← hvalue]
  exact ⟨rfl, rfl⟩

namespace OptionValues

open Check (Session Site State optionValue declareOption)

/-- An option has one value in two sessions, also with the defaults: where none is given, if its default results in the
same value in both. -/
def SameValue (s s' : Session) (d d' : OptionDecl) : Prop :=
  s'.value? d'.id = s.value? d.id ∧
    ((s.value? d.id = none → d'.default.literal? = d.default.literal?) →
      s'.valueOrDefault? d'.id = s.valueOrDefault? d.id)

/-- With other values, an option of a name takes the value that it takes anyway. -/
structure Keeps (o o' : OptionValues) (name : Text) : Prop where
  lookup : o'.get? name = o.get? name
  /-- what a check takes for the option, and whether it refuses it -/
  taken : ∀ {site : Site}, site.settings.values = o → ∀ (span : Span) (t : Ty) (σ : State),
    optionValue span name t { site with settings := { site.settings with values := o' } } σ = optionValue span name t site σ
  /-- the value that the check of a declaration enters -/
  declared : ∀ {site site' : Site}, site.settings.values = o → site'.settings.values = o' →
    ∀ {span span' : Span} {d d' e e' : OptionDecl} {σ₁ σ₁' σ₂ σ₂' : State}, d.name = name → d'.name = name →
      declareOption span d site σ₁ = .ok (e, σ₂) → declareOption span' d' site' σ₁' = .ok (e', σ₂') →
      SameValue σ₂.session σ₂'.session e e'
  /-- the value that it has at the end of the check of a module -/
  checked : ∀ {settings : CheckSettings}, settings.values = o → ∀ {m r r' : Module} {σ σ' : State},
    m.ChecksTo settings r → m.Ends settings r σ →
    m.ChecksTo { settings with values := o' } r' → m.Ends { settings with values := o' } r' σ' →
    ∀ {span span' : Span} {d d' : OptionDecl}, .option span d ∈ r.constants → .option span' d' ∈ r'.constants →
      d.name = name → d'.name = name → SameValue σ.session σ'.session d d'
  /-- the value that a table of constants gets for it, whatever is in the table -/
  resolved : ∀ (table table' : Constants) (span : Span) {d : OptionDecl}, d.name = name →
    (o.get? name = none → d.default.evaluate table'.get? = d.default.evaluate table.get?) →
    (Constants.declare o' table' (.option span d)).map (·.get? d.id) =
      (Constants.declare o table (.option span d)).map (·.get? d.id)

/-- The value of an option is the one that is given for it, and otherwise what its default results in. -/
theorem get?_declare (o : OptionValues) (table : Constants) (span : Span) (d : OptionDecl) :
    (Constants.declare o table (.option span d)).map (·.get? d.id) =
      match o.get? d.name with
      | some v => .ok (some v)
      | none =>
        if d.default.isAbsent then .error (.missing d.name)
        else match d.default.evaluate table.get? with
          | .ok v => .ok (some v)
          | .error e => .error (.option d.name e) := by
  have hset (v : Value) : (table.set d.id v).get? d.id = some v := by rw [Constants.get?_set, if_pos rfl]
  rw [Constants.declare]
  cases o.get? d.name with
  | some v => exact congrArg Except.ok (hset v)
  | none =>
    dsimp only
    split
    · rfl
    · cases d.default.evaluate table.get? with
      | error e => rfl
      | ok v => exact congrArg Except.ok (hset v)

theorem SameValue.of_values {s s' : Session} {d d' : OptionDecl} {v : Option Value} (hs : s.value? d.id = v)
    (hs' : s'.value? d'.id = v) (hdefault : s.valueOrDefault? d.id = (v <|> d.default.literal?))
    (hdefault' : s'.valueOrDefault? d'.id = (v <|> d'.default.literal?)) : SameValue s s' d d' := by
  refine ⟨hs'.trans hs.symm, fun hsame => ?_⟩
  rw [hdefault, hdefault']
  cases v with
  | some v => rfl
  | none => rw [hsame hs]

theorem Keeps.of_lookup {o o' : OptionValues} {name : Text} (h : o'.get? name = o.get? name) : o.Keeps o' name := by
  refine ⟨h, ?_, ?_, ?_, ?_⟩
  · rintro site rfl span t σ
    rw [Check.optionValue_run, Check.optionValue_run, h]
  · rintro site site' rfl rfl span span' d d' e e' σ₁ σ₁' σ₂ σ₂' hd hd' hrun hrun'
    obtain ⟨hvalue, hfallback⟩ := Check.declareOption_values hrun
    obtain ⟨hvalue', hfallback'⟩ := Check.declareOption_values hrun'
    rw [hd', h, ← hd] at hvalue' hfallback'
    exact .of_values hvalue hvalue' hfallback hfallback'
  · rintro settings rfl m r r' σ σ' hchecks hends hchecks' hends' span span' d d' hmem hmem' hd hd'
    obtain ⟨hvalue, hfallback⟩ := hends.option_values hchecks hmem
    obtain ⟨hvalue', hfallback'⟩ := hends'.option_values hchecks' hmem'
    rw [hd', h, ← hd] at hvalue' hfallback'
    exact .of_values hvalue hvalue' hfallback hfallback'
  · rintro table table' span d rfl hsame
    rw [get?_declare, get?_declare, h]
    cases hvalue : o.get? d.name with
    | some v => rfl
    | none => rw [hsame hvalue]

/-- A name has the last value that is stored for a name of its checksum, which is the last one for the very name if no
other name has the checksum. A value for a name leaves the options alone that have other checksums, as far as their
defaults result in what they result in anyway. That is so of a literal. -/
theorem options_apart :
    (∀ (sets : List (Text × Value)) (name : Text), (ofSets sets).get? name = last? sets fun n => key n == key name) ∧
    (∀ (sets : List (Text × Value)) (name : Text), (∀ e ∈ sets, key e.1 = key name → e.1 = name) →
      (ofSets sets).get? name = last? sets (· == name)) ∧
    (∀ (o : OptionValues) (n : Text) (v : Value) (name : Text), key n ≠ key name → o.Keeps (o.set n v) name) ∧
    ∀ {site : Site} {span : Span} {d e : OptionDecl} {σ σ' : State} {i : ExprInfo} {v : Value}, d.default = .literal i v →
      declareOption span d site σ = .ok (e, σ') → e.default.literal? = some v := by
  refine ⟨get?_ofSets, fun sets name => get?_ofSets_of_apart, fun o n v name hne => .of_lookup ?_,
    Check.declareOption_literal⟩
  rw [get?_set, if_neg hne]

theorem options_apart_scale :
    key "scale" ≠ key "width" ∧
    (ofSets [("scale", .i32 1), ("width", .i32 2), ("scale", .i32 3)]).get? "scale" = some (.i32 3) ∧
    ∀ o : OptionValues, (o.set "scale" (.i32 3)).get? "width" = o.get? "width" := by
  have hne : key "scale" ≠ key "width" := by decide +kernel
  refine ⟨hne, ?_, fun o => (options_apart.2.2.1 o "scale" (.i32 3) "width" hne).lookup⟩
  rw [options_apart.2.1]
  · rfl
  · intro e he heq
    simp only [List.mem_cons, List.not_mem_nil, or_false] at he
    rcases he with rfl | rfl | rfl
    · rfl
    · exact absurd heq.symm hne
    · rfl

/-- Two options, of which the second is one more than the first if it is not given. -/
def following : Module :=
  let i : ExprInfo := {}
  { root := some { body := [
      .option {} { name := "first", type := .name i "i32", default := .literal i (.i32 1) },
      .option {} { name := "second", type := .name i "i32", default := .binary i .add (.name i "first") (.literal i (.i32 1)) }] } }

/-- The defaults, as integers, that the options of a module have after its check under some values. -/
def defaultsAfter (m : Module) (o : OptionValues) : Option (List (Option Int)) :=
  (m.check { values := o }).toOption.map fun r => r.rootStmt.nodes.filterMap fun
    | .stmt (.option _ d) => some (d.default.literal?.bind Value.toInt?)
    | _ => none

/-- Two names of one checksum: a value for one of them is one for the other, also where a check takes it. And a value for
an option changes the default of another one, of another checksum, that reads it. -/
theorem options_not_apart :
    (¬ ∀ (sets : List (Text × Value)) (name : Text), (ofSets sets).get? name = last? sets (· == name)) ∧
    (∀ σ : State, optionValue {} "buckeroo" (.prim .i32) { settings := { values := ofSets [("plumless", .i32 7)] } } σ =
      .ok (some (.i32 7), σ)) ∧
    key "first" ≠ key "second" ∧ defaultsAfter following {} = some [some 1, some 2] ∧
    defaultsAfter following (ofSets [("first", .i32 5)]) = some [some 1, some 6] := by
  have hkey : key "plumless" = key "buckeroo" := by decide +kernel
  have hget : (ofSets [("plumless", .i32 7)]).get? "buckeroo" = some (.i32 7) := by
    rw [get?_ofSets, last?]
    simp [hkey]
  refine ⟨fun h => ?_, fun σ => ?_, by decide +kernel, by decide +kernel, by decide +kernel⟩
  · rw [h] at hget
    cases hget
  · rw [Check.optionValue_run, hget]
    rfl

end OptionValues

end Shading
