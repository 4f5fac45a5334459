import Mathlib.Data.List.Flatten
import Mathlib.Data.List.Forall2
import Shading.Proofs.Check.Walking
import Shading.Parser
import Shading.Spirv

/-! The resources of a checked module. Two of them have the same set and binding only if the later one stands under
a condition that is not known yet. -/
namespace Shading

/-- The set and the binding of a resource. -/
def External.slot (v : External) : UInt32 × UInt32 := (v.set.value.getD 0, v.binding.value.getD 0)

namespace Stmt

def externals : Stmt → List External
  | .external _ _ vars => vars
  | _ => []

/-- The resources that a declaration declares, marked like the declaration. -/
def resources (l : Bool × Stmt) : List (Bool × External) := l.2.externals.map fun v => (l.1, v)

end Stmt

/-- The resources of a module in their order. Each is marked if it stands under a condition. -/
def Module.resources (m : Module) : List (Bool × External) := m.leaves.flatMap Stmt.resources

namespace Check

/-- The slots that are taken so far. -/
def State.slots (σ : State) : List (UInt32 × UInt32) := σ.draft.bindings.map (·.1)

/-- Resources take slots one after the other. -/
structure Takes (before after : List (UInt32 × UInt32)) (rs : List (Bool × External)) : Prop where
  grows : before ⊆ after
  taken : ∀ r ∈ rs, r.2.slot ∈ after
  fresh : ∀ r ∈ rs, r.2.slot ∈ before → r.1 = true
  apart : rs.Pairwise fun a b => a.2.slot = b.2.slot → b.1 = true

namespace Takes

variable {B B₁ B' : List (UInt32 × UInt32)} {rs rs' : List (Bool × External)}

theorem none (h : B ⊆ B') : Takes B B' [] :=
  ⟨h, fun _ hr => absurd hr List.not_mem_nil, fun _ hr => absurd hr List.not_mem_nil, .nil⟩

theorem append (h : Takes B B₁ rs) (h' : Takes B₁ B' rs') : Takes B B' (rs ++ rs') := by
  refine ⟨fun s hs => h'.grows (h.grows hs), fun r hr => ?_, fun r hr hs => ?_, ?_⟩
  · rcases List.mem_append.mp hr with hr | hr
    · exact h'.grows (h.taken r hr)
    · exact h'.taken r hr
  · rcases List.mem_append.mp hr with hr | hr
    · exact h.fresh r hr hs
    · exact h'.fresh r hr (h.grows hs)
  · refine List.pairwise_append.mpr ⟨h.apart, h'.apart, fun a ha b hb hslot => ?_⟩
    exact h'.fresh b hb (hslot ▸ h.taken a ha)

end Takes

variable {site : Site} {σ σ' : State}

theorem slots_subset (h : σ.Beside σ') : σ.slots ⊆ σ'.slots := List.map_subset _ h.bindings

/-- A resource takes its slot. -/
theorem declareResource_takes {set : Attr UInt32} {v v' : External}
    (h : declareResource set v site σ = .ok (v', σ')) : Takes σ.slots σ'.slots [(site.conditional, v')] := by
  obtain ⟨⟨t, type⟩, σ₁, htype, h⟩ := bind_ok.mp h
  obtain ⟨u, σ₂, hcheck, h⟩ := bind_ok.mp h
  obtain ⟨ownSet, σ₃, hset, h⟩ := bind_ok.mp h
  obtain ⟨binding, σ₄, hbinding, h⟩ := bind_ok.mp h
  have hbefore : σ.Beside σ₄ := by
    refine ((apart_typeNote _).run htype).trans (((Apart.of_reads (reads_checkResourceType _ _)).run hcheck).trans ?_)
    exact ((apart_unsignedAttr _ _).run hset).trans ((apart_unsignedAttr _ _).run hbinding)
  cases hb : binding.value with
  | none =>
    simp only [hb] at h
    exact (reject_ok.mp h).elim
  | some b =>
    simp only [hb] at h
    obtain ⟨u, σ₅, htake, h⟩ := bind_ok.mp h
    obtain ⟨id, σ₆, hid, h⟩ := bind_ok.mp h
    obtain ⟨u, σ₇, hadd, h⟩ := bind_ok.mp h
    obtain ⟨u, σ₈, hdeclare, hpure⟩ := bind_ok.mp h
    obtain ⟨rfl, rfl⟩ := pure_ok.mp hpure
    obtain ⟨hshared, rfl⟩ := takeBinding_ok htake
    have hafter := ((apart_variableId _).run hid).trans
      (((apart_addVariable _ _).run hadd).trans ((apart_declare _ _ _).run hdeclare))
    have hslots := slots_subset hafter
    have hslot : ({ v with type, set := .known (ownSet.value.getD (set.value.getD 0)), binding, id } : External).slot =
        (ownSet.value.getD (set.value.getD 0), b) := by
      rw [External.slot, hb]
      rfl
    refine ⟨fun s hs => hslots (List.mem_cons_of_mem _ (slots_subset hbefore hs)), fun r hr => ?_, fun r hr hs => ?_,
      List.pairwise_singleton _ _⟩
    · rw [List.mem_singleton.mp hr, hslot]
      exact hslots List.mem_cons_self
    · rw [List.mem_singleton.mp hr] at hs ⊢
      rw [hslot] at hs
      obtain ⟨entry, hentry, hkey⟩ := List.mem_map.mp (slots_subset hbefore hs)
      exact hshared (List.lookup_isSome_iff.mpr ⟨entry, hentry, beq_iff_eq.mpr hkey.symm⟩)

theorem declareResources_takes {set : Attr UInt32} {vs vs' : List External}
    (h : declareResources set vs site σ = .ok (vs', σ')) :
    Takes σ.slots σ'.slots (vs'.map fun v => (site.conditional, v)) := by
  induction vs generalizing vs' σ with
  | nil =>
    obtain ⟨rfl, rfl⟩ := pure_ok.mp h
    exact .none (List.Subset.refl _)
  | cons v vs ih =>
    obtain ⟨v', σ₁, hfirst, h⟩ := bind_ok.mp h
    obtain ⟨ws, σ₂, hrest, hpure⟩ := bind_ok.mp h
    obtain ⟨rfl, rfl⟩ := pure_ok.mp hpure
    exact (declareResource_takes hfirst).append (ih hrest)

theorem declareExternals_takes {span : Span} {set set' : Attr UInt32} {vars vars' : List External}
    (h : declareExternals span set vars site σ = .ok ((set', vars'), σ')) :
    Takes σ.slots σ'.slots (Stmt.resources (site.conditional, .external span set' vars')) := by
  obtain ⟨u, σ₁, hscope, h⟩ := bind_ok.mp h
  obtain ⟨ownSet, σ₂, hset, h⟩ := bind_ok.mp h
  obtain ⟨vs, σ₃, hvars, hpure⟩ := bind_ok.mp h
  obtain ⟨heq, rfl⟩ := pure_ok.mp hpure
  cases heq
  have hbefore := ((Apart.of_reads (reads_requireModuleScope _ _)).run hscope).trans ((apart_unsignedAttr _ _).run hset)
  have htakes := declareResources_takes hvars
  exact (Takes.none (slots_subset hbefore)).append htakes

variable {settings : CheckSettings} {Good : List (Text × Module) → Text → Module → Prop} {load : Loader}

/-- The resources of a module take their slots in the order of its declarations. -/
theorem takes_walk {ls rs : List (Bool × Stmt)} (h : Walk settings (State.Grows Good) load σ ls rs σ') :
    Takes σ.slots σ'.slots (rs.flatMap Stmt.resources) := by
  induction h with
  | between h => exact .none (List.map_subset _ h.bindings)
  | leaveOut => exact .none (List.Subset.refl _)
  | declaration c hsite hdeclares hgrows =>
    rw [List.flatMap_singleton]
    cases hdeclares with
    | external h => exact declareExternals_takes h
    | _ => exact .none (List.map_subset _ hgrows.bindings)
  | append _ _ ih ih' =>
    rw [List.flatMap_append]
    exact ih.append ih'

end Check

/-- Of two resources with one slot, the later one stands under a condition. -/
def SlotsApart (rs : List (Bool × External)) : Prop := rs.Pairwise fun a b => a.2.slot = b.2.slot → b.1 = true

/-- In a checked module and in those that it imports, two resources share a slot only if the later one stands under
a condition that is not known yet. -/
theorem Module.slotsApart_resources {settings : CheckSettings} {m r : Module} (h : m.check settings = .ok r) :
    ∀ u ∈ r.imported.map (·.2) ++ [r], SlotsApart u.resources := by
  have hgood : Check.MakesGood settings fun _ _ r => SlotsApart r.resources := by
    intro load name m r σ σ' hload _ _ _ hbody
    exact (Check.takes_walk (Check.walk_body hload rfl rfl false hbody)).apart
  obtain ⟨⟨load, σ, -, -, hwalk⟩, himported⟩ := Check.check_walk hgood h
  intro u hu
  rcases List.mem_append.mp hu with hu | hu
  · obtain ⟨x, hx, rfl⟩ := List.mem_map.mp hu
    exact himported x hx
  · rw [List.mem_singleton.mp hu]
    exact (Check.takes_walk hwalk).apart

def Declaration.external? : Declaration → Option External
  | .external v => some v
  | _ => none

/-- Variables are resources of a module in their order, and two of them share a slot only if the later one stands
under a condition. -/
def Module.Spaces (m : Module) (vs : List External) : Prop :=
  ∃ rs, rs.Sublist m.resources ∧ rs.map (·.2) = vs ∧ SlotsApart rs

namespace Specialization

theorem externals_declared (own : Bool) (l : Bool × Stmt) :
    (declared own l).filterMap Declaration.external? = l.2.externals := by
  obtain ⟨c, s⟩ := l
  cases s with
  | external span set vars =>
    change (vars.map Declaration.external).filterMap Declaration.external? = vars
    rw [List.filterMap_map]
    exact List.filterMap_some
  | _ => rfl

/-- The variables that are there under the values of the constants. -/
theorem spaces_collect {c : Constants} {own unconditional : Bool} {m : Module} {ds : List Declaration}
    (hm : SlotsApart m.resources) (h : collect c own unconditional m.rootStmt = .ok ds) :
    m.Spaces (ds.filterMap Declaration.external?) := by
  obtain ⟨ms, hms, rfl⟩ := collect_leaves unconditional m.rootStmt h
  have hstmts := hms.map (·.2)
  rw [Stmt.leaves_map_snd] at hstmts
  obtain ⟨ns, hns, hsame⟩ := List.sublist_map_iff.mp hstmts
  have hresources : (ns.flatMap Stmt.resources).Sublist m.resources := hns.flatMap _
  refine ⟨ns.flatMap Stmt.resources, hresources, ?_, hm.sublist hresources⟩
  calc (ns.flatMap Stmt.resources).map (·.2)
    _ = (ns.map (·.2)).flatMap Stmt.externals := by
      rw [List.map_flatMap, List.flatMap_map]
      refine List.flatMap_congr fun l _ => ?_
      rw [Stmt.resources, List.map_map]
      exact List.map_id _
    _ = (ms.map (·.2)).flatMap Stmt.externals := by rw [hsame]
    _ = (ms.flatMap (declared own)).filterMap Declaration.external? := by
      rw [List.filterMap_flatMap, List.flatMap_map]
      exact List.flatMap_congr fun l _ => (externals_declared own l).symm

/-- The resources of a specialized module: those of its modules, one after the other. -/
theorem externals_spaces {r : Module} {settings : CheckSettings} {s : Specialization}
    (h : ofModule (some r) settings = .ok s) :
    ∃ vss, s.externals = vss.flatten ∧
      List.Forall₂ Module.Spaces (s.result.imported.map (·.2) ++ [s.result]) vss := by
  obtain ⟨hcheck, imported, own, himported, hown, hdeclarations⟩ := ofModule_ok h
  have happart := Module.slotsApart_resources hcheck
  refine ⟨imported.map (·.filterMap Declaration.external?) ++ [own.filterMap Declaration.external?], ?_, ?_⟩
  · change s.declarations.filterMap Declaration.external? = _
    rw [hdeclarations, List.filterMap_append, List.filterMap_flatten, List.flatten_append, List.flatten_singleton]
  · refine List.rel_append (List.forall₂_map_left_iff.mpr (List.forall₂_map_right_iff.mpr ?_)) (.cons ?_ .nil)
    · have hboth := (List.forall₂_and_left (p := fun i : Text × Module => SlotsApart i.2.resources) _ _).mpr
        ⟨fun i hi => happart _ (List.mem_append_left _ (List.mem_map_of_mem hi)), mapM_eq_ok_iff.mp himported⟩
      exact hboth.imp fun _ _ h => spaces_collect h.1 h.2
    · exact spaces_collect (happart _ (List.mem_append_right _ List.mem_cons_self)) hown

end Specialization

/-- The enabled resources of a checked module and of those that it imports, under any values of its constants. In a
specialized module they stand one module after the other. -/
theorem Module.externals_apart {settings : CheckSettings} {m r : Module} (h : m.check settings = .ok r) :
    (∀ u ∈ r.imported.map (·.2) ++ [r], ∀ (c : Constants) (own unconditional : Bool) (ds : List Declaration),
      Specialization.collect c own unconditional u.rootStmt = .ok ds →
        u.Spaces (ds.filterMap Declaration.external?)) ∧
    ∀ (lowerings : CheckSettings) (s : Specialization), Specialization.ofModule (some r) lowerings = .ok s →
      ∃ vss, s.externals = vss.flatten ∧
        List.Forall₂ Module.Spaces (s.result.imported.map (·.2) ++ [s.result]) vss :=
  ⟨fun u hu _ _ _ _ hcollect => Specialization.spaces_collect (Module.slotsApart_resources h u hu) hcollect,
    fun _ _ hs => Specialization.externals_spaces hs⟩

/-- What is read of a module: the slots of its enabled resources, the slots of the resources in each of its modules,
and whether it can be written. -/
def readSlots (source : Text) (settings : CheckSettings) :
    Option (List (UInt32 × UInt32) × List (List (UInt32 × UInt32)) × Bool) := do
  let m ← (Module.parse source).toOption
  let r ← (m.check settings).toOption
  let s ← (Specialization.ofModule (some r) (Spirv.Settings.lowerings {})).toOption
  let words ← (Spirv.generate (some r) {}).toOption
  let units := s.result.imported.map (·.2) ++ [s.result]
  return (s.externals.map External.slot, units.map (·.resources.map (·.2.slot)), words.isEmpty)

theorem readSlots_ok {source : Text} {settings : CheckSettings} {slots : List (UInt32 × UInt32)}
    {each : List (List (UInt32 × UInt32))} {b : Bool} (h : readSlots source settings = some (slots, each, b)) :
    ∃ (m r : Module) (s : Specialization) (words : List UInt32), m.check settings = .ok r ∧
      Specialization.ofModule (some r) (Spirv.Settings.lowerings {}) = .ok s ∧
      Spirv.generate (some r) {} = .ok words ∧ s.externals.map External.slot = slots ∧
      (s.result.imported.map (·.2) ++ [s.result]).map (·.resources.map (·.2.slot)) = each := by
  obtain ⟨m, -, hrun⟩ := Option.bind_eq_some_iff.mp h
  obtain ⟨r, hcheck, hrun⟩ := Option.bind_eq_some_iff.mp hrun
  obtain ⟨s, hs, hrun⟩ := Option.bind_eq_some_iff.mp hrun
  obtain ⟨words, hwords, hrun⟩ := Option.bind_eq_some_iff.mp hrun
  cases hrun
  exact ⟨m, r, s, words, ok_of_toOption hcheck, ok_of_toOption hs, ok_of_toOption hwords, rfl, rfl⟩

/-- Two resources with one slot. The second one stands under a condition on an option without a value. -/
def overlappingText : Text := Text.join "\n" [
  "module;",
  "option wide: bool = true;",
  "external",
  "\x7b",
  "  [binding(0)] narrow: sampler2D[f32]",
  "\x7d",
  "[cond(wide)]",
  "external",
  "\x7b",
  "  [binding(0)] broad: sampler2D[f32]",
  "\x7d",
  "[entry(frag)]",
  "fn main()",
  "\x7b",
  "\x7d"]

theorem readSlots_overlapping : readSlots overlappingText {} = some ([(0, 0), (0, 0)], [[(0, 0), (0, 0)]], false) := by
  decide +kernel

/-- The resources of the sample are apart although they share their slot. -/
theorem externals_apart_overlapping : ∃ (m r : Module) (s : Specialization) (vss : List (List External)),
    m.check {} = .ok r ∧ Specialization.ofModule (some r) (Spirv.Settings.lowerings {}) = .ok s ∧
    s.externals.length = 2 ∧ s.externals = vss.flatten ∧
    List.Forall₂ Module.Spaces (s.result.imported.map (·.2) ++ [s.result]) vss := by
  obtain ⟨m, r, s, words, hcheck, hs, -, hslots, -⟩ := readSlots_ok readSlots_overlapping
  obtain ⟨vss, hvss, hspaces⟩ := (Module.externals_apart hcheck).2 _ s hs
  have hlength : s.externals.length = 2 := by
    rw [← List.length_map External.slot, hslots]
    rfl
  exact ⟨m, r, s, vss, hcheck, hs, hlength, hvss, hspaces⟩

/-- A module with a resource that has the slot of one in the module that it imports. -/
def sharingText : Text := Text.join "\n" [
  "module;",
  "import size from base;",
  "external",
  "\x7b",
  "  [binding(size)] broad: sampler2D[f32]",
  "\x7d",
  "[entry(frag)]",
  "fn main()",
  "\x7b",
  "\x7d"]

def sharedBaseText : Text := Text.join "\n" [
  "module base;",
  "[export] const size = u32(1);",
  "external",
  "\x7b",
  "  [binding(size)] narrow: sampler2D[f32]",
  "\x7d"]

def sharingSettings : CheckSettings where
  resolver := some ⟨["base"], fun _ => .ok (Module.parse sharedBaseText).toOption⟩

theorem readSlots_sharing :
    readSlots sharingText sharingSettings = some ([(0, 1), (0, 1)], [[(0, 1)], [(0, 1)]], false) := by
  decide +kernel

/-- Enabled resources can share a slot: within one module, and between modules that have no such resources. -/
theorem exists_shared_slot :
    (¬ ∀ (m r : Module) (settings : CheckSettings) (target : Spirv.Settings) (s : Specialization)
      (words : List UInt32), settings.lenient = false → settings.resolver = none → m.check settings = .ok r →
      Specialization.ofModule (some r) target.lowerings = .ok s → Spirv.generate (some r) target = .ok words →
      (s.externals.map External.slot).Nodup) ∧
    ¬ ∀ (m r : Module) (settings : CheckSettings) (target : Spirv.Settings) (s : Specialization)
      (words : List UInt32), settings.lenient = false → m.check settings = .ok r →
      Specialization.ofModule (some r) target.lowerings = .ok s → Spirv.generate (some r) target = .ok words →
      (∀ u ∈ s.result.imported.map (·.2) ++ [s.result], (u.resources.map (·.2.slot)).Nodup) →
      (s.externals.map External.slot).Nodup := by
  constructor
  · intro h
    obtain ⟨m, r, s, words, hcheck, hs, hwords, hslots, -⟩ := readSlots_ok readSlots_overlapping
    have hnodup := h m r {} {} s words rfl rfl hcheck hs hwords
    rw [hslots] at hnodup
    exact absurd hnodup (by decide)
  · intro h
    obtain ⟨m, r, s, words, hcheck, hs, hwords, hslots, heach⟩ := readSlots_ok readSlots_sharing
    have hunits : ∀ u ∈ s.result.imported.map (·.2) ++ [s.result], (u.resources.map (·.2.slot)).Nodup := by
      intro u hu
      have hslot := List.mem_map_of_mem (f := fun u : Module => u.resources.map (·.2.slot)) hu
      rw [heach] at hslot
      simp only [List.mem_cons, List.not_mem_nil, or_false, or_self] at hslot
      rw [hslot]
      exact List.nodup_singleton _
    have hnodup := h m r sharingSettings {} s words rfl hcheck hs hwords hunits
    rw [hslots] at hnodup
    exact absurd hnodup (by decide)

end Shading
