import Shading.Proofs.Glsl.Identifier
import Shading.Proofs.Glsl.Naming

/-! Which names of a shader GLSL leaves to programs. All names that are wanted are such names, and so are those of
members. A number behind a name that is given already, and a beginning of the generator's own in front of one, can make
it one that the language reserves. -/
namespace Shading.Glsl

theorem legal_base (s : Subject) : Legal s.base := by
  cases s with
  | declared kind id identifier => exact legal_escape identifier
  | result => exact legal_escape _
  | input => exact legal_of_start (by decide) (.inl ⟨"nzslInput", rfl⟩)
  | output => exact legal_of_start (by decide) (.inl ⟨"nzslOutput", rfl⟩)

/-- A given name is left to programs if it is the wanted one, or if a number can stand behind that. -/
theorem legal_derived_iff {s : Subject} {name : Text} (h : Namer.Derived s.base name) :
    Legal name ↔ name = s.base ∨ Numberable s.base := by
  rcases h with rfl | ⟨n, rfl⟩
  · simp [legal_base]
  · rw [legal_numbered_iff (legal_base s), or_iff_right]
    exact Namer.numbered_ne s.base n

/-- The name of the block of a resource that has a name itself. -/
def blockName (name : Text) : Text := "_nzslBinding_" ++ name

/-- A block is written under the name that its resource makes for it. -/
theorem blockLines_eq (start name : Text) (r : Record Ty) : blockLines start name r = (do
    let members ← memberLines r.name r.members
    return block (start ++ " " ++ blockName name ++ " ") members [closing ++ " " ++ name ++ ";"]) := by
  have hhead : start ++ " _nzslBinding_" ++ name ++ " " = start ++ " " ++ blockName name ++ (" " : Text) := by
    rw [blockName, ← List.append_assoc, List.append_assoc start " "]
    rfl
  rw [blockLines, hhead]

theorem legal_blockName_iff {name : Text} :
    Legal (blockName name) ↔ ¬ IsDoubled name ∧ name.head? ≠ some (Text.byte '_') :=
  legal_behind_iff (by decide) (by decide) (by decide)

/-- Variables between stages are named by their numbers, and those at the ends of the pipeline by the members of the
source, which are not escaped. -/
theorem legal_interfaceName_iff {stage : Stage} {output : Bool} {m : StructMember} :
    Legal (interfaceName stage output m) ↔
      isVarying stage output ∨ (¬ IsDoubled m.name ∧ m.name.head? ≠ some (Text.byte '_')) := by
  unfold interfaceName
  split
  · next hvarying =>
    have hsingle : ¬ IsDoubled ("_nzslVarying" ++ Text.ofNat (m.location.value.getD 0).toNat) := by
      rw [isDoubled_append_iff]
      rintro (hone | hnumber | ⟨hlast, -⟩)
      · exact absurd hone (by decide)
      · exact not_isDoubled_of_not_mem (underscore_not_mem_ofNat _) hnumber
      · exact absurd hlast (by decide)
    exact iff_of_true (legal_of_start hsingle (.inl ⟨_, rfl⟩)) (.inl hvarying)
  · next hend =>
    split
    · rw [legal_behind_iff (by decide) (by decide) (by decide), or_iff_right hend]
    · rw [legal_behind_iff (by decide) (by decide) (by decide), or_iff_right hend]

theorem base_ne_nil (s : Subject) : s.base ≠ [] := by
  cases s with
  | declared kind id identifier => exact escape_ne_nil identifier
  | result => exact escape_ne_nil _
  | input => decide
  | output => decide

/-- The name of a block is left to programs unless two underscores meet behind its beginning or in front of a number. -/
theorem legal_block_of_derived_iff {s : Subject} {name : Text} (h : Namer.Derived s.base name) :
    Legal (blockName name) ↔ s.base.head? ≠ some (Text.byte '_') ∧
      (name = s.base ∨ s.base.getLast? ≠ some (Text.byte '_')) := by
  have hsingle := (legal_base s).separated
  rw [legal_blockName_iff, and_comm]
  rcases h with rfl | ⟨n, rfl⟩
  · simp [hsingle]
  · have hhead : (Namer.numbered s.base n).head? = s.base.head? := by
      rw [Namer.numbered_eq, List.head?_append_of_ne_nil _ (base_ne_nil s)]
    rw [hhead, isDoubled_numbered_iff hsingle, or_iff_right (Namer.numbered_ne s.base n)]

namespace NamesApart

variable {c : Context} {entry : FunctionDecl} {σ : State} {given : List (Subject × Text)}

theorem legal_iff (h : NamesApart c entry σ given) {g : Subject × Text} (hg : g ∈ given) :
    Legal g.2 ↔ g.2 = g.1.base ∨ Numberable g.1.base := legal_derived_iff (h.derived g hg)

/-- Names are left to programs where no identifier ends in an underscore. -/
theorem legal (h : NamesApart c entry σ given) (hplain : ∀ kind id identifier,
    .declared kind id identifier ∈ Glsl.subjects c entry →
      identifier ≠ Text.ofString "gl" ∧ identifier.getLast? ≠ some (Text.byte '_')) :
    ∀ g ∈ given, Legal g.2 := by
  intro g hg
  refine (h.legal_iff hg).mpr (.inr ?_)
  cases hs : g.1 with
  | declared kind id identifier =>
    have hmem : .declared kind id identifier ∈ Glsl.subjects c entry := by
      rw [← h.subjects, List.mem_filter]
      exact ⟨List.mem_map.mpr ⟨g, hg, hs⟩, rfl⟩
    obtain ⟨hgl, hlast⟩ := hplain kind id identifier hmem
    exact numberable_escape hgl hlast
  | result => exact numberable_escape (by decide) (by decide)
  | input => exact ⟨by decide, by decide⟩
  | output => exact ⟨by decide, by decide⟩

end NamesApart

/-- All names of a shader are left to programs, apart from those with a number behind `gl` or behind an underscore. The
names of blocks are as well where no two underscores meet. -/
theorem generate_namesLegal {m : Option Module} {target : Settings} {text : Text} (hrun : generate m target = .ok text) :
    ∃ (source : Specialization) (entry : FunctionDecl) (lines : List Text) (σ : State) (given : List (Subject × Text)),
      Specialization.ofModule m { reduceLoops := true, values := target.values } = .ok source ∧
      entryPoint ⟨target, source⟩ = .ok entry ∧ shaderLines entry ⟨target, source⟩ {} = .ok (lines, σ) ∧
      text = lines.flatMap (· ++ [Text.byte '\n']) ∧ NamesApart ⟨target, source⟩ entry σ given ∧
      ∀ g ∈ given, (Legal g.2 ↔ g.2 = g.1.base ∨ Numberable g.1.base) ∧
        (Legal (blockName g.2) ↔ g.1.base.head? ≠ some (Text.byte '_') ∧
          (g.2 = g.1.base ∨ g.1.base.getLast? ≠ some (Text.byte '_'))) := by
  obtain ⟨source, entry, lines, σ, hsource, hentry, hlines, htext⟩ := generate_ok hrun
  obtain ⟨given, hgives, hsubjects⟩ := shaderLines_gives hlines
  have happart := namesApart_of_gives hgives hsubjects
  refine ⟨source, entry, lines, σ, given, hsource, hentry, hlines, htext, happart, fun g hg => ⟨?_, ?_⟩⟩
  · exact happart.legal_iff hg
  · exact legal_block_of_derived_iff (happart.derived g hg)

end Shading.Glsl

-- The names of members. A member is declared under what its identifier is escaped to, and the same name stands
-- wherever the member is read or filled. Two members of a structure share a name only if their identifiers are alike.
namespace Shading

/-- The member that a constant selects is the one whose number the constant is. -/
theorem Constants.memberOf_eq_ok {c : Constants} {r : Record Ty} {index : Expr} {n : Nat} {m : Text × Ty}
    (h : c.memberOf r index = .ok (n, m)) :
    ∃ v, index.evaluate c.get? = .ok v ∧ v.toInt? = some (n : Int) ∧ r.members[n]? = some m := by
  rw [memberOf] at h
  cases hv : index.evaluate c.get? with
  | error e =>
    rw [hv] at h
    cases h
  | ok v =>
    rw [hv] at h
    dsimp only at h
    split at h
    · next k x hfound =>
      cases h
      obtain ⟨i, hi, hfound⟩ := Option.bind_eq_some_iff.mp hfound
      split at hfound
      · cases hfound
      · next hnonnegative =>
        obtain ⟨x, hx, hpair⟩ := Option.bind_eq_some_iff.mp hfound
        cases hpair
        refine ⟨v, rfl, ?_, hx⟩
        rw [hi, Int.toNat_of_nonneg (Int.not_lt.mp hnonnegative)]
    · cases h

namespace Glsl

section

variable {ms : List (Text × Ty)}

/-- The names of members tell them apart unless two of them are alike. -/
theorem nodup_members_iff : (ms.map fun m => escape m.1).Nodup ↔ ms.Pairwise fun m n => ¬ Alike m.1 n.1 := by
  rw [List.Nodup, List.pairwise_map]
  simp only [ne_eq, escape_eq_escape_iff]

theorem nodup_members_of_plain (hnodup : (ms.map (·.1)).Nodup) (hplain : ∀ m ∈ ms, Plain m.1) :
    (ms.map fun m => escape m.1).Nodup := by
  rw [nodup_members_iff]
  rw [List.Nodup, List.pairwise_map] at hnodup
  refine hnodup.imp_of_mem fun hm hn hne halike => ?_
  exact hne ((hplain _ hm).eq_of_alike (hplain _ hn) halike)

end

section

variable {c : Context} {σ σ' : State}

/-- The members of a block are declared as those of a structure are. -/
theorem blockLines_ok {start name : Text} {r : Record Ty} {lines : List Text}
    (h : blockLines start name r c σ = .ok (lines, σ')) :
    σ'.structs = σ.structs ∧ ∃ members, List.Forall₂ (DeclaresMember σ.structs) r.members members ∧
      lines = block (start ++ " _nzslBinding_" ++ name ++ " ") members [closing ++ " " ++ name ++ ";"] := by
  obtain ⟨members, σ₁, hmembers, hlast⟩ := bind_ok.mp h
  cases hlast
  obtain ⟨hstructs, hdeclared⟩ := memberLines_ok hmembers
  exact ⟨hstructs, members, hdeclared, rfl⟩

/-- An access of a member is written with the name under which the member is declared. -/
theorem accesses_member {span : Span} {t : Ty} {r : Record Ty} {index : Expr} {indices : List Expr} {path : Text}
    (ht : t.container? = some r) (h : accesses span t (index :: indices) c σ = .ok (path, σ')) :
    ∃ n m rest, c.source.constants.memberOf r index = .ok (n, m) ∧ r.members[n]? = some m ∧
      accesses span m.2 indices c σ = .ok (rest, σ') ∧ path = "." ++ escape m.1 ++ rest := by
  rw [accesses, ht] at h
  obtain ⟨c', σ₁, hread, h⟩ := bind_ok.mp h
  cases hread
  obtain ⟨⟨n, m⟩, σ₂, hmember, h⟩ := bind_ok.mp h
  obtain ⟨rest, σ₃, hrest, hlast⟩ := bind_ok.mp h
  cases hlast
  cases hselected : c.source.constants.memberOf r index with
  | error e =>
    rw [hselected] at hmember
    cases hmember
  | ok selected =>
    rw [hselected] at hmember
    cases hmember
    obtain ⟨-, -, -, hm⟩ := Constants.memberOf_eq_ok hselected
    exact ⟨n, m, rest, rfl, hm, hrest, rfl⟩

/-- Where no two members are alike, the name in an access is that of one member only. -/
theorem accesses_member_iff {span : Span} {t : Ty} {r : Record Ty} {index : Expr} {indices : List Expr} {path : Text}
    (ht : t.container? = some r) (hapart : r.members.Pairwise fun m n => ¬ Alike m.1 n.1)
    (h : accesses span t (index :: indices) c σ = .ok (path, σ')) :
    ∃ n name rest, path = "." ++ name ++ rest ∧ (∃ m, c.source.constants.memberOf r index = .ok (n, m)) ∧
      ∀ j m, r.members[j]? = some m → (escape m.1 = name ↔ j = n) := by
  obtain ⟨n, m, rest, hselected, hm, -, rfl⟩ := accesses_member ht h
  refine ⟨n, escape m.1, rest, rfl, ⟨m, hselected⟩, fun j m' hm' => ⟨fun hname => ?_, ?_⟩⟩
  · have hnodup := nodup_members_iff.mpr hapart
    have hlt : j < (r.members.map fun m => escape m.1).length := by
      rw [List.length_map]
      exact (List.getElem?_eq_some_iff.mp hm').1
    refine (List.getElem?_inj hlt hnodup).mp ?_
    rw [List.getElem?_map, List.getElem?_map, hm, hm', Option.map_some, Option.map_some, hname]
  · rintro rfl
    rw [hm] at hm'
    cases hm'
    rfl

/-- A member that the entry point takes or gives is filled or read under its name. -/
theorem memberVariable_ok {output : Bool} {m : StructMember} {p : Text × Text}
    (h : memberVariable output m c σ = .ok (p, σ')) : p.1 = escape m.name := by
  unfold memberVariable at h
  cases hbuiltin : m.builtin.value with
  | some b =>
    rw [hbuiltin] at h
    cases hvariable : builtinVariable? b with
    | some v =>
      simp only [hvariable] at h
      cases h
      rfl
    | none =>
      simp only [hvariable] at h
      cases h
  | none =>
    rw [hbuiltin] at h
    cases hlocation : m.location.value with
    | some l =>
      rw [hlocation] at h
      obtain ⟨c', σ₁, hread, hlast⟩ := bind_ok.mp h
      cases hlast
      rfl
    | none =>
      rw [hlocation] at h
      cases h

theorem memberVariables_ok {output : Bool} {ms : List StructMember} {ps : List (Text × Text)}
    (h : ms.mapM (memberVariable output) c σ = .ok (ps, σ')) : ps.map (·.1) = ms.map fun m => escape m.name := by
  obtain ⟨bs, rfl, rfl, hwritten⟩ := mapM_ok h
  rw [List.map_map, List.map_map]
  refine List.map_congr_left fun b hb => ?_
  obtain ⟨σ, σ', hvariable⟩ := hwritten b hb
  exact memberVariable_ok hvariable

end

/-- In each structure of a shader the members are declared under what their identifiers are escaped to. -/
theorem generate_membersNamed {m : Option Module} {target : Settings} {text : Text}
    (hrun : generate m target = .ok text) :
    ∃ (source : Specialization) (entry : FunctionDecl) (parts : Parts),
      Specialization.ofModule m { reduceLoops := true, values := target.values } = .ok source ∧
      entryPoint ⟨target, source⟩ = .ok entry ∧
      text = (parts.lines target.targetVersion).flatMap (· ++ [Text.byte '\n']) ∧
      ∀ b ∈ parts.structs, ∃ names name members,
        List.Forall₂ (DeclaresMember names) (recordOf b.1).members members ∧
        b.2 = block ("struct " ++ name ++ " ") members [closing ++ ";", []] := by
  obtain ⟨source, entry, lines, σ, hsource, hentry, hlines, htext⟩ := generate_ok hrun
  obtain ⟨parts, rfl, hwritten, -⟩ := shaderLines_ok hlines
  refine ⟨source, entry, parts, hsource, hentry, htext, fun b hb => ?_⟩
  obtain ⟨σ₁, σ₂, hblock⟩ := hwritten.structs b hb
  obtain ⟨-, members, hdeclared, heq⟩ := structBlock_ok hblock
  exact ⟨σ₁.structs, _, members, hdeclared, heq⟩

end Glsl

end Shading
