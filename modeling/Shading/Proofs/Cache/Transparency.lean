import Shading.Cache
import Shading.Proofs.Value.Text

/-! A cache answers as if every compilation were done anew. The key of a compilation tells all that the compilation
depends on: every part of it shows where it ends. -/
namespace Shading

theorem Target.ofCode_code (t : Target) : ofCode t.code = t := by
  cases t with
  | reserved c => simp [ofCode, code, c.large]
  | _ => rfl

namespace CacheKey

open Wire (uvarint)

variable {α β : Type}

/-- Among some values, a text shows which value it stands for and where it ends, whatever follows. -/
def Delimits (P : α → Prop) (f : α → Text) : Prop :=
  ∀ a b s t, P a → P b → f a ++ s = f b ++ t → a = b ∧ s = t

theorem Delimits.comp {P : α → Prop} {Q : β → Prop} {f : α → Text} (h : Delimits P f) {g : β → α}
    (hg : g.Injective) (hP : ∀ b, Q b → P (g b)) : Delimits Q fun b => f (g b) := by
  intro a b s t ha hb heq
  obtain ⟨hsame, hrest⟩ := h _ _ s t (hP a ha) (hP b hb) heq
  exact ⟨hg hsame, hrest⟩

theorem Delimits.append {P : α → Prop} {Q : β → Prop} {f : α → Text} {g : β → Text} (hf : Delimits P f)
    (hg : Delimits Q g) : Delimits (fun x : α × β => P x.1 ∧ Q x.2) fun x => f x.1 ++ g x.2 := by
  intro a b s t ha hb heq
  rw [List.append_assoc, List.append_assoc] at heq
  obtain ⟨hfirst, heq⟩ := hf _ _ _ _ ha.1 hb.1 heq
  obtain ⟨hsecond, hrest⟩ := hg _ _ _ _ ha.2 hb.2 heq
  exact ⟨Prod.ext hfirst hsecond, hrest⟩

theorem delimits_uvarint : Delimits (fun _ => True) uvarint := by
  intro m n s t _ _ h
  have hbyte {k : Nat} (hk : k < 256) : k.toUInt8.toNat = k := UInt8.toNat_ofNat_of_lt' hk
  induction m using Nat.strongRecOn generalizing n with
  | ind m ih =>
    rw [uvarint, uvarint.eq_def n] at h
    split at h <;> split at h
    · injection h with hhead hrest
      have hsame := congrArg UInt8.toNat hhead
      rw [hbyte (by omega), hbyte (by omega)] at hsame
      exact ⟨hsame, hrest⟩
    · injection h with hhead
      have hsame := congrArg UInt8.toNat hhead
      rw [hbyte (by omega), hbyte (by omega)] at hsame
      omega
    · injection h with hhead
      have hsame := congrArg UInt8.toNat hhead
      rw [hbyte (by omega), hbyte (by omega)] at hsame
      omega
    · injection h with hhead hrest
      have hsame := congrArg UInt8.toNat hhead
      rw [hbyte (by omega), hbyte (by omega)] at hsame
      obtain ⟨hhigh, hrest⟩ := ih (m / 128) (by omega) (n / 128) hrest
      exact ⟨by omega, hrest⟩

theorem delimits_field : Delimits (fun _ => True) field := by
  intro a b s t _ _ h
  rw [field, field, List.append_assoc, List.append_assoc] at h
  obtain ⟨hlength, h⟩ := delimits_uvarint _ _ _ _ trivial trivial h
  exact List.append_inj h hlength

theorem delimits_flag : Delimits (fun _ => True) flag :=
  delimits_uvarint.comp (fun a b => by cases a <;> cases b <;> decide) fun _ _ => trivial

theorem delimits_byte : Delimits (fun _ => True) fun b : UInt8 => uvarint b.toNat :=
  delimits_uvarint.comp (fun _ _ => UInt8.toNat_inj.mp) fun _ _ => trivial

theorem delimits_word : Delimits (fun _ => True) fun n : UInt32 => uvarint n.toNat :=
  delimits_uvarint.comp (fun _ _ => UInt32.toNat_inj.mp) fun _ _ => trivial

/-- The number of the parts of a list stands in front of them. -/
theorem Delimits.list {P : α → Prop} {f : α → Text} (h : Delimits P f) :
    Delimits (fun as : List α => ∀ a ∈ as, P a) fun as => uvarint as.length ++ as.flatMap f := by
  intro as bs s t has hbs heq
  rw [List.append_assoc, List.append_assoc] at heq
  obtain ⟨hlength, hparts⟩ := delimits_uvarint _ _ _ _ trivial trivial heq
  clear heq
  induction as generalizing bs with
  | nil =>
    rw [List.length_eq_zero_iff.mp hlength.symm] at hparts ⊢
    exact ⟨rfl, hparts⟩
  | cons a as ih =>
    cases bs with
    | nil => cases hlength
    | cons b bs =>
      rw [List.forall_mem_cons] at has hbs
      rw [List.flatMap_cons, List.flatMap_cons, List.append_assoc, List.append_assoc] at hparts
      obtain ⟨rfl, hbehind⟩ := h a b _ _ has.1 hbs.1 hparts
      obtain ⟨rfl, hrest⟩ := ih bs has.2 hbs.2 (Nat.succ.inj hlength) hbehind
      exact ⟨rfl, hrest⟩

variable {S : Set Single} {D : Set Double}

theorem delimits_value (hS : S.InjOn Single.text) (hD : D.InjOn Double.text) :
    Delimits (Value.WellFormed S D) value := by
  have hvalue {v : Value} (hv : Value.WellFormed S D v) : value v = field v.type.text ++ field v.text := by
    cases hv with
    | scalar h => cases h <;> rfl
    | _ => rfl
  intro v w s t hv hw h
  rw [hvalue hv, hvalue hw, List.append_assoc, List.append_assoc] at h
  obtain ⟨htype, h⟩ := delimits_field _ _ _ _ trivial trivial h
  obtain ⟨htext, hrest⟩ := delimits_field _ _ _ _ trivial trivial h
  exact ⟨hv.eq_of_text hS hD hw htype htext, hrest⟩

theorem delimits_optionValues (hS : S.InjOn Single.text) (hD : D.InjOn Double.text) :
    Delimits (fun o : OptionValues => ∀ e ∈ o.entries, e.2.WellFormed S D) optionValues := by
  have hentry : Delimits (fun e : UInt32 × Value => True ∧ e.2.WellFormed S D) entry :=
    delimits_word.append (delimits_value hS hD)
  exact hentry.list.comp (fun _ _ h => Table.ext h) fun o ho e he => ⟨trivial, ho e he⟩

theorem delimits_bindings : Delimits (fun _ => True) fun bs : Glsl.BindingPoints =>
    uvarint bs.entries.length ++ bs.entries.flatMap bindingPoint := by
  have hpoint : Delimits (fun _ => True) bindingPoint := by
    intro a b s t _ _ h
    simp only [bindingPoint, List.append_assoc] at h
    obtain ⟨hset, h⟩ := delimits_word _ _ _ _ trivial trivial h
    obtain ⟨hbinding, h⟩ := delimits_word _ _ _ _ trivial trivial h
    obtain ⟨hnumber, hrest⟩ := delimits_word _ _ _ _ trivial trivial h
    exact ⟨Prod.ext (Prod.ext hset hbinding) hnumber, hrest⟩
  exact hpoint.list.comp (fun _ _ h => Table.ext h) fun _ _ _ _ => trivial

theorem delimits_capabilities : Delimits (fun _ => True) fun cs : List UInt32 =>
    uvarint cs.length ++ cs.flatMap fun c => uvarint c.toNat :=
  delimits_word.list.comp Function.injective_id fun _ _ _ _ => trivial

/-- What is generated for a set of stages is the same for both settings. -/
theorem spirv_inj {s s' : Spirv.Settings} (h : spirv s = spirv s') (o : OptionValues) (stages : List Stage) :
    { s with values := o, stages } = { s' with values := o, stages } := by
  obtain ⟨⟨major, minor⟩, values, requested, capabilities, debug⟩ := s
  obtain ⟨⟨major', minor'⟩, values', requested', capabilities', debug'⟩ := s'
  obtain ⟨rfl, h⟩ := delimits_byte _ _ _ _ trivial trivial h
  obtain ⟨rfl, h⟩ := delimits_byte _ _ _ _ trivial trivial h
  obtain ⟨rfl, h⟩ := delimits_flag _ _ _ _ trivial trivial h
  rw [← List.append_nil (_ ++ _), ← List.append_nil (_ ++ List.flatMap _ capabilities')] at h
  obtain ⟨rfl, -⟩ := delimits_capabilities _ _ _ _ trivial trivial h
  rfl

/-- What is generated for a stage is the same for both settings. -/
theorem glsl_inj {s s' : Glsl.Settings} (h : glsl s = glsl s') (o : OptionValues) (stage : Stage) :
    { s with stage, values := o } = { s' with stage, values := o } := by
  obtain ⟨_, entryPoint, _, ⟨major, minor, ofEs⟩, es, flipY, remapZ, bindings⟩ := s
  obtain ⟨_, entryPoint', _, ⟨major', minor', ofEs'⟩, es', flipY', remapZ', bindings'⟩ := s'
  obtain ⟨rfl, h⟩ := delimits_byte _ _ _ _ trivial trivial h
  obtain ⟨rfl, h⟩ := delimits_byte _ _ _ _ trivial trivial h
  obtain ⟨rfl, h⟩ := delimits_flag _ _ _ _ trivial trivial h
  obtain ⟨rfl, h⟩ := delimits_flag _ _ _ _ trivial trivial h
  obtain ⟨rfl, h⟩ := delimits_field _ _ _ _ trivial trivial h
  obtain ⟨rfl, h⟩ := delimits_flag _ _ _ _ trivial trivial h
  obtain ⟨rfl, h⟩ := delimits_flag _ _ _ _ trivial trivial h
  rw [← List.append_nil (_ ++ _), ← List.append_nil (_ ++ List.flatMap _ bindings'.entries)] at h
  obtain ⟨rfl, -⟩ := delimits_bindings _ _ _ _ trivial trivial h
  rfl

/-- Two compilations that are asked for in the same way, apart from settings that do not matter for their
target. -/
structure Agree (s s' : CompileSettings) : Prop where
  target : s.target = s'.target
  stages : StageSet.ofStages s.stages = .ofStages s'.stages
  values : s.values = s'.values
  splitBranches : s.splitBranches = s'.splitBranches
  reduceLoops : s.reduceLoops = s'.reduceLoops
  removeMatrixCasts : s.removeMatrixCasts = s'.removeMatrixCasts
  spirv : s.target = .spirv → spirv s.spirv = CacheKey.spirv s'.spirv
  glsl : s.target = .glsl → glsl s.glsl = CacheKey.glsl s'.glsl

/-- Are the values that the settings give to options well-formed? -/
def ValuesWellFormed (S : Set Single) (D : Set Double) (s : CompileSettings) : Prop :=
  ∀ e ∈ s.values.entries, e.2.WellFormed S D

/-- The key is that of one compilation only. -/
theorem ofSettings_inj (hS : S.InjOn Single.text) (hD : D.InjOn Double.text) {name name' source source' : Text}
    {s s' : CompileSettings} (hs : ValuesWellFormed S D s) (hs' : ValuesWellFormed S D s')
    (h : ofSettings name source s = ofSettings name' source' s') :
    name = name' ∧ source = source' ∧ Agree s s' := by
  obtain ⟨hname, h⟩ := delimits_field _ _ _ _ trivial trivial h
  obtain ⟨hsource, h⟩ := delimits_field _ _ _ _ trivial trivial h
  obtain ⟨hcode, h⟩ := delimits_byte _ _ _ _ trivial trivial h
  obtain ⟨hbits, h⟩ := delimits_byte _ _ _ _ trivial trivial h
  obtain ⟨hvalues, h⟩ := delimits_optionValues hS hD _ _ _ _ hs hs' h
  obtain ⟨hsplit, h⟩ := delimits_flag _ _ _ _ trivial trivial h
  obtain ⟨hreduce, h⟩ := delimits_flag _ _ _ _ trivial trivial h
  obtain ⟨hremove, h⟩ := delimits_flag _ _ _ _ trivial trivial h
  have htarget : s.target = s'.target := by
    rw [← Target.ofCode_code s.target, hcode, Target.ofCode_code]
  have hstages : StageSet.ofStages s.stages = .ofStages s'.stages := congrArg StageSet.mk hbits
  refine ⟨hname, hsource, htarget, hstages, hvalues, hsplit, hreduce, hremove, fun ht => ?_, fun ht => ?_⟩
  · rw [target, target, ← htarget, ht] at h
    exact h
  · rw [target, target, ← htarget, ht] at h
    exact h

end CacheKey

theorem StageSet.has_single {s t : Stage} (hs : s ∈ Stage.named) (ht : t ∈ Stage.named) :
    (single s).has t ↔ s = t := by
  have hall : ∀ s ∈ Stage.named, ∀ t ∈ Stage.named, ((single s).has t ↔ s = t) := by decide
  exact hall s hs t ht

theorem StageSet.has_union {a b : StageSet} {s : Stage} : (a.union b).has s ↔ a.has s ∨ b.has s := by
  have hbits : (a.bits ||| b.bits) &&& (single s).bits = a.bits &&& (single s).bits ||| b.bits &&& (single s).bits :=
    UInt8.toBitVec_inj.mp BitVec.and_or_distrib_right
  simp only [has, union, hbits, bne_iff_ne, ne_eq, UInt8.or_eq_zero_iff, not_and_or]

/-- A set of known stages has those that it is made of. -/
theorem StageSet.has_ofStages {ss : List Stage} (hss : ∀ s ∈ ss, s ∈ Stage.named) {t : Stage} (ht : t ∈ Stage.named) :
    (ofStages ss).has t ↔ t ∈ ss := by
  have hfold : ∀ a : StageSet, ((ss.map single).foldl union a).has t ↔ a.has t ∨ t ∈ ss := by
    induction ss with
    | nil => simp
    | cons s ss ih =>
      rw [List.forall_mem_cons] at hss
      intro a
      rw [List.map_cons, List.foldl_cons, ih hss.2, has_union, has_single hss.1 ht, List.mem_cons, or_assoc,
        eq_comm (a := s)]
  have hempty : StageSet.empty.has t = false := by
    have hall : ∀ t ∈ Stage.named, StageSet.empty.has t = false := by decide
    exact hall t ht
  rw [ofStages, hfold, hempty]
  simp

namespace Artifact

open CacheKey (Agree)

/-- Known stages that make up one set are selected alike, if they are there. -/
theorem selectStages_of_sets {m : Module} {ss ss' : List Stage} (hss : ∀ s ∈ ss, s ∈ Stage.named)
    (hss' : ∀ s ∈ ss', s ∈ Stage.named) (hsame : StageSet.ofStages ss = .ofStages ss') {f : StageSet}
    (h : selectStages m ss = .ok f) : selectStages m ss' = .ok f := by
  have hmem : ∀ s ∈ Stage.named, s ∈ ss ↔ s ∈ ss' := fun s hs => by
    rw [← StageSet.has_ofStages hss hs, hsame, StageSet.has_ofStages hss' hs]
  have hempty : ss.isEmpty = ss'.isEmpty := by
    rw [Bool.eq_iff_iff, List.isEmpty_iff, List.isEmpty_iff, List.eq_nil_iff_forall_not_mem,
      List.eq_nil_iff_forall_not_mem]
    constructor
    · exact fun hno s hs => hno s ((hmem s (hss' s hs)).mpr hs)
    · exact fun hno s hs => hno s ((hmem s (hss s hs)).mp hs)
  rw [selectStages] at h ⊢
  rw [← hempty, ← hsame]
  split at h
  · cases h
  next hfound =>
  have hfound' : ss'.find? (fun s => !(StageSet.ofStages (m.entryPoints.filterMap (·.stage.value))).has s) = none :=
    List.find?_eq_none.mpr fun s hs => List.find?_eq_none.mp hfound s ((hmem s (hss' s hs)).mpr hs)
  rw [hfound']
  exact h

theorem generate_of_agree {r : Module} {s s' : CompileSettings} {a : Artifact} (hagree : Agree s s')
    (hss : ∀ t ∈ s.stages, t ∈ Stage.named) (hss' : ∀ t ∈ s'.stages, t ∈ Stage.named)
    (h : generate s r = .ok a) : generate s' r = .ok a := by
  rw [generate] at h ⊢
  obtain ⟨f, hf, h⟩ := bind_eq_ok h
  rw [selectStages_of_sets hss hss' hagree.stages hf]
  cases htarget : s.target with
  | spirv =>
    have hsettings := CacheKey.spirv_inj (hagree.spirv htarget) s.values f.stages
    have htarget' := hagree.target.symm.trans htarget
    simp only [htarget, htarget', hagree.values, bind, Except.bind, pure, Except.pure] at h hsettings ⊢
    rw [← hsettings]
    exact h
  | glsl =>
    have hsource : ∀ t, stageSource s r t = stageSource s' r t := by
      intro t
      rw [stageSource, stageSource, CacheKey.glsl_inj (hagree.glsl htarget) s.values t, hagree.values]
    have htarget' := hagree.target.symm.trans htarget
    simp only [htarget, htarget', funext hsource, bind, Except.bind, pure, Except.pure] at h ⊢
    exact h
  | reserved c =>
    rw [htarget] at h
    cases h

/-- What is compiled under some settings is compiled under those that agree with them. -/
theorem ofSource_of_agree {source : Text} {s s' : CompileSettings} {a : Artifact} (hagree : Agree s s')
    (hresolver : s.resolver = s'.resolver) (hss : ∀ t ∈ s.stages, t ∈ Stage.named)
    (hss' : ∀ t ∈ s'.stages, t ∈ Stage.named) (h : ofSource source s = .ok a) : ofSource source s' = .ok a := by
  have hcheck : s.check = s'.check := by
    simp only [CompileSettings.check, hresolver, hagree.values, hagree.splitBranches, hagree.reduceLoops,
      hagree.removeMatrixCasts]
  obtain ⟨m, hm, h⟩ := bind_eq_ok h
  obtain ⟨r, hr, h⟩ := bind_eq_ok h
  have hgenerate : generate s r = .ok a := by
    cases hg : generate s r with
    | error e =>
      rw [hg] at h
      cases h
    | ok b =>
      rw [hg] at h
      cases h
      rfl
  rw [ofSource, hm]
  change ofModule m s' = .ok a
  rw [ofModule, ← hcheck, hr]
  change (generate s' r).mapError (fun e => (⟨.generate, e⟩ : CompileError)) = .ok a
  rw [generate_of_agree hagree hss hss' hgenerate]
  rfl

end Artifact

namespace Cache

/-- A use of a cache. -/
inductive Request
  | compile (name source : Text) (settings : CompileSettings)
  | purge

namespace Request

/-- What is compiled without a cache. -/
def fresh (resolver : Option Resolver) : Request → Option (Except CompileError Artifact)
  | compile _ source s => some (Artifact.ofSource source { s with resolver })
  | purge => none

def key? : Request → Option Text
  | compile name source s => some (CacheKey.ofSettings name source s)
  | purge => none

/-- Are the stages known ones, and the values of options well-formed? -/
def Proper (S : Set Single) (D : Set Double) : Request → Prop
  | compile _ _ s => (∀ t ∈ s.stages, t ∈ Stage.named) ∧ CacheKey.ValuesWellFormed S D s
  | purge => True

variable {S : Set Single} {D : Set Double}

/-- What is compiled for a request is compiled for every request with its key. -/
theorem fresh_of_key (hS : S.InjOn Single.text) (hD : D.InjOn Double.text) {r r' : Request} (hr : r.Proper S D)
    (hr' : r'.Proper S D) {key : Text} (hkey : r.key? = some key) (hkey' : r'.key? = some key)
    {resolver : Option Resolver} {a : Artifact} (h : r.fresh resolver = some (.ok a)) :
    r'.fresh resolver = some (.ok a) := by
  cases r with
  | purge => cases hkey
  | compile name source s =>
    cases r' with
    | purge => cases hkey'
    | compile name' source' s' =>
      obtain ⟨-, rfl, hagree⟩ := CacheKey.ofSettings_inj hS hD hr.2 hr'.2 (Option.some.inj (hkey.trans hkey'.symm))
      have hagree' : CacheKey.Agree { s with resolver } { s' with resolver } := ⟨hagree.1, hagree.2, hagree.3,
        hagree.4, hagree.5, hagree.6, hagree.7, hagree.8⟩
      exact congrArg some (Artifact.ofSource_of_agree hagree' rfl hr.1 hr'.1 (Option.some.inj h))

end Request

/-- What a cache answers to a request, and what becomes of it. -/
def handle (c : Cache) : Request → Option (Except CompileError Artifact) × Cache
  | .compile name source s =>
    let (answer, c) := c.compile name source s
    (some (answer.map (·.2)), c)
  | .purge => (none, c.purge)

/-- The answers to requests that follow each other, and what becomes of the cache. -/
def run (c : Cache) : List Request → List (Option (Except CompileError Artifact)) × Cache
  | [] => ([], c)
  | r :: rs =>
    let (answer, c) := c.handle r
    let (answers, c) := c.run rs
    (answer :: answers, c)

/-- All that is kept was compiled for one of some requests and stands under its key. -/
def Keeps (c : Cache) (rs : List Request) : Prop :=
  ∀ e ∈ c.entries, ∃ r ∈ rs, ∃ key, r.key? = some key ∧ c.digest key = e.1 ∧ r.fresh c.resolver = some (.ok e.2.2)

/-- The keys of requests. -/
def keys (rs : List Request) : Set Text := {key | ∃ r ∈ rs, r.key? = some key}

variable {S : Set Single} {D : Set Double} {rs : List Request} {c : Cache} {r : Request}

theorem Keeps.fresh_of_lookup (hS : S.InjOn Single.text) (hD : D.InjOn Double.text)
    (hproper : ∀ r ∈ rs, r.Proper S D) (hdigest : (keys rs).InjOn c.digest) (h : c.Keeps rs) (hr : r ∈ rs)
    {key : Text} (hkey : r.key? = some key) {found : Nat × Artifact}
    (hfound : c.entries.lookup (c.digest key) = some found) : r.fresh c.resolver = some (.ok found.2) := by
  obtain ⟨before, after, hentries, -⟩ := List.lookup_eq_some_iff.mp hfound
  have hmem : (c.digest key, found) ∈ c.entries := by
    rw [hentries]
    exact List.mem_append_right _ List.mem_cons_self
  obtain ⟨r', hr', key', hkey', hsame, hfresh⟩ := h _ hmem
  have hkeys : key' = key := hdigest ⟨r', hr', hkey'⟩ ⟨r, hr, hkey⟩ hsame
  exact Request.fresh_of_key hS hD (hproper r' hr') (hproper r hr) hkey' (hkeys ▸ hkey) hfresh

/-- One request: the answer is that without a cache, what is kept stays right, nothing is kept of a failure,
and the request is counted if it is for a compilation. -/
theorem handle_step (hS : S.InjOn Single.text) (hD : D.InjOn Double.text) (hproper : ∀ r ∈ rs, r.Proper S D)
    (hdigest : (keys rs).InjOn c.digest) (h : c.Keeps rs) (hr : r ∈ rs) :
    (c.handle r).1 = r.fresh c.resolver ∧ (c.handle r).2.Keeps rs ∧
      (c.handle r).2.resolver = c.resolver ∧ (c.handle r).2.digest = c.digest ∧
      (c.handle r).2.hits + (c.handle r).2.misses = c.hits + c.misses + r.key?.toList.length := by
  cases r with
  | purge => exact ⟨rfl, fun e he => absurd he List.not_mem_nil, rfl, rfl, rfl⟩
  | compile name source s =>
    have hkey : (Request.compile name source s).key? =
        some (CacheKey.ofSettings name source { s with resolver := c.resolver }) := rfl
    rw [handle, compile, hkey]
    dsimp only
    split
    next found hlookup =>
      exact ⟨(h.fresh_of_lookup hS hD hproper hdigest hr hkey hlookup).symm, h, rfl, rfl, Nat.add_right_comm _ _ _⟩
    next hlookup =>
      split
      next e he => exact ⟨congrArg some he.symm, h, rfl, rfl, rfl⟩
      next a ha =>
        refine ⟨congrArg some ha.symm, fun e he => ?_, rfl, rfl, rfl⟩
        rcases List.mem_cons.mp he with rfl | he
        · exact ⟨_, hr, _, hkey, rfl, congrArg some ha⟩
        · exact h e he

/-- Requests that follow each other. -/
theorem run_steps (hS : S.InjOn Single.text) (hD : D.InjOn Double.text) (hproper : ∀ r ∈ rs, r.Proper S D)
    (hdigest : (keys rs).InjOn c.digest) (h : c.Keeps rs) {qs : List Request} (hqs : qs ⊆ rs) :
    (c.run qs).1 = qs.map (·.fresh c.resolver) ∧ (c.run qs).2.Keeps rs ∧
      (c.run qs).2.resolver = c.resolver ∧ (c.run qs).2.digest = c.digest ∧
      (c.run qs).2.hits + (c.run qs).2.misses = c.hits + c.misses + (qs.filterMap (·.key?)).length := by
  induction qs generalizing c with
  | nil => exact ⟨rfl, h, rfl, rfl, rfl⟩
  | cons q qs ih =>
    obtain ⟨hq, hqs⟩ := List.cons_subset.mp hqs
    obtain ⟨hanswer, hkeeps, hresolver, hsame, hcount⟩ := handle_step hS hD hproper hdigest h hq
    obtain ⟨hanswers, hkeeps', hresolver', hsame', hcount'⟩ := ih (hsame ▸ hdigest) hkeeps hqs
    rw [run]
    dsimp only
    refine ⟨?_, hkeeps', hresolver'.trans hresolver, hsame'.trans hsame, ?_⟩
    · rw [hanswer, hanswers, hresolver, List.map_cons]
    · rw [hcount', hcount, List.filterMap_cons]
      cases q.key? with
      | none => rfl
      | some key => exact Nat.add_right_comm _ _ _

/-- A cache is transparent. Whatever is compiled with it and whenever it is emptied, each compilation has the
result that it has without the cache. What is kept is the result of a compilation that was asked for, under
its key, and nothing is kept under the key of one that fails. Hits and misses add up to the number of
compilations. Floats have to be told apart by their texts, and keys by their digests. -/
theorem run_transparent (hS : S.InjOn Single.text) (hD : D.InjOn Double.text) (hproper : ∀ r ∈ rs, r.Proper S D)
    (resolver : Option Resolver) {digest : Text → Text} (hdigest : (keys rs).InjOn digest) :
    let done := run { resolver, digest } rs
    done.1 = rs.map (·.fresh resolver) ∧
      (∀ e ∈ done.2.entries, ∃ r ∈ rs, ∃ key, r.key? = some key ∧ digest key = e.1 ∧
        r.fresh resolver = some (.ok e.2.2)) ∧
      (∀ r ∈ rs, ∀ key, r.key? = some key → (∃ e, r.fresh resolver = some (.error e)) →
        done.2.entries.lookup (digest key) = none) ∧
      done.2.hits + done.2.misses = (rs.filterMap (·.key?)).length := by
  have hempty : Keeps { resolver, digest } rs := fun e he => absurd he List.not_mem_nil
  obtain ⟨hanswers, hkeeps, hresolver, hsame, hcount⟩ :=
    run_steps hS hD hproper hdigest hempty (List.Subset.refl rs)
  intro done
  have hresolver : done.2.resolver = resolver := hresolver
  have hsame : done.2.digest = digest := hsame
  rw [Keeps, hresolver, hsame] at hkeeps
  refine ⟨hanswers, hkeeps, fun r hr key hkey ⟨e, he⟩ => ?_, hcount.trans (Nat.zero_add _)⟩
  cases hlookup : done.2.entries.lookup (digest key) with
  | none => rfl
  | some found =>
    have hfresh : r.fresh done.2.resolver = some (.ok found.2) :=
      Keeps.fresh_of_lookup hS hD hproper (by rwa [hsame]) (by rwa [Keeps, hresolver, hsame]) hr hkey
        (by rwa [hsame])
    rw [hresolver] at hfresh
    cases he.symm.trans hfresh

private def sampleSource : Text :=
  "[nzsl_version(\"1.0\")] module m; option scale: f32 = 1.0; [entry(compute)] [workgroup(8, 1, 1)] fn main() \x7b\x7d"

/-- One module for several targets and stages, with the number 1.5 for its option. The last compilation fails. -/
private def sampleRequests : List Request :=
  let values := OptionValues.set {} "scale" (.f32 ⟨0x3FC00000⟩)
  [.compile "a" sampleSource { values }, .compile "a" sampleSource { values, stages := [.compute] },
    .compile "a" sampleSource { values, stages := [.compute, .compute] }, .purge,
    .compile "a" sampleSource { values, target := .glsl }]

/-- Requests whose only float is 1.5, with keys for their own digests. -/
theorem run_transparent_sample :
    (run {} sampleRequests).1 = sampleRequests.map (·.fresh none) ∧
      (run {} sampleRequests).2.hits + (run {} sampleRequests).2.misses = 4 := by
  have hproper : ∀ r ∈ sampleRequests, r.Proper {⟨0x3FC00000⟩} ∅ := by
    intro r hr
    simp only [sampleRequests, List.mem_cons, List.not_mem_nil, or_false] at hr
    have hvalues : ∀ e ∈ (OptionValues.set {} "scale" (.f32 ⟨0x3FC00000⟩)).entries,
        e.2.WellFormed {⟨0x3FC00000⟩} ∅ := by
      intro e he
      rw [List.mem_singleton.mp he]
      exact .scalar (.f32 rfl)
    rcases hr with rfl | rfl | rfl | rfl | rfl
    · exact ⟨by decide, hvalues⟩
    · exact ⟨by decide, hvalues⟩
    · exact ⟨by decide, hvalues⟩
    · exact trivial
    · exact ⟨by decide, hvalues⟩
  obtain ⟨hanswers, -, -, hcount⟩ :=
    run_transparent (Set.injOn_singleton _ _) (Set.injOn_empty _) hproper none (Function.injective_id.injOn)
  exact ⟨hanswers, hcount⟩

end Cache

end Shading
