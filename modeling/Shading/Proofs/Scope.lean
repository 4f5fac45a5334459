import Mathlib.Data.List.Forall2
import Mathlib.Data.List.Induction
import Mathlib.Data.List.Nodup
import Shading.Scope

/-! What names stand for in nested scopes. The innermost scope that has a name decides, and of its declarations the last
one of the lowest kind. A scope never has two declarations of one name and kind, and once it is closed all names stand
for what they stood for before. -/
namespace Shading

theorem Category.rank_inj {c d : Category} (h : c.rank = d.rank) : c = d := by
  cases c <;> cases d <;> first
    | rfl
    | cases h

namespace Scope

/-- A binding of a name, and no declaration of the name is of a lower kind. -/
def Lowest (s : Scope) (name : Text) (b : Binding) : Prop :=
  (name, b) ∈ s ∧ ∀ d ∈ s, d.1 = name → b.category.rank ≤ d.2.category.rank

/-- No two declarations are of one name and kind. -/
def Apart (s : Scope) : Prop := (s.map fun d => (d.1, d.2.category)).Nodup

theorem holds_iff {s : Scope} {name : Text} {c : Category} :
    s.holds name c = true ↔ ∃ d ∈ s, d.1 = name ∧ d.2.category = c := by
  simp only [holds, List.any_eq_true, Bool.and_eq_true, beq_iff_eq]

theorem Apart.eq {s : Scope} (h : s.Apart) {name : Text} {a b : Binding} (ha : (name, a) ∈ s) (hb : (name, b) ∈ s)
    (hab : a.category = b.category) : a = b :=
  congrArg Prod.snd (List.inj_on_of_nodup_map h ha hb (by rw [hab]))

/-- Of a binding and others behind it, one of the lowest kind is kept. -/
theorem exists_best (a : Binding) (bs : List Binding) :
    ∃ x, bs.foldl (fun best b => match best with
        | none => some b
        | some a => if b.category.rank < a.category.rank then some b else some a) (some a) = some x ∧
      x ∈ a :: bs ∧ ∀ y ∈ a :: bs, x.category.rank ≤ y.category.rank := by
  induction bs generalizing a with
  | nil => exact ⟨a, rfl, List.mem_cons_self, List.forall_mem_singleton.mpr (Nat.le_refl _)⟩
  | cons b bs ih =>
    rw [List.foldl_cons]
    dsimp only
    split
    case isTrue hlt =>
      obtain ⟨x, hx, hmem, hle⟩ := ih b
      refine ⟨x, hx, List.mem_cons_of_mem _ hmem, List.forall_mem_cons.mpr ⟨?_, hle⟩⟩
      exact Nat.le_trans (hle b List.mem_cons_self) (Nat.le_of_lt hlt)
    case isFalse hnot =>
      obtain ⟨x, hx, hmem, hle⟩ := ih a
      obtain ⟨hself, hrest⟩ := List.forall_mem_cons.mp hle
      refine ⟨x, hx, ?_, ?_⟩
      · rcases List.mem_cons.mp hmem with rfl | hmem
        · exact List.mem_cons_self
        · exact List.mem_cons_of_mem _ (List.mem_cons_of_mem _ hmem)
      · exact List.forall_mem_cons.mpr ⟨hself, List.forall_mem_cons.mpr ⟨by omega, hrest⟩⟩

theorem mem_named {s : Scope} {name : Text} {b : Binding} :
    b ∈ (s.filter (·.1 == name)).map (·.2) ↔ (name, b) ∈ s := by
  simp only [List.mem_map, List.mem_filter, beq_iff_eq]
  constructor
  · rintro ⟨⟨n, b⟩, ⟨hmem, rfl⟩, rfl⟩
    exact hmem
  · exact fun h => ⟨(name, b), ⟨h, rfl⟩, rfl⟩

/-- Either the scope does not have the name, or it answers with a binding of the lowest kind. -/
theorem best_cases (s : Scope) (name : Text) :
    (s.best? name = none ∧ ∀ d ∈ s, d.1 ≠ name) ∨ ∃ b, s.best? name = some b ∧ s.Lowest name b := by
  unfold best?
  cases hnamed : (s.filter (·.1 == name)).map (·.2) with
  | nil =>
    refine .inl ⟨rfl, fun d hd heq => ?_⟩
    have hmem : d.2 ∈ (s.filter (·.1 == name)).map (·.2) := mem_named.mpr (heq ▸ hd)
    rw [hnamed] at hmem
    cases hmem
  | cons a bs =>
    obtain ⟨x, hx, hmem, hle⟩ := exists_best a bs
    rw [← hnamed] at hmem hle
    exact .inr ⟨x, hx, mem_named.mp hmem, fun d hd heq => hle d.2 (mem_named.mpr (heq ▸ hd))⟩

theorem best_eq_some_iff {s : Scope} (h : s.Apart) {name : Text} {b : Binding} :
    s.best? name = some b ↔ s.Lowest name b := by
  obtain ⟨hnone, habsent⟩ | ⟨x, hx, hlowest⟩ := s.best_cases name
  · rw [hnone]
    exact ⟨nofun, fun hb => absurd rfl (habsent _ hb.1)⟩
  · rw [hx]
    constructor
    · rintro ⟨⟩
      exact hlowest
    · intro hb
      have hrank := Nat.le_antisymm (hlowest.2 _ hb.1 rfl) (hb.2 _ hlowest.1 rfl)
      exact congrArg some (h.eq hlowest.1 hb.1 (Category.rank_inj hrank))

theorem best_eq_none_iff {s : Scope} {name : Text} : s.best? name = none ↔ ∀ d ∈ s, d.1 ≠ name := by
  obtain ⟨hnone, habsent⟩ | ⟨x, hx, hlowest⟩ := s.best_cases name
  · exact ⟨fun _ => habsent, fun _ => hnone⟩
  · rw [hx]
    exact ⟨nofun, fun habsent => absurd rfl (habsent _ hlowest.1)⟩

end Scope

/-- What has been registered in a scope, in the order of time. Nothing is taken out of it. -/
abbrev Log := List (Text × Binding)

namespace Log

/-- A binding of a name, with none of the same kind registered for the name after it. -/
def Latest (l : Log) (name : Text) (b : Binding) : Prop :=
  ∃ before after, l = before ++ (name, b) :: after ∧ ∀ d ∈ after, d.1 = name → d.2.category ≠ b.category

/-- The latest binding of the lowest kind under which a name is registered. -/
structure Means (l : Log) (name : Text) (b : Binding) : Prop where
  latest : l.Latest name b
  lowest : ∀ d ∈ l, d.1 = name → b.category.rank ≤ d.2.category.rank

variable {l : Log} {name n : Text} {b x : Binding}

theorem Latest.mem (h : l.Latest name b) : (name, b) ∈ l := by
  obtain ⟨before, after, rfl, -⟩ := h
  exact List.mem_append_right _ List.mem_cons_self

theorem latest_concat : Latest (l ++ [(n, x)]) name b ↔
    (name = n ∧ b = x) ∨ (l.Latest name b ∧ ¬ (name = n ∧ b.category = x.category)) := by
  constructor
  · rintro ⟨before, after, heq, hafter⟩
    rcases after.eq_nil_or_concat with rfl | ⟨front, last, rfl⟩
    · obtain ⟨-, hlast⟩ := List.append_inj' heq rfl
      obtain ⟨rfl, rfl⟩ : n = name ∧ x = b := by simpa using hlast
      exact .inl ⟨rfl, rfl⟩
    · rw [List.concat_eq_append, ← List.cons_append, ← List.append_assoc] at heq
      obtain ⟨rfl, hlast⟩ := List.append_inj' heq rfl
      obtain rfl : (n, x) = last := by simpa using hlast
      rw [List.concat_eq_append] at hafter
      refine .inr ⟨⟨before, front, rfl, fun d hd => hafter d (List.mem_append_left _ hd)⟩, ?_⟩
      rintro ⟨rfl, hkind⟩
      exact hafter (name, x) (List.mem_append_right _ List.mem_cons_self) rfl hkind.symm
  · rintro (⟨rfl, rfl⟩ | ⟨⟨before, after, rfl, hafter⟩, hother⟩)
    · exact ⟨l, [], rfl, fun d hd => by cases hd⟩
    · refine ⟨before, after ++ [(n, x)], by simp, fun d hd heq hkind => ?_⟩
      rcases List.mem_append.mp hd with hd | hd
      · exact hafter d hd heq hkind
      · obtain rfl := List.mem_singleton.mp hd
        exact hother ⟨heq.symm, hkind.symm⟩

/-- What is registered under a name and a kind is registered last once. -/
theorem exists_latest {d : Text × Binding} (hd : d ∈ l) : ∃ b, l.Latest d.1 b ∧ b.category = d.2.category := by
  induction l using List.reverseRecOn with
  | nil => cases hd
  | append_singleton l e ih =>
    obtain ⟨n, x⟩ := e
    by_cases hsame : d.1 = n ∧ d.2.category = x.category
    · exact ⟨x, latest_concat.mpr (.inl ⟨hsame.1, rfl⟩), hsame.2.symm⟩
    · have hd : d ∈ l := by
        rcases List.mem_append.mp hd with hd | hd
        · exact hd
        · rw [List.mem_singleton.mp hd] at hsame
          exact absurd ⟨rfl, rfl⟩ hsame
      obtain ⟨b, hb, hkind⟩ := ih hd
      exact ⟨b, latest_concat.mpr (.inr ⟨hb, hkind ▸ hsame⟩), hkind⟩

end Log

/-- A scope has what was registered last under each name and kind, and nothing else. -/
structure Scope.Records (s : Scope) (l : Log) : Prop where
  apart : s.Apart
  mem_iff : ∀ {name b}, (name, b) ∈ s ↔ l.Latest name b

namespace Scope.Records

variable {s : Scope} {l : Log} {name : Text} {b : Binding}

theorem nil : Records [] [] := by
  constructor
  · exact List.nodup_nil
  · exact fun {_ _} => ⟨nofun, fun h => nomatch h.mem⟩

theorem exists_iff (h : s.Records l) (p : Text → Category → Prop) :
    (∃ d ∈ s, p d.1 d.2.category) ↔ ∃ d ∈ l, p d.1 d.2.category := by
  constructor
  · rintro ⟨d, hd, hp⟩
    exact ⟨d, (h.mem_iff.mp hd).mem, hp⟩
  · rintro ⟨d, hd, hp⟩
    obtain ⟨b, hb, hkind⟩ := Log.exists_latest hd
    exact ⟨(d.1, b), h.mem_iff.mpr hb, hkind ▸ hp⟩

theorem holds_iff (h : s.Records l) : s.holds name b.category = true ↔ ∃ d ∈ l, d.1 = name ∧ d.2.category = b.category :=
  Scope.holds_iff.trans (h.exists_iff fun n c => n = name ∧ c = b.category)

/-- A declaration of a new name or kind. -/
theorem concat (h : s.Records l) (hnew : s.holds name b.category = false) :
    Records (s ++ [(name, b)]) (l ++ [(name, b)]) := by
  have hother (d : Text × Binding) (hd : d ∈ s) : ¬ (d.1 = name ∧ d.2.category = b.category) := fun hsame =>
    Bool.false_ne_true (hnew.symm.trans (Scope.holds_iff.mpr ⟨d, hd, hsame⟩))
  refine ⟨?_, @fun n x => ?_⟩
  · rw [Apart, List.map_append, List.map_singleton, ← List.concat_eq_append]
    refine List.Nodup.concat (fun hmem => ?_) h.apart
    obtain ⟨d, hd, heq⟩ := List.mem_map.mp hmem
    exact hother d hd (Prod.mk.inj heq)
  · rw [Log.latest_concat, ← h.mem_iff, List.mem_append, List.mem_singleton, Prod.mk.injEq]
    exact ⟨fun hmem => hmem.elim (fun hd => .inr ⟨hd, hother _ hd⟩) .inl, fun hmem => hmem.elim .inr fun hd => .inl hd.1⟩

/-- A declaration that takes the place of another one of the same name and kind. -/
theorem overwrite (h : s.Records l) (hold : s.holds name b.category = true) :
    Records (s.map fun d => if d.1 == name && d.2.category == b.category then (name, b) else d) (l ++ [(name, b)]) := by
  refine ⟨?_, @fun n x => ?_⟩
  · rw [Apart, List.map_map]
    have hkeys : (fun d : Text × Binding => (d.1, d.2.category)) ∘
        (fun d => if d.1 == name && d.2.category == b.category then (name, b) else d) =
        fun d => (d.1, d.2.category) := by
      funext d
      rw [Function.comp_apply]
      split
      · next hsame =>
        rw [Bool.and_eq_true, beq_iff_eq, beq_iff_eq] at hsame
        rw [hsame.1, hsame.2]
      · rfl
    rw [hkeys]
    exact h.apart
  · rw [Log.latest_concat, ← h.mem_iff, List.mem_map]
    constructor
    · rintro ⟨d, hd, heq⟩
      split at heq
      · cases heq
        exact .inl ⟨rfl, rfl⟩
      · next hother =>
        subst heq
        exact .inr ⟨hd, by simpa using hother⟩
    · rintro (⟨rfl, rfl⟩ | ⟨hd, hother⟩)
      · obtain ⟨d, hd, hname, hkind⟩ := Scope.holds_iff.mp hold
        exact ⟨d, hd, if_pos (by rw [hname, hkind, beq_self_eq_true, beq_self_eq_true]; rfl)⟩
      · exact ⟨(n, x), hd, if_neg (by simpa using hother)⟩

theorem put (h : s.Records l) (name : Text) (b : Binding) : (s.put name b).Records (l ++ [(name, b)]) := by
  unfold Scope.put
  split
  · next hold => exact h.overwrite hold
  · next hnew => exact h.concat (Bool.eq_false_iff.mpr hnew)

theorem lowest_iff (h : s.Records l) : s.Lowest name b ↔ l.Means name b := by
  have hall : (∀ d ∈ s, d.1 = name → b.category.rank ≤ d.2.category.rank) ↔
      ∀ d ∈ l, d.1 = name → b.category.rank ≤ d.2.category.rank := by
    have hlower := not_congr (h.exists_iff fun n c => n = name ∧ ¬ b.category.rank ≤ c.rank)
    simpa only [not_exists, not_and, not_not] using hlower
  rw [Scope.Lowest, hall, h.mem_iff]
  exact ⟨fun h => ⟨h.1, h.2⟩, fun h => ⟨h.latest, h.lowest⟩⟩

end Scope.Records

namespace Scopes

/-- What is done to the scopes around a place. -/
inductive Event
  | push
  | pop
  | declare (name : Text) (b : Binding)
  | replace (name : Text) (b : Binding)

/-- The scopes after an event. A declaration that is refused leaves them as they are. -/
def step (s : Scopes) : Event → Scopes
  | .push => s.push
  | .pop => s.pop
  | .declare name b => (s.declare? name b).getD s
  | .replace name b => s.replace name b

def run (s : Scopes) (es : List Event) : Scopes := es.foldl step s

/-- What has been registered in each open scope after an event. -/
def note : List Log → Event → List Log
  | ls, .push => [] :: ls
  | ls, .pop => ls.tail
  | l :: ls, .declare name b =>
    if ∃ d ∈ l, d.1 = name ∧ d.2.category = b.category then l :: ls else (l ++ [(name, b)]) :: ls
  | l :: ls, .replace name b => (l ++ [(name, b)]) :: ls
  | [], _ => []

/-- What has been registered in each scope that is open after some events, the innermost first. -/
def history (es : List Event) : List Log := es.foldl note []

/-- The innermost log that has a name says what it stands for. -/
def Resolves (ls : List Log) (name : Text) (b : Binding) : Prop :=
  ∃ inner l outer, ls = inner ++ l :: outer ∧ (∀ k ∈ inner, ∀ d ∈ k, d.1 ≠ name) ∧ l.Means name b

/-- Do events close just the scopes that they open, where some that were opened before are to be closed as well? -/
def Closes : Nat → List Event → Prop
  | depth, [] => depth = 0
  | depth, .push :: es => Closes (depth + 1) es
  | 0, .pop :: _ => False
  | depth + 1, .pop :: es => Closes depth es
  | depth, .declare .. :: es => Closes depth es
  | depth, .replace .. :: es => Closes depth es

theorem declare?_cons (scope : Scope) (outer : List Scope) (name : Text) (b : Binding) :
    declare? ⟨scope :: outer⟩ name b =
      if scope.holds name b.category then none else some ⟨(scope ++ [(name, b)]) :: outer⟩ := rfl

/-- The scopes have what the logs say. -/
def Record (s : Scopes) (ls : List Log) : Prop := List.Forall₂ Scope.Records s.levels ls

theorem Record.step {s : Scopes} {ls : List Log} (h : s.Record ls) (e : Event) : (s.step e).Record (note ls e) := by
  obtain ⟨levels⟩ := s
  cases e with
  | push => exact .cons .nil h
  | pop =>
    cases h with
    | nil => exact .nil
    | cons _ hrest => exact hrest
  | declare name b =>
    cases h with
    | nil => exact .nil
    | @cons scope l outer ls hscope hrest =>
      rw [note, Scopes.step, declare?_cons]
      by_cases hheld : scope.holds name b.category = true
      · rw [if_pos (hscope.holds_iff.mp hheld), if_pos hheld]
        exact .cons hscope hrest
      · rw [if_neg (fun hlog => hheld (hscope.holds_iff.mpr hlog)), if_neg hheld]
        exact .cons (hscope.concat (Bool.eq_false_iff.mpr hheld)) hrest
  | replace name b =>
    cases h with
    | nil => exact .nil
    | cons hscope hrest => exact .cons (hscope.put name b) hrest

theorem Record.run {s : Scopes} {ls : List Log} (h : s.Record ls) (es : List Event) :
    (s.run es).Record (es.foldl note ls) := by
  induction es generalizing s ls with
  | nil => exact h
  | cons e es ih => exact ih (h.step e)

theorem run_append (s : Scopes) (es fs : List Event) : s.run (es ++ fs) = (s.run es).run fs := List.foldl_append

/-- Events that close what they open leave the scopes around them alone. -/
theorem exists_run {es : List Event} (front outer : List Scope) {depth : Nat} (hfront : front.length = depth + 1)
    (h : Closes depth es) : ∃ last, run ⟨front ++ outer⟩ es = ⟨last :: outer⟩ := by
  induction es generalizing front depth with
  | nil =>
    obtain rfl : depth = 0 := h
    obtain ⟨last, rfl⟩ := List.length_eq_one_iff.mp hfront
    exact ⟨last, rfl⟩
  | cons e es ih =>
    obtain ⟨scope, front, rfl⟩ : ∃ scope rest, front = scope :: rest := List.exists_cons_of_length_eq_add_one hfront
    cases e with
    | push => exact ih ([] :: scope :: front) (by rw [List.length_cons, hfront]) h
    | pop =>
      cases depth with
      | zero => exact h.elim
      | succ depth => exact ih front (Nat.succ.inj hfront) h
    | declare name b =>
      have hrest : Closes depth es := by cases depth <;> exact h
      change ∃ last, run (Option.getD (declare? ⟨scope :: (front ++ outer)⟩ name b) _) es = ⟨last :: outer⟩
      rw [declare?_cons]
      split
      · exact ih (scope :: front) hfront hrest
      · exact ih ((scope ++ [(name, b)]) :: front) hfront hrest
    | replace name b =>
      have hrest : Closes depth es := by cases depth <;> exact h
      exact ih (scope.put name b :: front) hfront hrest

theorem run_closed (s : Scopes) {inner : List Event} (h : Closes 0 inner) :
    s.run (.push :: (inner ++ [.pop])) = s := by
  obtain ⟨levels⟩ := s
  obtain ⟨last, hlast⟩ := exists_run [[]] levels rfl h
  change run ⟨[[]] ++ levels⟩ (inner ++ [.pop]) = ⟨levels⟩
  rw [run_append, hlast]
  rfl

section

variable {s : Scopes} {ls : List Log} {name : Text} {b : Binding}

theorem Record.lookup_none_iff (h : s.Record ls) : s.lookup? name = none ↔ ∀ l ∈ ls, ∀ d ∈ l, d.1 ≠ name := by
  obtain ⟨levels⟩ := s
  change List.Forall₂ Scope.Records levels ls at h
  rw [lookup?, List.findSome?_eq_none_iff]
  simp only [Scope.best_eq_none_iff]
  induction h with
  | nil => exact ⟨nofun, nofun⟩
  | cons hscope hrest ih =>
    rw [List.forall_mem_cons, List.forall_mem_cons, ih]
    have hnamed := not_congr (hscope.exists_iff fun n _ => n = name)
    simp only [not_exists, not_and] at hnamed
    rw [hnamed]

theorem Record.lookup_some_iff (h : s.Record ls) : s.lookup? name = some b ↔ Resolves ls name b := by
  obtain ⟨levels⟩ := s
  change List.Forall₂ Scope.Records levels ls at h
  induction h with
  | nil =>
    refine ⟨nofun, ?_⟩
    rintro ⟨inner, l, outer, heq, -⟩
    cases inner <;> cases heq
  | @cons scope l outer ls hscope hrest ih =>
    have hnone : scope.best? name = none ↔ ∀ d ∈ l, d.1 ≠ name := by
      have hnamed := not_congr (hscope.exists_iff fun n _ => n = name)
      simp only [not_exists, not_and] at hnamed
      rw [Scope.best_eq_none_iff, hnamed]
    have hsome : scope.best? name = some b ↔ l.Means name b :=
      (Scope.best_eq_some_iff hscope.apart).trans hscope.lowest_iff
    rw [lookup?, List.findSome?_cons]
    cases hbest : scope.best? name with
    | none =>
      -- the innermost scope does not have the name, so that the others decide
      change lookup? ⟨outer⟩ name = some b ↔ _
      rw [ih]
      have habsent := hnone.mp hbest
      constructor
      · rintro ⟨inner, k, others, rfl, hinner, hk⟩
        exact ⟨l :: inner, k, others, rfl, List.forall_mem_cons.mpr ⟨habsent, hinner⟩, hk⟩
      · rintro ⟨inner, k, others, heq, hinner, hk⟩
        cases inner with
        | nil =>
          cases heq
          exact absurd rfl (habsent _ hk.latest.mem)
        | cons _ inner =>
          cases heq
          exact ⟨inner, k, others, rfl, (List.forall_mem_cons.mp hinner).2, hk⟩
    | some x =>
      rw [hbest] at hsome
      rw [hsome]
      constructor
      · exact fun hb => ⟨[], l, ls, rfl, nofun, hb⟩
      · rintro ⟨inner, k, others, heq, hinner, hk⟩
        cases inner with
        | nil =>
          cases heq
          exact hk
        | cons _ inner =>
          cases heq
          have habsent := hnone.mpr (List.forall_mem_cons.mp hinner).1
          rw [hbest] at habsent
          cases habsent

theorem Record.exists_records (h : s.Record ls) {scope : Scope} (hscope : scope ∈ s.levels) : ∃ l, scope.Records l := by
  obtain ⟨levels⟩ := s
  change List.Forall₂ Scope.Records levels ls at h
  induction h with
  | nil => cases hscope
  | cons hfirst _ ih =>
    rcases List.mem_cons.mp hscope with rfl | hscope
    · exact ⟨_, hfirst⟩
    · exact ih hscope

theorem Record.declare_none_iff {l : Log} (h : s.Record (l :: ls)) :
    s.declare? name b = none ↔ ∃ d ∈ l, d.1 = name ∧ d.2.category = b.category := by
  obtain ⟨levels⟩ := s
  cases h with
  | @cons scope _ outer _ hscope hrest =>
    rw [← hscope.holds_iff, declare?_cons]
    split
    · next hheld => exact ⟨fun _ => hheld, fun _ => rfl⟩
    · next hheld => exact ⟨nofun, fun h => absurd h hheld⟩

end

/-- Whatever is done to scopes, a name stands for the latest binding of the lowest kind in the innermost scope that has
it, and for nothing if no open scope has it. A declaration is refused, and changes nothing, just if the innermost scope
has one of the same name and kind, so that no scope has two of them. A scope that is closed leaves everything as it was
before it was opened. -/
theorem run_resolves (es : List Event) :
    (∀ name b, (run {} es).lookup? name = some b ↔ Resolves (history es) name b) ∧
    (∀ name, (run {} es).lookup? name = none ↔ ∀ l ∈ history es, ∀ d ∈ l, d.1 ≠ name) ∧
    (∀ l outer, history es = l :: outer → ∀ name b,
      ((run {} es).declare? name b = none ↔ ∃ d ∈ l, d.1 = name ∧ d.2.category = b.category)) ∧
    (∀ name b, (run {} es).declare? name b = none → run {} (es ++ [.declare name b]) = run {} es) ∧
    (∀ scope ∈ (run {} es).levels, (scope.map fun d => (d.1, d.2.category)).Nodup) ∧
    (∀ inner, Closes 0 inner → run {} (es ++ .push :: (inner ++ [.pop])) = run {} es) := by
  have hrecord : (run {} es).Record (history es) := Record.run .nil es
  refine ⟨fun name b => hrecord.lookup_some_iff, fun name => hrecord.lookup_none_iff, fun l outer heq name b => ?_,
    fun name b hrefused => ?_, fun scope hscope => ?_, fun inner hinner => ?_⟩
  · rw [heq] at hrecord
    exact hrecord.declare_none_iff
  · rw [run_append]
    change Option.getD ((run {} es).declare? name b) (run {} es) = _
    rw [hrefused]
    rfl
  · obtain ⟨l, hl⟩ := hrecord.exists_records hscope
    exact hl.apart
  · rw [run_append, run_closed _ hinner]

/-- A function hides a variable of its scope, and a variable of another scope hides both until that is closed. -/
theorem run_resolves_shadowed :
    let es : List Event := [.push, .declare "x" (.variable 1), .declare "x" (.function 2), .replace "x" (.variable 3)]
    let inner : List Event := [.declare "x" (.variable 4), .push, .replace "x" (.struct 5), .pop]
    (run {} es).lookup? "x" = some (.function 2) ∧ (run {} es).lookup? "y" = none ∧
      (run {} es).declare? "x" (.variable 6) = none ∧ (run {} (es ++ .push :: inner)).lookup? "x" = some (.variable 4) ∧
      run {} (es ++ [.declare "x" (.variable 6)]) = run {} es ∧ run {} (es ++ .push :: (inner ++ [.pop])) = run {} es := by
  intro es inner
  obtain ⟨hsome, hnone, hheld, hrefused, -, hclosed⟩ := run_resolves es
  let l : Log := [("x", .variable 1), ("x", .function 2), ("x", .variable 3)]
  have hhistory : history es = [l] := rfl
  have hx : (run {} es).lookup? "x" = some (.function 2) := by
    refine (hsome _ _).mpr ⟨[], _, [], hhistory, nofun, ⟨[("x", .variable 1)], [("x", .variable 3)], rfl, ?_⟩, ?_⟩
    · simp [Binding.category]
    · simp [Binding.category, Category.rank]
  have hagain : (run {} es).declare? "x" (.variable 6) = none :=
    (hheld _ _ hhistory _ _).mpr ⟨("x", .variable 1), List.mem_cons_self, rfl, rfl⟩
  have habsent : ∀ d ∈ l, d.1 ≠ "y" := by
    simp only [l, List.forall_mem_cons]
    decide
  refine ⟨hx, (hnone _).mpr ?_, hagain, rfl, hrefused _ _ hagain, hclosed inner rfl⟩
  rw [hhistory]
  exact List.forall_mem_singleton.mpr habsent

end Scopes

end Shading
