import Mathlib.Data.List.Nodup
import Mathlib.Logic.Relation

/-! Nodes of a graph in an order in which each of them stands after all that it leads to. -/
namespace Shading

section

variable {α : Type} (key : α → Int) (next : α → List α)

/-- Adds a node and those that it leads to, each after those that come next to it. Nodes are known by their keys. -/
def postorder : Nat → α → List Int × List α → List Int × List α
  | 0, _, acc => acc
  | depth + 1, a, (visited, order) =>
    if visited.contains (key a) then (visited, order)
    else
      let (visited, order) := (next a).foldl (fun acc b => postorder depth b acc) (key a :: visited, order)
      (visited, order ++ [a])

/-- The nodes of some list, and all that they lead to, in that order. -/
def postorderAll (depth : Nat) (as : List α) (acc : List Int × List α) : List Int × List α :=
  as.foldl (fun acc a => postorder key next depth a acc) acc

/-- Each node stands after those that come next to it. -/
inductive Ordered : List α → Prop
  | nil : Ordered []
  | concat {as : List α} {a : α} : Ordered as → (∀ b ∈ next a, b ∈ as) → Ordered (as ++ [a])

/-- One node comes next to another one. -/
def Leads (a b : α) : Prop := b ∈ next a

/-- Nodes with keys of their own, which lead to nodes of a lower rank only. -/
structure Descending (nodes : List α) (rank : α → Int) : Prop where
  distinct : (nodes.map key).Nodup
  closed : ∀ a ∈ nodes, ∀ b ∈ next a, b ∈ nodes
  lower : ∀ a ∈ nodes, ∀ b ∈ next a, rank b < rank a

end

variable {α : Type} {key : α → Int} {next : α → List α}

namespace Ordered

variable {as : List α}

theorem before (h : Ordered next as) {before after : List α} {a : α} (heq : as = before ++ a :: after) :
    ∀ b ∈ next a, b ∈ before := by
  induction h generalizing after with
  | nil => cases before <;> cases heq
  | concat h hnext ih =>
    rcases List.eq_nil_or_concat after with rfl | ⟨after', c, rfl⟩
    · obtain ⟨rfl, hsingle⟩ := List.append_inj' heq rfl
      cases hsingle
      exact hnext
    · rw [List.concat_eq_append, ← List.cons_append, ← List.append_assoc] at heq
      exact ih (List.append_inj' heq rfl).1

end Ordered

/-- The nodes that are in order already. They are marked as visited. -/
structure Visits (key : α → Int) (next : α → List α) (nodes : List α) (visited : List Int) (order : List α) : Prop where
  nodes : order ⊆ nodes
  marked : order.map key ⊆ visited
  nodup : (order.map key).Nodup
  ordered : Ordered next order

/-- What a traversal adds: nodes that were not visited before and that some nodes lead to. -/
structure Adds (key : α → Int) (next : α → List α) (nodes : List α) (starts : List α) (before after : List Int × List α) :
    Prop where
  visits : Visits key next nodes after.1 after.2
  reached : starts ⊆ after.2
  added : ∃ new, after.2 = before.2 ++ new ∧ (∀ k, k ∈ after.1 ↔ k ∈ before.1 ∨ k ∈ new.map key) ∧
    (∀ k ∈ new.map key, k ∉ before.1) ∧ ∀ c ∈ new, ∃ a ∈ starts, Relation.ReflTransGen (Leads next) a c

variable {nodes : List α} {rank : α → Int}

/-- Nodes that are visited and not in order yet have higher ranks than a node. -/
def Above (key : α → Int) (nodes : List α) (rank : α → Int) (a : α) (acc : List Int × List α) : Prop :=
  ∀ k ∈ acc.1, k ∈ acc.2.map key ∨ ∀ b ∈ nodes, key b = k → rank a < rank b

theorem Above.after {starts : List α} {a : α} {acc acc' : List Int × List α} (h : Above key nodes rank a acc)
    (hadds : Adds key next nodes starts acc acc') : Above key nodes rank a acc' := by
  obtain ⟨new, horder, hvisited, -, -⟩ := hadds.added
  intro k hk
  rw [horder, List.map_append, List.mem_append]
  rcases (hvisited k).mp hk with hk | hk
  · exact (h k hk).imp_left .inl
  · exact .inl (.inr hk)

theorem Adds.none {acc : List Int × List α} (h : Visits key next nodes acc.1 acc.2) : Adds key next nodes [] acc acc := by
  refine ⟨h, List.nil_subset _, [], (List.append_nil _).symm, fun k => ?_, fun k hk => ?_, fun c hc => ?_⟩
  · simp
  · cases hk
  · cases hc

theorem Adds.cons {a : α} {as : List α} {acc acc₁ acc₂ : List Int × List α} (h : Adds key next nodes [a] acc acc₁)
    (h' : Adds key next nodes as acc₁ acc₂) : Adds key next nodes (a :: as) acc acc₂ := by
  obtain ⟨new, horder, hvisited, hfresh, hreach⟩ := h.added
  obtain ⟨new', horder', hvisited', hfresh', hreach'⟩ := h'.added
  refine ⟨h'.visits, ?_, new ++ new', ?_, fun k => ?_, fun k hk => ?_, fun c hc => ?_⟩
  · refine List.cons_subset.mpr ⟨?_, h'.reached⟩
    rw [horder']
    exact List.mem_append_left _ (h.reached List.mem_cons_self)
  · rw [horder', horder, List.append_assoc]
  · rw [hvisited', hvisited, List.map_append, List.mem_append, or_assoc]
  · rw [List.map_append, List.mem_append] at hk
    rcases hk with hk | hk
    · exact hfresh k hk
    · exact fun hmem => hfresh' k hk ((hvisited k).mpr (.inl hmem))
  · rcases List.mem_append.mp hc with hc | hc
    · obtain ⟨b, hb, hc⟩ := hreach c hc
      rw [List.mem_singleton.mp hb] at hc
      exact ⟨a, List.mem_cons_self, hc⟩
    · obtain ⟨b, hb, hc⟩ := hreach' c hc
      exact ⟨b, List.mem_cons_of_mem _ hb, hc⟩

/-- A node that is visited and in no circle is in order already. -/
theorem Adds.visited (hgraph : Descending key next nodes rank) {a : α} {acc : List Int × List α}
    (h : Visits key next nodes acc.1 acc.2) (ha : a ∈ nodes) (habove : Above key nodes rank a acc)
    (hmarked : key a ∈ acc.1) : Adds key next nodes [a] acc acc := by
  have hkey : key a ∈ acc.2.map key := by
    rcases habove _ hmarked with hdone | hopen
    · exact hdone
    · exact absurd (hopen a ha rfl) (Int.lt_irrefl _)
  obtain ⟨b, hb, heq⟩ := List.mem_map.mp hkey
  have hab : b = a := List.inj_on_of_nodup_map hgraph.distinct (h.nodes hb) ha heq
  subst hab
  refine ⟨h, List.cons_subset.mpr ⟨hb, List.nil_subset _⟩, [], (List.append_nil _).symm, fun k => ?_, fun k hk => ?_,
    fun c hc => ?_⟩
  · simp
  · cases hk
  · cases hc

/-- A node is put in order after those that come next to it. -/
theorem Adds.concat {a : α} {acc acc' : List Int × List α} (h : Visits key next nodes acc.1 acc.2) (ha : a ∈ nodes)
    (hnew : key a ∉ acc.1) (hadds : Adds key next nodes (next a) (key a :: acc.1, acc.2) acc') :
    Adds key next nodes [a] acc (acc'.1, acc'.2 ++ [a]) := by
  obtain ⟨new, horder, hvisited, hfresh, hreach⟩ := hadds.added
  have hmarked : key a ∈ acc'.1 := (hvisited _).mpr (.inl List.mem_cons_self)
  have hunordered : key a ∉ acc'.2.map key := by
    rw [horder, List.map_append, List.mem_append, not_or]
    exact ⟨fun hmem => hnew (h.marked hmem), fun hmem => hfresh _ hmem List.mem_cons_self⟩
  refine ⟨⟨?_, ?_, ?_, .concat hadds.visits.ordered hadds.reached⟩, ?_, new ++ [a], ?_, fun k => ?_, fun k hk => ?_,
    fun c hc => ⟨a, List.mem_cons_self, ?_⟩⟩
  · exact List.append_subset.mpr ⟨hadds.visits.nodes, List.cons_subset.mpr ⟨ha, List.nil_subset _⟩⟩
  · rw [List.map_append]
    exact List.append_subset.mpr ⟨hadds.visits.marked, List.cons_subset.mpr ⟨hmarked, List.nil_subset _⟩⟩
  · rw [List.map_append, List.map_singleton]
    exact List.nodup_append.mpr ⟨hadds.visits.nodup, List.nodup_singleton _, fun k hk b hb heq =>
      hunordered (List.mem_singleton.mp hb ▸ heq ▸ hk)⟩
  · exact List.cons_subset.mpr ⟨List.mem_append_right _ List.mem_cons_self, List.nil_subset _⟩
  · rw [horder, List.append_assoc]
  · rw [hvisited, List.map_append, List.mem_append, List.map_singleton, List.mem_singleton, List.mem_cons]
    tauto
  · rw [List.map_append, List.mem_append, List.map_singleton, List.mem_singleton] at hk
    rcases hk with hk | rfl
    · exact fun hmem => hfresh k hk (List.mem_cons_of_mem _ hmem)
    · exact hnew
  · rcases List.mem_append.mp hc with hc | hc
    · obtain ⟨b, hb, hc⟩ := hreach c hc
      exact .head hb hc
    · rw [List.mem_singleton.mp hc]

end Shading
