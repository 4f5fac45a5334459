/-! Finite maps, as lists of entries in the order of their keys. -/
namespace Shading

variable {κ α : Type}

theorem Table.sorted_nil (rank : κ → Nat) : ([] : List (κ × α)).Pairwise fun a b => rank a.1 < rank b.1 := .nil

/-- A finite map. Its keys stand in the order of the numbers that a ranking gives them, and no two of them
have the same number, so that a map has one list of entries only. -/
@[ext]
structure Table (rank : κ → Nat) (α : Type) where
  entries : List (κ × α) := []
  sorted : entries.Pairwise (fun a b => rank a.1 < rank b.1) := by first | exact Table.sorted_nil _ | simp
deriving Repr, Inhabited

namespace Table

variable {rank : κ → Nat}

/-- Puts an entry in its place, where it replaces one of the same key. -/
def place (rank : κ → Nat) (key : κ) (v : α) : List (κ × α) → List (κ × α)
  | [] => [(key, v)]
  | e :: es =>
    if rank key < rank e.1 then (key, v) :: e :: es
    else if rank key = rank e.1 then (key, v) :: es
    else e :: place rank key v es

theorem mem_place {key : κ} {v : α} {e : κ × α} {es : List (κ × α)} (h : e ∈ place rank key v es) :
    e = (key, v) ∨ e ∈ es := by
  induction es with
  | nil => exact .inl (List.mem_singleton.mp h)
  | cons a as ih =>
    rw [place] at h
    split at h
    · exact List.mem_cons.mp h
    split at h
    · exact (List.mem_cons.mp h).imp_right fun h => List.mem_cons_of_mem _ h
    · rcases List.mem_cons.mp h with rfl | h
      · exact .inr List.mem_cons_self
      · exact (ih h).imp_right fun h => List.mem_cons_of_mem _ h

theorem sorted_place (key : κ) (v : α) {es : List (κ × α)}
    (h : es.Pairwise fun a b => rank a.1 < rank b.1) :
    (place rank key v es).Pairwise fun a b => rank a.1 < rank b.1 := by
  induction es with
  | nil => exact List.pairwise_singleton _ _
  | cons e es ih =>
    obtain ⟨hhead, htail⟩ := List.pairwise_cons.mp h
    rw [place]
    split
    case isTrue hlt =>
      refine List.pairwise_cons.mpr ⟨fun b hb => ?_, h⟩
      rcases List.mem_cons.mp hb with rfl | hb
      · exact hlt
      · exact Nat.lt_trans hlt (hhead b hb)
    case isFalse hnot =>
      split
      case isTrue heq =>
        refine List.pairwise_cons.mpr ⟨fun b hb => ?_, htail⟩
        exact heq ▸ hhead b hb
      case isFalse hne =>
        refine List.pairwise_cons.mpr ⟨fun b hb => ?_, ih htail⟩
        rcases mem_place hb with rfl | hb
        · show rank e.1 < rank key
          omega
        · exact hhead b hb

/-- Stores a value; a later one for the same key wins. -/
def insert (t : Table rank α) (key : κ) (v : α) : Table rank α :=
  ⟨place rank key v t.entries, sorted_place key v t.sorted⟩

def get? [BEq κ] (t : Table rank α) (key : κ) : Option α := (t.entries.find? (·.1 == key)).map (·.2)

/-- The table of a list of entries, of which the first counts where several have one key. -/
def ofList (es : List (κ × α)) : Table rank α := es.foldr (fun e t => t.insert e.1 e.2) {}

instance : Coe (List (κ × α)) (Table rank α) := ⟨ofList⟩

end Table

end Shading
