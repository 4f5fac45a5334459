import Shading.Parser.Stream
import Shading.Proofs.Token.Lexing

/-! Runs of the steps that read tokens. -/
namespace Shading

/-- The tokens have these spellings. -/
def Spelled (ts : List Token) (ks : List Lexeme) : Prop := ts.map Token.spelling = ks

namespace Spelled

variable {ts : List Token} {k : Lexeme} {ks ls : List Lexeme}

theorem length_eq (h : Spelled ts ks) : ts.length = ks.length := by
  rw [← h, List.length_map]

theorem nil (h : Spelled ts []) : ts = [] := List.map_eq_nil_iff.mp h

theorem cons (h : Spelled ts (k :: ks)) :
    ∃ t us, ts = t :: us ∧ t.kind = k.1 ∧ t.lexeme = k.2 ∧ Spelled us ks := by
  obtain ⟨t, us, rfl, ht, hus⟩ := List.map_eq_cons_iff.mp h
  exact ⟨t, us, rfl, congrArg Prod.fst ht, congrArg Prod.snd ht, hus⟩

theorem append (h : Spelled ts (ks ++ ls)) :
    ∃ us vs, ts = us ++ vs ∧ Spelled us ks ∧ Spelled vs ls :=
  List.map_eq_append_iff.mp h

/-- The token of an operator, a bracket or a keyword. -/
theorem lexeme {k : TokenKind} (h : Spelled ts (k.lexeme :: ks)) :
    ∃ t us, ts = t :: us ∧ t.kind = k ∧ Spelled us ks := by
  obtain ⟨t, us, rfl, hk, -, hus⟩ := cons h
  exact ⟨t, us, rfl, hk, hus⟩

end Spelled

namespace Parser

variable {α β : Type}

theorem bind_of_ok {p : Parser α} {f : α → Parser β} {ts us : List Token} {x : α}
    (h : p ts = .ok (x, us)) : (p >>= f) ts = f x us := by
  change (p ts >>= fun r => f r.1 r.2) = f x us
  rw [h]
  rfl

theorem bind_of_error {p : Parser α} {f : α → Parser β} {ts : List Token} {e : ParseError}
    (h : p ts = .error e) : (p >>= f) ts = .error e := by
  change (p ts >>= fun r => f r.1 r.2) = .error e
  rw [h]
  rfl

/-- The kind of the first token. -/
def headKind (ts : List Token) : TokenKind := (headToken ts).kind

@[simp] theorem headKind_cons (t : Token) (ts : List Token) : headKind (t :: ts) = t.kind := rfl

theorem peek_run (t : Token) (ts : List Token) : peek (t :: ts) = .ok (t, t :: ts) := rfl

theorem peekKind_run (ts : List Token) : peekKind ts = .ok (headKind ts, ts) := rfl

theorem check_run (k : TokenKind) (ts : List Token) : check k ts = .ok (headKind ts == k, ts) := rfl

theorem advance_run {t : Token} {ts : List Token} (h : t.kind ≠ .endOfFile) :
    advance (t :: ts) = .ok (t, ts) := by
  change Except.ok (t, if t.kind = .endOfFile then t :: ts else ts) = _
  rw [if_neg h]

theorem accept_of_eq {k : TokenKind} {t : Token} {ts : List Token} (h : t.kind = k)
    (hk : k ≠ .endOfFile) : accept k (t :: ts) = .ok (true, ts) := by
  unfold accept
  rw [bind_of_ok (check_run k _), headKind_cons, h, beq_self_eq_true]
  simp only [if_true]
  rw [bind_of_ok (advance_run (h ▸ hk))]
  rfl

theorem accept_of_ne {k : TokenKind} {ts : List Token} (h : headKind ts ≠ k) :
    accept k ts = .ok (false, ts) := by
  unfold accept
  rw [bind_of_ok (check_run k _), beq_eq_false_iff_ne.mpr h]
  rfl

theorem expect_of_eq {k : TokenKind} {t : Token} {ts : List Token} (h : t.kind = k)
    (hk : k ≠ .endOfFile) : expect k (t :: ts) = .ok (t, ts) := by
  unfold expect
  rw [bind_of_ok (check_run k _), headKind_cons, h, beq_self_eq_true]
  simp only [if_true]
  exact advance_run (h ▸ hk)

theorem bind_ok {p : Parser α} {f : α → Parser β} {ts us : List Token} {y : β}
    (h : (p >>= f) ts = .ok (y, us)) : ∃ x vs, p ts = .ok (x, vs) ∧ f x vs = .ok (y, us) := by
  cases hp : p ts with
  | error e => rw [bind_of_error hp] at h; cases h
  | ok r => exact ⟨r.1, r.2, rfl, by rwa [bind_of_ok hp] at h⟩

theorem pure_ok {x y : α} {ts us : List Token} (h : (pure x : Parser α) ts = .ok (y, us)) :
    y = x ∧ us = ts := by
  cases h
  exact ⟨rfl, rfl⟩

theorem lift_ok {x : Except ParseError α} {y : α} {ts us : List Token}
    (h : (liftM x : Parser α) ts = .ok (y, us)) : x = .ok y ∧ us = ts := by
  cases x with
  | error e => cases h
  | ok z => cases h; exact ⟨rfl, rfl⟩

theorem headKind_ne {ts : List Token} {k : TokenKind} (h : headKind ts = k) (hk : k ≠ .endOfFile) :
    ∃ t us, ts = t :: us ∧ t.kind = k := by
  cases ts with
  | nil => exact absurd h.symm hk
  | cons t us => exact ⟨t, us, rfl, h⟩

theorem advance_ok {t : Token} {ts us : List Token} (hts : headKind ts ≠ .endOfFile)
    (h : advance ts = .ok (t, us)) : ts = t :: us := by
  obtain ⟨t', us', rfl, hk⟩ := headKind_ne rfl hts
  rw [advance_run (by rw [hk]; exact hts)] at h
  cases h
  rfl

theorem expect_ok {k : TokenKind} {t : Token} {ts us : List Token} (hk : k ≠ .endOfFile)
    (h : expect k ts = .ok (t, us)) : ts = t :: us ∧ t.kind = k := by
  unfold expect at h
  rw [bind_of_ok (check_run k ts)] at h
  cases heq : headKind ts == k with
  | false => rw [heq] at h; cases h
  | true =>
    rw [heq, if_pos rfl] at h
    have hkind : headKind ts = k := by simpa using heq
    have hts := advance_ok (by rw [hkind]; exact hk) h
    rw [hts, headKind_cons] at hkind
    exact ⟨hts, hkind⟩

section

variable {g : Token → Parser β} {k : TokenKind} {y : β} {ts us : List Token}

theorem expect_bind_ok (hk : k ≠ .endOfFile) (h : (expect k >>= g) ts = .ok (y, us)) :
    ∃ t vs, ts = t :: vs ∧ t.kind = k ∧ g t vs = .ok (y, us) := by
  obtain ⟨t, vs, ht, hg⟩ := bind_ok h
  obtain ⟨rfl, hkind⟩ := expect_ok hk ht
  exact ⟨t, vs, rfl, hkind, hg⟩

end

end Parser

end Shading
