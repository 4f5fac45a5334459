import Shading.Proofs.Parser.Stream

/-! Places in a list of tokens. A place in front of the first end of the file is given by the number of tokens before it,
and what is behind that end is never read. Two parsers are alike on two lists if they do the same at each place: they fail
with the same error, or they read the same and go on at the same place. -/
namespace Shading.Parser

variable {α β : Type} {ts us : List Token}

/-- How many tokens stand in front of the first end of the file. -/
def left (ts : List Token) : Nat := ts.findIdx (·.kind == .endOfFile)

/-- The tokens up to the first end of the file, which stands behind every list. -/
def upToEnd : List Token → List Token
  | [] => [{}]
  | t :: ts => if t.kind = .endOfFile then [t] else t :: upToEnd ts

theorem left_of_end {t : Token} (h : t.kind = .endOfFile) : left (t :: ts) = 0 := by
  rw [left, List.findIdx_cons, h]
  rfl

theorem left_of_ne {t : Token} (h : t.kind ≠ .endOfFile) : left (t :: ts) = left ts + 1 := by
  rw [left, List.findIdx_cons, beq_eq_false_iff_ne.mpr h]
  rfl

theorem left_le_length (ts : List Token) : left ts ≤ ts.length := List.findIdx_le_length

theorem length_upToEnd (ts : List Token) : (upToEnd ts).length = left ts + 1 := by
  induction ts with
  | nil => rfl
  | cons t ts ih =>
    rw [upToEnd]
    split
    · next h => rw [left_of_end h]; rfl
    · next h => rw [left_of_ne h, List.length_cons, ih]

theorem getElem?_upToEnd {i : Nat} (h : i ≤ left ts) : (upToEnd ts)[i]? = some (headToken (ts.drop i)) := by
  induction ts generalizing i with
  | nil =>
    obtain rfl : i = 0 := Nat.le_zero.mp h
    rfl
  | cons t ts ih =>
    rw [upToEnd]
    split
    · next hend =>
      rw [left_of_end hend] at h
      obtain rfl : i = 0 := Nat.le_zero.mp h
      rfl
    · next hne =>
      cases i with
      | zero => rfl
      | succ i =>
        rw [left_of_ne hne] at h
        exact ih (Nat.le_of_succ_le_succ h)

/-- In front of the first end of the file there is a token, and it can be passed. -/
theorem drop_of_lt {i : Nat} (h : i < left ts) : ∃ t, ts.drop i = t :: ts.drop (i + 1) ∧ t.kind ≠ .endOfFile := by
  have hlength : i < ts.length := Nat.lt_of_lt_of_le h (left_le_length ts)
  refine ⟨ts[i], List.drop_eq_getElem_cons hlength, fun hend => ?_⟩
  have hne : (ts[i].kind == .endOfFile) = false := List.not_of_lt_findIdx h
  rw [hend] at hne
  cases hne

/-- A place with another token than an end of the file is in front of the first one. -/
theorem lt_left {i : Nat} (hi : i ≤ left ts) (h : headKind (ts.drop i) ≠ .endOfFile) : i < left ts := by
  refine Nat.lt_of_le_of_ne hi fun heq => h ?_
  rw [heq, headKind]
  by_cases hlength : left ts < ts.length
  · rw [List.drop_eq_getElem_cons hlength]
    exact beq_iff_eq.mp (List.findIdx_getElem (w := hlength))
  · rw [List.drop_eq_nil_iff.mpr (Nat.le_of_not_lt hlength)]
    rfl

theorem advance_of_end {ts : List Token} (h : headKind ts = .endOfFile) : advance ts = .ok (headToken ts, ts) := by
  cases ts with
  | nil => rfl
  | cons t ts => exact congrArg (fun us => Except.ok (t, us)) (if_pos h)

section

variable (h : upToEnd ts = upToEnd us)
include h

theorem left_congr : left ts = left us := by
  have hlength := congrArg List.length h
  rw [length_upToEnd, length_upToEnd] at hlength
  exact Nat.succ.inj hlength

theorem headToken_congr {i : Nat} (hi : i ≤ left ts) : headToken (us.drop i) = headToken (ts.drop i) := by
  have hts := getElem?_upToEnd hi
  rw [h, getElem?_upToEnd (left_congr h ▸ hi)] at hts
  exact Option.some.inj hts

theorem headKind_congr {i : Nat} (hi : i ≤ left ts) : headKind (us.drop i) = headKind (ts.drop i) :=
  congrArg Token.kind (headToken_congr h hi)

end

/-- The same was read from two lists, up to the same place, or reading failed for the same reason. -/
inductive Agree (ts us : List Token) (least : Nat) :
    Except ParseError (α × List Token) → Except ParseError (α × List Token) → Prop
  | fail {e : ParseError} (h : e ≠ .exhausted) : Agree ts us least (.error e) (.error e)
  | read {a : α} {j : Nat} (hleast : least ≤ j) (hleft : j ≤ left ts) :
    Agree ts us least (.ok (a, ts.drop j)) (.ok (a, us.drop j))

theorem Agree.weaken {k l : Nat} {x y : Except ParseError (α × List Token)} (h : Agree ts us l x y) (hkl : k ≤ l) :
    Agree ts us k x y := by
  cases h with
  | fail hne => exact .fail hne
  | read hleast hleft => exact .read (Nat.le_trans hkl hleast) hleft

/-- From a place on, wherever the next token is of some kinds, two parsers agree and pass so many tokens at least. -/
structure AlikeWhere (here : TokenKind → Prop) (ts us : List Token) (m least : Nat) (p q : Parser α) : Prop where
  run : ∀ {i}, upToEnd ts = upToEnd us → m ≤ i → i ≤ left ts → here (headKind (ts.drop i)) →
    Agree ts us (i + least) (p (ts.drop i)) (q (us.drop i))

/-- From a place on, two parsers agree and pass so many tokens at least. -/
abbrev Alike (ts us : List Token) (m least : Nat) (p q : Parser α) : Prop :=
  AlikeWhere (fun _ => True) ts us m least p q

variable {here : TokenKind → Prop} {m n k l : Nat}

namespace AlikeWhere

variable {p q : Parser α} {f g : α → Parser β}

theorem narrow (h : Alike ts us m l p q) : AlikeWhere here ts us m l p q :=
  ⟨fun hcut hm hi _ => h.run hcut hm hi trivial⟩

theorem later (h : AlikeWhere here ts us m l p q) (hmn : m ≤ n) : AlikeWhere here ts us n l p q :=
  ⟨fun hcut hn hi hhere => h.run hcut (Nat.le_trans hmn hn) hi hhere⟩

theorem weaken (h : AlikeWhere here ts us m l p q) (hkl : k ≤ l) : AlikeWhere here ts us m k p q :=
  ⟨fun hcut hm hi hhere => (h.run hcut hm hi hhere).weaken (Nat.add_le_add_left hkl _)⟩

/-- Behind the last place there is nothing to be said. -/
theorem behind (h : left ts < m) : AlikeWhere here ts us m l p q :=
  ⟨fun _ hm hi _ => absurd (Nat.le_trans hm hi) (Nat.not_le_of_gt h)⟩

theorem pure (a : α) : AlikeWhere here ts us m 0 (pure a) (pure a) := ⟨fun _ _ hi _ => .read (Nat.le_refl _) hi⟩

theorem throw {e : ParseError} (h : e ≠ .exhausted) :
    AlikeWhere here ts us m l (throwThe ParseError e : Parser α) (throwThe ParseError e) := ⟨fun _ _ _ _ => .fail h⟩

theorem lift {x : Except ParseError α} (h : x ≠ .error .exhausted) :
    AlikeWhere here ts us m 0 (liftM x : Parser α) (liftM x) := by
  cases x with
  | error e => exact ⟨fun _ _ _ _ => .fail fun he => h (congrArg _ he)⟩
  | ok a => exact pure a

theorem bind (hp : AlikeWhere here ts us m k p q) (hf : ∀ a, Alike ts us (m + k) (l - k) (f a) (g a)) :
    AlikeWhere here ts us m l (p >>= f) (q >>= g) := by
  refine ⟨fun {i} hcut hm hi hhere => ?_⟩
  have hfirst := hp.run hcut hm hi hhere
  generalize hx : p (ts.drop i) = x at hfirst
  generalize hy : q (us.drop i) = y at hfirst
  cases hfirst with
  | fail hne =>
    rw [bind_of_error hx, bind_of_error hy]
    exact .fail hne
  | @read a j hleast hleft =>
    rw [bind_of_ok hx, bind_of_ok hy]
    exact ((hf a).run hcut (by omega) hleft trivial).weaken (by omega)

theorem ite {c : Prop} [Decidable c] {p' q' : Parser α} (hp : AlikeWhere here ts us m l p q)
    (hp' : AlikeWhere here ts us m l p' q') :
    AlikeWhere here ts us m l (if c then p else p') (if c then q else q') := by
  split
  · exact hp
  · exact hp'

theorem throw_bind {e : ParseError} (h : e ≠ .exhausted) :
    AlikeWhere here ts us m l ((throwThe ParseError e : Parser α) >>= f) (throwThe ParseError e >>= g) :=
  ⟨fun _ _ _ _ => .fail h⟩

/-- Two ways to get to the same place. -/
theorem ite_bind {c : Prop} [Decidable c] {p' q' : Parser α} (hp : AlikeWhere here ts us m 0 p q)
    (hp' : AlikeWhere here ts us m 0 p' q') (hf : ∀ a, Alike ts us m l (f a) (g a)) :
    AlikeWhere here ts us m l (if c then p >>= f else p' >>= f) (if c then q >>= g else q' >>= g) :=
  .ite (hp.bind hf) (hp'.bind hf)

end AlikeWhere

open AlikeWhere

theorem peek_bind {f g : Token → Parser β} (hf : ∀ t, AlikeWhere (· = t.kind) ts us m l (f t) (g t)) :
    AlikeWhere here ts us m l (peek >>= f) (peek >>= g) := by
  refine ⟨fun {i} hcut hm hi _ => ?_⟩
  have hrun := (hf (headToken (ts.drop i))).run hcut hm hi rfl
  change Agree ts us _ (f (headToken (ts.drop i)) _) (g (headToken (us.drop i)) _)
  rw [headToken_congr hcut hi]
  exact hrun

theorem peekKind_bind {f g : TokenKind → Parser β} (hf : ∀ k, AlikeWhere (· = k) ts us m l (f k) (g k)) :
    AlikeWhere here ts us m l (peekKind >>= f) (peekKind >>= g) := by
  refine ⟨fun {i} hcut hm hi _ => ?_⟩
  have hrun := (hf (headKind (ts.drop i))).run hcut hm hi rfl
  rw [bind_of_ok (peekKind_run _), bind_of_ok (peekKind_run _), headKind_congr hcut hi]
  exact hrun

theorem check_alike (kind : TokenKind) : AlikeWhere here ts us m 0 (check kind) (check kind) := by
  refine ⟨fun {i} hcut _ hi _ => ?_⟩
  rw [check_run, check_run, headKind_congr hcut hi]
  exact .read (Nat.le_refl _) hi

/-- The token after the next one, where the next one is no end of the file. -/
theorem peekSecond_alike {kind : TokenKind} (h : kind ≠ .endOfFile) :
    AlikeWhere (· = kind) ts us m 0 peekSecond peekSecond := by
  refine ⟨fun {i} hcut _ hi hhere => ?_⟩
  have hlt : i < left ts := lt_left hi (hhere ▸ h)
  change Agree ts us _ (.ok (headKind ((ts.drop i).drop 1), ts.drop i)) (.ok (headKind ((us.drop i).drop 1), us.drop i))
  rw [List.drop_drop, List.drop_drop, headKind_congr hcut hlt]
  exact .read (Nat.le_refl _) hi

/-- The token after the next one counts only where the next one is no end of the file. -/
theorem check_peekSecond_bind {kind : TokenKind} (h : kind ≠ .endOfFile) {f g : Bool → TokenKind → Parser β}
    (hyes : ∀ next, AlikeWhere (· = kind) ts us m l (f true next) (g true next))
    (hno : ∀ next next', Alike ts us m l (f false next) (g false next')) :
    AlikeWhere here ts us m l (check kind >>= fun b => peekSecond >>= f b) (check kind >>= fun b => peekSecond >>= g b) := by
  refine ⟨fun {i} hcut hm hi _ => ?_⟩
  rw [bind_of_ok (check_run _ _), bind_of_ok (check_run _ _), headKind_congr hcut hi]
  by_cases hkind : headKind (ts.drop i) = kind
  · rw [hkind, beq_self_eq_true]
    have hlt : i < left ts := lt_left hi (hkind ▸ h)
    change Agree ts us _ (f true (headKind ((ts.drop i).drop 1)) _) (g true (headKind ((us.drop i).drop 1)) _)
    rw [List.drop_drop, List.drop_drop, headKind_congr hcut hlt]
    exact (hyes _).run hcut hm hi hkind
  · rw [beq_eq_false_iff_ne.mpr hkind]
    exact (hno _ _).run hcut hm hi trivial

theorem advance_where {kind : TokenKind} (h : kind ≠ .endOfFile) :
    AlikeWhere (· = kind) ts us m 1 advance advance := by
  refine ⟨fun {i} hcut _ hi hhere => ?_⟩
  have hlt : i < left ts := lt_left hi (hhere ▸ h)
  obtain ⟨t, ht, hne⟩ := drop_of_lt hlt
  obtain ⟨u, hu, -⟩ := drop_of_lt (left_congr hcut ▸ hlt)
  have htu := headToken_congr hcut hi
  rw [ht, hu] at htu
  obtain rfl : u = t := htu
  rw [ht, hu, advance_run hne, advance_run hne]
  exact .read (Nat.le_refl _) hlt

theorem advance_alike : AlikeWhere here ts us m 0 advance advance := by
  refine ⟨fun {i} hcut hm hi _ => ?_⟩
  by_cases hend : headKind (ts.drop i) = .endOfFile
  · rw [advance_of_end hend, advance_of_end ((headKind_congr hcut hi).trans hend), headToken_congr hcut hi]
    exact .read (Nat.le_refl _) hi
  · exact ((advance_where hend).weaken (Nat.zero_le 1)).run hcut hm hi rfl

theorem expect_alike {kind : TokenKind} (h : kind ≠ .endOfFile) :
    AlikeWhere here ts us m 1 (expect kind) (expect kind) := by
  refine ⟨fun {i} hcut hm hi _ => ?_⟩
  by_cases hkind : headKind (ts.drop i) = kind
  · have hrun := (advance_where h).run hcut hm hi hkind
    unfold expect
    rw [bind_of_ok (check_run _ _), bind_of_ok (check_run _ _), headKind_congr hcut hi, hkind, beq_self_eq_true]
    exact hrun
  · unfold expect
    rw [bind_of_ok (check_run _ _), bind_of_ok (check_run _ _), headKind_congr hcut hi, beq_eq_false_iff_ne.mpr hkind]
    have hrun : Agree ts us (i + 1) (.error (.expected kind (headToken (ts.drop i))) : Except _ (Token × _))
        (.error (.expected kind (headToken (us.drop i)))) := by
      rw [headToken_congr hcut hi]
      exact .fail nofun
    exact hrun

/-- One way if a token is passed, and another one if it is not there. -/
theorem accept_ite {kind : TokenKind} (h : kind ≠ .endOfFile) {p p' q q' : Parser β}
    (hyes : Alike ts us (m + 1) (l - 1) p p') (hno : Alike ts us m l q q') :
    AlikeWhere here ts us m l (accept kind >>= fun b => if b = true then p else q)
      (accept kind >>= fun b => if b = true then p' else q') := by
  refine ⟨fun {i} hcut hm hi _ => ?_⟩
  by_cases hkind : headKind (ts.drop i) = kind
  · have hlt : i < left ts := lt_left hi (hkind ▸ h)
    obtain ⟨t, ht, -⟩ := drop_of_lt hlt
    obtain ⟨u, hu, -⟩ := drop_of_lt (left_congr hcut ▸ hlt)
    have hu' := (headKind_congr hcut hi).trans hkind
    rw [ht, headKind_cons] at hkind
    rw [hu, headKind_cons] at hu'
    rw [ht, hu, bind_of_ok (accept_of_eq hkind h), bind_of_ok (accept_of_eq hu' h)]
    exact (hyes.run hcut (by omega) hlt trivial).weaken (by omega)
  · have hother : headKind (us.drop i) ≠ kind := headKind_congr hcut hi ▸ hkind
    rw [bind_of_ok (accept_of_ne hkind), bind_of_ok (accept_of_ne hother)]
    exact hno.run hcut hm hi trivial

theorem accept_ite_not {kind : TokenKind} (h : kind ≠ .endOfFile) {p p' q q' : Parser β}
    (hno : Alike ts us m l p p') (hyes : Alike ts us (m + 1) (l - 1) q q') :
    AlikeWhere here ts us m l (accept kind >>= fun b => if (!b) = true then p else q)
      (accept kind >>= fun b => if (!b) = true then p' else q') := by
  have hflip {p q : Parser β} : (fun b : Bool => if (!b) = true then p else q) = fun b => if b = true then q else p := by
    funext b
    cases b <;> rfl
  rw [hflip, hflip]
  exact accept_ite h hyes hno

theorem accept_alike (kind : TokenKind) :
    AlikeWhere here ts us m 0 (accept kind) (accept kind) := by
  unfold accept
  refine (check_alike kind).bind fun found => .ite ?_ (.pure _)
  exact advance_alike.bind fun _ => .pure _

end Shading.Parser
