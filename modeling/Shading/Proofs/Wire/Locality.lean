import Shading.Proofs.Wire.Reading

/-! Readers on arbitrary bytes. They stay inside the input and do not look at what comes after the bytes
that they take. -/
namespace Shading

namespace Wire

/-- The place that an error names, if it names one, lies in an input of this size. -/
def DecodeError.InRange (size : Nat) : DecodeError → Prop
  | .invalid _ place => place ≤ size
  | _ => True

/-- Place and rest belong to an input of this size. -/
def Cursor.Within (c : Cursor) (size : Nat) : Prop := c.place + c.rest.length = size

namespace Decoder

variable {α β : Type}

/-- A reader takes bytes off the front of the rest, gives the same with more bytes after the input, and
fails only at places of the input. -/
structure Local (d : Decoder α) : Prop where
  advances : ∀ {i : Input} {c c' : Cursor} {x : α}, c.Within i.size → d i c = .ok (x, c') →
    ∃ front, c.rest = front ++ c'.rest ∧ c'.place = c.place + front.length
  extended : ∀ {i : Input} {c c' : Cursor} {x : α} (more : Text), c.Within i.size →
    d i c = .ok (x, c') →
    d ⟨i.table, i.size + more.length⟩ ⟨c.place, c.rest ++ more⟩ = .ok (x, ⟨c'.place, c'.rest ++ more⟩)
  fails : ∀ {i : Input} {c : Cursor} {e : DecodeError}, c.Within i.size → d i c = .error e →
    e.InRange i.size

/-- The value is the result of some run. -/
def Gives (d : Decoder α) (x : α) : Prop :=
  ∃ (i : Input) (c c' : Cursor), c.Within i.size ∧ d i c = .ok (x, c')

theorem bind_eq (d : Decoder α) (f : α → Decoder β) (i : Input) (c : Cursor) :
    (d >>= f) i c = match d i c with
      | .ok (x, c') => f x i c'
      | .error e => .error e := by
  change (d i c >>= fun r => f r.1 i r.2) = _
  cases d i c <;> rfl

/-- A run of two readers is a run of the first one and a run of the second one. -/
theorem bind_ok {d : Decoder α} {f : α → Decoder β} {i : Input} {c c' : Cursor} {y : β}
    (h : (d >>= f) i c = .ok (y, c')) :
    ∃ x c₁, d i c = .ok (x, c₁) ∧ f x i c₁ = .ok (y, c') := by
  rw [bind_eq] at h
  split at h
  next x c₁ hd => exact ⟨x, c₁, hd, h⟩
  next => cases h

namespace Local

theorem within {d : Decoder α} (hd : Local d) {i : Input} {c c' : Cursor} {x : α}
    (hc : c.Within i.size) (h : d i c = .ok (x, c')) : c'.Within i.size := by
  obtain ⟨front, hrest, hplace⟩ := hd.advances hc h
  simp only [Cursor.Within, hrest, List.length_append] at hc ⊢
  omega

protected theorem pure (x : α) : Local (Pure.pure x) where
  advances := by
    intro i c c' y _ h
    cases h
    exact ⟨[], rfl, rfl⟩
  extended := by
    intro i c c' y more _ h
    cases h
    rfl
  fails := by
    intro i c e _ h
    cases h

protected theorem bind {d : Decoder α} {f : α → Decoder β} (hd : Local d)
    (hf : ∀ x, d.Gives x → Local (f x)) : Local (d >>= f) where
  advances := by
    intro i c c' y hc h
    obtain ⟨x, c₁, h₁, h₂⟩ := bind_ok h
    obtain ⟨front₁, hrest₁, hplace₁⟩ := hd.advances hc h₁
    obtain ⟨front₂, hrest₂, hplace₂⟩ :=
      (hf x ⟨i, c, c₁, hc, h₁⟩).advances (hd.within hc h₁) h₂
    refine ⟨front₁ ++ front₂, by rw [hrest₁, hrest₂, List.append_assoc], ?_⟩
    rw [hplace₂, hplace₁, List.length_append, Nat.add_assoc]
  extended := by
    intro i c c' y more hc h
    obtain ⟨x, c₁, h₁, h₂⟩ := bind_ok h
    rw [bind_of_ok (hd.extended more hc h₁)]
    exact (hf x ⟨i, c, c₁, hc, h₁⟩).extended more (hd.within hc h₁) h₂
  fails := by
    intro i c e hc h
    rw [bind_eq] at h
    split at h
    next x c₁ h₁ => exact (hf x ⟨i, c, c₁, hc, h₁⟩).fails (hd.within hc h₁) h
    next e' h₁ =>
      cases h
      exact hd.fails hc h₁

theorem fail (f : Fault) : Local (Decoder.fail f : Decoder α) where
  advances := by
    intro i c c' x _ h
    cases h
  extended := by
    intro i c c' x more _ h
    cases h
  fails := by
    intro i c e hc h
    cases h
    exact Nat.le.intro hc

theorem byte : Local Decoder.byte where
  advances := by
    intro i c c' b _ h
    obtain ⟨place, rest⟩ := c
    cases rest with
    | nil => cases h
    | cons a rest =>
      cases h
      exact ⟨[b], rfl, rfl⟩
  extended := by
    intro i c c' b more _ h
    obtain ⟨place, rest⟩ := c
    cases rest with
    | nil => cases h
    | cons a rest =>
      cases h
      rfl
  fails := by
    intro i c e hc h
    obtain ⟨place, rest⟩ := c
    cases rest with
    | nil =>
      cases h
      exact Nat.le.intro hc
    | cons a rest => cases h

end Local

/-- A number has at most as many bytes as are allowed, and the bytes after them do not matter. -/
theorem readUvarint_some {limit n count : Nat} {t rest : Text}
    (h : readUvarint (limit + 1) t = some (n, count, rest)) :
    n < 2 * 128 ^ limit ∧ (∃ front, t = front ++ rest ∧ front.length = count) ∧
      ∀ more, readUvarint (limit + 1) (t ++ more) = some (n, count, rest ++ more) := by
  induction limit generalizing t n count with
  | zero =>
    cases t with
    | nil => cases h
    | cons b t =>
      simp only [readUvarint] at h
      split at h
      next hb =>
        split at h
        next => cases h
        next hsmall =>
          cases h
          have hle : b.toNat < 2 := by
            simp only [decide_true, Bool.true_and, decide_eq_true_eq, UInt8.lt_iff_toNat_lt] at hsmall
            have h1 : (1 : UInt8).toNat = 1 := rfl
            omega
          refine ⟨by omega, ⟨[b], rfl, rfl⟩, fun more => ?_⟩
          simp only [List.cons_append, readUvarint, if_pos hb, if_neg hsmall]
      next => cases h
  | succ limit ih =>
    cases t with
    | nil => cases h
    | cons b t =>
      rw [readUvarint] at h
      split at h
      next hb =>
        cases h
        have hlt : b.toNat < 128 := UInt8.lt_iff_toNat_lt.mp hb
        have hpow : 0 < 128 ^ limit := Nat.pow_pos (by decide)
        refine ⟨by rw [Nat.pow_succ]; omega, ⟨[b], rfl, rfl⟩, fun more => ?_⟩
        rw [List.cons_append, readUvarint, if_pos hb]
        rfl
      next hb =>
        obtain ⟨⟨high, k, rest'⟩, hk, h⟩ := Option.bind_eq_some_iff.mp h
        cases h
        obtain ⟨hlt, ⟨front, ht, hlen⟩, hmore⟩ := ih hk
        refine ⟨by rw [Nat.pow_succ]; omega, ⟨b :: front, by rw [ht]; rfl, by simp [hlen]⟩, ?_⟩
        intro more
        rw [List.cons_append, readUvarint, if_neg hb, hmore]
        rfl

/-- The number that a run of a reader of numbers gives, and the bytes that it takes. -/
theorem varintAs_ok {f : Fault} {i : Input} {c c' : Cursor} {n : Nat}
    (h : varintAs f i c = .ok (n, c')) :
    ∃ count, readUvarint 10 c.rest = some (n, count, c'.rest) ∧ c'.place = c.place + count := by
  simp only [varintAs] at h
  split at h
  next n' count rest hr =>
    cases h
    exact ⟨count, hr, rfl⟩
  next => cases h

theorem varintAs_lt {f : Fault} {n : Nat} (h : (varintAs f).Gives n) : n < 2 ^ 64 := by
  obtain ⟨i, c, c', _, h⟩ := h
  obtain ⟨count, hr, _⟩ := varintAs_ok h
  exact (readUvarint_some hr).1

theorem Local.varintAs (f : Fault) : Local (Decoder.varintAs f) where
  advances := by
    intro i c c' n _ h
    obtain ⟨count, hr, hplace⟩ := varintAs_ok h
    obtain ⟨_, ⟨front, hrest, hlen⟩, _⟩ := readUvarint_some hr
    exact ⟨front, hrest, by rw [hplace, hlen]⟩
  extended := by
    intro i c c' n more _ h
    obtain ⟨count, hr, hplace⟩ := varintAs_ok h
    obtain ⟨_, _, hmore⟩ := readUvarint_some hr
    simp only [Decoder.varintAs, hmore more, hplace]
  fails := by
    intro i c e hc h
    simp only [Decoder.varintAs] at h
    split at h
    next => cases h
    next =>
      cases h
      exact Nat.le.intro hc

/-- The check of a count against what is left, which more input does not make fail. -/
theorem Local.remaining (n : Nat) : Local (do
    if (← read).size - (← get).place < n then Decoder.fail (.length n) else return n) where
  advances := by
    intro i c c' x _ h
    change (if i.size - c.place < n then Decoder.fail _ else Pure.pure n : Decoder Nat) i c = _ at h
    split at h
    · cases h
    · cases h
      exact ⟨[], rfl, rfl⟩
  extended := by
    intro i c c' x more _ h
    change (if i.size - c.place < n then Decoder.fail _ else Pure.pure n : Decoder Nat) i c = _ at h
    change (if i.size + more.length - c.place < n then Decoder.fail _ else Pure.pure n : Decoder Nat)
      _ _ = _
    split at h
    · cases h
    · cases h
      rw [if_neg (by omega)]
      rfl
  fails := by
    intro i c e hc h
    change (if i.size - c.place < n then Decoder.fail _ else Pure.pure n : Decoder Nat) i c = _ at h
    split at h
    · cases h
      exact Nat.le.intro hc
    · cases h

theorem Local.length : Local Decoder.length :=
  (Local.varintAs .uvarint).bind fun n _ => .remaining n

/-- A count is below the bound of numbers and never exceeds what is left. -/
theorem length_ok {i : Input} {c c' : Cursor} {n : Nat} (hc : c.Within i.size)
    (h : length i c = .ok (n, c')) : n < 2 ^ 64 ∧ n ≤ i.size - c'.place := by
  obtain ⟨k, c₁, h₁, h₂⟩ := bind_ok h
  have hk := varintAs_lt ⟨i, c, c₁, hc, h₁⟩
  change (if i.size - c₁.place < k then Decoder.fail _ else Pure.pure k : Decoder Nat) i c₁ = _ at h₂
  split at h₂
  · cases h₂
  · cases h₂
    exact ⟨hk, by omega⟩

theorem text_ok {i : Input} {c c' : Cursor} {t : Text} (h : text i c = .ok (t, c')) :
    ∃ n, uvarint i c = .ok (n, c') ∧ i.table[n]? = some t := by
  obtain ⟨n, c₁, hn, _⟩ := bind_ok h
  rw [text_of_uvarint hn] at h
  cases hu : i.table[n]? with
  | none =>
    rw [hu] at h
    cases h
  | some u =>
    rw [hu] at h
    cases h
    exact ⟨n, hn, hu⟩

theorem Local.text : Local Decoder.text where
  advances := by
    intro i c c' t hc h
    obtain ⟨n, hn, _⟩ := text_ok h
    exact (Local.varintAs .uvarint).advances hc hn
  extended := by
    intro i c c' t more hc h
    obtain ⟨n, hn, hu⟩ := text_ok h
    rw [text_of_uvarint ((Local.varintAs .uvarint).extended more hc hn)]
    simp only [hu, Option.elim_some]
  fails := by
    intro i c e hc h
    cases hn : uvarint i c with
    | ok r =>
      rw [text_of_uvarint hn] at h
      cases hu : i.table[r.1]? with
      | none =>
        rw [hu] at h
        cases h
        exact Nat.le.intro ((Local.varintAs .uvarint).within hc hn)
      | some u =>
        rw [hu] at h
        cases h
    | error e' =>
      rw [Decoder.text, bind_of_error hn] at h
      cases h
      exact (Local.varintAs .uvarint).fails hc hn

theorem Local.times {d : Decoder α} (hd : Local d) (n : Nat) : Local (d.times n) := by
  induction n with
  | zero => exact .pure []
  | succ n ih => exact hd.bind fun x _ => ih.bind fun xs _ => .pure (x :: xs)

theorem Local.list {d : Decoder α} (hd : Local d) : Local d.list :=
  Local.length.bind fun n _ => hd.times n

/-- An entry of the table takes its length and as many bytes, which are all there. -/
theorem Local.tableEntry : Local Decoder.tableEntry where
  advances := by
    intro i c c' t hc h
    obtain ⟨n, c₁, h₁, h₂⟩ := bind_ok h
    obtain ⟨front, hrest, hplace⟩ := Local.length.advances hc h₁
    have hc₁ : c₁.place + c₁.rest.length = i.size := Local.length.within hc h₁
    have hn := (length_ok hc h₁).2
    cases h₂
    refine ⟨front ++ c₁.rest.take n, by rw [hrest, List.append_assoc, List.take_append_drop], ?_⟩
    rw [hplace, List.length_append, List.length_take_of_le (by omega), Nat.add_assoc]
  extended := by
    intro i c c' t more hc h
    obtain ⟨n, c₁, h₁, h₂⟩ := bind_ok h
    have hc₁ : c₁.place + c₁.rest.length = i.size := Local.length.within hc h₁
    have hn := (length_ok hc h₁).2
    cases h₂
    unfold Decoder.tableEntry
    rw [bind_of_ok (Local.length.extended more hc h₁)]
    change Except.ok ((c₁.rest ++ more).take n, Cursor.mk _ ((c₁.rest ++ more).drop n)) = _
    rw [List.take_append_of_le_length (by omega), List.drop_append_of_le_length (by omega)]
  fails := by
    intro i c e hc h
    unfold Decoder.tableEntry at h
    rw [bind_eq] at h
    split at h
    · cases h
    · next e' h₁ =>
      cases h
      exact Local.length.fails hc h₁

theorem Local.preamble : Local Decoder.preamble := by
  refine (Local.varintAs .uvarint).bind fun v _ => ?_
  by_cases hv : v = formatVersion
  · subst hv
    exact Local.tableEntry.list
  · refine ⟨fun _ h => ?_, fun _ _ h => ?_, fun _ h => ?_⟩ <;>
      rw [if_pos hv] at h <;> cases h
    trivial

end Decoder

end Wire

end Shading
