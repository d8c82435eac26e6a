import Tether.Json.Reader

/-!
# Numerals that read back

A numeral is formed if its parts are digits and its whole part has no idle zero in
front.  Such a numeral is read back from its characters as it is.  What numbers are
written as is formed, whatever the style: the shortest decimal of a number has a
digit that is not zero, and the layout puts that digit first.
-/

namespace Tether

section Spanning

theorem spanDigits_append {digits rest : List Char} (hdigits : ∀ c ∈ digits, c.isDigit = true)
    (hrest : ∀ c ∈ rest.head?, c.isDigit = false) :
    spanDigits (digits ++ rest) = (digits, rest) := by
  unfold spanDigits
  rw [List.takeWhile_append_of_pos hdigits, List.dropWhile_append_of_pos hdigits]
  cases rest with
  | nil => simp
  | cons c rest => simp [hrest c rfl]

end Spanning

namespace Decimal

section Digits

theorem digitsValue_toDigits (n : Nat) : digitsValue (Nat.toDigits 10 n) = n := by
  have hfold : ∀ (l : List Char) (k : Nat),
      l.foldl (fun n c => n * 10 + digitValue c) k = Nat.ofDigitChars 10 l k := by
    intro l
    induction l with
    | nil => intro k; rfl
    | cons c rest ih =>
        intro k
        rw [List.foldl_cons, ih, Nat.ofDigitChars_cons, Nat.mul_comm]
        rfl
  rw [digitsValue, hfold, Nat.ofDigitChars_ten_toDigits]

/-- A number that is not zero is written without a zero in front. -/
theorem exists_toDigits_eq_cons {n : Nat} (h : 0 < n) :
    ∃ c rest, Nat.toDigits 10 n = c :: rest ∧ c ≠ '0' := by
  induction n using Nat.strongRecOn with
  | ind n ih =>
      rw [Nat.toDigits_eq_if (by decide)]
      split
      · rename_i hlt
        refine ⟨_, [], rfl, ?_⟩
        rw [Ne, Nat.digitChar_eq_zero]
        omega
      · obtain ⟨c, rest, hdigits, hc⟩ := ih (n / 10) (by omega) (by omega)
        exact ⟨c, rest ++ [(n % 10).digitChar], by rw [hdigits]; rfl, hc⟩

end Digits

namespace Numeral

section Reading

/-- A numeral whose parts are digits, with no idle zero in front. -/
structure Formed (n : Numeral) : Prop where
  whole : isWhole n.whole = true
  wholeDigits : ∀ c ∈ n.whole, c.isDigit = true
  fractionDigits : ∀ c ∈ n.fraction, c.isDigit = true

/-- The characters of an exponent, if there is one. -/
def exponentTail : Option Int → List Char
  | none => []
  | some e => exponentChars e

/-- The characters of a fraction with its point, if there is one. -/
def fractionTail (fraction : List Char) : List Char :=
  if fraction.isEmpty then [] else '.' :: fraction

theorem chars_eq (n : Numeral) :
    n.chars = (if n.negative then ['-'] else []) ++
      (n.whole ++ (fractionTail n.fraction ++ exponentTail n.exponent)) := by
  obtain ⟨negative, whole, fraction, exponent⟩ := n
  cases exponent <;> simp [chars, fractionTail, exponentTail]

theorem isDigit_of_mem_toDigits {n : Nat} {c : Char} (h : c ∈ Nat.toDigits 10 n) :
    c.isDigit = true :=
  Nat.isDigit_of_mem_toDigits (by decide) (by decide) h

theorem readExponent?_exponentTail (e : Option Int) :
    readExponent? (exponentTail e) = some e := by
  cases e with
  | none => rfl
  | some e =>
      unfold readExponent? exponentTail exponentChars
      obtain ⟨size, hsize⟩ : ∃ size, e.natAbs = size := ⟨_, rfl⟩
      have hdigits : (Nat.toDigits 10 size).all Char.isDigit = true :=
        List.all_eq_true.mpr (fun _ => isDigit_of_mem_toDigits)
      by_cases he : e < 0
      · have hvalue : -(size : Int) = e := by omega
        simp [hsize, he, hdigits, Nat.toDigits_ne_nil, digitsValue_toDigits, hvalue]
      · have hvalue : (size : Int) = e := by omega
        simp [hsize, he, hdigits, Nat.toDigits_ne_nil, digitsValue_toDigits, hvalue]

/-- An exponent starts with a letter. -/
theorem head?_exponentTail (e : Option Int) :
    ∀ c ∈ (exponentTail e).head?, c = 'e' := by
  cases e with
  | none => exact nofun
  | some e => exact fun c hc => (Option.some.inj hc).symm

theorem readFraction?_append {fraction : List Char} (h : ∀ c ∈ fraction, c.isDigit = true)
    (e : Option Int) :
    readFraction? (fractionTail fraction ++ exponentTail e) =
      some (fraction, exponentTail e) := by
  cases fraction with
  | nil => cases e <;> rfl
  | cons d rest =>
      have hspan : spanDigits (d :: rest ++ exponentTail e) = (d :: rest, exponentTail e) :=
        spanDigits_append h (fun c hc => by rw [head?_exponentTail e c hc]; rfl)
      change (if (spanDigits (d :: rest ++ exponentTail e)).1.isEmpty then none
        else some (spanDigits (d :: rest ++ exponentTail e))) = _
      rw [hspan]
      rfl

/-- A formed numeral is read back from its characters. -/
theorem ofChars?_chars {n : Numeral} (h : n.Formed) : ofChars? n.chars = some n := by
  obtain ⟨negative, whole, fraction, exponent⟩ := n
  obtain ⟨hwhole, hdigits, hfraction⟩ := h
  dsimp only at hwhole hdigits hfraction
  have htail : ∀ c ∈ (fractionTail fraction ++ exponentTail exponent).head?,
      c.isDigit = false := by
    unfold fractionTail
    split
    · intro c hc
      rw [head?_exponentTail _ c hc]
      rfl
    · intro c hc
      rw [← Option.some.inj hc]
      rfl
  have hspan := spanDigits_append hdigits htail
  -- What starts with a digit does not start with a sign.
  have hsign : ∀ rest, whole ++ (fractionTail fraction ++ exponentTail exponent) ≠
      '-' :: rest := by
    intro rest heq
    cases whole with
    | nil => cases hwhole
    | cons c w =>
        have hdigit := hdigits c List.mem_cons_self
        rw [(List.cons.inj heq).1] at hdigit
        cases hdigit
  rw [chars_eq]
  unfold ofChars?
  cases negative with
  | true =>
      simp only [if_true, List.cons_append, List.nil_append]
      simp [hspan, hwhole, readFraction?_append hfraction, readExponent?_exponentTail]
  | false =>
      simp only [Bool.false_eq_true, if_false, List.nil_append]
      simp [hspan, hwhole, readFraction?_append hfraction, readExponent?_exponentTail]

theorem inNumeral_of_isDigit {d : Char} (hd : d.isDigit = true) : Json.inNumeral d = true := by
  simp [Json.inNumeral, hd]

theorem inNumeral_of_mem_fractionTail {fraction : List Char}
    (h : ∀ d ∈ fraction, d.isDigit = true) {d : Char} (hd : d ∈ fractionTail fraction) :
    Json.inNumeral d = true := by
  unfold fractionTail at hd
  split at hd
  · cases hd
  · rcases List.mem_cons.mp hd with rfl | hd
    · rfl
    · exact inNumeral_of_isDigit (h d hd)

theorem inNumeral_of_mem_exponentTail {exponent : Option Int} {d : Char}
    (hd : d ∈ exponentTail exponent) : Json.inNumeral d = true := by
  cases exponent with
  | none => cases hd
  | some e =>
      rcases List.mem_cons.mp hd with rfl | hd
      · rfl
      · rcases List.mem_cons.mp hd with rfl | hd
        · split <;> rfl
        · exact inNumeral_of_isDigit (isDigit_of_mem_toDigits hd)

/-- A formed numeral starts with a sign or a digit and goes on with characters of
numerals. -/
theorem Formed.exists_chars_eq_cons {n : Numeral} (h : n.Formed) :
    ∃ c rest, n.chars = c :: rest ∧ (c.isDigit = true ∨ c = '-') ∧
      ∀ d ∈ rest, Json.inNumeral d = true := by
  obtain ⟨negative, whole, fraction, exponent⟩ := n
  obtain ⟨hwhole, hdigits, hfraction⟩ := h
  dsimp only at hwhole hdigits hfraction
  have hall : ∀ d ∈ whole ++ (fractionTail fraction ++ exponentTail exponent),
      Json.inNumeral d = true := by
    simp only [List.forall_mem_append]
    exact ⟨fun d hd => inNumeral_of_isDigit (hdigits d hd),
      fun d hd => inNumeral_of_mem_fractionTail hfraction hd,
      fun d hd => inNumeral_of_mem_exponentTail hd⟩
  rw [chars_eq]
  cases negative with
  | true => exact ⟨'-', _, rfl, .inr rfl, hall⟩
  | false =>
      cases whole with
      | nil => cases hwhole
      | cons c w => exact ⟨c, _, rfl, .inl (hdigits c List.mem_cons_self),
          (List.forall_mem_cons.mp hall).2⟩

end Reading

section Writing

theorem isWhole_cons {c : Char} (hc : c ≠ '0') (rest : List Char) : isWhole (c :: rest) = true := by
  cases rest with
  | nil => rfl
  | cons d rest => exact decide_eq_true hc

theorem formed_ofNat (n : Nat) : (ofNat n).Formed := by
  refine ⟨?_, fun _ => isDigit_of_mem_toDigits, nofun⟩
  rcases Nat.eq_zero_or_pos n with rfl | hpos
  · rfl
  · obtain ⟨c, rest, hdigits, hc⟩ := exists_toDigits_eq_cons hpos
    rw [ofNat, hdigits]
    exact isWhole_cons hc rest

/-- A natural number is read back up to any bound that it keeps. -/
theorem toNat?_ofNat {n bound : Nat} (h : n ≤ bound) : (ofNat n).toNat? bound = some n := by
  simp [toNat?, ofNat, digitsValue_toDigits, h]

end Writing

end Numeral

section Shortest

variable {i : Interval} {g : Grid} {tie : Tie} {place : Int}

/-- Zero is in the interval of no number that is not zero. -/
theorem holds_zero (hlow : 0 < i.low) (hg : 0 < g.numerator) : i.holds g 0 = false := by
  have hpos : 0 < i.low * g.numerator := Nat.mul_pos hlow hg
  unfold Interval.holds
  rw [Nat.zero_mul]
  split
  · exact decide_eq_false (by omega)
  · exact decide_eq_false (by omega)

theorem point?_pos (hlow : 0 < i.low) {p : Nat} (h : i.point? tie place = some p) : 0 < p := by
  have hg : 0 < (i.grid place).numerator :=
    Nat.mul_pos (Nat.pow_pos (by decide)) (Nat.pow_pos (by decide))
  have hpos : ∀ q, i.holds (i.grid place) q = true → 0 < q := by
    intro q hq
    rcases Nat.eq_zero_or_pos q with rfl | hq'
    · rw [holds_zero hlow hg] at hq
      cases hq
    · exact hq'
  unfold Interval.point? at h
  dsimp only at h
  split at h
  · cases h
  · rename_i hbelow _
    rw [← Option.some.inj h]
    exact hpos _ hbelow
  · rw [← Option.some.inj h]
    exact Nat.succ_pos _
  · rename_i hbelow _
    have := hpos _ hbelow
    rw [← Option.some.inj h]
    unfold Interval.nearer
    dsimp only
    split
    · exact this
    · split
      · exact Nat.succ_pos _
      · split
        · exact Nat.succ_pos _
        · split
          · exact this
          · exact Nat.succ_pos _

theorem digits_search_pos (hlow : 0 < i.low) (hmiddle : 0 < i.middle) (grids : Nat)
    (place : Int) : 0 < (i.search tie grids place).digits := by
  induction grids generalizing place with
  | zero =>
      exact Nat.mul_pos (Nat.mul_pos hmiddle (Nat.pow_pos (by decide))) (Nat.pow_pos (by decide))
  | succ grids ih =>
      unfold Interval.search
      split
      · rename_i hpoint
        exact point?_pos hlow hpoint
      · exact ih _

/-- The shortest decimal of a number that is not zero has a digit. -/
theorem digits_shortest_pos {significand : Nat} (h : 0 < significand) (exponent : Int) :
    0 < (shortest tie significand exponent).digits := by
  refine digits_search_pos ?_ ?_ 24 _
  · unfold Interval.ofBinary
    dsimp only
    split <;> omega
  · exact Nat.mul_pos (by decide) h

end Shortest

namespace Style

variable {style : Style}

theorem isDigit_of_mem_wholeFraction {c : Char} (h : c ∈ style.wholeFraction) :
    c.isDigit = true := by
  unfold wholeFraction at h
  split at h
  · rw [List.mem_singleton.mp h]
    rfl
  · cases h

/-- Digits are laid out as a formed numeral. -/
theorem formed_layOut (negative : Bool) {d : Scaled} (hd : 0 < d.digits) :
    (style.layOut negative d).Formed := by
  obtain ⟨c, rest, hdigits, hc⟩ := exists_toDigits_eq_cons hd
  have hdigit : ∀ e ∈ c :: rest, e.isDigit = true :=
    fun e he => Numeral.isDigit_of_mem_toDigits (hdigits ▸ he)
  have hzeros : ∀ k, ∀ e ∈ List.replicate k '0', e.isDigit = true := by
    intro k e he
    rw [List.eq_of_mem_replicate he]
    rfl
  unfold layOut
  rw [hdigits]
  dsimp only
  split
  · split
    · refine ⟨Numeral.isWhole_cons hc _, fun e he => ?_, fun _ => isDigit_of_mem_wholeFraction⟩
      exact (List.mem_append.mp he).elim (hdigit e) (hzeros _ e)
    · split
      · rename_i hplaces
        obtain ⟨k, hk⟩ := Int.eq_succ_of_zero_lt hplaces
        refine ⟨?_, fun e he => hdigit e (List.mem_of_mem_take he),
          fun e he => hdigit e (List.mem_of_mem_drop he)⟩
        rw [hk]
        exact Numeral.isWhole_cons hc _
      · refine ⟨rfl, fun e he => ?_, fun e he => ?_⟩
        · rw [List.mem_singleton.mp he]
          rfl
        · exact (List.mem_append.mp he).elim (hzeros _ e) (hdigit e)
  · exact ⟨rfl, fun e he => hdigit e (List.mem_of_mem_take he),
      fun e he => hdigit e (List.mem_of_mem_drop he)⟩

/-- What a number is written as is formed. -/
theorem formed_of_numeral? {x : Binary64} {n : Numeral} (h : style.numeral? x = some n) :
    n.Formed := by
  unfold numeral? at h
  split at h
  · split at h
    · cases h
      exact ⟨rfl, by simp, fun _ => isDigit_of_mem_wholeFraction⟩
    · rename_i hne
      cases h
      exact formed_layOut _ (digits_shortest_pos (Nat.pos_of_ne_zero hne) _)
  · cases h

end Style
end Decimal
end Tether
