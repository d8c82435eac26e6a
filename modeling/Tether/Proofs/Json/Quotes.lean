import Mathlib.Tactic.SplitIfs
import Tether.Json.Reader

/-!
# Texts between quotes

Every text is written so that it is read back, whatever characters it has: quotes,
backslashes and control characters are escaped, all others stand for themselves.
-/

namespace Tether
namespace Quoted

section Escaping

/-- A character is written as a letter behind a backslash, in hexadecimal, or as it
is. -/
theorem escape_cases (c : Char) :
    (∃ d, escape c = ['\\', d] ∧ d ≠ 'u' ∧ letter? d = some c) ∨
    (c.toNat < 32 ∧ escape c =
      ['\\', 'u', '0', '0', hexDigit (c.toNat / 16), hexDigit (c.toNat % 16)]) ∨
    (c ≠ '"' ∧ c ≠ '\\' ∧ ¬ c.toNat < 32 ∧ escape c = [c]) := by
  unfold escape
  split_ifs with hquote hslash hback hfeed hline hreturn htab hcontrol
  · exact .inl ⟨_, rfl, by decide, by rw [hquote]; rfl⟩
  · exact .inl ⟨_, rfl, by decide, by rw [hslash]; rfl⟩
  · exact .inl ⟨_, rfl, by decide, by rw [hback]; rfl⟩
  · exact .inl ⟨_, rfl, by decide, by rw [hfeed]; rfl⟩
  · exact .inl ⟨_, rfl, by decide, by rw [hline]; rfl⟩
  · exact .inl ⟨_, rfl, by decide, by rw [hreturn]; rfl⟩
  · exact .inl ⟨_, rfl, by decide, by rw [htab]; rfl⟩
  · exact .inr (.inl ⟨hcontrol, rfl⟩)
  · exact .inr (.inr ⟨hquote, hslash, hcontrol, rfl⟩)

end Escaping

section Decoding

theorem hexValue?_hexDigit {n : Nat} (h : n < 16) : hexValue? (hexDigit n) = some n := by
  have hall : ∀ k : Fin 16, hexValue? (hexDigit k) = some k.val := by decide
  exact hall ⟨n, h⟩

theorem hexValue4?_control {n : Nat} (h : n < 32) :
    hexValue4? '0' '0' (hexDigit (n / 16)) (hexDigit (n % 16)) = some n := by
  have hhigh := hexValue?_hexDigit (show n / 16 < 16 by omega)
  have hlow := hexValue?_hexDigit (show n % 16 < 16 by omega)
  have hzero : hexValue? '0' = some 0 := rfl
  simp only [hexValue4?, hzero, hhigh, hlow]
  exact congrArg some (by omega)

theorem bind_cons (c : Char) (o : Option (List Char)) :
    (do return c :: (← o)) = o.map (c :: ·) := by
  cases o <;> rfl

/-- A character in hexadecimal stands for itself, whatever follows. -/
theorem decode_control {n : Nat} (h : n < 32) (rest : List Char) :
    decode ('\\' :: 'u' :: '0' :: '0' :: hexDigit (n / 16) :: hexDigit (n % 16) :: rest) =
      (decode rest).map (Char.ofNat n :: ·) := by
  have hvalue := hexValue4?_control h
  have hleading : isLeading n = false := decide_eq_false (by omega)
  have htrailing : isTrailing n = false := decide_eq_false (by omega)
  rw [decode.eq_def]
  split
  · cases ‹_ = _›
  · -- Another one follows, which would be taken into account after half a pair.
    rename_i heq
    cases heq
    simp only [hvalue, hleading, htrailing, Option.bind_eq_bind, Option.bind_some,
      Bool.false_eq_true, if_false]
    exact bind_cons _ _
  · rename_i heq
    cases heq
    simp only [hvalue, hleading, htrailing, Option.bind_eq_bind, Option.bind_some, Bool.or_self,
      Bool.false_eq_true, if_false]
    exact bind_cons _ _
  · rename_i hno heq
    obtain ⟨-, hrest⟩ := List.cons.inj heq
    obtain ⟨hu, hrest⟩ := List.cons.inj hrest
    exact (hno _ _ _ _ _ hu.symm hrest.symm).elim
  · rename_i heq
    cases heq
  · rename_i hno _ heq
    obtain ⟨hslash, hrest⟩ := List.cons.inj heq
    exact (hno _ _ hslash.symm hrest.symm).elim

/-- A letter behind a backslash stands for its character. -/
theorem decode_letter {c d : Char} (hu : c ≠ 'u') (h : letter? c = some d) (rest : List Char) :
    decode ('\\' :: c :: rest) = (decode rest).map (d :: ·) := by
  rw [decode]
  · rw [h]
    exact bind_cons _ _
  · exact fun _ _ _ _ _ _ _ _ _ hc => absurd hc hu
  · exact fun _ _ _ _ _ hc => absurd hc hu

/-- Any other character stands for itself. -/
theorem decode_plain {c : Char} (h : c ≠ '\\') (rest : List Char) :
    decode (c :: rest) = (decode rest).map (c :: ·) := by
  rw [decode]
  · exact bind_cons _ _
  · exact fun _ _ _ _ _ _ _ _ _ hc => absurd hc h
  · exact fun _ _ _ _ _ hc => absurd hc h
  · exact fun _ _ hc => absurd hc h
  · exact fun hc => absurd hc h

theorem decode_escape (c : Char) (rest : List Char) :
    decode (escape c ++ rest) = (decode rest).map (c :: ·) := by
  rcases escape_cases c with ⟨d, hescape, hu, hletter⟩ | ⟨hcontrol, hescape⟩ |
    ⟨-, hslash, -, hescape⟩
  · rw [hescape]
    exact decode_letter hu hletter rest
  · rw [hescape]
    exact (decode_control hcontrol rest).trans (by rw [Char.ofNat_toNat])
  · rw [hescape]
    exact decode_plain hslash rest

/-- Every text is read back from what it is written as. -/
theorem toString?_ofString (s : String) : (ofString s).toString? = some s := by
  have hdecode : ∀ cs : List Char, decode (cs.flatMap escape) = some cs := by
    intro cs
    induction cs with
    | nil => rfl
    | cons c rest ih => rw [List.flatMap_cons, decode_escape, ih, Option.map_some]
  rw [toString?, ofString, hdecode, Option.map_some, String.ofList_toList]

end Decoding

end Quoted
end Tether
