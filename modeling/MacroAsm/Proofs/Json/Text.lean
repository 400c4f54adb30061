import Mathlib.Data.List.Basic
import MacroAsm.Json.Read
import MacroAsm.Json.Write

/-!
# Texts and numbers are read back

`Json.stringTail?_writeString` and `Json.unsigned?_toDigits`: what a text, or a natural number of 64
bits, is written as is read as that text or number, whatever comes after it that does not go on with
the number.
-/

namespace MacroAsm.Json

variable {fuel n : Nat} {c : Char} {cs ds rest : List Char} {done : List Char}

/-! ## Texts -/

theorem hexDigit?_digitChar : ∀ n < 16, hexDigit? (Nat.digitChar n) = some n := by decide

theorem numbered?_control (h : c.toNat < 0x20) :
    numbered? ('0' :: '0' :: Nat.digitChar (c.toNat / 16) :: Nat.digitChar (c.toNat % 16) :: cs) =
      some (some c, cs) := by
  have hzero : hexDigit? '0' = some 0 := rfl
  have hhigh : hexDigit? (Nat.digitChar (c.toNat / 16)) = some (c.toNat / 16) :=
    hexDigit?_digitChar _ (by omega)
  have hlow : hexDigit? (Nat.digitChar (c.toNat % 16)) = some (c.toNat % 16) :=
    hexDigit?_digitChar _ (by omega)
  have hunit : hexUnit? ('0' :: '0' :: Nat.digitChar (c.toNat / 16) ::
      Nat.digitChar (c.toNat % 16) :: cs) = some (c.toNat, cs) := by
    simp only [hexUnit?, hzero, hhigh, hlow, Option.bind_eq_bind, Option.bind_some, Option.pure_def]
    rw [show (0 * 16 + 0) * 256 + c.toNat / 16 * 16 + c.toNat % 16 = c.toNat by omega]
  simp only [numbered?, hunit, Option.bind_eq_bind, Option.bind_some]
  rw [if_pos (.inl (by omega)), Char.ofNat_toNat]
  rfl

theorem stringTail?_writeChar :
    stringTail? (fuel + 1) (some done) (writeChar c ++ cs) =
      stringTail? fuel (some (c :: done)) cs := by
  rw [writeChar]
  cases hshort : shortEscape? c with
  | some letter =>
    have hescape : escape? letter cs = some (some c, cs) := by
      unfold shortEscape? at hshort
      split at hshort <;> cases hshort <;> rfl
    simp only [List.cons_append, List.nil_append, stringTail?, hescape, consChar?]
  | none =>
    dsimp only
    split
    next hcontrol =>
      simp only [List.cons_append, List.nil_append, stringTail?, escape?,
        numbered?_control hcontrol, consChar?]
    next hplain =>
      have hquote : c ≠ '"' := by rintro rfl; cases hshort
      have hback : c ≠ '\\' := by rintro rfl; cases hshort
      rw [List.singleton_append, stringTail?, if_neg hplain]
      · rfl
      · exact hquote
      · exact fun _ _ h _ => hback h

theorem length_writeChar_pos (c : Char) : 0 < (writeChar c).length := by
  unfold writeChar
  split
  · exact Nat.succ_pos _
  · split <;> exact Nat.succ_pos _

theorem stringTail?_writeChars (hfuel : (cs.flatMap writeChar).length < fuel) :
    stringTail? fuel (some done) (cs.flatMap writeChar ++ '"' :: rest) =
      some (some (String.ofList (done.reverse ++ cs)), rest) := by
  induction cs generalizing fuel done with
  | nil =>
    obtain ⟨fuel, rfl⟩ := Nat.exists_eq_succ_of_ne_zero (Nat.ne_of_gt hfuel)
    rw [List.append_nil]
    rfl
  | cons c cs ih =>
    rw [List.flatMap_cons, List.length_append] at hfuel
    have hpos := length_writeChar_pos c
    obtain ⟨fuel, rfl⟩ := Nat.exists_eq_add_of_lt (Nat.zero_lt_of_lt hfuel)
    rw [Nat.zero_add] at hfuel ⊢
    rw [List.flatMap_cons, List.append_assoc, stringTail?_writeChar, ih (by omega),
      List.reverse_cons, List.append_assoc]
    rfl

theorem stringTail?_writeString {s : String} (hfuel : (writeString s).toList.length ≤ fuel + 1) :
    ∃ tail, (writeString s).toList = '"' :: tail ∧
      stringTail? fuel (some []) (tail ++ rest) = some (some s, rest) := by
  rw [writeString, String.toList_ofList] at hfuel ⊢
  refine ⟨s.toList.flatMap writeChar ++ ['"'], rfl, ?_⟩
  rw [List.append_assoc, List.singleton_append, stringTail?_writeChars, List.reverse_nil,
    List.nil_append, String.ofList_toList]
  simp only [List.cons_append, List.length_cons, List.length_append, List.length_nil] at hfuel
  omega

/-! ## Numbers -/

def EndsNumber (cs : List Char) : Prop :=
  ∀ c ∈ cs.head?, c.isDigit = false ∧ c ≠ '.' ∧ c ≠ 'e' ∧ c ≠ 'E'

theorem digitsValue_eq : digitsValue n ds = Nat.ofDigitChars 10 ds n := by
  simp only [digitsValue, Nat.ofDigitChars_eq_foldl, Nat.mul_comm]

theorem boundedDigits_eq (h : digitsValue n ds < Nat.pow 2 64) :
    boundedDigits n ds = (digitsValue n ds, 0) := by
  induction ds generalizing n with
  | nil => rfl
  | cons d ds ih =>
    have hnext : n * 10 + (d.toNat - '0'.toNat) ≤ digitsValue n (d :: ds) := by
      show _ ≤ digitsValue (n * 10 + (d.toNat - '0'.toNat)) ds
      have hpow : 0 < 10 ^ ds.length := Nat.pow_pos (by decide)
      rw [digitsValue_eq, Nat.ofDigitChars_eq_ofDigitChars_zero]
      exact Nat.le_trans (Nat.le_mul_of_pos_left _ hpow) (Nat.le_add_right ..)
    rw [boundedDigits, if_pos (Nat.lt_of_le_of_lt hnext h)]
    exact ih h

theorem head_toDigits (hn : 0 < n) : (Nat.toDigits 10 n).head? ≠ some '0' := by
  induction n using Nat.strongRecOn with
  | ind n ih =>
    by_cases hlt : n < 10
    · rw [Nat.toDigits_of_lt_base hlt, List.head?_cons, ne_eq, Option.some.injEq,
        Nat.digitChar_eq_zero]
      omega
    · rw [Nat.toDigits_of_base_le (by decide) (by omega), List.head?_append_of_ne_nil _ (by simp)]
      exact ih (n / 10) (by omega) (by omega)

theorem digits?_toDigits (hrest : EndsNumber rest) :
    digits? (Nat.toDigits 10 n ++ rest) = some (Nat.toDigits 10 n, rest) := by
  have hdigits : ∀ d ∈ Nat.toDigits 10 n, d.isDigit = true := fun d hd =>
    Nat.isDigit_of_mem_toDigits (by decide) (by decide) hd
  have htake : rest.takeWhile Char.isDigit = [] ∧ rest.dropWhile Char.isDigit = rest := by
    cases rest with
    | nil => exact ⟨rfl, rfl⟩
    | cons c rest => simp [(hrest c rfl).1]
  obtain ⟨d, ds, hcons⟩ := List.exists_cons_of_ne_nil (Nat.toDigits_ne_nil (n := n) (b := 10))
  unfold digits?
  rw [List.takeWhile_append_of_pos hdigits, List.dropWhile_append_of_pos hdigits, htake.1, htake.2,
    List.append_nil, hcons]

/-- A number is read back from its digits. -/
theorem unsigned?_toDigits (hn : n < Nat.pow 2 64) (hrest : EndsNumber rest) :
    unsigned? false (Nat.toDigits 10 n ++ rest) = some (natural n, rest) := by
  have hvalue : digitsValue 0 (Nat.toDigits 10 n) = n := by
    rw [digitsValue_eq, Nat.ofDigitChars_toDigits (by decide) (by decide)]
  have hbounded : boundedDigits 0 (Nat.toDigits 10 n) = (n, 0) := by
    rw [boundedDigits_eq (by rwa [hvalue]), hvalue]
  have hzero : ¬((Nat.toDigits 10 n).head? = some '0' ∧ (Nat.toDigits 10 n).length ≠ 1) := by
    rintro ⟨hhead, hlength⟩
    rcases Nat.eq_zero_or_pos n with rfl | hpos
    · exact hlength rfl
    · exact head_toDigits hpos hhead
  have hfraction : fraction? rest = some (none, rest) := by
    unfold fraction?
    split
    next rest => exact absurd rfl (hrest '.' rfl).2.1
    next => rfl
  have hexponent : exponent? rest = some (none, rest) := by
    cases rest with
    | nil => rfl
    | cons c rest =>
      obtain ⟨-, -, he, hE⟩ := hrest c rfl
      exact if_neg (by simp [he, hE])
  simp only [unsigned?, digits?_toDigits hrest, Option.bind_eq_bind, Option.bind_some, if_neg hzero,
    hfraction, hexponent, hbounded]
  rfl

end MacroAsm.Json
