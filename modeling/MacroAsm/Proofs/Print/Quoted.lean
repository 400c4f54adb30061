import MacroAsm.Proofs.Print.Legible

/-!
# Strings between quotes

Characters between double quotes can be written with a backslash before them or as themselves
(`Escapes`). However each of them is written, the scanner finds the quote that closes the string
(`closingQuote?_flatMap`), and reading the escapes gives the characters back
(`unescaped_flatMap`).

So a string of quotable characters, which is printed that way (`escapes_quotedChar`), is scanned and
read again.
-/

namespace MacroAsm.Text

variable {c : Char} {cs : List Char}

/-- What is written between double quotes for the character `c`. -/
inductive Escapes (c : Char) : List Char → Prop
  | letter {letter} (h : escapedChar letter = some c) : Escapes c ['\\', letter]
  | plain (hback : c ≠ '\\') (hquote : c ≠ '"') : Escapes c [c]

/-! ## Characters in any writing -/

theorem Escapes.closingQuote? {written : List Char} (h : Escapes c written) (offset : Nat)
    (rest : List Char) :
    Scan.closingQuote? '"' false offset (written ++ rest) =
      Scan.closingQuote? '"' false (offset + byteSize written) rest := by
  cases h with
  | @letter letter =>
    by_cases hletter : letter = '\\'
    · simp [Scan.closingQuote?, hletter, Nat.add_assoc]
    · simp [Scan.closingQuote?, hletter, Nat.add_assoc]
  | plain hback hquote => simp [Scan.closingQuote?, hback, hquote]

theorem Escapes.unescapedOnto {written : List Char} (h : Escapes c written)
    (done rest : List Char) :
    unescapedOnto done (written ++ rest) = unescapedOnto (c :: done) rest := by
  cases h with
  | letter h => simp [Text.unescapedOnto, h]
  | plain hback =>
    rw [List.singleton_append, Text.unescapedOnto]
    rintro letter cs ⟨⟩
    exact absurd rfl hback

variable {write : Char → List Char}

theorem closingQuote?_flatMap (h : ∀ c ∈ cs, Escapes c (write c)) (offset : Nat)
    (rest : List Char) :
    Scan.closingQuote? '"' false offset (cs.flatMap write ++ '"' :: rest) =
      some (offset + byteSize (cs.flatMap write), rest) := by
  induction cs generalizing offset with
  | nil => simp [Scan.closingQuote?]
  | cons c cs ih =>
    rw [List.forall_mem_cons] at h
    rw [List.flatMap_cons, List.append_assoc, h.1.closingQuote?, ih h.2, byteSize_append,
      Nat.add_assoc]

theorem unescaped_flatMap (h : ∀ c ∈ cs, Escapes c (write c)) :
    unescaped (cs.flatMap write) = String.ofList cs := by
  have hdone : ∀ done, unescapedOnto done (cs.flatMap write) = done.reverse ++ cs := by
    induction cs with
    | nil => simp [unescapedOnto]
    | cons c cs ih =>
      intro done
      rw [List.forall_mem_cons] at h
      rw [List.flatMap_cons, h.1.unescapedOnto, ih h.2]
      simp
  rw [unescaped, hdone]
  rfl

/-! ## Printed strings -/

/-- A quotable character is printed with a backslash before it or as itself. -/
theorem escapes_quotedChar (h : IsQuotable c) : Escapes c (quotedChar c) := by
  cases hletter : escapeLetter c with
  | some letter =>
    have hquoted : quotedChar c = ['\\', letter] := by simp [quotedChar, hletter]
    rw [hquoted]
    apply Escapes.letter
    unfold escapeLetter at hletter
    split at hletter <;> cases hletter <;> rfl
  | none =>
    by_cases hnul : c = '\x00'
    · subst hnul
      have hzero : escapedChar '0' = some '\x00' := rfl
      exact .letter hzero
    · have hne : c ≠ '\\' ∧ c ≠ '"' ∧ c ∉ ['\t', '\r', '\n', '\x00'] := by
        refine ⟨?_, ?_, ?_⟩
        · rintro rfl
          cases hletter
        · rintro rfl
          cases hletter
        · intro hmem
          simp only [List.mem_cons, List.not_mem_nil, or_false] at hmem
          rcases hmem with rfl | rfl | rfl | rfl
          · cases hletter
          · cases hletter
          · cases hletter
          · exact hnul rfl
      obtain ⟨h₁, h₂⟩ := h.resolve_right hne.2.2
      rw [quotedChar_of_ascii hletter h₁ h₂]
      exact .plain hne.1 hne.2.1

theorem quotedChars_of_quotable (h : ∀ c ∈ cs, IsQuotable c) :
    quotedChars cs = cs.flatMap quotedChar := by
  cases cs with
  | nil => rfl
  | cons c cs =>
    have hc : extendsGrapheme c = false := by
      apply extendsGrapheme_of_ascii
      rcases h c (List.mem_cons_self ..) with ⟨-, hc⟩ | hc
      · exact hc
      · simp only [List.mem_cons, List.not_mem_nil, or_false] at hc
        rcases hc with rfl | rfl | rfl | rfl <;> decide
    simp [quotedChars, quotedFirstChar, hc]

theorem closingQuote?_quotedChars (h : ∀ c ∈ cs, IsQuotable c) (offset : Nat) (rest : List Char) :
    Scan.closingQuote? '"' false offset (quotedChars cs ++ '"' :: rest) =
      some (offset + byteSize (quotedChars cs), rest) := by
  rw [quotedChars_of_quotable h]
  exact closingQuote?_flatMap (fun c hc => escapes_quotedChar (h c hc)) offset rest

theorem unescaped_quotedChars (h : ∀ c ∈ cs, IsQuotable c) :
    unescaped (quotedChars cs) = String.ofList cs := by
  rw [quotedChars_of_quotable h]
  exact unescaped_flatMap fun c hc => escapes_quotedChar (h c hc)

end MacroAsm.Text
