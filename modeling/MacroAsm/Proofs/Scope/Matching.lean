import Mathlib
import MacroAsm.Number.Literal
import MacroAsm.Proofs.Scope.Written
import MacroAsm.Proofs.Token.Order

/-!
# Brackets that do not match

A line whose brackets do not match is not nested, and the fault says which bracket is to blame: a
closing one that does not match the innermost open one, the first of its kind
(`Nest.FirstMismatch`), or the last one of those that are still open at the end
(`Nest.LastUnclosed`). Neither names and commas nor bare calls, which have no bracket of their own,
make a difference here (`Scope.brackets_of_ofTokens`).
-/

namespace MacroAsm

namespace Nest

/-- At the offset is a closing bracket of the given kind, which does not match the innermost bracket
that is open there. All closing brackets before it match. -/
def FirstMismatch (tokens : List Token) (kind : TokenKind) (offset : Nat) : Prop :=
  ∃ front t back opens, tokens = front ++ t :: back ∧ t.kind = kind ∧ t.start = offset ∧
    (∀ u ∈ tokens, u.start = offset → u = t) ∧ front.foldlM openAfter [] = some opens ∧
    openAfter opens t = none

/-- The token opens brackets of the given shape. -/
def OpensBracket (t : Token) (bracket : Char) : Prop :=
  t.kind = .openParen ∧ bracket = '(' ∨ t.kind = .openBracket ∧ bracket = '['

/-- All closing brackets match, and at the offset is the last one of the brackets that are never
closed. -/
def LastUnclosed (tokens : List Token) (bracket : Char) (offset : Nat) : Prop :=
  ∃ front t back opens, tokens = front ++ t :: back ∧ OpensBracket t bracket ∧ t.start = offset ∧
    (∀ u ∈ tokens, u.start = offset → u = t) ∧ tokens.foldlM openAfter [] = some (t :: opens) ∧
    WellNested back

variable {cut : Nat → Nat → String} {read : NumeralReader} {n : Nesting} {atHead : Bool}
  {before : Option Token} {t : Token} {tokens back opens : List Token} {fault : Fault}
  {bracket : Char} {offset : Nat}

theorem Wrote.openAfter_eq_none (h : Wrote opens tokens n)
    (ht : t.kind = .closeParen ∨ t.kind = .closeBracket)
    (herror : addToken cut read n atHead before t back = .error fault) :
    openAfter opens t = none := by
  obtain ⟨items, depth, frames⟩ := n
  obtain ⟨outer, inner, args, haround, -, -⟩ := h
  rcases ht with ht | ht
  · simp only [addToken, ht] at herror
    have hclose := error_of_map_eq_error herror
    cases haround with
    | line | bareCall => simp [openAfter, ht, closing]
    | bracket _ _ ho => simp [openAfter, ht, closing, ho]
    | paren | call => cases hclose
  · simp only [addToken, ht] at herror
    have hclose := error_of_map_eq_error herror
    cases haround with
    | line | bareCall => simp [openAfter, ht, closing]
    | paren _ _ ho | call _ _ _ ho => simp [openAfter, ht, closing, ho]
    | bracket => cases hclose

theorem Wrote.exists_unclosed (h : Wrote opens tokens n)
    (hclose : Nesting.closeAll n.items n.frames = .error fault) :
    ∃ front o back opens' bracket, opens = o :: opens' ∧ tokens = front ++ o :: back ∧
      WellNested back ∧ OpensBracket o bracket ∧ fault = .unclosed bracket o.start := by
  obtain ⟨items, depth, frames⟩ := n
  obtain ⟨outer, inner, args, haround, hinner, rfl⟩ := h
  have hnested : WellNested inner := hinner.foldlM_openAfter []
  cases haround with
  | line | bareCall => cases hclose
  | paren _ _ ho | call _ _ _ ho =>
    cases hclose
    exact ⟨_, _, inner, _, '(', rfl, List.append_assoc .., hnested, .inl ⟨ho, rfl⟩, rfl⟩
  | bracket _ _ ho =>
    cases hclose
    exact ⟨_, _, inner, _, '[', rfl, List.append_assoc .., hnested, .inr ⟨ho, rfl⟩, rfl⟩

end Nest

namespace Scope

open Nest

variable {read : NumeralReader} {tokens : List Token} {line : List Char} {kind : TokenKind}
  {fault : Fault} {offset : Nat}

theorem firstMismatch_of_ofTokens (hscan : scan line = .ok tokens)
    (h : Scope.ofTokens (cutLine line) read tokens = .error fault)
    (hkind : kind = .closeParen ∨ kind = .closeBracket)
    (hunclosed : ∀ bracket offset, fault ≠ .unclosed bracket offset)
    (hfault : ∀ t, TokenFault (cutLine line) t fault → t.kind = kind ∧ t.start = offset) :
    FirstMismatch tokens kind offset := by
  rcases exists_of_ofTokens_error h with ⟨bracket, o, heq⟩ |
    ⟨front, n, atHead, t, back, hreaches, herror⟩
  · exact absurd heq (hunclosed bracket o)
  · obtain ⟨ht, rfl⟩ := hfault t (tokenFault_of_addToken herror)
    obtain ⟨opens, hwrote⟩ := hreaches.exists_wrote
    have htokens := hreaches.append_eq
    have hmem : t ∈ tokens := by simp [← htokens]
    exact ⟨front, t, back, opens, htokens.symm, ht, rfl,
      fun u hu => (Scan.scan_inOrder hscan).eq_of_start hmem hu, hwrote.foldlM_openAfter,
      hwrote.openAfter_eq_none (ht ▸ hkind) herror⟩

/-- The brackets of a line that is nested match. If a line is not nested because of a bracket, this
is the first closing bracket that does not match or the last bracket that is never closed. -/
theorem brackets_of_ofTokens (read : NumeralReader) (hscan : scan line = .ok tokens) :
    (∀ root, Scope.ofTokens (cutLine line) read tokens = .ok root → WellNested tokens) ∧
    (∀ offset, Scope.ofTokens (cutLine line) read tokens = .error (.strayParen offset) →
      FirstMismatch tokens .closeParen offset) ∧
    (∀ offset, Scope.ofTokens (cutLine line) read tokens = .error (.strayBracket offset) →
      FirstMismatch tokens .closeBracket offset) ∧
    ∀ bracket offset,
      Scope.ofTokens (cutLine line) read tokens = .error (.unclosed bracket offset) →
        LastUnclosed tokens bracket offset := by
  refine ⟨fun root h => (written_of_ofTokens h).1, fun offset h => ?_, fun offset h => ?_,
    fun bracket offset h => ?_⟩
  · refine firstMismatch_of_ofTokens hscan h (.inl rfl) (by simp) fun t ht => ?_
    cases ht with
    | strayParen hkind => exact ⟨hkind, rfl⟩
  · refine firstMismatch_of_ofTokens hscan h (.inr rfl) (by simp) fun t ht => ?_
    cases ht with
    | strayBracket hkind => exact ⟨hkind, rfl⟩
  · rcases closeAll_or_addTokens_of_error h with ⟨n, hn, hclose⟩ | herror
    · obtain ⟨opens, hwrote⟩ := exists_wrote_of_addTokens hn
      obtain ⟨front, o, back, opens', bracket', rfl, htokens, hback, ho, heq⟩ :=
        hwrote.exists_unclosed hclose
      obtain ⟨rfl, rfl⟩ := Fault.unclosed.inj heq
      have hmem : o ∈ tokens := by simp [htokens]
      exact ⟨front, o, back, opens', htokens, ho, rfl,
        fun u hu => (Scan.scan_inOrder hscan).eq_of_start hmem hu, hwrote.foldlM_openAfter, hback⟩
    · obtain ⟨front, n, atHead, t, back, -, hadd⟩ := Reaches.start.exists_error herror
      cases tokenFault_of_addToken hadd

/-- In the bare call `f (a]` the parenthesis is open where the square bracket closes, and in
`f [g(a` two brackets stay open, of which the parenthesis is the last one. -/
theorem brackets_of_ofTokens_bareCall :
    (scan " f (a]".toList = .ok [⟨.name, 1, 2⟩, ⟨.blank, 2, 3⟩, ⟨.openParen, 3, 4⟩,
        ⟨.name, 4, 5⟩, ⟨.closeBracket, 5, 6⟩, ⟨.blank, 6, 6⟩] ∧
      FirstMismatch [⟨.name, 1, 2⟩, ⟨.blank, 2, 3⟩, ⟨.openParen, 3, 4⟩, ⟨.name, 4, 5⟩,
        ⟨.closeBracket, 5, 6⟩, ⟨.blank, 6, 6⟩] .closeBracket 5) ∧
    scan " f [g(a".toList = .ok [⟨.name, 1, 2⟩, ⟨.blank, 2, 3⟩, ⟨.openBracket, 3, 4⟩,
        ⟨.name, 4, 5⟩, ⟨.openParen, 5, 6⟩, ⟨.name, 6, 7⟩, ⟨.blank, 7, 7⟩] ∧
      LastUnclosed [⟨.name, 1, 2⟩, ⟨.blank, 2, 3⟩, ⟨.openBracket, 3, 4⟩, ⟨.name, 4, 5⟩,
        ⟨.openParen, 5, 6⟩, ⟨.name, 6, 7⟩, ⟨.blank, 7, 7⟩] '(' 5 := by
  have hmismatch : scan " f (a]".toList = .ok [⟨.name, 1, 2⟩, ⟨.blank, 2, 3⟩, ⟨.openParen, 3, 4⟩,
      ⟨.name, 4, 5⟩, ⟨.closeBracket, 5, 6⟩, ⟨.blank, 6, 6⟩] := by cbv
  have hunclosed : scan " f [g(a".toList = .ok [⟨.name, 1, 2⟩, ⟨.blank, 2, 3⟩,
      ⟨.openBracket, 3, 4⟩, ⟨.name, 4, 5⟩, ⟨.openParen, 5, 6⟩, ⟨.name, 6, 7⟩,
      ⟨.blank, 7, 7⟩] := by cbv
  exact ⟨⟨hmismatch, (brackets_of_ofTokens readNumeral hmismatch).2.2.1 5 (by cbv)⟩, hunclosed,
    (brackets_of_ofTokens readNumeral hunclosed).2.2.2 '(' 5 (by cbv)⟩

end Scope

end MacroAsm
