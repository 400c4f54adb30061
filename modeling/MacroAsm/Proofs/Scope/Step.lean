import MacroAsm.Scope.Nest

/-!
# What one token adds

`Nest.Adds` lists everything that a token can do to a line nested so far, together with the tokens
that it takes along: a name takes its size suffix and the parenthesis of its call, a numeral its
fraction. Each entry says of what kinds these tokens are, and which scope has to be open. So what
every token keeps can be proved with no regard to how the line is read (`adds_of_addToken`).
-/

namespace MacroAsm

namespace TokenKind

def isWord : TokenKind → Bool
  | name => true
  | number => true
  | dot => true
  | _ => false

/-- Whether a token of this kind can make a leaf, or be part of one, that has a value. -/
def isAtom : TokenKind → Bool
  | string => true
  | name => true
  | number => true
  | openBrace => true
  | closeBrace => true
  | operator => true
  | cast => true
  | dot => true
  | _ => false

theorem isAtom_of_isWord {kind : TokenKind} (h : kind.isWord = true) : kind.isAtom = true := by
  cases kind <;> first | rfl | cases h

end TokenKind

def Token.IsMark (t : Token) : Prop := t.kind = .label ∨ t.kind = .impliedLabel

/-- The values that leaves have, by their kind. A label mark has none. -/
inductive Scope.IsValue : ScopeKind → Node → Prop
  | operator {o} (ho : o ≠ .subscript) : IsValue .operator (.bare o)
  | access {name part} : IsValue .operator (.binary .field (.text name) (.text part))
  | string {value} : IsValue .string (.string value)
  | text {name} : IsValue .text (.text name)
  | number {n} : IsValue .number (.number n)
  | openBrace : IsValue .openBrace (.brace .opening)
  | closeBrace : IsValue .closeBrace (.brace .closing)

theorem ok_of_map_eq_ok {α β ε : Type} {g : α → β} {x : Except ε α} {b : β}
    (h : x.map g = .ok b) : ∃ a, x = .ok a ∧ g a = b := by
  cases x with
  | error => cases h
  | ok a =>
    cases h
    exact ⟨a, rfl, rfl⟩

namespace Nest

/-- What the token `t`, with the tokens behind it that it takes along, makes of a nesting. -/
inductive Adds (t : Token) (n : Nesting) : List Token → Nesting → Prop
  | blank (ht : t.kind = .blank) : Adds t n [] n
  | mark (ht : t.IsMark) : Adds t n [] (n.addLeaf .label none)
  | leaf {more kind value} (hatoms : ∀ u ∈ t :: more, u.kind.isAtom = true)
      (hvalue : Scope.IsValue kind value) : Adds t n more (n.addLeaf kind (some value))
  | openParen (ht : t.kind = .openParen) : Adds t n [] (n.openParen t.start)
  | openBracket (ht : t.kind = .openBracket) : Adds t n [] (n.openBracket t.start)
  | openCall {words o name size} (hwords : ∀ u ∈ t :: words, u.kind.isWord = true)
      (ho : o.kind = .openParen) : Adds t n (words ++ [o]) (n.openCall name size false o.start)
  | openBare {words name size} (hwords : ∀ u ∈ t :: words, u.kind.isWord = true)
      (hframes : n.frames = []) : Adds t n words (n.openCall name size true t.start)
  | closeParen {offset before depth outer} (ht : t.kind = .closeParen)
      (hframes : n.frames = ⟨.paren offset, before, depth⟩ :: outer) :
      Adds t n [] (Nesting.close ⟨.paren offset, before, depth⟩ outer n.items)
  | closeCall {name size offset args before depth outer} (ht : t.kind = .closeParen)
      (hframes : n.frames = ⟨.call name size false offset args, before, depth⟩ :: outer) :
      Adds t n [] (Nesting.close ⟨.call name size false offset args, before, depth⟩ outer n.items)
  | closeBracket {offset before depth outer} (ht : t.kind = .closeBracket)
      (hframes : n.frames = ⟨.bracket offset, before, depth⟩ :: outer) :
      Adds t n [] (Nesting.close ⟨.bracket offset, before, depth⟩ outer n.items)
  | comma {name size bare offset args before depth outer} (ht : t.kind = .comma)
      (hframes : n.frames = ⟨.call name size bare offset args, before, depth⟩ :: outer) :
      Adds t n [] ⟨[], n.depth, ⟨.call name size bare offset
        (⟨.plain, depth + 1, none, n.items.reverse⟩ :: args), before, depth⟩ :: outer⟩

variable {cut : Nat → Nat → String} {read : NumeralReader} {n n' : Nesting} {taken : Nat}
  {atHead : Bool} {before : Option Token} {d t : Token} {tokens : List Token}

/-! ## Tokens that are taken along -/

theorem isWord_of_sizeSuffix :
    ∀ u ∈ tokens.take (sizeSuffix cut tokens).2, u.kind.isWord = true := by
  rcases tokens with _ | ⟨dot, tokens⟩
  · simp
  · by_cases hdot : dot.kind = .dot
    · rcases tokens with _ | ⟨run, tokens⟩
      · simp [sizeSuffix, hdot, TokenKind.isWord]
      · by_cases hrun : run.kind = .name ∨ run.kind = .number
        · rcases hrun with hrun | hrun <;> simp [sizeSuffix, hdot, hrun, TokenKind.isWord]
        · rw [not_or] at hrun
          simp [sizeSuffix, hdot, hrun, TokenKind.isWord]
    · simp [sizeSuffix, hdot]

theorem isAtom_of_numeralEnd :
    ∀ u ∈ tokens.take (numeralEnd t tokens).2, u.kind.isAtom = true := by
  rcases tokens with _ | ⟨dot, _ | ⟨fraction, tokens⟩⟩
  · simp
  · simp [numeralEnd]
  · by_cases h : (dot.kind = .dot && fraction.kind = .number && dot.start = t.stop &&
        fraction.start = dot.stop) = true
    · simp only [numeralEnd, h]
      simp only [Bool.and_eq_true, decide_eq_true_eq] at h
      simp [h, TokenKind.isAtom]
    · simp only [numeralEnd, h]
      simp

/-! ## Tokens -/

theorem adds_of_leaf {words : List Token} {text : String} {size : Option String}
    (hwords : ∀ u ∈ t :: words, u.kind.isWord = true) :
    Adds t n words
      (match size with
        | some part => n.addLeaf .operator (some (.binary .field (.text text) (.text part)))
        | none => n.addLeaf .text (some (.text text))) := by
  have hatoms := fun u hu => TokenKind.isAtom_of_isWord (hwords u hu)
  cases size with
  | some part => exact .leaf hatoms .access
  | none => exact .leaf hatoms .text

theorem adds_of_addName (lead : List Token) (hlead : ∀ u ∈ d :: lead, u.kind.isWord = true)
    (h : addName cut n atHead d.start t tokens = (n', taken)) :
    Adds d n (lead ++ tokens.take taken) n' := by
  have hwords : ∀ u ∈ d :: (lead ++ tokens.take (sizeSuffix cut tokens).2),
      u.kind.isWord = true := by
    rw [← List.cons_append, List.forall_mem_append]
    exact ⟨hlead, isWord_of_sizeSuffix⟩
  unfold addName at h
  generalize sizeSuffix cut tokens = suffix at h hwords
  obtain ⟨size, k⟩ := suffix
  simp only at h
  split at h
  next =>
    cases h
    exact adds_of_leaf hwords
  next next after hdrop =>
    split at h
    next hparen =>
      cases h
      have htake : tokens.take (k + 1) = tokens.take k ++ [next] := by
        rw [List.take_add_one, ← List.head?_drop, hdrop]
        rfl
      rw [htake, ← List.append_assoc]
      exact .openCall hwords hparen
    next =>
      split at h
      next hbare =>
        cases h
        simp only [Bool.and_eq_true, List.isEmpty_iff] at hbare
        exact .openBare hwords hbare.1.1.2
      next =>
        cases h
        exact adds_of_leaf hwords

theorem adds_of_closeParen (ht : t.kind = .closeParen) (h : n.closeParen t.start = .ok n') :
    Adds t n [] n' := by
  obtain ⟨items, depth, frames⟩ := n
  rcases frames with _ | ⟨⟨opening, before, depth'⟩, outer⟩
  · cases h
  cases opening with
  | paren offset =>
    cases h
    exact .closeParen ht rfl
  | bracket => cases h
  | call name size bare offset args =>
    cases bare <;> cases h
    exact .closeCall ht rfl

theorem adds_of_closeBracket (ht : t.kind = .closeBracket) (h : n.closeBracket t.start = .ok n') :
    Adds t n [] n' := by
  obtain ⟨items, depth, frames⟩ := n
  rcases frames with _ | ⟨⟨opening, before, depth'⟩, outer⟩
  · cases h
  cases opening <;> cases h
  exact .closeBracket ht rfl

theorem adds_of_nextArgument (ht : t.kind = .comma) (h : n.nextArgument t.start = .ok n') :
    Adds t n [] n' := by
  obtain ⟨items, depth, frames⟩ := n
  rcases frames with _ | ⟨⟨opening, before, depth'⟩, outer⟩
  · cases h
  cases opening <;> cases h
  exact .comma ht rfl

theorem ofSymbol?_ne_subscript {symbol : String} {o : Operator}
    (h : Operator.ofSymbol? symbol = some o) : o ≠ .subscript := by
  rintro rfl
  unfold Operator.ofSymbol? at h
  split at h <;> cases h

/-- Everything that a token can do to a line nested so far. -/
theorem adds_of_addToken (h : addToken cut read n atHead before t tokens = .ok (n', taken)) :
    Adds t n (tokens.take taken) n' := by
  unfold addToken at h
  split at h
  case h_1 hkind =>
    cases h
    exact .blank hkind
  case h_2 hkind =>
    cases h
    exact .mark (.inl hkind)
  case h_3 hkind =>
    cases h
    exact .mark (.inr hkind)
  case h_4 hkind =>
    cases h
    exact .leaf (by simp [hkind, TokenKind.isAtom]) (.operator (by decide))
  case h_5 hkind =>
    cases h
    exact .leaf (by simp [hkind, TokenKind.isAtom]) .openBrace
  case h_6 hkind =>
    cases h
    exact .leaf (by simp [hkind, TokenKind.isAtom]) .closeBrace
  case h_7 hkind =>
    cases h
    exact .openParen hkind
  case h_8 hkind =>
    cases h
    exact .openBracket hkind
  case h_9 hkind =>
    obtain ⟨m, hm, heq⟩ := ok_of_map_eq_ok h
    cases heq
    exact adds_of_closeParen hkind hm
  case h_10 hkind =>
    obtain ⟨m, hm, heq⟩ := ok_of_map_eq_ok h
    cases heq
    exact adds_of_closeBracket hkind hm
  case h_11 hkind =>
    obtain ⟨m, hm, heq⟩ := ok_of_map_eq_ok h
    cases heq
    exact adds_of_nextArgument hkind hm
  case h_12 hkind =>
    cases h
    exact .leaf (by simp [hkind, TokenKind.isAtom]) .string
  case h_13 hkind =>
    simp only at h
    split at h <;> cases h
    refine .leaf (List.forall_mem_cons.mpr ⟨?_, isAtom_of_numeralEnd⟩) .number
    rw [hkind]
    rfl
  case h_14 hkind =>
    simp only at h
    split at h
    next o ho =>
      cases h
      exact .leaf (by simp [hkind, TokenKind.isAtom]) (.operator (ofSymbol?_ne_subscript ho))
    next => cases h
  case h_15 hkind =>
    exact adds_of_addName [] (by simp [hkind, TokenKind.isWord]) (Except.ok.inj h)
  case h_16 hkind =>
    split at h
    · cases h
      exact .leaf (by simp [hkind, TokenKind.isAtom]) (.operator (by decide))
    · split at h
      next next rest =>
        split at h
        next hnext =>
          cases h
          rw [List.take_succ_cons]
          exact adds_of_addName [next] (by simp [hkind, hnext, TokenKind.isWord]) rfl
        next => cases h
      next => cases h

end Nest

end MacroAsm
