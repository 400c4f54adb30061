import MacroAsm.Proofs.Scope.Split

/-!
# Brackets and open scopes

`Nest.openAfter` says which parentheses and square brackets are open after a token, and
`Nest.WellNested` that they all close in order. Inside a macro call, one scope is open for each open
bracket (`Nest.InCall`), as long as the brackets match (`InCall.step`). So the call itself stays
open to the end of tokens that are well nested, and these are nested the same way whatever follows
them (`addTokens_append_inCall`).
-/

namespace MacroAsm

namespace Nest

/-! ## Brackets -/

/-- The brackets that stay open when the innermost one, which must be of the given kind, closes. -/
def closing (kind : TokenKind) : List Token → Option (List Token)
  | [] => none
  | o :: outer => if o.kind = kind then some outer else none

/-- The opening brackets that are open after a token, the innermost first. A closing bracket must
match the innermost one. -/
def openAfter (opens : List Token) (t : Token) : Option (List Token) :=
  match t.kind with
  | .openParen => some (t :: opens)
  | .openBracket => some (t :: opens)
  | .closeParen => closing .openParen opens
  | .closeBracket => closing .openBracket opens
  | _ => some opens

/-- The parentheses and square brackets of tokens are well nested. -/
def WellNested (tokens : List Token) : Prop := tokens.foldlM openAfter [] = some []

def IsPlain (t : Token) : Prop :=
  t.kind ≠ .openParen ∧ t.kind ≠ .openBracket ∧ t.kind ≠ .closeParen ∧ t.kind ≠ .closeBracket

variable {cut : Nat → Nat → String} {read : NumeralReader} {n n' : Nesting} {taken : Nat}
  {atHead bare : Bool} {before : Option Token} {t : Token} {tokens front back : List Token}
  {opens opens' : List Token} {frames : List Frame}

theorem openAfter_of_plain (h : IsPlain t) : openAfter opens t = some opens := by
  obtain ⟨h₁, h₂, h₃, h₄⟩ := h
  unfold openAfter
  split <;> simp_all

theorem foldlM_of_plain (h : ∀ t ∈ tokens, IsPlain t) :
    tokens.foldlM openAfter opens = some opens := by
  induction tokens with
  | nil => rfl
  | cons t tokens ih =>
    rw [List.forall_mem_cons] at h
    rw [List.foldlM_cons, openAfter_of_plain h.1]
    exact ih h.2

theorem eq_cons_of_closing {kind : TokenKind} (h : closing kind opens = some opens') :
    ∃ o, opens = o :: opens' ∧ o.kind = kind := by
  cases opens with
  | nil => cases h
  | cons o outer =>
    obtain ⟨ho, heq⟩ := Option.ite_none_right_eq_some.mp h
    cases heq
    exact ⟨o, rfl, ho⟩

theorem plain_of_isAtom (h : t.kind.isAtom = true) : IsPlain t := by
  refine ⟨?_, ?_, ?_, ?_⟩ <;>
    · intro hkind
      rw [hkind] at h
      cases h

theorem plain_of_words (h : ∀ t ∈ tokens, t.kind.isWord = true) : ∀ t ∈ tokens, IsPlain t :=
  fun t ht => plain_of_isAtom (TokenKind.isAtom_of_isWord (h t ht))

/-! ## Open scopes of a call -/

/-- The bracket that opened a scope. A bare call has none. -/
def Opening.IsOf (t : Token) : Opening → Prop
  | .paren offset => t.kind = .openParen ∧ t.start = offset
  | .bracket offset => t.kind = .openBracket ∧ t.start = offset
  | .call _ _ bare offset _ => bare = false ∧ t.kind = .openParen ∧ t.start = offset

/-- The scopes `frames` are open in a macro call, bare or not: one for each of the brackets `opens`,
and the call outside them. -/
inductive InCall (bare : Bool) : List Frame → List Token → Prop
  | call {name size openedAt args before depth} :
      InCall bare [⟨.call name size bare openedAt args, before, depth⟩] []
  | bracket {f frames t opens} (hf : f.opening.IsOf t) (h : InCall bare frames opens) :
      InCall bare (f :: frames) (t :: opens)

theorem InCall.frames_ne_nil (h : InCall bare frames opens) : frames ≠ [] := by
  cases h <;> simp

theorem InCall.length_eq (h : InCall bare frames opens) : frames.length = opens.length + 1 := by
  induction h with
  | call => rfl
  | bracket _ _ ih => rw [List.length_cons, List.length_cons, ih]

/-- A token in a call takes tokens with it and closes and opens scopes as their brackets say, if
these match. -/
theorem InCall.adds (h : InCall bare n.frames opens) (hadds : Adds t n tokens n')
    (hopens : openAfter opens t ≠ none) :
    ∃ opens', (t :: tokens).foldlM openAfter opens = some opens' ∧
      InCall bare n'.frames opens' := by
  obtain ⟨items, depth, frames⟩ := n
  cases hadds with
  | blank ht => exact ⟨opens, by simp [openAfter, ht], h⟩
  | mark ht =>
    have hplain : IsPlain t := by rcases ht with ht | ht <;> simp [IsPlain, ht]
    exact ⟨opens, by simp [openAfter_of_plain hplain], h⟩
  | leaf hatoms => exact ⟨opens, foldlM_of_plain fun u hu => plain_of_isAtom (hatoms u hu), h⟩
  | openParen ht | openBracket ht =>
    exact ⟨t :: opens, by simp [openAfter, ht], .bracket ⟨ht, rfl⟩ h⟩
  | @openCall words o name size hwords ho =>
    refine ⟨o :: opens, ?_, .bracket ⟨rfl, ho, rfl⟩ h⟩
    have hnext : openAfter opens o = some (o :: opens) := by simp [openAfter, ho]
    rw [← List.cons_append, List.foldlM_append, foldlM_of_plain (plain_of_words hwords)]
    simp [hnext]
  | openBare _ hframes => exact absurd hframes h.frames_ne_nil
  | closeParen ht hframes | closeBracket ht hframes =>
    obtain rfl : frames = _ := hframes
    cases h with
    | bracket hf h => exact ⟨_, by simp [openAfter, ht, closing, hf.1], h⟩
  | closeCall ht hframes =>
    obtain rfl : frames = _ := hframes
    cases h with
    | call =>
      -- the call itself has no bracket that is open
      exact absurd (by simp [openAfter, ht, closing]) hopens
    | bracket hf h => exact ⟨_, by simp [openAfter, ht, closing, hf.2.1], h⟩
  | comma ht hframes =>
    obtain rfl : frames = _ := hframes
    refine ⟨opens, by simp [openAfter, ht], ?_⟩
    cases h with
    | call => exact .call
    | bracket hf h => exact .bracket hf h

theorem InCall.addToken (h : InCall bare n.frames opens)
    (hadd : addToken cut read n atHead before t tokens = .ok (n', taken))
    (hopens : openAfter opens t ≠ none) :
    ∃ opens', (t :: tokens.take taken).foldlM openAfter opens = some opens' ∧
      InCall bare n'.frames opens' :=
  h.adds (adds_of_addToken hadd) hopens

/-! ## Runs in a call -/

variable {final : List Token}

theorem openAfter_ne_none (hopens : (t :: tokens).foldlM openAfter opens = some final) :
    openAfter opens t ≠ none := by
  intro hnone
  rw [List.foldlM_cons, hnone] at hopens
  cases hopens

/-- After a token in a call, the rest of the tokens closes the brackets that are then open. -/
theorem InCall.step (h : InCall bare n.frames opens)
    (hopens : (t :: tokens).foldlM openAfter opens = some final)
    (hadd : Nest.addToken cut read n atHead before t tokens = .ok (n', taken)) :
    ∃ opens', InCall bare n'.frames opens' ∧
      (tokens.drop taken).foldlM openAfter opens' = some final := by
  obtain ⟨opens', hfold, hcall⟩ := h.addToken hadd (openAfter_ne_none hopens)
  have hsplit : t :: tokens = (t :: tokens.take taken) ++ tokens.drop taken := by simp
  rw [hsplit, List.foldlM_append, hfold] at hopens
  exact ⟨opens', hcall, hopens⟩

theorem InCall.addTokens (h : InCall bare n.frames opens)
    (hopens : (tokens.drop taken).foldlM openAfter opens = some final)
    (hadd : addTokens cut read n atHead before taken tokens = .ok n') :
    InCall bare n'.frames final := by
  induction tokens generalizing n opens atHead before taken with
  | nil =>
    cases hadd
    rw [List.drop_nil] at hopens
    cases hopens
    exact h
  | cons t tokens ih =>
    cases taken with
    | succ taken => exact ih h hopens hadd
    | zero =>
      rw [Nest.addTokens] at hadd
      split at hadd
      next => cases hadd
      next m taken hm =>
        obtain ⟨opens', hcall, hopens'⟩ := h.step hopens hm
        exact ih hcall hopens' hadd

/-- Tokens in a call whose brackets match are nested as if nothing followed them, if nothing that
follows belongs to the last of them. -/
theorem addTokens_append_inCall {finish : Nesting → Except Fault Nesting}
    (h : InCall bare n.frames opens)
    (hopens : (front.drop taken).foldlM openAfter opens = some final)
    (htaken : taken ≤ front.length) (hback : ∀ u ∈ back.head?, IsApart u)
    (hfinish : ∀ n atHead before, addTokens cut read n atHead before 0 back = finish n) :
    addTokens cut read n atHead before taken (front ++ back) =
      (addTokens cut read n atHead before taken front).bind finish := by
  induction front generalizing n opens atHead before taken with
  | nil =>
    obtain rfl : taken = 0 := by simpa using htaken
    exact hfinish n atHead before
  | cons t front ih =>
    cases taken with
    | succ taken => exact ih h hopens (Nat.le_of_succ_le_succ htaken)
    | zero =>
      rw [List.cons_append, addTokens, addTokens,
        addToken_append (hidden_of_frames h.frames_ne_nil hback)]
      cases hadd : addToken cut read n atHead before t front with
      | error => rfl
      | ok result =>
        obtain ⟨opens', hcall, hopens'⟩ := h.step hopens hadd
        exact ih hcall hopens' (addToken_le hadd)

end Nest

end MacroAsm
