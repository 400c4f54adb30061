import MacroAsm.Proofs.Scope.Bracket
import MacroAsm.Proofs.Scope.Reach

/-!
# What the tokens of a line write

`Nest.Writes` and `Nest.WritesLine` say which tokens write which scopes, with no regard to how a
line is read. A macro call is written by its name, a parenthesis, its arguments with a comma between
them, and a parenthesis, or without the parentheses at the end of the line. The brackets of what is
written match, and a call has one argument more than there are commas directly in it.

While a line is nested, the tokens so far write what is around the innermost open scope, and then
what is in it (`Nest.Wrote`), which every token keeps (`Wrote.adds`). So a line that is nested is
what its tokens write (`Scope.written_of_ofTokens`).
-/

namespace MacroAsm

namespace Nest

/-! ## Tokens and what they write -/

/-- How many commas are outside all brackets, when `opens` brackets are open before the tokens. -/
def directCommas (opens : Nat) : List Token → Nat
  | [] => 0
  | t :: tokens =>
    match t.kind with
    | .openParen => directCommas (opens + 1) tokens
    | .openBracket => directCommas (opens + 1) tokens
    | .closeParen => directCommas (opens - 1) tokens
    | .closeBracket => directCommas (opens - 1) tokens
    | .comma => (if opens = 0 then 1 else 0) + directCommas opens tokens
    | _ => directCommas opens tokens

/-- The tokens write the arguments `args`, each with a comma behind it, and then the scopes
`children`, which are at the given depth. Where there are no arguments there is no comma. -/
inductive Writes : Nat → List Token → List Scope → List Scope → Prop
  | nil {depth} : Writes depth [] [] []
  | blank {depth tokens args children t} (h : Writes depth tokens args children)
      (ht : t.kind = .blank) : Writes depth (tokens ++ [t]) args children
  | mark {depth tokens args children t} (h : Writes depth tokens args children) (ht : t.IsMark) :
      Writes depth (tokens ++ [t]) args (children ++ [⟨.label, depth, none, []⟩])
  | leaf {depth tokens args children t more kind value} (h : Writes depth tokens args children)
      (hatoms : ∀ u ∈ t :: more, u.kind.isAtom = true) (hvalue : Scope.IsValue kind value) :
      Writes depth (tokens ++ t :: more) args (children ++ [⟨kind, depth, some value, []⟩])
  /-- A comma ends an argument, and the next one starts. -/
  | comma {depth tokens args children t} (h : Writes (depth + 1) tokens args children)
      (ht : t.kind = .comma) :
      Writes (depth + 1) (tokens ++ [t]) (args ++ [⟨.plain, depth, none, children⟩]) []
  | group {depth tokens args children o inner items c} (h : Writes depth tokens args children)
      (ho : o.kind = .openParen) (hinner : Writes (depth + 1) inner [] items)
      (hc : c.kind = .closeParen) :
      Writes depth (tokens ++ (o :: inner ++ [c])) args (children ++ [⟨.plain, depth, none, items⟩])
  | brackets {depth tokens args children o inner items c} (h : Writes depth tokens args children)
      (ho : o.kind = .openBracket) (hinner : Writes (depth + 1) inner [] items)
      (hc : c.kind = .closeBracket) :
      Writes depth (tokens ++ (o :: inner ++ [c])) args
        (children ++ [⟨.operator, depth, some (.bare .subscript), items⟩])
  /-- A call has one argument more than there are commas directly in its parentheses. -/
  | call {depth tokens args children t words o inner own last c name size}
      (h : Writes depth tokens args children) (hwords : ∀ u ∈ t :: words, u.kind.isWord = true)
      (ho : o.kind = .openParen) (hinner : Writes (depth + 2) inner own last)
      (hcommas : own.length = directCommas 0 inner) (hc : c.kind = .closeParen) :
      Writes depth (tokens ++ (t :: words ++ (o :: inner ++ [c]))) args
        (children ++ [⟨.call, depth, some (.call name size []),
          own ++ [⟨.plain, depth + 1, none, last⟩]⟩])

/-- The tokens write a line. A bare call can only be the last child of the line. -/
inductive WritesLine : List Token → Scope → Prop
  | plain {tokens children} (h : Writes 1 tokens [] children) :
      WritesLine tokens ⟨.plain, 0, none, children⟩
  | bareCall {tokens children t words inner own last name size} (h : Writes 1 tokens [] children)
      (hwords : ∀ u ∈ t :: words, u.kind.isWord = true) (hinner : Writes 3 inner own last)
      (hcommas : own.length = directCommas 0 inner) :
      WritesLine (tokens ++ (t :: words ++ inner)) ⟨.plain, 0, none, children ++
        [⟨.call, 1, some (.call name size []), own ++ [⟨.plain, 2, none, last⟩]⟩]⟩

variable {cut : Nat → Nat → String} {read : NumeralReader} {n n' : Nesting} {depth : Nat}
  {atHead : Bool} {t : Token} {tokens more front back outer opens opens' : List Token}
  {args children : List Scope} {frames : List Frame} {root : Scope}

theorem plain_of_isMark (h : t.IsMark) : IsPlain t := by
  rcases h with h | h <;> simp [IsPlain, h]

theorem Writes.foldlM_openAfter (h : Writes depth tokens args children) (opens : List Token) :
    tokens.foldlM openAfter opens = some opens := by
  induction h generalizing opens with
  | nil => rfl
  | blank _ ht ih | comma _ ht ih =>
    rw [List.foldlM_append, ih]
    simp [openAfter, ht]
  | mark _ ht ih =>
    rw [List.foldlM_append, ih]
    simp [openAfter_of_plain (plain_of_isMark ht)]
  | leaf _ hatoms _ ih =>
    rw [List.foldlM_append, ih]
    exact foldlM_of_plain fun u hu => plain_of_isAtom (hatoms u hu)
  | group _ ho _ hc ih ihinner | brackets _ ho _ hc ih ihinner =>
    rw [List.foldlM_append, ih]
    simp [openAfter, ho, hc, ihinner, closing]
  | call _ hwords ho _ _ hc ih ihinner =>
    rw [List.foldlM_append, ih, Option.bind_eq_bind, Option.bind_some, List.foldlM_append,
      foldlM_of_plain (plain_of_words hwords)]
    simp [openAfter, ho, hc, ihinner, closing]

theorem directCommas_of_isAtom (h : ∀ t ∈ front, t.kind.isAtom = true) (opens : Nat) :
    directCommas opens (front ++ back) = directCommas opens back := by
  induction front with
  | nil => rfl
  | cons t front ih =>
    rw [List.forall_mem_cons] at h
    rw [List.cons_append, directCommas]
    split
    all_goals first | exact ih h.2 | simp_all [TokenKind.isAtom]

theorem directCommas_le (h : openAfter opens t = some opens') :
    directCommas opens'.length tokens ≤ directCommas opens.length (t :: tokens) := by
  rw [directCommas]
  unfold openAfter at h
  split at h
  case h_1 hkind | h_2 hkind =>
    cases h
    simp [hkind]
  case h_3 hkind | h_4 hkind =>
    obtain ⟨o, rfl, -⟩ := eq_cons_of_closing h
    simp [hkind]
  case h_5 =>
    cases h
    split <;> simp_all

theorem directCommas_append_le (h : front.foldlM openAfter opens = some opens') :
    directCommas opens'.length back ≤ directCommas opens.length (front ++ back) := by
  induction front generalizing opens with
  | nil =>
    cases h
    exact Nat.le_refl _
  | cons t front ih =>
    rw [List.foldlM_cons] at h
    obtain ⟨next, hnext, hrest⟩ := Option.bind_eq_some_iff.mp h
    exact Nat.le_trans (ih hrest) (directCommas_le hnext)

theorem Writes.directCommas_append (h : Writes depth tokens args children) (opens : Nat)
    (back : List Token) :
    directCommas opens (tokens ++ back) =
      (if opens = 0 then args.length else 0) + directCommas opens back := by
  induction h generalizing opens back with
  | nil => simp
  | blank _ ht ih =>
    rw [List.append_assoc, ih]
    simp [directCommas, ht]
  | mark _ ht ih =>
    rw [List.append_assoc, ih]
    rcases ht with ht | ht <;> simp [directCommas, ht]
  | leaf _ hatoms _ ih =>
    rw [List.append_assoc, ih, directCommas_of_isAtom hatoms]
  | comma _ ht ih =>
    rw [List.append_assoc, ih]
    by_cases hopens : opens = 0 <;> simp [directCommas, ht, hopens, Nat.add_assoc]
  | group _ ho _ hc ih ihinner | brackets _ ho _ hc ih ihinner =>
    rw [List.append_assoc, ih, List.append_assoc, List.cons_append]
    simp [directCommas, ho, hc, ihinner]
  | call _ hwords ho _ _ hc ih ihinner =>
    rw [List.append_assoc, ih, List.append_assoc,
      directCommas_of_isAtom fun u hu => TokenKind.isAtom_of_isWord (hwords u hu),
      List.append_assoc, List.cons_append]
    simp [directCommas, ho, hc, ihinner]

theorem Writes.length_eq (h : Writes depth tokens args children) :
    args.length = directCommas 0 tokens := by
  simpa [directCommas] using (h.directCommas_append 0 []).symm

/-! ## Open scopes -/

/-- The tokens write what is around the innermost of the open scopes, and what opens it. In it,
children are at the given depth, and the arguments before the last comma are given too. The list
`opens` has the brackets that are open, the innermost first. -/
inductive Around : List Frame → Nat → List Scope → List Token → List Token → Prop
  | line : Around [] 1 [] [] []
  | paren {frames depth args opens outer inner items o} (h : Around frames depth args opens outer)
      (hinner : Writes depth inner args items.reverse) (ho : o.kind = .openParen) :
      Around (⟨.paren o.start, items, depth⟩ :: frames) (depth + 1) [] (o :: opens)
        (outer ++ inner ++ [o])
  | bracket {frames depth args opens outer inner items o}
      (h : Around frames depth args opens outer) (hinner : Writes depth inner args items.reverse)
      (ho : o.kind = .openBracket) :
      Around (⟨.bracket o.start, items, depth⟩ :: frames) (depth + 1) [] (o :: opens)
        (outer ++ inner ++ [o])
  | call {frames depth args opens outer inner items t words o name size own}
      (h : Around frames depth args opens outer) (hinner : Writes depth inner args items.reverse)
      (hwords : ∀ u ∈ t :: words, u.kind.isWord = true) (ho : o.kind = .openParen) :
      Around (⟨.call name size false o.start own, items, depth⟩ :: frames) (depth + 2) own.reverse
        (o :: opens) (outer ++ inner ++ t :: words ++ [o])
  | bareCall {inner items t words name size openedAt own}
      (hinner : Writes 1 inner [] items.reverse) (hwords : ∀ u ∈ t :: words, u.kind.isWord = true) :
      Around [⟨.call name size true openedAt own, items, 1⟩] 3 own.reverse [] (inner ++ t :: words)

/-- The tokens write what is nested so far. -/
def Wrote (opens tokens : List Token) (n : Nesting) : Prop :=
  ∃ outer inner args, Around n.frames n.depth args opens outer ∧
    Writes n.depth inner args n.items.reverse ∧ tokens = outer ++ inner

theorem Around.foldlM_openAfter (h : Around frames depth args opens outer) :
    outer.foldlM openAfter [] = some opens := by
  induction h with
  | line => rfl
  | paren _ hinner ho ih | bracket _ hinner ho ih =>
    rw [List.foldlM_append, List.foldlM_append, ih]
    simp [hinner.foldlM_openAfter, openAfter, ho]
  | call _ hinner hwords ho ih =>
    rw [List.foldlM_append, List.foldlM_append, List.foldlM_append, ih]
    simp [hinner.foldlM_openAfter, foldlM_of_plain (plain_of_words hwords), openAfter, ho]
  | bareCall hinner hwords =>
    rw [List.foldlM_append, hinner.foldlM_openAfter]
    exact foldlM_of_plain (plain_of_words hwords)

theorem Wrote.foldlM_openAfter (h : Wrote opens tokens n) :
    tokens.foldlM openAfter [] = some opens := by
  obtain ⟨outer, inner, args, haround, hinner, rfl⟩ := h
  rw [List.foldlM_append, haround.foldlM_openAfter]
  exact hinner.foldlM_openAfter opens

theorem wrote_start : Wrote [] [] {} := ⟨[], [], [], .line, .nil, rfl⟩

/-- What is nested with one token more is written by that token too. -/
theorem Wrote.adds (h : Wrote opens tokens n) (hadds : Adds t n more n') :
    ∃ opens', Wrote opens' (tokens ++ t :: more) n' := by
  obtain ⟨items, depth, frames⟩ := n
  obtain ⟨outer, inner, args, haround, hinner, rfl⟩ := h
  cases hadds with
  | blank ht => exact ⟨_, _, _, _, haround, hinner.blank ht, by simp⟩
  | mark ht =>
    exact ⟨_, _, _, _, haround, by simpa [Nesting.addLeaf] using hinner.mark ht, by simp⟩
  | leaf hatoms hvalue =>
    exact ⟨_, _, _, _, haround, by simpa [Nesting.addLeaf] using hinner.leaf hatoms hvalue, by simp⟩
  | openParen ht => exact ⟨_, _, _, _, .paren haround hinner ht, .nil, by simp⟩
  | openBracket ht => exact ⟨_, _, _, _, .bracket haround hinner ht, .nil, by simp⟩
  | openCall hwords ho => exact ⟨_, _, _, _, .call haround hinner hwords ho, .nil, by simp⟩
  | openBare hwords hframes =>
    obtain rfl : frames = [] := hframes
    cases haround
    exact ⟨_, _, _, _, .bareCall hinner hwords, .nil, by simp⟩
  | closeParen ht hframes =>
    obtain rfl : frames = _ := hframes
    cases haround with
    | paren h hbefore ho =>
      exact ⟨_, _, _, _, h,
        by simpa [Nesting.close, Nesting.closed] using hbefore.group ho hinner ht, by simp⟩
  | closeBracket ht hframes =>
    obtain rfl : frames = _ := hframes
    cases haround with
    | bracket h hbefore ho =>
      exact ⟨_, _, _, _, h,
        by simpa [Nesting.close, Nesting.closed] using hbefore.brackets ho hinner ht, by simp⟩
  | closeCall ht hframes =>
    obtain rfl : frames = _ := hframes
    cases haround with
    | call h hbefore hwords ho =>
      exact ⟨_, _, _, _, h,
        by simpa [Nesting.close, Nesting.closed] using
          hbefore.call hwords ho hinner hinner.length_eq ht,
        by simp⟩
  | comma ht hframes =>
    obtain rfl : frames = _ := hframes
    cases haround with
    | call h hbefore hwords ho =>
      exact ⟨_, _, _, _, .call h hbefore hwords ho, by simpa using hinner.comma ht, by simp⟩
    | bareCall hbefore hwords =>
      exact ⟨_, _, _, _, .bareCall hbefore hwords, by simpa using hinner.comma ht, by simp⟩

/-! ## Lines -/

theorem Reaches.exists_wrote (h : Reaches cut read tokens front n atHead back) :
    ∃ opens, Wrote opens front n := by
  induction h with
  | start => exact ⟨[], wrote_start⟩
  | step _ hadd ih =>
    obtain ⟨opens, hwrote⟩ := ih
    exact hwrote.adds (adds_of_addToken hadd)

theorem exists_wrote_of_addTokens (h : addTokens cut read {} true none 0 tokens = .ok n) :
    ∃ opens, Wrote opens tokens n := by
  obtain ⟨_, hend⟩ := Reaches.start.exists_end h
  exact hend.exists_wrote

theorem Wrote.of_closeAll (h : Wrote opens tokens n)
    (hclose : Nesting.closeAll n.items n.frames = .ok root) :
    opens = [] ∧ WritesLine tokens root := by
  obtain ⟨items, depth, frames⟩ := n
  obtain ⟨outer, inner, args, haround, hinner, rfl⟩ := h
  cases haround with
  | line =>
    cases hclose
    exact ⟨rfl, .plain hinner⟩
  | bareCall hbefore hwords =>
    cases hclose
    refine ⟨rfl, ?_⟩
    simpa [Nesting.closed] using WritesLine.bareCall hbefore hwords hinner hinner.length_eq
  | paren | bracket | call => cases hclose

end Nest

/-- A line that is nested is what its tokens write, and their brackets match. -/
theorem Scope.written_of_ofTokens {cut : Nat → Nat → String} {read : NumeralReader}
    {tokens : List Token} {root : Scope} (h : Scope.ofTokens cut read tokens = .ok root) :
    Nest.WellNested tokens ∧ Nest.WritesLine tokens root := by
  obtain ⟨n, hn, hclose⟩ := Scope.eq_of_ofTokens h
  obtain ⟨opens, hwrote⟩ := Nest.exists_wrote_of_addTokens hn
  obtain ⟨rfl, hwrites⟩ := hwrote.of_closeAll hclose
  exact ⟨hwrote.foldlM_openAfter, hwrites⟩

end MacroAsm
