import MacroAsm.Proofs.Print.Nest

/-!
# The run over the tokens of a line

`Nest.Reaches` says what is nested of a line when the run over its tokens comes to one of them. A
run without a fault comes to all of them (`Reaches.exists_comesTo`). A fault of the run is the fault
of a token that it comes to (`Scope.exists_of_ofTokens_error`), and is at the start of that token
(`offset?_of_addToken`).
-/

namespace MacroAsm

namespace Nest

/-- The run over the tokens of a line has nested the tokens `front` to `n`, and goes on with
`back`. -/
inductive Reaches (cut : Nat → Nat → String) (read : NumeralReader) (tokens : List Token) :
    List Token → Nesting → Bool → List Token → Prop
  | start : Reaches cut read tokens [] {} true tokens
  | step {front n atHead t back n' taken}
      (h : Reaches cut read tokens front n atHead (t :: back))
      (hadd : addToken cut read n atHead front.getLast? t back = .ok (n', taken)) :
      Reaches cut read tokens (front ++ t :: back.take taken) n' (headAfter atHead t.kind)
        (back.drop taken)

/-- The run over the tokens of a line comes to the token `d`: at the token `t` before `back`, which
is `d` or takes it in. -/
def ComesTo (cut : Nat → Nat → String) (read : NumeralReader) (n : Nesting) (atHead : Bool)
    (before : Option Token) (d t : Token) (back : List Token) : Prop :=
  t = d ∨ ∃ n' taken, addToken cut read n atHead before t back = .ok (n', taken) ∧
    d ∈ back.take taken

variable {cut : Nat → Nat → String} {read : NumeralReader} {n n' : Nesting} {taken : Nat}
  {atHead : Bool} {before : Option Token} {d t : Token} {tokens front back : List Token}
  {fault : Fault}

theorem Reaches.append_eq (h : Reaches cut read tokens front n atHead back) :
    front ++ back = tokens := by
  induction h with
  | start => rfl
  | @step front n atHead t back n' taken _ _ ih =>
    rw [← ih, List.append_assoc, List.cons_append, List.take_append_drop]

theorem addTokens_step (hadd : addToken cut read n atHead front.getLast? t back = .ok (n', taken)) :
    addTokens cut read n atHead front.getLast? 0 (t :: back) =
      addTokens cut read n' (headAfter atHead t.kind) (front ++ t :: back.take taken).getLast? 0
        (back.drop taken) := by
  have hlast : (front ++ t :: back.take taken).getLast? =
      (back.take taken).getLast?.or (some t) := by
    rw [List.getLast?_append_of_ne_nil _ (List.cons_ne_nil t _), List.getLast?_cons]
    cases (back.take taken).getLast? <;> rfl
  have hskip : addTokens cut read n' (headAfter atHead t.kind) (some t) taken
      (back.take taken ++ back.drop taken) =
        addTokens cut read n' (headAfter atHead t.kind) ((back.take taken).getLast?.or (some t)) 0
          (back.drop taken) :=
    addTokens_skip (List.length_take_of_le (addToken_le hadd))
  rw [List.take_append_drop] at hskip
  rw [addTokens, hadd, hlast]
  exact hskip

/-- From wherever the run comes, it goes on to the end or to a token that is at fault. -/
theorem Reaches.exists_end_or_error (h : Reaches cut read tokens front n atHead back) :
    (∃ n' atHead', addTokens cut read n atHead front.getLast? 0 back = .ok n' ∧
        Reaches cut read tokens tokens n' atHead' []) ∨
      ∃ fault, addTokens cut read n atHead front.getLast? 0 back = .error fault ∧
        ∃ front n atHead t back, Reaches cut read tokens front n atHead (t :: back) ∧
          addToken cut read n atHead front.getLast? t back = .error fault := by
  induction hlength : back.length using Nat.strong_induction_on
    generalizing front n atHead back with
  | _ k ih =>
    cases back with
    | nil =>
      have hfront := h.append_eq
      rw [List.append_nil] at hfront
      subst hfront
      exact .inl ⟨n, atHead, rfl, h⟩
    | cons t back =>
      cases hadd : addToken cut read n atHead front.getLast? t back with
      | error fault =>
        exact .inr ⟨fault, by rw [addTokens, hadd], front, n, atHead, t, back, h, hadd⟩
      | ok result =>
        rw [addTokens_step hadd]
        refine ih _ ?_ (h.step hadd) rfl
        rw [← hlength, List.length_drop, List.length_cons]
        omega

theorem Reaches.exists_end (h : Reaches cut read tokens front n atHead back)
    (hadd : addTokens cut read n atHead front.getLast? 0 back = .ok n') :
    ∃ atHead', Reaches cut read tokens tokens n' atHead' [] := by
  rcases h.exists_end_or_error with ⟨m, atHead', hm, hend⟩ | ⟨fault, hfault, -⟩
  · obtain rfl : m = n' := Except.ok.inj (hm.symm.trans hadd)
    exact ⟨atHead', hend⟩
  · cases hfault.symm.trans hadd

theorem Reaches.exists_error (h : Reaches cut read tokens front n atHead back)
    (herror : addTokens cut read n atHead front.getLast? 0 back = .error fault) :
    ∃ front n atHead t back, Reaches cut read tokens front n atHead (t :: back) ∧
      addToken cut read n atHead front.getLast? t back = .error fault := by
  rcases h.exists_end_or_error with ⟨m, atHead', hm, -⟩ | ⟨fault', hfault, hreaches⟩
  · cases hm.symm.trans herror
  · obtain rfl : fault' = fault := Except.error.inj (hfault.symm.trans herror)
    exact hreaches

theorem Reaches.comesTo_of_mem (h : Reaches cut read tokens front n atHead back) (hd : d ∈ front) :
    ∃ front n atHead t back, Reaches cut read tokens front n atHead (t :: back) ∧
      ComesTo cut read n atHead front.getLast? d t back := by
  induction h with
  | start => cases hd
  | @step front n atHead t back n' taken h hadd ih =>
    rcases List.mem_append.mp hd with hd | hd
    · exact ih hd
    · rcases List.mem_cons.mp hd with rfl | hd
      · exact ⟨front, n, atHead, d, back, h, .inl rfl⟩
      · exact ⟨front, n, atHead, t, back, h, .inr ⟨n', taken, hadd, hd⟩⟩

theorem Reaches.exists_comesTo (h : Reaches cut read tokens front n atHead back)
    (hadd : addTokens cut read n atHead front.getLast? 0 back = .ok n') (hd : d ∈ back) :
    ∃ front n atHead t back, Reaches cut read tokens front n atHead (t :: back) ∧
      ComesTo cut read n atHead front.getLast? d t back := by
  obtain ⟨_, hend⟩ := h.exists_end hadd
  refine hend.comesTo_of_mem ?_
  rw [← h.append_eq]
  exact List.mem_append_right front hd

theorem error_of_map_eq_error {α β : Type} {g : α → β} {x : Except Fault α}
    (h : x.map g = .error fault) : x = .error fault := by
  cases x with
  | error =>
    cases h
    rfl
  | ok => cases h

/-- The faults that a token can be. -/
inductive TokenFault (cut : Nat → Nat → String) (t : Token) : Fault → Prop
  | strayParen (hkind : t.kind = .closeParen) : TokenFault cut t (.strayParen t.start)
  | strayBracket (hkind : t.kind = .closeBracket) : TokenFault cut t (.strayBracket t.start)
  | commaOutsideCall (hkind : t.kind = .comma) : TokenFault cut t (.commaOutsideCall t.start)
  | badNumeral {text : String} {cause : NumeralFault} (hkind : t.kind = .number) :
      TokenFault cut t (.badNumeral text cause t.start)
  | unknownSymbol (hkind : t.kind = .operator)
      (hnone : Operator.ofSymbol? (cut t.start t.stop) = none) :
      TokenFault cut t (.unknownOperator (cut t.start t.stop) t.start)
  | strayDot (hkind : t.kind = .dot) : TokenFault cut t (.unknownOperator "." t.start)

theorem tokenFault_of_addToken (h : addToken cut read n atHead before t back = .error fault) :
    TokenFault cut t fault := by
  unfold addToken at h
  split at h
  case h_9 hkind =>
    have hclose := error_of_map_eq_error h
    unfold Nesting.closeParen at hclose
    split at hclose
    · split at hclose <;> cases hclose
      exact .strayParen hkind
    · cases hclose
      exact .strayParen hkind
  case h_10 hkind =>
    have hclose := error_of_map_eq_error h
    unfold Nesting.closeBracket at hclose
    split at hclose
    · split at hclose <;> cases hclose
      exact .strayBracket hkind
    · cases hclose
      exact .strayBracket hkind
  case h_11 hkind =>
    have hnext := error_of_map_eq_error h
    unfold Nesting.nextArgument at hnext
    split at hnext
    · split at hnext <;> cases hnext
      exact .commaOutsideCall hkind
    · cases hnext
      exact .commaOutsideCall hkind
  case h_13 hkind =>
    simp only at h
    split at h <;> cases h
    exact .badNumeral hkind
  case h_14 hkind =>
    simp only at h
    split at h
    · cases h
    next hnone =>
      cases h
      exact .unknownSymbol hkind hnone
  case h_16 hkind =>
    split at h
    · cases h
    · split at h
      · split at h <;> cases h
        exact .strayDot hkind
      · cases h
        exact .strayDot hkind
  all_goals cases h

theorem offset?_of_addToken (h : addToken cut read n atHead before t back = .error fault) :
    fault.offset? = some t.start := by
  cases tokenFault_of_addToken h <;> rfl

theorem eq_unclosed_of_closeAll {items : List Scope} {frames : List Frame}
    (h : Nesting.closeAll items frames = .error fault) :
    ∃ bracket offset, fault = .unclosed bracket offset := by
  induction frames generalizing items with
  | nil => cases h
  | cons f outer ih =>
    rw [Nesting.closeAll] at h
    split at h
    next => exact ih h
    all_goals
      cases h
      exact ⟨_, _, rfl⟩

end Nest

namespace Scope

variable {cut : Nat → Nat → String} {read : NumeralReader} {tokens : List Token} {fault : Fault}

theorem closeAll_or_addTokens_of_error (h : Scope.ofTokens cut read tokens = .error fault) :
    (∃ n, Nest.addTokens cut read {} true none 0 tokens = .ok n ∧
        Nest.Nesting.closeAll n.items n.frames = .error fault) ∨
      Nest.addTokens cut read {} true none 0 tokens = .error fault := by
  unfold Scope.ofTokens at h
  cases hadd : Nest.addTokens cut read {} true none 0 tokens with
  | error fault' =>
    rw [hadd] at h
    cases h
    exact .inr rfl
  | ok n =>
    rw [hadd] at h
    exact .inl ⟨n, rfl, h⟩

theorem addTokens_of_ofTokens_error (h : Scope.ofTokens cut read tokens = .error fault) :
    (∃ bracket offset, fault = .unclosed bracket offset) ∨
      Nest.addTokens cut read {} true none 0 tokens = .error fault :=
  (closeAll_or_addTokens_of_error h).imp_left fun ⟨_, _, hclose⟩ =>
    Nest.eq_unclosed_of_closeAll hclose

/-- A fault in the tokens of a line is that of a token that the run over them comes to. -/
theorem exists_of_ofTokens_error (h : Scope.ofTokens cut read tokens = .error fault) :
    (∃ bracket offset, fault = .unclosed bracket offset) ∨
      ∃ front n atHead t back, Nest.Reaches cut read tokens front n atHead (t :: back) ∧
        Nest.addToken cut read n atHead front.getLast? t back = .error fault :=
  (addTokens_of_ofTokens_error h).imp_right fun herror => Nest.Reaches.start.exists_error herror

end Scope

end MacroAsm
