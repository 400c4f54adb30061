import MacroAsm.Proofs.Scope.BareCall
import MacroAsm.Proofs.Token.Moved

/-!
# Nesting tokens elsewhere in a line

Two lines may have the same tokens at other offsets, moved by a function `φ`, and other blanks
between them (`Nest.Moved`). Blanks count only for being there, and offsets only for telling which
tokens are glued together and where a fault is. So the two lines are nested to the same scope, or
have the same fault, moved by `φ` (`Nest.Moved.ofTokens`).
-/

namespace MacroAsm

namespace Nest

variable {φ : Nat → Nat} {cut cut' : Nat → Nat → String} {read : NumeralReader} {n : Nesting}
  {taken first last : Nat} {atHead : Bool} {before before' : Option Token} {t t' : Token}
  {tokens tokens' front front' : List Token}

/-! ## Tokens elsewhere -/

/-- The same tokens in two lines, at offsets in the other line that `φ` moves them to. Blanks may
stand anywhere and be of any length. Up to the next blank, the texts of both lines are the same. -/
inductive Moved (φ : Nat → Nat) (cut cut' : Nat → Nat → String) : List Token → List Token → Prop
  | nil : Moved φ cut cut' [] []
  | cons {t t' : Token} {tokens tokens' : List Token} (hkind : t'.kind = t.kind)
      (hsame : t.isSignificant = true → t' = t.moved φ ∧
        ∀ u ∈ t :: tokens.takeWhile Token.isSignificant,
          cut t.start u.stop = cut' (φ t.start) (φ u.stop))
      (h : Moved φ cut cut' tokens tokens') : Moved φ cut cut' (t :: tokens) (t' :: tokens')

/-- A token of the one line and its counterpart in the other one. -/
structure Counterpart (φ : Nat → Nat) (t t' : Token) : Prop where
  kind : t'.kind = t.kind
  same : t.isSignificant = true → t' = t.moved φ

theorem Moved.append (hcut : AgreeOn first last cut fun start stop => cut' (φ start) (φ stop))
    (hlies : ∀ t ∈ front, t.isSignificant = true → Scan.Lies t first last)
    (hfront : List.Forall₂ (Counterpart φ) front front')
    (hlast : ∀ t ∈ front.getLast?, t.isSignificant = false) (h : Moved φ cut cut' tokens tokens') :
    Moved φ cut cut' (front ++ tokens) (front' ++ tokens') := by
  induction hfront with
  | nil => exact h
  | @cons t t' front front' ht hfront ih =>
    rw [List.forall_mem_cons] at hlies
    have hrest : Moved φ cut cut' (front ++ tokens) (front' ++ tokens') := by
      refine ih hlies.2 fun u hu => hlast u ?_
      rw [Option.mem_def] at hu ⊢
      rw [List.getLast?_cons, hu]
      rfl
    rw [List.cons_append, List.cons_append]
    refine .cons ht.kind (fun hsig => ⟨ht.same hsig, fun u hu => ?_⟩) hrest
    have hmem : u ∈ t :: front := by
      rcases List.mem_cons.mp hu with rfl | hu
      · exact List.mem_cons_self ..
      · rw [List.takeWhile_append] at hu
        split at hu
        next hall =>
          -- no blank comes after `t` in `front`, which ends with one
          rcases front.eq_nil_or_concat' with rfl | ⟨most, b, rfl⟩
          · rw [hlast t rfl] at hsig
            cases hsig
          · have hb : b ∈ (most ++ [b]).takeWhile Token.isSignificant := by
              rw [(List.takeWhile_prefix _).eq_of_length hall]
              simp
            have hblank := hlast b (by simp [List.getLast?_cons])
            rw [List.mem_takeWhile_imp hb] at hblank
            cases hblank
        next => exact List.mem_cons_of_mem t (List.takeWhile_subset _ hu)
    have hu : u.isSignificant = true := by
      rcases List.mem_cons.mp hu with rfl | hu
      · exact hsig
      · exact List.mem_takeWhile_imp hu
    refine hcut.cut_eq (hlies.1 hsig) ?_
    rcases List.mem_cons.mp hmem with rfl | hmem
    · exact hlies.1 hsig
    · exact hlies.2 u hmem hu

theorem Moved.drop (h : Moved φ cut cut' tokens tokens') (k : Nat) :
    Moved φ cut cut' (tokens.drop k) (tokens'.drop k) := by
  induction h generalizing k with
  | nil => simpa using .nil
  | cons hkind hsame h ih =>
    cases k with
    | zero => exact .cons hkind hsame h
    | succ k => exact ih k

theorem moved_of_agreeOn (hcut : AgreeOn first last cut fun start stop => cut' (φ start) (φ stop))
    (hlies : ∀ t ∈ tokens, Scan.Lies t first last) :
    Moved φ cut cut' tokens (tokens.map (Token.moved φ)) := by
  induction tokens with
  | nil => exact .nil
  | cons t tokens ih =>
    have ht : Scan.Lies t first last := hlies t (List.mem_cons_self ..)
    refine .cons rfl (fun _ => ⟨rfl, fun u hu => ?_⟩)
      (ih fun u hu => hlies u (List.mem_cons_of_mem t hu))
    refine hcut.cut_eq ht (hlies u ?_)
    rcases List.mem_cons.mp hu with rfl | hu
    · exact List.mem_cons_self ..
    · exact List.mem_cons_of_mem t (List.takeWhile_subset _ hu)

theorem Moved.dropWhile (h : Moved φ cut cut' tokens tokens') :
    Moved φ cut cut' (tokens.dropWhile (!·.isSignificant))
      (tokens'.dropWhile (!·.isSignificant)) := by
  induction h with
  | nil => exact .nil
  | @cons t t' tokens tokens' hkind hsame h ih =>
    have hsig : t'.isSignificant = t.isSignificant := congrArg TokenKind.isSignificant hkind
    rw [List.dropWhile_cons, List.dropWhile_cons, hsig]
    split
    · exact ih
    · exact .cons hkind hsame h

theorem Moved.isLabelled (h : Moved φ cut cut' tokens tokens') :
    Scan.isLabelled tokens' = Scan.isLabelled tokens := by
  induction h with
  | nil => rfl
  | cons hkind hsame h ih =>
    unfold Scan.isLabelled at ih ⊢
    rw [List.any_cons, List.any_cons, hkind, ih]

/-- The tokens stay in the same order if those that are blanks become other blanks, in both lines
alike. -/
theorem Moved.map {f : Token → Token}
    (hkind : ∀ t t' : Token, t'.kind = t.kind → (f t').kind = (f t).kind)
    (hsig : ∀ t, (f t).isSignificant = t.isSignificant)
    (hf : ∀ t, t.isSignificant = true → f t = t) (h : Moved φ cut cut' tokens tokens') :
    Moved φ cut cut' (tokens.map f) (tokens'.map f) := by
  induction h with
  | nil => exact .nil
  | @cons t t' tokens tokens' ht hsame h ih =>
    have htake : (tokens.map f).takeWhile Token.isSignificant =
        tokens.takeWhile Token.isSignificant := by
      rw [List.takeWhile_map, show Token.isSignificant ∘ f = Token.isSignificant from funext hsig]
      exact (List.map_congr_left fun t ht => hf t (List.mem_takeWhile_imp ht)).trans (List.map_id _)
    rw [List.map_cons, List.map_cons]
    refine .cons (hkind t t' ht) (fun hsignificant => ?_) ih
    rw [hsig] at hsignificant
    obtain ⟨rfl, hcut⟩ := hsame hsignificant
    rw [hf t hsignificant, hf (t.moved φ) hsignificant, htake]
    exact ⟨rfl, hcut⟩

theorem Moved.settleLabel (h : Moved φ cut cut' tokens tokens') :
    Moved φ cut cut' (Scan.settleLabel tokens) (Scan.settleLabel tokens') := by
  rw [Scan.settleLabel, Scan.settleLabel, h.isLabelled]
  split
  next =>
    refine h.map (fun t t' hkind => ?_) (fun t => ?_) fun t hsig => if_neg fun hkind => ?_
    · rw [hkind]
      split <;> first | rfl | exact hkind
    · by_cases hkind : t.kind = .impliedLabel
      · rw [if_pos hkind, Token.isSignificant, Token.isSignificant, hkind]
        rfl
      · rw [if_neg hkind]
    · rw [Token.isSignificant, hkind] at hsig
      cases hsig
  next => exact h

/-! ## Looking ahead -/

theorem sizeSuffix_moved (h : Moved φ cut cut' tokens tokens') :
    sizeSuffix cut' tokens' = sizeSuffix cut tokens := by
  cases h with
  | nil => rfl
  | @cons dot dot' _ _ hdot _ h =>
    cases h with
    | nil => simp [sizeSuffix, hdot]
    | @cons run run' _ _ hrun hsame _ =>
      simp only [sizeSuffix, hdot, hrun, List.head?_cons]
      by_cases hkind : run.kind = .name ∨ run.kind = .number
      · have hsig : run.isSignificant = true := by
          rcases hkind with hkind | hkind <;> rw [Token.isSignificant, hkind] <;> rfl
        obtain ⟨rfl, hcut⟩ := hsame hsig
        rw [hcut run (List.mem_cons_self ..)]
        rfl
      · rw [not_or] at hkind
        simp [hkind]

theorem isSignificant_of_opensValue (h : t.kind.opensValue = true) : t.isSignificant = true := by
  rw [Token.isSignificant]
  cases hkind : t.kind <;> rw [hkind] at h <;> first | rfl | cases h

theorem isSignificant_of_endsValue (h : t.kind.endsValue = true) : t.isSignificant = true := by
  rw [Token.isSignificant]
  cases hkind : t.kind <;> rw [hkind] at h <;> first | rfl | cases h

section

variable (hφ : Function.Injective φ)

include hφ

theorem opensOperand_moved (h : Moved φ cut cut' tokens tokens') :
    opensOperand cut' tokens' = opensOperand cut tokens := by
  have hdrop := h.dropWhile
  unfold opensOperand
  generalize heq : tokens.dropWhile (!·.isSignificant) = rest at hdrop
  generalize tokens'.dropWhile (!·.isSignificant) = rest' at hdrop
  cases hdrop with
  | nil => rfl
  | @cons t t' rest rest' hkind hsame hrest =>
    have hsig : t.isSignificant = true := by
      have hnot := List.head?_dropWhile_not (!·.isSignificant) tokens
      rw [heq] at hnot
      simpa using hnot
    obtain ⟨ht', hcut⟩ := hsame hsig
    have htext : cut' t'.start t'.stop = cut t.start t.stop := by
      rw [ht', hcut t (List.mem_cons_self ..)]
      rfl
    have hnext : (rest'.head?.any fun next => next.start = t'.stop && next.kind.opensValue) =
        rest.head?.any fun next => next.start = t.stop && next.kind.opensValue := by
      cases hrest with
      | nil => rfl
      | @cons next next' _ _ hnext hsame' _ =>
        rw [List.head?_cons, List.head?_cons, Option.any_some, Option.any_some, hnext]
        cases hopens : next.kind.opensValue with
        | false => simp
        | true =>
          rw [ht', (hsame' (isSignificant_of_opensValue hopens)).1]
          simp [Token.moved, hφ.eq_iff]
    simp only [hkind, htext, hnext]

theorem numeralEnd_moved (h : Moved φ cut cut' tokens tokens') :
    numeralEnd (t.moved φ) tokens' = (φ (numeralEnd t tokens).1, (numeralEnd t tokens).2) := by
  cases h with
  | nil => rfl
  | @cons dot dot' _ _ hdot hsame h =>
    cases h with
    | nil => rfl
    | @cons fraction fraction' _ _ hfraction hsame' _ =>
      simp only [numeralEnd, hdot, hfraction]
      by_cases hkinds : dot.kind = .dot ∧ fraction.kind = .number
      · obtain ⟨hkind, hkind'⟩ := hkinds
        obtain ⟨rfl, -⟩ := hsame (by rw [Token.isSignificant, hkind]; rfl)
        obtain ⟨rfl, -⟩ := hsame' (by rw [Token.isSignificant, hkind']; rfl)
        simp only [Token.moved, hφ.eq_iff]
        split <;> rfl
      · have hno : (decide (dot.kind = .dot) && decide (fraction.kind = .number)) = false := by
          simpa using hkinds
        simp [hno, Token.moved]

theorem isGlued_moved (hbefore : Option.Rel (Counterpart φ) before before') :
    isGlued before' (t.moved φ) = isGlued before t := by
  cases hbefore with
  | none => rfl
  | @some b b' hb =>
    rw [isGlued, isGlued, Option.any_some, Option.any_some, hb.kind]
    cases hends : b.kind.endsValue with
    | false => simp
    | true =>
      rw [hb.same (isSignificant_of_endsValue hends)]
      simp [Token.moved, hφ.eq_iff]

end

/-! ## Scopes -/

def Opening.moved (φ : Nat → Nat) : Opening → Opening
  | .paren offset => .paren (φ offset)
  | .bracket offset => .bracket (φ offset)
  | .call name size bare offset args => .call name size bare (φ offset) args

def Frame.moved (φ : Nat → Nat) (f : Frame) : Frame := { f with opening := f.opening.moved φ }

def Nesting.moved (φ : Nat → Nat) (n : Nesting) : Nesting :=
  { n with frames := n.frames.map (Frame.moved φ) }

def outcomeMoved (φ : Nat → Nat) (result : Except Fault Nesting) : Except Fault Nesting :=
  (result.map (Nesting.moved φ)).mapError (Fault.moved φ)

variable {f : Frame} {outer : List Frame} {items : List Scope} {offset : Nat}

theorem closed_moved : Nesting.closed (f.moved φ) items = Nesting.closed f items := by
  obtain ⟨opening, before, depth⟩ := f
  cases opening <;> rfl

theorem close_moved :
    Nesting.close (f.moved φ) (outer.map (Frame.moved φ)) items =
      (Nesting.close f outer items).moved φ := by
  rw [Nesting.close, closed_moved]
  rfl

theorem closeParen_moved :
    (n.moved φ).closeParen (φ offset) = outcomeMoved φ (n.closeParen offset) := by
  obtain ⟨items, depth, _ | ⟨⟨opening, before, depth'⟩, outer⟩⟩ := n
  · rfl
  cases opening with
  | paren => exact congrArg Except.ok close_moved
  | bracket => rfl
  | call name size bare =>
    cases bare with
    | true => rfl
    | false => exact congrArg Except.ok close_moved

theorem closeBracket_moved :
    (n.moved φ).closeBracket (φ offset) = outcomeMoved φ (n.closeBracket offset) := by
  obtain ⟨items, depth, _ | ⟨⟨opening, before, depth'⟩, outer⟩⟩ := n
  · rfl
  cases opening with
  | bracket => exact congrArg Except.ok close_moved
  | paren | call => rfl

theorem nextArgument_moved :
    (n.moved φ).nextArgument (φ offset) = outcomeMoved φ (n.nextArgument offset) := by
  obtain ⟨items, depth, _ | ⟨⟨opening, before, depth'⟩, outer⟩⟩ := n
  · rfl
  cases opening <;> rfl

theorem closeAll_moved (items : List Scope) (frames : List Frame) :
    Nesting.closeAll items (frames.map (Frame.moved φ)) =
      (Nesting.closeAll items frames).mapError (Fault.moved φ) := by
  induction frames generalizing items with
  | nil => rfl
  | cons f outer ih =>
    have hclosed : Nesting.closed (f.moved φ) items = Nesting.closed f items := closed_moved
    obtain ⟨opening, before, depth⟩ := f
    cases opening with
    | paren | bracket => rfl
    | call name size bare =>
      cases bare with
      | false => rfl
      | true =>
        show Nesting.closeAll (Nesting.closed _ items :: before) _ = _
        rw [hclosed]
        exact ih _

/-! ## Tokens -/

section

variable (hφ : Function.Injective φ)

include hφ

theorem addName_moved {start : Nat} (htext : cut start t.stop = cut' (φ start) (φ t.stop))
    (h : Moved φ cut cut' tokens tokens') :
    addName cut' (n.moved φ) atHead (φ start) (t.moved φ) tokens' =
      ((addName cut n atHead start t tokens).1.moved φ,
        (addName cut n atHead start t tokens).2) := by
  have hempty : (n.moved φ).frames.isEmpty = n.frames.isEmpty := List.isEmpty_map
  have htext' : cut' (φ start) (t.moved φ).stop = cut start t.stop := htext.symm
  unfold addName
  rw [sizeSuffix_moved h, hempty, htext']
  have hdrop := h.drop (sizeSuffix cut tokens).2
  generalize sizeSuffix cut tokens = suffix at hdrop
  obtain ⟨size, taken⟩ := suffix
  dsimp only at hdrop ⊢
  generalize tokens.drop taken = rest at hdrop
  generalize tokens'.drop taken = rest' at hdrop
  cases hdrop with
  | nil => cases size <;> rfl
  | @cons next next' after after' hkind hsame hafter =>
    dsimp only
    rw [hkind, opensOperand_moved hφ hafter]
    split
    next hparen =>
      obtain ⟨rfl, -⟩ := hsame (by rw [Token.isSignificant, hparen]; rfl)
      rfl
    next =>
      split
      · rfl
      · cases size <;> rfl

theorem addToken_moved (hbefore : Option.Rel (Counterpart φ) before before')
    (h : Moved φ cut cut' (t :: tokens) (t' :: tokens')) :
    addToken cut' read (n.moved φ) atHead before' t' tokens' =
      ((addToken cut read n atHead before t tokens).map fun result =>
        (result.1.moved φ, result.2)).mapError (Fault.moved φ) := by
  obtain - | ⟨hkind, hsame, h⟩ := h
  cases hsig : t.isSignificant with
  | false =>
    have hblank : t.kind = .blank ∨ t.kind = .impliedLabel := by
      rw [Token.isSignificant] at hsig
      cases ht : t.kind <;> rw [ht] at hsig <;> first | exact .inl rfl | exact .inr rfl | cases hsig
    rcases hblank with ht | ht <;> simp only [addToken, hkind, ht] <;> rfl
  | true =>
    obtain ⟨rfl, hcut⟩ := hsame hsig
    have htext : cut' (φ t.start) (φ t.stop) = cut t.start t.stop :=
      (hcut t (List.mem_cons_self ..)).symm
    unfold addToken
    rw [hkind]
    split
    -- a closing bracket or a comma goes to the innermost open scope
    case h_9 =>
      rw [Token.moved, closeParen_moved]
      cases n.closeParen t.start <;> rfl
    case h_10 =>
      rw [Token.moved, closeBracket_moved]
      cases n.closeBracket t.start <;> rfl
    case h_11 =>
      rw [Token.moved, nextArgument_moved]
      cases n.nextArgument t.start <;> rfl
    -- a literal or an operator comes down to its text, in which a numeral may go on over more tokens
    case h_12 =>
      simp only [Token.moved, htext]
      rfl
    case h_13 hnumber =>
      have hend : cut' (φ t.start) (φ (numeralEnd t tokens).1) =
          cut t.start (numeralEnd t tokens).1 := by
        obtain ⟨u, hu, hstop⟩ := exists_numeralEnd t tokens
        rw [hstop, hcut u hu]
      rw [numeralEnd_moved hφ h]
      simp only [Token.moved, hend]
      cases read (cut t.start (numeralEnd t tokens).1) <;> rfl
    case h_14 =>
      simp only [Token.moved, htext]
      cases Operator.ofSymbol? (cut t.start t.stop) <;> rfl
    -- a name looks ahead for what makes it a call, also after a dot that it starts with
    case h_15 => exact congrArg Except.ok (addName_moved hφ htext.symm h)
    case h_16 =>
      rw [isGlued_moved hφ hbefore]
      split
      · rfl
      · cases h with
        | nil => rfl
        | @cons next next' rest rest' hkind' hsame' hrest =>
          dsimp only
          rw [hkind']
          split
          next hname =>
            have hnext : next.isSignificant = true := by
              rw [Token.isSignificant, hname]
              rfl
            obtain ⟨rfl, -⟩ := hsame' hnext
            have hlocal : cut t.start next.stop = cut' (φ t.start) (φ next.stop) :=
              hcut next (by simp [hnext])
            rw [show (t.moved φ).start = φ t.start from rfl, addName_moved hφ hlocal hrest]
            rfl
          next => rfl
    all_goals rfl

theorem addTokens_moved (hbefore : Option.Rel (Counterpart φ) before before')
    (h : Moved φ cut cut' tokens tokens') :
    addTokens cut' read (n.moved φ) atHead before' taken tokens' =
      outcomeMoved φ (addTokens cut read n atHead before taken tokens) := by
  induction h generalizing n atHead before before' taken with
  | nil => rfl
  | @cons t t' tokens tokens' hkind hsame h ih =>
    have ht : Option.Rel (Counterpart φ) (some t) (some t') :=
      .some ⟨hkind, fun hsig => (hsame hsig).1⟩
    cases taken with
    | succ taken => exact ih ht
    | zero =>
      rw [addTokens, addTokens, addToken_moved hφ hbefore (.cons hkind hsame h), hkind]
      cases addToken cut read n atHead before t tokens with
      | error => rfl
      | ok result => exact ih ht

end

theorem ofTokens_of_outcomeMoved
    (h : addTokens cut' read {} true none 0 tokens' =
      outcomeMoved φ (addTokens cut read {} true none 0 tokens)) :
    Scope.ofTokens cut' read tokens' =
      (Scope.ofTokens cut read tokens).mapError (Fault.moved φ) := by
  rw [Scope.ofTokens, Scope.ofTokens, h]
  cases addTokens cut read {} true none 0 tokens with
  | error => rfl
  | ok n => exact closeAll_moved n.items n.frames

/-- Tokens elsewhere in a line are nested to the same scope, or have the same fault there. -/
theorem Moved.ofTokens (hφ : Function.Injective φ) (h : Moved φ cut cut' tokens tokens') :
    Scope.ofTokens cut' read tokens' =
      (Scope.ofTokens cut read tokens).mapError (Fault.moved φ) :=
  ofTokens_of_outcomeMoved (addTokens_moved (n := {}) hφ .none h)

end Nest

end MacroAsm
