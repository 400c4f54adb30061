import MacroAsm.Proofs.Print.Nest
import MacroAsm.Proofs.Scope.Bracket

/-!
# Bare calls and calls in parentheses

A bare call and the same call in parentheses are nested alike. `Nesting.parenthesized` is a nesting
with its bare call in parentheses: as long as the brackets match, the same tokens are nested to it
(`addTokens_parenthesized`), and the `)` closes what the end of the line would
(`closeAll_parenthesized`).

The texts of the tokens are cut out of two lines, which agree on the part that the tokens cover
(`addTokens_congr`).
-/

namespace MacroAsm

namespace Nest

variable {cut cut' : Nat → Nat → String} {read : NumeralReader} {n n' : Nesting} {taken : Nat}
  {atHead : Bool} {before : Option Token} {t u : Token} {tokens opens : List Token}
  {first last : Nat} {frames : List Frame}

/-! ## Texts that agree -/

/-- Two lines have the same texts between offsets from `first` to `last`. -/
def AgreeOn (first last : Nat) (cut cut' : Nat → Nat → String) : Prop :=
  ∀ start stop, first ≤ start → start ≤ last → first ≤ stop → stop ≤ last →
    cut start stop = cut' start stop

theorem AgreeOn.cut_eq (h : AgreeOn first last cut cut') (ht : Scan.Lies t first last)
    (hu : Scan.Lies u first last) : cut t.start u.stop = cut' t.start u.stop :=
  h _ _ ht.start (Nat.le_trans ht.stop ht.next) (Nat.le_trans hu.start hu.stop) hu.next

theorem sizeSuffix_congr (h : AgreeOn first last cut cut')
    (htokens : ∀ t ∈ tokens, Scan.Lies t first last) :
    sizeSuffix cut tokens = sizeSuffix cut' tokens := by
  rcases tokens with _ | ⟨dot, _ | ⟨run, tokens⟩⟩
  · rfl
  · rfl
  · have hrun : cut run.start run.stop = cut' run.start run.stop :=
      h.cut_eq (htokens run (by simp)) (htokens run (by simp))
    simp only [sizeSuffix, List.head?_cons, hrun]

theorem opensOperand_congr (h : AgreeOn first last cut cut')
    (htokens : ∀ t ∈ tokens, Scan.Lies t first last) :
    opensOperand cut tokens = opensOperand cut' tokens := by
  unfold opensOperand
  split
  · rfl
  next t rest heq =>
    have ht : t ∈ tokens := by
      apply List.dropWhile_subset (!·.isSignificant)
      rw [heq]
      exact List.mem_cons_self ..
    rw [h.cut_eq (htokens t ht) (htokens t ht)]

theorem addName_congr (h : AgreeOn first last cut cut') (ht : Scan.Lies t first last)
    (hu : Scan.Lies u first last) (htokens : ∀ t ∈ tokens, Scan.Lies t first last) :
    addName cut n atHead t.start u tokens = addName cut' n atHead t.start u tokens := by
  simp only [addName, h.cut_eq ht hu, sizeSuffix_congr h htokens]
  cases hdrop : tokens.drop (sizeSuffix cut' tokens).2 with
  | nil => rfl
  | cons next after =>
    have hafter : ∀ v ∈ after, Scan.Lies v first last := fun v hv =>
      htokens v (List.drop_subset _ _ (hdrop ▸ List.mem_cons_of_mem next hv))
    simp only [opensOperand_congr h hafter]

theorem exists_numeralEnd (t : Token) (tokens : List Token) :
    ∃ u ∈ t :: tokens.takeWhile Token.isSignificant, (numeralEnd t tokens).1 = u.stop := by
  rcases tokens with _ | ⟨dot, _ | ⟨fraction, tokens⟩⟩
  · exact ⟨t, by simp, rfl⟩
  · exact ⟨t, by simp, rfl⟩
  · simp only [numeralEnd]
    split
    next h =>
      simp only [Bool.and_eq_true, decide_eq_true_eq] at h
      have hdot : dot.isSignificant = true := by rw [Token.isSignificant, h.1.1.1]; rfl
      have hfraction : fraction.isSignificant = true := by rw [Token.isSignificant, h.1.1.2]; rfl
      exact ⟨fraction, by simp [hdot, hfraction], rfl⟩
    next => exact ⟨t, by simp, rfl⟩

theorem addToken_congr (h : AgreeOn first last cut cut') (ht : Scan.Lies t first last)
    (htokens : ∀ t ∈ tokens, Scan.Lies t first last) :
    addToken cut read n atHead before t tokens = addToken cut' read n atHead before t tokens := by
  unfold addToken
  split
  case h_12 | h_14 => rw [h.cut_eq ht ht]
  case h_13 =>
    obtain ⟨u, hu, hstop⟩ := exists_numeralEnd t tokens
    have hcut : cut t.start (numeralEnd t tokens).1 = cut' t.start (numeralEnd t tokens).1 := by
      rw [hstop]
      rcases List.mem_cons.mp hu with rfl | hu
      · exact h.cut_eq ht ht
      · exact h.cut_eq ht (htokens u (List.takeWhile_subset _ hu))
    simp only [hcut]
  case h_15 => rw [addName_congr h ht ht htokens]
  case h_16 =>
    split
    · rfl
    · cases tokens with
      | nil => rfl
      | cons next rest =>
        rw [List.forall_mem_cons] at htokens
        simp only [addName_congr h ht htokens.1 htokens.2]
  all_goals rfl

/-- Tokens are nested the same way in lines that agree where the tokens are. -/
theorem addTokens_congr (h : AgreeOn first last cut cut')
    (htokens : ∀ t ∈ tokens, Scan.Lies t first last) :
    addTokens cut read n atHead before taken tokens =
      addTokens cut' read n atHead before taken tokens := by
  induction tokens generalizing n atHead before taken with
  | nil => rfl
  | cons t tokens ih =>
    rw [List.forall_mem_cons] at htokens
    cases taken with
    | succ taken => exact ih htokens.2
    | zero =>
      rw [addTokens, addTokens, addToken_congr h htokens.1 htokens.2]
      cases addToken cut' read n atHead before t tokens with
      | error => rfl
      | ok result => exact ih htokens.2

theorem cutLine_of_standsAt {line cs : List Char} {offset start stop : Nat}
    (h : StandsAt line offset cs) (hstart : start ≤ Text.byteSize cs)
    (hstop : stop ≤ Text.byteSize cs) :
    cutLine line (offset + start) (offset + stop) = cutLine cs start stop := by
  obtain ⟨front, back, rfl, rfl⟩ := h
  rw [cutLine, cutLine, Text.slice_append_add front cs back hstart hstop]

theorem agreeOn_moved {line line' cs : List Char} {offset offset' : Nat} {φ : Nat → Nat}
    (h : StandsAt line offset cs) (h' : StandsAt line' offset' cs)
    (hφ : ∀ k ≤ Text.byteSize cs, φ (offset + k) = offset' + k) :
    AgreeOn offset (offset + Text.byteSize cs) (cutLine line)
      fun start stop => cutLine line' (φ start) (φ stop) := by
  intro start stop hstart hstart' hstop hstop'
  obtain ⟨start, rfl⟩ := Nat.exists_eq_add_of_le hstart
  obtain ⟨stop, rfl⟩ := Nat.exists_eq_add_of_le hstop
  dsimp only
  rw [hφ start (by omega), hφ stop (by omega), cutLine_of_standsAt h (by omega) (by omega),
    cutLine_of_standsAt h' (by omega) (by omega)]

theorem agreeOn_of_standsAt {line line' cs : List Char} {offset : Nat}
    (h : StandsAt line offset cs) (h' : StandsAt line' offset cs) :
    AgreeOn offset (offset + Text.byteSize cs) (cutLine line) (cutLine line') :=
  agreeOn_moved h h' (φ := id) fun _ _ => rfl

/-! ## The call in parentheses -/

/-- A bare call with its parenthesis at an offset. -/
def Opening.parenthesized (offset : Nat) : Opening → Opening
  | .call name size true _ args => .call name size false offset args
  | opening => opening

def Frame.parenthesized (offset : Nat) (f : Frame) : Frame :=
  { f with opening := f.opening.parenthesized offset }

def Nesting.parenthesized (offset : Nat) (n : Nesting) : Nesting :=
  { n with frames := n.frames.map (Frame.parenthesized offset) }

variable {offset close : Nat} {f : Frame} {items : List Scope} {outer : List Frame}

theorem closed_parenthesized :
    Nesting.closed (f.parenthesized offset) items = Nesting.closed f items := by
  obtain ⟨opening, before, depth⟩ := f
  cases opening with
  | paren => rfl
  | bracket => rfl
  | call name size bare openedAt args => cases bare <;> rfl

theorem parenthesized_of_isOf (h : f.opening.IsOf t) : f.parenthesized offset = f := by
  obtain ⟨opening, before, depth⟩ := f
  cases opening with
  | paren => rfl
  | bracket => rfl
  | call name size bare openedAt args =>
    obtain rfl : bare = false := h.1
    rfl

theorem InCall.parenthesized (h : InCall true frames opens) :
    InCall false (frames.map (Frame.parenthesized offset)) opens := by
  induction h with
  | call => exact .call
  | bracket hf _ ih =>
    rw [List.map_cons, parenthesized_of_isOf hf]
    exact .bracket hf ih

theorem close_parenthesized :
    Nesting.close (f.parenthesized offset) (outer.map (Frame.parenthesized offset)) items =
      (Nesting.close f outer items).parenthesized offset := by
  rw [Nesting.close, closed_parenthesized]
  rfl

theorem closeParen_parenthesized (h : InCall true n.frames (t :: opens)) :
    (n.parenthesized offset).closeParen close =
      (n.closeParen close).map (·.parenthesized offset) := by
  obtain ⟨items, depth, frames⟩ := n
  cases h with
  | @bracket f frames _ _ hf h =>
    obtain ⟨opening, before, depth'⟩ := f
    cases opening with
    | paren => exact congrArg Except.ok close_parenthesized
    | bracket => rfl
    | call name size bare openedAt args =>
      obtain rfl : bare = false := hf.1
      exact congrArg Except.ok close_parenthesized

theorem closeBracket_parenthesized :
    (n.parenthesized offset).closeBracket close =
      (n.closeBracket close).map (·.parenthesized offset) := by
  obtain ⟨items, depth, _ | ⟨⟨opening, before, depth'⟩, outer⟩⟩ := n
  · rfl
  cases opening with
  | bracket => exact congrArg Except.ok close_parenthesized
  | paren => rfl
  | call name size bare => cases bare <;> rfl

theorem nextArgument_parenthesized :
    (n.parenthesized offset).nextArgument close =
      (n.nextArgument close).map (·.parenthesized offset) := by
  obtain ⟨items, depth, _ | ⟨⟨opening, before, depth'⟩, outer⟩⟩ := n
  · rfl
  cases opening with
  | bracket => rfl
  | paren => rfl
  | call name size bare => cases bare <;> rfl

theorem keeps_parenthesized (hframes : n.frames ≠ []) :
    Keeps (Nesting.parenthesized offset) n atHead where
  addLeaf _ _ := rfl
  openParen _ := rfl
  openBracket _ := rfl
  openCall _ _ bare _ hbare := by
    cases bare with
    | false => rfl
    | true => exact absurd (hbare rfl) hframes
  head := by simp [Nesting.parenthesized]

theorem addToken_parenthesized (h : InCall true n.frames opens)
    (hopens : openAfter opens t ≠ none) :
    addToken cut read (n.parenthesized offset) atHead before t tokens =
      (addToken cut read n atHead before t tokens).map fun result =>
        (result.1.parenthesized offset, result.2) := by
  refine addToken_map (keeps_parenthesized h.frames_ne_nil) (fun hkind => ?_)
    (fun _ => closeBracket_parenthesized) (fun _ => nextArgument_parenthesized)
  obtain ⟨opens', hmatch⟩ := Option.ne_none_iff_exists'.mp hopens
  have hclosing : closing .openParen opens = some opens' := by
    simpa [openAfter, hkind] using hmatch
  obtain ⟨o, rfl, -⟩ := eq_cons_of_closing hclosing
  exact closeParen_parenthesized h

/-- Tokens whose brackets match are nested the same way in a bare call and in one in parentheses. -/
theorem addTokens_parenthesized {final : List Token} (h : InCall true n.frames opens)
    (hopens : (tokens.drop taken).foldlM openAfter opens = some final) :
    addTokens cut read (n.parenthesized offset) atHead before taken tokens =
      (addTokens cut read n atHead before taken tokens).map (·.parenthesized offset) := by
  induction tokens generalizing n opens atHead before taken with
  | nil => rfl
  | cons t tokens ih =>
    cases taken with
    | succ taken => exact ih h hopens
    | zero =>
      rw [addTokens, addTokens, addToken_parenthesized h (openAfter_ne_none hopens)]
      cases hadd : addToken cut read n atHead before t tokens with
      | error => rfl
      | ok result =>
        obtain ⟨opens', hcall, hopens'⟩ := h.step hopens hadd
        exact ih hcall hopens'

/-- The parenthesis of a call closes what the end of the line closes of a bare call. -/
theorem closeAll_parenthesized (h : InCall true n.frames []) :
    ((n.parenthesized offset).closeParen close).bind (fun m =>
      Nesting.closeAll m.items m.frames) = Nesting.closeAll n.items n.frames := by
  obtain ⟨items, depth, frames⟩ := n
  cases h with
  | call => rfl

theorem addTokens_closeParen_blank {c : Token} {back : List Token} (hc : c.kind = .closeParen)
    (hback : ∀ t ∈ back, t.kind = .blank) :
    addTokens cut read n atHead before 0 (c :: back) = n.closeParen c.start := by
  rw [addTokens]
  simp only [addToken, hc]
  cases n.closeParen c.start with
  | error => rfl
  | ok m => exact addTokens_blank hback

/-- Well nested tokens, with blanks around them, are nested to the same scope in a bare call up to
the end of the line and in one up to a parenthesis. -/
theorem closeAll_addTokens_eq {c : Token} {body lead back back' : List Token}
    (h : InCall true n.frames []) (hbody : WellNested body) (hcut : AgreeOn first last cut cut')
    (hlies : ∀ t ∈ body, Scan.Lies t first last) (hback : ∀ t ∈ back, t.kind = .blank)
    (hlead : ∀ t ∈ lead, t.kind = .blank) (hc : c.kind = .closeParen)
    (hback' : ∀ t ∈ back', t.kind = .blank) :
    (addTokens cut read n false none 0 (body ++ back)).bind (fun m =>
        Nesting.closeAll m.items m.frames) =
      (addTokens cut' read (n.parenthesized offset) false none 0
          (lead ++ (body ++ c :: back'))).bind fun m => Nesting.closeAll m.items m.frames := by
  have hopens : (body.drop 0).foldlM openAfter [] = some [] := hbody
  have hbare : addTokens cut read n false none 0 (body ++ back) =
      (addTokens cut read n false none 0 body).bind .ok := by
    refine addTokens_append_inCall h hopens (Nat.zero_le _) ?_ fun _ _ _ => addTokens_blank hback
    intro u hu
    simp [IsApart, hback u (List.mem_of_mem_head? hu)]
  have hparen : addTokens cut' read (n.parenthesized offset) false none 0 (body ++ c :: back') =
      (addTokens cut' read (n.parenthesized offset) false none 0 body).bind
        (·.closeParen c.start) := by
    refine addTokens_append_inCall h.parenthesized hopens (Nat.zero_le _) ?_
      fun _ _ _ => addTokens_closeParen_blank hc hback'
    rintro _ ⟨⟩
    simp [IsApart, hc]
  rw [hbare, addTokens_blank_append hlead, hparen, ← addTokens_congr hcut hlies,
    addTokens_parenthesized h hopens]
  cases hadd : addTokens cut read n false none 0 body with
  | error => rfl
  | ok m => exact (closeAll_parenthesized (h.addTokens hopens hadd)).symm

/-! ## Where a bare call starts -/

/-- The first token of a line opens a bare call. -/
def OpensBareCall (cut : Nat → Nat → String) (read : NumeralReader) : List Token → Prop
  | [] => False
  | t :: rest => ∃ name size offset taken, addToken cut read {} true none t rest =
      .ok (({} : Nesting).openCall name size true offset, taken)

variable {line : List Char} {s : String} {size : Option String} {rest : List Token} {start : Nat}

theorem addName_of_blank {tokens : List Token} (hframes : n.frames = [])
    (htext : cut start t.stop = s)
    (hsuffix : sizeSuffix cut (tokens ++ u :: rest) = (size, tokens.length))
    (hu : u.kind = .blank) :
    addName cut n true start t (tokens ++ u :: rest) =
      (if opensOperand cut rest then n.openCall s size true start else n.addValue s size,
        tokens.length) := by
  simp only [addName, hsuffix, htext, List.drop_left, hu, hframes]
  cases opensOperand cut rest <;> cases size <;> rfl

theorem addTokens_callee_blank (hs : IsName s) (hsize : ∀ part ∈ size, part = "" ∨ IsPart part)
    (hat : StandsAt line offset (Lexeme.allChars (Lexeme.ofName s ++ Lexeme.ofSize size)))
    (hu : u.kind = .blank) :
    addTokens (cutLine line) read {} true none 0
        (Lexeme.place offset (Lexeme.ofName s ++ Lexeme.ofSize size) ++ u :: rest) =
      addTokens (cutLine line) read
        (if opensOperand (cutLine line) rest then ({} : Nesting).openCall s size true offset
          else ({} : Nesting).addValue s size) false none 0 rest := by
  have hdot : ∀ v ∈ (u :: rest).head?, v.kind ≠ .dot := by simp [hu]
  have hrun : ∀ v ∈ (u :: rest).head?, v.kind ≠ .name ∧ v.kind ≠ .number := by simp [hu]
  obtain ⟨t, tokens, htext, hsuffix, hadd⟩ := addTokens_callee hs hsize hat hdot fun _ => hrun
  rw [(hadd read {} true).2, addName_of_blank rfl htext hsuffix hu, addTokens_skip rfl, addTokens]
  simp only [addToken, hu]
  apply addTokens_of_before
  rintro _ ⟨⟩
  rw [hu]
  rfl

theorem opensOperand_of_opensBareCall (hs : IsName s)
    (hsize : ∀ part ∈ size, part = "" ∨ IsPart part)
    (hat : StandsAt line offset (Lexeme.allChars (Lexeme.ofName s ++ Lexeme.ofSize size)))
    (hu : u.kind = .blank)
    (hopens : OpensBareCall (cutLine line) read
      (Lexeme.place offset (Lexeme.ofName s ++ Lexeme.ofSize size) ++ u :: rest)) :
    opensOperand (cutLine line) rest = true := by
  have hdot : ∀ v ∈ (u :: rest).head?, v.kind ≠ .dot := by simp [hu]
  have hrun : ∀ v ∈ (u :: rest).head?, v.kind ≠ .name ∧ v.kind ≠ .number := by simp [hu]
  obtain ⟨t, tokens, htext, hsuffix, hadd⟩ := addTokens_callee hs hsize hat hdot fun _ => hrun
  obtain ⟨⟨first, more, taken, hfirst, hname⟩, -⟩ := hadd read {} true
  rw [hfirst] at hopens
  obtain ⟨name, size', offset', taken', hopens⟩ := hopens
  rw [hname, addName_of_blank (n := {}) rfl htext hsuffix hu] at hopens
  by_contra hnot
  rw [if_neg hnot] at hopens
  cases size <;> cases hopens

theorem addTokens_bareCall (hs : IsName s) (hsize : ∀ part ∈ size, part = "" ∨ IsPart part)
    (hat : StandsAt line offset (Lexeme.allChars (Lexeme.ofName s ++ Lexeme.ofSize size)))
    (hu : u.kind = .blank)
    (hopens : OpensBareCall (cutLine line) read
      (Lexeme.place offset (Lexeme.ofName s ++ Lexeme.ofSize size) ++ u :: rest)) :
    addTokens (cutLine line) read {} true none 0
        (Lexeme.place offset (Lexeme.ofName s ++ Lexeme.ofSize size) ++ u :: rest) =
      addTokens (cutLine line) read (({} : Nesting).openCall s size true offset) false none 0
        rest := by
  rw [addTokens_callee_blank hs hsize hat hu,
    if_pos (opensOperand_of_opensBareCall hs hsize hat hu hopens)]

theorem wellNested_arguments {b : Token} {front body back : List Token}
    (h : WellNested (front ++ b :: (body ++ back))) (hfront : ∀ t ∈ front, IsPlain t)
    (hb : IsPlain b) (hback : ∀ t ∈ back, IsPlain t) : WellNested body := by
  rw [WellNested, List.foldlM_append, foldlM_of_plain hfront, Option.bind_eq_bind,
    Option.bind_some, List.foldlM_cons, openAfter_of_plain hb, Option.bind_eq_bind,
    Option.bind_some, List.foldlM_append] at h
  obtain ⟨opens, hbody, hopens⟩ := Option.bind_eq_some_iff.mp h
  rw [foldlM_of_plain hback] at hopens
  cases hopens
  exact hbody

theorem ofTokens_bareCall {line' : List Char} {b o c : Token} {body lead back back' : List Token}
    (hs : IsName s) (hsize : ∀ part ∈ size, part = "" ∨ IsPart part)
    (hat : StandsAt line offset (Lexeme.allChars (Lexeme.ofName s ++ Lexeme.ofSize size)))
    (hat' : StandsAt line' offset (Lexeme.allChars (Lexeme.ofName s ++ Lexeme.ofSize size)))
    (hcut : AgreeOn first last (cutLine line) (cutLine line'))
    (hopens : OpensBareCall (cutLine line) read
      (Lexeme.place offset (Lexeme.ofName s ++ Lexeme.ofSize size) ++ b :: (body ++ back)))
    (hbody : WellNested body) (hlies : ∀ t ∈ body, Scan.Lies t first last)
    (hb : b.kind = .blank) (ho : o.kind = .openParen) (hc : c.kind = .closeParen)
    (hblank : ∀ t ∈ lead ++ (back ++ back'), t.kind = .blank) :
    Scope.ofTokens (cutLine line) read
        (Lexeme.place offset (Lexeme.ofName s ++ Lexeme.ofSize size) ++ b :: (body ++ back)) =
      Scope.ofTokens (cutLine line') read
        (Lexeme.place offset (Lexeme.ofName s ++ Lexeme.ofSize size) ++
          o :: (lead ++ (body ++ c :: back'))) := by
  rw [List.forall_mem_append, List.forall_mem_append] at hblank
  obtain ⟨hlead, hback, hback'⟩ := hblank
  rw [Scope.ofTokens, Scope.ofTokens, addTokens_bareCall hs hsize hat hb hopens,
    addTokens_call hs hsize hat' ho]
  exact closeAll_addTokens_eq .call hbody hcut hlies hback hlead hc hback'

end Nest

end MacroAsm
