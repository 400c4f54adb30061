import Mathlib
import MacroAsm.Proofs.Reader.BareCall
import MacroAsm.Proofs.Scope.Grow
import MacroAsm.Proofs.Scope.Reach
import MacroAsm.Proofs.Token.Blanks
import MacroAsm.Proofs.Token.Order

/-!
# Signs that open a bare call

`Nest.call_of_sign`: a name, blanks and a sign without blanks before its operand open a bare call,
whose first argument starts with the sign, unless the operand is a string. The call stays open to
the end of the line, so no comma outside the brackets of the line is at fault.

The token of a string starts behind its quote. So it is not where the sign ends, and what should be
the sign of an argument is an operator between two values.

Proof. The line is scanned to the tokens of the name, a blank, the sign and the operand
(`Scan.scan_sign`). These decide what the first token of the line adds
(`addTokens_callee_blank`), which then only grows (`whole_of_addTokens`). In the call, the run over
the tokens knows which brackets are open (`InCall.exists_error`).
-/

namespace MacroAsm

open Lexeme Nest

/-! ## Scanning -/

namespace Scan

open Text (byteSize)

variable {offset next stop : Nat} {done last tokens : List Token} {t : Token} {c : Char}
  {cs rest lead gap : List Char} {callee : List Lexeme}

/-- Whether a value can start with the character. -/
def startsValue (c : Char) : Bool :=
  isQuote c || (markKind? c).any TokenKind.opensValue || (runKind? c).isSome

theorem classes_of_startsValue (h : startsValue c = true) :
    isBlank c = false ∧ c ≠ ':' ∧ c ∉ operatorChars := by
  have hblank : isBlank c = false := by
    rw [Bool.eq_false_iff]
    intro hc
    simp only [isBlank, Bool.or_eq_true, decide_eq_true_eq] at hc
    rcases hc with ((rfl | rfl) | rfl) | rfl <;> cases h
  have hcolon : c ≠ ':' := by
    rintro rfl
    cases h
  have hoperator : operatorChars.all (fun c => !startsValue c) = true := rfl
  rw [List.all_eq_true] at hoperator
  exact ⟨hblank, hcolon, fun hc => by simpa [h] using hoperator c hc⟩

theorem Lexes.opensValue (h : Lexes offset (c :: cs) t next rest) (hc : startsValue c = true) :
    t.kind.opensValue = true ∧ (t.start = offset ↔ isQuote c = false) := by
  obtain ⟨-, hcolon, hoperator⟩ := classes_of_startsValue hc
  generalize hline : c :: cs = line at h
  cases h with
  | string hquote =>
    obtain ⟨rfl, -⟩ := List.cons.inj hline
    have hpos := c.utf8Size_pos
    exact ⟨rfl, by simp [hquote]; omega⟩
  | cast | label => exact absurd (List.cons.inj hline).1 hcolon
  | mark hkind =>
    obtain ⟨rfl, -⟩ := List.cons.inj hline
    have hmark : c ∈ marks := by
      unfold markKind? at hkind
      split at hkind <;> first | decide | cases hkind
    have hquote := (classes_of_markKind? hkind).2.1
    refine ⟨?_, by simp [hquote]⟩
    simpa [startsValue, hkind, hquote, runKind?_of_mem_marks hmark] using hc
  | operator hmem =>
    obtain ⟨rfl, -⟩ := List.cons.inj hline
    exact absurd hmem hoperator
  | run hrun =>
    have hquote : isQuote c = false := by
      obtain ⟨d, ds, rfl, -⟩ := id hrun
      obtain ⟨rfl, -⟩ := List.cons.inj hline
      exact isQuote_of_isRun hrun c (List.mem_cons_self ..)
    refine ⟨?_, by simp [hquote]⟩
    rcases hrun.kind_eq with rfl | rfl <;> rfl

theorem Scans.suffix (h : Scans offset done cs stop last rest) : done <:+ last := by
  induction h with
  | refl => exact List.suffix_rfl
  | @blank offset done c _ _ _ _ _ _ ih =>
    refine List.IsSuffix.trans ?_ ih
    rcases addBlank_eq_or offset (offset + c.utf8Size) done with heq | ⟨t, -, -, -, heq⟩
    · rw [heq]
    · rw [heq]
      exact List.suffix_cons ..
  | token _ _ _ ih => exact (List.suffix_cons ..).trans ih

theorem scanFrom_value (hc : startsValue c = true)
    (hscan : scanFrom offset done (c :: cs) = .ok tokens) :
    ∃ t back, tokens = back ++ t :: done ∧ t.kind.opensValue = true ∧
      (t.start = offset ↔ isQuote c = false) := by
  obtain ⟨stop, last, hscans, rfl⟩ := exists_scans hscan
  generalize hline : c :: cs = line at hscans
  generalize hend : ([] : List Char) = rest at hscans
  cases hscans with
  | refl =>
    subst hend
    cases hline
  | blank hblank =>
    obtain ⟨rfl, -⟩ := List.cons.inj hline
    rw [(classes_of_startsValue hc).1] at hblank
    cases hblank
  | @token _ _ _ t _ _ _ _ _ hlexes _ hscans =>
    subst hline
    obtain ⟨back, rfl⟩ := hscans.suffix
    rcases addBlank_eq_or stop stop (back ++ t :: done) with heq | ⟨u, -, -, -, heq⟩
    · exact ⟨t, back, heq, hlexes.opensValue hc⟩
    · exact ⟨t, u :: back, by rw [heq, List.cons_append], hlexes.opensValue hc⟩

/-- A line of a name, a sign and a value, with blanks before the name and the sign. -/
theorem scan_sign {sign : Char} (hlead : ∀ c ∈ lead, isBlank c = true) (hlead' : lead ≠ [])
    (hcallee : ∀ rest, EndsRun rest → Spaced none callee rest) (hne : callee ≠ [])
    (hkinds : ∀ x ∈ callee, x.kind.isSignificant = true)
    (hgap : ∀ c ∈ gap, isBlank c = true) (hgap' : gap ≠ []) (hsign : sign = '-' ∨ sign = '+')
    (hc : startsValue c = true)
    (hoffset : offset = byteSize lead + byteSize (allChars callee))
    (hscan : scan (lead ++ (allChars callee ++ (gap ++ sign :: c :: cs))) = .ok tokens) :
    ∃ t back, tokens = place (byteSize lead) callee ++ ⟨.blank, offset, offset + 1⟩ ::
        ⟨.operator, offset + byteSize gap, offset + byteSize gap + 1⟩ :: t :: back ∧
      t.kind.opensValue = true ∧
      (t.start = offset + byteSize gap + 1 ↔ isQuote c = false) := by
  have hpos : 0 < byteSize lead := by
    obtain ⟨b, lead, rfl⟩ := List.exists_cons_of_ne_nil hlead'
    rw [Text.byteSize_cons]
    exact Nat.add_pos_left b.utf8Size_pos _
  have hstart : ∀ cs, scanFrom 0 [] (lead ++ cs) = scanFrom (byteSize lead) [] cs := by
    intro cs
    rw [scanFrom_blanks hlead hlead', Nat.zero_add]
    rfl
  -- the name
  have hspaced : Spaced (([] : List Token).head?.map Token.kind) callee
      (gap ++ sign :: c :: cs) := by
    obtain ⟨b, gap, rfl⟩ := List.exists_cons_of_ne_nil hgap'
    have hb : continuesRun b = false := by simp [continuesRun, hgap b (List.mem_cons_self ..)]
    exact hcallee _ (endsRun_cons hb)
  have hnil : Opened [] := ⟨by simp, by simp⟩
  have hname := scanFrom_of_spaced hspaced hpos hnil
  have hopened := opened_of_spaced hspaced hpos hnil
  rw [List.append_nil, ← hoffset] at hname
  rw [List.append_nil] at hopened
  -- the blanks behind it
  have hhead : ∃ t ∈ (place (byteSize lead) callee).reverse.head?,
      t.isSignificant = true ∧ 0 < t.start := by
    obtain ⟨t, ht, hsignificant⟩ := head_place hne hkinds
    exact ⟨t, ht, hsignificant, hopened.start_pos t (List.mem_of_mem_head? ht)⟩
  -- the sign
  have hlexes : Lexes (offset + byteSize gap) (sign :: c :: cs)
      ⟨.operator, offset + byteSize gap, offset + byteSize gap + 1⟩ (offset + byteSize gap + 1)
      (c :: cs) := by
    rcases hsign with rfl | rfl <;> exact .operator (by decide) rfl Nat.one_pos
  rw [scan_of_scanFrom (hstart _) hpos, hname, scanFrom_blanks hgap hgap', addBlank_eq hhead,
    hlexes.scanFrom_eq ⟨by simp, by simp⟩] at hscan
  obtain ⟨reversed, hfrom, rfl⟩ := ok_of_map_eq_ok hscan
  obtain ⟨t, back, rfl, hopens, hthere⟩ := scanFrom_value hc hfrom
  exact ⟨t, back.reverse, by simp, hopens, hthere⟩

end Scan

/-! ## Nesting -/

/-- The scope is a call of `name` whose first argument starts with the operator `o`. -/
def Scope.IsSignedCall (name : String) (size : Option String) (o : Operator) (call : Scope) :
    Prop :=
  call.kind = .call ∧ call.value = some (.call name size []) ∧
    call.StartsWith fun arg => arg.kind = .plain ∧
      arg.StartsWith (· = ⟨.operator, 3, some (.bare o), []⟩)

namespace Nest

open Scope (Grows)

variable {cut : Nat → Nat → String} {read : NumeralReader} {n n' : Nesting} {taken offset : Nat}
  {atHead : Bool} {before : Option Token} {t u : Token} {tokens opens : List Token} {o : Operator}
  {name : String} {size : Option String} {fault : Fault} {call call' : Scope}

theorem startsWith_leaf_of_grows {leaf root root' : Scope} (hleaf : leaf.isScope = false)
    (h : Grows root root') (hroot : root.StartsWith (· = leaf)) : root'.StartsWith (· = leaf) := by
  refine h.startsWith hroot fun hscope _ heq => ?_
  rw [heq, hleaf] at hscope
  cases hscope

theorem isSignedCall_of_grows (ho : o = .sub ∨ o = .add) (h : Grows call call')
    (hcall : call.IsSignedCall name size o) : call'.IsSignedCall name size o := by
  obtain ⟨hkind, hvalue, harg⟩ := hcall
  refine ⟨h.kind_eq.trans hkind, h.value_eq.trans hvalue, h.startsWith harg ?_⟩
  rintro arg arg' - hgrows ⟨hplain, hsign⟩
  refine ⟨hgrows.kind_eq.trans hplain, startsWith_leaf_of_grows ?_ hgrows hsign⟩
  rcases ho with rfl | rfl <;> rfl

theorem opensOperand_sign (ho : t.kind = .operator)
    (htext : cut t.start t.stop = "-" ∨ cut t.start t.stop = "+") :
    opensOperand cut (t :: u :: tokens) = (decide (u.start = t.stop) && u.kind.opensValue) := by
  have hsignificant : t.isSignificant = true := by
    rw [Token.isSignificant, ho]
    rfl
  rcases htext with htext | htext <;> simp [opensOperand, hsignificant, ho, htext]

/-! ## Commas in a bare call -/

theorem InCall.openAfter_ne_none (h : InCall true n.frames opens)
    (hadd : Nest.addToken cut read n atHead before t tokens = .ok (n', taken)) :
    openAfter opens t ≠ none := by
  have hadds := adds_of_addToken hadd
  generalize tokens.take taken = more at hadds
  obtain ⟨items, depth, frames⟩ := n
  cases hadds with
  | blank ht | openParen ht | openBracket ht | comma ht => simp [openAfter, ht]
  | mark ht => rcases ht with ht | ht <;> simp [openAfter, ht]
  | leaf hatoms =>
    rw [openAfter_of_plain (plain_of_isAtom (hatoms t (List.mem_cons_self ..)))]
    simp
  | openCall hwords | openBare hwords =>
    rw [openAfter_of_plain (plain_of_words hwords t (List.mem_cons_self ..))]
    simp
  | closeParen ht hframes | closeBracket ht hframes =>
    obtain rfl : frames = _ := hframes
    cases h with
    | bracket hf => simp [openAfter, ht, closing, hf.1]
  | closeCall ht hframes =>
    obtain rfl : frames = _ := hframes
    cases h with
    | bracket hf => simp [openAfter, ht, closing, hf.2.1]

/-- A fault in a bare call is that of a token in it, and the brackets before that token match. -/
theorem InCall.exists_error (h : InCall true n.frames opens)
    (herror : Nest.addTokens cut read n atHead before taken tokens = .error fault) :
    ∃ front t back opens' n' atHead' before', tokens.drop taken = front ++ t :: back ∧
      front.foldlM openAfter opens = some opens' ∧ InCall true n'.frames opens' ∧
      Nest.addToken cut read n' atHead' before' t back = .error fault := by
  induction tokens generalizing n opens atHead before taken with
  | nil => cases herror
  | cons t tokens ih =>
    cases taken with
    | succ taken => exact ih h herror
    | zero =>
      cases hadd : Nest.addToken cut read n atHead before t tokens with
      | error fault' =>
        rw [Nest.addTokens, hadd] at herror
        cases herror
        exact ⟨[], t, tokens, opens, n, atHead, before, rfl, rfl, h, hadd⟩
      | ok result =>
        rw [Nest.addTokens, hadd] at herror
        obtain ⟨opens', hfold, hcall⟩ := h.addToken hadd (h.openAfter_ne_none hadd)
        obtain ⟨front, u, back, final, m, atHead', before', hdrop, hfront, hm, hfault⟩ :=
          ih hcall herror
        refine ⟨t :: tokens.take result.2 ++ front, u, back, final, m, atHead', before', ?_, ?_,
          hm, hfault⟩
        · rw [List.append_assoc, ← hdrop, List.cons_append, List.take_append_drop, List.drop_zero]
        · rw [List.foldlM_append, hfold]
          exact hfront

theorem InCall.addToken_comma (h : InCall true n.frames []) (ht : t.kind = .comma) :
    ∃ n', Nest.addToken cut read n atHead before t tokens = .ok (n', 0) := by
  obtain ⟨items, depth, frames⟩ := n
  cases h with
  | call =>
    simp only [Nest.addToken, ht]
    exact ⟨_, rfl⟩

/-! ## Lines -/

variable {line lead gap cs : List Char} {c : Char}

theorem addTokens_sign (hlead : ∀ c ∈ lead, Scan.isBlank c = true) (hlead' : lead ≠ [])
    (hname : IsName name) (hsize : ∀ part ∈ size, part = "" ∨ IsPart part)
    (hgap : ∀ c ∈ gap, Scan.isBlank c = true) (hgap' : gap ≠ []) (ho : o = .sub ∨ o = .add)
    (hc : Scan.startsValue c = true)
    (hline : line = lead ++ (name.toList ++ (Node.printSize size).toList ++
      (gap ++ (o.symbol.toList ++ c :: cs))))
    (hscan : scan line = .ok tokens) :
    ∃ front rest, tokens = front ++ rest ∧ (∀ t ∈ front, IsPlain t) ∧
      ∀ read, addTokens (cutLine line) read {} true none 0 tokens =
        addTokens (cutLine line) read
          ((if isQuote c = false then
              ({} : Nesting).openCall name size true (Text.byteSize lead)
            else ({} : Nesting).addValue name size).addLeaf .operator (some (.bare o)))
          false none 0 rest := by
  obtain ⟨sign, hsign, hsymbol⟩ :
      ∃ sign, (sign = '-' ∨ sign = '+') ∧ o.symbol.toList = [sign] := by
    rcases ho with rfl | rfl
    · exact ⟨'-', .inl rfl, rfl⟩
    · exact ⟨'+', .inr rfl, rfl⟩
  rw [hsymbol, ← allChars_callee] at hline
  obtain ⟨offset, hoffset⟩ : ∃ offset, offset = Text.byteSize lead +
      Text.byteSize (allChars (ofName name ++ ofSize size)) := ⟨_, rfl⟩
  have hat : StandsAt line (Text.byteSize lead) (allChars (ofName name ++ ofSize size)) :=
    ⟨lead, gap ++ sign :: c :: cs, by simp [hline], rfl⟩
  have hcut : cutLine line (offset + Text.byteSize gap) (offset + Text.byteSize gap + 1) =
      o.symbol := by
    have hstands : StandsAt line (offset + Text.byteSize gap) [sign] :=
      ⟨lead ++ allChars (ofName name ++ ofSize size) ++ gap, c :: cs, by simp [hline],
        by rw [Text.byteSize_append, Text.byteSize_append, hoffset]⟩
    have hsize : Text.byteSize [sign] = 1 := by rcases hsign with rfl | rfl <;> rfl
    rw [← hsize, hstands.cut, ← hsymbol, String.ofList_toList]
  rw [hline] at hscan
  obtain ⟨t, back, rfl, hopens, hthere⟩ :=
    Scan.scan_sign hlead hlead' (fun _ => spaced_callee hname hsize) (callee_ne_nil hname)
      (fun _ => significant_callee hname hsize) hgap hgap' hsign hc hoffset hscan
  refine ⟨place (Text.byteSize lead) (ofName name ++ ofSize size) ++ [_, _], t :: back,
    by rw [List.append_assoc]; rfl, ?_, fun read => ?_⟩
  · rw [List.forall_mem_append]
    exact ⟨fun _ => plain_callee hname hsize, by simp [IsPlain]⟩
  · have hoperand : opensOperand (cutLine line) (⟨.operator, offset + Text.byteSize gap,
        offset + Text.byteSize gap + 1⟩ :: t :: back) = true ↔ isQuote c = false := by
      rw [opensOperand_sign rfl (by rcases ho with rfl | rfl <;> simp [hcut, Operator.symbol]),
        hopens, Bool.and_true, decide_eq_true_iff, hthere]
    have hsign : Operator.ofSymbol? o.symbol = some o := by rcases ho with rfl | rfl <;> rfl
    rw [addTokens_callee_blank hname hsize hat rfl, addTokens]
    simp only [addToken, hcut, hsign, hoperand]
    apply addTokens_of_before
    rintro _ ⟨⟩
    rfl

/-- A name, blanks and a sign that is glued to a value open a bare call whose first argument starts
with the sign, unless the value is a string. In the call, no comma outside brackets is at fault. -/
theorem call_of_sign (hlead : ∀ c ∈ lead, Scan.isBlank c = true) (hlead' : lead ≠ [])
    (hname : IsName name) (hsize : ∀ part ∈ size, part = "" ∨ IsPart part)
    (hgap : ∀ c ∈ gap, Scan.isBlank c = true) (hgap' : gap ≠ []) (ho : o = .sub ∨ o = .add)
    (hc : Scan.startsValue c = true)
    (hline : line = lead ++ (name.toList ++ (Node.printSize size).toList ++
      (gap ++ (o.symbol.toList ++ c :: cs))))
    (hscan : scan line = .ok tokens) :
    (∀ root, Scope.ofTokens (cutLine line) read tokens = .ok root →
      (root.StartsWith (·.IsSignedCall name size o) ↔ isQuote c = false)) ∧
    (isQuote c = false → ∀ front t back, tokens = front ++ t :: back → t.kind = .comma →
      (∀ opens, front.foldlM openAfter [] = some opens → opens = []) →
      Scope.ofTokens (cutLine line) read tokens ≠ .error (.commaOutsideCall t.start)) := by
  have horder := Scan.scan_inOrder hscan
  obtain ⟨front, rest, rfl, hfront, hadd⟩ :=
    addTokens_sign hlead hlead' hname hsize hgap hgap' ho hc hline hscan
  constructor
  · intro root hroot
    obtain ⟨n, hn, hclose⟩ := Scope.eq_of_ofTokens hroot
    obtain rfl := eq_whole_of_closeAll hclose
    rw [hadd] at hn
    cases hquote : isQuote c with
    | false =>
      rw [hquote, if_pos rfl] at hn
      refine iff_of_true (whole_of_addTokens hn ?_ ?_) rfl
      · exact fun hgrows hs => hgrows.startsWith hs fun _ => isSignedCall_of_grows ho
      · exact ⟨_, _, rfl, rfl, rfl, _, _, rfl, rfl, _, _, rfl, rfl⟩
    | true =>
      rw [hquote, if_neg (by simp)] at hn
      obtain ⟨leaf, hleaf, hwhole⟩ : ∃ leaf : Scope, leaf.isScope = false ∧
          (Nesting.whole n.items n.frames).StartsWith (· = leaf) := by
        cases size with
        | none | some =>
          exact ⟨_, rfl, whole_of_addTokens hn (startsWith_leaf_of_grows rfl) ⟨_, _, rfl, rfl⟩⟩
      refine iff_of_false ?_ (by simp)
      rintro ⟨call, more, hchildren, hkind, -⟩
      obtain ⟨leaf', more', hchildren', rfl⟩ := hwhole
      obtain ⟨rfl, -⟩ := List.cons.inj (hchildren.symm.trans hchildren')
      simp [Scope.isScope, hkind] at hleaf
  · intro hquote front' t back hsplit hcomma houtside herror
    rcases Scope.addTokens_of_ofTokens_error herror with ⟨bracket, offset, hfault⟩ | herror
    · cases hfault
    rw [hadd, if_pos hquote] at herror
    obtain ⟨middle, u, back', opens, m, atHead, before, hrest, hopens, hcall, hfault⟩ :=
      InCall.exists_error .call herror
    rw [List.drop_zero] at hrest
    subst hrest
    -- the token at fault is the comma, and the brackets before it are closed
    have hstart : u.start = t.start := (Option.some.inj (offset?_of_addToken hfault)).symm
    rw [← List.append_assoc] at hsplit horder
    obtain ⟨rfl, rfl, rfl⟩ := horder.split_unique hsplit hstart
    have hempty : opens = [] := by
      apply houtside
      rw [List.foldlM_append, foldlM_of_plain hfront]
      exact hopens
    subst hempty
    obtain ⟨m', hcomma⟩ := hcall.addToken_comma hcomma
    cases hfault.symm.trans hcomma

/-- The name has a suffix, and the call a second argument in parentheses. -/
theorem call_of_sign_sized :
    scan " a.w -b, (c)".toList = .ok [⟨.name, 1, 2⟩, ⟨.dot, 2, 3⟩, ⟨.name, 3, 4⟩, ⟨.blank, 4, 5⟩,
        ⟨.operator, 5, 6⟩, ⟨.name, 6, 7⟩, ⟨.comma, 7, 8⟩, ⟨.blank, 8, 9⟩, ⟨.openParen, 9, 10⟩,
        ⟨.name, 10, 11⟩, ⟨.closeParen, 11, 12⟩, ⟨.blank, 12, 12⟩] ∧
      ∃ root, Scope.ofTokens (cutLine " a.w -b, (c)".toList) readNumeral [⟨.name, 1, 2⟩,
          ⟨.dot, 2, 3⟩, ⟨.name, 3, 4⟩, ⟨.blank, 4, 5⟩, ⟨.operator, 5, 6⟩, ⟨.name, 6, 7⟩,
          ⟨.comma, 7, 8⟩, ⟨.blank, 8, 9⟩, ⟨.openParen, 9, 10⟩, ⟨.name, 10, 11⟩,
          ⟨.closeParen, 11, 12⟩, ⟨.blank, 12, 12⟩] = .ok root ∧
        root.StartsWith (·.IsSignedCall "a" (some "w") .sub) := by
  have hscan : scan " a.w -b, (c)".toList = .ok [⟨.name, 1, 2⟩, ⟨.dot, 2, 3⟩, ⟨.name, 3, 4⟩,
      ⟨.blank, 4, 5⟩, ⟨.operator, 5, 6⟩, ⟨.name, 6, 7⟩, ⟨.comma, 7, 8⟩, ⟨.blank, 8, 9⟩,
      ⟨.openParen, 9, 10⟩, ⟨.name, 10, 11⟩, ⟨.closeParen, 11, 12⟩, ⟨.blank, 12, 12⟩] := by cbv
  have hname : IsName "a" := .plain ⟨'a', [], rfl, rfl, by simp⟩
  have hsize : ∀ part ∈ some "w", part = "" ∨ IsPart part := by
    rintro _ ⟨⟩
    exact .inr (.inl ⟨'w', [], rfl, rfl, by simp⟩)
  have hline : " a.w -b, (c)".toList = [' '] ++ ("a".toList ++ (Node.printSize (some "w")).toList ++
      ([' '] ++ (Operator.sub.symbol.toList ++ 'b' :: ", (c)".toList))) := by cbv
  have hroot : Scope.ofTokens (cutLine " a.w -b, (c)".toList) readNumeral [⟨.name, 1, 2⟩,
      ⟨.dot, 2, 3⟩, ⟨.name, 3, 4⟩, ⟨.blank, 4, 5⟩, ⟨.operator, 5, 6⟩, ⟨.name, 6, 7⟩, ⟨.comma, 7, 8⟩,
      ⟨.blank, 8, 9⟩, ⟨.openParen, 9, 10⟩, ⟨.name, 10, 11⟩, ⟨.closeParen, 11, 12⟩,
      ⟨.blank, 12, 12⟩] = .ok ⟨.plain, 0, none, [⟨.call, 1, some (.call "a" (some "w") []),
        [⟨.plain, 2, none,
            [⟨.operator, 3, some (.bare .sub), []⟩, ⟨.text, 3, some (.text "b"), []⟩]⟩,
          ⟨.plain, 2, none, [⟨.plain, 3, none, [⟨.text, 4, some (.text "c"), []⟩]⟩]⟩]⟩]⟩ := by cbv
  exact ⟨hscan, _, hroot, ((call_of_sign (by simp [Scan.isBlank]) (by simp) hname hsize
    (by simp [Scan.isBlank]) (by simp) (.inl rfl) rfl hline hscan).1 _ hroot).mpr rfl⟩

/-- A sign that is glued to a string opens no call, and a comma is at fault. -/
theorem sign_before_string :
    scan " a -\"s\"".toList = .ok [⟨.name, 1, 2⟩, ⟨.blank, 2, 3⟩, ⟨.operator, 3, 4⟩,
        ⟨.string, 5, 6⟩, ⟨.blank, 7, 7⟩] ∧
      Scope.ofTokens (cutLine " a -\"s\"".toList) readNumeral [⟨.name, 1, 2⟩, ⟨.blank, 2, 3⟩,
          ⟨.operator, 3, 4⟩, ⟨.string, 5, 6⟩, ⟨.blank, 7, 7⟩] =
        .ok ⟨.plain, 0, none, [⟨.text, 1, some (.text "a"), []⟩,
          ⟨.operator, 1, some (.bare .sub), []⟩, ⟨.string, 1, some (.string "s"), []⟩]⟩ ∧
      scan " a -\"s\", b".toList = .ok [⟨.name, 1, 2⟩, ⟨.blank, 2, 3⟩, ⟨.operator, 3, 4⟩,
        ⟨.string, 5, 6⟩, ⟨.comma, 7, 8⟩, ⟨.blank, 8, 9⟩, ⟨.name, 9, 10⟩, ⟨.blank, 10, 10⟩] ∧
      Scope.ofTokens (cutLine " a -\"s\", b".toList) readNumeral [⟨.name, 1, 2⟩, ⟨.blank, 2, 3⟩,
          ⟨.operator, 3, 4⟩, ⟨.string, 5, 6⟩, ⟨.comma, 7, 8⟩, ⟨.blank, 8, 9⟩, ⟨.name, 9, 10⟩,
          ⟨.blank, 10, 10⟩] =
        .error (.commaOutsideCall 7) := by
  refine ⟨?_, ?_, ?_, ?_⟩ <;> cbv

end Nest

end MacroAsm
