import Mathlib
import MacroAsm.Number.Literal
import MacroAsm.Proofs.Scope.Reach
import MacroAsm.Proofs.Token.Order

/-!
# Dots behind values

`Nest.dot_behind_value`: a dot that stands right behind a name, a numeral or a closing bracket is
part of a value or an operator, wherever the run over the tokens comes to it. Behind the closing
quote of a string it is neither: there it starts a local name, or is at fault.

The dot is compared with the end of the token before it, and the token of a string ends before its
closing quote.
-/

namespace MacroAsm

namespace Nest

/-- Adding the token `t` before `back` takes in the dot `d`, as the dot of a suffix, of a name or of
a local name, as the point of a numeral, or as an operator. -/
inductive TakesDot (cut : Nat → Nat → String) (read : NumeralReader) (n : Nesting) (atHead : Bool)
    (before : Option Token) (d : Token) : Token → List Token → Prop
  | suffix {t rest part taken} (ht : t.kind = .name)
      (hsuffix : sizeSuffix cut (d :: rest) = (some part, taken + 1)) :
      TakesDot cut read n atHead before d t (d :: rest)
  | localSuffix {t u rest part taken} (ht : t.kind = .dot) (hglued : isGlued before t = false)
      (hu : u.kind = .name) (hsuffix : sizeSuffix cut (d :: rest) = (some part, taken + 1)) :
      TakesDot cut read n atHead before d t (u :: d :: rest)
  | point {t fraction rest} (ht : t.kind = .number)
      (hend : numeralEnd t (d :: fraction :: rest) = (fraction.stop, 2)) :
      TakesDot cut read n atHead before d t (d :: fraction :: rest)
  | access {back} (hadd : addToken cut read n atHead before d back =
        .ok (n.addLeaf .operator (some (.bare .field)), 0)) :
      TakesDot cut read n atHead before d d back

/-- The dot `d` before `back` starts a local name, or is at fault. -/
inductive StandsAlone (cut : Nat → Nat → String) (read : NumeralReader) (n : Nesting)
    (atHead : Bool) (before : Option Token) (d : Token) : List Token → Prop
  | localName {u rest} (hu : u.kind = .name)
      (hadd : addToken cut read n atHead before d (u :: rest) =
        .ok ((addName cut n atHead d.start u rest).1,
          (addName cut n atHead d.start u rest).2 + 1)) :
      StandsAlone cut read n atHead before d (u :: rest)
  | stray {back} (hadd : addToken cut read n atHead before d back =
        .error (.unknownOperator "." d.start)) :
      StandsAlone cut read n atHead before d back

variable {cut : Nat → Nat → String} {read : NumeralReader} {n n' : Nesting} {taken start : Nat}
  {atHead : Bool} {before : Option Token} {t p d : Token} {tokens front back rest : List Token}
  {line : List Char} {symbol : String}

/-! ## Adding a dot -/

theorem addToken_of_glued (hd : d.kind = .dot) (hglued : isGlued before d = true) :
    addToken cut read n atHead before d back =
      .ok (n.addLeaf .operator (some (.bare .field)), 0) := by
  simp only [addToken, hd, hglued, ↓reduceIte]

theorem standsAlone_of_not_glued (hd : d.kind = .dot) (hglued : isGlued before d = false) :
    StandsAlone cut read n atHead before d back := by
  cases back with
  | nil => exact .stray (by simp [addToken, hd, hglued])
  | cons u rest =>
    by_cases hu : u.kind = .name
    · exact .localName hu (by simp [addToken, hd, hglued, hu])
    · exact .stray (by simp [addToken, hd, hglued, hu])

theorem suffix_of_mem (hd : d.kind = .dot) (hmem : d ∈ back.take (sizeSuffix cut back).2) :
    ∃ rest part taken, back = d :: rest ∧ sizeSuffix cut back = (some part, taken + 1) := by
  rcases back with _ | ⟨dot, rest⟩
  · simp at hmem
  · have hdot : dot.kind = .dot := by
      by_contra hdot
      simp [sizeSuffix, hdot] at hmem
    rcases rest with _ | ⟨run, rest⟩
    · obtain rfl : d = dot := by simpa [sizeSuffix, hdot] using hmem
      exact ⟨[], "", 0, rfl, by simp [sizeSuffix, hdot]⟩
    · by_cases hrun : run.kind = .name ∨ run.kind = .number
      · have hsuffix : sizeSuffix cut (dot :: run :: rest) =
            (some (cut run.start run.stop), 2) := by
          rcases hrun with hrun | hrun <;> simp [sizeSuffix, hdot, hrun]
        rw [hsuffix, List.take_succ_cons, List.take_succ_cons, List.take_zero, List.mem_cons,
          List.mem_singleton] at hmem
        rcases hmem with rfl | rfl
        · exact ⟨run :: rest, _, 1, rfl, hsuffix⟩
        · rcases hrun with hrun | hrun <;> cases hrun.symm.trans hd
      · rw [not_or] at hrun
        have hsuffix : sizeSuffix cut (dot :: run :: rest) = (some "", 1) := by
          simp [sizeSuffix, hdot, hrun]
        rw [hsuffix, List.take_succ_cons, List.take_zero, List.mem_singleton] at hmem
        subst hmem
        exact ⟨run :: rest, _, 0, rfl, hsuffix⟩

theorem glued_of_ne_string (hp : p.kind ≠ .string) (hends : p.kind.endsValue = true)
    (hglued : p.behind = d.start) : isGlued (some p) d = true := by
  rw [Token.behind_of_ne hp] at hglued
  simp [isGlued, hends, hglued]

theorem not_glued_of_string (hp : p.kind = .string) (hglued : p.behind = d.start) :
    isGlued (some p) d = false := by
  rw [Token.behind_of_string hp] at hglued
  have hstop : p.stop ≠ d.start := by omega
  simp [isGlued, hstop]

/-! ## Dots that belong to a token before them -/

theorem suffix_of_mem_addName (hd : d.kind = .dot)
    (hmem : d ∈ back.take (addName cut n atHead start t back).2) :
    ∃ rest part taken, back = d :: rest ∧ sizeSuffix cut back = (some part, taken + 1) := by
  apply suffix_of_mem hd
  simp only [addName] at hmem
  split at hmem
  next => exact hmem
  next next after hdrop =>
    split at hmem
    next hparen =>
      rw [List.take_add_one, ← List.head?_drop, hdrop, List.mem_append] at hmem
      refine hmem.resolve_right fun hnext => ?_
      obtain rfl : d = next := by simpa using hnext
      rw [hparen] at hd
      cases hd
    next => split at hmem <;> exact hmem

theorem point_of_mem (hd : d.kind = .dot) (hmem : d ∈ back.take (numeralEnd t back).2) :
    ∃ fraction rest, back = d :: fraction :: rest ∧ numeralEnd t back = (fraction.stop, 2) := by
  rcases back with _ | ⟨dot, _ | ⟨fraction, rest⟩⟩
  · simp at hmem
  · simp [numeralEnd] at hmem
  · by_cases h : (dot.kind = .dot && fraction.kind = .number && dot.start = t.stop &&
        fraction.start = dot.stop) = true
    · have hend : numeralEnd t (dot :: fraction :: rest) = (fraction.stop, 2) := if_pos h
      simp only [Bool.and_eq_true, decide_eq_true_eq] at h
      rw [hend, List.take_succ_cons, List.take_succ_cons, List.take_zero, List.mem_cons,
        List.mem_singleton] at hmem
      rcases hmem with rfl | rfl
      · exact ⟨fraction, rest, rfl, hend⟩
      · cases h.1.1.2.symm.trans hd
    · have hend : numeralEnd t (dot :: fraction :: rest) = (t.stop, 0) := if_neg h
      simp [hend] at hmem

/-- A dot that a token takes in with it belongs to a suffix or a numeral. -/
theorem takesDot_of_mem (hadd : addToken cut read n atHead before t back = .ok (n', taken))
    (hd : d.kind = .dot) (hmem : d ∈ back.take taken) :
    TakesDot cut read n atHead before d t back := by
  have hnone : taken = 0 → TakesDot cut read n atHead before d t back := by
    rintro rfl
    simp at hmem
  unfold addToken at hadd
  split at hadd
  case h_9 | h_10 | h_11 =>
    obtain ⟨_, -, heq⟩ := ok_of_map_eq_ok hadd
    cases heq
    exact hnone rfl
  case h_13 hkind =>
    simp only at hadd
    split at hadd
    · cases hadd
      obtain ⟨fraction, rest, rfl, hend⟩ := point_of_mem hd hmem
      exact .point hkind hend
    · cases hadd
  case h_14 =>
    simp only at hadd
    split at hadd <;> cases hadd
    exact hnone rfl
  case h_15 hkind =>
    have hname : (addName cut n atHead t.start t back).2 = taken :=
      congrArg Prod.snd (Except.ok.inj hadd)
    rw [← hname] at hmem
    obtain ⟨rest, part, taken, rfl, hsuffix⟩ := suffix_of_mem_addName hd hmem
    exact .suffix hkind hsuffix
  case h_16 hkind =>
    split at hadd
    · cases hadd
      exact hnone rfl
    next hglued =>
      split at hadd
      next next rest =>
        split at hadd
        next hnext =>
          cases hadd
          rw [List.take_succ_cons, List.mem_cons] at hmem
          have hne : d ≠ next := by
            rintro rfl
            cases hnext.symm.trans hd
          obtain ⟨rest, part, taken, rfl, hsuffix⟩ :=
            suffix_of_mem_addName hd (hmem.resolve_left hne)
          exact .localSuffix hkind (by simpa using hglued) hnext hsuffix
        next => cases hadd
      next => cases hadd
  all_goals
    cases hadd
    exact hnone rfl

theorem TakesDot.ne_string (h : TakesDot cut read n atHead front.getLast? d t back)
    (hd : d.kind = .dot) (horder : Scan.InOrder (front ++ t :: back))
    (hp : p ∈ front ++ t :: back) (hne : p ≠ d) (hglued : p.behind = d.start) :
    p.kind ≠ .string := by
  cases h with
  | @suffix t rest part taken ht =>
    rw [List.append_cons] at horder hp
    have hlast := horder.getLast?_eq hp hne hglued
    rw [List.getLast?_concat] at hlast
    cases hlast
    simp [ht]
  | @localSuffix t u rest part taken ht _ hu =>
    have hsplit : front ++ t :: u :: d :: rest = (front ++ [t] ++ [u]) ++ d :: rest := by simp
    rw [hsplit] at horder hp
    have hlast := horder.getLast?_eq hp hne hglued
    rw [List.getLast?_concat] at hlast
    cases hlast
    simp [hu]
  | @point t fraction rest ht =>
    rw [List.append_cons] at horder hp
    have hlast := horder.getLast?_eq hp hne hglued
    rw [List.getLast?_concat] at hlast
    cases hlast
    simp [ht]
  | @access _ hadd =>
    intro hstring
    have hlast := horder.getLast?_eq hp hne hglued
    rw [hlast] at hadd
    have halone : StandsAlone cut read n atHead (some p) t back :=
      standsAlone_of_not_glued hd (not_glued_of_string hstring hglued)
    cases halone with
    | localName _ hname =>
      have htaken := congrArg Prod.snd (Except.ok.inj (hname.symm.trans hadd))
      cases htaken
    | stray hstray => cases hstray.symm.trans hadd

/-! ## Where the run comes to a dot -/

/-- A dot right behind a value is taken in by the value or is an operator, wherever the run over the
tokens comes to it, and is never at fault, unless the value is a string: then it starts a local name
or is at fault. The run comes to the dot if the line is nested. -/
theorem dot_behind_value (hscan : scan line = .ok tokens) (hp : p ∈ tokens) (hd : d ∈ tokens)
    (hends : p.kind.endsValue = true) (hdot : d.kind = .dot) (hglued : p.behind = d.start) :
    (∀ front n atHead t back,
      Reaches (cutLine line) read tokens front n atHead (t :: back) →
      ComesTo (cutLine line) read n atHead front.getLast? d t back →
      (p.kind ≠ .string → TakesDot (cutLine line) read n atHead front.getLast? d t back) ∧
      (p.kind = .string →
        t = d ∧ StandsAlone (cutLine line) read n atHead front.getLast? d back)) ∧
    (p.kind ≠ .string → ∀ symbol,
      Scope.ofTokens (cutLine line) read tokens ≠ .error (.unknownOperator symbol d.start)) ∧
    ∀ root, Scope.ofTokens (cutLine line) read tokens = .ok root →
      ∃ front n atHead t back, Reaches (cutLine line) read tokens front n atHead (t :: back) ∧
        ComesTo (cutLine line) read n atHead front.getLast? d t back := by
  have horder : Scan.InOrder tokens := Scan.scan_inOrder hscan
  have hne : p ≠ d := by
    rintro rfl
    rw [hdot] at hends
    cases hends
  -- the token before the dot is the value behind which it stands
  have hlast : ∀ front back, tokens = front ++ d :: back → front.getLast? = some p := by
    rintro front back rfl
    exact horder.getLast?_eq hp hne hglued
  refine ⟨?_, ?_, ?_⟩
  · intro front n atHead t back hreaches hcomes
    obtain rfl := hreaches.append_eq
    refine ⟨fun hstring => ?_, fun hstring => ?_⟩
    · rcases hcomes with rfl | ⟨n', taken, hadd, hmem⟩
      · refine .access (addToken_of_glued hdot ?_)
        rw [hlast front back rfl]
        exact glued_of_ne_string hstring hends hglued
      · exact takesDot_of_mem hadd hdot hmem
    · rcases hcomes with rfl | ⟨n', taken, hadd, hmem⟩
      · refine ⟨rfl, standsAlone_of_not_glued hdot ?_⟩
        rw [hlast front back rfl]
        exact not_glued_of_string hstring hglued
      · exact absurd hstring
          ((takesDot_of_mem hadd hdot hmem).ne_string hdot horder hp hne hglued)
  · intro hstring symbol herror
    rcases Scope.exists_of_ofTokens_error herror with ⟨bracket, offset, hfault⟩ |
      ⟨front, n, atHead, t, back, hreaches, hadd⟩
    · cases hfault
    · obtain rfl := hreaches.append_eq
      obtain ⟨front', back', hsplit⟩ := List.append_of_mem hd
      have hstart : t.start = d.start := (Option.some.inj (offset?_of_addToken hadd)).symm
      obtain ⟨rfl, rfl, rfl⟩ := horder.split_unique hsplit hstart
      have hvalue : isGlued front.getLast? t = true := by
        rw [hlast front back rfl]
        exact glued_of_ne_string hstring hends hglued
      cases hadd.symm.trans (addToken_of_glued hdot hvalue)
  · intro root hroot
    obtain ⟨n, hn, -⟩ := Scope.eq_of_ofTokens hroot
    exact Reaches.start.exists_comesTo hn hd

/-- The first dot of a chain belongs to the name before it, the second one is an operator. -/
theorem dot_behind_value_chain :
    TakesDot (cutLine " a.b.c".toList) readNumeral {} true none ⟨.dot, 2, 3⟩ ⟨.name, 1, 2⟩
        [⟨.dot, 2, 3⟩, ⟨.name, 3, 4⟩, ⟨.dot, 4, 5⟩, ⟨.name, 5, 6⟩, ⟨.blank, 6, 6⟩] ∧
      TakesDot (cutLine " a.b.c".toList) readNumeral
        ⟨[⟨.operator, 1, some (.binary .field (.text "a") (.text "b")), []⟩], 1, []⟩ false
        (some ⟨.name, 3, 4⟩) ⟨.dot, 4, 5⟩ ⟨.dot, 4, 5⟩ [⟨.name, 5, 6⟩, ⟨.blank, 6, 6⟩] := by
  have hscan : scan " a.b.c".toList = .ok [⟨.name, 1, 2⟩, ⟨.dot, 2, 3⟩, ⟨.name, 3, 4⟩,
      ⟨.dot, 4, 5⟩, ⟨.name, 5, 6⟩, ⟨.blank, 6, 6⟩] := by cbv
  have hadd : addToken (cutLine " a.b.c".toList) readNumeral {} true none ⟨.name, 1, 2⟩
      [⟨.dot, 2, 3⟩, ⟨.name, 3, 4⟩, ⟨.dot, 4, 5⟩, ⟨.name, 5, 6⟩, ⟨.blank, 6, 6⟩] =
        .ok (⟨[⟨.operator, 1, some (.binary .field (.text "a") (.text "b")), []⟩], 1, []⟩, 2) := by
    cbv
  constructor
  · exact ((dot_behind_value (p := ⟨.name, 1, 2⟩) hscan (by simp) (by simp) rfl rfl rfl).1 _ _ _ _ _
      .start (.inr ⟨_, _, hadd, by simp⟩)).1 (by simp)
  · exact ((dot_behind_value (p := ⟨.name, 3, 4⟩) hscan (by simp) (by simp) rfl rfl rfl).1 _ _ _ _ _
      (Reaches.start.step hadd) (.inl rfl)).1 (by simp)

/-- The dot behind a string starts a local name, or is at fault. -/
theorem dot_behind_string :
    scan " x = \"s\".b".toList = .ok [⟨.name, 1, 2⟩, ⟨.blank, 2, 3⟩, ⟨.operator, 3, 4⟩,
        ⟨.blank, 4, 5⟩, ⟨.string, 6, 7⟩, ⟨.dot, 8, 9⟩, ⟨.name, 9, 10⟩, ⟨.blank, 10, 10⟩] ∧
      Scope.ofTokens (cutLine " x = \"s\".b".toList) readNumeral [⟨.name, 1, 2⟩, ⟨.blank, 2, 3⟩,
          ⟨.operator, 3, 4⟩, ⟨.blank, 4, 5⟩, ⟨.string, 6, 7⟩, ⟨.dot, 8, 9⟩, ⟨.name, 9, 10⟩,
          ⟨.blank, 10, 10⟩] =
        .ok ⟨.plain, 0, none, [⟨.text, 1, some (.text "x"), []⟩,
          ⟨.operator, 1, some (.bare .set), []⟩, ⟨.string, 1, some (.string "s"), []⟩,
          ⟨.text, 1, some (.text ".b"), []⟩]⟩ ∧
      Scope.ofTokens (cutLine " \"s\".".toList) readNumeral
          [⟨.string, 2, 3⟩, ⟨.dot, 4, 5⟩, ⟨.blank, 5, 5⟩] =
        .error (.unknownOperator "." 4) := by
  refine ⟨?_, ?_, ?_⟩ <;> cbv

end Nest

end MacroAsm
