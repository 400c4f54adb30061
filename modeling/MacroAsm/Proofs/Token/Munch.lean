import MacroAsm.Number.Literal
import MacroAsm.Proofs.Scope.Reach
import MacroAsm.Proofs.Token.Cover

/-!
# The operators of a scanned line

The scanner takes the longest operator that a text starts with (`Operator.IsLongest`). So it splits
every run of operator characters from left to right into longest operators (`Scan.Munch`), and each
of them is known where the line is nested (`scan_munch`).

The run over the lexemes of a line comes to every operator character that no other operator
character stands before, unless the character is part of a string (`Scans.exists_at`). From there
it takes the operators one by one up to the end of the run of operator characters (`exists_munch`).
-/

namespace MacroAsm

open Text (byteSize)

/-- The text is that of an operator, and no longer operator goes on in the text after it. -/
structure Operator.IsLongest (text after : List Char) : Prop where
  known : Operator.ofSymbol? (String.ofList text) ≠ none
  longest : ∀ more, more ≠ [] → more <+: after →
    Operator.ofSymbol? (String.ofList (text ++ more)) = none

namespace Scan

variable {offset next stop : Nat} {kind : TokenKind} {t : Token} {c : Char} {o : Operator}
  {line before cs rest text after run mid : List Char} {done last tokens : List Token}

/-- The tokens of a run of operator characters that starts at a byte offset: first that of the
longest operator which the run starts with, then those of the rest. -/
inductive Munch : Nat → List Char → List Token → Prop
  | nil {offset : Nat} : Munch offset [] []
  | cons {offset : Nat} {text rest : List Char} {operators : List Token}
      (htext : Operator.IsLongest text rest)
      (hrest : Munch (offset + byteSize text) rest operators) :
      Munch offset (text ++ rest) (⟨.operator, offset, offset + byteSize text⟩ :: operators)

/-! ## The longest operator -/

theorem length_le_operatorLength (h : Operator.ofSymbol? (String.ofList text) = some o)
    (hstart : text <+: cs) : text.length ≤ operatorLength cs := by
  obtain ⟨rest, rfl⟩ := hstart
  rw [← String.toList_ofList (l := text)]
  generalize String.ofList text = symbol at h
  unfold Operator.ofSymbol? at h
  split at h
  case h_22 => cases h
  case h_20 | h_21 => exact Nat.le_refl 3
  case h_14 | h_15 | h_16 | h_17 => exact Nat.le_refl 2
  case h_18 | h_19 =>
    simp only [String.reduceToList, List.cons_append, List.nil_append]
    unfold operatorLength
    split <;> grind
  all_goals exact operatorLength_pos (by decide)

theorem ofSymbol?_take_operatorLength (hc : c ∈ operatorChars) :
    Operator.ofSymbol? (String.ofList ((c :: cs).take (operatorLength (c :: cs)))) ≠ none := by
  unfold operatorLength
  split
  case h_9 c' _ _ _ _ _ _ _ _ _ heq =>
    cases heq
    have hall : operatorChars.all fun c =>
        (Operator.ofSymbol? (String.ofList [c])).isSome := by decide
    have hsome := List.all_eq_true.mp hall c hc
    simpa [hc, Option.isSome_iff_ne_none] using hsome
  case h_10 heq => cases heq
  all_goals
    rename_i heq
    cases heq
    simp only [List.take_succ_cons, List.take_zero]
    decide

theorem isLongest_take (hc : c ∈ operatorChars) :
    Operator.IsLongest ((c :: cs).take (operatorLength (c :: cs)))
      ((c :: cs).drop (operatorLength (c :: cs))) where
  known := ofSymbol?_take_operatorLength hc
  longest more hmore hgoes := by
    by_contra hknown
    obtain ⟨o, ho⟩ := Option.ne_none_iff_exists'.mp hknown
    have hstart : (c :: cs).take (operatorLength (c :: cs)) ++ more <+: c :: cs := by
      obtain ⟨rest, hrest⟩ := hgoes
      exact ⟨rest, by rw [List.append_assoc, hrest, List.take_append_drop]⟩
    have hle := length_le_operatorLength ho hstart
    have hpos := List.length_pos_iff.mpr hmore
    rw [List.length_append, (take_operatorLength (c :: cs)).1] at hle
    omega

theorem lexes_of_mem_operatorChars (offset : Nat) (run : List Char) (hc : c ∈ operatorChars)
    (hafter : ∀ c ∈ after.head?, c ∉ operatorChars) :
    ∃ text rest, c :: run = text ++ rest ∧ text ≠ [] ∧ Operator.IsLongest text rest ∧
      Lexes offset (c :: run ++ after) ⟨.operator, offset, offset + byteSize text⟩
        (offset + byteSize text) (rest ++ after) := by
  obtain ⟨htake, hchars⟩ := take_operatorLength (c :: run)
  have hpos : 0 < operatorLength (c :: run) := operatorLength_pos hc
  have hlongest : Operator.IsLongest ((c :: run).take (operatorLength (c :: run)))
      ((c :: run).drop (operatorLength (c :: run))) := isLongest_take hc
  have hlength : operatorLength (c :: run ++ after) = operatorLength (c :: run) :=
    operatorLength_append hafter
  generalize operatorLength (c :: run) = length at *
  obtain ⟨n, rfl⟩ := Nat.exists_eq_succ_of_ne_zero (Nat.pos_iff_ne_zero.mp hpos)
  refine ⟨_, _, (List.take_append_drop (n + 1) (c :: run)).symm, by simp, hlongest, ?_⟩
  have hlexes : Lexes offset (c :: (run ++ after)) _ _ _ := .operator hc hlength hpos
  have hle : n ≤ run.length := by
    rw [List.length_take, List.length_cons] at htake
    omega
  rw [Nat.succ_sub_one, List.drop_append_of_le_length hle] at hlexes
  rw [byteSize_of_operatorChars hchars, htake]
  exact hlexes

/-! ## Runs of operator characters -/

theorem Munch.kind_eq (h : Munch offset run tokens) : ∀ t ∈ tokens, t.kind = .operator := by
  induction h with
  | nil => simp
  | cons _ _ ih => exact List.forall_mem_cons.mpr ⟨rfl, ih⟩

/-- A run of operator characters is scanned by leftmost longest match. -/
theorem exists_munch (offset : Nat) (hrun : ∀ c ∈ run, c ∈ operatorChars)
    (hafter : ∀ c ∈ after.head?, c ∉ operatorChars) :
    ∃ operators, Munch offset run operators ∧ ∀ done,
      Scans offset done (run ++ after) (offset + byteSize run) (operators.reverse ++ done)
        after := by
  induction hlength : run.length using Nat.strong_induction_on generalizing offset run with
  | _ k ih =>
    cases run with
    | nil => exact ⟨[], .nil, fun done => .refl⟩
    | cons c run =>
      obtain ⟨text, rest, hsplit, hne, hlongest, hlexes⟩ :=
        lexes_of_mem_operatorChars offset run (hrun c (List.mem_cons_self ..)) hafter
      rw [hsplit] at hrun hlength hlexes ⊢
      have hlt : rest.length < k := by
        have hpos := List.length_pos_iff.mpr hne
        rw [List.length_append] at hlength
        omega
      obtain ⟨operators, hmunch, hscans⟩ := ih _ hlt (offset + byteSize text)
        (fun d hd => hrun d (List.mem_append_right _ hd)) rfl
      refine ⟨_ :: operators, .cons hlongest hmunch, fun done => ?_⟩
      refine .token hlexes ⟨by simp, by simp⟩ ?_
      rw [Text.byteSize_append, ← Nat.add_assoc, List.reverse_cons, List.append_assoc]
      exact hscans _

/-! ## Where the run over the lexemes comes -/

theorem append_eq_append_cons {α : Type} {xs ys zs ws : List α} {x : α}
    (h : xs ++ ys = zs ++ x :: ws) :
    (∃ mid, zs = xs ++ mid ∧ ys = mid ++ x :: ws) ∨ ∃ mid, xs = zs ++ x :: mid := by
  rcases List.append_eq_append_iff.mp h with hbehind | ⟨mid, hmid, hws⟩
  · exact .inl hbehind
  · cases mid with
    | nil => exact .inl ⟨[], by simpa using hmid.symm, hws.symm⟩
    | cons y mid =>
      cases hws
      exact .inr ⟨mid, hmid⟩

theorem kind_of_mem_operatorChars (h : kind.Spells before text after) (hc : c ∈ text)
    (hoperator : c ∈ operatorChars) : kind = .operator ∨ kind = .string := by
  have hmark : c ∈ marks := List.mem_append_left _ hoperator
  have hblank : isBlank c = false := (classes_of_mem_operatorChars hoperator).1
  cases h with
  | name _ hcs | number _ hcs => exact absurd hmark (hcs c hc).2.2
  | operator => exact .inl rfl
  | string => exact .inr rfl
  | blank _ hc' =>
    rw [List.mem_singleton.mp hc, hc'] at hblank
    cases hblank
  | atEnd => cases hc
  | _ => simp_all [operatorChars]

theorem mem_operatorChars_of_spells (h : TokenKind.operator.Spells before text after) :
    ∀ c ∈ text, c ∈ operatorChars := by
  cases h with
  | operator _ htext => exact htext
  | blank hkind => simp at hkind
  | atEnd hkind => simp at hkind

/-- An operator character in a lexeme starts it, or stands behind another one, or is part of a
string. -/
theorem Lexes.Parts.eq_nil_or_inside {quotes inner : List Char}
    (h : Parts offset cs t next rest quotes text)
    (hchars : quotes ++ text ++ quotes = mid ++ c :: inner) (hc : c ∈ operatorChars)
    (hmid : ∀ d ∈ mid.getLast?, d ∉ operatorChars) :
    mid = [] ∨ t.kind = .string ∧ t.start ≤ offset + byteSize mid ∧
      offset + byteSize mid < t.stop := by
  have hpos := c.utf8Size_pos
  have hstart := h.start
  have hstop := h.stop
  rcases h.quotes with rfl | ⟨hkind, quote, hquote, rfl⟩
  · rw [List.append_nil, List.nil_append] at hchars
    subst hchars
    have hspells := h.spells []
    rcases kind_of_mem_operatorChars hspells (by simp) hc with hkind | hkind
    · rw [hkind] at hspells
      have hall := mem_operatorChars_of_spells hspells
      rcases List.eq_nil_or_concat mid with rfl | ⟨mid, d, rfl⟩
      · exact .inl rfl
      · exact absurd (hall d (by simp)) (hmid d (by simp))
    · refine .inr ⟨hkind, by simp [hstart], ?_⟩
      rw [hstop, hstart]
      simp
      omega
  · cases mid with
    | nil => exact .inl rfl
    | cons d mid =>
      obtain ⟨rfl, htext⟩ : quote = d ∧ text ++ [quote] = mid ++ c :: inner := by simpa using hchars
      rcases List.eq_nil_or_concat inner with rfl | ⟨inner, e, rfl⟩
      · -- the character would be the closing quote
        obtain rfl : quote = c := by simpa using (List.append_inj' htext rfl).2
        rw [(classes_of_mem_operatorChars hc).2.1] at hquote
        cases hquote
      · have heq : text ++ [quote] = (mid ++ c :: inner) ++ [e] := by simpa using htext
        obtain rfl := (List.append_inj' heq rfl).1
        refine .inr ⟨hkind, ?_, ?_⟩
        · rw [hstart]
          simp
        · rw [hstop, hstart]
          simp
          omega

/-- The run over the lexemes of a text comes to an operator character that no other one stands
before, unless it is part of a string. -/
theorem Scans.exists_at (h : Scans offset done cs stop last rest) (hrest : rest = [])
    (hcs : cs = mid ++ c :: after) (hc : c ∈ operatorChars)
    (hmid : ∀ d ∈ mid.getLast?, d ∉ operatorChars) :
    (∃ done', Scans offset done cs (offset + byteSize mid) done' (c :: after)) ∨
      ∃ t ∈ last, t.kind = .string ∧ t.start ≤ offset + byteSize mid ∧
        offset + byteSize mid < t.stop := by
  induction h generalizing mid with
  | refl =>
    rw [hrest] at hcs
    simp at hcs
  | @blank offset done b cs stop last rest hb _ ih =>
    cases mid with
    | nil =>
      cases hcs
      rw [(classes_of_mem_operatorChars hc).1] at hb
      cases hb
    | cons b' mid =>
      cases hcs
      have hmid' : ∀ d ∈ mid.getLast?, d ∉ operatorChars := fun d hd =>
        hmid d (List.mem_getLast?_cons hd)
      rw [Text.byteSize_cons, ← Nat.add_assoc]
      rcases ih hrest rfl hmid' with ⟨done', hscans⟩ | hstring
      · exact .inl ⟨done', .blank hb hscans⟩
      · exact .inr hstring
  | @token offset done cs t next mid' stop last rest hlexes hallows hscans ih =>
    obtain ⟨quotes, text, hparts⟩ := hlexes.exists_parts
    have hnext : next = offset + byteSize (quotes ++ text ++ quotes) := by
      rw [hparts.next, hparts.stop, hparts.start]
      simp [Nat.add_assoc]
    rcases append_eq_append_cons (hparts.chars.symm.trans hcs) with
      ⟨mid', rfl, hrest'⟩ | ⟨inner, hinner⟩
    · have hmid' : ∀ d ∈ mid'.getLast?, d ∉ operatorChars := fun d hd =>
        hmid d (List.mem_getLast?_append_of_mem_getLast? hd)
      rw [Text.byteSize_append, ← Nat.add_assoc, ← hnext]
      rcases ih hrest hrest' hmid' with ⟨done', hscans'⟩ | hstring
      · exact .inl ⟨done', .token hlexes hallows hscans'⟩
      · exact .inr hstring
    · rcases hparts.eq_nil_or_inside hinner hc hmid with rfl | hstring
      · rw [List.nil_append] at hcs
        exact .inl ⟨done, hcs ▸ .refl⟩
      · obtain ⟨more, rfl, -⟩ := hscans.exists_more
        exact .inr ⟨t, by simp, hstring⟩

/-! ## Lines -/

theorem Occurs.isLongest (h : Occurs line t) (hkind : t.kind = .operator) :
    ∃ before text after, line = before ++ text ++ after ∧ t.start = byteSize before ∧
      t.stop = byteSize (before ++ text) ∧ Operator.IsLongest text after := by
  cases h with
  | @lexeme before _ _ _ _ hline hlexes =>
    cases hlexes with
    | @operator c cs length hc hlength hpos =>
      obtain ⟨htake, hchars⟩ := take_operatorLength (c :: cs)
      refine ⟨before, (c :: cs).take (operatorLength (c :: cs)), _, ?_, rfl, ?_,
        isLongest_take hc⟩
      · rw [List.append_assoc, List.take_append_drop, hline]
      · rw [Text.byteSize_append, byteSize_of_operatorChars hchars, htake, hlength]
    | string | cast | label => cases hkind
    | mark hmark =>
      unfold markKind? at hmark
      split at hmark <;> cases hmark <;> cases hkind
    | run hcs => rcases hcs.kind_eq with rfl | rfl <;> cases hkind
  | blank _ _ hblank | atEnd hblank =>
    rw [hkind] at hblank
    simp at hblank

theorem exists_split_of_scan {more : List Token} (h : scan line = .ok tokens)
    (hfront : Scans 0 [] line offset done cs)
    (hmore : Scans offset done cs next (more ++ done) rest)
    (hkind : ∀ t ∈ more, t.kind ≠ .impliedLabel) :
    ∃ front back, tokens = front ++ more.reverse ++ back ∧ (∀ t ∈ front, t.stop ≤ offset) ∧
      ∀ t ∈ back, next ≤ t.start := by
  obtain ⟨stop, last, hrest, rfl⟩ := (hfront.trans hmore).exists_rest h
  obtain ⟨later, rfl, hlater⟩ := hrest.exists_more
  obtain ⟨lead, hblank, hlead⟩ := exists_lead stop stop (later ++ (more ++ done))
  rw [settleLabel_eq_map]
  generalize isLabelled _ = labelled
  refine ⟨done.reverse.map (settle labelled), (lead ++ later).reverse.map (settle labelled),
    ?_, ?_, ?_⟩
  · rw [hblank]
    simp [map_settle labelled hkind]
  · have hend : EndBy offset done := hfront.endBy ⟨by simp, .nil⟩
    rw [List.forall_mem_map]
    intro t ht
    rw [settle_stop]
    exact Nat.le_trans t.stop_le_behind (hend.covers t (List.mem_reverse.mp ht)).2
  · rw [List.forall_mem_map]
    intro t ht
    rw [settle_start]
    rcases List.mem_append.mp (List.mem_reverse.mp ht) with ht | ht
    · exact hlead t ht ▸ hrest.le
    · exact hlater t ht

/-- A run of operator characters in a line, with what stands before and after it: no other operator
character does, and the run is not in a string. -/
structure OperatorRun (line : List Char) (tokens : List Token) (before run after : List Char) :
    Prop where
  line : line = before ++ run ++ after
  ne_nil : run ≠ []
  chars : ∀ c ∈ run, c ∈ operatorChars
  none_before : ∀ c ∈ before.getLast?, c ∉ operatorChars
  none_after : ∀ c ∈ after.head?, c ∉ operatorChars
  outside : ∀ t ∈ tokens, t.kind = .string →
    byteSize before < t.start ∨ t.stop ≤ byteSize before

/-- A run of operator characters is scanned by leftmost longest match. -/
theorem OperatorRun.exists_munch (hrun : OperatorRun line tokens before run after)
    (h : scan line = .ok tokens) :
    ∃ front operators back, tokens = front ++ operators ++ back ∧
      Munch (byteSize before) run operators ∧ (∀ t ∈ front, t.stop ≤ byteSize before) ∧
      ∀ t ∈ back, byteSize (before ++ run) ≤ t.start := by
  obtain ⟨hline, hne, hchars, hbefore, hafter, houtside⟩ := hrun
  obtain ⟨c, run, rfl⟩ := List.exists_cons_of_ne_nil hne
  obtain ⟨stop, last, hscans, htokens⟩ := Scans.refl.exists_rest h
  have hsplit : line = before ++ c :: (run ++ after) := by simp [hline]
  rcases hscans.exists_at rfl hsplit (hchars c (List.mem_cons_self ..)) hbefore with
    ⟨done, hat⟩ | ⟨t, ht, hkind, hstart, hstop⟩
  · rw [Nat.zero_add] at hat
    obtain ⟨operators, hmunch, hoperators⟩ :=
      Scan.exists_munch (byteSize before) hchars hafter
    have hkind : ∀ t ∈ operators.reverse, t.kind ≠ .impliedLabel := fun t ht => by
      simp [hmunch.kind_eq t (List.mem_reverse.mp ht)]
    obtain ⟨front, back, htokens, hfront, hback⟩ :=
      exists_split_of_scan h hat (hoperators done) hkind
    rw [List.reverse_reverse] at htokens
    rw [Text.byteSize_append]
    exact ⟨front, operators, back, htokens, hmunch, hfront, hback⟩
  · -- the run starts in a string
    have hmem : t ∈ tokens := by
      rw [htokens]
      refine mem_settleLabel_of_mem ?_ (by simp [hkind])
      exact List.mem_reverse.mpr (mem_addBlank_of_mem ht)
    have hplace := houtside t hmem hkind
    omega

/-- Every operator of a line is a known one, and no longer operator goes on in the text after it. So
every run of operator characters outside of strings is split by leftmost longest match, and nesting
the line fails for an unknown operator only at a dot. -/
theorem scan_munch (h : scan line = .ok tokens) :
    (∀ t ∈ tokens, t.kind = .operator →
      ∃ before text after, line = before ++ text ++ after ∧ t.start = byteSize before ∧
        t.stop = byteSize (before ++ text) ∧ Operator.IsLongest text after) ∧
      (∀ before run after, OperatorRun line tokens before run after →
        ∃ front operators back, tokens = front ++ operators ++ back ∧
          Munch (byteSize before) run operators ∧ (∀ t ∈ front, t.stop ≤ byteSize before) ∧
          ∀ t ∈ back, byteSize (before ++ run) ≤ t.start) ∧
      ∀ read symbol offset,
        Scope.ofTokens (cutLine line) read tokens = .error (.unknownOperator symbol offset) →
          symbol = "." := by
  have hlongest := fun t ht => ((occurs_of_scan h).1 t ht).isLongest
  refine ⟨hlongest, fun _ _ _ hrun => hrun.exists_munch h, fun read symbol offset herror => ?_⟩
  rcases Scope.exists_of_ofTokens_error herror with ⟨bracket, offset, hfault⟩ |
    ⟨front, n, atHead, t, back, hreaches, hadd⟩
  · cases hfault
  · cases Nest.tokenFault_of_addToken hadd with
    | strayDot => rfl
    | unknownSymbol hkind hnone =>
      have ht : t ∈ tokens := hreaches.append_eq ▸ by simp
      obtain ⟨before, text, after, rfl, hstart, hstop, hknown, -⟩ := hlongest t ht hkind
      rw [hstart, hstop, Text.byteSize_append, cutLine, Text.slice_append] at hnone
      exact absurd hnone hknown

/-- Operators without blanks between them, and the characters of one in a string. -/
theorem scan_munch_glued :
    scan " a<<=>=\"<<\"~".toList = .ok [⟨.name, 1, 2⟩, ⟨.operator, 2, 4⟩, ⟨.operator, 4, 5⟩,
        ⟨.operator, 5, 7⟩, ⟨.string, 8, 10⟩, ⟨.operator, 11, 12⟩, ⟨.blank, 12, 12⟩] ∧
      (∃ front operators back, [⟨.name, 1, 2⟩, ⟨.operator, 2, 4⟩, ⟨.operator, 4, 5⟩,
          ⟨.operator, 5, 7⟩, ⟨.string, 8, 10⟩, ⟨.operator, 11, 12⟩, ⟨.blank, 12, 12⟩] =
            front ++ operators ++ back ∧
        Munch 2 ['<', '<', '=', '>', '='] operators ∧ (∀ t ∈ front, t.stop ≤ 2) ∧
        ∀ t ∈ back, 7 ≤ t.start) ∧
      ∀ symbol offset, Scope.ofTokens (cutLine " a<<=>=\"<<\"~".toList) readNumeral
        [⟨.name, 1, 2⟩, ⟨.operator, 2, 4⟩, ⟨.operator, 4, 5⟩, ⟨.operator, 5, 7⟩,
          ⟨.string, 8, 10⟩, ⟨.operator, 11, 12⟩, ⟨.blank, 12, 12⟩] =
            .error (.unknownOperator symbol offset) → symbol = "." := by
  have hscan : scan " a<<=>=\"<<\"~".toList = .ok [⟨.name, 1, 2⟩, ⟨.operator, 2, 4⟩,
      ⟨.operator, 4, 5⟩, ⟨.operator, 5, 7⟩, ⟨.string, 8, 10⟩, ⟨.operator, 11, 12⟩,
      ⟨.blank, 12, 12⟩] := by cbv
  obtain ⟨-, hmunch, hnest⟩ := scan_munch hscan
  refine ⟨hscan, ?_, hnest readNumeral⟩
  exact hmunch [' ', 'a'] ['<', '<', '=', '>', '='] ['"', '<', '<', '"', '~']
    ⟨rfl, by simp, by simp [operatorChars], by simp [operatorChars], by simp [operatorChars],
      by decide⟩

end Scan

end MacroAsm
