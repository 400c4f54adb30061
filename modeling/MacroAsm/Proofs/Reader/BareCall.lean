import Mathlib
import MacroAsm.Proofs.Scope.BareCall
import MacroAsm.Proofs.Token.Context
import MacroAsm.Reader

/-!
# Bare calls are calls

`Reader.line_bareCall`: a line with a bare call is read as the same line with parentheses around the
arguments, be it to a node or to a fault, if the brackets in the arguments match.

Proof. Both lines are scanned to the same tokens for the name and for the arguments, up to blanks
around the arguments (`Scan.scan_parenthesized`). These are nested alike (`Nest.ofTokens_bareCall`).
-/

namespace MacroAsm

open Lexeme Nest

/-! ## The name of a call -/

theorem kind_of_mem_callee {s : String} {size : Option String} {x : Lexeme} (hs : IsName s)
    (hsize : ∀ part ∈ size, part = "" ∨ IsPart part) (hx : x ∈ ofName s ++ ofSize size) :
    x.kind = .dot ∨ x.kind = .name ∨ x.kind = .number := by
  rcases List.mem_append.mp hx with hx | hx
  · obtain ⟨run, -, ⟨-, heq⟩ | ⟨-, heq⟩⟩ := hs.ofName_eq
    · rw [heq, List.mem_singleton] at hx
      exact .inr (.inl (by rw [hx]))
    · rw [heq, List.mem_cons, List.mem_singleton] at hx
      rcases hx with rfl | rfl
      · exact .inl rfl
      · exact .inr (.inl rfl)
  · cases size with
    | none => cases hx
    | some part =>
      rcases List.mem_cons.mp hx with rfl | hx
      · exact .inl rfl
      · rcases hsize part rfl with rfl | hpart
        · cases hx
        · obtain ⟨kind, hrun, heq⟩ := hpart.ofPart_eq
          rw [heq, List.mem_singleton] at hx
          rw [hx]
          exact .inr hrun.kind_eq

theorem callee_ne_nil {s : String} {size : Option String} (hs : IsName s) :
    ofName s ++ ofSize size ≠ [] := by
  obtain ⟨run, -, ⟨-, heq⟩ | ⟨-, heq⟩⟩ := hs.ofName_eq <;> simp [heq]

theorem significant_callee {s : String} {size : Option String} {x : Lexeme} (hs : IsName s)
    (hsize : ∀ part ∈ size, part = "" ∨ IsPart part) (hx : x ∈ ofName s ++ ofSize size) :
    x.kind.isSignificant = true := by
  rcases kind_of_mem_callee hs hsize hx with h | h | h <;> rw [h] <;> rfl

theorem plain_callee {s : String} {size : Option String} {t : Token} {offset : Nat} (hs : IsName s)
    (hsize : ∀ part ∈ size, part = "" ∨ IsPart part)
    (ht : t ∈ place offset (ofName s ++ ofSize size)) : IsPlain t := by
  obtain ⟨x, hx, hkind⟩ := mem_place ht
  rcases kind_of_mem_callee hs hsize hx with h | h | h <;> simp [IsPlain, hkind, h]

theorem allChars_callee (s : String) (size : Option String) :
    allChars (ofName s ++ ofSize size) = s.toList ++ (Node.printSize size).toList := by
  rw [allChars_append, allChars_ofName, Node.allChars_ofSize]

/-! ## Scanning -/

namespace Scan

open Text (byteSize)

variable {base tokens : List Token} {offset stop : Nat} {cs : List Char}

theorem alike_of_significant (hbase : ∃ t ∈ base.head?, t.isSignificant = true) :
    Alike (⟨.blank, offset, offset + 1⟩ :: base) (⟨.openParen, offset, offset + 1⟩ :: base) where
  significant := by
    obtain ⟨t, ht, hsignificant⟩ := hbase
    have hany : base.any Token.isSignificant = true :=
      List.any_eq_true.mpr ⟨t, List.mem_of_mem_head? ht, hsignificant⟩
    rw [List.any_cons, List.any_cons, hany, Bool.or_true, Bool.or_true]
  labelled := rfl

theorem scanFrom_parenthesized (hoffset : 0 < offset) (hstart : ∀ t ∈ base, 0 < t.start)
    (hbase : ∃ t ∈ base.head?, t.isSignificant = true) (hstop : stop = offset + 1 + byteSize cs)
    (hscan : scanFrom offset base (' ' :: cs) = .ok tokens) :
    ∃ body lead back back' : List Token,
      tokens = back ++ (body ++ ⟨.blank, offset, offset + 1⟩ :: base) ∧
      scanFrom offset base ('(' :: (cs ++ [')'])) =
        .ok (back' ++ ⟨.closeParen, stop, stop + 1⟩ ::
          (body ++ (lead ++ ⟨.openParen, offset, offset + 1⟩ :: base))) ∧
      (∀ t ∈ body, Lies t (offset + 1) stop) ∧
      ∀ t ∈ lead ++ (back ++ back'), t.kind = .blank := by
  have hends : Ends [')'] := ends_of_mark rfl
  have hhead : ∃ t ∈ base.head?, t.isSignificant = true ∧ 0 < t.start := by
    obtain ⟨t, ht, hsignificant⟩ := hbase
    exact ⟨t, ht, hsignificant, hstart t (List.mem_of_mem_head? ht)⟩
  have hopen : ∀ t ∈ (⟨.openParen, offset, offset + 1⟩ : Token) :: base, 0 < t.start :=
    List.forall_mem_cons.mpr ⟨hoffset, hstart⟩
  rw [scanFrom_blank hhead] at hscan
  obtain ⟨stop', last, hscans, rfl⟩ := exists_scans hscan
  obtain ⟨body, lead, rfl, hbody, hlead, hparen⟩ :=
    hscans.onto_blank rfl rfl (alike_of_significant hbase) hopen (Nat.succ_pos offset)
  obtain rfl : stop' = stop := hscans.size.trans hstop.symm
  have hpos : ∀ t ∈ body ++ ⟨.blank, offset, offset + 1⟩ :: base, 0 < t.start := by
    rw [List.forall_mem_append, List.forall_mem_cons]
    exact ⟨fun t ht => Nat.lt_of_lt_of_le (Nat.succ_pos offset) (hbody t ht).start, hoffset, hstart⟩
  obtain ⟨back, hback, hblank⟩ := exists_addBlank stop' stop' hpos
  have hopened : scanFrom offset base ('(' :: (cs ++ [')'])) =
      scanFrom (offset + 1) (⟨.openParen, offset, offset + 1⟩ :: base) (cs ++ [')']) :=
    scanFrom_mark rfl
  have hclosed : ∀ done, scanFrom stop' done [')'] =
      scanFrom (stop' + 1) (⟨.closeParen, stop', stop' + 1⟩ :: done) [] := fun done =>
    scanFrom_mark rfl
  have hpositive : 0 < stop' := Nat.lt_of_lt_of_le (Nat.succ_pos offset) hscans.le
  refine ⟨body, lead, back, [⟨.blank, stop' + 1, stop' + 1⟩], hback, ?_, hbody, ?_⟩
  · rw [hopened, (hparen.append hends).scanFrom_eq, List.nil_append, hclosed, scanFrom,
      addBlank_eq ⟨_, rfl, rfl, hpositive⟩]
    rfl
  · rw [List.forall_mem_append, List.forall_mem_append, List.forall_mem_singleton]
    exact ⟨hlead, fun t ht => (hblank t ht).1, rfl⟩

theorem head_place {xs : List Lexeme} (hne : xs ≠ [])
    (hkinds : ∀ x ∈ xs, x.kind.isSignificant = true) :
    ∃ t ∈ (place offset xs).reverse.head?, t.isSignificant = true := by
  have hplace : (place offset xs).reverse ≠ [] := by
    rw [← List.length_pos_iff, List.length_reverse, length_place]
    exact List.length_pos_iff.mpr hne
  obtain ⟨x, hx, hkind⟩ := mem_place (List.mem_reverse.mp (List.head_mem hplace))
  refine ⟨_, List.head?_eq_some_head hplace, ?_⟩
  rw [Token.isSignificant, hkind, hkinds x hx]

/-- After a name, a text is scanned to the same tokens in parentheses, up to blanks around it. -/
theorem scan_parenthesized {callee : List Lexeme}
    (hcallee : ∀ rest, EndsRun rest → Spaced none callee rest)
    (hkinds : ∀ x ∈ callee, x.kind.isSignificant = true) (hne : callee ≠ [])
    (hoffset : offset = 1 + byteSize (allChars callee)) (hstop : stop = offset + 1 + byteSize cs)
    (hscan : scan (' ' :: (allChars callee ++ ' ' :: cs)) = .ok tokens) :
    ∃ body lead back back' : List Token,
      tokens = place 1 callee ++ ⟨.blank, offset, offset + 1⟩ :: (body ++ back) ∧
      scan (' ' :: (allChars callee ++ '(' :: (cs ++ [')']))) =
        .ok (place 1 callee ++ ⟨.openParen, offset, offset + 1⟩ ::
          (lead ++ (body ++ ⟨.closeParen, stop, stop + 1⟩ :: back'))) ∧
      (∀ t ∈ body, Lies t (offset + 1) stop) ∧
      ∀ t ∈ lead ++ (back ++ back'), t.kind = .blank := by
  have hends : ∀ {c : Char} {rest}, continuesRun c = false →
      scanFrom 1 [] (allChars callee ++ c :: rest) =
        scanFrom offset (place 1 callee).reverse (c :: rest) := by
    intro c rest hc
    rw [(scanFrom_start_of_spaced (hcallee _ (endsRun_cons hc))).1, hoffset]
  have hopened : Opened (place 1 callee).reverse :=
    (scanFrom_start_of_spaced (hcallee [] (by rintro _ ⟨⟩))).2
  have hbase : ∃ t ∈ (place 1 callee).reverse.head?, t.isSignificant = true :=
    head_place hne hkinds
  rw [scan_cons_blank, hends (by decide)] at hscan
  rw [scan_cons_blank, hends (by decide)]
  cases hfrom : scanFrom offset (place 1 callee).reverse (' ' :: cs) with
  | error => rw [hfrom] at hscan; cases hscan
  | ok reversed =>
    rw [hfrom] at hscan
    cases hscan
    obtain ⟨body, lead, back, back', rfl, hscan, hlies, hblank⟩ :=
      scanFrom_parenthesized (by omega) hopened.start_pos hbase hstop hfrom
    refine ⟨body.reverse, lead.reverse, back.reverse, back'.reverse, ?_, ?_, ?_, ?_⟩
    · simp
    · rw [hscan]
      simp [Except.map]
    · simpa using hlies
    · simpa using hblank

end Scan

/-! ## Lines -/

namespace Reader

variable {r : Reader} {text text' : String} {tokens tokens' : List Token}

theorem line_congr (hscan : scan text.toList = .ok tokens)
    (hscan' : scan text'.toList = .ok tokens')
    (hroot : Scope.ofTokens (cutLine text.toList) r.numeral tokens =
      Scope.ofTokens (cutLine text'.toList) r.numeral tokens') : r.line text = r.line text' := by
  simp only [line, notedLine, hscan, hscan', hroot]
  cases Scope.ofTokens (cutLine text'.toList) r.numeral tokens' with
  | error => rfl
  | ok root =>
    dsimp only
    cases root.fold <;> rfl

/-- A bare call is read as the call with its arguments in parentheses: to the same node or the same
fault. The brackets of the line must match. -/
theorem line_bareCall {name args : String} {size : Option String} (hname : IsName name)
    (hsize : ∀ part ∈ size, part = "" ∨ IsPart part)
    (hscan : scan (" " ++ name ++ Node.printSize size ++ " " ++ args).toList = .ok tokens)
    (hnested : WellNested tokens)
    (hopens : OpensBareCall
      (cutLine (" " ++ name ++ Node.printSize size ++ " " ++ args).toList) r.numeral tokens) :
    r.line (" " ++ name ++ Node.printSize size ++ " " ++ args) =
      r.line (" " ++ name ++ Node.printSize size ++ "(" ++ args ++ ")") := by
  have hcallee := allChars_callee name size
  have hbare : (" " ++ name ++ Node.printSize size ++ " " ++ args).toList =
      ' ' :: (allChars (ofName name ++ ofSize size) ++ ' ' :: args.toList) := by
    simp [hcallee]
  have hparen : (" " ++ name ++ Node.printSize size ++ "(" ++ args ++ ")").toList =
      ' ' :: (allChars (ofName name ++ ofSize size) ++ '(' :: (args.toList ++ [')'])) := by
    simp [hcallee]
  -- the name and the arguments stand at the same offsets in both lines
  have hat : ∀ rest, StandsAt (' ' :: (allChars (ofName name ++ ofSize size) ++ rest)) 1
      (allChars (ofName name ++ ofSize size)) := fun rest => ⟨[' '], rest, by simp, rfl⟩
  have hargs : ∀ c rest, c.utf8Size = 1 →
      StandsAt (' ' :: (allChars (ofName name ++ ofSize size) ++ c :: (args.toList ++ rest)))
        (1 + Text.byteSize (allChars (ofName name ++ ofSize size)) + 1) args.toList := by
    intro c rest hc
    refine ⟨' ' :: (allChars (ofName name ++ ofSize size) ++ [c]), rest, by simp, ?_⟩
    have hspace : ' '.utf8Size = 1 := rfl
    simp [hc, hspace, Nat.add_assoc]
  have hcut := agreeOn_of_standsAt (hargs ' ' [] rfl) (hargs '(' [')'] rfl)
  rw [List.append_nil] at hcut
  rw [hbare] at hscan hopens
  obtain ⟨body, lead, back, back', rfl, hscan', hlies, hblank⟩ :=
    Scan.scan_parenthesized (fun _ => spaced_callee hname hsize)
      (fun _ => significant_callee hname hsize) (callee_ne_nil hname) rfl rfl hscan
  have hbody : WellNested body := by
    refine wellNested_arguments hnested (fun _ => plain_callee hname hsize) (by simp [IsPlain])
      fun t ht => ?_
    have hkind : t.kind = .blank := hblank t (by simp [ht])
    simp [IsPlain, hkind]
  rw [← hbare] at hscan
  rw [← hparen] at hscan'
  apply line_congr hscan hscan'
  rw [hbare, hparen]
  exact ofTokens_bareCall hname hsize (hat _) (hat _) hcut hopens hbody hlies rfl rfl rfl hblank

/-- The name has a suffix, and the arguments have a sign, a comma and parentheses. -/
theorem line_bareCall_sized :
    scan (" " ++ "a" ++ Node.printSize (some "w") ++ " " ++ "-b, (c)").toList =
        .ok [⟨.name, 1, 2⟩, ⟨.dot, 2, 3⟩, ⟨.name, 3, 4⟩, ⟨.blank, 4, 5⟩, ⟨.operator, 5, 6⟩,
          ⟨.name, 6, 7⟩, ⟨.comma, 7, 8⟩, ⟨.blank, 8, 9⟩, ⟨.openParen, 9, 10⟩, ⟨.name, 10, 11⟩,
          ⟨.closeParen, 11, 12⟩, ⟨.blank, 12, 12⟩] ∧
      ({} : Reader).line (" " ++ "a" ++ Node.printSize (some "w") ++ " " ++ "-b, (c)") =
        .ok (some (.call "a" (some "w") [.op .neg none (some (.text "b")), .text "c"])) ∧
      ({} : Reader).line (" " ++ "a" ++ Node.printSize (some "w") ++ " " ++ "-b, (c)") =
        ({} : Reader).line
          (" " ++ "a" ++ Node.printSize (some "w") ++ "(" ++ "-b, (c)" ++ ")") := by
  have hscan : scan (" " ++ "a" ++ Node.printSize (some "w") ++ " " ++ "-b, (c)").toList =
      .ok [⟨.name, 1, 2⟩, ⟨.dot, 2, 3⟩, ⟨.name, 3, 4⟩, ⟨.blank, 4, 5⟩, ⟨.operator, 5, 6⟩,
        ⟨.name, 6, 7⟩, ⟨.comma, 7, 8⟩, ⟨.blank, 8, 9⟩, ⟨.openParen, 9, 10⟩, ⟨.name, 10, 11⟩,
        ⟨.closeParen, 11, 12⟩, ⟨.blank, 12, 12⟩] := by cbv
  have hname : IsName "a" := .plain ⟨'a', [], rfl, rfl, by simp⟩
  have hsize : ∀ part ∈ some "w", part = "" ∨ IsPart part := by
    rintro _ ⟨⟩
    exact .inr (.inl ⟨'w', [], rfl, rfl, by simp⟩)
  exact ⟨hscan, by cbv, line_bareCall hname hsize hscan rfl ⟨"a", some "w", 1, 2, by cbv⟩⟩

end Reader

end MacroAsm
