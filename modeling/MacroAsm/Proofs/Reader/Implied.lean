import Mathlib
import MacroAsm.Proofs.Reader.Blanks
import MacroAsm.Proofs.Token.Colons
import MacroAsm.Proofs.Token.Marks

/-!
# Labels with and without a colon

`Reader.line_implied`: a name that starts a line makes the same label with and without a `:` behind
it, if blanks or nothing come after it and the line has no other `:` for a label. A fault is found
one byte earlier without the colon.

The scanner has a mark behind the name either way, and scans the rest of the line to the same tokens
one byte apart (`Scan.scan_implied`). Behind a mark, these are nested alike
(`Nest.addTokens_named`).
-/

namespace MacroAsm

open Text (byteSize)

namespace Scan

variable {name rest cs tail : List Char} {more : List Token} {c : Char}

/-! ## Scanning -/

theorem scanFrom_name (hname : IsRun .name name)
    (htail : ∀ c ∈ tail.head?, continuesRun c = false) :
    scanFrom 0 [] (name ++ tail) =
      scanFrom (byteSize name) [⟨.name, 0, byteSize name⟩] tail := by
  have hlexes : Lexes 0 (name ++ tail) _ _ tail := .run hname htail
  rw [hlexes.scanFrom_eq (allows_of_isRun hname), Nat.zero_add]

theorem scanFrom_implied (cs : List Char) (hname : IsRun .name name) (hc : isBlank c = true) :
    scanFrom 0 [] (name ++ c :: cs) = scanFrom (byteSize name + 1)
      [⟨.impliedLabel, byteSize name, byteSize name + 1⟩, ⟨.name, 0, byteSize name⟩] cs := by
  have hends : Ends (c :: cs) := ends_of_blank (by simpa using hc)
  rw [scanFrom_name hname fun d hd => (hends d hd).1, scanFrom_cons_blank hc,
    utf8Size_of_isBlank hc]
  simp [addBlank, isLabelCandidate]

theorem scanFrom_labelled (cs : List Char) (hname : IsRun .name name) (hc : isBlank c = true) :
    scanFrom 0 [] (name ++ ':' :: c :: cs) = scanFrom (byteSize name + 1 + 1)
      [⟨.blank, byteSize name + 1, byteSize name + 1 + 1⟩,
        ⟨.label, byteSize name, byteSize name + 1⟩, ⟨.name, 0, byteSize name⟩] cs := by
  have hcolon : ∀ d ∈ (c :: cs).head?, d ≠ ':' := by
    rintro _ ⟨⟩ rfl
    cases hc
  have hsignificant : ∃ t ∈ [(⟨.name, 0, byteSize name⟩ : Token)], t.isSignificant = true :=
    ⟨_, List.mem_singleton_self _, rfl⟩
  rw [scanFrom_name hname (by simp [continuesRun, marks]), scanFrom_label hsignificant rfl hcolon,
    scanFrom_cons_blank hc, utf8Size_of_isBlank hc]
  rfl

theorem scanFrom_name_end (hname : IsRun .name name) :
    scanFrom 0 [] (name ++ []) = .ok ([] ++
      [⟨.impliedLabel, byteSize name, byteSize name⟩, ⟨.name, 0, byteSize name⟩]) := by
  rw [scanFrom_name hname (by simp), scanFrom]
  simp [addBlank, isLabelCandidate]

theorem scanFrom_name_colon (hname : IsRun .name name) :
    scanFrom 0 [] (name ++ [':']) = .ok ([] ++
      [⟨.blank, byteSize name + 1, byteSize name + 1⟩,
        ⟨.label, byteSize name, byteSize name + 1⟩, ⟨.name, 0, byteSize name⟩]) := by
  have hsignificant : ∃ t ∈ [(⟨.name, 0, byteSize name⟩ : Token)], t.isSignificant = true :=
    ⟨_, List.mem_singleton_self _, rfl⟩
  rw [scanFrom_name hname (by simp [continuesRun, marks]),
    scanFrom_label hsignificant rfl (by simp), scanFrom]
  rfl

theorem not_isMark_of_labelled {start stop start' stop' : Nat} {t' : Token}
    (hscan : scanFrom 0 [] cs =
      .ok (more ++ [⟨.blank, start, stop⟩, ⟨.label, start', stop'⟩, t'])) :
    ∀ t ∈ more, ¬ t.IsMark := by
  obtain ⟨offset, hmarked⟩ := marked_of_scanFrom hscan
  have hsplit : more ++ [⟨.blank, start, stop⟩, ⟨.label, start', stop'⟩, t'] =
      (more ++ [⟨.blank, start, stop⟩]) ++ ⟨.label, start', stop'⟩ :: [t'] := by simp
  rintro t ht (hlabel | himplied)
  · exact hmarked.label_unique hsplit rfl t (by simp [ht]) hlabel
  · obtain ⟨later, earlier, rfl⟩ := List.append_of_mem ht
    have hlength := hmarked.implied later t (earlier ++ _) (List.append_assoc ..) himplied
    simp at hlength

theorem scan_of_settled {done : List Token} (hscan : scanFrom 0 [] cs = .ok done)
    (hdone : (∀ t ∈ done, t.kind ≠ .label) ∨ ∀ t ∈ done, t.kind ≠ .impliedLabel) :
    scan cs = .ok done.reverse := by
  have hsettle : settleLabel done.reverse = done.reverse := by
    rcases hdone with hlabel | himplied
    · have hlabelled : isLabelled done.reverse = false := by
        rw [isLabelled, List.any_eq_false]
        simpa using hlabel
      simp [settleLabel, hlabelled]
    · exact settleLabel_eq (by simpa using himplied)
  rw [scan, hscan]
  exact congrArg Except.ok hsettle

/-- With and without a `:` behind the name at its start, a line is scanned to a mark behind the
name and the same tokens one byte apart, or has its fault there. -/
inductive Relabelled (name : List Char) (line line' : List Char) : Prop
  | tokens {m m' b : Token} {ts ts' : List Token}
      (hscan : scan line = .ok (⟨.name, 0, byteSize name⟩ :: m :: ts))
      (hscan' : scan line' = .ok (⟨.name, 0, byteSize name⟩ :: m' :: b :: ts'))
      (hm : m.IsMark) (hm' : m'.IsMark) (hb : b.kind = .blank)
      (h : Nest.Moved (· + 1) (cutLine line) (cutLine line') ts ts')
  | fault {fault : Fault} (hscan : scan line = .error fault)
      (hscan' : scan line' = .error (fault.moved (· + 1)))

theorem Relabelled.of_scanFrom {line line' : List Char} {stop stop' : Nat}
    (hscan : scanFrom 0 [] line = .ok (more ++
      [⟨.impliedLabel, byteSize name, stop⟩, ⟨.name, 0, byteSize name⟩]))
    (hscan' : scanFrom 0 [] line' = .ok (more.map (Token.moved (· + 1)) ++
      [⟨.blank, byteSize name + 1, stop'⟩, ⟨.label, byteSize name, byteSize name + 1⟩,
        ⟨.name, 0, byteSize name⟩]))
    (h : Nest.Moved (· + 1) (cutLine line) (cutLine line') more.reverse
      (more.map (Token.moved (· + 1))).reverse) : Relabelled name line line' := by
  have hmarks' : ∀ t ∈ more.map (Token.moved (· + 1)), ¬ t.IsMark :=
    not_isMark_of_labelled hscan'
  have hmarks : ∀ t ∈ more, ¬ t.IsMark := fun t ht =>
    hmarks' (t.moved (· + 1)) (List.mem_map_of_mem ht)
  have hlabel : ∀ t ∈ more ++ [(⟨.impliedLabel, byteSize name, stop⟩ : Token),
      ⟨.name, 0, byteSize name⟩], t.kind ≠ .label := by
    rw [List.forall_mem_append]
    exact ⟨fun t ht hkind => hmarks t ht (.inl hkind), by simp⟩
  have himplied : ∀ t ∈ more.map (Token.moved (· + 1)) ++
      [(⟨.blank, byteSize name + 1, stop'⟩ : Token), ⟨.label, byteSize name, byteSize name + 1⟩,
        ⟨.name, 0, byteSize name⟩], t.kind ≠ .impliedLabel := by
    rw [List.forall_mem_append]
    exact ⟨fun t ht hkind => hmarks' t ht (.inr hkind), by simp⟩
  have htokens := scan_of_settled hscan (.inl hlabel)
  have htokens' := scan_of_settled hscan' (.inr himplied)
  rw [List.reverse_append] at htokens htokens'
  exact .tokens htokens htokens' (.inr rfl) (.inl rfl) rfl h

/-- A name at the start of a line has a mark behind it with and without a `:`, and the rest of the
line is scanned alike. -/
theorem scan_implied (hname : IsRun .name name) (hrest : ∀ c ∈ rest.head?, isBlank c = true)
    (hcolons : hasLoneColon none rest = false) :
    Relabelled name (name ++ rest) (name ++ ':' :: rest) := by
  cases rest with
  | nil => exact .of_scanFrom (scanFrom_name_end hname) (scanFrom_name_colon hname) .nil
  | cons c cs =>
    have hc : isBlank c = true := hrest c rfl
    rw [hasLoneColon_cons_blank hc] at hcolons
    have hsize : byteSize (name ++ [c]) = byteSize name + 1 := by
      simp [utf8Size_of_isBlank hc]
    have hsize' : byteSize (name ++ [':', c]) = byteSize name + 1 + 1 := by
      have hcolon : ':'.utf8Size = 1 := rfl
      simp [utf8Size_of_isBlank hc, hcolon]
    have hshift : Shifts (· + 1) (byteSize name + 1) (byteSize name + 1 + 1) := fun n =>
      Nat.add_right_comm _ n 1
    have hscan := scanFrom_implied cs hname hc
    have hscan' := scanFrom_labelled cs hname hc
    have hends : EndsBlank [⟨.impliedLabel, byteSize name, byteSize name + 1⟩,
        ⟨.name, 0, byteSize name⟩] := endsBlank_cons rfl rfl
    have hends' : EndsBlank [⟨.blank, byteSize name + 1, byteSize name + 1 + 1⟩,
        ⟨.label, byteSize name, byteSize name + 1⟩, ⟨.name, 0, byteSize name⟩] :=
      endsBlank_cons rfl rfl
    rcases scanFrom_rebase_moved hshift (Nat.succ_pos _) (Nat.succ_pos _) hcolons hends hends' with
      ⟨more, hmore, hmore', hlies, hlast⟩ | ⟨fault, hfault, hfault'⟩
    · refine .of_scanFrom (hscan.trans hmore) (hscan'.trans hmore') ?_
      rw [List.append_cons name c cs, List.append_cons name ':' (c :: cs),
        List.append_cons (name ++ [':']) c cs, List.append_assoc name [':'] [c]]
      exact moved_back (by rwa [hsize, List.singleton_append, hsize']) (by rwa [hsize]) hlast
    · have hfirst : scan (name ++ c :: cs) = .error fault := by
        rw [scan, hscan, hfault]
        rfl
      refine .fault hfirst ?_
      rw [scan, hscan', hfault']
      rfl

end Scan

namespace Nest

variable {cut cut' : Nat → Nat → String} {read : NumeralReader} {t m : Token}
  {ts : List Token}

/-! ## Nesting -/

def labelled (name : String) : Nesting :=
  (({} : Nesting).addLeaf .text (some (.text name))).addLeaf .label none

/-- A name with a mark behind it is a leaf with the mark, and what comes behind the mark is nested
on its own. -/
theorem addTokens_named (ht : t.kind = .name) (hm : m.IsMark) :
    addTokens cut read {} true none 0 (t :: m :: ts) =
      addTokens cut read (labelled (cut t.start t.stop)) true none 0 ts := by
  have hname : addTokens cut read {} true none 0 [t] =
      .ok (({} : Nesting).addLeaf .text (some (.text (cut t.start t.stop)))) := by
    rw [addTokens]
    simp only [addToken, ht]
    rfl
  have hends : ∀ b ∈ some m, b.kind.endsValue = false := by
    rintro _ ⟨⟩
    rcases hm with h | h <;> rw [h] <;> rfl
  rw [← List.singleton_append, addTokens_append hm (fun _ => Nat.le_refl _) (Nat.zero_le _), hname]
  exact addTokens_of_before hends

theorem ofTokens_named {φ : Nat → Nat} {t' m' b : Token} {ts' : List Token}
    (hφ : Function.Injective φ) (ht : t.kind = .name) (ht' : t'.kind = .name)
    (htext : cut' t'.start t'.stop = cut t.start t.stop) (hm : m.IsMark) (hm' : m'.IsMark)
    (hb : b.kind = .blank) (h : Moved φ cut cut' ts ts') :
    Scope.ofTokens cut' read (t' :: m' :: b :: ts') =
      (Scope.ofTokens cut read (t :: m :: ts)).mapError (Fault.moved φ) := by
  have hb : ∀ t ∈ [b], t.kind = .blank := by simpa using hb
  have hblank : ∀ n : Nesting, addTokens cut' read n true none 0 (b :: ts') =
      addTokens cut' read n true none 0 ts' := fun n => addTokens_blank_append hb
  have hmoved : (labelled (cut t.start t.stop)).moved φ = labelled (cut t.start t.stop) := rfl
  apply ofTokens_of_outcomeMoved
  rw [addTokens_named ht hm, addTokens_named ht' hm', htext, hblank, ← addTokens_moved hφ .none h,
    hmoved]

end Nest

namespace Reader

variable {r : Reader} {name rest : String}

/-- A name that starts a line is a label with and without a `:`, if blanks or nothing come behind it
and there is no other `:` in the line outside its strings, but for pairs. Without it, a fault is
one byte earlier. -/
theorem line_implied (hname : IsRun .name name.toList)
    (hrest : ∀ c ∈ rest.toList.head?, Scan.isBlank c = true)
    (hcolons : Scan.hasLoneColon none rest.toList = false) :
    r.line (name ++ ":" ++ rest) = (r.line (name ++ rest)).mapError (Fault.moved (· + 1)) := by
  have hline : (name ++ ":" ++ rest).toList = name.toList ++ ':' :: rest.toList := by simp
  have hcut : ∀ tail, cutLine (name.toList ++ tail) 0 (byteSize name.toList) = name := by
    intro tail
    have hat : StandsAt (name.toList ++ tail) 0 name.toList := ⟨[], tail, rfl, rfl⟩
    have hname := hat.cut
    rwa [Nat.zero_add, String.ofList_toList] at hname
  have hrelabelled := Scan.scan_implied hname hrest hcolons
  rw [← String.toList_append, ← hline] at hrelabelled
  cases hrelabelled with
  | fault hscan hscan' => exact line_of_scan_error hscan hscan'
  | tokens hscan hscan' hm hm' hb h =>
    refine line_of_nested hscan hscan' ?_
    refine Nest.ofTokens_named (fun _ _ => Nat.succ.inj) rfl rfl ?_ hm hm' hb h
    rw [hline, String.toList_append, hcut, hcut]

/-- A string and a cast have colons, and the stray parenthesis is one byte further with another. -/
theorem line_implied_stray :
    IsRun .name "foo".toList ∧ (∀ c ∈ " f 'a:'[b::c], -d)".toList.head?, Scan.isBlank c = true) ∧
      Scan.hasLoneColon none " f 'a:'[b::c], -d)".toList = false ∧
      ({} : Reader).line ("foo" ++ " f 'a:'[b::c], -d)") = .error (.strayParen 20) ∧
      ({} : Reader).line ("foo" ++ ":" ++ " f 'a:'[b::c], -d)") =
        (({} : Reader).line ("foo" ++ " f 'a:'[b::c], -d)")).mapError (Fault.moved (· + 1)) := by
  have hname : IsRun .name "foo".toList := ⟨'f', ['o', 'o'], rfl, rfl, List.all_eq_true.mp rfl⟩
  have hrest : ∀ c ∈ " f 'a:'[b::c], -d)".toList.head?, Scan.isBlank c = true := by
    rintro _ ⟨⟩
    rfl
  have hcolons : Scan.hasLoneColon none " f 'a:'[b::c], -d)".toList = false := by cbv
  exact ⟨hname, hrest, hcolons, by cbv, line_implied hname hrest hcolons⟩

end Reader

end MacroAsm
