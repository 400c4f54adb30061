import MacroAsm.Proofs.Token.Moved
import MacroAsm.Proofs.Token.Strings

/-!
# Scanning up to blanks

A text in which every string is closed (`Scan.ClosesStrings`) is scanned, or rejected, in the same
way whatever comes after it, as long as that does not go on with its last lexeme
(`Scan.scanFrom_append`). Blanks after it leave one mark or none, and it does not matter how many
they are (`Scan.scanFrom_blanks`).
-/

namespace MacroAsm

namespace Scan

open Text (byteSize)

variable {offset offset' : Nat} {done done' last : List Token} {quote c : Char} {escaped : Bool}
  {cs body rest blanks : List Char} {fault : Fault} {t : Token}

/-! ## Closed strings -/

/-- The string that is open after one more character: its quote, and whether a backslash escapes
the next character. -/
def stringAfter : Option (Char × Bool) → Char → Option (Char × Bool)
  | none, c => if isQuote c then some (c, false) else none
  | some (quote, escaped), c =>
    if c = quote && !escaped then none else some (quote, c = '\\' && !escaped)

/-- No string is open at the end of the text. -/
def ClosesStrings (cs : List Char) : Prop := cs.foldl stringAfter none = none

instance (cs : List Char) : Decidable (ClosesStrings cs) :=
  inferInstanceAs (Decidable (cs.foldl stringAfter none = none))

theorem foldl_of_stringBody? (h : stringBody? quote escaped cs = some (body, rest)) :
    cs.foldl stringAfter (some (quote, escaped)) = rest.foldl stringAfter none := by
  fun_induction stringBody? quote escaped cs generalizing body with
  | case1 => cases h
  | case2 escaped c cs hclose =>
    cases h
    rw [List.foldl_cons, stringAfter, if_pos hclose]
  | case3 escaped c cs hopen ih =>
    obtain ⟨⟨body', rest'⟩, hbody, heq⟩ := Option.map_eq_some_iff.mp h
    cases heq
    rw [List.foldl_cons, stringAfter, if_neg hopen, ih hbody]

theorem foldl_of_openString (h : stringBody? quote escaped cs = none) :
    ∃ escaped', cs.foldl stringAfter (some (quote, escaped)) = some (quote, escaped') := by
  fun_induction stringBody? quote escaped cs with
  | case1 => exact ⟨_, rfl⟩
  | case2 => cases h
  | case3 escaped c cs hopen ih =>
    rw [List.foldl_cons, stringAfter, if_neg hopen]
    exact ih (Option.map_eq_none_iff.mp h)

theorem foldl_stringAfter_of_no_quote (h : ∀ c ∈ cs, isQuote c = false) :
    cs.foldl stringAfter none = none := by
  induction cs with
  | nil => rfl
  | cons c cs ih =>
    rw [List.forall_mem_cons] at h
    rw [List.foldl_cons, stringAfter, h.1]
    exact ih h.2

theorem Read.foldl_stringAfter (h : Read offset done cs offset' done' rest) :
    cs.foldl stringAfter none = rest.foldl stringAfter none := by
  cases h with
  | blank hblank => rw [List.foldl_cons, stringAfter, isQuote_of_isBlank hblank]; rfl
  | string hquote hbody =>
    rw [List.foldl_cons, stringAfter, if_pos hquote, foldl_of_stringBody? hbody]
  | token chars hcs _ _ hchars =>
    rw [hcs, List.foldl_append, foldl_stringAfter_of_no_quote hchars]

theorem Scans.closesStrings (h : Scans offset done cs offset' last rest) (hcs : ClosesStrings cs) :
    ClosesStrings rest := by
  induction h with
  | refl => exact hcs
  | @blank offset done c cs stop last rest hc h ih =>
    have hread : Read offset done (c :: cs) _ _ cs := .blank hc
    exact ih (hread.foldl_stringAfter.symm.trans hcs)
  | @token offset done cs t next mid stop last rest hlexes hallows h ih =>
    have hread : Read offset [] cs _ _ mid := hlexes.read
    exact ih (hread.foldl_stringAfter.symm.trans hcs)

theorem Rejects.ne_unterminated (h : Rejects offset done cs fault) (hcs : ClosesStrings cs)
    (line : UInt32) : fault ≠ .unterminated line := by
  rintro rfl
  obtain ⟨hquote, hclose⟩ := h
  rw [closingQuote?_eq hquote, Option.map_eq_none_iff] at hclose
  obtain ⟨escaped, hopen⟩ := foldl_of_openString hclose
  rw [ClosesStrings, List.foldl_cons, stringAfter, if_pos hquote, hopen] at hcs
  cases hcs

/-! ## The text before blanks -/

theorem Scans.lies (h : Scans offset done cs offset' last rest) :
    ∀ t ∈ last, t ∈ done ∨ Lies t offset offset' := by
  induction h with
  | refl => exact fun t ht => .inl ht
  | @blank offset done c cs stop last rest hc h ih =>
    intro t ht
    rcases ih t ht with ht | ht
    · refine (mem_addBlank ht).imp_right fun ⟨_, hstart, hstop⟩ => ?_
      exact ⟨hstart.ge, by omega, hstop ▸ h.le⟩
    · exact .inr (ht.mono (Nat.le_add_right ..) (Nat.le_refl _))
  | @token offset done cs t next mid stop last rest hlexes hallows h ih =>
    intro u hu
    rcases ih u hu with hu | hu
    · rcases List.mem_cons.mp hu with rfl | hu
      · exact .inr (hlexes.lies.mono (Nat.le_refl _) h.le)
      · exact .inl hu
    · exact .inr (hu.mono hlexes.lt.le (Nat.le_refl _))

/-- A text that closes its strings is scanned to the same tokens whatever comes after it, or is
rejected with the same fault. -/
theorem scanFrom_append (hcs : ClosesStrings cs) :
    (∃ last, (∀ t ∈ last, Lies t 0 (byteSize cs)) ∧
        ∀ tail, Ends tail → scanFrom 0 [] (cs ++ tail) = scanFrom (byteSize cs) last tail) ∨
      ∃ fault : Fault, (∀ n ∈ fault.offset?, n ≤ byteSize cs) ∧
        ∀ tail, Ends tail → scanFrom 0 [] (cs ++ tail) = .error fault := by
  cases hscan : scanFrom 0 [] cs with
  | ok tokens =>
    obtain ⟨stop, last, hscans, -⟩ := exists_scans hscan
    obtain rfl : stop = byteSize cs := by simpa using hscans.size
    refine .inl ⟨last, fun t ht => (hscans.lies t ht).resolve_left (by simp), ?_⟩
    intro tail htail
    rw [(hscans.append htail).scanFrom_eq, List.nil_append]
  | error fault =>
    obtain ⟨stop, last, rest, hscans, hrejects⟩ := exists_rejects hscan
    refine .inr ⟨fault, fun n hn => ?_, fun tail htail => ?_⟩
    · have hsize := hscans.size
      rw [hrejects.offset?_eq n hn]
      omega
    · rw [(hscans.append htail).scanFrom_eq]
      have hopen := hrejects.ne_unterminated (hscans.closesStrings hcs)
      exact (hrejects.append htail hopen).scanFrom_eq

/-! ## The blanks -/

theorem ends_of_blank (hc : ∀ c ∈ cs.head?, isBlank c = true) : Ends cs := by
  intro c hhead
  have hblank := hc c hhead
  simp only [isBlank, Bool.or_eq_true, decide_eq_true_eq] at hblank
  rcases hblank with ((rfl | rfl) | rfl) | rfl <;> decide

theorem mem_of_mem_addBlank {start stop : Nat} (h : t ∈ addBlank start stop done)
    (hsig : t.isSignificant = true) : t ∈ done := by
  refine (mem_addBlank h).resolve_right fun ⟨hkind, _⟩ => ?_
  rcases hkind with hkind | hkind <;>
    simp [Token.isSignificant, hkind, TokenKind.isSignificant] at hsig

theorem addBlank_of_head (h : ∀ t ∈ done.head?, t.isSignificant = false) (start stop : Nat) :
    addBlank start stop done = done := by
  have hcandidate : isLabelCandidate start done = false := isLabelCandidate_of_head h
  cases done with
  | nil => rfl
  | cons t done =>
    rw [addBlank, hcandidate, List.head?_cons, Option.any_some, h t rfl]
    rfl

theorem addBlank_addBlank (start stop start' stop' : Nat) (done : List Token) :
    addBlank start' stop' (addBlank start stop done) = addBlank start stop done :=
  addBlank_of_head (head_addBlank start stop) start' stop'

/-- Blanks leave the mark of the first one. -/
theorem scanFrom_blanks (hblanks : ∀ c ∈ blanks, isBlank c = true) (hne : blanks ≠ []) :
    scanFrom offset done (blanks ++ rest) =
      scanFrom (offset + byteSize blanks) (addBlank offset (offset + 1) done) rest := by
  induction blanks generalizing offset done with
  | nil => exact absurd rfl hne
  | cons c blanks ih =>
    rw [List.forall_mem_cons] at hblanks
    rw [List.cons_append, scanFrom_cons_blank hblanks.1, utf8Size_of_isBlank hblanks.1,
      Text.byteSize_cons, utf8Size_of_isBlank hblanks.1]
    cases blanks with
    | nil => rfl
    | cons d blanks =>
      rw [ih hblanks.2 (by simp), addBlank_addBlank, Nat.add_assoc]

end Scan

end MacroAsm
