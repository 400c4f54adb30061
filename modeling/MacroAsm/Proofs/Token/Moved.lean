import MacroAsm.Proofs.Token.Context

/-!
# Scanning a text elsewhere in a line

From some offset on, a function `φ` on offsets moves all of them by the same distance
(`Scan.Shifts`). A text that is scanned after the same tokens there has its tokens moved by `φ`, and
so has the fault that it may be rejected with (`Scan.scanFrom_moved`).
-/

namespace MacroAsm

def Token.moved (φ : Nat → Nat) (t : Token) : Token := ⟨t.kind, φ t.start, φ t.stop⟩

namespace Fault

def moved (φ : Nat → Nat) : Fault → Fault
  | unrecognized c offset => unrecognized c (φ offset)
  | unterminated line => unterminated line
  | emptyLabel offset => emptyLabel (φ offset)
  | repeatedLabel offset => repeatedLabel (φ offset)
  | strayParen offset => strayParen (φ offset)
  | strayBracket offset => strayBracket (φ offset)
  | unknownOperator symbol offset => unknownOperator symbol (φ offset)
  | unresolved => unresolved
  | badArgument detail offset? => badArgument detail (offset?.map φ)
  | unclosed bracket offset => unclosed bracket (φ offset)
  | badNumeral text cause offset => badNumeral text cause (φ offset)

variable {φ ψ : Nat → Nat} {fault : Fault}

theorem moved_moved : (fault.moved ψ).moved φ = fault.moved (φ ∘ ψ) := by
  cases fault <;> simp [moved]

theorem moved_of_offset? (h : ∀ offset ∈ fault.offset?, φ offset = offset) :
    fault.moved φ = fault := by
  cases fault with
  | badArgument detail offset? => cases offset? <;> simp_all [moved, offset?]
  | unterminated | unresolved => rfl
  | _ => simp_all [moved, offset?]

theorem moved_id (fault : Fault) : fault.moved id = fault := moved_of_offset? fun _ _ => rfl

end Fault

namespace Scan

open Text (byteSize)

/-- From `offset` on, `φ` moves all offsets by the same distance, `offset` to `offset'`. -/
def Shifts (φ : Nat → Nat) (offset offset' : Nat) : Prop := ∀ n, φ (offset + n) = offset' + n

variable {φ : Nat → Nat} {first first' offset offset' next stop close : Nat}
  {base base' done done' last more tokens : List Token} {t : Token} {quote : Char}
  {cs rest tail : List Char} {escaped : Bool} {fault : Fault}

theorem Shifts.apply (h : Shifts φ offset offset') : φ offset = offset' := h 0

theorem Shifts.of_le (h : Shifts φ offset offset') (hle : offset ≤ next) :
    Shifts φ next (φ next) := by
  intro n
  obtain ⟨k, rfl⟩ := Nat.exists_eq_add_of_le hle
  rw [Nat.add_assoc, h, h, Nat.add_assoc]

theorem Shifts.le (h : Shifts φ offset offset') (hle : offset ≤ next) : offset' ≤ φ next := by
  obtain ⟨k, rfl⟩ := Nat.exists_eq_add_of_le hle
  rw [h]
  exact Nat.le_add_right ..

/-! ## Faults -/

theorem Rejects.scanFrom_eq (h : Rejects offset done cs fault) :
    scanFrom offset done cs = .error fault := by
  have hcolon : isBlank ':' = false ∧ isQuote ':' = false := by decide
  cases h with
  | @unterminated quote cs hquote hclose =>
    have hblank : isBlank quote = false := by
      by_contra h
      rw [isQuote_of_isBlank (by simpa using h)] at hquote
      cases hquote
    rw [scanFrom.eq_def]
    simp only [hblank, hquote, Bool.false_eq_true, ↓reduceIte]
    split
    next => rfl
    next h =>
      rw [hclose] at h
      cases h
  | emptyLabel hdone =>
    rw [scanFrom.eq_def]
    simp [hcolon, hdone]
  | repeatedLabel hdone hlabel hcs =>
    rw [scanFrom.eq_def]
    simp only [hcolon, hdone, hlabel, Bool.false_eq_true, ↓reduceIte, Bool.not_true]
    split
    next => exact absurd rfl (hcs ':' rfl)
    next => rfl
  | unrecognized hblank hquote hcolon hmark hoperator hrun =>
    rw [scanFrom.eq_def]
    simp [hblank, hquote, hcolon, hmark, operatorLength_of_not_mem hoperator, hrun]

theorem exists_rejects (h : scanFrom offset done cs = .error fault) :
    ∃ stop last rest, Scans offset done cs stop last rest ∧ Rejects stop last rest fault := by
  revert h
  refine lexeme_induction (motive := fun offset done cs result => result = .error fault →
    ∃ stop last rest, Scans offset done cs stop last rest ∧ Rejects stop last rest fault)
    ?nil ?blank ?token ?fault
  case nil => simp
  case blank =>
    intro offset done c cs result hc ih h
    obtain ⟨stop, last, rest, hscans, hrejects⟩ := ih h
    exact ⟨stop, last, rest, .blank hc hscans, hrejects⟩
  case token =>
    intro offset done cs t next mid result hlexes hallows ih h
    obtain ⟨stop, last, rest, hscans, hrejects⟩ := ih h
    exact ⟨stop, last, rest, .token hlexes hallows hscans, hrejects⟩
  case fault =>
    rintro offset done cs _ hrejects ⟨⟩
    exact ⟨offset, done, cs, .refl, hrejects⟩

theorem Rejects.append (h : Rejects offset done cs fault) (hends : Ends tail)
    (hfault : ∀ line, fault ≠ .unterminated line) : Rejects offset done (cs ++ tail) fault := by
  cases h with
  | unterminated => exact absurd rfl (hfault 1)
  | emptyLabel hdone => exact .emptyLabel hdone
  | @repeatedLabel cs hdone hlabel hcs =>
    refine .repeatedLabel hdone hlabel ?_
    cases cs with
    | nil => exact fun c hc => (hends c hc).2.2
    | cons => exact hcs
  | unrecognized hblank hquote hcolon hmark hoperator hrun =>
    exact .unrecognized hblank hquote hcolon hmark hoperator hrun

theorem Rejects.offset?_eq (h : Rejects offset done cs fault) :
    ∀ n ∈ fault.offset?, n = offset := by
  cases h <;> simp [Fault.offset?]

/-! ## Lexemes and faults elsewhere -/

theorem closingQuote?_moved (h : Shifts φ offset offset') :
    closingQuote? quote escaped offset' cs =
      (closingQuote? quote escaped offset cs).map fun (close, rest) => (φ close, rest) := by
  fun_induction closingQuote? quote escaped offset cs generalizing offset' with
  | case1 => rfl
  | case2 escaped offset cs ih =>
    have hnext := h.of_le (Nat.le_add_right offset ('\\'.utf8Size))
    rw [h] at hnext
    rw [closingQuote?, if_pos rfl, ih hnext]
  | case3 escaped offset c cs hback hquote =>
    rw [closingQuote?, if_neg hback, if_pos hquote, ← h.apply]
    rfl
  | case4 escaped offset c cs hback hquote ih =>
    have hnext := h.of_le (Nat.le_add_right offset c.utf8Size)
    rw [h] at hnext
    rw [closingQuote?, if_neg hback, if_neg hquote, ih hnext]

theorem Lexes.moved (h : Lexes offset cs t next rest) (hφ : Shifts φ offset offset') :
    Lexes offset' cs (t.moved φ) (φ next) rest := by
  cases h with
  | @string quote cs rest close hquote hclose =>
    have hstart := hφ.of_le (Nat.le_add_right offset quote.utf8Size)
    have hstop := hφ.of_le
      (Nat.le_trans (Nat.le_add_right offset quote.utf8Size) (size_of_closingQuote? hclose).1)
    rw [hφ] at hstart
    rw [Token.moved, hφ, hstop]
    exact .string hquote (by rw [closingQuote?_moved hstart, hclose]; rfl)
  | cast =>
    rw [Token.moved, hφ, hφ.apply]
    exact .cast
  | label hrest =>
    rw [Token.moved, hφ, hφ.apply]
    exact .label hrest
  | mark hkind =>
    rw [Token.moved, hφ, hφ.apply]
    exact .mark hkind
  | operator hc hlength hpos =>
    rw [Token.moved, hφ, hφ.apply]
    exact .operator hc hlength hpos
  | run hcs hrest =>
    rw [Token.moved, hφ, hφ.apply]
    exact .run hcs hrest

theorem Rejects.moved (h : Rejects offset done cs fault) (hφ : Shifts φ offset offset')
    (hdone : Alike done done') : Rejects offset' done' cs (fault.moved φ) := by
  cases h with
  | @unterminated quote cs hquote hclose =>
    have hstart := hφ.of_le (Nat.le_add_right offset quote.utf8Size)
    rw [hφ] at hstart
    exact .unterminated hquote (by rw [closingQuote?_moved hstart, hclose]; rfl)
  | emptyLabel hnone =>
    rw [Fault.moved, hφ.apply]
    exact .emptyLabel (hdone.significant ▸ hnone)
  | repeatedLabel hany hlabel hcs =>
    rw [Fault.moved, hφ.apply]
    exact .repeatedLabel (hdone.significant ▸ hany) (hdone.labelled ▸ hlabel) hcs
  | unrecognized hblank hquote hcolon hmark hoperator hrun =>
    rw [Fault.moved, hφ.apply]
    exact .unrecognized hblank hquote hcolon hmark hoperator hrun

/-! ## Runs elsewhere -/

/-- Tokens before a text, in two places, after which the text is scanned alike: they allow the same
colons, blanks leave the same mark behind them, and this makes no label. -/
structure Parallel (base base' : List Token) : Prop extends Alike base base' where
  head : base.head?.any Token.isSignificant = base'.head?.any Token.isSignificant
  candidate : ∀ offset, isLabelCandidate offset base = false
  candidate' : ∀ offset, isLabelCandidate offset base' = false

theorem Alike.moved (h : Alike base base') (more : List Token) :
    Alike (more ++ base) (more.map (Token.moved φ) ++ base') where
  significant := by
    rw [List.any_append, List.any_append, List.any_map, h.significant]
    rfl
  labelled := by
    have hlabelled := h.labelled
    unfold isLabelled at hlabelled ⊢
    rw [List.any_append, List.any_append, List.any_map, hlabelled]
    rfl

theorem isLabelCandidate_append (hmore : ∀ t ∈ more, 0 < t.start)
    (hbase : isLabelCandidate offset base = false) :
    isLabelCandidate offset (more ++ base) = false := by
  cases more with
  | nil => exact hbase
  | cons t more =>
    unfold isLabelCandidate
    split
    next heq =>
      cases heq
      exact absurd (hmore _ (List.mem_cons_self ..)) (Nat.lt_irrefl 0)
    next => rfl

theorem isLabelCandidate_of_head (h : ∀ t ∈ done.head?, t.isSignificant = false) :
    isLabelCandidate offset done = false := by
  unfold isLabelCandidate
  split
  next stop _ => cases h ⟨.name, 0, stop⟩ rfl
  next => rfl

theorem parallel_refl (h : ∀ t ∈ base.head?, t.isSignificant = false) : Parallel base base where
  significant := rfl
  labelled := rfl
  head := rfl
  candidate _ := isLabelCandidate_of_head h
  candidate' _ := isLabelCandidate_of_head h

theorem head_addBlank (start stop : Nat) :
    ∀ t ∈ (addBlank start stop done).head?, t.isSignificant = false := by
  unfold addBlank
  split
  · rintro _ ⟨⟩
    rfl
  · split
    · rintro _ ⟨⟩
      rfl
    · cases done <;> simp_all

theorem addBlank_moved (hφ : Shifts φ first first') (hfirst : 0 < first) (hfirst' : 0 < first')
    (hmore : ∀ t ∈ more, first ≤ t.start) (hbase : Parallel base base') (start stop : Nat) :
    ∃ lead : List Token, addBlank start stop (more ++ base) = (lead ++ more) ++ base ∧
      addBlank (φ start) (φ stop) (more.map (Token.moved φ) ++ base') =
        (lead ++ more).map (Token.moved φ) ++ base' ∧
      ∀ t ∈ lead, t = ⟨.blank, start, stop⟩ := by
  have hcandidate : isLabelCandidate start (more ++ base) = false :=
    isLabelCandidate_append (fun t ht => Nat.lt_of_lt_of_le hfirst (hmore t ht))
      (hbase.candidate start)
  have hcandidate' : isLabelCandidate (φ start) (more.map (Token.moved φ) ++ base') = false := by
    refine isLabelCandidate_append (fun t ht => ?_) (hbase.candidate' (φ start))
    obtain ⟨u, hu, rfl⟩ := List.mem_map.mp ht
    exact Nat.lt_of_lt_of_le hfirst' (hφ.le (hmore u hu))
  have hhead : (more.map (Token.moved φ) ++ base').head?.any Token.isSignificant =
      (more ++ base).head?.any Token.isSignificant := by
    cases more with
    | nil => exact hbase.head.symm
    | cons => rfl
  rw [addBlank, addBlank, hcandidate, hcandidate', hhead]
  simp only [Bool.false_eq_true, ↓reduceIte]
  split
  · exact ⟨[⟨.blank, start, stop⟩], rfl, rfl, by simp⟩
  · exact ⟨[], rfl, rfl, by simp⟩

theorem Scans.moved (h : Scans offset done cs stop last rest) (hφ : Shifts φ first first')
    (hfirst : 0 < first) (hfirst' : 0 < first') (hoffset : first ≤ offset)
    (hdone : done = more ++ base) (hmore : ∀ t ∈ more, first ≤ t.start)
    (hbase : Parallel base base') :
    ∃ more', last = more' ++ base ∧ (∀ t ∈ more', t ∈ more ∨ Lies t offset stop) ∧
      Scans (φ offset) (more.map (Token.moved φ) ++ base') cs (φ stop)
        (more'.map (Token.moved φ) ++ base') rest := by
  induction h generalizing more with
  | refl => exact ⟨more, hdone, fun t ht => .inl ht, .refl⟩
  | @blank offset done c cs stop last rest hc h ih =>
    subst hdone
    obtain ⟨lead, hblank, hblank', hlead⟩ :=
      addBlank_moved hφ hfirst hfirst' hmore hbase offset (offset + c.utf8Size)
    have hnext : φ (offset + c.utf8Size) = φ offset + c.utf8Size := hφ.of_le hoffset c.utf8Size
    have hlies : ∀ t ∈ lead, Lies t offset stop := by
      intro t ht
      rw [hlead t ht]
      exact ⟨Nat.le_refl _, Nat.le_add_right .., h.le⟩
    have hmore' : ∀ t ∈ lead ++ more, first ≤ t.start := by
      rw [List.forall_mem_append]
      exact ⟨fun t ht => Nat.le_trans hoffset (hlies t ht).start, hmore⟩
    obtain ⟨more', hlast, hmem, hscans⟩ :=
      ih (Nat.le_trans hoffset (Nat.le_add_right ..)) hblank hmore'
    refine ⟨more', hlast, fun t ht => ?_, ?_⟩
    · rcases hmem t ht with ht | ht
      · exact (List.mem_append.mp ht).symm.imp_right (hlies t)
      · exact .inr (ht.mono (Nat.le_add_right ..) (Nat.le_refl _))
    · rw [← hblank', hnext] at hscans
      exact .blank hc hscans
  | @token offset done cs t next mid stop last rest hlexes hallows h ih =>
    subst hdone
    have hmore' : ∀ u ∈ t :: more, first ≤ u.start :=
      List.forall_mem_cons.mpr ⟨Nat.le_trans hoffset hlexes.lies.start, hmore⟩
    obtain ⟨more', hlast, hmem, hscans⟩ :=
      ih (Nat.le_trans hoffset hlexes.lt.le) (List.cons_append ..).symm hmore'
    refine ⟨more', hlast, fun u hu => ?_, ?_⟩
    · rcases hmem u hu with hu | hu
      · rcases List.mem_cons.mp hu with rfl | hu
        · exact .inr (hlexes.lies.mono (Nat.le_refl _) h.le)
        · exact .inl hu
      · exact .inr (hu.mono hlexes.lt.le (Nat.le_refl _))
    · have hallows' : Allows (more.map (Token.moved φ) ++ base') t :=
        (hbase.toAlike.moved more).allows hallows
      exact .token (hlexes.moved (hφ.of_le hoffset)) ⟨hallows'.significant, hallows'.label⟩ hscans

/-- A text elsewhere in a line, after the same tokens, is scanned to the same tokens, moved there,
or rejected with the same fault. -/
theorem scanFrom_moved (hφ : Shifts φ first first') (hfirst : 0 < first) (hfirst' : 0 < first')
    (hbase : ∀ t ∈ base.head?, t.isSignificant = false) (cs : List Char) :
    (∃ more, scanFrom first base cs = .ok (more ++ base) ∧
        scanFrom first' base cs = .ok (more.map (Token.moved φ) ++ base) ∧
        (∀ t ∈ more, Lies t first (first + byteSize cs)) ∧
        ∀ t ∈ (more ++ base).head?, t.isSignificant = false) ∨
      ∃ fault, scanFrom first base cs = .error fault ∧
        scanFrom first' base cs = .error (fault.moved φ) := by
  cases hscan : scanFrom first base cs with
  | ok tokens =>
    obtain ⟨stop, last, hscans, rfl⟩ := exists_scans hscan
    obtain ⟨more, rfl, hmem, hscans'⟩ :=
      hscans.moved hφ hfirst hfirst' (Nat.le_refl _) (List.nil_append _).symm (by simp)
        (parallel_refl hbase)
    have hlies : ∀ t ∈ more, Lies t first stop := fun t ht => (hmem t ht).resolve_left (by simp)
    obtain rfl : stop = first + byteSize cs := hscans.size
    obtain ⟨lead, hblank, hblank', hlead⟩ :=
      addBlank_moved hφ hfirst hfirst' (fun t ht => (hlies t ht).start)
        (parallel_refl hbase)
        (first + byteSize cs) (first + byteSize cs)
    refine .inl ⟨lead ++ more, congrArg Except.ok hblank, ?_, ?_, ?_⟩
    · rw [List.map_nil, List.nil_append, hφ.apply] at hscans'
      rw [hscans'.scanFrom_eq, scanFrom, hblank']
    · rw [List.forall_mem_append]
      refine ⟨fun t ht => ?_, hlies⟩
      rw [hlead t ht]
      exact ⟨hscans.le, Nat.le_refl _, Nat.le_refl _⟩
    · rw [← hblank]
      exact head_addBlank _ _
  | error fault =>
    obtain ⟨stop, last, rest, hscans, hrejects⟩ := exists_rejects hscan
    obtain ⟨more, rfl, -, hscans'⟩ :=
      hscans.moved hφ hfirst hfirst' (Nat.le_refl _) (List.nil_append _).symm (by simp)
        (parallel_refl hbase)
    refine .inr ⟨fault, rfl, ?_⟩
    rw [List.map_nil, List.nil_append, hφ.apply] at hscans'
    rw [hscans'.scanFrom_eq]
    exact (hrejects.moved (hφ.of_le hscans.le) ((parallel_refl hbase).toAlike.moved more)).scanFrom_eq

end Scan

end MacroAsm
