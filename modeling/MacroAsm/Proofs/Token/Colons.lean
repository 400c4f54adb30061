import MacroAsm.Proofs.Token.Blanks

/-!
# Texts without a label mark

`Scan.hasLoneColon` says whether a text has a `:` that ends a label: outside its strings, and not
one of a pair. A text that has none is scanned in the same way after any tokens that end with a
blank, whether these have a label mark or not (`Scan.scanFrom_rebase`). All that the scanner asks of
the tokens before a text is whether they allow its colons.
-/

namespace MacroAsm

namespace Scan

/-- Whether a text has a colon outside its strings that is not one of a pair `::`. The string is
the one that is open before the text. -/
def hasLoneColon (string? : Option (Char × Bool)) : List Char → Bool
  | [] => false
  | c :: cs =>
    if string?.isNone && c = ':' then
      match cs with
      | ':' :: rest => hasLoneColon none rest
      | _ => true
    else hasLoneColon (stringAfter string? c) cs

/-- The tokens before a text end with a blank, and are more than that. -/
structure EndsBlank (base : List Token) : Prop where
  head : ∀ t ∈ base.head?, t.isSignificant = false
  significant : base.any Token.isSignificant = true

variable {offset next stop : Nat} {done last base base' more : List Token} {quote : Char}
  {escaped : Bool} {cs front body rest : List Char} {fault : Fault} {t : Token}

/-! ## Colons -/

theorem hasLoneColon_cons {string? : Option (Char × Bool)} {c : Char}
    (h : string? = none → c ≠ ':') :
    hasLoneColon string? (c :: cs) = hasLoneColon (stringAfter string? c) cs := by
  have hnot : ¬ (string?.isNone && decide (c = ':')) = true := by
    simpa using h
  exact (hasLoneColon.eq_def ..).trans (if_neg hnot)

theorem hasLoneColon_lone (h : ∀ c ∈ rest.head?, c ≠ ':') :
    hasLoneColon none (':' :: rest) = true := by
  unfold hasLoneColon
  rw [if_pos (by simp)]
  split
  next => exact absurd rfl (h ':' rfl)
  next => rfl

theorem hasLoneColon_append (h : ∀ c ∈ front, isQuote c = false ∧ c ≠ ':') :
    hasLoneColon none (front ++ rest) = hasLoneColon none rest := by
  induction front with
  | nil => rfl
  | cons c front ih =>
    rw [List.forall_mem_cons] at h
    obtain ⟨⟨hquote, hcolon⟩, hfront⟩ := h
    rw [List.cons_append, hasLoneColon_cons fun _ => hcolon, stringAfter, hquote]
    exact ih hfront

theorem hasLoneColon_of_stringBody? (h : stringBody? quote escaped cs = some (body, rest)) :
    hasLoneColon (some (quote, escaped)) cs = hasLoneColon none rest := by
  fun_induction stringBody? quote escaped cs generalizing body with
  | case1 => cases h
  | case2 escaped c cs hclose =>
    cases h
    rw [hasLoneColon_cons (by simp), stringAfter, if_pos hclose]
  | case3 escaped c cs hopen ih =>
    obtain ⟨⟨body', rest'⟩, hbody, heq⟩ := Option.map_eq_some_iff.mp h
    cases heq
    rw [hasLoneColon_cons (by simp), stringAfter, if_neg hopen, ih hbody]

theorem hasLoneColon_cons_blank {c : Char} (hc : isBlank c = true) :
    hasLoneColon none (c :: cs) = hasLoneColon none cs := by
  have hcolon : c ≠ ':' := by
    rintro rfl
    cases hc
  rw [hasLoneColon_cons fun _ => hcolon, stringAfter, isQuote_of_isBlank hc]
  rfl

/-- In a text without a lone colon, no lexeme is one, and the text goes on without one. -/
theorem Lexes.hasLoneColon (h : Lexes offset cs t next rest)
    (hcolons : hasLoneColon none cs = false) :
    t.kind ≠ .label ∧ Scan.hasLoneColon none rest = false := by
  cases h with
  | @string quote cs rest close hquote hclose =>
    rw [closingQuote?_eq hquote, Option.map_eq_some_iff] at hclose
    obtain ⟨⟨body, rest'⟩, hbody, heq⟩ := hclose
    cases heq
    have hcolon : quote ≠ ':' := by
      rintro rfl
      cases hquote
    rw [hasLoneColon_cons fun _ => hcolon, stringAfter, if_pos hquote,
      hasLoneColon_of_stringBody? hbody] at hcolons
    exact ⟨by simp, hcolons⟩
  | cast => exact ⟨by simp, hcolons⟩
  | @label rest hrest =>
    rw [hasLoneColon_lone hrest] at hcolons
    cases hcolons
  | @mark kind c rest hkind =>
    obtain ⟨-, hquote, hcolon⟩ := classes_of_markKind? hkind
    rw [hasLoneColon_cons fun _ => hcolon, stringAfter, hquote] at hcolons
    exact ⟨(kind_ne_of_markKind? hkind).1, hcolons⟩
  | @operator c cs length hc hlength hpos =>
    obtain ⟨-, hchars⟩ := take_operatorLength (c :: cs)
    rw [hlength] at hchars
    have hcs : (c :: cs).take length ++ cs.drop (length - 1) = c :: cs := by
      obtain ⟨n, rfl⟩ := Nat.exists_eq_succ_of_ne_zero (Nat.pos_iff_ne_zero.mp hpos)
      simp
    refine ⟨by simp, ?_⟩
    rw [← hcolons, ← hcs]
    refine (hasLoneColon_append fun d hd => ?_).symm
    obtain ⟨-, hquote, hcolon, -⟩ := classes_of_mem_operatorChars (hchars d hd)
    exact ⟨hquote, hcolon⟩
  | @run kind cs rest hcs =>
    refine ⟨by rcases hcs.kind_eq with rfl | rfl <;> simp, ?_⟩
    rw [← hcolons]
    refine (hasLoneColon_append fun d hd => ⟨isQuote_of_isRun hcs d hd, ?_⟩).symm
    rintro rfl
    obtain ⟨c, run, rfl, hc, hrun⟩ := hcs
    rcases List.mem_cons.mp hd with rfl | hd
    · cases hc
    · exact absurd (hrun _ hd) (by decide)

/-! ## Other tokens before a text -/

theorem endsBlank_cons (ht : t.isSignificant = false)
    (hbase : base.any Token.isSignificant = true) : EndsBlank (t :: base) where
  head := by
    rintro _ ⟨⟩
    exact ht
  significant := by rw [List.any_cons, hbase, Bool.or_true]

theorem addBlank_rebase (hbase : EndsBlank base) (hbase' : EndsBlank base') (start stop : Nat)
    (more : List Token) :
    ∃ more', addBlank start stop (more ++ base) = more' ++ base ∧
      addBlank start stop (more ++ base') = more' ++ base' := by
  rcases eq_or_ne more [] with rfl | hmore
  · exact ⟨[], addBlank_of_head hbase.head start stop, addBlank_of_head hbase'.head start stop⟩
  · exact ⟨_, addBlank_append hmore start stop, addBlank_append hmore start stop⟩

theorem Scans.rebase (h : Scans offset done cs stop last rest) (hdone : done = more ++ base)
    (hcolons : hasLoneColon none cs = false) (hbase : EndsBlank base) (hbase' : EndsBlank base') :
    hasLoneColon none rest = false ∧ ∃ more', last = more' ++ base ∧
      Scans offset (more ++ base') cs stop (more' ++ base') rest := by
  induction h generalizing more with
  | refl => exact ⟨hcolons, more, hdone, .refl⟩
  | @blank offset done c _ _ _ _ hc _ ih =>
    subst hdone
    rw [hasLoneColon_cons_blank hc] at hcolons
    obtain ⟨lead, hlead, hlead'⟩ := addBlank_rebase hbase hbase' offset (offset + c.utf8Size) more
    obtain ⟨hrest, more', hlast, hscans⟩ := ih hlead hcolons
    rw [← hlead'] at hscans
    exact ⟨hrest, more', hlast, .blank hc hscans⟩
  | @token _ _ _ t _ _ _ _ _ hlexes _ _ ih =>
    subst hdone
    obtain ⟨hkind, hmid⟩ := hlexes.hasLoneColon hcolons
    obtain ⟨hrest, more', hlast, hscans⟩ := ih (List.cons_append ..).symm hmid
    have hallows : Allows (more ++ base') t :=
      ⟨fun _ => by simp [hbase'.significant], fun h => absurd h hkind⟩
    exact ⟨hrest, more', hlast, .token hlexes hallows hscans⟩

theorem Rejects.rebase (h : Rejects offset (more ++ base) cs fault)
    (hcolons : hasLoneColon none cs = false) (hbase : EndsBlank base) :
    Rejects offset (more ++ base') cs fault := by
  cases h with
  | unterminated hquote hclose => exact .unterminated hquote hclose
  | emptyLabel hdone => simp [hbase.significant] at hdone
  | repeatedLabel _ _ hcs =>
    rw [hasLoneColon_lone hcs] at hcolons
    cases hcolons
  | unrecognized hblank hquote hcolon hmark hoperator hrun =>
    exact .unrecognized hblank hquote hcolon hmark hoperator hrun

/-- A text without a lone colon is scanned to the same tokens, or rejected with the same fault,
after any tokens that end with a blank. -/
theorem scanFrom_rebase (offset : Nat) (hcolons : hasLoneColon none cs = false)
    (hbase : EndsBlank base) (hbase' : EndsBlank base') :
    (∃ more, scanFrom offset base cs = .ok (more ++ base) ∧
        scanFrom offset base' cs = .ok (more ++ base')) ∨
      ∃ fault, scanFrom offset base cs = .error fault ∧
        scanFrom offset base' cs = .error fault := by
  cases hscan : scanFrom offset base cs with
  | ok tokens =>
    obtain ⟨stop, last, hscans, rfl⟩ := exists_scans hscan
    obtain ⟨-, more, rfl, hscans'⟩ := hscans.rebase (List.nil_append _).symm hcolons hbase hbase'
    obtain ⟨more', hmore, hmore'⟩ := addBlank_rebase hbase hbase' stop stop more
    refine .inl ⟨more', congrArg Except.ok hmore, ?_⟩
    rw [← List.nil_append base', hscans'.scanFrom_eq, scanFrom, hmore', List.nil_append]
  | error fault =>
    obtain ⟨stop, last, rest, hscans, hrejects⟩ := exists_rejects hscan
    obtain ⟨hrest, more, rfl, hscans'⟩ :=
      hscans.rebase (List.nil_append _).symm hcolons hbase hbase'
    refine .inr ⟨fault, rfl, ?_⟩
    rw [← List.nil_append base', hscans'.scanFrom_eq]
    exact (hrejects.rebase hrest hbase).scanFrom_eq

theorem scanFrom_rebase_moved {φ : Nat → Nat} {offset' : Nat} (hφ : Shifts φ offset offset')
    (hoffset : 0 < offset) (hoffset' : 0 < offset') (hcolons : hasLoneColon none cs = false)
    (hbase : EndsBlank base) (hbase' : EndsBlank base') :
    (∃ more, scanFrom offset base cs = .ok (more ++ base) ∧
        scanFrom offset' base' cs = .ok (more.map (Token.moved φ) ++ base') ∧
        (∀ t ∈ more, Lies t offset (offset + Text.byteSize cs)) ∧
        ∀ t ∈ more.head?, t.isSignificant = false) ∨
      ∃ fault, scanFrom offset base cs = .error fault ∧
        scanFrom offset' base' cs = .error (fault.moved φ) := by
  have hrebase := scanFrom_rebase offset hcolons hbase' hbase
  rcases scanFrom_moved hφ hoffset hoffset' hbase'.head cs with
    ⟨more, hsame, hmoved, hlies, hlast⟩ | ⟨fault, hsame, hmoved⟩
  · obtain ⟨more', hmore, hscan⟩ | ⟨_, hfault, -⟩ := hrebase
    · obtain rfl : more' = more := List.append_cancel_right (Except.ok.inj (hmore.symm.trans hsame))
      refine .inl ⟨more', hscan, hmoved, hlies, fun t ht => hlast t ?_⟩
      rw [List.head?_append, Option.mem_def.mp ht]
      rfl
    · cases hfault.symm.trans hsame
  · obtain ⟨_, hmore, -⟩ | ⟨fault', hfault, hscan⟩ := hrebase
    · cases hmore.symm.trans hsame
    · obtain rfl : fault' = fault := Except.error.inj (hfault.symm.trans hsame)
      exact .inr ⟨fault', hscan, hmoved⟩

end Scan

end MacroAsm
