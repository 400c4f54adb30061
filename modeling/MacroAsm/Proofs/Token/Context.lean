import MacroAsm.Proofs.Token.Lexes

/-!
# Scanning a text in a line

What a text is scanned to depends little on the line around it. A run over lexemes (`Scan.Scans`)
goes the same way if other text follows it (`Scans.append`), as long as that text does not go on
with the last lexeme. And it goes the same way if other tokens come before it (`Scans.onto`), as
long as these allow the same colons; only the blanks at its start may leave a mark in one place and
none in another (`Scans.onto_blank`).
-/

namespace MacroAsm

namespace Scan

open Text (byteSize)

/-! ## Runs over lexemes -/

/-- A run over lexemes: from an offset, the tokens before it and the text after it to those where
the run stops. -/
inductive Scans :
    Nat → List Token → List Char → Nat → List Token → List Char → Prop
  | refl {offset done cs} : Scans offset done cs offset done cs
  | blank {offset done c cs stop last rest} (hc : isBlank c = true)
      (h : Scans (offset + c.utf8Size) (addBlank offset (offset + c.utf8Size) done) cs
        stop last rest) :
      Scans offset done (c :: cs) stop last rest
  | token {offset done cs t next mid stop last rest} (hlexes : Lexes offset cs t next mid)
      (hallows : Allows done t) (h : Scans next (t :: done) mid stop last rest) :
      Scans offset done cs stop last rest

variable {offset next stop close : Nat} {done last base base' front tokens : List Token}
  {b t : Token} {c quote : Char} {cs rest tail : List Char} {escaped : Bool}

theorem Scans.scanFrom_eq (h : Scans offset done cs stop last rest) :
    scanFrom offset done cs = scanFrom stop last rest := by
  induction h with
  | refl => rfl
  | blank hc _ ih => rw [scanFrom_cons_blank hc, ih]
  | token hlexes hallows _ ih => rw [hlexes.scanFrom_eq hallows, ih]

theorem exists_scans (hscan : scanFrom offset done cs = .ok tokens) :
    ∃ stop last, Scans offset done cs stop last [] ∧ tokens = addBlank stop stop last := by
  have hends : ∀ tokens, scanFrom offset done cs = .ok tokens →
      ∃ stop last, Scans offset done cs stop last [] ∧ tokens = addBlank stop stop last := by
    refine lexeme_induction (motive := fun offset done cs result => ∀ tokens,
      result = .ok tokens →
        ∃ stop last, Scans offset done cs stop last [] ∧ tokens = addBlank stop stop last)
      ?nil ?blank ?token ?fault
    case nil =>
      rintro offset done _ ⟨⟩
      exact ⟨offset, done, .refl, rfl⟩
    case blank =>
      intro offset done c cs result hc ih tokens htokens
      obtain ⟨stop, last, hscans, rfl⟩ := ih tokens htokens
      exact ⟨stop, last, .blank hc hscans, rfl⟩
    case token =>
      intro offset done cs t next rest result hlexes hallows ih tokens htokens
      obtain ⟨stop, last, hscans, rfl⟩ := ih tokens htokens
      exact ⟨stop, last, .token hlexes hallows hscans, rfl⟩
    case fault => simp
  exact hends tokens hscan

theorem Scans.size (h : Scans offset done cs stop last rest) :
    stop + byteSize rest = offset + byteSize cs := by
  induction h with
  | refl => rfl
  | blank _ _ ih => rw [ih, Text.byteSize_cons, Nat.add_assoc]
  | token hlexes _ _ ih => rw [ih, hlexes.size]

theorem Scans.le (h : Scans offset done cs stop last rest) : offset ≤ stop := by
  induction h with
  | refl => exact Nat.le_refl _
  | blank _ _ ih => exact Nat.le_trans (Nat.le_add_right ..) ih
  | token hlexes _ _ ih => exact Nat.le_trans hlexes.lt.le ih

theorem Scans.trans {stop' : Nat} {last' : List Token} {rest' : List Char}
    (h : Scans offset done cs stop last rest) (h' : Scans stop last rest stop' last' rest') :
    Scans offset done cs stop' last' rest' := by
  induction h with
  | refl => exact h'
  | blank hc _ ih => exact .blank hc (ih h')
  | token hlexes hallows _ ih => exact .token hlexes hallows (ih h')

/-! ## Other text after a run -/

/-- The text does not go on with a lexeme before it. -/
def Ends (tail : List Char) : Prop :=
  ∀ c ∈ tail.head?, continuesRun c = false ∧ c ∉ operatorChars ∧ c ≠ ':'

theorem ends_of_mark {kind : TokenKind} (hc : markKind? c = some kind) : Ends (c :: tail) := by
  rintro _ ⟨⟩
  unfold markKind? at hc
  split at hc <;> first | decide | cases hc

theorem closingQuote?_append (h : closingQuote? quote escaped offset cs = some (close, rest)) :
    closingQuote? quote escaped offset (cs ++ tail) = some (close, rest ++ tail) := by
  fun_induction closingQuote? quote escaped offset cs with
  | case1 => cases h
  | case2 escaped offset cs ih => simpa [closingQuote?] using ih h
  | case3 escaped offset c cs hback hquote =>
    cases h
    simp [closingQuote?, hback, hquote]
  | case4 escaped offset c cs hback hquote ih => simpa [closingQuote?, hback, hquote] using ih h

theorem Lexes.append (h : Lexes offset cs t next rest) (htail : Ends tail) :
    Lexes offset (cs ++ tail) t next (rest ++ tail) := by
  cases h with
  | string hquote hclose => exact .string hquote (closingQuote?_append hclose)
  | cast => exact .cast
  | label hrest =>
    apply Lexes.label
    cases rest with
    | nil => exact fun c hc => (htail c hc).2.2
    | cons => exact hrest
  | mark hkind => exact .mark hkind
  | @operator c cs length hc hlength hpos =>
    have hdrop : cs.drop (length - 1) ++ tail = (cs ++ tail).drop (length - 1) := by
      have hle : length - 1 ≤ cs.length := by
        have htake := (take_operatorLength (c :: cs)).1
        rw [hlength, List.length_take, List.length_cons] at htake
        omega
      rw [List.drop_append_of_le_length hle]
    have hsame : operatorLength (c :: (cs ++ tail)) = length := by
      rw [← List.cons_append, operatorLength_append fun c hc => (htail c hc).2.1, hlength]
    rw [hdrop]
    exact .operator hc hsame hpos
  | @run kind cs rest hcs hrest =>
    rw [List.append_assoc]
    apply Lexes.run hcs
    cases rest with
    | nil => exact fun c hc => (htail c hc).1
    | cons => exact hrest

theorem Scans.append (h : Scans offset done cs stop last rest) (htail : Ends tail) :
    Scans offset done (cs ++ tail) stop last (rest ++ tail) := by
  induction h with
  | refl => exact .refl
  | blank hc _ ih => exact .blank hc ih
  | token hlexes hallows _ ih => exact .token (hlexes.append htail) hallows ih

/-! ## Other tokens before a run -/

/-- Tokens that allow the same colons after them. -/
structure Alike (base base' : List Token) : Prop where
  significant : base.any Token.isSignificant = base'.any Token.isSignificant
  labelled : isLabelled base = isLabelled base'

theorem Alike.append (h : Alike base base') (front : List Token) :
    Alike (front ++ base) (front ++ base') where
  significant := by rw [List.any_append, List.any_append, h.significant]
  labelled := by
    have hlabelled := h.labelled
    unfold isLabelled at hlabelled ⊢
    rw [List.any_append, List.any_append, hlabelled]

theorem Alike.allows (h : Alike base base') (hallows : Allows base t) : Allows base' t where
  significant hkind := h.significant ▸ hallows.significant hkind
  label hkind := h.labelled ▸ hallows.label hkind

theorem addBlank_append (hfront : front ≠ []) (start stop : Nat) :
    addBlank start stop (front ++ base) = addBlank start stop front ++ base := by
  obtain ⟨t, front, rfl⟩ := List.exists_cons_of_ne_nil hfront
  have hcandidate : isLabelCandidate start (t :: front ++ base) =
      isLabelCandidate start (t :: front) := by
    unfold isLabelCandidate
    split <;> simp_all
  have hhead : (t :: front ++ base).head? = (t :: front).head? := rfl
  rw [addBlank, addBlank, hcandidate, hhead]
  split
  · rfl
  · split <;> rfl

theorem Lies.mono {offset' next' : Nat} (h : Lies t offset next) (hoffset : offset' ≤ offset)
    (hnext : next ≤ next') : Lies t offset' next' :=
  ⟨Nat.le_trans hoffset h.start, h.stop, Nat.le_trans h.next hnext⟩

theorem addBlank_eq_or (start stop : Nat) (done : List Token) :
    addBlank start stop done = done ∨
      ∃ t : Token, (t.kind = .blank ∨ t.kind = .impliedLabel) ∧ t.start = start ∧
        t.stop = stop ∧ addBlank start stop done = t :: done := by
  unfold addBlank
  split
  · exact .inr ⟨_, .inr rfl, rfl, rfl, rfl⟩
  · split
    · exact .inr ⟨_, .inl rfl, rfl, rfl, rfl⟩
    · exact .inl rfl

theorem mem_addBlank {start : Nat} (h : t ∈ addBlank start stop done) :
    t ∈ done ∨
      (t.kind = .blank ∨ t.kind = .impliedLabel) ∧ t.start = start ∧ t.stop = stop := by
  rcases addBlank_eq_or start stop done with heq | ⟨u, hkind, hstart, hstop, heq⟩
  · exact .inl (heq ▸ h)
  · rw [heq] at h
    rcases List.mem_cons.mp h with rfl | h
    · exact .inr ⟨hkind, hstart, hstop⟩
    · exact .inl h

/-- A run adds the same tokens on top of others, once it has added one. -/
theorem Scans.onto (h : Scans offset done cs stop last rest) (hdone : done = front ++ base)
    (hfront : front ≠ []) (hbase : Alike base base') :
    ∃ more, last = more ++ base ∧ (∀ t ∈ more, t ∈ front ∨ Lies t offset stop) ∧
      Scans offset (front ++ base') cs stop (more ++ base') rest := by
  induction h generalizing front with
  | refl => exact ⟨front, hdone, fun t ht => .inl ht, .refl⟩
  | @blank offset done c cs stop last rest hc h ih =>
    have hblank : ∀ base, addBlank offset (offset + c.utf8Size) (front ++ base) =
        addBlank offset (offset + c.utf8Size) front ++ base := fun base =>
      addBlank_append hfront _ _
    have hne : addBlank offset (offset + c.utf8Size) front ≠ [] := by
      unfold addBlank
      split
      · simp
      · split
        · simp
        · exact hfront
    obtain ⟨more, hlast, hlies, hscans⟩ := ih (by rw [hdone, hblank]) hne
    refine ⟨more, hlast, fun t ht => ?_, .blank hc (by rwa [hblank])⟩
    rcases hlies t ht with ht | ht
    · rcases mem_addBlank ht with ht | ⟨-, hstart, hstop⟩
      · exact .inl ht
      · exact .inr ⟨hstart.ge, by omega, hstop ▸ h.le⟩
    · exact .inr (ht.mono (Nat.le_add_right ..) (Nat.le_refl _))
  | @token offset done cs t next mid stop last rest hlexes hallows h ih =>
    subst hdone
    obtain ⟨more, hlast, hlies, hscans⟩ := ih (List.cons_append ..).symm (List.cons_ne_nil t front)
    refine ⟨more, hlast, fun u hu => ?_, .token hlexes ((hbase.append front).allows hallows) hscans⟩
    rcases hlies u hu with hu | hu
    · rcases List.mem_cons.mp hu with rfl | hu
      · exact .inr (hlexes.lies.mono (Nat.le_refl _) h.le)
      · exact .inl hu
    · exact .inr (hu.mono hlexes.lt.le (Nat.le_refl _))

theorem addBlank_of_blank {start : Nat} (hb : b.kind = .blank) :
    addBlank start stop (b :: done) = b :: done := by
  obtain ⟨kind, bstart, bstop⟩ := b
  subst hb
  simp [addBlank, isLabelCandidate, Token.isSignificant, TokenKind.isSignificant]

theorem exists_addBlank (start stop : Nat) (hdone : ∀ t ∈ done, 0 < t.start) :
    ∃ lead, addBlank start stop done = lead ++ done ∧
      ∀ t ∈ lead, t.kind = .blank ∧ t.start = start := by
  have hcandidate : isLabelCandidate start done = false := by
    unfold isLabelCandidate
    split
    · exact absurd (hdone _ (List.mem_cons_self ..)) (Nat.lt_irrefl 0)
    · rfl
  rw [addBlank, hcandidate]
  split
  · contradiction
  · split
    · exact ⟨[_], rfl, by simp⟩
    · exact ⟨[], rfl, by simp⟩

theorem Alike.blanks {lead : List Token} (h : Alike base base')
    (hlead : ∀ t ∈ lead, t.kind = .blank) : Alike base (lead ++ base') where
  significant := by
    have hnone : lead.any Token.isSignificant = false := by
      rw [List.any_eq_false]
      intro t ht
      simp [Token.isSignificant, hlead t ht, TokenKind.isSignificant]
    rw [List.any_append, hnone, Bool.false_or, h.significant]
  labelled := by
    have hnone : isLabelled lead = false := by
      rw [isLabelled, List.any_eq_false]
      intro t ht
      simp [hlead t ht]
    have hlabelled : isLabelled (lead ++ base') = (isLabelled lead || isLabelled base') :=
      List.any_append
    rw [hlabelled, hnone, Bool.false_or, h.labelled]

/-- A run after blanks adds the same tokens on top of others, but for the blanks that the blanks at
its start may leave there. -/
theorem Scans.onto_blank (h : Scans offset done cs stop last rest) (hdone : done = b :: base)
    (hb : b.kind = .blank) (hbase : Alike (b :: base) base') (hstart : ∀ t ∈ base', 0 < t.start)
    (hoffset : 0 < offset) :
    ∃ more lead, last = more ++ done ∧ (∀ t ∈ more, Lies t offset stop) ∧
      (∀ t ∈ lead, t.kind = .blank) ∧
      Scans offset base' cs stop (more ++ (lead ++ base')) rest := by
  induction h generalizing base' with
  | refl => exact ⟨[], [], rfl, by simp, by simp, .refl⟩
  | @blank offset done c cs stop last rest hc h ih =>
    subst hdone
    rw [addBlank_of_blank hb] at ih
    obtain ⟨first, hnew, hfirst⟩ := exists_addBlank offset (offset + c.utf8Size) hstart
    have hblank : ∀ t ∈ first, t.kind = .blank := fun t ht => (hfirst t ht).1
    have hstart' : ∀ t ∈ first ++ base', 0 < t.start := by
      rw [List.forall_mem_append]
      exact ⟨fun t ht => (hfirst t ht).2 ▸ hoffset, hstart⟩
    obtain ⟨more, lead, hlast, hlies, hlead, hscans⟩ :=
      ih rfl (hbase.blanks hblank) hstart' (Nat.add_pos_left hoffset _)
    refine ⟨more, lead ++ first, hlast, fun t ht => ?_, ?_, .blank hc ?_⟩
    · exact (hlies t ht).mono (Nat.le_add_right ..) (Nat.le_refl _)
    · exact List.forall_mem_append.mpr ⟨hlead, hblank⟩
    · rwa [hnew, List.append_assoc]
  | @token offset done cs t next mid stop last rest hlexes hallows h ih =>
    subst hdone
    obtain ⟨more, hlast, hlies, hscans⟩ :=
      h.onto List.singleton_append.symm (List.cons_ne_nil t []) hbase
    refine ⟨more, [], hlast, fun u hu => ?_, by simp, .token hlexes (hbase.allows hallows) hscans⟩
    rcases hlies u hu with hu | hu
    · rw [List.mem_singleton.mp hu]
      exact hlexes.lies.mono (Nat.le_refl _) h.le
    · exact hu.mono hlexes.lt.le (Nat.le_refl _)

/-! ## Lines -/

theorem Scans.inner (h : Scans offset done cs stop last rest) (hoffset : 0 < offset)
    (hdone : ∀ t ∈ done, 0 < t.start ∧ t.kind ≠ .impliedLabel) :
    ∀ t ∈ last, 0 < t.start ∧ t.kind ≠ .impliedLabel := by
  induction h with
  | refl => exact hdone
  | @blank offset done c cs stop last rest hc h ih =>
    apply ih (Nat.add_pos_left hoffset _)
    obtain ⟨lead, hnew, hlead⟩ := exists_addBlank offset (offset + c.utf8Size)
      fun t ht => (hdone t ht).1
    rw [hnew, List.forall_mem_append]
    refine ⟨fun t ht => ?_, hdone⟩
    obtain ⟨hkind, hstart⟩ := hlead t ht
    exact ⟨hstart ▸ hoffset, by simp [hkind]⟩
  | token hlexes hallows h ih =>
    apply ih (Nat.lt_trans hoffset hlexes.lt)
    exact List.forall_mem_cons.mpr
      ⟨⟨Nat.lt_of_lt_of_le hoffset hlexes.lies.start, hlexes.kind_ne⟩, hdone⟩

/-- A token of a line whose label is settled. -/
def settle (labelled : Bool) (t : Token) : Token :=
  if labelled && t.kind = .impliedLabel then { t with kind := .blank } else t

theorem settleLabel_eq_map (tokens : List Token) :
    settleLabel tokens = tokens.map (settle (isLabelled tokens)) := by
  unfold settleLabel
  split
  next h =>
    refine List.map_congr_left fun t _ => ?_
    simp [settle, h]
  next h =>
    refine ((List.map_congr_left fun t _ => ?_).trans (List.map_id tokens)).symm
    simp [settle, h]

@[simp] theorem settle_start (labelled : Bool) (t : Token) :
    (settle labelled t).start = t.start := by
  unfold settle
  split <;> rfl

@[simp] theorem settle_stop (labelled : Bool) (t : Token) :
    (settle labelled t).stop = t.stop := by
  unfold settle
  split <;> rfl

theorem settle_of_ne (labelled : Bool) (h : t.kind ≠ .impliedLabel) : settle labelled t = t := by
  simp [settle, h]

theorem map_settle (labelled : Bool) (h : ∀ t ∈ tokens, t.kind ≠ .impliedLabel) :
    tokens.map (settle labelled) = tokens :=
  (List.map_congr_left fun t ht => settle_of_ne labelled (h t ht)).trans (List.map_id _)

theorem settleLabel_eq (h : ∀ t ∈ tokens, t.kind ≠ .impliedLabel) :
    settleLabel tokens = tokens :=
  (settleLabel_eq_map tokens).trans (map_settle _ h)

theorem mem_settleLabel_of_mem (h : t ∈ tokens) (hkind : t.kind ≠ .impliedLabel) :
    t ∈ settleLabel tokens := by
  rw [settleLabel_eq_map, ← settle_of_ne (isLabelled tokens) hkind]
  exact List.mem_map_of_mem h

theorem scanFrom_start (line : List Char) : scanFrom 0 [] (' ' :: line) = scanFrom 1 [] line := by
  have hblank : isBlank ' ' = true ∧ ' '.utf8Size = 1 := by decide
  rw [scanFrom.eq_def]
  simp [hblank, addBlank, isLabelCandidate]

theorem scan_of_scanFrom {line : List Char} (hstart : scanFrom 0 [] line = scanFrom offset [] cs)
    (hoffset : 0 < offset) : scan line = (scanFrom offset [] cs).map List.reverse := by
  rw [scan, hstart]
  cases hscan : scanFrom offset [] cs with
  | error => rfl
  | ok tokens =>
    obtain ⟨stop, last, hscans, rfl⟩ := exists_scans hscan
    have hinner := hscans.inner hoffset (by simp)
    obtain ⟨lead, hnew, hlead⟩ := exists_addBlank stop stop
      fun t ht => (hinner t ht).1
    have hkinds : ∀ t ∈ (addBlank stop stop last).reverse, t.kind ≠ .impliedLabel := by
      intro t ht
      rw [List.mem_reverse, hnew, List.mem_append] at ht
      rcases ht with ht | ht
      · simp [(hlead t ht).1]
      · exact (hinner t ht).2
    exact congrArg Except.ok (settleLabel_eq hkinds)

theorem scan_cons_blank (cs : List Char) :
    scan (' ' :: cs) = (scanFrom 1 [] cs).map List.reverse :=
  scan_of_scanFrom (scanFrom_start cs) Nat.one_pos

end Scan

end MacroAsm
