import MacroAsm.Proofs.Fold.Sound
import MacroAsm.Proofs.Reader.Blanks
import MacroAsm.Proofs.Scope.Matching
import MacroAsm.Proofs.Token.Cover

/-!
# What a fault points at

`Fault.culprit` is the text that a fault blames. `Reader.line_culprit`: if a fault of a line has an
offset, it is a character boundary inside the line, and the culprit is there.

The scanner is at fault for the character that it has read up to (`Scan.Rejects.exists_culprit`).
The nesting is at fault for a token, whose text stands at its start, or for the token of a bracket
that is open. Only a numeral can be more than one token: a dot and a number that are glued to it
stand right behind it in the line (`Piece.append`).
-/

namespace MacroAsm

open Text (byteSize)

/-- The text that a fault blames, if it has an offset. -/
def Fault.culprit : Fault → List Char
  | unrecognized c _ => [c]
  | unterminated _ => []
  | emptyLabel _ => [':']
  | repeatedLabel _ => [':']
  | strayParen _ => [')']
  | strayBracket _ => [']']
  | unknownOperator symbol _ => symbol.toList
  | unresolved => []
  | badArgument _ _ => [',']
  | unclosed bracket _ => [bracket]
  | badNumeral text _ _ => text.toList

/-- The text is what the line has between two byte offsets. -/
def Piece (line : List Char) (start stop : Nat) (text : List Char) : Prop :=
  ∃ before after, line = before ++ text ++ after ∧ start = byteSize before ∧
    stop = byteSize (before ++ text)

/-- The fault has its culprit at its offset in the line. -/
def Fault.PointsIn (line : List Char) (fault : Fault) : Prop :=
  ∀ offset ∈ fault.offset?, fault.culprit ≠ [] ∧
    ∃ before after, line = before ++ fault.culprit ++ after ∧ offset = byteSize before

variable {line text text' cs : List Char} {start mid stop offset : Nat} {t : Token}
  {tokens done back : List Token} {fault : Fault} {read : NumeralReader}

/-! ## Pieces of a line -/

theorem eq_of_byteSize_eq {front front' : List Char} (h : front ++ text = front' ++ text')
    (hsize : byteSize front = byteSize front') : front = front' ∧ text = text' := by
  induction front generalizing front' with
  | nil =>
    cases front' with
    | nil => exact ⟨rfl, h⟩
    | cons c front' =>
      have := c.utf8Size_pos
      simp at hsize
      omega
  | cons c front ih =>
    cases front' with
    | nil =>
      have := c.utf8Size_pos
      simp at hsize
      omega
    | cons c' front' =>
      obtain ⟨rfl, hrest⟩ := List.cons.inj h
      rw [Text.byteSize_cons, Text.byteSize_cons, Nat.add_left_cancel_iff] at hsize
      obtain ⟨rfl, htext⟩ := ih hrest hsize
      exact ⟨rfl, htext⟩

/-- Where one piece ends, the next one goes on. -/
theorem Piece.append (h : Piece line start mid text) (h' : Piece line mid stop text') :
    Piece line start stop (text ++ text') := by
  obtain ⟨before, after, hline, hstart, hmid⟩ := h
  obtain ⟨before', after', hline', hmid', hstop⟩ := h'
  rw [List.append_assoc] at hline'
  obtain ⟨rfl, -⟩ := eq_of_byteSize_eq (hline.symm.trans hline') (hmid.symm.trans hmid')
  exact ⟨before, after', by simp [hline'], hstart, by simpa using hstop⟩

theorem Piece.cutLine_eq (h : Piece line start stop text) :
    (cutLine line start stop).toList = text := by
  obtain ⟨before, after, rfl, rfl, rfl⟩ := h
  rw [cutLine, String.toList_ofList, Text.byteSize_append, Text.slice_append]

theorem Token.Spells.exists_piece (h : t.Spells line) :
    ∃ text, Piece line t.start t.stop text ∧
      ∃ before after, t.kind.Spells before text after := by
  obtain ⟨before, text, after, hline, hstart, hstop, hspells⟩ := h
  exact ⟨text, ⟨before, after, hline, hstart, hstop⟩, before, after, hspells⟩

/-! ## Faults of characters -/

/-- What is rejected starts with the culprit. -/
theorem Scan.Rejects.exists_culprit (h : Rejects offset done cs fault)
    (hfault : fault.offset?.isSome) :
    fault.culprit ≠ [] ∧ ∃ rest, cs = fault.culprit ++ rest := by
  cases h with
  | unterminated => cases hfault
  | _ => exact ⟨List.cons_ne_nil _ _, _, rfl⟩

theorem pointsIn_of_scan (h : scan line = .error fault) : fault.PointsIn line := by
  unfold scan at h
  obtain ⟨stop, last, cs, hscans, hrejects⟩ :=
    Scan.exists_rejects (Nest.error_of_map_eq_error h)
  have hstart : Scan.ReadTo line 0 [] line := ⟨[], rfl, rfl, by simp, by simp⟩
  obtain ⟨before, hline, hstop, -, -⟩ := hscans.readTo hstart
  intro offset hoffset
  obtain ⟨hne, rest, hcs⟩ := hrejects.exists_culprit (Option.isSome_of_mem hoffset)
  obtain rfl := hrejects.offset?_eq offset hoffset
  exact ⟨hne, before, rest, by rw [hline, hcs, List.append_assoc], hstop⟩

/-! ## Faults of structure -/

namespace Nest

theorem pointsIn_of_piece (h : Piece line start stop text) (hne : text ≠ [])
    (hoffset : fault.offset? = some start) (hculprit : fault.culprit = text) :
    fault.PointsIn line := by
  subst hculprit
  obtain ⟨before, after, hline, hstart, -⟩ := h
  intro offset hmem
  obtain rfl : start = offset := Option.some.inj (hoffset.symm.trans hmem)
  exact ⟨hne, before, after, hline, hstart⟩

theorem eq_of_addToken_badNumeral {cut : Nat → Nat → String} {n : Nesting} {atHead : Bool}
    {before : Option Token} {text : String} {cause : NumeralFault}
    (h : addToken cut read n atHead before t back = .error (.badNumeral text cause offset)) :
    t.kind = .number ∧ text = cut t.start (numeralEnd t back).1 := by
  have hkind : t.kind = .number := by cases tokenFault_of_addToken h; assumption
  refine ⟨hkind, ?_⟩
  unfold addToken at h
  rw [hkind] at h
  simp only at h
  split at h <;> cases h
  rfl

theorem exists_piece_of_numeralEnd (ht : t.kind = .number) (hspells : ∀ u ∈ t :: back, u.Spells line) :
    ∃ text, text ≠ [] ∧ Piece line t.start (numeralEnd t back).1 text := by
  obtain ⟨text, hpiece, before, after, htext⟩ := (hspells t (by simp)).exists_piece
  have hne : text ≠ [] := by
    rw [ht] at htext
    cases htext with
    | number => simp
    | blank hkind => simp at hkind
    | atEnd hkind => simp at hkind
  unfold numeralEnd
  split
  · next dot fraction back =>
    split
    · next hglued =>
      simp only [Bool.and_eq_true, decide_eq_true_eq] at hglued
      obtain ⟨⟨-, hdot⟩, hfraction⟩ := hglued
      obtain ⟨point, hpoint, -⟩ := (hspells dot (by simp)).exists_piece
      obtain ⟨places, hplaces, -⟩ := (hspells fraction (by simp)).exists_piece
      rw [hdot] at hpoint
      rw [hfraction] at hplaces
      exact ⟨_, by simp [hne], (hpiece.append hpoint).append hplaces⟩
    · exact ⟨text, hne, hpiece⟩
  · exact ⟨text, hne, hpiece⟩

/-- The fault of a token has its culprit at the start of that token. -/
theorem pointsIn_of_addToken {n : Nesting} {atHead : Bool} {before : Option Token}
    (h : addToken (cutLine line) read n atHead before t back = .error fault)
    (hspells : ∀ u ∈ t :: back, u.Spells line) : fault.PointsIn line := by
  have hoffset := offset?_of_addToken h
  obtain ⟨text, hpiece, front, after, htext⟩ := (hspells t (by simp)).exists_piece
  cases tokenFault_of_addToken h with
  | strayParen hkind | strayBracket hkind | commaOutsideCall hkind | strayDot hkind =>
    rw [hkind] at htext
    cases htext with
    | blank hblank => simp at hblank
    | atEnd hblank => simp at hblank
    | _ => exact pointsIn_of_piece hpiece (List.cons_ne_nil _ _) hoffset rfl
  | unknownSymbol hkind =>
    rw [hkind] at htext
    cases htext with
    | operator hne => exact pointsIn_of_piece hpiece hne hoffset hpiece.cutLine_eq
    | blank hblank => simp at hblank
    | atEnd hblank => simp at hblank
  | badNumeral hkind =>
    obtain ⟨-, rfl⟩ := eq_of_addToken_badNumeral h
    obtain ⟨text, hne, hpiece⟩ := exists_piece_of_numeralEnd hkind hspells
    exact pointsIn_of_piece hpiece hne hoffset hpiece.cutLine_eq

theorem pointsIn_of_closeAll {opens : List Token} {n : Nesting} (h : Wrote opens tokens n)
    (hclose : Nesting.closeAll n.items n.frames = .error fault)
    (hspells : ∀ u ∈ tokens, u.Spells line) : fault.PointsIn line := by
  obtain ⟨front, o, back, -, bracket, -, rfl, -, ho, rfl⟩ := h.exists_unclosed hclose
  obtain ⟨text, hpiece, before, after, htext⟩ := (hspells o (by simp)).exists_piece
  rcases ho with ⟨hkind, rfl⟩ | ⟨hkind, rfl⟩ <;> rw [hkind] at htext <;> cases htext with
  | blank hblank => simp at hblank
  | atEnd hblank => simp at hblank
  | _ => exact pointsIn_of_piece hpiece (List.cons_ne_nil _ _) rfl rfl

theorem pointsIn_of_ofTokens
    (h : Scope.ofTokens (cutLine line) read tokens = .error fault)
    (hspells : ∀ u ∈ tokens, u.Spells line) : fault.PointsIn line := by
  rcases Scope.closeAll_or_addTokens_of_error h with ⟨n, hn, hclose⟩ | herror
  · obtain ⟨opens, hwrote⟩ := exists_wrote_of_addTokens hn
    exact pointsIn_of_closeAll hwrote hclose hspells
  · obtain ⟨front, n, atHead, t, back, hreaches, hadd⟩ := Reaches.start.exists_error herror
    refine pointsIn_of_addToken hadd fun u hu => hspells u ?_
    rw [← hreaches.append_eq]
    exact List.mem_append_right front hu

end Nest

namespace Reader

theorem pointsIn_of_line {r : Reader} {text : String} (h : r.line text = .error fault) :
    fault.PointsIn text.toList := by
  rcases error_of_line h with hscan | ⟨tokens, hscan, hnest | ⟨root, obstacle, -, -, rfl⟩⟩
  · exact pointsIn_of_scan hscan
  · exact Nest.pointsIn_of_ofTokens hnest fun t ht => ((Scan.occurs_of_scan hscan).1 t ht).spells
  · intro offset hoffset
    rw [obstacle.offset?_fault] at hoffset
    cases hoffset

/-- A fault of a line points at a character boundary inside the line, where its culprit is. -/
theorem line_culprit (r : Reader) {text : String} {fault : Fault} {offset : Nat}
    (h : r.line text = .error fault) (hoffset : fault.offset? = some offset) :
    offset < byteSize text.toList ∧ fault.culprit ≠ [] ∧
      ∃ before after, text.toList = before ++ fault.culprit ++ after ∧
        offset = byteSize before := by
  obtain ⟨hne, before, after, hline, hbefore⟩ := pointsIn_of_line h offset hoffset
  refine ⟨?_, hne, before, after, hline, hbefore⟩
  obtain ⟨c, cs, hculprit⟩ := List.exists_cons_of_ne_nil hne
  have := c.utf8Size_pos
  rw [hline, hculprit, hbefore]
  simp only [Text.byteSize_append, Text.byteSize_cons]
  omega

/-- The culprit is the whole fraction, behind a letter of two bytes, although only its last character
is no digit. -/
theorem line_culprit_fraction :
    ({} : Reader).line "\"é\" + 1.5q" = .error (.badNumeral "1.5q" (.badDigit 'q' 10) 7) ∧
      7 < byteSize "\"é\" + 1.5q".toList ∧ "1.5q".toList ≠ [] ∧
      ∃ before after, "\"é\" + 1.5q".toList = before ++ "1.5q".toList ++ after ∧
        7 = byteSize before := by
  have h : ({} : Reader).line "\"é\" + 1.5q" =
      .error (.badNumeral "1.5q" (.badDigit 'q' 10) 7) := by cbv
  exact ⟨h, line_culprit {} h rfl⟩

end Reader

end MacroAsm
