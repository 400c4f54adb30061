import MacroAsm.Proofs.Print.Lexemes

/-!
# The lexemes of a text

`Scan.Lexes` says with which lexeme other than blanks a text starts, and what its token is. Apart
from the colons (`Scan.Allows`), this does not depend on the tokens before it. Facts about the scan
of a text go by induction over its lexemes (`Scan.lexeme_induction`).
-/

namespace MacroAsm

namespace Scan

open Text (byteSize)

variable {offset next close : Nat} {done : List Token} {t : Token} {kind : TokenKind}
  {c quote : Char} {cs rest : List Char} {escaped : Bool}

/-! ## Character classes -/

theorem isQuote_of_isBlank (h : isBlank c = true) : isQuote c = false := by
  simp only [isBlank, Bool.or_eq_true, decide_eq_true_eq] at h
  rcases h with ((rfl | rfl) | rfl) | rfl <;> rfl

theorem utf8Size_of_isBlank (h : isBlank c = true) : c.utf8Size = 1 := by
  simp only [isBlank, Bool.or_eq_true, decide_eq_true_eq] at h
  rcases h with ((rfl | rfl) | rfl) | rfl <;> rfl

theorem utf8Size_of_isQuote (h : isQuote c = true) : c.utf8Size = 1 := by
  simp only [isQuote, Bool.or_eq_true, decide_eq_true_eq] at h
  rcases h with rfl | rfl <;> rfl

theorem utf8Size_of_mark (h : markKind? c = some kind) : c.utf8Size = 1 := by
  unfold markKind? at h
  split at h <;> first | rfl | cases h

theorem runKind?_of_mem_marks (h : c ∈ marks) : runKind? c = none := by
  have hall : marks.all (fun c => (runKind? c).isNone) = true := rfl
  rw [List.all_eq_true] at hall
  exact Option.isNone_iff_eq_none.mp (hall c h)

theorem continuesRun_of_runKind? (h : runKind? c = some kind) : continuesRun c = true := by
  have hblank : isBlank c = false := by
    rw [Bool.eq_false_iff]
    intro hc
    simp only [isBlank, Bool.or_eq_true, decide_eq_true_eq] at hc
    rcases hc with ((rfl | rfl) | rfl) | rfl <;> cases h
  have hquote : isQuote c = false := by
    rw [Bool.eq_false_iff]
    intro hc
    simp only [isQuote, Bool.or_eq_true, decide_eq_true_eq] at hc
    rcases hc with rfl | rfl <;> cases h
  have hmark : c ∉ marks := by
    intro hc
    rw [runKind?_of_mem_marks hc] at h
    cases h
  simp [continuesRun, hblank, hquote, hmark]

theorem operatorLength_of_not_mem (h : c ∉ operatorChars) : operatorLength (c :: cs) = 0 := by
  unfold operatorLength
  split
  case h_9 => simp_all
  case h_10 => rfl
  all_goals
    rename_i heq
    cases heq
    exact absurd (by decide) h

theorem operatorLength_pos (h : c ∈ operatorChars) : 0 < operatorLength (c :: cs) := by
  unfold operatorLength
  split
  case h_9 c' _ _ _ _ _ _ _ _ _ heq =>
    cases heq
    simp [h]
  case h_10 heq => cases heq
  all_goals decide

theorem operatorLength_append {tail : List Char} (htail : ∀ c ∈ tail.head?, c ∉ operatorChars) :
    operatorLength (cs ++ tail) = operatorLength cs := by
  cases tail with
  | nil => rw [List.append_nil]
  | cons d tail =>
    have hd : d ∉ operatorChars := htail d rfl
    have hne : '<' ≠ d ∧ '>' ≠ d ∧ '=' ≠ d := by
      refine ⟨?_, ?_, ?_⟩ <;> rintro rfl <;> exact hd (by decide)
    -- an operator that goes on in the tail would go on with `d`
    have hgoes : ∀ {front ds : List Char} {c}, c ≠ d → front ++ d :: tail = c :: ds →
        ∃ es, front = c :: es := by
      intro front ds c hc heq
      cases front with
      | nil => exact absurd (List.cons.inj heq).1.symm hc
      | cons =>
        cases heq
        exact ⟨_, rfl⟩
    fun_cases operatorLength cs
    case case3 cs h =>
      refine operatorLength.eq_3 _ fun ds heq => ?_
      obtain ⟨es, rfl⟩ := hgoes hne.1 heq
      exact h es rfl
    case case4 cs h =>
      refine operatorLength.eq_4 _ fun ds heq => ?_
      obtain ⟨es, rfl⟩ := hgoes hne.2.1 heq
      exact h es rfl
    case case9 | case10 =>
      rw [List.cons_append, operatorLength.eq_9]
      · rename_i h
        first | exact if_pos h | exact if_neg h
      all_goals
        rintro ds rfl heq
        obtain ⟨es, rfl⟩ := hgoes (by simp [hne]) heq
        simp_all
    case case11 => exact operatorLength_of_not_mem hd
    all_goals rfl

theorem take_operatorLength (cs : List Char) :
    (cs.take (operatorLength cs)).length = operatorLength cs ∧
      ∀ c ∈ cs.take (operatorLength cs), c ∈ operatorChars := by
  unfold operatorLength
  split
  case h_9 c cs _ _ _ _ _ _ _ _ =>
    by_cases hc : c ∈ operatorChars <;> simp [hc]
  all_goals simp [operatorChars]

theorem utf8Size_of_mem_operatorChars (h : c ∈ operatorChars) : c.utf8Size = 1 := by
  have hsize : operatorChars.all (·.utf8Size = 1) = true := rfl
  exact of_decide_eq_true (List.all_eq_true.mp hsize c h)

theorem byteSize_of_operatorChars (h : ∀ c ∈ cs, c ∈ operatorChars) :
    byteSize cs = cs.length := by
  induction cs with
  | nil => rfl
  | cons c cs ih =>
    rw [List.forall_mem_cons] at h
    rw [Text.byteSize_cons, utf8Size_of_mem_operatorChars h.1, ih h.2, List.length_cons,
      Nat.add_comm]

theorem isQuote_of_continuesRun (h : continuesRun c = true) : isQuote c = false := by
  simp only [continuesRun, Bool.not_eq_true', Bool.or_eq_false_iff] at h
  exact h.1.2

theorem isQuote_of_isRun (h : IsRun kind cs) : ∀ c ∈ cs, isQuote c = false := by
  obtain ⟨c, cs, rfl, hc, hcs⟩ := h
  rw [List.forall_mem_cons]
  exact ⟨isQuote_of_continuesRun (continuesRun_of_runKind? hc),
    fun d hd => isQuote_of_continuesRun (hcs d hd)⟩

theorem classes_of_mem_operatorChars (h : c ∈ operatorChars) :
    isBlank c = false ∧ isQuote c = false ∧ c ≠ ':' ∧ markKind? c = none := by
  have hall : operatorChars.all (fun c => !isBlank c && !isQuote c && c != ':' &&
      (markKind? c).isNone) = true := rfl
  simpa [and_assoc] using List.all_eq_true.mp hall c h

theorem classes_of_markKind? (h : markKind? c = some kind) :
    isBlank c = false ∧ isQuote c = false ∧ c ≠ ':' := by
  unfold markKind? at h
  split at h <;> first | decide | cases h

theorem classes_of_continuesRun (h : continuesRun c = true) :
    isBlank c = false ∧ isQuote c = false ∧ c ≠ ':' ∧ c ∉ operatorChars ∧ markKind? c = none := by
  simp only [continuesRun, Bool.not_eq_true', Bool.or_eq_false_iff, List.contains_eq_mem,
    decide_eq_false_iff_not] at h
  obtain ⟨⟨hblank, hquote⟩, hmark⟩ := h
  refine ⟨hblank, hquote, ?_, fun h => hmark (List.mem_append_left _ h), ?_⟩
  · rintro rfl
    exact hmark (by decide)
  · unfold markKind?
    split <;> first | rfl | exact absurd (by decide) hmark

theorem kind_ne_of_markKind? (h : markKind? c = some kind) :
    kind ≠ .label ∧ kind ≠ .impliedLabel := by
  unfold markKind? at h
  split at h <;> cases h <;> decide

theorem kind_ne_string_of_run (h : IsRun kind cs) : kind ≠ .string := by
  rcases h.kind_eq with rfl | rfl <;> decide

theorem kind_ne_string_of_mark (h : markKind? c = some kind) : kind ≠ .string := by
  rintro rfl
  unfold markKind? at h
  split at h <;> cases h

/-! ## Single lexemes -/

/-- One lexeme other than blanks: a text at an offset starts with the token, and goes on with `rest`
at the offset `next`. -/
inductive Lexes (offset : Nat) : List Char → Token → Nat → List Char → Prop
  | string {quote : Char} {cs rest : List Char} {close : Nat} (hquote : isQuote quote = true)
      (hclose : closingQuote? quote false (offset + quote.utf8Size) cs = some (close, rest)) :
      Lexes offset (quote :: cs) ⟨.string, offset + quote.utf8Size, close⟩
        (close + quote.utf8Size) rest
  | cast {rest : List Char} :
      Lexes offset (':' :: ':' :: rest) ⟨.cast, offset, offset + 2⟩ (offset + 2) rest
  | label {rest : List Char} (hrest : ∀ c ∈ rest.head?, c ≠ ':') :
      Lexes offset (':' :: rest) ⟨.label, offset, offset + 1⟩ (offset + 1) rest
  | mark {kind : TokenKind} {c : Char} {rest : List Char} (hkind : markKind? c = some kind) :
      Lexes offset (c :: rest) ⟨kind, offset, offset + c.utf8Size⟩ (offset + c.utf8Size) rest
  | operator {c : Char} {cs : List Char} {length : Nat} (hc : c ∈ operatorChars)
      (hlength : operatorLength (c :: cs) = length) (hpos : 0 < length) :
      Lexes offset (c :: cs) ⟨.operator, offset, offset + length⟩ (offset + length)
        (cs.drop (length - 1))
  | run {kind : TokenKind} {cs rest : List Char} (hcs : IsRun kind cs)
      (hrest : ∀ c ∈ rest.head?, continuesRun c = false) :
      Lexes offset (cs ++ rest) ⟨kind, offset, offset + byteSize cs⟩ (offset + byteSize cs) rest

/-- The tokens before a colon allow it: something comes before it, and a line has one label mark. -/
structure Allows (done : List Token) (t : Token) : Prop where
  significant : t.kind = .cast ∨ t.kind = .label → done.any Token.isSignificant = true
  label : t.kind = .label → isLabelled done = false

theorem allows_of_markKind? {start stop : Nat} (h : markKind? c = some kind) :
    Allows done ⟨kind, start, stop⟩ := by
  unfold markKind? at h
  split at h <;> cases h <;> exact ⟨by simp, by simp⟩

theorem allows_of_isRun {start stop : Nat} (h : IsRun kind cs) :
    Allows done ⟨kind, start, stop⟩ := by
  rcases h.kind_eq with rfl | rfl <;> exact ⟨by simp, by simp⟩

theorem size_of_closingQuote? (h : closingQuote? quote escaped offset cs = some (close, rest)) :
    offset ≤ close ∧ close + quote.utf8Size + byteSize rest = offset + byteSize cs := by
  fun_induction closingQuote? quote escaped offset cs with
  | case1 => cases h
  | case2 escaped offset cs ih =>
    have hsize := ih h
    rw [Text.byteSize_cons]
    omega
  | case3 escaped offset c cs hback hquote =>
    cases h
    simp only [Bool.and_eq_true, decide_eq_true_eq] at hquote
    rw [Text.byteSize_cons, hquote.1]
    omega
  | case4 escaped offset c cs hback hquote ih =>
    have hsize := ih h
    rw [Text.byteSize_cons]
    omega

theorem scanFrom_run (hcs : IsRun kind cs) (hrest : ∀ d ∈ rest.head?, continuesRun d = false) :
    scanFrom offset done (cs ++ rest) =
      scanFrom (offset + Text.byteSize cs) (⟨kind, offset, offset + Text.byteSize cs⟩ :: done)
        rest := by
  obtain ⟨c, cs, rfl, hkind, hcs⟩ := hcs
  obtain ⟨hblank, hquote, hcolon, hoperator, hnone⟩ :=
    classes_of_continuesRun (continuesRun_of_runKind? hkind)
  have hlength : operatorLength (c :: (cs ++ rest)) = 0 := operatorLength_of_not_mem hoperator
  have htake : (cs ++ rest).takeWhile continuesRun = cs := by
    rw [List.takeWhile_append_of_pos hcs]
    cases rest with
    | nil => simp
    | cons d rest => simp [hrest d rfl]
  have hdrop : (cs ++ rest).dropWhile continuesRun = rest := by
    rw [List.dropWhile_append_of_pos hcs]
    cases rest with
    | nil => simp
    | cons d rest => simp [hrest d rfl]
  rw [List.cons_append, scanFrom.eq_def]
  simp [hblank, hquote, hcolon, hnone, hlength, hkind, htake, hdrop, Nat.add_assoc]

theorem scanFrom_mark (h : markKind? c = some kind) :
    scanFrom offset done (c :: rest) =
      scanFrom (offset + c.utf8Size) (⟨kind, offset, offset + c.utf8Size⟩ :: done) rest := by
  rw [scanFrom.eq_def]
  simp [classes_of_markKind? h, h]

theorem scanFrom_cast (hdone : ∃ t ∈ done, t.isSignificant = true) :
    scanFrom offset done (':' :: ':' :: rest) =
      scanFrom (offset + 2) (⟨.cast, offset, offset + 2⟩ :: done) rest := by
  have hcolon : isBlank ':' = false ∧ isQuote ':' = false := by decide
  have hany : done.any Token.isSignificant = true := List.any_eq_true.mpr hdone
  rw [scanFrom.eq_def]
  simp [hcolon, hany]

theorem scanFrom_label (hdone : ∃ t ∈ done, t.isSignificant = true)
    (hlabel : isLabelled done = false) (hrest : ∀ c ∈ rest.head?, c ≠ ':') :
    scanFrom offset done (':' :: rest) =
      scanFrom (offset + 1) (⟨.label, offset, offset + 1⟩ :: done) rest := by
  have hcolon : isBlank ':' = false ∧ isQuote ':' = false := by decide
  have hany : done.any Token.isSignificant = true := List.any_eq_true.mpr hdone
  rw [scanFrom.eq_def]
  simp only [hcolon, hany, hlabel, Bool.false_eq_true, ↓reduceIte, Bool.not_true]
  split
  next => exact absurd rfl (hrest ':' rfl)
  next => rfl

theorem Lexes.scanFrom_eq (h : Lexes offset cs t next rest) (hdone : Allows done t) :
    scanFrom offset done cs = scanFrom next (t :: done) rest := by
  cases h with
  | @string quote cs close rest hquote hclose =>
    have hblank : isBlank quote = false := by
      by_contra h
      rw [isQuote_of_isBlank (by simpa using h)] at hquote
      cases hquote
    rw [scanFrom.eq_def]
    simp only [hblank, hquote, Bool.false_eq_true, ↓reduceIte]
    split
    next h =>
      rw [hclose] at h
      cases h
    next h =>
      rw [hclose] at h
      cases h
      rfl
  | cast => exact scanFrom_cast (List.any_eq_true.mp (hdone.significant (.inl rfl)))
  | label hrest =>
    exact scanFrom_label (List.any_eq_true.mp (hdone.significant (.inr rfl))) (hdone.label rfl)
      hrest
  | mark hkind => exact scanFrom_mark hkind
  | operator hc hlength hpos =>
    subst hlength
    rw [scanFrom.eq_def]
    simp [classes_of_mem_operatorChars hc, hpos]
  | run hcs hrest => exact scanFrom_run hcs hrest

theorem scanFrom_cons_blank (hc : isBlank c = true) :
    scanFrom offset done (c :: cs) =
      scanFrom (offset + c.utf8Size) (addBlank offset (offset + c.utf8Size) done) cs := by
  rw [scanFrom.eq_def]
  simp only [hc, ↓reduceIte]

theorem head_ne_colon (h : ∀ rest, cs = ':' :: rest → False) : ∀ c ∈ cs.head?, c ≠ ':' := by
  cases cs with
  | nil => simp
  | cons c cs =>
    rintro _ ⟨⟩ rfl
    exact h cs rfl

/-- A text that starts with no lexeme and no blank, or with a colon that the tokens before it do not
allow, and the fault that this is. -/
inductive Rejects (offset : Nat) (done : List Token) : List Char → Fault → Prop
  | unterminated {quote : Char} {cs : List Char} (hquote : isQuote quote = true)
      (hclose : closingQuote? quote false (offset + quote.utf8Size) cs = none) :
      Rejects offset done (quote :: cs) (.unterminated 1)
  | emptyLabel {cs : List Char} (hdone : done.any Token.isSignificant = false) :
      Rejects offset done (':' :: cs) (.emptyLabel offset)
  | repeatedLabel {cs : List Char} (hdone : done.any Token.isSignificant = true)
      (hlabel : isLabelled done = true) (hcs : ∀ c ∈ cs.head?, c ≠ ':') :
      Rejects offset done (':' :: cs) (.repeatedLabel offset)
  | unrecognized {c : Char} {cs : List Char} (hblank : isBlank c = false)
      (hquote : isQuote c = false) (hcolon : c ≠ ':') (hmark : markKind? c = none)
      (hoperator : c ∉ operatorChars) (hrun : runKind? c = none) :
      Rejects offset done (c :: cs) (.unrecognized c offset)

/-- Induction over the lexemes of a text, with what it is scanned to. The text ends, starts with a
blank or another lexeme, or is at fault. -/
theorem lexeme_induction
    {motive : Nat → List Token → List Char → Except Fault (List Token) → Prop}
    (nil : ∀ offset done, motive offset done [] (.ok (addBlank offset offset done)))
    (blank : ∀ offset done c cs result, isBlank c = true →
      motive (offset + c.utf8Size) (addBlank offset (offset + c.utf8Size) done) cs result →
      motive offset done (c :: cs) result)
    (token : ∀ offset done cs t next rest result, Lexes offset cs t next rest → Allows done t →
      motive next (t :: done) rest result → motive offset done cs result)
    (fault : ∀ offset done cs fault, Rejects offset done cs fault →
      motive offset done cs (.error fault)) :
    motive offset done cs (scanFrom offset done cs) := by
  fun_induction scanFrom offset done cs with
  | case1 offset done => exact nil offset done
  | case2 offset done c cs next hblank ih => exact blank _ _ _ _ _ hblank ih
  | case3 offset done c cs next hblank hquote hclose =>
    exact fault _ _ _ _ (.unterminated hquote hclose)
  | case4 offset done c cs next hblank hquote close rest hclose ih =>
    exact token _ _ _ _ _ _ _ (.string hquote hclose) ⟨by simp, by simp⟩ ih
  | case5 offset done cs hsignificant =>
    exact fault _ _ _ _ (.emptyLabel (by simpa using hsignificant))
  | case6 offset done hsignificant _ _ rest ih =>
    exact token _ _ _ _ _ _ _ .cast ⟨fun _ => by simpa using hsignificant, by simp⟩ ih
  | case7 offset done hsignificant cs hcast hlabel =>
    exact fault _ _ _ _
      (.repeatedLabel (by simpa using hsignificant) hlabel (head_ne_colon hcast))
  | case8 offset done hsignificant cs hcast hlabel _ _ _ ih =>
    exact token _ _ _ _ _ _ _ (.label (head_ne_colon hcast))
      ⟨fun _ => by simpa using hsignificant, fun _ => by simpa using hlabel⟩ ih
  | case9 offset done c cs next _ _ _ kind hkind ih =>
    exact token _ _ _ _ _ _ _ (.mark hkind) (allows_of_markKind? hkind) ih
  | case10 offset done c cs _ _ _ _ length hlength ih =>
    have hc : c ∈ operatorChars := by
      by_contra h
      rw [show length = 0 from operatorLength_of_not_mem h] at hlength
      cases hlength
    exact token _ _ _ _ _ _ _ (.operator hc rfl hlength) ⟨by simp, by simp⟩ ih
  | case11 offset done c cs hblank hquote hcolon hmark length hlength hrun =>
    have hoperator : c ∉ operatorChars := fun hc => hlength (operatorLength_pos hc)
    exact fault _ _ _ _ (.unrecognized (by simpa using hblank) (by simpa using hquote) hcolon
      hmark hoperator hrun)
  | case12 offset done c cs next _ _ _ _ length _ kind hkind stop ih =>
    have hrun : IsRun kind (c :: cs.takeWhile continuesRun) :=
      ⟨c, _, rfl, hkind, fun d hd => List.mem_takeWhile_imp hd⟩
    have hrest : ∀ d ∈ (cs.dropWhile continuesRun).head?, continuesRun d = false := by
      intro d hd
      have hnot := List.head?_dropWhile_not continuesRun cs
      rw [Option.mem_def.mp hd] at hnot
      simpa using hnot
    have hlexes : Lexes offset _ _ _ _ := .run hrun hrest
    rw [List.cons_append, List.takeWhile_append_dropWhile, Text.byteSize_cons,
      ← Nat.add_assoc] at hlexes
    exact token _ _ _ _ _ _ _ hlexes (allows_of_isRun hrun) ih

/-! ## Sizes and kinds -/

/-- The token of a lexeme lies between the offsets before and after it. -/
structure Lies (t : Token) (offset next : Nat) : Prop where
  start : offset ≤ t.start
  stop : t.start ≤ t.stop
  next : t.stop ≤ next

theorem Lexes.lies (h : Lexes offset cs t next rest) : Lies t offset next := by
  cases h with
  | string hquote hclose => exact ⟨by simp, (size_of_closingQuote? hclose).1, by simp⟩
  | cast | label | mark | operator | run => exact ⟨Nat.le_refl _, by simp, Nat.le_refl _⟩

theorem Lexes.size (h : Lexes offset cs t next rest) :
    next + byteSize rest = offset + byteSize cs := by
  have hcolon : ':'.utf8Size = 1 := rfl
  cases h with
  | string hquote hclose =>
    have hsize := (size_of_closingQuote? hclose).2
    rw [Text.byteSize_cons]
    omega
  | cast =>
    simp only [Text.byteSize_cons, hcolon]
    omega
  | label =>
    simp only [Text.byteSize_cons, hcolon]
    omega
  | mark => rw [Text.byteSize_cons, Nat.add_assoc]
  | @operator c cs length hc hlength hpos =>
    obtain ⟨htake, hchars⟩ := take_operatorLength (c :: cs)
    have hdrop : (c :: cs).drop length = cs.drop (length - 1) := by
      obtain ⟨n, hn⟩ := Nat.exists_eq_succ_of_ne_zero (Nat.pos_iff_ne_zero.mp hpos)
      rw [hn]
      rfl
    rw [hlength] at htake hchars
    rw [← List.take_append_drop length (c :: cs), Text.byteSize_append,
      byteSize_of_operatorChars hchars, htake, hdrop, Nat.add_assoc]
  | run => rw [Text.byteSize_append, Nat.add_assoc]

theorem Lexes.lt (h : Lexes offset cs t next rest) : offset < next := by
  cases h with
  | @string quote _ _ _ _ hclose =>
    have hle := (size_of_closingQuote? hclose).1
    have hpos := quote.utf8Size_pos
    omega
  | cast | label => simp
  | mark => exact Nat.lt_add_of_pos_right (Char.utf8Size_pos _)
  | operator _ _ hpos => exact Nat.lt_add_of_pos_right hpos
  | run hcs =>
    obtain ⟨c, cs, rfl, -⟩ := hcs
    have hpos := c.utf8Size_pos
    rw [Text.byteSize_cons]
    omega

theorem Lexes.kind_ne (h : Lexes offset cs t next rest) : t.kind ≠ .impliedLabel := by
  cases h with
  | mark hkind => exact (kind_ne_of_markKind? hkind).2
  | run hcs => rcases hcs.kind_eq with rfl | rfl <;> simp
  | string | cast | label | operator => simp

end Scan

end MacroAsm
