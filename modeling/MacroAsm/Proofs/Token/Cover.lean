import MacroAsm.Proofs.Token.Order
import MacroAsm.Proofs.Token.Strings

/-!
# What the tokens of a line cover

`TokenKind.Spells` says which texts a token of a kind can cover. Every token of a scanned line
covers such a text, and what no token covers is a blank or a quote around a string (`scan_cover`).

Both go by the run over the lexemes of the line. A token is a lexeme of the line at its place, or
stands for a blank or for the end of the line (`Scan.Occurs`), and each lexeme is the text of its
token between the quotes it may have (`Scan.Lexes.Parts`).
-/

namespace MacroAsm

open Text (byteSize)

/-- The text of a token of the kind, between what stands before and after it in its line. -/
inductive TokenKind.Spells : TokenKind → List Char → List Char → List Char → Prop
  | name {before after : List Char} {c : Char} {cs : List Char}
      (hc : c = '_' ∨ c.isAlpha = true)
      (hcs : ∀ d ∈ c :: cs, Scan.isBlank d = false ∧ isQuote d = false ∧ d ∉ Scan.marks) :
      Spells .name before (c :: cs) after
  | number {before after : List Char} {c : Char} {cs : List Char}
      (hc : c = '$' ∨ c.isDigit = true)
      (hcs : ∀ d ∈ c :: cs, Scan.isBlank d = false ∧ isQuote d = false ∧ d ∉ Scan.marks) :
      Spells .number before (c :: cs) after
  /-- A string stands between two quotes, and only escaped quotes like these are in it. -/
  | string {before text after : List Char} {quote : Char} (hquote : isQuote quote = true)
      (htext : stringBody? quote false (text ++ quote :: after) = some (text, after)) :
      Spells .string (before ++ [quote]) text (quote :: after)
  | operator {before text after : List Char} (hne : text ≠ [])
      (htext : ∀ c ∈ text, c ∈ Scan.operatorChars) : Spells .operator before text after
  | openParen {before after : List Char} : Spells .openParen before ['('] after
  | closeParen {before after : List Char} : Spells .closeParen before [')'] after
  | openBracket {before after : List Char} : Spells .openBracket before ['['] after
  | closeBracket {before after : List Char} : Spells .closeBracket before [']'] after
  | openBrace {before after : List Char} : Spells .openBrace before ['{'] after
  | closeBrace {before after : List Char} : Spells .closeBrace before ['}'] after
  | dot {before after : List Char} : Spells .dot before ['.'] after
  | comma {before after : List Char} : Spells .comma before [','] after
  | label {before after : List Char} : Spells .label before [':'] after
  | cast {before after : List Char} : Spells .cast before [':', ':'] after
  | blank {kind : TokenKind} {before after : List Char} {c : Char}
      (hkind : kind = .blank ∨ kind = .impliedLabel) (hc : Scan.isBlank c = true) :
      Spells kind before [c] after
  | atEnd {kind : TokenKind} {before : List Char}
      (hkind : kind = .blank ∨ kind = .impliedLabel) : Spells kind before [] []

/-- The token covers a text of its kind in the line, from one character boundary to another. -/
def Token.Spells (line : List Char) (t : Token) : Prop :=
  ∃ before text after, line = before ++ text ++ after ∧ t.start = byteSize before ∧
    t.stop = byteSize (before ++ text) ∧ t.kind.Spells before text after

namespace Scan

variable {offset next stop i : Nat} {kind : TokenKind} {t : Token} {c : Char}
  {line before cs rest quotes text : List Char} {done last tokens tokens' : List Token}

/-- The tokens say what the byte at offset `i` of the line is: a part of one of them, a blank, or
the quote right before or after the token of a string. -/
inductive Explains (line : List Char) (tokens : List Token) (i : Nat) : Prop
  | covered {t : Token} (ht : t ∈ tokens) (hstart : t.start ≤ i) (hstop : i < t.stop)
  | blank {before after : List Char} {c : Char} (hline : line = before ++ c :: after)
      (hi : i = byteSize before) (hc : isBlank c = true)
  | quote {before after : List Char} {c : Char} {t : Token} (hline : line = before ++ c :: after)
      (hi : i = byteSize before) (hc : isQuote c = true) (ht : t ∈ tokens)
      (hkind : t.kind = .string) (hside : t.start = i + 1 ∨ t.stop = i)

/-! ## Characters -/

theorem spells_of_markKind? (h : markKind? c = some kind) (before after : List Char) :
    kind.Spells before [c] after := by
  unfold markKind? at h
  split at h <;> cases h <;> constructor

theorem spells_of_isRun (h : IsRun kind cs) (before after : List Char) :
    kind.Spells before cs after := by
  obtain ⟨c, cs, rfl, hkind, hcs⟩ := h
  have hplain : ∀ d ∈ c :: cs, isBlank d = false ∧ isQuote d = false ∧ d ∉ marks := by
    intro d hd
    have hd : continuesRun d = true := by
      rcases List.mem_cons.mp hd with rfl | hd
      · exact continuesRun_of_runKind? hkind
      · exact hcs d hd
    simpa [continuesRun, and_assoc] using hd
  unfold runKind? at hkind
  split at hkind
  next hc =>
    cases hkind
    exact .number (by simpa using hc) hplain
  next =>
    split at hkind
    next hc =>
      cases hkind
      exact .name (by simpa using hc) hplain
    next => cases hkind

/-! ## Lexemes -/

/-- The parts of a lexeme: the text of its token, and the quotes before and after it. -/
structure Lexes.Parts (offset : Nat) (cs : List Char) (t : Token) (next : Nat) (rest : List Char)
    (quotes text : List Char) : Prop where
  chars : cs = quotes ++ text ++ quotes ++ rest
  start : t.start = offset + byteSize quotes
  stop : t.stop = t.start + byteSize text
  next : next = t.stop + byteSize quotes
  spells : ∀ before, t.kind.Spells (before ++ quotes) text (quotes ++ rest)
  quotes : quotes = [] ∨
    t.kind = .string ∧ ∃ quote, isQuote quote = true ∧ quotes = [quote]

theorem Lexes.parts_of_spells {text : List Char} (hchars : cs = text ++ rest)
    (hnext : next = offset + byteSize text)
    (hspells : ∀ before, kind.Spells before text rest) :
    Parts offset cs ⟨kind, offset, next⟩ next rest [] text where
  chars := by simp [hchars]
  start := by simp
  stop := hnext
  next := by simp
  spells before := by simpa using hspells before
  quotes := .inl rfl

theorem Lexes.exists_parts (h : Lexes offset cs t next rest) :
    ∃ quotes text, Parts offset cs t next rest quotes text := by
  cases h with
  | @string quote cs rest close hquote hclose =>
    rw [closingQuote?_eq hquote, Option.map_eq_some_iff] at hclose
    obtain ⟨⟨body, rest'⟩, hbody, heq⟩ := hclose
    cases heq
    obtain rfl := eq_of_stringBody? hbody
    refine ⟨[quote], body, ⟨by simp, by simp, rfl, by simp, fun before => ?_, ?_⟩⟩
    · exact .string hquote hbody
    · exact .inr ⟨rfl, quote, hquote, rfl⟩
  | cast => exact ⟨[], _, parts_of_spells rfl rfl fun _ => .cast⟩
  | label => exact ⟨[], _, parts_of_spells List.singleton_append.symm rfl fun _ => .label⟩
  | @mark kind c rest hkind =>
    exact ⟨[], [c], parts_of_spells rfl (by simp) fun _ => spells_of_markKind? hkind _ _⟩
  | @operator c cs length hc hlength hpos =>
    obtain ⟨htake, hchars⟩ := take_operatorLength (c :: cs)
    rw [hlength] at htake hchars
    obtain ⟨n, rfl⟩ := Nat.exists_eq_succ_of_ne_zero (Nat.pos_iff_ne_zero.mp hpos)
    refine ⟨[], (c :: cs).take (n + 1), parts_of_spells ?_ ?_ fun _ => .operator ?_ hchars⟩
    · simp
    · rw [byteSize_of_operatorChars hchars, htake]
    · simp
  | run hcs => exact ⟨[], _, parts_of_spells rfl rfl fun _ => spells_of_isRun hcs _ _⟩

/-! ## Tokens of a line -/

/-- The token is a lexeme of the line at its place, or stands for a blank or for the end of the
line. -/
inductive Occurs (line : List Char) : Token → Prop
  | lexeme {before cs : List Char} {t : Token} {next : Nat} {rest : List Char}
      (hline : line = before ++ cs) (hlexes : Lexes (byteSize before) cs t next rest) :
      Occurs line t
  | blank {before rest : List Char} {c : Char} {t : Token} (hline : line = before ++ c :: rest)
      (hc : isBlank c = true) (hkind : t.kind = .blank ∨ t.kind = .impliedLabel)
      (hstart : t.start = byteSize before) (hstop : t.stop = byteSize before + c.utf8Size) :
      Occurs line t
  | atEnd {t : Token} (hkind : t.kind = .blank ∨ t.kind = .impliedLabel)
      (hstart : t.start = byteSize line) (hstop : t.stop = byteSize line) : Occurs line t

theorem Occurs.spells (h : Occurs line t) : t.Spells line := by
  cases h with
  | @lexeme before _ _ _ rest hline hlexes =>
    obtain ⟨quotes, text, hparts⟩ := hlexes.exists_parts
    refine ⟨before ++ quotes, text, quotes ++ rest, ?_, ?_, ?_, hparts.spells before⟩
    · simp [hline, hparts.chars]
    · simp [hparts.start]
    · simp [hparts.stop, hparts.start, Nat.add_assoc]
  | @blank before rest c _ hline hc hkind hstart hstop =>
    exact ⟨before, [c], rest, by simp [hline], hstart, by simp [hstop], .blank hkind hc⟩
  | atEnd hkind hstart hstop =>
    exact ⟨line, [], [], by simp, hstart, by simp [hstop], .atEnd hkind⟩

theorem Explains.mono (h : Explains line tokens i) (hsub : ∀ t ∈ tokens, t ∈ tokens') :
    Explains line tokens' i := by
  cases h with
  | covered ht hstart hstop => exact .covered (hsub _ ht) hstart hstop
  | blank hline hi hc => exact .blank hline hi hc
  | quote hline hi hc ht hkind hside => exact .quote hline hi hc (hsub _ ht) hkind hside

theorem Lexes.Parts.explains (h : Parts (byteSize before) cs t next rest quotes text)
    (hline : line = before ++ cs) (ht : t ∈ tokens) (hstart : byteSize before ≤ i)
    (hstop : i < next) : Explains line tokens i := by
  have hchars := h.chars
  have htstart := h.start
  have htstop := h.stop
  have hnext := h.next
  by_cases hcovered : t.start ≤ i ∧ i < t.stop
  · exact .covered ht hcovered.1 hcovered.2
  rcases h.quotes with rfl | ⟨hkind, quote, hquote, rfl⟩
  · rw [Text.byteSize_nil] at htstart hnext
    omega
  · -- before and after the token, only its quotes are left
    have hsize : byteSize [quote] = 1 := by simp [utf8Size_of_isQuote hquote]
    rcases Nat.lt_or_ge i t.start with hlt | hge
    · have hi : i = byteSize before := by omega
      have hopening : line = before ++ quote :: (text ++ quote :: rest) := by
        rw [hline, hchars]
        simp
      exact .quote hopening hi hquote ht hkind (.inl (by omega))
    · have hi : i = t.stop := by omega
      have hclosing : line = before ++ [quote] ++ text ++ quote :: rest := by
        rw [hline, hchars]
        simp
      refine .quote hclosing ?_ hquote ht hkind (.inr hi.symm)
      rw [Text.byteSize_append, Text.byteSize_append]
      omega

/-- The line has been read up to a byte offset: every token so far occurs in it, and they say what
the bytes before the offset are. -/
def ReadTo (line : List Char) (offset : Nat) (done : List Token) (cs : List Char) : Prop :=
  ∃ before, line = before ++ cs ∧ offset = byteSize before ∧ (∀ t ∈ done, Occurs line t) ∧
    ∀ i < offset, Explains line done i

theorem mem_addBlank_of_mem {start : Nat} (h : t ∈ done) : t ∈ addBlank start stop done := by
  rcases addBlank_eq_or start stop done with heq | ⟨u, -, -, -, heq⟩
  · rwa [heq]
  · rw [heq]
    exact List.mem_cons_of_mem u h

theorem ReadTo.blank (h : ReadTo line offset done (c :: cs)) (hc : isBlank c = true) :
    ReadTo line (offset + c.utf8Size) (addBlank offset (offset + c.utf8Size) done) cs := by
  obtain ⟨before, hline, rfl, hoccurs, hexplains⟩ := h
  refine ⟨before ++ [c], by simp [hline], by simp, fun t ht => ?_, fun i hi => ?_⟩
  · rcases mem_addBlank ht with ht | ⟨hkind, hstart, hstop⟩
    · exact hoccurs t ht
    · exact .blank hline hc hkind hstart hstop
  · rw [utf8Size_of_isBlank hc, Nat.lt_succ_iff_lt_or_eq] at hi
    rcases hi with hi | hi
    · exact (hexplains i hi).mono fun _ => mem_addBlank_of_mem
    · exact .blank hline hi hc

theorem ReadTo.token (h : ReadTo line offset done cs) (hlexes : Lexes offset cs t next rest) :
    ReadTo line next (t :: done) rest := by
  obtain ⟨before, hline, rfl, hoccurs, hexplains⟩ := h
  obtain ⟨quotes, text, hparts⟩ := hlexes.exists_parts
  refine ⟨before ++ (quotes ++ text ++ quotes), ?_, ?_, ?_, fun i hi => ?_⟩
  · rw [hline, hparts.chars]
    simp
  · rw [hparts.next, hparts.stop, hparts.start]
    simp [Nat.add_assoc]
  · exact List.forall_mem_cons.mpr ⟨.lexeme hline hlexes, hoccurs⟩
  · rcases Nat.lt_or_ge i (byteSize before) with hlt | hge
    · exact (hexplains i hlt).mono fun _ => List.mem_cons_of_mem t
    · exact hparts.explains hline (List.mem_cons_self ..) hge hi

theorem Scans.readTo (h : Scans offset done cs stop last rest)
    (hdone : ReadTo line offset done cs) : ReadTo line stop last rest := by
  induction h with
  | refl => exact hdone
  | blank hc _ ih => exact ih (hdone.blank hc)
  | token hlexes _ _ ih => exact ih (hdone.token hlexes)

/-! ## Lines -/

theorem Occurs.settle (h : Occurs line t) (labelled : Bool) :
    Occurs line (settle labelled t) := by
  unfold Scan.settle
  split
  · cases h with
    | lexeme _ hlexes => simp_all [hlexes.kind_ne]
    | blank hline hc _ hstart hstop => exact .blank hline hc (.inl rfl) hstart hstop
    | atEnd _ hstart hstop => exact .atEnd (.inl rfl) hstart hstop
  · exact h

theorem Explains.settleLabel (h : Explains line tokens i) :
    Explains line (settleLabel tokens) i := by
  cases h with
  | covered ht hstart hstop =>
    rw [settleLabel_eq_map]
    exact .covered (List.mem_map_of_mem ht) (by simpa using hstart) (by simpa using hstop)
  | blank hline hi hc => exact .blank hline hi hc
  | quote hline hi hc ht hkind hside =>
    exact .quote hline hi hc (mem_settleLabel_of_mem ht (by simp [hkind])) hkind hside

theorem occurs_of_scan (h : scan line = .ok tokens) :
    (∀ t ∈ tokens, Occurs line t) ∧ ∀ i < byteSize line, Explains line tokens i := by
  obtain ⟨stop, last, hscans, rfl⟩ := Scans.refl.exists_rest h
  have hstart : ReadTo line 0 [] line := ⟨[], rfl, rfl, by simp, by simp⟩
  obtain ⟨before, hline, rfl, hoccurs, hexplains⟩ := hscans.readTo hstart
  rw [List.append_nil] at hline
  subst hline
  constructor
  · rw [settleLabel_eq_map, List.forall_mem_map]
    intro t ht
    apply Occurs.settle
    rcases mem_addBlank (List.mem_reverse.mp ht) with ht | ⟨hkind, hstart, hstop⟩
    · exact hoccurs t ht
    · exact .atEnd hkind hstart hstop
  · intro i hi
    refine ((hexplains i hi).mono fun t ht => ?_).settleLabel
    exact List.mem_reverse.mpr (mem_addBlank_of_mem ht)

/-- The tokens of a line are in order and do not overlap. Each one covers a text of its kind, from
one character boundary to another, and every byte that none of them covers is a blank, or a quote
that opens or closes a string. -/
theorem scan_cover (h : scan line = .ok tokens) :
    tokens.Pairwise (fun t u => t.start < u.start ∧ t.stop ≤ u.start) ∧
      (∀ t ∈ tokens, t.Spells line) ∧ ∀ i < byteSize line, Explains line tokens i := by
  obtain ⟨hoccurs, hexplains⟩ := occurs_of_scan h
  refine ⟨(scan_inOrder h).pairwise.imp fun {t u} hle => ?_,
    fun t ht => (hoccurs t ht).spells, hexplains⟩
  have hbehind := t.stop_le_behind
  omega

/-- A line with a name that goes on with a letter of two bytes, a quote that is escaped, blanks of
two sorts, and a label mark that comes late. -/
theorem scan_cover_label :
    scan "né =\t'a\\'b'<<$f: ".toList = .ok [⟨.name, 0, 3⟩, ⟨.blank, 3, 4⟩, ⟨.operator, 4, 5⟩,
        ⟨.blank, 5, 6⟩, ⟨.string, 7, 11⟩, ⟨.operator, 12, 14⟩, ⟨.number, 14, 16⟩,
        ⟨.label, 16, 17⟩, ⟨.blank, 17, 18⟩] ∧
      Token.Spells "né =\t'a\\'b'<<$f: ".toList ⟨.string, 7, 11⟩ ∧
      ∀ i < 18, Explains "né =\t'a\\'b'<<$f: ".toList [⟨.name, 0, 3⟩, ⟨.blank, 3, 4⟩,
        ⟨.operator, 4, 5⟩, ⟨.blank, 5, 6⟩, ⟨.string, 7, 11⟩, ⟨.operator, 12, 14⟩,
        ⟨.number, 14, 16⟩, ⟨.label, 16, 17⟩, ⟨.blank, 17, 18⟩] i := by
  have hscan : scan "né =\t'a\\'b'<<$f: ".toList = .ok [⟨.name, 0, 3⟩, ⟨.blank, 3, 4⟩,
      ⟨.operator, 4, 5⟩, ⟨.blank, 5, 6⟩, ⟨.string, 7, 11⟩, ⟨.operator, 12, 14⟩,
      ⟨.number, 14, 16⟩, ⟨.label, 16, 17⟩, ⟨.blank, 17, 18⟩] := by cbv
  obtain ⟨-, hspells, hexplains⟩ := scan_cover hscan
  exact ⟨hscan, hspells _ (by simp), hexplains⟩

end Scan

end MacroAsm
