import Mathlib
import MacroAsm.Proofs.Line.Strings
import MacroAsm.Proofs.Token.Lexes

/-!
# The strings of a scanned line

A logical line is scanned to the strings that its builder has seen in it (`scan_strings`).

The scanner reads a text lexeme by lexeme (`Scan.Read`), and each lexeme is one string or has no
quote in it. So it finds the strings of a text that is known to have them (`HasStrings`) in their
order, and never looks in vain for the end of one (`scanFrom_read`).
-/

namespace MacroAsm

open Text (byteSize)

/-- The token covers a string of the line between its quotes. -/
def Token.Covers (line : List Char) (t : Token) (string : Char × List Char) : Prop :=
  ∃ before after, line = before ++ string.1 :: (string.2 ++ string.1 :: after) ∧
    t.start = byteSize (before ++ [string.1]) ∧ t.stop = t.start + byteSize string.2

namespace Scan

variable {offset : Nat} {done tokens : List Token} {cs body rest : List Char} {c quote : Char}
  {escaped : Bool}

/-! ## Lexemes -/

theorem closingQuote?_eq (hquote : isQuote quote = true) :
    closingQuote? quote escaped offset cs =
      (stringBody? quote escaped cs).map fun (body, rest) => (offset + byteSize body, rest) := by
  have hback : quote ≠ '\\' := by
    rintro rfl
    cases hquote
  induction cs generalizing escaped offset with
  | nil => rfl
  | cons c cs ih =>
    rw [closingQuote?, stringBody?]
    by_cases hc : c = '\\'
    · subst hc
      rw [if_pos rfl, if_neg (by simp [Ne.symm hback]), ih, Option.map_map]
      cases escaped <;> simp [Function.comp_def, Nat.add_assoc]
    · rw [if_neg hc]
      split
      · rfl
      · rw [ih, Option.map_map]
        simp [Function.comp_def, hc, Nat.add_assoc]

/-- One lexeme: from the offset, the tokens so far and the rest of the line before it to those
after it. -/
inductive Read (offset : Nat) (done : List Token) :
    List Char → Nat → List Token → List Char → Prop
  | blank {c : Char} {rest : List Char} (hblank : isBlank c = true) :
      Read offset done (c :: rest) (offset + c.utf8Size)
        (addBlank offset (offset + c.utf8Size) done) rest
  | string {quote : Char} {body rest : List Char} (hquote : isQuote quote = true)
      (hbody : stringBody? quote false (body ++ quote :: rest) = some (body, rest)) :
      Read offset done (quote :: (body ++ quote :: rest))
        (offset + quote.utf8Size + byteSize body + quote.utf8Size)
        (⟨.string, offset + quote.utf8Size, offset + quote.utf8Size + byteSize body⟩ :: done) rest
  | token {kind : TokenKind} {cs rest : List Char} {stop : Nat} (chars : List Char)
      (hcs : cs = chars ++ rest) (hstop : stop = offset + byteSize chars) (hkind : kind ≠ .string)
      (hchars : ∀ c ∈ chars, isQuote c = false) :
      Read offset done cs stop (⟨kind, offset, stop⟩ :: done) rest

theorem Lexes.read {t : Token} {next : Nat} (h : Lexes offset cs t next rest) :
    Read offset done cs next (t :: done) rest := by
  cases h with
  | @string quote cs rest close hquote hclose =>
    rw [closingQuote?_eq hquote, Option.map_eq_some_iff] at hclose
    obtain ⟨⟨body, rest'⟩, hbody, heq⟩ := hclose
    cases heq
    have hcs := eq_of_stringBody? hbody
    rw [hcs] at hbody ⊢
    exact .string hquote hbody
  | cast => exact .token [':', ':'] rfl rfl (by decide) (by simp [isQuote])
  | label => exact .token [':'] rfl rfl (by decide) (by simp [isQuote])
  | @mark kind c rest hkind =>
    have hclass := classes_of_markKind? hkind
    exact .token [c] rfl (by simp) (kind_ne_string_of_mark hkind) (by simpa using hclass.2.1)
  | @operator c cs length hc hlength hpos =>
    obtain ⟨htake, hchars⟩ := take_operatorLength (c :: cs)
    rw [hlength] at htake hchars
    refine .token ((c :: cs).take length) ?_ ?_ (by decide)
      fun c hc => (classes_of_mem_operatorChars (hchars c hc)).2.1
    · obtain ⟨n, rfl⟩ := Nat.exists_eq_succ_of_ne_zero (Nat.pos_iff_ne_zero.mp hpos)
      simp
    · rw [byteSize_of_operatorChars hchars, htake]
  | run hcs =>
    exact .token _ rfl rfl (kind_ne_string_of_run hcs) (isQuote_of_isRun hcs)

/-- What each lexeme keeps holds where a scan ends that finds the end of every string. -/
theorem scanFrom_read {P : Nat → List Token → List Char → Prop}
    (hstep : ∀ offset done cs offset' done' rest, P offset done cs →
      Read offset done cs offset' done' rest → P offset' done' rest)
    (hclosed : ∀ offset done quote cs, P offset done (quote :: cs) → isQuote quote = true →
      stringBody? quote false cs ≠ none)
    (h : P offset done cs) :
    (∀ tokens, scanFrom offset done cs = .ok tokens →
        ∃ offset done, P offset done [] ∧ tokens = addBlank offset offset done) ∧
      ∀ line, scanFrom offset done cs ≠ .error (.unterminated line) := by
  revert h
  refine lexeme_induction (motive := fun offset done cs result => P offset done cs →
    (∀ tokens, result = .ok tokens →
        ∃ offset done, P offset done [] ∧ tokens = addBlank offset offset done) ∧
      ∀ line, result ≠ .error (.unterminated line)) ?nil ?blank ?token ?fault
  case nil =>
    intro offset done h
    refine ⟨?_, by simp⟩
    rintro _ ⟨⟩
    exact ⟨offset, done, h, rfl⟩
  case blank =>
    intro offset done c cs result hblank ih h
    exact ih (hstep _ _ _ _ _ _ h (.blank hblank))
  case token =>
    intro offset done cs t next rest result hlexes _ ih h
    exact ih (hstep _ _ _ _ _ _ h hlexes.read)
  case fault =>
    intro offset done cs fault hrejects h
    refine ⟨by simp, ?_⟩
    rintro line ⟨⟩
    obtain ⟨hquote, hclose⟩ := hrejects
    rw [closingQuote?_eq hquote, Option.map_eq_none_iff] at hclose
    exact hclosed _ _ _ _ h hquote hclose

/-! ## Strings -/

variable {line front : List Char} {found strings : List (Char × List Char)}

def stringTokens (tokens : List Token) : List Token := tokens.filter (·.kind = .string)

theorem stringTokens_cons (t : Token) :
    stringTokens (t :: done).reverse =
      if t.kind = .string then stringTokens done.reverse ++ [t] else stringTokens done.reverse := by
  by_cases ht : t.kind = .string <;> simp [stringTokens, ht]

theorem stringTokens_addBlank (start stop : Nat) :
    stringTokens (addBlank start stop done).reverse = stringTokens done.reverse := by
  rw [addBlank]
  repeat' split
  all_goals simp [stringTokens]

theorem stringTokens_settleLabel : stringTokens (settleLabel tokens) = stringTokens tokens := by
  rw [settleLabel]
  split
  · have hkind : ((fun t : Token => decide (t.kind = .string)) ∘ fun t =>
        if t.kind = .impliedLabel then { t with kind := .blank } else t) =
          fun t => decide (t.kind = .string) := by
      funext t
      by_cases ht : t.kind = .impliedLabel <;> simp [ht]
    rw [stringTokens, List.filter_map, hkind, stringTokens]
    refine (List.map_congr_left fun t ht => if_neg ?_).trans (List.map_id' _)
    simp [of_decide_eq_true (List.mem_filter.mp ht).2]
  · rfl

/-- The tokens cover the strings `found`, and every `;` of the part `front` of the line is in one of
them. -/
structure Covered (line front : List Char) (tokens : List Token)
    (found : List (Char × List Char)) : Prop where
  strings : List.Forall₂ (Token.Covers line) tokens found
  comments : ∀ before after, front = before ++ ';' :: after →
    ∃ t ∈ tokens, t.start ≤ byteSize before ∧ byteSize before < t.stop

theorem Covered.code {chars : List Char} (h : Covered line front tokens found)
    (hchars : ';' ∉ chars) : Covered line (front ++ chars) tokens found where
  strings := h.strings
  comments before after heq := by
    rcases List.append_eq_append_iff.mp heq with ⟨mid, rfl, hmid⟩ | ⟨mid, rfl, hmid⟩
    · exact absurd (by simp [hmid]) hchars
    · rcases mid with _ | ⟨c, mid⟩
      · rw [List.nil_append] at hmid
        exact absurd (by simp [← hmid]) hchars
      · cases hmid
        exact h.comments before mid rfl

theorem Covered.string (h : Covered line front tokens found) (hquote : isQuote quote = true)
    (hline : line = front ++ quote :: (body ++ quote :: rest)) {t : Token}
    (hstart : t.start = byteSize (front ++ [quote])) (hstop : t.stop = t.start + byteSize body) :
    Covered line (front ++ quote :: (body ++ [quote])) (tokens ++ [t])
      (found ++ [(quote, body)]) where
  strings := by
    refine List.rel_append h.strings (.cons ⟨front, rest, hline, hstart, hstop⟩ .nil)
  comments before after heq := by
    have hne : quote ≠ ';' := by
      rintro rfl
      cases hquote
    rcases List.append_eq_append_iff.mp heq with ⟨mid, rfl, hmid⟩ | ⟨mid, rfl, hmid⟩
    · -- the `;` is neither of the two quotes
      rw [List.cons_eq_append_iff] at hmid
      rcases hmid with ⟨rfl, hmid⟩ | ⟨mid, rfl, hmid⟩
      · exact absurd (List.cons.inj hmid).1 hne.symm
      · rcases List.eq_nil_or_concat after with rfl | ⟨after', x, rfl⟩
        · exact absurd (List.cons.inj (List.append_inj' hmid rfl).2).1 hne
        · have hlast : body ++ [quote] = (mid ++ ';' :: after') ++ [x] := by simpa using hmid
          have hbody : body = mid ++ ';' :: after' := (List.append_inj' hlast rfl).1
          have hsize := (';' : Char).utf8Size_pos
          refine ⟨t, by simp, ?_⟩
          rw [hstop, hstart, hbody]
          simp only [Text.byteSize_append, Text.byteSize_cons, Text.byteSize_nil]
          omega
    · rcases mid with _ | ⟨c, mid⟩
      · cases hmid
        exact absurd rfl hne
      · cases hmid
        obtain ⟨t', ht', hcover⟩ := h.comments before mid rfl
        exact ⟨t', List.mem_append_left _ ht', hcover⟩

theorem of_hasStrings_code (h : HasStrings (c :: cs) strings) (hc : isQuote c = false) :
    c ≠ ';' ∧ HasStrings cs strings := by
  generalize htext : c :: cs = text at h
  cases h with
  | nil => cases htext
  | code hquote hcomment h =>
    cases htext
    exact ⟨hcomment, h⟩
  | string hquote =>
    rw [← (List.cons.inj htext).1, hc] at hquote
    cases hquote

theorem of_hasStrings_quote (h : HasStrings (quote :: cs) strings)
    (hquote : isQuote quote = true) :
    ∃ body rest more, stringBody? quote false cs = some (body, rest) ∧
      strings = (quote, body) :: more ∧ HasStrings rest more := by
  generalize htext : quote :: cs = text at h
  cases h with
  | nil => cases htext
  | code hcode =>
    rw [← (List.cons.inj htext).1, hquote] at hcode
    cases hcode
  | string hquote hbody h =>
    cases htext
    exact ⟨_, _, _, hbody, rfl, h⟩

theorem of_hasStrings_append {chars : List Char} (h : HasStrings (chars ++ rest) strings)
    (hchars : ∀ c ∈ chars, isQuote c = false) : ';' ∉ chars ∧ HasStrings rest strings := by
  induction chars with
  | nil => exact ⟨by simp, h⟩
  | cons c chars ih =>
    rw [List.forall_mem_cons] at hchars
    obtain ⟨hcomment, h⟩ := of_hasStrings_code h hchars.1
    obtain ⟨hnone, hrest⟩ := ih h hchars.2
    exact ⟨by simp [Ne.symm hcomment, hnone], hrest⟩

/-- A part of a line has been read to tokens that cover its strings, the others are still to come. -/
def Follows (line : List Char) (strings : List (Char × List Char)) (offset : Nat)
    (done : List Token) (cs : List Char) : Prop :=
  ∃ front found rest, line = front ++ cs ∧ offset = byteSize front ∧ strings = found ++ rest ∧
    HasStrings cs rest ∧ Covered line front (stringTokens done.reverse) found

theorem Follows.read {next : Nat} {done' : List Token} (h : Follows line strings offset done cs)
    (hread : Read offset done cs next done' rest) : Follows line strings next done' rest := by
  obtain ⟨front, found, more, hline, rfl, hstrings, hhas, hcovered⟩ := h
  cases hread with
  | @blank c _ hblank =>
    obtain ⟨hcomment, hrest⟩ := of_hasStrings_code hhas (isQuote_of_isBlank hblank)
    refine ⟨front ++ [c], found, more, by simp [hline], by simp, hstrings, hrest, ?_⟩
    rw [stringTokens_addBlank]
    exact hcovered.code (by simpa using Ne.symm hcomment)
  | @string quote body _ hquote hbody =>
    obtain ⟨body', rest', more', hbody', rfl, hrest⟩ := of_hasStrings_quote hhas hquote
    rw [hbody] at hbody'
    cases hbody'
    refine ⟨front ++ quote :: (body ++ [quote]), found ++ [(quote, body)], more', by simp [hline],
      by simp [Nat.add_assoc], by simp [hstrings], hrest, ?_⟩
    rw [stringTokens_cons, if_pos rfl]
    exact hcovered.string hquote hline (by simp) rfl
  | token chars hcs hstop hkind hchars =>
    subst hcs
    obtain ⟨hnone, hrest⟩ := of_hasStrings_append hhas hchars
    refine ⟨front ++ chars, found, more, by simp [hline], by simp [hstop], hstrings, hrest, ?_⟩
    rw [stringTokens_cons, if_neg hkind]
    exact hcovered.code hnone

theorem scan_of_hasStrings (h : HasStrings line strings) :
    (∀ opened, scan line ≠ .error (.unterminated opened)) ∧
      ∀ tokens, scan line = .ok tokens → Covered line line (stringTokens tokens) strings := by
  have hstart : Follows line strings 0 [] line :=
    ⟨[], [], strings, rfl, rfl, rfl, h, .nil, by simp⟩
  have hclosed : ∀ offset done quote cs, Follows line strings offset done (quote :: cs) →
      isQuote quote = true → stringBody? quote false cs ≠ none := by
    rintro _ _ quote cs ⟨_, _, _, -, -, -, hhas, -⟩ hquote hnone
    obtain ⟨body, rest, more, hbody, -⟩ := of_hasStrings_quote hhas hquote
    rw [hnone] at hbody
    cases hbody
  obtain ⟨hok, herror⟩ := scanFrom_read (P := Follows line strings)
    (fun _ _ _ _ _ _ h hread => h.read hread) hclosed hstart
  rw [scan]
  cases hscan : scanFrom 0 [] line with
  | error fault =>
    refine ⟨fun opened heq => ?_, fun tokens heq => ?_⟩
    · cases heq
      exact herror opened hscan
    · cases heq
  | ok done =>
    refine ⟨fun opened heq => ?_, fun tokens heq => ?_⟩
    · cases heq
    · cases heq
      obtain ⟨offset, done, ⟨front, found, rest, hline, -, hstrings, hhas, hcovered⟩, rfl⟩ :=
        hok _ hscan
      cases hhas
      rw [List.append_nil] at hline hstrings
      rw [stringTokens_settleLabel, stringTokens_addBlank, hstrings]
      exact hline ▸ hcovered

end Scan

/-! ## Lines -/

/-- A logical line in whose strings no line break is escaped is scanned to the strings that its
builder has seen in it, each between its quotes and without its line breaks. Every `;` of the line
is in one of them. -/
theorem scan_strings {bytes : List UInt8} {l : Line}
    (hbreak : ∀ r ∈ regions (bytes.map byteChar), r.escapesBreak = false)
    (hl : l ∈ (logicalLines bytes).lines) :
    ({} : LineBuilder).quotesOf (bytes.map byteChar) =
        (regions (bytes.map byteChar)).flatMap Region.quotes ∧
      ∃ front piece back, pieces (bytes.map byteChar) = front ++ piece :: back ∧
        l = ⟨String.ofList (textOf piece), UInt32.ofNat (startOf front)⟩ ∧
        (∀ opened, scan l.text.toList ≠ .error (.unterminated opened)) ∧
        ∀ tokens, scan l.text.toList = .ok tokens →
          List.Forall₂ (Token.Covers l.text.toList) (tokens.filter (·.kind = .string))
              (piece.filterMap Region.string?) ∧
            ∀ before after, l.text.toList = before ++ ';' :: after →
              ∃ t ∈ tokens, t.kind = .string ∧ t.start ≤ byteSize before ∧
                byteSize before < t.stop := by
  obtain ⟨front, piece, back, hpieces, rfl, hhas⟩ := hasStrings_of_line hbreak hl
  obtain ⟨hclosed, hscan⟩ := Scan.scan_of_hasStrings hhas
  rw [← String.toList_ofList (l := textOf piece)] at hclosed hscan
  refine ⟨(LineBuilder.read_new _).2, front, piece, back, hpieces, rfl, hclosed,
    fun tokens htokens => ?_⟩
  have hcovered := hscan tokens htokens
  refine ⟨hcovered.strings, fun before after heq => ?_⟩
  obtain ⟨t, ht, hstart, hstop⟩ := hcovered.comments before after heq
  obtain ⟨ht, hkind⟩ := List.mem_filter.mp ht
  exact ⟨t, ht, by simpa using hkind, hstart, hstop⟩

/-- A string that goes on after a line break is one token of its line, and so is the `;` in it. -/
theorem scan_strings_continued :
    (∀ r ∈ regions ([32, 39, 97, 59, 10, 98, 39, 32, 59, 39].map byteChar),
        r.escapesBreak = false) ∧
      (⟨" 'a;b' ", 1⟩ : Line) ∈ (logicalLines [32, 39, 97, 59, 10, 98, 39, 32, 59, 39]).lines ∧
      scan " 'a;b' ".toList = .ok [⟨.string, 2, 5⟩, ⟨.blank, 6, 7⟩] ∧
      List.Forall₂ (Token.Covers " 'a;b' ".toList) [⟨.string, 2, 5⟩] [('\'', ['a', ';', 'b'])] := by
  have hregions : regions ([32, 39, 97, 59, 10, 98, 39, 32, 59, 39].map byteChar) =
      [.code ' ', .string '\'' ['a', ';', '\n', 'b'], .code ' ', .comment [';', '\'']] := by cbv
  have hbreak : ∀ r ∈ regions ([32, 39, 97, 59, 10, 98, 39, 32, 59, 39].map byteChar),
      r.escapesBreak = false := by
    rw [hregions]
    decide
  have hline : (⟨" 'a;b' ", 1⟩ : Line) ∈
      (logicalLines [32, 39, 97, 59, 10, 98, 39, 32, 59, 39]).lines := by decide
  have hscan : scan " 'a;b' ".toList = .ok [⟨.string, 2, 5⟩, ⟨.blank, 6, 7⟩] := by cbv
  obtain ⟨-, front, piece, back, hpieces, -, -, hstrings⟩ := scan_strings hbreak hline
  have hpiece : piece ∈ front ++ piece :: back := by simp
  have hpieces' : pieces ([32, 39, 97, 59, 10, 98, 39, 32, 59, 39].map byteChar) =
      [[.code ' ', .string '\'' ['a', ';', '\n', 'b'], .code ' ', .comment [';', '\'']]] := by
    rw [pieces, hregions]
    decide
  rw [← hpieces, hpieces', List.mem_singleton] at hpiece
  rw [hpiece] at hstrings
  exact ⟨hbreak, hline, hscan, (hstrings _ hscan).1⟩

end MacroAsm
