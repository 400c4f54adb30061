import MacroAsm.Proofs.Line.Split

/-!
# The strings of a line

The text of a logical line has the strings of its piece of the file, without the line breaks in
them, and neither a quote nor a `;` anywhere else (`hasStrings_of_line`). Dropping a line break
leaves the end of its string where it was, unless a backslash escapes the line break: that backslash
would go on to escape the character after it (`stringBody?_filter`).
-/

namespace MacroAsm

/-- Whether a line break comes right after a backslash that escapes it; `escaped` says that such a
backslash comes before the text. -/
def breakEscaped (escaped : Bool) : List Char → Bool
  | [] => false
  | c :: cs => (c = '\n' && escaped) || breakEscaped (c = '\\' && !escaped) cs

namespace Region

def escapesBreak : Region → Bool
  | string _ body => breakEscaped false body
  | openString _ body => breakEscaped false body
  | _ => false

/-- The quote of a string and what is left of its body in the line. -/
def string? : Region → Option (Char × List Char)
  | string quote body => some (quote, body.filter (· ≠ '\n'))
  | _ => none

/-- What a region is by the way in which it is found. -/
def Proper : Region → Prop
  | code c => isQuote c = false ∧ c ≠ ';'
  | string quote body =>
    isQuote quote = true ∧ ∃ cs rest, stringBody? quote false cs = some (body, rest)
  | _ => True

end Region

/-- The strings of a text, each with its quote, outside of which there is no quote and no `;`. -/
inductive HasStrings : List Char → List (Char × List Char) → Prop
  | nil : HasStrings [] []
  | code {c cs strings} (hquote : isQuote c = false) (hcomment : c ≠ ';')
      (h : HasStrings cs strings) : HasStrings (c :: cs) strings
  | string {quote body cs strings} (hquote : isQuote quote = true)
      (hbody : stringBody? quote false (body ++ quote :: cs) = some (body, cs))
      (h : HasStrings cs strings) :
      HasStrings (quote :: (body ++ quote :: cs)) ((quote, body) :: strings)

variable {quote : Char} {escaped : Bool} {cs body rest : List Char} {r : Region}
  {front back piece : List Region}

/-- Without its line breaks a string ends where it did. -/
theorem stringBody?_filter (hbody : stringBody? quote escaped cs = some (body, rest))
    (hbreak : breakEscaped escaped body = false) (text : List Char) :
    stringBody? quote escaped (body.filter (· ≠ '\n') ++ quote :: text) =
      some (body.filter (· ≠ '\n'), text) := by
  fun_induction stringBody? quote escaped cs generalizing body with
  | case1 => cases hbody
  | case2 escaped c cs hclose =>
    cases hbody
    simp only [Bool.and_eq_true, decide_eq_true_eq, Bool.not_eq_true'] at hclose
    simp [stringBody?, hclose.2]
  | case3 escaped c cs hopen ih =>
    obtain ⟨⟨body', rest'⟩, hbody', heq⟩ := Option.map_eq_some_iff.mp hbody
    cases heq
    rw [breakEscaped, Bool.or_eq_false_iff] at hbreak
    have hnext := ih hbody' hbreak.2
    by_cases hc : c = '\n'
    · -- the state before the line break is the one after it
      subst hc
      have hescaped : escaped = false := by simpa using hbreak.1
      subst hescaped
      simpa using hnext
    · rw [List.filter_cons_of_pos (by simpa using hc), List.cons_append, stringBody?, if_neg hopen,
        hnext]
      rfl

/-! ## Pieces -/

theorem proper_of_mem_regions (h : r ∈ regions cs) : r.Proper := by
  fun_induction regions cs with
  | case1 => cases h
  | case2 cs ih =>
    rcases List.mem_cons.mp h with rfl | h
    · trivial
    · exact ih h
  | case3 cs hbreak ih =>
    rcases List.mem_cons.mp h with rfl | h
    · trivial
    · exact ih h
  | case4 c cs hbreak hcomment hquote body rest hbody ih =>
    rcases List.mem_cons.mp h with rfl | h
    · exact ⟨hquote, cs, rest, hbody⟩
    · exact ih h
  | case5 c cs hbreak hcomment hquote hbody =>
    rw [List.mem_singleton] at h
    subst h
    trivial
  | case6 c cs hbreak hcomment hquote ih =>
    rcases List.mem_cons.mp h with rfl | h
    · exact ⟨by simpa using hquote, hcomment⟩
    · exact ih h

theorem eq_nil_of_openString (h : regions cs = front ++ .openString quote body :: back) :
    back = [] := by
  fun_induction regions cs generalizing front with
  | case1 => simp at h
  | case5 c cs hbreak hcomment hquote hbody =>
    rcases front with _ | ⟨r, front⟩
    · exact (List.cons.inj h).2.symm
    · simp at h
  | case2 cs ih | case3 cs hbreak ih | case4 c cs hbreak hcomment hquote body rest hbody ih
  | case6 c cs hbreak hcomment hquote ih =>
    rcases front with _ | ⟨r, front⟩
    · cases h
    · exact ih (List.cons.inj h).2

theorem infix_intercalate {α : Type} {x : α} {l : List α} {ls : List (List α)} (h : l ∈ ls) :
    l <:+: [x].intercalate ls := by
  refine List.infix_of_mem_flatten ?_
  induction ls with
  | nil => cases h
  | cons l' ls ih =>
    rcases ls with _ | ⟨l'', ls⟩
    · exact h
    · rcases List.mem_cons.mp h with rfl | h
      · exact List.mem_cons_self ..
      · exact List.mem_cons_of_mem _ (List.mem_cons_of_mem _ (ih h))

theorem infix_of_mem_pieces (h : piece ∈ pieces cs) : piece <:+: regions cs := by
  have := infix_intercalate (x := .lineBreak) h
  rwa [pieces, List.intercalate_splitOn] at this

theorem hasStrings_textOf (hproper : ∀ r ∈ piece, r.Proper)
    (hclosed : ∀ quote body, .openString quote body ∉ piece)
    (hbreak : ∀ r ∈ piece, r.escapesBreak = false) :
    HasStrings (textOf piece) (piece.filterMap Region.string?) := by
  induction piece with
  | nil => exact .nil
  | cons r piece ih =>
    rw [List.forall_mem_cons] at hproper hbreak
    have hrest := ih hproper.2 (fun quote body hmem => hclosed quote body (by simp [hmem])) hbreak.2
    cases r with
    | code c => exact .code hproper.1.1 hproper.1.2 hrest
    | comment chars => exact hrest
    | lineBreak => exact hrest
    | openString quote body => exact absurd (List.mem_cons_self ..) (hclosed quote body)
    | string quote body =>
      obtain ⟨hquote, cs, rest, hbody⟩ := hproper.1
      have hline := HasStrings.string hquote
        (stringBody?_filter hbody hbreak.1 (textOf piece)) hrest
      simpa [textOf, Region.text, Region.string?] using hline

/-! ## Lines -/

theorem exists_of_mem_inits_zip {α : Type} {front : List α} {x : α} {xs : List α}
    (h : (front, x) ∈ xs.inits.zip xs) : ∃ back, xs = front ++ x :: back := by
  induction xs generalizing front with
  | nil => cases h
  | cons y xs ih =>
    rw [List.inits_cons, List.zip_cons_cons, List.zip_map_left, List.mem_cons, List.mem_map] at h
    rcases h with heq | ⟨⟨front', x'⟩, hmem, heq⟩
    · cases heq
      exact ⟨xs, rfl⟩
    · cases heq
      obtain ⟨back, rfl⟩ := ih hmem
      exact ⟨back, rfl⟩

theorem exists_piece_of_line {bytes : List UInt8} {l : Line}
    (h : l ∈ (logicalLines bytes).lines) :
    ∃ front piece back, pieces (bytes.map byteChar) = front ++ piece :: back ∧
      l = ⟨String.ofList (textOf piece), UInt32.ofNat (startOf front)⟩ ∧
      ∀ quote body, piece.getLast? ≠ some (.openString quote body) := by
  have hmem : .ok l ∈ (logicalLines bytes).items := by
    rw [LineSplit.items]
    exact List.mem_append_left _ (List.mem_map_of_mem h)
  rw [items_logicalLines, (LineBuilder.read_new _).1, lineItems, List.mem_filterMap] at hmem
  obtain ⟨⟨front, piece⟩, hzip, hitem⟩ := hmem
  obtain ⟨back, hpieces⟩ := exists_of_mem_inits_zip hzip
  refine ⟨front, piece, back, hpieces, ?_⟩
  simp only [itemOf?] at hitem
  split at hitem
  next => cases hitem
  next hlast =>
    split at hitem
    · cases hitem
    · cases hitem
      exact ⟨rfl, hlast⟩

theorem hasStrings_of_line {bytes : List UInt8} {l : Line}
    (hbreak : ∀ r ∈ regions (bytes.map byteChar), r.escapesBreak = false)
    (h : l ∈ (logicalLines bytes).lines) :
    ∃ front piece back, pieces (bytes.map byteChar) = front ++ piece :: back ∧
      l = ⟨String.ofList (textOf piece), UInt32.ofNat (startOf front)⟩ ∧
      HasStrings (textOf piece) (piece.filterMap Region.string?) := by
  obtain ⟨front, piece, back, hpieces, hl, hlast⟩ := exists_piece_of_line h
  have hpiece : piece ∈ pieces (bytes.map byteChar) := by simp [hpieces]
  obtain ⟨as, bs, hinfix⟩ := infix_of_mem_pieces hpiece
  have hmem : ∀ r ∈ piece, r ∈ regions (bytes.map byteChar) := fun r hr => by
    rw [← hinfix]
    simp [hr]
  refine ⟨front, piece, back, hpieces, hl, hasStrings_textOf
    (fun r hr => proper_of_mem_regions (hmem r hr)) (fun quote body hopen => ?_)
    fun r hr => hbreak r (hmem r hr)⟩
  obtain ⟨before, after, rfl⟩ := List.append_of_mem hopen
  have hfile : regions (bytes.map byteChar) =
      (as ++ before) ++ .openString quote body :: (after ++ bs) := by
    rw [← hinfix]
    simp
  have hnil := eq_nil_of_openString hfile
  rw [List.append_eq_nil_iff] at hnil
  exact hlast quote body (by simp [hnil.1])

end MacroAsm
