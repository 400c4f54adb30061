import Mathlib.Data.List.Infix
import Mathlib.Data.List.TakeWhile
import MacroAsm.Proofs.Line.Builder

/-!
# The lines of a file

A file is cut into pieces at its line breaks outside strings (`pieces`). Each piece is a logical
line, unless nothing of it is left, or a fault if it ends inside a string (`itemOf?`).
`lineItems` is what all pieces come to, each numbered by what stands before it in the file.

`stream_eq_lineItems`: this is what a stream hands out request by request, and what a file is split
into. Before each character the builder is in the string that the regions say.

Proof. What a builder knows of the part already read is what the pieces of that part say
(`LineBuilder.Follows`). Reading one more region keeps this, so that the builder goes through the
pieces one after the other (`itemsFrom`).
-/

namespace MacroAsm

/-! ## Pieces -/

/-- The regions of each logical line. -/
def pieces (cs : List Char) : List (List Region) := (regions cs).splitOn .lineBreak

/-- The characters of a file before the piece that comes after `front`. -/
def charsBefore (front : List (List Region)) : List Char :=
  front.flatMap fun piece => piece.flatMap Region.chars ++ ['\n']

def textOf (piece : List Region) : List Char := piece.flatMap Region.text

/-- The physical line on which the piece after `front` starts. -/
def startOf (front : List (List Region)) : Nat := 1 + (charsBefore front).count '\n'

/-- What the piece after `front` comes to: a fault on the line of its last quote if that string is
still open, and otherwise a line unless there is nothing in it. -/
def itemOf? (front : List (List Region)) (piece : List Region) : Option (Except Fault Line) :=
  match piece.getLast? with
  | some (.openString _ _) =>
    let before := charsBefore front ++ piece.dropLast.flatMap Region.chars
    some (.error (.unterminated (UInt32.ofNat (1 + before.count '\n'))))
  | _ =>
    if textOf piece = [] then none
    else some (.ok ⟨String.ofList (textOf piece), UInt32.ofNat (startOf front)⟩)

/-- What the pieces of a file come to, each with those before it. -/
def lineItems (cs : List Char) : List (Except Fault Line) :=
  ((pieces cs).inits.zip (pieces cs)).filterMap fun (front, piece) => itemOf? front piece

/-! ## One piece after the other -/

/-- What the rest of a file comes to, of which the pieces `front` and the regions `piece` of the
next one have been read. -/
def itemsFrom (front : List (List Region)) (piece : List Region) :
    List Region → List (Except Fault Line)
  | [] => (itemOf? front piece).toList
  | .lineBreak :: rs => (itemOf? front piece).toList ++ itemsFrom (front ++ [piece]) [] rs
  | r :: rs => itemsFrom front (piece ++ [r]) rs

variable {front : List (List Region)} {piece rs : List Region} {r : Region} {b : LineBuilder}
  {cs : List Char}

theorem itemsFrom_cons (hr : r ≠ .lineBreak) :
    itemsFrom front piece (r :: rs) = itemsFrom front (piece ++ [r]) rs := by
  cases r <;> first | rfl | contradiction

theorem itemsFrom_eq :
    itemsFrom front piece rs =
      ((rs.splitOnPPrepend (· == .lineBreak) piece.reverse).inits.zip
        (rs.splitOnPPrepend (· == .lineBreak) piece.reverse)).filterMap
          fun (ps, p) => itemOf? (front ++ ps) p := by
  induction rs generalizing front piece with
  | nil => cases h : itemOf? front piece <;> simp [itemsFrom, h]
  | cons r rs ih =>
    by_cases hr : r = .lineBreak
    · subst hr
      rw [itemsFrom, ih, List.splitOnPPrepend_cons_pos (by simp), List.inits_cons,
        List.reverse_reverse, List.zip_cons_cons, List.zip_map_left, List.reverse_nil,
        List.splitOnPPrepend_nil_right]
      cases h : itemOf? front piece <;> simp [List.filterMap_map, h]
    · rw [itemsFrom_cons hr, ih, List.splitOnPPrepend_cons_neg (by simp [hr]),
        List.reverse_append]
      rfl

theorem lineItems_eq (cs : List Char) : lineItems cs = itemsFrom [] [] (regions cs) := by
  rw [itemsFrom_eq]
  rfl

/-! ## The builder in a piece -/

namespace LineBuilder

/-- The builder has read the pieces `front` and the regions `piece` of the next one. -/
structure Follows (b : LineBuilder) (front : List (List Region)) (piece : List Region) : Prop where
  text : b.reversedText = (textOf piece).reverse
  line : b.line =
    UInt32.ofNat (1 + (charsBefore front ++ piece.flatMap Region.chars).count '\n')
  startLine : b.startLine = UInt32.ofNat (startOf front)
  closed : ∀ quote body, piece.getLast? ≠ some (.openString quote body)

theorem Follows.itemOf? (h : b.Follows front piece) :
    itemOf? front piece = b.built?.map .ok := by
  have htext : b.reversedText.isEmpty = decide (textOf piece = []) := by
    rw [h.text, List.isEmpty_reverse]
    cases textOf piece <;> rfl
  rw [MacroAsm.itemOf?, built?, htext, h.text, List.reverse_reverse, h.startLine]
  split
  next quote body hlast => exact absurd hlast (h.closed quote body)
  next => by_cases hnil : textOf piece = [] <;> simp [hnil]

theorem Follows.lastItem? (h : b.Follows front piece) (hmode : b.mode.quote? = none) :
    b.lastItem? = MacroAsm.itemOf? front piece := by
  rw [h.itemOf?, LineBuilder.lastItem?, finish]
  cases hm : b.mode with
  | quoted quote openedAt escaped =>
    rw [hm] at hmode
    cases hmode
  | _ => rfl

theorem Follows.lineBreak (h : b.Follows front piece) (hmode : b.mode.quote? = none) :
    (b.feed '\n').1.Follows (front ++ [piece]) [] ∧ (b.feed '\n').1.mode = .code ∧
      (b.feed '\n').2 = b.built? := by
  have hcount : b.line + 1 = UInt32.ofNat (startOf (front ++ [piece])) := by
    rw [h.line, ← lineAfter_lineBreak, lineAfter_ofNat, startOf, charsBefore, charsBefore]
    refine congrArg UInt32.ofNat ?_
    simp [Nat.add_assoc]
  rw [feed_lineBreak_eq hmode]
  exact ⟨⟨rfl, by simpa [startOf] using hcount, hcount, by simp⟩, rfl, rfl⟩

/-- A region that is read adds itself to the piece, and comes before what the rest of the file is
read as. -/
theorem Follows.read_cons {next : LineBuilder} {rest : List Char} (h : b.Follows front piece)
    (hreads : b.Reads r next) (hbreak : r ≠ .lineBreak)
    (hclosed : ∀ quote body, r ≠ .openString quote body)
    (hrest : next.Follows front (piece ++ [r]) →
      next.itemsOf rest = itemsFrom front (piece ++ [r]) rs ∧
        next.quotesOf rest = rs.flatMap Region.quotes) :
    b.itemsOf (r.chars ++ rest) = itemsFrom front piece (r :: rs) ∧
      b.quotesOf (r.chars ++ rest) = (r :: rs).flatMap Region.quotes := by
  have hnext : next.Follows front (piece ++ [r]) := by
    refine ⟨?_, ?_, hreads.startLine.trans h.startLine, by simpa using hclosed⟩
    · rw [hreads.text, h.text, textOf, textOf, List.flatMap_append, List.reverse_append]
      simp
    · rw [hreads.line, h.line, lineAfter_ofNat]
      refine congrArg UInt32.ofNat ?_
      simp [Nat.add_assoc]
  obtain ⟨hitems, hquotes⟩ := hrest hnext
  rw [itemsOf_append, quotesOf_append, hreads.feedAll, hreads.quotes, hitems, hquotes,
    itemsFrom_cons hbreak]
  exact ⟨rfl, rfl⟩

theorem Follows.read (h : b.Follows front piece)
    (hmode : b.mode = .code ∨ b.mode = .comment ∧ ∀ c ∈ cs.head?, c = '\n') :
    b.itemsOf cs = itemsFrom front piece (regions cs) ∧
      b.quotesOf cs = (regions cs).flatMap Region.quotes := by
  have hopen : b.mode.quote? = none := by
    rcases hmode with hmode | ⟨hmode, -⟩ <;> rw [hmode] <;> rfl
  -- a comment ends at a line break, so that all other regions start in code
  have hcode : ∀ c ∈ cs.head?, c ≠ '\n' → b.mode = .code := fun c hc hne =>
    hmode.resolve_right fun hcomment => hne (hcomment.2 c hc)
  fun_induction regions cs generalizing b front piece with
  | case1 =>
    refine ⟨?_, rfl⟩
    rw [itemsOf, feedAll, h.lastItem? hopen]
    rfl
  | case2 cs ih =>
    obtain ⟨hnext, hmode', hline⟩ := h.lineBreak hopen
    obtain ⟨hitems, hquotes⟩ := ih hnext (.inl hmode') (by rw [hmode']; rfl) fun _ _ _ => hmode'
    rw [itemsOf_cons, quotesOf, hline, hitems, hquotes, hopen, itemsFrom, h.itemOf?]
    cases b.built? <;> exact ⟨rfl, rfl⟩
  | case3 cs hbreak ih =>
    have hcs : '\n' ∉ cs.takeWhile (· ≠ '\n') := fun hmem => by
      simpa using List.mem_takeWhile_imp hmem
    have hrest : ∀ c ∈ (cs.dropWhile (· ≠ '\n')).head?, c = '\n' := by
      intro c hc
      have hhead := List.head?_dropWhile_not (· ≠ '\n') cs
      rw [Option.mem_def.mp hc] at hhead
      simpa using hhead
    have hread := h.read_cons (reads_comment (hcode _ rfl hbreak) hcs) (by simp) (by simp)
      fun hnext => ih hnext (.inr ⟨rfl, hrest⟩) rfl fun c hc hne => absurd (hrest c hc) hne
    rwa [Region.chars, List.cons_append, List.takeWhile_append_dropWhile] at hread
  | case4 c cs hbreak hcomment hquote body rest hbody ih =>
    have hread := h.read_cons (reads_string (hcode _ rfl hbreak) hquote hbody) (by simp) (by simp)
      fun hnext => ih hnext (.inl rfl) rfl fun _ _ _ => rfl
    rwa [Region.chars, List.cons_append, List.append_assoc, List.singleton_append,
      ← eq_of_stringBody? hbody] at hread
  | case5 c cs hbreak hcomment hquote hbody =>
    obtain ⟨⟨escaped, hlast⟩, hlines, hquotes⟩ := feedAll_openString (c :: b.reversedText)
      b.line b.line b.startLine hbody
    rw [itemsOf_cons, quotesOf, feed_quote (hcode _ rfl hbreak) hquote, hquotes, hopen, itemsOf,
      hlines, LineBuilder.lastItem?, finish, hlast, h.line]
    simp [itemsFrom, MacroAsm.itemOf?, Region.quotes]
  | case6 c cs hbreak hcomment hquote ih =>
    have hmode' := hcode _ rfl hbreak
    rw [Bool.not_eq_true] at hquote
    exact h.read_cons (reads_code hmode' hbreak hcomment hquote) (by simp) (by simp) fun hnext =>
      ih hnext (.inl hmode') hopen fun _ _ _ => hmode'

theorem read_new (cs : List Char) :
    ({} : LineBuilder).itemsOf cs = lineItems cs ∧
      ({} : LineBuilder).quotesOf cs = (regions cs).flatMap Region.quotes := by
  have hnew : Follows {} [] [] := ⟨rfl, rfl, rfl, by simp⟩
  rw [lineItems_eq]
  exact hnew.read (.inl rfl)

end LineBuilder

/-! ## Streams -/

/-- A file is split into what its pieces come to, and a stream hands that out request by request
and then nothing more. The builder has a string open where the regions say so. -/
theorem stream_eq_lineItems (bytes : List UInt8) :
    (regions (bytes.map byteChar)).flatMap Region.chars = bytes.map byteChar ∧
      ({} : LineBuilder).quotesOf (bytes.map byteChar) =
        (regions (bytes.map byteChar)).flatMap Region.quotes ∧
      (logicalLines bytes).items = lineItems (bytes.map byteChar) ∧
      ∀ n, (LineStream.skip { bytes } n).next.1 = (lineItems (bytes.map byteChar))[n]? := by
  obtain ⟨hitems, hquotes⟩ := LineBuilder.read_new (bytes.map byteChar)
  refine ⟨chars_regions _, hquotes, (items_logicalLines bytes).trans hitems, fun n => ?_⟩
  have hstream : LineStream.items { bytes } = lineItems (bytes.map byteChar) := hitems
  rw [(LineStream.next_eq _).1, LineStream.items_skip, hstream, List.head?_drop]

end MacroAsm
