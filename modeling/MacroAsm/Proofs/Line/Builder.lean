import Mathlib.Data.List.Basic
import MacroAsm.Proofs.Line.Region

/-!
# A builder reads regions

`LineBuilder.itemsOf` is all that a builder hands out for the rest of a file, which is the same
whether it takes the file as a whole (`items_logicalLines`) or as far as lines are asked for
(`LineStream.next_eq`). Characters of one region are taken together (`LineBuilder.Reads`).
-/

namespace MacroAsm

def byteChar (byte : UInt8) : Char := Char.ofNat byte.toNat

theorem toNat_byteChar (byte : UInt8) : (byteChar byte).toNat = byte.toNat := by
  have hvalid : byte.toNat.isValidChar := .inl (by have := byte.toNat_lt; omega)
  have hchar : byteChar byte = Char.ofNatAux byte.toNat hvalid := dif_pos hvalid
  exact congrArg Char.toNat hchar

theorem byteChar_inj {a b : UInt8} : byteChar a = byteChar b ↔ a = b := by
  refine ⟨fun h => UInt8.toNat_inj.mp ?_, fun h => h ▸ rfl⟩
  rw [← toNat_byteChar, h, toNat_byteChar]

theorem byteChar_eq_iff (byte : UInt8) : byteChar byte = '\n' ↔ byte = 10 :=
  byteChar_inj (b := 10)

theorem count_byteChar (bytes : List UInt8) :
    (bytes.map byteChar).count '\n' = bytes.count 10 := by
  rw [List.count, List.countP_map]
  exact List.countP_congr fun byte _ => by simp [byteChar_eq_iff]

def LineMode.quote? : LineMode → Option Char
  | quoted quote _ _ => some quote
  | _ => none

/-- The number of the line that is reached from the line `line` behind some characters. -/
def lineAfter (line : UInt32) (cs : List Char) : UInt32 := line + UInt32.ofNat (cs.count '\n')

variable {b : LineBuilder} {c quote : Char} {cs body rest text : List Char} {done : List Line}
  {bytes : List UInt8} {openedAt line start : UInt32} {escaped : Bool}

theorem lineAfter_of_not_mem (h : '\n' ∉ cs) : lineAfter line cs = line := by
  rw [lineAfter, List.count_eq_zero.mpr h]
  exact UInt32.add_zero line

theorem lineAfter_lineBreak (line : UInt32) : lineAfter line ['\n'] = line + 1 := rfl

theorem lineAfter_of_ne (h : c ≠ '\n') : lineAfter line [c] = line :=
  lineAfter_of_not_mem (by simpa using h.symm)

theorem lineAfter_append (line : UInt32) (cs rest : List Char) :
    lineAfter line (cs ++ rest) = lineAfter (lineAfter line cs) rest := by
  rw [lineAfter, lineAfter, lineAfter, List.count_append, UInt32.ofNat_add, UInt32.add_assoc]

theorem lineAfter_cons : lineAfter line (c :: cs) = lineAfter (lineAfter line [c]) cs :=
  lineAfter_append line [c] cs

theorem lineAfter_ofNat (n : Nat) (cs : List Char) :
    lineAfter (UInt32.ofNat n) cs = UInt32.ofNat (n + cs.count '\n') :=
  (UInt32.ofNat_add ..).symm

namespace LineBuilder

/-- Takes one character, and hands out a line if the character completes it. -/
def feed (b : LineBuilder) (c : Char) : LineBuilder × Option Line :=
  if c = '\n' then b.breakLine
  else
    match modeAfter b.mode b.line c with
    | .comment => ({ b with mode := .comment }, none)
    | mode => ({ b with mode, reversedText := c :: b.reversedText }, none)

def feedAll (b : LineBuilder) : List Char → LineBuilder × List Line
  | [] => (b, [])
  | c :: cs =>
    let (next, line?) := b.feed c
    let (last, lines) := next.feedAll cs
    (last, line?.toList ++ lines)

def lastItem? (b : LineBuilder) : Option (Except Fault Line) :=
  match b.finish with
  | .ok last => last.map .ok
  | .error fault => some (.error fault)

/-- The lines that a builder hands out for the rest of a file, and the fault at its end. -/
def itemsOf (b : LineBuilder) (cs : List Char) : List (Except Fault Line) :=
  (b.feedAll cs).2.map .ok ++ (b.feedAll cs).1.lastItem?.toList

/-- The quote of the string that is open before each of the next characters. -/
def quotesOf (b : LineBuilder) : List Char → List (Option Char)
  | [] => []
  | c :: cs => b.mode.quote? :: (b.feed c).1.quotesOf cs

/-! ## One after the other -/

theorem feedAll_cons :
    b.feedAll (c :: cs) =
      (((b.feed c).1.feedAll cs).1, (b.feed c).2.toList ++ ((b.feed c).1.feedAll cs).2) := rfl

theorem feedAll_append :
    b.feedAll (cs ++ rest) =
      (((b.feedAll cs).1.feedAll rest).1, (b.feedAll cs).2 ++ ((b.feedAll cs).1.feedAll rest).2) := by
  induction cs generalizing b with
  | nil => rfl
  | cons c cs ih => rw [List.cons_append, feedAll_cons, feedAll_cons, ih, List.append_assoc]

theorem itemsOf_append :
    b.itemsOf (cs ++ rest) = (b.feedAll cs).2.map .ok ++ (b.feedAll cs).1.itemsOf rest := by
  rw [itemsOf, feedAll_append, List.map_append, List.append_assoc]
  rfl

theorem itemsOf_cons :
    b.itemsOf (c :: cs) = (b.feed c).2.toList.map .ok ++ (b.feed c).1.itemsOf cs := by
  rw [itemsOf, feedAll_cons, List.map_append, List.append_assoc]
  rfl

theorem quotesOf_append :
    b.quotesOf (cs ++ rest) = b.quotesOf cs ++ (b.feedAll cs).1.quotesOf rest := by
  induction cs generalizing b with
  | nil => rfl
  | cons c cs ih =>
    rw [List.cons_append, quotesOf, quotesOf, ih]
    rfl

theorem push_eq (b : LineBuilder) (byte : UInt8) : b.push byte = b.feed (byteChar byte) := rfl

theorem itemsOf_pushAll (b : LineBuilder) (done : List Line) (bytes : List UInt8) :
    (b.pushAll done bytes).2.reverse.map .ok ++ (b.pushAll done bytes).1.lastItem?.toList =
      done.reverse.map .ok ++ b.itemsOf (bytes.map byteChar) := by
  induction bytes generalizing b done with
  | nil => rfl
  | cons byte bytes ih =>
    rw [pushAll, List.map_cons, itemsOf_cons, push_eq]
    rcases b.feed (byteChar byte) with ⟨next, _ | line⟩
    · exact ih _ _
    · simp only [ih]
      simp

end LineBuilder

/-- A file is split into what a new builder makes of it. -/
theorem items_logicalLines (bytes : List UInt8) :
    (logicalLines bytes).items = ({} : LineBuilder).itemsOf (bytes.map byteChar) := by
  have h := LineBuilder.itemsOf_pushAll {} [] bytes
  simp only [List.reverse_nil, List.map_nil, List.nil_append] at h
  rw [← h, logicalLines, LineBuilder.lastItem?]
  cases hfinish : (({} : LineBuilder).pushAll [] bytes).1.finish with
  | error fault => simp [hfinish, LineSplit.items]
  | ok last => cases last <;> simp [hfinish, LineSplit.items]

/-! ## Streams -/

namespace LineStream

/-- All that a stream still has to hand out. -/
def items (s : LineStream) : List (Except Fault Line) :=
  match s.builder? with
  | some b => b.itemsOf (s.bytes.map byteChar)
  | none => []

theorem nextFrom_eq :
    (nextFrom b bytes).1 = (b.itemsOf (bytes.map byteChar)).head? ∧
      (nextFrom b bytes).2.items = (b.itemsOf (bytes.map byteChar)).tail := by
  induction bytes generalizing b with
  | nil =>
    cases hfinish : b.finish with
    | error fault =>
      simp [nextFrom, LineBuilder.itemsOf, LineBuilder.feedAll, LineBuilder.lastItem?, items,
        hfinish]
    | ok last =>
      cases last <;>
        simp [nextFrom, LineBuilder.itemsOf, LineBuilder.feedAll, LineBuilder.lastItem?, items,
          hfinish]
  | cons byte bytes ih =>
    rw [nextFrom, List.map_cons, LineBuilder.itemsOf_cons, LineBuilder.push_eq]
    rcases b.feed (byteChar byte) with ⟨next, _ | line⟩
    · exact ih
    · exact ⟨rfl, rfl⟩

theorem next_eq (s : LineStream) : s.next.1 = s.items.head? ∧ s.next.2.items = s.items.tail := by
  obtain ⟨bytes, _ | b⟩ := s
  · exact ⟨rfl, rfl⟩
  · exact nextFrom_eq

theorem items_skip (s : LineStream) (n : Nat) : (s.skip n).items = s.items.drop n := by
  induction n generalizing s with
  | zero => rfl
  | succ n ih => rw [skip, ih, (next_eq s).2, List.drop_tail]

end LineStream

/-! ## Regions -/

namespace LineBuilder

theorem feedAll_comment (hmode : b.mode = .comment) (hcs : '\n' ∉ cs) :
    b.feedAll cs = (b, []) ∧ b.quotesOf cs = cs.map fun _ => none := by
  induction cs with
  | nil => exact ⟨rfl, rfl⟩
  | cons c cs ih =>
    rw [List.mem_cons, not_or] at hcs
    have hfeed : b.feed c = (b, none) := by
      obtain ⟨mode, text, line, start⟩ := b
      subst hmode
      simp [feed, Ne.symm hcs.1, modeAfter]
    obtain ⟨hall, hquotes⟩ := ih hcs.2
    rw [feedAll_cons, quotesOf, hfeed, hall, hquotes, hmode]
    exact ⟨rfl, rfl⟩

theorem isQuote_iff : isQuote quote = true ↔ quote = '\'' ∨ quote = '"' := by
  simp [isQuote]

theorem feed_quoted (hc : (c = quote && !escaped) = false) :
    feed ⟨.quoted quote openedAt escaped, text, line, start⟩ c =
      (⟨.quoted quote openedAt (c = '\\' && !escaped), [c].filter (· ≠ '\n') ++ text,
        lineAfter line [c], start⟩, none) := by
  by_cases hbreak : c = '\n'
  · subst hbreak
    simp [feed, breakLine, lineAfter_lineBreak]
  · rw [lineAfter_of_ne hbreak]
    by_cases hback : c = '\\'
    · subst hback
      simp [feed, modeAfter]
    · simp [feed, modeAfter, hbreak, hback, hc]

theorem feed_close (hquote : isQuote quote = true) :
    feed ⟨.quoted quote openedAt false, text, line, start⟩ quote =
      (⟨.code, quote :: text, line, start⟩, none) := by
  rcases isQuote_iff.mp hquote with rfl | rfl <;> rfl

theorem feedAll_string (text : List Char) (openedAt line start : UInt32)
    (hquote : isQuote quote = true)
    (hbody : stringBody? quote escaped cs = some (body, rest)) :
    feedAll ⟨.quoted quote openedAt escaped, text, line, start⟩ (body ++ [quote]) =
        (⟨.code, quote :: ((body.filter (· ≠ '\n')).reverse ++ text),
          lineAfter line body, start⟩, []) ∧
      quotesOf ⟨.quoted quote openedAt escaped, text, line, start⟩ (body ++ [quote]) =
        (body ++ [quote]).map fun _ => some quote := by
  fun_induction stringBody? quote escaped cs generalizing text line body with
  | case1 => cases hbody
  | case2 escaped c cs hclose =>
    cases hbody
    simp only [Bool.and_eq_true, decide_eq_true_eq, Bool.not_eq_true'] at hclose
    obtain ⟨rfl, rfl⟩ := hclose
    rw [List.nil_append, feedAll_cons, feed_close hquote, lineAfter_of_not_mem List.not_mem_nil]
    exact ⟨rfl, rfl⟩
  | case3 escaped c cs hopen ih =>
    obtain ⟨⟨body', rest'⟩, hbody', heq⟩ := Option.map_eq_some_iff.mp hbody
    cases heq
    rw [Bool.not_eq_true] at hopen
    obtain ⟨hall, hquotes⟩ := ih _ _ hbody'
    rw [List.cons_append, feedAll_cons, quotesOf, feed_quoted hopen, hall, hquotes]
    refine ⟨?_, rfl⟩
    rw [← lineAfter_cons]
    by_cases hbreak : c = '\n' <;> simp [hbreak]

theorem feedAll_openString (text : List Char) (openedAt line start : UInt32)
    (hbody : stringBody? quote escaped cs = none) :
    (∃ escaped', (feedAll ⟨.quoted quote openedAt escaped, text, line, start⟩ cs).1.mode =
        .quoted quote openedAt escaped') ∧
      (feedAll ⟨.quoted quote openedAt escaped, text, line, start⟩ cs).2 = [] ∧
      quotesOf ⟨.quoted quote openedAt escaped, text, line, start⟩ cs =
        cs.map fun _ => some quote := by
  fun_induction stringBody? quote escaped cs generalizing text line with
  | case1 => exact ⟨⟨_, rfl⟩, rfl, rfl⟩
  | case2 => cases hbody
  | case3 escaped c cs hopen ih =>
    rw [Bool.not_eq_true] at hopen
    obtain ⟨hmode, hlines, hquotes⟩ := ih _ _ (Option.map_eq_none_iff.mp hbody)
    rw [feedAll_cons, quotesOf, feed_quoted hopen, hquotes, hlines]
    exact ⟨hmode, rfl, rfl⟩

theorem feed_quote (hmode : b.mode = .code) (hquote : isQuote quote = true) :
    b.feed quote =
      (⟨.quoted quote b.line false, quote :: b.reversedText, b.line, b.startLine⟩, none) := by
  rcases isQuote_iff.mp hquote with rfl | rfl <;> simp [feed, modeAfter, hmode, isQuote]

theorem feed_lineBreak_eq (hopen : b.mode.quote? = none) :
    b.feed '\n' = ({ line := b.line + 1, startLine := b.line + 1 }, b.built?) := by
  show b.breakLine = _
  rw [breakLine]
  cases hmode : b.mode with
  | quoted quote openedAt escaped =>
    rw [hmode] at hopen
    cases hopen
  | _ => rfl

/-- Reading the region `r` takes the builder `b` to `next`. It completes no line, and adds what the
region says to the line. -/
structure Reads (b : LineBuilder) (r : Region) (next : LineBuilder) : Prop where
  feedAll : b.feedAll r.chars = (next, [])
  quotes : b.quotesOf r.chars = r.quotes
  text : next.reversedText = r.text.reverse ++ b.reversedText
  line : next.line = lineAfter b.line r.chars
  startLine : next.startLine = b.startLine

theorem reads_code (hmode : b.mode = .code) (hbreak : c ≠ '\n') (hcomment : c ≠ ';')
    (hquote : isQuote c = false) :
    b.Reads (.code c) { b with reversedText := c :: b.reversedText } where
  feedAll := by
    have hfeed : b.feed c = ({ b with reversedText := c :: b.reversedText }, none) := by
      simp [feed, modeAfter, hmode, hbreak, hcomment, hquote]
    rw [Region.chars, feedAll_cons, hfeed]
    rfl
  quotes := by rw [Region.chars, quotesOf, hmode]; rfl
  text := rfl
  line := (lineAfter_of_ne hbreak).symm
  startLine := rfl

theorem reads_comment (hmode : b.mode = .code) (hcs : '\n' ∉ cs) :
    b.Reads (.comment (';' :: cs)) { b with mode := .comment } := by
  have hfeed : b.feed ';' = ({ b with mode := .comment }, none) := by
    simp [feed, modeAfter, hmode]
  obtain ⟨hall, hquotes⟩ := feedAll_comment (b := { b with mode := .comment }) rfl hcs
  refine ⟨?_, ?_, rfl, ?_, rfl⟩
  · rw [Region.chars, feedAll_cons, hfeed, hall]
    rfl
  · rw [Region.chars, quotesOf, hfeed, hquotes, hmode]
    rfl
  · exact (lineAfter_of_not_mem (by simpa [Region.chars] using hcs)).symm

theorem reads_string (hmode : b.mode = .code) (hquote : isQuote quote = true)
    (hbody : stringBody? quote false cs = some (body, rest)) :
    b.Reads (.string quote body)
      ⟨.code, quote :: ((body.filter (· ≠ '\n')).reverse ++ quote :: b.reversedText),
        lineAfter b.line body, b.startLine⟩ := by
  have hbreak : quote ≠ '\n' := by
    rintro rfl
    cases hquote
  obtain ⟨hall, hquotes⟩ :=
    feedAll_string (quote :: b.reversedText) b.line b.line b.startLine hquote hbody
  refine ⟨?_, ?_, by simp [Region.text], ?_, rfl⟩
  · rw [Region.chars, feedAll_cons, feed_quote hmode hquote, hall]
    rfl
  · rw [Region.chars, quotesOf, feed_quote hmode hquote, hquotes, hmode]
    rfl
  · rw [Region.chars, lineAfter_cons, lineAfter_append, lineAfter_of_ne hbreak,
      lineAfter_of_ne hbreak]

end LineBuilder

end MacroAsm
