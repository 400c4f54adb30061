import MacroAsm.Proofs.Line.Builder
import MacroAsm.Proofs.Token.Blanks

/-!
# Carriage returns at the ends of lines

If no line break of a file is inside a string, a carriage return before each of them is all that
changes in its lines (`items_withReturns`): a line without a comment ends with it, a line that had
nothing in it has the carriage return alone, and a comment takes it away.

At each line break the builder is the same in both files. The text that it has of the line closes
its strings, because a builder and a scanner go in and out of strings at the same characters
(`LineBuilder.Tracks`).
-/

namespace MacroAsm

/-- The file with a carriage return before every line break. -/
def withReturns (bytes : List UInt8) : List UInt8 :=
  bytes.flatMap fun byte => if byte = 10 then [13, 10] else [byte]

/-- No line break is inside a string. -/
def BreaksOutsideStrings (b : LineBuilder) (cs : List Char) : Prop :=
  ∀ p ∈ cs.zip (b.quotesOf cs), p.1 = '\n' → p.2 = none

instance (b : LineBuilder) (cs : List Char) : Decidable (BreaksOutsideStrings b cs) :=
  inferInstanceAs (Decidable (∀ p ∈ cs.zip (b.quotesOf cs), p.1 = '\n' → p.2 = none))

/-- What a file is split into, and what it is split into with carriage returns. -/
inductive Returned : List (Except Fault Line) → List (Except Fault Line) → Prop
  | nil : Returned [] []
  | same {items items'} (item : Except Fault Line) (h : Returned items items') :
      Returned (item :: items) (item :: items')
  | ended {items items'} (l : Line) (hclosed : Scan.ClosesStrings l.text.toList)
      (h : Returned items items') :
      Returned (.ok l :: items) (.ok { l with text := l.text ++ "\r" } :: items')
  | empty {items items'} (number : UInt32) (h : Returned items items') :
      Returned items (.ok ⟨"\r", number⟩ :: items')

/-- The string that is open, as a scanner knows it. -/
def LineMode.string? : LineMode → Option (Char × Bool)
  | quoted quote _ escaped => some (quote, escaped)
  | _ => none

variable {b : LineBuilder} {c : Char} {cs : List Char} {bytes : List UInt8}
  {items items' : List (Except Fault Line)} {l : Line}

namespace LineBuilder

/-! ## Strings -/

/-- The builder is in the string that is open at the end of the text it has. -/
structure Tracks (b : LineBuilder) : Prop where
  text : b.reversedText.reverse.foldl Scan.stringAfter none = b.mode.string?
  quote : ∀ quote ∈ b.mode.quote?, isQuote quote = true

theorem stringAfter_mode {mode : LineMode} {line : UInt32}
    (hquote : ∀ quote ∈ mode.quote?, isQuote quote = true)
    (hcomment : modeAfter mode line c ≠ .comment) :
    Scan.stringAfter mode.string? c = (modeAfter mode line c).string? ∧
      ∀ quote ∈ (modeAfter mode line c).quote?, isQuote quote = true := by
  cases mode with
  | comment => exact absurd rfl hcomment
  | code =>
    rw [modeAfter] at hcomment ⊢
    by_cases hsemi : c = ';'
    · rw [if_pos hsemi] at hcomment
      exact absurd rfl hcomment
    · rw [if_neg hsemi]
      by_cases hc : isQuote c = true
      · rw [if_pos hc]
        exact ⟨if_pos hc, by rintro _ ⟨⟩; exact hc⟩
      · rw [if_neg hc]
        exact ⟨if_neg hc, by rintro _ ⟨⟩⟩
  | quoted quote openedAt escaped =>
    have hq : isQuote quote = true := hquote quote rfl
    have hback : quote ≠ '\\' := by
      rintro rfl
      cases hq
    rw [modeAfter]
    by_cases hc : c = '\\'
    · subst hc
      refine ⟨?_, by rintro _ ⟨⟩; exact hq⟩
      simp [LineMode.string?, Scan.stringAfter, hback.symm]
    · rw [if_neg hc]
      by_cases hclose : (c = quote && !escaped) = true
      · rw [if_pos hclose]
        exact ⟨if_pos hclose, by rintro _ ⟨⟩⟩
      · rw [if_neg hclose]
        refine ⟨?_, by rintro _ ⟨⟩; exact hq⟩
        simp [LineMode.string?, Scan.stringAfter, hclose, hc]

theorem string?_of_modeAfter_comment {mode : LineMode} {line : UInt32}
    (h : modeAfter mode line c = .comment) : mode.string? = none := by
  cases mode with
  | quoted quote openedAt escaped =>
    simp only [modeAfter] at h
    split at h
    · cases h
    · split at h <;> cases h
  | _ => rfl

theorem Tracks.feed (h : b.Tracks) (hbreak : c = '\n' → b.mode.quote? = none) :
    (b.feed c).1.Tracks := by
  by_cases hc : c = '\n'
  · subst hc
    rw [feed_lineBreak_eq (hbreak rfl)]
    exact ⟨rfl, by rintro _ ⟨⟩⟩
  · rw [LineBuilder.feed, if_neg hc]
    split
    next hcomment =>
      refine ⟨?_, by rintro _ ⟨⟩⟩
      show b.reversedText.reverse.foldl Scan.stringAfter none = none
      rw [h.text, string?_of_modeAfter_comment hcomment]
    next hcomment =>
      obtain ⟨hstring, hquote⟩ := stringAfter_mode h.quote hcomment
      refine ⟨?_, hquote⟩
      rw [List.reverse_cons, List.foldl_append, h.text]
      exact hstring

/-! ## Lines -/

theorem feed_none (hc : c ≠ '\n') : (b.feed c).2 = none := by
  rw [feed, if_neg hc]
  split <;> rfl

theorem returned_lineBreak (h : b.Tracks) (hopen : b.mode.quote? = none)
    (hrest : Returned items items') :
    ∃ line?, ((b.feed '\r').1.feed '\n') = ((b.feed '\n').1, line?) ∧
      Returned ((b.feed '\n').2.toList.map .ok ++ items) (line?.toList.map .ok ++ items') := by
  rw [feed_lineBreak_eq hopen]
  obtain ⟨mode, text, line, start⟩ := b
  cases mode with
  | quoted quote openedAt escaped => cases hopen
  | comment =>
    refine ⟨built? ⟨.comment, text, line, start⟩, feed_lineBreak_eq rfl, ?_⟩
    cases built? ⟨.comment, text, line, start⟩ with
    | none => exact hrest
    | some l => exact .same _ hrest
  | code =>
    refine ⟨_, feed_lineBreak_eq rfl, ?_⟩
    rcases text with _ | ⟨c, text⟩
    · exact .empty start hrest
    · have hclosed : Scan.ClosesStrings (String.ofList (c :: text).reverse).toList := by
        rw [String.toList_ofList]
        exact h.text
      have hended := hrest.ended ⟨String.ofList (c :: text).reverse, start⟩ hclosed
      have htext : String.ofList (c :: text).reverse ++ "\r" =
          String.ofList ('\r' :: c :: text).reverse := by
        rw [@List.reverse_cons _ '\r', String.ofList_append]
      rw [htext] at hended
      exact hended

theorem breaksOutsideStrings_cons :
    BreaksOutsideStrings b (c :: cs) ↔
      (c = '\n' → b.mode.quote? = none) ∧ BreaksOutsideStrings (b.feed c).1 cs := by
  rw [BreaksOutsideStrings, quotesOf, List.zip_cons_cons, List.forall_mem_cons]
  rfl

theorem returned_itemsOf (h : b.Tracks) (hbreaks : BreaksOutsideStrings b (bytes.map byteChar)) :
    Returned (b.itemsOf (bytes.map byteChar)) (b.itemsOf ((withReturns bytes).map byteChar)) := by
  induction bytes generalizing b with
  | nil =>
    show Returned b.lastItem?.toList b.lastItem?.toList
    cases b.lastItem? with
    | none => exact .nil
    | some item => exact .same item .nil
  | cons byte bytes ih =>
    rw [List.map_cons, breaksOutsideStrings_cons] at hbreaks
    have hrest := ih (h.feed hbreaks.1) hbreaks.2
    rw [withReturns, List.flatMap_cons, ← withReturns, List.map_append, List.map_cons, itemsOf_cons]
    by_cases hbyte : byte = 10
    · subst hbyte
      obtain ⟨line?, hfeed, hline⟩ := returned_lineBreak h (hbreaks.1 rfl) hrest
      show Returned ((b.feed '\n').2.toList.map .ok ++ _)
        (b.itemsOf ('\r' :: '\n' :: (withReturns bytes).map byteChar))
      rw [itemsOf_cons, itemsOf_cons, feed_none (c := '\r') (by decide), hfeed]
      exact hline
    · have hc : byteChar byte ≠ '\n' := fun hc => hbyte (byteChar_inj.mp hc)
      rw [if_neg hbyte]
      show Returned _ (b.itemsOf (byteChar byte :: (withReturns bytes).map byteChar))
      rw [itemsOf_cons, feed_none hc]
      exact hrest

end LineBuilder

/-! ## Files -/

theorem Returned.exists_le (h : Returned items items') (hl : .ok l ∈ items) :
    ∃ l', .ok l' ∈ items' ∧ l.text.utf8ByteSize ≤ l'.text.utf8ByteSize := by
  induction h with
  | nil => cases hl
  | same item h ih =>
    rcases List.mem_cons.mp hl with rfl | hl
    · exact ⟨l, List.mem_cons_self .., Nat.le_refl _⟩
    · obtain ⟨l', hl', hle⟩ := ih hl
      exact ⟨l', List.mem_cons_of_mem _ hl', hle⟩
  | ended l₀ hclosed h ih =>
    rcases List.mem_cons.mp hl with heq | hl
    · cases heq
      refine ⟨_, List.mem_cons_self .., ?_⟩
      rw [String.utf8ByteSize_append]
      exact Nat.le_add_right ..
    · obtain ⟨l', hl', hle⟩ := ih hl
      exact ⟨l', List.mem_cons_of_mem _ hl', hle⟩
  | empty number h ih =>
    obtain ⟨l', hl', hle⟩ := ih hl
    exact ⟨l', List.mem_cons_of_mem _ hl', hle⟩

theorem length_le_withReturns (bytes : List UInt8) : bytes.length ≤ (withReturns bytes).length := by
  induction bytes with
  | nil => exact Nat.le_refl _
  | cons byte bytes ih =>
    rw [withReturns, List.flatMap_cons, List.length_append, ← withReturns, List.length_cons]
    split <;> simp <;> omega

/-- A file with carriage returns is split into the same lines, with carriage returns. -/
theorem items_withReturns (hbreaks : BreaksOutsideStrings {} (bytes.map byteChar)) :
    Returned (logicalLines bytes).items (logicalLines (withReturns bytes)).items := by
  rw [items_logicalLines, items_logicalLines]
  exact LineBuilder.returned_itemsOf ⟨rfl, nofun⟩ hbreaks

end MacroAsm
