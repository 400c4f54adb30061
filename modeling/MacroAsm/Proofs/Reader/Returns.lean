import MacroAsm.Proofs.Line.Returns
import MacroAsm.Proofs.Reader.Blanks
import MacroAsm.Proofs.Reader.Gather

/-!
# Carriage returns before line breaks

`Reader.file_withReturns`: within the limits on bytes, a file of which no line break is inside a
string is read to the same result with a carriage return before each line break, whatever the policy
and the limit on faults.

A carriage return is a blank at the end of its line, which is therefore read the same way down to
the place of a fault (`Reader.line_trailing`), and a line of its own comes to nothing.
-/

namespace MacroAsm

namespace Reader

variable {r : Reader} {name : String} {p : Progress} {items items' : List (Except Fault Line)}

theorem isBlank_return : ∀ c ∈ "\r".toList, Scan.isBlank c = true := List.all_eq_true.mp rfl

theorem reading_return {l : Line} (hclosed : Scan.ClosesStrings l.text.toList) :
    r.reading name (.ok { l with text := l.text ++ "\r" }) = r.reading name (.ok l) := by
  simp only [reading, line_trailing hclosed isBlank_return]

theorem reading_return_alone (number : UInt32) :
    r.reading name (.ok ⟨"\r", number⟩) = .ok none := by
  simp only [reading, line_blanks isBlank_return]
  rfl

theorem gather_returned (h : Returned items items') :
    (items'.map (r.reading name)).foldlM r.gather p =
      (items.map (r.reading name)).foldlM r.gather p := by
  induction h generalizing p with
  | nil => rfl
  | same item h ih =>
    rw [List.map_cons, List.map_cons, List.foldlM_cons, List.foldlM_cons]
    exact bind_congr fun _ => ih
  | ended l hclosed h ih =>
    rw [List.map_cons, List.map_cons, List.foldlM_cons, List.foldlM_cons, reading_return hclosed]
    exact bind_congr fun _ => ih
  | empty number h ih =>
    rw [List.map_cons, List.foldlM_cons, reading_return_alone, gather_none]
    exact ih

/-- With a carriage return before every line break, none of which is inside a string, a file within
the limits on bytes is read to the same result. -/
theorem file_withReturns (name : String) {bytes : List UInt8}
    (hbreaks : BreaksOutsideStrings {} (bytes.map byteChar))
    (hsource : (withReturns bytes).length ≤ r.limits.sourceBytes)
    (hlines : ∀ l ∈ (logicalLines (withReturns bytes)).lines,
      l.text.utf8ByteSize ≤ r.limits.lineBytes) :
    r.file name (withReturns bytes) = r.file name bytes := by
  have hreturned := items_withReturns hbreaks
  have hbefore : ∀ l ∈ (logicalLines bytes).lines, l.text.utf8ByteSize ≤ r.limits.lineBytes := by
    intro l hl
    obtain ⟨l', hl', hle⟩ := hreturned.exists_le (ok_mem_items_iff.mpr hl)
    exact Nat.le_trans hle (hlines l' (ok_mem_items_iff.mp hl'))
  have hlength := Nat.le_trans (length_le_withReturns bytes) hsource
  rw [file_eq_gather name hsource hlines, file_eq_gather name hlength hbefore,
    gather_returned hreturned]

/-- A line with a quote in its comment, an empty one, and one with a quote in a string and a fault
after it. -/
theorem file_withReturns_stray :
    BreaksOutsideStrings {} ([97, 32, 59, 39, 10, 10, 32, 39, 34, 39, 41, 10].map byteChar) ∧
      withReturns [97, 32, 59, 39, 10, 10, 32, 39, 34, 39, 41, 10] =
        [97, 32, 59, 39, 13, 10, 13, 10, 32, 39, 34, 39, 41, 13, 10] ∧
      file {} "f" [97, 32, 59, 39, 10, 10, 32, 39, 34, 39, 41, 10] =
        .error (.located (.strayParen 4) "f" ⟨3, 5, 1⟩) ∧
      file {} "f" (withReturns [97, 32, 59, 39, 10, 10, 32, 39, 34, 39, 41, 10]) =
        file {} "f" [97, 32, 59, 39, 10, 10, 32, 39, 34, 39, 41, 10] := by
  have hbreaks : BreaksOutsideStrings {}
      ([97, 32, 59, 39, 10, 10, 32, 39, 34, 39, 41, 10].map byteChar) := by decide
  exact ⟨hbreaks, by decide, by cbv, file_withReturns "f" hbreaks (by decide) (by decide)⟩

end Reader

end MacroAsm
