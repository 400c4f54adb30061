import MacroAsm.Proofs.Fold.Checked
import MacroAsm.Proofs.Scope.Checked
import MacroAsm.Reader

/-!
# Reading a line with checked accesses

`Reader.checkedLine` reads a line as `Reader.line` does, but makes every access to the line, to its
tokens and to the slots of its scopes by offset or index, and comes to nothing if one of them is out
of bounds.

`Reader.checkedLine_eq`: this never happens, whatever the line and however numerals are read.
-/

namespace MacroAsm

namespace Reader

/-- Reads one line with checked accesses. -/
def checkedLine (r : Reader) (text : String) : Access (Option Node) := do
  let tokens ← Scan.checkedScan text.toList
  let root ← checkedNest text.toList tokens r.numeral
  let folded ← .get (checkedFold root)
  .result (folded.mapError Fold.Obstacle.fault)

/-- Reading a line never goes out of bounds. Every text that is cut out of the line lies between two
of its characters, with the end not before the start, and every token, remembered index and slot
that is looked up, changed or removed is in its list at that moment. -/
theorem checkedLine_eq (r : Reader) (text : String) :
    r.checkedLine text = .result (r.line text) := by
  rw [checkedLine, line, notedLine, Scan.checkedScan_eq]
  cases hscan : scan text.toList with
  | error fault => rfl
  | ok tokens =>
    rw [Access.result_ok_bind, checkedNest_eq r.numeral hscan]
    simp only
    cases Scope.ofTokens (cutLine text.toList) r.numeral tokens with
    | error fault => rfl
    | ok root =>
      rw [Access.result_ok_bind, checkedFold_eq, Access.get_some_bind]
      simp only
      cases root.fold <;> rfl

end Reader

end MacroAsm
