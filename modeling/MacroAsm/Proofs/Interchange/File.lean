import MacroAsm.Interchange.File
import MacroAsm.Proofs.Interchange.Diagnostic
import MacroAsm.Proofs.Interchange.Node

/-!
# Texts are read back

`Interchange.roundTrips`: nodes, scopes, statements, files, faults and diagnostics without
floating-point numbers are read back from the text that they are written as, however deeply they are
nested.
-/

namespace MacroAsm

open Json

/-! ## Statements and files -/

namespace Statement

def Portable (s : Statement) : Prop := s.node.Portable

variable {s : Statement}

theorem Portable.ofJson?_toJson (h : s.Portable) : ofJson? s.toJson = some s := by
  simp [toJson, ofJson?, record?_object, word32?_natural, Node.Portable.ofJson?_toJson h]

theorem Portable.lossless (h : s.Portable) : s.toJson.Lossless :=
  .field (.string _)
    (.field (.natural32 s.line.toNat_lt) (.field (Node.Portable.lossless h) .noFields))

end Statement

namespace SourceFile

def Portable (f : SourceFile) : Prop := ∀ s ∈ f.statements, s.Portable

variable {f : SourceFile}

theorem Portable.ofJson?_toJson (h : f.Portable) : ofJson? f.toJson = some f := by
  have hstatements := mapM_map fun s hs => (h s hs).ofJson?_toJson
  simp [toJson, ofJson?, record?_object, hstatements]

theorem Portable.lossless (h : f.Portable) : f.toJson.Lossless := by
  have hstatements : (array (f.statements.map Statement.toJson)).Lossless :=
    .map fun s hs => (h s hs).lossless
  exact .field (.string _) (.field hstatements .noFields)

end SourceFile

/-! ## Texts -/

namespace Interchange

variable {α : Type} {toJson : α → Json} {ofJson? : Json → Option α} {a : α}

/-- The value is read back from its text wherever texts may be nested as deeply. -/
def RoundTrips (toJson : α → Json) (ofJson? : Json → Option α) (a : α) : Prop :=
  ∀ nesting, (toJson a).depth ≤ nesting → (read? nesting (toJson a).write >>= ofJson?) = some a

theorem RoundTrips.of_lossless (hlossless : (toJson a).Lossless)
    (h : ofJson? (toJson a) = some a) : RoundTrips toJson ofJson? a := by
  intro nesting hdepth
  rw [read?_write hlossless hdepth]
  exact h

/-- What lines and files are made of and what is reported of them is read back from its text. -/
theorem roundTrips :
    (∀ n : Node, n.Portable → RoundTrips Node.toJson Node.ofJson? n) ∧
    (∀ s : Scope, s.Portable → RoundTrips Scope.toJson Scope.ofJson? s) ∧
    (∀ s : Statement, s.Portable → RoundTrips Statement.toJson Statement.ofJson? s) ∧
    (∀ f : SourceFile, f.Portable → RoundTrips SourceFile.toJson SourceFile.ofJson? f) ∧
    (∀ f : Fault, f.Portable → RoundTrips Fault.toJson Fault.ofJson? f) ∧
    ∀ d : Diagnostic, d.Portable → RoundTrips Diagnostic.toJson Diagnostic.ofJson? d := by
  refine ⟨fun n h => ?_, fun s h => ?_, fun s h => ?_, fun f h => ?_, fun f h => ?_,
    fun d h => ?_⟩ <;>
  exact .of_lossless h.lossless h.ofJson?_toJson

theorem roundTrips_samples :
    RoundTrips Node.toJson Node.ofJson?
      (.call "f" none [.string "\"\n", .op .add none (some (.number ⟨"1", .integer 1, .u8⟩))]) ∧
    RoundTrips Scope.toJson Scope.ofJson? ⟨.plain, 0, none, [⟨.text, 1, some (.text "x"), []⟩]⟩ ∧
    RoundTrips Statement.toJson Statement.ofJson? ⟨"m.asm", 1, .label (.text "x") none⟩ ∧
    RoundTrips SourceFile.toJson SourceFile.ofJson?
      ⟨"m.asm", [⟨"m.asm", 1, .brace .opening⟩]⟩ ∧
    RoundTrips Fault.toJson Fault.ofJson? (.badNumeral "9z" (.badDigit 'z' 10) 2) ∧
    RoundTrips Diagnostic.toJson Diagnostic.ofJson? (.several [.limitExceeded "errors" 64]) := by
  obtain ⟨hnode, hscope, hstatement, hfile, hfault, hdiagnostic⟩ := roundTrips
  refine ⟨hnode _ ?_, hscope _ ?_, hstatement _ ?_, hfile _ ?_, hfault _ ?_, hdiagnostic _ ?_⟩
  · have hone : (Node.number ⟨"1", .integer 1, .u8⟩).Portable := .number trivial
    refine .call fun arg harg => ?_
    simp only [List.mem_cons, List.not_mem_nil, or_false] at harg
    rcases harg with rfl | rfl
    · exact .string
    · exact .op nofun fun n hn => Option.mem_some.mp hn ▸ hone
  · have hx : (⟨.text, 1, some (.text "x"), []⟩ : Scope).Portable :=
      .intro (by decide) (fun n hn => Option.mem_some.mp hn ▸ .text) nofun
    exact .intro (by decide) nofun fun s hs => List.mem_singleton.mp hs ▸ hx
  · exact .label .text nofun
  · exact fun s hs => List.mem_singleton.mp hs ▸ .brace
  · exact ⟨show 10 < Nat.pow 2 32 by decide, by decide⟩
  · exact .several fun d hd => List.mem_singleton.mp hd ▸ .limitExceeded (by decide)

end Interchange

end MacroAsm
