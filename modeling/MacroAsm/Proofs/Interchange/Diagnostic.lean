import MacroAsm.Interchange.Diagnostic
import MacroAsm.Proofs.Json.Form

/-!
# Faults and diagnostics are read back

`Fault.ofJson?_toJson` and `Diagnostic.ofJson?_toJson`: a fault or a diagnostic whose numbers have
their widths is what its JSON form stands for.
-/

namespace MacroAsm

open Json

/-! ## Faults -/

def NumeralFault.Portable : NumeralFault → Prop
  | .badDigit _ radix => radix < Nat.pow 2 32
  | _ => True

theorem NumeralFault.Portable.ofJson?_toJson {f : NumeralFault} (h : f.Portable) :
    NumeralFault.ofJson? f.toJson = some f := by
  cases f with
  | badDigit digit radix =>
    simp [toJson, name, ofJson?, record?_object, char?_ofChar, nat32?_natural h]
  | _ => rfl

theorem NumeralFault.Portable.lossless {f : NumeralFault} (h : f.Portable) :
    f.toJson.Lossless := by
  cases f with
  | badDigit digit radix => exact .tagged (.field (.string _) (.field (.natural32 h) .noFields))
  | _ => exact .string _

namespace Fault

/-- Offsets have 64 bits and radices 32. -/
def Portable : Fault → Prop
  | badNumeral _ cause offset => cause.Portable ∧ offset < Nat.pow 2 64
  | f => ∀ offset ∈ f.offset?, offset < Nat.pow 2 64

variable {f : Fault}

theorem Portable.bareOfJson?_bareToJson (h : f.Portable) :
    bareOfJson? f.stage f.bareToJson = some f := by
  cases f with
  | unresolved => rfl
  | unrecognized c offset =>
    simp [bareToJson, fields, name, stage, bareOfJson?, characterFaultOfJson?, record?_object,
      char?_ofChar, nat64?_natural (h offset rfl)]
  | unterminated line =>
    simp [bareToJson, fields, name, stage, bareOfJson?, characterFaultOfJson?, record?_object,
      word32?_natural]
  | badArgument detail offset? =>
    have hoffset : optional? nat64? (some (ofOption natural offset?)) = some offset? :=
      optional?_ofOption (fun _ _ => Json.noConfusion) fun offset hoffset =>
        nat64?_natural (h offset hoffset)
    simp [bareToJson, fields, name, stage, bareOfJson?, structuralFaultOfJson?, record?_object,
      hoffset]
  | badNumeral text cause offset =>
    simp [bareToJson, fields, name, stage, bareOfJson?, structuralFaultOfJson?, record?_object,
      h.1.ofJson?_toJson, nat64?_natural h.2]
  | _ =>
    simp [bareToJson, fields, name, stage, bareOfJson?, structuralFaultOfJson?, offsetOfJson?,
      record?_object, char?_ofChar, nat64?_natural (h _ rfl)]

theorem Portable.ofJson?_toJson (h : f.Portable) : ofJson? f.toJson = some f := by
  have hbare := h.bareOfJson?_bareToJson
  rw [toJson, ofJson?, tagged?_tagged]
  cases hstage : f.stage <;> (rw [hstage] at hbare; exact hbare)

theorem Portable.lossless_bareToJson (h : f.Portable) : f.bareToJson.Lossless := by
  cases f with
  | unresolved => exact .string _
  | unrecognized c offset =>
    exact .tagged (.field (.string _) (.field (.natural (h _ rfl)) .noFields))
  | unterminated line => exact .tagged (.field (.natural32 line.toNat_lt) .noFields)
  | badArgument detail offset? =>
    have hoffset : (ofOption natural offset?).Lossless :=
      .ofOption fun offset hoffset => .natural (h offset hoffset)
    exact .tagged (.field (.string _) (.field hoffset .noFields))
  | badNumeral text cause offset =>
    exact .tagged (.field (.string _) (.field h.1.lossless (.field (.natural h.2) .noFields)))
  | unknownOperator symbol offset =>
    exact .tagged (.field (.string _) (.field (.natural (h _ rfl)) .noFields))
  | unclosed bracket offset =>
    exact .tagged (.field (.string _) (.field (.natural (h _ rfl)) .noFields))
  | _ => exact .tagged (.field (.natural (h _ rfl)) .noFields)

theorem Portable.lossless (h : f.Portable) : f.toJson.Lossless :=
  .tagged h.lossless_bareToJson

end Fault

/-! ## Diagnostics -/

def Position.Portable (p : Position) : Prop := p.length < Nat.pow 2 64

theorem Position.Portable.ofJson?_toJson {p : Position} (h : p.Portable) :
    Position.ofJson? p.toJson = some p := by
  simp [toJson, ofJson?, record?_object, word32?_natural, nat64?_natural h]

theorem Position.Portable.lossless {p : Position} (h : p.Portable) : p.toJson.Lossless :=
  .field (.natural32 p.line.toNat_lt)
    (.field (.natural32 p.column.toNat_lt) (.field (.natural h) .noFields))

namespace Diagnostic

/-- A diagnostic whose positions and faults have their widths and whose limits have 64 bits. -/
inductive Portable : Diagnostic → Prop
  | located {fault : Fault} {file : String} {position : Position} (hfault : fault.Portable)
      (hposition : position.Portable) : Portable (.located fault file position)
  | limitExceeded {resource : String} {limit : Nat} (hlimit : limit < Nat.pow 2 64) :
      Portable (.limitExceeded resource limit)
  | several {ds : List Diagnostic} (h : ∀ d ∈ ds, Portable d) : Portable (.several ds)

variable {d : Diagnostic} {ds : List Diagnostic} {fuel : Nat}

theorem listToJson_eq : listToJson ds = ds.map toJson := by
  induction ds with
  | nil => rfl
  | cons d ds ih => rw [listToJson, ih, List.map_cons]

theorem locatedOfJson?_object {fault : Fault} {file : String} {position : Position}
    (hfault : fault.Portable) (hposition : position.Portable) :
    locatedOfJson? fault.stage (object [("error", fault.bareToJson), ("file", .string file),
      ("span", position.toJson)]) = some (located fault file position) := by
  simp [locatedOfJson?, record?_object, hfault.bareOfJson?_bareToJson, hposition.ofJson?_toJson]

theorem Portable.ofJsonWithin?_toJson (h : d.Portable) (hfuel : d.toJson.depth < fuel) :
    ofJsonWithin? fuel d.toJson = some d := by
  induction h generalizing fuel with
    obtain ⟨fuel, rfl⟩ := Nat.exists_eq_succ_of_ne_zero (Nat.ne_zero_of_lt hfuel)
  | @located fault file position hfault hposition =>
    have hobject := @locatedOfJson?_object fault file position hfault hposition
    rw [toJson, ofJsonWithin?, tagged?_tagged]
    cases hstage : fault.stage <;> (rw [hstage] at hobject; exact hobject)
  | limitExceeded hlimit =>
    simp [toJson, ofJsonWithin?, record?_object, nat64?_natural hlimit]
  | @several ds h ih =>
    simp only [toJson, depth_tagged, depth, depthFields, listToJson_eq] at hfuel
    have hd : ∀ d ∈ ds, ofJsonWithin? fuel d.toJson = some d := by
      intro d hd
      have hle := depth_le_depthAll (List.mem_map_of_mem (f := toJson) hd)
      exact ih d hd (by omega)
    rw [toJson, listToJson_eq, ofJsonWithin?, tagged?_tagged]
    simp [record?_object, mapM_map hd]

theorem Portable.ofJson?_toJson (h : d.Portable) : ofJson? d.toJson = some d :=
  h.ofJsonWithin?_toJson (Nat.lt_succ_self _)

theorem Portable.lossless (h : d.Portable) : d.toJson.Lossless := by
  induction h with
  | located hfault hposition =>
    exact .tagged (.field hfault.lossless_bareToJson
      (.field (.string _) (.field hposition.lossless .noFields)))
  | limitExceeded hlimit => exact .tagged (.field (.string _) (.field (.natural hlimit) .noFields))
  | several h ih =>
    rw [toJson, listToJson_eq]
    exact .tagged (.field (.map ih) .noFields)

end Diagnostic

end MacroAsm
