import MacroAsm.Interchange.Node
import MacroAsm.Proofs.Json.Form

/-!
# Nodes and scopes are read back

`Node.ofJson?_toJson` and `Scope.ofJson?_toJson`: a tree without floating-point numbers is what its
JSON form stands for. A form is read with more fuel than it is deep, and every step down takes at
most as much fuel as depth.
-/

namespace MacroAsm

open Json

/-! ## Leaves -/

theorem Width.ofJson?_toJson (w : Width) : Width.ofJson? w.toJson = some w := by
  cases w <;> decide

theorem Operator.ofJson?_toJson (o : Operator) : Operator.ofJson? o.toJson = some o :=
  ofName?_name o

theorem Brace.ofJson?_toJson (b : Brace) : Brace.ofJson? b.toJson = some b := by
  cases b <;> rfl

theorem ScopeKind.ofJson?_toJson (k : ScopeKind) : ScopeKind.ofJson? k.toJson = some k := by
  cases k <;> decide

def Value.IsInteger : Value → Prop
  | .integer _ => True
  | .float _ => False

theorem Value.IsInteger.ofJson?_toJson {v : Value} (h : v.IsInteger) :
    Value.ofJson? v.toJson = some v := by
  cases v with
  | float x => cases h
  | integer n =>
    show ((natural n.toNat).nat64?.map fun n => Value.integer (UInt64.ofNat n)) = _
    rw [nat64?_natural n.toNat_lt]
    exact congrArg (fun n => some (Value.integer n)) UInt64.ofNat_toNat

theorem Value.IsInteger.lossless {v : Value} (h : v.IsInteger) : v.toJson.Lossless := by
  cases v with
  | float x => cases h
  | integer n => exact Lossless.tagged (.natural n.toNat_lt)

theorem Numeral.ofJson?_toJson {n : Numeral} (h : n.value.IsInteger) :
    Numeral.ofJson? n.toJson = some n := by
  simp [toJson, ofJson?, record?_object, h.ofJson?_toJson, Width.ofJson?_toJson]

theorem Numeral.lossless {n : Numeral} (h : n.value.IsInteger) : n.toJson.Lossless :=
  .field (.string _) (.field h.lossless (.field (.string _) .noFields))

/-! ## Nodes -/

namespace Node

/-- A tree without floating-point numbers. -/
inductive Portable : Node → Prop
  | text {name} : Portable (.text name)
  | string {value} : Portable (.string value)
  | number {n : Numeral} (h : n.value.IsInteger) : Portable (.number n)
  | label {name target} (hname : Portable name) (htarget : ∀ n ∈ target, Portable n) :
      Portable (.label name target)
  | call {name size args} (h : ∀ arg ∈ args, Portable arg) : Portable (.call name size args)
  | op {o left right} (hleft : ∀ n ∈ left, Portable n) (hright : ∀ n ∈ right, Portable n) :
      Portable (.op o left right)
  | brace {b} : Portable (.brace b)

variable {n name : Node} {o : Option Node} {ns : List Node} {fuel : Nat}

theorem optionToJson_eq : optionToJson o = ofOption toJson o := by
  cases o <;> rfl

theorem listToJson_eq : listToJson ns = ns.map toJson := by
  induction ns with
  | nil => rfl
  | cons n ns ih => rw [listToJson, ih, List.map_cons]

theorem toJson_ne_null : n.toJson ≠ null := by
  cases n <;> (rw [toJson]; exact Json.noConfusion)

theorem optional?_optionToJson (h : ∀ n ∈ o, ofJsonWithin? fuel n.toJson = some n) :
    optional? (ofJsonWithin? fuel) (some (optionToJson o)) = some o := by
  rw [optionToJson_eq]
  exact optional?_ofOption (fun _ _ => toJson_ne_null) h

theorem mapM_listToJson (h : ∀ n ∈ ns, ofJsonWithin? fuel n.toJson = some n) :
    (listToJson ns).mapM (ofJsonWithin? fuel) = some ns := by
  rw [listToJson_eq]
  exact mapM_map h

theorem ofJsonWithin?_label {target : Option Node}
    (hname : ofJsonWithin? fuel name.toJson = some name)
    (htarget : ∀ n ∈ target, ofJsonWithin? fuel n.toJson = some n) :
    ofJsonWithin? (fuel + 1) (label name target).toJson = some (label name target) := by
  simp [toJson, ofJsonWithin?, record?_object, hname, optional?_optionToJson htarget]

theorem ofJsonWithin?_call {name : String} {size : Option String} {args : List Node}
    (h : ∀ arg ∈ args, ofJsonWithin? fuel arg.toJson = some arg) :
    ofJsonWithin? (fuel + 1) (call name size args).toJson = some (call name size args) := by
  simp [toJson, ofJsonWithin?, record?_object, optional?_string, mapM_listToJson h]

theorem ofJsonWithin?_op {operator : Operator} {left right : Option Node}
    (hleft : ∀ n ∈ left, ofJsonWithin? fuel n.toJson = some n)
    (hright : ∀ n ∈ right, ofJsonWithin? fuel n.toJson = some n) :
    ofJsonWithin? (fuel + 1) (op operator left right).toJson = some (op operator left right) := by
  simp [toJson, ofJsonWithin?, record?_object, Operator.ofJson?_toJson,
    optional?_optionToJson hleft, optional?_optionToJson hright]

theorem depth_le_optionToJson (hn : n ∈ o) : n.toJson.depth ≤ (optionToJson o).depth := by
  rw [optionToJson_eq]
  exact depth_le_ofOption hn

theorem depth_le_listToJson (hn : n ∈ ns) : n.toJson.depth ≤ depthAll (listToJson ns) := by
  rw [listToJson_eq]
  exact depth_le_depthAll (List.mem_map_of_mem hn)

theorem Portable.ofJsonWithin?_toJson (h : n.Portable) (hfuel : n.toJson.depth < fuel) :
    ofJsonWithin? fuel n.toJson = some n := by
  induction h generalizing fuel with
    obtain ⟨fuel, rfl⟩ := Nat.exists_eq_succ_of_ne_zero (Nat.ne_zero_of_lt hfuel)
  | text | string => rfl
  | number h => simp [toJson, ofJsonWithin?, literalOfJson?, Numeral.ofJson?_toJson h]
  | brace => simp [toJson, ofJsonWithin?, Brace.ofJson?_toJson]
  -- what is left of the fuel is enough for each part, as a part is at least two levels less deep
  | label hname htarget ihname ihtarget =>
    simp only [toJson, depth_tagged, depth, depthFields] at hfuel
    refine ofJsonWithin?_label (ihname (by omega)) fun n hn => ihtarget n hn ?_
    have hdepth := depth_le_optionToJson hn
    omega
  | call h ih =>
    simp only [toJson, depth_tagged, depth, depthFields] at hfuel
    refine ofJsonWithin?_call fun arg harg => ih arg harg ?_
    have hdepth := depth_le_listToJson harg
    omega
  | op hleft hright ihleft ihright =>
    simp only [toJson, depth_tagged, depth, depthFields] at hfuel
    refine ofJsonWithin?_op (fun n hn => ihleft n hn ?_) fun n hn => ihright n hn ?_
    · have hdepth := depth_le_optionToJson hn
      omega
    · have hdepth := depth_le_optionToJson hn
      omega

theorem Portable.ofJson?_toJson (h : n.Portable) : ofJson? n.toJson = some n :=
  h.ofJsonWithin?_toJson (Nat.lt_succ_self _)

theorem lossless_optionToJson (h : ∀ n ∈ o, n.toJson.Lossless) : (optionToJson o).Lossless := by
  rw [optionToJson_eq]
  exact .ofOption h

theorem lossless_listToJson (h : ∀ n ∈ ns, n.toJson.Lossless) :
    (array (listToJson ns)).Lossless := by
  rw [listToJson_eq]
  exact .map h

theorem Portable.lossless (h : n.Portable) : n.toJson.Lossless := by
  induction h with
  | text | string => exact .tagged (.tagged (.string _))
  | number h => exact .tagged (.tagged (Numeral.lossless h))
  | @brace b => cases b <;> exact .tagged (.string _)
  | label hname htarget ihname ihtarget =>
    exact .tagged (.field ihname (.field (lossless_optionToJson ihtarget) .noFields))
  | @call name size args h ih =>
    have hsize : (ofOption Json.string size).Lossless := .ofOption fun size _ => .string size
    exact .tagged (.field (.string _) (.field hsize (.field (lossless_listToJson ih) .noFields)))
  | op hleft hright ihleft ihright =>
    exact .tagged (.field (.string _) (.field (lossless_optionToJson ihleft)
      (.field (lossless_optionToJson ihright) .noFields)))

end Node

/-! ## Scopes -/

namespace Scope

/-- A scope without floating-point numbers, no deeper than 64 bits can tell. -/
inductive Portable : Scope → Prop
  | intro {kind depth value children} (hdepth : depth < Nat.pow 2 64)
      (hvalue : ∀ n ∈ value, n.Portable) (hchildren : ∀ s ∈ children, Portable s) :
      Portable ⟨kind, depth, value, children⟩

variable {s : Scope} {children : List Scope} {fuel : Nat}

theorem listToJson_eq : listToJson children = children.map toJson := by
  induction children with
  | nil => rfl
  | cons s children ih => rw [listToJson, ih, List.map_cons]

theorem Portable.ofJsonWithin?_toJson (h : s.Portable) (hfuel : s.toJson.depth < fuel) :
    ofJsonWithin? fuel s.toJson = some s := by
  induction h generalizing fuel with
  | @intro kind depth value children hdepth hvalue hchildren ih =>
    obtain ⟨fuel, rfl⟩ := Nat.exists_eq_succ_of_ne_zero (Nat.ne_zero_of_lt hfuel)
    simp only [toJson, Json.depth, depthFields, listToJson_eq] at hfuel
    have hvalue := optional?_ofOption (fun _ _ => Node.toJson_ne_null) fun n hn =>
      (hvalue n hn).ofJson?_toJson
    have hchild : ∀ s ∈ children, ofJsonWithin? fuel s.toJson = some s := by
      intro s hs
      have hle := depth_le_depthAll (List.mem_map_of_mem (f := toJson) hs)
      exact ih s hs (by omega)
    simp [toJson, ofJsonWithin?, listToJson_eq, record?_object, ScopeKind.ofJson?_toJson,
      nat64?_natural hdepth, hvalue, mapM_map hchild]

theorem Portable.ofJson?_toJson (h : s.Portable) : ofJson? s.toJson = some s :=
  h.ofJsonWithin?_toJson (Nat.lt_succ_self _)

theorem Portable.lossless (h : s.Portable) : s.toJson.Lossless := by
  induction h with
  | intro hdepth hvalue hchildren ih =>
    have hvalue := Lossless.ofOption fun n hn => (hvalue n hn).lossless
    rw [toJson, listToJson_eq]
    exact .field (.string _) (.field (.natural hdepth) (.field hvalue (.field (.map ih) .noFields)))

end Scope

end MacroAsm
