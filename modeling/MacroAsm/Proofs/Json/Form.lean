import MacroAsm.Proofs.Json.RoundTrip

/-!
# Forms are read back

What a record, a value of an enumeration, a value that may be missing and a list of values are
written as is read back, part by part: `Json.record?_object`, `Json.tagged?_tagged`,
`Json.optional?_ofOption` and `Json.mapM_map`.
-/

namespace MacroAsm.Json

variable {α : Type} {decode? : Json → Option α} {encode : α → Json} {a : α} {as : List α}
  {o : Option α} {j v : Json} {items : List Json} {fields : List (String × Json)}
  {tag s : String} {c : Char} {n : Nat}

/-! ## Records -/

theorem filter_name (hnames : (fields.map Prod.fst).Nodup) {field : String × Json}
    (hfield : field ∈ fields) : fields.filter (·.1 == field.1) = [field] := by
  induction fields with
  | nil => cases hfield
  | cons first fields ih =>
    rw [List.map_cons, List.nodup_cons] at hnames
    rcases List.mem_cons.mp hfield with rfl | hmem
    · have hrest : fields.filter (·.1 == field.1) = [] := by
        rw [List.filter_eq_nil_iff]
        intro other hother heq
        exact hnames.1 (by simpa [eq_of_beq heq] using List.mem_map_of_mem (f := Prod.fst) hother)
      rw [List.filter_cons_of_pos (by simp), hrest]
    · have hne : ¬(first.1 == field.1) = true := fun heq =>
        hnames.1 (eq_of_beq heq ▸ List.mem_map_of_mem hmem)
      rw [List.filter_cons, if_neg hne, ih hnames.2 hmem]

theorem mapM_eq_some {β γ : Type} {f : β → Option γ} {g : β → γ} {bs : List β}
    (h : ∀ b ∈ bs, f b = some (g b)) : bs.mapM f = some (bs.map g) := by
  induction bs with
  | nil => rfl
  | cons b bs ih =>
    rw [List.forall_mem_cons] at h
    rw [List.mapM_cons, h.1, ih h.2]
    rfl

theorem record?_object {names : List String} (hfields : fields.map Prod.fst = names)
    (hnames : names.Nodup) :
    record? names (object fields) = some (fields.map fun field => some field.2) := by
  subst hfields
  rw [record?, List.mapM_map]
  refine mapM_eq_some fun field hfield => ?_
  simp only [Function.comp_apply, filter_name hnames hfield]

/-! ## Other forms -/

@[simp] theorem tagged?_tagged : (tagged tag v).tagged? = some (tag, some v) := rfl

@[simp] theorem bareTag?_tagged_object : (tagged tag (object fields)).bareTag? = none := rfl

@[simp] theorem string?_string : (string s).string? = some s := rfl

@[simp] theorem items?_array : (array items).items? = some items := rfl

theorem below?_natural {bound : Nat} (h : n < bound) : (natural n).below? bound = some n :=
  if_pos h

theorem nat32?_natural (h : n < Nat.pow 2 32) : (natural n).nat32? = some n :=
  below?_natural h

theorem word32?_natural (n : UInt32) : (natural n.toNat).word32? = some n := by
  rw [word32?, nat32?_natural n.toNat_lt, Option.map_some, UInt32.ofNat_toNat]

theorem nat64?_natural (h : n < Nat.pow 2 64) : (natural n).nat64? = some n :=
  below?_natural h

theorem char?_ofChar (c : Char) : (ofChar c).char? = some c := by
  rw [ofChar, char?, String.toList_singleton]

/-- What may be missing is read back, as long as null stands for nothing else. -/
theorem optional?_ofOption (hnull : ∀ a ∈ o, encode a ≠ null)
    (h : ∀ a ∈ o, decode? (encode a) = some a) :
    optional? decode? (some (ofOption encode o)) = some o := by
  cases o with
  | none => rfl
  | some a =>
    have ha := h a rfl
    have hne := hnull a rfl
    rw [ofOption]
    unfold optional?
    split
    next heq => cases heq
    next heq => exact absurd (Option.some.inj heq) hne
    next heq =>
      cases heq
      rw [ha]
      rfl

theorem optional?_string (o : Option String) :
    optional? string? (some (ofOption string o)) = some o :=
  optional?_ofOption (fun _ _ => Json.noConfusion) fun _ _ => rfl

theorem mapM_map (h : ∀ a ∈ as, decode? (encode a) = some a) :
    (as.map encode).mapM decode? = some as := by
  rw [List.mapM_map]
  exact (mapM_eq_some h).trans (congrArg some (List.map_id' as))

/-! ## Depths -/

theorem depth_le_depthAll (hv : v ∈ items) : v.depth ≤ depthAll items := by
  induction items with
  | nil => cases hv
  | cons w items ih =>
    rw [depthAll]
    rcases List.mem_cons.mp hv with rfl | hv
    · exact Nat.le_max_left ..
    · exact Nat.le_trans (ih hv) (Nat.le_max_right ..)

theorem depth_le_ofOption (ha : a ∈ o) : (encode a).depth ≤ (ofOption encode o).depth := by
  cases ha
  exact Nat.le_refl _

@[simp] theorem depth_tagged : (tagged tag v).depth = v.depth + 1 := by
  simp [tagged, depth, depthFields]

/-! ## What is lossless -/

theorem Lossless.natural32 (h : n < Nat.pow 2 32) : (Json.natural n).Lossless :=
  .natural (Nat.lt_trans h (by decide))

theorem Lossless.noFields : (Json.object []).Lossless :=
  .object nofun

theorem Lossless.field (hv : v.Lossless) (h : (Json.object fields).Lossless) :
    (Json.object ((tag, v) :: fields)).Lossless := by
  cases h with
  | object h => exact .object (List.forall_mem_cons.mpr ⟨hv, h⟩)

theorem Lossless.tagged (h : v.Lossless) : (Json.tagged tag v).Lossless :=
  .field h .noFields

theorem Lossless.ofOption (h : ∀ a ∈ o, (encode a).Lossless) :
    (Json.ofOption encode o).Lossless := by
  cases o with
  | none => exact .null
  | some a => exact h a rfl

theorem Lossless.map (h : ∀ a ∈ as, (encode a).Lossless) :
    (Json.array (as.map encode)).Lossless := by
  refine .array fun v hv => ?_
  obtain ⟨a, ha, rfl⟩ := List.mem_map.mp hv
  exact h a ha

end MacroAsm.Json
