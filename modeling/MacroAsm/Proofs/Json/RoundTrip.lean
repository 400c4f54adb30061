import MacroAsm.Proofs.Json.Text

/-!
# Values are read back

`Json.read?_write`: a value that its text says everything about is what the text is read as, if
arrays and objects may be nested as deeply as they are in it.

The reader takes a value, or the items or fields up to a closing bracket, from the front of a text
(`Json.ReadBack`), and no text needs more fuel than it has characters.
-/

namespace MacroAsm.Json

/-- A value that its text says everything about: it has no decimals, no larger numbers than those of
64 bits, and nothing unusable. -/
inductive Lossless : Json → Prop
  | null : Lossless null
  | bool (b : Bool) : Lossless (bool b)
  | natural {n : Nat} (hn : n < Nat.pow 2 64) : Lossless (natural n)
  | string (s : String) : Lossless (string s)
  | array {items : List Json} (h : ∀ v ∈ items, Lossless v) : Lossless (array items)
  | object {fields : List (String × Json)} (h : ∀ field ∈ fields, Lossless field.2) :
      Lossless (object fields)

/-- Texts with commas between them, up to a closing bracket. -/
def closed (close : Char) : List (List Char) → List Char
  | [] => [close]
  | [text] => text ++ [close]
  | text :: next :: texts => text ++ ',' :: closed close (next :: texts)

def textOf (j : Json) : List Char := j.write.toList

def fieldText (field : String × Json) : List Char :=
  (writeString field.1).toList ++ ':' :: field.2.textOf

/-- The value is read from its text, whatever comes after it that does not go on with a number. -/
def ReadBack (j : Json) : Prop :=
  ∀ {fuel nesting : Nat} {rest : List Char}, j.textOf.length ≤ fuel → j.depth ≤ nesting →
    EndsNumber rest → value? fuel nesting (j.textOf ++ rest) = some (j, rest)

variable {fuel nesting n : Nat} {c close : Char} {cs rest text : List Char}
  {texts : List (List Char)} {j v : Json} {items : List Json} {fields : List (String × Json)}
  {field : String × Json}

/-! ## What a value is written as -/

theorem intercalate_closed :
    [','].intercalate texts ++ [close] = closed close texts := by
  induction texts with
  | nil => rfl
  | cons text texts ih =>
    cases texts with
    | nil => rw [List.intercalate_singleton, closed]
    | cons next texts =>
      rw [List.intercalate_cons_cons, closed, ← ih, List.append_assoc, List.append_assoc]
      rfl

theorem writeAll_eq : writeAll items = items.map write := by
  induction items with
  | nil => rfl
  | cons v items ih => rw [writeAll, ih, List.map_cons]

theorem map_writeFields : (writeFields fields).map String.toList = fields.map fieldText := by
  induction fields with
  | nil => rfl
  | cons field fields ih =>
    rw [writeFields, List.map_cons, ih, String.toList_append, String.toList_append,
      List.append_assoc]
    rfl

theorem exists_closed_cons (close : Char) (text : List Char) (texts : List (List Char)) :
    ∃ tail, closed close (text :: texts) = text ++ tail := by
  cases texts <;> exact ⟨_, rfl⟩

theorem textOf_array : textOf (array items) = '[' :: closed ']' (items.map textOf) := by
  rw [textOf, write, String.toList_append, String.toList_append, String.toList_intercalate,
    writeAll_eq, List.map_map, List.append_assoc]
  exact congrArg ('[' :: ·) intercalate_closed

theorem textOf_object : textOf (object fields) = '{' :: closed '}' (fields.map fieldText) := by
  rw [textOf, write, String.toList_append, String.toList_append, String.toList_intercalate,
    map_writeFields, List.append_assoc]
  exact congrArg ('{' :: ·) intercalate_closed

theorem textOf_natural : textOf (natural n) = Nat.toDigits 10 n := by
  rw [textOf, write, Nat.toString_eq_repr, Nat.toList_repr]

theorem textOf_string (s : String) : textOf (string s) = (writeString s).toList := by
  rw [textOf, write]

theorem exists_cons_writeString (s : String) : ∃ tail, (writeString s).toList = '"' :: tail := by
  rw [writeString, String.toList_ofList]
  exact ⟨_, rfl⟩

/-! ## The parts of a text -/

theorem skipBlanks_cons (hc : isJsonBlank c = false) : skipBlanks (c :: cs) = c :: cs := by
  rw [skipBlanks, List.dropWhile_cons_of_neg (by simp [hc])]

theorem isJsonBlank_of_isDigit (hc : c.isDigit = true) : isJsonBlank c = false := by
  cases hblank : isJsonBlank c with
  | false => rfl
  | true =>
    simp only [isJsonBlank, Bool.or_eq_true, decide_eq_true_eq] at hblank
    rcases hblank with ((rfl | rfl) | rfl) | rfl <;> cases hc

theorem Lossless.exists_head (h : j.Lossless) :
    ∃ c cs, j.textOf = c :: cs ∧ isJsonBlank c = false ∧ c ≠ ']' := by
  cases h with
  | null => exact ⟨'n', _, rfl, rfl, by decide⟩
  | bool b => cases b <;> exact ⟨_, _, rfl, rfl, by decide⟩
  | string s =>
    obtain ⟨tail, hcons⟩ := exists_cons_writeString s
    exact ⟨_, _, (textOf_string s).trans hcons, rfl, by decide⟩
  | array h => exact ⟨_, _, textOf_array, rfl, by decide⟩
  | object h => exact ⟨_, _, textOf_object, rfl, by decide⟩
  | @natural n hn =>
    obtain ⟨d, ds, hcons⟩ := List.exists_cons_of_ne_nil (Nat.toDigits_ne_nil (n := n) (b := 10))
    have hd : d.isDigit = true :=
      Nat.isDigit_of_mem_toDigits (by decide) (by decide) (hcons ▸ List.mem_cons_self ..)
    refine ⟨d, ds, textOf_natural.trans hcons, isJsonBlank_of_isDigit hd, ?_⟩
    rintro rfl
    cases hd

theorem endsNumber_nil : EndsNumber [] := by
  rintro _ ⟨⟩

theorem endsNumber_cons (hc : c = ',' ∨ c = ']' ∨ c = '}') : EndsNumber (c :: cs) := by
  rintro _ ⟨⟩
  rcases hc with rfl | rfl | rfl <;> decide

theorem itemsTail?_last (hv : value? fuel nesting cs = some (v, ']' :: rest)) :
    itemsTail? (fuel + 1) nesting cs = some ([v], rest) := by
  rw [itemsTail?, hv]
  rfl

theorem itemsTail?_more {more : List Char} (hv : value? fuel nesting cs = some (v, ',' :: more))
    (hmore : itemsTail? fuel nesting more = some (items, rest)) :
    itemsTail? (fuel + 1) nesting cs = some (v :: items, rest) := by
  rw [itemsTail?, hv]
  show (itemsTail? fuel nesting more >>= _) = _
  rw [hmore]
  rfl

theorem itemsTail?_closed (hne : items ≠ []) (h : ∀ v ∈ items, ReadBack v)
    (hfuel : (closed ']' (items.map textOf)).length ≤ fuel) (hdepth : depthAll items ≤ nesting) :
    itemsTail? fuel nesting (closed ']' (items.map textOf) ++ rest) = some (items, rest) := by
  induction items generalizing fuel with
  | nil => exact absurd rfl hne
  | cons v items ih =>
    rw [List.forall_mem_cons] at h
    rw [depthAll] at hdepth
    have hv : ∀ {fuel c cs}, v.textOf.length ≤ fuel → c = ',' ∨ c = ']' ∨ c = '}' →
        value? fuel nesting (v.textOf ++ c :: cs) = some (v, c :: cs) := fun hlength hc =>
      h.1 hlength (by omega) (endsNumber_cons hc)
    cases items with
    | nil =>
      rw [List.map_singleton, closed] at hfuel ⊢
      rw [List.length_append, List.length_singleton] at hfuel
      obtain ⟨fuel, rfl⟩ := Nat.exists_eq_succ_of_ne_zero (show fuel ≠ 0 by omega)
      rw [List.append_assoc, List.singleton_append]
      exact itemsTail?_last (hv (by omega) (.inr (.inl rfl)))
    | cons w items =>
      rw [List.map_cons, List.map_cons, closed, ← List.map_cons] at hfuel ⊢
      rw [List.length_append, List.length_cons] at hfuel
      obtain ⟨fuel, rfl⟩ := Nat.exists_eq_succ_of_ne_zero (show fuel ≠ 0 by omega)
      rw [List.append_assoc, List.cons_append]
      exact itemsTail?_more (hv (by omega) (.inl rfl)) (ih (by simp) h.2 (by omega) (by omega))

theorem fieldsTail?_field {next : List Char} (hfuel : (fieldText field).length ≤ fuel)
    (hv : value? fuel nesting (field.2.textOf ++ cs) = some (v, next)) :
    fieldsTail? (fuel + 1) nesting (fieldText field ++ cs) =
      match skipBlanks next with
      | ',' :: cs => do
        let (fields, rest) ← fieldsTail? fuel nesting cs
        return (consField? (some field.1) v fields, rest)
      | '}' :: rest => return (consField? (some field.1) v (some []), rest)
      | _ => none := by
  rw [fieldText, List.length_append] at hfuel
  obtain ⟨tail, hcons, hname⟩ := stringTail?_writeString
    (show (writeString field.1).toList.length ≤ fuel + 1 by omega)
  rw [fieldText, List.append_assoc, hcons, fieldsTail?]
  show (stringTail? fuel (some []) (tail ++ (':' :: field.2.textOf ++ cs)) >>= _) = _
  rw [hname]
  show (value? fuel nesting (field.2.textOf ++ cs) >>= _) = _
  rw [hv]
  rfl

theorem fieldsTail?_last (hfuel : (fieldText field).length ≤ fuel)
    (hv : value? fuel nesting (field.2.textOf ++ '}' :: rest) = some (field.2, '}' :: rest)) :
    fieldsTail? (fuel + 1) nesting (fieldText field ++ '}' :: rest) =
      some (some [field], rest) := by
  rw [fieldsTail?_field hfuel hv]
  rfl

theorem fieldsTail?_more {more : List Char} (hfuel : (fieldText field).length ≤ fuel)
    (hv : value? fuel nesting (field.2.textOf ++ ',' :: more) = some (field.2, ',' :: more))
    (hmore : fieldsTail? fuel nesting more = some (some fields, rest)) :
    fieldsTail? (fuel + 1) nesting (fieldText field ++ ',' :: more) =
      some (some (field :: fields), rest) := by
  rw [fieldsTail?_field hfuel hv]
  show (fieldsTail? fuel nesting more >>= _) = _
  rw [hmore]
  rfl

theorem fieldsTail?_closed (hne : fields ≠ []) (h : ∀ field ∈ fields, ReadBack field.2)
    (hfuel : (closed '}' (fields.map fieldText)).length ≤ fuel)
    (hdepth : depthFields fields ≤ nesting) :
    fieldsTail? fuel nesting (closed '}' (fields.map fieldText) ++ rest) =
      some (some fields, rest) := by
  induction fields generalizing fuel with
  | nil => exact absurd rfl hne
  | cons field fields ih =>
    rw [List.forall_mem_cons] at h
    rw [depthFields] at hdepth
    have htext : field.2.textOf.length ≤ (fieldText field).length := by
      rw [fieldText, List.length_append, List.length_cons]
      omega
    have hv : ∀ {fuel c cs}, (fieldText field).length ≤ fuel → c = ',' ∨ c = ']' ∨ c = '}' →
        value? fuel nesting (field.2.textOf ++ c :: cs) = some (field.2, c :: cs) :=
      fun hlength hc => h.1 (by omega) (by omega) (endsNumber_cons hc)
    cases fields with
    | nil =>
      rw [List.map_singleton, closed] at hfuel ⊢
      rw [List.length_append, List.length_singleton] at hfuel
      obtain ⟨fuel, rfl⟩ := Nat.exists_eq_succ_of_ne_zero (show fuel ≠ 0 by omega)
      rw [List.append_assoc, List.singleton_append]
      exact fieldsTail?_last (by omega) (hv (by omega) (.inr (.inr rfl)))
    | cons next fields =>
      rw [List.map_cons, List.map_cons, closed, ← List.map_cons] at hfuel ⊢
      rw [List.length_append, List.length_cons] at hfuel
      obtain ⟨fuel, rfl⟩ := Nat.exists_eq_succ_of_ne_zero (show fuel ≠ 0 by omega)
      rw [List.append_assoc, List.cons_append]
      exact fieldsTail?_more (by omega) (hv (by omega) (.inl rfl))
        (ih (by simp) h.2 (by omega) (by omega))

/-! ## Values -/

theorem value?_digit (hc : c.isDigit = true) :
    value? (fuel + 1) nesting (c :: cs) = unsigned? false (c :: cs) := by
  rw [value?, skipBlanks_cons (isJsonBlank_of_isDigit hc)]
  split
  case h_8 =>
    unfold number?
    split
    next heq =>
      cases heq
      cases hc
    next => rfl
  all_goals
    next heq => cases heq <;> cases hc

theorem value?_items (hblank : isJsonBlank c = false) (hclose : c ≠ ']')
    (htail : itemsTail? fuel (nesting - 1) (c :: cs) = some (items, rest)) :
    value? (fuel + 1) nesting ('[' :: c :: cs) = some (ofItems nesting items, rest) := by
  have hopening : skipBlanks ('[' :: c :: cs) = '[' :: c :: cs := skipBlanks_cons rfl
  simp only [value?, hopening, skipBlanks_cons hblank]
  split
  next heq =>
    cases heq
    exact absurd rfl hclose
  next =>
    rw [htail]
    rfl

theorem value?_fields {fields? : Option (List (String × Json))}
    (htail : fieldsTail? fuel (nesting - 1) ('"' :: cs) = some (fields?, rest)) :
    value? (fuel + 1) nesting ('{' :: '"' :: cs) = some (ofFields? nesting fields?, rest) := by
  rw [value?]
  show (fieldsTail? fuel (nesting - 1) ('"' :: cs)).map _ = _
  rw [htail]
  rfl

theorem readBack_natural (hn : n < Nat.pow 2 64) : ReadBack (natural n) := by
  intro fuel nesting rest hfuel hdepth hrest
  obtain ⟨d, ds, hcons⟩ := List.exists_cons_of_ne_nil (Nat.toDigits_ne_nil (n := n) (b := 10))
  have hd : d.isDigit = true :=
    Nat.isDigit_of_mem_toDigits (by decide) (by decide) (hcons ▸ List.mem_cons_self ..)
  have hunsigned := unsigned?_toDigits hn hrest
  rw [textOf_natural, hcons] at hfuel ⊢
  rw [hcons] at hunsigned
  obtain ⟨fuel, rfl⟩ := Nat.exists_eq_succ_of_ne_zero (Nat.ne_zero_of_lt hfuel)
  exact (value?_digit hd).trans hunsigned

theorem readBack_string (s : String) : ReadBack (string s) := by
  intro fuel nesting rest hfuel hdepth hrest
  rw [textOf_string] at hfuel ⊢
  have hpos : 0 < (writeString s).toList.length := by
    obtain ⟨tail, hcons⟩ := exists_cons_writeString s
    rw [hcons]
    exact Nat.succ_pos _
  obtain ⟨fuel, rfl⟩ := Nat.exists_eq_add_of_lt (Nat.lt_of_lt_of_le hpos hfuel)
  rw [Nat.zero_add] at hfuel ⊢
  obtain ⟨tail, hcons, htail⟩ := stringTail?_writeString hfuel
  rw [hcons, List.cons_append]
  show (stringTail? fuel (some []) (tail ++ rest)).map _ = _
  rw [htail]
  rfl

theorem readBack_array (h : ∀ v ∈ items, v.Lossless) (hitems : ∀ v ∈ items, ReadBack v) :
    ReadBack (array items) := by
  intro fuel nesting rest hfuel hdepth hrest
  rw [depth] at hdepth
  rw [textOf_array, List.length_cons] at hfuel
  rw [textOf_array, List.cons_append]
  obtain ⟨fuel, rfl⟩ := Nat.exists_eq_succ_of_ne_zero (Nat.ne_zero_of_lt hfuel)
  have hvalue : ofItems nesting items = array items := if_neg (by omega)
  cases items with
  | nil => exact congrArg (fun v => some (v, rest)) hvalue
  | cons v items =>
    have htail : itemsTail? fuel (nesting - 1) (closed ']' ((v :: items).map textOf) ++ rest) =
        some (v :: items, rest) :=
      itemsTail?_closed (by simp) hitems (by omega) (by omega)
    obtain ⟨c, cs, hcons, hblank, hclose⟩ := (h v (List.mem_cons_self ..)).exists_head
    obtain ⟨tail, htext⟩ := exists_closed_cons ']' v.textOf (items.map textOf)
    rw [List.map_cons, htext, hcons] at htail ⊢
    exact (value?_items hblank hclose htail).trans (congrArg (fun v => some (v, rest)) hvalue)

theorem readBack_object (h : ∀ field ∈ fields, ReadBack field.2) : ReadBack (object fields) := by
  intro fuel nesting rest hfuel hdepth hrest
  rw [depth] at hdepth
  rw [textOf_object, List.length_cons] at hfuel
  rw [textOf_object, List.cons_append]
  obtain ⟨fuel, rfl⟩ := Nat.exists_eq_succ_of_ne_zero (Nat.ne_zero_of_lt hfuel)
  have hvalue : ofFields? nesting (some fields) = object fields := if_neg (by omega)
  cases fields with
  | nil => exact congrArg (fun v => some (v, rest)) hvalue
  | cons field fields =>
    have htail : fieldsTail? fuel (nesting - 1)
        (closed '}' ((field :: fields).map fieldText) ++ rest) =
          some (some (field :: fields), rest) :=
      fieldsTail?_closed (by simp) h (by omega) (by omega)
    obtain ⟨cs, hcons⟩ := exists_cons_writeString field.1
    obtain ⟨tail, htext⟩ := exists_closed_cons '}' (fieldText field) (fields.map fieldText)
    rw [List.map_cons, htext, fieldText, hcons] at htail ⊢
    exact (value?_fields htail).trans (congrArg (fun v => some (v, rest)) hvalue)

theorem Lossless.readBack (h : j.Lossless) : ReadBack j := by
  induction h with
  | null =>
    intro fuel nesting rest hfuel hdepth hrest
    obtain ⟨fuel, rfl⟩ := Nat.exists_eq_succ_of_ne_zero (Nat.ne_zero_of_lt hfuel)
    rfl
  | bool b =>
    intro fuel nesting rest hfuel hdepth hrest
    cases b <;>
    · obtain ⟨fuel, rfl⟩ := Nat.exists_eq_succ_of_ne_zero (Nat.ne_zero_of_lt hfuel)
      rfl
  | natural hn => exact readBack_natural hn
  | string s => exact readBack_string s
  | array h ih => exact readBack_array h ih
  | object h ih => exact readBack_object ih

/-- A value is read back from its text. -/
theorem read?_write (h : j.Lossless) (hdepth : j.depth ≤ nesting) :
    read? nesting j.write = some j := by
  have hread := h.readBack (show j.textOf.length ≤ 2 * j.textOf.length + 2 by omega) hdepth
    endsNumber_nil
  rw [List.append_nil] at hread
  rw [read?]
  show (value? (2 * j.textOf.length + 2) nesting j.textOf >>= _) = _
  rw [hread]
  rfl

end MacroAsm.Json
