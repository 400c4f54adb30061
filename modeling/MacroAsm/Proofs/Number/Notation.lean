import Mathlib.Data.List.Forall2
import Mathlib.Data.Nat.Digits.Defs
import Mathlib.Tactic.FinCases
import Mathlib.Tactic.IntervalCases
import MacroAsm.Number.Literal

/-!
# The notations of integers

`Numeral.Denotes` says which texts are integers, in which radix and with which digits: one of the
notations of the language (`Numeral.IsWritten`), with separators anywhere among the digits. The
notations overlap as texts (`0B0h` starts like a binary numeral), but a text that is written in one
of them is read in it (`ofText_of_isWritten`).

`readNumeral_integer`: a text is read as an integer exactly if it denotes one below 2^64, which is
then the positional value of its digits, stored in the narrowest class. Above that it overflows. The
reader gives up at the first digit that takes the value out of bounds, and no later digit can bring
it back (`le_horner`).
-/

namespace MacroAsm

namespace Numeral

variable {radix value d : Nat} {seen : Bool} {c : Char} {text cs : List Char} {ds : List Nat}

/-- The digits of all radices. The digit at an index counts for that index. -/
def lowerDigits : List Char :=
  ['0', '1', '2', '3', '4', '5', '6', '7', '8', '9', 'a', 'b', 'c', 'd', 'e', 'f']

@[inherit_doc lowerDigits]
def upperDigits : List Char := lowerDigits.map Char.toUpper

/-- The character is the digit of a radix that counts for `d`. -/
def IsDigit (radix : Nat) (c : Char) (d : Nat) : Prop :=
  d < radix ∧ (lowerDigits[d]? = some c ∨ upperDigits[d]? = some c)

instance : Decidable (IsDigit radix c d) := inferInstanceAs (Decidable (_ ∧ _))

/-- The characters are digits of a radix that count for `ds`, and separators between, before and
after them. -/
def Spells (radix : Nat) (cs : List Char) (ds : List Nat) : Prop :=
  List.Forall₂ (IsDigit radix) (cs.filter (· ≠ '_')) ds

instance : Decidable (Spells radix cs ds) :=
  let digits := cs.filter (· ≠ '_')
  decidable_of_iff (digits.length = ds.length ∧ ∀ p ∈ digits.zip ds, IsDigit radix p.1 p.2)
    (by simp [Spells, List.forall₂_iff_zip, digits])

/-- The notations of integers: a text, its radix, and the part of it that has the digits. -/
inductive IsWritten : List Char → Nat → List Char → Prop
  | dollar {cs : List Char} : IsWritten ('$' :: cs) 16 cs
  /-- Only a text that starts with a decimal digit is hexadecimal for its last letter. -/
  | lastLetter {c h : Char} {cs : List Char} (hc : ∃ d, IsDigit 10 c d) (hh : h = 'h' ∨ h = 'H') :
      IsWritten (c :: cs ++ [h]) 16 (c :: cs)
  | firstLetter {letter : Char} {radix : Nat} {cs : List Char}
      (hletter : (letter, radix) ∈ [('x', 16), ('X', 16), ('b', 2), ('B', 2), ('o', 8), ('O', 8)]) :
      IsWritten ('0' :: letter :: cs) radix cs
  | decimal {cs : List Char} : IsWritten cs 10 cs

/-- The text is an integer with the digits `ds` in a radix, of which there is one at least. -/
def Denotes (text : List Char) (radix : Nat) (ds : List Nat) : Prop :=
  ds ≠ [] ∧ ∃ cs, IsWritten text radix cs ∧ Spells radix cs ds

/-- What digits stand for in a radix by their positions, the last one counting once. -/
def positional (radix : Nat) (ds : List Nat) : Nat := Nat.ofDigits radix ds.reverse

/-! ## Digits -/

theorem IsDigit.mem (h : IsDigit radix c d) : c ∈ lowerDigits ++ upperDigits :=
  List.mem_append.mpr (h.2.imp List.mem_of_getElem? List.mem_of_getElem?)

theorem digitValue?_of_isDigit (hradix : radix ≤ 16) (h : IsDigit radix c d) :
    digitValue? radix c = some d := by
  obtain ⟨hlt, h⟩ := h
  have hd : d < 16 := by omega
  interval_cases d <;> rcases h with h | h <;> cases h <;> simp [digitValue?, hlt]

theorem isDigit_of_digitValue? (hradix : radix ≤ 16) (h : digitValue? radix c = some d) :
    IsDigit radix c d := by
  have hdigit : c.isDigit = true ↔ 48 ≤ c.toNat ∧ c.toNat ≤ 57 := Char.isDigit_iff_toNat
  have hlower : ('a' ≤ c ∧ c ≤ 'z') ↔ 97 ≤ c.toNat ∧ c.toNat ≤ 122 := Iff.rfl
  have hupper : ('A' ≤ c ∧ c ≤ 'Z') ↔ 65 ≤ c.toNat ∧ c.toNat ≤ 90 := Iff.rfl
  obtain ⟨hv, hlt⟩ := Option.filter_eq_some_iff.mp h
  have hlt : d < radix := by simpa using hlt
  have hd : d < 16 := by omega
  have hc : c.toNat = 48 + d ∧ d < 10 ∨ c.toNat = 87 + d ∧ 10 ≤ d ∨ c.toNat = 55 + d ∧ 10 ≤ d := by
    have h0 : '0'.toNat = 48 := rfl
    have ha : 'a'.toNat = 97 := rfl
    have hA : 'A'.toNat = 65 := rfl
    revert hv
    split_ifs with h1 h2 h3 <;> intro hv <;> cases hv
    · have := hdigit.mp h1
      omega
    · have := hlower.mp h2
      omega
    · have := hupper.mp h3
      omega
  refine ⟨hlt, ?_⟩
  rw [← Char.ofNat_toNat c]
  rcases hc with ⟨hc, hd⟩ | ⟨hc, hd⟩ | ⟨hc, hd⟩ <;> rw [hc] <;> interval_cases d <;> decide

theorem digitValue?_eq_some_iff (hradix : radix ≤ 16) :
    digitValue? radix c = some d ↔ IsDigit radix c d :=
  ⟨isDigit_of_digitValue? hradix, digitValue?_of_isDigit hradix⟩

@[simp]
theorem spells_nil : Spells radix [] ds ↔ ds = [] := by
  simp [Spells]

@[simp]
theorem spells_separator : Spells radix ('_' :: cs) ds ↔ Spells radix cs ds := by
  simp [Spells]

theorem spells_cons (hc : c ≠ '_') :
    Spells radix (c :: cs) ds ↔ ∃ d more, IsDigit radix c d ∧ Spells radix cs more ∧ ds = d :: more := by
  simp [Spells, hc, List.forall₂_cons_left_iff]

theorem Spells.of_mem (h : Spells radix cs ds) (hc : c ∈ cs) : c = '_' ∨ ∃ d, IsDigit radix c d := by
  by_cases hsep : c = '_'
  · exact .inl hsep
  have hmem : c ∈ cs.filter (· ≠ '_') := List.mem_filter.mpr ⟨hc, by simpa using hsep⟩
  obtain ⟨i, hi, hget⟩ := List.getElem_of_mem hmem
  have hd := h.get hi (h.length_eq ▸ hi)
  rw [List.get_eq_getElem, hget] at hd
  exact .inr ⟨_, hd⟩

/-! ## Positional values -/

theorem positional_eq_foldl : positional radix ds = ds.foldl (fun n d => n * radix + d) 0 := by
  rw [positional, Nat.ofDigits_eq_foldr, List.foldr_reverse]
  congr
  funext n d
  simp [Nat.mul_comm, Nat.add_comm]

theorem le_horner (hradix : 0 < radix) : value ≤ ds.foldl (fun n d => n * radix + d) value := by
  induction ds generalizing value with
  | nil => exact le_rfl
  | cons d ds ih =>
    calc value ≤ value * radix := Nat.le_mul_of_pos_right _ hradix
      _ ≤ value * radix + d := Nat.le_add_right _ _
      _ ≤ _ := ih

theorem readDigits_eq_ok_iff {n : Nat} (hradix : 0 < radix ∧ radix ≤ 16) (hvalue : value < 2 ^ 64) :
    readDigits radix value seen cs = .ok n ↔ ∃ ds, Spells radix cs ds ∧
      (seen = true ∨ ds ≠ []) ∧ ds.foldl (fun n d => n * radix + d) value = n ∧ n < 2 ^ 64 := by
  induction cs generalizing value seen with
  | nil =>
    cases seen <;> simp [readDigits]
    omega
  | cons c cs ih =>
    by_cases hc : c = '_'
    · subst hc
      simpa [readDigits] using ih hvalue
    simp only [spells_cons hc, ← digitValue?_eq_some_iff hradix.2, readDigits, if_neg hc]
    cases digitValue? radix c with
    | none => simp
    | some d =>
      by_cases hnext : value * radix + d < Nat.pow 2 64
      · simp only [if_pos hnext, ih hnext]
        constructor
        · rintro ⟨ds, hds, -, hn⟩
          exact ⟨d :: ds, ⟨d, ds, rfl, hds, rfl⟩, .inr (List.cons_ne_nil d ds), hn⟩
        · rintro ⟨_, ⟨_, ds, ⟨⟩, hds, rfl⟩, -, hn⟩
          exact ⟨ds, hds, .inl trivial, hn⟩
      · simp only [if_neg hnext, reduceCtorEq, false_iff]
        rintro ⟨_, ⟨_, ds, ⟨⟩, hds, rfl⟩, -, hn, hlt⟩
        -- The digits after this one only add to a value that is out of bounds already.
        have hle : value * radix + d ≤ ds.foldl (fun n d => n * radix + d) (value * radix + d) :=
          le_horner hradix.1
        simp only [List.foldl_cons] at hn
        simp only [Nat.pow_eq] at hnext
        omega

theorem readDigits_of_le (hradix : 0 < radix ∧ radix ≤ 16) (hvalue : value < 2 ^ 64)
    (h : Spells radix cs ds) (hle : 2 ^ 64 ≤ ds.foldl (fun n d => n * radix + d) value) :
    readDigits radix value seen cs = .error .overflow := by
  induction cs generalizing value seen ds with
  | nil =>
    obtain rfl := spells_nil.mp h
    simp only [List.foldl_nil] at hle
    omega
  | cons c cs ih =>
    by_cases hc : c = '_'
    · subst hc
      simpa [readDigits] using ih hvalue (spells_separator.mp h) hle
    obtain ⟨d, more, hd, hmore, rfl⟩ := (spells_cons hc).mp h
    simp only [readDigits, if_neg hc, digitValue?_of_isDigit hradix.2 hd]
    by_cases hnext : value * radix + d < Nat.pow 2 64
    · rw [if_pos hnext]
      exact ih hnext hmore hle
    · rw [if_neg hnext]

/-! ## Notations -/

theorem IsWritten.radix_bounds (h : IsWritten text radix cs) : 0 < radix ∧ radix ≤ 16 := by
  cases h with
  | dollar => decide
  | lastLetter => decide
  | firstLetter hletter => revert hletter; simp; omega
  | decimal => decide

theorem isDigit_iff : c.isDigit = true ↔ ∃ d, IsDigit 10 c d := by
  constructor
  · intro h
    obtain ⟨hlow, hhigh⟩ : 48 ≤ c.toNat ∧ c.toNat ≤ 57 := Char.isDigit_iff_toNat.mp h
    refine ⟨c.toNat - 48, isDigit_of_digitValue? (by decide) ?_⟩
    simpa [digitValue?, h] using (by omega : c.toNat - 48 < 10)
  · rintro ⟨d, hd, h⟩
    interval_cases d <;> rcases h with h | h <;> cases h <;> rfl

theorem Spells.not_mem (h : Spells radix cs ds) (hc : c ∉ '_' :: (lowerDigits ++ upperDigits)) :
    c ∉ cs := by
  intro hmem
  rcases h.of_mem hmem with rfl | ⟨d, hd⟩
  · exact hc List.mem_cons_self
  · exact hc (List.mem_cons_of_mem _ hd.mem)

theorem hexBody?_of_spells (h : Spells radix cs ds)
    (hlast : ∀ c, text.getLast? = some c → c ∈ cs) : NumeralForm.hexBody? text = none := by
  unfold NumeralForm.hexBody?
  split
  · next last _ hc =>
    apply if_neg
    rintro ⟨rfl | rfl, -⟩
    · exact h.not_mem (by decide) (hlast _ hc)
    · exact h.not_mem (by decide) (hlast _ hc)
  · rfl

theorem radixBody?_of_spells (h : Spells 10 cs ds) : NumeralForm.radixBody? cs = none := by
  unfold NumeralForm.radixBody?
  split
  · next letter c cs =>
    have hletter : ∀ x ∈ ['x', 'X', 'b', 'B', 'o', 'O'], letter ≠ x := by
      rintro x hx rfl
      have hmem : letter ∈ '0' :: letter :: c :: cs := by simp
      rcases h.of_mem hmem with rfl | ⟨d, hd⟩
      · revert hx
        decide
      · have := isDigit_iff.mpr ⟨d, hd⟩
        revert this
        fin_cases hx <;> decide
    simp at hletter
    simp [hletter]
  · rfl

/-- A text that is written in a notation is read in it. -/
theorem ofText_of_isWritten (h : IsWritten text radix cs) (hcs : Spells radix cs ds)
    (hds : ds ≠ []) : NumeralForm.ofText text = .integer radix cs := by
  have hne : cs ≠ [] := by
    rintro rfl
    exact hds (spells_nil.mp hcs)
  cases h with
  | dollar => rfl
  | @lastLetter c h cs hc hh =>
    have hd : c.isDigit = true := isDigit_iff.mpr hc
    have hbody : NumeralForm.hexBody? (c :: (cs ++ [h])) = some (c :: cs) := by
      rw [← List.cons_append, NumeralForm.hexBody?, List.getLast?_concat, List.dropLast_concat]
      simp [hh, hd]
    unfold NumeralForm.ofText
    split
    · next heq =>
      cases heq
      cases hd
    · rw [List.cons_append, hbody]
  | @firstLetter letter _ cs hletter =>
    have hbody : NumeralForm.hexBody? ('0' :: letter :: cs) = none := by
      refine hexBody?_of_spells hcs fun c hc => ?_
      rw [List.getLast?_cons_cons, List.getLast?_cons_of_ne_nil hne] at hc
      exact List.mem_of_getLast? hc
    obtain ⟨c, cs, rfl⟩ := List.exists_cons_of_ne_nil hne
    have hradix : NumeralForm.radixBody? ('0' :: letter :: c :: cs) = some (radix, c :: cs) := by
      unfold NumeralForm.radixBody?
      fin_cases hletter <;> rfl
    simp [NumeralForm.ofText, hbody, hradix]
  | decimal =>
    have hdollar : ∀ cs, text ≠ '$' :: cs := by
      rintro cs rfl
      exact hcs.not_mem (by decide) List.mem_cons_self
    have hpoint : '.' ∉ text := hcs.not_mem (by decide)
    have hbody := hexBody?_of_spells hcs fun c hc => List.mem_of_getLast? hc
    simp [NumeralForm.ofText, hbody, radixBody?_of_spells hcs, hpoint]

theorem isWritten_of_hexBody? (h : NumeralForm.hexBody? text = some cs) :
    IsWritten text 16 cs := by
  unfold NumeralForm.hexBody? at h
  split at h
  · next first last hfirst hlast =>
    split_ifs at h with hletter
    cases h
    obtain ⟨cs, rfl⟩ := List.getLast?_eq_some_iff.mp hlast
    rw [List.dropLast_concat]
    cases cs with
    | nil =>
      -- The only character would be a digit and a letter.
      cases hfirst
      rcases hletter with ⟨rfl | rfl, hdigit⟩ <;> cases hdigit
    | cons c cs =>
      cases hfirst
      exact .lastLetter (isDigit_iff.mp hletter.2) hletter.1
  · cases h

theorem isWritten_of_radixBody? (h : NumeralForm.radixBody? text = some (radix, cs)) :
    IsWritten text radix cs := by
  unfold NumeralForm.radixBody? at h
  split at h
  · next letter c more =>
    obtain ⟨_, hradix, ⟨⟩⟩ := Option.map_eq_some_iff.mp h
    refine .firstLetter ?_
    split_ifs at hradix with hx hb ho <;> cases hradix
    · rcases hx with rfl | rfl <;> simp
    · rcases hb with rfl | rfl <;> simp
    · rcases ho with rfl | rfl <;> simp
  · cases h

theorem isWritten_of_ofText (h : NumeralForm.ofText text = .integer radix cs) :
    IsWritten text radix cs := by
  unfold NumeralForm.ofText at h
  split at h
  · cases h
    exact .dollar
  · split at h
    · next hbody =>
      cases h
      exact isWritten_of_hexBody? hbody
    · split at h
      · next hbody =>
        cases h
        exact isWritten_of_radixBody? hbody
      · split_ifs at h
        cases h
        exact .decimal

end Numeral

/-! ## Storage classes -/

def Width.bits? : Width → Option Nat
  | float => none
  | u8 => some 8
  | u16 => some 16
  | u32 => some 32
  | u64 => some 64

/-- The class has the fewest bits of all integer classes that hold `n`. -/
def Width.IsNarrowest (w : Width) (n : Nat) : Prop :=
  ∃ bits, w.bits? = some bits ∧ n < 2 ^ bits ∧
    ∀ v more, Width.bits? v = some more → n < 2 ^ more → bits ≤ more

theorem Width.isNarrowest_ofInteger (n : UInt64) : (ofInteger n).IsNarrowest n.toNat := by
  have hn : n.toNat < 2 ^ 64 := n.toNat_lt
  unfold ofInteger IsNarrowest
  simp only [Nat.pow_eq]
  split_ifs with h8 h16 h32
  · exact ⟨8, rfl, h8, fun v more hv _ => by cases v <;> cases hv <;> decide⟩
  · refine ⟨16, rfl, h16, fun v more hv hmore => ?_⟩
    cases v <;> cases hv <;> omega
  · refine ⟨32, rfl, h32, fun v more hv hmore => ?_⟩
    cases v <;> cases hv <;> omega
  · refine ⟨64, rfl, hn, fun v more hv hmore => ?_⟩
    cases v <;> cases hv <;> omega

theorem Width.IsNarrowest.eq {w v : Width} {n : Nat} (hw : w.IsNarrowest n) (hv : v.IsNarrowest n) :
    w = v := by
  obtain ⟨a, ha, hna, hleast⟩ := hw
  obtain ⟨b, hb, hnb, hleast'⟩ := hv
  have hab : a = b := Nat.le_antisymm (hleast v b hb hnb) (hleast' w a ha hna)
  subst hab
  cases w <;> cases ha <;> cases v <;> cases hb <;> rfl

theorem Width.isNarrowest_iff {w : Width} {n : UInt64} :
    w.IsNarrowest n.toNat ↔ w = ofInteger n :=
  ⟨fun h => h.eq (isNarrowest_ofInteger n), fun h => h ▸ isNarrowest_ofInteger n⟩

/-! ## Integers -/

namespace Numeral

variable {text : String} {radix : Nat} {ds : List Nat}

theorem readNumeral_of_denotes (h : Denotes text.toList radix ds) :
    readNumeral text =
      if positional radix ds < 2 ^ 64 then
        .ok (.integer (.ofNat (positional radix ds)), .ofInteger (.ofNat (positional radix ds)))
      else .error .overflow := by
  obtain ⟨hds, cs, hcs, hspells⟩ := h
  rw [readNumeral, ofText_of_isWritten hcs hspells hds, positional_eq_foldl]
  split_ifs with hlt
  · have hread : readDigits radix 0 false cs = .ok (ds.foldl (fun n d => n * radix + d) 0) :=
      (readDigits_eq_ok_iff hcs.radix_bounds (by decide)).mpr ⟨ds, hspells, .inr hds, rfl, hlt⟩
    simp only [hread]
    rfl
  · have hread : readDigits radix 0 false cs = .error .overflow :=
      readDigits_of_le hcs.radix_bounds (by decide) hspells (not_lt.mp hlt)
    simp only [hread]
    rfl

theorem denotes_of_readNumeral {v : UInt64} {w : Width}
    (h : readNumeral text = .ok (.integer v, w)) :
    ∃ radix ds, Denotes text.toList radix ds ∧ positional radix ds = v.toNat := by
  rw [readNumeral] at h
  cases hform : NumeralForm.ofText text.toList with
  | fraction text =>
    simp only [hform] at h
    cases hread : readFraction text <;> rw [hread] at h <;> cases h
  | integer radix cs =>
    have hcs := isWritten_of_ofText hform
    simp only [hform] at h
    cases hread : readDigits radix 0 false cs with
    | error fault =>
      rw [hread] at h
      cases h
    | ok n =>
      rw [hread] at h
      cases h
      obtain ⟨ds, hspells, hds, hn, hlt⟩ :=
        (readDigits_eq_ok_iff hcs.radix_bounds (by decide)).mp hread
      refine ⟨radix, ds, ⟨by simpa using hds, cs, hcs, hspells⟩, ?_⟩
      rw [positional_eq_foldl, hn, UInt64.toNat_ofNat_of_lt' hlt]

end Numeral

open Numeral in
/-- A text is read as an integer exactly if it denotes one that fits in 64 bits. -/
theorem readNumeral_integer (text : String) :
    (∀ v w, readNumeral text = .ok (.integer v, w) ↔
      ∃ radix ds, Denotes text.toList radix ds ∧ positional radix ds = v.toNat ∧
        w.IsNarrowest v.toNat) ∧
    ∀ radix ds, Denotes text.toList radix ds → 2 ^ 64 ≤ positional radix ds →
      readNumeral text = .error .overflow := by
  refine ⟨fun v w => ⟨fun h => ?_, ?_⟩, fun radix ds h hle => ?_⟩
  · obtain ⟨radix, ds, hds, hv⟩ := denotes_of_readNumeral h
    have hread := readNumeral_of_denotes hds
    rw [if_pos (hv ▸ v.toNat_lt), hv, h, UInt64.ofNat_toNat] at hread
    cases hread
    exact ⟨radix, ds, hds, hv, Width.isNarrowest_ofInteger v⟩
  · rintro ⟨radix, ds, hds, hv, hw⟩
    rw [readNumeral_of_denotes hds, if_pos (hv ▸ v.toNat_lt), hv, UInt64.ofNat_toNat,
      Width.isNarrowest_iff.mp hw]
  · rw [readNumeral_of_denotes h, if_neg (not_lt.mpr hle)]

/-- The last letter counts for more than the first one, which is a digit here. -/
theorem readNumeral_integer_lastLetter :
    readNumeral "0B_eH" = .ok (.integer 0xBE, .u8) ∧
      readNumeral "0x1_0000_0000_0000_0000" = .error .overflow := by
  constructor
  · have htext : "0B_eH".toList = ['0', 'B', '_', 'e'] ++ ['H'] := by decide
    refine ((readNumeral_integer "0B_eH").1 _ _).mpr ⟨16, [0, 11, 14], ⟨by decide, ?_⟩, by decide, ?_⟩
    · rw [htext]
      exact ⟨_, .lastLetter ⟨0, by decide⟩ (.inr rfl), by decide⟩
    · exact Width.isNarrowest_ofInteger 0xBE
  · have htext : "0x1_0000_0000_0000_0000".toList =
        '0' :: 'x' :: '1' :: '_' :: "0000_0000_0000_0000".toList := by decide
    refine (readNumeral_integer "0x1_0000_0000_0000_0000").2 16 (1 :: List.replicate 16 0)
      ⟨by decide, ?_⟩ (by decide)
    rw [htext]
    exact ⟨_, .firstLetter (by decide), by decide⟩

end MacroAsm
