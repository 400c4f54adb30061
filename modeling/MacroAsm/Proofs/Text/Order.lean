import Mathlib.Data.List.Basic

/-!
# The order of texts

Texts are compared character by character, which is how their UTF-8 bytes compare
(`Text.bytesOf_lt`): a character that comes before another one is encoded to bytes that come before
those of the other, whatever follows (`Text.encode_lt`).
-/

namespace MacroAsm.Text

open String (utf8EncodeChar)

def bytesOf (s : String) : List UInt8 := s.toUTF8.data.toList

variable {c d : Char} {cs ds : List Char} {xs ys : List UInt8}

theorem bytesOf_eq (s : String) : bytesOf s = s.toList.flatMap utf8EncodeChar := by
  show s.toByteArray.data.toList = _
  rw [← String.utf8Encode_toList, List.utf8Encode]
  simp

theorem ofNat_cons_lt {m n : Nat} (hm : m < 256) (hn : n < 256) (hle : m ≤ n)
    (h : m = n → xs < ys) : UInt8.ofNat m :: xs < UInt8.ofNat n :: ys := by
  rw [List.cons_lt_cons_iff, UInt8.lt_iff_toNat_lt, UInt8.toNat_ofNat', UInt8.toNat_ofNat',
    Nat.mod_eq_of_lt hm, Nat.mod_eq_of_lt hn]
  rcases Nat.lt_or_eq_of_le hle with hlt | heq
  · exact .inl hlt
  · exact .inr ⟨congrArg UInt8.ofNat heq, h heq⟩

theorem encode_lt (h : c < d) (xs ys : List UInt8) :
    utf8EncodeChar c ++ xs < utf8EncodeChar d ++ ys := by
  have hlt : c.val.toNat < d.val.toNat := h
  have hmax : d.val.toNat < 0x110000 := by
    have := d.valid
    simp only [UInt32.isValidChar, Nat.isValidChar] at this
    omega
  unfold utf8EncodeChar
  generalize c.val.toNat = m at hlt
  generalize d.val.toNat = n at hlt hmax
  dsimp only
  -- the encoding of the greater character is not shorter
  split_ifs <;> try omega
  all_goals refine ofNat_cons_lt (by omega) (by omega) (by omega) fun hlead => ?_
  -- the same first byte means that there are as many bytes
  all_goals try omega
  · exact ofNat_cons_lt (by omega) (by omega) (by omega) fun _ => by omega
  · refine ofNat_cons_lt (by omega) (by omega) (by omega) fun _ => ?_
    exact ofNat_cons_lt (by omega) (by omega) (by omega) fun _ => by omega
  · refine ofNat_cons_lt (by omega) (by omega) (by omega) fun _ => ?_
    refine ofNat_cons_lt (by omega) (by omega) (by omega) fun _ => ?_
    exact ofNat_cons_lt (by omega) (by omega) (by omega) fun _ => by omega

theorem flatMap_encode_lt (h : cs < ds) :
    cs.flatMap utf8EncodeChar < ds.flatMap utf8EncodeChar := by
  induction cs generalizing ds with
  | nil =>
    cases ds with
    | nil => exact absurd h (List.lt_irrefl _)
    | cons d ds =>
      have hne : utf8EncodeChar d ≠ [] := String.utf8EncodeChar_ne_nil
      obtain ⟨byte, bytes, hbytes⟩ := List.exists_cons_of_ne_nil hne
      rw [List.flatMap_cons, hbytes]
      exact List.nil_lt_cons _ _
  | cons c cs ih =>
    cases ds with
    | nil => exact absurd h (List.not_lt_nil _)
    | cons d ds =>
      rw [List.flatMap_cons, List.flatMap_cons]
      rcases List.cons_lt_cons_iff.mp h with hcd | ⟨rfl, hrest⟩
      · exact encode_lt hcd _ _
      · exact List.append_left_lt (ih hrest)

theorem bytesOf_lt {s t : String} (h : s < t) : bytesOf s < bytesOf t := by
  rw [bytesOf_eq, bytesOf_eq]
  exact flatMap_encode_lt h

end MacroAsm.Text
