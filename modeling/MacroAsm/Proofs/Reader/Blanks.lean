import MacroAsm.Proofs.Scope.Moved
import MacroAsm.Proofs.Token.Blanks
import MacroAsm.Reader

/-!
# Blanks in a line

`Reader.line_respaced`: a line is read to the same node, or has the same fault but for its offset,
if blanks outside its strings are replaced by others, or added or removed at its end.

The tokens of the part before the blanks stay where they are, and those of the part after them are
moved as a whole (`Scan.scan_respaced`). Blanks at the end move nothing (`Reader.line_trailing`).
-/

namespace MacroAsm

open Text (byteSize)

def Fault.unplaced (fault : Fault) : Fault := fault.moved fun _ => 0

theorem Fault.unplaced_moved (φ : Nat → Nat) (fault : Fault) :
    (fault.moved φ).unplaced = fault.unplaced := moved_moved

/-! ## Scanning -/

namespace Scan

variable {φ : Nat → Nat} {front front' back blanks blanks' line line' : List Char}

/-- The one line is scanned to the tokens of the other one at offsets moved by `φ`, or has its fault
there. -/
inductive MovedTo (φ : Nat → Nat) (line line' : List Char) : Prop
  | tokens {ts ts' : List Token} (hscan : scan line = .ok ts) (hscan' : scan line' = .ok ts')
      (h : Nest.Moved φ (cutLine line) (cutLine line') ts ts')
  | fault {fault : Fault} (hscan : scan line = .error fault)
      (hscan' : scan line' = .error (fault.moved φ))

theorem forall₂_addBlank {done : List Token} (start stop stop' : Nat)
    (hdone : List.Forall₂ (Nest.Counterpart φ) done done) :
    List.Forall₂ (Nest.Counterpart φ) (addBlank start stop done) (addBlank start stop' done) := by
  unfold addBlank
  split
  · exact .cons ⟨rfl, nofun⟩ hdone
  · split
    · exact .cons ⟨rfl, nofun⟩ hdone
    · exact hdone

theorem moved_front {done after after' : List Token} {tail tail' : List Char} {stop stop' : Nat}
    (hlies : ∀ t ∈ done, Lies t 0 (byteSize front)) (hφ : ∀ n ≤ byteSize front, φ n = n)
    (h : Nest.Moved φ (cutLine (front ++ tail)) (cutLine (front ++ tail')) after after') :
    Nest.Moved φ (cutLine (front ++ tail)) (cutLine (front ++ tail'))
      ((addBlank (byteSize front) stop done).reverse ++ after)
      ((addBlank (byteSize front) stop' done).reverse ++ after') := by
  have hstay : List.Forall₂ (Nest.Counterpart φ) done done := by
    rw [List.forall₂_same]
    intro t ht
    have ht := hlies t ht
    refine ⟨rfl, fun _ => ?_⟩
    rw [Token.moved, hφ _ (Nat.le_trans ht.stop ht.next), hφ _ ht.next]
  have hat : ∀ tail, StandsAt (front ++ tail) 0 front := fun tail => ⟨[], tail, rfl, rfl⟩
  have hcut := Nest.agreeOn_moved (hat tail) (hat tail') (φ := φ) (by simpa using hφ)
  rw [Nat.zero_add] at hcut
  refine .append hcut (fun t ht hsig => ?_) ?_ ?_ h
  · exact hlies t (mem_of_mem_addBlank (List.mem_reverse.mp ht) hsig)
  · rw [List.forall₂_reverse_iff]
    exact forall₂_addBlank _ _ _ hstay
  · rw [List.getLast?_reverse]
    exact head_addBlank _ _

theorem moved_back {more : List Token} (hback : Shifts φ (byteSize front) (byteSize front'))
    (hlies : ∀ t ∈ more, Lies t (byteSize front) (byteSize front + byteSize back))
    (hlast : ∀ t ∈ more.head?, t.isSignificant = false) :
    Nest.Moved φ (cutLine (front ++ back)) (cutLine (front' ++ back)) more.reverse
      (more.map (Token.moved φ)).reverse := by
  have hat : ∀ front, StandsAt (front ++ back) (byteSize front) back := fun front =>
    ⟨front, [], (List.append_nil _).symm, rfl⟩
  have hcut := Nest.agreeOn_moved (hat front) (hat front') fun k _ => hback k
  have hmoved : List.Forall₂ (Nest.Counterpart φ) more.reverse
      (more.map (Token.moved φ)).reverse := by
    rw [List.forall₂_reverse_iff, List.forall₂_map_right_iff, List.forall₂_same]
    exact fun t _ => ⟨rfl, fun _ => rfl⟩
  have h := Nest.Moved.append hcut (fun t ht _ => hlies t (List.mem_reverse.mp ht)) hmoved
    (by rwa [List.getLast?_reverse]) .nil
  rwa [List.append_nil, List.append_nil] at h

theorem scan_trailing (hfront : ClosesStrings front) (hblanks : ∀ c ∈ blanks, isBlank c = true) :
    MovedTo id front (front ++ blanks) := by
  have hends : Ends blanks := ends_of_blank fun c hc => hblanks c (List.mem_of_mem_head? hc)
  have hempty : Ends [] := nofun
  rcases scanFrom_append hfront with ⟨last, hlies, hscan⟩ | ⟨fault, -, hscan⟩
  · have hfirst := hscan [] hempty
    rw [List.append_nil, scanFrom] at hfirst
    obtain ⟨stop, hlast⟩ : ∃ stop, scanFrom 0 [] (front ++ blanks) =
        .ok (addBlank (byteSize front) stop last) := by
      rw [hscan blanks hends]
      rcases eq_or_ne blanks [] with rfl | hne
      · exact ⟨byteSize front, by rw [scanFrom]⟩
      · have hgo : scanFrom (byteSize front) last (blanks ++ []) = _ := scanFrom_blanks hblanks hne
        rw [List.append_nil, scanFrom, addBlank_addBlank] at hgo
        exact ⟨_, hgo⟩
    have hmoved : Nest.Moved id (cutLine (front ++ [])) (cutLine (front ++ blanks))
        ((addBlank (byteSize front) (byteSize front) last).reverse ++ [])
        ((addBlank (byteSize front) stop last).reverse ++ []) :=
      moved_front hlies (fun _ _ => rfl) .nil
    rw [List.append_nil, List.append_nil, List.append_nil] at hmoved
    refine .tokens (by rw [scan, hfirst]; rfl) (by rw [scan, hlast]; rfl) hmoved.settleLabel
  · have hfirst := hscan [] hempty
    rw [List.append_nil] at hfirst
    have hfault : scan front = .error fault := by rw [scan, hfirst]; rfl
    refine .fault hfault ?_
    rw [scan, hscan blanks hends, fault.moved_id]
    rfl

/-- A line is scanned to the same tokens with other blanks in it, of which those after the blanks
are moved. -/
theorem scan_respaced (hfront : ClosesStrings front) (hblanks : ∀ c ∈ blanks, isBlank c = true)
    (hblanks' : ∀ c ∈ blanks', isBlank c = true) (hne : blanks ≠ []) (hne' : blanks' ≠ [])
    (hφ : ∀ n ≤ byteSize front, φ n = n)
    (hback : Shifts φ (byteSize (front ++ blanks)) (byteSize (front ++ blanks'))) :
    MovedTo φ (front ++ (blanks ++ back)) (front ++ (blanks' ++ back)) := by
  have hends : ∀ {blanks}, (∀ c ∈ blanks, isBlank c = true) → blanks ≠ [] →
      Ends (blanks ++ back) := by
    intro blanks hblanks hne
    refine ends_of_blank fun c hc => hblanks c ?_
    rw [List.head?_append_of_ne_nil _ hne] at hc
    exact List.mem_of_mem_head? hc
  rcases scanFrom_append hfront with ⟨last, hlies, hscan⟩ | ⟨fault, hoffset, hscan⟩
  · -- both lines have the same tokens up to the first blank, and then the back part elsewhere
    have hgo : ∀ {blanks}, (∀ c ∈ blanks, isBlank c = true) → blanks ≠ [] →
        scan (front ++ (blanks ++ back)) = (scanFrom (byteSize (front ++ blanks))
          (addBlank (byteSize front) (byteSize front + 1) last) back).map
            fun done => settleLabel done.reverse := by
      intro blanks hblanks hne
      rw [scan, hscan _ (hends hblanks hne), scanFrom_blanks hblanks hne, ← Text.byteSize_append]
    have hpos : ∀ {blanks : List Char}, blanks ≠ [] → 0 < byteSize (front ++ blanks) := by
      intro blanks hne
      obtain ⟨c, cs, rfl⟩ := List.exists_cons_of_ne_nil hne
      have := c.utf8Size_pos
      rw [Text.byteSize_append, Text.byteSize_cons]
      omega
    rcases scanFrom_moved hback (hpos hne) (hpos hne') (head_addBlank _ _) back with
      ⟨more, hmore, hmore', hliesBack, hlast⟩ | ⟨fault, hfault, hfault'⟩
    · refine .tokens (by rw [hgo hblanks hne, hmore]; rfl) (by rw [hgo hblanks' hne', hmore']; rfl)
        (Nest.Moved.settleLabel ?_)
      rw [List.reverse_append, List.reverse_append]
      refine moved_front hlies hφ ?_
      rw [← List.append_assoc, ← List.append_assoc]
      refine moved_back hback hliesBack fun t ht => hlast t ?_
      rw [List.head?_append, Option.mem_def.mp ht]
      rfl
    · exact .fault (by rw [hgo hblanks hne, hfault]; rfl)
        (by rw [hgo hblanks' hne', hfault']; rfl)
  · have hfault : scan (front ++ (blanks ++ back)) = .error fault := by
      rw [scan, hscan _ (hends hblanks hne)]
      rfl
    refine .fault hfault ?_
    rw [scan, hscan _ (hends hblanks' hne'),
      Fault.moved_of_offset? fun n hn => hφ n (hoffset n hn)]
    rfl

end Scan

theorem Fold.Obstacle.offset?_fault (obstacle : Fold.Obstacle) : obstacle.fault.offset? = none := by
  unfold fault
  split <;> rfl

namespace Reader

variable {r : Reader} {φ : Nat → Nat}

theorem line_of_nested {text text' : String} {ts ts' : List Token}
    (hscan : scan text.toList = .ok ts) (hscan' : scan text'.toList = .ok ts')
    (h : Scope.ofTokens (cutLine text'.toList) r.numeral ts' =
      (Scope.ofTokens (cutLine text.toList) r.numeral ts).mapError (Fault.moved φ)) :
    r.line text' = (r.line text).mapError (Fault.moved φ) := by
  simp only [line, notedLine, hscan, hscan', h]
  cases Scope.ofTokens (cutLine text.toList) r.numeral ts with
  | error fault => rfl
  | ok root =>
    dsimp only [Except.mapError]
    cases root.fold with
    | ok node? => rfl
    | error obstacle =>
      have hplace : ∀ n ∈ obstacle.fault.offset?, φ n = n := by
        rw [obstacle.offset?_fault]
        rintro _ ⟨⟩
      exact congrArg Except.error (Fault.moved_of_offset? hplace).symm

theorem line_of_scan_error {text text' : String} {fault : Fault}
    (hscan : scan text.toList = .error fault)
    (hscan' : scan text'.toList = .error (fault.moved φ)) :
    r.line text' = (r.line text).mapError (Fault.moved φ) := by
  simp only [line, notedLine, hscan, hscan', Except.mapError]

theorem line_moved {text text' : String} (hφ : Function.Injective φ)
    (h : Scan.MovedTo φ text.toList text'.toList) :
    r.line text' = (r.line text).mapError (Fault.moved φ) := by
  cases h with
  | fault hscan hscan' => exact line_of_scan_error hscan hscan'
  | tokens hscan hscan' h => exact line_of_nested hscan hscan' (h.ofTokens hφ)

/-- A line is read the same way with blanks at its end, down to the place of a fault. -/
theorem line_trailing {text blanks : String} (htext : Scan.ClosesStrings text.toList)
    (hblanks : ∀ c ∈ blanks.toList, Scan.isBlank c = true) :
    r.line (text ++ blanks) = r.line text := by
  have hmoved : Scan.MovedTo id text.toList (text ++ blanks).toList := by
    rw [String.toList_append]
    exact Scan.scan_trailing htext hblanks
  rw [line_moved Function.injective_id hmoved]
  cases r.line text with
  | ok node? => rfl
  | error fault => exact congrArg Except.error fault.moved_id

theorem line_blanks {blanks : String} (hblanks : ∀ c ∈ blanks.toList, Scan.isBlank c = true) :
    r.line blanks = .ok none := by
  have htrailing : r.line ("" ++ blanks) = r.line "" := line_trailing rfl hblanks
  have hempty : r.line "" = .ok none := by cbv
  rw [← hempty, ← htrailing, String.empty_append]

/-- A line is read the same way with blanks in the place of no more others, but for the place of a
fault. -/
theorem line_respaced_of_le {front blanks blanks' back : String}
    (hfront : Scan.ClosesStrings front.toList)
    (hblanks : ∀ c ∈ blanks.toList, Scan.isBlank c = true)
    (hblanks' : ∀ c ∈ blanks'.toList, Scan.isBlank c = true) (hne : blanks ≠ "")
    (hle : byteSize blanks.toList ≤ byteSize blanks'.toList) :
    (r.line (front ++ blanks' ++ back)).mapError Fault.unplaced =
      (r.line (front ++ blanks ++ back)).mapError Fault.unplaced := by
  -- offsets are moved from where the text after the blanks starts
  let φ n := if n < byteSize (front.toList ++ blanks.toList) then n
    else n + (byteSize blanks'.toList - byteSize blanks.toList)
  have hblank : blanks.toList ≠ [] := by simpa using hne
  obtain ⟨c, cs, hcons⟩ := List.exists_cons_of_ne_nil hblank
  have hpos : 0 < byteSize blanks.toList := by
    have := c.utf8Size_pos
    rw [hcons, Text.byteSize_cons]
    omega
  have hblank' : blanks'.toList ≠ [] := by
    intro hnil
    rw [hnil, Text.byteSize_nil] at hle
    omega
  have hφ : Function.Injective φ := by
    intro m n h
    simp only [φ] at h
    split at h <;> split at h <;> omega
  have hstay : ∀ n ≤ byteSize front.toList, φ n = n := by
    intro n hn
    refine if_pos ?_
    rw [Text.byteSize_append]
    omega
  have hshift : Scan.Shifts φ (byteSize (front.toList ++ blanks.toList))
      (byteSize (front.toList ++ blanks'.toList)) := by
    intro n
    show (if _ then _ else _) = _
    rw [if_neg (by omega), Text.byteSize_append, Text.byteSize_append]
    omega
  have hmoved : Scan.MovedTo φ (front ++ blanks ++ back).toList
      (front ++ blanks' ++ back).toList := by
    simp only [String.toList_append, List.append_assoc]
    exact Scan.scan_respaced hfront hblanks hblanks' hblank hblank' hstay hshift
  rw [line_moved hφ hmoved]
  cases r.line (front ++ blanks ++ back) with
  | ok node? => rfl
  | error fault => exact congrArg Except.error (fault.unplaced_moved φ)

/-- A line is read to the same node, or has the same fault but for its place, with blanks outside
its strings in the place of others, and with any blanks at its end. -/
theorem line_respaced {front blanks blanks' back : String}
    (hfront : Scan.ClosesStrings front.toList)
    (hblanks : ∀ c ∈ blanks.toList, Scan.isBlank c = true)
    (hblanks' : ∀ c ∈ blanks'.toList, Scan.isBlank c = true)
    (hback : back ≠ "" → blanks ≠ "" ∧ blanks' ≠ "") :
    (r.line (front ++ blanks ++ back)).mapError Fault.unplaced =
      (r.line (front ++ blanks' ++ back)).mapError Fault.unplaced := by
  rcases eq_or_ne back "" with rfl | hne
  · rw [String.append_empty, String.append_empty, line_trailing hfront hblanks,
      line_trailing hfront hblanks']
  · obtain ⟨hblank, hblank'⟩ := hback hne
    rcases Nat.le_total (byteSize blanks.toList) (byteSize blanks'.toList) with hle | hle
    · exact (line_respaced_of_le hfront hblanks hblanks' hblank hle).symm
    · exact line_respaced_of_le hfront hblanks' hblanks hblank' hle

/-- After a label, a bare call has a string with a blank in it, and then a stray parenthesis. -/
theorem line_respaced_stray :
    Scan.ClosesStrings "a f ' ;\"',".toList ∧ (∀ c ∈ " ".toList, Scan.isBlank c = true) ∧
      (∀ c ∈ "\t\r ".toList, Scan.isBlank c = true) ∧
      ({} : Reader).line ("a f ' ;\"'," ++ " " ++ "-b)") = .error (.strayParen 13) ∧
      ({} : Reader).line ("a f ' ;\"'," ++ "\t\r " ++ "-b)") = .error (.strayParen 15) ∧
      (({} : Reader).line ("a f ' ;\"'," ++ " " ++ "-b)")).mapError Fault.unplaced =
        (({} : Reader).line ("a f ' ;\"'," ++ "\t\r " ++ "-b)")).mapError Fault.unplaced := by
  have hfront : Scan.ClosesStrings "a f ' ;\"',".toList := rfl
  have hblanks : ∀ c ∈ " ".toList, Scan.isBlank c = true := List.all_eq_true.mp rfl
  have hblanks' : ∀ c ∈ "\t\r ".toList, Scan.isBlank c = true := List.all_eq_true.mp rfl
  refine ⟨hfront, hblanks, hblanks', by cbv, by cbv, ?_⟩
  exact line_respaced hfront hblanks hblanks' fun _ => by decide

end Reader

end MacroAsm
