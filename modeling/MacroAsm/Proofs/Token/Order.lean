import MacroAsm.Proofs.Token.Context

/-!
# The order of tokens

`scan_inOrder`: the tokens of a line stand one behind the other. Each one ends, with the closing
quote if it is a string, where the next one starts or before it (`Token.behind`). So an offset says
which token starts there (`InOrder.split_unique`), and which one stands right before it
(`InOrder.getLast?_eq`).
-/

namespace MacroAsm

/-- The offset right behind a token in its line. The token of a string covers what stands between
the quotes, and the closing quote comes after that. -/
def Token.behind (t : Token) : Nat := if t.kind = .string then t.stop + 1 else t.stop

theorem Token.behind_of_ne {t : Token} (h : t.kind ≠ .string) : t.behind = t.stop := if_neg h

theorem Token.behind_of_string {t : Token} (h : t.kind = .string) : t.behind = t.stop + 1 :=
  if_pos h

theorem Token.behind_of_blank {t : Token} (h : t.kind = .blank ∨ t.kind = .impliedLabel) :
    t.behind = t.stop := by
  apply Token.behind_of_ne
  rcases h with h | h <;> simp [h]

theorem Token.stop_le_behind (t : Token) : t.stop ≤ t.behind := by
  unfold Token.behind
  split <;> omega

namespace Scan

/-- The tokens stand one behind the other. Only the last one may cover no text. -/
structure InOrder (tokens : List Token) : Prop where
  covers : ∀ t ∈ tokens, t.start ≤ t.behind
  pairwise : tokens.Pairwise fun t u => t.start < t.behind ∧ t.behind ≤ u.start

/-- Tokens before an offset, the last one first, that stand one behind the other. -/
structure EndBy (offset : Nat) (done : List Token) : Prop where
  covers : ∀ t ∈ done, t.start < t.behind ∧ t.behind ≤ offset
  pairwise : done.Pairwise fun u t => t.behind ≤ u.start

variable {offset next stop : Nat} {done last tokens front back front' back' : List Token}
  {t u p d : Token} {cs rest line : List Char}

/-! ## Scanning -/

theorem Lexes.behind_eq (h : Lexes offset cs t next rest) : t.behind = next := by
  cases h with
  | @string quote _ _ _ hquote _ =>
    rw [Token.behind_of_string rfl, utf8Size_of_isQuote hquote]
  | mark hkind => exact Token.behind_of_ne (kind_ne_string_of_mark hkind)
  | run hcs => exact Token.behind_of_ne (kind_ne_string_of_run hcs)
  | cast | label | operator => rfl

theorem Lexes.start_lt_behind (h : Lexes offset cs t next rest) : t.start < t.behind := by
  have hlt := h.lt
  have hlies := h.lies
  rw [h.behind_eq]
  cases h with
  | @string quote =>
    exact Nat.lt_of_le_of_lt hlies.stop (Nat.lt_add_of_pos_right quote.utf8Size_pos)
  | _ => exact hlt

theorem EndBy.cons (h : EndBy offset done) (hstart : offset ≤ t.start) (ht : t.start < t.behind)
    (hnext : t.behind ≤ next) : EndBy next (t :: done) where
  covers := by
    refine List.forall_mem_cons.mpr ⟨⟨ht, hnext⟩, fun u hu => ?_⟩
    have hcovers := h.covers u hu
    omega
  pairwise := List.pairwise_cons.mpr
    ⟨fun u hu => Nat.le_trans (h.covers u hu).2 hstart, h.pairwise⟩

theorem exists_lead (start stop : Nat) (done : List Token) :
    ∃ lead, addBlank start stop done = lead ++ done ∧ ∀ t ∈ lead, t.start = start := by
  rcases addBlank_eq_or start stop done with heq | ⟨t, -, hstart, -, heq⟩
  · exact ⟨[], heq, by simp⟩
  · exact ⟨[t], heq, by simpa using hstart⟩

theorem Scans.exists_more (h : Scans offset done cs stop last rest) :
    ∃ more, last = more ++ done ∧ ∀ t ∈ more, offset ≤ t.start := by
  induction h with
  | refl => exact ⟨[], rfl, by simp⟩
  | @blank offset done c cs stop last rest hc _ ih =>
    obtain ⟨more, rfl, hmore⟩ := ih
    obtain ⟨lead, heq, hlead⟩ := exists_lead offset (offset + c.utf8Size) done
    refine ⟨more ++ lead, by rw [heq, List.append_assoc], ?_⟩
    rw [List.forall_mem_append]
    exact ⟨fun t ht => Nat.le_trans (Nat.le_add_right ..) (hmore t ht),
      fun t ht => (hlead t ht).ge⟩
  | @token _ _ _ t _ _ _ _ _ hlexes _ _ ih =>
    obtain ⟨more, rfl, hmore⟩ := ih
    refine ⟨more ++ [t], by simp, ?_⟩
    rw [List.forall_mem_append, List.forall_mem_singleton]
    exact ⟨fun u hu => Nat.le_trans hlexes.lt.le (hmore u hu), hlexes.lies.start⟩

theorem EndBy.mono (h : EndBy offset done) (hle : offset ≤ next) : EndBy next done :=
  ⟨fun t ht => ⟨(h.covers t ht).1, Nat.le_trans (h.covers t ht).2 hle⟩, h.pairwise⟩

theorem Scans.endBy (h : Scans offset done cs stop last rest) (hdone : EndBy offset done) :
    EndBy stop last := by
  induction h with
  | refl => exact hdone
  | @blank offset done c cs stop last rest hc _ ih =>
    have hlt : offset < offset + c.utf8Size := Nat.lt_add_of_pos_right c.utf8Size_pos
    apply ih
    rcases addBlank_eq_or offset (offset + c.utf8Size) done with
      heq | ⟨t, hkind, hstart, hstop, heq⟩
    · rw [heq]
      exact hdone.mono hlt.le
    · have hbehind : t.behind = offset + c.utf8Size := (Token.behind_of_blank hkind).trans hstop
      rw [heq]
      exact hdone.cons hstart.ge (by omega) hbehind.le
  | token hlexes _ _ ih =>
    exact ih (hdone.cons hlexes.lies.start hlexes.start_lt_behind hlexes.behind_eq.le)

theorem EndBy.inOrder (h : EndBy offset done) : InOrder done.reverse where
  covers t ht := (h.covers t (List.mem_reverse.mp ht)).1.le
  pairwise := by
    rw [List.pairwise_reverse]
    exact h.pairwise.imp_of_mem fun _ hu hle => ⟨(h.covers _ hu).1, hle⟩

theorem EndBy.inOrder_addBlank (h : EndBy stop done) :
    InOrder (addBlank stop stop done).reverse := by
  rcases addBlank_eq_or stop stop done with heq | ⟨t, hkind, hstart, hstop, heq⟩
  · rw [heq]
    exact h.inOrder
  · have hbehind : t.behind = stop := (Token.behind_of_blank hkind).trans hstop
    have horder := h.inOrder
    rw [heq, List.reverse_cons]
    constructor
    · rw [List.forall_mem_append, List.forall_mem_singleton]
      exact ⟨horder.covers, by omega⟩
    · rw [List.pairwise_append]
      refine ⟨horder.pairwise, List.pairwise_singleton _ _, fun u hu v hv => ?_⟩
      have hcovers := h.covers u (List.mem_reverse.mp hu)
      rw [List.mem_singleton.mp hv, hstart]
      exact hcovers

@[simp] theorem settle_behind (labelled : Bool) (t : Token) :
    (settle labelled t).behind = t.behind := by
  unfold settle
  split
  next h => simp_all [Token.behind]
  next => rfl

theorem InOrder.settleLabel (h : InOrder tokens) : InOrder (settleLabel tokens) := by
  rw [settleLabel_eq_map]
  constructor
  · simpa using h.covers
  · rw [List.pairwise_map]
    simpa using h.pairwise

/-- From wherever the run over the lexemes of a line comes, it goes on to the end, and leaves the
tokens of the line but for the mark there. -/
theorem Scans.exists_rest (h : Scans 0 [] line offset done cs) (hscan : scan line = .ok tokens) :
    ∃ stop last, Scans offset done cs stop last [] ∧
      tokens = Scan.settleLabel (addBlank stop stop last).reverse := by
  rw [scan, h.scanFrom_eq] at hscan
  cases hfrom : scanFrom offset done cs with
  | error =>
    rw [hfrom] at hscan
    cases hscan
  | ok reversed =>
    rw [hfrom] at hscan
    cases hscan
    obtain ⟨stop, last, hscans, rfl⟩ := exists_scans hfrom
    exact ⟨stop, last, hscans, rfl⟩

theorem scan_inOrder (h : scan line = .ok tokens) : InOrder tokens := by
  obtain ⟨stop, last, hscans, rfl⟩ := Scans.refl.exists_rest h
  have hstart : EndBy 0 [] := ⟨by simp, .nil⟩
  exact (hscans.endBy hstart).inOrder_addBlank.settleLabel

/-! ## Offsets -/

theorem InOrder.start_lt (h : InOrder tokens) : tokens.Pairwise fun t u => t.start < u.start :=
  h.pairwise.imp fun hle => Nat.lt_of_lt_of_le hle.1 hle.2

theorem InOrder.front_eq (h : InOrder (front ++ t :: back)) :
    (front ++ t :: back).takeWhile (fun u => decide (u.start < t.start)) = front := by
  have hlt := (List.pairwise_append.mp h.start_lt).2.2
  rw [List.takeWhile_append_of_pos fun u hu => by simpa using hlt u hu t (List.mem_cons_self ..)]
  simp

theorem InOrder.split_unique (h : InOrder (front ++ t :: back))
    (heq : front ++ t :: back = front' ++ u :: back') (hstart : t.start = u.start) :
    front = front' ∧ t = u ∧ back = back' := by
  have hfront := h.front_eq
  rw [heq] at h
  rw [heq, hstart, h.front_eq] at hfront
  subst hfront
  obtain ⟨rfl, rfl⟩ := List.cons.inj (List.append_cancel_left heq)
  exact ⟨rfl, rfl, rfl⟩

theorem InOrder.eq_of_start (h : InOrder tokens) (ht : t ∈ tokens) (hu : u ∈ tokens)
    (hstart : u.start = t.start) : u = t := by
  obtain ⟨front, back, rfl⟩ := List.append_of_mem ht
  obtain ⟨front', back', heq⟩ := List.append_of_mem hu
  exact (h.split_unique heq hstart.symm).2.1.symm

/-- A token that ends where another one starts is the one before it. -/
theorem InOrder.getLast?_eq (h : InOrder (front ++ d :: back)) (hp : p ∈ front ++ d :: back)
    (hne : p ≠ d) (hglued : p.behind = d.start) : front.getLast? = some p := by
  obtain ⟨-, hback, hfront⟩ := List.pairwise_append.mp h.pairwise
  rw [List.pairwise_cons] at hback
  have hpfront : p ∈ front := by
    rcases List.mem_append.mp hp with hp | hp
    · exact hp
    · have hlater := hback.1 p ((List.mem_cons.mp hp).resolve_left hne)
      have hcovers := h.covers p (by simp [(List.mem_cons.mp hp).resolve_left hne])
      omega
  obtain ⟨before, after, rfl⟩ := List.append_of_mem hpfront
  rcases after with _ | ⟨q, after⟩
  · exact List.getLast?_concat
  · -- a token between the two would have no room
    have hq : q ∈ before ++ p :: q :: after := by simp
    have hpq := (List.pairwise_append.mp (List.pairwise_append.mp h.pairwise).1).2.1
    rw [List.pairwise_cons] at hpq
    have hafter := (hpq.1 q (List.mem_cons_self ..)).2
    have hbefore := hfront q hq d (List.mem_cons_self ..)
    omega

end Scan

end MacroAsm
