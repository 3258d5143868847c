import SwiftKStdlib.Lexer.Lexer

/-!
# Reading inside the buffer

* `read_eq`, `lt_size` : the terminator may be read, and only the terminator is at the end;
* `validate_bounds`, `advanceIf_bounds` : a character ends inside the buffer;
* `returns_scanWhile`, `returns_advanceWhile` : the scans stop inside the buffer;
* the same for what is skipped: lines, comments and conflict markers.
-/

namespace SwiftKStdlib.Parse.Buffer

open Lib

variable {b : Buffer} {p q : Nat}

/-! ## Bytes -/

theorem read_eq (h : p ≤ b.size) : b.read p = some (b.byteAt p) := if_pos h

theorem readBack_eq (h : p ≤ b.size) (h0 : p ≠ 0) : b.readBack p = some (b.byteAt (p - 1)) := by
  rw [readBack, if_neg h0]
  exact read_eq (by omega)

theorem rest_eq (h : p ≤ b.size) : b.rest p = some (b.bytes.drop p) := if_pos h

theorem byteAt_of_size_le (h : b.size ≤ p) : b.byteAt p = 0 := by
  rw [byteAt, List.getD_eq_getElem?_getD, List.getElem?_eq_none h]
  rfl

theorem byteAt_size : b.byteAt b.size = 0 := byteAt_of_size_le le_rfl

theorem byteAt_eq (h : p < b.size) : b.byteAt p = b.bytes.get ⟨p, h⟩ := by
  rw [byteAt, List.getD_eq_getElem?_getD, List.getElem?_eq_getElem h]
  rfl

theorem drop_eq (h : p < b.size) : b.bytes.drop p = b.byteAt p :: b.bytes.drop (p + 1) := by
  rw [byteAt_eq h]
  exact List.drop_eq_getElem_cons h

theorem lt_size (h : p ≤ b.size) (hc : b.byteAt p ≠ 0) : p < b.size :=
  lt_of_le_of_ne h fun hp => hc (hp ▸ byteAt_size)

theorem lt_size_of_test {test : UInt8 → Bool} (h : p ≤ b.size) (hc : test (b.byteAt p)) (h0 : test 0 = false) :
    p < b.size := by
  apply lt_size h
  intro hz
  rw [hz, h0] at hc
  exact Bool.false_ne_true hc

theorem lt_size_of_eq {c : UInt8} (h : p ≤ b.size) (hc : b.byteAt p = c) (h0 : c ≠ 0) : p < b.size :=
  lt_size h (hc ▸ h0)

theorem returns_read (h : p ≤ b.size) : Returns (b.read p) fun c => c = b.byteAt p := ⟨_, read_eq h, rfl⟩

theorem returns_readBack (h : p ≤ b.size) (h0 : p ≠ 0) : Returns (b.readBack p) fun c => c = b.byteAt (p - 1) :=
  ⟨_, readBack_eq h h0, rfl⟩

theorem looksAt_eq {c d : Char} (h : p ≤ b.size) (hc : byte c ≠ 0) :
    b.looksAt p c d = some (b.byteAt p = byte c && b.byteAt (p + 1) = byte d) := by
  rw [looksAt, read_eq h]
  by_cases heq : b.byteAt p = byte c
  · have hlt := lt_size_of_eq h heq hc
    simp only [Option.bind_eq_bind, Option.bind_some, read_eq (show p + 1 ≤ b.size from hlt), heq]
    simp
  · simp only [Option.bind_eq_bind, Option.bind_some, if_neg heq]
    simp [heq]

theorem returns_looksAt {c d : Char} (h : p ≤ b.size) (hc : byte c ≠ 0) :
    Returns (b.looksAt p c d) fun r => r = true → b.byteAt p = byte c ∧ b.byteAt (p + 1) = byte d := by
  refine ⟨_, looksAt_eq h hc, fun hr => ?_⟩
  simpa using hr

theorem isPrefixOf_cons {c : UInt8} {text : List UInt8} (hp : p ≤ b.size) (hc : c ≠ 0) :
    (c :: text).isPrefixOf (b.bytes.drop p) = (b.byteAt p = c && text.isPrefixOf (b.bytes.drop (p + 1))) := by
  rcases hp.lt_or_eq with hlt | rfl
  · rw [drop_eq hlt, List.isPrefixOf_cons_cons]
    congr 1
    rw [beq_eq_decide]
    exact decide_eq_decide.2 eq_comm
  · rw [byteAt_size, decide_eq_false hc.symm, Bool.false_and,
      List.drop_of_length_le (show b.bytes.length ≤ b.size from le_rfl)]
    rfl

/-! ## Ranges -/

theorem text_self : b.text p p = [] := by rw [text, Nat.sub_self, List.take_zero]

theorem text_append {r : Nat} (hpq : p ≤ q) (hqr : q ≤ r) : b.text p r = b.text p q ++ b.text q r := by
  rw [text, show r - p = (q - p) + (r - q) by omega, List.take_add, List.drop_drop, Nat.add_sub_cancel' hpq]
  rfl

theorem text_one (hp : p < b.size) : b.text p (p + 1) = [b.byteAt p] := by
  rw [text, drop_eq hp, Nat.add_sub_cancel_left]
  rfl

theorem text_cons (hpq : p < q) (hq : q ≤ b.size) : b.text p q = b.byteAt p :: b.text (p + 1) q := by
  rw [text_append (Nat.le_succ p) hpq, text_one (by omega)]
  rfl

theorem length_text (hq : q ≤ b.size) : (b.text p q).length = q - p := by
  rw [size] at hq
  rw [text, List.length_take, List.length_drop]
  omega

theorem text_split {x y : List UInt8} (hpq : p ≤ q) (hq : q ≤ b.size) (h : b.text p q = x ++ y) :
    ∃ m, p ≤ m ∧ m ≤ q ∧ b.text p m = x ∧ b.text m q = y := by
  have hlen := congrArg List.length h
  rw [length_text hq, List.length_append] at hlen
  refine ⟨p + x.length, by omega, by omega, ?_⟩
  rw [text_append (Nat.le_add_right p x.length) (show p + x.length ≤ q by omega)] at h
  exact List.append_inj h (by rw [length_text (by omega), Nat.add_sub_cancel_left])

def AllBytes (b : Buffer) (pred : UInt8 → Bool) (p q : Nat) : Prop := ∀ k, p ≤ k → k < q → pred (b.byteAt k)

theorem mem_text {c : UInt8} (h : c ∈ b.text p q) (hq : q ≤ b.size) : ∃ k, p ≤ k ∧ k < q ∧ b.byteAt k = c := by
  obtain ⟨k, hk, rfl⟩ := List.mem_iff_getElem.1 h
  have hlen := hk
  rw [text, List.length_take, List.length_drop] at hlen
  refine ⟨p + k, by omega, by omega, ?_⟩
  rw [byteAt_eq (show p + k < b.size by omega)]
  simp [text]

/-! ## Loops over the buffer -/

theorem returns_iterate {σ α : Type} {body : σ → Option (Step σ α)} {P : α → Prop} {s : σ} (cursor : σ → Nat)
    (Inv : σ → Prop)
    (hbody : ∀ s, Inv s → cursor s ≤ b.size →
      Returns (body s) (Step.All (fun s' => Inv s' ∧ cursor s < cursor s' ∧ cursor s' ≤ b.size) P))
    (hs : Inv s) (hle : cursor s ≤ b.size) : Returns (iterate body b.fuel s) P := by
  refine Returns.iterate (fun s => b.size - cursor s) (fun s => Inv s ∧ cursor s ≤ b.size) ?_ ⟨hs, hle⟩
    (by simp only [fuel]; omega)
  rintro s ⟨hs, hle⟩
  apply (hbody s hs hle).mono
  rintro (s' | a) h
  · exact ⟨⟨h.1, h.2.2⟩, by have := h.2; omega⟩
  · exact h

theorem returns_scanWhile {pred : UInt8 → Bool} (hp : p ≤ b.size) (h0 : pred 0 = false) :
    Returns (b.scanWhile pred p) fun q => p ≤ q ∧ q ≤ b.size := by
  refine returns_iterate (fun q => q) (fun q => p ≤ q) ?_ le_rfl hp
  intro q hpq hq
  refine (returns_read hq).bind ?_
  rintro _ rfl
  by_cases hpred : pred (b.byteAt q)
  · simp only [hpred, if_true]
    exact .pure ⟨by omega, by omega, lt_size_of_test hq hpred h0⟩
  · simp only [hpred]
    exact .pure ⟨hpq, hq⟩

theorem scanWhile_stop {pred : UInt8 → Bool} (h : b.scanWhile pred p = some q) :
    (p ≤ q ∧ q ≤ b.size) ∧ b.AllBytes pred p q ∧ pred (b.byteAt q) = false := by
  refine iterate_induct (P := fun q => (p ≤ q ∧ q ≤ b.size) ∧ b.AllBytes pred p q ∧ pred (b.byteAt q) = false)
    (fun r => p ≤ r ∧ b.AllBytes pred p r) ?_ ?_ ⟨le_rfl, fun k hk hk' => absurd hk' (not_lt.2 hk)⟩ h
  · rintro r r' ⟨hpr, hall⟩ hstep
    obtain ⟨c, hread, hstep⟩ := Option.bind_eq_some_iff.1 hstep
    obtain rfl := Option.some.inj (Option.ite_none_right_eq_some.1 hread).2
    have hstep := Option.some.inj hstep
    split_ifs at hstep with hpred
    obtain rfl := Step.next.inj hstep
    refine ⟨by omega, fun k hk hk' => ?_⟩
    rcases (Nat.lt_succ_iff.1 hk').lt_or_eq with hlt | rfl
    · exact hall k hk hlt
    · exact hpred
  · rintro r r' ⟨hpr, hall⟩ hstep
    obtain ⟨c, hread, hstep⟩ := Option.bind_eq_some_iff.1 hstep
    obtain ⟨hr, hc⟩ := Option.ite_none_right_eq_some.1 hread
    obtain rfl := Option.some.inj hc
    have hstep := Option.some.inj hstep
    split_ifs at hstep with hpred
    obtain rfl := Step.done.inj hstep
    exact ⟨⟨hpr, hr⟩, hall, Bool.eq_false_iff.2 hpred⟩

theorem scanWhile_eq {pred : UInt8 → Bool} (hpq : p ≤ q) (hq : q ≤ b.size) (hall : b.AllBytes pred p q)
    (hc : pred (b.byteAt q) = false) (h0 : pred 0 = false) : b.scanWhile pred p = some q := by
  obtain ⟨r, hscan, -⟩ := returns_scanWhile (hpq.trans hq) h0
  obtain ⟨hbounds, hall', hc'⟩ := scanWhile_stop hscan
  rcases lt_trichotomy r q with hlt | rfl | hlt
  · exact absurd (hc'.symm.trans (hall r hbounds.1 hlt)) Bool.false_ne_true
  · exact hscan
  · exact absurd (hc.symm.trans (hall' q hpq hlt)) Bool.false_ne_true

/-! ## Characters -/

theorem continuationBytes_bounds (n value : Nat) (hp : p ≤ b.size) :
    p ≤ (b.continuationBytes n value p).2 ∧ (b.continuationBytes n value p).2 ≤ b.size := by
  induction n generalizing value p with
  | zero => exact ⟨le_rfl, hp⟩
  | succ n ih =>
      rw [continuationBytes]
      dsimp only
      split
      · exact ⟨le_rfl, hp⟩
      · split
        · exact ⟨le_rfl, hp⟩
        · have := ih (value * 2 ^ 6 + (b.byteAt p).toNat % 2 ^ 6) (show p + 1 ≤ b.size by omega)
          exact ⟨by omega, this.2⟩

theorem validate_bounds (hp : p < b.size) :
    p < (b.validateUTF8CharacterAndAdvance p).2 ∧ (b.validateUTF8CharacterAndAdvance p).2 ≤ b.size := by
  have hcont := fun n value => b.continuationBytes_bounds n value (show p + 1 ≤ b.size from hp)
  rw [validateUTF8CharacterAndAdvance, if_neg (by omega)]
  dsimp only
  by_cases hascii : b.byteAt p < 0x80
  · rw [if_pos hascii]
    exact ⟨Nat.lt_succ_self p, hp⟩
  rw [if_neg hascii]
  by_cases hbad : clo8 (b.byteAt p) = 1 ∨ (!isStartOfUTF8Character (b.byteAt p)) = true
  · rw [if_pos hbad]
    have hlen := (List.takeWhile_sublist (fun c => !isStartOfUTF8Character c) (l := b.bytes.drop (p + 1))).length_le
    rw [List.length_drop] at hlen
    simp only [size] at *
    omega
  rw [if_neg hbad]
  have := hcont (clo8 (b.byteAt p) - 1) ((b.byteAt p).toNat * 2 ^ clo8 (b.byteAt p) % 2 ^ 8 / 2 ^ clo8 (b.byteAt p))
  split
  · next q heq =>
    rw [heq] at this
    exact this
  · next value q heq =>
    rw [heq] at this
    have hq : p < q ∧ q ≤ b.size := this
    split_ifs <;> exact hq

theorem advanceIf_bounds {predicate : Nat → Bool} (h : b.advanceIf predicate p = some q) : p < q ∧ q ≤ b.size := by
  rw [advanceIf] at h
  split at h
  · next c next heq =>
    have hp : p < b.size := by
      by_contra hp
      rw [validateUTF8CharacterAndAdvance, if_pos (by omega)] at heq
      exact Option.some_ne_none c (congrArg Prod.fst heq).symm
    have hbounds := validate_bounds hp
    rw [heq] at hbounds
    split_ifs at h with hc
    exact Option.some.inj h ▸ hbounds
  · exact absurd h.symm (Option.some_ne_none q)

theorem returns_advanceWhile {predicate : Nat → Bool} (hp : p ≤ b.size) :
    Returns (b.advanceWhile predicate p) fun q => p ≤ q ∧ q ≤ b.size := by
  refine returns_iterate (fun q => q) (fun q => p ≤ q) ?_ le_rfl hp
  intro q hpq hq
  refine .pure ?_
  cases hnext : b.advanceIf predicate q with
  | some next =>
      have := advanceIf_bounds hnext
      exact ⟨by omega, this⟩
  | none => exact ⟨hpq, hq⟩

/-! ## What is skipped -/

theorem returns_skipToEndOfLine (eatNewline : Bool) (hp : p ≤ b.size) :
    Returns (b.skipToEndOfLine eatNewline p) fun r =>
      p ≤ r.1 ∧ r.1 ≤ b.size ∧ (p < b.size → ¬ isNewline (b.byteAt p) → p < r.1) := by
  refine returns_iterate (fun q => q) (fun q => p ≤ q) ?_ le_rfl hp
  intro q hpq hq
  refine (returns_read hq).bind ?_
  rintro _ rfl
  refine .ite (fun hnewline => ?_) fun _ => .ite (fun hzero => ?_) fun hzero => .ite (fun hhigh => ?_) fun _ => ?_
  · have := lt_size_of_test hq hnewline (by decide)
    refine .pure ?_
    split_ifs
    · exact ⟨by simp only; omega, this, fun _ _ => by simp only; omega⟩
    · exact ⟨hpq, hq, fun _ hne => lt_of_le_of_ne hpq fun heq => hne (heq ▸ hnewline)⟩
  · split_ifs with hend
    · exact .pure ⟨hpq, hq, fun hlt _ => hend ▸ hlt⟩
    · exact .pure ⟨by omega, by omega, by omega⟩
  · have := validate_bounds (lt_size hq hzero)
    exact .pure ⟨by omega, this⟩
  · have := lt_size hq hzero
    exact .pure ⟨by omega, by omega, this⟩

theorem returns_skipSlashStarComment (hp : p ≤ b.size) (h0 : p ≠ 0) (hslash : b.byteAt (p - 1) = byte '/')
    (hstar : b.byteAt p = byte '*') : Returns (b.skipSlashStarComment p) fun r => p < r.1 ∧ r.1 ≤ b.size := by
  have hlt := lt_size_of_eq hp hstar (by decide)
  simp only [skipSlashStarComment, readBack_eq hp h0, read_eq hp, Option.bind_eq_bind, Option.bind_some, hslash, hstar,
    and_self, guard_true, Option.pure_def]
  refine returns_iterate (fun s => s.1) (fun s => p < s.1) ?_ (by simp) hlt
  rintro ⟨q, depth, newline⟩ hpq hq
  simp only at hpq hq
  refine (returns_read hq).bind ?_
  rintro _ rfl
  refine .ite (fun hc => ?_) fun _ => .ite (fun hc => ?_) fun _ => .ite (fun hc => ?_) fun _ =>
    .ite (fun hzero => ?_) fun hzero => .ite (fun hhigh => ?_) fun _ => ?_
  · have hlt := lt_size_of_eq hq hc (by decide)
    refine (returns_read (show q + 1 ≤ b.size from hlt)).bind ?_
    rintro _ rfl
    refine .ite (fun hd => ?_) fun _ => .pure ⟨by simp only; omega, by simp, hlt⟩
    have hlt' := lt_size_of_eq (show q + 1 ≤ b.size from hlt) hd (by decide)
    refine .pure ?_
    split_ifs
    · exact ⟨by simp only; omega, hlt'⟩
    · exact ⟨by simp only; omega, by simp, hlt'⟩
  · have hlt := lt_size_of_eq hq hc (by decide)
    refine (returns_read (show q + 1 ≤ b.size from hlt)).bind ?_
    rintro _ rfl
    refine .pure ?_
    split_ifs with hd
    · exact ⟨by simp only; omega, by simp, lt_size_of_eq (show q + 1 ≤ b.size from hlt) hd (by decide)⟩
    · exact ⟨by simp only; omega, by simp, hlt⟩
  · exact .pure ⟨by simp only; omega, by simp, lt_size_of_test hq hc (by decide)⟩
  · split_ifs with hend
    · exact .pure ⟨hpq, hq⟩
    · exact .pure ⟨by simp only; omega, by simp, by simp only; omega⟩
  · have := validate_bounds (lt_size hq hzero)
    exact .pure ⟨by simp only; omega, this⟩
  · exact .pure ⟨by simp only; omega, by simp, lt_size hq hzero⟩

end SwiftKStdlib.Parse.Buffer
