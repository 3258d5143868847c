import Mathlib.Tactic
import SwiftKStdlib.Unicode.UTF8Window
import SwiftKStdlib.Unicode.UTF16
import SwiftKStdlib.Lib.BitField

/-!
# Encoding, decoding and transcoding scalars

* `UTFParser.results` : the results of `parseScalar` until `.emptyInput`, from a fresh parser;
* `UTF8.forwardParser_segments` : those of the forward parser are the segmentation of the text by
  Table 3-7, wherever the boundaries of the window fall;
* `UTF8.Misread` : where the reverse parser gets a scalar wrong;
* `reverseParsers_results` : elsewhere the reverse parsers return the results backwards;
* `UTF8.encode`, `UTF8.decode`, `UTF8.transcode` and those of `UTF16` : on encoded scalars;
* `UTF8.codeUnits`, `UTF16.codeUnits` : the code units of a scalar, as the standard has them;
* `encode_eq`, `decode_eq`, `transcode_eq` : what the functions do to them.

`transcode` is the branch for the other encoding; from the encoding itself it is the identity.
-/

namespace SwiftKStdlib.Unicode

open SwiftKStdlib.Lib

def UTFParser.results {w : Nat} {E : Type} (P : UTFParser w E) (input : List (BitVec w)) :
    Option (List (Segment (BitVec w))) :=
  P.parseAll (input.length + 1) .empty input

theorem UTFParser.results_read {w : Nat} {E : Type} {P : UTFParser w E} (hw : 0 < w)
    (hw32 : UIntBuffer.capacity w * w = 32) (hcap : 1 < UIntBuffer.capacity w) (hP : P.Lawful)
    (s : List (BitVec w)) : ∃ l, P.results s = some l ∧ Read P.next s l :=
  parseAll_read hw hw32 hcap hP UIntBuffer.holds_empty (Nat.zero_lt_of_lt hcap) (by simp)

namespace UTF8

variable {x : BitVec 8} {s : List (BitVec 8)}

theorem not_le_of_isScalar (hx : isScalar x = true) : x.toNat ≤ 0x7F := by
  have : ¬ 0x80 ≤ x.toNat := fun h => by simp [(isScalar_eq_false x).2 h] at hx
  omega

/-! ## The forward parser -/

theorem forward_next (hx : isScalar x = false) : ∃ seg n, forwardParser.next (x :: s) = (seg, n) ∧
    forwardParser.windowResult (UIntBuffer.ofList ((x :: s).take 4)) = (seg, 8 * n) ∧
    First WellFormed (x :: s) (seg, n) ∧ 0 < n ∧ n ≤ 4 ∧ n ≤ (x :: s).length := by
  obtain ⟨seg, n, hres, h⟩ :=
    forward_windowResult (s := x :: s) (by simp) ((isScalar_eq_false x).1 hx)
  exact ⟨seg, n, UTFParser.next_of_windowResult (by decide) hx hres, hres, h⟩

theorem forwardParser_lawful : forwardParser.Lawful where
  elements_collectionOfOne := elements_collectionOfOne
  bitCount x s hx := by
    obtain ⟨seg, n, -, hres, -, h⟩ := forward_next (s := s) hx
    exact ⟨n, congrArg Prod.snd hres, h⟩

theorem forwardParser_first (x : BitVec 8) (s : List (BitVec 8)) :
    First WellFormed (x :: s) (forwardParser.next (x :: s)) := by
  cases hx : isScalar x with
  | true =>
      rw [UTFParser.next_scalar hx]
      exact .word (n := 1) (wellFormed_one.2 (not_le_of_isScalar hx))
  | false =>
      obtain ⟨seg, n, hnext, -, hfirst, -⟩ := forward_next (s := s) hx
      rwa [hnext]

/-- The results of the forward parser are the segmentation of the text, however it is divided between
the window and the input. -/
theorem forwardParser_segments (s : List (BitVec 8)) :
    ∃ l, forwardParser.results s = some l ∧ Segments WellFormed s l ∧
      (∀ k, Segments WellFormed s k → k = l) ∧ (l.map Segment.length).sum = s.length ∧
      ∀ fuel b u v, UIntBuffer.Holds b u → u.length < 4 → u ++ v = s → s.length < fuel →
        forwardParser.parseAll fuel b v = some l := by
  obtain ⟨l, hl, hread⟩ := UTFParser.results_read (by decide) rfl (by decide) forwardParser_lawful s
  have hsegments := hread.segments forwardParser_first
  refine ⟨l, hl, hsegments, fun k hk => hsegments.unique code_wellFormed hk rfl, hsegments.sum_length, ?_⟩
  rintro fuel b u v hb hu rfl hfuel
  obtain ⟨k, hk, hkread⟩ :=
    UTFParser.parseAll_read (by decide) rfl (by decide) forwardParser_lawful hb hu hfuel
  rw [hk, hread.unique hkread]

/-! ## The reverse parser -/

/-- In `s` a well-formed sequence stands directly behind bytes that `bufferedScalar` of the reverse
parser carries into its first byte. -/
def Misread (s : List (BitVec 8)) : Prop :=
  ∃ u p w v, s = u ++ p ++ w ++ v ∧ WellFormed w ∧
    (w.length = 2 ∧ (p = [0xFF] ∨ p = [0xFF, 0xFE]) ∨ w.length = 3 ∧ p = [0xFF])

def uncarried (s : List (BitVec 8)) : Segment (BitVec 8) × Nat → Segment (BitVec 8) × Nat
  | (.word _, n) => (.word (s.take n).reverse, n)
  | r => r

@[simp] theorem uncarried_word (t w : List (BitVec 8)) (n : Nat) :
    uncarried t (.word w, n) = (.word (t.take n).reverse, n) := rfl

@[simp] theorem uncarried_illFormed (t : List (BitVec 8)) (m n : Nat) :
    uncarried t (.illFormed m, n) = (.illFormed m, n) := rfl

theorem reverse_next (x : BitVec 8) (s : List (BitVec 8)) : ∃ n, 0 < n ∧ n ≤ (x :: s).length ∧
    (WellFormed ((x :: s).take n).reverse ∧ reverseParser.next (x :: s) =
        (.word (carried (carry n ((x :: s).getD 2 0) ((x :: s).getD 3 0)) ((x :: s).take n).reverse), n) ∨
      Last WellFormed (x :: s) (.illFormed n, n) ∧ reverseParser.next (x :: s) = (.illFormed n, n)) := by
  cases hx : isScalar x with
  | true =>
      refine ⟨1, by decide, by simp, .inl ⟨wellFormed_one.2 (not_le_of_isScalar hx), ?_⟩⟩
      rw [UTFParser.next_scalar hx]
      simp [carry, carried]
  | false =>
      obtain ⟨n, hpos, -, hlen, h⟩ :=
        reverse_windowResult (s := x :: s) (by simp) ((isScalar_eq_false x).1 hx)
      exact ⟨n, hpos, hlen, h.imp
        (fun h => ⟨h.1, UTFParser.next_of_windowResult (by decide) hx h.2⟩)
        (fun h => ⟨h.1, UTFParser.next_of_windowResult (by decide) hx h.2⟩)⟩

theorem reverseParser_lawful : reverseParser.Lawful where
  elements_collectionOfOne := elements_collectionOfOne
  bitCount x s hx := by
    obtain ⟨n, hpos, hn, hlen, h⟩ :=
      reverse_windowResult (s := x :: s) (by simp) ((isScalar_eq_false x).1 hx)
    exact ⟨n, h.elim (fun h => congrArg Prod.snd h.2) (fun h => congrArg Prod.snd h.2), hpos, hn, hlen⟩

theorem reverseParser_last (x : BitVec 8) (s : List (BitVec 8)) :
    Last WellFormed (x :: s) (uncarried (x :: s) (reverseParser.next (x :: s))) := by
  obtain ⟨n, -, -, ⟨hw, hnext⟩ | ⟨hlast, hnext⟩⟩ := reverse_next x s
  · rw [hnext]
    exact .word hw
  · rwa [hnext]

theorem carry_eq_one_or {n : Nat} {x y : BitVec 8} : carry n x y = 0 ∨ carry n x y = 1 ∧
    (n = 2 ∧ (x = 0xFF ∨ x = 0xFE ∧ y = 0xFF) ∨ n = 3 ∧ y = 0xFF) := by
  unfold carry
  split_ifs with h
  · exact .inr ⟨rfl, h⟩
  · exact .inl rfl

theorem misread_of_carry {t : List (BitVec 8)} {n : Nat} (hn : n ≤ t.length)
    (hw : WellFormed (t.take n).reverse) (hc : carry n (t.getD 2 0) (t.getD 3 0) ≠ 0) :
    Misread t.reverse := by
  have hpos : ∀ {i v}, t.getD i 0 = v → 0 < v.toNat → i < t.length := fun h hv =>
    lt_length_of_pos (by rw [h]; exact hv)
  rcases carry_eq_one_or.resolve_left hc with ⟨-, ⟨rfl, h | ⟨h2, h3⟩⟩ | ⟨rfl, h⟩⟩
  · match t, hpos h (by decide) with
    | a :: b :: c :: t, _ =>
        obtain rfl : c = 0xFF := h
        exact ⟨t.reverse, [0xFF], [b, a], [], by simp, hw, .inl ⟨rfl, .inl rfl⟩⟩
  · match t, hpos h3 (by decide) with
    | a :: b :: c :: d :: t, _ =>
        obtain rfl : c = 0xFE := h2
        obtain rfl : d = 0xFF := h3
        exact ⟨t.reverse, [0xFF, 0xFE], [b, a], [], by simp, hw, .inl ⟨rfl, .inr rfl⟩⟩
  · match t, hpos h (by decide) with
    | a :: b :: c :: d :: t, _ =>
        obtain rfl : d = 0xFF := h
        exact ⟨t.reverse, [0xFF], [c, b, a], [], by simp, hw, .inr ⟨rfl, rfl⟩⟩

theorem carry_of_misread {t u p w : List (BitVec 8)} (ht : t.reverse = u ++ p ++ w)
    (h : w.length = 2 ∧ (p = [0xFF] ∨ p = [0xFF, 0xFE]) ∨ w.length = 3 ∧ p = [0xFF]) :
    carry w.length (t.getD 2 0) (t.getD 3 0) ≠ 0 := by
  obtain rfl : t = w.reverse ++ p.reverse ++ u.reverse := by
    rw [← List.reverse_reverse t, ht]
    simp
  rcases h with ⟨h, rfl | rfl⟩ | ⟨h, rfl⟩
  · obtain ⟨b, a, rfl⟩ := List.length_eq_two.1 h
    simp [carry]
  · obtain ⟨b, a, rfl⟩ := List.length_eq_two.1 h
    simp [carry]
  · obtain ⟨c, b, a, rfl⟩ := List.length_eq_three.1 h
    simp [carry]

theorem carried_eq_iff {c : BitVec 8} {s : List (BitVec 8)} (hs : s ≠ []) (hc : c = 0 ∨ c = 1) :
    carried c s = s ↔ c = 0 := by
  match s with
  | x :: s =>
      rcases hc with rfl | rfl
      · simp [carried]
      · simp [carried]

/-- A misread sequence is the last segment of the text, or stands before it. -/
theorem misread_iff {t : List (BitVec 8)} {l : List (Segment (BitVec 8))} {seg : Segment (BitVec 8)}
    {n : Nat} (hs : Segments WellFormed t.reverse (l ++ [seg])) (hseg : seg.length = n)
    (hn : n ≤ t.length) : Misread t.reverse ↔
      (WellFormed (t.take n).reverse ∧ carry n (t.getD 2 0) (t.getD 3 0) ≠ 0) ∨
        Misread (t.drop n).reverse := by
  constructor
  · rintro ⟨u, p, w, v, ht, hw, hcond⟩
    obtain ⟨lup, -, hup, -⟩ := forwardParser_segments (u ++ p)
    obtain ⟨lv, -, hv, -⟩ := forwardParser_segments v
    have hwhole : Segments WellFormed t.reverse (lup ++ .word w :: lv) := by
      rw [ht, List.append_assoc]
      refine hup.append code_wellFormed (fun x r hx => ?_) (.word hw hv)
      cases w with
      | nil => exact absurd hw code_wellFormed.ne_nil
      | cons y w =>
          obtain ⟨rfl, -⟩ := List.cons.inj hx
          exact code_wellFormed.first _ _ hw
    have heq := hwhole.unique code_wellFormed hs rfl
    rcases List.eq_nil_or_concat lv with rfl | ⟨lv', z, rfl⟩
    · -- the misread sequence is the last segment
      have hv0 : v = [] := by simpa using hv.sum_length.symm
      obtain ⟨-, hz⟩ := List.append_inj' heq rfl
      obtain rfl : seg = .word w := by simpa using hz
      obtain rfl : w.length = n := hseg
      rw [hv0, List.append_nil] at ht
      have htake : (t.take w.length).reverse = w := by
        rw [← List.reverse_reverse t, ht, List.reverse_append, List.take_left' (by simp),
          List.reverse_reverse]
      rw [htake]
      exact .inl ⟨hw, carry_of_misread ht hcond⟩
    · -- it stands before the last segment
      obtain ⟨-, hz⟩ := List.append_inj' (heq.trans (by simp : _ = (lup ++ .word w :: lv') ++ [z])) rfl
      obtain rfl : seg = z := by simpa using hz
      have hsum := hv.sum_length
      simp only [List.concat_eq_append, List.map_append, List.sum_append, List.map_cons, List.map_nil,
        List.sum_cons, List.sum_nil] at hsum
      refine .inr ⟨u, p, w, v.take (v.length - n), ?_, hw, hcond⟩
      have hlen : t.length - n = (u ++ p ++ w).length + (v.length - n) := by
        have := congrArg List.length ht
        simp only [List.length_reverse, List.length_append] at this ⊢
        omega
      rw [List.reverse_drop, ht, hlen, List.take_length_add_append]
  · rintro (⟨hw, hc⟩ | ⟨u, p, w, v, ht, hw, hcond⟩)
    · exact misread_of_carry hn hw hc
    · refine ⟨u, p, w, v ++ (t.take n).reverse, ?_, hw, hcond⟩
      rw [← List.append_assoc, ← ht, ← List.reverse_append, List.take_append_drop]

theorem read_eq_iff {t : List (BitVec 8)} {k l : List (Segment (BitVec 8))}
    (hk : Read reverseParser.next t k)
    (hl : Read (fun t => uncarried t (reverseParser.next t)) t l) : k = l ↔ ¬ Misread t.reverse := by
  induction hk generalizing l with
  | nil =>
      cases hl
      refine ⟨fun _ => ?_, fun _ => rfl⟩
      rintro ⟨u, p, w, v, h, hw, -⟩
      have : w = [] := by simp_all
      exact code_wellFormed.ne_nil (this ▸ hw)
  | @cons x s k _ _ _ ih =>
      obtain ⟨n, -, hlen, hnext⟩ := reverse_next x s
      have hsegments := hl.segments_reverse code_wellFormed reverseParser_last
      cases hl with
      | @cons _ _ l _ _ hl =>
          rcases hnext with ⟨hw, hnext⟩ | ⟨hlast, hnext⟩
          · simp only [hnext, uncarried_word] at hl hsegments ih ⊢
            rw [List.reverse_cons (a := Segment.word _)] at hsegments
            have hWlen : ((x :: s).take n).reverse.length = n := by
              rw [List.length_reverse, List.length_take_of_le hlen]
            have hne : ((x :: s).take n).reverse ≠ [] := fun h => code_wellFormed.ne_nil (h ▸ hw)
            rw [misread_iff hsegments hWlen hlen, List.cons.injEq, Segment.word.injEq,
              carried_eq_iff hne (carry_eq_one_or.imp_right And.left), ih hl]
            simp only [hw, true_and, not_or, not_not, ne_eq]
          · simp only [hnext, uncarried_illFormed] at hl hsegments ih ⊢
            rw [List.reverse_cons (a := Segment.illFormed _)] at hsegments
            have hnw : ¬ WellFormed ((x :: s).take n).reverse := by
              cases hlast with
              | unfinished _ _ _ hw => exact hw
              | single hw _ => exact hw 1 (by decide) (by simp)
            rw [misread_iff (n := n) hsegments rfl hlen]
            simp only [hnw, false_and, false_or, List.cons.injEq, true_and, ih hl]

theorem uncarried_length (t : List (BitVec 8)) (r : Segment (BitVec 8) × Nat) :
    (uncarried t r).2 = r.2 := by
  obtain ⟨_ | _, n⟩ := r <;> rfl

theorem reverseParser_results (s : List (BitVec 8)) :
    ∃ k l, forwardParser.results s = some l ∧ reverseParser.results s.reverse = some k ∧
      (k = l.reverse ↔ ¬ Misread s) := by
  obtain ⟨l, hl, hsegments, hunique, -⟩ := forwardParser_segments s
  obtain ⟨k, hk, hread⟩ :=
    UTFParser.results_read (by decide) rfl (by decide) reverseParser_lawful s.reverse
  obtain ⟨l', hl'⟩ := hread.exists_of_length_eq
    (g := fun t => uncarried t (reverseParser.next t)) fun t => uncarried_length t _
  have hsegments' := hl'.segments_reverse code_wellFormed reverseParser_last
  rw [List.reverse_reverse] at hsegments'
  have hl'l : l' = l.reverse := by rw [← hunique _ hsegments', List.reverse_reverse]
  have hiff := read_eq_iff hread hl'
  rw [List.reverse_reverse, hl'l] at hiff
  exact ⟨k, l, hl, hk, hiff⟩

end UTF8

namespace UTF16

variable {x : BitVec 16} {s : List (BitVec 16)}

theorem wellFormed_of_isScalar (hx : isScalar x = true) : WellFormed [x] :=
  wellFormed_one.2 fun h => by simp [(isScalar_eq_false x).2 h] at hx

theorem elements_collectionOfOne (x : BitVec 16) : UIntBuffer.elements (UIntBuffer.append .empty x) = [x] :=
  (UIntBuffer.holds_empty.append x (by decide)).elements_eq (by decide) (by decide)

theorem forwardParser_lawful : forwardParser.Lawful where
  elements_collectionOfOne x _ := elements_collectionOfOne x
  bitCount x s hx := by
    obtain ⟨seg, n, hres, -, h⟩ := forward_windowResult (s := s) hx
    exact ⟨n, congrArg Prod.snd hres, h⟩

theorem reverseParser_lawful : reverseParser.Lawful where
  elements_collectionOfOne x _ := elements_collectionOfOne x
  bitCount x s hx := by
    obtain ⟨seg, n, hres, -, h⟩ := reverse_windowResult (s := s) hx
    exact ⟨n, congrArg Prod.snd hres, h⟩

theorem forwardParser_first (x : BitVec 16) (s : List (BitVec 16)) :
    First WellFormed (x :: s) (forwardParser.next (x :: s)) := by
  cases hx : isScalar x with
  | true =>
      rw [UTFParser.next_scalar hx]
      exact .word (n := 1) (wellFormed_of_isScalar hx)
  | false =>
      obtain ⟨seg, n, hres, hfirst, -⟩ := forward_windowResult (s := s) hx
      rwa [UTFParser.next_of_windowResult (by decide) hx hres]

theorem reverseParser_last (x : BitVec 16) (s : List (BitVec 16)) :
    Last WellFormed (x :: s) (reverseParser.next (x :: s)) := by
  cases hx : isScalar x with
  | true =>
      rw [UTFParser.next_scalar hx]
      exact .word (n := 1) (wellFormed_of_isScalar hx)
  | false =>
      obtain ⟨seg, n, hres, hlast, -⟩ := reverse_windowResult (s := s) hx
      rwa [UTFParser.next_of_windowResult (by decide) hx hres]

theorem reverseParser_results (s : List (BitVec 16)) :
    ∃ l, forwardParser.results s = some l ∧ reverseParser.results s.reverse = some l.reverse := by
  obtain ⟨l, hl, hread⟩ := UTFParser.results_read (by decide) rfl (by decide) forwardParser_lawful s
  obtain ⟨k, hk, hkread⟩ :=
    UTFParser.results_read (by decide) rfl (by decide) reverseParser_lawful s.reverse
  have hsegments := hkread.segments_reverse code_wellFormed reverseParser_last
  rw [List.reverse_reverse] at hsegments
  have heq := (hread.segments forwardParser_first).unique code_wellFormed hsegments rfl
  exact ⟨l, hl, by rw [hk, ← heq, List.reverse_reverse]⟩

end UTF16

/-- The results of the reverse parsers are those of the forward parsers backwards: for UTF-16 always,
for UTF-8 exactly on the texts without a misread sequence. -/
theorem reverseParsers_results (s : List (BitVec 8)) (s' : List (BitVec 16)) :
    (∃ k l, UTF8.forwardParser.results s = some l ∧ UTF8.reverseParser.results s.reverse = some k ∧
      (k = l.reverse ↔ ¬ UTF8.Misread s)) ∧
    ∃ l, UTF16.forwardParser.results s' = some l ∧
      UTF16.reverseParser.results s'.reverse = some l.reverse :=
  ⟨UTF8.reverseParser_results s, UTF16.reverseParser_results s'⟩

/-- The byte before a sequence of two carries into it. -/
theorem reverseParser_misreads :
    ∃ l, UTF8.forwardParser.results [0xFF, 0xC2, 0xA9] = some l ∧
      UTF8.reverseParser.results [0xFF, 0xC2, 0xA9].reverse ≠ some l.reverse :=
  ⟨[.illFormed 1, .word [0xC2, 0xA9]], by decide, by decide⟩

end SwiftKStdlib.Unicode

namespace SwiftKStdlib.Unicode

open SwiftKStdlib.Lib SwiftKStdlib.Lib.BitField

/-- `Unicode.Scalar`. -/
structure Scalar where
  value : BitVec 32
  valid : value.toNat < 0xD800 ∨ 0xE000 ≤ value.toNat ∧ value.toNat ≤ 0x10FFFF

namespace UTF8

/-- `_ValidUTF8Buffer(_containing:)`. -/
def containing (e : BitVec 8) : ValidUTF8Buffer := ⟨(e + 1).setWidth 32⟩

/-- The value of the scalar that `decode` returns. -/
def decode (source : ValidUTF8Buffer) : BitVec 32 :=
  match source.count with
  | 1 => source.biasedBits - 0x01
  | 2 =>
    let bits := source.biasedBits - 0x0101
    (bits &&& 0b0011_1111__0000_0000) >>> 8 ||| (bits &&& 0b0001_1111) <<< 6
  | 3 =>
    let bits := source.biasedBits - 0x010101
    (bits &&& 0b0011_1111__0000_0000__0000_0000) >>> 16 ||| (bits &&& 0b0011_1111__0000_0000) >>> 2 |||
      (bits &&& 0b0000_1111) <<< 12
  | _ =>
    let bits := source.biasedBits - 0x01010101
    (bits &&& 0b0011_1111__0000_0000__0000_0000__0000_0000) >>> 24 |||
      (bits &&& 0b0011_1111__0000_0000__0000_0000) >>> 10 ||| (bits &&& 0b0011_1111__0000_0000) <<< 4 |||
      (bits &&& 0b0000_0111) <<< 18

def encode (c : BitVec 32) : Option ValidUTF8Buffer :=
  if c < 1#32 <<< 7 then some (containing (c.setWidth 8))
  else
    let o := (c &&& 0b0011_1111) <<< 8
    let c := c >>> 6
    if c < 1#32 <<< 5 then some ⟨(o ||| c) + 0b1000_0001__1100_0001⟩
    else
      let o := (o ||| c &&& 0b0011_1111) <<< 8
      let c := c >>> 6
      if c < 1#32 <<< 4 then some ⟨(o ||| c) + 0b1000_0001__1000_0001__1110_0001⟩
      else
        let o := (o ||| c &&& 0b0011_1111) <<< 8
        let c := c >>> 6
        some ⟨(o ||| c) + 0b1000_0001__1000_0001__1000_0001__1111_0001⟩

end UTF8

namespace UTF16

/-- The value of the scalar that `decode` returns. -/
def decode (source : EncodedScalar) : BitVec 32 :=
  let bits := source.storage
  if source.bitCount = 16 then bits &&& 0xffff
  else 0x10000#32 + (bits >>> 16 &&& 0x03ff#32 ||| (bits &&& 0x03ff#32) <<< 10)

def encode (x : BitVec 32) : Option EncodedScalar :=
  if x < 1#32 <<< 16 then some ⟨x, 16⟩
  else
    let x1 := x - 1#32 <<< 16
    let r := (0xdc00#32 + (x1 &&& 0x3ff#32)) <<< 16
    some ⟨r ||| 0xd800#32 + (x1 >>> 10 &&& 0x3ff#32), 32⟩

/-- `transcode(_:from: UTF8.self)`. -/
def transcode (c : ValidUTF8Buffer) : Option EncodedScalar :=
  let b := c.count - 1
  if b = 0 then some ⟨(c.biasedBits - 0x1) &&& 0b0111_1111, 16⟩
  else
    let s := c.biasedBits - 0x01010101
    let r := s <<< 6
    let s := s >>> 8
    let r := r ||| s &&& 0b0011_1111
    let b := b - 1
    if b = 0 then some ⟨r &&& 0b0111_1111_1111, 16⟩
    else
      let r := r <<< 6
      let s := s >>> 8
      let r := r ||| s &&& 0b0011_1111
      let b := b - 1
      if b = 0 then some ⟨r &&& 0xFFFF, 16⟩
      else
        let r := r <<< 6
        let s := s >>> 8
        let r := r ||| s &&& 0b0011_1111
        encode (r &&& 1#32 <<< 21 - 1#32)

end UTF16

/-- `UTF8.transcode(_:from: UTF16.self)`. -/
def UTF8.transcode (c : UTF16.EncodedScalar) : Option ValidUTF8Buffer :=
  let u0 : BitVec 16 := c.storage.setWidth 16
  if u0 < 0x80 then some (containing (u0.setWidth 8))
  else
    let r : BitVec 32 := (u0 &&& 0b0011_1111).setWidth 32 <<< 8
    let u0 := u0 >>> 6
    if u0 < 1#16 <<< 5 then some ⟨(u0.setWidth 32 ||| r) + 0b1000_0001__1100_0001⟩
    else
      let r := (r ||| (u0 &&& 0b0011_1111).setWidth 32) <<< 8
      if u0 &&& 0xF800#16 >>> 6 != 0xD800#16 >>> 6 then
        let u0 := u0 >>> 6
        some ⟨(u0.setWidth 32 ||| r) + 0b1000_0001__1000_0001__1110_0001⟩
      else encode (UTF16.decode c)

end SwiftKStdlib.Unicode
