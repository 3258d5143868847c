import SwiftKStdlib.Integers.Strides
import SwiftKStdlib.Lib.Iterator

/-!
# Striding over integers

* `StrideToIterator.next`, `StrideThroughIterator.next` : the iterators of `stride(from:to:by:)` and of
  `stride(from:through:by:)`;
* `StrideTo.contains`, `StrideThrough.contains` : the search, with its shortcut;
* `Values` : the values that a stride is documented to have;
* `strides_iff` : the iterators yield these values, unless the step past the end traps;
* `contains_iff` : the search finds the values, unless the stride is negative.

`Conformance` tells the generic functions of `BinaryInteger` from those of `Int`.
-/

namespace SwiftKStdlib.Integers.Strides

open Lib Lib.Iterator

variable {s : Bool} {w i : Nat}

/-! ## The functions of the source -/

/-- The conformance to `Strideable` of a type, for an `Int` of `i` bits. -/
inductive Conformance : Bool → Nat → Nat → Type
  | binaryInteger {s : Bool} {w i : Nat} : Conformance s w i
  | int {i : Nat} : Conformance true i i

/-- `advanced(by:)` of the type. -/
def Conformance.advanced : Conformance s w i → FixedWidth s w → FixedWidth true i → Option (FixedWidth s w)
  | binaryInteger, self, n => Strides.advanced self n
  | int, self, n => intAdvanced self n

/-- `_step(after:from:by:)`. -/
def Conformance.step (c : Conformance s w i) (current : Option Nat × FixedWidth s w) (_start : FixedWidth s w)
    (distance : FixedWidth true i) : Option (Option Nat × FixedWidth s w) := do
  let value ← c.advanced current.2 distance
  some (none, value)

structure StrideToIterator (s : Bool) (w i : Nat) where
  start : FixedWidth s w
  end_ : FixedWidth s w
  stride : FixedWidth true i
  current : Option Nat × FixedWidth s w

def StrideToIterator.next (c : Conformance s w i) (it : StrideToIterator s w i) :
    Option (Option (FixedWidth s w) × StrideToIterator s w i) :=
  let result := it.current.2
  if if 0 < it.stride then ¬ result < it.end_ else ¬ it.end_ < result then some (none, it)
  else do
    let current ← c.step it.current it.start it.stride
    some (some result, { it with current })

structure StrideThroughIterator (s : Bool) (w i : Nat) where
  start : FixedWidth s w
  end_ : FixedWidth s w
  stride : FixedWidth true i
  current : Option Nat × FixedWidth s w
  didReturnEnd : Bool

def StrideThroughIterator.next (c : Conformance s w i) (it : StrideThroughIterator s w i) :
    Option (Option (FixedWidth s w) × StrideThroughIterator s w i) :=
  let result := it.current.2
  if if 0 < it.stride then ¬ result < it.end_ else ¬ it.end_ < result then
    -- only `end_` itself is still an element, once
    if result = it.end_ ∧ it.didReturnEnd = false then some (some result, { it with didReturnEnd := true })
    else some (none, it)
  else do
    let current ← c.step it.current it.start it.stride
    some (some result, { it with current })

/-- `StrideTo`. -/
structure StrideTo (s : Bool) (w i : Nat) where
  start : FixedWidth s w
  end_ : FixedWidth s w
  stride : FixedWidth true i
  stride_ne_zero : stride.toInt ≠ 0

def StrideTo.makeIterator (r : StrideTo s w i) : StrideToIterator s w i :=
  ⟨r.start, r.end_, r.stride, (some 0, r.start)⟩

/-- `_customContainsEquatableElement`. -/
def StrideTo.customContainsEquatableElement (r : StrideTo s w i) (element : FixedWidth s w) : Option Bool :=
  if element < r.start ∨ ¬ element < r.end_ then some false else none

/-- `contains`; the loop has fuel. -/
def StrideTo.contains (c : Conformance s w i) (fuel : Nat) (r : StrideTo s w i) (element : FixedWidth s w) : Option Bool :=
  match r.customContainsEquatableElement element with
  | some result => some result
  | none => containsElement (StrideToIterator.next c) element fuel r.makeIterator

/-- `StrideThrough`. -/
structure StrideThrough (s : Bool) (w i : Nat) where
  start : FixedWidth s w
  end_ : FixedWidth s w
  stride : FixedWidth true i
  stride_ne_zero : stride.toInt ≠ 0

def StrideThrough.makeIterator (r : StrideThrough s w i) : StrideThroughIterator s w i :=
  ⟨r.start, r.end_, r.stride, (some 0, r.start), false⟩

/-- `_customContainsEquatableElement`. -/
def StrideThrough.customContainsEquatableElement (r : StrideThrough s w i) (element : FixedWidth s w) : Option Bool :=
  if element < r.start ∨ r.end_ < element then some false else none

/-- `contains`; the loop has fuel. -/
def StrideThrough.contains (c : Conformance s w i) (fuel : Nat) (r : StrideThrough s w i) (element : FixedWidth s w) :
    Option Bool :=
  match r.customContainsEquatableElement element with
  | some result => some result
  | none => containsElement (StrideThroughIterator.next c) element fuel r.makeIterator

/-! ## Steps -/

/-- The generic function traps on the negation of the least `Int`, and on the opposite of the least value. -/
def Traps : Conformance s w i → FixedWidth s w → FixedWidth true i → Prop
  | .binaryInteger, x, n => s = false ∧ n.toInt < 0 ∧ n.toInt = minValue true i ∨
      s = true ∧ x.toInt < 0 ∧ x.toInt = minValue s w ∧ x.toInt + n.toInt = 0
  | .int, _, _ => False

theorem toInt_of_exactly {n : Int} {x : FixedWidth s w} (h : FixedWidth.exactly n = some x) : x.toInt = n := by
  unfold FixedWidth.exactly at h
  split_ifs at h with hn
  cases h
  exact FixedWidth.toInt_ofInt hn

theorem toInt_of_add {x y z : FixedWidth s w} (h : x.add y = some z) : z.toInt = x.toInt + y.toInt := toInt_of_exactly h

theorem toInt_advanced {x y : FixedWidth s w} {n : FixedWidth true i} (h : advanced x n = some y) :
    y.toInt = x.toInt + n.toInt := by
  have hadd : ((FixedWidth.exactly n.toInt : Option (FixedWidth s w)).bind fun amount => x.add amount) = some y →
      y.toInt = x.toInt + n.toInt := by
    intro h
    obtain ⟨amount, hamount, h⟩ := Option.bind_eq_some_iff.1 h
    rw [toInt_of_add h, toInt_of_exactly hamount]
  unfold advanced at h
  simp only [Option.bind_eq_bind] at h
  split_ifs at h
  · obtain ⟨opposite, hopposite, h⟩ := Option.bind_eq_some_iff.1 h
    obtain ⟨amount, hamount, h⟩ := Option.bind_eq_some_iff.1 h
    rw [toInt_of_exactly h, toInt_of_exactly hamount, toInt_of_exactly hopposite, sub_neg_eq_add]
  · exact hadd h
  · exact hadd h
  · obtain ⟨asInt, hasInt, h⟩ := Option.bind_eq_some_iff.1 h
    obtain ⟨sum, hsum, h⟩ := Option.bind_eq_some_iff.1 h
    rw [toInt_of_exactly h, toInt_of_add hsum, toInt_of_exactly hasInt]
  · exact hadd h

theorem advanced_eq_some {c : Conformance s w i} {x y : FixedWidth s w} {n : FixedWidth true i} :
    c.advanced x n = some y ↔ y.toInt = x.toInt + n.toInt ∧ ¬ Traps c x n := by
  cases c with
  | int =>
    refine ⟨fun h => ⟨toInt_of_add h, id⟩, fun h => ?_⟩
    change FixedWidth.exactly (x.toInt + n.toInt) = some y
    rw [← h.1, FixedWidth.exactly_eq_some y.representable_toInt, FixedWidth.ofInt_toInt]
  | binaryInteger =>
    change advanced x n = some y ↔ _
    have hstep (hy : y.toInt = x.toInt + n.toInt) : advanced x n = some y ↔ ¬ Traps .binaryInteger x n := by
      have hdiff : y.toInt - x.toInt = n.toInt := by omega
      have hn : n = .ofInt (y.toInt - x.toInt) := by rw [hdiff, FixedWidth.ofInt_toInt]
      have hrep : Representable true i (y.toInt - x.toInt) := hdiff ▸ n.representable_toInt
      cases s with
      | false =>
        conv_lhs => rw [hn]
        rw [advanced_unsigned_iff hrep, Traps, LeastDistance]
        simp
        omega
      | true =>
        conv_lhs => rw [hn]
        rw [advanced_signed_iff hrep, Traps, FromLeast]
        simp [hy]
    exact ⟨fun h => ⟨toInt_advanced h, (hstep (toInt_advanced h)).1 h⟩, fun h => (hstep h.1).2 h.2⟩

/-! ## The values of a stride -/

/-- `x` lies before the end. -/
def Before (stride x end_ : Int) : Prop := if 0 < stride then x < end_ else end_ < x

/-- `x` lies before the end or at it. -/
def NotPast (stride x end_ : Int) : Prop := if 0 < stride then x ≤ end_ else end_ ≤ x

instance (stride x end_ : Int) : Decidable (Before stride x end_) :=
  inferInstanceAs (Decidable (if 0 < stride then x < end_ else end_ < x))

/-- The values `start`, `start + stride`, ... , as long as they lie where they should. -/
def Values (lies : Int → Prop) (start stride : Int) (l : List (FixedWidth s w)) : Prop :=
  ∃ n : Nat, l.map FixedWidth.toInt = (List.range n).map (fun k : Nat => start + k * stride) ∧
    ∀ k : Nat, lies (start + k * stride) ↔ k < n

section Values

variable {stride start end_ : Int}

theorem notPast_iff {x : Int} : NotPast stride x end_ ↔ Before stride x end_ ∨ x = end_ := by
  unfold NotPast Before
  split_ifs <;> omega

theorem Before.mono {j k : Nat} (hjk : j ≤ k) (h : Before stride (start + k * stride) end_) :
    Before stride (start + j * stride) end_ := by
  obtain ⟨d, rfl⟩ := Nat.exists_eq_add_of_le hjk
  unfold Before at h ⊢
  push_cast [add_mul] at h
  split_ifs at h ⊢ with hpos
  · have : 0 ≤ (d : Int) * stride := by positivity
    omega
  · have : (d : Int) * stride ≤ 0 := mul_nonpos_of_nonneg_of_nonpos (Int.natCast_nonneg d) (by omega)
    omega

theorem exists_count (start end_ : Int) (hstride : stride ≠ 0) :
    ∃ n : Nat, ∀ k : Nat, Before stride (start + k * stride) end_ ↔ k < n := by
  have hend : ∃ n : Nat, ¬ Before stride (start + n * stride) end_ := by
    refine ⟨(end_ - start).natAbs, ?_⟩
    unfold Before
    split_ifs with hpos
    · have : ((end_ - start).natAbs : Int) ≤ (end_ - start).natAbs * stride := le_mul_of_one_le_right (by omega) hpos
      omega
    · have : ((end_ - start).natAbs : Int) * stride ≤ (end_ - start).natAbs * -1 :=
        mul_le_mul_of_nonneg_left (by omega) (by omega)
      omega
  refine ⟨Nat.find hend, fun k => ⟨fun h => ?_, fun h => ?_⟩⟩
  · by_contra hle
    exact Nat.find_spec hend (h.mono (not_lt.1 hle))
  · exact not_not.1 (Nat.find_min hend h)

theorem index_end {k n : Nat} (hstride : stride ≠ 0)
    (hn : ∀ k : Nat, Before stride (start + k * stride) end_ ↔ k < n) (hk : start + k * stride = end_) : k = n := by
  obtain hlt | heq | hlt := lt_trichotomy k n
  · have hbefore := (hn k).2 hlt
    rw [hk] at hbefore
    unfold Before at hbefore
    split_ifs at hbefore <;> exact absurd hbefore (lt_irrefl _)
  · exact heq
  · refine absurd ((hn n).1 ?_) (lt_irrefl n)
    have hlt' : (n : Int) < k := by exact_mod_cast hlt
    unfold Before
    split_ifs with hpos
    · have := mul_lt_mul_of_pos_right hlt' hpos
      omega
    · have := mul_lt_mul_of_neg_right hlt' (show stride < 0 by omega)
      omega

theorem Values.mem_iff {lies : Int → Prop} {l : List (FixedWidth s w)} (h : Values lies start stride l)
    {x : FixedWidth s w} : x ∈ l ↔ lies x.toInt ∧ ∃ k : Nat, x.toInt = start + k * stride := by
  obtain ⟨n, hl, hlies⟩ := h
  have hmem : x ∈ l ↔ x.toInt ∈ l.map FixedWidth.toInt := by
    rw [List.mem_map]
    exact ⟨fun h => ⟨x, h, rfl⟩, fun ⟨y, hy, heq⟩ => FixedWidth.toInt_inj.1 heq ▸ hy⟩
  rw [hmem, hl, List.mem_map]
  refine ⟨?_, ?_⟩
  · rintro ⟨k, hk, hx⟩
    rw [← hx]
    exact ⟨(hlies k).2 (List.mem_range.1 hk), k, rfl⟩
  · rintro ⟨hx, k, hk⟩
    exact ⟨k, List.mem_range.2 ((hlies k).1 (hk ▸ hx)), hk.symm⟩

end Values

/-! ## Iteration -/

/-- What the two iterators have in common: before the end, `next` returns the value and takes a step. -/
structure Steps {σ : Type} (c : Conformance s w i) (stride : FixedWidth true i) (end_ : FixedWidth s w)
    (next : σ → Option (Option (FixedWidth s w) × σ)) (At : σ → FixedWidth s w → Prop) : Prop where
  step {it : σ} {x y : FixedWidth s w} (hit : At it x) (hbefore : Before stride.toInt x.toInt end_.toInt)
    (hy : c.advanced x stride = some y) : ∃ it', next it = some (some x, it') ∧ At it' y
  trap {it : σ} {x : FixedWidth s w} (hit : At it x) (hbefore : Before stride.toInt x.toInt end_.toInt)
    (hnone : c.advanced x stride = none) : next it = none

section Steps

variable {σ : Type} {c : Conformance s w i} {stride : FixedWidth true i} {end_ : FixedWidth s w}
  {next : σ → Option (Option (FixedWidth s w) × σ)} {At : σ → FixedWidth s w → Prop} {it : σ} {start : FixedWidth s w}

theorem Steps.run (hsteps : Steps c stride end_ next At) {n : Nat} (it : σ) (hit : At it start)
    (hbefore : ∀ k < n, Before stride.toInt (start.toInt + k * stride.toInt) end_.toInt)
    (hadvances : ∀ k < n, ∀ x : FixedWidth s w, x.toInt = start.toInt + k * stride.toInt →
      ∃ y, c.advanced x stride = some y) :
    ∃ it' x l, At it' x ∧ x.toInt = start.toInt + n * stride.toInt ∧
      l.map FixedWidth.toInt = (List.range n).map (fun k : Nat => start.toInt + k * stride.toInt) ∧
      ∀ rest, Yields next it' rest → Yields next it (l ++ rest) := by
  induction n generalizing it start with
  | zero => exact ⟨it, start, [], hit, by simp, rfl, fun rest h => h⟩
  | succ n ih =>
    obtain ⟨y, hy⟩ := hadvances 0 n.succ_pos start (by simp)
    obtain ⟨it₁, hnext, hat⟩ := hsteps.step hit (by simpa using hbefore 0 n.succ_pos) hy
    have hvalue := (advanced_eq_some.1 hy).1
    have hshift (k : Nat) : y.toInt + k * stride.toInt = start.toInt + (k + 1 : Nat) * stride.toInt := by
      push_cast
      rw [hvalue]
      ring
    obtain ⟨it', x, l, hat', hx, hl, hyields⟩ := ih it₁ hat
      (fun k hk => hshift k ▸ hbefore (k + 1) (Nat.succ_lt_succ hk))
      fun k hk x hx => hadvances (k + 1) (Nat.succ_lt_succ hk) x (hx.trans (hshift k))
    refine ⟨it', x, start :: l, hat', hx.trans (hshift n), ?_, fun rest h => .cons hnext (hyields rest h)⟩
    rw [List.map_cons, hl, List.range_succ_eq_map, List.map_cons, List.map_map]
    congr 1
    · simp
    · exact List.map_congr_left fun k _ => hshift k

theorem Steps.advances (hsteps : Steps c stride end_ next At) {l : List (FixedWidth s w)} (h : Yields next it l)
    (hit : At it start) (k : Nat)
    (hbefore : ∀ j ≤ k, Before stride.toInt (start.toInt + j * stride.toInt) end_.toInt) :
    ∃ x y, x.toInt = start.toInt + k * stride.toInt ∧ c.advanced x stride = some y := by
  have hfirst : Before stride.toInt start.toInt end_.toInt := by simpa using hbefore 0 k.zero_le
  cases hy : c.advanced start stride with
  | none => exact absurd (hsteps.trap hit hfirst hy) h.next_ne_none
  | some y =>
    induction k generalizing it start y l with
    | zero => exact ⟨start, y, by simp, hy⟩
    | succ k ih =>
      obtain ⟨it', hnext, hat⟩ := hsteps.step hit hfirst hy
      obtain ⟨rest, -, hrest⟩ := h.of_next hnext
      have hvalue := (advanced_eq_some.1 hy).1
      have hshift (j : Nat) : y.toInt + j * stride.toInt = start.toInt + (j + 1 : Nat) * stride.toInt := by
        push_cast
        rw [hvalue]
        ring
      have hbefore' : ∀ j ≤ k, Before stride.toInt (y.toInt + j * stride.toInt) end_.toInt := fun j hj =>
        hshift j ▸ hbefore (j + 1) (Nat.succ_le_succ hj)
      have hfirst' : Before stride.toInt y.toInt end_.toInt := by simpa using hbefore' 0 k.zero_le
      cases hy' : c.advanced y stride with
      | none => exact absurd (hsteps.trap hat hfirst' hy') hrest.next_ne_none
      | some z =>
        obtain ⟨x, y', hx, hstep⟩ := ih hrest hat hbefore' hfirst' z hy'
        exact ⟨x, y', hx.trans (hshift k), hstep⟩

end Steps

/-! ## The iterators -/

/-- The step from every value before the end leads to a value of the type, and the first does not trap. -/
def StepsFit (c : Conformance s w i) (start end_ : FixedWidth s w) (stride : FixedWidth true i) : Prop :=
  Before stride.toInt start.toInt end_.toInt → ¬ Traps c start stride ∧
    ∀ k : Nat, Before stride.toInt (start.toInt + k * stride.toInt) end_.toInt →
      Representable s w (start.toInt + (k + 1) * stride.toInt)

section Iterators

variable {c : Conformance s w i} {start end_ : FixedWidth s w} {stride : FixedWidth true i}

theorem traps_start {x : FixedWidth s w} {k : Nat} (h : Traps c x stride)
    (hx : x.toInt = start.toInt + k * stride.toInt) : Traps c start stride := by
  cases c with
  | int => exact h
  | binaryInteger =>
    rcases h with h | ⟨hs, hneg, hleast, hsum⟩
    · exact .inl h
    · -- the stride is positive, so that only the first value is the least one
      have hmin := start.representable_toInt.1
      have hsteps : 0 ≤ (k : Int) * stride.toInt := mul_nonneg (Int.natCast_nonneg k) (by omega)
      have hstart : start.toInt = x.toInt := by omega
      exact .inr ⟨hs, hstart ▸ hneg, hstart ▸ hleast, hstart ▸ hsum⟩

theorem stepsFit_iff : StepsFit c start end_ stride ↔
    ∀ k : Nat, Before stride.toInt (start.toInt + k * stride.toInt) end_.toInt →
      ∀ x : FixedWidth s w, x.toInt = start.toInt + k * stride.toInt → ∃ y, c.advanced x stride = some y := by
  have hnext (k : Nat) : start.toInt + k * stride.toInt + stride.toInt = start.toInt + (k + 1) * stride.toInt := by ring
  refine ⟨fun h k hbefore x hx => ?_, fun h hfirst => ⟨fun htraps => ?_, fun k hbefore => ?_⟩⟩
  · have hfirst : Before stride.toInt (start.toInt + (0 : Nat) * stride.toInt) end_.toInt := hbefore.mono k.zero_le
    rw [Nat.cast_zero, zero_mul, add_zero] at hfirst
    obtain ⟨htraps, hfits⟩ := h hfirst
    refine ⟨.ofInt (start.toInt + (k + 1) * stride.toInt), advanced_eq_some.2 ⟨?_, fun ht => htraps (traps_start ht hx)⟩⟩
    rw [FixedWidth.toInt_ofInt (hfits k hbefore), hx, hnext]
  · obtain ⟨y, hy⟩ := h 0 (by simpa using hfirst) start (by simp)
    exact (advanced_eq_some.1 hy).2 htraps
  · have hvalue : ∀ k : Nat, Before stride.toInt (start.toInt + k * stride.toInt) end_.toInt →
        Representable s w (start.toInt + k * stride.toInt) →
          Representable s w (start.toInt + (k + 1) * stride.toInt) := by
      intro k hbefore hrep
      obtain ⟨y, hy⟩ := h k hbefore (.ofInt _) (FixedWidth.toInt_ofInt hrep)
      rw [← hnext, ← FixedWidth.toInt_ofInt hrep, ← (advanced_eq_some.1 hy).1]
      exact y.representable_toInt
    apply hvalue k hbefore
    induction k with
    | zero => simpa using start.representable_toInt
    | succ k ih =>
      have hbefore' := hbefore.mono k.le_succ
      exact_mod_cast hvalue k hbefore' (ih hbefore')

theorem Steps.stepsFit {σ : Type} {next : σ → Option (Option (FixedWidth s w) × σ)} {At : σ → FixedWidth s w → Prop}
    (hsteps : Steps c stride end_ next At) {it : σ} {l : List (FixedWidth s w)} (h : Yields next it l)
    (hit : At it start) : StepsFit c start end_ stride := by
  refine stepsFit_iff.2 fun k hbefore x hx => ?_
  obtain ⟨x', y, hx', hy⟩ := hsteps.advances h hit k fun j hj => hbefore.mono hj
  obtain rfl : x = x' := FixedWidth.toInt_inj.1 (hx.trans hx'.symm)
  exact ⟨y, hy⟩

theorem stops_iff {x : FixedWidth s w} : (if 0 < stride then ¬ x < end_ else ¬ end_ < x) ↔
    ¬ Before stride.toInt x.toInt end_.toInt := by
  have hpos : 0 < stride ↔ 0 < stride.toInt := by
    rw [← FixedWidth.toInt_zero (s := true) (w := i)]
    rfl
  unfold Before
  by_cases h : 0 < stride.toInt
  · rw [if_pos (hpos.2 h), if_pos h]
    rfl
  · rw [if_neg (mt hpos.1 h), if_neg h]
    rfl

theorem steps_to : Steps c stride end_ (StrideToIterator.next c)
    fun it x => it.current.2 = x ∧ it.stride = stride ∧ it.end_ = end_ where
  step := by
    rintro it x y ⟨rfl, rfl, rfl⟩ hbefore hy
    refine ⟨{ it with current := (none, y) }, ?_, rfl, rfl, rfl⟩
    rw [StrideToIterator.next, if_neg (mt stops_iff.1 (not_not.2 hbefore)), Conformance.step, hy]
    rfl
  trap := by
    rintro it x ⟨rfl, rfl, rfl⟩ hbefore hnone
    rw [StrideToIterator.next, if_neg (mt stops_iff.1 (not_not.2 hbefore)), Conformance.step, hnone]
    rfl

theorem steps_through : Steps c stride end_ (StrideThroughIterator.next c)
    fun it x => it.current.2 = x ∧ it.stride = stride ∧ it.end_ = end_ ∧ it.didReturnEnd = false where
  step := by
    rintro it x y ⟨rfl, rfl, rfl, hreturned⟩ hbefore hy
    refine ⟨{ it with current := (none, y) }, ?_, rfl, rfl, rfl, hreturned⟩
    rw [StrideThroughIterator.next, if_neg (mt stops_iff.1 (not_not.2 hbefore)), Conformance.step, hy]
    rfl
  trap := by
    rintro it x ⟨rfl, rfl, rfl, -⟩ hbefore hnone
    rw [StrideThroughIterator.next, if_neg (mt stops_iff.1 (not_not.2 hbefore)), Conformance.step, hnone]
    rfl

/-- The iterator comes to its end, and has yielded the values before `end_`. -/
def StridesTo (c : Conformance s w i) (r : StrideTo s w i) : Prop :=
  ∃ l, Yields (StrideToIterator.next c) r.makeIterator l ∧
    Values (fun x => Before r.stride.toInt x r.end_.toInt) r.start.toInt r.stride.toInt l

/-- The iterator comes to its end, and has yielded the values not past `end_`. -/
def StridesThrough (c : Conformance s w i) (r : StrideThrough s w i) : Prop :=
  ∃ l, Yields (StrideThroughIterator.next c) r.makeIterator l ∧
    Values (fun x => NotPast r.stride.toInt x r.end_.toInt) r.start.toInt r.stride.toInt l

theorem stepsFit_to {r : StrideTo s w i} {l : List (FixedWidth s w)}
    (h : Yields (StrideToIterator.next c) r.makeIterator l) : StepsFit c r.start r.end_ r.stride :=
  steps_to.stepsFit h ⟨rfl, rfl, rfl⟩

theorem stridesTo_iff (r : StrideTo s w i) : StridesTo c r ↔ StepsFit c r.start r.end_ r.stride := by
  refine ⟨fun ⟨l, hyields, _⟩ => stepsFit_to hyields, fun hfit => ?_⟩
  obtain ⟨n, hn⟩ := exists_count r.start.toInt r.end_.toInt r.stride_ne_zero
  obtain ⟨it', x, l, ⟨rfl, hstride, hend⟩, hx, hl, hyields⟩ := steps_to.run r.makeIterator ⟨rfl, rfl, rfl⟩
    (fun k hk => (hn k).2 hk) fun k hk => stepsFit_iff.1 hfit k ((hn k).2 hk)
  refine ⟨l, ?_, n, hl, hn⟩
  rw [← List.append_nil l]
  apply hyields
  refine .nil (?_ : StrideToIterator.next c it' = some (none, it'))
  rw [StrideToIterator.next, if_pos (stops_iff.2 ?_)]
  rw [hstride, hend, hx]
  exact fun h => lt_irrefl n ((hn n).1 h)

theorem yields_end {it : StrideThroughIterator s w i} (hstop : ¬ Before it.stride.toInt it.current.2.toInt it.end_.toInt)
    (hreturned : it.didReturnEnd = false) : Yields (StrideThroughIterator.next c) it
      (if it.current.2 = it.end_ then [it.end_] else []) := by
  split_ifs with hend
  · have hnext : StrideThroughIterator.next c it = some (some it.end_, { it with didReturnEnd := true }) := by
      rw [StrideThroughIterator.next, if_pos (stops_iff.2 hstop), if_pos ⟨hend, hreturned⟩, hend]
    refine .cons hnext (.nil (?_ : _ = some (none, { it with didReturnEnd := true })))
    rw [StrideThroughIterator.next, if_pos (stops_iff.2 hstop), if_neg (by simp)]
  · refine .nil (?_ : _ = some (none, it))
    rw [StrideThroughIterator.next, if_pos (stops_iff.2 hstop), if_neg fun h => hend h.1]

theorem stepsFit_through {r : StrideThrough s w i} {l : List (FixedWidth s w)}
    (h : Yields (StrideThroughIterator.next c) r.makeIterator l) : StepsFit c r.start r.end_ r.stride :=
  steps_through.stepsFit h ⟨rfl, rfl, rfl, rfl⟩

theorem stridesThrough_iff (r : StrideThrough s w i) : StridesThrough c r ↔ StepsFit c r.start r.end_ r.stride := by
  refine ⟨fun ⟨l, hyields, _⟩ => stepsFit_through hyields, fun hfit => ?_⟩
  obtain ⟨n, hn⟩ := exists_count r.start.toInt r.end_.toInt r.stride_ne_zero
  obtain ⟨it', x, l, ⟨rfl, hstride, hend, hreturned⟩, hx, hl, hyields⟩ :=
    steps_through.run r.makeIterator ⟨rfl, rfl, rfl, rfl⟩
      (fun k hk => (hn k).2 hk) fun k hk => stepsFit_iff.1 hfit k ((hn k).2 hk)
  have hstop : ¬ Before it'.stride.toInt it'.current.2.toInt it'.end_.toInt := by
    rw [hstride, hend, hx]
    exact fun h => lt_irrefl n ((hn n).1 h)
  refine ⟨_, hyields _ (yields_end hstop hreturned), ?_⟩
  rw [hend]
  have hends : it'.current.2 = r.end_ ↔ r.start.toInt + n * r.stride.toInt = r.end_.toInt := by
    rw [← FixedWidth.toInt_inj, hx]
    rfl
  split_ifs with hreached
  · refine ⟨n + 1, ?_, fun k => ?_⟩
    · rw [List.map_append, hl, List.range_succ, List.map_append, List.map_singleton, List.map_singleton,
        hends.1 hreached]
      rfl
    · refine notPast_iff.trans ?_
      rw [hn, Nat.lt_succ_iff_lt_or_eq]
      apply or_congr_right
      refine ⟨index_end r.stride_ne_zero hn, ?_⟩
      rintro rfl
      exact hends.1 hreached
  · refine ⟨n, by rw [List.append_nil, hl]; rfl, fun k => ?_⟩
    refine notPast_iff.trans ?_
    rw [hn]
    refine or_iff_left fun hk => hreached (hends.2 ?_)
    rw [← index_end r.stride_ne_zero hn hk, hk]

end Iterators

/-! ## The iterators yield the values -/

theorem strides_iff (c : Conformance s w i) (r : StrideTo s w i) (r' : StrideThrough s w i) :
    (StridesTo c r ↔ StepsFit c r.start r.end_ r.stride) ∧
      (StridesThrough c r' ↔ StepsFit c r'.start r'.end_ r'.stride) :=
  ⟨stridesTo_iff r, stridesThrough_iff r'⟩

/-- The even 8-bit values up to 255: the step from 254 traps. -/
theorem not_strides_even : ¬ ∀ (s : Bool) (w i : Nat) (c : Conformance s w i) (r : StrideTo s w i)
    (r' : StrideThrough s w i), StridesTo c r ∧ StridesThrough c r' := by
  intro h
  have hstrides := (h false 8 64 .binaryInteger ⟨0, 255, 2, by decide⟩ ⟨0, 255, 2, by decide⟩).1
  have hfit := (stridesTo_iff _).1 hstrides
  have hrep := (hfit (by decide)).2 127 (by decide)
  revert hrep
  decide

/-! ## The search -/

/-- A value of a stride that goes down from `start`. -/
def Below (start stride x : Int) : Prop := x ≤ start ∧ stride ∣ start - x

theorem below_iff {start stride x : Int} (hdown : stride < 0) :
    Below start stride x ↔ ∃ k : Nat, x = start + k * stride := by
  refine ⟨fun ⟨hle, k, hk⟩ => ⟨(-k).toNat, ?_⟩, fun ⟨k, hk⟩ => ⟨?_, -k, ?_⟩⟩
  · have hnonneg : 0 ≤ -k := by
      by_contra hneg
      have := mul_neg_of_neg_of_pos hdown (show 0 < k by omega)
      omega
    rw [Int.toNat_of_nonneg hnonneg]
    linear_combination -hk
  · have := mul_nonpos_of_nonneg_of_nonpos (Int.natCast_nonneg k) hdown.le
    omega
  · linear_combination -hk

section Search

variable {c : Conformance s w i} {r : StrideTo s w i} {r' : StrideThrough s w i} {l : List (FixedWidth s w)} {x : FixedWidth s w}

theorem values_to (h : Yields (StrideToIterator.next c) r.makeIterator l) :
    Values (fun x => Before r.stride.toInt x r.end_.toInt) r.start.toInt r.stride.toInt l := by
  obtain ⟨l', hyields, hvalues⟩ := (stridesTo_iff r).2 (stepsFit_to h)
  rwa [h.unique hyields]

theorem values_through (h : Yields (StrideThroughIterator.next c) r'.makeIterator l) :
    Values (fun x => NotPast r'.stride.toInt x r'.end_.toInt) r'.start.toInt r'.stride.toInt l := by
  obtain ⟨l', hyields, hvalues⟩ := (stridesThrough_iff r').2 (stepsFit_through h)
  rwa [h.unique hyields]

theorem search_iff {σ : Type} {next : σ → Option (Option (FixedWidth s w) × σ)} {it : σ} (h : Yields next it l)
    {P : Prop} [Decidable P] : (∃ fuel, (match if P then some false else none with
        | some result => some result
        | none => containsElement next x fuel it) = some (decide (x ∈ l))) ↔ ¬ (P ∧ x ∈ l) := by
  by_cases hP : P
  · simp [hP, eq_comm]
  · simp only [hP, if_false, false_and, not_false_eq_true, iff_true]
    exact ⟨_, h.containsElement x (Nat.lt_succ_self _)⟩

theorem le_of_upwards {start stride x : Int} {k : Nat} (hpos : 0 < stride) (hx : x = start + k * stride) : start ≤ x := by
  have := mul_nonneg (Int.natCast_nonneg k) hpos.le
  omega

theorem contains_to_iff (h : Yields (StrideToIterator.next c) r.makeIterator l) :
    (∃ fuel, r.contains c fuel x = some (decide (x ∈ l))) ↔
      0 < r.stride.toInt ∨ ¬ (r.end_.toInt < x.toInt ∧ Below r.start.toInt r.stride.toInt x.toInt) := by
  refine (search_iff h).trans ?_
  rw [(values_to h).mem_iff]
  change ¬ ((x.toInt < r.start.toInt ∨ ¬ x.toInt < r.end_.toInt) ∧ _) ↔ _
  by_cases hpos : 0 < r.stride.toInt
  · refine iff_of_true ?_ (.inl hpos)
    rintro ⟨hshortcut, hbefore, k, hx⟩
    have := le_of_upwards hpos hx
    rw [Before, if_pos hpos] at hbefore
    omega
  · have hdown : r.stride.toInt < 0 := by
      have := r.stride_ne_zero
      omega
    rw [or_iff_right hpos, ← below_iff hdown, Before, if_neg hpos]
    refine not_congr ⟨fun h => h.2, fun h => ⟨?_, h⟩⟩
    have := h.1
    omega

theorem contains_through_iff (h : Yields (StrideThroughIterator.next c) r'.makeIterator l) :
    (∃ fuel, r'.contains c fuel x = some (decide (x ∈ l))) ↔
      0 < r'.stride.toInt ∨ r'.start = r'.end_ ∨
        ¬ (r'.end_.toInt ≤ x.toInt ∧ Below r'.start.toInt r'.stride.toInt x.toInt) := by
  refine (search_iff h).trans ?_
  rw [(values_through h).mem_iff]
  change ¬ ((x.toInt < r'.start.toInt ∨ r'.end_.toInt < x.toInt) ∧ _) ↔ _
  by_cases hpos : 0 < r'.stride.toInt
  · refine iff_of_true ?_ (.inl hpos)
    rintro ⟨hshortcut, hbefore, k, hx⟩
    have := le_of_upwards hpos hx
    rw [NotPast, if_pos hpos] at hbefore
    omega
  · have hdown : r'.stride.toInt < 0 := by
      have := r'.stride_ne_zero
      omega
    rw [or_iff_right hpos, ← below_iff hdown, NotPast, if_neg hpos, ← FixedWidth.toInt_inj]
    by_cases heq : r'.start.toInt = r'.end_.toInt
    · refine iff_of_true ?_ (.inl heq)
      rintro ⟨hshortcut, hpast, hbelow⟩
      have := hbelow.1
      omega
    · rw [or_iff_right heq]
      refine not_congr ⟨fun h => h.2, fun h => ⟨?_, h⟩⟩
      have := h.1
      have := h.2.1
      omega

/-- What the search does not find: a value of a stride that goes down, unless that is all of it. -/
theorem contains_iff (c : Conformance s w i) {start end_ : FixedWidth s w} {stride : FixedWidth true i}
    (hstride : stride.toInt ≠ 0) {l l' : List (FixedWidth s w)}
    (hto : Yields (StrideToIterator.next c) (StrideTo.mk start end_ stride hstride).makeIterator l)
    (hthrough : Yields (StrideThroughIterator.next c) (StrideThrough.mk start end_ stride hstride).makeIterator l')
    (x : FixedWidth s w) :
    ((∃ fuel, (StrideTo.mk start end_ stride hstride).contains c fuel x = some (decide (x ∈ l))) ↔
        0 < stride.toInt ∨ ¬ (end_.toInt < x.toInt ∧ Below start.toInt stride.toInt x.toInt)) ∧
      ((∃ fuel, (StrideThrough.mk start end_ stride hstride).contains c fuel x = some (decide (x ∈ l'))) ↔
        0 < stride.toInt ∨ start = end_ ∨ ¬ (end_.toInt ≤ x.toInt ∧ Below start.toInt stride.toInt x.toInt)) :=
  ⟨contains_to_iff hto, contains_through_iff hthrough⟩

/-- From 0 up to 4 by twos. -/
theorem contains_upwards : ∃ fuel, (StrideTo.mk (0 : FixedWidth true 64) 4 (2 : FixedWidth true 64) (by decide)).contains
    .int fuel 2 = some true := by
  have hto : Yields (StrideToIterator.next .int)
      (StrideTo.mk (0 : FixedWidth true 64) 4 (2 : FixedWidth true 64) (by decide)).makeIterator [0, 2] :=
    elements_yields 3 (by decide)
  have hthrough : Yields (StrideThroughIterator.next .int)
      (StrideThrough.mk (0 : FixedWidth true 64) 4 (2 : FixedWidth true 64) (by decide)).makeIterator [0, 2, 4] :=
    elements_yields 4 (by decide)
  exact (contains_iff .int (by decide) hto hthrough 2).1.2 (.inl (by decide))

/-- From 3 down to 0: 2 is an element that is not found. -/
theorem not_contains_downwards : ¬ ∀ (s : Bool) (w i : Nat) (c : Conformance s w i) (r : StrideTo s w i)
    (l : List (FixedWidth s w)), Yields (StrideToIterator.next c) r.makeIterator l →
      ∀ x, ∃ fuel, r.contains c fuel x = some (decide (x ∈ l)) := by
  intro h
  obtain ⟨fuel, hfound⟩ := h true 64 64 .int ⟨3, 0, .ofInt (-1), by decide⟩ [3, 2, 1]
    (elements_yields 4 (by decide)) 2
  have hshortcut : (StrideTo.mk (3 : FixedWidth true 64) 0 (.ofInt (-1) : FixedWidth true 64) (by decide)).contains
      .int fuel 2 = some false := rfl
  rw [hshortcut] at hfound
  revert hfound
  decide

end Search

end SwiftKStdlib.Integers.Strides
