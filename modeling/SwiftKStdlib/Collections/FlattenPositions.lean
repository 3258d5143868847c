import Mathlib.Tactic
import SwiftKStdlib.Lib.Concatenation
import SwiftKStdlib.Collections.Flatten

/-!
# Positions and distances in flattened collections

* `Nested` : a collection of collections with these elements;
* `position` : the index of a flattened collection at a position of the concatenation;
* `Nested.indexAfter`, `Nested.indexBefore`, `Nested.get` : the steps are those of the positions;
* `Nested.lt`, `Nested.position_inj` : so are the comparisons;
* `Nested.yields` : the iterator yields the concatenation;
* `Nested.elements` : so does a walk over the indices;
* `offsetLoop_path`, `limitedLoop_go`, `limitedLoop_stop` : the loops follow a path;
* `Nested.distance`, `Nested.indexOffsetBy`, `Nested.indexOffsetByLimitedBy` : the distances of the positions;
* `Agrees` : what is to hold of a flattened collection, for offsets by `n`;
* `agrees_iff` : it holds for all `n` but the least, if the number of elements is an `Int`.
-/

namespace SwiftKStdlib.Collections

open Lib.Iterator Lib.Concatenation

variable {ι κ σ τ α : Type}

/-! ## Collections of collections -/

structure Nested [LinearOrder ι] [LinearOrder κ] (base : BidirectionalCollection ι σ (BidirectionalCollection κ τ α))
    (nextBase : σ → Option (Option (BidirectionalCollection κ τ α) × σ)) (nextInner : τ → Option (Option α × τ))
    (outer : Nat → ι) (inner : Nat → Nat → κ) (colls : List (BidirectionalCollection κ τ α)) (xss : List (List α)) :
    Prop where
  base : Presents base nextBase outer colls
  length : colls.length = xss.length
  inner : ∀ (k : Nat) (coll : BidirectionalCollection κ τ α) (xs : List α), colls[k]? = some coll → xss[k]? = some xs →
    Presents coll nextInner (inner k) xs

def position (outer : Nat → ι) (inner : Nat → Nat → κ) (xss : List (List α)) (p : Nat) : FlattenIndex ι κ :=
  ⟨outer (locate xss p).1, (locate xss p).2.map (inner (locate xss p).1)⟩

variable {nextBase : σ → Option (Option (BidirectionalCollection κ τ α) × σ)}
  {nextInner : τ → Option (Option α × τ)} {outer : Nat → ι} {inner : Nat → Nat → κ}
  {colls : List (BidirectionalCollection κ τ α)} {xss : List (List α)} {xs : List α} {k i p q : Nat}

theorem position_offset (h : xss[k]? = some xs) (hi : i < xs.length) :
    position outer inner xss (offset xss k + i) = ⟨outer k, some (inner k i)⟩ := by
  rw [position, locate_offset h hi]
  rfl

theorem position_length : position outer inner xss xss.flatten.length = ⟨outer xss.length, none⟩ := by
  rw [position, locate_length]
  rfl

namespace Nested

open FlattenCollection

variable [LinearOrder ι] [LinearOrder κ] {c : FlattenCollection ι κ σ τ α}

theorem endIndex (h : Nested c.base nextBase nextInner outer inner colls xss) :
    c.endIndex = position outer inner xss xss.flatten.length := by
  rw [FlattenCollection.endIndex, position_length, h.base.endIndex, h.length]

theorem exists_coll (h : Nested c.base nextBase nextInner outer inner colls xss) (hk : xss[k]? = some xs) :
    ∃ coll, colls[k]? = some coll ∧ c.base.get (outer k) = some coll ∧ Presents coll nextInner (inner k) xs := by
  obtain ⟨hlt, -⟩ := List.getElem?_eq_some_iff.1 hk
  have hcoll := List.getElem?_eq_getElem (h.length ▸ hlt)
  exact ⟨_, hcoll, h.base.get k _ hcoll, h.inner k _ xs hcoll hk⟩

theorem skipEmpty (h : Nested c.base nextBase nextInner outer inner colls xss) {fuel : Nat} (hk : k ≤ xss.length)
    (hfuel : xss.length - k < fuel) : c.skipEmpty fuel (outer k) = some (position outer inner xss (offset xss k)) := by
  -- induction on the number of lists that are left
  induction fuel generalizing k with
  | zero => omega
  | succ fuel ih =>
      rw [FlattenCollection.skipEmpty]
      rcases hk.eq_or_lt with rfl | hlt
      · rw [h.base.endIndex, h.length, if_neg (not_not.2 rfl), h.endIndex, offset_length]
      · have hne : outer k ≠ c.base.endIndex := by
          rw [h.base.endIndex]
          exact h.base.ne (h.length ▸ hlt) le_rfl
        have hxs := List.getElem?_eq_getElem hlt
        obtain ⟨coll, hcoll, hget, hpresents⟩ := h.exists_coll hxs
        rw [if_pos hne, hget, Option.bind_eq_bind, Option.bind_some, hpresents.isEmpty]
        by_cases hempty : xss[k] = []
        · have hoff : offset xss (k + 1) = offset xss k := by rw [offset_succ hxs, hempty, List.length_nil, Nat.add_zero]
          rw [hempty, List.isEmpty_nil, if_neg (not_not.2 rfl), h.base.indexAfter k (h.length ▸ hlt),
            Option.bind_eq_bind, Option.bind_some, ih hlt (by omega), hoff]
        · have hpos := List.length_pos_iff.2 hempty
          have hat : position outer inner xss (offset xss k + 0) = _ := position_offset hxs hpos
          rw [if_pos (by rwa [List.isEmpty_iff]), hpresents.startIndex, ← hat, Nat.add_zero]

theorem startIndex (h : Nested c.base nextBase nextInner outer inner colls xss) {fuel : Nat} (hfuel : xss.length < fuel) :
    c.startIndex fuel = some (position outer inner xss 0) := by
  rw [FlattenCollection.startIndex, h.base.startIndex, h.skipEmpty (Nat.zero_le _) (by omega), offset_zero]

theorem indexAfter (h : Nested c.base nextBase nextInner outer inner colls xss) {fuel : Nat} (hfuel : xss.length < fuel)
    (hp : p < xss.flatten.length) :
    c.indexAfter fuel (position outer inner xss p) = some (position outer inner xss (p + 1)) := by
  obtain ⟨k, xs, i, hk, hi, rfl⟩ := exists_offset hp
  obtain ⟨coll, hcoll, hget, hpresents⟩ := h.exists_coll hk
  obtain ⟨hlt, -⟩ := List.getElem?_eq_some_iff.1 hk
  rw [FlattenCollection.indexAfter, position_offset hk hi]
  simp only [hget, hpresents.indexAfter i hi, hpresents.endIndex, Option.bind_eq_bind, Option.bind_some]
  by_cases hlast : i + 1 = xs.length
  · rw [hlast, if_neg (not_not.2 rfl), h.base.indexAfter k (h.length ▸ hlt), Option.bind_some, h.skipEmpty hlt (by omega),
      offset_succ hk, Nat.add_assoc, hlast]
  · have hnext : i + 1 < xs.length := by omega
    rw [if_pos (hpresents.ne hnext le_rfl), Nat.add_assoc, position_offset hk hnext]

theorem beforeLoop (h : Nested c.base nextBase nextInner outer inner colls xss) {coll : BidirectionalCollection κ τ α}
    {fuel : Nat} (hk : xss[k]? = some xs) (hcoll : colls[k]? = some coll) (hi : i ≤ xs.length)
    (hp : offset xss k + i = p + 1) (hfuel : k < fuel) :
    c.beforeLoop fuel (outer k) coll (inner k i) = some (position outer inner xss p) := by
  induction fuel generalizing k i xs coll with
  | zero => omega
  | succ fuel ih =>
      have hpresents := h.inner k coll xs hcoll hk
      rw [FlattenCollection.beforeLoop, hpresents.startIndex]
      rcases Nat.eq_zero_or_pos i with rfl | hpos
      · -- the end of the collection in front
        obtain ⟨k, rfl⟩ : ∃ l, k = l + 1 := by
          refine Nat.exists_eq_add_one.2 (Nat.pos_of_ne_zero fun hzero => ?_)
          rw [hzero, offset_zero] at hp
          omega
        obtain ⟨hlt, -⟩ := List.getElem?_eq_some_iff.1 hk
        have hxs := List.getElem?_eq_getElem (Nat.lt_of_succ_lt hlt)
        obtain ⟨coll', hcoll', hget, hpresents'⟩ := h.exists_coll hxs
        rw [if_pos rfl, h.base.indexBefore k (by rw [h.length]; omega), Option.bind_eq_bind, Option.bind_some, hget,
          Option.bind_eq_bind, Option.bind_some, hpresents'.endIndex]
        exact ih hxs hcoll' le_rfl (by rw [← hp, offset_succ hxs, Nat.add_zero]) (by omega)
      · obtain ⟨i, rfl⟩ := Nat.exists_eq_add_one.2 hpos
        rw [if_neg (hpresents.ne hpos hi).symm, hpresents.indexBefore i hi, Option.bind_eq_bind, Option.bind_some]
        have hat : p = offset xss k + i := by omega
        rw [hat, position_offset hk hi]

theorem indexBefore (h : Nested c.base nextBase nextInner outer inner colls xss) {fuel : Nat} (hfuel : xss.length < fuel)
    (hp : p < xss.flatten.length) :
    c.indexBefore fuel (position outer inner xss (p + 1)) = some (position outer inner xss p) := by
  rw [FlattenCollection.indexBefore]
  have hle : p + 1 ≤ xss.flatten.length := hp
  rcases hle.eq_or_lt with hlast | hlt
  · -- from the end
    have hne : xss ≠ [] := by
      rintro rfl
      cases hp
    obtain ⟨k, hk⟩ := Nat.exists_eq_add_one.2 (List.length_pos_iff.2 hne)
    have hxs := List.getElem?_eq_getElem (l := xss) (i := k) (by omega)
    obtain ⟨coll, hcoll, hget, hpresents⟩ := h.exists_coll hxs
    have hpos : position outer inner xss (p + 1) = ⟨outer xss.length, none⟩ := by
      rw [hlast, position_length]
    rw [hpos, if_pos (by rw [h.base.endIndex, h.length]), hk, h.base.indexBefore k (by rw [h.length]; omega)]
    simp only [Option.bind_eq_bind, Option.bind_some, hget, Option.getD_none, hpresents.endIndex]
    refine h.beforeLoop hxs hcoll le_rfl ?_ (by omega)
    rw [← offset_succ hxs, ← hk, offset_length, ← hlast]
  · obtain ⟨k, xs, i, hk, hi, heq⟩ := exists_offset hlt
    obtain ⟨hlength, -⟩ := List.getElem?_eq_some_iff.1 hk
    obtain ⟨coll, hcoll, hget, hpresents⟩ := h.exists_coll hk
    rw [heq, position_offset hk hi, if_neg (by rw [h.base.endIndex]; exact h.base.ne (h.length ▸ hlength) le_rfl)]
    simp only [Option.bind_eq_bind, Option.bind_some, hget, Option.getD_some]
    exact h.beforeLoop hk hcoll hi.le heq.symm (by omega)

theorem get (h : Nested c.base nextBase nextInner outer inner colls xss) {x : α} (hx : xss.flatten[p]? = some x) :
    c.get (position outer inner xss p) = some x := by
  obtain ⟨hp, -⟩ := List.getElem?_eq_some_iff.1 hx
  obtain ⟨k, xs, i, hk, hi, rfl⟩ := exists_offset hp
  obtain ⟨coll, hcoll, hget, hpresents⟩ := h.exists_coll hk
  rw [getElem?_offset hk hi] at hx
  rw [FlattenCollection.get, position_offset hk hi]
  simp only [Option.bind_eq_bind, Option.bind_some, hget]
  exact hpresents.get i x hx

theorem lt (h : Nested c.base nextBase nextInner outer inner colls xss) (hp : p ≤ xss.flatten.length)
    (hq : q ≤ xss.flatten.length) :
    (position outer inner xss p).lt (position outer inner xss q) = some (decide (p < q)) := by
  have hlen := h.length
  rcases hp.eq_or_lt with rfl | hp'
  · rw [position_length, decide_eq_false (not_lt.2 hq)]
    rcases hq.eq_or_lt with rfl | hq'
    · rw [position_length, FlattenIndex.lt, if_neg (not_not.2 rfl)]
    · obtain ⟨l, ys, j, hl, hj, rfl⟩ := exists_offset hq'
      obtain ⟨hlt, -⟩ := List.getElem?_eq_some_iff.1 hl
      have horder := h.base.lt l xss.length hlt hlen.ge
      rw [position_offset hl hj, FlattenIndex.lt, if_pos horder.ne']
      exact congrArg some (decide_eq_false (lt_asymm horder))
  · obtain ⟨k, xs, i, hk, hi, rfl⟩ := exists_offset hp'
    obtain ⟨hklt, -⟩ := List.getElem?_eq_some_iff.1 hk
    rw [position_offset hk hi]
    rcases hq.eq_or_lt with rfl | hq'
    · have horder := h.base.lt k xss.length hklt hlen.ge
      rw [position_length, decide_eq_true hp', FlattenIndex.lt, if_pos horder.ne]
      exact congrArg some (decide_eq_true horder)
    · obtain ⟨l, ys, j, hl, hj, rfl⟩ := exists_offset hq'
      obtain ⟨hllt, -⟩ := List.getElem?_eq_some_iff.1 hl
      rw [position_offset hl hj, FlattenIndex.lt]
      rcases lt_trichotomy k l with hkl | rfl | hlk
      · have horder := h.base.lt k l hkl (by omega)
        have hoff : offset xss (k + 1) ≤ offset xss l := offset_mono hkl
        rw [offset_succ hk] at hoff
        rw [if_pos horder.ne]
        exact congrArg some (decide_eq_decide.2 ⟨fun _ => by omega, fun _ => horder⟩)
      · obtain rfl := Option.some.inj (hk.symm.trans hl)
        obtain ⟨coll, hcoll, hget, hpresents⟩ := h.exists_coll hk
        rw [if_neg (not_not.2 rfl)]
        refine congrArg some (decide_eq_decide.2 ?_)
        rw [hpresents.lt_iff hi.le hj.le]
        omega
      · have horder := h.base.lt l k hlk (by omega)
        have hoff : offset xss (l + 1) ≤ offset xss k := offset_mono hlk
        rw [offset_succ hl] at hoff
        rw [if_pos horder.ne']
        exact congrArg some (decide_eq_decide.2 ⟨fun hlt => absurd hlt (lt_asymm horder), fun _ => by omega⟩)

theorem position_inj (h : Nested c.base nextBase nextInner outer inner colls xss) (hp : p ≤ xss.flatten.length)
    (hq : q ≤ xss.flatten.length) : position outer inner xss p = position outer inner xss q ↔ p = q := by
  refine ⟨fun heq => ?_, congrArg _⟩
  have hpq := h.lt hp hq
  have hqp := h.lt hq hp
  have hpp := h.lt hp hp
  rw [heq] at hpq hqp hpp
  simp only [hpq, Option.some.injEq, decide_eq_decide] at hqp hpp
  omega

end Nested

end SwiftKStdlib.Collections

namespace SwiftKStdlib.Collections

open Lib.Iterator Lib.Concatenation

variable {ι κ σ τ α : Type} {nextBase : σ → Option (Option (BidirectionalCollection κ τ α) × σ)}
  {nextInner : τ → Option (Option α × τ)}

/-! ## The iterator -/

/-- What the inner iterator has left. -/
def InnerYields (nextInner : τ → Option (Option α × τ)) (inner : Option τ) (ys : List α) : Prop :=
  match inner with
  | none => ys = []
  | some it => Yields nextInner it ys

/-- What an iterator has left. -/
structure Left (nextBase : σ → Option (Option (BidirectionalCollection κ τ α) × σ))
    (nextInner : τ → Option (Option α × τ)) (it : FlattenIterator σ τ) (colls : List (BidirectionalCollection κ τ α))
    (xss : List (List α)) (ys : List α) : Prop where
  base : Yields nextBase it.base colls
  inner : InnerYields nextInner it.inner ys
  colls : List.Forall₂ (fun coll xs => Yields nextInner coll.makeIterator xs) colls xss

namespace Left

variable {it : FlattenIterator σ τ} {colls : List (BidirectionalCollection κ τ α)} {xss : List (List α)} {ys : List α}
  {fuel : Nat}

theorem next_inner (h : Left nextBase nextInner it colls xss ys) (fuel : Nat) :
    ys = [] ∧ (∃ inner, it.next nextBase nextInner (fuel + 1) = (do
        let (s, base) ← nextBase it.base
        match s with
        | none => some (none, ⟨base, inner⟩)
        | some s => FlattenIterator.next nextBase nextInner fuel ⟨base, some s.makeIterator⟩)) ∨
      ∃ x ys' it', ys = x :: ys' ∧ it.next nextBase nextInner (fuel + 1) = some (some x, it') ∧
        Left nextBase nextInner it' colls xss ys' := by
  obtain ⟨base, inner⟩ := it
  obtain ⟨hbase, hinner, hcolls⟩ := h
  cases inner with
  | none => exact .inl ⟨hinner, none, rfl⟩
  | some inner =>
      have hyields : Yields nextInner inner ys := hinner
      cases hyields with
      | @nil _ inner' hnext =>
          refine .inl ⟨rfl, some inner', ?_⟩
          rw [FlattenIterator.next]
          simp only [hnext, Option.bind_eq_bind, Option.bind_some] <;> rfl
      | @cons _ inner' _ _ hnext hrest =>
          refine .inr ⟨_, _, ⟨base, some inner'⟩, rfl, ?_, hbase, hrest, hcolls⟩
          rw [FlattenIterator.next]
          simp only [hnext, Option.bind_eq_bind, Option.bind_some]

theorem next (h : Left nextBase nextInner it colls xss ys) (hfuel : colls.length < fuel) :
    ys ++ xss.flatten = [] ∧ (∃ it', it.next nextBase nextInner fuel = some (none, it')) ∨
      ∃ x it' colls' xss' ys', it.next nextBase nextInner fuel = some (some x, it') ∧
        ys ++ xss.flatten = x :: (ys' ++ xss'.flatten) ∧ Left nextBase nextInner it' colls' xss' ys' ∧
        colls'.length ≤ colls.length := by
  induction colls generalizing it xss ys fuel with
  | nil =>
      obtain ⟨fuel, rfl⟩ := Nat.exists_eq_add_one.2 hfuel
      rcases h.next_inner fuel with ⟨rfl, inner, hnext⟩ | ⟨x, ys', it', rfl, hnext, hleft⟩
      · have hbase := h.base
        obtain rfl := List.forall₂_nil_left_iff.1 h.colls
        cases hbase with
        | @nil _ base' hend =>
            refine .inl ⟨rfl, ⟨base', inner⟩, ?_⟩
            rw [hnext, hend]
            rfl
      · exact .inr ⟨x, it', [], xss, ys', hnext, rfl, hleft, le_rfl⟩
  | cons coll colls ih =>
      obtain ⟨fuel, rfl⟩ := Nat.exists_eq_add_one.2 (Nat.zero_lt_of_lt hfuel)
      rcases h.next_inner fuel with ⟨rfl, inner, hnext⟩ | ⟨x, ys', it', rfl, hnext, hleft⟩
      · -- the next collection of the base
        have hbase := h.base
        obtain ⟨xs, xss, hxs, hcolls, rfl⟩ := List.forall₂_cons_left_iff.1 h.colls
        cases hbase with
        | @cons _ base' _ _ hcoll hrest =>
            have hleft : Left nextBase nextInner ⟨base', some coll.makeIterator⟩ colls xss xs := ⟨hrest, hxs, hcolls⟩
            have hsame : it.next nextBase nextInner (fuel + 1) =
                FlattenIterator.next nextBase nextInner fuel ⟨base', some coll.makeIterator⟩ := by
              rw [hnext, hcoll]
              rfl
            rw [hsame, List.nil_append, List.flatten_cons]
            refine (ih hleft (Nat.lt_of_succ_lt_succ hfuel)).imp_right ?_
            rintro ⟨x, it', colls', xss', ys', hnext', heq, hleft', hle⟩
            exact ⟨x, it', colls', xss', ys', hnext', heq, hleft', hle.trans (Nat.le_succ _)⟩
      · exact .inr ⟨x, it', _, xss, ys', hnext, rfl, hleft, le_rfl⟩

theorem yields (h : Left nextBase nextInner it colls xss ys) (hfuel : colls.length < fuel) :
    Yields (fun it => it.next nextBase nextInner fuel) it (ys ++ xss.flatten) := by
  generalize hl : ys ++ xss.flatten = l
  induction l generalizing it colls xss ys with
  | nil =>
      rcases h.next hfuel with ⟨-, it', hnext⟩ | ⟨x, it', colls', xss', ys', -, heq, -⟩
      · exact .nil hnext
      · rw [hl] at heq
        cases heq
  | cons y l ih =>
      rcases h.next hfuel with ⟨hnil, -⟩ | ⟨x, it', colls', xss', ys', hnext, heq, hleft, hle⟩
      · rw [hl] at hnil
        cases hnil
      · rw [hl] at heq
        obtain ⟨rfl, hrest⟩ := List.cons.inj heq
        exact .cons hnext (ih hleft (hle.trans_lt hfuel) hrest.symm)

end Left

/-! ## Loops along a path -/

variable [LinearOrder ι] [LinearOrder κ] {c : FlattenCollection ι κ σ τ α}

section

variable (path : Nat → FlattenIndex ι κ) {limit : FlattenIndex ι κ} {fuel m n : Nat} {step : Int}

theorem offsetLoop_path (h : ∀ j < n, c.advanceIndex fuel (path j) step = some (path (j + 1))) :
    c.offsetLoop fuel step n (path 0) = some (path n) := by
  induction n generalizing path with
  | zero => rfl
  | succ n ih =>
      rw [FlattenCollection.offsetLoop, h 0 (Nat.succ_pos n), Option.bind_eq_bind, Option.bind_some]
      exact ih (fun j => path (j + 1)) fun j hj => h (j + 1) (Nat.succ_lt_succ hj)

theorem limitedLoop_go (h : ∀ j < n, c.advanceIndex fuel (path j) step = some (path (j + 1)))
    (hne : ∀ j < n, path j ≠ limit) : c.limitedLoop fuel step limit n (path 0) = some (some (path n)) := by
  induction n generalizing path with
  | zero => rfl
  | succ n ih =>
      rw [FlattenCollection.limitedLoop, if_neg (hne 0 (Nat.succ_pos n)), h 0 (Nat.succ_pos n), Option.bind_eq_bind,
        Option.bind_some]
      exact ih (fun j => path (j + 1)) (fun j hj => h (j + 1) (Nat.succ_lt_succ hj)) fun j hj =>
        hne (j + 1) (Nat.succ_lt_succ hj)

theorem limitedLoop_stop (h : ∀ j < m, c.advanceIndex fuel (path j) step = some (path (j + 1)))
    (hne : ∀ j < m, path j ≠ limit) (hlimit : path m = limit) (hm : m < n) :
    c.limitedLoop fuel step limit n (path 0) = some none := by
  obtain ⟨n, rfl⟩ := Nat.exists_eq_add_one.2 (Nat.zero_lt_of_lt hm)
  induction m generalizing path n with
  | zero => rw [FlattenCollection.limitedLoop, if_pos hlimit]
  | succ m ih =>
      obtain ⟨n, rfl⟩ := Nat.exists_eq_add_one.2 (Nat.zero_lt_of_lt (Nat.lt_of_succ_lt_succ hm))
      rw [FlattenCollection.limitedLoop, if_neg (hne 0 (Nat.succ_pos m)), h 0 (Nat.succ_pos m), Option.bind_eq_bind,
        Option.bind_some]
      exact ih (fun j => path (j + 1)) (fun j hj => h (j + 1) (Nat.succ_lt_succ hj))
        (fun j hj => hne (j + 1) (Nat.succ_lt_succ hj)) hlimit n (Nat.lt_of_succ_lt_succ hm)

end

/-! ## Distances -/

namespace Nested

variable {outer : Nat → ι} {inner : Nat → Nat → κ} {colls : List (BidirectionalCollection κ τ α)} {xss : List (List α)}
  {fuel k p q : Nat} {n : Int}

theorem yields (h : Nested c.base nextBase nextInner outer inner colls xss) (hfuel : xss.length < fuel) :
    Yields (fun it => it.next nextBase nextInner fuel) c.makeIterator xss.flatten := by
  refine @Left.yields _ _ _ _ _ _ _ _ _ [] _ ⟨h.base.yields, rfl, ?_⟩ (h.length.trans_lt hfuel)
  refine List.forall₂_iff_get.2 ⟨h.length, fun i hi hi' => ?_⟩
  exact (h.inner i _ _ (List.getElem?_eq_getElem hi) (List.getElem?_eq_getElem hi')).yields

theorem advance (h : Nested c.base nextBase nextInner outer inner colls xss) (hfuel : xss.length < fuel)
    (hp : p < xss.flatten.length) :
    c.advanceIndex fuel (position outer inner xss p) 1 = some (position outer inner xss (p + 1)) := by
  rw [FlattenCollection.advanceIndex, if_neg (by decide), h.indexAfter hfuel hp]

theorem retreat (h : Nested c.base nextBase nextInner outer inner colls xss) (hfuel : xss.length < fuel)
    (hp : p < xss.flatten.length) :
    c.advanceIndex fuel (position outer inner xss (p + 1)) (-1) = some (position outer inner xss p) := by
  rw [FlattenCollection.advanceIndex, if_pos (by decide), h.indexBefore hfuel hp]

theorem ensureBidirectional (h : Nested c.base nextBase nextInner outer inner colls xss) :
    c.ensureBidirectional n.sign = some () := by
  obtain ⟨i, hi⟩ := h.base.limitedBy
  rw [FlattenCollection.ensureBidirectional]
  split_ifs with hneg
  · rw [Int.sign_eq_neg_one_of_neg (Int.sign_neg_iff.1 hneg), hi]
    rfl
  · rfl

theorem elements (h : Nested c.base nextBase nextInner outer inner colls xss) (hfuel : xss.length < fuel)
    (hp : p ≤ xss.flatten.length) (hk : xss.flatten.length - p < k) :
    c.elements fuel k (position outer inner xss p) = some (xss.flatten.drop p) := by
  induction k generalizing p with
  | zero => omega
  | succ k ih =>
      rw [FlattenCollection.elements, h.endIndex]
      rcases hp.eq_or_lt with rfl | hlt
      · rw [if_neg (not_not.2 rfl), List.drop_length]
      · have hne : position outer inner xss p ≠ position outer inner xss xss.flatten.length := fun heq =>
          hlt.ne ((h.position_inj hp le_rfl).1 heq)
        rw [if_pos hne, h.get (List.getElem?_eq_getElem hlt), Option.bind_eq_bind, Option.bind_some,
          h.indexAfter hfuel hlt, Option.bind_eq_bind, Option.bind_some, ih hlt (by omega), List.drop_eq_getElem_cons hlt]
        rfl

theorem distanceLoop (h : Nested c.base nextBase nextInner outer inner colls xss) (hfuel : xss.length < fuel)
    {step count : Int} (hstep : step = 1 ∨ step = -1) (hcount : checkInt count = some count) (hpq : p ≤ q)
    (hq : q ≤ xss.flatten.length) (hk : q - p < k) :
    c.distanceLoop fuel step k (position outer inner xss p) (position outer inner xss q) count =
      checkInt (count + step * (q - p)) := by
  induction k generalizing p count with
  | zero => omega
  | succ k ih =>
      rw [FlattenCollection.distanceLoop]
      rcases hpq.eq_or_lt with rfl | hlt
      · rw [if_neg (not_not.2 rfl), Int.sub_self, Int.mul_zero, Int.add_zero, hcount]
      · have hne : position outer inner xss p ≠ position outer inner xss q := fun heq =>
          hlt.ne ((h.position_inj (hpq.trans hq) hq).1 heq)
        rw [if_pos hne]
        by_cases hnext : checkInt (count + step) = some (count + step)
        · have hsum : count + step + step * (q - (p + 1 : Nat)) = count + step * (q - p) := by
            push_cast
            ring
          rw [hnext, Option.bind_eq_bind, Option.bind_some, h.indexAfter hfuel (hlt.trans_le hq), Option.bind_eq_bind,
            Option.bind_some, ih hnext hlt (by omega), hsum]
        · -- the number of positions does not fit either
          have hout : checkInt (count + step) = none := by
            rw [checkInt] at hnext ⊢
            split_ifs at hnext with hin
            · exact absurd rfl hnext
            · exact if_neg hin
          rw [hout]
          symm
          rw [checkInt] at hcount hout ⊢
          split_ifs at hcount hout with hin hnin
          refine if_neg fun hfar => hnin ?_
          rcases hstep with rfl | rfl
          · omega
          · omega

theorem distance (h : Nested c.base nextBase nextInner outer inner colls xss) (hfuel : xss.length < fuel)
    (hlength : xss.flatten.length < fuel) (hp : p ≤ xss.flatten.length) (hq : q ≤ xss.flatten.length) :
    c.distance fuel (position outer inner xss p) (position outer inner xss q) = checkInt (q - p) := by
  obtain ⟨d, hd⟩ := h.base.distance
  have hzero : checkInt 0 = some 0 := rfl
  rw [FlattenCollection.distance]
  simp only [h.lt hq hp, hd, Option.bind_eq_bind, Option.bind_some]
  by_cases hlt : q < p
  · simp only [hlt, decide_true, if_true]
    rw [h.distanceLoop hfuel (.inr rfl) hzero hlt.le hp (by omega)]
    congr 1
    ring
  · simp only [hlt, decide_false, Bool.false_eq_true, if_false]
    change c.distanceLoop fuel 1 fuel _ _ 0 = _
    rw [h.distanceLoop hfuel (.inl rfl) hzero (not_lt.1 hlt) hq (by omega)]
    congr 1
    ring

theorem indexOffsetBy (h : Nested c.base nextBase nextInner outer inner colls xss) (hfuel : xss.length < fuel)
    (hmin : minInt < n) (hp : p ≤ xss.flatten.length) (hn : 0 ≤ p + n) (hlast : p + n ≤ xss.flatten.length) :
    c.indexOffsetBy fuel (position outer inner xss p) n = some (position outer inner xss (p + n).toNat) := by
  rw [FlattenCollection.indexOffsetBy]
  simp only [h.ensureBidirectional, abs_eq hmin.ne' hmin.le, Option.bind_eq_bind, Option.bind_some, Int.toNat_natCast]
  rcases lt_trichotomy n 0 with hneg | rfl | hpos
  · rw [Int.sign_eq_neg_one_of_neg hneg]
    have hloop := @offsetLoop_path _ _ _ _ _ _ _ c (fun j => position outer inner xss (p - j)) fuel n.natAbs (-1)
      fun j hj => ?_
    · rw [Nat.sub_zero] at hloop
      rw [hloop]
      congr 2
      omega
    · have hsucc : p - j = p - (j + 1) + 1 := by omega
      rw [hsucc]
      exact h.retreat hfuel (by omega)
  · rw [Int.add_zero, Int.toNat_natCast]
    rfl
  · rw [Int.sign_eq_one_of_pos hpos]
    have hloop := @offsetLoop_path _ _ _ _ _ _ _ c (fun j => position outer inner xss (p + j)) fuel n.natAbs 1
      fun j hj => h.advance hfuel (by omega)
    rw [Nat.add_zero] at hloop
    rw [hloop]
    congr 2
    omega

end Nested

/-- The offset by `n` from `p` is beyond the limit `q`, in the direction of movement. -/
def Beyond (p q : Nat) (n : Int) : Prop := 0 < n ∧ p ≤ q ∧ (q : Int) < p + n ∨ n < 0 ∧ q ≤ p ∧ p + n < (q : Int)

namespace Nested

variable {outer : Nat → ι} {inner : Nat → Nat → κ} {colls : List (BidirectionalCollection κ τ α)} {xss : List (List α)}
  {fuel p q : Nat} {n : Int}

theorem limitedBy_beyond (h : Nested c.base nextBase nextInner outer inner colls xss) (hfuel : xss.length < fuel)
    (hmin : minInt < n) (hp : p ≤ xss.flatten.length) (hq : q ≤ xss.flatten.length) (hbeyond : Beyond p q n) :
    c.indexOffsetByLimitedBy fuel (position outer inner xss p) n (position outer inner xss q) = some none := by
  rw [FlattenCollection.indexOffsetByLimitedBy]
  simp only [h.ensureBidirectional, abs_eq hmin.ne' hmin.le, Option.bind_eq_bind, Option.bind_some, Int.toNat_natCast]
  rcases hbeyond with ⟨hpos, hle, hlt⟩ | ⟨hneg, hle, hlt⟩
  · rw [Int.sign_eq_one_of_pos hpos]
    refine limitedLoop_stop (fun j => position outer inner xss (p + j)) (m := q - p) ?_ ?_ ?_ (by omega)
    · exact fun j hj => h.advance hfuel (by omega)
    · intro j hj heq
      have := (h.position_inj (by omega) hq).1 heq
      omega
    · exact congrArg _ (by omega)
  · rw [Int.sign_eq_neg_one_of_neg hneg]
    refine limitedLoop_stop (fun j => position outer inner xss (p - j)) (m := p - q) ?_ ?_ ?_ (by omega)
    · intro j hj
      have hsucc : p - j = p - (j + 1) + 1 := by omega
      rw [hsucc]
      exact h.retreat hfuel (by omega)
    · intro j hj heq
      have := (h.position_inj (by omega) hq).1 heq
      omega
    · exact congrArg _ (by omega)

theorem limitedBy_within (h : Nested c.base nextBase nextInner outer inner colls xss) (hfuel : xss.length < fuel)
    (hmin : minInt < n) (hp : p ≤ xss.flatten.length) (hq : q ≤ xss.flatten.length) (hwithin : ¬ Beyond p q n)
    (hn : 0 ≤ p + n) (hlast : p + n ≤ xss.flatten.length) :
    c.indexOffsetByLimitedBy fuel (position outer inner xss p) n (position outer inner xss q) =
      some (some (position outer inner xss (p + n).toNat)) := by
  rw [FlattenCollection.indexOffsetByLimitedBy]
  simp only [h.ensureBidirectional, abs_eq hmin.ne' hmin.le, Option.bind_eq_bind, Option.bind_some, Int.toNat_natCast]
  rw [Beyond] at hwithin
  rcases lt_trichotomy n 0 with hneg | rfl | hpos
  · rw [Int.sign_eq_neg_one_of_neg hneg]
    have hloop := @limitedLoop_go _ _ _ _ _ _ _ c (fun j => position outer inner xss (p - j))
      (position outer inner xss q) fuel n.natAbs (-1) ?_ ?_
    · rw [Nat.sub_zero] at hloop
      rw [hloop]
      congr 3
      omega
    · intro j hj
      have hsucc : p - j = p - (j + 1) + 1 := by omega
      rw [hsucc]
      exact h.retreat hfuel (by omega)
    · intro j hj heq
      have := (h.position_inj (by omega) hq).1 heq
      omega
  · rw [Int.add_zero, Int.toNat_natCast]
    rfl
  · rw [Int.sign_eq_one_of_pos hpos]
    have hloop := @limitedLoop_go _ _ _ _ _ _ _ c (fun j => position outer inner xss (p + j))
      (position outer inner xss q) fuel n.natAbs 1 ?_ ?_
    · rw [Nat.add_zero] at hloop
      rw [hloop]
      congr 3
      omega
    · exact fun j hj => h.advance hfuel (by omega)
    · intro j hj heq
      have := (h.position_inj (by omega) hq).1 heq
      omega

end Nested

/-! ## Agreement with the positions -/

/-- The collection has these elements, at these indices, and offsets by `n` are offsets of their positions. -/
structure Agrees (c : FlattenCollection ι κ σ τ α)
    (nextBase : σ → Option (Option (BidirectionalCollection κ τ α) × σ)) (nextInner : τ → Option (Option α × τ))
    (fuel : Nat) (elems : List α) (n : Int) (index : Nat → FlattenIndex ι κ) : Prop where
  startIndex : c.startIndex fuel = some (index 0)
  endIndex : c.endIndex = index elems.length
  elements : c.elements fuel fuel (index 0) = some elems
  yields : Yields (fun it => it.next nextBase nextInner fuel) c.makeIterator elems
  indexAfter : ∀ p < elems.length, c.indexAfter fuel (index p) = some (index (p + 1))
  indexBefore : ∀ p < elems.length, c.indexBefore fuel (index (p + 1)) = some (index p)
  get : ∀ (p : Nat) (x : α), elems[p]? = some x → c.get (index p) = some x
  eq : ∀ p q, p ≤ elems.length → q ≤ elems.length → (index p = index q ↔ p = q)
  lt : ∀ p q, p ≤ elems.length → q ≤ elems.length → (index p).lt (index q) = some (decide (p < q))
  distance : ∀ p q, p ≤ elems.length → q ≤ elems.length → c.distance fuel (index p) (index q) = some ((q : Int) - p)
  indexOffsetBy : ∀ p : Nat, p ≤ elems.length → 0 ≤ p + n → p + n ≤ elems.length →
    c.indexOffsetBy fuel (index p) n = some (index (p + n).toNat)
  limitedBy_beyond : ∀ p q, p ≤ elems.length → q ≤ elems.length → Beyond p q n →
    c.indexOffsetByLimitedBy fuel (index p) n (index q) = some none
  limitedBy_within : ∀ p q : Nat, p ≤ elems.length → q ≤ elems.length → ¬ Beyond p q n → 0 ≤ p + n →
    p + n ≤ elems.length → c.indexOffsetByLimitedBy fuel (index p) n (index q) = some (some (index (p + n).toNat))

section

variable {outer : Nat → ι} {inner : Nat → Nat → κ} {colls : List (BidirectionalCollection κ τ α)} {xss : List (List α)}
  {fuel : Nat} {n : Int}

theorem Nested.ne_minInt (h : Nested c.base nextBase nextInner outer inner colls xss)
    {index : Nat → FlattenIndex ι κ} (hagrees : Agrees c nextBase nextInner fuel xss.flatten n index) : n ≠ minInt := by
  rintro rfl
  have hlimited := hagrees.limitedBy_beyond 0 0 (Nat.zero_le _) (Nat.zero_le _) (.inr (by decide))
  rw [FlattenCollection.indexOffsetByLimitedBy] at hlimited
  simp only [h.ensureBidirectional, abs_minInt, Option.bind_eq_bind, Option.bind_some, Option.bind_none] at hlimited
  cases hlimited

/-- A flattened collection agrees with the positions of the concatenation, for all offsets but the least, if
the number of elements is an `Int`. -/
theorem agrees_iff (h : Nested c.base nextBase nextInner outer inner colls xss)
    (hfuel : xss.length + xss.flatten.length < fuel) (hn : minInt ≤ n ∧ n ≤ maxInt) :
    (∃ index, Agrees c nextBase nextInner fuel xss.flatten n index) ↔
      n ≠ minInt ∧ xss.flatten.length ≤ maxInt := by
  have hlists : xss.length < fuel := by omega
  have hlength : xss.flatten.length < fuel := by omega
  constructor
  · rintro ⟨index, hagrees⟩
    refine ⟨h.ne_minInt hagrees, ?_⟩
    have hstart := hagrees.startIndex
    rw [h.startIndex hlists] at hstart
    have hdist := hagrees.distance 0 xss.flatten.length (Nat.zero_le _) le_rfl
    rw [← Option.some.inj hstart, ← hagrees.endIndex, h.endIndex, h.distance hlists hlength (Nat.zero_le _) le_rfl,
      checkInt] at hdist
    split_ifs at hdist with hin
    omega
  · rintro ⟨hne, hle⟩
    have hmin : minInt < n := lt_of_le_of_ne hn.1 hne.symm
    refine ⟨position outer inner xss, h.startIndex hlists, h.endIndex, ?_, h.yields hlists, ?_, ?_, ?_, ?_, ?_, ?_, ?_, ?_,
      ?_⟩
    · exact h.elements hlists (Nat.zero_le _) (by omega)
    · exact fun p hp => h.indexAfter hlists hp
    · exact fun p hp => h.indexBefore hlists hp
    · exact fun p x hx => h.get hx
    · exact fun p q hp hq => h.position_inj hp hq
    · exact fun p q hp hq => h.lt hp hq
    · intro p q hp hq
      rw [h.distance hlists hlength hp hq, checkInt]
      exact if_pos (by rw [minInt, maxInt] at *; omega)
    · exact fun p hp hnonneg hlast => h.indexOffsetBy hlists hmin hp hnonneg hlast
    · exact fun p q hp hq hbeyond => h.limitedBy_beyond hlists hmin hp hq hbeyond
    · exact fun p q hp hq hwithin hnonneg hlast => h.limitedBy_within hlists hmin hp hq hwithin hnonneg hlast

end

/-! ### Arrays -/

def ofLists (xss : List (List α)) : FlattenCollection Nat Nat (List (BidirectionalCollection Nat (List α) α)) (List α) α :=
  ⟨ofList (xss.map ofList)⟩

theorem nested_ofLists {xss : List (List α)} (hlists : xss.length ≤ maxInt) (h : ∀ xs ∈ xss, xs.length ≤ maxInt) :
    Nested (ofLists xss).base nextOf nextOf id (fun _ => id) (xss.map ofList) xss := by
  refine ⟨presents_ofList (by rwa [List.length_map]), List.length_map _, fun k coll xs hcoll hxs => ?_⟩
  rw [List.getElem?_map, hxs] at hcoll
  obtain rfl := Option.some.inj hcoll
  exact presents_ofList (h xs (List.mem_of_getElem? hxs))

theorem agrees_arrays : ∃ index, Agrees (ofLists [[], [7], [], [8, 9], []]) nextOf nextOf 9 [7, 8, 9] (-2) index :=
  (agrees_iff (nested_ofLists (by decide) (by decide)) (by decide) (by decide)).2 (by decide)

/-- `index(_:offsetBy:limitedBy:)` traps for `Int.min`. -/
theorem not_agrees_minInt : ¬ ∃ index, Agrees (ofLists [[7], []]) nextOf nextOf 4 [7] minInt index := fun ⟨_, hagrees⟩ =>
  (@nested_ofLists _ [[7], []] (by decide) (by decide)).ne_minInt hagrees rfl

end SwiftKStdlib.Collections
