import Mathlib.Tactic

/-!
# Linked lists

* `Segment next null p l q` : from `p`, the links go through `l` and come to `q`;
* `search` : the loop that follows the links up to an element, with fuel for its rounds;
* `search_eq` : it finds the first such element;
* `Segment.unlink` : taking an element out of the middle.
-/

namespace SwiftKStdlib.Lib.LinkedList

variable {α : Type}

/-- The links go from `p` through `l` to `q`. -/
def Segment (next : α → α) (null : α) (p : α) : List α → α → Prop
  | [], q => p = q
  | a :: l, q => p = a ∧ a ≠ null ∧ Segment next null (next a) l q

namespace Segment

variable {next next' : α → α} {null p q : α} {l l' : List α}

theorem append (h : Segment next null p (l ++ l') q) :
    ∃ m, Segment next null p l m ∧ Segment next null m l' q := by
  induction l generalizing p with
  | nil => exact ⟨p, rfl, h⟩
  | cons a l ih =>
    obtain ⟨hp, hnull, hrest⟩ := h
    obtain ⟨m, hl, hl'⟩ := ih hrest
    exact ⟨m, ⟨hp, hnull, hl⟩, hl'⟩

theorem concat {m : α} (h : Segment next null p l m) (h' : Segment next null m l' q) :
    Segment next null p (l ++ l') q := by
  induction l generalizing p with
  | nil =>
    obtain rfl : p = m := h
    exact h'
  | cons a l ih =>
    obtain ⟨hp, hnull, hrest⟩ := h
    exact ⟨hp, hnull, ih hrest⟩

theorem congr (h : Segment next null p l q) (heq : ∀ a ∈ l, next' a = next a) : Segment next' null p l q := by
  induction l generalizing p with
  | nil => exact h
  | cons a l ih =>
    obtain ⟨hp, hnull, hrest⟩ := h
    refine ⟨hp, hnull, ?_⟩
    rw [heq a List.mem_cons_self]
    exact ih hrest fun b hb => heq b (List.mem_cons_of_mem _ hb)

theorem ne_null (h : Segment next null p l q) : ∀ a ∈ l, a ≠ null := by
  induction l generalizing p with
  | nil => exact fun a ha => absurd ha List.not_mem_nil
  | cons b l ih =>
    intro a ha
    rcases List.mem_cons.1 ha with rfl | ha
    · exact h.2.1
    · exact ih h.2.2 a ha

theorem unlink [DecidableEq α] {before a : α} {front back : List α}
    (h : Segment next null p (front ++ before :: a :: back) q) (hnodup : (front ++ before :: a :: back).Nodup) :
    Segment (Function.update next before (next a)) null p (front ++ before :: back) q := by
  obtain ⟨m, hfront, rfl, hbefore, rfl, hnull, hback⟩ := h.append
  have hdisjoint := List.disjoint_of_nodup_append hnodup
  have htail := (List.nodup_cons.1 hnodup.of_append_right).1
  refine (hfront.congr fun b hb => ?_).concat ⟨rfl, hbefore, ?_⟩
  · have hne : b ≠ m := by
      intro heq
      rw [heq] at hb
      exact hdisjoint hb List.mem_cons_self
    exact Function.update_of_ne hne _ _
  · rw [Function.update_self]
    refine hback.congr fun b hb => ?_
    have hne : b ≠ m := by
      intro heq
      rw [heq] at hb
      exact htail (List.mem_cons_of_mem _ hb)
    exact Function.update_of_ne hne _ _

end Segment

/-! ## Loops over a list -/

/-- The first element with `stop` from `p` on, or none before `null`. -/
def search [DecidableEq α] (next : α → α) (null : α) (stop : α → Bool) : Nat → α → Option (Option α)
  | 0, _ => none
  | fuel + 1, p =>
    if p = null then some none
    else if stop p then some (some p)
    else search next null stop fuel (next p)

/-- The elements from `p` on. -/
def toList [DecidableEq α] (next : α → α) (null : α) : Nat → α → Option (List α)
  | 0, _ => none
  | fuel + 1, p => if p = null then some [] else (toList next null fuel (next p)).map (p :: ·)

variable [DecidableEq α] {next : α → α} {null p : α} {l : List α} {fuel : Nat}

theorem search_eq (stop : α → Bool) (h : Segment next null p l null) (hfuel : l.length < fuel) :
    search next null stop fuel p = some (l.find? stop) := by
  induction l generalizing p fuel with
  | nil =>
    obtain ⟨fuel, rfl⟩ : ∃ n, fuel = n + 1 := ⟨fuel - 1, by simp at hfuel; omega⟩
    have hp : p = null := h
    rw [search, if_pos hp, List.find?_nil]
  | cons a l ih =>
    obtain ⟨rfl, hnull, hrest⟩ := h
    obtain ⟨fuel, rfl⟩ : ∃ n, fuel = n + 1 := ⟨fuel - 1, by simp at hfuel; omega⟩
    rw [search, if_neg hnull]
    by_cases hstop : stop p = true
    · rw [if_pos hstop, List.find?_cons_of_pos hstop]
    · rw [if_neg hstop, List.find?_cons_of_neg hstop, ih hrest (by simpa using hfuel)]

theorem toList_eq (h : Segment next null p l null) (hfuel : l.length < fuel) : toList next null fuel p = some l := by
  induction l generalizing p fuel with
  | nil =>
    obtain ⟨fuel, rfl⟩ : ∃ n, fuel = n + 1 := ⟨fuel - 1, by simp at hfuel; omega⟩
    have hp : p = null := h
    rw [toList, if_pos hp]
  | cons a l ih =>
    obtain ⟨rfl, hnull, hrest⟩ := h
    obtain ⟨fuel, rfl⟩ : ∃ n, fuel = n + 1 := ⟨fuel - 1, by simp at hfuel; omega⟩
    rw [toList, if_neg hnull, ih hrest (by simpa using hfuel)]
    rfl

end SwiftKStdlib.Lib.LinkedList
