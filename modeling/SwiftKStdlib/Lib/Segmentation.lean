import Mathlib

/-!
# Segmentation by a self-synchronising code

A code is a set of words over an alphabet. Reading a text from the left, the segment at an offset is
the word that begins there, or, where none does, the longest part of the text that begins a word (a
single letter where nothing does).

* `Segments code s l` : `l` is the segmentation of `s`;
* `Code` : non-empty words, none the beginning of another, with letters that only occur behind the
  first one of a word (`trailing`);
* `Segments.unique`, and `Segments.append` and `Segments.snoc` : how the segmentation of a text
  extends that of a beginning of it. They make the segmentation readable from the right;
* `Read f s l` : `l` is what `f` reads off `s`, one segment after another; `Read.segments` when `f`
  reads from the left (`First`), `Read.segments_reverse` when it reads from the right (`Last`);
* `tableCode` : a code given by a table of ranges of letters.
-/

namespace SwiftKStdlib.Lib

variable {α : Type}

/-- A segment of a text: a word, or a part that is not one, by its length. -/
inductive Segment (α : Type) where
  | word (w : List α)
  | illFormed (length : Nat)
  deriving DecidableEq, Repr

namespace Segment

def length : Segment α → Nat
  | word w => w.length
  | illFormed n => n

/-- `s` is the beginning of a word. -/
def Initial (code : List α → Prop) (s : List α) : Prop := ∃ t, code (s ++ t)

/-- `p` is the longest part of `p ++ s` that begins a word, or one letter. -/
structure Maximal (code : List α → Prop) (p s : List α) : Prop where
  ne_nil : p ≠ []
  not_word : ∀ q, q <+: p ++ s → ¬ code q
  initial : Initial code p ∨ p.length = 1
  longest : ∀ q, q <+: p ++ s → Initial code q → q.length ≤ p.length

end Segment

open Segment

/-- `l` is the segmentation of the text `s`. -/
inductive Segments (code : List α → Prop) : List α → List (Segment α) → Prop where
  | nil : Segments code [] []
  | word {p s l} : code p → Segments code s l → Segments code (p ++ s) (.word p :: l)
  | illFormed {p s l} : Maximal code p s → Segments code s l →
      Segments code (p ++ s) (.illFormed p.length :: l)

structure Code (code : List α → Prop) (trailing : α → Prop) : Prop where
  ne_nil : ¬ code []
  prefixFree : ∀ p q, code p → code q → p <+: q → p = q
  behind : ∀ x s, code (x :: s) → ∀ y ∈ s, trailing y
  first : ∀ x s, code (x :: s) → ¬ trailing x

namespace Segments

variable {code : List α → Prop} {trailing : α → Prop} {s t p : List α} {l k : List (Segment α)}

theorem prefix_append_cases {q p v : List α} (h : q <+: p ++ v) :
    q <+: p ∨ ∃ x w, q = p ++ x :: w ∧ x :: w <+: v := by
  rcases List.prefix_or_prefix_of_prefix h (List.prefix_append p v) with hq | ⟨w, rfl⟩
  · exact .inl hq
  · cases w with
    | nil => exact .inl (by simp)
    | cons x w => exact .inr ⟨x, w, rfl, (List.prefix_append_right_inj p).1 h⟩

theorem trailing_of_initial (hc : Code code trailing) {p w : List α} {x : α} (hp : p ≠ [])
    (h : Initial code (p ++ x :: w)) : trailing x := by
  obtain ⟨t, ht⟩ := h
  cases p with
  | nil => exact absurd rfl hp
  | cons y p => exact hc.behind y _ ht x (by simp)

theorem initial_of_word {p : List α} (h : code p) : Initial code p := ⟨[], by simpa using h⟩

theorem initial_of_prefix {p q : List α} (h : Initial code q) (hpq : p <+: q) : Initial code p := by
  obtain ⟨t, ht⟩ := h
  obtain ⟨u, rfl⟩ := hpq
  exact ⟨u ++ t, by simpa using ht⟩

theorem maximal_append (h : Maximal code p s) (v : List α)
    (hv : ∀ x w, x :: w <+: v → ¬ Initial code (p ++ s ++ x :: w)) : Maximal code p (s ++ v) := by
  refine ⟨h.ne_nil, fun q hq hw => ?_, h.initial, fun q hq hi => ?_⟩
  · rw [← List.append_assoc] at hq
    rcases prefix_append_cases hq with hq | ⟨x, w, rfl, hxw⟩
    · exact h.not_word q hq hw
    · exact hv x w hxw (initial_of_word hw)
  · rw [← List.append_assoc] at hq
    rcases prefix_append_cases hq with hq | ⟨x, w, rfl, hxw⟩
    · exact h.longest q hq hi
    · exact absurd hi (hv x w hxw)

theorem append (hc : Code code trailing) {v : List α} (hv : ∀ x w, v = x :: w → ¬ trailing x)
    (hs : Segments code s l) (ht : Segments code v k) : Segments code (s ++ v) (l ++ k) := by
  induction hs with
  | nil => exact ht
  | word hw _ ih =>
      rw [List.append_assoc]
      exact .word hw ih
  | @illFormed p s l hmax _ ih =>
      rw [List.append_assoc]
      refine .illFormed (maximal_append hmax v fun x w hxw hi => ?_) ih
      obtain ⟨u, rfl⟩ := hxw
      exact hv x (w ++ u) (by simp) (trailing_of_initial hc (by simp [hmax.ne_nil]) hi)

theorem snoc (hc : Code code trailing) {c : α} (hcw : ¬ code [c]) (hs : Segments code s l)
    (hlast : ∀ u, u ≠ [] → u <:+ s → ¬ Initial code (u ++ [c])) :
    Segments code (s ++ [c]) (l ++ [.illFormed 1]) := by
  induction hs with
  | nil =>
      refine .illFormed (p := [c]) (s := []) ⟨by simp, fun q hq hw => ?_, .inr rfl, fun q hq _ => ?_⟩ .nil
      · cases q with
        | nil => exact hc.ne_nil hw
        | cons x q =>
            obtain ⟨rfl, hq⟩ := List.cons_prefix_cons.1 hq
            obtain rfl : q = [] := by simpa using hq
            exact hcw hw
      · simpa using hq.length_le
  | word hw _ ih =>
      rw [List.append_assoc]
      exact .word hw (ih fun u hu hus => hlast u hu (hus.trans (List.suffix_append _ _)))
  | @illFormed p s l hmax _ ih =>
      rw [List.append_assoc]
      refine .illFormed (maximal_append hmax [c] fun x w hxw hi => ?_)
        (ih fun u hu hus => hlast u hu (hus.trans (List.suffix_append _ _)))
      obtain ⟨rfl, hw⟩ := List.cons_prefix_cons.1 hxw
      obtain rfl : w = [] := by simpa using hw
      exact hlast (p ++ s) (by simp [hmax.ne_nil]) (List.suffix_refl _) hi

theorem single_illFormed (hc : Code code trailing) {p : List α} (hp : p ≠ [])
    (hi : Initial code p ∨ p.length = 1) (hw : ¬ code p) : Segments code p [.illFormed p.length] := by
  have hmax : Maximal code p [] := by
    refine ⟨hp, fun q hq hqw => ?_, hi, fun q hq _ => by simpa using hq.length_le⟩
    rw [List.append_nil] at hq
    -- a word that begins `p` is all of `p`
    have hlen : p.length ≤ q.length := by
      rcases hi with ⟨t, ht⟩ | hlen
      · have := congrArg List.length (hc.prefixFree _ _ hqw ht (hq.trans (List.prefix_append _ _)))
        rw [List.length_append] at this
        omega
      · have : q ≠ [] := fun h => hc.ne_nil (h ▸ hqw)
        exact hlen ▸ List.length_pos_of_ne_nil this
    exact hw (hq.eq_of_length_le hlen ▸ hqw)
  simpa using Segments.illFormed hmax .nil

theorem single_word {p : List α} (hw : code p) : Segments code p [.word p] := by
  simpa using Segments.word hw .nil

theorem sum_length (hs : Segments code s l) : (l.map Segment.length).sum = s.length := by
  induction hs with
  | nil => rfl
  | word _ _ ih => rw [List.map_cons, List.sum_cons, ih, List.length_append, Segment.length]
  | illFormed _ _ ih => rw [List.map_cons, List.sum_cons, ih, List.length_append, Segment.length]

theorem unique (hc : Code code trailing) (hs : Segments code s l) (hk : Segments code t k)
    (ht : t = s) : k = l := by
  induction hs generalizing t k with
  | nil =>
      cases hk with
      | nil => rfl
      | word hw _ => exact absurd hw (by rw [(List.append_eq_nil_iff.1 ht).1]; exact hc.ne_nil)
      | illFormed hmax _ => exact absurd (List.append_eq_nil_iff.1 ht).1 hmax.ne_nil
  | @word p s l hw _ ih =>
      cases hk with
      | nil => exact absurd hw (by rw [(List.append_eq_nil_iff.1 ht.symm).1]; exact hc.ne_nil)
      | @word q s' k hw' hs' =>
          obtain rfl : q = p := by
            rcases List.prefix_or_prefix_of_prefix (ht ▸ List.prefix_append q s')
              (List.prefix_append p s) with h | h
            · exact hc.prefixFree _ _ hw' hw h
            · exact (hc.prefixFree _ _ hw hw' h).symm
          rw [ih hs' (List.append_cancel_left ht)]
      | illFormed hmax _ => exact absurd hw (hmax.not_word p (ht ▸ List.prefix_append p s))
  | @illFormed p s l hmax _ ih =>
      cases hk with
      | nil => exact absurd (List.append_eq_nil_iff.1 ht.symm).1 hmax.ne_nil
      | word hw _ => exact absurd hw (hmax.not_word _ (ht ▸ List.prefix_append _ _))
      | @illFormed q s' k hmax' hs' =>
          have hpos : ∀ {u : List α}, u ≠ [] → 1 ≤ u.length := List.length_pos_of_ne_nil
          have hlen : q.length = p.length := by
            apply Nat.le_antisymm
            · rcases hmax'.initial with h | h
              · exact hmax.longest q (ht ▸ List.prefix_append q s') h
              · exact h ▸ hpos hmax.ne_nil
            · rcases hmax.initial with h | h
              · exact hmax'.longest p (ht ▸ List.prefix_append p s) h
              · exact h ▸ hpos hmax'.ne_nil
          obtain ⟨rfl, rfl⟩ := List.append_inj ht hlen
          rw [ih hs' rfl]

end Segments

/-! ## Reading -/

/-- `l` are the segments `f` reads off `s`, one after another; `f` gives a segment and its length. -/
inductive Read (f : List α → Segment α × Nat) : List α → List (Segment α) → Prop where
  | nil : Read f [] []
  | cons {x s l} : 0 < (f (x :: s)).2 → (f (x :: s)).2 ≤ (x :: s).length →
      Read f ((x :: s).drop (f (x :: s)).2) l → Read f (x :: s) ((f (x :: s)).1 :: l)

/-- The segment and its length are the first of the segmentation of `s`. -/
inductive First (code : List α → Prop) (s : List α) : Segment α × Nat → Prop where
  | word {n} : code (s.take n) → First code s (.word (s.take n), n)
  | illFormed {n} : n ≤ s.length → Maximal code (s.take n) (s.drop n) → First code s (.illFormed n, n)

/-- The segment and its length are the last of the segmentation of the text that `s` is the reverse
of. -/
inductive Last (code : List α → Prop) (s : List α) : Segment α × Nat → Prop where
  | word {n} : code (s.take n).reverse → Last code s (.word (s.take n).reverse, n)
  | unfinished {n} : 0 < n → n ≤ s.length → Initial code (s.take n).reverse →
      ¬ code (s.take n).reverse → Last code s (.illFormed n, n)
  | single : (∀ n, 0 < n → n ≤ s.length → ¬ code (s.take n).reverse) →
      (∀ n, 1 < n → n ≤ s.length → ¬ Initial code (s.take n).reverse) → Last code s (.illFormed 1, 1)

theorem First.pos {code : List α → Prop} {trailing : α → Prop} {s : List α} {r : Segment α × Nat}
    (h : First code s r) (hc : Code code trailing) : 0 < r.2 := by
  apply Nat.pos_of_ne_zero
  intro hz
  cases h with
  | word hword =>
      simp only at hz
      rw [hz, List.take_zero] at hword
      exact hc.ne_nil hword
  | illFormed _ hmax =>
      simp only at hz
      exact hmax.ne_nil (by rw [hz, List.take_zero])

namespace Read

variable {code : List α → Prop} {trailing : α → Prop} {f : List α → Segment α × Nat} {s : List α}
variable {l : List (Segment α)}

theorem unique (h : Read f s l) {k : List (Segment α)} (hk : Read f s k) : k = l := by
  induction h generalizing k with
  | nil =>
      cases hk
      rfl
  | cons _ _ _ ih =>
      cases hk with
      | cons _ _ hk => rw [ih hk]

theorem exists_of_length_eq {g : List α → Segment α × Nat} (h : Read f s l)
    (hg : ∀ s, (g s).2 = (f s).2) : ∃ k, Read g s k := by
  induction h with
  | nil => exact ⟨[], .nil⟩
  | cons hpos hlen _ ih =>
      obtain ⟨k, hk⟩ := ih
      rw [← hg] at hpos hlen hk
      exact ⟨_, .cons hpos hlen hk⟩

theorem segments (hf : ∀ x s, First code (x :: s) (f (x :: s))) (h : Read f s l) :
    Segments code s l := by
  induction h with
  | nil => exact .nil
  | @cons x s l _ _ _ ih =>
      have hfirst := hf x s
      revert ih
      generalize f (x :: s) = r at hfirst
      cases hfirst with
      | word hw =>
          intro ih
          simpa using Segments.word hw ih
      | @illFormed n hn hmax =>
          intro ih
          have := Segments.illFormed hmax ih
          rwa [List.length_take_of_le hn, List.take_append_drop] at this

theorem segments_reverse (hc : Code code trailing) (hf : ∀ x s, Last code (x :: s) (f (x :: s)))
    (h : Read f s l) : Segments code s.reverse l.reverse := by
  induction h with
  | nil => exact .nil
  | @cons x s l _ _ _ ih =>
      have hlast := hf x s
      revert ih
      rw [List.reverse_cons (a := (f (x :: s)).1)]
      generalize f (x :: s) = r at hlast
      have hsplit : ∀ n, (x :: s).reverse = ((x :: s).drop n).reverse ++ ((x :: s).take n).reverse :=
        fun n => by rw [← List.reverse_append, List.take_append_drop]
      cases hlast with
      | @word n hw =>
          intro ih
          rw [hsplit n]
          refine ih.append hc (fun y w hy => ?_) (Segments.single_word hw)
          exact hc.first y w (hy ▸ hw)
      | @unfinished n hpos hn hi hw =>
          intro ih
          have hne : ((x :: s).take n).reverse ≠ [] := by
            rw [ne_eq, List.reverse_eq_nil_iff, ← List.length_eq_zero_iff, List.length_take]
            omega
          have hsingle := Segments.single_illFormed hc hne (.inl hi) hw
          rw [List.length_reverse, List.length_take_of_le hn] at hsingle
          rw [hsplit n]
          refine ih.append hc (fun y w hy => ?_) hsingle
          obtain ⟨t, ht⟩ := hi
          rw [hy] at ht
          exact hc.first y (w ++ t) ht
      | single hw hi =>
          intro ih
          rw [List.reverse_cons]
          refine ih.snoc hc (hw 1 (by omega) (by simp)) (fun u hu hus => ?_)
          obtain ⟨v, hv⟩ := hus
          have hlen : u.length + 1 ≤ (x :: s).length := by
            have := congrArg List.length hv
            simp only [List.length_append, List.length_reverse] at this ⊢
            simp only [List.length_cons] at this ⊢
            omega
          have hpos : 0 < u.length := List.length_pos_of_ne_nil hu
          have htake : ((x :: s).take (u.length + 1)).reverse = u ++ [x] := by
            have hs : s = u.reverse ++ v.reverse := by
              rw [← List.reverse_append, hv]
              simp
            rw [hs, List.take_succ_cons, List.take_left' (by simp), List.reverse_cons,
              List.reverse_reverse]
          exact htake ▸ hi (u.length + 1) (by omega) hlen

end Read

/-! ## Tables -/

section Table

def tableCode (val : α → Nat) (rows : List (List (Nat × Nat))) (s : List α) : Prop :=
  ∃ row ∈ rows, List.Forall₂ (fun r x => r.1 ≤ val x ∧ val x ≤ r.2) row s

variable {val : α → Nat} {rows : List (List (Nat × Nat))}

theorem exists_matching {row : List (Nat × Nat)}
    (hrow : ∀ r ∈ row, ∃ x, r.1 ≤ val x ∧ val x ≤ r.2) :
    ∃ t, List.Forall₂ (fun r x => r.1 ≤ val x ∧ val x ≤ r.2) row t := by
  induction row with
  | nil => exact ⟨[], .nil⟩
  | cons r row ih =>
      obtain ⟨x, hx⟩ := hrow r (by simp)
      obtain ⟨t, ht⟩ := ih fun r' hr' => hrow r' (List.mem_cons_of_mem r hr')
      exact ⟨x :: t, .cons hx ht⟩

theorem initial_tableCode (hrows : ∀ row ∈ rows, ∀ r ∈ row, ∃ x, r.1 ≤ val x ∧ val x ≤ r.2)
    {s : List α} : Initial (tableCode val rows) s ↔
      ∃ row ∈ rows, s.length ≤ row.length ∧
        List.Forall₂ (fun r x => r.1 ≤ val x ∧ val x ≤ r.2) (row.take s.length) s := by
  constructor
  · rintro ⟨t, row, hrow, h⟩
    refine ⟨row, hrow, by have := h.length_eq; rw [List.length_append] at this; omega, ?_⟩
    have := List.forall₂_take s.length h
    rwa [List.take_left] at this
  · rintro ⟨row, hrow, hlen, h⟩
    obtain ⟨t, ht⟩ := exists_matching fun r hr =>
      hrows row hrow r (List.mem_of_mem_drop (i := s.length) hr)
    refine ⟨t, row, hrow, ?_⟩
    simpa only [List.take_append_drop] using List.rel_append h ht

end Table

end SwiftKStdlib.Lib
