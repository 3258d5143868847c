import SwiftKStdlib.Lib.Fuel
import SwiftKStdlib.StringExtras.WordSegments

/-!
# Walking the words of a string

* `positioned` : words with the positions that they begin at;
* `words_forwards`, `reverseWords_backwards` : the loops over `getWords` give the words that the
  scanners read;
* `OneSegmentation` : the loops in both directions, `getFirstWord` and `getLastWord` agree.
-/

namespace SwiftKStdlib.StringExtras

open Lib

/-- The words one behind the other, from position `i` on. -/
def positioned (i : Nat) : List StringRef → List (Nat × StringRef)
  | [] => []
  | w :: ws => (i, w) :: positioned (i + w.length) ws

theorem map_snd_positioned (i : Nat) (ws : List StringRef) : (positioned i ws).map Prod.snd = ws := by
  induction ws generalizing i with
  | nil => rfl
  | cons w ws ih => rw [positioned, List.map_cons, ih]

theorem positioned_append (i : Nat) (ws vs : List StringRef) :
    positioned i (ws ++ vs) = positioned i ws ++ positioned (i + ws.flatten.length) vs := by
  induction ws generalizing i with
  | nil => rfl
  | cons w ws ih =>
      rw [List.cons_append, positioned, positioned, List.cons_append, ih, List.flatten_cons, List.length_append,
        Nat.add_assoc]

variable {s : StringRef} {i j : Nat} {ws : List StringRef}

theorem length_slice (hij : i ≤ j) (hj : j ≤ s.length) : (StringRef.slice s i j).length = j - i := by
  rw [StringRef.slice, List.length_take, List.length_drop]
  omega

theorem computeNextPosition_lt (h : computeNextPosition s i = some j) : j < 2 ^ 31 := by
  obtain ⟨_, _, h⟩ := Option.bind_eq_some_iff.1 h
  have hbits : ∀ x, bits31 x < 2 ^ 31 := fun x => Nat.mod_lt x (by decide)
  simp only at h
  split_ifs at h <;> exact Option.some.inj h ▸ hbits _

/-! ## Steps -/

section Steps

variable {it : WordIterator} {last first fuel : Nat} {rest : List (Nat × StringRef)}

theorem WordIterator.deref_eq (h : it.nextPosition = some j) :
    it.deref = some (it.String.slice it.Position j, { it with NextPosition := some j }) := by
  rw [WordIterator.deref, h]
  rfl

theorem WordIterator.next_eq (h : it.nextPosition = some j) :
    it.next = some { it with Position := j, NextPosition := none, PrevPosition := some (bits31 it.Position) } := by
  rw [WordIterator.next, h]
  rfl

theorem WordIterator.prev_eq (h : it.prevPosition = some i) :
    it.prev = some { it with Position := i, NextPosition := some (bits31 it.Position), PrevPosition := none } := by
  rw [WordIterator.prev, h]
  rfl

theorem words_step (hne : it.Position ≠ last) (h : it.nextPosition = some j)
    (hrest : words fuel { it with Position := j, NextPosition := none, PrevPosition := some (bits31 it.Position) } last
      = some rest) :
    words (fuel + 1) it last = some ((it.Position, it.String.slice it.Position j) :: rest) := by
  rw [words, if_neg hne, WordIterator.deref_eq h]
  simp only [Option.bind_eq_bind, Option.bind_some]
  rw [WordIterator.next_eq (j := j) rfl]
  simp only [Option.bind_some, hrest]
  rfl

theorem ReverseWordIterator.deref_eq (h : it.prevPosition = some i) :
    ReverseWordIterator.deref ⟨it⟩ = some (it.String.slice i (bits31 it.Position)) := by
  rw [ReverseWordIterator.deref, WordIterator.prev_eq h]
  rfl

theorem ReverseWordIterator.next_eq (h : it.prevPosition = some i) :
    ReverseWordIterator.next ⟨it⟩
      = some ⟨{ it with Position := i, NextPosition := some (bits31 it.Position), PrevPosition := none }⟩ := by
  rw [ReverseWordIterator.next, WordIterator.prev_eq h]
  rfl

theorem reverseWords_step (hne : it.Position ≠ first) (h : it.prevPosition = some i)
    (hrest : reverseWords fuel
      ⟨{ it with Position := i, NextPosition := some (bits31 it.Position), PrevPosition := none }⟩ first = some rest) :
    reverseWords (fuel + 1) ⟨it⟩ first = some ((i, it.String.slice i (bits31 it.Position)) :: rest) := by
  rw [reverseWords, if_neg hne, ReverseWordIterator.deref_eq h, ReverseWordIterator.next_eq h]
  simp only [Option.bind_eq_bind, Option.bind_some, hrest]
  rfl

end Steps

theorem words_forwards (h : Forwards (computeNextPosition s) s i ws) (prev : Option Nat) {fuel : Nat}
    (hfuel : ws.length < fuel) : words fuel ⟨s, i, none, prev⟩ s.length = some (positioned i ws) := by
  induction h generalizing fuel prev with
  | done =>
      obtain ⟨fuel, rfl⟩ := Nat.exists_eq_add_one.2 (Nat.zero_lt_of_lt hfuel)
      simp [words, positioned]
  | @step i j ws hnext hi hij hrest ih =>
      obtain ⟨fuel, rfl⟩ := Nat.exists_eq_add_one.2 (Nat.zero_lt_of_lt hfuel)
      rw [List.length_cons, Nat.add_lt_add_iff_right] at hfuel
      have hword : (s.drop i).take (j - i) = StringRef.slice s i j := rfl
      have hsum : i + (StringRef.slice s i j).length = j := by
        rw [length_slice hij.le hrest.le]
        omega
      rw [hword, positioned, hsum]
      exact @words_step _ ⟨s, i, none, prev⟩ _ _ _ hi.ne hnext (ih _ hfuel)

theorem reverseWords_backwards (hlen : s.length < 2 ^ 31) (h : Backwards (computePrevPosition s) s j ws)
    (next : Option Nat) {fuel : Nat} (hfuel : ws.length < fuel) :
    reverseWords fuel ⟨⟨s, j, next, none⟩⟩ 0 = some (positioned 0 ws).reverse := by
  induction h generalizing fuel next with
  | done =>
      obtain ⟨fuel, rfl⟩ := Nat.exists_eq_add_one.2 (Nat.zero_lt_of_lt hfuel)
      simp [reverseWords, positioned]
  | @step i j ws hprev hij hj hrest ih =>
      obtain ⟨fuel, rfl⟩ := Nat.exists_eq_add_one.2 (Nat.zero_lt_of_lt hfuel)
      rw [List.length_append, List.length_singleton, Nat.add_lt_add_iff_right] at hfuel
      have hword : (s.drop i).take (j - i) = StringRef.slice s i j := rfl
      have hsum : 0 + ws.flatten.length = i := by
        rw [hrest.flatten, List.length_take_of_le (by omega), Nat.zero_add]
      rw [hword, positioned_append, positioned, positioned, List.reverse_append, hsum]
      have hstep := @reverseWords_step _ ⟨s, j, next, none⟩ _ _ _ (Nat.ne_of_gt (Nat.zero_lt_of_lt hij)) hprev
        (ih _ hfuel)
      rwa [show bits31 j = j from bits31_eq (by omega)] at hstep

/-! ## One segmentation -/

/-- Both loops end, at the ends of the string, with the words `ws`; so do `getFirstWord` and
`getLastWord`. -/
structure OneSegmentation (string : StringRef) (ws : List (Nat × StringRef)) : Prop where
  walks : ∃ first last, wordIterator string 0 = some first ∧ wordIterator string string.length = some last ∧
    last.Position = string.length ∧
    Settles (fun fuel => words fuel first last.Position) ws ∧
    Settles (fun fuel => reverseWords fuel ⟨last⟩ first.Position) ws.reverse
  firstWord : getFirstWord string = ws.head?.map Prod.snd
  lastWord : getLastWord string = ws.getLast?.map Prod.snd

theorem wordIterator_eq (h : s ≠ []) (i : Nat) : wordIterator s i = some ⟨s, unsigned i, none, none⟩ := by
  cases s with
  | nil => exact absurd rfl h
  | cons c s => rfl

theorem last_lt_of_words {fuel : Nat} {first last : Nat} {prev : Option Nat} {ws : List (Nat × StringRef)}
    (h : words fuel ⟨s, first, none, prev⟩ last = some ws) (hne : first ≠ last) : last < 2 ^ 31 := by
  induction fuel generalizing first prev ws with
  | zero => cases h
  | succ fuel ih =>
      rw [words, if_neg hne] at h
      obtain ⟨⟨word, it⟩, hderef, h⟩ := Option.bind_eq_some_iff.1 h
      obtain ⟨j, hj, hderef⟩ := Option.bind_eq_some_iff.1 hderef
      cases hderef
      obtain ⟨it, hit, h⟩ := Option.bind_eq_some_iff.1 h
      obtain ⟨rest, hrest, _⟩ := Option.bind_eq_some_iff.1 h
      cases hit
      have hlt : j < 2 ^ 31 := computeNextPosition_lt hj
      by_cases hlast : j = last
      · exact hlast ▸ hlt
      · exact ih hrest hlast

theorem getFirstWord_eq (h : Forwards (computeNextPosition s) s 0 ws) (hne : s ≠ []) :
    getFirstWord s = ws.head? := by
  have hpos := List.length_pos_of_ne_nil hne
  have hempty : ¬ s.isEmpty = true := by simpa using hne
  rw [getFirstWord, if_neg hempty, wordIterator_eq hne]
  generalize hi : 0 = i at h
  cases h with
  | done => exact absurd hi hpos.ne
  | @step _ j _ hnext =>
      subst hi
      have hit : (⟨s, unsigned 0, none, none⟩ : WordIterator).nextPosition = some j := hnext
      simp only [Option.bind_eq_bind, Option.bind_some, WordIterator.deref_eq hit]
      rfl

theorem getLastWord_eq (h : Backwards (computePrevPosition s) s s.length ws) (hne : s ≠ [])
    (hlen : s.length < 2 ^ 31) : getLastWord s = ws.getLast? := by
  have hpos := List.length_pos_of_ne_nil hne
  have hempty : ¬ s.isEmpty = true := by simpa using hne
  rw [getLastWord, if_neg hempty, wordIterator_eq hne, unsigned_eq (by omega)]
  generalize hi : s.length = i at h
  cases h with
  | done => exact absurd hi.symm hpos.ne
  | @step i j _ hprev =>
      subst hi
      have hit : (⟨s, s.length, none, none⟩ : WordIterator).prevPosition = some i := hprev
      simp only [Option.bind_eq_bind, Option.bind_some, WordIterator.prev_eq hit]
      rw [WordIterator.deref_eq (j := bits31 s.length) rfl, bits31_eq hlen, List.getLast?_concat]
      rfl

theorem flatMap_forward_eq_backward_iff (s : StringRef) :
    (blocks s).flatMap Block.forward = (blocks s).flatMap Block.backward ↔ ∀ b ∈ blocks s, b.Uniform := by
  have hiff := flatMap_eq_flatMap_iff (f := Block.forward) (g := Block.backward) (blocks s)
    (fun b _ => b.flatten_forward.trans b.flatten_backward.symm) (fun b _ w hw => ne_nil_of_mem_nonEmpty hw)
    (fun b _ w hw => ne_nil_of_mem_nonEmpty hw)
  simp only [hiff, Block.forward_eq_backward_iff]

theorem settles_walks (h : s.length < 2 ^ 31) :
    Settles (fun fuel => words fuel ⟨s, 0, none, none⟩ s.length) (positioned 0 ((blocks s).flatMap Block.forward)) ∧
    Settles (fun fuel => reverseWords fuel ⟨⟨s, s.length, none, none⟩⟩ 0)
      (positioned 0 ((blocks s).flatMap Block.backward)).reverse := by
  have hforwards := forwards_drop s h (Nat.zero_le _)
  have hbackwards := backwards_take s h (Nat.le_refl _)
  rw [List.drop_zero] at hforwards
  rw [List.take_length] at hbackwards
  exact ⟨⟨_, fun fuel hfuel => words_forwards hforwards none hfuel⟩,
    ⟨_, fun fuel hfuel => reverseWords_backwards h hbackwards none hfuel⟩⟩

theorem OneSegmentation.forward_eq_backward {ws : List (Nat × StringRef)} (h : OneSegmentation s ws) (hne : s ≠ []) :
    s.length < 2 ^ 31 ∧ (blocks s).flatMap Block.forward = (blocks s).flatMap Block.backward := by
  obtain ⟨first, last, hfirst, hlast, hend, hwords, hreverse⟩ := h.walks
  rw [wordIterator_eq hne] at hfirst hlast
  cases hfirst
  cases hlast
  simp only [show unsigned 0 = 0 from rfl] at hend hwords hreverse
  rw [hend] at hwords hreverse
  obtain ⟨fuel, hfuel⟩ := hwords.result
  have hlen := last_lt_of_words hfuel (List.length_pos_of_ne_nil hne).ne
  have hforward := hwords.unique (settles_walks hlen).1
  have hbackward := List.reverse_injective (hreverse.unique (settles_walks hlen).2)
  rw [← map_snd_positioned 0 (List.flatMap _ _), ← hforward, hbackward, map_snd_positioned]
  exact ⟨hlen, rfl⟩

/-- Both directions give the words of one segmentation exactly where the positions fit the bit-fields
and all blocks are uniform. -/
theorem oneSegmentation_iff (string : StringRef) (h : string ≠ []) :
    (∃ ws, OneSegmentation string ws) ↔ string.length < 2 ^ 31 ∧ ∀ b ∈ blocks string, b.Uniform := by
  rw [← flatMap_forward_eq_backward_iff]
  constructor
  · rintro ⟨ws, hws⟩
    exact hws.forward_eq_backward h
  · rintro ⟨hlen, heq⟩
    refine ⟨positioned 0 ((blocks string).flatMap Block.forward), ⟨?_, ?_, ?_⟩⟩
    · refine ⟨_, _, wordIterator_eq h 0, wordIterator_eq h string.length, unsigned_eq (by omega), ?_⟩
      simp only [unsigned_eq (show string.length < 2 ^ 32 by omega)]
      exact ⟨(settles_walks hlen).1, heq ▸ (settles_walks hlen).2⟩
    · have hforwards := forwards_drop string hlen (Nat.zero_le _)
      rw [getFirstWord_eq hforwards h, ← List.head?_map, map_snd_positioned, List.drop_zero]
    · have hbackwards := backwards_take string hlen (Nat.le_refl _)
      rw [getLastWord_eq hbackwards h hlen, ← List.getLast?_map, map_snd_positioned, heq, List.take_length]

theorem oneSegmentation_iff_fooURLs :
    literal "fooURLs" ≠ [] ∧ ((∃ ws, OneSegmentation (literal "fooURLs") ws) ↔
      (literal "fooURLs").length < 2 ^ 31 ∧ ∀ b ∈ blocks (literal "fooURLs"), b.Uniform) := by
  have h : literal "fooURLs" ≠ [] := by decide
  exact ⟨h, oneSegmentation_iff _ h⟩

/-- "URLIsFile" is URL, Is and File forwards, and URLIs and File backwards. -/
theorem not_oneSegmentation_urlIsFile :
    literal "URLIsFile" ≠ [] ∧ ¬ ∃ ws, OneSegmentation (literal "URLIsFile") ws := by
  have hne : literal "URLIsFile" ≠ [] := by decide
  refine ⟨hne, ?_⟩
  rintro ⟨ws, hws⟩
  exact absurd (hws.forward_eq_backward hne).2 (by decide)

end SwiftKStdlib.StringExtras
