import Mathlib.Computability.StateTransition
import SwiftKStdlib.Lib.Loop

/-!
# Nesting

* `Move` : what a scanner does at a position, in the context that it is in;
* `Nested next c p q` : what stands from `p` to `q` in the context `c` is balanced: every context that is opened there
  is closed there;
* `stackStep` : the scanner with the stack of its contexts;
* `nested_iff_reaches` : the stack machine comes back to the context over the balanced texts.
-/

namespace SwiftKStdlib.Lib

open StateTransition

universe u

inductive Move (C P : Type u) where
  | move (p : P)
  | opens (c : C) (p : P)
  | closes (p : P)
  | stop

variable {C P : Type u} (next : C → P → Move C P)

inductive Nested : C → P → P → Prop where
  | nil {c : C} {p : P} : Nested c p p
  | move {c : C} {p m q : P} (h : next c p = .move m) (rest : Nested c m q) : Nested c p q
  | nest {c d : C} {p p' m m' q : P} (hopen : next c p = .opens d p') (body : Nested d p' m)
      (hclose : next d m = .closes m') (rest : Nested c m' q) : Nested c p q

/-- The innermost context is the first one; the machine does not close the last one. -/
def stackStep : List C × P → Option (List C × P)
  | ([], _) => none
  | (c :: stack, p) =>
    match next c p with
    | .move m => some (c :: stack, m)
    | .opens d m => some (d :: c :: stack, m)
    | .closes m => if stack = [] then none else some (stack, m)
    | .stop => none

variable {next} {c d : C} {p q m : P} {stack : List C}

theorem stackStep_move (h : next c p = .move m) : stackStep next (c :: stack, p) = some (c :: stack, m) := by
  simp only [stackStep, h]

theorem stackStep_opens (h : next c p = .opens d m) : stackStep next (c :: stack, p) = some (d :: c :: stack, m) := by
  simp only [stackStep, h]

theorem stackStep_closes (h : next d p = .closes m) : stackStep next (d :: c :: stack, p) = some (c :: stack, m) := by
  simp only [stackStep, h, if_neg (List.cons_ne_nil c stack)]

theorem stackStep_last (h : next c p = .closes m) : stackStep next ([c], p) = none := by
  simp only [stackStep, h, if_true]

theorem Nested.reaches (h : Nested next c p q) (stack : List C) :
    Reaches (stackStep next) (c :: stack, p) (c :: stack, q) := by
  induction h generalizing stack with
  | nil => exact .refl
  | move h _ ih => exact .head (stackStep_move h) (ih stack)
  | @nest c d p p' m m' q hopen _ hclose _ ihbody ihrest =>
      have hinside := (ihbody (c :: stack)).trans (.head (stackStep_closes hclose) (ihrest stack))
      exact .head (stackStep_opens hopen) hinside

def Stops (next : C → P → Move C P) (s : List C × P) : Prop := ∃ c stack p, s = (c :: stack, p) ∧ next c p = .stop

theorem Stops.stackStep {s : List C × P} (h : Stops next s) : stackStep next s = none := by
  obtain ⟨c, stack, p, rfl, hstop⟩ := h
  simp only [Lib.stackStep, hstop]

variable (next) in
/-- The contexts of the stack are closed one after another, until the last one, where the text is balanced up to `q`. -/
def Unwinds : List C → P → C → P → Prop
  | [], _, _, _ => False
  | [c], p, d, q => c = d ∧ Nested next c p q
  | c :: e :: stack, p, d, q => ∃ m m', Nested next c p m ∧ next c m = .closes m' ∧ Unwinds (e :: stack) m' d q

theorem Unwinds.move (h : next c p = .move m) (hrest : Unwinds next (c :: stack) m d q) :
    Unwinds next (c :: stack) p d q := by
  cases stack with
  | nil => exact ⟨hrest.1, .move h hrest.2⟩
  | cons e stack =>
      obtain ⟨r, r', hbody, hclose, hrest⟩ := hrest
      exact ⟨r, r', .move h hbody, hclose, hrest⟩

theorem Unwinds.nest {e : C} (h : next c p = .opens e m) (hrest : Unwinds next (e :: c :: stack) m d q) :
    Unwinds next (c :: stack) p d q := by
  obtain ⟨r, r', hbody, hclose, hrest⟩ := hrest
  cases stack with
  | nil => exact ⟨hrest.1, .nest h hbody hclose hrest.2⟩
  | cons e' stack =>
      obtain ⟨t, t', hbody', hclose', hrest⟩ := hrest
      exact ⟨t, t', .nest h hbody hclose hbody', hclose', hrest⟩

theorem unwinds_of_reaches {s : List C × P} (h : Reaches (stackStep next) s ([d], q)) : Unwinds next s.1 s.2 d q := by
  induction h using Relation.ReflTransGen.head_induction_on with
  | refl => exact ⟨rfl, .nil⟩
  | @head s s' hstep _ ih =>
      obtain ⟨stack, p⟩ := s
      cases stack with
      | nil => cases hstep
      | cons c stack =>
          cases hnext : next c p with
          | move m =>
              obtain rfl := Option.some.inj ((stackStep_move hnext).symm.trans hstep)
              exact ih.move hnext
          | opens e m =>
              obtain rfl := Option.some.inj ((stackStep_opens hnext).symm.trans hstep)
              exact ih.nest hnext
          | closes m =>
              cases stack with
              | nil => cases (stackStep_last hnext).symm.trans hstep
              | cons e stack =>
                  obtain rfl := Option.some.inj ((stackStep_closes hnext).symm.trans hstep)
                  exact ⟨p, m, .nil, hnext, ih⟩
          | stop =>
              simp only [stackStep, hnext] at hstep
              cases hstep

theorem nested_iff_reaches : Nested next c p q ↔ Reaches (stackStep next) ([c], p) ([c], q) :=
  ⟨fun h => h.reaches [], fun h => (unwinds_of_reaches h).2⟩

theorem Nested.not_stops {s : List C × P} (h : Nested next c p q) (hclose : next c q = .closes m)
    (hs : Reaches (stackStep next) ([c], p) s) : ¬ Stops next s := by
  intro hstops
  have hq := mem_eval.2 ⟨h.reaches [], stackStep_last hclose⟩
  have hs' := mem_eval.2 ⟨hs, hstops.stackStep⟩
  obtain ⟨d, stack, r, rfl, hstop⟩ := hstops
  obtain ⟨hd, rfl⟩ := Prod.mk.inj (Part.mem_unique hq hs')
  obtain ⟨rfl, -⟩ := List.cons.inj hd
  rw [hclose] at hstop
  cases hstop

theorem Nested.unique {q' m' : P} (h : Nested next c p q) (hclose : next c q = .closes m) (h' : Nested next c p q')
    (hclose' : next c q' = .closes m') : q = q' := by
  have hq := mem_eval.2 ⟨h.reaches [], stackStep_last hclose⟩
  have hq' := mem_eval.2 ⟨h'.reaches [], stackStep_last hclose'⟩
  exact congrArg Prod.snd (Part.mem_unique hq hq')

end SwiftKStdlib.Lib
