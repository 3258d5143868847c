import Mathlib.Tactic

/-!
# Loops in programs that may fail

* `Returns x P` : the program `x` does not fail, and what it returns has `P`;
* `iterate` : a loop, with fuel for its iterations;
* `Returns.iterate` : a loop with an invariant and a measure comes to an end;
* `iterate_induct` : what a loop returns when it returns;
* `iterateReporting` : a loop with what its iterations report.
-/

namespace SwiftKStdlib.Lib

universe u

variable {α β σ : Type u}

/-! ## Programs that return -/

/-- The program returns a value with `P`. -/
def Returns (x : Option α) (P : α → Prop) : Prop := ∃ a, x = some a ∧ P a

namespace Returns

variable {x : Option α} {P P' : α → Prop} {Q : β → Prop}

theorem pure {a : α} (h : P a) : Returns (some a) P := ⟨a, rfl, h⟩

theorem mono (h : Returns x P) (hP : ∀ a, P a → P' a) : Returns x P' := by
  obtain ⟨a, hx, ha⟩ := h
  exact ⟨a, hx, hP a ha⟩

theorem bind {f : α → Option β} (h : Returns x P) (hf : ∀ a, P a → Returns (f a) Q) : Returns (x >>= f) Q := by
  obtain ⟨a, rfl, ha⟩ := h
  exact hf a ha

theorem map {f : α → β} (h : Returns x P) (hf : ∀ a, P a → Q (f a)) : Returns (x.map f) Q := by
  obtain ⟨a, rfl, ha⟩ := h
  exact ⟨f a, rfl, hf a ha⟩

theorem and (h : Returns x P) (h' : Returns x P') : Returns x fun a => P a ∧ P' a := by
  obtain ⟨a, rfl, ha⟩ := h
  obtain ⟨b, hb, hb'⟩ := h'
  cases hb
  exact ⟨a, rfl, ha, hb'⟩

theorem of_eq (h : Returns x P) (hP : ∀ a, x = some a → P' a) : Returns x fun a => P a ∧ P' a := by
  obtain ⟨a, rfl, ha⟩ := h
  exact ⟨a, rfl, ha, hP a rfl⟩

theorem ite {c : Prop} [Decidable c] {y : Option α} (hx : c → Returns x P) (hy : ¬ c → Returns y P) :
    Returns (if c then x else y) P := by
  by_cases h : c
  · rw [if_pos h]
    exact hx h
  · rw [if_neg h]
    exact hy h

end Returns

/-! ## Loops -/

inductive Step (σ α : Type u) where
  | next (s : σ)
  | done (a : α)

abbrev Step.All (next : σ → Prop) (done : α → Prop) : Step σ α → Prop
  | .next s => next s
  | .done a => done a

/-- The loop with this body, for as many iterations as there is fuel. -/
def iterate (body : σ → Option (Step σ α)) : Nat → σ → Option α
  | 0, _ => none
  | fuel + 1, s => do
    match ← body s with
    | .next s => iterate body fuel s
    | .done a => return a

variable {body : σ → Option (Step σ α)} {fuel : Nat} {s s' : σ} {a : α}

theorem iterate_next (h : body s = some (.next s')) : iterate body (fuel + 1) s = iterate body fuel s' := by
  rw [iterate, h]
  rfl

theorem iterate_done (h : body s = some (.done a)) : iterate body (fuel + 1) s = some a := by
  rw [iterate, h]
  rfl

theorem iterate_none (h : body s = none) : iterate body fuel s = none := by
  cases fuel with
  | zero => rfl
  | succ fuel =>
      rw [iterate, h]
      rfl

theorem iterate_of_next (h : body s = some (.next s')) (hr : iterate body fuel s = some a) :
    ∃ fuel', iterate body fuel' s' = some a := by
  cases fuel with
  | zero => exact absurd hr.symm (Option.some_ne_none a)
  | succ fuel => exact ⟨fuel, (iterate_next h).symm.trans hr⟩

theorem iterate_unique {fuel' : Nat} {b : α} (ha : iterate body fuel s = some a) (hb : iterate body fuel' s = some b) :
    a = b := by
  induction fuel generalizing s fuel' with
  | zero => exact absurd ha.symm (Option.some_ne_none a)
  | succ fuel ih =>
      cases fuel' with
      | zero => exact absurd hb.symm (Option.some_ne_none b)
      | succ fuel' =>
          obtain ⟨step, hstep, hrest⟩ := Option.bind_eq_some_iff.1 ha
          cases step with
          | next s' =>
              rw [iterate_next hstep] at hb
              exact ih hrest hb
          | done c =>
              rw [iterate_done hstep] at hb
              exact Option.some.inj (hrest.symm.trans hb)

inductive Visits (body : σ → Option (Step σ α)) (s : σ) : σ → Prop
  | refl : Visits body s s
  | next {s' s'' : σ} (h : Visits body s s') (hstep : body s' = some (.next s'')) : Visits body s s''

theorem Visits.iterate (h : Visits body s s') (hr : iterate body fuel s = some a) :
    ∃ fuel', iterate body fuel' s' = some a := by
  induction h with
  | refl => exact ⟨fuel, hr⟩
  | next _ hstep ih =>
      obtain ⟨fuel', hfuel'⟩ := ih
      exact iterate_of_next hstep hfuel'

theorem Returns.iterate {P : α → Prop} (measure : σ → Nat) (Inv : σ → Prop)
    (hbody : ∀ s, Inv s → Returns (body s) (Step.All (fun s' => Inv s' ∧ measure s' < measure s) P))
    (hs : Inv s) (hfuel : measure s < fuel) : Returns (iterate body fuel s) P := by
  induction fuel generalizing s with
  | zero => exact absurd hfuel (Nat.not_lt_zero _)
  | succ fuel ih =>
      obtain ⟨step, hstep, h⟩ := hbody s hs
      cases step with
      | next s' =>
          rw [iterate_next hstep]
          exact ih h.1 (by omega)
      | done a =>
          rw [iterate_done hstep]
          exact .pure h

theorem iterate_induct {P : α → Prop} (Inv : σ → Prop) (hnext : ∀ s s', Inv s → body s = some (.next s') → Inv s')
    (hdone : ∀ s a, Inv s → body s = some (.done a) → P a) (hs : Inv s) (h : iterate body fuel s = some a) : P a := by
  induction fuel generalizing s with
  | zero => exact absurd h.symm (Option.some_ne_none a)
  | succ fuel ih =>
      obtain ⟨step, hstep, hrest⟩ := Option.bind_eq_some_iff.1 h
      cases step with
      | next s' => exact ih (hnext s s' hs hstep) hrest
      | done b => exact Option.some.inj hrest ▸ hdone s b hs hstep

theorem exists_visits_done (h : iterate body fuel s = some a) : ∃ s', Visits body s s' ∧ body s' = some (.done a) :=
  iterate_induct (P := fun a => ∃ s', Visits body s s' ∧ body s' = some (.done a)) (Visits body s)
    (fun _ _ hvisits hstep => hvisits.next hstep) (fun s' _ hvisits hstep => ⟨s', hvisits, hstep⟩) .refl h

/-! ## Reports -/

variable {δ : Type u} {report : σ → Option (List δ)} {reports : List δ}

/-- The loop, with what the iterations report from the states they begin in. -/
def iterateReporting (body : σ → Option (Step σ α)) (report : σ → Option (List δ)) : Nat → σ → Option (α × List δ)
  | 0, _ => none
  | fuel + 1, s => do
    let reports ← report s
    match ← body s with
    | .next s => (iterateReporting body report fuel s).map fun r => (r.1, reports ++ r.2)
    | .done a => return (a, reports)

theorem iterateReporting_next (hr : report s = some reports) (h : body s = some (.next s')) :
    iterateReporting body report (fuel + 1) s =
      (iterateReporting body report fuel s').map fun r => (r.1, reports ++ r.2) := by
  rw [iterateReporting, hr, h]
  rfl

theorem iterateReporting_done (hr : report s = some reports) (h : body s = some (.done a)) :
    iterateReporting body report (fuel + 1) s = some (a, reports) := by
  rw [iterateReporting, hr, h]
  rfl

theorem iterate_of_reporting (h : iterateReporting body report fuel s = some (a, reports)) :
    iterate body fuel s = some a := by
  induction fuel generalizing s reports with
  | zero => cases h
  | succ fuel ih =>
      obtain ⟨reports', -, h⟩ := Option.bind_eq_some_iff.1 h
      obtain ⟨step, hstep, h⟩ := Option.bind_eq_some_iff.1 h
      cases step with
      | next s' =>
          obtain ⟨⟨a', reports''⟩, hrest, heq⟩ := Option.map_eq_some_iff.1 h
          obtain ⟨rfl, -⟩ := Prod.mk.inj heq
          rw [iterate_next hstep]
          exact ih hrest
      | done a' =>
          obtain ⟨rfl, -⟩ := Prod.mk.inj (Option.some.inj h)
          exact iterate_done hstep

theorem exists_visits_silent (h : iterateReporting body report fuel s = some (a, [])) :
    ∃ s', Visits body s s' ∧ body s' = some (.done a) ∧ report s' = some [] := by
  have hfrom : ∀ {s1}, Visits body s s1 → iterateReporting body report fuel s1 = some (a, []) →
      ∃ s', Visits body s s' ∧ body s' = some (.done a) ∧ report s' = some [] := by
    clear h
    induction fuel with
    | zero => exact fun _ h => by cases h
    | succ fuel ih =>
        intro s1 hvisits h
        obtain ⟨reports', hr, h⟩ := Option.bind_eq_some_iff.1 h
        obtain ⟨step, hstep, h⟩ := Option.bind_eq_some_iff.1 h
        cases step with
        | next s2 =>
            obtain ⟨⟨a', reports''⟩, hrest, heq⟩ := Option.map_eq_some_iff.1 h
            obtain ⟨rfl, hnil⟩ := Prod.mk.inj heq
            obtain ⟨-, rfl⟩ := List.append_eq_nil_iff.1 hnil
            exact ih (hvisits.next hstep) hrest
        | done a' =>
            obtain ⟨rfl, rfl⟩ := Prod.mk.inj (Option.some.inj h)
            exact ⟨s1, hvisits, hstep, hr⟩
  exact hfrom .refl h

end SwiftKStdlib.Lib
