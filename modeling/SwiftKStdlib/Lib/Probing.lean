import SwiftKStdlib.Lib.Loop
import Mathlib.Data.List.Perm.Basic
import Mathlib.Logic.Function.Basic

/-!
# Open addressing on a ring

* `next`, `prev`, `dist` : the ring of `n` buckets;
* `whileLoop` : a loop over buckets; `walk_next`, `walk_prev` : what it walks over;
* `elements` : the entries of a table, in the order of their buckets;
* `Probed` : no hole between the home of an entry and its bucket; `Probed.insert`;
* `Chain` : the buckets around a new hole; `Chain.move`, `Chain.probed` : how the hole is filled.
-/

namespace SwiftKStdlib.Lib.Probing

/-! ## The ring -/

section Ring

variable (n : Nat)

def next (b : Nat) : Nat := if b + 1 < n then b + 1 else 0

def prev (b : Nat) : Nat := if b = 0 then n - 1 else b - 1

/-- The steps from `a` to `b`. -/
def dist (a b : Nat) : Nat := if a ≤ b then b - a else b + n - a

variable {n} {a b c : Nat}

theorem next_lt (hn : 0 < n) (b : Nat) : next n b < n := by
  unfold next
  split_ifs <;> omega

theorem prev_lt (hb : b < n) : prev n b < n := by
  unfold prev
  split_ifs <;> omega

theorem dist_of_le (h : a ≤ b) : dist n a b = b - a := if_pos h

theorem dist_of_lt (h : b < a) : dist n a b = b + n - a := if_neg (Nat.not_le_of_lt h)

theorem le_of_dist_le (hc : c < n) (hac : a ≤ c) (h : dist n a b ≤ dist n a c) : a ≤ b := by
  by_contra hlt
  rw [dist_of_le hac, dist_of_lt (Nat.lt_of_not_le hlt)] at h
  omega

theorem dist_lt (ha : a < n) (hb : b < n) : dist n a b < n := by
  unfold dist
  split_ifs <;> omega

@[simp] theorem dist_self (a : Nat) : dist n a a = 0 := by
  unfold dist
  rw [if_pos (Nat.le_refl a), Nat.sub_self]

theorem dist_inj (hc : c < n) (ha : a < n) (hb : b < n) (h : dist n c a = dist n c b) : a = b := by
  unfold dist at h
  split_ifs at h <;> omega

theorem next_prev (hb : b < n) : next n (prev n b) = b := by
  unfold prev
  split_ifs with hzero
  · rw [next, if_neg (by omega), hzero]
  · rw [next, if_pos (by omega)]
    omega

theorem prev_next (hb : b < n) : prev n (next n b) = b := by
  unfold next
  split_ifs with hlt
  · rw [prev, if_neg (by omega), Nat.add_sub_cancel]
  · rw [prev, if_pos rfl]
    omega

theorem dist_next (ha : a < n) (hb : b < n) (hne : next n b ≠ a) : dist n a (next n b) = dist n a b + 1 := by
  unfold dist next at *
  split_ifs at * <;> omega

theorem next_ne_start (ha : a < n) (hb : b < n) (h : dist n a b + 1 < n) : next n b ≠ a := by
  unfold dist at h
  unfold next
  split_ifs at h ⊢ <;> omega

theorem dist_prev (ha : a < n) (hb : b < n) (hne : prev n b ≠ a) : dist n (prev n b) a = dist n b a + 1 := by
  unfold dist prev at *
  split_ifs at * <;> omega

theorem dist_to_prev (ha : a < n) (hb : b < n) (hne : b ≠ a) : dist n a (prev n b) + 1 = dist n a b := by
  unfold dist prev
  split_ifs <;> omega

theorem dist_from_next (ha : a < n) (hb : b < n) (hne : a ≠ b) : dist n (next n a) b + 1 = dist n a b := by
  unfold dist next
  split_ifs <;> omega

theorem dist_rotate (hc : c < n) (ha : a < n) (hb : b < n) :
    dist n a b = dist n (dist n c a) (dist n c b) := by
  unfold dist
  split_ifs <;> omega

theorem dist_prev_self (ha : a < n) : dist n a (prev n a) = n - 1 := by
  unfold dist prev
  split_ifs <;> omega

theorem next_ne (ha : a < n) (hb : b < n) (hc : c < n) (hlt : dist n a b < dist n a c) : next n b ≠ a := by
  unfold dist next at *
  split_ifs at * <;> omega

theorem prev_ne (ha : a < n) (hb : b < n) (hc : c < n) (hlt : dist n b a < dist n c a) : prev n b ≠ a := by
  unfold dist prev at *
  split_ifs at * <;> omega

end Ring

/-! ## Walking -/

/-- `while cond b { b = step b }`. -/
def whileLoop (cond : Nat → Bool) (step : Nat → Nat) : Nat → Nat → Option Nat
  | 0, _ => none
  | fuel + 1, b => if cond b then whileLoop cond step fuel (step b) else some b

section Walk

variable {n : Nat} {cond : Nat → Bool} {step : Nat → Nat} {s c₀ : Nat}

theorem whileLoop_returns (cond : Nat → Bool) (step : Nat → Nat) (fuel b : Nat) (I : Nat → Prop) (measure : Nat → Nat)
    (hstep : ∀ b, I b → cond b = true → I (step b) ∧ measure (step b) < measure b) (hb : I b)
    (hfuel : measure b < fuel) : Returns (whileLoop cond step fuel b) fun r => I r ∧ cond r = false := by
  induction fuel generalizing b with
  | zero => exact absurd hfuel (Nat.not_lt_zero _)
  | succ fuel ih =>
    rw [whileLoop]
    split_ifs with hcond
    · obtain ⟨hI, hlt⟩ := hstep b hb hcond
      exact ih _ hI (by omega)
    · exact .pure ⟨hb, Bool.eq_false_iff.2 hcond⟩

theorem whileLoop_none (cond : Nat → Bool) (step : Nat → Nat) (fuel : Nat) {b : Nat} (I : Nat → Prop)
    (hstep : ∀ b, I b → cond b = true ∧ I (step b)) (hb : I b) :
    whileLoop cond step fuel b = none := by
  induction fuel generalizing b with
  | zero => rfl
  | succ fuel ih =>
    obtain ⟨hcond, hnext⟩ := hstep b hb
    rw [whileLoop, if_pos hcond]
    exact ih hnext

theorem whileLoop_map (cond : Nat → Bool) (step : Nat → Nat) (fuel : Nat) {b : Nat} (I : Nat → Prop)
    (f step' : Nat → Nat) (hstep : ∀ b, I b → step (f b) = f (step' b) ∧ I (step' b)) (hb : I b) :
    whileLoop cond step fuel (f b) = (whileLoop (fun b => cond (f b)) step' fuel b).map f := by
  induction fuel generalizing b with
  | zero => rfl
  | succ fuel ih =>
    obtain ⟨heq, hnext⟩ := hstep b hb
    rw [whileLoop, whileLoop, heq]
    split_ifs
    · exact ih hnext
    · rfl

theorem whileLoop_false {fuel b r : Nat} (h : whileLoop cond step fuel b = some r) : cond r = false := by
  induction fuel generalizing b with
  | zero => exact absurd h.symm (Option.some_ne_none r)
  | succ fuel ih =>
    rw [whileLoop] at h
    split_ifs at h with hcond
    · exact ih h
    · rw [← Option.some.inj h]
      exact Bool.eq_false_iff.2 hcond

theorem walk_next (cond : Nat → Bool) (step : Nat → Nat) (hstep : ∀ b < n, step b = next n b) (hs : s < n) (hc₀ : c₀ < n) (hstop : cond c₀ = false)
    {fuel : Nat} (hfuel : dist n s c₀ < fuel) :
    Returns (whileLoop cond step fuel s) fun r => r < n ∧ cond r = false ∧ dist n s r ≤ dist n s c₀ ∧
      ∀ c < n, dist n s c < dist n s r → cond c = true := by
  have hloop := whileLoop_returns cond step fuel s
    (fun b => b < n ∧ dist n s b ≤ dist n s c₀ ∧ ∀ c < n, dist n s c < dist n s b → cond c = true)
    (fun b => dist n s c₀ - dist n s b) (fun b ⟨hb, hle, hwalked⟩ hcond => ?_)
    ⟨hs, by simp, fun c _ hlt => absurd hlt (by simp)⟩ (by simpa using hfuel)
  · exact hloop.mono fun r ⟨⟨hr, hle, hwalked⟩, hfalse⟩ => ⟨hr, hfalse, hle, hwalked⟩
  · have hne : b ≠ c₀ := by
      rintro rfl
      exact Bool.false_ne_true (hstop.symm.trans hcond)
    have hlt : dist n s b < dist n s c₀ := by
      unfold dist at *
      split_ifs at * <;> omega
    have hnext := dist_next hs hb (next_ne hs hb hc₀ hlt)
    rw [hstep b hb, hnext]
    refine ⟨⟨next_lt (by omega) b, hlt, fun c hc hcb => ?_⟩, by omega⟩
    by_cases heq : dist n s c = dist n s b
    · have hcb : c = b := by
        unfold dist at heq
        split_ifs at heq <;> omega
      rw [hcb]
      exact hcond
    · exact hwalked c hc (by omega)

theorem walk_prev (cond : Nat → Bool) (step : Nat → Nat) (hstep : ∀ b < n, step b = prev n b) (hs : s < n) (hc₀ : c₀ < n) (hstop : cond c₀ = false)
    {fuel : Nat} (hfuel : dist n c₀ s < fuel) :
    Returns (whileLoop cond step fuel s) fun r => r < n ∧ cond r = false ∧ dist n r s ≤ dist n c₀ s ∧
      ∀ c < n, dist n c s < dist n r s → cond c = true := by
  have hloop := whileLoop_returns cond step fuel s
    (fun b => b < n ∧ dist n b s ≤ dist n c₀ s ∧ ∀ c < n, dist n c s < dist n b s → cond c = true)
    (fun b => dist n c₀ s - dist n b s) (fun b ⟨hb, hle, hwalked⟩ hcond => ?_)
    ⟨hs, by simp, fun c _ hlt => absurd hlt (by simp)⟩ (by simpa using hfuel)
  · exact hloop.mono fun r ⟨⟨hr, hle, hwalked⟩, hfalse⟩ => ⟨hr, hfalse, hle, hwalked⟩
  · have hne : b ≠ c₀ := by
      rintro rfl
      exact Bool.false_ne_true (hstop.symm.trans hcond)
    have hlt : dist n b s < dist n c₀ s := by
      unfold dist at *
      split_ifs at * <;> omega
    have hprev := dist_prev hs hb (prev_ne hs hb hc₀ hlt)
    rw [hstep b hb, hprev]
    refine ⟨⟨prev_lt hb, hlt, fun c hc hcb => ?_⟩, by omega⟩
    by_cases heq : dist n c s = dist n b s
    · have hcb : c = b := by
        unfold dist at heq
        split_ifs at heq <;> omega
      rw [hcb]
      exact hcond
    · exact hwalked c hc (by omega)

end Walk

/-! ## Entries -/

section Elements

variable {ε : Type} {n : Nat} {slots : Nat → Option ε}

def elements (n : Nat) (slots : Nat → Option ε) : List ε := (List.range n).filterMap slots

theorem mem_elements {e : ε} : e ∈ elements n slots ↔ ∃ i < n, slots i = some e := by
  unfold elements
  simp only [List.mem_filterMap, List.mem_range]

theorem elements_congr {slots' : Nat → Option ε} (h : ∀ i < n, slots' i = slots i) :
    elements n slots' = elements n slots :=
  List.filterMap_congr fun i hi => h i (List.mem_range.1 hi)

theorem elements_update {i : Nat} (hi : i < n) (hnone : slots i = none) (e : ε) :
    (elements n (Function.update slots i (some e))).Perm (e :: elements n slots) := by
  induction n with
  | zero => exact absurd hi (Nat.not_lt_zero _)
  | succ n ih =>
    have hsucc : ∀ slots : Nat → Option ε, elements (n + 1) slots = elements n slots ++ (slots n).toList := by
      intro slots
      unfold elements
      rw [List.range_succ, List.filterMap_append, List.filterMap_cons, List.filterMap_nil]
      cases slots n with
      | none => rfl
      | some e => rfl
    rw [hsucc, hsucc]
    by_cases hin : i = n
    · subst hin
      rw [elements_congr fun j hj => Function.update_of_ne (Nat.ne_of_lt hj) _ _, Function.update_self, hnone,
        Option.toList_none, List.append_nil]
      exact List.perm_append_singleton _ _
    · rw [Function.update_of_ne (Ne.symm hin)]
      exact (ih (by omega)).append_right _

theorem elements_erase {i : Nat} {e : ε} (hi : i < n) (hsome : slots i = some e) :
    (elements n slots).Perm (e :: elements n (Function.update slots i none)) := by
  have hback := elements_update hi (Function.update_self i none slots) e
  rwa [Function.update_idem, ← hsome, Function.update_eq_self] at hback

theorem length_elements_lt : (elements n slots).length < n ↔ ∃ i < n, slots i = none := by
  have hlen : ((List.range n).filterMap slots).length < (List.range n).length ↔ _ :=
    List.length_filterMap_lt_length_iff_exists
  rw [List.length_range] at hlen
  unfold elements
  rw [hlen]
  simp only [List.mem_range, exists_prop]

end Elements

/-! ## Probing -/

section Probed

variable {ε : Type} {n : Nat} {home : ε → Nat} {slots : Nat → Option ε}

def Probed (n : Nat) (home : ε → Nat) (slots : Nat → Option ε) : Prop :=
  ∀ i < n, ∀ e, slots i = some e → ∀ c < n, dist n (home e) c < dist n (home e) i → slots c ≠ none

def ProbedExcept (n : Nat) (home : ε → Nat) (slots : Nat → Option ε) (hole : Nat) : Prop :=
  ∀ i < n, ∀ e, slots i = some e → ∀ c < n, c ≠ hole → dist n (home e) c < dist n (home e) i → slots c ≠ none

theorem update_ne_none {i c : Nat} {e : ε} (h : slots c ≠ none) : Function.update slots i (some e) c ≠ none := by
  by_cases hc : c = i
  · rw [hc, Function.update_self]
    exact Option.some_ne_none e
  · rwa [Function.update_of_ne hc]

theorem Probed.insert (h : Probed n home slots) {i : Nat} {e : ε}
    (hfirst : ∀ c < n, dist n (home e) c < dist n (home e) i → slots c ≠ none) :
    Probed n home (Function.update slots i (some e)) := by
  intro j hj e' he' c hc hlt
  refine update_ne_none ?_
  by_cases hji : j = i
  · subst hji
    rw [Function.update_self, Option.some.injEq] at he'
    subst he'
    exact hfirst c hc hlt
  · rw [Function.update_of_ne hji] at he'
    exact h j hj e' he' c hc hlt

theorem Probed.replace (h : Probed n home slots) {i : Nat} {e e' : ε} (he : slots i = some e)
    (hhome : home e' = home e) : Probed n home (Function.update slots i (some e')) := by
  intro j hj e'' he'' c hc hlt
  refine update_ne_none ?_
  by_cases hji : j = i
  · subst hji
    rw [Function.update_self, Option.some.injEq] at he''
    subst he''
    rw [hhome] at hlt
    exact h j hj e he c hc hlt
  · rw [Function.update_of_ne hji] at he''
    exact h j hj e'' he'' c hc hlt

theorem Probed.erase (h : Probed n home slots) (hole : Nat) :
    ProbedExcept n home (Function.update slots hole none) hole := by
  intro i hi e he c hc hne hlt
  have hih : i ≠ hole := by
    rintro rfl
    rw [Function.update_self] at he
    exact Option.some_ne_none e he.symm
  rw [Function.update_of_ne hih] at he
  rw [Function.update_of_ne hne]
  exact h i hi e he c hc hlt

/-- The buckets from `start` to `last` are full but for the hole, and there are holes around them. -/
structure Chain (n : Nat) (slots : Nat → Option ε) (start hole last : Nat) : Prop where
  start_lt : start < n
  hole_lt : hole < n
  last_lt : last < n
  hole_le : dist n start hole ≤ dist n start last
  gap_lt : dist n start last + 1 < n
  hole_none : slots hole = none
  full : ∀ c < n, dist n start c ≤ dist n start last → c ≠ hole → slots c ≠ none
  before : slots (prev n start) = none
  behind : slots (next n last) = none

theorem between_iff {start hole ideal : Nat} (hstart : start < n) (hhole : hole < n) (hideal : ideal < n) :
    (if start ≤ hole then start ≤ ideal ∧ ideal ≤ hole else start ≤ ideal ∨ ideal ≤ hole) ↔
      dist n start ideal ≤ dist n start hole := by
  unfold dist
  split_ifs <;> omega

/-- The walks around an entry that is taken out: back from its home, and on from its bucket. -/
theorem Probed.chain (h : Probed n home slots) {o : Nat} {e : ε} (ho : o < n) (he : slots o = some e)
    (hhome : home e < n) {z : Nat} (hz : z < n) (hznone : slots z = none) {start last : Nat}
    (hstart : start < n) (hlast : last < n)
    (hbefore : Function.update slots o none (prev n start) = none)
    (hback : ∀ c < n, dist n c (home e) < dist n start (home e) →
      Function.update slots o none (prev n c) ≠ none)
    (hbehind : Function.update slots o none (next n last) = none)
    (hon : ∀ c < n, dist n o c < dist n o last → Function.update slots o none (next n c) ≠ none) :
    Chain n (Function.update slots o none) start o last := by
  have hn : 0 < n := by omega
  have hzo : z ≠ o := by
    rintro rfl
    exact Option.some_ne_none e (he.symm.trans hznone)
  have hnone : Function.update slots o none z = none := by rw [Function.update_of_ne hzo, hznone]
  have honone : Function.update slots o none o = none := Function.update_self _ _ _
  have hdh := dist_lt hstart hhome
  have hdo := dist_lt hstart ho
  have hdz := dist_lt hstart hz
  have hdl := dist_lt hstart hlast
  have hdp := dist_prev_self hstart
  have hpn := prev_lt hstart
  -- on the way from `start` to a bucket, everything up to the home is full
  have hfull_home : ∀ c < n, dist n start c < dist n start (home e) → Function.update slots o none c ≠ none := by
    intro c hc hlt
    have hcall := hback (next n c) (next_lt hn c)
    rw [prev_next hc] at hcall
    refine hcall ?_
    have hne : c ≠ home e := by
      rintro rfl
      exact Nat.lt_irrefl _ hlt
    have hstep := dist_from_next hc hhome hne
    have hrest : dist n c (home e) ≤ dist n start (home e) := by
      rw [dist_rotate hstart hc hhome, dist_of_le hlt.le]
      exact Nat.sub_le _ _
    omega
  have hxy : dist n start (home e) ≤ dist n start o := by
    by_contra hlt
    exact hfull_home o ho (Nat.lt_of_not_le hlt) honone
  have hxz : dist n start (home e) ≤ dist n start z := by
    by_contra hlt
    exact hfull_home z hz (Nat.lt_of_not_le hlt) hnone
  have hyz : dist n start o < dist n start z := by
    have hle : dist n (home e) o ≤ dist n (home e) z := by
      by_contra hlt
      exact h o ho e he z hz (Nat.lt_of_not_le hlt) hznone
    rw [dist_rotate hstart hhome ho, dist_rotate hstart hhome hz, dist_of_le hxy, dist_of_le hxz] at hle
    have hne : dist n start o ≠ dist n start z := fun heq => hzo (dist_inj hstart ho hz heq).symm
    omega
  have hfull_last : ∀ c < n, c ≠ o → dist n o c ≤ dist n o last → Function.update slots o none c ≠ none := by
    intro c hc hco hle
    have hcall := hon (prev n c) (prev_lt hc)
    rw [next_prev hc] at hcall
    have hstep := dist_to_prev ho hc hco
    exact hcall (by omega)
  have hpo : prev n start ≠ o := by
    intro heq
    rw [heq] at hdp
    omega
  have hyl : dist n start o ≤ dist n start last ∧ dist n start last + 1 < n := by
    have hlt : dist n o last < dist n o (prev n start) := by
      by_contra hle
      exact hfull_last _ hpn hpo (Nat.le_of_not_lt hle) hbefore
    rw [dist_rotate hstart ho hlast, dist_rotate hstart ho hpn, hdp] at hlt
    have hend : dist n start o ≤ n - 1 := by omega
    have hol : dist n start o ≤ dist n start last := le_of_dist_le (by omega) hend hlt.le
    rw [dist_of_le hol, dist_of_le hend] at hlt
    exact ⟨hol, by omega⟩
  refine ⟨hstart, ho, hlast, hyl.1, hyl.2, honone, fun c hc hcl hco => ?_, hbefore, hbehind⟩
  by_cases hcx : dist n start c < dist n start (home e)
  · exact hfull_home c hc hcx
  · by_cases hcy : dist n start c < dist n start o
    · rw [Function.update_of_ne hco]
      refine h o ho e he c hc ?_
      rw [dist_rotate hstart hhome hc, dist_rotate hstart hhome ho, dist_of_le (Nat.le_of_not_lt hcx), dist_of_le hxy]
      omega
    · refine hfull_last c hc hco ?_
      rw [dist_rotate hstart ho hc, dist_rotate hstart ho hlast, dist_of_le (Nat.le_of_not_lt hcy), dist_of_le hyl.1]
      exact Nat.sub_le_sub_right hcl _

section Chain

variable {start hole last : Nat} (hchain : Chain n slots start hole last)
  (h : ProbedExcept n home slots hole)
include hchain h

theorem Chain.move {b : Nat} {e : ε} (hb : b < n) (he : slots b = some e) (hhome : home e < n)
    (hlt : dist n start hole < dist n start b) (hle : dist n start b ≤ dist n start last)
    (hplace : dist n start (home e) ≤ dist n start hole) :
    Chain n (Function.update (Function.update slots hole (some e)) b none) start b last ∧
      ProbedExcept n home (Function.update (Function.update slots hole (some e)) b none) b ∧
      (elements n (Function.update (Function.update slots hole (some e)) b none)).Perm (elements n slots) := by
  obtain ⟨hstart, hhole, hlast, hhole_le, hgap, hnone, hfull, hbefore, hbehind⟩ := hchain
  have hne : b ≠ hole := by
    rintro rfl
    exact Nat.lt_irrefl _ hlt
  have hother : ∀ c, c ≠ b → slots c ≠ none ∨ c = hole →
      Function.update (Function.update slots hole (some e)) b none c ≠ none := by
    rintro c hcb (hc | rfl)
    · rw [Function.update_of_ne hcb]
      exact update_ne_none hc
    · rw [Function.update_of_ne hcb, Function.update_self]
      exact Option.some_ne_none e
  have hstays : ∀ c, c ≠ hole → slots c = none →
      Function.update (Function.update slots hole (some e)) b none c = none := by
    intro c hc hcnone
    by_cases hcb : c = b
    · rw [hcb, Function.update_self]
    · rw [Function.update_of_ne hcb, Function.update_of_ne hc, hcnone]
  refine ⟨⟨hstart, hb, hlast, hle, hgap, Function.update_self _ _ _, fun c hc hcl hcb => ?_, ?_, ?_⟩, ?_, ?_⟩
  · refine hother c hcb ?_
    by_cases hch : c = hole
    · exact .inr hch
    · exact .inl (hfull c hc hcl hch)
  · refine hstays _ (fun heq => ?_) hbefore
    have hself := dist_prev_self hstart
    rw [heq] at hself
    omega
  · refine hstays _ (fun heq => ?_) hbehind
    have hnext := dist_next hstart hlast (next_ne_start hstart hlast hgap)
    rw [heq] at hnext
    omega
  · intro i hi e' he' c hc hcb hci
    have hib : i ≠ b := by
      rintro rfl
      rw [Function.update_self] at he'
      exact Option.some_ne_none e' he'.symm
    refine hother c hcb ?_
    by_cases hch : c = hole
    · exact .inr hch
    refine .inl ?_
    rw [Function.update_of_ne hib] at he'
    by_cases hih : i = hole
    · -- the entry that was moved: its way is shorter now
      subst hih
      rw [Function.update_self, Option.some.injEq] at he'
      subst he'
      have hshorter : dist n (home e) i < dist n (home e) b := by
        rw [dist_rotate hstart hhome hi, dist_rotate hstart hhome hb, dist_of_le hplace,
          dist_of_le (hplace.trans hlt.le)]
        omega
      exact h b hb e he c hc hch (hci.trans hshorter)
    · rw [Function.update_of_ne hih] at he'
      exact h i hi e' he' c hc hch hci
  · have hfill := elements_update hhole hnone e
    have hstill : Function.update slots hole (some e) b = some e := by rw [Function.update_of_ne hne, he]
    have hclear := elements_erase hb hstill
    exact (List.perm_cons e).1 (hclear.symm.trans hfill)

theorem Chain.probed (hhome : ∀ i < n, ∀ e, slots i = some e → home e < n)
    (hplaces : ∀ c < n, dist n start hole < dist n start c → dist n start c ≤ dist n start last →
      ∀ e, slots c = some e → ¬ dist n start (home e) ≤ dist n start hole) : Probed n home slots := by
  obtain ⟨hstart, hhole, hlast, hhole_le, hgap, hnone, hfull, hbefore, hbehind⟩ := hchain
  intro i hi e he c hc hlt
  by_cases hch : c = hole
  · subst hch
    have hhe := hhome i hi e he
    -- the holes around the chain are not on the way either
    have hout : ∀ z < n, z ≠ c → slots z = none → dist n (home e) i ≤ dist n (home e) z := by
      intro z hz hzc hznone
      by_contra hlt'
      exact h i hi e he z hz hzc (Nat.lt_of_not_le hlt') hznone
    have hnext : dist n start (next n last) = dist n start last + 1 :=
      dist_next hstart hlast (next_ne_start hstart hlast hgap)
    have hpn := prev_lt hstart
    have hnn := next_lt (by omega : 0 < n) last
    have hbefore' := hout _ hpn (fun heq => by
      have hself := dist_prev_self hstart
      rw [heq] at hself
      omega) hbefore
    have hbehind' := hout _ hnn (fun heq => by
      rw [heq] at hnext
      omega) hbehind
    have hil : dist n start i ≠ dist n start last + 1 := by
      rw [← hnext]
      intro heq
      rw [dist_inj hstart hi hnn heq] at he
      exact Option.some_ne_none e (he.symm.trans hbehind)
    rw [dist_rotate hstart hhe hi, dist_rotate hstart hhe hpn, dist_prev_self hstart] at hbefore'
    rw [dist_rotate hstart hhe hi, dist_rotate hstart hhe hnn, hnext] at hbehind'
    rw [dist_rotate hstart hhe hc, dist_rotate hstart hhe hi] at hlt
    have hhome_lt := dist_lt hstart hhe
    have hi_lt := dist_lt hstart hi
    -- from `start` on: the home, the hole, the entry and the last bucket
    have hend : dist n start (home e) ≤ n - 1 := by omega
    have hxi : dist n start (home e) ≤ dist n start i := le_of_dist_le (by omega) hend hbefore'
    have hxc : dist n start (home e) ≤ dist n start c := le_of_dist_le hi_lt hxi hlt.le
    rw [dist_of_le hxc, dist_of_le hxi] at hlt
    have hxl : dist n start (home e) ≤ dist n start last + 1 := hxc.trans (hhole_le.trans (Nat.le_succ _))
    rw [dist_of_le hxi, dist_of_le hxl] at hbehind'
    exact absurd hxc (hplaces i hi (by omega) (by omega) e he)
  · exact h i hi e he c hc hch hlt

end Chain

end Probed

end SwiftKStdlib.Lib.Probing
