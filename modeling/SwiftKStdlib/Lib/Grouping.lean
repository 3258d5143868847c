import Mathlib.Data.List.Pairwise
import Mathlib.Order.Defs.LinearOrder
import Mathlib.Tactic

/-!
# Groups of list elements, by key

* `pushBack` : append to the group of a key, in a list of groups with ascending keys;
* `Groups` : the groups of the elements of a list; `groups_foldl`.
-/

namespace SwiftKStdlib.Lib.Grouping

variable {C K A : Type} [LinearOrder K]

def pushBack (key : K) (a : A) : List (K × List A) → List (K × List A)
  | [] => [(key, [a])]
  | (k, as) :: rest =>
    if key < k then (key, [a]) :: (k, as) :: rest
    else if key = k then (k, as ++ [a]) :: rest
    else (k, as) :: pushBack key a rest

def Ascending (m : List (K × List A)) : Prop := m.Pairwise fun e e' => e.1 < e'.1

variable {m : List (K × List A)} {key k : K} {a : A} {as : List A}

theorem mem_pushBack_of_ne (hk : k ≠ key) : (k, as) ∈ pushBack key a m ↔ (k, as) ∈ m := by
  induction m with
  | nil => simp [pushBack, hk]
  | cons e rest ih =>
    obtain ⟨k', as'⟩ := e
    rw [pushBack]
    split_ifs with hlt heq
    · simp [hk]
    · subst heq
      simp [hk]
    · rw [List.mem_cons, List.mem_cons, ih]

theorem mem_pushBack_of_mem (h : Ascending m) (hmem : (key, as) ∈ m) {as' : List A} :
    (key, as') ∈ pushBack key a m ↔ as' = as ++ [a] := by
  induction m with
  | nil => exact absurd hmem List.not_mem_nil
  | cons e rest ih =>
    obtain ⟨k', bs⟩ := e
    obtain ⟨hhead, hrest⟩ := List.pairwise_cons.1 h
    rw [pushBack]
    rcases List.mem_cons.1 hmem with heq | hmem
    · obtain ⟨rfl, rfl⟩ := Prod.mk.inj heq
      rw [if_neg (lt_irrefl _), if_pos rfl, List.mem_cons]
      refine ⟨fun h => ?_, fun h => .inl (by rw [h])⟩
      rcases h with heq | hmem
      · exact (Prod.mk.inj heq).2
      · exact absurd (hhead _ hmem) (lt_irrefl _)
    · have hlt := hhead _ hmem
      rw [if_neg (not_lt_of_gt hlt), if_neg (ne_of_gt hlt), List.mem_cons, ih hrest hmem]
      refine ⟨fun h => h.resolve_left fun heq => ?_, .inr⟩
      exact absurd (Prod.mk.inj heq).1 (ne_of_gt hlt)

theorem mem_pushBack_of_not_mem (hnone : ∀ as, (key, as) ∉ m) :
    (key, as) ∈ pushBack key a m ↔ as = [a] := by
  induction m with
  | nil => simp [pushBack]
  | cons e rest ih =>
    obtain ⟨k', bs⟩ := e
    have hne : key ≠ k' := fun heq => hnone bs (by rw [heq]; exact List.mem_cons_self)
    have hrest : ∀ as, (key, as) ∉ rest := fun as hmem => hnone as (List.mem_cons_of_mem _ hmem)
    rw [pushBack]
    split_ifs with hlt
    · rw [List.mem_cons, List.mem_cons]
      refine ⟨fun h => ?_, fun h => .inl (by rw [h])⟩
      rcases h with heq | heq | hmem
      · exact (Prod.mk.inj heq).2
      · exact absurd (Prod.mk.inj heq).1 hne
      · exact absurd hmem (hrest as)
    · rw [List.mem_cons, ih hrest]
      exact ⟨fun h => h.resolve_left fun heq => hne (Prod.mk.inj heq).1, .inr⟩

theorem Ascending.pushBack (h : Ascending m) (key : K) (a : A) : Ascending (pushBack key a m) := by
  induction m with
  | nil => exact List.pairwise_singleton _ _
  | cons e rest ih =>
    obtain ⟨k', bs⟩ := e
    obtain ⟨hhead, hrest⟩ := List.pairwise_cons.1 h
    rw [Grouping.pushBack]
    split_ifs with hlt heq
    · refine List.pairwise_cons.2 ⟨fun e' he' => ?_, h⟩
      rcases List.mem_cons.1 he' with rfl | he'
      · exact hlt
      · exact lt_trans hlt (hhead e' he')
    · exact List.pairwise_cons.2 ⟨hhead, hrest⟩
    · refine List.pairwise_cons.2 ⟨fun e' he' => ?_, ih hrest⟩
      by_cases hk : e'.1 = key
      · rw [hk]
        exact lt_of_le_of_ne (le_of_not_gt hlt) (Ne.symm heq)
      · exact hhead e' ((mem_pushBack_of_ne hk).1 he')

/-- The groups of the elements `cs`, with what they keep of each element. -/
structure Groups (keyOf : C → K) (valueOf : C → A) (m : List (K × List A)) (cs : List C) : Prop where
  ascending : Ascending m
  mem : ∀ k as, (k, as) ∈ m ↔ as = (cs.filter fun c => keyOf c = k).map valueOf ∧ as ≠ []

variable {keyOf : C → K} {valueOf : C → A}

theorem Groups.pushBack {cs : List C} (h : Groups keyOf valueOf m cs) (c : C) :
    Groups keyOf valueOf (pushBack (keyOf c) (valueOf c) m) (cs ++ [c]) where
  ascending := h.ascending.pushBack _ _
  mem := by
    intro k as
    rw [List.filter_append, List.map_append]
    by_cases hk : k = keyOf c
    · subst hk
      have hlast : [c].filter (fun c' => keyOf c' = keyOf c) = [c] := by simp
      rw [hlast, List.map_singleton]
      by_cases hsome : ∃ as, (keyOf c, as) ∈ m
      · obtain ⟨as', hmem⟩ := hsome
        rw [mem_pushBack_of_mem h.ascending hmem, ((h.mem _ _).1 hmem).1]
        exact ⟨fun heq => ⟨heq, by rw [heq]; simp⟩, And.left⟩
      · have hnone : ∀ as, (keyOf c, as) ∉ m := fun as hmem => hsome ⟨as, hmem⟩
        have hnil : (cs.filter fun c' => keyOf c' = keyOf c).map valueOf = [] := by
          by_contra hne
          exact hnone _ ((h.mem _ _).2 ⟨rfl, hne⟩)
        rw [mem_pushBack_of_not_mem hnone, hnil, List.nil_append]
        exact ⟨fun heq => ⟨heq, by rw [heq]; simp⟩, And.left⟩
    · have hlast : [c].filter (fun c' => keyOf c' = k) = [] := by simp [Ne.symm hk]
      rw [mem_pushBack_of_ne hk, h.mem, hlast, List.map_nil, List.append_nil]

theorem groups_foldl (cs : List C) :
    Groups keyOf valueOf (cs.foldl (fun m c => Grouping.pushBack (keyOf c) (valueOf c) m) []) cs := by
  induction cs using List.reverseRecOn with
  | nil => exact ⟨List.Pairwise.nil, fun k as => by simp⟩
  | append_singleton cs c ih =>
    rw [List.foldl_append, List.foldl_cons, List.foldl_nil]
    exact ih.pushBack c

theorem Groups.exists_mem {cs : List C} (h : Groups keyOf valueOf m cs) {c : C} (hc : c ∈ cs) :
    (keyOf c, (cs.filter fun c' => keyOf c' = keyOf c).map valueOf) ∈ m := by
  refine (h.mem _ _).2 ⟨rfl, List.ne_nil_of_mem (a := valueOf c) (List.mem_map.2 ⟨c, ?_, rfl⟩)⟩
  exact List.mem_filter.2 ⟨hc, decide_eq_true rfl⟩

end SwiftKStdlib.Lib.Grouping
