import SwiftKStdlib.PrefixMap.Entries

/-!
# Insertion

* `Inserts` : what an insertion does to a node and its siblings; `Siblings.inserts`;
* `Tree.insertLazy_spec` : what it does to the map;
* `Op`, `Represents`, `run_represents` : runs of insertions and lookups.
-/

namespace SwiftKStdlib.PrefixMap

namespace Node

variable {α β : Type}

def keys (es : List (List α × β)) : List (List α) := es.map Prod.fst

theorem not_mem_keys {es : List (List α × β)} {k : List α} (h : ∀ e ∈ es, ¬ e.1 <+: k) : k ∉ keys es := by
  intro hk
  obtain ⟨e, he, rfl⟩ := List.mem_map.1 hk
  exact h e he (List.prefix_refl _)

theorem map_under_under (p q : List α) (es : List (List α × β)) :
    (es.map (under q)).map (under p) = es.map (under (p ++ q)) := by
  rw [List.map_map]
  refine List.map_congr_left fun e _ => ?_
  simp only [Function.comp, under, List.append_assoc]

theorem map_under_ownEntry (p q : List α) (value : Option β) :
    (ownEntry q value).map (under p) = ownEntry (p ++ q) value := by
  cases value with
  | none => rfl
  | some value => rfl

structure Inserting (update : Option β → Option β × Bool) (x : β) : Prop where
  none : update none = (some x, true)
  some : ∀ v, update (some v) = (some v, false)

section Create

variable {cap : ℕ+} {update : Option β → Option β × Bool} {x : β} (hupdate : Inserting update x)
include hupdate

theorem updateValue_none (left right further : Node α β) (key : List α) :
    updateValue update (node left right further key none) =
      (node left right further key (some x), some true) := by
  rw [updateValue, hupdate.none]

theorem updateValue_some (left right further : Node α β) (key : List α) (v : β) :
    updateValue update (node left right further key (some v)) =
      (node left right further key (some v), some false) := by
  rw [updateValue, hupdate.some]

theorem createNodes_spec [LinearOrder α] (k : List α) (hk : k ≠ []) :
    Siblings cap (createNodes cap update k).1 ∧ (createNodes cap update k).1.heads = k.take 1 ∧
      (createNodes cap update k).1.entries = [(k, x)] ∧ (createNodes cap update k).2 = some true := by
  induction hlen : k.length using Nat.strong_induction_on generalizing k with
  | _ n ih =>
    subst hlen
    have hcap := cap.pos
    have hpos := List.length_pos_of_ne_nil hk
    have htake : (k.take (min (cap : Nat) k.length)).length = min (cap : Nat) k.length := by
      rw [List.length_take]
      omega
    obtain ⟨a, key, hkey⟩ := List.exists_cons_of_length_pos (l := k.take (min (cap : Nat) k.length)) (by omega)
    have hhead : k.take 1 = [a] := by
      have hone := congrArg (List.take 1) hkey
      rw [List.take_take] at hone
      rwa [Nat.min_eq_left (by omega)] at hone
    have hle : (a :: key).length ≤ cap := by
      rw [← hkey, htake]
      exact Nat.min_le_left _ _
    rw [createNodes]
    dsimp only
    split_ifs with hdrop
    · have hall : a :: key = k := by
        have happend := List.take_append_drop (min (cap : Nat) k.length) k
        rwa [hdrop, List.append_nil, hkey] at happend
      rw [hkey, updateValue_none hupdate]
      refine ⟨.node _ _ _ _ _ _ .null .null .null (fun b hb => absurd hb List.not_mem_nil)
        (fun b hb => absurd hb List.not_mem_nil) hle, ?_, ?_, rfl⟩
      · rw [hhead]
        rfl
      · rw [hall]
        rfl
    · have hlt : (k.drop (min (cap : Nat) k.length)).length < k.length := by
        rw [List.length_drop]
        omega
      obtain ⟨hsiblings, -, hentries, hresult⟩ := ih _ hlt _ hdrop rfl
      rw [hkey]
      refine ⟨.node _ _ _ _ _ _ .null .null hsiblings (fun b hb => absurd hb List.not_mem_nil)
        (fun b hb => absurd hb List.not_mem_nil) hle, ?_, ?_, hresult⟩
      · rw [hhead]
        rfl
      · rw [entries, hentries, ← hkey]
        have happend := List.take_append_drop (min (cap : Nat) k.length) k
        simp only [entries, ownEntry, under, List.nil_append, List.map_cons, List.map_nil, List.append_nil,
          happend]

theorem createNodes_nil : createNodes cap update ([] : List α) =
    (node null null null [] (some x), some true) := by
  rw [createNodes]
  simp only [List.drop_nil, dite_true, List.take_nil]
  exact updateValue_none hupdate _ _ _ _

end Create

variable [LinearOrder α]

/-! ## One node of an insertion -/

section CreateEqns

variable (cap : ℕ+) (update : Option β → Option β × Bool) (left right further : Node α β) (value : Option β)

theorem getOrCreate_left {x y : α} (hlt : x < y) (k c : List α) :
    (node left right further (y :: c) value).getOrCreatePrefixNode cap update (x :: k) =
      (node (left.getOrCreatePrefixNode cap update (x :: k)).1 right further (y :: c) value,
        (left.getOrCreatePrefixNode cap update (x :: k)).2) := by
  have hlength := commonLength_differ [] hlt.ne k c
  have hgo := goesLeft_append [] x y k c
  have hlen : (0 : Nat) ≠ min (y :: c).length (x :: k).length := by
    rw [List.length_cons, List.length_cons]
    omega
  rw [getOrCreatePrefixNode]
  simp only [List.nil_append, List.length_nil] at hlength hgo
  simp only [hlength, hgo, hlt, decide_true, ne_eq, hlen, not_false_eq_true, if_true]

theorem getOrCreate_right {x y : α} (hlt : y < x) (k c : List α) :
    (node left right further (y :: c) value).getOrCreatePrefixNode cap update (x :: k) =
      (node left (right.getOrCreatePrefixNode cap update (x :: k)).1 further (y :: c) value,
        (right.getOrCreatePrefixNode cap update (x :: k)).2) := by
  have hlength := commonLength_differ [] hlt.ne' k c
  have hgo := goesLeft_append [] x y k c
  have hlen : (0 : Nat) ≠ min (y :: c).length (x :: k).length := by
    rw [List.length_cons, List.length_cons]
    omega
  rw [getOrCreatePrefixNode]
  simp only [List.nil_append, List.length_nil] at hlength hgo
  simp only [hlength, hgo, hlt.not_gt, decide_false, ne_eq, hlen, not_false_eq_true, if_true,
    Bool.false_eq_true, if_false]

theorem getOrCreate_differ {p : List α} (hp : p ≠ []) {x y : α} (hne : x ≠ y) (k c : List α) :
    (node left right further (p ++ y :: c) value).getOrCreatePrefixNode cap update (p ++ x :: k) =
      ((if x < y then
          node left right (node (createNodes cap update (x :: k)).1 null further (y :: c) value) p none
        else node left right (node null (createNodes cap update (x :: k)).1 further (y :: c) value) p none),
        (createNodes cap update (x :: k)).2) := by
  have hpos := List.length_pos_of_ne_nil hp
  have hlen : p.length ≠ min (p ++ y :: c).length (p ++ x :: k).length := by
    rw [List.length_append, List.length_append, List.length_cons, List.length_cons]
    omega
  rw [getOrCreatePrefixNode]
  simp only [commonLength_differ p hne, goesLeft_append, hlen, ne_eq, not_false_eq_true, if_true,
    hpos.ne', if_false, splitNode, List.drop_left, List.take_left, createSibling, decide_eq_true_eq]
  split_ifs with hlt
  · rfl
  · rfl

theorem getOrCreate_exact (curKey : List α) :
    (node left right further curKey value).getOrCreatePrefixNode cap update curKey =
      updateValue update (node left right further curKey value) := by
  have hlength := commonLength_full curKey []
  rw [List.append_nil] at hlength
  rw [getOrCreatePrefixNode]
  simp only [hlength, Nat.min_self, ne_eq, not_true_eq_false, if_false, if_true, List.drop_length]

theorem getOrCreate_further (curKey : List α) {k : List α} (hk : k ≠ []) :
    (node left right further curKey value).getOrCreatePrefixNode cap update (curKey ++ k) =
      (node left right (further.getOrCreatePrefixNode cap update k).1 curKey value,
        (further.getOrCreatePrefixNode cap update k).2) := by
  have hlen : min curKey.length (curKey ++ k).length = curKey.length := by
    rw [List.length_append]
    omega
  rw [getOrCreatePrefixNode]
  simp only [commonLength_full, hlen, ne_eq, not_true_eq_false, if_false, if_true, List.drop_left, hk]

theorem getOrCreate_short (lookupKey : List α) (y : α) (c : List α) :
    (node left right further (lookupKey ++ y :: c) value).getOrCreatePrefixNode cap update lookupKey =
      updateValue update (splitNode left right further (lookupKey ++ y :: c) value lookupKey.length) := by
  have hlen : min (lookupKey ++ y :: c).length lookupKey.length = lookupKey.length := by
    rw [List.length_append]
    omega
  have hne : lookupKey.length ≠ (lookupKey ++ y :: c).length := by
    rw [List.length_append, List.length_cons]
    omega
  rw [getOrCreatePrefixNode]
  simp only [commonLength_short, hlen, ne_eq, not_true_eq_false, if_false, hne]

end CreateEqns

/-! ## What an insertion does -/

/-- The nodes and the result after an insertion of `x` for the key `k`. -/
structure Inserts (cap : ℕ+) (t : Node α β) (k : List α) (x : β) (t' : Node α β) (r : Option Bool) : Prop where
  siblings : Siblings cap t'
  heads : ∀ b ∈ t'.heads, b ∈ t.heads ∨ k.head? = some b
  result : (k ∈ keys t.entries ∧ t' = t ∧ r = some false) ∨
    (k ∉ keys t.entries ∧ t'.entries.Perm ((k, x) :: t.entries) ∧ r = some true)

section Insert

variable {cap : ℕ+} {update : Option β → Option β × Bool} {x : β}

omit [LinearOrder α] in
theorem perm_insert_left (e : List α × β) {l l' : List (List α × β)} (m r : List (List α × β))
    (h : l'.Perm (e :: l)) : (l' ++ m ++ r).Perm (e :: (l ++ m ++ r)) :=
  (h.append_right m).append_right r

omit [LinearOrder α] in
theorem perm_insert_middle (e : List α × β) (l r : List (List α × β)) {m m' : List (List α × β)}
    (h : m'.Perm (e :: m)) : (l ++ m' ++ r).Perm (e :: (l ++ m ++ r)) := by
  refine List.Perm.trans ?_ (List.perm_middle.append_right r)
  exact (h.append_left l).append_right r

omit [LinearOrder α] in
theorem perm_insert_right (e : List α × β) (l m : List (List α × β)) {r r' : List (List α × β)}
    (h : r'.Perm (e :: r)) : (l ++ m ++ r').Perm (e :: (l ++ m ++ r)) :=
  (h.append_left (l ++ m)).trans List.perm_middle

omit [LinearOrder α] in
theorem keys_append (es fs : List (List α × β)) (k : List α) :
    k ∈ keys (es ++ fs) ↔ k ∈ keys es ∨ k ∈ keys fs := by
  unfold keys
  rw [List.map_append, List.mem_append]

omit [LinearOrder α] in
theorem mem_keys_under (p k : List α) (es : List (List α × β)) :
    p ++ k ∈ keys (es.map (under p)) ↔ k ∈ keys es := by
  unfold keys
  rw [List.map_map, List.mem_map, List.mem_map]
  refine exists_congr fun e => and_congr_right fun _ => ?_
  simp only [Function.comp, under, List.append_cancel_left_eq]

section OneNode

variable {left right further : Node α β} {a : α} {key : List α} {value : Option β}
  (hl : Siblings cap left) (hr : Siblings cap right) (hf : Siblings cap further)
  (hleft : ∀ b ∈ left.heads, b < a) (hright : ∀ b ∈ right.heads, a < b) (hcap : (a :: key).length ≤ cap)
include hl hr hf hleft hright hcap

omit [LinearOrder α] hl hr hf hleft hright hcap in
theorem below_split (p q : List α) (further : Node α β) (value : Option β) :
    (ownEntry q value ++ further.entries.map (under q)).map (under p) =
      ownEntry (p ++ q) value ++ further.entries.map (under (p ++ q)) := by
  rw [List.map_append, map_under_ownEntry, map_under_under]

omit [LinearOrder α] hl hr hf hleft hright hcap in
theorem not_mem_below {k : List α} (hk : ¬ key <+: k) :
    k ∉ keys (ownEntry key value ++ further.entries.map (under key)) :=
  not_mem_keys fun _ he hpre => hk ((prefix_of_mem_below he).trans hpre)

omit hf hcap in
theorem not_mem_siblings (k : List α) : a :: k ∉ keys left.entries ∧ a :: k ∉ keys right.entries :=
  ⟨not_mem_keys (hl.not_prefix_of_head k fun b hb => (hleft b hb).ne'),
    not_mem_keys (hr.not_prefix_of_head k fun b hb => (hright b hb).ne)⟩

theorem inserts_left {b : α} {k : List α} {left' : Node α β} {r : Option Bool} (hlt : b < a)
    (h : Inserts cap left (b :: k) x left' r) :
    Inserts cap (node left right further (a :: key) value) (b :: k) x
      (node left' right further (a :: key) value) r := by
  have hkeys : b :: k ∈ keys (node left right further (a :: key) value).entries ↔
      b :: k ∈ keys left.entries := by
    rw [entries, keys_append, keys_append]
    have hbelow : b :: k ∉ keys (ownEntry (a :: key) value ++ further.entries.map (under (a :: key))) :=
      not_mem_below fun hpre => hlt.ne' (List.cons_prefix_cons.1 hpre).1
    have hright' : b :: k ∉ keys right.entries :=
      not_mem_keys (hr.not_prefix_of_head k fun c hc => (hlt.trans (hright c hc)).ne)
    simp only [hbelow, hright', or_false]
  refine ⟨.node _ _ _ _ _ _ h.siblings hr hf (fun c hc => ?_) hright hcap, fun c hc => ?_, ?_⟩
  · rcases h.heads c hc with hc | hc
    · exact hleft c hc
    · exact Option.some.inj hc ▸ hlt
  · simp only [heads, List.mem_append] at hc ⊢
    rcases hc with (hc | hc) | hc
    · rcases h.heads c hc with hc | hc
      · exact .inl (.inl (.inl hc))
      · exact .inr hc
    · exact .inl (.inl (.inr hc))
    · exact .inl (.inr hc)
  · rw [hkeys]
    rcases h.result with ⟨hmem, rfl, hresult⟩ | ⟨hmem, hperm, hresult⟩
    · exact .inl ⟨hmem, rfl, hresult⟩
    · exact .inr ⟨hmem, perm_insert_left _ _ _ hperm, hresult⟩

theorem inserts_right {b : α} {k : List α} {right' : Node α β} {r : Option Bool} (hlt : a < b)
    (h : Inserts cap right (b :: k) x right' r) :
    Inserts cap (node left right further (a :: key) value) (b :: k) x
      (node left right' further (a :: key) value) r := by
  have hkeys : b :: k ∈ keys (node left right further (a :: key) value).entries ↔
      b :: k ∈ keys right.entries := by
    rw [entries, keys_append, keys_append]
    have hbelow : b :: k ∉ keys (ownEntry (a :: key) value ++ further.entries.map (under (a :: key))) :=
      not_mem_below fun hpre => hlt.ne (List.cons_prefix_cons.1 hpre).1
    have hleft' : b :: k ∉ keys left.entries :=
      not_mem_keys (hl.not_prefix_of_head k fun c hc => ((hleft c hc).trans hlt).ne')
    simp only [hbelow, hleft', false_or]
  refine ⟨.node _ _ _ _ _ _ hl h.siblings hf hleft (fun c hc => ?_) hcap, fun c hc => ?_, ?_⟩
  · rcases h.heads c hc with hc | hc
    · exact hright c hc
    · exact Option.some.inj hc ▸ hlt
  · simp only [heads, List.mem_append] at hc ⊢
    rcases hc with hc | hc
    · exact .inl (.inl hc)
    · rcases h.heads c hc with hc | hc
      · exact .inl (.inr hc)
      · exact .inr hc
  · rw [hkeys]
    rcases h.result with ⟨hmem, rfl, hresult⟩ | ⟨hmem, hperm, hresult⟩
    · exact .inl ⟨hmem, rfl, hresult⟩
    · exact .inr ⟨hmem, perm_insert_right _ _ _ hperm, hresult⟩

theorem inserts_exact (hupdate : Inserting update x) :
    Inserts cap (node left right further (a :: key) value) (a :: key) x
      (updateValue update (node left right further (a :: key) value)).1
      (updateValue update (node left right further (a :: key) value)).2 := by
  have hsiblings : ∀ value, Siblings cap (node left right further (a :: key) value) := fun value =>
    .node _ _ _ _ _ _ hl hr hf hleft hright hcap
  cases value with
  | some v =>
    rw [updateValue_some hupdate]
    refine ⟨hsiblings _, fun b hb => .inl hb, .inl ⟨?_, rfl, rfl⟩⟩
    rw [entries, keys_append, keys_append, keys_append]
    exact .inl (.inr (.inl (List.mem_singleton_self _)))
  | none =>
    rw [updateValue_none hupdate]
    refine ⟨hsiblings _, fun b hb => .inl hb, .inr ⟨?_, ?_, rfl⟩⟩
    · have hnot := not_mem_siblings hl hr hleft hright key
      have hfurther : a :: key ∉ keys (further.entries.map (under (a :: key))) := by
        have hnil := not_mem_keys hf.not_prefix_nil
        have hiff := mem_keys_under (a :: key) [] further.entries
        rw [List.append_nil] at hiff
        exact fun hmem => hnil (hiff.1 hmem)
      rw [entries, keys_append, keys_append, ownEntry, List.nil_append]
      simp only [hnot.1, hnot.2, hfurther, or_self, not_false_eq_true]
    · rw [entries, entries]
      exact perm_insert_middle _ _ _ (List.Perm.refl _)

theorem inserts_further {k : List α} (hk : k ≠ []) {further' : Node α β} {r : Option Bool}
    (h : Inserts cap further k x further' r) :
    Inserts cap (node left right further (a :: key) value) (a :: key ++ k) x
      (node left right further' (a :: key) value) r := by
  have hkeys : a :: key ++ k ∈ keys (node left right further (a :: key) value).entries ↔
      k ∈ keys further.entries := by
    have hnot := not_mem_siblings hl hr hleft hright (key ++ k)
    have hown : a :: key ++ k ∉ keys (ownEntry (a :: key) value) := by
      cases value with
      | none => exact List.not_mem_nil
      | some v =>
        intro hmem
        have heq := List.mem_singleton.1 hmem
        exact hk (List.append_right_eq_self.1 heq)
    rw [entries, keys_append, keys_append, keys_append, mem_keys_under]
    rw [← List.cons_append] at hnot
    simp only [hnot.1, hnot.2, hown, false_or, or_false]
  refine ⟨.node _ _ _ _ _ _ hl hr h.siblings hleft hright hcap, fun b hb => .inl hb, ?_⟩
  rw [hkeys]
  rcases h.result with ⟨hmem, rfl, hresult⟩ | ⟨hmem, hperm, hresult⟩
  · exact .inl ⟨hmem, rfl, hresult⟩
  · refine .inr ⟨hmem, ?_, hresult⟩
    have hmap := hperm.map (under (a :: key))
    rw [List.map_cons] at hmap
    rw [entries, entries]
    refine perm_insert_middle _ _ _ ?_
    exact (hmap.append_left _).trans List.perm_middle

omit hcap in
/-- The node is split behind `a :: p`, and a new entry stands beside the second part. -/
theorem inserts_differ (hupdate : Inserting update x) {p : List α} {b y : α} (hne : b ≠ y) (k c : List α)
    (hcap : (a :: p ++ y :: c).length ≤ cap) :
    Inserts cap (node left right further (a :: p ++ y :: c) value) (a :: p ++ b :: k) x
      (if b < y then
        node left right (node (createNodes cap update (b :: k)).1 null further (y :: c) value) (a :: p) none
      else node left right (node null (createNodes cap update (b :: k)).1 further (y :: c) value) (a :: p) none)
      (createNodes cap update (b :: k)).2 := by
  obtain ⟨hcreated, hheads, hentries, hresult⟩ := @createNodes_spec _ _ cap _ _ hupdate _ (b :: k)
    (List.cons_ne_nil _ _)
  have hcaps : (a :: p).length ≤ cap ∧ (y :: c).length ≤ cap := by
    rw [List.length_append] at hcap
    omega
  have hnot := not_mem_siblings hl hr hleft hright (p ++ b :: k)
  have hbelow : a :: p ++ b :: k ∉ keys (ownEntry (a :: p ++ y :: c) value ++
      further.entries.map (under (a :: p ++ y :: c))) :=
    not_mem_below fun hpre => hne (List.cons_prefix_cons.1
      ((List.prefix_append_right_inj (a :: p)).1 hpre)).1.symm
  have hkeys : a :: p ++ b :: k ∉ keys (node left right further (a :: p ++ y :: c) value).entries := by
    rw [entries, keys_append, keys_append]
    simp only [List.cons_append] at hnot hbelow ⊢
    simp only [hnot.1, hnot.2, hbelow, or_self, not_false_eq_true]
  have hinner : ∀ es : List (List α × β),
      es.Perm ((b :: k, x) :: (ownEntry (y :: c) value ++ further.entries.map (under (y :: c)))) →
      (left.entries ++ (ownEntry (a :: p) none ++ es.map (under (a :: p))) ++ right.entries).Perm
        ((a :: p ++ b :: k, x) :: (node left right further (a :: p ++ y :: c) value).entries) := by
    intro es hes
    rw [entries]
    refine perm_insert_middle _ _ _ ?_
    have hmap := hes.map (under (a :: p))
    rw [List.map_cons, below_split] at hmap
    exact hmap
  split_ifs with hlt
  · refine ⟨.node _ _ _ _ _ _ hl hr (.node _ _ _ _ _ _ hcreated .null hf (fun d hd => ?_)
      (fun d hd => absurd hd List.not_mem_nil) hcaps.2) hleft hright hcaps.1, fun d hd => .inl hd,
      .inr ⟨hkeys, hinner _ ?_, hresult⟩⟩
    · rw [hheads] at hd
      rw [List.mem_singleton.1 hd]
      exact hlt
    · rw [entries, hentries, entries, List.append_nil]
      exact List.Perm.refl _
  · have hgt : y < b := lt_of_le_of_ne (not_lt.1 hlt) (Ne.symm hne)
    refine ⟨.node _ _ _ _ _ _ hl hr (.node _ _ _ _ _ _ .null hcreated hf
      (fun d hd => absurd hd List.not_mem_nil) (fun d hd => ?_) hcaps.2) hleft hright hcaps.1,
      fun d hd => .inl hd, .inr ⟨hkeys, hinner _ ?_, hresult⟩⟩
    · rw [hheads] at hd
      rw [List.mem_singleton.1 hd]
      exact hgt
    · rw [entries, hentries, entries, List.nil_append]
      exact List.perm_append_singleton _ _

omit hcap in
theorem inserts_short (hupdate : Inserting update x) {p : List α} {y : α} {c : List α}
    (hcap : (a :: p ++ y :: c).length ≤ cap) :
    Inserts cap (node left right further (a :: p ++ y :: c) value) (a :: p) x
      (updateValue update (splitNode left right further (a :: p ++ y :: c) value (a :: p).length)).1
      (updateValue update (splitNode left right further (a :: p ++ y :: c) value (a :: p).length)).2 := by
  have hcaps : (a :: p).length ≤ cap ∧ (y :: c).length ≤ cap := by
    rw [List.length_append] at hcap
    omega
  have hnot := not_mem_siblings hl hr hleft hright p
  have hbelow : a :: p ∉ keys (ownEntry (a :: p ++ y :: c) value ++
      further.entries.map (under (a :: p ++ y :: c))) :=
    not_mem_below fun hpre => by
      have hle := hpre.length_le
      rw [List.length_append, List.length_cons (a := y)] at hle
      omega
  have hkeys : a :: p ∉ keys (node left right further (a :: p ++ y :: c) value).entries := by
    rw [entries, keys_append, keys_append]
    simp only [hnot.1, hnot.2, hbelow, or_self, not_false_eq_true]
  rw [splitNode, if_pos (show (a :: p).length ≠ 0 from Nat.succ_ne_zero _), List.drop_left, List.take_left,
    updateValue_none hupdate]
  refine ⟨.node _ _ _ _ _ _ hl hr (.node _ _ _ _ _ _ .null .null hf
    (fun d hd => absurd hd List.not_mem_nil) (fun d hd => absurd hd List.not_mem_nil)
    hcaps.2) hleft hright hcaps.1, fun d hd => .inl hd, .inr ⟨hkeys, ?_, rfl⟩⟩
  rw [entries, entries, entries, entries, List.nil_append, List.append_nil, below_split]
  exact perm_insert_middle _ _ _ (List.Perm.refl _)

end OneNode

theorem Siblings.inserts (hupdate : Inserting update x) {t : Node α β} (h : Siblings cap t) {k : List α}
    (hk : k ≠ []) : Inserts cap t k x (t.getOrCreatePrefixNode cap update k).1
      (t.getOrCreatePrefixNode cap update k).2 := by
  induction h generalizing k with
  | null =>
    obtain ⟨hsiblings, hheads, hentries, hresult⟩ := @createNodes_spec _ _ cap _ _ hupdate _ k hk
    refine ⟨hsiblings, fun b hb => .inr ?_, .inr ⟨List.not_mem_nil, ?_, hresult⟩⟩
    · obtain ⟨a, key, rfl⟩ := List.exists_cons_of_ne_nil hk
      change b ∈ (createNodes cap update (a :: key)).1.heads at hb
      rw [hheads] at hb
      rw [List.mem_singleton.1 hb]
      rfl
    · exact List.Perm.of_eq hentries
  | node left right further a key value hl hr hf hleft hright hcap ihl ihr ihf =>
    rcases key_cases k (a :: key) with ⟨p, b, k, y, c, rfl, hcur, hne⟩ | ⟨k, rfl⟩ | ⟨y, c, hcur⟩
    · cases p with
      | nil =>
        obtain ⟨rfl, rfl⟩ := List.cons.inj hcur
        rw [List.nil_append]
        rcases lt_or_gt_of_ne hne with hlt | hgt
        · rw [getOrCreate_left _ _ _ _ _ _ hlt]
          exact inserts_left hl hr hf hleft hright hcap hlt (ihl (List.cons_ne_nil _ _))
        · rw [getOrCreate_right _ _ _ _ _ _ hgt]
          exact inserts_right hl hr hf hleft hright hcap hgt (ihr (List.cons_ne_nil _ _))
      | cons a' p =>
        obtain ⟨rfl, rfl⟩ := List.cons.inj hcur
        have hdiffer := getOrCreate_differ cap update left right further value
          (List.cons_ne_nil a p) hne k c
        rw [← hcur] at hdiffer
        rw [hdiffer]
        have hcap' : (a :: p ++ y :: c).length ≤ cap := by
          rw [← hcur]
          exact hcap
        have hinserts := @inserts_differ _ _ _ _ _ _ _ _ _ _ value hl hr hf hleft hright hupdate _ _ _ hne
          k c hcap'
        rw [← hcur] at hinserts
        exact hinserts
    · by_cases hnil : k = []
      · rw [hnil, List.append_nil, getOrCreate_exact]
        exact inserts_exact hl hr hf hleft hright hcap hupdate
      · rw [getOrCreate_further _ _ _ _ _ _ _ hnil]
        exact inserts_further hl hr hf hleft hright hcap hnil (ihf hnil)
    · obtain ⟨b, p, rfl⟩ := List.exists_cons_of_ne_nil hk
      obtain ⟨rfl, rfl⟩ := List.cons.inj hcur
      have hshort := getOrCreate_short cap update left right further value (a :: p) y c
      rw [← hcur] at hshort
      rw [hshort]
      have hcap' : (a :: p ++ y :: c).length ≤ cap := by
        rw [← hcur]
        exact hcap
      have hinserts := @inserts_short _ _ _ _ _ _ _ _ _ _ value hl hr hf hleft hright hupdate _ _ _ hcap'
      rw [← hcur] at hinserts
      exact hinserts

/-- What an insertion does to the map: nothing when the key is there, otherwise it adds the entry. -/
theorem Tree.inserts (hupdate : Inserting update x) {t : Node α β} (h : Tree cap t) (k : List α) :
    Tree cap (t.getOrCreatePrefixNode cap update k).1 ∧
    ((k ∈ keys t.entries ∧ (t.getOrCreatePrefixNode cap update k).1 = t ∧
        (t.getOrCreatePrefixNode cap update k).2 = some false) ∨
      (k ∉ keys t.entries ∧ (t.getOrCreatePrefixNode cap update k).1.entries.Perm ((k, x) :: t.entries) ∧
        (t.getOrCreatePrefixNode cap update k).2 = some true)) := by
  rcases h with h | ⟨further, value, hf, rfl⟩
  · by_cases hk : k = []
    · subst hk
      have hnot : [] ∉ keys t.entries := not_mem_keys h.not_prefix_nil
      cases h with
      | null =>
        rw [getOrCreatePrefixNode, createNodes_nil hupdate]
        exact ⟨.inr ⟨null, some x, .null, rfl⟩, .inr ⟨hnot, List.Perm.refl _, rfl⟩⟩
      | node left right further a key value hl hr hf hleft hright hcap =>
        -- the whole tree goes behind a root with an empty key
        have hshort := getOrCreate_short cap update left right further value [] a key
        rw [List.nil_append] at hshort
        rw [hshort, splitNode, if_neg (not_not.2 List.length_nil), updateValue_none hupdate]
        refine ⟨.inr ⟨_, some x, .node _ _ _ _ _ _ hl hr hf hleft hright hcap, rfl⟩, .inr ⟨hnot, ?_, rfl⟩⟩
        have hid : (under ([] : List α) : List α × β → _) = id := rfl
        change ([] ++ ([([], x)] ++ (node left right further (a :: key) value).entries.map (under [])) ++ []).Perm _
        rw [hid, List.map_id, List.nil_append, List.append_nil]
        exact List.Perm.refl _
    · have hinserts := h.inserts hupdate hk
      exact ⟨.inl hinserts.siblings, hinserts.result⟩
  · by_cases hk : k = []
    · subst hk
      rw [getOrCreate_exact]
      cases value with
      | some v =>
        rw [updateValue_some hupdate]
        refine ⟨.inr ⟨further, some v, hf, rfl⟩, .inl ⟨?_, rfl, rfl⟩⟩
        exact List.mem_cons_self
      | none =>
        rw [updateValue_none hupdate]
        refine ⟨.inr ⟨further, some x, hf, rfl⟩, .inr ⟨?_, List.Perm.refl _, rfl⟩⟩
        have hnil := not_mem_keys hf.not_prefix_nil
        have hiff := mem_keys_under [] [] further.entries
        rw [entries, keys_append, keys_append]
        simp only [List.append_nil] at hiff
        rintro ((hmem | hmem) | hmem)
        · exact absurd hmem List.not_mem_nil
        · exact hnil (hiff.1 hmem)
        · exact absurd hmem List.not_mem_nil
    · have hfurther := getOrCreate_further cap update null null further value [] hk
      rw [List.nil_append] at hfurther
      rw [hfurther]
      obtain ⟨hsiblings, -, hresult⟩ := hf.inserts hupdate hk
      have hid : (under ([] : List α) : List α × β → _) = id := rfl
      have hentries : ∀ further : Node α β, (node null null further [] value).entries =
          ownEntry [] value ++ further.entries := by
        intro further
        rw [entries, hid, List.map_id]
        exact List.append_nil _
      have hown : k ∉ keys (ownEntry [] value) := by
        cases value with
        | none => exact List.not_mem_nil
        | some v => exact fun hmem => hk (List.mem_singleton.1 hmem)
      refine ⟨.inr ⟨_, value, hsiblings, rfl⟩, ?_⟩
      rw [hentries, hentries, keys_append]
      simp only [hown, false_or]
      rcases hresult with ⟨hmem, hsame, hresult⟩ | ⟨hmem, hperm, hresult⟩
      · exact .inl ⟨hmem, by rw [hsame], hresult⟩
      · exact .inr ⟨hmem, (hperm.append_left _).trans List.perm_middle, hresult⟩

theorem Tree.insertLazy_spec {t : Node α β} (h : Tree cap t) (k : List α) (create : Unit → β) :
    Tree cap (t.insertLazy cap k create).1 ∧
    ((k ∈ keys t.entries ∧ (t.insertLazy cap k create).1 = t ∧ (t.insertLazy cap k create).2 = some false) ∨
      (k ∉ keys t.entries ∧ (t.insertLazy cap k create).1.entries.Perm ((k, create ()) :: t.entries) ∧
        (t.insertLazy cap k create).2 = some true)) :=
  h.inserts ⟨rfl, fun _ => rfl⟩ k

end Insert

/-! ## Runs -/

inductive Op (α β : Type) where
  | insert (key : List α) (value : β)
  | findPrefix (key : List α)

def Op.run (cap : ℕ+) (t : Node α β) : Op α β → Node α β
  | insert key value => (t.insertLazy cap key fun _ => value).1
  | findPrefix _ => t

def Op.addEntry (m : List (List α × β)) : Op α β → List (List α × β)
  | insert key value => if key ∈ keys m then m else (key, value) :: m
  | findPrefix _ => m

omit [LinearOrder α] in
/-- The keys that are inserted. -/
def insertedKeys : List (Op α β) → List (List α)
  | [] => []
  | .insert key _ :: ops => key :: insertedKeys ops
  | .findPrefix _ :: ops => insertedKeys ops

def run (cap : ℕ+) (ops : List (Op α β)) : Node α β := ops.foldl (Op.run cap) null

def runEntries (ops : List (Op α β)) : List (List α × β) := ops.foldl Op.addEntry []

/-- The tree holds the entries `m`, one for each key. -/
structure Represents (cap : ℕ+) (t : Node α β) (m : List (List α × β)) : Prop where
  tree : Tree cap t
  perm : t.entries.Perm m
  nodup : (keys m).Nodup

section Runs

variable {cap : ℕ+} {t : Node α β} {m : List (List α × β)}

theorem Represents.mem_keys (h : Represents cap t m) (k : List α) : k ∈ keys t.entries ↔ k ∈ keys m :=
  (h.perm.map Prod.fst).mem_iff

theorem Represents.step (h : Represents cap t m) (op : Op α β) :
    Represents cap (op.run cap t) (op.addEntry m) := by
  cases op with
  | findPrefix key => exact h
  | insert key value =>
    obtain ⟨htree, hresult⟩ := h.tree.insertLazy_spec key fun _ => value
    rw [h.mem_keys] at hresult
    rcases hresult with ⟨hmem, hsame, -⟩ | ⟨hmem, hperm, -⟩
    · refine ⟨htree, ?_, ?_⟩
      · change (t.insertLazy cap key fun _ => value).1.entries.Perm (if key ∈ keys m then m else _)
        rw [hsame, if_pos hmem]
        exact h.perm
      · change (keys (if key ∈ keys m then m else _)).Nodup
        rw [if_pos hmem]
        exact h.nodup
    · refine ⟨htree, ?_, ?_⟩
      · change (t.insertLazy cap key fun _ => value).1.entries.Perm (if key ∈ keys m then m else _)
        rw [if_neg hmem]
        exact hperm.trans (h.perm.cons _)
      · change (keys (if key ∈ keys m then m else _)).Nodup
        rw [if_neg hmem]
        exact List.nodup_cons.2 ⟨hmem, h.nodup⟩

theorem run_represents (cap : ℕ+) (ops : List (Op α β)) : Represents cap (run cap ops) (runEntries ops) := by
  induction ops using List.reverseRecOn with
  | nil => exact ⟨.inl .null, List.Perm.refl _, List.nodup_nil⟩
  | append_singleton ops op ih =>
    unfold run runEntries
    rw [List.foldl_append, List.foldl_append]
    exact ih.step op

theorem mem_keys_runEntries (ops : List (Op α β)) (k : List α) :
    k ∈ keys (runEntries ops) ↔ k ∈ insertedKeys ops := by
  have hgeneral : ∀ m : List (List α × β), k ∈ keys (ops.foldl Op.addEntry m) ↔
      k ∈ keys m ∨ k ∈ insertedKeys ops := by
    induction ops with
    | nil => exact fun m => (or_iff_left List.not_mem_nil).symm
    | cons op ops ih =>
      intro m
      rw [List.foldl_cons, ih]
      cases op with
      | findPrefix key => exact Iff.rfl
      | insert key value =>
        change (k ∈ keys (if key ∈ keys m then m else (key, value) :: m) ∨ k ∈ insertedKeys ops) ↔
          (k ∈ keys m ∨ k ∈ key :: insertedKeys ops)
        split_ifs with hmem
        · rw [List.mem_cons, ← or_assoc]
          exact or_congr_left ⟨.inl, fun h => h.elim id fun heq => heq ▸ hmem⟩
        · unfold keys
          rw [List.map_cons, List.mem_cons, List.mem_cons, or_comm (a := k = key), or_assoc]
  exact (hgeneral []).trans (or_iff_right List.not_mem_nil)

/-- In every run: the invariant holds, the size counts the distinct keys, the next insertion and the next
lookup tell what the entries say. -/
theorem run_faithful (cap : ℕ+) (ops : List (Op α β)) :
    Tree cap (run cap ops) ∧ (run cap ops).entries.Perm (runEntries ops) ∧
    (run cap ops).size = (insertedKeys ops).toFinset.card ∧
    (∀ key value, ((run cap ops).insertLazy cap key fun _ => value).2 =
        some (decide (key ∉ insertedKeys ops)) ∧
      (key ∈ insertedKeys ops → ((run cap ops).insertLazy cap key fun _ => value).1 = run cap ops) ∧
      (key ∉ insertedKeys ops → ((run cap ops).insertLazy cap key fun _ => value).1.entries.Perm
        ((key, value) :: runEntries ops))) ∧
    ∀ key, Longest (runEntries ops) key none ((run cap ops).findPrefix key) := by
  have h := run_represents cap ops
  have hkeys := mem_keys_runEntries ops
  refine ⟨h.tree, h.perm, ?_, fun key value => ?_, fun key => ?_⟩
  · have hset : (insertedKeys ops).toFinset = (keys (runEntries ops)).toFinset := by
      ext k
      rw [List.mem_toFinset, List.mem_toFinset, hkeys]
    rw [size_eq_length, hset, List.toFinset_card_of_nodup h.nodup, h.perm.length_eq, keys, List.length_map]
  · obtain ⟨-, hresult⟩ := h.tree.insertLazy_spec key fun _ => value
    rw [h.mem_keys, hkeys] at hresult
    rcases hresult with ⟨hmem, hsame, hfalse⟩ | ⟨hmem, hperm, htrue⟩
    · exact ⟨by rw [hfalse, decide_eq_false (not_not.2 hmem)], fun _ => hsame, fun hnot => absurd hmem hnot⟩
    · exact ⟨by rw [htrue, decide_eq_true hmem], fun hin => absurd hin hmem,
        fun _ => hperm.trans (h.perm.cons _)⟩
  · exact (h.tree.findPrefix_longest key).of_subset (fun e he => h.perm.mem_iff.1 he)
      fun e he _ => h.perm.mem_iff.2 he

end Runs

end Node

end SwiftKStdlib.PrefixMap
