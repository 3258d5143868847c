import SwiftKStdlib.PrefixMap.Insertion

/-!
# Iteration

* `Stack`, `enter`, `increment`, `begin` : the iterator, a stack of nodes with what is visited of them;
* `getKey`, `deref` : the key handle and the entry at an iterator;
* `At` : an iterator stands before the entries that are left; `At.increment`, `at_begin`;
* `Siblings.sorted` : the entries in lexicographic order; `iterates_sorted` : all entries, in this order.
-/

namespace SwiftKStdlib.PrefixMap

/-- What is visited of a node on the stack: its left subtree, or its value and its further subtree. It is
taken from the stack before its right subtree. -/
inductive Position where
  | left
  | further
  deriving DecidableEq, Repr

namespace Node

variable {α β : Type}

def right : Node α β → Node α β
  | null => null
  | node _ right _ _ _ => right

def further : Node α β → Node α β
  | null => null
  | node _ _ further _ _ => further

def getLocalKey : Node α β → List α
  | null => []
  | node _ _ _ key _ => key

def value : Node α β → Option β
  | null => none
  | node _ _ _ _ value => value

section Fields

variable (l r f : Node α β) (key : List α) (v : Option β)

@[simp] theorem right_node : (node l r f key v).right = r := rfl

@[simp] theorem further_node : (node l r f key v).further = f := rfl

@[simp] theorem getLocalKey_node : (node l r f key v).getLocalKey = key := rfl

@[simp] theorem value_node : (node l r f key v).value = v := rfl

end Fields

abbrev Stack (α β : Type) := List (Node α β × Position)

/-- `Stack.back().setInt`. -/
def setInt (pos : Position) : Stack α β → Stack α β
  | [] => []
  | (n, _) :: rest => (n, pos) :: rest

/-- Goes to the first entry of the node and its siblings; false when there is none. -/
def enter : Node α β → Stack α β → Bool × Stack α β
  | null, stack => (false, stack)
  | node left right further key value, stack =>
    let entered := left.enter ((node left right further key value, .left) :: stack)
    if entered.1 then entered
    else
      let stack := setInt .further entered.2
      if value.isSome then (true, stack)
      else
        let entered := further.enter stack
        if entered.1 then entered else right.enter entered.2.tail

theorem enter_of_false (n : Node α β) : ∀ stack : Stack α β, (n.enter stack).1 = false →
    (n.enter stack).2 = stack := by
  induction n with
  | null => exact fun _ _ => rfl
  | node left right further key value ihl ihr ihf =>
    intro stack hfalse
    unfold enter at hfalse ⊢
    dsimp only at hfalse ⊢
    split_ifs at hfalse ⊢ with hleft hvalue hfurther
    · exact absurd hfalse (by rw [hleft]; exact Bool.noConfusion)
    · exact absurd hfalse (by rw [hfurther]; exact Bool.noConfusion)
    · have hstack := ihl _ (Bool.eq_false_iff.2 hleft)
      have hstack' := ihf _ (Bool.eq_false_iff.2 hfurther)
      rw [hstack', hstack] at hfalse ⊢
      exact ihr stack hfalse

theorem enter_node (left right further : Node α β) (key : List α) (value : Option β) (stack : Stack α β) :
    (node left right further key value).enter stack =
      if (left.enter ((node left right further key value, .left) :: stack)).1 then
        left.enter ((node left right further key value, .left) :: stack)
      else if value.isSome then (true, (node left right further key value, .further) :: stack)
      else if (further.enter ((node left right further key value, .further) :: stack)).1 then
        further.enter ((node left right further key value, .further) :: stack)
      else right.enter stack := by
  rw [enter]
  dsimp only
  by_cases hleft : (left.enter ((node left right further key value, .left) :: stack)).1 = true
  · rw [if_pos hleft, if_pos hleft]
  · rw [if_neg hleft, if_neg hleft, enter_of_false _ _ (Bool.eq_false_iff.2 hleft), setInt]
    by_cases hfurther : (further.enter ((node left right further key value, .further) :: stack)).1 = true
    · rw [if_pos hfurther, if_pos hfurther]
    · rw [if_neg hfurther, if_neg hfurther, enter_of_false _ _ (Bool.eq_false_iff.2 hfurther), List.tail_cons]

/-- The `do` loop of `operator++`. It ends with true where the operator returns, and otherwise with a node on
the stack whose left subtree is visited. -/
def popVisited : Stack α β → Bool × Stack α β
  | [] => (true, [])
  | (top, _) :: stack =>
    let entered := top.right.enter stack
    if hentered : entered.1 then entered
    else
      match hstack : entered.2 with
      | [] => (true, [])
      | (n, .left) :: stack => (false, (n, .left) :: stack)
      | (n, .further) :: stack => popVisited ((n, .further) :: stack)
  termination_by stack => stack.length
  decreasing_by
    have hsame := enter_of_false _ _ (Bool.eq_false_iff.2 hentered)
    rw [← hstack, hsame]
    exact Nat.lt_succ_self _

theorem popVisited_cons (top : Node α β) (pos : Position) (stack : Stack α β) :
    popVisited ((top, pos) :: stack) =
      if (top.right.enter stack).1 then top.right.enter stack
      else
        match stack with
        | [] => (true, [])
        | (n, .left) :: stack => (false, (n, .left) :: stack)
        | (n, .further) :: stack => popVisited ((n, .further) :: stack) := by
  rw [popVisited]
  split_ifs with hentered
  · rfl
  · have hsame := enter_of_false _ _ (Bool.eq_false_iff.2 hentered)
    split
    next hstack => rw [← hsame, hstack]
    next hstack => rw [← hsame, hstack]
    next hstack => rw [← hsame, hstack]

theorem popVisited_of_false (stack : Stack α β) (hfalse : (popVisited stack).1 = false) :
    ∃ n rest, (popVisited stack).2 = (n, .left) :: rest ∧ rest.length + 1 < stack.length := by
  induction stack with
  | nil => rw [popVisited] at hfalse; exact Bool.noConfusion hfalse
  | cons entry stack ih =>
    obtain ⟨top, pos⟩ := entry
    rw [popVisited_cons] at hfalse ⊢
    split_ifs at hfalse ⊢ with hentered
    · exact absurd hfalse (by rw [hentered]; exact Bool.noConfusion)
    · split at hfalse
      · exact Bool.noConfusion hfalse
      next n rest => exact ⟨n, rest, rfl, Nat.lt_succ_self _⟩
      next n rest =>
        obtain ⟨n', rest', heq, hlt⟩ := ih hfalse
        exact ⟨n', rest', heq, Nat.lt_succ_of_lt hlt⟩

/-- `operator++`. The source asserts that the stack is not empty. -/
def increment : Stack α β → Stack α β
  | [] => []
  | (n, pos) :: stack =>
    if pos = .left ∧ n.value.isSome then (n, .further) :: stack
    else
      let entered := n.further.enter ((n, .further) :: stack)
      if hentered : entered.1 then entered.2
      else
        let popped := popVisited entered.2
        if hpopped : popped.1 then popped.2 else increment popped.2
  termination_by stack => stack.length
  decreasing_by
    have hsame := enter_of_false _ _ (Bool.eq_false_iff.2 hentered)
    obtain ⟨n', rest, heq, hlt⟩ := popVisited_of_false _ (Bool.eq_false_iff.2 hpopped)
    rw [heq]
    rw [hsame] at hlt
    exact hlt

theorem increment_cons (n : Node α β) (pos : Position) (stack : Stack α β) :
    increment ((n, pos) :: stack) =
      if pos = .left ∧ n.value.isSome then (n, .further) :: stack
      else if (n.further.enter ((n, .further) :: stack)).1 then (n.further.enter ((n, .further) :: stack)).2
      else if (popVisited ((n, .further) :: stack)).1 then (popVisited ((n, .further) :: stack)).2
      else increment (popVisited ((n, .further) :: stack)).2 := by
  rw [increment]
  by_cases hentered : (n.further.enter ((n, .further) :: stack)).1 = true
  · simp only [dif_pos hentered, if_pos hentered]
  · have hsame := enter_of_false _ _ (Bool.eq_false_iff.2 hentered)
    simp only [dif_neg hentered, if_neg hentered, hsame]
    rfl

def begin (root : Node α β) : Stack α β := (root.enter []).2

/-- `getKey` : the local keys of the nodes whose further subtree is visited, and of the top. -/
def getKey : Stack α β → List α
  | [] => []
  | (n, _) :: path =>
    path.reverse.foldl (fun buffer entry =>
      if entry.2 ≠ .further then buffer else buffer ++ entry.1.getLocalKey) [] ++ n.getLocalKey

/-- `operator*` : the key and the value. The source asserts that there is one. -/
def deref : Stack α β → Option (List α × β)
  | [] => none
  | (n, pos) :: path => n.value.map fun value => (getKey ((n, pos) :: path), value)

/-! ## What is left to visit -/

/-- The local keys of the `Further` links that were followed. -/
def nonLocalPrefix : Stack α β → List α
  | [] => []
  | (_, .left) :: stack => nonLocalPrefix stack
  | (n, .further) :: stack => nonLocalPrefix stack ++ n.getLocalKey

theorem getKey_cons (n : Node α β) (pos : Position) (path : Stack α β) :
    getKey ((n, pos) :: path) = nonLocalPrefix path ++ n.getLocalKey := by
  refine congrArg (· ++ n.getLocalKey) ?_
  induction path with
  | nil => rfl
  | cons entry path ih =>
    obtain ⟨m, pos⟩ := entry
    rw [List.reverse_cons, List.foldl_append, List.foldl_cons, List.foldl_nil, ih]
    cases pos with
    | left => rfl
    | further => rfl

def ownAndFurther (n : Node α β) : List (List α × β) :=
  ownEntry n.getLocalKey n.value ++ n.further.entries.map (under n.getLocalKey)

/-- The entries behind what the top of the stack is visiting. -/
def after : Stack α β → List (List α × β)
  | [] => []
  | (n, .left) :: stack => (n.ownAndFurther ++ n.right.entries).map (under (nonLocalPrefix stack)) ++ after stack
  | (n, .further) :: stack => n.right.entries.map (under (nonLocalPrefix stack)) ++ after stack

/-- The entries that the loop of `operator++` goes through. -/
def todo : Stack α β → List (List α × β)
  | [] => []
  | (n, .left) :: stack => after ((n, .left) :: stack)
  | (n, .further) :: stack =>
    n.further.entries.map (under (nonLocalPrefix ((n, .further) :: stack))) ++ after ((n, .further) :: stack)

def At (stack : Stack α β) : List (List α × β) → Prop
  | [] => stack = []
  | e :: es => ∃ n rest, stack = (n, .further) :: rest ∧ deref stack = some e ∧ todo stack = es

theorem enter_at (n : Node α β) : ∀ stack : Stack α β,
    ((n.enter stack).1 = true → At (n.enter stack).2 (n.entries.map (under (nonLocalPrefix stack)) ++ after stack)) ∧
    ((n.enter stack).1 = false → n.entries = []) := by
  induction n with
  | null => exact fun stack => ⟨fun h => Bool.noConfusion h, fun _ => rfl⟩
  | node left right further key value ihl ihr ihf =>
    intro stack
    obtain ⟨hleft, hleft'⟩ := ihl ((node left right further key value, .left) :: stack)
    obtain ⟨hfurther, hfurther'⟩ := ihf ((node left right further key value, .further) :: stack)
    obtain ⟨hright, hright'⟩ := ihr stack
    have hentries : (node left right further key value).entries.map (under (nonLocalPrefix stack)) ++ after stack =
        left.entries.map (under (nonLocalPrefix stack)) ++
          after ((node left right further key value, .left) :: stack) := by
      simp only [entries, after, ownAndFurther, right_node, further_node, getLocalKey_node, value_node,
        List.map_append, List.append_assoc]
    have hown : after ((node left right further key value, .left) :: stack) =
        ownEntry (nonLocalPrefix stack ++ key) value ++
          todo ((node left right further key value, .further) :: stack) := by
      simp only [after, todo, ownAndFurther, nonLocalPrefix, right_node, further_node, getLocalKey_node,
        value_node, List.map_append, map_under_under, map_under_ownEntry, List.append_assoc]
    rw [enter_node]
    split_ifs with hin hvalue hin'
    · refine ⟨fun _ => ?_, fun hfalse => absurd hin (Bool.eq_false_iff.1 hfalse)⟩
      rw [hentries]
      exact hleft hin
    · refine ⟨fun _ => ?_, False.elim⟩
      obtain ⟨v, rfl⟩ := Option.isSome_iff_exists.1 hvalue
      rw [hentries, hleft' (Bool.eq_false_iff.2 hin), hown]
      refine ⟨_, _, rfl, ?_, rfl⟩
      rw [deref, value_node, Option.map_some, getKey_cons, getLocalKey_node]
    · refine ⟨fun _ => ?_, fun hfalse => absurd hin' (Bool.eq_false_iff.1 hfalse)⟩
      rw [Bool.not_eq_true, Option.isSome_eq_false_iff, Option.isNone_iff_eq_none] at hvalue
      subst hvalue
      rw [hentries, hleft' (Bool.eq_false_iff.2 hin), hown]
      exact hfurther hin'
    · rw [Bool.not_eq_true, Option.isSome_eq_false_iff, Option.isNone_iff_eq_none] at hvalue
      subst hvalue
      have hfirst : left.entries = [] := hleft' (Bool.eq_false_iff.2 hin)
      have hsecond : further.entries = [] := hfurther' (Bool.eq_false_iff.2 hin')
      refine ⟨fun hfound => ?_, fun hfalse => ?_⟩
      · rw [entries, hfirst, hsecond]
        exact hright hfound
      · rw [entries, hfirst, hsecond, hright' hfalse]
        rfl

/-! ## Each step -/

theorem popVisited_at (stack : Stack α β) (n : Node α β) (pos : Position) :
    ((popVisited ((n, pos) :: stack)).1 = true →
      At (popVisited ((n, pos) :: stack)).2 (after ((n, .further) :: stack))) ∧
    ((popVisited ((n, pos) :: stack)).1 = false →
      after (popVisited ((n, pos) :: stack)).2 = after ((n, .further) :: stack)) := by
  induction stack generalizing n pos with
  | nil =>
    obtain ⟨hright, hright'⟩ := enter_at n.right []
    rw [popVisited_cons]
    split_ifs with hin
    · exact ⟨hright, fun hfalse => absurd hin (Bool.eq_false_iff.1 hfalse)⟩
    · refine ⟨fun _ => ?_, False.elim⟩
      rw [after, hright' (Bool.eq_false_iff.2 hin)]
      rfl
  | cons entry stack ih =>
    obtain ⟨m, mpos⟩ := entry
    obtain ⟨hright, hright'⟩ := enter_at n.right ((m, mpos) :: stack)
    rw [popVisited_cons]
    split_ifs with hin
    · exact ⟨hright, fun hfalse => absurd hin (Bool.eq_false_iff.1 hfalse)⟩
    · have hnone := hright' (Bool.eq_false_iff.2 hin)
      have hafter : after ((n, .further) :: (m, mpos) :: stack) = after ((m, mpos) :: stack) := by
        rw [after, hnone]
        rfl
      rw [hafter]
      cases mpos with
      | left => exact ⟨fun htrue => Bool.noConfusion htrue, fun _ => rfl⟩
      | further => exact ih m .further

theorem todo_left (n : Node α β) (stack : Stack α β) : todo ((n, .left) :: stack) =
    ownEntry (nonLocalPrefix stack ++ n.getLocalKey) n.value ++ todo ((n, .further) :: stack) := by
  simp only [after, todo, ownAndFurther, nonLocalPrefix, List.map_append, map_under_under,
    map_under_ownEntry, List.append_assoc]

theorem increment_at_todo (stack : Stack α β) : At (increment stack) (todo stack) := by
  induction hlen : stack.length using Nat.strong_induction_on generalizing stack with
  | _ len ih =>
    subst hlen
    cases stack with
    | nil =>
      rw [increment]
      exact rfl
    | cons entry stack =>
      obtain ⟨n, pos⟩ := entry
      rw [increment_cons]
      split_ifs with hvalue hin hpopped
      · obtain ⟨rfl, hsome⟩ := hvalue
        obtain ⟨v, hv⟩ := Option.isSome_iff_exists.1 hsome
        rw [todo_left, hv]
        refine ⟨n, stack, rfl, ?_, rfl⟩
        rw [deref, hv, Option.map_some, getKey_cons]
      all_goals
        have htodo : todo ((n, pos) :: stack) = todo ((n, .further) :: stack) := by
          cases pos with
          | further => rfl
          | left =>
            have hnone : n.value = none := by simpa using hvalue
            rw [todo_left, hnone]
            rfl
        obtain ⟨henter, henter'⟩ := enter_at n.further ((n, .further) :: stack)
        rw [htodo]
      · exact henter hin
      all_goals
        have hafter : todo ((n, .further) :: stack) = after ((n, .further) :: stack) := by
          rw [todo, henter' (Bool.eq_false_iff.2 hin)]
          rfl
        obtain ⟨hpop, hpop'⟩ := popVisited_at stack n .further
        rw [hafter]
      · exact hpop hpopped
      · have hfalse := Bool.eq_false_iff.2 hpopped
        obtain ⟨m, rest, heq, hlt⟩ := popVisited_of_false _ hfalse
        rw [← hpop' hfalse, heq]
        exact ih _ hlt ((m, .left) :: rest) rfl

theorem At.increment {stack : Stack α β} {e : List α × β} {es : List (List α × β)} (h : At stack (e :: es)) :
    At (increment stack) es := by
  obtain ⟨n, rest, -, -, htodo⟩ := h
  rw [← htodo]
  exact increment_at_todo stack

theorem at_begin (root : Node α β) : At root.begin root.entries := by
  obtain ⟨hfound, hnone⟩ := enter_at root []
  unfold begin
  cases hin : (root.enter []).1 with
  | true =>
    have hroot := hfound hin
    have hid : (under ([] : List α) : List α × β → _) = id := rfl
    rwa [nonLocalPrefix, after, List.append_nil, hid, List.map_id] at hroot
  | false =>
    rw [hnone hin, enter_of_false _ _ hin]
    exact rfl

/-- The loop from an iterator to the end, with the entries that it gets to. -/
inductive Visits : Stack α β → List (List α × β) → Prop where
  | done : Visits [] []
  | next {stack : Stack α β} {e : List α × β} {es : List (List α × β)} : stack ≠ [] →
      deref stack = some e → Visits (increment stack) es → Visits stack (e :: es)

theorem At.visits {stack : Stack α β} {es : List (List α × β)} (h : At stack es) : Visits stack es := by
  induction es generalizing stack with
  | nil =>
    rw [show stack = [] from h]
    exact .done
  | cons e es ih =>
    have hnext := ih h.increment
    obtain ⟨n, rest, rfl, hderef, -⟩ := h
    exact .next (List.cons_ne_nil _ _) hderef hnext

theorem Visits.unique {stack : Stack α β} {es es' : List (List α × β)} (h : Visits stack es)
    (h' : Visits stack es') : es' = es := by
  induction h generalizing es' with
  | done =>
    cases h' with
    | done => rfl
    | next hne => exact absurd rfl hne
  | next hne hderef _ ih =>
    cases h' with
    | done => exact absurd rfl hne
    | next _ hderef' hrest =>
      rw [ih hrest, Option.some.inj (hderef'.symm.trans hderef)]

/-! ## The order -/

variable [LinearOrder α]

def Sorted (es : List (List α × β)) : Prop := es.Pairwise fun e e' => List.Lex (· < ·) e.1 e'.1

omit [LinearOrder α] in
theorem lex_append {r : α → α → Prop} (p : List α) {k k' : List α} (h : List.Lex r k k') :
    List.Lex r (p ++ k) (p ++ k') := by
  induction p with
  | nil => exact h
  | cons a p ih => exact .cons ih

theorem Sorted.under {es : List (List α × β)} (h : Sorted es) (p : List α) : Sorted (es.map (under p)) :=
  List.pairwise_map.2 (h.imp fun hlex => lex_append p hlex)

theorem Sorted.ownEntry {es : List (List α × β)} (h : Sorted es) (key : List α) (value : Option β)
    (hne : ∀ e ∈ es, e.1 ≠ []) : Sorted (ownEntry key value ++ es.map (Node.under key)) := by
  refine List.pairwise_append.2 ⟨?_, h.under key, fun e he e' he' => ?_⟩
  · cases value with
    | none => exact List.Pairwise.nil
    | some v => exact List.pairwise_singleton _ _
  · obtain ⟨e'', he'', rfl⟩ := List.mem_map.1 he'
    obtain ⟨a, k, hkey⟩ := List.exists_cons_of_ne_nil (hne e'' he'')
    cases value with
    | none => exact absurd he List.not_mem_nil
    | some v =>
      rw [List.mem_singleton.1 he, Node.under, hkey]
      have hlex := lex_append (r := fun x y : α => x < y) key (List.Lex.nil (a := a) (l := k))
      rwa [List.append_nil] at hlex

theorem Siblings.ne_nil {cap : ℕ+} {t : Node α β} (h : Siblings cap t) {e : List α × β}
    (he : e ∈ t.entries) : e.1 ≠ [] := by
  obtain ⟨a, -, k, hkey⟩ := h.exists_head he
  rw [hkey]
  exact List.cons_ne_nil a k

theorem Siblings.sorted {cap : ℕ+} {t : Node α β} (h : Siblings cap t) : Sorted t.entries := by
  induction h with
  | null => exact List.Pairwise.nil
  | node left right further a key value hl hr hf hleft hright _ ihl ihr ihf =>
    have hbelow := ihf.ownEntry (a :: key) value fun e he => hf.ne_nil he
    have hhead : ∀ e ∈ Node.ownEntry (a :: key) value ++ further.entries.map (Node.under (a :: key)),
        ∃ k, e.1 = a :: k := by
      intro e he
      obtain ⟨k, hkey⟩ := prefix_of_mem_below he
      exact ⟨key ++ k, hkey.symm⟩
    have hless : ∀ e ∈ left.entries, ∃ b < a, ∃ k, e.1 = b :: k := by
      intro e he
      obtain ⟨b, hb, hkey⟩ := hl.exists_head he
      exact ⟨b, hleft b hb, hkey⟩
    have hgreater : ∀ e ∈ right.entries, ∃ b, a < b ∧ ∃ k, e.1 = b :: k := by
      intro e he
      obtain ⟨b, hb, hkey⟩ := hr.exists_head he
      exact ⟨b, hright b hb, hkey⟩
    refine List.pairwise_append.2 ⟨List.pairwise_append.2 ⟨ihl, hbelow, ?_⟩, ihr, ?_⟩
    · intro e he e' he'
      obtain ⟨b, hb, k, hkey⟩ := hless e he
      obtain ⟨k', hkey'⟩ := hhead e' he'
      rw [hkey, hkey']
      exact .rel hb
    · intro e he e' he'
      obtain ⟨c, hc, k', hkey'⟩ := hgreater e' he'
      rw [hkey']
      rcases List.mem_append.1 he with he | he
      · obtain ⟨b, hb, k, hkey⟩ := hless e he
        rw [hkey]
        exact .rel (hb.trans hc)
      · obtain ⟨k, hkey⟩ := hhead e he
        rw [hkey]
        exact .rel hc

theorem Tree.sorted {cap : ℕ+} {t : Node α β} (h : Tree cap t) : Sorted t.entries := by
  rcases h with h | ⟨further, value, hf, rfl⟩
  · exact h.sorted
  · have hroot := hf.sorted.ownEntry [] value fun e he => hf.ne_nil he
    change Sorted ([] ++ (Node.ownEntry [] value ++ further.entries.map (Node.under [])) ++ [])
    rw [List.nil_append, List.append_nil]
    exact hroot

/-- After any insertions, the loop from `begin` to the end visits one list of entries: in lexicographic
order, each inserted key once, with the value that was inserted first. -/
theorem iterates_sorted (cap : ℕ+) (ops : List (Op α β)) :
    ∃ es, Visits (run cap ops).begin es ∧ (∀ es', Visits (run cap ops).begin es' → es' = es) ∧ Sorted es ∧
      es.Perm (runEntries ops) ∧ (keys es).Nodup ∧ ∀ k, k ∈ keys es ↔ k ∈ insertedKeys ops := by
  have h := run_represents cap ops
  have hvisits := (at_begin (run cap ops)).visits
  refine ⟨(run cap ops).entries, hvisits, fun _ hother => hvisits.unique hother, h.tree.sorted, h.perm, ?_, ?_⟩
  · exact ((h.perm.map Prod.fst).nodup_iff).2 h.nodup
  · exact fun k => (h.mem_keys k).trans (mem_keys_runEntries ops k)

end Node

end SwiftKStdlib.PrefixMap
