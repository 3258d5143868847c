import Mathlib.Tactic
import Mathlib.Order.Defs.LinearOrder
import Mathlib.Data.PNat.Basic
import Mathlib.Data.List.Perm.Basic

/-!
# Prefix maps and their entries

* `Node` : a node of the ternary tree, or the null pointer;
* `splitNode`, `getOrCreatePrefixNode`, with and without creating an exact match;
* `insertLazy`, `findPrefix`, `size`;
* `entries` : the keys with a value, each the concatenation of the local keys on its path;
* `Siblings`, `Tree` : the invariant of the nodes;
* `Longest` : the entry with the longest key that is a prefix; `findPrefix_longest`.
-/

namespace SwiftKStdlib.PrefixMap

/-- A node, with its sibling links, its local key and its value; `null` for no node. -/
inductive Node (α β : Type) where
  | null
  | node (left right further : Node α β) (key : List α) (value : Option β)
  deriving DecidableEq, Repr

namespace Node

variable {α β ρ : Type}

/-- Splits a node in two. The second part is not empty. -/
def splitNode (left right further : Node α β) (key : List α) (value : Option β) (splitIndex : Nat) :
    Node α β :=
  if splitIndex ≠ 0 then
    node left right (node null null further (key.drop splitIndex) value) (key.take splitIndex) none
  else
    -- the siblings have the empty key as a prefix
    node null null (node left right further key value) [] none

/-- The value of the node that is returned, and what the caller makes of it. -/
def updateValue (update : Option β → Option β × ρ) : Node α β → Node α β × Option ρ
  | null => (null, none)
  | node left right further key value =>
    let (value, result) := update value
    (node left right further key value, some result)

/-- The `do` loop: nodes for the rest of the key. -/
def createNodes (inlineKeyCapacity : ℕ+) (update : Option β → Option β × ρ) (lookupKey : List α) :
    Node α β × Option ρ :=
  let len := min (inlineKeyCapacity : Nat) lookupKey.length
  if hdrop : lookupKey.drop len = [] then
    updateValue update (node null null null (lookupKey.take len) none)
  else
    let (further, result) := createNodes inlineKeyCapacity update (lookupKey.drop len)
    (node null null further (lookupKey.take len) none, result)
  termination_by lookupKey.length
  decreasing_by
    have hpos := inlineKeyCapacity.pos
    have hrest := List.length_pos_of_ne_nil hdrop
    rw [List.length_drop] at hrest ⊢
    omega

variable [LinearOrder α]

def commonLength : List α → List α → Nat
  | x :: xs, y :: ys => if x ≠ y then 0 else commonLength xs ys + 1
  | _, _ => 0

/-- `lookupKey[i] < curKey[i]`. -/
def goesLeft (lookupKey curKey : List α) (i : Nat) : Bool :=
  match lookupKey.drop i, curKey.drop i with
  | x :: _, y :: _ => x < y
  | _, _ => false

/-- `getOrCreatePrefixNode` with a `remainingLookupKey`: the value of the best node, with the rest of the
key behind it. -/
def findPrefixNode : Node α β → List α → Option (β × List α) → Option (β × List α)
  | null, _, best => best
  | node left right further curKey value, lookupKey, best =>
    let len := min curKey.length lookupKey.length
    let i := commonLength lookupKey curKey
    if i ≠ len then
      if i = 0 then
        if goesLeft lookupKey curKey i then left.findPrefixNode lookupKey best
        else right.findPrefixNode lookupKey best
      else best
    else if len = curKey.length then
      let lookupKey := lookupKey.drop len
      let best := match value with
        | some value => some (value, lookupKey)
        | none => best
      if lookupKey = [] then best else further.findPrefixNode lookupKey best
    else best

/-- Behind a split at `i`, the rest of the key is a sibling of the second part. -/
def createSibling (inlineKeyCapacity : ℕ+) (update : Option β → Option β × ρ) (goLeft : Bool)
    (lookupKey : List α) : Node α β → Node α β × Option ρ
  | node left right (node _ _ further' key' value') key value =>
    let (created, result) := createNodes inlineKeyCapacity update lookupKey
    if goLeft then (node left right (node created null further' key' value') key value, result)
    else (node left right (node null created further' key' value') key value, result)
  | other => (other, none)

/-- `getOrCreatePrefixNode` without a `remainingLookupKey`, and what the caller does with the node. -/
def getOrCreatePrefixNode (inlineKeyCapacity : ℕ+) (update : Option β → Option β × ρ) :
    Node α β → List α → Node α β × Option ρ
  | null, lookupKey => createNodes inlineKeyCapacity update lookupKey
  | node left right further curKey value, lookupKey =>
    let len := min curKey.length lookupKey.length
    let i := commonLength lookupKey curKey
    if i ≠ len then
      let goLeft := goesLeft lookupKey curKey i
      if i = 0 then
        if goLeft then
          let (left, result) := left.getOrCreatePrefixNode inlineKeyCapacity update lookupKey
          (node left right further curKey value, result)
        else
          let (right, result) := right.getOrCreatePrefixNode inlineKeyCapacity update lookupKey
          (node left right further curKey value, result)
      else
        createSibling inlineKeyCapacity update goLeft (lookupKey.drop i)
          (splitNode left right further curKey value i)
    else if len = curKey.length then
      let lookupKey := lookupKey.drop len
      if lookupKey = [] then updateValue update (node left right further curKey value)
      else
        let (further, result) := further.getOrCreatePrefixNode inlineKeyCapacity update lookupKey
        (node left right further curKey value, result)
    else updateValue update (splitNode left right further curKey value len)

/-- The map, and whether the entry is new. -/
def insertLazy (inlineKeyCapacity : ℕ+) (root : Node α β) (key : List α) (create : Unit → β) :
    Node α β × Option Bool :=
  root.getOrCreatePrefixNode inlineKeyCapacity
    (fun
      | some value => (some value, false)
      | none => (some (create ()), true))
    key

def findPrefix (root : Node α β) (key : List α) : Option (β × List α) := root.findPrefixNode key none

/-! ## Size -/

omit [LinearOrder α] in
def nodeCount : Node α β → Nat
  | null => 0
  | node left right further _ _ => left.nodeCount + right.nodeCount + further.nodeCount + 1

/-- `handleNode`, for the nodes on the stack; the top is the head. Null pointers, which the source does not
push, are skipped. -/
def handleNodes (result : Nat) : List (Node α β) → Nat
  | [] => result
  | null :: stack => handleNodes result stack
  | node left right further _ value :: stack =>
    handleNodes (if value.isSome then result + 1 else result) (further :: right :: left :: stack)
  termination_by stack => (stack.map fun n => 3 * n.nodeCount + 1).sum
  decreasing_by
    all_goals
      simp only [List.map_cons, List.sum_cons, nodeCount]
      omega

def size (root : Node α β) : Nat := handleNodes 0 [root]

end Node

end SwiftKStdlib.PrefixMap

namespace SwiftKStdlib.PrefixMap

namespace Node

variable {α β : Type}

/-- The entry of a node itself. -/
def ownEntry (key : List α) (value : Option β) : List (List α × β) :=
  match value with
  | some value => [(key, value)]
  | none => []

def under (key : List α) (entry : List α × β) : List α × β := (key ++ entry.1, entry.2)

def entries : Node α β → List (List α × β)
  | null => []
  | node left right further key value =>
    left.entries ++ (ownEntry key value ++ further.entries.map (under key)) ++ right.entries

def heads : Node α β → List α
  | null => []
  | node left right _ key _ => left.heads ++ key.take 1 ++ right.heads

theorem size_eq_length (root : Node α β) : root.size = root.entries.length := by
  have hstack : ∀ (result : Nat) (stack : List (Node α β)),
      handleNodes result stack = result + (stack.map fun n => n.entries.length).sum := by
    intro result stack
    induction result, stack using handleNodes.induct with
    | case1 result => simp [handleNodes]
    | case2 result stack ih =>
      rw [handleNodes, ih]
      simp [entries]
    | case3 result left right further key value stack ih =>
      rw [handleNodes]
      simp only [dite_eq_ite] at ih
      rw [ih]
      cases value with
      | none =>
        simp [entries, ownEntry]
        omega
      | some value =>
        simp [entries, ownEntry]
        omega
  unfold size
  rw [hstack]
  simp

variable [LinearOrder α]

/-- Siblings are a binary search tree on the first elements of their local keys. -/
inductive Siblings (inlineKeyCapacity : ℕ+) : Node α β → Prop where
  | null : Siblings inlineKeyCapacity null
  | node (left right further : Node α β) (a : α) (key : List α) (value : Option β) :
      Siblings inlineKeyCapacity left → Siblings inlineKeyCapacity right →
      Siblings inlineKeyCapacity further → (∀ b ∈ left.heads, b < a) → (∀ b ∈ right.heads, a < b) →
      (a :: key).length ≤ inlineKeyCapacity →
      Siblings inlineKeyCapacity (node left right further (a :: key) value)

def Tree (inlineKeyCapacity : ℕ+) (root : Node α β) : Prop :=
  Siblings inlineKeyCapacity root ∨
    ∃ further value, Siblings inlineKeyCapacity further ∧ root = node null null further [] value

/-! ## Comparing keys -/

section Compare

theorem key_cases (lookupKey curKey : List α) :
    (∃ p x k y c, lookupKey = p ++ x :: k ∧ curKey = p ++ y :: c ∧ x ≠ y) ∨
    (∃ k, lookupKey = curKey ++ k) ∨ ∃ y c, curKey = lookupKey ++ y :: c := by
  induction lookupKey generalizing curKey with
  | nil =>
    cases curKey with
    | nil => exact .inr (.inl ⟨[], rfl⟩)
    | cons y c => exact .inr (.inr ⟨y, c, rfl⟩)
  | cons x k ih =>
    cases curKey with
    | nil => exact .inr (.inl ⟨x :: k, rfl⟩)
    | cons y c =>
      by_cases hxy : x = y
      · subst hxy
        rcases ih c with ⟨p, x', k', y', c', rfl, rfl, hne⟩ | ⟨k', rfl⟩ | ⟨y', c', rfl⟩
        · exact .inl ⟨x :: p, x', k', y', c', rfl, rfl, hne⟩
        · exact .inr (.inl ⟨k', rfl⟩)
        · exact .inr (.inr ⟨y', c', rfl⟩)
      · exact .inl ⟨[], x, k, y, c, rfl, rfl, hxy⟩

theorem commonLength_append (p lookupKey curKey : List α) :
    commonLength (p ++ lookupKey) (p ++ curKey) = p.length + commonLength lookupKey curKey := by
  induction p with
  | nil => exact (Nat.zero_add _).symm
  | cons a p ih =>
    rw [List.cons_append, List.cons_append, commonLength, if_neg (not_not.2 rfl), ih, List.length_cons]
    omega

theorem commonLength_differ (p : List α) {x y : α} (hne : x ≠ y) (k c : List α) :
    commonLength (p ++ x :: k) (p ++ y :: c) = p.length := by
  rw [commonLength_append, commonLength, if_pos hne]
  rfl

theorem commonLength_full (curKey k : List α) : commonLength (curKey ++ k) curKey = curKey.length := by
  have happend := commonLength_append curKey k []
  have hnil : commonLength k [] = 0 := by
    cases k with
    | nil => rfl
    | cons x k => rfl
  rwa [List.append_nil, hnil] at happend

theorem commonLength_short (lookupKey c : List α) :
    commonLength lookupKey (lookupKey ++ c) = lookupKey.length := by
  have happend := commonLength_append lookupKey [] c
  have hnil : commonLength [] c = 0 := by
    cases c with
    | nil => rfl
    | cons x c => rfl
  rwa [List.append_nil, hnil] at happend

theorem goesLeft_append (p : List α) (x y : α) (k c : List α) :
    goesLeft (p ++ x :: k) (p ++ y :: c) p.length = decide (x < y) := by
  unfold goesLeft
  rw [List.drop_left, List.drop_left]

end Compare

/-! ## One node of a search -/

section FindEqns

/-- The best match at a node. -/
def bestAt (value : Option β) (k : List α) (best : Option (β × List α)) : Option (β × List α) :=
  match value with
  | some value => some (value, k)
  | none => best

variable (left right further : Node α β) (value : Option β) (best : Option (β × List α))

theorem findPrefixNode_differ (p : List α) {x y : α} (hne : x ≠ y) (k c : List α) :
    (node left right further (p ++ y :: c) value).findPrefixNode (p ++ x :: k) best =
      if p.length = 0 then
        if x < y then left.findPrefixNode (p ++ x :: k) best else right.findPrefixNode (p ++ x :: k) best
      else best := by
  have hlen : p.length ≠ min (p ++ y :: c).length (p ++ x :: k).length := by
    rw [List.length_append, List.length_append, List.length_cons, List.length_cons]
    omega
  rw [findPrefixNode]
  simp only [commonLength_differ p hne, goesLeft_append, decide_eq_true_eq, ne_eq, hlen,
    not_false_eq_true, if_true]

theorem findPrefixNode_full (curKey k : List α) :
    (node left right further curKey value).findPrefixNode (curKey ++ k) best =
      if k = [] then bestAt value k best else further.findPrefixNode k (bestAt value k best) := by
  have hlen : min curKey.length (curKey ++ k).length = curKey.length := by
    rw [List.length_append]
    omega
  rw [findPrefixNode]
  simp only [commonLength_full, hlen, ne_eq, not_true_eq_false, if_false, if_true, List.drop_left]
  cases value with
  | none => rfl
  | some value => rfl

theorem findPrefixNode_short (lookupKey : List α) (y : α) (c : List α) :
    (node left right further (lookupKey ++ y :: c) value).findPrefixNode lookupKey best = best := by
  have hlen : min (lookupKey ++ y :: c).length lookupKey.length = lookupKey.length := by
    rw [List.length_append]
    omega
  have hne : lookupKey.length ≠ (lookupKey ++ y :: c).length := by
    rw [List.length_append, List.length_cons]
    omega
  rw [findPrefixNode]
  simp only [commonLength_short, hlen, ne_eq, not_true_eq_false, if_false, hne]

end FindEqns

/-! ## Keys of siblings -/

section Keys

variable {cap : ℕ+} {t : Node α β}

theorem Siblings.exists_head (h : Siblings cap t) {e : List α × β} (he : e ∈ t.entries) :
    ∃ a ∈ t.heads, ∃ k, e.1 = a :: k := by
  induction h with
  | null => exact absurd he List.not_mem_nil
  | node left right further a key value _ _ _ _ _ _ ihl ihr _ =>
    rw [entries, List.mem_append, List.mem_append] at he
    rcases he with (he | he) | he
    · obtain ⟨b, hb, hk⟩ := ihl he
      exact ⟨b, List.mem_append_left _ (List.mem_append_left _ hb), hk⟩
    · have hown : ∃ k, e.1 = a :: k := by
        rcases List.mem_append.1 he with he | he
        · cases value with
          | none => exact absurd he List.not_mem_nil
          | some value => exact ⟨key, congrArg Prod.fst (List.mem_singleton.1 he)⟩
        · obtain ⟨e', _, rfl⟩ := List.mem_map.1 he
          exact ⟨key ++ e'.1, rfl⟩
      exact ⟨a, List.mem_append_left _ (List.mem_append_right _ List.mem_cons_self), hown⟩
    · obtain ⟨b, hb, hk⟩ := ihr he
      exact ⟨b, List.mem_append_right _ hb, hk⟩

theorem Siblings.not_prefix (h : Siblings cap t) {e : List α × β} (he : e ∈ t.entries) {k : List α}
    (hk : ∀ a ∈ t.heads, k.head? ≠ some a) : ¬ e.1 <+: k := by
  rintro ⟨rest, rfl⟩
  obtain ⟨a, ha, k', hkey⟩ := h.exists_head he
  rw [hkey] at hk
  exact hk a ha rfl

end Keys

/-! ## The longest prefix -/

/-- The result is the entry with the longest key that is a prefix, with the rest of the key; without one it
is `best`. -/
def Longest (es : List (List α × β)) (key : List α) (best result : Option (β × List α)) : Prop :=
  (∃ e ∈ es, ∃ rest, key = e.1 ++ rest ∧ result = some (e.2, rest) ∧
      ∀ e' ∈ es, e'.1 <+: key → e'.1.length ≤ e.1.length) ∨
    ((∀ e ∈ es, ¬ e.1 <+: key) ∧ result = best)

section Longest

variable {es : List (List α × β)} {key k : List α} {best result : Option (β × List α)}

omit [LinearOrder α] in
theorem Longest.of_none (h : ∀ e ∈ es, ¬ e.1 <+: key) : Longest es key best best := .inr ⟨h, rfl⟩

omit [LinearOrder α] in
theorem Longest.of_subset {es' : List (List α × β)} (h : Longest es key best result)
    (hsub : ∀ e ∈ es, e ∈ es') (hmem : ∀ e ∈ es', e.1 <+: key → e ∈ es) : Longest es' key best result := by
  rcases h with ⟨e, he, rest, hkey, hresult, hmax⟩ | ⟨hnone, hresult⟩
  · refine .inl ⟨e, hsub e he, rest, hkey, hresult, ?_⟩
    exact fun e' he' hkeys => hmax e' (hmem e' he' hkeys) hkeys
  · exact .inr ⟨fun e he hkeys => hnone e (hmem e he hkeys) hkeys, hresult⟩

omit [LinearOrder α] in
theorem Longest.under {value : Option β}
    (h : Longest es k (bestAt value k best) result) :
    Longest (ownEntry key value ++ es.map (under key)) (key ++ k) best result := by
  have hkeys : ∀ e : List α × β, (Node.under key e).1 <+: key ++ k ↔ e.1 <+: k := fun e =>
    List.prefix_append_right_inj key
  rcases h with ⟨e, he, rest, rfl, hresult, hmax⟩ | ⟨hnone, hresult⟩
  · refine .inl ⟨Node.under key e, List.mem_append_right _ (List.mem_map_of_mem he), rest,
      (List.append_assoc _ _ _).symm, hresult, fun e' he' hpre => ?_⟩
    rcases List.mem_append.1 he' with he' | he'
    · cases value with
      | none => exact absurd he' List.not_mem_nil
      | some value =>
        rw [List.mem_singleton.1 he']
        exact (List.prefix_append key e.1).length_le
    · obtain ⟨e'', he'', rfl⟩ := List.mem_map.1 he'
      have hle := hmax e'' he'' ((hkeys e'').1 hpre)
      simp only [Node.under, List.length_append]
      omega
  · have hfurther : ∀ e ∈ es.map (Node.under key), ¬ e.1 <+: key ++ k := by
      intro e he
      obtain ⟨e', he', rfl⟩ := List.mem_map.1 he
      rw [hkeys]
      exact hnone e' he'
    cases value with
    | none => exact .inr ⟨hfurther, hresult⟩
    | some value =>
      refine .inl ⟨(key, value), List.mem_append_left _ (List.mem_singleton_self _), k, rfl, hresult,
        fun e he hpre => ?_⟩
      rcases List.mem_append.1 he with he | he
      · rw [List.mem_singleton.1 he]
      · exact absurd hpre (hfurther e he)

end Longest

/-! ## Finding -/

section Find

variable {cap : ℕ+} {t : Node α β}

theorem Siblings.not_prefix_of_head {left : Node α β} (h : Siblings cap left) {a : α} (k : List α)
    (hne : ∀ b ∈ left.heads, a ≠ b) : ∀ e ∈ left.entries, ¬ e.1 <+: a :: k :=
  fun _ he => h.not_prefix he fun b hb heq => hne b hb (Option.some.inj heq)

theorem Siblings.not_prefix_nil (h : Siblings cap t) : ∀ e ∈ t.entries, ¬ e.1 <+: [] :=
  fun _ he => h.not_prefix he fun _ _ => Option.some_ne_none _ ∘ Eq.symm

omit [LinearOrder α] in
theorem prefix_of_mem_below {key : List α} {value : Option β} {es : List (List α × β)} {e : List α × β}
    (he : e ∈ ownEntry key value ++ es.map (under key)) : key <+: e.1 := by
  rcases List.mem_append.1 he with he | he
  · cases value with
    | none => exact absurd he List.not_mem_nil
    | some value => rw [List.mem_singleton.1 he]
  · obtain ⟨e', _, rfl⟩ := List.mem_map.1 he
    exact List.prefix_append key e'.1

theorem Siblings.findPrefixNode_longest (h : Siblings cap t) (lookupKey : List α)
    (best : Option (β × List α)) :
    Longest t.entries lookupKey best (t.findPrefixNode lookupKey best) := by
  induction h generalizing lookupKey best with
  | null => exact .of_none fun e he => absurd he List.not_mem_nil
  | node left right further a key value hl hr hf hleft hright _ ihl ihr ihf =>
    rw [entries]
    have hkey : ∀ e ∈ ownEntry (a :: key) value ++ further.entries.map (under (a :: key)),
        ∀ k, e.1 <+: k → a :: key <+: k := fun e he k => (prefix_of_mem_below he).trans
    -- what starts with `a` is below the node
    have hsiblings : ∀ k, (∀ e ∈ left.entries, ¬ e.1 <+: a :: k) ∧ ∀ e ∈ right.entries, ¬ e.1 <+: a :: k :=
      fun k => ⟨hl.not_prefix_of_head k fun b hb => (hleft b hb).ne',
        hr.not_prefix_of_head k fun b hb => (hright b hb).ne⟩
    rcases key_cases lookupKey (a :: key) with ⟨p, x, k, y, c, rfl, hcur, hne⟩ | ⟨k, rfl⟩ | ⟨y, c, hcur⟩
    · have hbelow : ∀ e ∈ ownEntry (a :: key) value ++ further.entries.map (under (a :: key)),
          ¬ e.1 <+: p ++ x :: k := by
        intro e he hpre
        have hcommon := hkey e he _ hpre
        rw [hcur, List.prefix_append_right_inj, List.cons_prefix_cons] at hcommon
        exact hne hcommon.1.symm
      rw [hcur, findPrefixNode_differ _ _ _ _ _ p hne, ← hcur]
      cases p with
      | nil =>
        obtain ⟨rfl, rfl⟩ := List.cons.inj hcur
        rw [if_pos List.length_nil]
        split_ifs with hlt
        · have hnone := hr.not_prefix_of_head k fun b hb => (hlt.trans (hright b hb)).ne
          refine (ihl (x :: k) best).of_subset
            (fun e he => List.mem_append_left _ (List.mem_append_left _ he)) fun e he hpre => ?_
          rcases List.mem_append.1 he with he | he
          · exact (List.mem_append.1 he).resolve_right fun he => hbelow e he hpre
          · exact absurd hpre (hnone e he)
        · have hgt : a < x := lt_of_le_of_ne (not_lt.1 hlt) (Ne.symm hne)
          have hnone := hl.not_prefix_of_head k fun b hb => ((hleft b hb).trans hgt).ne'
          refine (ihr (x :: k) best).of_subset (fun e he => List.mem_append_right _ he) fun e he hpre => ?_
          refine (List.mem_append.1 he).resolve_left fun he => ?_
          rcases List.mem_append.1 he with he | he
          · exact hnone e he hpre
          · exact hbelow e he hpre
      | cons a' p =>
        obtain ⟨rfl, rfl⟩ := List.cons.inj hcur
        rw [if_neg (show (a :: p).length ≠ 0 from Nat.succ_ne_zero _)]
        refine .of_none fun e he => ?_
        rcases List.mem_append.1 he with he | he
        · exact (List.mem_append.1 he).elim ((hsiblings _).1 e) (hbelow e)
        · exact (hsiblings _).2 e he
    · rw [findPrefixNode_full]
      have hfurther : Longest further.entries k (bestAt value k best)
          (if k = [] then bestAt value k best else further.findPrefixNode k (bestAt value k best)) := by
        split_ifs with hnil
        · rw [hnil]
          exact .of_none hf.not_prefix_nil
        · exact ihf k _
      refine hfurther.under.of_subset
        (fun e he => List.mem_append_left _ (List.mem_append_right _ he)) fun e he hpre => ?_
      rcases List.mem_append.1 he with he | he
      · exact (List.mem_append.1 he).resolve_left fun he => (hsiblings _).1 e he hpre
      · exact absurd hpre ((hsiblings _).2 e he)
    · rw [hcur, findPrefixNode_short, ← hcur]
      have hshort : ¬ a :: key <+: lookupKey := by
        intro hpre
        have hle := hpre.length_le
        rw [hcur, List.length_append, List.length_cons] at hle
        omega
      refine .of_none fun e he hpre => ?_
      rcases List.mem_append.1 he with he | he
      · rcases List.mem_append.1 he with he | he
        · cases lookupKey with
          | nil => exact hl.not_prefix_nil e he hpre
          | cons b k =>
            obtain ⟨rfl, -⟩ := List.cons.inj hcur
            exact (hsiblings k).1 e he hpre
        · exact hshort (hkey e he _ hpre)
      · cases lookupKey with
        | nil => exact hr.not_prefix_nil e he hpre
        | cons b k =>
          obtain ⟨rfl, -⟩ := List.cons.inj hcur
          exact (hsiblings k).2 e he hpre

theorem Tree.findPrefix_longest (h : Tree cap t) (key : List α) :
    Longest t.entries key none (t.findPrefix key) := by
  unfold findPrefix
  rcases h with h | ⟨further, value, hf, rfl⟩
  · exact h.findPrefixNode_longest key none
  · have hfull := findPrefixNode_full null null further value none [] key
    rw [List.nil_append] at hfull
    rw [hfull]
    have hfurther : Longest further.entries key (bestAt value key none)
        (if key = [] then bestAt value key none else further.findPrefixNode key (bestAt value key none)) := by
      split_ifs with hnil
      · rw [hnil]
        exact .of_none hf.not_prefix_nil
      · exact hf.findPrefixNode_longest key _
    have hunder : Longest (ownEntry [] value ++ further.entries.map (under [])) ([] ++ key) none
        (if key = [] then bestAt value key none else further.findPrefixNode key (bestAt value key none)) :=
      hfurther.under
    rw [List.nil_append] at hunder
    rw [entries, entries, List.nil_append, List.append_nil]
    exact hunder

end Find

end Node

end SwiftKStdlib.PrefixMap
