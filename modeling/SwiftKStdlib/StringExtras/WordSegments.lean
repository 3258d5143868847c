import Mathlib.Data.List.TakeWhile
import SwiftKStdlib.Lib.Cutting
import SwiftKStdlib.StringExtras.WordScanning

/-!
# The words of a string, read in both directions

* `Block` : an underscore or none, uppercase letters, and other characters; `blocks` divides a string
  into blocks;
* `Block.forward`, `Block.backward` : the words that the two scanners find in a block;
* `forwards_blocks`, `backwards_blocks` : they find these words in a string, block by block;
* `Block.Uniform` : the blocks in which both find the same words.
-/

namespace SwiftKStdlib.StringExtras

open Lib

@[ext]
structure Block where
  lead : Bool
  upper : StringRef
  other : StringRef
  isUppercase_upper : ∀ c ∈ upper, isUppercase c = true
  isOther_other : ∀ c ∈ other, isOther c = true

namespace Block

def leading (b : Block) : StringRef := if b.lead then [underscore] else []

def text (b : Block) : StringRef := b.leading ++ (b.upper ++ b.other)

def lowercase (b : Block) : StringRef := b.other.takeWhile isLowercase

def init (b : Block) : StringRef := b.upper.dropLast

def last (b : Block) : StringRef := b.upper.getLast?.toList

/-- The words of the block, read forwards. -/
def forward (b : Block) : List StringRef :=
  nonEmpty <|
    if b.upper.length ≤ 1 then [b.leading, b.upper ++ b.other]
    else if isPluralSuffix b.lowercase && b.last ++ b.lowercase != literal "Is" then
      [b.leading, b.upper ++ b.lowercase, b.other.drop b.lowercase.length]
    else if b.lowercase = [] then [b.leading, b.upper, b.other]
    else [b.leading, b.init, b.last ++ b.other]

/-- The words of the block, read backwards. -/
def backward (b : Block) : List StringRef :=
  nonEmpty <|
    if isPluralSuffix b.other then
      if b.upper = [] then [b.leading ++ b.other] else [b.leading, b.upper ++ b.other]
    else if b.other.head?.any isLowercase then [b.leading, b.init, b.last ++ b.other]
    else [b.leading, b.upper, b.other]

/-- Both scanners find the same words. -/
structure Uniform (b : Block) : Prop where
  plural : b.upper = [] → b.lead = true → isPluralSuffix b.other = false
  title : b.upper.length = 1 → ∀ c ∈ b.other.head?, isLowercase c = true
  acronym : 2 ≤ b.upper.length → isPluralSuffix b.lowercase = true →
    (b.other = b.lowercase ↔ b.last ++ b.lowercase ≠ literal "Is")

def ofUnderscore : Block := ⟨true, [], [], by simp, by simp⟩

def ofUpper (c : BitVec 8) (hc : isUppercase c = true) : Block := ⟨false, [c], [], by simpa using hc, by simp⟩

def ofOther (c : BitVec 8) (hc : isOther c = true) : Block := ⟨false, [], [c], by simp, by simpa using hc⟩

/-- `b'` does not belong to `b`. -/
def Follows (b b' : Block) : Prop := b'.lead = true ∨ (b'.upper ≠ [] ∧ b.other ≠ [])

end Block

/-- Put a character before the first block, or in a block of its own. -/
def consBlock (c : BitVec 8) : List Block → List Block
  | [] =>
    if h : c = underscore then [.ofUnderscore]
    else if h' : isUppercase c = true then [.ofUpper c h']
    else [.ofOther c (isOther_of_ne h h')]
  | b :: bs =>
    if h : c = underscore then
      if b.lead then .ofUnderscore :: b :: bs else { b with lead := true } :: bs
    else if h' : isUppercase c = true then
      if b.lead then .ofUpper c h' :: b :: bs
      else { b with upper := c :: b.upper, isUppercase_upper := List.forall_mem_cons.2 ⟨h', b.isUppercase_upper⟩ } :: bs
    else
      if b.lead || b.upper != [] then .ofOther c (isOther_of_ne h h') :: b :: bs
      else { b with other := c :: b.other,
                    isOther_other := List.forall_mem_cons.2 ⟨isOther_of_ne h h', b.isOther_other⟩ } :: bs

def blocks : StringRef → List Block
  | [] => []
  | c :: s => consBlock c (blocks s)

theorem flatMap_text_consBlock (c : BitVec 8) (bs : List Block) :
    (consBlock c bs).flatMap Block.text = c :: bs.flatMap Block.text := by
  cases bs with
  | nil =>
      simp only [consBlock]
      split_ifs with h
      · simp [Block.text, Block.leading, Block.ofUnderscore, h]
      · simp [Block.text, Block.leading, Block.ofUpper]
      · simp [Block.text, Block.leading, Block.ofOther]
  | cons b bs =>
      simp only [consBlock]
      split_ifs with h hlead h' hlead hother
      · simp [Block.text, Block.leading, Block.ofUnderscore, h]
      · simp [Block.text, Block.leading, h, hlead]
      · simp [Block.text, Block.leading, Block.ofUpper]
      · simp [Block.text, Block.leading, hlead]
      · simp [Block.text, Block.leading, Block.ofOther]
      · simp only [Bool.or_eq_true, bne_iff_ne, ne_eq, not_or, not_not] at hother
        simp [Block.text, Block.leading, hother]

theorem flatMap_text_blocks (s : StringRef) : (blocks s).flatMap Block.text = s := by
  induction s with
  | nil => rfl
  | cons c s ih => rw [blocks, flatMap_text_consBlock, ih]

theorem text_ne_nil_consBlock {c : BitVec 8} {bs : List Block} (h : ∀ b ∈ bs, b.text ≠ []) :
    ∀ b ∈ consBlock c bs, b.text ≠ [] := by
  cases bs with
  | nil =>
      simp only [consBlock]
      split_ifs
      · simp [Block.text, Block.leading, Block.ofUnderscore]
      · simp [Block.text, Block.leading, Block.ofUpper]
      · simp [Block.text, Block.leading, Block.ofOther]
  | cons b bs =>
      rw [List.forall_mem_cons] at h
      simp only [consBlock]
      split_ifs
      · simpa [Block.text, Block.leading, Block.ofUnderscore] using h
      · simpa [Block.text, Block.leading] using h.2
      · simpa [Block.text, Block.leading, Block.ofUpper] using h
      · simpa [Block.text, Block.leading] using h.2
      · simpa [Block.text, Block.leading, Block.ofOther] using h
      · simpa [Block.text, Block.leading] using h.2

theorem isChain_grow {b b' : Block} {bs : List Block} (hb : ∀ d, b.Follows d → b'.Follows d)
    (h : (b :: bs).IsChain Block.Follows) : (b' :: bs).IsChain Block.Follows := by
  cases bs with
  | nil => exact .singleton _
  | cons d ds =>
      rw [List.isChain_cons_cons] at h
      exact .cons_cons (hb d h.1) h.2

theorem isChain_consBlock {c : BitVec 8} {bs : List Block} (h : bs.IsChain Block.Follows) :
    (consBlock c bs).IsChain Block.Follows := by
  cases bs with
  | nil =>
      simp only [consBlock]
      split_ifs
      · exact .singleton _
      · exact .singleton _
      · exact .singleton _
  | cons b bs =>
      simp only [consBlock]
      split_ifs with _ hlead _ hlead hother
      · exact .cons_cons (.inl hlead) h
      · exact isChain_grow (b := b) (fun d hd => hd) h
      · exact .cons_cons (.inl hlead) h
      · exact isChain_grow (b := b) (fun d hd => hd) h
      · rw [Bool.or_eq_true, bne_iff_ne] at hother
        exact .cons_cons (hother.imp id fun hne => ⟨hne, by simp [Block.ofOther]⟩) h
      · exact isChain_grow (b := b) (fun d hd => hd.imp id fun hne => ⟨hne.1, by simp⟩) h

theorem blocks_spec (s : StringRef) : (blocks s).IsChain Block.Follows ∧ ∀ b ∈ blocks s, b.text ≠ [] := by
  induction s with
  | nil => exact ⟨.nil, by simp [blocks]⟩
  | cons c s ih => exact ⟨isChain_consBlock ih.1, text_ne_nil_consBlock ih.2⟩

namespace Block

variable {b : Block} {s a r : StringRef} {ws : List StringRef}

theorem lowercase_append_drop (b : Block) : b.lowercase ++ b.other.drop b.lowercase.length = b.other :=
  List.prefix_iff_eq_append.1 (List.takeWhile_prefix _)

theorem init_append_last (b : Block) : b.init ++ b.last = b.upper := by
  rw [init, last]
  cases hlast : b.upper.getLast? with
  | none => simp [List.getLast?_eq_none_iff.1 hlast]
  | some c => simpa using List.dropLast_append_getLast? c hlast

theorem flatten_forward (b : Block) : b.forward.flatten = b.text := by
  rw [forward, flatten_nonEmpty]
  split_ifs
  · simp [text]
  · simp [text, b.lowercase_append_drop]
  · simp [text]
  · simp [text, ← b.init_append_last]

theorem flatten_backward (b : Block) : b.backward.flatten = b.text := by
  rw [backward, flatten_nonEmpty]
  split_ifs with _ hupper
  · simp [text, hupper]
  · simp [text]
  · simp [text, ← b.init_append_last]
  · simp [text]

structure Ends (b : Block) (r : StringRef) : Prop where
  isOther : ∀ c ∈ r.head?, isOther c = false
  isUppercase : b.other = [] → ∀ c ∈ r.head?, isUppercase c = false

theorem leading_of_ne_nil (h : b.leading ≠ []) : b.leading = [underscore] := by
  unfold leading at h ⊢
  split_ifs at h ⊢ with hlead
  · rfl
  · exact absurd rfl h

theorem exists_last (h : b.upper ≠ []) : ∃ x, b.last = [x] ∧ b.upper = b.init ++ [x] := by
  have hinit := b.init_append_last
  rw [last] at hinit ⊢
  cases hlast : b.upper.getLast? with
  | none => exact absurd (List.getLast?_eq_none_iff.1 hlast) h
  | some x =>
      rw [hlast] at hinit
      exact ⟨x, rfl, hinit.symm⟩

theorem exists_acronym (h : ¬ b.upper.length ≤ 1) : ∃ x, b.last = [x] ∧ b.upper = b.init ++ [x] ∧ b.init ≠ [] := by
  have hne : b.upper ≠ [] := by
    intro hnil
    simp [hnil] at h
  obtain ⟨x, hlast, hx⟩ := exists_last hne
  refine ⟨x, hlast, hx, ?_⟩
  intro hnil
  rw [hx, hnil] at h
  simp at h

theorem Ends.not_lowercase (h : b.Ends r) :
    ∀ c ∈ (b.other.drop b.lowercase.length ++ r).head?, StringExtras.isLowercase c = false := by
  intro c hc
  cases hdrop : b.other.drop b.lowercase.length with
  | nil =>
      rw [hdrop] at hc
      by_contra hlower
      have hother := isOther_of_isLowercase (Bool.not_eq_false _ ▸ hlower)
      rw [h.isOther c hc] at hother
      cases hother
  | cons d ds =>
      rw [hdrop] at hc
      obtain rfl : d = c := by simpa using hc
      have hwhile : b.other.dropWhile StringExtras.isLowercase = d :: ds := by
        have happend := b.lowercase_append_drop
        rw [hdrop, lowercase] at happend
        exact List.append_cancel_left ((List.takeWhile_append_dropWhile).trans happend.symm)
      have hhead := List.head_dropWhile_not (l := b.other) StringExtras.isLowercase (by simp [hwhile])
      simpa [hwhile] using hhead

theorem isLowercase_lowercase (b : Block) : ∀ c ∈ b.lowercase, StringExtras.isLowercase c = true :=
  fun c hc => List.all_eq_true.1 List.all_takeWhile c hc

theorem isOther_drop (b : Block) (n : Nat) : ∀ c ∈ b.other.drop n, StringExtras.isOther c = true :=
  fun c hc => b.isOther_other c (List.mem_of_mem_drop hc)

/-! ### Forwards -/

theorem forwards_leading (hs : s = a ++ (b.leading ++ r)) (hlen : s.length < 2 ^ 31)
    (h : Forwards (computeNextPosition s) s (a ++ b.leading).length ws) :
    Forwards (computeNextPosition s) s a.length (nonEmpty [b.leading] ++ ws) := by
  apply h.word hs
  intro hne
  have hlead := leading_of_ne_nil hne
  rw [hlead] at hs ⊢
  exact next_underscore hs hlen

theorem forwards_word {u w : StringRef} (hs : s = a ++ ((u ++ w) ++ r)) (hlen : s.length < 2 ^ 31)
    (hr : b.Ends r) (hu : ∀ c ∈ u, isUppercase c = true) (hu1 : u.length ≤ 1)
    (hw : ∀ c ∈ w, StringExtras.isOther c = true) (hbw : w = [] → u = [] ∨ b.other = [])
    (h : Forwards (computeNextPosition s) s (a ++ (u ++ w)).length ws) :
    Forwards (computeNextPosition s) s a.length (nonEmpty [u ++ w] ++ ws) := by
  apply h.word hs
  intro hne
  have hur : w = [] → ∀ c ∈ r.head?, isUppercase c = false := by
    intro hnil
    rcases hbw hnil with rfl | hother
    · exact absurd (by simpa using hnil) hne
    · exact hr.isUppercase hother
  rw [next_word (r := r) (by simpa using hs) hlen hu hu1 hw hr.isOther hur hne, List.length_append, Nat.add_assoc]

theorem forwards_acronym {x : BitVec 8} {y : StringRef} (hs : s = a ++ (b.upper ++ (b.other ++ r)))
    (hlen : s.length < 2 ^ 31) (hr : b.Ends r) (hx : b.upper = b.init ++ [x]) (hinit : b.init ≠ [])
    (hy : y.length = acronymLength b.init x b.lowercase) {t : StringRef} (hs' : s = a ++ (y ++ t))
    (h : Forwards (computeNextPosition s) s (a ++ y).length ws) :
    Forwards (computeNextPosition s) s a.length (nonEmpty [y] ++ ws) := by
  apply h.word hs'
  intro _
  have hs : s = a ++ ((b.init ++ [x]) ++ (b.lowercase ++ (b.other.drop b.lowercase.length ++ r))) := by
    rw [hs, ← List.append_assoc b.lowercase, b.lowercase_append_drop, ← hx]
  rw [next_acronym hs hlen hinit (hx ▸ b.isUppercase_upper) b.isLowercase_lowercase hr.not_lowercase ?_, hy]
  intro hnil
  apply head_not_upper (b.isOther_drop _)
  intro hdrop
  apply hr.isUppercase
  rw [← b.lowercase_append_drop, hdrop, hnil, List.nil_append]

theorem forwards_block (hs : s = a ++ (b.text ++ r)) (hlen : s.length < 2 ^ 31) (hr : b.Ends r)
    (h : Forwards (computeNextPosition s) s (a ++ b.text).length ws) :
    Forwards (computeNextPosition s) s a.length (b.forward ++ ws) := by
  rw [text] at hs h
  rw [forward]
  split_ifs with hone hplural hlower
  · rw [nonEmpty_cons_append]
    apply forwards_leading (r := (b.upper ++ b.other) ++ r) (by simp [hs]) hlen
    apply forwards_word (r := r) (by simp [hs]) hlen hr b.isUppercase_upper hone b.isOther_other (fun h => .inr h)
    simpa using h
  · obtain ⟨x, hlast, hx, hinit⟩ := exists_acronym hone
    have hy : (b.upper ++ b.lowercase).length = acronymLength b.init x b.lowercase := by
      rw [hlast, List.singleton_append] at hplural
      rw [acronymLength, if_pos hplural, List.length_append, hx, List.length_append]
      rfl
    have hother := b.lowercase_append_drop
    rw [nonEmpty_cons_append]
    apply forwards_leading (r := b.upper ++ (b.other ++ r)) (by simp [hs]) hlen
    rw [nonEmpty_cons_append]
    apply forwards_acronym (r := r) (t := b.other.drop b.lowercase.length ++ r) (by simp [hs]) hlen hr hx hinit hy
      (by simp [hs, ← List.append_assoc b.lowercase, hother])
    apply forwards_word (u := []) (r := r) (by simp [hs, ← List.append_assoc b.lowercase, hother]) hlen hr (by simp)
      (by simp) (b.isOther_drop _) (fun _ => .inl rfl)
    simpa [← List.append_assoc b.lowercase, hother] using h
  · obtain ⟨x, hlast, hx, hinit⟩ := exists_acronym hone
    have hy : b.upper.length = acronymLength b.init x b.lowercase := by
      rw [hlast, List.singleton_append] at hplural
      rw [acronymLength, if_neg hplural, if_pos hlower, hx, List.length_append]
      rfl
    rw [nonEmpty_cons_append]
    apply forwards_leading (r := b.upper ++ (b.other ++ r)) (by simp [hs]) hlen
    rw [nonEmpty_cons_append]
    apply forwards_acronym (r := r) (t := b.other ++ r) (by simp [hs]) hlen hr hx hinit hy (by simp [hs])
    apply forwards_word (u := []) (r := r) (by simp [hs]) hlen hr (by simp) (by simp) b.isOther_other
      (fun _ => .inl rfl)
    simpa using h
  · obtain ⟨x, hlast, hx, hinit⟩ := exists_acronym hone
    have hy : b.init.length = acronymLength b.init x b.lowercase := by
      rw [hlast, List.singleton_append] at hplural
      rw [acronymLength, if_neg hplural, if_neg hlower]
    have hupper := b.isUppercase_upper
    rw [hx, ← hlast] at hs
    rw [hx, ← hlast] at h
    rw [nonEmpty_cons_append]
    apply forwards_leading (r := b.upper ++ (b.other ++ r)) (by simp [hs, ← b.init_append_last]) hlen
    rw [nonEmpty_cons_append]
    apply forwards_acronym (r := r) (t := (b.last ++ b.other) ++ r) (by simp [hs, ← b.init_append_last]) hlen hr hx
      hinit hy (by simp [hs])
    apply forwards_word (u := b.last) (r := r) (by simp [hs]) hlen hr ?_ (by simp [hlast]) b.isOther_other
      (fun h => .inr h)
    · simpa using h
    · rw [← b.init_append_last] at hupper
      exact fun c hc => hupper c (List.mem_append_right _ hc)

/-! ### Backwards -/

/-- What may stand before the block: the string begins with it, or it has an underscore, or uppercase
letters behind another character. -/
def Begins (b : Block) (a : StringRef) : Prop :=
  a = [] ∨ b.lead = true ∨ (b.upper ≠ [] ∧ ∀ c ∈ a.getLast?, StringExtras.isOther c = true)

theorem backwards_leading (hs : s = a ++ (b.leading ++ r)) (hlen : s.length < 2 ^ 31)
    (h : Backwards (computePrevPosition s) s a.length ws) :
    Backwards (computePrevPosition s) s (a.length + b.leading.length) (ws ++ nonEmpty [b.leading]) := by
  apply h.word hs
  intro hne
  have hlead := leading_of_ne_nil hne
  rw [hlead] at hs ⊢
  exact prev_underscore hs hlen

theorem Begins.not_upper (h : b.Begins a) :
    ∀ c ∈ (a ++ b.leading).getLast?, StringExtras.isUppercase c = false := by
  intro c hc
  unfold leading at hc
  split_ifs at hc with hlead
  · rw [getLast?_append_ne_nil (by simp)] at hc
    obtain rfl : underscore = c := by simpa using hc
    decide
  · rw [List.append_nil] at hc
    rcases h with rfl | hlead' | ⟨_, hother⟩
    · cases hc
    · exact absurd hlead' hlead
    · exact not_isUppercase_of_isOther (hother c hc)

theorem Begins.not_other (h : b.Begins a) : ∀ c ∈ ((a ++ b.leading) ++ b.upper).getLast?, StringExtras.isOther c = false := by
  intro c hc
  by_cases hupper : b.upper = []
  · rw [hupper, List.append_nil] at hc
    unfold leading at hc
    split_ifs at hc with hlead
    · rw [getLast?_append_ne_nil (by simp)] at hc
      obtain rfl : underscore = c := by simpa using hc
      decide
    · rw [List.append_nil] at hc
      rcases h with rfl | hlead' | ⟨hne, _⟩
      · cases hc
      · exact absurd hlead' hlead
      · exact absurd hupper hne
  · exact not_isOther_of_isUppercase (getLast?_upper b.isUppercase_upper c hc hupper)

theorem backwards_upper {y : StringRef} (hs : s = (a ++ b.leading) ++ (y ++ r)) (hlen : s.length < 2 ^ 31)
    (hb : b.Begins a) (hy : ∀ c ∈ y, StringExtras.isUppercase c = true)
    (h : Backwards (computePrevPosition s) s (a ++ b.leading).length ws) :
    Backwards (computePrevPosition s) s ((a ++ b.leading).length + y.length) (ws ++ nonEmpty [y]) := by
  apply h.word hs
  intro hy'
  exact prev_upper hs hlen hy hy' hb.not_upper

theorem ne_nil_of_isPluralSuffix {w : StringRef} (h : isPluralSuffix w = true) : w ≠ [] := by
  rintro rfl
  exact absurd h (by decide)

theorem backwards_block (hs : s = a ++ (b.text ++ r)) (hlen : s.length < 2 ^ 31) (hb : b.Begins a)
    (h : Backwards (computePrevPosition s) s a.length ws) :
    Backwards (computePrevPosition s) s (a.length + b.text.length) (ws ++ b.backward) := by
  rw [text] at hs ⊢
  rw [backward]
  have hother := b.isOther_other
  have hbefore := hb.not_other
  split_ifs with hplural hupper hlower
  · -- the plural suffix alone, or with the underscore
    have hne := ne_nil_of_isPluralSuffix hplural
    rw [hupper, List.append_nil] at hbefore
    have hword := h.word (x := b.leading ++ b.other) (r := r) (by simp [hs, hupper]) ?_
    · simpa [hupper] using hword
    intro _
    by_cases hlead : b.leading = []
    · have hnil : a = [] := by
        rcases hb with ha | hl | ⟨hu, _⟩
        · exact ha
        · simp [leading, hl] at hlead
        · exact absurd hupper hu
      rw [hlead, List.append_nil] at hbefore
      rw [hlead, List.nil_append, prev_other (r := r) (by simp [hs, hlead, hupper]) hlen hother hne (fun _ => hnil) hbefore]
      simp [hnil]
    · rw [List.length_append, ← Nat.add_assoc, ← List.length_append,
        prev_plural (r := r) (by simp [hs, hupper]) hother hplural hbefore (by simp [hlead])]
      rw [leading_of_ne_nil hlead] at hs ⊢
      rw [List.length_append]
      exact prev_underscore (r := b.upper ++ (b.other ++ r)) (by simp [hs]) hlen
  · -- the plural suffix with the uppercase letters
    have h := backwards_leading (b := b) (r := b.upper ++ (b.other ++ r)) (by simp [hs]) hlen h
    rw [← List.length_append] at h
    have hword := h.word (x := b.upper ++ b.other) (r := r) (by simp [hs]) ?_
    · rw [nonEmpty_cons, ← List.append_assoc]
      simpa [Nat.add_assoc] using hword
    intro _
    have hlast := prev_plural (s := s) (a := (a ++ b.leading) ++ b.upper) (r := r) (by simp [hs]) hother hplural hbefore
      (by simp [hupper])
    have hfirst := prev_upper (a := a ++ b.leading) (r := b.other ++ r) (by simp [hs]) hlen b.isUppercase_upper hupper
      hb.not_upper
    simp only [List.length_append, ← Nat.add_assoc] at hlast hfirst ⊢
    exact hlast.trans hfirst
  · -- the last uppercase letter begins the word
    have hne : b.other ≠ [] := by
      intro hnil
      rw [hnil] at hlower
      cases hlower
    have hinit : ∀ c ∈ b.init, StringExtras.isUppercase c = true :=
      fun c hc => b.isUppercase_upper c (List.mem_of_mem_dropLast hc)
    have h := backwards_leading (b := b) (r := b.upper ++ (b.other ++ r)) (by simp [hs]) hlen h
    rw [← List.length_append] at h
    have h := backwards_upper (y := b.init) (r := (b.last ++ b.other) ++ r) (by simp [hs, ← b.init_append_last]) hlen hb
      hinit h
    rw [← List.length_append] at h
    have hword := h.word (x := b.last ++ b.other) (r := r) (by simp [hs, ← b.init_append_last]) ?_
    · rw [nonEmpty_cons, nonEmpty_cons b.init]
      simpa [Nat.add_assoc, ← b.init_append_last] using hword
    intro _
    have hlast := prev_other (a := (a ++ b.leading) ++ b.upper) (r := r) (by simp [hs]) hlen hother hne
      (fun h => absurd h hplural) hbefore
    rw [hlower, Bool.true_and] at hlast
    by_cases hupper : b.upper = []
    · rw [hupper, List.append_nil, any_eq_false hb.not_upper] at hlast
      simpa [init, last, hupper] using hlast
    · obtain ⟨x, hx, hu⟩ := exists_last hupper
      have hxu : StringExtras.isUppercase x = true := b.isUppercase_upper x (by simp [hu])
      rw [getLast?_append_ne_nil hupper, hu, List.getLast?_concat, Option.any_some, hxu] at hlast
      simpa [hx, ← Nat.add_assoc, Nat.add_right_comm _ 1] using hlast
  · rw [Bool.not_eq_true] at hlower
    have h := backwards_leading (b := b) (r := b.upper ++ (b.other ++ r)) (by simp [hs]) hlen h
    rw [← List.length_append] at h
    have h := backwards_upper (y := b.upper) (r := b.other ++ r) (by simp [hs]) hlen hb b.isUppercase_upper h
    rw [← List.length_append] at h
    have hword := h.word (x := b.other) (r := r) (by simp [hs]) ?_
    · rw [nonEmpty_cons, nonEmpty_cons b.upper]
      simpa [Nat.add_assoc] using hword
    intro hne
    rw [prev_other (r := r) (by simp [hs]) hlen hother hne (fun h => absurd h hplural) hbefore, hlower]
    simp

end Block

/-! ## A string, block by block -/

variable {s a r : StringRef} {bs : List Block}

theorem head?_flatMap_text {b : Block} (h : b.text ≠ []) :
    ((b :: bs).flatMap Block.text).head? = b.text.head? := by
  rw [List.flatMap_cons]
  cases htext : b.text with
  | nil => exact absurd htext h
  | cons c t => rfl

theorem Block.Follows.ends {b b' : Block} (h : b.Follows b') (hne : b'.text ≠ []) :
    b.Ends ((b' :: bs).flatMap Block.text) := by
  have hhead : ∀ c ∈ b'.text.head?, c = underscore ∨ (isUppercase c = true ∧ b.other ≠ []) := by
    intro c hc
    unfold text leading at hc
    split_ifs at hc with hlead
    · exact .inl (by simpa using hc.symm)
    · rcases h with hl | ⟨hupper, hother⟩
      · exact absurd hl hlead
      · refine .inr ⟨b'.isUppercase_upper c ?_, hother⟩
        cases hu : b'.upper with
        | nil => exact absurd hu hupper
        | cons d ds =>
            rw [hu] at hc
            obtain rfl : d = c := by simpa using hc
            exact List.mem_cons_self
  rw [← @head?_flatMap_text bs b' hne] at hhead
  constructor
  · intro c hc
    rcases hhead c hc with rfl | ⟨hupper, _⟩
    · decide
    · exact not_isOther_of_isUppercase hupper
  · intro hnil c hc
    rcases hhead c hc with rfl | ⟨_, hother⟩
    · decide
    · exact absurd hnil hother

theorem Block.begins_of_isChain {b : Block} (h : (bs ++ [b]).IsChain Block.Follows) :
    b.Begins (bs.flatMap Block.text) := by
  rcases List.eq_nil_or_concat bs with rfl | ⟨ds, d, rfl⟩
  · exact .inl rfl
  · rcases (List.isChain_append.1 h).2.2 d (by simp) b rfl with hlead | ⟨hupper, hother⟩
    · exact .inr (.inl hlead)
    · refine .inr (.inr ⟨hupper, fun c hc => d.isOther_other c ?_⟩)
      rw [List.concat_eq_append, List.flatMap_append, List.flatMap_singleton, text, ← List.append_assoc,
        ← List.append_assoc,
        getLast?_append_ne_nil hother] at hc
      exact List.mem_of_getLast? hc

theorem forwards_blocks (hs : s = a ++ bs.flatMap Block.text) (hlen : s.length < 2 ^ 31)
    (hchain : bs.IsChain Block.Follows) (hne : ∀ b ∈ bs, b.text ≠ []) :
    Forwards (computeNextPosition s) s a.length (bs.flatMap Block.forward) := by
  induction bs generalizing a with
  | nil =>
      have hsa : s = a := by simpa using hs
      rw [hsa, List.flatMap_nil]
      exact .done
  | cons b bs ih =>
      rw [List.forall_mem_cons] at hne
      have hends : b.Ends (bs.flatMap Block.text) := by
        cases bs with
        | nil => exact ⟨by simp, by simp⟩
        | cons b' bs => exact (List.isChain_cons_cons.1 hchain).1.ends (hne.2 b' List.mem_cons_self)
      rw [List.flatMap_cons] at hs ⊢
      exact Block.forwards_block hs hlen hends (ih (by rw [hs, List.append_assoc]) hchain.tail hne.2)

theorem backwards_blocks (hs : s = bs.flatMap Block.text ++ r) (hlen : s.length < 2 ^ 31)
    (hchain : bs.IsChain Block.Follows) (hne : ∀ b ∈ bs, b.text ≠ []) :
    Backwards (computePrevPosition s) s (bs.flatMap Block.text).length (bs.flatMap Block.backward) := by
  induction bs using List.reverseRecOn generalizing r with
  | nil => exact .done
  | append_singleton bs b ih =>
      have hbegins := Block.begins_of_isChain hchain
      have hs' : s = bs.flatMap Block.text ++ (b.text ++ r) := by simpa using hs
      have hprefix := ih hs' hchain.left_of_append (fun d hd => hne d (List.mem_append_left _ hd))
      rw [List.flatMap_append, List.flatMap_append, List.length_append]
      simpa using Block.backwards_block hs' hlen hbegins hprefix

theorem forwards_drop (s : StringRef) (hlen : s.length < 2 ^ 31) {i : Nat} (hi : i ≤ s.length) :
    Forwards (computeNextPosition s) s i ((blocks (s.drop i)).flatMap Block.forward) := by
  have hspec := blocks_spec (s.drop i)
  have hs : s = s.take i ++ (blocks (s.drop i)).flatMap Block.text := by
    rw [flatMap_text_blocks, List.take_append_drop]
  have hword := forwards_blocks hs hlen hspec.1 hspec.2
  rwa [List.length_take_of_le hi] at hword

theorem backwards_take (s : StringRef) (hlen : s.length < 2 ^ 31) {i : Nat} (hi : i ≤ s.length) :
    Backwards (computePrevPosition s) s i ((blocks (s.take i)).flatMap Block.backward) := by
  have hspec := blocks_spec (s.take i)
  have hs : s = (blocks (s.take i)).flatMap Block.text ++ s.drop i := by
    rw [flatMap_text_blocks, List.take_append_drop]
  have hword := backwards_blocks hs hlen hspec.1 hspec.2
  rwa [flatMap_text_blocks, List.length_take_of_le hi] at hword

/-! ## Blocks that are read the same way -/

namespace Block

variable {b : Block}

theorem isLowercase_of_isPluralSuffix {w : StringRef} (h : isPluralSuffix w = true) :
    ∀ c ∈ w, StringExtras.isLowercase c = true := by
  simp only [isPluralSuffix, Bool.or_eq_true, beq_iff_eq] at h
  rcases h with (rfl | rfl) | rfl
  · decide
  · decide
  · decide

theorem head?_of_isPluralSuffix {w : StringRef} (h : isPluralSuffix w = true) :
    w.head?.any StringExtras.isLowercase = true := by
  cases w with
  | nil => exact absurd h (by decide)
  | cons c w => exact isLowercase_of_isPluralSuffix h c List.mem_cons_self

theorem forward_eq_backward_iff_of_nil (h : b.upper = []) :
    b.forward = b.backward ↔ (b.lead = true → isPluralSuffix b.other = false) := by
  rw [forward, if_pos (by simp [h]), backward]
  cases hplural : isPluralSuffix b.other with
  | false =>
      simp only [Bool.false_eq_true, if_false]
      split_ifs
      · simp [init, last, h, nonEmpty_cons_inj]
      · simp [h, nonEmpty_cons_inj]
  | true =>
      have hne := ne_nil_of_isPluralSuffix hplural
      simp only [if_true, h, List.nil_append, leading]
      split_ifs with hlead
      · simp [hlead, nonEmpty_cons_of_ne_nil, hne]
      · simp [hlead]

theorem forward_eq_backward_iff_of_singleton {x : BitVec 8} (h : b.upper = [x]) :
    b.forward = b.backward ↔ ∀ c ∈ b.other.head?, StringExtras.isLowercase c = true := by
  rw [forward, if_pos (by simp [h]), backward, h, if_neg (List.cons_ne_nil x [])]
  cases hother : b.other with
  | nil => simp [isPluralSuffix, literal, nonEmpty_cons_inj]
  | cons c w =>
      have htitle : (∀ d ∈ (c :: w).head?, StringExtras.isLowercase d = true) ↔ StringExtras.isLowercase c = true := by
        simp
      rw [htitle]
      split_ifs with hplural hlower
      · simpa using isLowercase_of_isPluralSuffix hplural c List.mem_cons_self
      · have hlower : StringExtras.isLowercase c = true := by simpa using hlower
        simp [init, last, h, nonEmpty_cons_inj, hlower]
      · have hlower : StringExtras.isLowercase c = false := by simpa using hlower
        simp [nonEmpty_cons_inj, nonEmpty_cons_of_ne_nil, hlower]

theorem takeWhile_of_isPluralSuffix (h : isPluralSuffix b.other = true) : b.lowercase = b.other :=
  List.takeWhile_eq_self_iff.2 (isLowercase_of_isPluralSuffix h)

theorem forward_eq_backward_iff_of_acronym (h : ¬ b.upper.length ≤ 1) :
    b.forward = b.backward ↔ (isPluralSuffix b.lowercase = true →
      (b.other = b.lowercase ↔ b.last ++ b.lowercase ≠ literal "Is")) := by
  obtain ⟨x, hlast, hx, hinit⟩ := exists_acronym h
  have hne : b.upper ≠ [] := by simp [hx]
  have hlen : b.upper ++ b.lowercase ≠ b.init := by
    intro heq
    have := congrArg List.length heq
    simp [hx] at this
  have hlen' : b.upper ++ b.other ≠ b.init := by
    intro heq
    have := congrArg List.length heq
    simp [hx] at this
  rw [forward, if_neg h, backward, if_neg hne]
  cases hplural : isPluralSuffix b.other with
  | true =>
      have hlower := takeWhile_of_isPluralSuffix hplural
      have hother := ne_nil_of_isPluralSuffix hplural
      simp only [hlower, hplural, Bool.true_and, if_true, forall_const, true_iff, bne_iff_ne, List.drop_length]
      split_ifs with his
      · simp [his, nonEmpty_cons_inj, nonEmpty_cons_of_ne_nil, hne]
      · simp only [not_not] at his
        simp [his, nonEmpty_cons_inj, nonEmpty_cons_of_ne_nil, hne, hinit, hlen'.symm]
  | false =>
      have hdiff : isPluralSuffix b.lowercase = true → b.other ≠ b.lowercase := by
        intro hp heq
        rw [← heq, hplural] at hp
        cases hp
      have hnil : b.lowercase = [] ↔ b.other.head?.any StringExtras.isLowercase ≠ true := by
        rw [lowercase]
        cases b.other with
        | nil => simp
        | cons c w =>
            rw [List.takeWhile_cons]
            split_ifs with hc
            · simp [hc]
            · simp [hc]
      simp only [Bool.false_eq_true, if_false]
      by_cases hpl : isPluralSuffix b.lowercase = true
      · have hlower : b.other.head?.any StringExtras.isLowercase = true := by
          by_contra hno
          exact ne_nil_of_isPluralSuffix hpl (hnil.2 hno)
        have hnil' := ne_nil_of_isPluralSuffix hpl
        simp only [hpl, Bool.true_and, bne_iff_ne, hdiff hpl, hlower, if_true, forall_const, false_iff, not_not]
        split_ifs with his
        · simp [his, nonEmpty_cons_inj, nonEmpty_cons_of_ne_nil, hne, hinit, hlen]
        · simpa [hnil'] using his
      · simp only [hpl, Bool.false_and, Bool.false_eq_true, if_false, false_imp_iff, iff_true]
        split_ifs with hl hlower hlower
        · exact absurd hlower (hnil.1 hl)
        · rfl
        · rfl
        · exact absurd (hnil.2 hlower) hl

theorem forward_eq_backward_iff (b : Block) : b.forward = b.backward ↔ b.Uniform := by
  by_cases hone : b.upper.length ≤ 1
  · cases hupper : b.upper with
    | nil =>
        rw [forward_eq_backward_iff_of_nil hupper]
        exact ⟨fun h => ⟨fun _ => h, by simp [hupper], by simp [hupper]⟩, fun h => h.plural hupper⟩
    | cons x u =>
        obtain rfl : u = [] := by simpa [hupper] using hone
        rw [forward_eq_backward_iff_of_singleton hupper]
        exact ⟨fun h => ⟨by simp [hupper], fun _ => h, by simp [hupper]⟩, fun h => h.title (by simp [hupper])⟩
  · rw [forward_eq_backward_iff_of_acronym hone]
    refine ⟨fun h => ⟨?_, ?_, fun _ => h⟩, fun h => h.acronym (by omega)⟩
    · intro hnil
      simp [hnil] at hone
    · intro hlen
      exact absurd hlen.le hone

end Block

end SwiftKStdlib.StringExtras
