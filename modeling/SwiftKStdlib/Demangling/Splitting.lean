import Mathlib.Tactic
import SwiftKStdlib.Demangling.Words

/-!
# How the mangler splits an identifier

* `Chunk` : a substituted word and the literal behind it;
* `Split ident p T new substs lit cs T'` : from position `p` on, with the table `T`, the identifier is
  the literal `lit` and the chunks `cs`; this gives the replacements `substs`, the new words `new` and
  the table `T'`;
* `Located`, `Located.append` : the words of a table stand in a buffer, and stay there as it grows;
* `scan_split` : the mangler's search finds a split;
* `encode`, `writeReplacements_split` : what the mangler writes for it.
-/

namespace SwiftKStdlib.Demangling

open Mangle Mangler

structure Chunk where
  idx : Nat
  word : StringRef
  lit : StringRef

def plain (lit : StringRef) (cs : List Chunk) : StringRef := lit ++ cs.flatMap fun c => c.word ++ c.lit

/-! ## Words in a buffer -/

/-- The word `t` stands in `buffer` at the place `w`. -/
structure At (buffer : StringRef) (w : SubstitutionWord) (t : StringRef) : Prop where
  substr_eq : substr buffer w.start w.length = t
  length_eq : t.length = w.length

/-- The table `T`, word by word, in `buffer`. -/
abbrev Located (buffer : StringRef) : List SubstitutionWord → List StringRef → Prop :=
  List.Forall₂ (At buffer)

theorem At.of_drop {buffer t r : StringRef} {p : Nat} (h : buffer.drop p = t ++ r) :
    At buffer ⟨p, t.length⟩ t :=
  ⟨by rw [substr, h, List.take_left], rfl⟩

theorem At.append {buffer t : StringRef} {w : SubstitutionWord} (h : At buffer w t) (b : StringRef) :
    At (buffer ++ b) w t := by
  refine ⟨?_, h.length_eq⟩
  have hsub := h.substr_eq
  have hlen := h.length_eq
  rw [← hsub, substr, List.length_take, List.length_drop] at hlen
  rw [substr, List.drop_append, List.take_append_of_le_length, ← hsub, substr]
  rw [List.length_drop]
  omega

theorem Located.append {buffer : StringRef} {ws : List SubstitutionWord} {T : List StringRef}
    (h : Located buffer ws T) (b : StringRef) : Located (buffer ++ b) ws T :=
  h.imp fun _ _ hw => hw.append b

theorem Located.get {buffer : StringRef} {ws : List SubstitutionWord} {T : List StringRef}
    (h : Located buffer ws T) {i : Nat} {w : SubstitutionWord} {t : StringRef} (hw : ws[i]? = some w)
    (ht : T[i]? = some t) : At buffer w t := by
  induction h generalizing i with
  | nil => simp at hw
  | cons hat _ ih =>
      cases i with
      | zero =>
          obtain rfl := Option.some.inj hw
          obtain rfl := Option.some.inj ht
          exact hat
      | succ i => exact ih hw ht

theorem lookupWord_eq_some {ws : List SubstitutionWord} {T : List StringRef} {str word : StringRef}
    {a b idx : Nat} (h : lookupWord ws str word a b = some idx)
    (hT : ∀ w t, a ≤ idx → idx < b → ws[idx]? = some w → T[idx]? = some t → At str w t)
    (hlen : T.length = ws.length) : T[idx]? = some word := by
  have hmem := List.mem_of_find?_eq_some h
  have hsome := List.find?_some h
  rw [List.mem_range'_1] at hmem
  cases hw : ws[idx]? with
  | none => simp [hw] at hsome
  | some w =>
      have hidx : idx < T.length := by
        rw [hlen]
        exact (List.getElem?_eq_some_iff.1 hw).1
      have hat := hT w T[idx] hmem.1 (by omega) hw (List.getElem?_eq_getElem hidx)
      rw [hw] at hsome
      rw [List.getElem?_eq_getElem hidx, beq_iff_eq.1 hsome, hat.substr_eq]

/-! ## Splits -/

/-- The mangler's way through `ident` from position `p` on. -/
inductive Split (ident : StringRef) : Nat → List StringRef → List SubstitutionWord →
    List WordReplacement → StringRef → List Chunk → List StringRef → Prop where
  | gap {p T} : Gap (ident.drop p) → Split ident p T [] [] (ident.drop p) [] T
  | subst {p T g w r idx new substs lit cs T'} : ident.drop p = g ++ w ++ r → Gap g → IsWord w →
      EndsWord w r → T[idx]? = some w →
      Split ident (p + g.length + w.length) T new substs lit cs T' →
      Split ident p T new (⟨p + g.length, some idx⟩ :: substs) g (⟨idx, w, lit⟩ :: cs) T'
  | new {p T g w r new substs lit cs T'} : ident.drop p = g ++ w ++ r → Gap g → IsWord w →
      EndsWord w r → 2 ≤ w.length ∧ T.length < maxNumWords →
      Split ident (p + g.length + w.length) (T ++ [w]) new substs lit cs T' →
      Split ident p T (⟨p + g.length, w.length⟩ :: new) substs (g ++ w ++ lit) cs T'
  | skip {p T g w r new substs lit cs T'} : ident.drop p = g ++ w ++ r → Gap g → IsWord w →
      EndsWord w r → ¬ (2 ≤ w.length ∧ T.length < maxNumWords) →
      Split ident (p + g.length + w.length) T new substs lit cs T' →
      Split ident p T new substs (g ++ w ++ lit) cs T'

/-- What stands behind a literal: the end, or a chunk. -/
inductive Split.Next (ident : StringRef) : Nat → List StringRef → List SubstitutionWord →
    List WordReplacement → List Chunk → List StringRef → Prop where
  | done {p T} : Next ident p T [] [] [] T
  | chunk {p T idx w new substs lit cs T'} : T[idx]? = some w → isDigit (lit.headD 0) = false →
      Split ident (p + w.length) T new substs lit cs T' →
      Next ident p T new (⟨p, some idx⟩ :: substs) (⟨idx, w, lit⟩ :: cs) T'

section

variable {ident : StringRef} {p : Nat} {T T' : List StringRef} {new : List SubstitutionWord}
  {substs : List WordReplacement} {lit : StringRef} {cs : List Chunk}

theorem Split.drop_eq (h : Split ident p T new substs lit cs T') : ident.drop p = plain lit cs := by
  induction h with
  | gap => simp [plain]
  | subst hs _ _ _ _ _ ih =>
      rw [hs, ← drop_add hs, List.length_append, ← add_assoc, ih]
      simp [plain]
  | new hs _ _ _ _ _ ih =>
      rw [hs, ← drop_add hs, List.length_append, ← add_assoc, ih]
      simp [plain]
  | skip hs _ _ _ _ _ ih =>
      rw [hs, ← drop_add hs, List.length_append, ← add_assoc, ih]
      simp [plain]

theorem EndsWord.mono {g w r : StringRef} (h : EndsWord w r) (hs : ident.drop p = g ++ w ++ r)
    (hrest : Split ident (p + g.length + w.length) T new substs lit cs T') : EndsWord w lit := by
  have hr : r = plain lit cs := by
    rw [← hrest.drop_eq, ← drop_add hs, List.length_append, add_assoc]
  subst hr
  cases lit with
  | nil => exact fun x _ => isWordEnd_zero x
  | cons c t => exact h

/-! ## The mangler's search -/

theorem noteWord_cases {m : Mangler} {s : Search} {w r : StringRef} {q : Nat}
    {new₀ : List SubstitutionWord} {Told Tnew : List StringRef} (hold : Located m.buffer m.words Told)
    (hnew : Located ident new₀ Tnew) (hwords : s.words = m.words ++ new₀) (hw : ident.drop q = w ++ r) :
    (∃ idx, (Told ++ Tnew)[idx]? = some w ∧ noteWord m ident s q (q + w.length) =
      { s with substWordsInIdent := s.substWordsInIdent ++ [⟨q, some idx⟩] }) ∨
    (2 ≤ w.length ∧ (Told ++ Tnew).length < maxNumWords ∧ noteWord m ident s q (q + w.length) =
      { s with words := s.words ++ [⟨q, w.length⟩] }) ∨
    (¬ (2 ≤ w.length ∧ (Told ++ Tnew).length < maxNumWords) ∧
      noteWord m ident s q (q + w.length) = s) := by
  have hlenold := hold.length_eq
  have hlennew := hnew.length_eq
  have hword : substr ident q w.length = w := by rw [substr, hw, List.take_left]
  have hlen : (Told ++ Tnew).length = s.words.length := by
    rw [hwords, List.length_append, List.length_append, hlenold, hlennew]
  have hfound : ∀ idx, lookupWord s.words m.buffer w 0 m.words.length = some idx ∨
      lookupWord s.words ident w m.words.length s.words.length = some idx →
      (Told ++ Tnew)[idx]? = some w := by
    rintro idx (h | h)
    · refine lookupWord_eq_some h (fun v t _ hidx hv ht => ?_) hlen
      rw [hwords, List.getElem?_append_left hidx] at hv
      rw [List.getElem?_append_left (by omega)] at ht
      exact hold.get hv ht
    · refine lookupWord_eq_some h (fun v t hidx _ hv ht => ?_) hlen
      rw [hwords, List.getElem?_append_right hidx] at hv
      rw [List.getElem?_append_right (by omega), ← hlenold] at ht
      exact hnew.get hv ht
  simp only [noteWord, Nat.add_sub_cancel_left, hword, hlen]
  cases h₁ : lookupWord s.words m.buffer w 0 m.words.length with
  | some idx => exact .inl ⟨idx, hfound idx (.inl h₁), rfl⟩
  | none =>
      cases h₂ : lookupWord s.words ident w m.words.length s.words.length with
      | some idx => exact .inl ⟨idx, hfound idx (.inr h₂), rfl⟩
      | none =>
          by_cases hadd : 2 ≤ w.length ∧ s.words.length < maxNumWords
          · exact .inr (.inl ⟨hadd.1, hadd.2, if_pos hadd⟩)
          · exact .inr (.inr ⟨hadd, if_neg hadd⟩)

theorem scanFrom_split {m : Mangler} {Told : List StringRef} (hold : Located m.buffer m.words Told)
    {p : Nat} (s : Search) (new₀ : List SubstitutionWord) (Tnew : List StringRef)
    (hp : p ≤ ident.length)
    (hnew : Located ident new₀ Tnew) (hwords : s.words = m.words ++ new₀) :
    ∃ new substs lit cs T', Split ident p (Told ++ Tnew) new substs lit cs T' ∧
      (scanFrom ident (noteWord m ident) p (none, s)).2 =
        ⟨s.words ++ new, s.substWordsInIdent ++ substs⟩ := by
  induction hn : ident.length - p using Nat.strong_induction_on generalizing p s new₀ Tnew with
  | _ n ih =>
  rcases exists_word (ident.drop p) with hgap | ⟨g, w, r, hs, hg, hw, hend⟩
  · exact ⟨[], [], _, [], _, .gap hgap, by rw [scanFrom_end hgap]; simp⟩
  · have hq : ident.drop (p + g.length) = w ++ r := by
      rw [List.append_assoc] at hs
      exact drop_add hs
    have hpos := hw.length_pos
    have hlen := length_of_drop_eq hs (by simp [List.length_pos_iff.1 hpos])
    rw [List.length_append, List.length_append] at hlen
    have hrest := ih (ident.length - (p + g.length + w.length)) (by omega)
      (p := p + g.length + w.length)
    rw [scanFrom_word hs hg hw hend]
    rcases noteWord_cases hold hnew hwords hq with ⟨idx, hidx, hnote⟩ | ⟨h2, hroom, hnote⟩ | ⟨hno, hnote⟩
    · obtain ⟨new, substs, lit, cs, T', hsplit, hscan⟩ := hrest
        { s with substWordsInIdent := s.substWordsInIdent ++ [⟨p + g.length, some idx⟩] } new₀ Tnew
        (by omega) hnew hwords rfl
      refine ⟨new, _, _, _, T', .subst hs hg hw hend hidx hsplit, ?_⟩
      rw [hnote, hscan, List.append_assoc]
      rfl
    · have hnew' : Located ident (new₀ ++ [⟨p + g.length, w.length⟩]) (Tnew ++ [w]) :=
        List.rel_append hnew (.cons (.of_drop hq) .nil)
      obtain ⟨new, substs, lit, cs, T', hsplit, hscan⟩ := hrest
        { s with words := s.words ++ [⟨p + g.length, w.length⟩] } _ _
        (by omega) hnew' (by rw [hwords, List.append_assoc]) rfl
      rw [← List.append_assoc] at hsplit
      refine ⟨_, substs, _, cs, T', .new hs hg hw hend ⟨h2, hroom⟩ hsplit, ?_⟩
      rw [hnote, hscan, List.append_assoc]
      rfl
    · obtain ⟨new, substs, lit, cs, T', hsplit, hscan⟩ := hrest s new₀ Tnew (by omega) hnew hwords rfl
      refine ⟨new, substs, _, cs, T', .skip hs hg hw hend hno hsplit, ?_⟩
      rw [hnote, hscan]

/-! ## The mangler's output -/

theorem Split.le_start (h : Split ident p T new substs lit cs T') : ∀ w ∈ new, p ≤ w.start := by
  induction h with
  | gap => simp
  | subst _ _ _ _ _ _ ih => exact fun v hv => (by omega : _ ≤ _).trans (ih v hv)
  | new _ _ _ _ _ _ ih =>
      rintro v (_ | ⟨_, hv⟩)
      · exact Nat.le_add_right ..
      · exact (by omega : _ ≤ _).trans (ih v hv)
  | skip _ _ _ _ _ _ ih => exact fun v hv => (by omega : _ ≤ _).trans (ih v hv)

theorem Split.length_substs (h : Split ident p T new substs lit cs T') : substs.length = cs.length := by
  induction h with
  | gap => rfl
  | subst _ _ _ _ _ _ ih => simp only [List.length_cons, ih]
  | new _ _ _ _ _ _ ih => exact ih
  | skip _ _ _ _ _ _ ih => exact ih

theorem iterate_append (x y : StringRef) (e : Writer) :
    Nat.iterate (writeChar ident) (x ++ y).length e =
      Nat.iterate (writeChar ident) y.length (Nat.iterate (writeChar ident) x.length e) := by
  rw [← Function.iterate_add_apply, List.length_append, add_comm]

theorem iterate_writeChar_copy {x y buffer : StringRef} {words : List SubstitutionWord} {n : Nat}
    (hx : ident.drop p = x ++ y) (hnext : ∀ v, words[n]? = some v → p + x.length ≤ v.start) :
    Nat.iterate (writeChar ident) x.length ⟨p, words, n, buffer⟩ =
      ⟨p + x.length, words, n, buffer ++ x⟩ := by
  induction x generalizing p buffer with
  | nil => simp
  | cons c x ih =>
      rw [List.length_cons] at hnext ⊢
      have hget : ident.getD p 0 = c := getD_add hx 0
      have hstep : writeChar ident ⟨p, words, n, buffer⟩ = ⟨p + 1, words, n, buffer ++ [c]⟩ := by
        unfold writeChar
        cases hv : words[n]? with
        | none => simp only [hget]
        | some v =>
            have hne : v.start ≠ p := by have := hnext v hv; omega
            simp only [if_neg hne, hget]
      have hdrop : ident.drop (p + 1) = x ++ y := drop_add (x := [c]) hx
      rw [Function.iterate_succ_apply, hstep, ih hdrop fun v hv => by have := hnext v hv; omega,
        List.append_assoc, List.singleton_append, add_right_comm, add_assoc]

theorem iterate_writeChar_word {w r buffer : StringRef} {done : List SubstitutionWord}
    (hw : ident.drop p = w ++ r) (hpos : 0 < w.length) (hnew : ∀ v ∈ new, p + w.length ≤ v.start) :
    Nat.iterate (writeChar ident) w.length
        ⟨p, done ++ ⟨p, w.length⟩ :: new, done.length, buffer⟩ =
      ⟨p + w.length, done ++ ⟨buffer.length, w.length⟩ :: new, done.length + 1, buffer ++ w⟩ := by
  obtain ⟨c, t, rfl⟩ := List.exists_cons_of_length_pos hpos
  have hget : ident.getD p 0 = c := getD_add hw 0
  have hstep : writeChar ident ⟨p, done ++ ⟨p, (c :: t).length⟩ :: new, done.length, buffer⟩ =
      ⟨p + 1, done ++ ⟨buffer.length, (c :: t).length⟩ :: new, done.length + 1, buffer ++ [c]⟩ := by
    unfold writeChar
    simp only [List.getElem?_append_right le_rfl, Nat.sub_self, List.getElem?_cons_zero,
      List.set_append_right _ _ le_rfl, List.set_cons_zero, hget, if_true]
  have hdrop : ident.drop (p + 1) = t ++ r := drop_add (x := [c]) hw
  have hlen : (c :: t).length = 1 + t.length := by rw [List.length_cons, add_comm]
  have hcopy : ∀ v, (done ++ ⟨buffer.length, (c :: t).length⟩ :: new)[done.length + 1]? = some v →
      p + 1 + t.length ≤ v.start := by
    intro v hv
    rw [List.getElem?_append_right (by simp), Nat.add_sub_cancel_left] at hv
    have := hnew v (List.mem_of_getElem? hv)
    omega
  calc Nat.iterate (writeChar ident) (c :: t).length
        ⟨p, done ++ ⟨p, (c :: t).length⟩ :: new, done.length, buffer⟩
      = Nat.iterate (writeChar ident) t.length (writeChar ident
          ⟨p, done ++ ⟨p, (c :: t).length⟩ :: new, done.length, buffer⟩) :=
        Function.iterate_succ_apply ..
    _ = _ := by rw [hstep, iterate_writeChar_copy hdrop hcopy]
    _ = _ := by rw [List.append_assoc, List.singleton_append, hlen, add_assoc]

theorem Split.next (h : Split ident p T new substs lit cs T') :
    ∃ ws new', Words lit ws ∧
      Split.Next ident (p + lit.length) (ws.foldl addToTable T) new' substs cs T' := by
  induction h with
  | gap hg => exact ⟨[], [], .gap hg, .done⟩
  | subst hs hg hw hend hidx hrest =>
      exact ⟨[], _, .gap hg, .chunk hidx ((hend.mono hs hrest).not_isDigit hw) hrest⟩
  | @new p T g w r new substs lit cs T' hs hg hw hend hadd hrest ih =>
      obtain ⟨ws, new', hws, hnext⟩ := ih
      have htable : addToTable T w = T ++ [w] := if_pos hadd
      refine ⟨w :: ws, new', .word hg hw (hend.mono hs hrest) hws, ?_⟩
      rw [List.foldl_cons, htable]
      simpa only [List.length_append, ← add_assoc] using hnext
  | @skip p T g w r new substs lit cs T' hs hg hw hend hno hrest ih =>
      obtain ⟨ws, new', hws, hnext⟩ := ih
      have htable : addToTable T w = T := if_neg hno
      refine ⟨w :: ws, new', .word hg hw (hend.mono hs hrest) hws, ?_⟩
      rw [List.foldl_cons, htable]
      simpa only [List.length_append, ← add_assoc] using hnext

/-- Writing a literal: its new words go into the table with their places in the buffer. -/
theorem Split.literal (h : Split ident p T new substs lit cs T') (done : List SubstitutionWord)
    (buffer : StringRef) (hdone : Located buffer done T) :
    ∃ T₁ moved new', Located (buffer ++ lit) (done ++ moved) T₁ ∧
      Split.Next ident (p + lit.length) T₁ new' substs cs T' ∧
      Nat.iterate (writeChar ident) lit.length ⟨p, done ++ new, done.length, buffer⟩ =
        ⟨p + lit.length, done ++ moved ++ new', (done ++ moved).length, buffer ++ lit⟩ := by
  induction h generalizing done buffer with
  | @gap p T hg =>
      refine ⟨T, [], [], ?_, .done, ?_⟩
      · rw [List.append_nil]
        exact hdone.append _
      · rw [iterate_writeChar_copy (List.append_nil _).symm fun v hv => by simp at hv]
        simp only [List.append_nil]
  | @subst p T g w r idx new substs lit cs T' hs hg hw hend hidx hrest ih =>
      refine ⟨T, [], new, ?_, .chunk hidx ((hend.mono hs hrest).not_isDigit hw) hrest, ?_⟩
      · rw [List.append_nil]
        exact hdone.append _
      · rw [List.append_assoc] at hs
        rw [iterate_writeChar_copy hs]
        · simp only [List.append_nil]
        · intro v hv
          rw [List.getElem?_append_right le_rfl] at hv
          have := hrest.le_start v (List.mem_of_getElem? hv)
          omega
  | @new p T g w r new substs lit cs T' hs hg hw hend hadd hrest ih =>
      rw [List.append_assoc] at hs
      have hdone' : Located (buffer ++ g ++ w) (done ++ [⟨(buffer ++ g).length, w.length⟩]) (T ++ [w]) :=
        List.rel_append ((hdone.append g).append w) (.cons (.of_drop (r := []) (by simp)) .nil)
      obtain ⟨T₁, moved, new', hloc, hnext, hwrite⟩ := ih _ _ hdone'
      refine ⟨T₁, ⟨(buffer ++ g).length, w.length⟩ :: moved, new', ?_, ?_, ?_⟩
      · simpa only [List.append_assoc, List.cons_append, List.nil_append] using hloc
      · simpa only [List.length_append, ← add_assoc] using hnext
      · calc Nat.iterate (writeChar ident) (g ++ w ++ lit).length
              ⟨p, done ++ ⟨p + g.length, w.length⟩ :: new, done.length, buffer⟩
            = Nat.iterate (writeChar ident) lit.length (Nat.iterate (writeChar ident) w.length
                (Nat.iterate (writeChar ident) g.length
                  ⟨p, done ++ ⟨p + g.length, w.length⟩ :: new, done.length, buffer⟩)) := by
              rw [iterate_append, iterate_append]
          _ = Nat.iterate (writeChar ident) lit.length (Nat.iterate (writeChar ident) w.length
                ⟨p + g.length, done ++ ⟨p + g.length, w.length⟩ :: new, done.length,
                  buffer ++ g⟩) := by
              rw [iterate_writeChar_copy hs fun v hv => ?_]
              rw [List.getElem?_append_right le_rfl, Nat.sub_self] at hv
              obtain rfl := Option.some.inj hv
              exact le_rfl
          _ = _ := by
              rw [iterate_writeChar_word (drop_add hs) hw.length_pos hrest.le_start]
              simpa only [List.append_assoc, List.cons_append, List.nil_append, List.length_append,
                List.length_cons, List.length_nil, ← add_assoc] using hwrite
  | @skip p T g w r new substs lit cs T' hs hg hw hend hno hrest ih =>
      obtain ⟨T₁, moved, new', hloc, hnext, hwrite⟩ := ih done (buffer ++ (g ++ w)) (hdone.append _)
      refine ⟨T₁, moved, new', ?_, ?_, ?_⟩
      · simpa only [List.append_assoc] using hloc
      · simpa only [List.length_append, ← add_assoc] using hnext
      · calc Nat.iterate (writeChar ident) (g ++ w ++ lit).length
              ⟨p, done ++ new, done.length, buffer⟩
            = Nat.iterate (writeChar ident) lit.length
                (Nat.iterate (writeChar ident) (g ++ w).length ⟨p, done ++ new, done.length, buffer⟩) := by
              rw [iterate_append]
          _ = _ := by
              rw [iterate_writeChar_copy hs fun v hv => ?_]
              · simpa only [List.append_assoc, List.length_append, ← add_assoc] using hwrite
              · rw [List.getElem?_append_right le_rfl] at hv
                have := hrest.le_start v (List.mem_of_getElem? hv)
                rw [List.length_append]
                omega

end

def encodeLit (lit : StringRef) : StringRef := if lit = [] then [] else decimal lit.length ++ lit

/-- A substitution, as it is mangled; `cs` are the chunks behind its own. -/
def encodeSubst (c : Chunk) (cs : List Chunk) : StringRef :=
  if cs = [] then char (c.idx + 0x41) :: (if c.lit = [] then [0x30] else [])
  else [char (c.idx + 0x61)]

def encodeChunks : List Chunk → StringRef
  | [] => []
  | c :: cs => encodeSubst c cs ++ (encodeLit c.lit ++ encodeChunks cs)

section

variable {ident : StringRef} {p : Nat} {T T' : List StringRef} {new : List SubstitutionWord}
  {substs : List WordReplacement} {lit : StringRef} {cs : List Chunk}

theorem Split.writeSubString (h : Split ident p T new substs lit cs T')
    (done : List SubstitutionWord) (buffer : StringRef) (hdone : Located buffer done T) :
    ∃ T₁ moved new', Located (buffer ++ encodeLit lit) (done ++ moved) T₁ ∧
      Split.Next ident (p + lit.length) T₁ new' substs cs T' ∧
      Mangler.writeSubString ident (p + lit.length) ⟨p, done ++ new, done.length, buffer⟩ =
        ⟨p + lit.length, done ++ moved ++ new', (done ++ moved).length, buffer ++ encodeLit lit⟩ := by
  by_cases hlit : lit = []
  · subst hlit
    obtain ⟨T₁, moved, new', hloc, hnext, hwrite⟩ := h.literal done buffer hdone
    exact ⟨T₁, moved, new', hloc, hnext, (if_neg (lt_irrefl p)).trans hwrite⟩
  · obtain ⟨T₁, moved, new', hloc, hnext, hwrite⟩ := h.literal done
      (buffer ++ decimal lit.length) (hdone.append _)
    have henc : encodeLit lit = decimal lit.length ++ lit := if_neg hlit
    have hpos := List.length_pos_of_ne_nil hlit
    rw [henc, ← List.append_assoc]
    refine ⟨T₁, moved, new', hloc, hnext, ?_⟩
    rw [← hwrite, Mangler.writeSubString, if_pos (by simpa using hpos)]
    simp only [Nat.add_sub_cancel_left]

theorem writeReplacements_split (h : Split ident p T new substs lit cs T') (hp : p ≤ ident.length)
    (done : List SubstitutionWord) (buffer : StringRef) (hdone : Located buffer done T) :
    ∃ words pos n, writeReplacements ident (substs ++ [⟨ident.length, none⟩])
        ⟨p, done ++ new, done.length, buffer⟩ =
        ⟨pos, words, n, buffer ++ (encodeLit lit ++ encodeChunks cs)⟩ ∧
      Located (buffer ++ (encodeLit lit ++ encodeChunks cs)) words T' := by
  induction cs generalizing p T new substs lit done buffer with
  | nil =>
      have hrest := h.drop_eq
      obtain ⟨T₁, moved, new', hloc, hnext, hwrite⟩ := h.writeSubString done buffer hdone
      cases hnext
      have hend : ident.length = p + lit.length := by
        have hlen := congrArg List.length hrest
        rw [List.length_drop] at hlen
        simp [plain] at hlen
        omega
      refine ⟨done ++ moved, p + lit.length, (done ++ moved).length, ?_, ?_⟩
      · rw [List.nil_append, writeReplacements, hend, hwrite]
        simp [writeReplacements, encodeChunks]
      · rw [encodeChunks, List.append_nil]
        exact hloc
  | cons c cs ih =>
      obtain ⟨T₁, moved, new', hloc, hnext, hwrite⟩ := h.writeSubString done buffer hdone
      cases hnext with
      | @chunk idx w _ substs lit' _ _ hidx _ hsplit =>
      have hlt := (List.getElem?_eq_some_iff.1 hidx).1
      have hword : (((done ++ moved ++ new')[idx]?).map SubstitutionWord.length).getD 0 = w.length := by
        rw [← hloc.length_eq] at hlt
        rw [List.getElem?_append_left hlt, List.getElem?_eq_getElem hlt]
        exact (hloc.get (List.getElem?_eq_getElem hlt) hidx).length_eq.symm
      have hlen := congrArg List.length h.drop_eq
      rw [List.length_drop] at hlen
      simp [plain] at hlen
      have hstep : writeReplacements ident
          (⟨p + lit.length, some idx⟩ :: (substs ++ [⟨ident.length, none⟩]))
          ⟨p, done ++ new, done.length, buffer⟩ =
          writeReplacements ident (substs ++ [⟨ident.length, none⟩])
            ⟨p + lit.length + w.length, done ++ moved ++ new', (done ++ moved).length,
              buffer ++ encodeLit lit ++ encodeSubst ⟨idx, w, lit'⟩ cs⟩ := by
        rw [writeReplacements, hwrite]
        simp only [hword, List.length_append, hsplit.length_substs, List.length_singleton]
        cases cs with
        | nil =>
            have hend : p + lit.length + w.length = ident.length ↔ lit' = [] := by
              rw [← List.length_eq_zero_iff]
              simp at hlen
              omega
            simp only [List.length_nil, lt_irrefl, if_false, hend, encodeSubst, if_true]
            by_cases hlit' : lit' = [] <;> simp [hlit']
        | cons c cs => simp [encodeSubst]
      obtain ⟨words, pos, n, hrun, hfin⟩ := ih hsplit (by omega) (done ++ moved)
        (buffer ++ encodeLit lit ++ encodeSubst ⟨idx, w, lit'⟩ cs) (hloc.append _)
      refine ⟨words, pos, n, ?_, ?_⟩
      · rw [List.cons_append, hstep, hrun, encodeChunks]
        simp only [List.append_assoc]
      · rw [encodeChunks]
        simpa only [List.append_assoc] using hfin

end

end SwiftKStdlib.Demangling
