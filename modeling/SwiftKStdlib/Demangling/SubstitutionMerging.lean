import Mathlib.Tactic
import SwiftKStdlib.Demangling.Reading
import SwiftKStdlib.Demangling.Substitutions

/-!
# Merged substitutions push the same nodes

* `ReadsText t f` : the demangler's loop reads the text `t`, wherever it stands, with the effect `f` on
  the nodes;
* `Lists body f` : the lower-case part of a merged list, in the loop of `demangleMultiSubstitutions`;
* `Remembers` : the substitution at the end of a buffer, as the mangler remembers it;
* `reads_merged` : the merged and the unmerged text are read with one effect.
-/

namespace SwiftKStdlib.Demangling

open Lib (Prog)
open Lib.Prog (bind_run bind_congr get_run)
open Mangle NodeDemangler
open Demangler (Failure)

/-! ## Effects on the nodes -/

/-- The nodes when the text is read; an error for the nodes when the demangler stops. -/
abbrev Effect := Nodes → Except Nodes Nodes

def Effect.seq (f g : Effect) : Effect := fun n => f n >>= g

def Nodes.push (n : Nodes) (nds : List Node) : Nodes := { n with nodeStack := n.nodeStack ++ nds }

/-- Push the substitution at an index `count` times. -/
def pushIndex (count idx : Nat) : Effect := fun n =>
  match n.substitutions[idx]? with
  | none => .error n
  | some nd => .ok (n.push (List.replicate count nd))

/-- Push the standard type with a code `count` times. -/
def pushStandard (count : Nat) (code : BitVec 8) : Effect := fun n =>
  match createStandardSubstitution code with
  | none => .error n
  | some nd => .ok (n.push (List.replicate count nd))

theorem Effect.seq_assoc (f g h : Effect) : (f.seq g).seq h = f.seq (g.seq h) := by
  funext n
  unfold Effect.seq
  cases f n <;> rfl

theorem Nodes.push_append (n : Nodes) (xs ys : List Node) : (n.push xs).push ys = n.push (xs ++ ys) := by
  unfold Nodes.push
  rw [List.append_assoc]

theorem pushIndex_succ (count idx : Nat) :
    pushIndex (count + 1) idx = (pushIndex count idx).seq (pushIndex 1 idx) := by
  funext n
  cases h : n.substitutions[idx]? with
  | none =>
    unfold Effect.seq pushIndex
    rw [h]
    rfl
  | some nd =>
    have hleft : pushIndex count idx n = .ok (n.push (List.replicate count nd)) := by
      unfold pushIndex
      rw [h]
    have hright : pushIndex 1 idx (n.push (List.replicate count nd)) =
        .ok (n.push (List.replicate (count + 1) nd)) := by
      have hsame : (n.push (List.replicate count nd)).substitutions[idx]? = some nd := h
      unfold pushIndex
      rw [hsame, List.replicate_succ', ← Nodes.push_append]
      rfl
    have hboth : pushIndex (count + 1) idx n = .ok (n.push (List.replicate (count + 1) nd)) := by
      unfold pushIndex
      rw [h]
    rw [hboth, Effect.seq, hleft]
    exact hright.symm

theorem pushStandard_succ (count : Nat) (code : BitVec 8) :
    pushStandard (count + 1) code = (pushStandard count code).seq (pushStandard 1 code) := by
  funext n
  unfold Effect.seq pushStandard
  cases createStandardSubstitution code with
  | none => rfl
  | some nd =>
    change Except.ok _ = Except.ok ((n.push (List.replicate count nd)).push (List.replicate 1 nd))
    rw [Nodes.push_append, List.replicate_append_replicate]

/-! ## Reading a text -/

section ReadsText

variable (demangleOther : BitVec 8 → Prog NodeDemangler Failure Node)

abbrev Steps : NodeDemangler → NodeDemangler → Prop := Relation.ReflTransGen (Step demangleOther)

/-- The loop reads `t` to its end, or stops in it, whatever stands before and behind it. -/
def ReadsText (t : StringRef) (f : Effect) : Prop :=
  ∀ (before rest : StringRef) (n : Nodes),
    match f n with
    | .ok n' => Steps demangleOther ⟨before ++ t ++ rest, before.length, n⟩
        ⟨before ++ t ++ rest, before.length + t.length, n'⟩
    | .error n' => ∃ d d', Steps demangleOther ⟨before ++ t ++ rest, before.length, n⟩ d ∧
        Stops demangleOther d d' ∧ d'.nodes = n'

def Complete (t : StringRef) : Prop := ∃ f, ReadsText demangleOther t f

variable {demangleOther} {t u : StringRef} {f g : Effect}

theorem reads_nil : ReadsText demangleOther [] .ok := by
  intro before rest n
  exact .refl

theorem ReadsText.append (ht : ReadsText demangleOther t f) (hu : ReadsText demangleOther u g) :
    ReadsText demangleOther (t ++ u) (f.seq g) := by
  intro before rest n
  have hfirst := ht before (u ++ rest) n
  cases hf : f n with
  | error n' =>
    have hseq : f.seq g n = .error n' := by
      rw [Effect.seq, hf]
      rfl
    rw [hf] at hfirst
    rw [hseq]
    simpa only [List.append_assoc] using hfirst
  | ok n' =>
    have hseq : f.seq g n = g n' := by
      rw [Effect.seq, hf]
      rfl
    have hsecond := hu (before ++ t) rest n'
    rw [hf] at hfirst
    rw [hseq]
    cases hg : g n' with
    | ok n'' =>
      rw [hg] at hsecond
      simp only [List.append_assoc, List.length_append] at hfirst hsecond ⊢
      rw [← Nat.add_assoc]
      exact hfirst.trans hsecond
    | error n'' =>
      rw [hg] at hsecond
      obtain ⟨d, d', hsteps, hstops, hnodes⟩ := hsecond
      simp only [List.append_assoc, List.length_append] at hfirst hsteps ⊢
      exact ⟨d, d', hfirst.trans hsteps, hstops, hnodes⟩

theorem Steps.parses {d d' d'' : NodeDemangler} {r : Bool} (h : Steps demangleOther d d')
    (hparses : ParsesAndPushes demangleOther d' r d'') : ParsesAndPushes demangleOther d r d'' := by
  induction h using Relation.ReflTransGen.head_induction_on with
  | refl => exact hparses
  | head hstep _ ih => exact .step _ _ _ _ hstep ih

theorem ReadsText.parses (h : ReadsText demangleOther t f) (n : Nodes) :
    ∃ r d, ParsesAndPushes demangleOther ⟨t, 0, n⟩ r d ∧
      f n = if r then .ok d.nodes else .error d.nodes := by
  have hread := h [] [] n
  cases hf : f n with
  | ok n' =>
    rw [hf] at hread
    simp only [List.nil_append, List.append_nil, List.length_nil, Nat.zero_add] at hread
    exact ⟨true, _, hread.parses (.finish _ (le_refl _)), rfl⟩
  | error n' =>
    rw [hf] at hread
    obtain ⟨d, d', hsteps, hstops, hnodes⟩ := hread
    simp only [List.nil_append, List.append_nil, List.length_nil] at hsteps
    refine ⟨false, d', hsteps.parses (.stop _ _ hstops), ?_⟩
    rw [hnodes]
    rfl

end ReadsText

/-! ## Characters and pushes -/

section Operations

variable {text y : StringRef} {pos : Nat} {n : Nodes}

theorem onText_run {α : Type} {x : Prog Demangler Failure α} {r : Except Failure α} {pos' : Nat}
    (h : x ⟨text, pos, n.words⟩ = (r, ⟨text, pos', n.words⟩)) :
    onText x ⟨text, pos, n⟩ = (r, ⟨text, pos', n⟩) := by
  rw [onText, h]

theorem onText_nextChar {c : BitVec 8} (h : text.drop pos = c :: y) :
    onText Demangler.nextChar ⟨text, pos, n⟩ = (.ok c, ⟨text, pos + 1, n⟩) :=
  onText_run (nextChar_run h)

theorem pushBack_run : pushBack ⟨text, pos + 1, n⟩ = (.ok (), ⟨text, pos, n⟩) := rfl

theorem pushRepeated_run (nd : Node) (k : Nat) :
    pushRepeated nd k ⟨text, pos, n⟩ = (.ok (), ⟨text, pos, n.push (List.replicate k nd)⟩) := by
  induction k generalizing n with
  | zero =>
    have hpush : n.push (List.replicate 0 nd) = n := by
      rw [Nodes.push, List.replicate_zero, List.append_nil]
    rw [hpush]
    rfl
  | succ k ih =>
    have hnode : pushNode nd ⟨text, pos, n⟩ = (.ok (), ⟨text, pos, n.push [nd]⟩) := rfl
    rw [pushRepeated, bind_run hnode, ih, Nodes.push_append, List.replicate_succ]
    rfl

theorem push_replicate (nd : Node) {count : Nat} (hcount : 0 < count) :
    NodeDemangler.push ⟨text, pos, n.push (List.replicate (count - 1) nd)⟩ nd =
      ⟨text, pos, n.push (List.replicate count nd)⟩ := by
  obtain ⟨k, rfl⟩ := Nat.exists_eq_add_one.2 hcount
  rw [List.replicate_succ', ← Nodes.push_append]
  rfl

/-- A repeat count that stands for `count` nodes. -/
def IsRepeat (repeatCount : Option Nat) (count : Nat) : Prop :=
  repeatCount.getD 0 ≤ maxRepeatCount ∧ repeatCount.getD 0 - 1 = count - 1

theorem pushMultiSubstitutions_some {repeatCount : Option Nat} {count idx : Nat} {nd : Node}
    (hrepeat : IsRepeat repeatCount count) (hidx : n.substitutions[idx]? = some nd) :
    pushMultiSubstitutions repeatCount idx ⟨text, pos, n⟩ =
      (.ok nd, ⟨text, pos, n.push (List.replicate (count - 1) nd)⟩) := by
  have hat : substitutionAt idx ⟨text, pos, n⟩ = (.ok nd, ⟨text, pos, n⟩) := by
    rw [substitutionAt]
    simp only [hidx]
  rw [pushMultiSubstitutions, bind_run hat, if_neg (Nat.not_lt.2 hrepeat.1), hrepeat.2,
    bind_run (pushRepeated_run nd _)]
  rfl

theorem pushMultiSubstitutions_none {repeatCount : Option Nat} {idx : Nat}
    (hidx : n.substitutions[idx]? = none) :
    pushMultiSubstitutions repeatCount idx ⟨text, pos, n⟩ = (.error .nullptr, ⟨text, pos, n⟩) := by
  have hat : substitutionAt idx ⟨text, pos, n⟩ = (.error .nullptr, ⟨text, pos, n⟩) := by
    rw [substitutionAt]
    simp only [hidx]
  change Prog.bind _ _ _ = _
  rw [Prog.bind, hat]

/-! ## Repeat counts -/

def countText (count : Nat) : StringRef := if count = 1 then [] else decimal count

theorem countText_of_two_le {count : Nat} (h : 2 ≤ count) : countText count = decimal count :=
  if_neg (by omega)

theorem onText_demangleNatural {count : Nat} {c : BitVec 8} (h2 : 2 ≤ count)
    (hmax : count ≤ maxRepeatCount) (hc : isDigit c = false)
    (h : text.drop pos = decimal count ++ c :: y) :
    onText Demangler.demangleNatural ⟨text, pos, n⟩ =
      (.ok (some count), ⟨text, pos + (decimal count).length, n⟩) := by
  have hint : count < 2 ^ 31 := hmax.trans_lt (by decide)
  exact onText_run (demangleNatural_decimal (by omega) hint h hc)

theorem demangleNatural_none {c : BitVec 8} {T : List StringRef} (hc : isDigit c = false)
    (h : text.drop pos = c :: y) :
    Demangler.demangleNatural ⟨text, pos, T⟩ = (.ok none, ⟨text, pos, T⟩) := by
  have hpeek := peekChar_run (T := T) h
  rw [Demangler.demangleNatural, bind_run hpeek, bind_run (get_run _)]
  simp only [List.headD_cons, hc, Bool.false_eq_true, if_false]
  rfl

theorem digit_cases {c : BitVec 8} (hc : isDigit c = true) :
    c ≠ 0 ∧ isLowerLetter c = false ∧ isUpperLetter c = false ∧ c ≠ 0x5F := by
  revert c
  decide

theorem letter_cases {c : BitVec 8} (hc : isLowerLetter c = true ∨ isUpperLetter c = true) :
    c ≠ 0 ∧ isDigit c = false := by
  revert c
  decide

theorem onText_repeatCount {count : Nat} {c : BitVec 8} (hpos : 0 < count)
    (hmax : count ≤ maxRepeatCount) (hc : isLowerLetter c = true ∨ isUpperLetter c = true)
    (h : text.drop pos = countText count ++ c :: y) :
    ∃ repeatCount, IsRepeat repeatCount count ∧
      onText Demangler.demangleNatural ⟨text, pos, n⟩ =
        (.ok repeatCount, ⟨text, pos + (countText count).length, n⟩) := by
  by_cases hone : count = 1
  · subst hone
    exact ⟨none, ⟨Nat.zero_le _, rfl⟩, onText_run (demangleNatural_none (letter_cases hc).2 h)⟩
  · have h2 : 2 ≤ count := by omega
    rw [countText_of_two_le h2] at h ⊢
    exact ⟨some count, ⟨hmax, rfl⟩, onText_demangleNatural h2 hmax (letter_cases hc).2 h⟩

theorem multiSubstitutionsLoop_lower {c : BitVec 8} (hc : isLowerLetter c = true) (fuel : Nat)
    (repeatCount : Option Nat) (h : text.drop pos = c :: y) :
    multiSubstitutionsLoop (fuel + 1) repeatCount ⟨text, pos, n⟩ =
      (do
        let nd ← pushMultiSubstitutions repeatCount (c.toNat - 0x61)
        pushNode nd
        multiSubstitutionsLoop fuel none) ⟨text, pos + 1, n⟩ := by
  rw [multiSubstitutionsLoop, bind_run (onText_nextChar h), if_neg (letter_cases (.inl hc)).1, if_pos hc]

theorem multiSubstitutionsLoop_upper {c : BitVec 8} (hc : isUpperLetter c = true)
    (hlower : isLowerLetter c = false) (fuel : Nat) (repeatCount : Option Nat)
    (h : text.drop pos = c :: y) :
    multiSubstitutionsLoop (fuel + 1) repeatCount ⟨text, pos, n⟩ =
      pushMultiSubstitutions repeatCount (c.toNat - 0x41) ⟨text, pos + 1, n⟩ := by
  rw [multiSubstitutionsLoop, bind_run (onText_nextChar h), if_neg (letter_cases (.inr hc)).1,
    if_neg (by simp [hlower]), if_pos hc]

theorem multiSubstitutionsLoop_count {count fuel : Nat} {c : BitVec 8} (hpos : 0 < count)
    (hmax : count ≤ maxRepeatCount) (hc : isLowerLetter c = true ∨ isUpperLetter c = true)
    (h : text.drop pos = countText count ++ c :: y) (hfuel : text.length - pos < fuel) :
    ∃ fuel' repeatCount, text.length - (pos + (countText count).length) < fuel' ∧
      IsRepeat repeatCount count ∧
      multiSubstitutionsLoop fuel none ⟨text, pos, n⟩ =
        multiSubstitutionsLoop fuel' repeatCount ⟨text, pos + (countText count).length, n⟩ := by
  by_cases hone : count = 1
  · subst hone
    exact ⟨fuel, none, hfuel, ⟨Nat.zero_le _, rfl⟩, rfl⟩
  · have h2 : 2 ≤ count := by omega
    rw [countText_of_two_le h2] at h ⊢
    obtain ⟨fuel, rfl⟩ := Nat.exists_eq_add_one.2 (Nat.zero_lt_of_lt hfuel)
    obtain ⟨d, r, hcons, hd, -⟩ := decimal_cons hpos
    obtain ⟨hzero, hlower, hupper, hunderscore⟩ := digit_cases hd
    have hnext : text.drop pos = d :: (r ++ c :: y) := by rw [h, hcons, List.cons_append]
    have hlen : 0 < (decimal count).length := by rw [hcons]; exact Nat.zero_lt_succ _
    have hend := length_of_drop_eq h (by simp)
    rw [List.length_append, List.length_cons] at hend
    refine ⟨fuel, some count, by omega, ⟨hmax, rfl⟩, ?_⟩
    rw [multiSubstitutionsLoop, bind_run (onText_nextChar hnext), if_neg hzero, if_neg (by simp [hlower]),
      if_neg (by simp [hupper]), if_neg hunderscore, bind_run pushBack_run,
      bind_run (onText_demangleNatural h2 hmax (letter_cases hc).2 h)]

end Operations

/-! ## Merged lists -/

/-- The loop reads `body`, the lower-case part of a list, with the effect `g`. -/
def Lists (body : StringRef) (g : Effect) : Prop :=
  ∀ (text rest : StringRef) (pos fuel : Nat) (n : Nodes), text.drop pos = body ++ rest →
    rest ≠ [] → text.length - pos < fuel →
    match g n with
    | .ok n' => ∃ fuel', text.length - (pos + body.length) < fuel' ∧
        multiSubstitutionsLoop fuel none ⟨text, pos, n⟩ =
          multiSubstitutionsLoop fuel' none ⟨text, pos + body.length, n'⟩
    | .error n' => ∃ e d, multiSubstitutionsLoop fuel none ⟨text, pos, n⟩ = (.error e, d) ∧
        d.nodes = n'

theorem lists_nil : Lists [] .ok := fun _ _ _ fuel _ _ _ hfuel => ⟨fuel, hfuel, rfl⟩

theorem lower_letter {i : Nat} (hi : i < 26) :
    isLowerLetter (char (0x61 + i)) = true ∧ (char (0x61 + i)).toNat - 0x61 = i := by
  have hnat : (char (0x61 + i)).toNat = 0x61 + i := toNat_char (by omega)
  unfold isLowerLetter
  rw [hnat]
  exact ⟨by simp; omega, by omega⟩

theorem upper_letter {i : Nat} (hi : i < 26) :
    isLowerLetter (char (0x41 + i)) = false ∧ isUpperLetter (char (0x41 + i)) = true ∧
      (char (0x41 + i)).toNat - 0x41 = i := by
  have hnat : (char (0x41 + i)).toNat = 0x41 + i := toNat_char (by omega)
  unfold isLowerLetter isUpperLetter
  rw [hnat]
  exact ⟨by simp; omega, by simp; omega, by omega⟩

theorem Lists.letter {body : StringRef} {g : Effect} (hbody : Lists body g) {count i : Nat}
    (hpos : 0 < count) (hmax : count ≤ maxRepeatCount) (hi : i < 26) :
    Lists (body ++ countText count ++ [char (0x61 + i)]) (g.seq (pushIndex count i)) := by
  intro text rest pos fuel n h hrest hfuel
  obtain ⟨hlower, hidx⟩ := lower_letter hi
  simp only [List.append_assoc, List.cons_append, List.nil_append] at h
  have hfirst := hbody text _ pos fuel n h (by simp) hfuel
  cases hg : g n with
  | error n' =>
    have hseq : g.seq (pushIndex count i) n = .error n' := by
      rw [Effect.seq, hg]
      rfl
    rw [hseq]
    rw [hg] at hfirst
    exact hfirst
  | ok n' =>
    have hseq : g.seq (pushIndex count i) n = pushIndex count i n' := by
      rw [Effect.seq, hg]
      rfl
    rw [hg] at hfirst
    obtain ⟨fuel₁, hfuel₁, hrun₁⟩ := hfirst
    obtain ⟨fuel₂, repeatCount, hfuel₂, hrepeat, hrun₂⟩ := multiSubstitutionsLoop_count
      (n := n') hpos hmax (.inl hlower) (drop_add h) hfuel₁
    obtain ⟨fuel₂, rfl⟩ := Nat.exists_eq_add_one.2 (Nat.zero_lt_of_lt hfuel₂)
    have hat := drop_add (drop_add h)
    have hend := length_of_drop_eq hat (by simp)
    rw [List.length_cons] at hend
    have hlen : pos + (body ++ countText count ++ [char (0x61 + i)]).length =
        pos + body.length + (countText count).length + 1 := by
      rw [List.length_append, List.length_append, List.length_singleton]
      omega
    have hletter := hrun₁.trans (hrun₂.trans (multiSubstitutionsLoop_lower hlower fuel₂ repeatCount hat))
    rw [hidx] at hletter
    rw [hseq, hletter, hlen]
    unfold pushIndex
    cases hnd : n'.substitutions[i]? with
    | none =>
      refine ⟨.nullptr, ⟨text, pos + body.length + (countText count).length + 1, n'⟩, ?_, rfl⟩
      change Prog.bind _ _ _ = _
      rw [Prog.bind, pushMultiSubstitutions_none hnd]
    | some nd =>
      refine ⟨fuel₂, by omega, ?_⟩
      have hnode : ∀ m : Nodes, pushNode nd ⟨text, pos + body.length + (countText count).length + 1, m⟩ =
          (.ok (), NodeDemangler.push
            ⟨text, pos + body.length + (countText count).length + 1, m⟩ nd) := fun _ => rfl
      rw [bind_run (pushMultiSubstitutions_some hrepeat hnd), bind_run (hnode _), push_replicate nd hpos]

variable {demangleOther : BitVec 8 → Prog NodeDemangler Failure Node}

theorem drop_before (before t rest : StringRef) : (before ++ t ++ rest).drop before.length = t ++ rest := by
  rw [List.append_assoc, List.drop_left]

theorem reads_of_operator {t : StringRef} {f : Effect} (ht : t ≠ [])
    (h : ∀ (before rest : StringRef) (n : Nodes),
      match f n with
      | .ok n' => ∃ nd d, demangleOperator demangleOther ⟨before ++ t ++ rest, before.length, n⟩ =
          (.ok nd, d) ∧ d.push nd = ⟨before ++ t ++ rest, before.length + t.length, n'⟩
      | .error n' => ∃ e d, demangleOperator demangleOther ⟨before ++ t ++ rest, before.length, n⟩ =
          (.error e, d) ∧ d.nodes = n') :
    ReadsText demangleOther t f := by
  intro before rest n
  have hop := h before rest n
  have hlt : before.length < (before ++ t ++ rest).length := by
    have hpos := List.length_pos_of_ne_nil ht
    rw [List.length_append, List.length_append]
    omega
  cases hf : f n with
  | ok n' =>
    rw [hf] at hop
    obtain ⟨nd, d, hrun, hpush⟩ := hop
    exact .single ⟨hlt, nd, d, hrun, hpush.symm⟩
  | error n' =>
    rw [hf] at hop
    obtain ⟨e, d, hrun, hnodes⟩ := hop
    exact ⟨_, d, .refl, ⟨hlt, e, hrun⟩, hnodes⟩

/-- An `A` list: its lower-case part, and the upper-case letter at its end. -/
theorem reads_list {body : StringRef} {g : Effect} (hbody : Lists body g) {count i : Nat}
    (hpos : 0 < count) (hmax : count ≤ maxRepeatCount) (hi : i < 26) :
    ReadsText demangleOther (0x41 :: (body ++ countText count ++ [char (0x41 + i)]))
      (g.seq (pushIndex count i)) := by
  refine reads_of_operator (by simp) fun before rest n => ?_
  obtain ⟨hlower, hupper, hidx⟩ := upper_letter hi
  generalize htext : before ++ 0x41 :: (body ++ countText count ++ [char (0x41 + i)]) ++ rest = text
  have hstart : text.drop before.length =
      0x41 :: (body ++ (countText count ++ char (0x41 + i) :: rest)) := by
    rw [← htext, drop_before]
    simp only [List.cons_append, List.append_assoc, List.nil_append]
  have hlist : text.drop (before.length + 1) = body ++ (countText count ++ char (0x41 + i) :: rest) :=
    drop_add (x := [_]) hstart
  have hop : demangleOperator demangleOther ⟨text, before.length, n⟩ =
      multiSubstitutionsLoop (text.length + 1) none ⟨text, before.length + 1, n⟩ := by
    rw [demangleOperator, bind_run (onText_nextChar hstart), if_pos rfl, demangleMultiSubstitutions,
      bind_run (get_run _)]
  have hfirst := hbody text _ _ (text.length + 1) n hlist (by simp) (by omega)
  rw [hop]
  cases hg : g n with
  | error n' =>
    have hseq : g.seq (pushIndex count i) n = .error n' := by
      rw [Effect.seq, hg]
      rfl
    rw [hseq]
    rw [hg] at hfirst
    exact hfirst
  | ok n' =>
    have hseq : g.seq (pushIndex count i) n = pushIndex count i n' := by
      rw [Effect.seq, hg]
      rfl
    rw [hg] at hfirst
    obtain ⟨fuel₁, hfuel₁, hrun₁⟩ := hfirst
    obtain ⟨fuel₂, repeatCount, hfuel₂, hrepeat, hrun₂⟩ := multiSubstitutionsLoop_count
      (n := n') hpos hmax (.inr hupper) (drop_add hlist) hfuel₁
    obtain ⟨fuel₂, rfl⟩ := Nat.exists_eq_add_one.2 (Nat.zero_lt_of_lt hfuel₂)
    have hat := drop_add (drop_add hlist)
    have hlen : before.length + (0x41 :: (body ++ countText count ++ [char (0x41 + i)])).length =
        before.length + 1 + body.length + (countText count).length + 1 := by
      rw [List.length_cons, List.length_append, List.length_append, List.length_singleton]
      omega
    have hletter := hrun₁.trans
      (hrun₂.trans (multiSubstitutionsLoop_upper hupper hlower fuel₂ repeatCount hat))
    rw [hidx] at hletter
    rw [hseq, hletter, hlen]
    unfold pushIndex
    cases hnd : n'.substitutions[i]? with
    | none => exact ⟨.nullptr, _, pushMultiSubstitutions_none hnd, rfl⟩
    | some nd => exact ⟨nd, _, pushMultiSubstitutions_some hrepeat hnd, push_replicate nd hpos⟩

theorem standard_cases {code : BitVec 8} (h : (createStandardSubstitution code).isSome = true) :
    code ≠ 0x6F ∧ code ≠ 0x43 ∧ code ≠ 0x67 ∧
      (isLowerLetter code = true ∨ isUpperLetter code = true) := by
  unfold createStandardSubstitution at h
  rw [Option.isSome_map, List.find?_isSome] at h
  obtain ⟨t, ht, hcode⟩ := h
  have hall : ∀ t ∈ standardTypes, t.1 ≠ 0x6F ∧ t.1 ≠ 0x43 ∧ t.1 ≠ 0x67 ∧
      (isLowerLetter t.1 = true ∨ isUpperLetter t.1 = true) := by decide
  rw [← of_decide_eq_true hcode]
  exact hall t ht

theorem reads_standard {code : BitVec 8} (hcode : (createStandardSubstitution code).isSome = true)
    {count : Nat} (hpos : 0 < count) (hmax : count ≤ maxRepeatCount) :
    ReadsText demangleOther (0x53 :: (countText count ++ [code])) (pushStandard count code) := by
  refine reads_of_operator (by simp) fun before rest n => ?_
  obtain ⟨hmodule, hclang, hoptional, hletter⟩ := standard_cases hcode
  obtain ⟨nd, hnd⟩ := Option.isSome_iff_exists.1 hcode
  generalize htext : before ++ 0x53 :: (countText count ++ [code]) ++ rest = text
  have hstart : text.drop before.length = 0x53 :: (countText count ++ code :: rest) := by
    rw [← htext, drop_before]
    simp only [List.cons_append, List.append_assoc, List.nil_append]
  have hcount : text.drop (before.length + 1) = countText count ++ code :: rest :=
    drop_add (x := [_]) hstart
  have hat := drop_add hcount
  obtain ⟨c, y, hcons, hc⟩ : ∃ c y, countText count ++ code :: rest = c :: y ∧
      (c ≠ 0x6F ∧ c ≠ 0x43 ∧ c ≠ 0x67) := by
    by_cases hone : count = 1
    · exact ⟨code, rest, by rw [countText, if_pos hone]; rfl, hmodule, hclang, hoptional⟩
    · obtain ⟨d, r, hdec, hd, -⟩ := decimal_cons hpos
      have hall : ∀ d : BitVec 8, isDigit d = true → d ≠ 0x6F ∧ d ≠ 0x43 ∧ d ≠ 0x67 := by decide
      exact ⟨d, r ++ code :: rest, by rw [countText, if_neg hone, hdec]; rfl, hall d hd⟩
  obtain ⟨repeatCount, hrepeat, hnatural⟩ := onText_repeatCount (n := n) hpos hmax hletter hcount
  have hlen : before.length + (0x53 :: (countText count ++ [code])).length =
      before.length + 1 + (countText count).length + 1 := by
    rw [List.length_cons, List.length_append, List.length_singleton]
    omega
  have heffect : pushStandard count code n = .ok (n.push (List.replicate count nd)) := by
    rw [pushStandard]
    simp only [hnd]
  rw [heffect]
  refine ⟨nd, _, ?_, (push_replicate nd hpos).trans (by rw [hlen])⟩
  rw [demangleOperator, bind_run (onText_nextChar hstart), if_neg (by decide), if_pos rfl,
    demangleStandardSubstitution, bind_run (onText_nextChar (hcount.trans hcons)), if_neg hc.1,
    if_neg hc.2.1, if_neg hc.2.2, bind_run pushBack_run, bind_run hnatural,
    if_neg (Nat.not_lt.2 hrepeat.1), bind_run (onText_nextChar hat)]
  simp only [hnd]
  rw [hrepeat.2, bind_run (pushRepeated_run nd _)]
  rfl

theorem reads_index {i : Nat} (hi : i < 26) :
    ReadsText demangleOther [0x41, char (0x41 + i)] (pushIndex 1 i) :=
  reads_list lists_nil Nat.one_pos (by decide) hi

/-! ## What the mangler remembers -/

variable (demangleOther) in
/-- The buffer ends in an `A` substitution, at the remembered position. -/
structure EndsInIndex (m : SubstMangler) (f : Effect) (before body : StringRef) (f₀ g : Effect)
    (i : Nat) : Prop where
  lt : i < 26
  buffer_eq : m.buffer =
    before ++ 0x41 :: (body ++ countText m.merging.lastNumSubsts ++ [char (0x41 + i)])
  position : m.merging.lastSubstPosition = before.length + 1 + body.length
  reads : ReadsText demangleOther before f₀
  lists : Lists body g
  effect : f = f₀.seq (g.seq (pushIndex m.merging.lastNumSubsts i))

variable (demangleOther) in
/-- The buffer ends in an `S` substitution, at the remembered position. -/
structure EndsInStandard (m : SubstMangler) (f : Effect) (before : StringRef) (f₀ : Effect)
    (code : BitVec 8) : Prop where
  isSome : (createStandardSubstitution code).isSome = true
  buffer_eq : m.buffer = before ++ 0x53 :: (countText m.merging.lastNumSubsts ++ [code])
  position : m.merging.lastSubstPosition = before.length + 1
  reads : ReadsText demangleOther before f₀
  effect : f = f₀.seq (pushStandard m.merging.lastNumSubsts code)

variable (demangleOther) in
/-- The buffer is read with the effect `f`, and if nothing was appended since the last substitution,
it ends in that substitution. -/
structure Remembers (m : SubstMangler) (f : Effect) : Prop where
  reads : ReadsText demangleOther m.buffer f
  le_max : m.merging.lastNumSubsts ≤ maxRepeatCount
  le_length : 0 < m.merging.lastNumSubsts →
    m.merging.lastSubstPosition + m.merging.lastSubstSize ≤ m.buffer.length
  ends_index : 0 < m.merging.lastNumSubsts →
    m.buffer.length = m.merging.lastSubstPosition + m.merging.lastSubstSize →
    m.merging.lastSubstIsStandardSubst = false →
      ∃ before body f₀ g i, EndsInIndex demangleOther m f before body f₀ g i
  ends_standard : 0 < m.merging.lastNumSubsts →
    m.buffer.length = m.merging.lastSubstPosition + m.merging.lastSubstSize →
    m.merging.lastSubstIsStandardSubst = true →
      ∃ before f₀ code, EndsInStandard demangleOther m f before f₀ code

theorem remembers_init : Remembers demangleOther ⟨SubstitutionMerging.init, []⟩ .ok where
  reads := reads_nil
  le_max := Nat.zero_le _
  le_length h := absurd h (by decide)
  ends_index h := absurd h (by decide)
  ends_standard h := absurd h (by decide)

theorem Effect.seq_ok (f : Effect) : f.seq .ok = f := by
  funext n
  unfold Effect.seq
  cases f n <;> rfl

theorem ReadsText.eq_ok {g : Effect} (h : ReadsText demangleOther [] g) : g = .ok := by
  funext n
  have hread := h [] [] n
  have hstuck : ∀ d, Steps demangleOther ⟨[], 0, n⟩ d → d = ⟨[], 0, n⟩ := by
    intro d hsteps
    rcases hsteps.cases_head with heq | ⟨d', hstep, -⟩
    · exact heq.symm
    · exact absurd hstep.1 (by simp)
  cases hg : g n with
  | ok n' =>
    rw [hg] at hread
    exact congrArg (fun d => Except.ok d.nodes) (hstuck _ hread)
  | error n' =>
    rw [hg] at hread
    obtain ⟨d, d', hsteps, hstops, -⟩ := hread
    rw [hstuck d hsteps] at hstops
    exact absurd hstops.1 (by simp)

theorem Remembers.text {m : SubstMangler} {f g : Effect} {t : StringRef}
    (h : Remembers demangleOther m f) (ht : ReadsText demangleOther t g) :
    Remembers demangleOther { m with buffer := m.buffer ++ t } (f.seq g) := by
  by_cases hnil : t = []
  · subst hnil
    rw [ht.eq_ok, Effect.seq_ok, List.append_nil]
    exact h
  · have hlt : 0 < m.merging.lastNumSubsts → (m.buffer ++ t).length ≠
        m.merging.lastSubstPosition + m.merging.lastSubstSize := by
      intro hpos
      have hle := h.le_length hpos
      have hlen := List.length_pos_of_ne_nil hnil
      rw [List.length_append]
      omega
    exact {
      reads := h.reads.append ht
      le_max := h.le_max
      le_length := fun hpos => (h.le_length hpos).trans (by rw [List.length_append]; omega)
      ends_index := fun hpos hend => absurd hend (hlt hpos)
      ends_standard := fun hpos hend => absurd hend (hlt hpos) }

theorem Remembers.fresh_index {m : SubstMangler} {f : Effect} (h : Remembers demangleOther m f)
    {i : Nat} (hi : i < 26) :
    Remembers demangleOther ⟨SubstitutionMerging.remember m.buffer false,
      m.buffer ++ [0x41, char (0x41 + i)]⟩ (f.seq (pushIndex 1 i)) where
  reads := h.reads.append (reads_index hi)
  le_max := Nat.one_le_iff_ne_zero.2 (by decide)
  le_length _ := by
    rw [List.length_append]
    exact Nat.le_refl _
  ends_index _ _ _ := ⟨m.buffer, [], f, .ok, i, hi, rfl, rfl, h.reads, lists_nil, rfl⟩
  ends_standard _ _ hstandard := Bool.noConfusion hstandard

theorem Remembers.fresh_standard {m : SubstMangler} {f : Effect} (h : Remembers demangleOther m f)
    {code : BitVec 8} (hcode : (createStandardSubstitution code).isSome = true) :
    Remembers demangleOther ⟨SubstitutionMerging.remember m.buffer true,
      m.buffer ++ [0x53, code]⟩ (f.seq (pushStandard 1 code)) where
  reads := h.reads.append (reads_standard hcode Nat.one_pos (by decide))
  le_max := Nat.one_le_iff_ne_zero.2 (by decide)
  le_length _ := by
    rw [List.length_append]
    exact Nat.le_refl _
  ends_index _ _ hindex := Bool.noConfusion hindex
  ends_standard _ _ _ := ⟨m.buffer, f, code, hcode, rfl, rfl, h.reads, rfl⟩

theorem EndsInIndex.again {m : SubstMangler} {f f₀ g : Effect} {before body : StringRef} {i : Nat}
    (h : EndsInIndex demangleOther m f before body f₀ g i)
    (hmax : m.merging.lastNumSubsts < maxRepeatCount) {size : Nat}
    (hsize : size = (countText (m.merging.lastNumSubsts + 1)).length + 1) :
    Remembers demangleOther ⟨⟨m.merging.lastSubstPosition, size, m.merging.lastNumSubsts + 1, false⟩,
      before ++ 0x41 :: (body ++ countText (m.merging.lastNumSubsts + 1) ++ [char (0x41 + i)])⟩
      (f.seq (pushIndex 1 i)) := by
  have heffect : f.seq (pushIndex 1 i) =
      f₀.seq (g.seq (pushIndex (m.merging.lastNumSubsts + 1) i)) := by
    rw [h.effect, Effect.seq_assoc, Effect.seq_assoc, pushIndex_succ m.merging.lastNumSubsts i]
  refine ⟨?_, hmax, fun _ => ?_, fun _ _ _ => ?_, fun _ _ hstandard => Bool.noConfusion hstandard⟩
  · rw [heffect]
    exact h.reads.append (reads_list h.lists (Nat.succ_pos _) hmax h.lt)
  · have hposition := h.position
    simp only [List.length_append, List.length_cons, List.length_nil]
    omega
  · exact ⟨before, body, f₀, g, i, h.lt, rfl, h.position, h.reads, h.lists, heffect⟩

theorem EndsInIndex.next {m : SubstMangler} {f f₀ g : Effect} {before body : StringRef} {i : Nat}
    (h : EndsInIndex demangleOther m f before body f₀ g i) (hpos : 0 < m.merging.lastNumSubsts)
    (hmax : m.merging.lastNumSubsts < maxRepeatCount) {j : Nat} (hj : j < 26) :
    Remembers demangleOther ⟨⟨m.buffer.length, 1, 1, false⟩,
      before ++ 0x41 :: (body ++ countText m.merging.lastNumSubsts ++ [char (0x61 + i)] ++
        [char (0x41 + j)])⟩ (f.seq (pushIndex 1 j)) := by
  have hlists := h.lists.letter hpos hmax.le h.lt
  have heffect : f.seq (pushIndex 1 j) =
      f₀.seq ((g.seq (pushIndex m.merging.lastNumSubsts i)).seq (pushIndex 1 j)) := by
    rw [h.effect, Effect.seq_assoc]
  have hone : ∀ x : StringRef, x ++ countText 1 = x := fun x => List.append_nil x
  have hlen : m.buffer.length = before.length + 1 +
      (body ++ countText m.merging.lastNumSubsts ++ [char (0x61 + i)]).length := by
    rw [h.buffer_eq]
    simp only [List.length_append, List.length_cons, List.length_nil]
    omega
  refine ⟨?_, by change 1 ≤ 2048; decide, fun _ => ?_, fun _ _ _ => ?_,
    fun _ _ hstandard => Bool.noConfusion hstandard⟩
  · have hread := @reads_list demangleOther _ _ hlists _ _ Nat.one_pos (by decide) hj
    rw [hone] at hread
    rw [heffect]
    exact h.reads.append hread
  · rw [hlen]
    simp only [List.length_append, List.length_cons, List.length_nil]
    omega
  · refine ⟨before, _, f₀, _, j, hj, ?_, hlen, h.reads, hlists, heffect⟩
    change _ = before ++ 0x41 :: (_ ++ countText 1 ++ _)
    rw [hone]

theorem EndsInStandard.again {m : SubstMangler} {f f₀ : Effect} {before : StringRef} {code : BitVec 8}
    (h : EndsInStandard demangleOther m f before f₀ code)
    (hmax : m.merging.lastNumSubsts < maxRepeatCount) {size : Nat}
    (hsize : size = (countText (m.merging.lastNumSubsts + 1)).length + 1) :
    Remembers demangleOther ⟨⟨m.merging.lastSubstPosition, size, m.merging.lastNumSubsts + 1, true⟩,
      before ++ 0x53 :: (countText (m.merging.lastNumSubsts + 1) ++ [code])⟩
      (f.seq (pushStandard 1 code)) := by
  have heffect : f.seq (pushStandard 1 code) =
      f₀.seq (pushStandard (m.merging.lastNumSubsts + 1) code) := by
    rw [h.effect, Effect.seq_assoc, pushStandard_succ m.merging.lastNumSubsts code]
  refine ⟨?_, hmax, fun _ => ?_, fun _ _ hindex => Bool.noConfusion hindex, fun _ _ _ => ?_⟩
  · rw [heffect]
    exact h.reads.append (reads_standard h.isSome (Nat.succ_pos _) hmax)
  · have hposition := h.position
    simp only [List.length_append, List.length_cons, List.length_nil]
    omega
  · exact ⟨before, f₀, code, h.isSome, rfl, h.position, h.reads, heffect⟩

/-! ## One substitution more -/

/-- Nothing was appended since the last substitution, and it has the same kind. -/
abbrev CanMerge (m : SubstMangler) (isStandardSubst : Bool) : Prop :=
  0 < m.merging.lastNumSubsts ∧ m.merging.lastNumSubsts < maxRepeatCount ∧
    m.buffer.length = m.merging.lastSubstPosition + m.merging.lastSubstSize ∧
    m.merging.lastSubstIsStandardSubst = isStandardSubst

section Mangle

variable {m : SubstMangler} {isStandardSubst : Bool} {subst c : BitVec 8} {x y : StringRef}

theorem mangleSubst_again (hmerge : CanMerge m isStandardSubst) (hbuffer : m.buffer = x ++ y ++ [subst])
    (hx : m.merging.lastSubstPosition = x.length) :
    mangleSubst m subst isStandardSubst =
      ⟨⟨m.merging.lastSubstPosition, (decimal (m.merging.lastNumSubsts + 1)).length + 1,
        m.merging.lastNumSubsts + 1, isStandardSubst⟩,
        x ++ decimal (m.merging.lastNumSubsts + 1) ++ [subst]⟩ := by
  have hlast : m.buffer.getLastD 0 = subst := by rw [hbuffer, List.getLastD_concat]
  have htake : m.buffer.take m.merging.lastSubstPosition = x := by
    rw [hbuffer, hx, List.append_assoc, List.take_left]
  have hsize : (x ++ decimal (m.merging.lastNumSubsts + 1) ++ [subst]).length -
      m.merging.lastSubstPosition = (decimal (m.merging.lastNumSubsts + 1)).length + 1 := by
    rw [hx, List.length_append, List.length_append, List.length_singleton]
    omega
  unfold mangleSubst SubstitutionMerging.tryMergeSubst
  rw [if_pos hmerge]
  simp only [hlast, htake, hsize, ne_eq, not_true_eq_false, false_and, if_false, if_true]
  rw [hmerge.2.2.2]

theorem mangleSubst_next (hmerge : CanMerge m false) (hbuffer : m.buffer = x ++ [c]) (hne : c ≠ subst) :
    mangleSubst m subst false =
      ⟨⟨m.buffer.length, 1, 1, false⟩, x ++ [char (c.toNat - 0x41 + 0x61), subst]⟩ := by
  have hlast : m.buffer.getLastD 0 = c := by rw [hbuffer, List.getLastD_concat]
  have hdrop : m.buffer.dropLast = x := by rw [hbuffer, List.dropLast_concat]
  unfold mangleSubst SubstitutionMerging.tryMergeSubst
  rw [if_pos hmerge]
  simp only [hlast, hdrop, ne_eq, hne, not_false_eq_true, true_and, if_true]
  rw [hmerge.2.2.2]

theorem mangleSubst_fresh (h : ¬ CanMerge m isStandardSubst ∨
    isStandardSubst = true ∧ m.buffer.getLastD 0 ≠ subst) :
    mangleSubst m subst isStandardSubst =
      ⟨SubstitutionMerging.remember m.buffer isStandardSubst,
        m.buffer ++ [substOperator isStandardSubst, subst]⟩ := by
  unfold mangleSubst SubstitutionMerging.tryMergeSubst
  by_cases hmerge : CanMerge m isStandardSubst
  · obtain ⟨hstandard, hne⟩ := h.resolve_left (not_not.2 hmerge)
    rw [if_pos hmerge]
    simp only [hstandard, hne, Bool.true_eq_false, and_false, if_false]
  · rw [if_neg hmerge]

end Mangle

theorem letter_ne {i j : Nat} (hi : i < 26) (hj : j < 26) (h : i ≠ j) :
    char (0x41 + i) ≠ char (0x41 + j) := by
  intro heq
  have hnat := congrArg BitVec.toNat heq
  rw [toNat_char (by omega), toNat_char (by omega)] at hnat
  omega

theorem Remembers.index {m : SubstMangler} {f : Effect} (h : Remembers demangleOther m f) {i : Nat}
    (hi : i < 26) :
    Remembers demangleOther (mangleSubst m (char (0x41 + i)) false) (f.seq (pushIndex 1 i)) := by
  by_cases hmerge : CanMerge m false
  · obtain ⟨hpos, hmax, hend, hindex⟩ := hmerge
    obtain ⟨before, body, f₀, g, j, hends⟩ := h.ends_index hpos hend hindex
    have hcount := countText_of_two_le (Nat.succ_le_succ hpos)
    by_cases hsame : j = i
    · subst hsame
      have hbuffer : m.buffer = (before ++ 0x41 :: body) ++ countText m.merging.lastNumSubsts ++
          [char (0x41 + j)] := by
        rw [hends.buffer_eq]
        simp only [List.append_assoc, List.cons_append]
      have hposition : m.merging.lastSubstPosition = (before ++ 0x41 :: body).length := by
        rw [hends.position, List.length_append, List.length_cons]
        omega
      rw [mangleSubst_again ⟨hpos, hmax, hend, hindex⟩ hbuffer hposition, ← hcount]
      have hagain := hends.again hmax rfl
      simpa only [List.append_assoc, List.cons_append] using hagain
    · have hbuffer : m.buffer = (before ++ 0x41 :: (body ++ countText m.merging.lastNumSubsts)) ++
          [char (0x41 + j)] := by
        rw [hends.buffer_eq]
        simp only [List.append_assoc, List.cons_append]
      have hlower : char ((char (0x41 + j)).toNat - 0x41 + 0x61) = char (0x61 + j) := by
        rw [(upper_letter hends.lt).2.2, Nat.add_comm]
      rw [mangleSubst_next ⟨hpos, hmax, hend, hindex⟩ hbuffer (letter_ne hends.lt hi hsame), hlower]
      have hnext := hends.next hpos hmax hi
      simpa only [List.append_assoc, List.cons_append, List.nil_append] using hnext
  · rw [mangleSubst_fresh (.inl hmerge)]
    exact h.fresh_index hi

theorem Remembers.standard {m : SubstMangler} {f : Effect} (h : Remembers demangleOther m f)
    {code : BitVec 8} (hcode : (createStandardSubstitution code).isSome = true) :
    Remembers demangleOther (mangleSubst m code true) (f.seq (pushStandard 1 code)) := by
  by_cases hmerge : CanMerge m true
  · obtain ⟨hpos, hmax, hend, hstandard⟩ := hmerge
    obtain ⟨before, f₀, last, hends⟩ := h.ends_standard hpos hend hstandard
    have hcount := countText_of_two_le (Nat.succ_le_succ hpos)
    have hbuffer : m.buffer = (before ++ [0x53]) ++ countText m.merging.lastNumSubsts ++ [last] := by
      rw [hends.buffer_eq]
      simp only [List.append_assoc, List.cons_append, List.nil_append]
    by_cases hsame : last = code
    · subst hsame
      have hposition : m.merging.lastSubstPosition = (before ++ [0x53]).length := by
        rw [hends.position, List.length_append, List.length_singleton]
      rw [mangleSubst_again ⟨hpos, hmax, hend, hstandard⟩ hbuffer hposition, ← hcount]
      have hagain := hends.again hmax rfl
      simpa only [List.append_assoc, List.cons_append, List.nil_append] using hagain
    · have hlast : m.buffer.getLastD 0 ≠ code := by
        rw [hbuffer, List.getLastD_concat]
        exact hsame
      rw [mangleSubst_fresh (.inr ⟨rfl, hlast⟩)]
      exact h.fresh_standard hcode
  · rw [mangleSubst_fresh (.inl hmerge)]
    exact h.fresh_standard hcode

/-! ## Whole sequences -/

theorem Remembers.mangle {m : SubstMangler} {f : Effect} (h : Remembers demangleOther m f)
    (item : Appended) (hitem : ∀ t, item = .text t → Complete demangleOther t) :
    ∃ g, ReadsText demangleOther item.unmerged g ∧ Remembers demangleOther (item.mangle m) (f.seq g) := by
  cases item with
  | index idx => exact ⟨_, reads_index idx.2, h.index idx.2⟩
  | standard code hcode =>
    exact ⟨_, reads_standard hcode Nat.one_pos (by decide), h.standard hcode⟩
  | text t =>
    obtain ⟨g, hread⟩ := hitem t rfl
    exact ⟨g, hread, h.text hread⟩

theorem reads_merged (items : List Appended)
    (htexts : ∀ t, Appended.text t ∈ items → Complete demangleOther t) :
    ∃ f, ReadsText demangleOther (mergedText items) f ∧ ReadsText demangleOther (unmergedText items) f := by
  have hfold : ∀ (items : List Appended) (m : SubstMangler) (f : Effect),
      (∀ t, Appended.text t ∈ items → Complete demangleOther t) → Remembers demangleOther m f →
        ∃ g, ReadsText demangleOther (items.flatMap Appended.unmerged) g ∧
          Remembers demangleOther (items.foldl Appended.mangle m) (f.seq g) := by
    intro items
    induction items with
    | nil => exact fun m f _ h => ⟨.ok, reads_nil, by rw [Effect.seq_ok]; exact h⟩
    | cons item items ih =>
      intro m f htexts h
      obtain ⟨g, hread, hmangle⟩ := h.mangle item fun t ht => htexts t (ht ▸ List.mem_cons_self)
      obtain ⟨g', hreads, hmangles⟩ := ih _ _ (fun t ht => htexts t (List.mem_cons_of_mem _ ht)) hmangle
      refine ⟨g.seq g', hread.append hreads, ?_⟩
      rw [Effect.seq_assoc] at hmangles
      exact hmangles
  obtain ⟨g, hread, hmangle⟩ := hfold items _ .ok htexts remembers_init
  exact ⟨g, hmangle.reads, hread⟩

/-! ## The demangler on both texts -/

theorem parsesAndPushes_unique {d d₁ d₂ : NodeDemangler} {r₁ r₂ : Bool}
    (h₁ : ParsesAndPushes demangleOther d r₁ d₁) (h₂ : ParsesAndPushes demangleOther d r₂ d₂) :
    r₁ = r₂ ∧ d₁ = d₂ := by
  induction h₁ generalizing r₂ d₂ with
  | finish d hend =>
    cases h₂ with
    | finish _ _ => exact ⟨rfl, rfl⟩
    | stop _ _ hstop => exact absurd hstop.1 (Nat.not_lt.2 hend)
    | step _ _ _ _ hstep _ => exact absurd hstep.1 (Nat.not_lt.2 hend)
  | stop d d' hstop =>
    obtain ⟨hlt, e, hrun⟩ := hstop
    cases h₂ with
    | finish _ hend => exact absurd hlt (Nat.not_lt.2 hend)
    | stop _ _ hstop' =>
      obtain ⟨-, e', hrun'⟩ := hstop'
      rw [hrun] at hrun'
      exact ⟨rfl, (Prod.mk.inj hrun').2⟩
    | step _ _ _ _ hstep _ =>
      obtain ⟨-, nd, d₁, hrun', -⟩ := hstep
      rw [hrun] at hrun'
      exact absurd (Prod.mk.inj hrun').1 (by simp)
  | step d d' d'' r hstep _ ih =>
    obtain ⟨hlt, nd, e, hrun, rfl⟩ := hstep
    cases h₂ with
    | finish _ hend => exact absurd hlt (Nat.not_lt.2 hend)
    | stop _ _ hstop' =>
      obtain ⟨-, e', hrun'⟩ := hstop'
      rw [hrun] at hrun'
      exact absurd (Prod.mk.inj hrun').1 (by simp)
    | step _ d₁ _ _ hstep' hparses =>
      obtain ⟨-, nd', e', hrun', heq⟩ := hstep'
      rw [hrun] at hrun'
      obtain ⟨hnd, he⟩ := Prod.mk.inj hrun'
      obtain rfl := Except.ok.inj hnd
      rw [heq, ← he] at hparses
      exact ih hparses

variable (demangleOther) in
/-- From the nodes `n`, the demangler reads the whole text with the result `r` and the nodes `n'`. -/
def Demangles (text : StringRef) (n : Nodes) (r : Bool) (n' : Nodes) : Prop :=
  ∃ d, ParsesAndPushes demangleOther ⟨text, 0, n⟩ r d ∧ d.nodes = n'

theorem ReadsText.demangles_iff {t : StringRef} {f : Effect} (h : ReadsText demangleOther t f) (n : Nodes)
    (r : Bool) (n' : Nodes) :
    Demangles demangleOther t n r n' ↔ f n = if r then .ok n' else .error n' := by
  obtain ⟨r₀, d₀, hparses, heffect⟩ := h.parses n
  constructor
  · rintro ⟨d, hd, rfl⟩
    obtain ⟨rfl, rfl⟩ := parsesAndPushes_unique hparses hd
    exact heffect
  · intro hf
    rw [heffect] at hf
    cases r₀ <;> cases r <;> simp only [Bool.false_eq_true, if_false, if_true, Except.error.injEq,
      Except.ok.injEq, reduceCtorEq] at hf
    · exact ⟨d₀, hparses, hf⟩
    · exact ⟨d₀, hparses, hf⟩

variable (demangleOther) in
/-- For every sequence of one-letter substitutions and other text that the demangler reads as
complete operators, the merged and the unmerged text make the demangler end, with the same nodes. -/
theorem demangles_mergedText (items : List Appended)
    (htexts : ∀ t, Appended.text t ∈ items → Complete demangleOther t) (n : Nodes) :
    (∃ r n', Demangles demangleOther (mergedText items) n r n') ∧
      ∀ r n', Demangles demangleOther (mergedText items) n r n' ↔
        Demangles demangleOther (unmergedText items) n r n' := by
  obtain ⟨f, hmerged, hunmerged⟩ := reads_merged items htexts
  refine ⟨?_, fun r n' => ?_⟩
  · obtain ⟨r, d, hparses, -⟩ := hmerged.parses n
    exact ⟨r, d.nodes, d, hparses, rfl⟩
  · rw [hmerged.demangles_iff, hunmerged.demangles_iff]

/-- The operator `y`, and no other. -/
def emptyListOperator (c : BitVec 8) : Prog NodeDemangler Failure Node :=
  if c = 0x79 then pure (.mk (.other 0) none []) else Prog.throw .nullptr

theorem complete_emptyList : Complete emptyListOperator [0x79] := by
  refine ⟨fun n => .ok (n.push [.mk (.other 0) none []]), reads_of_operator (by simp) ?_⟩
  intro before rest n
  have hstart := drop_before before [0x79] rest
  refine ⟨.mk (.other 0) none [], ⟨before ++ [0x79] ++ rest, before.length + 1, n⟩, ?_, rfl⟩
  rw [demangleOperator, bind_run (onText_nextChar hstart), if_neg (by decide), if_neg (by decide),
    if_neg (by decide)]
  rfl

/-- `AB`, `AB`, `AA`, `y`, `Si`, `Si`: merged to `A2bAyS2i`. -/
theorem demangles_mergedText_int :
    (∃ r n', Demangles emptyListOperator
      (mergedText [.index 1, .index 1, .index 0, .text [0x79], .standard 0x69 rfl, .standard 0x69 rfl])
      ⟨[], [], []⟩ r n') ∧
    ∀ r n', Demangles emptyListOperator
      (mergedText [.index 1, .index 1, .index 0, .text [0x79], .standard 0x69 rfl, .standard 0x69 rfl])
      ⟨[], [], []⟩ r n' ↔
      Demangles emptyListOperator
        (unmergedText [.index 1, .index 1, .index 0, .text [0x79], .standard 0x69 rfl,
          .standard 0x69 rfl]) ⟨[], [], []⟩ r n' :=
  demangles_mergedText emptyListOperator _ (fun t ht => by
    simp only [List.mem_cons, List.not_mem_nil, reduceCtorEq, Appended.text.injEq, or_false,
      false_or] at ht
    rw [ht]
    exact complete_emptyList) ⟨[], [], []⟩

/-- Behind the text `1`, which makes the next character an identifier, the merged and the unmerged
text push different nodes. -/
theorem demangles_identifierLength :
    ¬ ∀ r n', Demangles emptyListOperator (mergedText [.text [0x31], .index 0, .index 0])
        ⟨[], [], [.mk (.other 0) none []]⟩ r n' ↔
      Demangles emptyListOperator (unmergedText [.text [0x31], .index 0, .index 0])
        ⟨[], [], [.mk (.other 0) none []]⟩ r n' := by
  intro h
  have htext : mergedText [.text [0x31], .index 0, .index 0] = [0x31, 0x41, 0x32, 0x41] := by decide
  have htext' : unmergedText [.text [0x31], .index 0, .index 0] =
      [0x31, 0x41, 0x41, 0x41, 0x41] := by decide
  rw [htext, htext'] at h
  -- `1A`, then `AA`, then `A` without an index
  have hunmerged : Demangles emptyListOperator [0x31, 0x41, 0x41, 0x41, 0x41]
      ⟨[], [], [.mk (.other 0) none []]⟩ false
      ⟨[], [.mk .Identifier (some [0x41]) [], .mk (.other 0) none []],
        [.mk (.other 0) none [], .mk .Identifier (some [0x41]) []]⟩ := by
    have hidentifier : demangleOperator emptyListOperator
        ⟨[0x31, 0x41, 0x41, 0x41, 0x41], 0, ⟨[], [], [.mk (.other 0) none []]⟩⟩ =
          (.ok (.mk .Identifier (some [0x41]) []), ⟨[0x31, 0x41, 0x41, 0x41, 0x41], 2,
            ⟨[], [], [.mk (.other 0) none [], .mk .Identifier (some [0x41]) []]⟩⟩) := rfl
    have hindex : demangleOperator emptyListOperator
        ⟨[0x31, 0x41, 0x41, 0x41, 0x41], 2, ⟨[], [.mk .Identifier (some [0x41]) []],
          [.mk (.other 0) none [], .mk .Identifier (some [0x41]) []]⟩⟩ =
          (.ok (.mk (.other 0) none []), ⟨[0x31, 0x41, 0x41, 0x41, 0x41], 4,
            ⟨[], [.mk .Identifier (some [0x41]) []],
              [.mk (.other 0) none [], .mk .Identifier (some [0x41]) []]⟩⟩) := rfl
    have hend : demangleOperator emptyListOperator
        ⟨[0x31, 0x41, 0x41, 0x41, 0x41], 4,
          ⟨[], [.mk .Identifier (some [0x41]) [], .mk (.other 0) none []],
            [.mk (.other 0) none [], .mk .Identifier (some [0x41]) []]⟩⟩ =
          (.error .nullptr, ⟨[0x31, 0x41, 0x41, 0x41, 0x41], 5,
            ⟨[], [.mk .Identifier (some [0x41]) [], .mk (.other 0) none []],
              [.mk (.other 0) none [], .mk .Identifier (some [0x41]) []]⟩⟩) := rfl
    exact ⟨_, .step _ _ _ _ ⟨by decide, _, _, hidentifier, rfl⟩
      (.step _ _ _ _ ⟨by decide, _, _, hindex, rfl⟩ (.stop _ _ ⟨by decide, _, hend⟩)), rfl⟩
  -- `1A`, then `2A` without a second character
  have hmerged : ParsesAndPushes emptyListOperator
      ⟨[0x31, 0x41, 0x32, 0x41], 0, ⟨[], [], [.mk (.other 0) none []]⟩⟩ false
      ⟨[0x31, 0x41, 0x32, 0x41], 3, ⟨[], [.mk .Identifier (some [0x41]) []],
        [.mk (.other 0) none [], .mk .Identifier (some [0x41]) []]⟩⟩ :=
    .step _ ⟨[0x31, 0x41, 0x32, 0x41], 2, ⟨[], [.mk .Identifier (some [0x41]) []],
      [.mk (.other 0) none [], .mk .Identifier (some [0x41]) []]⟩⟩ _ _ ⟨by decide, _, _, rfl, rfl⟩
      (.stop _ _ ⟨by decide, .nullptr, rfl⟩)
  obtain ⟨d, hparses, hnodes⟩ := (h _ _).2 hunmerged
  obtain ⟨-, rfl⟩ := parsesAndPushes_unique hmerged hparses
  exact absurd (congrArg (fun n => n.nodeStack.length) hnodes) (by decide)

end SwiftKStdlib.Demangling
