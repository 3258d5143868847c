import Mathlib.Tactic
import SwiftKStdlib.Demangling.Reading

/-!
# The parameters of an outlined bridged method

* `demangleBridgedMethodParams`, `mangleOutlinedBridgedMethod` : reading and writing the parameters;
* `paramsLoop_underscore`, `paramsLoop_end` : the loop stops at an underscore, or at a null character or
  the end of the text, and at no other character;
* `MethodParams` : the parameters that are meant, `p`, `a` or `m` and then any of `n` and `b`;
* `ReadsMethodParams` : nothing else is read, and what is read is mangled again as it was;
* `readsMethodParams_iff` : the texts for which that is so.
-/

namespace SwiftKStdlib.Demangling

open Lib (Prog)
open Lib.Prog (bind_run get_run)

namespace Demangler

/-- The loop up to the underscore. -/
def paramsLoop : Nat → StringRef → Prog Demangler Failure StringRef
  | 0, _ => Prog.throw .fuel
  | fuel + 1, str => do
    if ← nextIf 0x5F then pure str
    else do
      let c ← nextChar
      -- the source asks for a null character that is neither an `n` nor a `b`
      if c = 0 ∧ c ≠ 0x6E ∧ c ≠ 0x62 then pure []
      else paramsLoop fuel (str ++ [c])

def demangleBridgedMethodParams : Prog Demangler Failure StringRef := do
  if ← nextIf 0x5F then pure []
  else do
    let kind ← nextChar
    if kind = 0x70 ∨ kind = 0x61 ∨ kind = 0x6D then do
      let d ← Prog.get
      paramsLoop (d.text.length + 1) [kind]
    else pure []

end Demangler

/-- `Remangler::mangleOutlinedBridgedMethod`, for a node with this text. -/
def mangleOutlinedBridgedMethod (buffer nodeText : StringRef) : StringRef :=
  buffer ++ [0x54, 0x65] ++ nodeText ++ [0x5F]

open Demangler

section

variable {text y str : StringRef} {pos fuel : Nat} {T : List StringRef}

theorem paramsLoop_char {c : BitVec 8} (hunder : c ≠ 0x5F) (hnull : c ≠ 0) (h : text.drop pos = c :: y) :
    paramsLoop (fuel + 1) str ⟨text, pos, T⟩ = paramsLoop fuel (str ++ [c]) ⟨text, pos + 1, T⟩ := by
  have hnext := nextIf_run (T := T) h 0x5F
  rw [List.headD_cons, if_neg hunder] at hnext
  rw [paramsLoop, bind_run hnext, if_neg Bool.false_ne_true, bind_run (nextChar_run h), if_neg fun hc => hnull hc.1]

theorem paramsLoop_underscore {mid : StringRef} (hmid : ∀ c ∈ mid, c ≠ 0x5F ∧ c ≠ 0)
    (h : text.drop pos = mid ++ 0x5F :: y) (hfuel : mid.length < fuel) :
    paramsLoop fuel str ⟨text, pos, T⟩ = (.ok (str ++ mid), ⟨text, pos + mid.length + 1, T⟩) := by
  induction mid generalizing fuel str pos with
  | nil =>
      obtain ⟨fuel, rfl⟩ := Nat.exists_eq_add_one.2 (Nat.zero_lt_of_lt hfuel)
      have hnext := nextIf_run (T := T) h 0x5F
      rw [List.nil_append, List.headD_cons, if_pos rfl] at hnext
      rw [paramsLoop, bind_run hnext, List.append_nil]
      rfl
  | cons c mid ih =>
      obtain ⟨fuel, rfl⟩ := Nat.exists_eq_add_one.2 (Nat.zero_lt_of_lt hfuel)
      obtain ⟨hunder, hnull⟩ := hmid c List.mem_cons_self
      have hrest : text.drop (pos + 1) = mid ++ 0x5F :: y := drop_add (x := [_]) h
      rw [paramsLoop_char hunder hnull h,
        ih (fun e he => hmid e (List.mem_cons_of_mem c he)) hrest (Nat.lt_of_succ_lt_succ hfuel),
        List.append_assoc, List.singleton_append, List.length_cons, add_assoc pos 1, add_comm 1]

theorem paramsLoop_end {mid : StringRef} (hmid : ∀ c ∈ mid, c ≠ 0x5F ∧ c ≠ 0)
    (h : text.drop pos = mid ++ y) (hy : y.headD 0 = 0) (hfuel : mid.length < fuel) :
    ∃ d', paramsLoop fuel str ⟨text, pos, T⟩ = (.ok [], d') := by
  induction mid generalizing fuel str pos with
  | nil =>
      obtain ⟨fuel, rfl⟩ := Nat.exists_eq_add_one.2 (Nat.zero_lt_of_lt hfuel)
      have hnext := nextIf_run (T := T) h 0x5F
      rw [List.nil_append, hy, if_neg (by decide)] at hnext
      have hchar : ∃ d', nextChar ⟨text, pos, T⟩ = (.ok 0, d') := by
        cases y with
        | nil =>
            have hlen := List.drop_eq_nil_iff.1 (h.trans (List.append_nil _))
            exact ⟨_, if_pos hlen⟩
        | cons c y =>
            rw [List.headD_cons] at hy
            rw [← hy]
            exact ⟨_, nextChar_run h⟩
      obtain ⟨d', hchar⟩ := hchar
      refine ⟨d', ?_⟩
      rw [paramsLoop, bind_run hnext, if_neg Bool.false_ne_true, bind_run hchar, if_pos (by decide)]
      rfl
  | cons c mid ih =>
      obtain ⟨fuel, rfl⟩ := Nat.exists_eq_add_one.2 (Nat.zero_lt_of_lt hfuel)
      obtain ⟨hunder, hnull⟩ := hmid c List.mem_cons_self
      have hrest : text.drop (pos + 1) = mid ++ y := drop_add (x := [_]) h
      rw [paramsLoop_char hunder hnull h]
      exact ih (fun e he => hmid e (List.mem_cons_of_mem c he)) hrest (Nat.lt_of_succ_lt_succ hfuel)

end

/-! ## What is read -/

/-- The text begins with these characters, none of them an underscore or a null character, and an
underscore. -/
def UpToUnderscore (s str : StringRef) : Prop :=
  (∀ c ∈ str, c ≠ 0x5F ∧ c ≠ 0) ∧ str ++ [0x5F] <+: s

def BeginsKind (str : StringRef) : Prop := str.headD 0 = 0x70 ∨ str.headD 0 = 0x61 ∨ str.headD 0 = 0x6D

/-- The parameters of a bridged method: `p`, `a` or `m`, and then any of `n` and `b`. -/
def MethodParams (str : StringRef) : Prop := BeginsKind str ∧ ∀ c ∈ str.tail, c = 0x6E ∨ c = 0x62

/-- The reading comes to an end. It reads the parameters in front of an underscore, which are mangled again
as they stand in the text, and nothing else. -/
def ReadsMethodParams (text : StringRef) (pos : Nat) : Prop :=
  ∀ words, ∃ str d', demangleBridgedMethodParams ⟨text, pos, words⟩ = (.ok str, d') ∧
    (str ≠ [] ↔ ∃ params, MethodParams params ∧ params ++ [0x5F] <+: text.drop pos) ∧
    (str ≠ [] → ∀ buffer, mangleOutlinedBridgedMethod buffer str =
      buffer ++ [0x54, 0x65] ++ substr text pos (d'.pos - pos))

theorem MethodParams.chars {str : StringRef} (h : MethodParams str) : ∀ c ∈ str, c ≠ 0x5F ∧ c ≠ 0 := by
  obtain ⟨hkind, htail⟩ := h
  cases str with
  | nil => exact fun c hc => absurd hc List.not_mem_nil
  | cons k str =>
      intro c hc
      rcases List.mem_cons.1 hc with rfl | hc
      · rcases hkind with rfl | rfl | rfl <;> decide
      · rcases htail c hc with rfl | rfl <;> decide

theorem MethodParams.upToUnderscore {s str : StringRef} (h : MethodParams str) (hs : str ++ [0x5F] <+: s) :
    UpToUnderscore s str := ⟨h.chars, hs⟩

theorem UpToUnderscore.unique {s str str' : StringRef} (h : UpToUnderscore s str) (h' : UpToUnderscore s str') :
    str = str' := by
  obtain ⟨hchars, r, rfl⟩ := h
  obtain ⟨hchars', r', heq⟩ := h'
  induction str generalizing str' with
  | nil =>
      cases str' with
      | nil => rfl
      | cons c str' => exact absurd (List.cons.inj heq).1 (hchars' c List.mem_cons_self).1
  | cons c str ih =>
      cases str' with
      | nil => exact absurd (List.cons.inj heq).1.symm (hchars c List.mem_cons_self).1
      | cons c' str' =>
          obtain ⟨rfl, htail⟩ := List.cons.inj heq
          rw [ih (fun e he => hchars e (List.mem_cons_of_mem _ he)) (fun e he => hchars' e (List.mem_cons_of_mem _ he))
            htail]

theorem upToUnderscore_or (s : StringRef) :
    (∃ str, UpToUnderscore s str) ∨
      ∃ mid y, (∀ c ∈ mid, c ≠ 0x5F ∧ c ≠ 0) ∧ s = mid ++ y ∧ y.headD 0 = (0 : BitVec 8) := by
  induction s with
  | nil => exact .inr ⟨[], [], fun c hc => absurd hc List.not_mem_nil, rfl, rfl⟩
  | cons c s ih =>
      by_cases hunder : c = 0x5F
      · exact .inl ⟨[], fun e he => absurd he List.not_mem_nil, s, by rw [hunder]; rfl⟩
      · by_cases hnull : c = 0
        · exact .inr ⟨[], c :: s, fun e he => absurd he List.not_mem_nil, rfl, hnull⟩
        · rcases ih with ⟨str, hchars, hprefix⟩ | ⟨mid, y, hchars, rfl, hy⟩
          · exact .inl ⟨c :: str, List.forall_mem_cons.2 ⟨⟨hunder, hnull⟩, hchars⟩,
              List.cons_prefix_cons.2 ⟨rfl, hprefix⟩⟩
          · exact .inr ⟨c :: mid, y, List.forall_mem_cons.2 ⟨⟨hunder, hnull⟩, hchars⟩, rfl, hy⟩

section

variable {text : StringRef} {pos : Nat}

theorem demangleBridgedMethodParams_underscore {str : StringRef} (h : UpToUnderscore (text.drop pos) str)
    (hkind : BeginsKind str) (T : List StringRef) :
    demangleBridgedMethodParams ⟨text, pos, T⟩ = (.ok str, ⟨text, pos + str.length + 1, T⟩) := by
  obtain ⟨hchars, r, hr⟩ := h
  cases str with
  | nil => rcases hkind with h | h | h <;> exact absurd h (by decide)
  | cons k mid =>
      have hdrop : text.drop pos = k :: (mid ++ 0x5F :: r) := by rw [← hr]; simp
      have hrest : text.drop (pos + 1) = mid ++ 0x5F :: r := drop_add (x := [_]) hdrop
      have hlen := length_of_drop_eq hdrop (List.cons_ne_nil _ _)
      rw [List.length_cons, List.length_append] at hlen
      have hnext := nextIf_run (T := T) hdrop 0x5F
      rw [List.headD_cons, if_neg (hchars k List.mem_cons_self).1] at hnext
      rw [demangleBridgedMethodParams, bind_run hnext, if_neg Bool.false_ne_true, bind_run (nextChar_run hdrop),
        if_pos (by simpa only [BeginsKind, List.headD_cons] using hkind), bind_run (get_run _),
        paramsLoop_underscore (fun c hc => hchars c (List.mem_cons_of_mem k hc)) hrest
          (by change _ < text.length + 1; omega),
        List.singleton_append, List.length_cons, add_assoc pos 1, add_comm 1]

theorem demangleBridgedMethodParams_refused
    (h : ¬ ∃ str, UpToUnderscore (text.drop pos) str ∧ BeginsKind str) (T : List StringRef) :
    ∃ d', demangleBridgedMethodParams ⟨text, pos, T⟩ = (.ok [], d') := by
  have hnext := nextIf_run (T := T) (rfl : text.drop pos = _) 0x5F
  rw [demangleBridgedMethodParams]
  split_ifs at hnext with hunder
  · rw [bind_run hnext]
    exact ⟨_, rfl⟩
  · rw [bind_run hnext, if_neg Bool.false_ne_true]
    cases hdrop : text.drop pos with
    | nil =>
        have hchar : nextChar ⟨text, pos, T⟩ = (.ok 0, ⟨text, pos, T⟩) := if_pos (List.drop_eq_nil_iff.1 hdrop)
        rw [bind_run hchar, if_neg (by decide)]
        exact ⟨_, rfl⟩
    | cons k s =>
        rw [bind_run (nextChar_run hdrop)]
        split_ifs with hkind
        · rw [hdrop, List.headD_cons] at hunder
          rw [bind_run (get_run _)]
          have hrest : text.drop (pos + 1) = s := drop_add (x := [_]) hdrop
          have hnull : k ≠ 0 := by rcases hkind with rfl | rfl | rfl <;> decide
          rcases upToUnderscore_or s with ⟨str, hchars, hprefix⟩ | ⟨mid, y, hchars, rfl, hy⟩
          · refine absurd ⟨k :: str, ⟨?_, ?_⟩, hkind⟩ h
            · exact List.forall_mem_cons.2 ⟨⟨hunder, hnull⟩, hchars⟩
            · rw [hdrop]
              exact List.cons_prefix_cons.2 ⟨rfl, hprefix⟩
          · have hlen := length_of_drop_eq hdrop (List.cons_ne_nil _ _)
            rw [List.length_cons, List.length_append] at hlen
            exact paramsLoop_end hchars hrest hy (by change _ < text.length + 1; omega)
        · exact ⟨_, rfl⟩

/-- Only parameters are read, if and only if there are not other characters between a `p`, `a` or `m` and
the underscore. -/
theorem readsMethodParams_iff (text : StringRef) (pos : Nat) :
    ReadsMethodParams text pos ↔
      ∀ str, UpToUnderscore (text.drop pos) str → BeginsKind str → ∀ c ∈ str.tail, c = 0x6E ∨ c = 0x62 := by
  constructor
  · intro hreads str hstr hkind
    obtain ⟨r, d', hrun, hiff, -⟩ := hreads []
    rw [demangleBridgedMethodParams_underscore hstr hkind] at hrun
    obtain rfl : str = r := Except.ok.inj (Prod.mk.inj hrun).1
    have hne : str ≠ [] := by
      rintro rfl
      rcases hkind with h | h | h <;> exact absurd h (by decide)
    obtain ⟨params, hparams, hprefix⟩ := hiff.1 hne
    rw [hstr.unique (hparams.upToUnderscore hprefix)]
    exact hparams.2
  · intro hcond words
    by_cases h : ∃ str, UpToUnderscore (text.drop pos) str ∧ BeginsKind str
    · obtain ⟨str, hstr, hkind⟩ := h
      refine ⟨str, _, demangleBridgedMethodParams_underscore hstr hkind words, ?_, fun _ buffer => ?_⟩
      · have hne : str ≠ [] := by
          rintro rfl
          rcases hkind with h | h | h <;> exact absurd h (by decide)
        exact iff_of_true hne ⟨str, ⟨hkind, hcond str hstr hkind⟩, hstr.2⟩
      · obtain ⟨r, hr⟩ := hstr.2
        have hlen : pos + str.length + 1 - pos = (str ++ [(0x5F : BitVec 8)]).length := by
          rw [List.length_append, List.length_singleton]
          omega
        rw [mangleOutlinedBridgedMethod, substr, ← hr, hlen, List.take_left, List.append_assoc]
    · obtain ⟨d', hrun⟩ := demangleBridgedMethodParams_refused h words
      refine ⟨[], d', hrun, iff_of_false (fun hne => hne rfl) ?_, fun hne => absurd rfl hne⟩
      rintro ⟨params, hparams, hprefix⟩
      exact h ⟨params, hparams.upToUnderscore hprefix, hparams.1⟩

/-- An `x` is read as a parameter. -/
theorem not_readsMethodParams_other : ¬ ReadsMethodParams [0x70, 0x78, 0x5F] 0 := by
  intro h
  obtain ⟨str, d', hrun, hiff, -⟩ := h []
  have hread : demangleBridgedMethodParams ⟨[0x70, 0x78, 0x5F], 0, []⟩ =
      (.ok [0x70, 0x78], ⟨[0x70, 0x78, 0x5F], 3, []⟩) := by decide
  rw [hread] at hrun
  obtain rfl : [0x70, 0x78] = str := Except.ok.inj (Prod.mk.inj hrun).1
  obtain ⟨params, hparams, hprefix⟩ := hiff.1 (List.cons_ne_nil _ _)
  have hother : UpToUnderscore [0x70, 0x78, 0x5F] [0x70, 0x78] := ⟨by decide, [], rfl⟩
  obtain rfl := hother.unique (hparams.upToUnderscore hprefix)
  exact absurd (hparams.2 0x78 List.mem_cons_self) (by decide)

end

end SwiftKStdlib.Demangling
