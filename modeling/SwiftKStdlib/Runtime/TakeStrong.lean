import SwiftKStdlib.Runtime.ObjectLife

/-!
# Weak operations, and taking a weak variable

* `weakCountOf` : the number of weak references that a set of weak variables holds;
* `Held` : the objects live on with the weak references of these variables;
* `nativeInit_spec`, `nativeDestroy_spec`, ... : what the operations do to `Held`;
* `nativeTakeStrong_spec` : as long as another weak reference, or the object, is left;
* `State.HoldsLast` : a weak variable holds the last weak reference to an object that is already freed;
* `perform_spec` : any other operation keeps `State.LivesOn`, and stops only on an overflow;
* `reachable_livesOn` : so all states that clients reach have it;
* `nativeTakeStrong_run` : taking is loading and then destroying;
* `takeStrong_iff` : but the variables that hold a last weak reference.
-/

namespace SwiftKStdlib.Runtime

open Lib Lib.Prog

namespace Lifecycle

open WeakReference

/-! ## Weak references -/

def weakCountOf (vars : Finset Nat) (nativeValue : Nat → Option Nat) : Nat → Nat := fun object =>
  (vars.filter fun w => nativeValue w = some object).card

section WeakCount

variable {vars : Finset Nat} {nativeValue : Nat → Option Nat} {w : Nat}

theorem weakCountOf_insert (hw : w ∉ vars) :
    weakCountOf (insert w vars) nativeValue = weakCountOf vars nativeValue + hold (nativeValue w) := by
  funext object
  rw [Pi.add_apply]
  unfold weakCountOf hold
  rw [Finset.filter_insert]
  by_cases hvalue : nativeValue w = some object
  · rw [if_pos hvalue, if_pos hvalue, Finset.card_insert_of_notMem]
    exact fun hmem => hw (Finset.mem_filter.1 hmem).1
  · rw [if_neg hvalue, if_neg hvalue, Nat.add_zero]

theorem weakCountOf_erase (hw : w ∈ vars) :
    weakCountOf vars nativeValue = weakCountOf (vars.erase w) nativeValue + hold (nativeValue w) := by
  rw [← weakCountOf_insert (Finset.notMem_erase w vars), Finset.insert_erase hw]

theorem weakCountOf_update (hw : w ∉ vars) (bits : Option Nat) :
    weakCountOf vars (Function.update nativeValue w bits) = weakCountOf vars nativeValue := by
  funext object
  unfold weakCountOf
  congr 1
  apply Finset.filter_congr
  intro other hother
  rw [Function.update_of_ne (ne_of_mem_of_not_mem hother hw)]

theorem weakCountOf_pos (hw : w ∈ vars) {object : Nat} (hvalue : nativeValue w = some object) :
    0 < weakCountOf vars nativeValue object :=
  Finset.card_pos.2 ⟨w, Finset.mem_filter.2 ⟨hw, hvalue⟩⟩

end WeakCount

def Held (size : PointerSize) (vars : Finset Nat) (owned : Nat → Owned) (m : Memory) : Prop :=
  LivesOn size m.nativeValue owned (weakCountOf vars m.nativeValue) m

section Specs

variable {size : PointerSize} {vars : Finset Nat} {nativeValue : Nat → Option Nat} {owned : Nat → Owned}
  {weak : Nat → Nat} {m m' : Memory} {w src : Nat}

theorem LivesOn.held (h : LivesOn size nativeValue owned weak m) (hweak : weak = weakCountOf vars nativeValue) :
    Held size vars owned m := by
  unfold Held
  rw [h.nativeValue, ← hweak]
  exact h

/-! ## Operations -/

theorem wp_storeNativeValue {Q : Unit → Memory → Prop} {E : Fault → Memory → Prop} (bits : Option Nat) :
    wp (storeNativeValue w bits) Q E m ↔ Q () (m.setNativeValue w bits) := Iff.rfl

theorem wp_loadNativeValue {Q : Option Nat → Memory → Prop} {E : Fault → Memory → Prop} :
    wp (loadNativeValue w) Q E m ↔ Q (m.nativeValue w) m := Iff.rfl

theorem destroyOldNativeBits_spec {bits : Option Nat} (h : LivesOn size nativeValue owned (weak + hold bits) m) :
    wp (destroyOldNativeBits bits) (fun _ m' => LivesOn size nativeValue owned weak m') Aborts m := by
  cases bits with
  | none =>
    rw [hold_none, add_zero] at h
    exact h
  | some side => exact wp_mono (decrementWeak_spec h) (fun _ _ hpost => hpost.1) fun _ _ habort => habort

theorem formNullableReference_spec {object : Option Nat} (h : LivesOn size nativeValue owned weak m)
    (hown : ∀ o ∈ object, (owned o).Usable) :
    wp (formNullableReference object) (fun bits m' => LivesOn size nativeValue owned (weak + hold bits) m')
      Aborts m := by
  cases object with
  | none =>
    show LivesOn size nativeValue owned (weak + hold none) m
    rwa [hold_none, add_zero]
  | some o => exact formWeakReference_spec h ((h.life o).exists_object (Or.inl (hown o rfl)))

theorem nativeInit_spec {object : Option Nat} (h : Held size vars owned m) (hw : w ∉ vars)
    (hown : ∀ o ∈ object, (owned o).Usable) :
    wp (nativeInit w object) (fun _ m' => Held size (insert w vars) owned m') Aborts m := by
  unfold nativeInit
  rw [wp_bind]
  refine wp_mono (formNullableReference_spec h hown) (fun bits m' hlives => ?_) fun _ _ habort => habort
  rw [wp_storeNativeValue]
  apply (hlives.setNativeValue w bits).held
  rw [weakCountOf_insert hw, weakCountOf_update hw, Function.update_self]

theorem nativeDestroy_spec (h : Held size vars owned m) (hw : w ∈ vars) :
    wp (nativeDestroy w) (fun _ m' => Held size (vars.erase w) owned m') Aborts m := by
  unfold nativeDestroy
  rw [wp_bind, wp_loadNativeValue, wp_bind, wp_storeNativeValue]
  have hlives := h
  unfold Held at hlives
  rw [weakCountOf_erase hw] at hlives
  refine wp_mono (destroyOldNativeBits_spec (hlives.setNativeValue w none)) (fun _ m' hpost => ?_)
    fun _ _ habort => habort
  apply hpost.held
  rw [weakCountOf_update (Finset.notMem_erase w vars)]

theorem nativeAssign_spec {newObject : Option Nat} (h : Held size vars owned m) (hw : w ∈ vars)
    (hown : ∀ o ∈ newObject, (owned o).Usable) :
    wp (nativeAssign w newObject) (fun _ m' => Held size vars owned m') Aborts m := by
  unfold nativeAssign
  rw [wp_bind]
  refine wp_mono (formNullableReference_spec h hown) (fun newBits m' hlives => ?_) fun _ _ habort => habort
  rw [wp_bind, wp_loadNativeValue, wp_bind, wp_storeNativeValue, hlives.nativeValue]
  rw [weakCountOf_erase hw, add_right_comm] at hlives
  refine wp_mono (destroyOldNativeBits_spec (hlives.setNativeValue w newBits)) (fun _ m'' hpost => ?_)
    fun _ _ habort => habort
  apply hpost.held
  rw [weakCountOf_erase hw, weakCountOf_update (Finset.notMem_erase w vars), Function.update_self]

theorem Held.exists_entry (h : Held size vars owned m) (hw : w ∈ vars) {side : Nat}
    (hside : m.nativeValue w = some side) : ∃ entry, m.entries side = some entry :=
  (h.life side).exists_entry (weakCountOf_pos hw hside)

theorem nativeLoadStrong_spec (h : Held size vars owned m) (hw : w ∈ vars) :
    wp (nativeLoadStrong w) (fun result m' => Held size vars (addStrongTo owned result) m') Aborts m := by
  unfold nativeLoadStrong
  rw [wp_bind, wp_loadNativeValue]
  cases hbits : m.nativeValue w with
  | none => exact h
  | some side =>
    refine wp_mono (tryRetain_spec h (h.exists_entry hw hbits)) (fun _ _ hpost => ?_) fun _ _ habort => habort
    exact hpost.held rfl

theorem nativeCopyInit_spec (h : Held size vars owned m) (hw : w ∉ vars) (hsrc : src ∈ vars) :
    wp (nativeCopyInit w src) (fun _ m' => Held size (insert w vars) owned m') Aborts m := by
  unfold nativeCopyInit
  rw [wp_bind, wp_loadNativeValue]
  have hheld : ∀ {bits : Option Nat} {m' : Memory},
      LivesOn size m.nativeValue owned (weakCountOf vars m.nativeValue + hold bits) m' →
        Held size (insert w vars) owned (m'.setNativeValue w bits) := by
    intro bits m' hlives
    apply (hlives.setNativeValue w bits).held
    rw [weakCountOf_insert hw, weakCountOf_update hw, Function.update_self]
  cases hbits : m.nativeValue src with
  | none =>
    apply hheld
    rw [hold_none, add_zero]
    exact h
  | some side =>
    show wp (do let side ← HeapObjectSideTableEntry.incrementWeak side; storeNativeValue w side) _ _ _
    rw [wp_bind]
    refine wp_mono (incrementWeak_spec h (h.exists_entry hsrc hbits)) (fun bits m' hlives => ?_)
      fun _ _ habort => habort
    exact hheld hlives

theorem nativeTakeInit_spec (h : Held size vars owned m) (hw : w ∉ vars) (hsrc : src ∈ vars) :
    wp (nativeTakeInit w src) (fun _ m' => Held size ((insert w vars).erase src) owned m') Aborts m := by
  unfold nativeTakeInit
  rw [wp_bind, wp_loadNativeValue, wp_bind, wp_storeNativeValue, wp_storeNativeValue]
  have hne : w ≠ src := (ne_of_mem_of_not_mem hsrc hw).symm
  have hw' : w ∉ vars.erase src := fun hmem => hw (Finset.mem_of_mem_erase hmem)
  have hlives := h
  unfold Held at hlives
  apply ((hlives.setNativeValue src none).setNativeValue w (m.nativeValue src)).held
  rw [Finset.erase_insert_of_ne hne, weakCountOf_insert hw', weakCountOf_update hw',
    weakCountOf_update (Finset.notMem_erase src vars), Function.update_self, ← weakCountOf_erase hsrc]

theorem nativeCopyAssign_spec (h : Held size vars owned m) (hw : w ∈ vars) (hsrc : src ∈ vars) :
    wp (nativeCopyAssign w src) (fun _ m' => Held size vars owned m') Aborts m := by
  unfold nativeCopyAssign
  by_cases hne : w = src
  · rw [if_pos hne]
    exact h
  · rw [if_neg hne, wp_bind]
    refine wp_mono (nativeDestroy_spec h hw) (fun _ m' hpost => ?_) fun _ _ habort => habort
    have hcopy := nativeCopyInit_spec hpost (Finset.notMem_erase w vars)
      (Finset.mem_erase.2 ⟨fun heq => hne heq.symm, hsrc⟩)
    rwa [Finset.insert_erase hw] at hcopy

theorem nativeTakeAssign_spec (h : Held size vars owned m) (hw : w ∈ vars) (hsrc : src ∈ vars) :
    wp (nativeTakeAssign w src) (fun _ m' => Held size (if w = src then vars else vars.erase src) owned m')
      Aborts m := by
  unfold nativeTakeAssign
  by_cases hne : w = src
  · rw [if_pos hne, if_pos hne]
    exact h
  · rw [if_neg hne, if_neg hne, wp_bind]
    refine wp_mono (nativeDestroy_spec h hw) (fun _ m' hpost => ?_) fun _ _ habort => habort
    have htake := nativeTakeInit_spec hpost (Finset.notMem_erase w vars)
      (Finset.mem_erase.2 ⟨fun heq => hne heq.symm, hsrc⟩)
    rwa [Finset.insert_erase hw] at htake

end Specs

end Lifecycle

end SwiftKStdlib.Runtime

namespace SwiftKStdlib.Runtime

open Lib Lib.Prog

namespace Lifecycle

open WeakReference Lifecycle.HeapObjectSideTableEntry

/-! ## States -/

namespace State

/-- A weak variable holds the last weak reference to an object that is already freed. -/
def HoldsLast (s : State) (w : Nat) : Prop :=
  ∃ object, s.memory.nativeValue w = some object ∧ s.memory.objects object = Option.none ∧ s.weakCount object = 1

def LivesOn (size : PointerSize) (s : State) : Prop := Held size s.initialized s.owned s.memory

theorem start_livesOn (size : PointerSize) (nativeValue : Nat → Option Nat) :
    (start nativeValue).LivesOn size :=
  ⟨rfl, fun _ => .unallocated⟩

theorem addStrong_livesOn {size : PointerSize} {s : State} {m : Memory} {vars : Finset Nat} {result : Option Nat}
    (h : Held size vars (addStrongTo s.owned result) m) :
    (({ s with memory := m, initialized := vars } : State).addStrong result).LivesOn size := by
  cases result <;> exact h

end State

section Specs

variable {size : PointerSize} {s : State} {w : Nat}

theorem not_last_of_not_holdsLast (hlast : ¬ s.HoldsLast w) (hw : w ∈ s.initialized) {object : Nat}
    (hvalue : s.memory.nativeValue w = some object) :
    (∃ refCounts, s.memory.objects object = some refCounts) ∨
      0 < weakCountOf (s.initialized.erase w) s.memory.nativeValue object := by
  by_contra hnone
  rw [not_or] at hnone
  apply hlast
  refine ⟨object, hvalue, ?_, ?_⟩
  · rw [Option.eq_none_iff_forall_ne_some]
    intro refCounts hobject
    exact hnone.1 ⟨refCounts, hobject⟩
  · show weakCountOf s.initialized s.memory.nativeValue object = 1
    rw [weakCountOf_erase hw, Pi.add_apply, hvalue, hold_some_self]
    omega

theorem nativeTakeStrong_spec (h : s.LivesOn size) (hlast : ¬ s.HoldsLast w) (hw : w ∈ s.initialized) :
    wp (nativeTakeStrong w) (fun result m' => Held size (s.initialized.erase w) (addStrongTo s.owned result) m')
      Aborts s.memory := by
  unfold nativeTakeStrong
  rw [wp_bind, wp_loadNativeValue, wp_bind, wp_storeNativeValue]
  have hlives := h
  unfold State.LivesOn Held at hlives
  rw [weakCountOf_erase hw] at hlives
  have hstored := hlives.setNativeValue w none
  cases hbits : s.memory.nativeValue w with
  | none =>
    rw [hbits, hold_none, add_zero] at hstored
    apply hstored.held
    rw [weakCountOf_update (Finset.notMem_erase w _)]
  | some side =>
    rw [hbits] at hstored
    show wp (do decrementWeak side; tryRetain side) _ _ _
    rw [wp_bind]
    refine wp_mono (decrementWeak_spec hstored) (fun _ m' hpost => ?_) fun _ _ habort => habort
    obtain ⟨hlives', hentry⟩ := hpost
    refine wp_mono (tryRetain_spec hlives' (hentry (not_last_of_not_holdsLast hlast hw hbits)))
      (fun _ _ hpost => ?_) fun _ _ habort => habort
    apply hpost.held
    rw [weakCountOf_update (Finset.notMem_erase w _)]

def Continues (size : PointerSize) : Except Fault State → Prop
  | .ok s' => s'.LivesOn size
  | .error f => f.IsAbort

theorem after_continues {α : Type} {x : RuntimeM α} {k : α → State → State} {Q : α → Memory → Prop}
    (h : wp x Q Aborts s.memory) (hk : ∀ a m', Q a m' → (k a { s with memory := m' }).LivesOn size) :
    Continues size (Op.after s x k) := by
  unfold wp at h
  unfold Op.after
  rcases hx : x s.memory with ⟨f | a, m'⟩
  · rw [hx] at h
    exact h
  · rw [hx] at h
    exact hk a m' h

theorem perform_spec (h : s.LivesOn size) {op : Op} (hop : op.Allowed s)
    (hlast : ∀ w, op = .weakTakeStrong w → ¬ s.HoldsLast w) : Continues size (op.perform size s) := by
  have hheld : ∀ {owned : Nat → Owned} {m' : Memory},
      Lifecycle.LivesOn size s.memory.nativeValue owned (weakCountOf s.initialized s.memory.nativeValue) m' →
        Held size s.initialized owned m' := fun hlives => hlives.held rfl
  unfold Op.perform
  cases op with
  | allocObject object => exact after_continues (allocObject_spec h hop) fun _ _ hlives => hheld hlives
  | retain object => exact after_continues (retain_spec h hop) fun _ _ hlives => hheld hlives
  | release object => exact after_continues (release_spec h hop) fun _ _ hlives => hheld hlives
  | deallocObject object => exact after_continues (deallocObject_spec h hop) fun _ _ hlives => hheld hlives
  | unownedRetain object => exact after_continues (unownedRetain_spec h hop) fun _ _ hlives => hheld hlives
  | unownedRelease object =>
    have hpos : 0 < (s.owned object).unowned := hop
    have hdrops : Owned.Drops (s.owned object) { s.owned object with unowned := (s.owned object).unowned - 1 } :=
      ⟨rfl, rfl, rfl, by dsimp only; omega, (h.life object).of_deallocated⟩
    exact after_continues (unownedRelease_spec h ((h.life object).exists_object (Or.inr hpos)) hdrops)
      fun _ _ hlives => hheld hlives
  | weakInit w object => exact after_continues (nativeInit_spec h hop.1 hop.2) fun _ _ hheld' => hheld'
  | weakAssign w newObject => exact after_continues (nativeAssign_spec h hop.1 hop.2) fun _ _ hheld' => hheld'
  | weakLoadStrong w =>
    exact after_continues (nativeLoadStrong_spec h hop) fun _ _ hheld' => State.addStrong_livesOn hheld'
  | weakTakeStrong w =>
    apply after_continues (nativeTakeStrong_spec h (hlast w rfl) hop)
    intro result m' hheld'
    cases result <;> exact hheld'
  | weakDestroy w => exact after_continues (nativeDestroy_spec h hop) fun _ _ hheld' => hheld'
  | weakCopyInit w src => exact after_continues (nativeCopyInit_spec h hop.1 hop.2) fun _ _ hheld' => hheld'
  | weakTakeInit w src => exact after_continues (nativeTakeInit_spec h hop.1 hop.2) fun _ _ hheld' => hheld'
  | weakCopyAssign w src => exact after_continues (nativeCopyAssign_spec h hop.1 hop.2) fun _ _ hheld' => hheld'
  | weakTakeAssign w src =>
    apply after_continues (nativeTakeAssign_spec h hop.1 hop.2)
    intro _ m' hheld'
    by_cases hne : w = src
    · rw [if_pos hne] at hheld'
      rw [if_pos hne]
      exact hheld'
    · rw [if_neg hne] at hheld'
      rw [if_neg hne]
      exact hheld'

theorem State.HoldsLast.entry (h : s.LivesOn size) (hlast : s.HoldsLast w) : ∃ object c weakBits,
    s.memory.nativeValue w = some object ∧ s.memory.entries object = some ⟨object, c, weakBits⟩ ∧
      c.isDeiniting = true ∧ c.unowned = 0 ∧ weakBits.toNat = 1 := by
  obtain ⟨object, hvalue, hobject, hweak⟩ := hlast
  have hlife := h.life object
  rw [hobject, show weakCountOf s.initialized s.memory.nativeValue object = 1 from hweak] at hlife
  obtain ⟨entry, hentry⟩ := hlife.exists_entry Nat.one_pos
  rw [hentry] at hlife
  obtain ⟨c, weakBits, rfl, ⟨hfalse, -⟩ | ⟨-, -, hdeiniting, hunowned, hone, -⟩⟩ := hlife.of_entry
  · nomatch hfalse
  · exact ⟨object, c, weakBits, hvalue, hentry, hdeiniting, hunowned, hone⟩

theorem nativeTakeStrong_last (h : s.LivesOn size) (hlast : s.HoldsLast w) :
    ∃ m', nativeTakeStrong w s.memory = (.error .deletedEntry, m') := by
  obtain ⟨object, c, weakBits, hvalue, hentry, -, hunowned, hone⟩ := hlast.entry h
  have hdecrement : decrementWeak object (s.memory.setNativeValue w none) =
      (.ok (), (s.memory.setNativeValue w none).setEntry object none) := by
    have hrun := decrementWeak_run (m := s.memory.setNativeValue w none) hentry
      (show 0 < weakBits.toNat by omega) fun _ => hunowned
    unfold entryAfter at hrun
    rwa [if_pos hone] at hrun
  have hload : loadEntry object ((s.memory.setNativeValue w none).setEntry object none) =
      (.error .deletedEntry, (s.memory.setNativeValue w none).setEntry object none) := by
    unfold loadEntry
    rw [show ((s.memory.setNativeValue w none).setEntry object none).entries object = none from
      Function.update_self ..]
  refine ⟨(s.memory.setNativeValue w none).setEntry object none, ?_⟩
  show nativeTakeStrongFromBits (s.memory.nativeValue w) (s.memory.setNativeValue w none) = _
  rw [hvalue]
  show (do decrementWeak object; tryRetain object : RuntimeM (Option Nat)) _ = _
  rw [bind_run hdecrement]
  exact bind_error (bind_error hload)

theorem perform_last (h : s.LivesOn size) (hlast : s.HoldsLast w) :
    (Op.weakTakeStrong w).perform size s = .error .deletedEntry := by
  obtain ⟨m', hrun⟩ := nativeTakeStrong_last h hlast
  unfold Op.perform Op.after
  dsimp only
  rw [hrun]

theorem reachable_livesOn (h : Reachable size s) : s.LivesOn size := by
  induction h with
  | start nativeValue => exact State.start_livesOn size nativeValue
  | @step s s' op _ hop hstep ih =>
    by_cases hlast : ∃ w, op = .weakTakeStrong w ∧ s.HoldsLast w
    · obtain ⟨w, rfl, hw⟩ := hlast
      rw [perform_last ih hw] at hstep
      nomatch hstep
    · have hcontinues := perform_spec ih hop fun w hw hlast' => hlast ⟨w, hw, hlast'⟩
      rw [hstep] at hcontinues
      exact hcontinues

theorem perform_deletedEntry_iff (h : s.LivesOn size) {op : Op} (hop : op.Allowed s) :
    op.perform size s = .error .deletedEntry ↔ ∃ w, op = .weakTakeStrong w ∧ s.HoldsLast w := by
  refine ⟨fun hperform => ?_, ?_⟩
  · by_contra hlast
    have hcontinues := perform_spec h hop fun w hw hlast' => hlast ⟨w, hw, hlast'⟩
    rw [hperform] at hcontinues
    obtain hfault | hfault | hfault := hcontinues <;> nomatch hfault
  · rintro ⟨w, rfl, hlast⟩
    exact perform_last h hlast

/-! ## Taking and loading -/

/-- What a program returns and leaves, or the fault that stops it. -/
def outcome {α : Type} (x : RuntimeM α) (m : Memory) : Except Fault (α × Memory) :=
  match x m with
  | (.ok a, m') => .ok (a, m')
  | (.error f, _) => .error f

/-- `nativeLoadStrong` followed by `nativeDestroy`. -/
def nativeLoadStrongThenDestroy (w : Nat) : RuntimeM (Option Nat) := do
  let result ← nativeLoadStrong w
  nativeDestroy w
  pure result

section Runs

variable {m : Memory} {object : Nat} {c : Counts} {weakBits : BitVec 32}

theorem setEntry_setEntry (m : Memory) (object : Nat) (entry entry' : Option HeapObjectSideTableEntry) :
    (m.setEntry object entry).setEntry object entry' = m.setEntry object entry' := by
  unfold Memory.setEntry
  rw [Function.update_idem]

theorem nativeDestroy_run (hvalue : m.nativeValue w = some object)
    (hentry : m.entries object = some ⟨object, c, weakBits⟩) (hpos : 0 < weakBits.toNat)
    (hunowned : weakBits.toNat = 1 → c.unowned = 0) :
    nativeDestroy w m = (.ok (), (m.setNativeValue w none).setEntry object (entryAfter ⟨object, c, weakBits⟩)) := by
  show destroyOldNativeBits (m.nativeValue w) (m.setNativeValue w none) = _
  rw [hvalue]
  exact decrementWeak_run hentry hpos hunowned

theorem outcome_nativeTakeStrong (hvalue : m.nativeValue w = some object)
    (hentry : m.entries object = some ⟨object, c, weakBits⟩) (hpos : 1 < weakBits.toNat) :
    outcome (nativeTakeStrong w) m = outcome (nativeLoadStrongThenDestroy w) m := by
  have hafter : ∀ c' : Counts, entryAfter ⟨object, c', weakBits⟩ = some ⟨object, c', weakBits - 1⟩ := by
    intro c'
    exact if_neg (Nat.ne_of_gt hpos)
  have hunowned : ∀ c' : Counts, weakBits.toNat = 1 → c'.unowned = 0 := fun _ hone => by omega
  have hdecrement : decrementWeak object (m.setNativeValue w none) =
      (.ok (), (m.setNativeValue w none).setEntry object (entryAfter ⟨object, c, weakBits⟩)) :=
    decrementWeak_run hentry (show 0 < weakBits.toNat by omega) (hunowned c)
  rw [hafter] at hdecrement
  have htake : nativeTakeStrong w m =
      tryRetain object ((m.setNativeValue w none).setEntry object (some ⟨object, c, weakBits - 1⟩)) := by
    show nativeTakeStrongFromBits (m.nativeValue w) (m.setNativeValue w none) = _
    rw [hvalue]
    exact bind_run hdecrement
  have hload : nativeLoadStrong w m = tryRetain object m := by
    show nativeLoadStrongFromBits (m.nativeValue w) m = _
    rw [hvalue]
    rfl
  rw [tryRetain_run (Function.update_self ..)] at htake
  rw [tryRetain_run hentry] at hload
  unfold outcome nativeLoadStrongThenDestroy
  rw [htake]
  by_cases hdeiniting : c.isDeiniting = true
  · rw [if_pos hdeiniting] at hload ⊢
    rw [bind_run hload, bind_run (nativeDestroy_run hvalue hentry (by omega) (hunowned c)), hafter]
    rfl
  · rw [if_neg hdeiniting] at hload ⊢
    cases hincrement : c.incrementStrongExtraRefCount RefCountBitOffsets.offsets8 with
    | none =>
      rw [hincrement] at hload
      rw [bind_error hload]
    | some c' =>
      rw [hincrement] at hload
      dsimp only at hload ⊢
      have hdestroy := nativeDestroy_run (m := m.setEntry object (some ⟨object, c', weakBits⟩)) hvalue
        (Function.update_self ..) (by omega) (hunowned c')
      rw [bind_run hload, bind_run hdestroy, hafter, setEntry_setEntry]
      show _ = Except.ok (some object, ((m.setNativeValue w none).setEntry object _).setEntry object _)
      rw [setEntry_setEntry]

end Runs

theorem outcome_load_last (h : s.LivesOn size) (hlast : s.HoldsLast w) :
    ∃ m', outcome (nativeLoadStrongThenDestroy w) s.memory = .ok (none, m') := by
  obtain ⟨object, c, weakBits, hvalue, hentry, hdeiniting, hunowned, hone⟩ := hlast.entry h
  have hload : nativeLoadStrong w s.memory = (.ok none, s.memory) := by
    show nativeLoadStrongFromBits (s.memory.nativeValue w) s.memory = _
    rw [hvalue]
    show tryRetain object s.memory = _
    rw [tryRetain_run hentry, if_pos hdeiniting]
  refine ⟨(s.memory.setNativeValue w none).setEntry object (entryAfter ⟨object, c, weakBits⟩), ?_⟩
  unfold outcome nativeLoadStrongThenDestroy
  rw [bind_run hload, bind_run (nativeDestroy_run hvalue hentry (by omega) fun _ => hunowned)]
  rfl

theorem outcome_nativeTakeStrong_iff (h : s.LivesOn size) (hw : w ∈ s.initialized) :
    outcome (nativeTakeStrong w) s.memory = outcome (nativeLoadStrongThenDestroy w) s.memory ↔
      ¬ s.HoldsLast w := by
  refine ⟨fun houtcome hlast => ?_, fun hlast => ?_⟩
  · obtain ⟨m', htake⟩ := nativeTakeStrong_last h hlast
    obtain ⟨m'', hload⟩ := outcome_load_last h hlast
    rw [hload] at houtcome
    unfold outcome at houtcome
    rw [htake] at houtcome
    nomatch houtcome
  · cases hvalue : s.memory.nativeValue w with
    | none =>
      have htake : nativeTakeStrong w s.memory = (.ok none, s.memory.setNativeValue w none) := by
        show nativeTakeStrongFromBits (s.memory.nativeValue w) (s.memory.setNativeValue w none) = _
        rw [hvalue]
        rfl
      have hload : nativeLoadStrong w s.memory = (.ok none, s.memory) := by
        show nativeLoadStrongFromBits (s.memory.nativeValue w) s.memory = _
        rw [hvalue]
        rfl
      have hdestroy : nativeDestroy w s.memory = (.ok (), s.memory.setNativeValue w none) := by
        show destroyOldNativeBits (s.memory.nativeValue w) (s.memory.setNativeValue w none) = _
        rw [hvalue]
        rfl
      unfold outcome nativeLoadStrongThenDestroy
      rw [htake, bind_run hload, bind_run hdestroy]
      rfl
    | some object =>
      obtain ⟨entry, hentry⟩ := Held.exists_entry h hw hvalue
      have hlife := h.life object
      have hweak := weakCountOf_pos hw hvalue
      rw [hentry] at hlife
      obtain ⟨c, weakBits, rfl, hcases⟩ := hlife.of_entry
      apply outcome_nativeTakeStrong hvalue hentry
      obtain ⟨-, -, hbits⟩ | ⟨hobject, -, -, -, hbits, -⟩ := hcases
      · omega
      · have hne : weakCountOf s.initialized s.memory.nativeValue object ≠ 1 := by
          intro hone
          exact hlast ⟨object, hvalue, hobject, hone⟩
        omega

/-- In the states that clients reach, taking a weak variable is loading and then destroying it, and no operation
on weak variables uses a side table entry that is deleted, exactly as long as no last weak reference to a freed
object is taken. -/
theorem takeStrong_iff (h : Reachable size s) :
    (∀ w ∈ s.initialized,
      outcome (nativeTakeStrong w) s.memory = outcome (nativeLoadStrongThenDestroy w) s.memory ↔
        ¬ s.HoldsLast w) ∧
      ∀ op : Op, op.Allowed s →
        (op.perform size s = .error .deletedEntry ↔ ∃ w, op = .weakTakeStrong w ∧ s.HoldsLast w) :=
  ⟨fun _ hw => outcome_nativeTakeStrong_iff (reachable_livesOn h) hw,
    fun _ hop => perform_deletedEntry_iff (reachable_livesOn h) hop⟩

end Specs

/-! ## A last weak reference -/

namespace State

/-- The state after an operation, if it does not stop. -/
def next (size : PointerSize) (op : Op) (s : State) : State :=
  match op.perform size s with
  | .ok s' => s'
  | .error _ => s

def nextAll (size : PointerSize) : List Op → State → State
  | [], s => s
  | op :: ops, s => nextAll size ops (s.next size op)

/-- A weak variable refers to an object, and the object's only strong reference is released. -/
def lastReference : State :=
  nextAll .eight [.allocObject 0, .weakInit 0 (some 0), .release 0, .deallocObject 0] (start fun _ => Option.none)

end State

theorem Reachable.next {size : PointerSize} {s : State} (h : Reachable size s) (op : Op) (hop : op.Allowed s)
    (hperform : (op.perform size s).isOk = true) : Reachable size (s.next size op) := by
  cases hstep : op.perform size s with
  | error f =>
    rw [hstep] at hperform
    exact Bool.noConfusion hperform
  | ok s' =>
    have hnext : s.next size op = s' := by
      unfold State.next
      rw [hstep]
    rw [hnext]
    exact .step op h hop hstep

theorem lastReference_reachable : Reachable .eight State.lastReference :=
  ((((Reachable.start _).next (.allocObject 0) (by decide) rfl).next (.weakInit 0 (some 0)) (by decide) rfl).next
    (.release 0) (by decide) rfl).next (.deallocObject 0) (by decide) rfl

theorem lastReference_holdsLast : State.lastReference.HoldsLast 0 := ⟨0, rfl, rfl, rfl⟩

/-- The entry of a last weak reference is used after it is deleted. -/
theorem takeStrong_iff_lastReference :
    (Op.weakTakeStrong 0).perform .eight State.lastReference = .error .deletedEntry :=
  ((takeStrong_iff lastReference_reachable).2 (.weakTakeStrong 0) (by decide)).2
    ⟨0, rfl, lastReference_holdsLast⟩

theorem not_takeStrong :
    ¬ ∀ (size : PointerSize) (s : State), Reachable size s →
      (∀ w ∈ s.initialized,
        outcome (nativeTakeStrong w) s.memory = outcome (nativeLoadStrongThenDestroy w) s.memory) ∧
      ∀ op : Op, op.Allowed s → op.perform size s ≠ .error .deletedEntry := by
  intro hall
  have hop : (Op.weakTakeStrong 0).Allowed State.lastReference := by decide
  exact (hall .eight State.lastReference lastReference_reachable).2 (.weakTakeStrong 0) hop
    (perform_last (reachable_livesOn lastReference_reachable) lastReference_holdsLast)

end Lifecycle

end SwiftKStdlib.Runtime
