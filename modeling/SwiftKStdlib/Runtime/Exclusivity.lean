import SwiftKStdlib.Lib.LinkedList

/-!
# Dynamic exclusivity checking

* `Access` : a tracked access, with its action in the low bit of the link to the next one;
* `beginAccess`, `endAccess` : what they do to the memory, the access set of the thread and the count of reports;
* `State`, `step` : the calls of any number of threads, and the accesses in progress;
* `Tracks` : the access sets are the tracked accesses in progress, `reachable_tracks` : in every run;
* `accessSet_exact` : what the access sets hold, what is reported, and that every access is found;
* `stopsAtFatal_iff` : when a fatal conflict ends the execution.
-/

namespace SwiftKStdlib.Runtime.Exclusivity

open Lib

/-! ## Flags -/

namespace ExclusivityFlags

variable {w : Nat}

def read : BitVec w := 0x0#w

def modify : BitVec w := 0x1#w

def actionMask : BitVec w := 0x1#w

def warningOnly : BitVec w := 0x10#w

def getAccessAction (flags : BitVec w) : BitVec w := flags &&& actionMask

def isWarningOnly (flags : BitVec w) : Bool := flags &&& warningOnly != 0

end ExclusivityFlags

open ExclusivityFlags

/-! ## Accesses -/

structure Access (w : Nat) where
  pointer : BitVec w
  pc : BitVec w
  nextAndAction : BitVec w
  deriving DecidableEq, Repr

namespace Access

variable {w : Nat}

def nextMask : BitVec w := ~~~actionMask

def getNext (access : Access w) : BitVec w := access.nextAndAction &&& nextMask

def setNext (access : Access w) (next : BitVec w) : Access w :=
  { access with nextAndAction := next ||| (access.nextAndAction &&& actionMask) }

def getAccessAction (access : Access w) : BitVec w := access.nextAndAction &&& actionMask

def initialized (pc pointer next action : BitVec w) : Access w := ⟨pointer, pc, next ||| action⟩

end Access

abbrev Memory (w : Nat) : Type := BitVec w → Access w

inductive Failure where
  /-- A loop that does not end. -/
  | nonTermination
  | nullPointer
  | assertion
  /-- `swift_runtime_unreachable("access not found in set")`. -/
  | accessNotFound
  /-- `fatalError(0, "Fatal access conflict detected.\n")`. -/
  | fatalConflict
  deriving DecidableEq, Repr

/-! ## Reports -/

/-- The arguments of `reportExclusivityConflict`. -/
structure Report (w : Nat) where
  oldAction : BitVec w
  oldPC : BitVec w
  newFlags : BitVec w
  newPC : BitVec w
  pointer : BitVec w
  deriving DecidableEq, Repr

def maxReportedConflicts : Int := 100

/-- `reportExclusivityConflict`, with the count of all reports, a `long`. -/
def reportExclusivityConflict {w k : Nat} (reportedConflicts : BitVec k) (report : Report w) :
    Except Failure (BitVec k) :=
  let fetched := reportedConflicts
  let reportedConflicts := reportedConflicts + 1
  if maxReportedConflicts ≤ fetched.toInt then .ok reportedConflicts
  else
    let keepGoing := isWarningOnly report.newFlags
    if keepGoing then .ok reportedConflicts else .error .fatalConflict

/-! ## The access set of a thread -/

section AccessSet

variable {w k : Nat}

def rounds (w : Nat) : Nat := 2 ^ w

/-- The conflicting accesses, for the loop of `insert`. -/
def conflicts (memory : Memory w) (pointer action : BitVec w) (cur : BitVec w) : Bool :=
  if (memory cur).pointer ≠ pointer then false
  else if action = read ∧ action = (memory cur).getAccessAction then false
  else true

/-- What `insert` leaves, and what it has reported. -/
structure Inserted (w k : Nat) where
  memory : Memory w
  head : BitVec w
  reportedConflicts : BitVec k
  report : Option (Report w)

/-- `AccessSet::insert` after its loop, which has found a conflicting access or none. -/
def insertAfter (memory : Memory w) (head : BitVec w) (reportedConflicts : BitVec k)
    (access pc pointer flags : BitVec w) (found : Option (BitVec w)) : Except Failure (Inserted w k) :=
  let memory' := Function.update memory access (.initialized pc pointer head (ExclusivityFlags.getAccessAction flags))
  match found with
  | none => .ok ⟨memory', access, reportedConflicts, none⟩
  | some cur => do
    let report : Report w := ⟨(memory cur).getAccessAction, (memory cur).pc, flags, pc, pointer⟩
    let reportedConflicts ← reportExclusivityConflict reportedConflicts report
    return ⟨memory', access, reportedConflicts, some report⟩

/-- `AccessSet::insert`. -/
def insert (memory : Memory w) (head : BitVec w) (reportedConflicts : BitVec k) (access pc pointer flags : BitVec w) :
    Except Failure (Inserted w k) :=
  let stop := conflicts memory pointer (ExclusivityFlags.getAccessAction flags)
  match LinkedList.search (fun cur => (memory cur).getNext) 0 stop (rounds w) head with
  | none => .error .nonTermination
  | some found => insertAfter memory head reportedConflicts access pc pointer flags found

/-- The loop of `remove`. -/
def removeAfter (memory : Memory w) (access : BitVec w) : Nat → BitVec w → BitVec w → Except Failure (Memory w)
  | 0, _, _ => .error .nonTermination
  | fuel + 1, last, cur =>
    if cur = 0 then .error .accessNotFound
    else if (memory last).getNext ≠ cur then .error .assertion
    else if cur = access then .ok (Function.update memory last ((memory last).setNext (memory cur).getNext))
    else removeAfter memory access fuel cur (memory cur).getNext

/-- `AccessSet::remove`, with the new head. -/
def remove (memory : Memory w) (head access : BitVec w) : Except Failure (Memory w × BitVec w) :=
  let cur := head
  if cur = 0 then .error .nullPointer
  else if cur = access then .ok (memory, (memory cur).getNext)
  else do
    let memory ← removeAfter memory access (rounds w) cur (memory cur).getNext
    return (memory, head)

/-- `swift_beginAccess`; `returnAddress` is that of the call. -/
def beginAccess (disableExclusivityChecking : Bool) (memory : Memory w) (head : BitVec w)
    (reportedConflicts : BitVec k) (pointer buffer flags pc returnAddress : BitVec w) : Except Failure (Inserted w k) :=
  if pointer = 0 then .error .assertion
  else if disableExclusivityChecking then
    .ok ⟨Function.update memory buffer { memory buffer with pointer := 0 }, head, reportedConflicts, none⟩
  else
    let pc := if pc = 0 then returnAddress else pc
    insert memory head reportedConflicts buffer pc pointer flags

/-- `swift_endAccess`. -/
def endAccess (memory : Memory w) (head buffer : BitVec w) : Except Failure (Memory w × BitVec w) :=
  let pointer := (memory buffer).pointer
  if pointer = 0 then .ok (memory, head) else remove memory head buffer

end AccessSet

/-! ## The low bit of a link -/

section Links

variable {w k : Nat} {next x flags : BitVec w}

theorem and_eq_zero_iff : next &&& x = 0 ↔ ∀ i, next.getLsbD i = true → x.getLsbD i = false := by
  refine ⟨fun h i hi => ?_, fun h => ?_⟩
  · have hbit := congrArg (·.getLsbD i) h
    simpa [hi] using hbit
  · apply BitVec.eq_of_getLsbD_eq
    intro i _
    cases hi : next.getLsbD i with
    | false => simp [hi]
    | true => simp [hi, h i hi]

theorem or_and_not_mask (hnext : next &&& actionMask = 0) :
    (next ||| (x &&& actionMask)) &&& Access.nextMask = next := by
  rw [and_eq_zero_iff] at hnext
  apply BitVec.eq_of_getLsbD_eq
  intro i hi
  cases hbit : next.getLsbD i with
  | false => cases hmask : (actionMask : BitVec w).getLsbD i <;> simp [Access.nextMask, hbit, hmask]
  | true =>
    rw [BitVec.getLsbD_and, BitVec.getLsbD_or, hbit, Bool.true_or, Access.nextMask, BitVec.getLsbD_not, hnext i hbit]
    simp [hi]

theorem or_and_mask (hnext : next &&& actionMask = 0) :
    (next ||| (x &&& actionMask)) &&& actionMask = x &&& actionMask := by
  rw [and_eq_zero_iff] at hnext
  apply BitVec.eq_of_getLsbD_eq
  intro i hi
  cases hbit : next.getLsbD i with
  | false => simp [hbit]
  | true => rw [BitVec.getLsbD_and, BitVec.getLsbD_and, hnext i hbit, Bool.and_false, Bool.and_false]

theorem getNext_and_mask (a : Access w) : a.getNext &&& actionMask = 0 := by
  apply BitVec.eq_of_getLsbD_eq
  intro i hi
  cases hmask : (actionMask : BitVec w).getLsbD i <;> simp [Access.getNext, Access.nextMask, hmask]

theorem getNext_initialized (pc pointer : BitVec w) (hnext : next &&& actionMask = 0) :
    (Access.initialized pc pointer next (ExclusivityFlags.getAccessAction flags)).getNext = next :=
  or_and_not_mask hnext

theorem getAccessAction_initialized (pc pointer : BitVec w) (hnext : next &&& actionMask = 0) :
    (Access.initialized pc pointer next (ExclusivityFlags.getAccessAction flags)).getAccessAction =
      ExclusivityFlags.getAccessAction flags :=
  or_and_mask hnext

theorem getNext_setNext (a : Access w) (hnext : next &&& actionMask = 0) : (a.setNext next).getNext = next :=
  or_and_not_mask hnext

theorem getAccessAction_setNext (a : Access w) (hnext : next &&& actionMask = 0) :
    (a.setNext next).getAccessAction = a.getAccessAction :=
  or_and_mask hnext

theorem read_or_modify (flags : BitVec w) :
    ExclusivityFlags.getAccessAction flags = read ∨ ExclusivityFlags.getAccessAction flags = modify := by
  have hbits (i : Nat) : (ExclusivityFlags.getAccessAction flags).getLsbD i =
      (flags.getLsbD 0 && (modify : BitVec w).getLsbD i) := by
    rw [ExclusivityFlags.getAccessAction, BitVec.getLsbD_and, actionMask, ExclusivityFlags.modify, BitVec.getLsbD_one]
    by_cases hi : i = 0 <;> simp [hi]
  cases hlow : flags.getLsbD 0 with
  | false => exact .inl (BitVec.eq_of_getLsbD_eq fun i _ => by simp [hbits, hlow, ExclusivityFlags.read])
  | true => exact .inr (BitVec.eq_of_getLsbD_eq fun i _ => by simp [hbits, hlow])

end Links

/-! ## What the access set of a thread does -/

section Operations

variable {w k : Nat} {memory : Memory w} {head access : BitVec w} {l : List (BitVec w)}

/-- The buffers from `head` on. -/
abbrev Linked (memory : Memory w) (head : BitVec w) (l : List (BitVec w)) : Prop :=
  LinkedList.Segment (fun p => (memory p).getNext) 0 head l 0

theorem length_lt_rounds (h : Linked memory head l) (hnodup : l.Nodup) : l.length < rounds w := by
  have hzero : (0 :: l).Nodup := List.nodup_cons.2 ⟨fun hmem => h.ne_null 0 hmem rfl, hnodup⟩
  have hcard := (hzero.map fun _ _ h => BitVec.eq_of_toNat_eq (congrArg Fin.val h) : ((0 :: l).map BitVec.toFin).Nodup).length_le_card
  rw [Fintype.card_fin, List.length_map, List.length_cons] at hcard
  exact hcard

theorem find_conflicts (pointer action : BitVec w) (l : List (BitVec w)) :
    (l.find? (conflicts memory pointer action)).isSome ↔
      ∃ cur ∈ l, (memory cur).pointer = pointer ∧ ¬ (action = read ∧ (memory cur).getAccessAction = read) := by
  rw [List.find?_isSome]
  refine exists_congr fun cur => and_congr_right fun _ => ?_
  unfold conflicts
  split_ifs with hpointer hread
  · exact iff_of_false id fun h => hpointer h.1
  · exact iff_of_false id fun h => h.2 ⟨hread.1, hread.2 ▸ hread.1⟩
  · exact iff_of_true rfl ⟨not_not.1 hpointer, fun h => hread ⟨h.1, h.1.trans h.2.symm⟩⟩

theorem insert_eq (h : Linked memory head l) (hnodup : l.Nodup) (reportedConflicts : BitVec k)
    (pc pointer flags : BitVec w) :
    insert memory head reportedConflicts access pc pointer flags =
      insertAfter memory head reportedConflicts access pc pointer flags
        (l.find? (conflicts memory pointer (ExclusivityFlags.getAccessAction flags))) := by
  unfold insert
  dsimp only
  rw [LinkedList.search_eq _ h (length_lt_rounds h hnodup)]

theorem removeAfter_eq (fuel : Nat) (last : BitVec w) {cur : BitVec w} (h : Linked memory cur l)
    (hlast : (memory last).getNext = cur)
    (hmem : access ∈ l) (hfuel : l.length < fuel) :
    ∃ front before back, last :: l = front ++ before :: access :: back ∧
      removeAfter memory access fuel last cur =
        .ok (Function.update memory before ((memory before).setNext (memory access).getNext)) := by
  induction l generalizing fuel last cur with
  | nil => exact absurd hmem List.not_mem_nil
  | cons a l ih =>
    obtain ⟨rfl, hnull, hrest⟩ := h
    obtain ⟨fuel, rfl⟩ : ∃ n, fuel = n + 1 := ⟨fuel - 1, by simp at hfuel; omega⟩
    rw [removeAfter, if_neg hnull, if_neg (not_not.2 hlast)]
    by_cases haccess : cur = access
    · rw [if_pos haccess, haccess]
      exact ⟨[], last, l, rfl, rfl⟩
    · have hmem' : access ∈ l := (List.mem_cons.1 hmem).resolve_left (Ne.symm haccess)
      obtain ⟨front, before, back, heq, hok⟩ := ih _ _ hrest rfl hmem' (by simpa using hfuel)
      rw [if_neg haccess]
      exact ⟨last :: front, before, back, congrArg (last :: ·) heq, hok⟩

theorem next_update_setNext (before : BitVec w) :
    (fun p => (Function.update memory before ((memory before).setNext (memory access).getNext) p).getNext) =
      Function.update (fun p => (memory p).getNext) before (memory access).getNext := by
  funext p
  by_cases hp : p = before
  · rw [hp, Function.update_self, Function.update_self, getNext_setNext _ (getNext_and_mask _)]
  · rw [Function.update_of_ne hp, Function.update_of_ne hp]

theorem filter_middle {before : BitVec w} {front back : List (BitVec w)}
    (hnodup : (front ++ before :: access :: back).Nodup) :
    (front ++ before :: access :: back).filter (· ≠ access) = front ++ before :: back := by
  have hmiddle : (front ++ before :: access :: back) = (front ++ [before]) ++ access :: back := by simp
  rw [hmiddle] at hnodup
  obtain ⟨hfront, hback⟩ := List.nodup_cons.1 (List.nodup_middle.1 hnodup)
  have hne : ∀ b ∈ (front ++ [before]) ++ back, b ≠ access := fun b hb heq => hfront (heq ▸ hb)
  rw [hmiddle, List.filter_append, List.filter_cons_of_neg (by simp), ← List.filter_append,
    List.filter_eq_self.2 fun b hb => decide_eq_true (hne b hb)]
  simp

/-- What is known after `remove`: the access is found, and only links of the others change. -/
structure Removed (memory : Memory w) (l : List (BitVec w)) (access : BitVec w) (memory' : Memory w)
    (head' : BitVec w) : Prop where
  linked : Linked memory' head' (l.filter (· ≠ access))
  frame : ∀ p, p ∉ l → memory' p = memory p
  pointer : ∀ p, (memory' p).pointer = (memory p).pointer
  action : ∀ p, (memory' p).getAccessAction = (memory p).getAccessAction

theorem remove_spec (h : Linked memory head l) (hnodup : l.Nodup) (hmem : access ∈ l) :
    ∃ memory' head', remove memory head access = .ok (memory', head') ∧ Removed memory l access memory' head' := by
  cases l with
  | nil => exact absurd hmem List.not_mem_nil
  | cons a l =>
    have hlen := length_lt_rounds h hnodup
    obtain ⟨rfl, hnull, hrest⟩ := h
    unfold remove
    dsimp only
    rw [if_neg hnull]
    by_cases haccess : head = access
    · rw [if_pos haccess]
      refine ⟨_, _, rfl, ?_, fun _ _ => rfl, fun _ => rfl, fun _ => rfl⟩
      have hnot : ∀ b ∈ l, b ≠ access := fun b hb heq =>
        (List.nodup_cons.1 hnodup).1 (haccess.trans heq.symm ▸ hb)
      rw [List.filter_cons_of_neg (by simpa using haccess), List.filter_eq_self.2 fun b hb => decide_eq_true (hnot b hb)]
      exact hrest
    · have hmem' : access ∈ l := (List.mem_cons.1 hmem).resolve_left (Ne.symm haccess)
      obtain ⟨front, before, back, heq, hok⟩ := removeAfter_eq (rounds w) head hrest rfl hmem'
        (by simp at hlen; omega)
      rw [if_neg haccess, hok]
      refine ⟨_, _, rfl, ?_, ?_, ?_, ?_⟩
      · rw [heq, filter_middle (heq ▸ hnodup), Linked, next_update_setNext]
        exact LinkedList.Segment.unlink (heq ▸ ⟨rfl, hnull, hrest⟩) (heq ▸ hnodup)
      · intro p hp
        refine Function.update_of_ne (fun hbefore => hp ?_) _ _
        rw [hbefore, heq]
        exact List.mem_append_right _ List.mem_cons_self
      · intro p
        by_cases hp : p = before
        · rw [hp, Function.update_self]
          rfl
        · rw [Function.update_of_ne hp]
      · intro p
        by_cases hp : p = before
        · rw [hp, Function.update_self, getAccessAction_setNext _ (getNext_and_mask _)]
        · rw [Function.update_of_ne hp]

end Operations

/-! ## Runs -/

/-- An access that has begun and not ended. -/
structure InProgress (T : Type) (w : Nat) where
  thread : T
  buffer : BitVec w
  pointer : BitVec w
  action : BitVec w
  /-- Whether it has begun with checking enabled. -/
  tracked : Bool

structure State (T : Type) (w k : Nat) where
  memory : Memory w
  /-- The access set of each thread. -/
  head : T → BitVec w
  reportedConflicts : BitVec k
  /-- The most recent first. -/
  inProgress : List (InProgress T w)

inductive Call (T : Type) (w : Nat) where
  | beginAccess (thread : T) (disableExclusivityChecking : Bool) (pointer buffer flags pc returnAddress : BitVec w)
  | endAccess (thread : T) (buffer : BitVec w)
  /-- The program uses memory for something else. -/
  | write (buffer : BitVec w) (access : Access w)

variable {T : Type} [DecidableEq T] {w k : Nat}

/-- The state after a call, and what the call has reported. -/
def step (s : State T w k) : Call T w → Except Failure (State T w k × Option (Report w))
  | .beginAccess thread disable pointer buffer flags pc returnAddress => do
    let r ← beginAccess disable s.memory (s.head thread) s.reportedConflicts pointer buffer flags pc returnAddress
    return (⟨r.memory, Function.update s.head thread r.head, r.reportedConflicts,
      ⟨thread, buffer, pointer, getAccessAction flags, !disable⟩ :: s.inProgress⟩, r.report)
  | .endAccess thread buffer => do
    let (memory, head) ← endAccess s.memory (s.head thread) buffer
    return (⟨memory, Function.update s.head thread head, s.reportedConflicts,
      s.inProgress.filter (·.buffer ≠ buffer)⟩, none)
  | .write buffer access => .ok ({ s with memory := Function.update s.memory buffer access }, none)

/-- The calls that a program makes: on a buffer that is not in use, which is aligned, and to end what is in progress. -/
def Legal (s : State T w k) : Call T w → Prop
  | .beginAccess _ _ pointer buffer _ _ _ =>
    pointer ≠ 0 ∧ buffer ≠ 0 ∧ buffer &&& actionMask = 0 ∧ ∀ a ∈ s.inProgress, a.buffer ≠ buffer
  | .endAccess thread buffer => ∃ a ∈ s.inProgress, a.thread = thread ∧ a.buffer = buffer
  | .write buffer _ => ∀ a ∈ s.inProgress, a.buffer ≠ buffer

def initial (memory : Memory w) : State T w k := ⟨memory, fun _ => 0, 0, []⟩

/-- The states that execution comes to. -/
inductive Reachable : State T w k → Prop
  | initial (memory : Memory w) : Reachable (initial memory)
  | step {s s' : State T w k} {c : Call T w} {report : Option (Report w)} (h : Reachable s) (hlegal : Legal s c)
      (hstep : step s c = .ok (s', report)) : Reachable s'

/-! ## The access sets are the accesses in progress -/

namespace State

def trackedAccesses (s : State T w k) (t : T) : List (InProgress T w) :=
  s.inProgress.filter fun a => decide (a.thread = t) && a.tracked

def accessSet (s : State T w k) (t : T) : Option (List (BitVec w)) :=
  LinkedList.toList (fun p => (s.memory p).getNext) 0 (rounds w) (s.head t)

end State

/-- What a buffer holds while its access is in progress. -/
structure Holds (memory : Memory w) (a : InProgress T w) : Prop where
  buffer_ne : a.buffer ≠ 0
  aligned : a.buffer &&& actionMask = 0
  pointer : a.tracked = true → a.pointer ≠ 0 ∧ (memory a.buffer).pointer = a.pointer
  action : a.tracked = true → (memory a.buffer).getAccessAction = a.action
  /-- Checking was disabled. -/
  untracked : a.tracked = false → (memory a.buffer).pointer = 0
  actions : a.action = read ∨ a.action = modify

structure Tracks (s : State T w k) : Prop where
  nodup : (s.inProgress.map (·.buffer)).Nodup
  holds : ∀ a ∈ s.inProgress, Holds s.memory a
  linked : ∀ t, Linked s.memory (s.head t) ((s.trackedAccesses t).map (·.buffer))

section Preservation

variable {s s' : State T w k} {t : T}

omit [DecidableEq T] in
theorem Holds.congr {memory memory' : Memory w} {a : InProgress T w} (h : Holds memory a)
    (hpointer : (memory' a.buffer).pointer = (memory a.buffer).pointer)
    (haction : (memory' a.buffer).getAccessAction = (memory a.buffer).getAccessAction) : Holds memory' a :=
  ⟨h.buffer_ne, h.aligned, fun ht => hpointer ▸ h.pointer ht, fun ht => haction ▸ h.action ht,
    fun ht => hpointer ▸ h.untracked ht, h.actions⟩

namespace Tracks

theorem initial (memory : Memory w) : Tracks (Exclusivity.initial memory : State T w k) :=
  ⟨List.nodup_nil, fun _ ha => absurd ha List.not_mem_nil, fun _ => rfl⟩

theorem nodup_tracked (h : Tracks s) (t : T) : ((s.trackedAccesses t).map (·.buffer)).Nodup :=
  h.nodup.sublist (List.filter_sublist.map _)

theorem mem_tracked {b : BitVec w} (hb : b ∈ (s.trackedAccesses t).map (·.buffer)) :
    ∃ a ∈ s.inProgress, a.thread = t ∧ a.tracked = true ∧ a.buffer = b := by
  obtain ⟨a, ha, rfl⟩ := List.mem_map.1 hb
  obtain ⟨hmem, hkind⟩ := List.mem_filter.1 ha
  rw [Bool.and_eq_true, decide_eq_true_iff] at hkind
  exact ⟨a, hmem, hkind.1, hkind.2, rfl⟩

theorem eq_of_buffer (h : Tracks s) {a b : InProgress T w} (ha : a ∈ s.inProgress) (hb : b ∈ s.inProgress)
    (heq : a.buffer = b.buffer) : a = b :=
  List.inj_on_of_nodup_map h.nodup ha hb heq

theorem aligned_head (h : Tracks s) (t : T) : s.head t &&& actionMask = 0 := by
  have hlinked := h.linked t
  cases hl : (s.trackedAccesses t).map (·.buffer) with
  | nil =>
    rw [hl] at hlinked
    rw [show s.head t = 0 from hlinked]
    exact BitVec.zero_and
  | cons b l =>
    rw [hl] at hlinked
    obtain ⟨a, ha, -, -, hb⟩ := mem_tracked (t := t) (s := s) (b := b) (by rw [hl]; exact List.mem_cons_self)
    rw [hlinked.1, ← hb]
    exact (h.holds a ha).aligned

theorem of_memory {memory : Memory w} (h : Tracks s) (hsame : ∀ a ∈ s.inProgress, memory a.buffer = s.memory a.buffer) :
    Tracks { s with memory := memory } where
  nodup := h.nodup
  holds a ha := (h.holds a ha).congr (congrArg Access.pointer (hsame a ha)) (congrArg Access.getAccessAction (hsame a ha))
  linked t := (h.linked t).congr fun b hb => by
    obtain ⟨a, ha, -, -, rfl⟩ := mem_tracked hb
    exact congrArg Access.getNext (hsame a ha)

theorem cons (h : Tracks s) {a : InProgress T w} (hfresh : ∀ b ∈ s.inProgress, b.buffer ≠ a.buffer)
    (ha : Holds s.memory a) (hnext : a.tracked = true → (s.memory a.buffer).getNext = s.head a.thread)
    (reportedConflicts : BitVec k) :
    Tracks (⟨s.memory, Function.update s.head a.thread (if a.tracked then a.buffer else s.head a.thread),
      reportedConflicts, a :: s.inProgress⟩ : State T w k) where
  nodup := List.nodup_cons.2 ⟨fun hmem => by
    obtain ⟨b, hb, heq⟩ := List.mem_map.1 hmem
    exact hfresh b hb heq, h.nodup⟩
  holds b hb := by
    rcases List.mem_cons.1 hb with rfl | hb
    · exact ha
    · exact h.holds b hb
  linked t := by
    have hlinked := h.linked t
    unfold State.trackedAccesses at hlinked ⊢
    dsimp only
    by_cases ht : t = a.thread
    · subst ht
      rw [Function.update_self]
      cases htracked : a.tracked with
      | false =>
        rw [List.filter_cons_of_neg (by simp [htracked]), if_neg Bool.false_ne_true]
        exact hlinked
      | true =>
        rw [List.filter_cons_of_pos (by simp [htracked]), if_pos rfl]
        refine ⟨rfl, ha.buffer_ne, ?_⟩
        dsimp only
        rw [hnext htracked]
        exact hlinked
    · rw [Function.update_of_ne ht, List.filter_cons_of_neg (by simp [Ne.symm ht])]
      exact hlinked

theorem endAccess (h : Tracks s) {a : InProgress T w} (ha : a ∈ s.inProgress) {memory : Memory w} {head : BitVec w}
    (hremoved : Removed s.memory ((s.trackedAccesses a.thread).map (·.buffer)) a.buffer memory head) :
    Tracks (⟨memory, Function.update s.head a.thread head, s.reportedConflicts,
      s.inProgress.filter (·.buffer ≠ a.buffer)⟩ : State T w k) where
  nodup := h.nodup.sublist (List.filter_sublist.map _)
  holds b hb := (h.holds b (List.mem_filter.1 hb).1).congr (hremoved.pointer _) (hremoved.action _)
  linked t := by
    have hcomm : (State.trackedAccesses (⟨memory, Function.update s.head a.thread head, s.reportedConflicts,
        s.inProgress.filter (·.buffer ≠ a.buffer)⟩ : State T w k) t).map (·.buffer) =
          ((s.trackedAccesses t).map (·.buffer)).filter (· ≠ a.buffer) := by
      unfold State.trackedAccesses
      rw [List.filter_comm, List.filter_map]
      rfl
    rw [hcomm]
    by_cases ht : t = a.thread
    · subst ht
      dsimp only
      rw [Function.update_self]
      exact hremoved.linked
    · have hother : ∀ b ∈ (s.trackedAccesses t).map (·.buffer), b ∉ (s.trackedAccesses a.thread).map (·.buffer) := by
        intro b hb hb'
        obtain ⟨c, hc, hct, -, rfl⟩ := mem_tracked hb
        obtain ⟨d, hd, hdt, -, hdc⟩ := mem_tracked hb'
        exact ht (hct.symm.trans (h.eq_of_buffer hc hd hdc.symm ▸ hdt))
      have hne : ∀ b ∈ (s.trackedAccesses t).map (·.buffer), b ≠ a.buffer := by
        intro b hb
        obtain ⟨c, hc, hct, -, rfl⟩ := mem_tracked hb
        intro heq
        exact ht (hct.symm.trans (congrArg InProgress.thread (h.eq_of_buffer hc ha heq)))
      dsimp only
      rw [Function.update_of_ne ht, List.filter_eq_self.2 fun b hb => decide_eq_true (hne b hb)]
      exact (h.linked t).congr fun b hb => by rw [hremoved.frame b (hother b hb)]

theorem endAccess_spec (h : Tracks s) {a : InProgress T w} (ha : a ∈ s.inProgress) :
    ∃ memory head, Exclusivity.endAccess s.memory (s.head a.thread) a.buffer = .ok (memory, head) ∧
      Removed s.memory ((s.trackedAccesses a.thread).map (·.buffer)) a.buffer memory head := by
  have hholds := h.holds a ha
  have hlinked := h.linked a.thread
  unfold Exclusivity.endAccess
  dsimp only
  cases htracked : a.tracked with
  | false =>
    rw [if_pos (hholds.untracked htracked)]
    have hne : ∀ b ∈ (s.trackedAccesses a.thread).map (·.buffer), b ≠ a.buffer := by
      intro b hb heq
      obtain ⟨c, hc, -, hctracked, hcb⟩ := mem_tracked hb
      rw [h.eq_of_buffer hc ha (hcb.trans heq), htracked] at hctracked
      exact Bool.false_ne_true hctracked
    refine ⟨_, _, rfl, ?_, fun _ _ => rfl, fun _ => rfl, fun _ => rfl⟩
    rw [List.filter_eq_self.2 fun b hb => decide_eq_true (hne b hb)]
    exact hlinked
  | true =>
    obtain ⟨hne, hpointer⟩ := hholds.pointer htracked
    rw [if_neg (hpointer ▸ hne)]
    have hmem : a.buffer ∈ (s.trackedAccesses a.thread).map (·.buffer) :=
      List.mem_map_of_mem (List.mem_filter.2 ⟨ha, by simp [htracked]⟩)
    exact remove_spec hlinked (h.nodup_tracked a.thread) hmem

end Tracks

theorem exists_ok_of_bind {α β : Type} {x : Except Failure α} {f : α → Except Failure β} {b : β} (h : x >>= f = .ok b) :
    ∃ a, x = .ok a ∧ f a = .ok b := by
  cases x with
  | error e => cases h
  | ok a => exact ⟨a, rfl, h⟩

theorem insertAfter_ok {memory : Memory w} {head access pc pointer flags : BitVec w} {reportedConflicts : BitVec k}
    {found : Option (BitVec w)} {r : Inserted w k}
    (h : insertAfter memory head reportedConflicts access pc pointer flags found = .ok r) :
    r.memory = Function.update memory access
        (.initialized pc pointer head (ExclusivityFlags.getAccessAction flags)) ∧ r.head = access := by
  cases found with
  | none =>
    cases h
    exact ⟨rfl, rfl⟩
  | some cur =>
    obtain ⟨reportedConflicts', -, hr⟩ := exists_ok_of_bind h
    cases hr
    exact ⟨rfl, rfl⟩

theorem insert_ok {memory : Memory w} {head access pc pointer flags : BitVec w} {reportedConflicts : BitVec k}
    {r : Inserted w k} (h : insert memory head reportedConflicts access pc pointer flags = .ok r) :
    r.memory = Function.update memory access
        (.initialized pc pointer head (ExclusivityFlags.getAccessAction flags)) ∧ r.head = access := by
  unfold insert at h
  dsimp only at h
  split at h
  · cases h
  · exact insertAfter_ok h

theorem beginAccess_ok {disable : Bool} {memory : Memory w} {head pointer buffer flags pc returnAddress : BitVec w}
    {reportedConflicts : BitVec k} {r : Inserted w k}
    (h : beginAccess disable memory head reportedConflicts pointer buffer flags pc returnAddress = .ok r) :
    if disable then
      r.memory = Function.update memory buffer { memory buffer with pointer := 0 } ∧ r.head = head
    else ∃ pc, r.memory = Function.update memory buffer
      (.initialized pc pointer head (ExclusivityFlags.getAccessAction flags)) ∧ r.head = buffer := by
  unfold beginAccess at h
  split_ifs at h ⊢ with hnull hdisable
  · cases h
    exact ⟨rfl, rfl⟩
  · exact ⟨_, insert_ok h⟩
  · exact ⟨_, insert_ok h⟩

omit [DecidableEq T] in
theorem update_fresh {memory : Memory w} {buffer : BitVec w} {x : Access w} {l : List (InProgress T w)}
    (hfresh : ∀ a ∈ l, a.buffer ≠ buffer) : ∀ a ∈ l, Function.update memory buffer x a.buffer = memory a.buffer :=
  fun a ha => Function.update_of_ne (hfresh a ha) _ _

namespace Tracks

theorem beginAccess (h : Tracks s) {thread : T} {disable : Bool} {pointer buffer flags pc returnAddress : BitVec w}
    {r : Inserted w k} (hpointer : pointer ≠ 0) (hbuffer : buffer ≠ 0) (haligned : buffer &&& actionMask = 0)
    (hfresh : ∀ a ∈ s.inProgress, a.buffer ≠ buffer)
    (hok : Exclusivity.beginAccess disable s.memory (s.head thread) s.reportedConflicts pointer buffer flags pc
      returnAddress = .ok r) :
    Tracks (⟨r.memory, Function.update s.head thread r.head, r.reportedConflicts,
      ⟨thread, buffer, pointer, ExclusivityFlags.getAccessAction flags, !disable⟩ :: s.inProgress⟩ : State T w k) := by
  have hresult := beginAccess_ok hok
  have hhead := h.aligned_head thread
  clear hok
  obtain ⟨memory, head, reportedConflicts, report⟩ := r
  dsimp only at hresult ⊢
  cases disable with
  | true =>
    obtain ⟨rfl, rfl⟩ := hresult
    have hmemory := h.of_memory (update_fresh (x := { s.memory buffer with pointer := 0 }) hfresh)
    refine hmemory.cons (a := ⟨thread, buffer, pointer, _, false⟩) hfresh ?_ (fun ht => absurd ht Bool.false_ne_true) _
    exact ⟨hbuffer, haligned, fun ht => absurd ht Bool.false_ne_true, fun ht => absurd ht Bool.false_ne_true,
      fun _ => congrArg Access.pointer (Function.update_self buffer _ s.memory), read_or_modify flags⟩
  | false =>
    obtain ⟨pc, rfl, rfl⟩ := hresult
    have hself := Function.update_self head
      (Access.initialized pc pointer (s.head thread) (ExclusivityFlags.getAccessAction flags)) s.memory
    have hmemory := h.of_memory (update_fresh (x :=
      Access.initialized pc pointer (s.head thread) (ExclusivityFlags.getAccessAction flags)) hfresh)
    refine hmemory.cons (a := ⟨thread, head, pointer, _, true⟩) hfresh ?_ (fun _ => ?_) _
    · exact ⟨hbuffer, haligned, fun _ => ⟨hpointer, congrArg Access.pointer hself⟩,
        fun _ => (congrArg Access.getAccessAction hself).trans (getAccessAction_initialized pc pointer hhead),
        fun ht => absurd ht.symm Bool.false_ne_true, read_or_modify flags⟩
    · exact (congrArg Access.getNext hself).trans (getNext_initialized pc pointer hhead)

theorem step {c : Call T w} {report : Option (Report w)} (h : Tracks s) (hlegal : Legal s c)
    (hstep : Exclusivity.step s c = .ok (s', report)) : Tracks s' := by
  cases c with
  | beginAccess thread disable pointer buffer flags pc returnAddress =>
    obtain ⟨hpointer, hbuffer, haligned, hfresh⟩ := hlegal
    obtain ⟨r, hr, heq⟩ := exists_ok_of_bind hstep
    cases heq
    exact h.beginAccess hpointer hbuffer haligned hfresh hr
  | endAccess thread buffer =>
    obtain ⟨a, ha, rfl, rfl⟩ := hlegal
    obtain ⟨memory, head, hend, hremoved⟩ := h.endAccess_spec ha
    obtain ⟨r, hr, heq⟩ := exists_ok_of_bind hstep
    rw [hend] at hr
    cases hr
    cases heq
    exact h.endAccess ha hremoved
  | write buffer access =>
    cases hstep
    exact h.of_memory (update_fresh hlegal)

end Tracks

theorem reachable_tracks (h : Reachable s) : Tracks s := by
  induction h with
  | initial memory => exact .initial memory
  | step _ hlegal hstep ih => exact ih.step hlegal hstep

end Preservation

/-! ## What is reported -/

section Reporting

variable {s s' : State T w k} {t : T}

def Conflicts (s : State T w k) (t : T) (pointer flags : BitVec w) : Prop :=
  ∃ a ∈ s.trackedAccesses t,
    a.pointer = pointer ∧ (a.action = modify ∨ ExclusivityFlags.getAccessAction flags = modify)

/-- `reportExclusivityConflict` has been called. -/
def Reports (r : Except Failure (State T w k × Option (Report w))) : Prop :=
  r = .error .fatalConflict ∨ ∃ s' report, r = .ok (s', some report)

theorem modify_ne_read {buffer : BitVec w} (hbuffer : buffer ≠ 0) : (modify : BitVec w) ≠ read := by
  intro heq
  have hone : (1#w).toNat = (0#w).toNat := congrArg BitVec.toNat heq
  have hw : w ≠ 0 := by
    rintro rfl
    exact hbuffer (Subsingleton.elim _ _)
  rw [BitVec.toNat_ofNat, BitVec.toNat_ofNat, Nat.one_mod_two_pow (Nat.pos_of_ne_zero hw), Nat.zero_mod] at hone
  exact absurd hone one_ne_zero

theorem conflicts_iff (h : Tracks s) {buffer : BitVec w} (hbuffer : buffer ≠ 0) (t : T) (pointer flags : BitVec w) :
    (((s.trackedAccesses t).map (·.buffer)).find?
      (conflicts s.memory pointer (ExclusivityFlags.getAccessAction flags))).isSome ↔ Conflicts s t pointer flags := by
  have hne := modify_ne_read hbuffer
  have hflags := read_or_modify flags
  rw [find_conflicts]
  simp only [List.mem_map, exists_exists_and_eq_and]
  refine exists_congr fun a => and_congr_right fun ha => ?_
  obtain ⟨hmem, hkind⟩ := List.mem_filter.1 ha
  have htracked : a.tracked = true := (Bool.and_eq_true _ _ ▸ hkind).2
  have hholds := h.holds a hmem
  have hactions := hholds.actions
  rw [(hholds.pointer htracked).2, hholds.action htracked]
  refine and_congr_right fun _ => ?_
  rcases hflags with hf | hf <;> rcases hactions with ha | ha <;> simp [hf, ha, hne, Ne.symm hne]

/-- With these flags, and after this many reports, a conflict ends the execution. -/
def EndsExecution (reportedConflicts : BitVec k) (flags : BitVec w) : Prop :=
  isWarningOnly flags = false ∧ reportedConflicts.toInt < maxReportedConflicts

def counted (reportedConflicts : BitVec k) (report : Option (Report w)) : BitVec k :=
  if report.isSome then reportedConflicts + 1 else reportedConflicts

theorem insertAfter_cases (memory : Memory w) (head : BitVec w) (reportedConflicts : BitVec k)
    (access pc pointer flags : BitVec w) (found : Option (BitVec w)) :
    let r := insertAfter memory head reportedConflicts access pc pointer flags found
    r = .error .fatalConflict ∧ found.isSome = true ∧ EndsExecution reportedConflicts flags ∨
      ∃ i, r = .ok i ∧ i.report.isSome = found.isSome ∧ i.reportedConflicts = counted reportedConflicts i.report ∧
        ¬ (found.isSome = true ∧ EndsExecution reportedConflicts flags) := by
  dsimp only
  cases found with
  | none => exact .inr ⟨_, rfl, rfl, rfl, fun h => absurd h.1 Bool.false_ne_true⟩
  | some cur =>
    unfold insertAfter reportExclusivityConflict
    dsimp only
    split_ifs with hmax hwarning
    · exact .inr ⟨_, rfl, rfl, rfl, fun h => absurd h.2.2 (not_lt.2 hmax)⟩
    · exact .inr ⟨_, rfl, rfl, rfl, fun h => absurd (h.2.1.symm.trans hwarning) Bool.false_ne_true⟩
    · exact .inl ⟨rfl, rfl, Bool.eq_false_iff.2 hwarning, not_le.1 hmax⟩

theorem beginAccess_cases (h : Tracks s) (disable : Bool) {pointer buffer : BitVec w} (hpointer : pointer ≠ 0)
    (hbuffer : buffer ≠ 0) (t : T) (flags pc returnAddress : BitVec w) :
    let r := beginAccess disable s.memory (s.head t) s.reportedConflicts pointer buffer flags pc returnAddress
    let conflict := disable = false ∧ Conflicts s t pointer flags
    r = .error .fatalConflict ∧ conflict ∧ EndsExecution s.reportedConflicts flags ∨
      ∃ i, r = .ok i ∧ (i.report.isSome = true ↔ conflict) ∧
        i.reportedConflicts = counted s.reportedConflicts i.report ∧
        ¬ (conflict ∧ EndsExecution s.reportedConflicts flags) := by
  dsimp only
  unfold beginAccess
  rw [if_neg hpointer]
  cases disable with
  | true => exact .inr ⟨_, rfl, iff_of_false Bool.false_ne_true (by simp), rfl, by simp⟩
  | false =>
    rw [if_neg Bool.false_ne_true, insert_eq (h.linked t) (h.nodup_tracked t), and_iff_right rfl,
      ← conflicts_iff h hbuffer t pointer flags]
    rcases insertAfter_cases s.memory (s.head t) s.reportedConflicts buffer (if pc = 0 then returnAddress else pc)
      pointer flags (((s.trackedAccesses t).map (·.buffer)).find?
        (conflicts s.memory pointer (ExclusivityFlags.getAccessAction flags))) with hfatal | ⟨i, hi, hreport, hcount⟩
    · exact .inl hfatal
    · exact .inr ⟨i, hi, by rw [hreport], hcount⟩

theorem step_beginAccess (h : Tracks s) {disable : Bool} {pointer buffer flags pc returnAddress : BitVec w}
    (hlegal : Legal s (.beginAccess t disable pointer buffer flags pc returnAddress)) :
    let r := step s (.beginAccess t disable pointer buffer flags pc returnAddress)
    let conflict := disable = false ∧ Conflicts s t pointer flags
    r = .error .fatalConflict ∧ conflict ∧ EndsExecution s.reportedConflicts flags ∨
      ∃ s' report, r = .ok (s', report) ∧ (report.isSome = true ↔ conflict) ∧
        s'.reportedConflicts = counted s.reportedConflicts report ∧
        ¬ (conflict ∧ EndsExecution s.reportedConflicts flags) ∧
        s'.inProgress = ⟨t, buffer, pointer, ExclusivityFlags.getAccessAction flags, !disable⟩ :: s.inProgress := by
  obtain ⟨hpointer, hbuffer, -, -⟩ := hlegal
  dsimp only
  unfold Exclusivity.step
  dsimp only
  rcases beginAccess_cases h disable hpointer hbuffer t flags pc returnAddress with
    ⟨hfatal, hconflict⟩ | ⟨i, hi, hreport, hcount, hends⟩
  · rw [hfatal]
    exact .inl ⟨rfl, hconflict⟩
  · rw [hi]
    exact .inr ⟨_, _, rfl, hreport, hcount, hends, rfl⟩

theorem step_endAccess (h : Tracks s) {buffer : BitVec w} (hlegal : Legal s (.endAccess t buffer)) :
    ∃ s', step s (.endAccess t buffer) = .ok (s', none) ∧ s'.reportedConflicts = s.reportedConflicts ∧
      s'.inProgress = s.inProgress.filter (·.buffer ≠ buffer) := by
  obtain ⟨a, ha, rfl, rfl⟩ := hlegal
  obtain ⟨memory, head, hend, -⟩ := h.endAccess_spec ha
  unfold Exclusivity.step
  dsimp only
  rw [hend]
  exact ⟨_, rfl, rfl, rfl⟩

/-- In every run: the access sets are the tracked accesses in progress, with their pointers and actions; a conflict is
reported exactly when there is one; and every access is found when it ends. -/
theorem accessSet_exact (h : Reachable s) :
    (∀ t, s.accessSet t = some ((s.trackedAccesses t).map (·.buffer)) ∧
      ((s.trackedAccesses t).map (·.buffer)).Nodup ∧
      ∀ a ∈ s.trackedAccesses t, (s.memory a.buffer).pointer = a.pointer ∧
        (s.memory a.buffer).getAccessAction = a.action) ∧
    (∀ t pointer buffer flags pc returnAddress,
      Legal s (.beginAccess t false pointer buffer flags pc returnAddress) →
        (Reports (step s (.beginAccess t false pointer buffer flags pc returnAddress)) ↔
          Conflicts s t pointer flags)) ∧
    (∀ t buffer, Legal s (.endAccess t buffer) → ∃ s', step s (.endAccess t buffer) = .ok (s', none)) ∧
    ∀ c, Legal s c → (∃ s' report, step s c = .ok (s', report)) ∨ step s c = .error .fatalConflict := by
  have htracks := reachable_tracks h
  refine ⟨fun t => ⟨?_, htracks.nodup_tracked t, fun a ha => ?_⟩, fun t pointer buffer flags pc returnAddress hlegal => ?_,
    fun t buffer hlegal => ?_, fun c hlegal => ?_⟩
  · exact LinkedList.toList_eq (htracks.linked t) (length_lt_rounds (htracks.linked t) (htracks.nodup_tracked t))
  · obtain ⟨hmem, hkind⟩ := List.mem_filter.1 ha
    have htracked : a.tracked = true := (Bool.and_eq_true _ _ ▸ hkind).2
    exact ⟨((htracks.holds a hmem).pointer htracked).2, (htracks.holds a hmem).action htracked⟩
  · rcases step_beginAccess htracks hlegal with ⟨hfatal, hconflict, -⟩ | ⟨s', report, hok, hreport, -⟩
    · exact iff_of_true (.inl hfatal) hconflict.2
    · rw [and_iff_right rfl] at hreport
      rw [← hreport, hok]
      cases report with
      | none => exact iff_of_false (by simp [Reports]) Bool.false_ne_true
      | some report => exact iff_of_true (.inr ⟨s', report, rfl⟩) rfl
  · obtain ⟨s', hok, -⟩ := step_endAccess htracks hlegal
    exact ⟨s', hok⟩
  · cases c with
    | beginAccess thread disable pointer buffer flags pc returnAddress =>
      rcases step_beginAccess htracks hlegal with ⟨hfatal, -⟩ | ⟨s', report, hok, -⟩
      · exact .inr hfatal
      · exact .inl ⟨s', report, hok⟩
    | endAccess thread buffer =>
      obtain ⟨s', hok, -⟩ := step_endAccess htracks hlegal
      exact .inl ⟨s', none, hok⟩
    | write buffer access => exact .inl ⟨_, _, rfl⟩

/-- One modification in progress: it is in the set, and a read of the same value is reported. -/
theorem accessSet_exact_modify : ∃ s : State Unit 8 64,
    step (initial fun _ => ⟨0, 0, 0⟩) (.beginAccess () false 0x70 0x20 modify 0x10 0) = .ok (s, none) ∧
      s.accessSet () = some [0x20] ∧ Reports (step s (.beginAccess () false 0x70 0x30 read 0x10 0)) := by
  have hreach : Reachable (initial fun _ => ⟨0, 0, 0⟩ : State Unit 8 64) := .initial _
  have hlegal : Legal (initial fun _ => ⟨0, 0, 0⟩ : State Unit 8 64) (.beginAccess () false 0x70 0x20 modify 0x10 0) :=
    ⟨by decide, by decide, by decide, fun a ha => absurd ha List.not_mem_nil⟩
  obtain ⟨hset, hreports, -⟩ := accessSet_exact (.step hreach hlegal rfl)
  refine ⟨_, rfl, (hset ()).1, (hreports () 0x70 0x30 read 0x10 0 ?_).2 ?_⟩
  · exact ⟨by decide, by decide, by decide, fun a ha => by rw [List.mem_singleton.1 ha]; decide⟩
  · exact ⟨_, List.mem_singleton_self _, rfl, .inl rfl⟩

end Reporting

/-! ## Fatal conflicts -/

section Fatal

variable {s s' : State T w k} {report : Option (Report w)}

/-- A call that begins a conflicting access, which is not only warned of. -/
def FatalConflict (s : State T w k) : Call T w → Prop
  | .beginAccess t disable pointer _ flags _ _ =>
    disable = false ∧ Conflicts s t pointer flags ∧ isWarningOnly flags = false
  | _ => False

/-- What holds at each call that is executed, with the number of conflicts reported before it. -/
def AtEachCall (P : Nat → State T w k → Call T w → Prop) : Nat → State T w k → List (Call T w) → Prop
  | _, _, [] => True
  | n, s, c :: calls => P n s c ∧ ∀ s' report, step s c = .ok (s', report) →
      AtEachCall P (n + if report.isSome then 1 else 0) s' calls

theorem step_fatal_iff (h : Tracks s) {c : Call T w} (hlegal : Legal s c) (hfatal : FatalConflict s c) :
    step s c = .error .fatalConflict ↔ s.reportedConflicts.toInt < maxReportedConflicts := by
  cases c with
  | beginAccess t disable pointer buffer flags pc returnAddress =>
    obtain ⟨hdisable, hconflict, hwarning⟩ := hfatal
    rcases step_beginAccess h hlegal with ⟨hend, -, hends⟩ | ⟨s', report, hok, -, -, hends, -⟩
    · exact iff_of_true hend hends.2
    · rw [hok]
      exact iff_of_false (by simp) fun hmax => hends ⟨⟨hdisable, hconflict⟩, hwarning, hmax⟩
  | endAccess t buffer => exact hfatal.elim
  | write buffer access => exact hfatal.elim

theorem step_counted (h : Tracks s) {c : Call T w} (hlegal : Legal s c) (hstep : step s c = .ok (s', report)) :
    s'.reportedConflicts = counted s.reportedConflicts report := by
  cases c with
  | beginAccess t disable pointer buffer flags pc returnAddress =>
    rcases step_beginAccess h hlegal with ⟨hend, -⟩ | ⟨s'', report', hok, -, hcount, -⟩
    · rw [hend] at hstep
      cases hstep
    · rw [hok] at hstep
      cases hstep
      exact hcount
  | endAccess t buffer =>
    obtain ⟨s'', hok, hcount, -⟩ := step_endAccess h hlegal
    rw [hok] at hstep
    cases hstep
    exact hcount
  | write buffer access =>
    cases hstep
    rfl

theorem counted_ofNat (n : Nat) (report : Option (Report w)) :
    counted (BitVec.ofNat k n) report = BitVec.ofNat k (n + if report.isSome then 1 else 0) := by
  unfold counted
  split_ifs
  · exact (BitVec.ofNat_add n 1).symm
  · rfl

theorem atEachCall_iff {P Q : Nat → State T w k → Call T w → Prop} {n : Nat} {calls : List (Call T w)}
    (hpoint : ∀ n s c, Tracks s → s.reportedConflicts = BitVec.ofNat k n → Legal s c → (P n s c ↔ Q n s c))
    (h : Tracks s) (hcount : s.reportedConflicts = BitVec.ofNat k n)
    (hlegal : AtEachCall (fun _ s c => Legal s c) n s calls) : AtEachCall P n s calls ↔ AtEachCall Q n s calls := by
  induction calls generalizing n s with
  | nil => exact Iff.rfl
  | cons c calls ih =>
    refine and_congr (hpoint n s c h hcount hlegal.1) (forall_congr' fun s' => forall_congr' fun report =>
      forall_congr' fun hstep => ?_)
    refine ih (h.step hlegal.1 hstep) ?_ (hlegal.2 s' report hstep)
    rw [step_counted h hlegal.1 hstep, hcount, counted_ofNat]

/-- In every run, execution never continues past a fatal conflict, exactly when each begins after fewer than 100 reports,
as a `long` counts them. -/
theorem stopsAtFatal_iff (memory : Memory w) (calls : List (Call T w))
    (hlegal : AtEachCall (fun _ s c => Legal s c) 0 (initial memory : State T w k) calls) :
    AtEachCall (fun _ s c => FatalConflict s c → step s c = .error .fatalConflict) 0
        (initial memory : State T w k) calls ↔
      AtEachCall (fun n s c => FatalConflict s c → (BitVec.ofNat k n).toInt < maxReportedConflicts) 0
        (initial memory : State T w k) calls := by
  refine atEachCall_iff (fun n s c h hcount hlegal => forall_congr' fun hfatal => ?_) (.initial memory) rfl hlegal
  rw [step_fatal_iff h hlegal hfatal, hcount]

/-- Two modifications of one value by one thread. -/
theorem stopsAtFatal_iff_modify :
    let s : State Unit 64 64 := initial fun _ => ⟨0, 0, 0⟩
    let calls := [.beginAccess () false 0x70 0x20 modify 0x10 0, .beginAccess () false 0x70 0x40 modify 0x10 0]
    AtEachCall (fun _ s c => FatalConflict s c → step s c = .error .fatalConflict) 0 s calls ↔
      AtEachCall (fun n s c => FatalConflict s c → (BitVec.ofNat 64 n).toInt < maxReportedConflicts) 0 s calls := by
  refine stopsAtFatal_iff _ _ ⟨?_, fun s' report hstep => ⟨?_, fun _ _ _ => trivial⟩⟩
  · exact ⟨by decide, by decide, by decide, fun a ha => absurd ha List.not_mem_nil⟩
  · cases hstep
    exact ⟨by decide, by decide, by decide, fun a ha => by rw [List.mem_singleton.1 ha]; decide⟩

theorem atEachCall_cons {P : Nat → State T w k → Call T w → Prop} {n : Nat} {c : Call T w} {calls : List (Call T w)}
    (hstep : step s c = .ok (s', report)) : AtEachCall P n s (c :: calls) ↔
      P n s c ∧ AtEachCall P (n + if report.isSome then 1 else 0) s' calls := by
  refine and_congr_right fun _ => ⟨fun h => h s' report hstep, fun h s'' report' hstep' => ?_⟩
  rw [hstep] at hstep'
  cases hstep'
  exact h

/-- A second modification of the value at `0x70`, that may only be warned of. -/
def warned : Call Unit 64 := .beginAccess () false 0x70 0x40 (modify ||| warningOnly) 0x10 0

/-- While one modification of that value is in progress, the second begins and ends `m` times. -/
def warnings (m : Nat) : List (Call Unit 64) := (List.replicate m [warned, .endAccess () 0x40]).flatten

/-- One modification is in progress, and `n` conflicts have been reported. -/
structure Warned (n : Nat) (s : State Unit 64 64) : Prop where
  tracks : Tracks s
  reportedConflicts : s.reportedConflicts = BitVec.ofNat 64 n
  inProgress : s.inProgress = [⟨(), 0x20, 0x70, modify, true⟩]

theorem Warned.conflicts {n : Nat} {s : State Unit 64 64} (h : Warned n s) (flags : BitVec 64) :
    Conflicts s () 0x70 flags := by
  refine ⟨⟨(), 0x20, 0x70, modify, true⟩, ?_, rfl, .inl rfl⟩
  rw [State.trackedAccesses, h.inProgress]
  exact List.mem_singleton_self _

theorem Warned.legal {n : Nat} {s : State Unit 64 64} (h : Warned n s) (flags : BitVec 64) :
    Legal s (.beginAccess () false 0x70 0x40 flags 0x10 0) := by
  refine ⟨by decide, by decide, by decide, fun a ha => ?_⟩
  rw [h.inProgress, List.mem_singleton] at ha
  rw [ha]
  decide

theorem Warned.next {n : Nat} {s : State Unit 64 64} (h : Warned n s) : ∃ s₁ s₂ report,
    step s warned = .ok (s₁, some report) ∧ Legal s₁ (.endAccess () 0x40) ∧
      step s₁ (.endAccess () 0x40) = .ok (s₂, none) ∧ Warned (n + 1) s₂ := by
  have hlegal := h.legal (modify ||| warningOnly)
  rcases step_beginAccess h.tracks hlegal with ⟨-, -, hends⟩ | ⟨s₁, report, hok, hreport, hcount, -, hprogress⟩
  · exact absurd hends.1 (by decide)
  · obtain ⟨report, rfl⟩ := Option.isSome_iff_exists.1 (hreport.2 ⟨rfl, h.conflicts _⟩)
    have hend : Legal s₁ (.endAccess () 0x40) := by
      refine ⟨_, hprogress ▸ List.mem_cons_self, rfl, rfl⟩
    have htracks := h.tracks.step hlegal hok
    obtain ⟨s₂, hok₂, hcount₂, hprogress₂⟩ := step_endAccess htracks hend
    refine ⟨s₁, s₂, report, hok, hend, hok₂, htracks.step hend hok₂, ?_, ?_⟩
    · rw [hcount₂, hcount, h.reportedConflicts, counted_ofNat]
      rfl
    · rw [hprogress₂, hprogress, h.inProgress]
      rfl

theorem Warned.warnings {n : Nat} {s : State Unit 64 64} (h : Warned n s) (m : Nat) (rest : List (Call Unit 64)) :
    ∃ s', Warned (n + m) s' ∧
      (AtEachCall (fun _ s c => Legal s c) (n + m) s' rest →
        AtEachCall (fun _ s c => Legal s c) n s (warnings m ++ rest)) ∧
      ∀ P, AtEachCall P n s (warnings m ++ rest) → AtEachCall P (n + m) s' rest := by
  induction m generalizing n s with
  | zero => exact ⟨s, h, id, fun P => id⟩
  | succ m ih =>
    obtain ⟨s₁, s₂, report, hok, hend, hok₂, h₂⟩ := h.next
    obtain ⟨s', h', hlegal, hrest⟩ := ih h₂
    rw [Nat.add_right_comm, Nat.add_assoc] at h' hlegal hrest
    refine ⟨s', h', fun hl => ?_, fun P hp => ?_⟩
    · exact (atEachCall_cons hok).2 ⟨h.legal _, (atEachCall_cons hok₂).2 ⟨hend, hlegal hl⟩⟩
    · exact hrest P ((atEachCall_cons hok₂).1 ((atEachCall_cons hok).1 hp).2).2

/-- After 100 warnings, execution continues past a fatal conflict. -/
theorem not_stopsAtFatal_warnings :
    let s : State Unit 64 64 := initial fun _ => ⟨0, 0, 0⟩
    let calls := .beginAccess () false 0x70 0x20 modify 0x10 0 ::
      (warnings 100 ++ [.beginAccess () false 0x70 0x40 modify 0x10 0])
    AtEachCall (fun _ s c => Legal s c) 0 s calls ∧
      ¬ AtEachCall (fun _ s c => FatalConflict s c → step s c = .error .fatalConflict) 0 s calls := by
  dsimp only
  have htracks : Tracks (initial fun _ => ⟨0, 0, 0⟩ : State Unit 64 64) := .initial _
  have hlegal : Legal (initial fun _ => ⟨0, 0, 0⟩ : State Unit 64 64) (.beginAccess () false 0x70 0x20 modify 0x10 0) :=
    ⟨by decide, by decide, by decide, fun a ha => absurd ha List.not_mem_nil⟩
  rcases step_beginAccess htracks hlegal with ⟨-, hconflict, -⟩ | ⟨s₁, report, hok, hreport, hcount, -, hprogress⟩
  · obtain ⟨a, ha, -⟩ := hconflict.2
    exact absurd ha List.not_mem_nil
  · have hnone : report = none := by
      rw [← Option.not_isSome_iff_eq_none, hreport]
      rintro ⟨-, a, ha, -⟩
      exact absurd ha List.not_mem_nil
    subst hnone
    have hwarned : Warned 0 s₁ := ⟨htracks.step hlegal hok, hcount, hprogress⟩
    obtain ⟨s', h', hl, hrest⟩ := hwarned.warnings 100 [.beginAccess () false 0x70 0x40 modify 0x10 0]
    refine ⟨(atEachCall_cons hok).2 ⟨hlegal, hl ⟨h'.legal _, fun _ _ _ => trivial⟩⟩, fun hstops => ?_⟩
    have hfatal : FatalConflict s' (.beginAccess () false 0x70 0x40 modify 0x10 0) := ⟨rfl, h'.conflicts _, by decide⟩
    have hend := (hrest _ ((atEachCall_cons hok).1 hstops).2).1 hfatal
    rw [step_fatal_iff h'.tracks (h'.legal _) hfatal, h'.reportedConflicts] at hend
    exact absurd hend (by decide)

end Fatal

end SwiftKStdlib.Runtime.Exclusivity
