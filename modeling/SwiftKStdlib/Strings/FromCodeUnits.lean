import SwiftKStdlib.Strings.StringCore
import SwiftKStdlib.Unicode.TranscodedLength

/-!
# `_StringBuffer.fromCodeUnits`

The text is measured, storage is allocated for what was measured, and the text is transcoded into it.

* `Cursor` : memory and the pointer that runs through it; a store outside of the memory is undefined;
* `fromCodeUnits` : the buffer and `hadError`; `none` is a trap or undefined behaviour;
* `Cursor.foldlM_store` : storing as many units as there is room for;
* `transcodedLength_transcode` : measuring agrees with transcoding, and the storage is filled;
* `transcoded_back` : a text is only repaired on the way to another encoding and back.
-/

namespace SwiftKStdlib.Strings

open SwiftKStdlib.Unicode

structure HeapCapacity where
  capacity : Nat → Nat
  le_capacity : ∀ n, n ≤ capacity n

/-- Memory of `w`-bit elements, `none` where nothing is stored, and a pointer `p` into it. -/
structure Cursor (w : Nat) where
  memory : List (Option (BitVec w))
  p : Nat
  deriving DecidableEq, Repr

namespace Cursor

variable {w : Nat}

def start (count : Nat) : Cursor w := ⟨List.replicate count none, 0⟩

/-- `p.pointee = u; p += 1`. -/
def store (c : Cursor w) (u : BitVec w) : Option (Cursor w) :=
  if c.p < c.memory.length then some ⟨c.memory.set c.p (some u), c.p + 1⟩ else none

end Cursor

/-- The elements of a `_StringBuffer`, by their width, with the pointer that has filled them. -/
inductive FilledStorage where
  | ascii (cursor : Cursor 8)
  | utf16 (cursor : Cursor 16)
  deriving DecidableEq, Repr

structure StringBuffer where
  buffer : NativeBuffer
  storage : FilledStorage
  deriving DecidableEq, Repr

/-- The elements in the storage that `_StringBuffer(capacity:initialSize:elementWidth:)` allocates. -/
def HeapCapacity.elementCount (heap : HeapCapacity) (capacity elementWidth : Nat) : Nat :=
  let elementShift := elementWidth - 1
  let capacityBump := 1 - elementShift
  let divRound := 1 - elementShift
  (heap.capacity ((capacity + capacityBump + divRound) >>> divRound) <<< 1) >>> elementShift

/-- `UTF8.CodeUnit(u)` of a UTF-32 code unit, which traps if the value does not fit. -/
def utf8CodeUnitOfUTF32 (u : BitVec 32) : Option (BitVec 8) := if u.toNat ≤ 0xff then some (u.setWidth 8) else none

/-- `fromCodeUnits(_:encoding:repairIllFormedSequences:minimumCapacity:)`. -/
def fromCodeUnits (heap : HeapCapacity) (encoding : Encoding) (input : List encoding.CodeUnit)
    (repairIllFormedSequences : Bool) (minimumCapacity : Int) : Option (Option StringBuffer × Bool) := do
  match ← UTF16.transcodedLength encoding input repairIllFormedSequences with
  | none => some (none, true)
  | some (utf16Count, isAscii) =>
    let capacity := (max (utf16Count : Int) minimumCapacity).toNat
    let elementWidth := if isAscii then 1 else 2
    let result := NativeBuffer.allocate heap.capacity capacity utf16Count elementWidth
    let elementCount := heap.elementCount capacity elementWidth
    if isAscii then
      let sink := fun (cursor : Cursor 8) u => (utf8CodeUnitOfUTF32 u).bind cursor.store
      let (cursor, hadError) ← transcodeText encoding .utf32 true sink input (.start elementCount)
      -- string cannot be ASCII if there were decoding errors
      if hadError then none else some (some ⟨result, .ascii cursor⟩, hadError)
    else
      let (cursor, hadError) ← transcodeText encoding .utf16 (!repairIllFormedSequences) Cursor.store input
        (.start elementCount)
      some (some ⟨result, .utf16 cursor⟩, hadError)

/-! ## Filling -/

namespace Cursor

variable {w : Nat}

/-- The memory holds `units`, up to the pointer, and nothing behind them, where there is more room. -/
structure Filled (c : Cursor w) (units : List (BitVec w)) (room : Nat) : Prop where
  memory : c.memory = units.map some ++ List.replicate room none
  p : c.p = units.length

theorem start_filled (count : Nat) : (start count : Cursor w).Filled [] count := ⟨rfl, rfl⟩

theorem Filled.store {c : Cursor w} {units : List (BitVec w)} {room : Nat} (h : c.Filled units (room + 1))
    (u : BitVec w) : ∃ c', c.store u = some c' ∧ c'.Filled (units ++ [u]) room := by
  have hroom : c.p < c.memory.length := by
    rw [h.memory, h.p, List.length_append, List.length_map, List.length_replicate]
    omega
  refine ⟨_, if_pos hroom, ?_, ?_⟩
  · show c.memory.set c.p (some u) = _
    rw [h.memory, h.p, List.set_append_right _ _ (List.length_map some).le, List.length_map, Nat.sub_self,
      List.map_append, List.append_assoc]
    rfl
  · rw [List.length_append, ← h.p]
    rfl

theorem Filled.foldlM_store {c : Cursor w} {done : List (BitVec w)} (units : List (BitVec w)) {room : Nat}
    (h : c.Filled done (units.length + room)) :
    ∃ c', units.foldlM Cursor.store c = some c' ∧ c'.Filled (done ++ units) room := by
  induction units generalizing c done with
  | nil =>
      rw [List.length_nil, Nat.zero_add] at h
      exact ⟨c, rfl, by rwa [List.append_nil]⟩
  | cons u units ih =>
      rw [List.length_cons, Nat.add_right_comm] at h
      obtain ⟨c₁, hstore, hfilled⟩ := h.store u
      obtain ⟨c', hrest, hfilled'⟩ := ih hfilled
      rw [List.append_cons]
      refine ⟨c', ?_, hfilled'⟩
      rw [List.foldlM_cons, hstore]
      exact hrest

end Cursor

namespace StringBuffer

/-- The elements of the buffer are `units`; the pointer has come to the end of them, which is `usedEnd`, and
nothing is stored behind it. -/
def Holds (result : StringBuffer) (units : List (BitVec 16)) (elementWidth : Nat) : Prop :=
  result.buffer.usedCount = units.length ∧
  match result.storage with
  | .ascii cursor => elementWidth = 1 ∧
      ∃ bytes room, bytes.map (BitVec.setWidth 16) = units ∧ cursor.Filled bytes room
  | .utf16 cursor => elementWidth = 2 ∧ ∃ room, cursor.Filled units room

end StringBuffer

theorem HeapCapacity.le_elementCount (heap : HeapCapacity) (capacity : Nat) {elementWidth : Nat}
    (hwidth : elementWidth = 1 ∨ elementWidth = 2) : capacity ≤ heap.elementCount capacity elementWidth := by
  rcases hwidth with rfl | rfl
  · have h := heap.le_capacity ((capacity + 1 + 1) >>> 1)
    show capacity ≤ heap.capacity ((capacity + 1 + 1) >>> 1) <<< 1
    generalize heap.capacity ((capacity + 1 + 1) >>> 1) = n at h ⊢
    rw [Nat.shiftRight_eq_div_pow] at h
    rw [Nat.shiftLeft_eq]
    omega
  · have h := heap.le_capacity capacity
    show capacity ≤ (heap.capacity capacity <<< 1) >>> 1
    rw [Nat.shiftRight_eq_div_pow, Nat.shiftLeft_eq]
    omega

/-! ## ASCII -/

theorem codeUnits_ascii {x : Scalar} (h : ∀ u ∈ UTF16.codeUnits x.value.toNat, u < 0x80) :
    UTF16.codeUnits x.value.toNat = [x.value.setWidth 16] ∧ x.value.toNat < 0x80 := by
  have hlt := x.toNat_lt
  unfold UTF16.codeUnits at h ⊢
  by_cases hsmall : x.value.toNat < 0x10000
  · rw [if_pos hsmall] at h ⊢
    have hu := h _ List.mem_cons_self
    rw [BitVec.lt_def, BitVec.toNat_ofNat, Nat.mod_eq_of_lt hsmall] at hu
    refine ⟨?_, hu⟩
    rw [ofNat_of_toNat_eq]
    rw [BitVec.toNat_setWidth, Nat.mod_eq_of_lt hsmall]
  · rw [if_neg hsmall] at h
    have hu := h _ List.mem_cons_self
    rw [BitVec.lt_def, BitVec.toNat_ofNat, Nat.mod_eq_of_lt (by omega)] at hu
    simp only [BitVec.reduceToNat] at hu
    omega

theorem emitted_ascii {stopOnError : Bool} {l : List (Option Scalar)}
    (hascii : ∀ u ∈ Encoding.emitted .utf16 stopOnError l, u < (0x80 : BitVec 16))
    (herror : Encoding.hadError l = true → stopOnError = false) :
    Encoding.hadError l = false ∧
      ∀ sink : Cursor 8 → BitVec 8 → Option (Cursor 8), ∀ cursor,
        List.foldlM (fun cursor u => (utf8CodeUnitOfUTF32 u).bind (sink cursor)) cursor
            (Encoding.emitted .utf32 true l) =
          ((Encoding.emitted .utf16 stopOnError l).map (BitVec.setWidth 8)).foldlM sink cursor := by
  induction l with
  | nil => exact ⟨rfl, fun _ _ => rfl⟩
  | cons r l ih =>
      cases r with
      | none =>
          rw [herror rfl] at hascii
          exact absurd (hascii 0xFFFD (List.mem_append_left _ (by decide))) (by decide)
      | some x =>
          obtain ⟨hword, hvalue⟩ := codeUnits_ascii fun u hu => hascii u (List.mem_append_left _ hu)
          obtain ⟨hno, heq⟩ := ih (fun u hu => hascii u (List.mem_append_right _ hu)) herror
          refine ⟨hno, fun sink cursor => ?_⟩
          have hfits : utf8CodeUnitOfUTF32 x.value = some ((x.value.setWidth 16).setWidth 8) := by
            rw [utf8CodeUnitOfUTF32, if_pos (by omega), BitVec.setWidth_setWidth_of_le _ (by decide)]
          have h16 : Encoding.emitted .utf16 stopOnError (some x :: l) =
              x.value.setWidth 16 :: Encoding.emitted .utf16 stopOnError l := congrArg (· ++ _) hword
          have h32 : Encoding.emitted .utf32 true (some x :: l) = x.value :: Encoding.emitted .utf32 true l := rfl
          rw [h16, h32, List.map_cons, List.foldlM_cons, List.foldlM_cons, hfits, Option.bind_some]
          exact Option.bind_congr fun cursor _ => heq sink cursor

/-! ## The text in its storage -/

theorem foldlM_collect {α : Type} (units done : List α) :
    units.foldlM (fun done u => some (done ++ [u])) done = some (done ++ units) := by
  induction units generalizing done with
  | nil => exact congrArg some (List.append_nil done).symm
  | cons u units ih =>
      rw [List.append_cons, ← ih]
      rfl

section

variable {encoding : Encoding} {input : List encoding.CodeUnit} {l : List (Option Scalar)}

theorem transcodeText_eq (hparses : encoding.Parses encoding.forwardParser input l)
    (hlength : l.length < input.length + 1) {σ : Type} (F : Encoding) (stopOnError : Bool)
    (processCodeUnit : σ → F.CodeUnit → Option σ) (state : σ) :
    transcodeText encoding F stopOnError processCodeUnit input state =
      ((F.emitted stopOnError l).foldlM processCodeUnit state).map fun state => (state, Encoding.hadError l) := by
  rw [transcodeText, Encoding.transcodeLoop_eq hparses hlength]
  simp only [Bool.false_or]

theorem fromCodeUnits_filled (hparses : encoding.Parses encoding.forwardParser input l)
    (hlength : l.length < input.length + 1) {repair isASCII : Bool} (heap : HeapCapacity) (minimumCapacity : Int)
    (hmeasured : UTF16.transcodedLength encoding input repair =
      some (some ((Encoding.emitted .utf16 (!repair) l).length, isASCII)))
    (hascii : isASCII = true → ∀ u ∈ Encoding.emitted .utf16 (!repair) l, u < (0x80 : BitVec 16))
    (herror : Encoding.hadError l = true → repair = true) : ∃ result,
      fromCodeUnits heap encoding input repair minimumCapacity = some (some result, Encoding.hadError l) ∧
        result.Holds (Encoding.emitted .utf16 (!repair) l) (if isASCII then 1 else 2) := by
  rw [fromCodeUnits, hmeasured]
  simp only [Option.bind_eq_bind, Option.bind_some]
  generalize hunits : Encoding.emitted .utf16 (!repair) l = units at hascii
  have hroom : ∀ {elementWidth}, elementWidth = 1 ∨ elementWidth = 2 → ∃ room,
      heap.elementCount (max (units.length : Int) minimumCapacity).toNat elementWidth = units.length + room :=
    fun hwidth => Nat.exists_eq_add_of_le
      (le_trans (by omega) (heap.le_elementCount (max (units.length : Int) minimumCapacity).toNat hwidth))
  cases isASCII with
  | true =>
      obtain ⟨room, hcount⟩ := hroom (.inl rfl)
      have hstart := Cursor.start_filled (w := 8) (units.length + room)
      have hmap : (units.map (BitVec.setWidth 8)).length = units.length := List.length_map _
      rw [← hmap] at hstart
      obtain ⟨cursor, hstore, hfilled⟩ := hstart.foldlM_store _
      rw [← hunits] at hascii
      obtain ⟨hno, hemitted⟩ := emitted_ascii (hascii rfl) fun h => congrArg not (herror h)
      rw [hunits] at hemitted
      simp only [if_true]
      rw [List.length_map] at hstore
      rw [hcount, transcodeText_eq hparses hlength, hemitted, hstore, hno]
      refine ⟨_, rfl, rfl, rfl, units.map (BitVec.setWidth 8), room, ?_, hfilled⟩
      rw [List.map_map]
      refine (List.map_congr_left fun u hu => ?_).trans (List.map_id units)
      have hlt : u.toNat < 0x80 := hascii rfl u (hunits ▸ hu)
      apply BitVec.eq_of_toNat_eq
      simp only [Function.comp_apply, BitVec.toNat_setWidth, id_eq]
      omega
  | false =>
      obtain ⟨room, hcount⟩ := hroom (.inr rfl)
      have hstart := Cursor.start_filled (w := 16) (units.length + room)
      obtain ⟨cursor, hstore, hfilled⟩ := hstart.foldlM_store _
      simp only [Bool.false_eq_true, if_false]
      rw [hcount, transcodeText_eq hparses hlength, hunits, hstore]
      exact ⟨_, rfl, rfl, rfl, room, hfilled⟩

end

/-- Measuring a text agrees with transcoding it, and the storage allocated for it is filled. -/
theorem transcodedLength_transcode (encoding : Encoding) (input : List encoding.CodeUnit) (repair : Bool) :
    ∃ units hadError length,
      transcodeText encoding .utf16 (!repair) (fun done u => some (done ++ [u])) input [] = some (units, hadError) ∧
      UTF16.transcodedLength encoding input repair = some length ∧
      (length = none ↔ ¬ encoding.WellFormed input ∧ repair = false) ∧
      (∀ utf16Count isASCII, length = some (utf16Count, isASCII) →
        utf16Count = units.length ∧ (isASCII = true ↔ ∀ u ∈ units, u < 0x80)) ∧
      ∀ heap minimumCapacity, (length = none →
          fromCodeUnits heap encoding input repair minimumCapacity = some (none, true)) ∧
        ∀ utf16Count isASCII, length = some (utf16Count, isASCII) → ∃ result,
          fromCodeUnits heap encoding input repair minimumCapacity = some (some result, hadError) ∧
          result.Holds units (if isASCII then 1 else 2) := by
  obtain ⟨l, hparses, hdecodes⟩ := Encoding.exists_decodes (i := input) (Encoding.buffers_forwardParser encoding)
  have hlength : l.length < input.length + 1 := Nat.lt_succ_of_le hdecodes.length_le
  have hmeasured := Encoding.transcodedLengthLoop_eq hparses hlength repair 0 0
  rw [← Encoding.transcodedLength_eq_loop] at hmeasured
  rw [List.nil_append] at hdecodes
  refine ⟨Encoding.emitted .utf16 (!repair) l, Encoding.hadError l, _, ?_, hmeasured, ?_, ?_, ?_⟩
  · rw [transcodeText_eq hparses hlength, foldlM_collect]
    rfl
  · rw [hdecodes.wellFormed_iff, not_not, ← Encoding.hadError_eq_true, Encoding.measured_eq_none]
  · intro utf16Count isASCII hsome
    have herror : ¬ (Encoding.hadError l = true ∧ repair = false) := fun h => by
      rw [Encoding.measured_eq_none.2 h] at hsome
      cases hsome
    rw [Encoding.measured_eq_some (by decide) herror, Nat.zero_add] at hsome
    obtain ⟨rfl, rfl⟩ := Prod.mk.inj (Option.some.inj hsome)
    exact ⟨rfl, decide_eq_true_iff⟩
  · intro heap minimumCapacity
    refine ⟨fun hnone => ?_, fun utf16Count isASCII hsome => ?_⟩
    · rw [fromCodeUnits, hmeasured, hnone]
      rfl
    · have herror : ¬ (Encoding.hadError l = true ∧ repair = false) := fun h => by
        rw [Encoding.measured_eq_none.2 h] at hsome
        cases hsome
      rw [Encoding.measured_eq_some (by decide) herror, Nat.zero_add] at hsome hmeasured
      obtain ⟨rfl, rfl⟩ := Prod.mk.inj (Option.some.inj hsome)
      refine fromCodeUnits_filled hparses hlength heap minimumCapacity hmeasured of_decide_eq_true fun h => ?_
      exact Bool.eq_true_of_not_eq_false fun hrepair => herror ⟨h, hrepair⟩

/-! ## To another encoding and back -/

section

open Encoding

theorem codeUnits_injective (E : Encoding) {x y : Scalar} (h : E.codeUnits x = E.codeUnits y) : x = y := by
  obtain ⟨s, -, hs⟩ := Encoding.encode_eq E x
  have hvalue : x.value = y.value := (Encoding.decode_eq hs).symm.trans (Encoding.decode_eq (hs.trans h))
  cases x
  cases y
  cases hvalue
  rfl

theorem decodes_scalars {E : Encoding} {scalars : List Scalar} {l : List (Option Scalar)}
    (h : E.Decodes (scalars.flatMap E.codeUnits) l) : l = scalars.map some := by
  have hnone := h.wellFormed_iff.1 ⟨scalars, rfl⟩
  generalize htext : scalars.flatMap E.codeUnits = s at h
  induction h generalizing scalars with
  | nil =>
    cases scalars with
    | nil => rfl
    | cons y scalars => exact absurd (List.append_eq_nil_iff.1 htext).1 (codeUnits_ne_nil y)
  | @scalar x s l h ih =>
    cases scalars with
    | nil => exact absurd (List.append_eq_nil_iff.1 htext.symm).1 (codeUnits_ne_nil x)
    | cons y scalars =>
      rw [List.flatMap_cons] at htext
      have heq : E.codeUnits y = E.codeUnits x := by
        rcases List.prefix_or_prefix_of_prefix (htext ▸ List.prefix_append (E.codeUnits y) _)
          (List.prefix_append (E.codeUnits x) s) with h | h
        · exact word_prefixFree ⟨y, rfl⟩ ⟨x, rfl⟩ h
        · exact (word_prefixFree ⟨x, rfl⟩ ⟨y, rfl⟩ h).symm
      rw [heq] at htext
      rw [ih (fun hmem => hnone (List.mem_cons_of_mem _ hmem)) (List.append_cancel_left htext), codeUnits_injective E heq]
      rfl
  | illFormed hmax h ih => exact absurd List.mem_cons_self hnone

theorem emitted_eq (F : Encoding) (l : List (Option Scalar)) :
    F.emitted false l = (l.map (Option.getD · .replacement)).flatMap F.codeUnits := by
  induction l with
  | nil => rfl
  | cons r l ih =>
    rw [List.map_cons, List.flatMap_cons, ← ih]
    cases r <;> rfl

theorem emitted_of_valid {E : Encoding} {s : List E.CodeUnit} {l : List (Option Scalar)} (h : E.Decodes s l)
    (hnone : none ∉ l) : E.emitted false l = s := by
  induction h with
  | nil => rfl
  | @scalar x s l h ih => exact congrArg (E.codeUnits x ++ ·) (ih fun hmem => hnone (List.mem_cons_of_mem _ hmem))
  | illFormed hmax h ih => exact absurd List.mem_cons_self hnone

/-- The code units that are collected, and whether an error was found. -/
def transcoded (E F : Encoding) (input : List E.CodeUnit) : Option (List F.CodeUnit × Bool) :=
  transcodeText E F false (fun done u => some (done ++ [u])) input []

/-- A text that is transcoded and then transcoded back is repaired as it is without leaving its encoding; and
that is the text itself, if no error is found. -/
theorem transcoded_back (E F : Encoding) (input : List E.CodeUnit) : ∃ repaired units hadError,
    transcoded E E input = some (repaired, hadError) ∧ transcoded E F input = some (units, hadError) ∧
      transcoded F E units = some (repaired, false) ∧ (hadError = false → repaired = input) := by
  obtain ⟨l, hparses, hdecodes⟩ := exists_decodes (i := input) (buffers_forwardParser E)
  have htranscoded : ∀ G, transcoded E G input = some (G.emitted false l, Encoding.hadError l) := fun G => by
    rw [transcoded, transcodeText_eq hparses (Nat.lt_succ_of_le hdecodes.length_le), foldlM_collect]
    rfl
  obtain ⟨l', hparses', hdecodes'⟩ := exists_decodes (i := F.emitted false l) (buffers_forwardParser F)
  have hscalars : l' = (l.map (Option.getD · .replacement)).map some :=
    decodes_scalars (by rw [← emitted_eq]; exact hdecodes')
  refine ⟨_, _, _, htranscoded E, htranscoded F, ?_, fun herror => emitted_of_valid hdecodes fun hmem => ?_⟩
  · have hvalid : none ∉ l' := hdecodes'.wellFormed_iff.1 ⟨_, (emitted_eq F l).symm⟩
    have hback : E.emitted false l' = E.emitted false l := by
      rw [hscalars, emitted_eq, emitted_eq E l, List.map_map]
      exact congrArg (List.flatMap E.codeUnits) (List.map_id _)
    rw [transcoded, transcodeText_eq hparses' (Nat.lt_succ_of_le hdecodes'.length_le), foldlM_collect, hback,
      Bool.eq_false_iff.2 (mt hadError_eq_true.1 hvalid)]
    rfl
  · rw [hadError_eq_true.2 hmem] at herror
    cases herror

end

end SwiftKStdlib.Strings
