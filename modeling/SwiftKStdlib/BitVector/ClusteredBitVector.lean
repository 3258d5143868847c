import SwiftKStdlib.Lib.BitWords

/-!
# Clustered bit vectors

* `ClusteredBitVector` : the chunks, inline or out of line, and the length in bits;
* `appendReserved` : appending bits from a generator of chunks;
* the operations of the class; new storage has arbitrary contents `fresh`;
* `SetBitEnumerator`, `findNext`, with the 32-bit indices of the source.
-/

namespace SwiftKStdlib.BitVector

abbrev ChunkType := BitVec 64

def chunkSizeInBits : Nat := 64

/-- `chunks` is what `getChunksPtr` points to: the out-of-line chunks, or `Data` alone. -/
structure ClusteredBitVector where
  chunks : List ChunkType
  hasOutOfLineData : Bool
  lengthInBits : Nat
  deriving DecidableEq, Repr

namespace ClusteredBitVector

def getNumChunksForBits (value : Nat) : Nat := (value + chunkSizeInBits - 1) / chunkSizeInBits

/-- The 63-bit field `LengthInBits`. -/
def length63 (length : Nat) : Nat := length % 2 ^ 63

def empty : ClusteredBitVector := ⟨[0], false, 0⟩

def data (v : ClusteredBitVector) : ChunkType := v.chunks.getD 0 0

def isInlineAndAllClear (v : ClusteredBitVector) : Bool := !v.hasOutOfLineData && v.data == 0

def getLengthInChunks (v : ClusteredBitVector) : Nat := getNumChunksForBits v.lengthInBits

def getCapacityInChunks (v : ClusteredBitVector) : Nat := v.chunks.length

def getCapacityInBits (v : ClusteredBitVector) : Nat := v.getCapacityInChunks * chunkSizeInBits

def getChunks (v : ClusteredBitVector) : List ChunkType := v.chunks.take v.getLengthInChunks

def size (v : ClusteredBitVector) : Nat := v.lengthInBits

/-! ## Storage -/

section Storage

variable (fresh : Nat → ChunkType)

def allocate (newCapacityInChunks : Nat) : List ChunkType :=
  (List.range newCapacityInChunks).map fresh

/-- `memcpy`, to the start of `dest`. -/
def copyTo (dest source : List ChunkType) : List ChunkType :=
  (source ++ dest.drop source.length).take dest.length

def reallocate (v : ClusteredBitVector) (newCapacityInChunks : Nat) : ClusteredBitVector :=
  let newData := allocate fresh newCapacityInChunks
  if v.hasOutOfLineData then
    { v with chunks := copyTo newData (v.chunks.take v.getLengthInChunks) }
  else
    let chunks := match v.getLengthInChunks with
      | 0 => newData
      | 1 => newData.set 0 v.data
      | length => copyTo newData (List.replicate length 0)
    { v with chunks, hasOutOfLineData := true }

/-- The growth curve of `reserveExtra`: `do chunkCount = chunkCount * 2 + 1 while (…)`. -/
def growChunkCount (requiredChunks : Nat) : Nat → Nat → Nat
  | 0, chunkCount => chunkCount * 2 + 1
  | fuel + 1, chunkCount =>
    if chunkCount * 2 + 1 < requiredChunks then growChunkCount requiredChunks fuel (chunkCount * 2 + 1)
    else chunkCount * 2 + 1

def reserveExtra (v : ClusteredBitVector) (numBits : Nat) : ClusteredBitVector :=
  let requiredBits := (v.lengthInBits + numBits) % 2 ^ 64
  if v.getCapacityInBits < requiredBits then
    let requiredChunks := getNumChunksForBits requiredBits
    v.reallocate fresh (growChunkCount requiredChunks requiredChunks v.getCapacityInChunks)
  else v

def reserve (v : ClusteredBitVector) (requiredSize : Nat) : ClusteredBitVector :=
  if v.getCapacityInBits < requiredSize then
    v.reallocate fresh (getNumChunksForBits requiredSize)
  else v

end Storage

/-! ## Appending -/

section Append

variable {σ : Type} (generator : σ → Nat → ChunkType × σ)

/-- The `do` loop of `appendReserved`, from the chunk `nextChunk` on. -/
def writeChunks (s : σ) (nextChunk numBits : Nat) (chunks : List ChunkType) : List ChunkType :=
  if numBits = 0 then chunks
  else
    let claimedBits := min numBits chunkSizeInBits
    let (bits, s) := generator s claimedBits
    writeChunks s (nextChunk + 1) (numBits - claimedBits) (chunks.set nextChunk bits)
  termination_by numBits
  decreasing_by
    change numBits - min numBits 64 < numBits
    omega

def appendReserved (v : ClusteredBitVector) (numBits : Nat) (s : σ) : ClusteredBitVector :=
  let offset := v.lengthInBits % chunkSizeInBits
  let nextChunk := v.lengthInBits / chunkSizeInBits
  let lengthInBits := length63 (v.lengthInBits + numBits)
  if offset = 0 then
    { v with chunks := writeChunks generator s nextChunk numBits v.chunks, lengthInBits }
  else
    let claimedBits := min numBits (chunkSizeInBits - offset)
    let (bits, s) := generator s claimedBits
    let chunks := v.chunks.set nextChunk (v.chunks.getD nextChunk 0 ||| bits <<< offset)
    { v with chunks := writeChunks generator s (nextChunk + 1) (numBits - claimedBits) chunks,
             lengthInBits }

end Append

/-- The generator of `appendConstantBitsReserved`. -/
def constantBits (addOnes : Bool) (s : Unit) (numBitsWanted : Nat) : ChunkType × Unit :=
  let pattern : ChunkType := if addOnes then BitVec.allOnes 64 else 0
  (pattern >>> (chunkSizeInBits - numBitsWanted), s)

def appendConstantBitsReserved (v : ClusteredBitVector) (numBits : Nat) (addOnes : Bool) :
    ClusteredBitVector :=
  v.appendReserved (constantBits addOnes) numBits ()

/-- The generator for a vector that ends at a chunk boundary; the state is `nextChunk`. -/
def wholeChunks (nextChunk : List ChunkType) (_numBitsWanted : Nat) : ChunkType × List ChunkType :=
  (nextChunk.getD 0 0, nextChunk.tail)

structure Mixing where
  prevChunk : ChunkType
  bitsRemaining : Nat
  nextChunk : List ChunkType

def resultMask (numBitsWanted : Nat) : ChunkType :=
  if numBitsWanted = chunkSizeInBits then BitVec.allOnes 64 else (1#64 <<< numBitsWanted) - 1

/-- The generator that mixes the bits of two chunks. -/
def mixedChunks (m : Mixing) (numBitsWanted : Nat) : ChunkType × Mixing :=
  if numBitsWanted ≤ m.bitsRemaining then
    (m.prevChunk &&& resultMask numBitsWanted,
      { m with prevChunk := m.prevChunk >>> numBitsWanted,
               bitsRemaining := m.bitsRemaining - numBitsWanted })
  else
    let newChunk := m.nextChunk.getD 0 0
    ((m.prevChunk ||| newChunk <<< m.bitsRemaining) &&& resultMask numBitsWanted,
      ⟨newChunk >>> (numBitsWanted - m.bitsRemaining),
        chunkSizeInBits + m.bitsRemaining - numBitsWanted, m.nextChunk.tail⟩)

/-- `appendReserved` from an array of chunks. -/
def appendChunksReserved (v : ClusteredBitVector) (numBits : Nat) (nextChunk : List ChunkType) :
    ClusteredBitVector :=
  if v.lengthInBits % chunkSizeInBits = 0 then v.appendReserved wholeChunks numBits nextChunk
  else v.appendReserved mixedChunks numBits ⟨0, 0, nextChunk⟩

section Mutators

variable (fresh : Nat → ChunkType)

def append (v other : ClusteredBitVector) : ClusteredBitVector :=
  if other.lengthInBits = 0 then v
  else if v.isInlineAndAllClear && other.isInlineAndAllClear then
    { v with lengthInBits := length63 (v.lengthInBits + other.lengthInBits) }
  else if other.isInlineAndAllClear then
    (v.reserveExtra fresh other.size).appendConstantBitsReserved other.size false
  else (v.reserveExtra fresh other.size).appendChunksReserved other.size other.chunks

def add (v : ClusteredBitVector) (numBits : Nat) (value : ChunkType) : ClusteredBitVector :=
  if numBits = 0 then v
  else if value == 0 && v.isInlineAndAllClear then
    { v with lengthInBits := length63 (v.lengthInBits + numBits) }
  else (v.reserveExtra fresh numBits).appendChunksReserved numBits [value]

def appendClearBits (v : ClusteredBitVector) (numBits : Nat) : ClusteredBitVector :=
  if numBits = 0 then v
  else if v.isInlineAndAllClear then
    { v with lengthInBits := length63 (v.lengthInBits + numBits) }
  else (v.reserveExtra fresh numBits).appendConstantBitsReserved numBits false

def appendSetBits (v : ClusteredBitVector) (numBits : Nat) : ClusteredBitVector :=
  if numBits = 0 then v
  else (v.reserveExtra fresh numBits).appendConstantBitsReserved numBits true

/-- The chunk that holds the bit `i`, changed. -/
def modifyChunk (v : ClusteredBitVector) (i : Nat) (f : ChunkType → ChunkType) :
    ClusteredBitVector :=
  let index := i / chunkSizeInBits
  { v with chunks := v.chunks.set index (f (v.chunks.getD index 0)) }

def reserveIfClear (v : ClusteredBitVector) : ClusteredBitVector :=
  if v.isInlineAndAllClear then v.reserve fresh v.lengthInBits else v

def setBit (v : ClusteredBitVector) (i : Nat) : ClusteredBitVector :=
  (v.reserveIfClear fresh).modifyChunk i fun chunk => chunk ||| 1#64 <<< (i % chunkSizeInBits)

def clearBit (v : ClusteredBitVector) (i : Nat) : ClusteredBitVector :=
  if v.isInlineAndAllClear then v
  else v.modifyChunk i fun chunk => chunk &&& ~~~(1#64 <<< (i % chunkSizeInBits))

def flipBit (v : ClusteredBitVector) (i : Nat) : ClusteredBitVector :=
  (v.reserveIfClear fresh).modifyChunk i fun chunk => chunk ^^^ 1#64 <<< (i % chunkSizeInBits)

def setChunks (v : ClusteredBitVector) (chunks : List ChunkType) : ClusteredBitVector :=
  { v with chunks := copyTo v.chunks chunks }

def flipAll (v : ClusteredBitVector) : ClusteredBitVector :=
  if v.lengthInBits = 0 then v
  else
    let v := v.reserveIfClear fresh
    let v := v.setChunks (v.getChunks.map fun chunk => ~~~chunk)
    let tailBits := v.size % chunkSizeInBits
    if tailBits = 0 then v
    else
      let back := v.getLengthInChunks - 1
      { v with chunks := v.chunks.set back (v.chunks.getD back 0 &&& ((1#64 <<< tailBits) - 1)) }

def clear (v : ClusteredBitVector) : ClusteredBitVector :=
  if v.hasOutOfLineData then { v with lengthInBits := 0 } else ⟨[0], false, 0⟩

/-- The copy constructor. -/
def copy (other : ClusteredBitVector) : ClusteredBitVector :=
  if other.hasOutOfLineData then
    { other with chunks := copyTo (allocate fresh other.getLengthInChunks)
                            (other.chunks.take other.getLengthInChunks) }
  else other

/-- `operator=`. -/
def assign (v other : ClusteredBitVector) : ClusteredBitVector :=
  if v.hasOutOfLineData && other.getLengthInChunks ≤ v.getCapacityInChunks then
    if other.isInlineAndAllClear then
      { v with chunks := copyTo v.chunks (List.replicate other.getLengthInChunks 0),
               lengthInBits := other.lengthInBits }
    else
      { v with chunks := copyTo v.chunks (other.chunks.take other.getLengthInChunks),
               lengthInBits := other.lengthInBits }
  else copy fresh other

/-- `operator=(&&)`: the vector, and what `dropData` leaves of the other. -/
def moveAssign (other : ClusteredBitVector) : ClusteredBitVector × ClusteredBitVector := (other, empty)

/-- `append(&&)`. -/
def appendMoved (v other : ClusteredBitVector) : ClusteredBitVector × ClusteredBitVector :=
  if v.lengthInBits = 0 then moveAssign other else (v.append fresh other, other)

/-- `operator&=`. -/
def intersect (v other : ClusteredBitVector) : ClusteredBitVector :=
  if v.isInlineAndAllClear then v
  else if other.isInlineAndAllClear then v.setChunks (v.getChunks.map fun _ => 0)
  else v.setChunks (List.zipWith (· &&& ·) v.getChunks other.chunks)

/-- `operator|=`. -/
def unite (v other : ClusteredBitVector) : ClusteredBitVector :=
  if other.isInlineAndAllClear then v
  else if v.isInlineAndAllClear then v.assign fresh other
  else v.setChunks (List.zipWith (· ||| ·) v.getChunks other.chunks)

end Mutators

/-! ## Observers -/

/-- `operator[]`. -/
def getBit (v : ClusteredBitVector) (i : Nat) : Bool :=
  if v.isInlineAndAllClear then false
  else v.chunks.getD (i / chunkSizeInBits) 0 &&& (1#64 <<< (i % chunkSizeInBits)) != 0

def countPopulation (chunk : ChunkType) : Nat := chunk.cpop.toNat

def count (v : ClusteredBitVector) : Nat :=
  if v.isInlineAndAllClear then 0
  else v.getChunks.foldl (fun count chunk => count + countPopulation chunk) 0

def any (v : ClusteredBitVector) : Bool :=
  if v.isInlineAndAllClear then false else v.getChunks.any fun chunk => chunk != 0

def none (v : ClusteredBitVector) : Bool := !v.any

/-- `operator==`, with `equalsSlowCase`. -/
def equals (lhs rhs : ClusteredBitVector) : Bool :=
  if lhs.size ≠ rhs.size then false
  else if lhs.lengthInBits = 0 then true
  else if !lhs.hasOutOfLineData && !rhs.hasOutOfLineData then lhs.data == rhs.data
  else if !lhs.hasOutOfLineData then rhs.getChunks.all fun chunk => chunk == lhs.data
  else if !rhs.hasOutOfLineData then lhs.getChunks.all fun chunk => chunk == rhs.data
  else lhs.getChunks == rhs.getChunks

/-! ## Enumerating set bits -/

/-- The indices of the enumerator are `unsigned`. -/
structure SetBitEnumerator where
  curChunk : ChunkType
  chunks : List ChunkType
  curChunkIndex : Nat
  numChunks : Nat

def enumerateSetBits (v : ClusteredBitVector) (behind : ChunkType) : SetBitEnumerator :=
  if v.isInlineAndAllClear then ⟨behind, v.chunks, 0, 0⟩
  else ⟨v.chunks.getD 0 behind, v.chunks, 0, v.getLengthInChunks % 2 ^ 32⟩

namespace SetBitEnumerator

/-- The `while` loop of `findNext`: the chunk with the next bit. -/
def nextChunk (e : SetBitEnumerator) : Nat → Nat → ChunkType → Option (Nat × ChunkType)
  | 0, _, _ => Option.none
  | fuel + 1, index, cur =>
    if cur ≠ 0 then some (index, cur)
    else if index + 1 = e.numChunks then Option.none
    else e.nextChunk fuel (index + 1) (e.chunks.getD (index + 1) 0)

def findNext (e : SetBitEnumerator) : Option (Nat × SetBitEnumerator) :=
  if e.curChunkIndex = e.numChunks then Option.none
  else
    match e.nextChunk (e.numChunks - e.curChunkIndex) e.curChunkIndex e.curChunk with
    | Option.none => Option.none
    | some (index, cur) =>
      let bitIndex := cur.ctz.toNat
      some (index * chunkSizeInBits % 2 ^ 32 + bitIndex,
        { e with curChunk := cur ^^^ (1#64 <<< bitIndex), curChunkIndex := index })

/-- The indices that `findNext` reports, until it finds none. -/
inductive Reports : SetBitEnumerator → List Nat → Prop where
  | done (e : SetBitEnumerator) : e.findNext = Option.none → Reports e []
  | next (e e' : SetBitEnumerator) (i : Nat) (is : List Nat) : e.findNext = some (i, e') →
      Reports e' is → Reports e (i :: is)

end SetBitEnumerator

end ClusteredBitVector

end SwiftKStdlib.BitVector
