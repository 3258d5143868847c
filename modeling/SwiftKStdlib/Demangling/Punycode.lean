import Mathlib.Data.BitVec
import Mathlib.Tactic

/-!
# Punycode

* `StringRef`, `int`, `uint32`, `char` : the types of the source;
* `isWordStart`, `isWordEnd`, `isValidSymbolChar` : the classes of characters;
* `digitValue`, `digitIndex`, `threshold`, `adapt` : digits and bias;
* `encodePunycode` and `decodePunycode` on code points;
* `encodePunycodeUTF8` and `decodePunycodeUTF8` on UTF-8 text.

A computation is `none` where the arithmetic leaves the range of `int`. Only values from zero on
occur in it.
-/

namespace SwiftKStdlib.Demangling

/-- A `StringRef`, or a `std::string`. -/
abbrev StringRef := List (BitVec 8)

/-- A value of type `int`. -/
def int (x : Nat) : Option Nat := if x < 2 ^ 31 then some x else none

/-- A value of type `uint32_t`. -/
def uint32 (x : Nat) : Nat := x % 2 ^ 32

/-- The character with code `x`. -/
def char (x : Nat) : BitVec 8 := BitVec.ofNat 8 x

namespace Mangle

def isLowerLetter (ch : BitVec 8) : Bool := 0x61 ≤ ch.toNat && ch.toNat ≤ 0x7A

def isUpperLetter (ch : BitVec 8) : Bool := 0x41 ≤ ch.toNat && ch.toNat ≤ 0x5A

def isDigit (ch : BitVec 8) : Bool := 0x30 ≤ ch.toNat && ch.toNat ≤ 0x39

def isLetter (ch : BitVec 8) : Bool := isLowerLetter ch || isUpperLetter ch

/-- `ch` begins a substitution word. -/
def isWordStart (ch : BitVec 8) : Bool := !isDigit ch && ch != 0x5F && ch != 0

/-- `ch`, behind `prevCh`, ends a substitution word. -/
def isWordEnd (ch prevCh : BitVec 8) : Bool :=
  if ch == 0x5F || ch == 0 then true
  else if !isUpperLetter prevCh && isUpperLetter ch then true
  else false

/-- `ch` may appear in a symbol mangling. -/
def isValidSymbolChar (ch : BitVec 8) : Bool := isLetter ch || isDigit ch || ch == 0x5F || ch == 0x24

/-- `str` contains a character that may not appear in a symbol mangling. -/
def needsPunycodeEncoding (str : StringRef) : Bool := str.any fun c => !isValidSymbolChar c

end Mangle

end SwiftKStdlib.Demangling

namespace SwiftKStdlib.Demangling

namespace Punycode

def base : Nat := 36
def tmin : Nat := 1
def tmax : Nat := 26
def skew : Nat := 38
def damp : Nat := 700
def initialBias : Nat := 72
def initialN : Nat := 128

/-- `'_'`. -/
def delimiter : BitVec 8 := 0x5F

def digitValue (digit : Nat) : BitVec 8 :=
  if digit < 26 then char (0x61 + digit) else char (0x41 - 26 + digit)

/-- `none` for `-1`. -/
def digitIndex (value : BitVec 8) : Option Nat :=
  if 0x61 ≤ value.toNat ∧ value.toNat ≤ 0x7A then some (value.toNat - 0x61)
  else if 0x41 ≤ value.toNat ∧ value.toNat ≤ 0x4A then some (value.toNat - 0x41 + 26)
  else none

def isValidUnicodeScalar (s : Nat) : Bool := s < 0xD880 || (0xE000 ≤ s && s ≤ 0x1FFFFF)

/-- The digit `t` below which the digit at `k` is the last one. -/
def threshold (k bias : Nat) : Nat :=
  if k ≤ bias then tmin else if bias + tmax ≤ k then tmax else k - bias

/-- The `while` loop of `adapt`. -/
def adaptLoop : Nat → Nat → Nat → Option (Nat × Nat)
  | 0, _, _ => none
  | fuel + 1, delta, k =>
    if ((base - tmin) * tmax) / 2 < delta then do
      let k ← int (k + base)
      adaptLoop fuel (delta / (base - tmin)) k
    else some (delta, k)

def adapt (delta numpoints : Nat) (firsttime : Bool) : Option Nat := do
  let delta := if firsttime then delta / damp else delta / 2
  let delta ← int (delta + delta / numpoints)
  let (delta, k) ← adaptLoop (delta + 1) delta 0
  let product ← int ((base - tmin + 1) * delta)
  int (k + product / (delta + skew))

/-! ## Decoding -/

/-- What the loop over the digits of one code point ends with. -/
inductive Digits where
  | value (i : Nat) (rest : StringRef)
  | fail
  deriving DecidableEq, Repr

/-- The loop over the digits of one code point, from the digit at `k` on. -/
def decodeDigits (bias : Nat) : StringRef → Nat → Nat → Nat → Option Digits
  | [], _, _, _ => some .fail
  | codePoint :: input, k, w, i =>
    match digitIndex codePoint with
    | none => some .fail
    | some digit => do
      let product ← int (digit * w)
      let i ← int (i + product)
      let t := threshold k bias
      if digit < t then some (.value i input)
      else do
        let w ← int (w * (base - t))
        decodeDigits bias input (k + base) w i

/-- The `while` loop of `decodePunycode`; the fuel bounds the number of code points. -/
def decodeLoop : Nat → Nat → Nat → Nat → List Nat → StringRef → Option (List Nat)
  | 0, _, _, _, _, _ => none
  | fuel + 1, n, oldi, bias, outCodePoints, input =>
    if input.isEmpty then some outCodePoints
    else do
      match ← decodeDigits bias input base 1 oldi with
      | .fail => some outCodePoints
      | .value i input =>
        let numpoints ← int (outCodePoints.length + 1)
        let bias ← adapt (i - oldi) numpoints (oldi == 0)
        let n := uint32 (n + i / (outCodePoints.length + 1))
        let i := i % (outCodePoints.length + 1)
        if n < 0x80 then some outCodePoints
        else do
          let outCodePoints := outCodePoints.insertIdx i n
          let i ← int (i + 1)
          decodeLoop fuel n i bias outCodePoints input

/-- `decodePunycode`: the result and `OutCodePoints`. -/
def decodePunycode (input : StringRef) : Option (Bool × List Nat) := do
  -- the code points before the last delimiter
  let basic := ((input.reverse.dropWhile (· != delimiter)).drop 1).reverse
  if basic.any (0x7F < ·.toNat) then
    some (true, (basic.takeWhile (·.toNat ≤ 0x7F)).map (·.toNat))
  else do
    let rest := (input.reverse.takeWhile (· != delimiter)).reverse
    let out ← decodeLoop (rest.length + 1) initialN 0 initialBias (basic.map (·.toNat)) rest
    some (true, out)

/-! ## Encoding -/

/-- The digits of `q`, from the digit at `k` on. -/
def encodeDigits (bias : Nat) : Nat → Nat → Nat → Option StringRef
  | 0, _, _ => none
  | fuel + 1, k, q =>
    let t := threshold k bias
    if q < t then some [digitValue q]
    else do
      let digits ← encodeDigits bias fuel (k + base) ((q - t) / (base - t))
      some (digitValue (t + (q - t) % (base - t)) :: digits)

/-- The variables of `encodePunycode`. -/
structure Encoder where
  outPunycode : StringRef
  delta : Nat
  bias : Nat
  h : Nat
  deriving DecidableEq, Repr

/-- The body of the inner loop of `encodePunycode`. -/
def encodeOne (b n : Nat) (e : Encoder) (c : Nat) : Option Encoder := do
  let delta ← if c < n then int (e.delta + 1) else some e.delta
  if c = n then do
    let digits ← encodeDigits e.bias (delta + 1) base delta
    let numpoints ← int (e.h + 1)
    let bias ← adapt delta numpoints (e.h == b)
    some ⟨e.outPunycode ++ digits, 0, bias, e.h + 1⟩
  else some { e with delta := delta }

/-- The minimum code point from `n` on. -/
def minimum (n : Nat) (input : List Nat) : Nat :=
  input.foldl (fun m codePoint => if n ≤ codePoint ∧ codePoint < m then codePoint else m) 0x10FFFF

/-- The `while` loop of `encodePunycode`; the fuel bounds the number of rounds. -/
def encodeLoop (input : List Nat) (b : Nat) : Nat → Nat → Encoder → Option Encoder
  | 0, _, _ => none
  | fuel + 1, n, e =>
    if e.h < input.length then do
      let m := minimum n input
      let delta ← int (e.delta + uint32 (m + 2 ^ 32 - n) * (e.h + 1))
      let e ← input.foldlM (encodeOne b m) { e with delta := delta }
      let delta ← int (e.delta + 1)
      encodeLoop input b fuel (uint32 (m + 1)) { e with delta := delta }
    else some e

def basicPart (input : List Nat) : StringRef := (input.filter (· < 0x80)).map char

/-- `encodePunycode`: the result and `OutPunycode`. -/
def encodePunycode (input : List Nat) : Option (Bool × StringRef) :=
  if input.all isValidUnicodeScalar then do
    let b := (basicPart input).length
    let out := if 0 < b then basicPart input ++ [delimiter] else basicPart input
    let e ← encodeLoop input b (input.length + 1) initialN ⟨out, 0, initialBias, b⟩
    some (true, e.outPunycode)
  else some (false, [])

/-! ## UTF-8 -/

/-- The bytes `encodeToUTF8` appends for one code point. -/
def encodeScalar (s : Nat) : StringRef :=
  let s := if 0xD800 ≤ s ∧ s < 0xD880 then s - 0xD800 else s
  let continuation (s : Nat) : BitVec 8 := char ((s ||| 0x80) &&& 0xBF)
  if s < 0x80 then [char s]
  else if s < 0x800 then [char (s >>> 6 ||| 0xC0), continuation s]
  else if s < 0x10000 then [char (s >>> 12 ||| 0xE0), continuation (s >>> 6), continuation s]
  else [char (s >>> 18 ||| 0xF0), continuation (s >>> 12), continuation (s >>> 6), continuation s]

/-- `encodeToUTF8`: the result and what is appended to `OutUTF8`, which a failure clears. -/
def encodeToUTF8 (scalars : List Nat) : Bool × StringRef :=
  if scalars.all isValidUnicodeScalar then (true, scalars.flatMap encodeScalar) else (false, [])

def decodePunycodeUTF8 (input : StringRef) : Option (Bool × StringRef) := do
  let (ok, outCodePoints) ← decodePunycode input
  if ok then some (encodeToUTF8 outCodePoints) else some (false, [])

def isContinuationByte (unit : BitVec 8) : Bool := unit &&& 0xC0 == 0x80

/-- `convertUTF8toUTF32`; `none` where it returns false. -/
def convertUTF8toUTF32 (mapNonSymbolChars : Bool) : StringRef → Option (List Nat)
  | [] => some []
  | first :: rest =>
    let low (unit : BitVec 8) : Nat := unit.toNat &&& 0x3F
    if first.toNat < 0x80 then
      let c := if Mangle.isValidSymbolChar first || !mapNonSymbolChars then first.toNat
        else first.toNat + 0xD800
      (convertUTF8toUTF32 mapNonSymbolChars rest).map (c :: ·)
    else if first.toNat < 0xC0 then none
    else if first.toNat < 0xE0 then
      match rest with
      | second :: rest =>
        if isContinuationByte second then
          (convertUTF8toUTF32 mapNonSymbolChars rest).map
            (((first.toNat &&& 0x1F) <<< 6 ||| low second) :: ·)
        else none
      | _ => none
    else if first.toNat < 0xF0 then
      match rest with
      | second :: third :: rest =>
        if isContinuationByte second && isContinuationByte third then
          (convertUTF8toUTF32 mapNonSymbolChars rest).map
            (((first.toNat &&& 0xF) <<< 12 ||| low second <<< 6 ||| low third) :: ·)
        else none
      | _ => none
    else if first.toNat < 0xF8 then
      match rest with
      | second :: third :: fourth :: rest =>
        if isContinuationByte second && isContinuationByte third && isContinuationByte fourth then
          (convertUTF8toUTF32 mapNonSymbolChars rest).map
            (((first.toNat &&& 0x7) <<< 18 ||| low second <<< 12 ||| low third <<< 6 ||| low fourth) :: ·)
        else none
      | _ => none
    else none

def encodePunycodeUTF8 (input : StringRef) (mapNonSymbolChars : Bool) : Option (Bool × StringRef) :=
  match convertUTF8toUTF32 mapNonSymbolChars input with
  | none => some (false, [])
  | some inputCodePoints => encodePunycode inputCodePoints

end Punycode

end SwiftKStdlib.Demangling
