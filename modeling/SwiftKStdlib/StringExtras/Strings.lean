import Mathlib.Data.BitVec

/-!
# Strings and characters

* `StringRef` : a string, with the operations of the source that the development uses;
* `isUppercase`, `isLowercase`, `isDigit`, `isLetter` : the classes of ASCII characters;
* `toLowercase`, `toUppercase` : conversion of one ASCII letter.
-/

namespace SwiftKStdlib.StringExtras

/-- A `StringRef`, with one `char` an element. -/
abbrev StringRef := List (BitVec 8)

def literal (s : String) : StringRef := s.toList.map fun c => BitVec.ofNat 8 c.toNat

def isUppercase (c : BitVec 8) : Bool := 0x41 ≤ c.toNat && c.toNat ≤ 0x5A

def isLowercase (c : BitVec 8) : Bool := 0x61 ≤ c.toNat && c.toNat ≤ 0x7A

def isDigit (c : BitVec 8) : Bool := 0x30 ≤ c.toNat && c.toNat ≤ 0x39

def isLetter (c : BitVec 8) : Bool := isUppercase c || isLowercase c

/-- The character `_`. -/
def underscore : BitVec 8 := 0x5F

def toLowercase (c : BitVec 8) : BitVec 8 := if isUppercase c then c + 0x20 else c

def toUppercase (c : BitVec 8) : BitVec 8 := if isLowercase c then c - 0x20 else c

theorem not_isLowercase_of_isUppercase {c : BitVec 8} (h : isUppercase c = true) : isLowercase c = false := by
  simp only [isUppercase, Bool.and_eq_true, decide_eq_true_eq] at h
  simp only [isLowercase, Bool.and_eq_false_iff, decide_eq_false_iff_not]
  omega

namespace StringRef

/-- The characters from `start` on, `n` of them at most. -/
def substr (s : StringRef) (start n : Nat) : StringRef := (s.drop start).take n

/-- The characters from `start` up to `stop`. -/
def slice (s : StringRef) (start stop : Nat) : StringRef := (s.drop start).take (stop - start)

def dropBack (s : StringRef) (n : Nat) : StringRef := s.take (s.length - n)

def endswith (s t : StringRef) : Bool := t.isSuffixOf s

def equalsLower (s t : StringRef) : Bool := s.map toLowercase == t.map toLowercase

def startswithLower (s t : StringRef) : Bool := (t.map toLowercase).isPrefixOf (s.map toLowercase)

def endswithLower (s t : StringRef) : Bool := (t.map toLowercase).isSuffixOf (s.map toLowercase)

end StringRef

end SwiftKStdlib.StringExtras
