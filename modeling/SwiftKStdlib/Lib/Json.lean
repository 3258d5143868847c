import Mathlib.Tactic

/-!
# JSON texts

* `Json` : the values of JSON; a number is `m * 10 ^ e`;
* `parse` : the value of a text of bytes, if it is well-formed;
* `Yields` : what a text is read as, and that a wrong one is not read as it;
* `yields_string`, `yields_int`, `yields_array`, `yields_object` and others : how each construct is read.
-/

namespace SwiftKStdlib.Lib

abbrev JsonText := List (BitVec 8)

inductive Json where
  | null
  | bool (b : Bool)
  | number (m e : Int)
  | string (s : JsonText)
  | array (elements : List Json)
  | object (members : List (JsonText × Json))

namespace Json

/-! ## Characters -/

def isWhitespace (c : BitVec 8) : Bool := c = 0x20 || c = 0x09 || c = 0x0A || c = 0x0D

def skipWhitespace (s : JsonText) : JsonText := s.dropWhile isWhitespace

def isDigit (c : BitVec 8) : Bool := 0x30 ≤ c.toNat && c.toNat ≤ 0x39

def ofDigits (ds : JsonText) : Nat := ds.foldl (fun n c => 10 * n + (c.toNat - 0x30)) 0

def hexValue (c : BitVec 8) : Option Nat :=
  if isDigit c then some (c.toNat - 0x30)
  else if 0x41 ≤ c.toNat ∧ c.toNat ≤ 0x46 then some (c.toNat - 0x41 + 10)
  else if 0x61 ≤ c.toNat ∧ c.toNat ≤ 0x66 then some (c.toNat - 0x61 + 10)
  else none

/-- Four hexadecimal digits. -/
def hex4 : JsonText → Option (Nat × JsonText)
  | a :: b :: c :: d :: s => do
    let a ← hexValue a
    let b ← hexValue b
    let c ← hexValue c
    let d ← hexValue d
    some (0x1000 * a + 0x100 * b + 0x10 * c + d, s)
  | _ => none

/-- The UTF-8 encoding of a scalar value. -/
def encodeScalar (n : Nat) : JsonText :=
  if n < 0x80 then [BitVec.ofNat 8 n]
  else if n < 0x800 then [BitVec.ofNat 8 (0xC0 + n / 0x40), BitVec.ofNat 8 (0x80 + n % 0x40)]
  else if n < 0x10000 then
    [BitVec.ofNat 8 (0xE0 + n / 0x1000), BitVec.ofNat 8 (0x80 + n / 0x40 % 0x40), BitVec.ofNat 8 (0x80 + n % 0x40)]
  else
    [BitVec.ofNat 8 (0xF0 + n / 0x40000), BitVec.ofNat 8 (0x80 + n / 0x1000 % 0x40),
      BitVec.ofNat 8 (0x80 + n / 0x40 % 0x40), BitVec.ofNat 8 (0x80 + n % 0x40)]

/-- What stands behind `\u`: a code unit, or two that are a surrogate pair. -/
def unicodeEscape (s : JsonText) : Option (JsonText × JsonText) := do
  let (unit, s) ← hex4 s
  if unit < 0xD800 ∨ 0xE000 ≤ unit then some (encodeScalar unit, s)
  else if 0xDC00 ≤ unit ∨ s.take 2 ≠ [0x5C, 0x75] then none
  else do
    let (low, s) ← hex4 (s.drop 2)
    if low < 0xDC00 ∨ 0xE000 ≤ low then none
    else some (encodeScalar (0x10000 + 0x400 * (unit - 0xD800) + (low - 0xDC00)), s)

/-- One character of a string, the quotation mark excepted. -/
def character : JsonText → Option (JsonText × JsonText)
  | [] => none
  | c :: s =>
    if c = 0x5C then
      match s with
      | [] => none
      | c :: s =>
        if c = 0x22 ∨ c = 0x5C ∨ c = 0x2F then some ([c], s)
        else if c = 0x62 then some ([0x08], s)
        else if c = 0x66 then some ([0x0C], s)
        else if c = 0x6E then some ([0x0A], s)
        else if c = 0x72 then some ([0x0D], s)
        else if c = 0x74 then some ([0x09], s)
        else if c = 0x75 then unicodeEscape s
        else none
    else if c.toNat < 0x20 then none
    else some ([c], s)

/-- A string behind its first quotation mark. -/
def stringBody : Nat → JsonText → Option (JsonText × JsonText)
  | 0, _ => none
  | fuel + 1, s =>
    if s.head? = some 0x22 then some ([], s.tail)
    else do
      let (c, s) ← character s
      let (t, s) ← stringBody fuel s
      some (c ++ t, s)

/-! ## Numbers -/

/-- The digits behind the decimal point, if there is one. -/
def fraction (s : JsonText) : Option (JsonText × JsonText) :=
  if s.head? = some 0x2E then
    if s.tail.takeWhile isDigit = [] then none
    else some (s.tail.takeWhile isDigit, s.tail.dropWhile isDigit)
  else some ([], s)

/-- The exponent, if there is one. -/
def exponent (s : JsonText) : Option (Int × JsonText) :=
  if s.head? = some 0x65 ∨ s.head? = some 0x45 then
    let t := if s.tail.head? = some 0x2B ∨ s.tail.head? = some 0x2D then s.tail.tail else s.tail
    if t.takeWhile isDigit = [] then none
    else
      let e : Int := ofDigits (t.takeWhile isDigit)
      some (if s.tail.head? = some 0x2D then -e else e, t.dropWhile isDigit)
  else some (0, s)

/-- A number without its sign. -/
def magnitude (s : JsonText) : Option (Nat × Int × JsonText) :=
  let ds := s.takeWhile isDigit
  if ds = [] ∨ ds.head? = some 0x30 ∧ ds ≠ [0x30] then none
  else do
    let (fs, s) ← fraction (s.dropWhile isDigit)
    let (e, s) ← exponent s
    some (ofDigits (ds ++ fs), e - fs.length, s)

def readNumber (s : JsonText) : Option (Json × JsonText) :=
  if s.head? = some 0x2D then (magnitude s.tail).map fun r => (.number (-r.1) r.2.1, r.2.2)
  else (magnitude s).map fun r => (.number r.1 r.2.1, r.2.2)

/-! ## Values -/

mutual

/-- A value, behind any whitespace. -/
def value : Nat → JsonText → Option (Json × JsonText)
  | 0, _ => none
  | fuel + 1, s =>
    match skipWhitespace s with
    | [] => none
    | c :: s =>
      if c = 0x22 then (stringBody (s.length + 1) s).map fun r => (.string r.1, r.2)
      else if c = 0x5B then
        if (skipWhitespace s).head? = some 0x5D then some (.array [], (skipWhitespace s).tail)
        else (elements fuel s).map fun r => (.array r.1, r.2)
      else if c = 0x7B then
        if (skipWhitespace s).head? = some 0x7D then some (.object [], (skipWhitespace s).tail)
        else (members fuel s).map fun r => (.object r.1, r.2)
      else if (c :: s).take 4 = [0x74, 0x72, 0x75, 0x65] then some (.bool true, (c :: s).drop 4)
      else if (c :: s).take 5 = [0x66, 0x61, 0x6C, 0x73, 0x65] then some (.bool false, (c :: s).drop 5)
      else if (c :: s).take 4 = [0x6E, 0x75, 0x6C, 0x6C] then some (.null, (c :: s).drop 4)
      else readNumber (c :: s)

/-- The elements of an array, up to the closing bracket. -/
def elements : Nat → JsonText → Option (List Json × JsonText)
  | 0, _ => none
  | fuel + 1, s => do
    let (v, s) ← value fuel s
    let (vs, s) ← moreElements fuel s
    some (v :: vs, s)

/-- What stands behind an element. -/
def moreElements : Nat → JsonText → Option (List Json × JsonText)
  | 0, _ => none
  | fuel + 1, s =>
    match skipWhitespace s with
    | [] => none
    | c :: s => if c = 0x5D then some ([], s) else if c = 0x2C then elements fuel s else none

/-- The members of an object, up to the closing brace. -/
def members : Nat → JsonText → Option (List (JsonText × Json) × JsonText)
  | 0, _ => none
  | fuel + 1, s =>
    match skipWhitespace s with
    | [] => none
    | c :: s =>
      if c = 0x22 then do
        let (key, s) ← stringBody (s.length + 1) s
        match skipWhitespace s with
        | [] => none
        | c :: s =>
          if c = 0x3A then do
            let (v, s) ← value fuel s
            let (ms, s) ← moreMembers fuel s
            some ((key, v) :: ms, s)
          else none
      else none

/-- What stands behind a member. -/
def moreMembers : Nat → JsonText → Option (List (JsonText × Json) × JsonText)
  | 0, _ => none
  | fuel + 1, s =>
    match skipWhitespace s with
    | [] => none
    | c :: s => if c = 0x7D then some ([], s) else if c = 0x2C then members fuel s else none

end

def parse (s : JsonText) : Option Json := do
  let (v, s) ← value (s.length + 1) s
  if skipWhitespace s = [] then some v else none

/-! ## Reading -/

def Ends (s : JsonText) : Prop :=
  ∀ c, s.head? = some c → isDigit c = false ∧ c ≠ 0x2E ∧ c ≠ 0x65 ∧ c ≠ 0x45

/-- A good text is read as `a`, and no other one is. -/
structure Yields {α : Type} (f : Nat → JsonText → Option (α × JsonText)) (t : JsonText) (a : α) (good : Prop) :
    Prop where
  reads : good → ∀ rest fuel, t.length ≤ fuel → Ends rest → f fuel (t ++ rest) = some (a, rest)
  misreads : ¬ good → ∀ rest fuel a' r, t.length ≤ fuel → Ends rest → f fuel (t ++ rest) = some (a', r) → a' ≠ a

def ReadsString (body s : JsonText) : Prop :=
  ∀ rest fuel, body.length < fuel → stringBody fuel (body ++ rest) = some (s, rest)

section

variable {s t w rest : JsonText} {c : BitVec 8}

theorem skipWhitespace_append (hw : ∀ c ∈ w, isWhitespace c = true) :
    skipWhitespace (w ++ s) = skipWhitespace s :=
  List.dropWhile_append_of_pos hw

theorem skipWhitespace_cons (hc : isWhitespace c = false) : skipWhitespace (c :: s) = c :: s :=
  List.dropWhile_cons_of_neg (by simp [hc])

theorem ends_cons (h : isDigit c = false ∧ c ≠ 0x2E ∧ c ≠ 0x65 ∧ c ≠ 0x45) : Ends (c :: s) := by
  intro d hd
  obtain rfl := Option.some.inj hd
  exact h

theorem ends_nil : Ends [] := fun c hc => absurd hc.symm (Option.some_ne_none c)

theorem ends_whitespace (hw : ∀ c ∈ w, isWhitespace c = true) (hs : Ends s) : Ends (w ++ s) := by
  cases w with
  | nil => exact hs
  | cons c w =>
      refine ends_cons ?_
      have hc := hw c List.mem_cons_self
      simp only [isWhitespace, Bool.or_eq_true, decide_eq_true_eq] at hc
      rcases hc with ((rfl | rfl) | rfl) | rfl <;> decide

/-! ### Strings -/

theorem readsString_nil : ReadsString [0x22] [] := by
  intro rest fuel hfuel
  obtain ⟨fuel, rfl⟩ := Nat.exists_eq_add_one.2 (Nat.zero_lt_of_lt hfuel)
  rfl

theorem ReadsString.cons {e body : JsonText} {a : JsonText} (h : ReadsString body s)
    (he : ∀ rest, character (e ++ rest) = some (a, rest)) (hhead : e.headD 0x22 ≠ 0x22) :
    ReadsString (e ++ body) (a ++ s) := by
  intro rest fuel hfuel
  cases e with
  | nil => exact absurd rfl hhead
  | cons c e =>
      rw [List.length_append, List.length_cons] at hfuel
      obtain ⟨fuel, rfl⟩ := Nat.exists_eq_add_one.2 (Nat.zero_lt_of_lt hfuel)
      have hquote : ¬ (c :: e ++ body ++ rest).head? = some 0x22 := fun hq => hhead (Option.some.inj hq)
      rw [stringBody, if_neg hquote, List.append_assoc, he]
      change (stringBody fuel (body ++ rest)).bind _ = _
      rw [h rest fuel (by omega)]
      rfl

end

/-! ### Values -/

section

variable {s t m w body : JsonText} {j : Json} {js : List Json} {g g' : Prop}

theorem Yields.whitespace (h : Yields value t j g) (hw : ∀ c ∈ w, isWhitespace c = true) :
    Yields value (w ++ t) j g := by
  have hskip : ∀ fuel rest, value fuel (w ++ t ++ rest) = value fuel (t ++ rest) := by
    intro fuel rest
    cases fuel with
    | zero => rfl
    | succ fuel => rw [value, value, List.append_assoc, skipWhitespace_append hw]
  refine ⟨fun hg rest fuel hfuel hrest => ?_, fun hg rest fuel a r hfuel hrest hrun => ?_⟩
  · rw [List.length_append] at hfuel
    rw [hskip]
    exact h.reads hg rest fuel (by omega) hrest
  · rw [List.length_append] at hfuel
    rw [hskip] at hrun
    exact h.misreads hg rest fuel a r (by omega) hrest hrun

theorem yields_of_reads {α : Type} {f : Nat → JsonText → Option (α × JsonText)} {a : α}
    (h : ∀ rest fuel, t.length ≤ fuel → Ends rest → f fuel (t ++ rest) = some (a, rest)) : Yields f t a True :=
  ⟨fun _ => h, fun hg => absurd trivial hg⟩

theorem Yields.congr {α : Type} {f : Nat → JsonText → Option (α × JsonText)} {a : α} (h : Yields f t a g) (hg : g ↔ g') :
    Yields f t a g' := by
  rwa [propext hg] at h

theorem Yields.other {α : Type} {f : Nat → JsonText → Option (α × JsonText)} {a b : α} (h : Yields f t a True)
    (hne : a ≠ b) : Yields f t b False := by
  refine ⟨False.elim, fun _ rest fuel a' r hfuel hrest hres => ?_⟩
  rw [h.reads trivial rest fuel hfuel hrest] at hres
  obtain rfl : a = a' := (Prod.mk.inj (Option.some.inj hres)).1
  exact hne

theorem Yields.cons {α β : Type} {f : Nat → JsonText → Option (α × JsonText)} {f' : Nat → JsonText → Option (β × JsonText)}
    {a : α} {e : α → β} {c : BitVec 8} (h : Yields f t a g) (he : Function.Injective e)
    (hrun : ∀ fuel rest, f' (fuel + 1) (c :: t ++ rest) = (f fuel (t ++ rest)).map fun r => (e r.1, r.2)) :
    Yields f' (c :: t) (e a) g := by
  refine ⟨fun hg rest fuel hfuel hrest => ?_, fun hg rest fuel b r hfuel hrest hres => ?_⟩
  · obtain ⟨fuel, rfl⟩ := Nat.exists_eq_add_one.2 (Nat.zero_lt_of_lt hfuel)
    rw [hrun, h.reads hg rest fuel (Nat.le_of_succ_le_succ hfuel) hrest]
    rfl
  · obtain ⟨fuel, rfl⟩ := Nat.exists_eq_add_one.2 (Nat.zero_lt_of_lt hfuel)
    rw [hrun] at hres
    obtain ⟨⟨a', r'⟩, hf, hmap⟩ := Option.map_eq_some_iff.1 hres
    obtain rfl : e a' = b := (Prod.mk.inj hmap).1
    exact fun hsame => h.misreads hg rest fuel a' r' (Nat.le_of_succ_le_succ hfuel) hrest hf (he hsame)

theorem value_cons {c : BitVec 8} (hc : isWhitespace c = false) (fuel : Nat) :
    value (fuel + 1) (c :: s) =
      if c = 0x22 then (stringBody (s.length + 1) s).map fun r => (.string r.1, r.2)
      else if c = 0x5B then
        if (skipWhitespace s).head? = some 0x5D then some (.array [], (skipWhitespace s).tail)
        else (elements fuel s).map fun r => (.array r.1, r.2)
      else if c = 0x7B then
        if (skipWhitespace s).head? = some 0x7D then some (.object [], (skipWhitespace s).tail)
        else (members fuel s).map fun r => (.object r.1, r.2)
      else if (c :: s).take 4 = [0x74, 0x72, 0x75, 0x65] then some (.bool true, (c :: s).drop 4)
      else if (c :: s).take 5 = [0x66, 0x61, 0x6C, 0x73, 0x65] then some (.bool false, (c :: s).drop 5)
      else if (c :: s).take 4 = [0x6E, 0x75, 0x6C, 0x6C] then some (.null, (c :: s).drop 4)
      else readNumber (c :: s) := by
  rw [value, skipWhitespace_cons hc]

theorem yields_string (h : ReadsString body s) : Yields value (0x22 :: body) (.string s) True := by
  refine yields_of_reads fun rest fuel hfuel _ => ?_
  obtain ⟨fuel, rfl⟩ := Nat.exists_eq_add_one.2 (Nat.zero_lt_of_lt hfuel)
  rw [List.cons_append, value_cons (by decide), if_pos rfl, h rest _ (by simp)]
  rfl

theorem yields_true : Yields value [0x74, 0x72, 0x75, 0x65] (.bool true) True := by
  refine yields_of_reads fun rest fuel hfuel _ => ?_
  obtain ⟨fuel, rfl⟩ := Nat.exists_eq_add_one.2 (Nat.zero_lt_of_lt hfuel)
  rw [List.cons_append, value_cons (by decide)]
  rfl

theorem yields_false : Yields value [0x66, 0x61, 0x6C, 0x73, 0x65] (.bool false) True := by
  refine yields_of_reads fun rest fuel hfuel _ => ?_
  obtain ⟨fuel, rfl⟩ := Nat.exists_eq_add_one.2 (Nat.zero_lt_of_lt hfuel)
  rw [List.cons_append, value_cons (by decide)]
  rfl

/-! ### Arrays -/

theorem yields_elements (hv : Yields value t j g) (hm : Yields moreElements m js g') (ht : t ≠ []) (hne : m ≠ [])
    (hends : ∀ rest, Ends (m ++ rest)) : Yields elements (t ++ m) (j :: js) (g ∧ g') := by
  have htlen := List.length_pos_of_ne_nil ht
  have hmlen := List.length_pos_of_ne_nil hne
  refine ⟨fun hg rest fuel hfuel hrest => ?_, fun hg rest fuel a r hfuel hrest hrun => ?_⟩
  · rw [List.length_append] at hfuel
    obtain ⟨fuel, rfl⟩ := Nat.exists_eq_add_one.2 (by omega : 0 < fuel)
    rw [elements, List.append_assoc, hv.reads hg.1 _ fuel (by omega) (hends rest)]
    change (moreElements fuel (m ++ rest)).bind _ = _
    rw [hm.reads hg.2 rest fuel (by omega) hrest]
    rfl
  · rw [List.length_append] at hfuel
    obtain ⟨fuel, rfl⟩ := Nat.exists_eq_add_one.2 (by omega : 0 < fuel)
    rw [elements, List.append_assoc] at hrun
    obtain ⟨⟨j', s'⟩, hvalue, hafter⟩ := Option.bind_eq_some_iff.1 hrun
    obtain ⟨⟨js', s''⟩, hmore, hres⟩ := Option.bind_eq_some_iff.1 hafter
    obtain rfl : j' :: js' = a := (Prod.mk.inj (Option.some.inj hres)).1
    rintro ⟨⟩
    by_cases hhead : g
    · rw [hv.reads hhead _ fuel (by omega) (hends rest)] at hvalue
      obtain rfl : m ++ rest = s' := (Prod.mk.inj (Option.some.inj hvalue)).2
      exact hm.misreads (fun htail => hg ⟨hhead, htail⟩) rest fuel js s'' (by omega) hrest hmore rfl
    · exact hv.misreads hhead _ fuel j s' (by omega) (hends rest) hvalue rfl

theorem yields_moreElements_nil (hw : ∀ c ∈ w, isWhitespace c = true) :
    Yields moreElements (w ++ [0x5D]) [] True := by
  refine yields_of_reads fun rest fuel hfuel _ => ?_
  rw [List.length_append, List.length_singleton] at hfuel
  obtain ⟨fuel, rfl⟩ := Nat.exists_eq_add_one.2 (by omega : 0 < fuel)
  rw [moreElements, List.append_assoc, skipWhitespace_append hw]
  rfl

theorem yields_moreElements_cons (he : Yields elements t js g) : Yields moreElements (0x2C :: t) js g := by
  refine he.cons Function.injective_id fun fuel rest => ?_
  rw [moreElements, List.cons_append, skipWhitespace_cons (by decide)]
  change elements fuel (t ++ rest) = _
  cases elements fuel (t ++ rest) <;> rfl

theorem yields_moreElements_quote : Yields moreElements (0x22 :: t) js False := by
  refine ⟨False.elim, fun _ rest fuel a r hfuel _ hres => ?_⟩
  obtain ⟨fuel, rfl⟩ := Nat.exists_eq_add_one.2 (Nat.zero_lt_of_lt hfuel)
  rw [moreElements, List.cons_append, skipWhitespace_cons (by decide)] at hres
  exact absurd hres.symm (Option.some_ne_none _)

theorem yields_array (he : Yields elements t js g) (hopen : ∀ rest, (skipWhitespace (t ++ rest)).head? ≠ some 0x5D) :
    Yields value (0x5B :: t) (.array js) g := by
  refine he.cons (fun _ _ h => array.inj h) fun fuel rest => ?_
  rw [List.cons_append, value_cons (by decide), if_neg (by decide), if_pos rfl, if_neg (hopen rest)]

theorem yields_array_nil (hw : ∀ c ∈ w, isWhitespace c = true) : Yields value (0x5B :: (w ++ [0x5D])) (.array []) True := by
  refine yields_of_reads fun rest fuel hfuel _ => ?_
  obtain ⟨fuel, rfl⟩ := Nat.exists_eq_add_one.2 (Nat.zero_lt_of_lt hfuel)
  rw [List.cons_append, value_cons (by decide), if_neg (by decide), if_pos rfl, List.append_assoc,
    skipWhitespace_append hw]
  rfl

/-! ### Objects -/

variable {k key : JsonText} {ms : List (JsonText × Json)}

theorem yields_members (hkey : ReadsString k key) (hv : Yields value t j g) (hm : Yields moreMembers m ms g')
    (hne : m ≠ []) (hends : ∀ rest, Ends (m ++ rest)) (hw : ∀ c ∈ w, isWhitespace c = true) :
    Yields members (w ++ (0x22 :: (k ++ (0x3A :: (t ++ m))))) ((key, j) :: ms) (g ∧ g') := by
  have hmlen := List.length_pos_of_ne_nil hne
  have hrun : ∀ fuel rest, members (fuel + 1) (w ++ (0x22 :: (k ++ (0x3A :: (t ++ m)))) ++ rest) =
      (value fuel (t ++ (m ++ rest))).bind fun r => (moreMembers fuel r.2).bind fun r' =>
        some ((key, r.1) :: r'.1, r'.2) := by
    intro fuel rest
    rw [members, List.append_assoc, skipWhitespace_append hw, List.cons_append, skipWhitespace_cons (by decide),
      List.append_assoc, List.cons_append, List.append_assoc]
    change ((stringBody _ (k ++ (0x3A :: (t ++ (m ++ rest))))).bind _) = _
    rw [hkey _ _ (by simp)]
    rfl
  have hlength : (w ++ (0x22 :: (k ++ (0x3A :: (t ++ m))))).length =
      w.length + (k.length + (t.length + m.length + 1) + 1) := by
    simp only [List.length_append, List.length_cons]
  refine ⟨fun hg rest fuel hfuel hrest => ?_, fun hg rest fuel a r hfuel hrest hres => ?_⟩
  · rw [hlength] at hfuel
    obtain ⟨fuel, rfl⟩ := Nat.exists_eq_add_one.2 (by omega : 0 < fuel)
    rw [hrun, hv.reads hg.1 _ fuel (by omega) (hends rest)]
    change (moreMembers fuel (m ++ rest)).bind _ = _
    rw [hm.reads hg.2 rest fuel (by omega) hrest]
    rfl
  · rw [hlength] at hfuel
    obtain ⟨fuel, rfl⟩ := Nat.exists_eq_add_one.2 (by omega : 0 < fuel)
    rw [hrun] at hres
    obtain ⟨⟨j', s'⟩, hvalue, hafter⟩ := Option.bind_eq_some_iff.1 hres
    obtain ⟨⟨ms', s''⟩, hmore, hlast⟩ := Option.bind_eq_some_iff.1 hafter
    obtain rfl : (key, j') :: ms' = a := (Prod.mk.inj (Option.some.inj hlast)).1
    rintro ⟨⟩
    by_cases hhead : g
    · rw [hv.reads hhead _ fuel (by omega) (hends rest)] at hvalue
      obtain rfl : m ++ rest = s' := (Prod.mk.inj (Option.some.inj hvalue)).2
      exact hm.misreads (fun htail => hg ⟨hhead, htail⟩) rest fuel ms s'' (by omega) hrest hmore rfl
    · exact hv.misreads hhead _ fuel j s' (by omega) (hends rest) hvalue rfl

theorem yields_moreMembers_nil (hw : ∀ c ∈ w, isWhitespace c = true) :
    Yields moreMembers (w ++ [0x7D]) [] True := by
  refine yields_of_reads fun rest fuel hfuel _ => ?_
  rw [List.length_append, List.length_singleton] at hfuel
  obtain ⟨fuel, rfl⟩ := Nat.exists_eq_add_one.2 (by omega : 0 < fuel)
  rw [moreMembers, List.append_assoc, skipWhitespace_append hw]
  rfl

theorem yields_moreMembers_cons (he : Yields members t ms g) : Yields moreMembers (0x2C :: t) ms g := by
  refine he.cons Function.injective_id fun fuel rest => ?_
  rw [moreMembers, List.cons_append, skipWhitespace_cons (by decide)]
  change members fuel (t ++ rest) = _
  cases members fuel (t ++ rest) <;> rfl

theorem yields_object (he : Yields members t ms g) (hopen : ∀ rest, (skipWhitespace (t ++ rest)).head? ≠ some 0x7D) :
    Yields value (0x7B :: t) (.object ms) g := by
  refine he.cons (fun _ _ h => object.inj h) fun fuel rest => ?_
  rw [List.cons_append, value_cons (by decide), if_neg (by decide), if_neg (by decide), if_pos rfl,
    if_neg (hopen rest)]

theorem yields_object_nil (hw : ∀ c ∈ w, isWhitespace c = true) :
    Yields value (0x7B :: (w ++ [0x7D])) (.object []) True := by
  refine yields_of_reads fun rest fuel hfuel _ => ?_
  obtain ⟨fuel, rfl⟩ := Nat.exists_eq_add_one.2 (Nat.zero_lt_of_lt hfuel)
  rw [List.cons_append, value_cons (by decide), if_neg (by decide), if_neg (by decide), if_pos rfl,
    List.append_assoc, skipWhitespace_append hw]
  rfl

/-! ### Integers -/

variable {ds : JsonText}

theorem magnitude_digits (hds : ∀ c ∈ ds, isDigit c = true) (hne : ds ≠ []) (hzero : ds.head? = some 0x30 → ds = [0x30])
    {rest : JsonText} (hrest : Ends rest) : magnitude (ds ++ rest) = some (ofDigits ds, 0, rest) := by
  have htake : (ds ++ rest).takeWhile isDigit = ds ∧ (ds ++ rest).dropWhile isDigit = rest := by
    rw [List.takeWhile_append_of_pos hds, List.dropWhile_append_of_pos hds]
    cases rest with
    | nil => exact ⟨List.append_nil ds, rfl⟩
    | cons c rest =>
        have hc := (hrest c rfl).1
        rw [List.takeWhile_cons_of_neg (by simp [hc]), List.dropWhile_cons_of_neg (by simp [hc]), List.append_nil]
        exact ⟨rfl, rfl⟩
  have hfraction : fraction rest = some ([], rest) := if_neg fun h => (hrest _ h).2.1 rfl
  have hexponent : exponent rest = some (0, rest) :=
    if_neg fun h => h.elim (fun h => (hrest _ h).2.2.1 rfl) fun h => (hrest _ h).2.2.2 rfl
  rw [magnitude]
  simp only [htake.1, htake.2]
  rw [if_neg (by rintro (h | ⟨h, h'⟩); exacts [hne h, h' (hzero h)]), hfraction]
  change (exponent rest).bind _ = _
  rw [hexponent, List.append_nil]
  rfl

theorem value_number {c : BitVec 8} (hc : isDigit c = true ∨ c = 0x2D) (fuel : Nat) :
    value (fuel + 1) (c :: s) = readNumber (c :: s) := by
  have hne : ∀ d : BitVec 8, isDigit d = false → d ≠ 0x2D → c ≠ d := by
    rintro d hd hd' rfl
    rcases hc with hc | hc
    · exact Bool.false_ne_true (hd.symm.trans hc)
    · exact hd' hc
  have hspace : isWhitespace c = false := by
    simp only [isWhitespace, Bool.or_eq_false_iff, decide_eq_false_iff_not]
    exact ⟨⟨⟨hne _ (by decide) (by decide), hne _ (by decide) (by decide)⟩, hne _ (by decide) (by decide)⟩,
      hne _ (by decide) (by decide)⟩
  have htake : ∀ n (d : BitVec 8) l, isDigit d = false → d ≠ 0x2D → (c :: s).take (n + 1) ≠ d :: l :=
    fun n d l hd hd' h => hne d hd hd' (List.cons.inj h).1
  rw [value_cons hspace, if_neg (hne _ (by decide) (by decide)), if_neg (hne _ (by decide) (by decide)),
    if_neg (hne _ (by decide) (by decide)), if_neg (htake 3 _ _ (by decide) (by decide)),
    if_neg (htake 4 _ _ (by decide) (by decide)), if_neg (htake 3 _ _ (by decide) (by decide))]

theorem yields_digits (hds : ∀ c ∈ ds, isDigit c = true) (hne : ds ≠ [])
    (hzero : ds.head? = some 0x30 → ds = [0x30]) : Yields value ds (.number (ofDigits ds) 0) True := by
  refine yields_of_reads fun rest fuel hfuel hrest => ?_
  obtain ⟨fuel, rfl⟩ := Nat.exists_eq_add_one.2 ((List.length_pos_of_ne_nil hne).trans_le hfuel)
  have hmag := magnitude_digits hds hne hzero hrest
  obtain ⟨c, ds, rfl⟩ := List.exists_cons_of_ne_nil hne
  have hc := hds c List.mem_cons_self
  have hminus : ¬ (c :: (ds ++ rest)).head? = some 0x2D := fun h => by
    obtain rfl := Option.some.inj h
    exact absurd hc (by decide)
  rw [List.cons_append, value_number (.inl hc), readNumber, if_neg hminus]
  rw [List.cons_append] at hmag
  rw [hmag]
  rfl

theorem yields_negative (hds : ∀ c ∈ ds, isDigit c = true) (hne : ds ≠ [])
    (hzero : ds.head? = some 0x30 → ds = [0x30]) : Yields value (0x2D :: ds) (.number (-ofDigits ds) 0) True := by
  refine yields_of_reads fun rest fuel hfuel hrest => ?_
  obtain ⟨fuel, rfl⟩ := Nat.exists_eq_add_one.2 (Nat.zero_lt_of_lt hfuel)
  rw [List.cons_append, value_number (.inr rfl), readNumber, if_pos List.head?_cons, List.tail_cons,
    magnitude_digits hds hne hzero hrest]
  rfl

/-! ### Texts -/

theorem Yields.parses_iff (h : Yields value t j g) : parse t = some j ↔ g := by
  rw [parse]
  constructor
  · intro hparse
    by_contra hg
    obtain ⟨⟨j', s⟩, hvalue, hrest⟩ := Option.bind_eq_some_iff.1 hparse
    rw [← List.append_nil t] at hvalue
    refine h.misreads hg [] _ j' s (by simp) ends_nil hvalue ?_
    change (if skipWhitespace s = [] then some j' else none) = some j at hrest
    split_ifs at hrest
    exact Option.some.inj hrest
  · intro hg
    have hvalue := h.reads hg [] (t.length + 1) (by omega) ends_nil
    rw [List.append_nil] at hvalue
    rw [hvalue]
    rfl

end

end Json

end SwiftKStdlib.Lib
