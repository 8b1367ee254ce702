import Mathlib.Data.List.DropRight
import Mathlib.Data.List.Infix
import Mathlib.Data.Nat.Digits.Defs
import Mathlib.Tactic.Linarith

/-!
# BlitzMax strings and the functions the sources call outside themselves

A `String` is its UTF-16 code units.  `Null` and `""` are one value, so an absent string is `[]` and
`If s` tests `s ≠ []`.  The methods below are the built-in ones the HTTP sources use; the searches
only ever look for one-unit patterns, so they take that unit.

Comparing a character code with a string constant converts the *code* to its decimal numeral first:
`s[i] = "."` compares `"46"` with `"."`.  `ofNat_ne_of_not_digit` is why such a test never succeeds.
-/

namespace NetMod.BlitzText

/-- A BlitzMax `String`: its UTF-16 code units. -/
abbrev Text := List UInt16

/-- A string constant of the sources. -/
def lit (s : String) : Text := s.toList.map fun c => UInt16.ofNat c.toNat

/-- `Asc(c)`. -/
def asc (c : Char) : UInt16 := UInt16.ofNat c.toNat

/-- The fields of `SDateTime` the cookie sources read; `shortWeekday` is the text of
`WeekDayToShortWeekday(DayOfWeek())`. -/
structure SDateTime where
  year : Nat
  month : Nat
  day : Nat
  hour : Nat
  minute : Nat
  second : Nat
  shortWeekday : Text
deriving DecidableEq, Repr

/-- One unit of `ToLower`: ASCII letters, then the runtime's table `high` from 192 on. -/
def lowerUnitWith (high : UInt16 → UInt16) (c : UInt16) : UInt16 :=
  if c < 192 then (if asc 'A' ≤ c ∧ c ≤ asc 'Z' then c ||| 32 else c) else high c

/-- What the sources call and do not define: the runtime's case table above Latin-1, its string
hash and its calendar, and libcurl's date parser.  Lower-casing twice is lower-casing once. -/
structure Platform where
  lowerHigh : UInt16 → UInt16
  hashCode : Text → UInt32
  fromEpoch : Int → SDateTime
  getdate : Text → Int
  lower_lower : ∀ c, lowerUnitWith lowerHigh (lowerUnitWith lowerHigh c) = lowerUnitWith lowerHigh c

def Platform.lowerUnit (P : Platform) (c : UInt16) : UInt16 := lowerUnitWith P.lowerHigh c

def Platform.toLower (P : Platform) (s : Text) : Text := s.map P.lowerUnit

/-- Lower-casing in place leaves no capital ASCII letter. -/
theorem lower_lower_ascii (c : UInt16) : lowerUnitWith id (lowerUnitWith id c) = lowerUnitWith id c := by
  have hcap : ∀ n : Fin 91, 65 ≤ n.val → lowerUnitWith id (lowerUnitWith id (UInt16.ofNat n))
      = lowerUnitWith id (UInt16.ofNat n) := by decide
  by_cases h : asc 'A' ≤ c ∧ c ≤ asc 'Z'
  · have h1 : 65 ≤ c.toNat := UInt16.le_iff_toNat_le.mp h.1
    have h2 : c.toNat ≤ 90 := UInt16.le_iff_toNat_le.mp h.2
    simpa using hcap ⟨c.toNat, by omega⟩ h1
  · have hfix : lowerUnitWith id c = c := by simp [lowerUnitWith, h]
    rw [hfix, hfix]

/-- A platform that folds ASCII only and parses no date. -/
def asciiPlatform : Platform where
  lowerHigh := id
  hashCode := fun s => s.foldl (fun h c => h * 31 + c.toUInt32) 0
  fromEpoch := fun _ => ⟨1970, 1, 1, 0, 0, 0, lit "Thu"⟩
  getdate := fun _ => -1
  lower_lower := lower_lower_ascii

@[simp] theorem toLower_nil (P : Platform) : P.toLower [] = [] := rfl

@[simp] theorem toLower_length (P : Platform) (s : Text) : (P.toLower s).length = s.length :=
  List.length_map _

@[simp] theorem toLower_eq_nil (P : Platform) {s : Text} : P.toLower s = [] ↔ s = [] :=
  List.map_eq_nil_iff

@[simp] theorem toLower_toLower (P : Platform) (s : Text) : P.toLower (P.toLower s) = P.toLower s := by
  simp only [Platform.toLower, List.map_map]
  exact List.map_congr_left fun c _ => P.lower_lower c

/-- Below the runtime's table all platforms fold alike. -/
theorem toLower_of_ascii (P : Platform) {s : Text}
    (h : s.all (fun c => decide (c < 192)) = true) : P.toLower s = asciiPlatform.toLower s := by
  apply List.map_congr_left
  intro c hc
  have hlow : c < 192 := of_decide_eq_true (List.all_eq_true.mp h c hc)
  simp only [Platform.lowerUnit, lowerUnitWith, if_pos hlow]

/-- A constant whose characters are below the runtime's table. -/
theorem lit_ascii {cs : List Char} (h : cs.all (fun c => decide (c.toNat < 192)) = true) :
    (lit (String.ofList cs)).all (fun c => decide (c < 192)) = true := by
  rw [lit, String.toList_ofList, List.all_map, List.all_eq_true]
  intro c hc
  have hlow : c.toNat < 192 := of_decide_eq_true (List.all_eq_true.mp h c hc)
  apply decide_eq_true
  rw [UInt16.lt_iff_toNat_lt, UInt16.toNat_ofNat_of_lt' (hlow.trans (by decide))]
  exact hlow

/-- `a.Equals(b, False)`. -/
def Platform.equalsFold (P : Platform) (a b : Text) : Bool := P.toLower a == P.toLower b

/-! ### Searching and slicing -/

/-- `s.Find(c)`, with `none` for the result `-1`. -/
def find (s : Text) (c : UInt16) : Option Nat := s.findIdx? (· == c)

/-- `s.FindLast(c)`, with `none` for the result `-1`. -/
def findLast (s : Text) (c : UInt16) : Option Nat :=
  (find s.reverse c).map fun i => s.length - 1 - i

def startsWith (s p : Text) : Bool := p.isPrefixOf s

def endsWith (s p : Text) : Bool := p.isSuffixOf s

def contains (s p : Text) : Bool := decide (p <:+: s)

/-- `s[a..b]` inside the bounds of `s`. -/
def slice (s : Text) (a b : Nat) : Text := (s.drop a).take (b - a)

/-- `s.Trim()` drops units up to the space from both ends. -/
def trim (s : Text) : Text := (s.dropWhile (· ≤ 32)).rdropWhile (· ≤ 32)

@[simp] theorem trim_nil : trim [] = [] := rfl

theorem trim_cons_of_le {c : UInt16} (hc : c ≤ 32) (s : Text) : trim (c :: s) = trim s := by
  have hdrop : (c :: s).dropWhile (· ≤ 32) = s.dropWhile (· ≤ 32) :=
    List.dropWhile_cons_of_pos (by simpa using hc)
  rw [trim, hdrop, trim]

@[simp] theorem trim_trim (s : Text) : trim (trim s) = trim s := by
  have hfixed : (trim s).dropWhile (· ≤ 32) = trim s := by
    rw [List.dropWhile_eq_self_iff]
    intro hl
    have hfront : trim s <+: s.dropWhile (· ≤ 32) := List.rdropWhile_prefix _ _
    have hlong := Nat.lt_of_lt_of_le hl hfront.length_le
    rw [hfront.getElem hl]
    exact List.dropWhile_get_zero_not _ _ hlong
  show ((trim s).dropWhile (· ≤ 32)).rdropWhile (· ≤ 32) = trim s
  rw [hfixed]
  exact List.rdropWhile_idempotent _ _

/-- Trimming drops blanks and control characters only. -/
theorem mem_trim {c : UInt16} (hc : ¬ c ≤ 32) {s : Text} : c ∈ trim s ↔ c ∈ s := by
  have hdrop : ∀ l : Text, c ∈ l.dropWhile (· ≤ 32) ↔ c ∈ l := by
    intro l
    constructor
    · exact fun h => List.dropWhile_subset _ h
    · intro h
      rw [← List.takeWhile_append_dropWhile (p := fun c : UInt16 => decide (c ≤ 32)) (l := l)] at h
      rcases List.mem_append.mp h with h | h
      · exact absurd (by simpa using List.mem_takeWhile_imp h) hc
      · exact h
  rw [trim, List.rdropWhile, List.mem_reverse, hdrop, List.mem_reverse, hdrop]

theorem startsWith_iff {s p : Text} : startsWith s p = true ↔ p <+: s :=
  List.isPrefixOf_iff_prefix

theorem endsWith_iff {s p : Text} : endsWith s p = true ↔ p <:+ s :=
  List.isSuffixOf_iff_suffix

theorem find_eq_none_iff {s : Text} {c : UInt16} : find s c = none ↔ c ∉ s := by
  rw [find, List.findIdx?_eq_none_iff]
  constructor
  · intro h hc
    exact beq_eq_false_iff_ne.mp (h c hc) rfl
  · intro h x hx
    exact beq_eq_false_iff_ne.mpr fun heq => h (heq ▸ hx)

theorem find_of_not_mem {s : Text} {c : UInt16} (h : c ∉ s) : find s c = none :=
  find_eq_none_iff.mpr h

/-- The first `c` stands where the text without one ends. -/
theorem find_append {s : Text} {c : UInt16} (h : c ∉ s) (t : Text) :
    find (s ++ c :: t) c = some s.length := by
  have hskip : s.findIdx? (· == c) = none := find_of_not_mem h
  rw [find, List.findIdx?_append, hskip, List.findIdx?_cons]
  simp

theorem findLast_append {s : Text} {c : UInt16} (t : Text) (h : c ∉ s) :
    findLast (t ++ c :: s) c = some t.length := by
  have hrev : (t ++ c :: s).reverse = s.reverse ++ c :: t.reverse := by simp
  rw [findLast, hrev, find_append fun hc => h (List.mem_reverse.mp hc)]
  simp

theorem all_ne {c : UInt16} {a : Text} (ha : c ∉ a) : ∀ x ∈ a, decide (x ≠ c) = true :=
  fun _ hx => decide_eq_true fun h => ha (h ▸ hx)

theorem takeWhile_until {c : UInt16} {a : Text} (ha : c ∉ a) (p : Text) :
    (a ++ c :: p).takeWhile (· ≠ c) = a := by
  rw [List.takeWhile_append_of_pos (all_ne ha), List.takeWhile_cons]
  simp

theorem dropWhile_until {c : UInt16} {a : Text} (ha : c ∉ a) (p : Text) :
    (a ++ c :: p).dropWhile (· ≠ c) = c :: p := by
  rw [List.dropWhile_append_of_pos (all_ne ha), List.dropWhile_cons]
  simp

theorem take_until (a : Text) (c : UInt16) (p : Text) : (a ++ c :: p).take a.length = a :=
  List.take_left

theorem drop_until (a : Text) (c : UInt16) (p : Text) : (a ++ c :: p).drop (a.length + 1) = p := by
  rw [List.drop_length_add_append]
  rfl

/-! ### Numerals -/

/-- `String(n)` for a non-negative integer. -/
def ofNat (n : Nat) : Text :=
  if n = 0 then [48] else (Nat.digits 10 n).reverse.map fun d => UInt16.ofNat (d + 48)

/-- `String(n)`. -/
def ofInt (n : Int) : Text :=
  if n < 0 then asc '-' :: ofNat n.natAbs else ofNat n.natAbs

theorem mem_ofNat {n : Nat} {c : UInt16} (h : c ∈ ofNat n) : ∃ d < 10, c = UInt16.ofNat (d + 48) := by
  rw [ofNat] at h
  split at h
  · exact ⟨0, by omega, by simpa using h⟩
  · obtain ⟨d, hd, rfl⟩ := List.mem_map.mp h
    exact ⟨d, Nat.digits_lt_base (by omega) (List.mem_reverse.mp hd), rfl⟩

/-- **A numeral is never a one-unit string that is not a digit.** -/
theorem ofNat_ne_of_not_digit {n : Nat} {c : UInt16} (h : ∀ d < 10, c ≠ UInt16.ofNat (d + 48)) :
    ofNat n ≠ [c] := by
  intro heq
  obtain ⟨d, hd, hc⟩ := mem_ofNat (n := n) (c := c) (by rw [heq]; exact List.mem_singleton.mpr rfl)
  exact h d hd hc

theorem ofNat_ne_dot (n : Nat) : ofNat n ≠ lit "." :=
  ofNat_ne_of_not_digit (by decide)

/-- Reading digits until a unit that is none. -/
def digitsValue (base : Nat) (digit : UInt16 → Option Nat) : Nat → Text → Nat
  | acc, [] => acc
  | acc, c :: cs =>
    match digit c with
    | some d => digitsValue base digit (acc * base + d) cs
    | none => acc

def decDigit (c : UInt16) : Option Nat :=
  if 48 ≤ c ∧ c ≤ 57 then some (c.toNat - 48) else none

def binDigit (c : UInt16) : Option Nat :=
  if 48 ≤ c ∧ c ≤ 49 then some (c.toNat - 48) else none

def hexDigit (c : UInt16) : Option Nat :=
  if 48 ≤ c ∧ c ≤ 57 then some (c.toNat - 48)
  else if 65 ≤ c ∧ c ≤ 70 then some (c.toNat - 55)
  else if 97 ≤ c ∧ c ≤ 102 then some (c.toNat - 87)
  else none

/-- The value of a `Long` that received `n`. -/
def wrapLong (n : Int) : Int := n.bmod (2 ^ 64)

/-- `s.ToLong()`: blanks, a sign, then binary after `%`, hexadecimal after `$` or decimal digits. -/
def toLong (s : Text) : Int :=
  let s := s.dropWhile fun c => c = 32 ∨ (9 ≤ c ∧ c ≤ 13)
  let neg := s.head? = some (asc '-')
  let ds := if s.head? = some (asc '-') ∨ s.head? = some (asc '+') then s.tail else s
  let n : Nat :=
    match ds with
    | [] => 0
    | c :: cs =>
      if c = asc '%' then digitsValue 2 binDigit 0 cs
      else if c = asc '$' then digitsValue 16 hexDigit 0 cs
      else digitsValue 10 decDigit 0 ds
  wrapLong (if neg then -(n : Int) else n)

/-- The UTF-8 bytes of a code point. -/
def utf8Bytes (c : Nat) : List UInt8 :=
  if c < 0x80 then [UInt8.ofNat c]
  else if c < 0x800 then [UInt8.ofNat (0xC0 + c / 64), UInt8.ofNat (0x80 + c % 64)]
  else if c < 0x10000 then
    [UInt8.ofNat (0xE0 + c / 4096), UInt8.ofNat (0x80 + c / 64 % 64), UInt8.ofNat (0x80 + c % 64)]
  else
    [UInt8.ofNat (0xF0 + c / 262144), UInt8.ofNat (0x80 + c / 4096 % 64),
      UInt8.ofNat (0x80 + c / 64 % 64), UInt8.ofNat (0x80 + c % 64)]

/-- `s.ToUTF8String()`: a high and a low surrogate in a row are one code point. -/
def toUTF8String : Text → List UInt8
  | [] => []
  | [c] => utf8Bytes c.toNat
  | c :: d :: s =>
    if 0xD800 ≤ c ∧ c ≤ 0xDBFF ∧ 0xDC00 ≤ d ∧ d ≤ 0xDFFF then
      utf8Bytes ((c.toNat - 0xD800) * 1024 + (d.toNat - 0xDC00) + 0x10000) ++ toUTF8String s
    else utf8Bytes c.toNat ++ toUTF8String (d :: s)

example : toLong (lit " -12x") = -12 ∧ ofInt (-120) = lit "-120" := by decide

end NetMod.BlitzText
