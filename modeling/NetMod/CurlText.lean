import NetMod.Lib.PercentEncoding
import NetMod.Utf8Text

/-!
# Texts and numbers as libcurl reads them

What several files of libcurl share: the zero-terminated bytes of a text, the character classes of
`curl_ctype.h`, comparing without case, and the numbers of `strparse.c`.
-/

namespace NetMod.CurlText

open NetMod.BlitzText NetMod.Utf8Text NetMod.PercentEncoding

abbrev Bytes := List UInt8

def byte (c : Char) : UInt8 := UInt8.ofNat c.toNat

def bytes (s : String) : Bytes := s.toList.map byte

/-- A text as libcurl gets it, up to the first zero. -/
def cString (content : Text) : Bytes := (toUTF8String content).takeWhile (· ≠ 0)

theorem cString_ascii {s : Bytes} (h : ∀ b ∈ s, 0 < b.toNat ∧ b.toNat < 128) :
    cString (ascii s) = s := by
  rw [cString, toUTF8String_ascii fun b hb => (h b hb).2]
  exact takeWhile_nonzero fun b hb => (h b hb).1

/-- `%u`. -/
def decimal (n : Nat) : Bytes :=
  if n = 0 then [48] else (Nat.digits 10 n).reverse.map fun d => UInt8.ofNat (d + 48)

/-- The codes that the functions read here return. -/
inductive CURLcode where
  | ok
  | partialFile
  | readError
  | outOfMemory
  | abortedByCallback
  | recvError
  | again
  | tooLarge
deriving DecidableEq

/-! ### Character classes -/

def isUpper (c : UInt8) : Bool := 65 ≤ c && c ≤ 90

def isLower (c : UInt8) : Bool := 97 ≤ c && c ≤ 122

def isDigit (c : UInt8) : Bool := 48 ≤ c && c ≤ 57

def isAlpha (c : UInt8) : Bool := isLower c || isUpper c

def isAlnum (c : UInt8) : Bool := isDigit c || isLower c || isUpper c

def isXDigit (c : UInt8) : Bool := (hexValue c).isSome

/-- `Curl_raw_tolower`. -/
def rawToLower (c : UInt8) : UInt8 := if isUpper c then c + 32 else c

/-- `Curl_raw_toupper`. -/
def rawToUpper (c : UInt8) : UInt8 := if isLower c then c - 32 else c

/-- `curl_strequal`. -/
def strequal (a b : Bytes) : Bool := a.map rawToUpper == b.map rawToUpper

/-- `checkprefix`. -/
def checkprefix (a b : Bytes) : Bool := strequal a (b.take a.length)

/-- A fact about bytes, by looking at all of them. -/
theorem forall_byte {p : UInt8 → Prop} (h : ∀ n : Fin 256, p (UInt8.ofNat n)) (c : UInt8) : p c := by
  have hc := h ⟨c.toNat, c.toNat_lt⟩
  rwa [UInt8.ofNat_toNat] at hc

theorem isAlnum_rawToUpper (c : UInt8) : isAlnum (rawToUpper c) = isAlnum c := by
  have hall : ∀ n : Fin 256, isAlnum (rawToUpper (UInt8.ofNat n)) = isAlnum (UInt8.ofNat n) := by
    decide +kernel
  have hc := hall ⟨c.toNat, c.toNat_lt⟩
  rwa [UInt8.ofNat_toNat] at hc

/-! ### Numbers -/

/-- `valid_digit` and `Curl_hexval`. -/
def validDigit (base : Nat) (c : UInt8) : Option Nat :=
  match hexValue c with
  | some x => if x.toNat < base then some x.toNat else none
  | none => none

/-- The loop of `str_num_base`; `none` is `STRE_OVERFLOW`. -/
def strNumLoop (base max : Nat) : Nat → Bytes → Option (Nat × Bytes)
  | num, [] => some (num, [])
  | num, c :: s =>
    match validDigit base c with
    | none => some (num, c :: s)
    | some n => if (max - n) / base < num then none else strNumLoop base max (num * base + n) s

/-- `str_num_base`, for a `max` of at least `base`: the number and what is left. -/
def strNumBase (base max : Nat) : Bytes → Option (Nat × Bytes)
  | [] => none
  | c :: s => if (validDigit base c).isSome then strNumLoop base max 0 (c :: s) else none

theorem validDigit_decimal : ∀ d < 10, validDigit 10 (UInt8.ofNat (d + 48)) = some d := by decide

/-- The number that digits behind another number make. -/
def ofDigitsFrom (num : Nat) (ds : List Nat) : Nat := ds.foldl (fun num d => num * 10 + d) num

theorem le_ofDigitsFrom (ds : List Nat) : ∀ num : Nat, num ≤ ofDigitsFrom num ds := by
  induction ds with
  | nil => intro num; exact le_rfl
  | cons d ds ih =>
    intro num
    calc num ≤ num * 10 + d := by omega
      _ ≤ ofDigitsFrom (num * 10 + d) ds := ih _

/-- The bytes of digits. -/
def digitBytes (ds : List Nat) : Bytes := ds.map fun d => UInt8.ofNat (d + 48)

theorem digitBytes_cons (d : Nat) (ds : List Nat) :
    digitBytes (d :: ds) = UInt8.ofNat (d + 48) :: digitBytes ds := rfl

theorem digitBytes_bounds {ds : List Nat} (hds : ∀ d ∈ ds, d < 10) {b : UInt8} (hb : b ∈ digitBytes ds) :
    0 < b.toNat ∧ b.toNat < 128 := by
  have hall : ∀ d < 10, 0 < (UInt8.ofNat (d + 48)).toNat ∧ (UInt8.ofNat (d + 48)).toNat < 128 := by
    decide
  obtain ⟨d, hd, rfl⟩ := List.mem_map.mp hb
  exact hall d (hds d hd)

/-- What ends a number: no digit. -/
def NumberEnds (rest : Bytes) : Prop := ∀ c ∈ rest.head?, validDigit 10 c = none

section

variable {max : Nat} (hmax : 10 ≤ max) {ds : List Nat} (hds : ∀ d ∈ ds, d < 10) {rest : Bytes}
  (hrest : NumberEnds rest)
include hmax hds hrest

theorem strNumLoop_digits :
    ∀ num : Nat, num ≤ max →
      strNumLoop 10 max num (digitBytes ds ++ rest) =
        if ofDigitsFrom num ds ≤ max then some (ofDigitsFrom num ds, rest) else none := by
  induction ds with
  | nil =>
    intro num hnum
    show strNumLoop 10 max num rest = if num ≤ max then some (num, rest) else none
    rw [if_pos hnum]
    cases rest with
    | nil => rfl
    | cons c rest => rw [strNumLoop, hrest c rfl]
  | cons d ds ih =>
    intro num hnum
    have hd : d < 10 := hds d (by simp)
    have hle := le_ofDigitsFrom ds (num * 10 + d)
    have hcons : ofDigitsFrom num (d :: ds) = ofDigitsFrom (num * 10 + d) ds := rfl
    rw [digitBytes_cons, List.cons_append, strNumLoop, validDigit_decimal d hd, hcons]
    dsimp only
    by_cases hbig : (max - d) / 10 < num
    · rw [if_pos hbig, if_neg (by omega)]
    · rw [if_neg hbig, ih (fun e he => hds e (List.mem_cons_of_mem d he)) _ (by omega)]

/-- **A number is read** up to what ends it, if it is not over the limit. -/
theorem strNumBase_digits (hne : ds ≠ []) :
    strNumBase 10 max (digitBytes ds ++ rest) =
      if ofDigitsFrom 0 ds ≤ max then some (ofDigitsFrom 0 ds, rest) else none := by
  have hloop := strNumLoop_digits hmax hds hrest 0 (by omega)
  obtain ⟨d, ds, rfl⟩ := List.exists_cons_of_ne_nil hne
  have hd : (validDigit 10 (UInt8.ofNat (d + 48))).isSome = true := by
    rw [validDigit_decimal d (hds d (by simp))]
    rfl
  rw [← hloop, digitBytes_cons, List.cons_append, strNumBase, if_pos hd]

end

theorem ofDigitsFrom_digits (n : Nat) : ofDigitsFrom 0 (Nat.digits 10 n).reverse = n := by
  rw [ofDigitsFrom, List.foldl_reverse]
  calc (Nat.digits 10 n).foldr (fun d num => num * 10 + d) 0
      = (Nat.digits 10 n).foldr (fun d num => d + 10 * num) 0 := by
        congr 1
        funext d num
        omega
    _ = Nat.ofDigits 10 (Nat.digits 10 n) := (Nat.ofDigits_eq_foldr 10 _).symm
    _ = n := Nat.ofDigits_digits 10 n

/-- The digits of a number, the most significant first. -/
theorem decimal_eq (n : Nat) : ∃ ds : List Nat, ds ≠ [] ∧ (∀ d ∈ ds, d < 10) ∧
    ofDigitsFrom 0 ds = n ∧ decimal n = digitBytes ds := by
  by_cases hn : n = 0
  · exact ⟨[0], by simp, by simp, hn.symm, by rw [decimal, if_pos hn]; rfl⟩
  · refine ⟨(Nat.digits 10 n).reverse, ?_, ?_, ofDigitsFrom_digits n, ?_⟩
    · exact fun h => hn (Nat.digits_eq_nil_iff_eq_zero.mp (List.reverse_eq_nil_iff.mp h))
    · intro d hd
      exact Nat.digits_lt_base (by omega) (List.mem_reverse.mp hd)
    · rw [decimal, if_neg hn]
      rfl

/-- **A decimal number is read back**, if it is not over the limit. -/
theorem strNumBase_decimal {max : Nat} (hmax : 10 ≤ max) (n : Nat) :
    strNumBase 10 max (decimal n) = if n ≤ max then some (n, []) else none := by
  obtain ⟨ds, hne, hds, hn, hdec⟩ := decimal_eq n
  have hread := strNumBase_digits hmax hds (show NumberEnds [] from fun _ h => nomatch h) hne
  rw [List.append_nil, hn] at hread
  rw [hdec, hread]

theorem isDigit_decimal (n : Nat) : ∃ c s, decimal n = c :: s ∧ isDigit c = true := by
  have hall : ∀ d < 10, isDigit (UInt8.ofNat (d + 48)) = true := by decide
  obtain ⟨ds, hne, hds, -, hdec⟩ := decimal_eq n
  obtain ⟨d, ds, rfl⟩ := List.exists_cons_of_ne_nil hne
  exact ⟨_, _, hdec, hall d (hds d (by simp))⟩

theorem decimal_bounds {n : Nat} {b : UInt8} (hb : b ∈ decimal n) : 0 < b.toNat ∧ b.toNat < 128 := by
  obtain ⟨ds, -, hds, -, hdec⟩ := decimal_eq n
  rw [hdec] at hb
  exact digitBytes_bounds hds hb

/-! ### Numbers of the language -/

theorem ofNat_eq_ascii (n : Nat) : ofNat n = ascii (decimal n) := by
  have hall : ∀ d < 10, UInt16.ofNat (d + 48) = (UInt8.ofNat (d + 48)).toUInt16 := by decide
  rw [ofNat, decimal]
  split
  · rfl
  · rw [ascii, List.map_map]
    apply List.map_congr_left
    intro d hd
    exact hall d (Nat.digits_lt_base (by omega) (List.mem_reverse.mp hd))

/-- A number that is not negative, as libcurl gets it. -/
theorem cString_ofInt {p : Int} (hp : 0 ≤ p) : cString (ofInt p) = decimal p.toNat := by
  have hnat : p.natAbs = p.toNat := by omega
  rw [ofInt, if_neg (by omega), ofNat_eq_ascii, hnat]
  exact cString_ascii fun b hb => decimal_bounds hb

theorem cString_negative {p : Int} (hp : p < 0) : cString (ofInt p) = byte '-' :: decimal p.natAbs := by
  rw [ofInt, if_pos hp, ofNat_eq_ascii]
  show cString (ascii (byte '-' :: decimal p.natAbs)) = _
  apply cString_ascii
  intro b hb
  obtain rfl | hb := List.mem_cons.mp hb
  · decide
  · exact decimal_bounds hb

end NetMod.CurlText
