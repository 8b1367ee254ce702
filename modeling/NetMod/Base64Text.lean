import NetMod.CurlText
import NetMod.Lib.Base64

/-!
# `base64.c`: the encoding of a certificate

`mbedtls_base64_encode` and `mbedtls_base64_decode`, loop by loop.  The decoder goes over its text
twice: the first pass checks and counts, the second shifts the digits through an accumulator that is
never cleared.  A text that is encoded data but for its line ends decodes to the data
(`decode_of_filter`).  The buffers of C are the bytes written to them.
-/

namespace NetMod.Base64Text

open NetMod.CurlText

/-- `SIZE_MAX`. -/
def sizeMax : Nat := 2 ^ 64 - 1

/-- `mbedtls_ct_uchar_in_range_if`. -/
def inRangeIf (low high c t : UInt8) : UInt8 := if low ≤ c ∧ c ≤ high then t else 0

/-- `mbedtls_ct_base64_enc_char`. -/
def encChar (value : UInt8) : UInt8 :=
  inRangeIf 0 25 value (byte 'A' + value)
    ||| inRangeIf 26 51 value (byte 'a' + value - 26)
    ||| inRangeIf 52 61 value (byte '0' + value - 52)
    ||| inRangeIf 62 62 value (byte '+')
    ||| inRangeIf 63 63 value (byte '/')

/-- `mbedtls_ct_base64_dec_value`. -/
def decValue (c : UInt8) : Int :=
  let val := inRangeIf (byte 'A') (byte 'Z') c (c - byte 'A' + 0 + 1)
    ||| inRangeIf (byte 'a') (byte 'z') c (c - byte 'a' + 26 + 1)
    ||| inRangeIf (byte '0') (byte '9') c (c - byte '0' + 52 + 1)
    ||| inRangeIf (byte '+') (byte '+') c (c - byte '+' + 62 + 1)
    ||| inRangeIf (byte '/') (byte '/') c (c - byte '/' + 63 + 1)
  (val.toNat : Int) - 1

/-! ### The functions -/

/-- The result of `mbedtls_base64_encode`: the text, or the size that the buffer should have had. -/
inductive Encoding where
  | text (s : Bytes)
  | tooSmall (olen : Nat)
deriving DecidableEq

def Encoding.olen : Encoding → Nat
  | .text s => s.length
  | .tooSmall olen => olen

/-- A digit as the C code computes it, on `int`. -/
def digit (n : Nat) : UInt8 := encChar (UInt8.ofNat (n &&& 0x3F))

/-- The loop of `mbedtls_base64_encode` and what follows it. -/
def encodeLoop : Bytes → Bytes
  | c1 :: c2 :: c3 :: src =>
    digit (c1.toNat >>> 2) :: digit (((c1.toNat &&& 3) <<< 4) + (c2.toNat >>> 4))
      :: digit (((c2.toNat &&& 15) <<< 2) + (c3.toNat >>> 6)) :: digit c3.toNat :: encodeLoop src
  | [c1, c2] =>
    [digit (c1.toNat >>> 2), digit (((c1.toNat &&& 3) <<< 4) + (c2.toNat >>> 4)),
      digit ((c2.toNat &&& 15) <<< 2), byte '=']
  | [c1] => [digit (c1.toNat >>> 2), digit (((c1.toNat &&& 3) <<< 4) + (0 >>> 4)), byte '=', byte '=']
  | [] => []

/-- `mbedtls_base64_encode` into a buffer of `dst` bytes; no buffer is `NULL`. -/
def mbedtlsBase64Encode (dst : Option Nat) (src : Bytes) : Encoding :=
  if src = [] then .text []
  else
    let n := src.length / 3 + (if src.length % 3 ≠ 0 then 1 else 0)
    if n > (sizeMax - 1) / 4 then .tooSmall sizeMax
    else
      let n := n * 4
      match dst with
      | none => .tooSmall (n + 1)
      | some dlen => if dlen < n + 1 then .tooSmall (n + 1) else .text (encodeLoop src)

/-- The result of `mbedtls_base64_decode`; three of the four set `*olen`. -/
inductive Decoding where
  | bytes (s : Bytes)
  | tooSmall (olen : Nat)
  | corruption (olen : Nat)
  | invalidCharacter
deriving DecidableEq

/-- The first pass of `mbedtls_base64_decode`: `n` digits and `=` so far, `equals` of them `=`, and
whether spaces stand before the next character. -/
def firstPass (spacesPresent : Bool) (n equals : Nat) : Bytes → Option (Nat × Nat)
  | [] => some (n, equals)
  | c :: src =>
    if c = byte ' ' then firstPass true n equals src
    else if c = byte '\r' ∧ src.head? = some (byte '\n') then firstPass false n equals src
    else if c = byte '\n' then firstPass false n equals src
    else if spacesPresent then none
    else if 127 < c then none
    else if c = byte '=' then
      if equals + 1 > 2 then none else firstPass false (n + 1) (equals + 1) src
    else if equals ≠ 0 then none
    else if decValue c < 0 then none
    else firstPass false (n + 1) equals src

/-- `MBEDTLS_BYTE_n`. -/
def byteOf (n : Nat) (x : UInt32) : UInt8 := UInt8.ofNat (x.toNat >>> (8 * n))

/-- What `mbedtls_base64_decode` writes after its second loop. -/
def flush (x : UInt32) (accumulatedDigits : Nat) : Bytes :=
  if accumulatedDigits = 3 then [byteOf 2 (x <<< 6), byteOf 1 (x <<< 6)]
  else if accumulatedDigits = 2 then [byteOf 2 (x <<< 12)]
  else []

/-- The second pass; `x` is never cleared, it shifts old digits out. -/
def secondPass (x : UInt32) (accumulatedDigits : Nat) : Bytes → Bytes
  | [] => flush x accumulatedDigits
  | c :: src =>
    if c = byte '\r' ∨ c = byte '\n' ∨ c = byte ' ' then secondPass x accumulatedDigits src
    else if c = byte '=' then flush x accumulatedDigits
    else
      let x := (x <<< 6) ||| UInt32.ofInt (decValue c)
      if accumulatedDigits + 1 = 4 then byteOf 2 x :: byteOf 1 x :: byteOf 0 x :: secondPass x 0 src
      else secondPass x (accumulatedDigits + 1) src

/-- `mbedtls_base64_decode` into a buffer of `dst` bytes; no buffer is `NULL` with `dlen = 0`. -/
def mbedtlsBase64Decode (dst : Option Nat) (src : Bytes) : Decoding :=
  match firstPass false 0 0 src with
  | none => .invalidCharacter
  | some (n, equals) =>
    if (n - equals) % 4 = 1 then .invalidCharacter
    else if n % 4 ≠ 0 then .invalidCharacter
    else
      let olen := n / 4 * 3 - equals
      if (olen ≠ 0 ∧ dst = none) ∨ dst.getD 0 < olen then .tooSmall olen
      else if olen ≠ (secondPass 0 0 src).length then .corruption olen
      else .bytes (secondPass 0 0 src)

def Decoding.olen : Decoding → Nat
  | .bytes s => s.length
  | .tooSmall olen | .corruption olen => olen
  | .invalidCharacter => 0

/-! ### The alphabet -/

/-- The character of a digit. -/
def letter (v : Nat) : UInt8 := encChar (UInt8.ofNat v)

/-- A character that neither ends a line nor fills up the text, nor occurs in a marker's dashes. -/
def isPlain (c : UInt8) : Bool :=
  c != byte ' ' && c != byte '\r' && c != byte '\n' && c != byte '=' && c != byte '-' && c ≤ 127
    && c != 0

theorem letter_spec {v : Nat} (hv : v < 64) :
    decValue (letter v) = v ∧ isPlain (letter v) = true := by
  have hall : ∀ w : Fin 64, decValue (letter w) = (w.val : Int) ∧ isPlain (letter w) = true := by
    decide +kernel
  exact hall ⟨v, hv⟩

theorem digit_eq {n v : Nat} (h : n % 64 = v) : digit n = letter v := by
  rw [digit, letter, show (0x3F : Nat) = 2 ^ 6 - 1 from rfl, Nat.and_two_pow_sub_one_eq_mod, ← h]

theorem and_three (n : Nat) : n &&& 3 = n % 4 := Nat.and_two_pow_sub_one_eq_mod n 2

theorem and_fifteen (n : Nat) : n &&& 15 = n % 16 := Nat.and_two_pow_sub_one_eq_mod n 4

/-! ### Encoding -/

/-- The four characters of a group, and the three or two of a last one. -/
theorem digit_parts (a b c : Nat) (ha : a < 256) (hb : b < 256) :
    digit (a >>> 2) = letter (a / 4)
      ∧ digit (((a &&& 3) <<< 4) + (b >>> 4)) = letter (a % 4 * 16 + b / 16)
      ∧ digit ((a &&& 15) <<< 2) = letter (a % 16 * 4)
      ∧ digit (((b &&& 15) <<< 2) + (c >>> 6)) = letter ((b % 16 * 4 + c / 64) % 64) := by
  simp only [and_three, and_fifteen, Nat.shiftLeft_eq, Nat.shiftRight_eq_div_pow]
  refine ⟨digit_eq ?_, digit_eq ?_, digit_eq ?_, digit_eq ?_⟩ <;> omega

theorem encodeLoop_eq (src : Bytes) :
    encodeLoop src
      = (Base64.digits src).map letter ++ List.replicate (Base64.padding src.length) (byte '=') := by
  fun_induction encodeLoop src with
  | case1 c1 c2 c3 src ih =>
    have h1 := c1.toNat_lt
    have h2 := c2.toNat_lt
    have h3 := c3.toNat_lt
    obtain ⟨e1, e2, -, -⟩ := digit_parts c1.toNat c2.toNat 0 h1 h2
    obtain ⟨-, -, -, e3⟩ := digit_parts c1.toNat c2.toNat c3.toNat h1 h2
    have hlow : (c2.toNat % 16 * 4 + c3.toNat / 64) % 64 = c2.toNat % 16 * 4 + c3.toNat / 64 := by
      omega
    rw [e1, e2, e3, hlow, digit_eq rfl, ih, Base64.digits, List.length_cons, List.length_cons,
      List.length_cons, Base64.padding_add_three]
    rfl
  | case2 c1 c2 =>
    have h1 := c1.toNat_lt
    have h2 := c2.toNat_lt
    obtain ⟨e1, e2, -, -⟩ := digit_parts c1.toNat c2.toNat 0 h1 h2
    obtain ⟨-, -, e3, -⟩ := digit_parts c2.toNat c2.toNat 0 h2 h2
    rw [e1, e2, e3]
    rfl
  | case3 c1 =>
    have h1 := c1.toNat_lt
    obtain ⟨e1, e2, -, -⟩ := digit_parts c1.toNat 0 0 h1 (by decide)
    rw [e1, e2]
    rfl
  | case4 => rfl

theorem length_encodeLoop (src : Bytes) : (encodeLoop src).length = 4 * ((src.length + 2) / 3) := by
  rw [encodeLoop_eq, List.length_append, List.length_map, List.length_replicate,
    Base64.length_digits_add_padding]

/-- The characters of an encoded text: letters and `=`. -/
theorem mem_encodeLoop {src : Bytes} {c : UInt8} (hc : c ∈ encodeLoop src) :
    isPlain c = true ∨ c = byte '=' := by
  rw [encodeLoop_eq, List.mem_append, List.mem_map] at hc
  rcases hc with ⟨v, hv, rfl⟩ | hc
  · exact Or.inl (letter_spec (Base64.digits_lt src v hv)).2
  · exact Or.inr (List.eq_of_mem_replicate hc)

/-! ### Decoding -/

/-- One digit shifted into the accumulator. -/
def pushed (x : UInt32) (v : Nat) : UInt32 := (x <<< 6) ||| UInt32.ofInt v

theorem toNat_pushed (x : UInt32) {v : Nat} (hv : v < 64) :
    (pushed x v).toNat = (x.toNat * 64 + v) % 2 ^ 32 := by
  have hval : (UInt32.ofInt v).toNat = v := by
    rw [UInt32.ofInt, UInt32.toNat_ofNat']
    omega
  have hshift : x.toNat <<< 6 % 2 ^ 32 = (x.toNat % 2 ^ 26) <<< 6 := by
    rw [Nat.shiftLeft_eq, Nat.shiftLeft_eq]
    omega
  have hor := Nat.shiftLeft_add_eq_or_of_lt (i := 6) hv (x.toNat % 2 ^ 26)
  rw [pushed, UInt32.toNat_or, UInt32.toNat_shiftLeft, hval]
  show x.toNat <<< 6 % 2 ^ 32 ||| v = _
  rw [hshift, ← hor, Nat.shiftLeft_eq]
  omega

theorem byteOf_eq {n m : Nat} {x : UInt32} (h : x.toNat / 2 ^ (8 * n) % 256 = m) :
    byteOf n x = UInt8.ofNat m := by
  rw [byteOf, Nat.shiftRight_eq_div_pow, ← h, ← UInt8.toNat_inj, UInt8.toNat_ofNat',
    UInt8.toNat_ofNat']
  omega

theorem toNat_shifted (x : UInt32) {k : UInt32} (hk : k.toNat < 32) :
    (x <<< k).toNat = x.toNat * 2 ^ k.toNat % 2 ^ 32 := by
  rw [UInt32.toNat_shiftLeft, Nat.shiftLeft_eq, Nat.mod_eq_of_lt hk]

/-- What four digits leave in the accumulator, whatever was there. -/
theorem bytes_pushed (x : UInt32) {p q r t : Nat} (hp : p < 64) (hq : q < 64) (hr : r < 64)
    (ht : t < 64) :
    let y := pushed (pushed (pushed (pushed x p) q) r) t
    byteOf 2 y = UInt8.ofNat (p * 4 + q / 16) ∧ byteOf 1 y = UInt8.ofNat (q % 16 * 16 + r / 4)
      ∧ byteOf 0 y = UInt8.ofNat (r % 4 * 64 + t) := by
  intro y
  have h1 := toNat_pushed x hp
  have h2 := toNat_pushed (pushed x p) hq
  have h3 := toNat_pushed (pushed (pushed x p) q) hr
  have h4 : y.toNat = _ := toNat_pushed (pushed (pushed (pushed x p) q) r) ht
  rw [h3, h2, h1] at h4
  have hlow : y.toNat % 2 ^ 24 = ((p * 64 + q) * 64 + r) * 64 + t := by
    rw [h4]
    omega
  exact ⟨byteOf_eq (by omega), byteOf_eq (by omega), byteOf_eq (by omega)⟩

theorem flush_three (x : UInt32) {p q r : Nat} (hp : p < 64) (hq : q < 64) (hr : r < 64) :
    flush (pushed (pushed (pushed x p) q) r) 3
      = [UInt8.ofNat (p * 4 + q / 16), UInt8.ofNat (q % 16 * 16 + r / 4)] := by
  have h1 := toNat_pushed x hp
  have h2 := toNat_pushed (pushed x p) hq
  have h3 := toNat_pushed (pushed (pushed x p) q) hr
  have h4 := toNat_shifted (pushed (pushed (pushed x p) q) r) (k := 6) (by decide)
  rw [h3, h2, h1] at h4
  have hb2 : byteOf 2 (pushed (pushed (pushed x p) q) r <<< 6) = UInt8.ofNat (p * 4 + q / 16) := by
    apply byteOf_eq
    rw [h4]
    show _ * 2 ^ 6 % 2 ^ 32 / 2 ^ 16 % 256 = _
    omega
  have hb1 : byteOf 1 (pushed (pushed (pushed x p) q) r <<< 6)
      = UInt8.ofNat (q % 16 * 16 + r / 4) := by
    apply byteOf_eq
    rw [h4]
    show _ * 2 ^ 6 % 2 ^ 32 / 2 ^ 8 % 256 = _
    omega
  rw [flush, if_pos rfl, hb2, hb1]

theorem flush_two (x : UInt32) {p q : Nat} (hp : p < 64) (hq : q < 64) :
    flush (pushed (pushed x p) q) 2 = [UInt8.ofNat (p * 4 + q / 16)] := by
  have h1 := toNat_pushed x hp
  have h2 := toNat_pushed (pushed x p) hq
  have h4 := toNat_shifted (pushed (pushed x p) q) (k := 12) (by decide)
  rw [h2, h1] at h4
  have hb2 : byteOf 2 (pushed (pushed x p) q <<< 12) = UInt8.ofNat (p * 4 + q / 16) := by
    apply byteOf_eq
    rw [h4]
    show _ * 2 ^ 12 % 2 ^ 32 / 2 ^ 16 % 256 = _
    omega
  rw [flush, if_neg (by decide), if_pos rfl, hb2]

theorem isPlain_iff {c : UInt8} : isPlain c = true ↔ c ≠ byte ' ' ∧ c ≠ byte '\r' ∧ c ≠ byte '\n'
    ∧ c ≠ byte '=' ∧ c ≠ byte '-' ∧ c ≤ 127 ∧ c ≠ 0 := by
  simp only [isPlain, Bool.and_eq_true, bne_iff_ne, decide_eq_true_eq, and_assoc]

theorem secondPass_letter {v : Nat} (hv : v < 64) (x : UInt32) (k : Nat) (src : Bytes) :
    secondPass x k (letter v :: src)
      = if k + 1 = 4 then
          byteOf 2 (pushed x v) :: byteOf 1 (pushed x v) :: byteOf 0 (pushed x v)
            :: secondPass (pushed x v) 0 src
        else secondPass (pushed x v) (k + 1) src := by
  obtain ⟨hval, hplain⟩ := letter_spec hv
  obtain ⟨hsp, hcr, hlf, heq, -⟩ := isPlain_iff.mp hplain
  rw [secondPass, if_neg (by simp only [hsp, hcr, hlf, or_self, not_false_eq_true]), if_neg heq, hval]
  rfl

/-- `=` and the end of the text both end the second pass. -/
theorem secondPass_pads (x : UInt32) (k p : Nat) :
    secondPass x k (List.replicate p (byte '=')) = flush x k := by
  cases p with
  | zero => rfl
  | succ p =>
    rw [List.replicate_succ, secondPass, if_neg (by decide), if_pos rfl]

theorem secondPass_letters (ds : List Nat) (hds : ∀ d ∈ ds, d < 64) (hlen : ds.length % 4 ≠ 1)
    (x : UInt32) (p : Nat) :
    secondPass x 0 (ds.map letter ++ List.replicate p (byte '=')) = Base64.bytes ds := by
  fun_induction Base64.bytes ds generalizing x with
  | case1 a b c d ds ih =>
    simp only [List.forall_mem_cons] at hds
    obtain ⟨ha, hb, hc, hd, hds⟩ := hds
    have hrest : ds.length % 4 ≠ 1 := by
      simp only [List.length_cons] at hlen
      omega
    obtain ⟨h2, h1, h0⟩ := bytes_pushed x ha hb hc hd
    simp only [List.map_cons, List.cons_append]
    rw [secondPass_letter ha, if_neg (by decide), secondPass_letter hb, if_neg (by decide),
      secondPass_letter hc, if_neg (by decide), secondPass_letter hd, if_pos rfl, h2, h1, h0,
      ih hds hrest]
  | case2 a b c =>
    simp only [List.forall_mem_cons] at hds
    obtain ⟨ha, hb, hc, -⟩ := hds
    simp only [List.map_cons, List.map_nil, List.cons_append, List.nil_append]
    rw [secondPass_letter ha, if_neg (by decide), secondPass_letter hb, if_neg (by decide),
      secondPass_letter hc, if_neg (by decide), secondPass_pads, flush_three x ha hb hc]
  | case3 a b =>
    simp only [List.forall_mem_cons] at hds
    obtain ⟨ha, hb, -⟩ := hds
    simp only [List.map_cons, List.map_nil, List.cons_append, List.nil_append]
    rw [secondPass_letter ha, if_neg (by decide), secondPass_letter hb, if_neg (by decide),
      secondPass_pads, flush_two x ha hb]
  | case4 => exact absurd rfl hlen
  | case5 => exact secondPass_pads x 0 p

/-- Line ends do not count in the second pass. -/
theorem secondPass_filter (x : UInt32) (k : Nat) (src : Bytes) :
    secondPass x k src = secondPass x k (src.filter (· != byte '\n')) := by
  induction src generalizing x k with
  | nil => rfl
  | cons c src ih =>
    by_cases hc : c = byte '\n'
    · rw [List.filter_cons_of_neg (by rw [hc]; decide), secondPass, if_pos (Or.inr (Or.inl hc)), ih]
    · rw [List.filter_cons_of_pos (by rw [bne_iff_ne]; exact hc), secondPass, secondPass]
      simp only [← ih]

/-- Line ends do not count in the first pass, where no other blanks are. -/
theorem firstPass_filter (n equals : Nat) {src : Bytes} (hsp : byte ' ' ∉ src)
    (hcr : byte '\r' ∉ src) :
    firstPass false n equals src = firstPass false n equals (src.filter (· != byte '\n')) := by
  induction src generalizing n equals with
  | nil => rfl
  | cons c src ih =>
    simp only [List.mem_cons, not_or] at hsp hcr
    obtain ⟨hcsp, hsp⟩ := hsp
    obtain ⟨hccr, hcr⟩ := hcr
    have hno : ¬ (c = byte '\r' ∧ src.head? = some (byte '\n')) := fun h => hccr h.1.symm
    by_cases hc : c = byte '\n'
    · rw [List.filter_cons_of_neg (by rw [hc]; decide), firstPass, if_neg (Ne.symm hcsp), if_neg hno,
        if_pos hc, ih _ _ hsp hcr]
    · have hno' : ¬ (c = byte '\r' ∧ (src.filter (· != byte '\n')).head? = some (byte '\n')) :=
        fun h => hccr h.1.symm
      rw [List.filter_cons_of_pos (by rw [bne_iff_ne]; exact hc), firstPass, firstPass,
        if_neg (Ne.symm hcsp), if_neg (Ne.symm hcsp), if_neg hno, if_neg hno', if_neg hc, if_neg hc]
      simp only [ih _ _ hsp hcr]

theorem firstPass_pads (n equals p : Nat) (hp : equals + p ≤ 2) :
    firstPass false n equals (List.replicate p (byte '=')) = some (n + p, equals + p) := by
  induction p generalizing n equals with
  | zero => rfl
  | succ p ih =>
    rw [List.replicate_succ, firstPass, if_neg (by decide), if_neg (fun h => absurd h.1 (by decide)),
      if_neg (by decide), if_neg Bool.false_ne_true, if_neg (by decide), if_pos rfl,
      if_neg (by omega), ih _ _ (by omega)]
    congr 2 <;> omega

theorem firstPass_letters (n : Nat) (ds : List Nat) (hds : ∀ d ∈ ds, d < 64) (p : Nat) (hp : p ≤ 2) :
    firstPass false n 0 (ds.map letter ++ List.replicate p (byte '='))
      = some (n + ds.length + p, p) := by
  induction ds generalizing n with
  | nil =>
    have hpads := firstPass_pads n 0 p (by omega)
    rw [Nat.zero_add] at hpads
    exact hpads
  | cons d ds ih =>
    obtain ⟨hd, hds⟩ := List.forall_mem_cons.mp hds
    obtain ⟨hval, hplain⟩ := letter_spec hd
    obtain ⟨hsp, hcr, hlf, heq, -, hlow, -⟩ := isPlain_iff.mp hplain
    rw [List.map_cons, List.cons_append, firstPass, if_neg hsp, if_neg (fun h => hcr h.1), if_neg hlf,
      if_neg Bool.false_ne_true, if_neg (UInt8.not_lt.mpr hlow), if_neg heq, if_neg (not_not_intro rfl),
      hval, if_neg (by omega), ih _ hds, List.length_cons]
    congr 2
    omega

/-- **A text that is encoded data but for its line ends decodes to the data.** -/
theorem decode_of_filter {src text : Bytes} (hsrc : src ≠ [])
    (htext : text.filter (· != byte '\n') = encodeLoop src) :
    mbedtlsBase64Decode none text = .tooSmall src.length
      ∧ mbedtlsBase64Decode (some src.length) text = .bytes src := by
  have hmem : ∀ c ∈ text, c ≠ byte '\n' → isPlain c = true ∨ c = byte '=' := by
    intro c hc hlf
    apply mem_encodeLoop
    rw [← htext]
    exact List.mem_filter.mpr ⟨hc, by rw [bne_iff_ne]; exact hlf⟩
  have hsp : byte ' ' ∉ text := fun h => absurd (hmem _ h (by decide)) (by decide)
  have hcr : byte '\r' ∉ text := fun h => absurd (hmem _ h (by decide)) (by decide)
  have hfirst : firstPass false 0 0 text
      = some ((Base64.digits src).length + Base64.padding src.length, Base64.padding src.length) := by
    rw [firstPass_filter 0 0 hsp hcr, htext, encodeLoop_eq,
      firstPass_letters 0 _ (Base64.digits_lt src) _ (Base64.padding_le _), Nat.zero_add]
  have hlen := Base64.length_digits src
  have hpad : Base64.padding src.length = (3 - src.length % 3) % 3 := rfl
  have hsecond : secondPass 0 0 text = src := by
    rw [secondPass_filter, htext, encodeLoop_eq,
      secondPass_letters _ (Base64.digits_lt src) (by omega), Base64.bytes_digits]
  have hpos := List.length_pos_of_ne_nil hsrc
  have hwhole' := Base64.length_digits_add_padding src
  have holen : ((Base64.digits src).length + Base64.padding src.length) / 4 * 3
      - Base64.padding src.length = src.length := by
    rw [hwhole']
    omega
  have hone : ¬ ((Base64.digits src).length + Base64.padding src.length
      - Base64.padding src.length) % 4 = 1 := by omega
  have hwhole : ¬ ((Base64.digits src).length + Base64.padding src.length) % 4 ≠ 0 := by omega
  have hnull : mbedtlsBase64Decode none text = .tooSmall src.length := by
    rw [mbedtlsBase64Decode, hfirst]
    dsimp only
    rw [if_neg hone, if_neg hwhole, holen, if_pos (Or.inl ⟨by omega, rfl⟩)]
  have hbuf : mbedtlsBase64Decode (some src.length) text = .bytes src := by
    rw [mbedtlsBase64Decode, hfirst]
    dsimp only
    rw [if_neg hone, if_neg hwhole, holen, hsecond, if_neg (by simp), if_neg (by simp)]
  exact ⟨hnull, hbuf⟩

end NetMod.Base64Text
