import NetMod.Base64Text

/-!
# `pem.c` and `http.mod/glue.c`: certificates as text

`bmx_net_http_der_to_pem` writes a certificate between two marker lines, in lines of 64 characters;
`mbedtls_pem_read_buffer` is what finds the bytes again when libcurl loads the bundle.  Texts end at
their first NUL.

The reader is modelled as `mbedtls_x509_crt_parse` calls it, without a password: the header of an
encrypted block is read to its end, and such a block is refused.
-/

namespace NetMod.PemText

open NetMod.CurlText NetMod.Base64Text

/-! ### The functions -/

/-- The result of `mbedtls_pem_write_buffer`: the buffer with how much of it is text, NUL included,
or the size that it should have had. -/
inductive PemWrite where
  | written (buf : Bytes) (olen : Nat)
  | tooSmall (olen : Nat)
  | failed
deriving DecidableEq

/-- `*olen`, which the callers set to 0 before. -/
def PemWrite.olen : PemWrite → Nat
  | .written _ olen => olen
  | .tooSmall olen => olen
  | .failed => 0

/-- The loop of `mbedtls_pem_write_buffer` over the encoded text. -/
def writeLines (c : Bytes) : Bytes :=
  if c = [] then []
  else
    let len := if c.length > 64 then 64 else c.length
    c.take len ++ byte '\n' :: writeLines (c.drop len)
termination_by c.length
decreasing_by
  have := List.length_pos_of_ne_nil ‹¬ c = []›
  rw [List.length_drop]
  split <;> omega

/-- `mbedtls_pem_write_buffer` into a buffer of `bufLen` bytes. -/
def mbedtlsPemWriteBuffer (header footer derData : Bytes) (bufLen : Nat) : PemWrite :=
  let useLen := (mbedtlsBase64Encode none derData).olen
  let addLen := header.length + footer.length + (if useLen > 2 then useLen - 2 else 0) / 64 + 1
  let required := (useLen + addLen) % (sizeMax + 1)
  if required > bufLen then .tooSmall required
  else
    match mbedtlsBase64Encode (if useLen ≠ 0 then some useLen else none) derData with
    | .tooSmall _ => .failed
    | .text encodeBuf =>
      let p := header ++ writeLines encodeBuf ++ footer ++ [0]
      -- what is left of the buffer is cleared
      .written (p ++ List.replicate (bufLen - p.length) 0) p.length

/-- A `size_t` given as an `int`. -/
def toInt (n : Nat) : Int := (n : Int).bmod (2 ^ 32)

/-- `bbStringFromBytes`: the bytes of the string; a negative length makes none. -/
def bbStringFromBytes (p : Bytes) (n : Int) : Option Bytes :=
  if n < 0 then none else some (p.take n.toNat)

/-- `bmx_net_http_der_to_pem`: the bytes of the string, or none for a return value that is not 0. -/
def bmxNetHttpDerToPem (der : Bytes) : Option Bytes :=
  let header := bytes "-----BEGIN CERTIFICATE-----\n"
  let footer := bytes "-----END CERTIFICATE-----\n"
  let olen := (mbedtlsPemWriteBuffer header footer der 0).olen
  match mbedtlsPemWriteBuffer header footer der olen with
  | .written buf olen => bbStringFromBytes buf (toInt (if olen > 0 then olen - 1 else 0))
  | .tooSmall _ | .failed => none

/-- `strstr`. -/
def strstr (needle : Bytes) : Bytes → Option Nat
  | [] => none
  | c :: s =>
    if needle.isPrefixOf (c :: s) then some 0
    else if c = 0 then none
    else (strstr needle s).map (· + 1)

/-- The byte at an offset of a text; a text ends with NUL. -/
def charAt (data : Bytes) (i : Nat) : UInt8 := data.getD i 0

/-- `if (*s == c) s++`. -/
def skip (data : Bytes) (c : UInt8) (i : Nat) : Nat := if charAt data i = c then i + 1 else i

/-- The errors of `mbedtls_pem_read_buffer` other than a missing header or footer. -/
inductive PemError where
  | invalidData
  | invalidCharacter
  | badInputData
  | invalidEncIv
  | unknownEncAlg
  | passwordRequired
  | decodeFailed
deriving DecidableEq

inductive Cipher where
  | desEde3Cbc
  | desCbc
  | aes128Cbc
  | aes192Cbc
  | aes256Cbc
deriving DecidableEq

/-- The result of `mbedtls_pem_read_buffer`, with `*use_len` where it is set. -/
inductive PemRead where
  | noHeaderFooter
  | failed (e : PemError) (useLen : Nat)
  | ok (buf : Bytes) (useLen : Nat)
deriving DecidableEq

/-- `s2 - s1 >= strlen(word) && memcmp(s1, word, strlen(word)) == 0`. -/
def wordAt (data : Bytes) (s1 s2 : Nat) (word : Bytes) : Bool :=
  decide (s1 + word.length ≤ s2) && word.isPrefixOf (data.drop s1)

/-- The test on the digits of an initial vector, which `pem_get_iv` makes as it reads them; the
vector itself serves decryption alone. -/
def ivAt (data : Bytes) (s1 s2 ivDigits : Nat) (alg : Cipher) : Except PemError (Option Cipher × Nat) :=
  if s2 < s1 + ivDigits ∨ ¬ ((data.drop s1).take ivDigits).all isXDigit then .error .invalidEncIv
  else .ok (some alg, s1 + ivDigits)

/-- The DES part of a `DEK-Info` line. -/
def desInfo (data : Bytes) (s1 s2 : Nat) : Except PemError (Option Cipher × Nat) :=
  if wordAt data s1 s2 (bytes "DEK-Info: DES-EDE3-CBC,") then ivAt data (s1 + 23) s2 16 .desEde3Cbc
  else if wordAt data s1 s2 (bytes "DEK-Info: DES-CBC,") then ivAt data (s1 + 18) s2 16 .desCbc
  else .ok (none, s1)

/-- The AES part, which is looked for behind a DES part too. -/
def aesInfo (data : Bytes) (alg : Option Cipher) (s1 s2 : Nat) :
    Except PemError (Option Cipher × Nat) :=
  if wordAt data s1 s2 (bytes "DEK-Info: AES-") then
    if s2 < s1 + 22 then .error .unknownEncAlg
    else if wordAt data s1 s2 (bytes "DEK-Info: AES-128-CBC,") then
      ivAt data (s1 + 22) s2 32 .aes128Cbc
    else if wordAt data s1 s2 (bytes "DEK-Info: AES-192-CBC,") then
      ivAt data (s1 + 22) s2 32 .aes192Cbc
    else if wordAt data s1 s2 (bytes "DEK-Info: AES-256-CBC,") then
      ivAt data (s1 + 22) s2 32 .aes256Cbc
    else .error .unknownEncAlg
  else .ok (alg, s1)

/-- The header lines of an encrypted block: whether the block is encrypted, and where its data
starts. -/
def encryptedHeader (data : Bytes) (s1 s2 : Nat) : Except PemError (Bool × Nat) :=
  if wordAt data s1 s2 (bytes "Proc-Type: 4,ENCRYPTED") then do
    let s1 := skip data (byte '\r') (s1 + 22)
    if charAt data s1 ≠ byte '\n' then throw .invalidData
    let (alg, s1) ← desInfo data (s1 + 1) s2
    let (alg, s1) ← aesInfo data alg s1 s2
    if alg = none then throw .unknownEncAlg
    let s1 := skip data (byte '\r') s1
    if charAt data s1 ≠ byte '\n' then throw .invalidData
    return (true, s1 + 1)
  else .ok (false, s1)

/-- The text of a block, decoded: once to see how long it is, once into a buffer of that length. -/
def blockData (src : Bytes) (enc : Bool) : Except PemError Bytes :=
  let sized := mbedtlsBase64Decode none src
  if sized = .invalidCharacter then .error .invalidCharacter
  else if sized.olen = 0 then .error .badInputData
  else
    match mbedtlsBase64Decode (some sized.olen) src with
    | .bytes buf => if enc then .error .passwordRequired else .ok buf
    | _ => .error .decodeFailed

/-- `mbedtls_pem_read_buffer` without a password. -/
def mbedtlsPemReadBuffer (header footer data : Bytes) : PemRead :=
  match strstr header data, strstr footer data with
  | some s1, some s2 =>
    if s2 ≤ s1 then .noHeaderFooter
    else
      let s1 := skip data (byte '\r') (skip data (byte ' ') (s1 + header.length))
      if charAt data s1 ≠ byte '\n' then .noHeaderFooter
      else
        let useLen := skip data (byte '\n')
          (skip data (byte '\r') (skip data (byte ' ') (s2 + footer.length)))
        match encryptedHeader data (s1 + 1) s2 with
        | .error e => .failed e useLen
        | .ok (enc, s1) =>
          if s1 ≥ s2 then .failed .invalidData useLen
          else
            match blockData ((data.drop s1).take (s2 - s1)) enc with
            | .error e => .failed e useLen
            | .ok buf => .ok buf useLen
  | _, _ => .noHeaderFooter

/-! ### Writing a block -/

theorem filter_writeLines {c : Bytes} (hc : byte '\n' ∉ c) :
    (writeLines c).filter (· != byte '\n') = c := by
  fun_induction writeLines c with
  | case1 => rfl
  | case2 c hne len ih =>
    have hdrop : byte '\n' ∉ c.drop len := fun h => hc (List.mem_of_mem_drop h)
    have htake : (c.take len).filter (· != byte '\n') = c.take len := by
      apply List.filter_eq_self.mpr
      intro a ha
      rw [bne_iff_ne]
      intro heq
      exact hc (heq ▸ List.mem_of_mem_take ha)
    rw [List.filter_append, htake, List.filter_cons_of_neg (by decide), ih hdrop,
      List.take_append_drop]

theorem mem_writeLines {c : Bytes} {a : UInt8} (ha : a ∈ writeLines c) : a ∈ c ∨ a = byte '\n' := by
  fun_induction writeLines c with
  | case1 => exact absurd ha List.not_mem_nil
  | case2 c hne len ih =>
    simp only [List.mem_append, List.mem_cons] at ha
    rcases ha with ha | ha | ha
    · exact Or.inl (List.mem_of_mem_take ha)
    · exact Or.inr ha
    · exact (ih ha).imp_left List.mem_of_mem_drop

/-- One line end for every 64 characters begun. -/
theorem length_writeLines (c : Bytes) : (writeLines c).length = c.length + (c.length + 63) / 64 := by
  fun_induction writeLines c with
  | case1 => rfl
  | case2 c hne len ih =>
    have hpos := List.length_pos_of_ne_nil hne
    rw [List.length_append, List.length_cons, ih, List.length_take, List.length_drop]
    by_cases h : c.length > 64
    · have hlen : len = 64 := dif_pos h
      omega
    · have hlen : len = c.length := dif_neg h
      omega

/-- The marker lines as the reader looks for them, without their line ends. -/
def beginMarker : Bytes := bytes "-----BEGIN CERTIFICATE-----"

def endMarker : Bytes := bytes "-----END CERTIFICATE-----"

/-- The lines of data of a certificate. -/
def lines (der : Bytes) : Bytes := writeLines (encodeLoop der)

/-- A certificate as a block of text, up to the line end of its last line. -/
def block (der : Bytes) : Bytes :=
  beginMarker ++ byte '\n' :: lines der ++ endMarker

/-- The string that `bmx_net_http_der_to_pem` makes. -/
def pemOf (der : Bytes) : Bytes := block der ++ [byte '\n']

/-- The length of the string is an `int`. -/
def Fits (der : Bytes) : Prop :=
  54 + 4 * ((der.length + 2) / 3) + (4 * ((der.length + 2) / 3) + 63) / 64 < 2 ^ 31

instance (der : Bytes) : Decidable (Fits der) := Nat.decLt _ _

theorem Fits.length_lt {der : Bytes} (hfits : Fits der) : der.length < 2 ^ 31 := by
  rw [Fits] at hfits
  omega

theorem length_block (der : Bytes) : (block der).length
    = 53 + 4 * ((der.length + 2) / 3) + (4 * ((der.length + 2) / 3) + 63) / 64 := by
  rw [block, List.length_append, List.length_append, List.length_cons, lines, length_writeLines,
    length_encodeLoop, show beginMarker.length = 27 from rfl, show endMarker.length = 25 from rfl]
  omega

theorem Fits.length_pemOf {der : Bytes} (hfits : Fits der) : (pemOf der).length < 2 ^ 31 := by
  rw [Fits] at hfits
  rw [pemOf, List.length_append, length_block, List.length_singleton]
  omega

/-- What the encoder says that it needs. -/
def sizeOf (der : Bytes) : Nat := if der = [] then 0 else 4 * ((der.length + 2) / 3) + 1

/-- The number of groups, which is where the code looks out for an overflow. -/
theorem groups_eq {der : Bytes} (hfits : Fits der) :
    der.length / 3 + (if der.length % 3 ≠ 0 then 1 else 0) = (der.length + 2) / 3
      ∧ ¬ (der.length + 2) / 3 > (sizeMax - 1) / 4 := by
  have hlt := hfits.length_lt
  rw [sizeMax]
  constructor
  · split <;> omega
  · omega

theorem olen_mbedtlsBase64Encode {der : Bytes} (hfits : Fits der) :
    (mbedtlsBase64Encode none der).olen = sizeOf der := by
  obtain ⟨hgroups, hsmall⟩ := groups_eq hfits
  rw [mbedtlsBase64Encode, sizeOf]
  by_cases hder : der = []
  · rw [if_pos hder, if_pos hder]
    rfl
  · rw [if_neg hder, if_neg hder]
    dsimp only
    rw [hgroups, if_neg hsmall, Encoding.olen, Nat.mul_comm]

theorem mbedtlsBase64Encode_sized {der : Bytes} (hfits : Fits der) :
    mbedtlsBase64Encode (if sizeOf der ≠ 0 then some (sizeOf der) else none) der
      = .text (encodeLoop der) := by
  obtain ⟨hgroups, hsmall⟩ := groups_eq hfits
  rw [mbedtlsBase64Encode, sizeOf]
  by_cases hder : der = []
  · rw [if_pos hder, hder]
    rfl
  · rw [if_neg hder, if_neg hder, if_pos (Nat.succ_ne_zero _)]
    dsimp only
    rw [hgroups, if_neg hsmall, if_neg (by omega)]

theorem mbedtlsPemWriteBuffer_eq {der : Bytes} (hfits : Fits der) (bufLen : Nat) :
    mbedtlsPemWriteBuffer (beginMarker ++ [byte '\n']) (endMarker ++ [byte '\n']) der bufLen
      = if (pemOf der).length + 1 > bufLen then .tooSmall ((pemOf der).length + 1)
        else .written (pemOf der ++ [0] ++ List.replicate (bufLen - ((pemOf der).length + 1)) 0)
          ((pemOf der).length + 1) := by
  have hlt := hfits.length_lt
  have hlen := length_block der
  have hpem : (pemOf der).length = (block der).length + 1 := List.length_append
  have hneed : (sizeOf der + ((beginMarker ++ [byte '\n']).length + (endMarker ++ [byte '\n']).length
      + (if sizeOf der > 2 then sizeOf der - 2 else 0) / 64 + 1)) % (sizeMax + 1)
      = (pemOf der).length + 1 := by
    rw [hpem, hlen, show (beginMarker ++ [byte '\n']).length = 28 from rfl,
      show (endMarker ++ [byte '\n']).length = 26 from rfl, sizeMax, sizeOf]
    by_cases hder : der = []
    · rw [if_pos hder, hder]
      rfl
    · have hpos := List.length_pos_of_ne_nil hder
      rw [if_neg hder, if_pos (by omega), Nat.mod_eq_of_lt (by omega)]
      omega
  have hwhole : beginMarker ++ [byte '\n'] ++ writeLines (encodeLoop der)
      ++ (endMarker ++ [byte '\n']) ++ [0] = pemOf der ++ [0] := by
    simp only [pemOf, block, lines, List.append_assoc, List.cons_append, List.nil_append]
  have hone : (pemOf der ++ [0]).length = (pemOf der).length + 1 := List.length_append
  rw [mbedtlsPemWriteBuffer, olen_mbedtlsBase64Encode hfits]
  dsimp only
  rw [hneed, mbedtlsBase64Encode_sized hfits]
  dsimp only
  rw [hwhole, hone]

/-- **The glue's two calls fill the buffer exactly.** -/
theorem bmxNetHttpDerToPem_eq {der : Bytes} (hfits : Fits der) :
    bmxNetHttpDerToPem der = some (pemOf der) := by
  have hwrite := mbedtlsPemWriteBuffer_eq hfits
  have hheader : bytes "-----BEGIN CERTIFICATE-----
" = beginMarker ++ [byte '\n'] := by decide
  have hfooter : bytes "-----END CERTIFICATE-----
" = endMarker ++ [byte '\n'] := by decide
  have hint : toInt (pemOf der).length = ((pemOf der).length : Int) := by
    have hlt := hfits.length_pemOf
    exact Int.bmod_eq_of_le_mul_two (by omega) (by omega)
  rw [bmxNetHttpDerToPem, hheader, hfooter, hwrite 0, if_pos (Nat.succ_pos _), PemWrite.olen, hwrite,
    if_neg (Nat.lt_irrefl _)]
  dsimp only
  rw [if_pos (Nat.succ_pos _), Nat.add_sub_cancel, hint, bbStringFromBytes, if_neg (by omega),
    Int.toNat_natCast, List.append_assoc, List.take_left']
  rfl

/-! ### Searching -/

/-- `p` differs from `s` where both have a character. -/
def clash : Bytes → Bytes → Bool
  | a :: p, b :: s => a != b || clash p s
  | _, _ => false

theorem not_isPrefixOf_of_clash {p s : Bytes} (h : clash p s = true) (t : Bytes) :
    p.isPrefixOf (s ++ t) = false := by
  induction p generalizing s with
  | nil => exact absurd h Bool.false_ne_true
  | cons a p ih =>
    cases s with
    | nil => exact absurd h Bool.false_ne_true
    | cons b s =>
      rw [List.cons_append, List.isPrefixOf_cons_cons]
      rw [clash, Bool.or_eq_true, bne_iff_ne] at h
      rcases h with h | h
      · rw [beq_false_of_ne h, Bool.false_and]
      · rw [ih h, Bool.and_false]

/-- A text that a word clashes with wherever it is laid is passed by in a search. -/
theorem strstr_append {needle : Bytes} (s t : Bytes) (h0 : (0 : UInt8) ∉ s)
    (h : ∀ u ∈ s.tails, u ≠ [] → clash needle u = true) :
    strstr needle (s ++ t) = (strstr needle t).map (· + s.length) := by
  induction s with
  | nil => exact Option.map_id'.symm
  | cons c s ih =>
    rw [List.mem_cons, not_or] at h0
    have hclash := h (c :: s) ((List.mem_tails _ _).mpr List.suffix_rfl) (List.cons_ne_nil _ _)
    have hrest := ih h0.2 fun u hu hne =>
      h u ((List.mem_tails _ _).mpr (((List.mem_tails _ _).mp hu).trans (List.suffix_cons c s))) hne
    have hno := not_isPrefixOf_of_clash hclash t
    rw [List.cons_append] at hno
    rw [List.cons_append, strstr, hno, if_neg Bool.false_ne_true, if_neg (Ne.symm h0.1), hrest,
      Option.map_map, List.length_cons]
    rfl

theorem strstr_of_prefix {needle : Bytes} (hne : needle ≠ []) (t : Bytes) :
    strstr needle (needle ++ t) = some 0 := by
  cases needle with
  | nil => exact absurd rfl hne
  | cons c s =>
    have hpre : (c :: s).isPrefixOf (c :: s ++ t) = true :=
      List.isPrefixOf_iff_prefix.mpr (List.prefix_append _ _)
    rw [List.cons_append] at hpre ⊢
    rw [strstr, if_pos hpre]

/-! ### Reading a block -/

/-- The text of a block may be broken into lines anywhere. -/
theorem blockData_of_filter {src text : Bytes} (hsrc : src ≠ [])
    (htext : text.filter (· != byte '\n') = encodeLoop src) : blockData text false = .ok src := by
  obtain ⟨hnull, hbuf⟩ := decode_of_filter hsrc htext
  have hpos := List.length_pos_of_ne_nil hsrc
  have hne : ¬ src.length = 0 := by omega
  simp only [blockData, hnull, Decoding.olen, if_neg hne, hbuf, reduceCtorEq, Bool.false_eq_true,
    if_false]

theorem charAt_append (a t : Bytes) (i : Nat) : charAt (a ++ t) (a.length + i) = charAt t i := by
  rw [charAt, charAt, List.getD_eq_getElem?_getD, List.getD_eq_getElem?_getD,
    List.getElem?_append_right (Nat.le_add_right _ _), Nat.add_sub_cancel_left]

theorem skip_append (a t : Bytes) (c : UInt8) (i : Nat) :
    skip (a ++ t) c (a.length + i) = a.length + skip t c i := by
  rw [skip, skip, charAt_append]
  split <;> rfl

/-- How much of the text behind a footer the reader takes for the end of its line. -/
def eaten (tail : Bytes) : Nat :=
  skip tail (byte '\n') (skip tail (byte '\r') (skip tail (byte ' ') 0))

/-- The lines of a block hold no dash and no NUL. -/
theorem mem_lines {der : Bytes} {c : UInt8} (hc : c ∈ lines der) : c ≠ byte '-' ∧ c ≠ 0 := by
  rcases mem_writeLines hc with hc | rfl
  · rcases mem_encodeLoop hc with hplain | rfl
    · obtain ⟨-, -, -, -, hdash, -, hzero⟩ := isPlain_iff.mp hplain
      exact ⟨hdash, hzero⟩
    · decide
  · decide

/-- Every character of the lines is ASCII. -/
theorem lines_ascii {der : Bytes} {c : UInt8} (hc : c ∈ lines der) : c < 128 := by
  rcases mem_writeLines hc with hc | rfl
  · rcases mem_encodeLoop hc with hplain | rfl
    · obtain ⟨-, -, -, -, -, hlow, -⟩ := isPlain_iff.mp hplain
      exact UInt8.lt_of_le_of_lt hlow (by decide)
    · decide
  · decide

theorem length_lines_pos {der : Bytes} (hder : der ≠ []) : 0 < (lines der).length := by
  have hpos := List.length_pos_of_ne_nil hder
  rw [lines, length_writeLines, length_encodeLoop]
  omega

/-- The parts that the reader finds. -/
theorem block_append (der tail : Bytes) :
    block der ++ tail = (beginMarker ++ [byte '\n']) ++ (lines der ++ (endMarker ++ tail)) := by
  simp only [block, List.append_assoc, List.cons_append, List.nil_append]

theorem drop_block (der tail : Bytes) :
    (block der ++ tail).drop 28 = lines der ++ (endMarker ++ tail) := by
  rw [block_append]
  exact List.drop_left' rfl

/-- The footer occurs neither in the header's line nor in the lines of data. -/
theorem strstr_endMarker (der tail : Bytes) :
    strstr endMarker (block der ++ tail) = some (28 + (lines der).length) := by
  have hhead : ∀ u ∈ (beginMarker ++ [byte '\n']).tails, u ≠ [] → clash endMarker u = true := by
    decide +kernel
  have hlines : ∀ u ∈ (lines der).tails, u ≠ [] → clash endMarker u = true := by
    intro u hu hne
    cases u with
    | nil => exact absurd rfl hne
    | cons c u =>
      have hmem := ((List.mem_tails _ _).mp hu).subset List.mem_cons_self
      rw [show endMarker = byte '-' :: bytes "----END CERTIFICATE-----" from rfl, clash,
        Bool.or_eq_true, bne_iff_ne]
      exact Or.inl (Ne.symm (mem_lines hmem).1)
  rw [block_append, strstr_append _ _ (by decide) hhead,
    strstr_append _ _ (fun h => (mem_lines h).2 rfl) hlines, strstr_of_prefix (by decide)]
  show some (0 + _ + 28) = _
  rw [Nat.zero_add, Nat.add_comm]

/-- No line of data reads as the header of an encrypted block. -/
theorem encryptedHeader_block (der tail : Bytes) :
    encryptedHeader (block der ++ tail) 28 (28 + (lines der).length) = .ok (false, 28) := by
  have hno : wordAt (block der ++ tail) 28 (28 + (lines der).length)
      (bytes "Proc-Type: 4,ENCRYPTED") = false := by
    rw [wordAt, drop_block, Bool.and_eq_false_imp]
    intro hlen
    have hlen : (bytes "Proc-Type: 4,ENCRYPTED").length ≤ (lines der).length :=
      Nat.le_of_add_le_add_left (of_decide_eq_true hlen)
    rw [Bool.eq_false_iff]
    intro hpre
    have hword := List.prefix_of_prefix_length_le (List.isPrefixOf_iff_prefix.mp hpre)
      (List.prefix_append _ _) hlen
    have hdash : byte '-' ∈ lines der := hword.subset (by decide)
    exact (mem_lines hdash).1 rfl
  rw [encryptedHeader, hno]
  rfl

/-- **A block is read back, with the end of its last line.** -/
theorem mbedtlsPemReadBuffer_block {der : Bytes} (hder : der ≠ []) (tail : Bytes) :
    mbedtlsPemReadBuffer beginMarker endMarker (block der ++ tail)
      = .ok der ((block der).length + eaten tail) := by
  have hbegin : strstr beginMarker (block der ++ tail) = some 0 := by
    rw [block_append, List.append_assoc]
    exact strstr_of_prefix (by decide) _
  have hchar : charAt (block der ++ tail) 27 = byte '\n' := by
    rw [block_append, List.append_assoc]
    exact charAt_append beginMarker _ 0
  have hlen : 28 + (lines der).length + endMarker.length = (block der).length := by
    rw [block, List.length_append, List.length_append, List.length_cons,
      show beginMarker.length = 27 from rfl]
    omega
  have hpos := length_lines_pos hder
  have htext : ((block der ++ tail).drop 28).take (28 + (lines der).length - 28) = lines der := by
    rw [drop_block, Nat.add_sub_cancel_left, List.take_left' rfl]
  have hlf : byte '\n' ∉ encodeLoop der := fun h => absurd (mem_encodeLoop h) (by decide)
  have hblank : skip (block der ++ tail) (byte '\r') (skip (block der ++ tail) (byte ' ')
      (0 + beginMarker.length)) = 27 := by
    have hsp : skip (block der ++ tail) (byte ' ') 27 = 27 := by
      rw [skip, hchar, if_neg (by decide)]
    rw [show 0 + beginMarker.length = 27 from rfl, hsp, skip, hchar, if_neg (by decide)]
  have heaten := skip_append (block der) tail
  have huse : skip (block der ++ tail) (byte '\n') (skip (block der ++ tail) (byte '\r')
      (skip (block der ++ tail) (byte ' ') (28 + (lines der).length + endMarker.length)))
      = (block der).length + eaten tail := by
    rw [hlen]
    have h0 := heaten (byte ' ') 0
    rw [Nat.add_zero] at h0
    rw [h0, heaten, heaten, eaten]
  rw [mbedtlsPemReadBuffer, hbegin, strstr_endMarker]
  dsimp only
  rw [if_neg (by omega), hblank, hchar, if_neg (not_not_intro rfl), huse, encryptedHeader_block]
  dsimp only
  rw [if_neg (by omega), htext, lines, blockData_of_filter hder (filter_writeLines hlf)]

/-- `bmx_net_http_der_to_pem` and the reader: a certificate of at least one byte, written as a
string and read from any text that goes on behind it, is the certificate, and reading stops where
the string does; the buffer of the writer has the size that its first call, without a buffer, asked
for, and the string holds no NUL. -/
structure ReadBack (der pem rest : Bytes) : Prop where
  written : bmxNetHttpDerToPem der = some pem
  asked : mbedtlsPemWriteBuffer (beginMarker ++ [byte '\n']) (endMarker ++ [byte '\n']) der 0
    = .tooSmall (pem.length + 1)
  exact_size : mbedtlsPemWriteBuffer (beginMarker ++ [byte '\n']) (endMarker ++ [byte '\n']) der
    (pem.length + 1) = .written (pem ++ [0]) (pem.length + 1)
  no_nul : (0 : UInt8) ∉ pem
  read : mbedtlsPemReadBuffer beginMarker endMarker (pem ++ rest) = .ok der pem.length

/-- **A certificate survives the way through text.** -/
theorem certificate_reads_back {der : Bytes} (hder : der ≠ []) (hfits : Fits der) (rest : Bytes) :
    ∃ pem, ReadBack der pem rest := by
  refine ⟨pemOf der, ⟨bmxNetHttpDerToPem_eq hfits, ?_, ?_, ?_, ?_⟩⟩
  · rw [mbedtlsPemWriteBuffer_eq hfits, if_pos (Nat.succ_pos _)]
  · rw [mbedtlsPemWriteBuffer_eq hfits, if_neg (Nat.lt_irrefl _), Nat.sub_self]
    exact congrArg (PemWrite.written · _) (List.append_nil _)
  · intro hzero
    have hpem : pemOf der = (beginMarker ++ [byte '\n']) ++ (lines der ++ (endMarker ++ [byte '\n'])) :=
      block_append der _
    rw [hpem] at hzero
    rcases List.mem_append.mp hzero with hzero | hzero
    · exact absurd hzero (by decide)
    rcases List.mem_append.mp hzero with hzero | hzero
    · exact (mem_lines hzero).2 rfl
    · exact absurd hzero (by decide)
  · have hread := mbedtlsPemReadBuffer_block hder (byte '\n' :: rest)
    have hpem : pemOf der ++ rest = block der ++ byte '\n' :: rest := List.append_assoc _ _ _
    have hone : eaten (byte '\n' :: rest) = 1 := rfl
    rw [hone] at hread
    rw [hpem, hread]
    have hlen : (pemOf der).length = (block der).length + 1 := List.length_append
    rw [hlen]

theorem certificate_reads_back_small :
    ∃ pem, ReadBack [48, 3, 2, 1, 5] pem (bytes "-----BEGIN") :=
  certificate_reads_back (by decide) (by decide) _

end NetMod.PemText
