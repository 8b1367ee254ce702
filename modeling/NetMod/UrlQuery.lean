import Mathlib.Data.List.Forall2
import NetMod.Lib.PercentEncoding
import NetMod.Lib.SeparatedText
import NetMod.Utf8Text

/-!
# `EncodeQueryPreservingSeparators`: percent-encoding around `&` and `=`

A query is cut at `&`, each segment once at its first `=`, and the pieces are escaped by
`curl_easy_escape` and put together again.  The bytes of the result are a text over the unreserved
ones, triples and the two separators (`queryBytes_encoded`), so decoding it goes separator by
separator, and the pieces decode to what was escaped: `encodeQuery_reversible`.

`curl_easy_escape` takes the length of its argument as an `int` and reads 0 as "up to the terminating
zero"; `EscapeEncodes` says of a byte string that it comes out escaped as a whole, which strings
shorter than `2 ^ 31` do (`escapeEncodes_of_lt`).
-/

namespace NetMod.UrlQuery

open NetMod.BlitzText NetMod.Utf8Text NetMod.PercentEncoding NetMod.SeparatedText

/-! ### `curl_easy_escape` and its glue -/

/-- `ISUNRESERVED`. -/
def isUnreserved (c : UInt8) : Bool :=
  (48 ≤ c && c ≤ 57) || (97 ≤ c && c ≤ 122) || (65 ≤ c && c ≤ 90) || c == 45 || c == 46 || c == 95 ||
    c == 126

/-- The `int` that receives a `size_t`. -/
def cInt (n : Nat) : Int := (n : Int).bmod (2 ^ 32)

/-- `curl_easy_escape(NULL, string, inlength)` of a zero-terminated string; `none` is `NULL`. -/
def curlEasyEscape (string : List UInt8) (inlength : Int) : Option (List UInt8) :=
  if inlength < 0 then none
  else
    let length :=
      if inlength ≠ 0 then inlength.toNat else (string.takeWhile (· ≠ 0)).length
    some (encode isUnreserved (string.take length))

/-- `bmx_curl_easy_escape`; for `NULL` the empty string. -/
def bmxCurlEasyEscape (txt : Text) : Text :=
  let c := toUTF8String txt
  let escaped := curlEasyEscape c (cInt c.length)
  (escaped.map fromUTF8String).getD []

/-- `THttpHelper.UrlEncodeComponent`. -/
def urlEncodeComponent (s : Text) : Text := bmxCurlEasyEscape s

/-- The bytes come out escaped as a whole. -/
def EscapeEncodes (s : List UInt8) : Prop :=
  curlEasyEscape s (cInt s.length) = some (encode isUnreserved s)

theorem escapeEncodes_of_lt {s : List UInt8} (hs : s.length < 2 ^ 31) : EscapeEncodes s := by
  have hint : cInt s.length = s.length := Int.bmod_eq_of_le (by omega) (by omega)
  rw [EscapeEncodes, curlEasyEscape, hint, if_neg (by omega)]
  cases s with
  | nil => rfl
  | cons b s =>
    have hpos : ((b :: s).length : Int) ≠ 0 := by simp only [List.length_cons]; omega
    dsimp only
    rw [if_pos hpos, Int.toNat_natCast, List.take_length]

/-! ### The functions of the builder -/

/-- `SplitOnceEquals`: the two parts and the flag `"1"` or `"0"`. -/
def splitOnceEquals (pair : Text) : Text × Text × Text :=
  match find pair (asc '=') with
  | none => (pair, [], lit "0")
  | some idx => (pair.take idx, pair.drop (idx + 1), lit "1")

/-- The body of the loop of `EncodeQueryPreservingSeparators`. -/
def encodeSegment (seg : Text) : Text :=
  -- empty segments are kept as they are
  if seg = [] then seg
  else
    let parts := splitOnceEquals seg
    let ek := urlEncodeComponent parts.1
    if toLong parts.2.2 ≠ 0 then ek ++ lit "=" ++ urlEncodeComponent parts.2.1
    else ek

def encodeQueryPreservingSeparators (q : Text) : Text :=
  if q = [] then []
  else (lit "&").intercalate ((q.splitOn (asc '&')).map encodeSegment)

/-! ### Keys, values and decoding -/

/-- What stands before the first `=`. -/
def keyOf (s : Text) : Text := s.takeWhile (· ≠ asc '=')

/-- What stands behind the first `=`. -/
def valueOf (s : Text) : Text := (s.dropWhile (· ≠ asc '=')).drop 1

/-- Percent-decoding, the bytes read as UTF-8. -/
def percentDecode (e : Text) : Text := fromUTF8Bytes (decode (toUTF8String e))

/-- What a component is encoded to. -/
def encoded (s : Text) : Text := ascii (encode isUnreserved (toUTF8String s))

/-! ### Pieces of a query -/

section

variable {k v s : Text}

theorem keyOf_append (hk : asc '=' ∉ k) (v : Text) : keyOf (k ++ asc '=' :: v) = k :=
  takeWhile_until hk v

theorem valueOf_append (hk : asc '=' ∉ k) (v : Text) : valueOf (k ++ asc '=' :: v) = v := by
  rw [valueOf, dropWhile_until hk]
  rfl

theorem keyOf_of_not_mem (hs : asc '=' ∉ s) : keyOf s = s :=
  List.takeWhile_eq_self_iff.mpr (all_ne hs)

theorem valueOf_of_not_mem (hs : asc '=' ∉ s) : valueOf s = [] := by
  rw [valueOf, List.dropWhile_eq_nil_iff.mpr (all_ne hs)]
  rfl

theorem equals_not_mem_keyOf : asc '=' ∉ keyOf s := by
  intro h
  simpa using List.mem_takeWhile_imp h

/-- A segment with `=` is its key, the first `=` and its value. -/
theorem keyOf_equals_valueOf (hs : asc '=' ∈ s) : keyOf s ++ asc '=' :: valueOf s = s := by
  obtain ⟨k, v, rfl, hk⟩ := List.eq_append_cons_of_mem hs
  rw [keyOf_append hk, valueOf_append hk]

/-- **`SplitOnceEquals`** gives the key, the value and whether there was a `=`. -/
theorem splitOnceEquals_eq (s : Text) :
    splitOnceEquals s = (keyOf s, valueOf s, if asc '=' ∈ s then lit "1" else lit "0") := by
  rw [splitOnceEquals]
  by_cases hs : asc '=' ∈ s
  · obtain ⟨k, v, rfl, hk⟩ := List.eq_append_cons_of_mem hs
    rw [find_append hk, if_pos hs, keyOf_append hk, valueOf_append hk]
    dsimp only
    rw [take_until, drop_until]
  · rw [find_of_not_mem hs, if_neg hs, keyOf_of_not_mem hs, valueOf_of_not_mem hs]

end

/-! ### Encoded components -/

/-- The bytes of an encoded component are printable and no separators. -/
theorem encodedByte_bounds {c : UInt8}
    (h : isUnreserved c = true ∨ c = percent ∨ (hexValue c).isSome = true) :
    33 ≤ c.toNat ∧ c.toNat < 127 ∧ c ≠ 38 ∧ c ≠ 61 ∧ c ≠ 43 := by
  have hall : ∀ n : Fin 256,
      (isUnreserved (UInt8.ofNat n) = true ∨ UInt8.ofNat n = percent ∨
        (hexValue (UInt8.ofNat n)).isSome = true) →
      33 ≤ (UInt8.ofNat n).toNat ∧ (UInt8.ofNat n).toNat < 127 ∧ UInt8.ofNat n ≠ 38 ∧
        UInt8.ofNat n ≠ 61 ∧ UInt8.ofNat n ≠ 43 := by decide +kernel
  have hspec := hall ⟨c.toNat, c.toNat_lt⟩
  simp only [UInt8.ofNat_toNat] at hspec
  exact hspec h

theorem isUnreserved_percent : isUnreserved percent = false := by decide

theorem encode_bounds {s : List UInt8} {c : UInt8} (hc : c ∈ encode isUnreserved s) :
    33 ≤ c.toNat ∧ c.toNat < 127 ∧ c ≠ 38 ∧ c ≠ 61 ∧ c ≠ 43 :=
  encodedByte_bounds ((encoded_encode s).of_mem hc)

theorem encode_ascii (s : List UInt8) : ∀ b ∈ encode isUnreserved s, b.toNat < 128 := by
  intro b hb
  have hlt := (encode_bounds hb).2.1
  omega

/-- A unit of an encoded component is none of the separators. -/
theorem separator_not_mem_encoded (s : Text) : asc '&' ∉ encoded s ∧ asc '=' ∉ encoded s := by
  have hunit : ∀ (n : UInt8) {b : UInt8}, b.toUInt16 = n.toUInt16 → b = n := by
    intro n b h
    have hnat := congrArg UInt16.toNat h
    rw [UInt8.toNat_toUInt16, UInt8.toNat_toUInt16] at hnat
    exact UInt8.toNat_inj.mp hnat
  constructor
  · intro h
    obtain ⟨b, hb, heq⟩ := List.mem_map.mp h
    have hbounds := encode_bounds hb
    exact hbounds.2.2.1 (hunit 38 heq)
  · intro h
    obtain ⟨b, hb, heq⟩ := List.mem_map.mp h
    have hbounds := encode_bounds hb
    exact hbounds.2.2.2.1 (hunit 61 heq)

/-- **`UrlEncodeComponent`** percent-encodes the UTF-8 bytes of its argument. -/
theorem urlEncodeComponent_eq {s : Text} (h : EscapeEncodes (toUTF8String s)) :
    urlEncodeComponent s = encoded s := by
  rw [EscapeEncodes] at h
  rw [urlEncodeComponent, bmxCurlEasyEscape, h, Option.map_some, Option.getD_some]
  exact fromUTF8String_printable fun b hb => ⟨(encode_bounds hb).1, encode_ascii _ b hb⟩

/-- **A component is read back from its encoding.** -/
theorem percentDecode_encoded (s : Text) : percentDecode (encoded s) = s := by
  rw [percentDecode, encoded, toUTF8String_ascii (encode_ascii _),
    decode_encode isUnreserved_percent, fromUTF8Bytes_toUTF8String]

@[simp] theorem encoded_nil : encoded [] = [] := rfl

/-- `curl_easy_escape` encodes the key and the value of the segment as a whole. -/
def SegmentEscapes (seg : Text) : Prop :=
  EscapeEncodes (toUTF8String (keyOf seg)) ∧ EscapeEncodes (toUTF8String (valueOf seg))

/-- **One segment**: the encoded key, and behind a `=` the encoded value where there was one. -/
theorem encodeSegment_eq {seg : Text} (h : SegmentEscapes seg) :
    encodeSegment seg =
      if asc '=' ∈ seg then encoded (keyOf seg) ++ asc '=' :: encoded (valueOf seg)
      else encoded seg := by
  rw [encodeSegment]
  split
  · rename_i hnil
    rw [hnil]
    rfl
  · rw [splitOnceEquals_eq]
    dsimp only
    rw [urlEncodeComponent_eq h.1, urlEncodeComponent_eq h.2]
    by_cases hs : asc '=' ∈ seg
    · have hflag : toLong (lit "1") ≠ 0 := by decide
      rw [if_pos hs, if_pos hs, if_pos hflag, List.append_assoc]
      rfl
    · have hflag : ¬ toLong (lit "0") ≠ 0 := by decide
      rw [if_neg hs, if_neg hs, if_neg hflag, keyOf_of_not_mem hs]

/-! ### The query as bytes -/

/-- The bytes that may stand in an encoded query outside triples. -/
def isQueryByte (c : UInt8) : Bool := isUnreserved c || c == 38 || c == 61

theorem isQueryByte_of_isUnreserved {c : UInt8} (h : isUnreserved c = true) :
    isQueryByte c = true := by
  rw [isQueryByte, h]
  rfl

theorem isQueryByte_percent : isQueryByte percent = false := by decide

/-- The bytes of an encoded segment. -/
def segmentBytes (seg : Text) : List UInt8 :=
  if asc '=' ∈ seg then
    encode isUnreserved (toUTF8String (keyOf seg)) ++
      61 :: encode isUnreserved (toUTF8String (valueOf seg))
  else encode isUnreserved (toUTF8String seg)

/-- The bytes of an encoded query. -/
def queryBytes (q : Text) : List UInt8 :=
  [38].intercalate ((q.splitOn (asc '&')).map segmentBytes)

theorem encodeSegment_eq_ascii {seg : Text} (h : SegmentEscapes seg) :
    encodeSegment seg = ascii (segmentBytes seg) := by
  rw [encodeSegment_eq h, segmentBytes]
  split
  · rw [ascii, List.map_append]
    rfl
  · rfl

theorem segmentBytes_encoded (seg : Text) : Encoded isQueryByte (segmentBytes seg) := by
  have hcomponent : ∀ s, Encoded isQueryByte (encode isUnreserved s) :=
    fun s => (encoded_encode s).mono fun _ => isQueryByte_of_isUnreserved
  rw [segmentBytes]
  split
  · exact (hcomponent _).append (.plain (by decide) (hcomponent _))
  · exact hcomponent _

theorem decode_segmentBytes (seg : Text) : decode (segmentBytes seg) = toUTF8String seg := by
  rw [segmentBytes]
  split
  · rename_i hs
    have hkey : Encoded isUnreserved (encode isUnreserved (toUTF8String (keyOf seg))) :=
      encoded_encode _
    rw [hkey.decode_append isUnreserved_percent, decode_encode isUnreserved_percent, decode_cons_of_ne (by decide),
      decode_encode isUnreserved_percent]
    conv_rhs => rw [← keyOf_equals_valueOf hs]
    rw [toUTF8String_append _ (by decide), toUTF8String_cons_ascii (by decide)]
    rfl
  · exact decode_encode isUnreserved_percent _

theorem queryBytes_encoded (q : Text) : Encoded isQueryByte (queryBytes q) := by
  apply Encoded.intercalate (by decide)
  intro p hp
  obtain ⟨seg, -, rfl⟩ := List.mem_map.mp hp
  exact segmentBytes_encoded seg

/-- **The encoded query decodes to the query**, separators included. -/
theorem decode_queryBytes (q : Text) : decode (queryBytes q) = toUTF8String q := by
  have hsegs : q.splitOn (asc '&') ≠ [] := List.splitOn_ne_nil _ _
  have hdecode : decode (queryBytes q) =
      [38].intercalate (((q.splitOn (asc '&')).map segmentBytes).map decode) := by
    refine intercalate_hom (fun p hp s => ?_) (by rwa [ne_eq, List.map_eq_nil_iff])
    obtain ⟨seg, -, rfl⟩ := List.mem_map.mp hp
    rw [(segmentBytes_encoded seg).decode_append isQueryByte_percent,
      decode_cons_of_ne (by decide)]
  have hpieces : ((q.splitOn (asc '&')).map segmentBytes).map decode =
      (q.splitOn (asc '&')).map toUTF8String := by
    rw [List.map_map]
    exact List.map_congr_left fun seg _ => decode_segmentBytes seg
  have hjoin : toUTF8String ([asc '&'].intercalate (q.splitOn (asc '&'))) =
      [38].intercalate ((q.splitOn (asc '&')).map toUTF8String) := by
    refine intercalate_hom (fun p _ s => ?_) hsegs
    rw [toUTF8String_append _ (by decide), toUTF8String_cons_ascii (by decide)]
    rfl
  rw [hdecode, hpieces, ← hjoin, List.intercalate_splitOn]

/-- `curl_easy_escape` encodes the parts of the query as a whole. -/
def QueryEscapes (q : Text) : Prop := ∀ seg ∈ q.splitOn (asc '&'), SegmentEscapes seg

/-- The parts of any query of less than `2 ^ 31 / 3` units are short enough for an `int`. -/
theorem queryEscapes_of_short {q : Text} (hq : 3 * q.length < 2 ^ 31) : QueryEscapes q := by
  intro seg hseg
  have hlen := length_le_of_mem_splitOn hseg
  have hpart : ∀ s : Text, s.length ≤ seg.length → EscapeEncodes (toUTF8String s) := by
    intro s hs
    have hbytes := length_toUTF8String_le s
    exact escapeEncodes_of_lt (by omega)
  refine ⟨hpart _ (List.takeWhile_prefix _).length_le, hpart _ ?_⟩
  exact ((List.drop_suffix _ _).trans (List.dropWhile_suffix _)).length_le

theorem encodeQuery_eq (q : Text) :
    encodeQueryPreservingSeparators q =
      [asc '&'].intercalate ((q.splitOn (asc '&')).map encodeSegment) := by
  rw [encodeQueryPreservingSeparators]
  split
  · rename_i hnil
    rw [hnil]
    rfl
  · rfl

theorem encodeQuery_eq_ascii {q : Text} (h : QueryEscapes q) :
    encodeQueryPreservingSeparators q = ascii (queryBytes q) := by
  have hpieces : (q.splitOn (asc '&')).map encodeSegment =
      ((q.splitOn (asc '&')).map segmentBytes).map ascii := by
    rw [List.map_map]
    exact List.map_congr_left fun seg hseg => encodeSegment_eq_ascii (h seg hseg)
  have hjoin : ascii (queryBytes q) =
      [asc '&'].intercalate (((q.splitOn (asc '&')).map segmentBytes).map ascii) := by
    refine intercalate_hom (fun p _ s => ?_) (by
      rw [ne_eq, List.map_eq_nil_iff]
      exact List.splitOn_ne_nil _ _)
    exact List.map_append
  rw [encodeQuery_eq, hpieces, hjoin]

/-! ### The encoding is reversible -/

/-- A segment and its encoding: one `=` if there was any, and the two parts decode. -/
structure SegmentEncoded (seg e : Text) : Prop where
  equals : e.count (asc '=') = if asc '=' ∈ seg then 1 else 0
  key : percentDecode (keyOf e) = keyOf seg
  value : percentDecode (valueOf e) = valueOf seg

/-- A query and its encoding: allowed characters only, segment by segment, decodable as a whole. -/
structure QueryEncoded (q e : Text) : Prop where
  form : Encoded isQueryByte (toUTF8String e)
  segments : List.Forall₂ SegmentEncoded (q.splitOn (asc '&')) (e.splitOn (asc '&'))
  whole : percentDecode e = q

theorem segmentEncoded_encodeSegment {seg : Text} (h : SegmentEscapes seg) :
    SegmentEncoded seg (encodeSegment seg) := by
  have hnone : ∀ s, asc '=' ∉ encoded s := fun s => (separator_not_mem_encoded s).2
  rw [encodeSegment_eq h]
  by_cases hs : asc '=' ∈ seg
  · rw [if_pos hs]
    refine ⟨?_, ?_, ?_⟩
    · rw [if_pos hs, List.count_append, List.count_cons_self, List.count_eq_zero_of_not_mem (hnone _),
        List.count_eq_zero_of_not_mem (hnone _)]
    · rw [keyOf_append (hnone _), percentDecode_encoded]
    · rw [valueOf_append (hnone _), percentDecode_encoded]
  · rw [if_neg hs]
    refine ⟨?_, ?_, ?_⟩
    · rw [if_neg hs, List.count_eq_zero_of_not_mem (hnone _)]
    · rw [keyOf_of_not_mem (hnone _), percentDecode_encoded, keyOf_of_not_mem hs]
    · rw [valueOf_of_not_mem (hnone _), valueOf_of_not_mem hs]
      rfl

theorem ampersand_not_mem_encodeSegment {seg : Text} (h : SegmentEscapes seg) :
    asc '&' ∉ encodeSegment seg := by
  have hnone : ∀ s, asc '&' ∉ encoded s := fun s => (separator_not_mem_encoded s).1
  rw [encodeSegment_eq h]
  split
  · rw [List.mem_append, List.mem_cons]
    rintro (hk | heq | hv)
    · exact hnone _ hk
    · exact absurd heq (by decide)
    · exact hnone _ hv
  · exact hnone _

theorem queryEncoded_encodeQuery {q : Text} (h : QueryEscapes q) :
    QueryEncoded q (encodeQueryPreservingSeparators q) := by
  have hbytes : toUTF8String (encodeQueryPreservingSeparators q) = queryBytes q := by
    rw [encodeQuery_eq_ascii h]
    apply toUTF8String_ascii
    intro b hb
    rcases (queryBytes_encoded q).of_mem hb with hkeep | hrest
    · rw [isQueryByte, Bool.or_eq_true, Bool.or_eq_true, beq_iff_eq, beq_iff_eq] at hkeep
      rcases hkeep with (hun | rfl) | rfl
      · exact Nat.lt_succ_of_lt (encodedByte_bounds (Or.inl hun)).2.1
      · decide
      · decide
    · exact Nat.lt_succ_of_lt (encodedByte_bounds (Or.inr hrest)).2.1
  have hsplit : (encodeQueryPreservingSeparators q).splitOn (asc '&') =
      (q.splitOn (asc '&')).map encodeSegment := by
    rw [encodeQuery_eq]
    refine List.splitOn_intercalate _ (fun e he => ?_) (by
      rw [ne_eq, List.map_eq_nil_iff]
      exact List.splitOn_ne_nil _ _)
    obtain ⟨seg, hseg, rfl⟩ := List.mem_map.mp he
    exact ampersand_not_mem_encodeSegment (h seg hseg)
  refine ⟨by rw [hbytes]; exact queryBytes_encoded q, ?_, ?_⟩
  · rw [hsplit, List.forall₂_map_right_iff, List.forall₂_same]
    exact fun seg hseg => segmentEncoded_encodeSegment (h seg hseg)
  · rw [percentDecode, hbytes, decode_queryBytes, fromUTF8Bytes_toUTF8String]

/-- **Query encoding keeps the structure and is reversible**, for every text; so different queries
have different encodings. -/
theorem encodeQuery_reversible (q : Text) (h : QueryEscapes q) :
    QueryEncoded q (encodeQueryPreservingSeparators q) ∧
      ∀ q', QueryEscapes q' →
        encodeQueryPreservingSeparators q' = encodeQueryPreservingSeparators q → q' = q := by
  refine ⟨queryEncoded_encodeQuery h, fun q' h' heq => ?_⟩
  rw [← (queryEncoded_encodeQuery h').whole, heq]
  exact (queryEncoded_encodeQuery h).whole

/-- `note=2+2=4&&t=é`: a `=` and a `+` as data, an empty segment and a two-byte character. -/
theorem encodeQuery_reversible_note :
    QueryEncoded (lit "note=2+2=4&&t=é")
        (encodeQueryPreservingSeparators (lit "note=2+2=4&&t=é")) ∧
      ∀ q', QueryEscapes q' →
        encodeQueryPreservingSeparators q' =
          encodeQueryPreservingSeparators (lit "note=2+2=4&&t=é") → q' = lit "note=2+2=4&&t=é" :=
  encodeQuery_reversible (lit "note=2+2=4&&t=é") (queryEscapes_of_short (by decide))

example : encodeQueryPreservingSeparators (lit "x=1 2&y=/z") = lit "x=1%202&y=%2Fz" := by
  decide +kernel

end NetMod.UrlQuery
