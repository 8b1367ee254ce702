import NetMod.UrlQuery

/-!
# `TCurlEasy.escape` and `unEscape`

`escape` makes UTF-8 bytes of its text and escapes as many of them as the text has units; `unEscape`
decodes the bytes of its text and makes a character of each.  `bmx_curl_easy_escape`, which
`UrlEncodeComponent` calls, escapes all the bytes.  The two agree, and `unEscape` undoes them, on
ASCII texts and on no others: `escape_right_iff`.
-/

namespace NetMod.EasyEscape

open NetMod.BlitzText NetMod.Utf8Text NetMod.PercentEncoding NetMod.UrlQuery

/-- `curl_easy_unescape(curl, string, length, &olen)` of a zero-terminated string; nothing is
rejected, and `none` is `NULL`. -/
def curlEasyUnescape (string : List UInt8) (length : Int) : Option (List UInt8) :=
  if length < 0 then none
  else
    let alloc := if length ≠ 0 then length.toNat else (string.takeWhile (· ≠ 0)).length
    let out := decode (string.take alloc)
    if out.length ≤ 2147483647 then some out else none

/-- `String.fromBytes`: a character for each byte. -/
def fromBytes (s : List UInt8) : Text := s.map UInt8.toUInt16

structure TCurlEasy where
  easyHandlePtr : Bool

namespace TCurlEasy

/-- `escape`; the result `Null` is the empty text. -/
def escape (easy : TCurlEasy) (text : Text) : Text :=
  if easy.easyHandlePtr then
    ((curlEasyEscape (toUTF8String text) text.length).map fromUTF8String).getD []
  else []

def unEscape (easy : TCurlEasy) (text : Text) : Text :=
  if easy.easyHandlePtr then
    ((curlEasyUnescape (toUTF8String text) text.length).map fromBytes).getD []
  else []

end TCurlEasy

/-- The text comes back, and both ways to escape it agree. -/
structure EscapesRight (easy : TCurlEasy) (t : Text) : Prop where
  back : easy.unEscape (easy.escape t) = t
  same : easy.escape t = urlEncodeComponent t

section

variable {easy : TCurlEasy} {t : Text}

theorem fromUTF8String_encode (s : List UInt8) :
    fromUTF8String (encode isUnreserved s) = ascii (encode isUnreserved s) :=
  fromUTF8String_printable fun b hb => ⟨(encode_bounds hb).1, encode_ascii _ b hb⟩

/-- `escape` takes as many bytes as the text has units. -/
theorem escape_eq (hvalid : easy.easyHandlePtr = true) (t : Text) :
    easy.escape t = ascii (encode isUnreserved ((toUTF8String t).take t.length)) := by
  rw [TCurlEasy.escape, if_pos hvalid, curlEasyEscape, if_neg (by omega)]
  cases t with
  | nil => rfl
  | cons c t =>
    have hpos : ((c :: t).length : Int) ≠ 0 := by rw [List.length_cons]; omega
    dsimp only
    rw [if_pos hpos, Int.toNat_natCast]
    exact fromUTF8String_encode _

/-- `unEscape` undoes the encoding of bytes, of which a text has fewer than `2 ^ 31`. -/
theorem unEscape_encode (hvalid : easy.easyHandlePtr = true) {s : List UInt8}
    (hs : s.length ≤ 2147483647) :
    easy.unEscape (ascii (encode isUnreserved s)) = fromBytes s := by
  have hbytes : toUTF8String (ascii (encode isUnreserved s)) = encode isUnreserved s :=
    toUTF8String_ascii (encode_ascii s)
  have hlength : (ascii (encode isUnreserved s)).length = (encode isUnreserved s).length :=
    List.length_map _
  rw [TCurlEasy.unEscape, if_pos hvalid, hbytes, hlength, curlEasyUnescape, if_neg (by omega)]
  have halloc : (encode isUnreserved s).take
      (if ((encode isUnreserved s).length : Int) ≠ 0 then
        ((encode isUnreserved s).length : Int).toNat
      else ((encode isUnreserved s).takeWhile (· ≠ 0)).length) = encode isUnreserved s := by
    split
    · rw [Int.toNat_natCast, List.take_length]
    · have hempty : encode isUnreserved s = [] := List.length_eq_zero_iff.mp (by omega)
      rw [hempty]
      rfl
  dsimp only
  rw [halloc, decode_encode isUnreserved_percent, if_pos hs]
  rfl

/-- An ASCII text is the text of its bytes. -/
theorem ascii_toUInt8 (ht : ∀ c ∈ t, c < 128) : ascii (t.map UInt16.toUInt8) = t := by
  rw [ascii, List.map_map]
  refine (List.map_congr_left fun c hc => ?_).trans (List.map_id t)
  have hlt : c.toNat < 128 := UInt16.lt_iff_toNat_lt.mp (ht c hc)
  show c.toUInt8.toUInt16 = c
  rw [← UInt16.toNat_inj, UInt8.toNat_toUInt16, UInt16.toNat_toUInt8]
  omega

theorem ascii_bytes (ht : ∀ c ∈ t, c < 128) : toUTF8String t = t.map UInt16.toUInt8 := by
  have hlow : ∀ b ∈ t.map UInt16.toUInt8, b.toNat < 128 := by
    intro b hb
    obtain ⟨c, hc, rfl⟩ := List.mem_map.mp hb
    have hlt : c.toNat < 128 := UInt16.lt_iff_toNat_lt.mp (ht c hc)
    rw [UInt16.toNat_toUInt8]
    omega
  have hbytes := toUTF8String_ascii hlow
  rwa [ascii_toUInt8 ht] at hbytes

theorem cInt_cases {n : Nat} (hn : n < 6442450944) :
    cInt n = n ∨ 2147483648 ≤ n ∧ cInt n = n - 4294967296 := by
  by_cases hlt : n < 2147483648
  · exact Or.inl (Int.bmod_eq_of_le (by omega) (by omega))
  · refine Or.inr ⟨by omega, ?_⟩
    have hsum : (n : Int) = n - 4294967296 + (2 ^ 32 : Nat) := by omega
    calc cInt n = ((n - 4294967296 : Int) + (2 ^ 32 : Nat)).bmod (2 ^ 32) :=
          congrArg (fun x : Int => x.bmod (2 ^ 32)) hsum
      _ = (n - 4294967296 : Int).bmod (2 ^ 32) := Int.add_bmod_right _ _
      _ = n - 4294967296 := Int.bmod_eq_of_le (by omega) (by omega)

/-- `UrlEncodeComponent` escapes all the bytes, or fewer than the text has units: then their number
has overflowed an `int`. -/
theorem urlEncodeComponent_take (h0 : 0 ∉ t) (hlen : t.length < 2 ^ 31) :
    ∃ m, urlEncodeComponent t = ascii (encode isUnreserved ((toUTF8String t).take m)) ∧
      ((toUTF8String t).length ≤ m ∨ m < t.length) := by
  have hle := length_toUTF8String_le t
  have hzero : (toUTF8String t).takeWhile (· ≠ 0) = toUTF8String t := by
    refine takeWhile_nonzero (le_of_mem_toUTF8String (k := 1) (by omega) fun c hc => ?_)
    have hne : c.toNat ≠ 0 := fun hzero => h0 ((UInt16.toNat_inj.mp hzero : c = 0) ▸ hc)
    omega
  rw [urlEncodeComponent, bmxCurlEasyEscape]
  generalize toUTF8String t = b at hle hzero ⊢
  rw [curlEasyEscape]
  by_cases hneg : cInt b.length < 0
  · rw [if_pos hneg]
    refine ⟨0, rfl, Or.inr ?_⟩
    rcases cInt_cases (n := b.length) (by omega) with hint | ⟨hlarge, -⟩ <;> omega
  · rw [if_neg hneg, Option.map_some, Option.getD_some, fromUTF8String_encode]
    refine ⟨_, rfl, ?_⟩
    rw [hzero]
    split
    · rcases cInt_cases (n := b.length) (by omega) with hint | ⟨-, hint⟩
      · exact Or.inl (by omega)
      · exact Or.inr (by omega)
    · exact Or.inl (Nat.le_refl _)

end

/-- **Escaping is right on the ASCII texts**, and on no others. -/
theorem escape_right_iff (easy : TCurlEasy) (hvalid : easy.easyHandlePtr = true) (t : Text)
    (h0 : 0 ∉ t) (hlen : t.length < 2 ^ 31) : EscapesRight easy t ↔ ∀ c ∈ t, c < 128 := by
  constructor
  · intro h c hc
    obtain ⟨m, hm, hbound⟩ := urlEncodeComponent_take h0 hlen
    have hle := length_le_toUTF8String t
    have hsame := h.same
    rw [escape_eq hvalid, hm] at hsame
    have htake : (toUTF8String t).take t.length = (toUTF8String t).take m := by
      have hencoded := congrArg decode (ascii_injective hsame)
      rwa [decode_encode isUnreserved_percent, decode_encode isUnreserved_percent] at hencoded
    have hlength := congrArg List.length htake
    rw [List.length_take, List.length_take] at hlength
    have hshort : (toUTF8String t).length ≤ t.length := by omega
    exact UInt16.lt_iff_toNat_lt.mpr (ascii_of_length_le hshort c hc)
  · intro ht
    have hbytes := ascii_bytes ht
    have hcount : (toUTF8String t).length = t.length := by rw [hbytes, List.length_map]
    have hescape : easy.escape t = ascii (encode isUnreserved (toUTF8String t)) := by
      rw [escape_eq hvalid, ← hcount, List.take_length]
    constructor
    · rw [hescape, unEscape_encode hvalid (by omega), hbytes]
      exact ascii_toUInt8 ht
    · rw [hescape, urlEncodeComponent_eq (escapeEncodes_of_lt (by omega))]
      rfl

/-- An ASCII text with a space and a percent sign, and one with a letter beyond ASCII. -/
theorem escape_right_percent :
    EscapesRight ⟨true⟩ (lit "50 % off") ∧ ¬ EscapesRight ⟨true⟩ (lit "caf" ++ [0xE9]) := by
  have hascii : (lit "50 % off").all (· < 128) = true := by decide
  refine ⟨(escape_right_iff ⟨true⟩ rfl _ (by decide) (by decide)).mpr fun c hc =>
    of_decide_eq_true (List.all_eq_true.mp hascii c hc), fun h => ?_⟩
  have hall := (escape_right_iff ⟨true⟩ rfl _ (by decide) (by decide)).mp h
  exact absurd (hall 0xE9 (List.mem_append_right _ List.mem_cons_self)) (by decide)

/-- Of the two bytes of `é` only the first is escaped. -/
theorem not_every_text_escapes_right :
    ¬ ∀ (easy : TCurlEasy), easy.easyHandlePtr = true → ∀ t : Text, 0 ∉ t → EscapesRight easy t := by
  intro hall
  have hsame := (hall ⟨true⟩ rfl [0xE9] (by decide)).same
  exact absurd hsame (by decide)

end NetMod.EasyEscape
