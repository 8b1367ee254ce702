import NetMod.HttpFields
import NetMod.UrlQuery

/-!
# `QueryToHttpFields`: a query read into fields

`GetRawQuery` and `GetQuery` ask libcurl for the query it stores, encoded and decoded.  The stored
bytes decode to the same as the raw query does (`decode_urlencodeStr`), so `GetQuery` of a URL whose
raw query is a list of encoded `key=value` components is the list of the plain ones, joined by `&`
(`getQuery_of_raw`).

`QueryToHttpFields` cuts that decoded text.  An `&` or, in a key, a `=` that was data is taken for a
separator then; `queryFields_iff` says that nothing else goes wrong.
-/

namespace NetMod.QueryFields

open NetMod.BlitzText NetMod.Utf8Text NetMod.PercentEncoding NetMod.SeparatedText NetMod.UrlQuery
open NetMod.HttpFields

/-! ### libcurl's query -/

/-- The query part of a `CURLU` handle: `u->query`, a zero-terminated string or `NULL`. -/
structure CurlUrl where
  query : Option (List UInt8)
  terminated : ∀ s ∈ query, 0 ∉ s

/-- `CURL_MAX_INPUT_LENGTH`. -/
def curlMaxInputLength : Nat := 8000000

/-- One round of `urlencode_str` behind a `?`. -/
def urlencodeByte (b : UInt8) : List UInt8 :=
  if b = 32 then [43]
  else if b < 32 ∨ 127 ≤ b then [percent, hexDigit (b / 16), hexDigit (b % 16)]
  else [b]

def urlencodeStr (s : List UInt8) : List UInt8 := s.flatMap urlencodeByte

/-- `Curl_urldecode` with `REJECT_CTRL`. -/
def urldecode (s : List UInt8) : Option (List UInt8) :=
  if (decode s).any (· < 32) then none else some (decode s)

/-- `curl_url_get` of the query with `CURLU_URLENCODE`.  A blank query counts as missing, and the
buffer takes less than its limit. -/
def curlUrlGetEncoded (u : CurlUrl) : Option (List UInt8) :=
  match u.query with
  | none => none
  | some s =>
    if s = [] then none
    else if (urlencodeStr s).length + 1 ≤ curlMaxInputLength then some (urlencodeStr s) else none

/-- `curl_url_get` of the query with `CURLU_URLDECODE`: `+` is a space before it is decoded. -/
def curlUrlGetDecoded (u : CurlUrl) : Option (List UInt8) :=
  match u.query with
  | none => none
  | some s => if s = [] then none else urldecode (s.map fun b => if b = 43 then 32 else b)

/-- `GetRawQuery`. -/
def getRawQuery (u : CurlUrl) : Text := ((curlUrlGetEncoded u).map fromUTF8String).getD []

/-- `GetQuery`. -/
def getQuery (u : CurlUrl) : Text := ((curlUrlGetDecoded u).map fromUTF8String).getD []

/-! ### `QueryToHttpFields` -/

/-- The body of the loop of `QueryToHttpFields`. -/
def pairField (P : Platform) (pair : Text) : THttpField :=
  match find pair (asc '=') with
  | none => .ofName P (urlEncodeComponent pair) []
  | some idx =>
    .ofName P (urlEncodeComponent (pair.take idx)) (urlEncodeComponent (pair.drop (idx + 1)))

/-- `QueryToHttpFields(query)`. -/
def queryToHttpFields (P : Platform) (query : Text) : THttpFields :=
  if query = [] then {}
  else (query.splitOn (asc '&')).foldl (fun fields pair => fields.add (pairField P pair)) {}

/-- `QueryToHttpFields(url)`. -/
def urlToHttpFields (P : Platform) (u : CurlUrl) : THttpFields := queryToHttpFields P (getQuery u)

/-! ### The raw query decodes to what is stored -/

theorem urlencodeByte_plain {b : UInt8} (h : b ≠ 32) (h' : ¬ (b < 32 ∨ 127 ≤ b)) :
    urlencodeByte b = [b] := by
  rw [urlencodeByte, if_neg h, if_neg h']

/-- The bytes of encoded components are written as they are. -/
theorem urlencodeByte_encoded {b : UInt8}
    (h : isUnreserved b = true ∨ b = percent ∨ (hexValue b).isSome = true) :
    urlencodeByte b = [b] := by
  have hbounds := encodedByte_bounds h
  have hspace : b ≠ 32 := by
    intro heq
    rw [heq] at hbounds
    exact absurd hbounds.1 (by decide)
  apply urlencodeByte_plain hspace
  rw [UInt8.lt_iff_toNat_lt, UInt8.le_iff_toNat_le]
  show ¬ (b.toNat < 32 ∨ 127 ≤ b.toNat)
  omega

/-- What a byte is written as, if not as itself, is no digit. -/
theorem urlencodeByte_cases {b : UInt8} (hb : b ≠ 32) :
    urlencodeByte b = [b] ∨ urlencodeByte b = [percent, hexDigit (b / 16), hexDigit (b % 16)] := by
  rw [urlencodeByte, if_neg hb]
  split
  · exact Or.inr rfl
  · exact Or.inl rfl

theorem urlencodeStr_cons (b : UInt8) (s : List UInt8) :
    urlencodeStr (b :: s) = urlencodeByte b ++ urlencodeStr s := List.flatMap_cons

/-- Writing a string puts no digits behind a `%` that had none. -/
theorem not_digitsAhead_urlencodeStr {s : List UInt8} (hs : 32 ∉ s) (h : ¬ DigitsAhead s) :
    ¬ DigitsAhead (urlencodeStr s) := by
  have hpercent : (hexValue percent).isSome = false := by decide
  intro hahead
  obtain ⟨a, b, t, heq, ha, hb⟩ := hahead
  cases s with
  | nil => exact absurd heq (List.cons_ne_nil _ _).symm
  | cons c s =>
    obtain ⟨hc, hs⟩ := not_or.mp (mt List.mem_cons.mpr hs)
    rw [urlencodeStr_cons] at heq
    rcases urlencodeByte_cases (Ne.symm hc) with hplain | htriple
    · rw [hplain, List.singleton_append, List.cons.injEq] at heq
      obtain ⟨rfl, heq⟩ := heq
      cases s with
      | nil => exact absurd heq (List.cons_ne_nil _ _).symm
      | cons d s =>
        obtain ⟨hd, -⟩ := not_or.mp (mt List.mem_cons.mpr hs)
        rw [urlencodeStr_cons] at heq
        rcases urlencodeByte_cases (Ne.symm hd) with hplain | htriple
        · rw [hplain, List.singleton_append, List.cons.injEq] at heq
          obtain ⟨rfl, -⟩ := heq
          exact h ⟨c, d, s, rfl, ha, hb⟩
        · rw [htriple, List.cons_append, List.cons.injEq] at heq
          rw [← heq.1, hpercent] at hb
          exact absurd hb (by decide)
    · rw [htriple, List.cons_append, List.cons.injEq] at heq
      rw [← heq.1, hpercent] at ha
      exact absurd ha (by decide)

/-- **What `curl_url_get` encodes decodes to the same as the stored query**, without spaces. -/
theorem decode_urlencodeStr {s : List UInt8} (hs : 32 ∉ s) :
    decode (urlencodeStr s) = decode s := by
  induction hn : s.length using Nat.strong_induction_on generalizing s with
  | _ n ih =>
    subst hn
    cases s with
    | nil => rfl
    | cons c s =>
      obtain ⟨hc, hrest⟩ := not_or.mp (mt List.mem_cons.mpr hs)
      rw [urlencodeStr_cons]
      by_cases hp : c = percent
      · subst hp
        rw [urlencodeByte_encoded (Or.inr (Or.inl rfl)), List.singleton_append]
        by_cases hahead : DigitsAhead s
        · obtain ⟨a, b, t, rfl, ha, hb⟩ := hahead
          obtain ⟨x, hx⟩ := Option.isSome_iff_exists.mp ha
          obtain ⟨y, hy⟩ := Option.isSome_iff_exists.mp hb
          have ht : 32 ∉ t := fun h => hrest (List.mem_cons_of_mem _ (List.mem_cons_of_mem _ h))
          have hdecode := ih t.length (by simp only [List.length_cons]; omega) ht rfl
          rw [urlencodeStr_cons, urlencodeStr_cons, urlencodeByte_encoded (Or.inr (Or.inr ha)),
            urlencodeByte_encoded (Or.inr (Or.inr hb)), List.singleton_append, List.singleton_append,
            decode_triple hx hy, decode_triple hx hy, hdecode]
        · rw [decode_percent_of_not_digits hahead,
            decode_percent_of_not_digits (not_digitsAhead_urlencodeStr hrest hahead),
            ih s.length (by simp) hrest rfl]
      · have hdecode := ih s.length (by simp) hrest rfl
        rcases urlencodeByte_cases (Ne.symm hc) with hplain | htriple
        · rw [hplain, List.singleton_append, decode_cons_of_ne hp, decode_cons_of_ne hp, hdecode]
        · rw [htriple, decode_cons_of_ne hp]
          show decode (percent :: hexDigit (c / 16) :: hexDigit (c % 16) :: urlencodeStr s) = _
          rw [decode_triple (hexValue_high c) (hexValue_low c), byteOf_div_mod, hdecode]

/-- What is written is printable. -/
theorem urlencodeStr_bounds {s : List UInt8} {b : UInt8} (hb : b ∈ urlencodeStr s) :
    33 ≤ b.toNat ∧ b.toNat < 128 := by
  obtain ⟨c, -, hb⟩ := List.mem_flatMap.mp hb
  rw [urlencodeByte] at hb
  split at hb
  · rw [List.mem_singleton.mp hb]
    decide
  · split at hb
    · have htriple : isUnreserved b = true ∨ b = percent ∨ (hexValue b).isSome = true := by
        simp only [List.mem_cons, List.not_mem_nil, or_false] at hb
        rcases hb with rfl | rfl | rfl
        · exact Or.inr (Or.inl rfl)
        · exact Or.inr (Or.inr (by rw [hexValue_high]; rfl))
        · exact Or.inr (Or.inr (by rw [hexValue_low]; rfl))
      have hbounds := encodedByte_bounds htriple
      omega
    · rename_i hspace hplain
      rw [List.mem_singleton.mp hb]
      rw [← UInt8.toNat_inj] at hspace
      rw [UInt8.lt_iff_toNat_lt, UInt8.le_iff_toNat_le] at hplain
      change ¬ c.toNat = 32 at hspace
      change ¬ (c.toNat < 32 ∨ 127 ≤ c.toNat) at hplain
      omega

/-- A `+` or a space of the stored query is a `+` of the raw one. -/
theorem plus_mem_urlencodeStr {s : List UInt8} (h : 43 ∈ s ∨ 32 ∈ s) : 43 ∈ urlencodeStr s := by
  rcases h with h | h
  · exact List.mem_flatMap.mpr ⟨43, h, by decide⟩
  · exact List.mem_flatMap.mpr ⟨32, h, by decide⟩

/-- What `GetRawQuery` says about the stored query. -/
theorem stored_of_raw {u : CurlUrl} {r : List UInt8} (hr : r ≠ []) (h : getRawQuery u = ascii r) :
    ∃ s, u.query = some s ∧ s ≠ [] ∧ urlencodeStr s = r ∧ r.length < curlMaxInputLength := by
  have hnil : ascii r ≠ [] := by rwa [ascii, ne_eq, List.map_eq_nil_iff]
  rw [getRawQuery, curlUrlGetEncoded] at h
  cases hq : u.query with
  | none =>
    rw [hq] at h
    exact absurd h.symm hnil
  | some s =>
    rw [hq] at h
    dsimp only at h
    by_cases hs : s = []
    · rw [if_pos hs] at h
      exact absurd h.symm hnil
    · rw [if_neg hs] at h
      by_cases hlen : (urlencodeStr s).length + 1 ≤ curlMaxInputLength
      · rw [if_pos hlen, Option.map_some, Option.getD_some,
          fromUTF8String_printable fun b hb => urlencodeStr_bounds hb] at h
        obtain rfl := ascii_injective h
        exact ⟨s, rfl, hs, rfl, hlen⟩
      · rw [if_neg hlen] at h
        exact absurd h.symm hnil

/-- A stored query of encoded bytes is its own raw query. -/
theorem getRawQuery_of_encoded {u : CurlUrl} {r : List UInt8} (hq : u.query = some r) (hr : r ≠ [])
    (hencoded : Encoded isQueryByte r) (hlimit : r.length < curlMaxInputLength) :
    getRawQuery u = ascii r := by
  have hplain : urlencodeStr r = r := by
    clear hq hr hlimit
    induction hencoded with
    | nil => rfl
    | @plain c s hc _ ih =>
      rw [urlencodeStr_cons, ih]
      rw [isQueryByte, Bool.or_eq_true, Bool.or_eq_true, beq_iff_eq, beq_iff_eq] at hc
      rcases hc with (hun | rfl) | rfl
      · rw [urlencodeByte_encoded (Or.inl hun)]
        rfl
      · rfl
      · rfl
    | @triple a b x y s ha hb _ ih =>
      rw [urlencodeStr_cons, urlencodeStr_cons, urlencodeStr_cons, ih,
        urlencodeByte_encoded (Or.inr (Or.inl rfl)), urlencodeByte_encoded (Or.inr (Or.inr (by rw [ha]; rfl))),
        urlencodeByte_encoded (Or.inr (Or.inr (by rw [hb]; rfl)))]
      rfl
  have hget : curlUrlGetEncoded u = some r := by
    rw [curlUrlGetEncoded, hq]
    dsimp only
    rw [if_neg hr, hplain, if_pos (Nat.succ_le_of_lt hlimit)]
  rw [getRawQuery, hget, Option.map_some, Option.getD_some]
  have hbounds : ∀ b ∈ r, 33 ≤ b.toNat ∧ b.toNat < 128 := by
    intro b hb
    exact urlencodeStr_bounds (hplain.symm ▸ hb)
  exact fromUTF8String_printable hbounds

/-- **`GetQuery` gives the text whose bytes the raw query decodes to**, if that has no control
characters and there is no `+`. -/
theorem getQuery_of_raw {u : CurlUrl} {r : List UInt8} {t : Text} (hr : r ≠ [])
    (h : getRawQuery u = ascii r) (hplus : 43 ∉ r) (hdecode : decode r = toUTF8String t)
    (ht : ∀ c ∈ t, 32 ≤ c) : getQuery u = t := by
  obtain ⟨s, hq, hs, rfl, -⟩ := stored_of_raw hr h
  have hplus' : 43 ∉ s := fun hmem => hplus (plus_mem_urlencodeStr (Or.inl hmem))
  have hspace : 32 ∉ s := fun hmem => hplus (plus_mem_urlencodeStr (Or.inr hmem))
  have hsame : (s.map fun b => if b = 43 then 32 else b) = s := by
    have hid : (s.map fun b => if b = 43 then 32 else b) = s.map id := by
      refine List.map_congr_left fun b hb => if_neg ?_
      exact fun heq => hplus' (heq ▸ hb)
    rw [hid, List.map_id]
  have hbytes := le_of_mem_toUTF8String (k := 32) (by omega)
    fun c hc => UInt16.le_iff_toNat_le.mp (ht c hc)
  rw [decode_urlencodeStr hspace] at hdecode
  have hclean : ¬ (decode s).any (fun b => decide (b < 32)) = true := by
    rw [hdecode, List.any_eq_true]
    intro hany
    obtain ⟨b, hb, hlow⟩ := hany
    have hge := hbytes b hb
    have hlt : b.toNat < 32 := UInt8.lt_iff_toNat_lt.mp (of_decide_eq_true hlow)
    omega
  have hget : curlUrlGetDecoded u = some (toUTF8String t) := by
    rw [curlUrlGetDecoded, hq]
    dsimp only
    rw [if_neg hs, hsame, urldecode, if_neg hclean, hdecode]
  rw [getQuery, hget, Option.map_some, Option.getD_some, fromUTF8String,
    takeWhile_nonzero fun b hb => Nat.lt_of_lt_of_le (by decide) (hbytes b hb)]
  exact fromUTF8Bytes_toUTF8String t

/-! ### Raw queries that list encoded pairs -/

/-- `k` is a percent-encoding of the text. -/
structure ComponentOf (s : Text) (k : List UInt8) : Prop where
  form : Encoded isUnreserved k
  decodes : decode k = toUTF8String s

/-- `key=value`, the pairs joined by `&`. -/
def joinPairs (pairs : List (Text × Text)) : Text :=
  [asc '&'].intercalate (pairs.map fun p => p.1 ++ asc '=' :: p.2)

/-- The `&`-joined list of the pairs as percent-encoded `key=value` components. -/
def RawQueryOf (pairs : List (Text × Text)) (r : List UInt8) : Prop :=
  ∃ comps : List (List UInt8 × List UInt8),
    List.Forall₂ (fun p c => ComponentOf p.1 c.1 ∧ ComponentOf p.2 c.2) pairs comps ∧
      r = [38].intercalate (comps.map fun c => c.1 ++ 61 :: c.2)

section

variable {pairs : List (Text × Text)} {r : List UInt8}

theorem joined_encoded {k v : List UInt8} (hk : Encoded isUnreserved k)
    (hv : Encoded isUnreserved v) : Encoded isQueryByte (k ++ 61 :: v) :=
  (hk.mono fun _ => isQueryByte_of_isUnreserved).append
    (.plain (by decide) (hv.mono fun _ => isQueryByte_of_isUnreserved))

theorem forall_comps {comps : List (List UInt8 × List UInt8)}
    (h : List.Forall₂ (fun p c => ComponentOf p.1 c.1 ∧ ComponentOf p.2 c.2) pairs comps) :
    ∀ c ∈ comps, Encoded isUnreserved c.1 ∧ Encoded isUnreserved c.2 := by
  induction h with
  | nil => exact fun c hc => absurd hc List.not_mem_nil
  | cons hpc _ ih =>
    intro c hc
    rcases List.mem_cons.mp hc with rfl | hc
    · exact ⟨hpc.1.form, hpc.2.form⟩
    · exact ih c hc

theorem rawQuery_encoded (h : RawQueryOf pairs r) : Encoded isQueryByte r := by
  obtain ⟨comps, hcomps, rfl⟩ := h
  apply Encoded.intercalate (by decide)
  intro p hp
  obtain ⟨c, hc, rfl⟩ := List.mem_map.mp hp
  obtain ⟨hk, hv⟩ := forall_comps hcomps c hc
  exact joined_encoded hk hv

/-- **The raw query decodes to the joined pairs.** -/
theorem decode_rawQuery (hne : pairs ≠ []) (h : RawQueryOf pairs r) :
    decode r = toUTF8String (joinPairs pairs) := by
  obtain ⟨comps, hcomps, rfl⟩ := h
  have hne' : comps ≠ [] := by
    intro hnil
    rw [hnil, List.forall₂_nil_right_iff] at hcomps
    exact hne hcomps
  have hpieces : (comps.map fun c => c.1 ++ 61 :: c.2).map decode =
      (pairs.map fun p => p.1 ++ asc '=' :: p.2).map toUTF8String := by
    clear hne hne'
    induction hcomps with
    | nil => rfl
    | @cons p c ps cs hpc _ ih =>
      have hpair : decode (c.1 ++ 61 :: c.2) = toUTF8String (p.1 ++ asc '=' :: p.2) := by
        rw [hpc.1.form.decode_append isUnreserved_percent, decode_cons_of_ne (by decide),
          hpc.1.decodes, hpc.2.decodes, toUTF8String_append _ (by decide),
          toUTF8String_cons_ascii (by decide)]
        rfl
      simp only [List.map_cons, hpair, ih]
  have hdecode : decode ([38].intercalate (comps.map fun c => c.1 ++ 61 :: c.2)) =
      [38].intercalate ((comps.map fun c => c.1 ++ 61 :: c.2).map decode) := by
    refine intercalate_hom (fun p hp s => ?_) (by rwa [ne_eq, List.map_eq_nil_iff])
    obtain ⟨c, hc, rfl⟩ := List.mem_map.mp hp
    obtain ⟨hk, hv⟩ := forall_comps hcomps c hc
    rw [(joined_encoded hk hv).decode_append isQueryByte_percent, decode_cons_of_ne (by decide)]
  have hjoin : toUTF8String (joinPairs pairs) =
      [38].intercalate ((pairs.map fun p => p.1 ++ asc '=' :: p.2).map toUTF8String) := by
    refine intercalate_hom (fun p _ s => ?_) (by rwa [ne_eq, List.map_eq_nil_iff])
    rw [toUTF8String_append _ (by decide), toUTF8String_cons_ascii (by decide)]
    rfl
  rw [hdecode, hpieces, hjoin]

theorem plus_not_mem_rawQuery (h : RawQueryOf pairs r) : 43 ∉ r := by
  intro hmem
  rcases (rawQuery_encoded h).of_mem hmem with hkeep | hrest
  · exact absurd hkeep (by decide)
  · exact (encodedByte_bounds (Or.inr hrest)).2.2.2.2 rfl

theorem joinPairs_ne_nil (hne : pairs ≠ []) : joinPairs pairs ≠ [] := by
  intro hnil
  have hlen := congrArg List.length hnil
  cases pairs with
  | nil => exact hne rfl
  | cons p ps =>
    cases ps with
    | nil => simp [joinPairs] at hlen
    | cons p' ps => simp [joinPairs] at hlen

theorem rawQuery_ne_nil (hne : pairs ≠ []) (h : RawQueryOf pairs r) : r ≠ [] := by
  intro hnil
  have hdecode := decode_rawQuery hne h
  rw [hnil, decode_nil] at hdecode
  have htext := fromUTF8Bytes_toUTF8String (joinPairs pairs)
  rw [← hdecode] at htext
  exact joinPairs_ne_nil hne htext.symm

/-- No control characters. -/
def NoControl (s : Text) : Prop := ∀ c ∈ s, 32 ≤ c

instance (s : Text) : Decidable (NoControl s) :=
  decidable_of_iff (s.all fun c => decide (32 ≤ c)) (by simp [NoControl])

theorem noControl_joinPairs (hclean : ∀ p ∈ pairs, NoControl p.1 ∧ NoControl p.2) :
    NoControl (joinPairs pairs) := by
  refine forall_mem_intercalate (by decide) fun l hl c hc => ?_
  obtain ⟨p, hp, rfl⟩ := List.mem_map.mp hl
  rcases List.mem_append.mp hc with hc | hc
  · exact (hclean p hp).1 c hc
  · rcases List.mem_cons.mp hc with rfl | hc
    · decide
    · exact (hclean p hp).2 c hc

end

/-! ### The fields -/

/-- What a field says once it is decoded. -/
def decodedField (f : THttpField) : Text × Text := (percentDecode f.name, percentDecode f.value)

theorem fields_foldl (P : Platform) :
    ∀ (l : List Text) (s : THttpFields),
      (l.foldl (fun fields pair => fields.add (pairField P pair)) s).fields =
        s.fields ++ l.map (pairField P) := by
  intro l
  induction l with
  | nil => intro s; exact (List.append_nil _).symm
  | cons x l ih =>
    intro s
    rw [List.foldl_cons, ih, List.map_cons]
    exact List.append_assoc _ _ _

/-- **The field of a segment** decodes to its key and its value. -/
theorem decodedField_pairField (P : Platform) {pair : Text} (h : SegmentEscapes pair) :
    decodedField (pairField P pair) = (keyOf pair, valueOf pair) := by
  rw [pairField]
  by_cases hs : asc '=' ∈ pair
  · obtain ⟨k, v, rfl, hk⟩ := List.eq_append_cons_of_mem hs
    rw [SegmentEscapes, keyOf_append hk, valueOf_append hk] at h
    rw [find_append hk, keyOf_append hk, valueOf_append hk]
    dsimp only
    rw [take_until, drop_until, urlEncodeComponent_eq h.1, urlEncodeComponent_eq h.2]
    exact Prod.ext (percentDecode_encoded k) (percentDecode_encoded v)
  · rw [SegmentEscapes, keyOf_of_not_mem hs] at h
    rw [find_of_not_mem hs, keyOf_of_not_mem hs, valueOf_of_not_mem hs]
    dsimp only
    rw [urlEncodeComponent_eq h.1]
    exact Prod.ext (percentDecode_encoded pair) rfl

/-- The fields of a query, decoded, are the keys and values of its segments. -/
theorem decodedFields_eq (P : Platform) {query : Text} (hq : query ≠ []) (h : QueryEscapes query) :
    (queryToHttpFields P query).fields.map decodedField =
      (query.splitOn (asc '&')).map fun seg => (keyOf seg, valueOf seg) := by
  rw [queryToHttpFields, if_neg hq, fields_foldl]
  show (((query.splitOn (asc '&')).map (pairField P)).map decodedField) = _
  rw [List.map_map]
  exact List.map_congr_left fun seg hseg => decodedField_pairField P (h seg hseg)

/-- The pair has no separator where it would be taken for one. -/
def Unambiguous (p : Text × Text) : Prop :=
  asc '&' ∉ p.1 ∧ asc '=' ∉ p.1 ∧ asc '&' ∉ p.2

instance (p : Text × Text) : Decidable (Unambiguous p) := inferInstanceAs (Decidable (_ ∧ _ ∧ _))

/-- **Cutting the joined pairs gives the pairs back** iff none of them is ambiguous. -/
theorem segments_joinPairs_iff {pairs : List (Text × Text)} (hne : pairs ≠ []) :
    ((joinPairs pairs).splitOn (asc '&')).map (fun seg => (keyOf seg, valueOf seg)) = pairs ↔
      ∀ p ∈ pairs, Unambiguous p := by
  constructor
  · intro heq p hp
    rw [← heq] at hp
    obtain ⟨seg, hseg, rfl⟩ := List.mem_map.mp hp
    have hamp := not_mem_of_mem_splitOn hseg
    refine ⟨fun h => hamp ((List.takeWhile_prefix _).mem h), equals_not_mem_keyOf, fun h => hamp ?_⟩
    exact ((List.drop_suffix _ _).trans (List.dropWhile_suffix _)).mem h
  · intro hall
    have hsplit : (joinPairs pairs).splitOn (asc '&') =
        pairs.map fun p => p.1 ++ asc '=' :: p.2 := by
      refine List.splitOn_intercalate _ (fun l hl => ?_) (by rwa [ne_eq, List.map_eq_nil_iff])
      obtain ⟨p, hp, rfl⟩ := List.mem_map.mp hl
      obtain ⟨hkey, -, hvalue⟩ := hall p hp
      rw [List.mem_append, List.mem_cons]
      rintro (hmem | heq | hmem)
      · exact hkey hmem
      · exact absurd heq (by decide)
      · exact hvalue hmem
    rw [hsplit, List.map_map]
    conv_rhs => rw [← List.map_id pairs]
    apply List.map_congr_left
    intro p hp
    have hequals := (hall p hp).2.1
    exact Prod.ext (keyOf_append hequals p.2) (valueOf_append hequals p.2)

/-- **Query parsing, exactly.**  A URL whose raw query lists encoded pairs is read into one field for
each pair, in order, iff no key or value has an `&` and no key a `=`. -/
theorem queryFields_iff (P : Platform) (u : CurlUrl) (pairs : List (Text × Text))
    (hne : pairs ≠ []) (hclean : ∀ p ∈ pairs, NoControl p.1 ∧ NoControl p.2)
    (hraw : ∃ r, RawQueryOf pairs r ∧ getRawQuery u = ascii r) :
    (urlToHttpFields P u).fields.map decodedField = pairs ↔ ∀ p ∈ pairs, Unambiguous p := by
  obtain ⟨r, hr, hget⟩ := hraw
  have hdecode := decode_rawQuery hne hr
  have hquery : getQuery u = joinPairs pairs :=
    getQuery_of_raw (rawQuery_ne_nil hne hr) hget (plus_not_mem_rawQuery hr) hdecode
      (noControl_joinPairs hclean)
  have hshort : 3 * (joinPairs pairs).length < 2 ^ 31 := by
    -- libcurl's limit on the raw query bounds the decoded one
    obtain ⟨s, -, -, -, hlimit⟩ := stored_of_raw (rawQuery_ne_nil hne hr) hget
    have hunits := length_le_toUTF8String (joinPairs pairs)
    have hbytes := length_decode_le r
    rw [hdecode] at hbytes
    rw [curlMaxInputLength] at hlimit
    omega
  rw [urlToHttpFields, hquery, decodedFields_eq P (joinPairs_ne_nil hne) (queryEscapes_of_short hshort)]
  exact segments_joinPairs_iff hne

/-! ### Two queries -/

/-- A query as a builder writes it. -/
def rawQuery (pairs : List (Text × Text)) : List UInt8 :=
  [38].intercalate (pairs.map fun p =>
    encode isUnreserved (toUTF8String p.1) ++ 61 :: encode isUnreserved (toUTF8String p.2))

theorem componentOf_encode (s : Text) : ComponentOf s (encode isUnreserved (toUTF8String s)) :=
  ⟨encoded_encode _, decode_encode isUnreserved_percent _⟩

theorem rawQueryOf_rawQuery (pairs : List (Text × Text)) : RawQueryOf pairs (rawQuery pairs) := by
  refine ⟨pairs.map fun p =>
    (encode isUnreserved (toUTF8String p.1), encode isUnreserved (toUTF8String p.2)), ?_, ?_⟩
  · rw [List.forall₂_map_right_iff, List.forall₂_same]
    exact fun p _ => ⟨componentOf_encode p.1, componentOf_encode p.2⟩
  · rw [rawQuery, List.map_map]
    rfl

/-- A handle that stores a query as a builder writes it. -/
theorem getRawQuery_rawQuery {u : CurlUrl} {pairs : List (Text × Text)} (hne : pairs ≠ [])
    (hq : u.query = some (rawQuery pairs)) (hlimit : (rawQuery pairs).length < curlMaxInputLength) :
    ∃ r, RawQueryOf pairs r ∧ getRawQuery u = ascii r :=
  have hraw := rawQueryOf_rawQuery pairs
  ⟨rawQuery pairs, hraw,
    getRawQuery_of_encoded hq (rawQuery_ne_nil hne hraw) (rawQuery_encoded hraw) hlimit⟩

/-- A URL with `?a%2Bb=50%25&c=d%3De`. -/
def plusPairs : List (Text × Text) := [(lit "a+b", lit "50%"), (lit "c", lit "d=e")]

def plusUrl : CurlUrl where
  query := some (rawQuery plusPairs)
  terminated := by
    intro s hs
    obtain rfl := Option.some.inj hs
    decide +kernel

/-- `+`, `%` and, in a value, `=` are data. -/
theorem queryFields_plus :
    (urlToHttpFields asciiPlatform plusUrl).fields.map decodedField = plusPairs :=
  (queryFields_iff asciiPlatform plusUrl plusPairs (List.cons_ne_nil _ _)
    (by decide +kernel)
    (getRawQuery_rawQuery (List.cons_ne_nil _ _) rfl (by decide +kernel))).mpr
    (by decide +kernel)

/-- A URL with `?a%26b=c`. -/
def ampersandUrl : CurlUrl where
  query := some (rawQuery [(lit "a&b", lit "c")])
  terminated := by
    intro s hs
    obtain rfl := Option.some.inj hs
    decide +kernel

/-- An `&` inside a key makes two fields of one pair. -/
theorem not_every_query_read_back :
    ¬ ∀ (P : Platform) (u : CurlUrl) (pairs : List (Text × Text)), pairs ≠ [] →
      (∀ p ∈ pairs, NoControl p.1 ∧ NoControl p.2) →
      (∃ r, RawQueryOf pairs r ∧ getRawQuery u = ascii r) →
      (urlToHttpFields P u).fields.map decodedField = pairs := by
  intro hall
  have hread := hall asciiPlatform ampersandUrl [(lit "a&b", lit "c")] (List.cons_ne_nil _ _)
    (by decide +kernel)
    (getRawQuery_rawQuery (List.cons_ne_nil _ _) rfl (by decide +kernel))
  exact absurd hread (by decide +kernel)

end NetMod.QueryFields
