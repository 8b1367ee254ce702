import NetMod.CookieAttributes
import NetMod.Lib.Gregorian
import NetMod.Lib.PartialRuns
import NetMod.ParseDate

/-!
# `Expires` through the cookie builder

`FormatExpires` prints the fields of an instant in the fixed form of a date, and libcurl's parser reads
the same fields from it.  That the fields stand for the instant is the calendar's: the days counted
since 1970 are those of the parser's formula (`time2epoch_eq`).  So a cookie keeps its instant through
the builder, and through another round of formatting (`expires_survives`).
-/

namespace NetMod.ExpiresRoundTrip

open NetMod.BlitzText NetMod.Utf8Text NetMod.CurlText NetMod.Gregorian NetMod.ParseDate
open NetMod.HttpCookie NetMod.SetCookieParser NetMod.CookieAttributes NetMod.PartialRuns

/-! ### The calendar of the runtime -/

/-- The first of January 1970, a Thursday. -/
def epochDate : Date := .first 1970 1 (by decide) (by decide)

/-- The texts of `EShortWeekday`, Monday first. -/
def shortWeekdays : List Text :=
  [lit "Mon", lit "Tue", lit "Wed", lit "Thu", lit "Fri", lit "Sat", lit "Sun"]

/-- The fields of an instant in UTC. -/
def utcFields (e : Int) : SDateTime :=
  let days := (e / 86400).toNat
  let seconds := (e % 86400).toNat
  let date := epochDate.after days
  { year := date.year.toNat
    month := date.month
    day := date.day
    hour := seconds / 3600
    minute := seconds / 60 % 60
    second := seconds % 60
    shortWeekday := shortWeekdays.getD ((days + 3) % 7) [] }

/-- The end of the year 9999. -/
def lastSecond : Int := 253402300799

/-- `SDateTime.FromEpoch` gives the fields in UTC, and `bmx_curl_getdate` is `curl_getdate`. -/
structure Calendars (P : Platform) : Prop where
  fromEpoch : ∀ e, 0 < e → e ≤ lastSecond → P.fromEpoch e = utcFields e
  getdate : ∀ s, P.getdate s = curlGetdate (cString s)

/-! ### What the fields stand for -/

theorem time2epoch_eq (d : Date) (hour minute second : Int) :
    time2epoch second minute hour d.day (d.month - 1 : Nat) d.year =
      (((d.dayNumber - epochDate.dayNumber) * 24 + hour) * 60 + minute) * 60 + second := by
  have hone := d.one_le_month
  have htwelve := d.month_le
  have hall : ∀ k < 12, [0, 31, 59, 90, 120, 151, 181, 212, 243, 273, 304, 334].getD k (0 : Int) =
      monthDays (k + 1) := by decide
  have hmonth := hall (d.month - 1) (by omega)
  rw [Nat.sub_add_cancel hone] at hmonth
  have hepoch : epochDate.dayNumber = 719528 := by decide
  have hfeb : ((d.month - 1 : Nat) : Int) ≤ 1 ↔ d.month ≤ 2 := by omega
  rw [time2epoch, hepoch, Date.dayNumber, leapDays, Int.toNat_natCast, hmonth]
  simp only [hfeb]
  split <;> omega

section

variable {e : Int} (he : 0 < e) (he' : e ≤ lastSecond)
include he he'

theorem days_le : (e / 86400).toNat ≤ 2932896 := by
  rw [lastSecond] at he'
  omega

/-- The years are the ones with four digits. -/
theorem year_bounds : 1970 ≤ (epochDate.after (e / 86400).toNat).year ∧
    (epochDate.after (e / 86400).toNat).year < 10000 := by
  have hdays := days_le he he'
  have hepoch : epochDate.dayNumber = 719528 := by decide
  have hlast : leapDays (10000 - 1) = 2424 := by decide
  constructor
  · exact year_le_after epochDate _
  · apply year_lt_of_dayNumber
    rw [dayNumber_after, hepoch, hlast]
    omega

/-- **The fields of an instant stand for it.** -/
theorem time2epoch_utcFields :
    time2epoch (utcFields e).second (utcFields e).minute (utcFields e).hour (utcFields e).day
      ((utcFields e).month - 1 : Nat) (utcFields e).year = e := by
  obtain ⟨hlow, -⟩ := year_bounds he he'
  have hyear : ((utcFields e).year : Int) = (epochDate.after (e / 86400).toNat).year :=
    Int.toNat_of_nonneg (by omega)
  have hdays := dayNumber_after epochDate (e / 86400).toNat
  rw [hyear]
  show time2epoch _ _ _ (epochDate.after (e / 86400).toNat).day
    ((epochDate.after (e / 86400).toNat).month - 1 : Nat) _ = e
  rw [time2epoch_eq, hdays]
  show (((_ : Int) * 24 + ((e % 86400).toNat / 3600 : Nat)) * 60 + ((e % 86400).toNat / 60 % 60 : Nat)) * 60 +
    ((e % 86400).toNat % 60 : Nat) = e
  omega

end

/-! ### The text of a date -/

theorem ascii_append (s t : Bytes) : ascii (s ++ t) = ascii s ++ ascii t := List.map_append

theorem lit_shortWeekday : ∀ i < 7, shortWeekdays.getD i [] = ascii (bytes (wkday.getD i "")) := by
  decide

theorem lit_month : ∀ i < 12, months.getD i [] = ascii (bytes (month.getD i "")) := by decide

theorem padded_two : ∀ n < 100, padded 2 n = ascii (twoDigits n) := by decide

theorem decimal_four {n : Nat} (h : 1000 ≤ n) (h' : n < 10000) : decimal n = fourDigits n := by
  have hthousands : n / 10 / 10 / 10 = n / 1000 := by omega
  have hhundreds : n / 10 / 10 % 10 = n / 100 % 10 := by omega
  rw [decimal, if_neg (by omega), Nat.digits_def' (by omega) (by omega),
    Nat.digits_def' (by omega) (by omega), Nat.digits_def' (by omega) (by omega),
    Nat.digits_of_lt 10 _ (by omega) (by omega), hthousands, hhundreds]
  rfl

theorem padded_four {n : Nat} (h : 1000 ≤ n) (h' : n < 10000) : padded 4 n = ascii (fourDigits n) := by
  rw [padded, ofNat_eq_ascii, decimal_four h h']
  rfl

/-- The fields of a date with a year of four digits. -/
structure InRange (t : SDateTime) : Prop where
  year : 1970 ≤ t.year ∧ t.year ≤ 9999
  month : 1 ≤ t.month ∧ t.month ≤ 12
  day : 1 ≤ t.day ∧ t.day ≤ 31
  hour : t.hour < 24
  minute : t.minute < 60
  second : t.second < 60

theorem inRange_utcFields {e : Int} (he : 0 < e) (he' : e ≤ lastSecond) : InRange (utcFields e) := by
  obtain ⟨hlow, hhigh⟩ := year_bounds he he'
  have hmonth := (epochDate.after (e / 86400).toNat).one_le_month
  have hday := (epochDate.after (e / 86400).toNat).day_le
  have hlong := daysInMonth_le (epochDate.after (e / 86400).toNat).year
    (epochDate.after (e / 86400).toNat).month
  have hseconds : (e % 86400).toNat < 86400 := by omega
  refine ⟨?_, ⟨hmonth, Date.month_le _⟩, ⟨Date.one_le_day _, hday.trans hlong⟩, ?_, ?_, ?_⟩
  · show 1970 ≤ (epochDate.after (e / 86400).toNat).year.toNat ∧
      (epochDate.after (e / 86400).toNat).year.toNat ≤ 9999
    omega
  · show (e % 86400).toNat / 3600 < 24
    omega
  · show (e % 86400).toNat / 60 % 60 < 60
    omega
  · show (e % 86400).toNat % 60 < 60
    omega

/-- The fixed form of a date, with its weekday. -/
def fixdateOf (t : SDateTime) (w : Nat) : Bytes :=
  fixdate (wkday.getD w "") (month.getD (t.month - 1) "") t.day t.year t.hour t.minute t.second

/-- **What `FormatExpires` prints** is the fixed form. -/
theorem formatExpires_eq {P : Platform} {e : Int} {w : Nat} (ht : InRange (P.fromEpoch e)) (hw : w < 7)
    (hweekday : (P.fromEpoch e).shortWeekday = shortWeekdays.getD w []) :
    formatExpires P e = ascii (fixdateOf (P.fromEpoch e) w) := by
  obtain ⟨⟨hyear, hyear'⟩, ⟨hmonth, hmonth'⟩, ⟨hday, hday'⟩, hhour, hminute, hsecond⟩ := ht
  have hcomma : lit ", " = ascii (bytes ", ") := by decide
  have hspace : lit " " = ascii (bytes " ") := by decide
  have hcolon : lit ":" = ascii [byte ':'] := by decide
  have hzone : lit " GMT" = ascii (bytes " " ++ bytes "GMT") := by decide
  rw [formatExpires, hweekday, lit_shortWeekday w hw, lit_month _ (by omega), padded_two _ (by omega),
    padded_four (by omega) (by omega), padded_two _ (by omega), padded_two _ (by omega),
    padded_two _ (by omega), hcomma, hspace, hcolon, hzone]
  simp only [← ascii_append, fixdateOf, fixdate, List.append_assoc, List.cons_append,
    List.nil_append]

theorem ascii_of_all {s : Bytes} (h : s.all (fun b => decide (0 < b.toNat ∧ b.toNat < 128)) = true) :
    ∀ b ∈ s, 0 < b.toNat ∧ b.toNat < 128 :=
  fun b hb => of_decide_eq_true (List.all_eq_true.mp h b hb)

theorem twoDigits_bounds {n : Nat} (hn : n < 100) : ∀ b ∈ twoDigits n, 0 < b.toNat ∧ b.toNat < 128 := by
  intro b hb
  exact digitBytes_bounds (two_digits_lt hn) hb

theorem fourDigits_bounds {n : Nat} (hn : n < 10000) :
    ∀ b ∈ fourDigits n, 0 < b.toNat ∧ b.toNat < 128 := by
  intro b hb
  exact digitBytes_bounds (four_digits_lt hn) hb

/-- The fixed form is ASCII text. -/
theorem fixdateOf_bounds {t : SDateTime} (ht : InRange t) {w : Nat} (hw : w < 7) :
    ∀ b ∈ fixdateOf t w, 0 < b.toNat ∧ b.toNat < 128 := by
  obtain ⟨⟨hyear, hyear'⟩, ⟨hmonth, hmonth'⟩, ⟨hday, hday'⟩, hhour, hminute, hsecond⟩ := ht
  have hwkday : ∀ i < 7, (bytes (wkday.getD i "")).all
      (fun b => decide (0 < b.toNat ∧ b.toNat < 128)) = true := by decide
  have hmonths : ∀ i < 12, (bytes (month.getD i "")).all
      (fun b => decide (0 < b.toNat ∧ b.toNat < 128)) = true := by decide
  have hcolon : 0 < (byte ':').toNat ∧ (byte ':').toNat < 128 := by decide
  simp only [fixdateOf, fixdate, List.forall_mem_append, List.forall_mem_cons]
  exact ⟨ascii_of_all (hwkday w hw), ascii_of_all rfl, twoDigits_bounds (by omega), ascii_of_all rfl,
    ascii_of_all (hmonths _ (by omega)), ascii_of_all rfl, fourDigits_bounds (by omega),
    ascii_of_all rfl, twoDigits_bounds (by omega), hcolon, twoDigits_bounds (by omega), hcolon,
    twoDigits_bounds (by omega), ascii_of_all rfl, ascii_of_all rfl⟩

/-- The text is read as the instant its fields stand for. -/
theorem curlGetdate_formatExpires {P : Platform} (hP : Calendars P) {e : Int} (he : 0 < e)
    (he' : e ≤ lastSecond) : P.getdate (formatExpires P e) = e := by
  have hfields := hP.fromEpoch e he he'
  have ht := inRange_utcFields he he'
  have hw : ((e / 86400).toNat + 3) % 7 < 7 := by omega
  have hread : parsedate (fixdateOf (utcFields e) (((e / 86400).toNat + 3) % 7)) = some e := by
    obtain ⟨⟨hyear, hyear'⟩, ⟨hmonth, hmonth'⟩, ⟨hday, hday'⟩, hhour, hminute, hsecond⟩ := ht
    rw [fixdateOf, parsedate_fixdate hw (by omega) hday hday' (by omega) hyear' hhour hminute hsecond,
      time2epoch_utcFields he he']
  rw [hP.getdate, formatExpires_eq (by rw [hfields]; exact ht) hw (by rw [hfields]; rfl), hfields,
    cString_ascii (fixdateOf_bounds ht hw), curlGetdate, hread]
  exact if_neg (by omega)

/-! ### The form of the text -/

/-- A text of so many digits. -/
def Digits (w : Nat) (t : Text) : Prop := t.length = w ∧ ∀ c ∈ t, asc '0' ≤ c ∧ c ≤ asc '9'

/-- `Www, DD Mon YYYY HH:MM:SS GMT`. -/
def IsImfFixdate (s : Text) : Prop :=
  ∃ weekday ∈ shortWeekdays, ∃ mon ∈ months, ∃ day year hour minute second : Text,
    Digits 2 day ∧ Digits 4 year ∧ Digits 2 hour ∧ Digits 2 minute ∧ Digits 2 second ∧
      s = weekday ++ lit ", " ++ day ++ lit " " ++ mon ++ lit " " ++ year ++ lit " " ++ hour ++ lit ":" ++
        minute ++ lit ":" ++ second ++ lit " GMT"

theorem digits_ascii {ds : List Nat} (hds : ∀ d ∈ ds, d < 10) :
    Digits ds.length (ascii (digitBytes ds)) := by
  have hall : ∀ d < 10, asc '0' ≤ (UInt8.ofNat (d + 48)).toUInt16 ∧
      (UInt8.ofNat (d + 48)).toUInt16 ≤ asc '9' := by decide
  constructor
  · rw [ascii, digitBytes, List.length_map, List.length_map]
  · intro c hc
    obtain ⟨b, hb, rfl⟩ := List.mem_map.mp hc
    obtain ⟨d, hd, rfl⟩ := List.mem_map.mp hb
    exact hall d (hds d hd)

theorem digits_padded_two {n : Nat} (hn : n < 100) : Digits 2 (padded 2 n) := by
  rw [padded_two n hn]
  exact digits_ascii (two_digits_lt hn)

theorem digits_padded_four {n : Nat} (h : 1000 ≤ n) (h' : n < 10000) : Digits 4 (padded 4 n) := by
  rw [padded_four h h']
  exact digits_ascii (four_digits_lt h')

theorem getD_mem {names : List Text} {i : Nat} (h : i < names.length) : names.getD i [] ∈ names := by
  rw [← List.getElem_eq_getD (h := h)]
  exact List.getElem_mem h

theorem isImfFixdate_formatExpires {P : Platform} (hP : Calendars P) {e : Int} (he : 0 < e)
    (he' : e ≤ lastSecond) : IsImfFixdate (formatExpires P e) := by
  obtain ⟨⟨hyear, hyear'⟩, ⟨hmonth, hmonth'⟩, ⟨hday, hday'⟩, hhour, hminute, hsecond⟩ :=
    inRange_utcFields he he'
  have hweekday : (utcFields e).shortWeekday ∈ shortWeekdays := by
    apply getD_mem
    show ((e / 86400).toNat + 3) % 7 < 7
    omega
  have hmon : months.getD ((utcFields e).month - 1) [] ∈ months := by
    apply getD_mem
    show (utcFields e).month - 1 < 12
    omega
  rw [formatExpires, hP.fromEpoch e he he']
  exact ⟨_, hweekday, _, hmon, _, _, _, _, _, digits_padded_two (by omega),
    digits_padded_four (by omega) (by omega), digits_padded_two (by omega), digits_padded_two (by omega),
    digits_padded_two (by omega), rfl⟩

/-! ### The builder -/

/-- A call of a method of `THttpCookieBuilder`. -/
inductive BuilderCall where
  | attribute (name value : Text)
  | expires (n : Int)
  | httpOnly (on : Bool)
  | maxAge (n : Int)
  | partitioned (on : Bool)
  | secure (on : Bool)
  | sameSite (s : Text)

/-- The call; `none` where it raises. -/
def BuilderCall.on (P : Platform) (b : THttpCookieBuilder) : BuilderCall → Option THttpCookieBuilder
  | .attribute name value => b.attribute P name value
  | .expires n => some (b.expires P n)
  | .httpOnly on => some (b.httpOnly P on)
  | .maxAge n => some (b.maxAge P n)
  | .partitioned on => some (b.partitioned P on)
  | .secure on => some (b.secure P on)
  | .sameSite s => some (b.sameSite P s)

/-- A builder after calls. -/
def builderAfter (P : Platform) (name value : Text) (version : Int) (calls : List BuilderCall) :
    Option THttpCookieBuilder :=
  run (BuilderCall.on P) { name, value, version } calls

theorem toText_ne_nil (a : ECookieAttribute) : a.toText ≠ [] := by
  cases a <;> decide

theorem keyed_expires {P : Platform} {b : THttpCookieBuilder} (hb : Keyed P b.attributes) (n : Int) :
    Keyed P (b.expires P n).attributes := by
  rw [expires_eq_setKey]
  exact keyed_setKey hb (toText_ne_nil _) _

theorem keyed_setFlag {P : Platform} {b : THttpCookieBuilder} (hb : Keyed P b.attributes)
    (a : ECookieAttribute) (on : Bool) : Keyed P (b.setFlag P a on).attributes := by
  rw [setFlag_eq_setKey]
  exact keyed_setKey hb (toText_ne_nil a) _

/-- **A call keeps the keys of the map apart.** -/
theorem keyed_on {P : Platform} {b b' : THttpCookieBuilder} (hb : Keyed P b.attributes)
    {c : BuilderCall} (h : c.on P b = some b') : Keyed P b'.attributes := by
  cases c with
  | «attribute» name value => exact (writesOne P).keeps b (name, value) b' hb h
  | expires n =>
    cases h
    exact keyed_expires hb n
  | httpOnly on =>
    cases h
    exact keyed_setFlag hb .httpOnly on
  | maxAge n =>
    cases h
    rw [maxAge_eq_setKey]
    exact keyed_setKey hb (toText_ne_nil _) _
  | partitioned on =>
    cases h
    exact keyed_setFlag hb .partitioned on
  | secure on =>
    cases h
    exact keyed_setFlag hb .secure on
  | sameSite s =>
    cases h
    rw [sameSite_eq_setKey]
    exact keyed_setKey hb (toText_ne_nil _) _

theorem keyed_builderAfter {P : Platform} {name value : Text} {version : Int}
    {calls : List BuilderCall} {b : THttpCookieBuilder}
    (h : builderAfter P name value version calls = some b) : Keyed P b.attributes :=
  run_invariant _ (fun _ _ _ hb hc => keyed_on hb hc) (keyed_nil P) h

/-! ### The round trip -/

/-- The last of two `Put`s under one key is the one that counts. -/
theorem put_put (P : Platform) (m : Attributes) (key value value' : Text) :
    (m.put P key value).put P key value' = m.put P key value' := by
  by_cases hany : m.any (fun p => P.equalsFold p.1 key) = true
  · have hstill : (m.map fun p => if P.equalsFold p.1 key then (p.1, value) else p).any
        (fun p => P.equalsFold p.1 key) = true := by
      obtain ⟨p, hp, hfold⟩ := List.any_eq_true.mp hany
      refine List.any_eq_true.mpr ⟨(p.1, value), List.mem_map.mpr ⟨p, hp, ?_⟩, hfold⟩
      rw [if_pos hfold]
    rw [Attributes.put, Attributes.put, Attributes.put, if_pos hany, if_pos hany, if_pos hstill,
      List.map_map]
    apply List.map_congr_left
    intro p _
    show (if P.equalsFold (if P.equalsFold p.1 key then (p.1, value) else p).1 key then _ else _) = _
    by_cases hfold : P.equalsFold p.1 key = true
    · simp only [hfold, if_true]
    · simp only [hfold, Bool.false_eq_true, if_false]
  · have hself : P.equalsFold key key = true := beq_self_eq_true _
    have hstill : (m ++ [(key, value)]).any (fun p => P.equalsFold p.1 key) = true :=
      List.any_eq_true.mpr ⟨(key, value), List.mem_append_right _ (List.mem_singleton_self _), hself⟩
    have hrest : ∀ p ∈ m, (if P.equalsFold p.1 key then (p.1, value') else p) = p := by
      intro p hp
      exact if_neg fun hfold => hany (List.any_eq_true.mpr ⟨p, hp, hfold⟩)
    rw [Attributes.put, Attributes.put, Attributes.put, if_neg hany, if_neg hany, if_pos hstill,
      List.map_append, List.map_congr_left hrest, List.map_id', List.map_singleton, if_pos hself]

theorem expires_expires (P : Platform) (b : THttpCookieBuilder) {e : Int} (he : 0 < e) :
    (b.expires P e).expires P e = b.expires P e := by
  simp only [THttpCookieBuilder.expires, if_pos he, THttpCookieBuilder.put, put_put]

/-- No date is read from an empty text. -/
theorem ne_nil_of_getdate {P : Platform} (hP : Calendars P) {s : Text} {e : Int} (he : 0 < e)
    (hs : P.getdate s = e) : s ≠ [] := by
  rintro rfl
  have hnil : P.getdate [] = -1 := by
    rw [hP.getdate]
    decide
  omega

/-- `Attribute` of a date is `Expires` of its instant. -/
theorem attribute_eq_expires {P : Platform} (hP : Calendars P) (b : THttpCookieBuilder)
    {name text : Text} {e : Int} (hname : P.toLower name = P.toLower (lit "Expires")) (he : 0 < e)
    (htext : P.getdate text = e) : b.attribute P name text = some (b.expires P e) := by
  have hlower : P.toLower name = lit "expires" := by
    rw [hname]
    exact (toLower_toText P .expires).trans (by decide)
  have hnonempty : name ≠ [] := by
    rintro rfl
    rw [toLower_nil] at hlower
    exact absurd hlower (by decide)
  have hparse : parseExpires P text = e := by
    rw [parseExpires, htext]
    exact if_neg (by omega)
  rw [THttpCookieBuilder.attribute, if_neg hnonempty]
  dsimp only
  rw [if_pos hlower, if_pos (ne_nil_of_getdate hP he htext), hparse]

/-- The cookie built after `Expires(e)` has the text of `e`. -/
theorem getAttribute_expires {P : Platform} {b : THttpCookieBuilder} (hb : Keyed P b.attributes)
    {e : Int} (he : 0 < e) :
    ((b.expires P e).build P).getAttribute P .expires = formatExpires P e := by
  rw [THttpCookie.getAttribute, THttpCookie.getAttributeNamed, tryGetValue_build (keyed_expires hb e),
    THttpCookieBuilder.expires, if_pos he]
  show ((b.attributes.put P _ _).tryGetValue P _).getD [] = _
  rw [tryGetValue_put, if_pos rfl]
  rfl

/-- And it expires at `e`. -/
theorem getExpires_expires {P : Platform} (hP : Calendars P) {b : THttpCookieBuilder}
    (hb : Keyed P b.attributes) {e : Int} (he : 0 < e) (he' : e ≤ lastSecond) :
    ((b.expires P e).build P).getExpires P = e := by
  have hread := curlGetdate_formatExpires hP he he'
  rw [THttpCookie.getExpires, getAttribute_expires hb he]
  show (if formatExpires P e = [] then 0 else parseExpires P (formatExpires P e)) = e
  rw [if_neg (ne_nil_of_getdate hP he hread), parseExpires, hread]
  exact if_neg (by omega)

/-- The text of an instant is a fixed date that is decoded to it, and so is what a cookie built with
it says. -/
structure RoundTrips (P : Platform) (b : THttpCookieBuilder) (e : Int) : Prop where
  fixdate : IsImfFixdate (formatExpires P e)
  decoded : P.getdate (formatExpires P e) = e
  built : ((b.expires P e).build P).getExpires P = e

/-- A builder after `Attribute(name, text)` for a text that stands for an instant: the cookie keeps
the instant, and neither the text nor what is stored of it changes the builder again. -/
structure Reformatted (P : Platform) (b : THttpCookieBuilder) (name text : Text) (e : Int) :
    Prop where
  kept : (b.build P).getExpires P = e
  again : b.attribute P name text = some b
  stored : b.attribute P name ((b.build P).getAttribute P .expires) = some b

/-- An instant survives the builder, from a number and from any text that stands for it. -/
structure ExpiresSurvives (P : Platform) (b : THttpCookieBuilder) : Prop where
  number : ∀ e, 0 < e → e ≤ lastSecond → RoundTrips P b e
  text : ∀ name text e, P.toLower name = P.toLower (lit "Expires") → P.getdate text = e → 0 < e →
    e ≤ lastSecond → ∃ b', b.attribute P name text = some b' ∧ Reformatted P b' name text e

/-- **An instant survives the builder**, whatever was called before. -/
theorem expires_survives (P : Platform) (hP : Calendars P) (name value : Text) (version : Int)
    (calls : List BuilderCall) (b : THttpCookieBuilder)
    (hb : builderAfter P name value version calls = some b) : ExpiresSurvives P b := by
  have hkeyed := keyed_builderAfter hb
  constructor
  · intro e he he'
    exact ⟨isImfFixdate_formatExpires hP he he', curlGetdate_formatExpires hP he he',
      getExpires_expires hP hkeyed he he'⟩
  · intro attr text e hattr htext he he'
    have hread := curlGetdate_formatExpires hP he he'
    refine ⟨b.expires P e, attribute_eq_expires hP b hattr he htext, ?_, ?_, ?_⟩
    · exact getExpires_expires hP hkeyed he he'
    · rw [attribute_eq_expires hP _ hattr he htext, expires_expires P b he]
    · rw [getAttribute_expires hkeyed he, attribute_eq_expires hP _ hattr he hread,
        expires_expires P b he]

/-- A runtime whose calendar is UTC and whose date parser is libcurl's. -/
def utcPlatform : Platform :=
  { asciiPlatform with
    fromEpoch := utcFields
    getdate := fun s => curlGetdate (cString s) }

theorem expires_survives_new :
    ExpiresSurvives utcPlatform { name := lit "k", value := lit "v", version := 0 } :=
  expires_survives utcPlatform ⟨fun _ _ _ => rfl, fun _ => rfl⟩ (lit "k") (lit "v") 0 [] _ rfl

end NetMod.ExpiresRoundTrip
