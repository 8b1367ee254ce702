import NetMod.CurlText

/-!
# libcurl's date parser

`parsedate` takes at most six parts of a text, between them anything that is no letter or digit.  A
name is a weekday, a month or a time zone, whichever is still missing; a number is a time, a zone, a
whole date, a day or a year.  `curlGetdate` is `curl_getdate`, with a 64-bit `time_t`.
-/

namespace NetMod.ParseDate

open NetMod.CurlText

/-! ### Names -/

/-- `Curl_wkday`. -/
def wkday : List String := ["Mon", "Tue", "Wed", "Thu", "Fri", "Sat", "Sun"]

def weekday : List String :=
  ["Monday", "Tuesday", "Wednesday", "Thursday", "Friday", "Saturday", "Sunday"]

/-- `Curl_month`. -/
def month : List String :=
  ["Jan", "Feb", "Mar", "Apr", "May", "Jun", "Jul", "Aug", "Sep", "Oct", "Nov", "Dec"]

/-- `tz`: the names of time zones, with their offsets in minutes. -/
def tz : List (String × Int) :=
  [("GMT", 0), ("UT", 0), ("UTC", 0), ("WET", 0), ("BST", -60), ("WAT", 60), ("AST", 240),
    ("ADT", 180), ("EST", 300), ("EDT", 240), ("CST", 360), ("CDT", 300), ("MST", 420),
    ("MDT", 360), ("PST", 480), ("PDT", 420), ("YST", 540), ("YDT", 480), ("HST", 600),
    ("HDT", 540), ("CAT", 600), ("AHST", 600), ("NT", 660), ("IDLW", 720), ("CET", -60),
    ("MET", -60), ("MEWT", -60), ("MEST", -120), ("CEST", -120), ("MESZ", -120), ("FWT", -60),
    ("FST", -120), ("EET", -120), ("WAST", -420), ("WADT", -480), ("CCT", -480), ("JST", -540),
    ("EAST", -600), ("EADT", -660), ("GST", -600), ("NZT", -720), ("NZST", -720), ("NZDT", -780),
    ("IDLE", -720), ("A", 60), ("B", 120), ("C", 180), ("D", 240), ("E", 300), ("F", 360),
    ("G", 420), ("H", 480), ("I", 540), ("K", 600), ("L", 660), ("M", 720), ("N", -60),
    ("O", -120), ("P", -180), ("Q", -240), ("R", -300), ("S", -360), ("T", -420), ("U", -480),
    ("V", -540), ("W", -600), ("X", -660), ("Y", -720), ("Z", 0)]

/-- The place of a name in a list, whatever its case, or -1. -/
def placeOf (names : List String) (check : Bytes) : Int :=
  match names.findIdx? fun name => strequal check (bytes name) with
  | some i => i
  | none => -1

/-- `checkday`: 0 for Monday to 6. -/
def checkday (check : Bytes) : Int :=
  if 3 < check.length then placeOf weekday check
  else if check.length = 3 then placeOf wkday check
  else -1

/-- `checkmonth`: 0 for January to 11. -/
def checkmonth (check : Bytes) : Int :=
  if check.length = 3 then placeOf month check else -1

/-- `checktz`: the offset of a time zone in seconds, or -1. -/
def checktz (check : Bytes) : Int :=
  match tz.find? fun zone => strequal check (bytes zone.1) with
  | some zone => zone.2 * 60
  | none => -1

/-! ### Times -/

/-- `oneortwodigit` of a text that begins with a digit: the number and what is behind it. -/
def oneortwodigit : Bytes → Nat × Bytes
  | [] => (0, [])
  | c :: date =>
    match date with
    | d :: rest =>
      if isDigit d then ((c.toNat - 48) * 10 + (d.toNat - 48), rest) else (c.toNat - 48, date)
    | [] => (c.toNat - 48, [])

/-- What is behind a colon, if a digit follows it. -/
def behindColon : Bytes → Option Bytes
  | c :: d :: rest => if c = byte ':' ∧ isDigit d then some (d :: rest) else none
  | _ => none

/-- `match_time`: the hour, the minute and the second, and what is behind the time. -/
def matchTime (date : Bytes) : Option (Nat × Nat × Nat × Bytes) :=
  let (hh, p) := oneortwodigit date
  match if hh < 24 then behindColon p else none with
  | none => none
  | some p =>
    let (mm, p) := oneortwodigit p
    if mm < 60 then
      match behindColon p with
      | some p =>
        let (ss, p) := oneortwodigit p
        if ss ≤ 60 then some (hh, mm, ss, p) else none
      | none => some (hh, mm, 0, p)
    else none

/-- `time2epoch`, of a year behind 1582. -/
def time2epoch (sec min hour mday mon year : Int) : Int :=
  let monthDaysCumulative : Int :=
    [0, 31, 59, 90, 120, 151, 181, 212, 243, 273, 304, 334].getD mon.toNat 0
  let leapDays := year - if mon ≤ 1 then 1 else 0
  let leapDays := leapDays / 4 - leapDays / 100 + leapDays / 400 - 1969 / 4 + 1969 / 100 - 1969 / 400
  ((((year - 1970) * 365 + leapDays + monthDaysCumulative + mday - 1) * 24 + hour) * 60 + min) * 60 + sec

/-! ### The parts of a date -/

/-- `enum assume`. -/
inductive Assume where
  | mday | year
  deriving DecidableEq

/-- The locals of `parsedate`; -1 is a value that is missing. -/
structure DateState where
  wdaynum : Int := -1
  monnum : Int := -1
  mdaynum : Int := -1
  hournum : Int := -1
  minnum : Int := -1
  secnum : Int := -1
  yearnum : Int := -1
  tzoff : Int := -1
  dignext : Assume := .mday
  deriving DecidableEq

/-- A name that is coming up; `none` is `PARSEDATE_FAIL`. -/
def namePart (st : DateState) (name : Bytes) : Option DateState :=
  -- no name is as long as this
  if name.length = 12 then none
  else if st.wdaynum = -1 ∧ checkday name ≠ -1 then some { st with wdaynum := checkday name }
  else if st.monnum = -1 ∧ checkmonth name ≠ -1 then some { st with monnum := checkmonth name }
  else if st.tzoff = -1 ∧ checktz name ≠ -1 then some { st with tzoff := checktz name }
  else none

/-- The number as a day or a year; `none` is `PARSEDATE_FAIL`. -/
def dayOrYear (st : DateState) (val : Nat) : Option DateState :=
  if st.dignext = .mday ∧ st.mdaynum = -1 ∧ 0 < val ∧ val < 32 then
    some { st with mdaynum := val, dignext := .year }
  else
    let dignext := if st.dignext = .mday ∧ st.mdaynum = -1 then Assume.year else st.dignext
    if dignext = .year ∧ st.yearnum = -1 then
      let yearnum := if val < 100 then if 70 < val then val + 1900 else val + 2000 else val
      some { st with yearnum := yearnum, dignext := if st.mdaynum = -1 then .mday else dignext }
    else none

/-- A number that is no time, with the byte in front of it and the count of its digits; `none` is
`PARSEDATE_FAIL`. -/
def numberPart (st : DateState) (before : Option UInt8) (val numDigits : Nat) : Option DateState :=
  if st.tzoff = -1 ∧ numDigits = 4 ∧ val ≤ 1400 ∧ (before = some (byte '+') ∨ before = some (byte '-'))
  then
    let tzoff : Int := (val / 100 * 60 + val % 100) * 60
    some { st with tzoff := if before = some (byte '+') then -tzoff else tzoff }
  else if numDigits = 8 ∧ st.yearnum = -1 ∧ st.monnum = -1 ∧ st.mdaynum = -1 then
    some { st with
      yearnum := val / 10000, monnum := (val % 10000 / 100 : Nat) - 1, mdaynum := val % 100 }
  else dayOrYear st val

/-- One round of the loop of `parsedate`: the state, and the rest of the date. -/
def datePart (st : DateState) (date : Bytes) : Option (DateState × Bytes) :=
  let skipped := date.takeWhile fun c => !isAlnum c
  let date := date.drop skipped.length
  match date with
  | [] => some (st, [])
  | c :: _ =>
    if isAlpha c then
      let name := (date.takeWhile isAlpha).take 12
      (namePart st name).map fun st => (st, date.drop name.length)
    else
      match if st.secnum = -1 then matchTime date else none with
      | some (hh, mm, ss, rest) => some ({ st with hournum := hh, minnum := mm, secnum := ss }, rest)
      | none =>
        match strNumBase 10 99999999 date with
        | none => none
        | some (val, rest) =>
          -- a sign in front of a number has been skipped, for no part ends with one
          (numberPart st skipped.getLast? val (date.length - rest.length)).map fun st => (st, rest)

/-- The loop of `parsedate`, for so many parts. -/
def dateParts : Nat → DateState → Bytes → Option DateState
  | 0, st, _ => some st
  | _ + 1, st, [] => some st
  | n + 1, st, date =>
    match datePart st date with
    | none => none
    | some (st, date) => dateParts n st date

/-- `TIME_T_MAX`. -/
def timeTMax : Int := 9223372036854775807

/-- The end of `parsedate`; `none` is any result but `PARSEDATE_OK`. -/
def epochOf (st : DateState) : Option Int :=
  let st := if st.secnum = -1 then { st with hournum := 0, minnum := 0, secnum := 0 } else st
  if st.mdaynum = -1 ∨ st.monnum = -1 ∨ st.yearnum = -1 then none
  else if st.yearnum < 1583 then none
  else if 31 < st.mdaynum ∨ 11 < st.monnum ∨ 23 < st.hournum ∨ 59 < st.minnum ∨ 60 < st.secnum then none
  else
    let t := time2epoch st.secnum st.minnum st.hournum st.mdaynum st.monnum st.yearnum
    let tzoff := if st.tzoff = -1 then 0 else st.tzoff
    if 0 < tzoff ∧ timeTMax - tzoff < t then none else some (t + tzoff)

def parsedate (date : Bytes) : Option Int := (dateParts 6 {} date).bind epochOf

/-- `curl_getdate`, which gives -1 for a date it cannot read. -/
def curlGetdate (p : Bytes) : Int :=
  match parsedate p with
  | none => -1
  | some parsed => if parsed = -1 then 0 else parsed

/-! ### What one round takes -/

/-- Bytes that stand between the parts. -/
def Skipped (sep : Bytes) : Prop := ∀ c ∈ sep, isAlnum c = false

/-- What ends a name: no letter. -/
def NameEnds (rest : Bytes) : Prop := ∀ c ∈ rest.head?, isAlpha c = false

theorem isAlnum_of_isAlpha {c : UInt8} (h : isAlpha c = true) : isAlnum c = true := by
  rw [isAlpha, Bool.or_eq_true] at h
  obtain h | h := h
  · rw [isAlnum, h, Bool.or_true, Bool.true_or]
  · rw [isAlnum, h, Bool.or_true]

theorem takeWhile_name {name rest : Bytes} (hname : ∀ c ∈ name, isAlpha c = true)
    (hrest : NameEnds rest) : (name ++ rest).takeWhile isAlpha = name := by
  rw [List.takeWhile_append_of_pos hname]
  cases rest with
  | nil => exact List.append_nil name
  | cons c rest =>
    rw [List.takeWhile_cons_of_neg (by rw [hrest c rfl]; decide), List.append_nil]

section

variable {sep : Bytes} (hsep : Skipped sep) {c : UInt8} (hc : isAlnum c = true) (s : Bytes)
include hsep hc

theorem takeWhile_skipped : ((sep ++ c :: s).takeWhile fun c => !isAlnum c) = sep := by
  rw [List.takeWhile_append_of_pos (fun a ha => by rw [hsep a ha]; rfl),
    List.takeWhile_cons_of_neg (by rw [hc]; decide), List.append_nil]

end

/-- **A name** is taken up to what ends it. -/
theorem datePart_name {st st' : DateState} {sep name rest : Bytes} (hsep : Skipped sep)
    (hname : ∀ c ∈ name, isAlpha c = true) (hne : name ≠ []) (hlen : name.length ≤ 12)
    (hrest : NameEnds rest) (h : namePart st name = some st') :
    datePart st (sep ++ (name ++ rest)) = some (st', rest) := by
  have htake := takeWhile_name hname hrest
  obtain ⟨c, t, rfl⟩ := List.exists_cons_of_ne_nil hne
  have hc : isAlpha c = true := hname c List.mem_cons_self
  rw [List.cons_append] at htake ⊢
  rw [datePart, takeWhile_skipped hsep (isAlnum_of_isAlpha hc), List.drop_left]
  dsimp only
  rw [if_pos hc, htake, List.take_of_length_le hlen, h, ← List.cons_append, List.drop_left]
  rfl

theorem isAlnum_digit : ∀ d < 10, isAlnum (UInt8.ofNat (d + 48)) = true ∧
    isAlpha (UInt8.ofNat (d + 48)) = false := by decide

/-- **A number** that is no time is taken up to what ends it. -/
theorem datePart_number {st st' : DateState} {sep rest : Bytes} {ds : List Nat} (hsep : Skipped sep)
    (hds : ∀ d ∈ ds, d < 10) (hne : ds ≠ []) (hrest : NumberEnds rest)
    (hval : ofDigitsFrom 0 ds ≤ 99999999) (htime : matchTime (digitBytes ds ++ rest) = none)
    (h : numberPart st sep.getLast? (ofDigitsFrom 0 ds) ds.length = some st') :
    datePart st (sep ++ (digitBytes ds ++ rest)) = some (st', rest) := by
  have hread := strNumBase_digits (by decide : 10 ≤ 99999999) hds hrest hne
  have hlen : (digitBytes ds ++ rest).length - rest.length = ds.length := by
    rw [List.length_append, digitBytes, List.length_map, Nat.add_sub_cancel]
  obtain ⟨d, t, rfl⟩ := List.exists_cons_of_ne_nil hne
  obtain ⟨hc, halpha⟩ := isAlnum_digit d (hds d List.mem_cons_self)
  rw [if_pos hval] at hread
  rw [digitBytes_cons, List.cons_append] at hread htime hlen ⊢
  rw [datePart, takeWhile_skipped hsep hc, List.drop_left]
  dsimp only
  rw [halpha, htime, ite_self, hread]
  dsimp only
  rw [hlen, h]
  rfl

/-! ### Times -/

/-- A number of two digits. -/
def twoDigits (n : Nat) : Bytes := digitBytes [n / 10, n % 10]

theorem twoDigits_eq : ∀ n < 100, isDigit (UInt8.ofNat (n % 10 + 48)) = true ∧
    isDigit (UInt8.ofNat (n / 10 + 48)) = true ∧
    ((UInt8.ofNat (n / 10 + 48)).toNat - 48) * 10 + ((UInt8.ofNat (n % 10 + 48)).toNat - 48) = n := by
  decide

theorem oneortwodigit_twoDigits {n : Nat} (hn : n < 100) (rest : Bytes) :
    oneortwodigit (twoDigits n ++ rest) = (n, rest) := by
  obtain ⟨hdigit, -, hval⟩ := twoDigits_eq n hn
  show (if isDigit (UInt8.ofNat (n % 10 + 48)) then _ else _) = _
  rw [if_pos hdigit, hval]
  rfl

theorem behindColon_twoDigits {n : Nat} (hn : n < 100) (rest : Bytes) :
    behindColon (byte ':' :: (twoDigits n ++ rest)) = some (twoDigits n ++ rest) := by
  obtain ⟨-, hdigit, -⟩ := twoDigits_eq n hn
  show (if byte ':' = byte ':' ∧ isDigit (UInt8.ofNat (n / 10 + 48)) = true then _ else _) = _
  rw [if_pos ⟨rfl, hdigit⟩]
  rfl

theorem behindColon_eq_none {rest : Bytes} (h : rest.head? ≠ some (byte ':')) :
    behindColon rest = none := by
  cases rest with
  | nil => rfl
  | cons c rest =>
    cases rest with
    | nil => rfl
    | cons d rest => exact if_neg fun hc => h (congrArg some hc.1)

/-- `HH:MM:SS` is a time. -/
theorem matchTime_colons {h m s : Nat} (hh : h < 24) (hm : m < 60) (hs : s ≤ 60) (rest : Bytes) :
    matchTime (twoDigits h ++ byte ':' :: (twoDigits m ++ byte ':' :: (twoDigits s ++ rest))) =
      some (h, m, s, rest) := by
  rw [matchTime, oneortwodigit_twoDigits (by omega)]
  dsimp only
  rw [if_pos hh, behindColon_twoDigits (by omega)]
  dsimp only
  rw [oneortwodigit_twoDigits (by omega)]
  dsimp only
  rw [if_pos hm, behindColon_twoDigits (by omega)]
  dsimp only
  rw [oneortwodigit_twoDigits (by omega)]
  exact if_pos hs

/-- Two digits without a colon are no time. -/
theorem matchTime_eq_none {n : Nat} (hn : n < 100) {rest : Bytes} (h : rest.head? ≠ some (byte ':')) :
    matchTime (twoDigits n ++ rest) = none := by
  rw [matchTime, oneortwodigit_twoDigits hn]
  dsimp only
  rw [behindColon_eq_none h, ite_self]

/-- **A time** is taken as the time of the date. -/
theorem datePart_time {st : DateState} {sep rest : Bytes} (hsep : Skipped sep) {h m s : Nat}
    (hh : h < 24) (hm : m < 60) (hs : s ≤ 60) (hst : st.secnum = -1) :
    datePart st (sep ++ (twoDigits h ++ byte ':' ::
        (twoDigits m ++ byte ':' :: (twoDigits s ++ rest)))) =
      some ({ st with hournum := h, minnum := m, secnum := s }, rest) := by
  have htime := matchTime_colons hh hm hs rest
  obtain ⟨hc, halpha⟩ := isAlnum_digit (h / 10) (by omega)
  rw [twoDigits, digitBytes_cons, List.cons_append] at htime ⊢
  rw [datePart, takeWhile_skipped hsep hc, List.drop_left]
  dsimp only
  rw [halpha, if_pos hst, htime]
  rfl

/-! ### The fixed form of a date -/

theorem dateParts_succ {st st' : DateState} {date rest : Bytes} (n : Nat)
    (h : datePart st date = some (st', rest)) : dateParts (n + 1) st date = dateParts n st' rest := by
  cases date with
  | nil =>
    cases h
    cases n <;> rfl
  | cons c date =>
    rw [dateParts, h]
    exact List.cons_ne_nil c date

/-- A number of four digits. -/
def fourDigits (n : Nat) : Bytes := digitBytes [n / 1000, n / 100 % 10, n / 10 % 10, n % 10]

/-- `Www, DD Mon YYYY HH:MM:SS GMT`. -/
def fixdate (weekday month : String) (day year hour minute second : Nat) : Bytes :=
  bytes weekday ++ (bytes ", " ++ (twoDigits day ++ (bytes " " ++ (bytes month ++ (bytes " " ++
    (fourDigits year ++ (bytes " " ++ (twoDigits hour ++ byte ':' :: (twoDigits minute ++ byte ':' ::
      (twoDigits second ++ (bytes " " ++ bytes "GMT")))))))))))

/-- A name of three letters. -/
def isName (name : Bytes) : Bool := name.all isAlpha && name.length == 3

theorem isName_wkday : ∀ i < 7, isName (bytes (wkday.getD i "")) = true ∧
    checkday (bytes (wkday.getD i "")) = i := by decide

theorem isName_month : ∀ i < 12, isName (bytes (month.getD i "")) = true ∧
    checkmonth (bytes (month.getD i "")) = i := by decide

theorem length_of_isName {name : Bytes} (h : isName name = true) : name.length = 3 := by
  rw [isName, Bool.and_eq_true] at h
  exact beq_iff_eq.mp h.2

/-- A name of three letters is taken as a part. -/
theorem datePart_isName {st st' : DateState} {sep name rest : Bytes} (hsep : Skipped sep)
    (hname : isName name = true) (hrest : NameEnds rest)
    (h : name.length ≠ 12 → namePart st name = some st') :
    datePart st (sep ++ (name ++ rest)) = some (st', rest) := by
  have hlen := length_of_isName hname
  rw [isName, Bool.and_eq_true] at hname
  refine datePart_name hsep (List.all_eq_true.mp hname.1) ?_ (by omega) hrest (h (by omega))
  rintro rfl
  cases hlen

theorem skipped_of_all {sep : Bytes} (h : sep.all (fun c => !isAlnum c) = true) : Skipped sep :=
  fun c hc => by simpa using List.all_eq_true.mp h c hc

theorem weekday_part {w : Nat} (hw : w < 7) {rest : Bytes} (hrest : NameEnds rest) :
    datePart {} (bytes (wkday.getD w "") ++ rest) = some ({ wdaynum := w }, rest) := by
  obtain ⟨hname, hday⟩ := isName_wkday w hw
  apply datePart_isName (skipped_of_all (rfl : ([] : Bytes).all _ = true)) hname hrest
  intro hlen
  rw [namePart, if_neg hlen, if_pos ⟨rfl, by omega⟩, hday]

theorem month_part {st : DateState} {m : Nat} (hm : m < 12) (hday : st.wdaynum ≠ -1)
    (hst : st.monnum = -1) {rest : Bytes} (hrest : NameEnds rest) :
    datePart st (bytes " " ++ (bytes (month.getD m "") ++ rest)) =
      some ({ st with monnum := m }, rest) := by
  obtain ⟨hname, hmonth⟩ := isName_month m hm
  apply datePart_isName (skipped_of_all rfl) hname hrest
  intro hlen
  rw [namePart, if_neg hlen, if_neg (fun h => hday h.1), if_pos ⟨hst, by omega⟩, hmonth]

theorem zone_part {st : DateState} (hday : st.wdaynum ≠ -1) (hmonth : st.monnum ≠ -1)
    (hst : st.tzoff = -1) :
    datePart st (bytes " " ++ bytes "GMT") = some ({ st with tzoff := 0 }, []) := by
  have hpart : (bytes "GMT").length ≠ 12 → namePart st (bytes "GMT") = some { st with tzoff := 0 } := by
    intro hlen
    have hzone : checktz (bytes "GMT") = 0 := by decide
    rw [namePart, if_neg hlen, if_neg (fun h => hday h.1), if_neg (fun h => hmonth h.1),
      if_pos ⟨hst, by rw [hzone]; decide⟩, hzone]
  have hnil : NameEnds [] := fun c hc => by cases hc
  have htaken := datePart_isName (skipped_of_all (rfl : (bytes " ").all _ = true)) (by decide) hnil hpart
  rwa [List.append_nil] at htaken

theorem nameEnds_space (s : Bytes) : NameEnds (bytes " " ++ s) := by
  intro d hd
  cases hd
  decide

theorem nameEnds_comma (s : Bytes) : NameEnds (bytes ", " ++ s) := by
  intro d hd
  cases hd
  decide

theorem numberEnds_space (s : Bytes) : NumberEnds (bytes " " ++ s) := by
  intro d hd
  cases hd
  decide

theorem two_digits_lt {n : Nat} (hn : n < 100) : ∀ d ∈ [n / 10, n % 10], d < 10 := by
  simp only [List.mem_cons, List.not_mem_nil, or_false]
  omega

theorem four_digits_lt {n : Nat} (hn : n < 10000) :
    ∀ d ∈ [n / 1000, n / 100 % 10, n / 10 % 10, n % 10], d < 10 := by
  simp only [List.mem_cons, List.not_mem_nil, or_false]
  omega

theorem ofDigitsFrom_two (n : Nat) : ofDigitsFrom 0 [n / 10, n % 10] = n := by
  show (0 * 10 + n / 10) * 10 + n % 10 = n
  omega

theorem ofDigitsFrom_four {n : Nat} :
    ofDigitsFrom 0 [n / 1000, n / 100 % 10, n / 10 % 10, n % 10] = n := by
  show (((0 * 10 + n / 1000) * 10 + n / 100 % 10) * 10 + n / 10 % 10) * 10 + n % 10 = n
  omega

theorem day_part {st : DateState} {day : Nat} (hday : 1 ≤ day) (hday' : day ≤ 31)
    (hnext : st.dignext = .mday) (hst : st.mdaynum = -1) {rest : Bytes} (hrest : NumberEnds rest)
    (hcolon : rest.head? ≠ some (byte ':')) :
    datePart st (bytes ", " ++ (twoDigits day ++ rest)) =
      some ({ st with mdaynum := day, dignext := .year }, rest) := by
  refine datePart_number (skipped_of_all rfl) (two_digits_lt (by omega)) (List.cons_ne_nil _ _) hrest
    ?_ (matchTime_eq_none (by omega) hcolon) ?_
  · rw [ofDigitsFrom_two]
    omega
  · rw [ofDigitsFrom_two, numberPart, if_neg (fun h => absurd h.2.1 (show ¬ 2 = 4 by decide)),
      if_neg (fun h => absurd h.1 (show ¬ 2 = 8 by decide)), dayOrYear, if_pos ⟨hnext, hst, by omega, by omega⟩]

theorem year_part {st : DateState} {year : Nat} (hyear : 1583 ≤ year) (hyear' : year ≤ 9999)
    (hnext : st.dignext = .year) (hday : st.mdaynum ≠ -1) (hst : st.yearnum = -1) {rest : Bytes}
    (hrest : NumberEnds rest) :
    datePart st (bytes " " ++ (fourDigits year ++ rest)) = some ({ st with yearnum := year }, rest) := by
  have htime : matchTime (fourDigits year ++ rest) = none := by
    have hall : ∀ d < 10, UInt8.ofNat (d + 48) ≠ byte ':' := by decide
    have hsplit : fourDigits year ++ rest =
        twoDigits (year / 100) ++ (digitBytes [year / 10 % 10, year % 10] ++ rest) := by
      have hhigh : year / 100 / 10 = year / 1000 := by omega
      rw [twoDigits, hhigh]
      rfl
    rw [hsplit]
    apply matchTime_eq_none (by omega)
    intro hcolon
    exact hall (year / 10 % 10) (by omega) (Option.some.inj hcolon)
  refine datePart_number (skipped_of_all rfl) (four_digits_lt (by omega)) (List.cons_ne_nil _ _)
    hrest ?_ htime ?_
  · rw [ofDigitsFrom_four]
    omega
  · have hnot : ¬ (st.dignext = .mday ∧ st.mdaynum = -1) := fun h => hday h.2
    rw [ofDigitsFrom_four, numberPart, if_neg (fun h => by omega),
      if_neg (fun h => absurd h.1 (show ¬ 4 = 8 by decide)), dayOrYear,
      if_neg (fun h => hday h.2.1)]
    dsimp only
    rw [if_neg hnot, if_pos ⟨hnext, hst⟩, if_neg (by omega), if_neg hday]

section

variable {w m day year hour minute second : Nat} (hw : w < 7) (hm : m < 12) (hday : 1 ≤ day)
  (hday' : day ≤ 31) (hyear : 1583 ≤ year) (hyear' : year ≤ 9999) (hhour : hour < 24)
  (hminute : minute < 60) (hsecond : second < 60)
include hw hm hday hday' hyear hyear' hhour hminute hsecond

/-- **The parts of a date in the fixed form.** -/
theorem dateParts_fixdate :
    dateParts 6 {} (fixdate (wkday.getD w "") (month.getD m "") day year hour minute second) =
      some {
        wdaynum := w
        mdaynum := day
        dignext := .year
        monnum := m
        yearnum := year
        hournum := hour
        minnum := minute
        secnum := second
        tzoff := 0 } := by
  have hweekday : (w : Int) ≠ -1 := by omega
  have hmonth : (m : Int) ≠ -1 := by omega
  have hmday : (day : Int) ≠ -1 := by omega
  rw [fixdate, dateParts_succ 5 (weekday_part hw (nameEnds_comma _)),
    dateParts_succ 4 (day_part hday hday' rfl rfl (numberEnds_space _) nofun),
    dateParts_succ 3 (month_part hm hweekday rfl (nameEnds_space _)),
    dateParts_succ 2 (year_part hyear hyear' rfl hmday rfl (numberEnds_space _)),
    dateParts_succ 1 (datePart_time (skipped_of_all rfl) hhour hminute (by omega) rfl),
    dateParts_succ 0 (zone_part hweekday hmonth rfl)]
  rfl

/-- **A date in the fixed form is read** as the second it stands for. -/
theorem parsedate_fixdate :
    parsedate (fixdate (wkday.getD w "") (month.getD m "") day year hour minute second) =
      some (time2epoch second minute hour day m year) := by
  rw [parsedate, dateParts_fixdate hw hm hday hday' hyear hyear' hhour hminute hsecond,
    Option.bind_some]
  have hsec : ¬ (second : Int) = -1 := by omega
  have hvital : ¬ ((day : Int) = -1 ∨ (m : Int) = -1 ∨ (year : Int) = -1) := by omega
  have hcalendar : ¬ (year : Int) < 1583 := by omega
  have hlegal : ¬ (31 < (day : Int) ∨ 11 < (m : Int) ∨ 23 < (hour : Int) ∨ 59 < (minute : Int) ∨
      60 < (second : Int)) := by omega
  rw [epochOf, if_neg hsec]
  dsimp only
  rw [if_neg hvital, if_neg hcalendar, if_neg hlegal]
  show some (_ + 0) = _
  rw [Int.add_zero]

end

end NetMod.ParseDate
