import NetMod.CookieStoreRuns

/-!
# When a stored cookie expires, and the two tests that decide it

`TCachedCookie.IsExpired` ends a cookie in two ways: its `Max-Age` has run out since the creation
second, or its `Expires` date is reached.  `isExpired_iff` gives the two as `AgeReached` and
`DateReached`; the 64-bit sum of the first cannot wrap, since a clock second is far below `2 ^ 63`.

The attribute table says that `Max-Age` takes precedence.  The code only lets it take effect first:
while the age is not reached the date still counts, so the rule `ExpiryRule` fails in the seconds
between an earlier date and the age, and in no other (`expiryRule_iff`).

`THttpCookie.IsExpired` asks the same of the cookie alone.  It takes a cookie without a date for an
expired one and lets the date second itself pass, where the entry made for the cookie does neither.
The two tests agree, and the store then never takes or hands out a cookie that reports itself
expired, exactly under the condition of `tests_agree_iff`.
-/

namespace NetMod.CookieStore

open NetMod.BlitzText NetMod.HttpCookie

/-! ### `Long` values -/

theorem toLong_lt (s : Text) : toLong s < 2 ^ 63 := by
  have hbound := fun n : Int => Int.bmod_lt (x := n) (m := 2 ^ 64) (by decide)
  exact lt_of_lt_of_le (hbound _) (by decide)

theorem getMaxAge_lt (P : Platform) (c : THttpCookie) : c.getMaxAge P < 2 ^ 63 := by
  rw [THttpCookie.getMaxAge]
  split
  · exact toLong_lt _
  · decide

/-- A clock second leaves room for any `Long` age. -/
theorem clockSecs_add_lt (now : UInt64) {m : Nat} (hm : m < 2 ^ 63) :
    clockSecs now + m < 2 ^ 64 := by
  have hnow := now.toNat_lt
  simp only [clockSecs]
  omega

/-- libcurl's date parser returns a `Long`. -/
def LongDates (P : Platform) : Prop := ∀ s, -2 ^ 63 ≤ P.getdate s ∧ P.getdate s < 2 ^ 63

theorem getExpires_bounds {P : Platform} (hP : LongDates P) (c : THttpCookie) :
    -2 ^ 63 ≤ c.getExpires P ∧ c.getExpires P < 2 ^ 63 := by
  rw [THttpCookie.getExpires]
  split
  · decide
  · rw [parseExpires]
    split
    · decide
    · exact hP _

/-! ### The two ways to expire -/

section

variable (P : Platform) (t₀ now : UInt64) (cookie : THttpCookie)

/-- `Max-Age` is set and has run out since the second of `t₀`. -/
def AgeReached : Prop :=
  0 ≤ cookie.getMaxAge P ∧ clockSecs t₀ + cookie.getMaxAge P ≤ clockSecs now

/-- `Expires` is a date and has come. -/
def DateReached : Prop := 0 < cookie.getExpires P ∧ cookie.getExpires P ≤ clockSecs now

/-- The rule of the attribute table: `Max-Age` alone decides where it is set. -/
def ExpiryRule : Prop :=
  if 0 ≤ cookie.getMaxAge P then clockSecs t₀ + cookie.getMaxAge P ≤ clockSecs now
  else DateReached P now cookie

/-- **An entry expires by age or by date**, whichever comes first. -/
theorem isExpired_iff (url : TUrl) (domain path : Text) :
    (TCachedCookie.new t₀ cookie url domain path).isExpired P now = true ↔
      AgeReached P t₀ now cookie ∨ DateReached P now cookie := by
  show (if 0 ≤ cookie.getMaxAge P ∧
      (clockSecs t₀ + (cookie.getMaxAge P).toNat) % 2 ^ 64 ≤ clockSecs now then true
    else decide (0 < cookie.getExpires P ∧ cookie.getExpires P ≤ clockSecs now)) = true ↔ _
  have hlong := getMaxAge_lt P cookie
  have hroom := clockSecs_add_lt t₀ (m := (cookie.getMaxAge P).toNat) (by omega)
  have hage : (0 ≤ cookie.getMaxAge P ∧
      (clockSecs t₀ + (cookie.getMaxAge P).toNat) % 2 ^ 64 ≤ clockSecs now) ↔
        AgeReached P t₀ now cookie := by
    rw [Nat.mod_eq_of_lt hroom, AgeReached]
    omega
  split
  · rename_i h
    exact iff_of_true rfl (Or.inl (hage.mp h))
  · rename_i h
    rw [decide_eq_true_eq]
    exact (or_iff_right (mt hage.mpr h)).symm

/-- **The expiry rule, exactly.**  A stored cookie follows the attribute table but in the seconds
where its date is reached and its age is not.  Its expiry is monotone in the clock, and no `Long` age
wraps the sum. -/
theorem expiryRule_iff (url : TUrl) (domain path : Text) :
    (((TCachedCookie.new t₀ cookie url domain path).isExpired P now = true ↔
        ExpiryRule P t₀ now cookie) ↔
      ¬ (0 ≤ cookie.getMaxAge P ∧ clockSecs now < clockSecs t₀ + cookie.getMaxAge P ∧
        0 < cookie.getExpires P ∧ cookie.getExpires P ≤ clockSecs now)) ∧
    (∀ later, now ≤ later →
      (TCachedCookie.new t₀ cookie url domain path).isExpired P now = true →
      (TCachedCookie.new t₀ cookie url domain path).isExpired P later = true) ∧
    ∀ m : Nat, m < 2 ^ 63 → clockSecs t₀ + m < 2 ^ 64 := by
  refine ⟨?_, fun later hle => TCachedCookie.isExpired_mono P hle,
    fun m hm => clockSecs_add_lt t₀ hm⟩
  rw [isExpired_iff, ExpiryRule]
  by_cases hage : 0 ≤ cookie.getMaxAge P
  · rw [if_pos hage, AgeReached, DateReached]
    omega
  · rw [if_neg hage, AgeReached]
    have hnot : ¬ (0 ≤ cookie.getMaxAge P ∧
        clockSecs t₀ + cookie.getMaxAge P ≤ clockSecs now) := fun h => hage h.1
    rw [or_iff_right hnot]
    exact iff_of_true Iff.rfl fun h => hage h.1

end

/-- A platform whose date parser knows the hundredth second of the epoch. -/
def datedPlatform : Platform :=
  { asciiPlatform with
    getdate := fun s => if s = lit "Thu, 01 Jan 1970 00:01:40 GMT" then 100 else -1 }

/-- An hour of `Max-Age`, and a date for clients that know none. -/
def datedCookie : THttpCookie :=
  { name := lit "sid", value := lit "1",
    attributes := [(lit "MaxAge", lit "3600"), (lit "Expires", lit "Thu, 01 Jan 1970 00:01:40 GMT")] }

/-- A cookie stored in second 50 with an hour of `Max-Age` is gone in second 100. -/
theorem not_always_expiryRule :
    ¬ ∀ (P : Platform) (t₀ now : UInt64) (url : TUrl) (cookie : THttpCookie),
      Holds P (runStore P [(t₀, .add url cookie)]) (entryOf P t₀ url cookie) → t₀ ≤ now →
        ((entryOf P t₀ url cookie).isExpired P now = true ↔ ExpiryRule P t₀ now cookie) := by
  intro hall
  have hrule := (hall datedPlatform 50000 100000
    ⟨lit "https", lit "www.example.com", lit "/", lit "https://www.example.com/"⟩ datedCookie
    (by rw [Holds]; decide +kernel) (by decide +kernel)).mp (by decide +kernel)
  rw [ExpiryRule, if_pos (by decide +kernel)] at hrule
  exact absurd hrule (by decide +kernel)

/-! ### The cookie's own test -/

/-- What `All` returns: the unexpired cookies of all lists. -/
theorem mem_all {P : Platform} {now : UInt64} {s : THttpCookieStore} {c : THttpCookie}
    (hc : c ∈ all P now s) :
    ∃ k, ∃ e ∈ listAt s.cookies k, e.isExpired P now = false ∧ e.cookie = c := by
  obtain ⟨entry, hentry, hc⟩ := List.mem_flatMap.mp hc
  obtain ⟨e, he, rfl⟩ := List.mem_map.mp hc
  obtain ⟨he, hfresh⟩ := List.mem_filter.mp he
  refine ⟨entry.1, e, ?_, by simpa using hfresh, rfl⟩
  rw [listAt_of_lookup (AList.mem_lookup_iff.mpr hentry)]
  exact he

section

variable {P : Platform} {now : UInt64} {c : THttpCookie}

/-- Where no list holds an unexpired entry for the cookie, `Match` and `All` do not return it. -/
theorem not_returned {s : THttpCookieStore}
    (hgone : ∀ k, ∀ e ∈ listAt s.cookies k, e.cookie = c → e.isExpired P now = true) :
    (∀ url, c ∉ (matchUrl P now s url).2) ∧ c ∉ all P now s := by
  constructor
  · intro url hc
    obtain ⟨-, k, -, e, he, hmatch, hcookie⟩ := mem_matchUrl_result.mp hc
    exact absurd (hgone k e he hcookie) (by rw [hmatch.1]; decide)
  · intro hc
    obtain ⟨k, e, he, hfresh, hcookie⟩ := mem_all hc
    exact absurd (hgone k e he hcookie) (by rw [hfresh]; decide)

/-- A fresh entry has run out of age only by `Max-Age=0`. -/
theorem ageReached_fresh : AgeReached P now now c ↔ c.getMaxAge P = 0 := by
  rw [AgeReached]
  omega

/-- **The cookie's test**, in terms of age and date. -/
theorem cookie_isExpired_iff (hP : LongDates P) :
    c.isExpired P now = true ↔
      c.getMaxAge P = 0 ∨ c.getExpires P = 0 ∨
        (0 < c.getExpires P ∧ c.getExpires P < clockSecs now) := by
  obtain ⟨hlow, hhigh⟩ := getExpires_bounds hP c
  have hnow := now.toNat_lt
  rw [THttpCookie.isExpired]
  by_cases hm : c.getMaxAge P = 0
  · simp [hm]
  · by_cases hx : c.getExpires P = 0
    · simp [hm, hx]
    · show (if c.getMaxAge P = 0 then true else if c.getExpires P = 0 then true
        else decide ((c.getExpires P % 2 ^ 64).toNat < clockSecs now)) = true ↔ _
      rw [if_neg hm, if_neg hx, decide_eq_true_eq, or_iff_right hm, or_iff_right hx, clockSecs]
      omega

/-- The two tests agree on `c` in the second of `now`, and no store takes or returns the cookie in
that second if it reports itself expired. -/
def TestsAgree (P : Platform) (now : UInt64) (c : THttpCookie) : Prop :=
  (∀ url domain path,
    c.isExpired P now = (TCachedCookie.new now c url domain path).isExpired P now) ∧
  (c.isExpired P now = true → ∀ h : History,
    (∀ url, (add P now (runStore P h) url c).2 = false) ∧
      (∀ url, c ∉ (matchUrl P now (runStore P h) url).2) ∧ c ∉ all P now (runStore P h))

/-- A cookie with `Max-Age=0`, or whose date has come, is expired wherever it is stored. -/
theorem expired_wherever_stored (hend : c.getMaxAge P = 0 ∨ DateReached P now c) {h : History}
    {k : Text} {e : TCachedCookie} (he : e ∈ listAt (runStore P h).cookies k) (hc : e.cookie = c) :
    e.isExpired P now = true := by
  obtain ⟨t, url, -, horigin, hfresh⟩ := stored_origin he
  rw [hc] at horigin
  rw [horigin] at hfresh ⊢
  rcases hend with hage | hdate
  · have hborn : (entryOf P t url c).isExpired P t = true :=
      (isExpired_iff P t t c url _ _).mpr (Or.inl (ageReached_fresh.mpr hage))
    rw [hfresh] at hborn
    exact absurd hborn (by decide)
  · exact (isExpired_iff P t now c url _ _).mpr (Or.inr hdate)

/-- **The two expiry tests, exactly.**  They agree, and the store respects the cookie's own test,
iff `Max-Age` is 0, or there is a date and it is not the present second. -/
theorem tests_agree_iff (P : Platform) (hP : LongDates P) (now : UInt64) (c : THttpCookie) :
    TestsAgree P now c ↔
      c.getMaxAge P = 0 ∨ (c.getExpires P ≠ 0 ∧ c.getExpires P ≠ clockSecs now) := by
  have hcookie : c.isExpired P now = true ↔ c.getMaxAge P = 0 ∨ c.getExpires P = 0 ∨
      (0 < c.getExpires P ∧ c.getExpires P < clockSecs now) := cookie_isExpired_iff hP
  have hentry : ∀ url domain path,
      (TCachedCookie.new now c url domain path).isExpired P now = true ↔
        c.getMaxAge P = 0 ∨ DateReached P now c := by
    intro url domain path
    rw [isExpired_iff, ageReached_fresh]
  have hsame : (c.isExpired P now = true ↔ c.getMaxAge P = 0 ∨ DateReached P now c) ↔
      c.getMaxAge P = 0 ∨ (c.getExpires P ≠ 0 ∧ c.getExpires P ≠ clockSecs now) := by
    rw [hcookie, DateReached]
    omega
  rw [← hsame]
  constructor
  · intro hagree
    rw [hagree.1 ⟨[], [], [], []⟩ [] []]
    exact hentry _ _ _
  · intro hends
    refine ⟨fun url domain path => ?_, fun hexpired h => ⟨fun url => ?_, ?_⟩⟩
    · rw [Bool.eq_iff_iff, hends, hentry]
    · rw [Bool.eq_false_iff, ne_eq, add_accepts_iff]
      intro haccepted
      have hfresh := haccepted.2
      rw [entryOf, Bool.eq_false_iff, ne_eq, hentry] at hfresh
      exact hfresh (hends.mp hexpired)
    · exact not_returned fun k e he hc => expired_wherever_stored (hends.mp hexpired) he hc

end

/-- No date parser of the platform leaves the `Long` range. -/
theorem longDates_dated : LongDates datedPlatform := by
  intro s
  have hdate : datedPlatform.getdate s = 100 ∨ datedPlatform.getdate s = -1 := ite_eq_or_eq _ _ _
  rcases hdate with hdate | hdate <;> rw [hdate] <;> decide

theorem tests_agree_dated : TestsAgree datedPlatform 50000 datedCookie :=
  (tests_agree_iff datedPlatform longDates_dated 50000 datedCookie).mpr
    (Or.inr (by decide +kernel))

/-- A session cookie reports itself expired and is accepted. -/
theorem not_every_cookie_agrees :
    ¬ ∀ (P : Platform), LongDates P → ∀ (now : UInt64) (c : THttpCookie), TestsAgree P now c := by
  intro hall
  have hagree := hall datedPlatform longDates_dated 1000 sidCookie
  have hrefused := (hagree.2 (by decide +kernel) []).1 wwwUrl
  exact absurd hrefused (by decide +kernel)

end NetMod.CookieStore
