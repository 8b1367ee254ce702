import NetMod.CookieStore

/-!
# What each cookie-store operation does to the list under each key

`listAt m k` is the list stored under `k`, empty when there is none.  For each operation one lemma
gives `listAt` (or membership in it) after the operation in terms of `listAt` before it; everything
proved about runs of the store goes through these lemmas and not through the loops.

The invariant `StoreInv` says that each entry lies under its own lower-cased domain, that no list
holds two entries of one identity, and that an entry's domain is the host of the URL that set it:
`Add` rejects every cookie with a `Domain` attribute, since `isSameOrSubDomain` accepts nothing.
-/

namespace NetMod.CookieStore

open NetMod.BlitzText NetMod.HttpCookie NetMod.UniqueImage

/-- The list stored under `k`, empty when there is none. -/
def listAt (m : CookieMap) (k : Text) : List TCachedCookie := (m.lookup k).getD []

@[simp] theorem listAt_empty (k : Text) : listAt ∅ k = [] := rfl

theorem listAt_of_lookup {m : CookieMap} {k : Text} {l : List TCachedCookie}
    (h : m.lookup k = some l) : listAt m k = l := by
  rw [listAt, h, Option.getD_some]

theorem listAt_of_lookup_none {m : CookieMap} {k : Text} (h : m.lookup k = none) :
    listAt m k = [] := by
  rw [listAt, h, Option.getD_none]

theorem listAt_insert (m : CookieMap) (k k' : Text) (l : List TCachedCookie) :
    listAt (m.insert k l) k' = if k' = k then l else listAt m k' := by
  split
  · rename_i h
    rw [h, listAt, AList.lookup_insert, Option.getD_some]
  · rename_i h
    rw [listAt, AList.lookup_insert_ne h, listAt]

theorem listAt_erase (m : CookieMap) (k k' : Text) :
    listAt (m.erase k) k' = if k' = k then [] else listAt m k' := by
  split
  · rename_i h
    rw [h, listAt, AList.lookup_erase, Option.getD_none]
  · rename_i h
    rw [listAt, AList.lookup_erase_ne h, listAt]

/-- What every reachable store satisfies. -/
structure StoreInv (P : Platform) (m : CookieMap) : Prop where
  keyed : ∀ k, ∀ e ∈ listAt m k, P.toLower e.domain = k
  unique : ∀ k, ((listAt m k).map (TCachedCookie.identity P)).Nodup
  hostOnly : ∀ k, ∀ e ∈ listAt m k, e.domain = e.url.host

theorem storeInv_empty (P : Platform) : StoreInv P ∅ :=
  ⟨by simp, by simp, by simp⟩

/-- The invariant passes to a map whose lists are sublists. -/
theorem StoreInv.of_sublist {P : Platform} {m m' : CookieMap} (hm : StoreInv P m)
    (hs : ∀ k, (listAt m' k).Sublist (listAt m k)) : StoreInv P m' where
  keyed k e he := hm.keyed k e ((hs k).subset he)
  unique k := nodup_map_of_sublist (hs k) (hm.unique k)
  hostOnly k e he := hm.hostOnly k e ((hs k).subset he)

/-! ### Removing an element from a list -/

theorem removeCookie_eq (P : Platform) (l : List TCachedCookie) (x : TCachedCookie) :
    removeCookie P l x = l.eraseP fun e => decide (e.identity P = x.identity P) := by
  rw [removeCookie]
  congr 1
  funext e
  simp only [TCachedCookie.compare_eq_zero]

theorem removeCookie_sublist (P : Platform) (l : List TCachedCookie) (x : TCachedCookie) :
    (removeCookie P l x).Sublist l :=
  List.eraseP_sublist

theorem mem_removeCookie {P : Platform} {l : List TCachedCookie}
    (hl : (l.map (TCachedCookie.identity P)).Nodup) (x e : TCachedCookie) :
    e ∈ removeCookie P l x ↔ e ∈ l ∧ e.identity P ≠ x.identity P := by
  rw [removeCookie_eq]
  exact mem_eraseP_key hl _ e

theorem removeAll_sublist (P : Platform) :
    ∀ (xs l : List TCachedCookie), (xs.foldl (removeCookie P) l).Sublist l := by
  intro xs
  induction xs with
  | nil => intro l; exact List.Sublist.refl l
  | cons x xs ih => intro l; exact (ih _).trans (removeCookie_sublist P l x)

theorem mem_removeAll {P : Platform} (e : TCachedCookie) :
    ∀ (xs l : List TCachedCookie), (l.map (TCachedCookie.identity P)).Nodup →
      (e ∈ xs.foldl (removeCookie P) l ↔ e ∈ l ∧ ∀ x ∈ xs, e.identity P ≠ x.identity P) := by
  intro xs
  induction xs with
  | nil => intro l _; simp
  | cons x xs ih =>
    intro l hl
    have hl' := nodup_map_of_sublist (removeCookie_sublist P l x) hl
    rw [List.foldl_cons, ih _ hl', mem_removeCookie hl]
    simp only [List.mem_cons, forall_eq_or_imp]
    tauto

/-! ### `Add` -/

/-- A cookie is only ever resolved to the URL's host: the other branch asks `isSameOrSubDomain`. -/
theorem resolveCookieDomain_eq (P : Platform) (url : TUrl) (cookie : THttpCookie) :
    resolveCookieDomain P url cookie = if cookie.getDomain P = [] then url.host else [] := by
  rw [resolveCookieDomain]
  simp only [isSameOrSubDomain_eq_false, Bool.not_false, if_true]
  by_cases hh : url.host = []
  · simp [hh]
  · by_cases hd : cookie.getDomain P = []
    · simp [hh, hd]
    · simp [hh, hd]

/-- The entry `Add(url, cookie)` makes at a clock reading. -/
def entryOf (P : Platform) (now : UInt64) (url : TUrl) (cookie : THttpCookie) : TCachedCookie :=
  TCachedCookie.new now cookie url (resolveCookieDomain P url cookie) (resolveCookiePath P url cookie)

/-- `Add` once the domain has resolved. -/
theorem add_resolved (P : Platform) (now : UInt64) (s : THttpCookieStore) (url : TUrl)
    (cookie : THttpCookie) (hd : resolveCookieDomain P url cookie ≠ []) :
    add P now s url cookie =
      match s.cookies.lookup (P.toLower (resolveCookieDomain P url cookie)) with
      | some list =>
        if (entryOf P now url cookie).isExpired P now then
          (⟨s.cookies.insert (P.toLower (resolveCookieDomain P url cookie))
            (removeCookie P list (entryOf P now url cookie))⟩, false)
        else
          (⟨s.cookies.insert (P.toLower (resolveCookieDomain P url cookie))
            (removeCookie P list (entryOf P now url cookie) ++ [entryOf P now url cookie])⟩, true)
      | none =>
        if (entryOf P now url cookie).isExpired P now then (s, false)
        else
          (⟨s.cookies.insert (P.toLower (resolveCookieDomain P url cookie))
            [entryOf P now url cookie]⟩, true) := by
  simp only [add, if_neg hd, entryOf]
  rfl

/-- `Add` changes the list under the resolved domain only: it drops the entry of the same identity
and appends the new one unless that is expired. -/
theorem listAt_add (P : Platform) (now : UInt64) (s : THttpCookieStore) (url : TUrl)
    (cookie : THttpCookie) (hd : resolveCookieDomain P url cookie ≠ []) (k : Text) :
    listAt (add P now s url cookie).1.cookies k =
      if k = P.toLower (resolveCookieDomain P url cookie) then
        removeCookie P (listAt s.cookies k) (entryOf P now url cookie) ++
          (if (entryOf P now url cookie).isExpired P now then [] else [entryOf P now url cookie])
      else listAt s.cookies k := by
  rw [add_resolved P now s url cookie hd]
  cases hl : s.cookies.lookup (P.toLower (resolveCookieDomain P url cookie)) with
  | some list =>
    have hat := listAt_of_lookup hl
    cases hx : (entryOf P now url cookie).isExpired P now <;>
      by_cases hk : k = P.toLower (resolveCookieDomain P url cookie) <;>
      simp [listAt_insert, hk, hat]
  | none =>
    have hat := listAt_of_lookup_none hl
    cases hx : (entryOf P now url cookie).isExpired P now <;>
      by_cases hk : k = P.toLower (resolveCookieDomain P url cookie) <;>
      simp [listAt_insert, hk, hat, removeCookie]

theorem add_rejected (P : Platform) (now : UInt64) (s : THttpCookieStore) (url : TUrl)
    (cookie : THttpCookie) (hd : resolveCookieDomain P url cookie = []) :
    add P now s url cookie = (s, false) := by
  simp only [add, hd, if_true]

/-- `Add` returns `True` exactly when the domain resolves and the new entry is not expired. -/
theorem add_accepts_iff (P : Platform) (now : UInt64) (s : THttpCookieStore) (url : TUrl)
    (cookie : THttpCookie) :
    (add P now s url cookie).2 = true ↔
      resolveCookieDomain P url cookie ≠ [] ∧
        (entryOf P now url cookie).isExpired P now = false := by
  by_cases hd : resolveCookieDomain P url cookie = []
  · simp [add_rejected P now s url cookie hd, hd]
  · rw [add_resolved P now s url cookie hd]
    cases s.cookies.lookup (P.toLower (resolveCookieDomain P url cookie)) <;>
      cases (entryOf P now url cookie).isExpired P now <;> simp [hd]

/-- Membership after an accepted or refused `Add`. -/
theorem mem_listAt_add {P : Platform} {s : THttpCookieStore} (hs : StoreInv P s.cookies)
    (now : UInt64) (url : TUrl) (cookie : THttpCookie) (k : Text) (e : TCachedCookie)
    (hd : resolveCookieDomain P url cookie ≠ []) :
    e ∈ listAt (add P now s url cookie).1.cookies k ↔
      (e ∈ listAt s.cookies k ∧ e.identity P ≠ (entryOf P now url cookie).identity P) ∨
        (k = P.toLower (resolveCookieDomain P url cookie) ∧ e = entryOf P now url cookie ∧
          (entryOf P now url cookie).isExpired P now = false) := by
  rw [listAt_add P now s url cookie hd]
  by_cases hk : k = P.toLower (resolveCookieDomain P url cookie)
  · rw [if_pos hk, List.mem_append, mem_removeCookie (hs.unique k)]
    cases hx : (entryOf P now url cookie).isExpired P now <;> simp [hk]
  · rw [if_neg hk]
    constructor
    · intro he
      refine Or.inl ⟨he, fun hid => hk ?_⟩
      have hdom : P.toLower e.domain = P.toLower (entryOf P now url cookie).domain :=
        congrArg (·.2.1) hid
      rw [← hs.keyed k e he, hdom]
      rfl
    · intro hor
      rcases hor with ⟨he, -⟩ | ⟨h, -, -⟩
      · exact he
      · exact absurd h hk

theorem storeInv_add {P : Platform} {s : THttpCookieStore} (hs : StoreInv P s.cookies)
    (now : UInt64) (url : TUrl) (cookie : THttpCookie) :
    StoreInv P (add P now s url cookie).1.cookies := by
  by_cases hd : resolveCookieDomain P url cookie = []
  · rw [add_rejected P now s url cookie hd]
    exact hs
  · have hdom : cookie.getDomain P = [] := by
      by_contra hne
      exact hd (by rw [resolveCookieDomain_eq, if_neg hne])
    refine ⟨?_, ?_, ?_⟩
    · intro k e he
      rcases (mem_listAt_add hs now url cookie k e hd).mp he with ⟨he, -⟩ | ⟨rfl, rfl, -⟩
      · exact hs.keyed k e he
      · rfl
    · intro k
      rw [listAt_add P now s url cookie hd]
      split
      · have hsub := nodup_map_of_sublist
          (removeCookie_sublist P (listAt s.cookies k) (entryOf P now url cookie)) (hs.unique k)
        split
        · rw [List.append_nil]
          exact hsub
        · apply nodup_map_concat hsub
          intro b hb
          exact ((mem_removeCookie (hs.unique k) _ b).mp hb).2
      · exact hs.unique k
    · intro k e he
      rcases (mem_listAt_add hs now url cookie k e hd).mp he with ⟨he, -⟩ | ⟨-, rfl, -⟩
      · exact hs.hostOnly k e he
      · show resolveCookieDomain P url cookie = url.host
        rw [resolveCookieDomain_eq, if_pos hdom]

/-! ### `Match`, first phase -/

/-- What `Match` demands of an entry before it returns its cookie. -/
def EntryMatches (P : Platform) (now : UInt64) (urlDomain path : Text) (isSecure : Bool)
    (e : TCachedCookie) : Prop :=
  e.isExpired P now = false ∧ (e.cookie.isSecure P = true → isSecure = true) ∧
    domainMatches P urlDomain e.domain (e.cookie.getDomain P) = true ∧
    pathMatches path e.path = true

instance (P : Platform) (now : UInt64) (urlDomain path : Text) (isSecure : Bool) :
    DecidablePred (EntryMatches P now urlDomain path isSecure) :=
  fun _ => inferInstanceAs (Decidable (_ ∧ _ ∧ _ ∧ _))

section

variable (P : Platform) (now : UInt64) (urlDomain path : Text) (isSecure : Bool)

theorem mem_matchStep_expired (d k : Text) (acc : MatchAcc) (x e : TCachedCookie) :
    e ∈ listAt (matchStep P now urlDomain path isSecure d acc x).expired k ↔
      e ∈ listAt acc.expired k ∨ (k = d ∧ e = x ∧ x.isExpired P now = true) := by
  rw [matchStep]
  cases hx : x.isExpired P now with
  | true =>
    simp only [if_true, listAt_insert]
    by_cases hk : k = d
    · subst hk
      simp [listAt]
    · simp [hk]
  | false =>
    simp only [Bool.false_eq_true, if_false, and_false, or_false]
    split
    · rfl
    · split
      · rfl
      · split <;> rfl

theorem result_matchStep (d : Text) (acc : MatchAcc) (x : TCachedCookie) :
    (matchStep P now urlDomain path isSecure d acc x).result =
      acc.result ++ if EntryMatches P now urlDomain path isSecure x then [x.cookie] else [] := by
  rw [matchStep]
  cases hx : x.isExpired P now with
  | true => simp [EntryMatches, hx]
  | false =>
    cases hs : x.cookie.isSecure P <;> cases isSecure <;>
      cases hm : domainMatches P urlDomain x.domain (x.cookie.getDomain P) <;>
      cases hp : pathMatches path x.path <;> simp [EntryMatches, hx, hs, hm, hp]

theorem mem_matchList_expired (d k : Text) (e : TCachedCookie) :
    ∀ (l : List TCachedCookie) (acc : MatchAcc),
      e ∈ listAt (l.foldl (matchStep P now urlDomain path isSecure d) acc).expired k ↔
        e ∈ listAt acc.expired k ∨ (k = d ∧ e ∈ l ∧ e.isExpired P now = true) := by
  intro l
  induction l with
  | nil => intro acc; simp
  | cons x l ih =>
    intro acc
    rw [List.foldl_cons, ih, mem_matchStep_expired, List.mem_cons]
    constructor
    · intro hor
      rcases hor with (h | ⟨hk, rfl, hx⟩) | ⟨hk, he, hx⟩
      · exact Or.inl h
      · exact Or.inr ⟨hk, Or.inl rfl, hx⟩
      · exact Or.inr ⟨hk, Or.inr he, hx⟩
    · intro hor
      rcases hor with h | ⟨hk, rfl | he, hx⟩
      · exact Or.inl (Or.inl h)
      · exact Or.inl (Or.inr ⟨hk, rfl, hx⟩)
      · exact Or.inr ⟨hk, he, hx⟩

theorem result_matchList (d : Text) :
    ∀ (l : List TCachedCookie) (acc : MatchAcc),
      (l.foldl (matchStep P now urlDomain path isSecure d) acc).result =
        acc.result ++
          (l.filter fun e => decide (EntryMatches P now urlDomain path isSecure e)).map (·.cookie) := by
  intro l
  induction l with
  | nil =>
    intro acc
    exact (List.append_nil _).symm
  | cons x l ih =>
    intro acc
    rw [List.foldl_cons, ih, result_matchStep, List.append_assoc]
    by_cases hx : EntryMatches P now urlDomain path isSecure x
    · rw [if_pos hx, List.filter_cons, if_pos (decide_eq_true hx)]
      rfl
    · rw [if_neg hx, List.filter_cons, if_neg (mt of_decide_eq_true hx)]
      rfl

theorem matchDomain_eq (cookies : CookieMap) (acc : MatchAcc) (d : Text) :
    matchDomain P now urlDomain path isSecure cookies acc d =
      (listAt cookies d).foldl (matchStep P now urlDomain path isSecure d) acc := by
  rw [matchDomain, listAt]
  cases cookies.lookup d <;> rfl

theorem mem_matchWalk_expired (cookies : CookieMap) (k : Text) (e : TCachedCookie) :
    ∀ (ds : List Text) (acc : MatchAcc),
      e ∈ listAt (ds.foldl (matchDomain P now urlDomain path isSecure cookies) acc).expired k ↔
        e ∈ listAt acc.expired k ∨
          (k ∈ ds ∧ e ∈ listAt cookies k ∧ e.isExpired P now = true) := by
  intro ds
  induction ds with
  | nil => intro acc; simp
  | cons d ds ih =>
    intro acc
    rw [List.foldl_cons, ih, matchDomain_eq, mem_matchList_expired, List.mem_cons]
    constructor
    · intro hor
      rcases hor with (h | ⟨rfl, he, hx⟩) | ⟨hk, he, hx⟩
      · exact Or.inl h
      · exact Or.inr ⟨Or.inl rfl, he, hx⟩
      · exact Or.inr ⟨Or.inr hk, he, hx⟩
    · intro hor
      rcases hor with h | ⟨rfl | hk, he, hx⟩
      · exact Or.inl (Or.inl h)
      · exact Or.inl (Or.inr ⟨rfl, he, hx⟩)
      · exact Or.inr ⟨hk, he, hx⟩

/-- The entries under a key whose cookies the inner loop returns. -/
def matchedAt (cookies : CookieMap) (d : Text) : List TCachedCookie :=
  (listAt cookies d).filter fun e => decide (EntryMatches P now urlDomain path isSecure e)

theorem mem_matchedAt {cookies : CookieMap} {d : Text} {e : TCachedCookie} :
    e ∈ matchedAt P now urlDomain path isSecure cookies d ↔
      e ∈ listAt cookies d ∧ EntryMatches P now urlDomain path isSecure e := by
  rw [matchedAt, List.mem_filter, decide_eq_true_iff]

theorem result_matchWalk (cookies : CookieMap) :
    ∀ (ds : List Text) (acc : MatchAcc),
      (ds.foldl (matchDomain P now urlDomain path isSecure cookies) acc).result =
        acc.result ++
          (ds.flatMap (matchedAt P now urlDomain path isSecure cookies)).map (·.cookie) := by
  intro ds
  induction ds with
  | nil =>
    intro acc
    exact (List.append_nil _).symm
  | cons d ds ih =>
    intro acc
    rw [List.foldl_cons, ih, matchDomain_eq, result_matchList, List.flatMap_cons, List.map_append,
      List.append_assoc]
    rfl

end

/-- The path `Match` compares with: `"/"` for an empty raw path. -/
def requestPath (url : TUrl) : Text := if url.rawPath = [] then lit "/" else url.rawPath

/-- The entries whose cookies `Match` returns, in its order. -/
def matchedEntries (P : Platform) (now : UInt64) (s : THttpCookieStore) (url : TUrl) :
    List TCachedCookie :=
  (domainWalk (P.toLower url.host)).flatMap
    (matchedAt P now url.host (requestPath url) (url.isSecureScheme P) s.cookies)

/-- **The result of `Match`**: the cookies of the entries on the walk that match. -/
theorem matchUrl_result (P : Platform) (now : UInt64) (s : THttpCookieStore) (url : TUrl) :
    (matchUrl P now s url).2 = (matchedEntries P now s url).map (·.cookie) := by
  rw [matchUrl]
  split
  · next h =>
    rw [matchedEntries, h]
    rfl
  · exact (result_matchWalk P now url.host (requestPath url) (url.isSecureScheme P) s.cookies _ _).trans
      (List.nil_append _)

theorem mem_matchUrl_result {P : Platform} {now : UInt64} {s : THttpCookieStore} {url : TUrl}
    {c : THttpCookie} :
    c ∈ (matchUrl P now s url).2 ↔
      url.host ≠ [] ∧ ∃ k ∈ domainWalk (P.toLower url.host), ∃ e ∈ listAt s.cookies k,
        EntryMatches P now url.host (requestPath url) (url.isSecureScheme P) e ∧ e.cookie = c := by
  have hhost : ∀ k ∈ domainWalk (P.toLower url.host), url.host ≠ [] := by
    intro k hk h
    rw [h] at hk
    exact List.not_mem_nil hk
  rw [matchUrl_result]
  simp only [matchedEntries, List.mem_map, List.mem_flatMap, mem_matchedAt]
  constructor
  · rintro ⟨e, ⟨k, hk, he, hmatch⟩, hcookie⟩
    exact ⟨hhost k hk, k, hk, e, he, hmatch, hcookie⟩
  · rintro ⟨-, k, hk, e, he, hmatch, hcookie⟩
    exact ⟨e, ⟨k, hk, he, hmatch⟩, hcookie⟩

/-! ### `Match`, second phase -/

theorem listAt_sweepEntry (P : Platform) (m : CookieMap)
    (entry : (_ : Text) × List TCachedCookie) (k : Text) :
    listAt (sweepEntry P m entry) k =
      if k = entry.1 then entry.2.foldl (removeCookie P) (listAt m k) else listAt m k := by
  have hnil : entry.2.foldl (removeCookie P) [] = [] :=
    List.sublist_nil.mp (removeAll_sublist P entry.2 [])
  rw [sweepEntry]
  cases hl : m.lookup entry.1 with
  | none =>
    have hat := listAt_of_lookup_none hl
    by_cases hk : k = entry.1
    · simp only [hk, if_true, hat, hnil]
    · simp only [hk, if_false]
  | some cached =>
    have hat := listAt_of_lookup hl
    by_cases hk : k = entry.1
    · simp only [hk, if_true, hat]
      split
      · rename_i hc
        rw [listAt_erase, if_pos rfl, hc]
      · rw [listAt_insert, if_pos rfl]
    · simp only [hk, if_false]
      split
      · rw [listAt_erase, if_neg hk]
      · rw [listAt_insert, if_neg hk]

/-- The sweep removes, under each key, the elements collected under that key. -/
theorem listAt_sweep (P : Platform) (k : Text) :
    ∀ (es : List ((_ : Text) × List TCachedCookie)) (m : CookieMap), es.NodupKeys →
      listAt (es.foldl (sweepEntry P) m) k =
        ((es.dlookup k).getD []).foldl (removeCookie P) (listAt m k) := by
  intro es
  induction es with
  | nil => intro m _; rfl
  | cons entry es ih =>
    intro m hnd
    obtain ⟨hfresh, hnd'⟩ := List.nodupKeys_cons.mp hnd
    rw [List.foldl_cons, ih _ hnd', listAt_sweepEntry]
    obtain ⟨k', l⟩ := entry
    by_cases hk : k = k'
    · subst hk
      have hnone : es.dlookup k = none := List.dlookup_eq_none.mpr hfresh
      rw [if_pos rfl, hnone, List.dlookup_cons_eq]
      rfl
    · rw [if_neg hk, List.dlookup_cons_ne es ⟨k', l⟩ hk]

theorem listAt_matchUrl_sublist (P : Platform) (now : UInt64) (s : THttpCookieStore) (url : TUrl)
    (k : Text) : (listAt (matchUrl P now s url).1.cookies k).Sublist (listAt s.cookies k) := by
  rw [matchUrl]
  split
  · exact List.Sublist.refl _
  · simp only [sweep, listAt_sweep P k _ _ (AList.nodupKeys _)]
    exact removeAll_sublist P _ _

/-- **What `Match` leaves**: everything but the expired entries on the walk. -/
theorem mem_listAt_matchUrl {P : Platform} {s : THttpCookieStore} (hs : StoreInv P s.cookies)
    (now : UInt64) (url : TUrl) (k : Text) (e : TCachedCookie) :
    e ∈ listAt (matchUrl P now s url).1.cookies k ↔
      e ∈ listAt s.cookies k ∧
        ¬ (url.host ≠ [] ∧ k ∈ domainWalk (P.toLower url.host) ∧ e.isExpired P now = true) := by
  rw [matchUrl]
  split
  · rename_i h
    simp [h]
  · rename_i h
    have hx : ∀ x, x ∈ listAt (matchTraverse P now s url).expired k ↔
        k ∈ domainWalk (P.toLower url.host) ∧ x ∈ listAt s.cookies k ∧ x.isExpired P now = true := by
      intro x
      simp only [matchTraverse, mem_matchWalk_expired, listAt_empty, List.not_mem_nil, false_or]
    simp only [sweep, listAt_sweep P k _ _ (AList.nodupKeys _)]
    rw [mem_removeAll e _ _ (hs.unique k)]
    change (e ∈ listAt s.cookies k ∧
      ∀ x ∈ listAt (matchTraverse P now s url).expired k, e.identity P ≠ x.identity P) ↔ _
    constructor
    · intro hkept
      obtain ⟨he, hne⟩ := hkept
      refine ⟨he, fun ⟨_, hk, hexp⟩ => hne e ((hx e).mpr ⟨hk, he, hexp⟩) rfl⟩
    · intro hlives
      obtain ⟨he, hlive⟩ := hlives
      refine ⟨he, fun x hxm hid => ?_⟩
      obtain ⟨hk, hxl, hexp⟩ := (hx x).mp hxm
      have heq : e = x := eq_of_mem_of_key (hs.unique k) he hxl hid
      exact hlive ⟨h, hk, heq ▸ hexp⟩

/-! ### `Remove` -/

section

variable (hit : TCachedCookie → Bool)

/-- One pass deletes the hits; if it deleted one, its limit is past the end and it raises. -/
theorem removeScan_eq (limit : Nat) :
    ∀ (rest kept : List TCachedCookie) (found : Bool), kept.length + rest.length ≤ limit →
      removeScan hit limit kept found rest =
        ⟨kept ++ rest.filter (fun x => !hit x), found || rest.any hit,
          decide ((kept ++ rest.filter (fun x => !hit x)).length < limit)⟩ := by
  intro rest
  induction rest with
  | nil => intro kept found _; simp [removeScan]
  | cons x rest ih =>
    intro kept found hlen
    rw [List.length_cons] at hlen
    have hlt : kept.length < limit := by omega
    rw [removeScan, if_pos hlt]
    cases hx : hit x with
    | true =>
      rw [if_pos rfl, ih kept true (by omega)]
      simp [hx]
    | false =>
      rw [if_neg (by simp), ih (kept ++ [x]) found (by simp; omega)]
      simp [hx]

theorem removePasses_eq (fuel : Nat) (removed : Bool) (list : List TCachedCookie) :
    removePasses hit (fuel + 1) removed list =
      if list.any hit then ⟨list.filter (fun x => !hit x), true, true⟩ else ⟨list, removed, false⟩ := by
  have hscan := removeScan_eq hit list.length list [] false (by simp)
  rw [removePasses, hscan]
  simp only [List.nil_append, Bool.false_or]
  cases hany : list.any hit with
  | true =>
    obtain ⟨x, hx, hhx⟩ := List.any_eq_true.mp hany
    have hlt : (list.filter fun x => !hit x).length < list.length :=
      List.length_filter_lt_length_iff_exists.mpr ⟨x, hx, by simp [hhx]⟩
    simp [hlt]
  | false =>
    have hfil : (list.filter fun x => !hit x) = list := by
      rw [List.filter_eq_self]
      intro x hx
      simpa using List.any_eq_false.mp hany x hx
    simp [hfil]

/-- When all hits lie under one key, the walk filters the list under that key. -/
theorem listAt_removeWalk (P : Platform) {kh : Text} (k : Text) :
    ∀ (ds : List Text) (m : CookieMap) (removed : Bool),
      (∀ k', ∀ e ∈ listAt m k', hit e = true → k' = kh) →
      listAt (removeWalk P hit ds m removed).1 k =
        if k = kh ∧ kh ∈ ds.map P.toLower then (listAt m k).filter (fun x => !hit x)
        else listAt m k := by
  intro ds
  induction ds with
  | nil => intro m removed _; simp [removeWalk]
  | cons d ds ih =>
    intro m removed honly
    rw [removeWalk]
    cases hl : m.lookup (P.toLower d) with
    | none =>
      have hat := listAt_of_lookup_none hl
      dsimp only
      rw [ih m removed honly]
      simp only [List.map_cons, List.mem_cons]
      by_cases hk : k = P.toLower d
      · simp [hk, hat]
      · by_cases hkh : k = kh
        · subst hkh
          simp [hk]
        · simp [hkh]
    | some list =>
      have hat := listAt_of_lookup hl
      dsimp only
      rw [removePasses_eq]
      cases hany : list.any hit with
      | true =>
        obtain ⟨x, hx, hhx⟩ := List.any_eq_true.mp hany
        have hkh : P.toLower d = kh := honly _ x (hat ▸ hx) hhx
        simp only [if_true, listAt_insert, List.map_cons, List.mem_cons, hkh, true_or, and_true]
        by_cases hk : k = kh
        · simp [hk, ← hkh, hat]
        · simp [hk]
      | false =>
        have hsame : ∀ k', listAt (m.insert (P.toLower d) list) k' = listAt m k' := by
          intro k'
          rw [listAt_insert]
          split
          · rename_i h
            rw [h, hat]
          · rfl
        simp only [Bool.false_eq_true, if_false]
        rw [ih _ _ (fun k' e he => honly k' e (hsame k' ▸ he)), hsame k]
        simp only [List.map_cons, List.mem_cons]
        by_cases hk : k = P.toLower d
        · have hfil : (listAt m k).filter (fun x => !hit x) = listAt m k := by
            rw [List.filter_eq_self]
            intro x hx
            rw [hk, hat] at hx
            simpa using List.any_eq_false.mp hany x hx
          simp [hfil]
        · by_cases hkh : k = kh
          · subst hkh
            simp [hk]
          · simp [hkh]

end

/-- `Remove(url, cookie)` is asked to delete the entry `e`. -/
def Covers (P : Platform) (url : TUrl) (cookie : THttpCookie) (e : TCachedCookie) : Prop :=
  url.host ≠ [] ∧ P.toLower e.domain ∈ domainWalk (P.toLower url.host) ∧
    P.toLower url.host = P.toLower e.url.host ∧ e.path = resolveCookiePath P url cookie ∧
    e.cookie.name = cookie.name

theorem listAt_remove {P : Platform} {s : THttpCookieStore} (hs : StoreInv P s.cookies)
    (url : TUrl) (cookie : THttpCookie) (hh : url.host ≠ []) (k : Text) :
    listAt (remove P s url cookie).1.cookies k =
      if k = P.toLower url.host then
        (listAt s.cookies k).filter (fun x => !removeHit P url cookie x)
      else listAt s.cookies k := by
  have honly : ∀ k', ∀ e ∈ listAt s.cookies k', removeHit P url cookie e = true →
      k' = P.toLower url.host := by
    intro k' e he hhit
    have hhost : P.toLower url.host = P.toLower e.url.host := (of_decide_eq_true hhit).1
    rw [← hs.keyed k' e he, hs.hostOnly k' e he, hhost]
  have hmem : P.toLower url.host ∈ (domainWalk (P.toLower url.host)).map P.toLower :=
    List.mem_map.mpr ⟨_, mem_domainWalk_self (by simpa using hh), toLower_toLower P url.host⟩
  simp only [remove, if_neg hh]
  rw [listAt_removeWalk _ P k _ _ _ honly]
  simp only [hmem, and_true]

/-- **What `Remove` leaves**: everything it does not cover. -/
theorem mem_listAt_remove {P : Platform} {s : THttpCookieStore} (hs : StoreInv P s.cookies)
    (url : TUrl) (cookie : THttpCookie) (k : Text) (e : TCachedCookie) :
    e ∈ listAt (remove P s url cookie).1.cookies k ↔
      e ∈ listAt s.cookies k ∧ ¬ Covers P url cookie e := by
  by_cases hh : url.host = []
  · simp [remove, hh, Covers]
  · rw [listAt_remove hs url cookie hh]
    by_cases hk : k = P.toLower url.host
    · rw [if_pos hk, List.mem_filter]
      apply and_congr_right
      intro he
      have hkey : P.toLower e.domain ∈ domainWalk (P.toLower url.host) := by
        rw [hs.keyed k e he, hk]
        exact mem_domainWalk_self (by simpa using hh)
      simp only [removeHit, Covers, ne_eq, hh, not_false_eq_true, hkey, true_and,
        Bool.not_eq_true', decide_eq_false_iff_not]
    · rw [if_neg hk]
      refine (and_iff_left_of_imp fun he hcov => hk ?_).symm
      rw [← hs.keyed k e he, hs.hostOnly k e he, hcov.2.2.1]

theorem listAt_remove_sublist {P : Platform} {s : THttpCookieStore} (hs : StoreInv P s.cookies)
    (url : TUrl) (cookie : THttpCookie) (k : Text) :
    (listAt (remove P s url cookie).1.cookies k).Sublist (listAt s.cookies k) := by
  by_cases hh : url.host = []
  · simp [remove, hh]
  · rw [listAt_remove hs url cookie hh]
    split
    · exact List.filter_sublist
    · exact List.Sublist.refl _

/-! ### `Clear` -/

theorem listAt_clear (s : THttpCookieStore) (k : Text) : listAt (clear s).1.cookies k = [] := by
  rw [clear]
  split
  · rename_i h
    have hnil : s.cookies.entries = [] := List.length_eq_zero_iff.mp h
    simp [listAt, AList.lookup, hnil]
  · rfl

end NetMod.CookieStore
