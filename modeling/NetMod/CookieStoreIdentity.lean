import NetMod.CookieStoreRuns

/-!
# Cookie identities, and the exact effect of `Add`

`TArrayList.Remove` takes out the first entry that `Compare` puts at zero.  In a reachable store that
is the only one of its identity, so `Add` replaces exactly the entry with the same name, the same
domain but for its case, and the same path: `add_exact`.  The store as a whole never holds two
entries of one identity (`identities_nodup`).
-/

namespace NetMod.CookieStore

open NetMod.BlitzText NetMod.HttpCookie NetMod.UniqueImage

/-- Same name, same domain ignoring case, same path. -/
def SameIdentity (P : Platform) (e x : TCachedCookie) : Prop :=
  e.cookie.name = x.cookie.name ∧ P.toLower e.domain = P.toLower x.domain ∧ e.path = x.path

instance (P : Platform) (e x : TCachedCookie) : Decidable (SameIdentity P e x) :=
  inferInstanceAs (Decidable (_ ∧ _ ∧ _))

theorem sameIdentity_iff {P : Platform} {e x : TCachedCookie} :
    SameIdentity P e x ↔ e.identity P = x.identity P := by
  rw [SameIdentity, TCachedCookie.identity, TCachedCookie.identity, Prod.mk.injEq, Prod.mk.injEq]

/-- The entries of all lists. -/
def allEntries (s : THttpCookieStore) : List TCachedCookie := s.cookies.entries.flatMap (·.2)

/-- **Removing an entry drops its identity and keeps the order of the others.** -/
theorem removeCookie_eq_filter {P : Platform} {l : List TCachedCookie}
    (hl : (l.map (TCachedCookie.identity P)).Nodup) (x : TCachedCookie) :
    removeCookie P l x = l.filter fun e => decide (¬ SameIdentity P e x) := by
  rw [removeCookie_eq, eraseP_key_eq_filter hl]
  apply List.filter_congr
  intro e _
  rw [decide_eq_decide, ne_eq, not_iff_not, sameIdentity_iff]

theorem length_sameIdentity_le_one {P : Platform} {l : List TCachedCookie}
    (hl : (l.map (TCachedCookie.identity P)).Nodup) (x : TCachedCookie) :
    (l.filter fun e => decide (SameIdentity P e x)).length ≤ 1 := by
  have hone := length_filter_key_le_one hl (x.identity P)
  simp only [← sameIdentity_iff] at hone
  exact hone

/-- `Add` leaves the lists under other keys as they are. -/
theorem lookup_add_ne (P : Platform) (now : UInt64) (s : THttpCookieStore) (url : TUrl)
    (cookie : THttpCookie) {k : Text} (hk : k ≠ P.toLower (resolveCookieDomain P url cookie)) :
    (add P now s url cookie).1.cookies.lookup k = s.cookies.lookup k := by
  by_cases hd : resolveCookieDomain P url cookie = []
  · rw [add_rejected P now s url cookie hd]
  · rw [add_resolved P now s url cookie hd]
    cases s.cookies.lookup (P.toLower (resolveCookieDomain P url cookie)) <;>
      cases (entryOf P now url cookie).isExpired P now <;>
      simp [AList.lookup_insert_ne hk]

/-- **No two entries of a store agree in their identity**, whatever list they are in. -/
theorem identities_nodup {P : Platform} {s : THttpCookieStore} (hs : StoreInv P s.cookies) :
    ((allEntries s).map (TCachedCookie.identity P)).Nodup := by
  have hlist : ∀ entry ∈ s.cookies.entries, listAt s.cookies entry.1 = entry.2 := by
    intro entry hentry
    exact listAt_of_lookup (AList.mem_lookup_iff.mpr hentry)
  have hkeys : s.cookies.entries.Pairwise fun a b => a.1 ≠ b.1 :=
    List.nodupKeys_iff_pairwise.mp s.cookies.nodupKeys
  rw [allEntries, List.map_flatMap, List.nodup_flatMap]
  constructor
  · intro entry hentry
    rw [← hlist entry hentry]
    exact hs.unique entry.1
  · apply hkeys.imp_of_mem
    intro a b ha hb hab
    refine List.disjoint_left.mpr fun i hi hi' => hab ?_
    obtain ⟨e, he, rfl⟩ := List.mem_map.mp hi
    obtain ⟨e', he', hid⟩ := List.mem_map.mp hi'
    have hdom : P.toLower e'.domain = P.toLower e.domain := congrArg (·.2.1) hid
    rw [← hs.keyed a.1 e (hlist a ha ▸ he), ← hs.keyed b.1 e' (hlist b hb ▸ he'), hdom]

/-- **What `Add` does in every reachable store.**  A cookie whose domain does not resolve changes
nothing.  Otherwise only the list under the lower-cased domain changes: the entry of the same
identity goes, the others stay in order, and the new entry is appended exactly when it is not
expired, which is when `Add` returns `True`.  Every entry is in the list of its own lower-cased
domain, and no two have one identity. -/
theorem add_exact (P : Platform) (h : History) (now : UInt64) (url : TUrl) (cookie : THttpCookie) :
    (resolveCookieDomain P url cookie = [] →
      add P now (runStore P h) url cookie = (runStore P h, false)) ∧
    (resolveCookieDomain P url cookie ≠ [] →
      (∀ k, k ≠ P.toLower (resolveCookieDomain P url cookie) →
        (add P now (runStore P h) url cookie).1.cookies.lookup k = (runStore P h).cookies.lookup k) ∧
      listAt (add P now (runStore P h) url cookie).1.cookies
          (P.toLower (resolveCookieDomain P url cookie)) =
        ((listAt (runStore P h).cookies (P.toLower (resolveCookieDomain P url cookie))).filter
            fun e => decide (¬ SameIdentity P e (entryOf P now url cookie))) ++
          (if (entryOf P now url cookie).isExpired P now then [] else [entryOf P now url cookie]) ∧
      ((listAt (runStore P h).cookies (P.toLower (resolveCookieDomain P url cookie))).filter
            fun e => decide (SameIdentity P e (entryOf P now url cookie))).length ≤ 1 ∧
      ((add P now (runStore P h) url cookie).2 = true ↔
        (entryOf P now url cookie).isExpired P now = false)) ∧
    (∀ k, ∀ e ∈ listAt (runStore P h).cookies k, P.toLower e.domain = k) ∧
    ((allEntries (runStore P h)).map (TCachedCookie.identity P)).Nodup := by
  have hs : StoreInv P (runStore P h).cookies := storeInv_runStore P h
  refine ⟨add_rejected P now _ url cookie, fun hd => ⟨?_, ?_, ?_, ?_⟩, hs.keyed,
    identities_nodup hs⟩
  · exact fun k hk => lookup_add_ne P now _ url cookie hk
  · rw [listAt_add P now _ url cookie hd, if_pos rfl, removeCookie_eq_filter (hs.unique _)]
  · exact length_sameIdentity_le_one (hs.unique _) _
  · rw [add_accepts_iff]
    exact and_iff_right hd

end NetMod.CookieStore
