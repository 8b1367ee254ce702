import NetMod.CookieStoreRuns

/-!
# `Remove`: what it deletes, and when it returns

The `For` loop of `Remove` steps its variable back after a deletion but keeps the limit it read on
entry.  A pass over a list with something to delete therefore leaves the right list behind
(`removeScan_eq`) and then indexes past its end.

Two things follow for every reachable store.  The lists end up as they should, each key keeping its
list less the entries asked for (`lookup_remove`), since these can only lie under the lower-cased
host of the URL and that key is the first of the walk.  The call itself ends in an exception exactly
when it deleted something (`remove_result`), so `remove_exact_iff` holds of the calls that have
nothing to do.
-/

namespace NetMod.CookieStore

open NetMod.BlitzText NetMod.HttpCookie

/-! ### The loops end -/

section

variable (hit : TCachedCookie → Bool)

/-- One pass decides: it raises, or it finds nothing.  More fuel than the list has entries is never
asked for. -/
theorem removePasses_fuel (fuel : Nat) (removed : Bool) (list : List TCachedCookie) :
    removePasses hit (list.length + 1 + fuel) removed list =
      removePasses hit (list.length + 1) removed list := by
  have hfuel : list.length + 1 + fuel = (list.length + fuel) + 1 := by omega
  rw [hfuel, removePasses_eq, removePasses_eq]

/-- **How the walk ends**: with the exception iff a visited list has an entry to delete. -/
theorem removeWalk_snd (P : Platform) :
    ∀ (ds : List Text) (m : CookieMap) (removed : Bool),
      (removeWalk P hit ds m removed).2 =
        if ds.any fun d => (listAt m (P.toLower d)).any hit then none else some removed := by
  intro ds
  induction ds with
  | nil => intro m removed; rfl
  | cons d ds ih =>
    intro m removed
    rw [removeWalk, List.any_cons]
    cases hl : m.lookup (P.toLower d) with
    | none =>
      rw [listAt_of_lookup_none hl, List.any_nil, Bool.false_or]
      exact ih m removed
    | some list =>
      rw [listAt_of_lookup hl]
      dsimp only
      rw [removePasses_eq]
      cases hany : list.any hit with
      | true => rfl
      | false =>
        -- the list is put back as it was
        have hsame : ∀ k, listAt (m.insert (P.toLower d) list) k = listAt m k := by
          intro k
          rw [listAt_insert]
          split
          · rename_i h
            rw [h, listAt_of_lookup hl]
          · rfl
        rw [if_neg (by simp), Bool.false_or]
        show (removeWalk P hit ds (m.insert (P.toLower d) list) removed).2 = _
        rw [ih]
        simp only [hsame]

/-- `Remove` neither adds nor drops a key. -/
theorem isSome_lookup_removeWalk (P : Platform) (k : Text) :
    ∀ (ds : List Text) (m : CookieMap) (removed : Bool),
      ((removeWalk P hit ds m removed).1.lookup k).isSome = (m.lookup k).isSome := by
  intro ds
  induction ds with
  | nil => intro m removed; rfl
  | cons d ds ih =>
    intro m removed
    rw [removeWalk]
    cases hl : m.lookup (P.toLower d) with
    | none => exact ih m removed
    | some list =>
      have hkeep : ∀ l : List TCachedCookie,
          ((m.insert (P.toLower d) l).lookup k).isSome = (m.lookup k).isSome := by
        intro l
        by_cases hk : k = P.toLower d
        · rw [hk, AList.lookup_insert, hl]
          rfl
        · rw [AList.lookup_insert_ne hk]
      dsimp only
      split
      · exact hkeep _
      · rw [ih]
        exact hkeep _

end

/-! ### The entries asked for -/

/-- `Remove(url, cookie)` is asked to delete the entry `e` stored under `k`. -/
def ToRemove (P : Platform) (url : TUrl) (cookie : THttpCookie) (k : Text) (e : TCachedCookie) :
    Prop :=
  k ∈ domainWalk (P.toLower url.host) ∧ P.toLower e.url.host = P.toLower url.host ∧
    e.path = resolveCookiePath P url cookie ∧ e.cookie.name = cookie.name

instance (P : Platform) (url : TUrl) (cookie : THttpCookie) (k : Text) (e : TCachedCookie) :
    Decidable (ToRemove P url cookie k e) :=
  inferInstanceAs (Decidable (_ ∧ _ ∧ _ ∧ _))

section

variable {P : Platform} {s : THttpCookieStore} {url : TUrl} {cookie : THttpCookie}

theorem removeHit_iff {e : TCachedCookie} :
    removeHit P url cookie e = true ↔ P.toLower e.url.host = P.toLower url.host ∧
      e.path = resolveCookiePath P url cookie ∧ e.cookie.name = cookie.name := by
  rw [removeHit, decide_eq_true_eq, eq_comm (a := P.toLower url.host)]

/-- An entry that the loops take for one to delete lies under the host of the URL. -/
theorem key_of_removeHit (hs : StoreInv P s.cookies) {k : Text} {e : TCachedCookie}
    (he : e ∈ listAt s.cookies k) (hhit : removeHit P url cookie e = true) :
    k = P.toLower url.host := by
  rw [← hs.keyed k e he, hs.hostOnly k e he]
  exact (removeHit_iff.mp hhit).1

/-- In a reachable store the loops look for exactly the entries asked for. -/
theorem toRemove_iff (hs : StoreInv P s.cookies) (hh : url.host ≠ []) {k : Text}
    {e : TCachedCookie} (he : e ∈ listAt s.cookies k) :
    ToRemove P url cookie k e ↔ removeHit P url cookie e = true := by
  rw [ToRemove, removeHit_iff]
  apply and_iff_right_of_imp
  intro hhit
  rw [key_of_removeHit hs he (removeHit_iff.mpr hhit)]
  exact mem_domainWalk_self (by simpa using hh)

/-- **The lists after `Remove`**: every key keeps its list, less the entries asked for. -/
theorem lookup_remove (hs : StoreInv P s.cookies) (hh : url.host ≠ []) (k : Text) :
    (remove P s url cookie).1.cookies.lookup k =
      (s.cookies.lookup k).map fun l => l.filter fun e => decide (¬ ToRemove P url cookie k e) := by
  have hkeys : ((remove P s url cookie).1.cookies.lookup k).isSome = (s.cookies.lookup k).isSome := by
    simp only [remove, if_neg hh]
    exact isSome_lookup_removeWalk _ P k _ _ _
  have hlist : listAt (remove P s url cookie).1.cookies k =
      (listAt s.cookies k).filter fun e => decide (¬ ToRemove P url cookie k e) := by
    have hfilter : (listAt s.cookies k).filter (fun e => decide (¬ ToRemove P url cookie k e)) =
        (listAt s.cookies k).filter fun e => !removeHit P url cookie e := by
      apply List.filter_congr
      intro e he
      rw [decide_not, Bool.not_inj_iff, Bool.eq_iff_iff, decide_eq_true_eq, toRemove_iff hs hh he]
    rw [listAt_remove hs url cookie hh, hfilter]
    split
    · rfl
    · rename_i hk
      refine (List.filter_eq_self.mpr fun e he => ?_).symm
      rw [Bool.not_eq_true', Bool.eq_false_iff]
      exact fun hhit => hk (key_of_removeHit hs he hhit)
  cases hl : s.cookies.lookup k with
  | none =>
    rw [hl] at hkeys
    exact Option.isNone_iff_eq_none.mp (by simpa using hkeys)
  | some l =>
    rw [hl] at hkeys
    obtain ⟨l', hl'⟩ := Option.isSome_iff_exists.mp hkeys
    rw [listAt_of_lookup hl', listAt_of_lookup hl] at hlist
    rw [hl', hlist]
    rfl

/-- **The result of `Remove`**: `False` if nothing is asked for, and the exception otherwise. -/
theorem remove_result (hs : StoreInv P s.cookies) (hh : url.host ≠ []) :
    ((remove P s url cookie).2 = some false ∧
        ∀ k, ∀ e ∈ listAt s.cookies k, ¬ ToRemove P url cookie k e) ∨
      ((remove P s url cookie).2 = none ∧
        ∃ k, ∃ e ∈ listAt s.cookies k, ToRemove P url cookie k e) := by
  have hsnd : (remove P s url cookie).2 = _ :=
    (congrArg Prod.snd (if_neg hh)).trans (removeWalk_snd (removeHit P url cookie) P _ _ _)
  rw [hsnd]
  split
  · rename_i hany
    obtain ⟨d, -, hd⟩ := List.any_eq_true.mp hany
    obtain ⟨e, he, hhit⟩ := List.any_eq_true.mp hd
    exact Or.inr ⟨rfl, _, e, he, (toRemove_iff hs hh he).mpr hhit⟩
  · rename_i hany
    refine Or.inl ⟨rfl, fun k e he hasked => hany ?_⟩
    have hhit := (toRemove_iff hs hh he).mp hasked
    have hk := key_of_removeHit hs he hhit
    rw [List.any_eq_true]
    refine ⟨P.toLower url.host, mem_domainWalk_self (by simpa using hh), ?_⟩
    rw [toLower_toLower, ← hk]
    exact List.any_eq_true.mpr ⟨e, he, hhit⟩

end

/-- `Remove` does what it is for: its loops end, no list is indexed past its end, exactly the
entries asked for go, and the result tells whether there were any. -/
structure RemoveExact (P : Platform) (s : THttpCookieStore) (url : TUrl) (cookie : THttpCookie) :
    Prop where
  passes : ∀ fuel removed list,
    removePasses (removeHit P url cookie) (list.length + 1 + fuel) removed list =
      removePasses (removeHit P url cookie) (list.length + 1) removed list
  walk : ∀ fuel, domainWalkFuel ((P.toLower url.host).length + fuel) (P.toLower url.host) =
    domainWalk (P.toLower url.host)
  inBounds : (remove P s url cookie).2 ≠ none
  deletes : ∀ k, (remove P s url cookie).1.cookies.lookup k =
    (s.cookies.lookup k).map fun l => l.filter fun e => decide (¬ ToRemove P url cookie k e)
  result : (remove P s url cookie).2 = some true ↔
    ∃ k, ∃ e ∈ listAt s.cookies k, ToRemove P url cookie k e

/-- **`Remove`, exactly.**  After every history the lists are left as they should be, and the call
is right as a whole iff there is nothing to delete. -/
theorem remove_exact_iff (P : Platform) (h : History) (url : TUrl) (cookie : THttpCookie)
    (hh : url.host ≠ []) :
    (∀ k, (remove P (runStore P h) url cookie).1.cookies.lookup k =
      ((runStore P h).cookies.lookup k).map fun l =>
        l.filter fun e => decide (¬ ToRemove P url cookie k e)) ∧
    (RemoveExact P (runStore P h) url cookie ↔
      ∀ k, ∀ e ∈ listAt (runStore P h).cookies k, ¬ ToRemove P url cookie k e) := by
  have hs := storeInv_runStore P h
  refine ⟨lookup_remove hs hh, ?_⟩
  have hend : _ ∨ (remove P (runStore P h) url cookie).2 = none ∧ _ := remove_result hs hh
  constructor
  · intro hexact k e he hasked
    rcases hend with ⟨-, hnone⟩ | ⟨hraised, -⟩
    · exact hnone k e he hasked
    · exact hexact.inBounds hraised
  · intro hnone
    rcases hend with ⟨hfalse, -⟩ | ⟨-, k, e, he, hasked⟩
    · refine ⟨fun fuel => removePasses_fuel _ fuel,
        fun fuel => domainWalkFuel_of_le _ _ _ (by omega) le_rfl, ?_, lookup_remove hs hh, ?_⟩
      · rw [hfalse]
        exact Option.some_ne_none _
      · rw [hfalse]
        constructor
        · intro htrue
          exact absurd htrue (by decide)
        · intro hsome
          obtain ⟨k, e, he, hasked⟩ := hsome
          exact absurd hasked (hnone k e he)
    · exact absurd hasked (hnone k e he)

/-- With `sid` stored, removing a cookie of another name deletes nothing and says so. -/
theorem remove_exact_other :
    RemoveExact asciiPlatform (runStore asciiPlatform [(1000, .add wwwUrl sidCookie)]) wwwUrl
      { name := lit "other", value := lit "1" } := by
  apply (remove_exact_iff asciiPlatform _ wwwUrl _ (by decide)).2.mpr
  intro k e he
  have hadd := (mem_listAt_add (storeInv_empty asciiPlatform) 1000 wwwUrl sidCookie k e
    (by decide +kernel)).mp he
  rcases hadd with ⟨hold, -⟩ | ⟨rfl, rfl, -⟩
  · exact absurd hold List.not_mem_nil
  · decide +kernel

/-- Removing the only cookie of a store raises. -/
theorem not_every_remove_exact :
    ¬ ∀ (P : Platform) (h : History) (url : TUrl) (cookie : THttpCookie), url.host ≠ [] →
      RemoveExact P (runStore P h) url cookie := by
  intro hall
  have hexact := hall asciiPlatform [(1000, .add wwwUrl sidCookie)] wwwUrl sidCookie (by decide)
  exact hexact.inBounds (by decide +kernel)

end NetMod.CookieStore
