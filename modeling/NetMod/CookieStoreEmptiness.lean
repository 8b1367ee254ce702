import NetMod.Lib.ListMap
import NetMod.CookieStoreIdentity
import NetMod.CookieStoreRemoval

/-!
# When the store knows that it is empty

`IsEmpty` and `Clear` look at the number of keys.  They speak about the entries as long as no key is
left with an empty list, and `Match` takes care of that: its sweep drops a list that runs empty.
`Add` and `Remove` do not.  An expired cookie that replaces the only one of its domain, and a removal
of all cookies of a domain, leave the key behind for good.

`honest_applyOp_iff` says this of one operation: from a state that speaks the truth it leads to one
that does not exactly in these two cases (`EmptiesList`).  `stays_honest_iff` carries it over whole
histories.
-/

namespace NetMod.CookieStore

open NetMod.BlitzText NetMod.HttpCookie NetMod.ListMap

/-- The store's answers about its emptiness and its size are true. -/
structure Honest (s : THttpCookieStore) : Prop where
  noEmptyList : ∀ k l, s.cookies.lookup k = some l → l ≠ []
  isEmpty_iff : isEmpty s = true ↔ allEntries s = []
  clear_iff : (clear s).2 = true ↔ allEntries s ≠ []
  keys_le : s.cookies.entries.length ≤ (allEntries s).length

/-- It is enough that no key maps to an empty list. -/
theorem honest_iff {s : THttpCookieStore} : Honest s ↔ NoEmptyList s.cookies := by
  constructor
  · exact fun h => h.noEmptyList
  · intro h
    have hnil : s.cookies.entries = [] ↔ allEntries s = [] := h.entries_eq_nil_iff
    refine ⟨h, ?_, ?_, h.keys_le⟩
    · rw [isEmpty, List.isEmpty_iff, hnil]
    · have hlen := List.length_eq_zero_iff.trans hnil
      rw [clear]
      split
      · rename_i hempty
        simp [hlen.mp hempty]
      · rename_i hne
        simp [mt hlen.mpr hne]

/-! ### The operations -/

/-- The operation takes the last entry out of a list and files the empty list: `Add` of an expired
cookie that replaces all entries of its domain, or `Remove` asked for all entries of a key. -/
def EmptiesList (P : Platform) (s : THttpCookieStore) : StampedOp → Prop
  | (now, .add url cookie) =>
    resolveCookieDomain P url cookie ≠ [] ∧ (entryOf P now url cookie).isExpired P now = true ∧
      ∃ l, s.cookies.lookup (P.toLower (resolveCookieDomain P url cookie)) = some l ∧
        ∀ e ∈ l, e.identity P = (entryOf P now url cookie).identity P
  | (_, .remove url cookie) =>
    url.host ≠ [] ∧ ∃ k l, s.cookies.lookup k = some l ∧ ∀ e ∈ l, ToRemove P url cookie k e
  | (_, .matchUrl _) => False
  | (_, .clear) => False

section

variable {P : Platform} {s : THttpCookieStore}

/-- A replacement leaves nothing iff the list holds entries of that identity only. -/
theorem removeCookie_eq_nil_iff {l : List TCachedCookie}
    (hl : (l.map (TCachedCookie.identity P)).Nodup) {x : TCachedCookie} :
    removeCookie P l x = [] ↔ ∀ e ∈ l, e.identity P = x.identity P := by
  rw [List.eq_nil_iff_forall_not_mem]
  apply forall_congr'
  intro e
  rw [mem_removeCookie hl, not_and, not_not]

theorem noEmptyList_add_iff (hs : StoreInv P s.cookies) (hm : NoEmptyList s.cookies)
    (now : UInt64) (url : TUrl) (cookie : THttpCookie) :
    NoEmptyList (add P now s url cookie).1.cookies ↔
      ¬ EmptiesList P s (now, .add url cookie) := by
  rw [EmptiesList]
  by_cases hd : resolveCookieDomain P url cookie = []
  · rw [add_rejected P now s url cookie hd]
    exact iff_of_true hm fun h => h.1 hd
  · rw [add_resolved P now s url cookie hd]
    cases hl : s.cookies.lookup (P.toLower (resolveCookieDomain P url cookie)) with
    | none =>
      have hnone : ¬ (resolveCookieDomain P url cookie ≠ [] ∧
          (entryOf P now url cookie).isExpired P now = true ∧
          ∃ l, (none : Option (List TCachedCookie)) = some l ∧
            ∀ e ∈ l, e.identity P = (entryOf P now url cookie).identity P) := by
        intro h
        obtain ⟨-, -, l, hnone, -⟩ := h
        exact absurd hnone.symm (Option.some_ne_none l)
      cases hx : (entryOf P now url cookie).isExpired P now with
      | true => exact iff_of_true hm (hx ▸ hnone)
      | false => exact iff_of_true ((hm.insert_iff _ _).mpr (List.cons_ne_nil _ _)) (hx ▸ hnone)
    | some l =>
      have hnodup := hs.unique (P.toLower (resolveCookieDomain P url cookie))
      rw [listAt_of_lookup hl] at hnodup
      cases hx : (entryOf P now url cookie).isExpired P now with
      | true =>
        show NoEmptyList (s.cookies.insert _ (removeCookie P l (entryOf P now url cookie))) ↔ _
        rw [hm.insert_iff, ne_eq, removeCookie_eq_nil_iff hnodup]
        simp [hd]
      | false =>
        refine iff_of_true ((hm.insert_iff _ _).mpr ?_) (by simp)
        exact List.append_ne_nil_of_right_ne_nil _ (List.cons_ne_nil _ _)

theorem noEmptyList_remove_iff (hs : StoreInv P s.cookies) (hm : NoEmptyList s.cookies)
    (now : UInt64) (url : TUrl) (cookie : THttpCookie) :
    NoEmptyList (remove P s url cookie).1.cookies ↔
      ¬ EmptiesList P s (now, .remove url cookie) := by
  rw [EmptiesList]
  by_cases hh : url.host = []
  · rw [remove, if_pos hh]
    exact iff_of_true hm fun h => h.1 hh
  · have hfilter : ∀ k (l : List TCachedCookie),
        (l.filter fun e => decide (¬ ToRemove P url cookie k e)) = [] ↔
          ∀ e ∈ l, ToRemove P url cookie k e := by
      intro k l
      simp only [List.filter_eq_nil_iff, decide_eq_true_eq, not_not]
    constructor
    · intro hafter hempties
      obtain ⟨-, k, l, hl, hall⟩ := hempties
      refine hafter k [] ?_ rfl
      rw [lookup_remove hs hh, hl, ← (hfilter k l).mpr hall]
      rfl
    · intro hkeeps k l' hl' hnil
      rw [lookup_remove hs hh] at hl'
      obtain ⟨l, hl, rfl⟩ := Option.map_eq_some_iff.mp hl'
      exact hkeeps ⟨hh, k, l, hl, (hfilter k l).mp hnil⟩

/-- The sweep of `Match` drops the lists that run empty. -/
theorem noEmptyList_sweep :
    ∀ (es : List ((_ : Text) × List TCachedCookie)) (m : CookieMap), NoEmptyList m →
      NoEmptyList (es.foldl (sweepEntry P) m) := by
  intro es
  induction es with
  | nil => exact fun _ hm => hm
  | cons entry es ih =>
    intro m hm
    apply ih
    rw [sweepEntry]
    split
    · dsimp only
      split
      · exact hm.erase _
      · rename_i hne
        exact (hm.insert_iff _ _).mpr hne
    · exact hm

theorem noEmptyList_matchUrl (hm : NoEmptyList s.cookies) (now : UInt64) (url : TUrl) :
    NoEmptyList (matchUrl P now s url).1.cookies := by
  rw [matchUrl]
  split
  · exact hm
  · exact noEmptyList_sweep _ _ hm

/-- **One operation**: the store stays honest unless the operation files an empty list. -/
theorem honest_applyOp_iff (hs : StoreInv P s.cookies) (hm : Honest s) (op : StampedOp) :
    Honest (applyOp P s op) ↔ ¬ EmptiesList P s op := by
  rw [honest_iff] at hm ⊢
  obtain ⟨now, op⟩ := op
  cases op with
  | add url cookie => exact noEmptyList_add_iff hs hm now url cookie
  | remove url cookie => exact noEmptyList_remove_iff hs hm now url cookie
  | matchUrl url => exact iff_of_true (noEmptyList_matchUrl hm now url) id
  | clear =>
    refine iff_of_true ?_ id
    show NoEmptyList (clear s).1.cookies
    rw [clear]
    split
    · exact hm
    · exact noEmptyList_empty

end

theorem runStore_concat (P : Platform) (h : History) (op : StampedOp) :
    runStore P (h ++ [op]) = applyOp P (runStore P h) op := by
  rw [runStore, List.foldl_append]
  rfl

/-- **An empty store says so, exactly**: in every state of a history iff no operation of it files an
empty list. -/
theorem stays_honest_iff (P : Platform) (h : History) :
    (∀ h₁ h₂, h = h₁ ++ h₂ → Honest (runStore P h₁)) ↔
      ∀ h₁ op h₂, h = h₁ ++ op :: h₂ → ¬ EmptiesList P (runStore P h₁) op := by
  constructor
  · intro hall h₁ op h₂ hsplit
    have hbefore := hall h₁ (op :: h₂) hsplit
    have hafter := hall (h₁ ++ [op]) h₂ (by rw [hsplit, List.append_assoc]; rfl)
    rw [runStore_concat] at hafter
    exact (honest_applyOp_iff (storeInv_runStore P h₁) hbefore op).mp hafter
  · intro hkeeps h₁
    -- from the first operation on: the state before an operation is honest, so the next one is
    induction h₁ using List.reverseRecOn with
    | nil => exact fun _ _ => honest_iff.mpr noEmptyList_empty
    | append_singleton h₁ op ih =>
      intro h₂ hsplit
      have hsplit' : h = h₁ ++ op :: h₂ := by rw [hsplit, List.append_assoc]; rfl
      rw [runStore_concat]
      exact (honest_applyOp_iff (storeInv_runStore P h₁) (ih _ hsplit') op).mpr
        (hkeeps h₁ op h₂ hsplit')

/-- A cookie that is deleted again leaves a store that denies being empty. -/
theorem not_always_honest :
    ¬ ∀ (P : Platform) (h : History), Honest (runStore P h) := by
  intro hall
  have hhonest := hall asciiPlatform [(1000, .add wwwUrl sidCookie),
    (2000, .add wwwUrl { sidCookie with attributes := [(lit "MaxAge", lit "0")] })]
  have hempty := hhonest.isEmpty_iff.mpr (by decide +kernel)
  exact absurd hempty (by decide +kernel)

end NetMod.CookieStore
