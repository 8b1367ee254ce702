import Mathlib.Logic.Function.Iterate
import NetMod.CookieStoreIdentity
import NetMod.Lib.SeparatedText

/-!
# The parent-domain walk

`Match` and `Remove` go from the lower-cased host of their URL to its parent domains.  `ParentDomain`
takes off the first label as long as a dot is left behind it, so the walk is the host and, of the
suffixes behind a dot, those that have a dot themselves (`domainWalk_eq`).  They get shorter, and no
key comes twice.

As an entry lies under one key only, `Match` meets it once at most: `parents_visited_once`.
-/

namespace NetMod.CookieStore

open NetMod.BlitzText NetMod.HttpCookie NetMod.SeparatedText

/-! ### One step -/

theorem contains_dot_iff {s : Text} : contains s (lit ".") = true ↔ asc '.' ∈ s := by
  rw [contains, decide_eq_true_iff]
  constructor
  · exact fun h => h.subset List.mem_cons_self
  · intro h
    obtain ⟨p, t, rfl⟩ := List.append_of_mem h
    exact ⟨p, t, List.append_assoc p [asc '.'] t⟩

theorem parentDomain_of_not_mem {d : Text} (h : asc '.' ∉ d) : parentDomain d = [] := by
  rw [parentDomain, find_of_not_mem h]

theorem parentDomain_append {p : Text} (hp : asc '.' ∉ p) (t : Text) :
    parentDomain (p ++ asc '.' :: t) = if asc '.' ∈ t then t else [] := by
  rw [parentDomain, find_append hp]
  dsimp only
  rw [drop_until]
  by_cases ht : asc '.' ∈ t
  · rw [if_neg (fun hnone => find_eq_none_iff.mp hnone ht), if_pos ht]
  · rw [if_pos (find_eq_none_iff.mpr ht), if_neg ht]

theorem iterate_parentDomain_nil (n : Nat) : parentDomain^[n] [] = [] := by
  induction n with
  | zero => rfl
  | succ n ih => exact ih

/-! ### The walk -/

/-- **The keys of the walk**: a host, and its suffixes behind a dot that have a dot. -/
theorem domainWalk_eq {d : Text} (hd : d ≠ []) :
    domainWalk d = d :: (behind (asc '.') d).filter fun t => decide (asc '.' ∈ t) := by
  -- on the length: the parent is a shorter text
  induction hlen : d.length using Nat.strong_induction_on generalizing d with
  | _ n ih =>
    rw [domainWalk_cons hd]
    congr 1
    by_cases hdot : asc '.' ∈ d
    · obtain ⟨p, t, rfl, hp⟩ := List.eq_append_cons_of_mem hdot
      rw [parentDomain_append hp, behind_append hp, List.filter_cons]
      by_cases ht : asc '.' ∈ t
      · rw [if_pos ht, if_pos (decide_eq_true ht)]
        apply ih t.length _ (List.ne_nil_of_mem ht) rfl
        rw [← hlen, List.length_append, List.length_cons]
        omega
      · rw [if_neg ht, if_neg (mt of_decide_eq_true ht), behind_of_not_mem ht]
        rfl
    · rw [parentDomain_of_not_mem hdot, behind_of_not_mem hdot]
      rfl

example : domainWalk (lit "a..example.com") =
    [lit "a..example.com", lit ".example.com", lit "example.com"] := by decide

theorem mem_domainWalk_iff {d k : Text} :
    k ∈ domainWalk d ↔
      (d ≠ [] ∧ k = d) ∨ (lit "." ++ k <:+ d ∧ contains k (lit ".") = true) := by
  by_cases hd : d = []
  · subst hd
    refine iff_of_false List.not_mem_nil ?_
    rintro (⟨hne, -⟩ | ⟨hsuffix, -⟩)
    · exact hne rfl
    · exact List.cons_ne_nil _ _ (List.suffix_nil.mp hsuffix)
  · rw [domainWalk_eq hd, List.mem_cons, List.mem_filter, mem_behind, decide_eq_true_iff,
      contains_dot_iff, and_iff_right hd]
    rfl

theorem domainWalk_shrinking (d : Text) :
    (domainWalk d).Pairwise fun a b => b.length < a.length := by
  by_cases hd : d = []
  · rw [hd]
    exact List.Pairwise.nil
  · rw [domainWalk_eq hd]
    apply List.Pairwise.cons
    · intro t ht
      exact length_lt_of_mem_behind (List.mem_filter.mp ht).1
    · exact (behind_shrinking _ d).filter _

theorem domainWalk_nodup (d : Text) : (domainWalk d).Nodup :=
  nodup_of_shrinking (domainWalk_shrinking d)

/-- The walk is the sequence of parents, up to its end. -/
theorem getElem?_domainWalk (i : Nat) (d : Text) :
    (domainWalk d)[i]? = if parentDomain^[i] d = [] then none else some (parentDomain^[i] d) := by
  induction i generalizing d with
  | zero =>
    by_cases hd : d = []
    · rw [hd]
      rfl
    · rw [domainWalk_cons hd]
      exact (if_neg hd).symm
  | succ i ih =>
    by_cases hd : d = []
    · rw [hd, iterate_parentDomain_nil]
      rfl
    · rw [domainWalk_cons hd, List.getElem?_cons_succ, ih, Function.iterate_succ_apply]

theorem iterate_parentDomain_length (d : Text) : parentDomain^[(domainWalk d).length] d = [] := by
  have hend := getElem?_domainWalk (domainWalk d).length d
  rw [List.getElem?_eq_none le_rfl] at hend
  by_contra hne
  rw [if_neg hne] at hend
  cases hend

/-! ### The keys of a host -/

section

variable {P : Platform}

/-- Parts of a text in lower case are in lower case. -/
theorem toLower_of_subset {s host : Text} (h : s ⊆ P.toLower host) : P.toLower s = s := by
  have hfixed : ∀ c ∈ s, P.lowerUnit c = c := by
    intro c hc
    obtain ⟨b, -, rfl⟩ := List.mem_map.mp (h hc)
    exact P.lower_lower b
  exact (List.map_congr_left hfixed).trans (List.map_id' s)

theorem subset_of_mem_domainWalk {d k : Text} (hk : k ∈ domainWalk d) : k ⊆ d := by
  rcases mem_domainWalk_iff.mp hk with ⟨-, rfl⟩ | ⟨hsuffix, -⟩
  · exact List.Subset.refl k
  · exact fun c hc => hsuffix.subset (List.mem_append_right _ hc)

/-- `Remove` lower-cases each key again, and looks under the same ones. -/
theorem map_toLower_domainWalk (host : Text) :
    (domainWalk (P.toLower host)).map P.toLower = domainWalk (P.toLower host) := by
  have hfixed : ∀ k ∈ domainWalk (P.toLower host), P.toLower k = k :=
    fun k hk => toLower_of_subset (subset_of_mem_domainWalk hk)
  exact (List.map_congr_left hfixed).trans (List.map_id' _)

theorem dot_mem_toLower {d : Text} (h : asc '.' ∈ d) : asc '.' ∈ P.toLower d :=
  List.mem_map.mpr ⟨asc '.', h, rfl⟩

/-- A domain with a dot that covers the host is one of the keys. -/
theorem mem_domainWalk_of_within {host d : Text} (hd : contains d (lit ".") = true)
    (hwithin : HostWithin P host d) : P.toLower d ∈ domainWalk (P.toLower host) := by
  have hdot := dot_mem_toLower (P := P) (contains_dot_iff.mp hd)
  rw [mem_domainWalk_iff]
  rcases hwithin with heq | hsuffix
  · refine Or.inl ⟨?_, heq.symm⟩
    rw [heq]
    exact List.ne_nil_of_mem hdot
  · exact Or.inr ⟨hsuffix, contains_dot_iff.mpr hdot⟩

end

/-- The walk of `Match` and `Remove` from a host: it ends, it has the keys it should, in order, and
it visits every domain that covers the host once. -/
structure VisitsParents (P : Platform) (host : Text) : Prop where
  /-- the sequence of parents ends, and the walk is what comes before -/
  ends : ∃ n, parentDomain^[n] (P.toLower host) = []
  sequence : ∀ i, (domainWalk (P.toLower host))[i]? =
    if parentDomain^[i] (P.toLower host) = [] then none else some (parentDomain^[i] (P.toLower host))
  first : host ≠ [] → (domainWalk (P.toLower host)).head? = some (P.toLower host)
  keys : ∀ k, k ∈ domainWalk (P.toLower host) ↔
    (host ≠ [] ∧ k = P.toLower host) ∨
      (lit "." ++ k <:+ P.toLower host ∧ contains k (lit ".") = true)
  shrinking : (domainWalk (P.toLower host)).Pairwise fun a b => b.length < a.length
  distinct : (domainWalk (P.toLower host)).Nodup
  /-- the keys `Match` and `Remove` look under have that of the domain once -/
  once : ∀ d, contains d (lit ".") = true → HostWithin P host d →
    (domainWalk (P.toLower host)).count (P.toLower d) = 1 ∧
      ((domainWalk (P.toLower host)).map P.toLower).count (P.toLower d) = 1

theorem visitsParents (P : Platform) (host : Text) : VisitsParents P host where
  ends := ⟨_, iterate_parentDomain_length _⟩
  sequence i := getElem?_domainWalk i _
  first hne := by
    rw [domainWalk_cons (by simpa using hne)]
    rfl
  keys k := by
    rw [mem_domainWalk_iff, ne_eq, toLower_eq_nil]
  shrinking := domainWalk_shrinking _
  distinct := domainWalk_nodup _
  once d hd hwithin := by
    have hone := List.count_eq_one_of_mem (domainWalk_nodup _) (mem_domainWalk_of_within hd hwithin)
    rw [map_toLower_domainWalk]
    exact ⟨hone, hone⟩

/-! ### Entries -/

section

variable {P : Platform} {s : THttpCookieStore}

theorem holds_of_mem_matchedEntries (hs : StoreInv P s.cookies) {now : UInt64} {url : TUrl}
    {e : TCachedCookie} (he : e ∈ matchedEntries P now s url) : Holds P s e := by
  obtain ⟨k, -, hk⟩ := List.mem_flatMap.mp he
  have hlist := ((mem_matchedAt P now url.host _ _).mp hk).1
  rw [Holds, hs.keyed k e hlist]
  exact hlist

/-- The keys are met once, and an entry lies under one of them. -/
theorem matchedEntries_nodup (hs : StoreInv P s.cookies) (now : UInt64) (url : TUrl) :
    (matchedEntries P now s url).Nodup := by
  rw [matchedEntries, List.nodup_flatMap]
  constructor
  · intro k _
    exact (List.Nodup.of_map _ (hs.unique k)).filter _
  · apply (domainWalk_nodup (P.toLower url.host)).imp
    intro a b hab
    refine List.disjoint_left.mpr fun e ha hb => hab ?_
    rw [← hs.keyed a e ((mem_matchedAt P now url.host _ _).mp ha).1,
      ← hs.keyed b e ((mem_matchedAt P now url.host _ _).mp hb).1]

end

/-- **Every relevant key is visited once**, and `Match` returns no entry of a reachable store
twice. -/
theorem parents_visited_once (P : Platform) :
    (∀ host, VisitsParents P host) ∧
      ∀ (h : History) (now : UInt64) (url : TUrl),
        (matchUrl P now (runStore P h) url).2 =
            (matchedEntries P now (runStore P h) url).map (·.cookie) ∧
          (∀ e ∈ matchedEntries P now (runStore P h) url, Holds P (runStore P h) e) ∧
          (matchedEntries P now (runStore P h) url).Nodup := by
  refine ⟨visitsParents P, fun h now url => ⟨matchUrl_result P now _ url, ?_, ?_⟩⟩
  · exact fun e he => holds_of_mem_matchedEntries (storeInv_runStore P h) he
  · exact matchedEntries_nodup (storeInv_runStore P h) now url

end NetMod.CookieStore
