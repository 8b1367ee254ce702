import NetMod.CookieStoreIdentity
import NetMod.Lib.PartialRuns
import NetMod.RedirectCookies

/-!
# `Match` and `Add` on one store without a lock

`NormalizeReqest` runs `Match` on the submitting threads while `_HeaderRead` runs `Add` on the client
thread.  A `Match` is two steps here, the traversal that collects expired entries and the removal of
what it collected; a whole `Add` comes between them or not.  The removal deletes by identity, so it
also deletes a fresh entry that an `Add` has put in the place of a collected one.  `kept_iff` says
that nothing else can lose an entry.
-/

namespace NetMod.CookieStore

open NetMod.BlitzText NetMod.HttpCookie NetMod.PartialRuns NetMod.UniqueImage

/-- The shared store, the last reading of the clock, and what each `Match` so far has collected, in
the order of their traversals; `none` once it has removed it. -/
structure SharedStore where
  store : THttpCookieStore
  clock : UInt64 := 0
  collected : List (Option CookieMap) := []

inductive StoreStep where
  | traverse (now : UInt64) (url : TUrl)
  | sweep (i : Nat)
  | add (now : UInt64) (url : TUrl) (cookie : THttpCookie)

/-- One atomic step; the clock does not go back, and a `Match` removes once. -/
def sharedStep (P : Platform) (s : SharedStore) : StoreStep → Option SharedStore
  | .traverse now url =>
    if s.clock ≤ now then
      some { s with clock := now
                    collected := s.collected ++ [some (matchTraverse P now s.store url).expired] }
    else none
  | .sweep i =>
    match s.collected[i]? with
    | some (some expired) =>
      some { s with store := CookieStore.sweep P expired s.store, collected := s.collected.set i none }
    | _ => none
  | .add now url cookie =>
    if s.clock ≤ now then
      some { s with clock := now, store := (CookieStore.add P now s.store url cookie).1 }
    else none

/-- What was collected names no entry of the identity of `e`. -/
def Spares (P : Platform) (expired : CookieMap) (e : TCachedCookie) : Prop :=
  ∀ x ∈ listAt expired (P.toLower e.domain), ¬ SameIdentity P x e

/-- The step is an `Add` of the same identity. -/
def StoreStep.Replaces (P : Platform) (e : TCachedCookie) : StoreStep → Prop
  | .add now url cookie =>
    resolveCookieDomain P url cookie ≠ [] ∧ SameIdentity P (entryOf P now url cookie) e
  | _ => False

/-! ### The two phases -/

/-- `Match` is its two phases, one behind the other. -/
theorem matchUrl_eq_phases (P : Platform) (now : UInt64) (s : THttpCookieStore) (url : TUrl) :
    (matchUrl P now s url).1 = CookieStore.sweep P (matchTraverse P now s url).expired s := by
  rw [matchUrl]
  split
  · rename_i h
    rw [matchTraverse, h]
    rfl
  · rfl

theorem mem_traverse_expired {P : Platform} {now : UInt64} {s : THttpCookieStore} {url : TUrl}
    {k : Text} {x : TCachedCookie} (h : x ∈ listAt (matchTraverse P now s url).expired k) :
    x ∈ listAt s.cookies k ∧ x.isExpired P now = true := by
  simp only [matchTraverse, mem_matchWalk_expired, listAt_empty, List.not_mem_nil, false_or] at h
  exact h.2

theorem listAt_sweep_map (P : Platform) (expired : CookieMap) (s : THttpCookieStore) (k : Text) :
    listAt (CookieStore.sweep P expired s).cookies k =
      (listAt expired k).foldl (removeCookie P) (listAt s.cookies k) :=
  listAt_sweep P k _ _ (AList.nodupKeys _)

theorem mem_listAt_sweep {P : Platform} {s : THttpCookieStore} (hs : StoreInv P s.cookies)
    (expired : CookieMap) (e : TCachedCookie) :
    Holds P (CookieStore.sweep P expired s) e ↔ Holds P s e ∧ Spares P expired e := by
  rw [Holds, listAt_sweep_map, mem_removeAll e _ _ (hs.unique _)]
  refine and_congr Iff.rfl (forall₂_congr fun x _ => ?_)
  rw [sameIdentity_iff, ne_eq, eq_comm]

theorem storeInv_sweep {P : Platform} {s : THttpCookieStore} (hs : StoreInv P s.cookies)
    (expired : CookieMap) : StoreInv P (CookieStore.sweep P expired s).cookies := by
  apply hs.of_sublist
  intro k
  rw [listAt_sweep_map]
  exact removeAll_sublist P _ _

/-! ### After the `Add` -/

/-- The store has no entry of the identity of `e` but `e`. -/
structure OnlyOf (P : Platform) (e : TCachedCookie) (s : SharedStore) : Prop where
  inv : StoreInv P s.store.cookies
  only : ∀ x ∈ listAt s.store.cookies (P.toLower e.domain), SameIdentity P x e → x = e

theorem sharedStep_inv {P : Platform} {s s' : SharedStore} {op : StoreStep}
    (hs : StoreInv P s.store.cookies) (h : sharedStep P s op = some s') :
    StoreInv P s'.store.cookies ∧ s.clock ≤ s'.clock := by
  cases op with
  | traverse now url =>
    rw [sharedStep, Option.ite_none_right_eq_some] at h
    obtain ⟨hclock, h⟩ := h
    obtain rfl := Option.some.inj h
    exact ⟨hs, hclock⟩
  | sweep i =>
    rw [sharedStep] at h
    split at h
    · obtain rfl := Option.some.inj h
      exact ⟨storeInv_sweep hs _, UInt64.le_refl _⟩
    · cases h
  | add now url cookie =>
    rw [sharedStep, Option.ite_none_right_eq_some] at h
    obtain ⟨hclock, h⟩ := h
    obtain rfl := Option.some.inj h
    exact ⟨storeInv_add hs now url cookie, hclock⟩

theorem run_shared_inv {P : Platform} {ops : List StoreStep} :
    ∀ {s s' : SharedStore}, StoreInv P s.store.cookies → run (sharedStep P) s ops = some s' →
      StoreInv P s'.store.cookies ∧ s.clock ≤ s'.clock := by
  induction ops with
  | nil =>
    intro s s' hs h
    obtain rfl := Option.some.inj h
    exact ⟨hs, UInt64.le_refl _⟩
  | cons op ops ih =>
    intro s s' hs h
    rw [run_cons] at h
    obtain ⟨m, hm, hrest⟩ := Option.bind_eq_some_iff.mp h
    obtain ⟨hmid, hle⟩ := sharedStep_inv hs hm
    obtain ⟨hend, hle'⟩ := ih hmid hrest
    exact ⟨hend, UInt64.le_trans hle hle'⟩

/-- Every removal of the steps that the state has already collected for spares `e`. -/
def SparedBy (P : Platform) (e : TCachedCookie) (s : SharedStore) (ops : List StoreStep) : Prop :=
  ∀ i expired, StoreStep.sweep i ∈ ops → s.collected[i]? = some (some expired) → Spares P expired e

section Step

variable {P : Platform} {e : TCachedCookie} {s s' : SharedStore} {ops : List StoreStep}

/-- What a later traversal collects spares an entry that is not expired. -/
theorem spares_traverse (ho : OnlyOf P e s) {now : UInt64} (url : TUrl)
    (hfresh : e.isExpired P now = false) :
    Spares P (matchTraverse P now s.store url).expired e := by
  intro x hx hsame
  obtain ⟨hmem, hexpired⟩ := mem_traverse_expired hx
  rw [ho.only x hmem hsame, hfresh] at hexpired
  cases hexpired

theorem keep_traverse (ho : OnlyOf P e s) {now : UInt64} {url : TUrl}
    (h : sharedStep P s (.traverse now url) = some s') (hfresh : e.isExpired P s'.clock = false) :
    OnlyOf P e s' ∧ (Holds P s'.store e ∧ SparedBy P e s' ops ↔
      Holds P s.store e ∧ SparedBy P e s (.traverse now url :: ops)) := by
  rw [sharedStep, Option.ite_none_right_eq_some] at h
  obtain ⟨-, h⟩ := h
  obtain rfl := Option.some.inj h
  refine ⟨⟨ho.inv, ho.only⟩, and_congr Iff.rfl ⟨fun hall i expired hi hat => ?_,
    fun hall i expired hi hat => ?_⟩⟩
  · rcases List.mem_cons.mp hi with hi | hi
    · cases hi
    · exact hall i expired hi (List.getElem?_append_left (List.getElem?_eq_some_iff.mp hat).1 ▸ hat)
  · by_cases hlt : i < s.collected.length
    · exact hall i expired (List.mem_cons_of_mem _ hi)
        (List.getElem?_append_left hlt ▸ hat)
    · have hnew : some (matchTraverse P now s.store url).expired = some expired := by
        have hat' := hat
        rw [List.getElem?_append_right (by omega), List.getElem?_singleton] at hat'
        split at hat'
        · exact Option.some.inj hat'
        · cases hat'
      exact Option.some.inj hnew ▸ spares_traverse ho url hfresh

theorem keep_sweep (ho : OnlyOf P e s) {i : Nat} (h : sharedStep P s (.sweep i) = some s') :
    OnlyOf P e s' ∧ (Holds P s'.store e ∧ SparedBy P e s' ops ↔
      Holds P s.store e ∧ SparedBy P e s (.sweep i :: ops)) := by
  rw [sharedStep] at h
  split at h
  · rename_i expired hexpired
    obtain rfl := Option.some.inj h
    refine ⟨⟨storeInv_sweep ho.inv _, fun x hx => ?_⟩, ?_⟩
    · rw [listAt_sweep_map] at hx
      exact ho.only x ((removeAll_sublist P _ _).subset hx)
    · rw [mem_listAt_sweep ho.inv]
      constructor
      · intro hkept
        obtain ⟨⟨hin, hspares⟩, hall⟩ := hkept
        refine ⟨hin, fun j expired' hj hat => ?_⟩
        by_cases hij : j = i
        · rw [hij, hexpired] at hat
          exact Option.some.inj (Option.some.inj hat) ▸ hspares
        · rcases List.mem_cons.mp hj with hj | hj
          · exact absurd (StoreStep.sweep.inj hj) hij
          · exact hall j expired' hj (by rw [List.getElem?_set_ne (Ne.symm hij)]; exact hat)
      · intro hkept
        obtain ⟨hin, hall⟩ := hkept
        refine ⟨⟨hin, hall i expired List.mem_cons_self hexpired⟩, fun j expired' hj hat => ?_⟩
        by_cases hij : j = i
        · subst hij
          have hlt : j < s.collected.length := (List.getElem?_eq_some_iff.mp hexpired).1
          rw [List.getElem?_set_self hlt] at hat
          cases Option.some.inj hat
        · rw [List.getElem?_set_ne (Ne.symm hij)] at hat
          exact hall j expired' (List.mem_cons_of_mem _ hj) hat
  · cases h

theorem keep_add (ho : OnlyOf P e s) {now : UInt64} {url : TUrl} {cookie : THttpCookie}
    (h : sharedStep P s (.add now url cookie) = some s')
    (hother : ¬ (StoreStep.add now url cookie).Replaces P e) :
    OnlyOf P e s' ∧ (Holds P s'.store e ∧ SparedBy P e s' ops ↔
      Holds P s.store e ∧ SparedBy P e s (.add now url cookie :: ops)) := by
  rw [sharedStep, Option.ite_none_right_eq_some] at h
  obtain ⟨-, h⟩ := h
  obtain rfl := Option.some.inj h
  have hspared : SparedBy P e
      { s with clock := now, store := (CookieStore.add P now s.store url cookie).1 } ops ↔
        SparedBy P e s (.add now url cookie :: ops) := by
    refine ⟨fun hall i expired hi => ?_, fun hall i expired hi => hall i expired
      (List.mem_cons_of_mem _ hi)⟩
    rcases List.mem_cons.mp hi with hi | hi
    · cases hi
    · exact hall i expired hi
  rw [hspared]
  by_cases hd : resolveCookieDomain P url cookie = []
  · rw [add_rejected P now s.store url cookie hd]
    exact ⟨⟨ho.inv, ho.only⟩, Iff.rfl⟩
  · have hne : ¬ SameIdentity P (entryOf P now url cookie) e := fun hsame => hother ⟨hd, hsame⟩
    have hmem : ∀ x, x ∈ listAt (CookieStore.add P now s.store url cookie).1.cookies
        (P.toLower e.domain) → SameIdentity P x e →
          x ∈ listAt s.store.cookies (P.toLower e.domain) := by
      intro x hx hsame
      rcases (mem_listAt_add ho.inv now url cookie _ x hd).mp hx with ⟨hx, -⟩ | ⟨-, rfl, -⟩
      · exact hx
      · exact absurd hsame hne
    refine ⟨⟨storeInv_add ho.inv now url cookie, fun x hx hsame => ho.only x (hmem x hx hsame) hsame⟩,
      and_congr ?_ Iff.rfl⟩
    constructor
    · exact fun hin => hmem e hin ⟨rfl, rfl, rfl⟩
    · intro hin
      refine (mem_listAt_add ho.inv now url cookie _ e hd).mpr (Or.inl ⟨hin, fun hid => hne ?_⟩)
      exact sameIdentity_iff.mpr hid.symm

end Step

/-- **What the steps after an `Add` leave of its entry**, if they do not replace it and it does not
expire: it stays unless a removal that had been collected for before takes it. -/
theorem kept_run {P : Platform} {e : TCachedCookie} (ops : List StoreStep) :
    ∀ {s s' : SharedStore}, OnlyOf P e s → run (sharedStep P) s ops = some s' →
      e.isExpired P s'.clock = false → (∀ op ∈ ops, ¬ op.Replaces P e) →
      (Holds P s'.store e ↔ Holds P s.store e ∧ SparedBy P e s ops) := by
  induction ops with
  | nil =>
    intro s s' _ h _ _
    obtain rfl := Option.some.inj h
    exact ⟨fun hin => ⟨hin, fun i expired hi => absurd hi List.not_mem_nil⟩, fun hin => hin.1⟩
  | cons op ops ih =>
    intro s s' ho h hfresh hother
    rw [run_cons] at h
    obtain ⟨m, hm, hrest⟩ := Option.bind_eq_some_iff.mp h
    have hclock : m.clock ≤ s'.clock :=
      (run_shared_inv (sharedStep_inv ho.inv hm).1 hrest).2
    have hfreshm : e.isExpired P m.clock = false := by
      cases hx : e.isExpired P m.clock with
      | false => rfl
      | true =>
        rw [TCachedCookie.isExpired_mono P hclock hx] at hfresh
        cases hfresh
    have hstep : OnlyOf P e m ∧ (Holds P m.store e ∧ SparedBy P e m ops ↔
        Holds P s.store e ∧ SparedBy P e s (op :: ops)) := by
      cases op with
      | traverse now url => exact keep_traverse ho hm hfreshm
      | sweep i => exact keep_sweep ho hm
      | add now url cookie => exact keep_add ho hm (hother _ List.mem_cons_self)
    rw [ih hstep.1 hrest hfresh fun op' hop => hother op' (List.mem_cons_of_mem _ hop)]
    exact hstep.2

/-- After an accepted `Add` the store has its entry, and no other of its identity. -/
theorem onlyOf_add {P : Platform} {s : SharedStore} {now : UInt64} {url : TUrl} {cookie : THttpCookie}
    (hs : StoreInv P s.store.cookies) (ha : (CookieStore.add P now s.store url cookie).2 = true) :
    OnlyOf P (entryOf P now url cookie)
        { s with clock := now, store := (CookieStore.add P now s.store url cookie).1 } ∧
      Holds P (CookieStore.add P now s.store url cookie).1 (entryOf P now url cookie) := by
  obtain ⟨hd, hfresh⟩ := (add_accepts_iff P now s.store url cookie).mp ha
  have hinv := storeInv_add hs now url cookie
  have hin : Holds P (CookieStore.add P now s.store url cookie).1 (entryOf P now url cookie) :=
    (mem_listAt_add hs now url cookie _ _ hd).mpr (Or.inr ⟨rfl, rfl, hfresh⟩)
  refine ⟨⟨hinv, fun x hx hsame => ?_⟩, hin⟩
  exact eq_of_mem_of_key (hinv.unique _) hx hin (sameIdentity_iff.mp hsame)

/-- **When no cookie update is lost.**  From any store, over any interleaving: an entry that an `Add`
stored, that has not expired and that no later `Add` has replaced is still there exactly when every
removal after the `Add` of what a `Match` had collected before it names no entry of its identity. -/
theorem kept_iff {P : Platform} {s mid s' : SharedStore} {pre post : List StoreStep} {now : UInt64}
    {url : TUrl} {cookie : THttpCookie} (hs : StoreInv P s.store.cookies)
    (hpre : run (sharedStep P) s pre = some mid)
    (hadded : (CookieStore.add P now mid.store url cookie).2 = true)
    (hrun : run (sharedStep P) mid (.add now url cookie :: post) = some s')
    (hfresh : (entryOf P now url cookie).isExpired P s'.clock = false)
    (hlast : ∀ op ∈ post, ¬ op.Replaces P (entryOf P now url cookie)) :
    Holds P s'.store (entryOf P now url cookie) ↔
      SparedBy P (entryOf P now url cookie) mid post := by
  have hmid := (run_shared_inv hs hpre).1
  obtain ⟨honly, hin⟩ := onlyOf_add hmid hadded
  rw [run_cons] at hrun
  obtain ⟨m, hm, hrest⟩ := Option.bind_eq_some_iff.mp hrun
  rw [sharedStep, Option.ite_none_right_eq_some] at hm
  obtain rfl := Option.some.inj hm.2
  rw [kept_run post honly hrest hfresh hlast]
  exact and_iff_right hin

instance (P : Platform) (s : THttpCookieStore) (e : TCachedCookie) : Decidable (Holds P s e) :=
  inferInstanceAs (Decidable (_ ∈ _))

def loginUrl : TUrl := ⟨lit "https", lit "shop.example", lit "/", lit "https://shop.example/"⟩

def sessionCookie : THttpCookie := { name := lit "sid", value := lit "2" }

/-- A cookie for one second. -/
def briefCookie : THttpCookie where
  name := lit "sid"
  value := lit "1"
  attributes := [(ECookieAttribute.maxAge.toText, lit "1")]

/-- A store whose only entry was made at the first second. -/
def briefStore : SharedStore where
  store := runStore asciiPlatform [(1000, .add loginUrl briefCookie)]
  clock := 1000

theorem kept_session :
    ∃ s', run (sharedStep asciiPlatform) briefStore
        [.add 1500 loginUrl sessionCookie, .traverse 5000 loginUrl, .sweep 0] = some s' ∧
      Holds asciiPlatform s'.store (entryOf asciiPlatform 1500 loginUrl sessionCookie) := by
  have hend : (run (sharedStep asciiPlatform) briefStore
      [.add 1500 loginUrl sessionCookie, .traverse 5000 loginUrl, .sweep 0]).any (fun s' =>
        !(entryOf asciiPlatform 1500 loginUrl sessionCookie).isExpired asciiPlatform s'.clock) =
      true := by
    decide +kernel
  obtain ⟨s', hrun, hfresh⟩ := (Option.any_eq_true _ _).mp hend
  refine ⟨s', hrun, (kept_iff (storeInv_runStore asciiPlatform _) (run_nil _) ?_ hrun ?_ ?_).mpr
    ?_⟩
  · decide +kernel
  · exact Bool.not_eq_true' _ ▸ hfresh
  · intro op hop
    rcases List.mem_cons.mp hop with rfl | hop
    · exact id
    · obtain rfl := List.mem_singleton.mp hop
      exact id
  · intro i expired _ hat
    cases hat

/-- A `Match` has collected the brief cookie when the server renews it, and then removes the new
one. -/
theorem not_every_update_kept :
    ¬ ∀ (s mid s' : SharedStore) (pre post : List StoreStep) (now : UInt64) (url : TUrl)
      (cookie : THttpCookie), StoreInv asciiPlatform s.store.cookies → s.collected = [] →
      run (sharedStep asciiPlatform) s pre = some mid →
      (CookieStore.add asciiPlatform now mid.store url cookie).2 = true →
      run (sharedStep asciiPlatform) mid (.add now url cookie :: post) = some s' →
      (entryOf asciiPlatform now url cookie).isExpired asciiPlatform s'.clock = false →
      (∀ op ∈ post, ¬ op.Replaces asciiPlatform (entryOf asciiPlatform now url cookie)) →
      Holds asciiPlatform s'.store (entryOf asciiPlatform now url cookie) := by
  intro hall
  have hend : (run (sharedStep asciiPlatform) briefStore [.traverse 5000 loginUrl]).any (fun mid =>
      (CookieStore.add asciiPlatform 6000 mid.store loginUrl sessionCookie).2 &&
        (run (sharedStep asciiPlatform) mid
          [.add 6000 loginUrl sessionCookie, .sweep 0]).any fun s' =>
            !(entryOf asciiPlatform 6000 loginUrl sessionCookie).isExpired asciiPlatform s'.clock &&
              !decide (Holds asciiPlatform s'.store
                (entryOf asciiPlatform 6000 loginUrl sessionCookie))) = true := by
    decide +kernel
  obtain ⟨mid, hpre, hmid⟩ := (Option.any_eq_true _ _).mp hend
  obtain ⟨hadded, hlater⟩ := Bool.and_eq_true_iff.mp hmid
  obtain ⟨s', hrun, hs'⟩ := (Option.any_eq_true _ _).mp hlater
  simp only [Bool.and_eq_true, Bool.not_eq_true', decide_eq_false_iff_not] at hs'
  refine hs'.2 (hall briefStore mid s' _ _ 6000 loginUrl sessionCookie
    (storeInv_runStore asciiPlatform _) rfl hpre hadded hrun hs'.1 fun op hop => ?_)
  obtain rfl := List.mem_singleton.mp hop
  exact id

end NetMod.CookieStore
