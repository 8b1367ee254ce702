import NetMod.RequestPreparation

/-!
# `TCAStoreProvider`: the first store with certificates

`Init` keeps the stores that `VerifyBundle` accepts and `GetStore` gives the first of them.  A store
with a list of candidate paths is accepted even when none of them is a file, so it stays in front of
the stores behind it without having any certificates.  `provider_right_iff` says that this is the one
way to get another store than the first usable one.
-/

namespace NetMod.CaStore

open NetMod.BlitzText NetMod.RequestPreparation

/-- A store as it is registered: `New(path)`, `New(paths)`, or a blob store after `SetBlob`. -/
inductive NewStore where
  | path (path : Text)
  | paths (paths : List Text)
  | blob (bytes : List UInt8)
deriving DecidableEq

namespace NewStore

def make : NewStore → TCAStore
  | .path p => .file { path := p }
  | .paths ps => .file { paths := ps }
  | .blob bytes => .blob bytes

/-- The certificates the store can supply: its file, the first of its candidates that is one, or its
blob. -/
def supplies (m : CaMachine) : NewStore → Option CaSource
  | .path p => if m.fileExists p then some (.path p) else none
  | .paths ps => (ps.find? m.fileExists).map .path
  | .blob bytes => if bytes ≠ [] then some (.blob bytes) else none

/-- A list of candidate paths none of which is a file. -/
def DeadPaths (m : CaMachine) (s : NewStore) : Prop :=
  ∃ ps, s = .paths ps ∧ ps ≠ [] ∧ ∀ p ∈ ps, m.fileExists p = false

/-- The store after `VerifyBundle`. -/
def verified (m : CaMachine) (s : NewStore) : TCAStore := (s.make.verifyBundle m).1

/-- The result of `VerifyBundle`. -/
def accepted (m : CaMachine) (s : NewStore) : Bool := (s.make.verifyBundle m).2

end NewStore

/-- The provider with its registered stores. -/
def registered (stores : List NewStore) : TCAStoreProvider :=
  stores.foldl (fun provider s => provider.register s.make) {}

/-- The empty string names no file. -/
def NamedFiles (m : CaMachine) : Prop := m.fileExists [] = false

/-! ### What `VerifyBundle` answers -/

section

variable {m : CaMachine}

/-- A verified store tells what it can supply. -/
theorem source?_verified (hm : NamedFiles m) (s : NewStore) :
    (s.verified m).source? = s.supplies m := by
  cases s with
  | blob bytes => rfl
  | path path =>
    by_cases hp : path = []
    · rw [hp, NewStore.supplies, hm]
      rfl
    · cases hf : m.fileExists path <;>
        simp [NewStore.verified, NewStore.make, NewStore.supplies, TCAStore.verifyBundle,
          TFileCAStore.verifyBundle, TCAStore.source?, TCAStore.isAFile, TCAStore.certsAsPath,
          TFileCAStore.certsAsPath, hp, hf]
  | paths paths =>
    cases hf : paths.find? m.fileExists with
    | none =>
      by_cases hp : paths = [] <;>
        simp [NewStore.verified, NewStore.make, NewStore.supplies, TCAStore.verifyBundle,
          TFileCAStore.verifyBundle, TCAStore.source?, TCAStore.isAFile, TCAStore.certsAsPath,
          TFileCAStore.certsAsPath, hp, hf]
    | some p =>
      have hne : paths ≠ [] := List.ne_nil_of_mem (List.mem_of_find?_eq_some hf)
      have hp : p ≠ [] := by
        intro hnil
        have hexists := List.find?_some hf
        rw [hnil, hm] at hexists
        cases hexists
      simp [NewStore.verified, NewStore.make, NewStore.supplies, TCAStore.verifyBundle,
        TFileCAStore.verifyBundle, TCAStore.source?, TCAStore.isAFile, TCAStore.certsAsPath,
        TFileCAStore.certsAsPath, hne, hf, hp]

/-- **What `VerifyBundle` accepts**: the stores with certificates, and the lists of candidates
without a file. -/
theorem accepted_iff (hm : NamedFiles m) (s : NewStore) :
    s.accepted m = true ↔ (s.supplies m).isSome = true ∨ s.DeadPaths m := by
  cases s with
  | blob bytes =>
    by_cases hb : bytes = [] <;>
      simp [NewStore.accepted, NewStore.make, NewStore.supplies, NewStore.DeadPaths,
        TCAStore.verifyBundle, hb]
  | path path =>
    by_cases hp : path = []
    · have hnil : m.fileExists [] = false := hm
      simp [NewStore.accepted, NewStore.make, NewStore.supplies, NewStore.DeadPaths,
        TCAStore.verifyBundle, TFileCAStore.verifyBundle, hp, hnil]
    · cases hf : m.fileExists path <;>
        simp [NewStore.accepted, NewStore.make, NewStore.supplies, NewStore.DeadPaths,
          TCAStore.verifyBundle, TFileCAStore.verifyBundle, hp, hf]
  | paths paths =>
    cases hf : paths.find? m.fileExists with
    | none =>
      have hall : ∀ p ∈ paths, m.fileExists p = false := by
        simpa using List.find?_eq_none.mp hf
      by_cases hp : paths = []
      · simp [NewStore.accepted, NewStore.make, NewStore.supplies, NewStore.DeadPaths,
          TCAStore.verifyBundle, TFileCAStore.verifyBundle, hp]
      · refine iff_of_true ?_ (Or.inr ⟨paths, rfl, hp, hall⟩)
        simp [NewStore.accepted, NewStore.make, TCAStore.verifyBundle, TFileCAStore.verifyBundle,
          hp, hf]
    | some p =>
      have hne : paths ≠ [] := List.ne_nil_of_mem (List.mem_of_find?_eq_some hf)
      refine iff_of_true ?_ (Or.inl (by rw [NewStore.supplies, hf]; rfl))
      simp [NewStore.accepted, NewStore.make, TCAStore.verifyBundle, TFileCAStore.verifyBundle,
        hne, hf]

theorem not_supplies_of_deadPaths {s : NewStore} (h : s.DeadPaths m) : s.supplies m = none := by
  obtain ⟨paths, rfl, -, hall⟩ := h
  have hnone : paths.find? m.fileExists = none := List.find?_eq_none.mpr (by simpa using hall)
  rw [NewStore.supplies, hnone]
  rfl

end

/-! ### What `GetStore` gives -/

theorem registered_eq (stores : List NewStore) : registered stores = ⟨false, stores.map (·.make)⟩ := by
  induction stores using List.reverseRecOn with
  | nil => rfl
  | append_singleton stores s ih =>
    rw [registered, List.foldl_append]
    show (registered stores).register s.make = _
    rw [ih, List.map_append]
    rfl

theorem getStore_registered (m : CaMachine) (stores : List NewStore) :
    ((registered stores).getStore m).2 = (stores.find? (·.accepted m)).map (·.verified m) := by
  rw [registered_eq]
  show (((((stores.map (·.make)).map (·.verifyBundle m)).filter (·.2)).map (·.1)).head?) = _
  rw [List.map_map, List.filter_map, List.map_map, List.head?_map, List.head?_filter]
  rfl

/-- The store is the first that can supply certificates and tells them; it is given again whenever
it is asked for, and `ConfigureSSL` sets its certificates. -/
structure ProviderRight (m : CaMachine) (stores : List NewStore) : Prop where
  first : ((registered stores).getStore m).2 =
    (stores.find? fun s => (s.supplies m).isSome).map (·.verified m)
  source : ∀ store, ((registered stores).getStore m).2 = some store →
    store.source? = stores.findSome? (·.supplies m) ∧ store.source? ≠ none
  settled : ∀ later, (((registered stores).getStore m).1.getStore later).2 =
    ((registered stores).getStore m).2
  configured : ∀ client : THttpClient, client.caStore = none →
    client.provider = registered stores →
      caSources (configureSSL m client).2 = (stores.findSome? (·.supplies m)).toList

/-- No list of dead candidate paths stands in front of all stores that have certificates. -/
def NoneHidden (m : CaMachine) (stores : List NewStore) : Prop :=
  ∀ before s behind, stores = before ++ s :: behind → s.DeadPaths m →
    ∃ s' ∈ before, (s'.supplies m).isSome = true

section

variable {m : CaMachine} {stores : List NewStore}

theorem findSome?_eq_find? (stores : List NewStore) :
    stores.findSome? (·.supplies m) =
      (stores.find? fun s => (s.supplies m).isSome).bind (·.supplies m) := by
  induction stores with
  | nil => rfl
  | cons s stores ih =>
    rw [List.findSome?_cons, List.find?_cons]
    cases hs : s.supplies m with
    | none => exact ih
    | some src => exact hs.symm

/-- The first accepted store is the first with certificates unless a dead one hides it. -/
theorem find?_accepted (hm : NamedFiles m) (h : NoneHidden m stores) :
    stores.find? (·.accepted m) = stores.find? fun s => (s.supplies m).isSome := by
  cases hfind : stores.find? (·.accepted m) with
  | none =>
    rw [eq_comm, List.find?_eq_none]
    intro s hs hsome
    exact List.find?_eq_none.mp hfind s hs ((accepted_iff hm s).mpr (Or.inl hsome))
  | some s =>
    obtain ⟨hacc, before, behind, hsplit, hbefore⟩ := List.find?_eq_some_iff_append.mp hfind
    have hnone : ∀ s' ∈ before, ¬ (s'.supplies m).isSome = true := by
      intro s' hs' hsome
      have hacc' := (accepted_iff hm s').mpr (Or.inl hsome)
      simpa [hacc'] using hbefore s' hs'
    rcases (accepted_iff hm s).mp hacc with hsome | hdead
    · symm
      refine List.find?_eq_some_iff_append.mpr ⟨hsome, before, behind, hsplit, fun s' hs' => ?_⟩
      simpa using hnone s' hs'
    · obtain ⟨s', hs', hsome⟩ := h before s behind hsplit hdead
      exact absurd hsome (hnone s' hs')

theorem getStore_settled (later : CaMachine) :
    (((registered stores).getStore m).1.getStore later).2 = ((registered stores).getStore m).2 := by
  rw [registered_eq]
  rfl

/-- A client without a store configures what the provider's store tells. -/
theorem caSources_provider {client : THttpClient} (hca : client.caStore = none) :
    caSources (configureSSL m client).2 =
      ((client.provider.getStore m).2.bind TCAStore.source?).toList := by
  cases hstore : (client.provider.getStore m).2 with
  | none =>
    rw [configureSSL]
    simp only [hca, hstore]
    rfl
  | some store =>
    -- it is the store of the client from now on
    have hgiven (c : THttpClient) (hc : c.caStore = some store) :
        caSources (configureSSL m c).2 = store.source?.toList := (configureSSL_of_store m hc).2
    rw [Option.bind_some, ← hgiven
      { client with provider := (client.provider.getStore m).1, caStore := some store } rfl,
      configureSSL, configureSSL]
    simp only [hca, hstore]

end

/-- **The provider's store, exactly**: it is the right one iff no list of dead candidate paths hides
it, or stands alone. -/
theorem provider_right_iff (m : CaMachine) (hm : NamedFiles m) (stores : List NewStore) :
    ProviderRight m stores ↔ NoneHidden m stores := by
  constructor
  · intro h before s behind hsplit hdead
    by_contra hno
    have hacc : s.accepted m = true := (accepted_iff hm s).mpr (Or.inr hdead)
    obtain ⟨x, hx⟩ : ∃ x, (before ++ [s]).find? (·.accepted m) = some x := by
      rw [← Option.isSome_iff_exists, List.find?_isSome]
      exact ⟨s, by simp, hacc⟩
    have hfind : stores.find? (·.accepted m) = some x := by
      rw [hsplit, List.append_cons, List.find?_append, hx]
      rfl
    -- it stands in front of every store that has certificates
    have hnone : x.supplies m = none := by
      rcases List.mem_append.mp (List.mem_of_find?_eq_some hx) with hbefore | hlast
      · by_contra hsome
        exact hno ⟨x, hbefore, Option.isSome_iff_ne_none.mpr hsome⟩
      · rw [List.mem_singleton.mp hlast]
        exact not_supplies_of_deadPaths hdead
    have hgiven : ((registered stores).getStore m).2 = some (x.verified m) := by
      rw [getStore_registered, hfind]
      rfl
    exact (h.source _ hgiven).2 (by rw [source?_verified hm, hnone])
  · intro h
    have hfirst : ((registered stores).getStore m).2 =
        (stores.find? fun s => (s.supplies m).isSome).map (·.verified m) := by
      rw [getStore_registered, find?_accepted hm h]
    refine ⟨hfirst, fun store hstore => ?_, fun later => getStore_settled later, ?_⟩
    · rw [hfirst] at hstore
      obtain ⟨s, hs, rfl⟩ := Option.map_eq_some_iff.mp hstore
      rw [source?_verified hm, findSome?_eq_find?, hs]
      exact ⟨rfl, Option.isSome_iff_ne_none.mp (List.find?_eq_some_iff_append.mp hs).1⟩
    · intro client hca hprovider
      rw [caSources_provider hca, hprovider, hfirst, findSome?_eq_find?]
      cases stores.find? fun s => (s.supplies m).isSome with
      | none => rfl
      | some s =>
        show ((s.verified m).source?).toList = (s.supplies m).toList
        rw [source?_verified hm]

theorem namedFiles_caMachine : NamedFiles caMachine := rfl

/-- On `caMachine`, dead candidates behind the file store do not hide it. -/
theorem provider_right_file :
    ProviderRight caMachine [.path (lit "/etc/my-ca.pem"), .paths [lit "/etc/none.pem"]] ↔
      NoneHidden caMachine [.path (lit "/etc/my-ca.pem"), .paths [lit "/etc/none.pem"]] :=
  provider_right_iff caMachine namedFiles_caMachine _

/-- Candidate paths without a file hide the blob store behind them. -/
theorem not_every_provider_right :
    ¬ ∀ (m : CaMachine), NamedFiles m → ∀ stores, ProviderRight m stores := by
  intro hall
  have hright := hall caMachine namedFiles_caMachine [.paths [lit "/etc/none.pem"], .blob [1, 2, 3]]
  have hset := hright.configured
    { provider := registered [.paths [lit "/etc/none.pem"], .blob [1, 2, 3]] } rfl rfl
  exact absurd hset (by decide)

end NetMod.CaStore
