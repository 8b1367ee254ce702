import NetMod.BlitzText

/-!
# `http_ca.bmx`: the certificate stores and their provider

A store tells libcurl its certificates as a path or as a blob.  A file store answers only once
`VerifyBundle` has found its file, a system store only once it has built its bundle, and what a store
of another type answers depends on a state that `VerifyBundle` may change.  Of the machine the stores
see which files exist and the bundle its certificates make.

libcurl keeps what it is told if that is not too long.
-/

namespace NetMod.CaStore

open NetMod.BlitzText

/-- What the stores see of the machine; `systemBundle` is the blob of the platform's certificates,
if it has any. -/
structure CaMachine where
  fileExists : Text → Bool
  systemBundle : Option (List UInt8)

structure TFileCAStore where
  paths : List Text := []
  path : Text := []
  pathExists : Bool := false
deriving DecidableEq

namespace TFileCAStore

def certsAsPath (s : TFileCAStore) : Text := if s.pathExists then s.path else []

/-- `VerifyBundle`, with its result. -/
def verifyBundle (m : CaMachine) (s : TFileCAStore) : TFileCAStore × Bool :=
  if s.path = [] ∧ s.paths = [] then ({ s with pathExists := false }, false)
  else if s.pathExists then (s, true)
  else if s.path ≠ [] then
    if m.fileExists s.path then ({ s with pathExists := true }, true)
    else ({ s with pathExists := false }, false)
  else
    match s.paths.find? m.fileExists with
    | some p => ({ s with path := p, pathExists := true }, true)
    | none => (s, true)

end TFileCAStore

/-- `TMacOSCAStore` and `TWindowsCAStore`, which differ in how the machine is asked.  Only a
processed store is valid. -/
structure TSystemCAStore where
  bundle : List UInt8 := []
  processed : Bool := false
  valid : Bool := false
  processed_of_valid : valid = true → processed = true := by decide
deriving DecidableEq

namespace TSystemCAStore

def certsAsBlob (s : TSystemCAStore) : List UInt8 := if !s.valid then [] else s.bundle

def verifyBundle (m : CaMachine) (s : TSystemCAStore) : TSystemCAStore × Bool :=
  if s.processed then (s, s.valid)
  else
    match m.systemBundle with
    | some bundle => ({ bundle := bundle, processed := true, valid := true }, true)
    | none => ({ s with processed := true, processed_of_valid := fun _ => rfl }, s.valid)

end TSystemCAStore

/-- A store of a type the sources do not have: an object with a state, by what its methods do. -/
structure CustomCAStore where
  State : Type
  state : State
  isAFile : State → Bool
  certsAsPath : State → Text
  certsAsBlob : State → List UInt8
  verifyBundle : CaMachine → State → State × Bool

inductive TCAStore where
  | file (s : TFileCAStore)
  | blob (bytes : List UInt8)
  | system (s : TSystemCAStore)
  | custom (s : CustomCAStore)

namespace TCAStore

def isAFile : TCAStore → Bool
  | .file _ => true
  | .blob _ | .system _ => false
  | .custom s => s.isAFile s.state

/-- `Null` and the empty array are one value. -/
def certsAsBlob : TCAStore → List UInt8
  | .file _ => []
  | .blob bytes => bytes
  | .system s => s.certsAsBlob
  | .custom s => s.certsAsBlob s.state

def certsAsPath : TCAStore → Text
  | .file s => s.certsAsPath
  | .blob _ | .system _ => []
  | .custom s => s.certsAsPath s.state

def verifyBundle (m : CaMachine) : TCAStore → TCAStore × Bool
  | .file s => let (s, ok) := s.verifyBundle m; (.file s, ok)
  | .blob bytes => (.blob bytes, decide (bytes ≠ []))
  | .system s => let (s, ok) := s.verifyBundle m; (.system s, ok)
  | .custom s => let (state, ok) := s.verifyBundle m s.state; (.custom { s with state }, ok)

end TCAStore

/-- `TCAStoreProvider`. -/
structure TCAStoreProvider where
  inited : Bool := false
  stores : List TCAStore := []

namespace TCAStoreProvider

def register (p : TCAStoreProvider) (store : TCAStore) : TCAStoreProvider :=
  { p with stores := p.stores ++ [store] }

/-- `Init` verifies every store and keeps those that pass. -/
def init (m : CaMachine) (p : TCAStoreProvider) : TCAStoreProvider :=
  if p.inited then p
  else ⟨true, ((p.stores.map (·.verifyBundle m)).filter (·.2)).map (·.1)⟩

def getStore (m : CaMachine) (p : TCAStoreProvider) : TCAStoreProvider × Option TCAStore :=
  let p := p.init m
  (p, p.stores.head?)

end TCAStoreProvider

/-! ### What a store stands for -/

/-- Certificates as libcurl can be told them. -/
inductive CaSource where
  | path (p : Text)
  | blob (bytes : List UInt8)
deriving DecidableEq

/-- What a store tells libcurl as it is. -/
def TCAStore.source? (s : TCAStore) : Option CaSource :=
  if s.isAFile then (if s.certsAsPath ≠ [] then some (.path s.certsAsPath) else none)
  else if s.certsAsBlob ≠ [] then some (.blob s.certsAsBlob) else none

/-- The certificates a store has: what it tells once verified. -/
def TCAStore.certificates (m : CaMachine) (s : TCAStore) : Option CaSource :=
  (s.verifyBundle m).1.source?

/-! ### What libcurl keeps of it -/

/-- `CURL_MAX_INPUT_LENGTH`. -/
def curlMaxInputLength : Nat := 8000000

/-- `Curl_setstropt` of a string: what is stored, and nothing where it is refused. -/
def setstropt (s : List UInt8) : Option (List UInt8) :=
  let s := s.takeWhile (· ≠ 0)
  if curlMaxInputLength < s.length then none else some s

/-- `Curl_setblobopt` of a blob. -/
def setblobopt (blob : List UInt8) : Option (List UInt8) :=
  if curlMaxInputLength < blob.length then none else some blob

/-- The CA sources of an easy handle, both absent where libcurl uses its default. -/
structure EasyTrust where
  caInfo : Option (List UInt8) := none
  caInfoBlob : Option (List UInt8) := none
deriving DecidableEq

/-- The handle after `CURLOPT_CAINFO` or `CURLOPT_CAINFO_BLOB`. -/
def EasyTrust.tell (h : EasyTrust) : CaSource → EasyTrust
  | .path p => { h with caInfo := setstropt (toUTF8String p) }
  | .blob bytes => { h with caInfoBlob := setblobopt bytes }

namespace CaSource

/-- A handle that has exactly these certificates. -/
def trust : CaSource → EasyTrust
  | .path p => { caInfo := some (toUTF8String p) }
  | .blob bytes => { caInfoBlob := some bytes }

/-- What libcurl takes: not too long, and a path without a NUL. -/
def Fits : CaSource → Prop
  | .path p => (toUTF8String p).length ≤ curlMaxInputLength ∧ 0 ∉ toUTF8String p
  | .blob bytes => bytes.length ≤ curlMaxInputLength

/-- A new handle that is told the certificates. -/
def handed (src : CaSource) : EasyTrust := ({} : EasyTrust).tell src

theorem takeWhile_ne_zero {s : List UInt8} (h : 0 ∉ s) : s.takeWhile (· ≠ 0) = s :=
  List.takeWhile_eq_self_iff.mpr fun _ hc => decide_eq_true fun h0 => h (h0 ▸ hc)

theorem setstropt_eq_some {s kept : List UInt8} (h : setstropt s = some kept) :
    kept.length ≤ curlMaxInputLength ∧ 0 ∉ kept := by
  simp only [setstropt, Option.ite_none_left_eq_some, Option.some.injEq] at h
  obtain ⟨hlen, rfl⟩ := h
  refine ⟨Nat.le_of_not_lt hlen, fun hmem => ?_⟩
  simpa using List.mem_takeWhile_imp hmem

/-- What fits is kept as it is. -/
theorem handed_of_fits {src : CaSource} (h : src.Fits) : src.handed = src.trust := by
  cases src with
  | path p =>
    obtain ⟨hlen, hzero⟩ := h
    rw [handed, EasyTrust.tell, setstropt, takeWhile_ne_zero hzero]
    dsimp only
    rw [if_neg (Nat.not_lt.mpr hlen)]
    rfl
  | blob bytes =>
    rw [handed, EasyTrust.tell, setblobopt, if_neg (Nat.not_lt.mpr h)]
    rfl

/-- **Nothing else is kept as certificates that do not fit.** -/
theorem fits_of_handed {src told : CaSource} (h : told.handed = src.trust) : src.Fits := by
  cases src with
  | path p =>
    cases told with
    | path q => exact setstropt_eq_some (EasyTrust.mk.inj h).1
    | blob bytes => exact absurd (EasyTrust.mk.inj h).1 (Option.some_ne_none _).symm
  | blob bytes =>
    cases told with
    | path q => exact absurd (EasyTrust.mk.inj h).2 (Option.some_ne_none _).symm
    | blob bytes' =>
      have hkept := (EasyTrust.mk.inj h).2
      simp only [setblobopt, Option.ite_none_left_eq_some, Option.some.injEq] at hkept
      obtain ⟨hlen, rfl⟩ := hkept
      exact Nat.le_of_not_lt hlen

end CaSource

/-- A store needs no verification (any more): it is a blob, has been through `VerifyBundle`, or is of
another type and a handle gets from it now what it gets after `VerifyBundle`. -/
def TCAStore.Ready (m : CaMachine) : TCAStore → Prop
  | .file s => s.pathExists = true
  | .system s => s.valid = true
  | .blob _ => True
  | .custom s => (source? (.custom s)).map CaSource.handed =
      (certificates m (.custom s)).map CaSource.handed

/-- **A store with certificates hands them over exactly when it is ready.** -/
theorem TCAStore.handed_eq_iff {m : CaMachine} {s : TCAStore} {src : CaSource}
    (h : s.certificates m = some src) :
    s.source?.map CaSource.handed = some src.handed ↔ s.Ready m := by
  cases s with
  | blob bytes =>
    have hs : source? (.blob bytes) = certificates m (.blob bytes) := rfl
    simp [hs, h, Ready]
  | custom s => rw [Ready, h, Option.map_some]
  | file s =>
    cases hx : s.pathExists with
    | false => simp [source?, isAFile, certsAsPath, TFileCAStore.certsAsPath, Ready, hx]
    | true =>
      have hs : source? (.file s) = certificates m (.file s) := by
        rw [certificates, verifyBundle, TFileCAStore.verifyBundle]
        by_cases hnone : s.path = [] ∧ s.paths = []
        · simp [source?, isAFile, certsAsPath, TFileCAStore.certsAsPath, hx, hnone]
        · simp [hnone, hx]
      simp [hs, h, Ready, hx]
  | system s =>
    cases hv : s.valid with
    | false => simp [source?, isAFile, certsAsBlob, TSystemCAStore.certsAsBlob, Ready, hv]
    | true =>
      have hs : source? (.system s) = certificates m (.system s) := by
        simp [certificates, verifyBundle, TSystemCAStore.verifyBundle, s.processed_of_valid hv]
      simp [hs, h, Ready, hv]

end NetMod.CaStore
