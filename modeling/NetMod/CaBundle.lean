import NetMod.CaStore
import NetMod.EasyEscape
import NetMod.CrtParse
import NetMod.Lib.ListMap
import NetMod.Lib.UniqueImage
import Mathlib.Data.List.Perm.Basic

/-!
# The system's certificates on their way into libcurl

`TWindowsCAStore` and `TMacOSCAStore` build one text of all the roots of the machine; the client hands
it to libcurl as a blob and mbedTLS cuts it up again.  Modelled here are the walk over the machine's
stores, the bundler and the way of the blob.  What the operating system answers is data.

`trust_right` follows the certificates through: what libcurl ends up trusting is what the machine
trusts and the parser accepts, one certificate for each hash.
-/

namespace NetMod.CaBundle

open NetMod.BlitzText NetMod.CurlText NetMod.EasyEscape NetMod.PemText NetMod.CrtParse
open NetMod.CaStore NetMod.UniqueImage

/-! ### The machine -/

/-- A certificate as a store of the system holds it: its bytes, none where the pointer or the length
is null, and the SHA-1 property by which Windows finds it elsewhere. -/
structure CertContext where
  der : Bytes
  sha1 : Option Bytes := none
  fits : Fits der := by decide

/-- The four stores that `bmx_net_http_win32_build_ca_bundle` opens; a store that does not open is
absent. -/
structure WindowsStores where
  rootCU : Option (List CertContext)
  rootLM : Option (List CertContext)
  disallowedCU : Option (List CertContext)
  disallowedLM : Option (List CertContext)

/-- Where the roots come from; on macOS the anchors, if they can be had, an entry without data
among them being one that cannot be copied. -/
inductive SystemRoots where
  | windows (stores : WindowsStores)
  | macOS (anchors : Option (List CertContext))

/-- What the sources call and do not define: the hexadecimal SHA-256 of a certificate, the order in
which a hash map walks its values, and the writing of an ASCII text into a buffer of its own length,
where the end of the text may fall to a NUL. -/
structure CaRuntime where
  sha256Hex : Bytes → Text
  values : List (Text × Text) → List Text
  toUTF8StringBuffer : Text → Bytes
  values_perm : ∀ m, (values m).Perm (m.map (·.2))
  toUTF8StringBuffer_ascii : ∀ s : Bytes, (∀ c ∈ s, c < 128) →
    toUTF8StringBuffer (fromBytes s) = s ∨ toUTF8StringBuffer (fromBytes s) = s.dropLast ++ [0]

/-! ### The bundler -/

/-- `TWindowsCAStoreBundler` and `TMacOSCAStoreBundler`. -/
structure CAStoreBundler where
  bundles : List (Text × Text) := []

namespace CAStoreBundler

def hasBundle (b : CAStoreBundler) : Bool := !b.bundles.isEmpty

def getBundle (R : CaRuntime) (b : CAStoreBundler) : Text := (R.values b.bundles).flatten

/-- `ProcessDer`, with the hash that its caller has taken of the data. -/
def processDer (R : CaRuntime) (b : CAStoreBundler) (data : Bytes) : CAStoreBundler :=
  let hash := R.sha256Hex data
  if b.bundles.any fun e => decide (e.1 = hash) then b
  else
    match bmxNetHttpDerToPem data with
    | some pem => ⟨b.bundles ++ [(hash, fromBytes pem)]⟩
    | none => b

end CAStoreBundler

/-- `is_disallowed`. -/
def isDisallowed (ctx : CertContext) (hDisallowed : Option (List CertContext)) : Bool :=
  match hDisallowed with
  | none => false
  | some certs =>
    match ctx.sha1 with
    | none => false
    | some sha1 => certs.any fun hit => hit.sha1 == some sha1

/-- `process_store`. -/
def processStore (R : CaRuntime) (hStore hDisallowedCU hDisallowedLM : Option (List CertContext))
    (obj : CAStoreBundler) : CAStoreBundler :=
  match hStore with
  | none => obj
  | some certs =>
    certs.foldl (fun obj ctx =>
      if ctx.der = [] then obj
      else if isDisallowed ctx hDisallowedCU || isDisallowed ctx hDisallowedLM then obj
      else obj.processDer R ctx.der) obj

/-- `bmx_net_http_win32_build_ca_bundle`. -/
def win32BuildCaBundle (R : CaRuntime) (s : WindowsStores) (obj : CAStoreBundler) : CAStoreBundler :=
  if s.rootCU.isSome ∨ s.rootLM.isSome then
    processStore R s.rootLM s.disallowedCU s.disallowedLM
      (processStore R s.rootCU s.disallowedCU s.disallowedLM obj)
  else obj

/-- `bmx_net_http_macos_build_ca_bundle`. -/
def macosBuildCaBundle (R : CaRuntime) (anchors : Option (List CertContext)) (obj : CAStoreBundler) :
    CAStoreBundler :=
  match anchors with
  | none => obj
  | some anchors =>
    anchors.foldl (fun obj cert => if cert.der = [] then obj else obj.processDer R cert.der) obj

def buildCaBundle (R : CaRuntime) : SystemRoots → CAStoreBundler → CAStoreBundler
  | .windows stores => win32BuildCaBundle R stores
  | .macOS anchors => macosBuildCaBundle R anchors

/-- The bytes that `CertsAsBlob` makes of the bundle, if the bundler has one. -/
def systemBundle (R : CaRuntime) (roots : SystemRoots) : Option Bytes :=
  let bundler := buildCaBundle R roots {}
  if bundler.hasBundle then some (R.toUTF8StringBuffer (bundler.getBundle R)) else none

/-! ### The bundle in libcurl -/

/-- What the connection has of the blob: nothing where the option was not set or was refused, a
failure (`CURLE_SSL_CERTPROBLEM`), or certificates. -/
inductive CaLoad where
  | noBlob
  | certProblem (e : CrtError)
  | trusts (chain : List Bytes) (failed : Nat)
deriving DecidableEq

/-- The blob on its way from `ConfigureSSL`, which ignores a refusal, into mbedTLS, which wants a NUL
behind it. -/
def loadCaBlob (parseDer : Bytes → DerResult) (blob : Bytes) : Option CaLoad :=
  if blob = [] then some .noBlob
  else
    match setblobopt blob with
    | none => some .noBlob
    | some blob =>
      (mbedtlsX509CrtParse parseDer (blob ++ [0])).map fun r =>
        match r.2 with
        | .error e => .certProblem e
        | .ok failed => .trusts r.1 failed

/-! ### A bundle is taken apart into its blocks -/

section

variable {parseDer : Bytes → DerResult}

def accepts (parseDer : Bytes → DerResult) (der : Bytes) : Bool := decide (parseDer der = .ok)

/-- What one block adds to the state. -/
def turn (parseDer : Bytes → DerResult) (s : CrtState) (der : Bytes) : CrtState :=
  match parseDer der with
  | .ok => s.accept der
  | .failed code => s.fail (.der code)
  | .allocFailed => s

/-- The loop at a block. -/
theorem crtLoop_block (hmem : ∀ d, parseDer d ≠ .allocFailed) {der : Bytes} (hder : der ≠ [])
    (tail : Bytes) (fuel : Nat) (s : CrtState) :
    crtLoop parseDer (fuel + 1) (block der ++ tail) s
      = crtLoop parseDer fuel (tail.drop (eaten tail)) (turn parseDer s der) := by
  have hlong : ¬ (block der ++ tail).length ≤ 1 := by
    rw [List.length_append, length_block]
    omega
  have hdrop : (block der ++ tail).drop ((block der).length + eaten tail) = tail.drop (eaten tail) :=
    List.drop_length_add_append _
  rw [crtLoop, if_neg hlong, mbedtlsPemReadBuffer_block hder, turn]
  dsimp only
  rw [hdrop]
  cases h : parseDer der with
  | allocFailed => exact absurd h (hmem der)
  | failed code => rfl
  | ok => rfl

/-- **A bundle is its certificates, one after the other.** -/
theorem crtLoop_bundle (hmem : ∀ d, parseDer d ≠ .allocFailed) {ders : List Bytes}
    (hders : ∀ d ∈ ders, d ≠ []) (tail : Bytes) (fuel : Nat) (s : CrtState) :
    crtLoop parseDer (fuel + ders.length) (ders.flatMap pemOf ++ tail) s
      = crtLoop parseDer fuel tail (ders.foldl (turn parseDer) s) := by
  induction ders generalizing s with
  | nil => rfl
  | cons d ds ih =>
    obtain ⟨hd, hds⟩ := List.forall_mem_cons.mp hders
    have hsplit : (d :: ds).flatMap pemOf ++ tail
        = block d ++ byte '\n' :: (ds.flatMap pemOf ++ tail) := by
      simp only [List.flatMap_cons, pemOf, List.append_assoc, List.cons_append, List.nil_append]
    have heaten : eaten (byte '\n' :: (ds.flatMap pemOf ++ tail)) = 1 := rfl
    rw [hsplit, List.length_cons, ← Nat.add_assoc, crtLoop_block hmem hd, heaten]
    exact ih hds _

/-- What follows the last block: the end of its line and a NUL, or two NULs. -/
def BundleEnd (tail : Bytes) : Prop := tail = [byte '\n', 0] ∨ tail = [0, 0]

theorem crtLoop_end (hmem : ∀ d, parseDer d ≠ .allocFailed) {ders : List Bytes} {d tail : Bytes}
    (hders : ∀ e ∈ ders, e ≠ []) (hd : d ≠ []) (htail : BundleEnd tail) (fuel : Nat) (s : CrtState) :
    crtLoop parseDer (fuel + 1 + 1 + ders.length) (ders.flatMap pemOf ++ (block d ++ tail)) s
      = some ((ders ++ [d]).foldl (turn parseDer) s, none) := by
  rw [crtLoop_bundle hmem hders, crtLoop_block hmem hd, List.foldl_append, List.foldl_cons,
    List.foldl_nil]
  rcases htail with rfl | rfl
  · rfl
  · rfl

/-- The chain, the success flag and the errors after a list of blocks. -/
theorem foldl_turn (hmem : ∀ d, parseDer d ≠ .allocFailed) (ders : List Bytes) (s : CrtState) :
    (ders.foldl (turn parseDer) s).chain = s.chain ++ ders.filter (accepts parseDer)
      ∧ (ders.foldl (turn parseDer) s).success
        = (s.success || ders.any (accepts parseDer))
      ∧ (ders.foldl (turn parseDer) s).totalFailed
        = s.totalFailed + ders.countP (fun d => !accepts parseDer d) := by
  induction ders generalizing s with
  | nil => exact ⟨(List.append_nil _).symm, (Bool.or_false _).symm, rfl⟩
  | cons d ds ih =>
    obtain ⟨hchain, hsuccess, hfailed⟩ := ih (turn parseDer s d)
    rw [List.foldl_cons, hchain, hsuccess, hfailed, List.filter_cons, List.any_cons, List.countP_cons,
      turn]
    cases h : parseDer d with
    | allocFailed => exact absurd h (hmem d)
    | failed code =>
      have hno : accepts parseDer d = false := decide_eq_false (by rw [h]; exact nofun)
      rw [hno]
      exact ⟨rfl, rfl, by simp [CrtState.fail]; omega⟩
    | ok =>
      have hyes : accepts parseDer d = true := decide_eq_true h
      rw [hyes]
      exact ⟨by simp [CrtState.accept], by simp [CrtState.accept], rfl⟩

/-- What mbedTLS makes of a list of certificates. -/
def loaded (parseDer : Bytes → DerResult) (ders : List Bytes) : CaLoad :=
  if ders.any (accepts parseDer) then
    .trusts (ders.filter (accepts parseDer)) (ders.countP fun d => !accepts parseDer d)
  else .certProblem ((ders.foldl (turn parseDer) {}).firstError.getD .unknownFormat)

/-- A blob of the certificates, its last byte kept or lost to a NUL. -/
theorem loadCaBlob_bundle (hmem : ∀ d, parseDer d ≠ .allocFailed) {ders : List Bytes} {blob : Bytes}
    (hne : ders ≠ []) (hders : ∀ d ∈ ders, d ≠ [])
    (hblob : blob = ders.flatMap pemOf ∨ blob = (ders.flatMap pemOf).dropLast ++ [0])
    (hshort : blob.length ≤ curlMaxInputLength) :
    loadCaBlob parseDer blob = some (loaded parseDer ders) := by
  obtain ⟨init, d, rfl⟩ : ∃ init d, ders = init ++ [d] :=
    ⟨ders.dropLast, ders.getLast hne, (List.dropLast_concat_getLast hne).symm⟩
  have hinit : ∀ e ∈ init, e ≠ [] := fun e he => hders e (List.mem_append_left _ he)
  have hd : d ≠ [] := hders d (List.mem_append_right _ List.mem_cons_self)
  have hpem : (init ++ [d]).flatMap pemOf = init.flatMap pemOf ++ block d ++ [byte '\n'] := by
    simp only [List.flatMap_append, List.flatMap_singleton, pemOf, List.append_assoc]
  obtain ⟨tail, htail, hbuf⟩ : ∃ tail, BundleEnd tail
      ∧ blob ++ [0] = init.flatMap pemOf ++ (block d ++ tail) := by
    rcases hblob with hblob | hblob
    · refine ⟨_, Or.inl rfl, ?_⟩
      rw [hblob, hpem]
      simp only [List.append_assoc, List.cons_append, List.nil_append]
    · refine ⟨_, Or.inr rfl, ?_⟩
      rw [hblob, hpem, List.dropLast_concat]
      simp only [List.append_assoc, List.cons_append, List.nil_append]
  have hblocks : init.length ≤ (init.flatMap pemOf).length :=
    ListMap.length_le_length_flatMap fun e _ => List.append_ne_nil_of_right_ne_nil _ (by decide)
  have htail2 : 2 ≤ tail.length := by
    rcases htail with rfl | rfl <;> exact Nat.le_refl _
  have hlen : 55 + init.length ≤ (blob ++ [0]).length := by
    rw [hbuf, List.length_append, List.length_append, length_block]
    omega
  obtain ⟨fuel, hfuel⟩ : ∃ fuel, (blob ++ [0]).length = fuel + 1 + 1 + init.length :=
    ⟨(blob ++ [0]).length - 2 - init.length, by omega⟩
  have hnonempty : blob ≠ [] := by
    rintro rfl
    exact absurd hlen (by simp only [List.nil_append, List.length_singleton]; omega)
  have hbegin : (strstr beginMarker (blob ++ [0])).isSome := by
    have hstart : ∃ t, blob ++ [0] = beginMarker ++ t := by
      rw [hbuf]
      cases init with
      | nil => exact ⟨_, by simp only [List.flatMap_nil, List.nil_append, block, List.append_assoc]; rfl⟩
      | cons e es =>
        exact ⟨_, by simp only [List.flatMap_cons, pemOf, block, List.append_assoc]; rfl⟩
    obtain ⟨t, ht⟩ := hstart
    rw [ht, strstr_of_prefix (by decide)]
    rfl
  have hloop : crtLoop parseDer (blob ++ [0]).length (blob ++ [0]) {}
      = some ((init ++ [d]).foldl (turn parseDer) {}, none) := by
    rw [hfuel, hbuf]
    exact crtLoop_end hmem hinit hd htail fuel {}
  obtain ⟨hchain, hsuccess, hfailed⟩ := foldl_turn hmem (init ++ [d]) {}
  rw [loadCaBlob, if_neg hnonempty, setblobopt, if_neg (Nat.not_lt.mpr hshort)]
  dsimp only
  rw [mbedtlsX509CrtParse, if_pos ⟨List.getLast?_concat, hbegin⟩, hloop,
    Option.map_some, Option.map_some, crtResult, loaded, hchain, hsuccess, hfailed]
  cases (init ++ [d]).any (accepts parseDer) with
  | false => rfl
  | true => exact congrArg (fun n => some (CaLoad.trusts _ n)) (Nat.zero_add _)

end

/-! ### From the machine's stores to the bundle -/

section

variable {R : CaRuntime}

/-- A certificate as the bundler keeps it. -/
def entry (R : CaRuntime) (d : Bytes) : Text × Text := (R.sha256Hex d, fromBytes (pemOf d))

theorem processDer_entries {b : CAStoreBundler} {kept : List Bytes}
    (hb : b.bundles = kept.map (entry R)) {d : Bytes} (hfits : Fits d) :
    (b.processDer R d).bundles = (collect R.sha256Hex kept d).map (entry R) := by
  have hkeys : (b.bundles.any fun e => decide (e.1 = R.sha256Hex d)) = true
      ↔ R.sha256Hex d ∈ kept.map R.sha256Hex := by
    rw [hb, List.any_map, List.any_eq_true, List.mem_map]
    exact exists_congr fun k => and_congr_right fun _ => decide_eq_true_iff
  rw [CAStoreBundler.processDer, collect, bmxNetHttpDerToPem_eq hfits]
  by_cases hold : R.sha256Hex d ∈ kept.map R.sha256Hex
  · rw [if_pos hold, if_pos (hkeys.mpr hold)]
    exact hb
  · rw [if_neg hold, if_neg (fun h => hold (hkeys.mp h)), List.map_append, hb]
    rfl

theorem foldl_processDer {b : CAStoreBundler} {kept : List Bytes}
    (hb : b.bundles = kept.map (entry R)) {ders : List Bytes} (hfits : ∀ d ∈ ders, Fits d) :
    (ders.foldl (CAStoreBundler.processDer R) b).bundles
      = (ders.foldl (collect R.sha256Hex) kept).map (entry R) := by
  induction ders generalizing b kept with
  | nil => exact hb
  | cons d ds ih =>
    obtain ⟨hd, hds⟩ := List.forall_mem_cons.mp hfits
    exact ih (processDer_entries hb hd) hds

/-- A root of Windows is offered unless it is empty or disallowed. -/
def allowed (s : WindowsStores) (ctx : CertContext) : Bool :=
  decide (ctx.der ≠ []) && !isDisallowed ctx s.disallowedCU && !isDisallowed ctx s.disallowedLM

/-- The certificates that the walk over the machine hands to the bundler. -/
def offered : SystemRoots → List CertContext
  | .windows s => (s.rootCU.getD [] ++ s.rootLM.getD []).filter (allowed s)
  | .macOS anchors => (anchors.getD []).filter fun cert => decide (cert.der ≠ [])

theorem processStore_eq (s : WindowsStores) (hStore : Option (List CertContext))
    (obj : CAStoreBundler) :
    processStore R hStore s.disallowedCU s.disallowedLM obj
      = (((hStore.getD []).filter (allowed s)).map (·.der)).foldl (CAStoreBundler.processDer R) obj := by
  cases hStore with
  | none => rfl
  | some certs =>
    rw [processStore, Option.getD_some, List.foldl_map, List.foldl_filter]
    congr 1
    funext obj ctx
    by_cases hder : ctx.der = []
    · simp [allowed, hder]
    · cases hcu : isDisallowed ctx s.disallowedCU <;> cases hlm : isDisallowed ctx s.disallowedLM <;>
        simp [allowed, hder, hcu, hlm]

theorem buildCaBundle_eq (roots : SystemRoots) (obj : CAStoreBundler) :
    buildCaBundle R roots obj
      = ((offered roots).map (·.der)).foldl (CAStoreBundler.processDer R) obj := by
  cases roots with
  | windows s =>
    rw [buildCaBundle, win32BuildCaBundle, offered, List.filter_append, List.map_append,
      List.foldl_append, ← processStore_eq, ← processStore_eq]
    split
    · rfl
    · rename_i hnone
      rw [not_or, Option.not_isSome_iff_eq_none, Option.not_isSome_iff_eq_none] at hnone
      rw [hnone.1, hnone.2]
      rfl
  | macOS anchors =>
    cases anchors with
    | none => rfl
    | some certs =>
      rw [buildCaBundle, macosBuildCaBundle, offered, Option.getD_some, List.foldl_map,
        List.foldl_filter]
      congr 1
      funext obj cert
      by_cases hder : cert.der = [] <;> simp [hder]

/-- The certificates in the bundle, in the order in which they were found. -/
def keptRoots (R : CaRuntime) (roots : SystemRoots) : List Bytes :=
  ((offered roots).map (·.der)).foldl (collect R.sha256Hex) []

theorem bundles_eq (roots : SystemRoots) :
    (buildCaBundle R roots {}).bundles = (keptRoots R roots).map (entry R) := by
  have hempty : ({} : CAStoreBundler).bundles = ([] : List Bytes).map (entry R) := rfl
  rw [buildCaBundle_eq]
  refine foldl_processDer hempty ?_
  intro d hd
  obtain ⟨ctx, -, rfl⟩ := List.mem_map.mp hd
  exact ctx.fits

/-- The text of the bundle is the blocks in some order. -/
theorem getBundle_eq {b : CAStoreBundler} {kept : List Bytes} (hb : b.bundles = kept.map (entry R)) :
    ∃ ders : List Bytes, ders.Perm kept ∧ b.getBundle R = fromBytes (ders.flatMap pemOf) := by
  have hvalues := R.values_perm b.bundles
  have hrel : List.Forall₂ (fun t d => t = fromBytes (pemOf d)) (b.bundles.map (·.2)) kept := by
    rw [hb, List.map_map, List.forall₂_map_left_iff]
    exact List.forall₂_same.mpr fun _ _ => rfl
  obtain ⟨ders, hders, hperm⟩ := List.perm_comp_forall₂ hvalues hrel
  refine ⟨ders, hperm, ?_⟩
  have hlist : R.values b.bundles = ders.map fun d => fromBytes (pemOf d) := by
    generalize R.values b.bundles = l at hders
    clear hperm
    induction hders with
    | nil => rfl
    | cons h _ ih => rw [h, ih, List.map_cons]
  rw [CAStoreBundler.getBundle, hlist, fromBytes, List.map_flatMap, List.flatMap_def]
  rfl

/-- Every byte of a block is ASCII. -/
theorem pemOf_ascii {d : Bytes} {c : UInt8} (hc : c ∈ pemOf d) : c < 128 := by
  have hmarkers : ∀ a ∈ beginMarker ++ byte '\n' :: endMarker, a < 128 := by decide +kernel
  have hsplit : pemOf d = (beginMarker ++ [byte '\n']) ++ (lines d ++ (endMarker ++ [byte '\n'])) :=
    block_append d _
  simp only [hsplit, List.mem_append, List.mem_singleton] at hc
  simp only [List.mem_append, List.mem_cons] at hmarkers
  rcases hc with (hc | hc) | hc | hc | hc
  · exact hmarkers c (Or.inl hc)
  · exact hmarkers c (Or.inr (Or.inl hc))
  · exact lines_ascii hc
  · exact hmarkers c (Or.inr (Or.inr hc))
  · exact hmarkers c (Or.inr (Or.inl hc))

end

/-! ### What is trusted in the end -/

/-- A certificate whose SHA-1 hash one of the disallowed stores has. -/
def WindowsStores.Disallowed (s : WindowsStores) (ctx : CertContext) : Prop :=
  ∃ sha1, ctx.sha1 = some sha1
    ∧ ∃ hit, (hit ∈ s.disallowedCU.getD [] ∨ hit ∈ s.disallowedLM.getD []) ∧ hit.sha1 = some sha1

/-- The certificates that the machine trusts. -/
def SystemRoots.Trusts : SystemRoots → Bytes → Prop
  | .windows s, d =>
    ∃ ctx, (ctx ∈ s.rootCU.getD [] ∨ ctx ∈ s.rootLM.getD []) ∧ ¬ s.Disallowed ctx
      ∧ ctx.der = d ∧ d ≠ []
  | .macOS anchors, d => ∃ cert ∈ anchors.getD [], cert.der = d ∧ d ≠ []

theorem isDisallowed_iff (ctx : CertContext) (store : Option (List CertContext)) :
    isDisallowed ctx store = true
      ↔ ∃ sha1, ctx.sha1 = some sha1 ∧ ∃ hit ∈ store.getD [], hit.sha1 = some sha1 := by
  cases store with
  | none => simp [isDisallowed]
  | some certs =>
    cases hsha : ctx.sha1 with
    | none => simp [isDisallowed, hsha]
    | some sha1 => simp [isDisallowed, hsha]

theorem allowed_iff (s : WindowsStores) (ctx : CertContext) :
    allowed s ctx = true ↔ ctx.der ≠ [] ∧ ¬ s.Disallowed ctx := by
  have hdis : s.Disallowed ctx
      ↔ isDisallowed ctx s.disallowedCU = true ∨ isDisallowed ctx s.disallowedLM = true := by
    rw [isDisallowed_iff, isDisallowed_iff, WindowsStores.Disallowed]
    constructor
    · rintro ⟨sha1, hsha, hit, hmem | hmem, hhit⟩
      · exact Or.inl ⟨sha1, hsha, hit, hmem, hhit⟩
      · exact Or.inr ⟨sha1, hsha, hit, hmem, hhit⟩
    · rintro (⟨sha1, hsha, hit, hmem, hhit⟩ | ⟨sha1, hsha, hit, hmem, hhit⟩)
      · exact ⟨sha1, hsha, hit, Or.inl hmem, hhit⟩
      · exact ⟨sha1, hsha, hit, Or.inr hmem, hhit⟩
  rw [hdis, allowed, Bool.and_eq_true, Bool.and_eq_true, decide_eq_true_eq, Bool.not_eq_true',
    Bool.not_eq_true', not_or, Bool.not_eq_true, Bool.not_eq_true, and_assoc]

theorem mem_offered_iff (roots : SystemRoots) (d : Bytes) :
    d ∈ (offered roots).map (·.der) ↔ roots.Trusts d := by
  rw [List.mem_map]
  cases roots with
  | windows s =>
    constructor
    · rintro ⟨ctx, hctx, rfl⟩
      obtain ⟨hmem, hallowed⟩ := List.mem_filter.mp hctx
      obtain ⟨hne, hdis⟩ := (allowed_iff s ctx).mp hallowed
      exact ⟨ctx, List.mem_append.mp hmem, hdis, rfl, hne⟩
    · rintro ⟨ctx, hmem, hdis, rfl, hne⟩
      exact ⟨ctx, List.mem_filter.mpr ⟨List.mem_append.mpr hmem, (allowed_iff s ctx).mpr ⟨hne, hdis⟩⟩,
        rfl⟩
  | macOS anchors =>
    constructor
    · rintro ⟨cert, hcert, rfl⟩
      obtain ⟨hmem, hne⟩ := List.mem_filter.mp hcert
      exact ⟨cert, hmem, rfl, of_decide_eq_true hne⟩
    · rintro ⟨cert, hmem, rfl, hne⟩
      exact ⟨cert, List.mem_filter.mpr ⟨hmem, decide_eq_true hne⟩, rfl⟩

/-- The certificates a connection trusts. -/
def CaLoad.chain : CaLoad → List Bytes
  | .trusts chain _ => chain
  | .noBlob | .certProblem _ => []

/-- What the connection trusts, against what the machine trusts. -/
structure TrustRight (R : CaRuntime) (parseDer : Bytes → DerResult) (roots : SystemRoots)
    (load : CaLoad) : Prop where
  sound : ∀ c ∈ load.chain, roots.Trusts c ∧ parseDer c = .ok
  once : (load.chain.map R.sha256Hex).Nodup
  /-- For each certificate one with its hash was passed on, and is there if the parser takes it. -/
  complete : ∀ d, roots.Trusts d →
    ∃ e, roots.Trusts e ∧ R.sha256Hex e = R.sha256Hex d ∧ (parseDer e = .ok → e ∈ load.chain)
  noBlob_iff : load = .noBlob ↔ ∀ d, ¬ roots.Trusts d
  trusts_ne_nil : ∀ chain failed, load = .trusts chain failed → chain ≠ []

/-- The machine as the stores see it. -/
def machine (R : CaRuntime) (fileExists : Text → Bool) (roots : SystemRoots) : CaMachine :=
  ⟨fileExists, systemBundle R roots⟩

/-- The blob of the platform's store once its bundle has been verified. -/
def storeBlob (R : CaRuntime) (fileExists : Text → Bool) (roots : SystemRoots) : Bytes :=
  (({} : TSystemCAStore).verifyBundle (machine R fileExists roots)).1.certsAsBlob

theorem chain_loaded (parseDer : Bytes → DerResult) (ders : List Bytes) :
    (loaded parseDer ders).chain = ders.filter (accepts parseDer) := by
  rw [loaded]
  split
  · rfl
  · rename_i hnone
    rw [Bool.not_eq_true, List.any_eq_false] at hnone
    exact (List.filter_eq_nil_iff.mpr hnone).symm

section

variable {R : CaRuntime}

theorem SystemRoots.Trusts.ne_nil {roots : SystemRoots} {d : Bytes} (h : roots.Trusts d) : d ≠ [] := by
  cases roots with
  | windows s =>
    obtain ⟨-, -, -, -, hne⟩ := h
    exact hne
  | macOS anchors =>
    obtain ⟨-, -, -, hne⟩ := h
    exact hne

/-- The bundle: roots that the machine trusts, one for each hash. -/
theorem keptRoots_spec (R : CaRuntime) (roots : SystemRoots) :
    ((keptRoots R roots).map R.sha256Hex).Nodup
      ∧ (∀ d ∈ keptRoots R roots, roots.Trusts d)
      ∧ ∀ d, roots.Trusts d → ∃ e ∈ keptRoots R roots, R.sha256Hex e = R.sha256Hex d := by
  have hspec : _ ∧ _ ∧ _ := @collected _ _ R.sha256Hex _ [] ((offered roots).map (·.der)) List.nodup_nil
  obtain ⟨hnodup, hmem, hkeys⟩ := hspec
  refine ⟨hnodup, ?_, ?_⟩
  · intro d hd
    exact (mem_offered_iff roots d).mp ((hmem d hd).resolve_left List.not_mem_nil)
  · intro d hd
    have hkey := hkeys (R.sha256Hex d)
      (Or.inr (List.mem_map_of_mem ((mem_offered_iff roots d).mpr hd)))
    exact List.mem_map.mp hkey

/-- The blob of a machine without roots, and of one with roots. -/
theorem storeBlob_eq (fileExists : Text → Bool) (roots : SystemRoots) :
    (keptRoots R roots = [] ∧ storeBlob R fileExists roots = [])
      ∨ ∃ ders : List Bytes, ders ≠ [] ∧ ders.Perm (keptRoots R roots)
        ∧ (storeBlob R fileExists roots = ders.flatMap pemOf
          ∨ storeBlob R fileExists roots = (ders.flatMap pemOf).dropLast ++ [0]) := by
  have hbundles := bundles_eq (R := R) roots
  by_cases hkept : keptRoots R roots = []
  · left
    refine ⟨hkept, ?_⟩
    have hnone : systemBundle R roots = none := by
      rw [systemBundle, CAStoreBundler.hasBundle, hbundles, hkept]
      rfl
    rw [storeBlob, machine, hnone]
    rfl
  · right
    obtain ⟨ders, hperm, htext⟩ := getBundle_eq hbundles
    have hsome : systemBundle R roots = some (R.toUTF8StringBuffer (fromBytes (ders.flatMap pemOf))) := by
      rw [systemBundle, CAStoreBundler.hasBundle, hbundles, htext]
      cases hk : keptRoots R roots with
      | nil => exact absurd hk hkept
      | cons d ds => rfl
    have hascii : ∀ c ∈ ders.flatMap pemOf, c < 128 := by
      intro c hc
      obtain ⟨d, -, hcd⟩ := List.mem_flatMap.mp hc
      exact pemOf_ascii hcd
    refine ⟨ders, ?_, hperm, ?_⟩
    · rintro rfl
      exact hkept hperm.nil_eq.symm
    · rw [storeBlob, machine, hsome]
      exact R.toUTF8StringBuffer_ascii _ hascii

/-- A blob that is too long is refused, and nobody says so. -/
theorem loadCaBlob_long (parseDer : Bytes → DerResult) {blob : Bytes}
    (hlong : curlMaxInputLength < blob.length) : loadCaBlob parseDer blob = some .noBlob := by
  rw [loadCaBlob, setblobopt, if_pos hlong]
  split <;> rfl

/-- A blob that libcurl takes. -/
theorem trust_of_short (R : CaRuntime) (parseDer : Bytes → DerResult)
    (hmem : ∀ d, parseDer d ≠ .allocFailed) (fileExists : Text → Bool) (roots : SystemRoots)
    (hshort : (storeBlob R fileExists roots).length ≤ curlMaxInputLength) :
    ∃ load, loadCaBlob parseDer (storeBlob R fileExists roots) = some load
      ∧ TrustRight R parseDer roots load := by
  obtain ⟨hnodup, htrusts, hkeys⟩ := keptRoots_spec R roots
  rcases storeBlob_eq (R := R) fileExists roots with ⟨hkept, hblob⟩ | ⟨ders, hne, hperm, hblob⟩
  · have hnobody : ∀ d, ¬ roots.Trusts d := by
      intro d hd
      obtain ⟨e, he, -⟩ := hkeys d hd
      rw [hkept] at he
      exact List.not_mem_nil he
    refine ⟨.noBlob, by rw [hblob]; rfl, ?_⟩
    exact {
      sound := fun c hc => absurd hc List.not_mem_nil
      once := List.nodup_nil
      complete := fun d hd => absurd hd (hnobody d)
      noBlob_iff := ⟨fun _ => hnobody, fun _ => rfl⟩
      trusts_ne_nil := nofun }
  · have hders : ∀ d ∈ ders, roots.Trusts d := fun d hd => htrusts d (hperm.mem_iff.mp hd)
    refine ⟨loaded parseDer ders,
      loadCaBlob_bundle hmem hne (fun d hd => (hders d hd).ne_nil) hblob hshort, ?_⟩
    have hchain := chain_loaded parseDer ders
    exact {
      sound := by
        intro c hc
        rw [hchain, List.mem_filter] at hc
        exact ⟨hders c hc.1, of_decide_eq_true hc.2⟩
      once := by
        rw [hchain]
        have hall : (ders.map R.sha256Hex).Nodup := (hperm.map _).nodup_iff.mpr hnodup
        exact nodup_map_of_sublist List.filter_sublist hall
      complete := by
        intro d hd
        obtain ⟨e, he, hkey⟩ := hkeys d hd
        refine ⟨e, htrusts e he, hkey, fun hok => ?_⟩
        rw [hchain, List.mem_filter]
        exact ⟨hperm.mem_iff.mpr he, decide_eq_true hok⟩
      noBlob_iff := by
        constructor
        · intro hload
          rw [loaded] at hload
          split at hload <;> exact nomatch hload
        · intro hnone
          obtain ⟨d, hd⟩ := List.exists_mem_of_ne_nil _ hne
          exact absurd (hders d hd) (hnone d)
      trusts_ne_nil := by
        intro chain failed hload
        rw [loaded] at hload
        split at hload
        · rename_i hany
          obtain ⟨d, hd, hok⟩ := List.any_eq_true.mp hany
          obtain ⟨rfl, -⟩ := CaLoad.trusts.inj hload
          exact List.ne_nil_of_mem (List.mem_filter.mpr ⟨hd, hok⟩)
        · exact nomatch hload }

/-- **A connection trusts what the machine trusts and the parser accepts, and nothing else**, if the
bundle is not too long for libcurl; if it is, the connection has no blob, and libcurl's default. -/
theorem trust_right (R : CaRuntime) (parseDer : Bytes → DerResult)
    (hmem : ∀ d, parseDer d ≠ .allocFailed) (fileExists : Text → Bool) (roots : SystemRoots) :
    ∃ load, loadCaBlob parseDer (storeBlob R fileExists roots) = some load ∧
      ((storeBlob R fileExists roots).length ≤ curlMaxInputLength →
        TrustRight R parseDer roots load) ∧
      (curlMaxInputLength < (storeBlob R fileExists roots).length → load = .noBlob) := by
  by_cases hshort : (storeBlob R fileExists roots).length ≤ curlMaxInputLength
  · obtain ⟨load, hload, hright⟩ := trust_of_short R parseDer hmem fileExists roots hshort
    exact ⟨load, hload, fun _ => hright, fun hlong => absurd hshort (Nat.not_le.mpr hlong)⟩
  · have hlong := Nat.lt_of_not_le hshort
    exact ⟨.noBlob, loadCaBlob_long parseDer hlong, fun h => absurd h hshort, fun _ => rfl⟩

end

/-- A machine with a root in both root stores and a root that its user has disallowed; the runtime
walks its map in the order of insertion. -/
theorem trust_right_disallowed :
    let runtime : CaRuntime := {
      sha256Hex := fun d =>
        if d = [48, 3, 2, 1, 5] then
          lit "417c7763c4e320a6b747b3cb0c6d22f93741b29a32b48594b8eb4c144fe6d729"
        else fromBytes d
      values := List.map (·.2)
      toUTF8StringBuffer := fun t => (toUTF8String t).take t.length
      values_perm := fun m => List.Perm.refl _
      toUTF8StringBuffer_ascii := by
        intro s hs
        left
        have hbytes : toUTF8String (fromBytes s) = s :=
          Utf8Text.toUTF8String_ascii fun b hb => UInt8.lt_iff_toNat_lt.mp (hs b hb)
        rw [hbytes, fromBytes, List.length_map]
        exact List.take_length }
    let root : CertContext := {
      der := [48, 3, 2, 1, 5]
      sha1 := some [22, 195, 195, 224, 187, 91, 95, 79, 186, 236, 219, 109, 243, 122, 90, 79, 157, 17, 150,
        228] }
    let bad : CertContext := {
      der := [48, 3, 2, 1, 6]
      sha1 := some [2, 179, 75, 138, 235, 86, 7, 124, 119, 22, 86, 48, 188, 170, 151, 100, 17, 217, 168,
        214] }
    let roots : SystemRoots := .windows ⟨some [root, bad], some [root], some [bad], none⟩
    let parseDer := fun d : Bytes => if d.head? = some 48 then DerResult.ok else .failed 1
    ∃ load, loadCaBlob parseDer (storeBlob runtime (fun _ => false) roots) = some load
      ∧ TrustRight runtime parseDer roots load := by
  intro runtime root bad roots parseDer
  obtain ⟨load, hload, hright, -⟩ := trust_right runtime parseDer
    (fun d => by dsimp only [parseDer]; split <;> exact nofun) (fun _ => false) roots
  have hlength : (storeBlob runtime (fun _ => false) roots).length = 63 := by decide +kernel
  exact ⟨load, hload, hright (by rw [hlength, curlMaxInputLength]; omega)⟩

end NetMod.CaBundle
