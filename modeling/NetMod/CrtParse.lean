import NetMod.PemText

/-!
# `mbedtls_x509_crt_parse`: a text of certificates taken apart

The loop that cuts a buffer up into blocks and hands each one to the certificate parser,
`mbedtls_x509_crt_parse_der`, which is a parameter.  Whatever the bytes of the buffer are, the loop
comes to its end and never reads past the last NUL (`blob_taken_apart`).
-/

namespace NetMod.CrtParse

open NetMod.CurlText NetMod.PemText

/-! ### The loop -/

/-- What `mbedtls_x509_crt_parse_der` says of a certificate. -/
inductive DerResult where
  | ok
  | allocFailed
  | failed (code : Nat)
deriving DecidableEq

inductive CrtError where
  | pem (e : PemError)
  | der (code : Nat)
  | allocFailed
  | unknownFormat
deriving DecidableEq

/-- The chain and the local variables of `mbedtls_x509_crt_parse`. -/
structure CrtState where
  chain : List Bytes := []
  success : Bool := false
  firstError : Option CrtError := none
  totalFailed : Nat := 0

namespace CrtState

def fail (s : CrtState) (e : CrtError) : CrtState :=
  { s with firstError := s.firstError <|> some e, totalFailed := s.totalFailed + 1 }

def accept (s : CrtState) (der : Bytes) : CrtState :=
  { s with chain := s.chain ++ [der], success := true }

end CrtState

/-- The loop of `mbedtls_x509_crt_parse` over what is left of the text, its last NUL included: the
state that it leaves, and the error with which it returns at once. -/
def crtLoop (parseDer : Bytes → DerResult) : Nat → Bytes → CrtState → Option (CrtState × Option CrtError)
  | 0, _, _ => none
  | fuel + 1, buf, s =>
    if buf.length ≤ 1 then some (s, none)
    else
      match mbedtlsPemReadBuffer beginMarker endMarker buf with
      | .noHeaderFooter => some (s, none)
      | .failed .badInputData _ => some (s, some (.pem .badInputData))
      | .failed e useLen => crtLoop parseDer fuel (buf.drop useLen) (s.fail (.pem e))
      | .ok der useLen =>
        match parseDer der with
        | .allocFailed => some (s, some .allocFailed)
        | .failed code => crtLoop parseDer fuel (buf.drop useLen) (s.fail (.der code))
        | .ok => crtLoop parseDer fuel (buf.drop useLen) (s.accept der)

/-- The return value of `mbedtls_x509_crt_parse`: how many certificates failed, or the error. -/
def crtResult : CrtState × Option CrtError → List Bytes × Except CrtError Nat
  | (s, some e) => (s.chain, .error e)
  | (s, none) =>
    (s.chain,
      if s.success then .ok s.totalFailed else .error (s.firstError.getD .unknownFormat))

/-- `mbedtls_x509_crt_parse` of a buffer into an empty chain; as many turns as the buffer has bytes
are enough (`blob_taken_apart`). -/
def mbedtlsX509CrtParse (parseDer : Bytes → DerResult) (buf : Bytes) :
    Option (List Bytes × Except CrtError Nat) :=
  if buf.getLast? = some 0 ∧ (strstr beginMarker buf).isSome then
    (crtLoop parseDer buf.length buf {}).map crtResult
  else
    match parseDer buf with
    | .ok => some ([buf], .ok 0)
    | .allocFailed => some ([], .error .allocFailed)
    | .failed code => some ([], .error (.der code))

/-! ### The loop ends on every blob -/

section

variable {needle data : Bytes}

/-- Nothing before an offset ends the text. -/
def Inside (data : Bytes) (i : Nat) : Prop := ∀ j < i, charAt data j ≠ 0

theorem charAt_eq_of_prefix {a : Bytes} (h : a <+: data) {j : Nat} (hj : j < a.length) :
    charAt data j ∈ a := by
  obtain ⟨t, rfl⟩ := h
  rw [charAt, List.getD_eq_getElem?_getD, List.getElem?_append_left hj, List.getElem?_eq_getElem hj]
  exact List.getElem_mem hj

/-- What `strstr` finds ends before the text does. -/
theorem inside_of_strstr (hneedle : (0 : UInt8) ∉ needle) {i : Nat}
    (h : strstr needle data = some i) : Inside data (i + needle.length) := by
  induction data generalizing i with
  | nil =>
    rw [strstr] at h
    exact absurd h.symm (Option.some_ne_none i)
  | cons c s ih =>
    rw [strstr] at h
    split at h
    · rename_i hpre
      obtain rfl : 0 = i := Option.some.inj h
      intro j hj hzero
      rw [Nat.zero_add] at hj
      exact hneedle (hzero ▸ charAt_eq_of_prefix (List.isPrefixOf_iff_prefix.mp hpre) hj)
    · split at h
      · exact absurd h.symm (Option.some_ne_none i)
      · rename_i hc
        obtain ⟨i', hi', rfl⟩ := Option.map_eq_some_iff.mp h
        intro j hj
        cases j with
        | zero => exact hc
        | succ j => exact ih hi' j (by omega)

/-- Skipping a character that does not end the text stays inside. -/
theorem Inside.skip {i : Nat} (h : Inside data i) {c : UInt8} (hc : c ≠ 0) :
    Inside data (skip data c i) := by
  rw [PemText.skip]
  split
  · rename_i heq
    intro j hj
    rcases Nat.lt_succ_iff_lt_or_eq.mp hj with hj | rfl
    · exact h j hj
    · rw [heq]
      exact hc
  · exact h

theorem Inside.lt_length {i : Nat} (h : Inside data i) (hnul : data.getLast? = some 0) :
    i < data.length := by
  have hne : data ≠ [] := by
    rintro rfl
    exact nomatch hnul
  have hpos := List.length_pos_of_ne_nil hne
  have hlast : charAt data (data.length - 1) = 0 := by
    rw [charAt, List.getD_eq_getElem?_getD, ← List.getLast?_eq_getElem?, hnul]
    rfl
  by_contra hge
  exact h _ (by omega) hlast

/-- How much of the text a result of the reader says is used. -/
def used : PemRead → Nat
  | .noHeaderFooter => 0
  | .failed _ useLen => useLen
  | .ok _ useLen => useLen

theorem le_skip (data : Bytes) (c : UInt8) (i : Nat) : i ≤ skip data c i := by
  rw [PemText.skip]
  split <;> omega

/-- **The reader uses up a block at least, and never the end of the text.** -/
theorem used_inside {header footer : Bytes} (hfooter : (0 : UInt8) ∉ footer) :
    mbedtlsPemReadBuffer header footer data = .noHeaderFooter
      ∨ (footer.length < used (mbedtlsPemReadBuffer header footer data)
        ∧ Inside data (used (mbedtlsPemReadBuffer header footer data))) := by
  rw [mbedtlsPemReadBuffer]
  cases strstr header data with
  | none => exact Or.inl rfl
  | some s1 =>
    cases hs2 : strstr footer data with
    | none => exact Or.inl rfl
    | some s2 =>
      dsimp only
      split
      · exact Or.inl rfl
      · rename_i horder
        split
        · exact Or.inl rfl
        · have hsp := le_skip data (byte ' ') (s2 + footer.length)
          have hcr := le_skip data (byte '\r') (skip data (byte ' ') (s2 + footer.length))
          have hlf := le_skip data (byte '\n')
            (skip data (byte '\r') (skip data (byte ' ') (s2 + footer.length)))
          have hinside := (((inside_of_strstr hfooter hs2).skip (c := byte ' ') (by decide)).skip
            (c := byte '\r') (by decide)).skip (c := byte '\n') (by decide)
          right
          split
          · exact ⟨by rw [used]; omega, hinside⟩
          · split
            · exact ⟨by rw [used]; omega, hinside⟩
            · split
              · exact ⟨by rw [used]; omega, hinside⟩
              · exact ⟨by rw [used]; omega, hinside⟩

/-- What is left behind a block still ends with a NUL, and is shorter. -/
theorem rest_of_used {useLen : Nat} (hpos : 0 < useLen) (h : Inside data useLen)
    (hnul : data.getLast? = some 0) :
    (data.drop useLen).getLast? = some 0 ∧ (data.drop useLen).length < data.length := by
  have hlt := h.lt_length hnul
  constructor
  · rw [List.getLast?_drop, if_neg (by omega), hnul]
  · rw [List.length_drop]
    omega

/-- What turns of the loop may do on `n` bytes: append certificates that the parser accepted, set
the flag with them, and count failures; each turn takes a footer's bytes and one more. -/
structure Advanced (parseDer : Bytes → DerResult) (n : Nat) (s s' : CrtState) (added : List Bytes) :
    Prop where
  chain : s'.chain = s.chain ++ added
  accepted : ∀ d ∈ added, parseDer d = .ok
  success : s'.success = (s.success || !added.isEmpty)
  counted : 26 * (added.length + s'.totalFailed) ≤ n + 26 * s.totalFailed

theorem Advanced.refl (parseDer : Bytes → DerResult) (n : Nat) (s : CrtState) :
    Advanced parseDer n s s [] where
  chain := (List.append_nil _).symm
  accepted := fun _ hd => absurd hd List.not_mem_nil
  success := (Bool.or_false _).symm
  counted := by rw [List.length_nil]; omega

theorem Advanced.of_fail {parseDer : Bytes → DerResult} {n m : Nat} {s s' : CrtState} {e : CrtError}
    {added : List Bytes} (h : Advanced parseDer n (s.fail e) s' added) (hm : n + 26 ≤ m) :
    Advanced parseDer m s s' added where
  chain := h.chain
  accepted := h.accepted
  success := h.success
  counted := by
    have hcounted : 26 * (added.length + s'.totalFailed) ≤ n + 26 * (s.totalFailed + 1) := h.counted
    omega

theorem Advanced.of_accept {parseDer : Bytes → DerResult} {n m : Nat} {s s' : CrtState} {d : Bytes}
    {added : List Bytes} (h : Advanced parseDer n (s.accept d) s' added) (hd : parseDer d = .ok)
    (hm : n + 26 ≤ m) : Advanced parseDer m s s' (d :: added) where
  chain := by
    rw [h.chain, CrtState.accept, List.append_assoc]
    rfl
  accepted := List.forall_mem_cons.mpr ⟨hd, h.accepted⟩
  success := by
    rw [h.success]
    simp [CrtState.accept]
  counted := by
    have hcounted : 26 * (added.length + s'.totalFailed) ≤ n + 26 * s.totalFailed := h.counted
    rw [List.length_cons]
    omega

/-- **As many turns as the buffer has bytes are enough, and none of them reads past its end.** -/
theorem crtLoop_advanced (parseDer : Bytes → DerResult) (fuel : Nat) (buf : Bytes) (s : CrtState)
    (hnul : buf.getLast? = some 0) (hfuel : buf.length ≤ fuel) :
    ∃ s' e added, crtLoop parseDer fuel buf s = some (s', e)
      ∧ Advanced parseDer buf.length s s' added := by
  induction fuel generalizing buf s with
  | zero =>
    have hnil : buf = [] := List.eq_nil_of_length_eq_zero (by omega)
    rw [hnil] at hnul
    exact nomatch hnul
  | succ fuel ih =>
    rw [crtLoop]
    split
    · exact ⟨s, none, [], rfl, .refl parseDer _ s⟩
    · have hrest : ∀ useLen, endMarker.length < useLen ∧ Inside buf useLen →
          ∀ s, ∃ s' e added, crtLoop parseDer fuel (buf.drop useLen) s = some (s', e)
            ∧ Advanced parseDer (buf.drop useLen).length s s' added
            ∧ (buf.drop useLen).length + 26 ≤ buf.length := by
        intro useLen huse s
        obtain ⟨hnul', hlt⟩ := rest_of_used (by omega) huse.2 hnul
        obtain ⟨s', e, added, hrun, hadvanced⟩ := ih _ s hnul' (by omega)
        have hmarker : endMarker.length = 25 := rfl
        have hinside := huse.2.lt_length hnul
        exact ⟨s', e, added, hrun, hadvanced, by rw [List.length_drop]; omega⟩
      have hused := @used_inside buf beginMarker endMarker (by decide)
      cases hread : mbedtlsPemReadBuffer beginMarker endMarker buf with
      | noHeaderFooter => exact ⟨s, none, [], rfl, .refl parseDer _ s⟩
      | failed e useLen =>
        rw [hread] at hused
        obtain ⟨s', e', added, hrun, hadvanced, hm⟩ :=
          hrest useLen (hused.resolve_left nofun) (s.fail (.pem e))
        cases e with
        | badInputData => exact ⟨s, some (.pem .badInputData), [], rfl, .refl parseDer _ s⟩
        | _ => exact ⟨s', e', added, hrun, hadvanced.of_fail hm⟩
      | ok der useLen =>
        rw [hread] at hused
        have huse := hused.resolve_left nofun
        dsimp only
        cases hder : parseDer der with
        | allocFailed => exact ⟨s, some .allocFailed, [], rfl, .refl parseDer _ s⟩
        | failed code =>
          obtain ⟨s', e', added, hrun, hadvanced, hm⟩ := hrest useLen huse (s.fail (.der code))
          exact ⟨s', e', added, hrun, hadvanced.of_fail hm⟩
        | ok =>
          obtain ⟨s', e', added, hrun, hadvanced, hm⟩ := hrest useLen huse (s.accept der)
          exact ⟨s', e', der :: added, hrun, hadvanced.of_accept hder hm⟩

/-- The texts that the loop looks at if it does not stop: each is what the reader has left of the one
before. -/
inductive LookedAt (buf : Bytes) : Bytes → Prop
  | start : LookedAt buf buf
  | next {rest : Bytes} : LookedAt buf rest →
      LookedAt buf (rest.drop (used (mbedtlsPemReadBuffer beginMarker endMarker rest)))

/-- **The last NUL is never used up.** -/
theorem LookedAt.nul {buf rest : Bytes} (h : LookedAt buf rest) (hnul : buf.getLast? = some 0) :
    rest.getLast? = some 0 := by
  induction h with
  | start => exact hnul
  | @next rest h ih =>
    rcases @used_inside rest beginMarker endMarker (by decide) with hread | ⟨hlong, hinside⟩
    · rw [hread, used, List.drop_zero]
      exact ih
    · exact (rest_of_used (Nat.zero_lt_of_lt hlong) hinside ih).1

theorem used_lt_length {rest : Bytes} (hnul : rest.getLast? = some 0) :
    used (mbedtlsPemReadBuffer beginMarker endMarker rest) < rest.length := by
  rcases @used_inside rest beginMarker endMarker (by decide) with hread | ⟨-, hinside⟩
  · rw [hread, used]
    refine List.length_pos_of_ne_nil fun hnil => ?_
    rw [hnil] at hnul
    exact nomatch hnul
  · exact hinside.lt_length hnul

/-- What the loop leaves of `n` bytes, whether it goes to the end or returns at once: certificates
that the parser accepted, the flag set with them, and no more blocks than fit. -/
structure LoopRight (parseDer : Bytes → DerResult) (n : Nat) (s : CrtState) : Prop where
  accepted : ∀ d ∈ s.chain, parseDer d = .ok
  success_iff : s.success = true ↔ s.chain ≠ []
  counted : s.chain.length + s.totalFailed ≤ n / 26

theorem Advanced.loopRight {parseDer : Bytes → DerResult} {n : Nat} {s : CrtState}
    {added : List Bytes} (h : Advanced parseDer n {} s added) : LoopRight parseDer n s := by
  have hchain : s.chain = added := h.chain
  have hsuccess : s.success = !added.isEmpty := h.success
  refine ⟨fun d hd => h.accepted d (hchain ▸ hd), ?_, ?_⟩
  · rw [hsuccess, hchain]
    simp
  · have hcounted := h.counted
    have hzero : ({} : CrtState).totalFailed = 0 := rfl
    rw [hchain]
    omega

/-- What `mbedtls_x509_crt_parse` leaves of a blob of `n` bytes: certificates that the parser
accepted, at least one if it reports success, and no more blocks than fit; a blob that is no text is
one certificate at most. -/
structure ParseRight (parseDer : Bytes → DerResult) (n : Nat) (chain : List Bytes)
    (r : Except CrtError Nat) : Prop where
  accepted : ∀ d ∈ chain, parseDer d = .ok
  some_of_ok : ∀ failed, r = .ok failed → chain ≠ [] ∧ (chain.length + failed ≤ max 1 (n / 26))
  bounded : chain.length ≤ max 1 (n / 26)

/-- What the return value says of the state. -/
theorem LoopRight.parseRight {parseDer : Bytes → DerResult} {n : Nat} {s : CrtState}
    (h : LoopRight parseDer n s) (e : Option CrtError) :
    ParseRight parseDer n (crtResult (s, e)).1 (crtResult (s, e)).2 := by
  have hcounted := h.counted
  cases e with
  | some e =>
    refine ⟨h.accepted, fun failed hr => ?_, ?_⟩
    · exact nomatch hr
    · dsimp only [crtResult]
      omega
  | none =>
    refine ⟨h.accepted, fun failed hr => ?_, ?_⟩
    · rw [crtResult] at hr ⊢
      dsimp only at hr ⊢
      split at hr
      · rename_i hyes
        obtain rfl : s.totalFailed = failed := Except.ok.inj hr
        exact ⟨h.success_iff.mp hyes, by omega⟩
      · exact nomatch hr
    · dsimp only [crtResult]
      omega

theorem parseRight_error {parseDer : Bytes → DerResult} {n : Nat} {e : CrtError} :
    ParseRight parseDer n [] (.error e) where
  accepted := fun _ hd => absurd hd List.not_mem_nil
  some_of_ok := fun _ hr => by cases hr
  bounded := Nat.zero_le _

/-- **Every blob, whatever its bytes, is taken apart to its end.**  No text that the loop may look at
has lost its last NUL, and none is used up; as many turns as there are bytes are enough, and what they
leave and what the function returns is right. -/
theorem blob_taken_apart (parseDer : Bytes → DerResult) (blob : Bytes) :
    (∀ rest, LookedAt (blob ++ [0]) rest → rest.getLast? = some 0 ∧
        used (mbedtlsPemReadBuffer beginMarker endMarker rest) < rest.length) ∧
      (∃ s e, crtLoop parseDer (blob.length + 1) (blob ++ [0]) {} = some (s, e) ∧
        LoopRight parseDer (blob.length + 1) s) ∧
      ∃ chain r, mbedtlsX509CrtParse parseDer (blob ++ [0]) = some (chain, r) ∧
        ParseRight parseDer (blob.length + 1) chain r := by
  have hnul : (blob ++ [0]).getLast? = some 0 := List.getLast?_concat
  have hlength : (blob ++ [0]).length = blob.length + 1 := List.length_append
  obtain ⟨s, e, added, hrun, hadvanced⟩ :=
    crtLoop_advanced parseDer (blob.length + 1) (blob ++ [0]) {} hnul (Nat.le_of_eq hlength)
  rw [hlength] at hadvanced
  have hright := hadvanced.loopRight
  refine ⟨fun rest hrest => ⟨hrest.nul hnul, used_lt_length (hrest.nul hnul)⟩,
    ⟨s, e, hrun, hright⟩, ?_⟩
  rw [mbedtlsX509CrtParse, hlength]
  split
  · rw [hrun]
    exact ⟨_, _, rfl, hright.parseRight e⟩
  · cases hder : parseDer (blob ++ [0]) with
    | ok =>
      refine ⟨_, _, rfl, ⟨fun d hd => ?_, fun failed hr => ?_, Nat.le_max_left _ _⟩⟩
      · rw [List.mem_singleton.mp hd]
        exact hder
      · obtain rfl : 0 = failed := Except.ok.inj hr
        exact ⟨List.cons_ne_nil _ _, Nat.le_max_left _ _⟩
    | allocFailed => exact ⟨_, _, rfl, parseRight_error⟩
    | failed code => exact ⟨_, _, rfl, parseRight_error⟩

end

end NetMod.CrtParse
