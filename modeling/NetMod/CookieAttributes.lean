import NetMod.Lib.SlotWrites
import NetMod.Lib.UniqueImage
import NetMod.SetCookieTotality

/-!
# Which attribute a call of the builder writes

`THttpCookieBuilder.Attribute` writes one key of the attribute map, or removes it.  The key is the
call's name but for letter case, except that `Max-Age` is stored under `MaxAge`, the name of its
`ECookieAttribute` constructor.  So the map behaves as slots with last writes (`writesOne`), and the
one pair of names that share a slot is `Max-Age` and `MaxAge`: `separated_iff` says when a getter
reads more than the calls of its own name.
-/

namespace NetMod.CookieAttributes

open NetMod.BlitzText NetMod.HttpCookie NetMod.SetCookieParser NetMod.SetCookieText
open NetMod.SetCookieTotality NetMod.SlotWrites NetMod.UniqueImage

/-! ### The attribute map -/

/-- The key of an entry, whatever its letters. -/
def foldedKey (P : Platform) (p : Text × Text) : Text := P.toLower p.1

/-- No two keys differ in case only, and none is empty. -/
structure Keyed (P : Platform) (m : Attributes) : Prop where
  distinct : (m.map (foldedKey P)).Nodup
  named : ∀ p ∈ m, p.1 ≠ []

theorem tryGetValue_cons (P : Platform) (p : Text × Text) (m : Attributes) (k : Text) :
    Attributes.tryGetValue P (p :: m) k =
      if P.toLower p.1 = P.toLower k then some p.2 else Attributes.tryGetValue P m k := by
  rw [Attributes.tryGetValue, Attributes.tryGetValue, List.find?_cons, Platform.equalsFold]
  by_cases h : P.toLower p.1 = P.toLower k
  · rw [if_pos h, h, beq_self_eq_true]
    rfl
  · rw [if_neg h, beq_eq_false_iff_ne.mpr h]

/-- Overwriting the value of a key that is there. -/
theorem tryGetValue_overwrite (P : Platform) (m : Attributes) (key value k : Text) :
    Attributes.tryGetValue P (m.map fun p => if P.equalsFold p.1 key then (p.1, value) else p) k =
      if P.toLower key = P.toLower k ∧ m.any (fun p => P.equalsFold p.1 key) then some value
      else m.tryGetValue P k := by
  induction m with
  | nil => simp [Attributes.tryGetValue]
  | cons p m ih =>
    rw [List.map_cons, tryGetValue_cons, tryGetValue_cons, ih, List.any_cons, Platform.equalsFold]
    by_cases hp : P.toLower p.1 = P.toLower key
    · by_cases hk : P.toLower key = P.toLower k
      · simp [hp, hk]
      · simp [hp, hk]
    · by_cases hk : P.toLower key = P.toLower k
      · have hpk : P.toLower p.1 ≠ P.toLower k := by rw [← hk]; exact hp
        have hpf : (P.toLower p.1 == P.toLower key) = false := beq_eq_false_iff_ne.mpr hp
        simp only [hpf, hpk, Bool.false_eq_true, if_false, Bool.false_or]
      · simp [hp, hk]

theorem tryGetValue_append (P : Platform) (m : Attributes) (key value k : Text) :
    Attributes.tryGetValue P (m ++ [(key, value)]) k =
      (m.tryGetValue P k).or (if P.toLower key = P.toLower k then some value else none) := by
  induction m with
  | nil =>
    rw [List.nil_append, tryGetValue_cons]
    rfl
  | cons p m ih =>
    rw [List.cons_append, tryGetValue_cons, tryGetValue_cons, ih]
    by_cases hp : P.toLower p.1 = P.toLower k
    · rw [if_pos hp, if_pos hp, Option.some_or]
    · rw [if_neg hp, if_neg hp]

/-- A key that no entry has is not found. -/
theorem tryGetValue_eq_none {P : Platform} {m : Attributes} {k : Text}
    (h : ∀ p ∈ m, P.toLower p.1 ≠ P.toLower k) : m.tryGetValue P k = none := by
  rw [Attributes.tryGetValue, Option.map_eq_none_iff, List.find?_eq_none]
  intro p hp
  simpa [Platform.equalsFold] using h p hp

theorem tryGetValue_put (P : Platform) (m : Attributes) (key value k : Text) :
    (m.put P key value).tryGetValue P k =
      if P.toLower key = P.toLower k then some value else m.tryGetValue P k := by
  rw [Attributes.put]
  by_cases hany : m.any (fun p => P.equalsFold p.1 key) = true
  · rw [if_pos hany, tryGetValue_overwrite]
    simp only [hany, and_true]
  · rw [if_neg hany, tryGetValue_append]
    by_cases hk : P.toLower key = P.toLower k
    · have hnone : m.tryGetValue P k = none := by
        refine tryGetValue_eq_none fun p hp hpk => hany (List.any_eq_true.mpr ⟨p, hp, ?_⟩)
        simp [Platform.equalsFold, hpk, hk]
      rw [hnone, if_pos hk]
      rfl
    · rw [if_neg hk, if_neg hk, Option.or_none]

theorem tryGetValue_remove (P : Platform) (m : Attributes) (key k : Text) :
    (m.remove P key).tryGetValue P k =
      if P.toLower key = P.toLower k then none else m.tryGetValue P k := by
  induction m with
  | nil => simp [Attributes.remove, Attributes.tryGetValue]
  | cons p m ih =>
    rw [Attributes.remove, List.filter_cons, tryGetValue_cons, Platform.equalsFold]
    rw [Attributes.remove] at ih
    by_cases hp : P.toLower p.1 = P.toLower key
    · rw [if_neg (by simp [hp]), ih]
      by_cases hk : P.toLower key = P.toLower k
      · rw [if_pos hk, if_pos hk]
      · rw [if_neg hk, if_neg hk, if_neg (by rw [hp]; exact hk)]
    · rw [if_pos (by simp [hp]), tryGetValue_cons, ih]
      by_cases hk : P.toLower key = P.toLower k
      · rw [if_pos hk, if_pos hk, if_neg (by rw [← hk]; exact hp)]
      · rw [if_neg hk, if_neg hk]

theorem keyed_nil (P : Platform) : Keyed P [] := ⟨List.nodup_nil, fun _ h => absurd h List.not_mem_nil⟩

theorem keyed_put {P : Platform} {m : Attributes} (hm : Keyed P m) {key : Text} (hkey : key ≠ [])
    (value : Text) : Keyed P (m.put P key value) := by
  rw [Attributes.put]
  by_cases hany : m.any (fun p => P.equalsFold p.1 key) = true
  · have hkeys : (m.map fun p => if P.equalsFold p.1 key then (p.1, value) else p).map Prod.fst =
        m.map Prod.fst := by
      rw [List.map_map]
      apply List.map_congr_left
      intro p _
      rw [Function.comp_apply]
      split <;> rfl
    have hfold : ∀ m : Attributes, m.map (foldedKey P) = (m.map Prod.fst).map P.toLower :=
      fun m => by rw [List.map_map]; rfl
    rw [if_pos hany]
    refine ⟨?_, fun p hp => ?_⟩
    · rw [hfold, hkeys, ← hfold]
      exact hm.distinct
    · obtain ⟨q, hq, hqp⟩ := List.mem_map.mp (hkeys ▸ List.mem_map_of_mem (f := Prod.fst) hp)
      rw [← hqp]
      exact hm.named q hq
  · rw [if_neg hany]
    refine ⟨nodup_map_concat hm.distinct fun p hp hpk => hany ?_, fun p hp => ?_⟩
    · exact List.any_eq_true.mpr ⟨p, hp, beq_iff_eq.mpr hpk⟩
    · rcases List.mem_append.mp hp with hp | hp
      · exact hm.named p hp
      · rw [List.mem_singleton.mp hp]
        exact hkey

theorem keyed_remove {P : Platform} {m : Attributes} (hm : Keyed P m) (key : Text) :
    Keyed P (m.remove P key) where
  distinct := nodup_map_of_sublist List.filter_sublist hm.distinct
  named p hp := hm.named p (List.mem_filter.mp hp).1

/-- **Copying a map reads the same**: `Build` puts the entries into a new map. -/
theorem tryGetValue_copy (P : Platform) (k : Text) (m : Attributes)
    (hm : (m.map (foldedKey P)).Nodup) :
    ∀ acc : Attributes, (m.foldl (fun m p => m.put P p.1 p.2) acc).tryGetValue P k =
      (m.tryGetValue P k).or (acc.tryGetValue P k) := by
  induction m with
  | nil => intro acc; rfl
  | cons p m ih =>
    intro acc
    obtain ⟨hfresh, hrest⟩ := List.nodup_cons.mp hm
    rw [List.foldl_cons, ih hrest, tryGetValue_put, tryGetValue_cons]
    by_cases hk : P.toLower p.1 = P.toLower k
    · have hnone : Attributes.tryGetValue P m k = none := by
        refine tryGetValue_eq_none fun q hq hqk => hfresh ?_
        exact List.mem_map.mpr ⟨q, hq, hqk.trans hk.symm⟩
      rw [hnone, if_pos hk, if_pos hk]
      rfl
    · rw [if_neg hk, if_neg hk]

theorem tryGetValue_build {P : Platform} {b : THttpCookieBuilder} (hb : Keyed P b.attributes)
    (k : Text) : (b.build P).attributes.tryGetValue P k = b.attributes.tryGetValue P k := by
  show Attributes.tryGetValue P (b.attributes.foldl (fun m p => m.put P p.1 p.2) []) k = _
  rw [tryGetValue_copy P k b.attributes hb.distinct]
  exact Option.or_none

/-! ### What one call writes -/

/-- The key a call of `Attribute` writes or removes, in lower case. -/
def slot (P : Platform) (a : Text × Text) : Text :=
  if P.toLower a.1 = lit "max-age" then lit "maxage" else P.toLower a.1

/-- What the call leaves under its key; `none` when it removes it. -/
def written (P : Platform) (a : Text × Text) : Option Text :=
  let lower := P.toLower a.1
  if lower = [] then none
  else if lower = lit "expires" then
    let expires := if a.2 ≠ [] then parseExpires P a.2 else 0
    if 0 < expires then some (formatExpires P expires) else none
  else if lower = lit "max-age" then
    let maxAge := if a.2 ≠ [] then toLong a.2 else -1
    if 0 ≤ maxAge then some (ofInt maxAge) else none
  else if lower = lit "samesite" then
    let sameSite := validateSameSite P a.2
    if sameSite ≠ [] then some sameSite else none
  else if lower ∈ flags then
    if THttpCookieBuilder.asBoolean P a.2 = some true then some (lit "true") else none
  else if a.2 = [] then none else some a.2

section

variable {P : Platform} {name : Text} (value : Text)

theorem written_expires (h : P.toLower name = lit "expires") :
    written P (name, value) =
      if 0 < (if value ≠ [] then parseExpires P value else 0) then
        some (formatExpires P (if value ≠ [] then parseExpires P value else 0))
      else none := by
  simp only [written, h]
  rfl

theorem written_maxAge (h : P.toLower name = lit "max-age") :
    written P (name, value) =
      if 0 ≤ (if value ≠ [] then toLong value else -1) then
        some (ofInt (if value ≠ [] then toLong value else -1))
      else none := by
  simp only [written, h]
  rfl

theorem written_sameSite (h : P.toLower name = lit "samesite") :
    written P (name, value) =
      if validateSameSite P value ≠ [] then some (validateSameSite P value) else none := by
  simp only [written, h]
  rfl

theorem written_flag (h : P.toLower name ∈ flags) :
    written P (name, value) =
      if THttpCookieBuilder.asBoolean P value = some true then some (lit "true") else none := by
  simp only [flags, List.mem_cons, List.not_mem_nil, or_false] at h
  rw [written]
  rcases h with h | h | h <;> simp only [h] <;> rfl

end

theorem toLower_toText (P : Platform) (a : ECookieAttribute) :
    P.toLower a.toText = asciiPlatform.toLower a.toText := by
  apply toLower_of_ascii
  cases a <;> exact lit_ascii rfl

/-- `Put` under a key, or `Remove`. -/
def setKey (P : Platform) (b : THttpCookieBuilder) (key : Text) : Option Text → THttpCookieBuilder
  | some value => b.put P key value
  | none => b.remove P key

theorem keyed_setKey {P : Platform} {b : THttpCookieBuilder} (hb : Keyed P b.attributes) {key : Text}
    (hkey : key ≠ []) (written : Option Text) : Keyed P (setKey P b key written).attributes := by
  cases written with
  | none => exact keyed_remove hb key
  | some value => exact keyed_put hb hkey value

theorem setFlag_eq_setKey (P : Platform) (b : THttpCookieBuilder) (attr : ECookieAttribute)
    (on : Bool) :
    b.setFlag P attr on = setKey P b attr.toText (if on then some (lit "true") else none) := by
  cases on <;> rfl

/-- The flags: a Boolean under the constructor's name. -/
theorem flag_eq_setKey {P : Platform} {b b' : THttpCookieBuilder} {attr : ECookieAttribute}
    {value : Text} (h : (THttpCookieBuilder.asBoolean P value).map (b.setFlag P attr) = some b') :
    b' = setKey P b attr.toText
      (if THttpCookieBuilder.asBoolean P value = some true then some (lit "true") else none) := by
  obtain ⟨on, hon, rfl⟩ := Option.map_eq_some_iff.mp h
  rw [hon, setFlag_eq_setKey]
  simp only [Option.some.injEq]

theorem expires_eq_setKey (P : Platform) (b : THttpCookieBuilder) (n : Int) :
    b.expires P n =
      setKey P b ECookieAttribute.expires.toText
        (if 0 < n then some (formatExpires P n) else none) := by
  rw [THttpCookieBuilder.expires]
  split <;> rfl

theorem maxAge_eq_setKey (P : Platform) (b : THttpCookieBuilder) (n : Int) :
    b.maxAge P n =
      setKey P b ECookieAttribute.maxAge.toText (if 0 ≤ n then some (ofInt n) else none) := by
  rw [THttpCookieBuilder.maxAge]
  split <;> rfl

theorem sameSite_eq_setKey (P : Platform) (b : THttpCookieBuilder) (s : Text) :
    b.sameSite P s =
      setKey P b ECookieAttribute.sameSite.toText (if s ≠ [] then some s else none) := by
  rw [THttpCookieBuilder.sameSite]
  split <;> rfl

/-- **A call with a name writes one key**, and what it writes depends on the call alone. -/
theorem attribute_eq_setKey {P : Platform} {b b' : THttpCookieBuilder} {name value : Text}
    (hname : name ≠ []) (h : b.attribute P name value = some b') :
    ∃ key, P.toLower key = slot P (name, value) ∧ b' = setKey P b key (written P (name, value)) := by
  have hlower : P.toLower name ≠ [] := mt (toLower_eq_nil P).mp hname
  have hflag : ∀ attr : ECookieAttribute, P.toLower name ∈ flags →
      P.toLower attr.toText = P.toLower name →
      (THttpCookieBuilder.asBoolean P value).map (b.setFlag P attr) = some b' →
      ∃ key, P.toLower key = slot P (name, value) ∧
        b' = setKey P b key (written P (name, value)) := by
    intro attr hmem hkey hset
    refine ⟨attr.toText, ?_, ?_⟩
    · rw [hkey, slot, if_neg]
      intro hage
      rw [hage] at hmem
      exact absurd hmem (by decide)
    · rw [flag_eq_setKey hset, written_flag value hmem]
  rw [THttpCookieBuilder.attribute, if_neg hname] at h
  dsimp only at h
  by_cases hexpires : P.toLower name = lit "expires"
  · rw [if_pos hexpires] at h
    refine ⟨ECookieAttribute.expires.toText, ?_, ?_⟩
    · rw [slot, toLower_toText, hexpires]
      decide
    · rw [written_expires value hexpires, ← expires_eq_setKey, apply_ite (b.expires P)]
      exact (Option.some.inj h).symm
  rw [if_neg hexpires] at h
  by_cases hhttpOnly : P.toLower name = lit "httponly"
  · rw [if_pos hhttpOnly] at h
    exact hflag .httpOnly (by rw [hhttpOnly]; decide)
      (by rw [hhttpOnly, toLower_toText]; decide) h
  rw [if_neg hhttpOnly] at h
  by_cases hmaxAge : P.toLower name = lit "max-age"
  · rw [if_pos hmaxAge] at h
    refine ⟨ECookieAttribute.maxAge.toText, ?_, ?_⟩
    · rw [slot, if_pos hmaxAge, toLower_toText]
      decide
    · rw [written_maxAge value hmaxAge, ← maxAge_eq_setKey, apply_ite (b.maxAge P)]
      exact (Option.some.inj h).symm
  rw [if_neg hmaxAge] at h
  by_cases hsameSite : P.toLower name = lit "samesite"
  · rw [if_pos hsameSite] at h
    refine ⟨ECookieAttribute.sameSite.toText, ?_, ?_⟩
    · rw [slot, toLower_toText, hsameSite]
      decide
    · rw [written_sameSite value hsameSite, ← sameSite_eq_setKey]
      exact (Option.some.inj h).symm
  rw [if_neg hsameSite] at h
  by_cases hsecure : P.toLower name = lit "secure"
  · rw [if_pos hsecure] at h
    exact hflag .secure (by rw [hsecure]; decide) (by rw [hsecure, toLower_toText]; decide) h
  rw [if_neg hsecure] at h
  by_cases hpartitioned : P.toLower name = lit "partitioned"
  · rw [if_pos hpartitioned] at h
    exact hflag .partitioned (by rw [hpartitioned]; decide)
      (by rw [hpartitioned, toLower_toText]; decide) h
  rw [if_neg hpartitioned] at h
  refine ⟨name, by rw [slot, if_neg hmaxAge], ?_⟩
  have hplain : P.toLower name ∉ flags := by simp [flags, hhttpOnly, hsecure, hpartitioned]
  have hwritten : written P (name, value) = if value = [] then none else some value := by
    simp only [written, hlower, hexpires, hmaxAge, hsameSite, hplain, if_false]
  rw [hwritten]
  cases h
  split <;> rfl

theorem slot_eq_nil {P : Platform} {a : Text × Text} : slot P a = [] ↔ a.1 = [] := by
  rw [slot]
  split
  · rename_i hage
    apply iff_of_false (by decide)
    intro hnil
    rw [hnil, toLower_nil] at hage
    exact absurd hage (by decide)
  · exact toLower_eq_nil P

/-- One call of `Attribute`, as a step of a run. -/
def attributeStep (P : Platform) (b : THttpCookieBuilder) (a : Text × Text) :
    Option THttpCookieBuilder :=
  b.attribute P a.1 a.2

/-- **The builder's map is slots with last writes.** -/
theorem writesOne (P : Platform) :
    WritesOne (attributeStep P) (fun b => Keyed P b.attributes)
      (fun b k => b.attributes.tryGetValue P k) (fun a k => slot P a = P.toLower k)
      (written P) where
  keeps b a b' hb h := by
    obtain ⟨name, value⟩ := a
    by_cases hname : name = []
    · rw [attributeStep, THttpCookieBuilder.attribute, if_pos hname] at h
      cases h
      exact hb
    · obtain ⟨key, hkey, rfl⟩ := attribute_eq_setKey hname h
      have hne : key ≠ [] := by
        intro hnil
        rw [hnil, toLower_nil] at hkey
        exact hname (slot_eq_nil.mp hkey.symm)
      exact keyed_setKey hb hne _
  reads b a b' k hb h := by
    obtain ⟨name, value⟩ := a
    by_cases hname : name = []
    · rw [attributeStep, THttpCookieBuilder.attribute, if_pos hname] at h
      cases h
      subst hname
      have hslot : slot P ([], value) = [] := slot_eq_nil.mpr rfl
      rw [hslot]
      by_cases hk : [] = P.toLower k
      · have hnone : b.attributes.tryGetValue P k = none := by
          refine tryGetValue_eq_none fun p hp hpk => hb.named p hp ?_
          rw [← hk] at hpk
          exact (toLower_eq_nil P).mp hpk
        rw [if_pos hk, hnone, written, toLower_nil]
        rfl
      · rw [if_neg hk]
    · obtain ⟨key, hkey, rfl⟩ := attribute_eq_setKey hname h
      rw [← hkey]
      cases written P (name, value) with
      | none => exact tryGetValue_remove P b.attributes key k
      | some v => exact tryGetValue_put P b.attributes key v k

/-! ### Getters -/

/-- What a getter returns. -/
inductive Answer where
  | text (t : Text)
  | number (n : Int)
  | flag (b : Bool)
deriving DecidableEq, Repr

/-- A getter: that of a standard attribute, or `GetAttribute` by name. -/
inductive Getter where
  | standard (attr : ECookieAttribute)
  | named (name : Text)
deriving DecidableEq, Repr

/-- The attribute's name in a Set-Cookie header, as the attribute table has it. -/
def wireName : ECookieAttribute → Text
  | .comment => lit "Comment"
  | .domain => lit "Domain"
  | .expires => lit "Expires"
  | .httpOnly => lit "HttpOnly"
  | .maxAge => lit "Max-Age"
  | .path => lit "Path"
  | .sameSite => lit "SameSite"
  | .secure => lit "Secure"
  | .partitioned => lit "Partitioned"

namespace Getter

variable (P : Platform)

/-- The getter's answer on a cookie. -/
def ask (c : THttpCookie) : Getter → Answer
  | .standard .comment => .text (c.getComment P)
  | .standard .domain => .text (c.getDomain P)
  | .standard .expires => .number (c.getExpires P)
  | .standard .httpOnly => .flag (c.isHttpOnly P)
  | .standard .maxAge => .number (c.getMaxAge P)
  | .standard .path => .text (c.getPath P)
  | .standard .sameSite => .text (c.getSameSite P)
  | .standard .secure => .flag (c.isSecure P)
  | .standard .partitioned => .flag (c.isPartitioned P)
  | .named name => .text (c.getAttributeNamed P name)

/-- The name of the calls the getter is about. -/
def name : Getter → Text
  | .standard attr => wireName attr
  | .named name => name

/-- The key the getter looks up. -/
def key : Getter → Text
  | .standard attr => attr.toText
  | .named name => name

/-- A name asked for by `GetAttribute` is none of the standard ones. -/
def Asks : Getter → Prop
  | .standard _ => True
  | .named name => ∀ attr, P.toLower name ≠ P.toLower (wireName attr)

/-- The call is named as the getter, ignoring case. -/
def Named (g : Getter) (a : Text × Text) : Prop := P.toLower a.1 = P.toLower g.name

instance (g : Getter) : DecidablePred (g.Named P) := fun _ => inferInstanceAs (Decidable (_ = _))

/-- The getter's answer for a value found under its key. -/
def reads (found : Option Text) : Getter → Answer
  | .standard .expires =>
    .number (if found.getD [] = [] then 0 else parseExpires P (found.getD []))
  | .standard .maxAge => .number (if found.getD [] ≠ [] then toLong (found.getD []) else -1)
  | .standard .httpOnly | .standard .secure | .standard .partitioned =>
    .flag (found.getD [] ≠ [] ∧ P.toLower (found.getD []) ≠ lit "false")
  | .standard .comment | .standard .domain | .standard .path | .standard .sameSite | .named _ =>
    .text (found.getD [])

/-- Every getter looks one key up. -/
theorem ask_eq_reads (c : THttpCookie) (g : Getter) :
    g.ask P c = g.reads P (c.attributes.tryGetValue P g.key) := by
  cases g with
  | named name => rfl
  | standard attr => cases attr <;> rfl

end Getter

/-! ### Sequences of calls -/

/-- `THttpCookie.Build(name, value, version)`, the calls, and `Build()`; `none` where a call
raises. -/
def cookieOf (P : Platform) (name value : Text) (version : Int) (calls : List (Text × Text)) :
    Option THttpCookie :=
  (setAttributes P { name, value, version } calls).map fun b => b.build P

/-- What the last of the calls with a property writes. -/
def lastWritten (P : Platform) (p : Text × Text → Prop) [DecidablePred p]
    (calls : List (Text × Text)) : Option Text :=
  (lastOf p calls).bind (written P)

/-- **A getter reads the last write to its slot.** -/
theorem ask_build {P : Platform} {name value : Text} {version : Int} {calls : List (Text × Text)}
    {b : THttpCookieBuilder} (h : setAttributes P { name, value, version } calls = some b)
    (g : Getter) :
    g.ask P (b.build P) = g.reads P (lastWritten P (fun a => slot P a = P.toLower g.key) calls) := by
  have hkeyed : Keyed P (THttpCookieBuilder.attributes { name, value, version }) := keyed_nil P
  have hread := (writesOne P).read_run calls hkeyed h g.key
  have hb := (writesOne P).inv_run calls hkeyed h
  rw [g.ask_eq_reads, tryGetValue_build hb, hread, lastWritten]
  cases lastOf (fun a => slot P a = P.toLower g.key) calls <;> rfl

theorem toLower_wireName (P : Platform) (a : ECookieAttribute) :
    P.toLower (wireName a) = asciiPlatform.toLower (wireName a) := by
  apply toLower_of_ascii
  cases a <;> exact lit_ascii rfl

/-- All getters but `GetMaxAge` look up the name their calls have. -/
theorem name_cases {P : Platform} {g : Getter} (hg : g.Asks P) :
    (g.name = g.key ∧ P.toLower g.name ≠ lit "max-age") ∨ g = .standard .maxAge := by
  cases g with
  | named name =>
    refine Or.inl ⟨rfl, fun h => hg .maxAge ?_⟩
    rw [toLower_wireName]
    exact Eq.trans h (by decide)
  | standard attr =>
    cases attr
    case maxAge => exact Or.inr rfl
    all_goals exact Or.inl ⟨rfl, by rw [Getter.name, toLower_wireName]; decide⟩

/-- The calls named as a getter write its slot. -/
theorem slot_of_named {P : Platform} {g : Getter} (hg : g.Asks P) {a : Text × Text}
    (ha : g.Named P a) : slot P a = P.toLower g.key := by
  rw [Getter.Named] at ha
  rcases name_cases hg with ⟨hkey, hage⟩ | rfl
  · rw [slot, ha, if_neg hage, hkey]
  · have hname : P.toLower (wireName .maxAge) = lit "max-age" := by
      rw [toLower_wireName]
      decide
    rw [slot, ha, Getter.name, hname, if_pos rfl, Getter.key, toLower_toText]
    decide

/-- **Other calls write it only under `MaxAge`.** -/
theorem slot_iff_named {P : Platform} {g : Getter} (hg : g.Asks P)
    (hkey : P.toLower g.key ≠ lit "maxage") (a : Text × Text) :
    slot P a = P.toLower g.key ↔ g.Named P a := by
  refine ⟨fun h => ?_, slot_of_named hg⟩
  rcases name_cases hg with ⟨hname, -⟩ | rfl
  · rw [slot] at h
    split at h
    · exact absurd h.symm hkey
    · rw [Getter.Named, h, hname]
  · exact absurd (by rw [Getter.key, toLower_toText]; decide) hkey

/-- The last call named as the getter decides, whatever the other calls are. -/
def Separated (P : Platform) (name value : Text) (version : Int) (calls : List (Text × Text))
    (g : Getter) : Prop :=
  (cookieOf P name value version calls).map (fun c => g.ask P c) =
    (cookieOf P name value version (lastOf (g.Named P) calls).toList).map fun c => g.ask P c

/-- So sequences with the same calls of that name give the same answer. -/
theorem agree_of_separated {P : Platform} {name value : Text} {version : Int}
    {calls calls' : List (Text × Text)} {g : Getter} (h : Separated P name value version calls g)
    (h' : Separated P name value version calls' g)
    (hsame : calls.filter (fun a => decide (g.Named P a)) =
      calls'.filter fun a => decide (g.Named P a)) :
    (cookieOf P name value version calls).map (fun c => g.ask P c) =
      (cookieOf P name value version calls').map fun c => g.ask P c := by
  rw [Separated, lastOf] at h h'
  rw [h, h', hsame]

/-- The answer to the last call of the name alone. -/
theorem ask_lastNamed {P : Platform} {name value : Text} {version : Int}
    {calls : List (Text × Text)} (hcalls : (cookieOf P name value version calls).isSome)
    {g : Getter} (hg : g.Asks P) :
    (cookieOf P name value version (lastOf (g.Named P) calls).toList).map (fun c => g.ask P c) =
      some (g.reads P (lastWritten P (g.Named P) calls)) := by
  rw [cookieOf, Option.isSome_map, setAttributes_isSome_iff] at hcalls
  have haccepted : ∀ a ∈ (lastOf (g.Named P) calls).toList, Accepted P a := by
    intro a ha
    exact hcalls a (mem_of_lastOf (Option.mem_toList.mp ha)).1
  obtain ⟨b, hb⟩ := Option.isSome_iff_exists.mp
    ((setAttributes_isSome_iff P _ { name, value, version }).mpr haccepted)
  rw [cookieOf, hb, Option.map_some, Option.map_some, ask_build hb, lastWritten, lastWritten]
  cases hlast : lastOf (g.Named P) calls with
  | none => rfl
  | some a =>
    have hslot : slot P a = P.toLower g.key := slot_of_named hg (mem_of_lastOf hlast).2
    have hone : lastOf (fun a => slot P a = P.toLower g.key) [a] = some a := by
      rw [lastOf_cons, if_pos hslot]
      rfl
    rw [Option.toList_some, hone]

/-- **When a getter depends on the calls of its own name only**, the last of them deciding: always,
except for the key `MaxAge`, where the last call named `Max-Age` or `MaxAge` must write what the last
call of the getter's own name writes, as far as the getter sees. -/
theorem separated_iff (P : Platform) (name value : Text) (version : Int)
    (calls : List (Text × Text)) (g : Getter) (hg : g.Asks P)
    (hcalls : (cookieOf P name value version calls).isSome) :
    Separated P name value version calls g ↔
      P.toLower g.key ≠ lit "maxage" ∨
        g.reads P (lastWritten P (fun a => slot P a = lit "maxage") calls) =
          g.reads P (lastWritten P (g.Named P) calls) := by
  have hlast := ask_lastNamed hcalls hg
  obtain ⟨c, hc⟩ := Option.isSome_iff_exists.mp hcalls
  obtain ⟨b, hb, rfl⟩ := Option.map_eq_some_iff.mp hc
  have hanswer : (cookieOf P name value version calls).map (fun c => g.ask P c) =
      some (g.reads P (lastWritten P (fun a => slot P a = P.toLower g.key) calls)) := by
    rw [hc, Option.map_some, ask_build hb]
  rw [Separated, hanswer, hlast, Option.some.injEq]
  by_cases hkey : P.toLower g.key = lit "maxage"
  · simp only [hkey, ne_eq, not_true_eq_false, false_or]
  · refine iff_of_true ?_ (Or.inl hkey)
    rw [lastWritten, lastWritten, lastOf_congr fun a => slot_iff_named hg hkey a]

/-- `Max-Age` alone decides `GetMaxAge` where no call is named `MaxAge`. -/
theorem separated_maxAge :
    Separated asciiPlatform (lit "k") (lit "v") 0 [(lit "Max-Age", lit "60"), (lit "Path", lit "/")]
      (.standard .maxAge) :=
  (separated_iff asciiPlatform (lit "k") (lit "v") 0
    [(lit "Max-Age", lit "60"), (lit "Path", lit "/")] (.standard .maxAge) trivial
    (by decide +kernel)).mpr (Or.inr (by decide +kernel))

/-- A call named `MaxAge` sets what `GetMaxAge` reads. -/
theorem not_every_getter_separated :
    ¬ ∀ (calls : List (Text × Text)) (g : Getter), g.Asks asciiPlatform →
      (cookieOf asciiPlatform (lit "k") (lit "v") 0 calls).isSome →
      Separated asciiPlatform (lit "k") (lit "v") 0 calls g := by
  intro hall
  have hshared := hall [(lit "MaxAge", lit "5")] (.standard .maxAge) trivial (by decide +kernel)
  exact absurd hshared (by rw [Separated]; decide +kernel)

end NetMod.CookieAttributes
