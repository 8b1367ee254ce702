import NetMod.HttpFields

/-!
# `THttpFields`: a header by enum and by name

A field has two identities: the `EHttpHeader` its constructor found or was given, and its name.
`GetFirst` and `HasHeader` exist for both and read only one each.  Whichever constructor made the
field, the enum is the one the name is found under (`matched_make`), so the two lookups test the same
thing of every field (`header_eq_iff`).
-/

namespace NetMod.HttpFields

open NetMod.BlitzText

/-- `THttpHelper.HttpHeaderToString`. -/
def httpHeaderToString (header : EHttpHeader) : Text := header.toText

/-- The two ways to make a `THttpField`. -/
inductive NewField where
  | ofName (name value : Text)
  | ofHeader (header : EHttpHeader) (value : Text)

def NewField.make (P : Platform) : NewField → THttpField
  | .ofName name value => .ofName P name value
  | .ofHeader header value => .ofHeader header value

namespace THttpFields

/-- `GetFirst(header)`; `Null` is `[]`. -/
def getFirstOf (s : THttpFields) (header : EHttpHeader) : Text :=
  ((s.fields.find? fun f => f.header == some header).map (·.value)).getD []

/-- `HasHeader(name)`. -/
def hasName (P : Platform) (s : THttpFields) (name : Text) : Bool :=
  s.fields.any fun f => f.is P name

/-- A call of one of the overloads of `Add` that add a single field. -/
inductive AddCall where
  | named (name value : Text)
  | standard (header : EHttpHeader) (value : Text)
  | line (line : Text)
  | field (f : NewField)

def addCall (P : Platform) (s : THttpFields) : AddCall → THttpFields
  | .named name value => s.add (.ofName P name value)
  | .standard header value => s.add (.ofHeader header value)
  | .line line => (s.addLine P line).1
  | .field f => s.add (f.make P)

def build (P : Platform) (calls : List AddCall) : THttpFields := calls.foldl (addCall P) {}

/-- The name and the value that a call adds: a line has them around its first colon, if there is
something in front of that. -/
def AddCall.pairs : AddCall → List (Text × Text)
  | .named name value | .field (.ofName name value) => [(name, value)]
  | .standard header value | .field (.ofHeader header value) => [(header.toText, value)]
  | .line text =>
    let name := text.takeWhile (· ≠ asc ':')
    if name ≠ [] ∧ asc ':' ∈ text then [(trim name, trim (text.dropWhile (· ≠ asc ':')).tail)] else []

end THttpFields

/-! ### One identity -/

variable {P : Platform}

/-- A name stands for a header iff it spells the header's own name. -/
theorem nameToHeader_eq_iff {name : Text} {h : EHttpHeader} :
    nameToHeader P name = some h ↔ P.toLower name = P.toLower h.toText := by
  constructor
  · intro hfound
    have hsame := List.find?_some hfound
    exact (beq_iff_eq.mp hsame).symm
  · intro hsame
    show (EHttpHeader.all.find? fun h' => P.toLower h'.toText == P.toLower name) = some h
    rw [hsame]
    exact nameToHeader_toText P h

/-- The enum of the field is the one its name is found under. -/
def Matched (P : Platform) (f : THttpField) : Prop := f.header = nameToHeader P f.name

theorem matched_ofName (name value : Text) : Matched P (.ofName P name value) := by
  rw [Matched, THttpField.ofName]

theorem matched_ofHeader (header : EHttpHeader) (value : Text) :
    Matched P (.ofHeader header value) := by
  rw [Matched, THttpField.ofHeader]
  exact (nameToHeader_toText P header).symm

theorem matched_make (f : NewField) : Matched P (f.make P) := by
  cases f with
  | ofName name value => exact matched_ofName name value
  | ofHeader header value => exact matched_ofHeader header value

/-- **Both lookups test the same.** -/
theorem header_eq_iff {f : THttpField} (hf : Matched P f) {h : EHttpHeader} :
    (f.header == some h) = f.is P h.toText := by
  rw [hf, THttpField.is, Bool.eq_iff_iff, beq_iff_eq, beq_iff_eq]
  exact nameToHeader_eq_iff

theorem matched_addCall {s : THttpFields} (hs : ∀ f ∈ s.fields, Matched P f)
    (call : THttpFields.AddCall) : ∀ f ∈ (s.addCall P call).fields, Matched P f := by
  have hadd : ∀ g, Matched P g → ∀ f ∈ (s.add g).fields, Matched P f := by
    intro g hg f hf
    rcases List.mem_append.mp hf with hf | hf
    · exact hs f hf
    · rw [List.mem_singleton.mp hf]
      exact hg
  cases call with
  | named name value => exact hadd _ (matched_ofName name value)
  | standard header value => exact hadd _ (matched_ofHeader header value)
  | field f => exact hadd _ (matched_make f)
  | line line =>
    rw [THttpFields.addCall, THttpFields.addLine, THttpFields.lineField]
    split
    · rename_i g hline
      split at hline
      · split at hline
        · obtain rfl := Option.some.inj hline
          exact hadd _ (matched_ofName _ _)
        · cases hline
      · cases hline
    · exact hs

theorem matched_build (calls : List THttpFields.AddCall) :
    ∀ f ∈ (THttpFields.build P calls).fields, Matched P f := by
  induction calls using List.reverseRecOn with
  | nil => exact fun f hf => absurd hf List.not_mem_nil
  | append_singleton calls call ih =>
    rw [THttpFields.build, List.foldl_append]
    exact matched_addCall ih call

/-! ### What the calls add -/

theorem lineField_pairs (P : Platform) (line : Text) :
    ((THttpFields.lineField P line).toList.map fun f => (f.name, f.value))
      = (THttpFields.AddCall.line line).pairs := by
  rw [THttpFields.lineField, THttpFields.AddCall.pairs]
  by_cases hcolon : asc ':' ∈ line
  · obtain ⟨name, rest, rfl, hname⟩ := List.eq_append_cons_of_mem hcolon
    rw [find_append hname, takeWhile_until hname, dropWhile_until hname]
    have hslice : slice (name ++ asc ':' :: rest) 0 name.length = name := take_until name _ rest
    dsimp only
    rw [hslice, drop_until]
    by_cases hempty : name = []
    · simp [hempty]
    · rw [if_pos (List.length_pos_of_ne_nil hempty), if_pos ⟨hempty, hcolon⟩]
      rfl
  · rw [find_of_not_mem hcolon]
    simp [hcolon]

theorem add_pairs (s : THttpFields) (f : THttpField) :
    (s.add f).fields.map (fun f => (f.name, f.value))
      = s.fields.map (fun f => (f.name, f.value)) ++ [(f.name, f.value)] := by
  rw [THttpFields.add, List.map_append]
  rfl

theorem addCall_pairs (s : THttpFields) (call : THttpFields.AddCall) :
    (s.addCall P call).fields.map (fun f => (f.name, f.value))
      = s.fields.map (fun f => (f.name, f.value)) ++ call.pairs := by
  cases call with
  | named name value => exact add_pairs s _
  | standard header value => exact add_pairs s _
  | field f => cases f <;> exact add_pairs s _
  | line line =>
    rw [← lineField_pairs P, THttpFields.addCall, THttpFields.addLine]
    cases THttpFields.lineField P line with
    | none => exact (List.append_nil _).symm
    | some f => exact add_pairs s f

/-- **The fields are those of the calls, in their order.** -/
theorem build_pairs (calls : List THttpFields.AddCall) :
    (THttpFields.build P calls).fields.map (fun f => (f.name, f.value))
      = calls.flatMap (·.pairs) := by
  induction calls using List.reverseRecOn with
  | nil => rfl
  | append_singleton calls call ih =>
    have hbuild : THttpFields.build P (calls ++ [call]) = (THttpFields.build P calls).addCall P call :=
      List.foldl_concat ..
    rw [hbuild, addCall_pairs, ih, List.flatMap_append, List.flatMap_singleton]

/-! ### The lookups -/

/-- `f` is the first field of `s` named as the header, in any letter case. -/
def IsFirst (P : Platform) (s : THttpFields) (h : EHttpHeader) (f : THttpField) : Prop :=
  ∃ before behind, s.fields = before ++ f :: behind ∧ P.toLower f.name = P.toLower h.toText ∧
    ∀ g ∈ before, P.toLower g.name ≠ P.toLower h.toText

/-- The lookups by enum and by name give the same, and that is the first field of the name. -/
structure LookupsAgree (P : Platform) (s : THttpFields) (h : EHttpHeader) : Prop where
  hasHeader : s.hasHeader h = s.hasName P (httpHeaderToString h)
  getFirst : s.getFirstOf h = s.getFirst P (httpHeaderToString h)
  found : ∀ f, IsFirst P s h f → s.hasHeader h = true ∧ s.getFirstOf h = f.value
  missing : (∀ f ∈ s.fields, P.toLower f.name ≠ P.toLower h.toText) →
    s.hasHeader h = false ∧ s.getFirstOf h = []

/-- The fields of the enum are the fields of the name. -/
theorem filter_header_eq {fields : List THttpField} (hf : ∀ f ∈ fields, Matched P f)
    (h : EHttpHeader) :
    (fields.filter fun f => f.header == some h) = fields.filter fun f => f.is P h.toText :=
  List.filter_congr fun f hmem => header_eq_iff (hf f hmem)

/-- **A header is looked up by enum as by name**, in every list built by `Add`, which holds what the
calls add in their order. -/
theorem lookups_agree (P : Platform) (calls : List THttpFields.AddCall) (h : EHttpHeader) :
    (THttpFields.build P calls).fields.map (fun f => (f.name, f.value)) = calls.flatMap (·.pairs) ∧
      LookupsAgree P (THttpFields.build P calls) h := by
  refine ⟨build_pairs calls, ?_⟩
  have hmatched := matched_build (P := P) calls
  generalize THttpFields.build P calls = s at hmatched
  have hname : ∀ f : THttpField, f.is P h.toText = true ↔ P.toLower f.name = P.toLower h.toText :=
    fun f => beq_iff_eq
  have hhas : s.hasHeader h = s.hasName P (httpHeaderToString h) := by
    rw [THttpFields.hasHeader, THttpFields.hasName, ← List.isSome_find?, ← List.isSome_find?,
      ← List.head?_filter, ← List.head?_filter, filter_header_eq hmatched]
    rfl
  have hfirst : s.getFirstOf h = s.getFirst P (httpHeaderToString h) := by
    rw [THttpFields.getFirstOf, THttpFields.getFirst, ← List.head?_filter, ← List.head?_filter,
      filter_header_eq hmatched]
    rfl
  refine ⟨hhas, hfirst, fun f hf => ?_, fun hnone => ?_⟩
  · obtain ⟨before, behind, hfields, hsame, hbefore⟩ := hf
    rw [hhas, hfirst, THttpFields.hasName, THttpFields.getFirst, hfields]
    have hskip : before.find? (fun f => f.is P h.toText) = none :=
      List.find?_eq_none.mpr fun g hg => mt (hname g).mp (hbefore g hg)
    constructor
    · exact List.any_eq_true.mpr ⟨f, by simp, (hname f).mpr hsame⟩
    · show (((before ++ f :: behind).find? fun f => f.is P h.toText).map (·.value)).getD [] = _
      have hhere : (f :: behind).find? (fun f => f.is P h.toText) = some f :=
        List.find?_cons_of_pos ((hname f).mpr hsame)
      rw [List.find?_append, hskip, hhere]
      rfl
  · rw [hhas, hfirst]
    constructor
    · apply List.any_eq_false.mpr
      intro f hf
      exact mt (hname f).mp (hnone f hf)
    · have hskip : s.fields.find? (fun f => f.is P h.toText) = none :=
        List.find?_eq_none.mpr fun g hg => mt (hname g).mp (hnone g hg)
      show ((s.fields.find? fun f => f.is P h.toText).map (·.value)).getD [] = _
      rw [hskip]
      rfl

end NetMod.HttpFields
