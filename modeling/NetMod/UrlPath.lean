import NetMod.UrlApi
import NetMod.Lib.DotSegments

/-!
# `dedotdotify`: the dot segments of a path

The loop of `dedotdotify` goes through a path that begins with a slash one segment after the other.  Its
output is the path of the place the segments lead to (`dedotdotify_joined`): no dot segment is left in
it, plain or with its dots encoded, and a second pass changes nothing.
-/

namespace NetMod.UrlPath

open NetMod.PercentEncoding NetMod.CurlText NetMod.UrlApi NetMod.DotSegments NetMod.SeparatedText

/-- `.` and `..`, where each dot may be encoded. -/
def dots : Dots Bytes where
  here s := isDot s == some []
  up s := (isDot s).any fun p => isDot p == some []
  empty := []
  here_empty := rfl
  up_empty := rfl

/-- A path from its segments. -/
def joined (segs : List Bytes) : Bytes := segs.flatMap fun s => byte '/' :: s

/-- Segments have no slash. -/
def Segments (segs : List Bytes) : Prop := ∀ s ∈ segs, byte '/' ∉ s

/-- What may follow a segment: the next one, or nothing. -/
def SegmentEnds (rest : Bytes) : Prop := rest = [] ∨ isSlash rest = true

theorem joined_append (segs segs' : List Bytes) : joined (segs ++ segs') = joined segs ++ joined segs' :=
  List.flatMap_append

theorem joined_cons (s : Bytes) (segs : List Bytes) :
    joined (s :: segs) = byte '/' :: (s ++ joined segs) := rfl

theorem segmentEnds_joined (segs : List Bytes) : SegmentEnds (joined segs) := by
  cases segs with
  | nil => exact .inl rfl
  | cons s segs => exact .inr rfl

/-- **A path that begins with a slash** is made of segments. -/
theorem exists_segments {path : Bytes} (h : isSlash path = true) :
    ∃ segs, segs ≠ [] ∧ Segments segs ∧ path = joined segs := by
  obtain ⟨p, ps, hsplit⟩ := List.exists_cons_of_ne_nil (List.splitOn_ne_nil (byte '/') path)
  have hpath := joined_of_splitOn hsplit
  have hp : p = [] := by
    cases p with
    | nil => rfl
    | cons c p =>
      have hc : c = byte '/' := by
        rw [hpath] at h
        exact Option.some.inj (eq_of_beq h)
      refine absurd ?_ (not_mem_of_mem_splitOn (hsplit ▸ List.mem_cons_self : c :: p ∈ _))
      rw [hc]
      exact List.mem_cons_self
  refine ⟨ps, ?_, fun s hs => ?_, ?_⟩
  · rintro rfl
    rw [hpath, hp] at h
    cases h
  · exact not_mem_of_mem_splitOn (hsplit ▸ List.mem_cons_of_mem p hs : s ∈ _)
  · rw [hpath, hp]
    rfl

/-! ### The loop on a segment -/

theorem isDot_of_ends {rest : Bytes} (h : SegmentEnds rest) : isDot rest = none := by
  rcases h with rfl | h
  · rfl
  · cases rest with
    | nil => cases h
    | cons c rest =>
      obtain rfl : c = byte '/' := Option.some.inj (eq_of_beq h)
      match rest with
      | [] => rfl
      | [_] => rfl
      | _ :: _ :: _ => rfl

theorem isDot_cons (c : UInt8) (s : Bytes) :
    isDot (c :: s) =
      if c = byte '.' then some s
      else
        match s with
        | d :: e :: s => if c = percent ∧ d = byte '2' ∧ e ||| 0x20 = byte 'e' then some s else none
        | _ => none := rfl

/-- A dot takes a part of its segment. -/
theorem suffix_of_isDot {s p : Bytes} (h : isDot s = some p) : p <:+ s := by
  cases s with
  | nil => cases h
  | cons c s =>
    rw [isDot_cons] at h
    split at h
    · cases h
      exact List.suffix_cons c _
    · split at h
      · next d e r =>
        split at h
        · cases h
          exact ⟨[c, d, e], rfl⟩
        · cases h
      · cases h

/-- Whether a segment has a dot in front does not depend on what follows it. -/
theorem isDot_append {s rest : Bytes} (hrest : SegmentEnds rest) :
    isDot (s ++ rest) = (isDot s).map (· ++ rest) := by
  -- an encoded dot is three bytes, and no slash is among them
  have hshort : ∀ c d r, c :: d :: r = rest → c = byte '/' := by
    rintro c d r rfl
    rcases hrest with h | h
    · cases h
    · exact Option.some.inj (eq_of_beq h)
  match s with
  | [] =>
    rw [List.nil_append, isDot_of_ends hrest]
    rfl
  | [c] =>
    rw [List.singleton_append, isDot_cons, isDot_cons]
    by_cases hc : c = byte '.'
    · rw [if_pos hc, if_pos hc]
      rfl
    · rw [if_neg hc, if_neg hc]
      match rest with
      | [] => rfl
      | [_] => rfl
      | d :: e :: r =>
        obtain rfl := hshort d e r rfl
        exact if_neg fun h => absurd h.2.1 (by decide)
  | [c, d] =>
    rw [List.cons_append, isDot_cons, isDot_cons]
    by_cases hc : c = byte '.'
    · rw [if_pos hc, if_pos hc]
      rfl
    · rw [if_neg hc, if_neg hc]
      cases rest with
      | nil => rfl
      | cons e r =>
        obtain rfl : e = byte '/' := by
          rcases hrest with h | h
          · cases h
          · exact Option.some.inj (eq_of_beq h)
        exact if_neg fun h => absurd h.2.2 (by decide)
  | c :: d :: e :: s =>
    rw [List.cons_append, isDot_cons, isDot_cons]
    by_cases hc : c = byte '.'
    · rw [if_pos hc, if_pos hc]
      rfl
    · rw [if_neg hc, if_neg hc]
      show (if _ then some (s ++ rest) else none) = Option.map _ (if _ then some s else none)
      split
      · rfl
      · rfl

/-- The loop with as many rounds as it needs. -/
def dedot (out input : Bytes) : Bytes := dedotLoop input.length out input

theorem dedotLoop_eq {n : Nat} (out : Bytes) {input : Bytes} (h : input.length ≤ n) :
    dedotLoop n out input = dedot out input :=
  dedotLoop_enough out h (Nat.le_refl _)

theorem dedot_nil (out : Bytes) : dedot out [] = out := rfl

theorem dedot_cons_of_ne {c : UInt8} (hc : c ≠ byte '/') (out input : Bytes) :
    dedot out (c :: input) = dedot (out ++ [c]) input := by
  rw [dedot, List.length_cons, dedotLoop, if_neg hc]
  rfl

theorem dedot_segment {s : Bytes} (hs : byte '/' ∉ s) (out rest : Bytes) :
    dedot out (s ++ rest) = dedot (out ++ s) rest := by
  induction s generalizing out with
  | nil => rw [List.append_nil, List.nil_append]
  | cons c s ih =>
    obtain ⟨hc, hs⟩ := not_or.mp (mt List.mem_cons.mpr hs)
    rw [List.cons_append, dedot_cons_of_ne (fun h => hc h.symm), ih hs, List.append_assoc]
    rfl

/-- What the loop does at a slash, by what is behind it. -/
theorem dedot_slash (out input : Bytes) :
    dedot out (byte '/' :: input) =
      match isDot input with
      | none => dedot (out ++ [byte '/']) input
      | some p =>
        if p = [] then out ++ [byte '/']
        else if isSlash p then dedot out p
        else
          match isDot p with
          | none => dedot (out ++ [byte '/']) input
          | some q =>
            if q = [] then trimLastSegment out ++ [byte '/']
            else if isSlash q then dedot (trimLastSegment out) q
            else dedot (out ++ [byte '/']) input := by
  rw [dedot, List.length_cons, dedotLoop, if_pos rfl]
  cases hp : isDot input with
  | none => rfl
  | some p =>
    have hp' := length_isDot hp
    dsimp only
    rw [dedotLoop_eq out (by omega : p.length ≤ input.length)]
    cases hq : isDot p with
    | none => rfl
    | some q =>
      have hq' := length_isDot hq
      dsimp only
      rw [dedotLoop_eq _ (by omega : q.length ≤ input.length)]
      rfl

theorem trimLastSegment_joined {place : List Bytes} (h : Segments place) :
    trimLastSegment (joined place) = joined place.dropLast := by
  induction place using List.reverseRecOn with
  | nil => rfl
  | append_singleton place s _ =>
    have hs : byte '/' ∉ s := h s (List.mem_append_right _ List.mem_cons_self)
    have hrev : ∀ c ∈ s.reverse, decide (c ≠ byte '/') = true := by
      intro c hc
      apply decide_eq_true
      rintro rfl
      exact hs (List.mem_reverse.mp hc)
    have hjoined : joined (place ++ [s]) = joined place ++ byte '/' :: s := by
      rw [joined_append, joined_cons]
      simp [joined]
    have hcontains : (joined place ++ byte '/' :: s).contains (byte '/') = true := by
      simp
    rw [List.dropLast_concat, hjoined, trimLastSegment, if_pos hcontains, List.reverse_append,
      List.reverse_cons, List.append_assoc, List.dropWhile_append_of_pos hrev]
    show (((byte '/' :: (joined place).reverse).dropWhile _).tail).reverse = _
    rw [List.dropWhile_cons_of_neg (by simp), List.tail_cons, List.reverse_reverse]

theorem segments_dropLast {place : List Bytes} (h : Segments place) : Segments place.dropLast :=
  fun s hs => h s (List.dropLast_subset place hs)

theorem segments_step {place : List Bytes} {s : Bytes} (h : Segments place) (hs : byte '/' ∉ s) :
    Segments (dots.step place s) := by
  rw [Dots.step]
  split
  · exact h
  · split
    · exact segments_dropLast h
    · intro t ht
      rcases List.mem_append.mp ht with ht | ht
      · exact h t ht
      · exact List.mem_singleton.mp ht ▸ hs

/-- **A turn of the loop is a step of the walk**, whose last one may leave an empty segment. -/
theorem dedot_step {place : List Bytes} {s rest : Bytes} (hplace : Segments place) (hs : byte '/' ∉ s)
    (hrest : SegmentEnds rest) :
    dedot (joined place) (byte '/' :: (s ++ rest)) =
      if rest = [] then joined (dots.step place s ++ if dots.isDotted s then [dots.empty] else [])
      else dedot (joined (dots.step place s)) rest := by
  have hends : rest ≠ [] → isSlash rest = true := hrest.resolve_left
  -- a part of the segment does not begin with a slash
  have hpart : ∀ {p}, p <:+ s → p ≠ [] → p ++ rest ≠ [] ∧ isSlash (p ++ rest) = false := by
    intro p hp hne
    obtain ⟨c, r, rfl⟩ := List.exists_cons_of_ne_nil hne
    refine ⟨List.cons_ne_nil _ _, beq_eq_false_iff_ne.mpr fun hc => hs ?_⟩
    exact hp.subset (Option.some.inj hc ▸ List.mem_cons_self)
  have hplain : dots.isDotted s = false →
      dedot (joined place ++ [byte '/']) (s ++ rest) =
        if rest = [] then joined (dots.step place s ++ if dots.isDotted s then [dots.empty] else [])
        else dedot (joined (dots.step place s)) rest := by
    intro h
    have hjoined : joined place ++ [byte '/'] ++ s = joined (dots.step place s) := by
      rw [Dots.step_of_plain h, joined_append, joined_cons, List.append_assoc]
      simp [joined]
    rw [dedot_segment hs, hjoined, h]
    split
    · next hnil =>
      rw [hnil, dedot_nil]
      exact congrArg joined (List.append_nil _).symm
    · rfl
  rw [dedot_slash, isDot_append hrest]
  cases hp : isDot s with
  | none =>
    apply hplain
    rw [Dots.isDotted]
    show (isDot s == some [] || (isDot s).any _) = false
    rw [hp]
    rfl
  | some p =>
    have hhere : dots.here s = (some p == some []) := by rw [← hp]; rfl
    have hup : dots.up s = (isDot p == some []) := by
      show (isDot s).any _ = _
      rw [hp]
      rfl
    dsimp only [Option.map_some]
    by_cases hpnil : p = []
    · rw [hpnil] at hhere ⊢
      have hstep : dots.step place s = place := if_pos hhere
      rw [hstep, Dots.isDotted, hhere]
      by_cases hnil : rest = []
      · rw [hnil]
        exact (joined_append place [[]]).symm
      · rw [List.nil_append, if_neg hnil, if_neg hnil, if_pos (hends hnil)]
    · obtain ⟨hne, hslash⟩ := hpart (suffix_of_isDot hp) hpnil
      have hhere' : dots.here s = false := by
        rw [hhere]
        exact beq_eq_false_iff_ne.mpr fun h => hpnil (Option.some.inj h)
      rw [if_neg hne, hslash, if_neg Bool.false_ne_true, isDot_append hrest]
      cases hq : isDot p with
      | none =>
        apply hplain
        rw [Dots.isDotted, hhere', hup, hq]
        rfl
      | some q =>
        rw [hq] at hup
        dsimp only [Option.map_some]
        by_cases hqnil : q = []
        · rw [hqnil] at hup ⊢
          have hstep : dots.step place s = place.dropLast := by
            rw [Dots.step, hhere', hup]
            rfl
          rw [hstep, Dots.isDotted, hhere', hup, trimLastSegment_joined hplace]
          by_cases hnil : rest = []
          · rw [hnil]
            exact (joined_append place.dropLast [[]]).symm
          · rw [List.nil_append, if_neg hnil, if_neg hnil, if_pos (hends hnil)]
        · obtain ⟨hne', hslash'⟩ := hpart ((suffix_of_isDot hq).trans (suffix_of_isDot hp)) hqnil
          rw [if_neg hne', hslash', if_neg Bool.false_ne_true]
          apply hplain
          rw [Dots.isDotted, hhere', hup]
          exact beq_eq_false_iff_ne.mpr fun h => hqnil (Option.some.inj h)

/-- **The loop arrives where the segments lead.** -/
theorem dedot_joined {segs : List Bytes} (hsegs : Segments segs) {place : List Bytes}
    (hplace : Segments place) : dedot (joined place) (joined segs) = joined (dots.arrive place segs) := by
  induction segs generalizing place with
  | nil => rfl
  | cons s segs ih =>
    have hs := hsegs s List.mem_cons_self
    have hrest : Segments segs := fun t ht => hsegs t (List.mem_cons_of_mem s ht)
    rw [joined_cons, dedot_step hplace hs (segmentEnds_joined segs)]
    cases segs with
    | nil => exact congrArg joined Dots.arrive_singleton.symm
    | cons t segs =>
      have hnil : joined (t :: segs) ≠ [] := List.cons_ne_nil _ _
      rw [if_neg hnil, ih hrest (segments_step hplace hs), Dots.arrive_cons_cons]

/-- **What `dedotdotify` makes of a path**: the path of the place its segments lead to. -/
theorem dedotdotify_joined {segs : List Bytes} (hsegs : Segments segs) (hne : segs ≠ []) :
    dedotdotify (joined segs) = joined (dots.removeDots segs) := by
  obtain ⟨s, rest, rfl⟩ := List.exists_cons_of_ne_nil hne
  have hstart : dedotStart (joined (s :: rest)) = some (joined (s :: rest)) := by
    rw [dedotStart, isDot_of_ends (.inr rfl)]
  rw [dedotdotify, hstart]
  exact dedot_joined hsegs fun t ht => absurd ht List.not_mem_nil

theorem segments_removeDots {segs : List Bytes} (hsegs : Segments segs) :
    Segments (dots.removeDots segs) := by
  intro s hs
  rcases Dots.mem_arrive hs with hs | hs | hs
  · cases hs
  · exact hsegs s hs
  · rw [hs]
    exact List.not_mem_nil

theorem mem_joined {segs : List Bytes} {c : UInt8} :
    c ∈ joined segs ↔ segs ≠ [] ∧ c = byte '/' ∨ ∃ s ∈ segs, c ∈ s := by
  induction segs with
  | nil => simp [joined]
  | cons s segs ih =>
    rw [joined_cons, List.mem_cons, List.mem_append, ih]
    simp only [List.mem_cons, ne_eq, reduceCtorEq, not_false_eq_true, true_and, exists_eq_or_imp]
    tauto

/-- No byte is new in the path arrived at. -/
theorem joined_removeDots_subset {segs : List Bytes} (h : segs ≠ []) :
    joined (dots.removeDots segs) ⊆ joined segs := by
  intro c hc
  rcases mem_joined.mp hc with ⟨-, rfl⟩ | ⟨s, hs, hc⟩
  · exact mem_joined.mpr (.inl ⟨h, rfl⟩)
  · rcases Dots.mem_arrive hs with hs | hs | rfl
    · cases hs
    · exact mem_joined.mpr (.inr ⟨s, hs, hc⟩)
    · cases hc

/-! ### Paths without dot segments -/

theorem length_joined_concat (place : List Bytes) (s : Bytes) :
    (joined (place ++ [s])).length = (joined place).length + (s.length + 1) := by
  rw [joined_append, List.length_append]
  simp [joined]

theorem length_joined_dropLast (place : List Bytes) :
    (joined place.dropLast).length ≤ (joined place).length := by
  induction place using List.reverseRecOn with
  | nil => exact Nat.le_refl _
  | append_singleton place t _ =>
    rw [List.dropLast_concat, length_joined_concat]
    exact Nat.le_add_right _ _

theorem length_joined_step (place : List Bytes) (s : Bytes) :
    (joined (dots.step place s)).length ≤ (joined place).length +
      if dots.isDotted s then 0 else s.length + 1 := by
  rw [Dots.step, Dots.isDotted]
  cases dots.here s with
  | true => exact Nat.le_refl _
  | false =>
    cases dots.up s with
    | true => exact length_joined_dropLast place
    | false => exact Nat.le_of_eq (length_joined_concat place s)

/-- The path arrived at is no longer than the walk. -/
theorem length_joined_arrive (segs place : List Bytes) :
    (joined (dots.arrive place segs)).length ≤ (joined place).length + (joined segs).length := by
  induction segs generalizing place with
  | nil => exact Nat.le_refl _
  | cons s segs ih =>
    have hstep := length_joined_step place s
    rw [joined_cons, List.length_cons, List.length_append]
    cases segs with
    | nil =>
      rw [Dots.arrive_singleton]
      split
      · next hdotted =>
        rw [if_pos hdotted] at hstep
        rw [length_joined_concat]
        show _ + (0 + 1) ≤ _
        omega
      · next hdotted =>
        rw [if_neg hdotted] at hstep
        rw [List.append_nil]
        omega
    | cons t segs =>
      have hrest := ih (dots.step place s)
      rw [Dots.arrive_cons_cons]
      have hle : (if dots.isDotted s then 0 else s.length + 1) ≤ s.length + 1 := by
        split <;> omega
      omega

section

variable {path : Bytes}

/-- A path that begins with a slash, and its result, by their segments. -/
theorem exists_dedotdotify (h : isSlash path = true) :
    ∃ segs, segs ≠ [] ∧ Segments segs ∧ path = joined segs ∧
      dedotdotify path = joined (dots.removeDots segs) := by
  obtain ⟨segs, hne, hsegs, rfl⟩ := exists_segments h
  exact ⟨segs, hne, hsegs, rfl, dedotdotify_joined hsegs hne⟩

theorem isSlash_dedotdotify (h : isSlash path = true) : isSlash (dedotdotify path) = true := by
  obtain ⟨segs, hne, -, -, hresult⟩ := exists_dedotdotify h
  have hne' : dots.removeDots segs ≠ [] := Dots.arrive_ne_nil hne
  obtain ⟨s, rest, hcons⟩ := List.exists_cons_of_ne_nil hne'
  rw [hresult, hcons]
  rfl

theorem dedotdotify_subset (h : isSlash path = true) : dedotdotify path ⊆ path := by
  obtain ⟨segs, hne, -, rfl, hresult⟩ := exists_dedotdotify h
  rw [hresult]
  exact joined_removeDots_subset hne

theorem dedotdotify_dedotdotify (h : isSlash path = true) :
    dedotdotify (dedotdotify path) = dedotdotify path := by
  obtain ⟨segs, hne, hsegs, -, hresult⟩ := exists_dedotdotify h
  rw [hresult, dedotdotify_joined (segments_removeDots hsegs) (Dots.arrive_ne_nil hne),
    Dots.removeDots_idem]

end

/-- What a path has been reduced to: the place its segments lead to, written without dot segments. -/
structure Resolved (path result : Bytes) : Prop where
  place : ∀ segs, Segments segs → path = joined segs → result = joined (dots.removeDots segs)
  plain : ∃ segs, segs ≠ [] ∧ Segments segs ∧ dots.Plain segs ∧ result = joined segs
  subset : result ⊆ path
  length_le : result.length ≤ path.length
  stable : dedotdotify result = result

/-- **`dedotdotify` resolves every path that begins with a slash**, in one pass, without outgrowing it. -/
theorem dedotdotify_resolved {path : Bytes} (h : isSlash path = true) :
    Resolved path (dedotdotify path) := by
  obtain ⟨segs, hne, hsegs, hpath, hresult⟩ := exists_dedotdotify h
  refine {
    place := ?_
    plain := ⟨_, Dots.arrive_ne_nil hne, segments_removeDots hsegs, Dots.plain_arrive Dots.plain_nil,
      hresult⟩
    subset := dedotdotify_subset h
    length_le := ?_
    stable := dedotdotify_dedotdotify h }
  · rintro segs hsegs rfl
    apply dedotdotify_joined hsegs
    rintro rfl
    cases h
  · rw [hresult, hpath]
    exact (length_joined_arrive segs []).trans (Nat.le_of_eq (Nat.zero_add _))

/-- `dedotdotify_resolved` at a path with plain and encoded dots. -/
theorem dedotdotify_resolved_encoded :
    Resolved (bytes "/a/b/../c/./%2E%2e/d/..") (dedotdotify (bytes "/a/b/../c/./%2E%2e/d/..")) ∧
      dedotdotify (bytes "/a/b/../c/./%2E%2e/d/..") = bytes "/a/" :=
  ⟨dedotdotify_resolved (by decide), by decide⟩

end NetMod.UrlPath
