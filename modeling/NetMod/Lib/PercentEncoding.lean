import Mathlib.Data.List.Basic

/-!
# Percent-encoding of bytes

`encode keep` leaves the bytes that `keep` names as they are and writes every other byte as `%` and
two hexadecimal digits; `decode` reads any such text back, digits in either case, and leaves a `%`
that no two digits follow.

`Encoded keep` is the language of encoded texts: kept bytes and triples, in any spelling.  On it
decoding distributes over concatenation (`Encoded.decode_append`), which is all that a decoder of a
composed text needs; that `decode` undoes `encode` is one instance.
-/

namespace NetMod.PercentEncoding

/-- The byte of `%`. -/
def percent : UInt8 := 37

/-- An upper-case hexadecimal digit. -/
def hexDigit (n : UInt8) : UInt8 := if n < 10 then 48 + n else 55 + n

/-- The value of a hexadecimal digit of either case. -/
def hexValue (c : UInt8) : Option UInt8 :=
  if 48 ≤ c ∧ c ≤ 57 then some (c - 48)
  else if 65 ≤ c ∧ c ≤ 70 then some (c - 55)
  else if 97 ≤ c ∧ c ≤ 102 then some (c - 87)
  else none

theorem hexValue_hexDigit {n : UInt8} (hn : n < 16) : hexValue (hexDigit n) = some n := by
  have hall : ∀ m : Fin 16, hexValue (hexDigit (UInt8.ofNat m)) = some (UInt8.ofNat m) := by decide
  have hlt : n.toNat < 16 := UInt8.lt_iff_toNat_lt.mp hn
  have hn' : UInt8.ofNat n.toNat = n := UInt8.ofNat_toNat
  have hspec := hall ⟨n.toNat, hlt⟩
  simp only [hn'] at hspec
  exact hspec

theorem hexValue_high (b : UInt8) : hexValue (hexDigit (b / 16)) = some (b / 16) := by
  apply hexValue_hexDigit
  rw [UInt8.lt_iff_toNat_lt, UInt8.toNat_div]
  exact Nat.div_lt_of_lt_mul b.toNat_lt

theorem hexValue_low (b : UInt8) : hexValue (hexDigit (b % 16)) = some (b % 16) := by
  apply hexValue_hexDigit
  rw [UInt8.lt_iff_toNat_lt, UInt8.toNat_mod]
  exact Nat.mod_lt _ (by decide)

/-- The byte with these two digits. -/
def byteOf (x y : UInt8) : UInt8 := 16 * x + y

theorem byteOf_div_mod (b : UInt8) : byteOf (b / 16) (b % 16) = b := by
  rw [← UInt8.toNat_inj, byteOf, UInt8.toNat_add, UInt8.toNat_mul, UInt8.toNat_div, UInt8.toNat_mod]
  have hb := b.toNat_lt
  show (16 * (b.toNat / 16) % 2 ^ 8 + b.toNat % 16) % 2 ^ 8 = b.toNat
  omega

def encodeByte (keep : UInt8 → Bool) (b : UInt8) : List UInt8 :=
  if keep b then [b] else [percent, hexDigit (b / 16), hexDigit (b % 16)]

def encode (keep : UInt8 → Bool) (s : List UInt8) : List UInt8 := s.flatMap (encodeByte keep)

def decode : List UInt8 → List UInt8
  | c :: a :: b :: s =>
    if c = percent then
      match hexValue a, hexValue b with
      | some x, some y => byteOf x y :: decode s
      | _, _ => c :: decode (a :: b :: s)
    else c :: decode (a :: b :: s)
  | s => s

@[simp] theorem decode_nil : decode [] = [] := rfl

theorem decode_cons_of_ne {c : UInt8} (hc : c ≠ percent) (s : List UInt8) :
    decode (c :: s) = c :: decode s := by
  match s with
  | [] => rfl
  | [_] => rfl
  | _ :: _ :: _ => rw [decode, if_neg hc]

/-- A text without `%` is its own. -/
theorem decode_of_not_mem {s : List UInt8} (h : percent ∉ s) : decode s = s := by
  induction s with
  | nil => rfl
  | cons c s ih =>
    rw [decode_cons_of_ne fun hc => h (hc ▸ List.mem_cons_self),
      ih fun hs => h (List.mem_cons_of_mem c hs)]

theorem decode_triple {a b x y : UInt8} (ha : hexValue a = some x) (hb : hexValue b = some y)
    (s : List UInt8) : decode (percent :: a :: b :: s) = byteOf x y :: decode s := by
  rw [decode, if_pos rfl, ha, hb]

/-- Decoding shortens. -/
theorem length_decode_le (s : List UInt8) : (decode s).length ≤ s.length := by
  fun_induction decode s with
  | case1 => simp only [List.length_cons]; omega
  | case2 _ _ _ _ ih => simp only [List.length_cons] at ih ⊢; omega
  | case3 _ _ _ _ _ ih => simp only [List.length_cons] at ih ⊢; omega
  | case4 => exact Nat.le_refl _

/-- Two hexadecimal digits are next. -/
def DigitsAhead (s : List UInt8) : Prop :=
  ∃ a b t, s = a :: b :: t ∧ (hexValue a).isSome = true ∧ (hexValue b).isSome = true

/-- A `%` that no two digits follow stands for itself. -/
theorem decode_percent_of_not_digits {s : List UInt8} (hs : ¬ DigitsAhead s) :
    decode (percent :: s) = percent :: decode s := by
  match s with
  | [] => rfl
  | [_] => rfl
  | a :: b :: s =>
    rw [decode, if_pos rfl]
    cases ha : hexValue a with
    | none => rfl
    | some x =>
      cases hb : hexValue b with
      | none => rfl
      | some y => exact absurd ⟨a, b, s, rfl, by rw [ha]; rfl, by rw [hb]; rfl⟩ hs

/-- Texts of kept bytes and triples. -/
inductive Encoded (keep : UInt8 → Bool) : List UInt8 → Prop
  | nil : Encoded keep []
  | plain {c : UInt8} {s : List UInt8} : keep c = true → Encoded keep s → Encoded keep (c :: s)
  | triple {a b x y : UInt8} {s : List UInt8} : hexValue a = some x → hexValue b = some y →
      Encoded keep s → Encoded keep (percent :: a :: b :: s)

section

variable {keep : UInt8 → Bool}

theorem Encoded.append {s t : List UInt8} (hs : Encoded keep s) (ht : Encoded keep t) :
    Encoded keep (s ++ t) := by
  induction hs with
  | nil => exact ht
  | plain hc _ ih => exact .plain hc ih
  | triple ha hb _ ih => exact .triple ha hb ih

/-- Encoded pieces joined by a kept byte are an encoded text. -/
theorem Encoded.intercalate {sep : UInt8} (hsep : keep sep = true) :
    ∀ {ls : List (List UInt8)}, (∀ p ∈ ls, Encoded keep p) → Encoded keep ([sep].intercalate ls) := by
  intro ls
  induction ls with
  | nil => exact fun _ => .nil
  | cons p ls ih =>
    intro hls
    have hp := hls p List.mem_cons_self
    have hrest := ih fun q hq => hls q (List.mem_cons_of_mem p hq)
    cases ls with
    | nil =>
      rw [List.intercalate_singleton]
      exact hp
    | cons l ls =>
      rw [List.intercalate_cons_cons, List.append_assoc]
      exact hp.append (.plain hsep hrest)

/-- A text that keeps less is one that keeps more. -/
theorem Encoded.mono {keep' : UInt8 → Bool} (hkeep : ∀ c, keep c = true → keep' c = true)
    {s : List UInt8} (hs : Encoded keep s) : Encoded keep' s := by
  induction hs with
  | nil => exact .nil
  | plain hc _ ih => exact .plain (hkeep _ hc) ih
  | triple ha hb _ ih => exact .triple ha hb ih

/-- The bytes of an encoded text are kept ones, `%` and digits. -/
theorem Encoded.of_mem {s : List UInt8} (hs : Encoded keep s) {c : UInt8} (hc : c ∈ s) :
    keep c = true ∨ c = percent ∨ (hexValue c).isSome = true := by
  induction hs with
  | nil => exact absurd hc List.not_mem_nil
  | plain hkeep _ ih =>
    rcases List.mem_cons.mp hc with rfl | hc
    · exact Or.inl hkeep
    · exact ih hc
  | triple ha hb _ ih =>
    rcases List.mem_cons.mp hc with rfl | hc
    · exact Or.inr (Or.inl rfl)
    · rcases List.mem_cons.mp hc with rfl | hc
      · exact Or.inr (Or.inr (by rw [ha]; rfl))
      · rcases List.mem_cons.mp hc with rfl | hc
        · exact Or.inr (Or.inr (by rw [hb]; rfl))
        · exact ih hc

/-- **Decoding an encoded text leaves the rest to be decoded on its own.** -/
theorem Encoded.decode_append (hkeep : keep percent = false) {s : List UInt8}
    (hs : Encoded keep s) (t : List UInt8) : decode (s ++ t) = decode s ++ decode t := by
  induction hs with
  | nil => rfl
  | @plain c s hc _ ih =>
    have hne : c ≠ percent := fun h => absurd hc (by rw [h, hkeep]; decide)
    rw [List.cons_append, decode_cons_of_ne hne, decode_cons_of_ne hne, ih, List.cons_append]
  | triple ha hb _ ih =>
    rw [List.cons_append, List.cons_append, List.cons_append, decode_triple ha hb,
      decode_triple ha hb, ih, List.cons_append]

theorem encoded_encode (s : List UInt8) : Encoded keep (encode keep s) := by
  induction s with
  | nil => exact .nil
  | cons b s ih =>
    show Encoded keep (encodeByte keep b ++ encode keep s)
    rw [encodeByte]
    split
    · rename_i hb
      exact .plain hb ih
    · exact .triple (hexValue_high b) (hexValue_low b) ih

/-- **Decoding undoes encoding**, whatever bytes are kept but `%`. -/
theorem decode_encode (hkeep : keep percent = false) (s : List UInt8) :
    decode (encode keep s) = s := by
  induction s with
  | nil => rfl
  | cons b s ih =>
    show decode (encodeByte keep b ++ encode keep s) = b :: s
    rw [encodeByte]
    split
    · rename_i hb
      have hne : b ≠ percent := fun h => absurd hb (by rw [h, hkeep]; decide)
      rw [List.singleton_append, decode_cons_of_ne hne, ih]
    · show decode (percent :: hexDigit (b / 16) :: hexDigit (b % 16) :: encode keep s) = b :: s
      rw [decode_triple (hexValue_high b) (hexValue_low b), byteOf_div_mod, ih]

end

end NetMod.PercentEncoding
