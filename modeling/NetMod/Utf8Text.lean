import NetMod.BlitzText

/-!
# Texts as UTF-8

`fromUTF8Bytes` reads what `toUTF8String` writes (`fromUTF8Bytes_toUTF8String`), for every text: a
surrogate without its partner is a code point of three bytes like any other.  Writing a text goes
piece by piece wherever a piece does not begin with a low surrogate (`toUTF8String_append`), and
ASCII texts are their bytes.
-/

namespace NetMod.Utf8Text

open NetMod.BlitzText

/-- The code units of a code point. -/
def codeUnits (v : Nat) : Text :=
  if v < 0x10000 then [UInt16.ofNat v]
  else [UInt16.ofNat (0xD800 + (v - 0x10000) / 1024), UInt16.ofNat (0xDC00 + (v - 0x10000) % 1024)]

/-- `String.FromUTF8Bytes(p, n)`: the first byte tells how many follow; an unfinished sequence at the
end is dropped. -/
def fromUTF8Bytes : List UInt8 → Text
  | [] => []
  | c :: s =>
    if c < 0x80 then c.toUInt16 :: fromUTF8Bytes s
    else
      match s with
      | [] => []
      | d :: s =>
        if c < 0xE0 then codeUnits (c.toNat % 32 * 64 + d.toNat % 64) ++ fromUTF8Bytes s
        else
          match s with
          | [] => []
          | e :: s =>
            if c < 0xF0 then
              codeUnits (c.toNat % 16 * 4096 + d.toNat % 64 * 64 + e.toNat % 64) ++ fromUTF8Bytes s
            else
              match s with
              | [] => []
              | f :: s =>
                codeUnits (c.toNat % 8 * 262144 + d.toNat % 64 * 4096 + e.toNat % 64 * 64 +
                  f.toNat % 64) ++ fromUTF8Bytes s

/-- `String.FromUTF8String(p)`: up to the terminating zero. -/
def fromUTF8String (s : List UInt8) : Text := fromUTF8Bytes (s.takeWhile (· ≠ 0))

/-- Without a zero byte the whole string is read. -/
theorem takeWhile_nonzero {s : List UInt8} (h : ∀ b ∈ s, 0 < b.toNat) : s.takeWhile (· ≠ 0) = s := by
  rw [List.takeWhile_eq_self_iff]
  intro b hb
  have hpos := h b hb
  rw [decide_eq_true_eq, ne_eq, ← UInt8.toNat_inj]
  show ¬ b.toNat = 0
  omega

theorem toNat_ofNat_byte {n : Nat} (hn : n < 256) : (UInt8.ofNat n).toNat = n := by
  rw [UInt8.toNat_ofNat']
  exact Nat.mod_eq_of_lt hn

/-! ### One sequence at a time -/

section

variable {c d e f : UInt8}

theorem fromUTF8Bytes_one (h : c.toNat < 128) (s : List UInt8) :
    fromUTF8Bytes (c :: s) = c.toUInt16 :: fromUTF8Bytes s := by
  rw [fromUTF8Bytes.eq_def]
  exact if_pos (UInt8.lt_iff_toNat_lt.mpr h)

theorem fromUTF8Bytes_two (h : 128 ≤ c.toNat) (h' : c.toNat < 224) (s : List UInt8) :
    fromUTF8Bytes (c :: d :: s) =
      codeUnits (c.toNat % 32 * 64 + d.toNat % 64) ++ fromUTF8Bytes s := by
  rw [fromUTF8Bytes.eq_def]
  refine (if_neg fun hlt => ?_).trans (if_pos (UInt8.lt_iff_toNat_lt.mpr h'))
  exact absurd (UInt8.lt_iff_toNat_lt.mp hlt) (Nat.not_lt.mpr h)

theorem fromUTF8Bytes_three (h : 224 ≤ c.toNat) (h' : c.toNat < 240) (s : List UInt8) :
    fromUTF8Bytes (c :: d :: e :: s) =
      codeUnits (c.toNat % 16 * 4096 + d.toNat % 64 * 64 + e.toNat % 64) ++ fromUTF8Bytes s := by
  have hge : ∀ n : UInt8, n.toNat ≤ 224 → ¬ c < n := by
    intro n hn hlt
    have := UInt8.lt_iff_toNat_lt.mp hlt
    omega
  rw [fromUTF8Bytes.eq_def]
  apply ((if_neg (hge 0x80 (by decide))).trans (if_neg (hge 0xE0 (by decide)))).trans
  exact if_pos (UInt8.lt_iff_toNat_lt.mpr h')

theorem fromUTF8Bytes_four (h : 240 ≤ c.toNat) (s : List UInt8) :
    fromUTF8Bytes (c :: d :: e :: f :: s) =
      codeUnits (c.toNat % 8 * 262144 + d.toNat % 64 * 4096 + e.toNat % 64 * 64 + f.toNat % 64) ++
        fromUTF8Bytes s := by
  have hge : ∀ n : UInt8, n.toNat ≤ 240 → ¬ c < n := by
    intro n hn hlt
    have := UInt8.lt_iff_toNat_lt.mp hlt
    omega
  rw [fromUTF8Bytes.eq_def]
  apply ((if_neg (hge 0x80 (by decide))).trans (if_neg (hge 0xE0 (by decide)))).trans
  exact if_neg (hge 0xF0 (by decide))

end

/-- **A code point is read back from its bytes**, whatever follows them. -/
theorem fromUTF8Bytes_utf8Bytes {v : Nat} (hv : v < 0x110000) (s : List UInt8) :
    fromUTF8Bytes (utf8Bytes v ++ s) = codeUnits v ++ fromUTF8Bytes s := by
  -- the tail bytes, in the order of their weight
  have h₀ := toNat_ofNat_byte (n := 0x80 + v % 64) (by omega)
  have h₁ := toNat_ofNat_byte (n := 0x80 + v / 64 % 64) (by omega)
  have h₂ := toNat_ofNat_byte (n := 0x80 + v / 4096 % 64) (by omega)
  rw [utf8Bytes]
  split
  · rename_i hone
    have hlead := toNat_ofNat_byte (n := v) (by omega)
    have hunit : (UInt8.ofNat v).toUInt16 = UInt16.ofNat v := by
      rw [← UInt16.toNat_inj, UInt8.toNat_toUInt16, hlead, UInt16.toNat_ofNat',
        Nat.mod_eq_of_lt (by omega)]
    rw [List.singleton_append, fromUTF8Bytes_one (by omega), hunit, codeUnits, if_pos (by omega)]
    rfl
  · split
    · have hlead := toNat_ofNat_byte (n := 0xC0 + v / 64) (by omega)
      have hvalue : (0xC0 + v / 64) % 32 * 64 + (0x80 + v % 64) % 64 = v := by omega
      show fromUTF8Bytes (UInt8.ofNat (0xC0 + v / 64) :: UInt8.ofNat (0x80 + v % 64) :: s) = _
      rw [fromUTF8Bytes_two (by omega) (by omega), hlead, h₀, hvalue]
    · split
      · have hlead := toNat_ofNat_byte (n := 0xE0 + v / 4096) (by omega)
        have hvalue : (0xE0 + v / 4096) % 16 * 4096 + (0x80 + v / 64 % 64) % 64 * 64 +
            (0x80 + v % 64) % 64 = v := by omega
        show fromUTF8Bytes (UInt8.ofNat (0xE0 + v / 4096) :: UInt8.ofNat (0x80 + v / 64 % 64) ::
          UInt8.ofNat (0x80 + v % 64) :: s) = _
        rw [fromUTF8Bytes_three (by omega) (by omega), hlead, h₁, h₀, hvalue]
      · have hlead := toNat_ofNat_byte (n := 0xF0 + v / 262144) (by omega)
        have hvalue : (0xF0 + v / 262144) % 8 * 262144 + (0x80 + v / 4096 % 64) % 64 * 4096 +
            (0x80 + v / 64 % 64) % 64 * 64 + (0x80 + v % 64) % 64 = v := by omega
        show fromUTF8Bytes (UInt8.ofNat (0xF0 + v / 262144) :: UInt8.ofNat (0x80 + v / 4096 % 64) ::
          UInt8.ofNat (0x80 + v / 64 % 64) :: UInt8.ofNat (0x80 + v % 64) :: s) = _
        rw [fromUTF8Bytes_four (by omega), hlead, h₂, h₁, h₀, hvalue]

/-! ### Texts -/

theorem codeUnits_toNat (c : UInt16) : codeUnits c.toNat = [c] := by
  rw [codeUnits, if_pos c.toNat_lt, UInt16.ofNat_toNat]

/-- The code point of a surrogate pair has that pair for its units. -/
theorem codeUnits_pair {c d : UInt16} (hc : 0xD800 ≤ c) (hc' : c ≤ 0xDBFF) (hd : 0xDC00 ≤ d)
    (hd' : d ≤ 0xDFFF) :
    codeUnits ((c.toNat - 0xD800) * 1024 + (d.toNat - 0xDC00) + 0x10000) = [c, d] := by
  have h₁ : 0xD800 ≤ c.toNat := UInt16.le_iff_toNat_le.mp hc
  have h₂ : c.toNat ≤ 0xDBFF := UInt16.le_iff_toNat_le.mp hc'
  have h₃ : 0xDC00 ≤ d.toNat := UInt16.le_iff_toNat_le.mp hd
  have h₄ : d.toNat ≤ 0xDFFF := UInt16.le_iff_toNat_le.mp hd'
  have hhigh : 0xD800 + ((c.toNat - 0xD800) * 1024 + (d.toNat - 0xDC00) + 0x10000 - 0x10000) / 1024
      = c.toNat := by omega
  have hlow : 0xDC00 + ((c.toNat - 0xD800) * 1024 + (d.toNat - 0xDC00) + 0x10000 - 0x10000) % 1024
      = d.toNat := by omega
  rw [codeUnits, if_neg (by omega), hhigh, hlow, UInt16.ofNat_toNat, UInt16.ofNat_toNat]

theorem fromUTF8Bytes_toUTF8String_append (s : Text) (t : List UInt8) :
    fromUTF8Bytes (toUTF8String s ++ t) = s ++ fromUTF8Bytes t := by
  induction s using toUTF8String.induct with
  | case1 => rfl
  | case2 c =>
    have hc := c.toNat_lt
    rw [toUTF8String, fromUTF8Bytes_utf8Bytes (by omega), codeUnits_toNat]
  | case3 c d s hpair ih =>
    obtain ⟨hc, hc', hd, hd'⟩ := hpair
    have h₂ : c.toNat ≤ 0xDBFF := UInt16.le_iff_toNat_le.mp hc'
    have h₄ : d.toNat ≤ 0xDFFF := UInt16.le_iff_toNat_le.mp hd'
    rw [toUTF8String, if_pos ⟨hc, hc', hd, hd'⟩, List.append_assoc,
      fromUTF8Bytes_utf8Bytes (by omega), ih, codeUnits_pair hc hc' hd hd']
    rfl
  | case4 c d s hpair ih =>
    have hc := c.toNat_lt
    rw [toUTF8String, if_neg hpair, List.append_assoc, fromUTF8Bytes_utf8Bytes (by omega), ih,
      codeUnits_toNat]
    rfl

/-- **A text is read back from its UTF-8 bytes.** -/
theorem fromUTF8Bytes_toUTF8String (s : Text) : fromUTF8Bytes (toUTF8String s) = s := by
  have h := fromUTF8Bytes_toUTF8String_append s []
  rw [List.append_nil] at h
  exact h.trans (List.append_nil s)

/-- A unit that is no low surrogate begins a sequence of its own. -/
theorem toUTF8String_append (s : Text) {c : UInt16} (hc : c < 0xDC00) (t : Text) :
    toUTF8String (s ++ c :: t) = toUTF8String s ++ toUTF8String (c :: t) := by
  have hlow : ¬ 0xDC00 ≤ c := UInt16.not_le.mpr hc
  induction s using toUTF8String.induct with
  | case1 => rfl
  | case2 b =>
    have hpair : ¬ (0xD800 ≤ b ∧ b ≤ 0xDBFF ∧ 0xDC00 ≤ c ∧ c ≤ 0xDFFF) := fun h => hlow h.2.2.1
    have hstep : toUTF8String (b :: c :: t) = utf8Bytes b.toNat ++ toUTF8String (c :: t) := by
      rw [toUTF8String, if_neg hpair]
    exact hstep
  | case3 b d s hpair ih =>
    show toUTF8String (b :: d :: (s ++ c :: t)) = _
    rw [toUTF8String, if_pos hpair, ih, toUTF8String, if_pos hpair, List.append_assoc]
  | case4 b d s hpair ih =>
    show toUTF8String (b :: d :: (s ++ c :: t)) = _
    rw [toUTF8String, if_neg hpair, ← List.cons_append, ih, toUTF8String, if_neg hpair,
      List.append_assoc]

theorem toUTF8String_cons_ascii {c : UInt16} (hc : c < 0x80) (s : Text) :
    toUTF8String (c :: s) = c.toUInt8 :: toUTF8String s := by
  have hlt : c.toNat < 128 := UInt16.lt_iff_toNat_lt.mp hc
  have hbytes : utf8Bytes c.toNat = [c.toUInt8] := by
    rw [utf8Bytes, if_pos hlt]
    rfl
  match s with
  | [] => exact hbytes
  | d :: s =>
    have hpair : ¬ (0xD800 ≤ c ∧ c ≤ 0xDBFF ∧ 0xDC00 ≤ d ∧ d ≤ 0xDFFF) := by
      intro h
      have hge : 0xD800 ≤ c.toNat := UInt16.le_iff_toNat_le.mp h.1
      omega
    rw [toUTF8String, if_neg hpair, hbytes]
    rfl

theorem length_utf8Bytes_le (v : Nat) : (utf8Bytes v).length ≤ 4 := by
  rw [utf8Bytes]
  split
  · exact (by decide : (1 : Nat) ≤ 4)
  · split
    · exact (by decide : (2 : Nat) ≤ 4)
    · split
      · exact (by decide : (3 : Nat) ≤ 4)
      · exact le_rfl

theorem length_utf8Bytes_unit (c : UInt16) : (utf8Bytes c.toNat).length ≤ 3 := by
  have hc := c.toNat_lt
  rw [utf8Bytes]
  split
  · exact (by decide : (1 : Nat) ≤ 3)
  · split
    · exact (by decide : (2 : Nat) ≤ 3)
    · exact le_rfl

theorem one_le_length_utf8Bytes (v : Nat) : 1 ≤ (utf8Bytes v).length := by
  rw [utf8Bytes]
  split
  · exact le_rfl
  · split
    · exact (by decide : (1 : Nat) ≤ 2)
    · split
      · exact (by decide : (1 : Nat) ≤ 3)
      · exact (by decide : (1 : Nat) ≤ 4)

theorem length_utf8Bytes_pair (n : Nat) : (utf8Bytes (n + 0x10000)).length = 4 := by
  rw [utf8Bytes, if_neg (by omega), if_neg (by omega), if_neg (by omega)]
  rfl

/-- A unit takes at least one byte. -/
theorem length_le_toUTF8String (s : Text) : s.length ≤ (toUTF8String s).length := by
  induction s using toUTF8String.induct with
  | case1 => exact le_rfl
  | case2 c => exact one_le_length_utf8Bytes _
  | case3 c d s hpair ih =>
    rw [toUTF8String, if_pos hpair, List.length_append, length_utf8Bytes_pair, List.length_cons,
      List.length_cons]
    omega
  | case4 c d s hpair ih =>
    have hone := one_le_length_utf8Bytes c.toNat
    rw [toUTF8String, if_neg hpair, List.length_append, List.length_cons]
    omega

theorem lt_of_length_utf8Bytes {v : Nat} (h : (utf8Bytes v).length ≤ 1) : v < 128 := by
  by_contra hge
  rw [utf8Bytes, if_neg (by omega)] at h
  split at h
  · exact absurd h (by decide : ¬ 2 ≤ 1)
  · split at h
    · exact absurd h (by decide : ¬ 3 ≤ 1)
    · exact absurd h (by decide : ¬ 4 ≤ 1)

/-- Only the ASCII units take no more than one byte. -/
theorem ascii_of_length_le {s : Text} (h : (toUTF8String s).length ≤ s.length) :
    ∀ c ∈ s, c.toNat < 128 := by
  induction s using toUTF8String.induct with
  | case1 => exact fun c hc => absurd hc List.not_mem_nil
  | case2 c =>
    intro x hx
    rw [List.mem_singleton.mp hx]
    exact lt_of_length_utf8Bytes h
  | case3 c d s hpair ih =>
    have hrest := length_le_toUTF8String s
    rw [toUTF8String, if_pos hpair, List.length_append, length_utf8Bytes_pair, List.length_cons,
      List.length_cons] at h
    omega
  | case4 c d s hpair ih =>
    have hone := one_le_length_utf8Bytes c.toNat
    have hrest := length_le_toUTF8String (d :: s)
    rw [toUTF8String, if_neg hpair, List.length_append, List.length_cons] at h
    intro x hx
    rcases List.mem_cons.mp hx with rfl | hx
    · exact lt_of_length_utf8Bytes (by omega)
    · exact ih (by omega) x hx

/-- A unit takes at most three bytes. -/
theorem length_toUTF8String_le (s : Text) : (toUTF8String s).length ≤ 3 * s.length := by
  induction s using toUTF8String.induct with
  | case1 => exact le_rfl
  | case2 c => exact length_utf8Bytes_unit c
  | case3 c d s hpair ih =>
    have hfour := length_utf8Bytes_le ((c.toNat - 0xD800) * 1024 + (d.toNat - 0xDC00) + 0x10000)
    rw [toUTF8String, if_pos hpair, List.length_append, List.length_cons, List.length_cons]
    omega
  | case4 c d s hpair ih =>
    have hthree := length_utf8Bytes_unit c
    rw [toUTF8String, if_neg hpair, List.length_append, List.length_cons]
    omega

/-- The bytes of a code point are no lower than it, or none of ASCII. -/
theorem le_of_mem_utf8Bytes {k v : Nat} (hk : k ≤ 128) (hv : k ≤ v) (hlt : v < 0x110000) :
    ∀ b ∈ utf8Bytes v, k ≤ b.toNat := by
  have hbyte : ∀ n, k ≤ n → n < 256 → k ≤ (UInt8.ofNat n).toNat := by
    intro n hn hn'
    rw [toNat_ofNat_byte hn']
    exact hn
  rw [utf8Bytes]
  split
  · simpa using hbyte v hv (by omega)
  · split
    · simpa using ⟨hbyte (0xC0 + v / 64) (by omega) (by omega), hbyte (0x80 + v % 64) (by omega) (by omega)⟩
    · split
      · simpa using ⟨hbyte (0xE0 + v / 4096) (by omega) (by omega),
          hbyte (0x80 + v / 64 % 64) (by omega) (by omega), hbyte (0x80 + v % 64) (by omega) (by omega)⟩
      · simpa using ⟨hbyte (0xF0 + v / 262144) (by omega) (by omega),
          hbyte (0x80 + v / 4096 % 64) (by omega) (by omega),
          hbyte (0x80 + v / 64 % 64) (by omega) (by omega), hbyte (0x80 + v % 64) (by omega) (by omega)⟩

/-- A text without low units has no low byte. -/
theorem le_of_mem_toUTF8String {k : Nat} (hk : k ≤ 128) {s : Text} (hs : ∀ c ∈ s, k ≤ c.toNat) :
    ∀ b ∈ toUTF8String s, k ≤ b.toNat := by
  induction s using toUTF8String.induct with
  | case1 => exact fun b hb => absurd hb List.not_mem_nil
  | case2 c =>
    have hc := c.toNat_lt
    exact le_of_mem_utf8Bytes hk (hs c List.mem_cons_self) (by omega)
  | case3 c d s hpair ih =>
    obtain ⟨hc, hc', hd, hd'⟩ := hpair
    have h₂ : c.toNat ≤ 0xDBFF := UInt16.le_iff_toNat_le.mp hc'
    have h₄ : d.toNat ≤ 0xDFFF := UInt16.le_iff_toNat_le.mp hd'
    rw [toUTF8String, if_pos ⟨hc, hc', hd, hd'⟩]
    intro b hb
    rcases List.mem_append.mp hb with hb | hb
    · exact le_of_mem_utf8Bytes hk (by omega) (by omega) b hb
    · exact ih (fun x hx => hs x (List.mem_cons_of_mem _ (List.mem_cons_of_mem _ hx))) b hb
  | case4 c d s hpair ih =>
    have hc := c.toNat_lt
    rw [toUTF8String, if_neg hpair]
    intro b hb
    rcases List.mem_append.mp hb with hb | hb
    · exact le_of_mem_utf8Bytes hk (hs c List.mem_cons_self) (by omega) b hb
    · exact ih (fun x hx => hs x (List.mem_cons_of_mem _ hx)) b hb

/-- **A string without a zero unit** is read back as a zero-terminated one. -/
theorem fromUTF8String_toUTF8String {s : Text} (hs : 0 ∉ s) :
    fromUTF8String (toUTF8String s) = s := by
  have hunits : ∀ c ∈ s, 1 ≤ c.toNat := by
    intro c hc
    refine Nat.one_le_iff_ne_zero.mpr fun hzero => hs ?_
    rwa [← UInt16.toNat_inj.mp (show c.toNat = (0 : UInt16).toNat from hzero)]
  have hbytes := le_of_mem_toUTF8String (by omega) hunits
  rw [fromUTF8String, takeWhile_nonzero hbytes, fromUTF8Bytes_toUTF8String]

/-! ### ASCII texts -/

/-- The text with these bytes for its units. -/
def ascii (s : List UInt8) : Text := s.map UInt8.toUInt16

theorem fromUTF8Bytes_ascii {s : List UInt8} (h : ∀ b ∈ s, b.toNat < 128) :
    fromUTF8Bytes s = ascii s := by
  induction s with
  | nil => rfl
  | cons b s ih =>
    rw [fromUTF8Bytes_one (h b List.mem_cons_self), ih fun x hx => h x (List.mem_cons_of_mem b hx)]
    rfl

theorem toUTF8String_ascii {s : List UInt8} (h : ∀ b ∈ s, b.toNat < 128) :
    toUTF8String (ascii s) = s := by
  induction s with
  | nil => rfl
  | cons b s ih =>
    have hb : b.toUInt16 < 0x80 := by
      rw [UInt16.lt_iff_toNat_lt, UInt8.toNat_toUInt16]
      exact h b List.mem_cons_self
    show toUTF8String (b.toUInt16 :: ascii s) = _
    rw [toUTF8String_cons_ascii hb, ih fun x hx => h x (List.mem_cons_of_mem b hx)]
    simp

theorem ascii_injective {s t : List UInt8} (h : ascii s = ascii t) : s = t := by
  refine List.map_injective_iff.mpr (fun a b hab => ?_) h
  have hnat := congrArg UInt16.toNat hab
  rw [UInt8.toNat_toUInt16, UInt8.toNat_toUInt16] at hnat
  exact UInt8.toNat_inj.mp hnat

/-- Printable bytes are read as they are, up to their end. -/
theorem fromUTF8String_printable {s : List UInt8} (h : ∀ b ∈ s, 33 ≤ b.toNat ∧ b.toNat < 128) :
    fromUTF8String s = ascii s := by
  rw [fromUTF8String, takeWhile_nonzero fun b hb => Nat.lt_of_lt_of_le (by decide) (h b hb).1]
  exact fromUTF8Bytes_ascii fun b hb => (h b hb).2

end NetMod.Utf8Text
