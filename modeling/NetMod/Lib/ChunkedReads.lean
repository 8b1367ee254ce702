import Mathlib.Data.List.Basic
import Mathlib.Data.List.Flatten

/-!
# Reading a source in chunks

A source is read by calls that each return a chunk.  It is `Progressive` when a call returns the
front of what remains and returns nothing only when nothing remains.  Then the way the calls are
sized does not matter: the chunks of any sequence of calls concatenate to a prefix of what remained,
and to all of it once a call has returned nothing (`readAll_spec`).  Conversely, what every sequence
of calls yields determines what remained (`yields_iff`).
-/

namespace NetMod.ChunkedReads

variable {σ ν α : Type*}

/-- Make the calls one after another and collect their chunks. -/
def readAll (read : σ → ν → Option (σ × List α)) : σ → List ν → Option (σ × List (List α))
  | s, [] => some (s, [])
  | s, n :: ns =>
    (read s n).bind fun (s', out) =>
      (readAll read s' ns).map fun (s'', outs) => (s'', out :: outs)

/-- Valid calls return the front of what remains, and nothing only at the end. -/
structure Progressive (read : σ → ν → Option (σ × List α)) (remaining : σ → List α)
    (valid : ν → Prop) : Prop where
  front : ∀ s n, valid n → ∃ s' out, read s n = some (s', out) ∧
    remaining s = out ++ remaining s' ∧ (out = [] → remaining s = [])

variable {read : σ → ν → Option (σ × List α)} {remaining : σ → List α} {valid : ν → Prop}

/-- **Any sequence of calls**: the chunks are a prefix, and everything once one of them is empty. -/
theorem Progressive.readAll_spec (hp : Progressive read remaining valid) {ns : List ν}
    (hns : ∀ n ∈ ns, valid n) (s : σ) :
    ∃ s' outs, readAll read s ns = some (s', outs) ∧
      remaining s = outs.flatten ++ remaining s' ∧ ([] ∈ outs → outs.flatten = remaining s) := by
  induction ns generalizing s with
  | nil => exact ⟨s, [], rfl, rfl, fun h => absurd h (List.not_mem_nil)⟩
  | cons n ns ih =>
    obtain ⟨s₁, out, hread, hrem, hend⟩ := hp.front s n (hns n List.mem_cons_self)
    obtain ⟨s', outs, hall, hrest, hdone⟩ := ih (fun m hm => hns m (List.mem_cons_of_mem n hm)) s₁
    refine ⟨s', out :: outs, by simp [readAll, hread, hall], ?_, ?_⟩
    · rw [hrem, hrest, List.flatten_cons, List.append_assoc]
    · intro hmem
      rw [List.flatten_cons]
      rcases List.mem_cons.mp hmem with hnil | hmem
      · have h₀ := hend hnil.symm
        rw [h₀] at hrem ⊢
        obtain ⟨hout, h₁⟩ := List.append_eq_nil_iff.mp hrem.symm
        rw [h₁] at hrest
        rw [hout, (List.append_eq_nil_iff.mp hrest.symm).1]
        rfl
      · rw [hdone hmem, hrem]

/-- Enough calls reach the end. -/
theorem Progressive.exists_end (hp : Progressive read remaining valid) {n : ν} (hn : valid n) :
    ∀ (k : Nat) (s : σ), (remaining s).length ≤ k →
      ∃ ns, (∀ m ∈ ns, valid m) ∧ ∃ s' outs, readAll read s ns = some (s', outs) ∧ [] ∈ outs := by
  intro k
  induction k with
  | zero =>
    intro s hk
    obtain ⟨s', out, hread, hrem, -⟩ := hp.front s n hn
    rw [List.length_eq_zero_iff.mp (Nat.le_zero.mp hk)] at hrem
    obtain ⟨rfl, -⟩ := List.append_eq_nil_iff.mp hrem.symm
    exact ⟨[n], by simpa using hn, s', [[]], by simp [readAll, hread], List.mem_singleton.mpr rfl⟩
  | succ k ih =>
    intro s hk
    obtain ⟨s₁, out, hread, hrem, hend⟩ := hp.front s n hn
    by_cases hout : out = []
    · subst hout
      exact ⟨[n], by simpa using hn, s₁, [[]], by simp [readAll, hread], List.mem_singleton.mpr rfl⟩
    · have hpos := List.length_pos_iff.mpr hout
      have hlen : (remaining s).length = out.length + (remaining s₁).length := by
        rw [hrem, List.length_append]
      obtain ⟨ns, hns, s', outs, hall, hmem⟩ := ih s₁ (by omega)
      refine ⟨n :: ns, ?_, s', out :: outs, by simp [readAll, hread, hall],
        List.mem_cons_of_mem out hmem⟩
      intro m hm
      rcases List.mem_cons.mp hm with rfl | hm
      · exact hn
      · exact hns m hm

/-- Whatever the calls, they yield a prefix of `body`, and all of it if they reach the end. -/
def Yields (read : σ → ν → Option (σ × List α)) (valid : ν → Prop) (body : List α) (s : σ) : Prop :=
  ∀ ns, (∀ n ∈ ns, valid n) → ∃ s' outs, readAll read s ns = some (s', outs) ∧
    outs.flatten <+: body ∧ ([] ∈ outs → outs.flatten = body)

/-- **A progressive source yields `body` iff `body` is what remains.** -/
theorem Progressive.yields_iff (hp : Progressive read remaining valid) {n : ν} (hn : valid n)
    (body : List α) (s : σ) : Yields read valid body s ↔ remaining s = body := by
  constructor
  · intro h
    obtain ⟨ns, hns, s', outs, hall, hmem⟩ := hp.exists_end hn _ s (Nat.le_refl _)
    obtain ⟨s₁, outs₁, hall₁, -, hdone₁⟩ := hp.readAll_spec hns s
    obtain ⟨s₂, outs₂, hall₂, -, hdone₂⟩ := h ns hns
    obtain ⟨-, rfl⟩ := Prod.mk.inj (Option.some.inj (hall.symm.trans hall₁))
    obtain ⟨-, rfl⟩ := Prod.mk.inj (Option.some.inj (hall.symm.trans hall₂))
    rw [← hdone₁ hmem, hdone₂ hmem]
  · intro heq ns hns
    subst heq
    obtain ⟨s', outs, hall, hrem, hdone⟩ := hp.readAll_spec hns s
    exact ⟨s', outs, hall, ⟨remaining s', hrem.symm⟩, hdone⟩

end NetMod.ChunkedReads
