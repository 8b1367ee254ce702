import NetMod.CurlSlist
import NetMod.Lib.FreeLedger

/-!
# Who frees the lists of an easy handle

`processArray` builds a native list and keeps its `TSList` in `sLists`; `freeLists`, which `cleanup`
and `Delete` call, frees the lists kept there and drops the array.  `curlProcessSlist` frees the list
it has read as well and leaves the `TSList` as it is.  So a list has two owners from its first read
on: `freed_once_iff` says that the ledger is right in exactly the runs that read no list.
-/

namespace NetMod.SlistOwnership

open NetMod.BlitzText NetMod.CurlSlist NetMod.FreeLedger

/-- The methods of `TCurlEasy` that pass a string array on to `processArray`. -/
inductive ListOption where
  | httpHeader | http200Aliases | preQuote | quote | postQuote | telnetOptions
deriving DecidableEq

/-- An easy handle with all the lists it ever made, named by their position in `built`; `sLists` has
those of its array.  The ledger records the reads of `curlProcessSlist` and the calls of
`curl_slist_free_all` on lists other than `NULL`. -/
structure TCurlEasy where
  easyHandle : Bool := true
  built : List TSList := []
  sLists : List Nat := []
  ledger : List (Event Nat) := []

inductive Call where
  | setList (option : ListOption) (array : List (Text × Bool))
  | processArray (array : List (Text × Bool))
  | curlProcessSlist (l : Nat)
  | freeLists
  | cleanup
  | delete

namespace TCurlEasy

/-- `TCurlEasy.processArray`. -/
def addArray (s : TCurlEasy) (array : List (Text × Bool)) : TCurlEasy :=
  match CurlSlist.processArray array with
  | some l => { s with built := s.built ++ [l], sLists := s.sLists ++ [s.built.length] }
  | none => s

/-- The body of `httpHeader` and its siblings; an empty array resets the option. -/
def setList (s : TCurlEasy) (_option : ListOption) (array : List (Text × Bool)) : TCurlEasy :=
  if s.easyHandle then (if array ≠ [] then s.addArray array else s) else s

/-- The list is there and is not `NULL`. -/
def IsNative (s : TCurlEasy) (l : Nat) : Prop := ∃ t, s.built[l]? = some t ∧ t.slist ≠ []

instance (s : TCurlEasy) (l : Nat) : Decidable (s.IsNative l) :=
  decidable_of_iff (∃ t ∈ s.built[l]?, t.slist ≠ []) (by simp [IsNative])

/-- `curlProcessSlist` reads the list and frees it, unless an exception ends it before. -/
def processEvents (s : TCurlEasy) (l : Nat) : List (Event Nat) :=
  match s.built[l]? with
  | none => []
  | some t =>
    if t.slist = [] then []
    else if (CurlSlist.curlProcessSlist (some t)).isSome then [.use l, .free l] else [.use l]

/-- `curl_slist_free_all` on each list of the array. -/
def freeEvents (s : TCurlEasy) : List (Event Nat) :=
  (s.sLists.filter fun l => decide (s.IsNative l)).map .free

def freeLists (s : TCurlEasy) : TCurlEasy :=
  { s with sLists := [], ledger := s.ledger ++ s.freeEvents }

/-- `cleanup`, which `Delete` calls. -/
def cleanup (s : TCurlEasy) : TCurlEasy := { s with easyHandle := false }.freeLists

def step (s : TCurlEasy) : Call → TCurlEasy
  | .setList option array => s.setList option array
  | .processArray array => s.addArray array
  | .curlProcessSlist l => { s with ledger := s.ledger ++ s.processEvents l }
  | .freeLists => s.freeLists
  | .cleanup => s.cleanup
  | .delete => s.cleanup

def run (calls : List Call) : TCurlEasy := calls.foldl step {}

/-- Every list that was built is freed exactly once and neither read nor freed after that. -/
def FreedOnceEach (s : TCurlEasy) : Prop := ∀ l, s.IsNative l → FreedOnce s.ledger l

end TCurlEasy

open TCurlEasy

variable {s : TCurlEasy}

/-! ### What a step does -/

/-- The array is empty, or the handle takes one list more and keeps it. -/
theorem addArray_cases (s : TCurlEasy) (array : List (Text × Bool)) :
    s.addArray array = s ∨ ∃ t, s.addArray array =
      { s with built := s.built ++ [t], sLists := s.sLists ++ [s.built.length] } := by
  rw [addArray]
  cases CurlSlist.processArray array with
  | none => exact Or.inl rfl
  | some t => exact Or.inr ⟨t, rfl⟩

/-- **A step** leaves the handle's lists alone, adds a list, records a read, or frees the array. -/
theorem step_cases (s : TCurlEasy) (c : Call) :
    step s c = s ∨
      (∃ t, step s c =
        { s with built := s.built ++ [t], sLists := s.sLists ++ [s.built.length] }) ∨
      (∃ l, c = .curlProcessSlist l ∧
        step s c = { s with ledger := s.ledger ++ s.processEvents l }) ∨
      ∃ e, step s c =
        { s with easyHandle := e, sLists := [], ledger := s.ledger ++ s.freeEvents } := by
  have hadd : ∀ array, s.addArray array = s ∨ ∃ t, s.addArray array =
      { s with built := s.built ++ [t], sLists := s.sLists ++ [s.built.length] } := addArray_cases s
  cases c with
  | setList option array =>
    show s.setList option array = s ∨ _
    rw [step, setList]
    split
    · split
      · rcases hadd array with h | h
        · exact Or.inl h
        · exact Or.inr (Or.inl h)
      · exact Or.inl rfl
    · exact Or.inl rfl
  | processArray array =>
    rcases hadd array with h | h
    · exact Or.inl h
    · exact Or.inr (Or.inl h)
  | curlProcessSlist l => exact Or.inr (Or.inr (Or.inl ⟨l, rfl, rfl⟩))
  | freeLists => exact Or.inr (Or.inr (Or.inr ⟨s.easyHandle, rfl⟩))
  | cleanup => exact Or.inr (Or.inr (Or.inr ⟨false, rfl⟩))
  | delete => exact Or.inr (Or.inr (Or.inr ⟨false, rfl⟩))

theorem isNative_append {t : TSList} {l : Nat} (h : s.IsNative l) :
    IsNative { s with built := s.built ++ [t], sLists := s.sLists ++ [s.built.length] } l := by
  obtain ⟨t', ht', hne⟩ := h
  have hl : l < s.built.length := (List.getElem?_eq_some_iff.mp ht').1
  exact ⟨t', by rw [List.getElem?_append_left hl, ht'], hne⟩

/-- Lists are never forgotten. -/
theorem isNative_step {l : Nat} (h : s.IsNative l) (c : Call) : (step s c).IsNative l := by
  rcases step_cases s c with heq | ⟨t, heq⟩ | ⟨l', -, heq⟩ | ⟨e, heq⟩
  · rwa [heq]
  · rw [heq]
    exact isNative_append h
  · rw [heq]
    exact h
  · rw [heq]
    exact h

theorem mem_freeEvents {l : Nat} : .free l ∈ s.freeEvents ↔ l ∈ s.sLists ∧ s.IsNative l := by
  rw [freeEvents, List.mem_map]
  simp

theorem processEvents_of_native {l : Nat} {t : TSList} (ht : s.built[l]? = some t)
    (hne : t.slist ≠ []) :
    s.processEvents l = if t.slist.length ≤ maxStrings then [.use l, .free l] else [.use l] := by
  rw [processEvents, ht]
  dsimp only
  rw [if_neg hne, curlProcessSlist_eq]
  by_cases hle : t.slist.length ≤ maxStrings <;> simp [hle]

theorem silent_processEvents {l l' : Nat} (h : l' ≠ l) : Silent (s.processEvents l) l' := by
  rw [processEvents, Silent]
  split
  · exact silent_nil
  · split
    · exact silent_nil
    · split <;> simp [h]

/-! ### Runs that read no list -/

/-- The call reads no list that `curlProcessSlist` would free or that is gone: what it is given is
`NULL`, or kept in the array and longer than an array can hold. -/
def Harmless (s : TCurlEasy) (l : Nat) : Prop :=
  ∀ t, s.built[l]? = some t → t.slist ≠ [] → l ∈ s.sLists ∧ maxStrings < t.slist.length

/-- A list is kept in the array and was not freed, or is gone from it and was freed once. -/
structure Owned (s : TCurlEasy) : Prop where
  nodup : s.sLists.Nodup
  kept : ∀ l ∈ s.sLists, l < s.built.length
  known : ∀ l, .free l ∈ s.ledger → l < s.built.length
  owner : ∀ l, s.IsNative l →
    (l ∈ s.sLists ∧ .free l ∉ s.ledger) ∨ (l ∉ s.sLists ∧ FreedOnce s.ledger l)

theorem lt_of_isNative {l : Nat} (h : s.IsNative l) : l < s.built.length := by
  obtain ⟨t, ht, -⟩ := h
  exact (List.getElem?_eq_some_iff.mp ht).1

theorem owned_new : Owned {} := by
  refine ⟨List.nodup_nil, ?_, ?_, ?_⟩
  · exact fun l hl => absurd hl List.not_mem_nil
  · exact fun l hl => absurd hl List.not_mem_nil
  · intro l hl
    exact absurd (lt_of_isNative hl) (Nat.not_lt_zero l)

theorem owned_append (h : Owned s) (t : TSList) :
    Owned { s with built := s.built ++ [t], sLists := s.sLists ++ [s.built.length] } := by
  have hfresh : s.built.length ∉ s.sLists := fun hmem => Nat.lt_irrefl _ (h.kept _ hmem)
  have hlength : (s.built ++ [t]).length = s.built.length + 1 := by simp
  refine ⟨?_, fun l hl => ?_, fun l hl => ?_, fun l hl => ?_⟩
  · exact List.nodup_append_comm.mp (List.nodup_cons.mpr ⟨hfresh, h.nodup⟩)
  · show l < (s.built ++ [t]).length
    rcases List.mem_append.mp hl with hl | hl
    · have := h.kept l hl
      omega
    · rw [List.mem_singleton.mp hl]
      omega
  · show l < (s.built ++ [t]).length
    have := h.known l hl
    omega
  · by_cases hnew : l = s.built.length
    · refine Or.inl ⟨?_, fun hmem => ?_⟩
      · rw [hnew]
        exact List.mem_append_right _ (List.mem_singleton.mpr rfl)
      · have := h.known l hmem
        omega
    · have hlt : l < s.built.length := by
        have hl' : l < (s.built ++ [t]).length := lt_of_isNative hl
        omega
      have hold : s.IsNative l := by
        obtain ⟨t', ht', hne⟩ := hl
        exact ⟨t', by rw [← ht']; exact (List.getElem?_append_left hlt).symm, hne⟩
      have hsame : l ∈ s.sLists ++ [s.built.length] ↔ l ∈ s.sLists := by simp [hnew]
      show l ∈ s.sLists ++ [s.built.length] ∧ _ ∨ l ∉ s.sLists ++ [s.built.length] ∧ _
      rw [hsame]
      exact h.owner l hold

/-- `freeLists` moves every list of the array to the freed ones. -/
theorem owned_freeLists (h : Owned s) (e : Bool) :
    Owned { s with easyHandle := e, sLists := [], ledger := s.ledger ++ s.freeEvents } := by
  refine ⟨List.nodup_nil, fun l hl => absurd hl List.not_mem_nil, fun l hl => ?_, fun l hl => ?_⟩
  · rcases List.mem_append.mp hl with hl | hl
    · exact h.known l hl
    · exact h.kept l (mem_freeEvents.mp hl).1
  · refine Or.inr ⟨List.not_mem_nil, ?_⟩
    have hnative : s.IsNative l := hl
    show FreedOnce (s.ledger ++ s.freeEvents) l
    rcases h.owner l hnative with ⟨hmem, hfree⟩ | ⟨hgone, honce⟩
    · refine FreedOnce.prepend ?_ hfree
      refine freedOnce_map (h.nodup.filter _) (List.mem_filter.mpr ⟨hmem, ?_⟩)
      exact decide_eq_true hnative
    · refine honce.append ⟨?_, fun hmem => hgone (mem_freeEvents.mp hmem).1⟩
      simp [freeEvents]

/-- A harmless read changes nothing for the owners. -/
theorem owned_process (h : Owned s) {l : Nat} (hl : Harmless s l) :
    Owned { s with ledger := s.ledger ++ s.processEvents l } := by
  have hevents : ∀ l', .free l' ∉ s.processEvents l := by
    intro l' hmem
    by_cases hsame : l' = l
    · subst hsame
      rw [processEvents] at hmem
      split at hmem
      · exact List.not_mem_nil hmem
      · rename_i t ht
        split at hmem
        · exact List.not_mem_nil hmem
        · rename_i hne
          rw [curlProcessSlist_eq, if_neg (Nat.not_le.mpr (hl t ht hne).2)] at hmem
          simp at hmem
    · exact (silent_processEvents hsame).2 hmem
  refine ⟨h.nodup, h.kept, fun l' hl' => ?_, fun l' hnative => ?_⟩
  · rcases List.mem_append.mp hl' with hl' | hl'
    · exact h.known l' hl'
    · exact absurd hl' (hevents l')
  · show l' ∈ s.sLists ∧ _ ∉ s.ledger ++ _ ∨ _
    rcases h.owner l' hnative with ⟨hmem, hfree⟩ | ⟨hgone, honce⟩
    · exact Or.inl ⟨hmem, mt List.mem_append.mp (not_or.mpr ⟨hfree, hevents l'⟩)⟩
    · refine Or.inr ⟨hgone, honce.append (silent_processEvents fun hsame => ?_)⟩
      obtain ⟨t, ht, hne⟩ := hnative
      rw [hsame] at ht hgone
      exact hgone (hl t ht hne).1

/-- What a call must meet for the ledger to stay right. -/
def ReadsNoList (s : TCurlEasy) (c : Call) : Prop := ∀ l, c = .curlProcessSlist l → Harmless s l

/-- **One step** keeps the owners. -/
theorem owned_step (h : Owned s) {c : Call} (hc : ReadsNoList s c) : Owned (step s c) := by
  rcases step_cases s c with heq | ⟨t, heq⟩ | ⟨l, hl, heq⟩ | ⟨e, heq⟩
  · rwa [heq]
  · rw [heq]
    exact owned_append h t
  · rw [heq]
    exact owned_process h (hc l hl)
  · rw [heq]
    exact owned_freeLists h e

theorem run_concat (calls : List Call) (c : Call) : run (calls ++ [c]) = step (run calls) c := by
  rw [run, List.foldl_append]
  rfl

theorem owned_run {calls : List Call}
    (hcalls : ∀ before c behind, calls = before ++ c :: behind → ReadsNoList (run before) c) :
    Owned (run calls) := by
  induction calls using List.reverseRecOn with
  | nil => exact owned_new
  | append_singleton calls c ih =>
    rw [run_concat]
    refine owned_step (ih fun before c' behind hsplit => ?_) (hcalls calls c [] rfl)
    exact hcalls before c' (behind ++ [c]) (by rw [hsplit, List.append_assoc]; rfl)

/-! ### Runs that read one -/

/-- The ledger only grows. -/
theorem ledger_foldl (calls : List Call) (s : TCurlEasy) :
    ∃ more, (calls.foldl step s).ledger = s.ledger ++ more := by
  induction calls generalizing s with
  | nil => exact ⟨[], (List.append_nil _).symm⟩
  | cons c calls ih =>
    obtain ⟨more, hmore⟩ := ih (step s c)
    rw [List.foldl_cons, hmore]
    rcases step_cases s c with heq | ⟨t, heq⟩ | ⟨l, -, heq⟩ | ⟨e, heq⟩
    · exact ⟨more, by rw [heq]⟩
    · exact ⟨more, by rw [heq]⟩
    · exact ⟨s.processEvents l ++ more, by rw [heq]; exact List.append_assoc _ _ _⟩
    · exact ⟨s.freeEvents ++ more, by rw [heq]; exact List.append_assoc _ _ _⟩

theorem isNative_foldl {l : Nat} (calls : List Call) (h : s.IsNative l) :
    (calls.foldl step s).IsNative l := by
  induction calls generalizing s with
  | nil => exact h
  | cons c calls ih => exact ih (isNative_step h c)

/-- What the array keeps is freed by `Delete` at the latest. -/
theorem freed_later {l : Nat} (calls : List Call) (hmem : l ∈ s.sLists) (h : s.IsNative l) :
    ∃ more, ((calls ++ [Call.delete]).foldl step s).ledger = s.ledger ++ more ∧ .free l ∈ more := by
  induction calls generalizing s with
  | nil => exact ⟨s.freeEvents, rfl, mem_freeEvents.mpr ⟨hmem, h⟩⟩
  | cons c calls ih =>
    rw [List.cons_append, List.foldl_cons]
    rcases step_cases s c with heq | ⟨t, heq⟩ | ⟨l', -, heq⟩ | ⟨e, heq⟩
    · rw [heq]
      exact ih hmem h
    · rw [heq]
      exact ih (List.mem_append_left _ hmem) (isNative_append h)
    · rw [heq]
      obtain ⟨more, hmore, hfree⟩ :=
        ih (s := { s with ledger := s.ledger ++ s.processEvents l' }) hmem h
      exact ⟨s.processEvents l' ++ more, by rw [hmore]; exact List.append_assoc _ _ _,
        List.mem_append_right _ hfree⟩
    · rw [heq]
      obtain ⟨more, hmore⟩ := ledger_foldl (calls ++ [Call.delete])
        { s with easyHandle := e, sLists := [], ledger := s.ledger ++ s.freeEvents }
      exact ⟨s.freeEvents ++ more, by rw [hmore]; exact List.append_assoc _ _ _,
        List.mem_append_left _ (mem_freeEvents.mpr ⟨hmem, h⟩)⟩

/-- In any run, what the array does not keep any more was freed. -/
theorem kept_or_freed (calls : List Call) {l : Nat} (h : (run calls).IsNative l) :
    l ∈ (run calls).sLists ∨ .free l ∈ (run calls).ledger := by
  induction calls using List.reverseRecOn generalizing l with
  | nil => exact absurd (lt_of_isNative h) (Nat.not_lt_zero l)
  | append_singleton calls c ih =>
    rw [run_concat] at h ⊢
    rcases step_cases (run calls) c with heq | ⟨t, heq⟩ | ⟨l', -, heq⟩ | ⟨e, heq⟩
    · rw [heq] at h ⊢
      exact ih h
    · rw [heq] at h ⊢
      by_cases hnew : l = (run calls).built.length
      · rw [hnew]
        exact Or.inl (List.mem_append_right _ (List.mem_singleton.mpr rfl))
      · have hlt : l < (run calls).built.length := by
          have hl : l < ((run calls).built ++ [t]).length := lt_of_isNative h
          rw [List.length_append, List.length_singleton] at hl
          omega
        have hold : (run calls).IsNative l := by
          obtain ⟨t', ht', hne⟩ := h
          exact ⟨t', by rw [← ht']; exact (List.getElem?_append_left hlt).symm, hne⟩
        exact (ih hold).imp_left (List.mem_append_left _)
    · rw [heq] at h ⊢
      exact (ih h).imp_right (List.mem_append_left _)
    · rw [heq] at h ⊢
      rcases ih h with hmem | hfree
      · exact Or.inr (List.mem_append_right _ (mem_freeEvents.mpr ⟨hmem, h⟩))
      · exact Or.inr (List.mem_append_left _ hfree)

/-- Where each list is freed once, a list that is read is still in `sLists`, and is not freed by its
reading. -/
theorem harmless_of_freed {calls before behind : List Call} {l : Nat}
    (honce : FreedOnceEach (run (calls ++ [Call.delete])))
    (hsplit : calls = before ++ .curlProcessSlist l :: behind) : Harmless (run before) l := by
  intro t ht hne
  have hnative : (run before).IsNative l := ⟨t, ht, hne⟩
  have hrun : run (calls ++ [Call.delete]) = (behind ++ [Call.delete]).foldl step
      { run before with ledger := (run before).ledger ++ (run before).processEvents l } := by
    rw [hsplit, List.append_assoc, run, List.foldl_append]
    rfl
  have hfinal : FreedOnce (run (calls ++ [Call.delete])).ledger l := by
    apply honce l
    rw [hrun]
    exact isNative_foldl _ hnative
  have hevents := processEvents_of_native ht hne
  have hread : .use l ∈ (run before).processEvents l := by
    rw [hevents]
    split <;> simp
  have hkept : l ∈ (run before).sLists := by
    apply (kept_or_freed before hnative).resolve_right
    intro hfree
    obtain ⟨more, hmore⟩ := ledger_foldl (behind ++ [Call.delete])
      { run before with ledger := (run before).ledger ++ (run before).processEvents l }
    rw [hrun, hmore, List.append_assoc] at hfinal
    exact (hfinal.silent hfree).1 (List.mem_append_left _ hread)
  refine ⟨hkept, Nat.lt_of_not_le fun hle => ?_⟩
  rw [if_pos hle] at hevents
  obtain ⟨more, hmore, hagain⟩ := freed_later behind hkept hnative
    (s := { run before with ledger := (run before).ledger ++ (run before).processEvents l })
  rw [hrun, hmore] at hfinal
  refine (hfinal.silent (List.mem_append_right _ ?_)).2 hagain
  rw [hevents]
  simp

/-- Where reading does no harm, each list has one owner up to the end. -/
theorem owned_of_harmless {calls : List Call}
    (hcalls : ∀ before l behind, calls = before ++ .curlProcessSlist l :: behind →
      Harmless (run before) l) : Owned (run (calls ++ [Call.delete])) := by
  apply owned_run
  intro before c behind hsplit l hl
  rcases List.eq_nil_or_concat behind with rfl | ⟨behind', d, rfl⟩
  · have hlast := (List.append_inj' hsplit rfl).2
    rw [hl] at hlast
    cases hlast
  · rw [List.concat_eq_append, ← List.cons_append, ← List.append_assoc] at hsplit
    have hfront := (List.append_inj' hsplit rfl).1
    rw [hl] at hfront
    exact hcalls before l behind' hfront

/-- **Each list is freed exactly once, exactly in the runs that read none.** -/
theorem freed_once_iff (calls : List Call) :
    FreedOnceEach (run (calls ++ [Call.delete])) ↔
      ∀ before l behind, calls = before ++ .curlProcessSlist l :: behind →
        Harmless (run before) l := by
  constructor
  · intro honce before l behind hsplit
    exact harmless_of_freed honce hsplit
  · intro hcalls l hnative
    have hempty : (run (calls ++ [Call.delete])).sLists = [] := by
      rw [run_concat]
      rfl
    rcases (owned_of_harmless hcalls).owner l hnative with ⟨hmem, -⟩ | ⟨-, honce⟩
    · rw [hempty] at hmem
      exact absurd hmem List.not_mem_nil
    · exact honce

/-- The repository's own test: a list is read, and its handle deleted. -/
theorem not_every_list_freed_once :
    ¬ ∀ calls : List Call, FreedOnceEach (run (calls ++ [Call.delete])) := by
  intro hall
  have honce := hall [.processArray [(lit "one", true), (lit "two", true), (lit "three", true)],
    .curlProcessSlist 0] 0 (by decide)
  have hledger : (run ([.processArray [(lit "one", true), (lit "two", true), (lit "three", true)],
      .curlProcessSlist 0] ++ [Call.delete])).ledger = [.use 0, .free 0] ++ [.free 0] := by decide
  rw [hledger] at honce
  exact (honce.silent (by decide)).2 (by decide)

end NetMod.SlistOwnership
