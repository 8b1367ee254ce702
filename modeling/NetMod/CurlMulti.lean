import NetMod.Lib.StepConditions
import Mathlib.Data.List.Nodup

/-!
# The multi wrapper and its native handle

`TCurlMulti` keeps the `TCurlEasy` objects it was given in `easyHandles`, besides the native multi
handle, which keeps the native handles attached to it and the messages of the transfers that are
done.  `multiInfoRead` looks up the owner of a message in the list.  The list is changed before the
native call and whatever that call returns: `mirrored_iff` says in which runs it is right all the
time.
-/

namespace NetMod.CurlMulti

/-- The codes of the native calls. -/
inductive CURLMcode where
  | ok | badHandle | badEasyHandle | outOfMemory | internalError | addedAlready | recursiveApiCall
  | abortedByCallback
deriving DecidableEq

/-- `CURLMsg`; libcurl knows no other message than `CURLMSG_DONE`. -/
structure CURLMsg where
  easyHandle : Nat
  result : Int32
deriving DecidableEq

/-- `Curl_multi`: the handles whose `multi` it is, and its message list. -/
structure CurlMultiHandle where
  xfers : List Nat := []
  msglist : List CURLMsg := []
deriving DecidableEq

/-- `curl_multi_add_handle`; `rc` is what its checks behind the one for a handle that is in a multi
find. -/
def curlMultiAddHandle (multi : CurlMultiHandle) (data : Nat) (rc : CURLMcode) :
    CurlMultiHandle × CURLMcode :=
  if data ∈ multi.xfers then (multi, .addedAlready)
  else if rc = .ok then ({ multi with xfers := multi.xfers ++ [data] }, .ok)
  else (multi, rc)

/-- `curl_multi_remove_handle`, with its message. -/
def curlMultiRemoveHandle (multi : CurlMultiHandle) (data : Nat) (rc : CURLMcode) :
    CurlMultiHandle × CURLMcode :=
  if data ∉ multi.xfers then (multi, .ok)
  else if rc = .ok then
    ({ xfers := multi.xfers.erase data,
       msglist := multi.msglist.eraseP fun msg => decide (msg.easyHandle = data) }, .ok)
  else (multi, rc)

/-- `curl_multi_cleanup` detaches what is left. -/
def curlMultiCleanup (multi : CurlMultiHandle) (rc : CURLMcode) : CurlMultiHandle × CURLMcode :=
  if rc = .ok then ({}, .ok) else (multi, rc)

/-- A transfer is done: its message is listed, once for each handle that is attached. -/
def multiAddmsg (multi : CurlMultiHandle) (msg : CURLMsg) : CurlMultiHandle :=
  if msg.easyHandle ∈ multi.xfers ∧ msg.easyHandle ∉ multi.msglist.map (·.easyHandle) then
    { multi with msglist := multi.msglist ++ [msg] }
  else multi

/-- `curl_multi_info_read`. -/
def curlMultiInfoRead (multi : CurlMultiHandle) (rc : CURLMcode) :
    CurlMultiHandle × Option CURLMsg :=
  match multi.msglist with
  | [] => (multi, none)
  | msg :: rest => if rc = .ok then ({ multi with msglist := rest }, some msg) else (multi, none)

structure TCurlEasy where
  easyHandlePtr : Option Nat
deriving DecidableEq

/-- `TCurlMultiMsg`; its `message` is `CURLMSG_DONE`. -/
structure TCurlMultiMsg where
  easy : Option Nat
  result : Int32
deriving DecidableEq

/-- A multi, with its native handle, and all the `TCurlEasy` objects ever made, named by their
position; a native easy handle has the name of the object that made it. -/
structure TCurlMulti where
  multiHandlePtr : Bool := true
  easyHandles : List Nat := []
  native : CurlMultiHandle := {}
  objects : List TCurlEasy := []
deriving DecidableEq

/-- A call, with what the native call finds. -/
inductive Call where
  | create (inits : Bool)
  | newEasy (inits : Bool) (rc : CURLMcode)
  | multiAdd (easy : Option Nat) (rc : CURLMcode)
  | multiRemove (easy : Option Nat) (rc : CURLMcode)
  | cleanup (easy : Nat) (rc : CURLMcode)
  | multiPerform (done : List CURLMsg)
  | multiInfoRead (rc : CURLMcode)
  | multiCleanup (rc : CURLMcode)

namespace TCurlMulti

/-- `easy.easyHandlePtr`, if there is such an object. -/
def handle (s : TCurlMulti) (easy : Nat) : Option Nat := s.objects[easy]?.bind (·.easyHandlePtr)

/-- `TCurlEasy.Create`. -/
def create (s : TCurlMulti) (inits : Bool) : TCurlMulti × Option Nat :=
  if inits then
    ({ s with objects := s.objects ++ [⟨some s.objects.length⟩] }, some s.objects.length)
  else (s, none)

/-- The guard that `multiAdd` and `multiRemove` share: the multi has a handle, and there is an
object with one. -/
def guarded (s : TCurlMulti) (easy : Option Nat)
    (act : Nat → Nat → TCurlMulti × CURLMcode) : TCurlMulti × CURLMcode :=
  if s.multiHandlePtr then
    match easy.bind fun e => (s.handle e).map fun data => (e, data) with
    | some (e, data) => act e data
    | none => (s, .ok)
  else (s, .ok)

def multiAdd (s : TCurlMulti) (easy : Option Nat) (rc : CURLMcode) : TCurlMulti × CURLMcode :=
  s.guarded easy fun e data =>
    let added := curlMultiAddHandle s.native data rc
    ({ s with easyHandles := s.easyHandles ++ [e], native := added.1 }, added.2)

def newEasy (s : TCurlMulti) (inits : Bool) (rc : CURLMcode) : TCurlMulti × Option Nat :=
  let (s, easy) := s.create inits
  ((s.multiAdd easy rc).1, easy)

/-- `TList.Remove` takes out the first occurrence. -/
def multiRemove (s : TCurlMulti) (easy : Option Nat) (rc : CURLMcode) : TCurlMulti × CURLMcode :=
  s.guarded easy fun e data =>
    let removed := curlMultiRemoveHandle s.native data rc
    ({ s with easyHandles := s.easyHandles.erase e, native := removed.1 }, removed.2)

/-- `TCurlEasy.cleanup`: `curl_easy_cleanup` detaches the handle first. -/
def cleanup (s : TCurlMulti) (easy : Nat) (rc : CURLMcode) : TCurlMulti :=
  match s.handle easy with
  | none => s
  | some data =>
    { s with native := (curlMultiRemoveHandle s.native data rc).1,
             objects := s.objects.set easy ⟨none⟩ }

/-- The transfers that `multiPerform` finds done. -/
def multiPerform (s : TCurlMulti) (done : List CURLMsg) : TCurlMulti :=
  if s.multiHandlePtr then { s with native := done.foldl multiAddmsg s.native } else s

/-- `multiInfoRead`. -/
def multiInfoRead (s : TCurlMulti) (rc : CURLMcode) : TCurlMulti × Option TCurlMultiMsg :=
  if s.multiHandlePtr then
    match curlMultiInfoRead s.native rc with
    | (native, none) => ({ s with native := native }, none)
    | (native, some info) =>
      ({ s with native := native },
        some ⟨s.easyHandles.find? fun e => decide (s.handle e = some info.easyHandle), info.result⟩)
  else (s, none)

/-- The loop of `multiCleanup` over the list. -/
def removeAll (s : TCurlMulti) (rc : CURLMcode) : CurlMultiHandle :=
  s.easyHandles.foldl (fun native e =>
    match s.handle e with
    | some data => (curlMultiRemoveHandle native data rc).1
    | none => native) s.native

def multiCleanup (s : TCurlMulti) (rc : CURLMcode) : TCurlMulti :=
  if s.multiHandlePtr then
    { s with multiHandlePtr := false, easyHandles := [],
             native := (curlMultiCleanup (s.removeAll rc) rc).1 }
  else s

def step (s : TCurlMulti) : Call → TCurlMulti
  | .create inits => (s.create inits).1
  | .newEasy inits rc => (s.newEasy inits rc).1
  | .multiAdd easy rc => (s.multiAdd easy rc).1
  | .multiRemove easy rc => (s.multiRemove easy rc).1
  | .cleanup easy rc => s.cleanup easy rc
  | .multiPerform done => s.multiPerform done
  | .multiInfoRead rc => (s.multiInfoRead rc).1
  | .multiCleanup rc => s.multiCleanup rc

def run (calls : List Call) : TCurlMulti := calls.foldl step {}

/-- The object's native handle is attached to the native multi. -/
def IsAttached (s : TCurlMulti) (e : Nat) : Prop :=
  ∃ data, s.handle e = some data ∧ data ∈ s.native.xfers

/-- The list has each object whose handle is attached once and no other, and the handles attached
are those of objects. -/
structure Mirror (s : TCurlMulti) : Prop where
  once : s.easyHandles.Nodup
  mem_iff : ∀ e, e ∈ s.easyHandles ↔ s.IsAttached e
  owned : ∀ data ∈ s.native.xfers, ∃ e, s.handle e = some data

/-- The next message is told with the object that owns its handle. -/
def Reported (s : TCurlMulti) : Prop :=
  ∀ rc info, (curlMultiInfoRead s.native rc).2 = some info → s.multiHandlePtr = true →
    ∃ e, s.handle e = some info.easyHandle ∧ (s.multiInfoRead rc).2 = some ⟨some e, info.result⟩

end TCurlMulti

open TCurlMulti

variable {s : TCurlMulti} {multi : CurlMultiHandle} {rc : CURLMcode}

/-! ### The native side -/

/-- Handles are attached once, and the messages are of different attached handles. -/
structure Consistent (multi : CurlMultiHandle) : Prop where
  xfers : multi.xfers.Nodup
  messages : (multi.msglist.map (·.easyHandle)).Nodup
  attached : ∀ msg ∈ multi.msglist, msg.easyHandle ∈ multi.xfers

theorem consistent_init : Consistent {} :=
  ⟨List.nodup_nil, List.nodup_nil, fun _ hmsg => absurd hmsg List.not_mem_nil⟩

theorem add_xfers (multi : CurlMultiHandle) (data : Nat) (rc : CURLMcode) :
    (curlMultiAddHandle multi data rc).1.xfers =
      if data ∉ multi.xfers ∧ rc = .ok then multi.xfers ++ [data] else multi.xfers := by
  rw [curlMultiAddHandle]
  by_cases hdata : data ∈ multi.xfers
  · rw [if_pos hdata, if_neg fun hand => hand.1 hdata]
  · rw [if_neg hdata]
    by_cases hrc : rc = .ok
    · rw [if_pos hrc, if_pos ⟨hdata, hrc⟩]
    · rw [if_neg hrc, if_neg fun hand => hrc hand.2]

theorem consistent_add (h : Consistent multi) (data : Nat) (rc : CURLMcode) :
    Consistent (curlMultiAddHandle multi data rc).1 := by
  rw [curlMultiAddHandle]
  by_cases hdata : data ∈ multi.xfers
  · rw [if_pos hdata]
    exact h
  · rw [if_neg hdata]
    split
    · refine ⟨?_, h.messages, fun msg hmsg => List.mem_append_left _ (h.attached msg hmsg)⟩
      exact List.nodup_append_comm.mp (List.nodup_cons.mpr ⟨hdata, h.xfers⟩)
    · exact h

theorem remove_xfers (multi : CurlMultiHandle) (data : Nat) (rc : CURLMcode) :
    (curlMultiRemoveHandle multi data rc).1.xfers =
      if rc = .ok then multi.xfers.erase data else multi.xfers := by
  rw [curlMultiRemoveHandle]
  by_cases hdata : data ∈ multi.xfers
  · rw [if_neg (not_not.mpr hdata)]
    split <;> rfl
  · rw [if_pos hdata, List.erase_of_not_mem hdata, ite_self]

theorem remove_failed (multi : CurlMultiHandle) (data : Nat) (hrc : rc ≠ .ok) :
    (curlMultiRemoveHandle multi data rc).1 = multi := by
  rw [curlMultiRemoveHandle, if_neg hrc]
  split <;> rfl

theorem consistent_remove (h : Consistent multi) (data : Nat) (rc : CURLMcode) :
    Consistent (curlMultiRemoveHandle multi data rc).1 := by
  rw [curlMultiRemoveHandle]
  split
  · exact h
  · split
    · refine ⟨h.xfers.erase data, ?_, fun msg hmsg => ?_⟩
      · exact h.messages.sublist (List.Sublist.map _ List.eraseP_sublist)
      · have hold : msg ∈ multi.msglist := List.mem_of_mem_eraseP hmsg
        refine (h.xfers.mem_erase_iff).mpr ⟨fun hsame => ?_, h.attached msg hold⟩
        -- its message was the one taken out
        obtain ⟨msg', before, behind, hbefore, hmsg', hsplit, herase⟩ :=
          List.exists_of_eraseP (p := fun m => decide (m.easyHandle = data)) hold
            (decide_eq_true hsame)
        have hnodup := h.messages
        rw [hsplit, List.map_append, List.map_cons, List.nodup_middle, List.nodup_cons] at hnodup
        rw [herase] at hmsg
        apply hnodup.1
        rw [← List.map_append, of_decide_eq_true hmsg', ← hsame]
        exact List.mem_map_of_mem hmsg
    · exact h

theorem addmsg_xfers (multi : CurlMultiHandle) (msg : CURLMsg) :
    (multiAddmsg multi msg).xfers = multi.xfers := by
  rw [multiAddmsg]
  split <;> rfl

theorem consistent_addmsg (h : Consistent multi) (msg : CURLMsg) :
    Consistent (multiAddmsg multi msg) := by
  rw [multiAddmsg]
  split
  · rename_i hnew
    refine ⟨h.xfers, ?_, fun msg' hmsg' => ?_⟩
    · rw [List.map_append]
      exact List.nodup_append_comm.mp (List.nodup_cons.mpr ⟨hnew.2, h.messages⟩)
    · rcases List.mem_append.mp hmsg' with hold | hlast
      · exact h.attached msg' hold
      · rw [List.mem_singleton.mp hlast]
        exact hnew.1
  · exact h

theorem infoRead_xfers (multi : CurlMultiHandle) (rc : CURLMcode) :
    (curlMultiInfoRead multi rc).1.xfers = multi.xfers := by
  rw [curlMultiInfoRead]
  split
  · rfl
  · split <;> rfl

theorem consistent_infoRead (h : Consistent multi) (rc : CURLMcode) :
    Consistent (curlMultiInfoRead multi rc).1 := by
  rw [curlMultiInfoRead]
  split
  · exact h
  · rename_i msg rest hlist
    have hmessages := h.messages
    have hattached := h.attached
    rw [hlist] at hmessages hattached
    split
    · exact ⟨h.xfers, (List.nodup_cons.mp hmessages).2,
        fun m hm => hattached m (List.mem_cons_of_mem _ hm)⟩
    · exact h

/-- What `curl_multi_info_read` gives is the first message. -/
theorem infoRead_mem {info : CURLMsg} (h : (curlMultiInfoRead multi rc).2 = some info) :
    info ∈ multi.msglist := by
  rw [curlMultiInfoRead] at h
  split at h
  · cases h
  · rename_i msg rest hlist
    split at h
    · rw [hlist, ← Option.some.inj h]
      exact List.mem_cons_self
    · cases h

/-! ### What every call keeps -/

/-- Handles have the names of their objects, and the native side is consistent. -/
structure Sound (s : TCurlMulti) : Prop where
  named : ∀ e data, s.handle e = some data → data = e
  native : Consistent s.native
  known : ∀ data ∈ s.native.xfers, data < s.objects.length

theorem lt_of_handle {e data : Nat} (h : s.handle e = some data) : e < s.objects.length := by
  obtain ⟨o, ho, -⟩ := Option.bind_eq_some_iff.mp h
  exact (List.getElem?_eq_some_iff.mp ho).1

/-- The object just made has its own handle. -/
theorem handle_new (s : TCurlMulti) (e : Nat) :
    (s.create true).1.handle e = if e = s.objects.length then some e else s.handle e := by
  show (s.objects ++ [⟨some s.objects.length⟩])[e]?.bind (·.easyHandlePtr) = _
  by_cases he : e = s.objects.length
  · rw [if_pos he, he, List.getElem?_concat_length]
    rfl
  · rw [if_neg he]
    by_cases hlt : e < s.objects.length
    · rw [List.getElem?_append_left hlt]
      rfl
    · have hold : s.handle e = none := by
        rw [handle, List.getElem?_eq_none (by omega)]
        rfl
      rw [hold, List.getElem?_eq_none (by rw [List.length_append, List.length_singleton]; omega)]
      rfl

theorem handle_set {e : Nat} (he : e < s.objects.length) (e' : Nat) :
    handle { s with objects := s.objects.set e ⟨none⟩ } e' =
      if e' = e then none else s.handle e' := by
  show (s.objects.set e ⟨none⟩)[e']?.bind (·.easyHandlePtr) = _
  by_cases hsame : e' = e
  · rw [if_pos hsame, hsame, List.getElem?_set_self he]
    rfl
  · rw [if_neg hsame, List.getElem?_set_ne (Ne.symm hsame)]
    rfl

theorem sound_new : Sound {} :=
  ⟨fun e _ h => absurd (lt_of_handle h) (Nat.not_lt_zero e), consistent_init,
    fun _ hdata => absurd hdata List.not_mem_nil⟩

theorem sound_create (h : Sound s) (inits : Bool) : Sound (s.create inits).1 := by
  cases inits with
  | false => exact h
  | true =>
    refine ⟨fun e data hdata => ?_, h.native, fun data hdata => ?_⟩
    · rw [handle_new] at hdata
      split at hdata
      · exact (Option.some.inj hdata).symm
      · exact h.named e data hdata
    · show data < (s.objects ++ [_]).length
      rw [List.length_append]
      exact Nat.lt_add_right _ (h.known data hdata)

/-- The guard of `multiAdd` and `multiRemove` lets the object and its handle through. -/
def Acts (s : TCurlMulti) (easy : Option Nat) (e data : Nat) : Prop :=
  s.multiHandlePtr = true ∧ easy = some e ∧ s.handle e = some data

theorem guarded_cases (s : TCurlMulti) (easy : Option Nat)
    (act : Nat → Nat → TCurlMulti × CURLMcode) :
    (s.guarded easy act = (s, .ok) ∧ ∀ e data, ¬ Acts s easy e data) ∨
      ∃ e data, Acts s easy e data ∧ s.guarded easy act = act e data := by
  rw [guarded]
  by_cases hptr : s.multiHandlePtr = true
  · rw [if_pos hptr]
    cases easy with
    | none => exact Or.inl ⟨rfl, fun e data hacts => by cases hacts.2.1⟩
    | some e =>
      rw [Option.bind_some]
      cases hdata : s.handle e with
      | none =>
        refine Or.inl ⟨rfl, fun e' data hacts => ?_⟩
        obtain ⟨-, hsame, hdata'⟩ := hacts
        rw [← Option.some.inj hsame, hdata] at hdata'
        cases hdata'
      | some data => exact Or.inr ⟨e, data, ⟨hptr, rfl, hdata⟩, rfl⟩
  · rw [if_neg hptr]
    exact Or.inl ⟨rfl, fun e data hacts => hptr hacts.1⟩

theorem multiAdd_cases (s : TCurlMulti) (easy : Option Nat) (rc : CURLMcode) :
    ((s.multiAdd easy rc).1 = s ∧ ∀ e data, ¬ Acts s easy e data) ∨
      ∃ e data, Acts s easy e data ∧ (s.multiAdd easy rc).1 =
        { s with easyHandles := s.easyHandles ++ [e],
                 native := (curlMultiAddHandle s.native data rc).1 } := by
  rw [multiAdd]
  rcases guarded_cases s easy _ with ⟨heq, hidle⟩ | ⟨e, data, hacts, heq⟩
  · exact Or.inl ⟨by rw [heq], hidle⟩
  · exact Or.inr ⟨e, data, hacts, by rw [heq]⟩

theorem multiRemove_cases (s : TCurlMulti) (easy : Option Nat) (rc : CURLMcode) :
    ((s.multiRemove easy rc).1 = s ∧ ∀ e data, ¬ Acts s easy e data) ∨
      ∃ e data, Acts s easy e data ∧ (s.multiRemove easy rc).1 =
        { s with easyHandles := s.easyHandles.erase e,
                 native := (curlMultiRemoveHandle s.native data rc).1 } := by
  rw [multiRemove]
  rcases guarded_cases s easy _ with ⟨heq, hidle⟩ | ⟨e, data, hacts, heq⟩
  · exact Or.inl ⟨by rw [heq], hidle⟩
  · exact Or.inr ⟨e, data, hacts, by rw [heq]⟩

theorem sound_multiAdd (h : Sound s) (easy : Option Nat) (rc : CURLMcode) :
    Sound (s.multiAdd easy rc).1 := by
  rcases multiAdd_cases s easy rc with ⟨heq, -⟩ | ⟨e, data, ⟨-, -, hdata⟩, heq⟩
  · rwa [heq]
  · rw [heq]
    refine ⟨h.named, consistent_add h.native data rc, fun d hd => ?_⟩
    change d ∈ (curlMultiAddHandle s.native data rc).1.xfers at hd
    rw [add_xfers] at hd
    split at hd
    · rcases List.mem_append.mp hd with hold | hlast
      · exact h.known d hold
      · rw [List.mem_singleton.mp hlast, h.named e data hdata]
        exact lt_of_handle hdata
    · exact h.known d hd

/-- The native side of a removal. -/
theorem known_remove (h : Sound s) (data : Nat) (rc : CURLMcode) :
    ∀ d ∈ (curlMultiRemoveHandle s.native data rc).1.xfers, d < s.objects.length := by
  intro d hd
  rw [remove_xfers] at hd
  split at hd
  · exact h.known d (List.mem_of_mem_erase hd)
  · exact h.known d hd

theorem sound_multiRemove (h : Sound s) (easy : Option Nat) (rc : CURLMcode) :
    Sound (s.multiRemove easy rc).1 := by
  rcases multiRemove_cases s easy rc with ⟨heq, -⟩ | ⟨e, data, -, heq⟩
  · rwa [heq]
  · rw [heq]
    exact ⟨h.named, consistent_remove h.native data rc, known_remove h data rc⟩

theorem sound_cleanup (h : Sound s) (easy : Nat) (rc : CURLMcode) : Sound (s.cleanup easy rc) := by
  rw [cleanup]
  cases hdata : s.handle easy with
  | none => exact h
  | some data =>
    refine ⟨fun e d hd => ?_, consistent_remove h.native data rc, fun d hd => ?_⟩
    · have hset := handle_set (lt_of_handle hdata) e
      change handle { s with objects := s.objects.set easy ⟨none⟩ } e = some d at hd
      rw [hset] at hd
      split at hd
      · cases hd
      · exact h.named e d hd
    · show d < (s.objects.set easy ⟨none⟩).length
      rw [List.length_set]
      exact known_remove h data rc d hd

theorem perform_spec (h : Consistent multi) (done : List CURLMsg) :
    Consistent (done.foldl multiAddmsg multi) ∧
      (done.foldl multiAddmsg multi).xfers = multi.xfers := by
  induction done generalizing multi with
  | nil => exact ⟨h, rfl⟩
  | cons msg done ih =>
    obtain ⟨hconsistent, hxfers⟩ := ih (consistent_addmsg h msg)
    exact ⟨hconsistent, hxfers.trans (addmsg_xfers multi msg)⟩

/-- `multiInfoRead` takes a message and leaves everything else. -/
theorem multiInfoRead_fst (s : TCurlMulti) (rc : CURLMcode) :
    (s.multiInfoRead rc).1 =
      if s.multiHandlePtr then { s with native := (curlMultiInfoRead s.native rc).1 } else s := by
  rw [multiInfoRead]
  split
  · rcases curlMultiInfoRead s.native rc with ⟨native, _ | info⟩ <;> rfl
  · rfl

/-- A removal that fails for every handle leaves the native side. -/
theorem removeAll_failed (s : TCurlMulti) (hrc : rc ≠ .ok) : s.removeAll rc = s.native := by
  rw [removeAll]
  induction s.easyHandles with
  | nil => rfl
  | cons e easyHandles ih =>
    rw [List.foldl_cons]
    cases s.handle e with
    | none => exact ih
    | some data =>
      dsimp only
      rw [remove_failed s.native data hrc]
      exact ih

/-- The native handle is left empty, or as it was. -/
theorem cleanup_native (s : TCurlMulti) (rc : CURLMcode) :
    (curlMultiCleanup (s.removeAll rc) rc).1 = if rc = .ok then {} else s.native := by
  rw [curlMultiCleanup]
  split
  · rfl
  · exact removeAll_failed s ‹_›

theorem sound_step (s : TCurlMulti) (c : Call) (h : Sound s) : Sound (step s c) := by
  cases c with
  | create inits => exact sound_create h inits
  | newEasy inits rc => exact sound_multiAdd (sound_create h inits) _ rc
  | multiAdd easy rc => exact sound_multiAdd h easy rc
  | multiRemove easy rc => exact sound_multiRemove h easy rc
  | cleanup easy rc => exact sound_cleanup h easy rc
  | multiPerform done =>
    show Sound (s.multiPerform done)
    rw [multiPerform]
    split
    · obtain ⟨hconsistent, hxfers⟩ := perform_spec h.native done
      refine ⟨h.named, hconsistent, fun d hd => h.known d ?_⟩
      rw [← hxfers]
      exact hd
    · exact h
  | multiInfoRead rc =>
    show Sound (s.multiInfoRead rc).1
    rw [multiInfoRead_fst]
    split
    · refine ⟨h.named, consistent_infoRead h.native rc, fun d hd => h.known d ?_⟩
      rw [← infoRead_xfers s.native rc]
      exact hd
    · exact h
  | multiCleanup rc =>
    show Sound (s.multiCleanup rc)
    rw [multiCleanup]
    split
    · rw [cleanup_native]
      split
      · exact ⟨h.named, consistent_init, fun _ hd => absurd hd List.not_mem_nil⟩
      · exact ⟨h.named, h.native, h.known⟩
    · exact h

/-! ### What keeps the mirror -/

/-- The list, the objects and the handles attached are all that counts. -/
theorem mirror_congr (h : Mirror s) {s' : TCurlMulti} (hlist : s'.easyHandles = s.easyHandles)
    (hobjects : s'.objects = s.objects) (hxfers : s'.native.xfers = s.native.xfers) :
    Mirror s' := by
  obtain ⟨honce, hmem, howned⟩ := h
  have hhandle : ∀ e, s'.handle e = s.handle e := by
    intro e
    rw [handle, hobjects]
    rfl
  refine ⟨?_, fun e => ?_, fun data hdata => ?_⟩
  · rw [hlist]
    exact honce
  · rw [hlist, hmem e, IsAttached, IsAttached, hhandle, hxfers]
  · rw [hxfers] at hdata
    obtain ⟨e, he⟩ := howned data hdata
    exact ⟨e, by rw [hhandle, he]⟩

theorem mirror_new : Mirror {} := by
  refine ⟨List.nodup_nil, fun e => ⟨fun he => absurd he List.not_mem_nil, ?_⟩, fun data hdata => ?_⟩
  · rintro ⟨data, -, hdata⟩
    exact absurd hdata List.not_mem_nil
  · exact absurd hdata List.not_mem_nil

/-- A new object is not attached yet. -/
theorem not_attached_new (hs : Sound s) : ¬ (s.create true).1.IsAttached s.objects.length := by
  rintro ⟨data, hdata, hmem⟩
  have hlt : data < s.objects.length := hs.known data hmem
  have hnamed := (sound_create hs true).named _ _ hdata
  omega

theorem mirror_create (hs : Sound s) (hm : Mirror s) (inits : Bool) :
    Mirror (s.create inits).1 := by
  cases inits with
  | false => exact hm
  | true =>
    have hsame : ∀ e, (s.create true).1.IsAttached e ↔ s.IsAttached e := by
      intro e
      by_cases he : e = s.objects.length
      · have hnot : ¬ s.IsAttached e := by
          rintro ⟨data, hdata, -⟩
          have hlt := lt_of_handle hdata
          omega
        rw [he] at hnot ⊢
        exact iff_of_false (not_attached_new hs) hnot
      · rw [IsAttached, handle_new, if_neg he]
        rfl
    refine ⟨hm.once, fun e => (hm.mem_iff e).trans (hsame e).symm, fun data hdata => ?_⟩
    obtain ⟨e, he⟩ := hm.owned data hdata
    refine ⟨e, ?_⟩
    rw [handle_new, if_neg (Nat.ne_of_lt (lt_of_handle he)), he]

/-- **Adding** keeps the mirror iff the handle is not attached yet and gets attached. -/
theorem mirror_add (hs : Sound s) (hm : Mirror s) {e data : Nat} (hdata : s.handle e = some data)
    (rc : CURLMcode) :
    Mirror { s with easyHandles := s.easyHandles ++ [e],
                    native := (curlMultiAddHandle s.native data rc).1 } ↔
      ¬ s.IsAttached e ∧ rc = .ok := by
  have hxfers := add_xfers s.native data rc
  constructor
  · intro h
    have hnew : e ∉ s.easyHandles := by
      intro he
      have honce : (s.easyHandles ++ [e]).Nodup := h.once
      exact (List.nodup_append.mp honce).2.2 e he e (List.mem_singleton.mpr rfl) rfl
    have hnot : ¬ s.IsAttached e := fun hattached => hnew ((hm.mem_iff e).mpr hattached)
    refine ⟨hnot, ?_⟩
    by_contra hrc
    obtain ⟨d, hd, hmem⟩ :=
      (h.mem_iff e).mp (List.mem_append_right _ (List.mem_singleton.mpr rfl))
    change d ∈ (curlMultiAddHandle s.native data rc).1.xfers at hmem
    rw [hxfers, if_neg fun hand => hrc hand.2] at hmem
    exact hnot ⟨d, hd, hmem⟩
  · rintro ⟨hnot, hrc⟩
    have hfresh : data ∉ s.native.xfers := fun hmem => hnot ⟨data, hdata, hmem⟩
    rw [if_pos ⟨hfresh, hrc⟩] at hxfers
    have he : data = e := hs.named e data hdata
    have hlist : e ∉ s.easyHandles := fun hmem => hnot ((hm.mem_iff e).mp hmem)
    refine ⟨?_, fun x => ?_, fun d hd => ?_⟩
    · exact List.nodup_append_comm.mp (List.nodup_cons.mpr ⟨hlist, hm.once⟩)
    · show x ∈ s.easyHandles ++ [e] ↔
        ∃ d, s.handle x = some d ∧ d ∈ (curlMultiAddHandle s.native data rc).1.xfers
      rw [hxfers, List.mem_append, List.mem_singleton, hm.mem_iff x]
      constructor
      · rintro (⟨d, hd, hmem⟩ | rfl)
        · exact ⟨d, hd, List.mem_append_left _ hmem⟩
        · exact ⟨data, hdata, List.mem_append_right _ (List.mem_singleton.mpr rfl)⟩
      · rintro ⟨d, hd, hmem⟩
        rcases List.mem_append.mp hmem with hold | hlast
        · exact Or.inl ⟨d, hd, hold⟩
        · apply Or.inr
          rw [← hs.named x d hd, List.mem_singleton.mp hlast, he]
    · change d ∈ (curlMultiAddHandle s.native data rc).1.xfers at hd
      rw [hxfers] at hd
      rcases List.mem_append.mp hd with hold | hlast
      · exact hm.owned d hold
      · exact ⟨e, by rw [List.mem_singleton.mp hlast]; exact hdata⟩

/-- **Removing** keeps it unless the native call fails for an attached handle. -/
theorem mirror_remove (hs : Sound s) (hm : Mirror s) {e data : Nat} (hdata : s.handle e = some data)
    (rc : CURLMcode) :
    Mirror { s with easyHandles := s.easyHandles.erase e,
                    native := (curlMultiRemoveHandle s.native data rc).1 } ↔
      (s.IsAttached e → rc = .ok) := by
  have hxfers := remove_xfers s.native data rc
  constructor
  · intro h hattached
    by_contra hrc
    rw [if_neg hrc] at hxfers
    have hgone : e ∉ s.easyHandles.erase e := hm.once.not_mem_erase
    obtain ⟨d, hd, hmem⟩ := hattached
    refine hgone ((h.mem_iff e).mpr ⟨d, hd, ?_⟩)
    show d ∈ (curlMultiRemoveHandle s.native data rc).1.xfers
    rw [hxfers]
    exact hmem
  · intro hok
    have hed : data = e := hs.named e data hdata
    -- a handle that is not attached has nothing to erase
    have hxfers' : (curlMultiRemoveHandle s.native data rc).1.xfers = s.native.xfers.erase data := by
      by_cases hmem : data ∈ s.native.xfers
      · rw [hxfers, if_pos (hok ⟨data, hdata, hmem⟩)]
      · rw [hxfers, List.erase_of_not_mem hmem, ite_self]
    refine ⟨hm.once.erase e, fun x => ?_, fun d hd => ?_⟩
    · show x ∈ s.easyHandles.erase e ↔
        ∃ d, s.handle x = some d ∧ d ∈ (curlMultiRemoveHandle s.native data rc).1.xfers
      rw [hxfers', hm.once.mem_erase_iff, hm.mem_iff x]
      constructor
      · rintro ⟨hne, d, hd, hmem⟩
        refine ⟨d, hd, (hs.native.xfers.mem_erase_iff).mpr ⟨?_, hmem⟩⟩
        rw [hs.named x d hd, hed]
        exact hne
      · rintro ⟨d, hd, hmem⟩
        obtain ⟨hne, hmem⟩ := (hs.native.xfers.mem_erase_iff).mp hmem
        rw [hs.named x d hd, hed] at hne
        exact ⟨hne, d, hd, hmem⟩
    · change d ∈ (curlMultiRemoveHandle s.native data rc).1.xfers at hd
      rw [hxfers'] at hd
      exact hm.owned d (List.mem_of_mem_erase hd)

/-- **Cleaning up** keeps it iff the handle is not attached. -/
theorem mirror_cleanup (hm : Mirror s) (easy : Nat) (rc : CURLMcode) :
    Mirror (s.cleanup easy rc) ↔ ¬ s.IsAttached easy := by
  rw [cleanup]
  cases hdata : s.handle easy with
  | none =>
    apply iff_of_true hm
    rintro ⟨data, hdata', -⟩
    rw [hdata] at hdata'
    cases hdata'
  | some data =>
    have hset := handle_set (lt_of_handle hdata)
    have hhandle : ∀ e, handle { s with
        native := (curlMultiRemoveHandle s.native data rc).1,
        objects := s.objects.set easy ⟨none⟩ } e = if e = easy then none else s.handle e := hset
    constructor
    · intro h hattached
      obtain ⟨d, hd, -⟩ := (h.mem_iff easy).mp ((hm.mem_iff easy).mpr hattached)
      rw [hhandle, if_pos rfl] at hd
      cases hd
    · intro hnot
      have hfresh : data ∉ s.native.xfers := fun hmem => hnot ⟨data, hdata, hmem⟩
      have hnative : (curlMultiRemoveHandle s.native data rc).1 = s.native := by
        rw [curlMultiRemoveHandle, if_pos hfresh]
      refine ⟨hm.once, fun e => ?_, fun d hd => ?_⟩
      · rw [IsAttached, hhandle]
        dsimp only
        rw [hnative, hm.mem_iff e]
        by_cases he : e = easy
        · rw [if_pos he, he]
          apply iff_of_false hnot
          rintro ⟨d, hd, -⟩
          cases hd
        · rw [if_neg he]
          rfl
      · dsimp only at hd
        rw [hnative] at hd
        obtain ⟨e, he⟩ := hm.owned d hd
        refine ⟨e, ?_⟩
        rw [hhandle, if_neg, he]
        rintro rfl
        exact hnot ⟨d, he, hd⟩

/-- **Closing** keeps it unless the native call fails while handles are attached. -/
theorem mirror_multiCleanup (hm : Mirror s) (rc : CURLMcode) :
    Mirror (s.multiCleanup rc) ↔
      (s.multiHandlePtr = true → s.native.xfers ≠ [] → rc = .ok) := by
  rw [multiCleanup]
  by_cases hptr : s.multiHandlePtr = true
  · rw [if_pos hptr, cleanup_native]
    by_cases hrc : rc = .ok
    · rw [if_pos hrc]
      refine iff_of_true ⟨List.nodup_nil, fun e => ?_, ?_⟩ fun _ _ => hrc
      · apply iff_of_false List.not_mem_nil
        rintro ⟨d, -, hmem⟩
        exact List.not_mem_nil hmem
      · exact fun d hd => absurd hd List.not_mem_nil
    · rw [if_neg hrc]
      constructor
      · intro h _ hne
        obtain ⟨d, hd⟩ := List.exists_mem_of_ne_nil _ hne
        obtain ⟨e, he⟩ := hm.owned d hd
        exact absurd ((h.mem_iff e).mpr ⟨d, he, hd⟩) List.not_mem_nil
      · intro hempty
        have hnone : s.native.xfers = [] := by
          by_contra hne
          exact hrc (hempty hptr hne)
        have hlist : s.easyHandles = [] := by
          apply List.eq_nil_iff_forall_not_mem.mpr
          intro e he
          obtain ⟨d, -, hmem⟩ := (hm.mem_iff e).mp he
          rw [hnone] at hmem
          exact List.not_mem_nil hmem
        exact mirror_congr hm hlist.symm rfl rfl
  · rw [if_neg hptr]
    exact iff_of_true hm fun h => absurd h hptr

/-- What a call must meet for the list to stay right: a handle that is added is not attached yet and
gets attached, one that is removed and attached is detached, none is cleaned up while it is
attached, and the native multi is closed if it has handles. -/
def Kept (s : TCurlMulti) : Call → Prop
  | .newEasy inits rc => s.multiHandlePtr = true → inits = true → rc = .ok
  | .multiAdd easy rc => ∀ e data, Acts s easy e data → ¬ s.IsAttached e ∧ rc = .ok
  | .multiRemove easy rc => ∀ e data, Acts s easy e data → s.IsAttached e → rc = .ok
  | .cleanup easy _ => ¬ s.IsAttached easy
  | .multiCleanup rc => s.multiHandlePtr = true → s.native.xfers ≠ [] → rc = .ok
  | _ => True

/-- There is one handle a guarded call acts on. -/
theorem forall_acts_iff {easy : Option Nat} {e data : Nat} (hacts : Acts s easy e data)
    {p : Nat → Prop} : (∀ e' data', Acts s easy e' data' → p e') ↔ p e := by
  constructor
  · exact fun hall => hall e data hacts
  · rintro hp e' data' ⟨-, hsame, -⟩
    rw [← Option.some.inj (hacts.2.1.symm.trans hsame)]
    exact hp

theorem mirror_multiAdd (hs : Sound s) (hm : Mirror s) (easy : Option Nat) (rc : CURLMcode) :
    Mirror (s.multiAdd easy rc).1 ↔ ∀ e data, Acts s easy e data → ¬ s.IsAttached e ∧ rc = .ok := by
  rcases multiAdd_cases s easy rc with ⟨heq, hidle⟩ | ⟨e, data, hacts, heq⟩
  · rw [heq]
    exact iff_of_true hm fun e data hacts => absurd hacts (hidle e data)
  · rw [heq, mirror_add hs hm hacts.2.2 rc]
    exact (forall_acts_iff hacts (p := fun e => ¬ s.IsAttached e ∧ rc = .ok)).symm

/-- **One call** keeps the mirror iff it meets the condition. -/
theorem mirror_step (s : TCurlMulti) (c : Call) (hs : Sound s) (hm : Mirror s) :
    Mirror (step s c) ↔ Kept s c := by
  cases c with
  | create inits => exact iff_of_true (mirror_create hs hm inits) trivial
  | newEasy inits rc =>
    show Mirror ((s.create inits).1.multiAdd (s.create inits).2 rc).1 ↔
      (s.multiHandlePtr = true → inits = true → rc = .ok)
    rw [mirror_multiAdd (sound_create hs inits) (mirror_create hs hm inits)]
    cases inits with
    | false =>
      refine iff_of_true (fun e data hacts => ?_) fun _ hfalse => by cases hfalse
      cases hacts.2.1
    | true =>
      constructor
      · intro hall hptr _
        refine (hall s.objects.length s.objects.length ⟨hptr, rfl, ?_⟩).2
        rw [handle_new, if_pos rfl]
      · rintro hok e data ⟨hptr, hsame, -⟩
        rw [← Option.some.inj hsame]
        exact ⟨not_attached_new hs, hok hptr rfl⟩
  | multiAdd easy rc => exact mirror_multiAdd hs hm easy rc
  | multiRemove easy rc =>
    show Mirror (s.multiRemove easy rc).1 ↔ _
    rcases multiRemove_cases s easy rc with ⟨heq, hidle⟩ | ⟨e, data, hacts, heq⟩
    · rw [heq]
      exact iff_of_true hm fun e data hacts => absurd hacts (hidle e data)
    · rw [heq, mirror_remove hs hm hacts.2.2 rc]
      exact (forall_acts_iff hacts (p := fun e => s.IsAttached e → rc = .ok)).symm
  | cleanup easy rc => exact mirror_cleanup hm easy rc
  | multiPerform done =>
    refine iff_of_true ?_ trivial
    show Mirror (s.multiPerform done)
    rw [multiPerform]
    split
    · exact mirror_congr hm rfl rfl (perform_spec hs.native done).2
    · exact hm
  | multiInfoRead rc =>
    refine iff_of_true ?_ trivial
    show Mirror (s.multiInfoRead rc).1
    rw [multiInfoRead_fst]
    split
    · exact mirror_congr hm rfl rfl (infoRead_xfers s.native rc)
    · exact hm
  | multiCleanup rc => exact mirror_multiCleanup hm rc

/-- The owner of an attached handle is found in the list. -/
theorem reported_of_mirror (hs : Sound s) (hm : Mirror s) : Reported s := by
  intro rc info hread hptr
  have hattached := hs.native.attached info (infoRead_mem hread)
  obtain ⟨e, he⟩ := hm.owned info.easyHandle hattached
  have hfound : (s.easyHandles.find? fun e => decide (s.handle e = some info.easyHandle)) = some e := by
    have hlisted : e ∈ s.easyHandles := (hm.mem_iff e).mpr ⟨_, he, hattached⟩
    cases hfind : s.easyHandles.find? fun e => decide (s.handle e = some info.easyHandle) with
    | none => exact absurd (decide_eq_true he) (List.find?_eq_none.mp hfind e hlisted)
    | some e' =>
      have he' : s.handle e' = some info.easyHandle := by
        have hfound := List.find?_some hfind
        exact of_decide_eq_true hfound
      rw [← hs.named e' _ he', ← hs.named e _ he]
  refine ⟨e, he, ?_⟩
  rw [multiInfoRead, if_pos hptr]
  rcases hnative : curlMultiInfoRead s.native rc with ⟨native, _ | info'⟩
  · rw [hnative] at hread
    cases hread
  · rw [hnative] at hread
    obtain rfl : info' = info := Option.some.inj hread
    dsimp only
    rw [hfound]

/-- In every state of the run the list mirrors the native multi and every message is told with its
owner. -/
structure Mirrored (calls : List Call) : Prop where
  mirror : ∀ before behind, calls = before ++ behind → Mirror (run before)
  reported : ∀ before behind, calls = before ++ behind → Reported (run before)

/-- **The list mirrors the native multi all the time exactly when every call meets the
condition.** -/
theorem mirrored_iff (calls : List Call) :
    Mirrored calls ↔
      ∀ before c behind, calls = before ++ c :: behind → Kept (run before) c := by
  have halways : StepConditions.Always step Mirror {} calls ↔
      StepConditions.Each step Kept {} calls :=
    StepConditions.always_iff sound_step mirror_step sound_new mirror_new calls
  constructor
  · exact fun h => halways.mp h.mirror
  · intro h
    have hmirror := halways.mpr h
    refine ⟨hmirror, fun before behind hsplit => ?_⟩
    have hsound : Sound (run before) :=
      List.foldlRecOn before step sound_new fun s hs c _ => sound_step s c hs
    exact reported_of_mirror hsound (hmirror before behind hsplit)

/-- A handle that is added twice is listed twice. -/
theorem not_every_run_mirrored : ¬ ∀ calls : List Call, Mirrored calls := by
  intro hall
  have honce := ((hall [.newEasy true .ok, .multiAdd (some 0) .ok]).mirror _ []
    (List.append_nil _).symm).once
  have hlist : (run [.newEasy true .ok, .multiAdd (some 0) .ok]).easyHandles = [0, 0] := by decide
  rw [hlist] at honce
  exact absurd honce (by decide)

end NetMod.CurlMulti
