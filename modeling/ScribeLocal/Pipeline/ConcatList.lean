import ScribeLocal.Core.Types
import ScribeLocal.Transition

/-!
# The concat list of `transcode_to_wav`

A call writes the list of its inputs next to its output, has `ffmpeg` read it, and
removes it. The list is named after the output's folder alone, which the WAV of the
whole recording and the WAV of each of its segments share.
-/
namespace ScribeLocal.Pipeline
open Transition

/-! ## Paths -/

/-- A path as its components. -/
abbrev Path := List String

def Path.parent (p : Path) : Option Path := if p = [] then none else some p.dropLast

/-- `to_string_lossy` of an absolute path. -/
def Path.text (p : Path) : String := String.join (p.map fun part => "/" ++ part)

def storageKey (r : Uuid) : String := toString r

def recordingDir (blobs : Path) (r : Uuid) : Path := blobs ++ [storageKey r]

def wavPath (blobs : Path) (r : Uuid) : Path := recordingDir blobs r ++ ["audio.wav"]

/-- `{:06}`: at least six characters, filled with zeros after the sign. -/
def zeroPadded (n : ℤ) : String :=
  let sign := if n < 0 then "-" else ""
  let digits := toString n.natAbs
  sign ++ String.ofList (List.replicate (6 - sign.length - digits.length) '0') ++ digits

theorem toList_zeroPadded (n : ℤ) : ∃ k, (zeroPadded n).toList =
    (if n < 0 then ['-'] else []) ++ (List.replicate k '0' ++ Nat.toDigits 10 n.natAbs) := by
  refine ⟨6 - (if n < 0 then "-" else "").length - (toString n.natAbs).length, ?_⟩
  unfold zeroPadded
  simp only [String.toList_append, String.toList_ofList, Nat.toString_eq_repr, Nat.toList_repr,
    List.append_assoc]
  split <;> rfl

theorem isDigit_of_mem_digits {k m : ℕ} {c : Char}
    (h : c ∈ List.replicate k '0' ++ Nat.toDigits 10 m) : c.isDigit = true := by
  rcases List.mem_append.mp h with hzero | hdigit
  · rw [(List.mem_replicate.mp hzero).2]
    rfl
  · exact Nat.isDigit_of_mem_toDigits (by decide) (by decide) hdigit

theorem mem_zeroPadded {n : ℤ} {c : Char} (h : c ∈ (zeroPadded n).toList) :
    c = '-' ∨ c.isDigit = true := by
  obtain ⟨k, htext⟩ := toList_zeroPadded n
  rw [htext, List.mem_append] at h
  rcases h with hsign | hdigits
  · split at hsign
    · exact .inl (List.mem_singleton.mp hsign)
    · cases hsign
  · exact .inr (isDigit_of_mem_digits hdigits)

/-- The number is read off its text. -/
theorem zeroPadded_injective {n m : ℤ} (h : (zeroPadded n).toList = (zeroPadded m).toList) :
    n = m := by
  obtain ⟨k, hn⟩ := toList_zeroPadded n
  obtain ⟨l, hm⟩ := toList_zeroPadded m
  rw [hn, hm] at h
  have habs (hdigits : List.replicate k '0' ++ Nat.toDigits 10 n.natAbs =
      List.replicate l '0' ++ Nat.toDigits 10 m.natAbs) : n.natAbs = m.natAbs := by
    have hvalue := congrArg (fun cs => Nat.ofDigitChars 10 cs 0) hdigits
    simpa [Nat.ofDigitChars_append, Nat.ofDigitChars_replicate_zero] using hvalue
  have hsign {a b : ℕ} {cs : List Char} : '-' :: cs ≠ List.replicate a '0' ++ Nat.toDigits 10 b := by
    intro heq
    have hdash := @isDigit_of_mem_digits a b '-' (by rw [← heq]; exact List.mem_cons_self)
    cases hdash
  by_cases hneg : n < 0 <;> by_cases hneg' : m < 0
  · rw [if_pos hneg, if_pos hneg'] at h
    have hnat := habs (List.cons.inj h).2
    omega
  · rw [if_pos hneg, if_neg hneg'] at h
    exact absurd h hsign
  · rw [if_neg hneg, if_pos hneg'] at h
    exact absurd h.symm hsign
  · rw [if_neg hneg, if_neg hneg'] at h
    have hnat := habs h
    omega

/-- The WAV of one segment, next to the recording's. -/
def segWavPath (blobs : Path) (r : Uuid) (seq : ℤ) : Path :=
  recordingDir blobs r ++ ["seg-" ++ zeroPadded seq ++ ".wav"]

/-- Where a call with this output writes its list. -/
def listPath (out : Path) : Path := out.parent.getD ["."] ++ ["concat.txt"]

/-- Every call for one recording writes its list to one path. -/
theorem listPath_recording (blobs : Path) (r : Uuid) (seq : ℤ) :
    listPath (segWavPath blobs r seq) = listPath (wavPath blobs r) := by
  simp [listPath, segWavPath, wavPath, Path.parent]

/-- A single quote closes the quoted text, stands escaped, and opens it again. -/
def escapeQuote (c : Char) : String := if c.toNat = 39 then "'\\''" else c.toString

def listLine (p : Path) : String :=
  "file '" ++ String.join (p.text.toList.map escapeQuote) ++ "'\n"

/-- The list of a call's inputs. -/
def concatList (inputs : List Path) : String := String.join (inputs.map listLine)

/-! ## Calls -/

structure Call where
  inputs : List Path
  out : Path

/-- How far a call has come. `waited` says that the call still waits for its `ffmpeg`,
which runs on when the call is dropped. -/
inductive Phase where
  | idle
  | called (c : Call)
  | listed (c : Call)
  | spawned (c : Call) (waited : Bool)
  | fed (c : Call) (waited : Bool) (text : Option String)
  | exited (c : Call) (ok : Bool)
  | over (result : Option Bool)

/-- The lists on disk, and for each WAV the list it was decoded from. -/
structure Disk where
  lists : Path → Option String
  wavs : Path → Option String
  calls : ℕ → Phase

def Disk.start : Disk := ⟨fun _ => none, fun _ => none, fun _ => .idle⟩

def Disk.setCall (s : Disk) (i : ℕ) (p : Phase) : Disk :=
  { s with calls := Function.update s.calls i p }

def Disk.setList (s : Disk) (p : Path) (text : Option String) : Disk :=
  { s with lists := Function.update s.lists p text }

/-- `ffmpeg` writes a WAV only if it had a list and could decode what it names. -/
def Disk.setWav (s : Disk) (out : Path) (text : Option String) : Disk :=
  { s with wavs := if text.isSome then Function.update s.wavs out text else s.wavs }

inductive CallLabel where
  | call (i : ℕ) (c : Call)
  | write (i : ℕ)
  | spawn (i : ℕ)
  | read (i : ℕ)
  | encode (i : ℕ) (ok : Bool)
  | remove (i : ℕ)
  | cut (i : ℕ)

/-- What a call leaves when it is dropped. -/
def Phase.dropped : Phase → Phase
  | .spawned c _ => .spawned c false
  | .fed c _ text => .fed c false text
  | .idle => .idle
  | _ => .over none

def callStep (s : Disk) : CallLabel → Option Disk
  | .call i c =>
    match s.calls i with
    | .idle => some (s.setCall i (.called c))
    | _ => none
  | .write i =>
    match s.calls i with
    | .called c =>
      some ((s.setList (listPath c.out) (some (concatList c.inputs))).setCall i (.listed c))
    | _ => none
  | .spawn i =>
    match s.calls i with
    | .listed c => some (s.setCall i (.spawned c true))
    | _ => none
  | .read i =>
    match s.calls i with
    | .spawned c waited => some (s.setCall i (.fed c waited (s.lists (listPath c.out))))
    | _ => none
  | .encode i ok =>
    match s.calls i with
    | .fed c waited text =>
      some ((s.setWav c.out (if ok then text else none)).setCall i
        (if waited then .exited c (ok && text.isSome) else .over none))
    | _ => none
  | .remove i =>
    match s.calls i with
    | .exited c ok =>
      some ((s.setList (listPath c.out) none).setCall i
        (.over (some (ok && (s.wavs c.out).isSome))))
    | _ => none
  | .cut i => some (s.setCall i (s.calls i).dropped)

variable {s s' : Disk} {a : CallLabel} {i : ℕ} {c : Call}

/-- Everything a step of a call can be. -/
inductive CallMoved (s : Disk) : CallLabel → Disk → Prop
  | call {i : ℕ} {c : Call} (hcall : s.calls i = .idle) :
      CallMoved s (.call i c) (s.setCall i (.called c))
  | write {i : ℕ} {c : Call} (hcall : s.calls i = .called c) :
      CallMoved s (.write i)
        ((s.setList (listPath c.out) (some (concatList c.inputs))).setCall i (.listed c))
  | spawn {i : ℕ} {c : Call} (hcall : s.calls i = .listed c) :
      CallMoved s (.spawn i) (s.setCall i (.spawned c true))
  | read {i : ℕ} {c : Call} {waited : Bool} (hcall : s.calls i = .spawned c waited) :
      CallMoved s (.read i) (s.setCall i (.fed c waited (s.lists (listPath c.out))))
  | encode {i : ℕ} {c : Call} {waited : Bool} {text : Option String} (ok : Bool)
      (hcall : s.calls i = .fed c waited text) :
      CallMoved s (.encode i ok)
        ((s.setWav c.out (if ok then text else none)).setCall i
          (if waited then .exited c (ok && text.isSome) else .over none))
  | remove {i : ℕ} {c : Call} {ok : Bool} (hcall : s.calls i = .exited c ok) :
      CallMoved s (.remove i)
        ((s.setList (listPath c.out) none).setCall i
          (.over (some (ok && (s.wavs c.out).isSome))))
  | cut {i : ℕ} : CallMoved s (.cut i) (s.setCall i (s.calls i).dropped)

theorem callStep_moved (h : callStep s a = some s') : CallMoved s a s' := by
  cases a with
  | call i c =>
    simp only [callStep] at h
    split at h
    · rename_i hcall
      cases h
      exact .call hcall
    · cases h
  | write i =>
    simp only [callStep] at h
    split at h
    · rename_i hcall
      cases h
      exact .write hcall
    · cases h
  | spawn i =>
    simp only [callStep] at h
    split at h
    · rename_i hcall
      cases h
      exact .spawn hcall
    · cases h
  | read i =>
    simp only [callStep] at h
    split at h
    · rename_i hcall
      cases h
      exact .read hcall
    · cases h
  | encode i ok =>
    simp only [callStep] at h
    split at h
    · rename_i hcall
      cases h
      exact .encode ok hcall
    · cases h
  | remove i =>
    simp only [callStep] at h
    split at h
    · rename_i hcall
      cases h
      exact .remove hcall
    · cases h
  | cut i =>
    cases h
    exact .cut

/-! ## Whose list is read -/

/-- The call has written its list and its `ffmpeg` has still to read it. -/
def Phase.awaits (c : Call) (p : Phase) : Prop := p = .listed c ∨ ∃ waited, p = .spawned c waited

/-- Every `ffmpeg` that reads now reads what its own call wrote. -/
def ListsKept (s : Disk) : Prop :=
  ∀ i c, (s.calls i).awaits c → s.lists (listPath c.out) = some (concatList c.inputs)

/-- Every `ffmpeg` that has read its list read what its own call wrote. -/
def ReadsOwn (s : Disk) : Prop :=
  ∀ i c waited text, s.calls i = .fed c waited text → text = some (concatList c.inputs)

/-- Between the write of a list and its reading, no other call of the folder writes another
list or removes the list. -/
def Apart (s : Disk) : CallLabel → Prop
  | .write i => ∀ c, s.calls i = .called c → ∀ k d, (s.calls k).awaits d →
      listPath d.out = listPath c.out → concatList d.inputs = concatList c.inputs
  | .remove i => ∀ c ok, s.calls i = .exited c ok → ∀ k d, (s.calls k).awaits d →
      listPath d.out ≠ listPath c.out
  | _ => True

@[simp] theorem setList_lists {p : Path} {text : Option String} :
    (s.setList p text).lists = Function.update s.lists p text := rfl

@[simp] theorem setList_calls {p : Path} {text : Option String} :
    (s.setList p text).calls = s.calls := rfl

@[simp] theorem setWav_lists {p : Path} {text : Option String} :
    (s.setWav p text).lists = s.lists := rfl

@[simp] theorem setWav_calls {p : Path} {text : Option String} :
    (s.setWav p text).calls = s.calls := rfl

@[simp] theorem setCall_lists {p : Phase} : (s.setCall i p).lists = s.lists := rfl

@[simp] theorem setCall_wavs {p : Phase} : (s.setCall i p).wavs = s.wavs := rfl

@[simp] theorem setCall_self {p : Phase} : (s.setCall i p).calls i = p := by
  simp [Disk.setCall]

@[simp] theorem setCall_of_ne {k : ℕ} {p : Phase} (h : k ≠ i) :
    (s.setCall i p).calls k = s.calls k := by
  simp [Disk.setCall, h]

theorem not_awaits {p : Phase} {d : Call} (hlisted : p ≠ .listed d)
    (hspawned : ∀ waited, p ≠ .spawned d waited) : ¬ p.awaits d := by
  rintro (h | ⟨waited, h⟩)
  · exact hlisted h
  · exact hspawned waited h

theorem awaits_dropped {p : Phase} {d : Call} (h : p.dropped.awaits d) : p.awaits d := by
  rcases h with h | ⟨waited, h⟩
  · cases p <;> cases h
  · cases p <;> cases h
    exact .inr ⟨_, rfl⟩

/-- A call that awaits its `ffmpeg` did so before the step, or has just written its list. -/
theorem moved_awaits (h : CallMoved s a s') {k : ℕ} {d : Call} (hd : (s'.calls k).awaits d) :
    (s.calls k).awaits d ∨ a = .write k ∧ s.calls k = .called d := by
  have hself {i : ℕ} {p : Phase} {u : Disk} (hu : u.calls = s.calls)
      (hd : ((u.setCall i p).calls k).awaits d) : (s.calls k).awaits d ∨ k = i ∧ p.awaits d := by
    by_cases hk : k = i
    · subst hk
      rw [setCall_self] at hd
      exact .inr ⟨rfl, hd⟩
    · rw [setCall_of_ne hk, hu] at hd
      exact .inl hd
  cases h with
  | call hcall =>
    rcases hself rfl hd with hold | ⟨rfl, hnew⟩
    · exact .inl hold
    · exact absurd hnew (not_awaits (by simp) (by simp))
  | write hcall =>
    rcases hself rfl hd with hold | ⟨rfl, hnew⟩
    · exact .inl hold
    · rcases hnew with hnew | ⟨waited, hnew⟩
      · cases hnew
        exact .inr ⟨rfl, hcall⟩
      · cases hnew
  | spawn hcall =>
    rcases hself rfl hd with hold | ⟨rfl, hnew⟩
    · exact .inl hold
    · rcases hnew with hnew | ⟨waited, hnew⟩
      · cases hnew
      · cases hnew
        exact .inl (.inl hcall)
  | read hcall =>
    rcases hself rfl hd with hold | ⟨rfl, hnew⟩
    · exact .inl hold
    · exact absurd hnew (not_awaits (by simp) (by simp))
  | @encode i c waited text ok hcall =>
    rcases hself rfl hd with hold | ⟨rfl, hnew⟩
    · exact .inl hold
    · cases waited <;> exact absurd hnew (not_awaits (by simp) (by simp))
  | remove hcall =>
    rcases hself rfl hd with hold | ⟨rfl, hnew⟩
    · exact .inl hold
    · exact absurd hnew (not_awaits (by simp) (by simp))
  | cut =>
    rcases hself rfl hd with hold | ⟨rfl, hnew⟩
    · exact .inl hold
    · exact .inl (awaits_dropped hnew)

/-- What a call leaves at a path is the list of any other call that waits for that path. -/
theorem eq_of_listsKept {i k : ℕ} {c d : Call} {p : Phase} {text : Option String}
    (h : ListsKept ((s.setList (listPath c.out) text).setCall i p))
    (hno : ¬(s.calls i).awaits d) (hd : (s.calls k).awaits d)
    (hpath : listPath d.out = listPath c.out) : text = some (concatList d.inputs) := by
  have hne : k ≠ i := by
    rintro rfl
    exact hno hd
  have hlist := h k d (by rwa [setCall_of_ne hne])
  rwa [setCall_lists, setList_lists, hpath, Function.update_self] at hlist

/-- A step keeps every list that is still to be read if and only if it keeps the calls of a
folder apart. -/
theorem listsKept_iff (hkept : ListsKept s) (h : CallMoved s a s') :
    ListsKept s' ↔ Apart s a := by
  have hframe (hlists : s'.lists = s.lists) (hno : ∀ i, a ≠ .write i) : ListsKept s' := by
    intro k d hd
    rcases moved_awaits h hd with hold | ⟨hwrite, -⟩
    · rw [hlists]
      exact hkept k d hold
    · exact absurd hwrite (hno k)
  have hstep := h
  cases h with
  | @write i c hcall =>
    constructor
    · intro hkept' c' hcall' k d hd hpath
      rw [hcall] at hcall'
      cases hcall'
      have hno : ¬(s.calls i).awaits d := by
        rw [hcall]
        exact not_awaits (by simp) (by simp)
      exact (Option.some.inj (eq_of_listsKept hkept' hno hd hpath)).symm
    · intro hapart k d hd
      rw [setCall_lists, setList_lists]
      rcases moved_awaits hstep hd with hold | ⟨hwrite, hown⟩
      · by_cases hpath : listPath d.out = listPath c.out
        · rw [hpath, Function.update_self, hapart c hcall k d hold hpath]
        · rw [Function.update_of_ne hpath]
          exact hkept k d hold
      · cases hwrite
        rw [hcall] at hown
        cases hown
        rw [Function.update_self]
  | @remove i c ok hcall =>
    constructor
    · intro hkept' c' ok' hcall' k d hd hpath
      rw [hcall] at hcall'
      cases hcall'
      have hno : ¬(s.calls i).awaits d := by
        rw [hcall]
        exact not_awaits (by simp) (by simp)
      cases eq_of_listsKept hkept' hno hd hpath
    · intro hapart k d hd
      rw [setCall_lists, setList_lists]
      rcases moved_awaits hstep hd with hold | ⟨hwrite, -⟩
      · rw [Function.update_of_ne (hapart c ok hcall k d hold)]
        exact hkept k d hold
      · cases hwrite
  | _ => exact iff_of_true (hframe rfl (by simp)) trivial

theorem readsOwn_moved (hkept : ListsKept s) (hown : ReadsOwn s) (h : CallMoved s a s') :
    ReadsOwn s' := by
  intro k d waited text hfed
  have hself {i : ℕ} {p : Phase} {u : Disk} (hu : u.calls = s.calls)
      (hp : p = .fed d waited text → text = some (concatList d.inputs))
      (hfed : (u.setCall i p).calls k = .fed d waited text) :
      text = some (concatList d.inputs) := by
    by_cases hk : k = i
    · subst hk
      rw [setCall_self] at hfed
      exact hp hfed
    · rw [setCall_of_ne hk, hu] at hfed
      exact hown k d waited text hfed
  cases h with
  | read hcall =>
    apply hself rfl _ hfed
    intro hp
    cases hp
    exact hkept _ d (.inr ⟨_, hcall⟩)
  | @encode i c waited' text' ok hcall =>
    apply hself rfl _ hfed
    intro hp
    cases waited' <;> cases hp
  | @cut i =>
    apply hself rfl _ hfed
    intro hp
    cases hcall : s.calls i with
    | fed c w text' =>
      rw [hcall] at hp
      cases hp
      exact hown i d w text hcall
    | _ =>
      rw [hcall] at hp
      cases hp
  | _ =>
    apply hself rfl _ hfed
    intro hp
    cases hp

/-- In every run that keeps the calls of a folder apart, each `ffmpeg` reads the list its own
call wrote and each WAV is made from it; and a step that does not keep them apart leaves some
`ffmpeg` with another list to read. -/
theorem readsOwn_of_apart {tr : List CallLabel} (h : Run callStep Apart Disk.start tr s) :
    ReadsOwn s ∧
    (∀ i ok s' c waited text, s.calls i = .fed c waited text →
      callStep s (.encode i ok) = some s' → ok = true →
      s'.wavs c.out = some (concatList c.inputs)) ∧
    (∀ a s', callStep s a = some s' → (ListsKept s' ↔ Apart s a)) := by
  have hinv : ListsKept s ∧ ReadsOwn s := by
    apply h.invariant (I := fun s => ListsKept s ∧ ReadsOwn s)
    · constructor
      · rintro i c (hd | ⟨waited, hd⟩) <;> cases hd
      · intro i c waited text hfed
        cases hfed
    · intro s a s' hs hok hstep
      have hmove := callStep_moved hstep
      exact ⟨(listsKept_iff hs.1 hmove).mpr hok, readsOwn_moved hs.1 hs.2 hmove⟩
  refine ⟨hinv.2, ?_, fun a s' hstep => listsKept_iff hinv.1 (callStep_moved hstep)⟩
  intro i ok s' c waited text hfed hstep hok
  have htext := hinv.2 i c waited text hfed
  simp only [callStep, hfed, Option.some.injEq] at hstep
  rw [← hstep, setCall_wavs, hok, htext]
  simp [Disk.setWav]

/-- The file of segment `seq` of recording 7. -/
def segmentPath (seq : ℤ) : Path := recordingDir ["blobs"] 7 ++ ["segments", zeroPadded seq ++ ".m4a"]

/-- The live pass transcodes segment 1. -/
def liveCall : Call := ⟨[segmentPath 1], segWavPath ["blobs"] 7 1⟩

/-- The transcode stage concatenates both segments. -/
def fullCall : Call := ⟨[segmentPath 1, segmentPath 2], wavPath ["blobs"] 7⟩

theorem concatList_fullCall : concatList fullCall.inputs ≠ concatList liveCall.inputs := by
  intro h
  have hlength := congrArg String.length h
  simp [concatList, fullCall, liveCall, listLine] at hlength

/-- The stage writes its list before the `ffmpeg` of the live pass has read its own. -/
def crossedRun : List CallLabel :=
  [.call 0 liveCall, .call 1 fullCall, .write 0, .spawn 0, .write 1, .read 0]

def crossedState : Disk := (exec callStep Disk.start crossedRun).get rfl

theorem not_readsOwn :
    ¬ ∀ (tr : List CallLabel) (s : Disk), Run callStep anyStep Disk.start tr s → ReadsOwn s := by
  intro h
  have hlists : crossedState.calls 0 = .fed liveCall true (some (concatList fullCall.inputs)) := by
    rfl
  have hown := h crossedRun crossedState (run_of_isSome _) 0 liveCall true _ hlists
  exact concatList_fullCall (Option.some.inj hown)

/-- Where neither of two calls awaits its `ffmpeg` and there is no third, nothing is lost. -/
theorem apart_of_idle (hlive : ∀ d, ¬(s.calls 0).awaits d) (hfull : ∀ d, ¬(s.calls 1).awaits d)
    (hidle : ∀ k, s.calls (k + 2) = .idle) : Apart s a := by
  have hnone : ∀ k d, ¬(s.calls k).awaits d := by
    intro k d
    match k with
    | 0 => exact hlive d
    | 1 => exact hfull d
    | k + 2 =>
      rw [hidle]
      exact not_awaits (by simp) (by simp)
  cases a with
  | write i => exact fun c _ k d hd => absurd hd (hnone k d)
  | remove i => exact fun c ok _ k d hd => absurd hd (hnone k d)
  | _ => trivial

/-- The live pass and the stage are both called, the live pass is done, and then the stage writes
its list. -/
def inTurnRun : List CallLabel :=
  [.call 0 liveCall, .call 1 fullCall, .write 0, .spawn 0, .read 0, .encode 0 true, .remove 0,
    .write 1, .spawn 1, .read 1]

def inTurnState : Disk := (exec callStep Disk.start inTurnRun).get rfl

theorem readsOwn_of_apart_inTurnState : ReadsOwn inTurnState ∧
    inTurnState.wavs liveCall.out = some (concatList liveCall.inputs) ∧
    inTurnState.calls 1 = .fed fullCall true (some (concatList fullCall.inputs)) := by
  have hstart : Run callStep Apart Disk.start [] Disk.start := .nil
  have hlive := Run.snoc (CallLabel.call 0 liveCall) hstart trivial rfl
  have hfull := Run.snoc (CallLabel.call 1 fullCall) hlive trivial rfl
  have hwrite := Run.snoc (CallLabel.write 0) hfull
    (apart_of_idle (fun _ => not_awaits nofun nofun) (fun _ => not_awaits nofun nofun)
      fun _ => rfl) rfl
  have hspawn := Run.snoc (CallLabel.spawn 0) hwrite trivial rfl
  have hread := Run.snoc (CallLabel.read 0) hspawn trivial rfl
  have hencode := Run.snoc (CallLabel.encode 0 true) hread trivial rfl
  have hremove := Run.snoc (CallLabel.remove 0) hencode
    (apart_of_idle (fun _ => not_awaits nofun nofun) (fun _ => not_awaits nofun nofun)
      fun _ => rfl) rfl
  have hwrite' := Run.snoc (CallLabel.write 1) hremove
    (apart_of_idle (fun _ => not_awaits nofun nofun) (fun _ => not_awaits nofun nofun)
      fun _ => rfl) rfl
  have hspawn' := Run.snoc (CallLabel.spawn 1) hwrite' trivial rfl
  have hread' := Run.snoc (CallLabel.read 1) hspawn' trivial rfl
  have hwav := (readsOwn_of_apart hread).2.1 0 true _ liveCall true _ rfl rfl rfl
  exact ⟨(readsOwn_of_apart hread').1, hwav, rfl⟩

end ScribeLocal.Pipeline
