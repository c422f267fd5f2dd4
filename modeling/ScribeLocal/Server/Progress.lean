import ScribeLocal.Server.Effect

/-! # What is still coming

A stage is coming when it or one of the stages above it is live, or about to be
inserted, or about to be checked with its predecessors done. Each stage below the
entry of a run is done or coming, and this survives every step that drops nothing.
-/
namespace ScribeLocal

namespace JobKind

/-- A kind with the kinds that lead to it. -/
def upstream : JobKind → List JobKind
  | transcode => [transcode]
  | diarize => [diarize, transcode]
  | transcribe => [transcribe, transcode]
  | merge => [merge, diarize, transcribe, transcode]
  | embed => [embed, merge, diarize, transcribe, transcode]
  | summarize => [summarize, merge, diarize, transcribe, transcode]
  | transcribeSegment => [transcribeSegment]

/-- The stages after `transcode`. -/
def later : List JobKind := [diarize, transcribe, merge, embed, summarize]

theorem mem_upstream_self (k : JobKind) : k ∈ k.upstream := by
  cases k <;> decide

theorem mem_upstream_of_predecessor {p a k : JobKind} (hp : p ∈ a.predecessors)
    (ha : a ∈ k.upstream) : p ∈ k.upstream := by
  cases k <;> cases a <;> cases p <;> revert hp ha <;> decide

/-- A kind strictly above another has a successor on the way down. -/
theorem exists_successor {a k : JobKind} (ha : a ∈ k.upstream) (hne : a ≠ k) :
    ∃ y ∈ a.successors, y ∈ k.upstream := by
  cases k <;> cases a <;> revert ha hne <;> decide

theorem upstream_subset {b q k : JobKind} (hb : b ∈ q.upstream) (hq : q ∈ k.upstream) :
    b ∈ k.upstream := by
  cases k <;> cases q <;> cases b <;> revert hb hq <;> decide

/-- The other predecessor of a join does not hang below the first. -/
theorem not_mem_upstream_of_siblings {p q y : JobKind} (hp : p ∈ y.predecessors)
    (hq : q ∈ y.predecessors) (hne : q ≠ p) : p ∉ q.upstream ∧ q ∈ later := by
  cases y <;> cases p <;> cases q <;> revert hp hq hne <;> decide

theorem isPipeline_of_mem_upstream {a k : JobKind} (ha : a ∈ k.upstream)
    (hk : k.isPipeline = true) : a.isPipeline = true := by
  cases k <;> cases a <;> revert ha hk <;> decide

theorem isPipeline_of_mem_later {k : JobKind} (hk : k ∈ later) : k.isPipeline = true := by
  cases k <;> revert hk <;> decide

theorem transcode_mem_upstream {k : JobKind} (hk : k ∈ later) : transcode ∈ k.upstream := by
  cases k <;> revert hk <;> decide

/-- Two stages enqueued together wait for one stage alone. -/
theorem successors_of_pair {k y y' : JobKind} (h : k.successors = [y, y']) :
    y ∈ later ∧ y' ∈ later ∧ y.predecessors = [k] ∧ y'.predecessors = [k] := by
  cases k <;> cases y <;> cases y' <;> revert h <;> decide

theorem successors_of_suffix {k y y' : JobKind} {ys : List JobKind} (h : y :: ys <:+ k.successors)
    (hy' : y' ∈ ys) : k.successors = [y, y'] ∧ ys = [y'] := by
  rcases h with ⟨front, h⟩
  cases k <;> rcases front with _ | ⟨_, _ | ⟨_, front⟩⟩ <;> simp_all [successors]

theorem suffix_of_pair {k y y' : JobKind} {ys : List JobKind} (h : y :: ys <:+ k.successors)
    (hpair : k.successors = [y, y']) : ys = [y'] := by
  have hnodup : k.successors.Nodup := by cases k <;> decide
  rw [hpair] at h hnodup
  rcases h with ⟨_ | ⟨_, _ | ⟨_, front⟩⟩, h⟩ <;> simp_all

end JobKind

namespace Server
open Jobs Transition

variable {cfg : Config} {keep : Bool} {r : Uuid} {s s' : Sys} {a : Label} {k : JobKind}
  {x : JobKind → Prop} {lost : Cmd → Prop}

/-- A job of kind `k` is live, about to be inserted, or about to pass its gate. -/
inductive Base (keep : Bool) (s : Sys) (r : Uuid) (k : JobKind) : Prop
  | live (h : Live s r k)
  | insert (payload : Payload) (strict : Bool) (h : Pending keep s (.insertJob r k payload strict))
  | check (h : Pending keep s (.succ r k)) (hdone : ∀ p ∈ k.predecessors, Done s r p)

def Coming (keep : Bool) (s : Sys) (r : Uuid) (k : JobKind) : Prop :=
  ∃ b ∈ k.upstream, Base keep s r b

def Flowing (keep : Bool) (s : Sys) (r : Uuid) : Prop :=
  ∀ k ∈ JobKind.later, Done s r k ∨ Coming keep s r k

/-- Some process is about to check for `ready` or to write it. -/
def ReadyPending (keep : Bool) (s : Sys) (r : Uuid) : Prop :=
  Pending keep s (.maybeMarkReady r) ∨ Pending keep s (.markReady r)

/-- Something is still going to happen to the recording's pipeline. -/
def Busy (keep : Bool) (s : Sys) (r : Uuid) : Prop :=
  ReadyPending keep s r ∨ ∃ k, k.isPipeline = true ∧ Base keep s r k

theorem Base.coming (h : Base keep s r k) : Coming keep s r k := ⟨k, k.mem_upstream_self, h⟩

theorem Coming.busy (h : Coming keep s r k) (hk : k.isPipeline = true) : Busy keep s r := by
  rcases h with ⟨b, hb, hbase⟩
  exact .inr ⟨b, JobKind.isPipeline_of_mem_upstream hb hk, hbase⟩

theorem Base.coming_of_mem {b : JobKind} (h : Base keep s r b) (hb : b ∈ k.upstream) :
    Coming keep s r k := ⟨b, hb, h⟩

/-- What is lost has left its place to something that keeps the stage coming. -/
structure Handed (keep : Bool) (r : Uuid) (s s' : Sys) (lost : Cmd → Prop) : Prop where
  insert : ∀ k payload strict, lost (.insertJob r k payload strict) → Base keep s' r k
  check : ∀ k, lost (.succ r k) → (∀ p ∈ k.predecessors, Done s r p) → Base keep s' r k

theorem base_frame (hframe : Frame keep r s s' x lost) (hand : Handed keep r s s' lost)
    (h : Base keep s r k) : Coming keep s' r k ∨ x k := by
  cases h with
  | live h =>
    rcases hframe.live k h with h' | hx
    · exact .inl (Base.live h').coming
    · exact .inr hx
  | insert payload strict h =>
    rcases hframe.pend (.insertJob r k payload strict) rfl h with h' | hlost
    · exact .inl (Base.insert payload strict h').coming
    · exact .inl (hand.insert k payload strict hlost).coming
  | check h hdone =>
    rcases hframe.pend (.succ r k) rfl h with h' | hlost
    · by_cases hall : ∀ p ∈ k.predecessors, Done s' r p
      · exact .inl (Base.check h' hall).coming
      · push Not at hall
        rcases hall with ⟨p, hp, hno⟩
        -- a predecessor was put back on the queue
        have hlive : Live s' r p := (hframe.done p (hdone p hp)).resolve_left hno
        exact .inl ((Base.live hlive).coming_of_mem
          (JobKind.mem_upstream_of_predecessor hp k.mem_upstream_self))
    · exact .inl (hand.check k hlost hdone).coming

theorem coming_frame (hframe : Frame keep r s s' x lost) (hand : Handed keep r s s' lost)
    (h : Coming keep s r k) : Coming keep s' r k ∨ ∃ b ∈ k.upstream, x b := by
  rcases h with ⟨b, hb, hbase⟩
  rcases base_frame hframe hand hbase with ⟨c, hc, hbase'⟩ | hx
  · exact .inl ⟨c, JobKind.upstream_subset hc hb, hbase'⟩
  · exact .inr ⟨b, hb, hx⟩

theorem done_frame (hframe : Frame keep r s s' x lost) (h : Done s r k) :
    Done s' r k ∨ Coming keep s' r k := by
  rcases hframe.done k h with h' | hlive
  · exact .inl h'
  · exact .inr (Base.live hlive).coming

/-- A step that completes nothing and hands on what it drops. -/
theorem flowing_frame (hframe : Frame keep r s s' (fun _ => False) lost)
    (hand : Handed keep r s s' lost) (h : Flowing keep s r) : Flowing keep s' r := by
  intro k hk
  rcases h k hk with hdone | hcoming
  · exact done_frame hframe hdone
  · rcases coming_frame hframe hand hcoming with hcoming' | ⟨_, _, hx⟩
    · exact .inr hcoming'
    · exact hx.elim

theorem busy_base_frame (hframe : Frame keep r s s' (fun _ => False) lost)
    (hand : Handed keep r s s' lost) (hk : k.isPipeline = true) (h : Base keep s r k) :
    Busy keep s' r := by
  rcases base_frame hframe hand h with hcoming | hx
  · exact hcoming.busy hk
  · exact hx.elim

/-- A completed stage leaves each successor coming, or another predecessor of it is. -/
theorem coming_successor (hframe : Frame keep r s s' (· = k) (fun _ => False))
    (hdone : Done s' r k) (hsucc : ∀ y ∈ k.successors, Pending keep s' (.succ r y))
    (h : Flowing keep s r) {y : JobKind} (hy : y ∈ k.successors) : Coming keep s' r y := by
  have hky : k ∈ y.predecessors := JobKind.mem_successors.mp hy
  by_cases hall : ∀ p ∈ y.predecessors, Done s' r p
  · exact (Base.check (hsucc y hy) hall).coming
  · push Not at hall
    rcases hall with ⟨q, hq, hno⟩
    have hne : q ≠ k := fun heq => hno (heq ▸ hdone)
    have hside := JobKind.not_mem_upstream_of_siblings hky hq hne
    have hcoming : Coming keep s' r q := by
      rcases h q hside.2 with hd | hc
      · exact (done_frame hframe hd).resolve_left hno
      · rcases coming_frame hframe ⟨fun _ _ _ h => h.elim, fun _ h => h.elim⟩ hc with hc' | ⟨b, hb, rfl⟩
        · exact hc'
        · exact absurd hb hside.1
    rcases hcoming with ⟨b, hb, hbase⟩
    exact ⟨b, JobKind.upstream_subset hb
      (JobKind.mem_upstream_of_predecessor hq y.mem_upstream_self), hbase⟩

theorem flowing_completed (hframe : Frame keep r s s' (· = k) (fun _ => False))
    (hdone : Done s' r k) (hsucc : ∀ y ∈ k.successors, Pending keep s' (.succ r y))
    (h : Flowing keep s r) : Flowing keep s' r := by
  intro m hm
  rcases h m hm with hd | hc
  · exact done_frame hframe hd
  · rcases coming_frame hframe ⟨fun _ _ _ h => h.elim, fun _ h => h.elim⟩ hc with hc' | ⟨b, hb, rfl⟩
    · exact .inr hc'
    · by_cases hbm : b = m
      · exact .inl (hbm ▸ hdone)
      · rcases JobKind.exists_successor hb hbm with ⟨y, hy, hym⟩
        rcases coming_successor hframe hdone hsucc h hy with ⟨c, hc, hbase⟩
        exact .inr ⟨c, JobKind.upstream_subset hc hym, hbase⟩

end Server

end ScribeLocal
