import ScribeLocal.Schedule.Policy

/-!
# The windows around an instant

`decide` looks at the windows of nine dates, sorted and merged. What it says of the present
instant is what the windows of all dates say.
-/
namespace ScribeLocal.Schedule

/-! ## Merging -/

/-- `t` is inside the window. -/
def Inside (w : ℤ × ℤ) (t : ℤ) : Prop := w.1 ≤ t ∧ t < w.2

/-- `ms` are the windows `ws`, merged. -/
structure Merged (ws ms : List (ℤ × ℤ)) : Prop where
  covers : ∀ t, (∃ m ∈ ms, Inside m t) ↔ ∃ w ∈ ws, Inside w t
  within : ∀ w ∈ ws, ∃ m ∈ ms, m.1 ≤ w.1 ∧ w.1 ≤ m.2
  starts : ∀ m ∈ ms, ∃ w ∈ ws, w.1 = m.1
  stops : ∀ m ∈ ms, ∃ w ∈ ws, w.2 = m.2
  separated : ms.Pairwise fun v w => v.2 < w.1
  proper : ∀ m ∈ ms, m.1 ≤ m.2

theorem merged_single {w : ℤ × ℤ} (h : w.1 ≤ w.2) : Merged [w] [w] where
  covers _ := Iff.rfl
  within v hv := by
    rw [List.mem_singleton.mp hv]
    exact ⟨w, List.mem_singleton_self w, le_rfl, h⟩
  starts m hm := ⟨m, hm, rfl⟩
  stops m hm := ⟨m, hm, rfl⟩
  separated := List.pairwise_singleton _ _
  proper m hm := by rwa [List.mem_singleton.mp hm]

/-- A window that opens inside the last one widens it. -/
theorem Merged.widen {ws acc : List (ℤ × ℤ)} {last w : ℤ × ℤ} (h : Merged ws (acc ++ [last]))
    (hopens : last.1 ≤ w.1) (htouch : w.1 ≤ last.2) :
    Merged (ws ++ [w]) (acc ++ [(last.1, max last.2 w.2)]) := by
  have hwide : (last.1, max last.2 w.2) ∈ acc ++ [(last.1, max last.2 w.2)] :=
    List.mem_append_right _ (List.mem_singleton_self _)
  constructor
  · intro t
    have hold := h.covers t
    have hjoin : Inside (last.1, max last.2 w.2) t ↔ Inside last t ∨ Inside w t := by
      simp only [Inside]
      omega
    simp only [List.mem_append, List.mem_singleton, or_and_right, exists_or, exists_eq_left]
      at hold ⊢
    rw [← hold, hjoin, or_assoc]
  · intro u hu
    rcases List.mem_append.mp hu with hu | hu
    · obtain ⟨m, hm, hinside⟩ := h.within u hu
      rcases List.mem_append.mp hm with hm | hm
      · exact ⟨m, List.mem_append_left _ hm, hinside⟩
      · rw [List.mem_singleton.mp hm] at hinside
        exact ⟨_, hwide, hinside.1, hinside.2.trans (le_max_left _ _)⟩
    · rw [List.mem_singleton.mp hu]
      exact ⟨_, hwide, hopens, htouch.trans (le_max_left _ _)⟩
  · intro m hm
    rcases List.mem_append.mp hm with hm | hm
    · obtain ⟨u, hu, heq⟩ := h.starts m (List.mem_append_left _ hm)
      exact ⟨u, List.mem_append_left _ hu, heq⟩
    · rw [List.mem_singleton.mp hm]
      obtain ⟨u, hu, heq⟩ := h.starts last (by simp)
      exact ⟨u, List.mem_append_left _ hu, heq⟩
  · intro m hm
    rcases List.mem_append.mp hm with hm | hm
    · obtain ⟨u, hu, heq⟩ := h.stops m (List.mem_append_left _ hm)
      exact ⟨u, List.mem_append_left _ hu, heq⟩
    · rw [List.mem_singleton.mp hm]
      rcases max_choice last.2 w.2 with hmax | hmax
      · obtain ⟨u, hu, heq⟩ := h.stops last (by simp)
        exact ⟨u, List.mem_append_left _ hu, heq.trans hmax.symm⟩
      · exact ⟨w, List.mem_append_right _ (List.mem_singleton_self w), hmax.symm⟩
  · have hseparated := h.separated
    rw [List.pairwise_append] at hseparated ⊢
    refine ⟨hseparated.1, List.pairwise_singleton _ _, ?_⟩
    intro m hm u hu
    rw [List.mem_singleton.mp hu]
    exact hseparated.2.2 m hm last (List.mem_singleton_self last)
  · intro m hm
    rcases List.mem_append.mp hm with hm | hm
    · exact h.proper m (List.mem_append_left _ hm)
    · rw [List.mem_singleton.mp hm]
      exact (h.proper last (by simp)).trans (le_max_left _ _)

/-- A window that opens after the others have closed stands by itself. -/
theorem Merged.append {ws ms : List (ℤ × ℤ)} {w : ℤ × ℤ} (h : Merged ws ms)
    (hapart : ∀ m ∈ ms, m.2 < w.1) (hw : w.1 ≤ w.2) : Merged (ws ++ [w]) (ms ++ [w]) := by
  have hlast : ∀ {l : List (ℤ × ℤ)}, w ∈ l ++ [w] :=
    List.mem_append_right _ (List.mem_singleton_self w)
  constructor
  · intro t
    have hold := h.covers t
    simp only [List.mem_append, List.mem_singleton, or_and_right, exists_or, exists_eq_left]
      at hold ⊢
    rw [hold]
  · intro u hu
    rcases List.mem_append.mp hu with hu | hu
    · obtain ⟨m, hm, hinside⟩ := h.within u hu
      exact ⟨m, List.mem_append_left _ hm, hinside⟩
    · rw [List.mem_singleton.mp hu]
      exact ⟨w, hlast, le_rfl, hw⟩
  · intro m hm
    rcases List.mem_append.mp hm with hm | hm
    · obtain ⟨u, hu, heq⟩ := h.starts m hm
      exact ⟨u, List.mem_append_left _ hu, heq⟩
    · rw [List.mem_singleton.mp hm]
      exact ⟨w, hlast, rfl⟩
  · intro m hm
    rcases List.mem_append.mp hm with hm | hm
    · obtain ⟨u, hu, heq⟩ := h.stops m hm
      exact ⟨u, List.mem_append_left _ hu, heq⟩
    · rw [List.mem_singleton.mp hm]
      exact ⟨w, hlast, rfl⟩
  · rw [List.pairwise_append]
    refine ⟨h.separated, List.pairwise_singleton _ _, ?_⟩
    intro m hm u hu
    rw [List.mem_singleton.mp hu]
    exact hapart m hm
  · intro m hm
    rcases List.mem_append.mp hm with hm | hm
    · exact h.proper m hm
    · rwa [List.mem_singleton.mp hm]

/-- A window that opens no earlier than the others. -/
theorem Merged.push {ws acc : List (ℤ × ℤ)} {last w : ℤ × ℤ} (h : Merged ws (acc ++ [last]))
    (hlater : ∀ v ∈ ws, v.1 ≤ w.1) (hw : w.1 ≤ w.2) :
    Merged (ws ++ [w])
      ((mergeWindows.push (acc, last) w).1 ++ [(mergeWindows.push (acc, last) w).2]) := by
  by_cases htouch : w.1 ≤ last.2
  · have hpush : mergeWindows.push (acc, last) w = (acc, (last.1, max last.2 w.2)) := if_pos htouch
    obtain ⟨v, hv, hstart⟩ := h.starts last (by simp)
    rw [hpush]
    exact h.widen (hstart ▸ hlater v hv) htouch
  · have hpush : mergeWindows.push (acc, last) w = (acc ++ [last], w) := if_neg htouch
    rw [hpush]
    apply h.append _ hw
    intro m hm
    rcases List.mem_append.mp hm with hm | hm
    · have hbefore := (List.pairwise_append.mp h.separated).2.2 m hm last
        (List.mem_singleton_self last)
      have hlast := h.proper last (by simp)
      omega
    · rw [List.mem_singleton.mp hm]
      omega

theorem merged_foldl {done ws acc : List (ℤ × ℤ)} {last : ℤ × ℤ}
    (h : Merged done (acc ++ [last])) (hsorted : (done ++ ws).Pairwise fun v w => v.1 ≤ w.1)
    (hproper : ∀ w ∈ ws, w.1 ≤ w.2) :
    Merged (done ++ ws) ((ws.foldl mergeWindows.push (acc, last)).1 ++
      [(ws.foldl mergeWindows.push (acc, last)).2]) := by
  induction ws generalizing done acc last with
  | nil => simpa using h
  | cons w ws ih =>
    have hpush := h.push (w := w)
      (fun v hv => (List.pairwise_append.mp hsorted).2.2 v hv w List.mem_cons_self)
      (hproper w List.mem_cons_self)
    have hrest := ih hpush (by simpa using hsorted)
      fun v hv => hproper v (List.mem_cons_of_mem _ hv)
    rwa [List.append_assoc, List.singleton_append] at hrest

theorem merged_mergeWindows {ws : List (ℤ × ℤ)} (hsorted : ws.Pairwise fun v w => v.1 ≤ w.1)
    (hproper : ∀ w ∈ ws, w.1 ≤ w.2) : Merged ws (mergeWindows ws) := by
  cases ws with
  | nil => exact ⟨by simp [mergeWindows], nofun, nofun, nofun, .nil, nofun⟩
  | cons w ws =>
    have hfirst : Merged [w] ([] ++ [w]) := merged_single (hproper w List.mem_cons_self)
    exact merged_foldl hfirst hsorted fun v hv => hproper v (List.mem_cons_of_mem _ hv)

/-! ## The windows of all dates -/

def midnight (date : ℤ) : ℤ := date * day

/-- The window that the weekday of `date` has, if it is enabled. -/
def ProcessingSchedule.windowOf (s : ProcessingSchedule) (date : ℤ) : Option DayWindow :=
  s.days[weekday date]?.filter DayWindow.enabled

/-- The edges are minutes of a day. -/
def ProcessingSchedule.WithinDay (s : ProcessingSchedule) : Prop :=
  ∀ w ∈ s.days, w.start ≤ minutesPerDay ∧ w.stop ≤ minutesPerDay

/-- `t` is in the window of some date, past or future. One that does not stop after it starts goes on
to the next day. -/
def ProcessingSchedule.OpenAt (s : ProcessingSchedule) (t : ℤ) : Prop :=
  ∃ date : ℤ, ∃ w ∈ s.windowOf date, midnight date + w.start * minute ≤ t ∧
    t < midnight date + w.start * minute +
      ((if w.start < w.stop then w.stop - w.start else 1440 - w.start + w.stop : ℕ) : ℤ) * minute

variable {s : ProcessingSchedule} {anchor t nowLocal date : ℤ} {w m : ℤ × ℤ} {now : Time}

theorem windowOn_eq_some : s.windowOn date = some w ↔ ∃ v ∈ s.windowOf date,
    w = (midnight date + v.start * minute,
      midnight date + v.start * minute + v.lengthMinutes * minute) := by
  rw [ProcessingSchedule.windowOn, ProcessingSchedule.windowOf, midnight]
  cases s.days[weekday date]? with
  | none => simp
  | some v =>
    cases hv : v.enabled with
    | false => simp [hv]
    | true =>
      simp only [Option.filter_some, hv, if_true, Option.mem_some_iff, exists_eq_left',
        Option.bind_eq_bind, Option.bind_some, guard, Option.pure_def]
      exact Option.some_inj.trans eq_comm

theorem openAt_iff : s.OpenAt t ↔ ∃ date w, s.windowOn date = some w ∧ Inside w t := by
  constructor
  · rintro ⟨date, v, hv, hinside⟩
    exact ⟨date, _, windowOn_eq_some.mpr ⟨v, hv, rfl⟩, hinside⟩
  · rintro ⟨date, w, hw, hinside⟩
    obtain ⟨v, hv, rfl⟩ := windowOn_eq_some.mp hw
    exact ⟨date, v, hv, hinside⟩

theorem lengthMinutes_le {v : DayWindow} (hstart : v.start ≤ minutesPerDay)
    (hstop : v.stop ≤ minutesPerDay) : v.lengthMinutes ≤ minutesPerDay := by
  rw [DayWindow.lengthMinutes]
  split <;> omega

theorem windowOf_edges (h : s.WithinDay) {v : DayWindow} (hv : v ∈ s.windowOf date) :
    v.start ≤ minutesPerDay ∧ v.stop ≤ minutesPerDay := by
  rw [ProcessingSchedule.windowOf, Option.mem_def, Option.filter_eq_some_iff] at hv
  exact h v (List.mem_of_getElem? hv.1)

theorem midnight_add (date k : ℤ) : midnight (date + k) = midnight date + k * day := by
  rw [midnight, midnight, add_mul]

theorem minutes_le {k : ℕ} (h : k ≤ minutesPerDay) : 0 ≤ (k * minute : ℤ) ∧ (k * minute : ℤ) ≤ day := by
  have hday : day = minutesPerDay * minute := rfl
  rw [hday]
  constructor
  · exact_mod_cast Nat.zero_le _
  · exact_mod_cast Nat.mul_le_mul_right minute h

/-- A window opens on its date, at the latest as the date ends, and lasts a day at most. -/
theorem windowOn_bounds (h : s.WithinDay) (hw : s.windowOn date = some w) :
    midnight date ≤ w.1 ∧ w.1 ≤ midnight (date + 1) ∧ w.1 ≤ w.2 ∧ w.2 ≤ midnight (date + 2) := by
  obtain ⟨v, hv, rfl⟩ := windowOn_eq_some.mp hw
  obtain ⟨hstart, hstop⟩ := windowOf_edges h hv
  have hopens := minutes_le hstart
  have hlasts := minutes_le (lengthMinutes_le hstart hstop)
  rw [midnight_add, midnight_add]
  dsimp only
  omega

/-- The instant lies in the date that `decide` looks around. -/
theorem midnight_le_iff : midnight date ≤ t ↔ date ≤ t / day := by
  rw [midnight, Int.le_ediv_iff_mul_le (by decide)]

/-! ## The dates that are looked at -/

/-- The windows `decide` looks at, of nine dates. -/
def ProcessingSchedule.windowsAround (s : ProcessingSchedule) (anchor : ℤ) : List (ℤ × ℤ) :=
  ((List.range (lookaheadDays + 1)).filterMap fun k =>
    s.windowOn (anchor - 1 + k)).insertionSort fun a b => a.1 ≤ b.1

theorem mem_windowsAround : w ∈ s.windowsAround anchor ↔
    ∃ date, anchor - 1 ≤ date ∧ date ≤ anchor + 7 ∧ s.windowOn date = some w := by
  have hrange (k : ℤ) : (∃ n < lookaheadDays + 1, (n : ℤ) = k) ↔ 0 ≤ k ∧ k ≤ 8 := by
    rw [lookaheadDays]
    exact ⟨fun ⟨n, hn, heq⟩ => by omega, fun hk => ⟨k.toNat, by omega, by omega⟩⟩
  rw [ProcessingSchedule.windowsAround, List.mem_insertionSort, List.mem_filterMap]
  simp only [List.bind_eq_flatMap, List.pure_def, List.mem_flatMap, List.mem_range,
    List.mem_singleton, eq_comm (b := ((_ : ℕ) : ℤ)), hrange]
  constructor
  · rintro ⟨k, hk, hw⟩
    exact ⟨_, by omega, by omega, hw⟩
  · rintro ⟨date, hfrom, hto, hw⟩
    refine ⟨date - (anchor - 1), by omega, ?_⟩
    rwa [add_sub_cancel]

theorem merged_windows (h : s.WithinDay) (anchor : ℤ) :
    Merged (s.windowsAround anchor) (s.mergedWindows anchor) := by
  have : Std.Total fun a b : ℤ × ℤ => a.1 ≤ b.1 := ⟨fun a b => le_total a.1 b.1⟩
  have : IsTrans (ℤ × ℤ) fun a b => a.1 ≤ b.1 := ⟨fun _ _ _ => le_trans⟩
  apply merged_mergeWindows (List.pairwise_insertionSort _ _)
  intro w hw
  obtain ⟨date, -, -, hw⟩ := mem_windowsAround.mp hw
  exact (windowOn_bounds h hw).2.2.1

/-- No window of another date reaches the present instant. -/
theorem covers_iff_openAt (h : s.WithinDay) (nowLocal : ℤ) :
    (∃ m ∈ s.mergedWindows (nowLocal / day), Inside m nowLocal) ↔ s.OpenAt nowLocal := by
  rw [(merged_windows h _).covers, openAt_iff]
  constructor
  · rintro ⟨w, hw, hinside⟩
    obtain ⟨date, -, -, hw⟩ := mem_windowsAround.mp hw
    exact ⟨date, w, hw, hinside⟩
  · rintro ⟨date, w, hw, hinside⟩
    have hbounds := windowOn_bounds h hw
    have hfrom : nowLocal / day < date + 2 := by
      by_contra hlate
      have := midnight_le_iff.mpr (not_lt.mp hlate)
      exact absurd hinside.2 (by omega)
    have hto : date ≤ nowLocal / day := midnight_le_iff.mp (hbounds.1.trans hinside.1)
    exact ⟨w, mem_windowsAround.mpr ⟨date, by omega, by omega, hw⟩, hinside⟩

/-! ## Membership -/

/-- An enabled schedule with no override in force. -/
theorem decide_windows (henabled : s.enabled = true) (hlive : live now s.activeOverride = none) :
    s.decide nowLocal now =
      let windows := s.mergedWindows (nowLocal / day)
      match windows.find? fun w => w.1 ≤ nowLocal && nowLocal < w.2 with
      | some w => ⟨true, .inWindow, some ((w.2 - nowLocal) / second)⟩
      | none =>
        ⟨false, .outsideWindow,
          (windows.find? fun w => nowLocal < w.1).map fun w => (w.1 - nowLocal) / second⟩ := by
  rw [ProcessingSchedule.decide, hlive, henabled]
  rfl

theorem find?_inside_isSome {ms : List (ℤ × ℤ)} :
    (ms.find? fun w => w.1 ≤ t && t < w.2).isSome ↔ ∃ m ∈ ms, Inside m t := by
  simp [Inside]

theorem allowed_iff (h : s.WithinDay) (henabled : s.enabled = true)
    (hlive : live now s.activeOverride = none) :
    (s.decide nowLocal now).allowed = true ↔ s.OpenAt nowLocal := by
  rw [← covers_iff_openAt h, ← find?_inside_isSome, decide_windows henabled hlive]
  dsimp only
  cases (s.mergedWindows (nowLocal / day)).find? fun w => w.1 ≤ nowLocal && nowLocal < w.2 <;> simp

/-- Looking one day back and eight ahead, sorting and merging lose no window and add none. -/
theorem allowed_iff_openAt {since : Time} (henabled : (s.normalize since).enabled = true)
    (hlive : live now (s.normalize since).activeOverride = none) :
    ((s.normalize since).decide nowLocal now).allowed = true ↔
      (s.normalize since).OpenAt nowLocal :=
  allowed_iff (normal_normalize since s).edges henabled hlive

/-- Open from ten at night to six in the morning, on Mondays. -/
def mondayNights : ProcessingSchedule :=
  ⟨true, [⟨true, 1320, 360⟩], 10, none⟩

/-- At two in the morning of a Tuesday it is open, from the day before. -/
theorem allowed_iff_openAt_mondayNights :
    ((mondayNights.normalize 0).decide (midnight 5 + 120 * minute) 0).allowed = true ∧
      (mondayNights.normalize 0).OpenAt (midnight 5 + 120 * minute) := by
  have hallowed :
      ((mondayNights.normalize 0).decide (midnight 5 + 120 * minute) 0).allowed = true := by
    decide +kernel
  exact ⟨hallowed, (allowed_iff_openAt rfl rfl).mp hallowed⟩

end ScribeLocal.Schedule
