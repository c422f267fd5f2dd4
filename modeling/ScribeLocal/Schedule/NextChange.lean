import ScribeLocal.Schedule.Edits
import ScribeLocal.Schedule.Windows

/-!
# The next change of the verdict

What `decide` announces at one instant against what it says at the later ones, each of which
looks at other dates. A window from 1440 to 0 has no length: it is announced and never opens.
-/
namespace ScribeLocal.Schedule

/-- What `decide` says at `nowLocal` of the instants after it comes true. -/
structure NextChangeReal (s : ProcessingSchedule) (nowLocal : ℤ) (now : Time) : Prop where
  closedUntil : ∀ n, (s.decide nowLocal now).allowed = false →
    (s.decide nowLocal now).nextChangeSecs = some n →
    (∀ t now', nowLocal ≤ t → t < nowLocal + n * second → now ≤ now' →
      (s.decide t now').allowed = false) ∧
    ∀ now', now ≤ now' → (s.decide (nowLocal + n * second) now').allowed = true
  closedForever : (s.decide nowLocal now).allowed = false →
    (s.decide nowLocal now).nextChangeSecs = none →
    ∀ t now', nowLocal ≤ t → now ≤ now' → (s.decide t now').allowed = false
  openUntil : ∀ n, (s.decide nowLocal now).reason = .inWindow →
    (s.decide nowLocal now).nextChangeSecs = some n →
    (∀ t now', nowLocal ≤ t → t < nowLocal + n * second → now ≤ now' →
      (s.decide t now').allowed = true) ∧
    (nowLocal + n * second < midnight (nowLocal / day + 8) → ∀ now', now ≤ now' →
      (s.decide (nowLocal + n * second) now').allowed = false)

/-- At each midnight to come at which a window of no length opens, or at some instant before it,
a window of some length is open. -/
def OpensByThen (s : ProcessingSchedule) (nowLocal : ℤ) : Prop :=
  ∀ date, (∃ w ∈ s.windowOf date, w.start = minutesPerDay ∧ w.stop = 0) →
    nowLocal < midnight (date + 1) → ∃ t, nowLocal ≤ t ∧ t ≤ midnight (date + 1) ∧ s.OpenAt t

variable {s : ProcessingSchedule} {nowLocal t date : ℤ} {now now' : Time} {w m : ℤ × ℤ}

/-! ## Windows and dates -/

theorem windowOf_sub (date k : ℤ) : s.windowOf (date - 7 * k) = s.windowOf date := by
  have hweekday : weekday (date - 7 * k) = weekday date := by
    rw [weekday, weekday]
    congr 1
    omega
  rw [ProcessingSchedule.windowOf, ProcessingSchedule.windowOf, hweekday]

/-- The windows of a weekday are a whole number of weeks apart. -/
theorem windowOn_sub (h : s.windowOn date = some w) (k : ℤ) :
    ∃ v, s.windowOn (date - 7 * k) = some v ∧ v.1 = w.1 - 7 * k * day := by
  obtain ⟨v, hv, rfl⟩ := windowOn_eq_some.mp h
  refine ⟨_, windowOn_eq_some.mpr ⟨v, (windowOf_sub date k).symm ▸ hv, rfl⟩, ?_⟩
  simp only [midnight]
  ring

/-- Every window to come is listed, or one of the same weekday that opens earlier is. -/
theorem exists_listed (h : s.WithinDay) (hw : s.windowOn date = some w) (hlater : nowLocal < w.1) :
    ∃ v ∈ s.windowsAround (nowLocal / day), nowLocal < v.1 ∧ v.1 ≤ w.1 := by
  have hday : (0 : ℤ) < day := by decide
  have hfrom : nowLocal / day ≤ date := by
    have hend := (windowOn_bounds h hw).2.1
    by_contra hearly
    have hnext : midnight (date + 1) ≤ nowLocal := midnight_le_iff.mpr (by omega)
    omega
  by_cases hto : date ≤ nowLocal / day + 7
  · exact ⟨w, mem_windowsAround.mpr ⟨date, by omega, hto, hw⟩, hlater, le_rfl⟩
  · -- the same weekday, in the seven days after today
    let k := (date - nowLocal / day - 1) / 7
    obtain ⟨v, hv, hstart⟩ := windowOn_sub hw k
    have hk : 0 ≤ 7 * k := by omega
    have hopens := (windowOn_bounds h hv).1
    have hnow : nowLocal < midnight (date - 7 * k) := by
      by_contra hbefore
      have := midnight_le_iff.mp (not_lt.mp hbefore)
      omega
    refine ⟨v, mem_windowsAround.mpr ⟨date - 7 * k, by omega, by omega, hv⟩, by omega, ?_⟩
    have := mul_nonneg hk hday.le
    omega

/-- A window that is open later on and not yet is listed, or an earlier one is. -/
theorem listed_of_openAt (h : s.WithinDay) (hclosed : ¬s.OpenAt nowLocal) (hopen : s.OpenAt t)
    (hle : nowLocal ≤ t) :
    ∃ v ∈ s.windowsAround (nowLocal / day), nowLocal < v.1 ∧ v.1 ≤ t := by
  obtain ⟨date, w, hw, hinside⟩ := openAt_iff.mp hopen
  have hlater : nowLocal < w.1 := by
    by_contra hbefore
    exact hclosed (openAt_iff.mpr ⟨date, w, hw, not_lt.mp hbefore, hle.trans_lt hinside.2⟩)
  obtain ⟨v, hv, hnow, hfirst⟩ := exists_listed h hw hlater
  exact ⟨v, hv, hnow, hfirst.trans hinside.1⟩

/-- What is listed to open is merged into a window that opens no later. -/
theorem merged_of_listed (h : s.WithinDay) (hclosed : ¬s.OpenAt nowLocal)
    (hw : w ∈ s.windowsAround (nowLocal / day)) (hlater : nowLocal < w.1) :
    ∃ m ∈ s.mergedWindows (nowLocal / day), nowLocal < m.1 ∧ m.1 ≤ w.1 := by
  obtain ⟨m, hm, hstart, hstop⟩ := (merged_windows h _).within w hw
  refine ⟨m, hm, ?_, hstart⟩
  by_contra hbefore
  exact hclosed ((covers_iff_openAt h nowLocal).mp ⟨m, hm, not_lt.mp hbefore, hlater.trans_le hstop⟩)

/-! ## The verdict -/

theorem live_later (hlive : live now s.activeOverride = none) (hle : now ≤ now') :
    live now' s.activeOverride = none := by
  rw [← live_live hle, hlive, live_none]

theorem closed_iff (h : s.WithinDay) (henabled : s.enabled = true)
    (hlive : live now s.activeOverride = none) :
    (s.decide nowLocal now).allowed = false ↔ ¬s.OpenAt nowLocal := by
  rw [← allowed_iff h henabled hlive, Bool.not_eq_true]

/-- The first of the merged windows that has not opened yet. -/
def ProcessingSchedule.nextWindow (s : ProcessingSchedule) (nowLocal : ℤ) : Option (ℤ × ℤ) :=
  (s.mergedWindows (nowLocal / day)).find? fun w => nowLocal < w.1

theorem nextChange_of_closed (h : s.WithinDay) (henabled : s.enabled = true)
    (hlive : live now s.activeOverride = none) (hclosed : ¬s.OpenAt nowLocal) :
    (s.decide nowLocal now).nextChangeSecs =
      (s.nextWindow nowLocal).map fun m => (m.1 - nowLocal) / second := by
  rw [decide_windows henabled hlive]
  have hnone : ((s.mergedWindows (nowLocal / day)).find? fun w =>
      w.1 ≤ nowLocal && nowLocal < w.2) = none := by
    rw [← Option.not_isSome_iff_eq_none, find?_inside_isSome, covers_iff_openAt h]
    exact hclosed
  simp only [hnone]
  rfl

theorem nextChange_of_inWindow (henabled : s.enabled = true)
    (hlive : live now s.activeOverride = none)
    (hreason : (s.decide nowLocal now).reason = .inWindow) :
    ∃ m ∈ s.mergedWindows (nowLocal / day), Inside m nowLocal ∧
      (s.decide nowLocal now).nextChangeSecs = some ((m.2 - nowLocal) / second) := by
  rw [decide_windows henabled hlive] at hreason ⊢
  dsimp only at hreason ⊢
  cases hfind : (s.mergedWindows (nowLocal / day)).find? fun w =>
      w.1 ≤ nowLocal && nowLocal < w.2 with
  | none =>
    rw [hfind] at hreason
    cases hreason
  | some m =>
    have hinside := List.find?_some hfind
    simp only [Bool.and_eq_true, decide_eq_true_eq] at hinside
    exact ⟨m, List.mem_of_find?_eq_some hfind, hinside, rfl⟩

/-- No merged window opens between now and the next one. -/
theorem nextWindow_spec (h : s.WithinDay) (hnext : s.nextWindow nowLocal = some m) :
    m ∈ s.mergedWindows (nowLocal / day) ∧ nowLocal < m.1 ∧
      ∀ v ∈ s.mergedWindows (nowLocal / day), nowLocal < v.1 → m.1 ≤ v.1 := by
  have hmem := List.mem_of_find?_eq_some hnext
  obtain ⟨hlater, earlier, later, hsplit, hbefore⟩ := List.find?_eq_some_iff_append.mp hnext
  refine ⟨hmem, of_decide_eq_true hlater, ?_⟩
  intro v hv hvlater
  have hseparated := (merged_windows h (nowLocal / day)).separated
  rw [hsplit] at hv hseparated
  rcases List.mem_append.mp hv with hv | hv
  · have := hbefore v hv
    simp [hvlater] at this
  · rcases List.mem_cons.mp hv with rfl | hv
    · exact le_rfl
    · have hafter := List.rel_of_pairwise_cons (List.pairwise_append.mp hseparated).2.1 hv
      exact ((merged_windows h _).proper m hmem).trans hafter.le

/-- While it is closed, it stays closed until the next window. -/
theorem closed_before (h : s.WithinDay) (hclosed : ¬s.OpenAt nowLocal) (hle : nowLocal ≤ t)
    (hbefore : ∀ m ∈ s.nextWindow nowLocal, t < m.1) : ¬s.OpenAt t := by
  intro hopen
  obtain ⟨v, hv, hlater, hstart⟩ := listed_of_openAt h hclosed hopen hle
  obtain ⟨m, hm, hmlater, hmstart⟩ := merged_of_listed h hclosed hv hlater
  cases hnext : s.nextWindow nowLocal with
  | none =>
    have := List.find?_eq_none.mp hnext m hm
    simp [hmlater] at this
  | some first =>
    have hfirst := (nextWindow_spec h hnext).2.2 m hm hmlater
    have := hbefore first hnext
    omega

/-! ## Whole seconds -/

theorem second_dvd (date : ℤ) (k : ℕ) : (second : ℤ) ∣ midnight date + k * minute :=
  dvd_add (Dvd.dvd.mul_left (by decide) _) (Dvd.dvd.mul_left (by decide) _)

theorem second_dvd_windowOn (h : s.windowOn date = some w) :
    (second : ℤ) ∣ w.1 ∧ (second : ℤ) ∣ w.2 := by
  obtain ⟨v, -, rfl⟩ := windowOn_eq_some.mp h
  exact ⟨second_dvd _ _, dvd_add (second_dvd _ _) (Dvd.dvd.mul_left (by decide) _)⟩

theorem second_dvd_merged (h : s.WithinDay) {anchor : ℤ} (hm : m ∈ s.mergedWindows anchor) :
    (second : ℤ) ∣ m.1 ∧ (second : ℤ) ∣ m.2 := by
  obtain ⟨v, hv, hstart⟩ := (merged_windows h anchor).starts m hm
  obtain ⟨w, hw, hstop⟩ := (merged_windows h anchor).stops m hm
  obtain ⟨_, -, -, hv⟩ := mem_windowsAround.mp hv
  obtain ⟨_, -, -, hw⟩ := mem_windowsAround.mp hw
  rw [← hstart, ← hstop]
  exact ⟨(second_dvd_windowOn hv).1, (second_dvd_windowOn hw).2⟩

/-- The number of seconds leads to the edge itself. -/
theorem add_seconds (hnow : (second : ℤ) ∣ nowLocal) (ht : (second : ℤ) ∣ t) :
    nowLocal + (t - nowLocal) / second * second = t := by
  rw [Int.ediv_mul_cancel (dvd_sub ht hnow), add_sub_cancel]

/-! ## The end of a window -/

theorem openAt_of_merged (h : s.WithinDay) {anchor : ℤ} (hm : m ∈ s.mergedWindows anchor)
    (ht : Inside m t) : s.OpenAt t := by
  obtain ⟨w, hw, hinside⟩ := ((merged_windows h anchor).covers t).mp ⟨m, hm, ht⟩
  obtain ⟨date, -, -, hw⟩ := mem_windowsAround.mp hw
  exact openAt_iff.mpr ⟨date, w, hw, hinside⟩

theorem midnight_mono {a b : ℤ} (h : a ≤ b) : midnight a ≤ midnight b :=
  mul_le_mul_of_nonneg_right h (by decide)

/-- Nothing is open as a merged window ends, as far as the listed dates go. -/
theorem not_openAt_stop (h : s.WithinDay) (hm : m ∈ s.mergedWindows (nowLocal / day))
    (hinside : Inside m nowLocal) (hnear : m.2 < midnight (nowLocal / day + 8)) :
    ¬s.OpenAt m.2 := by
  intro hopen
  obtain ⟨date, w, hw, hw_inside⟩ := openAt_iff.mp hopen
  have hbounds := windowOn_bounds h hw
  have hto : date < nowLocal / day + 8 := by
    by_contra hlate
    have := midnight_mono (not_lt.mp hlate)
    exact absurd hw_inside.1 (by omega)
  have hfrom : nowLocal / day < date + 2 := by
    by_contra hearly
    have := midnight_le_iff.mpr (not_lt.mp hearly)
    exact absurd (hinside.2.trans hw_inside.2) (by omega)
  have hlisted : w ∈ s.windowsAround (nowLocal / day) :=
    mem_windowsAround.mpr ⟨date, by omega, by omega, hw⟩
  obtain ⟨v, hv, hv_inside⟩ := ((merged_windows h _).covers m.2).mpr ⟨w, hlisted, hw_inside⟩
  have : Std.Symm fun v w : ℤ × ℤ => v.2 < w.1 ∨ w.2 < v.1 := ⟨fun _ _ => Or.symm⟩
  have hapart := ((merged_windows h (nowLocal / day)).separated.imp
    (S := fun v w => v.2 < w.1 ∨ w.2 < v.1) Or.inl).forall hm hv
  have hproper := (merged_windows h _).proper m hm
  by_cases heq : m = v
  · subst heq
    exact lt_irrefl _ hv_inside.2
  · rcases hapart heq with hbefore | hafter
    · exact absurd hv_inside.1 (not_le.mpr hbefore)
    · exact absurd hv_inside.2 (not_lt.mpr (hafter.le.trans hproper))

/-! ## Windows of no length -/

theorem lengthMinutes_eq_zero {v : DayWindow} (hstart : v.start ≤ minutesPerDay) :
    v.lengthMinutes = 0 ↔ v.start = minutesPerDay ∧ v.stop = 0 := by
  rw [DayWindow.lengthMinutes, minutesPerDay] at *
  split <;> omega

theorem midnight_next (date : ℤ) : midnight (date + 1) = midnight date + minutesPerDay * minute := by
  rw [midnight_add, one_mul]
  rfl

/-- A window opens with some length, or it is from 1440 to 0. -/
theorem opens_or (h : s.WithinDay) (hw : s.windowOn date = some w) :
    s.OpenAt w.1 ∨ w.1 = midnight (date + 1) ∧
      ∃ v ∈ s.windowOf date, v.start = minutesPerDay ∧ v.stop = 0 := by
  obtain ⟨v, hv, rfl⟩ := windowOn_eq_some.mp hw
  by_cases hlength : v.lengthMinutes = 0
  · have hedges := (lengthMinutes_eq_zero (windowOf_edges h hv).1).mp hlength
    refine .inr ⟨?_, v, hv, hedges⟩
    rw [midnight_next, hedges.1]
  · left
    refine openAt_iff.mpr ⟨date, _, hw, le_rfl, ?_⟩
    have hminute : (0 : ℤ) < minute := by decide
    have hpos : (0 : ℤ) < v.lengthMinutes := by omega
    have := mul_pos hpos hminute
    dsimp only
    omega

/-! ## What is announced -/

theorem withinDay_of_validateDays (h : validateDays s.days = none) : s.WithinDay := by
  have hvalid : (⟨s.enabled, s.days, 0⟩ : SetScheduleRequest).validate = none := by
    rw [SetScheduleRequest.validate, h]
    rfl
  exact (normal_of_validate hvalid s.activeOverride).edges

section Verdicts
variable (h : s.WithinDay) (henabled : s.enabled = true)
  (hlive : live now s.activeOverride = none)

include h henabled hlive

/-- What is announced to open is the next window. -/
theorem announced_opens (hseconds : (second : ℤ) ∣ nowLocal) {n : ℤ}
    (hclosed : ¬s.OpenAt nowLocal) (hsecs : (s.decide nowLocal now).nextChangeSecs = some n) :
    ∃ m, s.nextWindow nowLocal = some m ∧ nowLocal + n * second = m.1 := by
  rw [nextChange_of_closed h henabled hlive hclosed, Option.map_eq_some_iff] at hsecs
  obtain ⟨m, hnext, rfl⟩ := hsecs
  exact ⟨m, hnext, add_seconds hseconds (second_dvd_merged h (nextWindow_spec h hnext).1).1⟩

/-- A window of no length is announced and never opens, so another one has to open by then. -/
theorem opensByThen_of_real (hseconds : (second : ℤ) ∣ nowLocal)
    (hreal : NextChangeReal s nowLocal now) : OpensByThen s nowLocal := by
  rintro date ⟨v, hv, hstart, hstop⟩ hlater
  by_contra hnever
  push Not at hnever
  have hclosed : ¬s.OpenAt nowLocal := hnever nowLocal le_rfl hlater.le
  have hw := windowOn_eq_some.mpr ⟨v, hv, rfl⟩
  obtain ⟨w, hlisted, hwlater, hwstart⟩ := exists_listed h hw (by
    rwa [hstart, ← midnight_next])
  obtain ⟨m, hm, hmlater, hmstart⟩ := merged_of_listed h hclosed hlisted hwlater
  rw [hstart, ← midnight_next] at hwstart
  cases hnext : s.nextWindow nowLocal with
  | none =>
    have := List.find?_eq_none.mp hnext m hm
    simp [hmlater] at this
  | some first =>
    obtain ⟨hfirst, hlater', hleast⟩ := nextWindow_spec h hnext
    have hsecs := nextChange_of_closed h henabled hlive hclosed
    rw [hnext, Option.map_some] at hsecs
    have hopens := (hreal.closedUntil _ ((closed_iff h henabled hlive).mpr hclosed) hsecs).2 now
      le_rfl
    rw [add_seconds hseconds (second_dvd_merged h hfirst).1, allowed_iff h henabled hlive] at hopens
    have hm := hleast m hm hmlater
    exact hnever first.1 hlater'.le (by omega) hopens

omit henabled hlive in
/-- Where a window of no length is never the next one, the next one opens. -/
theorem nextWindow_opens (hopens : OpensByThen s nowLocal) (hclosed : ¬s.OpenAt nowLocal)
    (hnext : s.nextWindow nowLocal = some m) : s.OpenAt m.1 := by
  obtain ⟨hm, hlater, -⟩ := nextWindow_spec h hnext
  obtain ⟨w, hw, hstart⟩ := (merged_windows h _).starts m hm
  obtain ⟨date, -, -, hw⟩ := mem_windowsAround.mp hw
  obtain hopen | ⟨hmidnight, hempty⟩ := opens_or h hw
  · rwa [← hstart]
  · rw [← hstart, hmidnight] at hlater ⊢
    obtain ⟨t, hle, hto, hopen⟩ := hopens date hempty hlater
    obtain hlt | heq := hto.lt_or_eq
    · rw [← hmidnight, hstart] at hlt
      exact absurd hopen (closed_before h hclosed hle (by simpa [hnext] using hlt))
    · rwa [← heq]

/-- What is announced comes true where no window of no length is the next to open. -/
theorem real_of_opensByThen (hseconds : (second : ℤ) ∣ nowLocal)
    (hopens : OpensByThen s nowLocal) : NextChangeReal s nowLocal now := by
  constructor
  · intro n hclosed hsecs
    rw [closed_iff h henabled hlive] at hclosed
    obtain ⟨m, hnext, hedge⟩ := announced_opens h henabled hlive hseconds hclosed hsecs
    rw [hedge]
    constructor
    · intro t now' hle hlt hnow
      rw [closed_iff h henabled (live_later hlive hnow)]
      exact closed_before h hclosed hle (by simpa [hnext] using hlt)
    · intro now' hnow
      rw [allowed_iff h henabled (live_later hlive hnow)]
      exact nextWindow_opens h hopens hclosed hnext
  · intro hclosed hsecs t now' hle hnow
    rw [closed_iff h henabled hlive] at hclosed
    rw [nextChange_of_closed h henabled hlive hclosed, Option.map_eq_none_iff] at hsecs
    rw [closed_iff h henabled (live_later hlive hnow)]
    apply closed_before h hclosed hle
    rw [hsecs]
    exact nofun
  · intro n hreason hsecs
    obtain ⟨m, hm, hinside, hsecs'⟩ := nextChange_of_inWindow henabled hlive hreason
    obtain rfl : (m.2 - nowLocal) / second = n := Option.some_inj.mp (hsecs'.symm.trans hsecs)
    rw [add_seconds hseconds (second_dvd_merged h hm).2]
    constructor
    · intro t now' hle hlt hnow
      rw [allowed_iff h henabled (live_later hlive hnow)]
      exact openAt_of_merged h hm ⟨hinside.1.trans hle, hlt⟩
    · intro hnear now' hnow
      rw [closed_iff h henabled (live_later hlive hnow)]
      exact not_openAt_stop h hm hinside hnear

end Verdicts

/-- What is announced comes true exactly where no window of no length is the next to open. -/
theorem nextChangeReal_iff (hdays : validateDays s.days = none) (henabled : s.enabled = true)
    (hlive : live now s.activeOverride = none) (hseconds : (second : ℤ) ∣ nowLocal) :
    NextChangeReal s nowLocal now ↔ OpensByThen s nowLocal := by
  have h := withinDay_of_validateDays hdays
  constructor
  · exact opensByThen_of_real h henabled hlive hseconds
  · exact real_of_opensByThen h henabled hlive hseconds

/-- Nine to five on weekdays, nothing at the weekend, on. -/
def workweek : ProcessingSchedule := { ProcessingSchedule.default with enabled := true }

theorem nextChangeReal_iff_workweek :
    NextChangeReal workweek (midnight 4) 0 ↔ OpensByThen workweek (midnight 4) :=
  nextChangeReal_iff (by decide) rfl rfl (by decide)

/-- Only Monday has a window, from 1440 to 0. -/
def emptyMonday : ProcessingSchedule :=
  ⟨true, ⟨true, 1440, 0⟩ :: List.replicate 6 .off, 10, none⟩

/-- On Monday noon the window is announced for midnight, and then it is closed. -/
theorem not_nextChangeReal : validateDays emptyMonday.days = none ∧ emptyMonday.enabled = true ∧
    live 0 emptyMonday.activeOverride = none ∧ (second : ℤ) ∣ midnight 4 + 720 * minute ∧
    ¬NextChangeReal emptyMonday (midnight 4 + 720 * minute) 0 := by
  refine ⟨by decide, rfl, rfl, by decide, ?_⟩
  intro h
  have hopens := (h.closedUntil 43200 (by decide) (by decide)).2 0 le_rfl
  revert hopens
  decide

end ScribeLocal.Schedule
