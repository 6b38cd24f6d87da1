import Mathlib.Data.UInt
import PackedGraph.Workers.Progress

/-!
# One message for every step that is crossed

The percentage from which the next message is due is always the end of the step in which the task is.  That
invariant turns the comparison that a report makes into a statement about steps: the report says something
exactly if the task has left the step in which it was.  Everything else about the messages of a whole run
follows from the steps that they end, which ascend and are at most as many as fit into 100 percent.

In words nothing is different as long as 100 times the volume and the units of all reports are words.

Main statements: `Progress.report_eq` for one report, `Progress.reportAll_eq` for a run,
`Tracker.report?_toProgress` and `Tracker.reportAll?_toProgress` for words, and `messages_at_crossed_steps`.
-/

namespace PackedGraph

/-! ## Percentages -/

namespace Progress

/-- The percentage that is complete after so many units of a volume. -/
def percentOf (volume units : Nat) : Nat := min units volume * 100 / volume

theorem percent_eq (p : Progress) : p.percent = percentOf p.volume p.done := rfl

theorem percentOf_mono (volume : Nat) {a b : Nat} (h : a ≤ b) : percentOf volume a ≤ percentOf volume b :=
  Nat.div_le_div_right (Nat.mul_le_mul_right _ (min_le_min_right _ h))

theorem percentOf_le (volume units : Nat) : percentOf volume units ≤ 100 :=
  Nat.div_le_of_le_mul (Nat.mul_le_mul_right _ (min_le_right _ _))

/-- Behind the volume the percentage stands still. -/
theorem percentOf_of_le {volume units : Nat} (h : volume ≤ units) :
    percentOf volume units = percentOf volume volume := by
  rw [percentOf, percentOf, Nat.min_eq_right h, Nat.min_self]

/-! ## The steps that reports cross -/

/-- The percentages at which reports leave a step of so many percent, from a number of units on. -/
def crossings (volume granularity : Nat) : (before : Nat) → (reports : List Nat) → List Nat
  | _, [] => []
  | before, units :: reports =>
    let percent := percentOf volume (before + units)
    if percentOf volume before / granularity < percent / granularity then
      percent :: crossings volume granularity (before + units) reports
    else crossings volume granularity (before + units) reports

variable {volume granularity : Nat}

/-- What is crossed lies in a later step than the start. -/
theorem lt_of_mem_crossings {percent : Nat} (reports : List Nat) :
    ∀ {before : Nat}, percent ∈ crossings volume granularity before reports →
      percentOf volume before / granularity < percent / granularity := by
  induction reports with
  | nil =>
    intro before h
    exact absurd h (List.not_mem_nil)
  | cons units reports ih =>
    intro before h
    have hmono : percentOf volume before / granularity ≤ percentOf volume (before + units) / granularity :=
      Nat.div_le_div_right (percentOf_mono volume (Nat.le_add_right before units))
    rw [crossings] at h
    split at h
    case isTrue hcross =>
      rcases List.mem_cons.mp h with rfl | hlater
      · exact hcross
      · exact lt_of_le_of_lt hmono (ih hlater)
    case isFalse => exact lt_of_le_of_lt hmono (ih h)

/-- No two crossings lie in one step, and they come in ascending order. -/
theorem pairwise_crossings (volume granularity : Nat) (reports : List Nat) :
    ∀ before : Nat,
      (crossings volume granularity before reports).Pairwise fun a b => a / granularity < b / granularity := by
  induction reports with
  | nil => exact fun _ => List.Pairwise.nil
  | cons units reports ih =>
    intro before
    rw [crossings]
    split
    case isTrue => exact List.pairwise_cons.mpr ⟨fun _ => lt_of_mem_crossings reports, ih _⟩
    case isFalse => exact ih _

/-- Every crossing uses up one of the steps that are left. -/
theorem length_crossings_le (reports : List Nat) :
    ∀ before : Nat,
      (crossings volume granularity before reports).length + percentOf volume before / granularity ≤
        100 / granularity := by
  induction reports with
  | nil =>
    intro before
    rw [crossings, List.length_nil, Nat.zero_add]
    exact Nat.div_le_div_right (percentOf_le volume before)
  | cons units reports ih =>
    intro before
    have hrest := ih (before + units)
    have hmono : percentOf volume before / granularity ≤ percentOf volume (before + units) / granularity :=
      Nat.div_le_div_right (percentOf_mono volume (Nat.le_add_right before units))
    rw [crossings]
    split
    case isTrue =>
      rw [List.length_cons]
      omega
    case isFalse => omega

/-! ## One report -/

/-- What is said at a percentage. -/
def line (task : String) (percent : Nat) : String := task ++ " " ++ toString percent ++ "%"

/-- The next message is due at the end of the step in which the task is. -/
structure Due (p : Progress) : Prop where
  /-- There is something to do. -/
  volume_pos : 0 < p.volume
  /-- A step is at least one percent. -/
  granularity_pos : 0 < p.granularity
  /-- The end of the step in which the task is. -/
  next_eq : p.next = (p.percent / p.granularity + 1) * p.granularity

/-- After some more units, with the next message due at the end of the step that is reached. -/
def after (p : Progress) (units : Nat) : Progress :=
  { p with
    done := p.done + units
    next := (percentOf p.volume (p.done + units) / p.granularity + 1) * p.granularity }

theorem due_new (task : String) (h : 0 < volume) (granularity : Nat) : (new task volume granularity).Due where
  volume_pos := h
  granularity_pos := lt_of_lt_of_le Nat.one_pos (le_max_left _ _)
  next_eq := by simp [new, percent]

variable {p : Progress}

theorem Due.due_after (h : p.Due) (units : Nat) : (p.after units).Due := ⟨h.volume_pos, h.granularity_pos, rfl⟩

theorem Due.after_zero (h : p.Due) : p.after 0 = p := by
  rw [after, Nat.add_zero, ← percent_eq, ← h.next_eq]

/-- The next message is due exactly if the step has been left. -/
theorem Due.next_le_iff (h : p.Due) (percent : Nat) :
    p.next ≤ percent ↔ p.percent / p.granularity < percent / p.granularity := by
  rw [h.next_eq, ← Nat.le_div_iff_mul_le h.granularity_pos]
  exact Nat.succ_le_iff

/-- A report counts its units, says something exactly if it leaves the step, and then waits for the end of
the step that is reached. -/
theorem report_eq (h : p.Due) (units : Nat) :
    p.report units =
      (p.after units,
        if p.percent / p.granularity < percentOf p.volume (p.done + units) / p.granularity then
          [line p.task (percentOf p.volume (p.done + units))]
        else []) := by
  have hmono : p.percent ≤ percentOf p.volume (p.done + units) :=
    percentOf_mono p.volume (Nat.le_add_right p.done units)
  rw [report]
  by_cases hunits : units = 0
  · subst hunits
    rw [if_pos rfl, h.after_zero, Nat.add_zero, ← percent_eq, if_neg (Nat.lt_irrefl _)]
  · have hstep : p.next ≤ percentOf p.volume (p.done + units) ∧ p.next ≤ 100 ↔
        p.percent / p.granularity < percentOf p.volume (p.done + units) / p.granularity := by
      rw [← h.next_le_iff]
      exact ⟨And.left, fun hdue => ⟨hdue, hdue.trans (percentOf_le _ _)⟩⟩
    rw [if_neg hunits]
    dsimp only
    rw [if_neg h.volume_pos.ne', percent_eq]
    dsimp only
    by_cases hcross : p.percent / p.granularity < percentOf p.volume (p.done + units) / p.granularity
    · rw [if_pos (hstep.mpr hcross), if_pos hcross]
      rfl
    · -- the step is the same, so its end is too
      have hsame : percentOf p.volume (p.done + units) / p.granularity = p.percent / p.granularity :=
        Nat.le_antisymm (Nat.not_lt.mp hcross) (Nat.div_le_div_right hmono)
      rw [if_neg (mt hstep.mp hcross), if_neg hcross, after, hsame, ← h.next_eq]

/-! ## A run -/

/-- What has been said before stands in front of everything that a run says. -/
theorem foldl_report {step : Progress × List String → Nat → Progress × List String}
    (hstep : ∀ p said units, step (p, said) units = ((p.report units).1, said ++ (p.report units).2))
    (reports : List Nat) :
    ∀ (p : Progress) (said : List String), reports.foldl step (p, said) =
      ((reports.foldl step (p, [])).1, said ++ (reports.foldl step (p, [])).2) := by
  induction reports with
  | nil => exact fun p said => by rw [List.foldl_nil, List.foldl_nil, List.append_nil]
  | cons units reports ih =>
    intro p said
    rw [List.foldl_cons, List.foldl_cons, hstep, hstep, ih, ih _ ([] ++ _), List.nil_append, List.append_assoc]

/-- Reports are made one after the other. -/
theorem reportAll_cons (p : Progress) (units : Nat) (reports : List Nat) :
    p.reportAll (units :: reports) =
      (((p.report units).1.reportAll reports).1,
        (p.report units).2 ++ ((p.report units).1.reportAll reports).2) := by
  rw [reportAll, List.foldl_cons]
  exact foldl_report (fun _ _ _ => rfl) reports _ _

/-- A run counts all units, and says the percentages at which it leaves a step. -/
theorem reportAll_eq (reports : List Nat) :
    ∀ {p : Progress}, p.Due →
      p.reportAll reports =
        (p.after reports.sum, (crossings p.volume p.granularity p.done reports).map (line p.task)) := by
  induction reports with
  | nil =>
    intro p h
    rw [List.sum_nil, h.after_zero]
    rfl
  | cons units reports ih =>
    intro p h
    have hrest := ih (h.due_after units)
    have hsum : (p.after units).after reports.sum = p.after (units + reports.sum) := by
      simp only [after, Nat.add_assoc]
    rw [reportAll_cons, report_eq h, hrest, hsum, List.sum_cons, crossings]
    by_cases hcross : p.percent / p.granularity < percentOf p.volume (p.done + units) / p.granularity
    · rw [if_pos hcross, if_pos (by exact hcross)]
      rfl
    · rw [if_neg hcross, if_neg (by exact hcross)]
      rfl

end Progress

/-! ## In words -/

theorem productOfWords?_eq {a b : UInt64} (h : a.toNat * b.toNat < UInt64.size) :
    ∃ product, productOfWords? a b = some product ∧ product.toNat = a.toNat * b.toNat :=
  ⟨a * b, if_pos h, by rw [UInt64.toNat_mul]; exact Nat.mod_eq_of_lt h⟩

theorem sumOfWords?_eq {a b : UInt64} (h : a.toNat + b.toNat < UInt64.size) :
    ∃ sum, sumOfWords? a b = some sum ∧ sum.toNat = a.toNat + b.toNat :=
  ⟨a + b, if_pos h, by rw [UInt64.toNat_add]; exact Nat.mod_eq_of_lt h⟩

namespace Tracker

/-- The natural numbers that the words are. -/
def toProgress (t : Tracker) : Progress :=
  ⟨t.task, t.volume.toNat, t.granularity.toNat, t.done.toNat, t.next.toNat⟩

/-- Percentages can be taken in words. -/
structure Fits (t : Tracker) : Prop where
  /-- Every product of a percentage is a word. -/
  volume : 100 * t.volume.toNat < UInt64.size
  /-- A step is at least one percent. -/
  granularity_pos : 0 < t.granularity.toNat
  /-- A step is at most 100 percent. -/
  granularity_le : t.granularity.toNat ≤ 100

theorem toProgress_new (task : String) (volume granularity : UInt64) :
    (new task volume granularity).toProgress = Progress.new task volume.toNat granularity.toNat := by
  simp [new, toProgress, Progress.new, UInt64.toNat_max, UInt64.toNat_min]

theorem fits_new (task : String) {volume : UInt64} (h : 100 * volume.toNat < UInt64.size)
    (granularity : UInt64) : (new task volume granularity).Fits where
  volume := h
  granularity_pos := by simp [new, UInt64.toNat_max, UInt64.toNat_min]
  granularity_le := by simp [new, UInt64.toNat_max, UInt64.toNat_min]

variable {t : Tracker} {tries : Nat}

theorem Fits.percent?_eq (h : t.Fits) :
    ∃ percent, t.percent? = some percent ∧ percent.toNat = t.toProgress.percent := by
  have hword : (min t.done t.volume).toNat * (100 : UInt64).toNat < UInt64.size := by
    have := h.volume
    rw [UInt64.toNat_min, show (100 : UInt64).toNat = 100 from rfl]
    omega
  obtain ⟨product, hproduct, hnat⟩ := productOfWords?_eq hword
  refine ⟨product / t.volume, by rw [percent?, hproduct, Option.map_some], ?_⟩
  rw [UInt64.toNat_div, hnat, UInt64.toNat_min]
  rfl

/-- The end of a step that is reached is a word. -/
theorem Fits.stepBehind?_eq (h : t.Fits) (percent : UInt64) (hpercent : percent.toNat ≤ 100) :
    ∃ moved, t.stepBehind? percent = some moved ∧
      moved.toNat = (percent.toNat / t.granularity.toNat + 1) * t.granularity.toNat := by
  have hle := h.granularity_le
  have hsteps := Nat.div_mul_le_self percent.toNat t.granularity.toNat
  have hquotient := Nat.div_le_self percent.toNat t.granularity.toNat
  have hone : (1 : UInt64).toNat = 1 := rfl
  obtain ⟨steps, hsum, hstepsNat⟩ := @sumOfWords?_eq (percent / t.granularity) 1 (by
    rw [UInt64.toNat_div, hone, UInt64.size]
    omega)
  rw [UInt64.toNat_div, hone] at hstepsNat
  obtain ⟨moved, hproduct, hmoved⟩ := @productOfWords?_eq steps t.granularity (by
    rw [hstepsNat, Nat.add_mul, UInt64.size]
    omega)
  exact ⟨moved, by rw [stepBehind?, hsum, Option.bind_some, hproduct], by rw [hmoved, hstepsNat]⟩

/-- Where nobody is faster, the first exchange is the one that says the message, as a report in numbers does. -/
theorem Fits.announce?_eq (h : t.Fits) (htries : 0 < tries) {percent : UInt64}
    (hpercent : percent.toNat = t.toProgress.percent) :
    ∃ t' said, t.announce? percent tries t.next = some (t', said) ∧
      (if t.next.toNat ≤ t.toProgress.percent ∧ t.next.toNat ≤ 100 then
        ({ t.toProgress with
            next := (t.toProgress.percent / t.granularity.toNat + 1) * t.granularity.toNat },
          [t.task ++ " " ++ toString t.toProgress.percent ++ "%"])
      else (t.toProgress, [])) = (t'.toProgress, said) ∧
      t'.Fits ∧ t'.done = t.done := by
  obtain ⟨tries, rfl⟩ := Nat.exists_eq_succ_of_ne_zero htries.ne'
  have hdue : t.next ≤ percent ∧ t.next ≤ 100 ↔ t.next.toNat ≤ t.toProgress.percent ∧ t.next.toNat ≤ 100 := by
    rw [UInt64.le_iff_toNat_le, UInt64.le_iff_toNat_le, hpercent]
    rfl
  rw [announce?]
  by_cases hnext : t.next ≤ percent ∧ t.next ≤ 100
  · obtain ⟨moved, hmoved, hmovedNat⟩ := h.stepBehind?_eq percent (by
      rw [hpercent]
      exact Progress.percentOf_le _ _)
    rw [if_pos hnext, if_pos (hdue.mp hnext), hmoved, Option.bind_some, if_pos rfl]
    refine ⟨_, _, rfl, ?_, ⟨h.volume, h.granularity_pos, h.granularity_le⟩, rfl⟩
    rw [← hpercent]
    simp only [toProgress, hmovedNat]
  · rw [if_neg hnext, if_neg (mt hdue.mpr hnext)]
    exact ⟨t, [], rfl, rfl, h, rfl⟩

/-- The words of a report are the numbers of a report. -/
theorem report?_toProgress (h : t.Fits) (htries : 0 < tries) (units : UInt64)
    (hdone : t.done.toNat + units.toNat < UInt64.size) :
    ∃ t' said, t.report? tries units = some (t', said) ∧ t.toProgress.report units.toNat = (t'.toProgress, said) ∧
      t'.Fits ∧ t'.done.toNat = t.done.toNat + units.toNat := by
  rw [report?, Progress.report]
  by_cases hunits : units = 0
  · subst hunits
    rw [if_pos rfl, if_pos (by rfl)]
    exact ⟨t, [], rfl, rfl, h, rfl⟩
  have hunitsNat : units.toNat ≠ 0 := fun hzero => hunits (UInt64.toNat_inj.mp hzero)
  obtain ⟨done, hsum, hdoneNat⟩ := sumOfWords?_eq hdone
  rw [if_neg hunits, if_neg hunitsNat, hsum, Option.bind_some]
  -- the state between counting the units and announcing them
  let counted : Tracker := { t with done := done }
  have hcounted : counted.toProgress = { t.toProgress with done := t.toProgress.done + units.toNat } := by
    simp only [counted, toProgress, hdoneNat]
  have hfits : counted.Fits := ⟨h.volume, h.granularity_pos, h.granularity_le⟩
  rw [← hcounted]
  dsimp only
  by_cases hvolume : t.volume = 0
  · rw [if_pos hvolume, if_pos (by exact congrArg UInt64.toNat hvolume)]
    exact ⟨counted, [], rfl, rfl, hfits, hdoneNat⟩
  · have hvolumeNat : counted.toProgress.volume ≠ 0 := fun hzero => hvolume (UInt64.toNat_inj.mp hzero)
    obtain ⟨percent, hpercent, hpercentNat⟩ := hfits.percent?_eq
    obtain ⟨t', said, hsaid, hnumbers, hfits', hsame⟩ := hfits.announce?_eq htries hpercentNat
    rw [if_neg hvolume, if_neg hvolumeNat, hpercent, Option.bind_some]
    exact ⟨t', said, hsaid, hnumbers, hfits', by rw [hsame]; exact hdoneNat⟩

/-- The words of a run are the numbers of a run. -/
theorem reportAll?_toProgress (htries : 0 < tries) (reports : List UInt64) :
    ∀ {t : Tracker}, t.Fits → t.done.toNat + (reports.map UInt64.toNat).sum < UInt64.size →
      ∃ t' said, t.reportAll? tries reports = some (t', said) ∧
        t.toProgress.reportAll (reports.map UInt64.toNat) = (t'.toProgress, said) ∧ t'.Fits := by
  induction reports with
  | nil => exact fun {t} h _ => ⟨t, [], rfl, rfl, h⟩
  | cons units reports ih =>
    intro t h hdone
    rw [List.map_cons, List.sum_cons] at hdone
    obtain ⟨counted, said, hreport, hnumbers, hfits, hcounted⟩ :=
      report?_toProgress h htries units (by omega)
    obtain ⟨t', later, hrun, hrunNumbers, hfits'⟩ := ih hfits (by omega)
    refine ⟨t', said ++ later, ?_, ?_, hfits'⟩
    · simp only [reportAll?, hreport, Option.bind_some, hrun, Option.map_some]
    · rw [List.map_cons, Progress.reportAll_cons, hnumbers, hrunNumbers]

/-- What a run from the start says, and where it ends. -/
theorem exists_reportAll?_new (task : String) {volume : UInt64} (hvolume : 1 ≤ volume)
    (hproduct : 100 * volume.toNat < UInt64.size) (granularity : UInt64) (htries : 0 < tries)
    (reports : List UInt64) (htotal : (reports.map UInt64.toNat).sum < UInt64.size) :
    ∃ t, (new task volume granularity).reportAll? tries reports =
        some (t, (Progress.crossings volume.toNat (max 1 (min granularity.toNat 100)) 0
          (reports.map UInt64.toNat)).map (Progress.line task)) ∧
      t.Fits ∧ t.toProgress.Due ∧ t.done.toNat = (reports.map UInt64.toNat).sum ∧
      t.toProgress = (Progress.new task volume.toNat granularity.toNat).after (reports.map UInt64.toNat).sum := by
  have hdue : (Progress.new task volume.toNat granularity.toNat).Due :=
    Progress.due_new task (UInt64.le_iff_toNat_le.mp hvolume) _
  obtain ⟨t, said, hrun, hnumbers, hfits⟩ :=
    reportAll?_toProgress htries reports (fits_new task hproduct granularity)
      (by rw [show (new task volume granularity).done.toNat = 0 from rfl, Nat.zero_add]; exact htotal)
  rw [toProgress_new, Progress.reportAll_eq _ hdue, Prod.mk.injEq] at hnumbers
  refine ⟨t, by rw [hrun, ← hnumbers.2]; rfl, hfits, ?_, ?_, hnumbers.1.symm⟩
  · rw [← hnumbers.1]
    exact hdue.due_after _
  · rw [show t.done.toNat = t.toProgress.done from rfl, ← hnumbers.1]
    exact Nat.zero_add _

end Tracker

/-! ## Messages -/

/-- **Progress is said once for every step.**  Take a task of at least one unit, and let 100 times its volume
and the units of all its reports be words.  Then no report breaks down.  Every report counts its units
exactly, and says the percentage that it reaches exactly if that lies in a later step than the percentage
before it; so it says nothing once the volume has been reached.  Over the whole run the percentages ascend
strictly, no two of them lie in one step, and they are at most as many as there are whole steps in 100
percent.  The run in natural numbers is the same. -/
theorem messages_at_crossed_steps (task : String) (volume granularity : UInt64) (tries : Nat)
    (reports : List UInt64) (hvolume : 1 ≤ volume) (hproduct : 100 * volume.toNat < UInt64.size)
    (htotal : (reports.map UInt64.toNat).sum < UInt64.size) (htries : 0 < tries) :
    let tracker := Tracker.new task volume granularity
    let step := fun units => Progress.percentOf volume.toNat units / max 1 (min granularity.toNat 100)
    (∀ before units behind, reports = before ++ units :: behind →
      let done := (before.map UInt64.toNat).sum
      ∃ t t' earlier said, tracker.reportAll? tries before = some (t, earlier) ∧ t.done.toNat = done ∧
        t.report? tries units = some (t', said) ∧ t'.done.toNat = done + units.toNat ∧
        said = (if step done < step (done + units.toNat) then
          [Progress.line task (Progress.percentOf volume.toNat (done + units.toNat))] else []) ∧
        (volume.toNat ≤ done → said = [])) ∧
    ∃ (t : Tracker) (percents : List Nat),
      tracker.reportAll? tries reports = some (t, percents.map (Progress.line task)) ∧
      t.done.toNat = (reports.map UInt64.toNat).sum ∧ percents.Pairwise (· < ·) ∧
      (percents.map (· / max 1 (min granularity.toNat 100))).Pairwise (· < ·) ∧
      percents.length ≤ 100 / max 1 (min granularity.toNat 100) ∧
      (Progress.new task volume.toNat granularity.toNat).reportAll (reports.map UInt64.toNat) =
        (t.toProgress, percents.map (Progress.line task)) := by
  intro tracker step
  constructor
  · rintro before units behind rfl done
    rw [List.map_append, List.sum_append, List.map_cons, List.sum_cons] at htotal
    obtain ⟨t, hrun, hfits, hdue, hdone, hreached⟩ :=
      Tracker.exists_reportAll?_new task hvolume hproduct granularity htries before (by omega)
    obtain ⟨t', said, hreport, hnumbers, -, hdone'⟩ :=
      Tracker.report?_toProgress hfits htries units (by rw [hdone]; omega)
    rw [Progress.report_eq hdue, Prod.mk.injEq, Progress.percent_eq, hreached] at hnumbers
    simp only [Progress.after, Progress.new, Nat.zero_add] at hnumbers
    refine ⟨t, t', _, said, hrun, hdone, hreport, by rw [hdone', hdone], hnumbers.2.symm, fun hcomplete => ?_⟩
    have hstill : step (done + units.toNat) = step done := by
      simp only [step, Progress.percentOf_of_le hcomplete,
        Progress.percentOf_of_le (hcomplete.trans (Nat.le_add_right done units.toNat))]
    rw [← hnumbers.2]
    exact if_neg (not_lt.mpr hstill.le)
  · obtain ⟨t, hrun, -, -, hdone, hreached⟩ :=
      Tracker.exists_reportAll?_new task hvolume hproduct granularity htries reports htotal
    have hpairwise := Progress.pairwise_crossings volume.toNat
      (max 1 (min granularity.toNat 100)) (reports.map UInt64.toNat) 0
    refine ⟨t, _, hrun, hdone, hpairwise.imp Nat.lt_of_div_lt_div, List.pairwise_map.mpr hpairwise,
      (Nat.le_add_right _ _).trans (Progress.length_crossings_le _ 0), ?_⟩
    rw [Progress.reportAll_eq _ (Progress.due_new task (UInt64.le_iff_toNat_le.mp hvolume) _), hreached]
    rfl

/-- Steps of 33 percent of 200 units: the second report crosses one, and the one that completes the task two at
once; the reports of nothing and of units behind the volume say nothing. -/
theorem messages_of_two_hundred_units :
    (1 : UInt64) ≤ 200 ∧ 100 * (200 : UInt64).toNat < UInt64.size ∧
    (([10, 60, 0, 130, 7] : List UInt64).map UInt64.toNat).sum < UInt64.size ∧
    (Tracker.new "load" 200 33).reportAll? 1 [10, 60, 0, 130, 7] =
      some (⟨"load", 200, 33, 207, 132⟩, ["load 35%", "load 100%"]) ∧
    ∃ (t : Tracker) (percents : List Nat),
      (Tracker.new "load" 200 33).reportAll? 1 [10, 60, 0, 130, 7] =
        some (t, percents.map (Progress.line "load")) ∧
      t.done.toNat = 207 ∧ percents.length ≤ 3 := by
  obtain ⟨t, percents, hrun, hdone, -, -, hlength, -⟩ :=
    (messages_at_crossed_steps "load" 200 33 1 [10, 60, 0, 130, 7] (by decide) (by decide) (by decide)
      Nat.one_pos).2
  exact ⟨by decide, by decide, by decide, by decide, t, percents, hrun, hdone, hlength⟩

end PackedGraph
