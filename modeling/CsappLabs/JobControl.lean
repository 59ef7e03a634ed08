/-
# Foreground jobs: `eval`, `do_bgfg`, `waitfg` and the job table

The changes that the shell makes to the job table, one at a time: `eval` adds a
job, `do_bgfg` marks one, and `sigchld_handler` does what an event of a child asks
for, at any moment.  `waitfg` waits until `fgpid` finds no foreground job.

`do_bgfg` writes `jobs->state = FG`, the state of slot 0, whatever job it was
called for; when slot 0 is free this leaves a foreground mark without a job.  Still
at most one slot is marked at a time (`Control.Inv.step`): a mark without a job can
only be in slot 0, and `addjob` fills that slot first.
-/
import CsappLabs.JobTable

namespace Shell

/-! ## Changes of the table -/

/-- `job->state = state`. -/
def Table.setState (t : Table) (i : Fin MAXJOBS) (state : JobState) : Table :=
  { t with jobs := Function.update t.jobs i { t.jobs i with state := state } }

/-- What `waitpid` reports about a child. -/
inductive Event : Type where
  | stopped : Event
  | exited : Event
  | signaled : Event
  | continued : Event
  deriving DecidableEq, Repr

/-- What `sigchld_handler` does with a report about `pid`; `none` when it follows a
null pointer. -/
def childEvent (t : Table) (pid : ℤ) : Event → Option Table
  | .stopped => (getjobpid t pid).map fun job => t.setState job .ST
  | .exited => some (deletejob t pid).1
  | .signaled => (getjobpid t pid).map fun _ => (deletejob t pid).1
  | .continued => some t

/-- The job that the argument of `do_bgfg` names. -/
def findJob (t : Table) (isJob : Bool) (id : ℤ) : Option (Fin MAXJOBS) :=
  if isJob then getjobjid t id else getjobpid t id

/-- The assignment of `do_bgfg` to a state: `fg` writes to slot 0. -/
def markJob (t : Table) (job : Fin MAXJOBS) (fg : Bool) : Table :=
  if fg then t.setState 0 .FG else t.setState job .BG

/-! ## What the changes do to a slot -/

theorem setState_self (t : Table) (i : Fin MAXJOBS) (state : JobState) :
    (t.setState i state).jobs i = { t.jobs i with state := state } :=
  Function.update_self ..

theorem setState_of_ne {t : Table} {i j : Fin MAXJOBS} {state : JobState} (h : j ≠ i) :
    (t.setState i state).jobs j = t.jobs j :=
  Function.update_of_ne h ..

@[simp] theorem setState_pid (t : Table) (i j : Fin MAXJOBS) (state : JobState) :
    ((t.setState i state).jobs j).pid = (t.jobs j).pid := by
  by_cases h : j = i
  · subst h
    rw [setState_self]
  · rw [setState_of_ne h]

theorem getjobpid_some {t : Table} {pid : ℤ} {i : Fin MAXJOBS} (h : getjobpid t pid = some i) :
    1 ≤ pid ∧ (t.jobs i).pid = pid := by
  rw [getjobpid] at h
  split_ifs at h with hpid
  exact ⟨by omega, of_decide_eq_true (firstSlot_some h)⟩

/-- A job is found by its process. -/
theorem getjobpid_isSome {t : Table} {i : Fin MAXJOBS} (h : 1 ≤ (t.jobs i).pid) :
    ∃ j, getjobpid t (t.jobs i).pid = some j := by
  rw [getjobpid, if_neg (by omega), ← Option.isSome_iff_exists]
  by_contra hnone
  rw [Option.not_isSome_iff_eq_none, firstSlot_eq_none] at hnone
  exact of_decide_eq_false (hnone i) rfl

/-- `fgpid` returns the process of a slot that is marked, or zero. -/
theorem exists_of_fgpid {t : Table} (h : fgpid t ≠ 0) :
    ∃ i, (t.jobs i).state = .FG ∧ (t.jobs i).pid = fgpid t := by
  unfold fgpid at h ⊢
  cases hslot : firstSlot (fun job => decide (job.state = .FG)) t.jobs with
  | none => rw [hslot] at h; exact absurd rfl h
  | some i => exact ⟨i, of_decide_eq_true (firstSlot_some hslot), rfl⟩

/-- The only slot that is marked is the one that `fgpid` finds. -/
theorem fgpid_eq {t : Table} {i : Fin MAXJOBS} (hi : (t.jobs i).state = .FG)
    (hone : ∀ j, (t.jobs j).state = .FG → j = i) : fgpid t = (t.jobs i).pid := by
  rw [fgpid, firstSlot_eq_some (decide_eq_true hi) fun j hj => hone j (of_decide_eq_true hj)]

/-- **An event** clears a slot of its process, or marks it as stopped, or leaves it as
it is. -/
theorem childEvent_slot {t t' : Table} {pid : ℤ} {ev : Event} (h : childEvent t pid ev = some t')
    (i : Fin MAXJOBS) : t'.jobs i = t.jobs i ∨
      ((t.jobs i).pid = pid ∧ 1 ≤ pid ∧ (t'.jobs i = clearjob ∨
        (ev = .stopped ∧ t'.jobs i = { t.jobs i with state := .ST }))) := by
  have hdelete : (deletejob t pid).1.jobs i = t.jobs i ∨
      ((t.jobs i).pid = pid ∧ 1 ≤ pid ∧ (deletejob t pid).1.jobs i = clearjob) := by
    rcases deletejob_cases t pid with heq | ⟨j, hj, hpid, heq⟩ <;> rw [heq]
    · exact Or.inl rfl
    · by_cases hij : i = j
      · subst hij
        exact Or.inr ⟨hj, hpid, Function.update_self ..⟩
      · exact Or.inl (Function.update_of_ne hij ..)
  cases ev with
  | stopped =>
      obtain ⟨j, hj, rfl⟩ := Option.map_eq_some_iff.mp h
      obtain ⟨hpid, hslot⟩ := getjobpid_some hj
      by_cases hij : i = j
      · subst hij
        exact Or.inr ⟨hslot, hpid, Or.inr ⟨rfl, setState_self t i .ST⟩⟩
      · exact Or.inl (setState_of_ne hij)
  | exited =>
      obtain rfl := Option.some.inj h
      exact hdelete.imp_right fun h => ⟨h.1, h.2.1, Or.inl h.2.2⟩
  | signaled =>
      obtain ⟨j, -, rfl⟩ := Option.map_eq_some_iff.mp h
      exact hdelete.imp_right fun h => ⟨h.1, h.2.1, Or.inl h.2.2⟩
  | continued =>
      obtain rfl := Option.some.inj h
      exact Or.inl rfl

/-- An event marks no job as a foreground job. -/
theorem childEvent_fg {t t' : Table} {pid : ℤ} {ev : Event} (h : childEvent t pid ev = some t')
    {i : Fin MAXJOBS} (hi : (t'.jobs i).state = .FG) : t'.jobs i = t.jobs i := by
  rcases childEvent_slot h i with heq | ⟨-, -, heq | ⟨-, heq⟩⟩
  · exact heq
  · rw [heq] at hi
    exact absurd hi (by decide)
  · rw [heq] at hi
    exact absurd hi nofun

/-- **Adding a job** leaves the table as it is, or puts the job into a free slot: into
slot 0, when that one is free. -/
theorem addjob_slot (t : Table) (pid : ℤ) (state : JobState) (cmdline : String) :
    (addjob t pid state cmdline).1 = t ∧ (1 ≤ pid → ∀ i, (t.jobs i).pid ≠ 0) ∨
    1 ≤ pid ∧ ∃ i, (t.jobs i).pid = 0 ∧ ((t.jobs 0).pid = 0 → i = 0) ∧
      (addjob t pid state cmdline).1.jobs =
        Function.update t.jobs i ⟨pid, t.nextjid, state, cmdline⟩ := by
  rw [addjob]
  split_ifs with hpid
  · exact Or.inl ⟨rfl, fun h => absurd hpid (by omega)⟩
  · cases hslot : firstSlot (fun job => decide (job.pid = 0)) t.jobs with
    | none =>
        exact Or.inl ⟨rfl, fun _ i => of_decide_eq_false (firstSlot_eq_none.mp hslot i)⟩
    | some i =>
        refine Or.inr ⟨by omega, i, of_decide_eq_true (firstSlot_some hslot), fun h0 => ?_, rfl⟩
        by_contra hne
        have hfirst := (firstSlot_eq_some_iff.mp hslot).2 0 (Fin.pos_iff_ne_zero.mpr hne)
        exact of_decide_eq_false hfirst h0

/-! ## Foreground jobs -/

/-- Where the shell is, between two changes of the table. -/
inductive Place : Type where
  | prompt : Place
  | mark (job : Fin MAXJOBS) (fg : Bool) : Place
  | wait : Place
  deriving DecidableEq, Repr

/-- The table, and where the shell is. -/
structure Control where
  table : Table
  place : Place

/-- The shell at its first prompt. -/
def controlStart : Control where
  table := initjobs
  place := .prompt

/-- The changes of the table: `eval` adds a job, and waits if it is a foreground job;
`do_bgfg` finds its job, and marks it; `waitfg` returns; `sigchld_handler` handles an
event. -/
inductive ControlStep : Control → Control → Prop where
  | add {t : Table} (pid : ℤ) (bg : Bool) (cmdline : String) :
      ControlStep ⟨t, .prompt⟩
        ⟨(addjob t pid (if bg then .BG else .FG) cmdline).1, if bg then .prompt else .wait⟩
  | find {t : Table} {job : Fin MAXJOBS} {isJob : Bool} {id : ℤ} (fg : Bool) :
      findJob t isJob id = some job → ControlStep ⟨t, .prompt⟩ ⟨t, .mark job fg⟩
  | mark {t : Table} {job : Fin MAXJOBS} {fg : Bool} :
      ControlStep ⟨t, .mark job fg⟩ ⟨markJob t job fg, if fg then .wait else .prompt⟩
  | wake {t : Table} : fgpid t ≤ 0 → ControlStep ⟨t, .wait⟩ ⟨t, .prompt⟩
  | event {t t' : Table} {p : Place} {pid : ℤ} {ev : Event} :
      childEvent t pid ev = some t' → ControlStep ⟨t, p⟩ ⟨t', p⟩

/-- **The invariant of the marks**: at most one slot is marked, a mark without a job
is in slot 0, and outside `waitfg` there is no mark on a job. -/
structure Control.Inv (s : Control) : Prop where
  pid : ∀ i, 0 ≤ (s.table.jobs i).pid
  one : ∀ i j, (s.table.jobs i).state = .FG → (s.table.jobs j).state = .FG → i = j
  stale : ∀ i, (s.table.jobs i).state = .FG → (s.table.jobs i).pid = 0 → i = 0
  idle : s.place ≠ .wait → ∀ i, (s.table.jobs i).state = .FG → (s.table.jobs i).pid = 0

theorem controlInv_start : controlStart.Inv :=
  ⟨fun _ => le_rfl, fun _ _ h => absurd h nofun, fun _ h => absurd h nofun,
    fun _ _ h => absurd h nofun⟩

/-- A mark at the prompt is in slot 0. -/
theorem Control.Inv.idle_zero {s : Control} (h : s.Inv) (hplace : s.place ≠ .wait)
    {i : Fin MAXJOBS} (hi : (s.table.jobs i).state = .FG) : i = 0 :=
  h.stale i hi (h.idle hplace i hi)

/-- `addjob` at the prompt: a new mark takes the place of an old one. -/
theorem Control.Inv.add {t : Table} (h : Control.Inv ⟨t, .prompt⟩) (pid : ℤ) (bg : Bool)
    (cmdline : String) :
    Control.Inv ⟨(addjob t pid (if bg then .BG else .FG) cmdline).1,
      if bg then .prompt else .wait⟩ := by
  have hidle : ∀ i, (t.jobs i).state = .FG → (t.jobs i).pid = 0 := h.idle nofun
  have hzero : ∀ i, (t.jobs i).state = .FG → i = 0 := fun i => h.idle_zero nofun
  rcases addjob_slot t pid (if bg then .BG else .FG) cmdline with
    ⟨heq, -⟩ | ⟨hpid, k, hk, hfirst, heq⟩
  · rw [heq]
    exact ⟨h.pid, h.one, h.stale, fun _ => hidle⟩
  · obtain ⟨jobs, hjobs⟩ : ∃ jobs, jobs =
        (addjob t pid (if bg then .BG else .FG) cmdline).1.jobs := ⟨_, rfl⟩
    have hself : jobs k = ⟨pid, t.nextjid, if bg then .BG else .FG, cmdline⟩ := by
      rw [hjobs, heq, Function.update_self]
    have hother : ∀ i, i ≠ k → jobs i = t.jobs i := by
      intro i hi
      rw [hjobs, heq, Function.update_of_ne hi]
    -- an old mark is in slot 0, which is then the slot that is filled
    have hnew : ∀ i, (jobs i).state = .FG → i = k := by
      intro i hi
      by_contra hik
      rw [hother i hik] at hi
      obtain rfl := hzero i hi
      exact hik (hfirst (hidle 0 hi)).symm
    refine ⟨fun i => ?_, fun i j hi hj => ?_, fun i hi hz => ?_, fun hplace i hi => ?_⟩ <;>
      simp only [← hjobs] at *
    · by_cases hik : i = k
      · rw [hik, hself]
        simp only
        omega
      · rw [hother i hik]
        exact h.pid i
    · exact (hnew i hi).trans (hnew j hj).symm
    · rw [hnew i hi, hself] at hz
      simp only at hz
      omega
    · rw [hnew i hi, hself] at hi
      cases bg with
      | true => exact absurd hi nofun
      | false => exact absurd rfl hplace

/-- The assignment of `do_bgfg`. -/
theorem Control.Inv.mark {t : Table} {job : Fin MAXJOBS} {fg : Bool}
    (h : Control.Inv ⟨t, .mark job fg⟩) :
    Control.Inv ⟨markJob t job fg, if fg then .wait else .prompt⟩ := by
  have hidle : ∀ i, (t.jobs i).state = .FG → (t.jobs i).pid = 0 := h.idle nofun
  have hzero : ∀ i, (t.jobs i).state = .FG → i = 0 := fun i => h.idle_zero nofun
  have hpid : ∀ i, 0 ≤ ((markJob t job fg).jobs i).pid := by
    intro i
    cases fg <;> exact (setState_pid t _ i _).symm ▸ h.pid i
  cases fg with
  | true =>
      have hnew : ∀ i, ((markJob t job true).jobs i).state = .FG → i = 0 := by
        intro i hi
        by_contra hne
        change ((t.setState 0 .FG).jobs i).state = .FG at hi
        rw [setState_of_ne hne] at hi
        exact hne (hzero i hi)
      exact ⟨hpid, fun i j hi hj => (hnew i hi).trans (hnew j hj).symm,
        fun i hi _ => hnew i hi, fun hplace => absurd rfl hplace⟩
  | false =>
      have hold : ∀ i, ((markJob t job false).jobs i).state = .FG →
          (markJob t job false).jobs i = t.jobs i := by
        intro i hi
        change ((t.setState job .BG).jobs i).state = .FG at hi
        by_cases hij : i = job
        · subst hij
          rw [setState_self] at hi
          exact absurd hi nofun
        · exact setState_of_ne hij
      refine ⟨hpid, fun i j hi hj => ?_, fun i hi hz => ?_, fun _ i hi => ?_⟩
      · exact h.one i j (hold i hi ▸ hi) (hold j hj ▸ hj)
      · exact hzero i (hold i hi ▸ hi)
      · simp only
        rw [hold i hi]
        exact hidle i (hold i hi ▸ hi)

/-- **Every change of the table keeps the invariant.** -/
theorem Control.Inv.step {s s' : Control} (h : s.Inv) (hstep : ControlStep s s') : s'.Inv := by
  cases hstep with
  | add pid bg cmdline => exact h.add pid bg cmdline
  | find fg hjob => exact ⟨h.pid, h.one, h.stale, fun _ => h.idle nofun⟩
  | mark => exact h.mark
  | @wake t hfg =>
      refine ⟨h.pid, h.one, h.stale, fun _ i hi => ?_⟩
      -- the only mark is the one that `fgpid` found
      have heq : fgpid t = (t.jobs i).pid := fgpid_eq hi fun j hj => h.one j i hj hi
      have hpid : 0 ≤ (t.jobs i).pid := h.pid i
      show (t.jobs i).pid = 0
      omega
  | @event t t' p pid ev hev =>
      have hfg : ∀ i, (t'.jobs i).state = .FG → t'.jobs i = t.jobs i :=
        fun i hi => childEvent_fg hev hi
      refine ⟨fun i => ?_, fun i j hi hj => ?_, fun i hi hz => ?_, fun hplace i hi => ?_⟩
      · have hpid : 0 ≤ (t.jobs i).pid := h.pid i
        rcases childEvent_slot hev i with heq | ⟨-, -, heq | ⟨-, heq⟩⟩ <;> simp only [heq]
        · exact hpid
        · exact le_rfl
        · exact hpid
      · exact h.one i j (hfg i hi ▸ hi) (hfg j hj ▸ hj)
      · exact h.stale i (hfg i hi ▸ hi) (hfg i hi ▸ hz)
      · simp only
        rw [hfg i hi]
        exact h.idle hplace i (hfg i hi ▸ hi)

/-- **The invariant holds in every run.** -/
theorem controlInv_of_run {s : Control} (h : Relation.ReflTransGen ControlStep controlStart s) :
    s.Inv := by
  induction h with
  | refl => exact controlInv_start
  | tail _ hstep ih => exact ih.step hstep

/-- **At most one job is in the foreground**, in every table that the shell
reaches. -/
theorem one_foreground {s : Control} (h : Relation.ReflTransGen ControlStep controlStart s) :
    ∀ i j, (s.table.jobs i).state = .FG → (s.table.jobs j).state = .FG → i = j :=
  (controlInv_of_run h).one

/-- Two background jobs, in slots 0 and 1. -/
def twoJobs : Table := (addjob (addjob initjobs 100 .BG "a").1 101 .BG "b").1

/-- Slot 0 is left empty by its job; then `fg` is called for the job in slot 1, and
marks slot 0. -/
theorem one_foreground_slot_zero :
    ∃ s : Control, (s.table.jobs 0).state = .FG ∧ (s.table.jobs 1).pid = 101 ∧
      ∀ i j, (s.table.jobs i).state = .FG → (s.table.jobs j).state = .FG → i = j := by
  have h1 : ControlStep controlStart ⟨(addjob initjobs 100 .BG "a").1, .prompt⟩ :=
    .add 100 true "a"
  have h2 : ControlStep ⟨(addjob initjobs 100 .BG "a").1, .prompt⟩ ⟨twoJobs, .prompt⟩ :=
    .add 101 true "b"
  have h3 : ControlStep ⟨twoJobs, .prompt⟩ ⟨(deletejob twoJobs 100).1, .prompt⟩ :=
    .event (show childEvent twoJobs 100 .exited = some (deletejob twoJobs 100).1 from rfl)
  have h4 : ControlStep ⟨(deletejob twoJobs 100).1, .prompt⟩
      ⟨(deletejob twoJobs 100).1, .mark 1 true⟩ :=
    .find true (show findJob (deletejob twoJobs 100).1 true 2 = some 1 by decide)
  exact ⟨_, by decide, by decide, one_foreground
    (((((Relation.ReflTransGen.refl.tail h1).tail h2).tail h3).tail h4).tail .mark)⟩

end Shell
