/-
# The order of child events

One run of the loop of `sigchld_handler`, over the changes that `waitpid` reports.  A change of
a child touches the slot of that child only, except that a deletion computes `nextjid` from all
slots; the ids in the slots are the same whatever else has been handled.  So the changes of
different children commute (`childEvents_commute`), and the order of the reports does not matter.
-/
import CsappLabs.Interleaving
import CsappLabs.FgBg

open Interleaving

namespace Shell

/-- The loop of `sigchld_handler`, over the pids and the changes that `waitpid` reports before
it returns zero or -1; `none` when it follows a null pointer. -/
def sigchldLoop (t : Table) : List (ℤ × Event) → Option Table
  | [] => some t
  | (pid, ev) :: es => (childEvent t pid ev).bind fun t => sigchldLoop t es

theorem sigchldLoop_eq (t : Table) (es : List (ℤ × Event)) :
    sigchldLoop t es = es.foldlM (fun t e => childEvent t e.1 e.2) t := by
  induction es generalizing t with
  | nil => rfl
  | cons e es ih =>
      rw [List.foldlM_cons, sigchldLoop]
      apply congrArg
      funext t'
      exact ih t'

/-- A run of the loop in the machine: `waitpid` returns the children that `es` names, and the
children and the keys of the terminal act meanwhile. -/
inductive Reports : State → List (ℤ × Event) → State → Prop where
  | done {s s' : State} : Meanwhile s s' → Reports s [] s'
  | reap {s u v s' : State} {pid : ℤ} {es : List (ℤ × Event)} : Meanwhile s u →
      step u (.reap pid) = some v → Reports v es s' →
      Reports s ((pid, (u.child pid).status.event) :: es) s'

/-- Nothing is reported to a shell that has ended. -/
theorem Reports.live {s s' : State} {es : List (ℤ × Event)} (h : Reports s es s')
    (hlive : s'.death = none) : s.death = none := by
  cases h with
  | done hmeanwhile => exact hmeanwhile.same.2.2.2.symm.trans hlive
  | reap hmeanwhile hstep _ => exact hmeanwhile.same.2.2.2.symm.trans (step_cases hstep).1

/-- **The loop is what the steps of the machine do to the table.** -/
theorem Reports.loop {s s' : State} {es : List (ℤ × Event)} (h : Reports s es s')
    (hlive : s'.death = none) : sigchldLoop s.table es = some s'.table := by
  induction h with
  | done hmeanwhile => exact congrArg some hmeanwhile.same.1.symm
  | @reap s u v s' pid es hmeanwhile hstep hrest ih =>
      have hlive' := hrest.live hlive
      obtain ⟨-, -, -, -, -, -, rfl⟩ := step_reap hstep
      rw [sigchldLoop, ← hmeanwhile.same.1]
      cases hev : childEvent u.table pid (u.child pid).status.event with
      | none =>
          simp only [Shell.reap, hev] at hlive'
          cases hlive'
      | some t =>
          have htable : (Shell.reap u pid).table = t := by simp only [Shell.reap, hev]
          rw [Option.bind_some, ← htable]
          exact ih hlive

/-! ## A change in a slot -/

/-- The child has ended. -/
def Event.ended : Event → Bool
  | .stopped => false
  | .exited => true
  | .signaled => true
  | .continued => false

/-- What a change of its child does to a job. -/
def Event.job (ev : Event) (job : Job) : Job :=
  match ev with
  | .stopped => { job with state := .ST }
  | .exited => clearjob
  | .signaled => clearjob
  | .continued => job

/-- A change of the child in slot `i`. -/
def slotEvent (t : Table) (i : Fin MAXJOBS) (ev : Event) : Table where
  jobs := Function.update t.jobs i (ev.job (t.jobs i))
  nextjid :=
    if ev.ended then maxjid (Function.update t.jobs i (ev.job (t.jobs i))) + 1 else t.nextjid

theorem deletejob_eq (t : Table) (pid : ℤ) :
    (deletejob t pid).1 = ((getjobpid t pid).map fun i => slotEvent t i .exited).getD t := by
  rw [deletejob, getjobpid]
  split_ifs
  · rfl
  · cases firstSlot (fun job => decide (job.pid = pid)) t.jobs <;> rfl

/-- **A report for a job in the table** changes its slot. -/
theorem childEvent_of_some {t : Table} {pid : ℤ} {i : Fin MAXJOBS}
    (h : getjobpid t pid = some i) (ev : Event) :
    childEvent t pid ev = some (slotEvent t i ev) := by
  cases ev with
  | stopped =>
      rw [childEvent, h]
      rfl
  | exited =>
      rw [childEvent, deletejob_eq, h]
      rfl
  | signaled =>
      rw [childEvent, deletejob_eq, h]
      rfl
  | continued =>
      have hjobs : Function.update t.jobs i (t.jobs i) = t.jobs := Function.update_eq_self ..
      show some t = some ⟨Function.update t.jobs i (t.jobs i), t.nextjid⟩
      rw [hjobs]

/-- A report for no job: nothing happens, or it follows a null pointer. -/
theorem childEvent_of_none {t : Table} {pid : ℤ} (h : getjobpid t pid = none) (ev : Event) :
    childEvent t pid ev = if ev = .exited ∨ ev = .continued then some t else none := by
  cases ev with
  | stopped =>
      rw [childEvent, h]
      rfl
  | exited =>
      rw [childEvent, deletejob_eq, h]
      rfl
  | signaled =>
      rw [childEvent, h]
      rfl
  | continued => rfl

theorem slotEvent_self (t : Table) (i : Fin MAXJOBS) (ev : Event) :
    (slotEvent t i ev).jobs i = ev.job (t.jobs i) := Function.update_self ..

theorem slotEvent_of_ne {t : Table} {i j : Fin MAXJOBS} (h : j ≠ i) (ev : Event) :
    (slotEvent t i ev).jobs j = t.jobs j := Function.update_of_ne h ..

theorem Event.job_pid (ev : Event) (job : Job) :
    (ev.job job).pid = if ev.ended then 0 else job.pid := by
  cases ev <;> rfl

/-- A child that goes on keeps its id. -/
theorem Event.job_jid {ev : Event} (h : ev.ended = false) (job : Job) :
    (ev.job job).jid = job.jid := by
  cases ev with
  | stopped => rfl
  | continued => rfl
  | exited => cases h
  | signaled => cases h

/-! ## The other slots -/

theorem firstSlot_congr {p : Job → Bool} {jobs jobs' : Fin MAXJOBS → Job}
    (h : ∀ i, p (jobs' i) = p (jobs i)) : firstSlot p jobs' = firstSlot p jobs := by
  rw [firstSlot, firstSlot]
  congr 1
  funext i
  exact h i

/-- `maxjid` reads the ids only. -/
theorem maxjid_congr {jobs jobs' : Fin MAXJOBS → Job} (h : ∀ i, (jobs' i).jid = (jobs i).jid) :
    maxjid jobs' = maxjid jobs := by
  rw [maxjid, maxjid]
  congr 1
  funext max i
  rw [h i]

/-- A report for a job leaves the look-up of another child. -/
theorem getjobpid_slotEvent {t : Table} {p q : ℤ} (hpq : p ≠ q) {i : Fin MAXJOBS}
    (hi : (t.jobs i).pid = q) (ev : Event) : getjobpid (slotEvent t i ev) p = getjobpid t p := by
  rw [getjobpid, getjobpid]
  split_ifs with hp
  · rfl
  · apply firstSlot_congr
    intro j
    by_cases hji : j = i
    · rw [hji, slotEvent_self, Event.job_pid, hi, decide_eq_false (Ne.symm hpq), decide_eq_false]
      split_ifs <;> omega
    · rw [slotEvent_of_ne hji]

/-- The ids after the change of a child that goes on. -/
theorem maxjid_slotEvent {ev : Event} (h : ev.ended = false) (t : Table) (i : Fin MAXJOBS) :
    maxjid (slotEvent t i ev).jobs = maxjid t.jobs := by
  apply maxjid_congr
  intro k
  by_cases hk : k = i
  · rw [hk, slotEvent_self, Event.job_jid h]
  · rw [slotEvent_of_ne hk]

theorem slotEvent_nextjid (t : Table) (i : Fin MAXJOBS) (ev : Event) :
    (slotEvent t i ev).nextjid =
      if ev.ended then maxjid (slotEvent t i ev).jobs + 1 else t.nextjid := rfl

/-- The slots after changes in two of them. -/
theorem slotEvent_jobs_comm {t : Table} {i j : Fin MAXJOBS} (h : i ≠ j) (ev ev' : Event) :
    (slotEvent (slotEvent t i ev) j ev').jobs = (slotEvent (slotEvent t j ev') i ev).jobs := by
  show Function.update (slotEvent t i ev).jobs j (ev'.job ((slotEvent t i ev).jobs j)) =
    Function.update (slotEvent t j ev').jobs i (ev.job ((slotEvent t j ev').jobs i))
  rw [slotEvent_of_ne h, slotEvent_of_ne h.symm]
  exact Function.update_comm h ..

theorem table_eq {t t' : Table} (hjobs : t.jobs = t'.jobs) (hnext : t.nextjid = t'.nextjid) :
    t = t' := by
  cases t
  cases t'
  obtain rfl := hjobs
  obtain rfl := hnext
  rfl

/-- **Changes in different slots commute**: the last deletion computes `nextjid` from the ids
that are left at the end. -/
theorem slotEvent_comm {t : Table} {i j : Fin MAXJOBS} (h : i ≠ j) (ev ev' : Event) :
    slotEvent (slotEvent t i ev) j ev' = slotEvent (slotEvent t j ev') i ev := by
  have hjobs := slotEvent_jobs_comm (t := t) h ev ev'
  apply table_eq hjobs
  rw [slotEvent_nextjid, slotEvent_nextjid, slotEvent_nextjid, slotEvent_nextjid]
  cases hev : ev.ended with
  | true =>
      cases hev' : ev'.ended with
      | true => exact congrArg (fun jobs => maxjid jobs + 1) hjobs
      | false =>
          have hmax := (congrArg maxjid hjobs).symm.trans (maxjid_slotEvent hev' _ j)
          exact congrArg (· + 1) hmax.symm
  | false =>
      cases hev' : ev'.ended with
      | true =>
          have hmax := (congrArg maxjid hjobs).trans (maxjid_slotEvent hev _ i)
          exact congrArg (· + 1) hmax
      | false => simp only [Bool.false_eq_true, if_false]

/-! ## Reports for different children -/

/-- A report leaves the look-up of another child. -/
theorem getjobpid_childEvent {t t' : Table} {p q : ℤ} (hpq : p ≠ q) {ev : Event}
    (h : childEvent t q ev = some t') : getjobpid t' p = getjobpid t p := by
  cases hq : getjobpid t q with
  | none =>
      rw [childEvent_of_none hq] at h
      split_ifs at h
      rw [← Option.some.inj h]
  | some i =>
      rw [childEvent_of_some hq] at h
      rw [← Option.some.inj h]
      exact getjobpid_slotEvent hpq (getjobpid_some hq).2 ev

/-- **Reports for different children commute**, in every table. -/
theorem childEvents_commute :
    StepsCommute fun (t : Table) (e : ℤ × Event) => childEvent t e.1 e.2 := by
  intro t e e' hne
  simp only
  cases hp : getjobpid t e.1 with
  | none =>
      -- the first report changes nothing, now or later
      rw [childEvent_of_none hp]
      cases he' : childEvent t e'.1 e'.2 with
      | none => split_ifs <;> simp [he']
      | some t' =>
          have hp' := getjobpid_childEvent hne he'
          rw [hp] at hp'
          simp only [Option.bind_eq_bind, Option.bind_some, childEvent_of_none hp']
          split_ifs <;> simp [he']
  | some i =>
      rw [childEvent_of_some hp]
      cases hq : getjobpid t e'.1 with
      | none =>
          have hq' := (getjobpid_slotEvent hne.symm (getjobpid_some hp).2 e.2).trans hq
          simp only [Option.bind_eq_bind, Option.bind_some, childEvent_of_none hq,
            childEvent_of_none hq']
          split_ifs <;> simp [childEvent_of_some hp]
      | some j =>
          have hij : i ≠ j := by
            rintro rfl
            exact hne ((getjobpid_some hp).2.symm.trans (getjobpid_some hq).2)
          have hp' := (getjobpid_slotEvent hne (getjobpid_some hq).2 e'.2).trans hp
          have hq' := (getjobpid_slotEvent hne.symm (getjobpid_some hp).2 e.2).trans hq
          simp only [Option.bind_eq_bind, Option.bind_some, childEvent_of_some hq,
            childEvent_of_some hp', childEvent_of_some hq', slotEvent_comm hij]

/-! ## A batch of reports -/

/-- Changes that `waitpid` can report: of children that are in the table, each in one slot, and
with nothing after the end of a child. -/
structure Batch (t : Table) (es : List (ℤ × Event)) : Prop where
  pid : ∀ e ∈ es, 1 ≤ e.1
  once : ∀ e ∈ es, ∃! i, (t.jobs i).pid = e.1
  last : es.Pairwise fun e e' => e.2.ended = true → e'.1 ≠ e.1

/-- The slots of the children that have not ended. -/
theorem slotEvent_pid_iff {t : Table} {i : Fin MAXJOBS} {ev : Event} {p : ℤ} (hp : 1 ≤ p)
    (hne : ev.ended = true → p ≠ (t.jobs i).pid) (k : Fin MAXJOBS) :
    ((slotEvent t i ev).jobs k).pid = p ↔ (t.jobs k).pid = p := by
  by_cases hk : k = i
  · rw [hk, slotEvent_self, Event.job_pid]
    split_ifs with hend
    · have hne := hne hend
      omega
    · rfl
  · rw [slotEvent_of_ne hk]

/-- The other reports, after the first one. -/
theorem Batch.tail {t : Table} {e : ℤ × Event} {es : List (ℤ × Event)} (h : Batch t (e :: es))
    {i : Fin MAXJOBS} (hi : (t.jobs i).pid = e.1) : Batch (slotEvent t i e.2) es := by
  have hlast := List.pairwise_cons.mp h.last
  refine ⟨fun x hx => h.pid x (List.mem_cons_of_mem e hx), fun x hx => ?_, hlast.2⟩
  have hpid := h.pid x (List.mem_cons_of_mem e hx)
  have hne : e.2.ended = true → x.1 ≠ (t.jobs i).pid := by
    rw [hi]
    exact hlast.1 x hx
  have hiff := slotEvent_pid_iff hpid hne
  simp only [hiff]
  exact h.once x (List.mem_cons_of_mem e hx)

/-- What a batch makes of a job: it is cleared when its child has ended, and else marked when
its child has stopped. -/
def outcome (es : List (ℤ × Event)) (job : Job) : Job :=
  if ∃ e ∈ es, e.1 = job.pid ∧ e.2.ended = true then clearjob
  else if (job.pid, .stopped) ∈ es then { job with state := .ST }
  else job

/-- A report for another child. -/
theorem outcome_cons_of_ne {e : ℤ × Event} {job : Job} (h : job.pid ≠ e.1)
    (es : List (ℤ × Event)) : outcome (e :: es) job = outcome es job := by
  have hended : (∃ x ∈ e :: es, x.1 = job.pid ∧ x.2.ended = true) ↔
      ∃ x ∈ es, x.1 = job.pid ∧ x.2.ended = true := by
    simp [h.symm]
  have hstop : (job.pid, Event.stopped) ∈ e :: es ↔ (job.pid, Event.stopped) ∈ es := by
    refine List.mem_cons.trans (or_iff_right ?_)
    rintro rfl
    exact h rfl
  simp only [outcome, hended, hstop]

/-- A report for the child of the job, and then the others. -/
theorem outcome_cons_of_eq {e : ℤ × Event} {es : List (ℤ × Event)} {job : Job}
    (h : job.pid = e.1) (hpid : ∀ x ∈ es, 1 ≤ x.1) :
    outcome (e :: es) job = outcome es (e.2.job job) := by
  obtain ⟨p, ev⟩ := e
  obtain rfl : job.pid = p := h
  cases hend : ev.ended with
  | true =>
      -- the slot is free, and no report is for it
      have hjob : ev.job job = clearjob := by cases ev <;> first | rfl | cases hend
      have hnone : ∀ x ∈ es, x.1 ≠ clearjob.pid := by
        intro x hx hzero
        have hone := hpid x hx
        rw [hzero] at hone
        exact absurd hone (by decide)
      rw [hjob, outcome, if_pos ⟨_, List.mem_cons_self, rfl, hend⟩, outcome,
        if_neg fun ⟨x, hx, hxp, _⟩ => hnone x hx hxp, if_neg fun hx => hnone _ hx rfl]
  | false =>
      have hsame : (ev.job job).pid = job.pid := by rw [Event.job_pid, hend]; rfl
      have hended : (∃ x ∈ (job.pid, ev) :: es, x.1 = job.pid ∧ x.2.ended = true) ↔
          ∃ x ∈ es, x.1 = job.pid ∧ x.2.ended = true := by
        simp [hend]
      rw [outcome, outcome, hsame, if_congr hended rfl rfl]
      apply if_congr Iff.rfl rfl
      cases ev with
      | stopped =>
          -- the job is marked, and another stop marks it again
          rw [if_pos List.mem_cons_self]
          split_ifs <;> rfl
      | continued =>
          have hstop : (job.pid, Event.stopped) ∈ (job.pid, Event.continued) :: es ↔
              (job.pid, Event.stopped) ∈ es := by
            simp
          exact if_congr hstop rfl rfl
      | exited => cases hend
      | signaled => cases hend

/-- A job of a child that has not ended keeps its id. -/
theorem outcome_jid {es : List (ℤ × Event)} (h : ∀ e ∈ es, e.2.ended = false) (job : Job) :
    (outcome es job).jid = job.jid := by
  have hnone : ¬∃ e ∈ es, e.1 = job.pid ∧ e.2.ended = true := by
    rintro ⟨e, he, -, hend⟩
    exact absurd ((h e he).symm.trans hend) nofun
  rw [outcome, if_neg hnone]
  split_ifs <;> rfl

/-- **The table after a batch**: what the batch makes of each job, and, when a child has ended,
the next id behind those that are left. -/
structure Settles (t : Table) (es : List (ℤ × Event)) (t' : Table) : Prop where
  jobs : ∀ i, t'.jobs i = outcome es (t.jobs i)
  next : t'.nextjid = if ∃ e ∈ es, e.2.ended = true then maxjid t'.jobs + 1 else t.nextjid

/-- The first report, and then the others. -/
theorem Settles.cons {t t' : Table} {e : ℤ × Event} {es : List (ℤ × Event)} {i : Fin MAXJOBS}
    (h : Settles (slotEvent t i e.2) es t') (hi : ∀ k, (t.jobs k).pid = e.1 ↔ k = i)
    (hpid : ∀ x ∈ es, 1 ≤ x.1) : Settles t (e :: es) t' := by
  refine ⟨fun k => ?_, ?_⟩
  · rw [h.jobs k]
    by_cases hk : k = i
    · subst hk
      rw [slotEvent_self, outcome_cons_of_eq ((hi k).mpr rfl) hpid]
    · rw [slotEvent_of_ne hk, outcome_cons_of_ne fun hp => hk ((hi k).mp hp)]
  · rw [h.next, slotEvent_nextjid]
    by_cases hany : ∃ x ∈ es, x.2.ended = true
    · have hany' : ∃ x ∈ e :: es, x.2.ended = true := by
        obtain ⟨x, hx, hend⟩ := hany
        exact ⟨x, List.mem_cons_of_mem e hx, hend⟩
      rw [if_pos hany, if_pos hany']
    · -- the reports that follow leave the ids
      have hgo : ∀ x ∈ es, x.2.ended = false := fun x hx =>
        eq_false_of_ne_true fun hend => hany ⟨x, hx, hend⟩
      have hmax : maxjid t'.jobs = maxjid (slotEvent t i e.2).jobs := by
        apply maxjid_congr
        intro k
        rw [h.jobs k, outcome_jid hgo]
      rw [if_neg hany, hmax]
      refine if_congr ?_ rfl rfl
      simp only [List.mem_cons, exists_eq_or_imp]
      exact (or_iff_left hany).symm

/-- **The loop consumes the whole batch.** -/
theorem Batch.consumed {t : Table} {es : List (ℤ × Event)} (h : Batch t es) :
    ∃ t', sigchldLoop t es = some t' ∧ Settles t es t' := by
  induction es generalizing t with
  | nil => exact ⟨t, rfl, fun i => by simp [outcome], by simp⟩
  | cons e es ih =>
      have hpid := h.pid e List.mem_cons_self
      obtain ⟨i, hi, huniq⟩ := h.once e List.mem_cons_self
      obtain ⟨j, hj⟩ := getjobpid_isSome (hi.symm ▸ hpid : 1 ≤ (t.jobs i).pid)
      rw [hi] at hj
      obtain rfl := huniq j (getjobpid_some hj).2
      obtain ⟨t', hloop, hsettles⟩ := ih (h.tail hi)
      refine ⟨t', ?_, hsettles.cons (fun k => ⟨huniq k, ?_⟩) fun x hx =>
        h.pid x (List.mem_cons_of_mem e hx)⟩
      · rw [sigchldLoop, childEvent_of_some hj]
        exact hloop
      · rintro rfl
        exact hi

/-- **The order of child events does not matter**: every order that keeps the changes of each
child in their order is consumed, and leaves the same table, in which the jobs of the children
that have ended are deleted and those of the others that have stopped are marked. -/
theorem order_irrelevant {t : Table} {es : List (ℤ × Event)} (h : Batch t es) :
    ∃ t', (∀ es', SameOrder es es' → sigchldLoop t es' = some t') ∧ Settles t es t' := by
  obtain ⟨t', hloop, hsettles⟩ := h.consumed
  refine ⟨t', fun es' horder => ?_, hsettles⟩
  rw [sigchldLoop_eq] at hloop ⊢
  rw [← foldlM_sameOrder childEvents_commute horder]
  exact hloop

/-- Two jobs: one is stopped and killed, and the other one exits; both slots are free. -/
theorem order_irrelevant_two : ∃ t', (∀ es',
    SameOrder [(100, .stopped), (100, .signaled), (101, .exited)] es' →
      sigchldLoop twoJobs es' = some t') ∧
    t'.jobs 0 = clearjob ∧ t'.jobs 1 = clearjob := by
  have hbatch : Batch twoJobs [(100, .stopped), (100, .signaled), (101, .exited)] := by
    refine ⟨by decide, ?_, by decide⟩
    intro e he
    have hcases : e.1 = 100 ∨ e.1 = 101 := by
      simp only [List.mem_cons, List.not_mem_nil, or_false] at he
      rcases he with rfl | rfl | rfl <;> simp
    rcases hcases with hpid | hpid <;> rw [hpid]
    · exact ⟨0, by decide, by decide⟩
    · exact ⟨1, by decide, by decide⟩
  obtain ⟨t', horder, hsettles⟩ := order_irrelevant hbatch
  exact ⟨t', horder, (hsettles.jobs 0).trans (by decide), (hsettles.jobs 1).trans (by decide)⟩

end Shell
