/-
# Jobs and children: what every run of the shell keeps

A job is added while `SIGCHLD` is blocked, so it is in the table before `waitpid` can
return its process.  The handlers of `SIGINT` and `SIGTSTP` replace the mask, though:
when one of them runs between the `fork` and the `addjob` of `eval`, `SIGCHLD` gets
through.  As long as that does not happen (`QuietAdd`), each job is a child that is not
reaped (`Live`).
-/
import CsappLabs.ShellMachine

namespace Shell

/-! ## The machine and the changes of the table -/

/-- Where the main program is, between two changes of the table. -/
def Main.place : Main → Place
  | .prompt => .prompt
  | .block _ _ => .prompt
  | .fork _ _ => .prompt
  | .add _ _ _ => .prompt
  | .unblock bg => if bg then .prompt else .wait
  | .kill job fg => .mark job fg
  | .mark job fg => .mark job fg
  | .waitfg _ => .wait

/-- The table, and where the shell is. -/
def State.control (s : State) : Control := ⟨s.table, s.main.place⟩

/-- A step of the main program is a change of the table, or leaves it as it is. -/
theorem MainStep.control {s s' : State} (h : MainStep s s') :
    s'.control = s.control ∨ ControlStep s.control s'.control := by
  unfold State.control
  cases h with
  | block hmain => rw [hmain]; exact Or.inl rfl
  | @add pid bg cmdline hmain => rw [hmain]; exact Or.inr (.add pid bg cmdline)
  | @unblock bg hmain => rw [hmain]; cases bg <;> exact Or.inl rfl
  | kill hmain => rw [hmain]; exact Or.inl rfl
  | @mark job fg hmain => rw [hmain]; cases fg <;> exact Or.inr .mark
  | test hmain hfg => rw [hmain]; exact Or.inl rfl
  | woken hmain hfg => rw [hmain]; exact Or.inr (.wake hfg)
  | suspend hmain => rw [hmain]; exact Or.inl rfl

theorem wake_control (s : State) : (wake s).1.control = s.control := by
  unfold wake
  split
  · next hmain =>
      unfold State.control
      rw [hmain]
      rfl
  · rfl
  · rfl

/-- **A step of the machine** is a change of the table, or leaves it as it is. -/
theorem step_control {s s' : State} {a : Act} (h : step s a = some s') :
    s'.control = s.control ∨ ControlStep s.control s'.control := by
  cases (step_cases h).2 with
  | line hhandlers hmain =>
      unfold State.control
      rw [hmain]
      exact Or.inl rfl
  | find fg hhandlers hmain hjob =>
      unfold State.control
      rw [hmain]
      exact Or.inr (.find fg hjob)
  | fork pid hhandlers hmain hpid hnew =>
      unfold State.control
      rw [hmain]
      exact Or.inl rfl
  | main hhandlers hgo => exact hgo.control
  | reap pid hhandlers hpid hreport =>
      unfold reap
      split
      · next hev => exact Or.inr (.event hev)
      · exact Or.inl rfl
  | deliver sig hsig hmask => exact Or.inl (wake_control s)
  | _ => exact Or.inl rfl

/-- **Every run of the machine** is a run of changes of the table. -/
theorem control_of_reachable {ok : State → Act → Prop} {s : State} (h : Reachable ok s) :
    Relation.ReflTransGen ControlStep controlStart s.control := by
  induction h with
  | init => exact .refl
  | next _ _ hstep ih =>
      rcases step_control hstep with heq | hc
      · exact heq ▸ ih
      · exact ih.tail hc

/-- The marks of the table are as in every run of its changes. -/
theorem controlInv_of_reachable {ok : State → Act → Prop} {s : State} (h : Reachable ok s) :
    s.control.Inv :=
  controlInv_of_run (control_of_reachable h)

/-! ## What `waitpid` does to the table -/

section

variable {t : Table} {pid : ℤ}

/-- The slots with a process are one. -/
def PidsUnique (t : Table) : Prop :=
  ∀ i j, Occupied t i → (t.jobs i).pid = (t.jobs j).pid → i = j

/-- A job is found by its process, in its slot. -/
theorem PidsUnique.getjobpid (h : PidsUnique t) {i : Fin MAXJOBS} (hi : (t.jobs i).pid = pid)
    (hpid : 1 ≤ pid) : getjobpid t pid = some i := by
  rw [Shell.getjobpid, if_neg (by omega)]
  apply firstSlot_eq_some (decide_eq_true hi)
  intro j hj
  have hj' := of_decide_eq_true hj
  exact h j i (by rw [Occupied]; omega) (hj'.trans hi.symm)

theorem getjobpid_none (h : getjobpid t pid = none) (hpid : 1 ≤ pid) (i : Fin MAXJOBS) :
    (t.jobs i).pid ≠ pid := by
  rw [getjobpid, if_neg (by omega), firstSlot_eq_none] at h
  exact of_decide_eq_false (h i)

/-- `deletejob` leaves no slot with the process. -/
theorem PidsUnique.deletejob (h : PidsUnique t) (hpid : 1 ≤ pid) (i : Fin MAXJOBS) :
    ((deletejob t pid).1.jobs i).pid ≠ pid := by
  rw [Shell.deletejob, if_neg (by omega)]
  cases hslot : firstSlot (fun job => decide (job.pid = pid)) t.jobs with
  | none => exact of_decide_eq_false (firstSlot_eq_none.mp hslot i)
  | some j =>
      have hj : (t.jobs j).pid = pid := of_decide_eq_true (firstSlot_some hslot)
      show (Function.update t.jobs j clearjob i).pid ≠ pid
      by_cases hij : i = j
      · subst hij
        rw [Function.update_self, clearjob]
        show (0 : ℤ) ≠ pid
        omega
      · rw [Function.update_of_ne hij]
        intro hi
        exact hij (h i j (by rw [Occupied]; omega) (hi.trans hj.symm))

end

/-- **What `waitpid` and its handling do**: to each slot, and to the slots of a process
that has ended or stopped. -/
theorem reap_slot (s : State) (pid : ℤ) (i : Fin MAXJOBS) :
    (reap s pid).table.jobs i = s.table.jobs i ∨ ((s.table.jobs i).pid = pid ∧ 1 ≤ pid ∧
      ((reap s pid).table.jobs i = clearjob ∨ ((s.child pid).status = .stopped ∧
        (reap s pid).table.jobs i = { s.table.jobs i with state := .ST }))) := by
  unfold reap
  cases hev : childEvent s.table pid (s.child pid).status.event with
  | none => exact Or.inl rfl
  | some t =>
      refine (childEvent_slot hev i).imp_right fun h => ⟨h.1, h.2.1, h.2.2.imp_right fun h => ?_⟩
      refine ⟨?_, h.2⟩
      have hstopped := h.1
      cases hstatus : (s.child pid).status with
      | stopped => rfl
      | _ => rw [hstatus] at hstopped; cases hstopped

theorem reap_ended {s : State} {pid : ℤ} (h : PidsUnique s.table) (hpid : 1 ≤ pid)
    (hended : (s.child pid).status.ended = true) (i : Fin MAXJOBS) :
    ((reap s pid).table.jobs i).pid ≠ pid := by
  unfold reap
  cases hstatus : (s.child pid).status with
  | running => rw [hstatus] at hended; cases hended
  | stopped => rw [hstatus] at hended; cases hended
  | exited => exact h.deletejob hpid i
  | signaled =>
      unfold Status.event childEvent
      cases hjob : getjobpid s.table pid with
      | none => exact getjobpid_none hjob hpid i
      | some j => exact h.deletejob hpid i

theorem reap_stopped {s : State} {pid : ℤ} (h : PidsUnique s.table) (hpid : 1 ≤ pid)
    (hstopped : (s.child pid).status = .stopped) {i : Fin MAXJOBS}
    (hi : (s.table.jobs i).pid = pid) :
    (reap s pid).table.jobs i = { s.table.jobs i with state := .ST } := by
  unfold reap
  rw [hstopped]
  unfold Status.event childEvent
  rw [h.getjobpid hi hpid]
  exact setState_self s.table i .ST

@[simp] theorem reap_kids (s : State) (pid : ℤ) : (reap s pid).kids = (collect s pid).kids := by
  unfold reap
  split <;> rfl

@[simp] theorem reap_child (s : State) (pid : ℤ) :
    (reap s pid).child = (collect s pid).child := by
  unfold reap
  split <;> rfl

@[simp] theorem reap_main (s : State) (pid : ℤ) : (reap s pid).main = s.main := by
  unfold reap
  split <;> rfl

/-- A child stays until it is returned after its end. -/
theorem mem_collect {s : State} {pid q : ℤ} :
    q ∈ (collect s pid).kids ↔ q ∈ s.kids ∧ ¬(q = pid ∧ (s.child pid).status.ended = true) := by
  unfold collect
  simp only
  split_ifs with hended
  · rw [Finset.mem_erase, hended]
    tauto
  · rw [eq_false_of_ne_true hended]
    tauto

/-! ## Jobs are children -/

/-- **Each job is a child that is not reaped**, and the job of no other slot; so is the
child that `eval` is about to add, which is not in the table. -/
structure Live (s : State) : Prop where
  pos : ∀ p ∈ s.kids, 1 ≤ p
  live : ∀ i, Occupied s.table i → (s.table.jobs i).pid ∈ s.kids
  unique : PidsUnique s.table
  fresh : ∀ p, s.main.adding = some p → p ∈ s.kids ∧ ∀ i, (s.table.jobs i).pid ≠ p

theorem live_start : Live start :=
  ⟨fun _ h => absurd h (Finset.notMem_empty _), fun _ h => absurd rfl h,
    fun _ _ h => absurd rfl h, nofun⟩

/-- Slots that are as before, or cleared, or with another state, keep the jobs. -/
theorem Live.slots {s s' : State} (h : Live s) (hkids : s'.kids = s.kids)
    (hmain : s'.main.adding = s.main.adding ∨ s'.main.adding = none)
    (hslot : ∀ i, (s'.table.jobs i).pid = (s.table.jobs i).pid) : Live s' := by
  refine ⟨fun p hp => h.pos p (hkids ▸ hp), fun i hi => ?_, fun i j hi hij => ?_, fun p hp => ?_⟩
  · rw [Occupied, hslot] at hi
    rw [hslot, hkids]
    exact h.live i hi
  · rw [Occupied, hslot] at hi
    rw [hslot, hslot] at hij
    exact h.unique i j hi hij
  · rcases hmain with hmain | hmain
    · obtain ⟨hmem, hne⟩ := h.fresh p (hmain ▸ hp)
      exact ⟨hkids ▸ hmem, fun i => (hslot i).symm ▸ hne i⟩
    · exact absurd (hmain.symm.trans hp) (by simp)

@[simp] theorem markJob_pid (t : Table) (job i : Fin MAXJOBS) (fg : Bool) :
    ((markJob t job fg).jobs i).pid = (t.jobs i).pid := by
  cases fg <;> exact setState_pid ..

/-- `addjob` for a child that is not in the table. -/
theorem Live.add {s : State} (h : Live s) {pid : ℤ} {bg : Bool} {cmdline : String}
    (hmain : s.main = .add pid bg cmdline) (state : JobState) :
    Live { s with table := (addjob s.table pid state cmdline).1, main := .unblock bg } := by
  obtain ⟨hmem, hne⟩ := h.fresh pid (congrArg Main.adding hmain)
  rcases addjob_slot s.table pid state cmdline with ⟨heq, -⟩ | ⟨-, k, hk, -, heq⟩
  · exact h.slots rfl (Or.inr rfl) fun i => by rw [heq]
  · have hpid : ∀ i, (((addjob s.table pid state cmdline).1).jobs i).pid =
        if i = k then pid else (s.table.jobs i).pid := by
      intro i
      rw [heq]
      by_cases hik : i = k
      · rw [if_pos hik, hik, Function.update_self]
      · rw [if_neg hik, Function.update_of_ne hik]
    refine ⟨h.pos, fun i hi => ?_, fun i j hi hij => ?_, nofun⟩
    · rw [Occupied, hpid] at hi
      show (((addjob s.table pid state cmdline).1).jobs i).pid ∈ s.kids
      rw [hpid]
      split_ifs at hi ⊢
      · exact hmem
      · exact h.live i hi
    · rw [Occupied] at hi
      simp only [hpid] at hi hij
      split_ifs at hi hij with hik hjk hjk
      · rw [hik, hjk]
      · exact absurd hij.symm (hne j)
      · exact absurd hij (hne i)
      · exact h.unique i j hi hij

/-- `waitpid` returns a child that is not being added. -/
theorem Live.reap {s : State} (h : Live s) {pid : ℤ} (hpid : pid ∈ s.kids)
    (hmain : s.main.adding = none) : Live (reap s pid) := by
  have hpos := h.pos pid hpid
  -- a slot keeps its process, or is cleared
  have hslot : ∀ i, Occupied (Shell.reap s pid).table i →
      ((Shell.reap s pid).table.jobs i).pid = (s.table.jobs i).pid := by
    intro i hi
    rcases reap_slot s pid i with heq | ⟨-, -, heq | ⟨-, heq⟩⟩
    · rw [heq]
    · rw [Occupied, heq] at hi
      exact absurd rfl hi
    · rw [heq]
  refine ⟨fun p hp => ?_, fun i hi => ?_, fun i j hi hij => ?_, fun p hp => ?_⟩
  · rw [reap_kids, mem_collect] at hp
    exact h.pos p hp.1
  · have hi' : Occupied s.table i := by rw [Occupied, ← hslot i hi]; exact hi
    rw [reap_kids, mem_collect]
    refine ⟨hslot i hi ▸ h.live i hi', ?_⟩
    rintro ⟨heq, hended⟩
    exact reap_ended h.unique hpos hended i heq
  · have hj : Occupied (Shell.reap s pid).table j := by rw [Occupied, ← hij]; exact hi
    have hi' : Occupied s.table i := by rw [Occupied, ← hslot i hi]; exact hi
    exact h.unique i j hi' (by rw [← hslot i hi, ← hslot j hj, hij])
  · rw [reap_main, hmain] at hp
    cases hp

/-- **Every step keeps the jobs live** that reaps no child before it is added. -/
theorem Live.change {s s' : State} {a : Act} (h : Live s) (hc : Change s a s')
    (hreap : ∀ pid, a = .reap pid → s.main.adding = none) : Live s' := by
  cases hc with
  | quiet htable hkids hchild hadding htarget =>
      refine ⟨fun p hp => h.pos p (hkids ▸ hp), ?_, ?_, fun p hp => ?_⟩
      · rw [htable, hkids]
        exact h.live
      · rw [htable]
        exact h.unique
      · rw [htable, hkids]
        exact h.fresh p (hadding ▸ hp)
  | @fork bg cmdline pid hhandlers hmain hpid hnew =>
      -- no slot has the new process, since it is not among the children
      have hne : ∀ i, (s.table.jobs i).pid ≠ pid := by
        intro i hi
        apply hnew
        rw [← hi]
        apply h.live
        rw [Occupied]
        omega
      refine ⟨fun p hp => ?_, fun i hi => Finset.mem_insert_of_mem (h.live i hi), h.unique, ?_⟩
      · rcases Finset.mem_insert.mp hp with rfl | hp
        · exact hpid
        · exact h.pos p hp
      · intro p hp
        obtain rfl := Option.some.inj hp
        exact ⟨Finset.mem_insert_self _ _, hne⟩
  | add hhandlers hmain => exact h.add hmain _
  | kill hhandlers hmain => exact h.slots rfl (Or.inr rfl) fun _ => rfl
  | @mark job fg hhandlers hmain =>
      refine h.slots rfl (Or.inr ?_) fun i => markJob_pid s.table job i fg
      cases fg <;> rfl
  | reap pid hhandlers hpid hreport => exact h.reap hpid (hreap pid rfl)
  | group pid hpid hstatus => exact h.slots rfl (Or.inl rfl) fun _ => rfl
  | status pid status hpid hended hcont => exact h.slots rfl (Or.inl rfl) fun _ => rfl

/-! ## No job is added after it has been reaped -/

/-- `SIGCHLD` is not delivered between the `fork` and the `addjob` of `eval`. -/
def QuietAdd (s : State) (a : Act) : Prop := ¬(a = .deliver .chld ∧ s.main.adding ≠ none)

instance (s : State) (a : Act) : Decidable (QuietAdd s a) := inferInstanceAs (Decidable (¬(_ ∧ _)))

/-- `sigchld_handler`, before or in its loop. -/
def Point.isChld : Point → Bool
  | .chldMask => true
  | .chldWait _ => true
  | _ => false

/-- While `eval` is about to add a child, `sigchld_handler` does not run. -/
def QuietHandlers (s : State) : Prop :=
  s.main.adding ≠ none → ∀ h ∈ s.handlers, h.point.isChld = false

/-- The main program moves only when no handler runs. -/
theorem step_adding {s s' : State} {a : Act} (h : step s a = some s')
    (hadding : s'.main.adding ≠ none) :
    s.main.adding ≠ none ∨ s'.handlers = [] := by
  obtain ⟨pid, hpid⟩ := Option.ne_none_iff_exists'.mp hadding
  cases step_change h with
  | quiet htable hkids hchild hsame htarget => exact Or.inl (hsame ▸ hadding)
  | fork pid hhandlers hmain => exact Or.inr hhandlers
  | add => cases hpid
  | kill => cases hpid
  | @mark job fg => cases fg <;> cases hpid
  | reap => exact Or.inl (by rw [reap_main] at hadding; exact hadding)
  | group => exact Or.inl hadding
  | status => exact Or.inl hadding

theorem QuietHandlers.keep {s s' : State} {a : Act} (h : QuietHandlers s) (hquiet : QuietAdd s a)
    (hstep : step s a = some s') : QuietHandlers s' := by
  intro hadding
  rcases step_adding hstep hadding with hadding | hnil
  · refine step_points (P := fun point => point.isChld = false) hstep (h hadding)
      (fun sig hsig => ?_) (fun k hs point _ hk hn => ?_) fun _ => rfl
    · cases sig with
      | chld => exact absurd ⟨hsig, hadding⟩ hquiet
      | _ => rfl
    · have hk' := h hadding k (hk ▸ List.mem_cons_self)
      cases hpoint : k.point <;> rw [hpoint] at hn hk' <;> cases hn <;> first | rfl | cases hk'
  · rw [hnil]
    nofun

/-- `waitpid` returns a child only to `sigchld_handler`, so not while `eval` is about to
add a child. -/
theorem QuietHandlers.reap {s s' : State} {pid : ℤ} (h : QuietHandlers s)
    (hstep : step s (.reap pid) = some s') : s.main.adding = none := by
  obtain ⟨prev, saved, hs, hhandlers, -⟩ := step_reap hstep
  by_contra hadding
  have hquiet := h hadding ⟨.chldWait prev, saved⟩ (hhandlers ▸ List.mem_cons_self)
  cases hquiet

/-- **Jobs stay live** while the additions are quiet. -/
theorem Live.step {s s' : State} {a : Act} (h : Live s) (hquiet : QuietHandlers s)
    (hstep : step s a = some s') : Live s' :=
  h.change (step_change hstep) fun _ hpid => hquiet.reap (hpid ▸ hstep)

/-- **Jobs are live in every run** whose additions are quiet. -/
theorem live_of_reachable {s : State} (h : Reachable QuietAdd s) : Live s ∧ QuietHandlers s := by
  refine Reachable.invariant (I := fun s => Live s ∧ QuietHandlers s) ?_ ?_ h
  · exact ⟨live_start, nofun⟩
  · rintro s s' a ⟨hlive, hquiet⟩ hok hstep
    exact ⟨hlive.step hquiet hstep, hquiet.keep hok hstep⟩

/-- No job is of a process that has been reaped, nor is the child that `eval` is about to
add. -/
def NoneReaped (s : State) : Prop :=
  (∀ i, Occupied s.table i → (s.table.jobs i).pid ∈ s.kids) ∧
  ∀ pid, s.main.adding = some pid → pid ∈ s.kids

/-- **No job is added after it has been reaped**, in a run in which `SIGCHLD` is not
delivered between a `fork` and its `addjob`. -/
theorem none_reaped {s : State} (h : Reachable QuietAdd s) : NoneReaped s := by
  obtain ⟨hlive, -⟩ := live_of_reachable h
  exact ⟨hlive.live, fun pid hpid => (hlive.fresh pid hpid).1⟩

/-- `ctrl-c` comes between the `fork` and the `addjob` of a program that ends at once. -/
def earlyEnd : List Act :=
  [.command (.run false "/bin/true\n"), .go, .fork 100, .setpgid 100, .tty .int, .deliver .int,
    .exit 100, .go, .deliver .chld, .go, .reap 100, .go, .go, .go, .go, .go, .go, .go]

theorem none_reaped_run : ∃ s, (s.table.jobs 0).pid = 100 ∧ s.kids = {100} ∧ NoneReaped s := by
  refine ⟨_, ?_, ?_, none_reaped (reachable_get QuietAdd
    [.command (.run false "/bin/true\n"), .go, .fork 100, .exit 100, .go] (by decide))⟩
  · decide
  · decide

/-- The process of the new job has been reaped. -/
theorem not_none_reaped : ¬ ∀ s, Reachable (fun _ _ => True) s → NoneReaped s := by
  intro h
  have hlive := (h _ (reachable_get _ earlyEnd (by decide))).1 0
  exact absurd (hlive (show _ ≠ _ by decide)) (by decide)

end Shell
