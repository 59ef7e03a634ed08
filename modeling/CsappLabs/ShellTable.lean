/-
# The table and the children

`eval` adds its child without a look at the result: when the table is full, the child is
in no slot, and `sigchld_handler` follows a null pointer.  As long as `eval` forks only
when there is a free slot, and `SIGCHLD` is not delivered between its `fork` and its
`addjob`, each child is in the table (`Listed`).

The state of a job is right after all events, as long as each job that is continued is
one that `do_bgfg` is about to mark, and a job that it marks has not stopped (`InStep`).

Without the keys of the terminal no handler but `sigchld_handler` runs, and that one not
between the `fork` of `eval` and the end of its `sigprocmask` (`Calm`): the additions of
such a run are quiet.
-/
import CsappLabs.ShellRuns

namespace Shell

/-! ## Runs without keys -/

/-- No key of the terminal is pressed. -/
def NoKeys (a : Act) : Prop := ∀ sig, a ≠ .tty sig

instance (a : Act) : Decidable (NoKeys a) := inferInstanceAs (Decidable (∀ sig, a ≠ .tty sig))

/-- `eval` has blocked `SIGCHLD`. -/
def Main.window : Main → Bool
  | .fork _ _ => true
  | .add _ _ _ => true
  | .unblock _ => true
  | _ => false

/-- Only `SIGCHLD` is pending, and it is blocked while `eval` adds a child. -/
structure Calm (s : State) : Prop where
  pending : ∀ sig ∈ s.pending, sig = .chld
  window : s.main.window = true → s.handlers = [] ∧ .chld ∈ s.mask

theorem calm_start : Calm start := ⟨fun _ h => absurd h (Finset.notMem_empty _), nofun⟩

/-- The main program sends no signal to the shell; a child that it continues does. -/
theorem MainStep.pending {s s' : State} (h : MainStep s s') {sig : Sig} (hsig : sig ∈ s'.pending) :
    sig ∈ s.pending ∨ sig = .chld := by
  cases h with
  | @kill job fg hmain =>
      change sig ∈ (killCont s (s.table.jobs job).pid).pending at hsig
      unfold killCont at hsig
      simp only at hsig
      split_ifs at hsig
      · exact (Finset.mem_insert.mp hsig).symm
      · exact Or.inl hsig
  | _ => exact Or.inl hsig

theorem reap_pending (s : State) (pid : ℤ) : (reap s pid).pending = s.pending := by
  unfold reap
  split <;> rfl

/-- A signal that is pending after a step was pending, or is `SIGCHLD`. -/
theorem step_pending {s s' : State} {a : Act} (h : step s a = some s') (hkeys : NoKeys a)
    {sig : Sig} (hsig : sig ∈ s'.pending) : sig ∈ s.pending ∨ sig = .chld := by
  cases (step_cases h).2 with
  | main hhandlers hgo => exact hgo.pending hsig
  | reap pid hhandlers hpid hreport => exact Or.inl (reap_pending s pid ▸ hsig)
  | deliver sig' hsig' hmask => exact Or.inl (Finset.mem_of_mem_erase hsig)
  | tty sig' => exact absurd rfl (hkeys sig')
  | stop pid _ _ | cont pid _ _ | exit pid _ _ | kill pid _ _ =>
      exact (Finset.mem_insert.mp hsig).symm
  | _ => exact Or.inl hsig

theorem wake_window {s : State} (h : (wake s).1.main.window = true) : s.main.window = true := by
  unfold wake at h
  split at h
  · cases h
  · exact h
  · exact h

/-- `eval` blocks `SIGCHLD` before its `fork`, and adds the child next. -/
theorem MainStep.window {s s' : State} (h : MainStep s s') (hcalm : Calm s)
    (hhandlers : s.handlers = []) (hwindow : s'.main.window = true) :
    s'.handlers = [] ∧ .chld ∈ s'.mask := by
  cases h with
  | block hmain => exact ⟨hhandlers, Finset.mem_insert_self _ _⟩
  | add hmain => exact hcalm.window (by rw [hmain]; rfl)
  | @unblock bg hmain => cases bg <;> cases hwindow
  | @mark job fg hmain => cases fg <;> cases hwindow
  | _ => cases hwindow

/-- **Every step keeps the shell calm**, except a key. -/
theorem Calm.step {s s' : State} {a : Act} (h : Calm s) (hkeys : NoKeys a)
    (hstep : Shell.step s a = some s') : Calm s' := by
  refine ⟨fun sig hsig => ?_, fun hwindow => ?_⟩
  · rcases step_pending hstep hkeys hsig with hsig | hsig
    · exact h.pending sig hsig
    · exact hsig
  · -- no handler runs while `eval` adds a child
    have habsurd : ∀ {k : Handler} {hs : List Handler}, s.handlers = k :: hs →
        s.main.window = true → s'.handlers = [] ∧ .chld ∈ s'.mask := by
      intro k hs hhandlers hmain
      have hnil := (h.window hmain).1
      rw [hhandlers] at hnil
      cases hnil
    cases (step_cases hstep).2 with
    | line hhandlers hmain => cases hwindow
    | find fg hhandlers hmain hjob => cases hwindow
    | fork pid hhandlers hmain hpid hnew => exact h.window (by rw [hmain]; rfl)
    | main hhandlers hgo => exact hgo.window h hhandlers hwindow
    | next hhandlers hnext => exact habsurd hhandlers hwindow
    | ret hhandlers => exact habsurd hhandlers hwindow
    | reap pid hhandlers hpid hreport =>
        rw [reap_main] at hwindow
        exact habsurd hhandlers hwindow
    | deliver sig hsig hmask =>
        obtain rfl := h.pending sig hsig
        exact absurd (h.window (wake_window hwindow)).2 hmask
    | tty sig => exact absurd rfl (hkeys sig)
    | _ => exact h.window hwindow

/-- `SIGCHLD` is blocked while `eval` is about to add a child. -/
theorem Calm.quietAdd {s s' : State} {a : Act} (h : Calm s) (hstep : Shell.step s a = some s') :
    QuietAdd s a := by
  rintro ⟨rfl, hadding⟩
  have hwindow : s.main.window = true := by
    cases hmain : s.main with
    | add pid bg cmdline => rfl
    | _ => exact absurd (by rw [hmain]; rfl) hadding
  cases (step_cases hstep).2 with
  | deliver _ _ hmask => exact hmask (h.window hwindow).2

/-- **A run without keys adds its children quietly.** -/
theorem Reachable.quietAdd {ok : State → Act → Prop} {s : State}
    (h : Reachable (fun s a => NoKeys a ∧ ok s a) s) :
    Reachable (fun s a => QuietAdd s a ∧ ok s a) s ∧ Calm s := by
  induction h with
  | init => exact ⟨.init, calm_start⟩
  | next _ hok hstep ih =>
      obtain ⟨hrun, hcalm⟩ := ih
      exact ⟨hrun.next ⟨hcalm.quietAdd hstep, hok.2⟩ hstep, hcalm.step hok.1 hstep⟩

/-! ## Each child is in the table -/

/-- `eval` forks only when there is a free slot. -/
def SlotFree (s : State) (a : Act) : Prop :=
  ∀ pid, a = .fork pid → ∃ i, (s.table.jobs i).pid = 0

instance (s : State) (a : Act) : Decidable (SlotFree s a) :=
  match a with
  | .fork _ => decidable_of_iff (∃ i, (s.table.jobs i).pid = 0) ⟨fun h _ _ => h, fun h => h _ rfl⟩
  | .command _ | .go | .reap _ | .deliver _ | .tty _ | .setpgid _ | .stop _ | .cont _ | .exit _
  | .kill _ => isTrue nofun

/-- **Each child is in the table**, or is being added while there is a free slot; no
handler has followed a null pointer. -/
structure Listed (s : State) : Prop where
  listed : ∀ p ∈ s.kids, s.main.adding = some p ∨ ∃ i, (s.table.jobs i).pid = p
  room : s.main.adding ≠ none → ∃ i, (s.table.jobs i).pid = 0
  alive : s.death ≠ some .nullJob

theorem listed_start : Listed start :=
  ⟨fun _ h => absurd h (Finset.notMem_empty _), fun h => absurd rfl h, nofun⟩

/-- A child that has not ended stays in its slot. -/
theorem reap_alive {s : State} {pid : ℤ} (halive : (s.child pid).status.ended = false)
    (i : Fin MAXJOBS) : ((reap s pid).table.jobs i).pid = (s.table.jobs i).pid := by
  unfold reap
  cases hstatus : (s.child pid).status with
  | running => rfl
  | stopped =>
      unfold Status.event childEvent
      cases getjobpid s.table pid with
      | none => rfl
      | some j => exact setState_pid ..
  | exited => rw [hstatus] at halive; cases halive
  | signaled => rw [hstatus] at halive; cases halive

/-- A job is found, so its event is handled. -/
theorem childEvent_some {t : Table} {i : Fin MAXJOBS} (hi : 1 ≤ (t.jobs i).pid) (ev : Event) :
    childEvent t (t.jobs i).pid ev ≠ none := by
  obtain ⟨j, hj⟩ := getjobpid_isSome hi
  cases ev with
  | stopped => unfold childEvent; rw [hj]; nofun
  | exited => nofun
  | signaled => unfold childEvent; rw [hj]; nofun
  | continued => nofun

/-- Slots with the same processes keep the children listed. -/
theorem Listed.slots {s s' : State} (h : Listed s) (hkids : s'.kids = s.kids)
    (hmain : s'.main.adding = s.main.adding) (hdeath : s'.death ≠ some .nullJob)
    (hslot : ∀ i, (s'.table.jobs i).pid = (s.table.jobs i).pid) : Listed s' := by
  refine ⟨fun p hp => ?_, fun hadding => ?_, hdeath⟩
  · rw [hmain]
    exact (h.listed p (hkids ▸ hp)).imp_right fun ⟨i, hi⟩ => ⟨i, (hslot i).trans hi⟩
  · obtain ⟨i, hi⟩ := h.room (hmain ▸ hadding)
    exact ⟨i, (hslot i).trans hi⟩

/-- `addjob` puts the child into the free slot. -/
theorem Listed.add {s : State} (h : Listed s) (hlive : Live s) {pid : ℤ} {bg : Bool}
    {cmdline : String} (hmain : s.main = .add pid bg cmdline) (state : JobState) :
    Listed { s with table := (addjob s.table pid state cmdline).1, main := .unblock bg } := by
  have hadding : s.main.adding = some pid := congrArg Main.adding hmain
  have hpid := hlive.pos pid (hlive.fresh pid hadding).1
  obtain ⟨i, hi⟩ := h.room (by rw [hadding]; nofun)
  refine ⟨fun p hp => Or.inr ?_, nofun, h.alive⟩
  rcases addjob_slot s.table pid state cmdline with ⟨-, hfull⟩ | ⟨-, k, hk, -, heq⟩
  · exact absurd hi (hfull hpid i)
  · simp only [heq]
    rcases h.listed p hp with hp' | ⟨j, hj⟩
    · obtain rfl := Option.some.inj (hadding.symm.trans hp')
      exact ⟨k, by rw [Function.update_self]⟩
    · have hjk : j ≠ k := by
        rintro rfl
        have := hlive.pos p hp
        omega
      exact ⟨j, by rw [Function.update_of_ne hjk]; exact hj⟩

/-- **Every step keeps the children listed**, when `eval` forks with a free slot. -/
theorem Listed.step {s s' : State} {a : Act} (h : Listed s) (hlive : Live s)
    (hquiet : QuietHandlers s) (hroom : SlotFree s a) (hstep : Shell.step s a = some s') :
    Listed s' := by
  have hdeath : s'.death ≠ some .nullJob := by
    rcases step_death hstep with hd | hd | ⟨-, pid, rfl, hnone⟩ | ⟨hd, -⟩
    · rw [hd]; nofun
    · rw [hd]; nofun
    · -- the child is in the table, as `eval` is not adding it
      obtain ⟨prev, saved, hs, -, hpid, -⟩ := step_reap hstep
      rcases h.listed pid hpid with hadding | ⟨i, rfl⟩
      · exact absurd ((hquiet.reap hstep).symm.trans hadding) nofun
      · exact absurd hnone (childEvent_some (hlive.pos _ hpid) _)
    · rw [hd]; nofun
  cases step_change hstep with
  | quiet htable hkids hchild hadding htarget =>
      exact h.slots hkids hadding hdeath fun i => by rw [htable]
  | @fork bg cmdline pid hhandlers hmain hpid hnew =>
      refine ⟨fun p hp => ?_, fun _ => hroom pid rfl, hdeath⟩
      rcases Finset.mem_insert.mp hp with rfl | hp
      · exact Or.inl rfl
      · rcases h.listed p hp with hadding | hi
        · rw [hmain] at hadding
          cases hadding
        · exact Or.inr hi
  | add hhandlers hmain => exact h.add hlive hmain _
  | kill hhandlers hmain => exact h.slots rfl (by rw [hmain]; rfl) hdeath fun _ => rfl
  | @mark job fg hhandlers hmain =>
      refine h.slots rfl ?_ hdeath fun i => markJob_pid s.table job i fg
      rw [hmain]
      cases fg <;> rfl
  | reap pid hhandlers hpid hreport =>
      -- a slot is cleared only of a process that is reaped
      have hadding := hquiet.reap hstep
      refine ⟨fun p hp => Or.inr ?_, fun hadd => ?_, hdeath⟩
      · rw [reap_kids, mem_collect] at hp
        rcases h.listed p hp.1 with hadd | ⟨i, hi⟩
        · exact absurd (hadding.symm.trans hadd) nofun
        · refine ⟨i, ?_⟩
          by_cases hpp : p = pid
          · rw [reap_alive (eq_false_of_ne_true fun hended => hp.2 ⟨hpp, hended⟩)]
            exact hi
          · rcases reap_slot s pid i with heq | ⟨hi', -⟩
            · rw [heq]
              exact hi
            · exact absurd (hi.symm.trans hi') hpp
      · rw [reap_main, hadding] at hadd
        exact absurd rfl hadd
  | group pid hpid hstatus => exact h.slots rfl rfl hdeath fun _ => rfl
  | status pid status hpid hended hcont => exact h.slots rfl rfl hdeath fun _ => rfl

/-- No handler has followed a null pointer, and the job of each child but the one that is
being added is found. -/
def NoNullJob (s : State) : Prop :=
  s.death ≠ some .nullJob ∧
  ∀ p ∈ s.kids, s.main.adding ≠ some p → ∃ i, getjobpid s.table p = some i

/-- **`sigchld_handler` follows no null pointer**, in a run in which `eval` forks only when
there is a free slot and `SIGCHLD` is not delivered between a `fork` and its `addjob`. -/
theorem no_null_job {s : State} (h : Reachable (fun s a => QuietAdd s a ∧ SlotFree s a) s) :
    NoNullJob s := by
  have hall : Listed s ∧ Live s ∧ QuietHandlers s := by
    refine Reachable.invariant (I := fun s => Listed s ∧ Live s ∧ QuietHandlers s) ?_ ?_ h
    · exact ⟨listed_start, live_start, nofun⟩
    · rintro s s' a ⟨hlisted, hlive, hquiet⟩ ⟨hadd, hroom⟩ hstep
      exact ⟨hlisted.step hlive hquiet hroom hstep, hlive.step hquiet hstep,
        hquiet.keep hadd hstep⟩
  obtain ⟨hlisted, hlive, -⟩ := hall
  refine ⟨hlisted.alive, fun p hp hadding => ?_⟩
  obtain ⟨i, rfl⟩ := (hlisted.listed p hp).resolve_left hadding
  exact getjobpid_isSome (hlive.pos _ hp)

/-- The steps of `eval` for a background job, up to its `sigprocmask`. -/
def background (pid : ℤ) : List Act :=
  [.command (.run true "sleep &\n"), .go, .fork pid, .setpgid pid, .go, .go]

/-- `sigchld_handler` starts, and `waitpid` returns a child. -/
def report (pid : ℤ) : List Act := [.deliver .chld, .go, .reap pid]

/-- `ctrl-c` at the prompt: the handler finds no foreground job, and returns. -/
def idleKey : List Act := [.tty .int, .deliver .int, .go, .go, .go, .go]

theorem no_null_job_run : ∃ s, Reachable (fun s a => QuietAdd s a ∧ SlotFree s a) s ∧
    (s.table.jobs 1).state = .ST ∧ s.kids = {100, 101} ∧ NoNullJob s := by
  have hrun := reachable_get (fun s a => QuietAdd s a ∧ SlotFree s a)
    (background 100 ++ idleKey ++ background 101 ++ .stop 101 :: report 101) (by decide)
  refine ⟨_, hrun, ?_, ?_, no_null_job hrun⟩
  · decide
  · decide

/-- Seventeen background jobs, the last of which is killed. -/
def seventeen : List Act :=
  (List.range 17).flatMap (fun k => background (100 + k)) ++ .kill 116 :: report 116

/-- The last job is in no slot. -/
theorem not_no_null_job : ¬ ∀ s, Reachable (fun _ a => NoKeys a) s → NoNullJob s := by
  intro h
  have hdeath := (h _ (reachable_get _ seventeen (by decide +kernel))).1
  exact absurd hdeath (by decide +kernel)

/-! ## The states of the jobs -/

/-- A step continues the child `q`: another process does, or `do_bgfg`. -/
def Continued (s : State) (a : Act) (q : ℤ) : Prop :=
  a = .cont q ∨ (a = .go ∧ ∃ job fg, s.main = .kill job fg ∧ s.Continues (s.table.jobs job).pid q)

/-- The child has stopped, and `waitpid` has reported it. -/
def StopReported (s : State) (p : ℤ) : Prop :=
  (s.child p).status = .stopped ∧ (s.child p).report = false

/-- A job that is marked as stopped is continued only when `do_bgfg` is about to write its
slot, and `do_bgfg` writes no slot of a job whose stop has been reported. -/
def MarksFit (s : State) (a : Act) : Prop :=
  (∀ i, Occupied s.table i → (s.table.jobs i).state = .ST →
    Continued s a (s.table.jobs i).pid → s.main.target = some i) ∧
  ∀ job fg, a = .go → s.main = .mark job fg →
    ∀ i, s.main.target = some i → Occupied s.table i → ¬StopReported s (s.table.jobs i).pid

/-- **The states are in step with the children**: a stop that is reported is marked, a
mark of a child that runs is about to be replaced, and an end is still to be reported. -/
structure InStep (s : State) : Prop where
  stopped : ∀ i, Occupied s.table i → StopReported s (s.table.jobs i).pid →
    (s.table.jobs i).state = .ST
  running : ∀ i, Occupied s.table i → (s.table.jobs i).state = .ST →
    (s.child (s.table.jobs i).pid).status = .running → s.main.target = some i
  adding : ∀ p, s.main.adding = some p → ¬StopReported s p
  ended : ∀ p ∈ s.kids, (s.child p).status.ended = true → (s.child p).report = true

theorem inStep_start : InStep start :=
  ⟨fun _ h => absurd rfl h, fun _ h => absurd rfl h, nofun,
    fun _ h => absurd h (Finset.notMem_empty _)⟩

/-- A new child has not stopped. -/
theorem InStep.fork {s : State} (h : InStep s) (hlive : Live s) {pid : ℤ} {bg : Bool}
    {cmdline : String} (hmain : s.main = .fork bg cmdline) (hnew : pid ∉ s.kids) :
    InStep { s with
      kids := insert pid s.kids
      child := Function.update s.child pid ⟨.running, false, false⟩
      main := .add pid bg cmdline } := by
  have hother : ∀ i, Occupied s.table i →
      Function.update s.child pid ⟨.running, false, false⟩ (s.table.jobs i).pid =
        s.child (s.table.jobs i).pid := by
    intro i hi
    apply Function.update_of_ne
    rintro rfl
    exact hnew (hlive.live i hi)
  refine ⟨fun i hi hstop => ?_, fun i hi hst hrun => ?_, fun p hp hstop => ?_, fun p hp hend => ?_⟩
  · unfold StopReported at hstop
    simp only [hother i hi] at hstop
    exact h.stopped i hi hstop
  · simp only [hother i hi] at hrun
    have htarget := h.running i hi hst hrun
    rw [hmain] at htarget
    cases htarget
  · obtain rfl := Option.some.inj hp
    unfold StopReported at hstop
    simp only [Function.update_self] at hstop
    cases hstop.1
  · simp only at hend ⊢
    by_cases hpp : p = pid
    · subst hpp
      rw [Function.update_self] at hend
      cases hend
    · rw [Function.update_of_ne hpp] at hend ⊢
      exact h.ended p (Finset.mem_of_mem_insert_of_ne hp hpp) hend

/-- A new job is not marked as stopped. -/
theorem InStep.add {s : State} (h : InStep s) {pid : ℤ} {bg : Bool} {cmdline : String}
    (hmain : s.main = .add pid bg cmdline) :
    InStep { s with
      table := (addjob s.table pid (if bg then .BG else .FG) cmdline).1
      main := .unblock bg } := by
  have htarget : s.main.target = none := congrArg Main.target hmain
  have hnew : ¬StopReported s pid := h.adding pid (congrArg Main.adding hmain)
  have hrun : ∀ i, Occupied s.table i → (s.table.jobs i).state = .ST →
      (s.child (s.table.jobs i).pid).status ≠ .running := by
    intro i hi hst hrun
    exact absurd (htarget.symm.trans (h.running i hi hst hrun)) nofun
  rcases addjob_slot s.table pid (if bg then .BG else .FG) cmdline with
    ⟨heq, -⟩ | ⟨-, k, hk, -, heq⟩
  · rw [heq]
    exact ⟨h.stopped, fun i hi hst hr => absurd hr (hrun i hi hst), nofun, h.ended⟩
  · have hslot : ∀ i, i = k ∧ ((addjob s.table pid (if bg then .BG else .FG) cmdline).1.jobs i) =
        ⟨pid, s.table.nextjid, if bg then .BG else .FG, cmdline⟩ ∨
        i ≠ k ∧ (addjob s.table pid (if bg then .BG else .FG) cmdline).1.jobs i =
          s.table.jobs i := by
      intro i
      rw [heq]
      by_cases hik : i = k
      · exact Or.inl ⟨hik, by rw [hik, Function.update_self]⟩
      · exact Or.inr ⟨hik, Function.update_of_ne hik ..⟩
    refine ⟨fun i hi hstop => ?_, fun i hi hst hr => ?_, nofun, h.ended⟩
    · rcases hslot i with ⟨-, hi'⟩ | ⟨-, hi'⟩ <;> simp only [Occupied, hi'] at hi hstop ⊢
      · exact absurd hstop hnew
      · exact h.stopped i hi hstop
    · rcases hslot i with ⟨-, hi'⟩ | ⟨-, hi'⟩ <;> simp only [Occupied, hi'] at hi hst hr
      · cases bg <;> cases hst
      · exact absurd hr (hrun i hi hst)

/-- `kill(-pid, SIGCONT)` continues jobs that `do_bgfg` is about to mark. -/
theorem InStep.kill {s : State} (h : InStep s) {job : Fin MAXJOBS} {fg : Bool}
    (hmain : s.main = .kill job fg) (hfit : MarksFit s .go) :
    InStep { killCont s (s.table.jobs job).pid with main := .mark job fg } := by
  have htarget : s.main.target = (Main.mark job fg).target := by rw [hmain]; rfl
  have hchild : ∀ q, (killCont s (s.table.jobs job).pid).child q =
      if s.Continues (s.table.jobs job).pid q then
        { s.child q with status := .running, report := true }
      else s.child q := fun _ => rfl
  refine ⟨fun i hi hstop => ?_, fun i hi hst hrun => ?_, nofun, fun p hp hend => ?_⟩
  · unfold StopReported at hstop
    simp only [hchild] at hstop
    split_ifs at hstop
    · cases hstop.1
    · exact h.stopped i hi hstop
  · simp only [hchild] at hrun
    rw [← htarget]
    split_ifs at hrun with hcont
    · exact hfit.1 i hi hst (Or.inr ⟨rfl, job, fg, hmain, hcont⟩)
    · exact h.running i hi hst hrun
  · simp only [hchild] at hend ⊢
    split_ifs at hend ⊢
    · rfl
    · exact h.ended p hp hend

/-- The assignment of `do_bgfg` marks no job as stopped. -/
theorem InStep.mark {s : State} (h : InStep s) {job : Fin MAXJOBS} {fg : Bool}
    (hmain : s.main = .mark job fg) (hfit : MarksFit s .go) :
    InStep { s with
      table := markJob s.table job fg
      main := if fg then .waitfg .test else .prompt } := by
  obtain ⟨k, hk⟩ : ∃ k, s.main.target = some k := by rw [hmain]; exact ⟨_, rfl⟩
  have hself : ((markJob s.table job fg).jobs k).state ≠ .ST := by
    rw [hmain] at hk
    obtain rfl := Option.some.inj hk
    cases fg
    · show ((s.table.setState job .BG).jobs job).state ≠ .ST
      rw [setState_self]
      nofun
    · show ((s.table.setState 0 .FG).jobs 0).state ≠ .ST
      rw [setState_self]
      nofun
  have hother : ∀ i, i ≠ k → (markJob s.table job fg).jobs i = s.table.jobs i := by
    intro i hi
    rw [hmain] at hk
    obtain rfl := Option.some.inj hk
    cases fg <;> exact setState_of_ne hi
  have hnone : (if fg then Main.waitfg .test else .prompt).adding = none := by cases fg <;> rfl
  refine ⟨fun i hi hstop => ?_, fun i hi hst hrun => ?_,
    fun p hp => absurd (hnone.symm.trans hp) nofun, h.ended⟩
  · rw [Occupied, markJob_pid] at hi
    rw [markJob_pid] at hstop
    by_cases hik : i = k
    · subst hik
      exact absurd hstop (hfit.2 job fg rfl hmain i hk hi)
    · simp only [hother i hik]
      exact h.stopped i hi hstop
  · by_cases hik : i = k
    · subst hik
      exact absurd hst hself
    · rw [Occupied] at hi
      simp only [hother i hik] at hi hst hrun
      exact absurd (hk.symm.trans (h.running i hi hst hrun))
        fun heq => hik (Option.some.inj heq).symm

/-- `waitpid` reports a change of a child: a stop is marked. -/
theorem InStep.reap {s : State} (h : InStep s) (hlive : Live s) {pid : ℤ} (hpid : pid ∈ s.kids)
    (hadding : s.main.adding = none) : InStep (reap s pid) := by
  have hchild : ∀ q, q ≠ pid → (Shell.reap s pid).child q = s.child q := by
    intro q hq
    rw [reap_child]
    exact Function.update_of_ne hq ..
  have hstatus : ∀ q, ((Shell.reap s pid).child q).status = (s.child q).status := by
    intro q
    by_cases hq : q = pid
    · subst hq
      rw [reap_child]
      show (Function.update s.child q { s.child q with report := false } q).status = _
      rw [Function.update_self]
    · rw [hchild q hq]
  -- a job that is still there is as it was, or is marked as stopped
  have hslot : ∀ i, Occupied (Shell.reap s pid).table i →
      (Shell.reap s pid).table.jobs i = s.table.jobs i ∨
      ((s.child pid).status = .stopped ∧ (s.table.jobs i).pid = pid ∧
        (Shell.reap s pid).table.jobs i = { s.table.jobs i with state := .ST }) := by
    intro i hi
    rcases reap_slot s pid i with heq | ⟨hp, -, heq | ⟨hstop, heq⟩⟩
    · exact Or.inl heq
    · rw [Occupied, heq] at hi
      exact absurd rfl hi
    · exact Or.inr ⟨hstop, hp, heq⟩
  refine ⟨fun i hi hstop => ?_, fun i hi hst hrun => ?_, fun p hp => ?_, fun p hp hend => ?_⟩
  · rcases hslot i hi with heq | ⟨-, -, heq⟩
    · rw [Occupied, heq] at hi
      rw [heq] at hstop ⊢
      by_cases hp : (s.table.jobs i).pid = pid
      · have hstopped := hstop.1
        rw [hstatus, hp] at hstopped
        have hmark := reap_stopped hlive.unique (hlive.pos pid hpid) hstopped hp
        rw [← heq, hmark]
      · rw [StopReported, hchild _ hp] at hstop
        exact h.stopped i hi hstop
    · rw [heq]
  · rw [hstatus] at hrun
    rw [reap_main]
    rcases hslot i hi with heq | ⟨hstop, hp, heq⟩
    · rw [Occupied, heq] at hi
      rw [heq] at hst hrun
      exact h.running i hi hst hrun
    · rw [heq] at hrun
      simp only [hp, hstop] at hrun
      cases hrun
  · rw [reap_main, hadding] at hp
    cases hp
  · rw [reap_kids, mem_collect] at hp
    rw [hstatus] at hend
    by_cases hpp : p = pid
    · exact absurd ⟨hpp, hpp ▸ hend⟩ hp.2
    · rw [hchild p hpp]
      exact h.ended p hp.1 hend

/-- A child changes its status: the change is still to be reported. -/
theorem InStep.change {s : State} (h : InStep s) {a : Act} {pid : ℤ} {status : Status}
    (hcont : status = .running → a = .cont pid) (hfit : MarksFit s a) :
    InStep (change s pid status) := by
  have hself : (Shell.change s pid status).child pid =
      { s.child pid with status := status, report := true } := Function.update_self ..
  have hother : ∀ q, q ≠ pid → (Shell.change s pid status).child q = s.child q :=
    fun _ hq => Function.update_of_ne hq ..
  have hreported : ∀ q, StopReported (Shell.change s pid status) q → StopReported s q := by
    intro q hq
    by_cases hqp : q = pid
    · subst hqp
      rw [StopReported, hself] at hq
      cases hq.2
    · rw [StopReported, hother q hqp] at hq
      exact hq
  refine ⟨fun i hi hstop => h.stopped i hi (hreported _ hstop), fun i hi hst hrun => ?_,
    fun p hp hstop => h.adding p hp (hreported p hstop), fun p hp hend => ?_⟩
  · change ((Shell.change s pid status).child (s.table.jobs i).pid).status = .running at hrun
    by_cases hp : (s.table.jobs i).pid = pid
    · rw [hp, hself] at hrun
      exact hfit.1 i hi hst (Or.inl (hp.symm ▸ hcont hrun))
    · rw [hother _ hp] at hrun
      exact h.running i hi hst hrun
  · by_cases hpp : p = pid
    · subst hpp
      rw [hself]
    · rw [hother p hpp] at hend ⊢
      exact h.ended p hp hend

/-- **Every step keeps the states in step**, when the marks fit. -/
theorem InStep.step {s s' : State} {a : Act} (h : InStep s) (hlive : Live s)
    (hquiet : QuietHandlers s) (hfit : MarksFit s a) (hstep : Shell.step s a = some s') :
    InStep s' := by
  cases step_change hstep with
  | quiet htable hkids hchild hadding htarget =>
      refine ⟨?_, ?_, ?_, ?_⟩
      · unfold StopReported
        rw [htable, hchild]
        exact h.stopped
      · intro i hi hst hrun
        rw [htable] at hi hst hrun
        rw [hchild] at hrun
        have hi' := h.running i hi hst hrun
        rcases htarget with htarget | htarget
        · rw [htarget]
          exact hi'
        · exact absurd (htarget.symm.trans hi') nofun
      · unfold StopReported
        rw [hchild, hadding]
        exact h.adding
      · rw [hkids, hchild]
        exact h.ended
  | fork pid hhandlers hmain hpid hnew => exact h.fork hlive hmain hnew
  | add hhandlers hmain => exact h.add hmain
  | kill hhandlers hmain => exact h.kill hmain hfit
  | mark hhandlers hmain => exact h.mark hmain hfit
  | reap pid hhandlers hpid hreport => exact h.reap hlive hpid (hquiet.reap hstep)
  | group pid hpid hstatus =>
      have hsame : ∀ q, (Function.update s.child pid { s.child pid with group := true } q).status =
            (s.child q).status ∧
          (Function.update s.child pid { s.child pid with group := true } q).report =
            (s.child q).report := by
        intro q
        by_cases hq : q = pid
        · subst hq
          rw [Function.update_self]
          exact ⟨rfl, rfl⟩
        · rw [Function.update_of_ne hq]
          exact ⟨rfl, rfl⟩
      refine ⟨?_, ?_, ?_, ?_⟩ <;> (try unfold StopReported) <;> simp only [hsame]
      · exact h.stopped
      · exact h.running
      · exact h.adding
      · exact h.ended
  | status pid status hpid hended hcont => exact h.change hcont hfit

/-- The shell is at its prompt, and every event has been handled. -/
def Quiescent (s : State) : Prop :=
  s.main = .prompt ∧ s.handlers = [] ∧ ∀ p ∈ s.kids, (s.child p).report = false

/-- A job is marked as stopped exactly when its process is. -/
def StatesAgree (s : State) : Prop :=
  ∀ i, Occupied s.table i →
    ((s.table.jobs i).state = .ST ↔ (s.child (s.table.jobs i).pid).status = .stopped)

/-- **The table agrees with the processes** at the prompt after all events, in a run
whose marks fit and in which `SIGCHLD` is not delivered between a `fork` and its
`addjob`. -/
theorem states_agree {s : State} (h : Reachable (fun s a => QuietAdd s a ∧ MarksFit s a) s)
    (hquiescent : Quiescent s) : StatesAgree s := by
  have hall : InStep s ∧ Live s ∧ QuietHandlers s := by
    refine Reachable.invariant (I := fun s => InStep s ∧ Live s ∧ QuietHandlers s) ?_ ?_ h
    · exact ⟨inStep_start, live_start, nofun⟩
    · rintro s s' a ⟨hin, hlive, hquiet⟩ ⟨hadd, hfit⟩ hstep
      exact ⟨hin.step hlive hquiet hfit hstep, hlive.step hquiet hstep, hquiet.keep hadd hstep⟩
  obtain ⟨hin, hlive, -⟩ := hall
  obtain ⟨hprompt, -, hreport⟩ := hquiescent
  intro i hi
  have hkid := hlive.live i hi
  constructor
  · intro hst
    -- it does not run, since nothing is about to be marked; an end would be unreported
    cases hstatus : (s.child (s.table.jobs i).pid).status with
    | stopped => rfl
    | running =>
        have htarget := hin.running i hi hst hstatus
        rw [hprompt] at htarget
        cases htarget
    | _ =>
        have hunreported := hin.ended _ hkid (by rw [hstatus]; rfl)
        rw [hreport _ hkid] at hunreported
        cases hunreported
  · exact fun hstop => hin.stopped i hi ⟨hstop, hreport _ hkid⟩

instance (s : State) (a : Act) (q : ℤ) : Decidable (Continued s a q) :=
  inferInstanceAs (Decidable (_ ∨ (_ ∧ ∃ (_ : Fin MAXJOBS) (_ : Bool), _)))

instance (s : State) (p : ℤ) : Decidable (StopReported s p) :=
  inferInstanceAs (Decidable (_ ∧ _))

instance (s : State) (a : Act) : Decidable (MarksFit s a) :=
  inferInstanceAs (Decidable ((∀ _ : Fin MAXJOBS, _) ∧ ∀ (_ : Fin MAXJOBS) (_ : Bool), _))

instance (s : State) : Decidable (Quiescent s) :=
  inferInstanceAs (Decidable (_ ∧ _ ∧ ∀ p ∈ s.kids, _))

/-- `sigchld_handler` finds no more reports, and returns. -/
def reportEnd : List Act := [.go, .go, .go]

/-- A program in the foreground, up to the test of `waitfg`, and `ctrl-z`: the program
stops, both handlers return, and the shell is back at its prompt. -/
def stoppedByKey (pid : ℤ) : List Act :=
  [.command (.run false "sleep\n"), .go, .fork pid, .setpgid pid, .go, .go] ++
    [.tty .tstp, .deliver .tstp, .go, .go, .go, .stop pid] ++ report pid ++ reportEnd ++
    [.go, .go, .go, .go]

/-- A job stops by a key, and `bg` continues it. -/
theorem states_agree_run : ∃ s, Reachable (fun s a => QuietAdd s a ∧ MarksFit s a) s ∧
    Quiescent s ∧ (s.table.jobs 0).state = .BG ∧ s.kids = {100} ∧ StatesAgree s := by
  have hrun := reachable_get (fun s a => QuietAdd s a ∧ MarksFit s a)
    (stoppedByKey 100 ++ [.command (.bgfg false true 1), .go, .go] ++ report 100 ++ reportEnd)
    (by decide)
  refine ⟨_, hrun, ?_, ?_, ?_, states_agree hrun ?_⟩
  · decide
  · decide
  · decide
  · decide

/-- The job in slot 1 stops, and `fg` continues it; `waitfg` waits for the job in slot 0. -/
def foregroundSecond : List Act :=
  background 100 ++ background 101 ++ .stop 101 :: report 101 ++ reportEnd ++
    [.command (.bgfg true true 2), .go, .go, .exit 100] ++ report 100 ++ [.reap 101] ++ reportEnd ++
    [.go]

/-- The job that `fg` has continued is still marked as stopped. -/
theorem not_states_agree : ¬ ∀ s, Reachable (fun _ a => NoKeys a) s → Quiescent s →
    StatesAgree s := by
  intro h
  have hagree := h _ (reachable_get _ foregroundSecond (by decide)) (by decide) 1
  exact absurd ((hagree (by decide)).mp (by decide)) (by decide)

end Shell
