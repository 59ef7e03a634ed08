/-
# `waitfg` and the keys of the terminal

`waitfg` calls `sigsuspend` after its test of `fgpid`, with `SIGCHLD` not blocked: when
the foreground job stops or ends in between, the shell sleeps without one.  As long as
`sigchld_handler` does not handle that event there (`KeepsWait`), it does not
(`Watching`).

The handlers of the keys read `fgpid` and send their signal to its group, and end the
shell when there is none: the child has not made its group yet, or it has been reaped in
between.
-/
import CsappLabs.ShellTable

namespace Shell

/-! ## `waitfg` has a foreground job -/

/-- `waitfg` has passed its test. -/
def Wait.passed : Wait → Bool
  | .test => false
  | .suspend => true
  | .asleep _ => true

/-- `waitfg` is inside `sigsuspend`. -/
def Wait.sleeps : Wait → Bool
  | .asleep _ => true
  | _ => false

/-- The phase of `waitfg`, if the main program is in it. -/
def Main.wait : Main → Option Wait
  | .waitfg w => some w
  | _ => none

/-- The phase of `waitfg`, if a handler is in it. -/
def Point.wait : Point → Option Wait
  | .ttyWait _ w => some w
  | _ => none

/-- The main program or a handler is at the call of `sigsuspend`. -/
def AtSuspend (s : State) : Prop :=
  s.main.wait = some .suspend ∨ ∃ h ∈ s.handlers, h.point.wait = some .suspend

/-- `sigchld_handler` handles no stop and no end of the foreground process while `waitfg`
is between its test and `sigsuspend`. -/
def KeepsWait (s : State) (a : Act) : Prop :=
  AtSuspend s → a = .reap (fgpid s.table) → (s.child (fgpid s.table)).status = .running

/-- **Where `waitfg` has passed its test there is a foreground job**, and only what runs
can be inside `sigsuspend`. -/
structure Watching (s : State) : Prop where
  main : ∀ w, s.main.wait = some w → w.passed = true → 0 < fgpid s.table
  handlers : ∀ h ∈ s.handlers, ∀ w, h.point.wait = some w → w.passed = true → 0 < fgpid s.table
  mainTop : s.handlers ≠ [] → ∀ w, s.main.wait = some w → w.sleeps = false
  top : ∀ h ∈ s.handlers.tail, ∀ w, h.point.wait = some w → w.sleeps = false

theorem watching_start : Watching start := ⟨nofun, nofun, fun h => absurd rfl h, nofun⟩

/-- Only slots that are as before are marked as foreground jobs. -/
theorem reap_fg {s : State} {pid : ℤ} {i : Fin MAXJOBS}
    (hi : ((reap s pid).table.jobs i).state = .FG) :
    (reap s pid).table.jobs i = s.table.jobs i := by
  rcases reap_slot s pid i with heq | ⟨-, -, heq | ⟨-, heq⟩⟩
  · exact heq
  · rw [heq] at hi
    cases hi
  · rw [heq] at hi
    cases hi

/-- An event of another process keeps the foreground process. -/
theorem reap_fgpid {s : State} {pid : ℤ} (hfg : 0 < fgpid s.table)
    (hpid : pid ≠ fgpid s.table ∨ (s.child pid).status = .running) :
    fgpid (reap s pid).table = fgpid s.table := by
  rcases hpid with hpid | hrun
  · cases hslot : firstSlot (fun job => decide (job.state = .FG)) s.table.jobs with
    | none =>
        rw [fgpid, hslot] at hfg
        exact absurd hfg (lt_irrefl 0)
    | some i =>
        have heq : fgpid s.table = (s.table.jobs i).pid := by rw [fgpid, hslot]
        obtain ⟨hi, hfirst⟩ := firstSlot_eq_some_iff.mp hslot
        have hsame : (reap s pid).table.jobs i = s.table.jobs i := by
          rcases reap_slot s pid i with hsame | ⟨hi', -⟩
          · exact hsame
          · exact absurd (hi'.symm.trans heq.symm) hpid
        have hslot' : firstSlot (fun job => decide (job.state = .FG)) (reap s pid).table.jobs =
            some i := by
          apply firstSlot_eq_some_iff.mpr
          refine ⟨by rw [hsame]; exact hi, fun j hj => ?_⟩
          apply decide_eq_false
          intro hfgj
          have hold := hfirst j hj
          rw [← reap_fg hfgj, decide_eq_true hfgj] at hold
          cases hold
        rw [heq, fgpid, hslot']
        simp only [hsame]
  · unfold reap
    rw [hrun]
    rfl

/-- `waitfg` has passed its test when it has found a foreground job, or before the step. -/
theorem MainStep.wait {s s' : State} (h : MainStep s s') :
    ∀ w, s'.main.wait = some w → w.passed = true →
      s'.table = s.table ∧ (0 < fgpid s.table ∨ s.main.wait = some .suspend) := by
  intro w hw hpassed
  cases h with
  | @unblock bg hmain => cases bg <;> cases hw; cases hpassed
  | @mark job fg hmain => cases fg <;> cases hw; cases hpassed
  | test hmain hfg => exact ⟨rfl, Or.inl hfg⟩
  | suspend hmain => exact ⟨rfl, Or.inr (by rw [hmain]; rfl)⟩
  | _ => cases hw

theorem wake_main (s : State) :
    (wake s).1.main = s.main ∨ (wake s).1.main.wait = some .test := by
  unfold Shell.wake
  split
  · exact Or.inr rfl
  · exact Or.inl rfl
  · exact Or.inl rfl

/-- **What a step does to the main program**: nothing while a handler runs, but for the
end of `sigsuspend`. -/
theorem step_main {s s' : State} {a : Act} (h : step s a = some s') :
    (s.handlers = [] ∧ s'.handlers = [] ∧ ∀ w, s'.main.wait = some w → w.passed = true →
      s'.table = s.table ∧ (0 < fgpid s.table ∨ s.main.wait = some .suspend)) ∨
    s'.main = s.main ∨ s'.main.wait = some .test := by
  cases (step_cases h).2 with
  | line hhandlers hmain => exact Or.inl ⟨hhandlers, hhandlers, nofun⟩
  | find fg hhandlers hmain hjob => exact Or.inl ⟨hhandlers, hhandlers, nofun⟩
  | fork pid hhandlers hmain hpid hnew => exact Or.inl ⟨hhandlers, hhandlers, nofun⟩
  | main hhandlers hgo => exact Or.inl ⟨hhandlers, hgo.handlers.trans hhandlers, hgo.wait⟩
  | reap pid hhandlers hpid hreport => exact Or.inr (Or.inl (reap_main s pid))
  | deliver sig hsig hmask => exact Or.inr (wake_main s)
  | _ => exact Or.inr (Or.inl rfl)

/-- After a signal has ended `sigsuspend`, nothing is inside it. -/
theorem Watching.wake {s : State} (h : Watching s) :
    (∀ w, (wake s).1.main.wait = some w → w.sleeps = false) ∧
    ∀ k ∈ (wake s).1.handlers, ∀ w, k.point.wait = some w → w.sleeps = false := by
  unfold Shell.wake
  split
  · next hhandlers hmain =>
      refine ⟨fun w hw => ?_, fun k hk => ?_⟩
      · obtain rfl := Option.some.inj hw
        rfl
      · change k ∈ s.handlers at hk
        rw [hhandlers] at hk
        cases hk
  · next hhandlers =>
      refine ⟨h.mainTop (by rw [hhandlers]; nofun), fun k hk w hw => ?_⟩
      rcases List.mem_cons.mp hk with rfl | hk
      · obtain rfl := Option.some.inj hw
        rfl
      · exact h.top k (by rw [hhandlers]; exact hk) w hw
  · next hhandler hmain =>
      -- what runs was not inside `sigsuspend`
      refine ⟨fun w hw => ?_, fun k hk w hw => ?_⟩
      · cases hnil : s.handlers with
        | nil =>
            cases w with
            | asleep saved =>
                cases hm : s.main with
                | waitfg w =>
                    rw [hm] at hw
                    obtain rfl := Option.some.inj hw
                    exact absurd hm (hmain saved hnil)
                | _ => rw [hm] at hw; cases hw
            | _ => rfl
        | cons k hs => exact h.mainTop (by rw [hnil]; nofun) w hw
      · cases hcons : s.handlers with
        | nil => rw [hcons] at hk; cases hk
        | cons k' hs =>
            rw [hcons] at hk
            rcases List.mem_cons.mp hk with rfl | hk
            · cases w with
              | asleep saved =>
                  obtain ⟨point, ret⟩ := k
                  cases point with
                  | ttyWait prev w =>
                      obtain rfl := Option.some.inj hw
                      exact absurd hcons (hhandler prev saved ret hs)
                  | _ => cases hw
              | _ => rfl
            · exact h.top k (by rw [hcons]; exact hk) w hw

/-- A step leaves the table as it is, or no `waitfg` has passed its test after it, or it is
a `waitpid`. -/
theorem step_table {s s' : State} {a : Act} (h : step s a = some s') :
    s'.table = s.table ∨
    (s'.handlers = [] ∧ ∀ w, s'.main.wait = some w → w.passed = false) ∨
    ∃ pid, a = .reap pid ∧ s' = reap s pid := by
  cases step_change h with
  | quiet htable hkids hchild hadding htarget => exact Or.inl htable
  | fork pid hhandlers hmain hpid hnew => exact Or.inl rfl
  | add hhandlers hmain => exact Or.inr (Or.inl ⟨hhandlers, nofun⟩)
  | kill hhandlers hmain => exact Or.inl rfl
  | @mark job fg hhandlers hmain =>
      refine Or.inr (Or.inl ⟨hhandlers, fun w hw => ?_⟩)
      cases fg <;> cases hw
      rfl
  | reap pid hhandlers hpid hreport => exact Or.inr (Or.inr ⟨pid, rfl, rfl⟩)
  | group pid hpid hstatus => exact Or.inl rfl
  | status pid status hpid hended hcont => exact Or.inl rfl

/-- While `sigchld_handler` handles an event, a `waitfg` that has passed its test is at
the call of `sigsuspend`. -/
theorem Watching.atSuspend {s s' : State} {pid : ℤ} (h : Watching s)
    (hstep : step s (.reap pid) = some s')
    (hpassed : (∃ w, s.main.wait = some w ∧ w.passed = true) ∨
      ∃ k ∈ s.handlers, ∃ w, k.point.wait = some w ∧ w.passed = true) : AtSuspend s := by
  have hsuspend : ∀ w : Wait, w.passed = true → w.sleeps = false → w = .suspend := by
    intro w hw hs
    cases w with
    | test => cases hw
    | suspend => rfl
    | asleep saved => cases hs
  obtain ⟨prev, saved, hs, hhandlers, -⟩ := step_reap hstep
  rcases hpassed with ⟨w, hw, hp⟩ | ⟨k, hk, w, hw, hp⟩
  · have hsleeps := h.mainTop (by rw [hhandlers]; nofun) w hw
    exact Or.inl (hsuspend w hp hsleeps ▸ hw)
  · -- the running handler is `sigchld_handler`
    have htail : k ∈ s.handlers.tail := by
      rw [hhandlers] at hk ⊢
      rcases List.mem_cons.mp hk with rfl | hk
      · cases hw
      · exact hk
    exact Or.inr ⟨k, hk, hsuspend w hp (h.top k htail w hw) ▸ hw⟩

/-- **Every step keeps a foreground job** for what has passed the test. -/
theorem Watching.step {s s' : State} {a : Act} (h : Watching s) (hkeeps : KeepsWait s a)
    (hstep : Shell.step s a = some s') : Watching s' := by
  have hwait : (∀ w, s'.main.wait = some w → w.passed = true → 0 < fgpid s'.table) ∧
      ∀ k ∈ s'.handlers, ∀ w, k.point.wait = some w → w.passed = true → 0 < fgpid s'.table := by
    rcases step_table hstep with htable | ⟨hnil, htest⟩ | ⟨pid, rfl, rfl⟩
    · rw [htable]
      refine ⟨fun w hw hpassed => ?_, ?_⟩
      · rcases step_main hstep with ⟨-, -, hmain⟩ | hmain | hmain
        · rcases (hmain w hw hpassed).2 with hfg | hsuspend
          · exact hfg
          · exact h.main _ hsuspend rfl
        · exact h.main w (hmain ▸ hw) hpassed
        · obtain rfl := Option.some.inj (hmain.symm.trans hw)
          cases hpassed
      · refine step_points (P := fun point => ∀ w, point.wait = some w → w.passed = true →
          0 < fgpid s.table) hstep h.handlers (fun sig _ w hw => ?_) ?_ fun prev w hw hpassed => ?_
        · cases sig <;> cases hw
        · intro k hs point _ hk hn w hw hpassed
          have hk' := h.handlers k (hk ▸ List.mem_cons_self)
          generalize k.point = point' at hn hk'
          cases hn with
          | test hfg => exact hfg
          | suspend => exact hk' _ rfl rfl
          | killed => obtain rfl := Option.some.inj hw; cases hpassed
          | _ => cases hw
        · obtain rfl := Option.some.inj hw
          cases hpassed
    · refine ⟨fun w hw hpassed => ?_, by rw [hnil]; nofun⟩
      rw [htest w hw] at hpassed
      cases hpassed
    · -- the event is not that of the foreground process, as `waitfg` is at `sigsuspend`
      have hkeep : 0 < fgpid s.table → AtSuspend s → 0 < fgpid (reap s pid).table := by
        intro hfg hat
        rw [reap_fgpid hfg]
        · exact hfg
        · by_cases hpid : pid = fgpid s.table
          · subst hpid
            exact Or.inr (hkeeps hat rfl)
          · exact Or.inl hpid
      rw [reap_main, reap_handlers]
      exact ⟨fun w hw hpassed => hkeep (h.main w hw hpassed)
          (h.atSuspend hstep (Or.inl ⟨w, hw, hpassed⟩)),
        fun k hk w hw hpassed => hkeep (h.handlers k hk w hw hpassed)
          (h.atSuspend hstep (Or.inr ⟨k, hk, w, hw, hpassed⟩))⟩
  -- the main program is not inside `sigsuspend` while a handler runs
  have hmain : s.handlers ≠ [] → ∀ w, s'.main.wait = some w → w.sleeps = false := by
    intro hne w hw
    rcases step_main hstep with ⟨hnil, -⟩ | hmain | hmain
    · exact absurd hnil hne
    · exact h.mainTop hne w (hmain ▸ hw)
    · obtain rfl := Option.some.inj (hmain.symm.trans hw)
      rfl
  refine ⟨hwait.1, hwait.2, fun hne => ?_, fun k hk => ?_⟩
  · rcases step_handlers hstep with heq | ⟨-, k, hs, point, hhandlers, -⟩ | ⟨-, k, hhandlers⟩ |
      ⟨sig, rfl, -⟩
    · exact hmain (heq ▸ hne)
    · exact hmain (by rw [hhandlers]; nofun)
    · exact hmain (by rw [hhandlers]; nofun)
    · rw [step_deliver hstep]
      exact h.wake.1
  · rcases step_handlers hstep with heq | ⟨-, k', hs, point, hhandlers, -, heq⟩ | ⟨-, k', heq⟩ |
      ⟨sig, -, heq⟩
    · exact h.top k (heq ▸ hk)
    · rw [heq] at hk
      exact h.top k (by rw [hhandlers]; exact hk)
    · exact h.top k (by rw [heq]; exact List.mem_of_mem_tail hk)
    · rw [heq] at hk
      exact h.wake.2 k hk

/-- The shell is inside `sigsuspend`. -/
def Suspended (s : State) : Prop :=
  match s.handlers, s.main with
  | [], .waitfg (.asleep _) => True
  | ⟨.ttyWait _ (.asleep _), _⟩ :: _, _ => True
  | _, _ => False

/-- A shell that is suspended, with no signal pending, has a foreground job. -/
def SleepsWithJob (s : State) : Prop :=
  Suspended s → s.pending = ∅ → ∃ i, Occupied s.table i ∧ (s.table.jobs i).state = .FG

/-- **The shell sleeps with a foreground job** in every run in which `sigchld_handler`
handles no stop or end of the foreground process between the test of `waitfg` and its
`sigsuspend`. -/
theorem sleeps_with_job {s : State} (h : Reachable KeepsWait s) : SleepsWithJob s := by
  have hw : Watching s := h.invariant watching_start fun hw hok hstep => hw.step hok hstep
  intro hsuspended _
  have hfg : 0 < fgpid s.table := by
    unfold Suspended at hsuspended
    split at hsuspended
    · next hmain => exact hw.main _ (by rw [hmain]; rfl) rfl
    · next hhandlers => exact hw.handlers _ (hhandlers ▸ List.mem_cons_self) _ rfl rfl
    · exact absurd hsuspended id
  obtain ⟨i, hi, hpid⟩ := exists_of_fgpid (ne_of_gt hfg)
  exact ⟨i, by rw [Occupied, hpid]; exact ne_of_gt hfg, hi⟩

instance (s : State) : Decidable (AtSuspend s) :=
  inferInstanceAs (Decidable (_ ∨ ∃ h ∈ s.handlers, _))

instance (s : State) (a : Act) : Decidable (KeepsWait s a) :=
  inferInstanceAs (Decidable (_ → _ → _))

/-- The steps of `eval` for a foreground job, up to the test of `waitfg`. -/
def foreground (pid : ℤ) : List Act :=
  [.command (.run false "sleep\n"), .go, .fork pid, .setpgid pid, .go, .go]

theorem sleeps_with_job_run :
    ∃ s, Suspended s ∧ s.pending = ∅ ∧ SleepsWithJob s := by
  refine ⟨_, ?_, ?_, sleeps_with_job (reachable_get KeepsWait
    (foreground 100 ++ [.go, .go]) (by decide))⟩
  · exact trivial
  · decide

/-- The program ends between the test of `waitfg` and its `sigsuspend`. -/
def lostWakeup : List Act :=
  foreground 100 ++ [.go, .exit 100] ++ report 100 ++ reportEnd ++ [.go]

/-- The shell sleeps, and the table is empty. -/
theorem not_sleeps_with_job : ¬ ∀ s, Reachable (fun _ a => NoKeys a) s → SleepsWithJob s := by
  intro h
  have hjob := h _ (reachable_get _ lostWakeup (by decide)) trivial (by decide)
  exact absurd hjob (by decide)

/-! ## The keys of the terminal -/

/-- The process group of a child exists: it has called `setpgid`, and is not reaped. -/
def GroupExists (s : State) (pid : ℤ) : Prop := pid ∈ s.kids ∧ (s.child pid).group = true

/-- A handler of a key is about to read `fgpid`. -/
def Point.reads : Point → Bool
  | .ttyRead _ _ => true
  | _ => false

/-- The process that a handler of a key has read, and is about to send its signal to. -/
def Point.victim : Point → Option ℤ
  | .ttyKill _ _ pid => some pid
  | _ => none

/-- When a handler of a key reads `fgpid`, the foreground process has called `setpgid`;
`sigchld_handler` does not reap the process that a handler of a key has read; and
`SIGCHLD` is not delivered between a `fork` and its `addjob`. -/
def KeysFit (s : State) (a : Act) : Prop :=
  (∀ h ∈ s.handlers.head?, a = .go → h.point.reads = true → fgpid s.table ≠ 0 →
    (s.child (fgpid s.table)).group = true) ∧
  (∀ h ∈ s.handlers, ∀ pid ∈ h.point.victim, a = .reap pid →
    (s.child pid).status.ended = false) ∧
  QuietAdd s a

/-- The shell is not ended by `unix_error`, and each process that a handler of a key has
read has a group. -/
structure KillsSucceed (s : State) : Prop where
  alive : s.death ≠ some .unixError
  groups : ∀ h ∈ s.handlers, ∀ pid ∈ h.point.victim, GroupExists s pid

theorem killsSucceed_start : KillsSucceed start := ⟨nofun, nofun⟩

/-- A child that is written keeps its group, if it is written with one. -/
theorem group_update {child : ℤ → Child} {p pid : ℤ} {c : Child} (h : (child p).group = true)
    (hc : p = pid → c.group = true) : (Function.update child pid c p).group = true := by
  by_cases hp : p = pid
  · subst hp
    rw [Function.update_self]
    exact hc rfl
  · rw [Function.update_of_ne hp]
    exact h

/-- **A group stays** until its process is reaped. -/
theorem GroupExists.change {s s' : State} {a : Act} {p : ℤ} (h : GroupExists s p)
    (hc : Change s a s') (hreap : a = .reap p → (s.child p).status.ended = false) :
    GroupExists s' p := by
  obtain ⟨hkid, hgroup⟩ := h
  cases hc with
  | quiet htable hkids hchild hadding htarget =>
      unfold GroupExists
      rw [hkids, hchild]
      exact ⟨hkid, hgroup⟩
  | fork pid hhandlers hmain hpid hnew =>
      refine ⟨Finset.mem_insert_of_mem hkid, group_update hgroup ?_⟩
      rintro rfl
      exact absurd hkid hnew
  | add hhandlers hmain => exact ⟨hkid, hgroup⟩
  | @kill job fg hhandlers hmain =>
      refine ⟨hkid, ?_⟩
      show ((killCont s (s.table.jobs job).pid).child p).group = true
      unfold killCont
      simp only
      split_ifs <;> exact hgroup
  | mark hhandlers hmain => exact ⟨hkid, hgroup⟩
  | reap pid hhandlers hpid hreport =>
      unfold GroupExists
      rw [reap_kids, mem_collect, reap_child]
      refine ⟨⟨hkid, ?_⟩, group_update hgroup fun hp => hp ▸ hgroup⟩
      rintro ⟨rfl, hended⟩
      rw [hreap rfl] at hended
      cases hended
  | group pid hpid hstatus => exact ⟨hkid, group_update hgroup fun _ => rfl⟩
  | status pid status hpid hended hcont =>
      exact ⟨hkid, group_update hgroup fun hp => hp ▸ hgroup⟩

/-- The foreground process is a child. -/
theorem Live.fgpid {s : State} (h : Live s) (hfg : fgpid s.table ≠ 0) :
    Shell.fgpid s.table ∈ s.kids := by
  obtain ⟨i, -, hi⟩ := exists_of_fgpid hfg
  rw [← hi]
  exact h.live i (by rw [Occupied, hi]; exact hfg)

/-- **Every step keeps the groups** of the processes that are to get a signal. -/
theorem KillsSucceed.step {s s' : State} {a : Act} (h : KillsSucceed s) (hlive : Live s)
    (hfit : KeysFit s a) (hstep : Shell.step s a = some s') : KillsSucceed s' := by
  obtain ⟨hread, hreap, -⟩ := hfit
  -- a process that is to get a signal has its group before the step
  have hbefore : ∀ k ∈ s'.handlers, ∀ pid ∈ k.point.victim,
      GroupExists s pid ∧ (a = .reap pid → (s.child pid).status.ended = false) := by
    refine step_points (P := fun point => ∀ pid ∈ point.victim,
        GroupExists s pid ∧ (a = .reap pid → (s.child pid).status.ended = false))
      hstep (fun k hk pid hp => ⟨h.groups k hk pid hp, hreap k hk pid hp⟩) ?_ ?_ nofun
    · intro sig _ pid hp
      cases sig <;> cases hp
    · intro k hs point hgo hk hn pid hp
      have hread' := hread k (by rw [hk]; rfl) hgo
      generalize k.point = point' at hn hread'
      cases hn with
      | read hfg =>
          obtain rfl := Option.some.inj hp
          exact ⟨⟨hlive.fgpid hfg, hread' rfl hfg⟩, fun hr => absurd (hgo.symm.trans hr) nofun⟩
      | _ => cases hp
  refine ⟨?_, fun k hk pid hp => ?_⟩
  · rcases step_death hstep with hd | hd | ⟨hd, -⟩ | ⟨-, k, hs, sig, prev, pid, hk, hp, hgroup⟩
    · rw [hd]; nofun
    · rw [hd]; nofun
    · rw [hd]; nofun
    · exact absurd (h.groups k (hk ▸ List.mem_cons_self) pid (by rw [hp]; rfl)) hgroup
  · obtain ⟨hgroup, hended⟩ := hbefore k hk pid hp
    exact hgroup.change (step_change hstep) hended

/-- **The keys of the terminal do not end the shell** in a run that fits. -/
theorem kills_succeed {s : State} (h : Reachable KeysFit s) : KillsSucceed s := by
  have hall : KillsSucceed s ∧ Live s ∧ QuietHandlers s := by
    refine Reachable.invariant (I := fun s => KillsSucceed s ∧ Live s ∧ QuietHandlers s) ?_ ?_ h
    · exact ⟨killsSucceed_start, live_start, nofun⟩
    · rintro s s' a ⟨hkills, hlive, hquiet⟩ hfit hstep
      exact ⟨hkills.step hlive hfit hstep, hlive.step hquiet hstep, hquiet.keep hfit.2.2 hstep⟩
  exact hall.1

instance (s : State) (a : Act) : Decidable (KeysFit s a) :=
  inferInstanceAs (Decidable ((∀ h ∈ s.handlers.head?, _) ∧
    (∀ h ∈ s.handlers, ∀ pid ∈ h.point.victim, _) ∧ _))

theorem kills_succeed_run :
    ∃ s, s.handlers.map Handler.point = [.ttyKill .int {.int} 100] ∧ KillsSucceed s := by
  refine ⟨_, ?_, kills_succeed (reachable_get KeysFit
    (foreground 100 ++ [.tty .int, .deliver .int, .go, .go]) (by decide))⟩
  decide

/-- `ctrl-c` comes after the `addjob` of `eval`, and before the `setpgid` of the child. -/
def earlyKey : List Act :=
  [.command (.run false "sleep\n"), .go, .fork 100, .go, .go, .tty .int, .deliver .int, .go, .go,
    .go]

/-- `unix_error` ends the shell. -/
theorem not_kills_succeed : ¬ ∀ s, Reachable (fun _ _ => True) s → KillsSucceed s := by
  intro h
  have hkills := h _ (reachable_get _ earlyKey (by decide))
  exact absurd hkills.alive (by decide)

end Shell
