/-
# The commands `fg` and `bg`

What `do_bgfg` does to the job that its argument names.  The argument is the id of a
process, or `%` and the id of a job, and `Atoi` reads the number.

The job is found in its slot, and `SIGCONT` is sent to its group, which exists when the
process has called `setpgid` and is not reaped; the result of `kill` is not looked at.  `bg`
writes the state of that slot; `fg` writes the state of slot 0, whatever slot the job is in.
While the program runs from one call to the next, the children and the keys of the terminal
act (`Meanwhile`); no signal is delivered to the shell before it waits.
-/
import CsappLabs.ShellSignals
import CsappLabs.CString

open CString

namespace Shell

/-! ## The argument -/

def INT_MAX : ℤ := 2 ^ 31 - 1

def INT_MIN : ℤ := -(2 ^ 31)

/-- The loop of `Atoi`: `f` says whether there was a minus sign. -/
def atoiLoop (f : Bool) : ℤ → List UInt8 → ℤ
  | res, [] => if f then -res else res
  | res, c :: s =>
      if isdigit c then
        let res := res * 10 + (c.toNat - 48)
        if (f = false ∧ res > INT_MAX) ∨ (f = true ∧ -res < INT_MIN) then -2
        else atoiLoop f res s
      else -1

/-- `Atoi`: -1 when the format is wrong, -2 when the number is not an `int`. -/
def Atoi (s : List UInt8) : ℤ :=
  if s = [] then -1
  else
    let f := decide (s.head? = some 45)
    atoiLoop f 0 (if f then s.tail else s)

/-- The argument starts with `%`. -/
def isJob (arg : List UInt8) : Bool := arg.head? = some 37

/-- `Atoi(argv[1] + is_job)`. -/
def argId (arg : List UInt8) : ℤ := Atoi (if isJob arg then arg.tail else arg)

/-- The command line `fg arg` or `bg arg`. -/
def bgfg (fg : Bool) (arg : List UInt8) : Command := .bgfg fg (isJob arg) (argId arg)

/-- The argument is the id of the process of a slot, or `%` and the id of its job. -/
def Names (t : Table) (arg : List UInt8) (i : Fin MAXJOBS) : Prop :=
  Occupied t i ∧ argId arg = if isJob arg then (t.jobs i).jid else (t.jobs i).pid

/-- Jobs have different processes and different ids. -/
structure Distinct (t : Table) : Prop where
  pid : ∀ i j, Occupied t i → Occupied t j → (t.jobs i).pid = (t.jobs j).pid → i = j
  jid : ∀ i j, Occupied t i → Occupied t j → (t.jobs i).jid = (t.jobs j).jid → i = j

/-! ## Free slots -/

/-- A free slot has no id, and a job has one. -/
structure Job.HasId (job : Job) : Prop where
  free : job.pid = 0 → job.jid = 0
  pos : job.pid ≠ 0 → 1 ≤ job.jid

theorem hasId_clearjob : clearjob.HasId := ⟨fun _ => rfl, fun hne => absurd rfl hne⟩

/-- The slots have their ids, and so has the next job. -/
structure HasIds (t : Table) : Prop where
  next : 1 ≤ t.nextjid
  jobs : ∀ i, (t.jobs i).HasId

/-- A slot is filled. -/
theorem HasIds.update {t : Table} (h : HasIds t) {job : Job} (hjob : job.HasId) {next : ℤ}
    (hnext : 1 ≤ next) (i : Fin MAXJOBS) : HasIds ⟨Function.update t.jobs i job, next⟩ := by
  refine ⟨hnext, fun j => ?_⟩
  by_cases hji : j = i
  · simp only [hji, Function.update_self]
    exact hjob
  · simp only [Function.update_of_ne hji]
    exact h.jobs j

theorem HasIds.setState {t : Table} (h : HasIds t) (i : Fin MAXJOBS) (state : JobState) :
    HasIds (t.setState i state) := by
  have hjob : ({ t.jobs i with state := state } : Job).HasId :=
    ⟨(h.jobs i).free, (h.jobs i).pos⟩
  exact h.update hjob h.next i

theorem HasIds.deletejob {t : Table} (h : HasIds t) (pid : ℤ) : HasIds (deletejob t pid).1 := by
  rcases deletejob_cases t pid with heq | ⟨i, -, -, heq⟩ <;> rw [heq]
  · exact h
  · have hmax := (maxjid_spec (Function.update t.jobs i clearjob)).1
    exact h.update hasId_clearjob (by omega) i

theorem HasIds.addjob {t : Table} (h : HasIds t) (pid : ℤ) (state : JobState)
    (cmdline : String) : HasIds (addjob t pid state cmdline).1 := by
  by_cases hpid : 1 ≤ pid
  · rcases addjob_cases t state cmdline hpid with ⟨-, heq⟩ | ⟨i, -, heq⟩ <;> rw [heq]
    · exact h
    · have hnext := h.next
      refine h.update ⟨fun hzero => ?_, fun _ => hnext⟩ (by split_ifs <;> omega) i
      simp only at hzero
      omega
  · rw [Shell.addjob, if_pos (by omega)]
    exact h

/-- **Every change of the table keeps the ids.** -/
theorem hasIds_of_run {s : Control} (h : Relation.ReflTransGen ControlStep controlStart s) :
    HasIds s.table := by
  induction h with
  | refl => exact ⟨le_rfl, fun _ => hasId_clearjob⟩
  | tail _ hstep ih =>
      cases hstep with
      | add pid bg cmdline => exact ih.addjob pid _ cmdline
      | find fg hjob => exact ih
      | @mark t job fg =>
          cases fg with
          | true => exact ih.setState 0 .FG
          | false => exact ih.setState job .BG
      | wake hfg => exact ih
      | @event t t' p pid ev hev =>
          cases ev with
          | stopped =>
              obtain ⟨j, -, rfl⟩ := Option.map_eq_some_iff.mp hev
              exact ih.setState j .ST
          | exited =>
              obtain rfl := Option.some.inj hev
              exact ih.deletejob pid
          | signaled =>
              obtain ⟨j, -, rfl⟩ := Option.map_eq_some_iff.mp hev
              exact ih.deletejob pid
          | continued =>
              obtain rfl := Option.some.inj hev
              exact ih

/-- **The job is found**: with different processes and ids, and free slots without an id. -/
theorem Names.found {t : Table} {arg : List UInt8} {i : Fin MAXJOBS} (h : Names t arg i)
    (hd : Distinct t) (hids : HasIds t) (hpid : ∀ i, 0 ≤ (t.jobs i).pid) :
    1 ≤ argId arg ∧ findJob t (isJob arg) (argId arg) = some i := by
  obtain ⟨hocc, hid⟩ := h
  have hjid := (hids.jobs i).pos hocc
  have hpos : 1 ≤ (t.jobs i).pid := by
    have h0 := hpid i
    rw [Occupied] at hocc
    omega
  rw [Shell.findJob, hid]
  cases isJob arg with
  | true =>
      simp only [if_true]
      refine ⟨hjid, ?_⟩
      rw [getjobjid, if_neg (by omega)]
      refine firstSlot_eq_some (decide_eq_true rfl) fun j hj => ?_
      have hj := of_decide_eq_true hj
      refine hd.jid j i (fun hfree => ?_) hocc hj
      have := (hids.jobs j).free hfree
      omega
  | false =>
      simp only [Bool.false_eq_true, if_false]
      refine ⟨hpos, ?_⟩
      rw [getjobpid, if_neg (by omega)]
      refine firstSlot_eq_some (decide_eq_true rfl) fun j hj => ?_
      have hj := of_decide_eq_true hj
      exact hd.pid j i (by rw [Occupied]; omega) hocc hj

/-! ## The run of `do_bgfg` -/

/-- What the children and the keys of the terminal do. -/
def Act.outside : Act → Bool
  | .tty _ | .setpgid _ | .stop _ | .cont _ | .exit _ | .kill _ => true
  | _ => false

/-- The children and the keys of the terminal act; the shell does not, and gets no
signal. -/
def Meanwhile : State → State → Prop :=
  Relation.ReflTransGen fun s s' => ∃ a, a.outside = true ∧ step s a = some s'

/-- Any steps of the shell and of the others. -/
def Later : State → State → Prop := Relation.ReflTransGen fun s s' => ∃ a, step s a = some s'

/-- The command line `c` is read, and `do_bgfg` runs to its end, or to the call of `waitfg`:
`s₁` is the state when it calls `kill`, and `s₂` the one after the call. -/
def DoBgfg (c : Command) (s s₁ s₂ s' : State) : Prop :=
  ∃ s₀ s₃, step s (.command c) = some s₀ ∧ Meanwhile s₀ s₁ ∧ step s₁ .go = some s₂ ∧
    Meanwhile s₂ s₃ ∧ step s₃ .go = some s'

/-- **The others leave the shell as it is.** -/
theorem Meanwhile.same {s s' : State} (h : Meanwhile s s') :
    s'.table = s.table ∧ s'.main = s.main ∧ s'.handlers = s.handlers ∧ s'.death = s.death := by
  induction h with
  | refl => exact ⟨rfl, rfl, rfl, rfl⟩
  | tail _ hstep ih =>
      obtain ⟨a, hout, hstep⟩ := hstep
      rw [← ih.1, ← ih.2.1, ← ih.2.2.1, ← ih.2.2.2]
      cases (step_cases hstep).2 with
      | tty | setpgid | stop | cont | exit | kill => exact ⟨rfl, rfl, rfl, rfl⟩
      | _ => exact absurd hout Bool.false_ne_true

/-- What is reached later is reachable. -/
theorem Reachable.later {s s' : State} (hr : Reachable (fun _ _ => True) s) (h : Later s s') :
    Reachable (fun _ _ => True) s' := by
  induction h with
  | refl => exact hr
  | tail _ hstep ih =>
      obtain ⟨a, hstep⟩ := hstep
      exact ih.next trivial hstep

theorem Meanwhile.later {s s' : State} (h : Meanwhile s s') : Later s s' := by
  induction h with
  | refl => exact .refl
  | tail _ hstep ih =>
      obtain ⟨a, -, hstep⟩ := hstep
      exact ih.tail ⟨a, hstep⟩

theorem DoBgfg.later {c : Command} {s s₁ s₂ s' : State} (h : DoBgfg c s s₁ s₂ s') :
    Later s s' := by
  obtain ⟨s₀, s₃, h₀, h₁, h₂, h₃, h₄⟩ := h
  exact ((h₁.later.head ⟨_, h₀⟩).tail ⟨_, h₂⟩).trans (h₃.later.tail ⟨_, h₄⟩)

/-- The shell reads the next command line. -/
structure AtPrompt (s : State) : Prop where
  handlers : s.handlers = []
  main : s.main = .prompt
  death : s.death = none

section

variable {s s₁ s₂ s' : State} {arg : List UInt8} {i : Fin MAXJOBS} {fg : Bool}

theorem step_eq_act (hdeath : s.death = none) (a : Act) : step s a = act s a := by
  rw [step, hdeath]
  rfl

/-- The command finds its job. -/
theorem step_command (hs : AtPrompt s) (hid : 1 ≤ argId arg)
    (hfind : findJob s.table (isJob arg) (argId arg) = some i) :
    step s (.command (bgfg fg arg)) = some { s with main := .kill i fg } := by
  have hnot : ¬ argId arg < 0 := by omega
  rw [step_eq_act hs.death]
  simp only [act, hs.handlers, hs.main, and_self, if_true, bgfg, command, hnot, if_false, hfind]

/-- A step of the main program. -/
theorem step_go (hhandlers : s.handlers = []) (hdeath : s.death = none) :
    step s .go = goMain s := by
  rw [step_eq_act hdeath]
  simp only [act, hhandlers]

/-- **What `do_bgfg` does**: it sends `SIGCONT` to the group of its job, and writes a state. -/
theorem DoBgfg.spec (hs : AtPrompt s) (hid : 1 ≤ argId arg)
    (hfind : findJob s.table (isJob arg) (argId arg) = some i)
    (h : DoBgfg (bgfg fg arg) s s₁ s₂ s') :
    s₂ = { killCont s₁ (s.table.jobs i).pid with main := .mark i fg } ∧
      s'.table = markJob s.table i fg ∧ s'.main = if fg then .waitfg .test else .prompt := by
  obtain ⟨s₀, s₃, h₀, h₁, h₂, h₃, h₄⟩ := h
  obtain rfl := Option.some.inj ((step_command hs hid hfind).symm.trans h₀)
  obtain ⟨htable₁, hmain₁, hhandlers₁, hdeath₁⟩ := h₁.same
  simp only at htable₁ hmain₁ hhandlers₁ hdeath₁
  rw [step_go (hhandlers₁.trans hs.handlers) (hdeath₁.trans hs.death), goMain, hmain₁] at h₂
  have hs₂ := (Option.some.inj h₂).symm
  rw [htable₁] at hs₂
  refine ⟨hs₂, ?_⟩
  have htable₂ : s₂.table = s.table := by
    rw [hs₂]
    exact htable₁
  have hrest : s₂.main = .mark i fg ∧ s₂.handlers = [] ∧ s₂.death = none := by
    rw [hs₂]
    exact ⟨rfl, hhandlers₁.trans hs.handlers, hdeath₁.trans hs.death⟩
  obtain ⟨htable₃, hmain₃, hhandlers₃, hdeath₃⟩ := h₃.same
  rw [step_go (hhandlers₃.trans hrest.2.1) (hdeath₃.trans hrest.2.2), goMain,
    hmain₃.trans hrest.1] at h₄
  rw [← Option.some.inj h₄]
  refine ⟨?_, rfl⟩
  show markJob s₃.table i fg = _
  rw [htable₃, htable₂]

/-- The command runs, whatever happens meanwhile: nothing, for example. -/
theorem exists_doBgfg (hs : AtPrompt s) (hid : 1 ≤ argId arg)
    (hfind : findJob s.table (isJob arg) (argId arg) = some i) :
    ∃ s₂ s', DoBgfg (bgfg fg arg) s { s with main := .kill i fg } s₂ s' :=
  ⟨_, _, _, _, step_command hs hid hfind, .refl, step_go hs.handlers hs.death, .refl,
    step_go hs.handlers hs.death⟩

/-- `waitfg` returns when no job is marked. -/
theorem fgpid_of_return {u u' : State} (hhandlers : u.handlers = [])
    (hmain : u.main = .waitfg .test) (hstep : step u .go = some u') (hprompt : u'.main = .prompt) :
    fgpid u.table ≤ 0 := by
  rw [step_go hhandlers (step_cases hstep).1, goMain, hmain] at hstep
  simp only [Option.some.injEq] at hstep
  subst hstep
  by_contra hpos
  simp only [if_pos (not_le.mp hpos)] at hprompt
  cases hprompt

/-- **A job is not marked when `waitfg` returns.** -/
theorem not_marked {u : State} (hr : Reachable (fun _ _ => True) u) (hfg : fgpid u.table ≤ 0)
    {i : Fin MAXJOBS} (hpid : 1 ≤ (u.table.jobs i).pid) : (u.table.jobs i).state ≠ .FG := by
  intro hi
  have hone := (controlInv_of_reachable hr).one
  rw [fgpid_eq hi fun j hj => hone j i hj hi] at hfg
  omega

end

/-! ## The signal -/

/-- **From `s₁` to `s₂` the process `pid` gets `SIGCONT`**, and no other child does: it is a
child in a group of its own, and if it was stopped it runs again, which the shell is told; if
it was not, it stays as it is. -/
structure GetsCont (s₁ s₂ : State) (pid : ℤ) : Prop where
  reached : pid ∈ s₁.kids ∧ s₁.pgid pid = pid
  stopped : (s₁.child pid).status = .stopped → (s₂.child pid).status = .running ∧
    (s₂.child pid).report = true ∧ .chld ∈ s₂.pending
  kept : (s₁.child pid).status ≠ .stopped → s₂.child pid = s₁.child pid
  others : ∀ q, q ≠ pid → s₂.child q = s₁.child q
  kids : s₂.kids = s₁.kids

/-- **`kill(-pid, SIGCONT)` reaches the process**, when its group exists. -/
theorem getsCont_of_group {s : State} {pid : ℤ} (h : GroupExists s pid) (hpid : 1 ≤ pid)
    (main : Main) : GetsCont s { killCont s pid with main := main } pid := by
  obtain ⟨hkid, hgroup⟩ := h
  have hpgid : s.pgid pid = pid := if_pos hgroup
  have hchild : ∀ q, (killCont s pid).child q =
      if s.Continues pid q then { s.child q with status := .running, report := true }
      else s.child q := fun _ => rfl
  refine ⟨⟨hkid, hpgid⟩, fun hstop => ?_, fun hne => ?_, fun q hq => ?_, rfl⟩
  · have hcont : s.Continues pid pid := ⟨hkid, hpgid, hstop⟩
    have hpending : (killCont s pid).pending = insert .chld s.pending :=
      if_pos ⟨pid, hkid, hcont⟩
    simp only [hchild, if_pos hcont, hpending]
    exact ⟨trivial, trivial, Finset.mem_insert_self _ _⟩
  · simp only [hchild]
    exact if_neg fun hcont => hne hcont.2.2
  · -- another child is in its own group, or in that of the shell
    have hother : s.pgid q ≠ pid := by
      unfold State.pgid
      split_ifs
      · exact hq
      · omega
    simp only [hchild]
    exact if_neg fun hcont => hother hcont.2.1

/-- A process that a signal to its group reaches has a group. -/
theorem GetsCont.group {s₁ s₂ : State} {pid : ℤ} (h : GetsCont s₁ s₂ pid) (hpid : 1 ≤ pid) :
    GroupExists s₁ pid := by
  obtain ⟨hkid, hpgid⟩ := h.reached
  refine ⟨hkid, ?_⟩
  by_contra hgroup
  rw [State.pgid, if_neg hgroup] at hpgid
  omega

/-- **No group goes away** while the shell does not move. -/
theorem Meanwhile.group {s s' : State} (h : Meanwhile s s') {pid : ℤ} (hg : GroupExists s pid) :
    GroupExists s' pid := by
  induction h with
  | refl => exact hg
  | tail _ hstep ih =>
      obtain ⟨a, hout, hstep⟩ := hstep
      refine ih.change (step_change hstep) ?_
      rintro rfl
      cases hout

/-! ## The named job -/

/-- **`fg` and `bg` act on the job of slot `i` only**: its process gets `SIGCONT`, its state is
set, the other slots stay, and after `fg` the call of `waitfg` returns only when the job is not
in the foreground. -/
structure ActsOnNamed (s : State) (fg : Bool) (arg : List UInt8) (i : Fin MAXJOBS) : Prop where
  runs : ∃ s₁ s₂ s', DoBgfg (bgfg fg arg) s s₁ s₂ s'
  cont : ∀ s₁ s₂ s', DoBgfg (bgfg fg arg) s s₁ s₂ s' → GetsCont s₁ s₂ (s.table.jobs i).pid
  state : ∀ s₁ s₂ s', DoBgfg (bgfg fg arg) s s₁ s₂ s' →
    s'.table.jobs i = { s.table.jobs i with state := if fg then .FG else .BG }
  others : ∀ s₁ s₂ s', DoBgfg (bgfg fg arg) s s₁ s₂ s' → ∀ j, j ≠ i →
    s'.table.jobs j = s.table.jobs j
  waits : fg = true → ∀ s₁ s₂ s', DoBgfg (bgfg fg arg) s s₁ s₂ s' → s'.main = .waitfg .test ∧
    ∀ u u', Later s' u → u.handlers = [] → u.main = .waitfg .test → step u .go = some u' →
      u'.main = .prompt →
      ¬ ((u.table.jobs i).pid = (s.table.jobs i).pid ∧ (u.table.jobs i).state = .FG)

section

variable {s : State} {arg : List UInt8} {i : Fin MAXJOBS} {fg : Bool}

/-- The job that the argument names is found at the prompt. -/
theorem Names.find (h : Names s.table arg i) (hr : Reachable (fun _ _ => True) s)
    (hd : Distinct s.table) :
    1 ≤ argId arg ∧ findJob s.table (isJob arg) (argId arg) = some i :=
  h.found hd (hasIds_of_run (control_of_reachable hr)) (controlInv_of_reachable hr).pid

/-- A job that is named has a process. -/
theorem Names.pid_pos (h : Names s.table arg i) (hr : Reachable (fun _ _ => True) s) :
    1 ≤ (s.table.jobs i).pid := by
  have hpos := (controlInv_of_reachable hr).pid i
  have hocc : (s.table.jobs i).pid ≠ 0 := h.1
  change 0 ≤ (s.table.jobs i).pid at hpos
  omega

/-- The process still has its group when `do_bgfg` calls `kill`. -/
theorem DoBgfg.group {s₁ s₂ s' : State} {pid : ℤ} (hs : AtPrompt s) (hid : 1 ≤ argId arg)
    (hfind : findJob s.table (isJob arg) (argId arg) = some i)
    (h : DoBgfg (bgfg fg arg) s s₁ s₂ s') (hgroup : GroupExists s pid) : GroupExists s₁ pid := by
  obtain ⟨s₀, s₃, h₀, h₁, -⟩ := h
  obtain rfl := Option.some.inj ((step_command hs hid hfind).symm.trans h₀)
  exact h₁.group hgroup

/-- `fg` for a job in another slot than the first marks slot 0. -/
theorem ActsOnNamed.slot (h : ActsOnNamed s fg arg i) (hr : Reachable (fun _ _ => True) s)
    (hs : AtPrompt s) (hd : Distinct s.table) (hnames : Names s.table arg i) :
    fg = false ∨ i = 0 := by
  by_contra hnot
  rw [not_or, Bool.not_eq_false] at hnot
  obtain ⟨rfl, hi⟩ := hnot
  obtain ⟨hid, hfind⟩ := hnames.find hr hd
  obtain ⟨s₁, s₂, s', hrun⟩ := h.runs
  obtain ⟨-, htable, -⟩ := hrun.spec hs hid hfind
  have hstate := h.state s₁ s₂ s' hrun
  have hother := h.others s₁ s₂ s' hrun 0 (Ne.symm hi)
  rw [htable, markJob, if_pos rfl] at hstate hother
  rw [setState_of_ne hi] at hstate
  rw [setState_self] at hother
  -- both slots would have been marked before
  have hmarked : (s.table.jobs i).state = .FG := by
    rw [hstate]
    rfl
  have hzero : (s.table.jobs 0).state = .FG := by
    rw [← hother]
  exact hi ((controlInv_of_reachable hr).one i 0 hmarked hzero)

/-- The process of a job whose `SIGCONT` arrives has a group when the command is read. -/
theorem ActsOnNamed.group (h : ActsOnNamed s fg arg i) (hr : Reachable (fun _ _ => True) s)
    (hs : AtPrompt s) (hd : Distinct s.table) (hnames : Names s.table arg i) :
    GroupExists s (s.table.jobs i).pid := by
  obtain ⟨hid, hfind⟩ := hnames.find hr hd
  obtain ⟨s₂, s', hrun⟩ := @exists_doBgfg s arg i fg hs hid hfind
  exact (h.cont _ _ _ hrun).group (hnames.pid_pos hr)

/-- **Which commands act on the named job**: those for a process with a group, by `bg`, or by
`fg` for the job in slot 0. -/
theorem acts_on_named_iff (hr : Reachable (fun _ _ => True) s) (hs : AtPrompt s)
    (hd : Distinct s.table) (hnames : Names s.table arg i) :
    ActsOnNamed s fg arg i ↔
      GroupExists s (s.table.jobs i).pid ∧ (fg = false ∨ i = 0) := by
  refine ⟨fun h => ⟨h.group hr hs hd hnames, h.slot hr hs hd hnames⟩, ?_⟩
  rintro ⟨hgroup, hslot⟩
  obtain ⟨hid, hfind⟩ := hnames.find hr hd
  have hpos := hnames.pid_pos hr
  -- the slot that is written is that of the job
  have hmark : markJob s.table i fg = s.table.setState i (if fg then .FG else .BG) := by
    rcases hslot with rfl | rfl
    · rfl
    · cases fg <;> rfl
  refine ⟨⟨_, exists_doBgfg hs hid hfind⟩, fun s₁ s₂ s' h => ?_, fun s₁ s₂ s' h => ?_,
    fun s₁ s₂ s' h j hj => ?_, fun hfg s₁ s₂ s' h => ⟨?_, ?_⟩⟩
  · rw [(h.spec hs hid hfind).1]
    exact getsCont_of_group (h.group hs hid hfind hgroup) hpos _
  · rw [(h.spec hs hid hfind).2.1, hmark, setState_self]
  · rw [(h.spec hs hid hfind).2.1, hmark, setState_of_ne hj]
  · rw [(h.spec hs hid hfind).2.2, if_pos hfg]
  · rintro u u' hlater hhandlers hmain hstep hprompt ⟨hpid, hmarked⟩
    exact not_marked ((hr.later h.later).later hlater)
      (fgpid_of_return hhandlers hmain hstep hprompt) (hpid ▸ hpos) hmarked

end

/-- Two background jobs are started, the second of which stops. -/
def twoStarted : List Act :=
  background 100 ++ background 101 ++ .stop 101 :: report 101 ++ reportEnd

theorem isSome_twoStarted : (execute (fun _ _ => True) start twoStarted).isSome := by decide

/-- The shell after `twoStarted`. -/
def afterTwo : State := (execute (fun _ _ => True) start twoStarted).get isSome_twoStarted

theorem reachable_afterTwo : Reachable (fun _ _ => True) afterTwo :=
  reachable_get (fun _ _ => True) twoStarted isSome_twoStarted

theorem atPrompt_afterTwo : AtPrompt afterTwo := ⟨by decide, by decide, by decide⟩

theorem distinct_afterTwo : Distinct afterTwo.table := ⟨by decide, by decide⟩

theorem groupExists_afterTwo (i : Fin MAXJOBS) (hi : i = 0 ∨ i = 1) :
    GroupExists afterTwo (afterTwo.table.jobs i).pid := by
  rcases hi with rfl | rfl <;> exact ⟨by decide, by decide⟩

/-- `fg %1` acts on the first job, which runs, and `bg %2` on the second one, which has
stopped. -/
theorem acts_on_named_first : ActsOnNamed afterTwo true (text "%1") 0 ∧
    (afterTwo.child 101).status = .stopped ∧ ActsOnNamed afterTwo false (text "%2") 1 :=
  ⟨(acts_on_named_iff reachable_afterTwo atPrompt_afterTwo distinct_afterTwo
      ⟨by decide, by decide⟩).mpr ⟨groupExists_afterTwo 0 (Or.inl rfl), Or.inr rfl⟩,
    by decide,
    (acts_on_named_iff reachable_afterTwo atPrompt_afterTwo distinct_afterTwo
      ⟨by decide, by decide⟩).mpr ⟨groupExists_afterTwo 1 (Or.inr rfl), Or.inl rfl⟩⟩

/-- `fg %2` does not act on the second one, whose process has a group. -/
theorem not_acts_on_named : Reachable (fun _ _ => True) afterTwo ∧ AtPrompt afterTwo ∧
    Distinct afterTwo.table ∧ Names afterTwo.table (text "%2") 1 ∧
    GroupExists afterTwo (afterTwo.table.jobs 1).pid ∧
    ¬ ActsOnNamed afterTwo true (text "%2") 1 := by
  have hnames : Names afterTwo.table (text "%2") 1 := ⟨by decide, by decide⟩
  refine ⟨reachable_afterTwo, atPrompt_afterTwo, distinct_afterTwo, hnames,
    groupExists_afterTwo 1 (Or.inr rfl), fun h => ?_⟩
  have hslot := h.slot reachable_afterTwo atPrompt_afterTwo distinct_afterTwo hnames
  simp at hslot

end Shell
