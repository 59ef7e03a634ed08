/-
# The shell as a machine: `eval`, `do_bgfg`, `waitfg` and the signal handlers

The shell is its main program, a stack of interrupted and running handlers, the signal
mask, the pending signals, the job table and the children that are not reaped.  Each
call of the source that the kernel sees (`sigprocmask`, `fork`, `kill`, `waitpid`,
`sigsuspend`) is a step, as is each access to the job table between them; a signal that
is pending and not blocked can be delivered before any step.  Children stop, continue
and end on their own at any time.

A signal is delivered with the mask at that moment and the signal itself blocked;
`sigsuspend` returns with the mask that it found once the handlers above it are left.
-/
import CsappLabs.JobControl

namespace Shell

/-! ## Signals, children and the points of the program -/

/-- The signals that the shell handles. -/
inductive Sig : Type where
  | int : Sig
  | tstp : Sig
  | chld : Sig
  deriving DecidableEq, Repr

instance : Fintype Sig := ⟨{.int, .tstp, .chld}, fun sig => by cases sig <;> decide⟩

/-- A signal mask: the signals that are blocked. -/
abbrev Mask : Type := Finset Sig

/-- The status of a child. -/
inductive Status : Type where
  | running : Status
  | stopped : Status
  | exited : Status
  | signaled : Status
  deriving DecidableEq, Repr

/-- The child has ended: it is a zombie until `waitpid` returns it. -/
def Status.ended : Status → Bool
  | .running => false
  | .stopped => false
  | .exited => true
  | .signaled => true

/-- What `waitpid` reports about a child with this status. -/
def Status.event : Status → Event
  | .running => .continued
  | .stopped => .stopped
  | .exited => .exited
  | .signaled => .signaled

/-- A child: its status, whether it has called `setpgid(0, 0)`, and whether `waitpid` has
a change of its status to report. -/
structure Child where
  status : Status
  group : Bool
  report : Bool
  deriving DecidableEq, Repr

/-- Where `waitfg` is: at its test of `fgpid`, at the call of `sigsuspend`, or inside
`sigsuspend`, which puts `saved` back. -/
inductive Wait : Type where
  | test : Wait
  | suspend : Wait
  | asleep (saved : Mask) : Wait
  deriving DecidableEq

/-- Where the main program is. -/
inductive Main : Type where
  | prompt : Main
  | block (bg : Bool) (cmdline : String) : Main
  | fork (bg : Bool) (cmdline : String) : Main
  | add (pid : ℤ) (bg : Bool) (cmdline : String) : Main
  | unblock (bg : Bool) : Main
  | kill (job : Fin MAXJOBS) (fg : Bool) : Main
  | mark (job : Fin MAXJOBS) (fg : Bool) : Main
  | waitfg (w : Wait) : Main
  deriving DecidableEq

/-- Where a handler is.  `prev` is the mask that its last `sigprocmask` puts back, and
`ret` is its end. -/
inductive Point : Type where
  | chldMask : Point
  | chldWait (prev : Mask) : Point
  | ttyMask (sig : Sig) : Point
  | ttyRead (sig : Sig) (prev : Mask) : Point
  | ttyKill (sig : Sig) (prev : Mask) (pid : ℤ) : Point
  | ttyWait (prev : Mask) (w : Wait) : Point
  | restore (prev : Mask) : Point
  | ret : Point
  deriving DecidableEq

/-- A handler on the stack, with the mask that the kernel puts back when it returns. -/
structure Handler where
  point : Point
  saved : Mask
  deriving DecidableEq

/-- How the shell ends: the command `quit`, `unix_error`, or a null job. -/
inductive Death : Type where
  | quit : Death
  | unixError : Death
  | nullJob : Death
  deriving DecidableEq, Repr

/-- The shell and its children. -/
structure State where
  table : Table
  kids : Finset ℤ
  child : ℤ → Child
  pending : Finset Sig
  mask : Mask
  main : Main
  handlers : List Handler
  death : Option Death

/-- The shell at its first prompt. -/
def start : State where
  table := initjobs
  kids := ∅
  child := fun _ => ⟨.running, false, false⟩
  pending := ∅
  mask := ∅
  main := .prompt
  handlers := []
  death := none

/-- A command line: a program, `bg` or `fg` with its argument, `quit`, or a line that
changes nothing. -/
inductive Command : Type where
  | run (bg : Bool) (cmdline : String) : Command
  | bgfg (fg : Bool) (isJob : Bool) (id : ℤ) : Command
  | quit : Command
  | other : Command
  deriving DecidableEq, Repr

/-- What can happen next: a command line, `fork` returning, the next step of the program,
`waitpid` returning a child, the delivery of a signal, a key of the terminal, and what
the children do, or what others do to them. -/
inductive Act : Type where
  | command (c : Command) : Act
  | fork (pid : ℤ) : Act
  | go : Act
  | reap (pid : ℤ) : Act
  | deliver (sig : Sig) : Act
  | tty (sig : Sig) : Act
  | setpgid (pid : ℤ) : Act
  | stop (pid : ℤ) : Act
  | cont (pid : ℤ) : Act
  | exit (pid : ℤ) : Act
  | kill (pid : ℤ) : Act
  deriving DecidableEq, Repr

/-! ## Children -/

/-- The process group of a child: its own, or zero for that of the shell. -/
def State.pgid (s : State) (pid : ℤ) : ℤ := if (s.child pid).group then pid else 0

/-- `kill(-pid, SIGCONT)` continues the child `q`. -/
def State.Continues (s : State) (pid q : ℤ) : Prop :=
  q ∈ s.kids ∧ s.pgid q = pid ∧ (s.child q).status = .stopped

instance (s : State) (pid q : ℤ) : Decidable (s.Continues pid q) :=
  inferInstanceAs (Decidable (_ ∧ _ ∧ _))

/-- `kill(-pid, SIGCONT)`. -/
def killCont (s : State) (pid : ℤ) : State :=
  { s with
    child := fun q =>
      if s.Continues pid q then { s.child q with status := .running, report := true }
      else s.child q
    pending := if ∃ q ∈ s.kids, s.Continues pid q then insert .chld s.pending else s.pending }

/-- A child changes its status, and the kernel sends `SIGCHLD`. -/
def change (s : State) (pid : ℤ) (status : Status) : State :=
  { s with
    child := Function.update s.child pid { s.child pid with status := status, report := true }
    pending := insert .chld s.pending }

/-- `waitpid` returns a child: it is reaped when it has ended. -/
def collect (s : State) (pid : ℤ) : State :=
  { s with
    kids := if (s.child pid).status.ended then s.kids.erase pid else s.kids
    child := Function.update s.child pid { s.child pid with report := false } }

/-! ## Steps of the shell -/

/-- The main program reads a command line. -/
def command (s : State) : Command → State
  | .run bg cmdline => { s with main := .block bg cmdline }
  | .bgfg fg isJob id =>
      if id < 0 then s
      else
        match findJob s.table isJob id with
        | some job => { s with main := .kill job fg }
        | none => s
  | .quit => { s with death := some .quit }
  | .other => s

/-- A step of `eval`, `do_bgfg` or `waitfg`. -/
def goMain (s : State) : Option State :=
  match s.main with
  | .prompt => none
  | .block bg cmdline => some { s with mask := insert .chld s.mask, main := .fork bg cmdline }
  | .fork _ _ => none
  | .add pid bg cmdline =>
      some { s with
        table := (addjob s.table pid (if bg then .BG else .FG) cmdline).1
        main := .unblock bg }
  | .unblock bg =>
      some { s with
        mask := s.mask.erase .chld
        main := if bg then .prompt else .waitfg .test }
  | .kill job fg => some { killCont s (s.table.jobs job).pid with main := .mark job fg }
  | .mark job fg =>
      some { s with
        table := markJob s.table job fg
        main := if fg then .waitfg .test else .prompt }
  | .waitfg .test =>
      some { s with main := if 0 < fgpid s.table then .waitfg .suspend else .prompt }
  | .waitfg .suspend => some { s with mask := ∅, main := .waitfg (.asleep s.mask) }
  | .waitfg (.asleep _) => none

/-- The running handler moves on. -/
def State.moveTo (s : State) (h : Handler) (hs : List Handler) (point : Point) : State :=
  { s with handlers := { h with point := point } :: hs }

/-- A step of the running handler `h`. -/
def goHandler (s : State) (h : Handler) (hs : List Handler) : Option State :=
  match h.point with
  | .chldMask => some { s.moveTo h hs (.chldWait s.mask) with mask := Finset.univ }
  | .chldWait prev =>
      -- `waitpid` returns zero, or -1 when there is no child
      if ∃ q ∈ s.kids, (s.child q).report then none else some (s.moveTo h hs (.restore prev))
  | .ttyMask sig => some { s.moveTo h hs (.ttyRead sig s.mask) with mask := {sig} }
  | .ttyRead sig prev =>
      let pid := fgpid s.table
      if pid ≠ 0 then some (s.moveTo h hs (.ttyKill sig prev pid))
      else some (s.moveTo h hs (.restore prev))
  | .ttyKill _ prev pid =>
      if pid ∈ s.kids ∧ (s.child pid).group then some (s.moveTo h hs (.ttyWait prev .test))
      else some { s with death := some .unixError }
  | .ttyWait prev .test =>
      if 0 < fgpid s.table then some (s.moveTo h hs (.ttyWait prev .suspend))
      else some (s.moveTo h hs (.restore prev))
  | .ttyWait prev .suspend =>
      some { s.moveTo h hs (.ttyWait prev (.asleep s.mask)) with mask := ∅ }
  | .ttyWait _ (.asleep _) => none
  | .restore prev => some { s.moveTo h hs .ret with mask := prev }
  | .ret => some { s with mask := h.saved, handlers := hs }

/-- `waitpid` returns a child to `sigchld_handler`. -/
def reap (s : State) (pid : ℤ) : State :=
  match childEvent s.table pid (s.child pid).status.event with
  | some t => { collect s pid with table := t }
  | none => { collect s pid with death := some .nullJob }

/-- The first point of the handler of a signal. -/
def entry : Sig → Point
  | .int => .ttyMask .int
  | .tstp => .ttyMask .tstp
  | .chld => .chldMask

/-- A signal ends `sigsuspend`: the state, and the mask that is put back when the
handler returns. -/
def wake (s : State) : State × Mask :=
  match s.handlers, s.main with
  | [], .waitfg (.asleep saved) => ({ s with main := .waitfg .test }, saved)
  | ⟨.ttyWait prev (.asleep saved), ret⟩ :: hs, _ =>
      ({ s with handlers := ⟨.ttyWait prev .test, ret⟩ :: hs }, saved)
  | _, _ => (s, s.mask)

/-- The kernel runs the handler of a signal. -/
def deliver (s : State) (sig : Sig) : State :=
  { (wake s).1 with
    pending := s.pending.erase sig
    mask := insert sig s.mask
    handlers := ⟨entry sig, (wake s).2⟩ :: (wake s).1.handlers }

/-- What happens next to a shell that has not ended, or to a child. -/
def act (s : State) (a : Act) : Option State :=
  match a with
  | .command c => if s.handlers = [] ∧ s.main = .prompt then some (command s c) else none
  | .fork pid =>
      match s.handlers, s.main with
      | [], .fork bg cmdline =>
          if 1 ≤ pid ∧ pid ∉ s.kids then
            some { s with
              kids := insert pid s.kids
              child := Function.update s.child pid ⟨.running, false, false⟩
              main := .add pid bg cmdline }
          else none
      | _, _ => none
  | .go =>
      match s.handlers with
      | [] => goMain s
      | h :: hs => goHandler s h hs
  | .reap pid =>
      match s.handlers with
      | ⟨.chldWait _, _⟩ :: _ =>
          if pid ∈ s.kids ∧ (s.child pid).report then some (reap s pid) else none
      | _ => none
  | .deliver sig => if sig ∈ s.pending ∧ sig ∉ s.mask then some (deliver s sig) else none
  | .tty sig => if sig ≠ .chld then some { s with pending := insert sig s.pending } else none
  | .setpgid pid =>
      if pid ∈ s.kids ∧ (s.child pid).status = .running then
        some { s with child := Function.update s.child pid { s.child pid with group := true } }
      else none
  | .stop pid =>
      if pid ∈ s.kids ∧ (s.child pid).status = .running then some (change s pid .stopped)
      else none
  | .cont pid =>
      if pid ∈ s.kids ∧ (s.child pid).status = .stopped then some (change s pid .running)
      else none
  | .exit pid =>
      if pid ∈ s.kids ∧ (s.child pid).status = .running then some (change s pid .exited)
      else none
  | .kill pid =>
      if pid ∈ s.kids ∧ (s.child pid).status.ended = false then some (change s pid .signaled)
      else none

/-- A step of the shell, or of a child. -/
def step (s : State) (a : Act) : Option State := if s.death.isSome then none else act s a

/-! ## Runs -/

/-- The states of the runs whose steps are all `ok`. -/
inductive Reachable (ok : State → Act → Prop) : State → Prop where
  | init : Reachable ok start
  | next {s s' : State} {a : Act} :
      Reachable ok s → ok s a → step s a = some s' → Reachable ok s'

/-- A run, of steps that are all `ok`. -/
def execute (ok : State → Act → Prop) [∀ s a, Decidable (ok s a)] (s : State) :
    List Act → Option State
  | [] => some s
  | a :: acts => if ok s a then (step s a).bind fun s' => execute ok s' acts else none

theorem Reachable.execute {ok : State → Act → Prop} [∀ s a, Decidable (ok s a)] {acts : List Act}
    {s s' : State} (h : Reachable ok s) (hexec : execute ok s acts = some s') :
    Reachable ok s' := by
  induction acts generalizing s with
  | nil =>
      obtain rfl := Option.some.inj hexec
      exact h
  | cons a acts ih =>
      unfold Shell.execute at hexec
      split_ifs at hexec with hok
      obtain ⟨s₁, hstep, hrest⟩ := Option.bind_eq_some_iff.mp hexec
      exact ih (h.next hok hstep) hrest

/-- **The state that a run ends in** is reachable. -/
theorem reachable_get (ok : State → Act → Prop) [∀ s a, Decidable (ok s a)] (acts : List Act)
    (h : (execute ok start acts).isSome) : Reachable ok ((execute ok start acts).get h) :=
  Reachable.init.execute (Option.some_get h).symm

/-- **What every step keeps holds in every run.** -/
theorem Reachable.invariant {ok : State → Act → Prop} {I : State → Prop} (hstart : I start)
    (hstep : ∀ {s s' a}, I s → ok s a → step s a = some s' → I s') {s : State}
    (h : Reachable ok s) : I s := by
  induction h with
  | init => exact hstart
  | next _ hok hs ih => exact hstep ih hok hs

/-! ## What a step can be -/

/-- A step of `eval`, `do_bgfg` or `waitfg`, by where the main program is. -/
inductive MainStep (s : State) : State → Prop where
  | block {bg : Bool} {cmdline : String} : s.main = .block bg cmdline →
      MainStep s { s with mask := insert .chld s.mask, main := .fork bg cmdline }
  | add {pid : ℤ} {bg : Bool} {cmdline : String} : s.main = .add pid bg cmdline →
      MainStep s { s with
        table := (addjob s.table pid (if bg then .BG else .FG) cmdline).1
        main := .unblock bg }
  | unblock {bg : Bool} : s.main = .unblock bg →
      MainStep s { s with
        mask := s.mask.erase .chld
        main := if bg then .prompt else .waitfg .test }
  | kill {job : Fin MAXJOBS} {fg : Bool} : s.main = .kill job fg →
      MainStep s { killCont s (s.table.jobs job).pid with main := .mark job fg }
  | mark {job : Fin MAXJOBS} {fg : Bool} : s.main = .mark job fg →
      MainStep s { s with
        table := markJob s.table job fg
        main := if fg then .waitfg .test else .prompt }
  | test : s.main = .waitfg .test → 0 < fgpid s.table →
      MainStep s { s with main := .waitfg .suspend }
  | woken : s.main = .waitfg .test → fgpid s.table ≤ 0 → MainStep s { s with main := .prompt }
  | suspend : s.main = .waitfg .suspend →
      MainStep s { s with mask := ∅, main := .waitfg (.asleep s.mask) }

theorem goMain_cases {s s' : State} (h : goMain s = some s') : MainStep s s' := by
  unfold goMain at h
  cases hmain : s.main with
  | prompt => rw [hmain] at h; cases h
  | block bg cmdline => rw [hmain] at h; obtain rfl := Option.some.inj h; exact .block hmain
  | fork bg cmdline => rw [hmain] at h; cases h
  | add pid bg cmdline => rw [hmain] at h; obtain rfl := Option.some.inj h; exact .add hmain
  | unblock bg => rw [hmain] at h; obtain rfl := Option.some.inj h; exact .unblock hmain
  | kill job fg => rw [hmain] at h; obtain rfl := Option.some.inj h; exact .kill hmain
  | mark job fg => rw [hmain] at h; obtain rfl := Option.some.inj h; exact .mark hmain
  | waitfg w =>
      rw [hmain] at h
      cases w with
      | test =>
          simp only at h
          split_ifs at h with hfg
          · obtain rfl := Option.some.inj h
            exact .test hmain hfg
          · obtain rfl := Option.some.inj h
            exact .woken hmain (not_lt.mp hfg)
      | suspend => obtain rfl := Option.some.inj h; exact .suspend hmain
      | asleep saved => cases h

/-- The next point of a handler. -/
inductive Next (s : State) : Point → Point → Prop where
  | chldMask : Next s .chldMask (.chldWait s.mask)
  | waited {prev : Mask} : Next s (.chldWait prev) (.restore prev)
  | ttyMask {sig : Sig} : Next s (.ttyMask sig) (.ttyRead sig s.mask)
  | read {sig : Sig} {prev : Mask} : fgpid s.table ≠ 0 →
      Next s (.ttyRead sig prev) (.ttyKill sig prev (fgpid s.table))
  | idle {sig : Sig} {prev : Mask} : Next s (.ttyRead sig prev) (.restore prev)
  | killed {sig : Sig} {prev : Mask} {pid : ℤ} :
      Next s (.ttyKill sig prev pid) (.ttyWait prev .test)
  | test {prev : Mask} : 0 < fgpid s.table → Next s (.ttyWait prev .test) (.ttyWait prev .suspend)
  | woken {prev : Mask} : Next s (.ttyWait prev .test) (.restore prev)
  | suspend {prev : Mask} : Next s (.ttyWait prev .suspend) (.ttyWait prev (.asleep s.mask))
  | restore {prev : Mask} : Next s (.restore prev) .ret

/-- **A handler** moves on, or returns, or ends the shell when its group is missing. -/
theorem goHandler_cases {s s' : State} {h : Handler} {hs : List Handler}
    (hstep : goHandler s h hs = some s') :
    (∃ point mask, Next s h.point point ∧ s' = { s.moveTo h hs point with mask := mask }) ∨
    (h.point = .ret ∧ s' = { s with mask := h.saved, handlers := hs }) ∨
    ∃ sig prev pid, h.point = .ttyKill sig prev pid ∧
      ¬(pid ∈ s.kids ∧ (s.child pid).group) ∧ s' = { s with death := some .unixError } := by
  unfold goHandler at hstep
  cases hpoint : h.point with
  | chldMask =>
      rw [hpoint] at hstep
      exact Or.inl ⟨_, _, .chldMask, (Option.some.inj hstep).symm⟩
  | chldWait prev =>
      rw [hpoint] at hstep
      simp only at hstep
      split_ifs at hstep
      exact Or.inl ⟨_, _, .waited, (Option.some.inj hstep).symm⟩
  | ttyMask sig =>
      rw [hpoint] at hstep
      exact Or.inl ⟨_, _, .ttyMask, (Option.some.inj hstep).symm⟩
  | ttyRead sig prev =>
      rw [hpoint] at hstep
      simp only at hstep
      split_ifs at hstep with hfg
      · exact Or.inl ⟨_, _, .read hfg, (Option.some.inj hstep).symm⟩
      · exact Or.inl ⟨_, _, .idle, (Option.some.inj hstep).symm⟩
  | ttyKill sig prev pid =>
      rw [hpoint] at hstep
      simp only at hstep
      split_ifs at hstep with hgroup
      · exact Or.inl ⟨_, _, .killed, (Option.some.inj hstep).symm⟩
      · exact Or.inr (Or.inr ⟨sig, prev, pid, rfl, hgroup, (Option.some.inj hstep).symm⟩)
  | ttyWait prev w =>
      rw [hpoint] at hstep
      cases w with
      | test =>
          simp only at hstep
          split_ifs at hstep with hfg
          · exact Or.inl ⟨_, _, .test hfg, (Option.some.inj hstep).symm⟩
          · exact Or.inl ⟨_, _, .woken, (Option.some.inj hstep).symm⟩
      | suspend => exact Or.inl ⟨_, _, .suspend, (Option.some.inj hstep).symm⟩
      | asleep saved => cases hstep
  | restore prev =>
      rw [hpoint] at hstep
      exact Or.inl ⟨_, _, .restore, (Option.some.inj hstep).symm⟩
  | ret =>
      rw [hpoint] at hstep
      exact Or.inr (Or.inl ⟨rfl, (Option.some.inj hstep).symm⟩)

/-- A step, by what takes it. -/
inductive Transition (s : State) : Act → State → Prop where
  | line {c : Command} {bg : Bool} {cmdline : String} : s.handlers = [] → s.main = .prompt →
      Transition s (.command c) { s with main := .block bg cmdline }
  | find {c : Command} {isJob : Bool} {id : ℤ} {job : Fin MAXJOBS} (fg : Bool) :
      s.handlers = [] → s.main = .prompt → findJob s.table isJob id = some job →
      Transition s (.command c) { s with main := .kill job fg }
  | quit {c : Command} : Transition s (.command c) { s with death := some .quit }
  | other {c : Command} : Transition s (.command c) s
  | fork {bg : Bool} {cmdline : String} (pid : ℤ) : s.handlers = [] →
      s.main = .fork bg cmdline → 1 ≤ pid → pid ∉ s.kids →
      Transition s (.fork pid) { s with
        kids := insert pid s.kids
        child := Function.update s.child pid ⟨.running, false, false⟩
        main := .add pid bg cmdline }
  | main {s' : State} : s.handlers = [] → MainStep s s' → Transition s .go s'
  | next {h : Handler} {hs : List Handler} {point : Point} {mask : Mask} :
      s.handlers = h :: hs → Next s h.point point →
      Transition s .go { s.moveTo h hs point with mask := mask }
  | ret {h : Handler} {hs : List Handler} : s.handlers = h :: hs →
      Transition s .go { s with mask := h.saved, handlers := hs }
  | unixError {h : Handler} {hs : List Handler} {sig : Sig} {prev : Mask} {pid : ℤ} :
      s.handlers = h :: hs → h.point = .ttyKill sig prev pid →
      ¬(pid ∈ s.kids ∧ (s.child pid).group) →
      Transition s .go { s with death := some .unixError }
  | reap {prev saved : Mask} {hs : List Handler} (pid : ℤ) :
      s.handlers = ⟨.chldWait prev, saved⟩ :: hs → pid ∈ s.kids → (s.child pid).report →
      Transition s (.reap pid) (reap s pid)
  | deliver (sig : Sig) : sig ∈ s.pending → sig ∉ s.mask →
      Transition s (.deliver sig) (deliver s sig)
  | tty (sig : Sig) : Transition s (.tty sig) { s with pending := insert sig s.pending }
  | setpgid (pid : ℤ) : pid ∈ s.kids → (s.child pid).status = .running →
      Transition s (.setpgid pid) { s with
        child := Function.update s.child pid { s.child pid with group := true } }
  | stop (pid : ℤ) : pid ∈ s.kids → (s.child pid).status = .running →
      Transition s (.stop pid) (change s pid .stopped)
  | cont (pid : ℤ) : pid ∈ s.kids → (s.child pid).status = .stopped →
      Transition s (.cont pid) (change s pid .running)
  | exit (pid : ℤ) : pid ∈ s.kids → (s.child pid).status = .running →
      Transition s (.exit pid) (change s pid .exited)
  | kill (pid : ℤ) : pid ∈ s.kids → (s.child pid).status.ended = false →
      Transition s (.kill pid) (change s pid .signaled)

/-- **What a step can be.** -/
theorem step_cases {s s' : State} {a : Act} (h : step s a = some s') :
    s.death = none ∧ Transition s a s' := by
  unfold step at h
  split_ifs at h with hdeath
  refine ⟨Option.not_isSome_iff_eq_none.mp hdeath, ?_⟩
  unfold act at h
  cases a with
  | command c =>
      simp only at h
      split_ifs at h with hprompt
      obtain rfl := Option.some.inj h
      cases c with
      | run bg cmdline => exact .line hprompt.1 hprompt.2
      | bgfg fg isJob id =>
          rw [command]
          split_ifs
          · exact .other
          · cases hjob : findJob s.table isJob id with
            | some job => exact .find fg hprompt.1 hprompt.2 hjob
            | none => exact .other
      | quit => exact .quit
      | other => exact .other
  | fork pid =>
      simp only at h
      split at h
      · next hhandlers hmain =>
          split_ifs at h with hpid
          obtain rfl := Option.some.inj h
          exact .fork pid hhandlers hmain hpid.1 hpid.2
      · cases h
  | go =>
      simp only at h
      split at h
      · next hhandlers => exact .main hhandlers (goMain_cases h)
      · next hhandlers =>
          rcases goHandler_cases h with ⟨point, mask, hnext, rfl⟩ | ⟨-, rfl⟩ |
            ⟨sig, prev, pid, hpoint, hgroup, rfl⟩
          · exact .next hhandlers hnext
          · exact .ret hhandlers
          · exact .unixError hhandlers hpoint hgroup
  | reap pid =>
      simp only at h
      split at h
      · next hhandlers =>
          split_ifs at h with hpid
          obtain rfl := Option.some.inj h
          exact .reap pid hhandlers hpid.1 hpid.2
      · cases h
  | deliver sig =>
      simp only at h
      split_ifs at h with hsig
      obtain rfl := Option.some.inj h
      exact .deliver sig hsig.1 hsig.2
  | tty sig =>
      simp only at h
      split_ifs at h
      obtain rfl := Option.some.inj h
      exact .tty sig
  | setpgid pid =>
      simp only at h
      split_ifs at h with hpid
      obtain rfl := Option.some.inj h
      exact .setpgid pid hpid.1 hpid.2
  | stop pid =>
      simp only at h
      split_ifs at h with hpid
      obtain rfl := Option.some.inj h
      exact .stop pid hpid.1 hpid.2
  | cont pid =>
      simp only at h
      split_ifs at h with hpid
      obtain rfl := Option.some.inj h
      exact .cont pid hpid.1 hpid.2
  | exit pid =>
      simp only at h
      split_ifs at h with hpid
      obtain rfl := Option.some.inj h
      exact .exit pid hpid.1 hpid.2
  | kill pid =>
      simp only at h
      split_ifs at h with hpid
      obtain rfl := Option.some.inj h
      exact .kill pid hpid.1 hpid.2

/-! ## What a step does to the table and to the children -/

/-- The child that `eval` has forked and is about to add. -/
def Main.adding : Main → Option ℤ
  | .add pid _ _ => some pid
  | _ => none

/-- The slot that `do_bgfg` is about to write. -/
def Main.target : Main → Option (Fin MAXJOBS)
  | .kill job fg => some (if fg then 0 else job)
  | .mark job fg => some (if fg then 0 else job)
  | _ => none

/-- A step by its effect on the table and the children. -/
inductive Change (s : State) : Act → State → Prop where
  | quiet {a : Act} {s' : State} : s'.table = s.table → s'.kids = s.kids → s'.child = s.child →
      s'.main.adding = s.main.adding →
      (s'.main.target = s.main.target ∨ s.main.target = none) → Change s a s'
  | fork {bg : Bool} {cmdline : String} (pid : ℤ) : s.handlers = [] →
      s.main = .fork bg cmdline → 1 ≤ pid → pid ∉ s.kids →
      Change s (.fork pid) { s with
        kids := insert pid s.kids
        child := Function.update s.child pid ⟨.running, false, false⟩
        main := .add pid bg cmdline }
  | add {pid : ℤ} {bg : Bool} {cmdline : String} : s.handlers = [] →
      s.main = .add pid bg cmdline →
      Change s .go { s with
        table := (addjob s.table pid (if bg then .BG else .FG) cmdline).1
        main := .unblock bg }
  | kill {job : Fin MAXJOBS} {fg : Bool} : s.handlers = [] → s.main = .kill job fg →
      Change s .go { killCont s (s.table.jobs job).pid with main := .mark job fg }
  | mark {job : Fin MAXJOBS} {fg : Bool} : s.handlers = [] → s.main = .mark job fg →
      Change s .go { s with
        table := markJob s.table job fg
        main := if fg then .waitfg .test else .prompt }
  | reap {prev saved : Mask} {hs : List Handler} (pid : ℤ) :
      s.handlers = ⟨.chldWait prev, saved⟩ :: hs → pid ∈ s.kids → (s.child pid).report →
      Change s (.reap pid) (reap s pid)
  | group {a : Act} (pid : ℤ) : pid ∈ s.kids → (s.child pid).status = .running →
      Change s a { s with
        child := Function.update s.child pid { s.child pid with group := true } }
  | status {a : Act} (pid : ℤ) (status : Status) : pid ∈ s.kids →
      (s.child pid).status.ended = false → (status = .running → a = .cont pid) →
      Change s a (change s pid status)

/-- A step that leaves the table, the children and the main program as they are. -/
theorem Change.same {s s' : State} {a : Act} (htable : s'.table = s.table)
    (hkids : s'.kids = s.kids) (hchild : s'.child = s.child) (hmain : s'.main = s.main) :
    Change s a s' :=
  .quiet htable hkids hchild (congrArg Main.adding hmain) (Or.inl (congrArg Main.target hmain))

/-- A step of the main program between two accesses to the table. -/
theorem Change.main {s s' : State} {a : Act} (htable : s'.table = s.table)
    (hkids : s'.kids = s.kids) (hchild : s'.child = s.child)
    (hadding : s.main.adding = none ∧ s'.main.adding = none) (htarget : s.main.target = none) :
    Change s a s' :=
  .quiet htable hkids hchild (hadding.2.trans hadding.1.symm) (Or.inr htarget)

/-- A step of the main program by its effect on the table and the children. -/
theorem MainStep.change {s s' : State} (h : MainStep s s') (hhandlers : s.handlers = []) :
    Change s .go s' := by
  cases h with
  | block hmain =>
      exact .main rfl rfl rfl ⟨congrArg Main.adding hmain, rfl⟩ (congrArg Main.target hmain)
  | add hmain => exact .add hhandlers hmain
  | @unblock bg hmain =>
      refine .main rfl rfl rfl ⟨congrArg Main.adding hmain, ?_⟩ (congrArg Main.target hmain)
      cases bg <;> rfl
  | kill hmain => exact .kill hhandlers hmain
  | mark hmain => exact .mark hhandlers hmain
  | test hmain hfg =>
      exact .main rfl rfl rfl ⟨congrArg Main.adding hmain, rfl⟩ (congrArg Main.target hmain)
  | woken hmain hfg =>
      exact .main rfl rfl rfl ⟨congrArg Main.adding hmain, rfl⟩ (congrArg Main.target hmain)
  | suspend hmain =>
      exact .main rfl rfl rfl ⟨congrArg Main.adding hmain, rfl⟩ (congrArg Main.target hmain)

theorem wake_same (s : State) : (wake s).1.table = s.table ∧ (wake s).1.kids = s.kids ∧
    (wake s).1.child = s.child ∧ (wake s).1.main.adding = s.main.adding ∧
    (wake s).1.main.target = s.main.target := by
  unfold wake
  split
  · next hmain => exact ⟨rfl, rfl, rfl, by rw [hmain]; rfl, by rw [hmain]; rfl⟩
  · exact ⟨rfl, rfl, rfl, rfl, rfl⟩
  · exact ⟨rfl, rfl, rfl, rfl, rfl⟩

/-- **What a step does to the table and to the children.** -/
theorem step_change {s s' : State} {a : Act} (h : step s a = some s') : Change s a s' := by
  cases (step_cases h).2 with
  | line hhandlers hmain =>
      exact .main rfl rfl rfl ⟨congrArg Main.adding hmain, rfl⟩ (congrArg Main.target hmain)
  | find fg hhandlers hmain hjob =>
      exact .main rfl rfl rfl ⟨congrArg Main.adding hmain, rfl⟩ (congrArg Main.target hmain)
  | fork pid hhandlers hmain hpid hnew => exact .fork pid hhandlers hmain hpid hnew
  | main hhandlers hgo => exact hgo.change hhandlers
  | reap pid hhandlers hpid hreport => exact .reap pid hhandlers hpid hreport
  | deliver sig hsig hmask =>
      obtain ⟨htable, hkids, hchild, hadding, htarget⟩ := wake_same s
      exact .quiet htable hkids hchild hadding (Or.inl htarget)
  | setpgid pid hpid hrun => exact .group pid hpid hrun
  | stop pid hpid hrun => exact .status pid .stopped hpid (by rw [hrun]; rfl) nofun
  | cont pid hpid hstop => exact .status pid .running hpid (by rw [hstop]; rfl) fun _ => rfl
  | exit pid hpid hrun => exact .status pid .exited hpid (by rw [hrun]; rfl) nofun
  | kill pid hpid hended => exact .status pid .signaled hpid hended nofun
  | _ => exact .same rfl rfl rfl rfl

/-- `waitpid` returns a child only to `sigchld_handler`. -/
theorem step_reap {s s' : State} {pid : ℤ} (h : step s (.reap pid) = some s') :
    ∃ prev saved hs, s.handlers = ⟨.chldWait prev, saved⟩ :: hs ∧ pid ∈ s.kids ∧
      (s.child pid).report ∧ s' = reap s pid := by
  cases (step_cases h).2 with
  | reap pid hhandlers hpid hreport => exact ⟨_, _, _, hhandlers, hpid, hreport, rfl⟩

theorem step_deliver {s s' : State} {sig : Sig} (h : step s (.deliver sig) = some s') :
    s' = deliver s sig := by
  cases (step_cases h).2 with
  | deliver sig hsig hmask => rfl

theorem MainStep.death {s s' : State} (h : MainStep s s') : s'.death = s.death := by
  cases h <;> rfl

theorem wake_death (s : State) : (wake s).1.death = s.death := by
  unfold wake
  split <;> rfl

/-- **How the shell ends**: by `quit`, by a null job, or by a `kill` without a group. -/
theorem step_death {s s' : State} {a : Act} (h : step s a = some s') :
    s'.death = none ∨ s'.death = some .quit ∨
    (s'.death = some .nullJob ∧ ∃ pid, a = .reap pid ∧
      childEvent s.table pid (s.child pid).status.event = none) ∨
    (s'.death = some .unixError ∧ ∃ h hs sig prev pid, s.handlers = h :: hs ∧
      h.point = .ttyKill sig prev pid ∧ ¬(pid ∈ s.kids ∧ (s.child pid).group)) := by
  obtain ⟨hlive, htrans⟩ := step_cases h
  cases htrans with
  | quit => exact Or.inr (Or.inl rfl)
  | main hhandlers hgo => exact Or.inl (hgo.death.trans hlive)
  | unixError hhandlers hpoint hgroup =>
      exact Or.inr (Or.inr (Or.inr ⟨rfl, _, _, _, _, _, hhandlers, hpoint, hgroup⟩))
  | reap pid hhandlers hpid hreport =>
      unfold reap
      split
      · exact Or.inl hlive
      · next hnone => exact Or.inr (Or.inr (Or.inl ⟨rfl, pid, rfl, hnone⟩))
  | deliver sig hsig hmask => exact Or.inl ((wake_death s).trans hlive)
  | _ => exact Or.inl hlive

/-! ## What a step does to the handlers -/

theorem MainStep.handlers {s s' : State} (h : MainStep s s') : s'.handlers = s.handlers := by
  cases h <;> rfl

theorem reap_handlers (s : State) (pid : ℤ) : (reap s pid).handlers = s.handlers := by
  unfold reap
  split <;> rfl

/-- A woken handler is at the test of `waitfg`. -/
theorem wake_point {s : State} {h : Handler} (hmem : h ∈ (wake s).1.handlers) :
    h ∈ s.handlers ∨ ∃ prev, h.point = .ttyWait prev .test := by
  unfold wake at hmem
  split at hmem
  · exact Or.inl hmem
  · next hhandlers =>
      rcases List.mem_cons.mp hmem with rfl | hmem
      · exact Or.inr ⟨_, rfl⟩
      · exact Or.inl (hhandlers ▸ List.mem_cons_of_mem _ hmem)
  · exact Or.inl hmem

/-- **What a step does to the handlers**: none at all, or the running one moves on or
returns, or a signal is delivered. -/
theorem step_handlers {s s' : State} {a : Act} (h : step s a = some s') :
    s'.handlers = s.handlers ∨
    (a = .go ∧ ∃ h hs point, s.handlers = h :: hs ∧ Next s h.point point ∧
      s'.handlers = { h with point := point } :: hs) ∨
    (a = .go ∧ ∃ h, s.handlers = h :: s'.handlers) ∨
    ∃ sig, a = .deliver sig ∧ s'.handlers = ⟨entry sig, (wake s).2⟩ :: (wake s).1.handlers := by
  cases (step_cases h).2 with
  | main hhandlers hgo => exact Or.inl hgo.handlers
  | next hhandlers hnext => exact Or.inr (Or.inl ⟨rfl, _, _, _, hhandlers, hnext, rfl⟩)
  | ret hhandlers => exact Or.inr (Or.inr (Or.inl ⟨rfl, _, hhandlers⟩))
  | reap pid hhandlers hpid hreport => exact Or.inl (reap_handlers s pid)
  | deliver sig hsig hmask => exact Or.inr (Or.inr (Or.inr ⟨sig, rfl, rfl⟩))
  | _ => exact Or.inl rfl

/-- **The rule for the points of the handlers**: what holds of each of them before a step
holds of each after it, if it holds of the first point of a delivered signal, of the next
point of a handler, and of the test of `waitfg`. -/
theorem step_points {P : Point → Prop} {s s' : State} {a : Act} (h : step s a = some s')
    (hpoints : ∀ h ∈ s.handlers, P h.point) (hentry : ∀ sig, a = .deliver sig → P (entry sig))
    (hnext : ∀ h hs point, a = .go → s.handlers = h :: hs → Next s h.point point → P point)
    (htest : ∀ prev, P (.ttyWait prev .test)) : ∀ h ∈ s'.handlers, P h.point := by
  intro k hk
  rcases step_handlers h with heq | ⟨hgo, h', hs, point, hhandlers, hn, heq⟩ |
    ⟨-, h', heq⟩ | ⟨sig, hsig, heq⟩
  · exact hpoints k (heq ▸ hk)
  · rw [heq] at hk
    rcases List.mem_cons.mp hk with rfl | hk
    · exact hnext h' hs point hgo hhandlers hn
    · exact hpoints k (hhandlers ▸ List.mem_cons_of_mem _ hk)
  · exact hpoints k (heq ▸ List.mem_cons_of_mem _ hk)
  · rw [heq] at hk
    rcases List.mem_cons.mp hk with rfl | hk
    · exact hentry sig hsig
    · rcases wake_point hk with hk | ⟨prev, hprev⟩
      · exact hpoints k hk
      · exact hprev ▸ htest prev

end Shell
