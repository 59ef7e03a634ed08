/-
# The job table of the shell: `job.c`

The functions of `job.c` on a table of `MAXJOBS` slots and the counter `nextjid`.
A slot is free when its `pid` is zero.  Each loop over the slots stops at the first
one that passes its test (`firstSlot`).

The ids of the jobs are unique as long as `nextjid` is free, and not above
`MAXJOBS`, whenever `addjob` hands it out (`uniqueIds_iff`).
-/
import Mathlib

namespace Shell

/-! ## The functions -/

/-- The number of slots. -/
abbrev MAXJOBS : ℕ := 16

instance : NeZero MAXJOBS := ⟨by decide⟩

/-- Job states. -/
inductive JobState : Type where
  | UNDEF : JobState
  | FG : JobState
  | BG : JobState
  | ST : JobState
  deriving DecidableEq, Repr

/-- `job_t`. -/
structure Job where
  pid : ℤ
  jid : ℤ
  state : JobState
  cmdline : String
  deriving DecidableEq, Repr

/-- `jobs` and `nextjid`. -/
structure Table where
  jobs : Fin MAXJOBS → Job
  nextjid : ℤ

/-- `clearjob`. -/
def clearjob : Job where
  pid := 0
  jid := 0
  state := .UNDEF
  cmdline := ""

/-- `initjobs`, with `nextjid = 1`. -/
def initjobs : Table where
  jobs := fun _ => clearjob
  nextjid := 1

/-- The first slot that passes a test. -/
def firstSlot (p : Job → Bool) (jobs : Fin MAXJOBS → Job) : Option (Fin MAXJOBS) :=
  (List.finRange MAXJOBS).find? fun i => p (jobs i)

/-- `maxjid`. -/
def maxjid (jobs : Fin MAXJOBS → Job) : ℤ :=
  (List.finRange MAXJOBS).foldl (fun max i => if max < (jobs i).jid then (jobs i).jid else max) 0

/-- `addjob`: the table, and the job id or zero. -/
def addjob (t : Table) (pid : ℤ) (state : JobState) (cmdline : String) : Table × ℤ :=
  if pid < 1 then (t, 0)
  else
    match firstSlot (fun job => decide (job.pid = 0)) t.jobs with
    | some i =>
        let job := { pid := pid, jid := t.nextjid, state := state, cmdline := cmdline }
        let nextjid := t.nextjid + 1
        let nextjid := if MAXJOBS < nextjid then 1 else nextjid
        ({ jobs := Function.update t.jobs i job, nextjid := nextjid }, t.nextjid)
    | none => (t, 0)

/-- `deletejob`: the table, and one if there was such a job. -/
def deletejob (t : Table) (pid : ℤ) : Table × ℤ :=
  if pid < 1 then (t, 0)
  else
    match firstSlot (fun job => decide (job.pid = pid)) t.jobs with
    | some i =>
        let jobs := Function.update t.jobs i clearjob
        ({ jobs := jobs, nextjid := maxjid jobs + 1 }, 1)
    | none => (t, 0)

/-- `getjobjid`. -/
def getjobjid (t : Table) (jid : ℤ) : Option (Fin MAXJOBS) :=
  if jid < 1 then none else firstSlot (fun job => decide (job.jid = jid)) t.jobs

/-- `getjobpid`. -/
def getjobpid (t : Table) (pid : ℤ) : Option (Fin MAXJOBS) :=
  if pid < 1 then none else firstSlot (fun job => decide (job.pid = pid)) t.jobs

/-- `fgpid`. -/
def fgpid (t : Table) : ℤ :=
  match firstSlot (fun job => decide (job.state = .FG)) t.jobs with
  | some i => (t.jobs i).pid
  | none => 0

/-! ## The slots -/

section

variable {p : Job → Bool} {jobs : Fin MAXJOBS → Job} {i : Fin MAXJOBS}

theorem firstSlot_some (h : firstSlot p jobs = some i) : p (jobs i) = true := by
  have := List.find?_some h
  exact this

theorem firstSlot_eq_none : firstSlot p jobs = none ↔ ∀ i, p (jobs i) = false := by
  simp [firstSlot, List.find?_eq_none]

/-- A test that one slot passes finds it. -/
theorem firstSlot_eq_some (hi : p (jobs i) = true) (hunique : ∀ j, p (jobs j) = true → j = i) :
    firstSlot p jobs = some i := by
  cases h : firstSlot p jobs with
  | none =>
      have := firstSlot_eq_none.mp h i
      rw [hi] at this
      exact absurd this (by decide)
  | some j => rw [hunique j (firstSlot_some h)]

/-- No slot before the first one passes the test. -/
theorem firstSlot_eq_some_iff : firstSlot p jobs = some i ↔
    p (jobs i) = true ∧ ∀ j < i, p (jobs j) = false := by
  rw [firstSlot, List.find?_eq_some_iff_append]
  constructor
  · rintro ⟨hi, as, bs, hsplit, has⟩
    refine ⟨hi, fun j hj => ?_⟩
    have hmem : j ∈ as ++ i :: bs := hsplit ▸ List.mem_finRange j
    have hsorted : (as ++ i :: bs).Pairwise (· < ·) := hsplit ▸ List.pairwise_lt_finRange MAXJOBS
    rcases List.mem_append.mp hmem with hmem | hmem
    · have := has j hmem
      simpa using this
    · have htail := (List.pairwise_append.mp hsorted).2.1
      rcases List.mem_cons.mp hmem with rfl | hmem
      · exact absurd hj (lt_irrefl j)
      · exact absurd ((List.pairwise_cons.mp htail).1 j hmem) (not_lt_of_gt hj)
  · rintro ⟨hi, hfirst⟩
    obtain ⟨as, bs, hsplit⟩ := List.append_of_mem (List.mem_finRange i)
    refine ⟨hi, as, bs, hsplit, fun j hj => ?_⟩
    have hsorted : (as ++ i :: bs).Pairwise (· < ·) := hsplit ▸ List.pairwise_lt_finRange MAXJOBS
    have hlt := (List.pairwise_append.mp hsorted).2.2 j hj i List.mem_cons_self
    rw [hfirst j hlt]
    rfl

end

/-- **`maxjid`** is at least every job id. -/
theorem maxjid_spec (jobs : Fin MAXJOBS → Job) :
    0 ≤ maxjid jobs ∧ ∀ i, (jobs i).jid ≤ maxjid jobs := by
  have hfold : ∀ (l : List (Fin MAXJOBS)) (m : ℤ),
      m ≤ l.foldl (fun max i => if max < (jobs i).jid then (jobs i).jid else max) m ∧
      ∀ i ∈ l, (jobs i).jid ≤
        l.foldl (fun max i => if max < (jobs i).jid then (jobs i).jid else max) m := by
    intro l
    induction l with
    | nil => exact fun m => ⟨le_rfl, by simp⟩
    | cons j l ih =>
        intro m
        rw [List.foldl_cons]
        obtain ⟨hle, hmem⟩ := ih (if m < (jobs j).jid then (jobs j).jid else m)
        have hm : m ≤ (if m < (jobs j).jid then (jobs j).jid else m) ∧
            (jobs j).jid ≤ (if m < (jobs j).jid then (jobs j).jid else m) := by
          split_ifs <;> omega
        refine ⟨hm.1.trans hle, fun i hi => ?_⟩
        rcases List.mem_cons.mp hi with rfl | hi
        · exact hm.2.trans hle
        · exact hmem i hi
  obtain ⟨h0, h⟩ := hfold (List.finRange MAXJOBS) 0
  exact ⟨h0, fun i => h i (List.mem_finRange i)⟩

/-! ## Unique ids -/

/-- The calls on the table. -/
inductive Op : Type where
  | add (pid : ℤ) (state : JobState) (cmdline : String) : Op
  | delete (pid : ℤ) : Op
  deriving DecidableEq, Repr

/-- The table after a call. -/
def apply (t : Table) : Op → Table
  | .add pid state cmdline => (addjob t pid state cmdline).1
  | .delete pid => (deletejob t pid).1

/-- The tables of a run, from the first to the last. -/
def tables (t : Table) : List Op → List Table
  | [] => [t]
  | op :: ops => t :: tables (apply t op) ops

/-- The calls of a run, each with the table it finds. -/
def calls (t : Table) : List Op → List (Table × Op)
  | [] => []
  | op :: ops => (t, op) :: calls (apply t op) ops

/-- A slot that holds a job. -/
def Occupied (t : Table) (i : Fin MAXJOBS) : Prop := (t.jobs i).pid ≠ 0

instance (t : Table) (i : Fin MAXJOBS) : Decidable (Occupied t i) :=
  inferInstanceAs (Decidable (_ ≠ _))

/-- Jobs have different ids, from one to `MAXJOBS`, and `getjobjid` finds each. -/
structure UniqueIds (t : Table) : Prop where
  unique : ∀ i j, Occupied t i → Occupied t j → (t.jobs i).jid = (t.jobs j).jid → i = j
  bounds : ∀ i, Occupied t i → 1 ≤ (t.jobs i).jid ∧ (t.jobs i).jid ≤ MAXJOBS
  found : ∀ i, Occupied t i → getjobjid t (t.jobs i).jid = some i

/-- A job is added with the id of a process that is not in the table. -/
def Legal (t : Table) : Op → Prop
  | .add pid _ _ => 1 ≤ pid ∧ ∀ i, (t.jobs i).pid ≠ pid
  | .delete _ => True

/-- When a job is added, `nextjid` is an id, and not that of a job. -/
def Fresh (t : Table) : Op → Prop
  | .add _ _ _ => (∃ i, (t.jobs i).pid = 0) → t.nextjid ≤ MAXJOBS ∧ getjobjid t t.nextjid = none
  | .delete _ => True

/-- What every run keeps: free slots have no id, and `nextjid` is positive. -/
structure Clean (t : Table) : Prop where
  free : ∀ i, (t.jobs i).pid = 0 → (t.jobs i).jid = 0
  next : 1 ≤ t.nextjid

theorem clean_initjobs : Clean initjobs := ⟨fun _ _ => rfl, le_rfl⟩

theorem uniqueIds_initjobs : UniqueIds initjobs :=
  ⟨fun _ _ h => absurd rfl h, fun _ h => absurd rfl h, fun _ h => absurd rfl h⟩

/-- A job can be added: to a free slot, with the id `nextjid`. -/
theorem addjob_cases (t : Table) {pid : ℤ} (state : JobState) (cmdline : String)
    (hpid : 1 ≤ pid) :
    ((∀ i, (t.jobs i).pid ≠ 0) ∧ addjob t pid state cmdline = (t, 0)) ∨
    ∃ i, (t.jobs i).pid = 0 ∧ addjob t pid state cmdline =
      (⟨Function.update t.jobs i ⟨pid, t.nextjid, state, cmdline⟩,
        if MAXJOBS < t.nextjid + 1 then 1 else t.nextjid + 1⟩, t.nextjid) := by
  rw [addjob, if_neg (by omega)]
  cases hslot : firstSlot (fun job => decide (job.pid = 0)) t.jobs with
  | none =>
      refine Or.inl ⟨fun i => ?_, rfl⟩
      exact of_decide_eq_false (firstSlot_eq_none.mp hslot i)
  | some i => exact Or.inr ⟨i, of_decide_eq_true (firstSlot_some hslot), rfl⟩

/-- A job is deleted, or the table stays as it is. -/
theorem deletejob_cases (t : Table) (pid : ℤ) :
    deletejob t pid = (t, 0) ∨
    ∃ i, (t.jobs i).pid = pid ∧ 1 ≤ pid ∧ deletejob t pid =
      (⟨Function.update t.jobs i clearjob, maxjid (Function.update t.jobs i clearjob) + 1⟩, 1) := by
  rw [deletejob]
  split_ifs with hpid
  · exact Or.inl rfl
  · cases hslot : firstSlot (fun job => decide (job.pid = pid)) t.jobs with
    | none => exact Or.inl rfl
    | some i =>
        exact Or.inr ⟨i, of_decide_eq_true (firstSlot_some hslot), by omega, rfl⟩

/-- **Every call keeps the table clean.** -/
theorem Clean.apply {t : Table} {op : Op} (h : Clean t) (hlegal : Legal t op) :
    Clean (apply t op) := by
  cases op with
  | add pid state cmdline =>
      rcases addjob_cases t state cmdline hlegal.1 with ⟨-, heq⟩ | ⟨i, -, heq⟩ <;>
        rw [Shell.apply, heq]
      · exact h
      · constructor
        · intro j hj
          by_cases hji : j = i
          · subst hji
            simp only [Function.update_self] at hj
            exact absurd hj (by have := hlegal.1; omega)
          · simp only [Function.update_of_ne hji] at hj ⊢
            exact h.free j hj
        · have := h.next
          simp only
          split_ifs <;> omega
  | delete pid =>
      rcases deletejob_cases t pid with heq | ⟨i, -, -, heq⟩ <;> rw [Shell.apply, heq]
      · exact h
      · constructor
        · intro j hj
          by_cases hji : j = i
          · subst hji
            show (Function.update t.jobs j clearjob j).jid = 0
            rw [Function.update_self]
            rfl
          · simp only [Function.update_of_ne hji] at hj ⊢
            exact h.free j hj
        · have := (maxjid_spec (Function.update t.jobs i clearjob)).1
          simp only
          omega

/-- In a clean table, unique ids within the bounds are found. -/
theorem Clean.uniqueIds {t : Table} (h : Clean t)
    (hunique : ∀ i j, Occupied t i → Occupied t j → (t.jobs i).jid = (t.jobs j).jid → i = j)
    (hbounds : ∀ i, Occupied t i → 1 ≤ (t.jobs i).jid ∧ (t.jobs i).jid ≤ MAXJOBS) :
    UniqueIds t := by
  refine ⟨hunique, hbounds, fun i hi => ?_⟩
  have hpos := (hbounds i hi).1
  rw [getjobjid, if_neg (by omega)]
  refine firstSlot_eq_some (decide_eq_true rfl) fun j hj => ?_
  have hjid := of_decide_eq_true hj
  refine hunique j i (fun hfree => ?_) hi hjid
  have := h.free j hfree
  omega

section

variable {t : Table} {i : Fin MAXJOBS} {n : ℤ}

/-- No slot has the id that `getjobjid` does not find. -/
theorem Clean.getjobjid_eq_none (h : Clean t) :
    getjobjid t t.nextjid = none ↔ ∀ j, (t.jobs j).jid ≠ t.nextjid := by
  rw [getjobjid, if_neg (by have := h.next; omega), firstSlot_eq_none]
  exact forall_congr' fun j => decide_eq_false_iff_not

/-- **A job with the id `nextjid`** in a free slot leaves the ids unique exactly when
`nextjid` is an id, and not that of a job. -/
theorem UniqueIds.add_iff {job : Job} (h : UniqueIds t) (hclean : Clean t)
    (hclean' : Clean ⟨Function.update t.jobs i job, n⟩) (hfree : (t.jobs i).pid = 0)
    (hpid : job.pid ≠ 0) (hjid : job.jid = t.nextjid) :
    UniqueIds ⟨Function.update t.jobs i job, n⟩ ↔
      t.nextjid ≤ MAXJOBS ∧ getjobjid t t.nextjid = none := by
  have hself : (⟨Function.update t.jobs i job, n⟩ : Table).jobs i = job := Function.update_self ..
  have hother : ∀ j, j ≠ i → (⟨Function.update t.jobs i job, n⟩ : Table).jobs j = t.jobs j :=
    fun _ hj => Function.update_of_ne hj ..
  have hnext := hclean.next
  rw [hclean.getjobjid_eq_none]
  constructor
  · intro h'
    have hocc : Occupied ⟨Function.update t.jobs i job, n⟩ i := by
      rw [Occupied, hself]
      exact hpid
    have hle := (h'.bounds i hocc).2
    rw [hself, hjid] at hle
    refine ⟨hle, fun j hj => ?_⟩
    have hocc_j : Occupied t j := fun hp => by
      have := hclean.free j hp
      omega
    have hji : j ≠ i := by
      rintro rfl
      exact hocc_j hfree
    refine hji (h'.unique j i ?_ hocc ?_)
    · rw [Occupied, hother j hji]
      exact hocc_j
    · rw [hother j hji, hself, hjid]
      exact hj
  · rintro ⟨hle, hnew⟩
    apply hclean'.uniqueIds
    · intro j k hj hk hjk
      by_cases hji : j = i <;> by_cases hki : k = i
      · rw [hji, hki]
      · subst hji
        rw [hself, hother k hki, hjid] at hjk
        exact absurd hjk.symm (hnew k)
      · subst hki
        rw [hself, hother j hji, hjid] at hjk
        exact absurd hjk (hnew j)
      · rw [hother j hji, hother k hki] at hjk
        rw [Occupied, hother j hji] at hj
        rw [Occupied, hother k hki] at hk
        exact h.unique j k hj hk hjk
    · intro j hj
      by_cases hji : j = i
      · subst hji
        rw [hself, hjid]
        exact ⟨hnext, hle⟩
      · rw [Occupied, hother j hji] at hj
        rw [hother j hji]
        exact h.bounds j hj

/-- Clearing a slot leaves the ids unique. -/
theorem UniqueIds.clear (h : UniqueIds t)
    (hclean' : Clean ⟨Function.update t.jobs i clearjob, n⟩) :
    UniqueIds ⟨Function.update t.jobs i clearjob, n⟩ := by
  have hkeep : ∀ j, Occupied ⟨Function.update t.jobs i clearjob, n⟩ j →
      Occupied t j ∧ Function.update t.jobs i clearjob j = t.jobs j := by
    intro j hj
    have hji : j ≠ i := by
      rintro rfl
      exact hj (congrArg Job.pid (Function.update_self j clearjob t.jobs))
    have hsame : Function.update t.jobs i clearjob j = t.jobs j := Function.update_of_ne hji ..
    refine ⟨?_, hsame⟩
    rw [Occupied] at hj ⊢
    rwa [← hsame]
  apply hclean'.uniqueIds
  · intro j k hj hk hjk
    obtain ⟨hoj, hsj⟩ := hkeep j hj
    obtain ⟨hok, hsk⟩ := hkeep k hk
    simp only [hsj, hsk] at hjk
    exact h.unique j k hoj hok hjk
  · intro j hj
    obtain ⟨hoj, hsj⟩ := hkeep j hj
    simp only [hsj]
    exact h.bounds j hoj

end

/-- **One call** keeps the ids unique exactly when it finds `nextjid` fresh. -/
theorem UniqueIds.apply_iff {t : Table} {op : Op} (h : UniqueIds t) (hclean : Clean t)
    (hlegal : Legal t op) : UniqueIds (apply t op) ↔ Fresh t op := by
  have hclean' := hclean.apply hlegal
  cases op with
  | add pid state cmdline =>
      rcases addjob_cases t state cmdline hlegal.1 with ⟨hfull, heq⟩ | ⟨i, hfree, heq⟩ <;>
        rw [Shell.apply, heq] at hclean' ⊢
      · refine iff_of_true h ?_
        rintro ⟨i, hi⟩
        exact absurd hi (hfull i)
      · have hpid : pid ≠ 0 := by have := hlegal.1; omega
        rw [h.add_iff hclean hclean' hfree hpid rfl]
        exact ⟨fun hadd _ => hadd, fun hfresh => hfresh ⟨i, hfree⟩⟩
  | delete pid =>
      refine iff_of_true ?_ trivial
      rcases deletejob_cases t pid with heq | ⟨i, -, -, heq⟩ <;>
        rw [Shell.apply, heq] at hclean' ⊢
      · exact h
      · exact h.clear hclean'

/-! ## Runs -/

theorem mem_tables_self (t : Table) (ops : List Op) : t ∈ tables t ops := by
  cases ops with
  | nil => exact List.mem_singleton_self t
  | cons op ops => exact List.mem_cons_self

/-- **The ids stay unique** from a clean table with unique ids exactly when each
call finds `nextjid` fresh. -/
theorem UniqueIds.tables_iff {t : Table} {ops : List Op} (h : UniqueIds t) (hclean : Clean t)
    (hlegal : ∀ e ∈ calls t ops, Legal e.1 e.2) :
    (∀ t' ∈ tables t ops, UniqueIds t') ↔ ∀ e ∈ calls t ops, Fresh e.1 e.2 := by
  induction ops generalizing t with
  | nil =>
      refine iff_of_true ?_ (by simp [calls])
      intro t' ht'
      rw [List.mem_singleton.mp ht']
      exact h
  | cons op ops ih =>
      rw [calls, List.forall_mem_cons] at hlegal
      have hstep := h.apply_iff hclean hlegal.1
      rw [tables, calls, List.forall_mem_cons, List.forall_mem_cons]
      constructor
      · rintro ⟨-, htables⟩
        have h' := htables _ (mem_tables_self _ _)
        exact ⟨hstep.mp h', (ih h' (hclean.apply hlegal.1) hlegal.2).mp htables⟩
      · rintro ⟨hfresh, hcalls⟩
        exact ⟨h, (ih (hstep.mpr hfresh) (hclean.apply hlegal.1) hlegal.2).mpr hcalls⟩

/-- **When job ids are unique**: in every table of a run from `initjobs`, exactly
when every `addjob` that has a slot finds that `nextjid` is at most `MAXJOBS` and
not the id of a job. -/
theorem uniqueIds_iff {ops : List Op} (hlegal : ∀ e ∈ calls initjobs ops, Legal e.1 e.2) :
    (∀ t ∈ tables initjobs ops, UniqueIds t) ↔ ∀ e ∈ calls initjobs ops, Fresh e.1 e.2 :=
  uniqueIds_initjobs.tables_iff clean_initjobs hlegal

instance (t : Table) (op : Op) : Decidable (Legal t op) :=
  match op with
  | .add pid _ _ => inferInstanceAs (Decidable (1 ≤ pid ∧ ∀ i, (t.jobs i).pid ≠ pid))
  | .delete _ => isTrue trivial

instance (t : Table) (op : Op) : Decidable (Fresh t op) :=
  match op with
  | .add _ _ _ => inferInstanceAs (Decidable ((∃ i, (t.jobs i).pid = 0) →
      t.nextjid ≤ MAXJOBS ∧ getjobjid t t.nextjid = none))
  | .delete _ => isTrue trivial

/-- Two jobs, the first of which ends before the third comes. -/
theorem uniqueIds_three :
    (tables initjobs [.add 100 .BG "a", .add 101 .BG "b", .delete 100,
      .add 102 .FG "c"]).map Table.nextjid = [1, 2, 3, 3, 4] ∧
    ∀ t ∈ tables initjobs [.add 100 .BG "a", .add 101 .BG "b", .delete 100, .add 102 .FG "c"],
      UniqueIds t :=
  ⟨by decide, (uniqueIds_iff (by decide)).mpr (by decide)⟩

/-- Background jobs with the process ids `100 + n` to `100 + m - 1`. -/
def addFrom (n m : ℕ) : List Op := (List.range' n (m - n)).map fun k => .add (100 + k) .BG ""

/-- Sixteen jobs; jobs 4 and 5 end, which sets `nextjid` to 17; two more jobs get
the ids 17 and 1, of which the second is in use. -/
theorem not_uniqueIds_wrap : ¬ ∀ ops, (∀ e ∈ calls initjobs ops, Legal e.1 e.2) →
    ∀ t ∈ tables initjobs ops, UniqueIds t := by
  intro h
  have hlegal : ∀ e ∈ calls initjobs
      (addFrom 0 16 ++ [.delete 103, .delete 104] ++ addFrom 16 18), Legal e.1 e.2 := by decide
  have hfresh := (uniqueIds_initjobs.tables_iff clean_initjobs hlegal).mp (h _ hlegal)
  exact absurd hfresh (by decide)

end Shell
