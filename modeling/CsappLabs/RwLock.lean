/-
# The readers-writer lock of the cache

The lock protocol of `lru_get`, `dec_reader` and `lru_put`: each `sem_wait`,
`sem_post`, update of `readcnt` and test of `readcnt` is one step of a thread, and
what happens to the list in between is one more.

`mutex` starts at `READER_SAME_TIME`, so that several threads may be counting at a
time.  The protocol is sound as long as no thread updates `readcnt` between the
update and the test of another one (`Counted`): then readers and writers exclude
each other (`exclusive_of_counted`) and some thread can go on
(`live_of_counted`).  Without this neither holds.
-/
import CsappLabs.ThreadCount
import CsappLabs.Interleaving

open ThreadCount Interleaving

namespace RwLock

/-! ## The protocol -/

/-- The initial count of `mutex`. -/
def READER_SAME_TIME : ℕ := 10

/-- The lock of a cache: `readcnt`, `w` and `mutex`. -/
structure Lock where
  readcnt : ℤ
  w : ℕ
  mutex : ℕ
  deriving DecidableEq, Repr

/-- The lock after `lru_init`. -/
def lockInit : Lock where
  readcnt := 0
  w := 1
  mutex := READER_SAME_TIME

/-- The two calls. -/
inductive Kind : Type where
  | get : Kind
  | put : Kind
  deriving DecidableEq, Repr

/-- Where a thread is: what it does next.  Outside a call, the next step is the
first `sem_wait` of the next call. -/
inductive Phase : Type where
  | out : Phase
  | gInc : Phase
  | gTest : Phase
  | gWaitW : Phase
  | gPost : Phase
  | gBody : Phase
  | dWait : Phase
  | dDec : Phase
  | dTest : Phase
  | dPostW : Phase
  | dPost : Phase
  | pBody : Phase
  | pPost : Phase
  deriving DecidableEq, Repr

/-- One step of a thread; `kind` is the call that a thread outside a call starts.
A `sem_wait` on a semaphore that is zero is not enabled. -/
def move (kind : Kind) (l : Lock) : Phase → Option (Lock × Phase)
  | .out =>
      match kind with
      | .get => if 0 < l.mutex then some ({ l with mutex := l.mutex - 1 }, .gInc) else none
      | .put => if 0 < l.w then some ({ l with w := l.w - 1 }, .pBody) else none
  | .gInc => some ({ l with readcnt := l.readcnt + 1 }, .gTest)
  | .gTest => some (l, if l.readcnt = 1 then .gWaitW else .gPost)
  | .gWaitW => if 0 < l.w then some ({ l with w := l.w - 1 }, .gPost) else none
  | .gPost => some ({ l with mutex := l.mutex + 1 }, .gBody)
  | .gBody => some (l, .dWait)
  | .dWait => if 0 < l.mutex then some ({ l with mutex := l.mutex - 1 }, .dDec) else none
  | .dDec => some ({ l with readcnt := l.readcnt - 1 }, .dTest)
  | .dTest => some (l, if l.readcnt = 0 then .dPostW else .dPost)
  | .dPostW => some ({ l with w := l.w + 1 }, .dPost)
  | .dPost => some ({ l with mutex := l.mutex + 1 }, .out)
  | .pBody => some (l, .pPost)
  | .pPost => some ({ l with w := l.w + 1 }, .out)

/-- Between the entry and the exit protocol of `lru_get`. -/
def Phase.reading : Phase → Bool
  | .gBody | .dWait => true
  | _ => false

/-- Between `sem_wait(&w)` and `sem_post(&w)` of `lru_put`. -/
def Phase.writing : Phase → Bool
  | .pBody | .pPost => true
  | _ => false

/-- The thread has updated `readcnt` and not finished what the test decides. -/
def Phase.testing : Phase → Bool
  | .gTest | .gWaitW | .dTest | .dPostW => true
  | _ => false

/-- The next step updates `readcnt`. -/
def Phase.updating : Phase → Bool
  | .gInc | .dDec => true
  | _ => false

/-! ## The invariant -/

/-- Counted in `readcnt`, and past the test on the way in. -/
def Phase.admitted : Phase → Bool
  | .gPost | .gBody | .dWait | .dDec => true
  | _ => false

/-- Between `sem_wait(&mutex)` and `sem_post(&mutex)`. -/
def Phase.counting : Phase → Bool
  | .gInc | .gTest | .gWaitW | .gPost | .dDec | .dTest | .dPostW | .dPost => true
  | _ => false

/-- At one phase. -/
def Phase.at (p q : Phase) : Bool := decide (q = p)

variable {ι : Type} [Fintype ι] [DecidableEq ι]

/-- **The invariant of the lock**, when `readcnt` is updated by one thread at a
time: `readcnt` counts the readers, and `w` is taken by a writer, or by the
readers from the first test to the last. -/
structure Inv (l : Lock) (ph : ι → Phase) : Prop where
  readcnt : l.readcnt = count (Phase.at .gTest) ph + count (Phase.at .gWaitW) ph +
    count Phase.admitted ph
  testing : count (Phase.at .gTest) ph + count (Phase.at .gWaitW) ph + count (Phase.at .dTest) ph +
    count (Phase.at .dPostW) ph ≤ 1
  w : l.w + count Phase.writing ph + min 1 (count Phase.admitted ph + count (Phase.at .dTest) ph +
    count (Phase.at .dPostW) ph) = 1
  waitW : 0 < count (Phase.at .gWaitW) ph → count Phase.admitted ph = 0
  postW : 0 < count (Phase.at .dPostW) ph → count Phase.admitted ph = 0
  mutex : l.mutex + count Phase.counting ph = READER_SAME_TIME

/-- No other thread is between its update of `readcnt` and what follows from its
test. -/
def Alone (ph : ι → Phase) (i : ι) : Prop :=
  (ph i).updating = true → ∀ j, j ≠ i → (ph j).testing = false

instance (ph : ι → Phase) (i : ι) : Decidable (Alone ph i) :=
  inferInstanceAs (Decidable (_ → _))

omit [DecidableEq ι] in
theorem inv_init : Inv lockInit (fun _ : ι => Phase.out) := by
  have hzero : ∀ p : Phase → Bool, p .out = false → count p (fun _ : ι => Phase.out) = 0 :=
    fun p hp => count_eq_zero fun _ => hp
  constructor
  · rw [hzero _ rfl, hzero _ rfl, hzero _ rfl]
    rfl
  · rw [hzero _ rfl, hzero _ rfl, hzero _ rfl, hzero _ rfl]
    exact Nat.zero_le 1
  · rw [hzero _ rfl, hzero _ rfl, hzero _ rfl, hzero _ rfl]
    rfl
  · rw [hzero (Phase.at .gWaitW) rfl]
    exact fun h => absurd h (lt_irrefl 0)
  · rw [hzero (Phase.at .dPostW) rfl]
    exact fun h => absurd h (lt_irrefl 0)
  · rw [hzero _ rfl]
    rfl

omit [DecidableEq ι] in
/-- A thread that updates `readcnt` alone: nobody is testing, the thread itself included. -/
theorem Alone.nobody {ph : ι → Phase} {i : ι} (h : Alone ph i) (hu : (ph i).updating = true) :
    count (Phase.at .gTest) ph = 0 ∧ count (Phase.at .gWaitW) ph = 0 ∧
      count (Phase.at .dTest) ph = 0 ∧ count (Phase.at .dPostW) ph = 0 := by
  have hfree : ∀ j, (ph j).testing = false := by
    intro j
    by_cases hj : j = i
    · subst hj
      revert hu
      cases ph j <;> decide
    · exact h hu j hj
  have hzero : ∀ q : Phase, q.testing = true → count (Phase.at q) ph = 0 := by
    intro q hq
    apply count_eq_zero
    intro j
    apply decide_eq_false
    rintro rfl
    exact absurd (hfree j) (by rw [hq]; decide)
  exact ⟨hzero _ rfl, hzero _ rfl, hzero _ rfl, hzero _ rfl⟩

/-- How the count of `q` changes when thread `i` goes to the phase `p`. -/
def Shifts (ph : ι → Phase) (i : ι) (p : Phase) (q : Phase → Bool) : Prop :=
  count q (Function.update ph i p) + (q (ph i)).toNat = count q ph + (q p).toNat

/-- The counts of the invariant. -/
theorem counts_update (ph : ι → Phase) (i : ι) (p : Phase) :
    Shifts ph i p (Phase.at .gTest) ∧ Shifts ph i p (Phase.at .gWaitW) ∧
      Shifts ph i p Phase.admitted ∧ Shifts ph i p (Phase.at .dTest) ∧
      Shifts ph i p (Phase.at .dPostW) ∧ Shifts ph i p Phase.writing ∧
      Shifts ph i p Phase.counting := by
  have hshift : ∀ q, Shifts ph i p q := fun q => count_update q ph i p
  exact ⟨hshift _, hshift _, hshift _, hshift _, hshift _, hshift _, hshift _⟩

/-- **Every step keeps the invariant**, when updates of `readcnt` are made alone. -/
theorem Inv.move {l l' : Lock} {ph : ι → Phase} {i : ι} {kind : Kind} {p : Phase}
    (h : Inv l ph) (halone : Alone ph i) (hmove : move kind l (ph i) = some (l', p)) :
    Inv l' (Function.update ph i p) := by
  obtain ⟨hread, htest, hw, hwait, hpost, hmutex⟩ := h
  have hcounts := counts_update ph i p
  unfold Shifts at hcounts
  have hnone := halone.nobody
  have hmax : READER_SAME_TIME = 10 := rfl
  -- one case for each phase: the counts change at the old and the new phase of the thread
  cases hp : ph i <;> rw [hp] at hmove hcounts hnone <;>
    simp only [RwLock.move, Option.some.injEq, Prod.mk.injEq, Option.ite_none_right_eq_some]
      at hmove
  case out =>
    cases kind with
    | get =>
        simp only [Option.ite_none_right_eq_some, Option.some.injEq, Prod.mk.injEq] at hmove
        obtain ⟨hpos, rfl, rfl⟩ := hmove
        simp [Phase.at, Phase.admitted, Phase.writing, Phase.counting] at hcounts
        constructor <;> (try simp only) <;> omega
    | put =>
        simp only [Option.ite_none_right_eq_some, Option.some.injEq, Prod.mk.injEq] at hmove
        obtain ⟨hpos, rfl, rfl⟩ := hmove
        simp [Phase.at, Phase.admitted, Phase.writing, Phase.counting] at hcounts
        constructor <;> (try simp only) <;> omega
  case gInc =>
    obtain ⟨rfl, rfl⟩ := hmove
    have hnobody := hnone rfl
    simp [Phase.at, Phase.admitted, Phase.writing, Phase.counting] at hcounts
    constructor <;> (try simp only) <;> omega
  case gTest =>
    obtain ⟨rfl, rfl⟩ := hmove
    split_ifs at hcounts ⊢ with hread₀
    · simp [Phase.at, Phase.admitted, Phase.writing, Phase.counting] at hcounts
      constructor <;> omega
    · simp [Phase.at, Phase.admitted, Phase.writing, Phase.counting] at hcounts
      constructor <;> omega
  case gWaitW =>
    obtain ⟨hpos, rfl, rfl⟩ := hmove
    simp [Phase.at, Phase.admitted, Phase.writing, Phase.counting] at hcounts
    constructor <;> (try simp only) <;> omega
  case gPost =>
    obtain ⟨rfl, rfl⟩ := hmove
    simp [Phase.at, Phase.admitted, Phase.writing, Phase.counting] at hcounts
    constructor <;> (try simp only) <;> omega
  case gBody =>
    obtain ⟨rfl, rfl⟩ := hmove
    simp [Phase.at, Phase.admitted, Phase.writing, Phase.counting] at hcounts
    constructor <;> omega
  case dWait =>
    obtain ⟨hpos, rfl, rfl⟩ := hmove
    simp [Phase.at, Phase.admitted, Phase.writing, Phase.counting] at hcounts
    constructor <;> (try simp only) <;> omega
  case dDec =>
    obtain ⟨rfl, rfl⟩ := hmove
    have hnobody := hnone rfl
    simp [Phase.at, Phase.admitted, Phase.writing, Phase.counting] at hcounts
    constructor <;> (try simp only) <;> omega
  case dTest =>
    obtain ⟨rfl, rfl⟩ := hmove
    split_ifs at hcounts ⊢ with hread₀
    · simp [Phase.at, Phase.admitted, Phase.writing, Phase.counting] at hcounts
      constructor <;> omega
    · simp [Phase.at, Phase.admitted, Phase.writing, Phase.counting] at hcounts
      constructor <;> omega
  case dPostW =>
    obtain ⟨rfl, rfl⟩ := hmove
    simp [Phase.at, Phase.admitted, Phase.writing, Phase.counting] at hcounts
    constructor <;> (try simp only) <;> omega
  case dPost =>
    obtain ⟨rfl, rfl⟩ := hmove
    simp [Phase.at, Phase.admitted, Phase.writing, Phase.counting] at hcounts
    constructor <;> (try simp only) <;> omega
  case pBody =>
    obtain ⟨rfl, rfl⟩ := hmove
    simp [Phase.at, Phase.admitted, Phase.writing, Phase.counting] at hcounts
    constructor <;> omega
  case pPost =>
    obtain ⟨rfl, rfl⟩ := hmove
    simp [Phase.at, Phase.admitted, Phase.writing, Phase.counting] at hcounts
    constructor <;> (try simp only) <;> omega

/-! ## Runs -/

/-- The threads, with the calls each has still to make. -/
structure State (ι : Type) where
  lock : Lock
  phase : ι → Phase
  todo : ι → List Kind

/-- The state after `lru_init`, when thread `i` is to make the calls `calls i`. -/
def start (calls : ι → List Kind) : State ι where
  lock := lockInit
  phase := fun _ => .out
  todo := calls

/-- The next step of thread `i`. -/
def step (s : State ι) (i : ι) : Option (State ι) :=
  match s.phase i, s.todo i with
  | .out, [] => none
  | .out, kind :: kinds =>
      (move kind s.lock .out).map fun r =>
        ⟨r.1, Function.update s.phase i r.2, Function.update s.todo i kinds⟩
  | p, _ => (move .get s.lock p).map fun r => ⟨r.1, Function.update s.phase i r.2, s.todo⟩

/-- A step of any thread. -/
def Step (s s' : State ι) : Prop := ∃ i, step s i = some s'

/-- A step of a thread that, if it updates `readcnt`, does so alone. -/
def Counted (s s' : State ι) : Prop := ∃ i, Alone s.phase i ∧ step s i = some s'

/-- The state after the threads `is` have taken a step each, in this order, as long
as `ok` allows each of them. -/
def runSteps (ok : State ι → ι → Bool) (s : State ι) : List ι → Option (State ι)
  | [] => some s
  | i :: is => if ok s i then (step s i).bind fun s' => runSteps ok s' is else none

/-- While a thread is inside `lru_put`, no other thread is inside `lru_put` or
`lru_get`, and `w` is never above one. -/
def Exclusive (s : State ι) : Prop :=
  (∀ i j, i ≠ j → (s.phase i).writing = true →
    (s.phase j).reading = false ∧ (s.phase j).writing = false) ∧ s.lock.w ≤ 1

/-- The thread has calls to finish. -/
def Unfinished (s : State ι) (i : ι) : Prop := s.phase i ≠ .out ∨ s.todo i ≠ []

/-- Some thread can go on, as long as there is one that has not finished. -/
def Live (s : State ι) : Prop :=
  (∃ i, Unfinished s i) → ∃ i, Unfinished s i ∧ (step s i).isSome = true

instance (s : State ι) : Decidable (Exclusive s) := inferInstanceAs (Decidable (_ ∧ _))

instance (s : State ι) (i : ι) : Decidable (Unfinished s i) := inferInstanceAs (Decidable (_ ∨ _))

instance (s : State ι) : Decidable (Live s) := inferInstanceAs (Decidable (_ → _))

omit [Fintype ι] in
/-- A step of a thread is a step of the lock. -/
theorem step_move {s s' : State ι} {i : ι} (h : step s i = some s') :
    ∃ kind p, move kind s.lock (s.phase i) = some (s'.lock, p) ∧
      s'.phase = Function.update s.phase i p := by
  unfold step at h
  split at h
  · exact absurd h (by simp)
  · rename_i kind kinds hp ht
    obtain ⟨⟨l, p⟩, hm, rfl⟩ := Option.map_eq_some_iff.mp h
    exact ⟨kind, p, by rw [hp]; exact hm, rfl⟩
  · obtain ⟨⟨l, p⟩, hm, rfl⟩ := Option.map_eq_some_iff.mp h
    exact ⟨.get, p, hm, rfl⟩

omit [Fintype ι] in
theorem runSteps_cons {ok : State ι → ι → Bool} {i : ι} {is : List ι} {s s' : State ι}
    (h : runSteps ok s (i :: is) = some s') :
    ∃ s₁, ok s i = true ∧ step s i = some s₁ ∧ runSteps ok s₁ is = some s' := by
  rw [runSteps, Option.ite_none_right_eq_some] at h
  obtain ⟨s₁, hs, hrest⟩ := Option.bind_eq_some_iff.mp h.2
  exact ⟨s₁, h.1, hs, hrest⟩

omit [Fintype ι] in
theorem step_runSteps {ok : State ι → ι → Bool} {is : List ι} {s s' : State ι}
    (h : runSteps ok s is = some s') : Relation.ReflTransGen Step s s' := by
  refine reflTransGen_of_run (fun _ => rfl) (fun hrun => ?_) h
  obtain ⟨s₁, -, hs, hrest⟩ := runSteps_cons hrun
  exact ⟨s₁, ⟨_, hs⟩, hrest⟩

theorem counted_runSteps {is : List ι} {s s' : State ι}
    (h : runSteps (fun s i => decide (Alone s.phase i)) s is = some s') :
    Relation.ReflTransGen Counted s s' := by
  refine reflTransGen_of_run (fun _ => rfl) (fun hrun => ?_) h
  obtain ⟨s₁, halone, hs, hrest⟩ := runSteps_cons hrun
  exact ⟨s₁, ⟨_, of_decide_eq_true halone, hs⟩, hrest⟩

/-- **The invariant holds in every run** whose updates of `readcnt` are made
alone. -/
theorem inv_of_counted {calls : ι → List Kind} {s : State ι}
    (h : Relation.ReflTransGen Counted (start calls) s) : Inv s.lock s.phase := by
  induction h with
  | refl => exact inv_init
  | tail _ hstep ih =>
      obtain ⟨i, halone, hs⟩ := hstep
      obtain ⟨kind, p, hm, hphase⟩ := step_move hs
      rw [hphase]
      exact ih.move halone hm

theorem Inv.exclusive {l : Lock} {ph : ι → Phase} (h : Inv l ph) {i j : ι} (hij : i ≠ j)
    (hi : (ph i).writing = true) : (ph j).admitted = false ∧ (ph j).writing = false := by
  have hw := h.w
  have hpos := count_pos (p := Phase.writing) hi
  constructor
  · by_contra hj
    rw [Bool.not_eq_false] at hj
    have := count_pos (p := Phase.admitted) hj
    omega
  · by_contra hj
    rw [Bool.not_eq_false] at hj
    have := two_le_count hij hi hj
    omega

/-- **Readers and writers exclude each other** in every run whose updates of
`readcnt` are made alone. -/
theorem exclusive_of_counted {calls : ι → List Kind} {s : State ι}
    (h : Relation.ReflTransGen Counted (start calls) s) : Exclusive s := by
  have hinv := inv_of_counted h
  constructor
  · intro i j hij hi
    obtain ⟨hadm, hwr⟩ := hinv.exclusive hij hi
    refine ⟨?_, hwr⟩
    revert hadm
    cases s.phase j <;> decide
  · have := hinv.w
    omega

/-- One reader and one writer: the reader leaves, and the writer enters. -/
theorem exclusive_reader_writer : ∃ s,
    runSteps (fun s i => decide (Alone s.phase i)) (start ![[.get], [.put]])
      ([0, 0, 0, 0, 0] ++ [0, 0, 0, 0, 0, 0] ++ [1]) = some s ∧
    Exclusive s := by
  obtain ⟨s, hs⟩ : ∃ s, runSteps (fun s i => decide (Alone s.phase i)) (start ![[.get], [.put]])
      ([0, 0, 0, 0, 0] ++ [0, 0, 0, 0, 0, 0] ++ [1]) = some s :=
    Option.isSome_iff_exists.mp (by decide)
  exact ⟨s, hs, exclusive_of_counted (counted_runSteps hs)⟩

/-! ## Deadlocks -/

omit [Fintype ι] in
/-- A thread that cannot go on waits for a semaphore, or has no call to make. -/
theorem phase_of_blocked {s : State ι} {i : ι} (h : step s i = none) :
    s.phase i = .out ∨ s.phase i = .gWaitW ∧ s.lock.w = 0 ∨
      s.phase i = .dWait ∧ s.lock.mutex = 0 := by
  unfold step at h
  cases hp : s.phase i <;> rw [hp] at h <;> simp [move] at h ⊢ <;> omega

omit [Fintype ι] in
/-- Outside a call, only a semaphore can be in the way of the next one. -/
theorem todo_of_blocked {s : State ι} {i : ι} (h : step s i = none) (hout : s.phase i = .out)
    (hw : 0 < s.lock.w) (hmutex : 0 < s.lock.mutex) : s.todo i = [] := by
  unfold step at h
  rw [hout] at h
  cases ht : s.todo i with
  | nil => rfl
  | cons kind kinds =>
      rw [ht] at h
      cases kind <;> simp [move, hw, hmutex] at h

omit [DecidableEq ι] in
/-- When every thread is outside a call or waits, and at most one of them for `w`
on its way in, both semaphores are available. -/
theorem Inv.available {l : Lock} {ph : ι → Phase} (h : Inv l ph)
    (hphase : ∀ i, ph i = .out ∨ ph i = .gWaitW ∧ l.w = 0 ∨ ph i = .dWait ∧ l.mutex = 0) :
    0 < l.w ∧ 0 < l.mutex ∧ ∀ i, ph i = .out := by
  have hnone : ∀ p : Phase → Bool, p .out = false → p .gWaitW = false → p .dWait = false →
      count p ph = 0 := by
    intro p hout hwait hdec
    apply count_eq_zero
    intro i
    rcases hphase i with hi | ⟨hi, -⟩ | ⟨hi, -⟩ <;> rw [hi] <;> assumption
  have hC : count Phase.counting ph = count (Phase.at .gWaitW) ph := by
    apply count_congr
    intro i
    rcases hphase i with hi | ⟨hi, -⟩ | ⟨hi, -⟩ <;> rw [hi] <;> decide
  have hT := hnone (Phase.at .gTest) rfl rfl rfl
  have hD := hnone (Phase.at .dTest) rfl rfl rfl
  have hP := hnone (Phase.at .dPostW) rfl rfl rfl
  have hR := hnone Phase.writing rfl rfl rfl
  have hmutex : 0 < l.mutex := by
    have h1 := h.mutex
    have h2 := h.testing
    have hmax : READER_SAME_TIME = 10 := rfl
    omega
  -- nobody leaves, so nobody was admitted
  have hA : count Phase.admitted ph = 0 := by
    apply count_eq_zero
    intro i
    rcases hphase i with hi | ⟨hi, -⟩ | ⟨hi, hzero⟩
    · rw [hi]
      rfl
    · rw [hi]
      rfl
    · omega
  have hw : 0 < l.w := by
    have := h.w
    omega
  refine ⟨hw, hmutex, fun i => ?_⟩
  rcases hphase i with hi | ⟨-, hzero⟩ | ⟨-, hzero⟩
  · exact hi
  · omega
  · omega

/-- **The lock never deadlocks** in a run whose updates of `readcnt` are made
alone. -/
theorem live_of_counted {calls : ι → List Kind} {s : State ι}
    (h : Relation.ReflTransGen Counted (start calls) s) : Live s := by
  rintro ⟨i, hi⟩
  by_contra hc
  have hblocked : ∀ j, step s j = none := by
    intro j
    by_cases hj : Unfinished s j
    · by_contra hne
      exact hc ⟨j, hj, Option.isSome_iff_ne_none.mpr hne⟩
    · unfold Unfinished at hj
      push Not at hj
      simp [step, hj.1, hj.2]
  obtain ⟨hw, hmutex, hout⟩ := (inv_of_counted h).available fun j => phase_of_blocked (hblocked j)
  rcases hi with hi | hi
  · exact hi (hout i)
  · exact hi (todo_of_blocked (hblocked i) (hout i) hw hmutex)

/-- Two readers, one leaving while the other enters, but not at the same time. -/
theorem live_two_readers : ∃ s,
    runSteps (fun s i => decide (Alone s.phase i)) (start ![[.get], [.get]])
      ([0, 0, 0, 0, 0] ++ [0, 0, 0] ++ [1] ++ [0, 0] ++ [1, 1]) = some s ∧
    Live s := by
  obtain ⟨s, hs⟩ : ∃ s, runSteps (fun s i => decide (Alone s.phase i)) (start ![[.get], [.get]])
      ([0, 0, 0, 0, 0] ++ [0, 0, 0] ++ [1] ++ [0, 0] ++ [1, 1]) = some s :=
    Option.isSome_iff_exists.mp (by decide)
  exact ⟨s, hs, live_of_counted (counted_runSteps hs)⟩

/-- Two readers update `readcnt` before either tests it: neither takes `w`, and a
writer enters while one of them is reading. -/
theorem not_exclusive_three : ¬ ∀ s,
    Relation.ReflTransGen Step (start ![[.get], [.get], [.put]]) s → Exclusive s := by
  intro h
  obtain ⟨s, hs, hbad⟩ : ∃ s, runSteps (fun _ _ => true) (start ![[.get], [.get], [.put]])
      [0, 0, 1, 1, 0, 1, 0, 2] = some s ∧ ¬ Exclusive s := by
    refine ⟨_, rfl, ?_⟩
    decide
  exact hbad (h s (step_runSteps hs))

/-- A reader leaves and another one enters between its update and its test: the
first does not release `w`, and the second waits for it. -/
theorem not_live_two : ¬ ∀ s,
    Relation.ReflTransGen Step (start ![[.get], [.get]]) s → Live s := by
  intro h
  obtain ⟨s, hs, hbad⟩ : ∃ s, runSteps (fun _ _ => true) (start ![[.get], [.get]])
      ([0, 0, 0, 0, 0] ++ [0, 0, 1] ++ [0, 1, 1] ++ [0, 0]) = some s ∧ ¬ Live s := by
    refine ⟨_, rfl, ?_⟩
    decide
  exact hbad (h s (step_runSteps hs))

end RwLock
