/-
# The connection buffer: `sbuf.c`, and the threads of the proxy

`sbuf_insert` and `sbuf_remove` on a shared buffer of `n` slots: each `P`, each `V`
and each access to the buffer under `mutex` is one step of a thread.  `slots`
counts the free slots and `items` the filled ones, both with a delay: a thread
takes its slot before it writes and gives it back after it has read.

`inserted` and `removed` are the threads and the values of the accesses in their
order.  In every run the values of `removed` are a prefix of those of `inserted`
(`Inv.step`): no value is lost, duplicated, reordered or overwritten.  What a call
of `sbuf_insert` is given is what its thread writes, and what a call of
`sbuf_remove` returns is what its thread has read (`Kept.step`).  The proxy is an
instance, with `main` inserting what it accepts and the workers removing and
calling `doit`.
-/
import CsappLabs.ThreadCount
import CsappLabs.Interleaving
import CsappLabs.Lru

open ThreadCount Interleaving

namespace Sbuf

/-! ## The buffer -/

/-- `sbuf_t`. -/
structure SbufT where
  buf : ℤ → ℤ
  n : ℤ
  front : ℤ
  rear : ℤ
  mutex : ℕ
  slots : ℕ
  items : ℕ

/-- `sbuf_init`. -/
def sbufInit (n : ℕ) : SbufT where
  buf := fun _ => 0
  n := n
  front := 0
  rear := 0
  mutex := 1
  slots := n
  items := 0

/-- The two calls. -/
inductive Call : Type where
  | insert (item : ℤ) : Call
  | remove : Call
  deriving DecidableEq, Repr

/-- Where a thread is: what it does next.  Outside a call, the next step is the
first `P` of the next call. -/
inductive Phase : Type where
  | out : Phase
  | iLock (item : ℤ) : Phase
  | iWrite (item : ℤ) : Phase
  | iUnlock : Phase
  | iPost : Phase
  | rLock : Phase
  | rRead : Phase
  | rUnlock (item : ℤ) : Phase
  | rPost (item : ℤ) : Phase
  deriving DecidableEq, Repr

/-- The threads at the buffer; which thread wrote what to it and read what from it, in the
order of the accesses; and for each thread the arguments of its calls of `sbuf_insert` and
the results of its calls of `sbuf_remove`, in their order. -/
structure State (ι : Type) where
  sp : SbufT
  phase : ι → Phase
  inserted : List (ι × ℤ)
  removed : List (ι × ℤ)
  asked : ι → List ℤ
  returned : ι → List ℤ

/-- The state after `sbuf_init`. -/
def start {ι : Type} (n : ℕ) : State ι where
  sp := sbufInit n
  phase := fun _ => .out
  inserted := []
  removed := []
  asked := fun _ => []
  returned := fun _ => []

variable {ι : Type} [DecidableEq ι]

/-- Thread `i` goes on to `p`. -/
def State.goto (s : State ι) (i : ι) (p : Phase) (sp : SbufT) : State ι :=
  { s with sp := sp, phase := Function.update s.phase i p }

/-- One step of thread `i`; `call` is what it calls, if it is outside a call.  A `P`
on a semaphore that is zero is not enabled. -/
def step (s : State ι) (i : ι) (call : Call) : Option (State ι) :=
  let sp := s.sp
  match s.phase i with
  | .out =>
      match call with
      | .insert item =>
          if 0 < sp.slots then
            some { s.goto i (.iLock item) { sp with slots := sp.slots - 1 } with
              asked := Function.update s.asked i (s.asked i ++ [item]) }
          else none
      | .remove =>
          if 0 < sp.items then some (s.goto i .rLock { sp with items := sp.items - 1 }) else none
  | .iLock item =>
      if 0 < sp.mutex then some (s.goto i (.iWrite item) { sp with mutex := sp.mutex - 1 })
      else none
  | .iWrite item =>
      let rear := Lru.incInt sp.rear
      let buf := Function.update sp.buf (rear.tmod sp.n) item
      some { s.goto i .iUnlock { sp with rear := rear, buf := buf } with
        inserted := s.inserted ++ [(i, item)] }
  | .iUnlock => some (s.goto i .iPost { sp with mutex := sp.mutex + 1 })
  | .iPost => some (s.goto i .out { sp with items := sp.items + 1 })
  | .rLock =>
      if 0 < sp.mutex then some (s.goto i .rRead { sp with mutex := sp.mutex - 1 }) else none
  | .rRead =>
      let front := Lru.incInt sp.front
      let item := sp.buf (front.tmod sp.n)
      some { s.goto i (.rUnlock item) { sp with front := front } with
        removed := s.removed ++ [(i, item)] }
  | .rUnlock item => some (s.goto i (.rPost item) { sp with mutex := sp.mutex + 1 })
  | .rPost item =>
      some { s.goto i .out { sp with slots := sp.slots + 1 } with
        returned := Function.update s.returned i (s.returned i ++ [item]) }

/-- A step of any thread, with any call. -/
def Step (s s' : State ι) : Prop := ∃ i call, step s i call = some s'

/-! ## The invariant -/

/-- The thread has taken a slot and not written to it. -/
def Phase.reserving : Phase → Bool
  | .iLock _ | .iWrite _ => true
  | _ => false

/-- The thread has written an item and not announced it. -/
def Phase.announcing : Phase → Bool
  | .iUnlock | .iPost => true
  | _ => false

/-- The thread has taken an item and not read it. -/
def Phase.claiming : Phase → Bool
  | .rLock | .rRead => true
  | _ => false

/-- The thread has read an item and not given its slot back. -/
def Phase.returning : Phase → Bool
  | .rUnlock _ | .rPost _ => true
  | _ => false

/-- What a call of `sbuf_insert` has still to write. -/
def Phase.carried : Phase → List ℤ
  | .iLock item | .iWrite item => [item]
  | _ => []

/-- What a call of `sbuf_remove` has read and not returned. -/
def Phase.held : Phase → List ℤ
  | .rUnlock item | .rPost item => [item]
  | _ => []

/-- The result of `sbuf_remove`, at its last step. -/
def Phase.returned : Phase → Option ℤ
  | .rPost item => some item
  | _ => none

variable [Fintype ι]

/-- **The invariant of the buffer**, as long as the counters do not overflow: the
values that were written and not read stand at the indices from `front + 1` to
`rear`, and the two semaphores count the free and the filled slots up to the
threads that are on their way. -/
structure Inv (n : ℕ) (s : State ι) : Prop where
  size : s.sp.n = n
  rear : s.sp.rear = s.inserted.length
  front : s.sp.front = s.removed.length
  slots : s.sp.slots + count Phase.reserving s.phase + s.inserted.length +
    count Phase.returning s.phase = n + s.removed.length
  items : s.sp.items + count Phase.claiming s.phase + count Phase.announcing s.phase +
    s.removed.length = s.inserted.length
  fifo : s.removed.map Prod.snd <+: s.inserted.map Prod.snd
  cells : ∀ j, s.removed.length ≤ j → (hj : j < s.inserted.length) →
    s.sp.buf (((j + 1) % n : ℕ) : ℤ) = s.inserted[j].2

omit [DecidableEq ι] in
theorem inv_start (n : ℕ) : Inv n (start n : State ι) := by
  have hzero : ∀ p : Phase → Bool, p .out = false → count p (fun _ : ι => Phase.out) = 0 :=
    fun p hp => count_eq_zero fun _ => hp
  constructor
  · rfl
  · rfl
  · rfl
  · show n + count Phase.reserving (fun _ : ι => Phase.out) + 0 +
      count Phase.returning (fun _ : ι => Phase.out) = n + 0
    rw [hzero _ rfl, hzero _ rfl]
  · show 0 + count Phase.claiming (fun _ : ι => Phase.out) +
      count Phase.announcing (fun _ : ι => Phase.out) + 0 = 0
    rw [hzero _ rfl, hzero _ rfl]
  · exact List.nil_prefix
  · intro j _ hj
    exact absurd hj (Nat.not_lt_zero j)

/-- Indices that are less than `n` apart are different slots. -/
theorem slot_ne {n a b : ℕ} (hlt : a < b) (hle : b < a + n) : a % n ≠ b % n := by
  intro h
  have hdvd : n ∣ b - a := (Nat.modEq_iff_dvd' hlt.le).mp h
  have := Nat.le_of_dvd (by omega) hdvd
  omega

theorem incInt_of_lt {k : ℕ} (h : k < 2 ^ 31 - 1) : Lru.incInt k = ((k + 1 : ℕ) : ℤ) := by
  rw [Lru.incInt, if_neg (by omega)]
  push_cast
  rfl

theorem tmod_natCast (a n : ℕ) : (a : ℤ).tmod n = ((a % n : ℕ) : ℤ) := by
  rw [Int.tmod_eq_emod_of_nonneg (Int.natCast_nonneg a)]
  rfl

omit [Fintype ι] [DecidableEq ι] in
/-- A step that moves thread `i` from `q` to `p` without an access to the buffer: what it does to
the semaphores, and to what the calls of the thread were given and have returned. -/
structure Moves (s : State ι) (i : ι) (call : Call) (q p : Phase) (sp : SbufT)
    (asked returned : ι → List ℤ) : Prop where
  buffer : sp.buf = s.sp.buf ∧ sp.n = s.sp.n ∧ sp.front = s.sp.front ∧ sp.rear = s.sp.rear
  slots : sp.slots + p.reserving.toNat + p.returning.toNat =
    s.sp.slots + q.reserving.toNat + q.returning.toNat
  items : sp.items + p.claiming.toNat + p.announcing.toNat =
    s.sp.items + q.claiming.toNat + q.announcing.toNat
  reserving : p.reserving = true → call ≠ .remove ∨ q.reserving = true
  claiming : p.claiming = true → call = .remove ∨ q.claiming = true
  others : ∀ j, j ≠ i → asked j = s.asked j ∧ returned j = s.returned j
  carried : ∀ l, s.asked i = l ++ q.carried → asked i = l ++ p.carried
  held : s.returned i ++ q.held = returned i ++ p.held
  result : returned i = s.returned i ++ q.returned.toList

/-- A step that only moves a thread on and changes the semaphores. -/
theorem Inv.goto {n : ℕ} {s : State ι} {i : ι} {call : Call} {p : Phase} {sp : SbufT}
    {asked returned : ι → List ℤ} (h : Inv n s)
    (hmoves : Moves s i call (s.phase i) p sp asked returned) :
    Inv n { s.goto i p sp with asked := asked, returned := returned } := by
  obtain ⟨hbuf, hn, hfront, hrear⟩ := hmoves.buffer
  have hslots := hmoves.slots
  have hitems := hmoves.items
  have hR := count_update Phase.reserving s.phase i p
  have hT := count_update Phase.returning s.phase i p
  have hC := count_update Phase.claiming s.phase i p
  have hA := count_update Phase.announcing s.phase i p
  have h1 := h.slots
  have h2 := h.items
  constructor
  · exact hn.trans h.size
  · exact hrear.trans h.rear
  · exact hfront.trans h.front
  · show sp.slots + count Phase.reserving (Function.update s.phase i p) + s.inserted.length +
      count Phase.returning (Function.update s.phase i p) = n + s.removed.length
    omega
  · show sp.items + count Phase.claiming (Function.update s.phase i p) +
      count Phase.announcing (Function.update s.phase i p) + s.removed.length = s.inserted.length
    omega
  · exact h.fifo
  · intro j hj hj'
    show sp.buf _ = _
    rw [hbuf]
    exact h.cells j hj hj'

/-- The write of an item, into a slot that holds no item still to be read. -/
theorem Inv.write {n : ℕ} {s : State ι} {i : ι} {item : ℤ} (h : Inv n s)
    (hp : s.phase i = .iWrite item) (hmax : s.inserted.length + 1 < 2 ^ 31) :
    Inv n { s.goto i .iUnlock { s.sp with
        rear := Lru.incInt s.sp.rear
        buf := Function.update s.sp.buf ((Lru.incInt s.sp.rear).tmod s.sp.n) item } with
      inserted := s.inserted ++ [(i, item)] } := by
  have hR := count_update Phase.reserving s.phase i .iUnlock
  have hT := count_update Phase.returning s.phase i .iUnlock
  have hC := count_update Phase.claiming s.phase i .iUnlock
  have hA := count_update Phase.announcing s.phase i .iUnlock
  have hpos := count_pos (p := Phase.reserving) (f := s.phase) (i := i) (by rw [hp]; rfl)
  simp only [hp, Phase.reserving, Phase.returning, Phase.claiming, Phase.announcing,
    Bool.toNat_true, Bool.toNat_false] at hR hT hC hA
  have h1 := h.slots
  have h2 := h.items
  have hrear : Lru.incInt s.sp.rear = ((s.inserted.length + 1 : ℕ) : ℤ) := by
    rw [h.rear]
    exact incInt_of_lt (by omega)
  have hindex : (Lru.incInt s.sp.rear).tmod s.sp.n =
      (((s.inserted.length + 1) % n : ℕ) : ℤ) := by
    rw [hrear, h.size]
    exact tmod_natCast _ _
  constructor
  · exact h.size
  · show Lru.incInt s.sp.rear = ((s.inserted ++ [(i, item)]).length : ℤ)
    rw [hrear, List.length_append]
    rfl
  · exact h.front
  · show s.sp.slots + count Phase.reserving (Function.update s.phase i .iUnlock) +
      (s.inserted ++ [(i, item)]).length +
        count Phase.returning (Function.update s.phase i .iUnlock) = n + s.removed.length
    rw [List.length_append, List.length_singleton]
    omega
  · show s.sp.items + count Phase.claiming (Function.update s.phase i .iUnlock) +
      count Phase.announcing (Function.update s.phase i .iUnlock) + s.removed.length =
        (s.inserted ++ [(i, item)]).length
    rw [List.length_append, List.length_singleton]
    omega
  · show s.removed.map Prod.snd <+: (s.inserted ++ [(i, item)]).map Prod.snd
    rw [List.map_append]
    exact h.fifo.trans (List.prefix_append _ _)
  · intro j hj hj'
    show Function.update s.sp.buf ((Lru.incInt s.sp.rear).tmod s.sp.n) item _ = _
    have hj₁ : s.removed.length ≤ j := hj
    rw [hindex]
    rcases Nat.lt_or_ge j s.inserted.length with hlt | hge
    · -- an older item stands in another slot
      have hne : (j + 1) % n ≠ (s.inserted.length + 1) % n := slot_ne (by omega) (by omega)
      have hcell : (((j + 1) % n : ℕ) : ℤ) ≠ (((s.inserted.length + 1) % n : ℕ) : ℤ) :=
        fun hc => hne (Int.natCast_inj.mp hc)
      rw [Function.update_of_ne hcell, List.getElem_append_left hlt]
      exact h.cells j hj hlt
    · -- the item that is written
      have hlast : j = s.inserted.length := by
        have : j < (s.inserted ++ [(i, item)]).length := hj'
        rw [List.length_append, List.length_singleton] at this
        omega
      subst hlast
      rw [Function.update_self, List.getElem_concat_length rfl]

/-- The read of the oldest item that was not read. -/
theorem Inv.read {n : ℕ} {s : State ι} {i : ι} (h : Inv n s) (hp : s.phase i = .rRead)
    (hmax : s.inserted.length < 2 ^ 31) :
    Inv n { s.goto i (.rUnlock (s.sp.buf ((Lru.incInt s.sp.front).tmod s.sp.n)))
        { s.sp with front := Lru.incInt s.sp.front } with
      removed := s.removed ++ [(i, s.sp.buf ((Lru.incInt s.sp.front).tmod s.sp.n))] } := by
  obtain ⟨item, hitem⟩ : ∃ item, item = s.sp.buf ((Lru.incInt s.sp.front).tmod s.sp.n) := ⟨_, rfl⟩
  rw [← hitem]
  have hR := count_update Phase.reserving s.phase i (.rUnlock item)
  have hT := count_update Phase.returning s.phase i (.rUnlock item)
  have hC := count_update Phase.claiming s.phase i (.rUnlock item)
  have hA := count_update Phase.announcing s.phase i (.rUnlock item)
  have hpos := count_pos (p := Phase.claiming) (f := s.phase) (i := i) (by rw [hp]; rfl)
  simp only [hp, Phase.reserving, Phase.returning, Phase.claiming, Phase.announcing,
    Bool.toNat_true, Bool.toNat_false] at hR hT hC hA
  have h1 := h.slots
  have h2 := h.items
  -- the thread holds an item of its own, so there is one to read
  have hlt : s.removed.length < s.inserted.length := by omega
  have hfront : Lru.incInt s.sp.front = ((s.removed.length + 1 : ℕ) : ℤ) := by
    rw [h.front]
    exact incInt_of_lt (by omega)
  have hvalue : item = s.inserted[s.removed.length].2 := by
    rw [hitem, hfront, h.size, tmod_natCast]
    exact h.cells _ le_rfl hlt
  constructor
  · exact h.size
  · exact h.rear
  · show Lru.incInt s.sp.front = ((s.removed ++ [(i, item)]).length : ℤ)
    rw [hfront, List.length_append]
    rfl
  · show s.sp.slots + count Phase.reserving (Function.update s.phase i (.rUnlock item)) +
      s.inserted.length + count Phase.returning (Function.update s.phase i (.rUnlock item)) =
        n + (s.removed ++ [(i, item)]).length
    rw [List.length_append, List.length_singleton]
    omega
  · show s.sp.items + count Phase.claiming (Function.update s.phase i (.rUnlock item)) +
      count Phase.announcing (Function.update s.phase i (.rUnlock item)) +
        (s.removed ++ [(i, item)]).length = s.inserted.length
    rw [List.length_append, List.length_singleton]
    omega
  · show (s.removed ++ [(i, item)]).map Prod.snd <+: s.inserted.map Prod.snd
    have hnext := List.concat_get_prefix h.fifo (by simpa using hlt)
    rw [List.map_append, List.map_singleton, hvalue]
    simpa using hnext
  · intro j hj hj'
    have hj₁ : (s.removed ++ [(i, item)]).length ≤ j := hj
    rw [List.length_append] at hj₁
    exact h.cells j (by omega) hj'

omit [Fintype ι] in
/-- **What a step does**: it writes an item, or reads one, or it only moves the
thread on and changes the semaphores. -/
theorem step_cases {s s' : State ι} {i : ι} {call : Call} (h : step s i call = some s') :
    (∃ item, s.phase i = .iWrite item ∧ s' =
      { s.goto i .iUnlock { s.sp with
          rear := Lru.incInt s.sp.rear
          buf := Function.update s.sp.buf ((Lru.incInt s.sp.rear).tmod s.sp.n) item } with
        inserted := s.inserted ++ [(i, item)] }) ∨
    (s.phase i = .rRead ∧ s' =
      { s.goto i (.rUnlock (s.sp.buf ((Lru.incInt s.sp.front).tmod s.sp.n)))
          { s.sp with front := Lru.incInt s.sp.front } with
        removed := s.removed ++ [(i, s.sp.buf ((Lru.incInt s.sp.front).tmod s.sp.n))] }) ∨
    ∃ p sp asked returned, s' = { s.goto i p sp with asked := asked, returned := returned } ∧
      Moves s i call (s.phase i) p sp asked returned := by
  have hnil : ∀ l : List ℤ, l = l ++ [] := fun l => (List.append_nil l).symm
  cases hp : s.phase i with
  | out =>
      cases call with
      | insert item =>
          simp only [step, hp, Option.ite_none_right_eq_some, Option.some.injEq] at h
          refine Or.inr (Or.inr ⟨_, _, _, _, h.2.symm, ⟨rfl, rfl, rfl, rfl⟩, ?_, rfl,
            fun _ => Or.inl nofun, nofun, fun j hj => ⟨Function.update_of_ne hj _ _, rfl⟩,
            fun l hl => ?_, rfl, hnil _⟩)
          · simp only [Phase.reserving, Phase.returning, Bool.toNat_true, Bool.toNat_false]
            omega
          · rw [Function.update_self, hl]
            simp [Phase.carried]
      | remove =>
          simp only [step, hp, Option.ite_none_right_eq_some, Option.some.injEq] at h
          refine Or.inr (Or.inr ⟨_, _, _, _, h.2.symm, ⟨rfl, rfl, rfl, rfl⟩, rfl, ?_, nofun,
            fun _ => Or.inl rfl, fun _ _ => ⟨rfl, rfl⟩, fun _ hl => hl, rfl, hnil _⟩)
          simp only [Phase.claiming, Phase.announcing, Bool.toNat_true, Bool.toNat_false]
          omega
  | iWrite item =>
      simp only [step, hp, Option.some.injEq] at h
      exact Or.inl ⟨item, rfl, h.symm⟩
  | rRead =>
      simp only [step, hp, Option.some.injEq] at h
      exact Or.inr (Or.inl ⟨rfl, h.symm⟩)
  | iLock item =>
      simp only [step, hp, Option.ite_none_right_eq_some, Option.some.injEq] at h
      exact Or.inr (Or.inr ⟨_, _, _, _, h.2.symm, ⟨rfl, rfl, rfl, rfl⟩, rfl, rfl,
        fun _ => Or.inr rfl, nofun, fun _ _ => ⟨rfl, rfl⟩, fun _ hl => hl, rfl, hnil _⟩)
  | rLock =>
      simp only [step, hp, Option.ite_none_right_eq_some, Option.some.injEq] at h
      exact Or.inr (Or.inr ⟨_, _, _, _, h.2.symm, ⟨rfl, rfl, rfl, rfl⟩, rfl, rfl, nofun,
        fun _ => Or.inr rfl, fun _ _ => ⟨rfl, rfl⟩, fun _ hl => hl, rfl, hnil _⟩)
  | iUnlock | iPost | rUnlock item =>
      simp only [step, hp, Option.some.injEq] at h
      exact Or.inr (Or.inr ⟨_, _, _, _, h.symm, ⟨rfl, rfl, rfl, rfl⟩, rfl, rfl, nofun, nofun,
        fun _ _ => ⟨rfl, rfl⟩, fun _ hl => hl, rfl, hnil _⟩)
  | rPost item =>
      simp only [step, hp, Option.some.injEq] at h
      refine Or.inr (Or.inr ⟨_, _, _, _, h.symm, ⟨rfl, rfl, rfl, rfl⟩, rfl, rfl, nofun, nofun,
        fun j hj => ⟨rfl, Function.update_of_ne hj _ _⟩, fun _ hl => hl, ?_,
        Function.update_self ..⟩)
      rw [Function.update_self]
      exact hnil _

/-- **Every step keeps the invariant**, as long as fewer than `2 ^ 31` items were
inserted. -/
theorem Inv.step {n : ℕ} {s s' : State ι} {i : ι} {call : Call} (h : Inv n s)
    (hstep : step s i call = some s') (hmax : s'.inserted.length < 2 ^ 31) : Inv n s' := by
  rcases step_cases hstep with ⟨item, hp, rfl⟩ | ⟨hp, rfl⟩ | ⟨p, sp, _, _, rfl, hmoves⟩
  · refine h.write hp ?_
    have : (s.inserted ++ [(i, item)]).length < 2 ^ 31 := hmax
    rwa [List.length_append] at this
  · exact h.read hp hmax
  · exact h.goto hmoves

omit [Fintype ι] in
/-- What was inserted and what was removed stays in the logs. -/
theorem prefix_of_step {s s' : State ι} {i : ι} {call : Call} (h : step s i call = some s') :
    s.inserted <+: s'.inserted ∧ s.removed <+: s'.removed := by
  rcases step_cases h with ⟨item, -, rfl⟩ | ⟨-, rfl⟩ | ⟨p, sp, _, _, rfl, -⟩
  · exact ⟨List.prefix_append _ _, List.prefix_rfl⟩
  · exact ⟨List.prefix_rfl, List.prefix_append _ _⟩
  · exact ⟨List.prefix_rfl, List.prefix_rfl⟩

/-- **The invariant holds in every run** with fewer than `2 ^ 31` insertions. -/
theorem inv_of_run {n : ℕ} {s : State ι} (h : Relation.ReflTransGen Step (start n) s)
    (hmax : s.inserted.length < 2 ^ 31) : Inv n s := by
  induction h with
  | refl => exact inv_start n
  | tail _ hstep ih =>
      obtain ⟨i, call, hstep⟩ := hstep
      have hle := (prefix_of_step hstep).1.length_le
      exact (ih (by omega)).step hstep hmax

/-! ## What the calls are given and return -/

/-- The values of thread `i` in a log. -/
def ofThread (i : ι) (log : List (ι × ℤ)) : List ℤ :=
  (log.filter (fun e => e.1 = i)).map Prod.snd

omit [Fintype ι] in
theorem ofThread_append_self (i : ι) (log : List (ι × ℤ)) (item : ℤ) :
    ofThread i (log ++ [(i, item)]) = ofThread i log ++ [item] := by
  simp [ofThread]

omit [Fintype ι] in
theorem ofThread_append_of_ne {i j : ι} (h : j ≠ i) (log : List (ι × ℤ)) (item : ℤ) :
    ofThread j (log ++ [(i, item)]) = ofThread j log := by
  simp [ofThread, h.symm]

/-- **No call changes a value**: each thread has written what its calls of `sbuf_insert` were
given, in their order, and its calls of `sbuf_remove` return what it has read, in the order
of its reads. -/
structure Kept (s : State ι) : Prop where
  written : ∀ i, s.asked i = ofThread i s.inserted ++ (s.phase i).carried
  returned : ∀ i, ofThread i s.removed = s.returned i ++ (s.phase i).held

omit [Fintype ι] in
theorem kept_start (n : ℕ) : Kept (start n : State ι) := ⟨fun _ => rfl, fun _ => rfl⟩

omit [Fintype ι] in
/-- The other threads: a step leaves their logs as they are. -/
theorem other_of_step {s s' : State ι} {i j : ι} {call : Call} (h : step s i call = some s')
    (hji : j ≠ i) : s'.phase j = s.phase j ∧
      (s'.asked j = s.asked j ∧ ofThread j s'.inserted = ofThread j s.inserted) ∧
      (s'.returned j = s.returned j ∧ ofThread j s'.removed = ofThread j s.removed) := by
  rcases step_cases h with ⟨item, -, rfl⟩ | ⟨-, rfl⟩ | ⟨p, sp, _, _, rfl, hmoves⟩
  · simp [State.goto, hji, ofThread_append_of_ne hji]
  · simp [State.goto, hji, ofThread_append_of_ne hji]
  · obtain ⟨hasked, hreturned⟩ := hmoves.others j hji
    exact ⟨Function.update_of_ne hji _ _, ⟨hasked, rfl⟩, hreturned, rfl⟩

omit [Fintype ι] in
/-- **Every step keeps this.** -/
theorem Kept.step {s s' : State ι} {i : ι} {call : Call} (h : Kept s)
    (hstep : step s i call = some s') : Kept s' := by
  have hwritten := h.written i
  have hreturned := h.returned i
  have hown : s'.asked i = ofThread i s'.inserted ++ (s'.phase i).carried ∧
      ofThread i s'.removed = s'.returned i ++ (s'.phase i).held := by
    rcases step_cases hstep with ⟨item, hp, rfl⟩ | ⟨hp, rfl⟩ | ⟨p, sp, asked, returned, rfl, hmoves⟩
    · -- the value that is carried is written
      rw [hp] at hwritten hreturned
      simpa [State.goto, Phase.carried, Phase.held, ofThread_append_self] using
        And.intro hwritten hreturned
    · -- the value that is read is held
      rw [hp] at hwritten hreturned
      simpa [State.goto, Phase.carried, Phase.held, ofThread_append_self] using
        And.intro hwritten hreturned
    · show asked i = ofThread i s.inserted ++ (Function.update s.phase i p i).carried ∧
        ofThread i s.removed = returned i ++ (Function.update s.phase i p i).held
      rw [Function.update_self]
      exact ⟨hmoves.carried _ hwritten, hreturned.trans hmoves.held⟩
  constructor
  · intro j
    by_cases hji : j = i
    · exact hji ▸ hown.1
    · obtain ⟨hphase, ⟨hasked, hins⟩, _⟩ := other_of_step hstep hji
      rw [hasked, hins, hphase]
      exact h.written j
  · intro j
    by_cases hji : j = i
    · exact hji ▸ hown.2
    · obtain ⟨hphase, _, hret, hrem⟩ := other_of_step hstep hji
      rw [hret, hrem, hphase]
      exact h.returned j

omit [Fintype ι] in
/-- **No call changes a value in any run.** -/
theorem kept_of_run {n : ℕ} {s : State ι} (h : Relation.ReflTransGen Step (start n) s) :
    Kept s := by
  induction h with
  | refl => exact kept_start n
  | tail _ hstep ih =>
      obtain ⟨i, call, hstep⟩ := hstep
      exact ih.step hstep

/-! ## The proxy -/

/-- The number of workers. -/
abbrev NTHREADS : ℕ := 4

/-- The number of slots of the buffer of the proxy. -/
def SBUFSIZE : ℕ := 16

/-- The threads of the proxy at the buffer, `none` for `main`; how many workers were
created, whether `lru` was assigned, the connection that each worker has in `doit`, and
the connections it has called `doit` with, in their order. -/
structure Proxy where
  net : State (Option (Fin NTHREADS))
  created : ℕ
  lru : Bool
  doit : Fin NTHREADS → Option ℤ
  served : Fin NTHREADS → List ℤ

/-- `main` after `sbuf_init`. -/
def proxyStart : Proxy where
  net := start SBUFSIZE
  created := 0
  lru := false
  doit := fun _ => none
  served := fun _ => []

/-- The steps of the proxy: `main` creates the workers, assigns `lru`, and then
inserts what it accepts; a worker removes a connection and handles it. -/
inductive ProxyStep : Proxy → Proxy → Prop where
  | create {s : Proxy} : s.created < NTHREADS →
      ProxyStep s { s with created := s.created + 1 }
  | assign {s : Proxy} : s.created = NTHREADS → ProxyStep s { s with lru := true }
  | accept {s : Proxy} {net : State (Option (Fin NTHREADS))} (connfd : ℤ) : s.lru = true →
      step s.net none (.insert connfd) = some net → ProxyStep s { s with net := net }
  | remove {s : Proxy} {net : State (Option (Fin NTHREADS))} {i : Fin NTHREADS} :
      i < s.created → s.doit i = none → step s.net (some i) .remove = some net →
      ProxyStep s { s with
        net := net
        doit := Function.update s.doit i (s.net.phase (some i)).returned
        served := Function.update s.served i
          (s.served i ++ (s.net.phase (some i)).returned.toList) }
  | close {s : Proxy} {i : Fin NTHREADS} {connfd : ℤ} : s.doit i = some connfd →
      ProxyStep s { s with doit := Function.update s.doit i none }

/-- A run of the proxy is a run of its threads at the buffer. -/
theorem proxy_net {s : Proxy} (h : Relation.ReflTransGen ProxyStep proxyStart s) :
    Relation.ReflTransGen Step (start SBUFSIZE) s.net := by
  induction h with
  | refl => exact .refl
  | tail _ hstep ih =>
      cases hstep with
      | create | assign | close => exact ih
      | accept connfd _ hstep => exact ih.tail ⟨none, _, hstep⟩
      | remove _ _ hstep => exact ih.tail ⟨some _, _, hstep⟩

omit [Fintype ι] in
/-- What a step adds to the results of `sbuf_remove`. -/
theorem returned_of_step {s s' : State ι} {i : ι} {call : Call} (h : step s i call = some s') :
    s'.returned i = s.returned i ++ (s.phase i).returned.toList := by
  rcases step_cases h with ⟨item, hp, rfl⟩ | ⟨hp, rfl⟩ | ⟨p, sp, _, _, rfl, hmoves⟩
  · rw [hp]
    exact (List.append_nil _).symm
  · rw [hp]
    exact (List.append_nil _).symm
  · exact hmoves.result

omit [Fintype ι] in
/-- A thread that only removes takes no slot, and one that only inserts takes no item. -/
theorem sides_of_step {s s' : State ι} {i j : ι} {call : Call} (h : step s i call = some s') :
    ((s'.phase j).reserving = true → (j = i ∧ call ≠ .remove) ∨ (s.phase j).reserving = true) ∧
      ((s'.phase j).claiming = true → (j = i ∧ call = .remove) ∨ (s.phase j).claiming = true) := by
  by_cases hji : j = i
  · subst hji
    rcases step_cases h with ⟨_, -, rfl⟩ | ⟨-, rfl⟩ | ⟨p, sp, _, _, rfl, hmoves⟩
    · simp [State.goto, Phase.reserving, Phase.claiming]
    · simp [State.goto, Phase.reserving, Phase.claiming]
    · simp only [State.goto, Function.update_self, true_and]
      exact ⟨hmoves.reserving, hmoves.claiming⟩
  · rw [(other_of_step h hji).1]
    exact ⟨Or.inr, Or.inr⟩

omit [Fintype ι] in
/-- A thread that writes in a step has taken a slot, and one that reads an item. -/
theorem logs_of_step {s s' : State ι} {i : ι} {call : Call} (h : step s i call = some s') :
    (s'.inserted = s.inserted ∨ (s.phase i).reserving = true ∧
      ∃ item, s'.inserted = s.inserted ++ [(i, item)]) ∧
    (s'.removed = s.removed ∨ (s.phase i).claiming = true ∧
      ∃ item, s'.removed = s.removed ++ [(i, item)]) := by
  rcases step_cases h with ⟨item, hp, rfl⟩ | ⟨hp, rfl⟩ | ⟨p, sp, _, _, rfl, -⟩
  · exact ⟨Or.inr ⟨by rw [hp]; rfl, item, rfl⟩, Or.inl rfl⟩
  · exact ⟨Or.inl rfl, Or.inr ⟨by rw [hp]; rfl, _, rfl⟩⟩
  · exact ⟨Or.inl rfl, Or.inl rfl⟩

/-- `main` inserts and does not remove, and the workers the other way round; nothing is
inserted before `lru` is assigned, and a worker calls `doit` with the results of its calls of
`sbuf_remove`. -/
structure ProxyInv (s : Proxy) : Prop where
  worker : ∀ i : Fin NTHREADS, (s.net.phase (some i)).reserving = false
  main : (s.net.phase none).claiming = false
  inserted : ∀ e ∈ s.net.inserted, e.1 = none
  removed : ∀ e ∈ s.net.removed, e.1 ≠ none
  lru : s.lru = false → s.net.inserted = []
  served : ∀ i, s.served i = s.net.returned (some i)
  doit : ∀ i connfd, s.doit i = some connfd → (s.served i).getLast? = some connfd

theorem proxyInv_start : ProxyInv proxyStart :=
  ⟨fun _ => rfl, rfl, nofun, nofun, fun _ => rfl, fun _ => rfl, nofun⟩

/-- A step of `main` at the buffer. -/
theorem ProxyInv.accept {s : Proxy} {net : State (Option (Fin NTHREADS))} {connfd : ℤ}
    (h : ProxyInv s) (hlru : s.lru = true) (hnet : step s.net none (.insert connfd) = some net) :
    ProxyInv { s with net := net } := by
  obtain ⟨hins, hrem⟩ := logs_of_step hnet
  constructor
  · intro i
    rw [← h.worker i]
    exact congrArg Phase.reserving (other_of_step hnet (Option.some_ne_none i)).1
  · by_contra hc
    rcases (sides_of_step hnet).2 (Bool.eq_true_of_not_eq_false hc) with ⟨-, hcall⟩ | hmain
    · exact nomatch hcall
    · exact absurd (hmain.symm.trans h.main) nofun
  · rcases hins with heq | ⟨-, item, heq⟩
    · exact fun e he => h.inserted e (heq ▸ he)
    · intro e he
      rcases List.mem_append.mp (heq ▸ he) with he | he
      · exact h.inserted e he
      · rw [List.mem_singleton.mp he]
  · rcases hrem with heq | ⟨hmain, -⟩
    · exact fun e he => h.removed e (heq ▸ he)
    · exact absurd (hmain.symm.trans h.main) nofun
  · exact fun hfalse => absurd (hlru.symm.trans hfalse) nofun
  · intro i
    rw [h.served i]
    exact (other_of_step hnet (Option.some_ne_none i)).2.2.1.symm
  · exact h.doit

/-- A step of a worker at the buffer; with the last one it calls `doit`. -/
theorem ProxyInv.remove {s : Proxy} {net : State (Option (Fin NTHREADS))} {i : Fin NTHREADS}
    (h : ProxyInv s) (hnet : step s.net (some i) .remove = some net) :
    ProxyInv { s with
      net := net
      doit := Function.update s.doit i (s.net.phase (some i)).returned
      served := Function.update s.served i
        (s.served i ++ (s.net.phase (some i)).returned.toList) } := by
  obtain ⟨hins, hrem⟩ := logs_of_step hnet
  have hidle : net.inserted = s.net.inserted := by
    rcases hins with heq | ⟨hi, -⟩
    · exact heq
    · exact absurd (hi.symm.trans (h.worker i)) nofun
  constructor
  · intro j
    by_contra hc
    rcases (sides_of_step hnet).1 (Bool.eq_true_of_not_eq_false hc) with ⟨-, hcall⟩ | hj
    · exact hcall rfl
    · exact absurd (hj.symm.trans (h.worker j)) nofun
  · rw [← h.main]
    exact congrArg Phase.claiming (other_of_step hnet (Option.some_ne_none i).symm).1
  · exact fun e he => h.inserted e (hidle ▸ he)
  · rcases hrem with heq | ⟨-, item, heq⟩
    · exact fun e he => h.removed e (heq ▸ he)
    · intro e he
      rcases List.mem_append.mp (heq ▸ he) with he | he
      · exact h.removed e he
      · rw [List.mem_singleton.mp he]
        exact Option.some_ne_none i
  · exact fun hfalse => hidle.trans (h.lru hfalse)
  · intro j
    show Function.update s.served i _ j = net.returned (some j)
    by_cases hji : j = i
    · subst hji
      rw [Function.update_self, returned_of_step hnet, h.served j]
    · have hne : (some j : Option (Fin NTHREADS)) ≠ some i := fun hc => hji (Option.some.inj hc)
      rw [Function.update_of_ne hji, h.served j, (other_of_step hnet hne).2.2.1]
  · intro j connfd hj
    change Function.update s.doit i _ j = some connfd at hj
    show (Function.update s.served i _ j).getLast? = some connfd
    by_cases hji : j = i
    · -- only the worker that returns from `sbuf_remove` starts `doit`
      subst hji
      rw [Function.update_self] at hj ⊢
      rw [hj, Option.toList_some, List.getLast?_concat]
    · rw [Function.update_of_ne hji] at hj ⊢
      exact h.doit j connfd hj

/-- **Every step of the proxy keeps this.** -/
theorem ProxyInv.step {s s' : Proxy} (h : ProxyInv s) (hstep : ProxyStep s s') : ProxyInv s' := by
  cases hstep with
  | create hlt =>
      exact ⟨h.worker, h.main, h.inserted, h.removed, h.lru, h.served, h.doit⟩
  | assign hall => exact ⟨h.worker, h.main, h.inserted, h.removed, nofun, h.served, h.doit⟩
  | accept connfd hlru hnet => exact h.accept hlru hnet
  | remove hlt hidle hnet => exact h.remove hnet
  | @close i connfd hi =>
      refine ⟨h.worker, h.main, h.inserted, h.removed, h.lru, h.served, fun j item hj => ?_⟩
      change Function.update s.doit i none j = some item at hj
      by_cases hji : j = i
      · subst hji
        rw [Function.update_self] at hj
        exact absurd hj nofun
      · rw [Function.update_of_ne hji] at hj
        exact h.doit j item hj

theorem proxyInv_of_run {s : Proxy} (h : Relation.ReflTransGen ProxyStep proxyStart s) :
    ProxyInv s := by
  induction h with
  | refl => exact proxyInv_start
  | tail _ hstep ih => exact ih.step hstep

/-! ## The result -/

/-- What the buffer does: the values that were read are the first ones of those that were
written, in this order; each thread has written what its calls of `sbuf_insert` were given
and gets from its calls of `sbuf_remove` what it has read; and the counters stay `n` apart at
most. -/
structure Served {ι : Type} [DecidableEq ι] (n : ℕ) (s : State ι) : Prop where
  fifo : s.removed.map Prod.snd <+: s.inserted.map Prod.snd
  written : ∀ i, s.asked i = ofThread i s.inserted ++ (s.phase i).carried
  returned : ∀ i, ofThread i s.removed = s.returned i ++ (s.phase i).held
  front_le : s.sp.front ≤ s.sp.rear
  rear_le : s.sp.rear ≤ s.sp.front + n

theorem Inv.served {n : ℕ} {s : State ι} (h : Inv n s) (hkept : Kept s) : Served n s := by
  have h1 := h.slots
  have h2 := h.items
  have hfront := h.front
  have hrear := h.rear
  exact ⟨h.fifo, hkept.written, hkept.returned, by omega, by omega⟩

/-- What the proxy does with its connections: those that were written to the buffer are the
first ones that `main` accepted; what was read was read by workers, and each has called
`doit` with what it read, in the order of its reads, but for a connection that it is about to
call `doit` with; no worker is in `doit` before `lru` was assigned. -/
structure ServedInOrder (s : Proxy) : Prop where
  accepted : s.net.inserted.map Prod.snd <+: s.net.asked none
  workers : ∀ e ∈ s.net.removed, ∃ i, e.1 = some i
  served : ∀ i, ofThread (some i) s.net.removed = s.served i ++ (s.net.phase (some i)).held
  current : ∀ i connfd, s.doit i = some connfd → (s.served i).getLast? = some connfd
  assigned : ∀ i connfd, s.doit i = some connfd → s.lru = true

omit [Fintype ι] in
/-- If all entries are of one thread, its values are all values. -/
theorem ofThread_eq_map {i : ι} {log : List (ι × ℤ)} (h : ∀ e ∈ log, e.1 = i) :
    ofThread i log = log.map Prod.snd := by
  rw [ofThread, List.filter_eq_self.mpr fun e he => decide_eq_true (h e he)]

/-- Before `lru` is assigned nothing was returned. -/
theorem ProxyInv.assigned {s : Proxy} (h : ProxyInv s) (hkept : Kept s.net)
    (hfifo : s.net.inserted = [] → s.net.removed = []) {i : Fin NTHREADS} {connfd : ℤ}
    (hi : s.doit i = some connfd) : s.lru = true := by
  by_contra hlru
  have hremoved := hfifo (h.lru (Bool.eq_false_iff.mpr hlru))
  have hnil := hkept.returned (some i)
  rw [hremoved] at hnil
  have hserved : s.served i = [] := by
    rw [h.served i]
    exact (List.append_eq_nil_iff.mp hnil.symm).1
  have hlast := h.doit i connfd hi
  rw [hserved] at hlast
  exact absurd hlast nofun

theorem ProxyInv.servedInOrder {s : Proxy} (h : ProxyInv s) (hkept : Kept s.net)
    (hfifo : s.net.inserted = [] → s.net.removed = []) : ServedInOrder s := by
  constructor
  · rw [hkept.written none, ofThread_eq_map h.inserted]
    exact List.prefix_append _ _
  · exact fun e he => Option.ne_none_iff_exists'.mp (h.removed e he)
  · intro i
    rw [h.served i]
    exact hkept.returned (some i)
  · exact h.doit
  · exact fun i connfd hi => h.assigned hkept hfifo hi

/-- **Every connection is served once, in order**: with any threads and any interleaving, as
long as fewer than `2 ^ 31` items were inserted; so in the proxy, where the workers call
`doit` with the connections in the order of the reads and no worker is in `doit` before `lru`
was assigned. -/
theorem served_in_order :
    (∀ (ι : Type) [Fintype ι] [DecidableEq ι] (n : ℕ) (s : State ι), 1 ≤ n →
      Relation.ReflTransGen Step (start n) s → s.inserted.length < 2 ^ 31 → Served n s) ∧
    ∀ s, Relation.ReflTransGen ProxyStep proxyStart s →
      (s.net.inserted.length < 2 ^ 31 → Served SBUFSIZE s.net) ∧ ServedInOrder s := by
  constructor
  · intro ι _ _ n s _ hrun hmax
    exact (inv_of_run hrun hmax).served (kept_of_run hrun)
  · intro s hrun
    have hnet := proxy_net hrun
    have hkept := kept_of_run hnet
    refine ⟨fun hmax => (inv_of_run hnet hmax).served hkept,
      (proxyInv_of_run hrun).servedInOrder hkept fun hnil => ?_⟩
    have hfifo := (inv_of_run hnet (by rw [hnil]; decide)).fifo
    rw [hnil] at hfifo
    exact List.map_eq_nil_iff.mp (List.prefix_nil.mp hfifo)

/-- The state after the steps `is`, in this order. -/
def runSteps (s : State ι) : List (ι × Call) → Option (State ι)
  | [] => some s
  | (i, call) :: is => (step s i call).bind fun s => runSteps s is

omit [Fintype ι] in
theorem run_of_runSteps {is : List (ι × Call)} {s s' : State ι} (h : runSteps s is = some s') :
    Relation.ReflTransGen Step s s' := by
  refine reflTransGen_of_run (fun _ => rfl) (fun hrun => ?_) h
  obtain ⟨s₁, hstep, hrest⟩ := Option.bind_eq_some_iff.mp hrun
  exact ⟨s₁, ⟨_, _, hstep⟩, hrest⟩

/-- A connection of the proxy: `main` inserts it, and worker 0 removes it. -/
theorem exists_doit : ∃ s, Relation.ReflTransGen ProxyStep proxyStart s ∧
    s.doit 0 = some 7 ∧ s.net.inserted.length = 1 :=
  ⟨_, .head (.create (by decide)) <| .head (.create (by decide)) <|
    .head (.create (by decide)) <| .head (.create (by decide)) <| .head (.assign rfl) <|
    .head (.accept 7 rfl rfl) <| .head (.accept 7 rfl rfl) <| .head (.accept 7 rfl rfl) <|
    .head (.accept 7 rfl rfl) <| .head (.accept 7 rfl rfl) <|
    .head (.remove (i := 0) (by decide) rfl rfl) <| .head (.remove (i := 0) (by decide) rfl rfl) <|
    .head (.remove (i := 0) (by decide) rfl rfl) <| .head (.remove (i := 0) (by decide) rfl rfl) <|
    .head (.remove (i := 0) (by decide) rfl rfl) .refl, rfl, rfl⟩

/-- Two items through a buffer of one slot, the first of which was returned, and a connection
of the proxy. -/
theorem served_two_items :
    (∃ s : State (Fin 2), Relation.ReflTransGen Step (start 1) s ∧
      s.inserted = [(0, 7), (0, 8)] ∧ s.removed = [(1, 7)] ∧ s.returned 1 = [7] ∧ Served 1 s) ∧
    ∃ s : Proxy, Relation.ReflTransGen ProxyStep proxyStart s ∧ s.doit 0 = some 7 ∧
      Served SBUFSIZE s.net ∧ ServedInOrder s := by
  constructor
  · have hval : (runSteps (start 1 : State (Fin 2)) (List.replicate 5 (0, .insert 7) ++
        List.replicate 5 (1, .remove) ++ List.replicate 3 (0, .insert 8))).map
        (fun s => (s.inserted, s.removed, s.returned 1)) =
          some ([(0, 7), (0, 8)], [(1, 7)], [7]) := by decide
    obtain ⟨s, hs, hlogs⟩ := Option.map_eq_some_iff.mp hval
    obtain ⟨hins, hlogs⟩ := Prod.mk.inj hlogs
    obtain ⟨hrem, hret⟩ := Prod.mk.inj hlogs
    have hrun := run_of_runSteps hs
    exact ⟨s, hrun, hins, hrem, hret, served_in_order.1 (Fin 2) 1 s le_rfl hrun
      (by rw [hins]; decide)⟩
  · obtain ⟨s, hrun, hdoit, hlen⟩ := exists_doit
    obtain ⟨hserved, horder⟩ := served_in_order.2 s hrun
    exact ⟨s, hrun, hdoit, hserved (by rw [hlen]; decide), horder⟩

end Sbuf
