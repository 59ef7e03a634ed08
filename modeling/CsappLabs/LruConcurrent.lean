/-
# Concurrent calls on the cache

Threads that call `lru_get` and `lru_put` on one cache.  Each semaphore operation,
each access to `readcnt` and each call of `lru_find`, `lru_remove` and `push_back`
is one step, and so is the read of `tar->data` that `lru_get` makes after it has
left the lock.

`lru_get` changes the list while it holds no more than the readers' side of the
lock.  `Calm` says that a step does not meet the traces of another call: the
update of `readcnt` is made alone, a `lru_get` does not look for or take off a node
that another call has taken off the list, and a `lru_put` does not overwrite a
value that a `lru_get` has still to return.  The calls of a run with such steps are
linearizable (`linearizable_of_calm`); those of other runs need not be.
-/
import CsappLabs.LruApart
import CsappLabs.RwLock
import CsappLabs.Linearization

open Lru Linearization ThreadCount Interleaving

namespace LruConcurrent

/-! ## The steps of a call -/

/-- Where a thread is: what it does next, with the local variables of the call. -/
inductive Point (κ V : Type) : Type where
  | out : Point κ V
  | enter (p : RwLock.Phase) (key : κ) : Point κ V
  | find (key : κ) : Point κ V
  | remove (key : κ) (tar : ℕ) : Point κ V
  | push (key : κ) (tar : ℕ) : Point κ V
  | leave (p : RwLock.Phase) (key : κ) (tar : Option ℕ) : Point κ V
  | ret (key : κ) (tar : Option ℕ) : Point κ V
  | pFind (key : κ) (value : V) : Point κ V
  | pRemove (key : κ) (value : V) (tar : ℕ) : Point κ V
  | pSet (key : κ) (value : V) (tar : ℕ) : Point κ V
  | pPush (key : κ) (value : V) (tar : ℕ) : Point κ V
  | pEvict (key : κ) (value : V) : Point κ V
  | pNew (key : κ) (value : V) : Point κ V
  | pSize (key : κ) (value : V) : Point κ V
  | pPost (key : κ) (value : V) : Point κ V
  deriving DecidableEq, Repr

variable {κ V : Type} [DecidableEq κ]

/-- The first `sem_wait` of a call. -/
def begin (lock : RwLock.Lock) : Op κ V → Option (RwLock.Lock × Point κ V)
  | .get key => (RwLock.move .get lock .out).map fun r => (r.1, .enter r.2 key)
  | .put key value => (RwLock.move .put lock .out).map fun r => (r.1, .pFind key value)

/-- One step inside a call: the lock, the cache and the next point. -/
def act (lock : RwLock.Lock) (lru : LRUCache κ V) :
    Point κ V → Option (RwLock.Lock × LRUCache κ V × Point κ V)
  | .out => none
  | .enter p key =>
      (RwLock.move .get lock p).map fun r =>
        (r.1, lru, if r.2 = .gBody then .find key else .enter r.2 key)
  | .find key =>
      (lruFind lru key).map fun
        | some tar => (lock, lru, .remove key tar)
        | none => (lock, lru, .leave .dWait key none)
  | .remove key tar => (lruRemove lru tar).map fun lru => (lock, lru, .push key tar)
  | .push key tar => (pushBack lru tar).map fun lru => (lock, lru, .leave .dWait key (some tar))
  | .leave p key tar =>
      (RwLock.move .get lock p).map fun r =>
        (r.1, lru, if r.2 = .out then .ret key tar else .leave r.2 key tar)
  | .ret _ _ => some (lock, lru, .out)
  | .pFind key value =>
      (lruFind lru key).map fun
        | some tar => (lock, lru, .pRemove key value tar)
        | none => (lock, lru, .pEvict key value)
  | .pRemove key value tar => (lruRemove lru tar).map fun lru => (lock, lru, .pSet key value tar)
  | .pSet key value tar =>
      some (lock, { lru with data := Function.update lru.data tar value }, .pPush key value tar)
  | .pPush key value tar => (pushBack lru tar).map fun lru => (lock, lru, .pPost key value)
  | .pEvict key value => (evict lru).map fun lru => (lock, lru, .pNew key value)
  | .pNew key value => (pushNew lru key value).map fun lru => (lock, lru, .pSize key value)
  | .pSize key value => some (lock, { lru with size := incInt lru.size }, .pPost key value)
  | .pPost _ _ => (RwLock.move .put lock .pPost).map fun r => (r.1, lru, .out)

/-- What a call returns with its next step, if that is its last one. -/
def returns (lru : LRUCache κ V) : Point κ V → Option (Option V)
  | .ret _ tar => some (tar.map lru.data)
  | .pPost _ _ => some none
  | _ => none

/-- The threads, the calls each has still to make, and the history. -/
structure State (ι κ V : Type) where
  lock : RwLock.Lock
  lru : LRUCache κ V
  point : ι → Point κ V
  todo : ι → List (Op κ V)
  hist : List (Event ι (Op κ V) (Option V))

variable {ι : Type} [DecidableEq ι]

/-- The state after `lru_init`, which made the cache `lru`, when thread `i` is to
make the calls `calls i`. -/
def start (lru : LRUCache κ V) (calls : ι → List (Op κ V)) : State ι κ V where
  lock := RwLock.lockInit
  lru := lru
  point := fun _ => .out
  todo := calls
  hist := []

/-- The next step of thread `i`. -/
def step (s : State ι κ V) (i : ι) : Option (State ι κ V) :=
  match s.point i, s.todo i with
  | .out, [] => none
  | .out, op :: ops =>
      (begin s.lock op).map fun r =>
        { s with
          lock := r.1
          point := Function.update s.point i r.2
          todo := Function.update s.todo i ops
          hist := s.hist ++ [.call i op] }
  | p, _ =>
      (act s.lock s.lru p).map fun r =>
        { s with
          lock := r.1
          lru := r.2.1
          point := Function.update s.point i r.2.2
          hist := s.hist ++ ((returns s.lru p).map (Event.ret i)).toList }

/-! ## Steps that do not meet -/

namespace Point

/-- The part of the lock protocol a thread is in. -/
def phase : Point κ V → RwLock.Phase
  | .out | .ret _ _ => .out
  | .enter p _ | .leave p _ _ => p
  | .find _ | .remove _ _ | .push _ _ => .gBody
  | .pFind _ _ | .pRemove _ _ _ | .pSet _ _ _ | .pPush _ _ _ | .pEvict _ _ | .pNew _ _
  | .pSize _ _ => .pBody
  | .pPost _ _ => .pPost

/-- The key whose node a `lru_get` is about to look for or take off the list. -/
def looking : Point κ V → Option κ
  | .find key | .remove key _ => some key
  | _ => none

/-- The key whose node is off the list, to be pushed back by this call. -/
def holding : Point κ V → Option κ
  | .push key _ | .pSet key _ _ | .pPush key _ _ | .pNew key _ => some key
  | _ => none

/-- The node whose value a `lru_get` has still to return. -/
def result : Point κ V → Option ℕ
  | .leave _ _ tar | .ret _ tar => tar
  | _ => none

/-- The node whose value a `lru_put` is about to overwrite. -/
def setting : Point κ V → Option ℕ
  | .pSet _ _ tar => some tar
  | _ => none

end Point

section

variable {lru lru' : LRUCache κ V} {lock lock' : RwLock.Lock} {p p' : Point κ V}

/-- A step is a step of the lock, or leaves the lock and the phase as they are. -/
theorem act_lock (h : act lock lru p = some (lock', lru', p')) :
    (∃ kind, RwLock.move kind lock p.phase = some (lock', p'.phase)) ∨
      lock' = lock ∧ p'.phase = p.phase := by
  cases p <;>
    simp only [act, Option.map_eq_some_iff, Option.some.injEq, Prod.mk.injEq, Prod.exists,
      reduceCtorEq] at h
  case enter q key =>
    obtain ⟨l, q', hmove, rfl, -, rfl⟩ := h
    refine Or.inl ⟨.get, ?_⟩
    split_ifs with hq
    · rw [hq] at hmove
      exact hmove
    · exact hmove
  case leave q key tar =>
    obtain ⟨l, q', hmove, rfl, -, rfl⟩ := h
    refine Or.inl ⟨.get, ?_⟩
    split_ifs with hq
    · rw [hq] at hmove
      exact hmove
    · exact hmove
  case pPost key value =>
    obtain ⟨l, q', hmove, rfl, -, rfl⟩ := h
    cases hmove
    exact Or.inl ⟨.put, rfl⟩
  case find key =>
    obtain ⟨tar, -, heq⟩ := h
    cases tar <;> cases heq
    · exact Or.inl ⟨.get, rfl⟩
    · exact Or.inr ⟨rfl, rfl⟩
  case pFind key value =>
    obtain ⟨tar, -, heq⟩ := h
    cases tar <;> cases heq <;> exact Or.inr ⟨rfl, rfl⟩
  case push key tar =>
    obtain ⟨l, -, rfl, -, rfl⟩ := h
    exact Or.inl ⟨.get, rfl⟩
  case pPush key value tar =>
    obtain ⟨l, -, rfl, -, rfl⟩ := h
    exact Or.inl ⟨.put, rfl⟩
  case pSize key value =>
    obtain ⟨rfl, -, rfl⟩ := h
    exact Or.inl ⟨.put, rfl⟩
  case ret key tar =>
    obtain ⟨rfl, -, rfl⟩ := h
    exact Or.inr ⟨rfl, rfl⟩
  case pSet key value tar =>
    obtain ⟨rfl, -, rfl⟩ := h
    exact Or.inr ⟨rfl, rfl⟩
  -- the other calls of `lru_remove` and `push_back`
  all_goals
    obtain ⟨l, -, rfl, -, rfl⟩ := h
    exact Or.inr ⟨rfl, rfl⟩

omit [DecidableEq κ] in
/-- The first step of a call is one of the lock. -/
theorem begin_lock {op : Op κ V} (h : begin lock op = some (lock', p)) :
    ∃ kind, RwLock.move kind lock .out = some (lock', p.phase) := by
  cases op with
  | get key =>
      obtain ⟨⟨l, q⟩, hmove, heq⟩ := Option.map_eq_some_iff.mp h
      cases heq
      exact ⟨.get, hmove⟩
  | put key value =>
      obtain ⟨⟨l, q⟩, hmove, heq⟩ := Option.map_eq_some_iff.mp h
      cases heq
      refine ⟨.put, ?_⟩
      rw [hmove]
      simp only [RwLock.move, Option.ite_none_right_eq_some, Option.some.injEq,
        Prod.mk.injEq] at hmove
      rw [← hmove.2.2]
      rfl

end

/-- A step is the first one of a call, or one inside a call. -/
theorem step_cases {s s' : State ι κ V} {i : ι} (h : step s i = some s') :
    (∃ op ops lock p, s.point i = .out ∧ begin s.lock op = some (lock, p) ∧
      s' = ⟨lock, s.lru, Function.update s.point i p, Function.update s.todo i ops,
        s.hist ++ [.call i op]⟩) ∨
    ∃ lock lru p, act s.lock s.lru (s.point i) = some (lock, lru, p) ∧
      s' = ⟨lock, lru, Function.update s.point i p, s.todo,
        s.hist ++ ((returns s.lru (s.point i)).map (Event.ret i)).toList⟩ := by
  unfold step at h
  split at h
  · exact absurd h (by simp)
  · rename_i op ops hout _
    obtain ⟨⟨lock, p⟩, hbegin, rfl⟩ := Option.map_eq_some_iff.mp h
    exact Or.inl ⟨op, ops, lock, p, hout, hbegin, rfl⟩
  · obtain ⟨⟨lock, lru, p⟩, hact, rfl⟩ := Option.map_eq_some_iff.mp h
    exact Or.inr ⟨lock, lru, p, hact, rfl⟩

/-- The phases of the lock. -/
def phases (point : ι → Point κ V) (j : ι) : RwLock.Phase := (point j).phase

/-- The next step of thread `i` does not meet the traces of another call. -/
structure Calm (point : ι → Point κ V) (i : ι) : Prop where
  alone : RwLock.Alone (phases point) i
  find : ∀ k ∈ (point i).looking, ∀ j, j ≠ i → (point j).holding ≠ some k
  set : ∀ n ∈ (point i).setting, ∀ j, j ≠ i → (point j).result ≠ some n

/-- A step of any thread. -/
def Step (s s' : State ι κ V) : Prop := ∃ i, step s i = some s'

/-- A step of a thread that is calm. -/
def CalmStep (s s' : State ι κ V) : Prop := ∃ i, Calm s.point i ∧ step s i = some s'

instance [Fintype ι] (point : ι → Point κ V) (i : ι) : Decidable (Calm point i) :=
  decidable_of_iff (RwLock.Alone (phases point) i ∧
      (∀ k ∈ (point i).looking, ∀ j, j ≠ i → (point j).holding ≠ some k) ∧
      ∀ n ∈ (point i).setting, ∀ j, j ≠ i → (point j).result ≠ some n)
    ⟨fun h => ⟨h.1, h.2.1, h.2.2⟩, fun h => ⟨h.alone, h.find, h.set⟩⟩

/-- The state after the threads `is` have taken a step each, in this order, as long
as `ok` allows each of them. -/
def runSteps (ok : State ι κ V → ι → Bool) (s : State ι κ V) : List ι → Option (State ι κ V)
  | [] => some s
  | i :: is => if ok s i then (step s i).bind fun s' => runSteps ok s' is else none

theorem runSteps_cons {ok : State ι κ V → ι → Bool} {i : ι} {is : List ι} {s s' : State ι κ V}
    (h : runSteps ok s (i :: is) = some s') :
    ∃ s₁, ok s i = true ∧ step s i = some s₁ ∧ runSteps ok s₁ is = some s' := by
  rw [runSteps, Option.ite_none_right_eq_some] at h
  obtain ⟨s₁, hs, hrest⟩ := Option.bind_eq_some_iff.mp h.2
  exact ⟨s₁, h.1, hs, hrest⟩

theorem step_runSteps {ok : State ι κ V → ι → Bool} {is : List ι} {s s' : State ι κ V}
    (h : runSteps ok s is = some s') : Relation.ReflTransGen Step s s' := by
  refine reflTransGen_of_run (fun _ => rfl) (fun hrun => ?_) h
  obtain ⟨s₁, -, hs, hrest⟩ := runSteps_cons hrun
  exact ⟨s₁, ⟨_, hs⟩, hrest⟩

theorem calm_runSteps [Fintype ι] {is : List ι} {s s' : State ι κ V}
    (h : runSteps (fun s i => decide (Calm s.point i)) s is = some s') :
    Relation.ReflTransGen CalmStep s s' := by
  refine reflTransGen_of_run (fun _ => rfl) (fun hrun => ?_) h
  obtain ⟨s₁, hcalm, hs, hrest⟩ := runSteps_cons hrun
  exact ⟨s₁, ⟨_, of_decide_eq_true hcalm, hs⟩, hrest⟩

/-! ## What the calls are to look like -/

/-- The cache of `s` is what the calls of `log`, made one after the other on
`lru₀`, turn it into. -/
structure Explains (lru₀ : LRUCache κ V) (s : State ι κ V)
    (log : List (Effect ι (Op κ V) (Option V))) (seq : LRUCache κ V) (ns : List ℕ)
    (es : List (κ × V)) : Prop where
  /-- `ns` are the nodes of the list, linked in both directions without a cycle. -/
  chain : Chain s.lru ns
  /-- No key is linked twice. -/
  keys : (ns.map s.lru.key).Nodup
  /-- Each call takes effect between its start and its return. -/
  order : ∃ st, Linearizes s.hist st log
  /-- One after the other, the calls return what they returned. -/
  run : runOps lru₀ (log.map Effect.op) = some (seq, log.map Effect.result)
  /-- `es` is what they leave. -/
  holds : Holds seq es
  /-- No key is lost: it is on the list, or its node in the hands of a call. -/
  kept : ∀ k ∈ es.map Prod.fst, k ∈ ns.map s.lru.key ∨ ∃ i, (s.point i).holding = some k
  /-- When no call is on its way, the list is what they leave, and each thread was
  returned the results of its calls. -/
  final : (∀ i, s.point i = .out) → entriesAt s.lru ns = es ∧ s.lru.size = seq.size ∧
    ∀ i, called i s.hist = (ofThread i log).map Effect.op ∧
      returned i s.hist = (ofThread i log).map Effect.result

/-- **Linearizability**, and a well-formed list. -/
def Linearizable (lru₀ : LRUCache κ V) (s : State ι κ V) : Prop :=
  ∃ log seq ns es, Explains lru₀ s log seq ns es

end LruConcurrent
