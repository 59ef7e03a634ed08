/-
# Calm runs are linearizable

The simulation behind `linearizable_of_calm`: a concurrent run next to the
sequential run of the calls that took effect.  A `lru_get` takes effect when it
finds nothing, or when it pushes its node back; a `lru_put` takes effect when it
overwrites the value, or when it evicts.
-/
import CsappLabs.LruConcurrent

open Lru Linearization ThreadCount

namespace LruConcurrent

variable {κ V ι : Type}

namespace Point

/-- Where a call is between its linearization and its return. -/
def status (data : ℕ → V) : Point κ V → Status (Op κ V) (Option V)
  | .out => .idle
  | .enter _ key | .find key | .remove key _ | .push key _ => .called (.get key)
  | .leave _ key tar | .ret key tar => .took (.get key) (tar.map data)
  | .pFind key value | .pRemove key value _ | .pSet key value _ | .pEvict key value =>
      .called (.put key value)
  | .pPush key value _ | .pNew key value | .pSize key value | .pPost key value =>
      .took (.put key value) none

/-- The node that the call has taken off the list. -/
def inHand : Point κ V → Option ℕ
  | .push _ tar | .pSet _ _ tar | .pPush _ _ tar => some tar
  | _ => none

/-- The new entry that `lru_put` has made room for and not counted: the entry, as
long as it is not linked in. -/
def growing : Point κ V → Option (Option (κ × V))
  | .pNew key value => some (some (key, value))
  | .pSize _ _ => some none
  | _ => none

/-- What a call knows about the nodes `ns`. -/
def Owns (key : ℕ → κ) (brk : ℕ) (ns : List ℕ) : Point κ V → Prop
  | .remove k n | .push k n | .pRemove k _ n | .pSet k _ n => n ∈ ns ∧ key n = k
  | .pPush k _ n => n ∈ ns ∧ key n = k ∧ ∃ l, ns = l ++ [n]
  | .pEvict k _ | .pNew k _ => k ∉ ns.map key
  | .leave _ _ tar | .ret _ tar => ∀ n ∈ tar, n < brk
  | _ => True

/-! ## The other calls -/

variable {p : Point κ V}

/-- A call in neither critical section has nothing off the list. -/
theorem inHand_of_outside (hadm : p.phase.admitted = false) (hwr : p.phase.writing = false) :
    p.inHand = none := by
  cases p <;> simp [inHand, phase, RwLock.Phase.admitted, RwLock.Phase.writing] at hadm hwr ⊢

theorem growing_of_reader (hwr : p.phase.writing = false) : p.growing = none := by
  cases p <;> simp [growing, phase, RwLock.Phase.writing] at hwr ⊢

/-- What a call knows is not about the order of the nodes, unless it writes. -/
theorem Owns.toBack {key : ℕ → κ} {brk : ℕ} {ns : List ℕ} {n : ℕ} (h : Owns key brk ns p)
    (hwr : p.phase.writing = false) (hn : n ∈ ns) : Owns key brk (toBack n ns) p := by
  cases p <;>
    simp [phase, RwLock.Phase.writing] at hwr <;>
    simp only [Owns, mem_toBack hn] at h ⊢ <;>
    exact h

/-- In neither critical section, a call knows nothing about the nodes. -/
theorem Owns.outside {key key' : ℕ → κ} {brk brk' : ℕ} {ns : List ℕ} (ns' : List ℕ)
    (h : Owns key brk ns p) (hadm : p.phase.admitted = false) (hwr : p.phase.writing = false)
    (hbrk : brk ≤ brk') : Owns key' brk' ns' p := by
  cases p <;>
    simp [phase, RwLock.Phase.writing, RwLock.Phase.admitted] at hadm hwr <;>
    simp [Owns] at h ⊢
  case leave tar => exact fun n hn => (h n hn).trans_le hbrk
  case ret tar => exact fun n hn => (h n hn).trans_le hbrk

/-- The node in a call's hand is that of its key. -/
theorem Owns.of_inHand {key : ℕ → κ} {brk : ℕ} {ns : List ℕ} {n : ℕ} (h : Owns key brk ns p)
    (hp : p.inHand = some n) : p.holding = some (key n) := by
  cases p <;> simp [inHand] at hp <;> subst hp <;> simp [Owns] at h <;> simp [holding, h]

/-- A value that is to be returned and is not overwritten. -/
theorem status_congr {data data' : ℕ → V} (h : ∀ n ∈ p.result, data' n = data n) :
    p.status data' = p.status data := by
  cases p <;> try rfl
  all_goals
    rename_i tar
    cases tar with
    | none => rfl
    | some n =>
        simp only [status, Option.map_some]
        rw [h n rfl]

theorem Owns.result_lt {key : ℕ → κ} {brk : ℕ} {ns : List ℕ} {n : ℕ} (h : Owns key brk ns p)
    (hp : n ∈ p.result) : n < brk := by
  cases p <;> simp [result] at hp <;> exact h n hp

end Point

/-! ## The simulation -/

variable [DecidableEq κ] [DecidableEq ι]

/-- The sequential cache `seq` holds what the cache does, apart from the new entry
that `lru_put` is making. -/
structure Agrees (seq lru : LRUCache κ V) (ns : List ℕ) (new : Option (Option (κ × V))) :
    Prop where
  holds : Holds seq (entriesAt lru ns ++ new.join.toList)
  size : seq.size = if new.isSome then incInt lru.size else lru.size
  capacity : seq.capacity = lru.capacity

/-- The state of a concurrent run: `ns` are the nodes of the cache in the order of
use, `off` the ones in the hands of a call, `new` the entry being made; `log` are
the calls that took effect, which one after the other turn `lru₀` into `seq`. -/
structure Sim (lru₀ lru : LRUCache κ V) (point : ι → Point κ V)
    (hist : List (Event ι (Op κ V) (Option V))) (ns : List ℕ) (off : Finset ℕ)
    (new : Option (Option (κ × V))) (log : List (Effect ι (Op κ V) (Option V)))
    (seq : LRUCache κ V) : Prop where
  apart : Apart lru ns off
  hands : Hands (fun j => (point j).inHand) off
  owns : ∀ j, (point j).Owns lru.key lru.brk ns
  growing : Only (fun j => (point j).growing) new
  history : Linearizes hist (fun j => (point j).status lru.data) log
  run : runOps lru₀ (log.map Effect.op) = some (seq, log.map Effect.result)
  agrees : Agrees seq lru ns new

/-- A function of the points, after a step. -/
theorem map_update {α β : Type} (g : α → β) (f : ι → α) (i : ι) (a : α) :
    (fun j => g (Function.update f i a j)) = Function.update (fun j => g (f j)) i (g a) := by
  funext j
  exact Function.apply_update (fun _ => g) f i a j

namespace Sim

variable {lru₀ lru : LRUCache κ V} {point : ι → Point κ V}
  {hist : List (Event ι (Op κ V) (Option V))} {ns : List ℕ} {off : Finset ℕ}
  {new : Option (Option (κ × V))} {log : List (Effect ι (Op κ V) (Option V))}
  {seq : LRUCache κ V} {i : ι} {p : Point κ V}

/-- What has to be shown of a step of thread `i`. -/
theorem of_update {lru lru' : LRUCache κ V} (hapart : Apart lru' ns off)
    (hhands : Hands (Function.update (fun j => (point j).inHand) i p.inHand) off)
    (howns : p.Owns lru'.key lru'.brk ns)
    (hothers : ∀ j, j ≠ i → (point j).Owns lru'.key lru'.brk ns)
    (hgrowing : Only (Function.update (fun j => (point j).growing) i p.growing) new)
    (hdata : ∀ j, j ≠ i → ∀ n ∈ (point j).result, lru'.data n = lru.data n)
    (hhist : Linearizes hist
      (Function.update (fun j => (point j).status lru.data) i (p.status lru'.data)) log)
    (hrun : runOps lru₀ (log.map Effect.op) = some (seq, log.map Effect.result))
    (hagrees : Agrees seq lru' ns new) :
    Sim lru₀ lru' (Function.update point i p) hist ns off new log seq := by
  refine ⟨hapart, ?_, ?_, ?_, ?_, hrun, hagrees⟩
  · rw [map_update]
    exact hhands
  · intro j
    by_cases hj : j = i
    · subst hj
      rw [Function.update_self]
      exact howns
    · rw [Function.update_of_ne hj]
      exact hothers j hj
  · rw [map_update]
    exact hgrowing
  · have hstatus : (fun j => (Function.update point i p j).status lru'.data) =
        Function.update (fun j => (point j).status lru.data) i (p.status lru'.data) := by
      funext j
      by_cases hj : j = i
      · subst hj
        rw [Function.update_self, Function.update_self]
      · rw [Function.update_of_ne hj, Function.update_of_ne hj, Point.status_congr (hdata j hj)]
    rw [hstatus]
    exact hhist

/-- A step that leaves the thread with what it had in hand. -/
theorem hands_keep (h : Sim lru₀ lru point hist ns off new log seq)
    (hhand : p.inHand = (point i).inHand) :
    Hands (Function.update (fun j => (point j).inHand) i p.inHand) off := by
  rw [hhand, Function.update_eq_self]
  exact h.hands

theorem growing_keep (h : Sim lru₀ lru point hist ns off new log seq)
    (hgrowing : p.growing = (point i).growing) :
    Only (Function.update (fun j => (point j).growing) i p.growing) new := by
  rw [hgrowing, Function.update_eq_self]
  exact h.growing

/-- A step at which no call takes effect. -/
theorem history_keep (h : Sim lru₀ lru point hist ns off new log seq)
    {st : Status (Op κ V) (Option V)} (hstatus : st = (point i).status lru.data) :
    Linearizes hist (Function.update (fun j => (point j).status lru.data) i st) log := by
  rw [hstatus, Function.update_eq_self]
  exact h.history

/-! ### Steps that leave the cache as it is -/

/-- A step on the way to the next one that matters. -/
theorem quiet (h : Sim lru₀ lru point hist ns off new log seq)
    (hstatus : p.status lru.data = (point i).status lru.data)
    (hhand : p.inHand = (point i).inHand) (hgrowing : p.growing = (point i).growing)
    (howns : p.Owns lru.key lru.brk ns) :
    Sim lru₀ lru (Function.update point i p) hist ns off new log seq := by
  exact of_update h.apart (h.hands_keep hhand) howns (fun j _ => h.owns j)
    (h.growing_keep hgrowing) (fun _ _ _ _ => rfl) (h.history_keep hstatus) h.run h.agrees

/-- The first step of a call. -/
theorem call (h : Sim lru₀ lru point hist ns off new log seq) {op : Op κ V}
    (hout : point i = .out) (hstatus : p.status lru.data = .called op)
    (hhand : p.inHand = none) (hgrowing : p.growing = none) (howns : p.Owns lru.key lru.brk ns) :
    Sim lru₀ lru (Function.update point i p) (hist ++ [.call i op]) ns off new log seq := by
  have hidle : (point i).status lru.data = .idle := by rw [hout]; rfl
  refine of_update h.apart (h.hands_keep ?_) howns (fun j _ => h.owns j) (h.growing_keep ?_)
    (fun _ _ _ _ => rfl) ?_ h.run h.agrees
  · rw [hhand, hout]
    rfl
  · rw [hgrowing, hout]
    rfl
  · rw [hstatus]
    exact h.history.call hidle

/-- The last step of a call. -/
theorem ret (h : Sim lru₀ lru point hist ns off new log seq) {op : Op κ V} {r : Option V}
    (hstatus : (point i).status lru.data = .took op r) (hhand : (point i).inHand = none)
    (hgrowing : (point i).growing = none) :
    Sim lru₀ lru (Function.update point i .out) (hist ++ [.ret i r]) ns off new log seq := by
  exact of_update h.apart (h.hands_keep hhand.symm) trivial (fun j _ => h.owns j)
    (h.growing_keep hgrowing.symm) (fun _ _ _ _ => rfl) (h.history.ret hstatus) h.run h.agrees

/-! ### Steps of `lru_get` -/

/-- Nobody is adding an entry. -/
theorem new_eq_none (h : Sim lru₀ lru point hist ns off new log seq)
    (hwr : ∀ j, (point j).phase.writing = false) : new = none :=
  h.growing.eq_none fun j => Point.growing_of_reader (hwr j)

/-- One more call takes effect. -/
theorem run_take (h : Sim lru₀ lru point hist ns off new log seq) {seq' : LRUCache κ V}
    {op : Op κ V} {r : Option V} (hstep : stepOp seq op = some (seq', r)) :
    runOps lru₀ ((log ++ [Effect.mk i op r]).map Effect.op) =
      some (seq', (log ++ [Effect.mk i op r]).map Effect.result) := by
  rw [List.map_append, List.map_append]
  exact runOps_append h.run hstep

/-- **A miss** takes effect when the key is not found. -/
theorem find_none (h : Sim lru₀ lru point hist ns off new log seq) {k : κ}
    (hp : point i = .find k) (hwr : ∀ j, (point j).phase.writing = false)
    (hk : k ∉ ns.map lru.key) :
    ∃ seq', Sim lru₀ lru (Function.update point i (.leave .dWait k none)) hist ns off new
      (log ++ [⟨i, .get k, none⟩]) seq' := by
  obtain rfl := h.new_eq_none hwr
  have hholds := h.agrees.holds
  have hmiss : valueOf k (entriesAt lru ns ++ (none : Option (Option (κ × V))).join.toList) = none := by
    rw [valueOf_eq_none]
    simpa [entriesAt] using hk
  obtain ⟨seq', hget, hholds', hsize, hcap⟩ := lruGet_spec hholds k
  rw [hmiss] at hget
  have hstep : stepOp seq (.get k) = some (seq', none) := hget
  rw [getEntries, hmiss] at hholds'
  exact ⟨seq', of_update h.apart (h.hands_keep (by rw [hp]; rfl)) (by simp [Point.Owns])
    (fun j _ => h.owns j) (h.growing_keep (by rw [hp]; rfl)) (fun _ _ _ _ => rfl)
    (h.history.take none (by simp only [hp]; rfl)) (h.run_take hstep)
    ⟨hholds', hsize.trans h.agrees.size, hcap.trans h.agrees.capacity⟩⟩

/-- A call takes a node off the list that no other call has. -/
theorem takeOff (h : Sim lru₀ lru point hist ns off new log seq) {n : ℕ} (hn : n ∈ ns)
    (hoff : n ∉ off) (hnone : (point i).inHand = none) (hhand : p.inHand = some n)
    (hstatus : p.status lru.data = (point i).status lru.data)
    (hgrowing : p.growing = (point i).growing) (howns : p.Owns lru.key lru.brk ns) :
    ∃ pre nxt, lruRemove lru n = some { lru with pre := pre, nxt := nxt } ∧
      Sim lru₀ { lru with pre := pre, nxt := nxt } (Function.update point i p) hist ns
        (off ∪ {n}) new log seq := by
  obtain ⟨pre, nxt, hrem, hapart⟩ := h.apart.remove_spec hn hoff
  refine ⟨pre, nxt, hrem, of_update hapart ?_ howns (fun j _ => h.owns j)
    (h.growing_keep hgrowing) (fun _ _ _ _ => rfl) (h.history_keep hstatus) h.run
    ⟨h.agrees.holds, h.agrees.size, h.agrees.capacity⟩⟩
  rw [hhand]
  exact h.hands.take hnone hoff

/-- **A hit** takes effect when the node is pushed back. -/
theorem push_get (h : Sim lru₀ lru point hist ns off new log seq) {k : κ} {n : ℕ}
    (hp : point i = .push k n) (hwr : ∀ j, (point j).phase.writing = false) :
    ∃ pre nxt seq', pushBack lru n = some { lru with pre := pre, nxt := nxt } ∧
      Sim lru₀ { lru with pre := pre, nxt := nxt }
        (Function.update point i (.leave .dWait k (some n))) hist (toBack n ns) (off.erase n) new
        (log ++ [⟨i, .get k, some (lru.data n)⟩]) seq' := by
  obtain rfl := h.new_eq_none hwr
  obtain ⟨hn, rfl⟩ : n ∈ ns ∧ lru.key n = k := by
    have := h.owns i
    rwa [hp] at this
  have hhand : (point i).inHand = some n := by rw [hp]; rfl
  obtain ⟨pre, nxt, hpush, hapart⟩ := h.apart.push_spec ((h.hands.mem n).mpr ⟨i, hhand⟩)
  have hholds : Holds seq (entriesAt lru ns) := by
    have := h.agrees.holds
    simpa using this
  have hhit := h.apart.valueOf_key hn
  obtain ⟨seq', hget, hholds', hsize, hcap⟩ := lruGet_spec hholds (lru.key n)
  rw [hhit] at hget
  have hstep : stepOp seq (.get (lru.key n)) = some (seq', some (lru.data n)) := hget
  rw [getEntries, hhit] at hholds'
  refine ⟨pre, nxt, seq', hpush, of_update hapart (h.hands.drop hhand) ?_ ?_
    (h.growing_keep (by rw [hp]; rfl)) (fun _ _ _ _ => rfl)
    (h.history.take _ (by simp only [hp]; rfl)) (h.run_take hstep)
    ⟨?_, hsize.trans h.agrees.size, hcap.trans h.agrees.capacity⟩⟩
  · intro m hm
    obtain rfl := Option.mem_some_iff.mp hm
    exact (h.apart.bounds n hn).2
  · exact fun j _ => (h.owns j).toBack (hwr j) hn
  · show Holds seq' (entriesAt lru (toBack n ns) ++ [])
    rw [List.append_nil, h.apart.entriesAt_toBack hn]
    exact hholds'

/-! ### Steps of `lru_put` -/

/-- No other thread is in a critical section. -/
def Sole (point : ι → Point κ V) (i : ι) : Prop :=
  ∀ j, j ≠ i → (point j).phase.admitted = false ∧ (point j).phase.writing = false

/-- What the other threads hold while `lru_put` is in its critical section. -/
theorem off_of_sole (h : Sim lru₀ lru point hist ns off new log seq) (hsole : Sole point i) :
    (∀ n ∈ off, (point i).inHand = some n) ∧ new = (point i).growing := by
  constructor
  · intro n hn
    obtain ⟨j, hj⟩ := (h.hands.mem n).mp hn
    by_cases hji : j = i
    · exact hji ▸ hj
    · rw [Point.inHand_of_outside (hsole j hji).1 (hsole j hji).2] at hj
      exact absurd hj (by simp)
  · cases hg : (point i).growing with
    | some b => exact h.growing.eq i b hg
    | none =>
        apply h.growing.eq_none
        intro j
        by_cases hji : j = i
        · exact hji ▸ hg
        · exact Point.growing_of_reader (hsole j hji).2

/-- With nothing in its own hand, `lru_put` in its critical section has every node on the
list. -/
theorem notMem_off_of_sole (h : Sim lru₀ lru point hist ns off new log seq)
    (hsole : Sole point i) (hnone : (point i).inHand = none) (n : ℕ) : n ∉ off := by
  intro hn
  have := (h.off_of_sole hsole).1 n hn
  exact absurd (hnone.symm.trans this) (by simp)

omit [DecidableEq κ] in
/-- Nobody else is adding an entry. -/
theorem growing_set (hsole : Sole point i) (x : Option (Option (κ × V))) :
    Only (Function.update (fun j => (point j).growing) i x) x :=
  Only.set (fun j hj => Point.growing_of_reader (hsole j hj).2) x

/-- The other threads know nothing about the nodes. -/
theorem owns_of_sole (h : Sim lru₀ lru point hist ns off new log seq) (hsole : Sole point i)
    {key' : ℕ → κ} {brk' : ℕ} (ns' : List ℕ) (hbrk : lru.brk ≤ brk') :
    ∀ j, j ≠ i → (point j).Owns key' brk' ns' := fun j hj =>
  (h.owns j).outside ns' (hsole j hj).1 (hsole j hj).2 hbrk

/-- **An overwrite** takes effect when the value is written. -/
theorem set (h : Sim lru₀ lru point hist ns off new log seq) {k : κ} {v : V} {n : ℕ}
    (hp : point i = .pSet k v n) (hsole : Sole point i)
    (hresult : ∀ j, j ≠ i → (point j).result ≠ some n) :
    ∃ seq', Sim lru₀ { lru with data := Function.update lru.data n v }
      (Function.update point i (.pPush k v n)) hist (toBack n ns) off new
      (log ++ [⟨i, .put k v, none⟩]) seq' := by
  obtain ⟨hoff, hnew⟩ := h.off_of_sole hsole
  rw [hp] at hoff hnew
  obtain rfl := hnew
  obtain ⟨hn, rfl⟩ : n ∈ ns ∧ lru.key n = k := by
    have := h.owns i
    rwa [hp] at this
  have hholds : Holds seq (entriesAt lru ns) := by
    have := h.agrees.holds
    simpa [Point.growing] using this
  have hhit := h.apart.valueOf_key hn
  have hmem : lru.key n ∈ (entriesAt lru ns).map Prod.fst := by
    by_contra hc
    rw [valueOf_eq_none.mpr hc] at hhit
    exact absurd hhit (by simp)
  obtain ⟨seq', hput, hholds', hsize, hcap⟩ := lruPut_spec hholds (lru.key n) v fun _ hnil => by
    rw [hnil] at hmem
    exact absurd hmem (by simp)
  rw [putEntries, hhit] at hholds'
  rw [if_pos hmem] at hsize
  have hstep : stepOp seq (.put (lru.key n) v) = some (seq', none) := by
    rw [stepOp, hput]
    rfl
  have hhand : (point i).inHand = some n := by rw [hp]; rfl
  have hlast := h.apart.toBack ((h.hands.mem n).mpr ⟨i, hhand⟩)
  refine ⟨seq', of_update (hlast.of_data rfl rfl rfl rfl rfl rfl)
    (h.hands_keep (by rw [hp]; rfl)) ⟨(mem_toBack hn).mpr hn, rfl, _, rfl⟩
    (h.owns_of_sole hsole _ le_rfl) (growing_set hsole none) ?_
    (h.history.take none (by simp only [hp]; rfl)) (h.run_take hstep)
    ⟨?_, hsize.trans h.agrees.size, hcap.trans h.agrees.capacity⟩⟩
  · intro j hj m hm
    refine Function.update_of_ne ?_ ..
    rintro rfl
    exact hresult j hj hm
  · show Holds seq' (entriesAt _ (toBack n ns) ++ [])
    rw [List.append_nil, h.apart.entriesAt_set hn v]
    exact hholds'

/-- The overwritten node is pushed back. -/
theorem push_put (h : Sim lru₀ lru point hist ns off new log seq) {k : κ} {v : V} {n : ℕ}
    (hp : point i = .pPush k v n) :
    ∃ pre nxt, pushBack lru n = some { lru with pre := pre, nxt := nxt } ∧
      Sim lru₀ { lru with pre := pre, nxt := nxt } (Function.update point i (.pPost k v)) hist
        ns (off.erase n) new log seq := by
  have howns := h.owns i
  rw [hp] at howns
  obtain ⟨hn, -, l, rfl⟩ := howns
  have hhand : (point i).inHand = some n := by rw [hp]; rfl
  obtain ⟨pre, nxt, hpush, hapart⟩ := h.apart.push_spec ((h.hands.mem n).mpr ⟨i, hhand⟩)
  rw [toBack_last h.apart.nodup_nodes] at hapart
  exact ⟨pre, nxt, hpush, of_update hapart (h.hands.drop hhand) trivial (fun j _ => h.owns j)
    (h.growing_keep (by rw [hp]; rfl)) (fun _ _ _ _ => rfl) (h.history_keep (by rw [hp]; rfl))
    h.run ⟨h.agrees.holds, h.agrees.size, h.agrees.capacity⟩⟩

/-- **A new entry** takes effect when room is made for it. -/
theorem evict (h : Sim lru₀ lru point hist ns off new log seq) {k : κ} {v : V}
    (hp : point i = .pEvict k v) (hsole : Sole point i) {lru' : LRUCache κ V}
    (hevict : Lru.evict lru = some lru') :
    ∃ ns' seq', Sim lru₀ lru' (Function.update point i (.pNew k v)) hist ns' off
      (some (some (k, v))) (log ++ [⟨i, .put k v, none⟩]) seq' := by
  obtain ⟨-, hnew⟩ := h.off_of_sole hsole
  rw [hp] at hnew
  obtain rfl := hnew
  obtain rfl : off = ∅ := by
    apply Finset.eq_empty_of_forall_notMem
    exact h.notMem_off_of_sole hsole (by rw [hp]; rfl)
  have hk : k ∉ ns.map lru.key := by
    have := h.owns i
    rwa [hp] at this
  have hholds : Holds seq (entriesAt lru ns) := by
    have := h.agrees.holds
    simpa [Point.growing] using this
  have hsize₀ : seq.size = lru.size := h.agrees.size
  obtain ⟨hne, pre, nxt, rfl, hapart⟩ := h.apart.evict_spec hevict
  have hmiss : k ∉ (entriesAt lru ns).map Prod.fst := by
    simpa [entriesAt, Function.comp_def] using hk
  obtain ⟨seq', hput, hholds', hsize, hcap⟩ := lruPut_spec hholds k v fun hfull hnil => by
    rw [hsize₀, h.agrees.capacity] at hfull
    exact hne hfull (List.map_eq_nil_iff.mp hnil)
  rw [putEntries, valueOf_eq_none.mpr hmiss, hsize₀, h.agrees.capacity] at hholds'
  rw [if_neg hmiss, hsize₀] at hsize
  have hstep : stepOp seq (.put k v) = some (seq', none) := by
    rw [stepOp, hput]
    rfl
  refine ⟨_, seq', of_update hapart (h.hands_keep (by rw [hp]; rfl)) ?_
    (h.owns_of_sole hsole _ le_rfl) (growing_set hsole _) (fun _ _ _ _ => rfl)
    (h.history.take none (by simp only [hp]; rfl)) (h.run_take hstep)
    ⟨?_, hsize, hcap.trans h.agrees.capacity⟩⟩
  · show k ∉ List.map lru.key _
    split_ifs
    · exact fun hmem => hk (((List.tail_sublist ns).map lru.key).subset hmem)
    · exact hk
  · have hentries : entriesAt lru (if decide (lru.capacity = lru.size) then ns.tail else ns) =
        if decide (lru.capacity = lru.size) then (entriesAt lru ns).tail else entriesAt lru ns := by
      split_ifs
      · exact List.map_tail
      · rfl
    show Holds seq' (entriesAt lru _ ++ [(k, v)])
    rw [hentries]
    exact hholds'

/-- The new node is linked in. -/
theorem pushNew (h : Sim lru₀ lru point hist ns off new log seq) {k : κ} {v : V}
    (hp : point i = .pNew k v) (hsole : Sole point i) :
    ∃ lru' ns', Lru.pushNew lru k v = some lru' ∧
      Sim lru₀ lru' (Function.update point i (.pSize k v)) hist ns' off (some none) log seq := by
  obtain ⟨-, hnew⟩ := h.off_of_sole hsole
  rw [hp] at hnew
  obtain rfl := hnew
  obtain rfl : off = ∅ := by
    apply Finset.eq_empty_of_forall_notMem
    exact h.notMem_off_of_sole hsole (by rw [hp]; rfl)
  have hk : k ∉ ns.map lru.key := by
    have := h.owns i
    rwa [hp] at this
  obtain ⟨pre, nxt, hpush, hapart⟩ := h.apart.pushNew_spec v hk
  refine ⟨_, _, hpush, of_update hapart (h.hands_keep (by rw [hp]; rfl)) trivial
    (h.owns_of_sole hsole _ (Nat.le_succ _)) (growing_set hsole _) ?_
    (h.history_keep (by rw [hp]; rfl)) h.run ⟨?_, h.agrees.size, h.agrees.capacity⟩⟩
  · intro j _ n hn
    exact Function.update_of_ne ((h.owns j).result_lt hn).ne ..
  · show Holds seq (entriesAt _ (ns ++ [lru.brk]) ++ [])
    rw [List.append_nil, entriesAt_insert (fun n hn => (h.apart.bounds n hn).2) rfl rfl]
    exact h.agrees.holds

/-- The new entry is counted. -/
theorem size (h : Sim lru₀ lru point hist ns off new log seq) {k : κ} {v : V}
    (hp : point i = .pSize k v) (hsole : Sole point i) :
    Sim lru₀ { lru with size := incInt lru.size } (Function.update point i (.pPost k v)) hist
      ns off none log seq := by
  obtain ⟨-, hnew⟩ := h.off_of_sole hsole
  rw [hp] at hnew
  obtain rfl := hnew
  exact of_update (h.apart.of_data rfl rfl rfl rfl rfl rfl) (h.hands_keep (by rw [hp]; rfl))
    trivial (fun j _ => h.owns j) (growing_set hsole _) (fun _ _ _ _ => rfl)
    (h.history_keep (by rw [hp]; rfl)) h.run ⟨h.agrees.holds, h.agrees.size, h.agrees.capacity⟩

/-- With nothing in its own hand, a call for a key that no other call holds meets no node of
this key in anybody's hands. -/
theorem key_ne_of_mem_off (h : Sim lru₀ lru point hist ns off new log seq) {k : κ}
    (hnone : (point i).inHand = none) (hfree : ∀ j, j ≠ i → (point j).holding ≠ some k) :
    ∀ n ∈ off, lru.key n ≠ k := by
  rintro n hn rfl
  obtain ⟨j, hj⟩ := (h.hands.mem n).mp hn
  refine hfree j ?_ ((h.owns j).of_inHand hj)
  rintro rfl
  exact absurd (hnone.symm.trans hj) (by simp)

end Sim

/-! ## One step -/

variable {lru₀ lru lru' : LRUCache κ V} {point : ι → Point κ V}
  {hist : List (Event ι (Op κ V) (Option V))} {lock lock' : RwLock.Lock} {i : ι}
  {p p' : Point κ V}

/-- What a simulation hides. -/
def Simulated (lru₀ lru : LRUCache κ V) (point : ι → Point κ V)
    (hist : List (Event ι (Op κ V) (Option V))) : Prop :=
  ∃ ns off new log seq, Sim lru₀ lru point hist ns off new log seq

variable [Fintype ι]

omit [DecidableEq κ] [DecidableEq ι] in
/-- A reader in its critical section keeps the writers out. -/
theorem reader_alone [DecidableEq ι] (hinv : RwLock.Inv lock (phases point))
    (hadm : (point i).phase.admitted = true) (j : ι) : (point j).phase.writing = false := by
  by_contra hj
  rw [Bool.not_eq_false] at hj
  by_cases hji : j = i
  · subst hji
    revert hadm hj
    cases (point j).phase <;> decide
  · have := (hinv.exclusive hji hj).1
    exact absurd (this.symm.trans hadm) (by decide)

/-- **One calm step inside a call.** -/
theorem Simulated.act (h : Simulated lru₀ lru point hist) (hinv : RwLock.Inv lock (phases point))
    (hcalm : Calm point i) (hact : act lock lru (point i) = some (lock', lru', p')) :
    Simulated lru₀ lru' (Function.update point i p')
      (hist ++ ((returns lru (point i)).map (Event.ret i)).toList) := by
  obtain ⟨ns, off, new, log, seq, h⟩ := h
  have hown := h.owns i
  have hreader := fun hadm => reader_alone hinv (i := i) hadm
  have hwriter : (point i).phase.writing = true → Sim.Sole point i := fun hwr j hj =>
    hinv.exclusive (Ne.symm hj) hwr
  have hfind := hcalm.find
  have hset := hcalm.set
  -- one case for each place of `lru_get`, then of `lru_put`; only the steps that touch the
  -- list or at which the call takes effect need more than `quiet`
  cases hp : point i <;> rw [hp] at hact hown hreader hwriter hfind hset <;>
    simp only [LruConcurrent.act, Option.map_eq_some_iff, Option.some.injEq, Prod.mk.injEq,
      Prod.exists, reduceCtorEq] at hact <;>
    simp only [returns, Option.map_none, Option.toList_none, List.append_nil, Option.map_some,
      Option.toList_some]
  case enter q key =>
    obtain ⟨l, q', -, -, rfl, rfl⟩ := hact
    refine ⟨ns, off, new, log, seq, ?_⟩
    split_ifs <;>
      exact h.quiet (by rw [hp]; rfl) (by rw [hp]; rfl) (by rw [hp]; rfl) trivial
  case find key =>
    obtain ⟨tar, hf, heq⟩ := hact
    have hoff : ∀ n ∈ off, lru.key n ≠ key :=
      h.key_ne_of_mem_off (by rw [hp]; rfl) (hfind _ rfl)
    rcases h.apart.find_spec hoff with ⟨hf', hk⟩ | ⟨n, hn, hf', hk⟩
    · obtain rfl := Option.some.inj (hf.symm.trans hf')
      cases heq
      obtain ⟨seq', h'⟩ := h.find_none hp (hreader rfl) hk
      exact ⟨_, _, _, _, _, h'⟩
    · obtain rfl := Option.some.inj (hf.symm.trans hf')
      cases heq
      exact ⟨ns, off, new, log, seq,
        h.quiet (by rw [hp]; rfl) (by rw [hp]; rfl) (by rw [hp]; rfl) ⟨hn, hk⟩⟩
  case remove key n =>
    obtain ⟨l, hrem, -, rfl, rfl⟩ := hact
    obtain ⟨hn, rfl⟩ := hown
    have hoff : n ∉ off := fun hn =>
      h.key_ne_of_mem_off (by rw [hp]; rfl) (hfind _ rfl) n hn rfl
    obtain ⟨pre, nxt, hrem', h'⟩ := h.takeOff (p := .push (lru.key n) n) hn hoff
      (by rw [hp]; rfl) rfl (by rw [hp]; rfl) (by rw [hp]; rfl) ⟨hn, rfl⟩
    obtain rfl := Option.some.inj (hrem.symm.trans hrem')
    exact ⟨_, _, _, _, _, h'⟩
  case push key n =>
    obtain ⟨l, hpush, -, rfl, rfl⟩ := hact
    obtain ⟨pre, nxt, seq', hpush', h'⟩ := h.push_get hp (hreader rfl)
    obtain rfl := Option.some.inj (hpush.symm.trans hpush')
    exact ⟨_, _, _, _, _, h'⟩
  case leave q key tar =>
    obtain ⟨l, q', -, -, rfl, rfl⟩ := hact
    refine ⟨ns, off, new, log, seq, ?_⟩
    split_ifs <;>
      exact h.quiet (by rw [hp]; rfl) (by rw [hp]; rfl) (by rw [hp]; rfl) hown
  case ret key tar =>
    obtain ⟨-, rfl, rfl⟩ := hact
    have htook : (point i).status lru.data = .took (.get key) (tar.map lru.data) := by
      rw [hp]
      rfl
    exact ⟨ns, off, new, log, seq, h.ret htook (by rw [hp]; rfl) (by rw [hp]; rfl)⟩
  case pFind key value =>
    obtain ⟨tar, hf, heq⟩ := hact
    have hoff : ∀ n ∈ off, lru.key n ≠ key := fun n hn =>
      absurd hn (h.notMem_off_of_sole (hwriter rfl) (by rw [hp]; rfl) n)
    rcases h.apart.find_spec hoff with ⟨hf', hk⟩ | ⟨n, hn, hf', hk⟩
    · obtain rfl := Option.some.inj (hf.symm.trans hf')
      cases heq
      exact ⟨ns, off, new, log, seq,
        h.quiet (by rw [hp]; rfl) (by rw [hp]; rfl) (by rw [hp]; rfl) hk⟩
    · obtain rfl := Option.some.inj (hf.symm.trans hf')
      cases heq
      exact ⟨ns, off, new, log, seq,
        h.quiet (by rw [hp]; rfl) (by rw [hp]; rfl) (by rw [hp]; rfl) ⟨hn, hk⟩⟩
  case pRemove key value n =>
    obtain ⟨l, hrem, -, rfl, rfl⟩ := hact
    have hoff : n ∉ off := h.notMem_off_of_sole (hwriter rfl) (by rw [hp]; rfl) n
    obtain ⟨pre, nxt, hrem', h'⟩ := h.takeOff (p := .pSet key value n) hown.1 hoff
      (by rw [hp]; rfl) rfl (by rw [hp]; rfl) (by rw [hp]; rfl) hown
    obtain rfl := Option.some.inj (hrem.symm.trans hrem')
    exact ⟨_, _, _, _, _, h'⟩
  case pSet key value n =>
    obtain ⟨-, rfl, rfl⟩ := hact
    obtain ⟨seq', h'⟩ := h.set hp (hwriter rfl) (hset n rfl)
    exact ⟨_, _, _, _, _, h'⟩
  case pPush key value n =>
    obtain ⟨l, hpush, -, rfl, rfl⟩ := hact
    obtain ⟨pre, nxt, hpush', h'⟩ := h.push_put hp
    obtain rfl := Option.some.inj (hpush.symm.trans hpush')
    exact ⟨_, _, _, _, _, h'⟩
  case pEvict key value =>
    obtain ⟨l, hevict, -, rfl, rfl⟩ := hact
    obtain ⟨ns', seq', h'⟩ := h.evict hp (hwriter rfl) hevict
    exact ⟨_, _, _, _, _, h'⟩
  case pNew key value =>
    obtain ⟨l, hpush, -, rfl, rfl⟩ := hact
    obtain ⟨lru', ns', hpush', h'⟩ := h.pushNew hp (hwriter rfl)
    obtain rfl := Option.some.inj (hpush.symm.trans hpush')
    exact ⟨_, _, _, _, _, h'⟩
  case pSize key value =>
    obtain ⟨-, rfl, rfl⟩ := hact
    exact ⟨_, _, _, _, _, h.size hp (hwriter rfl)⟩
  case pPost key value =>
    obtain ⟨l, q', -, -, rfl, rfl⟩ := hact
    have htook : (point i).status lru.data = .took (.put key value) none := by
      rw [hp]
      rfl
    exact ⟨ns, off, new, log, seq, h.ret htook (by rw [hp]; rfl) (by rw [hp]; rfl)⟩

omit [Fintype ι] in
/-- **The first step of a call.** -/
theorem Simulated.begin (h : Simulated lru₀ lru point hist) {op : Op κ V}
    (hout : point i = .out) (hbegin : LruConcurrent.begin lock op = some (lock', p')) :
    Simulated lru₀ lru (Function.update point i p') (hist ++ [.call i op]) := by
  obtain ⟨ns, off, new, log, seq, h⟩ := h
  refine ⟨ns, off, new, log, seq, ?_⟩
  cases op with
  | get key =>
      obtain ⟨⟨l, q⟩, -, heq⟩ := Option.map_eq_some_iff.mp hbegin
      cases heq
      exact h.call hout rfl rfl rfl trivial
  | put key value =>
      obtain ⟨⟨l, q⟩, -, heq⟩ := Option.map_eq_some_iff.mp hbegin
      cases heq
      exact h.call hout rfl rfl rfl trivial

/-! ## Runs -/

/-- **A calm step keeps the lock and the simulation.** -/
theorem CalmStep.keeps {s s' : State ι κ V} (h : CalmStep s s')
    (hinv : RwLock.Inv s.lock (phases s.point)) (hsim : Simulated lru₀ s.lru s.point s.hist) :
    RwLock.Inv s'.lock (phases s'.point) ∧ Simulated lru₀ s'.lru s'.point s'.hist := by
  obtain ⟨i, hcalm, hstep⟩ := h
  have hphases : ∀ p : Point κ V, phases (Function.update s.point i p) =
      Function.update (phases s.point) i p.phase := fun p => map_update Point.phase s.point i p
  rcases step_cases hstep with ⟨op, ops, lock, p, hout, hbegin, rfl⟩ | ⟨lock, lru, p, hact, rfl⟩
  · refine ⟨?_, hsim.begin hout hbegin⟩
    obtain ⟨kind, hmove⟩ := begin_lock hbegin
    show RwLock.Inv lock (phases (Function.update s.point i p))
    rw [hphases]
    have hmove' : RwLock.move kind s.lock (phases s.point i) = some (lock, p.phase) := by
      rw [show phases s.point i = .out by rw [phases, hout]; rfl]
      exact hmove
    exact hinv.move hcalm.alone hmove'
  · refine ⟨?_, hsim.act hinv hcalm hact⟩
    show RwLock.Inv lock (phases (Function.update s.point i p))
    rw [hphases]
    rcases act_lock hact with ⟨kind, hmove⟩ | ⟨rfl, hphase⟩
    · exact hinv.move hcalm.alone hmove
    · rw [hphase, show (s.point i).phase = phases s.point i from rfl, Function.update_eq_self]
      exact hinv

/-- **The simulation holds in every calm run.** -/
theorem simulated_of_calm {calls : ι → List (Op κ V)} {s : State ι κ V}
    (hlru : Holds lru₀ []) (h : Relation.ReflTransGen CalmStep (start lru₀ calls) s) :
    RwLock.Inv s.lock (phases s.point) ∧ Simulated lru₀ s.lru s.point s.hist := by
  induction h with
  | refl =>
      obtain ⟨ns, hchain, hes, -⟩ := id hlru
      obtain rfl : ns = [] := List.map_eq_nil_iff.mp hes.symm
      refine ⟨RwLock.inv_init, [], ∅, none, [], lru₀, hchain.apart List.nodup_nil, ?_,
        fun _ => trivial, ?_, .nil, rfl, hlru, rfl, rfl⟩
      · constructor
        · intro n
          simp [Point.inHand, start]
        · intro j k n hj
          exact absurd hj (by simp [Point.inHand, start])
      · constructor
        · intro j b hj
          exact absurd hj (by simp [Point.growing, start])
        · exact fun _ => rfl
  | tail _ hstep ih => exact hstep.keeps ih.1 ih.2

omit [Fintype ι] in
/-- What the simulation says about the run. -/
theorem Sim.explains {s : State ι κ V} {ns : List ℕ} {off : Finset ℕ}
    {new : Option (Option (κ × V))} {log : List (Effect ι (Op κ V) (Option V))}
    {seq : LRUCache κ V} (h : Sim lru₀ s.lru s.point s.hist ns off new log seq) :
    Explains lru₀ s log seq (ns.filter fun n => decide (n ∉ off))
      (entriesAt s.lru ns ++ new.join.toList) where
  chain := h.apart.chain
  keys := h.apart.keys.sublist (List.filter_sublist.map _)
  order := ⟨_, h.history⟩
  run := h.run
  holds := h.agrees.holds
  kept := by
    intro k hk
    rw [List.map_append, List.mem_append] at hk
    rcases hk with hk | hk
    · obtain ⟨e, he, rfl⟩ := List.mem_map.mp hk
      obtain ⟨n, hn, rfl⟩ := List.mem_map.mp he
      by_cases hoff : n ∈ off
      · obtain ⟨j, hj⟩ := (h.hands.mem n).mp hoff
        exact Or.inr ⟨j, (h.owns j).of_inHand hj⟩
      · exact Or.inl (List.mem_map_of_mem (List.mem_filter.mpr ⟨hn, decide_eq_true hoff⟩))
    · -- the new entry, on its way to the list
      obtain ⟨⟨k', v⟩, hnew, rfl⟩ := List.mem_map.mp hk
      rw [Option.mem_toList, Option.join_eq_some_iff] at hnew
      subst hnew
      obtain ⟨j, hj⟩ := h.growing.exists
      refine Or.inr ⟨j, ?_⟩
      cases hp : s.point j <;> simp [hp, Point.growing] at hj
      simp [Point.holding, hj]
  final := by
    intro hout
    have hoff : off = ∅ := Finset.eq_empty_of_forall_notMem fun n hn => by
      obtain ⟨j, hj⟩ := (h.hands.mem n).mp hn
      rw [hout j] at hj
      exact absurd hj (by simp [Point.inHand])
    have hnew : new = none := h.growing.eq_none fun j => by rw [hout j]; rfl
    subst hoff
    subst hnew
    refine ⟨by simp, h.agrees.size.symm, fun i => ?_⟩
    have hops := h.history.ops i
    have hresults := h.history.results i
    rw [hout i] at hops hresults
    exact ⟨by simpa [Point.status, Status.waiting] using hops.symm,
      by simpa [Point.status, Status.unreturned] using hresults.symm⟩

/-- **Calm runs are linearizable**: in every state the list is well formed, and the
calls so far have returned, and left on the list, what they would have in some
sequential order, in which each stands between its start and its return. -/
theorem linearizable_of_calm {c : ℤ} {m : LRUCache κ V} (hbrk : 0 < m.brk)
    {calls : ι → List (Op κ V)} {s : State ι κ V}
    (h : Relation.ReflTransGen CalmStep (start (lruInit c m) calls) s) :
    Linearizable (lruInit c m) s := by
  have hlru : Holds (lruInit c m) [] := holds_lruInit c m hbrk
  obtain ⟨-, ns, off, new, log, seq, hsim⟩ := simulated_of_calm hlru h
  exact ⟨log, seq, _, _, hsim.explains⟩

/-- A get that returns its value after another thread has evicted the key. -/
theorem linearizable_two_threads : ∃ s,
    runSteps (fun s i => decide (Calm s.point i))
      (start (lruInit 1 zeroed) ![[.put 7 70, .get 7], [.put 8 80]])
      (List.replicate 18 0 ++ [1, 0, 1, 1, 1, 0, 1, 1]) = some s ∧
    Linearizable (lruInit 1 zeroed) s := by
  obtain ⟨s, hs⟩ : ∃ s, runSteps (fun s i => decide (Calm s.point i))
      (start (lruInit 1 zeroed) ![[.put 7 70, .get 7], [.put 8 80]])
      (List.replicate 18 0 ++ [1, 0, 1, 1, 1, 0, 1, 1]) = some s :=
    Option.isSome_iff_exists.mp (by decide)
  exact ⟨s, hs, linearizable_of_calm (by decide) (calm_runSteps hs)⟩

/-- Two gets of one key: both find the node and take it off the list, and both push
it back.  The node is then its own predecessor. -/
theorem not_linearizable_two_gets : ¬ ∀ s, Relation.ReflTransGen Step
    (start (lruInit 2 zeroed) ![[.put 7 70, .get 7], [.get 7]]) s →
      Linearizable (lruInit 2 zeroed) s := by
  intro h
  have hval : (runSteps (fun _ _ => true)
      (start (lruInit 2 zeroed) ![[.put 7 70, .get 7], [.get 7]])
      (List.replicate 6 0 ++ List.replicate 5 0 ++ List.replicate 4 1 ++
        [0, 1, 0, 1, 0, 1])).map
      (fun s => decide (s.lru.pre (s.lru.nxt s.lru.head) = s.lru.head)) = some false := by
    decide
  obtain ⟨s, hs, hbad⟩ := Option.map_eq_some_iff.mp hval
  obtain ⟨log, seq, ns, es, hexp⟩ := h s (step_runSteps hs)
  exact of_decide_eq_false hbad hexp.chain.pre_nxt_head

end LruConcurrent
