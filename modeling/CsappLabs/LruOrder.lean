/-
# The list in the order of use

What a history of calls leaves on the list, node by node.  The list can be walked in both
directions; its nodes have different keys, come in the order in which their keys were last
used, and hold what was last put.  A call takes a node off the list for good only when it
evicts, and then it is the first one.

None of this depends on `size`, except that an empty list has size 0: that an eviction finds
a node.
-/
import CsappLabs.LruRecency

open LinkedChain

namespace Lru

variable {κ V : Type}

/-! ## What a call does to the list -/

/-- What a call does when the nodes on the list are `ns`: its result, and the cache and the
nodes afterwards. -/
inductive Effect (lru : LRUCache κ V) (ns : List ℕ) :
    Op κ V → Option V → LRUCache κ V → List ℕ → Prop
  /-- The key is not on the list. -/
  | miss (k : κ) (hk : k ∉ ns.map lru.key) : Effect lru ns (.get k) none lru ns
  /-- The node of the key goes to the end. -/
  | hit (l₁ l₂ : List ℕ) (n : ℕ) (pre nxt : ℕ → ℕ) (hns : ns = l₁ ++ n :: l₂) :
      Effect lru ns (.get (lru.key n)) (some (lru.data n)) { lru with pre := pre, nxt := nxt }
        (l₁ ++ l₂ ++ [n])
  /-- The node of the key gets the value and goes to the end. -/
  | overwrite (l₁ l₂ : List ℕ) (n : ℕ) (v : V) (pre nxt : ℕ → ℕ) (hns : ns = l₁ ++ n :: l₂) :
      Effect lru ns (.put (lru.key n) v) none
        { lru with pre := pre, nxt := nxt, data := Function.update lru.data n v }
        (l₁ ++ l₂ ++ [n])
  /-- A new node, after the eviction when the cache is full. -/
  | add (k : κ) (v : V) (pre nxt : ℕ → ℕ) (hk : k ∉ ns.map lru.key) :
      Effect lru ns (.put k v) none
        { lru with
          brk := lru.brk + 1
          key := Function.update lru.key lru.brk k
          data := Function.update lru.data lru.brk v
          pre := pre
          nxt := nxt
          size := incInt lru.size }
        ((if lru.capacity = lru.size then ns.tail else ns) ++ [lru.brk])

/-- The last node is that of the key, with the value. -/
def LastIs (lru : LRUCache κ V) (ns : List ℕ) (k : κ) (v : V) : Prop :=
  ∃ n, ns.getLast? = some n ∧ lru.key n = k ∧ lru.data n = v

/-- **What was used last is last on the list**: what was put, and what was found. -/
theorem Effect.last {lru lru' : LRUCache κ V} {ns ns' : List ℕ} {op : Op κ V} {r : Option V}
    (h : Effect lru ns op r lru' ns') :
    (∀ k v, op = .put k v → LastIs lru' ns' k v) ∧
      ∀ k v, op = .get k → r = some v → LastIs lru' ns' k v := by
  cases h with
  | miss k hk => exact ⟨nofun, fun _ _ _ => nofun⟩
  | hit l₁ l₂ n pre nxt hns =>
      refine ⟨nofun, ?_⟩
      rintro k v ⟨⟩ ⟨⟩
      exact ⟨n, List.getLast?_concat .., rfl, rfl⟩
  | overwrite l₁ l₂ n v pre nxt hns =>
      refine ⟨?_, nofun⟩
      rintro k v' ⟨⟩
      exact ⟨n, List.getLast?_concat .., rfl, Function.update_self ..⟩
  | add k v pre nxt hk =>
      refine ⟨?_, nofun⟩
      rintro k' v' ⟨⟩
      exact ⟨_, List.getLast?_concat .., Function.update_self .., Function.update_self ..⟩

section

variable [DecidableEq κ] {lru : LRUCache κ V} {ns : List ℕ}

/-- **`lru_find`** splits the list at the node of the key. -/
theorem Chain.find_cases (h : Chain lru ns) (k : κ) :
    (lruFind lru k = some none ∧ k ∉ ns.map lru.key) ∨
      ∃ l₁ n l₂, ns = l₁ ++ n :: l₂ ∧ lruFind lru k = some (some n) ∧ lru.key n = k := by
  rw [h.lruFind_eq]
  cases hfind : ns.find? fun n => decide (lru.key n = k) with
  | none =>
      refine Or.inl ⟨rfl, fun hk => ?_⟩
      obtain ⟨n, hn, hkey⟩ := List.mem_map.mp hk
      exact List.find?_eq_none.mp hfind n hn (decide_eq_true hkey)
  | some n =>
      obtain ⟨hkey, l₁, l₂, hns, -⟩ := List.find?_eq_some_iff_append.mp hfind
      exact Or.inr ⟨l₁, n, l₂, hns, rfl, of_decide_eq_true hkey⟩

omit [DecidableEq κ] in
/-- The eviction of a list that is not empty when the cache is full. -/
theorem Chain.evict_cases (h : Chain lru ns) (hne : lru.capacity = lru.size → ns ≠ []) :
    ∃ pre nxt, evict lru = some { lru with pre := pre, nxt := nxt } ∧
      Chain { lru with pre := pre, nxt := nxt }
        (if lru.capacity = lru.size then ns.tail else ns) := by
  by_cases hfull : lru.capacity = lru.size
  · rw [if_pos hfull]
    cases ns with
    | nil => exact absurd rfl (hne hfull)
    | cons n ns => exact h.evict_spec hfull
  · rw [if_neg hfull]
    exact ⟨lru.pre, lru.nxt, by rw [evict, if_neg hfull], h⟩

/-- **Every call returns**, and has one of the effects. -/
theorem Chain.step (h : Chain lru ns) (hne : lru.capacity = lru.size → ns ≠ [])
    (op : Op κ V) : ∃ lru' r ns', stepOp lru op = some (lru', r) ∧ Chain lru' ns' ∧
      Effect lru ns op r lru' ns' := by
  cases op with
  | get k =>
      rcases h.find_cases k with ⟨hfind, hk⟩ | ⟨l₁, n, l₂, rfl, hfind, rfl⟩
      · refine ⟨lru, none, ns, ?_, h, .miss k hk⟩
        simp only [stepOp, lruGet, hfind, Option.bind_eq_bind, Option.bind_some]
      · obtain ⟨pre, nxt, pre', nxt', hrem, hpush, hc⟩ := h.move lru.data
        refine ⟨_, some (lru.data n), _, ?_, hc, .hit l₁ l₂ n pre' nxt' rfl⟩
        simp only [stepOp, lruGet, hfind, hrem, Option.bind_eq_bind, Option.bind_some]
        rw [hpush, Option.bind_some]
  | put k v =>
      rcases h.find_cases k with ⟨hfind, hk⟩ | ⟨l₁, n, l₂, rfl, hfind, rfl⟩
      · obtain ⟨pre, nxt, hevict, hc⟩ := h.evict_cases hne
        obtain ⟨pre', nxt', hins, hc'⟩ := hc.insert_spec k v
        refine ⟨_, none, _, ?_, hc', .add k v pre' nxt' hk⟩
        simp only [stepOp, lruPut, hfind, hevict, hins, Option.bind_eq_bind, Option.bind_some,
          Option.map_some]
      · obtain ⟨pre, nxt, pre', nxt', hrem, hpush, hc⟩ := h.move (Function.update lru.data n v)
        refine ⟨_, none, _, ?_, hc, .overwrite l₁ l₂ n v pre' nxt' rfl⟩
        simp only [stepOp, lruPut, hfind, hrem, Option.bind_eq_bind, Option.bind_some]
        rw [hpush, Option.map_some]

end

/-! ## The order of use -/

/-- The key that a call uses: a put does, and a get that finds it. -/
def usedKey : Op κ V → Option V → Option κ
  | .put k _, _ => some k
  | .get k, some _ => some k
  | .get _, none => none

/-- The keys that the calls used, one after the other. -/
def uses (ops : List (Op κ V)) (rs : List (Option V)) : List κ :=
  (ops.zip rs).filterMap fun call => usedKey call.1 call.2

/-- One more call. -/
theorem uses_append {ops : List (Op κ V)} {rs : List (Option V)} (hlen : ops.length = rs.length)
    (op : Op κ V) (r : Option V) :
    uses (ops ++ [op]) (rs ++ [r]) = uses ops rs ++ (usedKey op r).toList := by
  rw [uses, List.zip_append hlen, List.filterMap_append]
  rfl

section

variable [DecidableEq κ]

/-- How many uses ago a key was last used. -/
def age (us : List κ) (k : κ) : ℕ := us.reverse.idxOf k

/-- The keys are in the order of their last use. -/
def ByAge (us : List κ) (ks : List κ) : Prop := ks.Pairwise fun a b => age us b < age us a

@[simp] theorem age_append_self (us : List κ) (k : κ) : age (us ++ [k]) k = 0 := by
  simp [age]

theorem age_append_of_ne (us : List κ) {j k : κ} (h : j ≠ k) :
    age (us ++ [k]) j = age us j + 1 := by
  simp only [age, List.reverse_append, List.reverse_singleton, List.singleton_append]
  exact List.idxOf_cons_ne us.reverse (Ne.symm h)

/-- **A used key comes last.** -/
theorem ByAge.use {us ks : List κ} (h : ByAge us ks) {k : κ} (hk : k ∉ ks) :
    ByAge (us ++ [k]) (ks ++ [k]) := by
  have hne : ∀ j ∈ ks, j ≠ k := by
    rintro j hj rfl
    exact hk hj
  refine List.pairwise_append.mpr ⟨?_, List.pairwise_singleton _ _, ?_⟩
  · refine List.Pairwise.imp_of_mem ?_ h
    intro a b ha hb hlt
    rw [age_append_of_ne us (hne a ha), age_append_of_ne us (hne b hb)]
    omega
  · intro a ha b hb
    rw [List.mem_singleton.mp hb, age_append_self, age_append_of_ne us (hne a ha)]
    omega

/-- Keys in the order of use are different. -/
theorem ByAge.nodup {us ks : List κ} (h : ByAge us ks) : ks.Nodup := by
  refine h.imp fun {a b} hlt => ?_
  rintro rfl
  exact lt_irrefl _ hlt

/-- What a call puts for a key. -/
def putValue (k : κ) : Op κ V → Option V
  | .get _ => none
  | .put j v => if j = k then some v else none

/-- The value of the last put of a key. -/
def lastPut (ops : List (Op κ V)) (k : κ) : Option V := ops.reverse.findSome? (putValue k)

theorem lastPut_append (ops : List (Op κ V)) (op : Op κ V) (k : κ) :
    lastPut (ops ++ [op]) k = (putValue k op).or (lastPut ops k) := by
  simp only [lastPut, List.reverse_append, List.reverse_singleton, List.singleton_append,
    List.findSome?_cons]
  cases putValue k op <;> rfl

@[simp] theorem lastPut_get (ops : List (Op κ V)) (j k : κ) :
    lastPut (ops ++ [.get j]) k = lastPut ops k := lastPut_append ops _ k

@[simp] theorem lastPut_put_self (ops : List (Op κ V)) (k : κ) (v : V) :
    lastPut (ops ++ [.put k v]) k = some v := by
  rw [lastPut_append, putValue, if_pos rfl]
  rfl

theorem lastPut_put_of_ne (ops : List (Op κ V)) {j k : κ} (v : V) (h : k ≠ j) :
    lastPut (ops ++ [.put j v]) k = lastPut ops k := by
  rw [lastPut_append, putValue, if_neg (Ne.symm h)]
  rfl

end

/-! ## Walking back -/

/-- The walk from a node back to the head. -/
def walkBack (lru : LRUCache κ V) : ℕ → ℕ → Option (List ℕ)
  | 0, _ => none
  | fuel + 1, curr =>
      if curr = lru.head then some []
      else if curr = 0 then none
      else (walkBack lru fuel (lru.pre curr)).map (curr :: ·)

/-- The nodes on the list, from the last one to the first. -/
def nodesBack (lru : LRUCache κ V) : Option (List ℕ) :=
  walkBack lru (lru.brk + 1) (lru.pre lru.tail)

/-- The walk back from the node after `l`. -/
theorem walkBack_eq {lru : LRUCache κ V} {x : ℕ} {l : List ℕ} {fuel : ℕ}
    (h : Linked lru.nxt lru.pre (fun _ => True) (lru.head :: l ++ [x])) (hhead : lru.head ∉ l)
    (hpos : ∀ n ∈ l, 0 < n) (hfuel : l.length < fuel) :
    walkBack lru fuel (lru.pre x) = some l.reverse := by
  induction l using List.reverseRecOn generalizing x fuel with
  | nil =>
      obtain ⟨f, rfl⟩ : ∃ f, fuel = f + 1 := ⟨fuel - 1, by simp at hfuel; omega⟩
      have hx : lru.pre x = lru.head := h.2.1 trivial
      rw [hx, walkBack, if_pos rfl, List.reverse_nil]
  | append_singleton l y ih =>
      rw [List.length_append, List.length_singleton] at hfuel
      obtain ⟨f, rfl⟩ : ∃ f, fuel = f + 1 := ⟨fuel - 1, by omega⟩
      have hseq : lru.head :: (l ++ [y]) ++ [x] = lru.head :: l ++ y :: [x] := by simp
      rw [hseq] at h
      have hx : lru.pre x = y := h.prv_eq trivial
      have hy : y ≠ lru.head := by
        rintro rfl
        exact hhead (by simp)
      have hy0 : y ≠ 0 := (hpos y (by simp)).ne'
      have hrest : walkBack lru f (lru.pre y) = some l.reverse :=
        ih ((linked_append_cons _ _ _).mp h).1
          (fun hm => hhead (List.mem_append_left _ hm))
          (fun n hn => hpos n (List.mem_append_left _ hn)) (by omega)
      rw [hx, walkBack, if_neg hy, if_neg hy0, hrest, List.reverse_append]
      rfl

/-- The walk back finds the nodes of a well-formed list. -/
theorem Chain.nodesBack_eq {lru : LRUCache κ V} {ns : List ℕ} (h : Chain lru ns) :
    nodesBack lru = some ns.reverse := by
  refine walkBack_eq h.linked (fun hm => h.head_ne _ (List.mem_append_left _ hm) rfl)
    (fun n hn => (h.bounds n (by simp [hn])).1) ?_
  have := h.length_lt
  omega

/-! ## Histories -/

variable [DecidableEq κ]

/-- The nodes on the list are `ns`, after the calls `ops` with the results `rs`: the list
can be walked in both directions, its keys are different and in the order of use, and the
data are what was put. -/
structure Recent (lru : LRUCache κ V) (ops : List (Op κ V)) (rs : List (Option V))
    (ns : List ℕ) : Prop where
  forth : nodes lru = some ns
  back : nodesBack lru = some ns.reverse
  keys : (ns.map lru.key).Nodup
  used : ∀ n ∈ ns, lru.key n ∈ uses ops rs
  order : ns.Pairwise fun n m => age (uses ops rs) (lru.key m) < age (uses ops rs) (lru.key n)
  data : ∀ n ∈ ns, lastPut ops (lru.key n) = some (lru.data n)

/-- `lru_put` evicts: the key is not on the list, and the cache is full. -/
def Evicts (lru : LRUCache κ V) (ns : List ℕ) : Op κ V → Prop
  | .get _ => False
  | .put k _ => k ∉ ns.map lru.key ∧ lru.capacity = lru.size

/-- What every call keeps. -/
structure History (c : ℤ) (lru : LRUCache κ V) (ops : List (Op κ V)) (rs : List (Option V))
    (ns : List ℕ) : Prop where
  chain : Chain lru ns
  length : ops.length = rs.length
  used : ∀ n ∈ ns, lru.key n ∈ uses ops rs
  order : ByAge (uses ops rs) (ns.map lru.key)
  data : ∀ n ∈ ns, lastPut ops (lru.key n) = some (lru.data n)
  capacity : lru.capacity = c
  empty : ns = [] → lru.size = 0

theorem history_lruInit (c : ℤ) (m : LRUCache κ V) (hbrk : 0 < m.brk) (hsize : m.size = 0) :
    History c (lruInit c m) [] [] [] where
  chain := chain_lruInit c m hbrk
  length := rfl
  used := by simp
  order := List.Pairwise.nil
  data := by simp
  capacity := rfl
  empty := fun _ => hsize

namespace History

variable {c : ℤ} {lru lru' : LRUCache κ V} {ops : List (Op κ V)} {rs : List (Option V)}
  {ns ns' : List ℕ} {op : Op κ V} {r : Option V}

theorem recent (h : History c lru ops rs ns) : Recent lru ops rs ns where
  forth := h.chain.nodes_eq
  back := h.chain.nodesBack_eq
  keys := h.order.nodup
  used := h.used
  order := List.pairwise_map.mp h.order
  data := h.data

/-- A list with a node is not full and empty at once. -/
theorem ne_nil (h : History c lru ops rs ns) (hc : 1 ≤ c) (hfull : lru.capacity = lru.size) :
    ns ≠ [] := by
  intro hnil
  have := h.empty hnil
  have := h.capacity
  omega

/-- The nodes that stay when `k` is used: the others, in the same order. -/
theorem use_order (h : History c lru ops rs ns) {l : List ℕ} (hl : l.Sublist ns) {k : κ}
    (hk : k ∉ l.map lru.key) : ByAge (uses ops rs ++ [k]) (l.map lru.key ++ [k]) :=
  ByAge.use (h.order.sublist (hl.map lru.key)) hk

/-- The other keys than that of a node. -/
theorem key_not_mem {l₁ l₂ : List ℕ} {n : ℕ} (h : History c lru ops rs (l₁ ++ n :: l₂)) :
    lru.key n ∉ (l₁ ++ l₂).map lru.key := by
  have hnd := h.order.nodup
  rw [List.map_append, List.map_cons, List.nodup_middle, List.nodup_cons, ← List.map_append] at hnd
  exact hnd.1

theorem sublist_split (l₁ : List ℕ) (n : ℕ) (l₂ : List ℕ) : (l₁ ++ l₂).Sublist (l₁ ++ n :: l₂) :=
  (List.sublist_cons_self n l₂).append_left l₁

/-- A node that is used goes to the end. -/
theorem moved {l₁ l₂ : List ℕ} {n : ℕ} (h : History c lru ops rs (l₁ ++ n :: l₂)) :
    (∀ m ∈ l₁ ++ l₂ ++ [n], lru.key m ∈ uses ops rs ++ [lru.key n]) ∧
      ByAge (uses ops rs ++ [lru.key n]) ((l₁ ++ l₂ ++ [n]).map lru.key) := by
  constructor
  · intro m hm
    exact List.mem_append_left _ (h.used m (by simp at hm ⊢; tauto))
  · rw [List.map_append]
    exact h.use_order (sublist_split l₁ n l₂) h.key_not_mem

/-- A list of nodes with the data that were put, and a node for the key of one more put. -/
theorem put_data {key : ℕ → κ} {data : ℕ → V} {l : List ℕ} {n : ℕ} {k : κ} (v : V)
    (hn : key n = k) (hkey : ∀ m ∈ l, key m ≠ k)
    (hdata : ∀ m ∈ l, lastPut ops (key m) = some (data m)) :
    ∀ m ∈ l ++ [n], lastPut (ops ++ [.put k v]) (key m) = some (Function.update data n v m) := by
  intro m hm
  rcases List.mem_append.mp hm with hm | hm
  · have hmn : m ≠ n := fun heq => hkey m hm (heq ▸ hn)
    rw [lastPut_put_of_ne ops v (hkey m hm), Function.update_of_ne hmn]
    exact hdata m hm
  · rw [List.mem_singleton.mp hm, hn, lastPut_put_self, Function.update_self]

/-- **Every effect keeps the history.** -/
theorem step (h : History c lru ops rs ns) (hchain : Chain lru' ns')
    (heff : Effect lru ns op r lru' ns') :
    History c lru' (ops ++ [op]) (rs ++ [r]) ns' := by
  have hlen : (ops ++ [op]).length = (rs ++ [r]).length := by simp [h.length]
  cases heff with
  | miss k hk =>
      have huses : uses (ops ++ [Op.get k]) (rs ++ [none]) = uses ops rs := by
        rw [uses_append h.length]
        exact List.append_nil _
      refine ⟨hchain, hlen, ?_, ?_, fun n hn => ?_, h.capacity, h.empty⟩
      · rw [huses]
        exact h.used
      · rw [huses]
        exact h.order
      · rw [lastPut_get]
        exact h.data n hn
  | hit l₁ l₂ n pre nxt hns =>
      subst hns
      have huses : uses (ops ++ [Op.get (lru.key n)]) (rs ++ [some (lru.data n)]) =
          uses ops rs ++ [lru.key n] := uses_append h.length ..
      refine ⟨hchain, hlen, ?_, ?_, fun m hm => ?_, h.capacity, by simp⟩
      · rw [huses]
        exact h.moved.1
      · rw [huses]
        exact h.moved.2
      · rw [lastPut_get]
        exact h.data m (by simp at hm ⊢; tauto)
  | overwrite l₁ l₂ n v pre nxt hns =>
      subst hns
      have huses : uses (ops ++ [Op.put (lru.key n) v]) (rs ++ [none]) =
          uses ops rs ++ [lru.key n] := uses_append h.length ..
      refine ⟨hchain, hlen, ?_, ?_, ?_, h.capacity, by simp⟩
      · rw [huses]
        exact h.moved.1
      · rw [huses]
        exact h.moved.2
      · apply put_data v rfl
        · intro m hm heq
          exact h.key_not_mem (heq ▸ List.mem_map_of_mem hm)
        · exact fun m hm => h.data m ((sublist_split l₁ n l₂).subset hm)
  | add k v pre nxt hk =>
      have huses : uses (ops ++ [Op.put k v]) (rs ++ [none]) = uses ops rs ++ [k] :=
        uses_append h.length ..
      have hsub : (if lru.capacity = lru.size then ns.tail else ns).Sublist ns := by
        split_ifs
        · exact List.tail_sublist ns
        · exact List.Sublist.refl ns
      generalize (if lru.capacity = lru.size then ns.tail else ns) = l at hchain hsub
      -- the old nodes keep their keys and data
      have hold : ∀ m ∈ l, Function.update lru.key lru.brk k m = lru.key m := fun m hm =>
        Function.update_of_ne (h.chain.bounds m (by simp [hsub.subset hm])).2.ne ..
      have hkl : k ∉ l.map lru.key := fun hm => hk ((hsub.map lru.key).subset hm)
      refine ⟨hchain, hlen, fun m hm => ?_, ?_, ?_, h.capacity, by simp⟩
      · rw [huses]
        show Function.update lru.key lru.brk k m ∈ _
        rcases List.mem_append.mp hm with hm | hm
        · rw [hold m hm]
          exact List.mem_append_left _ (h.used m (hsub.subset hm))
        · rw [List.mem_singleton.mp hm, Function.update_self]
          exact List.mem_append_right _ (List.mem_singleton_self k)
      · show ByAge _ ((l ++ [lru.brk]).map (Function.update lru.key lru.brk k))
        rw [huses, List.map_append, List.map_congr_left hold, List.map_singleton,
          Function.update_self]
        exact h.use_order hsub hkl
      · show ∀ m ∈ l ++ [lru.brk],
          lastPut (ops ++ [.put k v]) (Function.update lru.key lru.brk k m) =
            some (Function.update lru.data lru.brk v m)
        apply put_data v (Function.update_self ..)
        · intro m hm heq
          rw [hold m hm] at heq
          exact hkl (heq ▸ List.mem_map_of_mem hm)
        · intro m hm
          rw [hold m hm]
          exact h.data m (hsub.subset hm)

/-- **What a call removes**: the first node when it evicts, and nothing otherwise. -/
theorem removed (h : History c lru ops rs ns) (hc : 1 ≤ c) (heff : Effect lru ns op r lru' ns') :
    (Evicts lru ns op →
      ∃ n, ns.head? = some n ∧ ns.filter (fun m => decide (m ∉ ns')) = [n]) ∧
    (¬ Evicts lru ns op → ∀ n ∈ ns, n ∈ ns') := by
  cases heff with
  | miss k hk => exact ⟨False.elim, fun _ n hn => hn⟩
  | hit l₁ l₂ n pre nxt hns =>
      subst hns
      refine ⟨False.elim, fun _ m hm => ?_⟩
      simp only [List.mem_append, List.mem_cons, List.not_mem_nil, or_false] at hm ⊢
      tauto
  | overwrite l₁ l₂ n v pre nxt hns =>
      subst hns
      refine ⟨fun hev => absurd (List.mem_map_of_mem (by simp)) hev.1, fun _ m hm => ?_⟩
      simp only [List.mem_append, List.mem_cons, List.not_mem_nil, or_false] at hm ⊢
      tauto
  | add k v pre nxt hk =>
      constructor
      · rintro ⟨-, hfull⟩
        rw [if_pos hfull]
        cases ns with
        | nil => exact absurd rfl (h.ne_nil hc hfull)
        | cons n ns =>
            have hnd : (n :: ns).Nodup := h.order.nodup.of_map
            have hbrk : n ≠ lru.brk := (h.chain.bounds n (by simp)).2.ne
            refine ⟨n, rfl, ?_⟩
            have hn : n ∉ ns ++ [lru.brk] := by
              simp [(List.nodup_cons.mp hnd).1, hbrk]
            rw [List.tail_cons, List.filter_cons, if_pos (decide_eq_true hn)]
            congr 1
            refine List.filter_eq_nil_iff.mpr fun m hm hnot => ?_
            exact of_decide_eq_true hnot (List.mem_append_left _ hm)
      · intro hev n hn
        rw [if_neg fun hfull => hev ⟨hk, hfull⟩]
        exact List.mem_append_left _ hn

end History

/-- Every run of calls returns, and has its history. -/
theorem exists_history {c : ℤ} (hc : 1 ≤ c) (m : LRUCache κ V) (hbrk : 0 < m.brk)
    (hsize : m.size = 0) (ops : List (Op κ V)) :
    ∃ lru rs ns, runOps (lruInit c m) ops = some (lru, rs) ∧ History c lru ops rs ns := by
  induction ops using List.reverseRecOn with
  | nil => exact ⟨_, _, _, rfl, history_lruInit c m hbrk hsize⟩
  | append_singleton ops op ih =>
      obtain ⟨lru, rs, ns, hrun, h⟩ := ih
      obtain ⟨lru', r, ns', hstep, hchain, heff⟩ := h.chain.step (h.ne_nil hc) op
      exact ⟨lru', rs ++ [r], ns', runOps_append hrun hstep, h.step hchain heff⟩

/-- **The list is a faithful recency list.**  From `lru_init` with a capacity of at least
one, on memory where `size` is 0, every run of calls leaves a list that can be walked in both
directions, with different keys in the order of use and what was last put for each; and
whatever is called next takes off the first node when it evicts, and none otherwise, and has
the key that it puts or finds last on the list, with its value. -/
theorem recency_list {c : ℤ} (hc : 1 ≤ c) (m : LRUCache κ V) (hbrk : 0 < m.brk)
    (hsize : m.size = 0) (ops : List (Op κ V)) :
    ∃ lru rs ns, runOps (lruInit c m) ops = some (lru, rs) ∧ Recent lru ops rs ns ∧
      ∀ op, ∃ lru' r ns', stepOp lru op = some (lru', r) ∧ nodes lru' = some ns' ∧
        (Evicts lru ns op →
          ∃ n, ns.head? = some n ∧ ns.filter (fun m => decide (m ∉ ns')) = [n]) ∧
        (¬ Evicts lru ns op → ∀ n ∈ ns, n ∈ ns') ∧
        (∀ k v, op = .put k v → LastIs lru' ns' k v) ∧
        ∀ k v, op = .get k → r = some v → LastIs lru' ns' k v := by
  obtain ⟨lru, rs, ns, hrun, h⟩ := exists_history hc m hbrk hsize ops
  refine ⟨lru, rs, ns, hrun, h.recent, fun op => ?_⟩
  obtain ⟨lru', r, ns', hstep, hchain, heff⟩ := h.chain.step (h.ne_nil hc) op
  obtain ⟨hevicts, hkeeps⟩ := h.removed hc heff
  exact ⟨lru', r, ns', hstep, hchain.nodes_eq, hevicts, hkeeps, heff.last⟩

/-- A cache of two entries, after an eviction, an overwrite and a hit, and what is put next. -/
theorem recency_list_small : ∃ lru rs ns, runOps (lruInit 2 zeroed)
      [.put 7 70, .put 8 80, .put 9 90, .put 8 81, .get 9] = some (lru, rs) ∧
    Recent lru [.put 7 70, .put 8 80, .put 9 90, .put 8 81, .get 9] rs ns ∧
    ∃ lru' r ns', stepOp lru (.put 7 71) = some (lru', r) ∧ nodes lru' = some ns' ∧
      LastIs lru' ns' 7 71 := by
  obtain ⟨lru, rs, ns, hrun, hrecent, hnext⟩ := recency_list (c := 2) (by decide) zeroed
    (by decide) rfl [.put 7 70, .put 8 80, .put 9 90, .put 8 81, .get 9]
  obtain ⟨lru', r, ns', hstep, hnodes, -, -, hlast, -⟩ := hnext (.put 7 71)
  exact ⟨lru, rs, ns, hrun, hrecent, lru', r, ns', hstep, hnodes, hlast 7 71 rfl⟩

end Lru
