/-
# The cache as a recency list

What a well-formed cache stands for: the list of its keys and values, least
recently used first.  `lru_get` and `lru_put`, called one at a time, are the list
operations `getEntries` and `putEntries`.

`specStep` says what an LRU cache of `c` entries returns, in terms of the list of
all keys by their last use.  The cache of `lru.c` agrees with it, and its `size`
with the number of its nodes, until an entry is evicted: the eviction does not
decrement `size` (`bounded_iff`).
-/
import CsappLabs.Lru

open LinkedChain

namespace Lru

variable {κ V : Type}

/-! ## The list operations -/

/-- The value of a key. -/
def valueOf [DecidableEq κ] (k : κ) (es : List (κ × V)) : Option V :=
  (es.find? fun e => decide (e.1 = k)).map Prod.snd

/-- The entries of the other keys. -/
def dropKey [DecidableEq κ] (k : κ) (es : List (κ × V)) : List (κ × V) :=
  es.filter fun e => decide (e.1 ≠ k)

/-- A hit moves the entry to the end. -/
def getEntries [DecidableEq κ] (k : κ) (es : List (κ × V)) : List (κ × V) :=
  match valueOf k es with
  | some v => dropKey k es ++ [(k, v)]
  | none => es

/-- An overwritten entry moves to the end; a new one goes to the end of what
`lru_put` keeps. -/
def putEntries [DecidableEq κ] (full : Bool) (k : κ) (v : V) (es : List (κ × V)) : List (κ × V) :=
  match valueOf k es with
  | some _ => dropKey k es ++ [(k, v)]
  | none => (if full then es.tail else es) ++ [(k, v)]

section

variable [DecidableEq κ] {k : κ} {es : List (κ × V)}

theorem valueOf_eq_none : valueOf k es = none ↔ k ∉ es.map Prod.fst := by
  simp [valueOf, List.find?_eq_none]
  grind

/-- A key that is found splits the list. -/
theorem valueOf_eq_some {v : V} (hnd : (es.map Prod.fst).Nodup) :
    valueOf k es = some v ↔ ∃ l₁ l₂, es = l₁ ++ (k, v) :: l₂ := by
  constructor
  · intro h
    obtain ⟨⟨k', v'⟩, hfind, rfl⟩ := Option.map_eq_some_iff.mp h
    obtain ⟨hk, l₁, l₂, hes, -⟩ := List.find?_eq_some_iff_append.mp hfind
    obtain rfl : k' = k := by simpa using hk
    exact ⟨l₁, l₂, hes⟩
  · rintro ⟨l₁, l₂, rfl⟩
    rw [List.map_append, List.map_cons, List.nodup_append] at hnd
    have hfind : (l₁ ++ (k, v) :: l₂).find? (fun e => decide (e.1 = k)) = some (k, v) := by
      refine List.find?_eq_some_iff_append.mpr ⟨by simp, l₁, l₂, rfl, fun e he => ?_⟩
      have := hnd.2.2 e.1 (List.mem_map_of_mem he) k (by simp)
      simpa using this
    rw [valueOf, hfind]
    rfl

/-- Dropping a key that is not there. -/
theorem dropKey_of_not_mem (hk : k ∉ es.map Prod.fst) : dropKey k es = es := by
  rw [dropKey, List.filter_eq_self]
  intro e he
  apply decide_eq_true
  rintro rfl
  exact hk (List.mem_map.mpr ⟨e, he, rfl⟩)

/-- Dropping the key at which a list splits. -/
theorem dropKey_split {v : V} {l₁ l₂ : List (κ × V)}
    (hnd : ((l₁ ++ (k, v) :: l₂).map Prod.fst).Nodup) :
    dropKey k (l₁ ++ (k, v) :: l₂) = l₁ ++ l₂ := by
  rw [List.map_append, List.map_cons, List.nodup_middle, List.nodup_cons] at hnd
  rw [← List.map_append] at hnd
  have hdrop := dropKey_of_not_mem hnd.1
  rw [dropKey, List.filter_append] at hdrop ⊢
  rw [List.filter_cons, if_neg (by simp), hdrop]

end

/-! ## What a cache stands for -/

/-- The keys and values at some nodes. -/
def entriesAt (lru : LRUCache κ V) (ns : List ℕ) : List (κ × V) :=
  ns.map fun n => (lru.key n, lru.data n)

/-- Entries are read off the keys and values of their nodes only. -/
theorem entriesAt_congr {lru lru' : LRUCache κ V} {ns : List ℕ}
    (hkey : ∀ n ∈ ns, lru'.key n = lru.key n) (hdata : ∀ n ∈ ns, lru'.data n = lru.data n) :
    entriesAt lru' ns = entriesAt lru ns :=
  List.map_congr_left fun n hn => by rw [hkey n hn, hdata n hn]

@[simp] theorem entriesAt_append (lru : LRUCache κ V) (xs ys : List ℕ) :
    entriesAt lru (xs ++ ys) = entriesAt lru xs ++ entriesAt lru ys := List.map_append

/-- The cache is well formed, and its entries, from head to tail, are `es`. -/
def Holds (lru : LRUCache κ V) (es : List (κ × V)) : Prop :=
  ∃ ns, Chain lru ns ∧ es = entriesAt lru ns ∧ (es.map Prod.fst).Nodup

/-- `lru_init` makes a cache without entries. -/
theorem holds_lruInit (capacity : ℤ) (m : LRUCache κ V) (hbrk : 0 < m.brk) :
    Holds (lruInit capacity m) [] :=
  ⟨[], chain_lruInit capacity m hbrk, rfl, List.nodup_nil⟩

/-- What `lru_find` finds. -/
theorem lruFind_entries [DecidableEq κ] {lru : LRUCache κ V} {ns : List ℕ} (h : Chain lru ns)
    (hnd : ((entriesAt lru ns).map Prod.fst).Nodup) (k : κ) :
    (lruFind lru k = some none ∧ valueOf k (entriesAt lru ns) = none) ∨
      ∃ l₁ n l₂, ns = l₁ ++ n :: l₂ ∧ lruFind lru k = some (some n) ∧ lru.key n = k ∧
        valueOf k (entriesAt lru ns) = some (lru.data n) ∧
        dropKey k (entriesAt lru ns) = entriesAt lru (l₁ ++ l₂) := by
  rw [h.lruFind_eq]
  cases hfind : ns.find? fun n => decide (lru.key n = k) with
  | none =>
      refine Or.inl ⟨rfl, valueOf_eq_none.mpr ?_⟩
      rw [List.find?_eq_none] at hfind
      simpa [entriesAt] using hfind
  | some n =>
      obtain ⟨hk, l₁, l₂, rfl, -⟩ := List.find?_eq_some_iff_append.mp hfind
      obtain rfl : lru.key n = k := by simpa using hk
      have hsplit : entriesAt lru (l₁ ++ n :: l₂) =
          entriesAt lru l₁ ++ (lru.key n, lru.data n) :: entriesAt lru l₂ := by
        simp [entriesAt]
      refine Or.inr ⟨l₁, n, l₂, rfl, rfl, rfl, ?_, ?_⟩
      · exact (valueOf_eq_some hnd).mpr ⟨_, _, hsplit⟩
      · rw [hsplit] at hnd ⊢
        rw [dropKey_split hnd]
        simp [entriesAt]

/-- A node may be moved to the end of the list. -/
theorem Chain.move {lru : LRUCache κ V} {l₁ l₂ : List ℕ} {n : ℕ}
    (h : Chain lru (l₁ ++ n :: l₂)) (data : ℕ → V) :
    ∃ pre nxt pre' nxt', lruRemove lru n = some { lru with pre := pre, nxt := nxt } ∧
      pushBack { lru with pre := pre, nxt := nxt, data := data } n =
        some { lru with pre := pre', nxt := nxt', data := data } ∧
      Chain { lru with pre := pre', nxt := nxt', data := data } (l₁ ++ l₂ ++ [n]) := by
  obtain ⟨pre, nxt, hrem, h₁⟩ := h.lruRemove_spec
  have h₁' : Chain { lru with pre := pre, nxt := nxt, data := data } (l₁ ++ l₂) :=
    h₁.of_data rfl rfl rfl rfl le_rfl
  have hnd := h.nodup
  have hnot : n ∉ lru.head :: (l₁ ++ l₂) ++ [lru.tail] := by
    have hseq : lru.head :: (l₁ ++ n :: l₂) ++ [lru.tail] =
        (lru.head :: l₁) ++ n :: (l₂ ++ [lru.tail]) := by simp
    rw [hseq, List.nodup_middle, List.nodup_cons] at hnd
    simpa using hnd.1
  have hb := h.bounds n (by simp)
  obtain ⟨pre', nxt', hpush, h₂⟩ := h₁'.pushBack_spec hnot hb.1 hb.2
  exact ⟨pre, nxt, pre', nxt', hrem, hpush, h₂⟩

/-- The eviction takes the first node. -/
theorem Chain.evict_spec {lru : LRUCache κ V} {n : ℕ} {ns : List ℕ} (h : Chain lru (n :: ns))
    (hfull : lru.capacity = lru.size) :
    ∃ pre nxt, evict lru = some { lru with pre := pre, nxt := nxt } ∧
      Chain { lru with pre := pre, nxt := nxt } ns := by
  have hnxt : lru.nxt lru.head = n := h.linked.1
  rw [← List.nil_append (n :: ns)] at h
  obtain ⟨pre, nxt, hrem, h'⟩ := h.lruRemove_spec
  refine ⟨pre, nxt, ?_, h'⟩
  rw [evict, if_pos hfull, hnxt, hrem]

/-- A new node is put at the end. -/
theorem Chain.pushNew_spec {lru : LRUCache κ V} {ns : List ℕ} (h : Chain lru ns) (k : κ) (v : V) :
    ∃ pre nxt, pushNew lru k v = some { lru with
        brk := lru.brk + 1
        key := Function.update lru.key lru.brk k
        data := Function.update lru.data lru.brk v
        pre := pre
        nxt := nxt } ∧
      Chain { lru with
        brk := lru.brk + 1
        key := Function.update lru.key lru.brk k
        data := Function.update lru.data lru.brk v
        pre := pre
        nxt := nxt } (ns ++ [lru.brk]) := by
  have h₁ : Chain { lru with
      brk := lru.brk + 1
      key := Function.update lru.key lru.brk k
      data := Function.update lru.data lru.brk v } ns :=
    h.of_data rfl rfl rfl rfl (Nat.le_succ _)
  have hnot : lru.brk ∉ lru.head :: ns ++ [lru.tail] := by
    intro hm
    exact absurd (h.bounds _ hm).2 (lt_irrefl _)
  have hpos : 0 < lru.brk := (h.bounds lru.head (by simp)).1.trans (h.bounds lru.head (by simp)).2
  obtain ⟨pre, nxt, hpush, h₂⟩ := h₁.pushBack_spec hnot hpos (Nat.lt_succ_self _)
  exact ⟨pre, nxt, hpush, h₂⟩

/-- A new node is put at the end, and counted. -/
theorem Chain.insert_spec {lru : LRUCache κ V} {ns : List ℕ} (h : Chain lru ns) (k : κ) (v : V) :
    ∃ pre nxt, insert lru k v = some { lru with
        brk := lru.brk + 1
        key := Function.update lru.key lru.brk k
        data := Function.update lru.data lru.brk v
        pre := pre
        nxt := nxt
        size := incInt lru.size } ∧
      Chain { lru with
        brk := lru.brk + 1
        key := Function.update lru.key lru.brk k
        data := Function.update lru.data lru.brk v
        pre := pre
        nxt := nxt
        size := incInt lru.size } (ns ++ [lru.brk]) := by
  obtain ⟨pre, nxt, hpush, h₁⟩ := h.pushNew_spec k v
  refine ⟨pre, nxt, ?_, h₁.of_data rfl rfl rfl rfl le_rfl⟩
  simp only [insert, hpush, Option.bind_eq_bind, Option.bind_some]

/-- The entry of a new node comes last. -/
theorem entriesAt_insert {lru lru' : LRUCache κ V} {ns : List ℕ} {k : κ} {v : V}
    (hbounds : ∀ n ∈ ns, n < lru.brk) (hkey : lru'.key = Function.update lru.key lru.brk k)
    (hdata : lru'.data = Function.update lru.data lru.brk v) :
    entriesAt lru' (ns ++ [lru.brk]) = entriesAt lru ns ++ [(k, v)] := by
  have hold : entriesAt lru' ns = entriesAt lru ns := by
    refine entriesAt_congr (fun n hn => ?_) (fun n hn => ?_)
    · rw [hkey, Function.update_of_ne (hbounds n hn).ne]
    · rw [hdata, Function.update_of_ne (hbounds n hn).ne]
  rw [entriesAt_append, hold]
  simp [entriesAt, hkey, hdata]

/-- The keys after an entry was moved to the end. -/
theorem nodup_moved {lru : LRUCache κ V} {l₁ l₂ : List ℕ} {n : ℕ}
    (h : ((entriesAt lru (l₁ ++ n :: l₂)).map Prod.fst).Nodup) :
    ((entriesAt lru (l₁ ++ l₂ ++ [n])).map Prod.fst).Nodup := by
  have hperm : (l₁ ++ l₂ ++ [n]).Perm (l₁ ++ n :: l₂) := by
    rw [List.append_assoc]
    exact (List.perm_append_singleton n l₂).append_left l₁
  exact ((hperm.map fun n => (lru.key n, lru.data n)).map Prod.fst).nodup_iff.mpr h

variable [DecidableEq κ]

/-- **`lru_get`** returns the value of the key, and moves its entry to the end. -/
theorem lruGet_spec {lru : LRUCache κ V} {es : List (κ × V)} (h : Holds lru es) (k : κ) :
    ∃ lru', lruGet lru k = some (lru', valueOf k es) ∧ Holds lru' (getEntries k es) ∧
      lru'.size = lru.size ∧ lru'.capacity = lru.capacity := by
  obtain ⟨ns, hc, rfl, hnd⟩ := h
  rcases lruFind_entries hc hnd k with ⟨hfind, hval⟩ | ⟨l₁, n, l₂, rfl, hfind, rfl, hval, hdrop⟩
  · refine ⟨lru, ?_, ⟨ns, hc, ?_, ?_⟩, rfl, rfl⟩
    · simp only [lruGet, hfind, Option.bind_eq_bind, Option.bind_some, hval]
    · rw [getEntries, hval]
    · rw [getEntries, hval]
      exact hnd
  · obtain ⟨pre, nxt, pre', nxt', hrem, hpush, hc'⟩ := hc.move lru.data
    refine ⟨{ lru with pre := pre', nxt := nxt' }, ?_, ⟨l₁ ++ l₂ ++ [n], hc', ?_, ?_⟩, rfl, rfl⟩
    · simp only [lruGet, hfind, Option.bind_eq_bind, Option.bind_some, hval, hrem]
      rw [hpush]
      rfl
    · rw [getEntries, hval]
      simp only [hdrop]
      simp [entriesAt]
    · rw [getEntries, hval]
      simp only [hdrop]
      simpa [entriesAt] using nodup_moved hnd

/-- **`lru_put`** overwrites the entry of the key and moves it to the end, or adds
a new entry, after it took the first one out when `size` equals `capacity`. -/
theorem lruPut_spec {lru : LRUCache κ V} {es : List (κ × V)} (h : Holds lru es) (k : κ) (v : V)
    (hne : lru.capacity = lru.size → es ≠ []) :
    ∃ lru', lruPut lru k v = some lru' ∧
      Holds lru' (putEntries (decide (lru.capacity = lru.size)) k v es) ∧
      lru'.size = (if k ∈ es.map Prod.fst then lru.size else incInt lru.size) ∧
      lru'.capacity = lru.capacity := by
  obtain ⟨ns, hc, rfl, hnd⟩ := h
  rcases lruFind_entries hc hnd k with ⟨hfind, hval⟩ | ⟨l₁, n, l₂, rfl, hfind, rfl, hval, hdrop⟩
  · have hmiss := valueOf_eq_none.mp hval
    -- what is left after the eviction
    obtain ⟨lru₁, ms, hevict, hc₁, hms, hkey, hdata, hsize, hcap⟩ : ∃ lru₁ ms,
        evict lru = some lru₁ ∧ Chain lru₁ ms ∧
        ms = (if decide (lru.capacity = lru.size) then ns.tail else ns) ∧ lru₁.key = lru.key ∧
        lru₁.data = lru.data ∧ lru₁.size = lru.size ∧ lru₁.capacity = lru.capacity := by
      by_cases hfull : lru.capacity = lru.size
      · cases ns with
        | nil => exact absurd rfl (hne hfull)
        | cons n ns =>
            obtain ⟨pre, nxt, hevict, hc'⟩ := hc.evict_spec hfull
            exact ⟨_, ns, hevict, hc', by simp [hfull], rfl, rfl, rfl, rfl⟩
      · exact ⟨lru, ns, by rw [evict, if_neg hfull], hc, by simp [hfull], rfl, rfl, rfl, rfl⟩
    obtain ⟨pre, nxt, hins, hc₂⟩ := hc₁.insert_spec k v
    have hentries : entriesAt lru₁ ms =
        if decide (lru.capacity = lru.size) then (entriesAt lru ns).tail else entriesAt lru ns := by
      rw [hms, entriesAt, hkey, hdata]
      split_ifs
      · simp [entriesAt]
      · rfl
    have hput : putEntries (decide (lru.capacity = lru.size)) k v (entriesAt lru ns) =
        entriesAt lru₁ ms ++ [(k, v)] := by
      rw [putEntries, hval, hentries]
    have hsub : ((entriesAt lru₁ ms).map Prod.fst).Sublist ((entriesAt lru ns).map Prod.fst) := by
      rw [hentries]
      split_ifs
      · exact (List.tail_sublist _).map _
      · exact List.Sublist.refl _
    refine ⟨_, ?_, ⟨ms ++ [lru₁.brk], hc₂, ?_, ?_⟩, ?_, hcap⟩
    · simp only [lruPut, hfind, Option.bind_eq_bind, Option.bind_some, hevict, hins]
    · rw [hput]
      exact (entriesAt_insert (fun n hn => (hc₁.bounds n (by simp [hn])).2) rfl rfl).symm
    · rw [hput, List.map_append, List.nodup_append]
      refine ⟨hnd.sublist hsub, by simp, ?_⟩
      rintro a ha b hb rfl
      obtain rfl : a = k := by simpa using hb
      exact hmiss (hsub.subset ha)
    · rw [if_neg hmiss, ← hsize]
  · -- the node is taken off, its value overwritten, and it is pushed back
    obtain ⟨pre, nxt, pre', nxt', hrem, hpush, hc'⟩ := hc.move (Function.update lru.data n v)
    have hhit : lru.key n ∈ (entriesAt lru (l₁ ++ n :: l₂)).map Prod.fst := by simp [entriesAt]
    have hput : putEntries (decide (lru.capacity = lru.size)) (lru.key n) v
        (entriesAt lru (l₁ ++ n :: l₂)) = entriesAt lru (l₁ ++ l₂) ++ [(lru.key n, v)] := by
      rw [putEntries, hval]
      simp only [hdrop]
    refine ⟨{ lru with pre := pre', nxt := nxt', data := Function.update lru.data n v }, ?_,
      ⟨l₁ ++ l₂ ++ [n], hc', ?_, ?_⟩, ?_, rfl⟩
    · simp only [lruPut, hfind, Option.bind_eq_bind, Option.bind_some, hrem]
      exact hpush
    · have hnodes := hc.nodup
      have hseq : lru.head :: (l₁ ++ n :: l₂) ++ [lru.tail] =
          (lru.head :: l₁) ++ n :: (l₂ ++ [lru.tail]) := by simp
      rw [hseq, List.nodup_middle, List.nodup_cons] at hnodes
      have hold : entriesAt { lru with pre := pre', nxt := nxt', data := Function.update lru.data n v }
          (l₁ ++ l₂) = entriesAt lru (l₁ ++ l₂) := by
        refine entriesAt_congr (fun _ _ => rfl) (fun m hm => Function.update_of_ne ?_ ..)
        rintro rfl
        apply hnodes.1
        simp only [List.mem_append, List.mem_cons] at hm ⊢
        tauto
      rw [hput, entriesAt_append _ (l₁ ++ l₂), hold]
      simp [entriesAt]
    · rw [hput]
      simpa [entriesAt] using nodup_moved hnd
    · rw [if_pos hhit]

/-! ## Runs, and what an LRU cache returns -/

/-- The calls on the cache. -/
inductive Op (κ V : Type) : Type where
  | get (k : κ) : Op κ V
  | put (k : κ) (v : V) : Op κ V
  deriving DecidableEq, Repr

/-- A call, and what it returns (null for `lru_put`). -/
def stepOp (lru : LRUCache κ V) : Op κ V → Option (LRUCache κ V × Option V)
  | .get k => lruGet lru k
  | .put k v => (lruPut lru k v).map fun lru => (lru, none)

/-- The calls of a list one after the other, and what they return. -/
def runOps (lru : LRUCache κ V) : List (Op κ V) → Option (LRUCache κ V × List (Option V))
  | [] => some (lru, [])
  | op :: ops => do
      let (lru, r) ← stepOp lru op
      let (lru, rs) ← runOps lru ops
      some (lru, r :: rs)

/-- One more call at the end of a run. -/
theorem runOps_append {lru lru₁ lru₂ : LRUCache κ V} {ops : List (Op κ V)} {op : Op κ V}
    {rs : List (Option V)} {r : Option V} (hrun : runOps lru ops = some (lru₁, rs))
    (hstep : stepOp lru₁ op = some (lru₂, r)) :
    runOps lru (ops ++ [op]) = some (lru₂, rs ++ [r]) := by
  induction ops generalizing lru rs with
  | nil =>
      simp only [runOps, Option.some.injEq, Prod.mk.injEq] at hrun
      obtain ⟨rfl, rfl⟩ := hrun
      simp only [List.nil_append, runOps, hstep, Option.bind_eq_bind, Option.bind_some]
  | cons op' ops ih =>
      simp only [runOps, Option.bind_eq_bind, Option.bind_eq_some_iff, Prod.exists] at hrun
      obtain ⟨lru', r', hstep', lru'', rs', hrun', heq⟩ := hrun
      simp only [Option.some.injEq, Prod.mk.injEq] at heq
      obtain ⟨rfl, rfl⟩ := heq
      simp only [List.cons_append, runOps, hstep', Option.bind_eq_bind, Option.bind_some,
        ih hrun']

/-- An LRU cache of `c` entries, in terms of the list of all keys that were put,
with their last values, most recently used first.  A use is a put or a get that
finds its key among the first `c`. -/
def specStep (c : ℕ) (rs : List (κ × V)) : Op κ V → List (κ × V) × Option V
  | .get k =>
      match valueOf k (rs.take c) with
      | some v => ((k, v) :: dropKey k rs, some v)
      | none => (rs, none)
  | .put k v => ((k, v) :: dropKey k rs, none)

/-- What an LRU cache returns. -/
def specOuts (c : ℕ) (rs : List (κ × V)) : List (Op κ V) → List (Option V)
  | [] => []
  | op :: ops => (specStep c rs op).2 :: specOuts c (specStep c rs op).1 ops

/-- The walk from a node to the tail. -/
def walk (lru : LRUCache κ V) : ℕ → ℕ → Option (List ℕ)
  | 0, _ => none
  | fuel + 1, curr =>
      if curr = lru.tail then some []
      else if curr = 0 then none
      else (walk lru fuel (lru.nxt curr)).map (curr :: ·)

/-- The nodes on the list. -/
def nodes (lru : LRUCache κ V) : Option (List ℕ) := walk lru (lru.brk + 1) (lru.nxt lru.head)

/-- After each call of the list, the results are those of an LRU cache of `c`
entries, and `size` is the number of nodes on the list and at most `c`. -/
def Faithful (c : ℕ) (lru : LRUCache κ V) (rs : List (κ × V)) (ops : List (Op κ V)) : Prop :=
  ∀ ops', ops' <+: ops → ∃ lru' ns, runOps lru ops' = some (lru', specOuts c rs ops') ∧
    nodes lru' = some ns ∧ (ns.length : ℤ) = lru'.size ∧ lru'.size ≤ c

/-- The keys that are put. -/
def putKeys : List (Op κ V) → List κ
  | [] => []
  | .get _ :: ops => putKeys ops
  | .put k _ :: ops => k :: putKeys ops

omit [DecidableEq κ] in
theorem Chain.walk_eq {lru : LRUCache κ V} {x : ℕ} {l : List ℕ} {fuel : ℕ}
    (h : Linked lru.nxt lru.pre (fun _ => True) (x :: l ++ [lru.tail])) (htail : lru.tail ∉ l)
    (hpos : ∀ n ∈ l, 0 < n) (hfuel : l.length < fuel) : walk lru fuel (lru.nxt x) = some l := by
  induction l generalizing x fuel with
  | nil =>
      obtain ⟨f, rfl⟩ : ∃ f, fuel = f + 1 := ⟨fuel - 1, by simp at hfuel; omega⟩
      have hx : lru.nxt x = lru.tail := h.1
      rw [hx, walk, if_pos rfl]
  | cons y l ih =>
      obtain ⟨f, rfl⟩ : ∃ f, fuel = f + 1 := ⟨fuel - 1, by simp at hfuel; omega⟩
      have hx : lru.nxt x = y := h.1
      have hy : y ≠ lru.tail := fun e => htail (e ▸ List.mem_cons_self)
      have hy0 : y ≠ 0 := (hpos y List.mem_cons_self).ne'
      have hrest : walk lru f (lru.nxt y) = some l := ih h.tail
        (fun hm => htail (List.mem_cons_of_mem _ hm)) (fun n hn => hpos n (List.mem_cons_of_mem _ hn)) (by simpa using hfuel)
      rw [hx, walk, if_neg hy, if_neg hy0, hrest]
      rfl

omit [DecidableEq κ] in
/-- The walk finds the nodes of a well-formed list. -/
theorem Chain.nodes_eq {lru : LRUCache κ V} {ns : List ℕ} (h : Chain lru ns) :
    nodes lru = some ns := by
  exact walk_eq h.linked (fun hm => h.tail_ne _ (List.mem_cons_of_mem _ hm) rfl)
    (fun n hn => (h.bounds n (by simp [hn])).1) (by have := h.length_lt; omega)

/-! ## Until the first eviction -/

/-- The cache holds all the keys that were put, and counts them. -/
structure Sim (c : ℕ) (lru : LRUCache κ V) (rs : List (κ × V)) : Prop where
  holds : Holds lru rs.reverse
  size : lru.size = rs.length
  capacity : lru.capacity = c
  le : rs.length ≤ c

namespace Sim

variable {c : ℕ} {lru : LRUCache κ V} {rs : List (κ × V)}

omit [DecidableEq κ] in
theorem nodup (h : Sim c lru rs) : (rs.map Prod.fst).Nodup := by
  obtain ⟨-, -, -, hnd⟩ := h.holds
  rwa [List.map_reverse, List.nodup_reverse] at hnd

theorem valueOf_reverse (h : Sim c lru rs) (k : κ) : valueOf k rs.reverse = valueOf k rs := by
  have hnd := h.nodup
  have hnd' : (rs.reverse.map Prod.fst).Nodup := by
    rwa [List.map_reverse, List.nodup_reverse]
  cases hval : valueOf k rs with
  | none =>
      rw [valueOf_eq_none] at hval ⊢
      rwa [List.map_reverse, List.mem_reverse]
  | some v =>
      obtain ⟨l₁, l₂, rfl⟩ := (valueOf_eq_some hnd).mp hval
      exact (valueOf_eq_some hnd').mpr ⟨l₂.reverse, l₁.reverse, by simp⟩

/-- A used key comes first. -/
theorem length_use (h : Sim c lru rs) {k : κ} {v : V} (hk : k ∈ rs.map Prod.fst) :
    ((k, v) :: dropKey k rs).length = rs.length := by
  obtain ⟨⟨k', w⟩, he, rfl⟩ := List.mem_map.mp hk
  obtain ⟨l₁, l₂, rfl⟩ := List.append_of_mem he
  rw [List.length_cons, dropKey_split h.nodup]
  simp
  omega

omit [DecidableEq κ] in
/-- What the cache looks like. -/
theorem faithful_nil (h : Sim c lru rs) :
    ∃ ns, nodes lru = some ns ∧ (ns.length : ℤ) = lru.size ∧ lru.size ≤ c := by
  obtain ⟨ns, hc, hes, -⟩ := h.holds
  have hlen : rs.length = ns.length := by
    have := congrArg List.length hes
    simpa [entriesAt] using this
  have hle := h.le
  refine ⟨ns, hc.nodes_eq, ?_, ?_⟩ <;> rw [h.size] <;> omega

theorem dropKey_reverse (k : κ) (rs : List (κ × V)) :
    dropKey k rs.reverse = (dropKey k rs).reverse := List.filter_reverse

/-- `lru_get` agrees with the specification. -/
theorem get (h : Sim c lru rs) (k : κ) :
    ∃ lru', lruGet lru k = some (lru', (specStep c rs (.get k)).2) ∧
      Sim c lru' (specStep c rs (.get k)).1 ∧
      ∀ j, j ∈ (specStep c rs (.get k)).1.map Prod.fst ↔ j ∈ rs.map Prod.fst := by
  obtain ⟨lru', hget, hholds, hsize, hcap⟩ := lruGet_spec h.holds k
  have htake : rs.take c = rs := List.take_of_length_le h.le
  rw [h.valueOf_reverse] at hget
  rw [getEntries, h.valueOf_reverse] at hholds
  cases hval : valueOf k rs with
  | none =>
      have hspec : specStep c rs (.get k) = (rs, none) := by rw [specStep, htake, hval]
      rw [hval] at hget hholds
      rw [hspec]
      exact ⟨lru', hget, ⟨hholds, hsize.trans h.size, hcap.trans h.capacity, h.le⟩, fun _ => Iff.rfl⟩
  | some v =>
      have hspec : specStep c rs (.get k) = ((k, v) :: dropKey k rs, some v) := by
        rw [specStep, htake, hval]
      have hk : k ∈ rs.map Prod.fst := by
        by_contra hk
        rw [valueOf_eq_none.mpr hk] at hval
        exact absurd hval (by simp)
      have hlen := h.length_use (v := v) hk
      rw [hval] at hget hholds
      rw [hspec]
      refine ⟨lru', hget, ⟨?_, ?_, hcap.trans h.capacity, hlen ▸ h.le⟩, fun j => ?_⟩
      · rw [List.reverse_cons, ← dropKey_reverse]
        exact hholds
      · rw [hsize, h.size, hlen]
      · simp only [List.map_cons, List.mem_cons, dropKey, List.mem_map, List.mem_filter]
        grind

/-- `lru_put` agrees with the specification while there is room. -/
theorem put (h : Sim c lru rs) (hmax : c < 2 ^ 31) {k : κ} (v : V)
    (hroom : k ∈ rs.map Prod.fst ∨ rs.length < c) :
    ∃ lru', lruPut lru k v = some lru' ∧ Sim c lru' ((k, v) :: dropKey k rs) := by
  have hsize := h.size
  have hcap := h.capacity
  have hfull : lru.capacity = lru.size → rs.reverse ≠ [] := by
    rintro hfull hnil
    rw [List.reverse_eq_nil_iff] at hnil
    subst hnil
    simp only [List.length_nil] at hsize hroom
    rcases hroom with hroom | hroom
    · exact absurd hroom (by simp)
    · omega
  obtain ⟨lru', hput, hholds, hsize', hcap'⟩ := lruPut_spec h.holds k v hfull
  have hmem : k ∈ rs.reverse.map Prod.fst ↔ k ∈ rs.map Prod.fst := by simp
  rw [putEntries, h.valueOf_reverse] at hholds
  refine ⟨lru', hput, ?_, ?_, hcap'.trans hcap, ?_⟩
  · rw [List.reverse_cons, ← dropKey_reverse]
    cases hval : valueOf k rs with
    | some w =>
        rw [hval] at hholds
        exact hholds
    | none =>
        have hk : k ∉ rs.map Prod.fst := valueOf_eq_none.mp hval
        have hlt : rs.length < c := hroom.resolve_left hk
        have hnot : ¬ lru.capacity = lru.size := by omega
        rw [hval, decide_eq_false hnot] at hholds
        rw [dropKey_reverse, dropKey_of_not_mem hk]
        exact hholds
  · rw [hsize']
    by_cases hk : k ∈ rs.map Prod.fst
    · rw [if_pos (hmem.mpr hk), hsize, h.length_use hk]
    · have hlt : rs.length < c := hroom.resolve_left hk
      rw [if_neg (fun hc => hk (hmem.mp hc)), incInt, if_neg (by omega), hsize,
        dropKey_of_not_mem hk, List.length_cons]
      push_cast
      rfl
  · by_cases hk : k ∈ rs.map Prod.fst
    · rw [h.length_use hk]
      exact h.le
    · have hlt : rs.length < c := hroom.resolve_left hk
      rw [dropKey_of_not_mem hk, List.length_cons]
      omega

/-- **The eviction** leaves `size` one above the number of nodes. -/
theorem put_full (h : Sim c lru rs) (hc : 1 ≤ c) (hmax : c < 2 ^ 31) {k : κ} (v : V)
    (hk : k ∉ rs.map Prod.fst) (hfull : rs.length = c) :
    ∃ lru' ns, lruPut lru k v = some lru' ∧ nodes lru' = some ns ∧
      (ns.length : ℤ) ≠ lru'.size := by
  have hsize := h.size
  have hcap := h.capacity
  have hne : rs.reverse ≠ [] := by
    intro hnil
    rw [List.reverse_eq_nil_iff] at hnil
    subst hnil
    simp only [List.length_nil] at hfull
    omega
  obtain ⟨lru', hput, ⟨ns, hchain, hes, -⟩, hsize', -⟩ := lruPut_spec h.holds k v fun _ => hne
  refine ⟨lru', ns, hput, hchain.nodes_eq, ?_⟩
  have hval : valueOf k rs.reverse = none := by
    rw [h.valueOf_reverse]
    exact valueOf_eq_none.mpr hk
  have heq : lru.capacity = lru.size := by omega
  have hlen := congrArg List.length hes
  rw [putEntries, hval, decide_eq_true heq] at hlen
  simp only [if_true, entriesAt, List.length_append, List.length_tail, List.length_reverse,
    List.length_cons, List.length_nil, List.length_map] at hlen
  have hmem : k ∉ rs.reverse.map Prod.fst := by simpa using hk
  rw [if_neg hmem, incInt] at hsize'
  split_ifs at hsize' <;> omega

end Sim

/-! ## The bound -/

theorem faithful_cons {c : ℕ} {lru lru' : LRUCache κ V} {rs rs' : List (κ × V)} {op : Op κ V}
    {ops : List (Op κ V)} {r : Option V} (h : Sim c lru rs)
    (hstep : stepOp lru op = some (lru', r)) (hspec : specStep c rs op = (rs', r)) :
    Faithful c lru rs (op :: ops) ↔ Faithful c lru' rs' ops := by
  have hruns : ∀ {ops' lru'' outs}, runOps lru (op :: ops') = some (lru'', r :: outs) ↔
      runOps lru' ops' = some (lru'', outs) := by
    intro ops' lru'' outs
    rw [runOps, hstep]
    cases hrun : runOps lru' ops' with
    | none => simp [hrun]
    | some res => simp [hrun, Prod.ext_iff]
  constructor
  · intro hf ops' hpre
    obtain ⟨lru'', ns, hrun, hns⟩ := hf (op :: ops') ((List.prefix_cons_inj op).mpr hpre)
    rw [specOuts, hspec] at hrun
    exact ⟨lru'', ns, hruns.mp hrun, hns⟩
  · intro hf ops' hpre
    cases ops' with
    | nil =>
        obtain ⟨ns, hns⟩ := h.faithful_nil
        exact ⟨lru, ns, rfl, hns⟩
    | cons op' ops' =>
        obtain ⟨rfl, hpre'⟩ := List.cons_prefix_cons.mp hpre
        obtain ⟨lru'', ns, hrun, hns⟩ := hf ops' hpre'
        refine ⟨lru'', ns, ?_, hns⟩
        rw [specOuts, hspec]
        exact hruns.mpr hrun

/-- From a state that holds all the keys that were put, the cache stays faithful
exactly when the keys put, old and new, are at most `c`. -/
theorem Sim.faithful_iff {c : ℕ} (hc : 1 ≤ c) (hmax : c < 2 ^ 31) {ops : List (Op κ V)} :
    ∀ {lru : LRUCache κ V} {rs : List (κ × V)}, Sim c lru rs →
      (Faithful c lru rs ops ↔ (rs.map Prod.fst ++ putKeys ops).toFinset.card ≤ c) := by
  induction ops with
  | nil =>
      intro lru rs h
      have hcard : (rs.map Prod.fst ++ putKeys ([] : List (Op κ V))).toFinset.card ≤ c := by
        rw [putKeys, List.append_nil, List.toFinset_card_of_nodup h.nodup, List.length_map]
        exact h.le
      refine iff_of_true ?_ hcard
      intro ops' hpre
      obtain rfl := List.prefix_nil.mp hpre
      obtain ⟨ns, hns⟩ := h.faithful_nil
      exact ⟨lru, ns, rfl, hns⟩
  | cons op ops ih =>
      intro lru rs h
      cases op with
      | get k =>
          obtain ⟨lru', hget, h', hkeys⟩ := h.get k
          have hset : ((specStep c rs (.get k)).1.map Prod.fst ++ putKeys ops).toFinset =
              (rs.map Prod.fst ++ putKeys (.get k :: ops)).toFinset := by
            ext j
            rw [putKeys, List.mem_toFinset, List.mem_toFinset, List.mem_append, List.mem_append,
              hkeys]
          have hstep : stepOp lru (.get k) = some (lru', (specStep c rs (.get k)).2) := hget
          have hspec : specStep c rs (.get k) =
              ((specStep c rs (.get k)).1, (specStep c rs (.get k)).2) := rfl
          rw [faithful_cons h hstep hspec, ih h', hset]
      | put k v =>
          by_cases hroom : k ∈ rs.map Prod.fst ∨ rs.length < c
          · obtain ⟨lru', hput, h'⟩ := h.put hmax v hroom
            have hstep : stepOp lru (.put k v) = some (lru', none) := by rw [stepOp, hput]; rfl
            have hset : (((k, v) :: dropKey k rs).map Prod.fst ++ putKeys ops).toFinset =
                (rs.map Prod.fst ++ putKeys (.put k v :: ops)).toFinset := by
              ext j
              simp only [putKeys, List.map_cons, List.cons_append, List.mem_toFinset,
                List.mem_cons, List.mem_append, dropKey, List.mem_map, List.mem_filter,
                decide_eq_true_eq]
              grind
            rw [faithful_cons h hstep rfl, ih h', hset]
          · -- the first eviction
            have hk : k ∉ rs.map Prod.fst := fun hk => hroom (Or.inl hk)
            have hfull : rs.length = c := by
              have := h.le
              omega
            refine iff_of_false (fun hf => ?_) ?_
            · -- `size` is one above the number of nodes afterwards
              obtain ⟨lru', ns, hput, hns, hne⟩ := h.put_full hc hmax v hk hfull
              obtain ⟨lru'', ns', hrun, hns', hlen, -⟩ := hf [.put k v]
                ((List.prefix_cons_inj _).mpr List.nil_prefix)
              simp only [runOps, stepOp, hput, Option.map_some, Option.bind_eq_bind,
                Option.bind_some, Option.some.injEq, Prod.mk.injEq] at hrun
              obtain rfl := hrun.1
              rw [hns, Option.some.injEq] at hns'
              subst hns'
              exact hne hlen
            · have hsub : (k :: rs.map Prod.fst).toFinset ⊆
                  (rs.map Prod.fst ++ putKeys (.put k v :: ops)).toFinset := by
                intro j hj
                simp only [putKeys, List.mem_toFinset, List.mem_cons, List.mem_append] at hj ⊢
                tauto
              have hcard := Finset.card_le_card hsub
              rw [List.toFinset_card_of_nodup (List.nodup_cons.mpr ⟨hk, h.nodup⟩),
                List.length_cons, List.length_map] at hcard
              omega

/-- **When the cache is a bounded LRU cache.**  From `lru_init(c)` on zeroed
memory, the results of a run are those of an LRU cache of `c` entries, with `size`
the number of nodes and at most `c` in every state, exactly when at most `c`
distinct keys are put. -/
theorem bounded_iff {c : ℕ} (hc : 1 ≤ c) (hmax : c < 2 ^ 31) (m : LRUCache κ V)
    (hbrk : 0 < m.brk) (hzero : m.size = 0) (ops : List (Op κ V)) :
    Faithful c (lruInit c m) [] ops ↔ (putKeys ops).toFinset.card ≤ c := by
  have h : Sim c (lruInit c m) ([] : List (κ × V)) :=
    ⟨holds_lruInit _ m hbrk, hzero, rfl, Nat.zero_le c⟩
  have hiff : Faithful c (lruInit c m) [] ops ↔ _ := h.faithful_iff hc hmax
  simpa using hiff

/-- Zeroed memory, above the null address. -/
def zeroed : LRUCache ℕ ℕ where
  capacity := 0
  size := 0
  head := 0
  tail := 0
  pre := fun _ => 0
  nxt := fun _ => 0
  key := fun _ => 0
  data := fun _ => 0
  brk := 1

theorem bounded_two_puts :
    Faithful 2 (lruInit 2 zeroed) [] [.put 7 70, .put 8 80, .get 7, .put 7 71] :=
  (bounded_iff (by decide) (by decide) zeroed (by decide) rfl _).mpr (by decide)

/-- One entry too many: after two puts on a cache of one entry, the list has one
node and `size` is two. -/
theorem not_bounded_two_puts : ¬ Faithful 1 (lruInit 1 zeroed) [] [.put 7 70, .put 8 80] := by
  intro hf
  obtain ⟨lru, ns, hrun, hns, hlen, -⟩ := hf _ (List.prefix_refl _)
  have hval : (runOps (lruInit 1 zeroed) [.put 7 70, .put 8 80]).map
      (fun r => ((nodes r.1).map List.length, r.1.size)) = some (some 1, 2) := by decide
  rw [hrun, Option.map_some, hns, Option.map_some] at hval
  simp only [Option.some.injEq, Prod.mk.injEq] at hval
  omega

end Lru
