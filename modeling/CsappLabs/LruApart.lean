/-
# A list with nodes taken off

Between its `lru_remove` and its `push_back` a node is off the list, though it
still belongs to the cache.  `Apart lru ns off` describes a cache whose nodes are
`ns`, in the order of use, of which those in `off` are off the list.

One lemma for each operation that a call makes on the list.
-/
import CsappLabs.LruRecency

namespace Lru

variable {κ V : Type}

/-- The node `n` comes last. -/
def toBack (n : ℕ) (ns : List ℕ) : List ℕ := ns.filter (fun m => decide (m ≠ n)) ++ [n]

theorem mem_toBack {n m : ℕ} {ns : List ℕ} (hn : n ∈ ns) : m ∈ toBack n ns ↔ m ∈ ns := by
  simp only [toBack, List.mem_append, List.mem_filter, List.mem_singleton, decide_eq_true_eq]
  constructor
  · rintro (⟨hm, -⟩ | rfl)
    · exact hm
    · exact hn
  · intro hm
    by_cases hmn : m = n
    · exact Or.inr hmn
    · exact Or.inl ⟨hm, hmn⟩

/-- A list that splits at `n`, without it and with it at the end. -/
theorem filter_ne_split {n : ℕ} {l₁ l₂ : List ℕ} (hnd : (l₁ ++ n :: l₂).Nodup) :
    (l₁ ++ n :: l₂).filter (fun m => decide (m ≠ n)) = l₁ ++ l₂ := by
  rw [List.nodup_middle, List.nodup_cons, List.mem_append] at hnd
  have hself : ∀ l : List ℕ, n ∉ l → l.filter (fun m => decide (m ≠ n)) = l := by
    intro l hl
    refine List.filter_eq_self.mpr fun m hm => decide_eq_true ?_
    rintro rfl
    exact hl hm
  rw [List.filter_append, List.filter_cons, if_neg (by simp),
    hself l₁ fun h => hnd.1 (Or.inl h), hself l₂ fun h => hnd.1 (Or.inr h)]

theorem toBack_perm {n : ℕ} {ns : List ℕ} (hnd : ns.Nodup) (hn : n ∈ ns) :
    (toBack n ns).Perm ns := by
  obtain ⟨l₁, l₂, rfl⟩ := List.append_of_mem hn
  rw [toBack, filter_ne_split hnd, List.append_assoc]
  exact (List.perm_append_singleton n l₂).append_left l₁

theorem toBack_last {n : ℕ} {l : List ℕ} (hnd : (l ++ [n]).Nodup) :
    toBack n (l ++ [n]) = l ++ [n] := by
  rw [toBack, filter_ne_split hnd, List.append_nil]

/-- The nodes of the cache are `ns`, in the order of use; those in `off` are off
the list. -/
structure Apart (lru : LRUCache κ V) (ns : List ℕ) (off : Finset ℕ) : Prop where
  chain : Chain lru (ns.filter fun n => decide (n ∉ off))
  off_sub : ∀ n ∈ off, n ∈ ns
  nodup : (lru.head :: ns ++ [lru.tail]).Nodup
  bounds : ∀ n ∈ ns, 0 < n ∧ n < lru.brk
  keys : (ns.map lru.key).Nodup

/-- A well-formed list has no node off it. -/
theorem Chain.apart {lru : LRUCache κ V} {ns : List ℕ} (h : Chain lru ns)
    (hkeys : (ns.map lru.key).Nodup) : Apart lru ns ∅ where
  chain := by simpa using h
  off_sub := by simp
  nodup := h.nodup
  bounds := fun n hn => h.bounds n (by simp [hn])
  keys := hkeys

namespace Apart

variable {lru : LRUCache κ V} {ns : List ℕ} {off : Finset ℕ}

/-- With no node off it, the list holds all of them. -/
theorem chain_of_empty (h : Apart lru ns ∅) : Chain lru ns := by
  have := h.chain
  simpa using this

theorem nodup_nodes (h : Apart lru ns off) : ns.Nodup := by
  have := h.nodup
  rw [List.cons_append, List.nodup_cons, List.nodup_append] at this
  exact this.2.1

/-- The two ends are not nodes. -/
theorem not_mem_ends (h : Apart lru ns off) {n : ℕ} (hn : n ∈ ns) :
    n ≠ lru.head ∧ n ≠ lru.tail := by
  have hnd := h.nodup
  rw [List.cons_append, List.nodup_cons, List.nodup_append] at hnd
  constructor
  · rintro rfl
    exact hnd.1 (by simp [hn])
  · intro heq
    exact hnd.2.2.2 n hn lru.tail (by simp) heq

/-- Two nodes with one key are the same. -/
theorem key_inj (h : Apart lru ns off) {n m : ℕ} (hn : n ∈ ns) (hm : m ∈ ns)
    (hkey : lru.key n = lru.key m) : n = m :=
  List.inj_on_of_nodup_map h.keys hn hm hkey

/-- The entries of the other nodes. -/
theorem entriesAt_filter [DecidableEq κ] (h : Apart lru ns off) {n : ℕ} (hn : n ∈ ns) :
    entriesAt lru (ns.filter fun m => decide (m ≠ n)) =
      dropKey (lru.key n) (entriesAt lru ns) := by
  rw [entriesAt, dropKey, entriesAt, List.filter_map]
  congr 1
  apply List.filter_congr
  intro m hm
  show decide (m ≠ n) = decide (lru.key m ≠ lru.key n)
  rw [decide_eq_decide]
  constructor
  · exact fun hne hkey => hne (h.key_inj hm hn hkey)
  · rintro hne rfl
    exact hne rfl

/-- The entries once `n` comes last. -/
theorem entriesAt_toBack [DecidableEq κ] (h : Apart lru ns off) {n : ℕ} (hn : n ∈ ns) :
    entriesAt lru (toBack n ns) =
      dropKey (lru.key n) (entriesAt lru ns) ++ [(lru.key n, lru.data n)] := by
  rw [toBack, entriesAt_append, h.entriesAt_filter hn]
  rfl

/-- The entries once `n` comes last, with another value. -/
theorem entriesAt_set [DecidableEq κ] (h : Apart lru ns off) {n : ℕ} (hn : n ∈ ns) (v : V) :
    entriesAt { lru with data := Function.update lru.data n v } (toBack n ns) =
      dropKey (lru.key n) (entriesAt lru ns) ++ [(lru.key n, v)] := by
  rw [toBack, entriesAt_append, ← h.entriesAt_filter hn]
  congr 1
  · refine entriesAt_congr (fun _ _ => rfl) fun m hm => ?_
    exact Function.update_of_ne (of_decide_eq_true (List.mem_filter.mp hm).2) ..
  · simp [entriesAt]

/-- The value of a node's key. -/
theorem valueOf_key [DecidableEq κ] (h : Apart lru ns off) {n : ℕ} (hn : n ∈ ns) :
    valueOf (lru.key n) (entriesAt lru ns) = some (lru.data n) := by
  obtain ⟨l₁, l₂, rfl⟩ := List.append_of_mem hn
  have hkeys := h.keys
  refine (valueOf_eq_some ?_).mpr ⟨entriesAt lru l₁, entriesAt lru l₂, by simp [entriesAt]⟩
  simpa [entriesAt, Function.comp_def] using hkeys

/-- The cells may change as long as the keys of the nodes and the links do not. -/
theorem of_data (h : Apart lru ns off) {lru' : LRUCache κ V} (hpre : lru'.pre = lru.pre)
    (hnxt : lru'.nxt = lru.nxt) (hhead : lru'.head = lru.head) (htail : lru'.tail = lru.tail)
    (hbrk : lru'.brk = lru.brk) (hkey : lru'.key = lru.key) : Apart lru' ns off where
  chain := h.chain.of_data hpre hnxt hhead htail hbrk.ge
  off_sub := h.off_sub
  nodup := by
    rw [hhead, htail]
    exact h.nodup
  bounds := by
    rw [hbrk]
    exact h.bounds
  keys := by
    rw [hkey]
    exact h.keys

/-- **`lru_find`** finds the node of a key, unless it is off the list. -/
theorem find_spec [DecidableEq κ] (h : Apart lru ns off) {k : κ}
    (hoff : ∀ n ∈ off, lru.key n ≠ k) :
    (lruFind lru k = some none ∧ k ∉ ns.map lru.key) ∨
      ∃ n ∈ ns, lruFind lru k = some (some n) ∧ lru.key n = k := by
  rw [h.chain.lruFind_eq]
  cases hfind : (ns.filter fun n => decide (n ∉ off)).find? fun n => decide (lru.key n = k) with
  | none =>
      refine Or.inl ⟨rfl, fun hk => ?_⟩
      obtain ⟨n, hn, hkey⟩ := List.mem_map.mp hk
      have hon : n ∉ off := fun hmem => hoff n hmem hkey
      rw [List.find?_eq_none] at hfind
      exact hfind n (List.mem_filter.mpr ⟨hn, decide_eq_true hon⟩) (decide_eq_true hkey)
  | some n =>
      have hmem := List.mem_of_find?_eq_some hfind
      have hkey := List.find?_some hfind
      exact Or.inr ⟨n, List.mem_of_mem_filter hmem, rfl, of_decide_eq_true hkey⟩

/-- **`lru_remove`** takes a node off the list. -/
theorem remove_spec (h : Apart lru ns off) {n : ℕ} (hn : n ∈ ns) (hon : n ∉ off) :
    ∃ pre nxt, lruRemove lru n = some { lru with pre := pre, nxt := nxt } ∧
      Apart { lru with pre := pre, nxt := nxt } ns (off ∪ {n}) := by
  obtain ⟨l₁, l₂, rfl⟩ := List.append_of_mem hn
  have hchain := h.chain
  rw [List.filter_append, List.filter_cons, if_pos (decide_eq_true hon)] at hchain
  obtain ⟨pre, nxt, hrem, hc⟩ := hchain.lruRemove_spec
  refine ⟨pre, nxt, hrem, ?_, ?_, h.nodup, h.bounds, h.keys⟩
  · have hfilter : (l₁ ++ n :: l₂).filter (fun m => decide (m ∉ off ∪ {n})) =
        l₁.filter (fun m => decide (m ∉ off)) ++ l₂.filter (fun m => decide (m ∉ off)) := by
      rw [← List.filter_append, ← filter_ne_split h.nodup_nodes, List.filter_filter]
      refine List.filter_congr fun m _ => ?_
      simp only [Finset.mem_union, Finset.mem_singleton, not_or, Bool.decide_and]
    rw [hfilter]
    exact hc
  · intro m hm
    rcases Finset.mem_union.mp hm with hm | hm
    · exact h.off_sub m hm
    · rw [Finset.mem_singleton.mp hm]
      exact hn

/-- The order of use does not matter for a node that is off the list. -/
theorem toBack (h : Apart lru ns off) {n : ℕ} (hn : n ∈ off) : Apart lru (toBack n ns) off := by
  have hmem := h.off_sub n hn
  have hperm := toBack_perm h.nodup_nodes hmem
  constructor
  · have hfilter : (Lru.toBack n ns).filter (fun m => decide (m ∉ off)) =
        ns.filter fun m => decide (m ∉ off) := by
      have hone : [n].filter (fun m => decide (m ∉ off)) = [] := by simp [hn]
      rw [Lru.toBack, List.filter_append, hone, List.append_nil, List.filter_filter]
      refine List.filter_congr fun m _ => ?_
      by_cases hmn : m = n
      · simp [hmn, hn]
      · simp [hmn]
    rw [hfilter]
    exact h.chain
  · exact fun m hm => (mem_toBack hmem).mpr (h.off_sub m hm)
  · exact ((hperm.cons lru.head).append_right [lru.tail]).nodup_iff.mpr h.nodup
  · exact fun m hm => h.bounds m ((mem_toBack hmem).mp hm)
  · exact (hperm.map lru.key).nodup_iff.mpr h.keys

/-- **`push_back`** puts a node back, at the end of the list. -/
theorem push_spec (h : Apart lru ns off) {n : ℕ} (hn : n ∈ off) :
    ∃ pre nxt, pushBack lru n = some { lru with pre := pre, nxt := nxt } ∧
      Apart { lru with pre := pre, nxt := nxt } (Lru.toBack n ns) (off.erase n) := by
  have hmem := h.off_sub n hn
  have hends := h.not_mem_ends hmem
  have hnot : n ∉ lru.head :: ns.filter (fun m => decide (m ∉ off)) ++ [lru.tail] := by
    simp [hends.1, hends.2, hn]
  have hlast := h.toBack hn
  obtain ⟨pre, nxt, hpush, hc⟩ :=
    h.chain.pushBack_spec hnot (h.bounds n hmem).1 (h.bounds n hmem).2
  refine ⟨pre, nxt, hpush, ?_, fun m hm => hlast.off_sub m (Finset.mem_of_mem_erase hm),
    hlast.nodup, hlast.bounds, hlast.keys⟩
  have hfilter : (Lru.toBack n ns).filter (fun m => decide (m ∉ off.erase n)) =
      ns.filter (fun m => decide (m ∉ off)) ++ [n] := by
    have hone : [n].filter (fun m => decide (m ∉ off.erase n)) = [n] := by simp
    rw [Lru.toBack, List.filter_append, hone, List.filter_filter]
    congr 1
    refine List.filter_congr fun m _ => ?_
    by_cases hmn : m = n
    · simp [hmn, hn]
    · simp [hmn]
  rw [hfilter]
  exact hc

/-- **The eviction** takes the first node of a full cache. -/
theorem evict_spec (h : Apart lru ns ∅) {lru' : LRUCache κ V} (hevict : evict lru = some lru') :
    (lru.capacity = lru.size → ns ≠ []) ∧
    ∃ pre nxt, lru' = { lru with pre := pre, nxt := nxt } ∧
      Apart { lru with pre := pre, nxt := nxt }
        (if decide (lru.capacity = lru.size) then ns.tail else ns) ∅ := by
  have hchain := h.chain_of_empty
  by_cases hfull : lru.capacity = lru.size
  · cases ns with
    | nil =>
        have hnxt : lru.nxt lru.head = lru.tail := hchain.linked.1
        rw [evict, if_pos hfull, hnxt, lruRemove, if_pos hchain.ends.2] at hevict
        exact absurd hevict (by simp)
    | cons n ns =>
        obtain ⟨pre, nxt, hev, hc⟩ := hchain.evict_spec hfull
        rw [hev, Option.some.injEq] at hevict
        refine ⟨by simp, pre, nxt, hevict.symm, ?_⟩
        rw [if_pos (decide_eq_true hfull)]
        exact hc.apart (List.nodup_cons.mp h.keys).2
  · rw [evict, if_neg hfull, Option.some.injEq] at hevict
    refine ⟨fun hc => absurd hc hfull, lru.pre, lru.nxt, hevict.symm, ?_⟩
    rw [if_neg (by simpa using hfull)]
    exact h

/-- **A new node** comes last. -/
theorem pushNew_spec (h : Apart lru ns ∅) {k : κ} (v : V) (hk : k ∉ ns.map lru.key) :
    ∃ pre nxt, pushNew lru k v = some { lru with
        brk := lru.brk + 1
        key := Function.update lru.key lru.brk k
        data := Function.update lru.data lru.brk v
        pre := pre
        nxt := nxt } ∧
      Apart { lru with
        brk := lru.brk + 1
        key := Function.update lru.key lru.brk k
        data := Function.update lru.data lru.brk v
        pre := pre
        nxt := nxt } (ns ++ [lru.brk]) ∅ := by
  obtain ⟨pre, nxt, hpush, hc⟩ := h.chain_of_empty.pushNew_spec k v
  refine ⟨pre, nxt, hpush, hc.apart ?_⟩
  have hold : ns.map (Function.update lru.key lru.brk k) = ns.map lru.key := by
    apply List.map_congr_left
    intro n hn
    exact Function.update_of_ne (h.bounds n hn).2.ne ..
  show ((ns ++ [lru.brk]).map (Function.update lru.key lru.brk k)).Nodup
  rw [List.map_append, hold, List.map_singleton, Function.update_self, List.nodup_append]
  refine ⟨h.keys, by simp, ?_⟩
  rintro a ha b hb rfl
  rw [List.mem_singleton] at hb
  exact hk (hb ▸ ha)

end Apart

end Lru
