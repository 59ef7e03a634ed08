/-
# The cache of the proxy: `lru.c`

The doubly linked list of `lru.c`, function by function.  A `linkList *` is an
address, with null `0`; the fields of the nodes are maps on addresses.  Keys are
compared with `strcmp` and copied with `strcpy`, so a key is its string: any type
with decidable equality.  A `cacheData *` stored in the cache is any value, and a
null result is `none`.

`malloc` returns the next address that was never used.  What it returns is not
initialised: `lruInit` takes the memory as it was, and leaves `size` as it found
it.

`none` stands for a call that does not return: a null pointer is followed, or the
walk of `lru_find` never ends.  A walk of more steps than there are nodes has met
some node twice.

The lock is modelled separately; here each call runs alone, and finds both
semaphores available.
-/
import CsappLabs.LinkedChain

open LinkedChain

namespace Lru

/-- `LRUCache`, with the `linkList` nodes it points to. -/
structure LRUCache (κ V : Type) where
  capacity : ℤ
  size : ℤ
  head : ℕ
  tail : ℕ
  pre : ℕ → ℕ
  nxt : ℕ → ℕ
  key : ℕ → κ
  data : ℕ → V
  brk : ℕ

variable {κ V : Type}

/-- `n++` on an `int`. -/
def incInt (n : ℤ) : ℤ := if n = 2 ^ 31 - 1 then -(2 ^ 31) else n + 1

/-- `lru_init`, when the memory was as in `m`. -/
def lruInit (capacity : ℤ) (m : LRUCache κ V) : LRUCache κ V :=
  let lru := { m with capacity := capacity, head := m.brk, tail := m.brk + 1, brk := m.brk + 2 }
  let lru := { lru with nxt := Function.update lru.nxt lru.head lru.tail }
  let lru := { lru with pre := Function.update lru.pre lru.head 0 }
  let lru := { lru with pre := Function.update lru.pre lru.tail lru.head }
  { lru with nxt := Function.update lru.nxt lru.tail 0 }

/-- `lru_remove`. -/
def lruRemove (lru : LRUCache κ V) (list : ℕ) : Option (LRUCache κ V) :=
  if lru.nxt list = 0 then none
  else
    let lru := { lru with pre := Function.update lru.pre (lru.nxt list) (lru.pre list) }
    if lru.pre list = 0 then none
    else some { lru with nxt := Function.update lru.nxt (lru.pre list) (lru.nxt list) }

/-- `push_back`. -/
def pushBack (lru : LRUCache κ V) (list : ℕ) : Option (LRUCache κ V) :=
  if lru.pre lru.tail = 0 then none
  else
    let lru := { lru with nxt := Function.update lru.nxt (lru.pre lru.tail) list }
    let lru := { lru with pre := Function.update lru.pre list (lru.pre lru.tail) }
    let lru := { lru with nxt := Function.update lru.nxt list lru.tail }
    some { lru with pre := Function.update lru.pre lru.tail list }

/-- The loop of `lru_find`. -/
def lruFindLoop [DecidableEq κ] (lru : LRUCache κ V) (key : κ) : ℕ → ℕ → Option (Option ℕ)
  | 0, _ => none
  | fuel + 1, curr =>
      if curr = lru.tail then some none
      else if curr = 0 then none
      else if lru.key curr = key then some (some curr)
      else lruFindLoop lru key fuel (lru.nxt curr)

/-- `lru_find`: the node of a key, or null. -/
def lruFind [DecidableEq κ] (lru : LRUCache κ V) (key : κ) : Option (Option ℕ) :=
  lruFindLoop lru key (lru.brk + 1) (lru.nxt lru.head)

/-- `lru_get`. -/
def lruGet [DecidableEq κ] (lru : LRUCache κ V) (key : κ) : Option (LRUCache κ V × Option V) := do
  match ← lruFind lru key with
  | some tar =>
      let lru ← lruRemove lru tar
      let lru ← pushBack lru tar
      some (lru, some (lru.data tar))
  | none => some (lru, none)

/-- The eviction of `lru_put`: the first node goes when the cache is full. -/
def evict (lru : LRUCache κ V) : Option (LRUCache κ V) :=
  if lru.capacity = lru.size then lruRemove lru (lru.nxt lru.head) else some lru

/-- A new node is filled in and linked in. -/
def pushNew (lru : LRUCache κ V) (key : κ) (value : V) : Option (LRUCache κ V) :=
  let list := lru.brk
  let lru := { lru with
    brk := lru.brk + 1
    key := Function.update lru.key list key
    data := Function.update lru.data list value }
  pushBack lru list

/-- The last lines of `lru_put`: the new node is linked in and counted. -/
def insert (lru : LRUCache κ V) (key : κ) (value : V) : Option (LRUCache κ V) := do
  let lru ← pushNew lru key value
  some { lru with size := incInt lru.size }

/-- `lru_put`. -/
def lruPut [DecidableEq κ] (lru : LRUCache κ V) (key : κ) (value : V) : Option (LRUCache κ V) := do
  match ← lruFind lru key with
  | some tar =>
      let lru ← lruRemove lru tar
      let lru := { lru with data := Function.update lru.data tar value }
      pushBack lru tar
  | none =>
      let lru ← evict lru
      insert lru key value

/-! ## Well-formed lists -/

/-- The nodes `ns` are linked from head to tail, in both directions and without a
cycle. -/
structure Chain (lru : LRUCache κ V) (ns : List ℕ) : Prop where
  linked : Linked lru.nxt lru.pre (fun _ => True) (lru.head :: ns ++ [lru.tail])
  nodup : (lru.head :: ns ++ [lru.tail]).Nodup
  bounds : ∀ n ∈ lru.head :: ns ++ [lru.tail], 0 < n ∧ n < lru.brk
  ends : lru.pre lru.head = 0 ∧ lru.nxt lru.tail = 0

/-- `lru_init` makes an empty list. -/
theorem chain_lruInit (capacity : ℤ) (m : LRUCache κ V) (hbrk : 0 < m.brk) :
    Chain (lruInit capacity m) [] := by
  constructor
  · simp [lruInit]
  · simp [lruInit]
  · intro n hn
    simp only [lruInit, List.cons_append, List.nil_append, List.mem_cons, List.not_mem_nil,
      or_false] at hn ⊢
    omega
  · simp [lruInit]

namespace Chain

variable {lru : LRUCache κ V} {ns : List ℕ}

/-- The head comes first. -/
theorem head_ne (h : Chain lru ns) : ∀ n ∈ ns ++ [lru.tail], lru.head ≠ n := by
  have hnd := h.nodup
  rw [List.cons_append, List.nodup_cons] at hnd
  rintro n hn rfl
  exact hnd.1 hn

/-- The tail comes last. -/
theorem tail_ne (h : Chain lru ns) : ∀ n ∈ lru.head :: ns, lru.tail ≠ n := by
  intro n hn heq
  exact (List.nodup_append.mp h.nodup).2.2 n hn lru.tail (by simp) heq.symm

/-- The first node, or the tail, points back at the head. -/
theorem pre_nxt_head (h : Chain lru ns) : lru.pre (lru.nxt lru.head) = lru.head := by
  have hlinked := h.linked
  cases ns with
  | nil =>
      rw [show lru.nxt lru.head = lru.tail from hlinked.1]
      exact hlinked.2.1 trivial
  | cons n ns =>
      rw [show lru.nxt lru.head = n from hlinked.1]
      exact hlinked.2.1 trivial

/-- A well-formed list has fewer nodes than were allocated. -/
theorem length_lt (h : Chain lru ns) : ns.length < lru.brk := by
  have hsub : (lru.head :: ns ++ [lru.tail]) ⊆ List.range lru.brk := fun n hn =>
    List.mem_range.mpr (h.bounds n hn).2
  have hle := (List.subperm_of_subset h.nodup hsub).length_le
  simp only [List.length_append, List.length_cons, List.length_nil, List.length_range] at hle
  omega

theorem findLoop_eq [DecidableEq κ] {x : ℕ} {l : List ℕ} (k : κ) {fuel : ℕ}
    (h : Linked lru.nxt lru.pre (fun _ => True) (x :: l ++ [lru.tail])) (htail : lru.tail ∉ l)
    (hpos : ∀ n ∈ l, 0 < n) (hfuel : l.length < fuel) :
    lruFindLoop lru k fuel (lru.nxt x) = some (l.find? fun n => decide (lru.key n = k)) := by
  induction l generalizing x fuel with
  | nil =>
      obtain ⟨f, rfl⟩ : ∃ f, fuel = f + 1 := ⟨fuel - 1, by simp at hfuel; omega⟩
      have hx : lru.nxt x = lru.tail := h.1
      rw [hx, lruFindLoop, if_pos rfl, List.find?_nil]
  | cons y l ih =>
      obtain ⟨f, rfl⟩ : ∃ f, fuel = f + 1 := ⟨fuel - 1, by simp at hfuel; omega⟩
      have hx : lru.nxt x = y := h.1
      have hy : y ≠ lru.tail := fun e => htail (e ▸ List.mem_cons_self)
      have hy0 : y ≠ 0 := (hpos y List.mem_cons_self).ne'
      rw [hx, lruFindLoop, if_neg hy, if_neg hy0, List.find?_cons]
      by_cases hk : lru.key y = k
      · rw [if_pos hk, decide_eq_true hk]
      · rw [if_neg hk, decide_eq_false hk]
        exact ih h.tail (fun hm => htail (List.mem_cons_of_mem _ hm))
          (fun n hn => hpos n (List.mem_cons_of_mem _ hn)) (by simpa using hfuel)

/-- **`lru_find`** returns the first node with the key. -/
theorem lruFind_eq [DecidableEq κ] (h : Chain lru ns) (k : κ) :
    lruFind lru k = some (ns.find? fun n => decide (lru.key n = k)) := by
  have htail : lru.tail ∉ ns := fun hm => h.tail_ne _ (List.mem_cons_of_mem _ hm) rfl
  exact findLoop_eq k h.linked htail (fun n hn => (h.bounds n (by simp [hn])).1)
    (by have := h.length_lt; omega)

/-- **`lru_remove`** takes a node out of the list. -/
theorem lruRemove_spec {l₁ l₂ : List ℕ} {n : ℕ} (h : Chain lru (l₁ ++ n :: l₂)) :
    ∃ pre nxt, lruRemove lru n = some { lru with pre := pre, nxt := nxt } ∧
      Chain { lru with pre := pre, nxt := nxt } (l₁ ++ l₂) := by
  -- `x` and `z` are the neighbours of the node, the sentinels included
  obtain ⟨u, x, hx⟩ : ∃ u x, lru.head :: l₁ = u ++ [x] :=
    ⟨_, _, (List.dropLast_append_getLast (by simp)).symm⟩
  obtain ⟨z, v, hz⟩ : ∃ z v, l₂ ++ [lru.tail] = z :: v := by cases l₂ <;> simp
  have hseq : lru.head :: (l₁ ++ n :: l₂) ++ [lru.tail] = u ++ x :: n :: z :: v := by
    rw [← List.cons_append, hx]
    simp [hz]
  have hseq' : lru.head :: (l₁ ++ l₂) ++ [lru.tail] = u ++ x :: z :: v := by
    rw [← List.cons_append, hx]
    simp [hz]
  have hlinked := h.linked
  have hnd := h.nodup
  have hbounds := h.bounds
  rw [hseq] at hlinked hnd hbounds
  have hnxt : lru.nxt n = z := by
    rw [List.append_cons] at hlinked
    exact hlinked.nxt_eq
  have hpre : lru.pre n = x := hlinked.prv_eq trivial
  have hx0 : x ≠ 0 := (hbounds x (by simp)).1.ne'
  have hz0 : z ≠ 0 := (hbounds z (by simp)).1.ne'
  have hnz : n ≠ z := by
    rintro rfl
    have := (List.nodup_append.mp hnd).2.1
    simp at this
  refine ⟨Function.update lru.pre z x, Function.update lru.nxt x z, ?_, ?_⟩
  · simp only [lruRemove, hnxt, hz0, if_false, hpre, Function.update_of_ne hnz, hx0]
  · have hsub : (u ++ x :: z :: v).Sublist (u ++ x :: n :: z :: v) := by
      apply List.Sublist.append_left
      exact (List.sublist_cons_self n (z :: v)).cons_cons x
    constructor
    · rw [hseq']
      refine hlinked.unlink hnd (Function.update_self ..) (fun _ => Function.update_self ..) ?_ ?_
      · exact fun a _ hax _ => Function.update_of_ne hax ..
      · exact fun b _ _ hbz _ => Function.update_of_ne hbz ..
    · rw [hseq']
      exact hnd.sublist hsub
    · rw [hseq']
      exact fun a ha => hbounds a (hsub.subset ha)
    · have hxmem : x ∈ lru.head :: l₁ := by simp [hx]
      have hzmem : z ∈ l₂ ++ [lru.tail] := by simp [hz]
      have hzh : lru.head ≠ z := h.head_ne z (by
        simp only [List.mem_append, List.mem_cons] at hzmem ⊢
        tauto)
      have hxt : lru.tail ≠ x := h.tail_ne x (by
        simp only [List.mem_append, List.mem_cons] at hxmem ⊢
        tauto)
      show Function.update lru.pre z x lru.head = 0 ∧ Function.update lru.nxt x z lru.tail = 0
      rw [Function.update_of_ne hzh, Function.update_of_ne hxt]
      exact h.ends

/-- **`push_back`** puts a node that is not on the list at its end. -/
theorem pushBack_spec {n : ℕ} (h : Chain lru ns) (hnot : n ∉ lru.head :: ns ++ [lru.tail])
    (hpos : 0 < n) (hlt : n < lru.brk) :
    ∃ pre nxt, pushBack lru n = some { lru with pre := pre, nxt := nxt } ∧
      Chain { lru with pre := pre, nxt := nxt } (ns ++ [n]) := by
  -- `x` is the last node, or the head of an empty list
  obtain ⟨u, x, hx⟩ : ∃ u x, lru.head :: ns = u ++ [x] :=
    ⟨_, _, (List.dropLast_append_getLast (by simp)).symm⟩
  have hseq : lru.head :: ns ++ [lru.tail] = u ++ x :: lru.tail :: [] := by
    rw [hx]
    simp
  have hseq' : lru.head :: (ns ++ [n]) ++ [lru.tail] = u ++ x :: n :: lru.tail :: [] := by
    rw [← List.cons_append, hx]
    simp
  have hlinked := h.linked
  have hnd := h.nodup
  have hbounds := h.bounds
  have hn := hnot
  rw [hseq] at hlinked hnd hbounds hn
  have hpre : lru.pre lru.tail = x := hlinked.prv_eq trivial
  have hx0 : x ≠ 0 := (hbounds x (by simp)).1.ne'
  have hnx : n ≠ x := by
    rintro rfl
    exact hn (by simp)
  have hnt : n ≠ lru.tail := by
    rintro rfl
    exact hn (by simp)
  refine ⟨Function.update (Function.update lru.pre n x) lru.tail n,
    Function.update (Function.update lru.nxt x n) n lru.tail, ?_, ?_⟩
  · simp only [pushBack, hpre, hx0, if_false]
  · constructor
    · rw [hseq']
      refine hlinked.link hnd hn ?_ (fun _ => ?_) (Function.update_self ..)
        (fun _ => Function.update_self ..) ?_ ?_
      · show Function.update (Function.update lru.nxt x n) n lru.tail x = n
        rw [Function.update_of_ne hnx.symm, Function.update_self]
      · show Function.update (Function.update lru.pre n x) lru.tail n n = x
        rw [Function.update_of_ne hnt, Function.update_self]
      · intro a _ hax han
        show Function.update (Function.update lru.nxt x n) n lru.tail a = lru.nxt a
        rw [Function.update_of_ne han, Function.update_of_ne hax]
      · intro b _ hbn hbt _
        show Function.update (Function.update lru.pre n x) lru.tail n b = lru.pre b
        rw [Function.update_of_ne hbt, Function.update_of_ne hbn]
    · rw [hseq', List.append_cons, List.nodup_middle, List.nodup_cons, ← List.append_cons]
      exact ⟨hn, hnd⟩
    · rw [hseq']
      intro a ha
      by_cases han : a = n
      · rw [han]
        exact ⟨hpos, hlt⟩
      · refine hbounds a ?_
        simp only [List.mem_append, List.mem_cons] at ha ⊢
        tauto
    · have hht : lru.head ≠ lru.tail := h.head_ne lru.tail (by simp)
      have hxt : lru.tail ≠ x := h.tail_ne x (by simp [hx])
      have hnh : lru.head ≠ n := by
        rintro rfl
        exact hnot (by simp)
      constructor
      · show Function.update (Function.update lru.pre n x) lru.tail n lru.head = 0
        rw [Function.update_of_ne hht, Function.update_of_ne hnh]
        exact h.ends.1
      · show Function.update (Function.update lru.nxt x n) n lru.tail lru.tail = 0
        rw [Function.update_of_ne hnt.symm, Function.update_of_ne hxt]
        exact h.ends.2

/-- The cells of a list may change as long as its links do not. -/
theorem of_data (h : Chain lru ns) {lru' : LRUCache κ V} (hpre : lru'.pre = lru.pre)
    (hnxt : lru'.nxt = lru.nxt) (hhead : lru'.head = lru.head) (htail : lru'.tail = lru.tail)
    (hbrk : lru.brk ≤ lru'.brk) : Chain lru' ns := by
  constructor
  · rw [hpre, hnxt, hhead, htail]
    exact h.linked
  · rw [hhead, htail]
    exact h.nodup
  · rw [hhead, htail]
    intro n hn
    exact ⟨(h.bounds n hn).1, (h.bounds n hn).2.trans_le hbrk⟩
  · rw [hpre, hnxt, hhead, htail]
    exact h.ends

end Chain

end Lru
