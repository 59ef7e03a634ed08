/-
# gen_random.pl

The script makes a list of allocations, and puts a request to free each block at a random place
behind its allocation.  `rand` is a parameter: for every sequence of numbers that it gives, each
block is freed once, `checktrace.pl` leaves the file as it is, `read_trace` reads it, and the driver
passes `mm.c` on the trace unless a size is 0 (`genRandom_passes`).
-/
import CsappLabs.BalancedTraces

open CString TraceFile Driver Malloc

namespace GenRandom

/-! ## The script -/

/-- The first loop.  `rand n b` is the whole part of the random number, for the call `n` of `rand`
and its argument. -/
def mallocs (numBlocks maxBlkSize : ℕ) (rand : ℕ → ℤ → ℕ) : List TraceOp :=
  (List.range numBlocks).map fun i => .alloc i (rand i maxBlkSize)

/-- `$trace[$minval]->{type} eq "a"` and `$trace[$minval]->{seq} == $i`. -/
def isAllocOf (i : ℕ) : Option TraceOp → Bool
  | some (.alloc seq _) => seq == i
  | _ => false

/-- The loop that looks for the allocation of a block, for so many places from `minval` on. -/
def findAlloc (ops : List TraceOp) (i : ℕ) : ℕ → ℕ → ℕ
  | 0, minval => minval
  | n + 1, minval =>
      if isAllocOf i ops[minval]? then minval else findAlloc ops i n (minval + 1)

/-- `splice @trace, $pos, 0, $op`; behind the end it appends. -/
def splice (ops : List TraceOp) (pos : ℕ) (op : TraceOp) : List TraceOp :=
  ops.take pos ++ op :: ops.drop pos

/-- A round of the second loop.  The sum of `$pos` may be rounded up, so `rand` may give its
argument here. -/
def insertFree (numBlocks : ℕ) (rand : ℕ → ℤ → ℕ) (ops : List TraceOp) (i : ℕ) :
    List TraceOp :=
  let minval := findAlloc ops i numBlocks i
  splice ops (rand (numBlocks + i) (numBlocks + i - minval - 1) + minval + 1) (.free i)

/-- `@trace` after both loops. -/
def trace (numBlocks maxBlkSize : ℕ) (rand : ℕ → ℤ → ℕ) : List TraceOp :=
  (List.range numBlocks).foldl (insertFree numBlocks rand) (mallocs numBlocks maxBlkSize rand)

/-- `$total_block_size`. -/
def totalBlockSize (numBlocks maxBlkSize : ℕ) (rand : ℕ → ℤ → ℕ) : ℕ :=
  ((List.range numBlocks).map fun i => rand i maxBlkSize).sum

/-- The line of an element of `@trace`; behind the end its fields are empty. -/
def printOp : Option TraceOp → List UInt8
  | some op => (stored op).line
  | none => [space, newline]

/-- The file. -/
def genRandom (numBlocks maxBlkSize : ℕ) (rand : ℕ → ℤ → ℕ) : List UInt8 :=
  field (totalBlockSize numBlocks maxBlkSize rand + 100 : ℕ) newline ++
    (field numBlocks newline ++ (field (2 * numBlocks : ℕ) newline ++ (field 1 newline ++
      (List.range (2 * numBlocks)).flatMap fun i =>
        printOp (trace numBlocks maxBlkSize rand)[i]?)))

/-! ## The ids with a block -/

section

variable {L L' : List ℤ} {i : ℤ}

/-- A request for another id. -/
theorem liveAfter_other {op : StoredOp} (hi : Checktrace.idOf op ≠ i)
    (h : Checktrace.liveAfter L op = some L') :
    (i ∈ L' ↔ i ∈ L) ∧ Checktrace.liveAfter (L.erase i) op = some (L'.erase i) := by
  cases op with
  | alloc j n =>
      have hi : j ≠ i := hi
      rw [Checktrace.liveAfter] at h ⊢
      split_ifs at h with hj
      cases h
      refine ⟨?_, ?_⟩
      · rw [List.mem_cons]
        exact or_iff_right hi.symm
      · rw [if_neg fun hmem => hj (List.mem_of_mem_erase hmem), List.erase_cons_tail]
        simpa using hi
  | free j =>
      have hi : j ≠ i := hi
      rw [Checktrace.liveAfter] at h ⊢
      split_ifs at h with hj
      cases h
      refine ⟨List.mem_erase_of_ne hi.symm, ?_⟩
      rw [if_pos ((List.mem_erase_of_ne hi).mpr hj), List.erase_comm]
  | realloc j n =>
      have hi : j ≠ i := hi
      rw [Checktrace.liveAfter] at h ⊢
      split_ifs at h with hj
      cases h
      exact ⟨Iff.rfl, if_pos ((List.mem_erase_of_ne hi).mpr hj)⟩

/-- Requests for other ids. -/
theorem liveAfters_other {ops : List StoredOp} (hi : ∀ op ∈ ops, Checktrace.idOf op ≠ i)
    (h : Checktrace.liveAfters L ops = some L') :
    (i ∈ L' ↔ i ∈ L) ∧ Checktrace.liveAfters (L.erase i) ops = some (L'.erase i) := by
  induction ops generalizing L with
  | nil =>
      cases h
      exact ⟨Iff.rfl, rfl⟩
  | cons op ops ih =>
      rw [List.forall_mem_cons] at hi
      rw [Checktrace.liveAfters, Option.bind_eq_some_iff] at h
      obtain ⟨L₁, hop, hops⟩ := h
      obtain ⟨hmem, herase⟩ := liveAfter_other hi.1 hop
      obtain ⟨hmem', herase'⟩ := ih hi.2 hops
      refine ⟨hmem'.trans hmem, ?_⟩
      rw [Checktrace.liveAfters, herase]
      exact herase'

/-- An id with a block has been allocated. -/
theorem alloc_mem_of_live {ops : List StoredOp} (h : Checktrace.liveAfters L ops = some L')
    (hi : i ∈ L') : i ∈ L ∨ ∃ n, .alloc i n ∈ ops := by
  induction ops generalizing L with
  | nil =>
      cases h
      exact .inl hi
  | cons op ops ih =>
      rw [Checktrace.liveAfters, Option.bind_eq_some_iff] at h
      obtain ⟨L₁, hop, hops⟩ := h
      rcases ih hops with hi₁ | ⟨n, hn⟩
      · cases op with
        | alloc j n =>
            rw [Checktrace.liveAfter] at hop
            split_ifs at hop
            cases hop
            rcases List.mem_cons.mp hi₁ with rfl | hi₁
            · exact .inr ⟨n, List.mem_cons_self⟩
            · exact .inl hi₁
        | free j =>
            rw [Checktrace.liveAfter] at hop
            split_ifs at hop
            cases hop
            exact .inl (List.mem_of_mem_erase hi₁)
        | realloc j n =>
            rw [Checktrace.liveAfter] at hop
            split_ifs at hop
            cases hop
            exact .inl hi₁
      · exact .inr ⟨n, List.mem_cons_of_mem _ hn⟩

/-- **One more request to free** a block, somewhere behind its allocation. -/
theorem liveAfters_insert {a b : List StoredOp} {j n : ℤ} {c : List StoredOp}
    (hb : ∀ op ∈ b, Checktrace.idOf op ≠ j) (hc : ∀ op ∈ c, Checktrace.idOf op ≠ j)
    (h : Checktrace.liveAfters [] (a ++ .alloc j n :: (b ++ c)) = some L) :
    Checktrace.liveAfters [] (a ++ .alloc j n :: (b ++ .free j :: c)) = some (L.erase j) := by
  rw [Checktrace.liveAfters_append, Option.bind_eq_some_iff] at h
  obtain ⟨L₁, ha, h⟩ := h
  rw [Checktrace.liveAfters, Option.bind_eq_some_iff] at h
  obtain ⟨L₂, halloc, h⟩ := h
  rw [Checktrace.liveAfters_append, Option.bind_eq_some_iff] at h
  obtain ⟨L₃, hb', hc'⟩ := h
  have hj : j ∈ L₃ := by
    rw [(liveAfters_other hb hb').1]
    rw [Checktrace.liveAfter] at halloc
    split_ifs at halloc
    cases halloc
    exact List.mem_cons_self
  rw [Checktrace.liveAfters_append, ha, Option.bind_some, Checktrace.liveAfters, halloc,
    Option.bind_some, Checktrace.liveAfters_append, hb', Option.bind_some, Checktrace.liveAfters,
    Checktrace.liveAfter, if_pos hj, Option.bind_some]
  exact (liveAfters_other hc hc').2

end

/-! ## The loops -/

/-- An allocation. -/
def IsAlloc : TraceOp → Bool
  | .alloc _ _ => true
  | _ => false

/-- The ids from `i` on, below a bound. -/
def upward (i n : ℕ) : List ℤ := (List.range' i (n - i)).map Nat.cast

section

variable {n i : ℕ} {size : ℕ → ℕ} {ops p q : List TraceOp}

/-- The trace after `i` rounds of the second loop: all allocations in their order, a request to
free each block before `i`, and the ids from there on have a block at the end. -/
structure Spread (n : ℕ) (size : ℕ → ℕ) (i : ℕ) (ops : List TraceOp) : Prop where
  allocs : ops.filter IsAlloc = (List.range n).map fun j => .alloc j (size j)
  frees : (ops.filter (! IsAlloc ·)).Perm ((List.range i).map .free)
  live : ∃ L, Checktrace.liveAfters [] (ops.map stored) = some L ∧ L.Perm (upward i n)

/-- Allocations of ids that have no block. -/
theorem liveAfters_mallocs {ids : List ℕ} {L : List ℤ} (hids : ids.Nodup)
    (hL : ∀ j ∈ ids, (j : ℤ) ∉ L) (size : ℕ → ℕ) :
    ∃ L', Checktrace.liveAfters L ((ids.map fun j => .alloc j (size j)).map stored) = some L' ∧
      L'.Perm (ids.map Nat.cast ++ L) := by
  induction ids generalizing L with
  | nil => exact ⟨L, rfl, List.Perm.refl L⟩
  | cons j ids ih =>
      rw [List.nodup_cons] at hids
      rw [List.forall_mem_cons] at hL
      have hnext : ∀ k ∈ ids, (k : ℤ) ∉ (j : ℤ) :: L := by
        intro k hk hmem
        rcases List.mem_cons.mp hmem with hkj | hmem
        · rw [Nat.cast_inj] at hkj
          exact hids.1 (hkj ▸ hk)
        · exact hL.2 k hk hmem
      obtain ⟨L', hlive, hperm⟩ := ih hids.2 hnext
      refine ⟨L', ?_, hperm.trans List.perm_middle⟩
      show (Checktrace.liveAfter L (.alloc j (size j))).bind _ = _
      rw [Checktrace.liveAfter, if_neg hL.1, Option.bind_some]
      exact hlive

theorem spread_mallocs (n maxBlkSize : ℕ) (rand : ℕ → ℤ → ℕ) :
    Spread n (fun j => rand j maxBlkSize) 0 (mallocs n maxBlkSize rand) := by
  have hall : ∀ op ∈ mallocs n maxBlkSize rand, IsAlloc op = true := by
    intro op hop
    obtain ⟨j, -, rfl⟩ := List.mem_map.mp hop
    rfl
  refine ⟨List.filter_eq_self.mpr hall, ?_, ?_⟩
  · rw [List.filter_eq_nil_iff.mpr fun op hop => by simp [hall op hop]]
    exact List.Perm.refl _
  · obtain ⟨L, hlive, hperm⟩ :=
      @liveAfters_mallocs (List.range n) [] List.nodup_range (by simp) fun j => rand j maxBlkSize
    rw [List.append_nil, List.range_eq_range'] at hperm
    exact ⟨L, hlive, hperm⟩

theorem Spread.length (h : Spread n size i ops) : ops.length = n + i := by
  rw [List.length_eq_length_filter_add IsAlloc, h.allocs, h.frees.length_eq, List.length_map,
    List.length_map, List.length_range, List.length_range]

/-- Where the allocation of the next block stands. -/
theorem Spread.split (h : Spread n size i ops) (hi : i < n) :
    ∃ p q, ops = p ++ .alloc i (size i) :: q ∧ i ≤ p.length ∧
      (∀ op ∈ p, isAllocOf i (some op) = false) ∧ ∀ op ∈ q, op.index ≠ i := by
  obtain ⟨k, rfl⟩ := Nat.exists_eq_add_of_lt hi
  have hallocs := h.allocs
  rw [Nat.add_assoc, List.range_add, List.map_append, List.range_succ_eq_map, List.map_cons,
    List.map_cons, List.filter_eq_append_iff] at hallocs
  obtain ⟨p, s, rfl, hp, hs⟩ := hallocs
  obtain ⟨gap, q, rfl, hgap, -, hq⟩ := List.filter_eq_cons_iff.mp hs
  refine ⟨p ++ gap, q, ?_, ?_, fun op hop => ?_, fun op hop => ?_⟩
  · rw [List.append_assoc]
    rfl
  · have hle := List.length_filter_le IsAlloc p
    rw [hp, List.length_map, List.length_range] at hle
    rw [List.length_append]
    omega
  · cases op with
    | free j => rfl
    | realloc j m => rfl
    | alloc j m =>
        rcases List.mem_append.mp hop with hop | hop
        · have hmem : TraceOp.alloc j m ∈ p.filter IsAlloc := List.mem_filter.mpr ⟨hop, rfl⟩
          rw [hp, List.mem_map] at hmem
          obtain ⟨j', hj', heq⟩ := hmem
          cases heq
          have hlt := List.mem_range.mp hj'
          rw [isAllocOf, beq_eq_false_iff_ne]
          omega
        · exact absurd rfl (hgap _ hop)
  · have hop' : op ∈ p ++ (gap ++ .alloc (i + 0) (size (i + 0)) :: q) := by simp [hop]
    cases op with
    | alloc j m =>
        have hmem : TraceOp.alloc j m ∈ q.filter IsAlloc := List.mem_filter.mpr ⟨hop, rfl⟩
        rw [hq] at hmem
        simp only [List.mem_map] at hmem
        obtain ⟨_, ⟨_, ⟨j', -, rfl⟩, rfl⟩, heq⟩ := hmem
        cases heq
        show i + (j' + 1) ≠ i
        omega
    | free j =>
        have hmem := h.frees.mem_iff.mp (List.mem_filter.mpr ⟨hop', rfl⟩)
        obtain ⟨j', hj', heq⟩ := List.mem_map.mp hmem
        cases heq
        exact (List.mem_range.mp hj').ne
    | realloc j m =>
        have hmem := h.frees.mem_iff.mp (List.mem_filter.mpr ⟨hop', rfl⟩)
        obtain ⟨j', -, heq⟩ := List.mem_map.mp hmem
        cases heq

/-- The search finds it. -/
theorem findAlloc_eq {s : ℕ} (hp : ∀ op ∈ p, isAllocOf i (some op) = false) {m k : ℕ}
    (hk : k ≤ p.length) (hm : p.length < k + m) :
    findAlloc (p ++ .alloc i s :: q) i m k = p.length := by
  induction m generalizing k with
  | zero => omega
  | succ m ih =>
      rw [findAlloc]
      rcases hk.eq_or_lt with rfl | hlt
      · rw [List.getElem?_append_right (le_refl _), Nat.sub_self, List.getElem?_cons_zero,
          if_pos (by simp [isAllocOf])]
      · rw [List.getElem?_append_left hlt, List.getElem?_eq_getElem hlt,
          hp _ (List.getElem_mem hlt), if_neg Bool.false_ne_true]
        exact ih hlt (by omega)

/-- **A round of the second loop.** -/
theorem Spread.insertFree (h : Spread n size i ops) (hi : i < n) (rand : ℕ → ℤ → ℕ) :
    Spread n size (i + 1) (insertFree n rand ops i) := by
  obtain ⟨p, q, rfl, hp, hnot, hq⟩ := h.split hi
  have hlen := h.length
  rw [List.length_append, List.length_cons] at hlen
  have hfind : findAlloc (p ++ .alloc i (size i) :: q) i n i = p.length :=
    findAlloc_eq hnot hp (by omega)
  obtain ⟨k, hk⟩ : ∃ k, GenRandom.insertFree n rand (p ++ .alloc i (size i) :: q) i =
      p ++ .alloc i (size i) :: (q.take k ++ .free i :: q.drop k) := by
    refine ⟨rand (n + i) (n + i - p.length - 1), ?_⟩
    rw [GenRandom.insertFree, hfind]
    generalize rand (n + i) (n + i - p.length - 1) = k
    have hpos : k + p.length + 1 = p.length + (k + 1) := by omega
    rw [splice, hpos, List.take_length_add_append, List.drop_length_add_append, List.take_succ_cons,
      List.drop_succ_cons, List.append_assoc, List.cons_append]
  rw [hk]
  have hallocs := h.allocs
  have hfrees := h.frees
  obtain ⟨L, hlive, hperm⟩ := h.live
  refine ⟨?_, ?_, L.erase i, ?_, ?_⟩
  · have hkept : (q.take k ++ .free i :: q.drop k).filter IsAlloc = q.filter IsAlloc := by
      rw [List.filter_append, List.filter_cons_of_neg (by simp [IsAlloc]), ← List.filter_append,
        List.take_append_drop]
    rw [← hallocs, List.filter_append, List.filter_append, List.filter_cons, List.filter_cons,
      hkept]
  · have hmore : ((q.take k ++ .free i :: q.drop k).filter (! IsAlloc ·)).Perm
        (q.filter (! IsAlloc ·) ++ [.free i]) := by
      rw [List.filter_append, List.filter_cons_of_pos rfl]
      refine List.perm_middle.trans ?_
      rw [← List.filter_append, List.take_append_drop]
      exact (List.perm_append_singleton _ _).symm
    rw [List.filter_append, List.filter_cons_of_neg (by simp [IsAlloc])] at hfrees ⊢
    rw [List.range_succ, List.map_append, List.map_singleton]
    refine (hmore.append_left _).trans ?_
    rw [← List.append_assoc]
    exact hfrees.append_right _
  · have hother : ∀ l : List TraceOp, (∀ op ∈ l, op.index ≠ i) →
        ∀ op ∈ l.map stored, Checktrace.idOf op ≠ i := by
      intro l hl op hop
      obtain ⟨op', hop', rfl⟩ := List.mem_map.mp hop
      have hne := hl op' hop'
      cases op' <;> exact fun heq => hne (Nat.cast_inj.mp heq)
    rw [← List.take_append_drop k q] at hlive
    rw [List.map_append, List.map_cons, List.map_append] at hlive
    rw [List.map_append, List.map_cons, List.map_append, List.map_cons]
    exact liveAfters_insert (hother _ fun op hop => hq op (List.mem_of_mem_take hop))
      (hother _ fun op hop => hq op (List.mem_of_mem_drop hop)) hlive
  · have herase := hperm.erase (i : ℤ)
    obtain ⟨m, hm⟩ : ∃ m, n - i = m + 1 := ⟨n - i - 1, by omega⟩
    rw [upward, hm, List.range'_succ, List.map_cons, List.erase_cons_head] at herase
    rw [upward, show n - (i + 1) = m by omega]
    exact herase

/-- **The trace**, after both loops. -/
theorem spread_trace (n maxBlkSize : ℕ) (rand : ℕ → ℤ → ℕ) :
    Spread n (fun j => rand j maxBlkSize) n (trace n maxBlkSize rand) := by
  have hloop : ∀ i ≤ n, Spread n (fun j => rand j maxBlkSize) i
      ((List.range i).foldl (GenRandom.insertFree n rand) (mallocs n maxBlkSize rand)) := by
    intro i hi
    induction i with
    | zero => exact spread_mallocs n maxBlkSize rand
    | succ i ih =>
        rw [List.range_succ, List.foldl_append]
        exact (ih (by omega)).insertFree hi rand
  exact hloop n le_rfl

end

/-! ## The file -/

section

variable {n maxBlkSize : ℕ} {rand : ℕ → ℤ → ℕ}

/-- The trace with its header. -/
def traceT (n maxBlkSize : ℕ) (rand : ℕ → ℤ → ℕ) : TraceT where
  suggHeapsize := (totalBlockSize n maxBlkSize rand + 100 : ℕ)
  numIds := n
  numOps := (2 * n : ℕ)
  weight := 1
  ops := (trace n maxBlkSize rand).map stored

theorem length_trace (n maxBlkSize : ℕ) (rand : ℕ → ℤ → ℕ) :
    (trace n maxBlkSize rand).length = 2 * n := by
  rw [(spread_trace n maxBlkSize rand).length, Nat.two_mul]

/-- The file is the written trace. -/
theorem genRandom_eq (n maxBlkSize : ℕ) (rand : ℕ → ℤ → ℕ) :
    genRandom n maxBlkSize rand = render (traceT n maxBlkSize rand) := by
  have hops : ((List.range (2 * n)).flatMap fun i => printOp (trace n maxBlkSize rand)[i]?) =
      ((trace n maxBlkSize rand).map stored).flatMap StoredOp.line := by
    have hall : (List.range (2 * n)).map (fun i => (trace n maxBlkSize rand)[i]?) =
        (trace n maxBlkSize rand).map some := by
      rw [← length_trace n maxBlkSize rand]
      apply List.ext_getElem
      · simp
      · intro i h h'
        simp
    rw [List.flatMap_map, List.flatMap_def, List.flatMap_def]
    congr 1
    rw [show (fun i => printOp (trace n maxBlkSize rand)[i]?) =
      printOp ∘ fun i => (trace n maxBlkSize rand)[i]? from rfl, ← List.map_map, hall, List.map_map]
    rfl
  rw [genRandom, render, hops]
  rfl

/-- What the trace asks for. -/
theorem mem_trace {op : TraceOp} (hop : op ∈ trace n maxBlkSize rand) :
    ∃ i < n, op = .alloc i (rand i maxBlkSize) ∨ op = .free i := by
  have hspread := spread_trace n maxBlkSize rand
  by_cases halloc : IsAlloc op
  · have hmem := List.mem_filter.mpr ⟨hop, halloc⟩
    rw [hspread.allocs, List.mem_map] at hmem
    obtain ⟨i, hi, rfl⟩ := hmem
    exact ⟨i, List.mem_range.mp hi, .inl rfl⟩
  · have hmem := hspread.frees.mem_iff.mp (List.mem_filter.mpr ⟨hop, by simpa using halloc⟩)
    obtain ⟨i, hi, rfl⟩ := List.mem_map.mp hmem
    exact ⟨i, List.mem_range.mp hi, .inr rfl⟩

/-- Each block is asked for. -/
theorem alloc_mem_trace {i : ℕ} (hi : i < n) :
    TraceOp.alloc i (rand i maxBlkSize) ∈ trace n maxBlkSize rand := by
  have hmem : TraceOp.alloc i (rand i maxBlkSize) ∈
      (trace n maxBlkSize rand).filter IsAlloc := by
    rw [(spread_trace n maxBlkSize rand).allocs]
    exact List.mem_map_of_mem (f := fun j => TraceOp.alloc j (rand j maxBlkSize))
      (List.mem_range.mpr hi)
  exact List.mem_of_mem_filter hmem

/-- At the end no id has a block. -/
theorem liveAfters_trace (n maxBlkSize : ℕ) (rand : ℕ → ℤ → ℕ) :
    Checktrace.liveAfters [] ((trace n maxBlkSize rand).map stored) = some [] := by
  obtain ⟨L, hlive, hperm⟩ := (spread_trace n maxBlkSize rand).live
  rw [upward, Nat.sub_self] at hperm
  rw [hlive, hperm.eq_nil]

/-- A trace that allocates the blocks in their order and frees each of them once, behind its
allocation. -/
structure FreedOnce (n : ℕ) (size : ℕ → ℕ) (ops : List TraceOp) : Prop where
  allocs : ops.filter IsAlloc = (List.range n).map fun i => .alloc i (size i)
  frees : (ops.filter (! IsAlloc ·)).Perm ((List.range n).map .free)
  behind : ∀ a i b, ops = a ++ .free i :: b → .alloc i (size i) ∈ a

theorem freedOnce_trace (n maxBlkSize : ℕ) (rand : ℕ → ℤ → ℕ) :
    FreedOnce n (fun i => rand i maxBlkSize) (trace n maxBlkSize rand) := by
  have hspread := spread_trace n maxBlkSize rand
  refine ⟨hspread.allocs, hspread.frees, fun a i b hops => ?_⟩
  have hlive := liveAfters_trace n maxBlkSize rand
  rw [hops, List.map_append, Checktrace.liveAfters_append, Option.bind_eq_some_iff] at hlive
  obtain ⟨L, ha, hfree⟩ := hlive
  have hi : (i : ℤ) ∈ L := by
    by_contra hi
    rw [List.map_cons, stored, Checktrace.liveAfters, Checktrace.liveAfter, if_neg hi] at hfree
    cases hfree
  rcases alloc_mem_of_live ha hi with hnil | ⟨m, hm⟩
  · cases hnil
  · obtain ⟨op, hop, hstored⟩ := List.mem_map.mp hm
    obtain ⟨j, -, rfl | rfl⟩ := @mem_trace n maxBlkSize rand op
      (by rw [hops]; exact List.mem_append_left _ hop)
    · simp only [stored, StoredOp.alloc.injEq, Nat.cast_inj] at hstored
      rwa [← hstored.1]
    · cases hstored

/-- The bytes that the trace may need. -/
theorem asked_trace (n maxBlkSize : ℕ) (rand : ℕ → ℤ → ℕ) :
    asked (trace n maxBlkSize rand) = totalBlockSize n maxBlkSize rand + 32 * n := by
  have hspread := spread_trace n maxBlkSize rand
  have hparts : (trace n maxBlkSize rand).Perm
      (((List.range n).map fun i => .alloc i (rand i maxBlkSize)) ++
        (List.range n).map .free) := by
    have hfrees := (hspread.frees.append_left ((trace n maxBlkSize rand).filter IsAlloc)).symm
    rw [hspread.allocs] at hfrees
    refine (hfrees.trans ?_).symm
    rw [← hspread.allocs]
    exact List.filter_append_perm IsAlloc _
  have hconst : ((List.range n).map fun _ => 16).sum = n * 16 := by
    rw [List.map_const', List.length_range, List.sum_const_nat]
  have hallocs : ((List.range n).map ((fun op : TraceOp => op.size + 16) ∘ fun i =>
      .alloc i (rand i maxBlkSize))).sum = totalBlockSize n maxBlkSize rand + n * 16 := by
    show ((List.range n).map fun i => rand i maxBlkSize + 16).sum = _
    rw [List.sum_map_add, hconst]
    rfl
  have hfrees : ((List.range n).map ((fun op : TraceOp => op.size + 16) ∘ .free)).sum = n * 16 :=
    hconst
  rw [asked, (hparts.map _).sum_eq, List.map_append, List.sum_append, List.map_map, List.map_map,
    hallocs, hfrees]
  omega

/-- The ids of the allocations. -/
theorem mem_ids {i : ℤ} (hi : i ∈ (traceT n maxBlkSize rand).ids) : 0 ≤ i ∧ i < n := by
  obtain ⟨op, hop, hid⟩ := List.mem_filterMap.mp hi
  obtain ⟨op', hop', rfl⟩ := List.mem_map.mp hop
  obtain ⟨j, hj, rfl | rfl⟩ := mem_trace hop'
  · cases hid
    omega
  · cases hid

theorem last_mem_ids (hn : 0 < n) : (n : ℤ) - 1 ∈ (traceT n maxBlkSize rand).ids := by
  have hcast : (n : ℤ) - 1 = (n - 1 : ℕ) := by omega
  rw [hcast, TraceT.ids, List.mem_filterMap]
  exact ⟨_, List.mem_map_of_mem (alloc_mem_trace (show n - 1 < n by omega)), rfl⟩

/-- The header is right. -/
theorem consistent_traceT (hn : 0 < n) (hroom : 24 * n < 2 ^ 32) :
    Consistent (traceT n maxBlkSize rand) := by
  have hlen : (traceT n maxBlkSize rand).ops.length = 2 * n := by
    rw [traceT, List.length_map, length_trace]
  refine ⟨?_, ?_, ?_⟩
  · rw [hlen]
    rfl
  · rw [hlen]
    omega
  · rw [maxIndex_eq hn (by omega) (fun i hi => mem_ids hi) (last_mem_ids hn)]
    show -2 ^ 31 ≤ (n : ℤ) - 1 ∧ ((n - 1 : ℕ) : ℤ) = ((n : ℤ) - 1) % 2 ^ 32
    omega

/-- All sizes are below the bound. -/
structure Sizes (n maxBlkSize : ℕ) (rand : ℕ → ℤ → ℕ) : Prop where
  lt : ∀ i < n, rand i maxBlkSize < maxBlkSize
  total : n * maxBlkSize + 100 < 2 ^ 31

theorem inRange_traceT (hsizes : Sizes n maxBlkSize rand) (hn : 0 < n)
    (hroom : 24 * n < 2 ^ 32) : (traceT n maxBlkSize rand).InRange := by
  have htotal := hsizes.total
  have hmax : maxBlkSize ≤ n * maxBlkSize := Nat.le_mul_of_pos_left _ hn
  have hsum : totalBlockSize n maxBlkSize rand ≤ n * maxBlkSize := by
    have hle := List.sum_le_card_nsmul
      ((List.range n).map fun i => rand i maxBlkSize) maxBlkSize (by
        intro k hk
        obtain ⟨i, hi, rfl⟩ := List.mem_map.mp hk
        exact (hsizes.lt i (List.mem_range.mp hi)).le)
    rwa [List.length_map, List.length_range, smul_eq_mul] at hle
  refine ⟨?_, ?_, ?_, (by decide : IsInt 1), fun op hop => ?_⟩
  · show IsInt ((totalBlockSize n maxBlkSize rand + 100 : ℕ) : ℤ)
    constructor <;> omega
  · show IsInt (n : ℤ)
    constructor <;> omega
  · show IsInt ((2 * n : ℕ) : ℤ)
    constructor <;> omega
  · obtain ⟨op', hop', rfl⟩ := List.mem_map.mp hop
    obtain ⟨i, hi, rfl | rfl⟩ := mem_trace hop'
    · have hlt := hsizes.lt i hi
      show IsInt (i : ℤ) ∧ IsInt (rand i maxBlkSize : ℤ)
      refine ⟨?_, ?_⟩ <;> constructor <;> omega
    · show IsInt (i : ℤ)
      constructor <;> omega

/-! ## The driver -/

/-- When a trace passes, no block of 0 bytes is asked for. -/
theorem alloc_zero_notMem {k : ℕ} {ops : List TraceOp} {t t' : Trial Heap}
    (h : validLoop mm k ops t = .ok t') (i : ℕ) : TraceOp.alloc i 0 ∉ ops := by
  induction ops generalizing k t with
  | nil => exact List.not_mem_nil
  | cons op ops ih =>
      rw [validLoop] at h
      rcases hstep : validStep mm k t op with e | t₁
      · rw [hstep] at h
        cases h
      · rw [hstep] at h
        rw [List.mem_cons, not_or]
        refine ⟨?_, ih h⟩
        rintro rfl
        have hstepped := validStep_stepped mm k t (.alloc i 0)
        rw [hstep] at hstepped
        cases hstepped with
        | alloc hcall hp _ =>
            have hnull : mm.malloc t.mem 0 = some (t.mem, 0) := rfl
            rw [hnull] at hcall
            cases hcall
            exact hp rfl

/-- No id is reallocated. -/
theorem not_highByte {op : TraceOp} (hop : op ∈ trace n maxBlkSize rand) : ¬ HighByte op := by
  obtain ⟨i, -, rfl | rfl⟩ := mem_trace hop
  · exact id
  · exact id

/-- **The driver** passes the trace unless a size is 0. -/
theorem trace_passes_iff
    (hroom : 424 + (totalBlockSize n maxBlkSize rand + 32 * n) ≤ 2 ^ 24) {trial : Trial Heap}
    (hstart : trial.mem.memStartBrk = 0) (hmax : trial.mem.memMaxAddr = MAX_HEAP) :
    (∃ trial', evalMmValid mm (trace n maxBlkSize rand) trial = .ok trial' ∧ Drained trial') ↔
      ∀ i < n, rand i maxBlkSize ≠ 0 := by
  rw [← asked_trace] at hroom
  constructor
  · rintro ⟨trial', hok, -⟩ i hi hzero
    obtain ⟨h, heval, -⟩ := evalMmValid_mm hstart hmax
    rw [heval] at hok
    have hmem := @alloc_mem_trace n maxBlkSize rand i hi
    rw [hzero] at hmem
    exact alloc_zero_notMem hok i hmem
  · intro hpos
    have hpositive : ∀ op ∈ trace n maxBlkSize rand, Positive op := by
      intro op hop
      obtain ⟨i, hi, rfl | rfl⟩ := mem_trace hop
      · exact Nat.pos_of_ne_zero (hpos i hi)
      · trivial
    obtain ⟨hlegal, hperm⟩ := @legalTrace_of_liveAfters (trace n maxBlkSize rand) [] [] []
      hpositive (List.Perm.refl []) (liveAfters_trace n maxBlkSize rand)
    exact exists_drained hlegal (List.map_eq_nil_iff.mp hperm.symm.eq_nil) hroom
      (fun op hop => not_highByte hop) hstart hmax

/-- **For all random numbers** each block is freed once, the file is balanced and read back, and
the driver passes `mm.c` on the trace exactly when no size is 0. -/
theorem genRandom_passes (n maxBlkSize : ℕ) (rand : ℕ → ℤ → ℕ) :
    FreedOnce n (fun i => rand i maxBlkSize) (trace n maxBlkSize rand) ∧
      (0 < n → 24 * n < 2 ^ 32 → Sizes n maxBlkSize rand →
        Complete (genRandom n maxBlkSize rand) (traceT n maxBlkSize rand)) ∧
      (424 + (totalBlockSize n maxBlkSize rand + 32 * n) ≤ 2 ^ 24 → ∀ trial : Trial Heap,
        trial.mem.memStartBrk = 0 → trial.mem.memMaxAddr = MAX_HEAP →
          ((∃ trial', evalMmValid mm (trace n maxBlkSize rand) trial = .ok trial' ∧
              Drained trial') ↔ ∀ i < n, rand i maxBlkSize ≠ 0)) := by
  refine ⟨freedOnce_trace n maxBlkSize rand, fun hn hroom hsizes => ?_,
    fun hasked trial hstart hmax => trace_passes_iff hasked hstart hmax⟩
  rw [genRandom_eq]
  exact complete_render (inRange_traceT hsizes hn hroom) (consistent_traceT hn hroom)
    (liveAfters_trace n maxBlkSize rand)

end

/-- The numbers of the script, for sizes that go up. -/
theorem genRandom_passes_up :
    FreedOnce 2400 (fun i => i + 1) (trace 2400 32768 fun i _ => i + 1) ∧
      Complete (genRandom 2400 32768 fun i _ => i + 1) (traceT 2400 32768 fun i _ => i + 1) ∧
      ∃ trial', evalMmValid mm (trace 2400 32768 fun i _ => i + 1) zeroes = .ok trial' ∧
        Drained trial' := by
  obtain ⟨hfreed, hfile, hdriver⟩ := genRandom_passes 2400 32768 fun i _ => i + 1
  have hroom : 424 + (totalBlockSize 2400 32768 (fun i _ => i + 1) + 32 * 2400) ≤ 2 ^ 24 := by
    decide +kernel
  exact ⟨hfreed, hfile (by decide) (by decide) ⟨fun i hi => by omega, by decide⟩,
    (hdriver hroom zeroes zeroes_start zeroes_max).mpr fun i _ => Nat.succ_ne_zero i⟩

/-- Two blocks. -/
example : genRandom 2 16 (fun i _ => if i < 2 then 5 + 2 * i else 0) =
    text "112\n2\n4\n1\na 0 5\nf 0\na 1 7\nf 1\n" := by
  decide +kernel

end GenRandom
