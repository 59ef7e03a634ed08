/-
# Runs of the allocator

`mm_init` establishes the representation invariant, and every client call that
returns keeps it, whatever the client writes into its live payloads in between.  The
runs are those that `mem_sbrk` admits (`Admitted`), and among them those whose heap has
at most `2 ^ 24` bytes (`Reachable`).  With the invariant come the shape of the heap in every
reachable state (`heap_wellFormed`), the safety of live payloads
(`live_payloads`), and the refinement of the abstract sequence of blocks
(`run_refines`), which `blocks` reads off the headers.
-/
import CsappLabs.Calls

open WordMemory LinkedChain Layout

namespace Malloc

/-! ## `mm_init` -/

/-- The heap after the prologue and the first `i` sentinels were stored. -/
structure Laid (h : Heap) (i : ℕ) : Prop where
  startBrk : h.memStartBrk = 0
  maxAddr : h.memMaxAddr = MAX_HEAP
  brk : h.memBrk = 24 + 16 * i
  heads : ∀ j < i, h.heap[j]? = some (headOf j)
  tagged : ∀ j ≤ i, Tagged h.mem (4 + 16 * j) ⟨16, .alloc⟩
  links : ∀ j < i, nxtOf h.mem (headOf j) = 0
  epilogue : read32 h.mem (20 + 16 * i) = 1

/-- `mem_sbrk` when there is room. -/
theorem memSbrk_room {h : Heap} {n : ℕ} (hmax : h.memMaxAddr = MAX_HEAP)
    (hroom : h.memBrk + n ≤ MAX_HEAP) :
    memSbrk h (n : ℤ) = ({ h with memBrk := h.memBrk + n }, h.memBrk) := by
  have hval := maxHeap_eq
  have hsum : u32 (h.memBrk + n) = h.memBrk + n := Nat.mod_eq_of_lt (by omega)
  have hno : ¬ ((n : ℤ) < 0 ∨ h.memBrk + n > h.memMaxAddr) := by omega
  simp only [memSbrk, Int.toNat_natCast, hsum, hno, if_false]

/-- A round of `mm_init` stores one sentinel block and a new epilogue. -/
def sentinelMem (m : Mem) (t : ℕ) : Mem :=
  write32 (write32 (write32 (write32 (write32 m t 17) (t + 4) 0) (t + 8) 0) (t + 12) 17) (t + 16) 1

theorem eqOutside_sentinelMem (m : Mem) (t : ℕ) :
    EqOutside m (sentinelMem m t) t (t + 20) :=
  ((((((EqOutside.refl m t (t + 20)).write32 _ (by omega) (by omega)).write32 _ (by omega)
    (by omega)).write32 _ (by omega) (by omega)).write32 _ (by omega) (by omega)).write32 _
    (by omega) (by omega))

/-- The words of a sentinel block. -/
theorem sentinelMem_words (m : Mem) (t : ℕ) :
    read32 (sentinelMem m t) t = 17 ∧ read32 (sentinelMem m t) (t + 8) = 0 ∧
      read32 (sentinelMem m t) (t + 12) = 17 ∧ read32 (sentinelMem m t) (t + 16) = 1 := by
  unfold sentinelMem
  refine ⟨?_, ?_, ?_, ?_⟩
  · rw [read32_write32_disjoint _ _ (by omega), read32_write32_disjoint _ _ (by omega),
      read32_write32_disjoint _ _ (by omega), read32_write32_disjoint _ _ (by omega),
      read32_write32_same _ _ (by norm_num)]
  · rw [read32_write32_disjoint _ _ (by omega), read32_write32_disjoint _ _ (by omega),
      read32_write32_same _ _ (by norm_num)]
  · rw [read32_write32_disjoint _ _ (by omega), read32_write32_same _ _ (by norm_num)]
  · exact read32_write32_same _ _ (by norm_num)

/-- One round of the loop of `mm_init`. -/
theorem Laid.round {h : Heap} {i k : ℕ} (hl : Laid h i) (hk : i + (k + 1) = 25) :
    ∃ h', mmInitLoop (k + 1) h = mmInitLoop k h' ∧ Laid h' (i + 1) := by
  have hval := maxHeap_eq
  have hbrk := hl.brk
  have hi : N - (k + 1) = i := by
    change 25 - (k + 1) = i
    omega
  have hsbrk := memSbrk_room (n := 16) hl.maxAddr (by omega)
  have hcast : (4 * WSIZE : ℤ) = ((16 : ℕ) : ℤ) := rfl
  have hne : h.memBrk ≠ minusOne := by
    have := minusOne_eq
    omega
  have ht : h.memBrk - WSIZE = 20 + 16 * i := by
    change h.memBrk - 4 = _
    omega
  obtain ⟨t, htdef⟩ : ∃ t, t = 20 + 16 * i := ⟨_, rfl⟩
  have hout := eqOutside_sentinelMem h.mem t
  obtain ⟨hw0, hw8, hw12, hw16⟩ := sentinelMem_words h.mem t
  refine ⟨{ h with
    mem := sentinelMem h.mem t
    memBrk := h.memBrk + 16
    heap := h.heap.setIfInBounds i (t + 12) }, ?_, ?_⟩
  · simp only [mmInitLoop, hcast, hsbrk, hne, if_false, ht, hi, ← htdef]
    rfl
  · constructor
    · exact hl.startBrk
    · exact hl.maxAddr
    · simp only
      omega
    · intro j hj
      simp only [Vector.getElem?_setIfInBounds]
      split_ifs with hij h25
      · subst hij
        rw [headOf, htdef]
        congr 1
        omega
      · exact absurd (show i < 25 by omega) h25
      · exact hl.heads j (by omega)
    · intro j hj
      simp only
      -- the sentinel of this round is written where the epilogue was
      by_cases hji : j = i + 1
      · have hpos : 4 + 16 * j = t := by omega
        rw [hpos]
        exact ⟨rfl, le_rfl, hw0, hw12⟩
      · refine (hl.tagged j (by omega)).of_eqOutside hout (Or.inl ?_)
        simp only
        omega
    · intro j hj
      simp only [nxtOf]
      by_cases hji : j = i
      · have hpos : headOf j - 4 = t + 8 := by
          rw [headOf]
          omega
        rw [hpos]
        exact hw8
      · have hlow : headOf j - 4 + 4 ≤ t := by
          rw [headOf]
          omega
        rw [hout.read32_eq (Or.inl hlow)]
        exact hl.links j (by omega)
    · have hpos : 20 + 16 * (i + 1) = t + 16 := by omega
      rw [hpos]
      exact hw16

/-- The loop of `mm_init`. -/
theorem Laid.loop {k : ℕ} : ∀ {h : Heap} {i : ℕ}, Laid h i → i + k = 25 →
    (mmInitLoop k h).2 = 0 ∧ Laid (mmInitLoop k h).1 25 := by
  induction k with
  | zero =>
      intro h i hl hi
      obtain rfl : i = 25 := by omega
      exact ⟨rfl, hl⟩
  | succ k ih =>
      intro h i hl hi
      obtain ⟨h', hstep, hl'⟩ := hl.round hi
      rw [hstep]
      exact ih hl' (by omega)

/-- The stores of `mm_init` before its loop, on an empty heap. -/
theorem laid_prologue {h₀ : Heap} (hstart : h₀.memStartBrk = 0) (hmax : h₀.memMaxAddr = MAX_HEAP)
    (hbrk : h₀.memBrk = 0) : ∃ h, mmInit h₀ = mmInitLoop 25 h ∧ Laid h 0 := by
  have hval := maxHeap_eq
  have hsbrk := memSbrk_room (n := 24) hmax (by omega)
  have hcast : (6 * WSIZE : ℤ) = ((24 : ℕ) : ℤ) := rfl
  have hne : (0 : ℕ) ≠ minusOne := by
    have := minusOne_eq
    omega
  rw [hbrk] at hsbrk
  obtain ⟨m, hm⟩ : ∃ m, m = write32 (write32 (write32 (write32 h₀.mem 0 0) 4 17) 16 17) 20 1 :=
    ⟨_, rfl⟩
  refine ⟨{ h₀ with mem := m, memBrk := 24, heapStart := 0 }, ?_, ?_⟩
  · simp only [mmInit, hcast, hsbrk, hne, if_false, hm]
    rfl
  · have h4 : read32 m 4 = 17 := by
      rw [hm, read32_write32_disjoint _ _ (by omega), read32_write32_disjoint _ _ (by omega),
        read32_write32_same _ _ (by norm_num)]
    have h16 : read32 m 16 = 17 := by
      rw [hm, read32_write32_disjoint _ _ (by omega), read32_write32_same _ _ (by norm_num)]
    refine ⟨hstart, hmax, rfl, fun j hj => absurd hj (by omega), fun j hj => ?_,
      fun j hj => absurd hj (by omega), ?_⟩
    · obtain rfl : j = 0 := by omega
      exact ⟨rfl, le_rfl, h4, h16⟩
    · rw [hm]
      exact read32_write32_same _ _ (by norm_num)

/-- The sentinels are the blocks of 16 bytes from address 4 on. -/
theorem mem_placed_replicate {a k p : ℕ} {b c : Block}
    (h : (p, b) ∈ placed Block.size a (List.replicate k c)) :
    b = c ∧ ∃ j < k, p = a + c.size * j := by
  induction k generalizing a with
  | zero => simp at h
  | succ k ih =>
      rw [List.replicate_succ, placed_cons, List.mem_cons] at h
      rcases h with h | h
      · obtain ⟨rfl, rfl⟩ := Prod.mk.inj h
        exact ⟨rfl, 0, by omega, by simp⟩
      · obtain ⟨hb, j, hj, rfl⟩ := ih h
        exact ⟨hb, j + 1, by omega, by ring⟩

/-- **`mm_init` establishes the representation invariant** on an empty heap, whatever
the memory and the variables of `mm.c` contained before. -/
theorem mmInit_rep_of_empty {e : Heap} (hstart : e.memStartBrk = 0)
    (hmax : e.memMaxAddr = MAX_HEAP) (hbrk : e.memBrk = 0) :
    (mmInit e).2 = 0 ∧ Rep (mmInit e).1 [] fun _ => [] := by
  obtain ⟨h₀, hinit, hl₀⟩ := laid_prologue hstart hmax hbrk
  obtain ⟨hret, hl⟩ := hl₀.loop (k := 25) (by omega)
  rw [hinit]
  refine ⟨hret, ?_⟩
  obtain ⟨h, hh⟩ : ∃ h, h = (mmInitLoop 25 h₀).1 := ⟨_, rfl⟩
  rw [← hh] at hl ⊢
  constructor
  · exact hl.startBrk
  · exact hl.maxAddr
  · exact hl.brk
  · rw [hl.brk]
    norm_num [MAX_HEAP]
  · simp
  · exact hl.heads
  · intro p b hp
    obtain ⟨rfl, j, hj, rfl⟩ := mem_placed_replicate hp
    exact hl.tagged j (by change j < 26 at hj; omega)
  · intro p b hp
    simp at hp
  · exact hl.epilogue
  · intro i hi
    show Linked _ _ _ [headOf i, 0]
    simp only [Linked, ne_eq, not_true_eq_false, false_implies, and_true]
    exact hl.links i hi
  · exact fun _ => List.nodup_nil
  · intro i n
    simp

/-- **`mm_init` establishes the representation invariant**, whatever the memory
contained before. -/
theorem mmInit_rep (contents : Mem) :
    (mmInit (memInit 0 contents)).2 = 0 ∧
      Rep (mmInit (memInit 0 contents)).1 [] fun _ => [] :=
  mmInit_rep_of_empty rfl (by simp [memInit]) rfl

/-! ## The sequence of blocks read off the headers -/

/-- The blocks from the header at `p` to the epilogue, as their headers say. -/
def blocksFrom (h : Heap) : ℕ → ℕ → List Block
  | 0, _ => []
  | fuel + 1, p =>
      if getSize h p = 0 then []
      else ⟨getSize h p, if getAlloc h p = 1 then .alloc else .free⟩ ::
        blocksFrom h fuel (p + getSize h p)

/-- The abstract state: the blocks after the sentinels. -/
def blocks (h : Heap) : List Block := blocksFrom h h.memBrk (h.memStartBrk + 420)

/-- Reading the headers of tagged blocks gives the blocks. -/
theorem blocksFrom_eq {h : Heap} {bs : List Block} : ∀ {fuel p : ℕ},
    (∀ q b, (q, b) ∈ placed Block.size p bs → Tagged h.mem q b) → (∀ b ∈ bs, b.tag ≠ .loose) →
    read32 h.mem (p + total Block.size bs) = 1 → total Block.size bs < fuel →
    blocksFrom h fuel p = bs := by
  induction bs with
  | nil =>
      intro fuel p _ _ hepi hfuel
      obtain ⟨fuel, rfl⟩ : ∃ k, fuel = k + 1 := ⟨fuel - 1, by omega⟩
      have hzero : getSize h p = 0 := getSize_eq (b := ⟨0, .alloc⟩) hepi rfl
      rw [blocksFrom, if_pos hzero]
  | cons b bs ih =>
      intro fuel p htag htags hepi hfuel
      obtain ⟨fuel, rfl⟩ : ∃ k, fuel = k + 1 := ⟨fuel - 1, by omega⟩
      have ht := htag p b (by simp)
      have hmin := ht.min
      have hsize : getSize h p = b.size := getSize_eq ht.header ht.dvd
      have hbit : getAlloc h p = b.tag.bit := getAlloc_eq ht.header ht.dvd
      have hrest : blocksFrom h fuel (p + b.size) = bs := by
        refine ih (fun q c hq => htag q c ?_) (fun c hc => htags c (by simp [hc])) ?_ ?_
        · rw [placed_cons]
          exact List.mem_cons_of_mem _ hq
        · rw [← hepi, total_cons, Nat.add_assoc]
        · rw [total_cons] at hfuel
          omega
      have hloose := htags b (by simp)
      rw [blocksFrom, hsize, if_neg (by omega), hbit, hrest]
      obtain ⟨s, t⟩ := b
      cases t with
      | alloc => rfl
      | free => rfl
      | loose => exact absurd rfl hloose

theorem Rep.blocks_eq {h : Heap} {bs : List Block} {L : ℕ → List ℕ} (hr : Rep h bs L)
    (hs : Settled bs) : blocks h = bs := by
  have hbrk := hr.brk
  rw [blocks, hr.startBrk]
  exact blocksFrom_eq hr.tagged hs.tags hr.epilogue (by omega)

/-! ## Reachable states -/

/-- The heaps a client reaches, with its live pointers and the sizes they were
last requested with: any legal calls, as long as the heap stays within `2 ^ 24`
bytes, and any stores into live payloads. -/
inductive Reachable : Heap → List (ℕ × ℕ) → Prop where
  | init (contents : Mem) : Reachable (mmInit (memInit 0 contents)).1 []
  | call {h h' : Heap} {live : List (ℕ × ℕ)} {c : Call} {q : ℕ} : Reachable h live →
      Legal live c → c.run h = some (h', q) → memHeapsize h' ≤ 2 ^ 24 →
      Reachable h' (c.after live q)
  | store {h : Heap} {live : List (ℕ × ℕ)} {p n x : ℕ} (b : UInt8) : Reachable h live →
      (p, n) ∈ live → p ≤ x → x < p + n →
      Reachable { h with mem := write8 h.mem x b } live

/-- The invariant of a run. -/
structure Inv (h : Heap) (live : List (ℕ × ℕ)) (bs : List Block) (L : ℕ → List ℕ) : Prop where
  rep : Rep h bs L
  settled : Settled bs
  live : LiveRep (Held bs) live

/-- A call that returns does a step of the sequence or is refused. -/
theorem Inv.call {h h' : Heap} {live : List (ℕ × ℕ)} {bs : List Block} {L : ℕ → List ℕ} {c : Call}
    {q : ℕ} (hi : Inv h live bs L) (hc : Legal live c) (hrun : c.run h = some (h', q)) :
    (∃ bs' L', SeqStep c bs bs' q ∧ Inv h' (c.after live q) bs' L' ∧
      Frame bs c.ptr h.mem h'.mem) ∨
    (h' = h ∧ q = 0 ∧ c.after live q = live ∧ ∃ k, Asks c bs k ∧
      (memSbrk h (toInt k)).2 = minusOne) := by
  cases hi.rep.outcomes hi.settled hi.live hc with
  | done hstep _ hall =>
      obtain ⟨g, hm, hr', hframe⟩ := hall h hi.rep
      obtain ⟨rfl, rfl⟩ := Prod.mk.inj (Option.some.inj (hrun.symm.trans (Call.run_of_logged hm)))
      exact Or.inl ⟨_, _, hstep, ⟨hr', hstep.settled hi.settled, hstep.live hi.settled hi.live⟩,
        hframe⟩
  | refused hask hlt hfull hall =>
      obtain ⟨rfl, rfl⟩ :=
        Prod.mk.inj (Option.some.inj (hrun.symm.trans (Call.run_of_logged (hall h hi.rep))))
      refine Or.inr ⟨rfl, rfl, hask.after hi.settled live, _, hask, ?_⟩
      rw [hi.rep.memSbrk_eq hlt, if_neg (by omega)]
  | overflow _ _ _ hall =>
      rw [Call.run_of_error (hall h hi.rep)] at hrun
      cases hrun

/-- A store into a live payload keeps the invariant. -/
theorem Inv.store {h : Heap} {live : List (ℕ × ℕ)} {bs : List Block} {L : ℕ → List ℕ}
    {p n x : ℕ} (hi : Inv h live bs L) (b : UInt8) (hp : (p, n) ∈ live) (hx : p ≤ x)
    (hx' : x < p + n) : Inv { h with mem := write8 h.mem x b } live bs L := by
  obtain ⟨-, s, hs, hheld⟩ := hi.live.held p n hp
  refine ⟨hi.rep.write_payload hheld fun y hy => ?_, hi.settled, hi.live⟩
  rw [write8, if_neg (by omega)]

/-- The heaps a client reaches with any legal calls that return: the runs that `mem_sbrk`
admits, with a heap of up to `MAX_HEAP` bytes. -/
inductive Admitted : Heap → List (ℕ × ℕ) → Prop where
  | init (contents : Mem) : Admitted (mmInit (memInit 0 contents)).1 []
  | call {h h' : Heap} {live : List (ℕ × ℕ)} {c : Call} {q : ℕ} : Admitted h live →
      Legal live c → c.run h = some (h', q) → Admitted h' (c.after live q)
  | store {h : Heap} {live : List (ℕ × ℕ)} {p n x : ℕ} (b : UInt8) : Admitted h live →
      (p, n) ∈ live → p ≤ x → x < p + n → Admitted { h with mem := write8 h.mem x b } live

theorem Reachable.admitted {h : Heap} {live : List (ℕ × ℕ)} (hr : Reachable h live) :
    Admitted h live := by
  induction hr with
  | init contents => exact .init contents
  | call _ hc hrun _ ih => exact .call ih hc hrun
  | store b _ hp hx hx' ih => exact .store b ih hp hx hx'

/-- The same runs with the events of their calls. -/
inductive Recorded : Heap → List (ℕ × ℕ) → List HeapEvent → Prop where
  | init (contents : Mem) : Recorded (mmInit (memInit 0 contents)).1 [] []
  | call {h h' : Heap} {live : List (ℕ × ℕ)} {es : List HeapEvent} {c : Call} {q : ℕ} :
      Recorded h live es → Legal live c → c.run h = some (h', q) →
      Recorded h' (c.after live q) (es ++ (c.logged h).events)
  | store {h : Heap} {live : List (ℕ × ℕ)} {es : List HeapEvent} {p n x : ℕ} (b : UInt8) :
      Recorded h live es → (p, n) ∈ live → p ≤ x → x < p + n →
      Recorded { h with mem := write8 h.mem x b } live es

/-- Every run has its events. -/
theorem admitted_iff_recorded {h : Heap} {live : List (ℕ × ℕ)} :
    Admitted h live ↔ ∃ es, Recorded h live es := by
  constructor
  · intro hr
    induction hr with
    | init contents => exact ⟨_, .init contents⟩
    | call _ hc hrun ih =>
        obtain ⟨es, hd⟩ := ih
        exact ⟨_, hd.call hc hrun⟩
    | store b _ hp hx hx' ih =>
        obtain ⟨es, hd⟩ := ih
        exact ⟨_, hd.store b hp hx hx'⟩
  · rintro ⟨es, hd⟩
    induction hd with
    | init contents => exact .init contents
    | call _ hc hrun ih => exact ih.call hc hrun
    | store b _ hp hx hx' ih => exact ih.store b hp hx hx'

theorem Reachable.heapsize_le {h : Heap} {live : List (ℕ × ℕ)} (hr : Reachable h live) :
    memHeapsize h ≤ 2 ^ 24 := by
  induction hr with
  | init contents =>
      have hrep := (mmInit_rep contents).2
      rw [memHeapsize, hrep.startBrk, hrep.brk]
      norm_num
  | call _ _ _ hsize _ => exact hsize
  | store _ _ _ _ _ ih => exact ih

theorem Inv.init (contents : Mem) : Inv (mmInit (memInit 0 contents)).1 [] [] fun _ => [] :=
  ⟨(mmInit_rep contents).2, settled_nil, List.nodup_nil, by simp, fun p s h => absurd h (by simp)⟩

/-- A call keeps the invariant. -/
theorem Inv.kept {h h' : Heap} {live : List (ℕ × ℕ)} {bs : List Block} {L : ℕ → List ℕ} {c : Call}
    {q : ℕ} (hi : Inv h live bs L) (hc : Legal live c) (hrun : c.run h = some (h', q)) :
    ∃ bs' L', Inv h' (c.after live q) bs' L' := by
  rcases hi.call hc hrun with ⟨bs', L', -, hi', -⟩ | ⟨rfl, rfl, hafter, -⟩
  · exact ⟨bs', L', hi'⟩
  · exact ⟨bs, L, hafter.symm ▸ hi⟩

/-- **Every state reached satisfies the invariant.** -/
theorem Admitted.inv {h : Heap} {live : List (ℕ × ℕ)} (hr : Admitted h live) :
    ∃ bs L, Inv h live bs L := by
  induction hr with
  | init contents => exact ⟨_, _, Inv.init contents⟩
  | call _ hc hrun ih =>
      obtain ⟨bs, L, hi⟩ := ih
      exact hi.kept hc hrun
  | store b _ hp hx hx' ih =>
      obtain ⟨bs, L, hi⟩ := ih
      exact ⟨bs, L, hi.store b hp hx hx'⟩

theorem Reachable.inv {h : Heap} {live : List (ℕ × ℕ)} (hr : Reachable h live) :
    ∃ bs L, Inv h live bs L := hr.admitted.inv

/-- A run of legal calls from a heap with these live pointers: the heap and the live
pointers after it, and what the calls returned. -/
def runs : Heap → List (ℕ × ℕ) → List Call → Option (Heap × List (ℕ × ℕ) × List ℕ)
  | h, live, [] => some (h, live, [])
  | h, live, c :: cs =>
      if Legal live c then do
        let (h', q) ← c.run h
        let (h'', live', qs) ← runs h' (c.after live q) cs
        some (h'', live', q :: qs)
      else none

/-- A run from a state that is reached leads to another. -/
theorem Admitted.runs {h h' : Heap} {live live' : List (ℕ × ℕ)} {cs : List Call} {qs : List ℕ}
    (hr : Admitted h live) (hrun : runs h live cs = some (h', live', qs)) :
    Admitted h' live' := by
  induction cs generalizing h live qs with
  | nil =>
      simp only [Malloc.runs, Option.some.injEq, Prod.mk.injEq] at hrun
      obtain ⟨rfl, rfl, -⟩ := hrun
      exact hr
  | cons c cs ih =>
      simp only [Malloc.runs, Option.ite_none_right_eq_some, Option.bind_eq_bind,
        Option.bind_eq_some_iff, Option.some.injEq, Prod.exists, Prod.mk.injEq] at hrun
      obtain ⟨hc, h₁, q, hcall, h₂, live₂, qs₂, hrest, rfl, rfl, -⟩ := hrun
      exact ih (hr.call hc hcall) hrest

/-- The state after a run of calls on an empty heap of zeroes, when the live pointers and
the results evaluate to these. -/
theorem admitted_of_runs {cs : List Call} {live : List (ℕ × ℕ)} {qs : List ℕ}
    (hval : (runs (mmInit (memInit 0 fun _ => 0)).1 [] cs).map Prod.snd = some (live, qs)) :
    ∃ h, runs (mmInit (memInit 0 fun _ => 0)).1 [] cs = some (h, live, qs) ∧ Admitted h live := by
  obtain ⟨⟨h, live', qs'⟩, hrun, hp⟩ := Option.map_eq_some_iff.mp hval
  obtain ⟨rfl, rfl⟩ := Prod.mk.inj hp
  exact ⟨h, hrun, (Admitted.init _).runs hrun⟩

/-- A first request of 100 bytes extends an empty heap by a block of 112. -/
theorem first_malloc : ∃ h, Call.run (mmInit (memInit 0 fun _ => 0)).1 (.malloc 100) =
    some (h, 424) ∧ memHeapsize h ≤ 2 ^ 24 := by
  have hval : (Call.run (mmInit (memInit 0 fun _ => 0)).1 (.malloc 100)).map
      (fun r => (memHeapsize r.1, r.2)) = some (536, 424) := by decide +kernel
  obtain ⟨⟨h, p⟩, hrun, hp⟩ := Option.map_eq_some_iff.mp hval
  obtain ⟨hsize, rfl⟩ := Prod.mk.inj hp
  exact ⟨h, hrun, by simp only at hsize; omega⟩

/-- What evaluates after the first request. -/
theorem eval_first {α : Type} {h : Heap} {q : ℕ} {v : α}
    (hrun : Call.run (mmInit (memInit 0 fun _ => 0)).1 (.malloc 100) = some (h, q))
    (f : Heap → Option α)
    (hval : ((Call.run (mmInit (memInit 0 fun _ => 0)).1 (.malloc 100)).bind fun r => f r.1) =
      some v) : f h = some v := by
  rwa [hrun, Option.bind_some] at hval

theorem reachable_first {h : Heap} (hrun : Call.run (mmInit (memInit 0 fun _ => 0)).1
    (.malloc 100) = some (h, 424)) (hsize : memHeapsize h ≤ 2 ^ 24) :
    Reachable h [(424, 100)] :=
  Reachable.call (c := .malloc 100) (Reachable.init _) (by decide) hrun hsize

/-! ## The shape of the heap -/

/-- The shape of the heap, in terms of its words: the blocks tile it, with equal
headers and footers and no two free neighbours, and the free lists are finite
doubly linked chains that hold each free block once, in the list of its class. -/
structure WellFormed (h : Heap) (L : ℕ → List ℕ) : Prop where
  tiled : h.memStartBrk + 4 + total Block.size (sentinels ++ blocks h) + 4 = h.memBrk
  epilogue : get h (h.memBrk - 4) = pack 0 1
  tags : ∀ p b, (p, b) ∈ placed Block.size (h.memStartBrk + 4) (sentinels ++ blocks h) →
    get h p = pack b.size b.tag.bit ∧ get h (p + b.size - 4) = get h p ∧
      b.size % 8 = 0 ∧ 16 ≤ b.size
  apart : (sentinels ++ blocks h).IsChain fun b c => ¬ (b.tag = .free ∧ c.tag = .free)
  chain : ∀ i < N, ∃ head, h.heap[i]? = some head ∧ (head :: L i ++ [0]).Nodup ∧
    Linked (fun x => get h (succ x)) (fun x => get h (pred x)) (· ≠ 0) (head :: L i ++ [0])
  nodes : ∀ i < N, ∀ n ∈ L i, ∃ p s, n = p + 12 ∧
    (p, ⟨s, .free⟩) ∈ placed Block.size (h.memStartBrk + 420) (blocks h) ∧
      2 ^ (i - 1) < s ∧ s ≤ 2 ^ i
  listed : ∀ p s, (p, ⟨s, .free⟩) ∈ placed Block.size (h.memStartBrk + 420) (blocks h) →
    ∃! i, i < N ∧ p + 12 ∈ L i

theorem settled_sentinels : Settled sentinels := by
  refine ⟨by decide, by decide, ?_⟩
  have hall : ∀ b ∈ sentinels, b.tag ≠ .free := by decide
  refine List.Pairwise.isChain (List.pairwise_of_forall_mem_list fun b hb c _ => ?_)
  rintro ⟨hf, -⟩
  exact hall b hb hf

theorem Rep.wellFormed {h : Heap} {bs : List Block} {L : ℕ → List ℕ} (hr : Rep h bs L)
    (hs : Settled bs) : WellFormed h L := by
  have hbrk := hr.brk
  have hsent := total_sentinels
  have hblocks := hr.blocks_eq hs
  have hsplit : ∀ p b, (p, b) ∈ placed Block.size 4 (sentinels ++ bs) → Tagged h.mem p b := by
    intro p b hp
    rw [placed_append, List.mem_append, hsent] at hp
    rcases hp with hp | hp
    · exact hr.sentinel p b hp
    · exact hr.tagged p b hp
  constructor
  · rw [hblocks, hr.startBrk, total_append]
    omega
  · have hpos : h.memBrk - 4 = 420 + total Block.size bs := by omega
    rw [hpos]
    exact hr.epilogue
  · intro p b hp
    rw [hblocks, hr.startBrk] at hp
    have ht := hsplit p b hp
    exact ⟨ht.header.trans (pack_eq ht.dvd b.tag.bit_le).symm, ht.footer.trans ht.header.symm,
      ht.dvd, ht.min⟩
  · rw [hblocks]
    have hlast : (prevBlock sentinels).tag ≠ .free := by decide
    exact (settled_append.mpr ⟨settled_sentinels, hs, fun hc => hlast hc.1⟩).apart
  · intro i hi
    refine ⟨headOf i, hr.heads i hi, ?_, hr.chain i hi⟩
    have hhead : headOf i ≠ 0 ∧ headOf i < 432 := by
      rw [headOf]
      change i < 25 at hi
      omega
    rw [List.cons_append, List.nodup_cons, List.mem_append, List.nodup_append]
    refine ⟨?_, hr.nodup i, by simp, ?_⟩
    · rintro (hmem | hmem)
      · have := hr.node_bounds hmem
        omega
      · exact hhead.1 (by simpa using hmem)
    · intro n hn z hz
      have := hr.node_bounds hn
      rw [List.mem_singleton] at hz
      omega
  · intro i hi n hn
    obtain ⟨p, s, hp, rfl, hclass⟩ := (hr.nodes i n).mp hn
    have hb := hr.block_bounds hp
    simp only at hb
    have hpos : 1 ≤ i := by
      rw [Nat.one_le_iff_ne_zero]
      rintro rfl
      have := Nat.le_pow_clog (b := 2) (by norm_num) s
      rw [hclass] at this
      omega
    rw [hblocks, hr.startBrk]
    exact ⟨p, s, rfl, hp, (clog_eq_iff hpos).mp hclass⟩
  · intro p s hp
    rw [hblocks, hr.startBrk] at hp
    have hn := (hr.nodes (Nat.clog 2 s) (p + 12)).mpr ⟨p, s, hp, rfl, rfl⟩
    refine ⟨Nat.clog 2 s, ⟨hr.index_lt hn, hn⟩, ?_⟩
    rintro j ⟨-, hj⟩
    exact hr.index_unique hj hn

/-- When no pointer is live, at most one block is left. -/
theorem Inv.length_le {h : Heap} {bs : List Block} {L : ℕ → List ℕ} (hi : Inv h [] bs L) :
    bs.length ≤ 1 := by
  have hfree : ∀ xs b ys, bs = xs ++ b :: ys → b.tag = .free := by
    intro xs b ys hbs
    obtain ⟨s, t⟩ := b
    cases t with
    | alloc =>
        have hheld : Held bs (420 + total Block.size xs + 4) s := by simp [hbs]
        exact absurd (hi.live.all _ _ hheld) (by simp)
    | free => rfl
    | loose => exact absurd rfl (hi.settled.tags ⟨s, .loose⟩ (by simp [hbs]))
  match bs, hi.settled.apart, hfree with
  | [], _, _ => simp
  | [b], _, _ => simp
  | b :: c :: ys, hchain, hfree =>
      have hb := hfree [] b (c :: ys) rfl
      have hc := hfree [b] c ys rfl
      exact absurd ⟨hb, hc⟩ (List.isChain_cons_cons.mp hchain).1

/-- The bytes that a call asks `mem_sbrk` for leave the heap at most `2 ^ 24` bytes, or are
refused. -/
def Roomy (h : Heap) (c : Call) : Prop :=
  ∀ k, Asks c (blocks h) k → h.memBrk + k ≤ 2 ^ 24 ∨ MAX_HEAP < h.memBrk + k

/-- **A legal call returns** when the break stays below `2 ^ 24`, or `mem_sbrk` refuses. -/
theorem Inv.returns {h : Heap} {live : List (ℕ × ℕ)} {bs : List Block} {L : ℕ → List ℕ}
    {c : Call} (hi : Inv h live bs L) (hsize : memHeapsize h ≤ 2 ^ 24) (hc : Legal live c)
    (hroom : Roomy h c) : ∃ h' q, c.run h = some (h', q) ∧ memHeapsize h' ≤ 2 ^ 24 := by
  have hbrk := hi.rep.brk
  rw [Roomy, hi.rep.blocks_eq hi.settled] at hroom
  rw [memHeapsize, hi.rep.startBrk, Nat.sub_zero] at hsize
  cases hi.rep.outcomes hi.settled hi.live hc with
  | done hstep _ hall =>
      obtain ⟨h', hm, hr', -⟩ := hall h hi.rep
      refine ⟨h', _, Call.run_of_logged hm, ?_⟩
      have hbrk' := hr'.brk
      have hsmall' := hr'.small
      rw [memHeapsize, hr'.startBrk, Nat.sub_zero]
      rcases hstep.total_eq with htotal | ⟨k, hask, htotal⟩
      · omega
      · have := hroom k hask
        omega
  | refused _ _ _ hall =>
      refine ⟨h, _, Call.run_of_logged (hall h hi.rep), ?_⟩
      rw [memHeapsize, hi.rep.startBrk, Nat.sub_zero]
      exact hsize
  | overflow hforms hbig _ _ =>
      obtain ⟨k, hk, hle, hfit⟩ := hforms.room hbrk hi.rep.small
      rcases hk with rfl | hask
      · omega
      · have := hroom k hask
        omega

/-- **The heap is well formed in every reachable state**, one block is left at
most when everything was freed, and the next legal call returns, unless it has
`mem_sbrk` move the break beyond `2 ^ 24` bytes. -/
theorem heap_wellFormed {h : Heap} {live : List (ℕ × ℕ)} (hr : Reachable h live) :
    (∃ L, WellFormed h L) ∧ (live = [] → (blocks h).length ≤ 1) ∧
      ∀ c, Legal live c → Roomy h c →
        ∃ h' q, c.run h = some (h', q) ∧ memHeapsize h' ≤ 2 ^ 24 := by
  obtain ⟨bs, L, hi⟩ := hr.inv
  refine ⟨⟨L, hi.rep.wellFormed hi.settled⟩, ?_, fun c hc hroom =>
    hi.returns hr.heapsize_le hc hroom⟩
  rintro rfl
  rw [hi.rep.blocks_eq hi.settled]
  exact hi.length_le

theorem heap_wellFormed_first : ∃ h, Reachable h [(424, 100)] ∧ (∃ L, WellFormed h L) ∧
    ∃ h' q, Call.run h (.free 424) = some (h', q) ∧ memHeapsize h' ≤ 2 ^ 24 := by
  obtain ⟨h, hrun, hsize⟩ := first_malloc
  have hr := reachable_first hrun hsize
  obtain ⟨hwf, -, hnext⟩ := heap_wellFormed hr
  refine ⟨h, hr, hwf, hnext (.free 424) (by simp [Legal]) fun k hk => ?_⟩
  cases hk

/-! ## Live payloads -/

/-- A live pointer is aligned, and its extent lies inside its block. -/
theorem Inv.extent {h : Heap} {live : List (ℕ × ℕ)} {bs : List Block} {L : ℕ → List ℕ}
    (hi : Inv h live bs L) {p n : ℕ} (hp : (p, n) ∈ live) :
    ∃ s, Held bs p s ∧ n + 8 ≤ s ∧ p % 8 = 0 ∧ p + s ≤ h.memBrk := by
  obtain ⟨-, s, hs, q, rfl, hq⟩ := hi.live.held p n hp
  have hb := hi.rep.block_bounds hq
  simp only at hb
  exact ⟨s, ⟨q, rfl, hq⟩, hs, by omega, by omega⟩

/-- The extents of two live pointers do not overlap. -/
theorem Inv.disjoint {h : Heap} {live : List (ℕ × ℕ)} {bs : List Block} {L : ℕ → List ℕ}
    (hi : Inv h live bs L) {p n q k : ℕ} (hp : (p, n) ∈ live) (hq : (q, k) ∈ live)
    (hne : p ≠ q) : p + n ≤ q ∨ q + k ≤ p := by
  obtain ⟨s, hs, hns, -⟩ := hi.extent hp
  obtain ⟨t, ht, hkt, -⟩ := hi.extent hq
  rcases hs.disjoint ht with ⟨h, -⟩ | h | h
  · exact absurd h hne
  · omega
  · omega

/-- The requests of the live pointers fit in the blocks. -/
theorem Inv.live_bytes {h : Heap} {live : List (ℕ × ℕ)} {bs : List Block} {L : ℕ → List ℕ}
    (hi : Inv h live bs L) : (live.map Prod.snd).sum ≤ total Block.size bs := by
  have hnodup : live.Nodup := hi.live.nodup.of_map
  have hbrk := hi.rep.brk
  have hdisjoint : ∀ x ∈ live.toFinset, ∀ y ∈ live.toFinset, x ≠ y →
      Disjoint (Finset.Ico x.1 (x.1 + x.2)) (Finset.Ico y.1 (y.1 + y.2)) := by
    intro x hx y hy hxy
    rw [List.mem_toFinset] at hx hy
    have hne : x.1 ≠ y.1 := fun h => hxy (List.inj_on_of_nodup_map hi.live.nodup hx hy h)
    rw [Finset.disjoint_left]
    intro a ha ha'
    rw [Finset.mem_Ico] at ha ha'
    rcases hi.disjoint hx hy hne with h | h <;> omega
  have hinside : (live.toFinset.biUnion fun x => Finset.Ico x.1 (x.1 + x.2)) ⊆
      Finset.Ico 420 (420 + total Block.size bs) := by
    intro a ha
    rw [Finset.mem_biUnion] at ha
    obtain ⟨x, hx, ha⟩ := ha
    obtain ⟨s, hheld, hs, -, hend⟩ := hi.extent (List.mem_toFinset.mp hx)
    have hlow := hheld.bounds
    rw [Finset.mem_Ico] at ha ⊢
    omega
  calc (live.map Prod.snd).sum
      = ∑ x ∈ live.toFinset, x.2 := (List.sum_toFinset _ hnodup).symm
    _ = ∑ x ∈ live.toFinset, (Finset.Ico x.1 (x.1 + x.2)).card := by simp
    _ = (live.toFinset.biUnion fun x => Finset.Ico x.1 (x.1 + x.2)).card :=
        (Finset.card_biUnion hdisjoint).symm
    _ ≤ (Finset.Ico 420 (420 + total Block.size bs)).card := Finset.card_le_card hinside
    _ = total Block.size bs := by simp

/-- The heap does not shrink. -/
theorem Inv.heapsize_le {h h' : Heap} {live : List (ℕ × ℕ)} {bs : List Block} {L : ℕ → List ℕ}
    {c : Call} {q : ℕ} (hi : Inv h live bs L) (hc : Legal live c) (hrun : c.run h = some (h', q)) :
    memHeapsize h ≤ memHeapsize h' := by
  rcases hi.call hc hrun with ⟨bs', L', hstep, hi', -⟩ | ⟨rfl, -⟩
  · have hsize := hi.rep.brk
    have hsize' := hi'.rep.brk
    rw [memHeapsize, memHeapsize, hi.rep.startBrk, hi'.rep.startBrk]
    rcases hstep.total_eq with heq | ⟨k, -, heq⟩ <;> omega
  · exact le_rfl

/-- What a call returned is live afterwards, and what was live before and not
passed to the call still is. -/
theorem Call.after_eq (live : List (ℕ × ℕ)) {c : Call} {q : ℕ} (hq : q ≠ 0)
    (hn : 0 < c.request) : ∃ rest, c.after live q = (q, c.request) :: rest ∧
      ∀ p n, (p, n) ∈ live → p ≠ c.ptr → (p, n) ∈ rest := by
  cases c with
  | malloc n =>
      rw [Call.after, if_neg hq]
      exact ⟨live, rfl, fun p k hp _ => hp⟩
  | free p => exact absurd hn (by simp [Call.request])
  | realloc p n =>
      have hn0 : n ≠ 0 := Nat.pos_iff_ne_zero.mp hn
      rw [Call.after, if_neg hn0, if_neg hq]
      exact ⟨dropPtr live p, rfl, fun r k hr hne => LiveRep.mem_dropPtr.mpr ⟨hr, hne⟩⟩

/-- A call that returns a pointer asks for some bytes. -/
theorem SeqStep.request_pos {c : Call} {bs bs' : List Block} {q : ℕ} (h : SeqStep c bs bs' q)
    (hs : Settled bs) (hq : q ≠ 0) : 0 < c.request := by
  have hsize : ∀ {b : Block}, b ∈ bs → 16 ≤ b.size := fun hb => (hs.sizes _ hb).2
  cases h with
  | mallocZero => exact absurd rfl hq
  | malloc hn _ => exact hn
  | free _ => exact absurd rfl hq
  | reallocZero _ => exact absurd rfl hq
  | reallocNull hn _ => exact hn
  | reallocNullZero => exact absurd rfl hq
  | keep _ hn _ => exact hn
  | @grow xs s n hlt =>
      have := hsize (b := ⟨s, .alloc⟩) (by simp)
      show 0 < n
      simp only at this
      omega
  | @absorb xs ys s t n hlt _ =>
      have := hsize (b := ⟨s, .alloc⟩) (by simp)
      show 0 < n
      simp only at this
      omega
  | @move xs ys _ _ s n _ hlt _ _ _ _ =>
      have := hsize (b := ⟨s, .alloc⟩) (by simp)
      show 0 < n
      simp only at this
      omega

/-- **Live payloads never interfere.**  In every reachable state the extents of
the live pointers are aligned, inside the heap and disjoint, and a call changes no
byte of an extent other than the one it was passed; what it returns is aligned,
inside the heap, and disjoint from the others. -/
theorem live_payloads {h : Heap} {live : List (ℕ × ℕ)} (hr : Reachable h live) :
    (∀ p n, (p, n) ∈ live →
      (p - h.memStartBrk) % ALIGNMENT = 0 ∧ h.memStartBrk ≤ p ∧ p + n ≤ h.memBrk) ∧
    (∀ p n q k, (p, n) ∈ live → (q, k) ∈ live → p ≠ q → p + n ≤ q ∨ q + k ≤ p) ∧
    ∀ c h' q, Legal live c → c.run h = some (h', q) → memHeapsize h' ≤ 2 ^ 24 →
      (∀ p n, (p, n) ∈ live → p ≠ c.ptr → ∀ x, p ≤ x → x < p + n → h'.mem x = h.mem x) ∧
      (q ≠ 0 → (q - h'.memStartBrk) % ALIGNMENT = 0 ∧ h'.memStartBrk ≤ q ∧
        q + c.request ≤ h'.memBrk ∧
        ∀ p n, (p, n) ∈ live → p ≠ c.ptr → p + n ≤ q ∨ q + c.request ≤ p) := by
  obtain ⟨bs, L, hi⟩ := hr.inv
  have hextent : ∀ {h : Heap} {live : List (ℕ × ℕ)} {bs : List Block} {L : ℕ → List ℕ},
      Inv h live bs L → ∀ p n, (p, n) ∈ live →
        (p - h.memStartBrk) % ALIGNMENT = 0 ∧ h.memStartBrk ≤ p ∧ p + n ≤ h.memBrk := by
    intro h live bs L hi p n hp
    obtain ⟨s, -, hs, hal, hle⟩ := hi.extent hp
    rw [hi.rep.startBrk]
    exact ⟨hal, Nat.zero_le p, by omega⟩
  refine ⟨hextent hi, fun p n q k hp hq hne => hi.disjoint hp hq hne, ?_⟩
  intro c h' q hc hrun hsize
  rcases hi.call hc hrun with ⟨bs', L', hstep, hi', hframe⟩ | ⟨rfl, rfl, -, -⟩
  · constructor
    · -- an extent is inside its block
      intro p n hp hne x hx hx'
      obtain ⟨s, hs, hns, -⟩ := hi.extent hp
      exact hframe p s hs hne x hx (by omega)
    · intro hq
      obtain ⟨rest, hafter, hothers⟩ := Call.after_eq live hq
        (hstep.request_pos hi.settled hq)
      have hmem : (q, c.request) ∈ c.after live q := by
        rw [hafter]
        exact List.mem_cons_self
      obtain ⟨h1, h2, h3⟩ := hextent hi' _ _ hmem
      refine ⟨h1, h2, h3, fun p n hp hne => ?_⟩
      have hrest := hothers p n hp hne
      have hnodup := hi'.live.nodup
      rw [hafter, List.map_cons, List.nodup_cons] at hnodup
      have hpq : p ≠ q := by
        rintro rfl
        exact hnodup.1 (List.mem_map.mpr ⟨(p, n), hrest, rfl⟩)
      refine hi'.disjoint ?_ hmem hpq
      rw [hafter]
      exact List.mem_cons_of_mem _ hrest
  · exact ⟨fun _ _ _ _ _ _ _ => rfl, fun hq => absurd rfl hq⟩

/-- A second request of 100 bytes is served behind the first one. -/
theorem second_malloc : ∃ h, Reachable h [(536, 100), (424, 100)] ∧
    ∃ h', Call.run h (.realloc 424 200) = some (h', 648) ∧ memHeapsize h' ≤ 2 ^ 24 := by
  obtain ⟨h, hrun, hsize⟩ := first_malloc
  have hval := eval_first (v := (648, 536, 856, 648)) hrun
    (fun h => (Call.run h (.malloc 100)).bind fun a =>
      (Call.run a.1 (.realloc 424 200)).map fun b =>
        (memHeapsize a.1, a.2, memHeapsize b.1, b.2)) (by decide +kernel)
  obtain ⟨⟨h₁, q₁⟩, hrun₁, hval⟩ := Option.bind_eq_some_iff.mp hval
  obtain ⟨⟨h₂, q₂⟩, hrun₂, hval⟩ := Option.map_eq_some_iff.mp hval
  simp only [Prod.mk.injEq] at hval
  obtain ⟨hsize₁, rfl, hsize₂, rfl⟩ := hval
  exact ⟨h₁, (reachable_first hrun hsize).call (c := .malloc 100) (by decide) hrun₁ (by omega),
    h₂, hrun₂, by omega⟩

/-- Two payloads, of which the first one is moved. -/
theorem live_payloads_first : ∃ h h', Reachable h [(536, 100), (424, 100)] ∧
    ((536 - h.memStartBrk) % ALIGNMENT = 0 ∧ h.memStartBrk ≤ 536 ∧ 536 + 100 ≤ h.memBrk) ∧
    (424 + 100 ≤ 536 ∨ 536 + 100 ≤ 424) ∧ Call.run h (.realloc 424 200) = some (h', 648) ∧
    (∀ x, 536 ≤ x → x < 536 + 100 → h'.mem x = h.mem x) ∧
    (648 - h'.memStartBrk) % ALIGNMENT = 0 ∧ 648 + 200 ≤ h'.memBrk ∧
    (536 + 100 ≤ 648 ∨ 648 + 200 ≤ 536) := by
  obtain ⟨h, hr, h', hrun, hsize⟩ := second_malloc
  obtain ⟨hextent, hdisjoint, hcall⟩ := live_payloads hr
  obtain ⟨hframe, hnew⟩ := hcall (.realloc 424 200) h' 648 (by decide) hrun hsize
  obtain ⟨haligned, -, hinside, hothers⟩ := hnew (by decide)
  exact ⟨h, h', hr, hextent 536 100 (by simp), hdisjoint 424 100 536 100 (by simp) (by simp)
    (by decide), hrun, hframe 536 100 (by simp) (by decide), haligned, hinside,
    hothers 536 100 (by simp) (by decide)⟩

/-! ## Refinement -/

/-- **The word-level heap refines the sequence of blocks.**  Every legal call returns, when the
break stays below `2 ^ 24` or `mem_sbrk` refuses, and does a step of the sequence, unless
`mem_sbrk` refuses the bytes it asks for; then it returns null and changes nothing.  A block of
`mm_malloc` has the size asked for, or eight bytes more. -/
theorem run_refines {h : Heap} {live : List (ℕ × ℕ)} {c : Call} (hr : Reachable h live)
    (hc : Legal live c) :
    (Roomy h c → ∃ h' q, c.run h = some (h', q)) ∧
    ∀ h' q, c.run h = some (h', q) →
      (SeqStep c (blocks h) (blocks h') q ∨
        (h' = h ∧ q = 0 ∧ ∃ k, Asks c (blocks h) k ∧ (memSbrk h (toInt k)).2 = minusOne)) ∧
      ∀ n, c = .malloc n → q ≠ 0 →
        ∃ s, Held (blocks h') q s ∧ (s = blockSize n ∨ s = blockSize n + 8) := by
  obtain ⟨bs, L, hi⟩ := hr.inv
  constructor
  · intro hroom
    obtain ⟨h', q, hrun, -⟩ := hi.returns hr.heapsize_le hc hroom
    exact ⟨h', q, hrun⟩
  · intro h' q hrun
    rcases hi.call hc hrun with ⟨bs', L', hstep, hi', -⟩ | ⟨rfl, rfl, -, k, hask, hfull⟩
    · rw [hi.rep.blocks_eq hi.settled, hi'.rep.blocks_eq hi'.settled]
      refine ⟨Or.inl hstep, ?_⟩
      rintro n rfl hq
      cases hstep with
      | mallocZero => exact absurd rfl hq
      | malloc hn hm =>
          obtain ⟨t, ht, -, -, hheld⟩ := hm.held hi.settled
          exact ⟨t, (hheld q t).mpr (Or.inr ⟨rfl, rfl⟩), ht⟩
    · rw [hi.rep.blocks_eq hi.settled]
      exact ⟨Or.inr ⟨rfl, rfl, k, hask, hfull⟩, fun _ _ hq => absurd rfl hq⟩

/-- The first request of 100 bytes. -/
theorem run_refines_first : ∃ h s, Call.run (mmInit (memInit 0 fun _ => 0)).1 (.malloc 100) =
    some (h, 424) ∧
    SeqStep (.malloc 100) (blocks (mmInit (memInit 0 fun _ => 0)).1) (blocks h) 424 ∧
    Held (blocks h) 424 s ∧ (s = 112 ∨ s = 120) := by
  obtain ⟨h, hrun, hsize⟩ := first_malloc
  obtain ⟨hstep, hheld⟩ := (run_refines (Reachable.init _) (c := .malloc 100) (by decide)).2 h 424
    hrun
  obtain ⟨s, hs, hval⟩ := hheld 100 rfl (by decide)
  exact ⟨h, s, hrun, hstep.resolve_right fun hno => absurd hno.2.1 (by decide), hs, hval⟩

end Malloc
