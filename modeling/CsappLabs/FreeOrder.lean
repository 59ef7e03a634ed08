/-
# Freeing in any order

Each `mm_free` joins its block with whatever is free around it at that moment, so two
orders of the same calls go through different sequences of blocks.  They end in the same
one: the sequence with these blocks marked free (`release`) and all adjacent free blocks
joined (`merge`).

Joining early does not matter for joining at the end (`merge_release_merge`), which carries
the induction over the calls (`Inv.freeAll`).

The rest that `mm_malloc` splits off is joined again when the block is freed at once
(`free_undoes_malloc`).
-/
import CsappLabs.HeapRuns

open WordMemory LinkedChain Layout Effects Prog

namespace Malloc

/-! ## The joined sequence -/

/-- A block in front of a sequence, joined with the first block when both are free. -/
def glue : Block → List Block → List Block
  | ⟨s, .free⟩, ⟨t, .free⟩ :: bs => ⟨s + t, .free⟩ :: bs
  | b, bs => b :: bs

/-- The sequence with all adjacent free blocks joined. -/
def merge (bs : List Block) : List Block := bs.foldr glue []

/-- The sequence laid out from `a` with the blocks of the pointers `ps` free. -/
def release (ps : List ℕ) : ℕ → List Block → List Block
  | _, [] => []
  | a, b :: bs => ⟨b.size, if a + 4 ∈ ps then .free else b.tag⟩ :: release ps (a + b.size) bs

@[simp] theorem merge_cons (b : Block) (bs : List Block) :
    merge (b :: bs) = glue b (merge bs) := rfl

theorem glue_free (s t : ℕ) (bs : List Block) :
    glue ⟨s, .free⟩ (⟨t, .free⟩ :: bs) = ⟨s + t, .free⟩ :: bs := rfl

/-- Two blocks that are not both free are not joined. -/
theorem glue_of_apart {b : Block} {bs : List Block}
    (h : ¬ (b.tag = .free ∧ (nextBlock bs).tag = .free)) : glue b bs = b :: bs := by
  obtain ⟨s, t⟩ := b
  cases bs with
  | nil => cases t <;> rfl
  | cons c bs =>
      obtain ⟨u, v⟩ := c
      cases t <;> cases v <;> first | rfl | exact absurd ⟨rfl, rfl⟩ h

/-- Three blocks are joined in any order. -/
theorem glue_glue (s t : ℕ) (bs : List Block) :
    glue ⟨s, .free⟩ (glue ⟨t, .free⟩ bs) = glue ⟨s + t, .free⟩ bs := by
  cases bs with
  | nil => rfl
  | cons c bs =>
      obtain ⟨u, v⟩ := c
      cases v with
      | alloc => rfl
      | free =>
          simp only [glue]
          rw [Nat.add_assoc]
      | loose => rfl

/-- A settled sequence is joined. -/
theorem Settled.merge_eq {bs : List Block} (hs : Settled bs) : merge bs = bs := by
  induction bs with
  | nil => rfl
  | cons b bs ih =>
      obtain ⟨-, hbs, hapart⟩ := settled_cons.mp hs
      rw [merge_cons, ih hbs, glue_of_apart hapart]

/-- Two adjacent free blocks may be joined first. -/
theorem merge_pair (xs : List Block) (s t : ℕ) (ys : List Block) :
    merge (xs ++ ⟨s, .free⟩ :: ⟨t, .free⟩ :: ys) = merge (xs ++ ⟨s + t, .free⟩ :: ys) := by
  simp only [merge, List.foldr_append, List.foldr_cons, glue_glue]

@[simp] theorem release_cons (ps : List ℕ) (a : ℕ) (b : Block) (bs : List Block) :
    release ps a (b :: bs) =
      ⟨b.size, if a + 4 ∈ ps then .free else b.tag⟩ :: release ps (a + b.size) bs := rfl

/-- Only which pointers are freed matters. -/
theorem release_congr {ps qs : List ℕ} (h : ∀ p, p ∈ ps ↔ p ∈ qs) :
    release ps = release qs := by
  funext a bs
  induction bs generalizing a with
  | nil => rfl
  | cons b bs ih => rw [release_cons, release_cons, ih, if_congr (h (a + 4)) rfl rfl]

/-- Freeing some pointers after others. -/
theorem release_release (ps qs : List ℕ) (a : ℕ) (bs : List Block) :
    release ps a (release qs a bs) = release (qs ++ ps) a bs := by
  induction bs generalizing a with
  | nil => rfl
  | cons b bs ih =>
      simp only [release_cons, ih, List.mem_append]
      congr 2
      by_cases hp : a + 4 ∈ ps <;> by_cases hq : a + 4 ∈ qs <;> simp [hp, hq]

/-- Nothing is freed where no pointer of `ps` is. -/
theorem release_of_not_mem {ps : List ℕ} {a : ℕ} {bs : List Block}
    (h : ∀ q b, (q, b) ∈ placed Block.size a bs → q + 4 ∉ ps) : release ps a bs = bs := by
  induction bs generalizing a with
  | nil => rfl
  | cons b bs ih =>
      rw [release_cons, if_neg (h a b (by simp)), ih]
      intro q c hq
      apply h q c
      rw [placed_cons]
      exact List.mem_cons_of_mem _ hq

theorem release_append (ps : List ℕ) (a : ℕ) (xs ys : List Block) :
    release ps a (xs ++ ys) = release ps a xs ++ release ps (a + total Block.size xs) ys := by
  induction xs generalizing a with
  | nil => rfl
  | cons b xs ih => simp only [List.cons_append, release_cons, ih, total_cons, Nat.add_assoc]

/-- One block is freed. -/
theorem release_singleton {a : ℕ} {xs ys : List Block} {b : Block}
    (hpos : ∀ c ∈ xs ++ b :: ys, 0 < c.size) :
    release [a + total Block.size xs + 4] a (xs ++ b :: ys) = xs ++ ⟨b.size, .free⟩ :: ys := by
  have hb := hpos b (by simp)
  -- no other block starts where this one does
  have hleft : release [a + total Block.size xs + 4] a xs = xs := by
    apply release_of_not_mem
    intro q c hq
    have hle := (mem_placed_bounds hq).2
    have hc := hpos c (List.mem_append_left _ (mem_of_mem_placed hq))
    rw [List.mem_singleton]
    omega
  have hright :
      release [a + total Block.size xs + 4] (a + total Block.size xs + b.size) ys = ys := by
    apply release_of_not_mem
    intro q c hq
    have hle := (mem_placed_bounds hq).1
    rw [List.mem_singleton]
    omega
  rw [release_append, hleft, release_cons, hright, if_pos (List.mem_singleton.mpr rfl)]

/-- A block that is joined to the next before anything is freed. -/
theorem merge_release_glue (ps : List ℕ) (a : ℕ) (b : Block) (bs : List Block) :
    merge (release ps a (glue b bs)) = merge (release ps a (b :: bs)) := by
  by_cases hjoin : b.tag = .free ∧ (nextBlock bs).tag = .free
  · obtain ⟨s, t⟩ := b
    obtain ⟨rfl, hnext⟩ := hjoin
    cases bs with
    | nil => rfl
    | cons c bs =>
        obtain ⟨u, v⟩ := c
        obtain rfl : v = .free := hnext
        -- both blocks are free, whether or not a pointer to them is freed
        have hfree : ∀ p, (if p ∈ ps then Tag.free else Tag.free) = .free := fun p => ite_self _
        rw [glue_free]
        simp only [release_cons, hfree, merge_cons, glue_glue, Nat.add_assoc]
  · rw [glue_of_apart hjoin]

/-- **Joining before more is freed** changes nothing at the end. -/
theorem merge_release_merge (ps : List ℕ) (a : ℕ) (bs : List Block) :
    merge (release ps a (merge bs)) = merge (release ps a bs) := by
  induction bs generalizing a with
  | nil => rfl
  | cons b bs ih => rw [merge_cons, merge_release_glue, release_cons, merge_cons, ih, release_cons,
      merge_cons]

/-- **`mm_free` in terms of the joined sequence.** -/
theorem FreeStep.eq_merge {p : ℕ} {bs bs' : List Block} (h : FreeStep p bs bs')
    (hs : Settled bs) : bs' = merge (release [p] 420 bs) := by
  have hs' := h.settled hs
  cases h with
  | @join xs l r ys s hl hr hp =>
      have hform : xs ++ (l ++ ⟨s, .alloc⟩ :: r) ++ ys = xs ++ l ++ ⟨s, .alloc⟩ :: (r ++ ys) := by
        simp
      have hpos : ∀ c ∈ xs ++ l ++ ⟨s, .alloc⟩ :: (r ++ ys), 0 < c.size := by
        intro c hc
        rw [← hform] at hc
        have := (hs.sizes c hc).2
        omega
      rw [hform, hp, release_singleton hpos, ← hs'.merge_eq]
      rcases hl with ⟨rfl, -⟩ | ⟨t, rfl⟩ <;> rcases hr with ⟨rfl, -⟩ | ⟨u, rfl⟩
      · simp
      · simp [merge_pair]
      · simp [merge_pair]
      · simp [merge_pair, Nat.add_assoc]

/-! ## Runs of `mm_free` -/

/-- `mm_free` of each pointer in turn. -/
def freeAll (h : Heap) (ps : List ℕ) : Option Heap := ps.foldlM mmFree h

/-- One `mm_free` of a live pointer, in a heap of at most `2 ^ 24` bytes. -/
theorem Inv.mmFree {h : Heap} {live : List (ℕ × ℕ)} {bs : List Block} {L : ℕ → List ℕ} {p : ℕ}
    (hi : Inv h live bs L) (hsize : h.memBrk ≤ 2 ^ 24) (hp : p ∈ live.map Prod.fst) :
    ∃ m' L', Malloc.mmFree h p = some { h with mem := m' } ∧
      Inv { h with mem := m' } (dropPtr live p) (merge (release [p] 420 bs)) L' ∧
      Frame bs p h.mem m' ∧ ∀ q s, Held (merge (release [p] 420 bs)) q s ↔ Held bs q s ∧ q ≠ p := by
  obtain ⟨⟨p, n⟩, hmem, rfl⟩ := List.mem_map.mp hp
  obtain ⟨-, s, -, hheld⟩ := hi.live.held p n hmem
  obtain ⟨t, hj, hfits⟩ := hi.rep.mmFree_spec hi.settled hheld
  have hfit : t ≤ 2 ^ 24 := by
    have hle := hj.le_total
    have hbrk := hi.rep.brk
    omega
  obtain ⟨bs', L', es, hstep, -, hall⟩ := hfits hfit
  obtain ⟨m', hm, hr', hframe⟩ := hall h hi.rep
  obtain rfl := hstep.eq_merge hi.settled
  refine ⟨m', L', ((Logged.erases_mmFree h p).ok_iff _).mp (by rw [hm]), ⟨hr',
    hstep.settled hi.settled, ?_⟩, hframe, (hstep.held hi.settled).2⟩
  exact hi.live.drop (hstep.held hi.settled).2

/-- **Runs of `mm_free`** end in the joined sequence with these blocks free. -/
theorem Inv.freeAll {ps : List ℕ} : ∀ {h : Heap} {live : List (ℕ × ℕ)} {bs : List Block}
    {L : ℕ → List ℕ}, Inv h live bs L → h.memBrk ≤ 2 ^ 24 → ps.Nodup →
    (∀ p ∈ ps, p ∈ live.map Prod.fst) →
    ∃ m' live' L', Malloc.freeAll h ps = some { h with mem := m' } ∧
      Inv { h with mem := m' } live' (merge (release ps 420 bs)) L' ∧
      ∀ q s, Held bs q s → q ∉ ps → ∀ x, q ≤ x → x < q + (s - 8) → m' x = h.mem x := by
  induction ps with
  | nil =>
      intro h live bs L hi _ _ _
      have hnone : release [] 420 bs = bs := release_of_not_mem fun q b _ => List.not_mem_nil
      refine ⟨h.mem, live, L, rfl, ?_, fun _ _ _ _ _ _ _ => rfl⟩
      rw [hnone, hi.settled.merge_eq]
      exact hi
  | cons p ps ih =>
      intro h live bs L hi hsize hnodup hps
      obtain ⟨hnew, hnodup⟩ := List.nodup_cons.mp hnodup
      obtain ⟨m₁, L₁, hm₁, hi₁, hframe₁, hheld₁⟩ := hi.mmFree hsize (hps p List.mem_cons_self)
      have hps₁ : ∀ q ∈ ps, q ∈ (dropPtr live p).map Prod.fst := by
        intro q hq
        refine LiveRep.mem_map_dropPtr.mpr ⟨hps q (List.mem_cons_of_mem _ hq), ?_⟩
        rintro rfl
        exact hnew hq
      obtain ⟨m₂, live₂, L₂, hm₂, hi₂, hframe₂⟩ := ih hi₁ hsize hnodup hps₁
      rw [merge_release_merge, release_release] at hi₂
      refine ⟨m₂, live₂, L₂, ?_, hi₂, fun q s hq hne x hx hx' => ?_⟩
      · rw [Malloc.freeAll, List.foldlM_cons, hm₁]
        exact hm₂
      · rw [List.mem_cons, not_or] at hne
        exact (hframe₂ q s ((hheld₁ q s).mpr ⟨hq, hne.1⟩) hne.2 x hx hx').trans
          (hframe₁ q s hq hne.1 x hx hx')

/-- **The order of frees does not matter.**  Freeing distinct live pointers in two orders
returns both times, with the same break, the same blocks, which are those from before with the
ones of the pointers free and free neighbours joined, the same free blocks in each list, and
the same bytes in the remaining live payloads, which are those from before. -/
theorem free_order {h : Heap} {live : List (ℕ × ℕ)} {ps qs : List ℕ} (hr : Reachable h live)
    (hlive : ∀ p ∈ ps, p ∈ live.map Prod.fst) (hnodup : ps.Nodup) (hperm : ps.Perm qs) :
    ∃ h₁ h₂, freeAll h ps = some h₁ ∧ freeAll h qs = some h₂ ∧
      h₁.memStartBrk = h₂.memStartBrk ∧ h₁.memBrk = h₂.memBrk ∧ blocks h₁ = blocks h₂ ∧
      blocks h₁ = merge (release ps (h.memStartBrk + 420) (blocks h)) ∧
      (∃ L₁ L₂, WellFormed h₁ L₁ ∧ WellFormed h₂ L₂ ∧ ∀ i < N, ∀ n, n ∈ L₁ i ↔ n ∈ L₂ i) ∧
      ∀ p n, (p, n) ∈ live → p ∉ ps → ∀ x, p ≤ x → x < p + n →
        h₁.mem x = h.mem x ∧ h₂.mem x = h.mem x := by
  obtain ⟨bs, L, hi⟩ := hr.inv
  have hsize := hr.heapsize_le
  rw [memHeapsize, hi.rep.startBrk, Nat.sub_zero] at hsize
  have hlive' : ∀ p ∈ qs, p ∈ live.map Prod.fst := fun p hp => hlive p (hperm.mem_iff.mpr hp)
  obtain ⟨m₁, live₁, L₁, hm₁, hi₁, hkept₁⟩ := hi.freeAll hsize hnodup hlive
  obtain ⟨m₂, live₂, L₂, hm₂, hi₂, hkept₂⟩ := hi.freeAll hsize (hperm.nodup_iff.mp hnodup) hlive'
  rw [← release_congr fun p => hperm.mem_iff] at hi₂
  refine ⟨_, _, hm₁, hm₂, rfl, rfl, ?_, ?_, ⟨L₁, L₂, hi₁.rep.wellFormed hi₁.settled,
    hi₂.rep.wellFormed hi₂.settled, fun i _ n => ?_⟩, fun p n hp hne x hx hx' => ?_⟩
  · rw [hi₁.rep.blocks_eq hi₁.settled, hi₂.rep.blocks_eq hi₂.settled]
  · rw [hi₁.rep.blocks_eq hi₁.settled, hi.rep.blocks_eq hi.settled, hi.rep.startBrk, Nat.zero_add]
  · rw [hi₁.rep.nodes, hi₂.rep.nodes]
  · obtain ⟨s, hheld, hs, -⟩ := hi.extent hp
    exact ⟨hkept₁ p s hheld hne x hx (by omega),
      hkept₂ p s hheld (fun hq => hne (hperm.mem_iff.mpr hq)) x hx (by omega)⟩

/-- Two blocks of 100 bytes are freed in both orders, and joined. -/
theorem free_order_two : ∃ h h₁ h₂, Reachable h [(536, 100), (424, 100)] ∧
    freeAll h [424, 536] = some h₁ ∧ freeAll h [536, 424] = some h₂ ∧ blocks h₁ = blocks h₂ ∧
    blocks h₁ = [⟨224, .free⟩] := by
  obtain ⟨h, hrun, hsize⟩ := first_malloc
  have hval := eval_first (v := (648, 536, [⟨112, .alloc⟩, ⟨112, .alloc⟩])) hrun
    (fun h => (Call.run h (.malloc 100)).map fun a => (memHeapsize a.1, a.2, blocks a.1))
    (by decide +kernel)
  obtain ⟨⟨h', q⟩, hrun', hp⟩ := Option.map_eq_some_iff.mp hval
  simp only [Prod.mk.injEq] at hp
  obtain ⟨hsize', rfl, hblocks'⟩ := hp
  have hr : Reachable h' [(536, 100), (424, 100)] :=
    (reachable_first hrun hsize).call (c := .malloc 100) (by decide) hrun' (by omega)
  obtain ⟨h₁, h₂, hm₁, hm₂, -, -, hblocks, hfreed, -⟩ := @free_order _ _ [424, 536] [536, 424] hr
    (by simp) (by simp) (List.Perm.swap _ _ _)
  obtain ⟨bs, L, hi⟩ := hr.inv
  rw [hblocks', hi.rep.startBrk] at hfreed
  exact ⟨h', h₁, h₂, hr, hm₁, hm₂, hblocks, hfreed.trans (by decide)⟩

/-! ## Freeing what was just taken -/

/-- `mm_malloc` takes a block, and `mm_free` of its pointer joins what was split off. -/
theorem merge_release_splitBlock {xs ys : List Block} {s k : ℕ} (hk : 0 < k) (hle : k ≤ s)
    (hs : Settled (xs ++ ⟨s, .free⟩ :: ys)) :
    merge (release [420 + total Block.size xs + 4] 420 (xs ++ splitBlock s k ++ ys)) =
      xs ++ ⟨s, .free⟩ :: ys := by
  have hother : ∀ c ∈ xs ++ ys, 0 < c.size := by
    intro c hc
    have := (hs.sizes c (by simp only [List.mem_append, List.mem_cons] at hc ⊢; tauto)).2
    omega
  rw [List.append_assoc]
  unfold splitBlock
  split_ifs with hsplit
  · -- the rest is joined with the block that it was split from
    have hpos : ∀ c ∈ xs ++ (⟨k, .alloc⟩ :: ⟨s - k, .free⟩ :: ys : List Block), 0 < c.size := by
      intro c hc
      simp only [List.mem_append, List.mem_cons] at hc
      rcases hc with hc | rfl | rfl | hc
      · exact hother c (List.mem_append_left _ hc)
      · exact hk
      · exact (by omega : 0 < s - k)
      · exact hother c (List.mem_append_right _ hc)
    rw [List.cons_append, List.singleton_append, release_singleton hpos, merge_pair,
      Nat.add_sub_cancel' hle, hs.merge_eq]
  · have hpos : ∀ c ∈ xs ++ (⟨s, .alloc⟩ :: ys : List Block), 0 < c.size := by
      intro c hc
      simp only [List.mem_append, List.mem_cons] at hc
      rcases hc with hc | rfl | hc
      · exact hother c (List.mem_append_left _ hc)
      · exact hk.trans_le hle
      · exact hother c (List.mem_append_right _ hc)
    rw [List.singleton_append, release_singleton hpos, hs.merge_eq]

/-- **Free undoes malloc.**  A block that `mm_malloc` takes without moving the break goes back
where it came from: the same blocks, and the same free blocks in each list. -/
theorem free_undoes_malloc {h h' : Heap} {live : List (ℕ × ℕ)} {n p : ℕ} (hr : Reachable h live)
    (hn : 1 ≤ n) (hmax : n ≤ 2 ^ 32 - 16) (hm : mmMalloc h n = some (h', p)) (hp : p ≠ 0)
    (hbrk : h'.memBrk = h.memBrk) :
    ∃ h'', mmFree h' p = some h'' ∧ h''.memStartBrk = h.memStartBrk ∧ h''.memBrk = h.memBrk ∧
      blocks h'' = blocks h ∧
      ∃ L L'', WellFormed h L ∧ WellFormed h'' L'' ∧ ∀ i < N, ∀ b, b ∈ L'' i ↔ b ∈ L i := by
  obtain ⟨bs, L, hi⟩ := hr.inv
  have hsize := hr.heapsize_le
  rw [memHeapsize, hi.rep.startBrk, Nat.sub_zero] at hsize
  rcases hi.call (c := .malloc n) hmax hm with ⟨bs', L', hstep, hi', -⟩ | ⟨-, hzero, -⟩
  · cases hstep with
    | mallocZero => exact absurd rfl hp
    | malloc _ hstep =>
        have hlive : p ∈ (Call.after live p (.malloc n)).map Prod.fst := by
          rw [Call.after, if_neg hp]
          exact List.mem_cons_self
        obtain ⟨m'', L'', hfree, hi'', -⟩ := hi'.mmFree (by omega) hlive
        have hback : merge (release [p] 420 bs') = bs := by
          cases hstep with
          | fit hle =>
              exact merge_release_splitBlock (by have := (le_blockSize n).2; omega) hle hi.settled
          | @extend xs l hnone hl =>
              -- the break would have moved
              have hgrown := hi'.rep.brk
              have hold := hi.rep.brk
              have hblock := (le_blockSize n).2
              rw [total_append, total_splitBlock (by omega)] at hgrown
              rw [total_append] at hold
              omega
        rw [hback] at hi''
        refine ⟨_, hfree, ?_, hbrk, ?_, L, L'', hi.rep.wellFormed hi.settled,
          hi''.rep.wellFormed hi''.settled, fun i _ b => ?_⟩
        · exact hi''.rep.startBrk.trans hi.rep.startBrk.symm
        · rw [hi''.rep.blocks_eq hi''.settled, hi.rep.blocks_eq hi.settled]
        · rw [hi''.rep.nodes, hi.rep.nodes]
  · exact absurd hzero hp

/-- A free block of 112 bytes is split for 20 bytes, and joined again. -/
theorem free_undoes_malloc_split : ∃ h h' h'', Reachable h [] ∧ mmMalloc h 20 = some (h', 424) ∧
    mmFree h' 424 = some h'' ∧ blocks h'' = blocks h := by
  obtain ⟨h₁, hrun, hsize⟩ := first_malloc
  have hval := eval_first (v := (536, 424, true)) hrun (fun h => (Call.run h (.free 424)).bind
    fun a => (mmMalloc a.1 20).map fun b =>
      (memHeapsize a.1, b.2, decide (b.1.memBrk = a.1.memBrk))) (by decide +kernel)
  obtain ⟨⟨h, q⟩, hfree, hval⟩ := Option.bind_eq_some_iff.mp hval
  obtain ⟨⟨h', p⟩, hm, hval⟩ := Option.map_eq_some_iff.mp hval
  simp only [Prod.mk.injEq, decide_eq_true_eq] at hval
  obtain ⟨hsize', rfl, hbrk⟩ := hval
  have hr : Reachable h [] := (reachable_first hrun hsize).call (c := .free 424) (by decide) hfree
    (by omega)
  obtain ⟨h'', hfree', -, -, hblocks, -⟩ :=
    free_undoes_malloc hr (by decide) (by decide) hm (by decide) hbrk
  exact ⟨h, h', h'', hr, hm, hfree', hblocks⟩

end Malloc
