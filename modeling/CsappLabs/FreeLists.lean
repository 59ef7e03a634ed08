/-
# The free lists: `heap_remove`, `heap_add`, `find_fit`

One spec for each of the three functions that touch the free lists.
`heap_remove` makes a free block loose and erases it from its list;
`heap_add` makes a loose block free and puts it at the front of the list of its
size class; `find_fit` returns the first block that is large enough, in list
order from the smallest class that may hold one.

The link fields `PRED` and `SUCC` of a node lie in the bytes from `x - 8` to `x`
of its block pointer `x`, and block pointers are multiples of `8`, so the fields
of different nodes never overlap; a store to one is read back by that node only.
-/
import CsappLabs.HeapRep

open WordMemory LinkedChain Layout

namespace Malloc

/-! ## Stores to link fields -/

/-- An address that can be a block pointer. -/
def Slot (a : ℕ) : Prop := 8 ≤ a ∧ a % 8 = 0

theorem nxtOf_lt (m : Mem) (a : ℕ) : nxtOf m a < 2 ^ 32 := read32_lt m _

theorem prvOf_lt (m : Mem) (a : ℕ) : prvOf m a < 2 ^ 32 := read32_lt m _

section Slots

variable {m : Mem} {a b v : ℕ}

theorem nxtOf_write_succ (ha : Slot a) (hb : Slot b) (hv : v < 2 ^ 32) :
    nxtOf (write32 m (succ b) v) a = if a = b then v else nxtOf m a := by
  obtain ⟨ha, ha'⟩ := ha
  obtain ⟨hb, hb'⟩ := hb
  rw [succ_eq, nxtOf, nxtOf]
  split_ifs with h
  · rw [h]
    exact read32_write32_same m _ hv
  · exact read32_write32_disjoint m v (by omega)

theorem nxtOf_write_pred (ha : Slot a) (hb : Slot b) :
    nxtOf (write32 m (pred b) v) a = nxtOf m a := by
  obtain ⟨ha, ha'⟩ := ha
  obtain ⟨hb, hb'⟩ := hb
  exact read32_write32_disjoint m v (by rw [pred_eq]; omega)

theorem prvOf_write_pred (ha : Slot a) (hb : Slot b) (hv : v < 2 ^ 32) :
    prvOf (write32 m (pred b) v) a = if a = b then v else prvOf m a := by
  obtain ⟨ha, ha'⟩ := ha
  obtain ⟨hb, hb'⟩ := hb
  rw [pred_eq, prvOf, prvOf]
  split_ifs with h
  · rw [h]
    exact read32_write32_same m _ hv
  · exact read32_write32_disjoint m v (by omega)

theorem prvOf_write_succ (ha : Slot a) (hb : Slot b) :
    prvOf (write32 m (succ b) v) a = prvOf m a := by
  obtain ⟨ha, ha'⟩ := ha
  obtain ⟨hb, hb'⟩ := hb
  exact read32_write32_disjoint m v (by rw [succ_eq]; omega)

theorem write_succ_apply (hb : Slot b) {y : ℕ} (hy : y < b - 8 ∨ b ≤ y) :
    write32 m (succ b) v y = m y := by
  obtain ⟨hb, hb'⟩ := hb
  exact write32_apply_of_disjoint m v (by rw [succ_eq]; omega)

theorem write_pred_apply (hb : Slot b) {y : ℕ} (hy : y < b - 8 ∨ b ≤ y) :
    write32 m (pred b) v y = m y := by
  obtain ⟨hb, hb'⟩ := hb
  exact write32_apply_of_disjoint m v (by rw [pred_eq]; omega)

end Slots

/-- The store `if (z != 0) PUT(PRED(z), v)`. -/
def backLink (m : Mem) (z v : ℕ) : Mem := if z ≠ 0 then write32 m (pred z) v else m

theorem put_backLink (h : Heap) (z v : ℕ) :
    (if z ≠ 0 then put h (pred z) v else h) = { h with mem := backLink h.mem z v } := by
  unfold backLink
  split_ifs <;> rfl

section BackLink

variable {m : Mem} {a z v : ℕ}

theorem nxtOf_backLink (ha : Slot a) (hz : z ≠ 0 → Slot z) :
    nxtOf (backLink m z v) a = nxtOf m a := by
  unfold backLink
  split_ifs with h0
  · exact nxtOf_write_pred ha (hz h0)
  · rfl

theorem prvOf_backLink (ha : Slot a) (hz : z ≠ 0 → Slot z) (hv : v < 2 ^ 32) :
    prvOf (backLink m z v) a = if a = z then v else prvOf m a := by
  unfold backLink
  split_ifs with h0 h1 h1
  · rw [prvOf_write_pred ha (hz h0) hv, if_pos h1]
  · rw [prvOf_write_pred ha (hz h0) hv, if_neg h1]
  · obtain ⟨ha, -⟩ := ha
    omega
  · rfl

theorem backLink_apply (hz : z ≠ 0 → Slot z) {y : ℕ} (hy : z ≠ 0 → y < z - 8 ∨ z ≤ y) :
    backLink m z v y = m y := by
  unfold backLink
  split_ifs with h0
  · exact write_pred_apply (hz h0) (hy h0)
  · rfl

end BackLink

/-- The bytes of the link fields of sentinels and of blocks that are not
allocated. -/
def LinkArea (bs : List Block) (y : ℕ) : Prop :=
  (∃ i < 25, headOf i - 8 ≤ y ∧ y < headOf i) ∨
    ∃ p b, (p, b) ∈ placed Block.size 420 bs ∧ b.tag ≠ .alloc ∧ p + 4 ≤ y ∧ y < p + 12

theorem slot_headOf (i : ℕ) : Slot (headOf i) := by
  unfold Slot headOf
  omega

/-- The sentinels are 16-byte blocks at 4, 20, 36, …. -/
theorem sentinel_shape {p : ℕ} {b : Block} (hp : (p, b) ∈ placed Block.size 4 sentinels) :
    b.size = 16 ∧ p % 16 = 4 := by
  have hall : ∀ c ∈ sentinels, c.size = 16 := by
    intro c hc
    rw [sentinels, List.mem_replicate] at hc
    rw [hc.2]
  obtain ⟨us, vs, hsplit, rfl⟩ := exists_split_of_mem_placed hp
  have hus : ∀ c ∈ us, c.size = 16 := fun c hc => hall c (by rw [hsplit]; simp [hc])
  have htotal : total Block.size us = us.length * 16 := by
    rw [total, List.map_congr_left hus]
    simp
  exact ⟨hall b (mem_of_mem_placed hp), by omega⟩

namespace Rep

variable {h : Heap} {bs : List Block} {L : ℕ → List ℕ}

theorem slot_of_mem (hr : Rep h bs L) {i n : ℕ} (hn : n ∈ L i) : Slot n := by
  have := hr.node_bounds hn
  exact ⟨by omega, this.2.1⟩

/-- A chain address is the head of the list or one of its nodes. -/
theorem slot_of_mem_chain (hr : Rep h bs L) {i x : ℕ} (hx : x ∈ headOf i :: L i) : Slot x := by
  rcases List.mem_cons.mp hx with rfl | hx
  · exact slot_headOf i
  · exact hr.slot_of_mem hx

theorem linkArea_of_mem_chain (hr : Rep h bs L) {i x : ℕ} (hi : i < 25)
    (hx : x ∈ headOf i :: L i) {y : ℕ} (hy : x - 8 ≤ y) (hy' : y < x) : LinkArea bs y := by
  rcases List.mem_cons.mp hx with rfl | hx
  · exact Or.inl ⟨i, hi, hy, hy'⟩
  · obtain ⟨p, s, hp, rfl, -⟩ := (hr.nodes i x).mp hx
    exact Or.inr ⟨p, _, hp, by simp, by omega, by omega⟩

/-- Heads are not nodes. -/
theorem headOf_ne (hr : Rep h bs L) {i j n : ℕ} (hi : i < 25) (hn : n ∈ L j) : headOf i ≠ n := by
  have := hr.node_bounds hn
  unfold headOf
  omega

/-- Chains of different lists have no address in common. -/
theorem chain_disjoint (hr : Rep h bs L) {i j x : ℕ} (hi : i < 25) (hj : j < 25)
    (hxi : x ∈ headOf i :: L i) (hxj : x ∈ headOf j :: L j) : i = j := by
  rcases List.mem_cons.mp hxi with rfl | hxi <;> rcases List.mem_cons.mp hxj with hx | hxj
  · unfold headOf at hx
    omega
  · exact absurd rfl (hr.headOf_ne hi hxj)
  · exact absurd hx.symm (hr.headOf_ne hj hxi)
  · exact hr.index_unique hxi hxj

theorem size_pos (hr : Rep h bs L) {b : Block} (hb : b ∈ bs) : 0 < b.size := by
  obtain ⟨xs, ys, rfl⟩ := List.append_of_mem hb
  have := hr.block_bounds (mem_placed_split Block.size 420 xs b ys)
  omega

/-- Bytes outside the link fields hold the tags and the epilogue: stores to link
fields move the invariant to new lists, and the block whose link fields they set
may change between free and loose. -/
theorem relink {xs ys : List Block} {s : ℕ} {t t' : Tag} {m' : Mem} {L' : ℕ → List ℕ}
    (hr : Rep h (xs ++ ⟨s, t⟩ :: ys) L) (ht : t ≠ .alloc) (ht' : t' ≠ .alloc)
    (hfit : t' = .free → s ≤ 2 ^ 24)
    (hout : ∀ y, ¬ LinkArea (xs ++ ⟨s, t⟩ :: ys) y → m' y = h.mem y)
    (hchain : ∀ i < 25, FreeList m' (headOf i) (L' i)) (hnodup : ∀ i, (L' i).Nodup)
    (hnodes : ∀ i n, n ∈ L' i ↔
      ∃ p r, (p, ⟨r, .free⟩) ∈ placed Block.size 420 (xs ++ ⟨s, t'⟩ :: ys) ∧
        n = p + 12 ∧ Nat.clog 2 r = i) :
    Rep { h with mem := m' } (xs ++ ⟨s, t'⟩ :: ys) L' ∧
      PayloadEq (xs ++ ⟨s, t⟩ :: ys) h.mem m' := by
  have hbit : t.bit = t'.bit := by
    cases t <;> cases t' <;> first | rfl | exact absurd rfl ht | exact absurd rfl ht'
  have htotal : total Block.size (xs ++ ⟨s, t'⟩ :: ys) = total Block.size (xs ++ ⟨s, t⟩ :: ys) := by
    simp
  -- a word is kept when none of its bytes is in a link field
  have hword : ∀ a, (∀ y, a ≤ y → y < a + 4 → ¬ LinkArea (xs ++ ⟨s, t⟩ :: ys) y) →
      read32 m' a = read32 h.mem a :=
    fun a ha => read32_congr fun y hy hy' => hout y (ha y hy hy')
  have htag : ∀ p b, (p, b) ∈ placed Block.size 420 (xs ++ ⟨s, t⟩ :: ys) → Tagged m' p b := by
    intro p b hp
    have hb := hr.block_bounds hp
    refine (hr.tagged p b hp).congr (hword _ ?_) (hword _ ?_) <;>
    · rintro y hy hy' (⟨i, hi, hy1, hy2⟩ | ⟨q, c, hq, -, hy1, hy2⟩)
      · unfold headOf at hy2
        omega
      · have hc := hr.block_bounds hq
        rcases placed_disjoint hp hq with ⟨rfl, rfl⟩ | hd | hd <;> omega
  refine ⟨?_, ?_⟩
  · -- the tags of the blocks, the sentinels and the epilogue are outside the link fields
    constructor
    · exact hr.startBrk
    · exact hr.maxAddr
    · rw [htotal]
      exact hr.brk
    · exact hr.small
    · intro p r hp
      rcases (mem_placed_replace Block.size (Block.mk s t) (Block.mk s t') rfl
        fun d hd => hr.size_pos hd).mp hp with ⟨-, hp⟩ | ⟨-, hb⟩
      · exact hr.classes p r hp
      · obtain ⟨rfl, rfl⟩ := Block.mk.inj hb
        exact hfit rfl
    · exact hr.heads
    · intro p b hp
      have hb := mem_placed_bounds hp
      have ht := hr.sentinel p b hp
      rw [total_sentinels] at hb
      refine ht.congr (hword _ ?_) (hword _ ?_) <;>
      · rintro y hy hy' (⟨i, hi, hy1, hy2⟩ | ⟨q, c, hq, -, hy1, hy2⟩)
        · have hs := sentinel_shape hp
          unfold headOf at hy1 hy2
          omega
        · have hc := hr.block_bounds hq
          omega
    · intro p b hp
      rcases (mem_placed_replace Block.size (Block.mk s t) (Block.mk s t') rfl fun d hd => hr.size_pos hd).mp hp with
        ⟨-, hp⟩ | ⟨rfl, rfl⟩
      · exact htag p b hp
      · have := htag _ _ (mem_placed_split Block.size 420 xs ⟨s, t⟩ ys)
        refine ⟨this.dvd, this.min, ?_, ?_⟩
        · rw [this.header, Block.word, Block.word, hbit]
        · simp only [this.footer, Block.word, hbit]
    · rw [htotal, ← hr.epilogue]
      refine hword _ ?_
      rintro y hy hy' (⟨i, hi, hy1, hy2⟩ | ⟨q, c, hq, -, hy1, hy2⟩)
      · unfold headOf at hy2
        omega
      · have hc := hr.block_bounds hq
        have hb := mem_placed_bounds hq
        omega
    · exact hchain
    · exact hnodup
    · exact hnodes
  · -- the link fields are in no allocated block
    intro p r hp x hx hx'
    refine hout x ?_
    have hb := hr.block_bounds hp
    rintro (⟨i, hi, hy1, hy2⟩ | ⟨q, c, hq, hc, hy1, hy2⟩)
    · unfold headOf at hy2
      omega
    · have hcb := hr.block_bounds hq
      rcases placed_disjoint hp hq with ⟨-, hpc⟩ | hd | hd
      · exact hc (by rw [← hpc])
      · simp only at hb hd
        omega
      · omega

/-- A chain with its terminator is duplicate-free. -/
theorem nodup_chain (hr : Rep h bs L) {i : ℕ} (hi : i < 25) :
    (headOf i :: L i ++ [0]).Nodup := by
  have h0 : ∀ x ∈ headOf i :: L i, x ≠ 0 := fun x hx h0 => by
    have := (hr.slot_of_mem_chain hx).1
    omega
  have hhead : headOf i ∉ L i := fun hc => hr.headOf_ne hi hc rfl
  exact List.nodup_append.mpr ⟨List.nodup_cons.mpr ⟨hhead, hr.nodup i⟩, by simp,
    fun x hx y hy => by rw [List.mem_singleton.mp hy]; exact h0 x hx⟩

/-! ## `heap_remove` -/

end Rep

/-- The bytes after `heap_remove`: the neighbours of `n` are linked to each
other and the link fields of `n` are cleared. -/
def unlinkMem (m : Mem) (n : ℕ) : Mem :=
  write32 (write32 (backLink (write32 m (succ (prvOf m n)) (nxtOf m n)) (nxtOf m n) (prvOf m n))
    (pred n) 0) (succ n) 0

theorem heapRemove_eq {h : Heap} {n : ℕ} (hx : prvOf h.mem n ≠ 0) :
    heapRemove h n = some { h with mem := unlinkMem h.mem n } := by
  have hx' : get h (pred n) ≠ 0 := hx
  rw [heapRemove]
  simp only [hx', if_false, put_backLink]
  rfl

section UnlinkMem

variable {m : Mem} {n a : ℕ}

theorem nxtOf_unlinkMem (ha : Slot a) (hn : Slot n) (hx : Slot (prvOf m n))
    (hz : nxtOf m n ≠ 0 → Slot (nxtOf m n)) :
    nxtOf (unlinkMem m n) a =
      if a = n then 0 else if a = prvOf m n then nxtOf m n else nxtOf m a := by
  rw [unlinkMem, nxtOf_write_succ ha hn (by norm_num), nxtOf_write_pred ha hn,
    nxtOf_backLink ha hz, nxtOf_write_succ ha hx (nxtOf_lt m n)]

theorem prvOf_unlinkMem (ha : Slot a) (hn : Slot n) (hx : Slot (prvOf m n))
    (hz : nxtOf m n ≠ 0 → Slot (nxtOf m n)) :
    prvOf (unlinkMem m n) a =
      if a = n then 0 else if a = nxtOf m n then prvOf m n else prvOf m a := by
  rw [unlinkMem, prvOf_write_succ ha hn, prvOf_write_pred ha hn (by norm_num),
    prvOf_backLink ha hz (prvOf_lt m n), prvOf_write_succ ha hx]

theorem unlinkMem_apply {y : ℕ} (hn : Slot n) (hx : Slot (prvOf m n))
    (hz : nxtOf m n ≠ 0 → Slot (nxtOf m n)) (hyn : y < n - 8 ∨ n ≤ y)
    (hyx : y < prvOf m n - 8 ∨ prvOf m n ≤ y)
    (hyz : nxtOf m n ≠ 0 → y < nxtOf m n - 8 ∨ nxtOf m n ≤ y) : unlinkMem m n y = m y := by
  rw [unlinkMem, write_succ_apply hn hyn, write_pred_apply hn hyn, backLink_apply hz hyz,
    write_succ_apply hx hyx]

end UnlinkMem

namespace Rep

variable {h : Heap} {L : ℕ → List ℕ}

/-- A list whose links are kept stays a list. -/
theorem chain_congr {bs : List Block} (hr : Rep h bs L) {j : ℕ} (hj : j < 25) {m' : Mem}
    (hnxt : ∀ a ∈ headOf j :: L j, nxtOf m' a = nxtOf h.mem a)
    (hprv : ∀ b ∈ headOf j :: L j, prvOf m' b = prvOf h.mem b) :
    FreeList m' (headOf j) (L j) := by
  refine (hr.chain j hj).congr (fun a ha => ?_) (fun b hb hb0 => ?_)
  · rw [List.dropLast_concat] at ha
    exact hnxt a ha
  · rw [List.cons_append, List.tail_cons, List.mem_append, List.mem_singleton] at hb
    exact hprv b (List.mem_cons_of_mem _ (hb.resolve_right hb0))

/-- The place of a node in its list, between `PRED` and `SUCC`. -/
theorem neighbours {bs : List Block} (hr : Rep h bs L) {i n : ℕ} (hi : i < 25) (hmem : n ∈ L i) :
    ∃ l₁ l₂, headOf i :: L i ++ [0] = l₁ ++ prvOf h.mem n :: n :: nxtOf h.mem n :: l₂ ∧
      headOf i :: (L i).erase n ++ [0] = l₁ ++ prvOf h.mem n :: nxtOf h.mem n :: l₂ := by
  obtain ⟨u, v, huv⟩ := List.append_of_mem hmem
  obtain ⟨l₁, x, hx⟩ : ∃ l₁ x, headOf i :: u = l₁ ++ [x] :=
    ⟨_, _, (List.dropLast_append_getLast (by simp)).symm⟩
  obtain ⟨z, l₂, hz⟩ : ∃ z l₂, v ++ [0] = z :: l₂ := by cases v <;> simp
  have hseq : headOf i :: L i ++ [0] = l₁ ++ x :: n :: z :: l₂ := by
    rw [huv, ← List.cons_append, hx, ← hz]
    simp
  have herase : headOf i :: (L i).erase n ++ [0] = l₁ ++ x :: z :: l₂ := by
    have hnu : n ∉ u := by
      have := hr.nodup i
      rw [huv] at this
      exact fun hc => (List.nodup_append.mp this).2.2 n hc n (by simp) rfl
    rw [huv, List.erase_append_right _ hnu, List.erase_cons_head, ← List.cons_append, hx,
      List.append_assoc, hz]
    simp
  have hchain := hr.chain i hi
  rw [FreeList, hseq] at hchain
  have hprv : prvOf h.mem n = x := hchain.prv_eq (by have := (hr.slot_of_mem hmem).1; omega)
  have hnxt : nxtOf h.mem n = z := by
    rw [show l₁ ++ x :: n :: z :: l₂ = (l₁ ++ [x]) ++ n :: z :: l₂ by simp] at hchain
    exact hchain.nxt_eq
  rw [hprv, hnxt]
  exact ⟨l₁, l₂, hseq, herase⟩

/-- The neighbours of a node are on its list, or the end of it. -/
theorem neighbours_mem {bs : List Block} (hr : Rep h bs L) {i n : ℕ} (hi : i < 25)
    (hmem : n ∈ L i) : prvOf h.mem n ∈ headOf i :: L i ∧
      (nxtOf h.mem n ≠ 0 → nxtOf h.mem n ∈ headOf i :: L i) := by
  obtain ⟨l₁, l₂, hseq, -⟩ := hr.neighbours hi hmem
  have hdrop : headOf i :: L i = l₁ ++ prvOf h.mem n :: n :: (nxtOf h.mem n :: l₂).dropLast := by
    have := congrArg List.dropLast hseq
    rw [List.dropLast_concat] at this
    rw [this]
    simp
  constructor
  · rw [hdrop]
    simp
  · intro h0
    have hz : nxtOf h.mem n ∈ headOf i :: L i ++ [0] := by
      rw [hseq]
      simp
    exact (List.mem_append.mp hz).resolve_right (by simpa using h0)

/-- The list of a node that is unlinked. -/
theorem unlink_chain {bs : List Block} (hr : Rep h bs L) {i n : ℕ} (hi : i < 25)
    (hmem : n ∈ L i) : FreeList (unlinkMem h.mem n) (headOf i) ((L i).erase n) := by
  obtain ⟨l₁, l₂, hseq, herase⟩ := hr.neighbours hi hmem
  obtain ⟨hxmem, hzmem⟩ := hr.neighbours_mem hi hmem
  have hchain := hr.chain i hi
  have hnd := hr.nodup_chain hi
  have hslot : ∀ a ∈ headOf i :: L i, Slot a := fun a ha => hr.slot_of_mem_chain ha
  have hns : Slot n := hslot n (by simp [hmem])
  have hxs := hslot _ hxmem
  have hzs : nxtOf h.mem n ≠ 0 → Slot (nxtOf h.mem n) := fun h0 => hslot _ (hzmem h0)
  have hseq' := congrArg List.dropLast hseq
  rw [List.dropLast_concat] at hseq'
  rw [FreeList, hseq] at hchain
  rw [FreeList, herase]
  have hin : ∀ b, b ≠ 0 → b ∈ l₁ ++ prvOf h.mem n :: n :: nxtOf h.mem n :: l₂ →
      b ∈ headOf i :: L i := by
    intro b hb0 hb
    rw [← hseq] at hb
    exact (List.mem_append.mp hb).resolve_right (by simpa using hb0)
  rw [hseq] at hnd
  have hxn : prvOf h.mem n ≠ n := by
    intro heq
    rw [heq] at hnd
    simp [List.nodup_append] at hnd
  have hzn : nxtOf h.mem n ≠ n := by
    intro heq
    rw [heq] at hnd
    simp [List.nodup_append] at hnd
  -- the two stores, and that no other link changes
  refine hchain.unlink hnd ?_ ?_ ?_ ?_
  · rw [nxtOf_unlinkMem hxs hns hxs hzs, if_neg hxn, if_pos rfl]
  · intro h0
    rw [prvOf_unlinkMem (hzs h0) hns hxs hzs, if_neg hzn, if_pos rfl]
  · intro a ha hax han
    have has : Slot a := hslot a (by
      rw [hseq']
      simp at ha ⊢
      tauto)
    rw [nxtOf_unlinkMem has hns hxs hzs, if_neg han, if_neg hax]
  · intro b hb hbn hbz hb0
    have hbs : Slot b := hslot b (hin b hb0 (by
      rcases List.mem_append.mp hb with hb | hb
      · have := List.mem_of_mem_tail hb
        simp at this ⊢
        tauto
      · simp [hb]))
    rw [prvOf_unlinkMem hbs hns hxs hzs, if_neg hbn, if_neg hbz]

/-- The other lists have none of the nodes that change. -/
theorem unlink_other {bs : List Block} (hr : Rep h bs L) {i j n : ℕ} (hi : i < 25) (hj : j < 25)
    (hji : j ≠ i) (hmem : n ∈ L i) : FreeList (unlinkMem h.mem n) (headOf j) (L j) := by
  obtain ⟨hxmem, hzmem⟩ := hr.neighbours_mem hi hmem
  have hns : Slot n := hr.slot_of_mem hmem
  have hxs := hr.slot_of_mem_chain hxmem
  have hzs : nxtOf h.mem n ≠ 0 → Slot (nxtOf h.mem n) :=
    fun h0 => hr.slot_of_mem_chain (hzmem h0)
  have hnot : ∀ a ∈ headOf i :: L i, ∀ b ∈ headOf j :: L j, b ≠ a := by
    rintro a ha b hb rfl
    exact hji (hr.chain_disjoint hj hi hb ha)
  refine hr.chain_congr hj (fun a ha => ?_) (fun b hb => ?_)
  · rw [nxtOf_unlinkMem (hr.slot_of_mem_chain ha) hns hxs hzs,
      if_neg (hnot n (by simp [hmem]) a ha), if_neg (hnot _ hxmem a ha)]
  · have hbz : b ≠ nxtOf h.mem n := by
      by_cases h0 : nxtOf h.mem n = 0
      · rw [h0]
        have := (hr.slot_of_mem_chain hb).1
        omega
      · exact hnot _ (hzmem h0) b hb
    rw [prvOf_unlinkMem (hr.slot_of_mem_chain hb) hns hxs hzs,
      if_neg (hnot n (by simp [hmem]) b hb), if_neg hbz]

/-- The stores of `heap_remove` lie in link fields. -/
theorem unlinkMem_outside {bs : List Block} (hr : Rep h bs L) {i n y : ℕ} (hi : i < 25)
    (hmem : n ∈ L i) (hy : ¬ LinkArea bs y) : unlinkMem h.mem n y = h.mem y := by
  obtain ⟨hxmem, hzmem⟩ := hr.neighbours_mem hi hmem
  have harea : ∀ a ∈ headOf i :: L i, y < a - 8 ∨ a ≤ y := by
    intro a ha
    by_contra hc
    exact hy (hr.linkArea_of_mem_chain hi ha (by omega) (by omega))
  exact unlinkMem_apply (hr.slot_of_mem hmem) (hr.slot_of_mem_chain hxmem)
    (fun h0 => hr.slot_of_mem_chain (hzmem h0)) (harea n (by simp [hmem])) (harea _ hxmem)
    (fun h0 => harea _ (hzmem h0))

/-- **`heap_remove`** makes a free block loose and erases it from its list. -/
theorem heapRemove_spec {xs ys : List Block} {s n : ℕ} (hr : Rep h (xs ++ ⟨s, .free⟩ :: ys) L)
    (hn : n = 420 + total Block.size xs + 12) :
    ∃ m', heapRemove h n = some { h with mem := m' } ∧
      Rep { h with mem := m' } (xs ++ ⟨s, .loose⟩ :: ys) (fun i => (L i).erase n) ∧
      PayloadEq (xs ++ ⟨s, .free⟩ :: ys) h.mem m' := by
  have hplace := mem_placed_split Block.size 420 xs ⟨s, .free⟩ ys
  have hmem : n ∈ L (Nat.clog 2 s) := (hr.nodes _ n).mpr ⟨_, s, hplace, hn, rfl⟩
  have hi := hr.index_lt hmem
  have hxs := hr.slot_of_mem_chain (hr.neighbours_mem hi hmem).1
  refine ⟨unlinkMem h.mem n, heapRemove_eq (by have := hxs.1; omega), ?_⟩
  refine hr.relink (by simp) (by simp) (by simp) (fun y hy => hr.unlinkMem_outside hi hmem hy) ?_
    (fun j => (hr.nodup j).erase n) ?_
  · intro j hj
    by_cases hji : j = Nat.clog 2 s
    · rw [hji]
      exact hr.unlink_chain hi hmem
    · have hnj : n ∉ L j := fun hc => hji (hr.index_unique hc hmem)
      rw [List.erase_of_not_mem hnj]
      exact hr.unlink_other hi hj hji hmem
  · intro j k
    rw [(hr.nodup j).mem_erase_iff, hr.nodes j k]
    constructor
    · rintro ⟨hkn, p, r, hp, rfl, hc⟩
      refine ⟨p, r, ?_, rfl, hc⟩
      exact (mem_placed_replace Block.size (Block.mk s .free) (Block.mk s .loose) rfl
        fun d hd => hr.size_pos hd).mpr (Or.inl ⟨by omega, hp⟩)
    · rintro ⟨p, r, hp, rfl, hc⟩
      rcases (mem_placed_replace Block.size (Block.mk s .free) (Block.mk s .loose) rfl
        fun d hd => hr.size_pos hd).mp hp with ⟨hne, hp⟩ | ⟨-, hb⟩
      · exact ⟨by omega, p, r, hp, rfl, hc⟩
      · simp at hb

end Rep

/-! ## `heap_add` -/

/-- The bytes after `heap_add`: `n` is linked in between `head` and its successor. -/
def linkMem (m : Mem) (head n : ℕ) : Mem :=
  write32 (write32 (backLink (write32 m (succ n) (nxtOf m head)) (nxtOf m head) n)
    (succ head) n) (pred n) head

theorem heapAdd_eq {h : Heap} {n i head : ℕ} (hu : U (getSize h (hdrp n)) = some i)
    (hhead : h.heap[i]? = some head) :
    heapAdd h n = some { h with mem := linkMem h.mem head n } := by
  simp only [heapAdd, hu, hhead, Option.bind_eq_bind, Option.bind_some, put_backLink]
  rfl

section LinkMem

variable {m : Mem} {head n a : ℕ}

theorem nxtOf_linkMem (ha : Slot a) (hn : Slot n) (hh : Slot head) (hlt : n < 2 ^ 32)
    (hz : nxtOf m head ≠ 0 → Slot (nxtOf m head)) :
    nxtOf (linkMem m head n) a =
      if a = head then n else if a = n then nxtOf m head else nxtOf m a := by
  rw [linkMem, nxtOf_write_pred ha hn, nxtOf_write_succ ha hh hlt, nxtOf_backLink ha hz,
    nxtOf_write_succ ha hn (nxtOf_lt m head)]

theorem prvOf_linkMem (ha : Slot a) (hn : Slot n) (hh : Slot head) (hlt : n < 2 ^ 32)
    (hltHead : head < 2 ^ 32) (hz : nxtOf m head ≠ 0 → Slot (nxtOf m head)) :
    prvOf (linkMem m head n) a =
      if a = n then head else if a = nxtOf m head then n else prvOf m a := by
  rw [linkMem, prvOf_write_pred ha hn hltHead, prvOf_write_succ ha hh, prvOf_backLink ha hz hlt,
    prvOf_write_succ ha hn]

theorem linkMem_apply {y : ℕ} (hn : Slot n) (hh : Slot head)
    (hz : nxtOf m head ≠ 0 → Slot (nxtOf m head)) (hyn : y < n - 8 ∨ n ≤ y)
    (hyh : y < head - 8 ∨ head ≤ y)
    (hyz : nxtOf m head ≠ 0 → y < nxtOf m head - 8 ∨ nxtOf m head ≤ y) :
    linkMem m head n y = m y := by
  rw [linkMem, write_pred_apply hn hyn, write_succ_apply hh hyh, backLink_apply hz hyz,
    write_succ_apply hn hyn]

end LinkMem

namespace Rep

variable {h : Heap} {bs : List Block} {L : ℕ → List ℕ}

/-- The first node of a list, if there is one. -/
theorem first_mem (hr : Rep h bs L) {i : ℕ} (hi : i < 25) :
    ∃ l₂, L i ++ [0] = nxtOf h.mem (headOf i) :: l₂ ∧
      (nxtOf h.mem (headOf i) ≠ 0 → nxtOf h.mem (headOf i) ∈ L i) := by
  obtain ⟨z, l₂, hz⟩ : ∃ z l₂, L i ++ [0] = z :: l₂ := by cases L i <;> simp
  have hchain := hr.chain i hi
  rw [FreeList, List.cons_append, hz] at hchain
  rw [show nxtOf h.mem (headOf i) = z from hchain.1]
  refine ⟨l₂, hz, fun h0 => ?_⟩
  have : z ∈ L i ++ [0] := by
    rw [hz]
    exact List.mem_cons_self
  exact (List.mem_append.mp this).resolve_right (by simpa using h0)

section Link

variable {i n : ℕ}

/-- The list at whose front a node is linked in. -/
theorem link_chain (hr : Rep h bs L) (hi : i < 25) (hns : Slot n) (hlt : n < 2 ^ 32)
    (hnew : n ∉ headOf i :: L i) :
    FreeList (linkMem h.mem (headOf i) n) (headOf i) (n :: L i) := by
  obtain ⟨l₂, hz, hzmem⟩ := hr.first_mem hi
  have hchain := hr.chain i hi
  have hnd := hr.nodup_chain hi
  have hslot : ∀ a ∈ headOf i :: L i, Slot a := fun a ha => hr.slot_of_mem_chain ha
  have hzs : nxtOf h.mem (headOf i) ≠ 0 → Slot (nxtOf h.mem (headOf i)) :=
    fun h0 => hslot _ (List.mem_cons_of_mem _ (hzmem h0))
  have hhs := slot_headOf i
  have hheadlt : headOf i < 2 ^ 32 := by unfold headOf; omega
  have hdrop : L i = (nxtOf h.mem (headOf i) :: l₂).dropLast := by
    rw [← hz, List.dropLast_concat]
  have hn0 : n ≠ 0 := by have := hns.1; omega
  have hnh : n ≠ headOf i := fun hc => hnew (hc ▸ List.mem_cons_self)
  have hnS : n ∉ [] ++ headOf i :: nxtOf h.mem (headOf i) :: l₂ := by
    rw [List.nil_append, ← hz, ← List.cons_append, List.mem_append, not_or]
    exact ⟨hnew, by simpa using hn0⟩
  rw [FreeList, List.cons_append, hz] at hchain
  rw [List.cons_append, hz] at hnd
  rw [FreeList, List.cons_append, List.cons_append, hz, ← List.nil_append (headOf i :: n :: _)]
  -- the four stores, and that no other link changes
  refine Linked.link hchain hnd hnS ?_ ?_ ?_ ?_ ?_ ?_
  · rw [nxtOf_linkMem hhs hns hhs hlt hzs, if_pos rfl]
  · intro _
    rw [prvOf_linkMem hns hns hhs hlt hheadlt hzs, if_pos rfl]
  · rw [nxtOf_linkMem hns hns hhs hlt hzs, if_neg hnh, if_pos rfl]
  · intro h0
    have hzn : nxtOf h.mem (headOf i) ≠ n := fun hc =>
      hnew (List.mem_cons_of_mem _ (hc ▸ hzmem h0))
    rw [prvOf_linkMem (hzs h0) hns hhs hlt hheadlt hzs, if_neg hzn, if_pos rfl]
  · intro a ha hax han
    rw [List.nil_append, ← hdrop] at ha
    rw [nxtOf_linkMem (hslot a (List.mem_cons_of_mem _ ha)) hns hhs hlt hzs, if_neg hax,
      if_neg han]
  · intro b hb hbn hbz hb0
    have hbm : b ∈ L i ++ [0] := by
      rw [hz]
      exact List.mem_cons_of_mem _ (by simpa using hb)
    have hbs := hslot b (List.mem_cons_of_mem _
      ((List.mem_append.mp hbm).resolve_right (by simpa using hb0)))
    rw [prvOf_linkMem hbs hns hhs hlt hheadlt hzs, if_neg hbn, if_neg hbz]

/-- The other lists have none of the nodes that change. -/
theorem link_other (hr : Rep h bs L) {j : ℕ} (hi : i < 25) (hj : j < 25) (hji : j ≠ i)
    (hns : Slot n) (hlt : n < 2 ^ 32) (hnew : n ∉ headOf j :: L j) :
    FreeList (linkMem h.mem (headOf i) n) (headOf j) (L j) := by
  obtain ⟨-, -, hzmem⟩ := hr.first_mem hi
  have hzs : nxtOf h.mem (headOf i) ≠ 0 → Slot (nxtOf h.mem (headOf i)) :=
    fun h0 => hr.slot_of_mem (hzmem h0)
  have hhs := slot_headOf i
  have hheadlt : headOf i < 2 ^ 32 := by unfold headOf; omega
  have hnot : ∀ a ∈ headOf i :: L i, ∀ b ∈ headOf j :: L j, b ≠ a := by
    rintro a ha b hb rfl
    exact hji (hr.chain_disjoint hj hi hb ha)
  have hnotn : ∀ b ∈ headOf j :: L j, b ≠ n := by
    rintro b hb rfl
    exact hnew hb
  refine hr.chain_congr hj (fun a ha => ?_) (fun b hb => ?_)
  · rw [nxtOf_linkMem (hr.slot_of_mem_chain ha) hns hhs hlt hzs, if_neg (hnot _ (by simp) a ha),
      if_neg (hnotn a ha)]
  · have hbz : b ≠ nxtOf h.mem (headOf i) := by
      by_cases h0 : nxtOf h.mem (headOf i) = 0
      · rw [h0]
        have := (hr.slot_of_mem_chain hb).1
        omega
      · exact hnot _ (List.mem_cons_of_mem _ (hzmem h0)) b hb
    rw [prvOf_linkMem (hr.slot_of_mem_chain hb) hns hhs hlt hheadlt hzs, if_neg (hnotn b hb),
      if_neg hbz]

/-- The stores of `heap_add` lie in link fields. -/
theorem linkMem_outside (hr : Rep h bs L) {y : ℕ} (hi : i < 25) (hns : Slot n)
    (hyn : y < n - 8 ∨ n ≤ y) (hy : ¬ LinkArea bs y) :
    linkMem h.mem (headOf i) n y = h.mem y := by
  obtain ⟨-, -, hzmem⟩ := hr.first_mem hi
  have harea : ∀ a ∈ headOf i :: L i, y < a - 8 ∨ a ≤ y := by
    intro a ha
    by_contra hc
    exact hy (hr.linkArea_of_mem_chain hi ha (by omega) (by omega))
  exact linkMem_apply hns (slot_headOf i) (fun h0 => hr.slot_of_mem (hzmem h0)) hyn
    (harea _ (by simp)) (fun h0 => harea _ (List.mem_cons_of_mem _ (hzmem h0)))

end Link

/-- A loose block is on no list, and is not the head of one. -/
theorem not_mem_chain_of_loose {xs ys : List Block} {s : ℕ}
    (hr : Rep h (xs ++ ⟨s, .loose⟩ :: ys) L) {j : ℕ} (hj : j < 25) :
    420 + total Block.size xs + 12 ∉ headOf j :: L j := by
  have hplace := mem_placed_split Block.size 420 xs ⟨s, .loose⟩ ys
  intro hc
  rcases List.mem_cons.mp hc with hc | hc
  · unfold headOf at hc
    omega
  · obtain ⟨p, r, hp, hpn, -⟩ := (hr.nodes j _).mp hc
    obtain rfl : p = 420 + total Block.size xs := by omega
    have hbp := hr.block_bounds hp
    have hbs := hr.block_bounds hplace
    have heq := placed_unique (by omega) (by omega) hp hplace
    simp at heq

/-- The class that `heap_add` finds for a loose block. -/
theorem class_of_loose {xs ys : List Block} {s n : ℕ} (hr : Rep h (xs ++ ⟨s, .loose⟩ :: ys) L)
    (hn : n = 420 + total Block.size xs + 12) :
    getSize h (hdrp n) = s ∧ U s = some (Nat.clog 2 s) := by
  have hplace := mem_placed_split Block.size 420 xs ⟨s, .loose⟩ ys
  have hb := hr.block_bounds hplace
  have hsmall := hr.small
  have hval := maxHeap_eq
  simp only at hb
  refine ⟨?_, U_eq_clog (by omega) (by omega)⟩
  rw [hdrp_eq, show n - 12 = 420 + total Block.size xs by omega]
  exact getSize_eq (hr.tagged _ _ hplace).header hb.2.2.2.1

/-- A block over `2 ^ 24` bytes makes `heap_add` index past the end of `heap[]`. -/
theorem heapAdd_none {xs ys : List Block} {s n : ℕ} (hr : Rep h (xs ++ ⟨s, .loose⟩ :: ys) L)
    (hn : n = 420 + total Block.size xs + 12) (hbig : 2 ^ 24 < s) : heapAdd h n = none := by
  obtain ⟨hsize, hu⟩ := hr.class_of_loose hn
  have hnone : h.heap[Nat.clog 2 s]? = none := by
    rw [Vector.getElem?_eq_none_iff]
    exact le_class hbig
  simp only [heapAdd, hsize, hu, hnone, Option.bind_eq_bind, Option.bind_some, Option.bind_none]

/-- **`heap_add`** makes a loose block free and puts it at the front of the list
of its size class. -/
theorem heapAdd_spec {xs ys : List Block} {s n : ℕ} (hr : Rep h (xs ++ ⟨s, .loose⟩ :: ys) L)
    (hn : n = 420 + total Block.size xs + 12) (hfit : s ≤ 2 ^ 24) :
    ∃ m', heapAdd h n = some { h with mem := m' } ∧
      Rep { h with mem := m' } (xs ++ ⟨s, .free⟩ :: ys)
        (fun i => if i = Nat.clog 2 s then n :: L i else L i) ∧
      PayloadEq (xs ++ ⟨s, .loose⟩ :: ys) h.mem m' := by
  have hplace := mem_placed_split Block.size 420 xs ⟨s, .loose⟩ ys
  have hb := hr.block_bounds hplace
  have hsmall := hr.small
  simp only at hb
  have hval := maxHeap_eq
  have hi : Nat.clog 2 s < 25 := class_lt hfit
  have hns : Slot n := ⟨by omega, by omega⟩
  have hlt : n < 2 ^ 32 := by omega
  obtain ⟨hsize, hu⟩ := hr.class_of_loose hn
  have hnew : ∀ j < 25, n ∉ headOf j :: L j := fun j hj => hn ▸ hr.not_mem_chain_of_loose hj
  have hnew' : ∀ j, n ∉ L j := fun j hc =>
    hnew j (hr.index_lt hc) (List.mem_cons_of_mem _ hc)
  have hu' : U (getSize h (hdrp n)) = some (Nat.clog 2 s) := by
    rw [hsize]
    exact hu
  refine ⟨linkMem h.mem (headOf (Nat.clog 2 s)) n, heapAdd_eq hu' (hr.heads _ hi), ?_⟩
  -- only the list of the size class changes
  refine hr.relink (by simp) (by simp) (fun _ => hfit) ?_ ?_ ?_ ?_
  · intro y hy
    refine hr.linkMem_outside hi hns ?_ hy
    by_contra hc
    exact hy (Or.inr ⟨_, _, hplace, by simp, by omega, by omega⟩)
  · intro j hj
    split_ifs with hji
    · rw [hji]
      exact hr.link_chain hi hns hlt (hnew _ hi)
    · exact hr.link_other hi hj hji hns hlt (hnew j hj)
  · intro j
    split_ifs
    · exact List.nodup_cons.mpr ⟨hnew' j, hr.nodup j⟩
    · exact hr.nodup j
  · intro j k
    have hmem : k ∈ (if j = Nat.clog 2 s then n :: L j else L j) ↔
        (j = Nat.clog 2 s ∧ k = n) ∨ k ∈ L j := by
      split_ifs with hji <;> simp [hji]
    rw [hmem, hr.nodes j k]
    constructor
    · rintro (⟨rfl, rfl⟩ | ⟨p, r, hp, rfl, hc⟩)
      · exact ⟨_, s, mem_placed_split Block.size 420 xs _ ys, hn, rfl⟩
      · refine ⟨p, r, ?_, rfl, hc⟩
        refine (mem_placed_replace Block.size (Block.mk s .loose) (Block.mk s .free) rfl
          fun d hd => hr.size_pos hd).mpr (Or.inl ⟨?_, hp⟩)
        rintro rfl
        exact hnew' j ((hr.nodes j n).mpr ⟨_, r, hp, hn, hc⟩)
    · rintro ⟨p, r, hp, rfl, hc⟩
      rcases (mem_placed_replace Block.size (Block.mk s .loose) (Block.mk s .free) rfl
        fun d hd => hr.size_pos hd).mp hp with ⟨-, hp⟩ | ⟨rfl, hb⟩
      · exact Or.inr ⟨p, r, hp, rfl, hc⟩
      · obtain rfl : r = s := by simpa using hb
        exact Or.inl ⟨hc.symm, hn.symm⟩

/-! ## `find_fit` -/

theorem length_le (hr : Rep h bs L) (i : ℕ) : (L i).length ≤ h.memBrk := by
  have hsub : L i ⊆ List.range h.memBrk := by
    intro n hn
    have := hr.node_bounds hn
    rw [List.mem_range]
    omega
  simpa using (List.subperm_of_subset (hr.nodup i) hsub).length_le

/-- The inner loop of `find_fit` returns the first node of a list that is large
enough. -/
theorem findInList_eq (hr : Rep h bs L) {i : ℕ} (hi : i < 25) (size : ℕ) :
    findInList h size (headOf i) =
      some ((L i).find? fun n => decide (getSize h (hdrp n) ≥ size)) := by
  have h0 : 0 ∉ L i := fun hc => by
    have := hr.node_bounds hc
    omega
  exact Linked.search_eq _ (hr.chain i hi) h0 (Nat.lt_succ_of_le (hr.length_le i))

theorem findFitLoop_eq (hr : Rep h bs L) (size : ℕ) {k : ℕ} (hk : k ≤ 25) :
    findFitLoop h size k =
      some (((((List.range' (25 - k) k).filter fun i => decide (size ≤ 2 ^ i)).flatMap L).find?
        fun n => decide (getSize h (hdrp n) ≥ size)).getD 0) := by
  induction k with
  | zero => rfl
  | succ k ih =>
      have hi : N - (k + 1) < 25 := Nat.sub_lt (by norm_num) (by omega)
      have hnext : 25 - (k + 1) + 1 = 25 - k := by omega
      rw [List.range'_succ, hnext, findFitLoop]
      simp only [maxSize, Nat.one_shiftLeft, List.filter_cons, decide_eq_true_eq]
      split_ifs with hfit
      · rw [List.flatMap_cons, List.find?_append]
        simp only [hr.heads _ hi, hr.findInList_eq hi, Option.bind_eq_bind, Option.bind_some]
        cases (L (N - (k + 1))).find? fun n => decide (getSize h (hdrp n) ≥ size) with
        | some n => rfl
        | none => exact ih (by omega)
      · exact ih (by omega)

/-- **`find_fit`** returns the first node that is large enough, in the order of
the lists from the smallest class that may hold one. -/
theorem findFit_eq (hr : Rep h bs L) (size : ℕ) :
    findFit h size =
      some (((((List.range 25).filter fun i => decide (size ≤ 2 ^ i)).flatMap L).find?
        fun n => decide (getSize h (hdrp n) ≥ size)).getD 0) := by
  rw [findFit, hr.findFitLoop_eq size le_rfl, List.range_eq_range']

/-- The size `find_fit` reads at a node is the size of its block. -/
theorem getSize_node (hr : Rep h bs L) {p : ℕ} {b : Block}
    (hp : (p, b) ∈ placed Block.size 420 bs) : getSize h (hdrp (p + 12)) = b.size := by
  rw [hdrp_add]
  exact getSize_eq (hr.tagged p b hp).header (hr.block_bounds hp).2.2.2.1

/-- **`find_fit` reads nothing else**: its answer is the same in every heap with the same
blocks and lists. -/
theorem findFit_congr {g : Heap} (hr : Rep h bs L) (hg : Rep g bs L) (size : ℕ) :
    findFit g size = findFit h size := by
  rw [hg.findFit_eq, hr.findFit_eq]
  congr 2
  apply List.find?_congr
  intro n hn
  obtain ⟨i, -, hn⟩ := List.mem_flatMap.mp hn
  obtain ⟨p, s, hp, rfl, -⟩ := (hr.nodes i n).mp hn
  rw [hg.getSize_node hp, hr.getSize_node hp]

/-- `find_fit` answers, and what it answers is the block pointer of a free block
that is large enough, or null when there is none. -/
theorem findFit_spec (hr : Rep h bs L) (size : ℕ) :
    (findFit h size = some 0 ∧ ∀ s, (⟨s, .free⟩ : Block) ∈ bs → s < size) ∨
      ∃ xs s ys, bs = xs ++ ⟨s, .free⟩ :: ys ∧ size ≤ s ∧
        findFit h size = some (420 + total Block.size xs + 12) := by
  rw [hr.findFit_eq size]
  cases hfind : (((List.range 25).filter fun i => decide (size ≤ 2 ^ i)).flatMap L).find?
      fun n => decide (getSize h (hdrp n) ≥ size) with
  | none =>
      refine Or.inl ⟨rfl, fun s hs => ?_⟩
      by_contra hc
      obtain ⟨xs, ys, rfl⟩ := List.append_of_mem hs
      have hp := mem_placed_split Block.size 420 xs ⟨s, .free⟩ ys
      have hnode := (hr.nodes (Nat.clog 2 s) _).mpr ⟨_, s, hp, rfl, rfl⟩
      have hclass : size ≤ 2 ^ Nat.clog 2 s :=
        le_trans (by omega) (Nat.le_pow_clog (by norm_num) s)
      have hlist : 420 + total Block.size xs + 12 ∈
          ((List.range 25).filter fun i => decide (size ≤ 2 ^ i)).flatMap L :=
        List.mem_flatMap.mpr ⟨_, by simp [hr.index_lt hnode, hclass], hnode⟩
      have hno := List.find?_eq_none.mp hfind _ hlist
      rw [hr.getSize_node hp] at hno
      simp only [decide_eq_true_eq] at hno
      omega
  | some n =>
      obtain ⟨i, -, hn⟩ := List.mem_flatMap.mp (List.mem_of_find?_eq_some hfind)
      obtain ⟨p, s, hp, rfl, -⟩ := (hr.nodes i n).mp hn
      obtain ⟨xs, ys, hbs, rfl⟩ := exists_split_of_mem_placed hp
      have hfit := List.find?_some hfind
      rw [hr.getSize_node hp, decide_eq_true_eq] at hfit
      exact Or.inr ⟨xs, s, ys, hbs, hfit, rfl⟩

end Rep

end Malloc
