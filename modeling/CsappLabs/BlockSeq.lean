/-
# The abstract heap: a sequence of blocks

The heap as the client sees it: the sequence of blocks after the sentinels, and
what each call does to it.  `free` joins a block with its free neighbours;
`malloc` takes a free block that fits, or appends one, and splits it; `realloc`
keeps the sequence, enlarges the last block, absorbs the next free block, or
moves.  `SeqStep` is the union of these.

A sequence is `Settled` when it has no loose block and no two adjacent free
blocks; every step keeps this (`SeqStep.settled`).  `LiveRep` ties the client's
live pointers to the allocated blocks, and every step keeps it as well
(`SeqStep.live`).
-/
import CsappLabs.Place

open Layout

namespace Malloc

/-! ## Requests -/

/-- The size of the block for a request of `n` bytes: room for the two tags,
rounded up to a multiple of eight, and at least 16. -/
def blockSize (n : ℕ) : ℕ := max 16 (8 * ((n + 8 + 7) / 8))

theorem blockSize_mod (n : ℕ) : blockSize n % 8 = 0 := by
  unfold blockSize
  omega

theorem le_blockSize (n : ℕ) : n + 8 ≤ blockSize n ∧ 16 ≤ blockSize n := by
  unfold blockSize
  omega

/-- The calls of the client. -/
inductive Call : Type where
  | malloc (n : ℕ) : Call
  | free (p : ℕ) : Call
  | realloc (p n : ℕ) : Call
  deriving DecidableEq, Repr

/-! ## Steps of the sequence -/

/-- `p` is the pointer of an allocated block of size `s`, when the blocks are laid
out from `a`. -/
def HeldAt (a : ℕ) (bs : List Block) (p s : ℕ) : Prop :=
  ∃ q, p = q + 4 ∧ (q, ⟨s, .alloc⟩) ∈ placed Block.size a bs

/-- `p` is the pointer of an allocated block of size `s`. -/
abbrev Held (bs : List Block) (p s : ℕ) : Prop := HeldAt 420 bs p s

/-- `mm_free(p)`: the block of `p` and its free neighbours become one free
block. -/
inductive FreeStep (p : ℕ) : List Block → List Block → Prop where
  | join {xs l r ys : List Block} {s : ℕ} : LeftFree xs l → RightFree r ys →
      p = 420 + total Block.size (xs ++ l) + 4 →
      FreeStep p (xs ++ (l ++ ⟨s, .alloc⟩ :: r) ++ ys)
        (xs ++ ⟨total Block.size l + s + total Block.size r, .free⟩ :: ys)

/-- `mm_malloc(n) = p` for `n > 0`: a free block that is large enough is taken
and split, or, when there is none, `blockSize n` bytes are appended, joined with
a free last block, and split. -/
inductive MallocStep (n : ℕ) : List Block → List Block → ℕ → Prop where
  | fit {xs ys : List Block} {s : ℕ} : blockSize n ≤ s →
      MallocStep n (xs ++ ⟨s, .free⟩ :: ys) (xs ++ splitBlock s (blockSize n) ++ ys)
        (420 + total Block.size xs + 4)
  | extend {xs l : List Block} : (∀ s, ⟨s, .free⟩ ∈ xs ++ l → s < blockSize n) → LeftFree xs l →
      MallocStep n (xs ++ l)
        (xs ++ splitBlock (total Block.size l + blockSize n) (blockSize n))
        (420 + total Block.size xs + 4)

/-- What each call does to the sequence, and what it returns. -/
inductive SeqStep : Call → List Block → List Block → ℕ → Prop where
  | mallocZero {bs : List Block} : SeqStep (.malloc 0) bs bs 0
  | malloc {bs bs' : List Block} {n p : ℕ} : 0 < n → MallocStep n bs bs' p →
      SeqStep (.malloc n) bs bs' p
  | free {bs bs' : List Block} {p : ℕ} : FreeStep p bs bs' → SeqStep (.free p) bs bs' 0
  | reallocZero {bs bs' : List Block} {p : ℕ} : FreeStep p bs bs' →
      SeqStep (.realloc p 0) bs bs' 0
  | reallocNull {bs bs' : List Block} {n p : ℕ} : 0 < n → MallocStep n bs bs' p →
      SeqStep (.realloc 0 n) bs bs' p
  | reallocNullZero {bs : List Block} : SeqStep (.realloc 0 0) bs bs 0
  | keep {bs : List Block} {p s n : ℕ} : Held bs p s → 0 < n → n + 8 ≤ s →
      SeqStep (.realloc p n) bs bs p
  | grow {xs : List Block} {s n : ℕ} : s < n + 8 →
      SeqStep (.realloc (420 + total Block.size xs + 4) n) (xs ++ [⟨s, .alloc⟩])
        (xs ++ [⟨s + 8 * ((n + 8 - s + 7) / 8), .alloc⟩]) (420 + total Block.size xs + 4)
  | absorb {xs ys : List Block} {s t n : ℕ} : s < n + 8 → n + 8 ≤ s + t →
      SeqStep (.realloc (420 + total Block.size xs + 4) n)
        (xs ++ ⟨s, .alloc⟩ :: ⟨t, .free⟩ :: ys) (xs ++ ⟨s + t, .alloc⟩ :: ys)
        (420 + total Block.size xs + 4)
  | move {xs ys bs' bs'' : List Block} {s n q : ℕ} : s < n + 8 → ys ≠ [] →
      (∀ t, (nextBlock ys) = ⟨t, .free⟩ → s + t < n + 8) →
      MallocStep n (xs ++ ⟨s, .alloc⟩ :: ys) bs' q →
      FreeStep (420 + total Block.size xs + 4) bs' bs'' →
      SeqStep (.realloc (420 + total Block.size xs + 4) n) (xs ++ ⟨s, .alloc⟩ :: ys) bs'' q

/-- The call asks `mem_sbrk` for `k` bytes: no free block is large enough for
`mm_malloc`, or `mm_realloc` is called for a last block that is too small. -/
inductive Asks : Call → List Block → ℕ → Prop where
  | malloc {bs : List Block} {n : ℕ} : 0 < n → (∀ s, ⟨s, .free⟩ ∈ bs → s < blockSize n) →
      Asks (.malloc n) bs (blockSize n)
  | reallocNull {bs : List Block} {n : ℕ} : 0 < n → (∀ s, ⟨s, .free⟩ ∈ bs → s < blockSize n) →
      Asks (.realloc 0 n) bs (blockSize n)
  | grow {xs : List Block} {s n : ℕ} : s < n + 8 →
      Asks (.realloc (420 + total Block.size xs + 4) n) (xs ++ [⟨s, .alloc⟩])
        (8 * ((n + 8 - s + 7) / 8))
  | move {xs ys : List Block} {s n : ℕ} : s < n + 8 → ys ≠ [] →
      (∀ t, (nextBlock ys) = ⟨t, .free⟩ → s + t < n + 8) →
      (∀ t, ⟨t, .free⟩ ∈ xs ++ ⟨s, .alloc⟩ :: ys → t < blockSize n) →
      Asks (.realloc (420 + total Block.size xs + 4) n) (xs ++ ⟨s, .alloc⟩ :: ys) (blockSize n)

/-! ## The free blocks that are formed -/

/-- `mm_free(p)` forms a free block of `t` bytes: the block of `p` with its free
neighbours. -/
inductive Joins (p : ℕ) : List Block → ℕ → Prop where
  | join {xs l r ys : List Block} {s : ℕ} : LeftFree xs l → RightFree r ys →
      p = 420 + total Block.size (xs ++ l) + 4 →
      Joins p (xs ++ (l ++ ⟨s, .alloc⟩ :: r) ++ ys) (total Block.size l + s + total Block.size r)

/-- Appending `k` bytes forms a free block of `t` bytes: the new block with a free last
block. -/
inductive Extends (k : ℕ) : List Block → ℕ → Prop where
  | append {xs l : List Block} : LeftFree xs l → Extends k (xs ++ l) (total Block.size l + k)

/-- The block of `p` has to move for `n` bytes: it is too small, it is not the last one,
and it is too small with a free block after it as well. -/
inductive Moves (p n : ℕ) : List Block → Prop where
  | move {xs ys : List Block} {s : ℕ} : s < n + 8 → ys ≠ [] →
      (∀ t, (nextBlock ys) = ⟨t, .free⟩ → s + t < n + 8) → p = 420 + total Block.size xs + 4 →
      Moves p n (xs ++ ⟨s, .alloc⟩ :: ys)

/-- The block of `p` is the last one, too small for `n` bytes, and short of `k` bytes. -/
inductive Grows (p n : ℕ) : List Block → ℕ → Prop where
  | grow {xs : List Block} {s : ℕ} : s < n + 8 → p = 420 + total Block.size xs + 4 →
      Grows p n (xs ++ [⟨s, .alloc⟩]) (8 * ((n + 8 - s + 7) / 8))

theorem Moves.asks {p n : ℕ} {bs : List Block} (h : Moves p n bs)
    (hnone : ∀ s, ⟨s, .free⟩ ∈ bs → s < blockSize n) :
    Asks (.realloc p n) bs (blockSize n) := by
  cases h with
  | move hlt hne hnext hp =>
      subst hp
      exact .move hlt hne hnext hnone

theorem Grows.asks {p n k : ℕ} {bs : List Block} (h : Grows p n bs k) :
    Asks (.realloc p n) bs k := by
  cases h with
  | grow hlt hp =>
      subst hp
      exact .grow hlt

theorem Joins.le_total {p t : ℕ} {bs : List Block} (h : Joins p bs t) :
    t ≤ total Block.size bs := by
  cases h with
  | join =>
      simp only [total_append, total_cons]
      omega

theorem Extends.le_total {k t : ℕ} {bs : List Block} (h : Extends k bs t) :
    t ≤ total Block.size bs + k := by
  cases h with
  | append =>
      rw [total_append]
      omega

/-- `mm_free` keeps the bytes of the sequence. -/
theorem FreeStep.total_eq {p : ℕ} {bs bs' : List Block} (h : FreeStep p bs bs') :
    total Block.size bs' = total Block.size bs := by
  cases h with
  | join =>
      simp only [total_append, total_cons]
      omega

/-- `mm_malloc` keeps the bytes of the sequence, or appends a block. -/
theorem MallocStep.total_eq {n q : ℕ} {bs bs' : List Block} (h : MallocStep n bs bs' q) :
    total Block.size bs' = total Block.size bs ∨
      (∀ s, ⟨s, .free⟩ ∈ bs → s < blockSize n) ∧
        total Block.size bs' = total Block.size bs + blockSize n := by
  cases h with
  | fit hle =>
      left
      simp only [total_append, total_cons, total_splitBlock hle]
      omega
  | extend hnone hl =>
      right
      refine ⟨hnone, ?_⟩
      rw [total_append, total_append, total_splitBlock (by omega)]
      omega

/-- **A step keeps the bytes of the sequence**, or appends those it asks for. -/
theorem SeqStep.total_eq {c : Call} {bs bs' : List Block} {q : ℕ} (h : SeqStep c bs bs' q) :
    total Block.size bs' = total Block.size bs ∨
      ∃ k, Asks c bs k ∧ total Block.size bs' = total Block.size bs + k := by
  cases h with
  | mallocZero => exact Or.inl rfl
  | malloc hn h =>
      rcases h.total_eq with h | ⟨hnone, h⟩
      · exact Or.inl h
      · exact Or.inr ⟨_, .malloc hn hnone, h⟩
  | free h => exact Or.inl h.total_eq
  | reallocZero h => exact Or.inl h.total_eq
  | reallocNull hn h =>
      rcases h.total_eq with h | ⟨hnone, h⟩
      · exact Or.inl h
      · exact Or.inr ⟨_, .reallocNull hn hnone, h⟩
  | reallocNullZero => exact Or.inl rfl
  | keep _ _ _ => exact Or.inl rfl
  | grow hlt =>
      refine Or.inr ⟨_, .grow hlt, ?_⟩
      simp only [total_append, total_cons, total_nil]
      omega
  | absorb _ _ =>
      left
      simp only [total_append, total_cons]
      omega
  | move hlt hne hnext hm hf =>
      rw [hf.total_eq]
      rcases hm.total_eq with h | ⟨hnone, h⟩
      · exact Or.inl h
      · exact Or.inr ⟨_, .move hlt hne hnext hnone, h⟩

/-! ## Settled sequences -/

/-- Aligned sizes, no loose block, no two adjacent free blocks. -/
structure Settled (bs : List Block) : Prop where
  sizes : ∀ b ∈ bs, b.size % 8 = 0 ∧ 16 ≤ b.size
  tags : ∀ b ∈ bs, b.tag ≠ .loose
  apart : bs.IsChain fun b c => ¬ (b.tag = .free ∧ c.tag = .free)

theorem settled_nil : Settled [] := ⟨by simp, by simp, List.isChain_nil⟩

theorem Tag.eq_alloc {t : Tag} (h : t ≠ .loose) (h' : t ≠ .free) : t = .alloc := by
  cases t <;> simp_all

theorem mem_getLast_iff {xs : List Block} {b : Block} (h : b ∈ xs.getLast?) :
    prevBlock xs = b := by
  rw [prevBlock, Option.mem_def.mp h]
  rfl

theorem mem_head_iff {ys : List Block} {b : Block} (h : b ∈ ys.head?) : nextBlock ys = b := by
  rw [nextBlock, Option.mem_def.mp h]
  rfl

/-- A sequence is settled when its two parts are and the blocks that meet are not
both free. -/
theorem settled_append {xs ys : List Block} :
    Settled (xs ++ ys) ↔ Settled xs ∧ Settled ys ∧
      ¬ ((prevBlock xs).tag = .free ∧ (nextBlock ys).tag = .free) := by
  constructor
  · intro h
    obtain ⟨h1, h2, h3⟩ := List.isChain_append.mp h.apart
    refine ⟨⟨fun b hb => h.sizes b (by simp [hb]), fun b hb => h.tags b (by simp [hb]), h1⟩,
      ⟨fun b hb => h.sizes b (by simp [hb]), fun b hb => h.tags b (by simp [hb]), h2⟩, ?_⟩
    rcases List.eq_nil_or_concat xs with rfl | ⟨zs, b, rfl⟩
    · simp [prevBlock]
    · cases ys with
      | nil => simp [nextBlock]
      | cons c ys =>
          rw [List.concat_eq_append, prevBlock_concat, nextBlock_cons]
          exact h3 b (by simp) c (by simp)
  · rintro ⟨h1, h2, h3⟩
    refine ⟨?_, ?_, List.isChain_append.mpr ⟨h1.apart, h2.apart, ?_⟩⟩
    · intro b hb
      rcases List.mem_append.mp hb with hb | hb
      · exact h1.sizes b hb
      · exact h2.sizes b hb
    · intro b hb
      rcases List.mem_append.mp hb with hb | hb
      · exact h1.tags b hb
      · exact h2.tags b hb
    · intro b hb c hc
      rw [mem_getLast_iff hb, mem_head_iff hc] at h3
      exact h3

theorem settled_singleton {b : Block} :
    Settled [b] ↔ (b.size % 8 = 0 ∧ 16 ≤ b.size) ∧ b.tag ≠ .loose := by
  constructor
  · intro h
    exact ⟨h.sizes b (by simp), h.tags b (by simp)⟩
  · rintro ⟨h1, h2⟩
    exact ⟨by simpa using h1, by simpa using h2, List.isChain_singleton b⟩

/-- A block inside a settled sequence: an allocated one always fits, a free one
between allocated ones. -/
theorem settled_cons {b : Block} {ys : List Block} :
    Settled (b :: ys) ↔ Settled [b] ∧ Settled ys ∧
      ¬ (b.tag = .free ∧ (nextBlock ys).tag = .free) := by
  rw [← List.singleton_append, settled_append]
  rfl

/-- The block before the end of a settled sequence is allocated or free. -/
theorem Settled.prev_ne_loose {xs : List Block} (h : Settled xs) :
    (prevBlock xs).tag ≠ .loose := by
  rcases List.eq_nil_or_concat xs with rfl | ⟨zs, b, rfl⟩
  · simp [prevBlock]
  · rw [List.concat_eq_append] at h ⊢
    rw [prevBlock_concat]
    exact h.tags b (by simp)

theorem Settled.next_ne_loose {ys : List Block} (h : Settled ys) :
    (nextBlock ys).tag ≠ .loose := by
  cases ys with
  | nil => simp [nextBlock]
  | cons b ys => exact h.tags b (by simp)

/-- After a block of a settled sequence, an allocated bit of zero means a free
block. -/
theorem Settled.next_free {xs ys : List Block} {b : Block} (h : Settled (xs ++ b :: ys))
    (hbit : (nextBlock ys).tag.bit = 0) : (nextBlock ys).tag = .free := by
  rw [List.append_cons] at h
  have hloose := (settled_append.mp h).2.1.next_ne_loose
  cases htag : (nextBlock ys).tag with
  | alloc =>
      rw [htag] at hbit
      exact absurd hbit (by decide)
  | free => rfl
  | loose => exact absurd htag hloose

/-- The free block at the end of a settled sequence, if there is one. -/
theorem Settled.exists_leftFree {xs : List Block} (h : Settled xs) :
    ∃ us l, xs = us ++ l ∧ LeftFree us l := by
  by_cases hfree : (prevBlock xs).tag = .free
  · rcases List.eq_nil_or_concat xs with rfl | ⟨zs, ⟨a, t⟩, rfl⟩
    · simp [prevBlock] at hfree
    · rw [List.concat_eq_append, prevBlock_concat] at hfree
      simp only at hfree
      subst hfree
      exact ⟨zs, [⟨a, .free⟩], by simp, Or.inr ⟨a, rfl⟩⟩
  · exact ⟨xs, [], by simp, Or.inl ⟨rfl, Tag.eq_alloc h.prev_ne_loose hfree⟩⟩

/-- The free block at the start of a settled sequence, if there is one. -/
theorem Settled.exists_rightFree {ys : List Block} (h : Settled ys) :
    ∃ r vs, ys = r ++ vs ∧ RightFree r vs := by
  by_cases hfree : (nextBlock ys).tag = .free
  · cases ys with
    | nil => simp [nextBlock] at hfree
    | cons b ys =>
        obtain ⟨a, t⟩ := b
        simp only [nextBlock_cons] at hfree
        subst hfree
        exact ⟨[⟨a, .free⟩], ys, by simp, Or.inr ⟨a, rfl⟩⟩
  · exact ⟨[], ys, by simp, Or.inl ⟨rfl, Tag.eq_alloc h.next_ne_loose hfree⟩⟩

/-- What lies before the free block at the end is settled and ends allocated. -/
theorem LeftFree.settled {xs l : List Block} (hl : LeftFree xs l) (h : Settled (xs ++ l)) :
    Settled xs ∧ (prevBlock xs).tag = .alloc := by
  obtain ⟨h1, -, h3⟩ := settled_append.mp h
  rcases hl with ⟨-, ht⟩ | ⟨a, rfl⟩
  · exact ⟨h1, ht⟩
  · refine ⟨h1, Tag.eq_alloc h1.prev_ne_loose fun hf => h3 ⟨hf, rfl⟩⟩

/-- What lies after the free block at the start is settled and starts
allocated. -/
theorem RightFree.settled {r ys : List Block} (hr : RightFree r ys) (h : Settled (r ++ ys)) :
    Settled ys ∧ (nextBlock ys).tag = .alloc := by
  obtain ⟨-, h2, h3⟩ := settled_append.mp h
  rcases hr with ⟨-, ht⟩ | ⟨a, rfl⟩
  · exact ⟨h2, ht⟩
  · refine ⟨h2, Tag.eq_alloc h2.next_ne_loose fun hf => h3 ⟨rfl, hf⟩⟩

/-- A block may stand between two settled sequences when it is allocated, or when
both of its neighbours are. -/
theorem settled_insert {xs ys : List Block} {b : Block} (hxs : Settled xs) (hb : Settled [b])
    (hys : Settled ys)
    (hfree : b.tag = .free → (prevBlock xs).tag = .alloc ∧ (nextBlock ys).tag = .alloc) :
    Settled (xs ++ b :: ys) := by
  refine settled_append.mpr ⟨hxs, settled_cons.mpr ⟨hb, hys, ?_⟩, ?_⟩
  · rintro ⟨hf, hn⟩
    rw [(hfree hf).2] at hn
    exact absurd hn (by decide)
  · rintro ⟨hp, hf⟩
    rw [(hfree hf).1] at hp
    exact absurd hp (by decide)

/-- The pieces of a block that was split. -/
theorem settled_splitBlock {xs ys : List Block} {s a : ℕ} (hxs : Settled xs) (hys : Settled ys)
    (hnext : (nextBlock ys).tag = .alloc) (hs : s % 8 = 0) (ha : a % 8 = 0) (hmin : 16 ≤ a)
    (hle : a ≤ s) : Settled (xs ++ splitBlock s a ++ ys) := by
  have halloc : ∀ t, t % 8 = 0 → 16 ≤ t → Settled [⟨t, .alloc⟩] := fun t h1 h2 =>
    settled_singleton.mpr ⟨⟨h1, h2⟩, by simp⟩
  unfold splitBlock
  split_ifs with hsplit
  · rw [List.append_assoc]
    have hrest : Settled (⟨s - a, .free⟩ :: ys) := by
      rw [← List.nil_append (_ :: ys)]
      exact settled_insert settled_nil
        (settled_singleton.mpr ⟨⟨by simp only; omega, hsplit⟩, by simp⟩) hys
        fun _ => ⟨rfl, hnext⟩
    exact settled_insert hxs (halloc a ha hmin) hrest (by simp)
  · rw [List.append_assoc]
    exact settled_insert hxs (halloc s hs (by omega)) hys (by simp)

/-- `mm_free` keeps the sequence settled. -/
theorem FreeStep.settled {p : ℕ} {bs bs' : List Block} (h : FreeStep p bs bs')
    (hs : Settled bs) : Settled bs' := by
  cases h with
  | @join xs l r ys s hl hr hp =>
      rw [List.append_assoc, List.append_assoc, ← List.append_assoc] at hs
      obtain ⟨hleft, hright, -⟩ := settled_append.mp hs
      obtain ⟨hblock, hright, -⟩ := settled_cons.mp hright
      obtain ⟨hxs, hprev⟩ := hl.settled hleft
      obtain ⟨hys, hnext⟩ := hr.settled hright
      have hbs := (settled_singleton.mp hblock).1
      have hltotal : total Block.size l % 8 = 0 := by
        rcases hl with ⟨rfl, -⟩ | ⟨a, rfl⟩
        · rfl
        · simpa using (hleft.sizes ⟨a, .free⟩ (by simp)).1
      have hrtotal : total Block.size r % 8 = 0 := by
        rcases hr with ⟨rfl, -⟩ | ⟨a, rfl⟩
        · rfl
        · simpa using (hright.sizes ⟨a, .free⟩ (by simp)).1
      refine settled_insert hxs (settled_singleton.mpr ⟨⟨?_, ?_⟩, by simp⟩) hys
        fun _ => ⟨hprev, hnext⟩
      · simp only at hbs ⊢
        omega
      · simp only at hbs ⊢
        omega

/-- `mm_malloc` keeps the sequence settled. -/
theorem MallocStep.settled {n p : ℕ} {bs bs' : List Block} (h : MallocStep n bs bs' p)
    (hs : Settled bs) : Settled bs' := by
  have hmod := blockSize_mod n
  have hmin := (le_blockSize n).2
  cases h with
  | @fit xs ys s hle =>
      obtain ⟨hxs, hright, -⟩ := settled_append.mp hs
      obtain ⟨hblock, hys, hapart⟩ := settled_cons.mp hright
      have hnext : (nextBlock ys).tag = .alloc :=
        Tag.eq_alloc hys.next_ne_loose fun hf => hapart ⟨rfl, hf⟩
      exact settled_splitBlock hxs hys hnext (settled_singleton.mp hblock).1.1 hmod hmin hle
  | @extend xs l hnone hl =>
      obtain ⟨hxs, -⟩ := hl.settled hs
      have hltotal : total Block.size l % 8 = 0 := by
        rcases hl with ⟨rfl, -⟩ | ⟨a, rfl⟩
        · rfl
        · simpa using (hs.sizes ⟨a, .free⟩ (by simp)).1
      have := settled_splitBlock (s := total Block.size l + blockSize n) hxs settled_nil rfl
        (by omega) hmod hmin (by omega)
      rwa [List.append_nil] at this

/-- **Every call keeps the sequence settled.** -/
theorem SeqStep.settled {c : Call} {bs bs' : List Block} {q : ℕ} (h : SeqStep c bs bs' q)
    (hs : Settled bs) : Settled bs' := by
  cases h with
  | mallocZero => exact hs
  | malloc _ h => exact h.settled hs
  | free h => exact h.settled hs
  | reallocZero h => exact h.settled hs
  | reallocNull _ h => exact h.settled hs
  | reallocNullZero => exact hs
  | keep _ _ _ => exact hs
  | @grow xs s n hlt =>
      obtain ⟨hxs, hblock, -⟩ := settled_append.mp hs
      have hb := (settled_singleton.mp hblock).1
      refine settled_insert hxs (settled_singleton.mpr ⟨⟨?_, ?_⟩, by simp⟩) settled_nil (by simp)
      · simp only at hb ⊢
        omega
      · simp only at hb ⊢
        omega
  | @absorb xs ys s t n hlt hle =>
      obtain ⟨hxs, hright, -⟩ := settled_append.mp hs
      obtain ⟨hblock, hright, -⟩ := settled_cons.mp hright
      obtain ⟨hnext, hys, -⟩ := settled_cons.mp hright
      have hb := (settled_singleton.mp hblock).1
      have hn := (settled_singleton.mp hnext).1
      refine settled_insert hxs (settled_singleton.mpr ⟨⟨?_, ?_⟩, by simp⟩) hys (by simp)
      · simp only at hb hn ⊢
        omega
      · simp only at hb hn ⊢
        omega
  | move _ _ _ hm hf => exact hf.settled (hm.settled hs)

/-! ## The allocated blocks -/

@[simp] theorem heldAt_nil (a p s : ℕ) : ¬ HeldAt a [] p s := by
  simp [HeldAt]

@[simp] theorem heldAt_append (a : ℕ) (xs ys : List Block) (p s : ℕ) :
    HeldAt a (xs ++ ys) p s ↔ HeldAt a xs p s ∨ HeldAt (a + total Block.size xs) ys p s := by
  simp only [HeldAt, placed_append, List.mem_append, and_or_left, exists_or]

@[simp] theorem heldAt_cons (a : ℕ) (b : Block) (ys : List Block) (p s : ℕ) :
    HeldAt a (b :: ys) p s ↔ (p = a + 4 ∧ b = ⟨s, .alloc⟩) ∨ HeldAt (a + b.size) ys p s := by
  simp only [HeldAt, placed_cons, List.mem_cons, Prod.mk.injEq, and_or_left, exists_or]
  constructor
  · rintro (⟨q, rfl, rfl, rfl⟩ | h)
    · exact Or.inl ⟨rfl, rfl⟩
    · exact Or.inr h
  · rintro (⟨rfl, rfl⟩ | h)
    · exact Or.inl ⟨a, rfl, rfl, rfl⟩
    · exact Or.inr h

/-- An allocated block lies inside its sequence. -/
theorem HeldAt.bounds {a p s : ℕ} {bs : List Block} (h : HeldAt a bs p s) :
    a + 4 ≤ p ∧ p + s ≤ a + total Block.size bs + 4 := by
  obtain ⟨q, rfl, hq⟩ := h
  have hb : a ≤ q ∧ q + s ≤ a + total Block.size bs := mem_placed_bounds hq
  omega

theorem HeldAt.size {a p s : ℕ} {bs : List Block} (h : HeldAt a bs p s)
    (hs : ∀ b ∈ bs, b.size % 8 = 0 ∧ 16 ≤ b.size) : s % 8 = 0 ∧ 16 ≤ s := by
  obtain ⟨q, -, hq⟩ := h
  exact hs _ (mem_of_mem_placed hq)

/-- Two allocated blocks have one pointer and one size, or do not overlap. -/
theorem HeldAt.disjoint {a p s q t : ℕ} {bs : List Block} (hp : HeldAt a bs p s)
    (hq : HeldAt a bs q t) : (p = q ∧ s = t) ∨ p + s ≤ q ∨ q + t ≤ p := by
  obtain ⟨p, rfl, hp⟩ := hp
  obtain ⟨q, rfl, hq⟩ := hq
  rcases placed_disjoint hp hq with ⟨rfl, h⟩ | h | h
  · simp only [Block.mk.injEq, and_true] at h
    exact Or.inl ⟨rfl, h⟩
  · simp only at h
    omega
  · simp only at h
    omega

/-- The size of the block that `place` hands out. -/
def takenSize (s a : ℕ) : ℕ := if 16 ≤ s - a then a else s

/-- The only allocated piece of a split block is the first one. -/
theorem heldAt_splitBlock (b s a p t : ℕ) :
    HeldAt b (splitBlock s a) p t ↔ p = b + 4 ∧ t = takenSize s a := by
  unfold splitBlock takenSize
  split_ifs
  · simp [eq_comm]
  · simp [eq_comm]

/-- A block of `mm_malloc` has the size asked for, or eight bytes more. -/
theorem takenSize_eq {s a : ℕ} (hs : s % 8 = 0) (ha : a % 8 = 0) (hle : a ≤ s) :
    takenSize s a = a ∨ takenSize s a = a + 8 := by
  unfold takenSize
  split_ifs
  · exact Or.inl rfl
  · omega

/-- **`mm_malloc` adds one allocated block**, of the size asked for or eight bytes
more, at a pointer no allocated block has. -/
theorem MallocStep.held {n p : ℕ} {bs bs' : List Block} (h : MallocStep n bs bs' p)
    (hs : Settled bs) : ∃ t, (t = blockSize n ∨ t = blockSize n + 8) ∧ p ≠ 0 ∧
      (∀ s, ¬ Held bs p s) ∧ ∀ q s, Held bs' q s ↔ Held bs q s ∨ (q = p ∧ s = t) := by
  have hmod := blockSize_mod n
  have hmin := (le_blockSize n).2
  cases h with
  | @fit xs ys s hle =>
      have hsize := hs.sizes ⟨s, .free⟩ (by simp)
      refine ⟨takenSize s (blockSize n), takenSize_eq hsize.1 hmod hle, by omega, ?_, ?_⟩
      · intro t ht
        have hmin := (ht.size hs.sizes).2
        simp only [heldAt_append, heldAt_cons, Block.mk.injEq, reduceCtorEq, and_false,
          false_or] at ht
        rcases ht with ht | ht
        · have := ht.bounds
          omega
        · have := ht.bounds
          simp only at hsize
          omega
      · intro q t
        simp only [heldAt_append, heldAt_cons, heldAt_splitBlock, total_append,
          total_splitBlock hle, Block.mk.injEq, reduceCtorEq, and_false, false_or, ← Nat.add_assoc]
        constructor
        · rintro ((h | h) | h)
          · exact Or.inl (Or.inl h)
          · exact Or.inr h
          · exact Or.inl (Or.inr h)
        · rintro ((h | h) | h)
          · exact Or.inl (Or.inl h)
          · exact Or.inr h
          · exact Or.inl (Or.inr h)
  | @extend xs l hnone hl =>
      -- `l` is the free block at the end, if there is one
      obtain ⟨a, ha⟩ : ∃ a, a = total Block.size l := ⟨_, rfl⟩
      have hltotal : a % 8 = 0 ∧ ∀ q s, ¬ HeldAt (420 + total Block.size xs) l q s := by
        rcases hl with ⟨rfl, -⟩ | ⟨b, rfl⟩
        · exact ⟨by rw [ha]; rfl, by simp⟩
        · exact ⟨by simpa [ha] using (hs.sizes ⟨b, .free⟩ (by simp)).1, by simp⟩
      rw [← ha]
      refine ⟨takenSize (a + blockSize n) (blockSize n),
        takenSize_eq (by omega) hmod (by omega), by omega, ?_, ?_⟩
      · intro t ht
        have hmin := (ht.size hs.sizes).2
        simp only [heldAt_append, hltotal.2, or_false] at ht
        have := ht.bounds
        omega
      · intro q t
        simp only [heldAt_append, heldAt_splitBlock, hltotal.2, or_false]

/-- **`mm_free` removes one allocated block.** -/
theorem FreeStep.held {p : ℕ} {bs bs' : List Block} (h : FreeStep p bs bs') (hs : Settled bs) :
    (∃ s, Held bs p s) ∧ ∀ q s, Held bs' q s ↔ Held bs q s ∧ q ≠ p := by
  cases h with
  | @join xs l r ys s hl hr hp =>
      have hlheld : ∀ q t, ¬ HeldAt (420 + total Block.size xs) l q t := by
        rcases hl with ⟨rfl, -⟩ | ⟨b, rfl⟩ <;> simp
      have hrheld : ∀ a q t, ¬ HeldAt a r q t := by
        rcases hr with ⟨rfl, -⟩ | ⟨b, rfl⟩ <;> simp
      have hsize := hs.sizes ⟨s, .alloc⟩ (by simp)
      simp only at hsize
      rw [total_append] at hp
      constructor
      · refine ⟨s, ?_⟩
        simp only [heldAt_append, heldAt_cons]
        exact Or.inl (Or.inr (Or.inr (Or.inl ⟨by omega, trivial⟩)))
      · intro q t
        simp only [heldAt_append, heldAt_cons, hlheld, hrheld, or_false, false_or, total_append,
          total_cons, Block.mk.injEq, reduceCtorEq, and_false, and_true, ← Nat.add_assoc]
        constructor
        · rintro (h | h)
          · have hmin := (h.size fun b hb => hs.sizes b (by simp [hb])).2
            have := h.bounds
            exact ⟨Or.inl (Or.inl h), by omega⟩
          · have := h.bounds
            exact ⟨Or.inr h, by omega⟩
        · rintro ⟨(h | h) | h, hne⟩
          · exact Or.inl h
          · exact absurd h.1 (by omega)
          · exact Or.inr h

/-- A change of size of one allocated block. -/
def Resized (H H' : ℕ → ℕ → Prop) (p s t : ℕ) : Prop :=
  H p s ∧ ∀ q u, H' q u ↔ (H q u ∧ q ≠ p) ∨ (q = p ∧ u = t)

/-- Keeping the block of `p` is a change to the size it has. -/
theorem resized_keep {bs : List Block} {p s : ℕ} (hs : Settled bs) (h : Held bs p s) :
    Resized (Held bs) (Held bs) p s s := by
  refine ⟨h, fun q u => ⟨fun hq => ?_, ?_⟩⟩
  · by_cases hqp : q = p
    · subst hqp
      have h1 := (h.size hs.sizes).2
      have h2 := (hq.size hs.sizes).2
      rcases h.disjoint hq with ⟨-, rfl⟩ | h | h
      · exact Or.inr ⟨rfl, rfl⟩
      · omega
      · omega
    · exact Or.inl ⟨hq, hqp⟩
  · rintro (⟨hq, -⟩ | ⟨rfl, rfl⟩)
    · exact hq
    · exact h

/-- Enlarging the block at the end of `xs` by what follows it. -/
theorem resized_mid {xs : List Block} (mid ys : List Block) {s t : ℕ}
    (hs : Settled (xs ++ ⟨s, .alloc⟩ :: mid ++ ys))
    (hmid : ∀ a q u, ¬ HeldAt a mid q u) (ht : ys = [] ∨ t = s + total Block.size mid) :
    Resized (Held (xs ++ ⟨s, .alloc⟩ :: mid ++ ys)) (Held (xs ++ ⟨t, .alloc⟩ :: ys))
      (420 + total Block.size xs + 4) s t := by
  have hsize := hs.sizes ⟨s, .alloc⟩ (by simp)
  simp only at hsize
  constructor
  · simp
  · intro q u
    simp only [heldAt_append, heldAt_cons, hmid, or_false, total_append, total_cons,
      Block.mk.injEq, and_true, ← Nat.add_assoc]
    have hys : HeldAt (420 + total Block.size xs + t) ys q u ↔
        HeldAt (420 + total Block.size xs + s + total Block.size mid) ys q u := by
      rcases ht with rfl | rfl
      · simp
      · rw [← Nat.add_assoc]
    rw [hys]
    constructor
    · rintro (h | ⟨rfl, rfl⟩ | h)
      · have hmin := (h.size fun b hb => hs.sizes b (by simp [hb])).2
        have := h.bounds
        exact Or.inl ⟨Or.inl (Or.inl h), by omega⟩
      · exact Or.inr ⟨rfl, rfl⟩
      · have := h.bounds
        exact Or.inl ⟨Or.inr h, by omega⟩
    · rintro (⟨(h | h) | h, hne⟩ | ⟨rfl, rfl⟩)
      · exact Or.inl h
      · exact absurd h.1 hne
      · exact Or.inr (Or.inr h)
      · exact Or.inr (Or.inl ⟨rfl, rfl⟩)

/-! ## Live pointers -/

/-- The largest request that the rounding of `mm_malloc` does not wrap. -/
def maxRequest : ℕ := 2 ^ 32 - 16

/-- The live list without the pointer `p`. -/
def dropPtr (live : List (ℕ × ℕ)) (p : ℕ) : List (ℕ × ℕ) := live.filter fun a => a.1 ≠ p

/-- The live pointers, with the sizes they were last requested with, after a call
that returned `q`. -/
def Call.after (live : List (ℕ × ℕ)) (q : ℕ) : Call → List (ℕ × ℕ)
  | .malloc n => if q = 0 then live else (q, n) :: live
  | .free p => dropPtr live p
  | .realloc p n =>
      if n = 0 then dropPtr live p else if q = 0 then live else (q, n) :: dropPtr live p

/-- What a client may call: `free` and `realloc` on live pointers (`realloc` on
null as well), and sizes up to `maxRequest`. -/
def Legal (live : List (ℕ × ℕ)) : Call → Prop
  | .malloc n => n ≤ maxRequest
  | .free p => p ∈ live.map Prod.fst
  | .realloc p n => (p = 0 ∨ p ∈ live.map Prod.fst) ∧ n ≤ maxRequest

instance (live : List (ℕ × ℕ)) : DecidablePred (Legal live)
  | .malloc n => inferInstanceAs (Decidable (n ≤ maxRequest))
  | .free p => inferInstanceAs (Decidable (p ∈ live.map Prod.fst))
  | .realloc p n => inferInstanceAs (Decidable ((p = 0 ∨ p ∈ live.map Prod.fst) ∧ n ≤ maxRequest))

/-- The live pointers are the pointers of the allocated blocks, each once, and
every block has room for its request. -/
structure LiveRep (H : ℕ → ℕ → Prop) (live : List (ℕ × ℕ)) : Prop where
  nodup : (live.map Prod.fst).Nodup
  held : ∀ p n, (p, n) ∈ live → 0 < n ∧ ∃ s, n + 8 ≤ s ∧ H p s
  all : ∀ p s, H p s → p ∈ live.map Prod.fst

namespace LiveRep

variable {H H' : ℕ → ℕ → Prop} {live : List (ℕ × ℕ)}

theorem mem_dropPtr {p q n : ℕ} : (q, n) ∈ dropPtr live p ↔ (q, n) ∈ live ∧ q ≠ p := by
  simp [dropPtr]

theorem mem_map_dropPtr {p q : ℕ} :
    q ∈ (dropPtr live p).map Prod.fst ↔ q ∈ live.map Prod.fst ∧ q ≠ p := by
  simp only [List.mem_map, Prod.exists, exists_and_right, exists_eq_right, mem_dropPtr]

/-- A block is freed. -/
theorem drop (h : LiveRep H live) {p : ℕ} (hH : ∀ q s, H' q s ↔ H q s ∧ q ≠ p) :
    LiveRep H' (dropPtr live p) where
  nodup := h.nodup.sublist (List.filter_sublist.map Prod.fst)
  held q n hq := by
    obtain ⟨hq, hne⟩ := mem_dropPtr.mp hq
    obtain ⟨hn, s, hs, hheld⟩ := h.held q n hq
    exact ⟨hn, s, hs, (hH q s).mpr ⟨hheld, hne⟩⟩
  all q s hq := by
    obtain ⟨hq, hne⟩ := (hH q s).mp hq
    exact mem_map_dropPtr.mpr ⟨h.all q s hq, hne⟩

/-- A block is allocated. -/
theorem push (h : LiveRep H live) {p n t : ℕ} (hn : 0 < n) (ht : n + 8 ≤ t)
    (hnew : ∀ s, ¬ H p s) (hH : ∀ q s, H' q s ↔ H q s ∨ (q = p ∧ s = t)) :
    LiveRep H' ((p, n) :: live) where
  nodup := by
    rw [List.map_cons, List.nodup_cons]
    refine ⟨fun hmem => ?_, h.nodup⟩
    obtain ⟨⟨q, k⟩, hq, rfl⟩ := List.mem_map.mp hmem
    obtain ⟨-, s, -, hs⟩ := h.held q k hq
    exact hnew s hs
  held q k hq := by
    rcases List.mem_cons.mp hq with hq | hq
    · obtain ⟨rfl, rfl⟩ := Prod.mk.inj hq
      exact ⟨hn, t, ht, (hH q t).mpr (Or.inr ⟨rfl, rfl⟩)⟩
    · obtain ⟨hk, s, hs, hheld⟩ := h.held q k hq
      exact ⟨hk, s, hs, (hH q s).mpr (Or.inl hheld)⟩
  all q s hq := by
    rw [List.map_cons, List.mem_cons]
    rcases (hH q s).mp hq with hq | ⟨rfl, -⟩
    · exact Or.inr (h.all q s hq)
    · exact Or.inl rfl

/-- A block changes its size. -/
theorem resize (h : LiveRep H live) {p n s t : ℕ} (hn : 0 < n) (ht : n + 8 ≤ t)
    (hH : Resized H H' p s t) : LiveRep H' ((p, n) :: dropPtr live p) :=
  (h.drop fun _ _ => Iff.rfl).push hn ht (fun _ hc => hc.2 rfl) hH.2

end LiveRep

/-- A refused call leaves the live pointers as they are. -/
theorem Asks.after {c : Call} {bs : List Block} {k : ℕ} (h : Asks c bs k) (hs : Settled bs)
    (live : List (ℕ × ℕ)) : c.after live 0 = live := by
  cases h with
  | malloc _ _ => rfl
  | reallocNull hn _ => rw [Call.after, if_neg (by omega), if_pos rfl]
  | @grow xs s n hlt =>
      have hsize := hs.sizes ⟨s, .alloc⟩ (by simp)
      simp only at hsize
      rw [Call.after, if_neg (by omega), if_pos rfl]
  | @move xs ys s n hlt _ _ _ =>
      have hsize := hs.sizes ⟨s, .alloc⟩ (by simp)
      simp only at hsize
      rw [Call.after, if_neg (by omega), if_pos rfl]

/-- **Every call keeps the live pointers and the allocated blocks together.** -/
theorem SeqStep.live {c : Call} {bs bs' : List Block} {q : ℕ} {live : List (ℕ × ℕ)}
    (h : SeqStep c bs bs' q) (hs : Settled bs) (hl : LiveRep (Held bs) live) :
    LiveRep (Held bs') (c.after live q) := by
  have hroom : ∀ n t, (t = blockSize n ∨ t = blockSize n + 8) → n + 8 ≤ t := by
    intro n t ht
    have := (le_blockSize n).1
    omega
  have hnull : ∀ p s, Held bs p s ↔ Held bs p s ∧ p ≠ 0 := fun p s =>
    ⟨fun h => ⟨h, by have := h.bounds; omega⟩, fun h => h.1⟩
  cases h with
  | mallocZero => exact hl
  | malloc hn h =>
      obtain ⟨t, ht, hp, hnew, hH⟩ := h.held hs
      rw [Call.after, if_neg hp]
      exact hl.push hn (hroom _ t ht) hnew hH
  | free h => exact hl.drop (h.held hs).2
  | reallocZero h => exact hl.drop (h.held hs).2
  | reallocNull hn h =>
      obtain ⟨t, ht, hp, hnew, hH⟩ := h.held hs
      rw [Call.after, if_neg (by omega), if_neg hp]
      exact (hl.drop hnull).push hn (hroom _ t ht) hnew hH
  | reallocNullZero => exact hl.drop hnull
  | keep hheld hn hle =>
      have hp : q ≠ 0 := by
        have := hheld.bounds
        omega
      rw [Call.after, if_neg (by omega), if_neg hp]
      exact hl.resize hn hle (resized_keep hs hheld)
  | @grow xs s n hlt =>
      have hsize := hs.sizes ⟨s, .alloc⟩ (by simp)
      simp only at hsize
      rw [Call.after, if_neg (by omega), if_neg (by omega)]
      have hroom : n + 8 ≤ s + 8 * ((n + 8 - s + 7) / 8) := by omega
      have hmid := resized_mid [] [] (t := s + 8 * ((n + 8 - s + 7) / 8))
        (by simpa using hs) (by simp) (Or.inl rfl)
      exact hl.resize (by omega) hroom (by simpa using hmid)
  | @absorb xs ys s t n hlt hle =>
      have hsize := hs.sizes ⟨s, .alloc⟩ (by simp)
      simp only at hsize
      rw [Call.after, if_neg (by omega), if_neg (by omega)]
      have hmid := resized_mid [⟨t, .free⟩] ys (t := s + t) (by simpa using hs)
        (by simp) (Or.inr (by simp))
      exact hl.resize (by omega) hle (by simpa using hmid)
  | @move xs ys bs' bs'' s n q hlt hne hnext hm hf =>
      -- the new block comes before the old one goes
      have hsize := hs.sizes ⟨s, .alloc⟩ (by simp)
      simp only at hsize
      obtain ⟨t, ht, hq, hnew, hH⟩ := hm.held hs
      have hH' := (hf.held (hm.settled hs)).2
      have hqne : q ≠ 420 + total Block.size xs + 4 := by
        rintro rfl
        exact hnew s (by simp)
      rw [Call.after, if_neg (by omega), if_neg hq]
      refine (hl.drop fun _ _ => Iff.rfl).push (by omega) (hroom _ t ht)
        (fun u hu => hnew u hu.1) fun p u => ?_
      rw [hH', hH]
      constructor
      · rintro ⟨h | ⟨rfl, rfl⟩, hp⟩
        · exact Or.inl ⟨h, hp⟩
        · exact Or.inr ⟨rfl, rfl⟩
      · rintro (⟨h, hp⟩ | ⟨rfl, rfl⟩)
        · exact ⟨Or.inl h, hp⟩
        · exact ⟨Or.inr ⟨rfl, rfl⟩, hqne⟩

end Malloc
