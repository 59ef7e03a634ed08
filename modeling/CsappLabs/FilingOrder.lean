/-
# The order of the free lists

`heap_add` puts a block at the front of its list, and nothing else moves one.  So each
free list is ordered by age: a block stands before those that were added before it.

The ages are read off a log of the calls of `heap_add`, latest first (`Recent`).
`Filed es L L'` says that a computation with the events `es` keeps the lists in this
order, from `L` to `L'`; it holds of `coalesce`, `extend_heap` and `place`, and it
composes.
-/
import CsappLabs.Place

open WordMemory LinkedChain Layout Effects Prog

namespace Malloc

/-- The blocks that were filed, in this order. -/
def additions : List HeapEvent → List ℕ
  | [] => []
  | .add bp _ :: es => bp :: additions es
  | .sbrk _ _ _ _ :: es => additions es

@[simp] theorem additions_add (bp s : ℕ) (es : List HeapEvent) :
    additions (.add bp s :: es) = bp :: additions es := rfl

@[simp] theorem additions_sbrk (brk ret after : ℕ) (incr : ℤ) (es : List HeapEvent) :
    additions (.sbrk brk incr ret after :: es) = additions es := rfl

@[simp] theorem additions_append (es fs : List HeapEvent) :
    additions (es ++ fs) = additions es ++ additions fs := by
  induction es with
  | nil => rfl
  | cons e es ih => cases e <;> simp [ih]

/-- The lists hold blocks of the log, the latest first. -/
def Recent (log : List ℕ) (L : ℕ → List ℕ) : Prop :=
  ∀ i, (L i).Pairwise (fun a b => log.idxOf a < log.idxOf b) ∧ ∀ a ∈ L i, a ∈ log

/-- The events keep the lists in the order of the log. -/
def Filed (es : List HeapEvent) (L L' : ℕ → List ℕ) : Prop :=
  ∀ log, Recent log L → Recent ((additions es).reverse ++ log) L'

theorem Recent.sublist {log : List ℕ} {L L' : ℕ → List ℕ} (h : Recent log L)
    (hsub : ∀ i, (L' i).Sublist (L i)) : Recent log L' :=
  fun i => ⟨(h i).1.sublist (hsub i), fun a ha => (h i).2 a ((hsub i).subset ha)⟩

/-- A new block at the front of one list. -/
theorem Recent.cons {log : List ℕ} {L : ℕ → List ℕ} (h : Recent log L) {bp : ℕ} (c : ℕ)
    (hnew : ∀ i, bp ∉ L i) : Recent (bp :: log) (fun i => if i = c then bp :: L i else L i) := by
  have hold : ∀ i, ∀ a ∈ L i, (bp :: log).idxOf a = log.idxOf a + 1 := by
    intro i a ha
    have hne : bp ≠ a := by
      rintro rfl
      exact hnew i ha
    rw [List.idxOf_cons_ne _ hne]
  have hrest : ∀ i, (L i).Pairwise fun a b => (bp :: log).idxOf a < (bp :: log).idxOf b := by
    intro i
    refine (h i).1.imp_of_mem ?_
    intro a b ha hb hab
    rw [hold i a ha, hold i b hb]
    omega
  intro i
  dsimp only
  split_ifs
  · refine ⟨List.pairwise_cons.mpr ⟨fun a ha => ?_, hrest i⟩, ?_⟩
    · rw [List.idxOf_cons_self, hold i a ha]
      omega
    · intro a ha
      rcases List.mem_cons.mp ha with rfl | ha
      · exact List.mem_cons_self
      · exact List.mem_cons_of_mem _ ((h i).2 a ha)
  · exact ⟨hrest i, fun a ha => List.mem_cons_of_mem _ ((h i).2 a ha)⟩

namespace Filed

theorem refl (L : ℕ → List ℕ) : Filed [] L L := fun _ h => h

theorem trans {es fs : List HeapEvent} {L L' L'' : ℕ → List ℕ} (h : Filed es L L')
    (h' : Filed fs L' L'') : Filed (es ++ fs) L L'' := by
  intro log hlog
  have := h' _ (h log hlog)
  rwa [← List.append_assoc, ← List.reverse_append, ← additions_append] at this

/-- A call of `mem_sbrk` before. -/
theorem sbrk {es : List HeapEvent} {L L' : ℕ → List ℕ} (h : Filed es L L') (brk ret after : ℕ)
    (incr : ℤ) : Filed (.sbrk brk incr ret after :: es) L L' := h

/-- Blocks leave their lists. -/
theorem sublist {L L' : ℕ → List ℕ} (hsub : ∀ i, (L' i).Sublist (L i)) : Filed [] L L' :=
  fun _ h => h.sublist hsub

/-- Blocks leave their lists, and one is put at the front of a list. -/
theorem cons {L L' : ℕ → List ℕ} {bp c : ℕ} (s : ℕ) (hsub : ∀ i, (L' i).Sublist (L i))
    (hnew : ∀ i, bp ∉ L' i) : Filed [.add bp s] L fun i => if i = c then bp :: L' i else L' i :=
  fun _ h => (h.sublist hsub).cons c hnew

end Filed

namespace Rep

variable {h : Heap} {bs : List Block} {L L₀ : ℕ → List ℕ}

/-- What was put at the front of a list is on no other. -/
theorem not_mem_of_cons {bp c : ℕ} (hr : Rep h bs fun i => if i = c then bp :: L i else L i)
    (i : ℕ) : bp ∉ L i := by
  intro hmem
  by_cases hi : i = c
  · have hnodup := hr.nodup i
    simp only [hi, if_true] at hnodup hmem
    exact (List.nodup_cons.mp hnodup).1 hmem
  · refine hi (hr.index_unique (n := bp) ?_ ?_)
    · simpa only [hi, if_false] using hmem
    · simp only [if_true, List.mem_cons_self]

theorem joinedLists_sublist (L : ℕ → List ℕ) (xs l r : List Block) (s i : ℕ) :
    (joinedLists L xs l r s i).Sublist (L i) :=
  (List.diff_sublist _ _).trans (List.diff_sublist _ _)

/-- `coalesce` files the block it made. -/
theorem filed_coalesced {xs l r : List Block} {s t : ℕ}
    (hr : Rep h bs (coalescedLists L xs l r s)) :
    Filed [.add (420 + total Block.size xs + 12) t] L (coalescedLists L xs l r s) :=
  Filed.cons t (joinedLists_sublist L xs l r s) hr.not_mem_of_cons

/-- `place` files the rest that is split off. -/
theorem filed_placed {xs : List Block} {s asize : ℕ} (hr : Rep h bs (placedLists L xs s asize)) :
    Filed (placedEvents xs s asize) L (placedLists L xs s asize) := by
  have herase : Filed [] L fun i => (L i).erase (420 + total Block.size xs + 12) :=
    Filed.sublist fun i => List.erase_sublist
  unfold placedLists at hr ⊢
  unfold placedEvents
  split_ifs at hr ⊢ with hsplit
  · have hpos : 420 + total Block.size xs + asize + 12 =
        420 + total Block.size (xs ++ [⟨asize, .alloc⟩]) + 12 := by simp [Nat.add_assoc]
    rw [hpos]
    exact herase.trans hr.filed_coalesced
  · exact herase

end Rep

end Malloc
