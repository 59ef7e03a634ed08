/-
# The smallest values of a list

`best k l` has the `k` smallest values of `l`, in order.  It is kept up to date by one insertion
for each new value: a new value comes in while there is room, or in the place of the greatest
value when it is below that one (`best_append_of_lt`), and else nothing changes
(`best_append_of_ge`).
-/
import Mathlib

open scoped List

namespace KBest

variable {α : Type*} [LinearOrder α]

/-- The `k` smallest values, in order. -/
def best (k : ℕ) (l : List α) : List α := (l.insertionSort (· ≤ ·)).take k

@[simp] theorem length_best (k : ℕ) (l : List α) : (best k l).length = min k l.length := by
  rw [best, List.length_take, List.length_insertionSort]

theorem pairwise_best (k : ℕ) (l : List α) : (best k l).Pairwise (· ≤ ·) :=
  (List.pairwise_insertionSort _ l).sublist (List.take_sublist _ _)

/-- One more value at the end. -/
theorem insertionSort_append_singleton (l : List α) (a : α) :
    (l ++ [a]).insertionSort (· ≤ ·) = (l.insertionSort (· ≤ ·)).orderedInsert (· ≤ ·) a := by
  refine List.Perm.eq_of_pairwise' (r := (· ≤ ·)) ?_ ?_ ?_
  · exact List.pairwise_insertionSort _ _
  · exact (List.pairwise_insertionSort _ l).orderedInsert a _
  · calc (l ++ [a]).insertionSort (· ≤ ·) ~ l ++ [a] := List.perm_insertionSort _ _
      _ ~ a :: l := List.perm_append_singleton a l
      _ ~ a :: l.insertionSort (· ≤ ·) := (List.perm_insertionSort _ l).symm.cons a
      _ ~ _ := (List.perm_orderedInsert _ a _).symm

/-- A value that is below another one comes in before it. -/
theorem orderedInsert_append_of_le {a b : α} (hab : a ≤ b) (p q : List α) :
    (p ++ b :: q).orderedInsert (· ≤ ·) a = p.orderedInsert (· ≤ ·) a ++ b :: q := by
  induction p with
  | nil => simp [hab]
  | cons c p ih =>
      rw [List.cons_append, List.orderedInsert_cons, List.orderedInsert_cons]
      split_ifs with hac
      · rfl
      · rw [ih, List.cons_append]

/-- A value that is above another one comes in behind it. -/
theorem orderedInsert_append_of_ge {a b : α} (hab : b ≤ a) {p q : List α}
    (hsorted : (p ++ b :: q).Pairwise (· ≤ ·)) :
    (p ++ b :: q).orderedInsert (· ≤ ·) a = p ++ b :: q.orderedInsert (· ≤ ·) a := by
  rw [List.pairwise_append, List.pairwise_cons] at hsorted
  obtain ⟨hp, ⟨hb, hq⟩, hcross⟩ := hsorted
  refine List.Perm.eq_of_pairwise' (r := (· ≤ ·)) ?_ ?_ ?_
  · apply List.Pairwise.orderedInsert
    rw [List.pairwise_append, List.pairwise_cons]
    exact ⟨hp, ⟨hb, hq⟩, hcross⟩
  · rw [List.pairwise_append, List.pairwise_cons]
    refine ⟨hp, ⟨fun c hc => ?_, hq.orderedInsert a _⟩, fun c hc d hd => ?_⟩
    · rcases (List.mem_orderedInsert _).mp hc with rfl | hc
      · exact hab
      · exact hb c hc
    · have hcb : c ≤ b := hcross c hc b (by simp)
      rcases List.mem_cons.mp hd with rfl | hd
      · exact hcb
      · rcases (List.mem_orderedInsert _).mp hd with rfl | hd
        · exact hcb.trans hab
        · exact hcross c hc d (by simp [hd])
  · calc (p ++ b :: q).orderedInsert (· ≤ ·) a ~ a :: (p ++ b :: q) :=
          List.perm_orderedInsert _ _ _
      _ ~ p ++ a :: b :: q := List.perm_middle.symm
      _ ~ p ++ b :: a :: q := (List.Perm.swap b a q).append_left p
      _ ~ _ := ((List.perm_orderedInsert _ a q).symm.cons b).append_left p

/-- The greatest of the smallest values, when there are enough. -/
theorem insertionSort_eq_of_last {k : ℕ} {l : List α} {b : α} (hk : k < l.length)
    (hb : (best (k + 1) l).getLast? = some b) :
    ∃ q, l.insertionSort (· ≤ ·) = best k l ++ b :: q ∧ (best k l).length = k ∧
      best (k + 1) l = best k l ++ [b] := by
  have hlen : k < (l.insertionSort (· ≤ ·)).length := by rwa [List.length_insertionSort]
  have hnext : best (k + 1) l = best k l ++ [(l.insertionSort (· ≤ ·))[k]] := by
    rw [best, best, List.take_succ_eq_append_getElem hlen]
  rw [hnext, List.getLast?_concat, Option.some_inj] at hb
  refine ⟨(l.insertionSort (· ≤ ·)).drop (k + 1), ?_, ?_, ?_⟩
  · rw [best, ← hb, ← List.drop_eq_getElem_cons hlen, List.take_append_drop]
  · rw [length_best]
    omega
  · rw [hnext, hb]

/-- While there is room, each value comes in. -/
theorem best_append_of_room {k : ℕ} {l : List α} (hk : l.length < k) (a : α) :
    best k (l ++ [a]) = (best k l).orderedInsert (· ≤ ·) a := by
  have htake : best k l = l.insertionSort (· ≤ ·) := by
    rw [best, List.take_of_length_le]
    rw [List.length_insertionSort]
    omega
  rw [htake, best, insertionSort_append_singleton, List.take_of_length_le]
  rw [List.orderedInsert_length, List.length_insertionSort]
  omega

/-- **A value below the greatest one** takes its place, and goes to where it belongs. -/
theorem best_append_of_lt {k : ℕ} {l : List α} {a b : α} (hk : k < l.length)
    (hb : (best (k + 1) l).getLast? = some b) (hab : a < b) :
    best (k + 1) (l ++ [a]) = (best k l).orderedInsert (· ≤ ·) a := by
  obtain ⟨q, hsort, hlen, -⟩ := insertionSort_eq_of_last hk hb
  rw [best, insertionSort_append_singleton, hsort, orderedInsert_append_of_le hab.le]
  apply List.take_left'
  rw [List.orderedInsert_length, hlen]

/-- **Another value** changes nothing. -/
theorem best_append_of_ge {k : ℕ} {l : List α} {a b : α} (hk : k < l.length)
    (hb : (best (k + 1) l).getLast? = some b) (hab : b ≤ a) :
    best (k + 1) (l ++ [a]) = best (k + 1) l := by
  obtain ⟨q, hsort, hlen, hnext⟩ := insertionSort_eq_of_last hk hb
  have hsorted := List.pairwise_insertionSort (· ≤ ·) l
  rw [hsort] at hsorted
  rw [hnext, best, insertionSort_append_singleton, hsort, orderedInsert_append_of_ge hab hsorted]
  have hcons : best k l ++ b :: q.orderedInsert (· ≤ ·) a =
      (best k l ++ [b]) ++ q.orderedInsert (· ≤ ·) a := by simp
  rw [hcons]
  apply List.take_left'
  rw [List.length_append, hlen, List.length_singleton]

/-- The first of them is the least value. -/
theorem head_best_iff {k : ℕ} (hk : 0 < k) {l : List α} {a : α} :
    (best k l).head? = some a ↔ a ∈ l ∧ ∀ b ∈ l, a ≤ b := by
  have hhead : (best k l).head? = (l.insertionSort (· ≤ ·)).head? := by
    rw [best, List.head?_take, if_neg hk.ne']
  have hperm := List.perm_insertionSort (· ≤ ·) l
  have hsorted := List.pairwise_insertionSort (· ≤ ·) l
  rw [hhead]
  rcases hsort : l.insertionSort (· ≤ ·) with _ | ⟨c, s⟩
  · rw [hsort] at hperm
    simp [hperm.symm.eq_nil]
  · rw [hsort] at hperm hsorted
    rw [List.head?_cons, Option.some_inj]
    have hc : ∀ b ∈ l, c ≤ b := fun b hb => by
      rcases List.mem_cons.mp (hperm.mem_iff.mpr hb) with rfl | hb
      · exact le_refl b
      · exact (List.pairwise_cons.mp hsorted).1 b hb
    constructor
    · rintro rfl
      exact ⟨hperm.mem_iff.mp (by simp), hc⟩
    · rintro ⟨ha, hle⟩
      exact le_antisymm (hc a ha) (hle c (hperm.mem_iff.mp (by simp)))

end KBest
