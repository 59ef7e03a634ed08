/-
# Counting threads

A family of threads over a finite index type, each at some point of its program.
`count p f` is the number of threads whose point satisfies `p`; a step of one
thread changes a count by the difference at that thread (`count_update`).  With
it, an invariant about semaphores is arithmetic on counts.

`Hands` and `Only` say which things threads hold between two of their steps.
-/
import Mathlib

namespace ThreadCount

variable {ι α : Type*} [Fintype ι] [DecidableEq ι]

/-- The number of threads at a point that satisfies `p`. -/
def count (p : α → Bool) (f : ι → α) : ℕ := ∑ i, (p (f i)).toNat

/-- A step of thread `i` changes the count by the difference at `i`. -/
theorem count_update (p : α → Bool) (f : ι → α) (i : ι) (a : α) :
    count p (Function.update f i a) + (p (f i)).toNat = count p f + (p a).toNat := by
  have hrest : ∑ j ∈ Finset.univ.erase i, (p (Function.update f i a j)).toNat =
      ∑ j ∈ Finset.univ.erase i, (p (f j)).toNat := by
    refine Finset.sum_congr rfl fun j hj => ?_
    rw [Function.update_of_ne (Finset.ne_of_mem_erase hj)]
  have h1 := Finset.add_sum_erase Finset.univ (fun j => (p (Function.update f i a j)).toNat)
    (Finset.mem_univ i)
  have h2 := Finset.add_sum_erase Finset.univ (fun j => (p (f j)).toNat) (Finset.mem_univ i)
  simp only [Function.update_self] at h1
  unfold count
  omega

omit [DecidableEq ι] in
/-- A thread at such a point counts. -/
theorem count_pos {p : α → Bool} {f : ι → α} {i : ι} (h : p (f i) = true) : 0 < count p f := by
  have hle := Finset.single_le_sum (f := fun j => (p (f j)).toNat) (fun _ _ => Nat.zero_le _)
    (Finset.mem_univ i)
  simp only [h, Bool.toNat_true] at hle
  exact hle

omit [DecidableEq ι] in
theorem count_eq_zero {p : α → Bool} {f : ι → α} (h : ∀ i, p (f i) = false) : count p f = 0 := by
  unfold count
  refine Finset.sum_eq_zero fun i _ => ?_
  rw [h i]
  rfl

omit [DecidableEq ι] in
theorem count_congr {p q : α → Bool} {f : ι → α} (h : ∀ i, p (f i) = q (f i)) :
    count p f = count q f := by
  unfold count
  refine Finset.sum_congr rfl fun i _ => ?_
  rw [h i]

/-- Two different threads at such points count twice. -/
theorem two_le_count {p : α → Bool} {f : ι → α} {i j : ι} (hij : i ≠ j) (hi : p (f i) = true)
    (hj : p (f j) = true) : 2 ≤ count p f := by
  have hsub : ({i, j} : Finset ι) ⊆ Finset.univ := Finset.subset_univ _
  have hle := Finset.sum_le_sum_of_subset (f := fun k => (p (f k)).toNat) hsub
  rw [Finset.sum_pair hij, hi, hj] at hle
  exact hle

/-! ## What threads hold -/

section

variable {ι β : Type*} [DecidableEq ι] {f : ι → Option β} {i : ι}

/-- The things in `off` are those some thread holds, and no two threads hold the
same. -/
structure Hands [DecidableEq β] (f : ι → Option β) (off : Finset β) : Prop where
  mem : ∀ b, b ∈ off ↔ ∃ i, f i = some b
  single : ∀ i j b, f i = some b → f j = some b → i = j

/-- A thread takes something that nobody holds. -/
theorem Hands.take [DecidableEq β] {off : Finset β} {b : β} (h : Hands f off) (hi : f i = none)
    (hb : b ∉ off) : Hands (Function.update f i (some b)) (off ∪ {b}) := by
  have hfree : ∀ j, f j ≠ some b := fun j hj => hb ((h.mem b).mpr ⟨j, hj⟩)
  constructor
  · intro c
    rw [Finset.mem_union, Finset.mem_singleton, h.mem]
    constructor
    · rintro (⟨j, hj⟩ | rfl)
      · have hji : j ≠ i := by
          rintro rfl
          rw [hi] at hj
          exact absurd hj (by simp)
        exact ⟨j, by rw [Function.update_of_ne hji, hj]⟩
      · exact ⟨i, Function.update_self ..⟩
    · rintro ⟨j, hj⟩
      by_cases hji : j = i
      · subst hji
        rw [Function.update_self, Option.some.injEq] at hj
        exact Or.inr hj.symm
      · rw [Function.update_of_ne hji] at hj
        exact Or.inl ⟨j, hj⟩
  · intro j k c hj hk
    by_cases hji : j = i <;> by_cases hki : k = i
    · rw [hji, hki]
    · subst hji
      rw [Function.update_self, Option.some.injEq] at hj
      rw [Function.update_of_ne hki, ← hj] at hk
      exact absurd hk (hfree k)
    · subst hki
      rw [Function.update_self, Option.some.injEq] at hk
      rw [Function.update_of_ne hji, ← hk] at hj
      exact absurd hj (hfree j)
    · rw [Function.update_of_ne hji] at hj
      rw [Function.update_of_ne hki] at hk
      exact h.single j k c hj hk

/-- A thread lets go of what it holds. -/
theorem Hands.drop [DecidableEq β] {off : Finset β} {b : β} (h : Hands f off)
    (hi : f i = some b) : Hands (Function.update f i none) (off.erase b) := by
  constructor
  · intro c
    rw [Finset.mem_erase, h.mem]
    constructor
    · rintro ⟨hcb, j, hj⟩
      have hji : j ≠ i := by
        rintro rfl
        rw [hi, Option.some.injEq] at hj
        exact hcb hj.symm
      exact ⟨j, by rw [Function.update_of_ne hji, hj]⟩
    · rintro ⟨j, hj⟩
      by_cases hji : j = i
      · subst hji
        rw [Function.update_self] at hj
        exact absurd hj (by simp)
      · rw [Function.update_of_ne hji] at hj
        refine ⟨?_, j, hj⟩
        rintro rfl
        exact hji (h.single j i c hj hi)
  · intro j k c hj hk
    by_cases hji : j = i
    · subst hji
      rw [Function.update_self] at hj
      exact absurd hj (by simp)
    · by_cases hki : k = i
      · subst hki
        rw [Function.update_self] at hk
        exact absurd hk (by simp)
      · rw [Function.update_of_ne hji] at hj
        rw [Function.update_of_ne hki] at hk
        exact h.single j k c hj hk

/-- At most one thread has a value, and `x` is that value. -/
structure Only (f : ι → Option β) (x : Option β) : Prop where
  eq : ∀ i b, f i = some b → x = some b
  eq_none : (∀ i, f i = none) → x = none

theorem Only.set (hothers : ∀ j, j ≠ i → f j = none) (x : Option β) :
    Only (Function.update f i x) x := by
  constructor
  · intro j b hj
    by_cases hji : j = i
    · subst hji
      rwa [Function.update_self] at hj
    · rw [Function.update_of_ne hji, hothers j hji] at hj
      exact absurd hj (by simp)
  · intro hnone
    have := hnone i
    rwa [Function.update_self] at this

omit [DecidableEq ι] in
theorem Only.exists {b : β} (h : Only f (some b)) : ∃ i, f i = some b := by
  by_contra hc
  have hnone : ∀ i, f i = none := by
    intro i
    by_contra hne
    obtain ⟨c, hi⟩ := Option.ne_none_iff_exists'.mp hne
    exact hc ⟨i, hi.trans (h.eq i c hi).symm⟩
  exact absurd (h.eq_none hnone) (by simp)

end

end ThreadCount
