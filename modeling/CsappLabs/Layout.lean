/-
# Items laid out one after the other

A list of items with sizes, laid out from an address: `placed size a bs` pairs
each item with the address it starts at, and `total size bs` is the room they
take.  Two placed items are the same entry or do not overlap
(`placed_disjoint`), and each placed item splits the list into what lies before
it and what lies after it (`exists_split_of_mem_placed`).
-/
import Mathlib

namespace Layout

variable {β : Type*} (size : β → ℕ)

/-- The room a list of items takes. -/
def total (bs : List β) : ℕ := (bs.map size).sum

/-- The items with the addresses they start at, laid out from `a`. -/
def placed : ℕ → List β → List (ℕ × β)
  | _, [] => []
  | a, b :: bs => (a, b) :: placed (a + size b) bs

variable {size}

@[simp] theorem total_nil : total size ([] : List β) = 0 := rfl

@[simp] theorem total_cons (b : β) (bs : List β) :
    total size (b :: bs) = size b + total size bs := by simp [total]

@[simp] theorem total_append (xs ys : List β) :
    total size (xs ++ ys) = total size xs + total size ys := by simp [total]

@[simp] theorem placed_nil (a : ℕ) : placed size a ([] : List β) = [] := rfl

@[simp] theorem placed_cons (a : ℕ) (b : β) (bs : List β) :
    placed size a (b :: bs) = (a, b) :: placed size (a + size b) bs := rfl

/-- The second part of an append starts where the first part ends. -/
@[simp] theorem placed_append (a : ℕ) (xs ys : List β) :
    placed size a (xs ++ ys) = placed size a xs ++ placed size (a + total size xs) ys := by
  induction xs generalizing a with
  | nil => simp
  | cons x xs ih => simp [ih, Nat.add_assoc]

/-- A placed item lies inside the room of the list. -/
theorem mem_placed_bounds {a p : ℕ} {b : β} {bs : List β} (h : (p, b) ∈ placed size a bs) :
    a ≤ p ∧ p + size b ≤ a + total size bs := by
  induction bs generalizing a with
  | nil => simp at h
  | cons c bs ih =>
      rw [placed_cons, List.mem_cons] at h
      rw [total_cons]
      rcases h with h | h
      · obtain ⟨rfl, rfl⟩ := Prod.mk.inj h
        omega
      · have := ih h
        omega

/-- A placed item is an item of the list. -/
theorem mem_of_mem_placed {a p : ℕ} {b : β} {bs : List β} (h : (p, b) ∈ placed size a bs) :
    b ∈ bs := by
  induction bs generalizing a with
  | nil => simp at h
  | cons c bs ih =>
      rw [placed_cons, List.mem_cons] at h
      rcases h with h | h
      · rw [(Prod.mk.inj h).2]
        exact List.mem_cons_self
      · exact List.mem_cons_of_mem _ (ih h)

/-- A placed item splits the list. -/
theorem exists_split_of_mem_placed {a p : ℕ} {b : β} {bs : List β}
    (h : (p, b) ∈ placed size a bs) :
    ∃ xs ys, bs = xs ++ b :: ys ∧ p = a + total size xs := by
  induction bs generalizing a with
  | nil => simp at h
  | cons c bs ih =>
      rw [placed_cons, List.mem_cons] at h
      rcases h with h | h
      · obtain ⟨rfl, rfl⟩ := Prod.mk.inj h
        exact ⟨[], bs, rfl, by simp⟩
      · obtain ⟨xs, ys, rfl, rfl⟩ := ih h
        exact ⟨c :: xs, ys, rfl, by simp [Nat.add_assoc]⟩

/-- The item after a prefix is placed at the end of the prefix. -/
theorem mem_placed_split (size : β → ℕ) (a : ℕ) (xs : List β) (b : β) (ys : List β) :
    (a + total size xs, b) ∈ placed size a (xs ++ b :: ys) := by simp

/-- Two placed items are one entry or do not overlap. -/
theorem placed_disjoint {a p q : ℕ} {b c : β} {bs : List β}
    (hp : (p, b) ∈ placed size a bs) (hq : (q, c) ∈ placed size a bs) :
    (p = q ∧ b = c) ∨ p + size b ≤ q ∨ q + size c ≤ p := by
  induction bs generalizing a with
  | nil => simp at hp
  | cons d bs ih =>
      rw [placed_cons, List.mem_cons] at hp hq
      rcases hp with hp | hp <;> rcases hq with hq | hq
      · left
        rw [← hq, Prod.mk.injEq] at hp
        exact hp
      · obtain ⟨rfl, rfl⟩ := Prod.mk.inj hp
        have := mem_placed_bounds hq
        omega
      · obtain ⟨rfl, rfl⟩ := Prod.mk.inj hq
        have := mem_placed_bounds hp
        omega
      · exact ih hp hq

/-- A nonempty item starts at one address only: placed items of positive size
with one start are equal. -/
theorem placed_unique {a p : ℕ} {b c : β} {bs : List β} (hb : 0 < size b) (hc : 0 < size c)
    (hp : (p, b) ∈ placed size a bs) (hq : (p, c) ∈ placed size a bs) : b = c := by
  rcases placed_disjoint hp hq with ⟨-, h⟩ | h | h
  · exact h
  · omega
  · omega

/-- Replacing one item by an item of the same size changes that entry only. -/
theorem mem_placed_replace (size : β → ℕ) {a p : ℕ} {b : β} (c c' : β) {xs ys : List β}
    (hsize : size c' = size c) (hpos : ∀ d ∈ xs ++ c :: ys, 0 < size d) :
    (p, b) ∈ placed size a (xs ++ c' :: ys) ↔
      (p ≠ a + total size xs ∧ (p, b) ∈ placed size a (xs ++ c :: ys)) ∨
        (p = a + total size xs ∧ b = c') := by
  simp only [placed_append, placed_cons, List.mem_append, List.mem_cons, Prod.mk.injEq, hsize]
  have hc : 0 < size c := hpos c (by simp)
  constructor
  · rintro (h | ⟨rfl, rfl⟩ | h)
    · have := mem_placed_bounds h
      have := hpos b (by simp [mem_of_mem_placed h])
      exact Or.inl ⟨by omega, Or.inl h⟩
    · exact Or.inr ⟨rfl, rfl⟩
    · have := mem_placed_bounds h
      exact Or.inl ⟨by omega, Or.inr (Or.inr h)⟩
  · rintro (⟨hne, h | ⟨h, -⟩ | h⟩ | ⟨rfl, rfl⟩)
    · exact Or.inl h
    · exact absurd h hne
    · exact Or.inr (Or.inr h)
    · exact Or.inr (Or.inl ⟨rfl, rfl⟩)

end Layout
