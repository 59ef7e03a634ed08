/-
# Caches that are alike

What matters of a cache is its entries, its `size` and its `capacity`: `lru_get` and
`lru_put` do the same to two caches that have these in common, whatever the addresses of
their nodes are and whatever else the memory holds.  The values may differ, as long as a
relation `R` holds between those of the same entry.
-/
import CsappLabs.LruRecency

namespace Lru

variable {κ V : Type} {R : V → V → Prop}

/-- The same keys in the same order, with related values. -/
def EntriesAlike (R : V → V → Prop) (es₁ es₂ : List (κ × V)) : Prop :=
  List.Forall₂ (fun e₁ e₂ => e₁.1 = e₂.1 ∧ R e₁.2 e₂.2) es₁ es₂

namespace EntriesAlike

variable {es₁ es₂ : List (κ × V)}

theorem keys (h : EntriesAlike R es₁ es₂) : es₁.map Prod.fst = es₂.map Prod.fst := by
  induction h with
  | nil => rfl
  | cons he _ ih => rw [List.map_cons, List.map_cons, he.1, ih]

theorem tail (h : EntriesAlike R es₁ es₂) : EntriesAlike R es₁.tail es₂.tail := by
  cases h with
  | nil => exact .nil
  | cons _ h => exact h

theorem concat (h : EntriesAlike R es₁ es₂) (k : κ) {v₁ v₂ : V} (hv : R v₁ v₂) :
    EntriesAlike R (es₁ ++ [(k, v₁)]) (es₂ ++ [(k, v₂)]) :=
  List.rel_append h (.cons ⟨rfl, hv⟩ .nil)

variable [DecidableEq κ]

theorem dropKey (h : EntriesAlike R es₁ es₂) (k : κ) :
    EntriesAlike R (dropKey k es₁) (dropKey k es₂) := by
  induction h with
  | nil => exact .nil
  | @cons e₁ e₂ l₁ l₂ he _ ih =>
      unfold Lru.dropKey at ih ⊢
      rw [List.filter_cons, List.filter_cons, he.1]
      split_ifs
      · exact .cons he ih
      · exact ih

theorem valueOf (h : EntriesAlike R es₁ es₂) (k : κ) :
    Option.Rel R (valueOf k es₁) (valueOf k es₂) := by
  induction h with
  | nil => exact .none
  | @cons e₁ e₂ l₁ l₂ he _ ih =>
      unfold Lru.valueOf at ih ⊢
      rw [List.find?_cons, List.find?_cons, he.1]
      cases decide (e₂.1 = k) with
      | true => exact .some he.2
      | false => exact ih

/-- A hit on both sides. -/
theorem getEntries (h : EntriesAlike R es₁ es₂) (k : κ) :
    EntriesAlike R (getEntries k es₁) (getEntries k es₂) := by
  have hval := h.valueOf k
  unfold Lru.getEntries
  generalize Lru.valueOf k es₁ = o₁ at hval ⊢
  generalize Lru.valueOf k es₂ = o₂ at hval ⊢
  cases hval with
  | some hv => exact (h.dropKey k).concat k hv
  | none => exact h

/-- A store on both sides. -/
theorem putEntries (h : EntriesAlike R es₁ es₂) (full : Bool) (k : κ) {v₁ v₂ : V}
    (hv : R v₁ v₂) : EntriesAlike R (putEntries full k v₁ es₁) (putEntries full k v₂ es₂) := by
  have hval := h.valueOf k
  unfold Lru.putEntries
  generalize Lru.valueOf k es₁ = o₁ at hval ⊢
  generalize Lru.valueOf k es₂ = o₂ at hval ⊢
  cases hval with
  | some _ => exact (h.dropKey k).concat k hv
  | none =>
      cases full with
      | true => exact h.tail.concat k hv
      | false => exact h.concat k hv

end EntriesAlike

/-- Two well-formed caches with the same keys and related values, and the same `size` and
`capacity`.  Their nodes may be at other addresses. -/
def Alike (R : V → V → Prop) (lru₁ lru₂ : LRUCache κ V) : Prop :=
  ∃ es₁ es₂, Holds lru₁ es₁ ∧ Holds lru₂ es₂ ∧ EntriesAlike R es₁ es₂ ∧
    lru₁.size = lru₂.size ∧ lru₁.capacity = lru₂.capacity

/-- Two empty caches. -/
theorem alike_lruInit (capacity : ℤ) {m₁ m₂ : LRUCache κ V} (h₁ : 0 < m₁.brk) (h₂ : 0 < m₂.brk)
    (hsize : m₁.size = m₂.size) : Alike R (lruInit capacity m₁) (lruInit capacity m₂) :=
  ⟨[], [], holds_lruInit capacity m₁ h₁, holds_lruInit capacity m₂ h₂, .nil, hsize, rfl⟩

variable [DecidableEq κ]

/-- **`lru_get`** does the same to caches that are alike. -/
theorem Alike.lruGet {lru₁ lru₂ : LRUCache κ V} (h : Alike R lru₁ lru₂) (k : κ) :
    Option.Rel (fun r₁ r₂ => Alike R r₁.1 r₂.1 ∧ Option.Rel R r₁.2 r₂.2)
      (lruGet lru₁ k) (lruGet lru₂ k) := by
  obtain ⟨es₁, es₂, h₁, h₂, hes, hsize, hcap⟩ := h
  obtain ⟨lru₁', hget₁, hold₁, hsize₁, hcap₁⟩ := lruGet_spec h₁ k
  obtain ⟨lru₂', hget₂, hold₂, hsize₂, hcap₂⟩ := lruGet_spec h₂ k
  rw [hget₁, hget₂]
  refine .some ⟨⟨_, _, hold₁, hold₂, hes.getEntries k, ?_, ?_⟩, hes.valueOf k⟩
  · rw [hsize₁, hsize₂, hsize]
  · rw [hcap₁, hcap₂, hcap]

/-- The eviction from an empty list follows a null pointer. -/
theorem lruPut_empty {lru : LRUCache κ V} (h : Holds lru []) (hfull : lru.capacity = lru.size)
    (k : κ) (v : V) : lruPut lru k v = none := by
  obtain ⟨ns, hc, hns, -⟩ := h
  obtain rfl : ns = [] := List.map_eq_nil_iff.mp hns.symm
  have hnxt : lru.nxt lru.head = lru.tail := hc.linked.1
  have hevict : evict lru = none := by
    rw [evict, if_pos hfull, hnxt, lruRemove, if_pos hc.ends.2]
  simp only [lruPut, hc.lruFind_eq, List.find?_nil, Option.bind_eq_bind, Option.bind_some, hevict,
    Option.bind_none]

/-- **`lru_put`** does the same to caches that are alike. -/
theorem Alike.lruPut {lru₁ lru₂ : LRUCache κ V} (h : Alike R lru₁ lru₂) (k : κ) {v₁ v₂ : V}
    (hv : R v₁ v₂) : Option.Rel (Alike R) (lruPut lru₁ k v₁) (lruPut lru₂ k v₂) := by
  obtain ⟨es₁, es₂, h₁, h₂, hes, hsize, hcap⟩ := h
  have hkeys := hes.keys
  by_cases hempty : lru₁.capacity = lru₁.size ∧ es₁ = []
  · obtain ⟨hfull, rfl⟩ := hempty
    obtain rfl : es₂ = [] := List.map_eq_nil_iff.mp hkeys.symm
    rw [lruPut_empty h₁ hfull, lruPut_empty h₂ (by rw [← hcap, ← hsize, hfull])]
    exact .none
  · have hne₁ : lru₁.capacity = lru₁.size → es₁ ≠ [] := fun hf he => hempty ⟨hf, he⟩
    have hne₂ : lru₂.capacity = lru₂.size → es₂ ≠ [] := by
      rintro hf rfl
      exact hne₁ (by rw [hcap, hsize, hf]) (List.map_eq_nil_iff.mp hkeys)
    obtain ⟨lru₁', hput₁, hold₁, hsize₁, hcap₁⟩ := lruPut_spec h₁ k v₁ hne₁
    obtain ⟨lru₂', hput₂, hold₂, hsize₂, hcap₂⟩ := lruPut_spec h₂ k v₂ hne₂
    rw [hput₁, hput₂]
    rw [← hcap, ← hsize] at hold₂
    refine .some ⟨_, _, hold₁, hold₂, hes.putEntries _ k hv, ?_, ?_⟩
    · rw [hsize₁, hsize₂, hkeys, hsize]
    · rw [hcap₁, hcap₂, hcap]

end Lru
