/-
# Doubly linked chains

A doubly linked structure is two maps `nxt` and `prv` on addresses.  `Linked`
says that consecutive addresses of a list are linked in both directions.  The
back link is only required at addresses that satisfy `back`: a structure that
ends in a null address has no back link there, one that ends in a sentinel has.

The two edits of such structures are local: unlinking a node (`Linked.unlink`)
and linking one in (`Linked.link`).  Both are stated for maps that are known at
the edited places and agree with the old ones on the rest of the list, so that
they apply to links read out of a memory as well as to updated functions.

`search` is the loop that walks the chain until it meets a node that satisfies
a test or reaches the end.  On a linked chain it is `List.find?` on the nodes.
-/
import Mathlib

namespace LinkedChain

variable {α : Type*}

/-- Consecutive elements are linked forward by `nxt` and, where `back` holds,
backward by `prv`. -/
def Linked (nxt prv : α → α) (back : α → Prop) : List α → Prop
  | x :: y :: l => nxt x = y ∧ (back y → prv y = x) ∧ Linked nxt prv back (y :: l)
  | _ => True

variable {nxt prv nxt' prv' : α → α} {back : α → Prop}

@[simp] theorem linked_nil : Linked nxt prv back [] := trivial

@[simp] theorem linked_singleton (x : α) : Linked nxt prv back [x] := trivial

@[simp] theorem linked_cons_cons {x y : α} {l : List α} :
    Linked nxt prv back (x :: y :: l) ↔
      nxt x = y ∧ (back y → prv y = x) ∧ Linked nxt prv back (y :: l) :=
  Iff.rfl

/-- A chain splits at each of its nodes. -/
theorem linked_append_cons (l₁ : List α) (x : α) (l₂ : List α) :
    Linked nxt prv back (l₁ ++ x :: l₂) ↔
      Linked nxt prv back (l₁ ++ [x]) ∧ Linked nxt prv back (x :: l₂) := by
  induction l₁ with
  | nil => simp
  | cons a l ih =>
      cases l with
      | nil => simp [and_assoc]
      | cons b l =>
          simp only [List.cons_append, linked_cons_cons] at ih ⊢
          rw [ih]
          tauto

/-- The tail of a chain is a chain. -/
theorem Linked.tail {x : α} {l : List α} (h : Linked nxt prv back (x :: l)) :
    Linked nxt prv back l := by
  cases l with
  | nil => trivial
  | cons y l => exact h.2.2

/-- A chain reads `nxt` at all nodes but the last and `prv` at all but the first. -/
theorem Linked.congr {l : List α} (h : Linked nxt prv back l)
    (hn : ∀ x ∈ l.dropLast, nxt' x = nxt x)
    (hp : ∀ y ∈ l.tail, back y → prv' y = prv y) : Linked nxt' prv' back l := by
  induction l with
  | nil => trivial
  | cons x l ih =>
      cases l with
      | nil => trivial
      | cons y l =>
          obtain ⟨h1, h2, h3⟩ := h
          refine ⟨(hn x (by simp)).trans h1, fun hb => (hp y (by simp) hb).trans (h2 hb), ?_⟩
          refine ih h3 (fun z hz => hn z ?_) (fun z hz hb => hp z ?_ hb)
          · rw [List.dropLast_cons_cons]
            exact List.mem_cons_of_mem _ hz
          · exact List.mem_cons_of_mem _ hz

/-! ## The two edits -/

/-- **Unlinking.**  Removing `y` from between `x` and `z` sets `nxt x` and
`prv z`; every other link of the remaining nodes is kept. -/
theorem Linked.unlink {l₁ l₂ : List α} {x y z : α}
    (h : Linked nxt prv back (l₁ ++ x :: y :: z :: l₂)) (hnd : (l₁ ++ x :: y :: z :: l₂).Nodup)
    (hx : nxt' x = z) (hz : back z → prv' z = x)
    (hn : ∀ a ∈ l₁ ++ (z :: l₂).dropLast, a ≠ x → a ≠ y → nxt' a = nxt a)
    (hp : ∀ b ∈ (l₁ ++ [x]).tail ++ l₂, b ≠ y → b ≠ z → back b → prv' b = prv b) :
    Linked nxt' prv' back (l₁ ++ x :: z :: l₂) := by
  rw [linked_append_cons] at h ⊢
  obtain ⟨h₁, -, -, h₂⟩ := h
  have hnd' := List.nodup_append.mp hnd
  refine ⟨h₁.congr (fun a ha => ?_) (fun b hb => ?_), hx, hz,
    h₂.tail.congr (fun a ha => ?_) (fun b hb => ?_)⟩
  · rw [List.dropLast_concat] at ha
    exact hn a (List.mem_append_left _ ha) (hnd'.2.2 a ha x (by simp)) (hnd'.2.2 a ha y (by simp))
  · have hb' : b ∈ l₁ ++ [x] := List.mem_of_mem_tail hb
    refine hp b (List.mem_append_left _ hb) ?_ ?_ <;> grind
  · have ha' : a ∈ z :: l₂ := List.mem_of_mem_dropLast ha
    refine hn a (List.mem_append_right _ ha) ?_ ?_ <;> grind
  · have hb' : b ∈ l₂ := hb
    refine hp b (List.mem_append_right _ hb) ?_ ?_ <;> grind

/-- **Linking in.**  Inserting a new node `y` between `x` and `z` sets both links
of `y`, `nxt x` and `prv z`; every other link is kept. -/
theorem Linked.link {l₁ l₂ : List α} {x y z : α}
    (h : Linked nxt prv back (l₁ ++ x :: z :: l₂)) (hnd : (l₁ ++ x :: z :: l₂).Nodup)
    (hy : y ∉ l₁ ++ x :: z :: l₂)
    (hx : nxt' x = y) (hyx : back y → prv' y = x) (hyz : nxt' y = z) (hz : back z → prv' z = y)
    (hn : ∀ a ∈ l₁ ++ (z :: l₂).dropLast, a ≠ x → a ≠ y → nxt' a = nxt a)
    (hp : ∀ b ∈ (l₁ ++ [x]).tail ++ l₂, b ≠ y → b ≠ z → back b → prv' b = prv b) :
    Linked nxt' prv' back (l₁ ++ x :: y :: z :: l₂) := by
  rw [linked_append_cons] at h ⊢
  obtain ⟨h₁, -, -, h₂⟩ := h
  have hnd' := List.nodup_append.mp hnd
  refine ⟨h₁.congr (fun a ha => ?_) (fun b hb => ?_), hx, hyx, hyz, hz,
    h₂.congr (fun a ha => ?_) (fun b hb => ?_)⟩
  · rw [List.dropLast_concat] at ha
    exact hn a (List.mem_append_left _ ha) (hnd'.2.2 a ha x (by simp)) (by grind)
  · have hb' : b ∈ l₁ ++ [x] := List.mem_of_mem_tail hb
    refine hp b (List.mem_append_left _ hb) ?_ ?_ <;> grind
  · have ha' : a ∈ z :: l₂ := List.mem_of_mem_dropLast ha
    refine hn a (List.mem_append_right _ ha) ?_ ?_ <;> grind
  · have hb' : b ∈ l₂ := hb
    refine hp b (List.mem_append_right _ hb) ?_ ?_ <;> grind

/-! ## Neighbours -/

/-- In a chain `x :: l`, the node after the prefix `l₁` is reached from its last
node. -/
theorem Linked.nxt_eq {l₁ l₂ : List α} {x y : α}
    (h : Linked nxt prv back (l₁ ++ x :: y :: l₂)) : nxt x = y := by
  rw [linked_append_cons] at h
  exact h.2.1

/-- The back link of the second of two neighbours. -/
theorem Linked.prv_eq {l₁ l₂ : List α} {x y : α}
    (h : Linked nxt prv back (l₁ ++ x :: y :: l₂)) (hy : back y) : prv y = x := by
  rw [linked_append_cons] at h
  exact h.2.2.1 hy

/-! ## Walking the chain -/

variable [DecidableEq α]

/-- Walk from `x` along `nxt` up to `stop`, returning the first node on which
`p` holds.  The outer `none` is a walk longer than the fuel. -/
def search (nxt : α → α) (stop : α) (p : α → Bool) : ℕ → α → Option (Option α)
  | 0, _ => none
  | fuel + 1, x =>
      if x = stop then some none
      else if p x then some (some x)
      else search nxt stop p fuel (nxt x)

/-- On a linked chain the walk finds the first node of the list with the
property, given more fuel than the chain has nodes. -/
theorem Linked.search_eq {stop x : α} {l : List α} (p : α → Bool) {fuel : ℕ}
    (h : Linked nxt prv back (x :: l ++ [stop])) (hstop : stop ∉ l) (hfuel : l.length < fuel) :
    search nxt stop p fuel (nxt x) = some (l.find? p) := by
  induction l generalizing x fuel with
  | nil =>
      obtain ⟨k, rfl⟩ : ∃ k, fuel = k + 1 := ⟨fuel - 1, by simp at hfuel; omega⟩
      have hx : nxt x = stop := h.1
      simp [search, hx]
  | cons y l ih =>
      obtain ⟨k, rfl⟩ : ∃ k, fuel = k + 1 := ⟨fuel - 1, by simp at hfuel; omega⟩
      have hx : nxt x = y := h.1
      have hy : y ≠ stop := fun e => hstop (e ▸ List.mem_cons_self)
      rw [hx, search, if_neg hy, List.find?_cons]
      cases p y with
      | true => rfl
      | false =>
          exact ih h.tail (fun hm => hstop (List.mem_cons_of_mem _ hm))
            (by simpa using hfuel)

end LinkedChain
