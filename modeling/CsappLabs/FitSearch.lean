/-
# What `find_fit` returns

`find_fit` searches the lists from the first that can hold a large enough block, each from
its front.  Two invariants make its answer the best one.  The class invariant (`Rep.nodes`)
says that a skipped list has no large enough block, and the order of the lists
(`FilingOrder.lean`) says that the front is what was added last.

The order is that of the `heap_add` calls in the record of the run (`Recorded`).
-/
import CsappLabs.HeapRuns

open WordMemory LinkedChain Layout Effects Prog

namespace Malloc

/-! ## The order of the lists in a run -/

theorem recent_nil : Recent [] fun _ => [] := fun _ => ⟨List.Pairwise.nil, by simp⟩

/-- **The free lists are ordered by age** in every run. -/
theorem Recorded.inv {h : Heap} {live : List (ℕ × ℕ)} {es : List HeapEvent}
    (hr : Recorded h live es) : ∃ bs L, Inv h live bs L ∧ Recent (additions es).reverse L := by
  induction hr with
  | init contents => exact ⟨[], _, Inv.init contents, recent_nil⟩
  | @call h h' live es c q _ hc hrun ih =>
      obtain ⟨bs, L, hi, hlog⟩ := ih
      rw [additions_append, List.reverse_append]
      cases hi.rep.outcomes hi.settled hi.live hc with
      | done hstep hfiled hall =>
          obtain ⟨g, hm, hr', -⟩ := hall h hi.rep
          obtain ⟨rfl, rfl⟩ :=
            Prod.mk.inj (Option.some.inj (hrun.symm.trans (Call.run_of_logged hm)))
          rw [hm]
          exact ⟨_, _, ⟨hr', hstep.settled hi.settled, hstep.live hi.settled hi.live⟩,
            hfiled _ hlog⟩
      | refused hask _ _ hall =>
          have hm := hall h hi.rep
          obtain ⟨rfl, rfl⟩ :=
            Prod.mk.inj (Option.some.inj (hrun.symm.trans (Call.run_of_logged hm)))
          rw [hm, hask.after hi.settled live]
          exact ⟨bs, L, hi, hlog⟩
      | overflow _ _ _ hall =>
          rw [Call.run_of_error (hall h hi.rep)] at hrun
          cases hrun
  | store b _ hp hx hx' ih =>
      obtain ⟨bs, L, hi, hlog⟩ := ih
      exact ⟨bs, L, hi.store b hp hx hx', hlog⟩

/-! ## The search -/

/-- A search through several lists in a row stops in the first list that has a match, at
its first match. -/
theorem find?_flatMap_split {α β : Type} {ks : List α} {L : α → List β} {p : β → Bool} {b : β}
    (h : (ks.flatMap L).find? p = some b) :
    ∃ pre k post us vs, ks = pre ++ k :: post ∧ L k = us ++ b :: vs ∧ p b = true ∧
      (∀ j ∈ pre, ∀ n ∈ L j, p n = false) ∧ ∀ n ∈ us, p n = false := by
  rw [List.find?_flatMap, List.findSome?_eq_some_iff] at h
  obtain ⟨pre, k, post, rfl, hk, hpre⟩ := h
  obtain ⟨hb, us, vs, hL, hus⟩ := List.find?_eq_some_iff_append.mp hk
  refine ⟨pre, k, post, us, vs, rfl, hL, hb, fun j hj n hn => ?_, fun n hn => ?_⟩
  · simpa using List.find?_eq_none.mp (hpre j hj) n hn
  · simpa using hus n hn

/-- In an increasing list, what is smaller stands before. -/
theorem mem_of_lt_of_sorted {pre post : List ℕ} {i j : ℕ}
    (h : (pre ++ i :: post).Pairwise (· < ·)) (hj : j ∈ pre ++ i :: post) (hlt : j < i) :
    j ∈ pre := by
  rcases List.mem_append.mp hj with hj | hj
  · exact hj
  · obtain ⟨-, htail, -⟩ := List.pairwise_append.mp h
    rcases List.mem_cons.mp hj with rfl | hj
    · exact absurd hlt (lt_irrefl j)
    · exact absurd ((List.pairwise_cons.mp htail).1 j hj) (by omega)

/-- The block at `n` is large enough for `asize`, as its header says. -/
def Fits (h : Heap) (asize n : ℕ) : Prop := asize ≤ getSize h (hdrp n)

instance (h : Heap) (asize n : ℕ) : Decidable (Fits h asize n) :=
  inferInstanceAs (Decidable (_ ≤ _))

/-- `r` is the latest block of the list `i` that is large enough, and no list before has
one. -/
structure BestFit (h : Heap) (L : ℕ → List ℕ) (log : List ℕ) (asize i r : ℕ) : Prop where
  index : i < N
  mem : r ∈ L i
  fits : Fits h asize r
  lowest : ∀ j < i, ∀ n ∈ L j, ¬ Fits h asize n
  latest : ∀ n ∈ L i, Fits h asize n → log.idxOf r ≤ log.idxOf n

/-- **The class invariant**: a list that `find_fit` skips holds no large enough block. -/
theorem Rep.not_fits_of_skipped {h : Heap} {bs : List Block} {L : ℕ → List ℕ} (hr : Rep h bs L)
    {asize j n : ℕ} (hskip : ¬ asize ≤ 2 ^ j) (hn : n ∈ L j) : ¬ Fits h asize n := by
  obtain ⟨p, s, hp, rfl, rfl⟩ := (hr.nodes j n).mp hn
  have hle := Nat.le_pow_clog (b := 2) (by norm_num) s
  rw [Fits, hr.getSize_node hp]
  simp only
  omega

/-- **`find_fit` returns the best fit.** -/
theorem Rep.findFit_best {h : Heap} {bs : List Block} {L : ℕ → List ℕ} (hr : Rep h bs L)
    {log : List ℕ} (hlog : Recent log L) (asize : ℕ) :
    (findFit h asize = some 0 ∧ ∀ s, ⟨s, .free⟩ ∈ bs → s < asize) ∨
      ∃ r i s, r ≠ 0 ∧ findFit h asize = some r ∧ BestFit h L log asize i r ∧
        ⟨s, .free⟩ ∈ bs ∧ asize ≤ s := by
  rcases hr.findFit_spec asize with hnone | ⟨xs, s, ys, rfl, hle, hfind⟩
  · exact Or.inl hnone
  · obtain ⟨r, hrdef⟩ : ∃ r, r = 420 + total Block.size xs + 12 := ⟨_, rfl⟩
    rw [← hrdef] at hfind
    have hr0 : r ≠ 0 := by omega
    refine Or.inr ⟨r, ?_⟩
    have hsearch := (hr.findFit_eq asize).symm.trans hfind
    have hfound : (((List.range 25).filter fun i => decide (asize ≤ 2 ^ i)).flatMap L).find?
        (fun n => decide (getSize h (hdrp n) ≥ asize)) = some r := by
      cases hopt : (((List.range 25).filter fun i => decide (asize ≤ 2 ^ i)).flatMap L).find?
          (fun n => decide (getSize h (hdrp n) ≥ asize)) with
      | none =>
          rw [hopt] at hsearch
          exact absurd (Option.some.inj hsearch).symm hr0
      | some n =>
          rw [hopt] at hsearch
          exact hsearch
    obtain ⟨pre, i, post, us, vs, hks, hL, hfits, hpre, hus⟩ := find?_flatMap_split hfound
    have hi : i ∈ (List.range 25).filter fun i => decide (asize ≤ 2 ^ i) := by
      rw [hks]
      simp
    have hsorted : ((List.range 25).filter fun i => decide (asize ≤ 2 ^ i)).Pairwise (· < ·) :=
      List.pairwise_lt_range.filter _
    rw [hks] at hsorted
    refine ⟨i, s, hr0, hfind, ⟨?_, ?_, of_decide_eq_true hfits, ?_, ?_⟩, by simp, hle⟩
    · exact List.mem_range.mp (List.mem_filter.mp hi).1
    · rw [hL]
      simp
    · intro j hj n hn
      by_cases hskip : asize ≤ 2 ^ j
      · -- the list was searched before
        have hmem : j ∈ (List.range 25).filter fun i => decide (asize ≤ 2 ^ i) := by
          have := List.mem_range.mp (List.mem_filter.mp hi).1
          simp only [List.mem_filter, List.mem_range, decide_eq_true_eq]
          exact ⟨by omega, hskip⟩
        rw [hks] at hmem
        exact of_decide_eq_false (hpre j (mem_of_lt_of_sorted hsorted hmem hj) n hn)
      · exact hr.not_fits_of_skipped hskip hn
    · -- what stands behind `r` was added before it
      intro n hn hfit
      have hpair := (hlog i).1
      rw [hL] at hpair hn
      obtain ⟨-, htail, -⟩ := List.pairwise_append.mp hpair
      rcases List.mem_append.mp hn with hn | hn
      · exact absurd hfit (of_decide_eq_false (hus n hn))
      · rcases List.mem_cons.mp hn with rfl | hn
        · exact le_rfl
        · exact ((List.pairwise_cons.mp htail).1 n hn).le

/-- `mm_malloc` calls `mem_sbrk` only when `find_fit` found nothing. -/
theorem Rep.findFit_of_sbrk {h : Heap} {bs : List Block} {L : ℕ → List ℕ} (hr : Rep h bs L)
    (hs : Settled bs) {n brk ret after : ℕ} {incr : ℤ} (hn : 0 < n) (hmax : n ≤ maxRequest)
    (hmem : .sbrk brk incr ret after ∈ (Logged.mmMalloc h n).events) :
    findFit h (adjustSize n) = some 0 := by
  rw [adjustSize_eq hmax]
  rcases hr.findFit_spec (blockSize n) with ⟨hfind, -⟩ | ⟨xs, s, ys, rfl, hle, hfind⟩
  · exact hfind
  · obtain ⟨m', hm, -⟩ := hr.mmMalloc_taken hs hn hmax hle hfind
    rw [hm, placedEvents] at hmem
    split_ifs at hmem <;> simp at hmem

/-- **`find_fit` is complete and picks the best class**, in every run: it returns null
exactly when no free block is large enough, and otherwise the block that was added last
among the large enough ones of the lowest list that has one.  `mm_malloc` calls `mem_sbrk`,
which alone moves the break, only in the first case. -/
theorem findFit_complete {h : Heap} {live : List (ℕ × ℕ)} {es : List HeapEvent}
    (hr : Recorded h live es) :
    ∃ L, WellFormed h L ∧ (∀ asize, ∃ r, findFit h asize = some r ∧
      (r = 0 ↔ ∀ s, ⟨s, .free⟩ ∈ blocks h → s < asize) ∧
      (r ≠ 0 → ∃ i, BestFit h L (additions es).reverse asize i r)) ∧
    ∀ n, 0 < n → n ≤ maxRequest → ∀ brk incr ret after,
      .sbrk brk incr ret after ∈ (Logged.mmMalloc h n).events →
        findFit h (adjustSize n) = some 0 := by
  obtain ⟨bs, L, hi, hlog⟩ := hr.inv
  refine ⟨L, hi.rep.wellFormed hi.settled, fun asize => ?_, fun n hn hmax brk incr ret after =>
    hi.rep.findFit_of_sbrk hi.settled hn hmax⟩
  rw [hi.rep.blocks_eq hi.settled]
  rcases hi.rep.findFit_best hlog asize with ⟨hfind, hnone⟩ | ⟨r, i, s, hr0, hfind, hbest, hs, hle⟩
  · exact ⟨0, hfind, iff_of_true rfl hnone, fun h => absurd rfl h⟩
  · refine ⟨r, hfind, iff_of_false hr0 fun hnone => ?_, fun _ => ⟨i, hbest⟩⟩
    exact absurd (hnone s hs) (by omega)

/-- After a request of 100 bytes and its release, a request for 40 finds the free block. -/
theorem findFit_complete_first : ∃ h es, Recorded h [] es ∧ findFit h 40 = some 432 ∧
    ∃ L i, BestFit h L (additions es).reverse 40 i 432 := by
  obtain ⟨h, hrun, -⟩ := first_malloc
  have hval := eval_first (v := (some 432, 0)) hrun
    (fun h => (Call.run h (.free 424)).map fun a => (findFit a.1 40, a.2)) (by decide +kernel)
  obtain ⟨⟨h', q⟩, hrun', hp⟩ := Option.map_eq_some_iff.mp hval
  obtain ⟨hfind, rfl⟩ := Prod.mk.inj hp
  have hr : Recorded h' [] _ := ((Recorded.init _).call (c := .malloc 100) (by decide) hrun).call
    (c := .free 424) (by decide) hrun'
  obtain ⟨L, -, hall, -⟩ := findFit_complete hr
  obtain ⟨r, hr', -, hbest⟩ := hall 40
  obtain rfl := Option.some.inj (hfind.symm.trans hr')
  obtain ⟨i, hi⟩ := hbest (by norm_num)
  exact ⟨h', _, hr, hfind, L, i, hi⟩

end Malloc
