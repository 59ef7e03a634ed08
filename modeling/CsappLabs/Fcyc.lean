/-
# The sampler of fcyc

`fcyc` measures a function until the `kbest` smallest measurements are close to each other, or
there are `maxsamples` of them, and returns the smallest one.  The measurements and the test of
closeness (a product of two `double`s against a third) are parameters, so nothing here rests on
rounding.  The array `values` always has the smallest measurements in order (`holds_sampled`).
-/
import CsappLabs.KBest

open KBest

namespace Fcyc

variable {α : Type*} [LinearOrder α]

/-- The array of the smallest measurements, and how many measurements there were. -/
structure Sampler (α : Type*) where
  values : ℕ → α
  samplecount : ℕ

/-- `init_sampler`: the array comes from `calloc`. -/
def initSampler [Zero α] : Sampler α := ⟨fun _ => 0, 0⟩

/-- The insertion sort of `add_sample`, from a position down. -/
def sortLoop : ℕ → (ℕ → α) → ℕ → α
  | 0, values => values
  | pos + 1, values =>
      if values pos > values (pos + 1) then
        sortLoop pos (Function.update (Function.update values pos (values (pos + 1)))
          (pos + 1) (values pos))
      else values

/-- `add_sample`. -/
def addSample (kbest : ℕ) (val : α) (s : Sampler α) : Sampler α :=
  if s.samplecount < kbest then
    ⟨sortLoop s.samplecount (Function.update s.values s.samplecount val), s.samplecount + 1⟩
  else if val < s.values (kbest - 1) then
    ⟨sortLoop (kbest - 1) (Function.update s.values (kbest - 1) val), s.samplecount + 1⟩
  -- the position is 0 here, and the sort does nothing
  else ⟨sortLoop 0 s.values, s.samplecount + 1⟩

/-- `has_converged`. -/
def hasConverged (kbest : ℕ) (close : α → α → Bool) (s : Sampler α) : Bool :=
  decide (s.samplecount ≥ kbest) && close (s.values 0) (s.values (kbest - 1))

@[simp] theorem samplecount_addSample (kbest : ℕ) (val : α) (s : Sampler α) :
    (addSample kbest val s).samplecount = s.samplecount + 1 := by
  unfold addSample
  split_ifs <;> rfl

/-- The loop of `fcyc`: one more measurement, at least, until the test holds or there are too
many. -/
def sampleLoop (kbest maxsamples : ℕ) (close : α → α → Bool) (measure : ℕ → α) (s : Sampler α) :
    Sampler α :=
  let s' := addSample kbest (measure s.samplecount) s
  if ¬ hasConverged kbest close s' ∧ s'.samplecount < maxsamples then
    sampleLoop kbest maxsamples close measure s'
  else s'
termination_by maxsamples - s.samplecount
decreasing_by
  rename_i h
  have hlt : s.samplecount + 1 < maxsamples := by
    rw [← samplecount_addSample kbest (measure s.samplecount) s]
    exact h.2
  show maxsamples - (addSample kbest (measure s.samplecount) s).samplecount < _
  rw [samplecount_addSample]
  omega

/-- `fcyc`: what it returns, and the sampler when it does. -/
def fcyc [Zero α] (kbest maxsamples : ℕ) (close : α → α → Bool) (measure : ℕ → α) :
    α × Sampler α :=
  let s := sampleLoop kbest maxsamples close measure initSampler
  (s.values 0, s)

/-! ## The array -/

/-- The first cells of an array. -/
def cells (values : ℕ → α) (n : ℕ) : List α := (List.range n).map values

omit [LinearOrder α] in
theorem cells_succ (values : ℕ → α) (n : ℕ) :
    cells values (n + 1) = cells values n ++ [values n] := by
  rw [cells, List.range_succ, List.map_append, List.map_singleton, ← cells]

omit [LinearOrder α] in
/-- Cells that are the same below a position. -/
theorem cells_congr {v w : ℕ → α} {n : ℕ} (h : ∀ i < n, v i = w i) : cells v n = cells w n := by
  apply List.map_congr_left
  intro i hi
  exact h i (List.mem_range.mp hi)

/-- The sort stays below its position. -/
theorem sortLoop_of_lt {pos i : ℕ} (h : pos < i) (values : ℕ → α) :
    sortLoop pos values i = values i := by
  induction pos generalizing values with
  | zero => rfl
  | succ pos ih =>
      rw [sortLoop]
      split_ifs with hgt
      · rw [ih (by omega), Function.update_of_ne (by omega), Function.update_of_ne (by omega)]
      · rfl

/-- **The sort** moves the last cell to where it belongs. -/
theorem cells_sortLoop {pos : ℕ} {values : ℕ → α} (h : (cells values pos).Pairwise (· ≤ ·)) :
    cells (sortLoop pos values) (pos + 1) =
      (cells values pos).orderedInsert (· ≤ ·) (values pos) := by
  induction pos generalizing values with
  | zero => rfl
  | succ pos ih =>
      rw [sortLoop]
      split_ifs with hgt
      · -- the cells change places, and the loop goes on below
        have hsame : ∀ i < pos, Function.update (Function.update values pos (values (pos + 1)))
            (pos + 1) (values pos) i = values i := by
          intro i hi
          rw [Function.update_of_ne (by omega), Function.update_of_ne (by omega)]
        have hbelow : (cells values pos).Pairwise (· ≤ ·) := by
          rw [cells_succ] at h
          exact (List.pairwise_append.mp h).1
        rw [cells_succ, sortLoop_of_lt (Nat.lt_succ_self pos), Function.update_self,
          ih (by rwa [cells_congr hsame]), cells_congr hsame, cells_succ,
          orderedInsert_append_of_le hgt.le, Function.update_of_ne (by omega),
          Function.update_self]
      · rw [cells_succ, cells_succ] at *
        rw [orderedInsert_append_of_ge (not_lt.mp hgt) h]
        simp

/-! ## The sampler -/

section

variable [Zero α] {kbest maxsamples : ℕ} {close : α → α → Bool} {measure : ℕ → α}
  {s : Sampler α} {l : List α}

/-- The sampler after a list of measurements: the smallest ones in order, and nothing has been
written outside of the array. -/
structure Holds (kbest : ℕ) (s : Sampler α) (l : List α) : Prop where
  count : s.samplecount = l.length
  cells : cells s.values (min l.length kbest) = best kbest l
  outside : ∀ i, kbest ≤ i → s.values i = 0

theorem holds_initSampler (kbest : ℕ) : Holds kbest (initSampler : Sampler α) [] := by
  refine ⟨rfl, ?_, fun i _ => rfl⟩
  rw [best, List.insertionSort_nil, List.take_nil, List.length_nil, Nat.zero_min]
  rfl

/-- The last of the cells. -/
theorem Holds.getLast (h : Holds kbest s l) (hk : 0 < kbest) (hl : kbest ≤ l.length) :
    (best kbest l).getLast? = some (s.values (kbest - 1)) := by
  have hcells := h.cells
  obtain ⟨k, rfl⟩ := Nat.exists_eq_succ_of_ne_zero hk.ne'
  rw [Nat.min_eq_right hl, cells_succ] at hcells
  rw [← hcells, List.getLast?_concat, Nat.succ_sub_one]

/-- **One more measurement.** -/
theorem Holds.addSample (h : Holds kbest s l) (hk : 0 < kbest) (a : α) :
    Holds kbest (addSample kbest a s) (l ++ [a]) := by
  have hcount : (Fcyc.addSample kbest a s).samplecount = (l ++ [a]).length := by
    rw [samplecount_addSample, h.count, List.length_append, List.length_singleton]
  have hsorted := pairwise_best kbest l
  refine ⟨hcount, ?_, ?_⟩
  · rw [List.length_append, List.length_singleton, Fcyc.addSample]
    have hcells := h.cells
    split_ifs with hroom hlt
    · -- there is room
      rw [h.count] at hroom ⊢
      rw [Nat.min_eq_left hroom.le] at hcells
      have hsame : Fcyc.cells (Function.update s.values l.length a) l.length = best kbest l := by
        rw [← hcells]
        exact cells_congr fun i hi => Function.update_of_ne hi.ne _ _
      rw [Nat.min_eq_left hroom, cells_sortLoop (by rwa [hsame]), hsame, Function.update_self,
        best_append_of_room hroom]
    · -- the greatest one goes
      obtain ⟨k, rfl⟩ := Nat.exists_eq_succ_of_ne_zero hk.ne'
      rw [h.count] at hroom
      have hlast := h.getLast hk (by omega)
      obtain ⟨q, -, hlen, hnext⟩ := insertionSort_eq_of_last (by omega) hlast
      rw [Nat.succ_sub_one] at hlt hlast hnext ⊢
      have hsame : Fcyc.cells (Function.update s.values k a) k = best k l := by
        rw [Nat.min_eq_right (by omega), cells_succ, hnext] at hcells
        rw [← List.append_inj_left' hcells rfl]
        exact cells_congr fun i hi => Function.update_of_ne hi.ne _ _
      rw [Nat.min_eq_right (by omega), cells_sortLoop (by rw [hsame]; exact pairwise_best k l),
        hsame, Function.update_self, best_append_of_lt (by omega) hlast hlt]
    · -- nothing changes
      obtain ⟨k, rfl⟩ := Nat.exists_eq_succ_of_ne_zero hk.ne'
      rw [h.count] at hroom
      have hlast := h.getLast hk (by omega)
      rw [best_append_of_ge (by omega) hlast (not_lt.mp hlt), ← hcells]
      rw [Nat.min_eq_right (by omega), Nat.min_eq_right (by omega)]
      rfl
  · intro i hi
    have hout := h.outside i hi
    rw [Fcyc.addSample]
    split_ifs with hroom hlt
    · show sortLoop _ _ i = 0
      rw [sortLoop_of_lt (by omega), Function.update_of_ne (by omega), hout]
    · show sortLoop _ _ i = 0
      rw [sortLoop_of_lt (by omega), Function.update_of_ne (by omega), hout]
    · exact hout

/-- The measurements that were made. -/
def samples (measure : ℕ → α) (n : ℕ) : List α := (List.range n).map measure

/-- The smallest measurements are close to each other. -/
def Converged (kbest : ℕ) (close : α → α → Bool) (l : List α) : Prop :=
  kbest ≤ l.length ∧ ∃ lo hi, (best kbest l).head? = some lo ∧ (best kbest l).getLast? = some hi ∧
    close lo hi = true

/-- The loop ends after so many measurements. -/
def Stops (kbest maxsamples : ℕ) (close : α → α → Bool) (measure : ℕ → α) (n : ℕ) : Prop :=
  Converged kbest close (samples measure n) ∨ maxsamples ≤ n

/-- The first cell, when there is a measurement. -/
theorem Holds.head (h : Holds kbest s l) (hk : 0 < kbest) (hl : l ≠ []) :
    (best kbest l).head? = some (s.values 0) := by
  obtain ⟨n, hn⟩ := Nat.exists_eq_succ_of_ne_zero
    (lt_min (List.length_pos_of_ne_nil hl) hk).ne'
  rw [← h.cells, hn, Fcyc.cells, List.range_succ_eq_map]
  rfl

/-- The test of the code. -/
theorem Holds.hasConverged_iff (h : Holds kbest s l) (hk : 0 < kbest) :
    hasConverged kbest close s = true ↔ Converged kbest close l := by
  rw [hasConverged, Bool.and_eq_true, decide_eq_true_iff, h.count, Converged]
  refine and_congr_right fun hl => ?_
  have hne : l ≠ [] := by
    rintro rfl
    exact absurd (lt_of_lt_of_le hk hl) (lt_irrefl 0)
  rw [h.head hk hne, h.getLast hk hl]
  simp

omit [LinearOrder α] [Zero α] in
@[simp] theorem length_samples (measure : ℕ → α) (n : ℕ) : (samples measure n).length = n := by
  rw [samples, List.length_map, List.length_range]

omit [LinearOrder α] [Zero α] in
theorem samples_succ (measure : ℕ → α) (n : ℕ) :
    samples measure (n + 1) = samples measure n ++ [measure n] := by
  rw [samples, List.range_succ, List.map_append, List.map_singleton, ← samples]

/-- The sampler after the first `n` measurements. -/
def sampled (kbest : ℕ) (measure : ℕ → α) : ℕ → Sampler α
  | 0 => initSampler
  | n + 1 => addSample kbest (measure n) (sampled kbest measure n)

/-- **The sampler has the smallest measurements** after any number of them. -/
theorem holds_sampled (hk : 0 < kbest) (n : ℕ) :
    Holds kbest (sampled kbest measure n) (samples measure n) := by
  induction n with
  | zero => exact holds_initSampler kbest
  | succ n ih =>
      rw [samples_succ]
      exact ih.addSample hk _

theorem samplecount_sampled (kbest : ℕ) (measure : ℕ → α) (n : ℕ) :
    (sampled kbest measure n).samplecount = n := by
  induction n with
  | zero => rfl
  | succ n ih => rw [sampled, samplecount_addSample, ih]

/-- **The loop** ends after the first number of measurements that is enough. -/
theorem sampleLoop_sampled (hk : 0 < kbest) (n : ℕ) :
    ∃ m, n < m ∧
      sampleLoop kbest maxsamples close measure (sampled kbest measure n) =
        sampled kbest measure m ∧
      Stops kbest maxsamples close measure m ∧
      ∀ i, n < i → i < m → ¬ Stops kbest maxsamples close measure i := by
  have hnext : addSample kbest (measure (sampled kbest measure n).samplecount)
      (sampled kbest measure n) = sampled kbest measure (n + 1) := by
    rw [samplecount_sampled, sampled]
  have hstops : (¬ hasConverged kbest close (sampled kbest measure (n + 1)) = true ∧
      (sampled kbest measure (n + 1)).samplecount < maxsamples) ↔
        ¬ Stops kbest maxsamples close measure (n + 1) := by
    rw [(holds_sampled hk (n + 1)).hasConverged_iff hk, samplecount_sampled, Stops, not_or, not_le]
  rw [sampleLoop, hnext]
  split_ifs with hmore
  · have hlt : n + 1 < maxsamples := by
      rw [← samplecount_sampled kbest measure (n + 1)]
      exact hmore.2
    obtain ⟨m, hm, hloop, hend, hleast⟩ := sampleLoop_sampled hk (n + 1)
    refine ⟨m, by omega, hloop, hend, fun i hi him => ?_⟩
    rcases Nat.lt_or_ge (n + 1) i with hi' | hi'
    · exact hleast i hi' him
    · obtain rfl : i = n + 1 := by omega
      exact hstops.mp hmore
  · refine ⟨n + 1, Nat.lt_succ_self n, rfl, ?_, fun i hi him => by omega⟩
    exact not_not.mp fun hnot => hmore (hstops.mpr hnot)
termination_by maxsamples - n

/-- What `fcyc` returns after `n` measurements; the sampler has had the smallest ones in order
after each of them. -/
structure Returned (kbest maxsamples : ℕ) (close : α → α → Bool) (measure : ℕ → α) (n : ℕ)
    (r : α × Sampler α) : Prop where
  count : 0 < n ∧ r.2.samplecount = n
  stops : Stops kbest maxsamples close measure n
  first : ∀ i, 0 < i → i < n → ¬ Stops kbest maxsamples close measure i
  least : r.1 ∈ samples measure n ∧ ∀ x ∈ samples measure n, r.1 ≤ x
  sampler : r.2 = sampled kbest measure n
  sorted : ∀ i ≤ n, cells (sampled kbest measure i).values (min i kbest) =
    best kbest (samples measure i)
  outside : ∀ i, kbest ≤ i → r.2.values i = 0

/-- **What `fcyc` returns** is the least of the measurements it has made, which are as few as the
rule allows: it stops at the first number of measurements where the `kbest` smallest are close,
or `maxsamples` is reached.  The array always has the smallest ones in order, and nothing is
written outside of it. -/
theorem fcyc_returned (hk : 0 < kbest) :
    ∃ n, Returned kbest maxsamples close measure n (fcyc kbest maxsamples close measure) := by
  obtain ⟨n, hn, hloop, hstops, hfirst⟩ :=
    @sampleLoop_sampled α _ _ kbest maxsamples close measure hk 0
  have hsampler : (fcyc kbest maxsamples close measure).2 = sampled kbest measure n := hloop
  have hholds := @holds_sampled _ _ _ kbest measure hk n
  have hne : samples measure n ≠ [] := by
    rw [← List.length_pos_iff, length_samples]
    exact hn
  have hleast := (head_best_iff hk).mp (hholds.head hk hne)
  refine ⟨n, ⟨hn, ?_⟩, hstops, hfirst, ?_, hsampler, fun i _ => ?_, ?_⟩
  · rw [hsampler, samplecount_sampled]
  · have hresult : (fcyc kbest maxsamples close measure).1 =
        (sampled kbest measure n).values 0 := congrArg (fun s => s.values 0) hsampler
    rw [hresult]
    exact hleast
  · have hcells := (@holds_sampled _ _ _ kbest measure hk i).cells
    rwa [length_samples] at hcells
  · rw [hsampler]
    exact hholds.outside

/-- Measurements that go down. -/
theorem fcyc_returned_down :
    ∃ n, Returned 3 20 (fun lo hi => decide (hi ≤ lo + 1)) (fun i => 100 - i * i) n
      (fcyc 3 20 (fun lo hi => decide (hi ≤ lo + 1)) fun i => 100 - i * i) :=
  fcyc_returned (by decide)

end

end Fcyc
