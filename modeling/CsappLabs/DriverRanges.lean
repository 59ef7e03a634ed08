/-
# What the range list of the driver records

A trace is legal when it allocates under ids that are not live, and frees and reallocates
under ids that are.  As long as `eval_mm_valid` goes on, the range list has exactly one record
for each live id, the extent of its payload (`Recorded`), whatever the package does.

`add_range` compares the ends of the new payload with the records only.  So a payload that
begins before another one and ends after it is not found, and the records of a package that
passes may be nested; they never overlap in another way (`Apart`).
-/
import CsappLabs.Driver

namespace Driver

/-! ## Legal traces -/

/-- A request that a client may make when these ids are live. -/
def LegalOp (live : List ℕ) : TraceOp → Prop
  | .alloc i n => i ∉ live ∧ 0 < n
  | .free i => i ∈ live
  | .realloc i n => i ∈ live ∧ 0 < n

/-- The live ids after a request, latest first. -/
def liveAfter (live : List ℕ) : TraceOp → List ℕ
  | .alloc i _ => i :: live
  | .free i => live.erase i
  | .realloc i _ => i :: live.erase i

/-- A trace that is legal from the first request to the last. -/
def LegalTrace : List ℕ → List TraceOp → Prop
  | _, [] => True
  | live, op :: ops => LegalOp live op ∧ LegalTrace (liveAfter live op) ops

instance (live : List ℕ) : DecidablePred (LegalOp live)
  | .alloc i n => inferInstanceAs (Decidable (i ∉ live ∧ 0 < n))
  | .free i => inferInstanceAs (Decidable (i ∈ live))
  | .realloc i n => inferInstanceAs (Decidable (i ∈ live ∧ 0 < n))

instance : (live : List ℕ) → (ops : List TraceOp) → Decidable (LegalTrace live ops)
  | _, [] => .isTrue trivial
  | live, op :: ops =>
      have := instDecidableLegalTrace (liveAfter live op) ops
      inferInstanceAs (Decidable (LegalOp live op ∧ LegalTrace (liveAfter live op) ops))

/-- The live ids after a trace. -/
def liveAfters (live : List ℕ) (ops : List TraceOp) : List ℕ := ops.foldl liveAfter live

theorem not_mem_erase_self {live : List ℕ} (hnodup : live.Nodup) (i : ℕ) : i ∉ live.erase i := by
  rw [hnodup.mem_erase_iff]
  exact fun hi => hi.1 rfl

/-! ## Records -/

/-- The newer payload and the older one have no byte in common, or the newer one begins
before the older and ends after it. -/
def Apart (new old : Range) : Prop :=
  new.hi < old.lo ∨ old.hi < new.lo ∨ (new.lo < old.lo ∧ old.hi < new.hi)

instance (new old : Range) : Decidable (Apart new old) :=
  inferInstanceAs (Decidable (new.hi < old.lo ∨ old.hi < new.lo ∨
    (new.lo < old.lo ∧ old.hi < new.hi)))

theorem not_overlaps_iff {lo hi : ℕ} {p : Range} (h : lo ≤ hi) :
    ¬ Overlaps lo hi p ↔ Apart ⟨lo, hi⟩ p := by
  show ¬ ((p.lo ≤ lo ∧ lo ≤ p.hi) ∨ (p.lo ≤ hi ∧ hi ≤ p.hi)) ↔
    (hi < p.lo ∨ p.hi < lo ∨ (lo < p.lo ∧ p.hi < hi))
  omega

/-- **What `add_range` accepts.** -/
theorem addRange_eq_ok {heap : Range} {ranges ranges' : List Range} {lo size opnum : ℕ} :
    addRange heap ranges lo size opnum = .ok ranges' ↔
      (0 < size ∧ lo % ALIGNMENT = 0 ∧ heap.lo ≤ lo ∧ lo + size - 1 ≤ heap.hi ∧
        ∀ p ∈ ranges, Apart ⟨lo, lo + size - 1⟩ p) ∧ ranges' = ⟨lo, lo + size - 1⟩ :: ranges := by
  rw [addRange]
  split_ifs with hsize halign hheap
  · exact iff_of_false (by simp) fun h => absurd h.1.1 (by omega)
  · exact iff_of_false (by simp) fun h => halign h.1.2.1
  · exact iff_of_false (by simp) fun h => by omega
  · have hle : lo ≤ lo + size - 1 := by omega
    rcases hfind : ranges.find? fun p => Overlaps lo (lo + size - 1) p with _ | p
    · have hnone : ∀ p ∈ ranges, Apart ⟨lo, lo + size - 1⟩ p := by
        intro p hp
        have hno := List.find?_eq_none.mp hfind p hp
        exact (not_overlaps_iff hle).mp (by simpa using hno)
      constructor
      · intro h
        exact ⟨⟨by omega, by omega, by omega, by omega, hnone⟩, (Except.ok.inj h).symm⟩
      · rintro ⟨-, rfl⟩
        rfl
    · refine iff_of_false (by simp) fun h => ?_
      have hover := List.find?_some hfind
      exact (not_overlaps_iff hle).mpr (h.1.2.2.2.2 p (List.mem_of_find?_eq_some hfind))
        (by simpa using hover)

/-- A payload around another one. -/
example : addRange ⟨0, 100⟩ [⟨16, 23⟩] 8 32 1 = .ok [⟨8, 39⟩, ⟨16, 23⟩] := by decide

section

variable {σ : Type}

/-- The payload of an id. -/
def Trial.extent (t : Trial σ) (i : ℕ) : Range :=
  ⟨t.blocks i, t.blocks i + t.blockSizes i - 1⟩

/-- The range list has the extents of the live payloads, latest first. -/
structure Recorded (t : Trial σ) (live : List ℕ) : Prop where
  nodup : live.Nodup
  ranges : t.ranges = live.map t.extent
  pos : ∀ i ∈ live, 0 < t.blockSizes i
  aligned : ∀ i ∈ live, t.blocks i % ALIGNMENT = 0
  apart : live.Pairwise fun i j => Apart (t.extent i) (t.extent j)

/-- Two payloads that are apart start at different addresses. -/
theorem lo_ne_of_apart {t : Trial σ} {i j : ℕ} (hi : 0 < t.blockSizes i)
    (hj : 0 < t.blockSizes j) (h : Apart (t.extent i) (t.extent j)) : t.blocks i ≠ t.blocks j := by
  have happart : t.blocks i + t.blockSizes i - 1 < t.blocks j ∨
      t.blocks j + t.blockSizes j - 1 < t.blocks i ∨ (t.blocks i < t.blocks j ∧ _) := h
  omega

/-- Without the record of an id. -/
theorem removeRange_map {t : Trial σ} {live : List ℕ} {i : ℕ}
    (hpos : ∀ j ∈ live, 0 < t.blockSizes j)
    (hapart : live.Pairwise fun i j => Apart (t.extent i) (t.extent j)) (hi : i ∈ live) :
    removeRange (t.blocks i) (live.map t.extent) = (live.erase i).map t.extent := by
  induction live with
  | nil => cases hi
  | cons j live ih =>
      rw [List.pairwise_cons] at hapart
      rw [List.map_cons, removeRange]
      by_cases hij : j = i
      · subst hij
        rw [List.erase_cons_head]
        exact if_pos rfl
      · have hi' : i ∈ live := (List.mem_cons.mp hi).resolve_left (Ne.symm hij)
        have hne : t.blocks j ≠ t.blocks i :=
          lo_ne_of_apart (hpos j List.mem_cons_self) (hpos i hi) (hapart.1 i hi')
        have hlo : (t.extent j).lo ≠ t.blocks i := hne
        rw [List.erase_cons_tail (by simpa using hij), List.map_cons, if_neg hlo,
          ih (fun k hk => hpos k (List.mem_cons_of_mem j hk)) hapart.2 hi']

/-- The extents of the other ids. -/
theorem extent_remember {A : Package σ} {t : Trial σ} {m : σ} {ranges : List Range}
    {i p n j : ℕ} (h : j ≠ i) : (remember A t m ranges i p n).extent j = t.extent j := by
  show (⟨Function.update t.blocks i p j, Function.update t.blocks i p j +
    Function.update t.blockSizes i n j - 1⟩ : Range) = _
  rw [Function.update_of_ne h, Function.update_of_ne h]
  rfl

theorem extent_remember_self {A : Package σ} {t : Trial σ} {m : σ} {ranges : List Range}
    {i p n : ℕ} : (remember A t m ranges i p n).extent i = ⟨p, p + n - 1⟩ := by
  show (⟨Function.update t.blocks i p i, Function.update t.blocks i p i +
    Function.update t.blockSizes i n i - 1⟩ : Range) = _
  rw [Function.update_self, Function.update_self]

/-- Without an id, and the record of it. -/
theorem Recorded.erase {t : Trial σ} {live : List ℕ} {i : ℕ} {m : σ} (h : Recorded t live)
    (hi : i ∈ live) :
    Recorded ⟨m, removeRange (t.blocks i) t.ranges, t.blocks, t.blockSizes⟩ (live.erase i) := by
  constructor
  · exact h.nodup.erase i
  · show removeRange (t.blocks i) t.ranges = _
    rw [h.ranges]
    exact removeRange_map h.pos h.apart hi
  · exact fun j hj => h.pos j (List.mem_of_mem_erase hj)
  · exact fun j hj => h.aligned j (List.mem_of_mem_erase hj)
  · exact h.apart.sublist List.erase_sublist

/-- With a new id, and the record of it. -/
theorem Recorded.remember {A : Package σ} {t : Trial σ} {live : List ℕ} {heap : Range}
    {ranges : List Range} {m : σ} {i p n opnum : ℕ} (h : Recorded t live) (hi : i ∉ live)
    (hadd : addRange heap t.ranges p n opnum = .ok ranges) :
    Recorded (Driver.remember A t m ranges i p n) (i :: live) := by
  obtain ⟨⟨hn, halign, -, -, hapart⟩, rfl⟩ := addRange_eq_ok.mp hadd
  have hne : ∀ j ∈ live, j ≠ i := fun j hj hji => hi (hji ▸ hj)
  have hsize : ∀ j ∈ live, (Driver.remember A t m (⟨p, p + n - 1⟩ :: t.ranges) i p n).blockSizes j =
      t.blockSizes j := fun j hj => by
    rw [blockSizes_remember, Function.update_of_ne (hne j hj)]
  have hblock : ∀ j ∈ live, (Driver.remember A t m (⟨p, p + n - 1⟩ :: t.ranges) i p n).blocks j =
      t.blocks j := fun j hj => by
    rw [blocks_remember, Function.update_of_ne (hne j hj)]
  constructor
  · exact List.nodup_cons.mpr ⟨hi, h.nodup⟩
  · rw [List.map_cons, extent_remember_self]
    show _ :: t.ranges = _ :: _
    rw [h.ranges]
    congr 1
    apply List.map_congr_left
    exact fun j hj => (extent_remember (hne j hj)).symm
  · intro j hj
    rcases List.mem_cons.mp hj with rfl | hj
    · rw [blockSizes_remember, Function.update_self]
      exact hn
    · rw [hsize j hj]
      exact h.pos j hj
  · intro j hj
    rcases List.mem_cons.mp hj with rfl | hj
    · rw [blocks_remember, Function.update_self]
      exact halign
    · rw [hblock j hj]
      exact h.aligned j hj
  · rw [List.pairwise_cons]
    constructor
    · intro j hj
      rw [extent_remember_self, extent_remember (hne j hj)]
      apply hapart
      rw [h.ranges]
      exact List.mem_map_of_mem hj
    · refine h.apart.imp_of_mem fun {j k} hj hk hjk => ?_
      rw [extent_remember (hne j hj), extent_remember (hne k hk)]
      exact hjk

/-- **A request** keeps the records, when the driver goes on after it. -/
theorem Recorded.step {A : Package σ} {t t' : Trial σ} {live : List ℕ} {op : TraceOp}
    {opnum : ℕ} (h : Recorded t live) (hop : LegalOp live op)
    (hstep : validStep A opnum t op = .ok t') : Recorded t' (liveAfter live op) := by
  have hstepped := validStep_stepped A opnum t op
  rw [hstep] at hstepped
  cases hstepped with
  | alloc _ _ hadd => exact h.remember hop.1 hadd
  | free _ => exact h.erase hop
  | @realloc i n p m ranges _ _ hadd _ =>
      have herase := h.erase (m := t.mem) hop.1
      exact herase.remember (A := A) (m := m) (not_mem_erase_self h.nodup i) hadd

/-- The loop, on a trace in two parts. -/
theorem validLoop_append (A : Package σ) (opnum : ℕ) (ops ops' : List TraceOp) (t : Trial σ) :
    validLoop A opnum (ops ++ ops') t =
      (validLoop A opnum ops t).bind (validLoop A (opnum + ops.length) ops') := by
  induction ops generalizing opnum t with
  | nil => rfl
  | cons op ops ih =>
      rw [List.cons_append, validLoop, validLoop]
      cases validStep A opnum t op with
      | error e => rfl
      | ok t₁ =>
          show validLoop A (opnum + 1) (ops ++ ops') t₁ = _
          rw [ih, List.length_cons, Nat.add_assoc, Nat.add_comm 1]
          rfl

/-- **The loop** keeps the records. -/
theorem Recorded.loop {A : Package σ} {t t' : Trial σ} {live : List ℕ} {ops : List TraceOp}
    {opnum : ℕ} (h : Recorded t live) (hlegal : LegalTrace live ops)
    (hloop : validLoop A opnum ops t = .ok t') : Recorded t' (liveAfters live ops) := by
  induction ops generalizing t live opnum with
  | nil =>
      obtain rfl := Except.ok.inj hloop
      exact h
  | cons op ops ih =>
      rw [validLoop] at hloop
      rcases hstep : validStep A opnum t op with e | t₁
      · rw [hstep] at hloop
        cases hloop
      · rw [hstep] at hloop
        exact ih (h.step hlegal.1 hstep) hlegal.2 hloop

/-- Nothing is live at first. -/
theorem recorded_nil (m : σ) (blocks blockSizes : ℕ → ℕ) :
    Recorded ⟨m, [], blocks, blockSizes⟩ [] :=
  ⟨List.nodup_nil, rfl, by simp, by simp, List.Pairwise.nil⟩

/-- `eval_mm_valid`, when `mm_init` succeeds. -/
theorem evalMmValid_of_init {A : Package σ} {t : Trial σ} {m : σ} {r : ℤ}
    (hinit : A.init t.mem = some (m, r)) (hr : 0 ≤ r) (ops : List TraceOp) :
    evalMmValid A ops t = validLoop A 0 ops ⟨m, [], t.blocks, t.blockSizes⟩ := by
  rw [evalMmValid, hinit]
  simp only [call, bind, Except.bind]
  rw [if_neg (not_lt.mpr hr)]

/-- It succeeded if the trace passes. -/
theorem init_of_evalMmValid {A : Package σ} {ops : List TraceOp} {t t' : Trial σ}
    (hok : evalMmValid A ops t = .ok t') : ∃ m r, A.init t.mem = some (m, r) ∧ 0 ≤ r := by
  rw [evalMmValid] at hok
  rcases hinit : A.init t.mem with _ | ⟨m, r⟩
  · rw [hinit] at hok
    cases hok
  · rw [hinit] at hok
    refine ⟨m, r, rfl, not_lt.mp fun hr => ?_⟩
    simp only [call, bind, Except.bind, if_pos hr] at hok
    cases hok

/-- The memory and the pointer that the package returns for a request. -/
def granted (A : Package σ) (t : Trial σ) : TraceOp → Option (σ × ℕ)
  | .alloc _ n => A.malloc t.mem n
  | .free _ => none
  | .realloc i n => A.realloc t.mem (t.blocks i) n

/-- The payload that a request returns is recorded, and lies in the heap as it is then. -/
def InHeap (A : Package σ) (t t₁ : Trial σ) (op : TraceOp) : Prop :=
  ∀ m p, granted A t op = some (m, p) → t₁.blocks op.index = p ∧
    (A.heap m).lo ≤ (t₁.extent op.index).lo ∧ (t₁.extent op.index).hi ≤ (A.heap m).hi

/-- **A request** returns a payload in the heap, when the driver goes on after it. -/
theorem inHeap_of_validStep {A : Package σ} {t t₁ : Trial σ} {op : TraceOp} {opnum : ℕ}
    (hstep : validStep A opnum t op = .ok t₁) : InHeap A t t₁ op := by
  have hstepped := validStep_stepped A opnum t op
  rw [hstep] at hstepped
  intro m p hgranted
  cases hstepped with
  | alloc hcall _ hadd | realloc hcall _ hadd _ =>
      obtain ⟨rfl, rfl⟩ := Prod.mk.inj (Option.some.inj (hcall.symm.trans hgranted))
      obtain ⟨⟨-, -, hlo, hhi, -⟩, -⟩ := addRange_eq_ok.mp hadd
      rw [TraceOp.index, extent_remember_self]
      exact ⟨Function.update_self .., hlo, hhi⟩
  | free _ => cases hgranted

/-- **What it means to pass.**  For every package and every legal trace that it passes, after
each request the range list has the payload of each live id and nothing else; the payload that
the request returned lies in the heap as it was then; the payloads are aligned, and two of them
have no byte in common, or the newer one has the older one in its inside. -/
theorem evalMmValid_recorded (A : Package σ) {ops : List TraceOp} (hlegal : LegalTrace [] ops)
    {t t' : Trial σ} (hok : evalMmValid A ops t = .ok t') {pre : List TraceOp}
    (hpre : pre <+: ops) :
    ∃ t₁, evalMmValid A pre t = .ok t₁ ∧ Recorded t₁ (liveAfters [] pre) ∧
      ∀ before op, pre = before ++ [op] →
        ∃ t₀, evalMmValid A before t = .ok t₀ ∧ InHeap A t₀ t₁ op := by
  obtain ⟨m, r, hinit, hr⟩ := init_of_evalMmValid hok
  obtain ⟨post, rfl⟩ := hpre
  rw [evalMmValid_of_init hinit hr] at hok ⊢
  rw [validLoop_append] at hok
  have hlegal' : ∀ (pre post : List TraceOp) (live : List ℕ), LegalTrace live (pre ++ post) →
      LegalTrace live pre := by
    intro pre post
    induction pre with
    | nil => exact fun _ _ => trivial
    | cons op pre ih => exact fun live h => ⟨h.1, ih _ h.2⟩
  rcases hfirst : validLoop A 0 pre ⟨m, [], t.blocks, t.blockSizes⟩ with e | t₁
  · rw [hfirst] at hok
    cases hok
  · refine ⟨t₁, rfl,
      (recorded_nil m t.blocks t.blockSizes).loop (hlegal' pre post [] hlegal) hfirst, ?_⟩
    -- the last request, from where the ones before it have led
    rintro before op rfl
    rw [validLoop_append] at hfirst
    rw [evalMmValid_of_init hinit hr]
    rcases hbefore : validLoop A 0 before ⟨m, [], t.blocks, t.blockSizes⟩ with e | t₀
    · rw [hbefore] at hfirst
      cases hfirst
    · rw [hbefore] at hfirst
      change validLoop A (0 + before.length) [op] t₀ = _ at hfirst
      rw [validLoop] at hfirst
      rcases hlast : validStep A (0 + before.length) t₀ op with e | t₂
      · rw [hlast] at hfirst
        cases hfirst
      · rw [hlast] at hfirst
        cases hfirst
        exact ⟨t₀, rfl, inHeap_of_validStep hlast⟩

/-- A package that returns a payload around the one before it. -/
def nested : Package ℕ where
  init _ := some (0, 0)
  malloc k _ := some (k + 1, 16 - 8 * k)
  free k _ := some k
  realloc k p _ := some (k, p)
  heap _ := ⟨0, 100⟩
  read _ _ := 0
  memset k _ _ _ := k
  heapsize _ := 101

/-- It passes. -/
theorem evalMmValid_nested : ∃ t₁, evalMmValid nested [.alloc 0 8, .alloc 1 32]
    ⟨0, [], fun _ => 0, fun _ => 0⟩ = .ok t₁ ∧ Recorded t₁ [1, 0] ∧
    (t₁.extent 1).hi ≤ 100 := by
  obtain ⟨t₁, hok, hrecorded, hlast⟩ := @evalMmValid_recorded ℕ nested [.alloc 0 8, .alloc 1 32]
    (by decide) ⟨0, [], fun _ => 0, fun _ => 0⟩ _ rfl _ (List.prefix_refl _)
  obtain ⟨t₀, hok₀, hheap⟩ := hlast [.alloc 0 8] (.alloc 1 32) rfl
  exact ⟨t₁, hok, hrecorded, (hheap _ _ rfl).2.2⟩

end

end Driver
