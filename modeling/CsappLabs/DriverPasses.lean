/-
# The three passes of the driver

After `eval_mm_valid` the driver runs the same trace again with `eval_mm_util`, which measures
the utilization, and with `eval_mm_speed`, which is timed.  Both end the process when a call
returns null.  With `mm.c` they do not, on a trace that passed: placement does not depend on
what the pass before left in the heap, so all three get the same pointers
(`passes_agree`).

What `eval_mm_util` divides by the heap size is the largest number of bytes that were live at
a time (`utilLoop_max`), and with `mm.c` it is less than the heap size
(`maxTotalSize_eq`), so the sums fit in an `int`.
-/
import CsappLabs.DriverMm

open WordMemory Layout Malloc

namespace Driver

/-! ## The program -/

/-- Why a pass ends the process: what `app_error` is called for, or a call that does not
return. -/
inductive AppError
  | crashed
  | initFailed
  | mallocFailed
  | reallocFailed
  deriving DecidableEq

/-- A call of the package. -/
def returned {α : Type} : Option α → Except AppError α
  | some a => .ok a
  | none => .error .crashed

/-- The variables of `eval_mm_util`, with the memory and the arrays of the trace. -/
structure Util (σ : Type) where
  mem : σ
  blocks : ℕ → ℕ
  blockSizes : ℕ → ℕ
  totalSize : ℤ
  maxTotalSize : ℤ

/-- The memory, and the array that `eval_mm_speed` uses. -/
structure Speed (σ : Type) where
  mem : σ
  blocks : ℕ → ℕ

section

variable {σ : Type} (A : Package σ)

/-- One request, in `eval_mm_util`. -/
def utilStep (u : Util σ) : TraceOp → Except AppError (Util σ)
  | .alloc index size => do
      let (m, p) ← returned (A.malloc u.mem size)
      if p = 0 then throw .mallocFailed
      let total := u.totalSize + size
      return ⟨m, Function.update u.blocks index p, Function.update u.blockSizes index size, total,
        if u.maxTotalSize < total then total else u.maxTotalSize⟩
  | .realloc index newsize => do
      let oldsize := u.blockSizes index
      let (m, newp) ← returned (A.realloc u.mem (u.blocks index) newsize)
      if newp = 0 then throw .reallocFailed
      let total := u.totalSize + (newsize - oldsize)
      return ⟨m, Function.update u.blocks index newp, Function.update u.blockSizes index newsize,
        total, if u.maxTotalSize < total then total else u.maxTotalSize⟩
  | .free index => do
      let m ← returned (A.free u.mem (u.blocks index))
      return ⟨m, u.blocks, u.blockSizes, u.totalSize - u.blockSizes index, u.maxTotalSize⟩

/-- The loop of `eval_mm_util`. -/
def utilLoop : List TraceOp → Util σ → Except AppError (Util σ)
  | [], u => .ok u
  | op :: ops, u => do utilLoop ops (← utilStep A u op)

/-- `eval_mm_util`, before the division by `mem_heapsize()`. -/
def evalMmUtil (ops : List TraceOp) (m : σ) (blocks blockSizes : ℕ → ℕ) :
    Except AppError (Util σ) := do
  let (m, r) ← returned (A.init m)
  if r < 0 then throw .initFailed
  utilLoop A ops ⟨m, blocks, blockSizes, 0, 0⟩

/-- One request, in `eval_mm_speed`. -/
def speedStep (s : Speed σ) : TraceOp → Except AppError (Speed σ)
  | .alloc index size => do
      let (m, p) ← returned (A.malloc s.mem size)
      if p = 0 then throw .mallocFailed
      return ⟨m, Function.update s.blocks index p⟩
  | .realloc index newsize => do
      let (m, newp) ← returned (A.realloc s.mem (s.blocks index) newsize)
      if newp = 0 then throw .reallocFailed
      return ⟨m, Function.update s.blocks index newp⟩
  | .free index => do
      let m ← returned (A.free s.mem (s.blocks index))
      return ⟨m, s.blocks⟩

/-- The loop of `eval_mm_speed`. -/
def speedLoop : List TraceOp → Speed σ → Except AppError (Speed σ)
  | [], s => .ok s
  | op :: ops, s => do speedLoop ops (← speedStep A s op)

/-- `eval_mm_speed`. -/
def evalMmSpeed (ops : List TraceOp) (m : σ) (blocks : ℕ → ℕ) : Except AppError (Speed σ) := do
  let (m, r) ← returned (A.init m)
  if r < 0 then throw .initFailed
  speedLoop A ops ⟨m, blocks⟩

/-! ## `eval_mm_speed` makes the calls of `eval_mm_util` -/

/-- Without the sizes. -/
def Util.toSpeed (u : Util σ) : Speed σ := ⟨u.mem, u.blocks⟩

theorem speedStep_toSpeed (u : Util σ) (op : TraceOp) :
    speedStep A u.toSpeed op = (utilStep A u op).map Util.toSpeed := by
  cases op with
  | alloc i n =>
      rw [speedStep, utilStep]
      show (do let (m, p) ← returned (A.malloc u.mem n); _) = _
      rcases A.malloc u.mem n with _ | ⟨m, p⟩
      · rfl
      · by_cases hp : p = 0
        · subst hp
          rfl
        · simp only [returned, bind, Except.bind, if_neg hp]
          rfl
  | realloc i n =>
      rw [speedStep, utilStep]
      show (do let (m, p) ← returned (A.realloc u.mem (u.blocks i) n); _) = _
      rcases A.realloc u.mem (u.blocks i) n with _ | ⟨m, p⟩
      · rfl
      · by_cases hp : p = 0
        · subst hp
          rfl
        · simp only [returned, bind, Except.bind, if_neg hp]
          rfl
  | free i =>
      rw [speedStep, utilStep]
      show (do let m ← returned (A.free u.mem (u.blocks i)); _) = _
      rcases A.free u.mem (u.blocks i) with _ | m <;> rfl

theorem speedLoop_toSpeed (ops : List TraceOp) (u : Util σ) :
    speedLoop A ops u.toSpeed = (utilLoop A ops u).map Util.toSpeed := by
  induction ops generalizing u with
  | nil => rfl
  | cons op ops ih =>
      rw [speedLoop, utilLoop, speedStep_toSpeed]
      rcases utilStep A u op with e | u'
      · rfl
      · exact ih u'

/-- `eval_mm_speed` goes through when `eval_mm_util` does. -/
theorem evalMmSpeed_eq (ops : List TraceOp) (m : σ) (blocks blockSizes : ℕ → ℕ) :
    evalMmSpeed A ops m blocks = (evalMmUtil A ops m blocks blockSizes).map Util.toSpeed := by
  rw [evalMmSpeed, evalMmUtil]
  rcases A.init m with _ | ⟨m', r⟩
  · rfl
  · by_cases hr : r < 0
    · simp only [returned, bind, Except.bind, if_pos hr]
      rfl
    · simp only [returned, bind, Except.bind, if_neg hr]
      exact speedLoop_toSpeed A ops ⟨m', blocks, blockSizes, 0, 0⟩

end

/-! ## The passes on `mm.c` -/

/-- Two passes after the same requests: the heaps have the same blocks and lists, and the live
ids the same pointers. -/
structure Agree (t : Trial Heap) (u : Util Heap) (live : List ℕ) : Prop where
  inv : ∃ bs L, Inv t.mem (t.payloads live) bs L ∧ Inv u.mem (t.payloads live) bs L
  same : ∀ i ∈ live, u.blocks i = t.blocks i ∧ u.blockSizes i = t.blockSizes i

/-- The same ids have the same pointers after an update. -/
theorem same_update {t : Trial Heap} {u : Util Heap} {rest : List ℕ} {i p n : ℕ}
    (hsame : ∀ j ∈ rest, u.blocks j = t.blocks j ∧ u.blockSizes j = t.blockSizes j)
    (j : ℕ) (hj : j ∈ i :: rest) :
    Function.update u.blocks i p j = Function.update t.blocks i p j ∧
      Function.update u.blockSizes i n j = Function.update t.blockSizes i n j := by
  by_cases hji : j = i
  · subst hji
    simp
  · have hmem : j ∈ rest := (List.mem_cons.mp hj).resolve_left hji
    simp only [Function.update_of_ne hji]
    exact hsame j hmem

/-- The call that a request makes in the other pass. -/
theorem Agree.call {t : Trial Heap} {u : Util Heap} {live : List ℕ} {op : TraceOp}
    (h : Agree t u live) (hop : LegalOp live op) (hsize : op.size < 2 ^ 31) {m : Heap} {q : ℕ}
    (hrun : (t.call op).run t.mem = some (m, q)) :
    ∃ m' bs L, (t.call op).run u.mem = some (m', q) ∧ memHeapsize u.mem ≤ memHeapsize m' ∧
      Inv m ((t.call op).after (t.payloads live) q) bs L ∧
      Inv m' ((t.call op).after (t.payloads live) q) bs L := by
  obtain ⟨bs, L, hinv, hinv'⟩ := h.inv
  rcases hinv.call_same (legal_call hop hsize) with ⟨bs', L', k, hall⟩ | hnone
  · obtain ⟨m₁, hrun₁, hm₁⟩ := hall t.mem hinv
    obtain ⟨m₂, hrun₂, hm₂⟩ := hall u.mem hinv'
    obtain ⟨rfl, rfl⟩ := Prod.mk.inj (Option.some.inj (hrun₁.symm.trans hrun))
    exact ⟨m₂, bs', L', hrun₂, hinv'.heapsize_le (legal_call hop hsize) hrun₂, hm₁, hm₂⟩
  · exact absurd ((hnone t.mem hinv).symm.trans hrun) (by simp)

/-- **A request that passed** returns the same in `eval_mm_util`. -/
theorem Agree.step {t t' : Trial Heap} {u : Util Heap} {live : List ℕ} {op : TraceOp}
    {opnum : ℕ} (h : Agree t u live) (hnodup : live.Nodup) (hop : LegalOp live op)
    (hsize : op.size < 2 ^ 31) (hstep : validStep mm opnum t op = .ok t') :
    ∃ u', utilStep mm u op = .ok u' ∧ Agree t' u' (liveAfter live op) ∧
      memHeapsize u.mem ≤ memHeapsize u'.mem := by
  have hstepped := validStep_stepped mm opnum t op
  rw [hstep] at hstepped
  cases hstepped with
  | @alloc i n p m ranges hcall hp hadd =>
      obtain ⟨m', bs, L, hrun, hgrow, hinv, hinv'⟩ := h.call hop hsize hcall
      rw [Trial.call, Call.after, if_neg hp] at hinv hinv'
      have hutil : mm.malloc u.mem n = some (m', p) := hrun
      rw [utilStep, hutil]
      simp only [returned, bind, Except.bind, if_neg hp]
      refine ⟨_, rfl, ⟨⟨bs, L, ?_, ?_⟩, same_update h.same⟩, hgrow⟩
      · rw [liveAfter, payloads_remember hop.1]
        exact inv_fill hinv List.mem_cons_self _
      · rw [liveAfter, payloads_remember hop.1]
        exact hinv'
  | @realloc i n p m ranges hcall hp hadd hdata =>
      obtain ⟨m', bs, L, hrun, hgrow, hinv, hinv'⟩ := h.call hop hsize hcall
      obtain ⟨bs₀, L₀, hinv₀, -⟩ := h.inv
      rw [Trial.call, after_realloc hnodup hinv₀ hop.1 hop.2 hp] at hinv hinv'
      have hutil : mm.realloc u.mem (u.blocks i) n = some (m', p) := by
        rw [(h.same i hop.1).1]
        exact hrun
      rw [utilStep, hutil]
      simp only [returned, bind, Except.bind, if_neg hp]
      have hnot := not_mem_erase_self hnodup i
      refine ⟨_, rfl, ⟨⟨bs, L, ?_, ?_⟩,
        same_update fun j hj => h.same j (List.mem_of_mem_erase hj)⟩, hgrow⟩
      · rw [liveAfter, payloads_remember hnot]
        exact inv_fill hinv List.mem_cons_self _
      · rw [liveAfter, payloads_remember hnot]
        exact hinv'
  | @free i m hcall =>
      have hrun : (t.call (.free i)).run t.mem = some (m, 0) := run_free.mpr ⟨hcall, rfl⟩
      obtain ⟨m', bs, L, hrun', hgrow, hinv, hinv'⟩ := h.call hop hsize hrun
      obtain ⟨bs₀, L₀, hinv₀, -⟩ := h.inv
      rw [Trial.call, after_free hnodup hinv₀ hop] at hinv hinv'
      have hutil : mm.free u.mem (u.blocks i) = some m' := by
        rw [(h.same i hop).1]
        exact (run_free.mp hrun').1
      rw [utilStep, hutil]
      exact ⟨_, rfl, ⟨⟨bs, L, hinv, hinv'⟩, fun j hj => h.same j (List.mem_of_mem_erase hj)⟩,
        hgrow⟩

/-- **The rest of a trace that passed.** -/
theorem Agree.loop {t t' : Trial Heap} {u : Util Heap} {live : List ℕ} {ops : List TraceOp}
    {opnum : ℕ} (h : Agree t u live) (ht : MmInv t live) (hlegal : LegalTrace live ops)
    (hsize : ∀ op ∈ ops, op.size < 2 ^ 31) (hok : validLoop mm opnum ops t = .ok t') :
    ∃ u', utilLoop mm ops u = .ok u' ∧ Agree t' u' (liveAfters live ops) := by
  induction ops generalizing t u live opnum with
  | nil =>
      obtain rfl := Except.ok.inj hok
      exact ⟨u, rfl, h⟩
  | cons op ops ih =>
      have hop := hsize op List.mem_cons_self
      have hout := ht.step hlegal.1 hop opnum
      rw [validLoop] at hok
      rcases hstep : validStep mm opnum t op with e | t₁
      · rw [hstep] at hok
        cases hok
      · rw [hstep] at hok hout
        cases hout with
        | ok _ _ hinv _ =>
            obtain ⟨u₁, hutil, hagree, -⟩ := h.step ht.recorded.nodup hlegal.1 hop hstep
            rw [utilLoop, hutil]
            exact ih hagree hinv hlegal.2 (fun o ho => hsize o (List.mem_cons_of_mem op ho)) hok

/-- Both passes start with an empty heap, whatever was run on it before. -/
theorem agree_init {t : Trial Heap} (hstart : t.mem.memStartBrk = 0)
    (hmax : t.mem.memMaxAddr = MAX_HEAP) {m : Heap} (hstart' : m.memStartBrk = 0)
    (hmax' : m.memMaxAddr = MAX_HEAP) (blocks blockSizes : ℕ → ℕ) :
    ∃ t₀ h, (∀ ops, evalMmValid mm ops t = validLoop mm 0 ops t₀) ∧ MmInv t₀ [] ∧
      (∀ ops, evalMmUtil mm ops m blocks blockSizes =
        utilLoop mm ops ⟨h, blocks, blockSizes, 0, 0⟩) ∧
      Agree t₀ ⟨h, blocks, blockSizes, 0, 0⟩ [] := by
  obtain ⟨h₀, heval, hempty, hinv, -⟩ := evalMmValid_mm hstart hmax
  rcases hinit : reinit m with ⟨h, r⟩
  obtain ⟨rfl, -, hempty'⟩ := reinit_inv hstart' hmax' hinit
  have hcall : mm.init m = some (h, 0) := congrArg some hinit
  refine ⟨_, h, heval, hinv, fun ops => ?_, ⟨[], fun _ => [], hempty, hempty'⟩, by simp⟩
  rw [evalMmUtil, hcall]
  rfl

/-- **The three passes get the same pointers.**  If a legal trace passes `eval_mm_valid` with
`mm.c`, then `eval_mm_util` and `eval_mm_speed` go through, whatever the heap was used for
before; each live id has the same pointer in all three, and the heap has the same size. -/
theorem passes_agree {ops : List TraceOp} (hlegal : LegalTrace [] ops)
    (hsize : ∀ op ∈ ops, op.size < 2 ^ 31) {t t' : Trial Heap} (hstart : t.mem.memStartBrk = 0)
    (hmax : t.mem.memMaxAddr = MAX_HEAP) (hok : evalMmValid mm ops t = .ok t') {m : Heap}
    (hstart' : m.memStartBrk = 0) (hmax' : m.memMaxAddr = MAX_HEAP) (blocks blockSizes : ℕ → ℕ) :
    ∃ u s, evalMmUtil mm ops m blocks blockSizes = .ok u ∧ evalMmSpeed mm ops m blocks = .ok s ∧
      (∀ i ∈ liveAfters [] ops, u.blocks i = t'.blocks i ∧ s.blocks i = t'.blocks i) ∧
      memHeapsize u.mem = memHeapsize t'.mem ∧ memHeapsize s.mem = memHeapsize t'.mem := by
  obtain ⟨t₀, h, heval, hinv, hutil, hagree⟩ :=
    agree_init hstart hmax hstart' hmax' blocks blockSizes
  rw [heval] at hok
  obtain ⟨u, hloop, ⟨bs, L, hi, hi'⟩, hsame⟩ := hagree.loop hinv hlegal hsize hok
  have heq : memHeapsize u.mem = memHeapsize t'.mem := by
    rw [hi.rep.heapsize_eq, hi'.rep.heapsize_eq]
  have hu : evalMmUtil mm ops m blocks blockSizes = .ok u := (hutil ops).trans hloop
  refine ⟨u, u.toSpeed, hu, ?_, fun i hi => ⟨(hsame i hi).1, (hsame i hi).1⟩, heq, heq⟩
  rw [evalMmSpeed_eq mm ops m blocks blockSizes, hu]
  rfl

/-- One block, after a heap of zeroes and on a heap of `0xff`. -/
theorem passes_agree_one :
    ∃ u s, evalMmUtil mm [.alloc 0 100] (memInit 0 fun _ => 0xff) (fun _ => 0) (fun _ => 0) = .ok u ∧
      evalMmSpeed mm [.alloc 0 100] (memInit 0 fun _ => 0xff) (fun _ => 0) = .ok s ∧
      u.blocks 0 = s.blocks 0 := by
  obtain ⟨t', hok⟩ := @exists_evalMmValid [.alloc 0 100] (by decide) (by decide) (by decide)
    ⟨memInit 0 fun _ => 0, [], fun _ => 0, fun _ => 0⟩ rfl (by simp [memInit])
  obtain ⟨u, s, hu, hs, hsame, -⟩ := passes_agree (by decide) (by decide) rfl (by simp [memInit]) hok
    (m := memInit 0 fun _ => 0xff) rfl (by simp [memInit]) (fun _ => 0) (fun _ => 0)
  obtain ⟨h₁, h₂⟩ := hsame 0 (by decide)
  exact ⟨u, s, hu, hs, h₁.trans h₂.symm⟩

/-! ## The utilization -/

/-- The sizes of the ids after a request. -/
def sizesAfter (sizes : ℕ → ℕ) : TraceOp → ℕ → ℕ
  | .alloc i n => Function.update sizes i n
  | .free _ => sizes
  | .realloc i n => Function.update sizes i n

/-- The number of bytes that are live after a trace. -/
def demand (live : List ℕ) (sizes : ℕ → ℕ) (ops : List TraceOp) : ℕ :=
  ((liveAfters live ops).map (ops.foldl sizesAfter sizes)).sum

/-- How the number changes with a request. -/
def gain (sizes : ℕ → ℕ) : TraceOp → ℤ
  | .alloc _ n => n
  | .free i => - sizes i
  | .realloc i n => n - sizes i

theorem sum_update {rest : List ℕ} {i : ℕ} (hi : i ∉ rest) (sizes : ℕ → ℕ) (n : ℕ) :
    ((i :: rest).map (Function.update sizes i n)).sum = n + (rest.map sizes).sum := by
  rw [List.map_cons, List.sum_cons, Function.update_self]
  congr 2
  apply List.map_congr_left
  intro j hj
  have hne : j ≠ i := fun h => hi (h ▸ hj)
  exact Function.update_of_ne hne n sizes

theorem sum_erase {live : List ℕ} {i : ℕ} (hi : i ∈ live) (sizes : ℕ → ℕ) :
    sizes i + ((live.erase i).map sizes).sum = (live.map sizes).sum := by
  have hperm := (List.perm_cons_erase hi).map sizes
  rw [hperm.sum_eq, List.map_cons, List.sum_cons]

/-- The live bytes after a legal request. -/
theorem sum_liveAfter {live : List ℕ} {op : TraceOp} (hnodup : live.Nodup) (hop : LegalOp live op)
    (sizes : ℕ → ℕ) :
    (((liveAfter live op).map (sizesAfter sizes op)).sum : ℤ) =
      (live.map sizes).sum + gain sizes op := by
  cases op with
  | alloc i n =>
      rw [liveAfter, sizesAfter, gain, sum_update hop.1]
      omega
  | free i =>
      have herase := sum_erase hop sizes
      rw [liveAfter, sizesAfter, gain]
      omega
  | realloc i n =>
      have herase := sum_erase hop.1 sizes
      rw [liveAfter, sizesAfter, gain, sum_update (not_mem_erase_self hnodup i)]
      omega

theorem nodup_liveAfter {live : List ℕ} {op : TraceOp} (hnodup : live.Nodup)
    (hop : LegalOp live op) : (liveAfter live op).Nodup := by
  cases op with
  | alloc i n => exact List.nodup_cons.mpr ⟨hop.1, hnodup⟩
  | free i => exact hnodup.erase i
  | realloc i n => exact List.nodup_cons.mpr ⟨not_mem_erase_self hnodup i, hnodup.erase i⟩

/-- What a request does to the sums. -/
theorem utilStep_ok {σ : Type} {A : Package σ} {u u' : Util σ} {op : TraceOp}
    (h : utilStep A u op = .ok u') :
    u'.blockSizes = sizesAfter u.blockSizes op ∧
      u'.totalSize = u.totalSize + gain u.blockSizes op ∧
      (u.totalSize ≤ u.maxTotalSize → u'.maxTotalSize = max u.maxTotalSize u'.totalSize) := by
  cases op with
  | alloc i n =>
      rw [utilStep] at h
      rcases hcall : A.malloc u.mem n with _ | ⟨m, p⟩
      · rw [hcall] at h
        cases h
      · by_cases hp : p = 0
        · simp only [hcall, returned, bind, Except.bind, if_pos hp] at h
          cases h
        · simp only [hcall, returned, bind, Except.bind, if_neg hp] at h
          obtain rfl := Except.ok.inj h
          exact ⟨rfl, rfl, fun _ => (max_def_lt _ _).symm⟩
  | realloc i n =>
      rw [utilStep] at h
      rcases hcall : A.realloc u.mem (u.blocks i) n with _ | ⟨m, p⟩
      · simp only [hcall, returned, bind, Except.bind] at h
        cases h
      · by_cases hp : p = 0
        · simp only [hcall, returned, bind, Except.bind, if_pos hp] at h
          cases h
        · simp only [hcall, returned, bind, Except.bind, if_neg hp] at h
          obtain rfl := Except.ok.inj h
          exact ⟨rfl, rfl, fun _ => (max_def_lt _ _).symm⟩
  | free i =>
      rw [utilStep] at h
      rcases hcall : A.free u.mem (u.blocks i) with _ | m
      · simp only [hcall, returned, bind, Except.bind] at h
        cases h
      · simp only [hcall, returned, bind, Except.bind] at h
        obtain rfl := Except.ok.inj h
        refine ⟨rfl, rfl, fun hle => ?_⟩
        show u.maxTotalSize = max u.maxTotalSize (u.totalSize - u.blockSizes i)
        omega

/-- **What is divided by the heap size**: for every package, the largest number of bytes that
are live after the first requests. -/
theorem utilLoop_max {σ : Type} {A : Package σ} {live : List ℕ} {ops : List TraceOp}
    {u u' : Util σ} (hnodup : live.Nodup) (hlegal : LegalTrace live ops)
    (hsum : u.totalSize = (live.map u.blockSizes).sum) (hle : u.totalSize ≤ u.maxTotalSize)
    (h : utilLoop A ops u = .ok u') :
    u'.totalSize = demand live u.blockSizes ops ∧ u.maxTotalSize ≤ u'.maxTotalSize ∧
      (∀ p, p <+: ops → demand live u.blockSizes p ≤ u'.maxTotalSize) ∧
      (u'.maxTotalSize = u.maxTotalSize ∨
        ∃ p, p <+: ops ∧ u'.maxTotalSize = demand live u.blockSizes p) := by
  induction ops generalizing u live with
  | nil =>
      obtain rfl := Except.ok.inj h
      refine ⟨hsum, le_rfl, fun p hp => ?_, .inl rfl⟩
      obtain rfl := List.prefix_nil.mp hp
      show ((live.map u.blockSizes).sum : ℤ) ≤ u.maxTotalSize
      omega
  | cons op ops ih =>
      rw [utilLoop] at h
      rcases hstep : utilStep A u op with e | u₁
      · rw [hstep] at h
        cases h
      · rw [hstep] at h
        obtain ⟨hsizes, htotal, hmax⟩ := utilStep_ok hstep
        have hsum₁ : u₁.totalSize = ((liveAfter live op).map u₁.blockSizes).sum := by
          rw [htotal, hsizes, sum_liveAfter hnodup hlegal.1, hsum]
        have hmax₁ := hmax hle
        have hdemand : ∀ p, demand (liveAfter live op) u₁.blockSizes p =
            demand live u.blockSizes (op :: p) := fun p => by rw [demand, hsizes]; rfl
        obtain ⟨hlast, hmono, hall, hex⟩ := ih (nodup_liveAfter hnodup hlegal.1) hlegal.2 hsum₁
          (by omega) h
        simp only [hdemand] at hlast hall hex
        refine ⟨hlast, by omega, fun p hp => ?_, ?_⟩
        · cases p with
          | nil =>
              show ((live.map u.blockSizes).sum : ℤ) ≤ u'.maxTotalSize
              omega
          | cons o p =>
              obtain ⟨rfl, hp'⟩ := List.cons_prefix_cons.mp hp
              exact hall p hp'
        · rcases hex with hex | ⟨p, hp, hex⟩
          · rcases max_choice u.maxTotalSize u₁.totalSize with h' | h'
            · exact .inl (by omega)
            · refine .inr ⟨[op], List.cons_prefix_cons.mpr ⟨rfl, List.nil_prefix⟩, ?_⟩
              rw [← hdemand []]
              show u'.maxTotalSize = (((liveAfter live op).map u₁.blockSizes).sum : ℕ)
              omega
          · exact .inr ⟨op :: p, List.cons_prefix_cons.mpr ⟨rfl, hp⟩, hex⟩

/-- **The sums of `eval_mm_util` with `mm.c`**: as long as the pass goes on, the live bytes, and
the largest number of them so far, are less than the heap size. -/
theorem Agree.bounded {t t' : Trial Heap} {u u' : Util Heap} {live : List ℕ}
    {ops : List TraceOp} {opnum : ℕ} (h : Agree t u live) (ht : MmInv t live)
    (hlegal : LegalTrace live ops) (hsize : ∀ op ∈ ops, op.size < 2 ^ 31)
    (hsum : u.totalSize = (live.map u.blockSizes).sum) (hle : u.totalSize ≤ u.maxTotalSize)
    (hmax : u.maxTotalSize + 424 ≤ memHeapsize u.mem) (hok : validLoop mm opnum ops t = .ok t')
    (hu : utilLoop mm ops u = .ok u') : u'.maxTotalSize + 424 ≤ memHeapsize u'.mem := by
  induction ops generalizing t u live opnum with
  | nil =>
      obtain rfl := Except.ok.inj hu
      exact hmax
  | cons op ops ih =>
      have hop := hsize op List.mem_cons_self
      have hout := ht.step hlegal.1 hop opnum
      rw [validLoop] at hok
      rcases hstep : validStep mm opnum t op with e | t₁
      · rw [hstep] at hok
        cases hok
      · rw [hstep] at hok hout
        cases hout with
        | ok _ _ hinv _ =>
            have hnodup := ht.recorded.nodup
            obtain ⟨u₁, hutil, hagree, hgrow⟩ := h.step hnodup hlegal.1 hop hstep
            rw [utilLoop, hutil] at hu
            obtain ⟨hsizes, htotal, hmax₁⟩ := utilStep_ok hutil
            have hmax₁ := hmax₁ hle
            have hsum₁ : u₁.totalSize = ((liveAfter live op).map u₁.blockSizes).sum := by
              rw [htotal, hsizes, sum_liveAfter hnodup hlegal.1, hsum]
            -- the live payloads are in the blocks of the heap
            have hfits : u₁.totalSize + 424 ≤ memHeapsize u₁.mem := by
              obtain ⟨bs, L, -, hi⟩ := hagree.inv
              have hbytes := hi.live_bytes
              have hsame : (liveAfter live op).map u₁.blockSizes =
                  (t₁.payloads (liveAfter live op)).map Prod.snd := by
                rw [Trial.payloads, List.map_map]
                apply List.map_congr_left
                exact fun i hi => (hagree.same i hi).2
              rw [hsum₁, hsame, hi.rep.heapsize_eq]
              omega
            exact ih hagree hinv hlegal.2 (fun o ho => hsize o (List.mem_cons_of_mem op ho)) hsum₁
              (by omega) (by omega) hok hu

/-- **The utilization** of `mm.c` is that of the trace: on a trace that passed, `eval_mm_util`
divides the largest number of bytes that the trace holds at a time by a heap size that is
larger, by the 424 bytes of `mm_init` at least. -/
theorem maxTotalSize_eq {ops : List TraceOp} (hlegal : LegalTrace [] ops)
    (hsize : ∀ op ∈ ops, op.size < 2 ^ 31) {t t' : Trial Heap} (hstart : t.mem.memStartBrk = 0)
    (hmax : t.mem.memMaxAddr = MAX_HEAP) (hok : evalMmValid mm ops t = .ok t') {m : Heap}
    (hstart' : m.memStartBrk = 0) (hmax' : m.memMaxAddr = MAX_HEAP) (blocks blockSizes : ℕ → ℕ) :
    ∃ u, evalMmUtil mm ops m blocks blockSizes = .ok u ∧
      (∀ p, p <+: ops → demand [] blockSizes p ≤ u.maxTotalSize) ∧
      (∃ p, p <+: ops ∧ u.maxTotalSize = demand [] blockSizes p) ∧
      u.maxTotalSize + 424 ≤ memHeapsize u.mem ∧ memHeapsize u.mem ≤ MAX_HEAP := by
  obtain ⟨t₀, h, heval, hinv, hutil, hagree⟩ :=
    agree_init hstart hmax hstart' hmax' blocks blockSizes
  rw [heval] at hok
  obtain ⟨u, hloop, hlast⟩ := hagree.loop hinv hlegal hsize hok
  have hroom : (0 : ℤ) + 424 ≤ memHeapsize h := by
    obtain ⟨bs, L, -, hi⟩ := hagree.inv
    rw [hi.rep.heapsize_eq]
    push_cast
    omega
  obtain ⟨-, -, hall, hex⟩ := utilLoop_max List.nodup_nil hlegal rfl le_rfl hloop
  refine ⟨u, (hutil ops).trans hloop, hall, ?_,
    hagree.bounded hinv hlegal hsize rfl le_rfl hroom hok hloop, ?_⟩
  · rcases hex with hex | hex
    · exact ⟨[], List.nil_prefix, hex⟩
    · exact hex
  · obtain ⟨bs, L, -, hi⟩ := hlast.inv
    rw [memHeapsize, hi.rep.startBrk]
    exact hi.rep.small

theorem maxTotalSize_eq_one :
    ∃ u, evalMmUtil mm [.alloc 0 100, .free 0] (memInit 0 fun _ => 0) (fun _ => 0) (fun _ => 0) =
      .ok u ∧ 100 ≤ u.maxTotalSize ∧ u.maxTotalSize + 424 ≤ memHeapsize u.mem := by
  obtain ⟨t', hok⟩ := @exists_evalMmValid [.alloc 0 100, .free 0] (by decide) (by decide)
    (by decide) ⟨memInit 0 fun _ => 0, [], fun _ => 0, fun _ => 0⟩ rfl (by simp [memInit])
  obtain ⟨u, hu, hall, -, hle, -⟩ := maxTotalSize_eq (by decide) (by decide) rfl
    (by simp [memInit]) hok (m := memInit 0 fun _ => 0) rfl (by simp [memInit]) (fun _ => 0)
    (fun _ => 0)
  exact ⟨u, hu, hall [.alloc 0 100] (by decide), hle⟩

end Driver
