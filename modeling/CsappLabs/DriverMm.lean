/-
# The driver on `mm.c`

`eval_mm_valid` finds nothing wrong with the pointers of `mm.c`: on a legal trace it complains
about a request only if the call returned null, or if `mm_realloc` is asked for an id whose
low byte is 128 or more (`evalMmValid_complaint`).  In the second case it is the driver that is
wrong: it compares a `char`, which has a sign, with `index & 0xFF`.

A trace of few bytes has no call that returns null, so it passes exactly when it has no such id
(`evalMmValid_small`).
-/
import CsappLabs.DriverRanges
import CsappLabs.Realloc
import CsappLabs.Placement

open WordMemory Layout Malloc

namespace Driver

/-! ## The package -/

/-- `memset`. -/
def fill (m : Mem) (p : ℕ) (c : UInt8) (n : ℕ) : Mem := fun x =>
  if p ≤ x ∧ x < p + n then c else m x

/-- `mm.c`, with `memlib.c`. -/
def mm : Package Heap where
  init h := some (reinit h)
  malloc := mmMalloc
  free := mmFree
  realloc := mmRealloc
  heap h := ⟨h.memStartBrk, h.memBrk - 1⟩
  read h p := h.mem p
  memset h p c n := { h with mem := fill h.mem p c n }
  heapsize := memHeapsize

/-- The number of bytes that a request asks for. -/
def TraceOp.size : TraceOp → ℕ
  | .alloc _ n => n
  | .free _ => 0
  | .realloc _ n => n

/-- `mm_realloc` of an id that a `char` cannot hold. -/
def HighByte : TraceOp → Prop
  | .realloc i _ => 128 ≤ lowByte i
  | _ => False

instance : DecidablePred HighByte
  | .alloc _ _ => inferInstanceAs (Decidable False)
  | .free _ => inferInstanceAs (Decidable False)
  | .realloc i _ => inferInstanceAs (Decidable (128 ≤ lowByte i))

theorem charValue_lowByte (i : ℕ) :
    charValue (UInt8.ofNat (lowByte i)) = lowByte i ↔ lowByte i < 128 := by
  have hlt : lowByte i < 256 := Nat.mod_lt i (by norm_num)
  generalize lowByte i = b at hlt
  have hall : ∀ b < 256, (charValue (UInt8.ofNat b) = b ↔ b < 128) := by decide +kernel
  exact hall b hlt

/-! ## The live payloads -/

/-- The live pointers with their sizes. -/
def Trial.payloads (t : Trial Heap) (live : List ℕ) : List (ℕ × ℕ) :=
  live.map fun i => (t.blocks i, t.blockSizes i)

/-- What holds between two requests: the records are those of the live payloads, the heap
is one that `mm.c` made, and each payload has the low byte of its id everywhere. -/
structure MmInv (t : Trial Heap) (live : List ℕ) : Prop where
  recorded : Recorded t live
  inv : ∃ bs L, Inv t.mem (t.payloads live) bs L
  filled : ∀ i ∈ live, ∀ j < t.blockSizes i, t.mem.mem (t.blocks i + j) = UInt8.ofNat (lowByte i)

theorem mem_payloads {t : Trial Heap} {live : List ℕ} {i : ℕ} (hi : i ∈ live) :
    (t.blocks i, t.blockSizes i) ∈ t.payloads live :=
  List.mem_map_of_mem hi

/-- The pointer of an id is no other id's. -/
theorem blocks_inj {t : Trial Heap} {live : List ℕ} {bs : List Block} {L : ℕ → List ℕ}
    (hi : Inv t.mem (t.payloads live) bs L) {i j : ℕ} (hil : i ∈ live) (hjl : j ∈ live)
    (h : t.blocks i = t.blocks j) : i = j := by
  have hnodup := hi.live.nodup
  rw [Trial.payloads, List.map_map] at hnodup
  exact List.inj_on_of_nodup_map hnodup hil hjl h

/-- Without an id. -/
theorem dropPtr_payloads {t : Trial Heap} {live : List ℕ} {i : ℕ} (hnodup : live.Nodup)
    (hinj : ∀ j ∈ live, t.blocks j = t.blocks i → j = i) :
    dropPtr (t.payloads live) (t.blocks i) = t.payloads (live.erase i) := by
  rw [dropPtr, Trial.payloads, Trial.payloads, List.filter_map, hnodup.erase_eq_filter]
  congr 1
  apply List.filter_congr
  intro j hj
  by_cases hji : j = i
  · simp [hji]
  · have hne : t.blocks j ≠ t.blocks i := fun h => hji (hinj j hj h)
    simp [hji, hne]

/-- The payloads of the other ids. -/
theorem payloads_remember {t : Trial Heap} {m : Heap} {ranges : List Range} {rest : List ℕ}
    {i p n : ℕ} (hi : i ∉ rest) :
    (remember mm t m ranges i p n).payloads (i :: rest) = (p, n) :: t.payloads rest := by
  rw [Trial.payloads, List.map_cons, blocks_remember, blockSizes_remember, Function.update_self,
    Function.update_self]
  congr 1
  apply List.map_congr_left
  intro j hj
  have hne : j ≠ i := fun h => hi (h ▸ hj)
  rw [Function.update_of_ne hne, Function.update_of_ne hne]

/-- A fill of a live payload keeps the invariant of the heap. -/
theorem inv_fill {m : Heap} {live : List (ℕ × ℕ)} {bs : List Block} {L : ℕ → List ℕ} {p n : ℕ}
    (hi : Inv m live bs L) (hp : (p, n) ∈ live) (c : UInt8) :
    Inv { m with mem := fill m.mem p c n } live bs L := by
  obtain ⟨s, hheld, hs, -⟩ := hi.extent hp
  refine ⟨hi.rep.write_payload hheld fun x hx => ?_, hi.settled, hi.live⟩
  rw [fill, if_neg (by omega)]

/-- **A pointer that `mm.c` returned** passes `add_range`, and once its payload is filled
everything holds again. -/
theorem MmInv.placed {t : Trial Heap} {rest : List ℕ} {m : Heap} {i p n : ℕ} (opnum : ℕ)
    (hrec : Recorded t rest) (hi : i ∉ rest) (hn : 0 < n)
    (hinv : ∃ bs L, Inv m ((p, n) :: t.payloads rest) bs L)
    (hfilled : ∀ j ∈ rest, ∀ k < t.blockSizes j,
      m.mem (t.blocks j + k) = UInt8.ofNat (lowByte j)) :
    addRange (mm.heap m) t.ranges p n opnum = .ok (⟨p, p + n - 1⟩ :: t.ranges) ∧
      MmInv (remember mm t m (⟨p, p + n - 1⟩ :: t.ranges) i p n) (i :: rest) := by
  obtain ⟨bs, L, hinv⟩ := hinv
  have hnew : (p, n) ∈ (p, n) :: t.payloads rest := List.mem_cons_self
  obtain ⟨s, -, hs, halign, hend⟩ := hinv.extent hnew
  have hdisjoint : ∀ j ∈ rest, p + n ≤ t.blocks j ∨ t.blocks j + t.blockSizes j ≤ p := by
    intro j hj
    have hold : (t.blocks j, t.blockSizes j) ∈ (p, n) :: t.payloads rest :=
      List.mem_cons_of_mem _ (mem_payloads hj)
    have hne : p ≠ t.blocks j := by
      have hnodup := hinv.live.nodup
      rw [List.map_cons, List.nodup_cons] at hnodup
      intro h
      apply hnodup.1
      rw [show (p, n).1 = t.blocks j from h]
      exact List.mem_map_of_mem (mem_payloads hj)
    exact hinv.disjoint hnew hold hne
  have hadd : addRange (mm.heap m) t.ranges p n opnum = .ok (⟨p, p + n - 1⟩ :: t.ranges) := by
    apply addRange_eq_ok.mpr
    refine ⟨⟨hn, halign, ?_, ?_, ?_⟩, rfl⟩
    · show m.memStartBrk ≤ p
      rw [hinv.rep.startBrk]
      exact Nat.zero_le p
    · show p + n - 1 ≤ m.memBrk - 1
      omega
    · rw [hrec.ranges]
      intro r hr
      obtain ⟨j, hj, rfl⟩ := List.mem_map.mp hr
      show p + n - 1 < t.blocks j ∨ t.blocks j + t.blockSizes j - 1 < p ∨ _
      have hpos := hrec.pos j hj
      rcases hdisjoint j hj with h | h
      · exact .inl (by omega)
      · exact .inr (.inl (by omega))
  refine ⟨hadd, hrec.remember hi hadd, ⟨bs, L, ?_⟩, ?_⟩
  · rw [payloads_remember hi]
    exact inv_fill hinv hnew _
  · intro j hj k hk
    rw [blocks_remember, blockSizes_remember] at *
    show fill m.mem p (UInt8.ofNat (lowByte i)) n (_ + k) = _
    rcases List.mem_cons.mp hj with rfl | hj
    · rw [Function.update_self] at hk ⊢
      rw [fill, if_pos (by omega)]
    · have hne : j ≠ i := fun h => hi (h ▸ hj)
      rw [Function.update_of_ne hne] at hk ⊢
      have hapart := hdisjoint j hj
      rw [fill, if_neg (by omega)]
      exact hfilled j hj k hk

/-- A call keeps the bytes of the payloads that it is not about. -/
theorem MmInv.others {t : Trial Heap} {live : List ℕ} (h : MmInv t live) {bs : List Block}
    {L : ℕ → List ℕ} (hi : Inv t.mem (t.payloads live) bs L) {m : Heap} {p : ℕ}
    (hframe : Frame bs p t.mem.mem m.mem) {j : ℕ} (hj : j ∈ live) (hne : t.blocks j ≠ p) {k : ℕ}
    (hk : k < t.blockSizes j) : m.mem (t.blocks j + k) = UInt8.ofNat (lowByte j) := by
  obtain ⟨s, hheld, hs, -⟩ := hi.extent (mem_payloads hj)
  rw [hframe (t.blocks j) s hheld hne (t.blocks j + k) (by omega) (by omega)]
  exact h.filled j hj k hk

/-! ## One request -/

/-- A size that an `int` holds is one that `mm.c` rounds correctly. -/
theorem le_maxRequest {n : ℕ} (h : n < 2 ^ 31) : n ≤ maxRequest := by
  rw [maxRequest]
  omega

/-- `mm_free` returns nothing. -/
theorem run_free {h m : Heap} {p q : ℕ} :
    (Call.free p).run h = some (m, q) ↔ mmFree h p = some m ∧ q = 0 := by
  show (mmFree h p).map _ = _ ↔ _
  simp only [Option.map_eq_some_iff, Prod.mk.injEq]
  constructor
  · rintro ⟨m', hm, rfl, rfl⟩
    exact ⟨hm, rfl⟩
  · rintro ⟨hm, rfl⟩
    exact ⟨m, hm, rfl, rfl⟩

/-- What is live after `mm_realloc` returned a pointer. -/
theorem after_realloc {t : Trial Heap} {live : List ℕ} {bs : List Block} {L : ℕ → List ℕ}
    (hnodup : live.Nodup) (hi : Inv t.mem (t.payloads live) bs L) {i n p : ℕ} (hil : i ∈ live)
    (hn : 0 < n) (hp : p ≠ 0) :
    (Call.realloc (t.blocks i) n).after (t.payloads live) p =
      (p, n) :: t.payloads (live.erase i) := by
  rw [Call.after, if_neg hn.ne', if_neg hp, dropPtr_payloads hnodup]
  exact fun j hj hji => blocks_inj hi hj hil hji

/-- What is live after `mm_free`. -/
theorem after_free {t : Trial Heap} {live : List ℕ} {bs : List Block} {L : ℕ → List ℕ}
    (hnodup : live.Nodup) (hi : Inv t.mem (t.payloads live) bs L) {i q : ℕ} (hil : i ∈ live) :
    (Call.free (t.blocks i)).after (t.payloads live) q = t.payloads (live.erase i) := by
  rw [Call.after, dropPtr_payloads hnodup]
  exact fun j hj hji => blocks_inj hi hj hil hji

/-- `mm_malloc` for a new id. -/
theorem MmInv.alloc {t : Trial Heap} {live : List ℕ} (h : MmInv t live) {i n p : ℕ} {m : Heap}
    (hi : i ∉ live) (hn : 0 < n) (hsize : n < 2 ^ 31) (hcall : mmMalloc t.mem n = some (m, p))
    (hp : p ≠ 0) (opnum : ℕ) :
    addRange (mm.heap m) t.ranges p n opnum = .ok (⟨p, p + n - 1⟩ :: t.ranges) ∧
      MmInv (remember mm t m (⟨p, p + n - 1⟩ :: t.ranges) i p n) (i :: live) := by
  obtain ⟨bs, L, hinv⟩ := h.inv
  rcases hinv.call (c := .malloc n) (le_maxRequest hsize) hcall with
    ⟨bs', L', -, hinv', hframe⟩ | ⟨-, hq, -⟩
  · rw [Call.after, if_neg hp] at hinv'
    refine MmInv.placed opnum h.recorded hi hn ⟨bs', L', hinv'⟩ fun j hj k hk => ?_
    have hne : t.blocks j ≠ (Call.malloc n).ptr := by
      obtain ⟨-, s, -, q, hq, -⟩ := hinv.live.held _ _ (mem_payloads hj)
      show t.blocks j ≠ 0
      omega
    exact h.others hinv hframe hj hne hk
  · exact absurd hq hp

/-- `mm_realloc` for a live id: the driver finds the old bytes if a `char` can hold them. -/
theorem MmInv.realloc {t : Trial Heap} {live : List ℕ} (h : MmInv t live) {i n p : ℕ} {m : Heap}
    (hi : i ∈ live) (hn : 0 < n) (hsize : n < 2 ^ 31)
    (hcall : mmRealloc t.mem (t.blocks i) n = some (m, p)) (hp : p ≠ 0) (opnum : ℕ) :
    (∃ ranges, addRange (mm.heap m) (removeRange (t.blocks i) t.ranges) p n opnum = .ok ranges ∧
      MmInv (remember mm t m ranges i p n) (i :: live.erase i)) ∧
    (Preserved mm m p n (t.blockSizes i) i ↔ lowByte i < 128) := by
  obtain ⟨bs, L, hinv⟩ := h.inv
  obtain ⟨s, hheld, hs, -⟩ := hinv.extent (mem_payloads hi)
  rcases hinv.realloc hheld hn (le_maxRequest hsize) hcall with
    ⟨-, bs', L', -, hinv', hframe, hcopy⟩ | ⟨hq, -⟩
  · constructor
    · rw [after_realloc h.recorded.nodup hinv hi hn hp] at hinv'
      have herase := h.recorded.erase (m := t.mem) hi
      have hnot := not_mem_erase_self h.recorded.nodup i
      refine ⟨_, MmInv.placed opnum herase hnot hn ⟨bs', L', hinv'⟩ fun j hj k hk => ?_⟩
      obtain ⟨hji, hj⟩ := h.recorded.nodup.mem_erase_iff.mp hj
      exact h.others hinv hframe hj (fun hb => hji (blocks_inj hinv hj hi hb)) hk
    · have hold := h.recorded.pos i hi
      have hbyte : ∀ j < min n (t.blockSizes i),
          m.mem (p + j) = UInt8.ofNat (lowByte i) := by
        intro j hj
        rw [hcopy j (by omega)]
        exact h.filled i hi j (by omega)
      constructor
      · intro hdata
        have hfirst := hdata 0 (by omega)
        rw [show mm.read m (p + 0) = _ from hbyte 0 (by omega)] at hfirst
        exact (charValue_lowByte i).mp hfirst
      · intro hlow j hj
        rw [show mm.read m (p + j) = _ from hbyte j hj]
        exact (charValue_lowByte i).mpr hlow
  · exact absurd hq hp

/-- `mm_free` for a live id. -/
theorem MmInv.free {t : Trial Heap} {live : List ℕ} (h : MmInv t live) {i : ℕ} {m : Heap}
    (hi : i ∈ live) (hcall : mmFree t.mem (t.blocks i) = some m) :
    MmInv ⟨m, removeRange (t.blocks i) t.ranges, t.blocks, t.blockSizes⟩ (live.erase i) := by
  obtain ⟨bs, L, hinv⟩ := h.inv
  have hlegal : Legal (t.payloads live) (.free (t.blocks i)) :=
    List.mem_map_of_mem (mem_payloads hi)
  have hrun : (Call.free (t.blocks i)).run t.mem = some (m, 0) := run_free.mpr ⟨hcall, rfl⟩
  refine ⟨h.recorded.erase hi, ?_, fun j hj k hk => ?_⟩
  · obtain ⟨bs', L', hinv'⟩ := hinv.kept hlegal hrun
    rw [after_free h.recorded.nodup hinv hi] at hinv'
    exact ⟨bs', L', hinv'⟩
  · obtain ⟨hji, hj⟩ := h.recorded.nodup.mem_erase_iff.mp hj
    rcases hinv.call hlegal hrun with ⟨bs', L', -, -, hframe⟩ | ⟨hm, -⟩
    · exact h.others hinv hframe hj (fun hb => hji (blocks_inj hinv hj hi hb)) hk
    · rw [show (Trial.mk m (removeRange (t.blocks i) t.ranges) t.blocks t.blockSizes).mem.mem =
        t.mem.mem by rw [hm]]
      exact h.filled j hj k hk

/-- The call that a request makes. -/
def Trial.call (t : Trial Heap) : TraceOp → Call
  | .alloc _ n => .malloc n
  | .free i => .free (t.blocks i)
  | .realloc i n => .realloc (t.blocks i) n

theorem Trial.request_call (t : Trial Heap) (op : TraceOp) : (t.call op).request = op.size := by
  cases op <;> rfl

/-- What the driver may say about a request to `mm.c`. -/
inductive MmOutcome (opnum : ℕ) (t : Trial Heap) (live : List ℕ) (op : TraceOp) :
    Except Stop (Trial Heap) → Prop
  | ok {t' : Trial Heap} {m : Heap} {p : ℕ} : (t.call op).run t.mem = some (m, p) →
      memHeapsize t'.mem = memHeapsize m → MmInv t' (liveAfter live op) → ¬ HighByte op →
      MmOutcome opnum t live op (.ok t')
  | high : HighByte op → MmOutcome opnum t live op (.error (.complaint opnum .notPreserved))
  | null {m : Heap} {c : Complaint} : (t.call op).run t.mem = some (m, 0) →
      c = .mallocFailed ∨ c = .reallocFailed → 0 < op.size →
      MmOutcome opnum t live op (.error (.complaint opnum c))
  | crashed : (t.call op).run t.mem = none → MmOutcome opnum t live op (.error .crashed)

/-- **A request to `mm.c`**: no complaint is about its pointers. -/
theorem MmInv.step {t : Trial Heap} {live : List ℕ} {op : TraceOp} (h : MmInv t live)
    (hop : LegalOp live op) (hsize : op.size < 2 ^ 31) (opnum : ℕ) :
    MmOutcome opnum t live op (validStep mm opnum t op) := by
  have hstepped := validStep_stepped mm opnum t op
  generalize validStep mm opnum t op = r at hstepped
  cases hstepped with
  | alloc hcall hp hadd =>
      obtain ⟨hadd', hinv⟩ := h.alloc hop.1 hop.2 hsize hcall hp opnum
      obtain rfl := Except.ok.inj (hadd.symm.trans hadd')
      exact .ok hcall rfl hinv id
  | allocRange hcall hp hadd =>
      rw [(h.alloc hop.1 hop.2 hsize hcall hp opnum).1] at hadd
      cases hadd
  | allocNull hcall => exact .null hcall (.inl rfl) hop.2
  | allocCrash hcall => exact .crashed hcall
  | realloc hcall hp hadd hdata =>
      obtain ⟨⟨ranges, hadd', hinv⟩, hlow⟩ := h.realloc hop.1 hop.2 hsize hcall hp opnum
      obtain rfl := Except.ok.inj (hadd.symm.trans hadd')
      exact .ok hcall rfl hinv (not_le.mpr (hlow.mp hdata))
  | reallocData hcall hp _ hdata =>
      have hlow := (h.realloc hop.1 hop.2 hsize hcall hp opnum).2
      exact .high (not_lt.mp fun hlt => hdata (hlow.mpr hlt))
  | reallocRange hcall hp hadd =>
      obtain ⟨⟨ranges, hadd', -⟩, -⟩ := h.realloc hop.1 hop.2 hsize hcall hp opnum
      rw [hadd'] at hadd
      cases hadd
  | reallocNull hcall => exact .null hcall (.inr rfl) hop.2
  | reallocCrash hcall => exact .crashed hcall
  | @free i m hcall =>
      have hrun : (t.call (.free i)).run t.mem = some (m, 0) := run_free.mpr ⟨hcall, rfl⟩
      exact .ok hrun rfl (h.free hop hcall) id
  | @freeCrash i hcall =>
      refine .crashed ?_
      show (mmFree t.mem (t.blocks i)).map _ = _
      rw [show mmFree t.mem (t.blocks i) = none from hcall]
      rfl

/-! ## A trace -/

/-- How the loop ends: with a complaint about the first request that has one. -/
inductive LoopOutcome (opnum : ℕ) (t : Trial Heap) (live : List ℕ) (ops : List TraceOp) :
    Except Stop (Trial Heap) → Prop
  | ok {t' : Trial Heap} : MmInv t' (liveAfters live ops) → (∀ op ∈ ops, ¬ HighByte op) →
      LoopOutcome opnum t live ops (.ok t')
  | stopped {p q : List TraceOp} {op : TraceOp} {t₁ : Trial Heap} {e : Stop} :
      ops = p ++ op :: q → validLoop mm opnum p t = .ok t₁ → (∀ op ∈ p, ¬ HighByte op) →
      MmOutcome (opnum + p.length) t₁ (liveAfters live p) op (.error e) →
      LoopOutcome opnum t live ops (.error e)

/-- **The loop on `mm.c`.** -/
theorem MmInv.loop {t : Trial Heap} {live : List ℕ} {ops : List TraceOp} (h : MmInv t live)
    (hlegal : LegalTrace live ops) (hsize : ∀ op ∈ ops, op.size < 2 ^ 31) (opnum : ℕ) :
    LoopOutcome opnum t live ops (validLoop mm opnum ops t) := by
  induction ops generalizing t live opnum with
  | nil => exact .ok h (by simp)
  | cons op ops ih =>
      have hstep := h.step hlegal.1 (hsize op List.mem_cons_self) opnum
      rw [validLoop]
      generalize hr : validStep mm opnum t op = r at hstep
      rcases r with e | t₁
      · exact .stopped (p := []) rfl rfl (by simp) hstep
      · cases hstep with
        | ok _ _ hinv hlow =>
            have hrest := ih hinv hlegal.2 (fun o ho => hsize o (List.mem_cons_of_mem op ho))
              (opnum + 1)
            show LoopOutcome opnum t live (op :: ops) (validLoop mm (opnum + 1) ops t₁)
            generalize validLoop mm (opnum + 1) ops t₁ = r at hrest
            cases hrest with
            | ok hinv' hlows => exact .ok hinv' (List.forall_mem_cons.mpr ⟨hlow, hlows⟩)
            | @stopped pre post op' t₂ e hops hpre hlows hout =>
                have hfirst : validLoop mm opnum (op :: pre) t = .ok t₂ := by
                  rw [validLoop, hr]
                  exact hpre
                have hlast : MmOutcome (opnum + (op :: pre).length) t₂
                    (liveAfters live (op :: pre)) op' (.error e) := by
                  rw [List.length_cons, Nat.add_comm pre.length, ← Nat.add_assoc]
                  exact hout
                rw [hops]
                exact .stopped (p := op :: pre) rfl hfirst
                  (List.forall_mem_cons.mpr ⟨hlow, hlows⟩) hlast

/-- `eval_mm_valid` starts with an empty heap, whatever was run on it before. -/
theorem evalMmValid_mm {t : Trial Heap} (hstart : t.mem.memStartBrk = 0)
    (hmax : t.mem.memMaxAddr = MAX_HEAP) :
    ∃ h, (∀ ops, evalMmValid mm ops t = validLoop mm 0 ops ⟨h, [], t.blocks, t.blockSizes⟩) ∧
      Inv h [] [] (fun _ => []) ∧ MmInv ⟨h, [], t.blocks, t.blockSizes⟩ [] ∧
      memHeapsize h = 424 := by
  rcases hinit : reinit t.mem with ⟨h, r⟩
  obtain ⟨rfl, hheap, hinv⟩ := reinit_inv hstart hmax hinit
  have hcall : mm.init t.mem = some (h, 0) := congrArg some hinit
  exact ⟨h, evalMmValid_of_init hcall le_rfl, hinv,
    ⟨recorded_nil _ _ _, ⟨_, _, hinv⟩, by simp⟩, hheap⟩

/-- **What the driver says about `mm.c`.**  On a legal trace, and on a heap with any contents,
it passes only a trace that reallocates no id with a high low byte.  If it complains about a
request, the requests before it were in order, and the request is one of such an id, or the
call returned null. -/
theorem evalMmValid_complaint {ops : List TraceOp} (hlegal : LegalTrace [] ops)
    (hsize : ∀ op ∈ ops, op.size < 2 ^ 31) {t : Trial Heap} (hstart : t.mem.memStartBrk = 0)
    (hmax : t.mem.memMaxAddr = MAX_HEAP) :
    (∀ t', evalMmValid mm ops t = .ok t' → ∀ op ∈ ops, ¬ HighByte op) ∧
      ∀ k c, evalMmValid mm ops t = .error (.complaint k c) →
        ∃ p op q t₁, ops = p ++ op :: q ∧ p.length = k ∧ evalMmValid mm p t = .ok t₁ ∧
          ((c = .notPreserved ∧ HighByte op) ∨
            ((c = .mallocFailed ∨ c = .reallocFailed) ∧ 0 < op.size ∧
              ∃ m, (t₁.call op).run t₁.mem = some (m, 0))) := by
  obtain ⟨h, heval, -, hinv, -⟩ := evalMmValid_mm hstart hmax
  have hloop := hinv.loop hlegal hsize 0
  rw [heval]
  generalize validLoop mm 0 ops ⟨h, [], t.blocks, t.blockSizes⟩ = r at hloop
  cases hloop with
  | ok _ hlow => exact ⟨fun _ _ => hlow, fun k c hk => (by cases hk)⟩
  | @stopped p q op t₁ e hops hfirst _ hout =>
      refine ⟨fun _ h => (by cases h), fun k c hk => ?_⟩
      obtain rfl := Except.error.inj hk
      rw [Nat.zero_add] at hout
      cases hout with
      | high hhigh => exact ⟨p, op, q, t₁, hops, rfl, (heval p).trans hfirst, .inl ⟨rfl, hhigh⟩⟩
      | null hrun hc hpos =>
          exact ⟨p, op, q, t₁, hops, rfl, (heval p).trans hfirst, .inr ⟨hc, hpos, _, hrun⟩⟩

/-- Id 200 is reallocated. -/
theorem evalMmValid_complaint_high : ¬ ∃ t', evalMmValid mm [.alloc 200 100, .realloc 200 50]
    ⟨memInit 0 fun _ => 0, [], fun _ => 0, fun _ => 0⟩ = .ok t' := fun ⟨t', hok⟩ =>
  (evalMmValid_complaint (by decide) (by decide) rfl (by simp [memInit])).1 t' hok
    (.realloc 200 50) (by decide) (by decide)

/-! ## Small traces -/

/-- **A call with room for it** returns, and not null. -/
theorem call_small {h : Heap} {live : List (ℕ × ℕ)} {bs : List Block} {L : ℕ → List ℕ} {c : Call}
    (hi : Inv h live bs L) (hc : Legal live c) (hroom : memHeapsize h + c.request + 16 ≤ 2 ^ 24) :
    ∃ h' q, c.run h = some (h', q) ∧ (0 < c.request → q ≠ 0) ∧
      memHeapsize h' ≤ memHeapsize h + c.request + 16 := by
  have hsize := hi.rep.heapsize_eq
  have hbrk := hi.rep.brk
  have hval := maxHeap_eq
  cases hi.rep.outcomes hi.settled hi.live hc with
  | @done bs' L' q es hstep _ hall =>
      obtain ⟨h', hrun, hrep, -⟩ := hall h hi.rep
      refine ⟨h', q, Call.run_of_logged hrun, hstep.ne_zero hi.settled, ?_⟩
      rw [hrep.heapsize_eq, hsize]
      rcases hstep.total_eq with heq | ⟨k, hask, heq⟩
      · omega
      · have := hask.le
        omega
  | refused hask _ hfull _ =>
      have := hask.le
      omega
  | overflow hforms hbig _ _ =>
      obtain ⟨k, hk, hle, -⟩ := hforms.room hbrk (by omega)
      have : k ≤ c.request + 16 := by
        rcases hk with rfl | hask
        · exact Nat.zero_le _
        · exact hask.le
      omega

/-- A legal request makes a legal call. -/
theorem legal_call {t : Trial Heap} {live : List ℕ} {op : TraceOp} (hop : LegalOp live op)
    (hsize : op.size < 2 ^ 31) : Legal (t.payloads live) (t.call op) := by
  have hptr : ∀ i ∈ live, t.blocks i ∈ (t.payloads live).map Prod.fst :=
    fun i hi => List.mem_map_of_mem (mem_payloads hi)
  cases op with
  | alloc i n => exact le_maxRequest hsize
  | free i => exact hptr i hop
  | realloc i n => exact ⟨.inr (hptr i hop.1), le_maxRequest hsize⟩

/-- The bytes that a trace may need. -/
def asked (ops : List TraceOp) : ℕ := (ops.map fun op => op.size + 16).sum

/-- A trace with room for all its requests, and no id with a high low byte, goes through. -/
theorem MmInv.loop_small {t : Trial Heap} {live : List ℕ} {ops : List TraceOp}
    (h : MmInv t live) (hlegal : LegalTrace live ops) (hlow : ∀ op ∈ ops, ¬ HighByte op)
    (hroom : memHeapsize t.mem + asked ops ≤ 2 ^ 24) (opnum : ℕ) :
    ∃ t', validLoop mm opnum ops t = .ok t' := by
  induction ops generalizing t live opnum with
  | nil => exact ⟨t, rfl⟩
  | cons op ops ih =>
      rw [asked, List.map_cons, List.sum_cons] at hroom
      have hsize : op.size < 2 ^ 31 := by omega
      obtain ⟨bs, L, hinv⟩ := h.inv
      obtain ⟨m, q, hrun, hq, hgrown⟩ :=
        call_small hinv (legal_call hlegal.1 hsize) (by rw [t.request_call]; omega)
      rw [t.request_call] at hq hgrown
      have hstep := h.step hlegal.1 hsize opnum
      rw [validLoop]
      generalize validStep mm opnum t op = r at hstep
      cases hstep with
      | @ok t₁ m' q' hrun' hheap hinv' _ =>
          obtain ⟨rfl, rfl⟩ := Prod.mk.inj (Option.some.inj (hrun.symm.trans hrun'))
          refine ih hinv' hlegal.2 (fun o ho => hlow o (List.mem_cons_of_mem op ho)) ?_ (opnum + 1)
          rw [asked]
          omega
      | high hhigh => exact absurd hhigh (hlow op List.mem_cons_self)
      | null hnull _ hpos =>
          obtain ⟨-, rfl⟩ := Prod.mk.inj (Option.some.inj (hrun.symm.trans hnull))
          exact absurd rfl (hq hpos)
      | crashed hnone => exact absurd (hnone.symm.trans hrun) (by simp)

theorem exists_evalMmValid {ops : List TraceOp} (hlegal : LegalTrace [] ops)
    (hroom : 424 + asked ops ≤ 2 ^ 24) (hlow : ∀ op ∈ ops, ¬ HighByte op) {t : Trial Heap}
    (hstart : t.mem.memStartBrk = 0) (hmax : t.mem.memMaxAddr = MAX_HEAP) :
    ∃ t', evalMmValid mm ops t = .ok t' := by
  obtain ⟨h, heval, -, hinv, hheap⟩ := evalMmValid_mm hstart hmax
  rw [heval]
  refine hinv.loop_small hlegal hlow ?_ 0
  show memHeapsize h + asked ops ≤ 2 ^ 24
  omega

/-- **A trace of few bytes passes** if and only if it reallocates no id with a high low
byte. -/
theorem evalMmValid_small {ops : List TraceOp} (hlegal : LegalTrace [] ops)
    (hroom : 424 + asked ops ≤ 2 ^ 24) {t : Trial Heap} (hstart : t.mem.memStartBrk = 0)
    (hmax : t.mem.memMaxAddr = MAX_HEAP) :
    (∃ t', evalMmValid mm ops t = .ok t') ↔ ∀ op ∈ ops, ¬ HighByte op := by
  refine ⟨?_, fun hlow => exists_evalMmValid hlegal hroom hlow hstart hmax⟩
  rintro ⟨t', hok⟩
  obtain ⟨h, heval, -, hinv, -⟩ := evalMmValid_mm hstart hmax
  have hsize : ∀ op ∈ ops, op.size < 2 ^ 31 := by
    intro op hop
    have hle : op.size + 16 ≤ asked ops :=
      List.single_le_sum (by simp) _ (List.mem_map_of_mem (f := fun op => op.size + 16) hop)
    omega
  have hloop := hinv.loop hlegal hsize 0
  rw [← heval, hok] at hloop
  cases hloop with
  | ok _ hlow => exact hlow

/-- An id that is reallocated, on a heap of zeroes. -/
theorem evalMmValid_small_realloc :
    ∃ t', evalMmValid mm [.alloc 0 100, .realloc 0 200, .free 0]
      ⟨memInit 0 fun _ => 0, [], fun _ => 0, fun _ => 0⟩ = .ok t' :=
  (evalMmValid_small (by decide) (by decide) rfl (by simp [memInit])).mpr (by decide)

end Driver
