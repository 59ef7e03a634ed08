/-
# The index of the free lists

`heap_add` indexes `heap[]` with `U` of the size of the block, and `heap[]` has room for
the sizes up to `2 ^ 24`.  The heap may grow beyond that, up to `MAX_HEAP`, and so may a
free block.

A call that returns has made no `heap_add` past the end of `heap[]`: this is proved
function by function, of any heap (`clean_run`).  With the outcomes of a call it says
exactly when the index is in range (`index_in_range`).
-/
import CsappLabs.HeapRuns

open WordMemory LinkedChain Layout Effects Prog

namespace Malloc

/-- The block has a list. -/
def InRange : HeapEvent → Prop
  | .add _ size => ∃ u, U size = some u ∧ u < N
  | .sbrk _ _ _ _ => True

/-! ## A call that returns -/

/-- `heap_add` of a block that has no list does not return. -/
theorem clean_heapAdd (h : Heap) (bp : ℕ) : Clean InRange (Logged.heapAdd h bp) := by
  intro h' hret e he
  have hadd : heapAdd h bp = some h' := ((Logged.erases_heapAdd h bp).ok_iff h').mp hret
  have hevents : (Logged.heapAdd h bp).events = [.add bp (getSize h (hdrp bp))] := by
    rw [Logged.heapAdd, hadd]
    rfl
  rw [hevents, List.mem_singleton] at he
  subst he
  simp only [heapAdd, Option.bind_eq_bind, Option.bind_eq_some_iff] at hadd
  obtain ⟨u, hu, head, hhead, -⟩ := hadd
  exact ⟨u, hu, (Vector.getElem?_eq_some_iff.mp hhead).1⟩

theorem clean_memSbrk (h : Heap) (incr : ℤ) : Clean InRange (Logged.memSbrk h incr) := by
  unfold Logged.memSbrk
  apply Clean.of_emits
  exact (Emits.emit trivial).bind fun _ => Emits.pure _

theorem clean_coalesce (h : Heap) (bp : ℕ) : Clean InRange (Logged.coalesce h bp) := by
  unfold Logged.coalesce
  exact (Clean.require _ _).bind fun _ => (Clean.require _ _).bind fun _ =>
    (clean_heapAdd _ _).bind fun _ => Clean.pure _

theorem clean_extendHeap (h : Heap) (words : ℕ) : Clean InRange (Logged.extendHeap h words) := by
  unfold Logged.extendHeap
  exact (clean_memSbrk _ _).bind fun _ => (Clean.pure _).ite (clean_coalesce _ _)

theorem clean_place (h : Heap) (bp asize : ℕ) : Clean InRange (Logged.place h bp asize) := by
  unfold Logged.place
  exact (Clean.require _ _).bind fun _ =>
    ((clean_coalesce _ _).bind fun _ => Clean.pure _).ite (Clean.pure _)

theorem clean_mmMalloc (h : Heap) (size : ℕ) : Clean InRange (Logged.mmMalloc h size) := by
  unfold Logged.mmMalloc
  refine (Clean.pure _).ite ((Clean.require _ _).bind fun _ => (clean_place _ _ _).ite ?_)
  exact (clean_extendHeap _ _).bind fun _ => (Clean.pure _).ite (clean_place _ _ _)

theorem clean_mmFree (h : Heap) (ptr : ℕ) : Clean InRange (Logged.mmFree h ptr) := by
  unfold Logged.mmFree
  exact (clean_coalesce _ _).bind fun _ => Clean.pure _

theorem clean_reallocMove (h : Heap) (ptr size oldSize : ℕ) :
    Clean InRange (Logged.reallocMove h ptr size oldSize) := by
  unfold Logged.reallocMove
  exact (clean_mmMalloc _ _).bind fun _ =>
    (Clean.pure _).ite ((clean_mmFree _ _).bind fun _ => Clean.pure _)

theorem clean_reallocGrow (h : Heap) (ptr d : ℕ) :
    Clean InRange (Logged.reallocGrow h ptr d) := by
  unfold Logged.reallocGrow
  exact (clean_memSbrk _ _).bind fun _ => (Clean.pure _).ite (Clean.pure _)

theorem clean_mmRealloc (h : Heap) (ptr size : ℕ) :
    Clean InRange (Logged.mmRealloc h ptr size) := by
  unfold Logged.mmRealloc
  refine (clean_mmMalloc h size).ite
    (((clean_mmFree h ptr).bind fun _ => Clean.pure _).ite ((Clean.pure _).ite ?_))
  exact (clean_reallocGrow _ _ _).ite ((Clean.require _ _).ite (clean_reallocMove _ _ _ _))

/-- **A call that returns** has made no `heap_add` past the end of `heap[]`. -/
theorem clean_run {h : Heap} {c : Call} {r : Heap × ℕ} (hrun : c.run h = some r) :
    ∀ e ∈ (c.logged h).events, InRange e := by
  have hret : (c.logged h).result = .ok r := ((c.erases h).ok_iff r).mpr hrun
  cases c with
  | malloc n => exact clean_mmMalloc h n r hret
  | free p => exact ((clean_mmFree h p).bind fun _ => Clean.pure _) r hret
  | realloc p n => exact clean_mmRealloc h p n r hret

/-! ## Runs -/

/-- The calls of a run returned, so they are all in range. -/
theorem Recorded.inRange {h : Heap} {live : List (ℕ × ℕ)} {es : List HeapEvent}
    (hr : Recorded h live es) : ∀ e ∈ es, InRange e := by
  induction hr with
  | init _ => simp
  | call _ _ hrun ih =>
      intro e he
      rcases List.mem_append.mp he with he | he
      · exact ih e he
      · exact clean_run hrun e he
  | store _ _ _ _ _ ih => exact ih

/-- A block of more than `2 ^ 24` bytes has no list. -/
theorem not_inRange {b t : ℕ} (hbig : 2 ^ 24 < t) (hle : t ≤ MAX_HEAP) :
    ¬ InRange (.add b t) := by
  have hval := maxHeap_eq
  rintro ⟨u, hu, hlt⟩
  rw [U_eq_clog (by omega) (by omega)] at hu
  obtain rfl := Option.some.inj hu
  exact absurd (le_class hbig) (not_le.mpr hlt)

/-- **The free-list index is in range** in a run and the call that follows it, exactly when
no free block that `coalesce` forms in that call is larger than `2 ^ 24` bytes; then the
call returns as well.  (In the calls of the run before it the index was in range, since they
returned.) -/
theorem index_in_range {h : Heap} {live : List (ℕ × ℕ)} {es : List HeapEvent} {c : Call}
    (hr : Recorded h live es) (hc : Legal live c) :
    ((∀ e ∈ es ++ (c.logged h).events, InRange e) ↔
      ∀ t, Forms h (blocks h) c t → t ≤ 2 ^ 24) ∧
    ((∀ t, Forms h (blocks h) c t → t ≤ 2 ^ 24) → ∃ r, c.run h = some r) := by
  obtain ⟨bs, L, hi⟩ := (admitted_iff_recorded.mpr ⟨es, hr⟩).inv
  rw [hi.rep.blocks_eq hi.settled]
  have hret : (∀ t, Forms h bs c t → t ≤ 2 ^ 24) → ∃ r, c.run h = some r := by
    intro hfits
    cases hi.rep.outcomes hi.settled hi.live hc with
    | done _ _ hall =>
        obtain ⟨g, hm, -⟩ := hall h hi.rep
        exact ⟨_, Call.run_of_logged hm⟩
    | refused _ _ _ hall => exact ⟨_, Call.run_of_logged (hall h hi.rep)⟩
    | overflow hforms hbig _ _ => exact absurd (hfits _ hforms) (not_le.mpr hbig)
  refine ⟨⟨fun hrange t hforms => ?_, fun hfits e he => ?_⟩, hret⟩
  · by_contra hbig
    obtain ⟨fs, b, u, hforms', hbig', hmem, hm⟩ := hi.rep.over_of_forms hi.settled hforms
      hc.request_le (not_le.mp hbig)
    obtain ⟨k, -, hle, hfit⟩ := hforms'.room hi.rep.brk hi.rep.small
    have hbrk := hi.rep.brk
    refine not_inRange hbig' (b := b) (by omega) (hrange _ (List.mem_append_right _ ?_))
    rw [hm]
    exact hmem
  · obtain ⟨r, hrun⟩ := hret hfits
    rcases List.mem_append.mp he with he | he
    · exact hr.inRange e he
    · exact clean_run hrun e he

/-- A first request of 100 bytes. -/
theorem index_in_range_first : ∃ h, Recorded h [] [] ∧
    (∃ r, Call.run h (.malloc 100) = some r) ∧
    ∀ e ∈ (Call.logged h (.malloc 100)).events, InRange e := by
  have hr := Recorded.init fun _ => 0
  have hblocks : blocks (mmInit (memInit 0 fun _ => 0)).1 = [] :=
    (mmInit_rep fun _ => 0).2.blocks_eq settled_nil
  have hfits : ∀ t, Forms (mmInit (memInit 0 fun _ => 0)).1
      (blocks (mmInit (memInit 0 fun _ => 0)).1) (.malloc 100) t → t ≤ 2 ^ 24 := by
    intro t hforms
    rw [hblocks] at hforms
    cases hforms with
    | malloc _ _ _ hext => exact hext.le_total.trans (by decide)
  obtain ⟨hiff, hret⟩ := index_in_range hr (c := .malloc 100) (by decide)
  exact ⟨_, hr, hret hfits, fun e he => hiff.mpr hfits e (by simpa using he)⟩

/-- A first request of `2 ^ 24` bytes has `heap_add` index `heap[]` with 25. -/
theorem index_out_of_range : ∃ h, Recorded h [] [] ∧ Legal [] (.malloc (2 ^ 24)) ∧
    .add 432 (2 ^ 24 + 8) ∈ (Call.logged h (.malloc (2 ^ 24))).events ∧
    U (2 ^ 24 + 8) = some 25 ∧ ¬ InRange (.add 432 (2 ^ 24 + 8)) := by
  refine ⟨_, Recorded.init fun _ => 0, by decide, ?_, by decide +kernel,
    not_inRange (by norm_num) (by rw [maxHeap_eq]; norm_num)⟩
  decide +kernel

end Malloc
