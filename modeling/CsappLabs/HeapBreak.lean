/-
# The break of the simulated heap

`mem_sbrk` compares `mem_brk + incr` with `mem_max_addr`, and the sum is one of pointers,
modulo `2 ^ 32`.  When it wraps, `mem_sbrk` accepts the request and moves the break down.

The break is moved by `mem_sbrk` only, so the calls of `mem_sbrk` in a run form a path from
the start of the heap, whatever else the heap contains (`Traced`).  Along a path the break
stays inside the heap exactly as long as no sum wraps (`Path.contained_iff`), and that is
what holds in a run of the allocator at any base address (`break_contained`).
-/
import CsappLabs.Calls

open WordMemory Effects Prog

namespace Malloc

/-! ## Paths -/

/-- The break after `mem_sbrk(incr)`, and what it returns. -/
def sbrkAt (maxAddr brk : ℕ) (incr : ℤ) : ℕ × ℕ :=
  if incr < 0 ∨ u32 (brk + incr.toNat) > maxAddr then (brk, minusOne)
  else (u32 (brk + incr.toNat), brk)

theorem memSbrk_eq_sbrkAt (h : Heap) (incr : ℤ) :
    memSbrk h incr = ({ h with memBrk := (sbrkAt h.memMaxAddr h.memBrk incr).1 },
      (sbrkAt h.memMaxAddr h.memBrk incr).2) := by
  unfold memSbrk sbrkAt
  split_ifs <;> rfl

/-- The calls of `mem_sbrk`, each from the break that the one before it left. -/
def Path (maxAddr : ℕ) : ℕ → List HeapEvent → Prop
  | _, [] => True
  | b, .add _ _ :: es => Path maxAddr b es
  | b, .sbrk brk incr ret after :: es =>
      brk = b ∧ incr < 2 ^ 31 ∧ (after, ret) = sbrkAt maxAddr b incr ∧ Path maxAddr after es

/-- The break after the events. -/
def lastBrk : ℕ → List HeapEvent → ℕ
  | b, [] => b
  | b, .add _ _ :: es => lastBrk b es
  | _, .sbrk _ _ _ after :: es => lastBrk after es

theorem lastBrk_append (b : ℕ) (es fs : List HeapEvent) :
    lastBrk b (es ++ fs) = lastBrk (lastBrk b es) fs := by
  induction es generalizing b with
  | nil => rfl
  | cons e es ih => cases e <;> exact ih _

theorem path_append {maxAddr b : ℕ} {es fs : List HeapEvent} :
    Path maxAddr b (es ++ fs) ↔ Path maxAddr b es ∧ Path maxAddr (lastBrk b es) fs := by
  induction es generalizing b with
  | nil => simp [Path, lastBrk]
  | cons e es ih =>
      cases e with
      | add bp size => exact ih
      | sbrk brk incr ret after =>
          simp only [List.cons_append, Path, lastBrk, ih, and_assoc]

/-- The break is in the heap of `base` after the call, and a request for more than the
heap has left is refused. -/
def Contained (base : ℕ) : HeapEvent → Prop
  | .add _ _ => True
  | .sbrk brk incr ret after => base ≤ after ∧ after ≤ base + MAX_HEAP ∧
      ((base + MAX_HEAP : ℤ) - brk < incr → ret = minusOne ∧ after = brk)

/-- The sum of `mem_sbrk` does not wrap. -/
def NoWrap : HeapEvent → Prop
  | .add _ _ => True
  | .sbrk brk incr _ _ => (brk : ℤ) + incr < 2 ^ 32

/-- One call of `mem_sbrk` from a break inside the heap. -/
theorem contained_sbrk_iff {base brk ret after : ℕ} {incr : ℤ}
    (hbase : base + MAX_HEAP ≤ 2 ^ 32 - 1) (hlo : base ≤ brk) (hhi : brk ≤ base + MAX_HEAP)
    (hincr : incr < 2 ^ 31) (hcall : (after, ret) = sbrkAt (base + MAX_HEAP) brk incr) :
    Contained base (.sbrk brk incr ret after) ↔ NoWrap (.sbrk brk incr ret after) := by
  unfold sbrkAt at hcall
  constructor
  · rintro ⟨hlo', hhi', hrefuse⟩
    show (brk : ℤ) + incr < 2 ^ 32
    by_contra hwrap
    -- the sum wraps to less than the break, so the request is accepted
    have hsum : u32 (brk + incr.toNat) = brk + incr.toNat - 2 ^ 32 := by
      unfold u32
      omega
    rw [if_neg (by omega), hsum, Prod.mk.injEq] at hcall
    have := (hrefuse (by omega)).2
    omega
  · intro hno
    change (brk : ℤ) + incr < 2 ^ 32 at hno
    split_ifs at hcall with hrefused
    · obtain ⟨hafter, hret⟩ := Prod.mk.inj hcall
      rw [hafter, hret]
      exact ⟨hlo, hhi, fun _ => ⟨rfl, rfl⟩⟩
    · have hsum : u32 (brk + incr.toNat) = brk + incr.toNat := by
        unfold u32
        omega
      obtain ⟨hafter, -⟩ := Prod.mk.inj hcall
      rw [hsum] at hrefused hafter
      exact ⟨by omega, by omega, fun hmore => absurd hmore (by omega)⟩

/-- **Along a path** the break is in the heap exactly as long as no sum wraps. -/
theorem Path.contained_iff {base b : ℕ} {es : List HeapEvent}
    (hbase : base + MAX_HEAP ≤ 2 ^ 32 - 1) (hp : Path (base + MAX_HEAP) b es) (hlo : base ≤ b)
    (hhi : b ≤ base + MAX_HEAP) :
    ((∀ e ∈ es, Contained base e) ↔ ∀ e ∈ es, NoWrap e) ∧
      ((∀ e ∈ es, NoWrap e) → base ≤ lastBrk b es ∧ lastBrk b es ≤ base + MAX_HEAP) := by
  induction es generalizing b with
  | nil => simp [lastBrk, hlo, hhi]
  | cons e es ih =>
      simp only [List.forall_mem_cons]
      cases e with
      | add bp size =>
          obtain ⟨hiff, hlast⟩ := ih hp hlo hhi
          exact ⟨and_congr Iff.rfl hiff, fun h => hlast h.2⟩
      | sbrk brk incr ret after =>
          obtain ⟨rfl, hincr, hcall, hp⟩ := hp
          have hone := contained_sbrk_iff hbase hlo hhi hincr hcall
          constructor
          · constructor
            · rintro ⟨hc, hrest⟩
              exact ⟨hone.mp hc, (ih hp hc.1 hc.2.1).1.mp hrest⟩
            · rintro ⟨hno, hrest⟩
              have hc := hone.mpr hno
              exact ⟨hc, (ih hp hc.1 hc.2.1).1.mpr hrest⟩
          · rintro ⟨hno, hrest⟩
            have hc := hone.mpr hno
            exact (ih hp hc.1 hc.2.1).2 hrest

/-- `mem_sbrk` does not move the break beyond `mem_max_addr`. -/
theorem sbrkAt_le {maxAddr b : ℕ} (incr : ℤ) (hb : b ≤ maxAddr) :
    (sbrkAt maxAddr b incr).1 ≤ maxAddr := by
  unfold sbrkAt
  split_ifs with hrefused
  · exact hb
  · simp only
    omega

/-- Along a path the break is below `mem_max_addr`. -/
theorem Path.lastBrk_le {maxAddr b : ℕ} {es : List HeapEvent} (hp : Path maxAddr b es)
    (hb : b ≤ maxAddr) : lastBrk b es ≤ maxAddr := by
  induction es generalizing b with
  | nil => exact hb
  | cons e es ih =>
      cases e with
      | add bp size => exact ih hp hb
      | sbrk brk incr ret after =>
          obtain ⟨-, -, hcall, hp⟩ := hp
          apply ih hp
          rw [(Prod.mk.inj hcall).1]
          exact sbrkAt_le incr hb

/-- Below `2 ^ 31` no sum wraps: the increment is an `int`. -/
theorem Path.noWrap {maxAddr b : ℕ} {es : List HeapEvent} (hmax : maxAddr ≤ 2 ^ 31)
    (hp : Path maxAddr b es) (hb : b ≤ maxAddr) : ∀ e ∈ es, NoWrap e := by
  induction es generalizing b with
  | nil => simp
  | cons e es ih =>
      rw [List.forall_mem_cons]
      cases e with
      | add bp size => exact ⟨trivial, ih hp hb⟩
      | sbrk brk incr ret after =>
          obtain ⟨rfl, hincr, hcall, hp⟩ := hp
          refine ⟨?_, ih hp ?_⟩
          · show (brk : ℤ) + incr < 2 ^ 32
            omega
          · rw [(Prod.mk.inj hcall).1]
            exact sbrkAt_le incr hb

/-! ## The functions of `mm.c` move the break by `mem_sbrk` only -/

/-- The variables of `memlib.c` after the events. -/
structure Moved (h : Heap) (es : List HeapEvent) (g : Heap) : Prop where
  startBrk : g.memStartBrk = h.memStartBrk
  maxAddr : g.memMaxAddr = h.memMaxAddr
  brk : g.memBrk = lastBrk h.memBrk es

/-- The events of a computation on the heap `h` are a path, and lead to the heap that it
ends with. -/
structure Traced {α : Type} (heapOf : α → Heap) (h : Heap) (x : Logged α) : Prop where
  path : Path h.memMaxAddr h.memBrk x.events
  moved : ∀ a, x.result = .ok a → Moved h x.events (heapOf a)

namespace Traced

variable {α β : Type} {heapOf : α → Heap} {heapOf' : β → Heap} {h : Heap}

theorem require {o : Option α} (ho : ∀ a, o = some a → Moved h [] (heapOf a)) :
    Traced heapOf h (require () o) := by
  cases o with
  | none => exact ⟨trivial, fun _ ha => by cases ha⟩
  | some b =>
      refine ⟨trivial, fun a ha => ?_⟩
      cases ha
      exact ho b rfl

theorem pure {a : α} (ha : Moved h [] (heapOf a)) : Traced heapOf h (Pure.pure a : Logged α) :=
  require (o := some a) fun _ hb => Option.some.inj hb ▸ ha

theorem bind {x : Logged α} {f : α → Logged β} (hx : Traced heapOf h x)
    (hf : ∀ a, Traced heapOf' (heapOf a) (f a)) : Traced heapOf' h (x >>= f) := by
  cases hres : x.result with
  | error s =>
      rw [bind_of_error hres]
      exact ⟨hx.path, fun _ hb => by cases hb⟩
  | ok a =>
      obtain ⟨hstart, hmax, hbrk⟩ := hx.moved a hres
      obtain ⟨hpath, hmoved⟩ := hf a
      rw [hmax, hbrk] at hpath
      rw [bind_of_ok hres]
      refine ⟨path_append.mpr ⟨hx.path, hpath⟩, fun b hb => ?_⟩
      obtain ⟨hstart', hmax', hbrk'⟩ := hmoved b hb
      exact ⟨hstart'.trans hstart, hmax'.trans hmax, by rw [hbrk', hbrk, lastBrk_append]⟩

/-- A value that is computed from the heap. -/
theorem require_bind {o : Option α} {f : α → Logged β} (hf : ∀ a, Traced heapOf' h (f a)) :
    Traced heapOf' h (Prog.require () o >>= f) :=
  have hsame : Traced (fun _ => h) h (Prog.require () o : Logged α) :=
    require fun _ _ => ⟨rfl, rfl, rfl⟩
  hsame.bind hf

/-- `heap_add` is called, which moves nothing. -/
theorem add {bp size : ℕ} {f : Unit → Logged α} (hf : Traced heapOf h (f ())) :
    Traced heapOf h (emit (.add bp size) >>= f) := by
  refine ⟨hf.path, fun a ha => ?_⟩
  obtain ⟨hstart, hmax, hbrk⟩ := hf.moved a ha
  exact ⟨hstart, hmax, hbrk⟩

/-- After stores, which move nothing. -/
theorem after {g : Heap} {x : Logged α} (hx : Traced heapOf g x) (hm : Moved h [] g) :
    Traced heapOf h x := by
  obtain ⟨hstart, hmax, hbrk⟩ := hm
  obtain ⟨hpath, hmoved⟩ := hx
  change g.memBrk = h.memBrk at hbrk
  rw [hmax, hbrk] at hpath
  refine ⟨hpath, fun a ha => ?_⟩
  obtain ⟨hstart', hmax', hbrk'⟩ := hmoved a ha
  exact ⟨hstart'.trans hstart, hmax'.trans hmax, hbrk ▸ hbrk'⟩

theorem ite {c : Prop} [Decidable c] {x y : Logged α} (hx : Traced heapOf h x)
    (hy : Traced heapOf h y) : Traced heapOf h (if c then x else y) := by
  split_ifs
  · exact hx
  · exact hy

end Traced

theorem Moved.refl (h : Heap) : Moved h [] h := ⟨rfl, rfl, rfl⟩

/-- A store. -/
theorem Moved.of_mem (h : Heap) (m : Mem) : Moved h [] { h with mem := m } := ⟨rfl, rfl, rfl⟩

theorem traced_memSbrk (h : Heap) {incr : ℤ} (hincr : incr < 2 ^ 31) :
    Traced Prod.fst h (Logged.memSbrk h incr) := by
  unfold Logged.memSbrk
  rw [memSbrk_eq_sbrkAt]
  refine ⟨⟨rfl, hincr, rfl, trivial⟩, fun a ha => ?_⟩
  cases ha
  exact ⟨rfl, rfl, rfl⟩

theorem toInt_lt {n : ℕ} (hn : n < 2 ^ 32) : toInt n < 2 ^ 31 := by
  unfold toInt
  split_ifs <;> omega

theorem u32_lt (n : ℕ) : u32 n < 2 ^ 32 := Nat.mod_lt _ (by norm_num)

theorem align_lt (d : ℕ) : align d < 2 ^ 32 :=
  lt_of_le_of_lt Nat.and_le_left (u32_lt _)

theorem moved_heapRemove {h h' : Heap} {bp : ℕ} (hrun : heapRemove h bp = some h') :
    Moved h [] h' := by
  unfold heapRemove at hrun
  dsimp only at hrun
  split_ifs at hrun <;> cases hrun <;> exact Moved.of_mem h _

theorem traced_heapRemove (h : Heap) (bp : ℕ) : Traced id h (require () (heapRemove h bp)) :=
  Traced.require fun _ ha => moved_heapRemove ha

theorem moved_heapAdd {h h' : Heap} {bp : ℕ} (hrun : heapAdd h bp = some h') :
    Moved h [] h' := by
  simp only [heapAdd, Option.bind_eq_bind, Option.bind_eq_some_iff] at hrun
  obtain ⟨u, -, head, -, hrun⟩ := hrun
  split_ifs at hrun <;> cases hrun <;> exact Moved.of_mem h _

theorem traced_heapAdd (h : Heap) (bp : ℕ) : Traced id h (Logged.heapAdd h bp) :=
  (Traced.require fun _ ha => moved_heapAdd ha).add

/-- A neighbour is removed from its list when it is free, and nothing happens otherwise. -/
theorem traced_neighbour {α : Type} {c : Prop} [Decidable c] (h : Heap) (bp : ℕ) (f : Heap → α)
    (a : α) : Traced Prod.fst h (require ()
      (if c then (heapRemove h bp).bind fun h => some (h, f h) else some (h, a))) := by
  apply Traced.require
  intro r hrun
  split_ifs at hrun
  · obtain ⟨h', hremove, hr⟩ := Option.bind_eq_some_iff.mp hrun
    obtain rfl := Option.some.inj hr
    exact moved_heapRemove hremove
  · cases hrun
    exact Moved.refl h

theorem traced_coalescePrev (h : Heap) (prevAlloc pre bp size : ℕ) :
    Traced Prod.fst h (require () (coalescePrev h prevAlloc pre bp size)) := by
  apply traced_neighbour

theorem traced_coalesceNext (h : Heap) (nextAlloc nxt size : ℕ) :
    Traced Prod.fst h (require () (coalesceNext h nextAlloc nxt size)) := by
  apply traced_neighbour

theorem traced_reallocAbsorb (h : Heap) (ptr nxtBlock : ℕ) :
    Traced Prod.fst h (require () (reallocAbsorb h ptr nxtBlock)) := by
  apply Traced.require
  intro r hrun
  simp only [reallocAbsorb, Option.bind_eq_bind, Option.bind_eq_some_iff,
    Option.some.injEq] at hrun
  obtain ⟨h', hremove, rfl⟩ := hrun
  obtain ⟨hstart, hmax, hbrk⟩ := moved_heapRemove hremove
  exact ⟨hstart, hmax, hbrk⟩

theorem traced_coalesce (h : Heap) (bp : ℕ) : Traced Prod.fst h (Logged.coalesce h bp) := by
  unfold Logged.coalesce
  refine (traced_coalescePrev _ _ _ _ _).bind fun _ => ?_
  refine (traced_coalesceNext _ _ _ _).bind fun _ => ?_
  exact ((traced_heapAdd _ _).after (Moved.of_mem _ _)).bind fun _ => Traced.pure (Moved.refl _)

theorem traced_extendHeap (h : Heap) (words : ℕ) :
    Traced Prod.fst h (Logged.extendHeap h words) := by
  unfold Logged.extendHeap
  refine (traced_memSbrk h (toInt_lt ?_)).bind fun _ => ?_
  · split_ifs <;> exact u32_lt _
  · apply Traced.ite
    · exact Traced.pure (Moved.refl _)
    · exact (traced_coalesce _ _).after (Moved.of_mem _ _)

theorem traced_place (h : Heap) (bp asize : ℕ) :
    Traced Prod.fst h (Logged.place h bp asize) := by
  unfold Logged.place
  refine (traced_heapRemove _ _).bind fun _ => ?_
  apply Traced.ite
  · exact ((traced_coalesce _ _).after (Moved.of_mem _ _)).bind fun _ => Traced.pure (Moved.refl _)
  · exact Traced.pure (Moved.of_mem _ _)

theorem traced_mmMalloc (h : Heap) (size : ℕ) :
    Traced Prod.fst h (Logged.mmMalloc h size) := by
  unfold Logged.mmMalloc
  apply Traced.ite
  · exact Traced.pure (Moved.refl _)
  · apply Traced.require_bind
    intro bp
    apply Traced.ite
    · exact traced_place _ _ _
    · refine (traced_extendHeap _ _).bind fun _ => ?_
      apply Traced.ite
      · exact Traced.pure (Moved.refl _)
      · exact traced_place _ _ _

theorem traced_mmFree (h : Heap) (ptr : ℕ) : Traced id h (Logged.mmFree h ptr) := by
  unfold Logged.mmFree
  exact ((traced_coalesce _ _).after (Moved.of_mem _ _)).bind fun _ => Traced.pure (Moved.refl _)

theorem traced_reallocMove (h : Heap) (ptr size oldSize : ℕ) :
    Traced Prod.fst h (Logged.reallocMove h ptr size oldSize) := by
  unfold Logged.reallocMove
  refine (traced_mmMalloc _ _).bind fun _ => ?_
  apply Traced.ite
  · exact Traced.pure (Moved.refl _)
  · exact ((traced_mmFree _ _).after (Moved.of_mem _ _)).bind fun _ => Traced.pure (Moved.refl _)

theorem traced_reallocGrow (h : Heap) (ptr d : ℕ) :
    Traced Prod.fst h (Logged.reallocGrow h ptr d) := by
  unfold Logged.reallocGrow
  refine (traced_memSbrk h (toInt_lt (align_lt d))).bind fun _ => ?_
  apply Traced.ite
  · exact Traced.pure (Moved.refl _)
  · exact Traced.pure (Moved.of_mem _ _)

theorem traced_mmRealloc (h : Heap) (ptr size : ℕ) :
    Traced Prod.fst h (Logged.mmRealloc h ptr size) := by
  unfold Logged.mmRealloc
  apply Traced.ite
  · exact traced_mmMalloc h size
  apply Traced.ite
  · exact (traced_mmFree h ptr).bind fun _ => Traced.pure (Moved.refl _)
  apply Traced.ite
  · exact Traced.pure (Moved.refl h)
  apply Traced.ite
  · exact traced_reallocGrow _ _ _
  apply Traced.ite
  · exact traced_reallocAbsorb _ _ _
  · exact traced_reallocMove _ _ _ _

theorem traced_mmInitLoop (k : ℕ) (h : Heap) :
    Traced Prod.fst h (Logged.mmInitLoop k h) := by
  induction k generalizing h with
  | zero => exact Traced.pure (Moved.refl h)
  | succ k ih =>
      unfold Logged.mmInitLoop
      refine (traced_memSbrk h (by norm_num)).bind fun _ => ?_
      apply Traced.ite
      · exact Traced.pure (Moved.refl _)
      · exact (ih _).after ⟨rfl, rfl, rfl⟩

theorem traced_mmInit (h : Heap) : Traced Prod.fst h (Logged.mmInit h) := by
  unfold Logged.mmInit
  refine (traced_memSbrk h (by norm_num)).bind fun _ => ?_
  apply Traced.ite
  · exact Traced.pure ⟨rfl, rfl, rfl⟩
  · exact (traced_mmInitLoop N _).after ⟨rfl, rfl, rfl⟩

/-- **The break is moved by `mem_sbrk` only**, in every call. -/
theorem traced_call (h : Heap) (c : Call) : Traced Prod.fst h (c.logged h) := by
  cases c with
  | malloc n => exact traced_mmMalloc h n
  | free p => exact (traced_mmFree h p).bind fun _ => Traced.pure (Moved.refl _)
  | realloc p n => exact traced_mmRealloc h p n

/-! ## Runs at any base address -/

/-- The runs of the allocator in a simulated heap at `base`, with the events: `mem_init`,
then `mem_reset_brk`, `mm_init` and calls with any arguments, in any order, and between
them any stores. -/
inductive Served (base : ℕ) : Heap → List HeapEvent → Prop where
  | boot (contents : Mem) : Served base (memInit base contents) []
  | reset {h : Heap} {es : List HeapEvent} : Served base h es → Served base (memResetBrk h) es
  | init {h : Heap} {es : List HeapEvent} : Served base h es →
      Served base (mmInit h).1 (es ++ (Logged.mmInit h).events)
  | call {h h' : Heap} {es : List HeapEvent} {q : ℕ} (c : Call) : Served base h es →
      c.run h = some (h', q) → Served base h' (es ++ (c.logged h).events)
  | store {h : Heap} {es : List HeapEvent} (m : Mem) : Served base h es →
      Served base { h with mem := m } es

/-- What is known of a run at `base` with these events. -/
structure Contains (base : ℕ) (h : Heap) (es : List HeapEvent) : Prop where
  startBrk : h.memStartBrk = base
  maxAddr : h.memMaxAddr = base + MAX_HEAP
  events : (∀ e ∈ es, Contained base e) ↔ ∀ e ∈ es, NoWrap e
  brk : (∀ e ∈ es, NoWrap e) → base ≤ h.memBrk ∧ h.memBrk ≤ base + MAX_HEAP

/-- The events that a computation adds to a run. -/
theorem Contains.events_append {base : ℕ} {h : Heap} {es : List HeapEvent} {α : Type}
    {heapOf : α → Heap} {x : Logged α} (hc : Contains base h es) (hx : Traced heapOf h x)
    (hbase : base + MAX_HEAP ≤ 2 ^ 32 - 1) :
    ((∀ e ∈ es ++ x.events, Contained base e) ↔ ∀ e ∈ es ++ x.events, NoWrap e) ∧
      ((∀ e ∈ es ++ x.events, NoWrap e) → base ≤ lastBrk h.memBrk x.events ∧
        lastBrk h.memBrk x.events ≤ base + MAX_HEAP) := by
  have hpath := hx.path
  rw [hc.maxAddr] at hpath
  have hiff : (∀ e ∈ es, NoWrap e) → _ := fun hno =>
    hpath.contained_iff hbase (hc.brk hno).1 (hc.brk hno).2
  simp only [List.forall_mem_append]
  refine ⟨⟨fun hall => ?_, fun hall => ?_⟩, fun hall => (hiff hall.1).2 hall.2⟩
  · have hno := hc.events.mp hall.1
    exact ⟨hno, (hiff hno).1.mp hall.2⟩
  · exact ⟨hc.events.mpr hall.1, (hiff hall.1).1.mpr hall.2⟩

/-- A computation that ends with a heap. -/
theorem Contains.step {base : ℕ} {h : Heap} {es : List HeapEvent} {α : Type}
    {heapOf : α → Heap} {x : Logged α} (hc : Contains base h es) (hx : Traced heapOf h x)
    (hbase : base + MAX_HEAP ≤ 2 ^ 32 - 1) {a : α} (ha : x.result = .ok a) :
    Contains base (heapOf a) (es ++ x.events) := by
  obtain ⟨hevents, hbrk⟩ := hc.events_append hx hbase
  obtain ⟨hstart, hmax, hlast⟩ := hx.moved a ha
  refine ⟨hstart.trans hc.startBrk, hmax.trans hc.maxAddr, hevents, fun hno => ?_⟩
  rw [hlast]
  exact hbrk hno

theorem Served.contains {base : ℕ} {h : Heap} {es : List HeapEvent} (hr : Served base h es)
    (hbase : base + MAX_HEAP ≤ 2 ^ 32 - 1) : Contains base h es := by
  induction hr with
  | boot contents => exact ⟨rfl, rfl, by simp, fun _ => ⟨le_rfl, Nat.le_add_right _ _⟩⟩
  | reset _ ih =>
      obtain ⟨hstart, hmax, hevents, -⟩ := ih
      refine ⟨hstart, hmax, hevents, fun _ => ?_⟩
      rw [memResetBrk, hstart]
      exact ⟨le_rfl, Nat.le_add_right _ _⟩
  | @init h es _ ih =>
      have hret := ((Logged.erases_mmInit h).ok_iff (mmInit h)).mpr rfl
      exact ih.step (traced_mmInit h) hbase hret
  | @call h h' es q c _ hrun ih =>
      exact ih.step (traced_call h c) hbase (((c.erases h).ok_iff (h', q)).mpr hrun)
  | store m _ ih => exact ⟨ih.startBrk, ih.maxAddr, ih.events, ih.brk⟩

/-- In a heap below `2 ^ 31` no sum wraps. -/
theorem Served.noWrap {base : ℕ} {h : Heap} {es : List HeapEvent} (hr : Served base h es)
    (hlow : base + MAX_HEAP ≤ 2 ^ 31) : ∀ e ∈ es, NoWrap e := by
  have hbase : base + MAX_HEAP ≤ 2 ^ 32 - 1 := by omega
  have hnext : ∀ {h : Heap} {es : List HeapEvent} {α : Type} {heapOf : α → Heap} {x : Logged α},
      Served base h es → (∀ e ∈ es, NoWrap e) → Traced heapOf h x →
        ∀ e ∈ es ++ x.events, NoWrap e := by
    intro h es α heapOf x hr hno hx
    have hc := hr.contains hbase
    have hpath := hx.path
    rw [hc.maxAddr] at hpath
    exact List.forall_mem_append.mpr ⟨hno, hpath.noWrap hlow (hc.brk hno).2⟩
  induction hr with
  | boot _ => simp
  | reset _ ih => exact ih
  | init hr ih => exact hnext hr ih (traced_mmInit _)
  | call c hr _ ih => exact hnext hr ih (traced_call _ c)
  | store _ _ ih => exact ih

/-- **The break never leaves the simulated heap**, in a run at any base address and the
call that follows it, whether or not that one returns, exactly when no sum of `mem_sbrk`
wraps; none does when the heap lies below `2 ^ 31`. -/
theorem break_contained {base : ℕ} {h : Heap} {es : List HeapEvent} (hr : Served base h es)
    (hbase : base + MAX_HEAP ≤ 2 ^ 32 - 1) (c : Call) :
    ((∀ e ∈ es ++ (c.logged h).events, Contained base e) ↔
      ∀ e ∈ es ++ (c.logged h).events, NoWrap e) ∧
    ((∀ e ∈ es, NoWrap e) → h.memStartBrk ≤ h.memBrk ∧ h.memBrk ≤ h.memMaxAddr) ∧
    (base + MAX_HEAP ≤ 2 ^ 31 → ∀ e ∈ es ++ (c.logged h).events, NoWrap e) := by
  have hc := hr.contains hbase
  refine ⟨(hc.events_append (traced_call h c) hbase).1, fun hno => ?_, fun hlow => ?_⟩
  · rw [hc.startBrk, hc.maxAddr]
    exact hc.brk hno
  · have hno := hr.noWrap hlow
    have hpath := (traced_call h c).path
    rw [hc.maxAddr] at hpath
    exact List.forall_mem_append.mpr ⟨hno, hpath.noWrap hlow (hc.brk hno).2⟩

/-- A heap at `2 ^ 20`, and a request that is far too large. -/
theorem break_contained_low : ∃ h es, Served (2 ^ 20) h es ∧
    ∀ e ∈ es ++ (Call.logged h (.malloc (2 ^ 31 - 16))).events, Contained (2 ^ 20) e := by
  have hval := maxHeap_eq
  have hr := (@Served.boot (2 ^ 20) fun _ => 0).init
  obtain ⟨hiff, -, hlow⟩ := break_contained hr (by omega) (.malloc (2 ^ 31 - 16))
  exact ⟨_, _, hr, hiff.mpr (hlow (by omega))⟩

/-- In a heap at `2 ^ 31`, a first request of `2 ^ 31 - 16` bytes is accepted, and leaves
the break at 416. -/
theorem break_leaves : ∃ h es, Served (2 ^ 31) h es ∧
    .sbrk (2 ^ 31 + 424) (2 ^ 31 - 8) (2 ^ 31 + 424) 416 ∈
      (Call.logged h (.malloc (2 ^ 31 - 16))).events ∧
    2 ^ 31 + MAX_HEAP ≤ 2 ^ 32 - 1 ∧
    ¬ Contained (2 ^ 31) (.sbrk (2 ^ 31 + 424) (2 ^ 31 - 8) (2 ^ 31 + 424) 416) := by
  have hval := maxHeap_eq
  refine ⟨_, _, (Served.boot fun _ => 0).init, by decide +kernel, by omega, ?_⟩
  rintro ⟨hlow, -⟩
  omega

end Malloc
