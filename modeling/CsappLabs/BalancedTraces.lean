/-
# From a trace file to an empty heap

A trace that is written to a file goes through `checktrace.pl`, its output through `read_trace`,
and the requests through `eval_mm_valid` with the allocator of `mm.c`
(`balanced_trace_passes`).  What the script accepts is legal for the driver; each index is in the
arrays of the trace; nothing is left in the range list, and the heap is one free block, or none.
-/
import CsappLabs.TraceIds
import CsappLabs.DriverBlocks

open TraceFile Malloc Layout

namespace Driver

/-! ## Requests as they are stored -/

/-- A request in `int`s. -/
def stored : TraceOp → StoredOp
  | .alloc i n => .alloc i n
  | .free i => .free i
  | .realloc i n => .realloc i n

/-- An allocation asks for a byte at least. -/
def Positive : TraceOp → Prop
  | .alloc _ n => 0 < n
  | .free _ => True
  | .realloc _ n => 0 < n

instance : DecidablePred Positive
  | .alloc _ n => inferInstanceAs (Decidable (0 < n))
  | .free _ => inferInstanceAs (Decidable True)
  | .realloc _ n => inferInstanceAs (Decidable (0 < n))

theorem cast_mem {i : ℕ} {live : List ℕ} : (i : ℤ) ∈ live.map Nat.cast ↔ i ∈ live :=
  List.mem_map_of_injective Nat.cast_injective

/-- **What the script accepts is legal**, and the ids with a block are the live ids. -/
theorem legalTrace_of_liveAfters {ops : List TraceOp} {live : List ℕ} {L L' : List ℤ}
    (hpos : ∀ op ∈ ops, Positive op) (hperm : L.Perm (live.map Nat.cast))
    (h : Checktrace.liveAfters L (ops.map stored) = some L') :
    LegalTrace live ops ∧ L'.Perm ((liveAfters live ops).map Nat.cast) := by
  induction ops generalizing live L with
  | nil =>
      cases h
      exact ⟨trivial, hperm⟩
  | cons op ops ih =>
      rw [List.forall_mem_cons] at hpos
      rw [List.map_cons, Checktrace.liveAfters, Option.bind_eq_some_iff] at h
      obtain ⟨L₁, hop, hops⟩ := h
      have hmem : ∀ i : ℕ, (i : ℤ) ∈ L ↔ i ∈ live := fun i => hperm.mem_iff.trans cast_mem
      have herase : ∀ i : ℕ, (L.erase i).Perm ((live.erase i).map Nat.cast) := by
        intro i
        rw [List.map_erase Nat.cast_injective]
        exact hperm.erase _
      have hstep : LegalOp live op ∧ L₁.Perm ((liveAfter live op).map Nat.cast) := by
        cases op with
        | alloc i n =>
            rw [stored, Checktrace.liveAfter] at hop
            split_ifs at hop with hi
            cases hop
            exact ⟨⟨fun hlive => hi ((hmem i).mpr hlive), hpos.1⟩, hperm.cons _⟩
        | free i =>
            rw [stored, Checktrace.liveAfter] at hop
            split_ifs at hop with hi
            cases hop
            exact ⟨(hmem i).mp hi, herase i⟩
        | realloc i n =>
            rw [stored, Checktrace.liveAfter] at hop
            split_ifs at hop with hi
            cases hop
            refine ⟨⟨(hmem i).mp hi, hpos.1⟩, ?_⟩
            exact (List.perm_cons_erase hi).trans ((herase i).cons _)
      obtain ⟨hlegal, hend⟩ := ih hpos.2 hstep.2 hops
      exact ⟨⟨hstep.1, hlegal⟩, hend⟩

/-- **What is legal is accepted.** -/
theorem liveAfters_of_legalTrace {ops : List TraceOp} {live : List ℕ} {L : List ℤ}
    (hperm : L.Perm (live.map Nat.cast)) (h : LegalTrace live ops) :
    ∃ L', Checktrace.liveAfters L (ops.map stored) = some L' ∧
      L'.Perm ((liveAfters live ops).map Nat.cast) := by
  induction ops generalizing live L with
  | nil => exact ⟨L, rfl, hperm⟩
  | cons op ops ih =>
      have hmem : ∀ i : ℕ, (i : ℤ) ∈ L ↔ i ∈ live := fun i => hperm.mem_iff.trans cast_mem
      have herase : ∀ i : ℕ, (L.erase i).Perm ((live.erase i).map Nat.cast) := by
        intro i
        rw [List.map_erase Nat.cast_injective]
        exact hperm.erase _
      have hstep : ∃ L₁, Checktrace.liveAfter L (stored op) = some L₁ ∧
          L₁.Perm ((liveAfter live op).map Nat.cast) := by
        obtain ⟨hop, -⟩ := h
        cases op with
        | alloc i n => exact ⟨i :: L, if_neg (mt (hmem i).mp hop.1), hperm.cons _⟩
        | free i => exact ⟨L.erase i, if_pos ((hmem i).mpr hop), herase i⟩
        | realloc i n =>
            have hi := (hmem i).mpr hop.1
            exact ⟨L, if_pos hi, (List.perm_cons_erase hi).trans ((herase i).cons _)⟩
      obtain ⟨L₁, hop, hperm₁⟩ := hstep
      obtain ⟨L', hops, hperm'⟩ := ih hperm₁ h.2
      refine ⟨L', ?_, hperm'⟩
      rw [List.map_cons, Checktrace.liveAfters, hop]
      exact hops

/-- A legal request is for a live id, or for one that an earlier request has allocated. -/
theorem index_mem {live : List ℕ} {ops : List TraceOp} (h : LegalTrace live ops) {op : TraceOp}
    (hop : op ∈ ops) :
    op.index ∈ live ∨ (op.index : ℤ) ∈ (ops.map stored).filterMap StoredOp.allocId := by
  induction ops generalizing live with
  | nil => cases hop
  | cons op' ops ih =>
      rw [List.map_cons]
      rcases List.mem_cons.mp hop with rfl | hop
      · cases op with
        | alloc i n => exact .inr List.mem_cons_self
        | free i => exact .inl h.1
        | realloc i n => exact .inl h.1.1
      · rcases ih h.2 hop with hlive | hids
        · cases op' with
          | alloc i n =>
              rcases List.mem_cons.mp hlive with hi | hlive
              · rw [hi]
                exact .inr List.mem_cons_self
              · exact .inl hlive
          | free i => exact .inl (List.mem_of_mem_erase hlive)
          | realloc i n =>
              rcases List.mem_cons.mp hlive with hi | hlive
              · rw [hi]
                exact .inr List.mem_cons_self
              · exact .inl (List.mem_of_mem_erase hlive)
        · refine .inr ?_
          cases op' with
          | alloc i n => exact List.mem_cons_of_mem _ hids
          | free i => exact hids
          | realloc i n => exact List.mem_cons_of_mem _ hids

/-! ## The balanced trace -/

section

variable {t : TraceT} {ops : List TraceOp} {live : List ℤ}

/-- The requests to free, as the driver runs them. -/
def frees (live : List ℤ) : List TraceOp := (Checktrace.sortIds live).map fun i => .free i.toNat

theorem stored_frees (hlive : ∀ i ∈ live, 0 ≤ i) :
    (frees live).map stored = (Checktrace.sortIds live).map .free := by
  rw [frees, List.map_map]
  apply List.map_congr_left
  intro i hi
  have hi := (Checktrace.sortIds_perm live).mem_iff.mp hi
  show StoredOp.free (i.toNat : ℤ) = _
  rw [Int.toNat_of_nonneg (hlive i hi)]

theorem foldl_note_frees (ids : List ℤ) (m : ℕ) :
    (ids.map StoredOp.free).foldl StoredOp.note m = m := by
  induction ids generalizing m with
  | nil => rfl
  | cons i ids ih => exact ih m

/-- The header is right again. -/
theorem consistent_balanced (ht : Consistent t)
    (hroom : 12 * (t.ops.length + live.length) < 2 ^ 32) :
    Consistent (Checktrace.balanced t live) := by
  have hlen : (Checktrace.balanced t live).ops.length = t.ops.length + live.length := by
    rw [Checktrace.balanced, List.length_append, List.length_map, Checktrace.sortIds,
      List.length_insertionSort]
  refine ⟨?_, ?_, ht.numIds.1, ?_⟩
  · rw [hlen, Nat.cast_add, ← ht.numOps]
    rfl
  · rw [hlen]
    exact hroom
  · rw [TraceT.maxIndex, Checktrace.balanced, List.foldl_append, foldl_note_frees]
    exact ht.numIds.2

/-- All numbers are `int`s again. -/
theorem inRange_balanced (ht : t.InRange) (hlive : ∀ i ∈ live, IsInt i)
    (hsum : t.numOps + live.length < 2 ^ 31) : (Checktrace.balanced t live).InRange := by
  refine ⟨ht.suggHeapsize, ht.numIds, ⟨?_, hsum⟩, ht.weight, fun op hop => ?_⟩
  · have hlo := ht.numOps.1
    show -2 ^ 31 ≤ t.numOps + live.length
    omega
  · rcases List.mem_append.mp hop with hop | hop
    · exact ht.ops op hop
    · obtain ⟨i, hi, rfl⟩ := List.mem_map.mp hop
      exact hlive i ((Checktrace.sortIds_perm live).mem_iff.mp hi)

end

/-- A file that frees everything: `checktrace.pl` leaves it as it is and calls it balanced, and
`read_trace` reads the trace. -/
structure Complete (file : List UInt8) (t : TraceT) : Prop where
  checked : Checktrace.checktrace false file = some (file, none)
  summary : Checktrace.checktrace true file = some (CString.text "Balanced trace.\n", none)
  read : ∀ env g tracedir filename, (tracedir ++ filename).length < TraceFile.MAXLINE →
    env.files (tracedir ++ filename) = some file → env.Allows t →
      readTrace env g tracedir filename = .ok t

/-- A written trace that frees everything. -/
theorem complete_render {t : TraceT} (hr : t.InRange) (hc : Consistent t)
    (hlive : Checktrace.liveAfters [] t.ops = some []) : Complete (render t) t := by
  have hlen : t.ops.length < 2 ^ 62 := by
    have hroom := hc.room
    omega
  refine ⟨?_, Checktrace.summary_of_live hlive, fun env g tracedir filename hpath hfile henv => ?_⟩
  · rw [Checktrace.checktrace_of_live hr.numOps hlen hlive, Checktrace.balanced_nil]
  · exact readTrace_of_consistent hr hc henv hpath hfile g

/-! ## The heap at the end -/

/-- **A heap without a live pointer** is one free block, or empty. -/
theorem blocks_of_no_live {h : Heap} {bs : List Block} {L : ℕ → List ℕ} (hi : Inv h [] bs L) :
    blocks h = [] ∨ ∃ n, blocks h = [⟨n, .free⟩] := by
  rw [hi.rep.blocks_eq hi.settled]
  have hfree : ∀ b ∈ bs, b.tag = .free := by
    intro b hb
    by_contra hne
    have halloc := Tag.eq_alloc (hi.settled.tags b hb) hne
    obtain ⟨xs, ys, hsplit⟩ := List.append_of_mem hb
    have hheld : Held bs (420 + Layout.total Block.size xs + 4) b.size := by
      refine ⟨420 + Layout.total Block.size xs, rfl, ?_⟩
      rw [hsplit, Layout.placed_append, ← halloc]
      exact List.mem_append_right _ List.mem_cons_self
    exact absurd (hi.live.all _ _ hheld) List.not_mem_nil
  rcases bs with _ | ⟨b, bs⟩
  · exact .inl rfl
  · rcases bs with _ | ⟨c, bs⟩
    · obtain ⟨n, tag⟩ := b
      obtain rfl := hfree ⟨n, tag⟩ List.mem_cons_self
      exact .inr ⟨n, rfl⟩
    · have hapart := (List.isChain_cons_cons.mp hi.settled.apart).1
      exact absurd ⟨hfree b (by simp), hfree c (by simp)⟩ hapart

/-- A heap without a live pointer is one free block of all its bytes. -/
theorem seq_of_no_live {t : Trial Heap} (h : MmInv t []) (hpos : 0 < total Block.size t.seq) :
    t.seq = [⟨total Block.size t.seq, .free⟩] := by
  obtain ⟨L, hinv⟩ := h.exists_seq
  rcases blocks_of_no_live hinv with hnil | ⟨n, hone⟩
  · have hnil : t.seq = [] := hnil
    rw [hnil] at hpos
    exact absurd hpos (lt_irrefl 0)
  · have hone : t.seq = [⟨n, .free⟩] := hone
    rw [hone, total_cons, total_nil]
    rfl

theorem size_le_asked {ops : List TraceOp} {op : TraceOp} (hop : op ∈ ops) :
    op.size + 16 ≤ asked ops :=
  List.single_le_sum (by simp) _ (List.mem_map_of_mem (f := fun op => op.size + 16) hop)

/-- The range list and the heap when nothing is live. -/
structure Drained (t : Trial Heap) : Prop where
  ranges : t.ranges = []
  blocks : Malloc.blocks t.mem = [] ∨ ∃ n, Malloc.blocks t.mem = [⟨n, .free⟩]

/-- **A trace that frees what it has allocated** leaves nothing. -/
theorem exists_drained {ops : List TraceOp} (hlegal : LegalTrace [] ops)
    (hend : liveAfters [] ops = []) (hroom : 424 + asked ops ≤ 2 ^ 24)
    (hlow : ∀ op ∈ ops, ¬ HighByte op) {t : Trial Heap} (hstart : t.mem.memStartBrk = 0)
    (hmax : t.mem.memMaxAddr = MAX_HEAP) :
    ∃ t', evalMmValid mm ops t = .ok t' ∧ Drained t' := by
  obtain ⟨h, heval, -, hinv, -⟩ := evalMmValid_mm hstart hmax
  obtain ⟨t', hok⟩ := exists_evalMmValid hlegal hroom hlow hstart hmax
  have hsize : ∀ op ∈ ops, op.size < 2 ^ 31 := by
    intro op hop
    have hle := size_le_asked hop
    omega
  have hloop := hinv.loop hlegal hsize 0
  rw [← heval, hok] at hloop
  refine ⟨t', hok, ?_⟩
  cases hloop with
  | ok hinv' _ =>
      rw [hend] at hinv'
      obtain ⟨bs, L, hheap⟩ := hinv'.inv
      exact ⟨hinv'.recorded.ranges, blocks_of_no_live hheap⟩

/-! ## From the file to the heap -/

section

variable {t : TraceT} {ops : List TraceOp} {live : List ℤ}

/-- The indices are in the arrays `blocks` and `block_sizes`. -/
theorem index_lt (hops : t.ops = ops.map stored) (hr : t.InRange) (hc : Consistent t)
    (hids : 0 < t.numIds) (hlegal : LegalTrace [] (ops ++ frees live)) :
    ∀ op ∈ ops ++ frees live, (op.index : ℤ) < t.numIds := by
  intro op hop
  have hmem := (index_mem hlegal hop).resolve_left List.not_mem_nil
  have hfrees : ((frees live).map stored).filterMap StoredOp.allocId = [] := by
    rw [frees, List.map_map, List.filterMap_map]
    exact List.filterMap_eq_nil_iff.mpr fun i _ => rfl
  rw [List.map_append, List.filterMap_append, hfrees, List.append_nil, ← hops] at hmem
  have hle : unsigned op.index ≤ t.maxIndex := (foldl_note t.ops 0).2.1 _ hmem
  have hint : IsInt op.index := by
    obtain ⟨op', hop', hid⟩ := List.mem_filterMap.mp hmem
    have hrange := hr.ops op' hop'
    cases op' with
    | alloc j n =>
        cases hid
        exact hrange.1
    | free j => cases hid
    | realloc j n =>
        cases hid
        exact hrange.1
  have hmax := hc.numIds.2
  obtain ⟨-, hhi⟩ := hint
  obtain ⟨-, hhi'⟩ := hr.numIds
  rw [unsigned] at hle
  omega

end

end Driver
