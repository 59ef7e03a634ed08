/-
# Placement does not depend on the contents of the memory

Two clients that make the same calls, each on the same choice of its live blocks, get
the same pointers and the same heap sizes, whatever the bytes of the simulated heap
were at first, and whatever each client writes into its live payloads in between.

The allocator reads back only words that it wrote: headers, footers and the links of
free blocks.  So a call does the same to every heap with the same blocks and lists
(`Rep.outcomes`), and the blocks and lists after a sequence of calls are determined by
the calls since the last `mm_init` (`Trace.determined`).
-/
import CsappLabs.HeapRuns

open WordMemory LinkedChain Layout

namespace Malloc

/-! ## Sequences of calls -/

/-- What a client does: `mem_reset_brk` and `mm_init`, or a call on the `k`-th of its live
blocks, or `mm_realloc` of the null pointer. -/
inductive Request : Type where
  | init : Request
  | malloc (n : ℕ) : Request
  | free (k : ℕ) : Request
  | realloc (k n : ℕ) : Request
  | reallocNull (n : ℕ) : Request
  deriving DecidableEq, Repr

/-- The call of a client with these live blocks. -/
def Request.call (live : List (ℕ × ℕ)) : Request → Option Call
  | .init => none
  | .malloc n => some (.malloc n)
  | .free k => live[k]?.map fun b => .free b.1
  | .realloc k n => live[k]?.map fun b => .realloc b.1 n
  | .reallocNull n => some (.realloc 0 n)

/-- `mem_reset_brk` and `mm_init`. -/
def reinit (h : Heap) : Heap × ℤ := mmInit (memResetBrk h)

/-- The runs of a client: the requests so far and what each returned with the heap size
after it, latest first, the heap, and the live blocks. -/
inductive Trace : List Request → List (ℤ × ℕ) → Heap → List (ℕ × ℕ) → Prop where
  | init (contents : Mem) {h : Heap} {r : ℤ} : reinit (memInit 0 contents) = (h, r) →
      Trace [.init] [(r, memHeapsize h)] h []
  | reinit {rs : List Request} {obs : List (ℤ × ℕ)} {h h' : Heap} {live : List (ℕ × ℕ)} {r : ℤ} :
      Trace rs obs h live → Malloc.reinit h = (h', r) →
      Trace (.init :: rs) ((r, memHeapsize h') :: obs) h' []
  | call {rs : List Request} {obs : List (ℤ × ℕ)} {h h' : Heap} {live : List (ℕ × ℕ)} {q : ℕ}
      {c : Call} (r : Request) : Trace rs obs h live → r.call live = some c → Legal live c →
      c.run h = some (h', q) → memHeapsize h' ≤ 2 ^ 24 →
      Trace (r :: rs) ((q, memHeapsize h') :: obs) h' (c.after live q)
  | store {rs : List Request} {obs : List (ℤ × ℕ)} {h : Heap} {live : List (ℕ × ℕ)} {p n x : ℕ}
      (b : UInt8) : Trace rs obs h live → (p, n) ∈ live → p ≤ x → x < p + n →
      Trace rs obs { h with mem := write8 h.mem x b } live

/-- `mm_init` after `mem_reset_brk` makes the same empty heap of every heap. -/
theorem reinit_inv {h h' : Heap} {r : ℤ} (hstart : h.memStartBrk = 0)
    (hmax : h.memMaxAddr = MAX_HEAP) (hrun : reinit h = (h', r)) :
    r = 0 ∧ memHeapsize h' = 424 ∧ Inv h' [] [] fun _ => [] := by
  have hempty : (memResetBrk h).memBrk = 0 := hstart
  obtain ⟨hret, hrep⟩ := mmInit_rep_of_empty (e := memResetBrk h) hstart hmax hempty
  change (reinit h).2 = 0 at hret
  change Rep (reinit h).1 [] _ at hrep
  rw [hrun] at hret hrep
  refine ⟨hret, ?_, hrep, settled_nil, List.nodup_nil, by simp, fun p s h => absurd h (by simp)⟩
  rw [memHeapsize, hrep.startBrk, hrep.brk]
  rfl

/-- The heap size that goes with a sequence of blocks. -/
theorem Rep.heapsize_eq {h : Heap} {bs : List Block} {L : ℕ → List ℕ} (hr : Rep h bs L) :
    memHeapsize h = 424 + total Block.size bs := by
  rw [memHeapsize, hr.startBrk, Nat.sub_zero, hr.brk]

/-- **Every run** keeps the invariant of the allocator. -/
theorem Trace.inv {rs : List Request} {obs : List (ℤ × ℕ)} {h : Heap} {live : List (ℕ × ℕ)}
    (t : Trace rs obs h live) : ∃ bs L, Inv h live bs L := by
  induction t with
  | init contents hrun =>
      exact ⟨_, _, (reinit_inv (h := memInit 0 contents) rfl (by simp [memInit]) hrun).2.2⟩
  | reinit _ hrun ih =>
      obtain ⟨bs, L, hi⟩ := ih
      exact ⟨_, _, (reinit_inv hi.rep.startBrk hi.rep.maxAddr hrun).2.2⟩
  | call r _ _ hc hrun hsize ih =>
      obtain ⟨bs, L, hi⟩ := ih
      exact hi.kept hc hrun
  | store b _ hp hx hx' ih =>
      obtain ⟨bs, L, hi⟩ := ih
      exact ⟨bs, L, hi.store b hp hx hx'⟩

/-- One observation a request. -/
theorem Trace.length {rs : List Request} {obs : List (ℤ × ℕ)} {h : Heap}
    {live : List (ℕ × ℕ)} (t : Trace rs obs h live) : obs.length = rs.length := by
  induction t with
  | init => rfl
  | reinit _ _ ih => rw [List.length_cons, List.length_cons, ih]
  | call _ _ _ _ _ _ ih => rw [List.length_cons, List.length_cons, ih]
  | store _ _ _ _ _ ih => exact ih

/-! ## A call does the same to every heap -/

/-- **One call on two heaps** with the same blocks and lists: the second returns what the
first does, and the blocks and lists are the same again. -/
theorem Inv.call_same {h : Heap} {live : List (ℕ × ℕ)} {bs : List Block} {L : ℕ → List ℕ}
    {c : Call} (hi : Inv h live bs L) (hc : Legal live c) :
    (∃ bs' L' q, ∀ g, Inv g live bs L → ∃ g', c.run g = some (g', q) ∧
      Inv g' (c.after live q) bs' L') ∨
    ∀ g, Inv g live bs L → c.run g = none := by
  cases hi.rep.outcomes hi.settled hi.live hc with
  | @done bs' L' q es hstep _ hall =>
      refine Or.inl ⟨bs', L', q, fun g hg => ?_⟩
      obtain ⟨g', hrun, hrep, -⟩ := hall g hg.rep
      exact ⟨g', Call.run_of_logged hrun, hrep, hstep.settled hi.settled,
        hstep.live hi.settled hi.live⟩
  | refused hask hlt hfull hall =>
      refine Or.inl ⟨bs, L, 0, fun g hg => ⟨g, Call.run_of_logged (hall g hg.rep), ?_⟩⟩
      rw [hask.after hi.settled live]
      exact hg
  | overflow _ _ _ hall => exact Or.inr fun g hg => Call.run_of_error (hall g hg.rep)

/-! ## Two runs -/

/-- A run whose last request is `mm_init`: whatever was before, it returned 0 with the
empty heap. -/
theorem Trace.init_inv {rs : List Request} {obs : List (ℤ × ℕ)} {h : Heap}
    {live : List (ℕ × ℕ)} (t : Trace (.init :: rs) obs h live) :
    ∃ past, obs = (0, 424) :: past ∧ live = [] ∧ Inv h [] [] (fun _ => []) ∧
      (rs ≠ [] → ∃ h₀ live₀, Trace rs past h₀ live₀) := by
  generalize hrs : Request.init :: rs = w at t
  -- a store is impossible after `mm_init`, since nothing is live
  induction t generalizing rs with
  | init contents hrun =>
      obtain ⟨rfl, hsize, hi⟩ := reinit_inv (h := memInit 0 contents) rfl (by simp [memInit]) hrun
      cases hrs
      exact ⟨[], by rw [hsize], rfl, hi, fun hne => absurd rfl hne⟩
  | @reinit rs' obs' _ _ _ _ t hrun ih =>
      obtain ⟨bs, L, hi⟩ := t.inv
      obtain ⟨rfl, hsize, hi'⟩ := reinit_inv hi.rep.startBrk hi.rep.maxAddr hrun
      cases hrs
      exact ⟨obs', by rw [hsize], rfl, hi', fun _ => ⟨_, _, t⟩⟩
  | call r _ hcall _ _ _ _ =>
      cases hrs
      cases hcall
  | store b _ hp _ _ ih =>
      obtain ⟨past, hobs, hlive, -⟩ := ih hrs
      rw [hlive] at hp
      cases hp

/-- A run whose last request is a call: the client made it, and then only stored bytes. -/
theorem Trace.call_inv {rs : List Request} {obs : List (ℤ × ℕ)} {h : Heap}
    {live : List (ℕ × ℕ)} {r : Request} (hr : r ≠ .init) (t : Trace (r :: rs) obs h live) :
    ∃ obs₀ h₀ live₀ c h' q, Trace rs obs₀ h₀ live₀ ∧ r.call live₀ = some c ∧ Legal live₀ c ∧
      c.run h₀ = some (h', q) ∧ memHeapsize h' ≤ 2 ^ 24 ∧
      obs = ((q : ℤ), memHeapsize h) :: obs₀ ∧ memHeapsize h = memHeapsize h' ∧
      live = c.after live₀ q ∧ ∀ bs L, Inv h' live bs L → Inv h live bs L := by
  generalize hrs : r :: rs = w at t
  induction t with
  | init => cases hrs; exact absurd rfl hr
  | reinit => cases hrs; exact absurd rfl hr
  | @call _ obs₀ h₀ h' live₀ q c _ t hcall hc hrun hsize _ =>
      cases hrs
      exact ⟨obs₀, h₀, live₀, c, h', q, t, hcall, hc, hrun, hsize, rfl, rfl, rfl, fun _ _ => id⟩
  | store b _ hp hx hx' ih =>
      obtain ⟨obs₀, h₀, live₀, c, h', q, t, hcall, hc, hrun, hsize, hobs, heq, hlive, hinv⟩ := ih hrs
      exact ⟨obs₀, h₀, live₀, c, h', q, t, hcall, hc, hrun, hsize, hobs, heq, hlive,
        fun bs L hi => (hinv bs L hi).store b hp hx hx'⟩

/-- **Two runs with the same requests since an `mm_init`** observed the same, have the same
live blocks, and their heaps have the same blocks and free lists. -/
theorem Trace.determined {pass before₁ before₂ : List Request} {obs₁ obs₂ : List (ℤ × ℕ)}
    {h₁ h₂ : Heap} {live₁ live₂ : List (ℕ × ℕ)}
    (t₁ : Trace (pass ++ .init :: before₁) obs₁ h₁ live₁)
    (t₂ : Trace (pass ++ .init :: before₂) obs₂ h₂ live₂) :
    (∃ obs past₁ past₂, obs.length = pass.length + 1 ∧ obs₁ = obs ++ past₁ ∧
      obs₂ = obs ++ past₂) ∧
    live₁ = live₂ ∧ ∃ bs L, Inv h₁ live₁ bs L ∧ Inv h₂ live₁ bs L := by
  induction pass generalizing obs₁ obs₂ h₁ h₂ live₁ live₂ with
  | nil =>
      obtain ⟨past₁, hobs₁, rfl, hi₁, -⟩ := t₁.init_inv
      obtain ⟨past₂, hobs₂, rfl, hi₂, -⟩ := t₂.init_inv
      exact ⟨⟨[(0, 424)], past₁, past₂, rfl, hobs₁, hobs₂⟩, rfl, _, _, hi₁, hi₂⟩
  | cons r pass ih =>
      by_cases hr : r = .init
      · -- `mm_init` again: nothing of the pass so far is left
        subst hr
        obtain ⟨obs₁', rfl, rfl, hi₁, hpast₁⟩ := t₁.init_inv
        obtain ⟨obs₂', rfl, rfl, hi₂, hpast₂⟩ := t₂.init_inv
        obtain ⟨g₁, live, s₁⟩ := hpast₁ (by simp)
        obtain ⟨g₂, live', s₂⟩ := hpast₂ (by simp)
        obtain ⟨⟨obs, past₁, past₂, hlen, rfl, rfl⟩, -, -⟩ := ih s₁ s₂
        exact ⟨⟨(0, 424) :: obs, past₁, past₂, by simp [hlen], rfl, rfl⟩, rfl, _, _, hi₁, hi₂⟩
      · obtain ⟨obs₁', g₁, live, c, g₁', q, s₁, hcall, hc, hrun₁, hsize₁, rfl, heq₁, rfl, hkeep₁⟩ :=
          t₁.call_inv hr
        obtain ⟨obs₂', g₂, live', c', g₂', q', s₂, hcall', -, hrun₂, -, rfl, heq₂, rfl, hkeep₂⟩ :=
          t₂.call_inv hr
        obtain ⟨⟨obs, past₁, past₂, hlen, rfl, rfl⟩, rfl, bs, L, hi₁, hi₂⟩ := ih s₁ s₂
        -- the same live blocks, so the same choice is the same call
        obtain rfl : c = c' := Option.some.inj (hcall.symm.trans hcall')
        rcases hi₁.call_same hc with ⟨bs', L', k, hsame⟩ | hnone
        · obtain ⟨k₁, hk₁, hi₁'⟩ := hsame g₁ hi₁
          obtain ⟨k₂, hk₂, hi₂'⟩ := hsame g₂ hi₂
          obtain ⟨rfl, rfl⟩ := Prod.mk.inj (Option.some.inj (hrun₁.symm.trans hk₁))
          obtain ⟨rfl, rfl⟩ := Prod.mk.inj (Option.some.inj (hrun₂.symm.trans hk₂))
          have hsize : memHeapsize h₁ = memHeapsize h₂ := by
            rw [heq₁, heq₂, hi₁'.rep.heapsize_eq, hi₂'.rep.heapsize_eq]
          refine ⟨⟨_ :: obs, past₁, past₂, by simp [hlen], rfl, by rw [hsize]; rfl⟩, rfl, bs', L', ?_, ?_⟩
          · exact hkeep₁ bs' L' hi₁'
          · exact hkeep₂ bs' L' hi₂'
        · exact absurd ((hnone g₁ hi₁).symm.trans hrun₁) (by simp)

/-- **Placement does not depend on the contents of the memory.**  Two runs that made the
same requests since an `mm_init`, on heaps with any bytes and with any stores into live
payloads, observed the same pointers and heap sizes.  A call that now returns in one of
them returns the same in the other.  With nothing before that `mm_init` these are all the
observations of the run. -/
theorem placement_same {pass before₁ before₂ : List Request} {obs₁ obs₂ : List (ℤ × ℕ)}
    {h₁ h₂ : Heap} {live₁ live₂ : List (ℕ × ℕ)}
    (t₁ : Trace (pass ++ .init :: before₁) obs₁ h₁ live₁)
    (t₂ : Trace (pass ++ .init :: before₂) obs₂ h₂ live₂) :
    (∃ obs past₁ past₂, obs.length = pass.length + 1 ∧
      past₁.length = before₁.length ∧ past₂.length = before₂.length ∧
      obs₁ = obs ++ past₁ ∧ obs₂ = obs ++ past₂) ∧
    live₁ = live₂ ∧
    ∀ c h₁' q, Legal live₁ c → c.run h₁ = some (h₁', q) → memHeapsize h₁' ≤ 2 ^ 24 →
      ∃ h₂', c.run h₂ = some (h₂', q) ∧ memHeapsize h₂' = memHeapsize h₁' := by
  have hlen₁ := t₁.length
  have hlen₂ := t₂.length
  obtain ⟨⟨obs, past₁, past₂, hlen, rfl, rfl⟩, rfl, bs, L, hi₁, hi₂⟩ := t₁.determined t₂
  simp only [List.length_append, List.length_cons] at hlen₁ hlen₂
  refine ⟨⟨obs, past₁, past₂, hlen, by omega, by omega, rfl, rfl⟩, rfl, ?_⟩
  intro c h₁' q hc hrun hsize
  rcases hi₁.call_same hc with ⟨bs', L', k, hsame⟩ | hnone
  · obtain ⟨g₁, hg₁, hi₁'⟩ := hsame h₁ hi₁
    obtain ⟨g₂, hg₂, hi₂'⟩ := hsame h₂ hi₂
    obtain ⟨rfl, rfl⟩ := Prod.mk.inj (Option.some.inj (hrun.symm.trans hg₁))
    exact ⟨g₂, hg₂, by rw [hi₁'.rep.heapsize_eq, hi₂'.rep.heapsize_eq]⟩
  · exact absurd ((hnone h₁ hi₁).symm.trans hrun) (by simp)

/-- A first request of 100 bytes, on any heap on which it evaluates to the pointer 424. -/
theorem trace_first {contents : Mem}
    (hval : (Call.run (reinit (memInit 0 contents)).1 (.malloc 100)).map
      (fun r => (memHeapsize r.1, r.2)) = some (536, 424)) :
    ∃ obs h, Trace [.malloc 100, .init] obs h [(424, 100)] := by
  obtain ⟨⟨h, p⟩, hrun, hp⟩ := Option.map_eq_some_iff.mp hval
  obtain ⟨hsize, rfl⟩ := Prod.mk.inj hp
  simp only at hsize
  have t : Trace [.init] [((reinit (memInit 0 contents)).2,
      memHeapsize (reinit (memInit 0 contents)).1)] (reinit (memInit 0 contents)).1 [] :=
    Trace.init contents Prod.mk.eta.symm
  exact ⟨_, h, Trace.call (c := .malloc 100) (.malloc 100) t rfl (by decide) hrun (by omega)⟩

/-- The same first request on a heap of zeroes, whose client stores a byte, and on a heap of
`0xff`. -/
theorem placement_same_first : ∃ (obs₁ obs₂ : List (ℤ × ℕ)) (h₁ h₂ : Heap),
    Trace [.malloc 100, .init] obs₁ h₁ [(424, 100)] ∧
    Trace [.malloc 100, .init] obs₂ { h₂ with mem := write8 h₂.mem 430 7 } [(424, 100)] ∧
    obs₁ = obs₂ := by
  obtain ⟨obs₁, h₁, t₁⟩ := @trace_first (fun _ => 0xff) (by decide +kernel)
  obtain ⟨obs₂, h₂, t₂⟩ := @trace_first (fun _ => 0) (by decide +kernel)
  have t₂' := Trace.store (p := 424) (n := 100) (x := 430) 7 t₂ (by simp) (by decide) (by decide)
  obtain ⟨obs, past₁, past₂, -, hp₁, hp₂, hobs₁, hobs₂⟩ :=
    (@placement_same [.malloc 100] [] [] _ _ _ _ _ _ t₁ t₂').1
  refine ⟨obs₁, obs₂, h₁, h₂, t₁, t₂', ?_⟩
  rw [hobs₁, hobs₂, List.length_eq_zero_iff.mp hp₁, List.length_eq_zero_iff.mp hp₂]

end Malloc
