/-
# The slots of the connection buffer

`sbuf_insert` and `sbuf_remove` increment an `int` and take it modulo `n` at each use.  The
`k`-th insertion writes to the slot `slot n k`, for as long as the buffer lives
(`counted_of_run`).

After `2 ^ 31` increments the counter is negative, and so is the remainder, unless `n`
divides it.  No other `n` than 1 divides both `2 ^ 31` and `2 ^ 31 - 1`, so the indices
stay in range up to there and no further (`in_slots_iff`).
-/
import CsappLabs.Sbuf

namespace Sbuf

/-! ## The counter and the slots -/

/-- The counter after `k` increments. -/
def counter : ℕ → ℤ
  | 0 => 0
  | k + 1 => Lru.incInt (counter k)

/-- The slot of the `k`-th insertion or removal. -/
def slot (n k : ℕ) : ℤ := (counter k).tmod n

/-- The slots of the first `k` insertions or removals are in the buffer. -/
def InBuffer (n k : ℕ) : Prop := ∀ j < k, 0 ≤ slot n (j + 1) ∧ slot n (j + 1) < n

/-- Each of the first `k` of them follows the one before, around the buffer. -/
def Cyclic (n k : ℕ) : Prop := ∀ j < k, slot n (j + 1) = (slot n j + 1) % n

/-- The counts for which this goes well: a single slot, a counter that did not overflow, or one
that overflowed just now to a multiple of `n`. -/
def Fits (n k : ℕ) : Prop := n = 1 ∨ k < 2 ^ 31 ∨ (k = 2 ^ 31 ∧ n ∣ 2 ^ 31)

instance (n k : ℕ) : Decidable (Fits n k) := inferInstanceAs (Decidable (_ ∨ _ ∨ _ ∧ _))

theorem counter_of_lt {k : ℕ} (h : k < 2 ^ 31) : counter k = k := by
  induction k with
  | zero => rfl
  | succ k ih =>
      rw [counter, ih (by omega), incInt_of_lt (by omega)]

/-- The counter when it overflows. -/
theorem counter_overflow : counter (2 ^ 31) = -(2 ^ 31) := by
  obtain ⟨k, hk⟩ : ∃ k, k + 1 = 2 ^ 31 := ⟨2 ^ 31 - 1, by norm_num⟩
  rw [← hk, counter, counter_of_lt (by omega), Lru.incInt, if_pos (by omega)]

/-- The counter after that. -/
theorem counter_overflowed : counter (2 ^ 31 + 1) = -(2 ^ 31 - 1) := by
  rw [counter, counter_overflow, Lru.incInt, if_neg (by norm_num)]
  norm_num

theorem slot_of_lt {n k : ℕ} (h : k < 2 ^ 31) : slot n k = ((k % n : ℕ) : ℤ) := by
  rw [slot, counter_of_lt h, tmod_natCast]

/-- The slot of a negative counter. -/
theorem slot_of_neg {n k a : ℕ} (h : counter k = -(a : ℤ)) :
    slot n k = -((a % n : ℕ) : ℤ) := by
  rw [slot, h, Int.neg_tmod, tmod_natCast]

theorem slot_one (k : ℕ) : slot 1 k = 0 := Int.tmod_one (counter k)

theorem slot_overflow (n : ℕ) : slot n (2 ^ 31) = -((2 ^ 31 % n : ℕ) : ℤ) :=
  slot_of_neg (by rw [counter_overflow]; norm_num)

theorem slot_overflowed (n : ℕ) : slot n (2 ^ 31 + 1) = -(((2 ^ 31 - 1) % n : ℕ) : ℤ) :=
  slot_of_neg (by rw [counter_overflowed]; norm_num)

/-- Only 1 divides two neighbours. -/
theorem eq_one_of_dvd {n : ℕ} (h : n ∣ 2 ^ 31) (h' : n ∣ 2 ^ 31 - 1) : n = 1 := by
  have hdiff := Nat.dvd_sub h h'
  rwa [show 2 ^ 31 - (2 ^ 31 - 1) = 1 by norm_num, Nat.dvd_one] at hdiff

/-- **Past the overflow a slot is negative.** -/
theorem InBuffer.fits {n k : ℕ} (h : InBuffer n k) : Fits n k := by
  by_cases hlt : k < 2 ^ 31
  · exact Or.inr (Or.inl hlt)
  · -- the overflow itself: the slot is in the buffer for a multiple of `n` only
    have hfirst := (h (2 ^ 31 - 1) (by omega)).1
    rw [show 2 ^ 31 - 1 + 1 = 2 ^ 31 by norm_num, slot_overflow] at hfirst
    have hdvd : n ∣ 2 ^ 31 := Nat.dvd_of_mod_eq_zero (by omega)
    by_cases heq : k = 2 ^ 31
    · exact Or.inr (Or.inr ⟨heq, hdvd⟩)
    · have hsecond := (h (2 ^ 31) (by omega)).1
      rw [slot_overflowed] at hsecond
      exact Or.inl (eq_one_of_dvd hdvd (Nat.dvd_of_mod_eq_zero (by omega)))

/-- **Up to the overflow the slots go around the buffer.** -/
theorem Fits.cyclic {n k : ℕ} (hn : 1 ≤ n) (h : Fits n k) : InBuffer n k ∧ Cyclic n k := by
  rcases h with rfl | h
  · exact ⟨fun j _ => by simp [slot_one], fun j _ => by simp [slot_one]⟩
  · -- the slot is that of the count
    have hslot : ∀ j < k,
        slot n (j + 1) = (((j + 1) % n : ℕ) : ℤ) ∧ slot n j = ((j % n : ℕ) : ℤ) := by
      intro j hj
      have hle : j < 2 ^ 31 := by omega
      refine ⟨?_, slot_of_lt hle⟩
      by_cases hlt : j + 1 < 2 ^ 31
      · exact slot_of_lt hlt
      · have heq : j + 1 = 2 ^ 31 := by omega
        have hdvd : n ∣ 2 ^ 31 := by
          rcases h with h | ⟨-, h⟩
          · omega
          · exact h
        rw [heq, slot_overflow, Nat.mod_eq_zero_of_dvd hdvd]
        rfl
    constructor
    · intro j hj
      rw [(hslot j hj).1]
      have := Nat.mod_lt (j + 1) hn
      omega
    · intro j hj
      rw [(hslot j hj).1, (hslot j hj).2]
      push_cast
      rw [Int.emod_add_emod]

/-! ## Runs -/

section

variable {ι : Type}

/-- `rear % n`, the slot of the last insertion. -/
def State.rearSlot (s : State ι) : ℤ := s.sp.rear.tmod s.sp.n

/-- `front % n`, the slot of the last removal. -/
def State.frontSlot (s : State ι) : ℤ := s.sp.front.tmod s.sp.n

/-- The counters of the buffer count the accesses, with the overflow of an `int`. -/
structure Counted (n : ℕ) (s : State ι) : Prop where
  size : s.sp.n = n
  rear : s.sp.rear = counter s.inserted.length
  front : s.sp.front = counter s.removed.length

theorem Counted.rearSlot_eq {n : ℕ} {s : State ι} (h : Counted n s) :
    s.rearSlot = slot n s.inserted.length := by
  rw [State.rearSlot, h.size, h.rear, slot]

theorem Counted.frontSlot_eq {n : ℕ} {s : State ι} (h : Counted n s) :
    s.frontSlot = slot n s.removed.length := by
  rw [State.frontSlot, h.size, h.front, slot]

variable [DecidableEq ι]

/-- **Every step counts**, however many there were before. -/
theorem Counted.step {n : ℕ} {s s' : State ι} {i : ι} {call : Call} (h : Counted n s)
    (hstep : step s i call = some s') : Counted n s' := by
  rcases step_cases hstep with ⟨item, -, rfl⟩ | ⟨-, rfl⟩ | ⟨p, sp, _, _, rfl, hmoves⟩
  · refine ⟨h.size, ?_, h.front⟩
    show Lru.incInt s.sp.rear = counter (s.inserted ++ [(i, item)]).length
    rw [List.length_append, List.length_singleton, counter, h.rear]
  · refine ⟨h.size, h.rear, ?_⟩
    show Lru.incInt s.sp.front = counter (s.removed ++ [_]).length
    rw [List.length_append, List.length_singleton, counter, h.front]
  · obtain ⟨-, hn, hfront, hrear⟩ := hmoves.buffer
    exact ⟨hn.trans h.size, hrear.trans h.rear, hfront.trans h.front⟩

theorem counted_of_run {n : ℕ} {s : State ι} (h : Relation.ReflTransGen Step (start n) s) :
    Counted n s := by
  induction h with
  | refl => exact ⟨rfl, rfl, rfl⟩
  | tail _ hstep ih =>
      obtain ⟨i, call, hstep⟩ := hstep
      exact ih.step hstep

/-- The insertions in the runs to `t`: each writes to a slot of the buffer, the one after the
slot before. -/
def InsertsWell (n : ℕ) (t : State ι) : Prop :=
  ∀ s s' i call item, Relation.ReflTransGen Step (start n) s → s.phase i = .iWrite item →
    step s i call = some s' → Relation.ReflTransGen Step s' t →
    (0 ≤ s'.rearSlot ∧ s'.rearSlot < n) ∧ s'.rearSlot = (s.rearSlot + 1) % n

/-- The removals in the runs to `t`: each reads a slot of the buffer. -/
def RemovesWell (n : ℕ) (t : State ι) : Prop :=
  ∀ s s' i call, Relation.ReflTransGen Step (start n) s → s.phase i = .rRead →
    step s i call = some s' → Relation.ReflTransGen Step s' t →
    0 ≤ s'.frontSlot ∧ s'.frontSlot < n

/-- What a run adds to the logs. -/
theorem length_of_run {s t : State ι} (h : Relation.ReflTransGen Step s t) :
    s.inserted.length ≤ t.inserted.length ∧ s.removed.length ≤ t.removed.length := by
  induction h with
  | refl => exact ⟨le_rfl, le_rfl⟩
  | tail _ hstep ih =>
      obtain ⟨i, call, hstep⟩ := hstep
      have hins := (prefix_of_step hstep).1.length_le
      have hrem := (prefix_of_step hstep).2.length_le
      omega

/-- The write of an item. -/
theorem write_of_step {s s' : State ι} {i : ι} {call : Call} {item : ℤ}
    (hp : s.phase i = .iWrite item) (h : step s i call = some s') :
    s'.inserted.length = s.inserted.length + 1 := by
  simp only [step, hp, Option.some.injEq] at h
  subst h
  simp

/-- The read of an item. -/
theorem removed_of_step {s s' : State ι} {i : ι} {call : Call} (hp : s.phase i = .rRead)
    (h : step s i call = some s') : s'.removed.length = s.removed.length + 1 := by
  simp only [step, hp, Option.some.injEq] at h
  subst h
  simp

/-- **Every count is passed**: the `k`-th insertion, and the `k`-th removal, of a run. -/
theorem exists_insert {n k : ℕ} {t : State ι} (h : Relation.ReflTransGen Step (start n) t)
    (hk : k < t.inserted.length) :
    ∃ s s' i call item, Relation.ReflTransGen Step (start n) s ∧ s.phase i = .iWrite item ∧
      step s i call = some s' ∧ Relation.ReflTransGen Step s' t ∧ s.inserted.length = k := by
  induction h with
  | refl => exact absurd hk (Nat.not_lt_zero k)
  | @tail s t hrun hstep ih =>
      by_cases hlt : k < s.inserted.length
      · obtain ⟨s₁, s₂, i, call, item, hrun₁, hp, hstep₁, hrun₂, hlen⟩ := ih hlt
        exact ⟨s₁, s₂, i, call, item, hrun₁, hp, hstep₁, hrun₂.tail hstep, hlen⟩
      · obtain ⟨i, call, hstep⟩ := hstep
        -- the last step of the run writes
        rcases step_cases hstep with ⟨item, hp, -⟩ | ⟨-, rfl⟩ | ⟨p, sp, _, _, rfl, -⟩
        · have hlen := write_of_step hp hstep
          exact ⟨s, t, i, call, item, hrun, hp, hstep, .refl, by omega⟩
        · exact absurd hk hlt
        · exact absurd hk hlt

theorem exists_remove {n k : ℕ} {t : State ι} (h : Relation.ReflTransGen Step (start n) t)
    (hk : k < t.removed.length) :
    ∃ s s' i call, Relation.ReflTransGen Step (start n) s ∧ s.phase i = .rRead ∧
      step s i call = some s' ∧ Relation.ReflTransGen Step s' t ∧ s.removed.length = k := by
  induction h with
  | refl => exact absurd hk (Nat.not_lt_zero k)
  | @tail s t hrun hstep ih =>
      by_cases hlt : k < s.removed.length
      · obtain ⟨s₁, s₂, i, call, hrun₁, hp, hstep₁, hrun₂, hlen⟩ := ih hlt
        exact ⟨s₁, s₂, i, call, hrun₁, hp, hstep₁, hrun₂.tail hstep, hlen⟩
      · obtain ⟨i, call, hstep⟩ := hstep
        rcases step_cases hstep with ⟨item, -, rfl⟩ | ⟨hp, -⟩ | ⟨p, sp, _, _, rfl, -⟩
        · exact absurd hk hlt
        · have hlen := removed_of_step hp hstep
          exact ⟨s, t, i, call, hrun, hp, hstep, .refl, by omega⟩
        · exact absurd hk hlt

/-- The insertions of a run use the slots of their numbers. -/
theorem insertsWell_iff {n : ℕ} {t : State ι} (h : Relation.ReflTransGen Step (start n) t) :
    InsertsWell n t ↔ InBuffer n t.inserted.length ∧ Cyclic n t.inserted.length := by
  constructor
  · intro hwell
    have hslots : ∀ j < t.inserted.length, (0 ≤ slot n (j + 1) ∧ slot n (j + 1) < n) ∧
        slot n (j + 1) = (slot n j + 1) % n := by
      intro j hj
      obtain ⟨s, s', i, call, item, hrun, hp, hstep, hrun', rfl⟩ := exists_insert h hj
      have hc := counted_of_run hrun
      have hs := hwell s s' i call item hrun hp hstep hrun'
      rwa [(hc.step hstep).rearSlot_eq, hc.rearSlot_eq, write_of_step hp hstep] at hs
    exact ⟨fun j hj => (hslots j hj).1, fun j hj => (hslots j hj).2⟩
  · rintro ⟨hin, hcyclic⟩ s s' i call item hrun hp hstep hrun'
    have hc := counted_of_run hrun
    have hlen := write_of_step hp hstep
    have hle := (length_of_run hrun').1
    rw [(hc.step hstep).rearSlot_eq, hc.rearSlot_eq, hlen]
    exact ⟨hin _ (by omega), hcyclic _ (by omega)⟩

/-- The removals of a run use the slots of their numbers. -/
theorem removesWell_iff {n : ℕ} {t : State ι} (h : Relation.ReflTransGen Step (start n) t) :
    RemovesWell n t ↔ InBuffer n t.removed.length := by
  constructor
  · intro hwell j hj
    obtain ⟨s, s', i, call, hrun, hp, hstep, hrun', rfl⟩ := exists_remove h hj
    have hs := hwell s s' i call hrun hp hstep hrun'
    rwa [((counted_of_run hrun).step hstep).frontSlot_eq, removed_of_step hp hstep] at hs
  · intro hin s s' i call hrun hp hstep hrun'
    have hlen := removed_of_step hp hstep
    have hle := (length_of_run hrun').2
    rw [((counted_of_run hrun).step hstep).frontSlot_eq, hlen]
    exact hin _ (by omega)

/-- **How long the indices stay in range**: in every run, the slots of all insertions and
removals are in the buffer, and those of insertions go around it, exactly when both counts
fit. -/
theorem in_slots_iff {n : ℕ} (hn : 1 ≤ n) {t : State ι}
    (hrun : Relation.ReflTransGen Step (start n) t) :
    InsertsWell n t ∧ RemovesWell n t ↔
      Fits n t.inserted.length ∧ Fits n t.removed.length := by
  rw [insertsWell_iff hrun, removesWell_iff hrun]
  constructor
  · exact fun h => ⟨h.1.1.fits, h.2.fits⟩
  · exact fun h => ⟨h.1.cyclic hn, (h.2.cyclic hn).1⟩

end

/-- Two items through a buffer of two slots. -/
theorem in_slots_two : ∃ s : State (Fin 2), s.inserted = [(0, 7), (0, 8)] ∧ s.removed = [(1, 7)] ∧
    InsertsWell 2 s ∧ RemovesWell 2 s := by
  have hval : (runSteps (start 2 : State (Fin 2)) (List.replicate 5 (0, .insert 7) ++
      List.replicate 5 (1, .remove) ++ List.replicate 3 (0, .insert 8))).map
      (fun s => (s.inserted, s.removed)) = some ([(0, 7), (0, 8)], [(1, 7)]) := by decide
  obtain ⟨s, hs, hlogs⟩ := Option.map_eq_some_iff.mp hval
  obtain ⟨hins, hrem⟩ := Prod.mk.inj hlogs
  obtain ⟨hinserts, hremoves⟩ := (in_slots_iff (by decide) (run_of_runSteps hs)).mpr
    ⟨by rw [hins]; decide, by rw [hrem]; decide⟩
  exact ⟨s, hins, hrem, hinserts, hremoves⟩

/-- A buffer of `m + 1` slots that nobody uses at the moment. -/
def idle (m : ℕ) (buf : ℤ → ℤ) (front rear : ℤ) (inserted removed : List (Unit × ℤ))
    (asked returned : Unit → List ℤ) : State Unit :=
  ⟨⟨buf, (m + 1 : ℕ), front, rear, 1, m + 1, 0⟩, fun _ => .out, inserted, removed, asked, returned⟩

/-- One more item goes through the buffer. -/
theorem idle_round (m : ℕ) (buf : ℤ → ℤ) (front rear : ℤ) (inserted removed : List (Unit × ℤ))
    (asked returned : Unit → List ℤ) :
    Relation.ReflTransGen Step (idle m buf front rear inserted removed asked returned)
      (let buf' := Function.update buf ((Lru.incInt rear).tmod (m + 1 : ℕ)) 7
      let item := buf' ((Lru.incInt front).tmod (m + 1 : ℕ))
      idle m buf' (Lru.incInt front) (Lru.incInt rear) (inserted ++ [((), 7)])
        (removed ++ [((), item)]) (Function.update asked () (asked () ++ [7]))
        (Function.update returned () (returned () ++ [item]))) :=
  @run_of_runSteps Unit _ (List.replicate 5 ((), .insert 7) ++ List.replicate 5 ((), .remove)) _ _
    rfl

/-- Any number of items can go through a buffer. -/
theorem exists_run (m k : ℕ) : ∃ t : State Unit,
    Relation.ReflTransGen Step (start (m + 1)) t ∧ t.inserted.length = k := by
  have hidle : ∃ buf front rear inserted removed asked returned,
      Relation.ReflTransGen Step (start (m + 1))
        (idle m buf front rear inserted removed asked returned) ∧ inserted.length = k := by
    induction k with
    | zero => exact ⟨_, _, _, [], _, _, _, .refl, rfl⟩
    | succ k ih =>
        obtain ⟨buf, front, rear, inserted, removed, asked, returned, hrun, rfl⟩ := ih
        exact ⟨_, _, _, _, _, _, _,
          hrun.trans (idle_round m buf front rear inserted removed asked returned), by simp⟩
  obtain ⟨buf, front, rear, inserted, removed, asked, returned, hrun, hlen⟩ := hidle
  exact ⟨_, hrun, hlen⟩

/-- After `2 ^ 31 + 1` connections the proxy, with its 16 slots, has left the buffer. -/
theorem not_in_slots : ¬ ∀ n, 1 ≤ n → ∀ t : State Unit,
    Relation.ReflTransGen Step (start n) t → InsertsWell n t ∧ RemovesWell n t := by
  intro h
  obtain ⟨t, hrun, hlen⟩ := exists_run 15 (2 ^ 31 + 1)
  have hfits := ((insertsWell_iff hrun).mp (h 16 (by decide) t hrun).1).1.fits
  rw [hlen] at hfits
  exact absurd hfits (by decide)

end Sbuf
