/-
# Trace files

`read_trace` of `mdriver.c` reads the header and the requests of a trace with `fscanf`, into an
array that has room for `num_ops` requests, and asserts at the end that the header is right.
What C leaves undefined is a stop of its own: a number that is too great for its type, a word
that is too long for its array, a request behind the end of the array.  The conversions that
find nothing leave their variables as they are.

The code is built for 32 bits: a `traceop_t` has 12 bytes, a pointer and a `size_t` have 4.
-/
import CsappLabs.Driver
import CsappLabs.Scanf

open Scanf

namespace TraceFile

/-- Why there is no trace. -/
inductive Stop
  | undefined
  | unixError
  | bogus (c : UInt8)
  | assertion
  deriving DecidableEq

/-- A request as it is stored in a `traceop_t`, in `int`s. -/
inductive StoredOp
  | alloc (index size : ℤ)
  | free (index : ℤ)
  | realloc (index size : ℤ)
  deriving DecidableEq

/-- `trace_t`. -/
structure TraceT where
  suggHeapsize : ℤ
  numIds : ℤ
  numOps : ℤ
  weight : ℤ
  ops : List StoredOp
  deriving DecidableEq

/-- The files, and which calls of `malloc` return a block: the calls are counted from 1. -/
structure Env where
  files : List UInt8 → Option (List UInt8)
  mallocs : ℕ → ℕ → Bool

/-- What the variables hold before they are read: the record comes from `malloc`, and `size` is
not initialised. -/
structure Leftover where
  suggHeapsize : Int32
  numIds : Int32
  numOps : Int32
  weight : Int32
  size : UInt32

def MAXLINE : ℕ := 1024

def charA : UInt8 := 97
def charR : UInt8 := 114
def charF : UInt8 := 102
def charD : UInt8 := 100

/-- An `unsigned` stored in an `int`. -/
def toInt (n : ℕ) : ℤ := if n < 2 ^ 31 then n else n - 2 ^ 32

/-- The bytes of an array of `n` elements, in a `size_t`. -/
def bytes (n : ℤ) (size : ℕ) : ℕ := (n * size % 2 ^ 32).toNat

/-- Stops unless the condition holds. -/
def check (p : Prop) [Decidable p] (s : Stop) : Except Stop Unit :=
  if p then .ok () else .error s

/-! ## The conversions -/

/-- `fscanf` with `"%d"`: the variable, and the rest of the file. -/
def scanInt (x : ℤ) (s : List UInt8) : Except Stop (ℤ × List UInt8) :=
  match integer s with
  | .item z rest => if -2 ^ 31 ≤ z ∧ z < 2 ^ 31 then .ok (z, rest) else .error .undefined
  | .mismatch rest => .ok (x, rest)
  | .eof => .ok (x, [])

/-- `"%u"`, and whether there was a number. -/
def scanUnsigned (x : ℕ) (s : List UInt8) : Except Stop (Bool × ℕ × List UInt8) :=
  match integer s with
  | .item z rest =>
      if z.natAbs < 2 ^ 32 then .ok (true, (z % 2 ^ 32).toNat, rest) else .error .undefined
  | .mismatch rest => .ok (false, x, rest)
  | .eof => .ok (false, x, [])

/-- The variables of the loop. -/
structure Reader where
  index : ℕ
  size : ℕ
  maxIndex : ℕ
  input : List UInt8

/-- `fscanf(tracefile, "%u %u", &index, &size)`: the second conversion is made after the first
one has succeeded. -/
def Reader.scanPair (r : Reader) : Except Stop Reader := do
  let (found, index, input) ← scanUnsigned r.index r.input
  if found then
    let (_, size, input) ← scanUnsigned r.size input
    return { r with index, size, input }
  else return { r with index, input }

/-- `max_index = (index > max_index) ? index : max_index`. -/
def Reader.noteIndex (r : Reader) : Reader :=
  { r with maxIndex := if r.index > r.maxIndex then r.index else r.maxIndex }

/-- The letter at the end of `"%ud"`. -/
def skipD (s : List UInt8) : List UInt8 := if s.head? = some charD then s.tail else s

/-- `fscanf(tracefile, "%ud", &index)`. -/
def Reader.scanFree (r : Reader) : Except Stop Reader := do
  let (found, index, input) ← scanUnsigned r.index r.input
  return { r with index, input := if found then skipD input else input }

/-- The `switch` on `type[0]`. -/
def Reader.request (c : UInt8) (r : Reader) : Except Stop (StoredOp × Reader) :=
  if c = charA then do
    let r ← r.scanPair
    return (.alloc (toInt r.index) (toInt r.size), r.noteIndex)
  else if c = charR then do
    let r ← r.scanPair
    return (.realloc (toInt r.index) (toInt r.size), r.noteIndex)
  else if c = charF then do
    let r ← r.scanFree
    return (.free (toInt r.index), r)
  else .error (.bogus c)

/-! ## The file goes on -/

theorem check_eq_ok {p : Prop} [Decidable p] {s : Stop} {u : Unit} :
    check p s = .ok u ↔ p := by
  rw [check]
  split_ifs with hp
  · exact iff_of_true rfl hp
  · exact iff_of_false (by simp) hp

/-- The result of a first part that was good. -/
theorem bind_eq_ok {α β : Type} {x : Except Stop α} {f : α → Except Stop β} {b : β} :
    (x >>= f) = .ok b ↔ ∃ a, x = .ok a ∧ f a = .ok b := by
  cases x with
  | error e => exact iff_of_false (by rintro ⟨⟩) (by rintro ⟨a, ⟨⟩, -⟩)
  | ok a =>
      constructor
      · intro h
        exact ⟨a, rfl, h⟩
      · rintro ⟨a', heq, h⟩
        cases heq
        exact h

theorem scanUnsigned_length {x y : ℕ} {s rest : List UInt8} {found : Bool}
    (h : scanUnsigned x s = .ok (found, y, rest)) : rest.length ≤ s.length := by
  rw [scanUnsigned] at h
  rcases hint : integer s with ⟨z, rest'⟩ | ⟨rest'⟩ | _
  · rw [hint] at h
    simp only at h
    split_ifs at h
    cases h
    exact integer_length (.inl ⟨z, hint⟩)
  · rw [hint] at h
    cases h
    exact integer_length (.inr hint)
  · rw [hint] at h
    cases h
    exact Nat.zero_le _

theorem Reader.scanPair_length {r r' : Reader} (h : r.scanPair = .ok r') :
    r'.input.length ≤ r.input.length := by
  rw [Reader.scanPair] at h
  obtain ⟨⟨found, index, input⟩, hfirst, hrest⟩ := bind_eq_ok.mp h
  have hle := scanUnsigned_length hfirst
  cases found with
  | false =>
      cases hrest
      exact hle
  | true =>
      obtain ⟨⟨found', size, input'⟩, hsecond, hend⟩ := bind_eq_ok.mp hrest
      cases hend
      exact (scanUnsigned_length hsecond).trans hle

theorem Reader.scanFree_length {r r' : Reader} (h : r.scanFree = .ok r') :
    r'.input.length ≤ r.input.length := by
  rw [Reader.scanFree] at h
  obtain ⟨⟨found, index, input⟩, hfirst, hrest⟩ := bind_eq_ok.mp h
  have hle := scanUnsigned_length hfirst
  have hskip : (skipD input).length ≤ input.length := by
    rw [skipD]
    split_ifs
    · rw [List.length_tail]
      exact Nat.sub_le _ _
    · rfl
  cases hrest
  cases found with
  | false => exact hle
  | true => exact hskip.trans hle

theorem Reader.request_length {c : UInt8} {r r' : Reader} {op : StoredOp}
    (h : r.request c = .ok (op, r')) : r'.input.length ≤ r.input.length := by
  rw [Reader.request] at h
  split_ifs at h
  · obtain ⟨r₁, hscan, hend⟩ := bind_eq_ok.mp h
    cases hend
    show r₁.input.length ≤ r.input.length
    exact Reader.scanPair_length hscan
  · obtain ⟨r₁, hscan, hend⟩ := bind_eq_ok.mp h
    cases hend
    show r₁.input.length ≤ r.input.length
    exact Reader.scanPair_length hscan
  · obtain ⟨r₁, hscan, hend⟩ := bind_eq_ok.mp h
    cases hend
    exact Reader.scanFree_length hscan

/-! ## The function -/

/-- The loop over the requests, from the request `opIndex` on, with room for so many requests in
the array: the requests, and `max_index` at the end. -/
def readLoop (room opIndex : ℕ) (r : Reader) : Except Stop (List StoredOp × ℕ) :=
  match _ : word r.input with
  | none => .ok ([], r.maxIndex)
  | some (type, rest) =>
      if MAXLINE ≤ type.length then .error .undefined
      else
        match hrequest : ({ r with input := rest } : Reader).request (type.headD 0) with
        | .error e => .error e
        | .ok (op, r') =>
            if room ≤ opIndex then .error .undefined
            else (readLoop room (opIndex + 1) r').map fun x => (op :: x.1, x.2)
termination_by r.input.length
decreasing_by
  exact lt_of_le_of_lt (Reader.request_length hrequest) (word_length (by assumption)).1

/-- `fopen`, and the message when it fails. -/
def openTrace (env : Env) (path : List UInt8) : Except Stop (List UInt8) :=
  match env.files path with
  | some s => .ok s
  | none => if path.length + 29 < MAXLINE then .error .unixError else .error .undefined

/-- `read_trace`. -/
def readTrace (env : Env) (g : Leftover) (tracedir filename : List UInt8) :
    Except Stop TraceT := do
  check (env.mallocs 1 28 = true) .unixError
  check ((tracedir ++ filename).length < MAXLINE) .undefined
  let input ← openTrace env (tracedir ++ filename)
  let (suggHeapsize, input) ← scanInt g.suggHeapsize.toInt input
  let (numIds, input) ← scanInt g.numIds.toInt input
  let (numOps, input) ← scanInt g.numOps.toInt input
  let (weight, input) ← scanInt g.weight.toInt input
  check (env.mallocs 2 (bytes numOps 12) = true) .unixError
  check (env.mallocs 3 (bytes numIds 4) = true) .unixError
  check (env.mallocs 4 (bytes numIds 4) = true) .unixError
  let (ops, maxIndex) ← readLoop (bytes numOps 12 / 12) 0 ⟨0, g.size.toNat, 0, input⟩
  -- the difference is one of `int`s, and `max_index` and `op_index` are unsigned
  check (-2 ^ 31 ≤ numIds - 1) .undefined
  check ((maxIndex : ℤ) = (numIds - 1) % 2 ^ 32) .assertion
  check (numOps % 2 ^ 32 = ops.length) .assertion
  return ⟨suggHeapsize, numIds, numOps, weight, ops⟩

end TraceFile
