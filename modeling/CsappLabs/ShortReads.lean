/-
# Reads and writes with short counts

A call of `read` may return fewer bytes than it was asked for, and a signal may interrupt
it; `write` is the same.  `Source` is what a descriptor has still to deliver, cut up as the
calls will find it, and `Sink` is what a descriptor will accept.

A `Reader` is anything that is read from in this way, with the law that its calls keep.
`Reader.readn` calls it until the bytes are there or there are no more, and
`Reader.readn_filled` says what it returns: the cuts and the interruptions do not matter.
-/
import CsappLabs.CString

open CString

namespace ShortReads

/-! ## Descriptors -/

/-- What `read` returns: some bytes, of which there are none at EOF, or -1, with `errno`
equal to `EINTR` or not. -/
inductive Reading
  | got (bytes : List UInt8)
  | interrupted
  | failed
  deriving DecidableEq

/-- What a call finds: bytes that arrived together, or a signal. -/
inductive Ready
  | arrived (c : UInt8) (bytes : List UInt8)
  | interrupted
  deriving DecidableEq

namespace Ready

/-- The bytes that arrived. -/
def bytes : Ready → List UInt8
  | arrived c bytes => c :: bytes
  | interrupted => []

/-- What is left of bytes that arrived together. -/
def rest : List UInt8 → List Ready
  | [] => []
  | c :: bytes => [arrived c bytes]

@[simp] theorem bytes_rest (bs : List UInt8) : ((rest bs).map bytes).flatten = bs := by
  cases bs <;> simp [rest, bytes]

theorem length_rest (bs : List UInt8) : (rest bs).length ≤ 1 := by
  cases bs <;> simp [rest]

end Ready

/-- What the calls on a descriptor will find, and whether an error or EOF follows. -/
structure Source where
  ready : List Ready
  fails : Bool
  deriving DecidableEq

namespace Source

/-- `read`, of at most `n` bytes. -/
def read (s : Source) (n : ℕ) : Reading × Source :=
  match s.ready with
  | [] => (if s.fails then .failed else .got [], s)
  | .interrupted :: ready => (.interrupted, { s with ready := ready })
  | .arrived c bytes :: ready =>
      (.got ((c :: bytes).take n), { s with ready := Ready.rest ((c :: bytes).drop n) ++ ready })

/-- The bytes that are still to come. -/
def pending (s : Source) : List UInt8 := (s.ready.map Ready.bytes).flatten

/-- A bound on the number of calls. -/
def size (s : Source) : ℕ := s.pending.length + s.ready.length

end Source

/-- What a call of `write` finds: room for some bytes, or a signal. -/
inductive Room
  | accepts (k : ℕ)
  | interrupted
  deriving DecidableEq

/-- What the calls on a descriptor will find; afterwards all is accepted, or nothing is. -/
structure Sink where
  room : List Room
  fails : Bool
  deriving DecidableEq

/-- What `write` returns: the number of bytes that were taken, or -1. -/
inductive Writing
  | took (k : ℕ)
  | interrupted
  | failed
  deriving DecidableEq

/-- `write`, of `n` bytes. -/
def Sink.write (s : Sink) (n : ℕ) : Writing × Sink :=
  match s.room with
  | [] => (if s.fails then .failed else .took n, s)
  | .interrupted :: room => (.interrupted, { s with room := room })
  | .accepts k :: room => (.took (min k n), { s with room := room })

/-- What a call of `write` may do. -/
inductive Sink.Wrote (s : Sink) (n : ℕ) : Writing → Sink → Prop
  | took {k : ℕ} {s' : Sink} : k + 1 ≤ n → s'.fails = s.fails → s'.room ⊆ s.room →
      s'.room.length ≤ s.room.length → Wrote s n (.took (k + 1)) s'
  | nothing {s' : Sink} : Room.accepts 0 ∈ s.room → s'.fails = s.fails → s'.room ⊆ s.room →
      s'.room.length < s.room.length → Wrote s n (.took 0) s'
  | interrupted {s' : Sink} : s'.fails = s.fails → s'.room ⊆ s.room →
      s'.room.length < s.room.length → Wrote s n .interrupted s'
  | failed : s.fails = true → Wrote s n .failed s

theorem Sink.write_wrote {s s' : Sink} {n : ℕ} {x : Writing} (hn : 0 < n)
    (h : s.write n = (x, s')) : s.Wrote n x s' := by
  obtain ⟨m, rfl⟩ : ∃ m, n = m + 1 := ⟨n - 1, by omega⟩
  obtain ⟨room, fails⟩ := s
  cases room with
  | nil =>
      cases fails with
      | false =>
          cases h
          exact .took le_rfl rfl (List.Subset.refl _) le_rfl
      | true =>
          cases h
          exact .failed rfl
  | cons found room =>
      have htail : room ⊆ found :: room := List.subset_cons_self found room
      cases found with
      | interrupted =>
          cases h
          exact .interrupted rfl htail (Nat.lt_succ_self _)
      | accepts k =>
          cases h
          cases k with
          | zero =>
              rw [Nat.zero_min]
              exact .nothing List.mem_cons_self rfl htail (Nat.lt_succ_self _)
          | succ k =>
              rw [Nat.add_min_add_right]
              exact .took (by omega) rfl htail (Nat.le_succ _)

/-! ## Readers -/

section Law

variable {ρ : Type} (pending : ρ → List UInt8) (fails : ρ → Bool) (size : ρ → ℕ)

/-- What a call may do: it takes what it returns from the bytes to come, and it makes
progress.  It returns no bytes, or fails, after all of them only. -/
inductive Law (r : ρ) (n : ℕ) : Reading → ρ → Prop
  | got {bytes : List UInt8} {r' : ρ} : bytes ≠ [] → bytes.length ≤ n →
      pending r = bytes ++ pending r' → fails r' = fails r →
      size r' + bytes.length ≤ size r → Law r n (.got bytes) r'
  | eof {r' : ρ} : pending r = [] → fails r = false → pending r' = [] → fails r' = false →
      Law r n (.got []) r'
  | interrupted {r' : ρ} : pending r' = pending r → fails r' = fails r → size r' < size r →
      Law r n .interrupted r'
  | failed {r' : ρ} : pending r = [] → fails r = true → pending r' = [] → fails r' = true →
      Law r n .failed r'

variable {pending fails size}

/-- The law does not look at the reader itself. -/
theorem Law.of_eq {r r₀ r' : ρ} {n : ℕ} {x : Reading} (h : Law pending fails size r n x r')
    (hpend : pending r = pending r₀) (hfails : fails r = fails r₀) (hsize : size r ≤ size r₀) :
    Law pending fails size r₀ n x r' := by
  cases h with
  | got hne hlen hp hf hs =>
      exact .got hne hlen (hpend ▸ hp) (hf.trans hfails) (hs.trans hsize)
  | eof hp hf hp' hf' => exact .eof (hpend ▸ hp) (hfails ▸ hf) hp' hf'
  | interrupted hp hf hs =>
      exact .interrupted (hp.trans hpend) (hf.trans hfails) (hs.trans_le hsize)
  | failed hp hf hp' hf' => exact .failed (hpend ▸ hp) (hfails ▸ hf) hp' hf'

end Law

/-- Something that is read from in short counts. -/
structure Reader (ρ : Type) where
  read : ρ → ℕ → Reading × ρ
  pending : ρ → List UInt8
  fails : ρ → Bool
  size : ρ → ℕ
  law : ∀ r n, 0 < n → Law pending fails size r n (read r n).1 (read r n).2

/-- What a function returns that reads into a buffer; `none` is -1. -/
structure Returned (ρ : Type) where
  value : Option ℕ
  usrbuf : ℕ → UInt8
  reader : ρ

namespace Reader

variable {ρ : Type} (R : Reader ρ)

/-- The law, for what a call returned. -/
theorem law_of_eq {r r' : ρ} {n : ℕ} {x : Reading} (hn : 0 < n) (h : R.read r n = (x, r')) :
    Law R.pending R.fails R.size r n x r' := by
  have hlaw := R.law r n hn
  rw [h] at hlaw
  exact hlaw

/-- A call that does not end the loop. -/
theorem size_lt {r r' : ρ} {n : ℕ} {x : Reading} (hn : 0 < n) (h : R.read r n = (x, r'))
    (hx : x = .interrupted ∨ ∃ c bytes, x = .got (c :: bytes)) : R.size r' < R.size r := by
  cases R.law_of_eq hn h with
  | got hne _ _ _ hsize =>
      have hpos := List.length_pos_iff.mpr hne
      omega
  | interrupted _ _ hsize => exact hsize
  | eof => simp at hx
  | failed => simp at hx

/-- The loop that reads `n` bytes into a buffer, of which `nleft` are missing. -/
def readnLoop (n : ℕ) (usrbuf : ℕ → UInt8) (bufp nleft : ℕ) (r : ρ) : Returned ρ :=
  if _hleft : 0 < nleft then
    match _h : R.read r nleft with
    | (.failed, r') => ⟨none, usrbuf, r'⟩
    | (.got [], r') => ⟨some (n - nleft), usrbuf, r'⟩
    | (.got (c :: bytes), r') =>
        readnLoop n (putAt usrbuf bufp (c :: bytes)) (bufp + (c :: bytes).length)
          (nleft - (c :: bytes).length) r'
    | (.interrupted, r') => readnLoop n usrbuf bufp nleft r'
  else ⟨some (n - nleft), usrbuf, r⟩
termination_by R.size r
decreasing_by
  · exact R.size_lt _hleft _h (.inr ⟨c, bytes, rfl⟩)
  · exact R.size_lt _hleft _h (.inl rfl)

/-- `n` bytes are read into a buffer. -/
def readn (r : ρ) (usrbuf : ℕ → UInt8) (n : ℕ) : Returned ρ := R.readnLoop n usrbuf 0 n r

/-- What such a loop leaves behind when `k` of `n` bytes were missing: the buffer has the
next bytes, as many as there are, and the reader is behind them. -/
structure Filled (n k bufp : ℕ) (usrbuf : ℕ → UInt8) (r : ρ) (x : Returned ρ) : Prop where
  value : x.value = if k ≤ (R.pending r).length then some n
    else if R.fails r then none else some (n - k + (R.pending r).length)
  usrbuf : x.usrbuf = putAt usrbuf bufp ((R.pending r).take k)
  pending : R.pending x.reader = (R.pending r).drop k
  fails : R.fails x.reader = R.fails r

/-- **The loop** returns the next bytes, however they are cut up. -/
theorem readnLoop_filled {n k bufp : ℕ} {usrbuf : ℕ → UInt8} {r : ρ} (hk : k ≤ n) :
    R.Filled n k bufp usrbuf r (R.readnLoop n usrbuf bufp k r) := by
  fun_induction readnLoop R n usrbuf bufp k r with
  | case1 usrbuf bufp nleft r hleft r' h =>
      cases R.law_of_eq hleft h with
      | failed hpend hfails hpend' hfails' =>
          constructor
          · simp [hpend, hfails, hleft.ne']
          · simp [hpend, putAt]
          · simp [hpend, hpend']
          · rw [hfails, hfails']
  | case2 usrbuf bufp nleft r hleft r' h =>
      cases R.law_of_eq hleft h with
      | got hne => exact absurd rfl hne
      | eof hpend hfails hpend' hfails' =>
          constructor
          · simp [hpend, hfails, hleft.ne']
          · simp [hpend, putAt]
          · simp [hpend, hpend']
          · rw [hfails, hfails']
  | case3 usrbuf bufp nleft r hleft c bytes r' h ih =>
      cases R.law_of_eq hleft h with
      | got _ hlen hpend hfails _ =>
          obtain ⟨hvalue, hbuf, hrest, hfails'⟩ := ih (by omega)
          constructor
          · rw [hvalue, hpend, hfails, List.length_append]
            split_ifs <;> first | rfl | omega | exact congrArg some (by omega)
          · rw [hbuf, hpend, List.take_append, List.take_of_length_le hlen, putAt_append]
          · rw [hrest, hpend, List.drop_append, List.drop_of_length_le hlen, List.nil_append]
          · rw [hfails', hfails]
  | case4 usrbuf bufp nleft r hleft r' h ih =>
      cases R.law_of_eq hleft h with
      | interrupted hpend hfails _ =>
          obtain ⟨hvalue, hbuf, hrest, hfails'⟩ := ih hk
          rw [hpend] at hvalue hbuf hrest
          rw [hfails] at hvalue hfails'
          exact ⟨hvalue, hbuf, hrest, hfails'⟩
  | case5 usrbuf bufp nleft r hleft =>
      obtain rfl := Nat.eq_zero_of_not_pos hleft
      exact ⟨by simp, by simp [putAt], by simp, rfl⟩

/-- **Reading `n` bytes**: the count that is returned, and what the buffer holds, depend on
the bytes that come and on how they end, and on nothing else. -/
theorem readn_filled (r : ρ) (usrbuf : ℕ → UInt8) (n : ℕ) :
    R.Filled n n 0 usrbuf r (R.readn r usrbuf n) := R.readnLoop_filled le_rfl

/-- Some buffers are filled, one after the other. -/
def readns (r : ρ) : List ((ℕ → UInt8) × ℕ) → List (Option ℕ × (ℕ → UInt8)) × ρ
  | [] => ([], r)
  | (usrbuf, n) :: bufs =>
      let x := R.readn r usrbuf n
      let rest := readns x.reader bufs
      ((x.value, x.usrbuf) :: rest.1, rest.2)

/-- **Two readers** with the same bytes to come, of one kind or of two, return the same. -/
theorem readns_congr {ρ' : Type} (R' : Reader ρ') {r : ρ} {r' : ρ'}
    (hpend : R.pending r = R'.pending r') (hfails : R.fails r = R'.fails r')
    (bufs : List ((ℕ → UInt8) × ℕ)) :
    (R.readns r bufs).1 = (R'.readns r' bufs).1 ∧
      R.pending (R.readns r bufs).2 = R'.pending (R'.readns r' bufs).2 := by
  induction bufs generalizing r r' with
  | nil => exact ⟨rfl, hpend⟩
  | cons b bufs ih =>
      obtain ⟨usrbuf, n⟩ := b
      obtain ⟨hvalue, hbuf, hrest, hend⟩ := R.readn_filled r usrbuf n
      obtain ⟨hvalue', hbuf', hrest', hend'⟩ := R'.readn_filled r' usrbuf n
      rw [hpend] at hvalue hbuf hrest
      rw [hfails] at hvalue hend
      obtain ⟨hcalls, hlast⟩ := ih (hrest.trans hrest'.symm) (hend.trans hend'.symm)
      refine ⟨?_, hlast⟩
      rw [readns, readns, hcalls, hvalue.trans hvalue'.symm, hbuf.trans hbuf'.symm]

end Reader

/-! ## A descriptor is a reader -/

namespace Source

/-- What a call on a descriptor does. -/
theorem read_law (s : Source) (n : ℕ) (hn : 0 < n) :
    Law pending Source.fails size s n (s.read n).1 (s.read n).2 := by
  obtain ⟨ready, fails⟩ := s
  cases ready with
  | nil =>
      cases fails with
      | false => exact .eof rfl rfl rfl rfl
      | true => exact .failed rfl rfl rfl rfl
  | cons found ready =>
      cases found with
      | interrupted => exact .interrupted rfl rfl (Nat.add_lt_add_left (Nat.lt_succ_self _) _)
      | arrived c bytes =>
          have hsplit := List.take_append_drop n (c :: bytes)
          have hpend : pending ⟨.arrived c bytes :: ready, fails⟩ =
              (c :: bytes).take n ++
                pending ⟨Ready.rest ((c :: bytes).drop n) ++ ready, fails⟩ := by
            rw [pending, pending, List.map_append, List.flatten_append, Ready.bytes_rest,
              ← List.append_assoc, hsplit]
            rfl
          have hlen := congrArg List.length hpend
          have hrest := Ready.length_rest ((c :: bytes).drop n)
          have htake : 0 < ((c :: bytes).take n).length := by simp [hn]
          refine .got (List.length_pos_iff.mp htake) (List.length_take_le _ _) hpend rfl ?_
          show (pending ⟨Ready.rest ((c :: bytes).drop n) ++ ready, fails⟩).length +
            (Ready.rest ((c :: bytes).drop n) ++ ready).length + ((c :: bytes).take n).length ≤
              _ + (ready.length + 1)
          rw [List.length_append] at hlen
          rw [List.length_append, hlen]
          omega

/-- Reading from a descriptor. -/
def reader : Reader Source where
  read := read
  pending := pending
  fails := Source.fails
  size := size
  law := read_law

end Source

end ShortReads
