/-
# The Rio package

The robust reads and writes of `csapp.c`.  `rio_readn` and `rio_writen` call `read` and
`write` until everything is done; `rio_read` fills the buffer of a `rio_t` when it is empty
and hands out what is in it, to `rio_readnb` and to `rio_readlineb`.

The descriptors are those of `ShortReads`: a call may be interrupted, and may return less
than it was asked for.  `RioT.toStream` forgets how the bytes are cut up and what is in the
buffer already, and the functions on a `rio_t` refine those on a stream.
-/
import CsappLabs.ShortReads
import CsappLabs.DoitFaults

open CString ShortReads Relay

namespace Rio

def RIO_BUFSIZE : ℕ := 8192

/-! ## The program -/

/-- `rio_t`.  The unread bytes are inside the buffer. -/
structure RioT where
  fd : Source
  cnt : ℤ
  bufptr : ℕ
  buf : ℕ → UInt8
  inside : bufptr + cnt.toNat ≤ RIO_BUFSIZE

/-- Without unread bytes. -/
theorem RioT.inside_of_nonpos (rp : RioT) {c : ℤ} (h : c ≤ 0) :
    rp.bufptr + c.toNat ≤ RIO_BUFSIZE := by
  rw [Int.toNat_of_nonpos h]
  exact (Nat.le_add_right _ _).trans rp.inside

/-- `rio_readinitb`, on a `rio_t` whose buffer holds anything. -/
def rioReadinitb (buf : ℕ → UInt8) (fd : Source) : RioT := ⟨fd, 0, 0, buf, Nat.zero_le _⟩

/-- The bytes that one call returns are not more than it asked for. -/
theorem length_of_read {s s' : Source} {n : ℕ} {bs : List UInt8} (h : s.read n = (.got bs, s')) :
    bs.length ≤ n := by
  cases n with
  | zero =>
      unfold Source.read at h
      split at h
      · split_ifs at h <;> cases h
        exact le_rfl
      · cases h
      · cases h
        exact le_rfl
  | succ n =>
      cases Source.reader.law_of_eq (Nat.succ_pos n) h with
      | got _ hlen => exact hlen
      | eof => exact Nat.zero_le _

/-- The body of the loop of `rio_read`. -/
def refill (rp : RioT) : Reading × RioT :=
  match h : rp.fd.read RIO_BUFSIZE with
  | (.failed, fd) => (.failed, ⟨fd, -1, rp.bufptr, rp.buf, rp.inside_of_nonpos neg_one_lt_zero.le⟩)
  | (.interrupted, fd) => (.interrupted, ⟨fd, -1, rp.bufptr, rp.buf, rp.inside_of_nonpos neg_one_lt_zero.le⟩)
  | (.got [], fd) => (.got [], ⟨fd, 0, rp.bufptr, rp.buf, rp.inside_of_nonpos le_rfl⟩)
  | (.got (c :: bytes), fd) =>
      (.got (c :: bytes), ⟨fd, ((c :: bytes).length : ℕ), 0, putAt rp.buf 0 (c :: bytes), by
        rw [Nat.zero_add]
        exact length_of_read h⟩)

/-- A call that the loop goes on after. -/
theorem size_refill {rp rp' : RioT} {x : Reading} (h : refill rp = (x, rp'))
    (hx : x = .interrupted ∨ ∃ c bytes, x = .got (c :: bytes)) : rp'.fd.size < rp.fd.size := by
  have hsize : ∀ y fd, rp.fd.read RIO_BUFSIZE = (y, fd) →
      y = .interrupted ∨ (∃ c bytes, y = .got (c :: bytes)) → fd.size < rp.fd.size :=
    fun y fd hread hy => Source.reader.size_lt (by decide) hread hy
  unfold refill at h
  split at h <;> cases h
  · simp at hx
  · exact hsize _ _ (by assumption) hx
  · simp at hx
  · exact hsize _ _ (by assumption) hx

/-- `cnt` of `rio_read`: how many of the unread bytes are copied. -/
def copyCount (cnt : ℤ) (n : ℕ) : ℕ := if cnt < n then cnt.toNat else n

theorem copyCount_le {cnt : ℤ} (h : 0 < cnt) (n : ℕ) : copyCount cnt n ≤ cnt.toNat := by
  unfold copyCount
  split_ifs <;> omega

theorem copyCount_le_right (cnt : ℤ) (n : ℕ) : copyCount cnt n ≤ n := by
  unfold copyCount
  split_ifs <;> omega

theorem copyCount_pos {cnt : ℤ} {n : ℕ} (h : 0 < cnt) (hn : 0 < n) : 0 < copyCount cnt n := by
  unfold copyCount
  split_ifs <;> omega

/-- `rio_read`: the loop, and the copy of what is in the buffer. -/
def rioRead (rp : RioT) (n : ℕ) : Reading × RioT :=
  if hcnt : rp.cnt ≤ 0 then
    match _h : refill rp with
    | (.failed, rp') => (.failed, rp')
    | (.interrupted, rp') => rioRead rp' n
    | (.got [], rp') => (.got [], rp')
    | (.got (_c :: _bytes), rp') => rioRead rp' n
  else
    (.got (Relay.bytes rp.buf rp.bufptr (copyCount rp.cnt n)),
      ⟨rp.fd, rp.cnt - copyCount rp.cnt n, rp.bufptr + copyCount rp.cnt n, rp.buf, by
        have hinside := rp.inside
        have hle := copyCount_le (not_le.mp hcnt) n
        omega⟩)
termination_by rp.fd.size
decreasing_by
  · exact size_refill _h (.inl rfl)
  · exact size_refill _h (.inr ⟨_c, _bytes, rfl⟩)

/-- The loop of `rio_readlineb`, with `k` rounds left. -/
def readlinebLoop (usrbuf : ℕ → UInt8) (bufp : ℕ) : ℕ → RioT → Returned RioT
  | 0, rp => ⟨some bufp, Function.update usrbuf bufp 0, rp⟩
  | k + 1, rp =>
      match rioRead rp 1 with
      | (.got [], rp) =>
          if bufp = 0 then ⟨some 0, usrbuf, rp⟩
          else ⟨some bufp, Function.update usrbuf bufp 0, rp⟩
      | (.got [c], rp) =>
          if c = newline then
            ⟨some (bufp + 1), Function.update (Function.update usrbuf bufp c) (bufp + 1) 0, rp⟩
          else readlinebLoop (Function.update usrbuf bufp c) (bufp + 1) k rp
      | (.got (_ :: _ :: _), rp) => ⟨none, usrbuf, rp⟩
      | (.interrupted, rp) => ⟨none, usrbuf, rp⟩
      | (.failed, rp) => ⟨none, usrbuf, rp⟩

/-- `rio_readlineb`. -/
def rioReadlineb (rp : RioT) (usrbuf : ℕ → UInt8) (maxlen : ℕ) : Returned RioT :=
  readlinebLoop usrbuf 0 (maxlen - 1) rp

/-! ## `rio_read` keeps the law of a reader -/

namespace RioT

/-- The bytes that are still to come: those in the buffer are first. -/
def pending (rp : RioT) : List UInt8 :=
  Relay.bytes rp.buf rp.bufptr rp.cnt.toNat ++ rp.fd.pending

/-- A bound on the number of calls. -/
def size (rp : RioT) : ℕ := rp.fd.size + rp.cnt.toNat

/-- Without unread bytes. -/
theorem pending_of_nonpos {rp : RioT} (h : rp.cnt ≤ 0) : rp.pending = rp.fd.pending := by
  rw [pending, Int.toNat_of_nonpos h]
  rfl

end RioT

theorem bytes_putAt (buf : ℕ → UInt8) (p : ℕ) (bs : List UInt8) :
    Relay.bytes (putAt buf p bs) p bs.length = bs := by
  apply List.ext_getElem
  · simp [Relay.bytes]
  · intro i hi hi'
    simp only [Relay.bytes, List.getElem_map, List.getElem_range', one_mul]
    rw [putAt_apply, dif_pos (by omega)]
    simp

theorem bytes_add (buf : ℕ → UInt8) (p m n : ℕ) :
    Relay.bytes buf p (m + n) = Relay.bytes buf p m ++ Relay.bytes buf (p + m) n := by
  rw [Relay.bytes, ← List.range'_append_1, List.map_append]
  rfl

/-- What one round of the loop does. -/
inductive Refilled (rp : RioT) : Reading → RioT → Prop
  | got {c : UInt8} {bytes : List UInt8} {rp' : RioT} : 0 < rp'.cnt → rp'.pending = rp.fd.pending →
      rp'.fd.fails = rp.fd.fails → rp'.size ≤ rp.fd.size →
      Refilled rp (.got (c :: bytes)) rp'
  | eof {rp' : RioT} : rp.fd.pending = [] → rp.fd.fails = false → rp'.pending = [] →
      rp'.fd.fails = false → Refilled rp (.got []) rp'
  | interrupted {rp' : RioT} : rp'.cnt ≤ 0 → rp'.pending = rp.fd.pending →
      rp'.fd.fails = rp.fd.fails → rp'.size < rp.fd.size → Refilled rp .interrupted rp'
  | failed {rp' : RioT} : rp.fd.pending = [] → rp.fd.fails = true → rp'.pending = [] →
      rp'.fd.fails = true → Refilled rp .failed rp'

/-- **The refill** puts the next bytes into the buffer. -/
theorem refill_refilled {rp rp' : RioT} {x : Reading} (h : refill rp = (x, rp')) :
    Refilled rp x rp' := by
  have hlaw : ∀ {y fd}, rp.fd.read RIO_BUFSIZE = (y, fd) →
      Law Source.pending Source.fails Source.size rp.fd RIO_BUFSIZE y fd :=
    fun hread => Source.reader.law_of_eq (by decide) hread
  unfold refill at h
  split at h
  case h_1 fd hread =>
      cases h
      cases hlaw hread with
      | failed hpend hfails hpend' hfails' =>
          refine .failed hpend hfails ?_ hfails'
          rw [RioT.pending_of_nonpos neg_one_lt_zero.le, hpend']
  case h_2 fd hread =>
      cases h
      cases hlaw hread with
      | interrupted hpend hfails hsize =>
          refine .interrupted neg_one_lt_zero.le ?_ hfails ?_
          · rw [RioT.pending_of_nonpos neg_one_lt_zero.le, hpend]
          · exact hsize
  case h_3 fd hread =>
      cases h
      cases hlaw hread with
      | got hne => exact absurd rfl hne
      | eof hpend hfails hpend' hfails' =>
          refine .eof hpend hfails ?_ hfails'
          rw [RioT.pending_of_nonpos le_rfl, hpend']
  case h_4 c bytes fd hread =>
      cases h
      cases hlaw hread with
      | got _ hlen hpend hfails hsize =>
          refine .got ?_ ?_ hfails ?_
          · show (0 : ℤ) < ((c :: bytes).length : ℕ)
            simp
          · rw [RioT.pending, hpend]
            congr 1
            exact bytes_putAt rp.buf 0 (c :: bytes)
          · exact hsize

/-- **`rio_read`** returns bytes that are to come, and keeps the rest. -/
theorem rioRead_law (rp : RioT) (n : ℕ) (hn : 0 < n) :
    Law RioT.pending (fun rp => rp.fd.fails) RioT.size rp n (rioRead rp n).1 (rioRead rp n).2 := by
  fun_induction rioRead rp n with
  | case1 rp hcnt rp' h =>
      cases refill_refilled h with
      | failed hpend hfails hpend' hfails' =>
          exact .failed (by rw [RioT.pending_of_nonpos hcnt, hpend]) hfails hpend' hfails'
  | case2 rp hcnt rp' h ih =>
      cases refill_refilled h with
      | interrupted _ hpend hfails hsize =>
          refine ih.of_eq (hpend.trans (RioT.pending_of_nonpos hcnt).symm) hfails ?_
          exact hsize.le.trans (Nat.le_add_right _ _)
  | case3 rp hcnt rp' h =>
      cases refill_refilled h with
      | eof hpend hfails hpend' hfails' =>
          exact .eof (by rw [RioT.pending_of_nonpos hcnt, hpend]) hfails hpend' hfails'
  | case4 rp hcnt c bytes rp' h ih =>
      cases refill_refilled h with
      | got _ hpend hfails hsize =>
          refine ih.of_eq (hpend.trans (RioT.pending_of_nonpos hcnt).symm) hfails ?_
          exact hsize.trans (Nat.le_add_right _ _)
  | case5 rp hcnt =>
      have hle := copyCount_le (not_le.mp hcnt) n
      have hpos := copyCount_pos (not_le.mp hcnt) hn
      have hlen : (Relay.bytes rp.buf rp.bufptr (copyCount rp.cnt n)).length =
          copyCount rp.cnt n := by simp [Relay.bytes]
      refine .got ?_ ?_ ?_ rfl ?_
      · rw [← List.length_pos_iff, hlen]
        exact hpos
      · rw [hlen]
        exact copyCount_le_right rp.cnt n
      · show _ = _ ++ (Relay.bytes rp.buf (rp.bufptr + copyCount rp.cnt n)
          (rp.cnt - copyCount rp.cnt n).toNat ++ rp.fd.pending)
        rw [RioT.pending, ← List.append_assoc, ← bytes_add]
        congr 2
        omega
      · rw [hlen, RioT.size, RioT.size]
        show rp.fd.size + (rp.cnt - copyCount rp.cnt n).toNat + copyCount rp.cnt n ≤ _
        omega

/-- Reading from a `rio_t`. -/
def reader : Reader RioT where
  read := rioRead
  pending := RioT.pending
  fails := fun rp => rp.fd.fails
  size := RioT.size
  law := rioRead_law

/-- It never returns `EINTR`. -/
theorem rioRead_not_interrupted (rp : RioT) (n : ℕ) : (rioRead rp n).1 ≠ .interrupted := by
  fun_induction rioRead rp n with
  | case1 => exact Reading.noConfusion
  | case2 _ _ _ _ ih => exact ih
  | case3 => exact Reading.noConfusion
  | case4 _ _ _ _ _ _ ih => exact ih
  | case5 => exact Reading.noConfusion

/-! ## The functions that call it -/

/-- `rio_readn`. -/
def rioReadn (fd : Source) (usrbuf : ℕ → UInt8) (n : ℕ) : Returned Source :=
  Source.reader.readn fd usrbuf n

/-- `rio_readnb`. -/
def rioReadnb (rp : RioT) (usrbuf : ℕ → UInt8) (n : ℕ) : Returned RioT :=
  reader.readn rp usrbuf n

/-! ## A `rio_t` as a stream -/

/-- What is to come, and how it ends. -/
def RioT.toStream (rp : RioT) : Proxy.Stream := ⟨rp.pending, rp.fd.fails⟩

/-- What the return of `rio_readlineb` says, when the loop started at `bufp` with `k`
rounds left and the stream was `s`; next to it what the loop on the stream returns. -/
inductive LineRead (usrbuf : ℕ → UInt8) (bufp k : ℕ) (s : Proxy.Stream) :
    Option (List UInt8 × Proxy.Stream) → Returned RioT → Prop
  | line {l : List UInt8} {rp : RioT} : 0 < bufp + l.length ∨ k = 0 →
      LineRead usrbuf bufp k s (some (l, rp.toStream))
        ⟨some (bufp + l.length), putAt usrbuf bufp (l ++ [0]), rp⟩
  | eof {rp : RioT} : bufp = 0 → 0 < k →
      LineRead usrbuf bufp k s (some ([], rp.toStream)) ⟨some 0, usrbuf, rp⟩
  | failed {rp : RioT} : rp.toStream = ⟨[], true⟩ →
      LineRead usrbuf bufp k s none ⟨none, putAt usrbuf bufp s.bytes, rp⟩

/-- One more character was read. -/
theorem LineRead.cons {usrbuf : ℕ → UInt8} {bufp k : ℕ} {s : Proxy.Stream} {c : UInt8}
    {r : Option (List UInt8 × Proxy.Stream)} {x : Returned RioT}
    (h : LineRead (Function.update usrbuf bufp c) (bufp + 1) k s r x) :
    LineRead usrbuf bufp (k + 1) { s with bytes := c :: s.bytes }
      (r.map fun r => (c :: r.1, r.2)) x := by
  cases h with
  | @line l rp _ =>
      have hlen : bufp + 1 + l.length = bufp + (c :: l).length := by
        rw [List.length_cons]
        omega
      rw [hlen]
      refine LineRead.line (l := c :: l) (.inl ?_)
      rw [List.length_cons]
      omega
  | eof hbufp => omega
  | failed hend => exact .failed hend

/-- **The loop** reads what the loop on the stream reads. -/
theorem readlinebLoop_lineRead (usrbuf : ℕ → UInt8) (bufp k : ℕ) (rp : RioT) :
    LineRead usrbuf bufp k rp.toStream (rp.toStream.readlinebLoop k)
      (readlinebLoop usrbuf bufp k rp) := by
  induction k generalizing usrbuf bufp rp with
  | zero => exact LineRead.line (l := []) (.inr rfl)
  | succ k ih =>
      rw [readlinebLoop]
      have hlaw := rioRead_law rp 1 Nat.one_pos
      rcases hread : rioRead rp 1 with ⟨x, rp'⟩
      rw [hread] at hlaw
      have hstream : rp.toStream = ⟨rp.pending, rp.fd.fails⟩ := rfl
      cases hlaw with
      | @got bytes _ hne hlen hpend hfails _ =>
          obtain ⟨c, rfl⟩ : ∃ c, bytes = [c] := by
            have hpos := List.length_pos_iff.mpr hne
            exact List.length_eq_one_iff.mp (by omega)
          have hrest : rp.toStream = { rp'.toStream with bytes := c :: rp'.toStream.bytes } := by
            rw [hstream, hpend, ← hfails]
            rfl
          rw [hrest, Proxy.Stream.readlinebLoop]
          simp only
          by_cases hc : c = newline
          · rw [if_pos hc, if_pos hc]
            exact LineRead.line (l := [c]) (.inl (by simp))
          · rw [if_neg hc, if_neg hc]
            exact (ih (Function.update usrbuf bufp c) (bufp + 1) rp').cons
      | eof hpend hfails hpend' hfails' =>
          have hend : rp.toStream = rp'.toStream := by
            rw [hstream, hpend, hfails]
            exact (congrArg₂ Proxy.Stream.mk hpend' hfails').symm
          have hloop : rp.toStream.readlinebLoop (k + 1) = some ([], rp'.toStream) := by
            rw [← hend, hstream, hpend, hfails, Proxy.Stream.readlinebLoop]
            rfl
          rw [hloop]
          simp only
          by_cases hbufp : bufp = 0
          · rw [if_pos hbufp]
            exact .eof hbufp (Nat.succ_pos k)
          · rw [if_neg hbufp]
            exact LineRead.line (l := []) (.inl (by simpa using Nat.pos_of_ne_zero hbufp))
      | interrupted => exact absurd (congrArg Prod.fst hread) (rioRead_not_interrupted rp 1)
      | failed hpend hfails hpend' hfails' =>
          rw [hstream, hpend, hfails, Proxy.Stream.readlinebLoop]
          exact .failed (congrArg₂ Proxy.Stream.mk hpend' hfails')

/-- A failing read of the stream leaves nothing to read. -/
theorem readlinebLoop_eq_none {k : ℕ} {s : Proxy.Stream} (h : s.readlinebLoop k = none) :
    s.fails = true := by
  by_contra hfails
  rw [Proxy.Stream.readlinebLoop_of_not_short fun hs => hfails hs.1] at h
  cases h

/-! ## Runs -/

/-- A call of one of the two functions. -/
inductive Call
  | readlineb (maxlen : ℕ)
  | readnb (n : ℕ)
  deriving DecidableEq

/-- What a call returns, as the bytes that are counted; `none` is -1. -/
def RioT.serve (rp : RioT) (usrbuf : ℕ → UInt8) : Call → Option (List UInt8) × RioT
  | .readlineb maxlen =>
      let x := rioReadlineb rp usrbuf maxlen
      (x.value.map (Relay.bytes x.usrbuf 0), x.reader)
  | .readnb n =>
      let x := rioReadnb rp usrbuf n
      (x.value.map (Relay.bytes x.usrbuf 0), x.reader)

/-- What the call means: it takes a line, or a number of bytes, from the stream. -/
def serve (s : Proxy.Stream) : Call → Option (List UInt8) × Proxy.Stream
  | .readlineb maxlen =>
      match s.rioReadlineb maxlen with
      | some r => (some r.1, r.2)
      | none => (none, ⟨[], true⟩)
  | .readnb n =>
      (if s.bytes.length < n ∧ s.fails then none else some (s.bytes.take n),
        { s with bytes := s.bytes.drop n })

/-- The calls of a program, each with its buffer, until one returns -1: what they return,
and the `rio_t` after the last one. -/
def RioT.run (rp : RioT) : List (Call × (ℕ → UInt8)) → List (List UInt8) × Option RioT
  | [] => ([], some rp)
  | (call, usrbuf) :: calls =>
      match rp.serve usrbuf call with
      | (some out, rp) => ((out :: (rp.run calls).1), (rp.run calls).2)
      | (none, _) => ([], none)

/-- The calls on the stream. -/
def run (s : Proxy.Stream) : List Call → List (List UInt8) × Option Proxy.Stream
  | [] => ([], some s)
  | call :: calls =>
      match serve s call with
      | (some out, s) => ((out :: (run s calls).1), (run s calls).2)
      | (none, _) => ([], none)

/-- The first part of what was put into a buffer. -/
theorem bytes_putAt_append (buf : ℕ → UInt8) (p : ℕ) (bs cs : List UInt8) :
    Relay.bytes (putAt buf p (bs ++ cs)) p bs.length = bs := by
  have hall := bytes_putAt buf p (bs ++ cs)
  rw [List.length_append, bytes_add] at hall
  exact (List.append_inj hall (by simp [Relay.bytes])).1

/-- **One call** on a `rio_t` is the call on the stream. -/
theorem RioT.serve_toStream (rp : RioT) (usrbuf : ℕ → UInt8) (call : Call) :
    (rp.serve usrbuf call).1 = (Rio.serve rp.toStream call).1 ∧
      (rp.serve usrbuf call).2.toStream = (Rio.serve rp.toStream call).2 := by
  cases call with
  | readlineb maxlen =>
      have hread := readlinebLoop_lineRead usrbuf 0 (maxlen - 1) rp
      rw [RioT.serve, Rio.serve, rioReadlineb, Proxy.Stream.rioReadlineb]
      generalize rp.toStream.readlinebLoop (maxlen - 1) = r at hread
      generalize readlinebLoop usrbuf 0 (maxlen - 1) rp = x at hread
      cases hread with
      | @line l rp' _ =>
          rw [Nat.zero_add]
          exact ⟨congrArg some (bytes_putAt_append usrbuf 0 l [0]), rfl⟩
      | eof => exact ⟨rfl, rfl⟩
      | failed hend => exact ⟨rfl, hend⟩
  | readnb n =>
      obtain ⟨hvalue, hbuf, hpend, hfails⟩ := reader.readn_filled rp usrbuf n
      refine ⟨?_, congrArg₂ Proxy.Stream.mk hpend hfails⟩
      show (reader.readn rp usrbuf n).value.map
          (Relay.bytes (reader.readn rp usrbuf n).usrbuf 0) =
        if rp.pending.length < n ∧ rp.fd.fails = true then none else some (rp.pending.take n)
      have htaken : ∀ v, v = (rp.pending.take n).length →
          Relay.bytes (putAt usrbuf 0 (rp.pending.take n)) 0 v = rp.pending.take n := by
        rintro v rfl
        exact bytes_putAt usrbuf 0 (rp.pending.take n)
      rw [hvalue, hbuf]
      show Option.map _ (if n ≤ rp.pending.length then some n
        else if rp.fd.fails = true then none else some (n - n + rp.pending.length)) = _
      rw [List.length_take] at htaken
      split_ifs with h₁ h₂ h₃ h₄ h₅
      · omega
      · exact congrArg some (htaken n (by omega))
      · rfl
      · exact absurd ⟨by omega, h₃⟩ h₄
      · exact absurd h₅.2 h₃
      · exact congrArg some (htaken _ (by omega))

/-- **The run** of a program on a `rio_t` is its run on the stream. -/
theorem RioT.run_toStream (rp : RioT) (calls : List (Call × (ℕ → UInt8))) :
    (rp.run calls).1 = (Rio.run rp.toStream (calls.map Prod.fst)).1 ∧
      (rp.run calls).2.map RioT.toStream = (Rio.run rp.toStream (calls.map Prod.fst)).2 := by
  induction calls generalizing rp with
  | nil => exact ⟨rfl, rfl⟩
  | cons c calls ih =>
      obtain ⟨call, usrbuf⟩ := c
      obtain ⟨hout, hrest⟩ := rp.serve_toStream usrbuf call
      rw [RioT.run, List.map_cons, Rio.run]
      rcases hserve : rp.serve usrbuf call with ⟨out, rp'⟩
      rcases hserve' : Rio.serve rp.toStream call with ⟨out', s'⟩
      rw [hserve, hserve'] at hout hrest
      obtain rfl : out = out' := hout
      obtain rfl : rp'.toStream = s' := hrest
      cases out with
      | none => exact ⟨rfl, rfl⟩
      | some out =>
          obtain ⟨houts, hlast⟩ := ih rp'
          exact ⟨congrArg (out :: ·) houts, hlast⟩

/-- What a call took from the stream. -/
theorem serve_some {s s' : Proxy.Stream} {call : Call} {out : List UInt8}
    (h : serve s call = (some out, s')) : out ++ s'.bytes = s.bytes ∧ s'.fails = s.fails := by
  cases call with
  | readlineb maxlen =>
      rw [serve, Proxy.Stream.rioReadlineb] at h
      by_cases hshort : s.fails = true ∧ newline ∉ s.bytes ∧ s.bytes.length < maxlen - 1
      · rw [Proxy.Stream.readlinebLoop_of_short hshort.1 hshort.2.1 hshort.2.2] at h
        cases h
      · rw [Proxy.Stream.readlinebLoop_of_not_short hshort] at h
        cases h
        exact ⟨readlinebLoop_append (maxlen - 1) s.bytes, rfl⟩
  | readnb n =>
      rw [serve] at h
      split_ifs at h
      · cases h
      · obtain ⟨hout, rfl⟩ := Prod.mk.inj h
        obtain rfl := Option.some.inj hout
        exact ⟨List.take_append_drop n s.bytes, rfl⟩

/-- A call that returns -1. -/
theorem serve_none {s s' : Proxy.Stream} {call : Call} (h : serve s call = (none, s')) :
    s.fails = true := by
  cases call with
  | readlineb maxlen =>
      rw [serve, Proxy.Stream.rioReadlineb] at h
      cases hread : s.readlinebLoop (maxlen - 1) with
      | none => exact readlinebLoop_eq_none hread
      | some r =>
          rw [hread] at h
          cases h
  | readnb n =>
      rw [serve] at h
      split_ifs at h with hshort
      · exact hshort.2
      · cases h

/-- **Nothing is lost or read twice**: what the calls return is the first part of the
stream, and what is left is the rest of it. -/
theorem run_conserves (s : Proxy.Stream) (calls : List Call) :
    ∃ rest, (run s calls).1.flatten ++ rest = s.bytes ∧
      (∀ s' ∈ (run s calls).2, s' = ⟨rest, s.fails⟩) ∧
      ((run s calls).2 = none → s.fails = true) := by
  induction calls generalizing s with
  | nil => exact ⟨s.bytes, rfl, by simp [run], by simp [run]⟩
  | cons call calls ih =>
      rw [run]
      rcases hserve : serve s call with ⟨out, s'⟩
      cases out with
      | none => exact ⟨s.bytes, rfl, by simp, fun _ => serve_none hserve⟩
      | some out =>
          obtain ⟨hbytes, hfails⟩ := serve_some hserve
          obtain ⟨rest, hrest, hlast, hnone⟩ := ih s'
          rw [hfails] at hlast hnone
          refine ⟨rest, ?_, hlast, hnone⟩
          rw [List.flatten_cons, List.append_assoc, hrest, hbytes]

theorem toStream_rioReadinitb (buf : ℕ → UInt8) (fd : Source) :
    (rioReadinitb buf fd).toStream = ⟨fd.pending, fd.fails⟩ :=
  congrArg₂ Proxy.Stream.mk (RioT.pending_of_nonpos le_rfl) rfl

/-- **A program that reads with the package**: whatever the reads of the descriptor return at
a time, what the calls return is what the same calls take from the bytes that arrive, in
their order, and none of the bytes is lost. -/
theorem run_rioReadinitb (buf : ℕ → UInt8) (fd : Source)
    (calls : List (Call × (ℕ → UInt8))) :
    ((rioReadinitb buf fd).run calls).1 =
        (run ⟨fd.pending, fd.fails⟩ (calls.map Prod.fst)).1 ∧
      (∀ rp ∈ ((rioReadinitb buf fd).run calls).2,
        ((rioReadinitb buf fd).run calls).1.flatten ++ rp.pending = fd.pending) ∧
      (((rioReadinitb buf fd).run calls).2 = none → fd.fails = true ∧
        ((rioReadinitb buf fd).run calls).1.flatten <+: fd.pending) := by
  obtain ⟨houts, hlast⟩ := (rioReadinitb buf fd).run_toStream calls
  rw [toStream_rioReadinitb] at houts hlast
  obtain ⟨rest, hrest, hsome, hnone⟩ := run_conserves ⟨fd.pending, fd.fails⟩ (calls.map Prod.fst)
  rw [← houts] at hrest
  refine ⟨houts, fun rp hrp => ?_, fun hend => ?_⟩
  · rw [hrp, Option.map_some] at hlast
    have hpend : rp.pending = rest := congrArg Proxy.Stream.bytes (hsome _ hlast.symm)
    rw [hpend]
    exact hrest
  · rw [hend, Option.map_none] at hlast
    exact ⟨hnone hlast.symm, rest, hrest⟩

/-! ## One call -/

/-- **`rio_readlineb`** for a buffer of `maxlen` bytes, as many as an `int` counts: it fails when
an error comes before the line is complete; otherwise it returns the length of the line and
leaves the line in the buffer, as a string.  At EOF the buffer is as it was, and the cells after
it always are.  The counter, which ends one above the length, stays an `int`. -/
theorem rioReadlineb_returns (rp : RioT) (usrbuf : ℕ → UInt8) {maxlen : ℕ} (hmax : 1 < maxlen)
    (hint : maxlen < 2 ^ 31) :
    ((rioReadlineb rp usrbuf maxlen).value = none ↔
        rp.fd.fails = true ∧ newline ∉ rp.pending ∧ rp.pending.length < maxlen - 1) ∧
      (∀ v ∈ (rioReadlineb rp usrbuf maxlen).value,
        v = (Relay.rioReadlineb maxlen rp.pending).1.length ∧ v + 1 < 2 ^ 31 ∧
        (rioReadlineb rp usrbuf maxlen).usrbuf = (if v = 0 then usrbuf
          else strcpy usrbuf (Relay.rioReadlineb maxlen rp.pending).1) ∧
        (rioReadlineb rp usrbuf maxlen).reader.pending =
          (Relay.rioReadlineb maxlen rp.pending).2) ∧
      ∀ j, maxlen ≤ j → (rioReadlineb rp usrbuf maxlen).usrbuf j = usrbuf j := by
  have hread := readlinebLoop_lineRead usrbuf 0 (maxlen - 1) rp
  rw [rioReadlineb, Relay.rioReadlineb]
  have hlen := length_readlinebLoop (maxlen - 1) rp.pending
  by_cases hshort : rp.fd.fails = true ∧ newline ∉ rp.pending ∧ rp.pending.length < maxlen - 1
  · rw [Proxy.Stream.readlinebLoop_of_short (s := rp.toStream) hshort.1 hshort.2.1
      hshort.2.2] at hread
    generalize readlinebLoop usrbuf 0 (maxlen - 1) rp = x at hread
    cases hread with
    | failed _ =>
        refine ⟨iff_of_true rfl hshort, by simp, fun j hj => ?_⟩
        have hpend : rp.pending.length < maxlen - 1 := hshort.2.2
        show putAt usrbuf 0 rp.pending j = usrbuf j
        rw [putAt_apply, dif_neg (by omega)]
  · rw [Proxy.Stream.readlinebLoop_of_not_short (s := rp.toStream) hshort] at hread
    generalize hr : some ((Relay.readlinebLoop (maxlen - 1) rp.toStream.bytes).1,
      ({ rp.toStream with
        bytes := (Relay.readlinebLoop (maxlen - 1) rp.toStream.bytes).2 } : Proxy.Stream)) = r
      at hread
    generalize readlinebLoop usrbuf 0 (maxlen - 1) rp = x at hread
    cases hread with
    | failed => cases hr
    | @line l rp' hpos =>
        obtain ⟨hl, hrest⟩ := Prod.mk.inj (Option.some.inj hr)
        have hpend : rp'.pending = _ := (congrArg Proxy.Stream.bytes hrest).symm
        obtain rfl : (Relay.readlinebLoop (maxlen - 1) rp.pending).1 = l := hl
        refine ⟨iff_of_false (by simp) hshort, fun v hv => ?_, fun j hj => ?_⟩
        · obtain rfl := Option.mem_some_iff.mp hv
          rw [Nat.zero_add]
          refine ⟨rfl, by omega, ?_, hpend⟩
          rw [if_neg (by omega)]
          rfl
        · show putAt usrbuf 0 _ j = usrbuf j
          rw [putAt_apply, dif_neg]
          rw [List.length_append, List.length_singleton]
          omega
    | @eof rp' hbufp hk =>
        obtain ⟨hl, hrest⟩ := Prod.mk.inj (Option.some.inj hr)
        have hl' : (Relay.readlinebLoop (maxlen - 1) rp.pending).1 = [] := hl
        have hpend : rp'.pending = _ := (congrArg Proxy.Stream.bytes hrest).symm
        refine ⟨iff_of_false (by simp) hshort, fun v hv => ?_, fun _ _ => rfl⟩
        obtain rfl := Option.mem_some_iff.mp hv
        rw [hl']
        exact ⟨rfl, by norm_num, rfl, hpend⟩

/-- A line of one character and the first byte behind it, in a buffer of eight. -/
theorem rioReadlineb_returns_eight :
    ∃ r, rioReadlineb (rioReadinitb (fun _ => 0) ⟨[.arrived 72 [10, 73]], false⟩) (fun _ => 1) 8 =
        r ∧ r.value = some 2 ∧ (List.range 4).map r.usrbuf = [72, 10, 0, 1] ∧ r.usrbuf 9 = 1 ∧
      r.reader.pending = [73] := by
  obtain ⟨-, hsome, hfar⟩ := rioReadlineb_returns
    (rioReadinitb (fun _ => 0) ⟨[.arrived 72 [10, 73]], false⟩) (fun _ => 1)
    (show 1 < 8 by decide) (by decide)
  have hvalue : (rioReadlineb (rioReadinitb (fun _ => 0) ⟨[.arrived 72 [10, 73]], false⟩)
      (fun _ => 1) 8).value = some 2 := by
    decide +kernel
  obtain ⟨-, -, hbuf, hrest⟩ := hsome 2 hvalue
  refine ⟨_, rfl, hvalue, ?_, hfar 9 (by decide), hrest⟩
  rw [hbuf]
  decide

/-- **The buffer makes no difference**: a sequence of `rio_readnb` returns what the same
sequence of `rio_readn` returns on a descriptor with the same bytes to come, and leaves the
same bytes. -/
theorem rioReadnb_eq_rioReadn (buf : ℕ → UInt8) (fd fd' : Source)
    (hpend : fd.pending = fd'.pending) (hfails : fd.fails = fd'.fails)
    (bufs : List ((ℕ → UInt8) × ℕ)) :
    (reader.readns (rioReadinitb buf fd) bufs).1 = (Source.reader.readns fd' bufs).1 ∧
      (reader.readns (rioReadinitb buf fd) bufs).2.pending =
        (Source.reader.readns fd' bufs).2.pending := by
  have hinit : (rioReadinitb buf fd).pending = fd'.pending := by
    rw [RioT.pending_of_nonpos le_rfl]
    exact hpend
  exact reader.readns_congr Source.reader (r := rioReadinitb buf fd) hinit hfails bufs

/-- Two bytes that arrive together, or with a signal between them. -/
theorem rioReadnb_eq_rioReadn_two :
    (reader.readns (rioReadinitb (fun _ => 0) ⟨[.arrived 72 [105]], false⟩)
        [(fun _ => 0, 1), (fun _ => 0, 5)]).1 =
      (Source.reader.readns ⟨[.arrived 72 [], .interrupted, .arrived 105 []], false⟩
        [(fun _ => 0, 1), (fun _ => 0, 5)]).1 :=
  (rioReadnb_eq_rioReadn (fun _ => 0) ⟨[.arrived 72 [105]], false⟩
    ⟨[.arrived 72 [], .interrupted, .arrived 105 []], false⟩ rfl rfl _).1

/-! ## Writing -/

/-- `errno`, as far as it is looked at. -/
inductive Errno
  | EINTR
  | other
  deriving DecidableEq

/-- The return of `rio_writen`, what the descriptor took, and the state afterwards. -/
structure Written where
  value : Option ℕ
  taken : List UInt8
  errno : Errno
  fd : Sink

/-- The loop of `rio_writen`.  A call that takes nothing leaves `errno` as it was. -/
def writenLoop (usrbuf : ℕ → UInt8) (n bufp nleft : ℕ) (errno : Errno) (fd : Sink) : Written :=
  if _hleft : 0 < nleft then
    match _h : fd.write nleft with
    | (.failed, fd') => ⟨none, [], .other, fd'⟩
    | (.interrupted, fd') => writenLoop usrbuf n bufp nleft .EINTR fd'
    | (.took 0, fd') =>
        if errno = .EINTR then writenLoop usrbuf n bufp nleft errno fd'
        else ⟨none, [], errno, fd'⟩
    | (.took (k + 1), fd') =>
        let x := writenLoop usrbuf n (bufp + (k + 1)) (nleft - (k + 1)) errno fd'
        { x with taken := Relay.bytes usrbuf bufp (k + 1) ++ x.taken }
  else ⟨some n, [], errno, fd⟩
termination_by fd.room.length + nleft
decreasing_by
  · cases Sink.write_wrote _hleft _h with
    | interrupted _ _ hlen => omega
  · cases Sink.write_wrote _hleft _h with
    | nothing _ _ _ hlen => omega
  · cases Sink.write_wrote _hleft _h with
    | took hk _ _ hlen => omega

/-- `rio_writen`. -/
def rioWriten (usrbuf : ℕ → UInt8) (n : ℕ) (errno : Errno) (fd : Sink) : Written :=
  writenLoop usrbuf n 0 n errno fd

/-- `Rio_writen`, for a number of buffers: what the descriptor took of them, and whether the
process is still there, with its `errno`. -/
def rioWritens : List ((ℕ → UInt8) × ℕ) → Errno → Sink → List UInt8 × Option (Errno × Sink)
  | [], errno, fd => ([], some (errno, fd))
  | (usrbuf, n) :: bufs, errno, fd =>
      let x := rioWriten usrbuf n errno fd
      if x.value = some n then
        let rest := rioWritens bufs x.errno x.fd
        (x.taken ++ rest.1, rest.2)
      else (x.taken, none)

/-- How the loop may end: everything was taken, or a call took nothing before that. -/
inductive Ended (n : ℕ) (whole : List UInt8) (fd : Sink) : Written → Prop
  | all {errno : Errno} {fd' : Sink} : fd'.fails = fd.fails → fd'.room ⊆ fd.room →
      Ended n whole fd ⟨some n, whole, errno, fd'⟩
  | failed {taken rest : List UInt8} {errno : Errno} {fd' : Sink} : whole = taken ++ rest →
      rest ≠ [] → fd.fails = true ∨ Room.accepts 0 ∈ fd.room →
      Ended n whole fd ⟨none, taken, errno, fd'⟩

/-- A call came before. -/
theorem Ended.of_write {n : ℕ} {b c : List UInt8} {fd fd' : Sink} {x : Written}
    (h : Ended n c fd' x) (hfails : fd'.fails = fd.fails) (hroom : fd'.room ⊆ fd.room) :
    Ended n (b ++ c) fd { x with taken := b ++ x.taken } := by
  cases h with
  | all hf hr => exact .all (hf.trans hfails) (List.Subset.trans hr hroom)
  | failed hsplit hrest hwhy =>
      refine .failed (by rw [hsplit, List.append_assoc]) hrest ?_
      exact hwhy.imp (fun hf => hfails ▸ hf) fun hmem => hroom hmem

/-- **The loop** goes on until everything was taken, or a call fails. -/
theorem writenLoop_ended (usrbuf : ℕ → UInt8) (n bufp nleft : ℕ) (errno : Errno) (fd : Sink) :
    Ended n (Relay.bytes usrbuf bufp nleft) fd (writenLoop usrbuf n bufp nleft errno fd) := by
  have hne : ∀ bufp nleft, 0 < nleft → Relay.bytes usrbuf bufp nleft ≠ [] := by
    intro bufp nleft hleft hnil
    have hlen := congrArg List.length hnil
    simp only [Relay.bytes, List.length_map, List.length_range', List.length_nil] at hlen
    omega
  fun_induction writenLoop usrbuf n bufp nleft errno fd with
  | case1 bufp nleft errno fd hleft fd' h =>
      cases Sink.write_wrote hleft h with
      | failed hfails => exact .failed rfl (hne bufp nleft hleft) (.inl hfails)
  | case2 bufp nleft errno fd hleft fd' h ih =>
      cases Sink.write_wrote hleft h with
      | interrupted hfails hroom _ => exact ih.of_write (b := []) hfails hroom
  | case3 bufp nleft fd hleft fd' h ih =>
      cases Sink.write_wrote hleft h with
      | nothing _ hfails hroom _ => exact ih.of_write (b := []) hfails hroom
  | case4 bufp nleft errno fd hleft fd' h herrno =>
      cases Sink.write_wrote hleft h with
      | nothing hzero _ _ _ => exact .failed rfl (hne bufp nleft hleft) (.inr hzero)
  | case5 bufp nleft errno fd hleft k fd' h x ih =>
      cases Sink.write_wrote hleft h with
      | took hk hfails hroom _ =>
          have hsplit : Relay.bytes usrbuf bufp nleft = Relay.bytes usrbuf bufp (k + 1) ++
              Relay.bytes usrbuf (bufp + (k + 1)) (nleft - (k + 1)) := by
            rw [← bytes_add, Nat.add_sub_cancel' hk]
          rw [hsplit]
          exact ih.of_write hfails hroom
  | case6 bufp nleft errno fd hleft =>
      obtain rfl := Nat.eq_zero_of_not_pos hleft
      exact .all rfl (List.Subset.refl _)

/-- **What `Rio_writen` delivers**, for a number of buffers: the descriptor takes a first part
of them, in their order.  If the process is still there, it took everything; and the process
is still there if no call fails and none takes nothing. -/
theorem rioWritens_taken (bufs : List ((ℕ → UInt8) × ℕ)) (errno : Errno) (fd : Sink) :
    (rioWritens bufs errno fd).1 <+: (bufs.map fun b => Relay.bytes b.1 0 b.2).flatten ∧
      ((rioWritens bufs errno fd).2.isSome = true ↔
        (rioWritens bufs errno fd).1 = (bufs.map fun b => Relay.bytes b.1 0 b.2).flatten) ∧
      (fd.fails = false → Room.accepts 0 ∉ fd.room →
        (rioWritens bufs errno fd).2.isSome = true) := by
  induction bufs generalizing errno fd with
  | nil => exact ⟨List.prefix_refl _, by simp [rioWritens], fun _ _ => rfl⟩
  | cons b bufs ih =>
      obtain ⟨usrbuf, n⟩ := b
      have hended := writenLoop_ended usrbuf n 0 n errno fd
      rw [rioWritens, rioWriten, List.map_cons, List.flatten_cons]
      simp only
      generalize writenLoop usrbuf n 0 n errno fd = x at hended
      generalize Relay.bytes usrbuf 0 n = whole at hended
      cases hended with
      | @all errno' fd' hfails hroom =>
          obtain ⟨hstart, hsome, hlast⟩ := ih errno' fd'
          rw [if_pos rfl]
          refine ⟨(List.prefix_append_right_inj whole).mpr hstart, ?_, fun hf hz => ?_⟩
          · rw [List.append_cancel_left_eq]
            exact hsome
          · exact hlast (hfails.trans hf) fun hmem => hz (hroom hmem)
      | @failed taken rest errno' fd' hsplit hrest hwhy =>
          rw [if_neg (Option.some_ne_none n).symm, hsplit]
          refine ⟨⟨rest ++ _, (List.append_assoc ..).symm⟩, iff_of_false (by simp) ?_, ?_⟩
          · intro h
            have hlen := congrArg List.length h
            have hpos := List.length_pos_iff.mpr hrest
            simp only [List.length_append] at hlen
            omega
          · intro hf hz
            rcases hwhy with hfails | hzero
            · exact absurd (hf.symm.trans hfails) Bool.false_ne_true
            · exact absurd hzero hz

end Rio
