/-
# The response loop of `doit`

`doit` of `proxy.c` reads the response of the server with `Rio_readlineb`, writes
each piece to the client, and copies it with `strncpy` into the object that it
hands to `lru_put` at the end.  The object is given up when it would grow over
`MAX_OBJECT_SIZE`.

`Malloc` does not initialise the object, so its `len` is any `int` at first.  `none`
stands for a null pointer that is followed, or an access outside of the object.  What
a later hit sends is `hit`: `len` bytes of `buf`.
-/
import Mathlib

namespace Relay

/-! ## The program -/

def MAXLINE : ℕ := 8192

def MAX_OBJECT_SIZE : ℕ := 102400

/-- The character at which a line ends. -/
def newline : UInt8 := 10

/-- The loop of `rio_readlineb`, on what is still to come from the server: what is
put into the buffer, and what comes after it. -/
def readlinebLoop : ℕ → List UInt8 → List UInt8 × List UInt8
  | 0, stream => ([], stream)
  | _ + 1, [] => ([], [])
  | n + 1, c :: stream =>
      if c = newline then ([c], stream)
      else
        let r := readlinebLoop n stream
        (c :: r.1, r.2)

/-- `rio_readlineb`. -/
def rioReadlineb (maxlen : ℕ) (stream : List UInt8) : List UInt8 × List UInt8 :=
  readlinebLoop (maxlen - 1) stream

/-- What `Rio_readlineb` returns, until it returns nothing. -/
def readlines : ℕ → List UInt8 → List (List UInt8)
  | 0, _ => []
  | fuel + 1, stream =>
      let r := rioReadlineb MAXLINE stream
      if r.1.length = 0 then [] else r.1 :: readlines fuel r.2

/-- `strncpy(dst + pos, src, n)`: the characters of `src` up to its end, a NUL or
the `n`-th one, and NULs for the rest. -/
def strncpy (dst : ℕ → UInt8) (pos : ℕ) : List UInt8 → ℕ → ℕ → UInt8
  | _, 0 => dst
  | [], n + 1 => strncpy (Function.update dst pos 0) (pos + 1) [] n
  | c :: src, n + 1 =>
      if c = 0 then strncpy (Function.update dst pos 0) (pos + 1) [] n
      else strncpy (Function.update dst pos c) (pos + 1) src n

/-- `cacheData`. -/
structure CacheData where
  buf : ℕ → UInt8
  len : ℤ

/-- What has been written to the client, and `rev_data`. -/
structure Response where
  sent : List UInt8
  revData : Option CacheData

/-- The attempt to cache a piece of `n = buf.length` bytes. -/
def tryCache (revData : Option CacheData) (buf : List UInt8) : Option (Option CacheData) :=
  match revData with
  | none => none
  | some d =>
      if d.len + buf.length > MAX_OBJECT_SIZE then some none
      -- the copy would start before the buffer
      else if d.len < 0 then none
      else some (some ⟨strncpy d.buf d.len.toNat buf buf.length, d.len + buf.length⟩)

/-- The body of the loop: the piece is written to the client, and cached. -/
def relayPiece (s : Response) (buf : List UInt8) : Option Response :=
  (tryCache s.revData buf).map fun revData => ⟨s.sent ++ buf, revData⟩

/-- The loop of `doit`, on the pieces that `Rio_readlineb` returns. -/
def receive (s : Response) : List (List UInt8) → Option Response
  | [] => some s
  | buf :: pieces =>
      if buf.length = 0 then some s
      else (relayPiece s buf).bind fun s => receive s pieces

/-- The loop starts with the object that `Malloc` returned. -/
def start (d : CacheData) : Response where
  sent := []
  revData := some d

/-- The `n` bytes from `pos` on. -/
def bytes (buf : ℕ → UInt8) (pos n : ℕ) : List UInt8 := (List.range' pos n).map buf

/-- `buf[0 .. len)`. -/
def stored (d : CacheData) : List UInt8 := bytes d.buf 0 d.len.toNat

/-- What `doit` writes to the client of a later hit. -/
def hit (d : CacheData) : Option (List UInt8) :=
  if 0 ≤ d.len ∧ d.len ≤ MAX_OBJECT_SIZE then some (stored d) else none

/-! ## What `Rio_readlineb` delivers -/

/-- The pieces of a stream: none is empty or longer than a line may be. -/
structure Delivers (stream : List UInt8) (pieces : List (List UInt8)) : Prop where
  flatten : pieces.flatten = stream
  pos : ∀ piece ∈ pieces, 0 < piece.length
  le : ∀ piece ∈ pieces, piece.length ≤ MAXLINE - 1

theorem readlinebLoop_append (n : ℕ) (stream : List UInt8) :
    (readlinebLoop n stream).1 ++ (readlinebLoop n stream).2 = stream := by
  induction n generalizing stream with
  | zero => rfl
  | succ n ih =>
      cases stream with
      | nil => rfl
      | cons c stream =>
          rw [readlinebLoop]
          split_ifs
          · rfl
          · exact congrArg (c :: ·) (ih stream)

theorem length_readlinebLoop (n : ℕ) (stream : List UInt8) :
    (readlinebLoop n stream).1.length ≤ n := by
  induction n generalizing stream with
  | zero => exact le_rfl
  | succ n ih =>
      cases stream with
      | nil => exact Nat.zero_le _
      | cons c stream =>
          rw [readlinebLoop]
          split_ifs
          · exact Nat.succ_le_succ (Nat.zero_le n)
          · exact Nat.succ_le_succ (ih stream)

/-- A line that fits is read whole. -/
theorem readlinebLoop_line {n : ℕ} {line rest : List UInt8} (hline : newline ∉ line)
    (hlen : line.length < n) :
    readlinebLoop n (line ++ newline :: rest) = (line ++ [newline], rest) := by
  induction line generalizing n with
  | nil =>
      obtain ⟨k, rfl⟩ : ∃ k, n = k + 1 := ⟨n - 1, by simp at hlen; omega⟩
      rfl
  | cons c line ih =>
      obtain ⟨k, rfl⟩ : ∃ k, n = k + 1 := ⟨n - 1, by simp at hlen; omega⟩
      rw [List.mem_cons, not_or] at hline
      rw [List.cons_append, readlinebLoop, if_neg (Ne.symm hline.1),
        ih hline.2 (by simpa using hlen)]
      rfl

/-- A piece is empty at the end of the stream only. -/
theorem readlinebLoop_eq_nil {n : ℕ} {stream : List UInt8}
    (h : (readlinebLoop (n + 1) stream).1.length = 0) : stream = [] := by
  cases stream with
  | nil => rfl
  | cons c stream =>
      rw [readlinebLoop] at h
      split_ifs at h

/-- **`Rio_readlineb`** delivers the stream, in pieces of at most `MAXLINE - 1`
bytes. -/
theorem readlines_delivers {fuel : ℕ} {stream : List UInt8} (hfuel : stream.length ≤ fuel) :
    Delivers stream (readlines fuel stream) := by
  induction fuel generalizing stream with
  | zero =>
      obtain rfl := List.length_eq_zero_iff.mp (Nat.le_zero.mp hfuel)
      exact ⟨rfl, by simp [readlines], by simp [readlines]⟩
  | succ fuel ih =>
      have happ := readlinebLoop_append (MAXLINE - 1) stream
      have hle := length_readlinebLoop (MAXLINE - 1) stream
      rw [readlines, rioReadlineb]
      split_ifs with hzero
      · obtain rfl := readlinebLoop_eq_nil hzero
        exact ⟨rfl, by simp, by simp⟩
      · have hlen := congrArg List.length happ
        rw [List.length_append] at hlen
        have hrest : Delivers (readlinebLoop (MAXLINE - 1) stream).2 (readlines fuel _) :=
          ih (by omega)
        constructor
        · rw [List.flatten_cons, hrest.flatten]
          exact happ
        · intro piece hp
          rcases List.mem_cons.mp hp with rfl | hp
          · exact Nat.pos_of_ne_zero hzero
          · exact hrest.pos piece hp
        · intro piece hp
          rcases List.mem_cons.mp hp with rfl | hp
          · exact hle
          · exact hrest.le piece hp

/-! ## The copy -/

/-- What `strncpy` makes of a piece. -/
def copied : List UInt8 → List UInt8
  | [] => []
  | c :: src => if c = 0 then List.replicate (src.length + 1) 0 else c :: copied src

theorem length_copied (src : List UInt8) : (copied src).length = src.length := by
  induction src with
  | nil => rfl
  | cons c src ih =>
      rw [copied]
      split_ifs
      · exact List.length_replicate
      · exact congrArg (· + 1) ih

/-- After a NUL there are only NULs. -/
def NulAtEnd : List UInt8 → Prop
  | [] => True
  | c :: src => if c = 0 then ∀ b ∈ src, b = 0 else NulAtEnd src

/-- **The copy is faithful** for the pieces with no byte after a NUL. -/
theorem copied_eq_iff (src : List UInt8) : copied src = src ↔ NulAtEnd src := by
  induction src with
  | nil => exact iff_of_true rfl trivial
  | cons c src ih =>
      rw [copied, NulAtEnd]
      split_ifs with hc
      · rw [hc, List.replicate_succ, List.cons_inj_right, eq_comm, List.eq_replicate_iff]
        exact and_iff_right rfl
      · rw [List.cons_inj_right]
        exact ih

instance (src : List UInt8) : Decidable (NulAtEnd src) :=
  decidable_of_iff (copied src = src) (copied_eq_iff src)

theorem strncpy_before {dst : ℕ → UInt8} {pos n : ℕ} {src : List UInt8} {j : ℕ} (h : j < pos) :
    strncpy dst pos src n j = dst j := by
  induction n generalizing dst pos src with
  | zero => cases src <;> rfl
  | succ n ih =>
      have hj : j < pos + 1 := Nat.lt_succ_of_lt h
      cases src with
      | nil => rw [strncpy, ih hj, Function.update_of_ne h.ne]
      | cons c src =>
          rw [strncpy]
          split_ifs
          · rw [ih hj, Function.update_of_ne h.ne]
          · rw [ih hj, Function.update_of_ne h.ne]

/-- **`strncpy`** of the first characters of a string: it leaves the cell after them. -/
theorem strncpy_apply {dst : ℕ → UInt8} {pos n : ℕ} {src : List UInt8} (hnul : (0 : UInt8) ∉ src)
    (hn : n ≤ src.length) (j : ℕ) :
    strncpy dst pos src n j = if h : pos ≤ j ∧ j < pos + n then src[j - pos] else dst j := by
  induction n generalizing dst pos src with
  | zero =>
      rw [dif_neg (by omega)]
      cases src <;> rfl
  | succ n ih =>
      cases src with
      | nil => exact absurd hn (by simp)
      | cons c src =>
          rw [List.mem_cons, not_or] at hnul
          rw [strncpy, if_neg (Ne.symm hnul.1), ih hnul.2 (by simpa using hn)]
          by_cases hj : j = pos
          · subst hj
            rw [dif_neg (by omega), dif_pos (by omega), Function.update_self]
            simp
          · by_cases hin : pos + 1 ≤ j ∧ j < pos + 1 + n
            · rw [dif_pos hin, dif_pos (by omega)]
              have hsucc : j - pos = (j - (pos + 1)) + 1 := by omega
              simp only [hsucc, List.getElem_cons_succ]
            · rw [dif_neg hin, dif_neg (by omega), Function.update_of_ne hj]

/-- NULs after the end of the source. -/
theorem bytes_strncpy_nil (dst : ℕ → UInt8) (pos n : ℕ) :
    bytes (strncpy dst pos [] n) pos n = List.replicate n 0 := by
  induction n generalizing dst pos with
  | zero => rfl
  | succ n ih =>
      have htail := ih (Function.update dst pos 0) (pos + 1)
      rw [bytes] at htail
      rw [strncpy, bytes, List.range'_succ, List.map_cons, htail,
        strncpy_before (Nat.lt_succ_self pos), Function.update_self, List.replicate_succ]

/-- **`strncpy`** of a whole piece. -/
theorem bytes_strncpy (dst : ℕ → UInt8) (pos : ℕ) (src : List UInt8) :
    bytes (strncpy dst pos src src.length) pos src.length = copied src := by
  induction src generalizing dst pos with
  | nil => rfl
  | cons c src ih =>
      rw [List.length_cons, strncpy, copied]
      split_ifs
      · have htail := bytes_strncpy_nil (Function.update dst pos 0) (pos + 1) src.length
        rw [bytes] at htail
        rw [bytes, List.range'_succ, List.map_cons, htail,
          strncpy_before (Nat.lt_succ_self pos), Function.update_self, List.replicate_succ]
      · have htail := ih (Function.update dst pos c) (pos + 1)
        rw [bytes] at htail
        rw [bytes, List.range'_succ, List.map_cons, htail,
          strncpy_before (Nat.lt_succ_self pos), Function.update_self]

/-- A hit sends what is stored, when the length is that of an object. -/
theorem hit_eq {d : CacheData} (hpos : 0 ≤ d.len) (hle : d.len ≤ MAX_OBJECT_SIZE) :
    hit d = some (stored d) := if_pos ⟨hpos, hle⟩

/-- The object grows by what the copy makes of the piece. -/
theorem stored_append (d : CacheData) (hpos : 0 ≤ d.len) (src : List UInt8) :
    stored ⟨strncpy d.buf d.len.toNat src src.length, d.len + src.length⟩ =
      stored d ++ copied src := by
  have hlen : (d.len + src.length).toNat = d.len.toNat + src.length := by omega
  rw [stored, stored, hlen, bytes, ← List.range'_append_1, List.map_append, Nat.zero_add]
  congr 1
  · refine List.map_congr_left fun j hj => strncpy_before ?_
    have := (List.mem_range'_1.mp hj).2
    omega
  · exact bytes_strncpy d.buf d.len.toNat src

/-! ## The loop -/

theorem receive_cons {s : Response} {piece : List UInt8} {pieces : List (List UInt8)}
    (h : 0 < piece.length) :
    receive s (piece :: pieces) = (relayPiece s piece).bind fun s => receive s pieces := by
  rw [receive, if_neg h.ne']

/-- The pieces may be taken in two parts. -/
theorem receive_append {s : Response} {p₁ p₂ : List (List UInt8)}
    (hpos : ∀ piece ∈ p₁, 0 < piece.length) :
    receive s (p₁ ++ p₂) = (receive s p₁).bind fun s => receive s p₂ := by
  induction p₁ generalizing s with
  | nil => rfl
  | cons piece p₁ ih =>
      have hpiece := hpos piece List.mem_cons_self
      rw [List.cons_append, receive_cons hpiece, receive_cons hpiece]
      cases relayPiece s piece with
      | none => rfl
      | some s' => exact ih fun q hq => hpos q (List.mem_cons_of_mem _ hq)

/-- After the object was given up, a piece looks at its length again. -/
@[simp] theorem relayPiece_null (sent piece : List UInt8) :
    relayPiece ⟨sent, none⟩ piece = none := rfl

/-- A piece that does not fit. -/
theorem relayPiece_big {d : CacheData} (sent : List UInt8) {piece : List UInt8}
    (hbig : MAX_OBJECT_SIZE < d.len + piece.length) :
    relayPiece ⟨sent, some d⟩ piece = some ⟨sent ++ piece, none⟩ := by
  rw [relayPiece, tryCache]
  simp only
  rw [if_pos (by omega)]
  rfl

/-- A piece that fits is copied. -/
theorem relayPiece_fits {d : CacheData} (sent : List UInt8) {piece : List UInt8}
    (hpos : 0 ≤ d.len) (hfits : d.len + piece.length ≤ MAX_OBJECT_SIZE) :
    relayPiece ⟨sent, some d⟩ piece = some ⟨sent ++ piece,
      some ⟨strncpy d.buf d.len.toNat piece piece.length, d.len + piece.length⟩⟩ := by
  rw [relayPiece, tryCache]
  simp only
  rw [if_neg (by omega), if_neg (by omega)]
  rfl

/-- **As long as the object fits**, the loop sends the pieces and copies each. -/
theorem receive_fits {d : CacheData} (sent : List UInt8) {pieces : List (List UInt8)}
    (hpos : ∀ piece ∈ pieces, 0 < piece.length) (hlen : 0 ≤ d.len)
    (hfits : d.len + pieces.flatten.length ≤ MAX_OBJECT_SIZE) :
    ∃ d', receive ⟨sent, some d⟩ pieces = some ⟨sent ++ pieces.flatten, some d'⟩ ∧
      d'.len = d.len + pieces.flatten.length ∧
      stored d' = stored d ++ (pieces.map copied).flatten := by
  induction pieces generalizing d sent with
  | nil => exact ⟨d, by simp [receive], by simp, by simp⟩
  | cons piece pieces ih =>
      rw [List.flatten_cons, List.length_append] at hfits
      have hpiece := hpos piece List.mem_cons_self
      have hstep := @relayPiece_fits d sent piece hlen (by omega)
      obtain ⟨d', hrec, hlen', hhit⟩ :=
        ih (d := ⟨strncpy d.buf d.len.toNat piece piece.length, d.len + piece.length⟩)
          (sent ++ piece) (fun q hq => hpos q (List.mem_cons_of_mem _ hq)) (by simp only; omega)
          (by simp only; omega)
      refine ⟨d', ?_, ?_, ?_⟩
      · rw [receive_cons hpiece, hstep, Option.bind_some, hrec, List.flatten_cons,
          List.append_assoc]
      · rw [hlen', List.flatten_cons, List.length_append]
        simp only
        omega
      · rw [hhit, stored_append d hlen, List.map_cons, List.flatten_cons, List.append_assoc]

/-! ## A hit equals the miss that filled it -/

/-- The response is relayed and stored, and a later hit sends what was relayed. -/
def HitEqMiss (d : CacheData) (pieces : List (List UInt8)) : Prop :=
  ∃ sent d', receive (start d) pieces = some ⟨sent, some d'⟩ ∧ sent = pieces.flatten ∧
    hit d' = some sent

/-- The copies are the pieces only if each is. -/
theorem flatten_copied_iff (pieces : List (List UInt8)) :
    (pieces.map copied).flatten = pieces.flatten ↔ ∀ piece ∈ pieces, NulAtEnd piece := by
  induction pieces with
  | nil => simp
  | cons piece pieces ih =>
      rw [List.map_cons, List.flatten_cons, List.flatten_cons, List.forall_mem_cons, ← ih,
        ← copied_eq_iff piece]
      constructor
      · exact fun h => List.append_inj h (length_copied piece)
      · rintro ⟨h, h'⟩
        rw [h, h']

/-- **When a hit equals the miss that filled it**: `strncpy` stops at a NUL, so the
object is the response exactly when no piece has another byte after a NUL. -/
theorem hit_eq_miss_iff {stream : List UInt8} {pieces : List (List UInt8)}
    (hdeliv : Delivers stream pieces) (hsize : stream.length ≤ MAX_OBJECT_SIZE) {d : CacheData}
    (hlen : d.len = 0) : HitEqMiss d pieces ↔ ∀ piece ∈ pieces, NulAtEnd piece := by
  have hfits : d.len + pieces.flatten.length ≤ MAX_OBJECT_SIZE := by
    rw [hlen, hdeliv.flatten]
    omega
  obtain ⟨d', hrec, hlen', hhit⟩ := receive_fits [] hdeliv.pos hlen.ge hfits
  have hempty : stored d = [] := by
    rw [stored, hlen]
    rfl
  rw [hempty, List.nil_append] at hhit
  rw [← flatten_copied_iff, ← hhit, ← Option.some_inj, ← hit_eq (by omega) (by omega)]
  constructor
  · rintro ⟨sent, e, hrec', rfl, he⟩
    rw [start, hrec] at hrec'
    simp only [List.nil_append, Option.some.injEq, Response.mk.injEq] at hrec'
    rw [hrec'.2]
    exact he
  · exact fun h => ⟨_, d', hrec, rfl, h⟩

/-- An object that `Malloc` returned, all zero. -/
def zeroed : CacheData where
  buf := fun _ => 0
  len := 0

/-- A line of text, and two NULs at the end of the response. -/
theorem hit_eq_miss_text : HitEqMiss zeroed (readlines 5 [72, 105, 10, 0, 0]) :=
  (hit_eq_miss_iff (readlines_delivers (by decide)) (by decide) rfl).mpr (by decide)

/-- A NUL and a one: the cache holds two NULs. -/
theorem not_hit_eq_miss : ¬ ∀ stream pieces, Delivers stream pieces →
    stream.length ≤ MAX_OBJECT_SIZE → HitEqMiss zeroed pieces := by
  intro h
  obtain ⟨sent, d, hrec, rfl, hhit⟩ := h [0, 1] (readlines 2 [0, 1])
    (readlines_delivers (by decide)) (by decide)
  have hval : (receive (start zeroed) (readlines 2 [0, 1])).bind
      (fun s => s.revData.bind hit) = some [0, 0] := by decide
  rw [hrec, Option.bind_some, Option.bind_some, hhit] at hval
  exact absurd hval (by decide)

/-! ## Responses of any size -/

/-- The response is relayed whole: at every moment, what was read was sent, and
the object is within its bounds; it is stored at the end if it fits. -/
structure Relayed (d : CacheData) (pieces : List (List UInt8)) : Prop where
  always : ∀ pre, pre <+: pieces → ∃ s, receive (start d) pre = some s ∧ s.sent = pre.flatten ∧
    ∀ d' ∈ s.revData, 0 ≤ d'.len ∧ d'.len ≤ MAX_OBJECT_SIZE
  stored : ∃ s, receive (start d) pieces = some s ∧
    (s.revData.isSome = true ↔ pieces.flatten.length ≤ MAX_OBJECT_SIZE)

/-- The object, while it is kept, has the length of what was read. -/
theorem length_of_receive {d d' : CacheData} {sent : List UInt8} {pieces : List (List UInt8)}
    {s : Response} (hpos : ∀ piece ∈ pieces, 0 < piece.length)
    (h : receive ⟨sent, some d⟩ pieces = some s) (hnn : 0 ≤ d.len) (hd : d.len ≤ MAX_OBJECT_SIZE)
    (hs : s.revData = some d') : d'.len = d.len + pieces.flatten.length ∧
      d'.len ≤ MAX_OBJECT_SIZE := by
  induction pieces generalizing d sent with
  | nil =>
      obtain rfl := Option.some.inj h
      obtain rfl := Option.some.inj hs
      exact ⟨by simp, hd⟩
  | cons piece pieces ih =>
      have hrest : ∀ q ∈ pieces, 0 < q.length := fun q hq => hpos q (List.mem_cons_of_mem _ hq)
      rw [receive_cons (hpos piece List.mem_cons_self)] at h
      by_cases hbig : MAX_OBJECT_SIZE < d.len + piece.length
      · -- the object was given up: there is none, or the next piece fails
        rw [relayPiece_big sent hbig, Option.bind_some] at h
        cases pieces with
        | nil =>
            obtain rfl := Option.some.inj h
            exact absurd hs (by simp)
        | cons q pieces =>
            rw [receive_cons (hrest q List.mem_cons_self)] at h
            exact absurd h (by simp)
      · rw [relayPiece_fits sent hnn (by omega), Option.bind_some] at h
        obtain ⟨hlen, hle⟩ := ih hrest h (by simp only; omega) (by simp only; omega)
        refine ⟨?_, hle⟩
        rw [hlen, List.flatten_cons, List.length_append]
        simp only
        omega

/-- Only what `Rio_readlineb` returned before the last piece may decide about the
object. -/
theorem Relayed.length_le {d : CacheData} {pieces : List (List UInt8)}
    (hpos : ∀ piece ∈ pieces, 0 < piece.length) (hlen : d.len = 0) (h : Relayed d pieces) :
    pieces.dropLast.flatten.length ≤ MAX_OBJECT_SIZE := by
  rcases List.eq_nil_or_concat' pieces with rfl | ⟨init, last, rfl⟩
  · exact Nat.zero_le _
  · rw [List.dropLast_concat]
    have hinit : ∀ piece ∈ init, 0 < piece.length := fun q hq => hpos q (by simp [hq])
    obtain ⟨s, hrec, -⟩ := h.stored
    rw [receive_append hinit] at hrec
    obtain ⟨s₁, hrec₁, hlast⟩ := Option.bind_eq_some_iff.mp hrec
    rw [receive_cons (hpos last (by simp))] at hlast
    cases hs : s₁.revData with
    | none =>
        rw [relayPiece, hs] at hlast
        exact absurd hlast (by simp [tryCache])
    | some d' =>
        have hzero : d.len ≤ MAX_OBJECT_SIZE := by rw [hlen]; exact Int.natCast_nonneg _
        obtain ⟨heq, hle⟩ := length_of_receive hinit hrec₁ hlen.ge hzero hs
        omega

/-- The moments before the object is given up. -/
theorem always_fits {d : CacheData} {pieces : List (List UInt8)}
    (hpos : ∀ piece ∈ pieces, 0 < piece.length) (hlen : d.len = 0)
    (hfits : pieces.flatten.length ≤ MAX_OBJECT_SIZE) :
    ∃ d', receive (start d) pieces = some ⟨pieces.flatten, some d'⟩ ∧
      d'.len = pieces.flatten.length := by
  obtain ⟨d', hrec, heq, -⟩ := receive_fits (d := d) [] hpos hlen.ge (by omega)
  exact ⟨d', hrec, by omega⟩

theorem length_flatten_le {pre pieces : List (List UInt8)} (h : pre <+: pieces) :
    pre.flatten.length ≤ pieces.flatten.length := by
  obtain ⟨post, rfl⟩ := h
  rw [List.flatten_append, List.length_append]
  exact Nat.le_add_right _ _

/-- **When a response is relayed whole**: after the object is given up no piece may
follow, since the next one looks at its length again. -/
theorem relayed_iff {pieces : List (List UInt8)} (hpos : ∀ piece ∈ pieces, 0 < piece.length)
    {d : CacheData} (hlen : d.len = 0) :
    Relayed d pieces ↔ pieces.dropLast.flatten.length ≤ MAX_OBJECT_SIZE := by
  refine ⟨Relayed.length_le hpos hlen, fun h => ?_⟩
  -- the prefixes that fit
  have hpre : ∀ pre, pre <+: pieces → pre.flatten.length ≤ MAX_OBJECT_SIZE →
      ∃ s, receive (start d) pre = some s ∧ s.sent = pre.flatten ∧
        (∀ d' ∈ s.revData, 0 ≤ d'.len ∧ d'.len ≤ MAX_OBJECT_SIZE) ∧
        s.revData.isSome = true := by
    intro pre hp hle
    obtain ⟨d', hrec, heq⟩ := always_fits (fun q hq => hpos q (hp.subset hq)) hlen hle
    refine ⟨_, hrec, rfl, ?_, rfl⟩
    intro e he
    obtain rfl := Option.mem_some_iff.mp he
    omega
  by_cases hfits : pieces.flatten.length ≤ MAX_OBJECT_SIZE
  · constructor
    · intro pre hp
      obtain ⟨s, hrec, hsent, hle, -⟩ := hpre pre hp ((length_flatten_le hp).trans hfits)
      exact ⟨s, hrec, hsent, hle⟩
    · obtain ⟨s, hrec, -, -, hsome⟩ := hpre pieces (List.prefix_refl _) hfits
      exact ⟨s, hrec, iff_of_true hsome hfits⟩
  · rcases List.eq_nil_or_concat' pieces with rfl | ⟨init, last, rfl⟩
    · exact absurd (Nat.zero_le _) hfits
    · rw [List.dropLast_concat] at h
      have hinit : ∀ piece ∈ init, 0 < piece.length := fun q hq => hpos q (by simp [hq])
      obtain ⟨d', hrec, heq⟩ := always_fits hinit hlen h
      have hflat : (init ++ [last]).flatten = init.flatten ++ last := by simp
      -- the last piece does not fit
      have hrec' : receive (start d) (init ++ [last]) =
          some ⟨(init ++ [last]).flatten, none⟩ := by
        rw [hflat, List.length_append] at hfits
        rw [receive_append hinit, hrec, Option.bind_some, receive_cons (hpos last (by simp)),
          relayPiece_big _ (by omega), Option.bind_some, hflat]
        rfl
      constructor
      · intro pre hp
        rcases List.prefix_concat_iff.mp hp with rfl | hp'
        · exact ⟨_, hrec', rfl, by simp⟩
        · obtain ⟨s, hs, hsent, hle, -⟩ := hpre pre hp ((length_flatten_le hp').trans h)
          exact ⟨s, hs, hsent, hle⟩
      · exact ⟨_, hrec', iff_of_false (by simp) hfits⟩

/-- A response of two lines. -/
theorem relayed_two_lines : Relayed zeroed (readlines 4 [72, 10, 105, 10]) :=
  (relayed_iff (readlines_delivers (by decide)).pos rfl).mpr (by decide)

/-- Thirteen full pieces are more than an object may hold; one more piece follows. -/
theorem not_relayed_long : ¬ ∀ stream pieces, Delivers stream pieces → Relayed zeroed pieces := by
  intro h
  have hpos : ∀ piece ∈ List.replicate 14 (List.replicate 8191 (65 : UInt8)),
      piece.length = 8191 := by
    intro piece hp
    rw [List.eq_of_mem_replicate hp, List.length_replicate]
  have hdeliv : Delivers (List.replicate 14 (List.replicate 8191 (65 : UInt8))).flatten
      (List.replicate 14 (List.replicate 8191 65)) :=
    ⟨rfl, fun piece hp => by rw [hpos piece hp]; decide, fun piece hp => (hpos piece hp).le⟩
  have hle := (h _ _ hdeliv).length_le hdeliv.pos rfl
  rw [List.dropLast_replicate, List.length_flatten, List.map_replicate, List.length_replicate,
    List.sum_replicate, smul_eq_mul] at hle
  exact absurd hle (by decide)

end Relay
