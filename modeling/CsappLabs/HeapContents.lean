/-
# What the proxy reads of uninitialised memory

`lru_init` does not set `size`, and `doit` does not set the `len` of the object that it
fills.  Two sequences of transactions on memory with other contents do the same when the
contents agree on these two, and on the bytes of the objects below `len` (`serve_agree`).
-/
import CsappLabs.Doit
import CsappLabs.LruAlike

open Effects Effects.Prog CString Relay

namespace Proxy

/-! ## One transaction -/

/-- Two objects with the same `len`, and the same bytes below it, unless `len` is beyond the
end of the buffer. -/
def SameObject (d₁ d₂ : CacheData) : Prop :=
  d₁.len = d₂.len ∧
    (d₁.len ≤ MAX_OBJECT_SIZE → ∀ j : ℕ, (j : ℤ) < d₁.len → d₁.buf j = d₂.buf j)

/-- Such objects are sent alike. -/
theorem sameObject_iff {d₁ d₂ : CacheData} :
    SameObject d₁ d₂ ↔ d₁.len = d₂.len ∧ hit d₁ = hit d₂ := by
  apply and_congr_right
  intro hlen
  unfold hit
  rw [← hlen]
  split_ifs with h
  · rw [Option.some_inj, stored, stored, bytes, bytes, ← hlen]
    constructor
    · intro hbuf
      refine List.map_congr_left fun j hj => hbuf h.2 j ?_
      have := (List.mem_range'_1.mp hj).2
      omega
    · intro hmap _ j hj
      exact List.map_inj_left.mp hmap j (List.mem_range'_1.mpr ⟨Nat.zero_le j, by omega⟩)
  · refine iff_of_true (fun hle j hj => ?_) rfl
    exact absurd ⟨by omega, hle⟩ h

/-- A piece is cached alike. -/
theorem tryCache_rel {r₁ r₂ : Option CacheData} (h : Option.Rel SameObject r₁ r₂)
    (piece : List UInt8) :
    Option.Rel (Option.Rel SameObject) (tryCache r₁ piece) (tryCache r₂ piece) := by
  cases h with
  | none => exact .none
  | @some d₁ d₂ h =>
      obtain ⟨hlen, hhit⟩ := sameObject_iff.mp h
      unfold Relay.tryCache
      simp only [hlen]
      split_ifs with hbig hneg
      · exact .some .none
      · exact .none
      · have hle : d₂.len ≤ MAX_OBJECT_SIZE := by omega
        have hnn : 0 ≤ d₂.len := by omega
        rw [hit_eq (by omega) (by omega), hit_eq hnn hle, Option.some_inj] at hhit
        refine .some (.some (sameObject_iff.mpr ⟨rfl, ?_⟩))
        rw [hit_eq (by simp only; omega) (by simp only; omega),
          hit_eq (by simp only; omega) (by simp only; omega), stored_append d₂ hnn, ← hhit,
          ← hlen, stored_append d₁ (by omega)]

/-- The loop over the response does the same to objects that are the same. -/
theorem responseLoop_agree {r₁ r₂ : Option CacheData} (h : Option.Rel SameObject r₁ r₂)
    (pieces : List (List UInt8)) :
    Agree (Option.Rel SameObject) (responseLoop r₁ pieces) (responseLoop r₂ pieces) := by
  induction pieces generalizing r₁ r₂ with
  | nil => exact .pure h
  | cons piece pieces ih =>
      rw [responseLoop, responseLoop]
      split_ifs
      · exact .pure h
      · refine .bind_same _ fun _ => ?_
        exact (Agree.require Stop.crash (tryCache_rel h piece)).bind fun _ _ h => ih h

/-- The key that is evicted is that of the first entry. -/
theorem evicted_eq {lru : Cache} {es : List (List UInt8 × CacheData)} (h : Lru.Holds lru es)
    (hne : lru.capacity = lru.size → es ≠ []) (url : List UInt8) :
    evicted lru url = if url ∉ es.map Prod.fst ∧ lru.capacity = lru.size
      then es.head?.map Prod.fst else none := by
  obtain ⟨ns, hc, rfl, hnd⟩ := h
  unfold evicted
  rcases Lru.lruFind_entries hc hnd url with ⟨hfind, hval⟩ | ⟨l₁, n, l₂, rfl, hfind, hkey, -, -⟩
  · rw [hfind]
    have hmiss := Lru.valueOf_eq_none.mp hval
    show (if lru.capacity = lru.size then some (lru.key (lru.nxt lru.head)) else none) = _
    by_cases hfull : lru.capacity = lru.size
    · rw [if_pos hfull, if_pos ⟨hmiss, hfull⟩]
      cases ns with
      | nil => exact absurd rfl (hne hfull)
      | cons n ns =>
          have hnxt : lru.nxt lru.head = n := hc.linked.1
          rw [hnxt]
          rfl
    · rw [if_neg hfull, if_neg fun h => hfull h.2]
  · rw [hfind]
    have hmem : url ∈ (Lru.entriesAt lru (l₁ ++ n :: l₂)).map Prod.fst := by
      simp [Lru.entriesAt, hkey]
    show none = _
    rw [if_neg fun hboth => hboth.1 hmem]

/-- The same is stored and evicted. -/
theorem storeObject_agree {lru₁ lru₂ : Cache} (h : Lru.Alike SameObject lru₁ lru₂)
    (url : List UInt8) {d₁ d₂ : CacheData} (hd : SameObject d₁ d₂) :
    Agree (Lru.Alike SameObject) (storeObject lru₁ url d₁) (storeObject lru₂ url d₂) := by
  have hput := h.lruPut url hd
  obtain ⟨es₁, es₂, h₁, h₂, hes, hsize, hcap⟩ := h
  by_cases hempty : lru₁.capacity = lru₁.size ∧ es₁ = []
  · -- both crash
    obtain ⟨hfull, rfl⟩ := hempty
    obtain rfl : es₂ = [] := List.map_eq_nil_iff.mp hes.keys.symm
    unfold storeObject
    rw [Lru.lruPut_empty h₁ hfull, Lru.lruPut_empty h₂ (by rw [← hcap, ← hsize, hfull])]
    exact .stop _
  · have hne₁ : lru₁.capacity = lru₁.size → es₁ ≠ [] := fun hf he => hempty ⟨hf, he⟩
    have hne₂ : lru₂.capacity = lru₂.size → es₂ ≠ [] := by
      rintro hf rfl
      exact hne₁ (by rw [hcap, hsize, hf]) (List.map_eq_nil_iff.mp hes.keys)
    have hevicted : evicted lru₁ url = evicted lru₂ url := by
      rw [evicted_eq h₁ hne₁, evicted_eq h₂ hne₂, hcap, hsize, ← List.head?_map, ← List.head?_map,
        hes.keys]
    -- the record of the store, then that of the eviction
    unfold storeObject
    obtain ⟨hlen, hhit⟩ := sameObject_iff.mp hd
    rw [hevicted, hlen, hhit]
    refine (Agree.require Stop.crash hput).bind fun lru₁' lru₂' hl => ?_
    refine .bind_same _ fun _ => ?_
    cases evicted lru₂ url with
    | some k => exact .bind_same _ fun _ => .pure hl
    | none => exact .pure hl

/-- What follows a request does the same. -/
theorem afterRequest_agree {lru₁ lru₂ : Cache} (h : Lru.Alike SameObject lru₁ lru₂)
    {d₁ d₂ : CacheData} (hd : SameObject d₁ d₂) (net : Net) (o : Option Frame) :
    Agree (Lru.Alike SameObject) (afterRequest net d₁ lru₁ o) (afterRequest net d₂ lru₂ o) := by
  cases o with
  | none => exact .pure h
  | some f =>
      refine (responseLoop_agree (.some hd) _).bind ?_
      rintro r₁ r₂ hr
      cases hr with
      | none => exact .pure h
      | some hr => exact .bind_same _ fun url => storeObject_agree h url hr

/-- **One transaction** does the same to caches that are alike, with objects that are the
same. -/
theorem doit_agree {lru₁ lru₂ : Cache} (h : Lru.Alike SameObject lru₁ lru₂) {d₁ d₂ : CacheData}
    (hd : SameObject d₁ d₂) (net : Net) (f : Frame) (input : List UInt8) :
    Agree (Lru.Alike SameObject) (doit net f d₁ lru₁ input) (doit net f d₂ lru₂ input) := by
  unfold doit
  simp only
  split_ifs
  · exact .pure h
  · refine .bind_same _ fun url => ?_
    refine (Agree.require Stop.crash (h.lruGet url)).bind ?_
    rintro ⟨lru₁', o₁⟩ ⟨lru₂', o₂⟩ ⟨hl, ho⟩
    simp only at hl ho
    cases ho with
    | some ho =>
        refine .bind_same _ fun _ => ?_
        simp only [(sameObject_iff.mp ho).2]
        exact .bind_same _ fun s => .bind_same _ fun _ => .pure hl
    | none =>
        refine .bind_same _ fun _ => ?_
        unfold fetch
        simp only
        split_ifs
        · exact .bind_same _ fun o => afterRequest_agree hl hd net o
        · exact .bind_same _ fun _ => .pure hl

/-! ## Any number of transactions -/

/-- **Any sequence of transactions** does the same to caches that are alike, with objects
that are the same. -/
theorem serve_agree {lru₁ lru₂ : Cache} (h : Lru.Alike SameObject lru₁ lru₂)
    {rev₁ rev₂ : ℕ → CacheData} (hrev : ∀ i, SameObject (rev₁ i) (rev₂ i))
    (ts : List Transaction) :
    Agree (Lru.Alike SameObject) (serve rev₁ lru₁ ts) (serve rev₂ lru₂ ts) := by
  induction ts generalizing lru₁ lru₂ rev₁ rev₂ with
  | nil => exact .pure h
  | cons t ts ih =>
      refine (doit_agree h (hrev 0) t.net t.frame t.input).bind fun _ _ hl => ?_
      exact ih hl fun i => hrev (i + 1)

/-- The caches hold the same keys, with objects that are the same. -/
def SameEntries (lru₁ lru₂ : Cache) : Prop :=
  ∃ es₁ es₂, Lru.Holds lru₁ es₁ ∧ Lru.Holds lru₂ es₂ ∧ Lru.EntriesAlike SameObject es₁ es₂

/-- No result depends on which of two contents the memory had: for every capacity, every
sequence of transactions sends the same, hits and misses the same, evicts the same and
stores the same. -/
def SameResults (m₁ m₂ : Cache) (rev₁ rev₂ : ℕ → CacheData) : Prop :=
  ∀ c : ℤ, 1 ≤ c → c < 2 ^ 31 → ∀ ts,
    Agree SameEntries (serve rev₁ (Lru.lruInit c m₁) ts) (serve rev₂ (Lru.lruInit c m₂) ts)

end Proxy
