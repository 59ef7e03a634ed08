/-
# Programs that leave a record

A program that interacts with the world is the list of the events it causes, and what
it ends with: a value, or the reason for which it stops.  Programs are composed with
`do`; what follows a program that stops does not happen.

`Agree R` compares two programs, or two runs of one program from different states: they
cause the same events, and stop for the same reason or end with values related by `R`.
-/
import Mathlib

namespace Effects

/-- The events of a run, and how it ends. -/
@[ext] structure Prog (ε σ α : Type) where
  events : List ε
  result : Except σ α

namespace Prog

variable {ε σ α β : Type}

instance : Monad (Prog ε σ) where
  pure a := ⟨[], .ok a⟩
  bind x f :=
    match x.result with
    | .ok a => ⟨x.events ++ (f a).events, (f a).result⟩
    | .error s => ⟨x.events, .error s⟩

/-- One event. -/
def emit (e : ε) : Prog ε σ Unit := ⟨[e], .ok ()⟩

/-- Some events. -/
def record (es : List ε) : Prog ε σ Unit := ⟨es, .ok ()⟩

/-- The end of the run. -/
def stop (s : σ) : Prog ε σ α := ⟨[], .error s⟩

/-- A value that may be missing, and the reason to stop when it is. -/
def require (s : σ) : Option α → Prog ε σ α
  | some a => pure a
  | none => stop s

@[simp] theorem events_pure (a : α) : (pure a : Prog ε σ α).events = [] := rfl
@[simp] theorem result_pure (a : α) : (pure a : Prog ε σ α).result = .ok a := rfl
@[simp] theorem events_emit (e : ε) : (emit e : Prog ε σ Unit).events = [e] := rfl
@[simp] theorem events_stop (s : σ) : (stop s : Prog ε σ α).events = [] := rfl
@[simp] theorem require_some (s : σ) (a : α) : (require s (some a) : Prog ε σ α) = pure a := rfl
@[simp] theorem require_none (s : σ) : (require s none : Prog ε σ α) = stop s := rfl

/-- What follows a program that ends with a value. -/
theorem bind_of_ok {x : Prog ε σ α} {a : α} (h : x.result = .ok a) (f : α → Prog ε σ β) :
    x >>= f = ⟨x.events ++ (f a).events, (f a).result⟩ := by
  show (match x.result with
    | .ok a => (⟨x.events ++ (f a).events, (f a).result⟩ : Prog ε σ β)
    | .error s => ⟨x.events, .error s⟩) = _
  rw [h]

/-- What follows a program that stops. -/
theorem bind_of_error {x : Prog ε σ α} {s : σ} (h : x.result = .error s) (f : α → Prog ε σ β) :
    x >>= f = ⟨x.events, .error s⟩ := by
  show (match x.result with
    | .ok a => (⟨x.events ++ (f a).events, (f a).result⟩ : Prog ε σ β)
    | .error s => ⟨x.events, .error s⟩) = _
  rw [h]

@[simp] theorem pure_bind (a : α) (f : α → Prog ε σ β) : pure a >>= f = f a := rfl

@[simp] theorem stop_bind (s : σ) (f : α → Prog ε σ β) : stop s >>= f = stop s := rfl

@[simp] theorem events_emit_bind (e : ε) (f : Unit → Prog ε σ β) :
    (emit e >>= f).events = e :: (f ()).events := rfl

@[simp] theorem result_emit_bind (e : ε) (f : Unit → Prog ε σ β) :
    (emit e >>= f).result = (f ()).result := rfl

theorem record_bind (es : List ε) (f : Unit → Prog ε σ β) :
    record es >>= f = ⟨es ++ (f ()).events, (f ()).result⟩ := rfl

@[simp] theorem bind_assoc {γ : Type} (x : Prog ε σ α) (f : α → Prog ε σ β)
    (g : β → Prog ε σ γ) : x >>= f >>= g = x >>= fun a => f a >>= g := by
  cases hx : x.result with
  | error s =>
      rw [bind_of_error hx, bind_of_error hx]
      rfl
  | ok a =>
      rw [bind_of_ok hx, bind_of_ok hx]
      cases hf : (f a).result with
      | error s =>
          rw [bind_of_error (s := s) (x := ⟨x.events ++ (f a).events, _⟩) rfl, bind_of_error hf]
      | ok b =>
          rw [bind_of_ok (a := b) (x := ⟨x.events ++ (f a).events, _⟩) rfl, bind_of_ok hf]
          simp only [List.append_assoc]

/-- The events of the first part are among those of the whole. -/
theorem events_prefix (x : Prog ε σ α) (f : α → Prog ε σ β) :
    x.events <+: (x >>= f).events := by
  cases h : x.result with
  | ok a =>
      rw [bind_of_ok h]
      exact List.prefix_append _ _
  | error s => rw [bind_of_error h]

/-! ## Forgetting the events -/

/-- Without its events and the reason to stop, the program is `o`. -/
def Erases (x : Prog ε σ α) (o : Option α) : Prop := x.result.toOption = o

namespace Erases

theorem pure (a : α) : Erases (Pure.pure a : Prog ε σ α) (some a) := rfl

theorem require (s : σ) (o : Option α) : Erases (require s o : Prog ε σ α) o := by
  cases o <;> rfl

theorem emit_bind (e : ε) {f : Unit → Prog ε σ α} {o : Option α} (h : Erases (f ()) o) :
    Erases (emit e >>= f) o := h

theorem bind_some {x : Prog ε σ α} {a : α} {f : α → Prog ε σ β} {o : Option β}
    (h : Erases x (some a)) (hf : Erases (f a) o) : Erases (x >>= f) o := by
  unfold Erases at h
  cases hx : x.result with
  | ok b =>
      rw [hx] at h
      obtain rfl := Option.some.inj h
      show (x >>= f).result.toOption = _
      rw [bind_of_ok hx]
      exact hf
  | error s =>
      rw [hx] at h
      cases h

theorem bind {x : Prog ε σ α} {o : Option α} {f : α → Prog ε σ β} {g : α → Option β}
    (h : Erases x o) (hfg : ∀ a, Erases (f a) (g a)) : Erases (x >>= f) (o >>= g) := by
  unfold Erases at h
  cases hx : x.result with
  | ok a =>
      rw [hx] at h
      subst h
      show (x >>= f).result.toOption = _
      rw [bind_of_ok hx]
      exact hfg a
  | error s =>
      rw [hx] at h
      subst h
      show (x >>= f).result.toOption = _
      rw [bind_of_error hx]
      rfl

theorem ite {c : Prop} [Decidable c] {x y : Prog ε σ α} {o p : Option α} (h : Erases x o)
    (h' : Erases y p) : Erases (if c then x else y) (if c then o else p) := by
  split_ifs
  · exact h
  · exact h'

/-- How the program ends, from what is left of it. -/
theorem ok_iff {x : Prog ε σ α} {o : Option α} (h : Erases x o) (a : α) :
    x.result = .ok a ↔ o = some a := by
  unfold Erases at h
  rw [← h]
  cases x.result with
  | ok b => simp [Except.toOption]
  | error s => simp [Except.toOption]

end Erases

/-- How a program with two parts ends with a value. -/
theorem bind_eq_ok {x : Prog ε σ α} {f : α → Prog ε σ β} {b : β}
    (h : (x >>= f).result = .ok b) : ∃ a, x.result = .ok a ∧ (f a).result = .ok b ∧
      (x >>= f).events = x.events ++ (f a).events := by
  cases hx : x.result with
  | ok a =>
      rw [bind_of_ok hx] at h
      exact ⟨a, rfl, h, by rw [bind_of_ok hx]⟩
  | error s =>
      rw [bind_of_error hx] at h
      cases h

/-! ## The events of a program -/

/-- Every event satisfies `P`. -/
def Emits (P : ε → Prop) (x : Prog ε σ α) : Prop := ∀ e ∈ x.events, P e

namespace Emits

variable {P : ε → Prop}

theorem pure (a : α) : Emits P (Pure.pure a : Prog ε σ α) := fun _ he => absurd he (by simp)

theorem stop (s : σ) : Emits P (stop s : Prog ε σ α) := fun _ he => absurd he (by simp)

theorem require (s : σ) (o : Option α) : Emits P (require s o : Prog ε σ α) := by
  cases o with
  | some a => exact pure a
  | none => exact stop s

theorem emit {e : ε} (he : P e) : Emits P (emit e : Prog ε σ Unit) := by
  intro e' he'
  obtain rfl := List.mem_singleton.mp he'
  exact he

theorem bind {x : Prog ε σ α} {f : α → Prog ε σ β} (h : Emits P x) (hf : ∀ a, Emits P (f a)) :
    Emits P (x >>= f) := by
  intro e he
  cases hx : x.result with
  | ok a =>
      rw [bind_of_ok hx] at he
      rcases List.mem_append.mp he with he | he
      · exact h e he
      · exact hf a e he
  | error s =>
      rw [bind_of_error hx] at he
      exact h e he

theorem ite {c : Prop} [Decidable c] {x y : Prog ε σ α} (h : Emits P x) (h' : Emits P y) :
    Emits P (if c then x else y) := by
  split_ifs
  · exact h
  · exact h'

end Emits


/-- Every event satisfies `P`, if the program ends with a value. -/
def Clean (P : ε → Prop) (x : Prog ε σ α) : Prop := ∀ a, x.result = .ok a → ∀ e ∈ x.events, P e

namespace Clean

variable {P : ε → Prop}

theorem of_emits {x : Prog ε σ α} (h : Emits P x) : Clean P x := fun _ _ => h

theorem pure (a : α) : Clean P (Pure.pure a : Prog ε σ α) := of_emits (Emits.pure a)

theorem require (s : σ) (o : Option α) : Clean P (require s o : Prog ε σ α) :=
  of_emits (Emits.require s o)

theorem bind {x : Prog ε σ α} {f : α → Prog ε σ β} (h : Clean P x) (hf : ∀ a, Clean P (f a)) :
    Clean P (x >>= f) := by
  intro b hb e he
  obtain ⟨a, hx, hfa, hevents⟩ := bind_eq_ok hb
  rw [hevents] at he
  rcases List.mem_append.mp he with he | he
  · exact h a hx e he
  · exact hf a b hfa e he

theorem ite {c : Prop} [Decidable c] {x y : Prog ε σ α} (h : Clean P x) (h' : Clean P y) :
    Clean P (if c then x else y) := by
  split_ifs
  · exact h
  · exact h'

end Clean

/-! ## Two programs -/

/-- How two runs end alike. -/
inductive EndAlike (R : α → β → Prop) : Except σ α → Except σ β → Prop where
  | ok {a : α} {b : β} : R a b → EndAlike R (.ok a) (.ok b)
  | error (s : σ) : EndAlike R (.error s) (.error s)

/-- The same events, and ends that are alike. -/
structure Agree (R : α → β → Prop) (x : Prog ε σ α) (y : Prog ε σ β) : Prop where
  events : x.events = y.events
  result : EndAlike R x.result y.result

namespace Agree

variable {γ δ : Type} {R : α → β → Prop} {S : γ → δ → Prop}

theorem refl (x : Prog ε σ α) : Agree Eq x x := by
  refine ⟨rfl, ?_⟩
  cases x.result with
  | ok a => exact .ok rfl
  | error s => exact .error s

theorem pure {a : α} {b : β} (h : R a b) :
    Agree R (Pure.pure a : Prog ε σ α) (Pure.pure b) := ⟨rfl, .ok h⟩

theorem stop (s : σ) : Agree R (stop s : Prog ε σ α) (Prog.stop s : Prog ε σ β) :=
  ⟨rfl, .error s⟩

/-- Programs that agree, followed by programs that agree. -/
theorem bind {x : Prog ε σ α} {y : Prog ε σ β} (h : Agree R x y) {f : α → Prog ε σ γ}
    {g : β → Prog ε σ δ} (hfg : ∀ a b, R a b → Agree S (f a) (g b)) :
    Agree S (x >>= f) (y >>= g) := by
  obtain ⟨hevents, hresult⟩ := h
  generalize hx : x.result = ex at hresult
  generalize hy : y.result = ey at hresult
  cases hresult with
  | @ok a b hab =>
      obtain ⟨hev, hres⟩ := hfg a b hab
      rw [bind_of_ok hx, bind_of_ok hy]
      exact ⟨by simp only [hevents, hev], hres⟩
  | error s =>
      rw [bind_of_error hx, bind_of_error hy]
      exact ⟨hevents, .error s⟩

/-- The same program, followed by programs that agree. -/
theorem bind_same (x : Prog ε σ α) {f : α → Prog ε σ γ} {g : α → Prog ε σ δ}
    (hfg : ∀ a, Agree S (f a) (g a)) : Agree S (x >>= f) (x >>= g) :=
  (refl x).bind fun a _ h => h ▸ hfg a

/-- A missing value is missing on both sides. -/
theorem require (s : σ) {a : Option α} {b : Option β} (h : Option.Rel R a b) :
    Agree R (Prog.require s a : Prog ε σ α) (Prog.require s b) := by
  cases h with
  | some h => exact pure h
  | none => exact stop s

end Agree

/-! ## Calls that fail -/

section

variable (p : ε → Bool) (ok : ℕ → Bool)

/-- The events up to the first call that fails, and whether there is none: the calls are the
events with `p`, and `ok` says which of them succeed, from the `k`-th on. -/
def upTo : ℕ → List ε → List ε × Bool
  | _, [] => ([], true)
  | k, e :: es =>
      if p e then
        if ok k then
          let r := upTo (k + 1) es
          (e :: r.1, r.2)
        else ([], false)
      else
        let r := upTo k es
        (e :: r.1, r.2)

/-- The program stops at the first call that fails. -/
def cut (s : σ) (x : Prog ε σ α) : Prog ε σ α :=
  let r := upTo p ok 0 x.events
  ⟨r.1, if r.2 then x.result else .error s⟩

/-- The program ends with a value after `n` calls. -/
structure Takes (x : Prog ε σ α) (a : α) (n : ℕ) : Prop where
  result : x.result = .ok a
  count : x.events.countP p = n

variable {p ok}

theorem upTo_snd {k : ℕ} {es : List ε} :
    (upTo p ok k es).2 = true ↔ ∀ n < es.countP p, ok (k + n) = true := by
  induction es generalizing k with
  | nil => simp [upTo]
  | cons e es ih =>
      rw [upTo, List.countP_cons]
      by_cases hp : p e = true
      · rw [if_pos hp, if_pos hp]
        by_cases hk : ok k = true
        · rw [if_pos hk]
          simp only [ih]
          constructor
          · intro h n hn
            cases n with
            | zero => exact hk
            | succ n =>
                rw [Nat.add_comm n, ← Nat.add_assoc]
                exact h n (by omega)
          · intro h n hn
            rw [Nat.add_assoc, Nat.add_comm 1]
            exact h (n + 1) (by omega)
        · rw [if_neg hk]
          refine iff_of_false Bool.false_ne_true fun h => hk (h 0 (by omega))
      · rw [if_neg hp, if_neg hp]
        exact ih

/-- The events up to a failing call are events of the program. -/
theorem upTo_subset {k : ℕ} {es : List ε} : (upTo p ok k es).1 ⊆ es := by
  induction es generalizing k with
  | nil => exact List.Subset.refl _
  | cons e es ih =>
      rw [upTo]
      split_ifs
      · exact List.cons_subset_cons e ih
      · exact List.nil_subset _
      · exact List.cons_subset_cons e ih

/-- The events of a program with failing calls. -/
theorem cut_events {s : σ} {x : Prog ε σ α} : (cut p ok s x).events ⊆ x.events := upTo_subset

/-- **A program returns** when it does so without failing calls, and none of its calls
fails. -/
theorem cut_ok_iff {s : σ} {x : Prog ε σ α} {a : α} :
    (cut p ok s x).result = .ok a ↔ ∃ n, Takes p x a n ∧ ∀ i < n, ok i = true := by
  have hsnd := @upTo_snd ε p ok 0 x.events
  simp only [Nat.zero_add] at hsnd
  show (if (upTo p ok 0 x.events).2 then x.result else .error s) = .ok a ↔ _
  by_cases h : (upTo p ok 0 x.events).2 = true
  · rw [if_pos h]
    constructor
    · exact fun hx => ⟨_, ⟨hx, rfl⟩, hsnd.mp h⟩
    · rintro ⟨n, hx, -⟩
      exact hx.result
  · rw [if_neg h]
    refine iff_of_false (by simp) ?_
    rintro ⟨n, ⟨-, rfl⟩, hok⟩
    exact h (hsnd.mpr hok)

namespace Takes

theorem pure_iff {a b : α} {n : ℕ} :
    Takes p (pure a : Prog ε σ α) b n ↔ a = b ∧ n = 0 := by
  constructor
  · rintro ⟨hresult, rfl⟩
    exact ⟨Except.ok.inj hresult, rfl⟩
  · rintro ⟨rfl, rfl⟩
    exact ⟨rfl, rfl⟩

theorem not_stop (s : σ) (a : α) (n : ℕ) : ¬ Takes p (stop s : Prog ε σ α) a n := by
  intro h
  cases h.result

/-- **The rule of composition.** -/
theorem bind_iff {x : Prog ε σ α} {f : α → Prog ε σ β} {b : β} {k : ℕ} :
    Takes p (x >>= f) b k ↔ ∃ a n m, Takes p x a n ∧ Takes p (f a) b m ∧ k = n + m := by
  constructor
  · rintro ⟨hresult, rfl⟩
    obtain ⟨a, hx, hf, hevents⟩ := bind_eq_ok hresult
    exact ⟨a, _, _, ⟨hx, rfl⟩, ⟨hf, rfl⟩, by rw [hevents, List.countP_append]⟩
  · rintro ⟨a, n, m, ⟨hx, rfl⟩, ⟨hf, rfl⟩, rfl⟩
    rw [bind_of_ok hx]
    exact ⟨hf, List.countP_append⟩

/-- A value that may be missing. -/
theorem require_bind_iff {s : σ} {o : Option α} {f : α → Prog ε σ β} {b : β} {n : ℕ} :
    Takes p (require s o >>= f) b n ↔ ∃ a, o = some a ∧ Takes p (f a) b n := by
  cases o with
  | none =>
      rw [require_none, stop_bind]
      exact iff_of_false (not_stop s b n) (by simp)
  | some a => simp

/-- An event. -/
theorem emit_iff {e : ε} {u : Unit} {n : ℕ} :
    Takes p (emit e : Prog ε σ Unit) u n ↔ n = if p e then 1 else 0 := by
  have hcount : (emit e : Prog ε σ Unit).events.countP p = if p e then 1 else 0 := by
    rw [events_emit, List.countP_singleton]
  constructor
  · rintro ⟨-, rfl⟩
    exact hcount
  · rintro rfl
    exact ⟨rfl, hcount⟩

theorem emit_bind_iff {e : ε} {f : Unit → Prog ε σ β} {b : β} {n : ℕ} :
    Takes p (emit e >>= f) b n ↔ ∃ m, Takes p (f ()) b m ∧ n = (if p e then 1 else 0) + m := by
  rw [bind_iff]
  constructor
  · rintro ⟨u, k, m, hemit, hf, rfl⟩
    exact ⟨m, hf, congrArg (· + m) (emit_iff.mp hemit)⟩
  · rintro ⟨m, hf, rfl⟩
    exact ⟨(), _, m, emit_iff.mpr rfl, hf, rfl⟩

end Takes

end

end Prog

end Effects
