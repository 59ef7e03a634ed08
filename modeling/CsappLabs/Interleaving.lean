/-
# Interleavings

Several sources, each with its own sequence of events, and the orders in which all the events
can come one after the other: `SameOrder` relates the orders that keep the events of each
source in their order.  When the events of different sources commute, a run has the same
result in all of them (`foldlM_sameOrder`).

A run on a list of events is a sequence of steps (`reflTransGen_of_run`).
-/
import Mathlib

namespace Interleaving

universe u

variable {κ ε : Type*} [DecidableEq κ]

/-- The events of one source. -/
def ofKey (k : κ) (es : List (κ × ε)) : List (κ × ε) := es.filter fun e => e.1 = k

/-- The same events, in the same order for each source. -/
def SameOrder (es es' : List (κ × ε)) : Prop := ∀ k, ofKey k es = ofKey k es'

theorem ofKey_append (k : κ) (es es' : List (κ × ε)) :
    ofKey k (es ++ es') = ofKey k es ++ ofKey k es' := List.filter_append ..

theorem ofKey_cons_self (e : κ × ε) (es : List (κ × ε)) : ofKey e.1 (e :: es) = e :: ofKey e.1 es :=
  List.filter_cons_of_pos (decide_eq_true rfl)

theorem ofKey_cons_of_ne {k : κ} {e : κ × ε} (h : e.1 ≠ k) (es : List (κ × ε)) :
    ofKey k (e :: es) = ofKey k es :=
  List.filter_cons_of_neg (by simpa using h)

/-- The first event of one order stands in the other one behind events of other sources. -/
theorem SameOrder.cons {e : κ × ε} {es es' : List (κ × ε)} (h : SameOrder (e :: es) es') :
    ∃ before after, es' = before ++ e :: after ∧ (∀ x ∈ before, x.1 ≠ e.1) ∧
      SameOrder es (before ++ after) := by
  have hkey := h e.1
  rw [ofKey_cons_self] at hkey
  obtain ⟨before, after, rfl, hbefore, -, hafter⟩ := List.filter_eq_cons_iff.mp hkey.symm
  have hne : ∀ x ∈ before, x.1 ≠ e.1 := fun x hx => by simpa using hbefore x hx
  have hnil : ofKey e.1 before = [] := List.filter_eq_nil_iff.mpr hbefore
  refine ⟨before, after, rfl, hne, fun k => ?_⟩
  have hk := h k
  rw [ofKey_append] at hk ⊢
  by_cases hek : e.1 = k
  · rw [← hek, hnil]
    exact hafter.symm
  · rw [ofKey_cons_of_ne hek, ofKey_cons_of_ne hek] at hk
    exact hk

theorem SameOrder.eq_nil {es : List (κ × ε)} (h : SameOrder [] es) : es = [] := by
  cases es with
  | nil => rfl
  | cons e es =>
      have hk := h e.1
      rw [ofKey_cons_self] at hk
      cases hk

section

variable {σ : Type u} {m : Type u → Type*} [Monad m] [LawfulMonad m] {step : σ → κ × ε → m σ}

/-- The events of different sources commute. -/
def StepsCommute (step : σ → κ × ε → m σ) : Prop :=
  ∀ s e e', e.1 ≠ e'.1 → (step s e >>= fun t => step t e') = step s e' >>= fun t => step t e

omit [DecidableEq κ] in
/-- An event passes the events of other sources. -/
theorem StepsCommute.foldlM_cons (hcomm : StepsCommute step) {e : κ × ε} {es : List (κ × ε)}
    (h : ∀ x ∈ es, x.1 ≠ e.1) (s : σ) :
    (es.foldlM step s >>= fun t => step t e) = step s e >>= fun t => es.foldlM step t := by
  induction es generalizing s with
  | nil => simp
  | cons x es ih =>
      rw [List.forall_mem_cons] at h
      simp only [List.foldlM_cons, bind_assoc]
      have hx := hcomm s x e h.1
      calc (step s x >>= fun t => es.foldlM step t >>= fun t => step t e)
          = step s x >>= fun t => step t e >>= fun t => es.foldlM step t := by
            simp only [ih h.2]
        _ = (step s x >>= fun t => step t e) >>= fun t => es.foldlM step t := by
            rw [bind_assoc]
        _ = (step s e >>= fun t => step t x) >>= fun t => es.foldlM step t := by
            rw [hx]
        _ = step s e >>= fun t => step t x >>= fun t => es.foldlM step t := by
            rw [bind_assoc]

/-- **A run has the same result in all orders** that keep the events of each source in their
order. -/
theorem foldlM_sameOrder (hcomm : StepsCommute step) {es es' : List (κ × ε)} (h : SameOrder es es')
    (s : σ) : es.foldlM step s = es'.foldlM step s := by
  induction es generalizing es' s with
  | nil => rw [h.eq_nil]
  | cons e es ih =>
      obtain ⟨before, after, rfl, hne, hrest⟩ := h.cons
      calc (e :: es).foldlM step s
          = step s e >>= fun t => (before ++ after).foldlM step t := by
            simp only [List.foldlM_cons, ih hrest]
        _ = (step s e >>= fun t => before.foldlM step t) >>= fun t => after.foldlM step t := by
            simp only [List.foldlM_append, bind_assoc]
        _ = (before.foldlM step s >>= fun t => step t e) >>= fun t => after.foldlM step t := by
            rw [hcomm.foldlM_cons hne]
        _ = (before ++ e :: after).foldlM step s := by
            simp only [List.foldlM_append, List.foldlM_cons, bind_assoc]

end

/-- **A run takes its steps one after the other.** -/
theorem reflTransGen_of_run {σ α : Type*} {R : σ → σ → Prop} {run : σ → List α → Option σ}
    (hnil : ∀ s, run s [] = some s)
    (hcons : ∀ {s s' a as}, run s (a :: as) = some s' → ∃ t, R s t ∧ run t as = some s')
    {as : List α} {s s' : σ} (h : run s as = some s') : Relation.ReflTransGen R s s' := by
  induction as generalizing s with
  | nil =>
      rw [hnil] at h
      obtain rfl := Option.some.inj h
      exact .refl
  | cons a as ih =>
      obtain ⟨t, hstep, hrest⟩ := hcons h
      exact .head hstep (ih hrest)

end Interleaving
