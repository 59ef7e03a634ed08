/-
# Linearization

Threads call operations on a shared object.  A history is the list of the calls
and returns, in order.  `Linearizes hist st log` says that `log` is an order of the
calls in which each call of a history stands at a moment between its call and its
return, with the result it returns; `st i` is where the last call of thread `i` is.
What the threads saw is then what they would have seen if the calls had been made
one after the other, in the order of `log` (`Linearizes.results`).
-/
import Mathlib

namespace Linearization

/-- What can be seen of a call. -/
inductive Event (ι Op R : Type*) where
  | call (i : ι) (op : Op) : Event ι Op R
  | ret (i : ι) (r : R) : Event ι Op R
  deriving DecidableEq, Repr

/-- Where a thread is: outside a call, in a call that has not taken effect, or in
one that has. -/
inductive Status (Op R : Type*) where
  | idle : Status Op R
  | called (op : Op) : Status Op R
  | took (op : Op) (r : R) : Status Op R
  deriving DecidableEq, Repr

/-- A call of thread `i` that took effect, with its result. -/
structure Effect (ι Op R : Type*) where
  thread : ι
  op : Op
  result : R
  deriving DecidableEq, Repr

variable {ι Op R : Type*} [DecidableEq ι]

/-- **Linearizations** of a history. -/
inductive Linearizes : List (Event ι Op R) → (ι → Status Op R) → List (Effect ι Op R) → Prop where
  | nil : Linearizes [] (fun _ => .idle) []
  | call {hist st log i op} : Linearizes hist st log → st i = .idle →
      Linearizes (hist ++ [.call i op]) (Function.update st i (.called op)) log
  | take {hist st log i op} (r : R) : Linearizes hist st log → st i = .called op →
      Linearizes hist (Function.update st i (.took op r)) (log ++ [⟨i, op, r⟩])
  | ret {hist st log i op r} : Linearizes hist st log → st i = .took op r →
      Linearizes (hist ++ [.ret i r]) (Function.update st i .idle) log

/-- What the calls of thread `i` returned. -/
def returned (i : ι) (hist : List (Event ι Op R)) : List R :=
  hist.filterMap fun
    | .call _ _ => none
    | .ret j r => if j = i then some r else none

/-- The calls that thread `i` made. -/
def called (i : ι) (hist : List (Event ι Op R)) : List Op :=
  hist.filterMap fun
    | .call j op => if j = i then some op else none
    | .ret _ _ => none

/-- The calls of thread `i` in a log. -/
def ofThread (i : ι) (log : List (Effect ι Op R)) : List (Effect ι Op R) :=
  log.filter fun e => decide (e.thread = i)

/-- The result that a call still has to return. -/
def Status.unreturned : Status Op R → List R
  | .took _ r => [r]
  | _ => []

/-- The call that has not taken effect. -/
def Status.waiting : Status Op R → List Op
  | .called op => [op]
  | _ => []

namespace Linearizes

variable {hist : List (Event ι Op R)} {st : ι → Status Op R} {log : List (Effect ι Op R)}

/-- **The results** of a thread's calls in the log are the values it was returned,
in order. -/
theorem results (h : Linearizes hist st log) (i : ι) :
    (ofThread i log).map Effect.result = returned i hist ++ (st i).unreturned := by
  induction h with
  | nil => rfl
  | @call hist st log j op _ hidle ih =>
      rw [ih]
      by_cases hj : i = j
      · subst hj
        simp [returned, hidle, Status.unreturned]
      · simp [returned, Function.update_of_ne hj]
  | @take hist st log j op r _ hcalled ih =>
      by_cases hj : i = j
      · subst hj
        rw [hcalled] at ih
        simp [ofThread, Status.unreturned] at ih ⊢
        exact ih
      · have hne : j ≠ i := Ne.symm hj
        simpa [ofThread, Function.update_of_ne hj, hne] using ih
  | @ret hist st log j op r _ htook ih =>
      rw [ih]
      by_cases hj : i = j
      · subst hj
        simp [returned, htook, Status.unreturned]
      · have hne : j ≠ i := Ne.symm hj
        simp [returned, Function.update_of_ne hj, hne]

/-- **The calls** of a thread stand in the log in the order it made them. -/
theorem ops (h : Linearizes hist st log) (i : ι) :
    (ofThread i log).map Effect.op ++ (st i).waiting = called i hist := by
  induction h with
  | nil => rfl
  | @call hist st log j op _ hidle ih =>
      by_cases hj : i = j
      · subst hj
        rw [hidle] at ih
        simp [called, Status.waiting] at ih ⊢
        exact ih
      · have hne : j ≠ i := Ne.symm hj
        simpa [called, Function.update_of_ne hj, hne] using ih
  | @take hist st log j op r _ hcalled ih =>
      rw [← ih]
      by_cases hj : i = j
      · subst hj
        simp [ofThread, hcalled, Status.waiting]
      · have hne : j ≠ i := Ne.symm hj
        simp [ofThread, Function.update_of_ne hj, hne]
  | @ret hist st log j op r _ htook ih =>
      by_cases hj : i = j
      · subst hj
        rw [htook] at ih
        simpa [called, Status.waiting] using ih
      · simpa [called, Function.update_of_ne hj] using ih

end Linearizes

end Linearization
