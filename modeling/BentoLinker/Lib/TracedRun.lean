import Mathlib.Data.Nat.Notation
import Mathlib.Data.List.Basic

/-!
# Traced Computations

Computations that write down what they do, in order, and may stop with an error.

- `perform`: one event, whose failure ends the computation
- `Ending`: a trace that ends with its first failure, if it has one
- `Adds`: what a computation adds to the trace, whatever it finds there
- `Adds.bind`, `adds_perform`, `adds_pure`, `adds_throw`: the rules
- `Halts`: computations that do not run out of fuel

What is outside of a computation and answers it may go by all that has happened: an answer is
a function of the trace.
-/

namespace TracedRun

variable {E ε α β : Type}

/-- A computation with a trace, the oldest event first -/
abbrev Traced (E ε : Type) : Type → Type := ExceptT ε (StateM (List E))

/-- Write down an event, and stop if it is a failure -/
def perform (failure : E → Option ε) (answer : List E → E × α) : Traced E ε α := fun log =>
  let (e, a) := answer log
  match failure e with
  | some c => (.error c, log ++ [e])
  | none => (.ok a, log ++ [e])

section Rules

/- The error of an event, and the error of a computation whose step budget is used up -/
variable (failure : E → Option ε) (out : ε)

/-- A stretch of a trace without failures -/
def Clean (evs : List E) : Prop := ∀ e ∈ evs, failure e = none

/-- How a stretch of a trace and a result go together -/
inductive Ending : List E → Except ε α → Prop
  | ok {evs : List E} {a : α} (h : Clean failure evs) : Ending evs (.ok a)
  | failed {evs : List E} {e : E} {c : ε} (h : Clean failure evs) (he : failure e = some c) :
      Ending (evs ++ [e]) (.error c)
  | out {evs : List E} (h : Clean failure evs) : Ending evs (.error out)

/-- The computation stops at its first failure, and what it adds to the trace is `fine`. -/
def Adds (fine : List E → Prop) (m : Traced E ε α) : Prop :=
  ∀ log, ∃ evs, (m log).2 = log ++ evs ∧ fine evs ∧ Ending failure out evs (m log).1

variable {failure out} {fine : List E → Prop}

theorem Clean.append {evs evs' : List E} (h : Clean failure evs) (h' : Clean failure evs') :
    Clean failure (evs ++ evs') := by
  intro e he
  rcases List.mem_append.mp he with he | he
  · exact h e he
  · exact h' e he

theorem clean_nil : Clean failure [] := fun _ he => (List.not_mem_nil he).elim

theorem clean_singleton {e : E} (he : failure e = none) : Clean failure [e] := by
  intro e' he'
  obtain rfl := List.mem_singleton.mp he'
  exact he

/-- What happens behind a stretch without failures decides how it ends. -/
theorem Ending.append {evs evs' : List E} {r : Except ε α} (h : Clean failure evs)
    (h' : Ending failure out evs' r) : Ending failure out (evs ++ evs') r := by
  cases h' with
  | ok h' => exact .ok (h.append h')
  | failed h' he =>
    rw [← List.append_assoc]
    exact .failed (h.append h') he
  | out h' => exact .out (h.append h')

theorem Ending.clean {evs : List E} {a : α} (h : Ending failure out evs (.ok a)) :
    Clean failure evs := by
  cases h with
  | ok h => exact h

/-- An error passes through whatever was to come behind it. -/
theorem Ending.error {evs : List E} {c : ε} (h : Ending failure out evs (.error c : Except ε α)) :
    Ending failure out evs (.error c : Except ε β) := by
  cases h with
  | failed h he => exact .failed h he
  | out h => exact .out h

/-- A result that is not for want of fuel is the one of the first failure. -/
theorem Ending.exists_failure {evs : List E} {c : ε}
    (h : Ending failure out evs (.error c : Except ε α)) (hc : c ≠ out) :
    ∃ e ∈ evs, failure e = some c := by
  cases h with
  | failed h he => exact ⟨_, List.mem_append_right _ (List.mem_singleton_self _), he⟩
  | out h => exact absurd rfl hc

theorem adds_pure (hnil : fine []) (a : α) : Adds failure out fine (pure a) := by
  intro log
  exact ⟨[], (List.append_nil log).symm, hnil, .ok clean_nil⟩

theorem adds_throw (hnil : fine []) :
    Adds failure out fine (throw out : Traced E ε α) := by
  intro log
  exact ⟨[], (List.append_nil log).symm, hnil, .out clean_nil⟩

theorem bind_of_ok {m : Traced E ε α} {f : α → Traced E ε β} {log log' : List E} {a : α}
    (h : m log = (.ok a, log')) : (m >>= f) log = f a log' := by
  change ExceptT.bindCont f (m log).1 (m log).2 = _
  rw [h]
  rfl

theorem bind_of_error {m : Traced E ε α} {f : α → Traced E ε β} {log log' : List E} {c : ε}
    (h : m log = (.error c, log')) : (m >>= f) log = (.error c, log') := by
  change ExceptT.bindCont f (m log).1 (m log).2 = _
  rw [h]
  rfl

theorem Adds.bind {m : Traced E ε α} {f : α → Traced E ε β}
    (happend : ∀ evs evs', fine evs → fine evs' → fine (evs ++ evs'))
    (hm : Adds failure out fine m) (hf : ∀ a, Adds failure out fine (f a)) :
    Adds failure out fine (m >>= f) := by
  intro log
  obtain ⟨evs, hlog, hfine, hend⟩ := hm log
  rcases hrun : m log with ⟨_ | a, log'⟩
  · rw [hrun] at hlog hend
    rw [bind_of_error hrun]
    exact ⟨evs, hlog, hfine, hend.error⟩
  · rw [hrun] at hlog hend
    obtain rfl : log' = log ++ evs := hlog
    obtain ⟨evs', hlog', hfine', hend'⟩ := hf a (log ++ evs)
    rw [bind_of_ok hrun]
    refine ⟨evs ++ evs', ?_, happend _ _ hfine hfine', .append hend.clean hend'⟩
    rw [hlog', List.append_assoc]

theorem perform_of_failure {answer : List E → E × α} {log : List E} {e : E} {a : α} {c : ε}
    (h : answer log = (e, a)) (he : failure e = some c) :
    perform failure answer log = (.error c, log ++ [e]) := by
  simp only [perform, h, he]

theorem perform_of_none {answer : List E → E × α} {log : List E} {e : E} {a : α}
    (h : answer log = (e, a)) (he : failure e = none) :
    perform failure answer log = (.ok a, log ++ [e]) := by
  simp only [perform, h, he]

theorem adds_perform {answer : List E → E × α} (h : ∀ log, fine [(answer log).1]) :
    Adds failure out fine (perform failure answer) := by
  intro log
  rcases hanswer : answer log with ⟨e, a⟩
  have hfine : fine [e] := by
    have := h log
    rwa [hanswer] at this
  cases he : failure e with
  | none =>
    rw [perform_of_none hanswer he]
    exact ⟨[e], rfl, hfine, .ok (clean_singleton he)⟩
  | some c =>
    rw [perform_of_failure hanswer he]
    exact ⟨[e], rfl, hfine, .append clean_nil (.failed clean_nil he)⟩

/-- The computation comes to its own end, whatever it finds in the trace. -/
def Halts (out : ε) (m : Traced E ε α) : Prop := ∀ log, (m log).1 ≠ .error out

theorem halts_pure (a : α) : Halts out (pure a : Traced E ε α) := by
  intro log h
  cases h

theorem Halts.bind {m : Traced E ε α} {f : α → Traced E ε β} (hm : Halts out m)
    (hf : ∀ a, Halts out (f a)) : Halts out (m >>= f) := by
  intro log
  have hne := hm log
  rcases hrun : m log with ⟨c | a, log'⟩
  · rw [bind_of_error hrun]
    rw [hrun] at hne
    intro heq
    cases heq
    exact hne rfl
  · rw [bind_of_ok hrun]
    exact hf a log'

theorem halts_perform {answer : List E → E × α} (h : ∀ e, failure e ≠ some out) :
    Halts out (perform failure answer) := by
  intro log
  rcases hanswer : answer log with ⟨e, a⟩
  cases he : failure e with
  | none =>
    rw [perform_of_none hanswer he]
    nofun
  | some c =>
    rw [perform_of_failure hanswer he]
    intro heq
    cases heq
    exact h e he

end Rules

end TracedRun
