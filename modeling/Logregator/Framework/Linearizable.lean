import Mathlib.Logic.Function.Basic

/-!
# Machines, simulations and linearizable histories

A machine takes steps that show events (`Runs`). If every step of one can be
followed by another that shows the same (`Runs.simulate`), so can every run.

An object answers the operations of processes that call it at the same time.
Its history shows when each is called and when it returns. A history is
`Linearizable` if the atomic object has it: there, an operation takes effect at
one point between its call and its return, and returns what it gave there.
-/

namespace LG

/-! ## Machines -/

section Machine

variable {σ τ ε : Type}

/-- Steps of a machine one after the other, with the events that they show. -/
inductive Runs (step : σ → List ε → σ → Prop) : σ → List ε → σ → Prop
  | nil {s} : Runs step s [] s
  | cons {s t u es es'} (h : step s es t) (hr : Runs step t es' u) : Runs step s (es ++ es') u

namespace Runs

variable {step : σ → List ε → σ → Prop}

theorem single {s t : σ} {es : List ε} (h : step s es t) : Runs step s es t := by
  have hr := Runs.cons h .nil
  rwa [List.append_nil] at hr

theorem append {s t u : σ} {es es' : List ε} (h : Runs step s es t) (h' : Runs step t es' u) :
    Runs step s (es ++ es') u := by
  induction h with
  | nil => exact h'
  | cons hs _ ih =>
    rw [List.append_assoc]
    exact .cons hs (ih h')

/-- What every step keeps, along with the events it shows, a run keeps. -/
theorem along {I : List ε → σ → Prop}
    (hstep : ∀ {l es s t}, I l s → step s es t → I (l ++ es) t) {s t : σ} {es : List ε}
    (h : Runs step s es t) {l : List ε} (hI : I l s) : I (l ++ es) t := by
  induction h generalizing l with
  | nil =>
    rw [List.append_nil]
    exact hI
  | cons hs _ ih =>
    rw [← List.append_assoc]
    exact ih (hstep hI hs)

/-- A machine that can follow every step of another can follow its runs. -/
theorem simulate {step' : τ → List ε → τ → Prop} {R : σ → τ → Prop}
    (hstep : ∀ {s t es a}, R s a → step s es t → ∃ b, Runs step' a es b ∧ R t b) {s t : σ}
    {es : List ε} (h : Runs step s es t) {a : τ} (hR : R s a) : ∃ b, Runs step' a es b ∧ R t b := by
  induction h generalizing a with
  | nil => exact ⟨a, .nil, hR⟩
  | cons hs _ ih =>
    obtain ⟨b, hb, hR⟩ := hstep hR hs
    obtain ⟨d, hd, hR⟩ := ih hR
    exact ⟨d, hb.append hd, hR⟩

end Runs

end Machine

/-! ## Atomic objects -/

section Atomic

/-- What a history shows. -/
inductive HistoryEvent (ι Op Res : Type) where
  | call (p : ι) (op : Op)
  | ret (p : ι) (res : Res)
  deriving DecidableEq

/-- What a process is doing: nothing, an operation without effect yet, or one
that took effect and is to return a result. -/
inductive CallStatus (Op Res : Type) where
  | idle
  | called (op : Op)
  | done (res : Res)

/-- An object and the processes that call it. -/
structure AtomicState (σ ι Op Res : Type) where
  obj : σ
  status : ι → CallStatus Op Res

variable {σ ι Op Res : Type} [DecidableEq ι]

/-- An atomic object, where `apply` says what an operation may give and leave. -/
inductive AtomicStep (apply : σ → Op → Res → σ → Prop) :
    AtomicState σ ι Op Res → List (HistoryEvent ι Op Res) → AtomicState σ ι Op Res → Prop
  | call {a p op} (h : a.status p = .idle) :
    AtomicStep apply a [.call p op] ⟨a.obj, Function.update a.status p (.called op)⟩
  | point {a p op res obj} (h : a.status p = .called op) (ha : apply a.obj op res obj) :
    AtomicStep apply a [] ⟨obj, Function.update a.status p (.done res)⟩
  | ret {a p res} (h : a.status p = .done res) :
    AtomicStep apply a [.ret p res] ⟨a.obj, Function.update a.status p .idle⟩

/-- The atomic object has the history. -/
def Linearizable (apply : σ → Op → Res → σ → Prop) (obj : σ)
    (history : List (HistoryEvent ι Op Res)) : Prop :=
  ∃ a, Runs (AtomicStep apply) ⟨obj, fun _ => .idle⟩ history a

end Atomic

end LG
