import Mathlib.Data.List.Basic
import Mathlib.Order.Monotone.Basic
import Mathlib.Order.WellFounded

/-!
# Executable transition systems

A machine is an initial state together with a partial step function on
actions, so a concrete schedule can be evaluated.  Reachability is relative to
a condition on the state and the action of each step: the unconditional
reachable states are those of the trivial condition.
-/

namespace TdvfFuzz.Foundation

universe u v

structure Machine (σ : Type u) (α : Type v) where
  init : σ
  step : σ → α → Option σ

namespace Machine

variable {σ : Type u} {α : Type v}

/-- Replay a schedule; `none` means that some action was not enabled. -/
def run (M : Machine σ α) : σ → List α → Option σ
  | s, [] => some s
  | s, a :: schedule => (M.step s a).bind fun s' => M.run s' schedule

/-- States reached by runs all of whose steps meet `C`. -/
inductive ReachableBy (M : Machine σ α) (C : σ → α → Prop) : σ → Prop
  | init : M.ReachableBy C M.init
  | step {s s' : σ} {a : α} (reached : M.ReachableBy C s) (meets : C s a)
      (enabled : M.step s a = some s') : M.ReachableBy C s'

def Reachable (M : Machine σ α) (s : σ) : Prop :=
  M.ReachableBy (fun _ _ => True) s

theorem Reachable.init (M : Machine σ α) : M.Reachable M.init :=
  ReachableBy.init

theorem Reachable.step {M : Machine σ α} {s s' : σ} {a : α}
    (reached : M.Reachable s) (enabled : M.step s a = some s') :
    M.Reachable s' :=
  ReachableBy.step reached trivial enabled

theorem ReachableBy.reachable {M : Machine σ α} {C : σ → α → Prop} {s : σ}
    (h : M.ReachableBy C s) : M.Reachable s := by
  induction h with
  | init => exact Reachable.init M
  | step _ _ enabled ih => exact ih.step enabled

/-- The invariant rule, for runs whose steps all meet `C`. -/
theorem ReachableBy.invariant {M : Machine σ α} {C : σ → α → Prop}
    {P : σ → Prop} (hinit : P M.init)
    (hstep : ∀ s a s', P s → C s a → M.step s a = some s' → P s')
    {s : σ} (h : M.ReachableBy C s) : P s := by
  induction h with
  | init => exact hinit
  | step _ meets enabled ih => exact hstep _ _ _ ih meets enabled

theorem Reachable.invariant {M : Machine σ α} {P : σ → Prop}
    (hinit : P M.init)
    (hstep : ∀ s a s', P s → M.step s a = some s' → P s')
    {s : σ} (h : M.Reachable s) : P s :=
  ReachableBy.invariant hinit (fun s a s' hs _ => hstep s a s' hs) h

theorem Reachable.run {M : Machine σ α} {s s' : σ} (reached : M.Reachable s)
    (schedule : List α) (h : M.run s schedule = some s') :
    M.Reachable s' := by
  induction schedule generalizing s with
  | nil =>
      simp only [Machine.run, Option.some.injEq] at h
      exact h ▸ reached
  | cons a schedule ih =>
      simp only [Machine.run] at h
      obtain ⟨next, hnext, hrest⟩ := Option.bind_eq_some_iff.mp h
      exact ih (reached.step hnext) hrest

/-- The machine whose steps all meet `C`. -/
def restrict (M : Machine σ α) (C : σ → α → Prop) [∀ s a, Decidable (C s a)] :
    Machine σ α where
  init := M.init
  step s a := if C s a then M.step s a else none

theorem Reachable.of_restrict {M : Machine σ α} {C : σ → α → Prop} [∀ s a, Decidable (C s a)]
    {s : σ} (h : (M.restrict C).Reachable s) : M.ReachableBy C s := by
  refine h.invariant .init fun s a s' reached enabled => ?_
  obtain ⟨meets, hstep⟩ := Option.ite_none_right_eq_some.mp enabled
  exact reached.step meets hstep

/-! ## Runs without an end -/

structure Execution (M : Machine σ α) where
  state : ℕ → σ
  action : ℕ → α
  starts : state 0 = M.init
  steps : ∀ k, M.step (state k) (action k) = some (state (k + 1))

namespace Execution

variable {M : Machine σ α}

theorem reachable (e : M.Execution) (k : ℕ) : M.Reachable (e.state k) := by
  induction k with
  | zero => exact e.starts ▸ Reachable.init M
  | succ k ih => exact ih.step (e.steps k)

/-- A measure that no step increases stays the same from some point on. -/
theorem eventually_constant (e : M.Execution) (measure : σ → ℕ)
    (h : ∀ k, measure (e.state (k + 1)) ≤ measure (e.state k)) :
    ∃ k, ∀ j, k ≤ j → measure (e.state j) = measure (e.state k) := by
  have hanti : Antitone fun k => measure (e.state k) := antitone_nat_of_succ_le h
  refine ⟨Function.argmin fun k => measure (e.state k), fun j hj => ?_⟩
  exact (hanti hj).antisymm (Function.argmin_le (fun k => measure (e.state k)) j)

end Execution

end Machine

end TdvfFuzz.Foundation
