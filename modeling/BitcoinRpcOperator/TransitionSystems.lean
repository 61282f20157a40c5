import Mathlib.Data.List.Induction
import Mathlib.Tactic.Linarith

/-!
# Systems that take labelled steps

Several parties take steps in any order. A label says whose step it is and what it came to;
`step` is undefined where a label cannot be taken. A run is a list of labels.
-/

namespace BitcoinRpcOperator.TransitionSystems

variable {σ ℓ : Type}

/-- The state after the steps of a list of labels, when each of them can be taken. -/
def run (step : σ → ℓ → Option σ) : σ → List ℓ → Option σ
  | s, [] => some s
  | s, l :: ls => (step s l).bind fun t => run step t ls

section
variable {step : σ → ℓ → Option σ} {s t u : σ} {l : ℓ} {ls ks : List ℓ}

@[simp] theorem run_nil : run step s [] = some t ↔ s = t := by rw [run, Option.some.injEq]

theorem run_cons : run step s (l :: ls) = some t ↔ ∃ u, step s l = some u ∧ run step u ls = some t :=
  Option.bind_eq_some_iff

theorem run_append : run step s (ls ++ ks) = some t ↔
    ∃ u, run step s ls = some u ∧ run step u ks = some t := by
  induction ls generalizing s with
  | nil => simp
  | cons l ls ih =>
    rw [List.cons_append, run_cons]
    simp only [ih, run_cons]
    constructor
    · rintro ⟨v, hv, u, hu, ht⟩
      exact ⟨u, ⟨v, hv, hu⟩, ht⟩
    · rintro ⟨u, ⟨v, hv, hu⟩, ht⟩
      exact ⟨v, hv, u, hu, ht⟩

theorem run_concat : run step s (ls ++ [l]) = some t ↔
    ∃ u, run step s ls = some u ∧ step u l = some t := by
  rw [run_append]
  simp [run_cons]

/-- What holds at the start and is kept by every step holds after every run. -/
theorem run_induction {motive : List ℓ → σ → Prop} (start : motive [] s)
    (next : ∀ {ls u l t}, run step s ls = some u → motive ls u → step u l = some t → motive (ls ++ [l]) t)
    (h : run step s ls = some t) : motive ls t := by
  induction ls using List.reverseRecOn generalizing t with
  | nil =>
    obtain rfl := run_nil.1 h
    exact start
  | append_singleton ls l ih =>
    obtain ⟨u, hu, hstep⟩ := run_concat.1 h
    exact next hu (ih hu) hstep

/-- An invariant of the states. -/
theorem run_invariant {I : σ → Prop} (hstep : ∀ {u l t}, I u → step u l = some t → I t) (hs : I s)
    (h : run step s ls = some t) : I t :=
  run_induction (motive := fun _ => I) hs (fun _ hu ht => hstep hu ht) h

/-- Where every step lowers a measure, up to the price of its label, runs are no longer than the
measure and the prices allow. -/
theorem length_le_of_measure {I : σ → Prop} (measure : σ → ℕ) (price : ℓ → ℕ)
    (hI : ∀ {u l t}, I u → step u l = some t → I t)
    (hstep : ∀ {u l t}, I u → step u l = some t → measure t + 1 ≤ measure u + price l)
    (hs : I s) (h : run step s ls = some t) : ls.length + measure t ≤ measure s + (ls.map price).sum := by
  induction ls generalizing s with
  | nil =>
    obtain rfl := run_nil.1 h
    simp
  | cons l ls ih =>
    obtain ⟨u, hu, hrun⟩ := run_cons.1 h
    have hfirst := hstep hs hu
    have hrest := ih (hI hs hu) hrun
    rw [List.length_cons, List.map_cons, List.sum_cons]
    omega

/-- Where some permitted step lowers a measure until a goal is met, a run of permitted steps meets
the goal. -/
theorem exists_run_of_measure {I goal : σ → Prop} (permitted : ℓ → Prop) (measure : σ → ℕ)
    (hI : ∀ {u l t}, I u → step u l = some t → I t)
    (hnext : ∀ {u}, I u → goal u ∨ ∃ l t, permitted l ∧ step u l = some t ∧ measure t < measure u)
    (hs : I s) : ∃ ls t, run step s ls = some t ∧ (∀ l ∈ ls, permitted l) ∧ goal t := by
  induction h : measure s using Nat.strong_induction_on generalizing s with
  | _ n ih =>
    subst h
    rcases hnext hs with hgoal | ⟨l, u, hl, hu, hless⟩
    · exact ⟨[], s, run_nil.2 rfl, nofun, hgoal⟩
    · obtain ⟨ls, t, hrun, hls, hgoal⟩ := ih _ hless (hI hs hu) rfl
      refine ⟨l :: ls, t, run_cons.2 ⟨u, hu, hrun⟩, ?_, hgoal⟩
      rw [List.forall_mem_cons]
      exact ⟨hl, hls⟩

end

end BitcoinRpcOperator.TransitionSystems
