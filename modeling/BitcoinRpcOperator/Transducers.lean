/-!
# Machines that read and write

A machine takes one input after the other; each step writes a few outputs.
-/

namespace BitcoinRpcOperator.Transducers

variable {σ α β : Type}

def run (step : σ → α → List β × σ) : σ → List α → List β × σ
  | s, [] => ([], s)
  | s, a :: as => ((step s a).1 ++ (run step (step s a).2 as).1, (run step (step s a).2 as).2)

variable {step : σ → α → List β × σ}

theorem run_append (s : σ) (as bs : List α) : run step s (as ++ bs) =
    ((run step s as).1 ++ (run step (run step s as).2 bs).1, (run step (run step s as).2 bs).2) := by
  induction as generalizing s with
  | nil => rfl
  | cons a as ih =>
    rw [List.cons_append, run, run, ih, List.append_assoc]

/-- What every step keeps, a run keeps. -/
theorem run_invariant {P : α → Prop} {I : σ → Prop} (hstep : ∀ s a, P a → I s → I (step s a).2) {s : σ} {as : List α}
    (has : ∀ a ∈ as, P a) (hs : I s) : I (run step s as).2 := by
  induction as generalizing s with
  | nil => exact hs
  | cons a as ih =>
    exact ih (fun b hb => has b (List.mem_cons_of_mem _ hb)) (hstep s a (has a List.mem_cons_self) hs)

/-- Steps that write nothing make a run that writes nothing. -/
theorem run_silent {P : α → Prop} {I : σ → Prop} (hstep : ∀ s a, P a → I s → (step s a).1 = [] ∧ I (step s a).2)
    {s : σ} {as : List α} (has : ∀ a ∈ as, P a) (hs : I s) : (run step s as).1 = [] := by
  induction as generalizing s with
  | nil => rfl
  | cons a as ih =>
    obtain ⟨hnone, hnext⟩ := hstep s a (has a List.mem_cons_self) hs
    rw [run, hnone, List.nil_append]
    exact ih (fun b hb => has b (List.mem_cons_of_mem _ hb)) hnext

end BitcoinRpcOperator.Transducers
