import BitcoinRpcOperator.TransitionSystems
import Mathlib.Tactic.Abel
import Mathlib.Algebra.BigOperators.Group.List.Basic

/-!
# Plans carried out side by side

Any number of jobs come up one after the other. Each has a plan, a list of actions on a state
that all of them share, and the actions of different jobs come in any order. Whatever adds up
over the actions does not see the order.
-/

namespace BitcoinRpcOperator.Interleavings
open TransitionSystems

variable {σ β α M : Type}

/-- How far a job has come with its plan. -/
structure Progress (β α : Type) where
  job : β
  done : List α
  pending : List α

structure Pool (σ β α : Type) where
  shared : σ
  jobs : List (Progress β α) := []

inductive Move (β : Type) where
  | submit (job : β)
  /-- The job at a position takes its next action. -/
  | advance (position : ℕ)

def Move.submitted : Move β → Option β
  | .submit job => some job
  | .advance _ => none

/-- The jobs that come up in a run, in order. -/
def submissions (ms : List (Move β)) : List β := ms.filterMap Move.submitted

def Progress.next (p : Progress β α) : Option (α × Progress β α) :=
  match p.pending with
  | [] => none
  | a :: rest => some (a, { p with done := p.done ++ [a], pending := rest })

def step (plan : β → List α) (act : σ → α → σ) (s : Pool σ β α) : Move β → Option (Pool σ β α)
  | .submit job => some { s with jobs := s.jobs ++ [⟨job, [], plan job⟩] }
  | .advance i => do
    let p ← s.jobs[i]?
    let (a, p) ← p.next
    some ⟨act s.shared a, s.jobs.set i p⟩

/-- No job has an action left. -/
def Pool.Settled (s : Pool σ β α) : Prop := ∀ p ∈ s.jobs, p.pending = []

section
variable {plan : β → List α} {act : σ → α → σ} {s t : Pool σ β α} {ms : List (Move β)}

/-- One job takes an action, and nothing else changes. -/
theorem advance_cases {i : ℕ} (h : step plan act s (.advance i) = some t) :
    ∃ before job done a rest after, s.jobs = before ++ ⟨job, done, a :: rest⟩ :: after ∧
      t = ⟨act s.shared a, before ++ ⟨job, done ++ [a], rest⟩ :: after⟩ := by
  simp only [step, Option.bind_eq_bind, Option.bind_eq_some_iff, Option.some.injEq] at h
  obtain ⟨p, hp, ⟨a, q⟩, hnext, rfl⟩ := h
  obtain ⟨job, done, pending⟩ := p
  cases pending with
  | nil => cases hnext
  | cons b rest =>
    cases hnext
    obtain ⟨hi, hget⟩ := List.getElem?_eq_some_iff.1 hp
    refine ⟨s.jobs.take i, job, done, a, rest, s.jobs.drop (i + 1), ?_, ?_⟩
    · rw [← hget, List.cons_getElem_drop_succ, List.take_append_drop]
    · simp only [List.set_eq_take_append_cons_drop, if_pos hi]

/-- Every job is on its way through its plan. -/
def OnPlan (plan : β → List α) (s : Pool σ β α) : Prop := ∀ p ∈ s.jobs, p.done ++ p.pending = plan p.job

theorem onPlan_step {m : Move β} (h : OnPlan plan s) (hstep : step plan act s m = some t) :
    OnPlan plan t := by
  cases m with
  | submit job =>
    cases hstep
    intro p hp
    rcases List.mem_append.1 hp with hp | hp
    · exact h p hp
    · obtain rfl := List.mem_singleton.1 hp
      rfl
  | advance i =>
    obtain ⟨before, job, done, a, rest, after, hjobs, rfl⟩ := advance_cases hstep
    rw [OnPlan, hjobs, List.forall_mem_append, List.forall_mem_cons] at h
    obtain ⟨hbefore, hnow, hafter⟩ := h
    rw [OnPlan, List.forall_mem_append, List.forall_mem_cons]
    refine ⟨hbefore, ?_, hafter⟩
    rw [← hnow, List.append_assoc]
    rfl

theorem onPlan_run {shared : σ} (h : run (step plan act) ⟨shared, []⟩ ms = some s) : OnPlan plan s :=
  run_invariant onPlan_step (by simp [OnPlan]) h

/-- The jobs are those that came up. -/
theorem jobs_run {shared : σ} (h : run (step plan act) ⟨shared, []⟩ ms = some s) :
    s.jobs.map Progress.job = submissions ms := by
  refine run_induction (motive := fun ms s => s.jobs.map Progress.job = submissions ms) rfl ?_ h
  intro ms u m t _ hu hstep
  rw [submissions, List.filterMap_append, ← submissions, ← hu]
  cases m with
  | submit job =>
    cases hstep
    simp [Move.submitted]
  | advance i =>
    obtain ⟨before, job, done, a, rest, after, hjobs, rfl⟩ := advance_cases hstep
    rw [hjobs]
    simp [Move.submitted]

variable [AddCommMonoid M] (view : σ → M) (weight : α → M)

/-- What adds up over the actions is the sum over what each job has done. -/
theorem view_run (hact : ∀ u a, view (act u a) = view u + weight a) {shared : σ}
    (h : run (step plan act) ⟨shared, []⟩ ms = some s) :
    view s.shared = view shared + (s.jobs.map fun p => (p.done.map weight).sum).sum := by
  refine run_invariant (I := fun s : Pool σ β α =>
    view s.shared = view shared + (s.jobs.map fun p => (p.done.map weight).sum).sum) ?_ (by simp) h
  intro u m t hu hstep
  cases m with
  | submit job =>
    cases hstep
    simpa using hu
  | advance i =>
    obtain ⟨before, job, done, a, rest, after, hjobs, rfl⟩ := advance_cases hstep
    rw [hjobs] at hu
    simp only [hact, hu, List.map_append, List.map_cons, List.map_nil, List.sum_append, List.sum_cons,
      List.sum_nil, add_zero]
    abel

/-- When all is done, it is the sum over the plans of what came up, whatever the order. -/
theorem view_settled (hact : ∀ u a, view (act u a) = view u + weight a) {shared : σ}
    (h : run (step plan act) ⟨shared, []⟩ ms = some s) (hsettled : s.Settled) :
    view s.shared = view shared + ((submissions ms).map fun job => ((plan job).map weight).sum).sum := by
  rw [view_run view weight hact h, ← jobs_run h, List.map_map]
  congr 2
  apply List.map_congr_left
  intro p hp
  have hplan := onPlan_run h p hp
  rw [hsettled p hp, List.append_nil] at hplan
  rw [hplan]
  rfl

/-- Doing the actions one after the other adds up the same way. -/
theorem view_foldl (hact : ∀ u a, view (act u a) = view u + weight a) (as : List α) (shared : σ) :
    view (as.foldl act shared) = view shared + (as.map weight).sum := by
  induction as generalizing shared with
  | nil => simp
  | cons a as ih => rw [List.foldl_cons, ih, hact, List.map_cons, List.sum_cons, add_assoc]

theorem view_foldl_plans (hact : ∀ u a, view (act u a) = view u + weight a) (jobs : List β) (shared : σ) :
    view (jobs.foldl (fun u job => (plan job).foldl act u) shared) =
      view shared + (jobs.map fun job => ((plan job).map weight).sum).sum := by
  induction jobs generalizing shared with
  | nil => simp
  | cons job jobs ih =>
    rw [List.foldl_cons, ih, view_foldl view weight hact, List.map_cons, List.sum_cons, add_assoc]

/-- A run that is done agrees with doing the same jobs one at a time, in whatever order. -/
theorem view_sequential (hact : ∀ u a, view (act u a) = view u + weight a) {shared : σ}
    (h : run (step plan act) ⟨shared, []⟩ ms = some s) (hsettled : s.Settled) {jobs : List β}
    (hjobs : jobs.Perm (submissions ms)) :
    view s.shared = view (jobs.foldl (fun u job => (plan job).foldl act u) shared) := by
  rw [view_settled view weight hact h hsettled, view_foldl_plans view weight hact, (hjobs.map _).sum_eq]

end

end BitcoinRpcOperator.Interleavings
