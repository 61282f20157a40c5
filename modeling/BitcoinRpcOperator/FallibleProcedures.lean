import Mathlib

/-!
# Procedures whose external operations may raise

A procedure runs over a host state and asks an environment to perform external
operations. The environment is any function of the operations asked so far, so
one environment is one pattern of answers and faults, and a statement about every
environment covers every point at which an operation can raise. A raise keeps the
state it happened in: nothing is undone unless the procedure undoes it.

`wp` is the weakest precondition with one postcondition for a normal return and
one for a raise. `Stays R` says that a preorder on worlds is respected on
both exits; it is how frame conditions are carried through whole procedures.
-/

namespace BitcoinRpcOperator.FallibleProcedures

/-- The operations asked so far, latest first, and the host state. -/
structure World (ο σ : Type) where
  history : List ο
  host : σ

abbrev Environment (ο ω : Type) := List ο → ο → ω

abbrev Proc (ο ω ε σ : Type) := ReaderT (Environment ο ω) (EStateM ε (World ο σ))

variable {ο ω ε σ α β : Type}

/-- Ask for one external operation and take the environment's answer. -/
def ask (o : ο) : Proc ο ω ε σ ω := fun env w =>
  .ok (env w.history o) ⟨o :: w.history, w.host⟩

def readHost : Proc ο ω ε σ σ := fun _ w => .ok w.host w

def modifyHost (f : σ → σ) : Proc ο ω ε σ Unit := fun _ w => .ok () ⟨w.history, f w.host⟩

/-- Number of operations asked so far. -/
def now : Proc ο ω ε σ ℕ := fun _ w => .ok w.history.length w

/-- Run `m` and report what it raised, if anything, instead of raising it. -/
def outcome (m : Proc ο ω ε σ Unit) : Proc ο ω ε σ (Option ε) :=
  tryCatch (do m; pure none) (fun e => pure (some e))

/-- Run `m`; on a raise run `cleanup` and raise again. -/
def onRaise (m : Proc ο ω ε σ α) (cleanup : Proc ο ω ε σ Unit) : Proc ο ω ε σ α :=
  tryCatch m (fun e => do cleanup; throw e)

/-- Run `m` when `c` holds. -/
def runIf (c : Prop) [Decidable c] (m : Proc ο ω ε σ Unit) : Proc ο ω ε σ Unit :=
  if c then m else pure ()

def wp (env : Environment ο ω) (m : Proc ο ω ε σ α) (Q : α → World ο σ → Prop)
    (E : ε → World ο σ → Prop) (w : World ο σ) : Prop :=
  match m env w with
  | .ok a w' => Q a w'
  | .error e w' => E e w'

variable {env : Environment ο ω} {Q Q' : α → World ο σ → Prop} {E E' : ε → World ο σ → Prop}
  {w : World ο σ}

@[simp] theorem wp_pure (a : α) : wp env (pure a) Q E = Q a := rfl

@[simp] theorem wp_throw (e : ε) : wp env (throw e : Proc ο ω ε σ α) Q E = E e := rfl

@[simp] theorem wp_bind (m : Proc ο ω ε σ β) (f : β → Proc ο ω ε σ α) :
    wp env (m >>= f) Q E = wp env m (fun b => wp env (f b) Q E) E := by
  funext w
  simp only [wp, bind, ReaderT.bind, EStateM.bind]
  cases m env w <;> rfl

@[simp] theorem wp_map (f : β → α) (m : Proc ο ω ε σ β) :
    wp env (f <$> m) Q E = wp env m (fun b => Q (f b)) E := by
  funext w
  simp only [wp, Functor.map, EStateM.map]
  cases m env w <;> rfl

@[simp] theorem wp_tryCatch (m : Proc ο ω ε σ α) (handler : ε → Proc ο ω ε σ α) :
    wp env (tryCatch m handler) Q E = wp env m Q (fun e => wp env (handler e) Q E) := by
  funext w
  show (match EStateM.tryCatch _ _ _ with | .ok a w' => Q a w' | .error e w' => E e w') = _
  simp only [wp, EStateM.tryCatch]
  cases m env w <;> rfl

@[simp] theorem wp_ask {Q : ω → World ο σ → Prop} (o : ο) :
    wp env (ask o : Proc ο ω ε σ ω) Q E =
      fun w => Q (env w.history o) ⟨o :: w.history, w.host⟩ := rfl

@[simp] theorem wp_readHost {Q : σ → World ο σ → Prop} :
    wp env (readHost : Proc ο ω ε σ σ) Q E = fun w => Q w.host w := rfl

@[simp] theorem wp_modifyHost {Q : Unit → World ο σ → Prop} (f : σ → σ) :
    wp env (modifyHost f : Proc ο ω ε σ Unit) Q E = fun w => Q () ⟨w.history, f w.host⟩ := rfl

@[simp] theorem wp_now {Q : ℕ → World ο σ → Prop} :
    wp env (now : Proc ο ω ε σ ℕ) Q E = fun w => Q w.history.length w := rfl

theorem wp_ite (c : Prop) [Decidable c] (m n : Proc ο ω ε σ α) :
    wp env (if c then m else n) Q E = if c then wp env m Q E else wp env n Q E := by
  split <;> rfl

theorem wp_runIf {Q : Unit → World ο σ → Prop} (c : Prop) [Decidable c] (m : Proc ο ω ε σ Unit) :
    wp env (runIf c m) Q E = if c then wp env m Q E else Q () := by
  simp only [runIf, wp_ite, wp_pure]

@[simp] theorem wp_outcome {Q : Option ε → World ο σ → Prop} (m : Proc ο ω ε σ Unit) :
    wp env (outcome m) Q E = wp env m (fun _ => Q none) (fun e => Q (some e)) := by
  simp [outcome]

@[simp] theorem wp_onRaise (m : Proc ο ω ε σ α) (cleanup : Proc ο ω ε σ Unit) :
    wp env (onRaise m cleanup) Q E =
      wp env m Q (fun e => wp env cleanup (fun _ => E e) E) := by
  simp [onRaise]

theorem wp_mono {m : Proc ο ω ε σ α} (h : wp env m Q E w) (hQ : ∀ a w', Q a w' → Q' a w')
    (hE : ∀ e w', E e w' → E' e w') : wp env m Q' E' w := by
  unfold wp at *
  split at h
  · exact hQ _ _ h
  · exact hE _ _ h

theorem wp_trivial (m : Proc ο ω ε σ α) (w : World ο σ) :
    wp env m (fun _ _ => True) (fun _ _ => True) w := by
  unfold wp
  split <;> trivial

/-- What a run ends with, as a postcondition. -/
theorem wp_run (m : Proc ο ω ε σ α) (w : World ο σ) :
    wp env m (fun a w' => m env w = .ok a w') (fun e w' => m env w = .error e w') w := by
  unfold wp
  split <;> assumption

theorem bind_run_ok {m : Proc ο ω ε σ β} {f : β → Proc ο ω ε σ α} {b : β} {w' : World ο σ}
    (h : m env w = .ok b w') : (m >>= f) env w = f b env w' := by
  simp only [bind, ReaderT.bind, EStateM.bind, h]

theorem bind_run_error {m : Proc ο ω ε σ β} {f : β → Proc ο ω ε σ α} {e : ε} {w' : World ο σ}
    (h : m env w = .error e w') : (m >>= f) env w = .error e w' := by
  simp only [bind, ReaderT.bind, EStateM.bind, h]

theorem wp_and {m : Proc ο ω ε σ α} (h : wp env m Q E w) (h' : wp env m Q' E' w) :
    wp env m (fun a w' => Q a w' ∧ Q' a w') (fun e w' => E e w' ∧ E' e w') w := by
  unfold wp at *
  split at h <;> exact ⟨h, by simpa [*] using h'⟩

theorem exists_error_of_wp {m : Proc ο ω ε σ α} (h : wp env m (fun _ _ => False) E w) :
    ∃ e w', m env w = .error e w' ∧ E e w' := by
  unfold wp at h
  split at h
  · exact h.elim
  · exact ⟨_, _, by assumption, h⟩

theorem wp_of_ok {m : Proc ο ω ε σ α} {a : α} {w' : World ο σ} (h : wp env m Q E w)
    (hm : m env w = .ok a w') : Q a w' := by
  simpa only [wp, hm] using h

theorem wp_of_error {m : Proc ο ω ε σ α} {e : ε} {w' : World ο σ} (h : wp env m Q E w)
    (hm : m env w = .error e w') : E e w' := by
  simpa only [wp, hm] using h

/-- `m` moves the world along `R`, returning or raising. -/
def Stays (env : Environment ο ω) (R : World ο σ → World ο σ → Prop) (m : Proc ο ω ε σ α) : Prop :=
  ∀ w, wp env m (fun _ => R w) (fun _ => R w) w

namespace Stays

variable {R : World ο σ → World ο σ → Prop} [Std.Refl R] [IsTrans (World ο σ) R]

omit [Std.Refl R] [IsTrans (World ο σ) R] in
theorem mono {S : World ο σ → World ο σ → Prop} {m : Proc ο ω ε σ α} (h : Stays env R m)
    (hRS : ∀ w w', R w w' → S w w') : Stays env S m := fun w =>
  wp_mono (h w) (fun _ _ => hRS _ _) (fun _ _ => hRS _ _)

omit [IsTrans (World ο σ) R] in
theorem pure (a : α) : Stays env R (Pure.pure a : Proc ο ω ε σ α) := fun w => refl_of R w

omit [IsTrans (World ο σ) R] in
theorem throw (e : ε) : Stays env R (MonadExcept.throw e : Proc ο ω ε σ α) := fun w => refl_of R w

omit [Std.Refl R] [IsTrans (World ο σ) R] in
theorem ask {o : ο} (h : ∀ w, R w ⟨o :: w.history, w.host⟩) :
    Stays env R (ask o : Proc ο ω ε σ ω) := fun w => h w

omit [IsTrans (World ο σ) R] in
theorem readHost : Stays env R (readHost : Proc ο ω ε σ σ) := fun w => refl_of R w

omit [Std.Refl R] [IsTrans (World ο σ) R] in
theorem modifyHost {f : σ → σ} (h : ∀ w, R w ⟨w.history, f w.host⟩) :
    Stays env R (modifyHost f : Proc ο ω ε σ Unit) := fun w => h w

omit [IsTrans (World ο σ) R] in
theorem now : Stays env R (now : Proc ο ω ε σ ℕ) := fun w => refl_of R w

omit [Std.Refl R] in
theorem bind {m : Proc ο ω ε σ β} {f : β → Proc ο ω ε σ α} (hm : Stays env R m)
    (hf : ∀ b, Stays env R (f b)) : Stays env R (m >>= f) := fun w => by
  rw [wp_bind]
  refine wp_mono (hm w) (fun b w' h => ?_) (fun _ _ h => h)
  exact wp_mono (hf b w') (fun _ _ h' => trans_of R h h') (fun _ _ h' => trans_of R h h')

omit [Std.Refl R] in
/-- The continuation may rely on what `m` returns. -/
theorem bind_of {m : Proc ο ω ε σ β} {f : β → Proc ο ω ε σ α} {r : β → Prop}
    (hm : Stays env R m) (hr : ∀ w, wp env m (fun b _ => r b) (fun _ _ => True) w)
    (hf : ∀ b, r b → Stays env R (f b)) : Stays env R (m >>= f) := fun w => by
  rw [wp_bind]
  refine wp_mono (wp_and (hm w) (hr w)) (fun b w' h => ?_) (fun _ _ h => h.1)
  exact wp_mono (hf b h.2 w') (fun _ _ h' => trans_of R h.1 h') (fun _ _ h' => trans_of R h.1 h')

omit [Std.Refl R] in
theorem tryCatch {m : Proc ο ω ε σ α} {handler : ε → Proc ο ω ε σ α} (hm : Stays env R m)
    (hh : ∀ e, Stays env R (handler e)) : Stays env R (MonadExcept.tryCatch m handler) := fun w => by
  rw [wp_tryCatch]
  refine wp_mono (hm w) (fun _ _ h => h) (fun e w' h => ?_)
  exact wp_mono (hh e w') (fun _ _ h' => trans_of R h h') (fun _ _ h' => trans_of R h h')

omit [Std.Refl R] [IsTrans (World ο σ) R] in
theorem ite {c : Prop} [Decidable c] {m n : Proc ο ω ε σ α} (hm : Stays env R m)
    (hn : Stays env R n) : Stays env R (if c then m else n) := by
  split <;> assumption

omit [IsTrans (World ο σ) R] in
theorem runIf {c : Prop} [Decidable c] {m : Proc ο ω ε σ Unit} (hm : c → Stays env R m) :
    Stays env R (runIf c m) := by
  unfold FallibleProcedures.runIf
  split
  · exact hm ‹c›
  · exact .pure _

theorem outcome {m : Proc ο ω ε σ Unit} (hm : Stays env R m) : Stays env R (outcome m) :=
  (hm.bind fun _ => .pure _).tryCatch fun _ => .pure _

theorem onRaise {m : Proc ο ω ε σ α} {cleanup : Proc ο ω ε σ Unit}
    (hm : Stays env R m) (hc : Stays env R cleanup) : Stays env R (onRaise m cleanup) :=
  hm.tryCatch fun _ => hc.bind fun _ => .throw _

end Stays

/-- Between the two worlds nothing but operations of `S` was asked for. -/
def Asks (S : ο → Prop) (w w' : World ο σ) : Prop :=
  ∃ ops, w'.history = ops ++ w.history ∧ ∀ o ∈ ops, S o

/-- Between the two worlds `o` was asked for, with an answer in `P`. -/
def Answered (env : Environment ο ω) (P : ω → Prop) (w w' : World ο σ) (o : ο) : Prop :=
  ∃ later hist, w'.history = later ++ o :: hist ∧ w.history <:+ hist ∧ P (env hist o)

section Asks

variable {S T : ο → Prop} {P : ω → Prop} {w w₁ w' : World ο σ} {o o' : ο}

instance : Std.Refl (Asks S : World ο σ → World ο σ → Prop) := ⟨fun _ => ⟨[], by simp⟩⟩

instance : IsTrans (World ο σ) (Asks S) := ⟨by
  rintro _ _ _ ⟨ops, h, hS⟩ ⟨ops', h', hS'⟩
  refine ⟨ops' ++ ops, by simp [h, h'], fun o ho => ?_⟩
  exact (List.mem_append.1 ho).elim (hS' o) (hS o)⟩

theorem Asks.mono (h : Asks S w w') (hST : ∀ o, S o → T o) : Asks T w w' := by
  obtain ⟨ops, hops, hS⟩ := h
  exact ⟨ops, hops, fun o ho => hST o (hS o ho)⟩

theorem Asks.suffix (h : Asks S w w') : w.history <:+ w'.history := by
  obtain ⟨ops, hops, -⟩ := h
  exact ⟨ops, hops.symm⟩

theorem Asks.of_history_eq (h : w'.history = w.history) : Asks S w w' := ⟨[], by simp [h]⟩

theorem Asks.of_history_cons (ho : S o) (h : w'.history = o :: w.history) : Asks S w w' :=
  ⟨[o], by simp [h], by simpa using ho⟩

/-- What is not asked for is not answered. -/
theorem Asks.not_answered (h : Asks S w w') (ho : ¬ S o) : ¬ Answered env P w w' o := by
  rintro ⟨later, hist, hlater, ⟨between, rfl⟩, -⟩
  obtain ⟨ops, hops, hS⟩ := h
  have heq : ops = later ++ o :: between := by
    apply (List.append_left_inj w.history).1
    rw [← hops, hlater]
    simp
  exact ho (hS o (by simp [heq]))

/-- One step of a run. -/
theorem answered_cons (h : w'.history = o' :: w.history) :
    Answered env P w w' o ↔ o = o' ∧ P (env w.history o) := by
  constructor
  · rintro ⟨later, hist, hlater, hsuffix, hP⟩
    rw [h] at hlater
    cases later with
    | nil =>
      obtain ⟨rfl, rfl⟩ := List.cons.inj hlater
      exact ⟨rfl, hP⟩
    | cons p later =>
      have hlen : w.history.length = (later ++ o :: hist).length :=
        congrArg List.length (List.cons.inj hlater).2
      have hle := hsuffix.length_le
      simp only [List.length_append, List.length_cons] at hlen
      omega
  · rintro ⟨rfl, hP⟩
    exact ⟨[], w.history, h, List.suffix_refl _, hP⟩

/-- What a run asked for, it asked for before a point on its way or after it. -/
theorem answered_iff (h₁ : w.history <:+ w₁.history) (h₂ : w₁.history <:+ w'.history) :
    Answered env P w w' o ↔ Answered env P w w₁ o ∨ Answered env P w₁ w' o := by
  constructor
  · rintro ⟨later, hist, hlater, hsuffix, hP⟩
    have hcall : o :: hist <:+ w'.history := ⟨later, hlater.symm⟩
    rcases List.suffix_or_suffix_of_suffix hcall h₂ with hin | hin
    · obtain ⟨later', h'⟩ := hin
      exact .inl ⟨later', hist, h'.symm, hsuffix, hP⟩
    · rcases List.suffix_cons_iff.1 hin with heq | hin
      · exact .inl ⟨[], hist, heq, hsuffix, hP⟩
      · exact .inr ⟨later, hist, hlater, hin, hP⟩
  · rintro (⟨later, hist, hlater, hsuffix, hP⟩ | ⟨later, hist, hlater, hsuffix, hP⟩)
    · obtain ⟨rest, hrest⟩ := h₂
      exact ⟨rest ++ later, hist, by simp [← hrest, hlater], hsuffix, hP⟩
    · exact ⟨later, hist, hlater, h₁.trans hsuffix, hP⟩

end Asks

end BitcoinRpcOperator.FallibleProcedures
