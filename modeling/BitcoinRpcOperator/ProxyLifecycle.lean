import BitcoinRpcOperator.TransitionSystems
import Mathlib.Algebra.Order.Group.Multiset
import Mathlib.Tactic.Abel

/-!
# The life of the proxy process

`App.Run` of `internal/app`, with `Start` and `Shutdown` of its two servers and `Run` of the
poller. Four goroutines take steps in any order; they share a channel with room for two results
and the contexts that end them. Errors that `errors.Join` puts together are lists.
-/

namespace BitcoinRpcOperator.ProxyLifecycle
open TransitionSystems

variable {ε : Type}

inductive Listener where
  | main | admin
  deriving DecidableEq, Repr

/-- The goroutine that calls `Start` and sends what it returns. -/
inductive StartPhase (ε : Type) where
  | starting | bound | serving
  | returned (result : Option ε)
  | sent (result : Option ε)
  deriving DecidableEq, Repr

structure Server (ε : Type) where
  start : StartPhase ε := .starting
  /-- `Shutdown` has been called. -/
  shuttingDown : Bool := false

/-- Where `Poller.Run` stands. -/
inductive PollerPhase where
  | polling | waiting | finished
  deriving DecidableEq, Repr

/-- Where `App.Run` stands. -/
inductive RunPhase where
  | selecting
  | calling (l : Listener)
  | shutting (l : Listener)
  | draining
  /-- The deferred calls: the poller is cancelled and waited for. -/
  | deferred
  | returned
  deriving DecidableEq, Repr

structure State (ε : Type) where
  server : Listener → Server ε := fun _ => {}
  channel : List (Option ε) := []
  poller : PollerPhase := .polling
  signalled : Bool := false
  pollerCancelled : Bool := false
  phase : RunPhase := .selecting
  startErr : List ε := []
  shutdownErr : List ε := []
  consumed : ℕ := 0

/-- Whose step it is; an outcome that the code does not decide is part of the label. -/
inductive Label (ε : Type) where
  | signal
  | listen (l : Listener) (failure : Option ε)
  | serve (l : Listener)
  | acceptFails (l : Listener) (failure : ε)
  | serverClosed (l : Listener)
  | send (l : Listener)
  | pollEnds | tick | pollerStops
  | receive | noticeSignal
  | beginShutdown
  | endShutdown (failure : Option ε)
  | drain | leave | finish

/-- Number of servers, and the room in the channel. -/
def serverCount : ℕ := 2

namespace State

def setStart (s : State ε) (l : Listener) (phase : StartPhase ε) : State ε :=
  { s with server := Function.update s.server l { s.server l with start := phase } }

/-- `Shutdown` is called. -/
def shut (s : State ε) (l : Listener) : State ε :=
  { s with server := Function.update s.server l { s.server l with shuttingDown := true } }

/-- `errors.Join(startErr, shutdownErr)`. -/
def result (s : State ε) : List ε := s.startErr ++ s.shutdownErr

/-- `main`: a fatal log on an error. -/
def exitCode (s : State ε) : ℕ := if s.result.isEmpty then 0 else 1

end State

/-- Where `Start` goes on after `net.Listen`. -/
def afterListen : Option ε → StartPhase ε
  | none => .bound
  | some e => .returned (some e)

/-- The main server is shut down first. -/
def afterShutdown : Listener → RunPhase
  | .main => .calling .admin
  | .admin => .draining

def step (s : State ε) : Label ε → Option (State ε)
  | .signal => if s.signalled then none else some { s with signalled := true }
  -- `Start`: `Serve` returns `ErrServerClosed` once `Shutdown` was called, even before it is entered
  | .listen l failure =>
    match (s.server l).start with
    | .starting => some (s.setStart l (afterListen failure))
    | _ => none
  | .serve l =>
    match (s.server l).start with
    | .bound => some (s.setStart l (if (s.server l).shuttingDown then .returned none else .serving))
    | _ => none
  | .acceptFails l e =>
    match (s.server l).start with
    | .serving => if (s.server l).shuttingDown then none else some (s.setStart l (.returned (some e)))
    | _ => none
  | .serverClosed l =>
    match (s.server l).start with
    | .serving => if (s.server l).shuttingDown then some (s.setStart l (.returned none)) else none
    | _ => none
  | .send l =>
    match (s.server l).start with
    | .returned r =>
      if s.channel.length < serverCount then
        some { s.setStart l (.sent r) with channel := s.channel ++ [r] }
      else none
    | _ => none
  -- `Poller.Run`
  | .pollEnds => if s.poller = .polling then some { s with poller := .waiting } else none
  | .tick => if s.poller = .waiting then some { s with poller := .polling } else none
  | .pollerStops =>
    if s.poller = .waiting ∧ (s.signalled ∨ s.pollerCancelled) then
      some { s with poller := .finished }
    else none
  -- `App.Run`
  | .receive =>
    match s.phase, s.channel with
    | .selecting, r :: rest =>
      some { s with channel := rest, startErr := r.toList, consumed := 1, phase := .calling .main }
    | _, _ => none
  | .noticeSignal =>
    if s.phase = .selecting ∧ s.signalled then some { s with phase := .calling .main } else none
  | .beginShutdown =>
    match s.phase with
    | .calling l => some { s.shut l with phase := .shutting l }
    | _ => none
  | .endShutdown failure =>
    match s.phase with
    | .shutting l =>
      some { s with shutdownErr := s.shutdownErr ++ failure.toList, phase := afterShutdown l }
    | _ => none
  | .drain =>
    match s.phase, s.channel with
    | .draining, r :: rest =>
      if s.consumed < serverCount then
        some { s with channel := rest, startErr := s.startErr ++ r.toList, consumed := s.consumed + 1 }
      else none
    | _, _ => none
  | .leave =>
    if s.phase = .draining ∧ serverCount ≤ s.consumed then
      some { s with phase := .deferred, pollerCancelled := true }
    else none
  | .finish =>
    if s.phase = .deferred ∧ s.poller = .finished then some { s with phase := .returned } else none

/-- What each label does, and when it can be taken. -/
inductive Moves (s : State ε) : Label ε → State ε → Prop
  | signal (h : s.signalled = false) : Moves s .signal { s with signalled := true }
  | binds {l : Listener} (h : (s.server l).start = .starting) :
      Moves s (.listen l none) (s.setStart l .bound)
  | bindFails {l : Listener} {e : ε} (h : (s.server l).start = .starting) :
      Moves s (.listen l (some e)) (s.setStart l (.returned (some e)))
  | serves {l : Listener} (h : (s.server l).start = .bound) (hup : (s.server l).shuttingDown = false) :
      Moves s (.serve l) (s.setStart l .serving)
  | refuses {l : Listener} (h : (s.server l).start = .bound) (hdown : (s.server l).shuttingDown = true) :
      Moves s (.serve l) (s.setStart l (.returned none))
  | acceptFails {l : Listener} {e : ε} (h : (s.server l).start = .serving)
      (hup : (s.server l).shuttingDown = false) :
      Moves s (.acceptFails l e) (s.setStart l (.returned (some e)))
  | serverClosed {l : Listener} (h : (s.server l).start = .serving)
      (hdown : (s.server l).shuttingDown = true) :
      Moves s (.serverClosed l) (s.setStart l (.returned none))
  | send {l : Listener} {r : Option ε} (h : (s.server l).start = .returned r)
      (hroom : s.channel.length < serverCount) :
      Moves s (.send l) { s.setStart l (.sent r) with channel := s.channel ++ [r] }
  | pollEnds (h : s.poller = .polling) : Moves s .pollEnds { s with poller := .waiting }
  | tick (h : s.poller = .waiting) : Moves s .tick { s with poller := .polling }
  | pollerStops (h : s.poller = .waiting) (hdone : s.signalled ∨ s.pollerCancelled) :
      Moves s .pollerStops { s with poller := .finished }
  | receive {r : Option ε} {rest : List (Option ε)} (h : s.phase = .selecting)
      (hchannel : s.channel = r :: rest) : Moves s .receive
        { s with channel := rest, startErr := r.toList, consumed := 1, phase := .calling .main }
  | noticeSignal (h : s.phase = .selecting) (hsignal : s.signalled) :
      Moves s .noticeSignal { s with phase := .calling .main }
  | beginShutdown {l : Listener} (h : s.phase = .calling l) :
      Moves s .beginShutdown { s.shut l with phase := .shutting l }
  | endMain {failure : Option ε} (h : s.phase = .shutting .main) : Moves s (.endShutdown failure)
      { s with shutdownErr := s.shutdownErr ++ failure.toList, phase := .calling .admin }
  | endAdmin {failure : Option ε} (h : s.phase = .shutting .admin) : Moves s (.endShutdown failure)
      { s with shutdownErr := s.shutdownErr ++ failure.toList, phase := .draining }
  | drain {r : Option ε} {rest : List (Option ε)} (h : s.phase = .draining)
      (hchannel : s.channel = r :: rest) (hmore : s.consumed < serverCount) : Moves s .drain
        { s with channel := rest, startErr := s.startErr ++ r.toList, consumed := s.consumed + 1 }
  | leave (h : s.phase = .draining) (hall : serverCount ≤ s.consumed) :
      Moves s .leave { s with phase := .deferred, pollerCancelled := true }
  | finish (h : s.phase = .deferred) (hpoller : s.poller = .finished) :
      Moves s .finish { s with phase := .returned }

theorem moves_of_step {s t : State ε} {l : Label ε} (h : step s l = some t) : Moves s l t := by
  cases l with
  | signal =>
    rw [step] at h
    split_ifs at h with hsignal
    cases h
    exact .signal (by simpa using hsignal)
  | listen l failure =>
    rw [step] at h
    split at h
    · next hstart =>
      cases failure <;> cases h
      · exact .binds hstart
      · exact .bindFails hstart
    · cases h
  | serve l =>
    rw [step] at h
    split at h
    · next hstart =>
      cases hdown : (s.server l).shuttingDown <;> rw [hdown] at h <;> cases h
      · exact .serves hstart hdown
      · exact .refuses hstart hdown
    · cases h
  | acceptFails l e =>
    rw [step] at h
    split at h
    · next hstart =>
      split_ifs at h with hdown
      cases h
      exact .acceptFails hstart (by simpa using hdown)
    · cases h
  | serverClosed l =>
    rw [step] at h
    split at h
    · next hstart =>
      split_ifs at h with hdown
      cases h
      exact .serverClosed hstart hdown
    · cases h
  | send l =>
    rw [step] at h
    split at h
    · next hstart =>
      split_ifs at h with hroom
      cases h
      exact .send hstart hroom
    · cases h
  | pollEnds =>
    rw [step] at h
    split_ifs at h with hpoller
    cases h
    exact .pollEnds hpoller
  | tick =>
    rw [step] at h
    split_ifs at h with hpoller
    cases h
    exact .tick hpoller
  | pollerStops =>
    rw [step] at h
    split_ifs at h with hpoller
    cases h
    exact .pollerStops hpoller.1 hpoller.2
  | receive =>
    rw [step] at h
    split at h
    · next hphase hchannel =>
      cases h
      exact .receive hphase hchannel
    · cases h
  | noticeSignal =>
    rw [step] at h
    split_ifs at h with hphase
    cases h
    exact .noticeSignal hphase.1 hphase.2
  | beginShutdown =>
    rw [step] at h
    split at h
    · next hphase =>
      cases h
      exact .beginShutdown hphase
    · cases h
  | endShutdown failure =>
    rw [step] at h
    split at h
    · next l hphase =>
      cases l <;> cases h
      · exact .endMain hphase
      · exact .endAdmin hphase
    · cases h
  | drain =>
    rw [step] at h
    split at h
    · next hphase hchannel =>
      split_ifs at h with hmore
      cases h
      exact .drain hphase hchannel hmore
    · cases h
  | leave =>
    rw [step] at h
    split_ifs at h with hphase
    cases h
    exact .leave hphase.1 hphase.2
  | finish =>
    rw [step] at h
    split_ifs at h with hphase
    cases h
    exact .finish hphase.1 hphase.2

/-- The errors that are joined, on their way or still to be sent. -/
def StartPhase.held : StartPhase ε → List ε
  | .returned r => r.toList
  | _ => []

def State.errors (s : State ε) : Multiset ε :=
  s.startErr + s.channel.flatMap Option.toList + s.shutdownErr + (s.server .main).start.held +
    (s.server .admin).start.held

def Label.failure : Label ε → List ε
  | .listen _ failure | .endShutdown failure => failure.toList
  | .acceptFails _ e => [e]
  | _ => []

theorem errors_setStart (s : State ε) (l : Listener) (phase : StartPhase ε) :
    (s.setStart l phase).errors + (s.server l).start.held = s.errors + phase.held := by
  cases l
  · simp only [State.errors, State.setStart, Function.update_self, ne_eq, reduceCtorEq,
      not_false_eq_true, Function.update_of_ne]
    abel
  · simp only [State.errors, State.setStart, Function.update_self, ne_eq, reduceCtorEq,
      not_false_eq_true, Function.update_of_ne]
    abel

/-- A server that held no result goes on to `phase`. -/
theorem errors_start {s : State ε} {l : Listener} {before phase : StartPhase ε}
    (h : (s.server l).start = before) (hbefore : before.held = []) :
    (s.setStart l phase).errors = s.errors + phase.held := by
  have hset := errors_setStart s l phase
  rw [h, hbefore, Multiset.coe_nil, add_zero] at hset
  exact hset

theorem errors_shut (s : State ε) (l : Listener) : (s.shut l).errors = s.errors := by
  cases l <;> rfl

/-- No step loses an error or makes one up. -/
theorem errors_step {s t : State ε} {l : Label ε} (hfresh : s.phase = .selecting → s.startErr = [])
    (h : step s l = some t) : t.errors = s.errors + l.failure := by
  cases moves_of_step h with
  | signal | pollEnds | tick | pollerStops | noticeSignal | leave | finish =>
    simp [State.errors, Label.failure]
  | binds hstart => exact errors_start hstart rfl
  | bindFails hstart => exact errors_start hstart rfl
  | serves hstart hup => exact errors_start hstart rfl
  | refuses hstart hdown => exact errors_start hstart rfl
  | acceptFails hstart hup => exact errors_start hstart rfl
  | serverClosed hstart hdown => exact errors_start hstart rfl
  | @send l r hstart hroom =>
    have hsent := errors_setStart s l (.sent r)
    simp only [hstart, StartPhase.held, Multiset.coe_nil, add_zero] at hsent
    simp only [Label.failure, Multiset.coe_nil, add_zero, ← hsent]
    simp only [State.errors, State.setStart, List.flatMap_append, List.flatMap_singleton,
      ← Multiset.coe_add]
    abel
  | receive hphase hchannel =>
    simp only [State.errors, hfresh hphase, hchannel, Label.failure, List.flatMap_cons,
      ← Multiset.coe_add, Multiset.coe_nil, zero_add, add_zero]
  | @beginShutdown l hphase =>
    have hshut : State.errors { s.shut l with phase := .shutting l } = (s.shut l).errors := rfl
    rw [hshut, errors_shut]
    simp [Label.failure]
  | endMain hphase | endAdmin hphase =>
    simp only [State.errors, Label.failure, ← Multiset.coe_add]
    abel
  | drain hphase hchannel hmore =>
    simp only [State.errors, hchannel, Label.failure, List.flatMap_cons, ← Multiset.coe_add,
      Multiset.coe_nil, add_zero]
    abel

def StartPhase.sends : StartPhase ε → ℕ
  | .sent _ => 1
  | _ => 0

def State.sends (s : State ε) : ℕ := (s.server .main).start.sends + (s.server .admin).start.sends

/-- A server that stopped without an error. -/
def StartPhase.Quiet (phase : StartPhase ε) : Prop := phase = .returned none ∨ phase = .sent none

/-- `Shutdown` of `l` has been called by then. -/
def RunPhase.Past (l : Listener) : RunPhase → Prop
  | .selecting | .calling .main => False
  | .shutting .main | .calling .admin => l = .main
  | .shutting .admin | .draining | .deferred | .returned => True

structure Invariant (s : State ε) : Prop where
  counted : s.consumed + s.channel.length = s.sends
  quiet : ∀ l, (s.server l).start.Quiet → (s.server l).shuttingDown = true
  quietSent : none ∈ s.channel → ∃ l, (s.server l).shuttingDown = true
  shut : ∀ l, (s.server l).shuttingDown = true ↔ s.phase.Past l
  fresh : s.phase = .selecting → s.consumed = 0 ∧ s.startErr = []
  asked : s.phase = .selecting ∨ s.signalled = true ∨ s.startErr ≠ []
  collected : s.phase = .deferred ∨ s.phase = .returned → serverCount ≤ s.consumed ∧ s.pollerCancelled = true
  joined : s.phase = .returned → s.poller = .finished

theorem invariant_start : Invariant ({} : State ε) where
  counted := rfl
  quiet l h := by rcases h with h | h <;> cases h
  quietSent h := by cases h
  shut l := by simp [RunPhase.Past]
  fresh _ := ⟨rfl, rfl⟩
  asked := .inl rfl
  collected h := by rcases h with h | h <;> cases h
  joined h := by cases h

theorem sends_setStart (s : State ε) (l : Listener) (phase : StartPhase ε) :
    (s.setStart l phase).sends + (s.server l).start.sends = s.sends + phase.sends := by
  cases l
  · simp only [State.sends, State.setStart, Function.update_self, ne_eq, reduceCtorEq,
      not_false_eq_true, Function.update_of_ne]
    omega
  · simp only [State.sends, State.setStart, Function.update_self, ne_eq, reduceCtorEq,
      not_false_eq_true, Function.update_of_ne]
    omega

theorem start_setStart (s : State ε) (l k : Listener) (phase : StartPhase ε) :
    ((s.setStart l phase).server k).start = if k = l then phase else (s.server k).start := by
  unfold State.setStart
  rcases eq_or_ne k l with rfl | hne
  · simp
  · simp [hne]

theorem shuttingDown_setStart (s : State ε) (l k : Listener) (phase : StartPhase ε) :
    ((s.setStart l phase).server k).shuttingDown = (s.server k).shuttingDown := by
  unfold State.setStart
  rcases eq_or_ne k l with rfl | hne
  · simp
  · simp [hne]

/-- `Start` goes on, and stops without an error only when it was shut down. -/
theorem Invariant.setStart {s : State ε} (h : Invariant s) {l : Listener} {before phase : StartPhase ε}
    (hbefore : (s.server l).start = before) (hsends : before.sends = 0) (hsends' : phase.sends = 0)
    (hquiet : phase.Quiet → (s.server l).shuttingDown = true) : Invariant (s.setStart l phase) where
  counted := by
    have hcount := sends_setStart s l phase
    rw [hbefore, hsends, hsends'] at hcount
    exact h.counted.trans hcount.symm
  quiet k hk := by
    rw [shuttingDown_setStart]
    rw [start_setStart] at hk
    split_ifs at hk with heq
    · subst heq
      exact hquiet hk
    · exact h.quiet k hk
  quietSent hnone := by
    obtain ⟨k, hk⟩ := h.quietSent hnone
    exact ⟨k, by rw [shuttingDown_setStart, hk]⟩
  shut k := by
    rw [shuttingDown_setStart]
    exact h.shut k
  fresh := h.fresh
  asked := h.asked
  collected := h.collected
  joined := h.joined

/-- `Run` goes on before its deferred calls. -/
theorem Invariant.toPhase {s : State ε} (h : Invariant s) {phase : RunPhase} {errs : List ε}
    (hpast : ∀ l, phase.Past l ↔ s.phase.Past l) (hearly : phase ≠ .deferred ∧ phase ≠ .returned)
    (hlate : phase ≠ .selecting) (hasked : s.signalled = true ∨ s.startErr ≠ []) :
    Invariant { s with phase, shutdownErr := errs } where
  counted := h.counted
  quiet := h.quiet
  quietSent := h.quietSent
  shut l := (h.shut l).trans (hpast l).symm
  fresh hphase := absurd hphase hlate
  asked := .inr hasked
  collected hphase := hphase.elim (absurd · hearly.1) (absurd · hearly.2)
  joined hphase := absurd hphase hearly.2

theorem Invariant.asked_of_ne {s : State ε} (h : Invariant s) (hphase : s.phase ≠ .selecting) :
    s.signalled = true ∨ s.startErr ≠ [] := h.asked.resolve_left hphase

/-- `Shutdown` of `l` is called. -/
theorem Invariant.shutting {s : State ε} (h : Invariant s) {l : Listener} (hphase : s.phase = .calling l) :
    Invariant { s.shut l with phase := .shutting l } where
  counted := by
    cases l <;> exact h.counted
  quiet k hk := by
    change (Function.update s.server l _ k).shuttingDown = true
    change (Function.update s.server l _ k).start.Quiet at hk
    rcases eq_or_ne k l with rfl | hne
    · rw [Function.update_self]
    · rw [Function.update_of_ne hne] at hk ⊢
      exact h.quiet k hk
  quietSent _ := ⟨l, by simp [State.shut]⟩
  shut k := by
    have hbefore := h.shut k
    rw [hphase] at hbefore
    change (Function.update s.server l _ k).shuttingDown = true ↔ _
    rcases eq_or_ne k l with rfl | hne
    · rw [Function.update_self]
      cases k <;> simp [RunPhase.Past]
    · rw [Function.update_of_ne hne, hbefore]
      cases l <;> cases k <;> simp_all [RunPhase.Past]
  fresh := nofun
  asked := .inr (h.asked_of_ne (by rw [hphase]; nofun))
  collected hk := by rcases hk with hk | hk <;> cases hk
  joined := nofun

theorem invariant_step {s t : State ε} {l : Label ε} (h : Invariant s) (hstep : step s l = some t) :
    Invariant t := by
  cases moves_of_step hstep with
  | signal hsignal => exact { h with asked := .inr (.inl rfl) }
  | binds hstart => exact h.setStart hstart rfl rfl (by rintro (h | h) <;> cases h)
  | bindFails hstart => exact h.setStart hstart rfl rfl (by rintro (h | h) <;> cases h)
  | serves hstart hup => exact h.setStart hstart rfl rfl (by rintro (h | h) <;> cases h)
  | refuses hstart hdown => exact h.setStart hstart rfl rfl fun _ => hdown
  | acceptFails hstart hup => exact h.setStart hstart rfl rfl (by rintro (h | h) <;> cases h)
  | serverClosed hstart hdown => exact h.setStart hstart rfl rfl fun _ => hdown
  | @send l r hstart hroom =>
    refine { h with counted := ?_, quiet := ?_, quietSent := ?_, shut := ?_ }
    · have hcount := sends_setStart s l (.sent r)
      have hbefore := h.counted
      rw [hstart] at hcount
      simp only [StartPhase.sends] at hcount
      change s.consumed + (s.channel ++ [r]).length = (s.setStart l (.sent r)).sends
      rw [List.length_append, List.length_singleton]
      omega
    · intro k hk
      change ((s.setStart l (.sent r)).server k).start.Quiet at hk
      change ((s.setStart l (.sent r)).server k).shuttingDown = true
      rw [shuttingDown_setStart]
      rw [start_setStart] at hk
      split_ifs at hk with heq
      · subst heq
        obtain rfl : r = none := by
          rcases hk with hk | hk
          · cases hk
          · exact StartPhase.sent.inj hk
        exact h.quiet k (.inl hstart)
      · exact h.quiet k hk
    · intro hnone
      rcases List.mem_append.1 hnone with hnone | hnone
      · obtain ⟨k, hk⟩ := h.quietSent hnone
        exact ⟨k, (shuttingDown_setStart s l k _).trans hk⟩
      · obtain rfl : none = r := List.mem_singleton.1 hnone
        exact ⟨l, (shuttingDown_setStart s l l _).trans (h.quiet l (.inl hstart))⟩
    · intro k
      change ((s.setStart l (.sent r)).server k).shuttingDown = true ↔ _
      rw [shuttingDown_setStart]
      exact h.shut k
  | pollEnds hpoller =>
    refine { h with joined := fun hphase => ?_ }
    rw [h.joined hphase] at hpoller
    cases hpoller
  | tick hpoller =>
    refine { h with joined := fun hphase => ?_ }
    rw [h.joined hphase] at hpoller
    cases hpoller
  | pollerStops hpoller hdone => exact { h with joined := fun _ => rfl }
  | @receive r rest hphase hchannel =>
    have hcount := h.counted
    rw [hchannel, (h.fresh hphase).1, List.length_cons, Nat.zero_add] at hcount
    have hfailed : r.toList ≠ [] := by
      -- nothing was shut down, so the first result is an error
      cases r with
      | none =>
        obtain ⟨k, hk⟩ := h.quietSent (by simp [hchannel])
        rw [h.shut, hphase] at hk
        exact hk.elim
      | some e => exact List.cons_ne_nil _ _
    have hshut : ∀ k, (s.server k).shuttingDown = true ↔ (RunPhase.calling .main).Past k := by
      intro k
      rw [h.shut, hphase]
      exact Iff.rfl
    exact {
      counted := (Nat.add_comm _ _).trans hcount
      quiet := h.quiet
      quietSent := fun hnone => h.quietSent (hchannel ▸ List.mem_cons_of_mem _ hnone)
      shut := hshut
      fresh := nofun
      asked := .inr (.inr hfailed)
      collected := fun hk => hk.elim nofun nofun
      joined := nofun }
  | noticeSignal hphase hsignal =>
    exact h.toPhase (fun l => by rw [hphase]; rfl) ⟨nofun, nofun⟩ nofun (.inl hsignal)
  | beginShutdown hphase => exact h.shutting hphase
  | endMain hphase =>
    exact h.toPhase (fun l => by rw [hphase]; rfl) ⟨nofun, nofun⟩ nofun
      (h.asked_of_ne (by rw [hphase]; nofun))
  | endAdmin hphase =>
    exact h.toPhase (fun l => by rw [hphase]; rfl) ⟨nofun, nofun⟩ nofun
      (h.asked_of_ne (by rw [hphase]; nofun))
  | @drain r rest hphase hchannel hmore =>
    have hcount := h.counted
    rw [hchannel, List.length_cons] at hcount
    have hasked := h.asked_of_ne (by rw [hphase]; nofun)
    exact {
      counted := by
        change s.consumed + 1 + rest.length = s.sends
        omega
      quiet := h.quiet
      quietSent := fun hnone => h.quietSent (hchannel ▸ List.mem_cons_of_mem _ hnone)
      shut := h.shut
      fresh := fun hk => by cases hphase.symm.trans hk
      asked := .inr (hasked.imp_right fun hne => List.append_ne_nil_of_left_ne_nil hne _)
      collected := fun hk => by rcases hk with hk | hk <;> cases hphase.symm.trans hk
      joined := fun hk => by cases hphase.symm.trans hk }
  | leave hphase hall =>
    have hshut : ∀ k, (s.server k).shuttingDown = true ↔ RunPhase.deferred.Past k := by
      intro k
      rw [h.shut, hphase]
      exact Iff.rfl
    exact { h with
      shut := hshut
      fresh := nofun
      asked := .inr (h.asked_of_ne (by rw [hphase]; nofun))
      collected := fun _ => ⟨hall, rfl⟩
      joined := nofun }
  | finish hphase hpoller =>
    have hshut : ∀ k, (s.server k).shuttingDown = true ↔ RunPhase.returned.Past k := by
      intro k
      rw [h.shut, hphase]
      exact Iff.rfl
    exact { h with
      shut := hshut
      fresh := nofun
      asked := .inr (h.asked_of_ne (by rw [hphase]; nofun))
      collected := fun _ => h.collected (.inl hphase)
      joined := fun _ => hpoller }

theorem invariant_run {s : State ε} {ls : List (Label ε)} (h : run step {} ls = some s) : Invariant s :=
  run_invariant invariant_step invariant_start h

theorem errors_run {s : State ε} {ls : List (Label ε)} (h : run step {} ls = some s) :
    s.errors = ls.flatMap Label.failure := by
  refine run_induction (motive := fun ls s => s.errors = (ls.flatMap Label.failure : Multiset ε)) rfl ?_ h
  intro ls u l t hrun hu hstep
  rw [errors_step (fun hphase => ((invariant_run hrun).fresh hphase).2) hstep, hu, List.flatMap_append,
    List.flatMap_singleton, Multiset.coe_add]

theorem sends_le (s : State ε) : s.sends ≤ serverCount := by
  have hle : ∀ phase : StartPhase ε, phase.sends ≤ 1 := by
    intro phase
    cases phase <;> simp [StartPhase.sends]
  exact Nat.add_le_add (hle _) (hle _)

/-- Whose result was sent holds none any more. -/
theorem sent_of_sends {phase : StartPhase ε} (h : phase.sends = 1) : ∃ r, phase = .sent r := by
  cases phase with
  | sent r => exact ⟨r, rfl⟩
  | starting | bound | serving | returned r => cases h

theorem sent_of_all {s : State ε} (h : s.sends = serverCount) (l : Listener) :
    ∃ r, (s.server l).start = .sent r := by
  have hmain := sends_le { s with server := fun _ => s.server .main }
  have hadmin := sends_le { s with server := fun _ => s.server .admin }
  simp only [State.sends, serverCount] at h hmain hadmin
  cases l
  · exact sent_of_sends (by omega)
  · exact sent_of_sends (by omega)

theorem ended_run {s : State ε} {ls : List (Label ε)} (h : run step {} ls = some s)
    (hreturned : s.phase = .returned) :
    (∀ l, ∃ r, (s.server l).start = .sent r) ∧ s.channel = [] ∧ s.poller = .finished := by
  have hinv := invariant_run h
  have hcount := hinv.counted
  have hle := sends_le s
  have hall := (hinv.collected (.inr hreturned)).1
  have hchannel : s.channel = [] := List.length_eq_zero_iff.1 (by omega)
  exact ⟨sent_of_all (show s.sends = serverCount by omega), hchannel, hinv.joined hreturned⟩

theorem result_run {s : State ε} {ls : List (Label ε)} (h : run step {} ls = some s)
    (hreturned : s.phase = .returned) : s.result.Perm (ls.flatMap Label.failure) := by
  obtain ⟨hsent, hchannel, -⟩ := ended_run h hreturned
  have hheld : ∀ l, (s.server l).start.held = [] := by
    intro l
    obtain ⟨r, hr⟩ := hsent l
    rw [hr]
    rfl
  have herrors := errors_run h
  rw [State.errors, hheld, hheld, hchannel] at herrors
  simpa [State.result] using herrors

/-- When `Run` has returned, both servers and the poller have ended, no result is left in the
channel, and what it returns is what went wrong on the way, no more and no less. -/
theorem run_returned {s : State ε} {ls : List (Label ε)} (h : run step {} ls = some s)
    (hreturned : s.phase = .returned) : s.result.Perm (ls.flatMap Label.failure) ∧
      (∀ l, ∃ r, (s.server l).start = .sent r) ∧ s.channel = [] ∧ s.poller = .finished :=
  ⟨result_run h hreturned, ended_run h hreturned⟩

/-- The admin address is in use, which ends the process before the main server listens. -/
def addressInUse : List (Label ℕ) :=
  [.listen .admin (some 98), .send .admin, .receive, .beginShutdown, .endShutdown none, .beginShutdown,
    .endShutdown none, .listen .main none, .serve .main, .send .main, .drain, .leave, .pollEnds,
    .pollerStops, .finish]

theorem run_returned_addressInUse : ∃ s, run step {} addressInUse = some s ∧ s.result.Perm [98] ∧
    (∀ l, ∃ r, (s.server l).start = .sent r) ∧ s.channel = [] ∧ s.poller = .finished :=
  ⟨_, rfl, @run_returned _ _ addressInUse rfl rfl⟩

theorem signalled_run {s : State ε} {ls : List (Label ε)} (h : run step {} ls = some s)
    (hsignal : s.signalled = true) : .signal ∈ ls := by
  revert hsignal
  refine run_induction (motive := fun ls s => s.signalled = true → Label.signal ∈ ls)
    (fun h => by cases h) ?_ h
  intro ls u l t hrun hu hstep hsignal
  have hbefore : u.signalled = true → .signal ∈ ls ++ [l] := fun h => List.mem_append_left _ (hu h)
  cases moves_of_step hstep with
  | signal _ => simp
  | binds _ | bindFails _ | serves _ _ | refuses _ _ | acceptFails _ _ | serverClosed _ _ | send _ _
  | pollEnds _ | tick _ | pollerStops _ _ | receive _ _ | noticeSignal _ _ | beginShutdown _
  | endMain _ | endAdmin _ | drain _ _ _ | leave _ _ | finish _ _ => exact hbefore hsignal

/-- The process ends well exactly when nothing went wrong in its run, and then only on a signal. -/
theorem run_exitCode {s : State ε} {ls : List (Label ε)} (h : run step {} ls = some s)
    (hreturned : s.phase = .returned) : (s.exitCode = 0 ↔ ∀ l ∈ ls, l.failure = []) ∧
      (s.exitCode = 0 → .signal ∈ ls) := by
  have hresult := result_run h hreturned
  have hzero : s.exitCode = 0 ↔ s.result = [] := by
    rw [State.exitCode, ← List.isEmpty_iff]
    split_ifs with hempty
    · simp [hempty]
    · simp [hempty]
  constructor
  · rw [hzero, ← List.flatMap_eq_nil_iff]
    constructor
    · intro hnil
      exact (hnil ▸ hresult).symm.eq_nil
    · intro hnil
      exact (hnil ▸ hresult).eq_nil
  · intro hexit
    have hstart : s.startErr = [] := (List.append_eq_nil_iff.1 (hzero.1 hexit)).1
    have hasked := (invariant_run h).asked_of_ne (by rw [hreturned]; nofun)
    exact signalled_run h (hasked.resolve_right fun hne => hne hstart)

/-- A signal finds both servers up. -/
def stopped : List (Label ℕ) :=
  [.listen .main none, .listen .admin none, .serve .main, .serve .admin, .pollEnds, .signal, .noticeSignal,
    .beginShutdown, .serverClosed .main, .send .main, .endShutdown none, .beginShutdown,
    .serverClosed .admin, .endShutdown none, .drain, .send .admin, .drain, .leave, .pollerStops, .finish]

theorem run_exitCode_stopped : ∃ s, run step {} stopped = some s ∧
    (s.exitCode = 0 ↔ ∀ l ∈ stopped, l.failure = []) ∧ (s.exitCode = 0 → .signal ∈ stopped) :=
  ⟨_, rfl, @run_exitCode _ _ stopped rfl rfl⟩

/-- A step that the process takes by itself. -/
def Label.Internal : Label ε → Prop
  | .signal | .acceptFails _ _ | .tick => False
  | _ => True

/-- Both servers serve, and nobody asked for an end. -/
structure State.Up (s : State ε) : Prop where
  selecting : s.phase = .selecting
  serving : ∀ l, (s.server l).start = .serving
  unasked : s.signalled = false
  empty : s.channel = []

def StartPhase.left : StartPhase ε → ℕ
  | .starting => 4
  | .bound => 3
  | .serving => 2
  | .returned _ => 1
  | .sent _ => 0

def PollerPhase.left : PollerPhase → ℕ
  | .polling => 2
  | .waiting => 1
  | .finished => 0

def RunPhase.left : RunPhase → ℕ
  | .selecting => 7
  | .calling .main => 6
  | .shutting .main => 5
  | .calling .admin => 4
  | .shutting .admin => 3
  | .draining => 2
  | .deferred => 1
  | .returned => 0

/-- Steps that are left, apart from polls. -/
def State.left (s : State ε) : ℕ :=
  (s.server .main).start.left + (s.server .admin).start.left + s.poller.left + s.phase.left +
    (serverCount - s.consumed) + (!s.signalled).toNat

/-- A tick lets the poller poll again. -/
def Label.price : Label ε → ℕ
  | .tick => 2
  | _ => 0

theorem left_setStart (s : State ε) (l : Listener) (phase : StartPhase ε) :
    (s.setStart l phase).left + (s.server l).start.left = s.left + phase.left := by
  cases l
  · simp only [State.left, State.setStart, Function.update_self, ne_eq, reduceCtorEq,
      not_false_eq_true, Function.update_of_ne]
    omega
  · simp only [State.left, State.setStart, Function.update_self, ne_eq, reduceCtorEq,
      not_false_eq_true, Function.update_of_ne]
    omega

theorem left_start {s : State ε} {l : Listener} {before phase : StartPhase ε}
    (h : (s.server l).start = before) (hless : phase.left < before.left) :
    (s.setStart l phase).left + 1 ≤ s.left := by
  have hset := left_setStart s l phase
  rw [h] at hset
  omega

theorem left_shut (s : State ε) (l : Listener) (phase : RunPhase) :
    State.left { s.shut l with phase } + s.phase.left = s.left + phase.left := by
  cases l
  · simp only [State.left, State.shut, Function.update_self, ne_eq, reduceCtorEq, not_false_eq_true,
      Function.update_of_ne]
    omega
  · simp only [State.left, State.shut, Function.update_self, ne_eq, reduceCtorEq, not_false_eq_true,
      Function.update_of_ne]
    omega

theorem left_step {s t : State ε} {l : Label ε} (h : Invariant s) (hstep : step s l = some t) :
    t.left + 1 ≤ s.left + l.price := by
  cases moves_of_step hstep with
  | signal hsignal => simp [State.left, hsignal, Label.price]
  | binds hstart => exact left_start hstart (by simp [StartPhase.left])
  | bindFails hstart => exact left_start hstart (by simp [StartPhase.left])
  | serves hstart hup => exact left_start hstart (by simp [StartPhase.left])
  | refuses hstart hdown => exact left_start hstart (by simp [StartPhase.left])
  | acceptFails hstart hup => exact left_start hstart (by simp [StartPhase.left])
  | serverClosed hstart hdown => exact left_start hstart (by simp [StartPhase.left])
  | send hstart hroom => exact left_start hstart (by simp [StartPhase.left])
  | pollEnds hpoller | pollerStops hpoller hdone =>
    simp only [State.left, hpoller, PollerPhase.left, Label.price]
    omega
  | tick hpoller =>
    simp only [State.left, hpoller, PollerPhase.left, Label.price]
    omega
  | receive hphase hchannel =>
    have hconsumed := (h.fresh hphase).1
    simp only [State.left, hphase, hconsumed, RunPhase.left, Label.price]
    omega
  | @beginShutdown l hphase =>
    have hshut := left_shut s l (.shutting l)
    rw [hphase] at hshut
    cases l <;> simp only [RunPhase.left, Label.price] at hshut ⊢ <;> omega
  | noticeSignal hphase _ | endMain hphase | endAdmin hphase | leave hphase _ | finish hphase _ =>
    simp only [State.left, hphase, RunPhase.left, Label.price]
    omega
  | drain hphase hchannel hmore =>
    simp only [State.left, hphase, RunPhase.left, Label.price]
    omega

theorem left_internal {s t : State ε} {l : Label ε} (h : Invariant s) (hl : l.Internal)
    (hstep : step s l = some t) : t.left < s.left := by
  have hless := left_step h hstep
  cases l <;> first | exact hl.elim | exact hless

/-- Whoever is stuck is done, or waits for somebody who is not. -/
theorem settled_start {s : State ε} (h : ∀ l : Label ε, l.Internal → step s l = none)
    (hroom : s.channel.length < serverCount) (l : Listener) : (∃ r, (s.server l).start = .sent r) ∨
      (s.server l).start = .serving ∧ (s.server l).shuttingDown = false := by
  cases hstart : (s.server l).start with
  | starting =>
    have hlisten := h (.listen l none) trivial
    simp [step, hstart] at hlisten
  | bound =>
    have hserve := h (.serve l) trivial
    simp [step, hstart] at hserve
  | serving =>
    refine .inr ⟨rfl, ?_⟩
    have hclosed := h (.serverClosed l) trivial
    simpa [step, hstart] using hclosed
  | returned r =>
    have hsend := h (.send l) trivial
    simp [step, hstart, hroom] at hsend
  | sent r => exact .inl ⟨r, rfl⟩

/-- Where the process can take no step by itself, it has returned, or it is up and nobody wants
it to end. -/
theorem settled {s : State ε} (hinv : Invariant s) (h : ∀ l : Label ε, l.Internal → step s l = none) :
    s.phase = .returned ∨ s.Up := by
  cases hphase : s.phase with
  | selecting =>
    have hchannel : s.channel = [] := by
      have hreceive := h .receive trivial
      cases hchannel : s.channel with
      | nil => rfl
      | cons r rest => simp [step, hphase, hchannel] at hreceive
    have hsends : s.sends = 0 := by
      have hcount := hinv.counted
      rw [hchannel, (hinv.fresh hphase).1] at hcount
      exact hcount.symm
    have hserving : ∀ l, (s.server l).start = .serving := by
      intro l
      refine ((settled_start h (by simp [hchannel, serverCount]) l).resolve_left ?_).1
      rintro ⟨r, hr⟩
      cases l <;> simp [State.sends, hr, StartPhase.sends] at hsends
    have hsignal := h .noticeSignal trivial
    exact .inr ⟨hphase, hserving, by simpa [step, hphase] using hsignal, hchannel⟩
  | calling l =>
    have hbegin := h .beginShutdown trivial
    simp [step, hphase] at hbegin
  | shutting l =>
    have hend := h (.endShutdown none) trivial
    simp [step, hphase] at hend
  | draining =>
    have hleave := h .leave trivial
    have hless : s.consumed < serverCount := by simpa [step, hphase] using hleave
    have hchannel : s.channel = [] := by
      have hdrain := h .drain trivial
      cases hchannel : s.channel with
      | nil => rfl
      | cons r rest => simp [step, hphase, hchannel, hless] at hdrain
    have hsent : ∀ l, (s.server l).start.sends = 1 := by
      intro l
      have hdown := (hinv.shut l).2 (by rw [hphase]; trivial)
      obtain ⟨r, hr⟩ := (settled_start h (by simp [hchannel, serverCount]) l).resolve_right
        fun hup => by simp [hdown] at hup
      rw [hr]
      rfl
    have hcount := hinv.counted
    rw [hchannel, State.sends, hsent, hsent] at hcount
    simp only [serverCount, List.length_nil] at hless hcount
    omega
  | deferred =>
    have hcancelled := (hinv.collected (.inl hphase)).2
    cases hpoller : s.poller with
    | polling =>
      have hends := h .pollEnds trivial
      simp [step, hpoller] at hends
    | waiting =>
      have hstops := h .pollerStops trivial
      simp [step, hpoller, hcancelled] at hstops
    | finished =>
      have hfinish := h .finish trivial
      simp [step, hphase, hpoller] at hfinish
  | returned => exact .inl rfl

theorem exists_settled {s : State ε} (h : Invariant s) :
    ∃ ks t, run step s ks = some t ∧ (∀ l ∈ ks, l.Internal) ∧ (t.phase = .returned ∨ t.Up) := by
  refine exists_run_of_measure Label.Internal State.left invariant_step (fun {u} hu => ?_) h
  by_contra hstuck
  rw [not_or, not_exists] at hstuck
  obtain ⟨hgoal, hnext⟩ := hstuck
  refine hgoal (settled hu fun l hl => ?_)
  by_contra hsome
  obtain ⟨t, ht⟩ := Option.ne_none_iff_exists'.1 hsome
  exact hnext l ⟨t, hl, ht, left_internal hu hl ht⟩

/-- Apart from polls the process takes a bounded number of steps in its life, and from wherever it
can be its own steps bring it up or to an end. -/
theorem run_settles {s : State ε} {ls : List (Label ε)} (h : run step {} ls = some s) :
    ls.length ≤ 20 + (ls.map Label.price).sum ∧
      ∃ ks t, run step s ks = some t ∧ (∀ l ∈ ks, l.Internal) ∧ (t.phase = .returned ∨ t.Up) := by
  have hbound := length_le_of_measure State.left Label.price invariant_step left_step invariant_start h
  have hstart : State.left ({} : State ε) = 20 := rfl
  exact ⟨by omega, exists_settled (invariant_run h)⟩

theorem run_settles_addressInUse : ∃ s, run step {} (addressInUse.take 3) = some s ∧
    ∃ ks t, run step s ks = some t ∧ (∀ l ∈ ks, l.Internal) ∧ (t.phase = .returned ∨ t.Up) :=
  ⟨_, rfl, (@run_settles _ _ (addressInUse.take 3) rfl).2⟩

end BitcoinRpcOperator.ProxyLifecycle
