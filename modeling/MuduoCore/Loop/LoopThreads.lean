import MuduoCore.Foundation.TransitionSystem
import MuduoCore.Loop.EventLoop

/-!
# An event loop and the threads that feed it

Any number of other threads call `queueInLoop`, `runInLoop` and `quit` on one
loop, while handlers, functor bodies and other code on the loop's own thread
call them too. A call from another thread is two steps, the critical section
(or the store to `quit_`) and then `wakeup()`; on the loop's thread it is the
critical section and then the conditional wakeup. `pushed` and `executed`
record the functors in the order in which they were queued and started.
-/

namespace MuduoCore

inductive CallerPhase
  | idle
  | pushed
  | quitting
  deriving DecidableEq, Repr

inductive LoopLabel (F T : Type*)
  | push (t : T) (cb : F)
  | quit (t : T)
  | wakeup (t : T)
  | ownPush (cb : F)
  | ownWakeup
  | ownQuit
  | control (s : LoopStep)

structure LoopThreads (F T : Type*) where
  loop : EventLoop F
  caller : T → CallerPhase
  /-- the loop thread itself is inside `queueInLoop`, past its critical section -/
  ownPushed : Bool
  executed : List F
  pushed : List F

namespace LoopThreads

variable {F T : Type*}

/-- A loop with nothing queued, before `loop()`, whatever the other threads and
the counter. -/
def Fresh (s : LoopThreads F T) : Prop :=
  s.loop.phase = .outside ∧ s.loop.pendingFunctors_ = [] ∧
    s.loop.callingPendingFunctors_ = false ∧ s.ownPushed = false ∧ s.executed = s.pushed

/-- Started functors, then the rest of the vector, then the queue, are the
functors pushed, in the order of the pushes. -/
def Fifo (s : LoopThreads F T) : Prop :=
  s.executed ++ s.loop.phase.todo ++ s.loop.pendingFunctors_ = s.pushed

/-- The counter is positive, or another thread is about to make it so. -/
def Awaited (s : LoopThreads F T) : Prop :=
  s.loop.wakeupFd_ ≠ 0 ∨ ∃ t, s.caller t = .pushed

theorem fifo_of_fresh {s : LoopThreads F T} (h : Fresh s) : Fifo s := by
  obtain ⟨hp, hq, _, _, he⟩ := h
  simp [Fifo, hp, hq, he, LoopPhase.todo]

variable [DecidableEq T]

def step (s : LoopThreads F T) : LoopLabel F T → Option (LoopThreads F T)
  | .push t cb =>
    if s.caller t = .idle then
      some { s with
        loop := s.loop.push cb
        caller := Function.update s.caller t .pushed
        pushed := s.pushed ++ [cb] }
    else none
  | .quit t =>
    if s.caller t = .idle then
      some { s with loop := s.loop.setQuit, caller := Function.update s.caller t .quitting }
    else none
  | .wakeup t =>
    if s.caller t = .idle then none
    else some { s with
      loop := s.loop.wakeupAfterPush false
      caller := Function.update s.caller t .idle }
  | .ownPush cb =>
    if s.loop.phase.runsCode && !s.ownPushed then
      some { s with loop := s.loop.push cb, ownPushed := true, pushed := s.pushed ++ [cb] }
    else none
  | .ownWakeup =>
    if s.ownPushed then some { s with loop := s.loop.wakeupAfterPush true, ownPushed := false }
    else none
  | .ownQuit =>
    if s.loop.phase.runsCode && !s.ownPushed then some { s with loop := s.loop.setQuit } else none
  | .control c =>
    if s.ownPushed then none
    else (s.loop.advance c).map fun loop =>
      { s with loop := loop, executed := s.executed ++ s.loop.started c }

def system (F T : Type*) [DecidableEq T] : TransitionSystem (LoopThreads F T) (LoopLabel F T) where
  Init := Fresh
  Step s l s' := s.step l = some s'

/-- `loop()` is entered with an empty queue, and its own thread queues functors
only from event handlers and functor bodies. -/
def HandlersAndFunctors (s : LoopThreads F T) : LoopLabel F T → Prop
  | .ownPush _ => s.loop.phase.inHandlerOrFunctor = true
  | .control .enter => s.loop.pendingFunctors_ = []
  | _ => True

/-! ## What a step can do -/

inductive Steps (s : LoopThreads F T) : LoopLabel F T → LoopThreads F T → Prop
  | push (t : T) (cb : F) (hc : s.caller t = .idle) :
      Steps s (.push t cb) { s with
        loop := s.loop.push cb
        caller := Function.update s.caller t .pushed
        pushed := s.pushed ++ [cb] }
  | quit (t : T) (hc : s.caller t = .idle) :
      Steps s (.quit t) { s with
        loop := s.loop.setQuit, caller := Function.update s.caller t .quitting }
  | wakeup (t : T) (hc : s.caller t ≠ .idle) :
      Steps s (.wakeup t) { s with
        loop := s.loop.wakeup, caller := Function.update s.caller t .idle }
  | ownPush (cb : F) (hr : s.loop.phase.runsCode = true) (ho : s.ownPushed = false) :
      Steps s (.ownPush cb) { s with
        loop := s.loop.push cb, ownPushed := true, pushed := s.pushed ++ [cb] }
  | ownWakeup (ho : s.ownPushed = true) :
      Steps s .ownWakeup { s with loop := s.loop.wakeupAfterPush true, ownPushed := false }
  | ownQuit (hr : s.loop.phase.runsCode = true) (ho : s.ownPushed = false) :
      Steps s .ownQuit { s with loop := s.loop.setQuit }
  | control (c : LoopStep) (loop : EventLoop F) (ho : s.ownPushed = false)
      (ha : s.loop.Advances c loop) :
      Steps s (.control c) { s with loop := loop, executed := s.executed ++ s.loop.started c }

theorem steps_of_step {s s' : LoopThreads F T} {l : LoopLabel F T} (h : s.step l = some s') :
    Steps s l s' := by
  cases l with
  | push t cb =>
    simp only [step] at h
    split_ifs at h with hc
    cases h
    exact .push t cb hc
  | quit t =>
    simp only [step] at h
    split_ifs at h with hc
    cases h
    exact .quit t hc
  | wakeup t =>
    simp only [step] at h
    split_ifs at h with hc
    cases h
    exact .wakeup t hc
  | ownPush cb =>
    simp only [step] at h
    split_ifs at h with hc
    cases h
    simp only [Bool.and_eq_true, Bool.not_eq_eq_eq_not, Bool.not_true] at hc
    exact .ownPush cb hc.1 hc.2
  | ownWakeup =>
    simp only [step] at h
    split_ifs at h with hc
    cases h
    exact .ownWakeup hc
  | ownQuit =>
    simp only [step] at h
    split_ifs at h with hc
    cases h
    simp only [Bool.and_eq_true, Bool.not_eq_eq_eq_not, Bool.not_true] at hc
    exact .ownQuit hc.1 hc.2
  | control c =>
    simp only [step] at h
    split_ifs at h with hc
    simp only [Option.map_eq_some_iff] at h
    obtain ⟨loop, ha, rfl⟩ := h
    exact .control c loop (by simpa using hc) (EventLoop.advances_of_advance ha)

/-! ## First in, first out, exactly once -/

theorem fifo_step {s s' : LoopThreads F T} {l : LoopLabel F T} (h : Fifo s)
    (hs : Steps s l s') : Fifo s' := by
  cases hs with
  | control c loop ho ha =>
    have hq := ha.started_append_queued
    simp only [EventLoop.queued] at hq
    simp only [Fifo, List.append_assoc, hq] at h ⊢
    exact h
  | _ => simp_all [Fifo, ← List.append_assoc]

theorem batch_step {s s' : LoopThreads F T} {l : LoopLabel F T} (hs : Steps s l s')
    (hswap : l ≠ .control .swap) :
    s'.executed ++ s'.loop.phase.todo = s.executed ++ s.loop.phase.todo ∧
      ∃ new, s'.pushed = s.pushed ++ new ∧
        s'.loop.pendingFunctors_ = s.loop.pendingFunctors_ ++ new := by
  cases hs with
  | control c loop ho ha =>
    cases ha with
    | swap hp => exact absurd rfl hswap
    | _ => simp_all [EventLoop.started, LoopPhase.todo]
  | _ => simp

/-- What the run executes while the loop thread stays in one batch: the vector
it has swapped out, and nothing that is pushed meanwhile. -/
theorem batch_replay {s s' : LoopThreads F T} {ls : List (LoopLabel F T)}
    (h : TransitionSystem.replay step s ls = some s') (hswap : .control .swap ∉ ls) :
    s'.executed ++ s'.loop.phase.todo = s.executed ++ s.loop.phase.todo ∧
      ∃ new, s'.pushed = s.pushed ++ new ∧
        s'.loop.pendingFunctors_ = s.loop.pendingFunctors_ ++ new := by
  induction ls generalizing s with
  | nil =>
    simp only [TransitionSystem.replay, Option.some.injEq] at h
    subst h
    exact ⟨rfl, [], by simp, by simp⟩
  | cons l ls ih =>
    simp only [TransitionSystem.replay, Option.bind_eq_some_iff] at h
    obtain ⟨t, hl, ht⟩ := h
    simp only [List.mem_cons, not_or] at hswap
    obtain ⟨hex', new', hpu', hpe'⟩ := batch_step (steps_of_step hl) (Ne.symm hswap.1)
    obtain ⟨hex, new, hpu, hpe⟩ := ih ht hswap.2
    exact ⟨hex.trans hex', new' ++ new, by simp [hpu, hpu'], by simp [hpe, hpe']⟩

theorem replay_guarded {Good : LoopThreads F T → LoopLabel F T → Prop}
    [∀ s l, Decidable (Good s l)] (s : LoopThreads F T) (l : LoopLabel F T)
    (s' : LoopThreads F T) (h : TransitionSystem.guarded Good step s l = some s') :
    Good s l ∧ (system F T).Step s l s' :=
  TransitionSystem.guarded_eq_some.mp h

/-- In every reachable state the functors started, the rest of the swapped-out
vector and the queue make up the sequence of pushes; and from there, as long
as the loop does not swap again, only that vector is run, while everything
pushed meanwhile stays in the queue. -/
theorem functors_fifo_exactly_once {s : LoopThreads F T}
    (h : (system F T).Reachable TransitionSystem.AnyStep s) :
    s.executed ++ s.loop.phase.todo ++ s.loop.pendingFunctors_ = s.pushed ∧
      ∀ ls s', TransitionSystem.replay step s ls = some s' → .control .swap ∉ ls →
        s'.executed ++ s'.loop.phase.todo = s.executed ++ s.loop.phase.todo ∧
        ∃ new, s'.pushed = s.pushed ++ new ∧
          s'.loop.pendingFunctors_ = s.loop.pendingFunctors_ ++ new := by
  constructor
  · refine h.invariant (fun _ => fifo_of_fresh) ?_
    intro s l s' hf _ hs
    exact fifo_step hf (steps_of_step hs)
  · intro ls s' hr hswap
    exact batch_replay hr hswap

def create : LoopThreads F T := ⟨.create, fun _ => .idle, false, [], []⟩

omit [DecidableEq T] in
theorem fresh_create : Fresh (create : LoopThreads F T) := ⟨rfl, rfl, rfl, rfl, rfl⟩

/-- Thread `0` queues functor `1`, whose body queues functor `2`; the loop goes
round once and blocks again. -/
def requeueing : List (LoopLabel ℕ ℕ) :=
  [.control .enter, .control .test, .push 0 1, .wakeup 0, .control (.pollReturn true),
    .control .handleRead, .control .endDispatch, .control .swap, .control .runNext, .ownPush 2,
    .ownWakeup, .control .endBody, .control .endBatch, .control .release, .control .test]

theorem functors_fifo_exactly_once_requeueing :
    ∃ s : LoopThreads ℕ ℕ, (s.executed, s.loop.pendingFunctors_) = ([1], [2]) ∧
      s.executed ++ s.loop.phase.todo ++ s.loop.pendingFunctors_ = s.pushed := by
  have hrun : (TransitionSystem.replay (TransitionSystem.guarded TransitionSystem.AnyStep step)
      create requeueing).map (fun s => (s.executed, s.loop.pendingFunctors_))
      = some ([1], [2]) := by decide
  obtain ⟨s, hs, hobs⟩ := TransitionSystem.exists_reachable_of_replay replay_guarded
    (.init fresh_create) _ hrun
  exact ⟨s, hobs, (functors_fifo_exactly_once hs).1⟩

/-! ## No lost wakeup -/

/-- `queueInLoop` on the loop's own thread ends in a handler or in the body of a
functor, or where a wakeup is on its way anyway. -/
def QueuesAwaited (s : LoopThreads F T) : LoopLabel F T → Prop
  | .ownWakeup => s.loop.phase.inHandlerOrFunctor = true ∨ s.Awaited
  | _ => True

/-- Between the drain of the counter and the next swap the queue needs no
notice; in every other phase a wakeup is on its way while it holds a functor.
On the loop's thread a push is noticed because `callingPendingFunctors_` is set. -/
structure Woken (s : LoopThreads F T) : Prop where
  calling : s.loop.callingPendingFunctors_ = s.loop.phase.callsFunctors
  own : s.ownPushed = true → s.loop.phase.runsCode = true
  noticed : s.loop.pendingFunctors_ ≠ [] →
    (∃ w, s.loop.phase = .dispatch w) ∨ s.loop.phase = .swap ∨ s.Awaited ∨ s.ownPushed = true

omit [DecidableEq T] in
theorem woken_of_fresh {s : LoopThreads F T} (h : Fresh s) : Woken s := by
  obtain ⟨hp, hq, hc, ho, _⟩ := h
  exact ⟨by simp [hp, hc, LoopPhase.callsFunctors], by simp [ho], fun hne => absurd hq hne⟩

omit [DecidableEq T] in
theorem woken_control {s : LoopThreads F T} {c : LoopStep} {loop : EventLoop F} (h : Woken s)
    (ho : s.ownPushed = false) (ha : s.loop.Advances c loop) :
    Woken { s with loop := loop, executed := s.executed ++ s.loop.started c } := by
  obtain ⟨hcall, _, hnot⟩ := h
  cases ha with
  | enter hp | leave hp hq | again hp hq | endBatch ran hp | release ran hp
  | endBody ran cb todo hp | runNext ran cb todo hp =>
    refine ⟨by simp [hcall, hp, LoopPhase.callsFunctors], by simp [ho], fun hne => ?_⟩
    simpa [hp, Awaited] using hnot hne
  | pollReturn w hp hw | handleRead hp =>
    exact ⟨by simp [hcall, hp, LoopPhase.callsFunctors], by simp [ho], fun _ => Or.inl ⟨_, rfl⟩⟩
  | endDispatch hp =>
    exact ⟨by simp [LoopPhase.callsFunctors], by simp [ho], fun _ => Or.inr (Or.inl rfl)⟩
  | swap hp => exact ⟨by simp [hcall, hp, LoopPhase.callsFunctors], by simp [ho], by simp⟩

theorem own_step {P : LoopPhase F → Prop} {s s' : LoopThreads F T} {l : LoopLabel F T}
    (h : s.ownPushed = true → P s.loop.phase) (hpush : ∀ cb, l = .ownPush cb → P s.loop.phase)
    (hs : Steps s l s') : s'.ownPushed = true → P s'.loop.phase := by
  cases hs with
  | control c loop ho ha => simp [ho]
  | ownPush cb hr ho => exact fun _ => hpush cb rfl
  | ownWakeup ho => simp
  | push t cb hc | quit t hc | wakeup t hc | ownQuit hr ho => simpa using h

/-- What is awaited stays so until the loop drains its counter. -/
theorem awaited_step {s s' : LoopThreads F T} {l : LoopLabel F T} (h : Awaited s)
    (hs : Steps s l s') (hdrain : l ≠ .control .handleRead) : Awaited s' := by
  cases hs with
  | push t cb hc => exact Or.inr ⟨t, by simp⟩
  | wakeup t hc => exact Or.inl (by simp)
  | quit t hc =>
    rcases h with hfd | ⟨u, hu⟩
    · exact Or.inl hfd
    · have hut : u ≠ t := by
        rintro rfl
        rw [hc] at hu
        cases hu
      exact Or.inr ⟨u, by simpa [Function.update_of_ne hut] using hu⟩
  | ownWakeup ho =>
    rcases h with hfd | hu
    · left
      unfold EventLoop.wakeupAfterPush
      split_ifs
      · simp
      · exact hfd
    · exact Or.inr hu
  | ownPush cb hr ho | ownQuit hr ho => exact h
  | control c loop ho ha =>
    cases ha with
    | handleRead hp => exact absurd rfl hdrain
    | _ => exact h

theorem woken_step {s s' : LoopThreads F T} {l : LoopLabel F T} (h : Woken s)
    (hgood : QueuesAwaited s l) (hs : Steps s l s') : Woken s' := by
  have hcall := h.calling
  have hsteps := hs
  have hown : s'.ownPushed = true → s'.loop.phase.runsCode = true := by
    apply own_step (P := fun p => p.runsCode = true) h.own _ hs
    rintro cb rfl
    cases hs with
    | ownPush _ hr ho => exact hr
  cases hs with
  | control c loop ho ha => exact woken_control h ho ha
  | push t cb hc =>
    exact ⟨hcall, hown, fun _ => Or.inr (Or.inr (Or.inl (Or.inr ⟨t, by simp⟩)))⟩
  | wakeup t hc => exact ⟨hcall, hown, fun _ => Or.inr (Or.inr (Or.inl (Or.inl (by simp))))⟩
  | ownPush cb hr ho => exact ⟨hcall, hown, fun _ => Or.inr (Or.inr (Or.inr rfl))⟩
  | quit t hc =>
    refine ⟨hcall, hown, fun hne => ?_⟩
    rcases h.noticed hne with hd | hsw | hw | ho
    · exact Or.inl hd
    · exact Or.inr (Or.inl hsw)
    · exact Or.inr (Or.inr (Or.inl (awaited_step hw hsteps (by simp))))
    · exact Or.inr (Or.inr (Or.inr ho))
  | ownQuit hr ho => exact ⟨hcall, hown, h.noticed⟩
  | ownWakeup ho =>
    -- in a handler the swap is still to come; in a functor body the flag is set
    refine ⟨by simpa using hcall, hown, fun _ => ?_⟩
    rcases hgood with hin | hw
    · cases hp : s.loop.phase with
      | dispatch w => exact Or.inl ⟨w, by simp [hp]⟩
      | body ran cb todo =>
        have hflag : s.loop.callingPendingFunctors_ = true := by
          rw [hcall, hp]
          rfl
        exact Or.inr (Or.inr (Or.inl (Or.inl (by simp [EventLoop.wakeupAfterPush, hflag]))))
      | _ => simp [hp, LoopPhase.inHandlerOrFunctor] at hin
    · exact Or.inr (Or.inr (Or.inl (awaited_step hw hsteps (by simp))))

theorem woken_of_reachable {s : LoopThreads F T} (h : (system F T).Reachable QueuesAwaited s) :
    Woken s := by
  refine h.invariant (fun _ => woken_of_fresh) ?_
  intro s l s' hw hgood hs
  exact woken_step hw hgood (steps_of_step hs)

omit [DecidableEq T] in
theorem Woken.awaited {s : LoopThreads F T} (h : Woken s) (hpoll : s.loop.phase = .poll)
    (hpending : s.loop.pendingFunctors_ ≠ []) : Awaited s := by
  rcases h.noticed hpending with ⟨w, hd⟩ | hsw | hw | ho
  · rw [hpoll] at hd
    cases hd
  · rw [hpoll] at hsw
    cases hsw
  · exact hw
  · have hr := h.own ho
    rw [hpoll] at hr
    cases hr

/-- Where only handlers and functor bodies queue functors on the loop's own
thread, `queueInLoop` ends in one of them. -/
theorem queuesAwaited_of_handlersAndFunctors {s : LoopThreads F T}
    (h : (system F T).Reachable HandlersAndFunctors s) :
    (system F T).Reachable QueuesAwaited s := by
  refine h.mono_of
    (J := fun s => s.ownPushed = true → s.loop.phase.inHandlerOrFunctor = true) ?_ ?_
  · intro s h
    refine h.invariant (I := fun s => s.ownPushed = true →
      s.loop.phase.inHandlerOrFunctor = true) ?_ ?_
    · intro s hf ho
      rw [hf.2.2.2.1] at ho
      cases ho
    · intro s l s' hi hgood hs
      apply own_step (P := fun p => p.inHandlerOrFunctor = true) hi _ (steps_of_step hs)
      rintro cb rfl
      exact hgood
  · intro s l s' hown hgood hs
    cases steps_of_step hs with
    | ownWakeup ho => exact Or.inl (hown ho)
    | _ => trivial

/-- Whenever the loop thread is about to call or blocked in `poll` with a
functor queued, the counter is positive or a thread is between its push and its
wakeup. -/
theorem no_lost_wakeup {s : LoopThreads F T}
    (h : (system F T).Reachable HandlersAndFunctors s) (hpoll : s.loop.phase = .poll)
    (hpending : s.loop.pendingFunctors_ ≠ []) :
    s.loop.wakeupFd_ ≠ 0 ∨ ∃ t, s.caller t = .pushed :=
  (woken_of_reachable (queuesAwaited_of_handlersAndFunctors h)).awaited hpoll hpending

instance (s : LoopThreads F T) (l : LoopLabel F T) : Decidable (HandlersAndFunctors s l) := by
  cases l with
  | control c =>
    cases c <;> unfold HandlersAndFunctors <;> infer_instance
  | _ => unfold HandlersAndFunctors; infer_instance

theorem no_lost_wakeup_requeueing :
    ∃ s : LoopThreads ℕ ℕ, (s.loop.phase, s.loop.pendingFunctors_) = (.poll, [2]) ∧
      (s.loop.wakeupFd_ ≠ 0 ∨ ∃ t, s.caller t = .pushed) := by
  have hrun : (TransitionSystem.replay (TransitionSystem.guarded HandlersAndFunctors step)
      create requeueing).map (fun s => (s.loop.phase, s.loop.pendingFunctors_))
      = some (.poll, [2]) := by decide
  obtain ⟨s, hs, hobs⟩ := TransitionSystem.exists_reachable_of_replay replay_guarded
    (.init fresh_create) _ hrun
  obtain ⟨hphase, hpending⟩ := Prod.mk.inj hobs
  refine ⟨s, hobs, no_lost_wakeup hs hphase ?_⟩
  rw [hpending]
  exact List.cons_ne_nil _ _

/-! ## Functors queued on the loop's own thread -/

/-- In every run in which `queueInLoop` on the loop's own thread ends in a
handler, in the body of a functor, or where a wakeup is on its way anyway: a
queue that is not empty is noticed whenever the loop thread is about to call or
blocked in `poll`. -/
theorem own_functors_noticed {s : LoopThreads F T}
    (h : (system F T).Reachable QueuesAwaited s) (hpoll : s.loop.phase = .poll)
    (hpending : s.loop.pendingFunctors_ ≠ []) :
    s.loop.wakeupFd_ ≠ 0 ∨ ∃ t, s.caller t = .pushed :=
  (woken_of_reachable h).awaited hpoll hpending

instance [Fintype T] (s : LoopThreads F T) : Decidable s.Awaited :=
  inferInstanceAs (Decidable (_ ∨ ∃ t, s.caller t = .pushed))

instance [Fintype T] (s : LoopThreads F T) (l : LoopLabel F T) :
    Decidable (QueuesAwaited s l) := by
  cases l <;> unfold QueuesAwaited <;> infer_instance

/-- Another thread has pushed functor `1` and not yet made its wakeup when
functor `2` is queued on the loop's own thread, before `loop()`. -/
theorem own_functors_noticed_before_loop :
    ∃ s : LoopThreads ℕ Bool, (s.loop.phase, s.loop.pendingFunctors_) = (.poll, [1, 2]) ∧
      (s.loop.wakeupFd_ ≠ 0 ∨ ∃ t, s.caller t = .pushed) := by
  have hrun : (TransitionSystem.replay (TransitionSystem.guarded QueuesAwaited step) create
      [.push true 1, .ownPush 2, .ownWakeup, .wakeup true, .control .enter, .control .test]).map
        (fun s => (s.loop.phase, s.loop.pendingFunctors_)) = some (.poll, [1, 2]) := by decide
  obtain ⟨s, hs, hobs⟩ := TransitionSystem.exists_reachable_of_replay replay_guarded
    (.init fresh_create) _ hrun
  obtain ⟨hphase, hpending⟩ := Prod.mk.inj hobs
  refine ⟨s, hobs, own_functors_noticed hs hphase ?_⟩
  rw [hpending]
  exact List.cons_ne_nil _ _

/-- The thread of the loop queues a functor before `loop()`, or from the
destructor of a functor that has been run: the loop polls with it in the queue,
no counter and no other thread. -/
theorem own_functor_unnoticed :
    (∃ s : LoopThreads ℕ Bool, (system ℕ Bool).Reachable TransitionSystem.AnyStep s ∧
      s.loop.phase = .poll ∧ s.loop.pendingFunctors_ = [1] ∧ ¬ s.Awaited) ∧
    ∃ s : LoopThreads ℕ Bool, (system ℕ Bool).Reachable TransitionSystem.AnyStep s ∧
      s.loop.phase = .poll ∧ s.executed = [1] ∧ s.loop.pendingFunctors_ = [2] ∧
        ¬ s.Awaited := by
  constructor
  · have hrun : (TransitionSystem.replay
        (TransitionSystem.guarded TransitionSystem.AnyStep step) create
        [.ownPush 1, .ownWakeup, .control .enter, .control .test]).map
          (fun s : LoopThreads ℕ Bool =>
            (s.loop.phase, s.loop.pendingFunctors_, decide s.Awaited))
        = some (.poll, [1], false) := by decide
    obtain ⟨s, hs, hobs⟩ := TransitionSystem.exists_reachable_of_replay replay_guarded
      (.init fresh_create) _ hrun
    simp only [Prod.mk.injEq, decide_eq_false_iff_not] at hobs
    exact ⟨s, hs, hobs⟩
  · have hrun : (TransitionSystem.replay
        (TransitionSystem.guarded TransitionSystem.AnyStep step) create
        [.control .enter, .control .test, .push true 1, .wakeup true,
          .control (.pollReturn true), .control .handleRead, .control .endDispatch,
          .control .swap, .control .runNext, .control .endBody, .control .endBatch,
          .ownPush 2, .ownWakeup, .control .release, .control .test]).map
          (fun s : LoopThreads ℕ Bool =>
            (s.loop.phase, s.executed, s.loop.pendingFunctors_, decide s.Awaited))
        = some (.poll, [1], [2], false) := by decide
    obtain ⟨s, hs, hobs⟩ := TransitionSystem.exists_reachable_of_replay replay_guarded
      (.init fresh_create) _ hrun
    simp only [Prod.mk.injEq, decide_eq_false_iff_not] at hobs
    exact ⟨s, hs, hobs⟩

end LoopThreads
end MuduoCore
