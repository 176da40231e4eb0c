import MuduoCore.Loop.LoopThreads

/-!
# What is run before `loop()` returns

The loop tests `quit_` only after a batch, and a functor is run only once it
has been swapped out. So it depends on the phase in which `quit()` makes its
store whether the queue is still swapped out before `loop()` returns.
-/

namespace MuduoCore

/-- The loop still swaps its queue before it comes to its next test of `quit_`. -/
def LoopPhase.beforeSwap {F : Type*} : LoopPhase F → Bool
  | poll | dispatch _ | swap => true
  | _ => false

def LoopLabel.isQuit {F T : Type*} : LoopLabel F T → Bool
  | quit _ | ownQuit => true
  | _ => false

namespace LoopThreads

variable {F T : Type*} [DecidableEq T] {s s' : LoopThreads F T} {l : LoopLabel F T}

/-- `quit()` has been called, and `fs` is run before `loop()` returns: the swap
is still to come, or the functors are in the vector or have been started. -/
structure Served (fs : List F) (s : LoopThreads F T) : Prop where
  quit : s.loop.quit_ = true
  fifo : Fifo s
  pushed : fs <+: s.pushed
  served : s.loop.phase.beforeSwap = true ∨ fs <+: s.executed ++ s.loop.phase.todo

/-- `quit()` has been called, and nothing is swapped out any more: the loop
executes `fs` and returns. -/
structure Leaving (fs : List F) (s : LoopThreads F T) : Prop where
  quit : s.loop.quit_ = true
  phase : s.loop.phase.beforeSwap = false
  last : s.executed ++ s.loop.phase.todo = fs

/-- Only the entry into `loop()` takes a call of `quit()` back. -/
theorem quit_kept (h : s.loop.quit_ = true) (hl : l ≠ .control .enter) (hs : Steps s l s') :
    s'.loop.quit_ = true := by
  cases hs with
  | quit t hc | ownQuit hr ho => rfl
  | push t cb hc | ownPush cb hr ho | wakeup t hc => exact h
  | ownWakeup ho =>
    unfold EventLoop.wakeupAfterPush
    split_ifs <;> exact h
  | control c loop ho ha =>
    cases ha with
    | enter hp => exact absurd rfl hl
    | _ => exact h

theorem quit_of_isQuit (hl : l.isQuit = true) (hs : Steps s l s') : s'.loop.quit_ = true := by
  cases hs with
  | quit t hc | ownQuit hr ho => rfl
  | _ => cases hl

theorem phase_of_step (hl : ∀ c, l ≠ .control c) (hs : Steps s l s') :
    s'.loop.phase = s.loop.phase := by
  cases hs with
  | control c loop ho ha => exact absurd rfl (hl c)
  | ownWakeup ho => exact s.loop.wakeupAfterPush_phase true
  | _ => rfl

theorem served_step {fs : List F} (h : Served fs s) (hl : l ≠ .control .enter)
    (hs : Steps s l s') : Served fs s' := by
  have hquit := quit_kept h.quit hl hs
  have hfifo := fifo_step h.fifo hs
  cases hs with
  | push t cb hc | ownPush cb hr ho =>
    exact ⟨hquit, hfifo, h.pushed.trans (List.prefix_append _ _), h.served⟩
  | quit t hc | ownQuit hr ho | wakeup t hc => exact ⟨hquit, hfifo, h.pushed, h.served⟩
  | ownWakeup ho => exact ⟨hquit, hfifo, h.pushed, by simpa using h.served⟩
  | control c loop ho ha =>
    refine ⟨hquit, hfifo, by cases ha <;> exact h.pushed, ?_⟩
    cases ha with
    | enter hp => exact absurd rfl hl
    | again hp hq =>
      rw [h.quit] at hq
      cases hq
    | pollReturn w hp hw | handleRead hp | endDispatch hp => exact Or.inl rfl
    | swap hp =>
      have hall : s.executed ++ s.loop.pendingFunctors_ = s.pushed := by
        simpa [Fifo, hp, LoopPhase.todo] using h.fifo
      right
      simpa [EventLoop.started, LoopPhase.todo, hall] using h.pushed
    | leave hp hq | runNext ran cb todo hp | endBody ran cb todo hp | endBatch ran hp
    | release ran hp =>
      right
      simpa [hp, LoopPhase.beforeSwap, LoopPhase.todo, EventLoop.started] using h.served

theorem leaving_step {fs : List F} (h : Leaving fs s) (hl : l ≠ .control .enter)
    (hs : Steps s l s') : Leaving fs s' := by
  have hquit := quit_kept h.quit hl hs
  have hlast := h.last
  have hphase := h.phase
  cases hs with
  | push t cb hc | ownPush cb hr ho | wakeup t hc | quit t hc | ownQuit hr ho =>
    exact ⟨hquit, hphase, hlast⟩
  | ownWakeup ho => exact ⟨hquit, by simpa using hphase, by simpa using hlast⟩
  | control c loop ho ha =>
    cases ha with
    | enter hp => exact absurd rfl hl
    | again hp hq =>
      rw [h.quit] at hq
      cases hq
    | pollReturn w hp hw | handleRead hp | endDispatch hp | swap hp =>
      rw [hp] at hphase
      cases hphase
    | leave hp hq | runNext ran cb todo hp | endBody ran cb todo hp | endBatch ran hp
    | release ran hp =>
      refine ⟨hquit, rfl, ?_⟩
      simpa [hp, LoopPhase.todo, EventLoop.started] using hlast

theorem quit_of_step (hl : l.isQuit = true) (hs : s.step l = some s') :
    s'.loop = s.loop.setQuit ∧ s'.executed = s.executed ∧ s'.pushed = s.pushed := by
  cases steps_of_step hs with
  | quit t hc | ownQuit hr ho => exact ⟨rfl, rfl, rfl⟩
  | _ => cases hl

theorem fifo_of_reachable (h : (system F T).Reachable TransitionSystem.AnyStep s) : Fifo s := by
  refine h.invariant (fun _ => fifo_of_fresh) ?_
  intro s l s' hf _ hs
  exact fifo_step hf (steps_of_step hs)

/-- A call of `quit()`: once `loop()` has returned, every
functor pushed before it has been run if and only if, at its store, the queue
was empty or the loop still had to swap it. -/
theorem run_before_return_iff {s₁ s₂ : LoopThreads F T} {ls : List (LoopLabel F T)}
    (h : (system F T).Reachable TransitionSystem.AnyStep s)
    (hl : l.isQuit = true) (hquit : s.step l = some s₁)
    (hrun : TransitionSystem.replay step s₁ ls = some s₂) (henter : .control .enter ∉ ls)
    (hreturned : s₂.loop.phase = .outside) :
    s.pushed <+: s₂.executed ↔
      s.loop.pendingFunctors_ = [] ∨ s.loop.phase.beforeSwap = true := by
  have hfifo := fifo_of_reachable h
  obtain ⟨hloop, hexecuted, hpushed⟩ := quit_of_step hl hquit
  have hphase : s₁.loop.phase = s.loop.phase := by rw [hloop, EventLoop.setQuit_phase]
  have hpending : s₁.loop.pendingFunctors_ = s.loop.pendingFunctors_ := by
    rw [hloop, EventLoop.setQuit_pending]
  have hquit₁ : s₁.loop.quit_ = true := by rw [hloop, EventLoop.setQuit]
  have hfifo₁ : Fifo s₁ := fifo_step hfifo (steps_of_step hquit)
  constructor
  · intro hserved
    by_contra hlate
    simp only [not_or, Bool.not_eq_true] at hlate
    have hleaving : Leaving (s.executed ++ s.loop.phase.todo) s₂ := by
      refine TransitionSystem.replay_induction ?_
        ⟨hquit₁, by rw [hphase]; exact hlate.2, by rw [hexecuted, hphase]⟩ hrun
      intro u k hk u' hu hstep
      exact leaving_step hu (by rintro rfl; exact henter hk) (steps_of_step hstep)
    have hall : s₂.executed = s.executed ++ s.loop.phase.todo := by
      simpa [hreturned, LoopPhase.todo] using hleaving.last
    have hlen := hserved.length_le
    rw [hall, ← hfifo] at hlen
    simp only [List.length_append] at hlen
    exact hlate.1 (List.length_eq_zero_iff.mp (by omega))
  · intro htime
    have hserved : Served s.pushed s₂ := by
      refine TransitionSystem.replay_induction ?_
        ⟨hquit₁, hfifo₁, by rw [hpushed], ?_⟩ hrun
      · intro u k hk u' hu hstep
        exact served_step hu (by rintro rfl; exact henter hk) (steps_of_step hstep)
      · rcases htime with hempty | hswap
        · right
          have hall : s.executed ++ s.loop.phase.todo = s.pushed := by
            simpa [Fifo, hempty] using hfifo
          rw [hexecuted, hphase, hall]
        · left
          rwa [hphase]
    rcases hserved.served with hswap | hall
    · rw [hreturned] at hswap
      cases hswap
    · simpa [hreturned, LoopPhase.todo] using hall

def returns (s : LoopThreads F T) (t : T) (ls : List (LoopLabel F T)) :
    Option (LoopThreads F T) :=
  (s.step (.quit t)).bind fun s₁ => TransitionSystem.replay step s₁ ls

/-- Functor `1` is queued while the loop is blocked in `poll`, and then `quit()`
is called. -/
theorem run_before_return_iff_polling :
    ∃ s s₂ : LoopThreads ℕ ℕ, (s.loop.phase, s.pushed) = (.poll, [1]) ∧
      s₂.loop.phase = .outside ∧ s.pushed <+: s₂.executed := by
  let ls : List (LoopLabel ℕ ℕ) := [.wakeup 1, .control (.pollReturn true), .control .handleRead,
    .control .endDispatch, .control .swap, .control .runNext, .control .endBody,
    .control .endBatch, .control .release, .control .test]
  have hrun : (TransitionSystem.replay (TransitionSystem.guarded TransitionSystem.AnyStep step)
      create [.control .enter, .control .test, .push 0 1, .wakeup 0]).map
        (fun s => (s.loop.phase, s.pushed, (returns s 1 ls).map fun s₂ => s₂.loop.phase))
      = some (.poll, [1], some .outside) := by decide
  obtain ⟨s, hs, hobs⟩ := TransitionSystem.exists_reachable_of_replay replay_guarded
    (.init fresh_create) _ hrun
  simp only [Prod.mk.injEq, Option.map_eq_some_iff, returns, Option.bind_eq_some_iff] at hobs
  obtain ⟨hphase, hpushed, s₂, ⟨s₁, hquit, hls⟩, hreturned⟩ := hobs
  refine ⟨s, s₂, by rw [hphase, hpushed], hreturned, ?_⟩
  refine (run_before_return_iff hs rfl hquit hls (by simp [ls]) hreturned).mpr (Or.inr ?_)
  rw [hphase]
  rfl

/-- Functor `2` is queued while the loop runs functor `1`, and then `quit()` is
called: the loop returns without having run it. -/
theorem returns_before_queued_functor :
    ∃ (s s₁ s₂ : LoopThreads ℕ ℕ) (ls : List (LoopLabel ℕ ℕ)),
      (system ℕ ℕ).Reachable TransitionSystem.AnyStep s ∧ s.loop.phase = .body [] 1 [] ∧
        s.pushed = [1, 2] ∧ s.step (.quit 1) = some s₁ ∧
        TransitionSystem.replay step s₁ ls = some s₂ ∧ .control .enter ∉ ls ∧
        s₂.loop.phase = .outside ∧ s₂.executed = [1] := by
  let ls : List (LoopLabel ℕ ℕ) := [.wakeup 1, .control .endBody, .control .endBatch,
    .control .release, .control .test]
  have hrun : (TransitionSystem.replay (TransitionSystem.guarded TransitionSystem.AnyStep step)
      create [.control .enter, .control .test, .push 0 1, .wakeup 0, .control (.pollReturn true),
        .control .handleRead, .control .endDispatch, .control .swap, .control .runNext,
        .push 0 2, .wakeup 0]).map
        (fun s => (s.loop.phase, s.pushed, (returns s 1 ls).map fun s₂ =>
          (s₂.loop.phase, s₂.executed)))
      = some (.body [] 1 [], [1, 2], some (.outside, [1])) := by decide
  obtain ⟨s, hs, hobs⟩ := TransitionSystem.exists_reachable_of_replay replay_guarded
    (.init fresh_create) _ hrun
  simp only [Prod.mk.injEq, Option.map_eq_some_iff, returns, Option.bind_eq_some_iff] at hobs
  obtain ⟨hphase, hpushed, s₂, ⟨s₁, hquit, hls⟩, hreturned⟩ := hobs
  exact ⟨s, s₁, s₂, ls, hs, hphase, hpushed, hquit, hls, by simp [ls], hreturned⟩

end LoopThreads
end MuduoCore
