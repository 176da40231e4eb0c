import MuduoCore.Loop.Reactor

/-!
# The iterations of a loop

What the parts of a loop promise each other in one iteration: the loop's
thread always has a next step, a functor in the queue ends the poll through the
wakeup descriptor, and it has been run before the loop polls again.
-/

namespace MuduoCore

/-! ## The loop's thread goes on -/

namespace PollingLoop

variable {P : Type*} {fd : P → ℤ} {s : PollingLoop P} {revents : ℤ → Events}

end PollingLoop

namespace Reactor

variable {F T P : Type*} [DecidableEq T] [DecidableEq P]
variable {fd : P → ℤ} {wakeupChannel : P} {s s' : Reactor F T P}

/-- Another thread queues functor `1` while the loop is about to poll. -/
def queueing : List (ReactorLabel ℕ Bool ℕ) :=
  [.thread (.control .enter), .thread (.control .test), .thread (.push true 1),
    .thread (.wakeup true)]

/-- From a poll on, the functors pushed before it are taken at the swap, and
have been run when the loop is back at its test. -/
def Taken (before : List F) (s : LoopThreads F T) : Prop :=
  before <+: s.pushed ∧
    match s.loop.phase with
    | .poll | .dispatch _ | .swap => True
    | .outside => False
    | .test | .batch _ _ | .body _ _ _ | .release _ =>
      before <+: s.executed ++ s.loop.phase.todo

theorem taken_step {before : List F} {t t' : LoopThreads F T} {l : LoopLabel F T}
    (hfifo : t.Fifo) (h : Taken before t) (hl : l ≠ .control .test)
    (hs : LoopThreads.Steps t l t') : Taken before t' := by
  obtain ⟨hpushed, hphase⟩ := h
  cases hs with
  | push u cb hc | ownPush cb hr ho =>
    exact ⟨hpushed.trans (List.prefix_append _ _), hphase⟩
  | quit u hc | wakeup u hc | ownWakeup ho | ownQuit hr ho =>
    exact ⟨hpushed, by simpa using hphase⟩
  | control c loop ho ha =>
    refine ⟨hpushed, ?_⟩
    cases ha with
    | enter hp => simp [hp] at hphase
    | leave hp hq => exact absurd rfl hl
    | again hp hq => exact absurd rfl hl
    | pollReturn b hp hb => trivial
    | handleRead hp => trivial
    | endDispatch hp => trivial
    | swap hp =>
      have hall : t.executed ++ t.loop.pendingFunctors_ = t.pushed := by
        simpa [LoopThreads.Fifo, hp, LoopPhase.todo] using hfifo
      simpa [EventLoop.started, LoopPhase.todo, hall] using hpushed
    | runNext ran cb todo hp =>
      simpa [hp, EventLoop.started, LoopPhase.todo] using hphase
    | endBody ran cb todo hp | endBatch ran hp | release ran hp =>
      simpa [hp, EventLoop.started, LoopPhase.todo] using hphase

theorem threads_step {l : ReactorLabel F T P} (hs : Steps fd wakeupChannel s l s') :
    s'.threads = s.threads ∨ ∃ k, LoopThreads.Steps s.threads k s'.threads ∧
      (k = .control .test → l = .thread (.control .test)) := by
  cases hs with
  | thread k threads hl hs =>
    exact Or.inr ⟨k, LoopThreads.steps_of_step hs, by rintro rfl; rfl⟩
  | setCallback ptr cb polling hptr hcode hs | update ptr c polling hptr hcode hs
  | becomesReady f polling hf hs | becomesIdle f polling hf hs => exact Or.inl rfl
  | poll revents polling threads hrevents hpolled hs =>
    exact Or.inr ⟨_, LoopThreads.steps_of_step hs, fun heq => by cases heq⟩
  | pollError polling threads hpolled hs =>
    exact Or.inr ⟨_, LoopThreads.steps_of_step hs, fun heq => by cases heq⟩
  | handleEvent threads polling hvisit hs =>
    rcases visit_cases hvisit with ⟨_, _, hthreads⟩ | ⟨_, rfl⟩
    · exact Or.inr ⟨_, LoopThreads.steps_of_step hthreads, fun heq => by cases heq⟩
    · exact Or.inl rfl

theorem taken_replay {before : List F} {ls : List (ReactorLabel F T P)}
    (hfifo : s.threads.Fifo) (h : Taken before s.threads)
    (hls : .thread (.control .test) ∉ ls)
    (hrun : TransitionSystem.replay (step fd wakeupChannel) s ls = some s') :
    Taken before s'.threads := by
  have hboth : s'.threads.Fifo ∧ Taken before s'.threads := by
    refine TransitionSystem.replay_induction
      (I := fun s => s.threads.Fifo ∧ Taken before s.threads) ?_ ⟨hfifo, h⟩ hrun
    rintro t l hl t' ⟨hfifo, htaken⟩ hstep
    rcases threads_step (steps_of_step hstep) with heq | ⟨k, hk, htest⟩
    · rw [heq]
      exact ⟨hfifo, htaken⟩
    · refine ⟨LoopThreads.fifo_step hfifo hk, taken_step hfifo htaken ?_ hk⟩
      intro hk
      exact hls (htest hk ▸ hl)
  exact hboth.2

/-- In every run in which `queueInLoop` on the loop's own thread ends where it
is noticed: when the loop is about to poll with functors in its queue, and no
thread is between its push and its wakeup, the kernel has the wakeup descriptor
among the ready ones, so no poll that succeeds comes back without a channel;
and when the loop is next at its test of `quit_`, everything pushed before the
poll has been run. -/
theorem queued_functors_run (fd : P → ℤ) (hfd : Function.Injective fd) (wakeupChannel : P)
    (s : Reactor F T P)
    (h : (system fd wakeupChannel).Reachable (onThreads LoopThreads.QueuesAwaited) s)
    (hphase : s.threads.loop.phase = .poll) (hpending : s.threads.loop.pendingFunctors_ ≠ [])
    (hidle : ∀ t, s.threads.caller t ≠ .pushed) :
    fd wakeupChannel ∈ s.polling.ready ∧
      (∀ revents s', s.step fd wakeupChannel (.poll revents) = some s' →
        s'.polling.activeChannels_ ≠ []) ∧
      ∀ ls s', TransitionSystem.replay (step fd wakeupChannel) s ls = some s' →
        .thread (.control .test) ∉ ls → s'.threads.loop.phase = .test →
        s.threads.pushed <+: s'.threads.executed := by
  obtain ⟨hinv, htied⟩ := tied_of_reachable hfd h
  have hthreads : (LoopThreads.system F T).Reachable LoopThreads.QueuesAwaited s.threads :=
    threads_reachable (fun _ _ => trivial) (fun _ => trivial) h
  have hcounter : s.threads.loop.wakeupFd_ ≠ 0 := by
    rcases (LoopThreads.woken_of_reachable hthreads).awaited hphase hpending with hne | ⟨t, ht⟩
    · exact hne
    · exact absurd ht (hidle t)
  have hready := htied.ready.mpr hcounter
  refine ⟨hready, ?_, ?_⟩
  · intro revents s' hstep
    cases steps_of_step hstep with
    | poll revents polling threads hrevents hpolled hs =>
      simp only [PollingLoop.next] at hpolled
      split_ifs at hpolled
      obtain ⟨reported, hp⟩ := PollingLoop.polled_of_poll hpolled
      intro hnone
      have hmap := (hinv.of_polled hp).1
      have hsize := hinv.size_pos
      rw [hnone, List.map_nil, eq_comm, List.take_eq_nil_iff] at hmap
      rcases hmap with hzero | hempty
      · omega
      · rw [hempty] at hready
        cases hready
  · intro ls s' hrun hls htest
    have hfifo : s.threads.Fifo := by
      refine hthreads.invariant (fun _ => LoopThreads.fifo_of_fresh) ?_
      intro t l t' hfifo _ hs
      exact LoopThreads.fifo_step hfifo (LoopThreads.steps_of_step hs)
    have htaken := taken_replay hfifo ⟨List.prefix_rfl, by simp [hphase]⟩ hls hrun
    have hran := htaken.2
    rw [htest] at hran
    simpa [htest, LoopPhase.todo] using hran

instance {Good : LoopThreads F T → LoopLabel F T → Prop} [∀ t l, Decidable (Good t l)]
    (s : Reactor F T P) (l : ReactorLabel F T P) : Decidable (onThreads Good s l) := by
  cases l <;> unfold onThreads <;> infer_instance

def iteration : List (ReactorLabel ℕ Bool ℕ) :=
  [.poll fun _ => EPOLLIN, .handleEvent, .thread (.control .endDispatch),
    .thread (.control .swap), .thread (.control .runNext), .thread (.control .endBody),
    .thread (.control .endBatch), .thread (.control .release)]

theorem queued_functors_run_once : ∃ s s' : Reactor ℕ Bool ℕ,
    s.threads.loop.pendingFunctors_ = [1] ∧ (3 : ℤ) ∈ s.polling.ready ∧
      TransitionSystem.replay (step (fun n : ℕ => (n : ℤ)) 3) s iteration = some s' ∧
      [1] <+: s'.threads.executed := by
  obtain ⟨p, hp⟩ : ∃ p, TransitionSystem.replay PollingLoop.next
      (PollingLoop.create fun n : ℕ => (n : ℤ)) (construction 3) = some p := ⟨_, rfl⟩
  obtain ⟨s, hs, hphase, hpending, hpushed, hidle, s', hrun, htest⟩ :
      ∃ s : Reactor ℕ Bool ℕ, TransitionSystem.replay (TransitionSystem.guarded
        (onThreads LoopThreads.QueuesAwaited) (step (fun n : ℕ => (n : ℤ)) 3))
        ⟨.create, p⟩ queueing = some s ∧ s.threads.loop.phase = .poll ∧
      s.threads.loop.pendingFunctors_ = [1] ∧ s.threads.pushed = [1] ∧
      (∀ t, s.threads.caller t ≠ .pushed) ∧
      ∃ s', TransitionSystem.replay (step (fun n : ℕ => (n : ℤ)) 3) s iteration = some s' ∧
        s'.threads.loop.phase = .test := by
    cases hp
    exact ⟨_, rfl, rfl, rfl, rfl, by decide, _, rfl, rfl⟩
  have hreach : (system (fun n : ℕ => (n : ℤ)) 3).Reachable
      (onThreads LoopThreads.QueuesAwaited) s :=
    TransitionSystem.reachable_of_replay
      (fun _ _ _ h => TransitionSystem.guarded_eq_some.mp h) (.init ⟨rfl, hp⟩) hs
  obtain ⟨hready, _, hall⟩ := queued_functors_run (fun n : ℕ => (n : ℤ)) Int.ofNat_injective 3 s
    hreach hphase (by simp [hpending]) hidle
  have hexecuted := hall iteration s' hrun (by simp [iteration]) htest
  rw [hpushed] at hexecuted
  exact ⟨s, s', hpending, hready, hrun, hexecuted⟩

end Reactor
end MuduoCore
