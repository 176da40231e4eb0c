import Mathlib.Tactic

/-!
# One event loop

`EventLoop::loop` on its own thread, over an arbitrary type of functors. The
program counter is a `LoopPhase`; the local vector `functors` of
`doPendingFunctors` is part of the phase, because it exists only there. The
wakeup descriptor is a counter that `wakeup` increments and `handleRead`
resets. Taking the mutex is one step: `push` from any thread, `swap` from the
loop thread.
-/

namespace MuduoCore

inductive LoopPhase (F : Type*)
  /-- `loop()` has not been entered, or has returned -/
  | outside
  /-- at the test `while (!quit_)` -/
  | test
  /-- about to call or blocked in `poller_->poll` -/
  | poll
  /-- running the handlers of `activeChannels_`; the flag tells whether
  `wakeupChannel_` is among those still to be handled -/
  | dispatch (wakeup : Bool)
  /-- in `doPendingFunctors`, `callingPendingFunctors_` set, before the swap -/
  | swap
  /-- between two functors of the vector: those run, those to run -/
  | batch (ran todo : List F)
  /-- inside the body of a functor of the vector -/
  | body (ran : List F) (functor : F) (todo : List F)
  /-- `callingPendingFunctors_` cleared, the vector about to be destroyed -/
  | release (ran : List F)
  deriving DecidableEq, Repr

namespace LoopPhase

variable {F : Type*}

/-- The functors swapped out and not yet started. -/
def todo : LoopPhase F → List F
  | batch _ todo => todo
  | body _ _ todo => todo
  | _ => []

def functors : LoopPhase F → List F
  | batch ran todo => ran ++ todo
  | body ran functor todo => ran ++ functor :: todo
  | release ran => ran
  | _ => []

/-- Code of the user or of a handler, a functor or a destructor may run here. -/
def runsCode : LoopPhase F → Bool
  | outside | dispatch _ | body _ _ _ | release _ => true
  | _ => false

/-- The loop thread is inside an event handler or the body of a functor. -/
def inHandlerOrFunctor : LoopPhase F → Bool
  | dispatch _ | body _ _ _ => true
  | _ => false

/-- Between setting and clearing `callingPendingFunctors_`. -/
def callsFunctors : LoopPhase F → Bool
  | swap | batch _ _ | body _ _ _ => true
  | _ => false

end LoopPhase

structure EventLoop (F : Type*) where
  looping_ : Bool
  quit_ : Bool
  callingPendingFunctors_ : Bool
  pendingFunctors_ : List F
  wakeupFd_ : ℕ
  phase : LoopPhase F
  deriving DecidableEq, Repr

/-- The steps the loop thread takes through `loop()` and `doPendingFunctors()`. -/
inductive LoopStep
  | enter
  | test
  | pollReturn (wakeup : Bool)
  | handleRead
  | endDispatch
  | swap
  | runNext
  | endBody
  | endBatch
  | release
  deriving DecidableEq, Repr

namespace EventLoop

variable {F : Type*}

def create : EventLoop F := ⟨false, false, false, [], 0, .outside⟩

/-- The critical section of `queueInLoop`. -/
def push (l : EventLoop F) (cb : F) : EventLoop F :=
  { l with pendingFunctors_ := l.pendingFunctors_ ++ [cb] }

def wakeup (l : EventLoop F) : EventLoop F := { l with wakeupFd_ := l.wakeupFd_ + 1 }

def setQuit (l : EventLoop F) : EventLoop F := { l with quit_ := true }

/-- The end of `queueInLoop`, after its critical section. -/
def wakeupAfterPush (l : EventLoop F) (isInLoopThread : Bool) : EventLoop F :=
  if !isInLoopThread || l.callingPendingFunctors_ then l.wakeup else l

/-- One step of `loop()`. The poller reports `wakeupFd_` only while the counter
is positive, and every reported handler runs before `doPendingFunctors`. -/
def advance (l : EventLoop F) (s : LoopStep) : Option (EventLoop F) :=
  match s, l.phase with
  | .enter, .outside => some { l with looping_ := true, quit_ := false, phase := .test }
  | .test, .test =>
    if l.quit_ then some { l with looping_ := false, phase := .outside }
    else some { l with phase := .poll }
  | .pollReturn wakeup, .poll =>
    if wakeup && l.wakeupFd_ == 0 then none else some { l with phase := .dispatch wakeup }
  | .handleRead, .dispatch true => some { l with wakeupFd_ := 0, phase := .dispatch false }
  | .endDispatch, .dispatch false =>
    some { l with callingPendingFunctors_ := true, phase := .swap }
  | .swap, .swap =>
    some { l with pendingFunctors_ := [], phase := .batch [] l.pendingFunctors_ }
  | .runNext, .batch ran (cb :: todo) => some { l with phase := .body ran cb todo }
  | .endBody, .body ran cb todo => some { l with phase := .batch (ran ++ [cb]) todo }
  | .endBatch, .batch ran [] =>
    some { l with callingPendingFunctors_ := false, phase := .release ran }
  | .release, .release _ => some { l with phase := .test }
  | _, _ => none

/-- The functors not yet started: the rest of the vector, then the queue. -/
def queued (l : EventLoop F) : List F := l.phase.todo ++ l.pendingFunctors_

def started (l : EventLoop F) : LoopStep → List F
  | .runNext => l.phase.todo.take 1
  | _ => []

/-- Every functor object that exists: the vector and the queue. -/
def held (l : EventLoop F) : List F := l.phase.functors ++ l.pendingFunctors_

@[simp] theorem push_phase (l : EventLoop F) (cb : F) : (l.push cb).phase = l.phase := rfl
@[simp] theorem push_pending (l : EventLoop F) (cb : F) :
    (l.push cb).pendingFunctors_ = l.pendingFunctors_ ++ [cb] := rfl
@[simp] theorem push_calling (l : EventLoop F) (cb : F) :
    (l.push cb).callingPendingFunctors_ = l.callingPendingFunctors_ := rfl
@[simp] theorem push_wakeupFd (l : EventLoop F) (cb : F) :
    (l.push cb).wakeupFd_ = l.wakeupFd_ := rfl
@[simp] theorem wakeup_phase (l : EventLoop F) : l.wakeup.phase = l.phase := rfl
@[simp] theorem wakeup_pending (l : EventLoop F) :
    l.wakeup.pendingFunctors_ = l.pendingFunctors_ := rfl
@[simp] theorem wakeup_calling (l : EventLoop F) :
    l.wakeup.callingPendingFunctors_ = l.callingPendingFunctors_ := rfl
@[simp] theorem wakeup_wakeupFd (l : EventLoop F) : l.wakeup.wakeupFd_ = l.wakeupFd_ + 1 := rfl
@[simp] theorem setQuit_phase (l : EventLoop F) : l.setQuit.phase = l.phase := rfl
@[simp] theorem setQuit_pending (l : EventLoop F) :
    l.setQuit.pendingFunctors_ = l.pendingFunctors_ := rfl
@[simp] theorem setQuit_calling (l : EventLoop F) :
    l.setQuit.callingPendingFunctors_ = l.callingPendingFunctors_ := rfl
@[simp] theorem setQuit_wakeupFd (l : EventLoop F) : l.setQuit.wakeupFd_ = l.wakeupFd_ := rfl

@[simp] theorem wakeupAfterPush_phase (l : EventLoop F) (b : Bool) :
    (l.wakeupAfterPush b).phase = l.phase := by
  unfold wakeupAfterPush
  split_ifs <;> rfl

@[simp] theorem wakeupAfterPush_pending (l : EventLoop F) (b : Bool) :
    (l.wakeupAfterPush b).pendingFunctors_ = l.pendingFunctors_ := by
  unfold wakeupAfterPush
  split_ifs <;> rfl

@[simp] theorem wakeupAfterPush_calling (l : EventLoop F) (b : Bool) :
    (l.wakeupAfterPush b).callingPendingFunctors_ = l.callingPendingFunctors_ := by
  unfold wakeupAfterPush
  split_ifs <;> rfl

theorem queued_push (l : EventLoop F) (cb : F) : (l.push cb).queued = l.queued ++ [cb] := by
  simp [queued]

theorem held_push (l : EventLoop F) (cb : F) : (l.push cb).held = l.held ++ [cb] := by
  simp [held]

theorem mem_held_of_mem_queued {l : EventLoop F} {f : F} (h : f ∈ l.queued) : f ∈ l.held := by
  simp only [queued, held, List.mem_append] at h ⊢
  rcases h with h | h
  · left
    cases hp : l.phase <;> simp_all [LoopPhase.todo, LoopPhase.functors]
  · exact Or.inr h

/-- What a step of the loop thread can do, with everything it requires. -/
inductive Advances (l : EventLoop F) : LoopStep → EventLoop F → Prop
  | enter (hp : l.phase = .outside) :
      Advances l .enter { l with looping_ := true, quit_ := false, phase := .test }
  | leave (hp : l.phase = .test) (hq : l.quit_ = true) :
      Advances l .test { l with looping_ := false, phase := .outside }
  | again (hp : l.phase = .test) (hq : l.quit_ = false) :
      Advances l .test { l with phase := .poll }
  | pollReturn (w : Bool) (hp : l.phase = .poll) (hw : w = true → l.wakeupFd_ ≠ 0) :
      Advances l (.pollReturn w) { l with phase := .dispatch w }
  | handleRead (hp : l.phase = .dispatch true) :
      Advances l .handleRead { l with wakeupFd_ := 0, phase := .dispatch false }
  | endDispatch (hp : l.phase = .dispatch false) :
      Advances l .endDispatch { l with callingPendingFunctors_ := true, phase := .swap }
  | swap (hp : l.phase = .swap) :
      Advances l .swap { l with pendingFunctors_ := [], phase := .batch [] l.pendingFunctors_ }
  | runNext (ran : List F) (cb : F) (todo : List F) (hp : l.phase = .batch ran (cb :: todo)) :
      Advances l .runNext { l with phase := .body ran cb todo }
  | endBody (ran : List F) (cb : F) (todo : List F) (hp : l.phase = .body ran cb todo) :
      Advances l .endBody { l with phase := .batch (ran ++ [cb]) todo }
  | endBatch (ran : List F) (hp : l.phase = .batch ran []) :
      Advances l .endBatch { l with callingPendingFunctors_ := false, phase := .release ran }
  | release (ran : List F) (hp : l.phase = .release ran) :
      Advances l .release { l with phase := .test }

theorem advances_of_advance {l l' : EventLoop F} {s : LoopStep} (h : l.advance s = some l') :
    Advances l s l' := by
  unfold advance at h
  split at h
  · rename_i hp
    cases h
    exact .enter hp
  · rename_i hp
    split_ifs at h with hq
    · cases h
      exact .leave hp hq
    · cases h
      exact .again hp (by simpa using hq)
  · rename_i w hp
    split_ifs at h with hw
    cases h
    exact .pollReturn w hp (by simpa using hw)
  · rename_i hp
    cases h
    exact .handleRead hp
  · rename_i hp
    cases h
    exact .endDispatch hp
  · rename_i hp
    cases h
    exact .swap hp
  · rename_i ran cb todo hp
    cases h
    exact .runNext ran cb todo hp
  · rename_i ran cb todo hp
    cases h
    exact .endBody ran cb todo hp
  · rename_i ran hp
    cases h
    exact .endBatch ran hp
  · rename_i ran hp
    cases h
    exact .release ran hp
  · cases h

/-- A step of the loop takes the functor it starts from the front of what is
queued, and changes nothing else there. -/
theorem Advances.started_append_queued {l l' : EventLoop F} {s : LoopStep}
    (h : Advances l s l') : l.started s ++ l'.queued = l.queued := by
  cases h with
  | runNext ran cb todo hp => simp [started, hp, queued, LoopPhase.todo]
  | _ => simp_all [started, queued, LoopPhase.todo]

theorem Advances.quit {l l' : EventLoop F} {s : LoopStep} (h : Advances l s l')
    (hquit : l.quit_ = false) : l'.quit_ = false := by
  cases h with
  | enter hp => rfl
  | _ => exact hquit

/-- Only `swap` moves functors out of the queue, into a vector that was empty;
later the vector is kept whole until it is destroyed. -/
theorem Advances.functors {l l' : EventLoop F} {s : LoopStep} (h : Advances l s l') :
    (s = .swap ∧ l'.phase.functors = l.pendingFunctors_ ∧ l'.pendingFunctors_ = []) ∨
      (s ≠ .swap ∧ l'.pendingFunctors_ = l.pendingFunctors_ ∧
        (l'.phase.functors = l.phase.functors ∨ l'.phase.functors = [])) := by
  cases h with
  | swap hp =>
    left
    exact ⟨rfl, rfl, rfl⟩
  | _ =>
    right
    simp_all [LoopPhase.functors]

theorem Advances.exists_started {l l' : EventLoop F} (h : Advances l .runNext l') :
    ∃ f, l.started .runNext = [f] := by
  cases h with
  | runNext ran cb todo hp => exact ⟨cb, by simp [started, hp, LoopPhase.todo]⟩

theorem started_tail (l : EventLoop F) (s : LoopStep) : (l.started s).tail = [] := by
  cases s with
  | runNext => cases h : l.phase.todo <;> simp [started, h]
  | _ => rfl

theorem Advances.mem_queued {l l' : EventLoop F} {s : LoopStep} (h : Advances l s l') {f : F}
    (hf : f ∈ l'.queued) : f ∈ l.queued := by
  rw [← h.started_append_queued]
  exact List.mem_append_right _ hf

theorem Advances.mem_held {l l' : EventLoop F} {s : LoopStep} (h : Advances l s l') {f : F}
    (hf : f ∈ l'.held) : f ∈ l.held := by
  simp only [held, List.mem_append] at hf ⊢
  rcases h.functors with ⟨_, hv, hq⟩ | ⟨_, hq, hv | hv⟩
  · right
    simpa [hv, hq] using hf
  · rwa [hv, hq] at hf
  · right
    simpa [hv, hq] using hf

end EventLoop

/-! ## A loop seen through a map of its functors -/

/-- The same point of `loop()`, with the functors as `g` shows them. -/
def LoopPhase.map {F G : Type*} (g : F → G) : LoopPhase F → LoopPhase G
  | outside => .outside
  | test => .test
  | poll => .poll
  | dispatch wakeup => .dispatch wakeup
  | swap => .swap
  | batch ran todo => .batch (ran.map g) (todo.map g)
  | body ran functor todo => .body (ran.map g) (g functor) (todo.map g)
  | release ran => .release (ran.map g)

namespace EventLoop

variable {F G : Type*} (g : F → G)

def map (l : EventLoop F) : EventLoop G where
  looping_ := l.looping_
  quit_ := l.quit_
  callingPendingFunctors_ := l.callingPendingFunctors_
  pendingFunctors_ := l.pendingFunctors_.map g
  wakeupFd_ := l.wakeupFd_
  phase := l.phase.map g

theorem map_push (l : EventLoop F) (cb : F) : (l.push cb).map g = (l.map g).push (g cb) := by
  simp [map, push]

theorem map_wakeupAfterPush (l : EventLoop F) (b : Bool) :
    (l.wakeupAfterPush b).map g = (l.map g).wakeupAfterPush b := by
  unfold wakeupAfterPush
  split_ifs <;> first | rfl | contradiction

theorem map_todo (p : LoopPhase F) : (p.map g).todo = p.todo.map g := by
  cases p <;> rfl

theorem map_queued (l : EventLoop F) : (l.map g).queued = l.queued.map g := by
  simp [queued, map, map_todo]

theorem map_held (l : EventLoop F) : (l.map g).held = l.held.map g := by
  cases h : l.phase <;> simp [held, map, h, LoopPhase.map, LoopPhase.functors]

theorem map_started (l : EventLoop F) (s : LoopStep) :
    (l.map g).started s = (l.started s).map g := by
  cases s with
  | runNext => simp [started, map, map_todo, List.map_take]
  | _ => rfl

theorem Advances.map {l l' : EventLoop F} {s : LoopStep} (h : l.Advances s l') :
    (l.map g).Advances s (l'.map g) := by
  cases h with
  | enter hp => exact .enter (by simp [EventLoop.map, hp, LoopPhase.map])
  | leave hp hq => exact .leave (by simp [EventLoop.map, hp, LoopPhase.map]) hq
  | again hp hq => exact .again (by simp [EventLoop.map, hp, LoopPhase.map]) hq
  | pollReturn w hp hw => exact .pollReturn w (by simp [EventLoop.map, hp, LoopPhase.map]) hw
  | handleRead hp => exact .handleRead (by simp [EventLoop.map, hp, LoopPhase.map])
  | endDispatch hp => exact .endDispatch (by simp [EventLoop.map, hp, LoopPhase.map])
  | swap hp => exact .swap (by simp [EventLoop.map, hp, LoopPhase.map])
  | runNext ran cb todo hp =>
    exact .runNext (ran.map g) (g cb) (todo.map g) (by simp [EventLoop.map, hp, LoopPhase.map])
  | endBody ran cb todo hp =>
    have hstep := Advances.endBody (l := l.map g) (ran.map g) (g cb) (todo.map g)
      (by simp [EventLoop.map, hp, LoopPhase.map])
    simpa [EventLoop.map, LoopPhase.map] using hstep
  | endBatch ran hp =>
    exact .endBatch (ran.map g) (by simp [EventLoop.map, hp, LoopPhase.map])
  | release ran hp => exact .release (ran.map g) (by simp [EventLoop.map, hp, LoopPhase.map])

end EventLoop
end MuduoCore
