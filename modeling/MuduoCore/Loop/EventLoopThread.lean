import MuduoCore.Loop.Quit

/-!
# A loop on a thread of its own

An `EventLoopThread` from its constructor to the end of its destructor: the
owner's thread, `threadFunc` on the new thread, and any other threads that use
the loop. The `EventLoop` is a local variable of `threadFunc`; `loop_` points at
it between two critical sections. The destructor reads `loop_` without the
mutex, once for its test and once for its call of `quit()`.
-/

namespace MuduoCore

inductive ThreadPhase
  | unborn
  | starting
  /-- the loop exists, `callback_` runs -/
  | callback
  /-- `loop_` has been set -/
  | published
  | looping
  /-- `loop()` has returned -/
  | looped
  /-- `loop_` has been reset -/
  | cleared
  /-- the loop has been destroyed -/
  | destroyed
  | returned
  deriving DecidableEq, Repr

/-- How far the owner has come, in `startLoop()` and in the destructor. -/
inductive OwnerPhase
  | idle
  | waiting
  | running
  /-- at the test of `loop_` -/
  | exiting
  | found
  /-- about to call `quit()`; the flag tells whether `loop_` was set when read again -/
  | loaded (loop : Bool)
  | quitting
  | joining
  | leaving
  | gone
  deriving DecidableEq, Repr

namespace ThreadPhase

def hasLoop : ThreadPhase → Bool
  | callback | published | looping | looped | cleared => true
  | _ => false

def isPublished : ThreadPhase → Bool
  | published | looping | looped => true
  | _ => false

def hasPublished : ThreadPhase → Bool
  | unborn | starting | callback => false
  | _ => true

/-- `loop()` has made its store to `quit_`. -/
def hasEntered : ThreadPhase → Bool
  | unborn | starting | callback | published => false
  | _ => true

def hasLooped : ThreadPhase → Bool
  | looped | cleared | destroyed | returned => true
  | _ => false

/-- `threadFunc` is over, or has never begun. -/
def isOver : ThreadPhase → Bool
  | unborn | returned => true
  | _ => false

end ThreadPhase

/-- How far the new thread can be, where the owner is. -/
def OwnerPhase.meets : OwnerPhase → ThreadPhase → Prop
  | .idle, t => t = .unborn
  | .waiting, t => t ≠ .unborn
  | .running, t | .quitting, t | .joining, t => t.hasPublished = true
  | .exiting, t => t = .unborn ∨ t.hasPublished = true
  | .found, t => t.isPublished = true
  | .loaded p, t => p = true ∧ t.isPublished = true
  | .leaving, t | .gone, t => t.isOver = true

inductive ThreadLabel (F T : Type*)
  | startLoop
  | construct
  | publish
  | loopReady
  | exit
  | testLoop
  | loadLoop
  | quit
  | wakeup
  | join
  | finish
  | clear
  | destroy
  | ret
  /-- a step of the loop, of its callbacks or of another thread -/
  | loop (l : LoopLabel F T)

structure EventLoopThread (F T : Type*) where
  loop_ : Bool
  thread : ThreadPhase
  owner : OwnerPhase
  threads : LoopThreads F T
  /-- `quit()` has been called by anyone -/
  quitCalled : Bool

namespace EventLoopThread

variable {F T : Type*}

def create : EventLoopThread F T := ⟨false, .unborn, .idle, .create, false⟩

variable [DecidableEq T]

/-- `threadFunc` calls `loop()` once, its own code runs in `callback_` and in
`loop()`, and the others use the loop while it exists; the owner `u` does so
before its destructor. -/
def allows (u : T) (s : EventLoopThread F T) : LoopLabel F T → Bool
  | .control .enter => s.thread = .published
  | .control _ => s.thread = .looping
  | .ownPush _ | .ownWakeup | .ownQuit => s.thread = .callback || s.thread = .looping
  | .push t _ | .quit t | .wakeup t => s.thread.hasLoop && (t ≠ u || s.owner = .running)

def after (s : EventLoopThread F T) (l : LoopLabel F T) (threads : LoopThreads F T) :
    ThreadPhase :=
  match l with
  | .control .enter => .looping
  | .control _ => if threads.loop.phase matches .outside then .looped else s.thread
  | _ => s.thread

/-- `u` is the thread of the owner. -/
def step (u : T) (s : EventLoopThread F T) : ThreadLabel F T → Option (EventLoopThread F T)
  | .startLoop =>
    if s.owner = .idle ∧ s.thread = .unborn then
      some { s with owner := .waiting, thread := .starting }
    else none
  | .construct => if s.thread = .starting then some { s with thread := .callback } else none
  | .publish =>
    if s.thread = .callback ∧ s.threads.ownPushed = false then
      some { s with loop_ := true, thread := .published }
    else none
  | .loopReady =>
    if s.owner = .waiting ∧ s.loop_ = true then some { s with owner := .running } else none
  | .exit =>
    if (s.owner = .idle ∨ s.owner = .running) ∧ s.threads.caller u = .idle then
      some { s with owner := .exiting }
    else none
  | .testLoop =>
    if s.owner = .exiting then some { s with owner := if s.loop_ then .found else .leaving }
    else none
  | .loadLoop => if s.owner = .found then some { s with owner := .loaded s.loop_ } else none
  | .quit =>
    if s.owner matches .loaded _ then
      (s.threads.step (.quit u)).map fun threads =>
        { s with threads := threads, owner := .quitting, quitCalled := true }
    else none
  | .wakeup =>
    if s.owner = .quitting then
      (s.threads.step (.wakeup u)).map fun threads =>
        { s with threads := threads, owner := .joining }
    else none
  | .join =>
    if s.owner = .joining ∧ s.thread = .returned then some { s with owner := .leaving } else none
  | .finish => if s.owner = .leaving then some { s with owner := .gone } else none
  | .clear =>
    if s.thread = .looped then some { s with loop_ := false, thread := .cleared } else none
  | .destroy => if s.thread = .cleared then some { s with thread := .destroyed } else none
  | .ret => if s.thread = .destroyed then some { s with thread := .returned } else none
  | .loop l =>
    if s.allows u l then
      (s.threads.step l).map fun threads =>
        { s with
          threads := threads
          thread := s.after l threads
          quitCalled := s.quitCalled || l.isQuit }
    else none

def system (F : Type*) {T : Type*} [DecidableEq T] (u : T) :
    TransitionSystem (EventLoopThread F T) (ThreadLabel F T) where
  Init s := s = create
  Step s l s' := s.step u l = some s'

/-! ## What a step can do -/

inductive Steps (u : T) (s : EventLoopThread F T) :
    ThreadLabel F T → EventLoopThread F T → Prop
  | startLoop (ho : s.owner = .idle) (ht : s.thread = .unborn) :
      Steps u s .startLoop { s with owner := .waiting, thread := .starting }
  | construct (ht : s.thread = .starting) : Steps u s .construct { s with thread := .callback }
  | publish (ht : s.thread = .callback) (hown : s.threads.ownPushed = false) :
      Steps u s .publish { s with loop_ := true, thread := .published }
  | loopReady (ho : s.owner = .waiting) (hl : s.loop_ = true) :
      Steps u s .loopReady { s with owner := .running }
  | exit (ho : s.owner = .idle ∨ s.owner = .running) (hc : s.threads.caller u = .idle) :
      Steps u s .exit { s with owner := .exiting }
  | testLoop (ho : s.owner = .exiting) :
      Steps u s .testLoop { s with owner := if s.loop_ then .found else .leaving }
  | loadLoop (ho : s.owner = .found) : Steps u s .loadLoop { s with owner := .loaded s.loop_ }
  | quit (p : Bool) (threads : LoopThreads F T) (ho : s.owner = .loaded p)
      (hs : s.threads.step (.quit u) = some threads) :
      Steps u s .quit { s with threads := threads, owner := .quitting, quitCalled := true }
  | wakeup (threads : LoopThreads F T) (ho : s.owner = .quitting)
      (hs : s.threads.step (.wakeup u) = some threads) :
      Steps u s .wakeup { s with threads := threads, owner := .joining }
  | join (ho : s.owner = .joining) (ht : s.thread = .returned) :
      Steps u s .join { s with owner := .leaving }
  | finish (ho : s.owner = .leaving) : Steps u s .finish { s with owner := .gone }
  | clear (ht : s.thread = .looped) :
      Steps u s .clear { s with loop_ := false, thread := .cleared }
  | destroy (ht : s.thread = .cleared) : Steps u s .destroy { s with thread := .destroyed }
  | ret (ht : s.thread = .destroyed) : Steps u s .ret { s with thread := .returned }
  | loop (l : LoopLabel F T) (threads : LoopThreads F T) (ha : s.allows u l = true)
      (hs : s.threads.step l = some threads) :
      Steps u s (.loop l) { s with
        threads := threads
        thread := s.after l threads
        quitCalled := s.quitCalled || l.isQuit }

variable {u : T} {s s' : EventLoopThread F T}

theorem steps_of_step {l : ThreadLabel F T} (h : s.step u l = some s') : Steps u s l s' := by
  cases l with
  | quit =>
    simp only [step] at h
    split_ifs at h with ho
    obtain ⟨threads, hs, rfl⟩ := Option.map_eq_some_iff.mp h
    cases hp : s.owner with
    | loaded p => exact .quit p threads hp hs
    | _ => simp [hp] at ho
  | wakeup =>
    simp only [step] at h
    split_ifs at h with ho
    obtain ⟨threads, hs, rfl⟩ := Option.map_eq_some_iff.mp h
    exact .wakeup threads ho hs
  | loop l =>
    simp only [step] at h
    split_ifs at h with ha
    obtain ⟨threads, hs, rfl⟩ := Option.map_eq_some_iff.mp h
    exact .loop l threads ha hs
  | startLoop | publish | loopReady | join | exit =>
    simp only [step] at h
    split_ifs at h with hg
    cases h
    constructor
    · exact hg.1
    · exact hg.2
  | testLoop =>
    simp only [step] at h
    by_cases ho : s.owner = .exiting
    · rw [if_pos ho] at h
      cases h
      exact .testLoop ho
    · rw [if_neg ho] at h
      cases h
  | construct | loadLoop | finish | clear | destroy | ret =>
    simp only [step] at h
    split_ifs at h with hg
    cases h
    constructor
    exact hg

/-- What happens to the loop here is a run of the loop and its callers. -/
theorem threads_reachable {Good : EventLoopThread F T → ThreadLabel F T → Prop}
    (h : (system F u).Reachable Good s) :
    (LoopThreads.system F T).Reachable TransitionSystem.AnyStep s.threads := by
  induction h with
  | init h =>
    subst h
    exact .init LoopThreads.fresh_create
  | step _ _ hs ih =>
    cases steps_of_step hs with
    | quit p threads ho hrun | wakeup threads ho hrun | loop l threads ha hrun =>
      exact .step ih trivial hrun
    | _ => exact ih

/-! ## `quit()` is not lost -/

/-- `quit()` makes its store after `loop()` has made its own. -/
def QuitsAfterEntry (s : EventLoopThread F T) : ThreadLabel F T → Prop
  | .quit => s.thread.hasEntered = true
  | .loop l => l.isQuit = true → s.thread.hasEntered = true
  | _ => True

instance (s : EventLoopThread F T) : (l : ThreadLabel F T) → Decidable (QuitsAfterEntry s l)
  | .quit => inferInstanceAs (Decidable (_ = _))
  | .loop _ => inferInstanceAs (Decidable (_ → _))
  | .startLoop | .construct | .publish | .loopReady | .exit | .testLoop | .loadLoop | .wakeup
  | .join | .finish | .clear | .destroy | .ret => isTrue trivial

/-- Only `threadFunc` inside `loop()` is in a phase of the loop; and a call of
`quit()` has come after the entry and is kept until the return. -/
structure QuitKept (s : EventLoopThread F T) : Prop where
  inside : s.thread ≠ .looping → s.threads.loop.phase = .outside
  entered : s.quitCalled = true → s.thread.hasEntered = true
  kept : s.quitCalled = true → s.thread = .looping → s.threads.loop.quit_ = true

omit [DecidableEq T] in
theorem QuitKept.thread {p : ThreadPhase} {b : Bool} {o : OwnerPhase} (h : QuitKept s)
    (ht : s.thread ≠ .looping) (hp : p ≠ .looping)
    (hentered : s.thread.hasEntered = true → p.hasEntered = true) :
    QuitKept { s with loop_ := b, thread := p, owner := o } :=
  ⟨fun _ => h.inside ht, fun hq => hentered (h.entered hq), fun _ hloop => absurd hloop hp⟩

theorem quitKept_loop {l : LoopLabel F T} {threads : LoopThreads F T} (h : QuitKept s)
    (hgood : l.isQuit = true → s.thread.hasEntered = true) (ha : s.allows u l = true)
    (hs : LoopThreads.Steps s.threads l threads) :
    QuitKept { s with
      threads := threads, thread := s.after l threads
      quitCalled := s.quitCalled || l.isQuit } := by
  by_cases hcontrol : ∃ c, l = .control c
  · obtain ⟨c, rfl⟩ := hcontrol
    cases hs with
    | control _ loop ho hadv =>
      cases hadv with
      | enter hp =>
        -- the only store that could take a call back comes before all of them
        have hthread : s.thread = .published := by simpa [allows] using ha
        have hnone : s.quitCalled = false := by
          by_contra hq
          have hentered := h.entered (by simpa using hq)
          rw [hthread] at hentered
          cases hentered
        exact ⟨by simp [after], by simp [hnone, LoopLabel.isQuit],
          by simp [hnone, LoopLabel.isQuit]⟩
      | leave hp hq =>
        exact ⟨by simp, by simp [after, ThreadPhase.hasEntered], by simp [after]⟩
      | _ =>
        have hthread : s.thread = .looping := by simpa [allows] using ha
        refine ⟨by simp [after, hthread], by simp [after, hthread, ThreadPhase.hasEntered], ?_⟩
        intro hq _
        exact h.kept (by simpa [LoopLabel.isQuit] using hq) hthread
  · simp only [not_exists] at hcontrol
    have hsame : s.after l threads = s.thread := by
      cases l with
      | control c => exact absurd rfl (hcontrol c)
      | _ => rfl
    rw [hsame]
    refine ⟨?_, ?_, ?_⟩
    · intro ht
      rw [LoopThreads.phase_of_step hcontrol hs]
      exact h.inside ht
    · intro hq
      rcases Bool.or_eq_true_iff.mp hq with hq | hq
      · exact h.entered hq
      · exact hgood hq
    · intro hq ht
      rcases Bool.or_eq_true_iff.mp hq with hq | hq
      · exact LoopThreads.quit_kept (h.kept hq ht) (hcontrol _) hs
      · exact LoopThreads.quit_of_isQuit hq hs

theorem quitKept_step {l : ThreadLabel F T} (h : QuitKept s) (hgood : QuitsAfterEntry s l)
    (hs : Steps u s l s') : QuitKept s' := by
  cases hs with
  | loop l threads ha hrun =>
    exact quitKept_loop h hgood ha (LoopThreads.steps_of_step hrun)
  | quit p threads ho hrun =>
    have hsteps := LoopThreads.steps_of_step hrun
    refine ⟨?_, fun _ => hgood, fun _ _ => LoopThreads.quit_of_isQuit rfl hsteps⟩
    intro ht
    rw [LoopThreads.phase_of_step (by simp) hsteps]
    exact h.inside ht
  | wakeup threads ho hrun =>
    have hsteps := LoopThreads.steps_of_step hrun
    refine ⟨?_, h.entered, ?_⟩
    · intro ht
      rw [LoopThreads.phase_of_step (by simp) hsteps]
      exact h.inside ht
    · intro hq ht
      exact LoopThreads.quit_kept (h.kept hq ht) (by simp) hsteps
  | startLoop ho ht | construct ht | publish ht hown | clear ht | destroy ht | ret ht =>
    apply h.thread <;> simp [ht, ThreadPhase.hasEntered]
  | _ => exact ⟨h.inside, h.entered, h.kept⟩

/-- In every run in which `quit()` makes its store after the entry into
`loop()`: once it has been called, `quit_` stays set until `loop()` has
returned, and no loop is blocked for good while the owner waits in `join()`. -/
theorem quit_reaches_loop (h : (system F u).Reachable QuitsAfterEntry s)
    (hq : s.quitCalled = true) :
    (s.thread.hasLooped = true ∨ s.threads.loop.quit_ = true) ∧
      ¬ (s.owner = .joining ∧ s.threads.loop.phase = .poll ∧ s.threads.loop.quit_ = false ∧
        s.threads.loop.wakeupFd_ = 0) := by
  have hkept : QuitKept s := by
    apply h.invariant
    · rintro s rfl
      exact ⟨fun _ => rfl, by simp [create], by simp [create]⟩
    · intro s l s' hi hgood hs
      exact quitKept_step hi hgood (steps_of_step hs)
  constructor
  · have hentered := hkept.entered hq
    cases ht : s.thread with
    | looping => exact Or.inr (hkept.kept hq ht)
    | looped | cleared | destroyed | returned => exact Or.inl rfl
    | _ => simp [ht, ThreadPhase.hasEntered] at hentered
  · rintro ⟨-, hpoll, hnot, -⟩
    have hlooping : s.thread = .looping := by
      by_contra ht
      rw [hkept.inside ht] at hpoll
      cases hpoll
    rw [hkept.kept hq hlooping] at hnot
    cases hnot

theorem replay_guarded {Good : EventLoopThread F T → ThreadLabel F T → Prop}
    [∀ s l, Decidable (Good s l)] (s : EventLoopThread F T) (l : ThreadLabel F T)
    (s' : EventLoopThread F T)
    (h : TransitionSystem.guarded Good (step u) s l = some s') :
    Good s l ∧ (system F u).Step s l s' :=
  TransitionSystem.guarded_eq_some.mp h

/-- The owner has started the thread, up to the return of `startLoop()`. -/
def started : List (ThreadLabel ℕ ℕ) := [.startLoop, .construct, .publish, .loopReady]

/-- The destructor, from its test of `loop_` to its wait in `join()`. -/
def destructor : List (ThreadLabel ℕ ℕ) := [.exit, .testLoop, .loadLoop, .quit, .wakeup]

/-- The destructor calls `quit()` while the loop is blocked in `poll`. -/
theorem quit_reaches_loop_polling :
    ∃ s : EventLoopThread ℕ ℕ, (s.quitCalled, s.owner, s.threads.loop.phase) =
        (true, .joining, .poll) ∧
      (s.thread.hasLooped = true ∨ s.threads.loop.quit_ = true) := by
  have hrun : (TransitionSystem.replay (TransitionSystem.guarded QuitsAfterEntry (step 0)) create
      (List.flatten [started, [.loop (.control .enter), .loop (.control .test)], destructor])).map
        (fun s => (s.quitCalled, s.owner, s.threads.loop.phase))
      = some (true, .joining, .poll) := by decide
  obtain ⟨s, hs, hobs⟩ := TransitionSystem.exists_reachable_of_replay replay_guarded
    (.init rfl) _ hrun
  exact ⟨s, hobs, (quit_reaches_loop hs (Prod.mk.inj hobs).1).1⟩

/-- The destructor runs before the new thread has entered `loop()`, whose store
takes the call of `quit()` back: the loop is blocked with nothing to wake it,
and the owner in `join()`. -/
theorem quit_lost_before_entry :
    ∃ s : EventLoopThread ℕ ℕ, (system ℕ 0).Reachable TransitionSystem.AnyStep s ∧
      s.quitCalled = true ∧ s.owner = .joining ∧ s.threads.loop.phase = .poll ∧
      s.threads.loop.quit_ = false ∧ s.threads.loop.wakeupFd_ = 0 := by
  have hrun : (TransitionSystem.replay
      (TransitionSystem.guarded TransitionSystem.AnyStep (step 0)) create
      (List.flatten [started, destructor,
        [.loop (.control .enter), .loop (.control .test), .loop (.control (.pollReturn true)),
          .loop (.control .handleRead), .loop (.control .endDispatch), .loop (.control .swap),
          .loop (.control .endBatch), .loop (.control .release), .loop (.control .test)]])).map
        (fun s => (s.quitCalled, s.owner, s.threads.loop.phase, s.threads.loop.quit_,
          s.threads.loop.wakeupFd_))
      = some (true, .joining, .poll, false, 0) := by decide
  obtain ⟨s, hs, hobs⟩ := TransitionSystem.exists_reachable_of_replay replay_guarded
    (.init rfl) _ hrun
  simp only [Prod.mk.injEq] at hobs
  exact ⟨s, hs, hobs⟩

/-! ## The destructor and the end of the thread -/

/-- The destructor does not meet the end of `threadFunc`: `loop_` is not reset
between its test and its call of `quit()`, and its test does not fall between
the reset and the return. -/
def EndsApart (s : EventLoopThread F T) : ThreadLabel F T → Prop
  | .clear => s.owner ≠ .found ∧ ∀ p, s.owner ≠ .loaded p
  | .testLoop => s.thread ≠ .cleared ∧ s.thread ≠ .destroyed
  | _ => True

instance (s : EventLoopThread F T) : (l : ThreadLabel F T) → Decidable (EndsApart s l)
  | .clear | .testLoop => inferInstanceAs (Decidable (_ ∧ _))
  | .startLoop | .construct | .publish | .loopReady | .exit | .loadLoop | .quit | .wakeup
  | .join | .finish | .destroy | .ret | .loop _ => isTrue trivial

/-- `loop_` is set while `threadFunc` says so, and the owner has found it so. -/
structure Meets (s : EventLoopThread F T) : Prop where
  pointer : s.loop_ = s.thread.isPublished
  phases : s.owner.meets s.thread

/-- Where `threadFunc` goes on, the owner is still met, if `loop_` is not reset
under its eyes. -/
theorem meets_of_next {o : OwnerPhase} {p p' : ThreadPhase} (h : o.meets p)
    (hp : p.isOver = false) (hp' : p' ≠ .unborn)
    (hpublished : p.hasPublished = true → p'.hasPublished = true)
    (hpointer : o = .found ∨ (∃ b, o = .loaded b) → p.isPublished = true →
      p'.isPublished = true) : o.meets p' := by
  cases o with
  | idle =>
    rw [show p = .unborn from h] at hp
    cases hp
  | waiting => exact hp'
  | running | quitting | joining => exact hpublished h
  | exiting =>
    rcases h with rfl | h
    · cases hp
    · exact Or.inr (hpublished h)
  | found => exact hpointer (Or.inl rfl) h
  | loaded b => exact ⟨h.1, hpointer (Or.inr ⟨b, rfl⟩) h.2⟩
  | leaving | gone =>
    rw [show p.isOver = true from h] at hp
    cases hp

theorem meets_loop {l : LoopLabel F T} {threads : LoopThreads F T} {q : Bool} (h : Meets s)
    (ha : s.allows u l = true) :
    Meets { s with threads := threads, thread := s.after l threads, quitCalled := q } := by
  have hpointer := h.pointer
  cases l with
  | control c =>
    have hnext : (s.thread = .published ∨ s.thread = .looping) ∧
        (s.after (.control c) threads = .looping ∨ s.after (.control c) threads = .looped) := by
      cases c with
      | enter => exact ⟨Or.inl (by simpa [allows] using ha), Or.inl rfl⟩
      | _ =>
        have ht : s.thread = .looping := by simpa [allows] using ha
        refine ⟨Or.inr ht, ?_⟩
        simp only [after, ht]
        split <;> simp
    obtain ⟨ht, hn⟩ := hnext
    constructor
    · rcases ht with ht | ht <;> rcases hn with hn | hn <;>
        simp [hpointer, ht, hn, ThreadPhase.isPublished]
    · apply meets_of_next h.phases
      · rcases ht with ht | ht <;> rw [ht] <;> rfl
      · rcases hn with hn | hn <;> simp [hn]
      · rcases hn with hn | hn <;> simp [hn, ThreadPhase.hasPublished]
      · rcases hn with hn | hn <;> simp [hn, ThreadPhase.isPublished]
  | _ => exact ⟨hpointer, h.phases⟩

theorem meets_step {l : ThreadLabel F T} (h : Meets s) (hgood : EndsApart s l)
    (hs : Steps u s l s') : Meets s' := by
  have hpointer := h.pointer
  have hphases := h.phases
  cases hs with
  | loop l threads ha hrun => exact meets_loop h ha
  | startLoop ho ht =>
    refine ⟨?_, by simp [OwnerPhase.meets]⟩
    rw [hpointer, ht]
    rfl
  | construct ht | publish ht hown | destroy ht | ret ht =>
    constructor
    · simp [hpointer, ht, ThreadPhase.isPublished]
    · apply meets_of_next hphases <;>
        simp [ht, ThreadPhase.isOver, ThreadPhase.hasPublished, ThreadPhase.isPublished]
  | clear ht =>
    constructor
    · rfl
    · apply meets_of_next hphases
      · simp [ht, ThreadPhase.isOver]
      · simp
      · simp [ThreadPhase.hasPublished]
      · rintro (ho | ⟨p, ho⟩)
        · exact absurd ho hgood.1
        · exact absurd ho (hgood.2 p)
  | loopReady ho hl =>
    refine ⟨hpointer, ?_⟩
    rw [hpointer] at hl
    cases ht : s.thread <;> simp_all [OwnerPhase.meets, ThreadPhase.hasPublished,
      ThreadPhase.isPublished]
  | exit ho hc =>
    refine ⟨hpointer, ?_⟩
    rcases ho with ho | ho
    · rw [ho] at hphases
      exact Or.inl hphases
    · rw [ho] at hphases
      exact Or.inr hphases
  | testLoop ho =>
    refine ⟨hpointer, ?_⟩
    rw [ho] at hphases
    cases hl : s.loop_ with
    | true => exact hpointer.symm.trans hl
    | false =>
      -- nothing found: threadFunc has not begun, or is at its end
      rw [hpointer] at hl
      rcases hphases with ht | ht
      · simp [OwnerPhase.meets, ht, ThreadPhase.isOver]
      · cases hp : s.thread <;> simp_all [EndsApart, OwnerPhase.meets, ThreadPhase.hasPublished,
          ThreadPhase.isPublished, ThreadPhase.isOver]
  | loadLoop ho =>
    refine ⟨hpointer, ?_⟩
    rw [ho] at hphases
    exact ⟨hpointer.trans hphases, hphases⟩
  | quit p threads ho hrun =>
    refine ⟨hpointer, ?_⟩
    rw [ho] at hphases
    have hset := hphases.2
    cases hp : s.thread <;> simp_all [OwnerPhase.meets, ThreadPhase.hasPublished,
      ThreadPhase.isPublished]
  | wakeup threads ho hrun =>
    rw [ho] at hphases
    exact ⟨hpointer, hphases⟩
  | join ho ht =>
    refine ⟨hpointer, ?_⟩
    rw [ht]
    rfl
  | finish ho =>
    rw [ho] at hphases
    exact ⟨hpointer, hphases⟩

/-- In every run in which the destructor does not meet the end of `threadFunc`:
it calls `quit()` on a loop that exists, and when it has finished `threadFunc`
has returned or has never begun. -/
theorem destructor_outlives_thread (h : (system F u).Reachable EndsApart s) :
    (∀ p, s.owner = .loaded p → p = true ∧ s.thread.hasLoop = true) ∧
      (s.owner = .gone → s.thread = .unborn ∨ s.thread = .returned) := by
  have hmeets : Meets s := by
    apply h.invariant
    · rintro s rfl
      exact ⟨rfl, rfl⟩
    · intro s l s' hi hgood hs
      exact meets_step hi hgood (steps_of_step hs)
  have hphases := hmeets.phases
  constructor
  · intro p ho
    rw [ho] at hphases
    refine ⟨hphases.1, ?_⟩
    have hset := hphases.2
    cases ht : s.thread <;> simp_all [ThreadPhase.hasLoop, ThreadPhase.isPublished]
  · intro ho
    rw [ho] at hphases
    cases ht : s.thread <;> simp_all [OwnerPhase.meets, ThreadPhase.isOver]

/-- The destructor quits the loop itself, and joins. -/
theorem destructor_outlives_thread_joined :
    ∃ s : EventLoopThread ℕ ℕ, (s.owner, s.quitCalled) = (.gone, true) ∧
      (s.thread = .unborn ∨ s.thread = .returned) := by
  have hrun : (TransitionSystem.replay (TransitionSystem.guarded EndsApart (step 0)) create
      (List.flatten [started, [.loop (.control .enter), .loop (.control .test)], destructor,
        [.loop (.control (.pollReturn true)), .loop (.control .handleRead),
          .loop (.control .endDispatch), .loop (.control .swap), .loop (.control .endBatch),
          .loop (.control .release), .loop (.control .test), .clear, .destroy, .ret, .join,
          .finish]])).map (fun s => (s.owner, s.quitCalled))
      = some (.gone, true) := by decide
  obtain ⟨s, hs, hobs⟩ := TransitionSystem.exists_reachable_of_replay replay_guarded
    (.init rfl) _ hrun
  exact ⟨s, hobs, (destructor_outlives_thread hs).2 (Prod.mk.inj hobs).1⟩

/-- The loop, quit by another thread, returns by itself. -/
def loopReturns : List (ThreadLabel ℕ ℕ) :=
  [.loop (.control .enter), .loop (.control .test), .loop (.quit 1), .loop (.wakeup 1),
    .loop (.control (.pollReturn true)), .loop (.control .handleRead),
    .loop (.control .endDispatch), .loop (.control .swap), .loop (.control .endBatch),
    .loop (.control .release), .loop (.control .test)]

/-- The loop returns by itself while the destructor is about to call `quit()`:
the loop has been destroyed by then. Or `loop_` has been reset, and the
destructor finishes without a join while the thread still runs. -/
theorem quits_destroyed_loop_or_leaves_thread :
    (∃ s : EventLoopThread ℕ ℕ, (system ℕ 0).Reachable TransitionSystem.AnyStep s ∧
      s.owner = .loaded true ∧ s.thread = .destroyed) ∧
    ∃ s : EventLoopThread ℕ ℕ, (system ℕ 0).Reachable TransitionSystem.AnyStep s ∧
      s.owner = .gone ∧ s.thread = .cleared := by
  constructor
  · have hrun : (TransitionSystem.replay
        (TransitionSystem.guarded TransitionSystem.AnyStep (step 0)) create
        (List.flatten [started, loopReturns, [.exit, .testLoop, .loadLoop, .clear, .destroy]])).map
          (fun s => (s.owner, s.thread))
        = some (.loaded true, .destroyed) := by decide
    obtain ⟨s, hs, hobs⟩ := TransitionSystem.exists_reachable_of_replay replay_guarded
      (.init rfl) _ hrun
    exact ⟨s, hs, Prod.mk.inj hobs⟩
  · have hrun : (TransitionSystem.replay
        (TransitionSystem.guarded TransitionSystem.AnyStep (step 0)) create
        (List.flatten [started, loopReturns, [.clear, .exit, .testLoop, .finish]])).map
          (fun s => (s.owner, s.thread))
        = some (.gone, .cleared) := by decide
    obtain ⟨s, hs, hobs⟩ := TransitionSystem.exists_reachable_of_replay replay_guarded
      (.init rfl) _ hrun
    exact ⟨s, hs, Prod.mk.inj hobs⟩

end EventLoopThread
end MuduoCore
