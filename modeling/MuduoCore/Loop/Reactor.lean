import MuduoCore.Loop.LoopThreads
import MuduoCore.Polling.Polls

/-!
# An event loop with its poller

`EventLoop::loop` as a whole: the loop with its functors and the threads that
queue them, and the poller with its channels and the kernel's queue. They meet
in the wakeup descriptor, an `eventfd` that is one of the descriptors the poller
watches. The kernel finds it ready as long as its counter is positive, and
`handleRead` runs when the walk over `activeChannels_` comes to
`wakeupChannel_`.
-/

namespace MuduoCore

structure Reactor (F T P : Type*) where
  threads : LoopThreads F T
  polling : PollingLoop P

inductive ReactorLabel (F T P : Type*)
  /-- a step of the loop outside `poll` and `handleEvent`, or of another thread -/
  | thread (l : LoopLabel F T)
  | setCallback (ptr : P) (cb : EventCallback)
  /-- the loop's thread changes the interest of a channel, or removes it -/
  | update (ptr : P) (c : ChannelCall)
  | becomesReady (f : ℤ)
  | becomesIdle (f : ℤ)
  | poll (revents : ℤ → Events)
  | pollError
  | handleEvent

namespace PollingLoop

variable {P : Type*}

/-- The kernel's queue once the counter of the descriptor `f` has changed. -/
def settle (s : PollingLoop P) (f : ℤ) (counter : ℕ) : PollingLoop P :=
  if counter = 0 then { s with ready := s.ready.erase f }
  else if (s.watched f).isSome ∧ f ∉ s.ready then { s with ready := s.ready ++ [f] }
  else s

variable {s : PollingLoop P} {fd : P → ℤ} {f : ℤ} {counter : ℕ}

@[simp] theorem settle_channels : (s.settle f counter).channels = s.channels := by
  unfold settle
  split_ifs <;> rfl

@[simp] theorem settle_rest : (s.settle f counter).rest = s.rest := by
  unfold settle
  split_ifs <;> rfl

@[simp] theorem settle_channel (ptr : P) : (s.settle f counter).channel ptr = s.channel ptr := by
  rw [channel, settle_channels, channel]

@[simp] theorem settle_watched (g : ℤ) : (s.settle f counter).watched g = s.watched g := by
  rw [watched, settle_channels, watched]

theorem mem_settle (hnodup : s.ready.Nodup) (hwatched : (s.watched f).isSome = true) :
    f ∈ (s.settle f counter).ready ↔ counter ≠ 0 := by
  unfold settle
  split_ifs with hzero hnew
  · simp [hzero, hnodup.mem_erase_iff]
  · simp [hzero]
  · have hmem : f ∈ s.ready := by
      by_contra hnot
      exact hnew ⟨hwatched, hnot⟩
    simp [hzero, hmem]

/-- The kernel's answer to a change of the counter is a step of the poller's
world, or none. -/
theorem settle_cases [DecidableEq P] (s : PollingLoop P) (f : ℤ) (counter : ℕ) :
    s.settle f counter = s ∨
    ∃ l, s.next l = some (s.settle f counter) := by
  unfold settle
  split_ifs with hzero hnew
  · by_cases hmem : f ∈ s.ready
    · exact Or.inr ⟨.becomesIdle f, by simp [next, hmem]⟩
    · left
      rw [List.erase_of_not_mem hmem]
  · exact Or.inr ⟨.becomesReady f, by simp [next, hnew]⟩
  · exact Or.inl rfl

end PollingLoop

namespace Reactor

variable {F T P : Type*} [DecidableEq T] [DecidableEq P]

/-- Steps that belong to `poll` or `handleEvent`, and the end of the walk. -/
def allows (s : Reactor F T P) : LoopLabel F T → Bool
  | .control (.pollReturn _) | .control .handleRead => false
  | .control .endDispatch => s.polling.rest.isEmpty
  | _ => true

def RunsCode (s : Reactor F T P) : Prop :=
  s.threads.loop.phase.runsCode = true ∧ s.threads.ownPushed = false

instance (s : Reactor F T P) : Decidable s.RunsCode := inferInstanceAs (Decidable (_ ∧ _))

/-- The read callback of `wakeupChannel_` is `EventLoop::handleRead`; its other
callbacks are not set, and other channels' callbacks take steps of their own. -/
def visit (wakeupChannel : P) (s : Reactor F T P) : Option (LoopThreads F T) :=
  if s.polling.rest.head? = some wakeupChannel ∧ .readCallback ∈ s.polling.handled then
    s.threads.step (.control .handleRead)
  else if s.RunsCode then some s.threads
  else none

/-- Nobody but the loop uses `wakeupChannel_`, and of an `eventfd` the kernel
reports that it can be read. -/
def step (fd : P → ℤ) (wakeupChannel : P) (s : Reactor F T P) :
    ReactorLabel F T P → Option (Reactor F T P)
  | .thread l =>
    if s.allows l then
      (s.threads.step l).map fun threads =>
        ⟨threads, s.polling.settle (fd wakeupChannel) threads.loop.wakeupFd_⟩
    else none
  | .setCallback ptr cb =>
    if ptr ≠ wakeupChannel ∧ s.RunsCode then
      (s.polling.next (.setCallback ptr cb)).map fun polling => { s with polling := polling }
    else none
  | .update ptr c =>
    if ptr ≠ wakeupChannel ∧ s.RunsCode then
      (s.polling.next (.call ptr c)).map fun polling => { s with polling := polling }
    else none
  | .becomesReady f =>
    if f ≠ fd wakeupChannel then
      (s.polling.next (.becomesReady f)).map fun polling => { s with polling := polling }
    else none
  | .becomesIdle f =>
    if f ≠ fd wakeupChannel then
      (s.polling.next (.becomesIdle f)).map fun polling => { s with polling := polling }
    else none
  | .poll revents =>
    if revents (fd wakeupChannel) = EPOLLIN then
      (s.polling.next (.poll revents)).bind fun polling =>
        (s.threads.step (.control (.pollReturn (wakeupChannel ∈ polling.activeChannels_)))).map
          fun threads => ⟨threads, polling⟩
    else none
  | .pollError =>
    (s.polling.next .pollError).bind fun polling =>
      (s.threads.step (.control (.pollReturn false))).map fun threads => ⟨threads, polling⟩
  | .handleEvent =>
    (s.visit wakeupChannel).bind fun threads =>
      (s.polling.next .handleEvent).map fun polling =>
        ⟨threads, polling.settle (fd wakeupChannel) threads.loop.wakeupFd_⟩

/-- What the constructor of `EventLoop` does with `wakeupChannel_`. -/
def construction (wakeupChannel : P) : List (PollLabel P) :=
  [.setCallback wakeupChannel .readCallback, .call wakeupChannel (.change .enableReading)]

def Init (fd : P → ℤ) (wakeupChannel : P) (s : Reactor F T P) : Prop :=
  s.threads = .create ∧ TransitionSystem.replay PollingLoop.next (PollingLoop.create fd)
    (construction wakeupChannel) = some s.polling

def system (fd : P → ℤ) (wakeupChannel : P) :
    TransitionSystem (Reactor F T P) (ReactorLabel F T P) where
  Init := Init fd wakeupChannel
  Step s l s' := s.step fd wakeupChannel l = some s'

variable {fd : P → ℤ} {wakeupChannel : P} {s s' : Reactor F T P}

/-! ## What a step can do -/

inductive Steps (fd : P → ℤ) (wakeupChannel : P) (s : Reactor F T P) :
    ReactorLabel F T P → Reactor F T P → Prop
  | thread (l : LoopLabel F T) (threads : LoopThreads F T) (hl : s.allows l = true)
      (hs : s.threads.step l = some threads) :
      Steps fd wakeupChannel s (.thread l)
        ⟨threads, s.polling.settle (fd wakeupChannel) threads.loop.wakeupFd_⟩
  | setCallback (ptr : P) (cb : EventCallback) (polling : PollingLoop P)
      (hptr : ptr ≠ wakeupChannel) (hcode : s.RunsCode)
      (hs : s.polling.next (.setCallback ptr cb) = some polling) :
      Steps fd wakeupChannel s (.setCallback ptr cb) { s with polling := polling }
  | update (ptr : P) (c : ChannelCall) (polling : PollingLoop P) (hptr : ptr ≠ wakeupChannel)
      (hcode : s.RunsCode) (hs : s.polling.next (.call ptr c) = some polling) :
      Steps fd wakeupChannel s (.update ptr c) { s with polling := polling }
  | becomesReady (f : ℤ) (polling : PollingLoop P) (hf : f ≠ fd wakeupChannel)
      (hs : s.polling.next (.becomesReady f) = some polling) :
      Steps fd wakeupChannel s (.becomesReady f) { s with polling := polling }
  | becomesIdle (f : ℤ) (polling : PollingLoop P) (hf : f ≠ fd wakeupChannel)
      (hs : s.polling.next (.becomesIdle f) = some polling) :
      Steps fd wakeupChannel s (.becomesIdle f) { s with polling := polling }
  | poll (revents : ℤ → Events) (polling : PollingLoop P) (threads : LoopThreads F T)
      (hrevents : revents (fd wakeupChannel) = EPOLLIN)
      (hpoll : s.polling.next (.poll revents) = some polling)
      (hs : s.threads.step (.control (.pollReturn (wakeupChannel ∈ polling.activeChannels_))) =
        some threads) :
      Steps fd wakeupChannel s (.poll revents) ⟨threads, polling⟩
  | pollError (polling : PollingLoop P) (threads : LoopThreads F T)
      (hpoll : s.polling.next .pollError = some polling)
      (hs : s.threads.step (.control (.pollReturn false)) = some threads) :
      Steps fd wakeupChannel s .pollError ⟨threads, polling⟩
  | handleEvent (threads : LoopThreads F T) (polling : PollingLoop P)
      (hvisit : s.visit wakeupChannel = some threads)
      (hs : s.polling.next .handleEvent = some polling) :
      Steps fd wakeupChannel s .handleEvent
        ⟨threads, polling.settle (fd wakeupChannel) threads.loop.wakeupFd_⟩

theorem steps_of_step {l : ReactorLabel F T P} (h : s.step fd wakeupChannel l = some s') :
    Steps fd wakeupChannel s l s' := by
  cases l with
  | thread l =>
    simp only [step] at h
    split_ifs at h with hl
    obtain ⟨threads, hs, rfl⟩ := Option.map_eq_some_iff.mp h
    exact .thread l threads hl hs
  | setCallback ptr cb =>
    simp only [step] at h
    split_ifs at h with hc
    obtain ⟨polling, hs, rfl⟩ := Option.map_eq_some_iff.mp h
    exact .setCallback ptr cb polling hc.1 hc.2 hs
  | update ptr c =>
    simp only [step] at h
    split_ifs at h with hc
    obtain ⟨polling, hs, rfl⟩ := Option.map_eq_some_iff.mp h
    exact .update ptr c polling hc.1 hc.2 hs
  | becomesReady f =>
    simp only [step] at h
    split_ifs at h with hf
    obtain ⟨polling, hs, rfl⟩ := Option.map_eq_some_iff.mp h
    exact .becomesReady f polling hf hs
  | becomesIdle f =>
    simp only [step] at h
    split_ifs at h with hf
    obtain ⟨polling, hs, rfl⟩ := Option.map_eq_some_iff.mp h
    exact .becomesIdle f polling hf hs
  | poll revents =>
    simp only [step] at h
    split_ifs at h with hrevents
    obtain ⟨polling, hpoll, h⟩ := Option.bind_eq_some_iff.mp h
    obtain ⟨threads, hs, rfl⟩ := Option.map_eq_some_iff.mp h
    exact .poll revents polling threads hrevents hpoll hs
  | pollError =>
    simp only [step] at h
    obtain ⟨polling, hpoll, h⟩ := Option.bind_eq_some_iff.mp h
    obtain ⟨threads, hs, rfl⟩ := Option.map_eq_some_iff.mp h
    exact .pollError polling threads hpoll hs
  | handleEvent =>
    simp only [step] at h
    obtain ⟨threads, hvisit, h⟩ := Option.bind_eq_some_iff.mp h
    obtain ⟨polling, hs, rfl⟩ := Option.map_eq_some_iff.mp h
    exact .handleEvent threads polling hvisit hs

theorem visit_cases {threads : LoopThreads F T} (h : s.visit wakeupChannel = some threads) :
    (s.polling.rest.head? = some wakeupChannel ∧ .readCallback ∈ s.polling.handled ∧
      s.threads.step (.control .handleRead) = some threads) ∨
    (¬ (s.polling.rest.head? = some wakeupChannel ∧ .readCallback ∈ s.polling.handled) ∧
      threads = s.threads) := by
  unfold visit at h
  split_ifs at h with hwakeup hcode
  · exact Or.inl ⟨hwakeup.1, hwakeup.2, h⟩
  · exact Or.inr ⟨hwakeup, (Option.some.inj h).symm⟩

/-! ## Runs of the two parts -/

def onThreads (Good : LoopThreads F T → LoopLabel F T → Prop) (s : Reactor F T P) :
    ReactorLabel F T P → Prop
  | .thread l => Good s.threads l
  | _ => True

/-- The loop and its threads run as they do by themselves. -/
theorem threads_reachable {Good : LoopThreads F T → LoopLabel F T → Prop}
    (hpoll : ∀ t b, Good t (.control (.pollReturn b)))
    (hread : ∀ t, Good t (.control .handleRead))
    (h : (system fd wakeupChannel).Reachable (onThreads Good) s) :
    (LoopThreads.system F T).Reachable Good s.threads := by
  induction h with
  | init h =>
    rw [h.1]
    exact .init LoopThreads.fresh_create
  | @step s l t _ hgood hstep ih =>
    cases steps_of_step hstep with
    | thread l threads hl hs => exact .step ih hgood hs
    | setCallback ptr cb polling hptr hcode hs | update ptr c polling hptr hcode hs
    | becomesReady f polling hf hs | becomesIdle f polling hf hs => exact ih
    | poll revents polling threads hrevents hpolled hs => exact .step ih (hpoll _ _) hs
    | pollError polling threads hpolled hs => exact .step ih (hpoll _ _) hs
    | handleEvent threads polling hvisit hs =>
      rcases visit_cases hvisit with ⟨_, _, hthreads⟩ | ⟨_, rfl⟩
      · exact .step ih (hread _) hthreads
      · exact ih

theorem settle_reachable {p : PollingLoop P} {f : ℤ} {counter : ℕ}
    (h : (PollingLoop.system fd).Reachable TransitionSystem.AnyStep p) :
    (PollingLoop.system fd).Reachable TransitionSystem.AnyStep (p.settle f counter) := by
  rcases p.settle_cases f counter with heq | ⟨l, hl⟩
  · rwa [heq]
  · exact .step h trivial hl

/-- So do the poller and the kernel. -/
theorem polling_reachable {Good : Reactor F T P → ReactorLabel F T P → Prop}
    (h : (system fd wakeupChannel).Reachable Good s) :
    (PollingLoop.system fd).Reachable TransitionSystem.AnyStep s.polling := by
  induction h with
  | init h =>
    exact TransitionSystem.reachable_of_replay (fun _ _ _ h => ⟨trivial, h⟩) (.init rfl) h.2
  | @step s l t _ _ hstep ih =>
    cases steps_of_step hstep with
    | thread l threads hl hs => exact settle_reachable ih
    | setCallback ptr cb polling hptr hcode hs => exact .step ih trivial hs
    | update ptr c polling hptr hcode hs => exact .step ih trivial hs
    | becomesReady f polling hf hs => exact .step ih trivial hs
    | becomesIdle f polling hf hs => exact .step ih trivial hs
    | poll revents polling threads hrevents hpolled hs => exact .step ih trivial hpolled
    | pollError polling threads hpolled hs => exact .step ih trivial hpolled
    | handleEvent threads polling hvisit hs => exact settle_reachable (.step ih trivial hs)

/-! ## How the parts stand to each other -/

/-- The loop is in its walk exactly while it dispatches, and knows whether
`wakeupChannel_` is still to come. -/
def Walks (wakeupChannel : P) (phase : LoopPhase F) (rest : List P) : Prop :=
  match phase with
  | .dispatch wakeup => wakeup = true ↔ wakeupChannel ∈ rest
  | _ => rest = []

structure Tied (fd : P → ℤ) (wakeupChannel : P) (s : Reactor F T P) : Prop where
  watched : s.polling.watched (fd wakeupChannel) = some ⟨Channel.kReadEvent, wakeupChannel⟩
  ready : fd wakeupChannel ∈ s.polling.ready ↔ s.threads.loop.wakeupFd_ ≠ 0
  nodup : s.polling.rest.Nodup
  walks : Walks wakeupChannel s.threads.loop.phase s.polling.rest
  revents : wakeupChannel ∈ s.polling.rest →
    (s.polling.channel wakeupChannel).revents_ = EPOLLIN
  isSet : (s.polling.channel wakeupChannel).isSet .readCallback = true

omit [DecidableEq P] in
theorem walks_thread {l : LoopLabel F T} {threads : LoopThreads F T} (hl : s.allows l = true)
    (hs : s.threads.step l = some threads)
    (h : Walks wakeupChannel s.threads.loop.phase s.polling.rest) :
    Walks wakeupChannel threads.loop.phase s.polling.rest := by
  cases LoopThreads.steps_of_step hs with
  | push t cb hc | quit t hc | wakeup t hc | ownPush cb hr ho | ownWakeup ho | ownQuit hr ho =>
    simpa using h
  | control c loop ho ha =>
    cases ha with
    | pollReturn b hp hb => cases hl
    | handleRead hp => cases hl
    | endDispatch hp => simpa [allows, Walks] using hl
    | enter hp | leave hp hq | again hp hq | swap hp | runNext ran cb todo hp
    | endBody ran cb todo hp | endBatch ran hp | release ran hp =>
      rw [hp] at h
      exact h

omit [DecidableEq T] in
theorem tied_init (h : Init fd wakeupChannel s) : Tied fd wakeupChannel s := by
  obtain ⟨threads, polling⟩ := s
  obtain ⟨rfl, hpolling⟩ := h
  simp only [construction, TransitionSystem.replay, PollingLoop.next, PollingLoop.call,
    PollingLoop.create, LoopChannels.create, LoopChannels.setCallback, LoopChannels.call,
    LoopChannels.store, EPollPoller.create, EPollPoller.updateChannel, EPollPoller.update,
    EPollPoller.epollCtl, Channel.create, Channel.setCallback, Channel.setReadCallback,
    Channel.setInterest, reduceCtorEq, ↓reduceIte, Option.map_map, Option.bind_fun_some,
    Option.bind_some, List.filter_nil, Function.update_self, or_false, BitVec.zero_or,
    Option.isSome_none, Option.map_some, Function.comp_apply, Function.update_idem, Bool.or_self,
    Option.some.injEq] at hpolling
  subst hpolling
  exact {
    watched := by simp [PollingLoop.watched]
    ready := by simp [LoopThreads.create, EventLoop.create]
    nodup := List.nodup_nil
    walks := rfl
    revents := fun hmem => by cases hmem
    isSet := by simp [PollingLoop.channel, Channel.isSet] }

omit [DecidableEq P] in
theorem Tied.thread (h : Tied fd wakeupChannel s) (hinv : PollingLoop.Inv fd s.polling)
    {l : LoopLabel F T} {threads : LoopThreads F T} (hl : s.allows l = true)
    (hs : s.threads.step l = some threads) :
    Tied fd wakeupChannel
      ⟨threads, s.polling.settle (fd wakeupChannel) threads.loop.wakeupFd_⟩ where
  watched := by
    rw [PollingLoop.settle_watched]
    exact h.watched
  ready := PollingLoop.mem_settle hinv.nodup (by simp [h.watched])
  nodup := by
    rw [PollingLoop.settle_rest]
    exact h.nodup
  walks := by
    rw [PollingLoop.settle_rest]
    exact walks_thread hl hs h.walks
  revents := by
    rw [PollingLoop.settle_rest, PollingLoop.settle_channel]
    exact h.revents
  isSet := by
    rw [PollingLoop.settle_channel]
    exact h.isSet

omit [DecidableEq T] in
theorem Tied.setCallback (h : Tied fd wakeupChannel s) {ptr : P} {cb : EventCallback}
    {polling : PollingLoop P} (hptr : ptr ≠ wakeupChannel)
    (hs : s.polling.next (.setCallback ptr cb) = some polling) :
    Tied fd wakeupChannel { s with polling := polling } := by
  cases hs
  have hsame : (s.polling.channels.setCallback ptr cb).channel wakeupChannel =
      s.polling.channel wakeupChannel := LoopChannels.setCallback_of_ne _ _ (Ne.symm hptr)
  exact { h with
    revents := fun hmem => (congrArg Channel.revents_ hsame).trans (h.revents hmem)
    isSet := (congrArg (Channel.isSet · .readCallback) hsame).trans h.isSet }

omit [DecidableEq T] in
theorem Tied.update (h : Tied fd wakeupChannel s) (hinv : PollingLoop.Inv fd s.polling)
    (hfd : Function.Injective fd) {ptr : P} {c : ChannelCall} {polling : PollingLoop P}
    (hptr : ptr ≠ wakeupChannel) (hs : s.polling.next (.call ptr c) = some polling) :
    Tied fd wakeupChannel { s with polling := polling } := by
  obtain ⟨_, hrest, hrevents⟩ := hinv.call hfd hs
  obtain ⟨channels, hcall, rfl⟩ := Option.map_eq_some_iff.mp hs
  have hframe := (hinv.channels.called hfd hcall).frame (fd wakeupChannel)
    (fun heq => hptr (hfd heq).symm)
  have hwatched : channels.poller.interest (fd wakeupChannel) =
      some ⟨Channel.kReadEvent, wakeupChannel⟩ := hframe.2.trans h.watched
  exact {
    watched := hwatched
    ready := by simpa [List.mem_filter, hwatched] using h.ready
    nodup := h.nodup
    walks := h.walks
    revents := fun hmem => (hrevents wakeupChannel).trans (h.revents hmem)
    isSet := by
      rw [PollingLoop.channel, LoopChannels.call_channel_of_ne hcall (Ne.symm hptr)]
      exact h.isSet }

omit [DecidableEq T] in
theorem Tied.becomesReady (h : Tied fd wakeupChannel s) {f : ℤ} {polling : PollingLoop P}
    (hf : f ≠ fd wakeupChannel) (hs : s.polling.next (.becomesReady f) = some polling) :
    Tied fd wakeupChannel { s with polling := polling } := by
  simp only [PollingLoop.next] at hs
  split_ifs at hs
  cases hs
  exact { h with ready := by simpa [Ne.symm hf] using h.ready }

omit [DecidableEq T] in
theorem Tied.becomesIdle (h : Tied fd wakeupChannel s) {f : ℤ} {polling : PollingLoop P}
    (hf : f ≠ fd wakeupChannel) (hs : s.polling.next (.becomesIdle f) = some polling) :
    Tied fd wakeupChannel { s with polling := polling } := by
  simp only [PollingLoop.next] at hs
  split_ifs at hs
  cases hs
  exact { h with ready := (List.mem_erase_of_ne (Ne.symm hf)).trans h.ready }

theorem Tied.poll (h : Tied fd wakeupChannel s) (hinv : PollingLoop.Inv fd s.polling)
    {revents : ℤ → Events} {polling : PollingLoop P} {threads : LoopThreads F T}
    (hrevents : revents (fd wakeupChannel) = EPOLLIN)
    (hpoll : s.polling.next (.poll revents) = some polling)
    (hs : s.threads.step (.control (.pollReturn (wakeupChannel ∈ polling.activeChannels_))) =
      some threads) : Tied fd wakeupChannel ⟨threads, polling⟩ := by
  simp only [PollingLoop.next] at hpoll
  split_ifs at hpoll
  obtain ⟨reported, hp⟩ := PollingLoop.polled_of_poll hpoll
  obtain ⟨_, hnodup, hreported⟩ := hinv.of_polled hp
  cases LoopThreads.steps_of_step hs with
  | control c loop ho ha =>
    cases ha with
    | pollReturn b hphase hb =>
      refine ⟨?_, ?_, by rwa [hp.rest], ?_, ?_, ?_⟩
      · rw [PollingLoop.watched, hp.channels]
        exact h.watched
      · rw [hp.ready, ServiceQueue.mem_serve]
        exact h.ready
      · rw [hp.rest]
        simp [Walks]
      · rw [hp.rest, hp.activeChannels]
        intro hmem
        obtain ⟨e, he, hptr⟩ := List.mem_map.mp hmem
        rw [hp.activeChannels] at hnodup
        have hchannel : polling.channel e.ptr =
            reported.foldl PollingLoop.set_revents s.polling.channel e.ptr := by
          rw [PollingLoop.channel, hp.channels]
        have hevents := (hreported e he).2.1
        rw [← hptr, hchannel, PollingLoop.foldl_set_revents hnodup he]
        rw [hptr, hrevents] at hevents
        exact hevents
      · obtain ⟨_, hsame⟩ :=
          PollingLoop.foldl_set_revents_frame reported s.polling.channel wakeupChannel
        rw [PollingLoop.channel, hp.channels]
        exact (congrArg (Channel.isSet · .readCallback) hsame).trans h.isSet

theorem Tied.pollError (h : Tied fd wakeupChannel s) {polling : PollingLoop P}
    {threads : LoopThreads F T} (hpoll : s.polling.next .pollError = some polling)
    (hs : s.threads.step (.control (.pollReturn false)) = some threads) :
    Tied fd wakeupChannel ⟨threads, polling⟩ := by
  simp only [PollingLoop.next] at hpoll
  split_ifs at hpoll with hrest
  cases hpoll
  cases LoopThreads.steps_of_step hs with
  | control c loop ho ha =>
    cases ha with
    | pollReturn b hphase hb =>
      exact ⟨h.watched, h.ready, h.nodup, by simp [Walks, hrest], h.revents, h.isSet⟩

omit [DecidableEq T] [DecidableEq P] in
/-- The visit that comes to `wakeupChannel_` drains the counter. -/
theorem Tied.handled (h : Tied fd wakeupChannel s)
    (hhead : s.polling.rest.head? = some wakeupChannel) :
    .readCallback ∈ s.polling.handled := by
  obtain ⟨rest, hrest⟩ := List.head?_eq_some_iff.mp hhead
  have hrevents := h.revents (by simp [hrest])
  simp only [PollingLoop.handled, hrest, Channel.mem_handleEventWithGuard, hrevents, h.isSet]
  decide

theorem Tied.handleEvent (h : Tied fd wakeupChannel s) (hinv : PollingLoop.Inv fd s.polling)
    {polling : PollingLoop P} {threads : LoopThreads F T}
    (hvisit : s.visit wakeupChannel = some threads)
    (hs : s.polling.next .handleEvent = some polling) :
    Tied fd wakeupChannel
      ⟨threads, polling.settle (fd wakeupChannel) threads.loop.wakeupFd_⟩ := by
  simp only [PollingLoop.next] at hs
  split at hs
  · cases hs
  · rename_i ptr rest hrest
    cases hs
    have hnodup := h.nodup
    rw [hrest, List.nodup_cons] at hnodup
    have hwalks := h.walks
    rw [hrest] at hwalks
    refine ⟨?_, ?_, ?_, ?_, ?_, ?_⟩
    · rw [PollingLoop.settle_watched]
      exact h.watched
    · exact PollingLoop.mem_settle hinv.nodup (by
        rw [PollingLoop.watched]
        exact Option.isSome_iff_exists.mpr ⟨_, h.watched⟩)
    · rw [PollingLoop.settle_rest]
      exact hnodup.2
    · rw [PollingLoop.settle_rest]
      rcases visit_cases hvisit with ⟨hhead, _, hthreads⟩ | ⟨hnot, rfl⟩
      · cases LoopThreads.steps_of_step hthreads with
        | control c loop ho ha =>
          cases ha with
          | handleRead hp =>
            obtain rfl : ptr = wakeupChannel := by simpa [hrest] using hhead
            simpa [Walks] using hnodup.1
      · have hne : wakeupChannel ≠ ptr := by
          rintro rfl
          have hhead : s.polling.rest.head? = some wakeupChannel := by simp [hrest]
          exact hnot ⟨hhead, h.handled hhead⟩
        cases hphase : s.threads.loop.phase with
        | dispatch b => simpa [Walks, hphase, hne] using hwalks
        | outside | test | poll | swap | batch | body | release =>
          simp [Walks, hphase] at hwalks
    · rw [PollingLoop.settle_rest, PollingLoop.settle_channel]
      exact fun hmem => h.revents (by rw [hrest]; exact List.mem_cons_of_mem _ hmem)
    · rw [PollingLoop.settle_channel]
      exact h.isSet

theorem tied_of_reachable (hfd : Function.Injective fd)
    {Good : Reactor F T P → ReactorLabel F T P → Prop}
    (h : (system fd wakeupChannel).Reachable Good s) :
    PollingLoop.Inv fd s.polling ∧ Tied fd wakeupChannel s := by
  refine ⟨PollingLoop.inv_of_reachable hfd (polling_reachable h), ?_⟩
  induction h with
  | init h => exact tied_init h
  | @step s l t hreach _ hstep ih =>
    have hinv := PollingLoop.inv_of_reachable hfd (polling_reachable hreach)
    cases steps_of_step hstep with
    | thread l threads hl hs => exact ih.thread hinv hl hs
    | setCallback ptr cb polling hptr hcode hs => exact ih.setCallback hptr hs
    | update ptr c polling hptr hcode hs => exact ih.update hinv hfd hptr hs
    | becomesReady f polling hf hs => exact ih.becomesReady hf hs
    | becomesIdle f polling hf hs => exact ih.becomesIdle hf hs
    | poll revents polling threads hrevents hpolled hs => exact ih.poll hinv hrevents hpolled hs
    | pollError polling threads hpolled hs => exact ih.pollError hpolled hs
    | handleEvent threads polling hvisit hs => exact ih.handleEvent hinv hvisit hs

/-- A run of the whole loop is a run of the loop with its threads and a run of
the poller with the kernel. Throughout, the wakeup descriptor is watched for
reading, it is ready exactly while its counter is positive, and its channel is
still to be visited exactly where the loop has been told so. -/
theorem whole_loop_refines_parts (fd : P → ℤ) (hfd : Function.Injective fd) (wakeupChannel : P)
    (s : Reactor F T P) (h : (system fd wakeupChannel).Reachable TransitionSystem.AnyStep s) :
    (LoopThreads.system F T).Reachable TransitionSystem.AnyStep s.threads ∧
      (PollingLoop.system fd).Reachable TransitionSystem.AnyStep s.polling ∧
      s.polling.watched (fd wakeupChannel) = some ⟨Channel.kReadEvent, wakeupChannel⟩ ∧
      (fd wakeupChannel ∈ s.polling.ready ↔ s.threads.loop.wakeupFd_ ≠ 0) ∧
      (wakeupChannel ∈ s.polling.rest ↔ s.threads.loop.phase = .dispatch true) := by
  obtain ⟨_, htied⟩ := tied_of_reachable hfd h
  have hthreads : (LoopThreads.system F T).Reachable TransitionSystem.AnyStep s.threads := by
    apply threads_reachable (fun _ _ => trivial) (fun _ => trivial)
    refine h.mono ?_
    intro _ l _
    cases l <;> trivial
  refine ⟨hthreads, polling_reachable h, htied.watched, htied.ready, ?_⟩
  have hwalks := htied.walks
  cases hphase : s.threads.loop.phase with
  | dispatch wakeup =>
    rw [hphase] at hwalks
    have hflag : wakeup = true ↔ wakeupChannel ∈ s.polling.rest := hwalks
    rw [LoopPhase.dispatch.injEq, hflag]
  | outside | test | poll | swap | batch | body | release =>
    have hrest : s.polling.rest = [] := by simpa [Walks, hphase] using hwalks
    simp [hrest]

/-- Another thread's wakeup finds the loop before its first poll. -/
theorem whole_loop_refines_parts_waking : ∃ s : Reactor ℕ Bool ℕ,
    s.threads.loop.wakeupFd_ = 1 ∧ (3 : ℤ) ∈ s.polling.ready := by
  obtain ⟨p, hp⟩ : ∃ p, TransitionSystem.replay PollingLoop.next
      (PollingLoop.create fun n : ℕ => (n : ℤ)) (construction 3) = some p := ⟨_, rfl⟩
  obtain ⟨s, hs, hcounter⟩ : ∃ s : Reactor ℕ Bool ℕ,
      TransitionSystem.replay (step (fun n : ℕ => (n : ℤ)) 3) ⟨.create, p⟩
        [.thread (.control .enter), .thread (.push true 1), .thread (.wakeup true)] = some s ∧
      s.threads.loop.wakeupFd_ = 1 := by
    cases hp
    exact ⟨_, rfl, rfl⟩
  have hreach : (system (fun n : ℕ => (n : ℤ)) 3).Reachable TransitionSystem.AnyStep s :=
    TransitionSystem.reachable_of_replay (fun _ _ _ h => ⟨trivial, h⟩) (.init ⟨rfl, hp⟩) hs
  obtain ⟨_, _, _, hready, _⟩ := whole_loop_refines_parts (fun n : ℕ => (n : ℤ))
    Int.ofNat_injective 3 s hreach
  exact ⟨s, hcounter, hready.mpr (by simp [hcounter])⟩

end Reactor
end MuduoCore
