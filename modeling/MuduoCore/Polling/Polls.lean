import MuduoCore.Foundation.ServiceQueue
import MuduoCore.Foundation.TransitionSystem
import MuduoCore.Polling.NoInterest

/-!
# Polling and dispatch

`EPollPoller::poll` with its event list, over all channels of one loop, and the
walk of `EventLoop::loop` over `activeChannels_`. The kernel keeps the ready
descriptors in a queue: `epoll_wait` reports from its front, and what it has
reported goes to the back, since the poller asks level-triggered. A refused
step is one that the kernel or the loop does not take, or one that follows a
pointer it must not follow.
-/

namespace MuduoCore

variable {P : Type*}

/-! ## What a call to a channel changes -/

theorem Channel.setInterest_revents (c : Channel) (i : InterestChange) :
    (c.setInterest i).revents_ = c.revents_ := by cases i <;> rfl

namespace LoopChannels

def interestAfter (channel : Channel) : ChannelCall → Events
  | .change c => (channel.setInterest c).events_
  | .remove => channel.events_

structure Called (fd : P → ℤ) (s : LoopChannels P) (ptr : P) (c : ChannelCall)
    (s' : LoopChannels P) : Prop where
  inv : Inv fd s'
  frame : EPollPoller.SameExcept (fd ptr) s.poller s'.poller
  others : ∀ other ≠ ptr, s'.channel other = s.channel other
  revents : (s'.channel ptr).revents_ = (s.channel ptr).revents_
  events : (s'.channel ptr).events_ = interestAfter (s.channel ptr) c

section

variable [DecidableEq P]

def setCallback (s : LoopChannels P) (ptr : P) (cb : EventCallback) : LoopChannels P :=
  { s with channel := Function.update s.channel ptr ((s.channel ptr).setCallback cb) }

theorem setCallback_self (s : LoopChannels P) (ptr : P) (cb : EventCallback) :
    (s.setCallback ptr cb).channel ptr = (s.channel ptr).setCallback cb := Function.update_self ..

theorem setCallback_of_ne (s : LoopChannels P) (cb : EventCallback) {ptr other : P}
    (h : other ≠ ptr) : (s.setCallback ptr cb).channel other = s.channel other :=
  Function.update_of_ne h _ _

theorem setCallback_frame (s : LoopChannels P) (ptr : P) (cb : EventCallback) (other : P) :
    ((s.setCallback ptr cb).channel other).fd_ = (s.channel other).fd_ ∧
      ((s.setCallback ptr cb).channel other).events_ = (s.channel other).events_ ∧
      ((s.setCallback ptr cb).channel other).index_ = (s.channel other).index_ ∧
      ((s.setCallback ptr cb).channel other).revents_ = (s.channel other).revents_ := by
  by_cases hp : other = ptr
  · subst hp
    simp [setCallback_self]
  · simp [setCallback_of_ne s cb hp]

theorem Inv.setCallback {fd : P → ℤ} {s : LoopChannels P} (h : Inv fd s) (ptr : P)
    (cb : EventCallback) : Inv fd (s.setCallback ptr cb) := by
  have hframe := setCallback_frame s ptr cb
  refine ⟨fun other => (hframe other).1.trans (h.fd_eq other), h.errors, fun other => ?_⟩
  have hag := h.agrees other
  obtain ⟨hfd, hevents, hindex, -⟩ := hframe other
  change s.poller.Agrees other _
  simpa only [EPollPoller.Agrees, hfd, hevents, hindex] using hag

end

theorem Inv.called [DecidableEq P] {fd : P → ℤ} {s s' : LoopChannels P} {ptr : P}
    {c : ChannelCall} (h : Inv fd s) (hfd : Function.Injective fd)
    (hcall : s.call ptr c = some s') : Called fd s ptr c s' := by
  have hinv : Inv fd s' := by
    obtain ⟨t, ht, hinv⟩ := h.call hfd ptr c
    rw [hcall, Option.some.injEq] at ht
    rwa [ht]
  have hothers : ∀ other ≠ ptr, s'.channel other = s.channel other :=
    fun other hne => call_channel_of_ne hcall hne
  have htracks := (h.agrees ptr).tracks
  cases c with
  | change c =>
    obtain ⟨p', channel', hu⟩ := (htracks.setInterest c).updateChannel
    have hs : s.store ptr (p', channel', false) = s' := by
      simpa [LoopChannels.call, hu.run] using hcall
    have hframe := hu.frame
    rw [Channel.setInterest_fd, h.fd_eq] at hframe
    have hrev := hu.revents.trans ((s.channel ptr).setInterest_revents c)
    subst hs
    refine ⟨hinv, hframe, hothers, by rwa [store_channel_self], ?_⟩
    rw [store_channel_self]
    exact hu.events
  | remove =>
    obtain ⟨p', hrun, _, hframe⟩ := htracks.removeChannel
    have hs : s.store ptr (p', { s.channel ptr with index_ := .kNew }, false) = s' := by
      simpa [LoopChannels.call, hrun] using hcall
    rw [h.fd_eq] at hframe
    subst hs
    exact ⟨hinv, hframe, hothers, by rw [store_channel_self], by rw [store_channel_self]; rfl⟩

end LoopChannels

/-! ## The poller and its loop -/

/-- Where the kernel watches for `events`, it may report these, an error, and a hangup. -/
def EpollEvent.MayReport (e : EpollEvent P) (revents : Events) : Prop :=
  revents ≠ 0#32 ∧ revents &&& ~~~(e.events ||| EPOLLERR ||| EPOLLHUP) = 0#32

instance (e : EpollEvent P) (revents : Events) : Decidable (e.MayReport revents) :=
  inferInstanceAs (Decidable (_ ∧ _))

/-- The vector `events_`. Until the kernel writes an entry, its `data.ptr` is null. -/
abbrev EventList (P : Type*) := List (EpollEvent (Option P))

namespace EventList

def kInitEventListSize : ℕ := 16

def resize (events : EventList P) (size : ℕ) : EventList P :=
  events.take size ++ List.replicate (size - events.length) ⟨0#32, none⟩

def create : EventList P := resize [] kInitEventListSize

@[simp] theorem length_resize (events : EventList P) (size : ℕ) :
    (events.resize size).length = size := by
  simp only [resize, List.length_append, List.length_take, List.length_replicate]
  omega

end EventList

/-- The loop's channels, its lists, and the kernel's queue. -/
structure PollingLoop (P : Type*) where
  channels : LoopChannels P
  events_ : EventList P
  activeChannels_ : List P
  /-- those of `activeChannels_` that `loop()` has still to visit -/
  rest : List P
  ready : List ℤ
  /-- the polls that have filled `events_` -/
  fullPolls : ℕ

inductive PollLabel (P : Type*)
  | setCallback (ptr : P) (cb : EventCallback)
  /-- a handler or a functor changes the interest of a channel, or removes it -/
  | call (ptr : P) (c : ChannelCall)
  /-- the kernel finds events on a descriptor it watches, or finds them gone -/
  | becomesReady (fd : ℤ)
  | becomesIdle (fd : ℤ)
  | poll (revents : ℤ → Events)
  /-- `epoll_wait` fails, with `EINTR` or otherwise -/
  | pollError
  | handleEvent

def PollLabel.polls : PollLabel P → Bool
  | .poll _ | .pollError => true
  | _ => false

namespace PollingLoop

def create (fd : P → ℤ) : PollingLoop P := ⟨.create fd, .create, [], [], [], 0⟩

def channel (s : PollingLoop P) (ptr : P) : Channel := s.channels.channel ptr

/-- The entry of the interest set, if the kernel watches the descriptor. -/
def watched (s : PollingLoop P) (fd : ℤ) : Option (EpollEvent P) := s.channels.poller.interest fd

/-- What the kernel writes for a ready descriptor with these events. -/
def report (s : PollingLoop P) (revents : ℤ → Events) (fd : ℤ) : Option (EpollEvent P) :=
  (s.watched fd).bind fun e =>
    if e.MayReport (revents fd) then some ⟨revents fd, e.ptr⟩ else none

def epollWait (s : PollingLoop P) (maxevents : ℕ) (revents : ℤ → Events) :
    Option (List (EpollEvent P)) :=
  (s.ready.take maxevents).mapM (s.report revents)

/-- A poll will find at least as many descriptors ready as `events_` has entries. -/
def Full (s : PollingLoop P) : Prop := 0 < s.events_.length ∧ s.events_.length ≤ s.ready.length

instance (s : PollingLoop P) : Decidable s.Full := inferInstanceAs (Decidable (_ ∧ _))

def entry (e : EpollEvent P) : EpollEvent (Option P) := ⟨e.events, some e.ptr⟩

section

variable [DecidableEq P]

def set_revents (channel : P → Channel) (e : EpollEvent P) : P → Channel :=
  Function.update channel e.ptr { channel e.ptr with revents_ := e.events }

/-- The loop of `fillActiveChannels`, from index `i` on, with `n` rounds to go. -/
def fillActiveChannels (events : EventList P) (i : ℕ) :
    ℕ → (P → Channel) → List P → Option ((P → Channel) × List P)
  | 0, channel, activeChannels => some (channel, activeChannels)
  | n + 1, channel, activeChannels =>
    match events[i]? with
    | some ⟨revents, some ptr⟩ =>
      fillActiveChannels events (i + 1) n (set_revents channel ⟨revents, ptr⟩)
        (activeChannels ++ [ptr])
    | _ => none

/-- `activeChannels_.clear()`, then `poll` with a result that is not negative. -/
def poll (s : PollingLoop P) (revents : ℤ → Events) : Option (PollingLoop P) :=
  (s.epollWait s.events_.length revents).bind fun reported =>
    let numEvents := reported.length
    let events : EventList P := reported.map entry ++ s.events_.drop numEvents
    let full := 0 < numEvents ∧ numEvents = events.length
    (fillActiveChannels events 0 numEvents s.channel []).map fun r =>
      { channels := { s.channels with channel := r.1 }
        events_ := if full then events.resize (events.length * 2) else events
        activeChannels_ := r.2
        rest := r.2
        ready := ServiceQueue.serve s.ready s.events_.length
        fullPolls := s.fullPolls + if full then 1 else 0 }

/-- `epoll_ctl` takes a descriptor it no longer watches out of the queue. -/
def call (s : PollingLoop P) (ptr : P) (c : ChannelCall) : Option (PollingLoop P) :=
  (s.channels.call ptr c).map fun channels =>
    { s with
      channels := channels
      ready := s.ready.filter fun fd => (channels.poller.interest fd).isSome }

def next (s : PollingLoop P) : PollLabel P → Option (PollingLoop P)
  | .setCallback ptr cb => some { s with channels := s.channels.setCallback ptr cb }
  | .call ptr c => s.call ptr c
  | .becomesReady fd =>
    if (s.watched fd).isSome ∧ fd ∉ s.ready then some { s with ready := s.ready ++ [fd] }
    else none
  | .becomesIdle fd => if fd ∈ s.ready then some { s with ready := s.ready.erase fd } else none
  | .poll revents => if s.rest = [] then s.poll revents else none
  | .pollError => if s.rest = [] then some { s with activeChannels_ := [] } else none
  | .handleEvent =>
    match s.rest with
    | [] => none
    | _ :: rest => some { s with rest := rest }

def handled (s : PollingLoop P) : List EventCallback :=
  match s.rest with
  | [] => []
  | ptr :: _ => (s.channel ptr).handleEventWithGuard

def system (fd : P → ℤ) : TransitionSystem (PollingLoop P) (PollLabel P) where
  Init s := s = create fd
  Step s l s' := s.next l = some s'

end

variable {s s' : PollingLoop P} {fd : P → ℤ} {revents : ℤ → Events}

/-! ## The invariant -/

def interests : Events := Channel.kReadEvent ||| Channel.kWriteEvent

structure Inv (fd : P → ℤ) (s : PollingLoop P) : Prop where
  channels : LoopChannels.Inv fd s.channels
  owned : ∀ f, (s.watched f).isSome = true → ∃ ptr, fd ptr = f
  interest : ∀ ptr, (s.channel ptr).events_ &&& ~~~interests = 0#32
  nodup : s.ready.Nodup
  ready : ∀ f ∈ s.ready, (s.watched f).isSome = true
  size : s.events_.length = EventList.kInitEventListSize * 2 ^ s.fullPolls
  walk : s.rest <:+ s.activeChannels_

theorem inv_create (fd : P → ℤ) : Inv fd (create fd) where
  channels := LoopChannels.inv_create fd
  owned f h := by simp [watched, create, LoopChannels.create, EPollPoller.create] at h
  interest ptr := by simp [channel, create, LoopChannels.create, Channel.create]
  nodup := List.nodup_nil
  ready f h := by cases h
  size := by simp [create, EventList.create]
  walk := List.suffix_rfl

theorem Inv.size_pos (h : Inv fd s) : 0 < s.events_.length := by
  rw [h.size]
  exact Nat.mul_pos (by decide) (Nat.two_pow_pos _)

theorem Inv.of_watched (h : Inv fd s) {f : ℤ} {e : EpollEvent P} (hw : s.watched f = some e) :
    f = fd e.ptr ∧ (s.channel e.ptr).index_ = .kAdded ∧ e.events = (s.channel e.ptr).events_ := by
  obtain ⟨ptr, rfl⟩ := h.owned f (by simp [hw])
  have hag := h.channels.agrees ptr
  simp only [EPollPoller.Agrees, h.channels.fd_eq] at hag
  rw [watched] at hw
  cases hi : (s.channels.channel ptr).index_ <;> simp only [hi, hw, reduceCtorEq] at hag
  · exact absurd hag.2 (by simp)
  · obtain rfl := Option.some.inj hag.2
    exact ⟨rfl, hi, rfl⟩
  · exact absurd hag.2.1 (by simp)

/-! ## One poll -/

theorem of_report {f : ℤ} {e : EpollEvent P} (h : s.report revents f = some e) :
    ∃ mask, s.watched f = some ⟨mask, e.ptr⟩ ∧ e.events = revents f ∧
      EpollEvent.MayReport (⟨mask, e.ptr⟩ : EpollEvent P) (revents f) := by
  simp only [report, Option.bind_eq_some_iff] at h
  obtain ⟨⟨mask, ptr⟩, hw, h⟩ := h
  split_ifs at h with hmay
  cases h
  exact ⟨mask, hw, rfl, hmay⟩

theorem forall₂_of_mapM {α β : Type*} {f : α → Option β} {as : List α} {bs : List β}
    (h : as.mapM f = some bs) : List.Forall₂ (fun a b => f a = some b) as bs := by
  induction as generalizing bs with
  | nil =>
    simp only [List.mapM_nil, Option.pure_def, Option.some.injEq] at h
    exact h ▸ .nil
  | cons a as ih =>
    simp only [List.mapM_cons, Option.pure_def, Option.bind_eq_bind, Option.bind_eq_some_iff,
      Option.some.injEq] at h
    obtain ⟨b, hb, bs, hbs, rfl⟩ := h
    exact .cons hb (ih hbs)

theorem forall₂_of_epollWait {maxevents : ℕ} {reported : List (EpollEvent P)}
    (h : s.epollWait maxevents revents = some reported) :
    List.Forall₂ (fun f e => s.report revents f = some e) (s.ready.take maxevents) reported :=
  forall₂_of_mapM h

theorem length_reported {maxevents : ℕ} {reported : List (EpollEvent P)}
    (h : s.epollWait maxevents revents = some reported) :
    reported.length = min maxevents s.ready.length := by
  rw [← (forall₂_of_epollWait h).length_eq, List.length_take]

theorem exists_of_mem_reported {fs : List ℤ} {reported : List (EpollEvent P)}
    (hr : List.Forall₂ (fun f e => s.report revents f = some e) fs reported) {e : EpollEvent P}
    (he : e ∈ reported) : ∃ f, s.report revents f = some e := by
  induction hr with
  | nil => cases he
  | @cons f e' fs reported hf _ ih =>
    rcases List.mem_cons.mp he with rfl | he
    · exact ⟨f, hf⟩
    · exact ih he

theorem Inv.map_reported (h : Inv fd s) {fs : List ℤ} {reported : List (EpollEvent P)}
    (hr : List.Forall₂ (fun f e => s.report revents f = some e) fs reported) :
    (reported.map EpollEvent.ptr).map fd = fs := by
  induction hr with
  | nil => rfl
  | cons hf _ ih =>
    obtain ⟨mask, hw, _, _⟩ := of_report hf
    have hfd := (h.of_watched hw).1
    simp only [List.map_cons, ih, hfd]

variable [DecidableEq P]

theorem set_revents_of_ne {channel : P → Channel} {e : EpollEvent P} {ptr : P}
    (h : ptr ≠ e.ptr) : set_revents channel e ptr = channel ptr :=
  Function.update_of_ne h _ _

theorem foldl_set_revents_of_notMem {reported : List (EpollEvent P)} {ptr : P}
    (h : ptr ∉ reported.map EpollEvent.ptr) (channel : P → Channel) :
    reported.foldl set_revents channel ptr = channel ptr := by
  induction reported generalizing channel with
  | nil => rfl
  | cons e reported ih =>
    simp only [List.map_cons, List.mem_cons, not_or] at h
    rw [List.foldl_cons, ih h.2, set_revents_of_ne h.1]

theorem foldl_set_revents_frame (reported : List (EpollEvent P)) (channel : P → Channel)
    (ptr : P) : ∃ revents, reported.foldl set_revents channel ptr =
      { channel ptr with revents_ := revents } := by
  induction reported generalizing channel with
  | nil => exact ⟨(channel ptr).revents_, rfl⟩
  | cons e reported ih =>
    rw [List.foldl_cons]
    obtain ⟨revents, hsame⟩ := ih (set_revents channel e)
    refine ⟨revents, hsame.trans ?_⟩
    by_cases hp : ptr = e.ptr
    · subst hp
      simp [set_revents]
    · rw [set_revents_of_ne hp]

theorem foldl_set_revents {reported : List (EpollEvent P)}
    (hnodup : (reported.map EpollEvent.ptr).Nodup) {e : EpollEvent P} (he : e ∈ reported)
    (channel : P → Channel) :
    reported.foldl set_revents channel e.ptr =
      { channel e.ptr with revents_ := e.events } := by
  induction reported generalizing channel with
  | nil => cases he
  | cons first reported ih =>
    rw [List.map_cons, List.nodup_cons] at hnodup
    rw [List.foldl_cons]
    rcases List.mem_cons.mp he with rfl | he
    · rw [foldl_set_revents_of_notMem hnodup.1]
      simp [set_revents]
    · have hne : e.ptr ≠ first.ptr := by
        intro heq
        exact hnodup.1 (heq ▸ List.mem_map_of_mem he)
      rw [ih hnodup.2 he, set_revents_of_ne hne]

/-- `fillActiveChannels` reads what the kernel has written, and nothing else. -/
theorem fillActiveChannels_eq {events tail : EventList P} {reported : List (EpollEvent P)} {i : ℕ}
    (h : events.drop i = reported.map entry ++ tail) (channel : P → Channel)
    (activeChannels : List P) :
    fillActiveChannels events i reported.length channel activeChannels =
      some (reported.foldl set_revents channel,
        activeChannels ++ reported.map EpollEvent.ptr) := by
  induction reported generalizing i channel activeChannels with
  | nil => simp [fillActiveChannels]
  | cons e reported ih =>
    have hget : events[i]? = some (entry e) := by
      rw [← List.head?_drop, h]
      rfl
    have hdrop : events.drop (i + 1) = reported.map entry ++ tail := by
      rw [← List.tail_drop, h]
      rfl
    rw [List.length_cons, fillActiveChannels, hget]
    simp only [entry, ih hdrop, List.foldl_cons, List.map_cons, List.append_assoc,
      List.singleton_append]

/-- What a poll does, where the kernel reports `reported`. -/
structure Polled (s : PollingLoop P) (revents : ℤ → Events) (reported : List (EpollEvent P))
    (s' : PollingLoop P) : Prop where
  reports : List.Forall₂ (fun f e => s.report revents f = some e)
    (s.ready.take s.events_.length) reported
  channels : s'.channels = { s.channels with channel := reported.foldl set_revents s.channel }
  activeChannels : s'.activeChannels_ = reported.map EpollEvent.ptr
  rest : s'.rest = s'.activeChannels_
  ready : s'.ready = ServiceQueue.serve s.ready s.events_.length
  size : s'.events_.length = if s.Full then s.events_.length * 2 else s.events_.length
  fullPolls : s'.fullPolls = s.fullPolls + if s.Full then 1 else 0

/-- A poll never reads an entry that the kernel has not written. -/
theorem polled_of_poll (h : s.poll revents = some s') :
    ∃ reported, s.Polled revents reported s' := by
  simp only [poll, Option.bind_eq_some_iff] at h
  obtain ⟨reported, hwait, h⟩ := h
  have hlen := length_reported hwait
  have hlength : (reported.map entry ++ s.events_.drop reported.length).length =
      s.events_.length := by
    simp only [List.length_append, List.length_map, List.length_drop]
    omega
  have hfull : 0 < reported.length ∧ reported.length = s.events_.length ↔ s.Full := by
    unfold Full
    omega
  rw [fillActiveChannels_eq (i := 0) rfl, Option.map_some, Option.some.injEq] at h
  subst h
  constructor
  exact {
    reports := forall₂_of_epollWait hwait
    channels := rfl
    activeChannels := rfl
    rest := rfl
    ready := rfl
    size := by
      simp only [hlength, hfull]
      split_ifs
      · exact EventList.length_resize _ _
      · exact hlength
    fullPolls := by simp only [hlength, hfull] }

theorem Inv.of_polled (h : Inv fd s) {reported : List (EpollEvent P)}
    (hp : s.Polled revents reported s') :
    s'.activeChannels_.map fd = s.ready.take s.events_.length ∧ s'.activeChannels_.Nodup ∧
      ∀ e ∈ reported, (s.channel e.ptr).index_ = .kAdded ∧ e.events = revents (fd e.ptr) ∧
        EpollEvent.MayReport (⟨(s.channel e.ptr).events_, e.ptr⟩ : EpollEvent P) e.events := by
  have hmap := h.map_reported hp.reports
  rw [hp.activeChannels]
  refine ⟨hmap, ?_, ?_⟩
  · apply List.Nodup.of_map fd
    rw [hmap]
    exact h.nodup.sublist (List.take_sublist _ _)
  · intro e he
    obtain ⟨f, hf⟩ := exists_of_mem_reported hp.reports he
    obtain ⟨mask, hw, hev, hmay⟩ := of_report hf
    obtain ⟨hfd, hi, hmask⟩ := h.of_watched hw
    simp only at hmask
    rw [← hmask, hev, ← hfd]
    exact ⟨hi, rfl, hmay⟩

/-! ## Every step keeps the invariant -/

theorem and_not_interests_setInterest {c : Channel} (h : c.events_ &&& ~~~interests = 0#32)
    (i : InterestChange) : (c.setInterest i).events_ &&& ~~~interests = 0#32 := by
  have hbit : ∀ k (hk : k < 32), (c.events_[k] && !interests[k]) = false := by
    intro k hk
    have hk := congrArg (fun e : Events => e[k]) h
    simpa using hk
  ext k hk
  have hread : interests[k] = (Channel.kReadEvent[k] || Channel.kWriteEvent[k]) := by
    simp [interests]
  have hk := hbit k hk
  cases i <;> simp only [Channel.setInterest, BitVec.getElem_and, BitVec.getElem_or,
    BitVec.getElem_not, BitVec.getElem_zero, Channel.kNoneEvent] <;> grind

theorem Inv.call (h : Inv fd s) (hfd : Function.Injective fd) {ptr : P} {c : ChannelCall}
    (hcall : s.call ptr c = some s') :
    Inv fd s' ∧ s'.rest = s.rest ∧ ∀ other, (s'.channel other).revents_ =
      (s.channel other).revents_ := by
  simp only [PollingLoop.call, Option.map_eq_some_iff] at hcall
  obtain ⟨channels, hcall, rfl⟩ := hcall
  have hc := h.channels.called hfd hcall
  refine ⟨{ h with channels := hc.inv, owned := ?_, interest := ?_, nodup := ?_, ready := ?_ },
    rfl, ?_⟩
  · intro f hf
    by_cases hp : f = fd ptr
    · exact ⟨ptr, hp.symm⟩
    · apply h.owned f
      rw [watched, ← (hc.frame f hp).2]
      exact hf
  · intro other
    by_cases hp : other = ptr
    · subst hp
      rw [channel, hc.events]
      cases c with
      | change c => exact and_not_interests_setInterest (h.interest other) c
      | remove => exact h.interest other
    · rw [channel, hc.others other hp]
      exact h.interest other
  · exact h.nodup.filter _
  · intro f hf
    exact (List.mem_filter.mp hf).2
  · intro other
    by_cases hp : other = ptr
    · rw [hp]
      exact hc.revents
    · exact congrArg Channel.revents_ (hc.others other hp)

theorem Inv.poll (h : Inv fd s) (hp : s.poll revents = some s') : Inv fd s' := by
  obtain ⟨reported, hp⟩ := polled_of_poll hp
  have hsame : ∀ ptr, (s'.channel ptr).fd_ = (s.channel ptr).fd_ ∧
      (s'.channel ptr).events_ = (s.channel ptr).events_ ∧
      (s'.channel ptr).index_ = (s.channel ptr).index_ := by
    intro ptr
    obtain ⟨_, hsame⟩ := foldl_set_revents_frame reported s.channel ptr
    rw [channel, hp.channels]
    simp [hsame]
  have hpoller : s'.channels.poller = s.channels.poller := by rw [hp.channels]
  have hwatched : ∀ f, s'.watched f = s.watched f := by
    intro f
    rw [watched, hpoller, watched]
  exact {
    channels := by
      refine ⟨fun ptr => (hsame ptr).1.trans (h.channels.fd_eq ptr), ?_, fun ptr => ?_⟩
      · rw [hp.channels]
        exact h.channels.errors
      · have hag := h.channels.agrees ptr
        simp only [channel] at hsame
        simpa only [EPollPoller.Agrees, hsame, hpoller] using hag
    owned := by simpa only [hwatched] using h.owned
    interest := by simpa only [(hsame _).2.1] using h.interest
    nodup := by
      rw [hp.ready]
      exact ServiceQueue.nodup_serve.mpr h.nodup
    ready := by simpa only [hp.ready, ServiceQueue.mem_serve, hwatched] using h.ready
    size := by
      rw [hp.size, hp.fullPolls, h.size]
      by_cases hf : s.Full
      · rw [if_pos hf, if_pos hf, Nat.pow_succ, Nat.mul_assoc]
      · rw [if_neg hf, if_neg hf, Nat.add_zero]
    walk := hp.rest ▸ List.suffix_rfl }

theorem Inv.next (h : Inv fd s) (hfd : Function.Injective fd) {l : PollLabel P}
    (hstep : s.next l = some s') : Inv fd s' := by
  cases l with
  | setCallback ptr cb =>
    cases hstep
    exact { h with
      channels := h.channels.setCallback ptr cb
      interest := fun other => by
        rw [channel, (LoopChannels.setCallback_frame s.channels ptr cb other).2.1]
        exact h.interest other }
  | call ptr c => exact (h.call hfd hstep).1
  | becomesReady f =>
    simp only [PollingLoop.next] at hstep
    split_ifs at hstep with hf
    cases hstep
    refine { h with nodup := ?_, ready := ?_ }
    · rw [List.nodup_append]
      exact ⟨h.nodup, List.nodup_singleton f, by
        intro a ha b hb
        rw [List.mem_singleton.mp hb]
        rintro rfl
        exact hf.2 ha⟩
    · intro g hg
      rcases List.mem_append.mp hg with hg | hg
      · exact h.ready g hg
      · rw [List.mem_singleton.mp hg]
        exact hf.1
  | becomesIdle f =>
    simp only [PollingLoop.next] at hstep
    split_ifs at hstep
    cases hstep
    exact { h with
      nodup := h.nodup.erase f
      ready := fun g hg => h.ready g (List.mem_of_mem_erase hg) }
  | poll revents =>
    simp only [PollingLoop.next] at hstep
    split_ifs at hstep
    exact h.poll hstep
  | pollError =>
    simp only [PollingLoop.next] at hstep
    split_ifs at hstep with hrest
    cases hstep
    exact { h with walk := by rw [hrest] }
  | handleEvent =>
    simp only [PollingLoop.next] at hstep
    split at hstep
    · cases hstep
    · rename_i ptr rest hrest
      cases hstep
      refine { h with walk := ?_ }
      have hwalk := h.walk
      rw [hrest] at hwalk
      exact (List.suffix_cons ptr rest).trans hwalk

theorem inv_of_reachable (hfd : Function.Injective fd)
    (h : (system fd).Reachable TransitionSystem.AnyStep s) : Inv fd s := by
  induction h with
  | init h => exact h ▸ inv_create fd
  | step _ _ hstep ih => exact ih.next hfd hstep

/-! ## What a handler is run for -/

inductive Dispatch : PollingLoop P → PollingLoop P → Prop
  | refl (s : PollingLoop P) : Dispatch s s
  | step {s t u : PollingLoop P} (l : PollLabel P) (h : Dispatch s t) (hl : l.polls = false)
      (hu : t.next l = some u) : Dispatch s u

/-- Between two polls the walk only goes on, and no report changes. -/
theorem Inv.dispatch (h : Inv fd s) (hfd : Function.Injective fd) (hd : Dispatch s s') :
    Inv fd s' ∧ s'.rest <:+ s.rest ∧
      ∀ ptr, (s'.channel ptr).revents_ = (s.channel ptr).revents_ := by
  induction hd with
  | refl => exact ⟨h, List.suffix_rfl, fun _ => rfl⟩
  | @step t u l _ hl hu ih =>
    obtain ⟨hinv, hsuffix, hrev⟩ := ih
    refine ⟨hinv.next hfd hu, ?_⟩
    cases l with
    | setCallback ptr cb =>
      cases hu
      refine ⟨hsuffix, fun other => ?_⟩
      rw [channel, (LoopChannels.setCallback_frame t.channels ptr cb other).2.2.2]
      exact hrev other
    | call ptr c =>
      obtain ⟨_, hrest, hsame⟩ := hinv.call hfd hu
      exact ⟨hrest ▸ hsuffix, fun other => (hsame other).trans (hrev other)⟩
    | becomesReady f | becomesIdle f =>
      simp only [PollingLoop.next] at hu
      split_ifs at hu
      cases hu
      exact ⟨hsuffix, hrev⟩
    | poll revents => cases hl
    | pollError => cases hl
    | handleEvent =>
      simp only [PollingLoop.next] at hu
      split at hu
      · cases hu
      · rename_i ptr rest hrest
        cases hu
        rw [hrest] at hsuffix
        exact ⟨(List.suffix_cons ptr rest).trans hsuffix, hrev⟩

end PollingLoop
end MuduoCore
