import MuduoCore.Polling.Polls
import MuduoCore.Polling.RegisteredChannel

/-!
# One channel of a loop, seen alone

A `RegisteredChannel` is a channel with a poller of its own. A loop has one
poller for all its channels, with one table, one interest set and one list of
events. As long as the descriptors differ, the channels do not notice: whatever
is done to the others, what a channel goes through is a run of the registered
channel alone, and that run is made of its own calls and its own reports.
-/

namespace MuduoCore

namespace RegisteredChannel

@[simp] theorem change_fd (r : RegisteredChannel) (i : InterestChange) :
    (r.change i).channel.fd_ = r.channel.fd_ :=
  (r.updated i).fd.trans (Channel.setInterest_fd _ _)

@[simp] theorem remove_fd (r : RegisteredChannel) : r.remove.channel.fd_ = r.channel.fd_ := by
  simp [remove, r.removed.1]

@[simp] theorem change_revents (r : RegisteredChannel) (i : InterestChange) :
    (r.change i).channel.revents_ = r.channel.revents_ :=
  (r.updated i).revents.trans (r.channel.setInterest_revents i)

inductive Label
  | setCallback (cb : EventCallback)
  | change (i : InterestChange)
  | remove
  | report (revents : Events)
  deriving DecidableEq, Repr

/-- The kernel reports where it watches. -/
def step (r : RegisteredChannel) : Label → Option RegisteredChannel
  | .setCallback cb => some (r.setCallback cb)
  | .change i => some (r.change i)
  | .remove => some r.remove
  | .report revents =>
    if r.registered.any fun mask =>
        revents ≠ 0#32 && revents &&& ~~~(mask ||| EPOLLERR ||| EPOLLHUP) = 0#32 then
      some (r.set_revents revents)
    else none

theorem channel_change (r : RegisteredChannel) (i : InterestChange) :
    (r.change i).channel = { r.channel.setInterest i with
      index_ := if r.channel.index_ = .kAdded ∧ (r.channel.setInterest i).isNoneEvent then .kDeleted
        else .kAdded } := by
  rw [← r.change_index i]
  exact (r.updated i).same

end RegisteredChannel

namespace PollingLoop

open RegisteredChannel (Label)

variable {P : Type*} [DecidableEq P] {fd : P → ℤ} {s s' : PollingLoop P} {r : RegisteredChannel}

def seen (fd : P → ℤ) (ptr : P) (s : PollingLoop P) : PollLabel P → List Label
  | .setCallback other cb => if other = ptr then [.setCallback cb] else []
  | .call other (.change i) => if other = ptr then [.change i] else []
  | .call other .remove => if other = ptr then [.remove] else []
  | .poll revents =>
    if fd ptr ∈ s.ready.take s.events_.length then [.report (revents (fd ptr))] else []
  | .becomesReady _ | .becomesIdle _ | .pollError | .handleEvent => []

def seenAll (fd : P → ℤ) (ptr : P) : PollingLoop P → List (PollLabel P) → List Label
  | _, [] => []
  | s, l :: ls =>
    s.seen fd ptr l ++ match s.next l with
      | some s' => seenAll fd ptr s' ls
      | none => []

omit [DecidableEq P] in
theorem Inv.watched_eq (h : Inv fd s) (ptr : P) : (s.watched (fd ptr)).map EpollEvent.events =
    if (s.channel ptr).index_ = .kAdded then some (s.channel ptr).events_ else none := by
  have hag := h.channels.agrees ptr
  simp only [EPollPoller.Agrees, h.channels.fd_eq] at hag
  rw [watched, channel]
  cases hi : (s.channels.channel ptr).index_ <;> simp only [hi] at hag <;> simp [hag]

omit [DecidableEq P] in
theorem Inv.registered (h : Inv fd s) {ptr : P} (hr : r.channel = s.channel ptr) :
    r.registered = (s.watched (fd ptr)).map EpollEvent.events := by
  rw [r.registered_eq, h.watched_eq, hr]

/-- A call leaves the channel in a state that depends on that channel alone. -/
theorem Inv.channel_call (h : Inv fd s) (ptr : P) (c : ChannelCall) {channels : LoopChannels P}
    (hcall : s.channels.call ptr c = some channels) : channels.channel ptr = match c with
      | .change i => { (s.channel ptr).setInterest i with
          index_ := if (s.channel ptr).index_ = .kAdded ∧
            ((s.channel ptr).setInterest i).isNoneEvent then .kDeleted else .kAdded }
      | .remove => { s.channel ptr with index_ := .kNew } := by
  have htracks := (h.channels.agrees ptr).tracks
  cases c with
  | change i =>
    obtain ⟨p', channel', hu⟩ := (htracks.setInterest i).updateChannel
    have hindex := EPollPoller.updateChannel_index hu.run
    rw [LoopChannels.call, hu.run, Option.map_some, Option.some.injEq] at hcall
    simp only [channel, ← hcall, LoopChannels.store_channel_self]
    rw [Channel.setInterest_index] at hindex
    rw [hu.same, hindex]
    rfl
  | remove =>
    obtain ⟨p', hrun, -, -⟩ := htracks.removeChannel
    rw [LoopChannels.call, hrun, Option.map_some, Option.some.injEq] at hcall
    simp only [channel, ← hcall, LoopChannels.store_channel_self]

theorem Inv.step_call (h : Inv fd s) {ptr : P} {c : ChannelCall} (hcall : s.call ptr c = some s')
    (hr : r.channel = s.channel ptr) :
    ∃ r', TransitionSystem.replay RegisteredChannel.step r (s.seen fd ptr (.call ptr c)) = some r' ∧
      r'.channel = s'.channel ptr := by
  obtain ⟨channels, hchannels, rfl⟩ := Option.map_eq_some_iff.mp hcall
  have hchannel := h.channel_call ptr c hchannels
  cases c with
  | change i =>
    refine ⟨r.change i, by simp [seen, TransitionSystem.replay, RegisteredChannel.step], ?_⟩
    rw [RegisteredChannel.channel_change, hr]
    exact hchannel.symm
  | remove =>
    refine ⟨r.remove, by simp [seen, TransitionSystem.replay, RegisteredChannel.step], ?_⟩
    rw [show r.remove.channel = { r.channel with index_ := .kNew } from r.removed.1, hr]
    exact hchannel.symm

/-- A poll is a report to the channels in front of the queue, and nothing to the others. -/
theorem Inv.step_poll (h : Inv fd s) (hfd : Function.Injective fd) {ptr : P}
    {revents : ℤ → Events} (hpoll : s.poll revents = some s') (hr : r.channel = s.channel ptr) :
    ∃ r', TransitionSystem.replay RegisteredChannel.step r (s.seen fd ptr (.poll revents)) =
      some r' ∧ r'.channel = s'.channel ptr := by
  obtain ⟨reported, hp⟩ := polled_of_poll hpoll
  obtain ⟨hmap, hnodup, hreported⟩ := h.of_polled hp
  rw [hp.activeChannels] at hmap hnodup
  have hchannel : s'.channel ptr = reported.foldl set_revents s.channel ptr := by
    rw [channel, hp.channels]
  have hmem : fd ptr ∈ s.ready.take s.events_.length ↔ ptr ∈ reported.map EpollEvent.ptr := by
    rw [← hmap]
    exact List.mem_map_of_injective hfd
  by_cases hin : ptr ∈ reported.map EpollEvent.ptr
  · obtain ⟨e, he, rfl⟩ := List.mem_map.mp hin
    obtain ⟨hindex, hevents, hne, hmay⟩ := hreported e he
    have hregistered : r.registered = some (s.channel e.ptr).events_ := by
      rw [r.registered_eq, hr, if_pos hindex]
    rw [hevents] at hne hmay
    refine ⟨r.set_revents (revents (fd e.ptr)), ?_, ?_⟩
    · rw [seen, if_pos (hmem.mpr hin)]
      simp [TransitionSystem.replay, RegisteredChannel.step, hregistered, hne, hmay]
    · rw [hchannel, foldl_set_revents hnodup he, ← hr, hevents]
      rfl
  · refine ⟨r, ?_, ?_⟩
    · rw [seen, if_neg fun hready => hin (hmem.mp hready)]
      rfl
    · rw [hchannel, foldl_set_revents_of_notMem hin]
      exact hr

theorem Inv.step_seen (h : Inv fd s) (hfd : Function.Injective fd) {ptr : P} {l : PollLabel P}
    (hnext : s.next l = some s') (hr : r.channel = s.channel ptr) :
    ∃ r', TransitionSystem.replay RegisteredChannel.step r (s.seen fd ptr l) = some r' ∧
      r'.channel = s'.channel ptr := by
  cases l with
  | setCallback other cb =>
    cases hnext
    by_cases hp : other = ptr
    · subst hp
      refine ⟨r.setCallback cb, by simp [seen, TransitionSystem.replay, RegisteredChannel.step], ?_⟩
      change r.channel.setCallback cb = _
      rw [hr]
      exact (LoopChannels.setCallback_self ..).symm
    · refine ⟨r, by simp [seen, hp, TransitionSystem.replay], ?_⟩
      rw [hr]
      exact (LoopChannels.setCallback_of_ne _ _ (Ne.symm hp)).symm
  | call other c =>
    by_cases hp : other = ptr
    · subst hp
      exact h.step_call hnext hr
    · obtain ⟨channels, hcall, rfl⟩ := Option.map_eq_some_iff.mp hnext
      refine ⟨r, ?_, ?_⟩
      · cases c <;> simp [seen, hp, TransitionSystem.replay]
      · rw [hr]
        exact (LoopChannels.call_channel_of_ne hcall (Ne.symm hp)).symm
  | poll revents =>
    simp only [PollingLoop.next] at hnext
    split_ifs at hnext
    exact h.step_poll hfd hnext hr
  | becomesReady f | becomesIdle f | pollError =>
    simp only [PollingLoop.next] at hnext
    split_ifs at hnext
    cases hnext
    exact ⟨r, rfl, hr⟩
  | handleEvent =>
    simp only [PollingLoop.next] at hnext
    split at hnext
    · cases hnext
    · cases hnext
      exact ⟨r, rfl, hr⟩

theorem Inv.replay_seen (h : Inv fd s) (hfd : Function.Injective fd) {ptr : P}
    {ls : List (PollLabel P)} (hrun : TransitionSystem.replay PollingLoop.next s ls = some s')
    (hr : r.channel = s.channel ptr) :
    Inv fd s' ∧ ∃ r', TransitionSystem.replay RegisteredChannel.step r (seenAll fd ptr s ls) =
      some r' ∧ r'.channel = s'.channel ptr := by
  induction ls generalizing s r with
  | nil =>
    cases hrun
    exact ⟨h, r, rfl, hr⟩
  | cons l ls ih =>
    simp only [TransitionSystem.replay, Option.bind_eq_some_iff] at hrun
    obtain ⟨t, hnext, hrun⟩ := hrun
    obtain ⟨q, hq, hqt⟩ := h.step_seen hfd hnext hr
    obtain ⟨hinv, r', hr', hchannel⟩ := ih (h.next hfd hnext) hrun hqt
    refine ⟨hinv, r', ?_, hchannel⟩
    rw [seenAll, hnext, TransitionSystem.replay_append, hq, Option.bind_some, hr']

/-- Whatever a loop does with all its channels, each of them has done what a
channel with a poller of its own does in the calls made to it and the reports
it got: it is in the same state, and the kernel watches its descriptor for the
same events. -/
theorem channel_runs_alone (fd : P → ℤ) (hfd : Function.Injective fd) (ls : List (PollLabel P))
    (s : PollingLoop P) (h : TransitionSystem.replay next (create fd) ls = some s) (ptr : P) :
    ∃ r, TransitionSystem.replay RegisteredChannel.step (RegisteredChannel.create (fd ptr))
        (seenAll fd ptr (create fd) ls) = some r ∧
      r.channel = s.channel ptr ∧
      r.registered = (s.watched (fd ptr)).map EpollEvent.events := by
  have hstart : (RegisteredChannel.create (fd ptr)).channel = (create fd).channel ptr := rfl
  obtain ⟨hinv, r, hrun, hr⟩ := (inv_create fd).replay_seen hfd h hstart
  exact ⟨r, hrun, hr, hinv.registered hr⟩

/-- Two channels that are reported in one poll, after which one is removed. -/
theorem channel_runs_alone_two :
    ∃ (s : PollingLoop ℕ) (r : RegisteredChannel), s.activeChannels_ = [7, 5] ∧
      TransitionSystem.replay RegisteredChannel.step (RegisteredChannel.create 5)
        [.setCallback .readCallback, .change .enableReading, .report EPOLLIN] = some r ∧
      r.channel = s.channel 5 := by
  let ls : List (PollLabel ℕ) := [.setCallback 5 .readCallback, .call 5 (.change .enableReading),
    .call 7 (.change .enableWriting), .becomesReady 7, .becomesReady 5,
    .poll fun f => if f = 5 then EPOLLIN else EPOLLOUT, .call 7 .remove]
  obtain ⟨s, hs, hactive, hseen⟩ : ∃ s,
      TransitionSystem.replay next (create fun n : ℕ => (n : ℤ)) ls = some s ∧
      s.activeChannels_ = [7, 5] ∧
      seenAll (fun n : ℕ => (n : ℤ)) 5 (create fun n : ℕ => (n : ℤ)) ls =
        [.setCallback .readCallback, .change .enableReading, .report EPOLLIN] :=
    ⟨_, rfl, rfl, rfl⟩
  obtain ⟨r, hr, hchannel, _⟩ :=
    channel_runs_alone (fun n : ℕ => (n : ℤ)) Int.ofNat_injective ls s hs 5
  rw [hseen] at hr
  exact ⟨s, r, hactive, hr, hchannel⟩

end PollingLoop
end MuduoCore
