import MuduoCore.Polling.EPollPoller

/-!
# A channel with its registration

One channel and what the poller of its loop records about its descriptor, kept
in agreement: the members that change the interest and `remove` are total, so
no later proof meets the error branches of the poller again.
-/

namespace MuduoCore

structure RegisteredChannel where
  poller : EPollPoller Unit
  channel : Channel
  agrees : poller.Agrees () channel

namespace RegisteredChannel

/-- A new channel; the poller knows nothing of its descriptor. -/
def create (fd : ℤ) : RegisteredChannel := ⟨.create, .create fd, ⟨rfl, rfl⟩⟩

def setCallback (r : RegisteredChannel) (cb : EventCallback) : RegisteredChannel :=
  ⟨r.poller, r.channel.setCallback cb, by
    simpa only [EPollPoller.Agrees, Channel.setCallback_fd, Channel.setCallback_events,
      Channel.setCallback_index] using r.agrees⟩

/-- What the kernel watches the descriptor for, if it watches it. -/
def registered (r : RegisteredChannel) : Option Events :=
  (r.poller.interest r.channel.fd_).map EpollEvent.events

/-- Whether the poller has the channel in its table. -/
def hasChannel (r : RegisteredChannel) : Bool := r.poller.hasChannel () r.channel

def set_revents (r : RegisteredChannel) (revents : Events) : RegisteredChannel :=
  ⟨r.poller, { r.channel with revents_ := revents }, r.agrees⟩

theorem updateChannel_isSome (r : RegisteredChannel) (i : InterestChange) :
    (r.poller.updateChannel () (r.channel.setInterest i)).isSome := by
  obtain ⟨p, c, h⟩ := (r.agrees.tracks.setInterest i).updateChannel
  simp [h.run]

theorem updated (r : RegisteredChannel) (i : InterestChange) :
    let out := (r.poller.updateChannel () (r.channel.setInterest i)).get (r.updateChannel_isSome i)
    EPollPoller.Updated r.poller () (r.channel.setInterest i) out.1 out.2.1 := by
  obtain ⟨p, c, h⟩ := (r.agrees.tracks.setInterest i).updateChannel
  simpa [h.run] using h

/-- `enableReading` and its four siblings: the store, then `update()`. -/
def change (r : RegisteredChannel) (i : InterestChange) : RegisteredChannel :=
  let out := (r.poller.updateChannel () (r.channel.setInterest i)).get (r.updateChannel_isSome i)
  ⟨out.1, out.2.1, (r.updated i).agrees⟩

theorem removeChannel_isSome (r : RegisteredChannel) :
    (r.poller.removeChannel () r.channel).isSome := by
  obtain ⟨p, h, _⟩ := r.agrees.tracks.removeChannel
  simp [h]

theorem removed (r : RegisteredChannel) :
    let out := (r.poller.removeChannel () r.channel).get r.removeChannel_isSome
    out.2.1 = { r.channel with index_ := .kNew } ∧ out.1.Agrees () out.2.1 := by
  obtain ⟨p, h, ha, _⟩ := r.agrees.tracks.removeChannel
  simpa [h] using ha

def remove (r : RegisteredChannel) : RegisteredChannel :=
  let out := (r.poller.removeChannel () r.channel).get r.removeChannel_isSome
  ⟨out.1, out.2.1, r.removed.2⟩

variable (r : RegisteredChannel)

@[simp] theorem change_events (i : InterestChange) :
    (r.change i).channel.events_ = (r.channel.setInterest i).events_ := (r.updated i).events
@[simp] theorem remove_events : r.remove.channel.events_ = r.channel.events_ := by
  simp [remove, r.removed.1]
@[simp] theorem remove_index : r.remove.channel.index_ = .kNew := by
  simp [remove, r.removed.1]

/-- The kernel watches exactly the channels marked `kAdded`, for `events_`. -/
theorem registered_eq :
    r.registered = if r.channel.index_ = .kAdded then some r.channel.events_ else none := by
  have h := r.agrees
  unfold EPollPoller.Agrees at h
  cases hi : r.channel.index_ <;> simp only [hi] at h <;> simp [registered, h]

theorem hasChannel_eq : r.hasChannel = decide (r.channel.index_ ≠ .kNew) := by
  have h := r.agrees
  unfold EPollPoller.Agrees at h
  cases hi : r.channel.index_ <;> simp only [hi] at h <;>
    simp [hasChannel, EPollPoller.hasChannel, h.1]

theorem change_index (i : InterestChange) :
    (r.change i).channel.index_ =
      if r.channel.index_ = .kAdded ∧ (r.channel.setInterest i).isNoneEvent then .kDeleted
      else .kAdded := by
  have h := EPollPoller.updateChannel_index (r.updated i).run
  rwa [Channel.setInterest_index] at h

theorem change_index_kAdded {i : InterestChange}
    (h : (r.channel.setInterest i).isNoneEvent = false) :
    (r.change i).channel.index_ = .kAdded := by
  rw [change_index, if_neg (by simp [h])]

theorem registered_remove : r.remove.registered = none := by
  rw [registered_eq, if_neg (by simp)]

end RegisteredChannel
end MuduoCore
