import MuduoCore.Polling.Channel

/-!
# The epoll poller

Three records of one registration are kept side by side: the mark `index_` in
the channel, the table `channels_`, and the interest set of the kernel.
`epoll_ctl` is assumed to fail only when asked to add a descriptor that is
present, or to modify or delete one that is absent. `none` is the exit of
`LOG_FATAL`; the flag beside a result tells whether `LOG_ERROR` was reached.
-/

namespace MuduoCore

inductive CtlOperation
  | EPOLL_CTL_ADD
  | EPOLL_CTL_MOD
  | EPOLL_CTL_DEL
  deriving DecidableEq, Repr

/-- An entry of the interest set: the mask and `data.ptr`. -/
structure EpollEvent (P : Type*) where
  events : Events
  ptr : P
  deriving DecidableEq, Repr

/-- `P` is the type of channel addresses; `interest` belongs to the kernel. -/
structure EPollPoller (P : Type*) where
  channels_ : ℤ → Option P
  interest : ℤ → Option (EpollEvent P)

namespace EPollPoller

variable {P : Type*}

def create : EPollPoller P := ⟨fun _ => none, fun _ => none⟩

/-- The system call; `none` is a negative result. -/
def epollCtl (p : EPollPoller P) (operation : CtlOperation) (fd : ℤ) (event : EpollEvent P) :
    Option (EPollPoller P) :=
  match operation, (p.interest fd).isSome with
  | .EPOLL_CTL_ADD, false | .EPOLL_CTL_MOD, true =>
    some { p with interest := Function.update p.interest fd (some event) }
  | .EPOLL_CTL_DEL, true => some { p with interest := Function.update p.interest fd none }
  | _, _ => none

def update (p : EPollPoller P) (operation : CtlOperation) (ptr : P) (channel : Channel) :
    Option (EPollPoller P × Bool) :=
  match p.epollCtl operation channel.fd_ ⟨channel.events_, ptr⟩ with
  | some p => some (p, false)
  | none => if operation = .EPOLL_CTL_DEL then some (p, true) else none

def updateChannel (p : EPollPoller P) (ptr : P) (channel : Channel) :
    Option (EPollPoller P × Channel × Bool) :=
  if channel.index_ = .kNew ∨ channel.index_ = .kDeleted then
    let p := if channel.index_ = .kNew then
        { p with channels_ := Function.update p.channels_ channel.fd_ (some ptr) }
      else p
    let channel := { channel with index_ := .kAdded }
    (p.update .EPOLL_CTL_ADD ptr channel).map fun r => (r.1, channel, r.2)
  else if channel.isNoneEvent then
    (p.update .EPOLL_CTL_DEL ptr channel).map fun r =>
      (r.1, { channel with index_ := .kDeleted }, r.2)
  else
    (p.update .EPOLL_CTL_MOD ptr channel).map fun r => (r.1, channel, r.2)

def removeChannel (p : EPollPoller P) (ptr : P) (channel : Channel) :
    Option (EPollPoller P × Channel × Bool) :=
  let p := { p with channels_ := Function.update p.channels_ channel.fd_ none }
  let removed := { channel with index_ := .kNew }
  if channel.index_ = .kAdded then
    (p.update .EPOLL_CTL_DEL ptr channel).map fun r => (r.1, removed, r.2)
  else some (p, removed, false)

def hasChannel [DecidableEq P] (p : EPollPoller P) (ptr : P) (channel : Channel) : Bool :=
  p.channels_ channel.fd_ == some ptr

/-! ## Agreement of the three records -/

/-- The mark of a channel tells the truth about table and interest set; the
registered mask may lag behind `events_`. -/
def Tracks (p : EPollPoller P) (ptr : P) (channel : Channel) : Prop :=
  match channel.index_ with
  | .kNew => p.channels_ channel.fd_ = none ∧ p.interest channel.fd_ = none
  | .kAdded => p.channels_ channel.fd_ = some ptr ∧ (p.interest channel.fd_).isSome
  | .kDeleted => p.channels_ channel.fd_ = some ptr ∧ p.interest channel.fd_ = none

/-- The mark tells the truth and the registered mask is `events_`. -/
def Agrees (p : EPollPoller P) (ptr : P) (channel : Channel) : Prop :=
  match channel.index_ with
  | .kNew => p.channels_ channel.fd_ = none ∧ p.interest channel.fd_ = none
  | .kAdded => p.channels_ channel.fd_ = some ptr ∧
      p.interest channel.fd_ = some ⟨channel.events_, ptr⟩
  | .kDeleted => p.channels_ channel.fd_ = some ptr ∧ p.interest channel.fd_ = none ∧
      channel.events_ = Channel.kNoneEvent

/-- Nothing is said about any other descriptor. -/
def SameExcept (fd : ℤ) (p q : EPollPoller P) : Prop :=
  ∀ fd' ≠ fd, q.channels_ fd' = p.channels_ fd' ∧ q.interest fd' = p.interest fd'

variable {p : EPollPoller P} {ptr : P} {channel : Channel}

theorem Agrees.tracks (h : p.Agrees ptr channel) : p.Tracks ptr channel := by
  unfold Agrees at h
  unfold Tracks
  cases hi : channel.index_ <;> simp only [hi] at h ⊢
  · exact h
  · exact ⟨h.1, by simp [h.2]⟩
  · exact ⟨h.1, h.2.1⟩

theorem Tracks.setInterest (h : p.Tracks ptr channel) (i : InterestChange) :
    p.Tracks ptr (channel.setInterest i) := by
  simpa only [Tracks, Channel.setInterest_fd, Channel.setInterest_index] using h

theorem Agrees.of_sameExcept {q : EPollPoller P} {fd : ℤ} (h : p.Agrees ptr channel)
    (hfd : channel.fd_ ≠ fd) (hq : SameExcept fd p q) : q.Agrees ptr channel := by
  obtain ⟨hc, hi⟩ := hq _ hfd
  simpa only [Agrees, hc, hi] using h

theorem sameExcept_interest (p : EPollPoller P) (fd : ℤ) (entry : Option (EpollEvent P)) :
    SameExcept fd p { p with interest := Function.update p.interest fd entry } :=
  fun _ hfd => ⟨rfl, Function.update_of_ne hfd _ _⟩

theorem sameExcept_channels (p : EPollPoller P) (fd : ℤ) (entry : Option P) :
    SameExcept fd p { p with channels_ := Function.update p.channels_ fd entry } :=
  fun _ hfd => ⟨Function.update_of_ne hfd _ _, rfl⟩

theorem SameExcept.trans {fd : ℤ} {q r : EPollPoller P} (hpq : SameExcept fd p q)
    (hqr : SameExcept fd q r) : SameExcept fd p r := fun fd' hfd =>
  ⟨(hqr fd' hfd).1.trans (hpq fd' hfd).1, (hqr fd' hfd).2.trans (hpq fd' hfd).2⟩

/-! ### The three system calls, where they succeed -/

theorem update_add (h : p.interest channel.fd_ = none) :
    p.update .EPOLL_CTL_ADD ptr channel =
      some ({ p with interest :=
        Function.update p.interest channel.fd_ (some ⟨channel.events_, ptr⟩) }, false) := by
  simp [update, epollCtl, h]

theorem update_mod (h : (p.interest channel.fd_).isSome) :
    p.update .EPOLL_CTL_MOD ptr channel =
      some ({ p with interest :=
        Function.update p.interest channel.fd_ (some ⟨channel.events_, ptr⟩) }, false) := by
  simp [update, epollCtl, h]

theorem update_del (h : (p.interest channel.fd_).isSome) :
    p.update .EPOLL_CTL_DEL ptr channel =
      some ({ p with interest := Function.update p.interest channel.fd_ none }, false) := by
  simp [update, epollCtl, h]

/-- What `updateChannel` does to a truthful mark: it never fails, brings the
registered mask up to date, writes nothing but `index_` to the channel, and
touches no other descriptor. -/
structure Updated (p : EPollPoller P) (ptr : P) (channel : Channel) (p' : EPollPoller P)
    (channel' : Channel) : Prop where
  run : p.updateChannel ptr channel = some (p', channel', false)
  agrees : p'.Agrees ptr channel'
  same : channel' = { channel with index_ := channel'.index_ }
  frame : SameExcept channel.fd_ p p'

theorem Updated.fd {p' : EPollPoller P} {channel' : Channel}
    (h : Updated p ptr channel p' channel') : channel'.fd_ = channel.fd_ := by rw [h.same]

theorem Updated.events {p' : EPollPoller P} {channel' : Channel}
    (h : Updated p ptr channel p' channel') : channel'.events_ = channel.events_ := by rw [h.same]

theorem Updated.revents {p' : EPollPoller P} {channel' : Channel}
    (h : Updated p ptr channel p' channel') : channel'.revents_ = channel.revents_ := by
  rw [h.same]

theorem updateChannel_kNew (hi : channel.index_ = .kNew)
    (h : p.interest channel.fd_ = none) :
    ∃ p' channel', Updated p ptr channel p' channel' := by
  let q : EPollPoller P :=
    { p with channels_ := Function.update p.channels_ channel.fd_ (some ptr) }
  let added : Channel := { channel with index_ := .kAdded }
  have hadd : q.update .EPOLL_CTL_ADD ptr added = _ := update_add h
  refine ⟨_, added, ?_, ?_, rfl,
    (sameExcept_channels p _ _).trans (sameExcept_interest q _ (some ⟨channel.events_, ptr⟩))⟩
  · rw [updateChannel, if_pos (Or.inl hi), if_pos hi]
    exact congrArg (Option.map _) hadd
  · exact ⟨Function.update_self _ _ _, Function.update_self _ _ _⟩

theorem updateChannel_kDeleted (hi : channel.index_ = .kDeleted)
    (hc : p.channels_ channel.fd_ = some ptr) (h : p.interest channel.fd_ = none) :
    ∃ p' channel', Updated p ptr channel p' channel' := by
  let added : Channel := { channel with index_ := .kAdded }
  have hadd : p.update .EPOLL_CTL_ADD ptr added = _ := update_add h
  refine ⟨_, added, ?_, ?_, rfl,
    sameExcept_interest p _ (some ⟨channel.events_, ptr⟩)⟩
  · rw [updateChannel, if_pos (Or.inr hi), if_neg (by simp [hi])]
    exact congrArg (Option.map _) hadd
  · exact ⟨hc, Function.update_self _ _ _⟩

theorem updateChannel_kAdded (hi : channel.index_ = .kAdded)
    (hc : p.channels_ channel.fd_ = some ptr) (h : (p.interest channel.fd_).isSome) :
    ∃ p' channel', Updated p ptr channel p' channel' := by
  have hne : ¬ (channel.index_ = .kNew ∨ channel.index_ = .kDeleted) := by simp [hi]
  by_cases hn : channel.isNoneEvent = true
  · refine ⟨_, { channel with index_ := .kDeleted }, ?_, ?_, rfl,
      sameExcept_interest p _ none⟩
    · rw [updateChannel, if_neg hne, if_pos hn, update_del h]
      rfl
    · exact ⟨hc, Function.update_self _ _ _, by simpa [Channel.isNoneEvent] using hn⟩
  · refine ⟨_, channel, ?_, ?_, rfl,
      sameExcept_interest p _ (some ⟨channel.events_, ptr⟩)⟩
    · rw [updateChannel, if_neg hne, if_neg hn, update_mod h]
      rfl
    · simp [Agrees, hi, hc]

theorem Tracks.updateChannel (h : p.Tracks ptr channel) :
    ∃ p' channel', Updated p ptr channel p' channel' := by
  unfold Tracks at h
  cases hi : channel.index_ with
  | kNew =>
    simp only [hi] at h
    exact updateChannel_kNew hi h.2
  | kAdded =>
    simp only [hi] at h
    exact updateChannel_kAdded hi h.1 h.2
  | kDeleted =>
    simp only [hi] at h
    exact updateChannel_kDeleted hi h.1 h.2

theorem updateChannel_index {p' : EPollPoller P} {channel' : Channel} {failed : Bool}
    (h : p.updateChannel ptr channel = some (p', channel', failed)) :
    channel'.index_ =
      if channel.index_ = .kAdded ∧ channel.isNoneEvent then .kDeleted else .kAdded := by
  unfold EPollPoller.updateChannel at h
  cases hi : channel.index_ with
  | kNew | kDeleted =>
    simp only [hi, true_or, or_true, if_true, Option.map_eq_some_iff, Prod.mk.injEq] at h
    obtain ⟨r, _, _, rfl, _⟩ := h
    simp
  | kAdded =>
    rw [if_neg (by simp [hi])] at h
    split_ifs at h with hn <;> simp only [Option.map_eq_some_iff, Prod.mk.injEq] at h <;>
      obtain ⟨r, _, _, rfl, _⟩ := h
    · simp [hn]
    · simp [hn, hi]

/-- `removeChannel` on a truthful mark never fails, and leaves nothing behind. -/
theorem Tracks.removeChannel (h : p.Tracks ptr channel) :
    ∃ p', p.removeChannel ptr channel = some (p', { channel with index_ := .kNew }, false) ∧
      p'.Agrees ptr { channel with index_ := .kNew } ∧ SameExcept channel.fd_ p p' := by
  let q : EPollPoller P := { p with channels_ := Function.update p.channels_ channel.fd_ none }
  have hq : SameExcept channel.fd_ p q := sameExcept_channels p _ _
  unfold Tracks at h
  by_cases hi : channel.index_ = .kAdded
  · simp only [hi] at h
    have hdel : q.update .EPOLL_CTL_DEL ptr channel = _ := update_del h.2
    refine ⟨_, ?_, ?_, hq.trans (sameExcept_interest q _ none)⟩
    · rw [EPollPoller.removeChannel, if_pos hi]
      exact congrArg (Option.map _) hdel
    · exact ⟨Function.update_self _ _ _, Function.update_self _ _ _⟩
  · have hnone : p.interest channel.fd_ = none := by
      cases hc : channel.index_ <;> simp only [hc] at h
      · exact h.2
      · exact absurd hc hi
      · exact h.2
    refine ⟨q, ?_, ?_, hq⟩
    · rw [EPollPoller.removeChannel, if_neg hi]
    · exact ⟨Function.update_self _ _ _, hnone⟩

end EPollPoller
end MuduoCore
