import MuduoCore.Polling.EPollPoller

/-!
# The channels of one event loop

Any number of channels, on pairwise distinct descriptors, are driven through
`Channel::enableReading` … `Channel::remove` in any order. `errors` records
that `update` has reached `LOG_ERROR`; a refused run is one that reached
`LOG_FATAL`.
-/

namespace MuduoCore

inductive ChannelCall
  | change (c : InterestChange)
  | remove
  deriving DecidableEq, Repr

structure LoopChannels (P : Type*) where
  poller : EPollPoller P
  channel : P → Channel
  errors : Bool

namespace LoopChannels

variable {P : Type*}

def create (fd : P → ℤ) : LoopChannels P := ⟨.create, fun ptr => .create (fd ptr), false⟩

/-- Descriptors never change, no error has been met, and every mark is truthful. -/
structure Inv (fd : P → ℤ) (s : LoopChannels P) : Prop where
  fd_eq : ∀ ptr, (s.channel ptr).fd_ = fd ptr
  errors : s.errors = false
  agrees : ∀ ptr, s.poller.Agrees ptr (s.channel ptr)

theorem inv_create (fd : P → ℤ) : Inv fd (create fd) :=
  ⟨fun _ => rfl, rfl, fun _ => ⟨rfl, rfl⟩⟩

variable [DecidableEq P]

def store (s : LoopChannels P) (ptr : P) (r : EPollPoller P × Channel × Bool) : LoopChannels P :=
  ⟨r.1, Function.update s.channel ptr r.2.1, s.errors || r.2.2⟩

def call (s : LoopChannels P) (ptr : P) : ChannelCall → Option (LoopChannels P)
  | .change c => (s.poller.updateChannel ptr ((s.channel ptr).setInterest c)).map (s.store ptr)
  | .remove => (s.poller.removeChannel ptr (s.channel ptr)).map (s.store ptr)

def run : LoopChannels P → List (P × ChannelCall) → Option (LoopChannels P)
  | s, [] => some s
  | s, c :: cs => (s.call c.1 c.2).bind fun s => run s cs

variable {fd : P → ℤ} {s : LoopChannels P}

theorem Inv.store (h : Inv fd s) (hfd : Function.Injective fd) {ptr : P} {p' : EPollPoller P}
    {channel' : Channel} (hch : channel'.fd_ = fd ptr) (hag : p'.Agrees ptr channel')
    (hframe : EPollPoller.SameExcept (fd ptr) s.poller p') :
    Inv fd (s.store ptr (p', channel', false)) := by
  constructor
  · intro other
    by_cases he : other = ptr
    · subst other
      simpa [LoopChannels.store] using hch
    · simpa [LoopChannels.store, Function.update_of_ne he] using h.fd_eq other
  · simpa [LoopChannels.store] using h.errors
  · intro other
    by_cases he : other = ptr
    · subst other
      simpa [LoopChannels.store] using hag
    · have hne : (s.channel other).fd_ ≠ fd ptr := by
        rw [h.fd_eq]
        exact fun hx => he (hfd hx)
      simpa [LoopChannels.store, Function.update_of_ne he] using
        (h.agrees other).of_sameExcept hne hframe

/-- One call succeeds without an error and keeps every mark truthful. -/
theorem Inv.call (h : Inv fd s) (hfd : Function.Injective fd) (ptr : P) (c : ChannelCall) :
    ∃ s', s.call ptr c = some s' ∧ Inv fd s' := by
  have ht := (h.agrees ptr).tracks
  cases c with
  | change c =>
    obtain ⟨p', channel', hu⟩ := (ht.setInterest c).updateChannel
    have hch : channel'.fd_ = fd ptr := by
      rw [hu.fd, Channel.setInterest_fd, h.fd_eq]
    have hframe := hu.frame
    rw [Channel.setInterest_fd, h.fd_eq] at hframe
    exact ⟨_, by rw [LoopChannels.call, hu.run]; rfl, h.store hfd hch hu.agrees hframe⟩
  | remove =>
    obtain ⟨p', hrun, hag, hframe⟩ := ht.removeChannel
    have hch : ({ s.channel ptr with index_ := .kNew } : Channel).fd_ = fd ptr := h.fd_eq ptr
    rw [h.fd_eq] at hframe
    exact ⟨_, by rw [LoopChannels.call, hrun]; rfl, h.store hfd hch hag hframe⟩

theorem Inv.run (h : Inv fd s) (hfd : Function.Injective fd) (calls : List (P × ChannelCall)) :
    ∃ s', s.run calls = some s' ∧ Inv fd s' := by
  induction calls generalizing s with
  | nil => exact ⟨s, rfl, h⟩
  | cons c cs ih =>
    obtain ⟨t, ht, hinv⟩ := h.call hfd c.1 c.2
    obtain ⟨s', hs', hinv'⟩ := ih hinv
    exact ⟨s', by rw [LoopChannels.run, ht, Option.bind_some, hs'], hinv'⟩

/-- After any sequence of calls, mark, table and interest set agree for every
channel. The run is never refused and records no error, so `epoll_ctl` was
never asked to add what is present or to change what is absent. -/
theorem poller_agreement (fd : P → ℤ) (hfd : Function.Injective fd)
    (calls : List (P × ChannelCall)) :
    ∃ s, (create fd).run calls = some s ∧ s.errors = false ∧ ∀ ptr,
      ((s.channel ptr).index_ = .kNew ↔ s.poller.channels_ (fd ptr) = none) ∧
      ((s.channel ptr).index_ = .kNew ↔ s.poller.hasChannel ptr (s.channel ptr) = false) ∧
      ((s.channel ptr).index_ = .kAdded ↔ (s.poller.interest (fd ptr)).isSome = true) ∧
      ((s.channel ptr).index_ = .kAdded →
        s.poller.interest (fd ptr) = some ⟨(s.channel ptr).events_, ptr⟩) ∧
      ((s.channel ptr).index_ = .kDeleted ↔
        (s.poller.channels_ (fd ptr)).isSome = true ∧ s.poller.interest (fd ptr) = none) ∧
      ((s.channel ptr).index_ = .kDeleted → (s.channel ptr).events_ = Channel.kNoneEvent) := by
  obtain ⟨s, hrun, hinv⟩ := (inv_create fd).run hfd calls
  refine ⟨s, hrun, hinv.errors, fun ptr => ?_⟩
  have hag := hinv.agrees ptr
  simp only [EPollPoller.Agrees, hinv.fd_eq] at hag
  simp only [EPollPoller.hasChannel, hinv.fd_eq]
  cases hi : (s.channel ptr).index_ <;> simp only [hi] at hag
  · simp [hag.1, hag.2]
  · simp [hag.1, hag.2]
  · simp [hag.1, hag.2.1, hag.2.2]

/-- Two channels: one enabled, disabled, disabled again, removed and enabled
once more; the other disabled before it was ever enabled. -/
theorem poller_agreement_two :
    ∃ s, (create (fun n : ℕ => (n : ℤ))).run [(5, .change .enableReading),
        (5, .change .enableWriting), (5, .change .disableAll), (5, .change .disableAll),
        (7, .change .disableAll), (5, .remove), (5, .change .enableReading)] = some s ∧
      s.errors = false :=
  let ⟨s, hrun, herr, _⟩ := poller_agreement (fun n : ℕ => (n : ℤ)) Int.ofNat_injective
    [(5, .change .enableReading), (5, .change .enableWriting), (5, .change .disableAll),
      (5, .change .disableAll), (7, .change .disableAll), (5, .remove),
      (5, .change .enableReading)]
  ⟨s, hrun, herr⟩

end LoopChannels
end MuduoCore
