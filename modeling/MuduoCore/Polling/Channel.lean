import Mathlib.Tactic

/-!
# Channels

A `Channel` is one file descriptor with the events its owner is interested in,
the events last reported for it, and the mark the poller keeps in `index_`.
Masks are the machine words of `epoll_event::events`. Of a callback only
whether it is set is kept: `handleEventWithGuard` returns which of them run, and
in which order.
-/

namespace MuduoCore

abbrev Events := BitVec 32

def EPOLLIN : Events := 0x001#32
def EPOLLPRI : Events := 0x002#32
def EPOLLOUT : Events := 0x004#32
def EPOLLERR : Events := 0x008#32
def EPOLLHUP : Events := 0x010#32

/-- The mark `index_`: `kNew` is not in the poller, `kAdded` is in the poller
and registered, `kDeleted` is in the poller and not registered. -/
inductive Index
  | kNew
  | kAdded
  | kDeleted
  deriving DecidableEq, Repr

/-- The callbacks are given by whether they are set. -/
structure Channel where
  fd_ : ℤ
  events_ : Events
  revents_ : Events
  index_ : Index
  readCallback_ : Bool
  writeCallback_ : Bool
  closeCallback_ : Bool
  errorCallback_ : Bool
  deriving DecidableEq, Repr

/-- The members that change the interest of a channel, each followed by `update()`. -/
inductive InterestChange
  | enableReading
  | disableReading
  | enableWriting
  | disableWriting
  | disableAll
  deriving DecidableEq, Repr

inductive EventCallback
  | closeCallback
  | errorCallback
  | readCallback
  | writeCallback
  deriving DecidableEq, Repr

namespace Channel

def kNoneEvent : Events := 0#32
def kReadEvent : Events := EPOLLIN ||| EPOLLPRI
def kWriteEvent : Events := EPOLLOUT

def create (fd : ℤ) : Channel := ⟨fd, 0#32, 0#32, .kNew, false, false, false, false⟩

def setReadCallback (c : Channel) : Channel := { c with readCallback_ := true }
def setWriteCallback (c : Channel) : Channel := { c with writeCallback_ := true }
def setCloseCallback (c : Channel) : Channel := { c with closeCallback_ := true }
def setErrorCallback (c : Channel) : Channel := { c with errorCallback_ := true }

/-- The four of them, by the callback that is set. -/
def setCallback (c : Channel) : EventCallback → Channel
  | .closeCallback => c.setCloseCallback
  | .errorCallback => c.setErrorCallback
  | .readCallback => c.setReadCallback
  | .writeCallback => c.setWriteCallback

def isSet (c : Channel) : EventCallback → Bool
  | .closeCallback => c.closeCallback_
  | .errorCallback => c.errorCallback_
  | .readCallback => c.readCallback_
  | .writeCallback => c.writeCallback_

def isNoneEvent (c : Channel) : Bool := c.events_ == kNoneEvent
def isWriting (c : Channel) : Bool := c.events_ &&& kWriteEvent != 0#32
def isReading (c : Channel) : Bool := c.events_ &&& kReadEvent != 0#32

/-- The store to `events_`, before `update()`. -/
def setInterest (c : Channel) : InterestChange → Channel
  | .enableReading => { c with events_ := c.events_ ||| kReadEvent }
  | .disableReading => { c with events_ := c.events_ &&& ~~~kReadEvent }
  | .enableWriting => { c with events_ := c.events_ ||| kWriteEvent }
  | .disableWriting => { c with events_ := c.events_ &&& ~~~kWriteEvent }
  | .disableAll => { c with events_ := kNoneEvent }

/-- The tests of `revents_`, one for each callback. -/
def calledFor (revents : Events) : EventCallback → Bool
  | .closeCallback => revents &&& EPOLLHUP ≠ 0#32 && revents &&& EPOLLIN = 0#32
  | .errorCallback => revents &&& EPOLLERR ≠ 0#32
  | .readCallback => revents &&& (EPOLLIN ||| EPOLLPRI) ≠ 0#32
  | .writeCallback => revents &&& EPOLLOUT ≠ 0#32

/-- The callbacks run for a report, in program order: those it calls for that
are set. -/
def handleEventWithGuard (c : Channel) : List EventCallback :=
  [.closeCallback, .errorCallback, .readCallback, .writeCallback].filter fun cb =>
    calledFor c.revents_ cb && c.isSet cb

theorem mem_handleEventWithGuard {c : Channel} {cb : EventCallback} :
    cb ∈ c.handleEventWithGuard ↔ calledFor c.revents_ cb = true ∧ c.isSet cb = true := by
  rw [handleEventWithGuard, List.mem_filter, Bool.and_eq_true, and_iff_right]
  cases cb <;> simp

@[simp] theorem setCallback_fd (c : Channel) (cb : EventCallback) :
    (c.setCallback cb).fd_ = c.fd_ := by cases cb <;> rfl

@[simp] theorem setCallback_events (c : Channel) (cb : EventCallback) :
    (c.setCallback cb).events_ = c.events_ := by cases cb <;> rfl

@[simp] theorem setCallback_revents (c : Channel) (cb : EventCallback) :
    (c.setCallback cb).revents_ = c.revents_ := by cases cb <;> rfl

@[simp] theorem setCallback_index (c : Channel) (cb : EventCallback) :
    (c.setCallback cb).index_ = c.index_ := by cases cb <;> rfl

@[simp] theorem setInterest_fd (c : Channel) (i : InterestChange) :
    (c.setInterest i).fd_ = c.fd_ := by cases i <;> rfl

@[simp] theorem setInterest_index (c : Channel) (i : InterestChange) :
    (c.setInterest i).index_ = c.index_ := by cases i <;> rfl

theorem bit_or_self (e m : Events) : (e ||| m) &&& m = m := by
  ext i hi
  simp only [BitVec.getElem_and, BitVec.getElem_or]
  cases m[i] <;> simp

theorem bit_and_not_self (e m : Events) : e &&& ~~~m &&& m = 0#32 := by
  ext i hi
  simp only [BitVec.getElem_and, BitVec.getElem_not, BitVec.getElem_zero]
  cases m[i] <;> simp

/-- Setting a bit leaves the other bits alone, and so does clearing it. -/
theorem or_and_of_disjoint {m k : Events} (h : m &&& k = 0#32) (e : Events) :
    (e ||| m) &&& k = e &&& k := by
  rw [BitVec.and_comm, BitVec.and_or_distrib_left, BitVec.and_comm k m, h, BitVec.or_zero,
    BitVec.and_comm]

theorem and_not_and_of_disjoint {m k : Events} (h : m &&& k = 0#32) (e : Events) :
    e &&& ~~~m &&& k = e &&& k := by
  ext i hi
  have hbit : (m[i] && k[i]) = false := by
    rw [← BitVec.getElem_and, h, BitVec.getElem_zero]
  simp only [BitVec.getElem_and, BitVec.getElem_not]
  cases hm : m[i]
  · simp
  · simp only [hm, Bool.true_and] at hbit
    simp [hbit]

@[simp] theorem isWriting_enableWriting (c : Channel) :
    (c.setInterest .enableWriting).isWriting = true := by
  simp only [isWriting, setInterest, bit_or_self]
  decide

@[simp] theorem isWriting_disableWriting (c : Channel) :
    (c.setInterest .disableWriting).isWriting = false := by
  simp [isWriting, setInterest, bit_and_not_self]

@[simp] theorem isWriting_disableAll (c : Channel) :
    (c.setInterest .disableAll).isWriting = false := by
  simp [isWriting, setInterest, kNoneEvent]

theorem kReadEvent_and_kWriteEvent : kReadEvent &&& kWriteEvent = 0#32 := by decide

@[simp] theorem isWriting_enableReading (c : Channel) :
    (c.setInterest .enableReading).isWriting = c.isWriting := by
  simp only [isWriting, setInterest, or_and_of_disjoint kReadEvent_and_kWriteEvent]

@[simp] theorem isReading_enableReading (c : Channel) :
    (c.setInterest .enableReading).isReading = true := by
  simp only [isReading, setInterest, bit_or_self]
  decide

@[simp] theorem isReading_enableWriting (c : Channel) :
    (c.setInterest .enableWriting).isReading = c.isReading := by
  have hbits : kWriteEvent &&& kReadEvent = 0#32 := by decide
  simp only [isReading, setInterest, or_and_of_disjoint hbits]

@[simp] theorem isReading_disableWriting (c : Channel) :
    (c.setInterest .disableWriting).isReading = c.isReading := by
  have hbits : kWriteEvent &&& kReadEvent = 0#32 := by decide
  simp only [isReading, setInterest, and_not_and_of_disjoint hbits]

theorem isNoneEvent_of_isReading {c : Channel} (h : c.isReading = true) :
    c.isNoneEvent = false := by
  by_contra hnone
  simp only [Bool.not_eq_false, isNoneEvent, beq_iff_eq] at hnone
  simp [isReading, hnone, kNoneEvent] at h

end Channel
end MuduoCore
