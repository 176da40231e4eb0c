import MuduoCore.Connection.StateOrder
import MuduoCore.Polling.RegisteredChannel
import MuduoCore.Storage.BufferQueue

/-!
# A connection on its loop's thread

The member functions of `TcpConnection` that run on the thread of its loop,
each as a function of the connection, of the answer to its one system call,
and of the value the logger leaves in `errno`. `written` and `halfClosed` are
the kernel's side: the bytes accepted so far, and whether `shutdownWrite` has
been executed. Functors handed to `queueInLoop` are returned in order.
-/

namespace MuduoCore

/-- The error numbers the code tells apart. -/
inductive Errno
  | EWOULDBLOCK
  | EPIPE
  | ECONNRESET
  | other (code : ℕ)
  deriving DecidableEq, Repr

/-- The peer is gone, as the code sees it. -/
def Errno.isFault (e : Errno) : Bool := e = .EPIPE || e = .ECONNRESET

inductive SysResult
  | ok (n : ℕ)
  | error (e : Errno)
  deriving DecidableEq, Repr

/-- The answer to a system call, and `errno` after its failure has been logged. -/
structure Outcome where
  result : SysResult
  errnoAfterLog : Errno
  deriving DecidableEq, Repr

/-- Functors bound to a connection, and those of the rest of the program.
`P` is what `send` binds. -/
inductive Functor (P : Type*)
  | connectEstablished
  | connectDestroyed
  | removeConnectionInLoop
  | sendInLoop (payload : P)
  | sendFileInLoop (fileDescriptor : ℤ) (offset count : ℕ)
  | shutdownInLoop
  | writeComplete
  | highWaterMark (size : ℕ)
  | other
  deriving DecidableEq, Repr

/-- What the member functions queue on their own loop. -/
def Functor.followsUp {P : Type*} : Functor P → Bool
  | sendFileInLoop _ _ _ | writeComplete | highWaterMark _ => true
  | _ => false

structure TcpConnection where
  state_ : StateE
  channel_ : RegisteredChannel
  outputBuffer_ : SafeBuffer
  highWaterMark_ : ℕ
  /-- whether the callback of that name is set -/
  writeCompleteCallback_ : Bool
  highWaterMarkCallback_ : Bool
  written : List Byte
  halfClosed : Bool

/-- No more bytes are accepted than were offered. -/
def Outcome.Fits (o : Outcome) (len : ℕ) : Prop := ∀ n, o.result = .ok n → n ≤ len

instance (o : Outcome) (len : ℕ) : Decidable (o.Fits len) :=
  match h : o.result with
  | .ok n => decidable_of_iff (n ≤ len) (by simp [Outcome.Fits, h])
  | .error _ => isTrue (by simp [Outcome.Fits, h])

/-- `faultError` after the call: the second test reads `errno` after the log. -/
def Outcome.faultError (o : Outcome) : Bool :=
  match o.result with
  | .ok _ => false
  | .error e => e ≠ .EWOULDBLOCK && o.errnoAfterLog.isFault

/-- Logging a failure leaves `errno` on its side of the test for fatal errors. -/
def Outcome.LogKeepsClass (o : Outcome) : Prop :=
  ∀ e, o.result = .error e → e ≠ .EWOULDBLOCK → o.errnoAfterLog.isFault = e.isFault

instance (o : Outcome) : Decidable o.LogKeepsClass :=
  match h : o.result with
  | .ok _ => isTrue (by simp [Outcome.LogKeepsClass, h])
  | .error e => decidable_of_iff (e ≠ .EWOULDBLOCK → o.errnoAfterLog.isFault = e.isFault)
      (by simp [Outcome.LogKeepsClass, h])

/-- Logging an error other than `EPIPE` and `ECONNRESET` leaves neither in `errno`. -/
def Outcome.LogKeepsOther (o : Outcome) : Prop :=
  ∀ e, o.result = .error e → e ≠ .EWOULDBLOCK → e.isFault = false →
    o.errnoAfterLog.isFault = false

instance (o : Outcome) : Decidable o.LogKeepsOther :=
  match h : o.result with
  | .ok _ => isTrue (by simp [Outcome.LogKeepsOther, h])
  | .error e =>
    decidable_of_iff (e ≠ .EWOULDBLOCK → e.isFault = false → o.errnoAfterLog.isFault = false)
      (by simp [Outcome.LogKeepsOther, h])

/-- The count, where an error counts for zero. -/
def Outcome.count (o : Outcome) : ℕ :=
  match o.result with
  | .ok n => n
  | .error _ => 0

def Outcome.succeeded (o : Outcome) : Bool :=
  match o.result with
  | .ok _ => true
  | .error _ => false

namespace TcpConnection

variable {P : Type*}

/-- The channel with the four callbacks that the constructor sets. -/
def newChannel (sockfd : ℤ) : RegisteredChannel :=
  ((((RegisteredChannel.create sockfd).setCallback .readCallback).setCallback
    .writeCallback).setCallback .closeCallback).setCallback .errorCallback

/-- The constructor, with the callbacks `TcpServer::newConnection` sets. -/
def create (sockfd : ℤ) (writeCompleteCallback : Bool) : TcpConnection where
  state_ := .kConnecting
  channel_ := newChannel sockfd
  outputBuffer_ := .create Buffer.kInitialSize
  highWaterMark_ := 64 * 1024 * 1024
  writeCompleteCallback_ := writeCompleteCallback
  highWaterMarkCallback_ := false
  written := []
  halfClosed := false

def setHighWaterMarkCallback (c : TcpConnection) (highWaterMark : ℕ) : TcpConnection :=
  { c with highWaterMarkCallback_ := true, highWaterMark_ := highWaterMark }

/-- Before `connectEstablished`: as created, with the high-water mark it has by
default or with one of its own. -/
def New (c : TcpConnection) : Prop :=
  ∃ sockfd writeCompleteCallback, c = create sockfd writeCompleteCallback ∨
    ∃ highWaterMark,
      c = (create sockfd writeCompleteCallback).setHighWaterMarkCallback highWaterMark

def connected (c : TcpConnection) : Bool := c.state_ = .kConnected

def isWriting (c : TcpConnection) : Bool := c.channel_.channel.isWriting

def changeInterest (c : TcpConnection) (i : InterestChange) : TcpConnection :=
  { c with channel_ := c.channel_.change i }

/-- The test before a direct write: nothing is waiting to be written. -/
def writesDirectly (c : TcpConnection) : Bool :=
  !c.isWriting && c.outputBuffer_.readableBytes = 0

/-- The end of `sendInLoop`: the rest of the payload waits in `outputBuffer_`. -/
def appendOutput (c : TcpConnection) (rest : List Byte) : TcpConnection × List (Functor P) :=
  let oldLen := c.outputBuffer_.readableBytes
  let queued := if c.highWaterMark_ ≤ oldLen + rest.length && oldLen < c.highWaterMark_ &&
      c.highWaterMarkCallback_ then [.highWaterMark (oldLen + rest.length)] else []
  let appended := { c with outputBuffer_ := c.outputBuffer_.append rest }
  (if c.isWriting then appended else appended.changeInterest .enableWriting, queued)

/-- `nwrote` after the direct write, or without one. -/
def nwrote (c : TcpConnection) (o : Outcome) : ℕ := if c.writesDirectly then o.count else 0

/-- The error of the direct write, if one is made and fails. -/
def directError (c : TcpConnection) (o : Outcome) : Option Errno :=
  match o.result with
  | .ok _ => none
  | .error e => if c.writesDirectly then some e else none

/-- The last test of `sendInLoop`: `!faultError && remaining > 0`. -/
def leavesRest (c : TcpConnection) (len : ℕ) (o : Outcome) : Bool :=
  !(c.writesDirectly && o.faultError) && 0 < len - c.nwrote o

/-- `state_` is only logged. -/
def sendInLoop (c : TcpConnection) (data : List Byte) (o : Outcome) :
    TcpConnection × List (Functor P) :=
  let sent := { c with written := c.written ++ data.take (c.nwrote o) }
  if c.leavesRest data.length o then sent.appendOutput (data.drop (c.nwrote o))
  else
    (sent, if c.writesDirectly && o.succeeded && c.writeCompleteCallback_ then [.writeComplete]
      else [])

/-- `content` is the file; `sendfile(2)` advances `offset` by its result. -/
def sendFileInLoop (c : TcpConnection) (content : List Byte)
    (fileDescriptor : ℤ) (offset count : ℕ) (o : Outcome) : TcpConnection × List (Functor P) :=
  if c.state_ = .kDisconnecting then (c, [])
  else
    let bytesSent := c.nwrote o
    let remaining := count - bytesSent
    let sent := { c with written := c.written ++ (content.drop offset).take bytesSent }
    let completed := c.writesDirectly && o.succeeded && remaining = 0 &&
      c.writeCompleteCallback_
    (sent, (if completed then [.writeComplete] else []) ++
      if c.leavesRest count o then
        [.sendFileInLoop fileDescriptor (offset + bytesSent) remaining] else [])

def shutdownInLoop (c : TcpConnection) : TcpConnection :=
  if c.isWriting then c else { c with halfClosed := true }

/-- `writeFd` has handed `n` bytes of the buffer to the kernel. -/
def retrieveWritten (c : TcpConnection) (n : ℕ) : TcpConnection :=
  { c with
    outputBuffer_ := c.outputBuffer_.retrieve n
    written := c.written ++ c.outputBuffer_.readable.take n }

/-- The flag tells whether the buffer has been drained; then the test of
`state_` is still to come. -/
def handleWrite (c : TcpConnection) (o : Outcome) : TcpConnection × List (Functor P) × Bool :=
  if c.isWriting && 0 < o.count then
    if (c.retrieveWritten o.count).outputBuffer_.readableBytes = 0 then
      ((c.retrieveWritten o.count).changeInterest .disableWriting,
        if c.writeCompleteCallback_ then [.writeComplete] else [], true)
    else (c.retrieveWritten o.count, [], false)
  else (c, [], false)

/-- The end of `handleWrite`. -/
def halfCloseIfDisconnecting (c : TcpConnection) : TcpConnection :=
  if c.state_ = .kDisconnecting then c.shutdownInLoop else c

/-! ## What the member functions queue -/

theorem followsUp_of_mem_sendInLoop {c : TcpConnection} {data : List Byte} {o : Outcome}
    {f : Functor P} (h : f ∈ (c.sendInLoop data o).2) : f.followsUp = true := by
  unfold sendInLoop appendOutput at h
  dsimp only at h
  split_ifs at h <;> simp_all [Functor.followsUp]

theorem followsUp_of_mem_sendFileInLoop {c : TcpConnection} {content : List Byte}
    {fileDescriptor : ℤ} {offset count : ℕ} {o : Outcome} {f : Functor P}
    (h : f ∈ (c.sendFileInLoop content fileDescriptor offset count o).2) :
    f.followsUp = true := by
  unfold sendFileInLoop at h
  dsimp only at h
  split_ifs at h <;> simp_all [Functor.followsUp]
  all_goals rcases h with rfl | rfl <;> rfl

theorem followsUp_of_mem_handleWrite {c : TcpConnection} {o : Outcome} {f : Functor P}
    (h : f ∈ (c.handleWrite o).2.1) : f.followsUp = true := by
  unfold handleWrite at h
  split_ifs at h <;> simp_all [Functor.followsUp]

/-! ## What the member functions do to the output and to the interest -/

/-- The bytes accepted by the kernel, then those that wait. -/
def output (c : TcpConnection) : List Byte := c.written ++ c.outputBuffer_.readable

/-- Write interest is on exactly while bytes wait. -/
def InterestMatches (c : TcpConnection) : Prop :=
  c.isWriting = true ↔ c.outputBuffer_.readable ≠ []

/-- The kernel watches the socket, for reading at least. -/
def Reading (c : TcpConnection) : Prop :=
  c.channel_.channel.index_ = .kAdded ∧ c.channel_.channel.isReading = true

/-- The kernel does not watch the socket. -/
def Unwatched (c : TcpConnection) : Prop :=
  c.channel_.channel.index_ ≠ .kAdded ∧ c.channel_.channel.events_ = 0#32

variable (c : TcpConnection) (data : List Byte) (o : Outcome)

@[simp] theorem changeInterest_output (i : InterestChange) :
    (c.changeInterest i).output = c.output := rfl

theorem isWriting_change {r : RegisteredChannel} {i : InterestChange} :
    (r.change i).channel.isWriting = (r.channel.setInterest i).isWriting := by
  simp only [Channel.isWriting, RegisteredChannel.change_events]

theorem newChannel_channel (sockfd : ℤ) :
    (newChannel sockfd).channel = ⟨sockfd, 0#32, 0#32, .kNew, true, true, true, true⟩ := rfl

section New

variable {c}

theorem New.state (h : c.New) : c.state_ = .kConnecting := by
  obtain ⟨_, _, rfl | ⟨_, rfl⟩⟩ := h <;> rfl

theorem New.channel (h : c.New) : ∃ sockfd, c.channel_ = newChannel sockfd := by
  obtain ⟨sockfd, _, rfl | ⟨_, rfl⟩⟩ := h <;> exact ⟨sockfd, rfl⟩

theorem New.readable (h : c.New) : c.outputBuffer_.readable = [] := by
  obtain ⟨_, _, rfl | ⟨_, rfl⟩⟩ := h <;> exact SafeBuffer.readable_create _

theorem New.written (h : c.New) : c.written = [] := by
  obtain ⟨_, _, rfl | ⟨_, rfl⟩⟩ := h <;> rfl

theorem New.halfClosed (h : c.New) : c.halfClosed = false := by
  obtain ⟨_, _, rfl | ⟨_, rfl⟩⟩ := h <;> rfl

theorem New.isWriting (h : c.New) : c.isWriting = false := by
  obtain ⟨sockfd, hchannel⟩ := h.channel
  simp [TcpConnection.isWriting, hchannel, newChannel_channel, Channel.isWriting]

end New

theorem readable_nil_or_nwrote_zero : c.outputBuffer_.readable = [] ∨ c.nwrote o = 0 := by
  by_cases h : c.writesDirectly = true
  · left
    simp only [writesDirectly, Bool.and_eq_true, decide_eq_true_eq, SafeBuffer.readableBytes_eq,
      List.length_eq_zero_iff] at h
    exact h.2
  · right
    simp [nwrote, h]

theorem sendInLoop_of_leavesRest (h : c.leavesRest data.length o = true) :
    (c.sendInLoop (P := P) data o).1 = { c with
      written := c.written ++ data.take (c.nwrote o)
      outputBuffer_ := c.outputBuffer_.append (data.drop (c.nwrote o))
      channel_ := if c.isWriting then c.channel_ else c.channel_.change .enableWriting } := by
  rw [sendInLoop, if_pos h, appendOutput]
  by_cases hw : c.channel_.channel.isWriting = true
  · simp [isWriting, hw]
  · simp [isWriting, changeInterest, hw]

theorem sendInLoop_of_not_leavesRest (h : ¬ c.leavesRest data.length o = true) :
    (c.sendInLoop (P := P) data o).1 =
      { c with written := c.written ++ data.take (c.nwrote o) } := by
  rw [sendInLoop, if_neg h]

/-- Where no rest is left, the direct write met an error that the code takes for
fatal, or the payload has been written whole. -/
theorem nwrote_of_not_leavesRest {len : ℕ} (h : ¬ c.leavesRest len o = true) :
    ((c.writesDirectly && o.faultError) = true ∧ c.nwrote o = 0) ∨
      ((c.writesDirectly && o.faultError) = false ∧ len ≤ c.nwrote o) := by
  cases hf : c.writesDirectly && o.faultError
  · right
    simp only [leavesRest, hf, Bool.not_false, Bool.true_and, decide_eq_true_eq, not_lt] at h
    exact ⟨rfl, by omega⟩
  · left
    simp only [Bool.and_eq_true] at hf
    have hcount : o.count = 0 := by
      cases hr : o.result with
      | ok n => simp [Outcome.faultError, hr] at hf
      | error e => simp [Outcome.count, hr]
    exact ⟨rfl, by simp [nwrote, hcount]⟩

/-- A payload is kept whole, unless its direct write met an error that the code
takes for fatal: then it is dropped whole. -/
theorem sendInLoop_output :
    (c.sendInLoop (P := P) data o).1.output =
      c.output ++ if c.writesDirectly && o.faultError then [] else data := by
  have hwaits := c.readable_nil_or_nwrote_zero o
  by_cases h : c.leavesRest data.length o = true
  · have hf : (c.writesDirectly && o.faultError) = false := by
      simp only [leavesRest, Bool.and_eq_true, Bool.not_eq_true'] at h
      exact h.1
    rw [sendInLoop_of_leavesRest c data o h, hf]
    rcases hwaits with hr | hn
    · simp [output, hr]
    · simp [output, hn]
  · rw [sendInLoop_of_not_leavesRest c data o h]
    rcases c.nwrote_of_not_leavesRest o h with ⟨hf, hn⟩ | ⟨hf, hle⟩
    · simp [output, hf, hn]
    · rw [hf, output, List.take_of_length_le hle]
      rcases hwaits with hr | hn
      · simp [output, hr]
      · have hdata : data = [] := List.length_eq_zero_iff.mp (by omega)
        simp [output, hdata]

theorem sendInLoop_interestMatches (h : c.InterestMatches) :
    (c.sendInLoop (P := P) data o).1.InterestMatches := by
  by_cases hl : c.leavesRest data.length o = true
  · rw [sendInLoop_of_leavesRest c data o hl]
    simp only [leavesRest, Bool.and_eq_true, decide_eq_true_eq] at hl
    have hne : data.drop (c.nwrote o) ≠ [] := by
      rw [Ne, List.drop_eq_nil_iff]
      omega
    by_cases hw : c.channel_.channel.isWriting = true
    · simp [InterestMatches, isWriting, hw, hne]
    · simp [InterestMatches, isWriting, hw, hne, isWriting_change]
  · rw [sendInLoop_of_not_leavesRest c data o hl]
    exact h

@[simp] theorem retrieveWritten_output (n : ℕ) : (c.retrieveWritten n).output = c.output := by
  simp [retrieveWritten, output]

theorem handleWrite_eq :
    c.handleWrite (P := P) o = (c, [], false) ∨
    (c.isWriting = true ∧ 0 < o.count ∧ (c.retrieveWritten o.count).outputBuffer_.readable ≠ [] ∧
      c.handleWrite (P := P) o = (c.retrieveWritten o.count, [], false)) ∨
    (c.isWriting = true ∧ 0 < o.count ∧ (c.retrieveWritten o.count).outputBuffer_.readable = [] ∧
      c.handleWrite (P := P) o =
        ((c.retrieveWritten o.count).changeInterest .disableWriting,
          if c.writeCompleteCallback_ then [.writeComplete] else [], true)) := by
  by_cases hw : (c.isWriting && 0 < o.count) = true
  · rw [handleWrite, if_pos hw]
    simp only [Bool.and_eq_true, decide_eq_true_eq] at hw
    simp only [SafeBuffer.readableBytes_eq, List.length_eq_zero_iff]
    by_cases hr : (c.retrieveWritten o.count).outputBuffer_.readable = []
    · exact Or.inr (Or.inr ⟨hw.1, hw.2, hr, by rw [if_pos hr]⟩)
    · exact Or.inr (Or.inl ⟨hw.1, hw.2, hr, by rw [if_neg hr]⟩)
  · left
    rw [handleWrite, if_neg hw]

theorem handleWrite_cases :
    (c.handleWrite (P := P) o).1 = c ∨
    (c.isWriting = true ∧ (c.retrieveWritten o.count).outputBuffer_.readable ≠ [] ∧
      (c.handleWrite (P := P) o).1 = c.retrieveWritten o.count) ∨
    (c.isWriting = true ∧ (c.retrieveWritten o.count).outputBuffer_.readable = [] ∧
      (c.handleWrite (P := P) o).1 =
        (c.retrieveWritten o.count).changeInterest .disableWriting) := by
  rcases c.handleWrite_eq (P := P) o with h | ⟨hw, _, hr, h⟩ | ⟨hw, _, hr, h⟩
  · exact Or.inl (congrArg Prod.fst h)
  · exact Or.inr (Or.inl ⟨hw, hr, congrArg Prod.fst h⟩)
  · exact Or.inr (Or.inr ⟨hw, hr, congrArg Prod.fst h⟩)

theorem handleWrite_output : (c.handleWrite (P := P) o).1.output = c.output := by
  rcases c.handleWrite_cases (P := P) o with h | ⟨_, _, h⟩ | ⟨_, _, h⟩ <;> simp [h]

theorem handleWrite_interestMatches (h : c.InterestMatches) :
    (c.handleWrite (P := P) o).1.InterestMatches := by
  rcases c.handleWrite_cases (P := P) o with hc | ⟨hw, hr, hc⟩ | ⟨hw, hr, hc⟩
  · rwa [hc]
  · rw [hc]
    exact ⟨fun _ => hr, fun _ => hw⟩
  · rw [hc]
    have hoff : ((c.retrieveWritten o.count).changeInterest .disableWriting).isWriting = false := by
      simp [isWriting, changeInterest, isWriting_change]
    exact ⟨fun hon => by simp [hoff] at hon, fun hne => absurd hr hne⟩

theorem handleWrite_of_not_isWriting (h : c.isWriting = false) :
    c.handleWrite (P := P) o = (c, [], false) := by
  simp [handleWrite, h]

theorem interestMatches_enableReading (h : c.InterestMatches) :
    (c.changeInterest .enableReading).InterestMatches := by
  simpa [InterestMatches, isWriting, changeInterest, isWriting_change] using h

theorem interestMatches_remove (h : c.InterestMatches) :
    InterestMatches { c with channel_ := c.channel_.remove } := by
  simpa [InterestMatches, isWriting, Channel.isWriting] using h

/-- The payload is dropped for the error of its direct write alone, if logging
keeps the class of that error. -/
theorem faultError_eq (h : c.writesDirectly = true → o.LogKeepsClass) :
    (c.writesDirectly && o.faultError) =
      (c.directError o = some .EPIPE || c.directError o = some .ECONNRESET) := by
  cases hd : c.writesDirectly with
  | false =>
    cases hr : o.result <;> simp [directError, hr, hd]
  | true =>
    cases hr : o.result with
    | ok n => simp [directError, Outcome.faultError, hr]
    | error e =>
      have hlog := h hd e hr
      by_cases he : e = .EWOULDBLOCK
      · simp [directError, Outcome.faultError, hr, hd, he]
      · have hfault : o.faultError = e.isFault := by simp [Outcome.faultError, hr, he, hlog he]
        simp [directError, hfault, hr, hd, Errno.isFault]

theorem directError_of_faultError (h : (c.writesDirectly && o.faultError) = true)
    (hlog : c.writesDirectly = true → o.LogKeepsOther) :
    ∃ e, c.directError o = some e ∧ e.isFault = true := by
  simp only [Bool.and_eq_true] at h
  obtain ⟨hdirect, hfault⟩ := h
  unfold Outcome.faultError at hfault
  cases hr : o.result with
  | ok n => simp [hr] at hfault
  | error e =>
    simp only [hr, Bool.and_eq_true, decide_eq_true_eq] at hfault
    refine ⟨e, by simp [directError, hr, hdirect], ?_⟩
    by_contra hother
    have hkeeps := hlog hdirect e hr hfault.1 (by simpa using hother)
    rw [hkeeps] at hfault
    cases hfault.2

theorem shutdownInLoop_cases :
    c.shutdownInLoop = c ∨
      c.isWriting = false ∧ c.shutdownInLoop = { c with halfClosed := true } := by
  unfold shutdownInLoop
  split_ifs with h
  · exact Or.inl rfl
  · exact Or.inr ⟨by simpa using h, rfl⟩

theorem halfCloseIfDisconnecting_cases :
    c.halfCloseIfDisconnecting = c ∨ c.state_ = .kDisconnecting ∧ c.isWriting = false ∧
      c.halfCloseIfDisconnecting = { c with halfClosed := true } := by
  unfold halfCloseIfDisconnecting
  split_ifs with h
  · rcases c.shutdownInLoop_cases with hc | ⟨hw, hc⟩
    · exact Or.inl hc
    · exact Or.inr ⟨h, hw, hc⟩
  · exact Or.inl rfl

/-! ## What is watched -/

theorem reading_change {r : RegisteredChannel} {i : InterestChange}
    (h : (r.channel.setInterest i).isReading = true) :
    (r.change i).channel.index_ = .kAdded ∧ (r.change i).channel.isReading = true := by
  refine ⟨r.change_index_kAdded (Channel.isNoneEvent_of_isReading h), ?_⟩
  simpa only [Channel.isReading, RegisteredChannel.change_events] using h

theorem reading_enableReading : (c.changeInterest .enableReading).Reading :=
  reading_change (Channel.isReading_enableReading _)

theorem unwatched_disableAll (h : c.Reading) : (c.changeInterest .disableAll).Unwatched := by
  constructor
  · simp [changeInterest, RegisteredChannel.change_index, h.1, Channel.isNoneEvent,
      Channel.setInterest]
  · simp [changeInterest, Channel.setInterest, Channel.kNoneEvent]

variable {c}

theorem New.unwatched (h : c.New) : c.Unwatched := by
  obtain ⟨sockfd, hchannel⟩ := h.channel
  simp [Unwatched, hchannel, newChannel_channel]

theorem Unwatched.isWriting (h : c.Unwatched) : c.isWriting = false := by
  simp [TcpConnection.isWriting, Channel.isWriting, h.2]

theorem Unwatched.registered (h : c.Unwatched) : c.channel_.registered = none := by
  rw [RegisteredChannel.registered_eq, if_neg h.1]

theorem Unwatched.remove (h : c.Unwatched) :
    Unwatched { c with channel_ := c.channel_.remove } := by
  refine ⟨?_, ?_⟩
  · simp
  · simpa using h.2

theorem Reading.sendInLoop (h : c.Reading) : (c.sendInLoop (P := P) data o).1.Reading := by
  by_cases hl : c.leavesRest data.length o = true
  · rw [sendInLoop_of_leavesRest c data o hl]
    by_cases hw : c.isWriting = true
    · simpa [Reading, hw] using h
    · simp only [Reading, hw]
      apply reading_change
      rw [Channel.isReading_enableWriting]
      exact h.2
  · rw [sendInLoop_of_not_leavesRest c data o hl]
    exact h

theorem Unwatched.sendInLoop (h : c.Unwatched) (hl : ¬ c.leavesRest data.length o = true) :
    (c.sendInLoop (P := P) data o).1.Unwatched := by
  rw [sendInLoop_of_not_leavesRest c data o hl]
  exact h

theorem Reading.handleWrite (h : c.Reading) : (c.handleWrite (P := P) o).1.Reading := by
  rcases c.handleWrite_cases (P := P) o with hc | ⟨_, _, hc⟩ | ⟨_, _, hc⟩
  · rwa [hc]
  · rw [hc]
    exact h
  · rw [hc]
    apply reading_change
    rw [Channel.isReading_disableWriting]
    exact h.2

variable (c)

/-! ## What the member functions leave alone -/

@[simp] theorem sendInLoop_state : (c.sendInLoop (P := P) data o).1.state_ = c.state_ := by
  unfold sendInLoop appendOutput
  dsimp only
  split_ifs <;> rfl

@[simp] theorem handleWrite_state : (c.handleWrite (P := P) o).1.state_ = c.state_ := by
  rcases c.handleWrite_cases (P := P) o with h | ⟨_, _, h⟩ | ⟨_, _, h⟩ <;> rw [h] <;> rfl

@[simp] theorem sendFileInLoop_state (content : List Byte) (fileDescriptor : ℤ)
    (offset count : ℕ) :
    (c.sendFileInLoop (P := P) content fileDescriptor offset count o).1.state_ = c.state_ := by
  unfold sendFileInLoop
  split_ifs <;> rfl

theorem sendFileInLoop_channel (content : List Byte) (fileDescriptor : ℤ) (offset count : ℕ) :
    (c.sendFileInLoop (P := P) content fileDescriptor offset count o).1.channel_ =
      c.channel_ := by
  unfold sendFileInLoop
  split_ifs <;> rfl

theorem shutdownInLoop_channel : c.shutdownInLoop.channel_ = c.channel_ := by
  unfold shutdownInLoop
  split_ifs <;> rfl

theorem halfCloseIfDisconnecting_channel :
    c.halfCloseIfDisconnecting.channel_ = c.channel_ := by
  unfold halfCloseIfDisconnecting
  split_ifs
  · exact c.shutdownInLoop_channel
  · rfl

@[simp] theorem shutdownInLoop_state : c.shutdownInLoop.state_ = c.state_ := by
  unfold shutdownInLoop
  split_ifs <;> rfl

@[simp] theorem sendInLoop_halfClosed :
    (c.sendInLoop (P := P) data o).1.halfClosed = c.halfClosed := by
  unfold sendInLoop appendOutput
  dsimp only
  split_ifs <;> rfl

@[simp] theorem sendFileInLoop_halfClosed (content : List Byte) (fileDescriptor : ℤ)
    (offset count : ℕ) :
    (c.sendFileInLoop (P := P) content fileDescriptor offset count o).1.halfClosed =
      c.halfClosed := by
  unfold sendFileInLoop
  split_ifs <;> rfl

@[simp] theorem handleWrite_halfClosed :
    (c.handleWrite (P := P) o).1.halfClosed = c.halfClosed := by
  rcases c.handleWrite_cases (P := P) o with h | ⟨_, _, h⟩ | ⟨_, _, h⟩ <;> rw [h] <;> rfl

@[simp] theorem sendFileInLoop_outputBuffer (content : List Byte) (fileDescriptor : ℤ)
    (offset count : ℕ) :
    (c.sendFileInLoop (P := P) content fileDescriptor offset count o).1.outputBuffer_ =
      c.outputBuffer_ := by
  unfold sendFileInLoop
  split_ifs <;> rfl

theorem handleWrite_readable (h : c.outputBuffer_.readable = []) :
    (c.handleWrite (P := P) o).1.outputBuffer_.readable = [] := by
  rcases c.handleWrite_cases (P := P) o with hc | ⟨_, hr, _⟩ | ⟨_, hr, hc⟩
  · rwa [hc]
  · simp [retrieveWritten, h] at hr
  · rw [hc]
    exact hr

@[simp] theorem halfCloseIfDisconnecting_state :
    c.halfCloseIfDisconnecting.state_ = c.state_ := by
  unfold halfCloseIfDisconnecting
  split_ifs <;> simp

end TcpConnection
end MuduoCore
