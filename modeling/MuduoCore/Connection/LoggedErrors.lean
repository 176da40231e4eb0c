import MuduoCore.Connection.OutputRun
import MuduoCore.Connection.FileChain

/-!
# Errors that are logged before they are told apart

A failed call leaves its error in `errno`. `sendInLoop` and `sendFileInLoop`
log it and read `errno` again for `EPIPE` and `ECONNRESET`, so that what they
do depends on what the logger has left there. The two functions are followed
here with `errno` as the source reads it, and shown to be those of the model.
-/

namespace MuduoCore

/-- What the logging of a failure makes of `errno`. -/
abbrev Logger := Errno → Errno

def Logger.quiet : Logger := id

/-- The locals of an execution after its one system call. -/
structure DirectCall where
  count : ℕ
  faultError : Bool
  /-- `writeCompleteCallback_` is queued -/
  completed : Bool
  deriving DecidableEq, Repr

structure Aftermath (P : Type*) where
  faultError : Bool
  conn : TcpConnection
  queued : List (Functor P)

namespace Aftermath

variable {P : Type*}

/-- The rest of the payload or of the file is dropped. -/
structure GivesUp (c : TcpConnection) (a : Aftermath P) : Prop where
  fault : a.faultError = true
  conn : a.conn = c
  queued : a.queued = []

/-- The payload waits in `outputBuffer_` for `EPOLLOUT`. -/
structure KeepsPayload (c : TcpConnection) (data : List Byte) (a : Aftermath P) : Prop where
  fault : a.faultError = false
  written : a.conn.written = c.written
  readable : a.conn.outputBuffer_.readable = c.outputBuffer_.readable ++ data
  writing : data ≠ [] → a.conn.isWriting = true

/-- What is left of the file waits in the next functor. -/
structure KeepsFile (c : TcpConnection) (fileDescriptor : ℤ) (offset count : ℕ)
    (a : Aftermath P) : Prop where
  fault : a.faultError = false
  conn : a.conn = c
  queued : a.queued = if 0 < count then [.sendFileInLoop fileDescriptor offset count] else []

end Aftermath

/-- The answer to a call, and `errno` as the logger leaves it. -/
def Outcome.logged (log : Logger) (r : SysResult) : Outcome where
  result := r
  errnoAfterLog :=
    match r with
    | .ok _ => .EWOULDBLOCK
    | .error e => log e

/-- The same answer, where logging does not touch `errno`. -/
def Outcome.quiet (o : Outcome) : Outcome :=
  match o.result with
  | .ok _ => o
  | .error e => ⟨o.result, e⟩

namespace TcpConnection

variable {P : Type*} (c : TcpConnection) (log : Logger)

/-- `sendInLoop` up to its last test. The log for `kDisconnected` comes before
the call, which stores an error of its own. -/
def directWrite (len : ℕ) (r : SysResult) : DirectCall :=
  if c.writesDirectly then
    match r with
    | .ok nwrote => ⟨nwrote, false, len - nwrote = 0 && c.writeCompleteCallback_⟩
    | .error errno =>
      if errno ≠ .EWOULDBLOCK then
        let errno := log errno
        ⟨0, errno.isFault, false⟩
      else ⟨0, false, false⟩
  else ⟨0, false, false⟩

/-- `sendFileInLoop` up to its last test: `errno` is read for the fatal errors
whether it has been logged or not. -/
def directSendfile (count : ℕ) (r : SysResult) : DirectCall :=
  if c.writesDirectly then
    match r with
    | .ok bytesSent => ⟨bytesSent, false, count - bytesSent = 0 && c.writeCompleteCallback_⟩
    | .error errno =>
      let errno := if errno ≠ .EWOULDBLOCK then log errno else errno
      ⟨0, errno.isFault, false⟩
  else ⟨0, false, false⟩

def sendInLoopLogged (data : List Byte) (r : SysResult) : Aftermath P :=
  let call := c.directWrite log data.length r
  let sent := { c with written := c.written ++ data.take call.count }
  let completed := if call.completed then [.writeComplete] else []
  if !call.faultError && 0 < data.length - call.count then
    let kept := sent.appendOutput (data.drop call.count)
    ⟨call.faultError, kept.1, completed ++ kept.2⟩
  else ⟨call.faultError, sent, completed⟩

def sendFileInLoopLogged (content : List Byte) (fileDescriptor : ℤ) (offset count : ℕ)
    (r : SysResult) : Aftermath P :=
  if c.state_ = .kDisconnecting then ⟨false, c, []⟩
  else
    let call := c.directSendfile log count r
    let sent := { c with written := c.written ++ (content.drop offset).take call.count }
    let completed := if call.completed then [.writeComplete] else []
    let remaining := count - call.count
    ⟨call.faultError, sent, completed ++ if !call.faultError && 0 < remaining then
      [.sendFileInLoop fileDescriptor (offset + call.count) remaining] else []⟩

/-! ## The model's functions -/

theorem faultError_logged (e : Errno) :
    (Outcome.logged log (.error e)).faultError = (e ≠ .EWOULDBLOCK && (log e).isFault) := rfl

theorem directWrite_eq (len : ℕ) (r : SysResult) :
    c.directWrite log len r =
      ⟨c.nwrote (.logged log r), c.writesDirectly && (Outcome.logged log r).faultError,
        c.writesDirectly && (Outcome.logged log r).succeeded &&
          len - c.nwrote (.logged log r) = 0 && c.writeCompleteCallback_⟩ := by
  cases hd : c.writesDirectly with
  | false => simp [directWrite, nwrote, hd]
  | true =>
    cases r with
    | ok n =>
      simp [directWrite, nwrote, hd, Outcome.count, Outcome.faultError, Outcome.succeeded,
        Outcome.logged]
    | error e =>
      by_cases he : e = .EWOULDBLOCK <;>
        simp [directWrite, nwrote, hd, he, Outcome.count, Outcome.faultError, Outcome.succeeded,
          Outcome.logged]

/-- Where nothing has been logged, the later test finds `EWOULDBLOCK`: the two
functions tell errors apart alike. -/
theorem directSendfile_eq_directWrite (count : ℕ) (r : SysResult) :
    c.directSendfile log count r = c.directWrite log count r := by
  unfold directSendfile directWrite
  split_ifs
  · cases r with
    | ok n => rfl
    | error e =>
      by_cases he : e = .EWOULDBLOCK
      · rw [he]
        rfl
      · simp [he]
  · rfl

theorem sendInLoopLogged_eq (data : List Byte) (r : SysResult) :
    c.sendInLoopLogged (P := P) log data r =
      ⟨c.writesDirectly && (Outcome.logged log r).faultError,
        (c.sendInLoop (P := P) data (.logged log r)).1,
        (c.sendInLoop (P := P) data (.logged log r)).2⟩ := by
  unfold sendInLoopLogged sendInLoop
  rw [directWrite_eq]
  dsimp only
  by_cases hl : c.leavesRest data.length (.logged log r) = true
  · have hrest := hl
    simp only [leavesRest, Bool.and_eq_true, Bool.not_eq_true', decide_eq_true_eq] at hrest
    have hnone : ¬ data.length - c.nwrote (.logged log r) = 0 := by omega
    rw [if_pos hl, if_pos (by simp [hrest])]
    simp [hnone]
  · have hrest := hl
    simp only [leavesRest] at hrest
    rw [if_neg hl, if_neg hrest]
    rcases c.nwrote_of_not_leavesRest _ hl with ⟨hf, hn⟩ | ⟨hf, hle⟩
    · have hfailed := succeeded_of_faultError (Bool.and_eq_true_iff.mp hf).2
      simp [hfailed]
    · have hnone : data.length - c.nwrote (.logged log r) = 0 := by omega
      simp [hnone]

theorem sendFileInLoopLogged_eq (hstate : c.state_ ≠ .kDisconnecting) (content : List Byte)
    (fileDescriptor : ℤ) (offset count : ℕ) (r : SysResult) :
    c.sendFileInLoopLogged (P := P) log content fileDescriptor offset count r =
      ⟨c.writesDirectly && (Outcome.logged log r).faultError,
        (c.sendFileInLoop (P := P) content fileDescriptor offset count (.logged log r)).1,
        (c.sendFileInLoop (P := P) content fileDescriptor offset count (.logged log r)).2⟩ := by
  unfold sendFileInLoopLogged sendFileInLoop
  rw [if_neg hstate, if_neg hstate, directSendfile_eq_directWrite, directWrite_eq]
  rfl

/-! ## One failed call, with any logger -/

/-- With this logger a failed `write(2)` is handled as with one that does not
touch `errno`: errors of the peer drop the payload, others keep it. -/
def SendDecided (data : List Byte) (e : Errno) : Prop :=
  let a : Aftermath (List Byte) := c.sendInLoopLogged log data (.error e)
  a = c.sendInLoopLogged Logger.quiet data (.error e) ∧
    (e.isFault = true → a.GivesUp c) ∧ (e.isFault = false → a.KeepsPayload c data)

/-- The same for a failed `sendfile(2)`. -/
def FileDecided (content : List Byte) (fileDescriptor : ℤ) (offset count : ℕ) (e : Errno) :
    Prop :=
  let a : Aftermath (List Byte) :=
    c.sendFileInLoopLogged log content fileDescriptor offset count (.error e)
  a = c.sendFileInLoopLogged Logger.quiet content fileDescriptor offset count (.error e) ∧
    (e.isFault = true → a.GivesUp c) ∧
    (e.isFault = false → a.KeepsFile c fileDescriptor offset count)

variable {c log} {e : Errno}

/-- What follows a failed `write(2)` depends on `faultError` alone. -/
def sendFailed (c : TcpConnection) (data : List Byte) (faultError : Bool) : Aftermath P :=
  if !faultError && 0 < data.length then
    let kept := c.appendOutput data
    ⟨faultError, kept.1, kept.2⟩
  else ⟨faultError, c, []⟩

def sendfileFailed (c : TcpConnection) (fileDescriptor : ℤ) (offset count : ℕ)
    (faultError : Bool) : Aftermath P :=
  ⟨faultError, c,
    if !faultError && 0 < count then [.sendFileInLoop fileDescriptor offset count] else []⟩

theorem directWrite_error (hdirect : c.writesDirectly = true) (len : ℕ) :
    c.directWrite log len (.error e) =
      ⟨0, (Outcome.logged log (.error e)).faultError, false⟩ := by
  simp [directWrite_eq, hdirect, nwrote, Outcome.count, Outcome.succeeded, Outcome.logged]

theorem sendInLoopLogged_error (hdirect : c.writesDirectly = true) (data : List Byte) :
    c.sendInLoopLogged (P := P) log data (.error e) =
      c.sendFailed data (Outcome.logged log (.error e)).faultError := by
  simp [sendInLoopLogged, directWrite_error hdirect, sendFailed]

theorem sendFileInLoopLogged_error (hdirect : c.writesDirectly = true)
    (hstate : c.state_ ≠ .kDisconnecting) (content : List Byte) (fileDescriptor : ℤ)
    (offset count : ℕ) :
    c.sendFileInLoopLogged (P := P) log content fileDescriptor offset count (.error e) =
      c.sendfileFailed fileDescriptor offset count
        (Outcome.logged log (.error e)).faultError := by
  simp [sendFileInLoopLogged, directSendfile_eq_directWrite, directWrite_error hdirect, hstate,
    sendfileFailed]

theorem sendFailed_keeps (hdirect : c.writesDirectly = true) (data : List Byte) :
    (c.sendFailed (P := P) data false).KeepsPayload c data := by
  by_cases hdata : data = []
  · constructor <;> simp [sendFailed, hdata]
  · have hpos : 0 < data.length := List.length_pos_iff.mpr hdata
    have hoff : c.channel_.channel.isWriting = false := by
      simp only [writesDirectly, isWriting, Bool.and_eq_true, Bool.not_eq_true'] at hdirect
      exact hdirect.1
    constructor <;>
      simp [sendFailed, hpos, appendOutput, changeInterest, isWriting, isWriting_change, hoff]

/-- The code takes an error for fatal exactly if it should: it has not been
logged, or the logger has left an error of the same kind. -/
theorem faultError_eq_isFault_iff :
    (Outcome.logged log (.error e)).faultError = e.isFault ↔
      e = .EWOULDBLOCK ∨ (log e).isFault = e.isFault := by
  rw [faultError_logged]
  by_cases he : e = .EWOULDBLOCK
  · simp only [he, ne_eq, not_true_eq_false, decide_false, Bool.false_and, true_or, iff_true]
    rfl
  · simp [he]

theorem faultError_quiet (e : Errno) :
    (Outcome.logged Logger.quiet (.error e)).faultError = e.isFault :=
  faultError_eq_isFault_iff.mpr (Or.inr rfl)

theorem decided_iff (after : Bool → Aftermath P) {Keeps : Aftermath P → Prop}
    (hafter : ∀ b, (after b).faultError = b) (hdrops : (after true).GivesUp c)
    (hkeeps : Keeps (after false)) :
    (after (Outcome.logged log (.error e)).faultError =
        after (Outcome.logged Logger.quiet (.error e)).faultError ∧
      (e.isFault = true → (after (Outcome.logged log (.error e)).faultError).GivesUp c) ∧
      (e.isFault = false → Keeps (after (Outcome.logged log (.error e)).faultError))) ↔
      e = .EWOULDBLOCK ∨ (log e).isFault = e.isFault := by
  rw [← faultError_eq_isFault_iff, faultError_quiet]
  constructor
  · rintro ⟨hquiet, -, -⟩
    have hfaults := congrArg Aftermath.faultError hquiet
    rwa [hafter, hafter] at hfaults
  · intro hfault
    rw [hfault]
    refine ⟨rfl, ?_, ?_⟩
    · intro he
      rw [he]
      exact hdrops
    · intro he
      rw [he]
      exact hkeeps

theorem sendDecided_iff (hdirect : c.writesDirectly = true) (data : List Byte) :
    c.SendDecided log data e ↔ e = .EWOULDBLOCK ∨ (log e).isFault = e.isFault := by
  unfold SendDecided
  rw [sendInLoopLogged_error hdirect, sendInLoopLogged_error hdirect]
  refine decided_iff (c.sendFailed data) ?_ ⟨rfl, rfl, rfl⟩ (sendFailed_keeps hdirect data)
  intro b
  unfold sendFailed
  split_ifs <;> rfl

theorem fileDecided_iff (hdirect : c.writesDirectly = true) (hstate : c.state_ ≠ .kDisconnecting)
    (content : List Byte) (fileDescriptor : ℤ) (offset count : ℕ) :
    c.FileDecided log content fileDescriptor offset count e ↔
      e = .EWOULDBLOCK ∨ (log e).isFault = e.isFault := by
  unfold FileDecided
  rw [sendFileInLoopLogged_error hdirect hstate, sendFileInLoopLogged_error hdirect hstate]
  refine decided_iff (c.sendfileFailed fileDescriptor offset count) (fun _ => rfl)
    ⟨rfl, rfl, rfl⟩ ⟨rfl, rfl, ?_⟩
  simp [sendfileFailed]

/-- Whatever the connection holds, wherever a direct `write(2)` or `sendfile(2)`
fails: what follows is decided by its error alone exactly if that error is not
logged, or the logger leaves `EPIPE` or `ECONNRESET` in `errno` just when it
has found one of them there. -/
theorem decided_by_failed_call_iff (c : TcpConnection) (hdirect : c.writesDirectly = true)
    (log : Logger) (e : Errno) :
    (∀ data, c.SendDecided log data e ↔ e = .EWOULDBLOCK ∨ (log e).isFault = e.isFault) ∧
    ∀ content fileDescriptor offset count, c.state_ ≠ .kDisconnecting →
      (c.FileDecided log content fileDescriptor offset count e ↔
        e = .EWOULDBLOCK ∨ (log e).isFault = e.isFault) :=
  ⟨sendDecided_iff hdirect, fun content fileDescriptor offset count hstate =>
    fileDecided_iff hdirect hstate content fileDescriptor offset count⟩

open OutputRun (established)

/-- `ENOBUFS`, and a logger that finds no file for the time zone. -/
theorem decided_by_failed_call_iff_other :
    (established false).SendDecided (fun _ => .other 2) [1] (.other 105) ∧
      (established false).FileDecided (fun _ => .other 2) [1] 5 0 1 (.other 105) :=
  let h := decided_by_failed_call_iff (established false) (by decide +kernel)
    (fun _ => .other 2) (.other 105)
  ⟨(h.1 [1]).mpr (Or.inr rfl), (h.2 [1] 5 0 1 (by decide)).mpr (Or.inr rfl)⟩

/-- The same logger makes `sendInLoop` keep a payload for a peer that is gone;
one that writes to a closed pipe makes `sendFileInLoop` give up a file for
`ENOBUFS`. -/
theorem decided_by_logger :
    let sent : Aftermath (List Byte) :=
      (established false).sendInLoopLogged (fun _ => .other 2) [1] (.error .EPIPE)
    let file : Aftermath (List Byte) :=
      (established false).sendFileInLoopLogged (fun _ => .EPIPE) [1] 5 0 1 (.error (.other 105))
    (sent.faultError = false ∧ sent.conn.outputBuffer_.readable = [1] ∧
      sent.conn.isWriting = true) ∧
    ¬ (established false).SendDecided (fun _ => .other 2) [1] .EPIPE ∧
    (file.faultError = true ∧ file.queued = []) ∧
    ¬ (established false).FileDecided (fun _ => .EPIPE) [1] 5 0 1 (.other 105) := by
  refine ⟨by decide +kernel, ?_, by decide +kernel, ?_⟩
  · rintro ⟨-, hgives, -⟩
    exact absurd (hgives rfl).fault (by decide +kernel)
  · rintro ⟨-, -, hkeeps⟩
    exact absurd (hkeeps rfl).fault (by decide +kernel)

/-! ## A whole run, with any logger -/

def OutputCall.outcome : OutputCall → Outcome
  | .sendInLoop _ o => o
  | .handleWrite o => o

def OutputCall.quiet : OutputCall → OutputCall
  | .sendInLoop data o => .sendInLoop data o.quiet
  | .handleWrite o => .handleWrite o.quiet

theorem result_quiet (o : Outcome) : o.quiet.result = o.result := by
  unfold Outcome.quiet
  split <;> rfl

theorem count_quiet (o : Outcome) : o.quiet.count = o.count := by
  rw [Outcome.count, Outcome.count, result_quiet]

theorem succeeded_quiet (o : Outcome) : o.quiet.succeeded = o.succeeded := by
  rw [Outcome.succeeded, Outcome.succeeded, result_quiet]

theorem faultError_quiet_eq {o : Outcome} (h : o.LogKeepsClass) :
    o.quiet.faultError = o.faultError := by
  cases hr : o.result with
  | ok n => simp [Outcome.faultError, Outcome.quiet, hr]
  | error e =>
    by_cases he : e = .EWOULDBLOCK
    · simp [Outcome.faultError, Outcome.quiet, hr, he]
    · simp [Outcome.faultError, Outcome.quiet, hr, he, h e hr he]

theorem nwrote_quiet (c : TcpConnection) (o : Outcome) : c.nwrote o.quiet = c.nwrote o := by
  rw [nwrote, nwrote, count_quiet]

theorem leavesRest_quiet (c : TcpConnection) (len : ℕ) {o : Outcome}
    (h : c.writesDirectly = true → o.LogKeepsClass) :
    c.leavesRest len o.quiet = c.leavesRest len o := by
  rw [leavesRest, leavesRest, nwrote_quiet]
  cases hd : c.writesDirectly with
  | false => rfl
  | true => rw [faultError_quiet_eq (h hd)]

theorem sendInLoop_quiet (c : TcpConnection) (data : List Byte) {o : Outcome}
    (h : c.writesDirectly = true → o.LogKeepsClass) :
    c.sendInLoop (P := P) data o.quiet = c.sendInLoop data o := by
  rw [sendInLoop, sendInLoop, nwrote_quiet, leavesRest_quiet c _ h, succeeded_quiet]

theorem sendFileInLoop_quiet (c : TcpConnection) (content : List Byte) (fileDescriptor : ℤ)
    (offset count : ℕ) {o : Outcome} (h : c.writesDirectly = true → o.LogKeepsClass) :
    c.sendFileInLoop (P := P) content fileDescriptor offset count o.quiet =
      c.sendFileInLoop content fileDescriptor offset count o := by
  rw [sendFileInLoop, sendFileInLoop, nwrote_quiet, leavesRest_quiet c _ h, succeeded_quiet]

theorem perform_quiet (c : TcpConnection) (call : OutputCall)
    (h : c.writesDirectly = true → call.outcome.LogKeepsClass) :
    c.perform call.quiet = c.perform call := by
  cases call with
  | sendInLoop data o => exact c.sendInLoop_quiet data h
  | handleWrite o => rw [OutputCall.quiet, perform, perform, handleWrite, handleWrite, count_quiet]

/-- Two runs with the same payloads and the same answers of the kernel, one of
them with a logger that does not touch `errno`, stay together as long as the
other logger keeps the class of the error of every direct write. -/
theorem performAll_quiet (c : TcpConnection) (calls : List OutputCall)
    (h : ∀ pre call, pre ++ [call] <+: calls → (c.performAll pre).writesDirectly = true →
      call.outcome.LogKeepsClass) :
    c.performAll (calls.map OutputCall.quiet) = c.performAll calls := by
  induction calls generalizing c with
  | nil => rfl
  | cons call calls ih =>
    have hfirst : c.perform call.quiet = c.perform call :=
      c.perform_quiet call (h [] call (List.prefix_append [call] calls))
    have hrest := ih (c.perform call).1 fun pre call' hprefix =>
      h (call :: pre) call' (List.cons_prefix_cons.mpr ⟨rfl, hprefix⟩)
    rw [List.map_cons, performAll, List.foldl_cons, hfirst]
    exact hrest

end TcpConnection

namespace FileChain

/-- The same execution, where logging does not touch `errno`. -/
def quiet (t : Turn) : Turn := ⟨t.conn, t.outcome.quiet⟩

variable {content : List Byte}

theorem turn_quiet (s : FileChain) {t : Turn}
    (h : t.conn.writesDirectly = true → t.outcome.LogKeepsClass) :
    s.turn content (quiet t) = s.turn content t := by
  unfold turn
  cases s.pending with
  | nil => rfl
  | cons p ps => simp only [quiet, t.conn.sendFileInLoop_quiet content _ _ _ h]

theorem after_quiet (s : FileChain) {env : ℕ → Turn}
    (h : ∀ n, (env n).conn.writesDirectly = true → (env n).outcome.LogKeepsClass) (n : ℕ) :
    after content s (fun n => quiet (env n)) n = after content s env n := by
  induction n with
  | zero => rfl
  | succ n ih => rw [after, after, ih, turn_quiet _ (h n)]

end FileChain
end MuduoCore
