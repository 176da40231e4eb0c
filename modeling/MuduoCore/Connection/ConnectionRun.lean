import MuduoCore.Foundation.TransitionSystem
import MuduoCore.Loop.EventLoop
import MuduoCore.Connection.TcpConnection

/-!
# A connection, its threads and its loops

One connection from `TcpServer::newConnection` on, while the server exists. It
belongs to the loop of the thread `io`; the server's loop is that of `main`,
possibly the same; any other threads use the connection too. Every thread has
a stack of the instructions it still has to run, each of which is one step: one
access to `state_`, one critical section of a loop, or one stretch of code that
touches only what belongs to the thread of the connection's loop. The last
fields of `Shared` and of `ConnectionRun` record what has happened.

A call by a user is made with a `shared_ptr` held for the call, and a destroyed
connection takes no further step: `Permitted` says so.
-/

namespace MuduoCore

/-- What `send` binds, with its caller and the bytes that `buf` held. -/
structure Payload (T : Type*) where
  caller : T
  data : ℕ
  len : ℕ
  bytes : List Byte
  deriving DecidableEq, Repr

/-- A `sendInLoop` that has run: the bytes it found behind the pointer, and the
error of its direct write, if it made one that failed. -/
structure Execution (T : Type*) where
  payload : Payload T
  data : List Byte
  failure : Option Errno
  deriving DecidableEq, Repr

/-- A callback of the user, with what `connected()` returns in it. -/
inductive Invocation
  | connection (connected : Bool)
  | message
  deriving DecidableEq, Repr

inductive Instr (T : Type*)
  /-- `send`, `sendFile` and `shutdown`, about to test `state_` -/
  | send (payload : Payload T)
  | sendFile (fileDescriptor : ℤ) (offset count : ℕ)
  | shutdown
  | setState (state : StateE)
  | runInLoop (loop : T) (cb : Functor (Payload T))
  | queueInLoop (loop : T) (cb : Functor (Payload T))
  /-- the end of `queueInLoop`, after its critical section -/
  | wakeup (loop : T)
  | call (f : Functor (Payload T))
  | handle (cb : EventCallback)
  /-- the end of `handleWrite`, about to test `state_` -/
  | drained
  | changeInterest (i : InterestChange)
  | remove
  | connectionCallback
  | messageCallback
  | closeCallback
  /-- code of the user, called with a `TcpConnectionPtr` -/
  | user
  /-- a `shared_ptr` goes out of scope -/
  | release
  deriving DecidableEq, Repr

inductive UserCall (T : Type*)
  | send (data len : ℕ)
  | sendFile (fileDescriptor : ℤ) (offset count : ℕ)
  | shutdown
  /-- a functor that has nothing to do with this connection -/
  | queueInLoop (loop : T)
  deriving DecidableEq, Repr

inductive RunLabel (T : Type*)
  | exec (t : T) (o : Outcome)
  | control (t : T) (c : LoopStep)
  /-- `poll` returns with the connection's channel among `activeChannels_` -/
  | report (wakeup : Bool) (revents : Events)
  | handleEvent
  | call (t : T) (c : UserCall T)
  | store (t : T) (address : ℕ) (value : Byte)
  deriving DecidableEq, Repr

/-- The functor holds a `shared_ptr`; `send` and `shutdown` bind the raw `this`. -/
def Functor.shared {P : Type*} : Functor P → Bool
  | sendInLoop _ | shutdownInLoop | other => false
  | _ => true

def Functor.bound {P : Type*} : Functor P → Bool
  | other => false
  | _ => true

/-- The `shared_ptr` inside a function object on the stack. -/
def Functor.destructor {P T : Type*} (f : Functor P) : List (Instr T) :=
  if f.shared then [.release] else []

/-- The instruction owns a `shared_ptr` to the connection. -/
def Instr.holdsRef {T : Type*} : Instr T → Bool
  | user | release => true
  | runInLoop _ f | queueInLoop _ f => f.shared
  | _ => false

def Instr.usesConnection {T : Type*} : Instr T → Bool
  | user | release | runInLoop _ _ | queueInLoop _ _ | wakeup _ => false
  | call f => f.bound
  | _ => true

structure Shared (T : Type*) where
  conn : TcpConnection
  /-- `connections_` has the entry of the connection -/
  inConnections : Bool
  memory : ℕ → Byte
  files : ℤ → List Byte
  /-- `handleClose` or `connectDestroyed` has begun -/
  closing : Bool
  callbacks : List Invocation
  closeCallbacks : ℕ
  accepted : List (Payload T)
  executed : List (Execution T)

structure ConnectionRun (T : Type*) extends Shared T where
  loops : T → EventLoop (Functor (Payload T))
  stack : T → List (Instr T)
  /-- the channel is among the `activeChannels_` still to be handled -/
  active : Bool
  /-- the loop has swapped out a batch that holds `connectDestroyed` -/
  destroySwapped : Bool

def readMemory (memory : ℕ → Byte) (data len : ℕ) : List Byte :=
  (List.range' data len).map memory

namespace Shared

variable {T : Type*}

def enqueue (io : T) (fs : List (Functor (Payload T))) : List (Instr T) :=
  fs.map (.queueInLoop io)

/-- The bytes that a queued `sendInLoop` finds behind its pointer. -/
def payloadData (s : Shared T) (p : Payload T) : List Byte := readMemory s.memory p.data p.len

theorem length_payloadData (s : Shared T) (p : Payload T) : (s.payloadData p).length = p.len := by
  simp [payloadData, readMemory]

/-- The body of a functor: what it does at once, and what is left to do. -/
def body (io : T) (s : Shared T) (f : Functor (Payload T)) (o : Outcome) :
    Option (Shared T × List (Instr T)) :=
  match f with
  | .connectEstablished =>
    some (s, [.setState .kConnected, .changeInterest .enableReading, .connectionCallback])
  | .connectDestroyed =>
    some ({ s with closing := true },
      if s.conn.connected then
        [.setState .kDisconnected, .changeInterest .disableAll, .connectionCallback, .remove]
      else [.remove])
  | .removeConnectionInLoop =>
    some ({ s with inConnections := false }, [.queueInLoop io .connectDestroyed])
  | .sendInLoop p =>
    let r := s.conn.sendInLoop (s.payloadData p) o
    if o.Fits (s.payloadData p).length then
      some ({ s with
        conn := r.1
        executed := s.executed ++ [⟨p, s.payloadData p, s.conn.directError o⟩] }, enqueue io r.2)
    else none
  | .sendFileInLoop fileDescriptor offset count =>
    let content := s.files fileDescriptor
    let r := s.conn.sendFileInLoop content fileDescriptor offset count o
    if o.Fits (min count (content.length - offset)) then
      some ({ s with conn := r.1 }, enqueue io r.2)
    else none
  | .shutdownInLoop => some ({ s with conn := s.conn.shutdownInLoop }, [])
  | .writeComplete | .highWaterMark _ => some (s, [.user])
  | .other => some (s, [])

/-- `handleClose`, `handleError`, `handleRead` and `handleWrite`. -/
def handler (io : T) (s : Shared T) (cb : EventCallback) (o : Outcome) :
    Option (Shared T × List (Instr T)) :=
  match cb with
  | .closeCallback =>
    some ({ s with closing := true },
      [.setState .kDisconnected, .changeInterest .disableAll, .connectionCallback,
        .closeCallback, .release])
  | .errorCallback => some (s, [])
  | .readCallback =>
    some (s, if o.succeeded then
      if o.count = 0 then [.handle .closeCallback] else [.messageCallback] else [])
  | .writeCallback =>
    let r := s.conn.handleWrite o
    if o.Fits s.conn.outputBuffer_.readableBytes then
      some ({ s with conn := r.1 }, enqueue io r.2.1 ++ if r.2.2 then [.drained] else [])
    else none

variable [DecidableEq T]

/-- One instruction on thread `t`, apart from the two halves of `queueInLoop`. -/
def run (io main t : T) (s : Shared T) (i : Instr T) (o : Outcome) :
    Option (Shared T × List (Instr T)) :=
  match i with
  | .send p =>
    some (if s.conn.connected then
      ({ s with accepted := s.accepted ++ [p] },
        [if t = io then .call (.sendInLoop p) else .runInLoop io (.sendInLoop p)])
      else (s, []))
  | .sendFile fileDescriptor offset count =>
    let f := .sendFileInLoop fileDescriptor offset count
    some (s, if s.conn.connected then [if t = io then .call f else .runInLoop io f] else [])
  | .shutdown =>
    some (s, if s.conn.connected then [.setState .kDisconnecting, .runInLoop io .shutdownInLoop]
      else [])
  | .setState state => some ({ s with conn := { s.conn with state_ := state } }, [])
  | .runInLoop loop cb =>
    some (s, if t = loop then .call cb :: cb.destructor else [.queueInLoop loop cb])
  | .call f => s.body io f o
  | .handle cb => s.handler io cb o
  | .drained => some ({ s with conn := s.conn.halfCloseIfDisconnecting }, [])
  | .changeInterest i => some ({ s with conn := s.conn.changeInterest i }, [])
  | .remove => some ({ s with conn := { s.conn with channel_ := s.conn.channel_.remove } }, [])
  | .connectionCallback =>
    some ({ s with callbacks := s.callbacks ++ [.connection s.conn.connected] }, [.user])
  | .messageCallback => some ({ s with callbacks := s.callbacks ++ [.message] }, [.user])
  | .closeCallback =>
    some ({ s with closeCallbacks := s.closeCallbacks + 1 },
      [.runInLoop main .removeConnectionInLoop])
  | .user | .release => some (s, [])
  | .queueInLoop _ _ | .wakeup _ => none

theorem run_sendInLoop {io main t : T} {s c : Shared T} {p : Payload T} {o : Outcome}
    {new : List (Instr T)} (h : s.run io main t (.call (.sendInLoop p)) o = some (c, new)) :
    o.Fits (s.payloadData p).length ∧
    c = { s with
      conn := (s.conn.sendInLoop (P := Payload T) (s.payloadData p) o).1
      executed := s.executed ++ [⟨p, s.payloadData p, s.conn.directError o⟩] } ∧
    new = enqueue io (s.conn.sendInLoop (s.payloadData p) o).2 := by
  simp only [run, body] at h
  split_ifs at h with hfit
  cases h
  exact ⟨hfit, rfl, rfl⟩

/-! ### Which instruction can follow which -/

/-- What an instruction of thread `t` can leave to do in its place. -/
inductive Follows (io main t : T) : Instr T → Instr T → Prop
  | send_call (p : Payload T) (ht : t = io) :
      Follows io main t (.send p) (.call (.sendInLoop p))
  | send_run (p : Payload T) (ht : t ≠ io) :
      Follows io main t (.send p) (.runInLoop io (.sendInLoop p))
  | sendFile_call (fileDescriptor : ℤ) (offset count : ℕ) (ht : t = io) :
      Follows io main t (.sendFile fileDescriptor offset count)
        (.call (.sendFileInLoop fileDescriptor offset count))
  | sendFile_run (fileDescriptor : ℤ) (offset count : ℕ) (ht : t ≠ io) :
      Follows io main t (.sendFile fileDescriptor offset count)
        (.runInLoop io (.sendFileInLoop fileDescriptor offset count))
  | shutdown_store : Follows io main t .shutdown (.setState .kDisconnecting)
  | shutdown_run : Follows io main t .shutdown (.runInLoop io .shutdownInLoop)
  | run_call (loop : T) (cb : Functor (Payload T)) (ht : t = loop) :
      Follows io main t (.runInLoop loop cb) (.call cb)
  | run_release (loop : T) (cb : Functor (Payload T)) :
      Follows io main t (.runInLoop loop cb) .release
  | run_queue (loop : T) (cb : Functor (Payload T)) (ht : t ≠ loop) :
      Follows io main t (.runInLoop loop cb) (.queueInLoop loop cb)
  | establish_store : Follows io main t (.call .connectEstablished) (.setState .kConnected)
  | establish_enable :
      Follows io main t (.call .connectEstablished) (.changeInterest .enableReading)
  | establish_callback : Follows io main t (.call .connectEstablished) .connectionCallback
  | destroy_store : Follows io main t (.call .connectDestroyed) (.setState .kDisconnected)
  | destroy_disable :
      Follows io main t (.call .connectDestroyed) (.changeInterest .disableAll)
  | destroy_callback : Follows io main t (.call .connectDestroyed) .connectionCallback
  | destroy_remove : Follows io main t (.call .connectDestroyed) .remove
  | remove_queue :
      Follows io main t (.call .removeConnectionInLoop) (.queueInLoop io .connectDestroyed)
  | sent_queue (p : Payload T) (g : Functor (Payload T)) (hg : g.followsUp = true) :
      Follows io main t (.call (.sendInLoop p)) (.queueInLoop io g)
  | sentFile_queue (fileDescriptor : ℤ) (offset count : ℕ) (g : Functor (Payload T))
      (hg : g.followsUp = true) :
      Follows io main t (.call (.sendFileInLoop fileDescriptor offset count)) (.queueInLoop io g)
  | writeComplete_user : Follows io main t (.call .writeComplete) .user
  | highWaterMark_user (size : ℕ) : Follows io main t (.call (.highWaterMark size)) .user
  | close_store : Follows io main t (.handle .closeCallback) (.setState .kDisconnected)
  | close_disable : Follows io main t (.handle .closeCallback) (.changeInterest .disableAll)
  | close_callback : Follows io main t (.handle .closeCallback) .connectionCallback
  | close_remove : Follows io main t (.handle .closeCallback) .closeCallback
  | close_release : Follows io main t (.handle .closeCallback) .release
  | read_close : Follows io main t (.handle .readCallback) (.handle .closeCallback)
  | read_message : Follows io main t (.handle .readCallback) .messageCallback
  | write_drained : Follows io main t (.handle .writeCallback) .drained
  | write_queue (g : Functor (Payload T)) (hg : g.followsUp = true) :
      Follows io main t (.handle .writeCallback) (.queueInLoop io g)
  | connectionCallback_user : Follows io main t .connectionCallback .user
  | messageCallback_user : Follows io main t .messageCallback .user
  | closeCallback_run :
      Follows io main t .closeCallback (.runInLoop main .removeConnectionInLoop)

omit [DecidableEq T] in
theorem exists_of_mem_enqueue {io : T} {fs : List (Functor (Payload T))} {j : Instr T}
    (h : j ∈ enqueue io fs) : ∃ g ∈ fs, j = .queueInLoop io g := by
  obtain ⟨g, hg, rfl⟩ := List.mem_map.mp h
  exact ⟨g, hg, rfl⟩

omit [DecidableEq T] in
theorem follows_of_body {io main t : T} {s c : Shared T} {f : Functor (Payload T)} {o : Outcome}
    {new : List (Instr T)} (h : s.body io f o = some (c, new)) {j : Instr T} (hj : j ∈ new) :
    Follows io main t (.call f) j := by
  cases f with
  | connectEstablished =>
    cases h
    simp only [List.mem_cons, List.not_mem_nil, or_false] at hj
    rcases hj with rfl | rfl | rfl <;> constructor
  | connectDestroyed =>
    cases h
    split_ifs at hj
    · simp only [List.mem_cons, List.not_mem_nil, or_false] at hj
      rcases hj with rfl | rfl | rfl | rfl <;> constructor
    · rw [List.mem_singleton.mp hj]
      exact .destroy_remove
  | removeConnectionInLoop =>
    cases h
    rw [List.mem_singleton.mp hj]
    exact .remove_queue
  | sendInLoop p =>
    simp only [body] at h
    split_ifs at h
    cases h
    obtain ⟨g, hg, rfl⟩ := exists_of_mem_enqueue hj
    exact .sent_queue p g (TcpConnection.followsUp_of_mem_sendInLoop hg)
  | sendFileInLoop fileDescriptor offset count =>
    simp only [body] at h
    split_ifs at h
    cases h
    obtain ⟨g, hg, rfl⟩ := exists_of_mem_enqueue hj
    exact .sentFile_queue _ _ _ g (TcpConnection.followsUp_of_mem_sendFileInLoop hg)
  | writeComplete | highWaterMark _ =>
    cases h
    rw [List.mem_singleton.mp hj]
    constructor
  | shutdownInLoop | other =>
    cases h
    cases hj

omit [DecidableEq T] in
theorem follows_of_handler {io main t : T} {s c : Shared T} {cb : EventCallback} {o : Outcome}
    {new : List (Instr T)} (h : s.handler io cb o = some (c, new)) {j : Instr T} (hj : j ∈ new) :
    Follows io main t (.handle cb) j := by
  cases cb with
  | closeCallback =>
    cases h
    simp only [List.mem_cons, List.not_mem_nil, or_false] at hj
    rcases hj with rfl | rfl | rfl | rfl | rfl <;> constructor
  | errorCallback =>
    cases h
    cases hj
  | readCallback =>
    cases h
    split_ifs at hj
    · rw [List.mem_singleton.mp hj]
      exact .read_close
    · rw [List.mem_singleton.mp hj]
      exact .read_message
    · cases hj
  | writeCallback =>
    simp only [handler] at h
    by_cases hfit : o.Fits s.conn.outputBuffer_.readableBytes
    · rw [if_pos hfit] at h
      cases h
      rcases List.mem_append.mp hj with hj | hj
      · obtain ⟨g, hg, rfl⟩ := exists_of_mem_enqueue hj
        exact .write_queue g (TcpConnection.followsUp_of_mem_handleWrite hg)
      · split_ifs at hj
        · rw [List.mem_singleton.mp hj]
          exact .write_drained
        · cases hj
    · rw [if_neg hfit] at h
      cases h

theorem follows_of_run {io main t : T} {s c : Shared T} {i : Instr T} {o : Outcome}
    {new : List (Instr T)} (h : s.run io main t i o = some (c, new)) {j : Instr T}
    (hj : j ∈ new) : Follows io main t i j := by
  cases i with
  | call f => exact follows_of_body h hj
  | handle cb => exact follows_of_handler h hj
  | queueInLoop loop cb => cases h
  | wakeup loop => cases h
  | send p =>
    simp only [run, Option.some.injEq] at h
    by_cases hc : s.conn.connected = true
    · rw [if_pos hc] at h
      cases h
      split_ifs at hj with ht
      · rw [List.mem_singleton.mp hj]
        exact .send_call p ht
      · rw [List.mem_singleton.mp hj]
        exact .send_run p ht
    · rw [if_neg hc] at h
      cases h
      cases hj
  | sendFile fileDescriptor offset count =>
    cases h
    split_ifs at hj with hc ht
    · rw [List.mem_singleton.mp hj]
      exact .sendFile_call _ _ _ ht
    · rw [List.mem_singleton.mp hj]
      exact .sendFile_run _ _ _ ht
    · cases hj
  | shutdown =>
    cases h
    split_ifs at hj
    · simp only [List.mem_cons, List.not_mem_nil, or_false] at hj
      rcases hj with rfl | rfl <;> constructor
    · cases hj
  | runInLoop loop cb =>
    cases h
    split_ifs at hj with ht
    · rcases List.mem_cons.mp hj with rfl | hj
      · exact .run_call loop cb ht
      · unfold Functor.destructor at hj
        split_ifs at hj
        · rw [List.mem_singleton.mp hj]
          exact .run_release loop cb
        · cases hj
    · rw [List.mem_singleton.mp hj]
      exact .run_queue loop cb ht
  | connectionCallback | messageCallback | closeCallback =>
    cases h
    rw [List.mem_singleton.mp hj]
    constructor
  | setState | drained | changeInterest | remove | user | release =>
    cases h
    cases hj

/-! ### What an instruction leaves alone -/

structure Frame (i : Instr T) (s c : Shared T) : Prop where
  memory : c.memory = s.memory
  inConnections : i ≠ .call .removeConnectionInLoop → c.inConnections = s.inConnections
  closing : i ≠ .call .connectDestroyed → i ≠ .handle .closeCallback → c.closing = s.closing
  callbacks : i ≠ .connectionCallback → i ≠ .messageCallback → c.callbacks = s.callbacks
  closeCallbacks : i ≠ .closeCallback → c.closeCallbacks = s.closeCallbacks
  accepted : (∀ p, i ≠ .send p) → c.accepted = s.accepted
  executed : (∀ p, i ≠ .call (.sendInLoop p)) → c.executed = s.executed
  state : (∀ state, i ≠ .setState state) → c.conn.state_ = s.conn.state_

theorem frame_of_run {io main t : T} {s c : Shared T} {i : Instr T} {o : Outcome}
    {new : List (Instr T)} (h : s.run io main t i o = some (c, new)) : Frame i s c := by
  cases i with
  | call f =>
    cases f with
    | sendInLoop p =>
      simp only [run, body] at h
      split_ifs at h
      cases h
      constructor <;> simp
    | sendFileInLoop fileDescriptor offset count =>
      simp only [run, body] at h
      split_ifs at h
      cases h
      constructor <;> simp
    | _ =>
      simp only [run, body, Option.some.injEq, Prod.mk.injEq] at h
      obtain ⟨rfl, _⟩ := h
      constructor <;> simp
  | handle cb =>
    cases cb with
    | writeCallback =>
      simp only [run, handler] at h
      by_cases hfit : o.Fits s.conn.outputBuffer_.readableBytes
      · rw [if_pos hfit] at h
        cases h
        constructor <;> simp
      · rw [if_neg hfit] at h
        cases h
    | _ =>
      simp only [run, handler, Option.some.injEq, Prod.mk.injEq] at h
      obtain ⟨rfl, _⟩ := h
      constructor <;> simp
  | queueInLoop loop cb => cases h
  | wakeup loop => cases h
  | send p =>
    simp only [run, Option.some.injEq] at h
    by_cases hc : s.conn.connected = true
    · rw [if_pos hc] at h
      cases h
      constructor <;> simp
    · rw [if_neg hc] at h
      cases h
      constructor <;> simp
  | _ =>
    simp only [run, Option.some.injEq, Prod.mk.injEq] at h
    obtain ⟨rfl, _⟩ := h
    constructor <;> simp [TcpConnection.changeInterest]

theorem files_of_run {io main t : T} {i : Instr T} {o : Outcome} {s c : Shared T}
    {new : List (Instr T)} (hr : s.run io main t i o = some (c, new)) : c.files = s.files := by
  cases i with
  | send p =>
    simp only [run, Option.some.injEq] at hr
    split_ifs at hr <;> cases hr <;> rfl
  | call f =>
    cases f with
    | sendInLoop p | sendFileInLoop fileDescriptor offset count =>
      simp only [run, body] at hr
      split_ifs at hr
      cases hr
      rfl
    | _ =>
      cases hr
      rfl
  | handle cb =>
    cases cb with
    | writeCallback =>
      simp only [run, handler] at hr
      split_ifs at hr <;> cases hr <;> rfl
    | _ =>
      cases hr
      rfl
  | queueInLoop loop cb | wakeup loop => cases hr
  | _ =>
    cases hr
    rfl

/-- What an instruction does to the connection. -/
inductive Changes (s c : Shared T) (o : Outcome) : Instr T → Prop
  | send (p : Payload T)
      (hc : c.conn = (s.conn.sendInLoop (P := Payload T) (s.payloadData p) o).1) :
      Changes s c o (.call (.sendInLoop p))
  | sendFile (fileDescriptor : ℤ) (offset count : ℕ)
      (hc : c.conn = (s.conn.sendFileInLoop (P := Payload T) (s.files fileDescriptor)
        fileDescriptor offset count o).1) :
      Changes s c o (.call (.sendFileInLoop fileDescriptor offset count))
  | write (hc : c.conn = (s.conn.handleWrite (P := Payload T) o).1) :
      Changes s c o (.handle .writeCallback)
  | interest (k : InterestChange) (hc : c.conn = s.conn.changeInterest k) :
      Changes s c o (.changeInterest k)
  | remove (hc : c.conn = { s.conn with channel_ := s.conn.channel_.remove }) :
      Changes s c o .remove
  | shutdown (hc : c.conn = s.conn.shutdownInLoop) : Changes s c o (.call .shutdownInLoop)
  | drained (hc : c.conn = s.conn.halfCloseIfDisconnecting) : Changes s c o .drained
  | state (state : StateE) (hc : c.conn = { s.conn with state_ := state }) :
      Changes s c o (.setState state)
  | same (i : Instr T) (hc : c.conn = s.conn) : Changes s c o i

theorem changes_of_run {io main t : T} {s c : Shared T} {i : Instr T} {o : Outcome}
    {new : List (Instr T)} (h : s.run io main t i o = some (c, new)) : Changes s c o i := by
  cases i with
  | call f =>
    cases f with
    | sendInLoop p =>
      obtain ⟨_, rfl, _⟩ := run_sendInLoop h
      exact .send p rfl
    | sendFileInLoop fileDescriptor offset count =>
      simp only [run, body] at h
      split_ifs at h
      cases h
      exact .sendFile fileDescriptor offset count rfl
    | shutdownInLoop =>
      cases h
      exact .shutdown rfl
    | _ =>
      cases h
      exact .same _ rfl
  | handle cb =>
    cases cb with
    | writeCallback =>
      simp only [run, handler] at h
      by_cases hfit : o.Fits s.conn.outputBuffer_.readableBytes
      · rw [if_pos hfit] at h
        cases h
        exact .write rfl
      · rw [if_neg hfit] at h
        cases h
    | _ =>
      cases h
      exact .same _ rfl
  | queueInLoop loop cb => cases h
  | wakeup loop => cases h
  | send p =>
    simp only [run, Option.some.injEq] at h
    split_ifs at h <;> cases h <;> exact .same _ rfl
  | setState state =>
    cases h
    exact .state state rfl
  | drained =>
    cases h
    exact .drained rfl
  | changeInterest k =>
    cases h
    exact .interest k rfl
  | remove =>
    cases h
    exact .remove rfl
  | _ =>
    cases h
    exact .same _ rfl

end Shared

namespace ConnectionRun

variable {T : Type*}

def calls (fs : List (Functor (Payload T))) : List (Instr T) := fs.map .call

/-- Everything thread `t` has still to run, its loop's queued functors last. -/
def work (s : ConnectionRun T) (t : T) : List (Instr T) :=
  s.stack t ++ calls (s.loops t).queued

/-- A `shared_ptr` to the connection exists. -/
def Alive (s : ConnectionRun T) : Prop :=
  s.inConnections = true ∨ (∃ t, ∃ i ∈ s.stack t, i.holdsRef = true) ∨
    ∃ t, ∃ f ∈ (s.loops t).held, f.shared = true

def UserRuns (s : ConnectionRun T) (t : T) : Prop :=
  (s.stack t = [] ∧ (s.loops t).phase.runsCode = true) ∨ (s.stack t).head? = some .user

instance [DecidableEq T] (s : ConnectionRun T) (t : T) : Decidable (s.UserRuns t) :=
  inferInstanceAs (Decidable (_ ∨ _))

/-- What a call of the user puts on the stack of thread `t`. -/
def code (s : ConnectionRun T) (t : T) : UserCall T → List (Instr T)
  | .send data len => [.send ⟨t, data, len, readMemory s.memory data len⟩, .release]
  | .sendFile fileDescriptor offset count => [.sendFile fileDescriptor offset count, .release]
  | .shutdown => [.shutdown, .release]
  | .queueInLoop loop => [.queueInLoop loop .other]

inductive UserInstr : Instr T → Prop
  | send (p : Payload T) : UserInstr (.send p)
  | sendFile (fileDescriptor : ℤ) (offset count : ℕ) :
      UserInstr (.sendFile fileDescriptor offset count)
  | shutdown : UserInstr .shutdown
  | queueInLoop (loop : T) : UserInstr (.queueInLoop loop .other)
  | release : UserInstr .release

theorem userInstr_of_mem_code {s : ConnectionRun T} {t : T} {c : UserCall T} {i : Instr T}
    (h : i ∈ s.code t c) : UserInstr i := by
  cases c with
  | queueInLoop loop =>
    rw [List.mem_singleton.mp h]
    exact .queueInLoop loop
  | _ =>
    simp only [code, List.mem_cons, List.not_mem_nil, or_false] at h
    rcases h with rfl | rfl <;> constructor

variable [DecidableEq T]

def setStack (s : ConnectionRun T) (t : T) (is : List (Instr T)) : ConnectionRun T :=
  { s with stack := Function.update s.stack t is }

def setLoop (s : ConnectionRun T) (t : T) (l : EventLoop (Functor (Payload T))) :
    ConnectionRun T :=
  { s with loops := Function.update s.loops t l }

/-- The events the kernel may report where it watches for `mask`. -/
def reportable (mask : Events) : Events := mask ||| EPOLLERR ||| EPOLLHUP

def exec (io main t : T) (s : ConnectionRun T) (o : Outcome) : Option (ConnectionRun T) :=
  match s.stack t with
  | [] => none
  | .queueInLoop loop cb :: rest =>
    some ((s.setLoop loop ((s.loops loop).push cb)).setStack t
      (.wakeup loop :: cb.destructor ++ rest))
  | .wakeup loop :: rest =>
    some ((s.setLoop loop ((s.loops loop).wakeupAfterPush (t = loop))).setStack t rest)
  | i :: rest =>
    (s.toShared.run io main t i o).map fun r =>
      { s with toShared := r.1, stack := Function.update s.stack t (r.2 ++ rest) }

/-- Thread `t` goes on in its `loop()`. On `io`, the handlers of one poll all
run before the pending functors. -/
def control (io t : T) (s : ConnectionRun T) (c : LoopStep) : Option (ConnectionRun T) :=
  if s.stack t ≠ [] ∨ (t = io ∧ s.active = true ∧ c = .endDispatch) then none
  else ((s.loops t).advance c).map fun loop =>
    { (s.setLoop t loop).setStack t (calls ((s.loops t).started c)) with
      destroySwapped := s.destroySwapped ||
        (t = io && c = .swap && (s.loops t).pendingFunctors_.contains .connectDestroyed) }

def report (io : T) (s : ConnectionRun T) (wakeup : Bool) (revents : Events) :
    Option (ConnectionRun T) :=
  if s.stack io ≠ [] then none
  else s.conn.channel_.registered.bind fun mask =>
    if revents &&& ~~~(reportable mask) ≠ 0#32 then none
    else ((s.loops io).advance (.pollReturn wakeup)).map fun loop =>
      { s.setLoop io loop with
        conn := { s.conn with channel_ := s.conn.channel_.set_revents revents }
        active := true }

/-- `Channel::handleEvent`; the guard is released after the callbacks. -/
def handleEvent (io : T) (s : ConnectionRun T) : Option (ConnectionRun T) :=
  if s.stack io = [] ∧ s.active = true then
    some { s.setStack io
      (s.conn.channel_.channel.handleEventWithGuard.map .handle ++ [.release]) with
      active := false }
  else none

def step (io main : T) (s : ConnectionRun T) : RunLabel T → Option (ConnectionRun T)
  | .exec t o => exec io main t s o
  | .control t c => control io t s c
  | .report wakeup revents => report io s wakeup revents
  | .handleEvent => handleEvent io s
  | .call t c => if s.UserRuns t then some (s.setStack t (s.code t c ++ s.stack t)) else none
  | .store t address value =>
    if s.UserRuns t then some { s with memory := Function.update s.memory address value }
    else none

/-- `newConnection` is about to hand `connectEstablished` to the loop `io`, and
nothing else of this connection exists. -/
structure Init (io main : T) (s : ConnectionRun T) : Prop where
  conn : s.conn.New
  inConnections : s.inConnections = true
  closing : s.closing = false
  callbacks : s.callbacks = []
  closeCallbacks : s.closeCallbacks = 0
  accepted : s.accepted = []
  executed : s.executed = []
  active : s.active = false
  destroySwapped : s.destroySwapped = false
  mainStack : s.stack main = [.runInLoop io .connectEstablished, .release]
  otherStacks : ∀ t ≠ main, s.stack t = []
  held : ∀ t, ∀ f ∈ (s.loops t).held, f = .other

/-- Users get the connection from its first callback, and hold a `shared_ptr`
during a call; what touches the connection requires that it exists. -/
def Permitted (s : ConnectionRun T) : RunLabel T → Prop
  | .exec t _ => ∀ i ∈ (s.stack t).head?, i.usesConnection = true → s.Alive
  | .call _ (.queueInLoop _) => True
  | .call _ _ => s.callbacks ≠ [] ∧ s.Alive
  | .report _ _ | .handleEvent => s.Alive
  | .control _ _ | .store _ _ _ => True

def system (io main : T) : TransitionSystem (ConnectionRun T) (RunLabel T) where
  Init := Init io main
  Step s l s' := s.Permitted l ∧ s.step io main l = some s'

/-! ## What a step can do -/

inductive Steps (io main : T) (s : ConnectionRun T) : RunLabel T → ConnectionRun T → Prop
  | run (t : T) (o : Outcome) (i : Instr T) (rest : List (Instr T)) (c : Shared T)
      (new : List (Instr T)) (hs : s.stack t = i :: rest)
      (hr : s.toShared.run io main t i o = some (c, new)) :
      Steps io main s (.exec t o)
        { s with toShared := c, stack := Function.update s.stack t (new ++ rest) }
  | queue (t : T) (o : Outcome) (loop : T) (cb : Functor (Payload T)) (rest : List (Instr T))
      (hs : s.stack t = .queueInLoop loop cb :: rest) :
      Steps io main s (.exec t o)
        ((s.setLoop loop ((s.loops loop).push cb)).setStack t
          (.wakeup loop :: cb.destructor ++ rest))
  | wakeup (t : T) (o : Outcome) (loop : T) (rest : List (Instr T))
      (hs : s.stack t = .wakeup loop :: rest) :
      Steps io main s (.exec t o)
        ((s.setLoop loop ((s.loops loop).wakeupAfterPush (t = loop))).setStack t rest)
  | control (t : T) (c : LoopStep) (loop : EventLoop (Functor (Payload T)))
      (hs : s.stack t = []) (hact : t = io → c = .endDispatch → s.active = false)
      (ha : (s.loops t).Advances c loop) :
      Steps io main s (.control t c)
        { (s.setLoop t loop).setStack t (calls ((s.loops t).started c)) with
          destroySwapped := s.destroySwapped || (t = io && c = .swap &&
            (s.loops t).pendingFunctors_.contains .connectDestroyed) }
  | report (wakeup : Bool) (revents mask : Events) (loop : EventLoop (Functor (Payload T)))
      (hs : s.stack io = []) (hm : s.conn.channel_.registered = some mask)
      (hr : revents &&& ~~~(reportable mask) = 0#32)
      (ha : (s.loops io).Advances (.pollReturn wakeup) loop) :
      Steps io main s (.report wakeup revents)
        { s.setLoop io loop with
          conn := { s.conn with channel_ := s.conn.channel_.set_revents revents }
          active := true }
  | handleEvent (hs : s.stack io = []) (hact : s.active = true) :
      Steps io main s .handleEvent
        { s.setStack io
          (s.conn.channel_.channel.handleEventWithGuard.map .handle ++ [.release]) with
          active := false }
  | call (t : T) (c : UserCall T) (hu : s.UserRuns t) :
      Steps io main s (.call t c) (s.setStack t (s.code t c ++ s.stack t))
  | store (t : T) (address : ℕ) (value : Byte) (hu : s.UserRuns t) :
      Steps io main s (.store t address value)
        { s with memory := Function.update s.memory address value }

variable {io main : T} {s s' : ConnectionRun T}

theorem steps_of_exec {t : T} {o : Outcome} (h : exec io main t s o = some s') :
    Steps io main s (.exec t o) s' := by
  unfold exec at h
  split at h
  · cases h
  · rename_i loop cb rest hs
    cases h
    exact .queue t o loop cb rest hs
  · rename_i loop rest hs
    cases h
    exact .wakeup t o loop rest hs
  · rename_i i rest _ _ hs
    simp only [Option.map_eq_some_iff] at h
    obtain ⟨⟨c, new⟩, hr, rfl⟩ := h
    exact .run t o i rest c new hs hr

theorem steps_of_control {t : T} {c : LoopStep} (h : control io t s c = some s') :
    Steps io main s (.control t c) s' := by
  unfold control at h
  split_ifs at h with hc
  simp only [not_or, not_not, not_and] at hc
  simp only [Option.map_eq_some_iff] at h
  obtain ⟨loop, ha, rfl⟩ := h
  refine .control t c loop hc.1 ?_ (EventLoop.advances_of_advance ha)
  intro ht he
  by_contra hact
  exact hc.2 ht (by simpa using hact) he

theorem steps_of_report {wakeup : Bool} {revents : Events}
    (h : report io s wakeup revents = some s') :
    Steps io main s (.report wakeup revents) s' := by
  unfold report at h
  split_ifs at h with hs
  simp only [Option.bind_eq_some_iff] at h
  obtain ⟨mask, hm, h⟩ := h
  split_ifs at h with hr
  simp only [Option.map_eq_some_iff] at h
  obtain ⟨loop, ha, rfl⟩ := h
  exact .report wakeup revents mask loop (by simpa using hs) hm (by simpa using hr)
    (EventLoop.advances_of_advance ha)

theorem steps_of_step {l : RunLabel T} (h : s.step io main l = some s') :
    Steps io main s l s' := by
  cases l with
  | exec t o => exact steps_of_exec h
  | control t c => exact steps_of_control h
  | report wakeup revents => exact steps_of_report h
  | handleEvent =>
    simp only [step, handleEvent] at h
    split_ifs at h with hs
    cases h
    exact .handleEvent hs.1 hs.2
  | call t c =>
    simp only [step] at h
    split_ifs at h with hu
    cases h
    exact .call t c hu
  | store t address value =>
    simp only [step] at h
    split_ifs at h with hu
    cases h
    exact .store t address value hu

/-! ## How a step changes the work that is left -/

/-- Thread `t` replaces what is first in its work; no other work changes. -/
def Replaces (s s' : ConnectionRun T) (t : T) (old new : List (Instr T)) : Prop :=
  ∃ w, s.work t = old ++ w ∧ s'.work t = new ++ w ∧ ∀ u ≠ t, s'.work u = s.work u

/-- Thread `t` queues a functor: it comes last in the work of the loop's thread. -/
def Queues (s s' : ConnectionRun T) (t loop : T) (cb : Functor (Payload T)) : Prop :=
  ∃ w, s.work t = .queueInLoop loop cb :: w ∧ ∀ u, s'.work u =
    (if u = t then .wakeup loop :: cb.destructor ++ w else s.work u) ++
      if u = loop then [.call cb] else []

theorem replaces_run {t : T} {i : Instr T} {rest new : List (Instr T)} {c : Shared T}
    (hs : s.stack t = i :: rest) :
    Replaces s { s with toShared := c, stack := Function.update s.stack t (new ++ rest) } t
      [i] new := by
  refine ⟨rest ++ calls (s.loops t).queued, by simp [work, hs], by simp [work], ?_⟩
  intro u hu
  simp [work, Function.update_of_ne hu]

@[simp] theorem setLoop_stack (t : T) (l : EventLoop (Functor (Payload T))) :
    (s.setLoop t l).stack = s.stack := rfl
@[simp] theorem setLoop_loops (t : T) (l : EventLoop (Functor (Payload T))) :
    (s.setLoop t l).loops = Function.update s.loops t l := rfl
@[simp] theorem setLoop_shared (t : T) (l : EventLoop (Functor (Payload T))) :
    (s.setLoop t l).toShared = s.toShared := rfl
@[simp] theorem setLoop_destroySwapped (t : T) (l : EventLoop (Functor (Payload T))) :
    (s.setLoop t l).destroySwapped = s.destroySwapped := rfl
@[simp] theorem setStack_destroySwapped (t : T) (is : List (Instr T)) :
    (s.setStack t is).destroySwapped = s.destroySwapped := rfl
@[simp] theorem setStack_stack (t : T) (is : List (Instr T)) :
    (s.setStack t is).stack = Function.update s.stack t is := rfl
@[simp] theorem setStack_loops (t : T) (is : List (Instr T)) :
    (s.setStack t is).loops = s.loops := rfl
@[simp] theorem setStack_shared (t : T) (is : List (Instr T)) :
    (s.setStack t is).toShared = s.toShared := rfl

theorem Init.mem_work (h : Init io main s) {t : T} {i : Instr T} (hi : i ∈ s.work t) :
    (t = main ∧ i = .runInLoop io .connectEstablished) ∨ i = .release ∨ i = .call .other := by
  rcases List.mem_append.mp hi with hi | hi
  · by_cases ht : t = main
    · subst ht
      rw [h.mainStack] at hi
      simp only [List.mem_cons, List.not_mem_nil, or_false] at hi
      rcases hi with rfl | rfl
      · exact Or.inl ⟨rfl, rfl⟩
      · exact Or.inr (Or.inl rfl)
    · rw [h.otherStacks t ht] at hi
      cases hi
  · obtain ⟨f, hf, rfl⟩ := List.mem_map.mp hi
    rw [h.held t f (EventLoop.mem_held_of_mem_queued hf)]
    exact Or.inr (Or.inr rfl)

theorem mem_update_stack {t u : T} {i : Instr T} {is : List (Instr T)} (h : i ∈ s.stack u)
    (hkeep : i ∈ s.stack t → i ∈ is) : i ∈ Function.update s.stack t is u := by
  by_cases hu : u = t
  · subst hu
    rw [Function.update_self]
    exact hkeep h
  · rwa [Function.update_of_ne hu]

/-- What a step of a loop leaves alone in it, it leaves alone in all loops. -/
theorem loops_update {α : Type*} (g : EventLoop (Functor (Payload T)) → α) {loop : T}
    {l : EventLoop (Functor (Payload T))} (h : g l = g (s.loops loop)) (u : T) :
    g (Function.update s.loops loop l u) = g (s.loops u) := by
  by_cases hu : u = loop
  · subst hu
    rw [Function.update_self, h]
  · rw [Function.update_of_ne hu]

theorem queued_push (loop : T) (cb : Functor (Payload T)) (u : T) :
    (Function.update s.loops loop ((s.loops loop).push cb) u).queued =
      (s.loops u).queued ++ if u = loop then [cb] else [] := by
  by_cases hu : u = loop
  · subst hu
    rw [Function.update_self, EventLoop.queued_push, if_pos rfl]
  · rw [Function.update_of_ne hu, if_neg hu, List.append_nil]

theorem queues_queue {t loop : T} {cb : Functor (Payload T)} {rest : List (Instr T)}
    (hs : s.stack t = .queueInLoop loop cb :: rest) :
    Queues s ((s.setLoop loop ((s.loops loop).push cb)).setStack t
      (.wakeup loop :: cb.destructor ++ rest)) t loop cb := by
  refine ⟨rest ++ calls (s.loops t).queued, by simp [work, hs], ?_⟩
  intro u
  have hcalls : calls ((s.loops u).queued ++ if u = loop then [cb] else []) =
      calls (s.loops u).queued ++ if u = loop then [.call cb] else [] := by
    split_ifs <;> simp [calls]
  simp only [work, setStack_stack, setStack_loops, setLoop_stack, setLoop_loops, queued_push,
    hcalls]
  by_cases hu : u = t
  · subst hu
    rw [Function.update_self, if_pos rfl]
    simp only [List.append_assoc, List.cons_append]
  · rw [Function.update_of_ne hu, if_neg hu, List.append_assoc]

theorem replaces_wakeup {t loop : T} {rest : List (Instr T)}
    (hs : s.stack t = .wakeup loop :: rest) :
    Replaces s ((s.setLoop loop ((s.loops loop).wakeupAfterPush (t = loop))).setStack t rest) t
      [.wakeup loop] [] := by
  have hq : ((s.loops loop).wakeupAfterPush (t = loop)).queued = (s.loops loop).queued := by
    simp [EventLoop.queued]
  refine ⟨rest ++ calls (s.loops t).queued, by simp [work, hs], ?_, ?_⟩
  · simp [work, loops_update EventLoop.queued hq]
  · intro u hu
    simp [work, loops_update EventLoop.queued hq, Function.update_of_ne hu]

theorem work_control {t : T} {c : LoopStep} {loop : EventLoop (Functor (Payload T))} {b : Bool}
    (hs : s.stack t = []) (ha : (s.loops t).Advances c loop) (u : T) :
    work { (s.setLoop t loop).setStack t (calls ((s.loops t).started c)) with
      destroySwapped := b } u = s.work u := by
  by_cases hu : u = t
  · subst hu
    simp only [work, setStack_stack, setStack_loops, setLoop_loops, Function.update_self, hs,
      ← ha.started_append_queued, calls, List.map_append, List.nil_append]
  · simp [work, Function.update_of_ne hu]

theorem work_report {wakeup active : Bool} {c : TcpConnection}
    {loop : EventLoop (Functor (Payload T))}
    (ha : (s.loops io).Advances (.pollReturn wakeup) loop) (u : T) :
    work { s.setLoop io loop with conn := c, active := active } u = s.work u := by
  have hq : loop.queued = (s.loops io).queued := by
    rw [← ha.started_append_queued]
    rfl
  simp [work, loops_update EventLoop.queued hq]

theorem replaces_push (s : ConnectionRun T) (t : T) (is : List (Instr T)) (active : Bool) :
    Replaces s { s.setStack t (is ++ s.stack t) with active := active } t [] is := by
  refine ⟨s.work t, rfl, by simp [work], ?_⟩
  intro u hu
  simp [work, Function.update_of_ne hu]

theorem replaces_handleEvent {is : List (Instr T)} {active : Bool} (hs : s.stack io = []) :
    Replaces s { s.setStack io is with active := active } io [] is := by
  have h := replaces_push s io is active
  rwa [hs, List.append_nil] at h

omit [DecidableEq T] in
theorem Replaces.forall_mem {P : T → Instr T → Prop} {t : T} {old new : List (Instr T)}
    (h : Replaces s s' t old new) (hall : ∀ u, ∀ i ∈ s.work u, P u i)
    (hnew : (∀ i ∈ old, P t i) → ∀ i ∈ new, P t i) : ∀ u, ∀ i ∈ s'.work u, P u i := by
  obtain ⟨w, hold, hwork, hother⟩ := h
  intro u i hi
  by_cases hu : u = t
  · subst hu
    rw [hwork] at hi
    rcases List.mem_append.mp hi with hi | hi
    · refine hnew ?_ i hi
      intro j hj
      exact hall u j (by simp [hold, hj])
    · exact hall u i (by simp [hold, hi])
  · rw [hother u hu] at hi
    exact hall u i hi

theorem Queues.forall_mem {P : T → Instr T → Prop} {t loop : T} {cb : Functor (Payload T)}
    (h : Queues s s' t loop cb) (hall : ∀ u, ∀ i ∈ s.work u, P u i) (hwakeup : P t (.wakeup loop))
    (hrelease : P t .release) (hcall : P t (.queueInLoop loop cb) → P loop (.call cb)) :
    ∀ u, ∀ i ∈ s'.work u, P u i := by
  obtain ⟨w, hold, hwork⟩ := h
  have hqueue : P t (.queueInLoop loop cb) := hall t _ (by simp [hold])
  intro u i hi
  rw [hwork u, List.mem_append] at hi
  rcases hi with hi | hi
  · by_cases hu : u = t
    · subst hu
      rw [if_pos rfl] at hi
      simp only [List.cons_append, List.mem_cons, List.mem_append, Functor.destructor] at hi
      rcases hi with rfl | hi | hi
      · exact hwakeup
      · split_ifs at hi with hsh
        · rw [List.mem_singleton.mp hi]
          exact hrelease
        · cases hi
      · exact hall u i (by simp [hold, hi])
    · rw [if_neg hu] at hi
      exact hall u i hi
  · by_cases hu : u = loop
    · rw [if_pos hu] at hi
      rw [List.mem_singleton.mp hi, hu]
      exact hcall hqueue
    · rw [if_neg hu] at hi
      cases hi

/-- A property of every instruction that is left, kept by a step: it is enough
to look at what the instructions put in their place. -/
theorem Steps.forall_work {P : T → Instr T → Prop} {l : RunLabel T} (h : Steps io main s l s')
    (hall : ∀ u, ∀ i ∈ s.work u, P u i)
    (hrun : ∀ t o i new, (s.stack t).head? = some i → P t i →
      s.toShared.run io main t i o = some (s'.toShared, new) → new <+: s'.stack t →
      ∀ j ∈ new, P t j)
    (hwakeup : ∀ t loop, P t (.wakeup loop)) (hrelease : ∀ t, P t .release)
    (hqueue : ∀ t loop cb, P t (.queueInLoop loop cb) → P loop (.call cb))
    (hevent : s.active = true → ∀ cb, P io (.handle cb))
    (hcall : ∀ t c, l = .call t c → ∀ i ∈ s.code t c, P t i) :
    ∀ u, ∀ i ∈ s'.work u, P u i := by
  cases h with
  | run t o i rest c new hs hr =>
    refine (replaces_run hs).forall_mem hall ?_
    intro hi
    exact hrun t o i new (by simp [hs]) (hi i (by simp)) hr (by simp)
  | queue t o loop cb rest hs =>
    exact (queues_queue hs).forall_mem hall (hwakeup t loop) (hrelease t) (hqueue t loop cb)
  | wakeup t o loop rest hs => exact (replaces_wakeup hs).forall_mem hall (by simp)
  | control t c loop hs hact ha =>
    intro u i hi
    rw [work_control hs ha] at hi
    exact hall u i hi
  | report wakeup revents mask loop hs hm hr ha =>
    intro u i hi
    rw [work_report ha] at hi
    exact hall u i hi
  | handleEvent hs hact =>
    refine (replaces_handleEvent hs).forall_mem hall ?_
    intro _ i hi
    rcases List.mem_append.mp hi with hi | hi
    · obtain ⟨cb, _, rfl⟩ := List.mem_map.mp hi
      exact hevent hact cb
    · rw [List.mem_singleton.mp hi]
      exact hrelease io
  | call t c hu =>
    refine (replaces_push s t (s.code t c) s.active).forall_mem hall ?_
    intro _ i hi
    exact hcall t c rfl i hi
  | store t address value hu => exact hall

theorem stack_of_busy {l : RunLabel T} {t : T} {i : Instr T} {rest : List (Instr T)}
    (hstack : s.stack t = i :: rest) (hi : i ≠ .user) (hl : ∀ o, l ≠ .exec t o)
    (hs : Steps io main s l s') : s'.stack t = s.stack t := by
  have hne : s.stack t ≠ [] := by simp [hstack]
  cases hs with
  | run v o j rest' c new hs hr =>
    have hv : t ≠ v := fun hv => hl o (hv ▸ rfl)
    simp [Function.update_of_ne hv]
  | queue v o loop cb rest' hs | wakeup v o loop rest' hs =>
    have hv : t ≠ v := fun hv => hl o (hv ▸ rfl)
    simp [Function.update_of_ne hv]
  | control v c loop hs hact ha =>
    have hv : t ≠ v := by
      rintro rfl
      exact hne hs
    simp [Function.update_of_ne hv]
  | handleEvent hs hact =>
    have hv : t ≠ io := by
      rintro rfl
      exact hne hs
    simp [Function.update_of_ne hv]
  | call v c hu =>
    have hv : t ≠ v := by
      rintro rfl
      rcases hu with ⟨hs, _⟩ | hs
      · exact hne hs
      · rw [hstack] at hs
        exact hi (Option.some.inj hs)
    simp [Function.update_of_ne hv]
  | report | store => rfl

/-! ## Runs that can be replayed -/

instance [Fintype T] (s : ConnectionRun T) : Decidable s.Alive :=
  inferInstanceAs (Decidable (_ ∨ (∃ t, ∃ i ∈ s.stack t, _) ∨ ∃ t, ∃ f ∈ (s.loops t).held, _))

instance [Fintype T] (s : ConnectionRun T) : (l : RunLabel T) → Decidable (s.Permitted l)
  | .exec t _ => inferInstanceAs (Decidable (∀ i ∈ (s.stack t).head?, _ → s.Alive))
  | .call _ (.queueInLoop _) => isTrue trivial
  | .call _ (.send _ _) | .call _ (.sendFile _ _ _) | .call _ .shutdown =>
    inferInstanceAs (Decidable (s.callbacks ≠ [] ∧ s.Alive))
  | .report _ _ | .handleEvent => inferInstanceAs (Decidable s.Alive)
  | .control _ _ | .store _ _ _ => isTrue trivial

theorem exists_reachable_of_replay [Fintype T] {Good : ConnectionRun T → RunLabel T → Prop}
    [∀ s l, Decidable (Good s l)] (hs : Init io main s) {ls : List (RunLabel T)} {β : Type*}
    (observe : ConnectionRun T → β) {b : β}
    (h : (TransitionSystem.replay (TransitionSystem.guarded Good
      (TransitionSystem.guarded Permitted (step io main))) s ls).map observe = some b) :
    ∃ s', (system io main).Reachable Good s' ∧ observe s' = b := by
  refine TransitionSystem.exists_reachable_of_replay ?_ (.init hs) observe h
  intro s l s' hl
  obtain ⟨hgood, hl⟩ := TransitionSystem.guarded_eq_some.mp hl
  exact ⟨hgood, TransitionSystem.guarded_eq_some.mp hl⟩

inductive Party
  | main
  | io
  | user
  deriving DecidableEq, Repr

instance : Fintype Party := ⟨{.main, .io, .user}, fun t => by cases t <;> decide⟩

/-- `newConnection` on a server with one other loop, which is waiting in `poll`. -/
def newConnection (writeCompleteCallback : Bool) : ConnectionRun Party where
  conn := .create 7 writeCompleteCallback
  inConnections := true
  memory := fun _ => 0
  files := fun _ => []
  closing := false
  callbacks := []
  closeCallbacks := 0
  accepted := []
  executed := []
  loops
    | .main => { EventLoop.create with looping_ := true, phase := .dispatch false }
    | .io => { EventLoop.create with looping_ := true, phase := .poll }
    | .user => .create
  stack
    | .main => [.runInLoop .io .connectEstablished, .release]
    | _ => []
  active := false
  destroySwapped := false

theorem init_newConnection (b : Bool) : Init Party.io Party.main (newConnection b) where
  conn := ⟨7, b, Or.inl rfl⟩
  inConnections := rfl
  closing := rfl
  callbacks := rfl
  closeCallbacks := rfl
  accepted := rfl
  executed := rfl
  active := rfl
  destroySwapped := rfl
  mainStack := rfl
  otherStacks := by
    intro t ht
    cases t with
    | main => exact absurd rfl ht
    | _ => rfl
  held := by
    intro t f hf
    cases t <;> cases hf

/-- An answer for the instructions that make no system call. -/
def silent : Outcome := ⟨.ok 0, .other 0⟩

def execs (t : Party) (n : ℕ) : List (RunLabel Party) := List.replicate n (.exec t silent)

def wakeToSwap (t : Party) : List (RunLabel Party) :=
  [.control t (.pollReturn true), .control t .handleRead, .control t .endDispatch,
    .control t .swap]

def backToPoll (t : Party) : List (RunLabel Party) :=
  [.control t .endBatch, .control t .release, .control t .test]

def establish : List (RunLabel Party) :=
  execs .main 5 ++ wakeToSwap .io ++ [.control .io .runNext] ++ execs .io 5 ++
    [.control .io .endBody] ++ backToPoll .io

/-- The peer hangs up: the loop runs `handleClose`, down to the last release. -/
def hangUp : List (RunLabel Party) :=
  [.report false EPOLLHUP, .handleEvent] ++ execs .io 12 ++
    [.control .io .endDispatch, .control .io .swap] ++ backToPoll .io

def removeConnection : List (RunLabel Party) :=
  [.control .main .endDispatch, .control .main .swap, .control .main .runNext] ++
    execs .main 4 ++ [.control .main .endBody] ++ backToPoll .main

end ConnectionRun
end MuduoCore
