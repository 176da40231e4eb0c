import MuduoCore.Server.TcpServer
import MuduoCore.Connection.ConnectionRun

/-!
# A server, its connections, its threads and its loops

`TcpServer` with all its connections, the acceptor, the pool of loops and any
number of threads. As in the run of a single connection, every thread has a
stack of the instructions it still has to run. Those of a connection carry its
running number `k`, which is also the identity of the object; each of them
runs as it does in the run of that connection alone. `view k` is what the
connection `k` sees: its own instructions and functors, and in the place of
everything else a functor that has nothing to do with it.

Objects that have been destroyed keep their last state and may still be used,
since whether that happens is what is to be found out.
-/

namespace MuduoCore

inductive ServerFunctor (T : Type*)
  | connection (k : ℕ) (f : Functor (Payload T))
  /-- `Acceptor::listen` -/
  | listen
  /-- a functor of the user -/
  | other
  deriving DecidableEq, Repr

inductive ServerInstr (T : Type*)
  /-- an instruction of a connection other than the next three -/
  | connection (k : ℕ) (i : Instr T)
  | queueInLoop (loop : T) (cb : ServerFunctor T)
  | wakeup (loop : T)
  | call (f : ServerFunctor T)
  | start
  /-- a round of `EventLoopThreadPool::start` -/
  | startLoop
  /-- code of the user -/
  | threadInitCallback
  /-- `loop_->runInLoop` of `Acceptor::listen` -/
  | listenInLoop
  /-- `Acceptor::handleRead` -/
  | handleRead
  /-- the loop over `connections_` in the destructor -/
  | destroyConnections
  /-- `~EventLoopThread` of a loop of the pool -/
  | quit (loop : T)
  | join (loop : T)
  | destroyAcceptor
  /-- the end of `~TcpServer` -/
  | destroyed
  deriving DecidableEq, Repr

def Instr.tag {T : Type*} (k : ℕ) : Instr T → ServerInstr T
  | queueInLoop loop cb => .queueInLoop loop (.connection k cb)
  | wakeup loop => .wakeup loop
  | call f => .call (.connection k f)
  | i => .connection k i

/-- The connection of an instruction, and the instruction as its connection runs it. -/
def ServerInstr.ofConnection {T : Type*} : ServerInstr T → Option (ℕ × Instr T)
  | connection k i => some (k, i)
  | call (.connection k f) => some (k, .call f)
  | _ => none

def ServerInstr.owner {T : Type*} : ServerInstr T → Option ℕ
  | connection k _ | queueInLoop _ (.connection k _) | call (.connection k _) => some k
  | _ => none

def ServerFunctor.view {T : Type*} (k : ℕ) : ServerFunctor T → Functor (Payload T)
  | connection j f => if j = k then f else .other
  | listen | other => .other

def ServerInstr.view {T : Type*} (k : ℕ) : ServerInstr T → Instr T
  | connection j i => if j = k then i else .call .other
  | queueInLoop loop cb => .queueInLoop loop (cb.view k)
  | wakeup loop => .wakeup loop
  | call f => .call (f.view k)
  | _ => .call .other

/-- The `shared_ptr` inside a function object on the stack. -/
def ServerFunctor.destructor {T : Type*} : ServerFunctor T → List (ServerInstr T)
  | connection k f => f.destructor.map (Instr.tag k)
  | listen | other => []

def ServerInstr.isUser {T : Type*} : ServerInstr T → Bool
  | connection _ .user | threadInitCallback => true
  | _ => false

/-- A connection of the server. The last fields record what has happened:
`destroySwapped` as in the run of a connection, `removed` and `destroyed` that
`removeConnectionInLoop` and `connectDestroyed` have been executed. -/
structure ServedConnection (T : Type*) where
  conn : TcpConnection
  loop_ : T
  /-- the channel is among the `activeChannels_` still to be handled -/
  active : Bool
  /-- the copies of the `TcpConnectionPtr` that the user holds -/
  pointers : ℕ
  closing : Bool
  callbacks : List Invocation
  closeCallbacks : ℕ
  accepted : List (Payload T)
  executed : List (Execution T)
  destroySwapped : Bool
  removed : Bool
  destroyed : Bool

def ServedConnection.create {T : Type*} (loop : T) (sockfd : ℤ) (writeCompleteCallback : Bool) :
    ServedConnection T where
  conn := .create sockfd writeCompleteCallback
  loop_ := loop
  active := false
  pointers := 0
  closing := false
  callbacks := []
  closeCallbacks := 0
  accepted := []
  executed := []
  destroySwapped := false
  removed := false
  destroyed := false

def ServedConnection.report {T : Type*} (c : ServedConnection T) :
    Option Events → ServedConnection T
  | some revents =>
    { c with
      conn := { c.conn with channel_ := c.conn.channel_.set_revents revents }
      active := true }
  | none => c

def ServedConnection.swapped {T : Type*} (c : ServedConnection T) (destroys : T → Bool) :
    ServedConnection T :=
  { c with destroySwapped := c.destroySwapped || destroys c.loop_ }

inductive ServerLife
  | alive
  | inDestructor
  | destroyed
  deriving DecidableEq, Repr

structure ServerRun (T : Type*) where
  options : ServerOptions
  started_ : ℕ
  nextConnId_ : ℕ
  /-- a `TcpConnectionPtr` is the number of its connection -/
  connections_ : AList fun _ : Text => ℕ
  threadPool_ : EventLoopThreadPool T
  acceptChannel_ : RegisteredChannel
  /-- `acceptChannel_` is among the `activeChannels_` still to be handled -/
  acceptActive : Bool
  life : ServerLife
  connection : ℕ → ServedConnection T
  memory : ℕ → Byte
  files : ℤ → List Byte
  loops : T → EventLoop (ServerFunctor T)
  stack : T → List (ServerInstr T)
  /-- the thread of the pool has come to its end -/
  returned : T → Bool

inductive ServerCall (T : Type*)
  | connection (k : ℕ) (c : UserCall T)
  | start
  /-- `~TcpServer` -/
  | destroy
  deriving DecidableEq, Repr

inductive ServerLabel (T : Type*)
  | exec (t : T) (o : Outcome)
  /-- `startLoop` of a new `EventLoopThread`, whose thread is `loop` -/
  | startLoop (t loop : T)
  /-- the next entry of `connections_` in the destructor -/
  | destroyNext (k : ℕ)
  | control (t : T) (c : LoopStep)
  /-- `poll` returns with these channels in `activeChannels_` -/
  | poll (t : T) (wakeup : Bool) (reports : List (ℕ × Events)) (accept : Option Events)
  | handleEvent (k : ℕ)
  | acceptEvent
  | call (t : T) (c : ServerCall T)
  | store (t : T) (address : ℕ) (value : Byte)
  /-- code of the user copies or drops a `TcpConnectionPtr` -/
  | copy (t : T) (k : ℕ)
  | drop (t : T) (k : ℕ)
  deriving DecidableEq, Repr

namespace ServerRun

variable {T : Type*}

def Accepted (s : ServerRun T) (k : ℕ) : Prop := 0 < k ∧ k < s.nextConnId_

instance (s : ServerRun T) (k : ℕ) : Decidable (s.Accepted k) := inferInstanceAs (Decidable (_ ∧ _))

def connName (s : ServerRun T) (k : ℕ) : Text := s.options.connName k

def Registered (s : ServerRun T) (k : ℕ) : Prop := s.connections_.lookup (s.connName k) = some k

instance (s : ServerRun T) (k : ℕ) : Decidable (s.Registered k) :=
  inferInstanceAs (Decidable (_ = _))

/-- What the instructions of a connection work on. -/
def shared (s : ServerRun T) (k : ℕ) : Shared T where
  conn := (s.connection k).conn
  inConnections := s.Registered k
  memory := s.memory
  files := s.files
  closing := (s.connection k).closing
  callbacks := (s.connection k).callbacks
  closeCallbacks := (s.connection k).closeCallbacks
  accepted := (s.connection k).accepted
  executed := (s.connection k).executed

/-- Everything thread `t` has still to run, its loop's queued functors last. -/
def work (s : ServerRun T) (t : T) : List (ServerInstr T) :=
  s.stack t ++ (s.loops t).queued.map .call

def UserRuns (s : ServerRun T) (t : T) : Prop :=
  (s.stack t = [] ∧ (s.loops t).phase.runsCode = true ∧ s.returned t = false) ∨
    ∃ i ∈ (s.stack t).head?, i.isUser = true

instance [DecidableEq T] (s : ServerRun T) (t : T) : Decidable (s.UserRuns t) :=
  inferInstanceAs (Decidable (_ ∨ ∃ i ∈ (s.stack t).head?, _))

variable [DecidableEq T]

def setStack (s : ServerRun T) (t : T) (is : List (ServerInstr T)) : ServerRun T :=
  { s with stack := Function.update s.stack t is }

def setLoop (s : ServerRun T) (t : T) (l : EventLoop (ServerFunctor T)) : ServerRun T :=
  { s with loops := Function.update s.loops t l }

def view (s : ServerRun T) (k : ℕ) : ConnectionRun T where
  toShared := s.shared k
  loops t := (s.loops t).map (ServerFunctor.view k)
  stack t := (s.stack t).map (ServerInstr.view k)
  active := (s.connection k).active
  destroySwapped := (s.connection k).destroySwapped

/-- A `shared_ptr` to the connection exists. -/
def Alive (s : ServerRun T) (k : ℕ) : Prop :=
  (s.view k).Alive ∨ 0 < (s.connection k).pointers

/-- An instruction of the connection `k` has left it as `c`. Of the server,
`removeConnectionInLoop` erases the entry under the name of the connection. -/
def setConnection (s : ServerRun T) (k : ℕ) (i : Instr T) (c : Shared T) : ServerRun T :=
  { s with
    connection := Function.update s.connection k { s.connection k with
      conn := c.conn
      closing := c.closing
      callbacks := c.callbacks
      closeCallbacks := c.closeCallbacks
      accepted := c.accepted
      executed := c.executed
      removed := (s.connection k).removed || i = .call .removeConnectionInLoop
      destroyed := (s.connection k).destroyed || i = .remove }
    connections_ := if i = .call .removeConnectionInLoop then s.connections_.erase (s.connName k)
      else s.connections_ }

def setPointers (s : ServerRun T) (k : ℕ) (n : ℕ) : ServerRun T :=
  { s with
    connection := Function.update s.connection k { s.connection k with pointers := n } }

/-- Where `++nextConnId_` would overflow, there is no step. -/
def newConnection (s : ServerRun T) (sockfd : ℤ) : Option (ServerRun T × List (ServerInstr T)) :=
  if s.nextConnId_ + 1 < 2 ^ 31 then
    let ioLoop := s.threadPool_.getNextLoop.1
    let k := s.nextConnId_
    some ({ s with
        threadPool_ := s.threadPool_.getNextLoop.2
        nextConnId_ := k + 1
        connections_ := s.connections_.insert (s.connName k) k
        connection := Function.update s.connection k
          (.create ioLoop sockfd s.options.writeCompleteCallback) },
      [.connection k (.runInLoop ioLoop .connectEstablished), .connection k .release])
  else none

/-- An instruction that is not of a connection, apart from the two halves of
`queueInLoop` and from those that a label of their own completes. -/
def run (main t : T) (s : ServerRun T) (i : ServerInstr T) (o : Outcome) :
    Option (ServerRun T × List (ServerInstr T)) :=
  match i with
  | .start =>
    some ({ s with started_ := s.started_ + 1 },
      if s.started_ = 0 then
        List.replicate s.threadPool_.numThreads_.toNat .startLoop ++
          (if s.threadPool_.numThreads_ = 0 then [.threadInitCallback] else []) ++ [.listenInLoop]
      else [])
  | .listenInLoop => some (s, if t = main then [.call .listen] else [.queueInLoop main .listen])
  | .call .listen =>
    some ({ s with acceptChannel_ := s.acceptChannel_.change .enableReading }, [])
  | .handleRead =>
    match o.result with
    | .ok sockfd => s.newConnection sockfd
    | .error _ => some (s, [])
  | .destroyConnections => if s.connections_.entries = [] then some (s, []) else none
  | .quit loop => some (s.setLoop loop (s.loops loop).setQuit, [.wakeup loop])
  | .join loop => if s.returned loop = true then some (s, []) else none
  | .destroyAcceptor =>
    some ({ s with acceptChannel_ := (s.acceptChannel_.change .disableAll).remove }, [])
  | .destroyed => some ({ s with life := .destroyed }, [])
  | .threadInitCallback | .call .other => some (s, [])
  | .connection _ _ | .call (.connection _ _) | .queueInLoop _ _ | .wakeup _ | .startLoop => none

def exec (main t : T) (s : ServerRun T) (o : Outcome) : Option (ServerRun T) :=
  match s.stack t with
  | [] => none
  | .queueInLoop loop cb :: rest =>
    some ((s.setLoop loop ((s.loops loop).push cb)).setStack t
      (.wakeup loop :: cb.destructor ++ rest))
  | .wakeup loop :: rest =>
    some ((s.setLoop loop ((s.loops loop).wakeupAfterPush (t = loop))).setStack t rest)
  | i :: rest =>
    match i.ofConnection with
    | some (k, i) =>
      ((s.shared k).run (s.connection k).loop_ main t i o).map fun r =>
        (s.setConnection k i r.1).setStack t (r.2.map (Instr.tag k) ++ rest)
    | none => (s.run main t i o).map fun r => r.1.setStack t (r.2 ++ rest)

/-- The thread of a new `EventLoopThread`, from its `ThreadInitCallback` on. -/
def startLoop (main t loop : T) (s : ServerRun T) : Option (ServerRun T) :=
  match s.stack t with
  | .startLoop :: rest =>
    if loop ≠ main ∧ loop ≠ t ∧ loop ∉ s.threadPool_.loops_ ∧ s.loops loop = .create ∧
        s.stack loop = [] ∧ s.returned loop = false then
      some ({ s with threadPool_ := s.threadPool_.push_back loop }.setStack t rest)
    else none
  | _ => none

/-- One round of the loop in the destructor. An entry that has been reset holds
nothing any more, and is left out from then on. -/
def destroyNext (main : T) (s : ServerRun T) (k : ℕ) : Option (ServerRun T) :=
  match s.stack main with
  | .destroyConnections :: rest =>
    if s.Accepted k ∧ s.Registered k then
      some ({ s with connections_ := s.connections_.erase (s.connName k) }.setStack main
        (.connection k (.runInLoop (s.connection k).loop_ .connectDestroyed) ::
          .connection k .release :: .destroyConnections :: rest))
    else none
  | _ => none

def Dispatches (main t : T) (s : ServerRun T) : Prop :=
  (t = main ∧ s.acceptActive = true) ∨
    ∃ k < s.nextConnId_, 0 < k ∧ (s.connection k).loop_ = t ∧ (s.connection k).active = true

instance (main t : T) (s : ServerRun T) : Decidable (s.Dispatches main t) :=
  inferInstanceAs (Decidable (_ ∨ _))

/-- The connections once thread `t` has taken a step of `loop()`. -/
def afterStep (s : ServerRun T) (t : T) (c : LoopStep) : ℕ → ServedConnection T :=
  if c = .swap then fun k => (s.connection k).swapped fun loop =>
    t = loop && (s.loops t).pendingFunctors_.contains (.connection k .connectDestroyed)
  else s.connection

/-- Thread `t` goes on in its `loop()`; the handlers of one poll all run before
the pending functors. The thread of a loop of the pool ends with `loop()`. -/
def control (main t : T) (s : ServerRun T) (c : LoopStep) : Option (ServerRun T) :=
  if s.stack t ≠ [] ∨ s.returned t = true ∨ (s.Dispatches main t ∧ c = .endDispatch) then none
  else ((s.loops t).advance c).map fun loop =>
    { (s.setLoop t loop).setStack t (((s.loops t).started c).map .call) with
      connection := s.afterStep t c
      returned := Function.update s.returned t
        (t ∈ s.threadPool_.loops_ && c = .test && (s.loops t).quit_) }

/-- The kernel may report these events of the channel. -/
def mayReport (c : RegisteredChannel) (revents : Events) : Bool :=
  c.registered.any fun mask => revents &&& ~~~(ConnectionRun.reportable mask) = 0#32

def poll (main t : T) (s : ServerRun T) (wakeup : Bool) (reports : List (ℕ × Events))
    (accept : Option Events) : Option (ServerRun T) :=
  if s.stack t = [] ∧ s.returned t = false ∧
      (∀ r ∈ reports, s.Accepted r.1 ∧ (s.connection r.1).loop_ = t ∧
        mayReport (s.connection r.1).conn.channel_ r.2 = true) ∧
      (accept.all fun revents => t = main && mayReport s.acceptChannel_ revents) = true then
    ((s.loops t).advance (.pollReturn wakeup)).map fun loop =>
      { s.setLoop t loop with
        connection := fun k => (s.connection k).report (reports.lookup k)
        acceptChannel_ := (accept.map s.acceptChannel_.set_revents).getD s.acceptChannel_
        acceptActive := s.acceptActive || accept.isSome }
  else none

/-- `Channel::handleEvent` of a connection. -/
def handleEvent (s : ServerRun T) (k : ℕ) : Option (ServerRun T) :=
  let c := s.connection k
  if s.Accepted k ∧ s.stack c.loop_ = [] ∧ c.active = true then
    some { s.setStack c.loop_
        ((c.conn.channel_.channel.handleEventWithGuard.map fun cb =>
          .connection k (.handle cb)) ++ [.connection k .release]) with
      connection := Function.update s.connection k { c with active := false } }
  else none

/-- The acceptor sets the read callback only. -/
def acceptEvent (main : T) (s : ServerRun T) : Option (ServerRun T) :=
  if s.stack main = [] ∧ s.acceptActive = true then
    some { s.setStack main
        ((s.acceptChannel_.channel.handleEventWithGuard.filter (· = .readCallback)).map
          fun _ => .handleRead) with
      acceptActive := false }
  else none

/-- What a call of the user puts on the stack of thread `t`. A server in its
destructor is not used. -/
def code (main t : T) (s : ServerRun T) : ServerCall T → Option (ServerRun T × List (ServerInstr T))
  | .connection _ (.queueInLoop loop) => some (s, [.queueInLoop loop .other])
  | .connection k c =>
    if s.Accepted k ∧ (s.connection k).callbacks ≠ [] then
      some (s, ((s.view k).code t c).map (Instr.tag k))
    else none
  | .start => if s.life = .alive then some (s, [.start]) else none
  | .destroy =>
    if t = main ∧ s.life = .alive then
      some ({ s with life := .inDestructor },
        .destroyConnections ::
          s.threadPool_.loops_.flatMap (fun loop => [.quit loop, .join loop]) ++
          [.destroyAcceptor, .destroyed])
    else none

def step (main : T) (s : ServerRun T) : ServerLabel T → Option (ServerRun T)
  | .exec t o => s.exec main t o
  | .startLoop t loop => s.startLoop main t loop
  | .destroyNext k => s.destroyNext main k
  | .control t c => s.control main t c
  | .poll t wakeup reports accept => s.poll main t wakeup reports accept
  | .handleEvent k => s.handleEvent k
  | .acceptEvent => s.acceptEvent main
  | .call t c =>
    if s.UserRuns t then (s.code main t c).map fun r => r.1.setStack t (r.2 ++ s.stack t) else none
  | .store t address value =>
    if s.UserRuns t then some { s with memory := Function.update s.memory address value }
    else none
  | .copy t k =>
    if s.UserRuns t ∧ s.Accepted k ∧ (s.connection k).callbacks ≠ [] then
      some (s.setPointers k ((s.connection k).pointers + 1))
    else none
  | .drop t k =>
    if s.UserRuns t ∧ s.Accepted k ∧ 0 < (s.connection k).pointers then
      some (s.setPointers k ((s.connection k).pointers - 1))
    else none

/-- The server has been constructed. What the loops hold is of the user. -/
structure Init (main : T) (s : ServerRun T) : Prop where
  started : s.started_ = 0
  nextConnId : s.nextConnId_ = 1
  connections : s.connections_ = ∅
  threadPool : ∃ numThreads, s.threadPool_ = .create main numThreads
  acceptChannel : ∃ fd, s.acceptChannel_ = (RegisteredChannel.create fd).setCallback .readCallback
  acceptActive : s.acceptActive = false
  life : s.life = .alive
  returned : ∀ t, s.returned t = false
  stack : ∀ t, s.stack t = []
  held : ∀ t, ∀ f ∈ (s.loops t).held, f = .other

/-- A `TcpConnectionPtr` is used and copied only while the connection exists. -/
def Permitted (s : ServerRun T) : ServerLabel T → Prop
  | .call _ (.connection _ (.queueInLoop _)) => True
  | .call _ (.connection k _) | .copy _ k => s.Alive k
  | _ => True

def system (main : T) : TransitionSystem (ServerRun T) (ServerLabel T) where
  Init := Init main
  Step s l s' := s.Permitted l ∧ s.step main l = some s'

/-! ## What a step can do -/

inductive Steps (main : T) (s : ServerRun T) : ServerLabel T → ServerRun T → Prop
  | run (t : T) (o : Outcome) (head : ServerInstr T) (k : ℕ) (i : Instr T)
      (rest : List (ServerInstr T)) (c : Shared T) (new : List (Instr T))
      (hs : s.stack t = head :: rest) (hi : head.ofConnection = some (k, i))
      (hr : (s.shared k).run (s.connection k).loop_ main t i o = some (c, new)) :
      Steps main s (.exec t o)
        ((s.setConnection k i c).setStack t (new.map (Instr.tag k) ++ rest))
  | own (t : T) (o : Outcome) (i : ServerInstr T) (rest : List (ServerInstr T)) (r : ServerRun T)
      (new : List (ServerInstr T)) (hs : s.stack t = i :: rest)
      (hr : s.run main t i o = some (r, new)) :
      Steps main s (.exec t o) (r.setStack t (new ++ rest))
  | queue (t : T) (o : Outcome) (loop : T) (cb : ServerFunctor T)
      (rest : List (ServerInstr T)) (hs : s.stack t = .queueInLoop loop cb :: rest) :
      Steps main s (.exec t o)
        ((s.setLoop loop ((s.loops loop).push cb)).setStack t
          (.wakeup loop :: cb.destructor ++ rest))
  | wakeup (t : T) (o : Outcome) (loop : T) (rest : List (ServerInstr T))
      (hs : s.stack t = .wakeup loop :: rest) :
      Steps main s (.exec t o)
        ((s.setLoop loop ((s.loops loop).wakeupAfterPush (t = loop))).setStack t rest)
  | startLoop (t loop : T) (rest : List (ServerInstr T)) (hs : s.stack t = .startLoop :: rest)
      (hmain : loop ≠ main) (hself : loop ≠ t) (hnew : loop ∉ s.threadPool_.loops_)
      (hloop : s.loops loop = .create) (hstack : s.stack loop = []) :
      Steps main s (.startLoop t loop)
        ({ s with threadPool_ := s.threadPool_.push_back loop }.setStack t rest)
  | destroyNext (k : ℕ) (rest : List (ServerInstr T))
      (hs : s.stack main = .destroyConnections :: rest) (ha : s.Accepted k)
      (hk : s.Registered k) :
      Steps main s (.destroyNext k)
        ({ s with connections_ := s.connections_.erase (s.connName k) }.setStack main
          (.connection k (.runInLoop (s.connection k).loop_ .connectDestroyed) ::
            .connection k .release :: .destroyConnections :: rest))
  | control (t : T) (c : LoopStep) (loop : EventLoop (ServerFunctor T)) (hs : s.stack t = [])
      (hreturned : s.returned t = false) (hd : c = .endDispatch → ¬ s.Dispatches main t)
      (ha : (s.loops t).Advances c loop) :
      Steps main s (.control t c)
        { (s.setLoop t loop).setStack t (((s.loops t).started c).map .call) with
          connection := s.afterStep t c
          returned := Function.update s.returned t
            (t ∈ s.threadPool_.loops_ && c = .test && (s.loops t).quit_) }
  | poll (t : T) (wakeup : Bool) (reports : List (ℕ × Events)) (accept : Option Events)
      (loop : EventLoop (ServerFunctor T)) (hs : s.stack t = [])
      (hr : ∀ r ∈ reports, s.Accepted r.1 ∧ (s.connection r.1).loop_ = t ∧
        mayReport (s.connection r.1).conn.channel_ r.2 = true)
      (hacc : (accept.all fun revents => t = main && mayReport s.acceptChannel_ revents) =
        true)
      (ha : (s.loops t).Advances (.pollReturn wakeup) loop) :
      Steps main s (.poll t wakeup reports accept)
        { s.setLoop t loop with
          connection := fun k => (s.connection k).report (reports.lookup k)
          acceptChannel_ := (accept.map s.acceptChannel_.set_revents).getD s.acceptChannel_
          acceptActive := s.acceptActive || accept.isSome }
  | handleEvent (k : ℕ) (hk : s.Accepted k) (hs : s.stack (s.connection k).loop_ = [])
      (ha : (s.connection k).active = true) :
      Steps main s (.handleEvent k)
        { s.setStack (s.connection k).loop_
            (((s.connection k).conn.channel_.channel.handleEventWithGuard.map fun cb =>
              .connection k (.handle cb)) ++ [.connection k .release]) with
          connection := Function.update s.connection k
            { s.connection k with active := false } }
  | acceptEvent (hs : s.stack main = []) (ha : s.acceptActive = true) :
      Steps main s .acceptEvent
        { s.setStack main
            ((s.acceptChannel_.channel.handleEventWithGuard.filter (· = .readCallback)).map
              fun _ => .handleRead) with
          acceptActive := false }
  | call (t : T) (c : ServerCall T) (r : ServerRun T) (new : List (ServerInstr T))
      (hu : s.UserRuns t) (hc : s.code main t c = some (r, new)) :
      Steps main s (.call t c) (r.setStack t (new ++ s.stack t))
  | store (t : T) (address : ℕ) (value : Byte) (hu : s.UserRuns t) :
      Steps main s (.store t address value)
        { s with memory := Function.update s.memory address value }
  | pointers (l : ServerLabel T) (k n : ℕ) (hk : s.Accepted k)
      (hl : ∃ t, l = .copy t k ∨ l = .drop t k) : Steps main s l (s.setPointers k n)

variable {main : T} {s s' : ServerRun T}

theorem steps_of_exec {t : T} {o : Outcome} (h : s.exec main t o = some s') :
    Steps main s (.exec t o) s' := by
  unfold exec at h
  split at h
  · cases h
  · rename_i loop cb rest hs
    cases h
    exact .queue t o loop cb rest hs
  · rename_i loop rest hs
    cases h
    exact .wakeup t o loop rest hs
  · rename_i i rest _ _ hs
    split at h
    · rename_i k j hi
      obtain ⟨⟨c, new⟩, hr, rfl⟩ := Option.map_eq_some_iff.mp h
      exact .run t o i k j rest c new hs hi hr
    · obtain ⟨⟨r, new⟩, hr, rfl⟩ := Option.map_eq_some_iff.mp h
      exact .own t o i rest r new hs hr

theorem steps_of_control {t : T} {c : LoopStep} (h : s.control main t c = some s') :
    Steps main s (.control t c) s' := by
  unfold control at h
  split_ifs at h with hguard
  simp only [not_or, not_and, ne_eq, not_not, Bool.not_eq_true] at hguard
  obtain ⟨loop, ha, rfl⟩ := Option.map_eq_some_iff.mp h
  exact .control t c loop hguard.1 hguard.2.1 (fun hc hd => hguard.2.2 hd hc)
    (EventLoop.advances_of_advance ha)

theorem steps_of_poll {t : T} {wakeup : Bool} {reports : List (ℕ × Events)}
    {accept : Option Events} (h : s.poll main t wakeup reports accept = some s') :
    Steps main s (.poll t wakeup reports accept) s' := by
  unfold poll at h
  split_ifs at h with hguard
  obtain ⟨loop, ha, rfl⟩ := Option.map_eq_some_iff.mp h
  exact .poll t wakeup reports accept loop hguard.1 hguard.2.2.1 hguard.2.2.2
    (EventLoop.advances_of_advance ha)

theorem steps_of_step {l : ServerLabel T} (h : s.step main l = some s') : Steps main s l s' := by
  cases l with
  | exec t o => exact steps_of_exec h
  | control t c => exact steps_of_control h
  | poll t wakeup reports accept => exact steps_of_poll h
  | startLoop t loop =>
    simp only [step, startLoop] at h
    split at h
    · rename_i rest hs
      split_ifs at h with hg
      cases h
      exact .startLoop t loop rest hs hg.1 hg.2.1 hg.2.2.1 hg.2.2.2.1 hg.2.2.2.2.1
    · cases h
  | destroyNext k =>
    simp only [step, destroyNext] at h
    split at h
    · rename_i rest hs
      split_ifs at h with hg
      cases h
      exact .destroyNext k rest hs hg.1 hg.2
    · cases h
  | handleEvent k =>
    simp only [step, handleEvent] at h
    split_ifs at h with hg
    cases h
    exact .handleEvent k hg.1 hg.2.1 hg.2.2
  | acceptEvent =>
    simp only [step, acceptEvent] at h
    split_ifs at h with hg
    cases h
    exact .acceptEvent hg.1 hg.2
  | call t c =>
    simp only [step] at h
    split_ifs at h with hu
    obtain ⟨⟨r, new⟩, hc, rfl⟩ := Option.map_eq_some_iff.mp h
    exact .call t c r new hu hc
  | store t address value =>
    simp only [step] at h
    split_ifs at h with hu
    cases h
    exact .store t address value hu
  | copy t k =>
    simp only [step] at h
    split_ifs at h with hg
    cases h
    exact .pointers _ k _ hg.2.1 ⟨t, Or.inl rfl⟩
  | drop t k =>
    simp only [step] at h
    split_ifs at h with hg
    cases h
    exact .pointers _ k _ hg.2.1 ⟨t, Or.inr rfl⟩

/-! ## How a step changes the work that is left -/

theorem forall_work_of {P : T → ServerInstr T → Prop} {t : T} {is : List (ServerInstr T)}
    (hstack : s'.stack = Function.update s.stack t is)
    (hall : ∀ u ≠ t, ∀ i ∈ s.stack u, P u i) (his : ∀ i ∈ is, P t i)
    (hqueue : ∀ u, ∀ f ∈ (s'.loops u).queued, P u (.call f)) : ∀ u, ∀ i ∈ s'.work u, P u i := by
  intro u i hi
  rcases List.mem_append.mp hi with hi | hi
  · rw [hstack] at hi
    by_cases hu : u = t
    · subst hu
      rw [Function.update_self] at hi
      exact his i hi
    · rw [Function.update_of_ne hu] at hi
      exact hall u hu i hi
  · obtain ⟨f, hf, rfl⟩ := List.mem_map.mp hi
    exact hqueue u f hf

theorem forall_queued_update {P : T → ServerInstr T → Prop} {loop : T}
    {l : EventLoop (ServerFunctor T)} (hl : ∀ f ∈ l.queued, f ∈ (s.loops loop).queued)
    (hqueue : ∀ u, ∀ f ∈ (s.loops u).queued, P u (.call f)) :
    ∀ u, ∀ f ∈ (Function.update s.loops loop l u).queued, P u (.call f) := by
  intro u f hf
  by_cases hu : u = loop
  · subst hu
    rw [Function.update_self] at hf
    exact hqueue u f (hl f hf)
  · rw [Function.update_of_ne hu] at hf
    exact hqueue u f hf

/-- An instruction that is not of a connection accepts one, or changes nothing
but the server's own state and the `quit_` of a loop. -/
theorem run_cases {t : T} {i : ServerInstr T} {o : Outcome} {r : ServerRun T}
    {new : List (ServerInstr T)} (h : s.run main t i o = some (r, new)) :
    (∃ sockfd, i = .handleRead ∧ s.newConnection sockfd = some (r, new)) ∨
    ((∀ j ∈ new, j.owner = none ∧ j ≠ .destroyConnections) ∧
      (r.loops = s.loops ∨
        ∃ loop, r.loops = Function.update s.loops loop (s.loops loop).setQuit) ∧
      r = { s with
        started_ := r.started_
        acceptChannel_ := r.acceptChannel_
        life := r.life
        loops := r.loops }) := by
  cases i with
  | handleRead =>
    simp only [run] at h
    split at h
    · rename_i sockfd _
      exact Or.inl ⟨sockfd, rfl, h⟩
    · right
      cases h
      exact ⟨by simp, Or.inl rfl, rfl⟩
  | start =>
    right
    cases h
    refine ⟨?_, Or.inl rfl, rfl⟩
    intro j hj
    split_ifs at hj <;> simp [List.mem_replicate] at hj <;> grind [ServerInstr.owner]
  | listenInLoop =>
    right
    cases h
    refine ⟨?_, Or.inl rfl, rfl⟩
    intro j hj
    split_ifs at hj <;> rw [List.mem_singleton.mp hj] <;> simp [ServerInstr.owner]
  | quit loop =>
    right
    cases h
    exact ⟨by simp [ServerInstr.owner], Or.inr ⟨loop, rfl⟩, rfl⟩
  | call f =>
    cases f with
    | connection k f => cases h
    | listen | other =>
      right
      cases h
      exact ⟨by simp, Or.inl rfl, rfl⟩
  | destroyConnections | join loop =>
    right
    simp only [run] at h
    split_ifs at h
    cases h
    exact ⟨by simp, Or.inl rfl, rfl⟩
  | connection k i | queueInLoop loop cb | wakeup loop | startLoop => cases h
  | _ =>
    right
    cases h
    exact ⟨by simp, Or.inl rfl, rfl⟩

omit [DecidableEq T] in
theorem newConnection_eq {sockfd : ℤ} {r : ServerRun T} {new : List (ServerInstr T)}
    (h : s.newConnection sockfd = some (r, new)) :
    s.nextConnId_ + 1 < 2 ^ 31 ∧
    new = [.connection s.nextConnId_ (.runInLoop s.threadPool_.getNextLoop.1 .connectEstablished),
      .connection s.nextConnId_ .release] ∧
    r = { s with
      threadPool_ := s.threadPool_.getNextLoop.2
      nextConnId_ := s.nextConnId_ + 1
      connections_ := s.connections_.insert (s.connName s.nextConnId_) s.nextConnId_
      connection := Function.update s.connection s.nextConnId_
        (.create s.threadPool_.getNextLoop.1 sockfd s.options.writeCompleteCallback) } := by
  unfold newConnection at h
  split_ifs at h with hlt
  cases h
  exact ⟨hlt, rfl, rfl⟩

/-- What an instruction that is not of a connection can leave to do in its place. -/
inductive OwnFollows (main t : T) (s : ServerRun T) : ServerInstr T → ServerInstr T → Prop
  | start_loop : OwnFollows main t s .start .startLoop
  | start_init : OwnFollows main t s .start .threadInitCallback
  | start_listen : OwnFollows main t s .start .listenInLoop
  | listen_call (ht : t = main) : OwnFollows main t s .listenInLoop (.call .listen)
  | listen_queue : OwnFollows main t s .listenInLoop (.queueInLoop main .listen)
  | accept_run : OwnFollows main t s .handleRead
      (.connection s.nextConnId_ (.runInLoop s.threadPool_.getNextLoop.1 .connectEstablished))
  | accept_release : OwnFollows main t s .handleRead (.connection s.nextConnId_ .release)
  | quit_wakeup (loop : T) : OwnFollows main t s (.quit loop) (.wakeup loop)

theorem ownFollows_of_run {t : T} {i : ServerInstr T} {o : Outcome} {r : ServerRun T}
    {new : List (ServerInstr T)} (h : s.run main t i o = some (r, new)) {j : ServerInstr T}
    (hj : j ∈ new) : OwnFollows main t s i j := by
  cases i with
  | handleRead =>
    simp only [run] at h
    split at h
    · obtain ⟨-, rfl, -⟩ := newConnection_eq h
      simp only [List.mem_cons, List.not_mem_nil, or_false] at hj
      rcases hj with rfl | rfl <;> constructor
    · cases h
      cases hj
  | start =>
    cases h
    split_ifs at hj <;> simp [List.mem_replicate] at hj
    · rcases hj with ⟨_, rfl⟩ | rfl | rfl <;> constructor
    · rcases hj with ⟨_, rfl⟩ | rfl <;> constructor
  | listenInLoop =>
    cases h
    split_ifs at hj with ht
    · rw [List.mem_singleton.mp hj]
      exact .listen_call ht
    · rw [List.mem_singleton.mp hj]
      exact .listen_queue
  | quit loop =>
    cases h
    rw [List.mem_singleton.mp hj]
    exact .quit_wakeup loop
  | call f =>
    cases f with
    | connection k f => cases h
    | listen | other =>
      cases h
      cases hj
  | destroyConnections | join loop =>
    simp only [run] at h
    split_ifs at h
    cases h
    cases hj
  | connection k i | queueInLoop loop cb | wakeup loop | startLoop => cases h
  | _ =>
    cases h
    cases hj

theorem frame_of_run {t : T} {i : ServerInstr T} {o : Outcome} {r : ServerRun T}
    {new : List (ServerInstr T)} (h : s.run main t i o = some (r, new)) :
    r.stack = s.stack ∧ ∀ u, (r.loops u).queued = (s.loops u).queued := by
  rcases run_cases h with ⟨sockfd, -, hnew⟩ | ⟨-, hloops, hr⟩
  · obtain ⟨-, -, rfl⟩ := newConnection_eq hnew
    exact ⟨rfl, fun _ => rfl⟩
  · refine ⟨by rw [hr], ?_⟩
    intro u
    rcases hloops with hl | ⟨loop, hl⟩
    · rw [hl]
    · rw [hl]
      by_cases hu : u = loop
      · subst hu
        simp [EventLoop.queued]
      · rw [Function.update_of_ne hu]

/-- What a call of the user leaves of the server, and puts on the stack. -/
inductive Codes (main t : T) (s : ServerRun T) :
    ServerCall T → ServerRun T → List (ServerInstr T) → Prop
  | connection (k : ℕ) (c : UserCall T) (hk : s.Accepted k)
      (hcallbacks : (s.connection k).callbacks ≠ []) :
      Codes main t s (.connection k c) s (((s.view k).code t c).map (Instr.tag k))
  | queueInLoop (k : ℕ) (loop : T) :
      Codes main t s (.connection k (.queueInLoop loop)) s [.queueInLoop loop .other]
  | start (hlife : s.life = .alive) : Codes main t s .start s [.start]
  | destroy (ht : t = main) (hlife : s.life = .alive) :
      Codes main t s .destroy { s with life := .inDestructor }
        (.destroyConnections ::
          s.threadPool_.loops_.flatMap (fun loop => [.quit loop, .join loop]) ++
          [.destroyAcceptor, .destroyed])

theorem codes_of_code {t : T} {c : ServerCall T} {r : ServerRun T} {new : List (ServerInstr T)}
    (h : s.code main t c = some (r, new)) : Codes main t s c r new := by
  cases c with
  | connection k c =>
    cases c with
    | queueInLoop loop =>
      cases h
      exact .queueInLoop k loop
    | _ =>
      simp only [code] at h
      split_ifs at h with hg
      cases h
      exact .connection k _ hg.1 hg.2
  | start =>
    simp only [code] at h
    split_ifs at h with hlife
    cases h
    exact .start hlife
  | destroy =>
    simp only [code] at h
    split_ifs at h with hg
    cases h
    exact .destroy hg.1 hg.2

theorem frame_of_code {t : T} {c : ServerCall T} {r : ServerRun T} {new : List (ServerInstr T)}
    (h : s.code main t c = some (r, new)) : r = { s with life := r.life } := by
  cases codes_of_code h <;> rfl

/-- A property of every instruction that is left, kept by a step: it is enough
to look at what the instructions put in their place, with what the step requires. -/
theorem Steps.forall_work_of {P : T → ServerInstr T → Prop} {l : ServerLabel T}
    (h : Steps main s l s') (hall : ∀ u, ∀ i ∈ s.work u, P u i)
    (hrun : ∀ t o head rest k i c new, l = .exec t o → s.stack t = head :: rest →
      head.ofConnection = some (k, i) →
      (s.shared k).run (s.connection k).loop_ main t i o = some (c, new) →
      ∀ j ∈ new, P t (j.tag k))
    (hown : ∀ t o i rest r new, s.stack t = i :: rest → s.run main t i o = some (r, new) →
      s' = r.setStack t (new ++ rest) → ∀ j ∈ new, P t j)
    (hwakeup : ∀ t loop, P t (.wakeup loop))
    (hrelease : ∀ t k, (s.Accepted k ∨ ∃ loop f, P t (.queueInLoop loop (.connection k f))) →
      P t (.connection k .release))
    (hqueue : ∀ t loop cb, P t (.queueInLoop loop cb) → P loop (.call cb))
    (hdestroy : ∀ k, s.Accepted k →
      P main (.connection k (.runInLoop (s.connection k).loop_ .connectDestroyed)))
    (hevent : ∀ k cb, s.Accepted k → (s.connection k).active = true →
      P (s.connection k).loop_ (.connection k (.handle cb)))
    (haccept : s.acceptActive = true → P main .handleRead)
    (hcode : ∀ t c r new, l = .call t c → s.code main t c = some (r, new) → ∀ i ∈ new, P t i) :
    ∀ u, ∀ i ∈ s'.work u, P u i := by
  have hstack : ∀ u, ∀ i ∈ s.stack u, P u i := fun u i hi => hall u i (List.mem_append_left _ hi)
  have hqueued : ∀ u, ∀ f ∈ (s.loops u).queued, P u (.call f) := by
    intro u f hf
    exact hall u _ (List.mem_append_right _ (List.mem_map_of_mem hf))
  have hcons : ∀ {t i rest}, s.stack t = i :: rest → P t i ∧ ∀ j ∈ rest, P t j := by
    intro t i rest hs
    exact ⟨hstack t i (by simp [hs]), fun j hj => hstack t j (by simp [hs, hj])⟩
  cases h with
  | run t o head k i rest c new hs hi hr =>
    refine forall_work_of (s := s) rfl (fun u _ => hstack u) ?_ hqueued
    intro j hj
    rcases List.mem_append.mp hj with hj | hj
    · obtain ⟨j', hj', rfl⟩ := List.mem_map.mp hj
      exact hrun t o head rest k i c new rfl hs hi hr j' hj'
    · exact (hcons hs).2 j hj
  | own t o i rest r new hs hr =>
    obtain ⟨hrs, hrq⟩ := frame_of_run hr
    refine forall_work_of (s := s) (by rw [setStack, hrs]) (fun u _ => hstack u) ?_ ?_
    · intro j hj
      rcases List.mem_append.mp hj with hj | hj
      · exact hown t o i rest r new hs hr rfl j hj
      · exact (hcons hs).2 j hj
    · intro u f hf
      exact hqueued u f (hrq u ▸ hf)
  | queue t o loop cb rest hs =>
    refine forall_work_of (s := s) rfl (fun u _ => hstack u) ?_ ?_
    · intro j hj
      simp only [List.cons_append, List.mem_cons, List.mem_append] at hj
      rcases hj with rfl | hj | hj
      · exact hwakeup t loop
      · cases cb with
        | connection k f =>
          simp only [ServerFunctor.destructor, Functor.destructor] at hj
          split_ifs at hj
          · rw [List.mem_singleton.mp hj]
            exact hrelease t k (Or.inr ⟨loop, f, (hcons hs).1⟩)
          · cases hj
        | listen | other => cases hj
      · exact (hcons hs).2 j hj
    · intro u f hf
      simp only [setStack, setLoop] at hf
      by_cases hu : u = loop
      · subst hu
        rw [Function.update_self, EventLoop.queued_push, List.mem_append,
          List.mem_singleton] at hf
        rcases hf with hf | rfl
        · exact hqueued u f hf
        · exact hqueue t u f (hcons hs).1
      · rw [Function.update_of_ne hu] at hf
        exact hqueued u f hf
  | wakeup t o loop rest hs =>
    refine forall_work_of (s := s) rfl (fun u _ => hstack u) (hcons hs).2 ?_
    apply forall_queued_update _ hqueued
    simp [EventLoop.queued]
  | startLoop t loop rest hs =>
    exact forall_work_of (s := s) rfl (fun u _ => hstack u) (hcons hs).2 hqueued
  | destroyNext k rest hs hk hreg =>
    refine forall_work_of (s := s) rfl (fun u _ => hstack u) ?_ hqueued
    intro j hj
    simp only [List.mem_cons] at hj
    rcases hj with rfl | rfl | rfl | hj
    · exact hdestroy k hk
    · exact hrelease main k (Or.inl hk)
    · exact (hcons hs).1
    · exact (hcons hs).2 j hj
  | control t c loop hs hreturned hd ha =>
    refine forall_work_of (s := s) rfl (fun u _ => hstack u) ?_ ?_
    · intro j hj
      obtain ⟨f, hf, rfl⟩ := List.mem_map.mp hj
      apply hqueued t f
      rw [← ha.started_append_queued]
      exact List.mem_append_left _ hf
    · exact forall_queued_update (fun f hf => ha.mem_queued hf) hqueued
  | poll t wakeup reports accept loop hs hr hacc ha =>
    intro u i hi
    rcases List.mem_append.mp hi with hi | hi
    · exact hstack u i hi
    · obtain ⟨f, hf, rfl⟩ := List.mem_map.mp hi
      exact forall_queued_update (fun f hf => ha.mem_queued hf) hqueued u f hf
  | handleEvent k hk hs ha =>
    refine forall_work_of (s := s) rfl (fun u _ => hstack u) ?_ hqueued
    intro j hj
    rcases List.mem_append.mp hj with hj | hj
    · obtain ⟨cb, _, rfl⟩ := List.mem_map.mp hj
      exact hevent k cb hk ha
    · rw [List.mem_singleton.mp hj]
      exact hrelease _ k (Or.inl hk)
  | acceptEvent hs ha =>
    refine forall_work_of (s := s) rfl (fun u _ => hstack u) ?_ hqueued
    intro j hj
    obtain ⟨_, _, rfl⟩ := List.mem_map.mp hj
    exact haccept ha
  | call t c r new hu hc =>
    rw [frame_of_code hc]
    refine forall_work_of (s := s) rfl (fun u _ => hstack u) ?_ hqueued
    intro j hj
    rcases List.mem_append.mp hj with hj | hj
    · exact hcode t c r new rfl hc j hj
    · exact hstack t j hj
  | store t address value hu => exact hall
  | pointers l k n hk hl => exact hall

/-- The same, where the instruction alone tells. -/
theorem Steps.forall_work {P : T → ServerInstr T → Prop} {l : ServerLabel T}
    (h : Steps main s l s') (hall : ∀ u, ∀ i ∈ s.work u, P u i)
    (hrun : ∀ t o head k i c new, head ∈ s.stack t → head.ofConnection = some (k, i) →
      (s.shared k).run (s.connection k).loop_ main t i o = some (c, new) →
      ∀ j ∈ new, P t (j.tag k))
    (hown : ∀ t o i rest r new, s.stack t = i :: rest → s.run main t i o = some (r, new) →
      s' = r.setStack t (new ++ rest) → ∀ j ∈ new, P t j)
    (hwakeup : ∀ t loop, P t (.wakeup loop))
    (hrelease : ∀ t k, (s.Accepted k ∨ ∃ loop f, P t (.queueInLoop loop (.connection k f))) →
      P t (.connection k .release))
    (hqueue : ∀ t loop cb, P t (.queueInLoop loop cb) → P loop (.call cb))
    (hdestroy : ∀ k, s.Accepted k →
      P main (.connection k (.runInLoop (s.connection k).loop_ .connectDestroyed)))
    (hevent : ∀ k cb, s.Accepted k → P (s.connection k).loop_ (.connection k (.handle cb)))
    (haccept : P main .handleRead)
    (hcode : ∀ t c r new, l = .call t c → s.code main t c = some (r, new) → ∀ i ∈ new, P t i) :
    ∀ u, ∀ i ∈ s'.work u, P u i := by
  refine h.forall_work_of hall ?_ hown hwakeup hrelease hqueue hdestroy
    (fun k cb hk _ => hevent k cb hk) (fun _ => haccept) hcode
  intro t o head rest k i c new _ hs hi hr
  exact hrun t o head k i c new (by simp [hs]) hi hr

/-! ## What no step changes -/

/-- The server goes on: names and loops stay, and numbers are not used again. -/
structure Continues (s s' : ServerRun T) : Prop where
  options : s'.options = s.options
  nextConnId : s.nextConnId_ ≤ s'.nextConnId_
  bound : s.nextConnId_ < 2 ^ 31 → s'.nextConnId_ < 2 ^ 31
  loop : ∀ k, s.Accepted k → (s'.connection k).loop_ = (s.connection k).loop_

omit [DecidableEq T] in
theorem Continues.accepted (h : Continues s s') {k : ℕ} (hk : s.Accepted k) : s'.Accepted k :=
  ⟨hk.1, lt_of_lt_of_le hk.2 h.nextConnId⟩

omit [DecidableEq T] in
theorem Continues.connName (h : Continues s s') (k : ℕ) : s'.connName k = s.connName k := by
  rw [ServerRun.connName, h.options]
  rfl

inductive ConnectionSteps (main : T) (s : ServerRun T) (k : ℕ) :
    ServerLabel T → ServedConnection T → Prop
  | same (l : ServerLabel T) : ConnectionSteps main s k l (s.connection k)
  | run (t : T) (o : Outcome) (head : ServerInstr T) (i : Instr T) (rest : List (ServerInstr T))
      (c : Shared T) (new : List (Instr T)) (hs : s.stack t = head :: rest)
      (hi : head.ofConnection = some (k, i))
      (hr : (s.shared k).run (s.connection k).loop_ main t i o = some (c, new)) :
      ConnectionSteps main s k (.exec t o) ((s.setConnection k i c).connection k)
  | swapped (l : ServerLabel T) (destroys : T → Bool) :
      ConnectionSteps main s k l ((s.connection k).swapped destroys)
  | reported (wakeup : Bool) (reports : List (ℕ × Events)) (accept : Option Events)
      (revents : Events) (hmem : (k, revents) ∈ reports) :
      ConnectionSteps main s k (.poll (s.connection k).loop_ wakeup reports accept)
        ((s.connection k).report (some revents))
  | handled (l : ServerLabel T) :
      ConnectionSteps main s k l { s.connection k with active := false }
  | pointers (l : ServerLabel T) (n : ℕ) :
      ConnectionSteps main s k l { s.connection k with pointers := n }

theorem connection_step {l : ServerLabel T} (h : Steps main s l s') {k : ℕ} (hk : s.Accepted k) :
    ConnectionSteps main s k l (s'.connection k) := by
  cases h with
  | run t o head j i rest c new hs hi hr =>
    by_cases hj : k = j
    · subst hj
      exact .run t o head i rest c new hs hi hr
    · simp only [setStack, setConnection, Function.update_of_ne hj]
      exact .same _
  | own t o i rest r new hs hr =>
    rcases run_cases hr with ⟨sockfd, -, hnew⟩ | ⟨-, -, hr⟩
    · obtain ⟨-, -, rfl⟩ := newConnection_eq hnew
      simp only [setStack, Function.update_of_ne hk.2.ne]
      exact .same _
    · rw [hr]
      exact .same _
  | control t c loop hs hreturned hd ha =>
    simp only [afterStep]
    split_ifs
    · exact .swapped _ _
    · exact .same _
  | poll t wakeup reports accept loop hs hr hacc ha =>
    cases hlookup : reports.lookup k with
    | none =>
      simp only [hlookup]
      exact .same _
    | some revents =>
      have hmem : (k, revents) ∈ reports := by
        obtain ⟨before, after, rfl, -⟩ := List.lookup_eq_some_iff.mp hlookup
        simp
      obtain ⟨-, rfl, -⟩ := hr _ hmem
      simp only [hlookup]
      exact .reported wakeup reports accept revents hmem
  | handleEvent j hj hs ha =>
    by_cases hkj : k = j
    · subst hkj
      simp only [Function.update_self]
      exact .handled _
    · simp only [Function.update_of_ne hkj]
      exact .same _
  | pointers l j n hj hl =>
    by_cases hkj : k = j
    · subst hkj
      simp only [setPointers, Function.update_self]
      exact .pointers _ n
    · simp only [setPointers, Function.update_of_ne hkj]
      exact .same _
  | call t c r new hu hc =>
    rw [frame_of_code hc]
    exact .same _
  | _ => exact .same _

theorem newConnection_of_accepted {l : ServerLabel T} (hs : Steps main s l s') {k : ℕ}
    (hk : ¬ s.Accepted k) (hk' : s'.Accepted k) :
    ∃ t rest sockfd r new, s.stack t = .handleRead :: rest ∧ k = s.nextConnId_ ∧
      s.newConnection sockfd = some (r, new) ∧ s' = r.setStack t (new ++ rest) := by
  have hsame : s'.nextConnId_ ≠ s.nextConnId_ := by
    intro heq
    have hlt := hk'.2
    rw [heq] at hlt
    exact hk ⟨hk'.1, hlt⟩
  cases hs with
  | own t o i rest r new hs hr =>
    rcases run_cases hr with ⟨sockfd, rfl, hnew⟩ | ⟨-, -, hr⟩
    · refine ⟨t, rest, sockfd, r, new, hs, ?_, hnew, rfl⟩
      obtain ⟨-, -, rfl⟩ := newConnection_eq hnew
      have hlt : k < s.nextConnId_ + 1 := hk'.2
      have hnot : ¬ k < s.nextConnId_ := fun h => hk ⟨hk'.1, h⟩
      omega
    · rw [hr] at hsame
      exact absurd rfl hsame
  | call t c r new hu hc =>
    rw [frame_of_code hc] at hsame
    exact absurd rfl hsame
  | _ => exact absurd rfl hsame

theorem nextConnId_step {l : ServerLabel T} (h : Steps main s l s') :
    s'.options = s.options ∧ (s'.nextConnId_ = s.nextConnId_ ∨
      s'.nextConnId_ = s.nextConnId_ + 1 ∧ s.nextConnId_ + 1 < 2 ^ 31) := by
  cases h with
  | own t o i rest r new hs hr =>
    rcases run_cases hr with ⟨sockfd, -, hnew⟩ | ⟨-, -, hr⟩
    · obtain ⟨hlt, -, rfl⟩ := newConnection_eq hnew
      exact ⟨rfl, Or.inr ⟨rfl, hlt⟩⟩
    · rw [hr]
      exact ⟨rfl, Or.inl rfl⟩
  | call t c r new hu hc =>
    rw [frame_of_code hc]
    exact ⟨rfl, Or.inl rfl⟩
  | _ => exact ⟨rfl, Or.inl rfl⟩

theorem continues_step {l : ServerLabel T} (h : Steps main s l s') : Continues s s' := by
  obtain ⟨hoptions, hid⟩ := nextConnId_step h
  refine ⟨hoptions, by omega, by omega, ?_⟩
  intro k hk
  have hstep := connection_step h hk
  generalize s'.connection k = c at hstep ⊢
  cases hstep with
  | run t o head i rest c new htop hi hr => simp [setConnection]
  | _ => rfl

/-! ## Numbers -/

/-- Numbers fit in an `int`, and every instruction is of a connection that has
been accepted. -/
structure Numbered (s : ServerRun T) : Prop where
  pos : 0 < s.nextConnId_
  bound : s.nextConnId_ < 2 ^ 31
  owner : ∀ t, ∀ i ∈ s.work t, ∀ k ∈ i.owner, s.Accepted k

omit [DecidableEq T] in
theorem Numbered.connName_injective (h : Numbered s) {j k : ℕ} (hj : j ≤ s.nextConnId_)
    (hk : k ≤ s.nextConnId_) (hname : s.connName j = s.connName k) : j = k :=
  s.options.connName_injective (lt_of_le_of_lt hj h.bound) (lt_of_le_of_lt hk h.bound) hname

omit [DecidableEq T] in
theorem owner_of_ofConnection {head : ServerInstr T} {k : ℕ} {i : Instr T}
    (h : head.ofConnection = some (k, i)) : head.owner = some k := by
  cases head with
  | connection j i =>
    cases h
    rfl
  | call f =>
    cases f with
    | connection j f =>
      cases h
      rfl
    | listen | other => cases h
  | _ => cases h

omit [DecidableEq T] in
theorem owner_tag (k : ℕ) (i : Instr T) : ∀ j ∈ (i.tag k).owner, j = k := by
  intro j hj
  cases i <;> simp_all [Instr.tag, ServerInstr.owner]

theorem owner_of_code {t : T} {c : ServerCall T} {r : ServerRun T} {new : List (ServerInstr T)}
    (hc : s.code main t c = some (r, new)) : ∀ i ∈ new, ∀ k ∈ i.owner, s.Accepted k := by
  intro i hi k hk
  cases codes_of_code hc with
  | connection j c hj hcallbacks =>
    obtain ⟨i', _, rfl⟩ := List.mem_map.mp hi
    exact owner_tag j i' k hk ▸ hj
  | queueInLoop | start =>
    rw [List.mem_singleton.mp hi] at hk
    cases hk
  | destroy ht hlife =>
    simp only [List.mem_cons, List.mem_append, List.mem_flatMap, List.not_mem_nil,
      or_false] at hi
    grind [ServerInstr.owner]

omit [DecidableEq T] in
theorem numbered_init (h : Init main s) : Numbered s := by
  refine ⟨by rw [h.nextConnId]; omega, by rw [h.nextConnId]; omega, ?_⟩
  intro t i hi k hk
  rw [work, h.stack t, List.nil_append] at hi
  obtain ⟨f, hf, rfl⟩ := List.mem_map.mp hi
  rw [h.held t f (EventLoop.mem_held_of_mem_queued hf)] at hk
  cases hk

theorem numbered_step {l : ServerLabel T} (h : Numbered s) (hs : Steps main s l s') :
    Numbered s' := by
  have hcont := continues_step hs
  refine ⟨lt_of_lt_of_le h.pos hcont.nextConnId, hcont.bound h.bound, ?_⟩
  have hmono : ∀ u, ∀ i ∈ s.work u, ∀ k ∈ i.owner, s'.Accepted k :=
    fun u i hi k hk => hcont.accepted (h.owner u i hi k hk)
  apply hs.forall_work (P := fun _ i => ∀ k ∈ i.owner, s'.Accepted k) hmono
  · intro t o head k i c new hmem hi _ j _ k' hk'
    obtain rfl := owner_tag k j k' hk'
    exact hmono t head (List.mem_append_left _ hmem) _ (owner_of_ofConnection hi)
  · intro t o i rest r new _ hr hs' j hj k hk
    rcases run_cases hr with ⟨sockfd, -, hnew⟩ | ⟨hnone, -, -⟩
    · obtain ⟨-, rfl, rfl⟩ := newConnection_eq hnew
      have hown : k = s.nextConnId_ := by
        simp only [List.mem_cons, List.not_mem_nil, or_false] at hj
        rcases hj with rfl | rfl <;> exact (Option.some.inj hk).symm
      rw [hs', hown]
      exact ⟨h.pos, Nat.lt_succ_self _⟩
    · rw [(hnone j hj).1] at hk
      cases hk
  · intro t loop k hk
    cases hk
  · rintro t k (hk | ⟨loop, f, hf⟩) j hj
    · obtain rfl := Option.some.inj hj
      exact hcont.accepted hk
    · exact hf j hj
  · intro t loop cb hcb
    cases cb with
    | connection k f => exact hcb
    | listen | other => exact fun _ hk => nomatch hk
  · intro k hk j hj
    obtain rfl := Option.some.inj hj
    exact hcont.accepted hk
  · intro k cb hk j hj
    obtain rfl := Option.some.inj hj
    exact hcont.accepted hk
  · exact fun _ hk => nomatch hk
  · intro t c r new _ hc i hi k hk
    exact hcont.accepted (owner_of_code hc i hi k hk)

theorem numbered_of_reachable {Good : ServerRun T → ServerLabel T → Prop}
    (h : (system main).Reachable Good s) : Numbered s := by
  refine h.invariant (fun _ => numbered_init) ?_
  intro s l s' hi _ hs
  exact numbered_step hi (steps_of_step hs.2)

/-! ## Runs that can be replayed -/

instance [Fintype T] (s : ServerRun T) (k : ℕ) : Decidable (s.Alive k) :=
  inferInstanceAs (Decidable (_ ∨ _))

instance [Fintype T] (s : ServerRun T) : (l : ServerLabel T) → Decidable (s.Permitted l)
  | .call _ (.connection _ (.queueInLoop _)) => isTrue trivial
  | .call _ (.connection k (.send _ _)) | .call _ (.connection k (.sendFile _ _ _))
  | .call _ (.connection k .shutdown) | .copy _ k => inferInstanceAs (Decidable (s.Alive k))
  | .call _ .start | .call _ .destroy | .exec _ _ | .startLoop _ _ | .destroyNext _
  | .control _ _ | .poll _ _ _ _ | .handleEvent _ | .acceptEvent | .store _ _ _
  | .drop _ _ => isTrue trivial

theorem exists_reachable_of_replay [Fintype T] {Good : ServerRun T → ServerLabel T → Prop}
    [∀ s l, Decidable (Good s l)] (hs : Init main s) {ls : List (ServerLabel T)} {β : Type*}
    (observe : ServerRun T → β) {b : β}
    (h : (TransitionSystem.replay (TransitionSystem.guarded Good
      (TransitionSystem.guarded Permitted (step main))) s ls).map observe = some b) :
    ∃ s', (system main).Reachable Good s' ∧ observe s' = b := by
  refine TransitionSystem.exists_reachable_of_replay ?_ (.init hs) observe h
  intro s l s' hl
  obtain ⟨hgood, hl⟩ := TransitionSystem.guarded_eq_some.mp hl
  exact ⟨hgood, TransitionSystem.guarded_eq_some.mp hl⟩

open ConnectionRun (Party silent)

/-- A server that has been constructed by code of the user on its loop. -/
def newServer (numThreads : ℤ) : ServerRun Party where
  options := ⟨⟨fun _ => 0, 80⟩, [], numThreads, false⟩
  started_ := 0
  nextConnId_ := 1
  connections_ := ∅
  threadPool_ := .create .main numThreads
  acceptChannel_ := (RegisteredChannel.create 3).setCallback .readCallback
  acceptActive := false
  life := .alive
  connection := fun _ => .create .main 0 false
  memory := fun _ => 0
  files := fun _ => []
  loops
    | .main => { EventLoop.create with looping_ := true, phase := .dispatch false }
    | _ => .create
  stack := fun _ => []
  returned := fun _ => false

theorem init_newServer (numThreads : ℤ) : Init Party.main (newServer numThreads) where
  started := rfl
  nextConnId := rfl
  connections := rfl
  threadPool := ⟨numThreads, rfl⟩
  acceptChannel := ⟨3, rfl⟩
  acceptActive := rfl
  life := rfl
  returned := fun _ => rfl
  stack := fun _ => rfl
  held := by
    intro t f hf
    cases t <;> cases hf

def execs (t : Party) (n : ℕ) : List (ServerLabel Party) := List.replicate n (.exec t silent)

def backToPoll (t : Party) : List (ServerLabel Party) :=
  [.control t .endBatch, .control t .release, .control t .test]

/-- From the last handler back to `poll`, without a pending functor. -/
def endOfDispatch (t : Party) : List (ServerLabel Party) :=
  [.control t .endDispatch, .control t .swap] ++ backToPoll t

/-- From `poll` to the first functor that has been queued meanwhile. -/
def wakeToRun (t : Party) : List (ServerLabel Party) :=
  [.control t (.pollReturn true), .control t .handleRead, .control t .endDispatch,
    .control t .swap, .control t .runNext]

/-- `start` with one loop of its own; both loops get to `poll`. -/
def listening : List (ServerLabel Party) :=
  [.call .main .start, .exec .main silent, .startLoop .main .io] ++ execs .main 2 ++
    endOfDispatch .main ++ [.control .io .enter, .control .io .test]

/-- A connection is accepted and handed to the other loop. -/
def accepting (sockfd : ℕ) : List (ServerLabel Party) :=
  [.poll .main false [] (some EPOLLIN), .acceptEvent, .exec .main ⟨.ok sockfd, .other 0⟩] ++
    execs .main 5 ++ endOfDispatch .main

def establishing : List (ServerLabel Party) :=
  wakeToRun .io ++ execs .io 5 ++ [.control .io .endBody] ++ backToPoll .io

/-- The peer of a connection hangs up, down to the end of `handleClose`. -/
def hangingUp (k : ℕ) : List (ServerLabel Party) :=
  [.poll .io false [(k, EPOLLHUP)] none, .handleEvent k] ++ execs .io 12 ++ endOfDispatch .io

def removing : List (ServerLabel Party) :=
  wakeToRun .main ++ execs .main 4 ++ [.control .main .endBody] ++ backToPoll .main

end ServerRun
end MuduoCore
