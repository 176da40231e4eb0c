import MuduoCore.Connection.OutputStream
import MuduoCore.Connection.StateRefinement
import MuduoCore.Storage.ScatterRead

/-!
# The echo server

`example/testserver.cpp`: the message callback takes everything out of
`inputBuffer_` and sends it back. A connection of that server runs like any
other, with the bytes that `readFd` delivers kept beside it; nothing but the
message callback sends on it. What arrives goes through `readv`, the input
buffer, a string, `send`, the direct write, the output buffer and `handleWrite`,
while other threads are at work on their own loops.
-/

namespace MuduoCore

/-! ## The input buffer -/

namespace SafeBuffer

/-- `none` where the kernel would deliver more than the iovecs hold. -/
def readFd (b : SafeBuffer) (data : List Byte) : Option SafeBuffer :=
  match h : b.1.readFd 0 (.ok data) with
  | some r => some ⟨r.1, b.2.of_readFd h⟩
  | none => none

theorem readable_readFd {b c : SafeBuffer} {data : List Byte} (h : b.readFd data = some c) :
    c.readable = b.readable ++ data := by
  unfold readFd at h
  split at h
  · rename_i r hr
    cases h
    have hfit : data.length ≤ b.1.iovecSize := by
      by_contra hlt
      rw [Buffer.readFd, if_pos (not_le.mp hlt)] at hr
      cases hr
    obtain ⟨d, hd, -, hread⟩ := b.2.readFd_ok 0 hfit
    rw [hd] at hr
    cases hr
    exact hread
  · cases h

theorem retrieveAllAsString_isSome (b : SafeBuffer) : b.1.retrieveAllAsString.isSome := by
  rw [Buffer.retrieveAllAsString, b.2.retrieveAsString le_rfl]
  rfl

/-- The string, and the buffer without it. -/
def retrieveAllAsString (b : SafeBuffer) : List Byte × SafeBuffer :=
  (((b.1.retrieveAllAsString).get b.retrieveAllAsString_isSome).1, b.retrieve b.readableBytes)

theorem retrieveAllAsString_eq (b : SafeBuffer) :
    b.retrieveAllAsString = (b.readable, b.retrieve b.readableBytes) := by
  have h : b.1.retrieveAllAsString = some (b.readable, (b.retrieve b.readableBytes).1) := by
    rw [Buffer.retrieveAllAsString, b.2.retrieveAsString le_rfl, ← b.2.length_readable,
      List.take_length]
    exact congrArg _ (congrArg _ (by rw [readableBytes_eq]; rfl))
  simp only [retrieveAllAsString, h, Option.get_some]

theorem readable_retrieveAll (b : SafeBuffer) : (b.retrieve b.readableBytes).readable = [] := by
  rw [readable_retrieve, readableBytes_eq, List.drop_length]

end SafeBuffer

/-! ## Instructions that carry no message -/

/-- The instruction neither leads to `onMessage`, nor comes from there, nor does
it belong to `shutdown`, which the echo server does not call. -/
def Instr.ordinary {T : Type*} : Instr T → Bool
  | messageCallback | send _ | shutdown | setState .kDisconnecting => false
  | runInLoop _ (.sendInLoop _) | queueInLoop _ (.sendInLoop _) | call (.sendInLoop _) => false
  | _ => true

theorem ordinary_queue_followsUp {T : Type*} {loop : T} {f : Functor (Payload T)}
    (h : f.followsUp = true) : (Instr.queueInLoop loop f).ordinary = true := by
  cases f with
  | sendInLoop p => cases h
  | _ => rfl

theorem ordinary_of_follows {T : Type*} {io main t : T} {i j : Instr T}
    (h : Shared.Follows io main t i j) (hi : i.ordinary = true) :
    j.ordinary = true ∨ i = .handle .readCallback := by
  cases h with
  | run_call loop cb | run_queue loop cb => cases cb <;> first | exact .inl rfl | cases hi
  | sent_queue p g hg | sentFile_queue _ _ _ g hg | write_queue g hg =>
    exact .inl (ordinary_queue_followsUp hg)
  | read_close | read_message => exact .inr rfl
  | send_call | send_run | shutdown_store | shutdown_run => cases hi
  | _ => exact .inl rfl

namespace ConnectionRun

variable {T : Type*} [DecidableEq T] {io main : T} {s s' : ConnectionRun T}

theorem not_connecting_of_reachable {Good : ConnectionRun T → RunLabel T → Prop}
    (h : (system io main).Reachable Good s) (hup : s.callbacks ≠ []) :
    s.conn.state_ ≠ .kConnecting := by
  revert hup
  refine h.invariant_of (J := fun s => BeforeUp io s ∨ AfterUp s)
    (fun _ hr => beforeUp_or_afterUp hr)
    (I := fun s => s.callbacks ≠ [] → s.conn.state_ ≠ .kConnecting) ?_ ?_
  · intro s hinit hup
    exact absurd hinit.callbacks hup
  · rintro s l s' hi (hbefore | hafter) _ hstep hup
    · rcases beforeUp_step hbefore hstep.1 (steps_of_step hstep.2) with hb | hj
      · exact absurd hb.callbacks hup
      · simp [hj.state]
    · have hstate := hi hafter.callbacks
      cases steps_of_step hstep.2 with
      | run t o i rest c new hs hr =>
        by_cases hset : ∃ state, i = .setState state
        · obtain ⟨state, rfl⟩ := hset
          have hnot := hafter.established t (.setState state) (by simp [work, hs])
          cases hr
          rintro rfl
          cases hnot
        · have hframe := (Shared.frame_of_run hr).state (fun state hi => hset ⟨state, hi⟩)
          simpa only [hframe] using hstate
      | _ => exact hstate

end ConnectionRun

/-! ## Runs of a connection of the echo server -/

structure EchoRun (T : Type*) where
  run : ConnectionRun T
  inputBuffer_ : SafeBuffer
  /-- everything that `readFd` has delivered -/
  received : List Byte
  /-- `messageCallback_` has been called, and `onMessage` has not sent yet -/
  inMessage : Bool

inductive EchoLabel (T : Type*)
  | run (l : RunLabel T)
  /-- `readFd` delivers these bytes -/
  | read (data : List Byte) (errnoAfterLog : Errno)
  /-- `onMessage`, whose string has its characters at `address` -/
  | onMessage (address : ℕ)

namespace EchoRun

variable {T : Type*} [DecidableEq T]

def base (io : T) (e : EchoRun T) : EchoLabel T → RunLabel T
  | .run l => l
  | .read data errnoAfterLog => .exec io ⟨.ok data.length, errnoAfterLog⟩
  | .onMessage address => .call io (.send address e.inputBuffer_.readableBytes)

/-- What happens besides reading and the message callback. -/
def admits (io : T) (e : EchoRun T) : RunLabel T → Bool
  | .exec t o => !(t = io && e.inMessage) &&
      !((e.run.stack t).head? = some (.handle .readCallback) && o.succeeded)
  | .call t (.queueInLoop _) => !(t = io && e.inMessage)
  | .call _ _ => false
  | .control _ _ | .report _ _ | .handleEvent | .store _ _ _ => true

def callsMessage (io : T) (e : EchoRun T) : RunLabel T → Bool
  | .exec t _ => t = io && (e.run.stack io).head? = some .messageCallback
  | _ => false

def step (io main : T) (e : EchoRun T) : EchoLabel T → Option (EchoRun T)
  | .run l =>
    if e.admits io l then
      (e.run.step io main l).map fun r =>
        { e with run := r, inMessage := e.inMessage || e.callsMessage io l }
    else none
  | .read data errnoAfterLog =>
    if (e.run.stack io).head? = some (.handle .readCallback) then
      (e.inputBuffer_.readFd data).bind fun b =>
        (e.run.step io main (.exec io ⟨.ok data.length, errnoAfterLog⟩)).map fun r =>
          { e with run := r, inputBuffer_ := b, received := e.received ++ data }
    else none
  | .onMessage address =>
    let msg := e.inputBuffer_.retrieveAllAsString
    if e.inMessage = true ∧ readMemory e.run.memory address msg.1.length = msg.1 then
      (e.run.step io main (.call io (.send address e.inputBuffer_.readableBytes))).map fun r =>
        { e with run := r, inputBuffer_ := msg.2, inMessage := false }
    else none

/-- The constructor of `Buffer` makes room for `kInitialSize` bytes. -/
structure Init (io main : T) (e : EchoRun T) : Prop where
  run : ConnectionRun.Init io main e.run
  inputBuffer : e.inputBuffer_ = .create Buffer.kInitialSize
  received : e.received = []
  inMessage : e.inMessage = false

def Admitted (io : T) (e : EchoRun T) (l : EchoLabel T) : Prop := e.run.Permitted (e.base io l)

def system (io main : T) : TransitionSystem (EchoRun T) (EchoLabel T) where
  Init := Init io main
  Step e l e' := e.Admitted io l ∧ e.step io main l = some e'

inductive Steps (io main : T) (e : EchoRun T) : EchoLabel T → EchoRun T → Prop
  | run (l : RunLabel T) (r : ConnectionRun T) (hl : e.admits io l = true)
      (hs : ConnectionRun.Steps io main e.run l r) :
      Steps io main e (.run l)
        { e with run := r, inMessage := e.inMessage || e.callsMessage io l }
  | read (data : List Byte) (errnoAfterLog : Errno) (b : SafeBuffer) (rest : List (Instr T))
      (r : ConnectionRun T) (htop : e.run.stack io = .handle .readCallback :: rest)
      (hb : b.readable = e.inputBuffer_.readable ++ data)
      (hs : ConnectionRun.Steps io main e.run
        (.exec io ⟨.ok data.length, errnoAfterLog⟩) r) :
      Steps io main e (.read data errnoAfterLog)
        { e with run := r, inputBuffer_ := b, received := e.received ++ data }
  | onMessage (address : ℕ) (hin : e.inMessage = true)
      (hmsg : readMemory e.run.memory address e.inputBuffer_.readableBytes =
        e.inputBuffer_.readable)
      (hu : e.run.UserRuns io) :
      Steps io main e (.onMessage address)
        { e with
          run := e.run.setStack io (.send ⟨io, address, e.inputBuffer_.readableBytes,
            e.inputBuffer_.readable⟩ :: .release :: e.run.stack io)
          inputBuffer_ := e.inputBuffer_.retrieve e.inputBuffer_.readableBytes
          inMessage := false }

variable {io main : T} {e e' : EchoRun T}

theorem steps_of_step {l : EchoLabel T} (h : e.step io main l = some e') :
    Steps io main e l e' ∧ e.run.step io main (e.base io l) = some e'.run := by
  cases l with
  | run l =>
    simp only [step] at h
    split_ifs at h with hl
    obtain ⟨r, hr, rfl⟩ := Option.map_eq_some_iff.mp h
    exact ⟨.run l r hl (ConnectionRun.steps_of_step hr), hr⟩
  | read data errnoAfterLog =>
    simp only [step] at h
    split_ifs at h with htop
    obtain ⟨b, hb, h⟩ := Option.bind_eq_some_iff.mp h
    obtain ⟨r, hr, rfl⟩ := Option.map_eq_some_iff.mp h
    obtain ⟨rest, htop⟩ := List.head?_eq_some_iff.mp htop
    exact ⟨.read data errnoAfterLog b rest r htop (SafeBuffer.readable_readFd hb)
      (ConnectionRun.steps_of_step hr), hr⟩
  | onMessage address =>
    simp only [step, SafeBuffer.retrieveAllAsString_eq, ← SafeBuffer.readableBytes_eq] at h
    split_ifs at h with hmsg
    obtain ⟨r, hr, rfl⟩ := Option.map_eq_some_iff.mp h
    refine ⟨?_, hr⟩
    simp only [ConnectionRun.step] at hr
    split_ifs at hr with hu
    cases hr
    have hsteps : Steps io main e (.onMessage address) _ := .onMessage address hmsg.1 hmsg.2 hu
    simpa only [ConnectionRun.code, hmsg.2, List.cons_append, List.nil_append] using hsteps

/-! ## Where a message is -/

/-- The way of a message through the thread of the loop: `is` is what the thread
has still to run, `readable` what waits in `inputBuffer_`, and `pending` what
has been received and not been executed. -/
inductive Phase : List (Instr T) → Bool → List Byte → List Byte → StateE → Prop
  | quiet (is : List (Instr T)) (state : StateE) (hall : ∀ i ∈ is, i.ordinary = true) :
      Phase is false [] [] state
  | messageCallback (rest : List (Instr T)) (readable : List Byte) (state : StateE)
      (hrest : ∀ i ∈ rest, i.ordinary = true) :
      Phase (.messageCallback :: rest) false readable readable state
  | onMessage (rest : List (Instr T)) (readable : List Byte) (state : StateE)
      (hrest : ∀ i ∈ rest, i.ordinary = true) (hup : state ≠ .kConnecting) :
      Phase (.user :: rest) true readable readable state
  | send (p : Payload T) (rest : List (Instr T)) (state : StateE)
      (hrest : ∀ i ∈ rest, i.ordinary = true) (hup : state ≠ .kConnecting) :
      Phase (.send p :: rest) false [] p.bytes state
  | call (p : Payload T) (rest : List (Instr T)) (hrest : ∀ i ∈ rest, i.ordinary = true) :
      Phase (.call (.sendInLoop p) :: rest) false [] p.bytes .kConnected

variable {i : Instr T} {is : List (Instr T)} {b : Bool} {readable pending : List Byte}
  {state : StateE}

omit [DecidableEq T] in
theorem Phase.quiet_of_head (h : Phase (i :: is) b readable pending state)
    (hmessage : i ≠ .messageCallback) (huser : i = .user → b = false) (hsend : ∀ p, i ≠ .send p)
    (hcall : ∀ p, i ≠ .call (.sendInLoop p)) :
    b = false ∧ readable = [] ∧ pending = [] ∧ ∀ j ∈ i :: is, j.ordinary = true := by
  cases h with
  | quiet _ _ hall => exact ⟨rfl, rfl, rfl, hall⟩
  | messageCallback => exact absurd rfl hmessage
  | onMessage => cases huser rfl
  | send p => exact absurd rfl (hsend p)
  | call p => exact absurd rfl (hcall p)

omit [DecidableEq T] in
/-- What comes in behind is not in the way. -/
theorem Phase.append (h : Phase is b readable pending state) {more : List (Instr T)}
    (hmore : ∀ j ∈ more, j.ordinary = true) : Phase (is ++ more) b readable pending state := by
  have happend : ∀ {rest : List (Instr T)}, (∀ j ∈ rest, j.ordinary = true) →
      ∀ j ∈ rest ++ more, j.ordinary = true := by
    intro rest hrest j hj
    exact (List.mem_append.mp hj).elim (hrest j) (hmore j)
  cases h with
  | quiet _ _ hall => exact .quiet _ _ (happend hall)
  | messageCallback _ _ _ hrest => exact .messageCallback _ _ _ (happend hrest)
  | onMessage _ _ _ hrest hup => exact .onMessage _ _ _ (happend hrest) hup
  | send p _ _ hrest hup => exact .send p _ _ (happend hrest) hup
  | call p _ hrest => exact .call p _ (happend hrest)

omit [DecidableEq T] in
theorem Phase.of_messageCallback (h : Phase (.messageCallback :: is) b readable pending state) :
    readable = pending ∧ ∀ j ∈ is, j.ordinary = true := by
  cases h with
  | quiet _ _ hall => cases hall _ List.mem_cons_self
  | messageCallback _ _ _ hrest => exact ⟨rfl, hrest⟩

omit [DecidableEq T] in
theorem Phase.of_inMessage (h : Phase is true readable pending state) :
    readable = pending ∧ state ≠ .kConnecting ∧
      ∃ rest, is = .user :: rest ∧ ∀ j ∈ rest, j.ordinary = true := by
  cases h with
  | onMessage rest _ _ hrest hup => exact ⟨rfl, hup, rest, rfl, hrest⟩

omit [DecidableEq T] in
theorem Phase.of_send {p : Payload T} (h : Phase (.send p :: is) b readable pending state) :
    b = false ∧ readable = [] ∧ pending = p.bytes ∧ state ≠ .kConnecting ∧
      ∀ j ∈ is, j.ordinary = true := by
  cases h with
  | quiet _ _ hall => cases hall _ List.mem_cons_self
  | send _ _ _ hrest hup => exact ⟨rfl, rfl, rfl, hup, hrest⟩

omit [DecidableEq T] in
theorem Phase.of_call {p : Payload T}
    (h : Phase (.call (.sendInLoop p) :: is) b readable pending state) :
    b = false ∧ readable = [] ∧ pending = p.bytes ∧ state = .kConnected ∧
      ∀ j ∈ is, j.ordinary = true := by
  cases h with
  | quiet _ _ hall => cases hall _ List.mem_cons_self
  | call _ _ hrest => exact ⟨rfl, rfl, rfl, rfl, hrest⟩

omit [DecidableEq T] in
theorem Phase.quiet_of_calls {fs : List (Functor (Payload T))}
    (h : Phase (ConnectionRun.calls fs) b readable pending state)
    (hfs : ∀ f ∈ fs, (Instr.call f).ordinary = true) :
    b = false ∧ readable = [] ∧ pending = [] := by
  generalize his : ConnectionRun.calls fs = is at h
  cases h with
  | quiet => exact ⟨rfl, rfl, rfl⟩
  | call p rest =>
    have hmem : Instr.call (.sendInLoop p) ∈ ConnectionRun.calls fs := by simp [his]
    obtain ⟨f, hf, heq⟩ := List.mem_map.mp hmem
    cases heq
    cases hfs _ hf
  | messageCallback | onMessage | send =>
    cases fs with
    | nil => cases his
    | cons f fs => cases his

/-- The bytes of the messages that have been sent, whether they were dropped or not. -/
def executed (e : EchoRun T) : List Byte := e.run.executed.flatMap fun x => x.payload.bytes

/-- Everything received has been sent in order, up to what is on its way; once
the connection is marked `kDisconnected`, the rest is given up. -/
structure Echoes (io : T) (e : EchoRun T) (pending : List Byte) : Prop where
  phase : Phase (e.run.work io) e.inMessage e.inputBuffer_.readable pending e.run.conn.state_
  others : ∀ t ≠ io, ∀ i ∈ e.run.work t, i.ordinary = true
  queued : ∀ t, ∀ f ∈ (e.run.loops t).queued, (Instr.call f).ordinary = true
  undecided : e.run.conn.state_ ≠ .kDisconnecting
  sent : e.run.conn.state_ ≠ .kDisconnected → e.received = e.executed ++ pending
  ended : e.executed <+: e.received

variable {r : ConnectionRun T}

/-- No message is on its way. -/
structure Quiet (io : T) (e : EchoRun T) (pending : List Byte) : Prop where
  inMessage : e.inMessage = false
  inputBuffer : e.inputBuffer_.readable = []
  pending : pending = []
  work : ∀ j ∈ e.run.work io, j.ordinary = true

omit [DecidableEq T] in
theorem Echoes.of_same (h : Echoes io e pending) (more : List (Instr T))
    (hmore : ∀ j ∈ more, j.ordinary = true) (hwork : r.work io = e.run.work io ++ more)
    (hothers : ∀ t ≠ io, ∀ j ∈ r.work t, j.ordinary = true)
    (hqueued : ∀ t, ∀ f ∈ (r.loops t).queued, (Instr.call f).ordinary = true)
    (hstate : r.conn.state_ = e.run.conn.state_) (hexecuted : r.executed = e.run.executed) :
    Echoes io { e with run := r } pending := by
  refine ⟨?_, hothers, hqueued, ?_, ?_, ?_⟩
  · simp only [hwork, hstate]
    exact h.phase.append hmore
  · simpa only [hstate] using h.undecided
  · simpa only [hstate, executed, hexecuted] using h.sent
  · simpa only [executed, hexecuted] using h.ended

omit [DecidableEq T] in
theorem Echoes.of_quiet (h : Echoes io e pending) (hquiet : Quiet io e pending)
    (hall : ∀ t, ∀ j ∈ r.work t, j.ordinary = true)
    (hqueued : ∀ t, ∀ f ∈ (r.loops t).queued, (Instr.call f).ordinary = true)
    (hundecided : r.conn.state_ ≠ .kDisconnecting)
    (hstate : r.conn.state_ ≠ .kDisconnected → e.run.conn.state_ ≠ .kDisconnected)
    (hexecuted : r.executed = e.run.executed) : Echoes io { e with run := r } pending := by
  obtain ⟨hin, hread, rfl, -⟩ := hquiet
  refine ⟨?_, fun t _ => hall t, hqueued, hundecided, ?_, ?_⟩
  · simp only [hin, hread]
    exact .quiet _ _ (hall io)
  · intro hs
    simpa only [executed, hexecuted] using h.sent (hstate hs)
  · simpa only [executed, hexecuted] using h.ended

omit [DecidableEq T] in
theorem Echoes.replaces (h : Echoes io e pending) {t : T} {old new : List (Instr T)}
    (hr : ConnectionRun.Replaces e.run r t old new) (hquiet : t = io → Quiet io e pending)
    (hnew : (∀ j ∈ old, j.ordinary = true) → ∀ j ∈ new, j.ordinary = true)
    (hqueued : ∀ u, ∀ f ∈ (r.loops u).queued, (Instr.call f).ordinary = true)
    (hundecided : r.conn.state_ ≠ .kDisconnecting)
    (hother : t ≠ io → r.conn.state_ = e.run.conn.state_)
    (hstate : r.conn.state_ ≠ .kDisconnected → e.run.conn.state_ ≠ .kDisconnected)
    (hexecuted : r.executed = e.run.executed) : Echoes io { e with run := r } pending := by
  by_cases ht : t = io
  · apply h.of_quiet (hquiet ht) _ hqueued hundecided hstate hexecuted
    refine hr.forall_mem (P := fun _ j => j.ordinary = true) ?_ hnew
    intro u j hj
    by_cases hu : u = io
    · exact (hquiet ht).work j (hu ▸ hj)
    · exact h.others u hu j hj
  · obtain ⟨w, hold, hwork, hsame⟩ := hr
    refine h.of_same [] (by simp) ?_ ?_ hqueued (hother ht) hexecuted
    · rw [hsame io (Ne.symm ht), List.append_nil]
    · intro u hu j hj
      by_cases hut : u = t
      · subst hut
        rw [hwork] at hj
        rcases List.mem_append.mp hj with hj | hj
        · refine hnew ?_ j hj
          intro k hk
          exact h.others u hu k (by rw [hold]; exact List.mem_append_left _ hk)
        · exact h.others u hu j (by rw [hold]; exact List.mem_append_right _ hj)
      · rw [hsame u hut] at hj
        exact h.others u hu j hj

theorem queued_of_step {s s' : ConnectionRun T} {l : RunLabel T}
    (hs : ConnectionRun.Steps io main s l s') {u : T} {f : Functor (Payload T)}
    (hf : f ∈ (s'.loops u).queued) :
    f ∈ (s.loops u).queued ∨ ∃ t rest, s.stack t = .queueInLoop u f :: rest := by
  have hupdate : ∀ {loop : T} {d : EventLoop (Functor (Payload T))},
      (∀ g ∈ d.queued, g ∈ (s.loops loop).queued) →
      f ∈ (Function.update s.loops loop d u).queued → f ∈ (s.loops u).queued := by
    intro loop d hd hf
    by_cases hu : u = loop
    · subst hu
      rw [Function.update_self] at hf
      exact hd f hf
    · rwa [Function.update_of_ne hu] at hf
  cases hs with
  | queue t o loop cb rest hs =>
    by_cases hu : u = loop
    · subst hu
      simp only [ConnectionRun.setStack_loops, ConnectionRun.setLoop_loops, Function.update_self,
        EventLoop.queued_push, List.mem_append, List.mem_singleton] at hf
      rcases hf with hf | rfl
      · exact .inl hf
      · exact .inr ⟨t, rest, hs⟩
    · simp only [ConnectionRun.setStack_loops, ConnectionRun.setLoop_loops,
        Function.update_of_ne hu] at hf
      exact .inl hf
  | wakeup t o loop rest hs =>
    refine .inl (hupdate ?_ hf)
    simp [EventLoop.queued]
  | control t c loop hs hact ha => exact .inl (hupdate (fun g hg => ha.mem_queued hg) hf)
  | report wakeup revents mask loop hs hm hr ha =>
    exact .inl (hupdate (fun g hg => ha.mem_queued hg) hf)
  | _ => exact .inl hf

omit [DecidableEq T] in
theorem Echoes.quiet_of_head (h : Echoes io e pending) {rest : List (Instr T)}
    (hs : e.run.stack io = i :: rest) (hmessage : i ≠ .messageCallback)
    (huser : i = .user → e.inMessage = false) (hsend : ∀ p, i ≠ .send p)
    (hcall : ∀ p, i ≠ .call (.sendInLoop p)) : Quiet io e pending := by
  have hphase := h.phase
  have hwork : e.run.work io = i :: (rest ++ ConnectionRun.calls (e.run.loops io).queued) := by
    rw [ConnectionRun.work, hs, List.cons_append]
  rw [hwork] at hphase
  obtain ⟨hin, hread, hpending, hall⟩ := hphase.quiet_of_head hmessage huser hsend hcall
  exact ⟨hin, hread, hpending, hwork ▸ hall⟩

omit [DecidableEq T] in
theorem Echoes.quiet_of_idle (h : Echoes io e pending) (hs : e.run.stack io = []) :
    Quiet io e pending := by
  have hphase := h.phase
  have hwork : e.run.work io = ConnectionRun.calls (e.run.loops io).queued := by
    rw [ConnectionRun.work, hs, List.nil_append]
  rw [hwork] at hphase
  obtain ⟨hin, hread, hpending⟩ := hphase.quiet_of_calls (h.queued io)
  refine ⟨hin, hread, hpending, ?_⟩
  intro j hj
  rw [hwork] at hj
  obtain ⟨f, hf, rfl⟩ := List.mem_map.mp hj
  exact h.queued io f hf

theorem Echoes.queued_step (h : Echoes io e pending) {l : RunLabel T}
    (hs : ConnectionRun.Steps io main e.run l r) :
    ∀ t, ∀ f ∈ (r.loops t).queued, (Instr.call f).ordinary = true := by
  intro u f hf
  rcases queued_of_step hs hf with hold | ⟨t, rest, htop⟩
  · exact h.queued u f hold
  · have hordinary : (Instr.queueInLoop u f).ordinary = true := by
      by_cases ht : t = io
      · subst ht
        have hquiet := h.quiet_of_head htop (by simp) (by simp) (by simp) (by simp)
        exact hquiet.work _ (by simp [ConnectionRun.work, htop])
      · exact h.others t ht _ (by simp [ConnectionRun.work, htop])
    cases f with
    | sendInLoop p => cases hordinary
    | _ => rfl

theorem executed_of_ordinary {t : T} {o : Outcome} {s c : Shared T} {new : List (Instr T)}
    (hr : s.run io main t i o = some (c, new)) (hi : i.ordinary = true) :
    c.executed = s.executed := by
  apply (Shared.frame_of_run hr).executed
  rintro p rfl
  cases hi

theorem undecided_of_ordinary {t : T} {o : Outcome} {s c : Shared T} {new : List (Instr T)}
    (hr : s.run io main t i o = some (c, new)) (hi : i.ordinary = true)
    (hs : s.conn.state_ ≠ .kDisconnecting) : c.conn.state_ ≠ .kDisconnecting := by
  by_cases hset : ∃ state, i = .setState state
  · obtain ⟨state, rfl⟩ := hset
    cases hr
    rintro rfl
    cases hi
  · rw [(Shared.frame_of_run hr).state (fun state hi => hset ⟨state, hi⟩)]
    exact hs

theorem Echoes.ordinary_run (h : Echoes io e pending)
    (hplaced : ConnectionRun.Placed io main e.run) {t : T} {o : Outcome}
    {rest new : List (Instr T)} {c : Shared T} (hs : e.run.stack t = i :: rest)
    (hr : e.run.toShared.run io main t i o = some (c, new))
    (hquiet : t = io → Quiet io e pending)
    (hread : i = .handle .readCallback → ∀ j ∈ new, j.ordinary = true)
    (hstate : c.conn.state_ ≠ .kDisconnected → e.run.conn.state_ ≠ .kDisconnected) :
    Echoes io { e with run := { e.run with
      toShared := c, stack := Function.update e.run.stack t (new ++ rest) } } pending := by
  have hmem : i ∈ e.run.work t := by simp [ConnectionRun.work, hs]
  have hi : i.ordinary = true := by
    by_cases ht : t = io
    · exact (hquiet ht).work i (ht ▸ hmem)
    · exact h.others t ht i hmem
  apply h.replaces (ConnectionRun.replaces_run hs) hquiet
  · intro _ j hj
    rcases ordinary_of_follows (Shared.follows_of_run hr hj) hi with hord | hhead
    · exact hord
    · exact hread hhead j hj
  · exact h.queued_step (ConnectionRun.Steps.run t o i rest c new hs hr)
  · exact undecided_of_ordinary hr hi h.undecided
  · intro ht
    apply (Shared.frame_of_run hr).state
    rintro state rfl
    rcases hplaced t _ hmem with rfl | hio
    · cases hi
    · exact ht hio
  · exact hstate
  · exact executed_of_ordinary hr hi

theorem Echoes.others_run (h : Echoes io e pending) (c : Shared T) (new : List (Instr T))
    {rest : List (Instr T)} (hs : e.run.stack io = i :: rest) :
    ∀ t ≠ io, ∀ j ∈ ConnectionRun.work { e.run with
      toShared := c, stack := Function.update e.run.stack io (new ++ rest) } t,
      j.ordinary = true := by
  obtain ⟨w, hold, hnew, hother⟩ : ConnectionRun.Replaces e.run _ io [i] new :=
    ConnectionRun.replaces_run (c := c) hs
  intro t ht j hj
  rw [hother t ht] at hj
  exact h.others t ht j hj

theorem Echoes.message_run (h : Echoes io e pending) {o : Outcome} {rest new : List (Instr T)}
    {c : Shared T} (hs : e.run.stack io = .messageCallback :: rest)
    (hr : e.run.toShared.run io main io .messageCallback o = some (c, new))
    (hup : c.conn.state_ ≠ .kConnecting) :
    Echoes io { e with
      run := { e.run with
        toShared := c, stack := Function.update e.run.stack io (new ++ rest) }
      inMessage := true } pending := by
  have hqueued := h.queued_step (ConnectionRun.Steps.run io o _ rest c new hs hr)
  have hothers := h.others_run c new hs
  have hphase := h.phase
  rw [ConnectionRun.work, hs, List.cons_append] at hphase
  obtain ⟨hread, htail⟩ := hphase.of_messageCallback
  cases hr
  refine ⟨?_, hothers, hqueued, h.undecided, h.sent, h.ended⟩
  simp only [ConnectionRun.work, Function.update_self, List.cons_append, List.nil_append, hread]
  exact .onMessage _ pending _ htail hup

/-- `send` hands the message on, unless the connection is down. -/
theorem Echoes.send_run (h : Echoes io e pending) {o : Outcome} {p : Payload T}
    {rest new : List (Instr T)} {c : Shared T} (hs : e.run.stack io = .send p :: rest)
    (hr : e.run.toShared.run io main io (.send p) o = some (c, new)) :
    ∃ pending', Echoes io { e with run := { e.run with
      toShared := c, stack := Function.update e.run.stack io (new ++ rest) } } pending' := by
  have hqueued := h.queued_step (ConnectionRun.Steps.run io o _ rest c new hs hr)
  have hothers := h.others_run c new hs
  have hphase := h.phase
  rw [ConnectionRun.work, hs, List.cons_append] at hphase
  obtain ⟨hin, hread, rfl, hup, htail⟩ := hphase.of_send
  simp only [Shared.run, if_pos, Option.some.injEq] at hr
  by_cases hconnected : e.run.conn.connected = true
  · rw [if_pos hconnected] at hr
    cases hr
    have hstate : e.run.conn.state_ = .kConnected := by
      simpa [TcpConnection.connected] using hconnected
    refine ⟨p.bytes, ?_, hothers, hqueued, h.undecided, h.sent, h.ended⟩
    simp only [ConnectionRun.work, Function.update_self, List.cons_append, List.nil_append, hin,
      hread, hstate]
    exact .call p _ htail
  · rw [if_neg hconnected] at hr
    cases hr
    have hdown : e.run.conn.state_ = .kDisconnected := by
      have hundecided := h.undecided
      simp only [TcpConnection.connected, decide_eq_true_eq] at hconnected
      cases hstate : e.run.conn.state_ <;> simp_all
    refine ⟨[], ?_, hothers, hqueued, h.undecided, fun hne => absurd hdown hne, h.ended⟩
    simp only [ConnectionRun.work, Function.update_self, List.nil_append, hin, hread]
    exact .quiet _ _ htail

theorem Echoes.call_run (h : Echoes io e pending) {o : Outcome} {p : Payload T}
    {rest new : List (Instr T)} {c : Shared T} (hs : e.run.stack io = .call (.sendInLoop p) :: rest)
    (hr : e.run.toShared.run io main io (.call (.sendInLoop p)) o = some (c, new)) :
    Echoes io { e with run := { e.run with
      toShared := c, stack := Function.update e.run.stack io (new ++ rest) } } [] := by
  have hqueued := h.queued_step (ConnectionRun.Steps.run io o _ rest c new hs hr)
  have hothers := h.others_run c new hs
  have hphase := h.phase
  rw [ConnectionRun.work, hs, List.cons_append] at hphase
  obtain ⟨hin, hread, rfl, hstate, htail⟩ := hphase.of_call
  have hsame : c.conn.state_ = .kConnected :=
    ((Shared.frame_of_run hr).state (by simp)).trans hstate
  have hall : e.received = e.executed ++ p.bytes := h.sent (by simp [hstate])
  obtain ⟨-, hc, rfl⟩ := Shared.run_sendInLoop hr
  have hsent : e.received = c.executed.flatMap fun x => x.payload.bytes := by
    rw [hall, hc]
    simp [executed]
  refine ⟨?_, hothers, hqueued, ?_, fun _ => ?_, ?_⟩
  · simp only [ConnectionRun.work, Function.update_self, hin, hread]
    apply Phase.quiet
    intro j hj
    rw [List.append_assoc] at hj
    rcases List.mem_append.mp hj with hj | hj
    · obtain ⟨g, hg, rfl⟩ := Shared.exists_of_mem_enqueue hj
      exact ordinary_queue_followsUp (TcpConnection.followsUp_of_mem_sendInLoop hg)
    · exact htail j hj
  · simp [hsame]
  · rw [List.append_nil]
    exact hsent
  · exact hsent ▸ List.prefix_rfl

/-! ## Every step -/

/-- An instruction that the thread of the loop runs: what it does depends on
where the message is. -/
theorem Echoes.io_run (h : Echoes io e pending) (hplaced : ConnectionRun.Placed io main e.run)
    {o : Outcome} {rest new : List (Instr T)} {c : Shared T} (hs : e.run.stack io = i :: rest)
    (hr : e.run.toShared.run io main io i o = some (c, new)) (hin : e.inMessage = false)
    (hread : i = .handle .readCallback → o.succeeded = false)
    (hup : c.callbacks ≠ [] → c.conn.state_ ≠ .kConnecting)
    (hstate : c.conn.state_ ≠ .kDisconnected → e.run.conn.state_ ≠ .kDisconnected) :
    ∃ pending', Echoes io { e with
      run := { e.run with
        toShared := c, stack := Function.update e.run.stack io (new ++ rest) }
      inMessage := i = .messageCallback } pending' := by
  by_cases hmessage : i = .messageCallback
  · subst hmessage
    have hcallbacks : c.callbacks ≠ [] := by
      cases hr
      simp
    exact ⟨pending, by simpa using h.message_run hs hr (hup hcallbacks)⟩
  · simp only [hmessage, decide_false, ← hin]
    by_cases hsend : ∃ p, i = .send p
    · obtain ⟨p, rfl⟩ := hsend
      exact h.send_run hs hr
    · by_cases hcall : ∃ p, i = .call (.sendInLoop p)
      · obtain ⟨p, rfl⟩ := hcall
        exact ⟨[], h.call_run hs hr⟩
      · refine ⟨pending, h.ordinary_run hplaced hs hr (fun _ => ?_) ?_ hstate⟩
        · exact h.quiet_of_head hs hmessage (fun _ => hin) (fun p hp => hsend ⟨p, hp⟩)
            (fun p hp => hcall ⟨p, hp⟩)
        · rintro rfl j hj
          cases hr
          rw [hread rfl] at hj
          cases hj

theorem Echoes.queue_step (h : Echoes io e pending) {t loop : T} {cb : Functor (Payload T)}
    {rest : List (Instr T)} (htop : e.run.stack t = .queueInLoop loop cb :: rest)
    (hq : ConnectionRun.Queues e.run r t loop cb)
    (hqueued : ∀ u, ∀ f ∈ (r.loops u).queued, (Instr.call f).ordinary = true)
    (hshared : r.toShared = e.run.toShared) : Echoes io { e with run := r } pending := by
  have hcall : (Instr.queueInLoop loop cb).ordinary = true →
      (Instr.call cb : Instr T).ordinary = true := by
    cases cb <;> exact id
  by_cases ht : t = io
  · subst ht
    have hquiet := h.quiet_of_head htop (by simp) (by simp) (by simp) (by simp)
    refine h.of_quiet hquiet ?_ hqueued (hshared ▸ h.undecided) (hshared ▸ id) (by rw [hshared])
    refine hq.forall_mem (P := fun _ j => j.ordinary = true) ?_ rfl rfl hcall
    intro u j hj
    by_cases hu : u = t
    · exact hquiet.work j (hu ▸ hj)
    · exact h.others u hu j hj
  · have hmem : Instr.queueInLoop loop cb ∈ e.run.work t := by simp [ConnectionRun.work, htop]
    have hcb := hcall (h.others t ht _ hmem)
    obtain ⟨w, hold, hwork⟩ := hq
    refine h.of_same (if io = loop then [.call cb] else []) ?_ ?_ ?_ hqueued (by rw [hshared])
      (by rw [hshared])
    · intro j hj
      split_ifs at hj
      · rwa [List.mem_singleton.mp hj]
      · cases hj
    · rw [hwork io, if_neg (Ne.symm ht)]
    · intro u hu j hj
      rw [hwork u, List.mem_append] at hj
      rcases hj with hj | hj
      · by_cases hut : u = t
        · subst hut
          rw [if_pos rfl] at hj
          simp only [List.cons_append, List.mem_cons, List.mem_append, Functor.destructor] at hj
          rcases hj with rfl | hj | hj
          · rfl
          · split_ifs at hj
            · rw [List.mem_singleton.mp hj]
              rfl
            · cases hj
          · exact h.others u hu j (by simp [hold, hj])
        · rw [if_neg hut] at hj
          exact h.others u hu j hj
      · split_ifs at hj
        · rwa [List.mem_singleton.mp hj]
        · cases hj

theorem Echoes.run_step (h : Echoes io e pending) (hplaced : ConnectionRun.Placed io main e.run)
    {l : RunLabel T} (hl : e.admits io l = true) (hs : ConnectionRun.Steps io main e.run l r)
    (hup : r.callbacks ≠ [] → r.conn.state_ ≠ .kConnecting)
    (hstate : r.conn.state_ ≠ .kDisconnected → e.run.conn.state_ ≠ .kDisconnected) :
    ∃ pending', Echoes io { e with
      run := r, inMessage := e.inMessage || e.callsMessage io l } pending' := by
  have hqueued := h.queued_step hs
  cases hs with
  | run t o i rest c new htop hr =>
    simp only [admits, htop, List.head?_cons, Option.some.injEq, Bool.and_eq_true,
      Bool.not_eq_true', Bool.and_eq_false_iff, decide_eq_false_iff_not] at hl
    by_cases ht : t = io
    · subst ht
      have hin : e.inMessage = false := hl.1.resolve_left (fun hne => hne rfl)
      have hread : i = .handle .readCallback → o.succeeded = false :=
        fun hi => hl.2.resolve_left (fun hne => hne hi)
      obtain ⟨pending', hnext⟩ := h.io_run hplaced htop hr hin hread hup hstate
      exact ⟨pending', by simpa [callsMessage, hin, htop] using hnext⟩
    · refine ⟨pending, ?_⟩
      simp only [callsMessage, ht, decide_false, Bool.false_and, Bool.or_false]
      refine h.ordinary_run hplaced htop hr (fun hio => absurd hio ht) ?_ hstate
      rintro rfl
      have hio : t = io := hplaced t (.handle .readCallback) (by simp [ConnectionRun.work, htop])
      exact absurd hio ht
  | queue t o loop cb rest htop =>
    refine ⟨pending, ?_⟩
    have hcalls : e.callsMessage io (.exec t o) = false := by
      by_cases ht : t = io
      · simp [callsMessage, ← ht, htop]
      · simp [callsMessage, ht]
    simp only [hcalls, Bool.or_false]
    exact h.queue_step htop (ConnectionRun.queues_queue htop) hqueued rfl
  | wakeup t o loop rest htop =>
    refine ⟨pending, ?_⟩
    have hcalls : e.callsMessage io (.exec t o) = false := by
      by_cases ht : t = io
      · simp [callsMessage, ← ht, htop]
      · simp [callsMessage, ht]
    simp only [hcalls, Bool.or_false]
    refine h.replaces (ConnectionRun.replaces_wakeup htop) ?_ (by simp) hqueued h.undecided
      (fun _ => rfl) hstate rfl
    rintro rfl
    exact h.quiet_of_head htop (by simp) (by simp) (by simp) (by simp)
  | control t c loop hstack hact ha =>
    refine ⟨pending, ?_⟩
    simp only [callsMessage, Bool.or_false]
    refine h.of_same [] (by simp) ?_ ?_ hqueued rfl rfl
    · rw [ConnectionRun.work_control hstack ha, List.append_nil]
    · intro u hu j hj
      rw [ConnectionRun.work_control hstack ha] at hj
      exact h.others u hu j hj
  | report wakeup revents mask loop hstack hm hr ha =>
    refine ⟨pending, ?_⟩
    simp only [callsMessage, Bool.or_false]
    refine h.of_same [] (by simp) ?_ ?_ hqueued rfl rfl
    · rw [ConnectionRun.work_report ha, List.append_nil]
    · intro u hu j hj
      rw [ConnectionRun.work_report ha] at hj
      exact h.others u hu j hj
  | handleEvent hstack hact =>
    refine ⟨pending, ?_⟩
    simp only [callsMessage, Bool.or_false]
    refine h.replaces (ConnectionRun.replaces_handleEvent hstack)
      (fun _ => h.quiet_of_idle hstack) ?_ hqueued h.undecided (fun _ => rfl) hstate rfl
    intro _ j hj
    rcases List.mem_append.mp hj with hj | hj
    · obtain ⟨cb, _, rfl⟩ := List.mem_map.mp hj
      rfl
    · rw [List.mem_singleton.mp hj]
      rfl
  | call t c hu =>
    cases c with
    | queueInLoop loop =>
      refine ⟨pending, ?_⟩
      simp only [callsMessage, Bool.or_false]
      refine h.replaces (ConnectionRun.replaces_push e.run t [.queueInLoop loop .other]
        e.run.active) ?_ ?_ hqueued h.undecided (fun _ => rfl) hstate rfl
      · rintro rfl
        have hin : e.inMessage = false := by simpa [admits] using hl
        rcases hu with ⟨hstack, -⟩ | hhead
        · exact h.quiet_of_idle hstack
        · obtain ⟨rest, hstack⟩ := List.head?_eq_some_iff.mp hhead
          exact h.quiet_of_head hstack (by simp) (fun _ => hin) (by simp) (by simp)
      · intro _ j hj
        rw [List.mem_singleton.mp hj]
        rfl
    | send | sendFile | shutdown => cases hl
  | store t address value hu =>
    refine ⟨pending, ?_⟩
    simp only [callsMessage, Bool.or_false]
    exact h.of_same [] (by simp) (List.append_nil _).symm h.others hqueued rfl rfl

/-- `readFd` delivers: what it delivers is on its way, and nothing else was. -/
theorem Echoes.read_step (h : Echoes io e pending) {data : List Byte} {errnoAfterLog : Errno}
    {b : SafeBuffer} {rest : List (Instr T)} (htop : e.run.stack io = .handle .readCallback :: rest)
    (hb : b.readable = e.inputBuffer_.readable ++ data)
    (hs : ConnectionRun.Steps io main e.run (.exec io ⟨.ok data.length, errnoAfterLog⟩) r) :
    Echoes io { e with run := r, inputBuffer_ := b, received := e.received ++ data } data := by
  have hqueued := h.queued_step hs
  obtain ⟨hin, hread, rfl, hall⟩ :=
    h.quiet_of_head htop (by simp) (by simp) (by simp) (by simp)
  rw [hread, List.nil_append] at hb
  have hended := h.ended.trans (List.prefix_append _ data)
  have hsent := h.sent
  rw [List.append_nil] at hsent
  have hwork : e.run.work io =
      .handle .readCallback :: (rest ++ ConnectionRun.calls (e.run.loops io).queued) := by
    rw [ConnectionRun.work, htop, List.cons_append]
  have htail : ∀ j ∈ rest ++ ConnectionRun.calls (e.run.loops io).queued, j.ordinary = true :=
    fun j hj => hall j (by rw [hwork]; exact List.mem_cons_of_mem _ hj)
  cases hs with
  | run _ _ i rest' c new hs hr =>
    rw [htop] at hs
    cases hs
    have hothers := h.others_run c new htop
    cases hr
    refine ⟨?_, hothers, hqueued, h.undecided, ?_, hended⟩
    · simp only [ConnectionRun.work, Function.update_self, hin, hb, Outcome.succeeded,
        Outcome.count, if_true]
      cases data with
      | nil =>
        apply Phase.quiet
        intro j hj
        rcases List.mem_cons.mp hj with rfl | hj
        · rfl
        · exact htail j hj
      | cons x data => exact .messageCallback _ _ _ htail
    · intro hne
      show e.received ++ data = e.executed ++ data
      rw [hsent hne]
  | queue _ _ loop cb rest' hs | wakeup _ _ loop rest' hs =>
    rw [htop] at hs
    cases hs

/-- `onMessage` takes the string and calls `send`. -/
theorem Echoes.onMessage_step (h : Echoes io e pending) (address : ℕ)
    (hin : e.inMessage = true) : Echoes io { e with
      run := e.run.setStack io (.send ⟨io, address, e.inputBuffer_.readableBytes,
        e.inputBuffer_.readable⟩ :: .release :: e.run.stack io)
      inputBuffer_ := e.inputBuffer_.retrieve e.inputBuffer_.readableBytes
      inMessage := false } pending := by
  have hphase := h.phase
  rw [hin] at hphase
  obtain ⟨hread, hup, rest, hwork, hrest⟩ := hphase.of_inMessage
  have hstack : ∀ is : List (Instr T), (e.run.setStack io (is ++ e.run.stack io)).work io =
      is ++ e.run.work io := by
    intro is
    simp [ConnectionRun.work]
  refine ⟨?_, ?_, h.queued, h.undecided, h.sent, h.ended⟩
  · have hsend := hstack [.send ⟨io, address, e.inputBuffer_.readableBytes,
      e.inputBuffer_.readable⟩, .release]
    simp only [List.cons_append, List.nil_append, hwork] at hsend
    simp only [hsend, SafeBuffer.readable_retrieveAll, ← hread]
    refine .send ⟨io, address, _, e.inputBuffer_.readable⟩ _ _ ?_ hup
    intro j hj
    simp only [List.mem_cons] at hj
    rcases hj with rfl | rfl | hj
    · rfl
    · rfl
    · exact hrest j hj
  · intro t ht j hj
    simp only [ConnectionRun.work, ConnectionRun.setStack_stack, ConnectionRun.setStack_loops,
      Function.update_of_ne ht] at hj
    exact h.others t ht j hj

/-! ## Whole runs -/

theorem echoes_init (h : Init io main e) : Echoes io e [] := by
  have hwork : ∀ t, ∀ j ∈ e.run.work t, j.ordinary = true := by
    intro t j hj
    rcases h.run.mem_work hj with ⟨_, rfl⟩ | rfl | rfl <;> rfl
  have hexecuted : e.executed = [] := by
    rw [executed, h.run.executed]
    rfl
  refine ⟨?_, fun t _ => hwork t, ?_, ?_, ?_, ?_⟩
  · rw [h.inMessage, h.inputBuffer, SafeBuffer.readable_create]
    exact .quiet _ _ (hwork io)
  · intro t f hf
    rw [h.run.held t f (EventLoop.mem_held_of_mem_queued hf)]
    rfl
  · simp [h.run.conn.state]
  · intro _
    rw [h.received, hexecuted]
    rfl
  · rw [h.received, hexecuted]

theorem Echoes.storesInTime (h : Echoes io e pending) (l : RunLabel T) :
    e.run.StoresInTime l := by
  cases l with
  | exec t o =>
    intro hhead
    obtain ⟨rest, htop⟩ := List.head?_eq_some_iff.mp hhead
    have hmem : Instr.setState .kDisconnecting ∈ e.run.work t := by
      simp [ConnectionRun.work, htop]
    by_cases ht : t = io
    · subst ht
      have hquiet := h.quiet_of_head htop (by simp) (by simp) (by simp) (by simp)
      cases hquiet.work _ hmem
    · cases h.others t ht _ hmem
  | _ => trivial

/-- The conditions on a connection's own run, and nothing besides. -/
def Plain (io : T) (e : EchoRun T) (l : EchoLabel T) : Prop := e.run.PlainSends (e.base io l)

instance [Fintype T] (io : T) (e : EchoRun T) (l : EchoLabel T) : Decidable (Plain io e l) :=
  inferInstanceAs (Decidable (ConnectionRun.PlainSends _ _))

instance [Fintype T] (io : T) (e : EchoRun T) (l : EchoLabel T) : Decidable (Admitted io e l) :=
  inferInstanceAs (Decidable (ConnectionRun.Permitted _ _))

def Orderly (s : ConnectionRun T) (l : RunLabel T) : Prop := s.PlainSends l ∧ s.StoresInTime l

theorem echoes_step (h : Echoes io e pending)
    (hr : (ConnectionRun.system io main).Reachable Orderly e.run) {l : EchoLabel T}
    (hgood : Plain io e l) (hs : (system io main).Step e l e') :
    (∃ pending', Echoes io e' pending') ∧
      (ConnectionRun.system io main).Reachable Orderly e'.run := by
  obtain ⟨hsteps, hstep⟩ := steps_of_step hs.2
  have hsystem : (ConnectionRun.system io main).Step e.run (e.base io l) e'.run := ⟨hs.1, hstep⟩
  have htime := h.storesInTime (e.base io l)
  have hr' : (ConnectionRun.system io main).Reachable Orderly e'.run :=
    .step hr ⟨hgood, htime⟩ hsystem
  refine ⟨?_, hr'⟩
  have hrank : e.run.conn.state_.rank ≤ e'.run.conn.state_.rank :=
    ConnectionRun.rank_le_of_storesInTime (hr.mono fun _ _ hl => hl.2) htime hsystem
  have hstate : e'.run.conn.state_ ≠ .kDisconnected → e.run.conn.state_ ≠ .kDisconnected := by
    intro hne heq
    rw [heq] at hrank
    exact hne (StateE.eq_kDisconnected hrank)
  cases hsteps with
  | run l r hl hrun =>
    exact h.run_step (ConnectionRun.placed_of_reachable hr) hl hrun
      (ConnectionRun.not_connecting_of_reachable hr') hstate
  | read data errnoAfterLog b rest r htop hb hrun => exact ⟨data, h.read_step htop hb hrun⟩
  | onMessage address hin hmsg hu => exact ⟨pending, h.onMessage_step address hin⟩

theorem echoes_of_reachable (h : (system io main).Reachable (Plain io) e) :
    (∃ pending, Echoes io e pending) ∧
      (ConnectionRun.system io main).Reachable Orderly e.run := by
  refine h.invariant (I := fun e => (∃ pending, Echoes io e pending) ∧
    (ConnectionRun.system io main).Reachable Orderly e.run) ?_ ?_
  · intro e hinit
    exact ⟨⟨[], echoes_init hinit⟩, .init hinit.run⟩
  · rintro e l e' ⟨⟨pending, hi⟩, hr⟩ hgood hs
    exact echoes_step hi hr hgood hs

/-- However the bytes arrive and however little the kernel takes of each write,
where the log of a failed direct write leaves `errno` on its side of the test and
messages are left alone while they are on their way: what the peer has been sent,
with what waits in `outputBuffer_`, is what it has sent, in order and each byte
once, but for whole messages whose direct write met `EPIPE` or `ECONNRESET` and
for what arrives on a connection that is down. When the thread is back in its
loop nothing else is on its way. -/
theorem echo_returns_what_arrives (h : (system io main).Reachable (Plain io) e) :
    e.run.conn.written ++ e.run.conn.outputBuffer_.readable =
        ConnectionRun.transmitted e.run.executed ∧
      (e.run.executed.flatMap fun x => x.payload.bytes) <+: e.received ∧
      (e.run.stack io = [] → e.run.conn.state_ ≠ .kDisconnected →
        (e.run.executed.flatMap fun x => x.payload.bytes) = e.received) := by
  obtain ⟨⟨pending, hi⟩, hr⟩ := echoes_of_reachable h
  refine ⟨?_, hi.ended, ?_⟩
  · exact (ConnectionRun.streamMatches_of_reachable (hr.mono fun _ _ hl => hl.1)).output
  · intro hidle hup
    rw [hi.sent hup, (hi.quiet_of_idle hidle).pending, List.append_nil]
    rfl

/-! ## A run -/

open ConnectionRun (Party silent execs establish moved)

/-- The connection of a server with one other loop. -/
def newEcho : EchoRun Party :=
  ⟨ConnectionRun.newConnection false, .create Buffer.kInitialSize, [], false⟩

theorem init_newEcho : Init Party.io Party.main newEcho :=
  ⟨ConnectionRun.init_newConnection false, rfl, rfl, rfl⟩

/-- Two bytes arrive, are put into a string and sent; the kernel takes one of them. -/
def echoing : List (EchoLabel Party) :=
  (establish ++ [RunLabel.report false EPOLLIN, .handleEvent]).map .run ++
    [.read [5, 6] (.other 0), .run (.exec .io silent), .run (.store .io 0 5),
      .run (.store .io 1 6), .onMessage 0, .run (.exec .io silent), .run (.exec .io (moved 1))] ++
    (execs .io 3).map .run

/-- One byte has been written back and one waits; nothing else is on its way. -/
theorem echo_returns_what_arrives_partly :
    ∃ e : EchoRun Party, e.run.conn.written = [5] ∧ e.received = [5, 6] ∧
      e.run.conn.written ++ e.run.conn.outputBuffer_.readable =
        ConnectionRun.transmitted e.run.executed ∧
      (e.run.executed.flatMap fun x => x.payload.bytes) <+: e.received ∧
      (e.run.stack .io = [] → e.run.conn.state_ ≠ .kDisconnected →
        (e.run.executed.flatMap fun x => x.payload.bytes) = e.received) := by
  have hrun : (TransitionSystem.replay (TransitionSystem.guarded (Plain .io)
      (TransitionSystem.guarded (Admitted .io) (step .io .main))) newEcho echoing).map
      (fun e => (e.run.conn.written, e.received)) = some ([5], [5, 6]) := by decide +kernel
  have hnext : ∀ (e : EchoRun Party) l e', TransitionSystem.guarded (Plain .io)
      (TransitionSystem.guarded (Admitted .io) (step .io .main)) e l = some e' →
      Plain .io e l ∧ (system .io .main).Step e l e' := by
    intro e l e' hl
    obtain ⟨hgood, hl⟩ := TransitionSystem.guarded_eq_some.mp hl
    exact ⟨hgood, TransitionSystem.guarded_eq_some.mp hl⟩
  obtain ⟨e, he, hobs⟩ :=
    TransitionSystem.exists_reachable_of_replay hnext (.init init_newEcho) _ hrun
  obtain ⟨hwritten, hreceived⟩ := Prod.mk.inj hobs
  exact ⟨e, hwritten, hreceived, echo_returns_what_arrives he⟩

end EchoRun
end MuduoCore
