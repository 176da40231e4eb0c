import MuduoCore.Server.ConnectionView
import MuduoCore.Server.PoolThreads

/-!
# The last use of a server

Close callbacks and the functors of `removeConnection` hold the raw pointer to
the server. The destructor of the server waits for the threads of the pool, but
what has been queued on the server's loop runs when the destructor has
returned, and a channel that has come back into the poller of that loop is
still handled. In the runs without either, nothing calls the server after its
destructor: the instructions of the destructor are followed on the stack of the
server's thread, down to the last of them.
-/

namespace MuduoCore

def Functor.ofServer {P : Type*} : Functor P → Bool
  | removeConnectionInLoop => true
  | _ => false

def Instr.ofServer {T : Type*} : Instr T → Bool
  | closeCallback => true
  | runInLoop _ f | queueInLoop _ f | call f => f.ofServer
  | _ => false

/-- The functor is bound to the server or to its acceptor. -/
def ServerFunctor.ofServer {T : Type*} : ServerFunctor T → Bool
  | connection _ f => f.ofServer
  | listen => true
  | other => false

/-- The instruction is in a member function of the server or of its acceptor, or
calls one; those of the destructors are left out. -/
def ServerInstr.ofServer {T : Type*} : ServerInstr T → Bool
  | connection _ i => i.ofServer
  | queueInLoop _ f | call f => f.ofServer
  | start | startLoop | listenInLoop | handleRead => true
  | _ => false

/-- The instruction calls `removeConnection`, `removeConnectionInLoop` or
`newConnection`. -/
def ServerInstr.callsServer {T : Type*} : ServerInstr T → Bool
  | connection _ .closeCallback | call (.connection _ .removeConnectionInLoop) | handleRead => true
  | _ => false

def ServerInstr.mayClose {T : Type*} : ServerInstr T → Bool
  | connection _ (.handle .closeCallback) | connection _ (.handle .readCallback) => true
  | _ => false

/-- What `connectDestroyed` has to do on the server's thread, before the channel
of the connection is removed from its poller. -/
inductive ServerInstr.Clears {T : Type*} (main : T) (k : ℕ) : ServerInstr T → Prop
  | run : Clears main k (.connection k (.runInLoop main .connectDestroyed))
  | call : Clears main k (.call (.connection k .connectDestroyed))
  | remove : Clears main k (.connection k .remove)

def Shared.updates {T : Type*} (s : Shared T) (i : Instr T) (o : Outcome) : Bool :=
  match i with
  | .changeInterest _ => true
  | .call (.sendInLoop p) => s.conn.leavesRest p.len o && !s.conn.isWriting
  | .handle .writeCallback =>
    s.conn.isWriting && 0 < o.count && s.conn.outputBuffer_.readableBytes ≤ o.count
  | _ => false

theorem ServerInstr.ofServer_of_callsServer {T : Type*} {i : ServerInstr T}
    (h : i.callsServer = true) : i.ofServer = true := by
  unfold callsServer at h
  split at h <;> first | rfl | cases h

theorem ServerInstr.ofServer_tag {T : Type*} (k : ℕ) (i : Instr T) :
    (i.tag k).ofServer = i.ofServer := by
  cases i <;> rfl

theorem ServerInstr.ofServer_of_ofConnection {T : Type*} {head : ServerInstr T} {k : ℕ}
    {i : Instr T} (h : head.ofConnection = some (k, i)) : head.ofServer = i.ofServer := by
  cases head with
  | connection j i =>
    cases h
    rfl
  | call f =>
    cases f with
    | connection j f =>
      cases h
      rfl
    | listen | other => cases h
  | _ => cases h

theorem Functor.ofServer_of_followsUp {P : Type*} {f : Functor P} (h : f.followsUp = true) :
    f.ofServer = false := by
  cases f <;> simp_all [Functor.followsUp, Functor.ofServer]

theorem ServerInstr.mayClose_of_ofConnection {T : Type*} {head : ServerInstr T} {k : ℕ}
    {i : Instr T} (h : head.ofConnection = some (k, i)) :
    head.mayClose = (connection k i).mayClose := by
  cases head with
  | connection j i =>
    cases h
    rfl
  | call f =>
    cases f with
    | connection j f =>
      cases h
      rfl
    | listen | other => cases h
  | _ => cases h

theorem ofServer_of_follows {T : Type*} {io main t : T} {i j : Instr T}
    (h : Shared.Follows io main t i j) (hj : j.ofServer = true) :
    i.ofServer = true ∨ i = .handle .closeCallback := by
  cases h with
  | run_call | run_queue => exact Or.inl hj
  | sent_queue p g hg | sentFile_queue _ _ _ g hg | write_queue g hg =>
    rw [Instr.ofServer, Functor.ofServer_of_followsUp hg] at hj
    cases hj
  | close_remove => exact Or.inr rfl
  | closeCallback_run => exact Or.inl rfl
  | _ => cases hj

theorem mayClose_of_follows {T : Type*} {io main t : T} {i j : Instr T} {k : ℕ}
    (h : Shared.Follows io main t i j) (hj : (j.tag k).mayClose = true) :
    i = .handle .readCallback := by
  cases h with
  | read_close => rfl
  | _ => cases hj

theorem Shared.registered_of_not_updates {T : Type*} {s c : Shared T} {i : Instr T} {o : Outcome}
    (h : Shared.Changes s c o i) (hupdates : s.updates i o = false)
    (hnone : s.conn.channel_.registered = none) : c.conn.channel_.registered = none := by
  cases h with
  | send p hc =>
    simp only [updates, Bool.and_eq_false_iff, Bool.not_eq_false'] at hupdates
    by_cases hl : s.conn.leavesRest (s.payloadData p).length o = true
    · have hwriting : s.conn.isWriting = true := by
        rw [s.length_payloadData p] at hl
        rcases hupdates with hno | hw
        · rw [hl] at hno
          cases hno
        · exact hw
      rw [hc, TcpConnection.sendInLoop_of_leavesRest _ _ o hl]
      simp [hwriting, hnone]
    · rw [hc, TcpConnection.sendInLoop_of_not_leavesRest _ _ o hl]
      exact hnone
  | sendFile fileDescriptor offset count hc =>
    rw [hc, TcpConnection.sendFileInLoop_channel]
    exact hnone
  | write hc =>
    rcases s.conn.handleWrite_eq (P := Payload T) o with hw | ⟨_, _, _, hw⟩ | ⟨hw, hpos, hr, _⟩
    · rw [hc, hw]
      exact hnone
    · rw [hc, hw]
      exact hnone
    · simp only [TcpConnection.retrieveWritten, SafeBuffer.readable_retrieve,
        List.drop_eq_nil_iff] at hr
      simp [updates, hw, hpos, SafeBuffer.readableBytes_eq, hr] at hupdates
  | interest k hc => cases hupdates
  | remove hc =>
    rw [hc]
    exact RegisteredChannel.registered_remove _
  | shutdown hc =>
    rw [hc, TcpConnection.shutdownInLoop_channel]
    exact hnone
  | drained hc =>
    rw [hc, TcpConnection.halfCloseIfDisconnecting_channel]
    exact hnone
  | state _ hc | same _ hc =>
    rw [hc]
    exact hnone

namespace ServerRun

variable {T : Type*} [DecidableEq T] {main : T} {s s' : ServerRun T}

/-- Nothing is left that calls the server, and no channel of its loop waits to
be handled. -/
structure Idle (main : T) (s : ServerRun T) : Prop where
  work : ∀ t, ∀ i ∈ s.work t, i.ofServer = false
  handlers : ∀ i ∈ s.stack main, i.mayClose = false
  acceptActive : s.acceptActive = false
  active : ∀ k < s.nextConnId_, 0 < k → (s.connection k).loop_ = main →
    (s.connection k).active = false

instance [Fintype T] (s : ServerRun T) : Decidable (Idle main s) :=
  decidable_of_iff ((∀ t, ∀ i ∈ s.work t, i.ofServer = false) ∧
    (∀ i ∈ s.stack main, i.mayClose = false) ∧ s.acceptActive = false ∧
    ∀ k < s.nextConnId_, 0 < k → (s.connection k).loop_ = main → (s.connection k).active = false)
    ⟨fun ⟨hw, hh, ha, hk⟩ => ⟨hw, hh, ha, hk⟩, fun ⟨hw, hh, ha, hk⟩ => ⟨hw, hh, ha, hk⟩⟩

/-- The poller of the server's loop has no channel of a connection that has left
`connections_`. -/
def Unwatched (main : T) (s : ServerRun T) : Prop :=
  ∀ k < s.nextConnId_, 0 < k → (s.connection k).loop_ = main → ¬ s.Registered k →
    (s.connection k).conn.channel_.registered = none

instance (s : ServerRun T) : Decidable (Unwatched main s) :=
  inferInstanceAs (Decidable (∀ k < s.nextConnId_, _))

/-- The destructor begins when nothing of the server is under way. From then on
no connection is closed by its peer before the destructor has returned, and no
channel comes back into the poller of the server's loop. -/
def LeavesQuietly (main : T) (s : ServerRun T) : ServerLabel T → Prop
  | .call _ .destroy => Idle main s ∧ Unwatched main s
  | .exec t o => s.life ≠ .alive → ∀ i ∈ (s.stack t).head?, ∀ r ∈ i.ofConnection,
    (s.life = .inDestructor → r.2 ≠ .handle .closeCallback) ∧
    ((s.connection r.1).loop_ = main → ¬ s.Registered r.1 →
      (s.connection r.1).conn.channel_.registered = none → (s.shared r.1).updates r.2 o = false)
  | _ => True

instance [Fintype T] (s : ServerRun T) : (l : ServerLabel T) → Decidable (LeavesQuietly main s l)
  | .call _ .destroy => inferInstanceAs (Decidable (_ ∧ _))
  | .exec t _ => inferInstanceAs (Decidable (s.life ≠ .alive →
      ∀ i ∈ (s.stack t).head?, ∀ r ∈ i.ofConnection, _))
  | .call _ .start | .call _ (.connection _ _) | .startLoop _ _ | .destroyNext _ | .control _ _
  | .poll _ _ _ _ | .handleEvent _ | .acceptEvent | .store _ _ _ | .copy _ _
  | .drop _ _ => isTrue trivial

/-! ## The life of a server -/

def destructor (s : ServerRun T) : List (ServerInstr T) :=
  .destroyConnections :: s.threadPool_.loops_.flatMap (fun loop => [.quit loop, .join loop]) ++
    [.destroyAcceptor]

theorem life_step {l : ServerLabel T} (hs : Steps main s l s') :
    (s'.life = s.life ∧ ∀ t, l ≠ .call t .destroy) ∨
    (l = .call main .destroy ∧ s' = { s with life := .inDestructor }.setStack main
      (s.destructor ++ ServerInstr.destroyed :: s.stack main)) ∨
    ∃ t o rest, l = .exec t o ∧ s.stack t = .destroyed :: rest ∧
      s' = { s with life := .destroyed }.setStack t rest := by
  cases hs with
  | own t o i rest r new hs hr =>
    cases i with
    | destroyed =>
      cases hr
      exact Or.inr (Or.inr ⟨t, o, rest, rfl, hs, rfl⟩)
    | handleRead =>
      left
      simp only [run] at hr
      split at hr
      · obtain ⟨-, -, rfl⟩ := newConnection_eq hr
        exact ⟨rfl, by simp⟩
      · cases hr
        exact ⟨rfl, by simp⟩
    | call f =>
      left
      cases f with
      | connection k f => cases hr
      | listen | other =>
        cases hr
        exact ⟨rfl, by simp⟩
    | destroyConnections | join loop =>
      left
      simp only [run] at hr
      split_ifs at hr
      cases hr
      exact ⟨rfl, by simp⟩
    | connection k i | queueInLoop loop cb | wakeup loop | startLoop => cases hr
    | _ =>
      left
      cases hr
      exact ⟨rfl, by simp⟩
  | call t c r new hu hc =>
    cases codes_of_code hc with
    | destroy ht hlife =>
      subst ht
      exact Or.inr (Or.inl ⟨rfl, by simp [destructor]⟩)
    | _ => exact Or.inl ⟨rfl, by simp⟩
  | pointers l k n hk hl =>
    refine Or.inl ⟨rfl, ?_⟩
    rintro t rfl
    obtain ⟨u, hl | hl⟩ := hl <;> cases hl
  | _ => exact Or.inl ⟨rfl, by simp⟩

theorem life_ne_alive_step {l : ServerLabel T} (hs : Steps main s l s') (h : s.life ≠ .alive) :
    s'.life ≠ .alive := by
  rcases life_step hs with ⟨heq, _⟩ | ⟨_, rfl⟩ | ⟨t, o, rest, _, _, rfl⟩
  · rwa [heq]
  · simp [setStack]
  · simp [setStack]

theorem ne_destroyed_of_run {t : T} {i : ServerInstr T} {o : Outcome} {r : ServerRun T}
    {new : List (ServerInstr T)} (hr : s.run main t i o = some (r, new)) :
    .destroyed ∉ new := by
  intro hj
  cases ownFollows_of_run hr hj

theorem destroy_of_code {t : T} {c : ServerCall T} {r : ServerRun T} {new : List (ServerInstr T)}
    (hc : s.code main t c = some (r, new)) (hnew : .destroyed ∈ new) :
    t = main ∧ c = .destroy ∧ s.life = .alive := by
  cases codes_of_code hc with
  | connection k c hk hcallbacks =>
    obtain ⟨i, _, hi⟩ := List.mem_map.mp hnew
    cases i <;> cases hi
  | queueInLoop | start => simp at hnew
  | destroy ht hlife => exact ⟨ht, rfl, hlife⟩

/-- The end of the destructor is on the server's thread, after its begin. -/
def EndsOnce (main : T) (s : ServerRun T) : Prop :=
  ∀ t, ∀ i ∈ s.work t, i = .destroyed → t = main ∧ s.life ≠ .alive

omit [DecidableEq T] in
theorem endsOnce_init (h : Init main s) : EndsOnce main s := by
  rintro t i hi rfl
  rw [work, h.stack t, List.nil_append] at hi
  obtain ⟨f, _, hf⟩ := List.mem_map.mp hi
  cases hf

theorem endsOnce_step {l : ServerLabel T} (h : EndsOnce main s) (hs : Steps main s l s') :
    EndsOnce main s' := by
  apply hs.forall_work (P := fun t i => i = .destroyed → t = main ∧ s'.life ≠ .alive)
  · rintro t i hi rfl
    obtain ⟨ht, hlife⟩ := h t _ hi rfl
    exact ⟨ht, life_ne_alive_step hs hlife⟩
  · intro t o head k i c new _ _ _ j _ hj
    cases j <;> cases hj
  · rintro t o i rest r new _ hr _ j hj rfl
    exact absurd hj (ne_destroyed_of_run hr)
  · exact fun _ _ h => nomatch h
  · exact fun _ _ _ h => nomatch h
  · exact fun _ _ _ _ h => nomatch h
  · exact fun _ _ h => nomatch h
  · exact fun _ _ _ h => nomatch h
  · exact fun h => nomatch h
  · rintro t c r new rfl hc i hi rfl
    obtain ⟨rfl, rfl, -⟩ := destroy_of_code hc hi
    refine ⟨rfl, ?_⟩
    rcases life_step hs with ⟨_, hnot⟩ | ⟨_, rfl⟩ | ⟨_, _, _, hl, _⟩
    · exact absurd rfl (hnot _)
    · simp [setStack]
    · cases hl

/-! ## Nothing is left that calls the server -/

theorem Idle.accepted_step (h : Idle main s) {l : ServerLabel T} (hs : Steps main s l s') {k : ℕ}
    (hk' : s'.Accepted k) : s.Accepted k := by
  by_contra hk
  obtain ⟨t, rest, _, _, _, htop, _⟩ := newConnection_of_accepted hs hk hk'
  have hidle := h.work t .handleRead (List.mem_append_left _ (by simp [htop]))
  cases hidle

theorem Idle.pool_step (h : Idle main s) {l : ServerLabel T} (hs : Steps main s l s') :
    s'.threadPool_.loops_ = s.threadPool_.loops_ := by
  rcases (ServerRun.pool_step hs).2 with heq | ⟨t, _, rest, htop, _, _⟩
  · exact heq
  · have hidle := h.work t .startLoop (List.mem_append_left _ (by simp [htop]))
    cases hidle

/-- No call of the user but the destructor is left to a server that has begun it. -/
theorem ofServer_of_code {t : T} {c : ServerCall T} {r : ServerRun T} {new : List (ServerInstr T)}
    (hc : s.code main t c = some (r, new)) (hlife : s.life ≠ .alive) :
    ∀ i ∈ new, i.ofServer = false ∧ i.mayClose = false := by
  intro i hi
  cases codes_of_code hc with
  | connection k c hk hcallbacks =>
    obtain ⟨i', hi', rfl⟩ := List.mem_map.mp hi
    cases c <;> simp only [ConnectionRun.code, List.mem_cons, List.not_mem_nil, or_false] at hi'
    case queueInLoop loop =>
      subst hi'
      exact ⟨rfl, rfl⟩
    all_goals rcases hi' with rfl | rfl <;> exact ⟨rfl, rfl⟩
  | queueInLoop =>
    rw [List.mem_singleton.mp hi]
    exact ⟨rfl, rfl⟩
  | start halive | destroy _ halive => exact absurd halive hlife

theorem ofServer_of_run {t : T} {i : ServerInstr T} {o : Outcome} {r : ServerRun T}
    {new : List (ServerInstr T)} (hr : s.run main t i o = some (r, new))
    (hi : i.ofServer = false) : ∀ j ∈ new, j.ofServer = false ∧ j.mayClose = false := by
  intro j hj
  cases ownFollows_of_run hr hj with
  | quit_wakeup => exact ⟨rfl, rfl⟩
  | _ => cases hi

/-- The events that `poll` may report on the server's loop. -/
def Unreported (main : T) (s : ServerRun T) : Prop :=
  s.stack main = [] → s.acceptChannel_.registered = none ∧
    ∀ k, s.Accepted k → s.loopOf k = main → (s.connection k).conn.channel_.registered = none

theorem mayReport_of_not_registered {c : RegisteredChannel} (h : c.registered = none)
    (revents : Events) : mayReport c revents = false := by
  simp [mayReport, h]

/-- A close is begun by a handler of the loop of the connection. -/
theorem Idle.work_step (h : Idle main s) {l : ServerLabel T} (hs : Steps main s l s')
    (hlife : s.life ≠ .alive)
    (hclose : ∀ t o head rest k, l = .exec t o → s.stack t = head :: rest →
      head.ofConnection = some (k, .handle .closeCallback) → t = main) :
    ∀ t, ∀ i ∈ s'.work t, i.ofServer = false ∧ (t = main → i.mayClose = false) := by
  apply hs.forall_work_of (P := fun t i => i.ofServer = false ∧ (t = main → i.mayClose = false))
  · intro t i hi
    refine ⟨h.work t i hi, ?_⟩
    rintro rfl
    rcases List.mem_append.mp hi with hi | hi
    · exact h.handlers i hi
    · obtain ⟨f, _, rfl⟩ := List.mem_map.mp hi
      rfl
  · intro t o head rest k i c new hl htop hi hr j hj
    have hfollows := Shared.follows_of_run hr hj
    have hhead : head.ofServer = false := h.work t head (List.mem_append_left _ (by simp [htop]))
    have hhandler : t = main → head.mayClose = false := by
      rintro rfl
      exact h.handlers head (by simp [htop])
    rw [ServerInstr.ofServer_of_ofConnection hi] at hhead
    rw [ServerInstr.ofServer_tag]
    constructor
    · by_contra hserver
      rcases ofServer_of_follows hfollows (by simpa using hserver) with hi' | rfl
      · rw [hi'] at hhead
        cases hhead
      · have hmay := hhandler (hclose t o head rest k hl htop hi)
        rw [ServerInstr.mayClose_of_ofConnection hi] at hmay
        cases hmay
    · intro hmain
      by_contra hmay
      obtain rfl := mayClose_of_follows hfollows (by simpa using hmay)
      have hnot := hhandler hmain
      rw [ServerInstr.mayClose_of_ofConnection hi] at hnot
      cases hnot
  · intro t o i rest r new htop hr _ j hj
    have hi := h.work t i (List.mem_append_left _ (by simp [htop]))
    exact ⟨(ofServer_of_run hr hi j hj).1, fun _ => (ofServer_of_run hr hi j hj).2⟩
  · exact fun _ _ => ⟨rfl, fun _ => rfl⟩
  · exact fun _ _ _ => ⟨rfl, fun _ => rfl⟩
  · exact fun _ _ _ hq => ⟨hq.1, fun _ => rfl⟩
  · exact fun _ _ => ⟨rfl, fun _ => rfl⟩
  · intro k cb hk hactive
    refine ⟨rfl, fun hmain => ?_⟩
    rw [h.active k hk.2 hk.1 hmain] at hactive
    cases hactive
  · intro haccept
    rw [h.acceptActive] at haccept
    cases haccept
  · rintro t c r new rfl hc i hi
    exact ⟨(ofServer_of_code hc hlife i hi).1, fun _ => (ofServer_of_code hc hlife i hi).2⟩

theorem Idle.acceptActive_step (h : Idle main s) {l : ServerLabel T} (hs : Steps main s l s')
    (hpoll : Unreported main s) : s'.acceptActive = false := by
  cases hs with
  | own t o i rest r new hs hr =>
    rcases run_cases hr with ⟨sockfd, -, hnew⟩ | ⟨-, -, hr⟩
    · obtain ⟨-, -, rfl⟩ := newConnection_eq hnew
      exact h.acceptActive
    · rw [hr]
      exact h.acceptActive
  | poll t wakeup reports accept loop hs hr hacc ha =>
    cases accept with
    | none => simp [h.acceptActive]
    | some revents =>
      simp only [Option.all_some, Bool.and_eq_true, decide_eq_true_eq] at hacc
      obtain ⟨rfl, hreport⟩ := hacc
      rw [mayReport_of_not_registered (hpoll hs).1] at hreport
      cases hreport
  | acceptEvent hs ha => rfl
  | call t c r new hu hc =>
    rw [frame_of_code hc]
    exact h.acceptActive
  | _ => exact h.acceptActive

theorem Idle.active_step (h : Idle main s) {l : ServerLabel T} (hs : Steps main s l s')
    (hpoll : Unreported main s) {k : ℕ} (hk' : s'.Accepted k) (hloop : s'.loopOf k = main) :
    (s'.connection k).active = false := by
  have hk : s.Accepted k := h.accepted_step hs hk'
  have hbefore : s.loopOf k = main := ((continues_step hs).loop k hk).symm.trans hloop
  by_contra hactive
  rcases active_of_step hs hk (by simpa using hactive) with
    ha | ⟨w, reports, accept, revents, rfl, hr⟩
  · rw [h.active k hk.2 hk.1 hbefore] at ha
    cases ha
  · rw [hbefore] at hs
    cases hs with
    | poll t wakeup reports accept loop hs hreports hacc ha =>
      have hreport := (hreports _ hr).2.2
      rw [mayReport_of_not_registered ((hpoll hs).2 k hk hbefore)] at hreport
      cases hreport
    | pointers l j n hj hl => obtain ⟨t, hl | hl⟩ := hl <;> cases hl

theorem Idle.step (h : Idle main s) {l : ServerLabel T} (hs : Steps main s l s')
    (hlife : s.life ≠ .alive) (hpoll : Unreported main s)
    (hclose : ∀ t o head rest k, l = .exec t o → s.stack t = head :: rest →
      head.ofConnection = some (k, .handle .closeCallback) → t = main) : Idle main s' := by
  have hwork := h.work_step hs hlife hclose
  refine ⟨fun t i hi => (hwork t i hi).1, ?_, h.acceptActive_step hs hpoll, ?_⟩
  · exact fun i hi => (hwork main i (List.mem_append_left _ hi)).2 rfl
  · exact fun k hlt hpos => h.active_step hs hpoll ⟨hpos, hlt⟩

/-! ## What the destructor leaves -/

omit [DecidableEq T] in
theorem not_registered_of_empty (h : s.connections_.entries = []) (k : ℕ) : ¬ s.Registered k := by
  have hempty : s.connections_ = ∅ := AList.ext h
  rw [Registered, hempty, AList.lookup_empty]
  simp

theorem Idle.acceptChannel_step (h : Idle main s) {l : ServerLabel T} (hs : Steps main s l s')
    (hnone : s.acceptChannel_.registered = none) : s'.acceptChannel_.registered = none := by
  cases hs with
  | own t o i rest r new hs hr =>
    by_cases hlisten : i = .call .listen
    · have hidle := h.work t i (List.mem_append_left _ (by simp [hs]))
      rw [hlisten] at hidle
      cases hidle
    · by_cases hdestroy : i = .destroyAcceptor
      · subst hdestroy
        cases hr
        exact RegisteredChannel.registered_remove _
      · have hsame : r.acceptChannel_ = s.acceptChannel_ := by
          apply acceptChannel_of_run hr
          cases i with
          | connection k i => cases hr
          | call f =>
            cases f with
            | connection k f => cases hr
            | listen => exact absurd rfl hlisten
            | other => simp [ServerInstr.accesses]
          | destroyAcceptor => exact absurd rfl hdestroy
          | _ => simp [ServerInstr.accesses]
        rw [setStack, hsame]
        exact hnone
  | poll t wakeup reports accept loop hs hr hacc ha =>
    cases accept with
    | none => exact hnone
    | some revents => exact hnone
  | call t c r new hu hc =>
    rw [frame_of_code hc]
    exact hnone
  | _ => exact hnone

theorem Idle.connections_step (h : Idle main s) {l : ServerLabel T} (hs : Steps main s l s') :
    s'.connections_ = s.connections_ ∨ ∃ k, l = .destroyNext k ∧ s.Accepted k ∧ s.Registered k ∧
      s'.connections_ = s.connections_.erase (s.connName k) := by
  cases hs with
  | run t o head k i rest c new hs hi hr =>
    left
    have hidle := h.work t head (List.mem_append_left _ (by simp [hs]))
    rw [ServerInstr.ofServer_of_ofConnection hi] at hidle
    have hremove : i ≠ .call .removeConnectionInLoop := by
      rintro rfl
      cases hidle
    simp [setStack, setConnection, hremove]
  | own t o i rest r new hs hr =>
    left
    rcases run_cases hr with ⟨sockfd, rfl, -⟩ | ⟨-, -, hr⟩
    · have hidle := h.work t .handleRead (List.mem_append_left _ (by simp [hs]))
      cases hidle
    · rw [hr]
      rfl
  | destroyNext k rest hs hk hreg => exact Or.inr ⟨k, rfl, hk, hreg, rfl⟩
  | call t c r new hu hc =>
    left
    rw [frame_of_code hc]
    rfl
  | _ => exact Or.inl rfl

theorem registered_step {l : ServerLabel T} (hs : Steps main s l s') {k : ℕ} (hk : s.Accepted k)
    (hnone : (s.connection k).conn.channel_.registered = none)
    (hupdates : ∀ t o head rest i, l = .exec t o → s.stack t = head :: rest →
      head.ofConnection = some (k, i) → (s.shared k).updates i o = false) :
    (s'.connection k).conn.channel_.registered = none := by
  have hstep := connection_step hs hk
  generalize s'.connection k = c at hstep ⊢
  cases hstep with
  | run t o head i rest c new htop hi hr =>
    simp only [setConnection, Function.update_self]
    exact Shared.registered_of_not_updates (Shared.changes_of_run hr)
      (hupdates t o head rest i rfl htop hi) hnone
  | _ => exact hnone

/-- What `head` was to do for the end of the server has been done, or is left
to `new`. -/
structure Replaces (main : T) (s' : ServerRun T) (head : ServerInstr T)
    (new : List (ServerInstr T)) : Prop where
  joined : ∀ loop, head = .join loop → s'.returned loop = true
  acceptor : head = .destroyAcceptor → s'.acceptChannel_.registered = none
  connections : head = .destroyConnections → head ∈ new ∨ s'.connections_.entries = []
  channels : ∀ k, head.Clears main k → (∃ i ∈ new, i.Clears main k) ∨
    (s'.connection k).conn.channel_.registered = none

theorem replaces_run {o : Outcome} {head : ServerInstr T} {k : ℕ} {i : Instr T}
    {rest : List (ServerInstr T)} {c : Shared T} {new : List (Instr T)}
    (hi : head.ofConnection = some (k, i))
    (hr : (s.shared k).run (s.connection k).loop_ main main i o = some (c, new)) :
    Replaces main ((s.setConnection k i c).setStack main (new.map (Instr.tag k) ++ rest)) head
      (new.map (Instr.tag k)) := by
  refine ⟨?_, ?_, ?_, ?_⟩
  · rintro loop rfl
    cases hi
  · rintro rfl
    cases hi
  · rintro rfl
    cases hi
  · intro j hclears
    cases hclears with
    | run =>
      cases hi
      simp only [Shared.run, if_true, Option.some.injEq, Prod.mk.injEq] at hr
      obtain ⟨_, rfl⟩ := hr
      exact Or.inl ⟨_, by simp [Instr.tag], .call⟩
    | call =>
      cases hi
      cases hr
      refine Or.inl ⟨_, ?_, .remove⟩
      split_ifs <;> simp [Instr.tag]
    | remove =>
      cases hi
      cases hr
      right
      simp only [setStack, setConnection, Function.update_self]
      exact RegisteredChannel.registered_remove _

theorem replaces_own {t : T} {o : Outcome} {i : ServerInstr T} {rest : List (ServerInstr T)}
    {r : ServerRun T} {new : List (ServerInstr T)} (hr : s.run main t i o = some (r, new)) :
    Replaces main (r.setStack t (new ++ rest)) i new := by
  refine ⟨?_, ?_, ?_, ?_⟩
  · rintro loop rfl
    simp only [run] at hr
    split_ifs at hr with hreturned
    cases hr
    exact hreturned
  · rintro rfl
    cases hr
    exact RegisteredChannel.registered_remove _
  · rintro rfl
    simp only [run] at hr
    split_ifs at hr with hempty
    cases hr
    exact Or.inr hempty
  · intro k hclears
    cases hclears <;> cases hr

omit [DecidableEq T] in
theorem replaces_of_ne {head : ServerInstr T} {new : List (ServerInstr T)}
    (hjoin : ∀ loop, head ≠ .join loop) (hacceptor : head ≠ .destroyAcceptor)
    (hconnections : head ≠ .destroyConnections) (hclears : ∀ k, ¬ head.Clears main k) :
    Replaces main s' head new where
  joined loop h := absurd h (hjoin loop)
  acceptor h := absurd h hacceptor
  connections h := absurd h hconnections
  channels k h := absurd h (hclears k)

omit [DecidableEq T] in
theorem ne_destroyed_of_destructor (cb : ServerFunctor T) : .destroyed ∉ cb.destructor := by
  intro hmem
  cases cb with
  | connection k f =>
    obtain ⟨i, _, hi⟩ := List.mem_map.mp hmem
    cases i <;> cases hi
  | listen | other => cases hmem

/-- How the stack of the server's thread changes before the destructor returns. -/
inductive StackMoves (main : T) (s : ServerRun T) (l : ServerLabel T) (s' : ServerRun T) : Prop
  | grows (new : List (ServerInstr T)) (hnew : s'.stack main = new ++ s.stack main)
      (hfresh : .destroyed ∉ new) (hl : ∀ k, l ≠ .destroyNext k)
  | pops (head : ServerInstr T) (rest new : List (ServerInstr T))
      (htop : s.stack main = head :: rest) (hnew : s'.stack main = new ++ rest)
      (hhead : head ≠ .destroyed) (hfresh : .destroyed ∉ new)
      (hreplaces : Replaces main s' head new)
      (hclears : ∀ k, l = .destroyNext k → s.loopOf k = main → ∃ i ∈ new, i.Clears main k)

theorem stackMoves_of_pop {l : ServerLabel T} {t : T} {head : ServerInstr T}
    {rest new : List (ServerInstr T)} (htop : s.stack t = head :: rest)
    (hstack : s'.stack = Function.update s.stack t (new ++ rest)) (hl : ∀ k, l ≠ .destroyNext k)
    (hmain : t = main → head ≠ .destroyed ∧ .destroyed ∉ new ∧ Replaces main s' head new) :
    StackMoves main s l s' := by
  by_cases ht : t = main
  · subst ht
    obtain ⟨hhead, hfresh, hreplaces⟩ := hmain rfl
    refine .pops head rest new htop ?_ hhead hfresh hreplaces fun k hk => absurd hk (hl k)
    rw [hstack, Function.update_self]
  · refine .grows [] ?_ List.not_mem_nil hl
    rw [hstack, Function.update_of_ne (Ne.symm ht), List.nil_append]

theorem stack_step {l : ServerLabel T} (hs : Steps main s l s') (hlife : s.life = .inDestructor)
    (hlife' : s'.life = .inDestructor) (hstack : s.stack main ≠ []) : StackMoves main s l s' := by
  have hidle : ∀ {t is}, s.stack t = [] → Function.update s.stack t is main = s.stack main := by
    intro t is ht
    rw [Function.update_of_ne]
    rintro rfl
    exact hstack ht
  cases hs with
  | run t o head k i rest c new hs hi hr =>
    refine stackMoves_of_pop hs rfl (by simp) ?_
    rintro rfl
    refine ⟨?_, ?_, replaces_run hi hr⟩
    · rintro rfl
      cases hi
    · intro hmem
      obtain ⟨j, _, hj⟩ := List.mem_map.mp hmem
      cases j <;> cases hj
  | own t o i rest r new hs hr =>
    refine stackMoves_of_pop hs (by rw [setStack, (frame_of_run hr).1]) (by simp) ?_
    rintro rfl
    refine ⟨?_, ne_destroyed_of_run hr, replaces_own hr⟩
    rintro rfl
    cases hr
    cases hlife'
  | queue t o loop cb rest hs =>
    refine stackMoves_of_pop hs rfl (by simp) fun _ => ⟨by simp, ?_, ?_⟩
    · simpa using ne_destroyed_of_destructor cb
    · exact replaces_of_ne (by simp) (by simp) (by simp) (by rintro _ ⟨⟩)
  | wakeup t o loop rest hs =>
    have hnil := congrArg (Function.update s.stack t) (List.nil_append rest).symm
    refine stackMoves_of_pop hs hnil (by simp) fun _ => ⟨by simp, by simp, ?_⟩
    exact replaces_of_ne (by simp) (by simp) (by simp) (by rintro _ ⟨⟩)
  | startLoop t loop rest hs =>
    have hnil := congrArg (Function.update s.stack t) (List.nil_append rest).symm
    refine stackMoves_of_pop hs hnil (by simp) fun _ => ⟨by simp, by simp, ?_⟩
    exact replaces_of_ne (by simp) (by simp) (by simp) (by rintro _ ⟨⟩)
  | destroyNext k rest hs hk hreg =>
    refine .pops _ rest [.connection k (.runInLoop (s.connection k).loop_ .connectDestroyed),
      .connection k .release, .destroyConnections] hs (by simp [setStack]) (by simp) (by simp)
      ⟨by simp, by simp, by simp, by rintro _ ⟨⟩⟩ ?_
    rintro j hj hloop
    obtain rfl := ServerLabel.destroyNext.inj hj
    refine ⟨_, List.mem_cons_self .., ?_⟩
    rw [← hloop]
    exact .run
  | control t c loop hs hreturned hd ha => exact .grows [] (hidle hs) (by simp) (by simp)
  | handleEvent k hk hs ha => exact .grows [] (hidle hs) (by simp) (by simp)
  | acceptEvent hs ha => exact absurd hs hstack
  | call t c r new hu hc =>
    by_cases ht : t = main
    · subst ht
      refine .grows new (by simp [setStack]) ?_ (by simp)
      intro hmem
      have halive := (destroy_of_code hc hmem).2.2
      rw [hlife] at halive
      cases halive
    · refine .grows [] ?_ (by simp) (by simp)
      rw [frame_of_code hc]
      exact Function.update_of_ne (Ne.symm ht) _ _
  | poll t wakeup reports accept loop hs => exact .grows [] rfl (by simp) (by simp)
  | store t address value hu => exact .grows [] rfl (by simp) (by simp)
  | pointers l k n hk hl =>
    refine .grows [] rfl (by simp) ?_
    rintro j rfl
    obtain ⟨t, hl | hl⟩ := hl <;> cases hl

omit [DecidableEq T] in
theorem Replaces.mono {head : ServerInstr T} {new is : List (ServerInstr T)}
    (h : Replaces main s' head new) (hsub : new ⊆ is) : Replaces main s' head is where
  joined := h.joined
  acceptor := h.acceptor
  connections hhead := (h.connections hhead).imp_left fun hmem => hsub hmem
  channels k hk := (h.channels k hk).imp_left fun ⟨i, hi, hclears⟩ => ⟨i, hsub hi, hclears⟩

/-- The threads of the pool have been joined, the acceptor and the connections
have left the poller of the server's loop, or `above` is still to see to it. -/
structure Cleared (main : T) (s : ServerRun T) (above : List (ServerInstr T)) : Prop where
  joined : ∀ loop ∈ s.threadPool_.loops_, .join loop ∈ above ∨ s.returned loop = true
  acceptor : .destroyAcceptor ∈ above ∨ s.acceptChannel_.registered = none
  connections : .destroyConnections ∈ above ∨ s.connections_.entries = []
  channels : ∀ k, s.Accepted k → s.loopOf k = main →
    s.Registered k ∨ (∃ i ∈ above, i.Clears main k) ∨
      (s.connection k).conn.channel_.registered = none

theorem Cleared.step {above above' : List (ServerInstr T)} (h : Cleared main s above)
    (hidle : Idle main s) (hpool : PoolThreads main s) (hnum : Numbered s) {l : ServerLabel T}
    (hs : Steps main s l s')
    (hupdates : ∀ k, s.loopOf k = main → ¬ s.Registered k →
      (s.connection k).conn.channel_.registered = none →
      ∀ t o head rest i, l = .exec t o → s.stack t = head :: rest →
        head.ofConnection = some (k, i) → (s.shared k).updates i o = false)
    (hkeep : ∀ i ∈ above, i ∈ above' ∨ Replaces main s' i above')
    (hdestroy : ∀ k, l = .destroyNext k → s.loopOf k = main → ∃ i ∈ above', i.Clears main k) :
    Cleared main s' above' := by
  have hcont := continues_step hs
  refine ⟨?_, ?_, ?_, ?_⟩
  · intro loop hloop
    rw [hidle.pool_step hs] at hloop
    rcases h.joined loop hloop with hmem | hreturned
    · exact (hkeep _ hmem).imp_right fun hr => hr.joined loop rfl
    · exact Or.inr (hpool.returned_step hs hreturned).1
  · rcases h.acceptor with hmem | hnone
    · exact (hkeep _ hmem).imp_right fun hr => hr.acceptor rfl
    · exact Or.inr (hidle.acceptChannel_step hs hnone)
  · rcases h.connections with hmem | hempty
    · rcases hkeep _ hmem with hmem | hr
      · exact Or.inl hmem
      · exact hr.connections rfl
    · right
      rcases hidle.connections_step hs with heq | ⟨k, _, _, hreg, _⟩
      · rwa [heq]
      · exact absurd hreg (not_registered_of_empty hempty k)
  · intro k hk' hloop
    have hk : s.Accepted k := hidle.accepted_step hs hk'
    have hbefore : s.loopOf k = main := (hcont.loop k hk).symm.trans hloop
    by_cases hreg : s.Registered k
    · rcases hidle.connections_step hs with heq | ⟨j, hl, hj, _, heq⟩
      · left
        rw [Registered, hcont.connName, heq]
        exact hreg
      · by_cases hjk : j = k
        · subst hjk
          exact Or.inr (Or.inl (hdestroy j hl hbefore))
        · left
          rw [Registered, hcont.connName, heq]
          exact (registered_erase hnum hk hj hjk).mpr hreg
    · right
      rcases h.channels k hk hbefore with hin | ⟨i, hi, hclears⟩ | hnone
      · exact absurd hin hreg
      · rcases hkeep i hi with hmem | hr
        · exact Or.inl ⟨i, hmem, hclears⟩
        · exact hr.channels k hclears
      · exact Or.inr (registered_step hs hk hnone (hupdates k hbefore hreg hnone))

/-! ## After the destructor -/

/-- The life of the server, from the call of its destructor on. -/
structure Leaving (main : T) (s : ServerRun T) : Prop where
  ends : EndsOnce main s
  idle : s.life ≠ .alive → Idle main s
  inside : s.life = .inDestructor → ∃ above below, s.stack main = above ++ .destroyed :: below ∧
    .destroyed ∉ above ∧ Cleared main s above
  after : s.life = .destroyed → Cleared main s []

omit [DecidableEq T] in
theorem Leaving.unreported (h : Leaving main s) (hlife : s.life ≠ .alive) : Unreported main s := by
  intro hstack
  cases hl : s.life with
  | alive => exact absurd hl hlife
  | inDestructor =>
    obtain ⟨above, below, htop, _⟩ := h.inside hl
    rw [hstack] at htop
    simp at htop
  | destroyed =>
    have hcleared := h.after hl
    have hempty := hcleared.connections.resolve_left (List.not_mem_nil)
    refine ⟨hcleared.acceptor.resolve_left (List.not_mem_nil), ?_⟩
    intro k hk hloop
    rcases hcleared.channels k hk hloop with hreg | ⟨i, hi, _⟩ | hnone
    · exact absurd hreg (not_registered_of_empty hempty k)
    · cases hi
    · exact hnone

omit [DecidableEq T] in
theorem Leaving.close_main (h : Leaving main s) (hpool : PoolThreads main s)
    (hplaced : Placed main s) (hnum : Numbered s) (hlife : s.life ≠ .alive)
    {l : ServerLabel T} (hgood : LeavesQuietly main s l) {t : T} {o : Outcome}
    {head : ServerInstr T} {rest : List (ServerInstr T)} {k : ℕ} (hl : l = .exec t o)
    (htop : s.stack t = head :: rest)
    (hi : head.ofConnection = some (k, .handle .closeCallback)) : t = main := by
  subst hl
  have hmem : head ∈ s.work t := List.mem_append_left _ (by simp [htop])
  have hk : s.Accepted k := hnum.owner t head hmem k (owner_of_ofConnection hi)
  have hloop : t = s.loopOf k := placedOn_of_ofConnection hi (hplaced t head hmem)
  cases hlife' : s.life with
  | alive => exact absurd hlife' hlife
  | inDestructor =>
    exact absurd rfl ((hgood hlife head (by simp [htop]) _ hi).1 hlife')
  | destroyed =>
    rcases hpool.loop k hk with hmain | hin
    · exact hloop.trans hmain
    · have hreturned := ((h.after hlife').joined _ hin).resolve_left (List.not_mem_nil)
      rw [← hloop] at hreturned
      rw [(hpool.returned t hreturned).2.1] at htop
      cases htop

omit [DecidableEq T] in
theorem LeavesQuietly.not_updates {l : ServerLabel T} (hgood : LeavesQuietly main s l)
    (hlife : s.life ≠ .alive) {k : ℕ} (hloop : s.loopOf k = main) (hreg : ¬ s.Registered k)
    (hnone : (s.connection k).conn.channel_.registered = none) {t : T} {o : Outcome}
    {head : ServerInstr T} {rest : List (ServerInstr T)} {i : Instr T} (hl : l = .exec t o)
    (htop : s.stack t = head :: rest) (hi : head.ofConnection = some (k, i)) :
    (s.shared k).updates i o = false := by
  subst hl
  exact (hgood hlife head (by simp [htop]) (k, i) hi).2 hloop hreg hnone

omit [DecidableEq T] in
theorem not_mem_destructor {i : ServerInstr T} (hi : i ∈ s.destructor) :
    i.ofServer = false ∧ i.mayClose = false ∧ i ≠ .destroyed := by
  simp only [destructor, List.cons_append, List.mem_cons, List.mem_append, List.mem_flatMap,
    List.not_mem_nil, or_false] at hi
  rcases hi with rfl | ⟨loop, _, rfl | rfl⟩ | rfl <;> exact ⟨rfl, rfl, by simp⟩

theorem leaving_destroy (h : EndsOnce main s') (hidle : Idle main s) (hunwatched : Unwatched main s)
    (hs' : s' = { s with life := .inDestructor }.setStack main
      (s.destructor ++ ServerInstr.destroyed :: s.stack main)) : Leaving main s' := by
  have hstack : ∀ i ∈ s'.stack main, i.ofServer = false ∧ i.mayClose = false := by
    intro i hi
    simp only [hs', setStack, Function.update_self, List.mem_append, List.mem_cons] at hi
    rcases hi with hi | rfl | hi
    · exact ⟨(not_mem_destructor hi).1, (not_mem_destructor hi).2.1⟩
    · exact ⟨rfl, rfl⟩
    · exact ⟨hidle.work main i (List.mem_append_left _ hi), hidle.handlers i hi⟩
  have hupdate : s'.stack = Function.update s.stack main (s'.stack main) := by
    simp [hs', setStack]
  refine ⟨h, fun _ => ⟨?_, fun i hi => (hstack i hi).2, ?_, ?_⟩, fun _ => ?_, ?_⟩
  · refine forall_work_of (P := fun _ i => i.ofServer = false) hupdate ?_
      (fun i hi => (hstack i hi).1) ?_
    · exact fun u _ i hi => hidle.work u i (List.mem_append_left _ hi)
    · intro u f hf
      rw [hs'] at hf
      exact hidle.work u _ (List.mem_append_right _ (List.mem_map_of_mem hf))
  · rw [hs']
    exact hidle.acceptActive
  · rw [hs']
    exact hidle.active
  · refine ⟨s.destructor, s.stack main, by simp [hs', setStack], ?_, ?_⟩
    · exact fun hmem => (not_mem_destructor hmem).2.2 rfl
    · rw [hs']
      refine ⟨?_, Or.inl (by simp [destructor]), Or.inl (by simp [destructor]), ?_⟩
      · intro loop hloop
        left
        simp only [destructor, List.mem_append, List.mem_cons, List.mem_flatMap]
        exact Or.inl (Or.inr ⟨loop, hloop, by simp⟩)
      · intro k hk hloop
        by_cases hreg : s.Registered k
        · exact Or.inl hreg
        · exact Or.inr (Or.inr (hunwatched k hk.2 hk.1 hloop hreg))
  · intro hlife
    rw [hs'] at hlife
    cases hlife

omit [DecidableEq T] in
theorem Leaving.cleared (h : Leaving main s) {t : T} {rest : List (ServerInstr T)}
    (htop : s.stack t = .destroyed :: rest) : t = main ∧ s.life ≠ .alive ∧ Cleared main s [] := by
  obtain ⟨rfl, hlife⟩ := h.ends t .destroyed (List.mem_append_left _ (by simp [htop])) rfl
  refine ⟨rfl, hlife, ?_⟩
  cases hl : s.life with
  | alive => exact absurd hl hlife
  | inDestructor =>
    obtain ⟨above, below, hstack, hnot, hcleared⟩ := h.inside hl
    cases above with
    | nil => exact hcleared
    | cons i above =>
      rw [hstack, List.cons_append, List.cons.injEq] at htop
      rw [htop.1] at hnot
      exact absurd (List.mem_cons_self ..) hnot
  | destroyed => exact h.after hl

theorem Leaving.inside_step (h : Leaving main s) (hpool : PoolThreads main s) (hnum : Numbered s)
    {l : ServerLabel T} (hgood : LeavesQuietly main s l) (hs : Steps main s l s')
    (hlife : s.life = .inDestructor) (hlife' : s'.life = .inDestructor) :
    ∃ above below, s'.stack main = above ++ .destroyed :: below ∧ .destroyed ∉ above ∧
      Cleared main s' above := by
  have halive : s.life ≠ .alive := by simp [hlife]
  have hupdates : ∀ k, s.loopOf k = main → ¬ s.Registered k →
      (s.connection k).conn.channel_.registered = none →
      ∀ t o head rest i, l = .exec t o → s.stack t = head :: rest →
        head.ofConnection = some (k, i) → (s.shared k).updates i o = false := by
    intro k hloop hreg hnone t o head rest i hl htop hi
    exact hgood.not_updates halive hloop hreg hnone hl htop hi
  obtain ⟨above, below, hstack, hnot, hcleared⟩ := h.inside hlife
  cases stack_step hs hlife hlife' (by simp [hstack]) with
  | grows new hnew hfresh hl =>
    refine ⟨new ++ above, below, by rw [hnew, hstack, List.append_assoc],
      by simp [hfresh, hnot], ?_⟩
    refine hcleared.step (h.idle halive) hpool hnum hs hupdates ?_ ?_
    · exact fun i hi => Or.inl (List.mem_append_right _ hi)
    · exact fun k hk => absurd hk (hl k)
  | pops head rest new htop hnew hhead hfresh hreplaces hclears =>
    cases above with
    | nil =>
      rw [hstack, List.nil_append, List.cons.injEq] at htop
      exact absurd htop.1.symm hhead
    | cons i above =>
      rw [hstack, List.cons_append, List.cons.injEq] at htop
      obtain ⟨rfl, rfl⟩ := htop
      refine ⟨new ++ above, below, by rw [hnew, List.append_assoc], ?_, ?_⟩
      · simp only [List.mem_cons, not_or] at hnot
        simp [hfresh, hnot.2]
      · refine hcleared.step (h.idle halive) hpool hnum hs hupdates ?_ ?_
        · intro j hj
          rcases List.mem_cons.mp hj with rfl | hj
          · exact Or.inr (hreplaces.mono (List.subset_append_left _ _))
          · exact Or.inl (List.mem_append_right _ hj)
        · intro k hk hloop
          obtain ⟨j, hj, hc⟩ := hclears k hk hloop
          exact ⟨j, List.mem_append_left _ hj, hc⟩

theorem leaving_step (h : Leaving main s) (hpool : PoolThreads main s) (hplaced : Placed main s)
    (hnum : Numbered s) {l : ServerLabel T} (hgood : LeavesQuietly main s l)
    (hs : Steps main s l s') : Leaving main s' := by
  have hends := endsOnce_step h.ends hs
  have hidle : s.life ≠ .alive → Idle main s' := by
    intro hlife
    refine (h.idle hlife).step hs hlife (h.unreported hlife) ?_
    intro t o head rest k hl htop hi
    exact h.close_main hpool hplaced hnum hlife hgood hl htop hi
  rcases life_step hs with ⟨hsame, _⟩ | ⟨rfl, hs'⟩ | ⟨t, o, rest, rfl, htop, hs'⟩
  · refine ⟨hends, ?_, ?_, ?_⟩
    · intro hlife
      rw [hsame] at hlife
      exact hidle hlife
    · intro hlife
      exact h.inside_step hpool hnum hgood hs (hsame.symm.trans hlife) hlife
    · intro hlife
      have hbefore : s.life = .destroyed := hsame.symm.trans hlife
      have halive : s.life ≠ .alive := by simp [hbefore]
      have hcleared := h.after hbefore
      refine hcleared.step (h.idle halive) hpool hnum hs ?_ (by simp) ?_
      · intro k hloop hreg hnone t o head rest i hl htop hi
        exact hgood.not_updates halive hloop hreg hnone hl htop hi
      · rintro k rfl -
        have hempty := hcleared.connections.resolve_left (List.not_mem_nil)
        cases hs with
        | destroyNext _ rest htop hk hreg => exact absurd hreg (not_registered_of_empty hempty k)
        | pointers _ j n hj hl => obtain ⟨t, hl | hl⟩ := hl <;> cases hl
  · exact leaving_destroy hends hgood.1 hgood.2 hs'
  · obtain ⟨rfl, hlife, hcleared⟩ := h.cleared htop
    refine ⟨hends, fun _ => hidle hlife, ?_, fun _ => ?_⟩
    · intro hinside
      rw [hs'] at hinside
      cases hinside
    · rw [hs']
      exact ⟨hcleared.joined, hcleared.acceptor, hcleared.connections, hcleared.channels⟩

omit [DecidableEq T] in
theorem leaving_init (h : Init main s) : Leaving main s where
  ends := endsOnce_init h
  idle hlife := absurd h.life hlife
  inside hlife := by
    rw [h.life] at hlife
    cases hlife
  after hlife := by
    rw [h.life] at hlife
    cases hlife

theorem leaving_of_reachable (h : (system main).Reachable (LeavesQuietly main) s) :
    Leaving main s := by
  apply h.invariant_of (J := fun s => PoolThreads main s ∧ Placed main s ∧ Numbered s)
    (fun _ hs => ⟨poolThreads_of_reachable hs, placed_of_reachable hs, numbered_of_reachable hs⟩)
  · exact fun _ => leaving_init
  · intro s l s' hi hj hgood hs
    exact leaving_step hi hj.1 hj.2.1 hj.2.2 hgood (steps_of_step hs.2)

/-- In every run in which the server is left quietly: what a thread executes
after the destructor has returned calls neither `removeConnection` nor
`removeConnectionInLoop` nor `newConnection`. -/
theorem destroyed_server_not_called (h : (system main).Reachable (LeavesQuietly main) s)
    (hlife : s.life = .destroyed) : ∀ t, ∀ i ∈ (s.stack t).head?, i.callsServer = false := by
  intro t i hi
  have hidle : Idle main s := (leaving_of_reachable h).idle (by simp [hlife])
  have hmem : i ∈ s.work t := List.mem_append_left _ (List.mem_of_mem_head? hi)
  by_contra hcalls
  have hserver := ServerInstr.ofServer_of_callsServer (by simpa using hcalls)
  rw [hidle.work t i hmem] at hserver
  cases hserver

open ConnectionRun (silent)

/-- The server is destroyed with a connection that is open. -/
theorem destroyed_server_not_called_open :
    ∃ s : ServerRun ConnectionRun.Party, s.life = .destroyed ∧
      ∀ t, ∀ i ∈ (s.stack t).head?, i.callsServer = false := by
  have hrun : (TransitionSystem.replay (TransitionSystem.guarded (LeavesQuietly .main)
      (TransitionSystem.guarded Permitted (step .main))) (newServer 1)
      (List.flatten [listening, accepting 7, establishing,
        [.control .main (.pollReturn false), .call .main .destroy, .destroyNext 1], execs .main 8,
        wakeToRun .io, execs .io 6, [.control .io .endBody], backToPoll .io, execs .main 3])).map
      ServerRun.life = some .destroyed := by decide +kernel
  obtain ⟨s, hs, hlife⟩ := exists_reachable_of_replay (init_newServer 1) _ hrun
  exact ⟨s, hlife, destroyed_server_not_called hs hlife⟩

/-- A connection hangs up before the server is destroyed, and the functor of
`removeConnection` still waits on the server's loop. -/
theorem destroyed_server_called :
    ∃ s s' : ServerRun ConnectionRun.Party, (system .main).Reachable TransitionSystem.AnyStep s ∧
      s.life = .destroyed ∧
      (∃ i ∈ (s.stack .main).head?, i = .call (.connection 1 .removeConnectionInLoop) ∧
        i.callsServer = true) ∧
      (system .main).Step s (.exec .main silent) s' := by
  have hrun : (TransitionSystem.replay (TransitionSystem.guarded TransitionSystem.AnyStep
      (TransitionSystem.guarded Permitted (step .main))) (newServer 1)
      (List.flatten [listening, accepting 7, establishing, hangingUp 1,
        [.control .main (.pollReturn true), .call .main .destroy, .destroyNext 1], execs .main 8,
        wakeToRun .io, execs .io 2, [.control .io .endBody], backToPoll .io, execs .main 3,
        [.control .main .handleRead, .control .main .endDispatch, .control .main .swap,
          .control .main .runNext]])).map
      (fun s => (s.life, s.stack .main))
      = some (.destroyed, [.call (.connection 1 .removeConnectionInLoop)]) := by decide +kernel
  obtain ⟨s, hs, hobs⟩ := exists_reachable_of_replay (init_newServer 1) _ hrun
  obtain ⟨hlife, hstack⟩ := Prod.mk.inj hobs
  have hstep : (system .main).Step s (.exec .main silent) _ :=
    ⟨trivial, by simp only [step, exec, hstack]; rfl⟩
  exact ⟨s, _, hs, hlife, ⟨_, by rw [hstack]; rfl, rfl, rfl⟩, hstep⟩

end ServerRun
end MuduoCore
