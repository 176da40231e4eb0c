import MuduoCore.Connection.SendPath
import MuduoCore.Foundation.TransitionSystem

/-!
# The output of an open connection, in any order of executions

`sendInLoop`, `handleWrite` and `shutdownInLoop` are executed on the loop's
thread in any order, with any outcome of their writes. `handleWrite` tests
`state_` after it has drained the buffer; in between, as everywhere else,
another thread's `shutdown` may store `kDisconnecting`.
-/

namespace MuduoCore

inductive OutputLabel
  | sendInLoop (data : List Byte) (o : Outcome)
  | handleWrite (o : Outcome)
  /-- the end of a `handleWrite` that has drained the buffer -/
  | testState
  | shutdownInLoop
  /-- the store of `shutdown()` -/
  | setDisconnecting
  deriving DecidableEq, Repr

structure OutputRun where
  conn : TcpConnection
  /-- `handleWrite` has drained the buffer, and has yet to test `state_` -/
  drained : Bool
  /-- a `shutdownInLoop` functor has run -/
  shutdownRan : Bool
  /-- the payloads executed, without those that were dropped for `EPIPE` or `ECONNRESET` -/
  kept : List Byte
  /-- the latest execution that wrote anything queued `writeCompleteCallback_` -/
  signalled : Bool

/-- `sendInLoop` gives its payload up, and the peer is gone indeed. -/
def TcpConnection.dropsForPeer (c : TcpConnection) (o : Outcome) : Bool :=
  c.writesDirectly && o.faultError && (c.directError o).any Errno.isFault

/-- An open connection that has sent nothing so far. -/
structure TcpConnection.Fresh (c : TcpConnection) : Prop where
  connected : c.state_ = .kConnected
  written : c.written = []
  readable : c.outputBuffer_.readable = []
  notWriting : c.isWriting = false
  halfClosed : c.halfClosed = false

namespace OutputRun

def start (c : TcpConnection) : OutputRun := ⟨c, false, false, [], false⟩

def queued (s : OutputRun) : OutputLabel → List (Functor (List Byte))
  | .sendInLoop data o => (s.conn.sendInLoop data o).2
  | .handleWrite o => (s.conn.handleWrite o).2.1
  | _ => []

def executesShutdownWrite (s : OutputRun) : OutputLabel → Bool
  | .testState => s.conn.state_ = .kDisconnecting && !s.conn.isWriting
  | .shutdownInLoop => !s.conn.isWriting
  | _ => false

def store (s : OutputRun) (c : TcpConnection) (queued : List (Functor (List Byte))) : OutputRun :=
  { s with
    conn := c
    signalled := if s.conn.written.length < c.written.length then queued.contains .writeComplete
      else s.signalled }

def next (s : OutputRun) : OutputLabel → Option OutputRun
  | .sendInLoop data o =>
    if s.drained then none
    else
      let r := s.conn.sendInLoop data o
      some { s.store r.1 r.2 with
        kept := s.kept ++ if s.conn.dropsForPeer o then [] else data }
  | .handleWrite o =>
    if s.drained then none
    else
      let r := s.conn.handleWrite o
      some { s.store r.1 r.2.1 with drained := r.2.2 }
  | .testState =>
    if s.drained then some { s with conn := s.conn.halfCloseIfDisconnecting, drained := false }
    else none
  | .shutdownInLoop =>
    if s.drained = false ∧ s.conn.state_ = .kDisconnecting then
      some { s with conn := s.conn.shutdownInLoop, shutdownRan := true }
    else none
  | .setDisconnecting => some { s with conn := { s.conn with state_ := .kDisconnecting } }

def system : TransitionSystem OutputRun OutputLabel where
  Init s := s.conn.Fresh ∧ s = start s.conn
  Step s l s' := s.next l = some s'

variable {P : Type*} {s s' : OutputRun} {l : OutputLabel}

theorem next_cases (h : s.next l = some s') :
    (∃ data o, l = .sendInLoop data o ∧ s.drained = false ∧
      s' = { s.store (s.conn.sendInLoop (P := List Byte) data o).1 (s.queued l) with
        kept := s.kept ++ if s.conn.dropsForPeer o then [] else data }) ∨
    (∃ o, l = .handleWrite o ∧ s.drained = false ∧
      s' = { s.store (s.conn.handleWrite (P := List Byte) o).1 (s.queued l) with
        drained := (s.conn.handleWrite (P := List Byte) o).2.2 }) ∨
    (l = .testState ∧ s.drained = true ∧
      s' = { s with conn := s.conn.halfCloseIfDisconnecting, drained := false }) ∨
    (l = .shutdownInLoop ∧ s.drained = false ∧ s.conn.state_ = .kDisconnecting ∧
      s' = { s with conn := s.conn.shutdownInLoop, shutdownRan := true }) ∨
    (l = .setDisconnecting ∧
      s' = { s with conn := { s.conn with state_ := .kDisconnecting } }) := by
  cases l with
  | sendInLoop data o =>
    rw [next, Option.ite_none_left_eq_some] at h
    exact .inl ⟨data, o, rfl, by simpa using h.1, (Option.some.inj h.2).symm⟩
  | handleWrite o =>
    rw [next, Option.ite_none_left_eq_some] at h
    exact .inr (.inl ⟨o, rfl, by simpa using h.1, (Option.some.inj h.2).symm⟩)
  | testState =>
    rw [next, Option.ite_none_right_eq_some] at h
    exact .inr (.inr (.inl ⟨rfl, h.1, (Option.some.inj h.2).symm⟩))
  | shutdownInLoop =>
    rw [next, Option.ite_none_right_eq_some] at h
    exact .inr (.inr (.inr (.inl ⟨rfl, h.1.1, h.1.2, (Option.some.inj h.2).symm⟩)))
  | setDisconnecting =>
    exact .inr (.inr (.inr (.inr ⟨rfl, (Option.some.inj h).symm⟩)))

/-! ## The half-close -/

/-- Write interest, buffer, state and half-close stay linked. -/
structure Linked (s : OutputRun) : Prop where
  interest : s.conn.InterestMatches
  drained : s.drained = true → s.conn.outputBuffer_.readable = []
  disconnecting : s.shutdownRan = true → s.conn.state_ = .kDisconnecting
  halfClosed : s.shutdownRan = true → s.drained = false → s.conn.outputBuffer_.readable = [] →
    s.conn.halfClosed = true

theorem linked_start {c : TcpConnection} (h : c.Fresh) : Linked (start c) := by
  refine ⟨?_, fun hd => ?_, fun hr => ?_, fun hr => ?_⟩
  · simp [TcpConnection.InterestMatches, start, h.notWriting, h.readable]
  all_goals simp [start] at *

theorem halfClosed_of_shutdownInLoop {c : TcpConnection} (h : c.InterestMatches)
    (hempty : c.outputBuffer_.readable = []) : c.shutdownInLoop.halfClosed = true := by
  have hoff : ¬ c.isWriting = true := fun hon => h.mp hon hempty
  rw [TcpConnection.shutdownInLoop, if_neg hoff]

theorem shutdownInLoop_outputBuffer (c : TcpConnection) :
    c.shutdownInLoop.outputBuffer_ = c.outputBuffer_ := by
  rcases c.shutdownInLoop_cases with h | ⟨_, h⟩ <;> rw [h]

theorem interestMatches_of_eq {c c' : TcpConnection} (hchannel : c'.channel_ = c.channel_)
    (hbuffer : c'.outputBuffer_ = c.outputBuffer_) (h : c.InterestMatches) :
    c'.InterestMatches := by
  simpa only [TcpConnection.InterestMatches, TcpConnection.isWriting, hchannel, hbuffer] using h

theorem readable_of_sendInLoop {c : TcpConnection} {data : List Byte} {o : Outcome}
    (h : (c.sendInLoop (P := P) data o).1.outputBuffer_.readable = []) :
    c.outputBuffer_.readable = [] := by
  by_cases hl : c.leavesRest data.length o = true
  · rw [TcpConnection.sendInLoop_of_leavesRest c data o hl] at h
    simp only [SafeBuffer.readable_append, List.append_eq_nil_iff] at h
    exact h.1
  · rwa [TcpConnection.sendInLoop_of_not_leavesRest c data o hl] at h

theorem drained_of_handleWrite {c : TcpConnection} {o : Outcome}
    (h : (c.handleWrite (P := P) o).1.outputBuffer_.readable = []) :
    (c.handleWrite (P := P) o).2.2 = true ∨ (c.handleWrite (P := P) o).1 = c := by
  rcases c.handleWrite_eq (P := P) o with hc | ⟨_, _, hr, hc⟩ | ⟨_, _, _, hc⟩
  · exact Or.inr (congrArg Prod.fst hc)
  · rw [hc] at h
    exact absurd h hr
  · exact Or.inl (congrArg (fun r => r.2.2) hc)

theorem readable_of_drained {c : TcpConnection} {o : Outcome}
    (h : (c.handleWrite (P := P) o).2.2 = true) :
    (c.handleWrite (P := P) o).1.outputBuffer_.readable = [] := by
  rcases c.handleWrite_eq (P := P) o with hc | ⟨_, _, _, hc⟩ | ⟨_, _, hr, hc⟩
  · simp [hc] at h
  · simp [hc] at h
  · rw [hc]
    exact hr

theorem Linked.step (h : Linked s) (hs : s.next l = some s') : Linked s' := by
  obtain ⟨data, o, rfl, hd, rfl⟩ | ⟨o, rfl, hd, rfl⟩ | ⟨rfl, hd, rfl⟩ | ⟨rfl, hd, hstate, rfl⟩ |
    ⟨rfl, rfl⟩ := next_cases hs
  · refine ⟨?_, ?_, ?_, ?_⟩
    · exact s.conn.sendInLoop_interestMatches data o h.interest
    · intro hdrained
      rw [show s.drained = true from hdrained] at hd
      cases hd
    · intro hran
      simpa [store] using h.disconnecting hran
    · intro hran _ hempty
      simpa [store] using h.halfClosed hran hd (readable_of_sendInLoop hempty)
  · refine ⟨?_, ?_, ?_, ?_⟩
    · exact s.conn.handleWrite_interestMatches o h.interest
    · exact readable_of_drained
    · intro hran
      simpa [store] using h.disconnecting hran
    · intro hran hnot hempty
      rcases drained_of_handleWrite hempty with hdrained | hsame
      · rw [show (s.conn.handleWrite (P := List Byte) o).2.2 = false from hnot] at hdrained
        cases hdrained
      · simp only [store, hsame] at hempty ⊢
        exact h.halfClosed hran hd hempty
  · have hbuffer := s.conn.halfCloseIfDisconnecting_outputBuffer
    refine ⟨?_, ?_, ?_, ?_⟩
    · exact interestMatches_of_eq s.conn.halfCloseIfDisconnecting_channel hbuffer h.interest
    · simp
    · intro hran
      simpa using h.disconnecting hran
    · intro hran _ _
      simp only [TcpConnection.halfCloseIfDisconnecting, h.disconnecting hran, if_true]
      exact halfClosed_of_shutdownInLoop h.interest (h.drained hd)
  · have hbuffer := shutdownInLoop_outputBuffer s.conn
    refine ⟨?_, ?_, ?_, ?_⟩
    · exact interestMatches_of_eq s.conn.shutdownInLoop_channel hbuffer h.interest
    · intro hdrained
      rw [show s.drained = true from hdrained] at hd
      cases hd
    · intro _
      simpa using hstate
    · intro _ _ hempty
      exact halfClosed_of_shutdownInLoop h.interest (hbuffer ▸ hempty)
  · exact ⟨h.interest, h.drained, fun _ => rfl, h.halfClosed⟩

theorem linked_of_reachable (h : system.Reachable TransitionSystem.AnyStep s) : Linked s :=
  h.invariant (fun _ ⟨hfresh, hs⟩ => hs ▸ linked_start hfresh)
    fun _ _ _ hl _ hs => hl.step hs

/-- The half-close happens in the steps named by `executesShutdownWrite`. -/
theorem halfClosed_step (hs : s.next l = some s') :
    s'.conn.halfClosed = (s.conn.halfClosed || s.executesShutdownWrite l) := by
  obtain ⟨data, o, rfl, hd, rfl⟩ | ⟨o, rfl, hd, rfl⟩ | ⟨rfl, hd, rfl⟩ | ⟨rfl, hd, hstate, rfl⟩ |
    ⟨rfl, rfl⟩ := next_cases hs
  · simp [store, executesShutdownWrite]
  · simp [store, executesShutdownWrite]
  · simp only [TcpConnection.halfCloseIfDisconnecting, TcpConnection.shutdownInLoop,
      executesShutdownWrite]
    split_ifs with hstate hw <;> simp [*]
  · simp only [TcpConnection.shutdownInLoop, executesShutdownWrite]
    split_ifs with hw <;> simp [hw]
  · simp [executesShutdownWrite]

/-- Whatever the order of the executions and the outcomes of the writes,
`shutdownWrite` never runs while bytes wait, and once a `shutdownInLoop` has run
and no byte waits, it has run. -/
theorem half_close_kept_with_output (h : system.Reachable TransitionSystem.AnyStep s) :
    (∀ l s', s.next l = some s' →
      s'.conn.halfClosed = (s.conn.halfClosed || s.executesShutdownWrite l) ∧
        (s.executesShutdownWrite l = true → s.conn.outputBuffer_.readableBytes = 0)) ∧
    (s.shutdownRan = true → s.drained = false → s.conn.outputBuffer_.readableBytes = 0 →
      s.conn.halfClosed = true) := by
  have hlinked := linked_of_reachable h
  simp only [SafeBuffer.readableBytes_eq, List.length_eq_zero_iff]
  refine ⟨?_, hlinked.halfClosed⟩
  intro l s' hs
  refine ⟨halfClosed_step hs, fun hexec => ?_⟩
  have hoff : s.conn.isWriting = false := by
    cases l with
    | testState =>
      simp only [executesShutdownWrite, Bool.and_eq_true, Bool.not_eq_true'] at hexec
      exact hexec.2
    | shutdownInLoop => simpa [executesShutdownWrite] using hexec
    | _ => simp [executesShutdownWrite] at hexec
  by_contra hne
  rw [hlinked.interest.mpr hne] at hoff
  cases hoff

def established (writeComplete : Bool) : TcpConnection :=
  { (TcpConnection.create 7 writeComplete).changeInterest .enableReading with
    state_ := .kConnected }

theorem fresh_established (writeComplete : Bool) : (established writeComplete).Fresh := by
  cases writeComplete <;> exact ⟨rfl, rfl, by decide +kernel, by decide +kernel, rfl⟩

theorem reachable_start (writeComplete : Bool) {Good : OutputRun → OutputLabel → Prop} :
    system.Reachable Good (start (established writeComplete)) :=
  .init ⟨fresh_established writeComplete, rfl⟩

/-- The half-close is asked for while two bytes wait, and while `handleWrite`
has drained them and has not tested `state_` yet. -/
theorem half_close_kept_with_output_late :
    ∃ s, system.Reachable TransitionSystem.AnyStep s ∧ s.conn.written = [1, 2, 3] ∧
      s.conn.halfClosed = true := by
  have hrun : (TransitionSystem.replay next (start (established false))
      [.sendInLoop [1, 2, 3] ⟨.ok 1, .EWOULDBLOCK⟩, .setDisconnecting, .shutdownInLoop,
        .handleWrite ⟨.ok 2, .EWOULDBLOCK⟩, .testState]).map
      (fun s => (s.conn.written, s.conn.outputBuffer_.readableBytes, s.shutdownRan, s.drained)) =
        some ([1, 2, 3], 0, true, false) := by decide +kernel
  obtain ⟨s, hs, hobs⟩ := TransitionSystem.exists_reachable_of_replay (S := system)
    (fun _ _ _ hnext => ⟨trivial, hnext⟩) (reachable_start false) _ hrun
  simp only [Prod.mk.injEq] at hobs
  obtain ⟨hwritten, hempty, hran, hdrained⟩ := hobs
  exact ⟨s, hs, hwritten, (half_close_kept_with_output hs).2 hran hdrained hempty⟩

/-! ## The callback for written output -/

/-- A direct write and its log, for a payload that is not empty. -/
def Paces (s : OutputRun) : OutputLabel → Prop
  | .sendInLoop data o => data ≠ [] ∧ (s.conn.writesDirectly = true → o.LogKeepsOther)
  | _ => True

instance (s : OutputRun) (l : OutputLabel) : Decidable (Paces s l) := by
  cases l <;> unfold Paces <;> infer_instance

theorem count_sendInLoop {c : TcpConnection} {data : List Byte} {o : Outcome}
    (hcallback : c.writeCompleteCallback_ = true) (hdata : data ≠ []) :
    (c.sendInLoop (P := List Byte) data o).2.count .writeComplete =
      if c.written.length < (c.sendInLoop (P := List Byte) data o).1.written.length ∧
        (c.sendInLoop (P := List Byte) data o).1.outputBuffer_.readable = [] then 1 else 0 := by
  by_cases hl : c.leavesRest data.length o = true
  · have hwaits : (c.sendInLoop (P := List Byte) data o).1.outputBuffer_.readable ≠ [] := by
      rw [TcpConnection.sendInLoop_of_leavesRest c data o hl]
      simp only [TcpConnection.leavesRest, Bool.and_eq_true, decide_eq_true_eq] at hl
      simp only [SafeBuffer.readable_append, Ne, List.append_eq_nil_iff, List.drop_eq_nil_iff]
      omega
    have hnot : ¬ (c.written.length < (c.sendInLoop (P := List Byte) data o).1.written.length ∧
        (c.sendInLoop (P := List Byte) data o).1.outputBuffer_.readable = []) :=
      fun h => hwaits h.2
    rw [if_neg hnot, TcpConnection.queued_of_leavesRest hl]
    split_ifs <;> rfl
  · have hpos : 0 < data.length := List.length_pos_iff.mpr hdata
    rw [TcpConnection.sendInLoop, if_neg hl]
    rcases c.nwrote_of_not_leavesRest o hl with ⟨hf, hn⟩ | ⟨hf, hle⟩
    · have hfailed : o.succeeded = false :=
        TcpConnection.succeeded_of_faultError (Bool.and_eq_true_iff.mp hf).2
      simp [hn, hfailed]
    · have hdirect : c.writesDirectly = true := by
        by_contra hnot
        rw [TcpConnection.nwrote, if_neg hnot] at hle
        omega
      have hwritten : o.succeeded = true := by
        rw [TcpConnection.nwrote, if_pos hdirect, Outcome.count] at hle
        unfold Outcome.succeeded
        cases hr : o.result with
        | ok n => rfl
        | error e =>
          rw [hr] at hle
          simp only [nonpos_iff_eq_zero] at hle
          omega
      have hempty : c.outputBuffer_.readable = [] := by
        simp only [TcpConnection.writesDirectly, Bool.and_eq_true, decide_eq_true_eq,
          SafeBuffer.readableBytes_eq, List.length_eq_zero_iff] at hdirect
        exact hdirect.2
      simp [hdirect, hwritten, hcallback, hempty, hpos, List.take_of_length_le hle]

theorem count_handleWrite {c : TcpConnection} {o : Outcome}
    (hcallback : c.writeCompleteCallback_ = true) (hinterest : c.InterestMatches) :
    (c.handleWrite (P := List Byte) o).2.1.count .writeComplete =
      if c.written.length < (c.handleWrite (P := List Byte) o).1.written.length ∧
        (c.handleWrite (P := List Byte) o).1.outputBuffer_.readable = [] then 1 else 0 := by
  rcases c.handleWrite_eq (P := List Byte) o with hc | ⟨_, _, hr, hc⟩ | ⟨hw, hpos, hr, hc⟩
  · simp [hc]
  · rw [hc, if_neg fun h => hr h.2]
    rfl
  · have hne : 0 < c.outputBuffer_.readable.length := List.length_pos_iff.mpr (hinterest.mp hw)
    have hgrows : c.written.length <
        ((c.retrieveWritten o.count).changeInterest .disableWriting).written.length := by
      simp only [TcpConnection.changeInterest, TcpConnection.retrieveWritten, List.length_append,
        List.length_take]
      omega
    rw [hc, if_pos hcallback]
    exact (if_pos ⟨hgrows, hr⟩).symm

/-- A payload that is dropped by an execution that `Paces` admits was dropped
for the peer. -/
theorem dropsForPeer_eq {c : TcpConnection} {o : Outcome}
    (h : c.writesDirectly = true → o.LogKeepsOther) :
    c.dropsForPeer o = (c.writesDirectly && o.faultError) := by
  unfold TcpConnection.dropsForPeer
  cases hf : c.writesDirectly && o.faultError with
  | false => rfl
  | true =>
    obtain ⟨e, herror, hpeer⟩ := c.directError_of_faultError o hf h
    simp [herror, hpeer]

/-- What has been kept is what has been written, then what waits; and the latest
execution that wrote, if nothing waits, has queued the callback. -/
structure Balanced (s : OutputRun) : Prop where
  interest : s.conn.InterestMatches
  output : s.conn.output = s.kept
  signalled : s.conn.writeCompleteCallback_ = true → s.conn.outputBuffer_.readable = [] →
    s.conn.written ≠ [] → s.signalled = true

theorem balanced_start {c : TcpConnection} (h : c.Fresh) : Balanced (start c) := by
  refine ⟨?_, ?_, ?_⟩
  · simp [TcpConnection.InterestMatches, start, h.notWriting, h.readable]
  · simp [TcpConnection.output, start, h.written, h.readable]
  · intro _ _ hne
    exact absurd h.written hne

theorem written_sendInLoop (c : TcpConnection) (data : List Byte) (o : Outcome) :
    (c.sendInLoop (P := P) data o).1.written = c.written ++ data.take (c.nwrote o) ∧
      (c.sendInLoop (P := P) data o).1.writeCompleteCallback_ = c.writeCompleteCallback_ := by
  by_cases hl : c.leavesRest data.length o = true
  · rw [TcpConnection.sendInLoop_of_leavesRest c data o hl]
    exact ⟨rfl, rfl⟩
  · rw [TcpConnection.sendInLoop_of_not_leavesRest c data o hl]
    exact ⟨rfl, rfl⟩

theorem written_handleWrite (c : TcpConnection) (o : Outcome) :
    c.written <+: (c.handleWrite (P := P) o).1.written ∧
      (c.handleWrite (P := P) o).1.writeCompleteCallback_ = c.writeCompleteCallback_ := by
  rcases c.handleWrite_cases (P := P) o with h | ⟨_, _, h⟩ | ⟨_, _, h⟩ <;> rw [h]
  · exact ⟨List.prefix_rfl, rfl⟩
  · exact ⟨List.prefix_append .., rfl⟩
  · exact ⟨List.prefix_append .., rfl⟩

theorem Balanced.signalled_store (h : Balanced s) {c : TcpConnection}
    {queue : List (Functor (List Byte))} {added : List Byte}
    (hset : c.writeCompleteCallback_ = s.conn.writeCompleteCallback_)
    (hwritten : s.conn.written <+: c.written) (houtput : c.output = s.conn.output ++ added)
    (hcount : s.conn.writeCompleteCallback_ = true → queue.count .writeComplete =
      if s.conn.written.length < c.written.length ∧ c.outputBuffer_.readable = [] then 1 else 0)
    (hcallback : c.writeCompleteCallback_ = true) (hempty : c.outputBuffer_.readable = [])
    (hne : c.written ≠ []) : (s.store c queue).signalled = true := by
  simp only [store]
  split_ifs with hgrows
  · have hone := hcount (hset ▸ hcallback)
    rw [if_pos ⟨hgrows, hempty⟩] at hone
    have hmem : .writeComplete ∈ queue := List.count_pos_iff.mp (by omega)
    simpa using hmem
  · have hsame : s.conn.written = c.written := hwritten.eq_of_length_le (by omega)
    have hwaits : s.conn.outputBuffer_.readable = [] := by
      simp only [TcpConnection.output, hsame, hempty, List.append_nil, List.append_assoc,
        List.self_eq_append_right, List.append_eq_nil_iff] at houtput
      exact houtput.1
    exact h.signalled (hset ▸ hcallback) hwaits (hsame ▸ hne)

theorem Balanced.step (h : Balanced s) (hgood : Paces s l) (hs : s.next l = some s') :
    Balanced s' := by
  obtain ⟨data, o, rfl, hd, rfl⟩ | ⟨o, rfl, hd, rfl⟩ | ⟨rfl, hd, rfl⟩ | ⟨rfl, hd, hstate, rfl⟩ |
    ⟨rfl, rfl⟩ := next_cases hs
  · obtain ⟨hwritten, hset⟩ := written_sendInLoop (P := List Byte) s.conn data o
    have houtput := s.conn.sendInLoop_output (P := List Byte) data o
    refine ⟨?_, ?_, ?_⟩
    · exact s.conn.sendInLoop_interestMatches data o h.interest
    · simp only [store, houtput, h.output, dropsForPeer_eq hgood.2]
    · exact h.signalled_store hset (hwritten ▸ List.prefix_append ..) houtput
        fun hcallback => count_sendInLoop hcallback hgood.1
  · obtain ⟨hwritten, hset⟩ := written_handleWrite (P := List Byte) s.conn o
    have houtput := s.conn.handleWrite_output (P := List Byte) o
    refine ⟨?_, ?_, ?_⟩
    · exact s.conn.handleWrite_interestMatches o h.interest
    · simp only [store, houtput, h.output]
    · exact h.signalled_store hset hwritten (houtput.trans (List.append_nil _).symm)
        fun hcallback => count_handleWrite hcallback h.interest
  · rcases s.conn.halfCloseIfDisconnecting_cases with hc | ⟨_, _, hc⟩ <;> rw [hc] <;>
      exact ⟨h.interest, h.output, h.signalled⟩
  · rcases s.conn.shutdownInLoop_cases with hc | ⟨_, hc⟩ <;> rw [hc] <;>
      exact ⟨h.interest, h.output, h.signalled⟩
  · exact ⟨h.interest, h.output, h.signalled⟩

theorem balanced_of_reachable (h : system.Reachable Paces s) : Balanced s :=
  h.invariant (fun _ ⟨hfresh, hs⟩ => hs ▸ balanced_start hfresh)
    fun _ _ _ hb hgood hs => hb.step hgood hs

theorem Balanced.written_eq_kept_iff (h : Balanced s) :
    s.conn.written = s.kept ↔ s.conn.outputBuffer_.readable = [] := by
  rw [← h.output, TcpConnection.output, List.self_eq_append_right]

/-- The callbacks of one step, counted. -/
theorem Balanced.count_queued (h : Balanced s) (hcallback : s.conn.writeCompleteCallback_ = true)
    (hgood : Paces s l) (hs : s.next l = some s') :
    (s.queued l).count .writeComplete =
      if s.conn.written.length < s'.conn.written.length ∧ s'.conn.outputBuffer_.readable = [] then
        1 else 0 := by
  obtain ⟨data, o, rfl, hd, rfl⟩ | ⟨o, rfl, hd, rfl⟩ | ⟨rfl, hd, rfl⟩ | ⟨rfl, hd, hstate, rfl⟩ |
    ⟨rfl, rfl⟩ := next_cases hs
  · exact count_sendInLoop hcallback hgood.1
  · exact count_handleWrite hcallback h.interest
  · rcases s.conn.halfCloseIfDisconnecting_cases with hc | ⟨_, _, hc⟩ <;> simp [hc, queued]
  · rcases s.conn.shutdownInLoop_cases with hc | ⟨_, hc⟩ <;> simp [hc, queued]
  · simp [queued]

/-- In any run without empty payloads in which logging never makes an error look
fatal, an execution queues `writeCompleteCallback_` once if it hands the last
byte that waits to the kernel, and not at all otherwise; then all that has been
kept is written. Where nothing waits, the execution that wrote last has queued it. -/
theorem write_complete_means_all_written (h : system.Reachable Paces s)
    (hcallback : s.conn.writeCompleteCallback_ = true) :
    (∀ l s', Paces s l → s.next l = some s' →
      (s.queued l).count .writeComplete =
        (if s.conn.written.length < s'.conn.written.length ∧ s'.conn.written = s'.kept then 1
          else 0) ∧
      (.writeComplete ∈ s.queued l → s'.conn.written = s'.kept)) ∧
    (s.conn.written = s.kept → s.conn.written ≠ [] → s.signalled = true) := by
  have hbalanced := balanced_of_reachable h
  constructor
  · intro l s' hgood hs
    have hbalanced' := hbalanced.step hgood hs
    have hcount := hbalanced.count_queued hcallback hgood hs
    simp only [hbalanced'.written_eq_kept_iff]
    refine ⟨hcount, fun hmem => ?_⟩
    have hpos := List.count_pos_iff.mpr hmem
    rw [hcount] at hpos
    split_ifs at hpos with hout
    · exact hout.2
    · cases hpos
  · intro hall hne
    exact hbalanced.signalled hcallback (hbalanced.written_eq_kept_iff.mp hall) hne

/-- A partial write, a payload behind it, and the drain of both. -/
theorem write_complete_means_all_written_drained :
    ∃ s, system.Reachable Paces s ∧ s.conn.written = [1, 2, 3] ∧ s.signalled = true := by
  have hrun : (TransitionSystem.replay (TransitionSystem.guarded Paces next)
      (start (established true))
      [.sendInLoop [1, 2] ⟨.ok 1, .EWOULDBLOCK⟩,
        .sendInLoop [3] ⟨.error .EWOULDBLOCK, .EWOULDBLOCK⟩,
        .handleWrite ⟨.ok 2, .EWOULDBLOCK⟩, .testState]).map
      (fun s => (s.conn.written, s.kept, s.conn.writeCompleteCallback_)) =
        some ([1, 2, 3], [1, 2, 3], true) := by decide +kernel
  obtain ⟨s, hs, hobs⟩ := TransitionSystem.exists_reachable_of_replay (S := system)
    (fun _ _ _ => TransitionSystem.guarded_eq_some.mp) (reachable_start true) _ hrun
  simp only [Prod.mk.injEq] at hobs
  obtain ⟨hwritten, hkept, hcallback⟩ := hobs
  exact ⟨s, hs, hwritten, (write_complete_means_all_written hs hcallback).2
    (hwritten.trans hkept.symm) (by simp [hwritten])⟩

/-- The write of a first byte fails for want of memory, and logging that leaves
`EPIPE`: the byte is given up. The next byte is written, and the callback queued,
while the first has never been. -/
theorem write_complete_after_lost_payload :
    ∃ s s', system.Reachable TransitionSystem.AnyStep s ∧
      s.conn.writeCompleteCallback_ = true ∧
      s.next (.sendInLoop [2] ⟨.ok 1, .EWOULDBLOCK⟩) = some s' ∧
      s.queued (.sendInLoop [2] ⟨.ok 1, .EWOULDBLOCK⟩) = [.writeComplete] ∧
      s'.kept = [1, 2] ∧ s'.conn.written = [2] := by
  have hrun : (TransitionSystem.replay next (start (established true))
      [.sendInLoop [1] ⟨.error (.other 105), .EPIPE⟩]).map
      (fun s => (s.conn.writeCompleteCallback_,
        s.queued (.sendInLoop [2] ⟨.ok 1, .EWOULDBLOCK⟩),
        (s.next (.sendInLoop [2] ⟨.ok 1, .EWOULDBLOCK⟩)).map fun s => (s.kept, s.conn.written))) =
        some (true, [.writeComplete], some ([1, 2], [2])) := by decide +kernel
  obtain ⟨s, hs, hobs⟩ := TransitionSystem.exists_reachable_of_replay (S := system)
    (fun _ _ _ hnext => ⟨trivial, hnext⟩) (reachable_start true) _ hrun
  simp only [Prod.mk.injEq, Option.map_eq_some_iff] at hobs
  obtain ⟨hcallback, hqueued, s', hs', hkept, hwritten⟩ := hobs
  exact ⟨s, s', hs, hcallback, hs', hqueued, hkept, hwritten⟩

end OutputRun
end MuduoCore
