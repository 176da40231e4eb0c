import MuduoCore.Connection.Establishment
import MuduoCore.Connection.OutputStream

/-!
# The callbacks of a connection

After the first callback the rest of the protocol is in one place at a time: a
report on the stack of the loop's thread, the instructions of `handleClose`, or
the removal on its way through the two loops. `Stage` says how far the
connection has been closed, and `Position` what is then left to run. Closing it
ends in a socket that nobody watches, so nothing can start again, provided that
no `sendInLoop` registers it once more.
-/

namespace MuduoCore

/-- How far the connection has been closed. -/
inductive Stage
  | up
  | closing
  | disconnected
  | unwatched
  | down
  | closed
  deriving DecidableEq, Repr

namespace Stage

def isUnwatched : Stage → Bool
  | unwatched | down | closed => true
  | _ => false

def isDisconnected : Stage → Bool
  | up | closing => false
  | _ => true

def isDown : Stage → Bool
  | down | closed => true
  | _ => false

end Stage

/-- What holds of a connection that has been closed that far. -/
structure Stage.Holds {T : Type*} (p : Stage) (s : Shared T) : Prop where
  closing : p ≠ .up → s.closing = true
  disconnected : p.isDisconnected = true → s.conn.state_ ≠ .kConnected
  reading : p.isUnwatched = false → s.conn.Reading
  unwatched : p.isUnwatched = true → s.conn.Unwatched
  callbacks : ∃ n, s.callbacks = .connection true ::
    (List.replicate n .message ++ if p.isDown then [.connection false] else [])
  closeCallbacks : s.closeCallbacks = if p = .closed then 1 else 0

/-- What is left of the protocol at a stage, and on which thread. -/
inductive Position {T : Type*} (io main : T) : Stage → T → List (Instr T) → Prop
  | idle : Position io main .up io []
  | hangUp : Position io main .up io [.handle .closeCallback]
  | read : Position io main .up io [.handle .readCallback]
  | message : Position io main .up io [.messageCallback]
  | setState : Position io main .closing io
      [.setState .kDisconnected, .changeInterest .disableAll, .connectionCallback, .closeCallback]
  | disableAll : Position io main .disconnected io
      [.changeInterest .disableAll, .connectionCallback, .closeCallback]
  | connectionCallback : Position io main .unwatched io [.connectionCallback, .closeCallback]
  | closeCallback : Position io main .down io [.closeCallback]
  | handOver : Position io main .closed io [.runInLoop main .removeConnectionInLoop]
  | queueRemoval : Position io main .closed io [.queueInLoop main .removeConnectionInLoop]
  | removeConnection : Position io main .closed main [.call .removeConnectionInLoop]
  | queueDestruction : Position io main .closed main [.queueInLoop io .connectDestroyed]
  | connectDestroyed : Position io main .closed io [.call .connectDestroyed]
  | remove : Position io main .closed io [.remove]
  | gone : Position io main .closed io []

theorem Position.idle_of_calls {T : Type*} {io main t : T} {p : Stage} {w : List (Instr T)}
    (h : Position io main p t w) (hp : p.isUnwatched = false)
    (hw : t = io → ∀ i ∈ w, ∃ f, i = .call f) : p = .up ∧ w = [] := by
  cases h with
  | idle => exact ⟨rfl, rfl⟩
  | hangUp | read | message | setState | disableAll =>
    obtain ⟨f, hf⟩ := hw rfl _ (List.mem_cons_self ..)
    cases hf
  | _ => cases hp

namespace ConnectionRun

variable {T : Type*} [DecidableEq T] {io main : T} {s s' : ConnectionRun T}

/-- `EPOLLPRI` is reported with a hangup, and no `EPOLLIN`. -/
def reportsTwice (c : TcpConnection) : Prop :=
  c.channel_.channel.revents_ &&& EPOLLHUP ≠ 0#32 ∧
    c.channel_.channel.revents_ &&& EPOLLIN = 0#32 ∧
    c.channel_.channel.revents_ &&& EPOLLPRI ≠ 0#32

instance (c : TcpConnection) : Decidable (reportsTwice c) :=
  inferInstanceAs (Decidable (_ ∧ _ ∧ _))

/-- A `sendInLoop` that runs while the connection is closing has nothing left
to append, and no report hangs up and reads at once. -/
def ClosesOnce (s : ConnectionRun T) : RunLabel T → Prop
  | .exec t o => ∀ i ∈ (s.stack t).head?, ∀ p ∈ i.payload, i.sends = true →
      s.closing = true → s.conn.leavesRest p.len o = false
  | .handleEvent => ¬ reportsTwice s.conn
  | _ => True

instance (s : ConnectionRun T) : (l : RunLabel T) → Decidable (ClosesOnce s l)
  | .exec t _ => inferInstanceAs (Decidable (∀ i ∈ (s.stack t).head?, ∀ p ∈ i.payload, _ → _))
  | .handleEvent => inferInstanceAs (Decidable (¬ _))
  | .control _ _ | .report _ _ | .call _ _ | .store _ _ _ => isTrue trivial

/-- The protocol after the first callback: a stage, and what is left of it. -/
def InProtocol (io main : T) (s : ConnectionRun T) : Prop :=
  ∃ p t w, p.Holds s.toShared ∧ Position io main p t w ∧ Only s t w ∧
    (s.active = true → p = .up ∧ w = [])

theorem reading_of_run {t : T} {i : Instr T} {o : Outcome} {s c : Shared T}
    {new : List (Instr T)} (h : s.conn.Reading) (hinterest : ∀ k, i ≠ .changeInterest k)
    (hremove : i ≠ .remove) (hr : s.run io main t i o = some (c, new)) : c.conn.Reading := by
  cases Shared.changes_of_run hr with
  | send p hc =>
    rw [hc]
    exact h.sendInLoop _ o
  | sendFile fileDescriptor offset count hc =>
    rw [hc, TcpConnection.Reading, TcpConnection.sendFileInLoop_channel]
    exact h
  | write hc =>
    rw [hc]
    exact h.handleWrite o
  | interest k hc => exact absurd rfl (hinterest k)
  | remove hc => exact absurd rfl hremove
  | shutdown hc =>
    rw [hc, TcpConnection.Reading, TcpConnection.shutdownInLoop_channel]
    exact h
  | drained hc =>
    rw [hc, TcpConnection.Reading, TcpConnection.halfCloseIfDisconnecting_channel]
    exact h
  | state state hc | same i hc =>
    rw [hc]
    exact h

/-- What neither changes the interest nor leaves a rest leaves an unwatched
channel alone, or removes it. -/
theorem channel_of_run {t : T} {i : Instr T} {o : Outcome} {s c : Shared T}
    {new : List (Instr T)} (h : s.conn.Unwatched) (hinterest : ∀ k, i ≠ .changeInterest k)
    (hrest : ∀ p ∈ i.payload, i.sends = true → s.conn.leavesRest p.len o = false)
    (hr : s.run io main t i o = some (c, new)) :
    c.conn.channel_ = s.conn.channel_ ∨ c.conn.channel_ = s.conn.channel_.remove := by
  cases Shared.changes_of_run hr with
  | send p hc =>
    left
    rw [hc, TcpConnection.sendInLoop_of_not_leavesRest]
    rw [Shared.length_payloadData, hrest p rfl rfl]
    simp
  | write hc =>
    left
    rw [hc, TcpConnection.handleWrite_of_not_isWriting _ o h.isWriting]
  | interest k hc => exact absurd rfl (hinterest k)
  | remove hc => exact Or.inr (by rw [hc])
  | sendFile fileDescriptor offset count hc =>
    exact Or.inl (by rw [hc, TcpConnection.sendFileInLoop_channel])
  | shutdown hc => exact Or.inl (by rw [hc, TcpConnection.shutdownInLoop_channel])
  | drained hc => exact Or.inl (by rw [hc, TcpConnection.halfCloseIfDisconnecting_channel])
  | state state hc | same i hc => exact Or.inl (by rw [hc])

theorem unwatched_of_run {t : T} {i : Instr T} {o : Outcome} {s c : Shared T}
    {new : List (Instr T)} (h : s.conn.Unwatched) (hinterest : ∀ k, i ≠ .changeInterest k)
    (hrest : ∀ p ∈ i.payload, i.sends = true → s.conn.leavesRest p.len o = false)
    (hr : s.run io main t i o = some (c, new)) : c.conn.Unwatched := by
  rcases channel_of_run h hinterest hrest hr with hc | hc
  · rwa [TcpConnection.Unwatched, hc]
  · rw [TcpConnection.Unwatched, hc]
    exact h.remove

theorem holds_run_other {p : Stage} {t : T} {i : Instr T} {o : Outcome} {s c : Shared T}
    {new : List (Instr T)} (h : p.Holds s) (hi : i.protocol = false)
    (hgood : ∀ q ∈ i.payload, i.sends = true → s.closing = true →
      s.conn.leavesRest q.len o = false)
    (hr : s.run io main t i o = some (c, new)) : p.Holds c := by
  have hframe := Shared.frame_of_run hr
  have hestablishes : i.establishes = false := by
    cases he : i.establishes with
    | false => rfl
    | true =>
      rw [Instr.protocol_of_establishes he] at hi
      cases hi
  have hinterest : ∀ k, i ≠ .changeInterest k := by
    rintro k rfl
    cases hi
  refine ⟨?_, ?_, ?_, ?_, ?_, ?_⟩
  · intro hp
    exact closing_of_run hr (h.closing hp)
  · intro hp
    exact state_of_run (h.disconnected hp) hestablishes hr
  · intro hp
    refine reading_of_run (h.reading hp) hinterest ?_ hr
    rintro rfl
    cases hi
  · intro hp
    have hclosing : s.closing = true := by
      apply h.closing
      rintro rfl
      cases hp
    exact unwatched_of_run (h.unwatched hp) hinterest (fun q hq hs => hgood q hq hs hclosing) hr
  · have hcb : c.callbacks = s.callbacks := by
      apply hframe.callbacks <;> rintro rfl <;> cases hi
    rw [hcb]
    exact h.callbacks
  · have hcb : c.closeCallbacks = s.closeCallbacks := by
      apply hframe.closeCallbacks
      rintro rfl
      cases hi
    rw [hcb]
    exact h.closeCallbacks

/-- The next instruction of the protocol goes on to the next position. -/
theorem position_run {p : Stage} {t : T} {i : Instr T} {o : Outcome} {s c : Shared T}
    {w new : List (Instr T)} (h : p.Holds s) (hpos : Position io main p t (i :: w))
    (hr : s.run io main t i o = some (c, new)) :
    ∃ p', Stage.Holds p' c ∧ Position io main p' t (new.filter Instr.protocol ++ w) := by
  obtain ⟨n, hn⟩ := h.callbacks
  cases hpos with
  | hangUp =>
    cases hr
    refine ⟨.closing, ⟨fun _ => rfl, by simp [Stage.isDisconnected], fun _ => h.reading rfl,
      by simp [Stage.isUnwatched], ⟨n, hn⟩, h.closeCallbacks⟩, .setState⟩
  | read =>
    cases hr
    refine ⟨.up, h, ?_⟩
    split_ifs
    · exact .hangUp
    · exact .message
    · exact .idle
  | message =>
    cases hr
    refine ⟨.up, ⟨h.closing, h.disconnected, h.reading, h.unwatched, ⟨n + 1, ?_⟩,
      h.closeCallbacks⟩, .idle⟩
    simp [hn, Stage.isDown, List.replicate_succ']
  | setState =>
    cases hr
    exact ⟨.disconnected, ⟨fun _ => h.closing (by simp), fun _ => by simp, fun _ => h.reading rfl,
      by simp [Stage.isUnwatched], ⟨n, hn⟩, h.closeCallbacks⟩, .disableAll⟩
  | disableAll =>
    cases hr
    exact ⟨.unwatched, ⟨fun _ => h.closing (by simp), fun _ => h.disconnected rfl,
      by simp [Stage.isUnwatched], fun _ => s.conn.unwatched_disableAll (h.reading rfl), ⟨n, hn⟩,
      h.closeCallbacks⟩, .connectionCallback⟩
  | connectionCallback =>
    have hconn : s.conn.connected = false := by
      simpa [TcpConnection.connected] using h.disconnected rfl
    cases hr
    refine ⟨.down, ⟨fun _ => h.closing (by simp), fun _ => h.disconnected rfl,
      by simp [Stage.isUnwatched], fun _ => h.unwatched rfl, ⟨n, ?_⟩, h.closeCallbacks⟩,
      .closeCallback⟩
    simp [hn, hconn, Stage.isDown]
  | closeCallback =>
    cases hr
    refine ⟨.closed, ⟨fun _ => h.closing (by simp), fun _ => h.disconnected rfl,
      by simp [Stage.isUnwatched], fun _ => h.unwatched rfl, ⟨n, hn⟩, ?_⟩, .handOver⟩
    simp [h.closeCallbacks]
  | handOver =>
    cases hr
    refine ⟨.closed, h, ?_⟩
    split_ifs with ht
    · subst ht
      exact .removeConnection
    · exact .queueRemoval
  | queueRemoval => cases hr
  | removeConnection =>
    cases hr
    exact ⟨.closed, ⟨h.closing, h.disconnected, h.reading, h.unwatched, ⟨n, hn⟩,
      h.closeCallbacks⟩, .queueDestruction⟩
  | queueDestruction => cases hr
  | connectDestroyed =>
    have hconn : s.conn.connected = false := by
      simpa [TcpConnection.connected] using h.disconnected rfl
    cases hr
    rw [hconn]
    exact ⟨.closed, ⟨fun _ => rfl, h.disconnected, h.reading, h.unwatched, ⟨n, hn⟩,
      h.closeCallbacks⟩, .remove⟩
  | remove =>
    cases hr
    exact ⟨.closed, ⟨h.closing, h.disconnected, by simp [Stage.isUnwatched],
      fun _ => (h.unwatched rfl).remove, ⟨n, hn⟩, h.closeCallbacks⟩, .gone⟩

omit [DecidableEq T] in
theorem position_queue {p : Stage} {t loop : T} {cb : Functor (Payload T)} {w : List (Instr T)}
    (h : Position io main p t (.queueInLoop loop cb :: w)) :
    w = [] ∧ Position io main p loop [.call cb] := by
  cases h with
  | queueRemoval => exact ⟨rfl, .removeConnection⟩
  | queueDestruction => exact ⟨rfl, .connectDestroyed⟩

omit [DecidableEq T] in
theorem protocol_of_report (c : Channel) :
    (c.handleEventWithGuard.map Instr.handle ++ [Instr.release (T := T)]).filter Instr.protocol =
      (if .closeCallback ∈ c.handleEventWithGuard then [.handle .closeCallback] else []) ++
      if .readCallback ∈ c.handleEventWithGuard then [.handle .readCallback] else [] := by
  simp only [Channel.mem_handleEventWithGuard, ← Bool.and_eq_true]
  simp only [Channel.handleEventWithGuard, List.filter_cons, List.filter_nil]
  split_ifs <;> rfl

omit [DecidableEq T] in
/-- A report that does not hang up and read at once leaves one thing to do. -/
theorem position_of_report {c : TcpConnection} (h : ¬ reportsTwice c) :
    Position io main .up io
      ((c.channel_.channel.handleEventWithGuard.map Instr.handle ++
        [Instr.release (T := T)]).filter Instr.protocol) := by
  rw [protocol_of_report]
  by_cases hup : .closeCallback ∈ c.channel_.channel.handleEventWithGuard
  · have hcalled := (Channel.mem_handleEventWithGuard.mp hup).1
    simp only [Channel.calledFor, Bool.and_eq_true, decide_eq_true_eq] at hcalled
    have hpri : c.channel_.channel.revents_ &&& EPOLLPRI = 0#32 := by
      by_contra hpri
      exact h ⟨hcalled.1, hcalled.2, hpri⟩
    have hread : c.channel_.channel.revents_ &&& (EPOLLIN ||| EPOLLPRI) = 0#32 := by
      rw [BitVec.and_or_distrib_left, hcalled.2, hpri, BitVec.or_zero]
    rw [if_pos hup, if_neg fun hmem => by
      simpa [Channel.calledFor, hread] using (Channel.mem_handleEventWithGuard.mp hmem).1]
    exact .hangUp
  · rw [if_neg hup]
    split_ifs
    · exact .read
    · exact .idle

theorem inProtocol_of_justUp (h : JustUp io s) : InProtocol io main s := by
  refine ⟨.up, io, [], ?_, .idle, h.only, ?_⟩
  · refine ⟨by simp, by simp [Stage.isDisconnected], fun _ => h.reading,
      by simp [Stage.isUnwatched], ⟨0, ?_⟩, h.closeCallbacks⟩
    simp [h.callbacks, Stage.isDown]
  · simp [h.active]

theorem inProtocol_step {l : RunLabel T} (h : InProtocol io main s) (hgood : ClosesOnce s l)
    (hs : Steps io main s l s') : InProtocol io main s' := by
  obtain ⟨p, t, w, hholds, hpos, honly, hactive⟩ := h
  have hidle := honly.idle_step hs
  cases hs with
  | run u o i rest c new hs hr =>
    cases hi : i.protocol with
    | true =>
      obtain ⟨rfl, w', rfl, honly'⟩ := honly.run_head hs hi c new
      obtain ⟨p', hholds', hpos'⟩ := position_run hholds hpos hr
      refine ⟨p', u, _, hholds', hpos', honly', ?_⟩
      intro hact
      cases (hactive hact).2
    | false =>
      refine ⟨p, t, w, holds_run_other hholds hi ?_ hr, hpos, honly.run_other hs hr hi, hactive⟩
      exact hgood i (by simp [hs])
  | queue u o loop cb rest hs =>
    cases hcb : cb.lifecycle with
    | true =>
      obtain ⟨rfl, w', rfl, honly'⟩ := honly.queue_head (queues_queue hs) hcb
      obtain ⟨hw, hpos'⟩ := position_queue hpos
      refine ⟨p, loop, _, hholds, hpos', honly' hw, ?_⟩
      intro hact
      cases (hactive hact).2
    | false => exact ⟨p, t, w, hholds, hpos, honly.queue_other (queues_queue hs) hcb, hactive⟩
  | wakeup u o loop rest hs =>
    exact ⟨p, t, w, hholds, hpos, honly.replaces (replaces_wakeup hs) rfl, hactive⟩
  | report wakeup revents mask loop hs hm hr ha =>
    have hwatched : p.isUnwatched = false := by
      by_contra hp
      rw [(hholds.unwatched (by simpa using hp)).registered] at hm
      cases hm
    have hstart : p = .up ∧ w = [] := by
      apply hpos.idle_of_calls hwatched
      rintro rfl i hi
      exact exists_call_of_mem_work hs (honly.mem_work hi)
    refine ⟨p, t, w, ?_, hpos, hidle (by simp) (by simp), fun _ => hstart⟩
    exact ⟨hholds.closing, hholds.disconnected, hholds.reading, hholds.unwatched,
      hholds.callbacks, hholds.closeCallbacks⟩
  | handleEvent hs hact =>
    obtain ⟨rfl, rfl⟩ := hactive hact
    obtain rfl : t = io := by
      cases hpos
      rfl
    refine ⟨.up, t, _, hholds, position_of_report hgood, ?_, by simp⟩
    exact honly.push (replaces_handleEvent hs)
  | control u c loop hs hact ha =>
    exact ⟨p, t, w, hholds, hpos, hidle (by simp) (by simp), hactive⟩
  | call u c hu => exact ⟨p, t, w, hholds, hpos, hidle (by simp) (by simp), hactive⟩
  | store u address value hu =>
    refine ⟨p, t, w, ?_, hpos, hidle (by simp) (by simp), hactive⟩
    exact ⟨hholds.closing, hholds.disconnected, hholds.reading, hholds.unwatched,
      hholds.callbacks, hholds.closeCallbacks⟩

theorem beforeUp_or_inProtocol (h : (system io main).Reachable ClosesOnce s) :
    BeforeUp io s ∨ InProtocol io main s := by
  apply h.invariant
  · intro s hinit
    exact Or.inl (beforeUp_init hinit)
  · rintro s l s' (hbefore | hprotocol) hgood hs
    · rcases beforeUp_step hbefore hs.1 (steps_of_step hs.2) with hb | hj
      · exact Or.inl hb
      · exact Or.inr (inProtocol_of_justUp hj)
    · exact Or.inr (inProtocol_step hprotocol hgood (steps_of_step hs.2))

/-- In every run in which no `sendInLoop` registers a closing connection again
and no report hangs up and reads at once: the callbacks are one UP, then
messages, then one DOWN, and `closeCallback_` runs at most once. -/
theorem callbacks_follow_protocol (h : (system io main).Reachable ClosesOnce s) :
    (∃ n, s.callbacks <+:
      .connection true :: (List.replicate n .message ++ [.connection false])) ∧
      s.closeCallbacks ≤ 1 := by
  rcases beforeUp_or_inProtocol h with hbefore | ⟨p, t, w, hholds, -⟩
  · rw [hbefore.callbacks, hbefore.closeCallbacks]
    exact ⟨⟨0, List.nil_prefix⟩, Nat.zero_le 1⟩
  · obtain ⟨n, hn⟩ := hholds.callbacks
    refine ⟨⟨n, ?_⟩, ?_⟩
    · rw [hn, List.cons_prefix_cons]
      refine ⟨rfl, ?_⟩
      split_ifs
      · exact List.prefix_rfl
      · rw [List.append_nil]
        exact List.prefix_append _ _
    · rw [hholds.closeCallbacks]
      split_ifs <;> omega

/-- The peer sends one byte and hangs up. -/
theorem callbacks_follow_protocol_hang_up :
    ∃ s : ConnectionRun Party, (s.callbacks, s.closeCallbacks) =
        ([.connection true, .message, .connection false], 1) ∧
      ∃ n, s.callbacks <+:
        .connection true :: (List.replicate n .message ++ [.connection false]) := by
  have hrun : (TransitionSystem.replay (TransitionSystem.guarded ClosesOnce
      (TransitionSystem.guarded Permitted (step .io .main))) (newConnection false)
      (List.flatten [establish, [.report false EPOLLIN, .handleEvent, .exec .io (moved 1)],
        execs .io 3, [.control .io .endDispatch, .control .io .swap], backToPoll .io, hangUp])).map
        (fun s => (s.callbacks, s.closeCallbacks))
      = some ([.connection true, .message, .connection false], 1) := by decide +kernel
  obtain ⟨s, hs, hobs⟩ := exists_reachable_of_replay (init_newConnection false) _ hrun
  exact ⟨s, hobs, (callbacks_follow_protocol hs).1⟩

/-- A payload that was on its way when the peer closed its side is appended to
the output of the closed connection, and a hangup is then reported for it. And
where `EPOLLPRI` comes with a hangup, a message follows the last callback. -/
theorem closes_twice_and_reads_after_close :
    (∃ s : ConnectionRun Party, (system .io .main).Reachable TransitionSystem.AnyStep s ∧
      s.callbacks = [.connection true, .connection false, .connection false] ∧
      s.closeCallbacks = 2) ∧
    ∃ s : ConnectionRun Party, (system .io .main).Reachable TransitionSystem.AnyStep s ∧
      s.callbacks = [.connection true, .connection false, .message] := by
  constructor
  · have hrun : (TransitionSystem.replay (TransitionSystem.guarded TransitionSystem.AnyStep
        (TransitionSystem.guarded Permitted (step .io .main))) (newConnection false)
        (List.flatten [establish, [.call .user (.send 0 1)], execs .user 2,
          [.report false EPOLLIN, .handleEvent], execs .io 13,
          [.control .io .endDispatch, .control .io .swap], backToPoll .io, execs .user 3,
          wakeToSwap .io, [.control .io .runNext, .exec .io wouldBlock, .control .io .endBody],
          backToPoll .io, [.report false EPOLLHUP, .handleEvent], execs .io 6])).map
          (fun s => (s.callbacks, s.closeCallbacks))
        = some ([.connection true, .connection false, .connection false], 2) := by decide +kernel
    obtain ⟨s, hs, hobs⟩ := exists_reachable_of_replay (init_newConnection false) _ hrun
    obtain ⟨hcallbacks, hclose⟩ := Prod.mk.inj hobs
    exact ⟨s, hs, hcallbacks, hclose⟩
  · have hrun : (TransitionSystem.replay (TransitionSystem.guarded TransitionSystem.AnyStep
        (TransitionSystem.guarded Permitted (step .io .main))) (newConnection false)
        (List.flatten [establish, [.report false (EPOLLHUP ||| EPOLLPRI), .handleEvent],
          execs .io 11, [.exec .io (moved 1)], execs .io 1])).map (fun s => s.callbacks)
        = some [.connection true, .connection false, .message] := by decide +kernel
    exact exists_reachable_of_replay (init_newConnection false) _ hrun

end ConnectionRun
end MuduoCore
