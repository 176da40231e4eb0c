import MuduoCore.Connection.Removal
import MuduoCore.Polling.Projection
import MuduoCore.Server.Dispatch

/-!
# Descriptors that are used again

The `Socket` of a connection closes its descriptor when the last `shared_ptr`
is gone, and `accept` may return the same number for the next connection. The
poller keeps its channels by descriptor. No two of them ever meet there: a
connection that nothing holds has left the poller, so of the channels with one
descriptor at most one is in it, and no other is registered or waits to be
handled.
-/

namespace MuduoCore

/-! ## The descriptor of a channel never changes -/

theorem TcpConnection.sendInLoop_fd {P : Type*} (c : TcpConnection) (data : List Byte)
    (o : Outcome) : (c.sendInLoop (P := P) data o).1.channel_.channel.fd_ =
      c.channel_.channel.fd_ := by
  by_cases h : c.leavesRest data.length o = true
  · rw [sendInLoop_of_leavesRest c data o h]
    split_ifs
    · rfl
    · exact RegisteredChannel.change_fd _ _
  · rw [sendInLoop_of_not_leavesRest c data o h]

theorem TcpConnection.handleWrite_fd {P : Type*} (c : TcpConnection) (o : Outcome) :
    (c.handleWrite (P := P) o).1.channel_.channel.fd_ = c.channel_.channel.fd_ := by
  rcases c.handleWrite_cases (P := P) o with h | ⟨-, -, h⟩ | ⟨-, -, h⟩ <;> rw [h]
  · rfl
  · exact RegisteredChannel.change_fd _ _

namespace ConnectionRun

variable {T : Type*} [DecidableEq T] {io main : T} {s s' : ConnectionRun T}

omit [DecidableEq T] in
theorem fd_of_changes {i : Instr T} {o : Outcome} {s c : Shared T}
    (hc : Shared.Changes s c o i) :
    c.conn.channel_.channel.fd_ = s.conn.channel_.channel.fd_ := by
  cases hc with
  | send p hc => rw [hc, TcpConnection.sendInLoop_fd]
  | write hc => rw [hc, TcpConnection.handleWrite_fd]
  | interest k hc =>
    rw [hc]
    exact RegisteredChannel.change_fd _ _
  | remove hc =>
    rw [hc]
    exact RegisteredChannel.remove_fd _
  | sendFile fileDescriptor offset count hc => rw [hc, TcpConnection.sendFileInLoop_channel]
  | shutdown hc => rw [hc, TcpConnection.shutdownInLoop_channel]
  | drained hc => rw [hc, TcpConnection.halfCloseIfDisconnecting_channel]
  | state state hc | same i hc => rw [hc]

theorem fd_step {hl : HostLabel T} (hs : HostSteps io main s hl s') :
    s'.conn.channel_.channel.fd_ = s.conn.channel_.channel.fd_ := by
  rcases hs.split with ⟨l, rfl, -, hown⟩ | ⟨-, t, old, new, hinter, -⟩ | ⟨rfl, rest, htop, rfl⟩
  · cases hown with
    | run t o i rest c new htop hr => exact fd_of_changes (Shared.changes_of_run hr)
    | _ => rfl
  · rw [hinter.conn]
  · rfl

end ConnectionRun

namespace ServerRun

open ConnectionRun (Removed OnOwnThread)

variable {T : Type*} [DecidableEq T] {main : T} {s s' : ServerRun T}

def descriptor (s : ServerRun T) (k : ℕ) : ℤ := (s.connection k).conn.channel_.channel.fd_

/-- `accept` does not return the descriptor of a connection that exists. -/
def AcceptsFresh (s : ServerRun T) : ServerLabel T → Prop
  | .exec t ⟨.ok sockfd, _⟩ => (s.stack t).head? = some .handleRead →
      ∀ k < s.nextConnId_, s.Accepted k → s.Alive k → s.descriptor k ≠ sockfd
  | _ => True

instance [Fintype T] (s : ServerRun T) : (l : ServerLabel T) → Decidable (s.AcceptsFresh l)
  | .exec t ⟨.ok sockfd, _⟩ => inferInstanceAs (Decidable
      ((s.stack t).head? = some .handleRead →
        ∀ k < s.nextConnId_, s.Accepted k → s.Alive k → s.descriptor k ≠ sockfd))
  | .exec _ ⟨.error _, _⟩ | .startLoop _ _ | .destroyNext _ | .control _ _ | .poll _ _ _ _
  | .handleEvent _ | .acceptEvent | .call _ _ | .store _ _ _ | .copy _ _ | .drop _ _ =>
    isTrue trivial

/-- The promise of the kernel, and what `UsedOnOwnThread` asks of the users. -/
def OwnsDescriptors (s : ServerRun T) (l : ServerLabel T) : Prop :=
  s.UsedOnOwnThread l ∧ s.AcceptsFresh l

instance [Fintype T] (s : ServerRun T) (l : ServerLabel T) : Decidable (s.OwnsDescriptors l) :=
  inferInstanceAs (Decidable (_ ∧ _))

/-- The channel is not in the poller, and does not wait to be handled. -/
structure OutOfPoller (c : ServedConnection T) : Prop where
  index : c.conn.channel_.channel.index_ = .kNew
  unregistered : c.conn.channel_.registered = none
  inactive : c.active = false

omit [DecidableEq T] in
theorem outOfPoller_of_removed {k : ℕ} (h : Removed (s.view k)) : OutOfPoller (s.connection k) :=
  ⟨h.index, h.quiet.unregistered, h.quiet.inactive⟩

theorem hosted_usedOnOwnThread (h : (system main).Reachable UsedOnOwnThread s) {k : ℕ}
    (hk : s.Accepted k) :
    (ConnectionRun.hosted (s.connection k).loop_ main).Reachable
      (OnOwnThread (s.connection k).loop_) (s.view k) :=
  hosted_of_reachable (fun _ _ _ _ _ hr hg hs _ => onOwnThread_of_matches hr hg hs) h hk

theorem removed_of_dead (h : (system main).Reachable UsedOnOwnThread s) {k : ℕ}
    (hk : s.Accepted k) (hdead : ¬ s.Alive k) : Removed (s.view k) :=
  ConnectionRun.removed_of_not_alive (hosted_usedOnOwnThread h hk) fun halive =>
    hdead (Or.inl halive)

/-- Where the server is not destroyed and its connections are used on the threads
of their loops: when the last `shared_ptr` to a connection is gone, and its
descriptor is closed, the connection has left the poller and no event of it is
under way. -/
theorem unowned_connection_removed (h : (system main).Reachable UsedOnOwnThread s) {k : ℕ}
    (hk : s.Accepted k) (hdead : ¬ s.Alive k) : OutOfPoller (s.connection k) :=
  outOfPoller_of_removed (removed_of_dead h hk hdead)

def closing (sockfd : ℕ) : List (ServerLabel ConnectionRun.Party) :=
  accepting sockfd ++ establishing ++ hangingUp 1 ++ removing ++ wakeToRun .io ++ execs .io 2 ++
    [.control .io .endBody] ++ backToPoll .io

theorem unowned_connection_removed_closed :
    ∃ s : ServerRun ConnectionRun.Party, s.Accepted 1 ∧ ¬ s.Alive 1 ∧
      OutOfPoller (s.connection 1) := by
  have hrun : (TransitionSystem.replay (TransitionSystem.guarded UsedOnOwnThread
      (TransitionSystem.guarded Permitted (step .main))) (newServer 1)
      (listening ++ closing 7)).map (fun s => (decide (s.Accepted 1), decide (s.Alive 1)))
      = some (true, false) := by decide +kernel
  obtain ⟨s, hs, hobs⟩ := exists_reachable_of_replay (init_newServer 1) _ hrun
  obtain ⟨hk, hdead⟩ : s.Accepted 1 ∧ ¬ s.Alive 1 := by simpa using hobs
  exact ⟨s, hk, hdead, unowned_connection_removed hs hk hdead⟩

/-! ## One channel for each descriptor -/

/-- Of two connections with one descriptor, one has left the poller for good. -/
def Unshared (s : ServerRun T) : Prop :=
  ∀ j k, s.Accepted j → s.Accepted k → j ≠ k → s.descriptor j = s.descriptor k →
    Removed (s.view j) ∨ Removed (s.view k)

theorem descriptor_step (hnum : Numbered s) {l : ServerLabel T} (hs : Steps main s l s') {k : ℕ}
    (hk : s.Accepted k) : s'.descriptor k = s.descriptor k := by
  rcases view_step hnum hk hs with ⟨hl, -, hstep⟩ | hsame
  · exact ConnectionRun.fd_step hstep
  · exact congrArg (fun r : ConnectionRun T => r.conn.channel_.channel.fd_) hsame

theorem removed_view_step (hr : (system main).Reachable UsedOnOwnThread s) {l : ServerLabel T}
    (hgood : s.UsedOnOwnThread l) (hs : Steps main s l s') {k : ℕ} (hk : s.Accepted k)
    (h : Removed (s.view k)) : Removed (s'.view k) := by
  rcases view_step (numbered_of_reachable hr) hk hs with ⟨hl, hmatch, hstep⟩ | hsame
  · exact ConnectionRun.removed_step h (onOwnThread_of_matches hr hgood hs hmatch) hstep
  · rwa [hsame]

theorem accept_of_step {l : ServerLabel T} (hs : Steps main s l s') {k : ℕ} (hk : ¬ s.Accepted k)
    (hk' : s'.Accepted k) : ∃ t sockfd e, l = .exec t ⟨.ok sockfd, e⟩ ∧
      (s.stack t).head? = some .handleRead ∧ s'.descriptor k = sockfd ∧
      k = s.nextConnId_ := by
  have hne : s'.nextConnId_ ≠ s.nextConnId_ := fun h => hk ⟨hk'.1, h ▸ hk'.2⟩
  cases hs with
  | own t o i rest r new hs hr =>
    rcases run_cases hr with ⟨_, rfl, -⟩ | ⟨-, -, hr'⟩
    · obtain ⟨result, e⟩ := o
      cases result with
      | ok sockfd =>
        obtain ⟨-, rfl, rfl⟩ := newConnection_eq hr
        have hkeq : k = s.nextConnId_ := by
          have hlt : k < s.nextConnId_ + 1 := hk'.2
          by_contra hlt'
          exact hk ⟨hk'.1, by omega⟩
        subst hkeq
        refine ⟨t, sockfd, e, rfl, by simp [hs], ?_, rfl⟩
        simp [descriptor, setStack, ServedConnection.create, TcpConnection.create,
          TcpConnection.newChannel_channel]
      | error err =>
        cases hr
        exact absurd rfl hne
    · exact absurd (by rw [hr']; rfl) hne
  | call t c r new hu hc => exact absurd (by rw [frame_of_code hc]; rfl) hne
  | _ => exact absurd rfl hne

theorem unshared_step (h : Unshared s) (hr : (system main).Reachable UsedOnOwnThread s)
    {l : ServerLabel T} (hgood : s.OwnsDescriptors l) (hs : Steps main s l s') :
    Unshared s' := by
  have hnum := numbered_of_reachable hr
  -- a connection accepted before, against the one that is accepted now
  have haccepted : ∀ j k, s.Accepted j → ¬ s.Accepted k → s'.Accepted k →
      s'.descriptor j = s'.descriptor k → Removed (s'.view j) := by
    intro j k hj hk hk' hfd
    obtain ⟨t, sockfd, e, rfl, hhead, hnew, -⟩ := accept_of_step hs hk hk'
    have hdead : ¬ s.Alive j := by
      intro halive
      apply hgood.2 hhead j hj.2 hj halive
      rw [← hnew, ← hfd, descriptor_step hnum hs hj]
    exact removed_view_step hr hgood.1 hs hj (removed_of_dead hr hj hdead)
  intro j k hj' hk' hne hfd
  by_cases hj : s.Accepted j
  · by_cases hk : s.Accepted k
    · rw [descriptor_step hnum hs hj, descriptor_step hnum hs hk] at hfd
      rcases h j k hj hk hne hfd with hremoved | hremoved
      · exact Or.inl (removed_view_step hr hgood.1 hs hj hremoved)
      · exact Or.inr (removed_view_step hr hgood.1 hs hk hremoved)
    · exact Or.inl (haccepted j k hj hk hk' hfd)
  · by_cases hk : s.Accepted k
    · exact Or.inr (haccepted k j hk hj hj' hfd.symm)
    · obtain ⟨_, _, _, _, _, _, rfl⟩ := accept_of_step hs hj hj'
      obtain ⟨_, _, _, _, _, _, rfl⟩ := accept_of_step hs hk hk'
      exact absurd rfl hne

theorem unshared_of_reachable (h : (system main).Reachable OwnsDescriptors s) : Unshared s := by
  refine h.invariant_of (J := (system main).Reachable UsedOnOwnThread)
    (fun _ hr => hr.mono fun _ _ hg => hg.1) (I := Unshared) ?_ ?_
  · intro s hinit j k hj hk hne
    have hid := hinit.nextConnId
    have hjlt := hj.2
    have hjpos := hj.1
    omega
  · intro s l s' hi hr hgood hs
    exact unshared_step hi hr hgood (steps_of_step hs.2)

/-- However often descriptors are closed and used again, under the same conditions
and with `accept` keeping its promise: of two connections with the same one, at
least one is neither in the poller nor under way. -/
theorem descriptors_not_shared (h : (system main).Reachable OwnsDescriptors s) {j k : ℕ}
    (hj : s.Accepted j) (hk : s.Accepted k) (hne : j ≠ k)
    (hfd : s.descriptor j = s.descriptor k) :
    OutOfPoller (s.connection j) ∨ OutOfPoller (s.connection k) := by
  rcases unshared_of_reachable h j k hj hk hne hfd with hremoved | hremoved
  · exact Or.inl (outOfPoller_of_removed hremoved)
  · exact Or.inr (outOfPoller_of_removed hremoved)

/-- Two connections, one after the other, on one descriptor. -/
theorem descriptors_not_shared_again :
    ∃ s : ServerRun ConnectionRun.Party, (s.connection 2).conn.channel_.registered ≠ none ∧
      s.descriptor 1 = s.descriptor 2 ∧
      (OutOfPoller (s.connection 1) ∨ OutOfPoller (s.connection 2)) := by
  have hrun : (TransitionSystem.replay (TransitionSystem.guarded OwnsDescriptors
      (TransitionSystem.guarded Permitted (step .main))) (newServer 1)
      (listening ++ closing 7 ++ accepting 7 ++ establishing)).map
      (fun s => (s.nextConnId_, s.descriptor 1, s.descriptor 2,
        decide ((s.connection 2).conn.channel_.registered ≠ none)))
      = some (3, 7, 7, true) := by decide +kernel
  obtain ⟨s, hs, hobs⟩ := exists_reachable_of_replay (init_newServer 1) _ hrun
  obtain ⟨hnext, h₁, h₂, hreg⟩ : s.nextConnId_ = 3 ∧ s.descriptor 1 = 7 ∧ s.descriptor 2 = 7 ∧
      (s.connection 2).conn.channel_.registered ≠ none := by simpa using hobs
  have hj : s.Accepted 1 := ⟨by omega, by omega⟩
  have hk : s.Accepted 2 := ⟨by omega, by omega⟩
  have hfd : s.descriptor 1 = s.descriptor 2 := h₁.trans h₂.symm
  exact ⟨s, hreg, hfd, descriptors_not_shared hs hj hk (by omega) hfd⟩

end ServerRun
end MuduoCore
