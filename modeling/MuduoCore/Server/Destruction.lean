import MuduoCore.Connection.Teardown
import MuduoCore.Server.ConnectionView

/-!
# The connections of a destroyed server

The destructor takes every entry out of `connections_` and queues
`connectDestroyed` on the loop of the connection, which may be at any point of
its life by then. Each connection is followed through its own view of the run:
once `connectDestroyed` has been executed it is down, and as long as it has not
been, `connections_` has the connection or the functor is on its way.
-/

namespace MuduoCore
namespace ServerRun

variable {T : Type*} [DecidableEq T] {main : T} {s s' : ServerRun T}

/-- No step takes a connection down wrongly. -/
def TakesDownInOrder (s : ServerRun T) : ServerLabel T → Prop
  | .exec t o => ∀ i ∈ (s.stack t).head?, ∀ r ∈ i.ofConnection, (s.shared r.1).InOrder r.2 o
  | _ => True

instance (s : ServerRun T) : (l : ServerLabel T) → Decidable (s.TakesDownInOrder l)
  | .exec t _ => inferInstanceAs (Decidable (∀ i ∈ (s.stack t).head?, ∀ r ∈ i.ofConnection, _))
  | .startLoop _ _ | .destroyNext _ | .control _ _ | .poll _ _ _ _ | .handleEvent _
  | .acceptEvent | .call _ _ | .store _ _ _ | .copy _ _ | .drop _ _ => isTrue trivial

/-- What the destructor asks for has been done for the connection:
`connectDestroyed` has been executed, or it has left `connections_` and no
`connectDestroyed` is on its way. -/
def TornDown (s : ServerRun T) (k : ℕ) : Prop :=
  (s.connection k).destroyed = true ∨
    ¬ s.Registered k ∧ ∀ t, ∀ i ∈ s.work t, (i.view k).destroys = false

omit [DecidableEq T] in
theorem takesDownInOrder_of_matches {k : ℕ} {l : ServerLabel T} {hl : HostLabel T}
    (h : s.TakesDownInOrder l) (hmatch : Matches k s l hl) :
    ConnectionRun.TakesDownInOrder (s.view k) hl := by
  cases hl with
  | own l' =>
    cases l' with
    | exec t o =>
      obtain rfl : l = .exec t o := hmatch
      intro i hi
      have hview : (s.view k).stack t = (s.stack t).map (ServerInstr.view k) := rfl
      rw [hview, List.head?_map, Option.mem_def, Option.map_eq_some_iff] at hi
      obtain ⟨head, hhead, rfl⟩ := hi
      cases head with
      | connection j i =>
        by_cases hj : j = k
        · subst hj
          have hin : (s.shared j).InOrder i o := h _ hhead (j, i) rfl
          simp only [ServerInstr.view, if_pos]
          exact hin
        · simp only [ServerInstr.view, if_neg hj]
          constructor <;> simp [Instr.payload]
      | call f =>
        cases f with
        | connection j f =>
          by_cases hj : j = k
          · subst hj
            have hin : (s.shared j).InOrder (.call f) o := h _ hhead (j, .call f) rfl
            simp only [ServerInstr.view, ServerFunctor.view, if_pos]
            exact hin
          · simp only [ServerInstr.view, ServerFunctor.view, if_neg hj]
            constructor <;> simp [Instr.payload]
        | listen | other =>
            constructor <;> simp [ServerInstr.view, ServerFunctor.view, Instr.payload]
      | queueInLoop loop cb =>
        constructor <;> simp [ServerInstr.view, Instr.sends]
      | _ => constructor <;> simp [ServerInstr.view, Instr.payload]
    | _ => trivial
  | _ => trivial

theorem destroyed_step {l : ServerLabel T} {k : ℕ} (hs : Steps main s l s') (hk : s'.Accepted k)
    (hd : (s'.connection k).destroyed = true) :
    (s.Accepted k ∧ (s.connection k).destroyed = true) ∨
      (∃ t rest, s.stack t = .connection k .remove :: rest) ∧
        (s'.connection k).conn.channel_.channel.index_ = .kNew := by
  by_cases hbefore : s.Accepted k
  · have hstep := connection_step hs hbefore
    generalize s'.connection k = c at hstep hd
    cases hstep with
    | run t o head i rest c new htop hi hr =>
      simp only [setConnection, Function.update_self, Bool.or_eq_true, decide_eq_true_eq] at hd
      rcases hd with hd | rfl
      · exact Or.inl ⟨hbefore, hd⟩
      · right
        constructor
        · refine ⟨t, rest, ?_⟩
          cases head with
          | connection j i =>
            cases hi
            exact htop
          | call f => cases f <;> cases hi
          | _ => cases hi
        · cases hr
          simp [setConnection]
    | _ => exact Or.inl ⟨hbefore, hd⟩
  · obtain ⟨t, rest, sockfd, r, new, _, rfl, hnew, rfl⟩ := newConnection_of_accepted hs hbefore hk
    obtain ⟨-, -, rfl⟩ := newConnection_eq hnew
    simp [setStack, ServedConnection.create] at hd

omit [DecidableEq T] in
theorem view_work (k : ℕ) (t : T) : (s.view k).work t = (s.work t).map (ServerInstr.view k) := by
  have hcalls : ConnectionRun.calls (((s.loops t).map (ServerFunctor.view k)).queued) =
      ((s.loops t).queued.map ServerInstr.call).map (ServerInstr.view k) := by
    rw [EventLoop.map_queued, ConnectionRun.calls, List.map_map, List.map_map]
    rfl
  rw [work, List.map_append, ← hcalls]
  rfl

open ConnectionRun (GoesDown Owed hosted)

theorem hosted_takesDownInOrder (h : (system main).Reachable TakesDownInOrder s) {k : ℕ}
    (hk : s.Accepted k) : (hosted (s.connection k).loop_ main).Reachable
      ConnectionRun.TakesDownInOrder (s.view k) :=
  @hosted_of_reachable T _ main s k TakesDownInOrder (fun _ => ConnectionRun.TakesDownInOrder)
    (fun _ _ _ _ _ _ hg _ _ hmatch => takesDownInOrder_of_matches hg hmatch) h hk

theorem gone_of_destroyed (h : (system main).Reachable TakesDownInOrder s) :
    ∀ k, s.Accepted k → (s.connection k).destroyed = true → (s.shared k).Gone := by
  refine h.invariant_of (J := (system main).Reachable TakesDownInOrder) (fun _ h => h)
    (I := fun s => ∀ k, s.Accepted k → (s.connection k).destroyed = true → (s.shared k).Gone) ?_ ?_
  · intro s hinit k hk
    have hid := hinit.nextConnId
    have hlt := hk.2
    have hpos := hk.1
    omega
  · intro s l s' ih hr hgood hs k hk' hd
    have hsteps := steps_of_step hs.2
    have hnum := numbered_of_reachable hr
    rcases destroyed_step hsteps hk' hd with ⟨hk, hd⟩ | ⟨⟨t, rest, htop⟩, hindex⟩
    · have hgone := ih k hk hd
      rcases view_step hnum hk hsteps with ⟨hl, hmatch, hstep⟩ | hsame
      · obtain ⟨hplaced, hgoes⟩ :=
          ConnectionRun.goesDown_of_reachable (hosted_takesDownInOrder hr hk)
        exact ConnectionRun.gone_step hgone hgoes hplaced
          (takesDownInOrder_of_matches hgood hmatch) hstep
      · have hshared : s'.shared k = s.shared k := congrArg ConnectionRun.toShared hsame
        rwa [hshared]
    · have hk : s.Accepted k :=
        hnum.owner t (.connection k .remove) (List.mem_append_left _ (by simp [htop])) k rfl
      obtain ⟨hplaced, hgoes⟩ := ConnectionRun.goesDown_of_reachable (hosted_takesDownInOrder hr hk)
      have hview : (s.view k).stack t = .remove :: rest.map (ServerInstr.view k) := by
        simp [view, htop, ServerInstr.view]
      have hdown : (s.shared k).Down := hgoes.down_of_remove hplaced hview
      refine ⟨?_, hindex⟩
      rcases view_step hnum hk hsteps with ⟨hl, hmatch, hstep⟩ | hsame
      · exact (ConnectionRun.goesDown_step hgoes hplaced
          (takesDownInOrder_of_matches hgood hmatch) hstep).2 hdown
      · have hshared : s'.shared k = s.shared k := congrArg ConnectionRun.toShared hsame
        rwa [hshared]

/-- In every run that takes no connection down wrongly: once the destructor has
taken a connection out of `connections_` and `connectDestroyed` has been
executed, whatever state the connection was in, there has been exactly one
second callback about it, it is `kDisconnected`, and no poller has its channel:
the mark is `kNew`, the table has no entry, and the kernel watches nothing. -/
theorem connections_torn_down (h : (system main).Reachable TakesDownInOrder s) {k : ℕ}
    (hk : s.Accepted k) (hdone : s.TornDown k) :
    (s.connection k).callbacks.count (.connection false) = 1 ∧
      (s.connection k).conn.state_ = .kDisconnected ∧
      (s.connection k).conn.channel_.channel.index_ = .kNew ∧
      (s.connection k).conn.channel_.hasChannel = false ∧
      (s.connection k).conn.channel_.registered = none := by
  have hgone : (s.shared k).Gone := by
    rcases hdone with hd | ⟨hleft, hnone⟩
    · exact gone_of_destroyed h k hk hd
    · rcases ConnectionRun.owed_of_reachable (hosted_takesDownInOrder h hk) with
        hin | ⟨t, i, hi, hdestroys⟩ | hgone
      · have hreg : decide (s.Registered k) = true := hin
        exact absurd (by simpa using hreg) hleft
      · rw [view_work] at hi
        obtain ⟨j, hj, rfl⟩ := List.mem_map.mp hi
        rw [hnone t j hj] at hdestroys
        cases hdestroys
      · exact hgone
  refine ⟨hgone.down.callbacks, hgone.down.state, hgone.index, ?_,
    hgone.down.unwatched.registered⟩
  have hindex : (s.connection k).conn.channel_.channel.index_ = .kNew := hgone.index
  simp [RegisteredChannel.hasChannel_eq, hindex]

open ConnectionRun (silent)

/-- The server is destroyed with a connection that is open. -/
theorem connections_torn_down_open :
    ∃ s : ServerRun ConnectionRun.Party,
      (s.life = .inDestructor ∧ (s.connection 1).destroyed = true) ∧
      (s.connection 1).callbacks.count (.connection false) = 1 ∧
        (s.connection 1).conn.state_ = .kDisconnected ∧
        (s.connection 1).conn.channel_.channel.index_ = .kNew ∧
        (s.connection 1).conn.channel_.hasChannel = false ∧
        (s.connection 1).conn.channel_.registered = none := by
  have hrun : (TransitionSystem.replay (TransitionSystem.guarded TakesDownInOrder
      (TransitionSystem.guarded Permitted (step .main))) (newServer 1)
      (List.flatten [listening, accepting 7, establishing,
        [.control .main (.pollReturn false), .call .main .destroy, .destroyNext 1], execs .main 5,
        wakeToRun .io, execs .io 6])).map
      (fun s => (s.life, (s.connection 1).destroyed, s.nextConnId_))
      = some (.inDestructor, true, 2) := by decide +kernel
  obtain ⟨s, hs, hobs⟩ := exists_reachable_of_replay (init_newServer 1) _ hrun
  obtain ⟨hlife, hdestroyed, hnext⟩ : s.life = .inDestructor ∧
      (s.connection 1).destroyed = true ∧ s.nextConnId_ = 2 := by simpa using hobs
  refine ⟨s, ⟨hlife, hdestroyed⟩, connections_torn_down hs ⟨Nat.one_pos, ?_⟩ (Or.inl hdestroyed)⟩
  omega

/-- A connection on which `shutdown` has been called stays `kDisconnecting`, and
the user is not told. -/
theorem shut_down_connection_not_torn_down :
    ∃ s : ServerRun ConnectionRun.Party, (system .main).Reachable TransitionSystem.AnyStep s ∧
      s.connections_.entries = [] ∧ (∀ t, (s.loops t).queued = []) ∧
      (s.connection 1).destroyed = true ∧ (s.connection 1).callbacks = [.connection true] ∧
      (s.connection 1).conn.state_ = .kDisconnecting := by
  have hrun : (TransitionSystem.replay (TransitionSystem.guarded TransitionSystem.AnyStep
      (TransitionSystem.guarded Permitted (step .main))) (newServer 1)
      (List.flatten [listening, accepting 7, establishing,
        [.control .main (.pollReturn false), .call .main (.connection 1 .shutdown)], execs .main 6,
        [.call .main .destroy, .destroyNext 1], execs .main 6, wakeToRun .io,
        [.exec .io silent, .control .io .endBody, .control .io .runNext], execs .io 2])).map
      (fun s => (decide (s.connections_.entries = []), decide (∀ t, (s.loops t).queued = []),
        (s.connection 1).destroyed, (s.connection 1).callbacks, (s.connection 1).conn.state_))
      = some (true, true, true, [.connection true], .kDisconnecting) := by decide +kernel
  obtain ⟨s, hs, hobs⟩ := exists_reachable_of_replay (init_newServer 1) _ hrun
  simp only [Prod.mk.injEq, decide_eq_true_eq] at hobs
  obtain ⟨hentries, hqueued, hdestroyed, hcallbacks, hstate⟩ := hobs
  exact ⟨s, hs, hentries, hqueued, hdestroyed, hcallbacks, hstate⟩

end ServerRun
end MuduoCore
