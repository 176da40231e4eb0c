import MuduoCore.Connection.Retention
import MuduoCore.Server.ConnectionView
import MuduoCore.Server.Registry

/-!
# The channels that wait to be handled

`activeChannels_` holds raw pointers. In a server that is not destroyed, and
whose users send and shut down on the thread of the connection's loop only,
none of them dangles: from the poll that reports a channel until its
`handleEvent`, a `shared_ptr` to the connection exists, wherever its copies are
made and dropped.
-/

namespace MuduoCore
namespace ServerRun

open ConnectionRun (OnOwnThread)

variable {T : Type*} [DecidableEq T] {main : T} {s s' : ServerRun T}

/-- The server is not destroyed, and its connections are used on the threads of
their loops. -/
def UsedOnOwnThread (s : ServerRun T) : ServerLabel T → Prop
  | .call _ .destroy => False
  | .call _ (.connection _ (.queueInLoop _)) => True
  | .call t (.connection k _) => t = (s.connection k).loop_
  | _ => True

instance (s : ServerRun T) : (l : ServerLabel T) → Decidable (s.UsedOnOwnThread l)
  | .call _ .destroy => isFalse id
  | .call t (.connection k (.send _ _)) | .call t (.connection k (.sendFile _ _ _))
  | .call t (.connection k .shutdown) => inferInstanceAs (Decidable (t = (s.connection k).loop_))
  | .call _ (.connection _ (.queueInLoop _)) | .call _ .start | .exec _ _ | .startLoop _ _
  | .destroyNext _ | .control _ _ | .poll _ _ _ _ | .handleEvent _ | .acceptEvent
  | .store _ _ _ | .copy _ _ | .drop _ _ => isTrue trivial

omit [DecidableEq T] in
theorem notDestroyed_of_usedOnOwnThread {l : ServerLabel T} (h : s.UsedOnOwnThread l) :
    NotDestroyed s l := by
  cases l with
  | call t c =>
    cases c with
    | destroy => exact h
    | _ => trivial
  | _ => trivial

theorem onOwnThread_of_matches {k : ℕ} {l : ServerLabel T} {hl : HostLabel T}
    (hr : (system main).Reachable UsedOnOwnThread s) (h : s.UsedOnOwnThread l)
    (hs : Steps main s l s') (hmatch : Matches k s l hl) :
    OnOwnThread (s.connection k).loop_ (s.view k) hl := by
  cases hl with
  | own l => trivial
  | other => trivial
  | call t c =>
    obtain rfl : l = .call t (.connection k c) := hmatch
    cases c with
    | queueInLoop loop => exact Or.inr ⟨loop, rfl⟩
    | _ => exact Or.inl h
  | destroy =>
    obtain rfl : l = .destroyNext k := hmatch
    have hund := undestroyed_of_reachable (hr.mono fun _ _ => notDestroyed_of_usedOnOwnThread)
    cases hs with
    | destroyNext _ rest htop hk hreg =>
      exact hund main (List.mem_append_left _ (by simp [htop]))
    | pointers _ j n hj hl =>
      obtain ⟨t, hl | hl⟩ := hl <;> cases hl

/-- A connection whose channel waits to be handled has not been destroyed. -/
theorem active_channels_alive (h : (system main).Reachable UsedOnOwnThread s) {k : ℕ}
    (hk : s.Accepted k) (hactive : (s.connection k).active = true) : s.Alive k := by
  have hview : (ConnectionRun.hosted (s.connection k).loop_ main).Reachable (OnOwnThread _)
      (s.view k) :=
    hosted_of_reachable (fun s l s' k hl hr hg hs _ => onOwnThread_of_matches hr hg hs) h hk
  exact Or.inl (ConnectionRun.alive_of_active hview hactive)

/-- A channel that hung up twice in one event is reported once more after its
connection has left `connections_`. -/
theorem active_channels_alive_removed :
    ∃ s : ServerRun ConnectionRun.Party,
      ((s.connection 1).removed = true ∧ (s.connection 1).active = true) ∧ s.Alive 1 := by
  have hrun : (TransitionSystem.replay (TransitionSystem.guarded UsedOnOwnThread
      (TransitionSystem.guarded Permitted (step .main))) (newServer 1)
      (List.flatten [listening, accepting 7, establishing,
        [.poll .io false [(1, EPOLLHUP ||| EPOLLPRI)] none, .handleEvent 1], execs .io 24,
        endOfDispatch .io, wakeToRun .main, execs .main 4,
        [.poll .io true [(1, EPOLLHUP)] none]])).map
      (fun s => ((s.connection 1).removed, (s.connection 1).active, s.nextConnId_))
      = some (true, true, 2) := by decide +kernel
  obtain ⟨s, hs, hobs⟩ := exists_reachable_of_replay (init_newServer 1) _ hrun
  obtain ⟨hremoved, hactive, hnext⟩ : (s.connection 1).removed = true ∧
      (s.connection 1).active = true ∧ s.nextConnId_ = 2 := by simpa using hobs
  refine ⟨s, ⟨hremoved, hactive⟩, active_channels_alive hs ⟨Nat.one_pos, ?_⟩ hactive⟩
  omega

end ServerRun
end MuduoCore
