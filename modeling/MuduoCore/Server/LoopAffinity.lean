import MuduoCore.Connection.Placement
import MuduoCore.Server.ServerRun

/-!
# One loop per thread

The library has no locks besides that of `pendingFunctors_`. What belongs to a
connection is used by the thread of its loop alone, and what belongs to the
server and its acceptor by the thread of the server's loop. Nothing checks this
when the code runs; it holds because every function that may be called from
elsewhere goes through `runInLoop` or `queueInLoop` of the right loop.
-/

namespace MuduoCore

/-- A member that has no lock, or the poller of a loop through `updateChannel`
and `removeChannel`. -/
inductive Access (T : Type*)
  | poller (loop : T)
  | channel_ (k : ℕ)
  | inputBuffer_ (k : ℕ)
  | outputBuffer_ (k : ℕ)
  | acceptChannel_
  | connections_
  deriving DecidableEq, Repr

/-- What the functions of the connection `k`, whose loop is `io`, access while
they run this functor. -/
def Functor.accesses {P T : Type*} (k : ℕ) (io : T) : Functor P → List (Access T)
  | connectEstablished | shutdownInLoop => [.channel_ k]
  | removeConnectionInLoop => [.connections_]
  | sendInLoop _ => [.channel_ k, .outputBuffer_ k, .poller io]
  | sendFileInLoop _ _ _ => [.channel_ k, .outputBuffer_ k]
  | connectDestroyed | writeComplete | highWaterMark _ | other => []

/-- `handleClose`, `handleError` and the error messages print the descriptor of
the channel. -/
def EventCallback.accesses {T : Type*} (k : ℕ) (io : T) : EventCallback → List (Access T)
  | readCallback => [.channel_ k, .inputBuffer_ k]
  | writeCallback => [.channel_ k, .outputBuffer_ k, .poller io]
  | closeCallback | errorCallback => [.channel_ k]

def Instr.accesses {T : Type*} (k : ℕ) (io : T) : Instr T → List (Access T)
  | call f => f.accesses k io
  | handle cb => cb.accesses k io
  | drained => [.channel_ k]
  | changeInterest _ | remove => [.channel_ k, .poller io]
  | messageCallback => [.inputBuffer_ k]
  | send _ | sendFile _ _ _ | shutdown | setState _ | runInLoop _ _ | queueInLoop _ _ | wakeup _
  | connectionCallback | closeCallback | user | release => []

/-- What an instruction accesses, where `loop k` is the loop of the connection
`k` and `main` that of the server. -/
def ServerInstr.accesses {T : Type*} (loop : ℕ → T) (main : T) : ServerInstr T → List (Access T)
  | connection k i => i.accesses k (loop k)
  | call (.connection k f) => f.accesses k (loop k)
  | call .listen | destroyAcceptor => [.acceptChannel_, .poller main]
  | handleRead | destroyConnections => [.connections_]
  | call .other | queueInLoop _ _ | wakeup _ | start | startLoop | threadInitCallback
  | listenInLoop | quit _ | join _ | destroyed => []

def Access.owner {T : Type*} (loop : ℕ → T) (main : T) : Access T → T
  | poller loop => loop
  | channel_ k | inputBuffer_ k | outputBuffer_ k => loop k
  | acceptChannel_ | connections_ => main

def ServerFunctor.RunsOn {T : Type*} (loop : ℕ → T) (main t : T) : ServerFunctor T → Prop
  | connection k f => f.RunsOn (loop k) main t
  | listen => t = main
  | other => True

def ServerInstr.PlacedOn {T : Type*} (loop : ℕ → T) (main t : T) : ServerInstr T → Prop
  | connection k i => i.PlacedOn (loop k) main t
  | queueInLoop target (.connection k f) => (Instr.queueInLoop target f).PlacedOn (loop k) main t
  | queueInLoop target f => f.RunsOn loop main target
  | call f => f.RunsOn loop main t
  | handleRead | destroyConnections | destroyAcceptor => t = main
  | wakeup _ | start | startLoop | threadInitCallback | listenInLoop | quit _ | join _
  | destroyed => True

theorem Functor.RunsOn.owner {P T : Type*} {k : ℕ} {loop : ℕ → T} {main t : T} {f : Functor P}
    (h : f.RunsOn (loop k) main t) {a : Access T} (ha : a ∈ f.accesses k (loop k)) :
    a.owner loop main = t := by
  cases f <;> simp only [Functor.accesses, List.mem_cons, List.not_mem_nil, or_false] at ha <;>
    rcases ha with rfl | rfl | rfl <;> exact h.symm

theorem Instr.PlacedOn.owner {T : Type*} {k : ℕ} {loop : ℕ → T} {main t : T} {i : Instr T}
    (h : i.PlacedOn (loop k) main t) {a : Access T} (ha : a ∈ i.accesses k (loop k)) :
    a.owner loop main = t := by
  cases i with
  | call f => exact Functor.RunsOn.owner h ha
  | handle cb =>
    cases cb <;>
      simp only [Instr.accesses, EventCallback.accesses, List.mem_cons, List.not_mem_nil,
        or_false] at ha <;>
      rcases ha with rfl | rfl | rfl <;> exact h.symm
  | drained | messageCallback | changeInterest _ | remove =>
    simp only [Instr.accesses, List.mem_cons, List.not_mem_nil, or_false] at ha
    rcases ha with rfl | rfl <;> exact h.symm
  | _ => cases ha

theorem ServerInstr.PlacedOn.owner {T : Type*} {loop : ℕ → T} {main t : T} {i : ServerInstr T}
    (h : i.PlacedOn loop main t) {a : Access T} (ha : a ∈ i.accesses loop main) :
    a.owner loop main = t := by
  cases i with
  | connection k i => exact Instr.PlacedOn.owner h ha
  | call f =>
    cases f with
    | connection k f => exact Functor.RunsOn.owner h ha
    | listen =>
      simp only [ServerInstr.accesses, List.mem_cons, List.not_mem_nil, or_false] at ha
      rcases ha with rfl | rfl <;> exact h.symm
    | other => cases ha
  | handleRead | destroyConnections | destroyAcceptor =>
    simp only [ServerInstr.accesses, List.mem_cons, List.not_mem_nil, or_false] at ha
    rcases ha with rfl | rfl <;> exact h.symm
  | _ => cases ha

theorem ServerInstr.placedOn_tag {T : Type*} {loop : ℕ → T} {main t : T} {k : ℕ} {i : Instr T}
    (h : i.PlacedOn (loop k) main t) : (i.tag k).PlacedOn loop main t := by
  cases i <;> exact h

theorem ServerInstr.PlacedOn.congr {T : Type*} {loop loop' : ℕ → T} {main t : T}
    {i : ServerInstr T} (h : i.PlacedOn loop main t) (hl : ∀ k ∈ i.owner, loop' k = loop k) :
    i.PlacedOn loop' main t := by
  cases i with
  | connection k i =>
    rw [ServerInstr.PlacedOn, hl k rfl]
    exact h
  | queueInLoop target f | call f =>
    cases f with
    | connection k f =>
      simp only [ServerInstr.PlacedOn, ServerFunctor.RunsOn, hl k rfl]
      exact h
    | listen | other => exact h
  | _ => exact h

def ServerLabel.thread {T : Type*} (loop : ℕ → T) (main : T) : ServerLabel T → T
  | exec t _ | startLoop t _ | control t _ | poll t _ _ _ | call t _ | store t _ _ | copy t _
  | drop t _ => t
  | destroyNext _ | acceptEvent => main
  | handleEvent k => loop k

namespace ServerRun

open ConnectionRun (silent)

variable {T : Type*} [DecidableEq T] {main : T} {s s' : ServerRun T}

def loopOf (s : ServerRun T) (k : ℕ) : T := (s.connection k).loop_

/-- What a step accesses, with the thread that does. The constructor of an
`EventLoop` enables its wakeup channel and the destructor removes it, both on
the thread of the loop. -/
def accesses (main : T) (s : ServerRun T) : ServerLabel T → List (T × Access T)
  | .exec t _ =>
    ((s.stack t).head?.toList.flatMap fun i => i.accesses s.loopOf main).map (Prod.mk t)
  | .startLoop _ loop => [(loop, .poller loop)]
  | .control t c => if c = .test then [(t, .poller t)] else []
  | .poll t _ reports accept =>
    (reports.map fun r => (t, .channel_ r.1)) ++ accept.toList.map fun _ => (t, .acceptChannel_)
  | .handleEvent k => [(s.loopOf k, .channel_ k)]
  | .acceptEvent => [(main, .acceptChannel_)]
  | .destroyNext _ => [(main, .connections_)]
  | .call _ _ | .store _ _ _ | .copy _ _ | .drop _ _ => []

def Placed (main : T) (s : ServerRun T) : Prop :=
  ∀ t, ∀ i ∈ s.work t, i.PlacedOn s.loopOf main t

omit [DecidableEq T] in
theorem placedOn_of_ofConnection {loop : ℕ → T} {t : T} {head : ServerInstr T} {k : ℕ}
    {i : Instr T} (hi : head.ofConnection = some (k, i)) (h : head.PlacedOn loop main t) :
    i.PlacedOn (loop k) main t := by
  cases head with
  | connection j i =>
    cases hi
    exact h
  | call f =>
    cases f with
    | connection j f =>
      cases hi
      exact h
    | listen | other => cases hi
  | _ => cases hi

theorem placedOn_of_run {t : T} {i : ServerInstr T} {o : Outcome} {r : ServerRun T}
    {new : List (ServerInstr T)} (hr : s.run main t i o = some (r, new))
    (hi : i.PlacedOn s.loopOf main t) : ∀ j ∈ new, j.PlacedOn r.loopOf main t := by
  intro j hj
  cases ownFollows_of_run hr hj with
  | accept_run =>
    rcases run_cases hr with ⟨sockfd, -, hnew⟩ | ⟨hnone, -, -⟩
    · obtain ⟨-, -, rfl⟩ := newConnection_eq hnew
      refine ⟨?_, by simp [Functor.BoundBy]⟩
      simp [loopOf, Functor.RunsOn, ServedConnection.create]
    · have howner := (hnone _ hj).1
      cases howner
  | listen_call ht => exact ht
  | listen_queue => exact rfl
  | start_loop | start_init | start_listen | accept_release | quit_wakeup => trivial

theorem placedOn_of_code {t : T} {c : ServerCall T} {r : ServerRun T} {new : List (ServerInstr T)}
    (hc : s.code main t c = some (r, new)) : ∀ i ∈ new, i.PlacedOn s.loopOf main t := by
  intro i hi
  cases codes_of_code hc with
  | connection k c hk hcallbacks =>
    obtain ⟨j, hj, rfl⟩ := List.mem_map.mp hi
    exact ServerInstr.placedOn_tag (ConnectionRun.placedOn_code _ hj)
  | queueInLoop | start =>
    rw [List.mem_singleton.mp hi]
    trivial
  | destroy ht hlife =>
    simp only [List.mem_cons, List.mem_append, List.mem_flatMap, List.not_mem_nil,
      or_false] at hi
    grind [ServerInstr.PlacedOn]

omit [DecidableEq T] in
theorem placed_init (h : Init main s) : Placed main s := by
  intro t i hi
  rw [work, h.stack t, List.nil_append] at hi
  obtain ⟨f, hf, rfl⟩ := List.mem_map.mp hi
  rw [h.held t f (EventLoop.mem_held_of_mem_queued hf)]
  trivial

theorem placed_step {l : ServerLabel T} (h : Placed main s) (hnum : Numbered s)
    (hs : Steps main s l s') : Placed main s' := by
  have hcont := continues_step hs
  have hloop : ∀ k, s.Accepted k → s'.loopOf k = s.loopOf k := hcont.loop
  have hmove : ∀ u, ∀ i ∈ s.work u, i.PlacedOn s'.loopOf main u := by
    intro u i hi
    exact (h u i hi).congr fun k hk => hloop k (hnum.owner u i hi k hk)
  apply hs.forall_work (P := fun u i => i.PlacedOn s'.loopOf main u) hmove
  · intro t o head k i c new hmem hi hr j hj
    have hhead := h t head (List.mem_append_left _ hmem)
    have hk : s.Accepted k :=
      hnum.owner t head (List.mem_append_left _ hmem) k (owner_of_ofConnection hi)
    have hplaced : i.PlacedOn (s.loopOf k) main t := placedOn_of_ofConnection hi hhead
    apply ServerInstr.placedOn_tag
    rw [hloop k hk]
    exact ConnectionRun.placedOn_follows hplaced (Shared.follows_of_run hr hj)
  · intro t o i rest r new hs hr hs' j hj
    have hi : i ∈ s.work t := List.mem_append_left _ (by simp [hs])
    have hplaced := placedOn_of_run hr (h t i hi) j hj
    rw [hs']
    exact hplaced
  · intro t loop
    trivial
  · intro t k hk
    trivial
  · intro t loop cb hcb
    cases cb with
    | connection k f => exact hcb.1
    | listen | other => exact hcb
  · intro k hk
    exact ⟨(hloop k hk).symm, by simp [Functor.BoundBy]⟩
  · intro k cb hk
    exact (hloop k hk).symm
  · exact rfl
  · intro t c r new _ hc i hi
    exact (placedOn_of_code hc i hi).congr fun k hk => hloop k (owner_of_code hc i hi k hk)

theorem placed_of_reachable {Good : ServerRun T → ServerLabel T → Prop}
    (h : (system main).Reachable Good s) : Placed main s := by
  apply h.invariant_of (J := Numbered) (fun _ => numbered_of_reachable)
  · intro s hinit
    exact placed_init hinit
  · intro s l s' hi hnum _ hs
    exact placed_step hi hnum (steps_of_step hs.2)

/-! ## What a step leaves alone -/

omit [DecidableEq T] in
/-- What an instruction of a connection does not access, it does not change. -/
theorem members_of_changes (k : ℕ) (io : T) {c c' : Shared T} {i : Instr T} {o : Outcome}
    (h : Shared.Changes c c' o i) :
    (.channel_ k ∉ i.accesses k io → c'.conn.channel_ = c.conn.channel_) ∧
    (.outputBuffer_ k ∉ i.accesses k io → c'.conn.outputBuffer_ = c.conn.outputBuffer_) := by
  cases h with
  | shutdown hc =>
    refine ⟨fun _ => by rw [hc, TcpConnection.shutdownInLoop_channel], fun _ => ?_⟩
    rcases c.conn.shutdownInLoop_cases with hsame | ⟨-, hclosed⟩ <;> rw [hc]
    · rw [hsame]
    · rw [hclosed]
  | drained hc =>
    refine ⟨fun _ => by rw [hc, TcpConnection.halfCloseIfDisconnecting_channel], fun _ => ?_⟩
    rcases c.conn.halfCloseIfDisconnecting_cases with hsame | ⟨-, -, hclosed⟩ <;> rw [hc]
    · rw [hsame]
    · rw [hclosed]
  | interest _ hc | remove hc | state _ hc | same _ hc =>
    constructor <;> intro hnot <;>
      simp_all [Instr.accesses, Functor.accesses, TcpConnection.changeInterest]
  | send _ hc | sendFile _ _ _ hc | write hc =>
    constructor <;> intro hnot <;>
      simp [Instr.accesses, Functor.accesses, EventCallback.accesses] at hnot

theorem acceptChannel_of_run {t : T} {i : ServerInstr T} {o : Outcome} {r : ServerRun T}
    {new : List (ServerInstr T)} (hr : s.run main t i o = some (r, new))
    (hi : .acceptChannel_ ∉ i.accesses s.loopOf main) : r.acceptChannel_ = s.acceptChannel_ := by
  cases i with
  | handleRead =>
    simp only [run] at hr
    split at hr
    · obtain ⟨-, -, rfl⟩ := newConnection_eq hr
      rfl
    · cases hr
      rfl
  | call f =>
    cases f with
    | connection k f => cases hr
    | listen => simp [ServerInstr.accesses] at hi
    | other =>
      cases hr
      rfl
  | destroyConnections | join loop =>
    simp only [run] at hr
    split_ifs at hr
    cases hr
    rfl
  | destroyAcceptor => simp [ServerInstr.accesses] at hi
  | connection k i | queueInLoop loop cb | wakeup loop | startLoop => cases hr
  | _ =>
    cases hr
    rfl

theorem channel_of_step {l : ServerLabel T} {k : ℕ} (hplaced : Placed main s)
    (hs : Steps main s l s') (hk : s.Accepted k) (ht : l.thread s.loopOf main ≠ s.loopOf k) :
    (s'.connection k).conn.channel_ = (s.connection k).conn.channel_ ∧
    (s'.connection k).conn.outputBuffer_ = (s.connection k).conn.outputBuffer_ := by
  have hstep := connection_step hs hk
  generalize s'.connection k = c at hstep ⊢
  cases hstep with
  | run t o head i rest c new htop hi hr =>
    have hhead := hplaced t head (List.mem_append_left _ (by simp [htop]))
    have howner : ∀ a ∈ i.accesses k (s.loopOf k), a.owner s.loopOf main = t :=
      fun a => (placedOn_of_ofConnection hi hhead).owner
    obtain ⟨hchannel, hbuffer⟩ :=
      members_of_changes k (s.loopOf k) (Shared.changes_of_run hr)
    simp only [setConnection, Function.update_self]
    exact ⟨hchannel fun ha => ht (howner _ ha).symm, hbuffer fun ha => ht (howner _ ha).symm⟩
  | reported => exact absurd rfl ht
  | _ => exact ⟨rfl, rfl⟩

theorem connections_of_step {l : ServerLabel T} (hplaced : Placed main s)
    (hs : Steps main s l s') (ht : l.thread s.loopOf main ≠ main) :
    s'.connections_ = s.connections_ ∧ s'.acceptChannel_ = s.acceptChannel_ := by
  cases hs with
  | run t o head j i rest c new hs hi hr =>
    have hhead := hplaced t head (List.mem_append_left _ (by simp [hs]))
    have hremove : i ≠ .call .removeConnectionInLoop := by
      rintro rfl
      exact ht (placedOn_of_ofConnection hi hhead)
    simp [setStack, setConnection, hremove]
  | own t o i rest r new hs hr =>
    have hi : i.PlacedOn s.loopOf main t := hplaced t i (List.mem_append_left _ (by simp [hs]))
    rcases run_cases hr with ⟨sockfd, rfl, hnew⟩ | ⟨-, -, hrun⟩
    · exact absurd hi ht
    · have haccept : r.acceptChannel_ = s.acceptChannel_ :=
        acceptChannel_of_run hr fun ha => ht (hi.owner ha).symm
      refine ⟨?_, haccept⟩
      rw [hrun]
      rfl
  | destroyNext k rest hs hk hreg => exact absurd rfl ht
  | poll t wakeup reports accept loop hs hr hacc ha =>
    cases accept with
    | none => exact ⟨rfl, rfl⟩
    | some revents =>
      simp only [Option.all_some, Bool.and_eq_true, decide_eq_true_eq] at hacc
      exact absurd hacc.1 ht
  | acceptEvent hs ha => exact absurd rfl ht
  | call t c r new hu hc =>
    rw [frame_of_code hc]
    exact ⟨rfl, rfl⟩
  | _ => exact ⟨rfl, rfl⟩

/-- Every step accesses only what belongs to the thread that takes it. -/
theorem owner_of_accesses {l : ServerLabel T} (hplaced : Placed main s) (hs : Steps main s l s') :
    ∀ a ∈ s.accesses main l, a.2.owner s.loopOf main = a.1 := by
  have hexec : ∀ {t i rest}, s.stack t = i :: rest → ∀ o, ∀ a ∈ s.accesses main (.exec t o),
      a.2.owner s.loopOf main = a.1 := by
    intro t i rest hstack o a ha
    have hi : i.PlacedOn s.loopOf main t := hplaced t i (List.mem_append_left _ (by simp [hstack]))
    simp only [accesses, hstack, List.head?_cons, Option.toList_some, List.flatMap_cons,
      List.flatMap_nil, List.append_nil, List.mem_map] at ha
    obtain ⟨access, haccess, rfl⟩ := ha
    exact hi.owner haccess
  intro a ha
  cases hs with
  | run t o head k i rest c new hs hi hr => exact hexec hs o a ha
  | own t o i rest r new hs hr => exact hexec hs o a ha
  | queue t o loop cb rest hs => exact hexec hs o a ha
  | wakeup t o loop rest hs => exact hexec hs o a ha
  | control t c loop hs hreturned hd hadv =>
    simp only [accesses] at ha
    split_ifs at ha
    · rw [List.mem_singleton.mp ha]
      rfl
    · cases ha
  | poll t wakeup reports accept loop hs hr hacc hadv =>
    simp only [accesses, List.mem_append, List.mem_map, Option.mem_toList] at ha
    rcases ha with ⟨r, hmem, rfl⟩ | ⟨revents, haccept, rfl⟩
    · exact (hr r hmem).2.1
    · rw [Option.mem_def.mp haccept] at hacc
      simp only [Option.all_some, Bool.and_eq_true, decide_eq_true_eq] at hacc
      exact hacc.1.symm
  | startLoop | destroyNext | handleEvent | acceptEvent =>
    rw [List.mem_singleton.mp ha]
    rfl
  | call t c r new hu hc => cases ha
  | store t address value hu => cases ha
  | pointers l k n hk hl =>
    obtain ⟨t, rfl | rfl⟩ := hl <;> cases ha

/-- Every step accesses only what belongs to the thread that takes it, and
leaves alone what belongs to another. A functor in `pendingFunctors_` of a loop is of a
connection of that loop, or on the server's loop of the server or its acceptor,
or of the user. -/
theorem one_loop_per_thread (h : (system main).Reachable TransitionSystem.AnyStep s) :
    (∀ l s', (system main).Step s l s' →
      (∀ a ∈ s.accesses main l, a.2.owner s.loopOf main = a.1) ∧
      (∀ k, s.Accepted k → l.thread s.loopOf main ≠ s.loopOf k →
        (s'.connection k).conn.channel_ = (s.connection k).conn.channel_ ∧
        (s'.connection k).conn.outputBuffer_ = (s.connection k).conn.outputBuffer_) ∧
      (l.thread s.loopOf main ≠ main →
        s'.connections_ = s.connections_ ∧ s'.acceptChannel_ = s.acceptChannel_)) ∧
    (∀ t, ∀ f ∈ (s.loops t).pendingFunctors_, f.RunsOn s.loopOf main t) := by
  have hplaced := placed_of_reachable h
  constructor
  · intro l s' hs
    have hsteps := steps_of_step hs.2
    refine ⟨owner_of_accesses hplaced hsteps, ?_, connections_of_step hplaced hsteps⟩
    intro k hk ht
    exact channel_of_step hplaced hsteps hk ht
  · intro t f hf
    have hq : f ∈ (s.loops t).queued := by
      simp [EventLoop.queued, hf]
    exact hplaced t _ (List.mem_append_right _ (List.mem_map_of_mem hq))

/-- When the first of two connections is about to be closed, its channel is
accessed by the thread of its loop. -/
theorem one_loop_per_thread_closing :
    ∃ s s' : ServerRun ConnectionRun.Party,
      (ConnectionRun.Party.io, Access.channel_ 1) ∈ s.accesses .main (.exec .io silent) ∧
      (system .main).Step s (.exec .io silent) s' ∧
      ∀ a ∈ s.accesses .main (.exec .io silent), a.2.owner s.loopOf .main = a.1 := by
  have hrun : (TransitionSystem.replay (TransitionSystem.guarded TransitionSystem.AnyStep
      (TransitionSystem.guarded Permitted (step .main))) (newServer 1)
      (List.flatten [listening, accepting 7, establishing, accepting 8,
        [.poll .io true [(1, EPOLLHUP)] none, .handleEvent 1]])).map
        (fun s => s.stack .io)
      = some [.connection 1 (.handle .closeCallback), .connection 1 .release] := by
    decide +kernel
  obtain ⟨s, hs, hobs⟩ := exists_reachable_of_replay (init_newServer 1) _ hrun
  have hstep : (system .main).Step s (.exec .io silent) _ :=
    ⟨trivial, by simp only [step, exec, hobs]; rfl⟩
  refine ⟨s, _, ?_, hstep, ((one_loop_per_thread hs).1 _ _ hstep).1⟩
  simp [accesses, hobs, ServerInstr.accesses, Instr.accesses, EventCallback.accesses]

end ServerRun
end MuduoCore
