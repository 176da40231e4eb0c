import MuduoCore.Connection.ConnectionRun

/-!
# Where instructions run

Every functor bound to the connection runs on the loop's thread, apart from
`removeConnectionInLoop`, which runs on the server's. A payload is bound by the
thread that called `send`. What binds the raw `this` goes through the queue
only when it comes from another thread than the loop's.
-/

namespace MuduoCore

def Functor.RunsOn {P T : Type*} (io main t : T) : Functor P → Prop
  | other => True
  | removeConnectionInLoop => t = main
  | _ => t = io

/-- The functor is bound to the connection and holds no `shared_ptr` to it. -/
def Functor.raw {P : Type*} (f : Functor P) : Bool := f.bound && !f.shared

/-- If the functor binds a payload, thread `t` has bound it. -/
def Functor.BoundBy {T : Type*} (t : T) (f : Functor (Payload T)) : Prop :=
  ∀ p, f = .sendInLoop p → p.caller = t

def Instr.PlacedOn {T : Type*} (io main t : T) : Instr T → Prop
  | send p => p.caller = t
  | setState state => state = .kDisconnecting ∨ t = io
  | runInLoop loop cb => cb.RunsOn io main loop ∧ cb.BoundBy t
  | queueInLoop loop cb => cb.RunsOn io main loop ∧ cb.BoundBy t ∧ (cb.raw = true → t ≠ io)
  | call f => f.RunsOn io main t
  | handle _ | drained | changeInterest _ | remove | connectionCallback | messageCallback
  | closeCallback => t = io
  | sendFile _ _ _ | shutdown | wakeup _ | user | release => True

theorem Functor.runsOn_of_followsUp {P T : Type*} {io main : T} {f : Functor P}
    (h : f.followsUp = true) : f.RunsOn io main io := by
  cases f <;> simp_all [Functor.followsUp, Functor.RunsOn]

theorem Functor.raw_of_followsUp {P : Type*} {f : Functor P} (h : f.followsUp = true) :
    f.raw = false := by
  cases f <;> simp_all [Functor.followsUp, Functor.raw, Functor.bound, Functor.shared]

theorem Functor.runsOn_io_of_raw {P T : Type*} {io main t : T} {f : Functor P}
    (hraw : f.raw = true) (h : f.RunsOn io main t) : t = io := by
  cases f with
  | sendInLoop p | shutdownInLoop => exact h
  | _ => cases hraw

theorem Functor.boundBy_of_followsUp {T : Type*} {t : T} {f : Functor (Payload T)}
    (h : f.followsUp = true) : f.BoundBy t := by
  rintro p rfl
  cases h

namespace ConnectionRun

variable {T : Type*} [DecidableEq T] {io main : T} {s s' : ConnectionRun T}

def Placed (io main : T) (s : ConnectionRun T) : Prop :=
  ∀ t, ∀ i ∈ s.work t, i.PlacedOn io main t

omit [DecidableEq T] in
theorem placedOn_queue_followsUp {f : Functor (Payload T)} {t : T} (h : f.followsUp = true) :
    (Instr.queueInLoop io f).PlacedOn io main t := by
  refine ⟨Functor.runsOn_of_followsUp h, Functor.boundBy_of_followsUp h, ?_⟩
  rw [Functor.raw_of_followsUp h]
  simp

omit [DecidableEq T] in
theorem placedOn_follows {t : T} {i j : Instr T} (h : i.PlacedOn io main t)
    (hf : Shared.Follows io main t i j) : j.PlacedOn io main t := by
  cases hf with
  | send_call p ht | sendFile_call _ _ _ ht => exact ht
  | send_run p ht =>
    refine ⟨rfl, ?_⟩
    rintro q ⟨⟩
    exact h
  | shutdown_store => exact Or.inl rfl
  | sendFile_run | shutdown_run | closeCallback_run => exact ⟨rfl, by simp [Functor.BoundBy]⟩
  | run_call loop cb ht =>
    subst ht
    exact h.1
  | run_queue loop cb ht =>
    refine ⟨h.1, h.2, ?_⟩
    intro hraw hio
    exact ht (hio.trans (Functor.runsOn_io_of_raw hraw h.1).symm)
  | establish_store | destroy_store | close_store => exact Or.inr h
  | remove_queue =>
    exact ⟨rfl, by simp [Functor.BoundBy], by simp [Functor.raw, Functor.shared]⟩
  | sent_queue p g hg | sentFile_queue _ _ _ g hg | write_queue g hg =>
    exact placedOn_queue_followsUp hg
  | run_release | writeComplete_user | highWaterMark_user _ | close_release
  | connectionCallback_user | messageCallback_user => trivial
  | _ => exact h

omit [DecidableEq T] in
theorem placedOn_code (s : ConnectionRun T) {t : T} {c : UserCall T} {i : Instr T}
    (h : i ∈ s.code t c) : i.PlacedOn io main t := by
  cases c with
  | queueInLoop loop =>
    rw [List.mem_singleton.mp h]
    exact ⟨trivial, by simp [Functor.BoundBy], by simp [Functor.raw, Functor.bound]⟩
  | _ =>
    simp only [code, List.mem_cons, List.not_mem_nil, or_false] at h
    rcases h with rfl | rfl <;> simp [Instr.PlacedOn]

theorem placed_init (h : Init io main s) : Placed io main s := by
  intro t i hi
  rcases h.mem_work hi with ⟨_, rfl⟩ | rfl | rfl
  · exact ⟨rfl, by simp [Functor.BoundBy]⟩
  · trivial
  · trivial

theorem placed_step {l : RunLabel T} (h : Placed io main s) (hs : Steps io main s l s') :
    Placed io main s' := by
  refine hs.forall_work h ?_ (fun _ _ => trivial) (fun _ => trivial) ?_ (fun _ _ => rfl) ?_
  · intro t o i new _ hi hr _ j hj
    exact placedOn_follows hi (Shared.follows_of_run hr hj)
  · intro t loop cb hq
    exact hq.1
  · intro t c _ i hi
    exact placedOn_code s hi

theorem placed_of_reachable {Good : ConnectionRun T → RunLabel T → Prop}
    (h : (system io main).Reachable Good s) : Placed io main s := by
  refine h.invariant (fun _ => placed_init) ?_
  intro s l s' hi _ hs
  exact placed_step hi (steps_of_step hs.2)

end ConnectionRun
end MuduoCore
