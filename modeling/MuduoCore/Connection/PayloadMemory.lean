import MuduoCore.Connection.Placement

/-!
# The memory behind a queued payload

`send` from another thread binds `buf.c_str()` and `buf.size()`. What
`sendInLoop` then finds behind the pointer is what `buf` held, provided that no
store has changed it while the payload was outstanding.
-/

namespace MuduoCore

/-- The payload that the instruction still has to deliver. -/
def Instr.payload {T : Type*} : Instr T → Option (Payload T)
  | send p | runInLoop _ (.sendInLoop p) | queueInLoop _ (.sendInLoop p) | call (.sendInLoop p) =>
    some p
  | _ => none

/-- The memory still holds what `buf` held. -/
def Payload.IntactIn {T : Type*} (memory : ℕ → Byte) (p : Payload T) : Prop :=
  readMemory memory p.data p.len = p.bytes

theorem readMemory_update {memory : ℕ → Byte} {address data len : ℕ} {value : Byte}
    (h : address ∈ List.range' data len → memory address = value) :
    readMemory (Function.update memory address value) data len = readMemory memory data len := by
  refine List.map_congr_left ?_
  intro a ha
  by_cases he : a = address
  · subst he
    rw [Function.update_self, h ha]
  · rw [Function.update_of_ne he]

theorem payload_queue_followsUp {T : Type*} {io : T} {f : Functor (Payload T)}
    (h : f.followsUp = true) : (Instr.queueInLoop io f).payload = none := by
  cases f with
  | sendInLoop p => cases h
  | _ => rfl

theorem payload_of_follows {T : Type*} {io main t : T} {i j : Instr T}
    (h : Shared.Follows io main t i j) : j.payload = none ∨ j.payload = i.payload := by
  cases h with
  | send_call | send_run => exact Or.inr rfl
  | run_call loop cb | run_queue loop cb =>
    right
    cases cb <;> rfl
  | sent_queue p g hg | sentFile_queue _ _ _ g hg | write_queue g hg =>
    exact Or.inl (payload_queue_followsUp hg)
  | _ => exact Or.inl rfl

namespace ConnectionRun

variable {T : Type*} [DecidableEq T] {io main : T} {s s' : ConnectionRun T}

/-- A store changes no byte of a payload that is still to be delivered. -/
def LeavesPayloads (s : ConnectionRun T) : RunLabel T → Prop
  | .store _ address value => ∀ t, ∀ i ∈ s.work t, ∀ p ∈ i.payload,
      address ∈ List.range' p.data p.len → s.memory address = value
  | _ => True

instance [Fintype T] (s : ConnectionRun T) : (l : RunLabel T) → Decidable (LeavesPayloads s l)
  | .store _ _ _ => inferInstanceAs (Decidable (∀ t, ∀ i ∈ s.work t, ∀ p ∈ i.payload, _ → _))
  | .exec _ _ | .control _ _ | .report _ _ | .handleEvent | .call _ _ => isTrue trivial

/-- Every outstanding payload is intact, and every executed one was. -/
structure PayloadsIntact (s : ConnectionRun T) : Prop where
  outstanding : ∀ t, ∀ i ∈ s.work t, ∀ p ∈ i.payload, p.IntactIn s.memory
  executed : ∀ e ∈ s.executed, e.data = e.payload.bytes

theorem payloadsIntact_init (h : Init io main s) : PayloadsIntact s := by
  constructor
  · intro t i hi p hp
    rcases h.mem_work hi with ⟨_, rfl⟩ | rfl | rfl <;> cases hp
  · simp [h.executed]

/-- Between two stores, what is outstanding stays intact. -/
theorem outstanding_step {l : RunLabel T} (h : PayloadsIntact s) (hs : Steps io main s l s') :
    ∀ t, ∀ i ∈ s'.work t, ∀ p ∈ i.payload, p.IntactIn s.memory := by
  apply hs.forall_work h.outstanding
  · intro t o i new _ hi hr _ j hj p hp
    rcases payload_of_follows (Shared.follows_of_run hr hj) with hnone | hsame
    · rw [hnone] at hp
      cases hp
    · rw [hsame] at hp
      exact hi p hp
  · intro t loop p hp
    cases hp
  · intro t p hp
    cases hp
  · intro t loop cb hq p hp
    apply hq p
    cases cb <;> exact hp
  · intro _ cb p hp
    cases hp
  · intro t c _ i hi p hp
    cases c with
    | send data len =>
      simp only [code, List.mem_cons, List.not_mem_nil, or_false] at hi
      rcases hi with rfl | rfl
      · cases hp
        rfl
      · cases hp
    | _ =>
      simp only [code, List.mem_cons, List.not_mem_nil, or_false] at hi
      rcases hi with rfl | rfl <;> cases hp

theorem executed_run {t : T} {o : Outcome} {i : Instr T} {rest new : List (Instr T)}
    {c : Shared T} (h : PayloadsIntact s) (hs : s.stack t = i :: rest)
    (hr : s.toShared.run io main t i o = some (c, new)) :
    ∀ e ∈ c.executed, e.data = e.payload.bytes := by
  intro e he
  by_cases hi : ∃ p, i = .call (.sendInLoop p)
  · obtain ⟨p, rfl⟩ := hi
    obtain ⟨_, rfl, _⟩ := Shared.run_sendInLoop hr
    rcases List.mem_append.mp he with he | he
    · exact h.executed e he
    · rw [List.mem_singleton.mp he]
      exact h.outstanding t (.call (.sendInLoop p)) (by simp [work, hs]) p rfl
  · simp only [not_exists] at hi
    rw [(Shared.frame_of_run hr).executed hi] at he
    exact h.executed e he

theorem payloadsIntact_step {l : RunLabel T} (h : PayloadsIntact s) (hgood : LeavesPayloads s l)
    (hs : Steps io main s l s') : PayloadsIntact s' := by
  have hout := outstanding_step h hs
  cases hs with
  | run t o i rest c new hs hr =>
    have hframe := Shared.frame_of_run hr
    refine ⟨?_, ?_⟩
    · rw [show c.memory = s.memory from hframe.memory]
      exact hout
    · exact executed_run h hs hr
  | store t address value hu =>
    refine ⟨?_, h.executed⟩
    intro u i hi p hp
    rw [Payload.IntactIn, readMemory_update (hgood u i hi p hp)]
    exact h.outstanding u i hi p hp
  | _ => exact ⟨hout, h.executed⟩

/-- In every run whose stores leave outstanding payloads alone, every
`sendInLoop` that has run found the bytes that `buf` held when `send` was
called, and the one that runs next adds exactly these bytes to the output,
unless its direct write meets an error that the code takes for fatal. -/
theorem payload_delivered_as_sent (h : (system io main).Reachable LeavesPayloads s) :
    (∀ e ∈ s.executed, e.data = e.payload.bytes) ∧
      ∀ t o p rest s', s.stack t = .call (.sendInLoop p) :: rest →
        s.step io main (.exec t o) = some s' →
        s'.conn.output = s.conn.output ++
          if s.conn.writesDirectly && o.faultError then [] else p.bytes := by
  have hinv : PayloadsIntact s := by
    apply h.invariant
    · intro s
      exact payloadsIntact_init
    · intro s l s' hi hgood hs
      exact payloadsIntact_step hi hgood (steps_of_step hs.2)
  refine ⟨hinv.executed, ?_⟩
  intro t o p rest s' hs hstep
  have hintact : s.payloadData p = p.bytes :=
    hinv.outstanding t (.call (.sendInLoop p)) (by simp [work, hs]) p rfl
  simp only [step, exec, hs, Option.map_eq_some_iff] at hstep
  obtain ⟨⟨c, new⟩, hr, rfl⟩ := hstep
  obtain ⟨_, rfl, _⟩ := Shared.run_sendInLoop hr
  rw [← hintact]
  exact s.conn.sendInLoop_output (s.payloadData p) o

def moved (n : ℕ) : Outcome := ⟨.ok n, .other 0⟩

/-- The user sends one byte, which the loop writes at once. -/
def sendOneByte (between : List (RunLabel Party)) : List (RunLabel Party) :=
  establish ++ [.call .user (.send 0 1)] ++ execs .user 5 ++ between ++ wakeToSwap .io ++
    [.control .io .runNext, .exec .io (moved 1)]

theorem payload_delivered_as_sent_untouched :
    ∃ s : ConnectionRun Party, s.conn.written = [0] ∧
      ∀ e ∈ s.executed, e.data = e.payload.bytes := by
  have hrun : (TransitionSystem.replay (TransitionSystem.guarded LeavesPayloads
      (TransitionSystem.guarded Permitted (step .io .main))) (newConnection false)
      (sendOneByte [.store .user 1 7])).map (fun s => s.conn.written) = some [0] := by
    decide +kernel
  obtain ⟨s, hs, hobs⟩ := exists_reachable_of_replay (init_newConnection false) _ hrun
  exact ⟨s, hobs, (payload_delivered_as_sent hs).1⟩

/-- The user reuses the string once `send` has returned: the byte written is
not the byte sent. -/
theorem reused_payload_not_delivered :
    ∃ s : ConnectionRun Party, (system .io .main).Reachable TransitionSystem.AnyStep s ∧
      s.conn.written = [7] ∧ s.executed.map (fun e => e.payload.bytes) = [[0]] := by
  have hrun : (TransitionSystem.replay (TransitionSystem.guarded TransitionSystem.AnyStep
      (TransitionSystem.guarded Permitted (step .io .main))) (newConnection false)
      (sendOneByte [.store .user 0 7])).map
        (fun s => (s.conn.written, s.executed.map fun e => e.payload.bytes))
      = some ([7], [[0]]) := by decide +kernel
  obtain ⟨s, hs, hobs⟩ := exists_reachable_of_replay (init_newConnection false) _ hrun
  obtain ⟨hw, he⟩ := Prod.mk.inj hobs
  exact ⟨s, hs, hw, he⟩

end ConnectionRun
end MuduoCore
