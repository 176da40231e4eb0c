import MuduoCore.Connection.HalfClose

/-!
# `sendFile` and the calls after it

One call of `sendFile` is followed through a run: its functor on the stack of
the calling thread, in the queue of the loop, and on the stack of the loop's
thread. A functor that does not hand over the whole file queues another one for
the rest, behind everything that has been queued meanwhile; and once `shutdown`
has stored `kDisconnecting`, a functor that is still to run hands over nothing.
Where neither happens, the file is in the kernel, in one piece, before anything
that the same thread sends after it, and before the half-close.
-/

namespace MuduoCore

/-- Where the functor of a call of `sendFile` is. -/
inductive Transfer
  /-- on the stack of the calling thread, which is not the loop's -/
  | issued
  /-- queued, behind so many functors -/
  | queued (ahead : ℕ)
  /-- next on the stack of the loop's thread -/
  | started
  /-- it has run, when so many bytes had been written -/
  | ran (position : ℕ)
  deriving DecidableEq, Repr

def Transfer.pending : Transfer → Bool
  | ran _ => false
  | _ => true

/-- A call of `sendFile` that has found the connection `kConnected`, when so
many payloads of its thread had been accepted. -/
structure FileCall (T : Type*) where
  caller : T
  fileDescriptor : ℤ
  offset : ℕ
  count : ℕ
  sentBefore : ℕ
  transfer : Transfer
  deriving DecidableEq, Repr

namespace FileCall

variable {T : Type*}

def functor (f : FileCall T) : Functor (Payload T) :=
  .sendFileInLoop f.fileDescriptor f.offset f.count

def bytes (f : FileCall T) (s : ConnectionRun T) : List Byte :=
  ((s.files f.fileDescriptor).drop f.offset).take f.count

/-- All bytes have been written, the first one at this position. -/
def SentAt (f : FileCall T) (s : ConnectionRun T) (position : ℕ) : Prop :=
  position + f.count ≤ s.conn.written.length ∧
    (s.conn.written.drop position).take f.count = f.bytes s

variable [DecidableEq T]

def next (io : T) (f : FileCall T) (s : ConnectionRun T) (l : RunLabel T) : Transfer :=
  match f.transfer, l with
  | .issued, .exec t _ =>
    match (s.stack t).head? with
    | some (.queueInLoop _ _) =>
      if t = f.caller then .queued (s.loops io).queued.length else .issued
    | _ => .issued
  | .queued ahead, .control t .runNext =>
    if t = io then if ahead = 0 then .started else .queued (ahead - 1) else .queued ahead
  | .started, .exec t _ => if t = io then .ran s.conn.written.length else .started
  | transfer, _ => transfer

def begins (io : T) (s : ConnectionRun T) : RunLabel T → Option (FileCall T)
  | .exec t _ =>
    match (s.stack t).head? with
    | some (.sendFile fileDescriptor offset count) =>
      if s.conn.connected then
        some ⟨t, fileDescriptor, offset, count, (ofCaller t s.accepted).length,
          if t = io then .started else .issued⟩
      else none
    | _ => none
  | _ => none

end FileCall

/-- A run in which one call of `sendFile` is followed, once it has been made. -/
structure FollowedRun (T : Type*) where
  run : ConnectionRun T
  file : Option (FileCall T)

namespace FollowedRun

variable {T : Type*} [DecidableEq T]

/-- The flag of a step tells whether to follow the call that it makes. -/
def nextFile (io : T) (s : FollowedRun T) (l : RunLabel T × Bool) : Option (FileCall T) :=
  match s.file with
  | some f => some { f with transfer := f.next io s.run l.1 }
  | none => if l.2 then FileCall.begins io s.run l.1 else none

def step (io main : T) (s : FollowedRun T) (l : RunLabel T × Bool) : Option (FollowedRun T) :=
  (s.run.step io main l.1).map fun run => ⟨run, s.nextFile io l⟩

def Permitted (s : FollowedRun T) (l : RunLabel T × Bool) : Prop := s.run.Permitted l.1

def system (io main : T) : TransitionSystem (FollowedRun T) (RunLabel T × Bool) where
  Init s := ConnectionRun.Init io main s.run ∧ s.file = none
  Step s l s' := s.Permitted l ∧ s.step io main l = some s'

/-- While the functor of the call is still to run, `shutdown` does not store
`kDisconnecting`. When it runs, nothing waits to be written and `sendfile(2)`
takes all there is. -/
def KeepsFileOrder (io : T) (s : FollowedRun T) : RunLabel T × Bool → Prop
  | (.exec t o, _) => ∀ f ∈ s.file, f.transfer.pending = true →
      (s.run.stack t).head? ≠ some (.setState .kDisconnecting) ∧
      (t = io → f.transfer = .started →
        f.count = 0 ∨ s.run.conn.writesDirectly = true ∧ o.result = .ok f.count)
  | _ => True

variable {io main : T} {s s' : FollowedRun T}

theorem reachable_run {Good : FollowedRun T → RunLabel T × Bool → Prop}
    (h : (system io main).Reachable Good s) :
    (ConnectionRun.system io main).Reachable TransitionSystem.AnyStep s.run := by
  apply h.invariant (I := fun s => (ConnectionRun.system io main).Reachable
    TransitionSystem.AnyStep s.run)
  · intro s hs
    exact .init hs.1
  · rintro s l s' hrun - ⟨hp, hs⟩
    obtain ⟨run', hrun', rfl⟩ := Option.map_eq_some_iff.mp hs
    exact .step hrun trivial ⟨hp, hrun'⟩

end FollowedRun

namespace ConnectionRun

variable {T : Type*} [DecidableEq T] {io main : T} {s s' : ConnectionRun T}

/-! ## The half-close waits for `shutdown` -/

/-- The connection has not been half-closed, and every `shutdown` that has begun
has still to store `kDisconnecting`. -/
structure Open (s : ConnectionRun T) : Prop where
  halfClosed : s.conn.halfClosed = false
  state : s.conn.state_ ≠ .kDisconnecting
  storing : ∀ t, ∀ i ∈ s.work t, i.functor = some .shutdownInLoop →
    (s.stack t).head? = some (.setState .kDisconnecting)

omit [DecidableEq T] in
theorem Open.not_shuts (h : Open s) {t : T}
    (ht : (s.stack t).head? ≠ some (.setState .kDisconnecting)) {i : Instr T}
    (hi : i ∈ s.work t) : i.functor ≠ some .shutdownInLoop :=
  fun hf => ht (h.storing t i hi hf)

omit [DecidableEq T] in
theorem shuts_of_follows {t : T} {i j : Instr T} (h : Shared.Follows io main t i j)
    (hj : j.functor = some .shutdownInLoop) : i = .shutdown ∨ i.functor = some .shutdownInLoop := by
  cases h with
  | shutdown_run => exact Or.inl rfl
  | run_call | run_queue => exact Or.inr hj
  | sent_queue p g hg | sentFile_queue _ _ _ g hg | write_queue g hg =>
    cases hj
    cases hg
  | _ => cases hj

omit [DecidableEq T] in
theorem Open.storing_of (h : Open s) (t : T) (hstack : ∀ u ≠ t, s'.stack u = s.stack u)
    (hwork : ∀ u ≠ t, ∀ i ∈ s'.work u, i.functor = some .shutdownInLoop → i ∈ s.work u)
    (ht : ∀ i ∈ s'.work t, i.functor = some .shutdownInLoop →
      (s'.stack t).head? = some (.setState .kDisconnecting)) :
    ∀ u, ∀ i ∈ s'.work u, i.functor = some .shutdownInLoop →
      (s'.stack u).head? = some (.setState .kDisconnecting) := by
  intro u i hi hf
  by_cases hu : u = t
  · subst hu
    exact ht i hi hf
  · rw [hstack u hu]
    exact h.storing u i (hwork u hu i hi hf) hf

theorem Open.storing_step {l : RunLabel T} (h : Open s)
    (hstore : ∀ t o, l = .exec t o → (s.stack t).head? ≠ some (.setState .kDisconnecting))
    (hs : Steps io main s l s') :
    ∀ t, ∀ i ∈ s'.work t, i.functor = some .shutdownInLoop →
      (s'.stack t).head? = some (.setState .kDisconnecting) := by
  cases hs with
  | run t o i rest c new hs hr =>
    have hnone := fun {j} => h.not_shuts (hstore t o rfl) (i := j)
    obtain ⟨w, hold, hnew, hother⟩ : Replaces s
        { s with toShared := c, stack := Function.update s.stack t (new ++ rest) } t [i] new :=
      replaces_run hs
    refine h.storing_of t (fun u hu => Function.update_of_ne hu ..) ?_ ?_
    · intro u hu j hj _
      rwa [hother u hu] at hj
    · intro j hj hf
      rw [hnew] at hj
      rcases List.mem_append.mp hj with hj | hj
      · rcases shuts_of_follows (Shared.follows_of_run hr hj) hf with rfl | hi
        · cases hr
          split_ifs at hj with hc
          · simp [hc]
          · cases hj
        · exact absurd hi (hnone (by simp [hold]))
      · exact absurd hf (hnone (by simp [hold, hj]))
  | queue t o loop cb rest hs =>
    have hnone := fun {j} => h.not_shuts (hstore t o rfl) (i := j)
    obtain ⟨w, hold, hwork⟩ := queues_queue hs
    have hcb : cb ≠ .shutdownInLoop := by
      rintro rfl
      exact hnone (j := .queueInLoop loop .shutdownInLoop) (by simp [hold]) rfl
    have hpush : ∀ u, ∀ j ∈ (if u = loop then [Instr.call cb] else []),
        j.functor ≠ some .shutdownInLoop := by
      intro u j hj
      split_ifs at hj
      · rw [List.mem_singleton.mp hj]
        simpa [Instr.functor] using hcb
      · cases hj
    refine h.storing_of t (fun u hu => Function.update_of_ne hu ..) ?_ ?_
    · intro u hu j hj hf
      rw [hwork u, if_neg hu] at hj
      rcases List.mem_append.mp hj with hj | hj
      · exact hj
      · exact absurd hf (hpush u j hj)
    · intro j hj hf
      exfalso
      rw [hwork t, if_pos rfl] at hj
      rcases List.mem_append.mp hj with hj | hj
      · simp only [List.cons_append, List.mem_cons, List.mem_append] at hj
        rcases hj with rfl | hj | hj
        · cases hf
        · unfold Functor.destructor at hj
          split_ifs at hj
          · rw [List.mem_singleton.mp hj] at hf
            cases hf
          · cases hj
        · exact hnone (by simp [hold, hj]) hf
      · exact hpush t j hj hf
  | wakeup t o loop rest hs =>
    have hnone := fun {j} => h.not_shuts (hstore t o rfl) (i := j)
    obtain ⟨w, hold, hnew, hother⟩ := replaces_wakeup hs
    refine h.storing_of t (fun u hu => Function.update_of_ne hu ..) ?_ ?_
    · intro u hu j hj _
      rwa [hother u hu] at hj
    · intro j hj hf
      rw [hnew, List.nil_append] at hj
      exact absurd hf (hnone (by simp [hold, hj]))
  | control t c loop hs hact ha =>
    refine h.storing_of t (fun u hu => Function.update_of_ne hu ..) ?_ ?_
    · intro u _ j hj _
      rwa [work_control hs ha] at hj
    · intro j hj hf
      rw [work_control hs ha] at hj
      exact absurd hf (h.not_shuts (by simp [hs]) hj)
  | report wakeup revents mask loop hs hm hr ha =>
    intro u j hj hf
    rw [work_report ha] at hj
    exact h.storing u j hj hf
  | handleEvent hs hact =>
    obtain ⟨w, hold, hnew, hother⟩ : Replaces s
        { s.setStack io
          (s.conn.channel_.channel.handleEventWithGuard.map .handle ++ [.release]) with
          active := false } io [] _ := replaces_handleEvent hs
    refine h.storing_of io (fun u hu => Function.update_of_ne hu ..) ?_ ?_
    · intro u hu j hj _
      rwa [hother u hu] at hj
    · intro j hj hf
      rw [hnew] at hj
      simp only [List.mem_append, List.mem_map, List.mem_singleton] at hj
      rcases hj with (⟨cb, _, rfl⟩ | rfl) | hj
      · cases hf
      · cases hf
      · refine absurd hf (h.not_shuts (t := io) ?_ ?_)
        · simp [hs]
        · simpa [hold] using hj
  | call t c hu =>
    obtain ⟨w, hold, hnew, hother⟩ := replaces_push s t (s.code t c) s.active
    have hhead : (s.stack t).head? ≠ some (.setState .kDisconnecting) := by
      rcases hu with ⟨hs, _⟩ | hs <;> rw [hs] <;> simp
    refine h.storing_of t (fun u hu => Function.update_of_ne hu ..) ?_ ?_
    · intro u hu j hj _
      exact (hother u hu) ▸ hj
    · intro j hj hf
      exfalso
      have hj' : j ∈ s.code t c ++ w := by
        rw [← hnew]
        exact hj
      rcases List.mem_append.mp hj' with hj | hj
      · cases userInstr_of_mem_code hj <;> cases hf
      · exact h.not_shuts hhead (by simpa [hold] using hj) hf
  | store t address value hu => exact h.storing

theorem open_step {l : RunLabel T} (h : Open s)
    (hstore : ∀ t o, l = .exec t o → (s.stack t).head? ≠ some (.setState .kDisconnecting))
    (hs : Steps io main s l s') : Open s' := by
  have hstoring := h.storing_step hstore hs
  cases hs with
  | run t o i rest c new hs hr =>
    have hhead : (s.stack t).head? = some i := by rw [hs, List.head?_cons]
    refine ⟨?_, ?_, hstoring⟩
    · by_contra hclosed
      obtain ⟨hi, -⟩ := halfClosed_of_run hr (by simpa using hclosed) h.halfClosed
      cases i with
      | call f =>
        cases f with
        | shutdownInLoop =>
          exact h.not_shuts (hstore t o rfl) (i := .call .shutdownInLoop) (by simp [work, hs]) rfl
        | _ => cases hi
      | drained => exact h.state (by simpa [Instr.halfCloses] using hi)
      | _ => cases hi
    · by_cases hset : ∃ state, i = .setState state
      · obtain ⟨state, rfl⟩ := hset
        cases hr
        rintro (rfl : state = .kDisconnecting)
        exact hstore t o rfl hhead
      · simp only [not_exists] at hset
        rw [(Shared.frame_of_run hr).state hset]
        exact h.state
  | _ => exact ⟨h.halfClosed, h.state, hstoring⟩

theorem state_step {l : RunLabel T} (h : s.conn.state_ ≠ .kConnected) (hafter : AfterUp s)
    (hs : Steps io main s l s') : s'.conn.state_ ≠ .kConnected := by
  cases hs with
  | run t o i rest c new hs hr =>
    exact state_of_run h (hafter.established t i (by simp [work, hs])) hr
  | _ => exact h

theorem state_of_store {t : T} {o : Outcome} {state : StateE} {rest : List (Instr T)}
    (h : s.stack t = .setState state :: rest) (hs : Steps io main s (.exec t o) s') :
    s'.conn.state_ = state := by
  cases hs with
  | run _ _ i rest' c new hs hr =>
    rw [h] at hs
    cases hs
    cases hr
    rfl
  | queue _ _ loop cb rest' hs | wakeup _ _ loop rest' hs =>
    rw [h] at hs
    cases hs

/-- A connection that is `kConnected` has not been half-closed, and no `shutdown`
has got past its store. -/
theorem open_of_connected {Good : ConnectionRun T → RunLabel T → Prop}
    (h : (system io main).Reachable Good s) (hc : s.conn.connected = true) : Open s := by
  have hall : Open s ∨ (s.conn.state_ ≠ .kConnected ∧ AfterUp s) := by
    apply h.invariant_of (I := fun s => Open s ∨ (s.conn.state_ ≠ .kConnected ∧ AfterUp s))
      (J := fun s => BeforeUp io s ∨ AfterUp s) (fun _ => beforeUp_or_afterUp)
    · intro s hinit
      left
      refine ⟨hinit.conn.halfClosed, by simp [hinit.conn.state], ?_⟩
      intro t i hi hf
      rcases hinit.mem_work hi with ⟨_, rfl⟩ | rfl | rfl <;> cases hf
    · rintro s l s' (hopen | ⟨hstate, hafter⟩) hup - hs
      · by_cases hstore : ∃ t o, l = .exec t o ∧
          (s.stack t).head? = some (.setState .kDisconnecting)
        · obtain ⟨t, o, rfl, hhead⟩ := hstore
          obtain ⟨rest, hstack⟩ := List.head?_eq_some_iff.mp hhead
          have hafter : AfterUp s := afterUp_of_not_early hup (t := t)
            (i := .setState .kDisconnecting) (by simp [work, hstack]) rfl
          right
          refine ⟨?_, afterUp_step hafter (steps_of_step hs.2)⟩
          rw [state_of_store hstack (steps_of_step hs.2)]
          simp
        · left
          refine open_step hopen ?_ (steps_of_step hs.2)
          intro t o hl hhead
          exact hstore ⟨t, o, hl, hhead⟩
      · right
        exact ⟨state_step hstate hafter (steps_of_step hs.2),
          afterUp_step hafter (steps_of_step hs.2)⟩
  rcases hall with hopen | ⟨hstate, -⟩
  · exact hopen
  · exact absurd (by simpa [TcpConnection.connected] using hc) hstate

/-! ## What stays of the files and of what has been written -/

theorem written_of_run {t : T} {i : Instr T} {o : Outcome} {s c : Shared T}
    {new : List (Instr T)} (hr : s.run io main t i o = some (c, new)) :
    s.conn.written <+: c.conn.written := by
  cases Shared.changes_of_run hr with
  | send p hc =>
    rw [hc]
    by_cases h : s.conn.leavesRest (s.payloadData p).length o = true
    · rw [TcpConnection.sendInLoop_of_leavesRest _ _ _ h]
      exact List.prefix_append _ _
    · rw [TcpConnection.sendInLoop_of_not_leavesRest _ _ _ h]
      exact List.prefix_append _ _
  | sendFile fileDescriptor offset count hc =>
    rw [hc, TcpConnection.sendFileInLoop]
    split_ifs
    · exact List.prefix_refl _
    all_goals exact List.prefix_append _ _
  | write hc =>
    rw [hc]
    rcases s.conn.handleWrite_cases (P := Payload T) o with h | ⟨-, -, h⟩ | ⟨-, -, h⟩ <;> rw [h]
    · exact List.prefix_append _ _
    · exact List.prefix_append _ _
  | shutdown hc =>
    rcases s.conn.shutdownInLoop_cases with hsame | ⟨-, hclosed⟩ <;> rw [hc]
    · rw [hsame]
    · rw [hclosed]
  | drained hc =>
    rcases s.conn.halfCloseIfDisconnecting_cases with hsame | ⟨-, -, hclosed⟩ <;> rw [hc]
    · rw [hsame]
    · rw [hclosed]
  | interest _ hc | remove hc | state _ hc | same _ hc =>
    simp [hc, TcpConnection.changeInterest]

theorem files_step {l : RunLabel T} (hs : Steps io main s l s') : s'.files = s.files := by
  cases hs with
  | run t o i rest c new hs hr => exact Shared.files_of_run hr
  | _ => rfl

theorem written_step {l : RunLabel T} (hs : Steps io main s l s') :
    s.conn.written <+: s'.conn.written := by
  cases hs with
  | run t o i rest c new hs hr => exact written_of_run hr
  | _ => exact List.prefix_refl _

theorem sentAt_step {l : RunLabel T} {f : FileCall T} {position : ℕ} (h : f.SentAt s position)
    (hs : Steps io main s l s') : f.SentAt s' position := by
  obtain ⟨after, hafter⟩ := written_step hs
  rw [FileCall.SentAt, FileCall.bytes, files_step hs, ← hafter]
  refine ⟨?_, ?_⟩
  · rw [List.length_append]
    exact le_trans h.1 (Nat.le_add_right _ _)
  · have hlen : f.count ≤ (s.conn.written.drop position).length := by
      rw [List.length_drop]
      have := h.1
      omega
    rw [List.drop_append_of_le_length (by have := h.1; omega), List.take_append_of_le_length hlen]
    exact h.2

theorem sentAt_of_run {t : T} {o : Outcome} {c : Shared T} {new : List (Instr T)}
    {f : FileCall T} (hr : s.run io main t (.call f.functor) o = some (c, new))
    (hstate : s.conn.state_ ≠ .kDisconnecting)
    (hall : f.count = 0 ∨ s.conn.writesDirectly = true ∧ o.result = .ok f.count) :
    s.conn.written.length + f.count ≤ c.conn.written.length ∧
      (c.conn.written.drop s.conn.written.length).take f.count = f.bytes s := by
  simp only [Shared.run, Shared.body, FileCall.functor] at hr
  split_ifs at hr with hfit
  cases hr
  simp only [TcpConnection.sendFileInLoop, if_neg hstate, List.length_append, List.length_take,
    List.length_drop, List.drop_left]
  have hcount : f.count ≤ (s.files f.fileDescriptor).length - f.offset ∧
      (f.count ≠ 0 → s.conn.nwrote o = f.count) := by
    rcases hall with hzero | ⟨hdirect, hresult⟩
    · simp [hzero]
    · refine ⟨le_trans (hfit f.count hresult) (Nat.min_le_right _ _), fun _ => ?_⟩
      simp [TcpConnection.nwrote, hdirect, Outcome.count, hresult]
  by_cases hzero : f.count = 0
  · simp [FileCall.bytes, hzero]
  · rw [hcount.2 hzero, FileCall.bytes]
    exact ⟨by omega, by simp⟩

/-! ## The functor on its way -/

/-- How far the functor has come. The payloads that its thread has sent before
have been executed, or are before it. -/
def InTransfer (io : T) (f : FileCall T) (s : ConnectionRun T) : Prop :=
  match f.transfer with
  | .issued => f.caller ≠ io ∧
      (∃ i rest, s.stack f.caller = i :: rest ∧
        (i = .runInLoop io f.functor ∨ i = .queueInLoop io f.functor)) ∧
      (ofCaller f.caller s.accepted).length = f.sentBefore
  | .queued ahead => f.caller ≠ io ∧ (s.loops io).queued[ahead]? = some f.functor ∧
      (ofCaller f.caller (s.executed.map Execution.payload)).length +
        (marks (sentBy f.caller) (s.stack io)).length +
        (marks (sentBy f.caller) (calls ((s.loops io).queued.take ahead))).length = f.sentBefore
  | .started => (∃ rest, s.stack io = .call f.functor :: rest) ∧
      (ofCaller f.caller (s.executed.map Execution.payload)).length = f.sentBefore
  | .ran position => f.SentAt s position

/-- While the functor is on its way, no later payload is executed. -/
theorem InTransfer.executed_le {f : FileCall T} (h : InTransfer io f s)
    (horder : SentInOrder io s f.caller) (hp : f.transfer.pending = true) :
    (ofCaller f.caller (s.executed.map Execution.payload)).length ≤ f.sentBefore := by
  unfold InTransfer at h
  cases ht : f.transfer with
  | issued =>
    rw [ht] at h
    rw [← h.2.2]
    exact horder.isPrefix.length_le
  | queued ahead =>
    rw [ht] at h
    have := h.2.2
    omega
  | started =>
    rw [ht] at h
    exact h.2.le
  | ran position =>
    rw [ht] at hp
    cases hp

theorem entering_eq_none {α : Type*} {mark : Functor (Payload T) → Option α} {u : T}
    {l : RunLabel T} (hissued : IssuedBy mark u s)
    (hhead : ∀ i ∈ (s.stack u).head?, i.issues = none) : entering mark s l = none := by
  cases he : entering mark s l with
  | none => rfl
  | some a =>
    cases l with
    | exec t o =>
      obtain ⟨i, hi, hei⟩ := Option.bind_eq_some_iff.mp he
      obtain ⟨-, f, hissues, hf⟩ := exists_of_entering hei
      obtain ⟨rest, hs⟩ := List.head?_eq_some_iff.mp hi
      by_cases ht : t = u
      · subst ht
        rw [hhead i hi] at hissues
        cases hissues
      · have hnone := hissued t ht i (by simp [work, hs])
        rw [(carries_of_issues hissues).1, Option.bind_some, hf] at hnone
        cases hnone
    | _ => cases he

theorem leaving_eq_none {u : T} {l : RunLabel T} (hplaced : Placed io main s)
    (hl : ∀ o, l ≠ .exec io o) : leaving (sentBy u) s l = none := by
  cases l with
  | exec t o =>
    cases hs : s.stack t with
    | nil => simp [leaving, hs]
    | cons i rest =>
      simp only [leaving, hs, List.head?_cons, Option.bind_some]
      cases i with
      | call f =>
        cases f with
        | sendInLoop p =>
          have ht : t = io := hplaced t (.call (.sendInLoop p)) (by simp [work, hs])
          exact absurd (ht ▸ rfl) (hl o)
        | _ => rfl
      | _ => rfl
  | _ => rfl

/-- A step outside `loop()` of the connection's own loop: what has been executed
and what is on the stack of its thread are together as many as before, and the
queue only grows. -/
theorem ahead_step {l : RunLabel T} {u : T} (hplaced : Placed io main s) (hu : u ≠ io)
    (hl : ∀ c, l ≠ .control io c) (hs : Steps io main s l s') :
    (ofCaller u (s'.executed.map Execution.payload)).length +
        (marks (sentBy u) (s'.stack io)).length =
      (ofCaller u (s.executed.map Execution.payload)).length +
        (marks (sentBy u) (s.stack io)).length ∧
    (s.loops io).queued <+: (s'.loops io).queued := by
  have hissued : IssuedBy (sentBy u) u s := issuedBy_of_placed hplaced u
  have hexecuted := (records_step hs u).2
  cases hs with
  | run t o i rest c new hs hr =>
    refine ⟨?_, List.prefix_refl _⟩
    have hleaving : leaving (sentBy u) s (.exec t o) = i.leaving (sentBy u) := by
      simp [leaving, hs]
    rw [hexecuted, hleaving, List.length_append]
    by_cases ht : io = t
    · subst ht
      have hentering : i.entering (sentBy u) s.toShared = none := by
        by_contra hne
        obtain ⟨p, hp⟩ := Option.ne_none_iff_exists'.mp hne
        obtain ⟨-, f, hissues, hf⟩ := exists_of_entering hp
        have hnone := hissued io hu.symm i (by simp [work, hs])
        rw [(carries_of_issues hissues).1, Option.bind_some, hf] at hnone
        cases hnone
      have hbalance := congrArg List.length (hands_of_run (raw_of_sentBy u) hr).balance
      simp only [hentering, Option.toList_none, List.append_nil, List.length_append] at hbalance
      simp only [Function.update_self, hs, marks_append, marks_cons, List.length_append]
      omega
    · have hnone : leaving (sentBy u) s (.exec t o) = none := by
        apply leaving_eq_none hplaced
        rintro o' ⟨⟩
        exact ht rfl
      rw [← hleaving, hnone]
      simp [Function.update_of_ne ht]
  | queue t o loop cb rest hs =>
    have hleaving : leaving (sentBy u) s (.exec t o) = none := by simp [leaving, hs, Instr.leaving]
    rw [hexecuted, hleaving]
    constructor
    · by_cases ht : io = t
      · subst ht
        have hcb : sentBy u cb = none := by
          by_contra hne
          obtain ⟨p, hp⟩ := Option.ne_none_iff_exists'.mp hne
          exact hu (queued_of_marked (raw_of_sentBy u) hplaced hissued hs hp).1.symm
        simp [hs, marks_destructor, Instr.marked, Instr.functor, hcb]
      · simp [Function.update_of_ne ht]
    · rw [setStack_loops, setLoop_loops, queued_push]
      exact List.prefix_append _ _
  | wakeup t o loop rest hs =>
    have hleaving : leaving (sentBy u) s (.exec t o) = none := by simp [leaving, hs, Instr.leaving]
    have hq : ((s.loops loop).wakeupAfterPush (t = loop)).queued = (s.loops loop).queued := by
      simp [EventLoop.queued]
    rw [hexecuted, hleaving]
    constructor
    · by_cases ht : io = t
      · subst ht
        simp [hs, Instr.marked, Instr.functor]
      · simp [Function.update_of_ne ht]
    · rw [setStack_loops, setLoop_loops, loops_update EventLoop.queued hq]
  | control t c loop hs hact ha =>
    have ht : io ≠ t := fun ht => hl c (ht ▸ rfl)
    simp [Function.update_of_ne ht]
  | report wakeup revents mask loop hs hm hr ha =>
    have hq : loop.queued = (s.loops io).queued := by
      rw [← ha.started_append_queued]
      rfl
    simp [hq]
  | handleEvent hs hact =>
    refine ⟨?_, List.prefix_refl _⟩
    have hmarks : marks (sentBy u) (s.conn.channel_.channel.handleEventWithGuard.map .handle ++
        [.release]) = [] := marks_handlers _
    simp only [setStack_stack, Function.update_self, hmarks, hs, marks_nil, setStack_shared]
  | call t c hu' =>
    refine ⟨?_, List.prefix_refl _⟩
    by_cases ht : io = t
    · subst ht
      simp [marks_code (raw_of_sentBy u)]
    · simp [Function.update_of_ne ht]
  | store t address value hu' => exact ⟨rfl, List.prefix_refl _⟩

/-- What a thread that has none at hand has sent: it has been executed, is on the
stack of the loop's thread, or is queued. -/
theorem SentInOrder.length_eq {u : T} (h : SentInOrder io s u) (hu : u ≠ io)
    (hnone : marks (sentBy u) (s.stack u) = []) :
    (ofCaller u s.accepted).length = (ofCaller u (s.executed.map Execution.payload)).length +
      (marks (sentBy u) (s.stack io)).length +
      (marks (sentBy u) (calls (s.loops io).queued)).length := by
  have hwork : marks (sentBy u) (s.work u) = [] := by
    rw [work, marks_append, hnone, h.orderly.queue]
    rfl
  rw [h.order, passage, if_neg hu, hwork, work, marks_append]
  simp only [List.append_nil, List.length_append]
  omega

theorem issued_step {l : RunLabel T} {f : FileCall T} (ht : f.transfer = .issued)
    (h : InTransfer io f s) (hplaced : Placed io main s) (horder : SentInOrder io s f.caller)
    (hs : Steps io main s l s') :
    InTransfer io { f with transfer := f.next io s l } s' := by
  simp only [InTransfer, ht] at h
  obtain ⟨hio, ⟨i, rest, hstack, hi⟩, haccepted⟩ := h
  have hissued := issuedBy_of_placed hplaced f.caller
  have hentering : entering (sentBy f.caller) s l = none := by
    apply entering_eq_none hissued
    rintro j hj
    rw [hstack] at hj
    cases hj
    rcases hi with rfl | rfl <;> rfl
  have haccepted' : (ofCaller f.caller s'.accepted).length = f.sentBefore := by
    rw [(records_step hs f.caller).1, hentering]
    simpa using haccepted
  by_cases hl : ∃ o, l = .exec f.caller o
  · obtain ⟨o, rfl⟩ := hl
    rcases hi with rfl | rfl
    · have hnext : f.next io s (.exec f.caller o) = .issued := by
        simp [FileCall.next, ht, hstack]
      rw [hnext]
      refine ⟨hio, ?_, haccepted'⟩
      cases hs with
      | run _ _ j rest' c new hs hr =>
        rw [hstack] at hs
        cases hs
        cases hr
        exact ⟨.queueInLoop io f.functor, rest, by simp [hio], Or.inr rfl⟩
      | queue _ _ loop cb rest' hs | wakeup _ _ loop rest' hs =>
        rw [hstack] at hs
        cases hs
    · have hnext : f.next io s (.exec f.caller o) = .queued (s.loops io).queued.length := by
        simp [FileCall.next, ht, hstack]
      rw [hnext]
      have hcount := (ahead_step hplaced hio (by simp) hs).1
      have hnone : marks (sentBy f.caller) (s.stack f.caller) = [] := by
        rw [hstack, marks_cons, horder.orderly.rest hstack (by simp)]
        rfl
      rw [horder.length_eq hio hnone] at haccepted
      cases hs with
      | run _ _ j rest' c new hs hr =>
        rw [hstack] at hs
        cases hs
        cases hr
      | wakeup _ _ loop rest' hs =>
        rw [hstack] at hs
        cases hs
      | queue _ _ loop cb rest' hs =>
        rw [hstack] at hs
        cases hs
        have hqueue : (Function.update s.loops io ((s.loops io).push f.functor) io).queued =
            (s.loops io).queued ++ [f.functor] := by
          rw [Function.update_self, EventLoop.queued_push]
        refine ⟨hio, ?_, ?_⟩
        · rw [setStack_loops, setLoop_loops, hqueue, List.getElem?_concat_length]
          rfl
        · rw [setStack_loops, setLoop_loops, hqueue, List.take_left, hcount, haccepted]
  · have hl' : ∀ o, l ≠ .exec f.caller o := fun o he => hl ⟨o, he⟩
    have hnext : f.next io s l = .issued := by
      cases l with
      | exec t o =>
        have htc : t ≠ f.caller := by
          rintro rfl
          exact hl' o rfl
        simp only [FileCall.next, ht]
        split
        · rw [if_neg htc]
        · rfl
      | _ => simp [FileCall.next, ht]
    rw [hnext]
    refine ⟨hio, ⟨i, rest, ?_, hi⟩, haccepted'⟩
    rw [← hstack]
    apply stack_of_busy hstack _ hl' hs
    rcases hi with rfl | rfl <;> simp

theorem queued_control {c : LoopStep} {f : FileCall T} {ahead : ℕ}
    (ht : f.transfer = .queued ahead) (h : InTransfer io f s)
    (hs : Steps io main s (.control io c) s') :
    InTransfer io { f with transfer := f.next io s (.control io c) } s' := by
  simp only [InTransfer, ht] at h
  obtain ⟨hio, hfunctor, hcount⟩ := h
  cases hs with
  | control _ _ loop hs hact ha =>
    have hqueue := ha.started_append_queued
    rw [hs, marks_nil, List.length_nil, Nat.add_zero] at hcount
    by_cases hc : c = .runNext
    · subst hc
      obtain ⟨g, hg⟩ := ha.exists_started
      rw [hg] at hqueue
      rw [← hqueue] at hfunctor hcount
      cases ahead with
      | zero =>
        have hnext : f.next io s (.control io .runNext) = .started := by
          simp [FileCall.next, ht]
        rw [hnext]
        have hgf : g = f.functor := by simpa using hfunctor
        subst hgf
        refine ⟨⟨[], ?_⟩, by simpa [calls] using hcount⟩
        simp only [setStack_stack, Function.update_self, hg]
        rfl
      | succ ahead =>
        have hnext : f.next io s (.control io .runNext) = .queued ahead := by
          simp [FileCall.next, ht]
        rw [hnext]
        refine ⟨hio, ?_, ?_⟩
        · rw [List.singleton_append, List.getElem?_cons_succ] at hfunctor
          simp only [setStack_loops, setLoop_loops, Function.update_self]
          exact hfunctor
        · rw [List.singleton_append, List.take_succ_cons] at hcount
          simp only [setStack_loops, setLoop_loops, setStack_stack, Function.update_self, hg]
          rw [← hcount]
          simp [calls]
          omega
    · have hstarted : (s.loops io).started c = [] := by
        cases c <;> first | rfl | exact absurd rfl hc
      have hnext : f.next io s (.control io c) = .queued ahead := by
        cases c <;> first | exact absurd rfl hc | simp [FileCall.next, ht]
      rw [hstarted, List.nil_append] at hqueue
      rw [hnext]
      refine ⟨hio, ?_, ?_⟩
      · simp only [setStack_loops, setLoop_loops, Function.update_self, hqueue]
        exact hfunctor
      · simpa [hqueue, hstarted, calls] using hcount

theorem queued_step {l : RunLabel T} {f : FileCall T} {ahead : ℕ}
    (ht : f.transfer = .queued ahead) (h : InTransfer io f s) (hplaced : Placed io main s)
    (hs : Steps io main s l s') : InTransfer io { f with transfer := f.next io s l } s' := by
  by_cases hl : ∃ c, l = .control io c
  · obtain ⟨c, rfl⟩ := hl
    exact queued_control ht h hs
  · have hl' : ∀ c, l ≠ .control io c := fun c he => hl ⟨c, he⟩
    simp only [InTransfer, ht] at h
    obtain ⟨hio, hfunctor, hcount⟩ := h
    obtain ⟨hsum, tail, htail⟩ := ahead_step hplaced hio hl' hs
    have hlt : ahead < (s.loops io).queued.length := by
      by_contra hge
      rw [List.getElem?_eq_none (by omega)] at hfunctor
      cases hfunctor
    have hnext : f.next io s l = .queued ahead := by
      cases l with
      | control t c =>
        have hti : t ≠ io := by
          rintro rfl
          exact hl' c rfl
        cases c <;> simp [FileCall.next, ht, hti]
      | _ => simp [FileCall.next, ht]
    rw [hnext]
    refine ⟨hio, ?_, ?_⟩
    · rw [← htail, List.getElem?_append_left hlt]
      exact hfunctor
    · rw [← htail, List.take_append_of_le_length hlt.le, hsum]
      exact hcount

theorem started_step {l : RunLabel T} {f : FileCall T} (ht : f.transfer = .started)
    (h : InTransfer io f s) (hplaced : Placed io main s) (hopen : Open s)
    (hall : ∀ o, l = .exec io o →
      f.count = 0 ∨ s.conn.writesDirectly = true ∧ o.result = .ok f.count)
    (hs : Steps io main s l s') : InTransfer io { f with transfer := f.next io s l } s' := by
  simp only [InTransfer, ht] at h
  obtain ⟨⟨rest, hstack⟩, hcount⟩ := h
  by_cases hl : ∃ o, l = .exec io o
  · obtain ⟨o, rfl⟩ := hl
    have hnext : f.next io s (.exec io o) = .ran s.conn.written.length := by
      simp [FileCall.next, ht]
    rw [hnext]
    have hfiles := files_step hs
    cases hs with
    | run _ _ j rest' c new hs hr =>
      rw [hstack] at hs
      cases hs
      have hsent := sentAt_of_run hr hopen.state (hall o rfl)
      refine ⟨hsent.1, ?_⟩
      rw [FileCall.bytes, hfiles]
      exact hsent.2
    | queue _ _ loop cb rest' hs | wakeup _ _ loop rest' hs =>
      rw [hstack] at hs
      cases hs
  · have hl' : ∀ o, l ≠ .exec io o := fun o he => hl ⟨o, he⟩
    have hnext : f.next io s l = .started := by
      cases l with
      | exec t o =>
        have hti : t ≠ io := by
          rintro rfl
          exact hl' o rfl
        simp [FileCall.next, ht, hti]
      | _ => simp [FileCall.next, ht]
    rw [hnext]
    refine ⟨⟨rest, ?_⟩, ?_⟩
    · rw [stack_of_busy hstack (by simp) hl' hs, hstack]
      rfl
    · rw [(records_step hs f.caller).2, leaving_eq_none hplaced hl']
      simpa using hcount

theorem inTransfer_step {l : RunLabel T} {f : FileCall T} (h : InTransfer io f s)
    (hplaced : Placed io main s) (horder : SentInOrder io s f.caller)
    (hopen : f.transfer.pending = true → Open s)
    (hall : ∀ o, l = .exec io o → f.transfer = .started →
      f.count = 0 ∨ s.conn.writesDirectly = true ∧ o.result = .ok f.count)
    (hs : Steps io main s l s') : InTransfer io { f with transfer := f.next io s l } s' := by
  cases ht : f.transfer with
  | issued => exact issued_step ht h hplaced horder hs
  | queued ahead => exact queued_step ht h hplaced hs
  | started =>
    exact started_step ht h hplaced (hopen (by rw [ht]; rfl)) (fun o ho => hall o ho ht) hs
  | ran position =>
    have hnext : f.next io s l = .ran position := by simp [FileCall.next, ht]
    rw [hnext]
    simp only [InTransfer, ht] at h
    exact sentAt_step h hs

theorem eq_of_begins {l : RunLabel T} {f : FileCall T} (h : FileCall.begins io s l = some f) :
    ∃ o rest, l = .exec f.caller o ∧ s.conn.connected = true ∧
      s.stack f.caller = .sendFile f.fileDescriptor f.offset f.count :: rest ∧
      f.sentBefore = (ofCaller f.caller s.accepted).length ∧
      f.transfer = if f.caller = io then .started else .issued := by
  unfold FileCall.begins at h
  split at h
  · rename_i t o
    split at h
    · rename_i fileDescriptor offset count hhead
      obtain ⟨rest, hstack⟩ := List.head?_eq_some_iff.mp hhead
      by_cases hconn : s.conn.connected = true
      · rw [if_pos hconn] at h
        cases h
        exact ⟨o, rest, rfl, hconn, hstack, rfl, rfl⟩
      · rw [if_neg hconn] at h
        cases h
    · cases h
  · cases h

theorem inTransfer_begins {l : RunLabel T} {f : FileCall T}
    (hf : FileCall.begins io s l = some f) (horder : SentInOrder io s f.caller)
    (hs : Steps io main s l s') : InTransfer io f s' := by
  obtain ⟨o, rest, rfl, hconn, hstack, hsent, htransfer⟩ := eq_of_begins hf
  cases hs with
  | run _ _ i rest' c new hs hr =>
    rw [hstack] at hs
    cases hs
    simp only [Shared.run, if_pos hconn, Option.some.injEq, Prod.mk.injEq] at hr
    obtain ⟨rfl, rfl⟩ := hr
    by_cases hio : f.caller = io
    · rw [if_pos hio] at htransfer
      simp only [InTransfer, htransfer]
      refine ⟨⟨rest, by simp [hio, FileCall.functor]⟩, ?_⟩
      have hpassage : passage (sentBy f.caller) io s f.caller = [] := by
        have hqueue := horder.orderly.queue
        rw [passage, if_pos hio, List.append_nil, ← hio, work, marks_append, hqueue, hstack,
          marks_cons, horder.orderly.rest hstack (by simp)]
        rfl
      rw [hsent, horder.order, hpassage, List.append_nil]
    · rw [if_neg hio] at htransfer
      simp only [InTransfer, htransfer]
      exact ⟨hio, ⟨.runInLoop io f.functor, rest, by simp [hio, FileCall.functor], Or.inl rfl⟩,
        hsent.symm⟩
  | queue _ _ loop cb rest' hs | wakeup _ _ loop rest' hs =>
    rw [hstack] at hs
    cases hs

end ConnectionRun

namespace FollowedRun

variable {T : Type*} [DecidableEq T] {io main : T} {s s' : FollowedRun T}

open ConnectionRun (Open InTransfer Steps)

/-- What is known of the call that is followed. -/
def Tracked (io : T) (s : FollowedRun T) : Prop :=
  ∀ f ∈ s.file, InTransfer io f s.run ∧ (f.transfer.pending = true → Open s.run)

theorem pending_of_next {f : FileCall T} {r : ConnectionRun T} {l : RunLabel T}
    (h : (f.next io r l).pending = true) : f.transfer.pending = true := by
  cases ht : f.transfer with
  | ran position =>
    have hnext : f.next io r l = .ran position := by simp [FileCall.next, ht]
    rw [hnext] at h
    exact h
  | _ => rfl

theorem next_pending {f : FileCall T} {r : ConnectionRun T} {l : RunLabel T}
    (h : f.transfer.pending = true) (hstarted : f.transfer ≠ .started) :
    (f.next io r l).pending = true := by
  unfold FileCall.next
  split
  · split
    · split_ifs <;> rfl
    · rfl
  · split_ifs <;> rfl
  · rename_i ht
    exact absurd ht hstarted
  · exact h

theorem tracked_step {l : RunLabel T × Bool}
    (hrun : (ConnectionRun.system io main).Reachable TransitionSystem.AnyStep s.run)
    (h : Tracked io s) (hgood : KeepsFileOrder io s l) (hs : (system io main).Step s l s') :
    Tracked io s' := by
  obtain ⟨l, follow⟩ := l
  obtain ⟨r, hr, rfl⟩ := Option.map_eq_some_iff.mp hs.2
  have hsteps := ConnectionRun.steps_of_step hr
  have hplaced := ConnectionRun.placed_of_reachable hrun
  intro g hg
  simp only [nextFile] at hg
  cases hfile : s.file with
  | none =>
    rw [hfile] at hg
    simp only [Option.mem_def] at hg
    split_ifs at hg
    have horder := ConnectionRun.sentInOrder_of_reachable hrun g.caller
    refine ⟨ConnectionRun.inTransfer_begins hg horder hsteps, fun _ => ?_⟩
    obtain ⟨o, rest, rfl, hconn, hstack, -, -⟩ := ConnectionRun.eq_of_begins hg
    refine ConnectionRun.open_step (ConnectionRun.open_of_connected hrun hconn) ?_ hsteps
    rintro t o' ⟨⟩
    simp [hstack]
  | some f =>
    rw [hfile] at hg
    obtain rfl := Option.some.inj hg
    have hf := h f hfile
    have horder := ConnectionRun.sentInOrder_of_reachable hrun f.caller
    refine ⟨ConnectionRun.inTransfer_step hf.1 hplaced horder hf.2 ?_ hsteps, ?_⟩
    · rintro o rfl hstarted
      exact (hgood f hfile (by rw [hstarted]; rfl)).2 rfl hstarted
    · intro hpending
      have hp := pending_of_next hpending
      refine ConnectionRun.open_step (hf.2 hp) ?_ hsteps
      rintro t o rfl
      exact (hgood f hfile hp).1

theorem tracked_of_reachable (h : (system io main).Reachable (KeepsFileOrder io) s) :
    Tracked io s := by
  apply h.invariant_of (fun _ => reachable_run)
  · intro s hinit f hf
    rw [hinit.2] at hf
    cases hf
  · intro s l s' hi hrun hgood hs
    exact tracked_step hrun hi hgood hs

theorem executed_of_started {f : FileCall T} {r r' : ConnectionRun T} {l : RunLabel T}
    (ht : f.transfer = .started) (h : InTransfer io f r) (hplaced : ConnectionRun.Placed io main r)
    (hs : Steps io main r l r') :
    (ofCaller f.caller (r'.executed.map Execution.payload)).length = f.sentBefore := by
  simp only [InTransfer, ht] at h
  obtain ⟨⟨rest, hstack⟩, hcount⟩ := h
  have hleaving : ConnectionRun.leaving (sentBy f.caller) r l = none := by
    by_cases hl : ∃ o, l = .exec io o
    · obtain ⟨o, rfl⟩ := hl
      simp [ConnectionRun.leaving, hstack, Instr.leaving, FileCall.functor, sentBy]
    · exact ConnectionRun.leaving_eq_none hplaced fun o ho => hl ⟨o, ho⟩
  rw [(ConnectionRun.records_step hs f.caller).2, hleaving]
  simpa using hcount

/-- Before a step executes a payload that the thread has sent after the file, and
before a step half-closes the connection, the whole file has been written, in
one piece. -/
theorem file_written_first (h : (system io main).Reachable (KeepsFileOrder io) s)
    {f : FileCall T} (hf : s.file = some f) {l : RunLabel T × Bool}
    (hgood : KeepsFileOrder io s l) (hs : (system io main).Step s l s')
    (hlater : f.sentBefore < (ofCaller f.caller (s'.run.executed.map Execution.payload)).length ∨
      s'.run.conn.halfClosed = true) : ∃ position, f.SentAt s.run position := by
  have hrun := reachable_run h
  have htracked := tracked_of_reachable h f hf
  cases ht : f.transfer with
  | ran position =>
    have hsent := htracked.1
    simp only [InTransfer, ht] at hsent
    exact ⟨position, hsent⟩
  | _ =>
    exfalso
    obtain ⟨l, follow⟩ := l
    obtain ⟨r, hr, rfl⟩ := Option.map_eq_some_iff.mp hs.2
    have hsteps := ConnectionRun.steps_of_step hr
    have hplaced := ConnectionRun.placed_of_reachable hrun
    have hpending : f.transfer.pending = true := by rw [ht]; rfl
    have hopen : Open r := by
      refine ConnectionRun.open_step (htracked.2 hpending) ?_ hsteps
      rintro t o rfl
      exact (hgood f hf hpending).1
    rcases hlater with hlater | hclosed
    · have hle : (ofCaller f.caller (r.executed.map Execution.payload)).length ≤ f.sentBefore := by
        by_cases hstarted : f.transfer = .started
        · exact (executed_of_started hstarted htracked.1 hplaced hsteps).le
        · have hnext : (f.next io s.run l).pending = true := next_pending hpending hstarted
          have hf' : nextFile io s (l, follow) = some { f with transfer := f.next io s.run l } := by
            rw [nextFile, hf]
          have htracked' := tracked_step hrun (tracked_of_reachable h) hgood hs _ hf'
          have hrun' := hrun.step trivial ⟨hs.1, hr⟩
          exact htracked'.1.executed_le
            (ConnectionRun.sentInOrder_of_reachable hrun' f.caller) hnext
      exact absurd hlater (not_lt.mpr hle)
    · rw [hopen.halfClosed] at hclosed
      cases hclosed

open ConnectionRun (Party execs wakeToSwap establish silent newConnection init_newConnection)

instance (s : FollowedRun T) : (l : RunLabel T × Bool) → Decidable (KeepsFileOrder io s l)
  | (.exec _ _, _) => inferInstanceAs (Decidable (∀ f ∈ s.file, _ → _ ∧ (_ → _ → _ ∨ _ ∧ _)))
  | (.control _ _, _) | (.report _ _, _) | (.handleEvent, _) | (.call _ _, _)
  | (.store _ _ _, _) => isTrue trivial

instance [Fintype T] (s : FollowedRun T) (l : RunLabel T × Bool) : Decidable (s.Permitted l) :=
  inferInstanceAs (Decidable (s.run.Permitted l.1))

theorem exists_step_of_replay {Good : FollowedRun T → RunLabel T × Bool → Prop} [Fintype T]
    [∀ s l, Decidable (Good s l)] (hs : (system io main).Init s) {ls : List (RunLabel T × Bool)}
    (l : RunLabel T × Bool) {β : Type*} (observe : FollowedRun T → FollowedRun T → β) {b : β}
    (h : ((TransitionSystem.replay (TransitionSystem.guarded Good
        (TransitionSystem.guarded Permitted (step io main))) s ls).bind fun r =>
      (TransitionSystem.guarded Good (TransitionSystem.guarded Permitted (step io main)) r l).map
        (observe r)) = some b) :
    ∃ r r', (system io main).Reachable Good r ∧ Good r l ∧ (system io main).Step r l r' ∧
      observe r r' = b := by
  have hnext : ∀ s l s', TransitionSystem.guarded Good
      (TransitionSystem.guarded Permitted (step io main)) s l = some s' →
      Good s l ∧ (system io main).Step s l s' := by
    intro s l s' hl
    obtain ⟨hgood, hl⟩ := TransitionSystem.guarded_eq_some.mp hl
    exact ⟨hgood, TransitionSystem.guarded_eq_some.mp hl⟩
  obtain ⟨r, hr, h⟩ := Option.bind_eq_some_iff.mp h
  obtain ⟨r', hr', rfl⟩ := Option.map_eq_some_iff.mp h
  obtain ⟨hgood, hstep⟩ := hnext _ _ _ hr'
  exact ⟨r, r', TransitionSystem.reachable_of_replay hnext (.init hs) hr, hgood, hstep, rfl⟩

/-- A new connection in a world where every file has these bytes. -/
def newConnectionWith (content : List Byte) : FollowedRun Party where
  run := { newConnection false with files := fun _ => content }
  file := none

theorem init_newConnectionWith (content : List Byte) :
    (system Party.io Party.main).Init (newConnectionWith content) := by
  have h := init_newConnection false
  exact ⟨⟨h.conn, h.inConnections, h.closing, h.callbacks, h.closeCallbacks, h.accepted,
    h.executed, h.active, h.destroySwapped, h.mainStack, h.otherStacks, h.held⟩, rfl⟩

def unfollowed (ls : List (RunLabel Party)) : List (RunLabel Party × Bool) := ls.map (·, false)

/-- The user's thread sends a file of two bytes, then a payload of one byte. -/
def fileThenPayload : List (RunLabel Party × Bool) :=
  unfollowed (establish ++ [.call .user (.sendFile 5 0 2)]) ++ [(.exec .user silent, true)] ++
    unfollowed (execs .user 5 ++ [.call .user (.send 0 1)] ++ execs .user 5 ++ wakeToSwap .io ++
      [.control .io .runNext])

/-- What is observed of a step while a call of `sendFile` is followed: what has
been written before and after it, whether the connection is then half-closed,
and of the call its bytes, the payloads before it, and those executed then. -/
structure Sight where
  written : List Byte
  writtenThen : List Byte
  halfClosed : Bool
  file : Option (List Byte × ℕ × ℕ)
  deriving DecidableEq

def seen (r r' : FollowedRun Party) : Sight where
  written := r.run.conn.written
  writtenThen := r'.run.conn.written
  halfClosed := r'.run.conn.halfClosed
  file := r.file.map fun f => (f.bytes r.run, f.sentBefore,
    (ofCaller f.caller (r'.run.executed.map Execution.payload)).length)

/-- The kernel takes the file at once, and the payload is next. -/
theorem file_written_first_of_two :
    ∃ s : FollowedRun Party, s.run.conn.written = [1, 2] ∧
      ∃ f ∈ s.file, f.bytes s.run = [1, 2] ∧ ∃ position, f.SentAt s.run position := by
  have hrun : ((TransitionSystem.replay (TransitionSystem.guarded (KeepsFileOrder .io)
      (TransitionSystem.guarded Permitted (step .io .main))) (newConnectionWith [1, 2])
      (fileThenPayload ++ unfollowed [.exec .io ⟨.ok 2, .other 0⟩, .control .io .endBody,
        .control .io .runNext])).bind fun r =>
      (TransitionSystem.guarded (KeepsFileOrder .io)
        (TransitionSystem.guarded Permitted (step .io .main)) r
        (.exec .io ⟨.ok 1, .other 0⟩, false)).map (seen r))
      = some ⟨[1, 2], [1, 2, 0], false, some ([1, 2], 0, 1)⟩ := by decide +kernel
  obtain ⟨s, s', hs, hgood, hstep, hobs⟩ :=
    exists_step_of_replay (init_newConnectionWith [1, 2]) _ seen hrun
  simp only [seen, Sight.mk.injEq, Prod.mk.injEq, Option.map_eq_some_iff] at hobs
  obtain ⟨hwritten, -, -, f, hf, hbytes, hbefore, hafter⟩ := hobs
  exact ⟨s, hwritten, f, hf, hbytes, file_written_first hs hf hgood hstep (Or.inl (by omega))⟩

omit [DecidableEq T] in
theorem not_sentAt_of_short {f : FileCall T} {r : ConnectionRun T} {position : ℕ}
    (h : r.conn.written.length < (f.bytes r).length) : ¬ f.SentAt r position := by
  intro hsent
  have hlen : (f.bytes r).length ≤ f.count := by
    rw [FileCall.bytes]
    exact List.length_take_le _ _
  have hle := hsent.1
  omega

/-- The kernel takes the first byte of the file only, and the payload is executed
before the rest; where the caller goes on with `shutdown` instead, the
connection is half-closed and nothing of the file has been sent. -/
theorem file_overtaken :
    (∃ s s' : FollowedRun Party, (system .io .main).Reachable TransitionSystem.AnyStep s ∧
      (∃ l, (system .io .main).Step s l s') ∧ s'.run.conn.written = [1, 0] ∧
      ∃ f ∈ s.file, f.bytes s.run = [1, 2] ∧
        f.sentBefore < (ofCaller f.caller (s'.run.executed.map Execution.payload)).length ∧
        ¬ ∃ position, f.SentAt s.run position) ∧
    (∃ s s' : FollowedRun Party, (system .io .main).Reachable TransitionSystem.AnyStep s ∧
      (∃ l, (system .io .main).Step s l s') ∧ s'.run.conn.halfClosed = true ∧
      ∃ f ∈ s.file, f.bytes s.run = [1, 2] ∧ ¬ ∃ position, f.SentAt s.run position) := by
  constructor
  · have hrun : ((TransitionSystem.replay (TransitionSystem.guarded TransitionSystem.AnyStep
        (TransitionSystem.guarded Permitted (step .io .main))) (newConnectionWith [1, 2])
        (fileThenPayload ++ unfollowed (List.flatten [[.exec .io ⟨.ok 1, .other 0⟩],
          execs .io 3, [.control .io .endBody, .control .io .runNext]]))).bind fun r =>
        (TransitionSystem.guarded TransitionSystem.AnyStep
          (TransitionSystem.guarded Permitted (step .io .main)) r
          (.exec .io ⟨.ok 1, .other 0⟩, false)).map (seen r))
        = some ⟨[1], [1, 0], false, some ([1, 2], 0, 1)⟩ := by decide +kernel
    obtain ⟨s, s', hs, -, hstep, hobs⟩ :=
      exists_step_of_replay (init_newConnectionWith [1, 2]) _ seen hrun
    simp only [seen, Sight.mk.injEq, Prod.mk.injEq, Option.map_eq_some_iff] at hobs
    obtain ⟨hwritten, hwritten', -, f, hf, hbytes, hbefore, hafter⟩ := hobs
    refine ⟨s, s', hs, ⟨_, hstep⟩, hwritten', f, hf, hbytes, by omega, ?_⟩
    rintro ⟨position, hsent⟩
    exact not_sentAt_of_short (by simp [hwritten, hbytes]) hsent
  · have hrun : ((TransitionSystem.replay (TransitionSystem.guarded TransitionSystem.AnyStep
        (TransitionSystem.guarded Permitted (step .io .main))) (newConnectionWith [1, 2])
        (List.flatten [unfollowed (List.flatten [establish, [.call .user (.sendFile 5 0 2)]]),
          [(.exec .user silent, true)],
          unfollowed (List.flatten [execs .user 5, [.call .user .shutdown], execs .user 6,
            wakeToSwap .io, [.control .io .runNext, .exec .io silent, .control .io .endBody,
              .control .io .runNext]])])).bind fun r =>
        (TransitionSystem.guarded TransitionSystem.AnyStep
          (TransitionSystem.guarded Permitted (step .io .main)) r
          (.exec .io silent, false)).map (seen r))
        = some ⟨[], [], true, some ([1, 2], 0, 0)⟩ := by decide +kernel
    obtain ⟨s, s', hs, -, hstep, hobs⟩ :=
      exists_step_of_replay (init_newConnectionWith [1, 2]) _ seen hrun
    simp only [seen, Sight.mk.injEq, Prod.mk.injEq, Option.map_eq_some_iff] at hobs
    obtain ⟨hwritten, -, hclosed, f, hf, hbytes, -, -⟩ := hobs
    refine ⟨s, s', hs, ⟨_, hstep⟩, hclosed, f, hf, hbytes, ?_⟩
    rintro ⟨position, hsent⟩
    exact not_sentAt_of_short (by simp [hwritten, hbytes]) hsent

end FollowedRun
end MuduoCore
