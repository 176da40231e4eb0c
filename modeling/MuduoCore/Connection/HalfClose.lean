import MuduoCore.Connection.Establishment
import MuduoCore.Connection.OutputStream

/-!
# Everything sent before the half-close

One thread calls `send` and then `shutdown`. Its functors travel to the loop in
order, so `shutdownInLoop` comes after every payload; but `shutdown` stores
`kDisconnecting` at once, and `handleWrite` half-closes when it drains the
buffer and finds it. Where no payload is then left for the loop, the half-close
comes last.
-/

namespace MuduoCore

/-- The functors that bind the raw `this`, each marked by itself. -/
def rawFunctor {T : Type*} (f : Functor (Payload T)) : Option (Functor (Payload T)) :=
  if f.raw then some f else none

def Instr.ofUserCall {T : Type*} : Instr T → Bool
  | send _ | sendFile _ _ _ | shutdown => true
  | setState state => state = .kDisconnecting
  | runInLoop _ f | queueInLoop _ f => f.raw
  | _ => false

/-- The instruction half-closes the connection if nothing is registered for writing. -/
def Instr.halfCloses {T : Type*} (c : TcpConnection) : Instr T → Bool
  | call .shutdownInLoop => true
  | drained => c.state_ = .kDisconnecting
  | _ => false

theorem raw_of_rawFunctor {T : Type*} (f : Functor (Payload T)) (h : rawFunctor f ≠ none) :
    f.raw = true := by
  by_contra hraw
  exact h (if_neg hraw)

theorem rawFunctor_eq_some {T : Type*} {f g : Functor (Payload T)} :
    rawFunctor f = some g ↔ f.raw = true ∧ f = g := by
  unfold rawFunctor
  split_ifs with h <;> simp [h]

theorem ofUserCall_of_follows {T : Type*} {io main t : T} {i j : Instr T}
    (h : Shared.Follows io main t i j) (hj : j.ofUserCall = true) : i.ofUserCall = true := by
  cases h with
  | send_call | send_run | sendFile_call | sendFile_run | shutdown_store | shutdown_run => rfl
  | run_queue => exact hj
  | sent_queue p g hg | sentFile_queue _ _ _ g hg | write_queue g hg =>
    rw [Instr.ofUserCall, Functor.raw_of_followsUp hg] at hj
    cases hj
  | _ => cases hj

namespace ConnectionRun

variable {T : Type*} [DecidableEq T] {io main u : T} {s s' : ConnectionRun T}

/-- Thread `u` alone uses the connection, to send payloads and to shut it down;
no direct write fails for good before the half-close. When `handleWrite` finds
`kDisconnecting`, the loop's thread has no payload left to execute; and when a
connection is half-closed that is closing already, no bytes wait. -/
def HalfClosesLast (io u : T) (s : ConnectionRun T) : RunLabel T → Prop
  | .exec t o => ∀ i ∈ (s.stack t).head?, i.sendsFile = false ∧
      (i.sends = true → s.conn.writesDirectly = true → o.LogKeepsClass) ∧
      (i.sends = true → s.conn.halfClosed = false →
        s.conn.directError o ≠ some .EPIPE ∧ s.conn.directError o ≠ some .ECONNRESET) ∧
      (i = .drained → s.conn.state_ = .kDisconnecting → ∀ j ∈ s.work io, j.payload = none) ∧
      (i.halfCloses s.conn = true → s.closing = true → s.conn.isWriting = false →
        s.conn.outputBuffer_.readable = [])
  | .call t c => match c with
    | .queueInLoop _ => True
    | .sendFile _ _ _ => False
    | .send _ _ | .shutdown => t = u
  | .store t address value => LeavesPayloads s (.store t address value)
  | _ => True

instance [Fintype T] (s : ConnectionRun T) : (l : RunLabel T) → Decidable (HalfClosesLast io u s l)
  | .exec t _ => inferInstanceAs (Decidable (∀ i ∈ (s.stack t).head?, _ ∧ _ ∧ _ ∧ _ ∧ _))
  | .call t (.send _ _) | .call t .shutdown => inferInstanceAs (Decidable (t = u))
  | .call _ (.queueInLoop _) => isTrue trivial
  | .call _ (.sendFile _ _ _) => isFalse id
  | .store t a v => inferInstanceAs (Decidable (LeavesPayloads s (.store t a v)))
  | .control _ _ | .report _ _ | .handleEvent => isTrue trivial

omit [DecidableEq T] in
theorem HalfClosesLast.plainSends {l : RunLabel T} (h : HalfClosesLast io u s l) :
    PlainSends s l := by
  cases l with
  | exec t o =>
    intro i hi
    obtain ⟨hfile, hlog, _⟩ := h i hi
    exact ⟨hfile, hlog⟩
  | store t address value => exact h
  | _ => trivial

/-! ## One caller -/

def OneCaller (u : T) (s : ConnectionRun T) : Prop :=
  ∀ t, ∀ i ∈ s.work t, t ≠ u → i.ofUserCall = false

theorem oneCaller_step {l : RunLabel T} (h : OneCaller u s) (hgood : HalfClosesLast io u s l)
    (hs : Steps io main s l s') : OneCaller u s' := by
  apply hs.forall_work (P := fun t i => t ≠ u → i.ofUserCall = false) h
  · intro t o i new _ hi hr _ j hj ht
    cases hcall : j.ofUserCall with
    | false => rfl
    | true =>
      rw [ofUserCall_of_follows (Shared.follows_of_run hr hj) hcall] at hi
      cases hi ht
  · exact fun _ _ _ => rfl
  · exact fun _ _ => rfl
  · exact fun _ _ _ _ _ => rfl
  · exact fun _ _ _ => rfl
  · rintro t c rfl i hi ht
    cases c with
    | queueInLoop loop =>
      rw [List.mem_singleton.mp hi]
      rfl
    | sendFile fileDescriptor offset count => cases hgood
    | send data len => exact absurd hgood ht
    | shutdown => exact absurd hgood ht

omit [DecidableEq T] in
theorem OneCaller.issuedBy (h : OneCaller u s) : IssuedBy rawFunctor u s := by
  intro t ht i hi
  have hcall := h t i hi ht
  cases i with
  | send p | shutdown => cases hcall
  | runInLoop loop f | queueInLoop loop f =>
    simp only [Instr.carries, Option.bind_some, rawFunctor]
    rw [if_neg]
    simpa [Instr.ofUserCall] using hcall
  | _ => rfl

/-! ## Nothing more is sent -/

/-- Thread `u` can send nothing more: the connection is not `kConnected`, or it
is about to store `kDisconnecting`. -/
def Finished (u : T) (s : ConnectionRun T) : Prop :=
  s.callbacks ≠ [] ∧ (s.conn.state_ ≠ .kConnected ∨
    (s.stack u).head? = some (.setState .kDisconnecting))

theorem storing_step {l : RunLabel T}
    (h : (s.stack u).head? = some (.setState .kDisconnecting)) (hs : Steps io main s l s') :
    s'.conn.state_ = .kDisconnecting ∨
      (s'.stack u).head? = some (.setState .kDisconnecting) := by
  have hne : s.stack u ≠ [] := by
    intro hnil
    rw [hnil] at h
    cases h
  cases hs with
  | run t o i rest c new hs hr =>
    by_cases ht : u = t
    · subst ht
      left
      rw [hs, List.head?_cons, Option.some.injEq] at h
      subst h
      cases hr
      rfl
    · right
      simpa [Function.update_of_ne ht] using h
  | queue t o loop cb rest hs | wakeup t o loop rest hs =>
    right
    by_cases ht : u = t
    · subst ht
      rw [hs] at h
      cases h
    · simpa [Function.update_of_ne ht] using h
  | control t c loop hs hact ha =>
    right
    have ht : u ≠ t := by
      rintro rfl
      exact hne hs
    simpa [Function.update_of_ne ht] using h
  | report wakeup revents mask loop hs hm hr ha => exact Or.inr h
  | handleEvent hs hact =>
    right
    have ht : u ≠ io := by
      rintro rfl
      exact hne hs
    simpa [Function.update_of_ne ht] using h
  | call t c hu =>
    right
    have ht : u ≠ t := by
      rintro rfl
      rcases hu with ⟨hs, _⟩ | hs
      · exact hne hs
      · rw [h] at hs
        cases hs
    simpa [Function.update_of_ne ht] using h
  | store t address value hu => exact Or.inr h

theorem Finished.step {l : RunLabel T} (h : Finished u s) (hup : AfterUp s)
    (hs : Steps io main s l s') : Finished u s' := by
  refine ⟨(afterUp_step hup hs).callbacks, ?_⟩
  rcases h.2 with hstate | hhead
  · left
    cases hs with
    | run t o i rest c new hs hr =>
      exact state_of_run hstate (hup.established t i (by simp [work, hs])) hr
    | _ => exact hstate
  · rcases storing_step hhead hs with hstate | hhead
    · left
      rw [hstate]
      simp
    · exact Or.inr hhead

theorem OneCaller.exec_of_entering (h : OneCaller u s) {l : RunLabel T}
    {f : Functor (Payload T)} (he : entering rawFunctor s l = some f) :
    s.conn.connected = true ∧
      ∃ o i rest, l = .exec u o ∧ s.stack u = i :: rest ∧ i.issues = some f := by
  cases l with
  | exec t o =>
    obtain ⟨i, hi, hei⟩ := Option.bind_eq_some_iff.mp he
    obtain ⟨hconn, g, hissues, hg⟩ := exists_of_entering hei
    obtain ⟨_, rfl⟩ := rawFunctor_eq_some.mp hg
    obtain ⟨rest, hs⟩ := List.head?_eq_some_iff.mp hi
    have ht : t = u := by
      by_contra hne
      have hcall := h t i (by simp [work, hs]) hne
      cases i with
      | send p | shutdown => cases hcall
      | _ => cases hissues
    subst ht
    exact ⟨hconn, o, i, rest, rfl, hs, hissues⟩
  | _ => cases he

theorem Finished.entering (h : Finished u s) (hone : OneCaller u s) (l : RunLabel T) :
    entering rawFunctor s l = none := by
  cases he : ConnectionRun.entering rawFunctor s l with
  | none => rfl
  | some f =>
    obtain ⟨hconn, o, i, rest, -, hs, hissues⟩ := hone.exec_of_entering he
    rcases h.2 with hstate | hhead
    · exact absurd (by simpa [TcpConnection.connected] using hconn) hstate
    · rw [hs, List.head?_cons, Option.some.injEq] at hhead
      subst hhead
      cases hissues

/-! ## The invariant -/

/-- Thread `u` hands its payloads over before its `shutdownInLoop`, none is
dropped, and a half-close finds none on its way and no byte waiting. -/
structure SendsFirst (io u : T) (s : ConnectionRun T) : Prop where
  callers : OneCaller u s
  accepted : ∀ p ∈ s.accepted, p.caller = u
  orderly : Orderly rawFunctor io u s
  sorted : (passage rawFunctor io s u).Pairwise fun f g =>
    f = .shutdownInLoop → g = .shutdownInLoop
  finished : .shutdownInLoop ∈ passage rawFunctor io s u → Finished u s
  stored : s.conn.state_ = .kDisconnecting → u ≠ io →
    ∀ p, .sendInLoop p ∉ marks rawFunctor (s.work u)
  kept : ∀ e ∈ s.executed, e.dropped = false
  halfClosed : s.conn.halfClosed = true → Finished u s ∧
    (∀ p, .sendInLoop p ∉ passage rawFunctor io s u) ∧ s.conn.outputBuffer_.readable = []

theorem afterUp_of_not_early (h : BeforeUp io s ∨ AfterUp s) {t : T} {i : Instr T}
    (hi : i ∈ s.work t) (he : i.early = false) : AfterUp s := by
  rcases h with hbefore | hafter
  · rw [hbefore.early t i hi] at he
    cases he
  · exact hafter

theorem Finished.afterUp (h : Finished u s) (hup : BeforeUp io s ∨ AfterUp s) : AfterUp s := by
  rcases hup with hbefore | hafter
  · exact absurd hbefore.callbacks h.1
  · exact hafter

theorem accepted_step {l : RunLabel T} (hplaced : Placed io main s) (h : SendsFirst io u s)
    (hs : Steps io main s l s') : ∀ p ∈ s'.accepted, p.caller = u := by
  cases hs with
  | run t o i rest c new hs hr =>
    have hmem : i ∈ s.work t := by simp [work, hs]
    intro q hq
    by_cases hi : ∃ p, i = .send p
    · obtain ⟨p, rfl⟩ := hi
      have hcaller : p.caller = t := hplaced t _ hmem
      have ht : t = u := by
        by_contra hne
        cases h.callers t _ hmem hne
      have hacc : c.accepted = s.accepted ∨ c.accepted = s.accepted ++ [p] := by
        simp only [Shared.run, Option.some.injEq] at hr
        by_cases hc : s.conn.connected = true
        · rw [if_pos hc] at hr
          cases hr
          exact Or.inr rfl
        · rw [if_neg hc] at hr
          cases hr
          exact Or.inl rfl
      rcases hacc with hacc | hacc
      · exact h.accepted q (hacc ▸ hq)
      · rw [hacc, List.mem_append, List.mem_singleton] at hq
        rcases hq with hq | rfl
        · exact h.accepted q hq
        · rw [hcaller, ht]
    · simp only [not_exists] at hi
      rw [(Shared.frame_of_run hr).accepted hi] at hq
      exact h.accepted q hq
  | _ => exact h.accepted

theorem sorted_step {l : RunLabel T} (hplaced : Placed io main s) (h : SendsFirst io u s)
    (hs : Steps io main s l s') : (passage rawFunctor io s' u).Pairwise fun f g =>
      f = .shutdownInLoop → g = .shutdownInLoop := by
  have hstep := passage_step raw_of_rawFunctor hplaced h.callers.issuedBy h.orderly hs
  have hall : (passage rawFunctor io s u ++ (entering rawFunctor s l).toList).Pairwise
      fun f g => f = .shutdownInLoop → g = .shutdownInLoop := by
    rw [List.pairwise_append]
    refine ⟨h.sorted, ?_, ?_⟩
    · cases entering rawFunctor s l <;> simp
    · rintro f hf g hg rfl
      rw [(h.finished hf).entering h.callers l] at hg
      cases hg
  rw [hstep, List.pairwise_append] at hall
  exact hall.2.1

theorem finished_step {l : RunLabel T} (hplaced : Placed io main s)
    (hup : BeforeUp io s ∨ AfterUp s) (h : SendsFirst io u s) (hs : Steps io main s l s')
    (hmem : .shutdownInLoop ∈ passage rawFunctor io s' u) : Finished u s' := by
  rcases mem_passage_of_step raw_of_rawFunctor hplaced h.callers.issuedBy h.orderly hs
    (Or.inl hmem) with hold | hnew
  · have hfinished := h.finished hold
    exact hfinished.step (hfinished.afterUp hup) hs
  · obtain ⟨hconn, o, i, rest, rfl, hstack, hissues⟩ := h.callers.exec_of_entering hnew
    have hshut : i = .shutdown := by
      cases i with
      | shutdown => rfl
      | send p => cases hissues
      | _ => cases hissues
    subst hshut
    have hup' := afterUp_of_not_early hup (t := u) (i := .shutdown) (by simp [work, hstack]) rfl
    refine ⟨(afterUp_step hup' hs).callbacks, Or.inr ?_⟩
    cases hs with
    | run _ _ i' rest' c new hs hr =>
      rw [hstack] at hs
      cases hs
      simp only [Shared.run, if_pos hconn, Option.some.injEq, Prod.mk.injEq] at hr
      obtain ⟨-, rfl⟩ := hr
      simp
    | queue _ _ loop cb rest' hs | wakeup _ _ loop rest' hs =>
      rw [hstack] at hs
      cases hs

theorem mem_marks_of_step {l : RunLabel T} (hplaced : Placed io main s) (hu : u ≠ io)
    (hs : Steps io main s l s') {f : Functor (Payload T)}
    (hf : f ∈ marks rawFunctor (s'.work u)) :
    f ∈ marks rawFunctor (s.work u) ∨ entering rawFunctor s l = some f := by
  have hsame : marks rawFunctor (s'.work u) = marks rawFunctor (s.work u) →
      f ∈ marks rawFunctor (s.work u) ∨ entering rawFunctor s l = some f := by
    intro he
    rw [he] at hf
    exact Or.inl hf
  cases hs with
  | run t o i rest c new hs hr =>
    obtain ⟨w, hold, hwork, hother⟩ : Replaces s
      { s with toShared := c, stack := Function.update s.stack t (new ++ rest) } t [i] new :=
      replaces_run hs
    by_cases ht : u = t
    · subst ht
      have hbalance := (hands_of_run raw_of_rawFunctor hr).balance
      rw [hwork, marks_append, List.mem_append] at hf
      rcases hf with hf | hf
      · have hmem : f ∈ marks rawFunctor new ++ (i.leaving rawFunctor).toList :=
          List.mem_append_left _ hf
        rw [hbalance, List.mem_append] at hmem
        rcases hmem with hmem | hmem
        · left
          simp [hold, hmem]
        · right
          simpa [entering, hs] using hmem
      · left
        simp [hold, hf]
    · exact hsame (by rw [hother u ht])
  | queue t o loop cb rest hs =>
    obtain ⟨w, hold, hwork⟩ := queues_queue hs
    rw [hwork u, marks_append, List.mem_append] at hf
    rcases hf with hf | hf
    · left
      by_cases ht : u = t
      · rw [if_pos ht, marks_append, marks_cons, marks_destructor] at hf
        rw [ht, hold, marks_cons, List.mem_append]
        exact Or.inr (by simpa [Instr.marked, Instr.functor] using hf)
      · rwa [if_neg ht] at hf
    · split_ifs at hf with hl
      · have hraw : cb.raw = true := by
          simp only [marks_cons, Instr.marked, Instr.functor, Option.bind_some, marks_nil,
            List.append_nil, Option.mem_toList] at hf
          exact (rawFunctor_eq_some.mp hf).1
        have hruns := hplaced t (.queueInLoop loop cb) (by simp [work, hs])
        exact absurd (hl.trans (Functor.runsOn_io_of_raw hraw hruns.1)) hu
      · cases hf
  | wakeup t o loop rest hs => exact hsame ((replaces_wakeup hs).marks_same rfl u)
  | control t c loop hs hact ha =>
    exact hsame (congrArg (marks rawFunctor) (work_control hs ha u))
  | report wakeup revents mask loop hs hm hr ha =>
    exact hsame (congrArg (marks rawFunctor) (work_report ha u))
  | handleEvent hs hact =>
    exact hsame ((replaces_handleEvent hs).marks_same (marks_handlers _) u)
  | call t c hu =>
    exact hsame ((replaces_push s t (s.code t c) s.active).marks_same
      (marks_code raw_of_rawFunctor s t c) u)
  | store t address value hu => exact Or.inl hf

/-- When `shutdown` stores `kDisconnecting`, its thread has no payload left. -/
theorem stored_step {l : RunLabel T} (hplaced : Placed io main s) (h : SendsFirst io u s)
    (hs : Steps io main s l s') (hstate : s'.conn.state_ = .kDisconnecting) (hu : u ≠ io)
    (p : Payload T) : .sendInLoop p ∉ marks rawFunctor (s'.work u) := by
  intro hmem
  by_cases hold : s.conn.state_ = .kDisconnecting
  · rcases mem_marks_of_step hplaced hu hs hmem with hmem | hentering
    · exact h.stored hold hu p hmem
    · obtain ⟨hconn, -⟩ := h.callers.exec_of_entering hentering
      simp [TcpConnection.connected, hold] at hconn
  · cases hs with
    | run t o i rest c new hs hr =>
      have hset : i = .setState .kDisconnecting := by
        by_contra hne
        by_cases hi : ∃ state, i = .setState state
        · obtain ⟨state, rfl⟩ := hi
          cases hr
          exact hne (congrArg Instr.setState hstate)
        · simp only [not_exists] at hi
          rw [← (Shared.frame_of_run hr).state hi] at hold
          exact hold hstate
      subst hset
      have ht : t = u := by
        by_contra hne
        cases h.callers t (.setState .kDisconnecting) (by simp [work, hs]) hne
      subst ht
      cases hr
      have hrest : .sendInLoop p ∈ marks rawFunctor rest := by
        simpa [work, h.orderly.queue] using hmem
      have hbelow := h.orderly.stack
      rw [hs] at hbelow
      rcases hbelow with hnone | ⟨rest', heq, hnone⟩
      · rw [List.tail_cons] at hnone
        rw [hnone] at hrest
        cases hrest
      · cases heq
        rw [marks_cons, hnone, List.append_nil, Option.mem_toList] at hrest
        cases hrest
    | _ => exact hold hstate

theorem mem_passage_of_call {t : T} {f : Functor (Payload T)} {rest : List (Instr T)}
    (hplaced : Placed io main s) (hraw : f.raw = true) (hs : s.stack t = .call f :: rest) :
    f ∈ passage rawFunctor io s u := by
  have hmem : .call f ∈ s.work t := by simp [work, hs]
  have ht : t = io := Functor.runsOn_io_of_raw hraw (hplaced t _ hmem)
  subst ht
  exact List.mem_append_left _
    (List.mem_filterMap.mpr ⟨.call f, hmem, rawFunctor_eq_some.mpr ⟨hraw, rfl⟩⟩)

/-- No payload is dropped: none is executed after the half-close. -/
theorem kept_step {l : RunLabel T} (hplaced : Placed io main s) (h : SendsFirst io u s)
    (hgood : HalfClosesLast io u s l) (hs : Steps io main s l s') :
    ∀ e ∈ s'.executed, e.dropped = false := by
  cases hs with
  | run t o i rest c new hs hr =>
    by_cases hi : ∃ p, i = .call (.sendInLoop p)
    · obtain ⟨p, rfl⟩ := hi
      obtain ⟨_, rfl, _⟩ := Shared.run_sendInLoop hr
      have hopen : s.conn.halfClosed = false := by
        by_contra hclosed
        obtain ⟨_, hnone, _⟩ := h.halfClosed (by simpa using hclosed)
        exact hnone p (mem_passage_of_call hplaced rfl hs)
      obtain ⟨_, _, hfatal, _⟩ := hgood (.call (.sendInLoop p)) (by simp [hs])
      obtain ⟨hpipe, hreset⟩ := hfatal rfl hopen
      intro e he
      rcases List.mem_append.mp he with he | he
      · exact h.kept e he
      · rw [List.mem_singleton.mp he]
        simp [Execution.dropped, hpipe, hreset]
    · simp only [not_exists] at hi
      intro e he
      rw [(Shared.frame_of_run hr).executed hi] at he
      exact h.kept e he
  | _ => exact h.kept

/-! ## The half-close -/

theorem halfClosed_of_run {t : T} {i : Instr T} {o : Outcome} {s c : Shared T}
    {new : List (Instr T)} (hr : s.run io main t i o = some (c, new))
    (hc : c.conn.halfClosed = true) (hopen : s.conn.halfClosed = false) :
    i.halfCloses s.conn = true ∧ s.conn.isWriting = false ∧
      c.conn.outputBuffer_ = s.conn.outputBuffer_ := by
  cases Shared.changes_of_run hr with
  | shutdown he =>
    rcases s.conn.shutdownInLoop_cases with hsame | ⟨hw, hclosed⟩
    · rw [he, hsame, hopen] at hc
      cases hc
    · rw [he, hclosed]
      exact ⟨rfl, hw, rfl⟩
  | drained he =>
    rcases s.conn.halfCloseIfDisconnecting_cases with hsame | ⟨hstate, hw, hclosed⟩
    · rw [he, hsame, hopen] at hc
      cases hc
    · rw [he, hclosed]
      exact ⟨by simp [Instr.halfCloses, hstate], hw, rfl⟩
  | send p he | sendFile fileDescriptor offset count he | write he =>
    simp [he, hopen] at hc
  | interest k he | remove he | state state he | same i he =>
    simp [he, hopen, TcpConnection.changeInterest] at hc

theorem readable_of_run {t : T} {i : Instr T} {o : Outcome} {s c : Shared T}
    {new : List (Instr T)} (hr : s.run io main t i o = some (c, new))
    (hi : ∀ p, i ≠ .call (.sendInLoop p)) (h : s.conn.outputBuffer_.readable = []) :
    c.conn.outputBuffer_.readable = [] := by
  cases Shared.changes_of_run hr with
  | send p he => exact absurd rfl (hi p)
  | sendFile fileDescriptor offset count he => simpa [he] using h
  | write he =>
    rw [he]
    exact s.conn.handleWrite_readable o h
  | interest k he | remove he | state state he | same i he =>
    rw [he]
    exact h
  | shutdown he =>
    rcases s.conn.shutdownInLoop_cases with hc | ⟨_, hc⟩ <;> rw [he, hc] <;> exact h
  | drained he =>
    rcases s.conn.halfCloseIfDisconnecting_cases with hc | ⟨_, _, hc⟩ <;> rw [he, hc] <;> exact h

omit [DecidableEq T] in
theorem payload_of_marked {j : Instr T} {p : Payload T}
    (h : j.marked rawFunctor = some (.sendInLoop p)) : j.payload = some p := by
  obtain ⟨f, hf, hmark⟩ := Option.bind_eq_some_iff.mp h
  obtain ⟨_, rfl⟩ := rawFunctor_eq_some.mp hmark
  cases j with
  | runInLoop loop f | queueInLoop loop f | call f =>
    cases hf
    rfl
  | _ => cases hf

/-- The half-close comes last: nothing is on its way, and nothing will be. -/
theorem last_of_halfCloses {t : T} {i : Instr T} {o : Outcome} {rest : List (Instr T)}
    (hplaced : Placed io main s) (hup : BeforeUp io s ∨ AfterUp s) (h : SendsFirst io u s)
    (hgood : HalfClosesLast io u s (.exec t o)) (hs : Steps io main s (.exec t o) s')
    (hstack : s.stack t = i :: rest) (hi : i.halfCloses s.conn = true) :
    Finished u s ∧ ∀ p, .sendInLoop p ∉ passage rawFunctor io s' u := by
  have hmem : i ∈ s.work t := by simp [work, hstack]
  cases i with
  | call f =>
    cases f with
    | shutdownInLoop =>
      have hfinished := h.finished (mem_passage_of_call hplaced rfl hstack)
      have hstep := passage_step raw_of_rawFunctor hplaced h.callers.issuedBy h.orderly hs
      have hleaving : leaving rawFunctor s (.exec t o) = some .shutdownInLoop := by
        simp only [leaving, hstack]
        rfl
      rw [hfinished.entering h.callers, hleaving, Option.toList_none, List.append_nil] at hstep
      have hsorted := h.sorted
      rw [hstep, Option.toList_some, List.singleton_append, List.pairwise_cons] at hsorted
      refine ⟨hfinished, ?_⟩
      intro p hp
      cases hsorted.1 _ hp rfl
    | _ => cases hi
  | drained =>
    have hstate : s.conn.state_ = .kDisconnecting := by simpa [Instr.halfCloses] using hi
    have hfinished : Finished u s :=
      ⟨(afterUp_of_not_early hup hmem rfl).callbacks, Or.inl (by simp [hstate])⟩
    obtain ⟨_, _, _, hqueue, _⟩ := hgood .drained (by simp [hstack])
    refine ⟨hfinished, ?_⟩
    intro p hp
    rcases mem_passage_of_step raw_of_rawFunctor hplaced h.callers.issuedBy h.orderly hs
      (Or.inl hp) with hp | hp
    · rcases List.mem_append.mp hp with hp | hp
      · obtain ⟨j, hj, hmark⟩ := List.mem_filterMap.mp hp
        have hnone := hqueue rfl hstate j hj
        rw [payload_of_marked hmark] at hnone
        cases hnone
      · split_ifs at hp with hu
        · cases hp
        · exact h.stored hstate hu p hp
    · rw [hfinished.entering h.callers] at hp
      cases hp
  | _ => cases hi

theorem halfClosed_step {l : RunLabel T} (hplaced : Placed io main s)
    (hup : BeforeUp io s ∨ AfterUp s) (hstream : StreamMatches s) (h : SendsFirst io u s)
    (hgood : HalfClosesLast io u s l) (hs : Steps io main s l s')
    (hc : s'.conn.halfClosed = true) : Finished u s' ∧
      (∀ p, .sendInLoop p ∉ passage rawFunctor io s' u) ∧
      s'.conn.outputBuffer_.readable = [] := by
  cases hopen : s.conn.halfClosed with
  | true =>
    obtain ⟨hfinished, hnone, hread⟩ := h.halfClosed hopen
    refine ⟨hfinished.step (hfinished.afterUp hup) hs, ?_, ?_⟩
    · intro p hp
      rcases mem_passage_of_step raw_of_rawFunctor hplaced h.callers.issuedBy h.orderly hs
        (Or.inl hp) with hp | hp
      · exact hnone p hp
      · rw [hfinished.entering h.callers] at hp
        cases hp
    · cases hs with
      | run t o i rest c new hs hr =>
        apply readable_of_run hr _ hread
        rintro p rfl
        exact hnone p (mem_passage_of_call hplaced rfl hs)
      | _ => exact hread
  | false =>
    have hsteps := hs
    cases hs with
    | run t o i rest c new hs hr =>
      obtain ⟨hi, hw, hbuffer⟩ := halfClosed_of_run hr hc hopen
      obtain ⟨hfinished, hnone⟩ := last_of_halfCloses hplaced hup h hgood hsteps hs hi
      refine ⟨hfinished.step (hfinished.afterUp hup) hsteps, hnone, ?_⟩
      obtain ⟨_, _, _, _, hwaits⟩ := hgood i (by simp [hs])
      simp only [hbuffer]
      cases hclosing : s.closing with
      | true => exact hwaits hi hclosing hw
      | false =>
        by_contra hne
        have hon := (hstream.interest hclosing).mpr hne
        rw [hw] at hon
        cases hon
    | _ =>
      rw [show s.conn.halfClosed = true from hc] at hopen
      cases hopen

theorem sendsFirst_init (h : Init io main s) : SendsFirst io u s := by
  obtain ⟨horderly, hpassage⟩ := orderly_init (u := u) raw_of_rawFunctor h
  refine ⟨?_, ?_, horderly, ?_, ?_, ?_, ?_, ?_⟩
  · intro t i hi _
    rcases h.mem_work hi with ⟨_, rfl⟩ | rfl | rfl <;> rfl
  · simp [h.accepted]
  · simp [hpassage]
  · simp [hpassage]
  · intro hstate
    rw [h.conn.state] at hstate
    cases hstate
  · simp [h.executed]
  · intro hc
    rw [h.conn.halfClosed] at hc
    cases hc

theorem sendsFirst_of_reachable (h : (system io main).Reachable (HalfClosesLast io u) s) :
    SendsFirst io u s := by
  apply h.invariant_of (J := fun s => Placed io main s ∧ (BeforeUp io s ∨ AfterUp s) ∧
    StreamMatches s)
  · intro s hs
    exact ⟨placed_of_reachable hs, beforeUp_or_afterUp hs,
      streamMatches_of_reachable (hs.mono fun _ _ => HalfClosesLast.plainSends)⟩
  · intro s
    exact sendsFirst_init
  · rintro s l s' hi ⟨hplaced, hup, hstream⟩ hgood hs
    have hsteps := steps_of_step hs.2
    exact {
      callers := oneCaller_step hi.callers hgood hsteps
      accepted := accepted_step hplaced hi hsteps
      orderly := orderly_step raw_of_rawFunctor hplaced hi.callers.issuedBy hi.orderly hsteps
      sorted := sorted_step hplaced hi hsteps
      finished := finished_step hplaced hup hi hsteps
      stored := stored_step hplaced hi hsteps
      kept := kept_step hplaced hi hgood hsteps
      halfClosed := halfClosed_step hplaced hup hstream hi hgood hsteps }

/-! ## What has been written then -/

theorem mem_marks_of_sentBy {is : List (Instr T)} {p : Payload T}
    (h : p ∈ marks (sentBy u) is) : .sendInLoop p ∈ marks rawFunctor is := by
  obtain ⟨j, hj, hmark⟩ := List.mem_filterMap.mp h
  obtain ⟨f, hf, hsent⟩ := Option.bind_eq_some_iff.mp hmark
  refine List.mem_filterMap.mpr ⟨j, hj, ?_⟩
  rw [Instr.marked, hf, Option.bind_some]
  cases f with
  | sendInLoop q =>
    simp only [sentBy] at hsent
    split_ifs at hsent
    cases hsent
    rfl
  | _ => cases hsent

/-- With one caller and nothing on its way, all that was sent has been executed. -/
theorem accepted_eq_executed (hsent : ∀ t, SentInOrder io s t) (h : SendsFirst io u s)
    (hnone : ∀ p, .sendInLoop p ∉ passage rawFunctor io s u) :
    s.accepted = s.executed.map Execution.payload := by
  have hpassage : passage (sentBy u) io s u = [] := by
    apply List.eq_nil_iff_forall_not_mem.mpr
    intro p hp
    apply hnone p
    rcases List.mem_append.mp hp with hp | hp
    · exact List.mem_append_left _ (mem_marks_of_sentBy hp)
    · apply List.mem_append_right
      split_ifs at hp ⊢
      · cases hp
      · exact mem_marks_of_sentBy hp
  have hall : ∀ ps : List (Payload T), (∀ p ∈ ps, p.caller = u) → ofCaller u ps = ps := by
    intro ps hps
    apply List.filter_eq_self.mpr
    intro p hp
    simpa using hps p hp
  have hexecuted : ∀ p ∈ s.executed.map Execution.payload, p.caller = u := by
    intro p hp
    have hmem : p ∈ ofCaller p.caller s.accepted := by
      rw [(hsent p.caller).order]
      apply List.mem_append_left
      exact List.mem_filter.mpr ⟨hp, by simp⟩
    exact h.accepted p (List.mem_of_mem_filter hmem)
  have horder := (hsent u).order
  rwa [hall _ h.accepted, hall _ hexecuted, hpassage, List.append_nil] at horder

omit [DecidableEq T] in
theorem transmitted_of_kept {es : List (Execution T)} (h : ∀ e ∈ es, e.dropped = false) :
    transmitted es = (es.map Execution.payload).flatMap Payload.bytes := by
  have hall : es.filter (fun e => !e.dropped) = es := by
    apply List.filter_eq_self.mpr
    intro e he
    simp [h e he]
  rw [transmitted, hall, List.flatMap_map]

/-- In every run in which one thread sends and shuts down, and every half-close
finds no payload left for the loop: once the connection is half-closed, the
kernel has been given every byte of every payload that `send` has accepted. -/
theorem written_before_half_close (h : (system io main).Reachable (HalfClosesLast io u) s)
    (hc : s.conn.halfClosed = true) : s.conn.written = s.accepted.flatMap Payload.bytes := by
  have hinv := sendsFirst_of_reachable h
  obtain ⟨_, hnone, hread⟩ := hinv.halfClosed hc
  have hstream := streamMatches_of_reachable (h.mono fun _ _ => HalfClosesLast.plainSends)
  calc
    s.conn.written = s.conn.output := by rw [TcpConnection.output, hread, List.append_nil]
    _ = transmitted s.executed := hstream.output
    _ = (s.executed.map Execution.payload).flatMap Payload.bytes := transmitted_of_kept hinv.kept
    _ = s.accepted.flatMap Payload.bytes := by
      rw [accepted_eq_executed (sentInOrder_of_reachable h) hinv hnone]

/-- Two payloads wait when the connection is shut down; `handleWrite` writes
both, and half-closes. -/
theorem written_before_half_close_two :
    ∃ s : ConnectionRun Party,
      (s.conn.halfClosed, s.accepted.map Payload.len) = (true, [1, 2]) ∧
        s.conn.written = s.accepted.flatMap Payload.bytes := by
  have hrun : (TransitionSystem.replay (TransitionSystem.guarded (HalfClosesLast .io .user)
      (TransitionSystem.guarded Permitted (step .io .main))) (newConnection false)
      (List.flatten [establish, [.call .user (.send 0 1)], execs .user 5,
        [.call .user (.send 1 2)], execs .user 5, [.call .user .shutdown], execs .user 6,
        wakeToSwap .io,
        [.control .io .runNext, .exec .io wouldBlock, .control .io .endBody, .control .io .runNext,
          .exec .io wouldBlock, .control .io .endBody, .control .io .runNext],
        execs .io 1, [.control .io .endBody], backToPoll .io,
        [.report false EPOLLOUT, .handleEvent, .exec .io (moved 3)], execs .io 1])).map
        (fun s => (s.conn.halfClosed, s.accepted.map Payload.len))
      = some (true, [1, 2]) := by decide +kernel
  obtain ⟨s, hs, hobs⟩ := exists_reachable_of_replay (init_newConnection false) _ hrun
  exact ⟨s, hobs, written_before_half_close hs (Prod.mk.inj hobs).1⟩

/-- The second payload and `shutdown` come while `handleWrite` is draining the
first: it finds `kDisconnecting` and half-closes before the loop has run the
queued `sendInLoop`. -/
theorem half_closes_before_queued_payload :
    ∃ s : ConnectionRun Party, (system .io .main).Reachable TransitionSystem.AnyStep s ∧
      s.conn.halfClosed = true ∧ s.conn.written = [0] ∧
      s.accepted.flatMap Payload.bytes = [0, 0, 0] := by
  have hrun : (TransitionSystem.replay (TransitionSystem.guarded TransitionSystem.AnyStep
      (TransitionSystem.guarded Permitted (step .io .main))) (newConnection false)
      (List.flatten [establish, [.call .user (.send 0 1)], execs .user 5, wakeToSwap .io,
        [.control .io .runNext, .exec .io wouldBlock, .control .io .endBody], backToPoll .io,
        [.report false EPOLLOUT, .handleEvent, .call .user (.send 1 2)], execs .user 5,
        [.call .user .shutdown], execs .user 6, [.exec .io (moved 1)], execs .io 1])).map
        (fun s => (s.conn.halfClosed, s.conn.written, s.accepted.flatMap Payload.bytes))
      = some (true, [0], [0, 0, 0]) := by decide +kernel
  obtain ⟨s, hs, hobs⟩ := exists_reachable_of_replay (init_newConnection false) _ hrun
  obtain ⟨hclosed, hrest⟩ := Prod.mk.inj hobs
  obtain ⟨hwritten, hbytes⟩ := Prod.mk.inj hrest
  exact ⟨s, hs, hclosed, hwritten, hbytes⟩

end ConnectionRun
end MuduoCore
