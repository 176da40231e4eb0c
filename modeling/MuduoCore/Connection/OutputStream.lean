import MuduoCore.Connection.CallOrder
import MuduoCore.Connection.PayloadMemory

/-!
# The output of a connection as a stream

Two sequences are followed through any run. The payloads that `send` has
accepted from one thread are those executed, then those on their way to the
loop. The bytes accepted by the kernel, then those in `outputBuffer_`, are the
executed payloads, without those whose direct write failed for good.
-/

namespace MuduoCore

def ofCaller {T : Type*} [DecidableEq T] (t : T) (ps : List (Payload T)) : List (Payload T) :=
  ps.filter fun p => p.caller = t

def Instr.sends {T : Type*} : Instr T → Bool
  | call (.sendInLoop _) => true
  | _ => false

def Instr.sendsFile {T : Type*} : Instr T → Bool
  | call (.sendFileInLoop _ _ _) => true
  | _ => false

/-- The direct write failed with `EPIPE` or `ECONNRESET`. -/
def Execution.dropped {T : Type*} (e : Execution T) : Bool :=
  e.failure = some .EPIPE || e.failure = some .ECONNRESET

section Payloads

variable {T : Type*} [DecidableEq T]

@[simp] theorem ofCaller_append (t : T) (ps qs : List (Payload T)) :
    ofCaller t (ps ++ qs) = ofCaller t ps ++ ofCaller t qs :=
  List.filter_append ..

def sentBy (t : T) : Functor (Payload T) → Option (Payload T)
  | .sendInLoop p => if p.caller = t then some p else none
  | _ => none

theorem ofCaller_singleton (t : T) (p : Payload T) :
    ofCaller t [p] = (sentBy t (.sendInLoop p)).toList := by
  by_cases h : p.caller = t <;> simp [ofCaller, sentBy, h]

theorem raw_of_sentBy (t : T) (f : Functor (Payload T)) (h : sentBy t f ≠ none) :
    f.raw = true := by
  cases f with
  | sendInLoop p => rfl
  | _ => exact absurd rfl h

end Payloads

namespace ConnectionRun

variable {T : Type*} [DecidableEq T] {io main : T} {s s' : ConnectionRun T}

/-! ## The order of the payloads of one thread -/

/-- What a thread has sent is what has been executed, then what is on its way. -/
structure SentInOrder (io : T) (s : ConnectionRun T) (t : T) : Prop where
  orderly : Orderly (sentBy t) io t s
  order : ofCaller t s.accepted =
    ofCaller t (s.executed.map Execution.payload) ++ passage (sentBy t) io s t

omit [DecidableEq T] in
theorem carried_payload {t : T} {i : Instr T} {p : Payload T} (h : i.PlacedOn io main t)
    (hi : i.carries = some (.sendInLoop p)) : p.caller = t := by
  cases i with
  | send q =>
    cases hi
    exact h
  | runInLoop loop cb =>
    cases hi
    exact h.2 p rfl
  | queueInLoop loop cb =>
    cases hi
    exact h.2.1 p rfl
  | _ => cases hi

theorem issuedBy_of_placed (h : Placed io main s) (t : T) : IssuedBy (sentBy t) t s := by
  intro v hv i hi
  cases hc : i.carries with
  | none => rfl
  | some f =>
    cases f with
    | sendInLoop p =>
      have hcaller := carried_payload (h v i hi) hc
      simp [sentBy, hcaller, hv]
    | _ => rfl

theorem accepted_of_run {t : T} {i : Instr T} {o : Outcome} {s c : Shared T}
    {new : List (Instr T)} (h : s.run io main t i o = some (c, new)) (v : T) :
    ofCaller v c.accepted = ofCaller v s.accepted ++ (i.entering (sentBy v) s).toList := by
  by_cases hi : ∃ p, i = .send p
  · obtain ⟨p, rfl⟩ := hi
    simp only [Shared.run, Option.some.injEq] at h
    by_cases hc : s.conn.connected = true
    · rw [if_pos hc] at h
      cases h
      rw [ofCaller_append, ofCaller_singleton, Instr.entering, if_pos hc]
      rfl
    · rw [if_neg hc] at h
      cases h
      simp [Instr.entering, hc]
  · simp only [not_exists] at hi
    have hnone : i.entering (sentBy v) s = none := by
      cases i with
      | send p => exact absurd rfl (hi p)
      | shutdown => simp [Instr.entering, Instr.issues, sentBy]
      | _ => simp [Instr.entering, Instr.issues]
    rw [(Shared.frame_of_run h).accepted hi, hnone, Option.toList_none, List.append_nil]

theorem executed_of_run {t : T} {i : Instr T} {o : Outcome} {s c : Shared T}
    {new : List (Instr T)} (h : s.run io main t i o = some (c, new)) (v : T) :
    ofCaller v (c.executed.map Execution.payload) =
      ofCaller v (s.executed.map Execution.payload) ++ (i.leaving (sentBy v)).toList := by
  by_cases hi : ∃ p, i = .call (.sendInLoop p)
  · obtain ⟨p, rfl⟩ := hi
    obtain ⟨_, rfl, _⟩ := Shared.run_sendInLoop h
    rw [List.map_append, ofCaller_append, List.map_singleton, ofCaller_singleton]
    rfl
  · simp only [not_exists] at hi
    have hnone : i.leaving (sentBy v) = none := by
      cases i with
      | call f =>
        cases f with
        | sendInLoop p => exact absurd rfl (hi p)
        | _ => rfl
      | _ => rfl
    rw [(Shared.frame_of_run h).executed hi, hnone, Option.toList_none, List.append_nil]

/-- A step records what enters the passage of a thread and what leaves it. -/
theorem records_step {l : RunLabel T} (hs : Steps io main s l s') (t : T) :
    ofCaller t s'.accepted = ofCaller t s.accepted ++ (entering (sentBy t) s l).toList ∧
      ofCaller t (s'.executed.map Execution.payload) =
        ofCaller t (s.executed.map Execution.payload) ++ (leaving (sentBy t) s l).toList := by
  cases hs with
  | run v o i rest c new hs hr =>
    simp only [entering, leaving, hs, List.head?_cons, Option.bind_some]
    exact ⟨accepted_of_run hr t, executed_of_run hr t⟩
  | queue v o loop cb rest hs | wakeup v o loop rest hs =>
    simp [entering, leaving, hs, Instr.entering, Instr.issues, Instr.leaving]
  | _ => simp [entering, leaving]

theorem sentInOrder_step {l : RunLabel T} {t : T} (hplaced : Placed io main s)
    (h : SentInOrder io s t) (hs : Steps io main s l s') : SentInOrder io s' t := by
  have hissued := issuedBy_of_placed hplaced t
  obtain ⟨hacc, hexe⟩ := records_step hs t
  refine ⟨orderly_step (raw_of_sentBy t) hplaced hissued h.orderly hs, ?_⟩
  calc
    ofCaller t s'.accepted
        = ofCaller t (s.executed.map Execution.payload) ++
            (passage (sentBy t) io s t ++ (entering (sentBy t) s l).toList) := by
          rw [hacc, h.order, List.append_assoc]
    _ = ofCaller t (s.executed.map Execution.payload) ++
          ((leaving (sentBy t) s l).toList ++ passage (sentBy t) io s' t) := by
          rw [passage_step (raw_of_sentBy t) hplaced hissued h.orderly hs]
    _ = ofCaller t (s'.executed.map Execution.payload) ++ passage (sentBy t) io s' t := by
          rw [hexe, List.append_assoc]

theorem sentInOrder_of_reachable {Good : ConnectionRun T → RunLabel T → Prop}
    (h : (system io main).Reachable Good s) (t : T) : SentInOrder io s t := by
  apply h.invariant_of (I := fun s => SentInOrder io s t) (J := Placed io main)
    (fun _ => placed_of_reachable)
  · intro s hinit
    obtain ⟨horderly, hpassage⟩ := orderly_init (raw_of_sentBy t) hinit
    refine ⟨horderly, ?_⟩
    rw [hpassage, hinit.accepted, hinit.executed]
    rfl
  · intro s l s' hi hplaced _ hs
    exact sentInOrder_step hplaced hi (steps_of_step hs.2)

/-- The payloads of each thread are executed in the order of its calls. -/
theorem SentInOrder.isPrefix {t : T} (h : SentInOrder io s t) :
    ofCaller t (s.executed.map Execution.payload) <+: ofCaller t s.accepted := by
  rw [h.order]
  exact List.prefix_append _ _

/-! ## The bytes -/

/-- The payloads executed, without those that were dropped. -/
def transmitted (es : List (Execution T)) : List Byte :=
  (es.filter fun e => !e.dropped).flatMap fun e => e.payload.bytes

/-- No `sendFile` runs, payloads are left alone while they are outstanding, and
logging a failed direct write leaves `errno` on its side of the test. -/
def PlainSends (s : ConnectionRun T) : RunLabel T → Prop
  | .exec t o => ∀ i ∈ (s.stack t).head?, i.sendsFile = false ∧
      (i.sends = true → s.conn.writesDirectly = true → o.LogKeepsClass)
  | l => LeavesPayloads s l

instance [Fintype T] (s : ConnectionRun T) : (l : RunLabel T) → Decidable (PlainSends s l)
  | .exec t _ => inferInstanceAs (Decidable (∀ i ∈ (s.stack t).head?, _ ∧ _))
  | .store t a v => inferInstanceAs (Decidable (LeavesPayloads s (.store t a v)))
  | .control _ _ | .report _ _ | .handleEvent | .call _ _ => isTrue trivial

omit [DecidableEq T] in
theorem PlainSends.leavesPayloads {l : RunLabel T} (h : PlainSends s l) : LeavesPayloads s l := by
  cases l with
  | exec t o => trivial
  | _ => exact h

theorem output_of_run {t : T} {i : Instr T} {o : Outcome} {c : Shared T} {new : List (Instr T)}
    (h : s.toShared.run io main t i o = some (c, new)) (hsend : i.sends = false)
    (hfile : i.sendsFile = false) : c.conn.output = s.conn.output := by
  cases Shared.changes_of_run h with
  | send p hc => cases hsend
  | sendFile fileDescriptor offset count hc => cases hfile
  | write hc => rw [hc, TcpConnection.handleWrite_output]
  | interest k hc => rw [hc, TcpConnection.changeInterest_output]
  | remove hc | state state hc | same i hc => simp only [hc, TcpConnection.output]
  | shutdown hc =>
    rcases s.conn.shutdownInLoop_cases with he | ⟨_, he⟩
    · rw [hc, he]
    · simp only [hc, he, TcpConnection.output]
  | drained hc =>
    rcases s.conn.halfCloseIfDisconnecting_cases with he | ⟨_, _, he⟩
    · rw [hc, he]
    · simp only [hc, he, TcpConnection.output]

/-- As long as only the interest in reading is switched, write interest is on
exactly while bytes wait. -/
theorem interestMatches_of_run {t : T} {i : Instr T} {o : Outcome} {c : Shared T}
    {new : List (Instr T)} (h : s.toShared.run io main t i o = some (c, new))
    (hm : s.conn.InterestMatches) (hfile : i.sendsFile = false)
    (hinterest : ∀ k, i = .changeInterest k → k = .enableReading) : c.conn.InterestMatches := by
  cases Shared.changes_of_run h with
  | send p hc =>
    rw [hc]
    exact s.conn.sendInLoop_interestMatches _ _ hm
  | sendFile fileDescriptor offset count hc => cases hfile
  | write hc =>
    rw [hc]
    exact s.conn.handleWrite_interestMatches _ hm
  | interest k hc =>
    rw [hc, hinterest k rfl]
    exact s.conn.interestMatches_enableReading hm
  | remove hc =>
    rw [hc]
    exact s.conn.interestMatches_remove hm
  | state state hc | same i hc =>
    rw [hc]
    exact hm
  | shutdown hc =>
    rw [hc]
    rcases s.conn.shutdownInLoop_cases with he | ⟨_, he⟩ <;> rw [he] <;> exact hm
  | drained hc =>
    rw [hc]
    rcases s.conn.halfCloseIfDisconnecting_cases with he | ⟨_, _, he⟩ <;> rw [he] <;> exact hm

/-- The output is what has been transmitted; until the connection starts to
close, write interest is on exactly while bytes wait, and no instruction that
is left switches it off. -/
structure StreamMatches (s : ConnectionRun T) : Prop where
  output : s.conn.output = transmitted s.executed
  interest : s.closing = false → s.conn.InterestMatches
  enabling : ∀ t, ∀ i ∈ s.work t, ∀ k, i = .changeInterest k →
    k = .enableReading ∨ s.closing = true

theorem closing_of_run {t : T} {i : Instr T} {o : Outcome} {s c : Shared T}
    {new : List (Instr T)} (h : s.run io main t i o = some (c, new))
    (hc : s.closing = true) : c.closing = true := by
  by_cases hd : i = .call .connectDestroyed
  · subst hd
    cases h
    rfl
  · by_cases hh : i = .handle .closeCallback
    · subst hh
      cases h
      rfl
    · rw [(Shared.frame_of_run h).closing hd hh, hc]

theorem closing_step {l : RunLabel T} (hs : Steps io main s l s') (hc : s.closing = true) :
    s'.closing = true := by
  cases hs with
  | run t o i rest c new hs hr => exact closing_of_run hr hc
  | _ => exact hc

theorem enabling_follows {t : T} {i : Instr T} {o : Outcome} {c : Shared T}
    {new : List (Instr T)} (h : s.toShared.run io main t i o = some (c, new)) {k : InterestChange}
    (hk : .changeInterest k ∈ new) : k = .enableReading ∨ c.closing = true := by
  generalize hj : Instr.changeInterest k = j at hk
  cases Shared.follows_of_run h hk with
  | establish_enable =>
    left
    cases hj
    rfl
  | destroy_disable | close_disable =>
    right
    cases h
    rfl
  | _ => cases hj

theorem enabling_step {l : RunLabel T} (h : StreamMatches s) (hs : Steps io main s l s') :
    ∀ t, ∀ i ∈ s'.work t, ∀ k, i = .changeInterest k → k = .enableReading ∨ s'.closing = true := by
  apply hs.forall_work
    (P := fun _ i => ∀ k, i = .changeInterest k → k = .enableReading ∨ s'.closing = true)
  · intro t i hi k hk
    rcases h.enabling t i hi k hk with he | hc
    · exact Or.inl he
    · exact Or.inr (closing_step hs hc)
  · rintro t o i new _ _ hr _ j hj k rfl
    exact enabling_follows hr hj
  · simp
  · simp
  · simp
  · simp
  · intro t c _ i hi k hk
    subst hk
    cases c <;> simp [code] at hi

omit [DecidableEq T] in
theorem transmitted_append (es : List (Execution T)) (e : Execution T) :
    transmitted (es ++ [e]) = transmitted es ++ if e.dropped then [] else e.payload.bytes := by
  cases h : e.dropped <;> simp [transmitted, h]

theorem output_run {t : T} {o : Outcome} {i : Instr T} {rest new : List (Instr T)} {c : Shared T}
    (hintact : PayloadsIntact s) (h : StreamMatches s) (hs : s.stack t = i :: rest)
    (hfile : i.sendsFile = false)
    (hlog : i.sends = true → s.conn.writesDirectly = true → o.LogKeepsClass)
    (hr : s.toShared.run io main t i o = some (c, new)) :
    c.conn.output = transmitted c.executed := by
  by_cases hi : ∃ p, i = .call (.sendInLoop p)
  · obtain ⟨p, rfl⟩ := hi
    have hdata : s.payloadData p = p.bytes :=
      hintact.outstanding t (.call (.sendInLoop p)) (by simp [work, hs]) p rfl
    obtain ⟨_, rfl, _⟩ := Shared.run_sendInLoop hr
    have hdropped := s.conn.faultError_eq o (hlog rfl)
    rw [transmitted_append, TcpConnection.sendInLoop_output, h.output, hdropped, hdata]
    rfl
  · simp only [not_exists] at hi
    have hsend : i.sends = false := by
      cases i with
      | call f =>
        cases f with
        | sendInLoop p => exact absurd rfl (hi p)
        | _ => rfl
      | _ => rfl
    rw [output_of_run hr hsend hfile, (Shared.frame_of_run hr).executed hi]
    exact h.output

theorem streamMatches_step {l : RunLabel T} (hintact : PayloadsIntact s) (h : StreamMatches s)
    (hgood : PlainSends s l) (hs : Steps io main s l s') : StreamMatches s' := by
  have henabling := enabling_step h hs
  cases hs with
  | run t o i rest c new hs hr =>
    obtain ⟨hfile, hlog⟩ := hgood i (by simp [hs])
    refine ⟨output_run hintact h hs hfile hlog hr, ?_, henabling⟩
    intro hc
    have hopen : s.closing = false := by
      by_contra hclosing
      rw [closing_of_run hr (by simpa using hclosing)] at hc
      cases hc
    apply interestMatches_of_run hr (h.interest hopen) hfile
    rintro k rfl
    rcases h.enabling t (.changeInterest k) (by simp [work, hs]) k rfl with he | hclosing
    · exact he
    · rw [hopen] at hclosing
      cases hclosing
  | _ => exact ⟨h.output, h.interest, henabling⟩

theorem streamMatches_init (h : Init io main s) : StreamMatches s := by
  have hread : s.conn.outputBuffer_.readable = [] := h.conn.readable
  constructor
  · rw [h.executed, TcpConnection.output, hread, h.conn.written]
    rfl
  · intro _
    simp [TcpConnection.InterestMatches, h.conn.isWriting, hread]
  · intro t i hi k hk
    subst hk
    rcases h.mem_work hi with ⟨_, he⟩ | he | he <;> cases he

theorem streamMatches_of_reachable (h : (system io main).Reachable PlainSends s) :
    StreamMatches s := by
  have hintact : ∀ s, (system io main).Reachable PlainSends s → PayloadsIntact s := by
    intro s h
    apply h.invariant (fun _ => payloadsIntact_init)
    intro s l s' hi hgood hs
    exact payloadsIntact_step hi hgood.leavesPayloads (steps_of_step hs.2)
  apply h.invariant_of hintact
  · intro s
    exact streamMatches_init
  · intro s l s' hi hp hgood hs
    exact streamMatches_step hp hi hgood (steps_of_step hs.2)

/-- In every run of plain sends: the bytes accepted by the kernel and those
that wait are the executed payloads without the dropped ones; those of each
thread are executed in the order of its calls; and until the connection starts
to close, write interest is on exactly while bytes wait. -/
theorem output_stream_integrity (h : (system io main).Reachable PlainSends s) :
    s.conn.written ++ s.conn.outputBuffer_.readable = transmitted s.executed ∧
      (∀ t, ofCaller t (s.executed.map Execution.payload) <+: ofCaller t s.accepted) ∧
      (s.closing = false →
        (s.conn.isWriting = true ↔ s.conn.outputBuffer_.readable ≠ [])) := by
  have hstream := streamMatches_of_reachable h
  exact ⟨hstream.output, fun t => (sentInOrder_of_reachable h t).isPrefix, hstream.interest⟩

/-- The write accepts nothing: the socket's buffer is full. -/
def wouldBlock : Outcome := ⟨.error .EWOULDBLOCK, .other 0⟩

/-- A payload that has to wait, and a second one behind it. -/
theorem output_stream_integrity_waiting :
    ∃ s : ConnectionRun Party, (s.conn.written, s.accepted.length) = ([], 2) ∧
      s.conn.written ++ s.conn.outputBuffer_.readable = transmitted s.executed := by
  have hrun : (TransitionSystem.replay (TransitionSystem.guarded PlainSends
      (TransitionSystem.guarded Permitted (step .io .main))) (newConnection true)
      (List.flatten [establish, [.call .user (.send 0 1)], execs .user 5,
        [.call .user (.send 1 2)], execs .user 5, wakeToSwap .io,
        [.control .io .runNext, .exec .io wouldBlock, .control .io .endBody, .control .io .runNext,
          .exec .io wouldBlock]])).map
        (fun s => (s.conn.written, s.accepted.length)) = some ([], 2) := by decide +kernel
  obtain ⟨s, hs, hobs⟩ := exists_reachable_of_replay (init_newConnection true) _ hrun
  exact ⟨s, hobs, (output_stream_integrity hs).1⟩

/-- The direct write fails for want of buffer space, and the log line about it
leaves `EPIPE` in `errno`: the payload is dropped. -/
theorem logging_drops_payload :
    ∃ s : ConnectionRun Party, (system .io .main).Reachable TransitionSystem.AnyStep s ∧
      s.conn.written ++ s.conn.outputBuffer_.readable = [] ∧ transmitted s.executed = [0] := by
  have hrun : (TransitionSystem.replay (TransitionSystem.guarded TransitionSystem.AnyStep
      (TransitionSystem.guarded Permitted (step .io .main))) (newConnection false)
      (List.flatten [establish, [.call .user (.send 0 1)], execs .user 5, wakeToSwap .io,
        [.control .io .runNext, .exec .io ⟨.error (.other 105), .EPIPE⟩]])).map
        (fun s => (s.conn.written ++ s.conn.outputBuffer_.readable, transmitted s.executed))
      = some ([], [0]) := by decide +kernel
  obtain ⟨s, hs, hobs⟩ := exists_reachable_of_replay (init_newConnection false) _ hrun
  obtain ⟨hout, hsent⟩ := Prod.mk.inj hobs
  exact ⟨s, hs, hout, hsent⟩

end ConnectionRun
end MuduoCore
