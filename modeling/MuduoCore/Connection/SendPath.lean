import MuduoCore.Connection.TcpConnection

/-!
# The send path, one execution at a time

What an execution of `sendInLoop` does where it should do nothing, on a closed
connection; and when `sendInLoop` and `handleWrite` queue the high-water
callback.
-/

namespace MuduoCore
namespace TcpConnection

variable {P : Type*}

/-! ## On a closed connection -/

theorem sendInLoop_ne_self {c : TcpConnection} {data : List Byte} {o : Outcome}
    (h : c.leavesRest data.length o = true) : c.sendInLoop (P := P) data o ≠ (c, []) := by
  intro heq
  have hread := congrArg (fun r => r.1.outputBuffer_.readable.length) heq
  rw [sendInLoop_of_leavesRest c data o h] at hread
  simp only [leavesRest, Bool.and_eq_true, decide_eq_true_eq] at h
  simp only [SafeBuffer.readable_append, List.length_append, List.length_drop] at hread
  omega

theorem succeeded_of_faultError {o : Outcome} (h : o.faultError = true) :
    o.succeeded = false := by
  unfold Outcome.faultError at h
  unfold Outcome.succeeded
  cases hr : o.result with
  | ok n => simp [hr] at h
  | error e => rfl

/-- An execution of `sendInLoop` on a closed connection leaves it as it was, and
queues nothing, exactly if its direct write is refused with what the code takes
for a fatal error, or there is nothing to send and no callback for that. -/
theorem closed_send_leaves_connection_iff (c : TcpConnection) (data : List Byte) (o : Outcome)
    (_ : c.state_ = .kDisconnected) :
    c.sendInLoop (P := P) data o = (c, []) ↔
      (c.writesDirectly && o.faultError) = true ∨
        data = [] ∧ (c.writesDirectly && o.succeeded && c.writeCompleteCallback_) = false := by
  by_cases hl : c.leavesRest data.length o = true
  · have hne := sendInLoop_ne_self (P := P) hl
    simp only [leavesRest, Bool.and_eq_true, Bool.not_eq_true', decide_eq_true_eq] at hl
    have hdata : data ≠ [] := by
      rintro rfl
      simp at hl
    simp [hne, hl.1, hdata]
  · rw [sendInLoop, if_neg hl]
    rcases c.nwrote_of_not_leavesRest o hl with ⟨hf, hn⟩ | ⟨hf, hle⟩
    · have hfailed : o.succeeded = false :=
        succeeded_of_faultError (Bool.and_eq_true_iff.mp hf).2
      simp [hf, hn, hfailed]
    · rw [List.take_of_length_le hle, hf]
      constructor
      · intro heq
        simp only [Prod.mk.injEq] at heq
        have hwritten := congrArg TcpConnection.written heq.1
        refine Or.inr ⟨List.append_right_eq_self.mp hwritten, ?_⟩
        by_contra hqueued
        rw [Bool.not_eq_false] at hqueued
        simp [hqueued] at heq
      · rintro (hfault | ⟨rfl, hqueued⟩)
        · cases hfault
        · simp [hqueued]

def closed (sockfd : ℤ) : TcpConnection :=
  { ((create sockfd false).changeInterest .enableReading).changeInterest .disableAll with
    state_ := .kDisconnected }

/-- The write of one byte is refused for good. -/
theorem closed_send_leaves_connection_iff_reset :
    (closed 7).sendInLoop (P := Unit) [65] ⟨.error .ECONNRESET, .ECONNRESET⟩ = (closed 7, []) :=
  (closed_send_leaves_connection_iff (closed 7) [65] ⟨.error .ECONNRESET, .ECONNRESET⟩ rfl).mpr
    (Or.inl (by decide +kernel))

/-- Where the socket is full, the closed connection keeps the byte, and asks for
`EPOLLOUT` on a descriptor that was not watched any more. -/
theorem closed_send_registers_again :
    (closed 7).state_ = .kDisconnected ∧ (closed 7).channel_.registered = none ∧
      let r := (closed 7).sendInLoop (P := Unit) [65] ⟨.error .EWOULDBLOCK, .EWOULDBLOCK⟩
      r.1.outputBuffer_.readable = [65] ∧ r.1.channel_.registered = some Channel.kWriteEvent := by
  decide +kernel

/-! ## The high-water mark -/

/-- An execution on the loop thread that writes output; `handleWrite` up to its
end, where nobody changes `state_` meanwhile. -/
inductive OutputCall
  | sendInLoop (data : List Byte) (o : Outcome)
  | handleWrite (o : Outcome)
  deriving DecidableEq, Repr

def perform (c : TcpConnection) : OutputCall → TcpConnection × List (Functor (List Byte))
  | .sendInLoop data o => c.sendInLoop data o
  | .handleWrite o =>
    let r := c.handleWrite o
    (if r.2.2 then r.1.halfCloseIfDisconnecting else r.1, r.2.1)

def performAll (c : TcpConnection) (calls : List OutputCall) : TcpConnection :=
  calls.foldl (fun c call => (c.perform call).1) c

/-- The high-water callbacks that an execution queues. -/
def alarms (c : TcpConnection) (call : OutputCall) : List (Functor (List Byte)) :=
  (c.perform call).2.filter fun f => match f with
    | .highWaterMark _ => true
    | _ => false

/-- The bytes that wait reach the mark in this execution. -/
def Crosses (c : TcpConnection) (call : OutputCall) : Prop :=
  c.outputBuffer_.readableBytes < c.highWaterMark_ ∧
    c.highWaterMark_ ≤ (c.perform call).1.outputBuffer_.readableBytes

instance (c : TcpConnection) (call : OutputCall) : Decidable (c.Crosses call) :=
  inferInstanceAs (Decidable (_ ∧ _))

variable {c : TcpConnection}

theorem halfCloseIfDisconnecting_outputBuffer (c : TcpConnection) :
    c.halfCloseIfDisconnecting.outputBuffer_ = c.outputBuffer_ := by
  rcases c.halfCloseIfDisconnecting_cases with h | ⟨_, _, h⟩ <;> rw [h]

theorem perform_mark (c : TcpConnection) (call : OutputCall) :
    (c.perform call).1.highWaterMark_ = c.highWaterMark_ ∧
      (c.perform call).1.highWaterMarkCallback_ = c.highWaterMarkCallback_ := by
  cases call with
  | sendInLoop data o =>
    simp only [perform]
    by_cases hl : c.leavesRest data.length o = true
    · rw [sendInLoop_of_leavesRest c data o hl]
      exact ⟨rfl, rfl⟩
    · rw [sendInLoop_of_not_leavesRest c data o hl]
      exact ⟨rfl, rfl⟩
  | handleWrite o =>
    simp only [perform]
    have hpart : (c.handleWrite (P := List Byte) o).1.highWaterMark_ = c.highWaterMark_ ∧
        (c.handleWrite (P := List Byte) o).1.highWaterMarkCallback_ =
          c.highWaterMarkCallback_ := by
      rcases c.handleWrite_cases (P := List Byte) o with h | ⟨_, _, h⟩ | ⟨_, _, h⟩ <;>
        rw [h] <;> exact ⟨rfl, rfl⟩
    split_ifs
    · rcases (c.handleWrite (P := List Byte) o).1.halfCloseIfDisconnecting_cases with
        h | ⟨_, _, h⟩ <;> rw [h] <;> exact hpart
    · exact hpart

theorem performAll_mark (c : TcpConnection) (calls : List OutputCall) :
    (c.performAll calls).highWaterMark_ = c.highWaterMark_ ∧
      (c.performAll calls).highWaterMarkCallback_ = c.highWaterMarkCallback_ := by
  induction calls generalizing c with
  | nil => exact ⟨rfl, rfl⟩
  | cons call calls ih =>
    obtain ⟨hmark, hcallback⟩ := ih (c.perform call).1
    exact ⟨hmark.trans (c.perform_mark call).1, hcallback.trans (c.perform_mark call).2⟩

theorem performAll_append (c : TcpConnection) (calls rest : List OutputCall) :
    c.performAll (calls ++ rest) = (c.performAll calls).performAll rest :=
  List.foldl_append ..

theorem handleWrite_readable_le (c : TcpConnection) (o : Outcome) :
    (c.perform (.handleWrite o)).1.outputBuffer_.readableBytes ≤
      c.outputBuffer_.readableBytes := by
  have hle : (c.handleWrite (P := List Byte) o).1.outputBuffer_.readable.length ≤
      c.outputBuffer_.readable.length := by
    rcases c.handleWrite_cases (P := List Byte) o with h | ⟨_, _, h⟩ | ⟨_, _, h⟩ <;>
      simp [h, retrieveWritten, changeInterest]
  simp only [perform, SafeBuffer.readableBytes_eq]
  split_ifs
  · rwa [halfCloseIfDisconnecting_outputBuffer]
  · exact hle

theorem queued_of_leavesRest {data : List Byte} {o : Outcome}
    (h : c.leavesRest data.length o = true) :
    (c.sendInLoop (P := P) data o).2 =
      if c.highWaterMark_ ≤ c.outputBuffer_.readableBytes + (data.drop (c.nwrote o)).length &&
          c.outputBuffer_.readableBytes < c.highWaterMark_ && c.highWaterMarkCallback_ then
        [.highWaterMark (c.outputBuffer_.readableBytes + (data.drop (c.nwrote o)).length)]
      else [] := by
  rw [sendInLoop, if_pos h]
  rfl

/-- One execution queues the callback once if the bytes that wait reach the mark
in it, with their number, and not at all otherwise. -/
theorem alarms_eq (hcb : c.highWaterMarkCallback_ = true) (call : OutputCall) :
    c.alarms call = if c.Crosses call then
      [.highWaterMark (c.perform call).1.outputBuffer_.readableBytes] else [] := by
  cases call with
  | sendInLoop data o =>
    by_cases hl : c.leavesRest data.length o = true
    · have hafter : (c.perform (.sendInLoop data o)).1.outputBuffer_.readableBytes =
          c.outputBuffer_.readableBytes + (data.drop (c.nwrote o)).length := by
        rw [perform, sendInLoop_of_leavesRest c data o hl]
        simp only [SafeBuffer.readableBytes_eq, SafeBuffer.readable_append, List.length_append]
      have hiff : c.Crosses (.sendInLoop data o) ↔
          c.outputBuffer_.readableBytes < c.highWaterMark_ ∧ c.highWaterMark_ ≤
            c.outputBuffer_.readableBytes + (data.drop (c.nwrote o)).length := by
        rw [Crosses, hafter]
      have hqueued : c.alarms (.sendInLoop data o) =
          if c.Crosses (.sendInLoop data o) then [.highWaterMark
            (c.outputBuffer_.readableBytes + (data.drop (c.nwrote o)).length)] else [] := by
        rw [alarms, perform, queued_of_leavesRest hl, hcb]
        by_cases hcross : c.Crosses (.sendInLoop data o)
        · obtain ⟨hbelow, habove⟩ := hiff.mp hcross
          rw [if_pos hcross, if_pos (by simp only [habove, hbelow, decide_true, Bool.and_self])]
          rfl
        · rw [if_neg hcross, if_neg]
          · rfl
          · simp only [Bool.and_eq_true, decide_eq_true_eq]
            exact fun h => hcross (hiff.mpr ⟨h.1.2, h.1.1⟩)
      rw [hqueued, hafter]
    · have hsame : ¬ c.Crosses (.sendInLoop data o) := by
        rw [Crosses, perform, sendInLoop_of_not_leavesRest c data o hl]
        dsimp only
        omega
      rw [if_neg hsame, alarms, perform, sendInLoop, if_neg hl]
      dsimp only
      split_ifs <;> rfl
  | handleWrite o =>
    have hsame : ¬ c.Crosses (.handleWrite o) := by
      have hle := c.handleWrite_readable_le o
      unfold Crosses
      omega
    rw [if_neg hsame, alarms, perform, handleWrite]
    split_ifs <;> rfl

theorem alarms_ne_nil_iff (hcb : c.highWaterMarkCallback_ = true) (call : OutputCall) :
    c.alarms call ≠ [] ↔ c.Crosses call := by
  rw [alarms_eq hcb]
  split_ifs with h <;> simp [h]

/-- Where the bytes that wait have come to the mark, some execution made them
reach it. -/
theorem exists_crosses (c : TcpConnection) (calls : List OutputCall)
    (hbelow : c.outputBuffer_.readableBytes < c.highWaterMark_)
    (habove : c.highWaterMark_ ≤ (c.performAll calls).outputBuffer_.readableBytes) :
    ∃ pre call, pre ++ [call] <+: calls ∧ (c.performAll pre).Crosses call := by
  induction calls using List.reverseRecOn with
  | nil => exact absurd habove (by simpa [performAll] using hbelow)
  | append_singleton pre call ih =>
    by_cases hpre : c.highWaterMark_ ≤ (c.performAll pre).outputBuffer_.readableBytes
    · obtain ⟨pre', call', hprefix, hcrosses⟩ := ih hpre
      exact ⟨pre', call', hprefix.trans (List.prefix_append ..), hcrosses⟩
    · refine ⟨pre, call, List.prefix_rfl, ?_⟩
      rw [performAll_append] at habove
      rw [Crosses, (c.performAll_mark pre).1]
      exact ⟨Nat.lt_of_not_le hpre, habove⟩

/-- In any run of `sendInLoop` and `handleWrite`, an execution queues the
high-water callback exactly if the bytes that wait reach the mark in it, once,
with their number; between two callbacks fewer bytes have waited, and from a
moment below the mark none at or above it is reached without a callback. -/
theorem highWater_once_per_crossing (c : TcpConnection)
    (hcb : c.highWaterMarkCallback_ = true) :
    (∀ calls call, let s := c.performAll calls
      s.alarms call =
        if s.outputBuffer_.readableBytes < c.highWaterMark_ ∧
            c.highWaterMark_ ≤ (s.perform call).1.outputBuffer_.readableBytes then
          [.highWaterMark (s.perform call).1.outputBuffer_.readableBytes]
        else []) ∧
    (∀ calls first mid second, (c.performAll calls).alarms first ≠ [] →
      (c.performAll (calls ++ first :: mid)).alarms second ≠ [] →
        ∃ pre, pre <+: mid ∧
          (c.performAll (calls ++ first :: pre)).outputBuffer_.readableBytes <
            c.highWaterMark_) ∧
    ∀ calls later, (c.performAll calls).outputBuffer_.readableBytes < c.highWaterMark_ →
      c.highWaterMark_ ≤ (c.performAll (calls ++ later)).outputBuffer_.readableBytes →
        ∃ pre call, pre ++ [call] <+: later ∧ (c.performAll (calls ++ pre)).alarms call ≠ [] := by
  have hset : ∀ calls, (c.performAll calls).highWaterMarkCallback_ = true := fun calls =>
    (c.performAll_mark calls).2.trans hcb
  refine ⟨?_, ?_, ?_⟩
  · intro calls call
    have heq := alarms_eq (hset calls) call
    simpa only [Crosses, (c.performAll_mark calls).1] using heq
  · intro calls first mid second _ hsecond
    refine ⟨mid, List.prefix_rfl, ?_⟩
    have hcrosses := (alarms_ne_nil_iff (hset _) second).mp hsecond
    rw [Crosses, (c.performAll_mark _).1] at hcrosses
    exact hcrosses.1
  · intro calls later hbelow habove
    have hmark := (c.performAll_mark calls).1
    rw [performAll_append, ← hmark] at habove
    obtain ⟨pre, call, hprefix, hcrosses⟩ :=
      (c.performAll calls).exists_crosses later (by rwa [hmark]) habove
    refine ⟨pre, call, hprefix, ?_⟩
    rw [performAll_append]
    refine (alarms_ne_nil_iff ?_ call).mpr hcrosses
    rw [← performAll_append]
    exact hset _

/-- A mark of four bytes: two payloads, a drain between them, and a refill right
at the mark. -/
theorem highWater_once_per_crossing_refill :
    let c := { create 7 false with highWaterMark_ := 4, highWaterMarkCallback_ := true }
    (c.performAll [.sendInLoop [1, 2, 3] ⟨.ok 0, .EWOULDBLOCK⟩,
      .handleWrite ⟨.ok 2, .EWOULDBLOCK⟩]).alarms
        (.sendInLoop [4, 5, 6] ⟨.ok 0, .EWOULDBLOCK⟩) = [.highWaterMark 4] :=
  ((highWater_once_per_crossing
    { create 7 false with highWaterMark_ := 4, highWaterMarkCallback_ := true } rfl).1 _ _).trans
    (by decide +kernel)

end TcpConnection
end MuduoCore
