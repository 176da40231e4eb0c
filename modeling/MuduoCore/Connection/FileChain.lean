import MuduoCore.Connection.SendPath
import MuduoCore.Foundation.TransitionSystem

/-!
# The executions of one `sendFile`

A `sendFile` is carried out by a chain of executions of `sendFileInLoop`, each
but the first queued by the one before. Between two of them anything may happen
to the connection: every execution finds a connection of its own, and the
answer of a kernel that offers at most what is left of the file.
-/

namespace MuduoCore

/-- The arguments of `sendFileInLoop` that a continuation carries. -/
structure FileRest where
  fileDescriptor : ℤ
  offset : ℕ
  count : ℕ
  deriving DecidableEq, Repr

/-- One execution: the connection it finds, and what `sendfile(2)` answers. -/
structure Turn where
  conn : TcpConnection
  outcome : Outcome

structure FileChain where
  pending : List FileRest
  /-- the bytes handed to the kernel -/
  transferred : List Byte
  /-- how often `writeCompleteCallback_` has been queued -/
  completions : ℕ
  deriving DecidableEq, Repr

/-- The execution is one that ends the chain before its time: the connection is
shutting down, or the peer is gone. -/
def Turn.Interrupts (t : Turn) : Prop :=
  t.conn.state_ = .kDisconnecting ∨ t.conn.directError t.outcome = some .EPIPE ∨
    t.conn.directError t.outcome = some .ECONNRESET

instance (t : Turn) : Decidable t.Interrupts := inferInstanceAs (Decidable (_ ∨ _ ∨ _))

def continuations (queued : List (Functor (List Byte))) : List FileRest :=
  queued.filterMap fun f => match f with
    | .sendFileInLoop fileDescriptor offset count => some ⟨fileDescriptor, offset, count⟩
    | _ => none

namespace FileChain

def start (fileDescriptor : ℤ) (offset count : ℕ) : FileChain :=
  ⟨[⟨fileDescriptor, offset, count⟩], [], 0⟩

/-- The execution of what is pending; nothing happens where nothing is. -/
def turn (content : List Byte) (s : FileChain) (t : Turn) : FileChain :=
  match s.pending with
  | [] => s
  | p :: ps =>
    let r := t.conn.sendFileInLoop content p.fileDescriptor p.offset p.count t.outcome
    { pending := ps ++ continuations r.2
      transferred := s.transferred ++ r.1.written.drop t.conn.written.length
      completions := s.completions + r.2.count .writeComplete }

/-- No more is transferred than was asked for, nor than the file has left. -/
def Possible (content : List Byte) (s : FileChain) (t : Turn) : Prop :=
  ∀ p ∈ s.pending, t.outcome.Fits (min p.count (content.length - p.offset))

instance (content : List Byte) (s : FileChain) (t : Turn) : Decidable (Possible content s t) :=
  inferInstanceAs (Decidable (∀ p ∈ s.pending, _))

def next (content : List Byte) (s : FileChain) (t : Turn) : Option FileChain :=
  if s.pending ≠ [] ∧ Possible content s t then some (s.turn content t) else none

variable {content : List Byte} {s s' : FileChain} {p : FileRest} {t : Turn}

theorem turn_cases (hp : s.pending = [p]) :
    let n := t.conn.nwrote t.outcome
    (t.conn.state_ = .kDisconnecting ∧ s.turn content t = { s with pending := [] }) ∨
    ((t.conn.writesDirectly && t.outcome.faultError) = false ∧ n < p.count ∧
      s.turn content t = { s with
        pending := [⟨p.fileDescriptor, p.offset + n, p.count - n⟩]
        transferred := s.transferred ++ (content.drop p.offset).take n }) ∨
    ((t.conn.writesDirectly && t.outcome.faultError) = true ∧
      s.turn content t = { s with pending := [] }) ∨
    ((t.conn.writesDirectly && t.outcome.faultError) = false ∧ p.count ≤ n ∧
      s.turn content t =
        { pending := []
          transferred := s.transferred ++ (content.drop p.offset).take n
          completions := s.completions +
            if t.conn.writesDirectly && t.outcome.succeeded && t.conn.writeCompleteCallback_ then
              1
            else 0 }) := by
  intro n
  by_cases hstate : t.conn.state_ = .kDisconnecting
  · left
    refine ⟨hstate, ?_⟩
    simp [turn, hp, TcpConnection.sendFileInLoop, hstate, continuations]
  · right
    by_cases hl : t.conn.leavesRest p.count t.outcome = true
    · left
      obtain ⟨hf, hremains⟩ : (t.conn.writesDirectly && t.outcome.faultError) = false ∧
          0 < p.count - n := by
        simpa only [TcpConnection.leavesRest, Bool.and_eq_true, Bool.not_eq_true',
          decide_eq_true_eq] using hl
      have hrest : ¬ p.count - n = 0 := by omega
      refine ⟨hf, by omega, ?_⟩
      simp [turn, hp, TcpConnection.sendFileInLoop, hstate, hl, continuations, n, hrest]
    · right
      rcases t.conn.nwrote_of_not_leavesRest t.outcome hl with ⟨hf, hn⟩ | ⟨hf, hle⟩
      · left
        have hfailed : t.outcome.succeeded = false :=
          TcpConnection.succeeded_of_faultError (Bool.and_eq_true_iff.mp hf).2
        refine ⟨hf, ?_⟩
        simp [turn, hp, TcpConnection.sendFileInLoop, hstate, hl, continuations, hn, hfailed]
      · right
        have hrest : p.count - n = 0 := by omega
        refine ⟨hf, hle, ?_⟩
        simp only [turn, hp, TcpConnection.sendFileInLoop, hstate, hl, n, hrest]
        split_ifs <;> simp_all [continuations]

/-! ## What has been transferred -/

/-- The bytes transferred are the beginning of the range, and what is pending is
the rest of it. -/
structure Ranged (content : List Byte) (fileDescriptor : ℤ) (offset count : ℕ)
    (s : FileChain) : Prop where
  bytes : s.transferred = (content.drop offset).take s.transferred.length
  le : s.transferred.length ≤ count
  pending : s.pending = [] ∨ s.transferred.length < count ∧
    s.pending =
      [⟨fileDescriptor, offset + s.transferred.length, count - s.transferred.length⟩]

variable {fileDescriptor : ℤ} {offset count : ℕ}

theorem ranged_start (hpos : 0 < count) :
    Ranged content fileDescriptor offset count (start fileDescriptor offset count) :=
  ⟨rfl, Nat.zero_le _, .inr ⟨hpos, rfl⟩⟩

theorem take_append_take (k n : ℕ) :
    (content.drop offset).take k ++ (content.drop (offset + k)).take n =
      (content.drop offset).take (k + n) := by
  rw [List.take_add, List.drop_drop]

theorem eq_turn (h : s.next content t = some s') :
    s.pending ≠ [] ∧ Possible content s t ∧ s' = s.turn content t := by
  rw [next, Option.ite_none_right_eq_some] at h
  exact ⟨h.1.1, h.1.2, (Option.some.inj h.2).symm⟩

theorem nwrote_le {c : TcpConnection} {o : Outcome} {len : ℕ} (h : o.Fits len) :
    c.nwrote o ≤ len := by
  unfold TcpConnection.nwrote Outcome.count
  split_ifs
  · cases hr : o.result with
    | ok n => exact h n hr
    | error e => exact Nat.zero_le _
  · exact Nat.zero_le _

theorem Ranged.next (h : Ranged content fileDescriptor offset count s)
    (hs : s.next content t = some s') : Ranged content fileDescriptor offset count s' := by
  obtain ⟨hne, hpossible, rfl⟩ := eq_turn hs
  obtain ⟨hlt, hp⟩ := h.pending.resolve_left hne
  have hfits := nwrote_le (c := t.conn) (hpossible _ (by rw [hp]; exact List.mem_singleton_self _))
  dsimp only at hfits
  have hlen : ((content.drop (offset + s.transferred.length)).take
      (t.conn.nwrote t.outcome)).length = t.conn.nwrote t.outcome := by
    simp only [List.length_take, List.length_drop]
    omega
  have hbytes : s.transferred ++ (content.drop (offset + s.transferred.length)).take
      (t.conn.nwrote t.outcome) =
      (content.drop offset).take (s.transferred.length + t.conn.nwrote t.outcome) := by
    rw [← take_append_take, ← h.bytes]
  rcases turn_cases (t := t) hp with ⟨_, heq⟩ | ⟨_, hrest, heq⟩ |
    ⟨_, heq⟩ | ⟨_, hall, heq⟩ <;> rw [heq]
  · exact ⟨h.bytes, h.le, .inl rfl⟩
  · dsimp only at hrest ⊢
    refine ⟨?_, ?_, .inr ⟨?_, ?_⟩⟩
    · rw [List.length_append, hlen, hbytes]
    · simp only [List.length_append, hlen]
      omega
    · simp only [List.length_append, hlen]
      omega
    · simp only [List.length_append, hlen, Nat.add_assoc, Nat.sub_sub]
  · exact ⟨h.bytes, h.le, .inl rfl⟩
  · dsimp only at hall ⊢
    refine ⟨?_, ?_, .inl rfl⟩
    · rw [List.length_append, hlen, hbytes]
    · simp only [List.length_append, hlen]
      omega

theorem ranged_of_replay (hpos : 0 < count) {turns : List Turn}
    (h : TransitionSystem.replay (next content) (start fileDescriptor offset count) turns =
      some s) : Ranged content fileDescriptor offset count s :=
  TransitionSystem.replay_induction (fun _ _ _ _ hr hs => Ranged.next hr hs)
    (ranged_start hpos) h

/-! ## Where a chain ends -/

/-- The chain is under way and has completed nothing, or it has transferred its
range; then, if `set` says that the callback is there, it has queued it once. -/
structure Whole (count : ℕ) (set : Prop) (s : FileChain) : Prop where
  underway : s.pending ≠ [] → s.completions = 0
  ended : s.pending = [] → s.transferred.length = count ∧ (set → s.completions = 1)

theorem interrupts_of_faultError (h : (t.conn.writesDirectly && t.outcome.faultError) = true)
    (hlog : t.conn.writesDirectly = true → t.outcome.LogKeepsOther) : t.Interrupts := by
  obtain ⟨e, herror, hpeer⟩ := t.conn.directError_of_faultError t.outcome h hlog
  simp only [Errno.isFault, Bool.or_eq_true, decide_eq_true_eq] at hpeer
  rcases hpeer with rfl | rfl
  · exact .inr (.inl herror)
  · exact .inr (.inr herror)

theorem Whole.next {set : Prop} (h : Whole count set s)
    (hranged : Ranged content fileDescriptor offset count s) (hclean : ¬ t.Interrupts)
    (hlog : t.conn.writesDirectly = true → t.outcome.LogKeepsOther)
    (hset : set → t.conn.writeCompleteCallback_ = true) (hs : s.next content t = some s') :
    Whole count set s' := by
  have hranged' := hranged.next hs
  obtain ⟨hne, hpossible, rfl⟩ := eq_turn hs
  obtain ⟨hlt, hp⟩ := hranged.pending.resolve_left hne
  have hfits := nwrote_le (c := t.conn) (hpossible _ (by rw [hp]; exact List.mem_singleton_self _))
  dsimp only at hfits
  rcases turn_cases (t := t) hp with ⟨hstate, _⟩ | ⟨_, _, heq⟩ |
    ⟨hfault, _⟩ | ⟨_, hall, heq⟩
  · exact absurd (.inl hstate) hclean
  · refine ⟨fun _ => ?_, fun hended => ?_⟩
    · rw [heq]
      exact h.underway hne
    · rw [heq] at hended
      cases hended
  · exact absurd (interrupts_of_faultError hfault hlog) hclean
  · dsimp only at hall
    have hdirect : t.conn.writesDirectly = true := by
      by_contra hnot
      rw [TcpConnection.nwrote, if_neg hnot] at hall
      omega
    have hsucceeded : t.outcome.succeeded = true := by
      rw [TcpConnection.nwrote, if_pos hdirect] at hall
      unfold Outcome.count at hall
      unfold Outcome.succeeded
      cases hr : t.outcome.result with
      | ok n => rfl
      | error e =>
        simp only [hr] at hall
        omega
    refine ⟨fun hunder => ?_, fun _ => ⟨?_, fun hcallback => ?_⟩⟩
    · rw [heq] at hunder
      exact absurd rfl hunder
    · rw [heq]
      simp only [List.length_append, List.length_take, List.length_drop]
      omega
    · rw [heq]
      simp only [h.underway hne, hdirect, hsucceeded, hset hcallback, Bool.and_self, if_true,
        Nat.zero_add]

/-- An execution that ends the chain without having finished is the last one, and
leaves bytes of the range behind. -/
theorem ended_of_faultError (hranged : Ranged content fileDescriptor offset count s)
    (hstate : t.conn.state_ ≠ .kDisconnecting)
    (hfault : (t.conn.writesDirectly && t.outcome.faultError) = true)
    (hs : s.next content t = some s') : s'.pending = [] ∧ s'.transferred.length < count := by
  obtain ⟨hne, _, rfl⟩ := eq_turn hs
  obtain ⟨hlt, hp⟩ := hranged.pending.resolve_left hne
  rcases turn_cases (t := t) hp with ⟨hdisconnecting, _⟩ | ⟨hnot, _⟩ |
    ⟨_, heq⟩ | ⟨hnot, _⟩
  · exact absurd hdisconnecting hstate
  · rw [hfault] at hnot
    cases hnot
  · rw [heq]
    exact ⟨rfl, hlt⟩
  · rw [hfault] at hnot
    cases hnot

theorem whole_of_replay (hpos : 0 < count) {turns : List Turn}
    (h : TransitionSystem.replay (next content) (start fileDescriptor offset count) turns =
      some s) (hclean : ∀ t ∈ turns, ¬ t.Interrupts)
    (hlog : ∀ t ∈ turns, t.conn.writesDirectly = true → t.outcome.LogKeepsOther) :
    Whole count (∀ t ∈ turns, t.conn.writeCompleteCallback_ = true) s := by
  let I (s : FileChain) : Prop := Ranged content fileDescriptor offset count s ∧
    Whole count (∀ t ∈ turns, t.conn.writeCompleteCallback_ = true) s
  have hboth : I s := by
    refine TransitionSystem.replay_induction (I := I) ?_ ⟨ranged_start hpos, ?_⟩ h
    · intro s t ht s' hs hnext
      exact ⟨hs.1.next hnext,
        hs.2.next hs.1 (hclean t ht) (hlog t ht) (fun hset => hset t ht) hnext⟩
    · exact ⟨fun _ => rfl, fun hended => by cases hended⟩
  exact hboth.2

theorem eq_nil_of_ended {turns : List Turn} (hended : s.pending = [])
    (h : TransitionSystem.replay (next content) s turns = some s') : s' = s := by
  cases turns with
  | nil => exact (Option.some.inj h).symm
  | cons t turns =>
    rw [TransitionSystem.replay, Option.bind_eq_some_iff] at h
    obtain ⟨_, hs, _⟩ := h
    exact absurd hended (eq_turn hs).1

/-- At every point of the chain of a `sendFile`, the bytes transferred are the
beginning of its range, in order and once, and what is pending carries the rest.
A chain that meets neither `kDisconnecting` nor `EPIPE` nor `ECONNRESET` ends
with its whole range transferred and one callback queued, if and only if logging
never makes another error of `sendfile` look like one of these two. -/
theorem file_range_transferred_iff (content : List Byte) (fileDescriptor : ℤ)
    (offset count : ℕ) (hpos : 0 < count) (turns : List Turn) (s : FileChain)
    (hrun : TransitionSystem.replay (next content) (start fileDescriptor offset count) turns =
      some s) :
    (s.transferred = (content.drop offset).take s.transferred.length ∧
      s.transferred.length ≤ count ∧
      (s.pending = [] ∨ s.pending =
        [⟨fileDescriptor, offset + s.transferred.length, count - s.transferred.length⟩])) ∧
    ((∀ t ∈ turns, ¬ t.Interrupts) →
      ((s.pending = [] → s.transferred.length = count ∧
          ((∀ t ∈ turns, t.conn.writeCompleteCallback_ = true) → s.completions = 1)) ↔
        ∀ t ∈ turns, t.conn.writesDirectly = true → t.outcome.LogKeepsOther)) := by
  have hranged := ranged_of_replay hpos hrun
  refine ⟨⟨hranged.bytes, hranged.le, hranged.pending.imp_right And.right⟩, fun hclean => ?_⟩
  constructor
  · intro hwhole t ht hdirect
    by_contra hlog
    obtain ⟨before, after, rfl⟩ := List.append_of_mem ht
    rw [TransitionSystem.replay_append, Option.bind_eq_some_iff] at hrun
    obtain ⟨u, hu, hrun⟩ := hrun
    rw [TransitionSystem.replay, Option.bind_eq_some_iff] at hrun
    obtain ⟨v, hv, hrun⟩ := hrun
    simp only [Outcome.LogKeepsOther, not_forall] at hlog
    obtain ⟨e, he, hwould, _, hfault⟩ := hlog
    have hgives : (t.conn.writesDirectly && t.outcome.faultError) = true := by
      simp only [Outcome.faultError, he, hdirect, Bool.true_and]
      simpa [hwould] using hfault
    have hstate : t.conn.state_ ≠ .kDisconnecting := fun hd => hclean t ht (.inl hd)
    obtain ⟨hended, hshort⟩ := ended_of_faultError (ranged_of_replay hpos hu) hstate hgives hv
    have hlast : s = v := eq_nil_of_ended hended hrun
    subst hlast
    have hall := (hwhole hended).1
    omega
  · intro hlog
    exact (whole_of_replay hpos hrun hclean hlog).ended

def idle : TcpConnection := { TcpConnection.create 7 true with state_ := .kConnected }

def busy : TcpConnection := (idle.appendOutput (P := Unit) [9]).1

/-- A partial count, a full socket, an error that passes, output in front, and
the rest. -/
theorem file_range_transferred_iff_mixed :
    ∃ s, TransitionSystem.replay (next [1, 2, 3, 4]) (start 5 1 3)
        [⟨idle, ⟨.ok 1, .EWOULDBLOCK⟩⟩, ⟨idle, ⟨.error .EWOULDBLOCK, .EWOULDBLOCK⟩⟩,
          ⟨idle, ⟨.error (.other 105), .other 105⟩⟩, ⟨busy, ⟨.ok 0, .EWOULDBLOCK⟩⟩,
          ⟨idle, ⟨.ok 2, .EWOULDBLOCK⟩⟩] = some s ∧
      s.transferred.length = 3 ∧ s.completions = 1 := by
  have hrun : TransitionSystem.replay (next [1, 2, 3, 4]) (start 5 1 3)
      [⟨idle, ⟨.ok 1, .EWOULDBLOCK⟩⟩, ⟨idle, ⟨.error .EWOULDBLOCK, .EWOULDBLOCK⟩⟩,
        ⟨idle, ⟨.error (.other 105), .other 105⟩⟩, ⟨busy, ⟨.ok 0, .EWOULDBLOCK⟩⟩,
        ⟨idle, ⟨.ok 2, .EWOULDBLOCK⟩⟩] = some ⟨[], [2, 3, 4], 1⟩ := by decide +kernel
  have hwhole := ((file_range_transferred_iff [1, 2, 3, 4] 5 1 3 (by decide) _ _ hrun).2
    (by decide +kernel)).mpr (by decide +kernel) rfl
  exact ⟨_, hrun, hwhole.1, hwhole.2 (by decide +kernel)⟩

/-- `sendfile` fails for want of memory, and logging that leaves `EPIPE`: the
chain ends, and nothing of the file has been transferred. -/
theorem file_given_up_for_log :
    TransitionSystem.replay (next [1]) (start 5 0 1) [⟨idle, ⟨.error (.other 105), .EPIPE⟩⟩] =
        some ⟨[], [], 0⟩ ∧
      ¬ Turn.Interrupts ⟨idle, ⟨.error (.other 105), .EPIPE⟩⟩ := by
  decide +kernel

/-! ## Whether a chain ends -/

/-- The kernel answers `EAGAIN`, or with some of what the file has left, if it has. -/
def Answered (content : List Byte) (p : FileRest) (t : Turn) : Prop :=
  t.outcome.result = .error .EWOULDBLOCK ∨
    ∃ m, t.outcome.result = .ok m ∧ m ≤ p.count ∧ m ≤ content.length - p.offset ∧
      (p.offset < content.length → 0 < p.count → 0 < m)

/-- The execution leaves the file to the next one: output is in front, or the
socket is full. -/
def Postponed (t : Turn) : Prop :=
  t.conn.writesDirectly = false ∨ t.outcome.result = .error .EWOULDBLOCK

/-- The chain after `n` executions; `env` is what they find. -/
def after (content : List Byte) (s : FileChain) (env : ℕ → Turn) : ℕ → FileChain
  | 0 => s
  | n + 1 => (after content s env n).turn content (env n)

theorem nwrote_of_answered
    (hanswer : t.conn.writesDirectly = true → Answered content p t) :
    (t.conn.writesDirectly && t.outcome.faultError) = false ∧
      t.conn.nwrote t.outcome ≤ content.length - p.offset ∧
      (p.offset < content.length → 0 < p.count → ¬ Postponed t → 0 < t.conn.nwrote t.outcome) := by
  unfold TcpConnection.nwrote
  by_cases hdirect : t.conn.writesDirectly = true
  · rw [if_pos hdirect]
    rcases hanswer hdirect with hr | ⟨m, hr, _, hle, hpos⟩
    · refine ⟨by simp [Outcome.faultError, hr], by simp [Outcome.count, hr], ?_⟩
      intro _ _ hnot
      exact absurd (.inr hr) hnot
    · simp only [Outcome.faultError, Outcome.count, hr, Bool.and_false, true_and]
      exact ⟨hle, fun hlt hcount _ => hpos hlt hcount⟩
  · rw [if_neg hdirect]
    simp only [Bool.not_eq_true] at hdirect
    refine ⟨by rw [hdirect, Bool.false_and], Nat.zero_le _, ?_⟩
    intro _ _ hnot
    exact absurd (.inl hdirect) hnot

/-- Under the answers of the kernel, an execution finds the connection shutting
down, or leaves a rest, or ends the chain with nothing left. -/
theorem turn_answered_cases (hp : s.pending = [p])
    (hanswer : t.conn.state_ ≠ .kDisconnecting → t.conn.writesDirectly = true →
      Answered content p t) :
    (t.conn.state_ = .kDisconnecting ∧ (s.turn content t).pending = []) ∨
    (∃ n, (s.turn content t).pending = [⟨p.fileDescriptor, p.offset + n, p.count - n⟩] ∧
      n < p.count ∧ n ≤ content.length - p.offset ∧
      (p.offset < content.length → ¬ Postponed t → 0 < n)) ∨
    ((s.turn content t).pending = [] ∧ p.count ≤ content.length - p.offset) := by
  by_cases hstate : t.conn.state_ = .kDisconnecting
  · left
    simp [turn, hp, TcpConnection.sendFileInLoop, hstate, continuations]
  · right
    obtain ⟨hf, hle, hpos⟩ := nwrote_of_answered (hanswer hstate)
    rcases turn_cases (t := t) hp with ⟨hdisconnecting, _⟩ |
      ⟨_, hlt, heq⟩ | ⟨hfault, _⟩ | ⟨_, hall, heq⟩
    · exact absurd hdisconnecting hstate
    · left
      rw [heq]
      exact ⟨_, rfl, hlt, hle, fun hbytes hnot => hpos hbytes (by omega) hnot⟩
    · rw [hf] at hfault
      cases hfault
    · right
      rw [heq]
      exact ⟨rfl, hall.trans hle⟩

/-- Never more than one continuation is queued. -/
theorem pending_after {env : ℕ → Turn} (h : ∃ p, s.pending = [p]) (n : ℕ) :
    (after content s env n).pending = [] ∨ ∃ p, (after content s env n).pending = [p] := by
  induction n with
  | zero => exact .inr h
  | succ n ih =>
    rw [after]
    rcases ih with hended | ⟨p, hp⟩
    · left
      rw [turn, hended]
      exact hended
    · rcases turn_cases (t := env n) hp with ⟨_, heq⟩ | ⟨_, _, heq⟩ | ⟨_, heq⟩ | ⟨_, _, heq⟩ <;>
        rw [heq]
      · exact .inl rfl
      · exact .inr ⟨_, rfl⟩
      · exact .inl rfl
      · exact .inl rfl

theorem exists_ended_of_disconnecting {env : ℕ → Turn} (h : ∃ p, s.pending = [p]) {n : ℕ}
    (hstate : (env n).conn.state_ = .kDisconnecting) :
    ∃ m, (after content s env m).pending = [] := by
  rcases pending_after h n with hended | ⟨p, hp⟩
  · exact ⟨n, hended⟩
  · refine ⟨n + 1, ?_⟩
    rw [after]
    simp [turn, hp, TcpConnection.sendFileInLoop, hstate, continuations]

section Ends

variable {env : ℕ → Turn}

/-- What the chain still has to send lies inside the file. -/
def Inside (content : List Byte) (s : FileChain) : Prop :=
  s.pending = [] ∨ ∃ p, s.pending = [p] ∧ 0 < p.count ∧ p.offset + p.count ≤ content.length

/-- The file ends before what the chain still has to send. -/
def Beyond (content : List Byte) (s : FileChain) : Prop :=
  ∃ p, s.pending = [p] ∧ 0 < p.count ∧ content.length < p.offset + p.count

variable (hanswers : ∀ n, ∀ p ∈ (after content s env n).pending,
  (env n).conn.state_ ≠ .kDisconnecting → (env n).conn.writesDirectly = true →
    Answered content p (env n))

include hanswers

theorem beyond_after (hstate : ∀ n, (env n).conn.state_ ≠ .kDisconnecting)
    (h : Beyond content s) (n : ℕ) : Beyond content (after content s env n) := by
  induction n with
  | zero => exact h
  | succ n ih =>
    obtain ⟨p, hp, hpos, hend⟩ := ih
    have hanswer := hanswers n p (by rw [hp]; exact List.mem_singleton_self p)
    rcases turn_answered_cases hp hanswer with ⟨hdisconnecting, _⟩ | ⟨m, hrest, hlt, hle, _⟩ |
      ⟨_, hall⟩
    · exact absurd hdisconnecting (hstate n)
    · refine ⟨_, hrest, ?_, ?_⟩
      · dsimp only
        omega
      · dsimp only
        omega
    · omega

theorem inside_after (h : Inside content s) (n : ℕ) : Inside content (after content s env n) := by
  induction n with
  | zero => exact h
  | succ n ih =>
    rcases ih with hended | ⟨p, hp, hpos, hend⟩
    · left
      rw [after, turn, hended]
      exact hended
    · have hanswer := hanswers n p (by rw [hp]; exact List.mem_singleton_self p)
      rcases turn_answered_cases hp hanswer with ⟨_, hended⟩ | ⟨m, hrest, hlt, _⟩ | ⟨hended, _⟩
      · exact .inl hended
      · refine .inr ⟨_, hrest, ?_, ?_⟩
        · dsimp only
          omega
        · dsimp only
          omega
      · exact .inl hended

/-- From where nothing is postponed any more, each execution makes the rest
smaller; the induction is on the rest. -/
theorem exists_ended_of_inside {N : ℕ}
    (hpostponed : ∀ n, N ≤ n → (after content s env n).pending ≠ [] → ¬ Postponed (env n))
    (k n : ℕ) (hn : N ≤ n) (p : FileRest) (hp : (after content s env n).pending = [p])
    (hpos : 0 < p.count) (hk : p.count ≤ k) (hin : p.offset + p.count ≤ content.length) :
    ∃ m, (after content s env m).pending = [] := by
  induction k generalizing n p with
  | zero => omega
  | succ k ih =>
    have hanswer := hanswers n p (by rw [hp]; exact List.mem_singleton_self p)
    have hnot := hpostponed n hn (by rw [hp]; exact List.cons_ne_nil p [])
    rcases turn_answered_cases hp hanswer with ⟨_, hended⟩ | ⟨m, hrest, hlt, hle, hgrows⟩ |
      ⟨hended, _⟩
    · exact ⟨n + 1, hended⟩
    · have hm := hgrows (by omega) hnot
      exact ih (n + 1) (by omega) _ hrest (by dsimp only; omega) (by dsimp only; omega)
        (by dsimp only; omega)
    · exact ⟨n + 1, hended⟩

theorem exists_ended_of_empty (hp : s.pending = [p]) (hcount : p.count = 0) :
    ∃ m, (after content s env m).pending = [] := by
  have hanswer := hanswers 0 p (by rw [after, hp]; exact List.mem_singleton_self p)
  refine ⟨1, ?_⟩
  rcases turn_answered_cases hp hanswer with ⟨_, hended⟩ | ⟨m, _, hlt, _⟩ | ⟨hended, _⟩
  · exact hended
  · omega
  · exact hended

end Ends

/-- Under the answers of the kernel, and where only finitely many executions are
postponed, the chain of a `sendFile` ends exactly if its range lies inside the
file, or is empty, or some execution finds the connection shutting down. -/
theorem file_chain_ends_iff (content : List Byte) (fileDescriptor : ℤ) (offset count : ℕ)
    (env : ℕ → Turn)
    (hanswers : ∀ n, ∀ p ∈ (after content (start fileDescriptor offset count) env n).pending,
      (env n).conn.state_ ≠ .kDisconnecting → (env n).conn.writesDirectly = true →
        Answered content p (env n))
    (hpostponed : ∃ N, ∀ n, N ≤ n →
      (after content (start fileDescriptor offset count) env n).pending ≠ [] →
        ¬ Postponed (env n)) :
    (∃ n, (after content (start fileDescriptor offset count) env n).pending = []) ↔
      offset + count ≤ content.length ∨ count = 0 ∨
        ∃ n, (env n).conn.state_ = .kDisconnecting := by
  constructor
  · rintro ⟨n, hended⟩
    by_contra hnot
    simp only [not_or, not_exists] at hnot
    obtain ⟨hbeyond, hcount, hstate⟩ := hnot
    obtain ⟨p, hp, _⟩ := beyond_after hanswers hstate
      ⟨_, rfl, Nat.pos_of_ne_zero hcount, Nat.lt_of_not_le hbeyond⟩ n
    rw [hp] at hended
    cases hended
  · intro hends
    by_cases hcount : count = 0
    · exact exists_ended_of_empty hanswers rfl hcount
    · rcases hends with hin | hzero | ⟨n, hstate⟩
      · obtain ⟨N, hN⟩ := hpostponed
        have hinside := inside_after hanswers
          (.inr ⟨_, rfl, Nat.pos_of_ne_zero hcount, hin⟩) N
        rcases hinside with hended | ⟨p, hp, hpos, hend⟩
        · exact ⟨N, hended⟩
        · exact exists_ended_of_inside hanswers hN p.count N le_rfl p hp hpos le_rfl hend
      · exact absurd hzero hcount
      · exact exists_ended_of_disconnecting ⟨_, rfl⟩ hstate

/-- Two bytes from a file of three, in two executions. -/
theorem file_chain_ends_iff_two :
    ∃ n, (after [1, 2, 3] (start 5 1 2) (fun _ => ⟨idle, ⟨.ok 1, .EWOULDBLOCK⟩⟩) n).pending =
      [] := by
  have hended : ∀ n, after [1, 2, 3] (start 5 1 2)
      (fun _ => ⟨idle, ⟨.ok 1, .EWOULDBLOCK⟩⟩) (n + 2) = ⟨[], [2, 3], 1⟩ := by
    intro n
    induction n with
    | zero => decide +kernel
    | succ n ih => rw [after, ih, turn]
  refine (file_chain_ends_iff [1, 2, 3] 5 1 2 _ ?_ ?_).mpr (.inl (by decide))
  · intro n p hp _ _
    refine .inr ⟨1, rfl, ?_⟩
    match n with
    | 0 =>
      rw [after, start, List.mem_singleton] at hp
      simp [hp]
    | 1 =>
      have hone : (after [1, 2, 3] (start 5 1 2)
          (fun _ => ⟨idle, ⟨.ok 1, .EWOULDBLOCK⟩⟩) 1).pending = [⟨5, 2, 1⟩] := by
        decide +kernel
      rw [hone, List.mem_singleton] at hp
      simp [hp]
    | n + 2 =>
      rw [hended] at hp
      cases hp
  · exact ⟨0, fun _ _ _ => by unfold Postponed; decide +kernel⟩

/-- One byte from an empty file: `sendfile` returns zero, and the same execution
is queued again, for ever. -/
theorem file_chain_spins_at_end :
    Answered [] ⟨5, 0, 1⟩ ⟨idle, ⟨.ok 0, .EWOULDBLOCK⟩⟩ ∧
      ¬ Postponed ⟨idle, ⟨.ok 0, .EWOULDBLOCK⟩⟩ ∧
      ∀ n, after [] (start 5 0 1) (fun _ => ⟨idle, ⟨.ok 0, .EWOULDBLOCK⟩⟩) n = start 5 0 1 := by
  refine ⟨.inr ⟨0, rfl, by decide⟩, by unfold Postponed; decide +kernel, fun n => ?_⟩
  induction n with
  | zero => rfl
  | succ n ih =>
    rw [after, ih]
    decide +kernel

end FileChain
end MuduoCore
