import MuduoCore.Foundation.TransitionSystem
import MuduoCore.Storage.Buffer

/-!
# Reading from a descriptor into the buffer

`readFd` lets `readv(2)` fill the writable space first and an array on the
stack after it, and then appends what has gone to the stack. Whatever the
kernel delivers, the buffer holds it as if it had been appended. The storage
grows only when the unread data and the room asked for do not fit, so it is
bounded by the unread data, however much passes through.
-/

namespace MuduoCore

open ForwardCopy

/-- What `readv(2)` returns: the bytes delivered, in order, or the error. -/
inductive ReadResult
  | ok (data : List Byte)
  | error (errno : ℕ)
  deriving DecidableEq, Repr

/-- The calls that fill and empty a buffer. -/
inductive StorageOp
  | append (data : List Byte)
  | readFd (result : ReadResult)
  | retrieve (len : ℕ)
  | retrieveAll
  | retrieveAsString (len : ℕ)
  deriving DecidableEq, Repr

namespace Buffer

def extrabufSize : ℕ := 65536

/-- The total size of the iovecs: `extrabuf` is the second one, if it is used. -/
def iovecSize (b : Buffer) : ℕ :=
  b.writableBytes + if b.writableBytes < extrabufSize then extrabufSize else 0

/-- The result with the buffer, the number returned and `*saveErrno`; the
kernel does not deliver more than the iovecs hold. -/
def readFd (b : Buffer) (saveErrno : ℕ) : ReadResult → Option (Buffer × ℤ × ℕ)
  | .error errno => some (b, -1, errno)
  | .ok data =>
    let writable := b.writableBytes
    let n := data.length
    if b.iovecSize < n then none
    else
      (copyInto b.buffer_ b.writerIndex_ (data.take writable)).bind fun cells =>
        if n ≤ writable then
          some ({ b with buffer_ := cells, writerIndex_ := b.writerIndex_ + n }, n, saveErrno)
        else
          -- what has gone to `extrabuf`
          (append { b with buffer_ := cells, writerIndex_ := cells.length }
            (data.drop writable)).map fun b => (b, n, saveErrno)

variable {b c : Buffer}

/-! ## What is read is appended -/

theorem Inv.fill (h : b.Inv) (data : List Byte) :
    ∃ cells, copyInto b.buffer_ b.writerIndex_ (data.take b.writableBytes) = some cells ∧
      cells.length = b.buffer_.length ∧
      cells.take (b.writerIndex_ + (data.take b.writableBytes).length) =
        b.buffer_.take b.writerIndex_ ++ data.take b.writableBytes := by
  have hb := h.bounded
  have hfit : b.writerIndex_ + (data.take b.writableBytes).length ≤ b.buffer_.length := by
    rw [List.length_take, writableBytes]
    omega
  have hcopy := copyInto_eq hfit
  refine ⟨_, hcopy, length_copyInto hcopy, ?_⟩
  rw [List.take_append_of_le_length, List.take_of_length_le]
  · simp [hb]
  · simp [hb]

theorem Inv.readFd_ok (h : b.Inv) (saveErrno : ℕ) {data : List Byte}
    (hfit : data.length ≤ b.iovecSize) :
    ∃ b' : Buffer, b.readFd saveErrno (.ok data) = some (b', (data.length : ℤ), saveErrno) ∧
      b'.Inv ∧ b'.readable = b.readable ++ data := by
  have hb := h.bounded
  have ho := h.ordered
  obtain ⟨cells, hcells, hlen, htake⟩ := h.fill data
  have hhead := h.length_take_writer
  rw [Buffer.readFd, if_neg (not_lt.mpr hfit), hcells, Option.bind_some]
  by_cases hn : data.length ≤ b.writableBytes
  · rw [if_pos hn]
    have hroom : b.writerIndex_ + data.length ≤ b.buffer_.length := by
      rw [writableBytes] at hn
      omega
    refine ⟨_, rfl, ⟨h.prepend, ho.trans (Nat.le_add_right _ _), ?_⟩, ?_⟩
    · simpa only [hlen] using hroom
    · rw [List.take_of_length_le hn] at htake
      rw [readable, readable, htake, List.drop_append_of_le_length (by rw [hhead]; exact ho)]
  · rw [if_neg hn]
    have hspace : b.writerIndex_ + b.writableBytes = b.buffer_.length := by
      rw [writableBytes]
      omega
    have hfilled : (⟨cells, b.readerIndex_, cells.length⟩ : Buffer).Inv :=
      ⟨h.prepend, by simp only [hlen]; omega, le_rfl⟩
    obtain ⟨b', hb', hinv, hread⟩ := hfilled.append (data.drop b.writableBytes)
    refine ⟨b', by rw [hb']; rfl, hinv, ?_⟩
    have hall : cells = b.buffer_.take b.writerIndex_ ++ data.take b.writableBytes := by
      rw [← htake, List.length_take, Nat.min_eq_left (not_le.mp hn).le, hspace, ← hlen,
        List.take_length]
    have hmiddle : (⟨cells, b.readerIndex_, cells.length⟩ : Buffer).readable =
        b.readable ++ data.take b.writableBytes := by
      rw [readable, List.take_length, readable, hall,
        List.drop_append_of_le_length (by rw [hhead]; exact ho)]
    rw [hread, hmiddle, List.append_assoc, List.take_append_drop]

theorem Inv.of_readFd (h : b.Inv) {result : ReadResult} {n : ℤ} {saveErrno errno : ℕ}
    (hc : b.readFd saveErrno result = some (c, n, errno)) : c.Inv := by
  cases result with
  | error e =>
    cases hc
    exact h
  | ok data =>
    have hfit : data.length ≤ b.iovecSize := by
      by_contra hlt
      rw [Buffer.readFd, if_pos (not_le.mp hlt)] at hc
      cases hc
    obtain ⟨d, hd, hinv, -⟩ := h.readFd_ok saveErrno hfit
    rw [hd] at hc
    cases hc
    exact hinv

/-- Whatever `readv` delivers: the readable bytes are what `append` leaves, the
number is returned, and the invariant holds; an error leaves the buffer alone
and is saved. -/
theorem readFd_agrees_with_append (h : b.Inv) (saveErrno : ℕ) :
    (∀ data, data.length ≤ b.iovecSize →
      ∃ b' : Buffer, b.readFd saveErrno (.ok data) = some (b', (data.length : ℤ), saveErrno) ∧
        b'.Inv ∧ b'.readable = b.readable ++ data ∧
        ∃ a, b.append data = some a ∧ a.readable = b'.readable) ∧
    ∀ errno, b.readFd saveErrno (.error errno) = some (b, -1, errno) := by
  refine ⟨?_, fun errno => rfl⟩
  intro data hfit
  obtain ⟨b', hb', hinv, hread⟩ := h.readFd_ok saveErrno hfit
  obtain ⟨a, ha, -, haread⟩ := h.append data
  exact ⟨b', hb', hinv, hread, a, ha, haread.trans hread.symm⟩

/-- Three bytes arrive where two fit, and the read bytes make room for the third. -/
theorem readFd_agrees_with_append_spill :
    (⟨List.replicate 16 7, 12, 14⟩ : Buffer).readFd 0 (.ok [1, 2, 3]) =
      some (⟨List.replicate 8 7 ++ [7, 7, 1, 2, 3, 7, 1, 2], 8, 13⟩, 3, 0) ∧
    ∃ b', (⟨List.replicate 16 7, 12, 14⟩ : Buffer).readFd 0 (.ok [1, 2, 3]) =
        some (b', 3, 0) ∧ b'.Inv ∧ b'.readable = [7, 7] ++ [1, 2, 3] ∧
      ∃ a, (⟨List.replicate 16 7, 12, 14⟩ : Buffer).append [1, 2, 3] = some a ∧
        a.readable = b'.readable :=
  ⟨by decide, (readFd_agrees_with_append (by decide) 0).1 [1, 2, 3] (by decide)⟩

/-! ## The size of the storage -/

def step (b : Buffer) : StorageOp → Option Buffer
  | .append data => b.append data
  | .readFd result => (b.readFd 0 result).map Prod.fst
  | .retrieve len => some (b.retrieve len)
  | .retrieveAll => some b.retrieveAll
  | .retrieveAsString len => (b.retrieveAsString len).map Prod.snd

def storage (initialSize : ℕ) : TransitionSystem Buffer StorageOp where
  Init b := b = create initialSize
  Step b op b' := b.step op = some b'

/-- No string is read that is longer than what is unread. -/
def ReadsReadable (b : Buffer) : StorageOp → Prop
  | .retrieveAsString len => len ≤ b.readableBytes
  | _ => True

instance (b : Buffer) : (op : StorageOp) → Decidable (b.ReadsReadable op)
  | .retrieveAsString len => inferInstanceAs (Decidable (len ≤ b.readableBytes))
  | .append _ | .readFd _ | .retrieve _ | .retrieveAll => isTrue trivial

def StaysWithin (M : ℕ) (b : Buffer) (op : StorageOp) : Prop :=
  (∀ b' ∈ b.step op, b'.readableBytes ≤ M) ∧ b.ReadsReadable op

instance (M : ℕ) (b : Buffer) (op : StorageOp) : Decidable (StaysWithin M b op) :=
  inferInstanceAs (Decidable ((∀ b' ∈ b.step op, _) ∧ _))

theorem length_makeSpace {len : ℕ} (hc : b.makeSpace len = some c) :
    c.buffer_.length = b.buffer_.length ∨
      b.MustGrow len ∧ c.buffer_.length = b.writerIndex_ + len := by
  unfold makeSpace at hc
  split_ifs at hc with hg
  · cases hc
    exact Or.inr ⟨hg, length_resize ..⟩
  · obtain ⟨cells, hcells, rfl⟩ := Option.map_eq_some_iff.mp hc
    exact Or.inl (length_copyWithin hcells)

theorem length_append {data : List Byte} (hc : b.append data = some c) :
    c.buffer_.length = b.buffer_.length ∨
      b.MustGrow data.length ∧ c.buffer_.length = b.writerIndex_ + data.length := by
  obtain ⟨d, hd, hc⟩ := Option.bind_eq_some_iff.mp hc
  obtain ⟨cells, hcells, rfl⟩ := Option.map_eq_some_iff.mp hc
  rw [length_copyInto hcells]
  unfold ensureWritableBytes at hd
  split_ifs at hd
  · exact length_makeSpace hd
  · cases hd
    exact Or.inl rfl

/-- Growing is bounded by twice the data: what has been read before it is less
than the room that was asked for. -/
theorem Inv.length_append_le (h : b.Inv) {data : List Byte} {M : ℕ} (hc : b.append data = some c)
    (hM : b.readableBytes + data.length ≤ M) :
    c.buffer_.length ≤ max b.buffer_.length (2 * M + kCheapPrepend) := by
  have ho := h.ordered
  rcases length_append hc with hlen | ⟨hg, hlen⟩
  · exact hlen.trans_le (le_max_left _ _)
  · apply le_max_of_le_right
    simp only [MustGrow, prependableBytes] at hg
    simp only [readableBytes] at hM
    omega

theorem Inv.readableBytes_append (h : b.Inv) {data : List Byte} (hc : b.append data = some c) :
    c.Inv ∧ c.readableBytes = b.readableBytes + data.length := by
  obtain ⟨d, hd, hinv, hread⟩ := h.append data
  obtain rfl : d = c := Option.some.inj (hd.symm.trans hc)
  refine ⟨hinv, ?_⟩
  rw [← hinv.length_readable, hread, List.length_append, h.length_readable]

theorem Inv.length_readFd_le (h : b.Inv) {result : ReadResult} {n : ℤ} {M saveErrno errno : ℕ}
    (hc : b.readFd saveErrno result = some (c, n, errno)) (hM : c.readableBytes ≤ M) :
    c.buffer_.length ≤ max b.buffer_.length (2 * M + kCheapPrepend) := by
  cases result with
  | error e =>
    cases hc
    exact le_max_left _ _
  | ok data =>
    obtain ⟨cells, hcells, hlen, -⟩ := h.fill data
    have ho := h.ordered
    have hb := h.bounded
    unfold Buffer.readFd at hc
    dsimp only at hc
    rw [hcells, Option.bind_some] at hc
    split_ifs at hc
    · cases hc
      exact hlen.trans_le (le_max_left _ _)
    · obtain ⟨d, hd, hc⟩ := Option.map_eq_some_iff.mp hc
      cases hc
      have hfilled : (⟨cells, b.readerIndex_, cells.length⟩ : Buffer).Inv :=
        ⟨h.prepend, by simp only [hlen]; omega, le_rfl⟩
      have hread := (hfilled.readableBytes_append hd).2
      have hbound := hfilled.length_append_le hd (hread.symm.trans_le hM)
      simpa only [hlen] using hbound

/-- A buffer in use keeps its invariant, and its storage within the bound. -/
theorem storage_step {op : StorageOp} {M : ℕ} (h : b.Inv) (hgood : StaysWithin M b op)
    (hc : b.step op = some c) :
    c.Inv ∧ c.buffer_.length ≤ max b.buffer_.length (2 * M + kCheapPrepend) := by
  have hM := hgood.1 c hc
  cases op with
  | append data =>
    obtain ⟨hinv, hread⟩ := h.readableBytes_append hc
    exact ⟨hinv, h.length_append_le hc (hread.symm.trans_le hM)⟩
  | readFd result =>
    obtain ⟨⟨d, n, errno⟩, hd, rfl⟩ := Option.map_eq_some_iff.mp hc
    exact ⟨h.of_readFd hd, h.length_readFd_le hd hM⟩
  | retrieve len =>
    cases hc
    refine ⟨h.retrieve len, le_max_of_le_left ?_⟩
    unfold Buffer.retrieve
    split_ifs <;> exact le_rfl
  | retrieveAll =>
    cases hc
    exact ⟨h.retrieveAll, le_max_left _ _⟩
  | retrieveAsString len =>
    have hstring := h.retrieveAsString hgood.2
    rw [step, hstring] at hc
    cases hc
    refine ⟨h.retrieve len, le_max_of_le_left ?_⟩
    unfold Buffer.retrieve
    split_ifs <;> exact le_rfl

/-- However many bytes pass through, the storage is no larger than it was at
first, or than twice the most that was ever unread needs. -/
theorem storage_bounded {initialSize M : ℕ}
    (h : (storage initialSize).Reachable (StaysWithin M) b) :
    b.buffer_.length ≤ max (initialSize + kCheapPrepend) (2 * M + kCheapPrepend) := by
  have hboth : b.Inv ∧
      b.buffer_.length ≤ max (initialSize + kCheapPrepend) (2 * M + kCheapPrepend) := by
    refine h.invariant (I := fun b => b.Inv ∧
      b.buffer_.length ≤ max (initialSize + kCheapPrepend) (2 * M + kCheapPrepend)) ?_ ?_
    · rintro b rfl
      refine ⟨inv_create initialSize, le_max_of_le_left ?_⟩
      simp [create, Nat.add_comm]
    · rintro b op c ⟨hinv, hlen⟩ hgood hc
      obtain ⟨hinv', hlen'⟩ := storage_step hinv hgood hc
      exact ⟨hinv', hlen'.trans (max_le hlen (le_max_right _ _))⟩
  exact hboth.2

/-- Seven bytes pass through a buffer of two. -/
theorem storage_bounded_passing :
    ∃ b : Buffer, (b.writerIndex_ = 12 ∧ b.buffer_.length = 12) ∧
      b.buffer_.length ≤ max (2 + kCheapPrepend) (2 * 3 + kCheapPrepend) := by
  have hrun : (TransitionSystem.replay (TransitionSystem.guarded (StaysWithin 3) step) (create 2)
      [.append [1, 2], .retrieve 1, .readFd (.ok [3, 4]), .retrieveAsString 2, .append [5, 6],
        .retrieveAll, .append [7, 8, 9], .readFd (.error 11), .retrieve 2, .readFd (.ok [1])]).map
      (fun b => (b.writerIndex_, b.buffer_.length)) = some (12, 12) := by decide +kernel
  obtain ⟨b, hb, hobs⟩ := TransitionSystem.exists_reachable_of_replay
    (S := storage 2) (fun _ _ _ => TransitionSystem.guarded_eq_some.mp) (.init rfl) _ hrun
  exact ⟨b, Prod.mk.inj hobs, storage_bounded hb⟩

end Buffer
end MuduoCore
