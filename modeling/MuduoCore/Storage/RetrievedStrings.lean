import MuduoCore.Storage.BufferQueue
import MuduoCore.Storage.ScatterRead

/-!
# The strings that are handed out

`retrieveAsString(len)` copies `len` bytes from `peek()` on, and then leaves it
to `retrieve(len)` to move the indices, which gives up no more than is readable.
The two agree as long as `len` is at most `readableBytes()`. A longer string
goes on with the cells past `writerIndex_`: what earlier data has left there,
or, outside the vector, whatever lies behind it.
-/

namespace MuduoCore

open ForwardCopy

inductive BufferCall
  | client (op : BufferOp)
  | readFd (result : ReadResult)
  deriving DecidableEq, Repr

namespace Buffer

def call (b : Buffer) : BufferCall → Option Buffer
  | .client op => (b.apply op).map Prod.snd
  | .readFd result => (b.readFd 0 result).map Prod.fst

/-- A buffer from its construction on, whatever is called with whatever lengths. -/
def inUse (initialSize : ℕ) : TransitionSystem Buffer BufferCall where
  Init b := b = create initialSize
  Step b c b' := b.call c = some b'

def cellsRead (b : Buffer) (len : ℕ) : List ℕ := List.range' b.readerIndex_ len

/-- The string is what the readable region loses, and no cell from
`writerIndex_` on is read for it. -/
def RetrievesExactly (b : Buffer) (len : ℕ) : Prop :=
  (∀ i ∈ b.cellsRead len, i < b.writerIndex_) ∧
    ∃ result b', b.retrieveAsString len = some (result, b') ∧
      result = b.readable.take (min len b.readableBytes) ∧ b.readable = result ++ b'.readable

/-- The same unread bytes at the same place; the cells past them may differ. -/
structure SameData (b c : Buffer) : Prop where
  reader : c.readerIndex_ = b.readerIndex_
  writer : c.writerIndex_ = b.writerIndex_
  cells : c.buffer_.take b.writerIndex_ = b.buffer_.take b.writerIndex_

variable {b c : Buffer} {len : ℕ}

/-! ## Every call keeps the invariant -/

theorem Inv.of_retrieveAsString (h : b.Inv) {result : List Byte}
    (hc : b.retrieveAsString len = some (result, c)) : c.Inv := by
  obtain ⟨s, _, heq⟩ := Option.map_eq_some_iff.mp hc
  cases heq
  exact h.retrieve len

theorem Inv.of_apply (h : b.Inv) {op : BufferOp} {out : List Byte}
    (hc : b.apply op = some (out, c)) : c.Inv := by
  by_cases hop : Fifo.Admits b.readable op
  · obtain ⟨b', hb', hinv, _⟩ := h.apply hop
    rw [hb'] at hc
    cases hc
    exact hinv
  · cases op with
    | retrieveAsString len => exact h.of_retrieveAsString hc
    | writeFd n =>
      obtain ⟨s, _, heq⟩ := Option.map_eq_some_iff.mp hc
      cases heq
      exact h.retrieve n
    | append data => exact absurd trivial hop
    | ensureWritableBytes len => exact absurd trivial hop
    | retrieve len => exact absurd trivial hop
    | retrieveAll => exact absurd trivial hop
    | retrieveAllAsString => exact absurd trivial hop

theorem Inv.of_call (h : b.Inv) {call : BufferCall} (hc : b.call call = some c) : c.Inv := by
  cases call with
  | client op =>
    obtain ⟨⟨out, d⟩, hd, rfl⟩ := Option.map_eq_some_iff.mp hc
    exact h.of_apply hd
  | readFd result =>
    obtain ⟨⟨d, n, errno⟩, hd, rfl⟩ := Option.map_eq_some_iff.mp hc
    exact h.of_readFd hd

theorem inv_of_reachable {initialSize : ℕ}
    (h : (inUse initialSize).Reachable TransitionSystem.AnyStep b) : b.Inv := by
  refine h.invariant ?_ fun b call c hinv _ hc => hinv.of_call hc
  rintro b rfl
  exact inv_create initialSize

/-! ## What is read, and what is handed out -/

theorem Inv.peekString_eq_mapM (h : b.Inv) (len : ℕ) :
    b.peekString len = (b.cellsRead len).mapM fun i => b.buffer_[i]? := by
  rw [cellsRead, mapM_range'_eq (h.ordered.trans h.bounded)]
  rfl

/-- A string that is too long runs on behind the readable bytes. -/
theorem Inv.retrieveAsString_of_lt (h : b.Inv) (hlen : b.readableBytes < len) :
    b.retrieveAsString len =
      if b.readerIndex_ + len ≤ b.buffer_.length then
        some (b.readable ++ (b.buffer_.drop b.writerIndex_).take (len - b.readableBytes),
          b.retrieveAll)
      else none := by
  have hreset : b.retrieve len = b.retrieveAll := if_neg (not_lt.mpr hlen.le)
  have hw := h.reader_add_readableBytes
  have hsplit : (b.buffer_.drop b.readerIndex_).take len =
      b.readable ++ (b.buffer_.drop b.writerIndex_).take (len - b.readableBytes) := by
    calc
      _ = (b.buffer_.drop b.readerIndex_).take
          (b.readableBytes + (len - b.readableBytes)) := by
        rw [Nat.add_sub_of_le hlen.le]
      _ = (b.buffer_.drop b.readerIndex_).take b.readableBytes ++
          ((b.buffer_.drop b.readerIndex_).drop b.readableBytes).take
            (len - b.readableBytes) := List.take_add
      _ = _ := by rw [List.drop_drop, hw, readable, List.drop_take, readableBytes]
  rw [Buffer.retrieveAsString, Buffer.peekString, hreset]
  split_ifs
  · rw [hsplit]
    rfl
  · rfl

/-- From every state that a buffer can reach: exactly the strings that are no
longer than what is readable consist of what the buffer gives up, and are read
below `writerIndex_`. -/
theorem retrievesExactly_iff {initialSize : ℕ}
    (h : (inUse initialSize).Reachable TransitionSystem.AnyStep b) (len : ℕ) :
    b.RetrievesExactly len ↔ len ≤ b.readableBytes := by
  have hinv := inv_of_reachable h
  constructor
  · rintro ⟨_, result, b', hresult, hfirst, _⟩
    by_contra hlt
    rw [hinv.retrieveAsString_of_lt (not_le.mp hlt)] at hresult
    split_ifs at hresult with hfit
    have hstring := (Prod.mk.inj (Option.some.inj hresult)).1
    have hlength := congrArg List.length (hstring.trans hfirst)
    have hread := hinv.length_readable
    have hw := hinv.reader_add_readableBytes
    simp only [List.length_append, List.length_take, List.length_drop, hread] at hlength
    omega
  · intro hlen
    have hw := hinv.reader_add_readableBytes
    refine ⟨?_, _, _, hinv.retrieveAsString hlen, ?_, ?_⟩
    · intro i hi
      obtain ⟨_, hlt⟩ := List.mem_range'_1.mp hi
      omega
    · rw [Nat.min_eq_left hlen]
    · rw [hinv.readable_retrieve, List.take_append_drop]

/-- The second datum of a buffer that has been emptied before. -/
theorem retrievesExactly_iff_reused :
    ∃ b : Buffer, b.readable = [9] ∧ b.RetrievesExactly 1 := by
  have hrun : (TransitionSystem.replay call (create 8)
      [.client (.append [1, 2, 3]), .client .retrieveAll, .readFd (.ok [9])]).map
      (fun b => (b.readable, b.readableBytes)) = some ([9], 1) := by decide
  obtain ⟨b, hb, hobs⟩ := TransitionSystem.exists_reachable_of_replay
    (S := inUse 8) (fun _ _ _ hc => ⟨trivial, hc⟩) (.init rfl) _ hrun
  obtain ⟨hread, hlen⟩ := Prod.mk.inj hobs
  exact ⟨b, hread, (retrievesExactly_iff hb 1).mpr hlen.ge⟩

/-- Two bytes that had been read before are handed out behind the only one that
is readable; a string that is longer still would leave the vector. -/
theorem stale_bytes_handed_out :
    ∃ b : Buffer, (inUse 8).Reachable TransitionSystem.AnyStep b ∧ b.readable = [9] ∧
      (b.retrieveAsString 3).map Prod.fst = some [9, 2, 3] ∧ b.retrieveAsString 20 = none ∧
      ¬ b.RetrievesExactly 3 := by
  have hrun : (TransitionSystem.replay call (create 8)
      [.client (.append [1, 2, 3]), .client .retrieveAll, .client (.append [9])]).map id =
      some ⟨[0, 0, 0, 0, 0, 0, 0, 0, 9, 2, 3, 0, 0, 0, 0, 0], 8, 9⟩ := by decide
  obtain ⟨b, hb, rfl⟩ := TransitionSystem.exists_reachable_of_replay
    (S := inUse 8) (fun _ _ _ hc => ⟨trivial, hc⟩) (.init rfl) _ hrun
  refine ⟨_, hb, by decide, by decide, by decide, ?_⟩
  rintro ⟨hcells, _⟩
  exact absurd (hcells 10 (by decide)) (by decide)

/-! ## What the string can tell -/

theorem Inv.sameData_replicate (h : b.Inv) (n : ℕ) (x : Byte) :
    (⟨b.buffer_.take b.writerIndex_ ++ List.replicate n x, b.readerIndex_,
      b.writerIndex_⟩ : Buffer).Inv ∧
    SameData b ⟨b.buffer_.take b.writerIndex_ ++ List.replicate n x, b.readerIndex_,
      b.writerIndex_⟩ := by
  have hlength := h.length_take_writer
  refine ⟨⟨h.prepend, h.ordered, ?_⟩, rfl, rfl, ?_⟩
  · rw [List.length_append, hlength]
    exact Nat.le_add_right _ _
  · rw [List.take_append_of_le_length hlength.ge, List.take_of_length_le hlength.le]

theorem SameData.readable (h : SameData b c) : c.readable = b.readable := by
  rw [Buffer.readable, Buffer.readable, h.writer, h.reader, h.cells]

theorem SameData.readableBytes (h : SameData b c) : c.readableBytes = b.readableBytes := by
  rw [Buffer.readableBytes, Buffer.readableBytes, h.writer, h.reader]

/-- The string depends on the unread bytes alone exactly if it is no longer
than they are. -/
theorem Inv.string_determined_iff (h : b.Inv) (len : ℕ) :
    (∀ c : Buffer, c.Inv → SameData b c →
      (c.retrieveAsString len).map Prod.fst = (b.retrieveAsString len).map Prod.fst) ↔
      len ≤ b.readableBytes := by
  constructor
  · intro hsame
    by_contra hlt
    have hw := h.reader_add_readableBytes
    have hlength := h.length_take_writer
    -- behind the data stands as much as the string asks for, all of one value
    have hstring : ∀ x, some (b.readable ++ List.replicate (len - b.readableBytes) x) =
        (b.retrieveAsString len).map Prod.fst := by
      intro x
      obtain ⟨hinv, hdata⟩ := h.sameData_replicate (len - b.readableBytes) x
      have hlong := hdata.readableBytes.trans_lt (not_le.mp hlt)
      rw [← hsame _ hinv hdata, hinv.retrieveAsString_of_lt hlong, hdata.readable,
        hdata.readableBytes, if_pos, Option.map_some]
      · rw [List.drop_append_of_le_length hlength.ge, List.drop_of_length_le hlength.le,
          List.nil_append, List.take_of_length_le (List.length_replicate ..).le]
      · simp only [List.length_append, hlength, List.length_replicate]
        omega
    have heq := Option.some.inj ((hstring 0).trans (hstring 1).symm)
    have hvalues := List.append_cancel_left heq
    obtain ⟨n, hn⟩ : ∃ n, len - b.readableBytes = n + 1 := Nat.exists_eq_add_one.mpr (by omega)
    rw [hn] at hvalues
    exact absurd (List.cons.inj hvalues).1 (by decide)
  · intro hlen c hinv hdata
    rw [hinv.retrieveAsString (hlen.trans_eq hdata.readableBytes.symm), h.retrieveAsString hlen,
      hdata.readable]
    rfl

end Buffer
end MuduoCore
