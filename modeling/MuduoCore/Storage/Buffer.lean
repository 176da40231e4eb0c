import MuduoCore.Foundation.ForwardCopy
import Mathlib.Tactic

/-!
# The growable byte buffer

`Buffer` follows the class of that name: one vector and two indices into it.
A read or a copy that would touch a cell outside the vector yields `none`, so
a result `some` includes the statement that every access stayed inside.
Lengths are natural numbers: sizes are taken not to exceed the address space.
-/

namespace MuduoCore

open ForwardCopy

abbrev Byte := UInt8

structure Buffer where
  buffer_ : List Byte
  readerIndex_ : ℕ
  writerIndex_ : ℕ
  deriving DecidableEq, Repr

namespace Buffer

def kCheapPrepend : ℕ := 8
def kInitialSize : ℕ := 1024

def create (initialSize : ℕ) : Buffer :=
  ⟨List.replicate (kCheapPrepend + initialSize) 0, kCheapPrepend, kCheapPrepend⟩

def readableBytes (b : Buffer) : ℕ := b.writerIndex_ - b.readerIndex_
def writableBytes (b : Buffer) : ℕ := b.buffer_.length - b.writerIndex_
def prependableBytes (b : Buffer) : ℕ := b.readerIndex_

def retrieveAll (b : Buffer) : Buffer :=
  { b with readerIndex_ := kCheapPrepend, writerIndex_ := kCheapPrepend }

def retrieve (b : Buffer) (len : ℕ) : Buffer :=
  if len < b.readableBytes then { b with readerIndex_ := b.readerIndex_ + len }
  else b.retrieveAll

/-- `std::string(peek(), len)`: the `len` cells from `readerIndex_` on. -/
def peekString (b : Buffer) (len : ℕ) : Option (List Byte) :=
  if b.readerIndex_ + len ≤ b.buffer_.length then
    some ((b.buffer_.drop b.readerIndex_).take len)
  else none

def retrieveAsString (b : Buffer) (len : ℕ) : Option (List Byte × Buffer) :=
  (b.peekString len).map fun result => (result, b.retrieve len)

def retrieveAllAsString (b : Buffer) : Option (List Byte × Buffer) :=
  b.retrieveAsString b.readableBytes

/-- The test at the head of `makeSpace`: too little room even after sliding. -/
def MustGrow (b : Buffer) (len : ℕ) : Prop :=
  b.writableBytes + b.prependableBytes < len + kCheapPrepend

instance (b : Buffer) (len : ℕ) : Decidable (b.MustGrow len) :=
  inferInstanceAs (Decidable (_ < _))

/-- `buffer_.resize(n)`: new cells are zero. -/
def resize (cells : List Byte) (n : ℕ) : List Byte :=
  cells.take n ++ List.replicate (n - cells.length) 0

def makeSpace (b : Buffer) (len : ℕ) : Option Buffer :=
  if b.MustGrow len then
    some { b with buffer_ := resize b.buffer_ (b.writerIndex_ + len) }
  else
    (copyWithin b.buffer_ b.readerIndex_ kCheapPrepend b.readableBytes).map fun cells =>
      { buffer_ := cells
        readerIndex_ := kCheapPrepend
        writerIndex_ := kCheapPrepend + b.readableBytes }

def ensureWritableBytes (b : Buffer) (len : ℕ) : Option Buffer :=
  if b.writableBytes < len then b.makeSpace len else some b

def append (b : Buffer) (data : List Byte) : Option Buffer :=
  (b.ensureWritableBytes data.length).bind fun b =>
    (copyInto b.buffer_ b.writerIndex_ data).map fun cells =>
      { b with buffer_ := cells, writerIndex_ := b.writerIndex_ + data.length }

/-- What `writeFd` hands to `write(2)` and the kernel takes `n` bytes of. -/
def writeFd (b : Buffer) (n : ℕ) : Option (List Byte) :=
  (b.peekString b.readableBytes).map fun out => out.take n

/-! ## The representation invariant and the readable bytes -/

structure Inv (b : Buffer) : Prop where
  prepend : kCheapPrepend ≤ b.readerIndex_
  ordered : b.readerIndex_ ≤ b.writerIndex_
  bounded : b.writerIndex_ ≤ b.buffer_.length

instance (b : Buffer) : Decidable b.Inv :=
  decidable_of_iff (kCheapPrepend ≤ b.readerIndex_ ∧ b.readerIndex_ ≤ b.writerIndex_ ∧
      b.writerIndex_ ≤ b.buffer_.length)
    ⟨fun h => ⟨h.1, h.2.1, h.2.2⟩, fun h => ⟨h.prepend, h.ordered, h.bounded⟩⟩

def readable (b : Buffer) : List Byte := (b.buffer_.take b.writerIndex_).drop b.readerIndex_

variable {b : Buffer}

theorem Inv.length_readable (h : b.Inv) : b.readable.length = b.readableBytes := by
  simp only [readable, List.length_take, List.length_drop, readableBytes,
    Nat.min_eq_left h.bounded]

theorem Inv.reader_add_readableBytes (h : b.Inv) :
    b.readerIndex_ + b.readableBytes = b.writerIndex_ :=
  Nat.add_sub_of_le h.ordered

theorem Inv.length_take_writer (h : b.Inv) :
    (b.buffer_.take b.writerIndex_).length = b.writerIndex_ := by
  rw [List.length_take, Nat.min_eq_left h.bounded]

theorem inv_create (initialSize : ℕ) : (create initialSize).Inv :=
  ⟨le_rfl, le_rfl, by simp [create]⟩

@[simp] theorem readable_create (initialSize : ℕ) : (create initialSize).readable = [] := by
  simp [readable, create]

theorem Inv.retrieveAll (h : b.Inv) : b.retrieveAll.Inv :=
  ⟨le_rfl, le_rfl, (h.prepend.trans h.ordered).trans h.bounded⟩

@[simp] theorem readable_retrieveAll : b.retrieveAll.readable = [] := by
  simp [readable, Buffer.retrieveAll]

theorem Inv.retrieve (h : b.Inv) (len : ℕ) : (b.retrieve len).Inv := by
  unfold Buffer.retrieve
  split_ifs with hlen
  · have hp := h.prepend
    simp only [readableBytes] at hlen
    exact ⟨by dsimp only; omega, by dsimp only; omega, h.bounded⟩
  · exact h.retrieveAll

theorem Inv.readable_retrieve (h : b.Inv) (len : ℕ) :
    (b.retrieve len).readable = b.readable.drop len := by
  unfold Buffer.retrieve
  split_ifs with hlen
  · simp only [readable, List.drop_drop]
  · rw [readable_retrieveAll, List.drop_eq_nil_of_le]
    rw [h.length_readable]
    omega

theorem Inv.peekString (h : b.Inv) {len : ℕ} (hlen : len ≤ b.readableBytes) :
    b.peekString len = some (b.readable.take len) := by
  have ho := h.ordered
  have hb := h.bounded
  simp only [readableBytes] at hlen
  rw [Buffer.peekString, if_pos (by omega), readable, List.drop_take, List.take_take,
    Nat.min_eq_left hlen]

theorem Inv.retrieveAsString (h : b.Inv) {len : ℕ} (hlen : len ≤ b.readableBytes) :
    b.retrieveAsString len = some (b.readable.take len, b.retrieve len) := by
  rw [Buffer.retrieveAsString, h.peekString hlen]
  rfl

theorem Inv.writeFd (h : b.Inv) (n : ℕ) : b.writeFd n = some (b.readable.take n) := by
  rw [Buffer.writeFd, h.peekString le_rfl, ← h.length_readable, List.take_length]
  rfl

/-! ## Making room -/

@[simp] theorem length_resize (cells : List Byte) (n : ℕ) : (resize cells n).length = n := by
  simp [resize]
  omega

theorem take_resize {cells : List Byte} {k n : ℕ} (hk : k ≤ cells.length) (hn : k ≤ n) :
    (resize cells n).take k = cells.take k := by
  have hlen : k ≤ (cells.take n).length := by simp; omega
  rw [resize, List.take_append_of_le_length hlen, List.take_take, Nat.min_eq_left hn]

/-- Sliding is chosen only when the data starts above the prepend area, so the
destination of the copy lies strictly before its source. -/
theorem slide_strict {len : ℕ} (hroom : b.writableBytes < len)
    (hslide : ¬ b.MustGrow len) : kCheapPrepend < b.readerIndex_ := by
  simp only [MustGrow, prependableBytes, not_lt] at hslide
  omega

theorem Inv.makeSpace_grow (h : b.Inv) {len : ℕ} (hg : b.MustGrow len) :
    ∃ b', b.makeSpace len = some b' ∧ b'.Inv ∧ b'.readable = b.readable ∧
      len ≤ b'.writableBytes := by
  refine ⟨_, if_pos hg, ⟨h.prepend, h.ordered, ?_⟩, ?_, ?_⟩
  · simp
  · simp only [readable]
    rw [take_resize h.bounded (Nat.le_add_right _ _)]
  · simp [writableBytes]

theorem Inv.makeSpace_slide (h : b.Inv) {len : ℕ} (hroom : b.writableBytes < len)
    (hg : ¬ b.MustGrow len) :
    ∃ b', b.makeSpace len = some b' ∧ b'.Inv ∧ b'.readable = b.readable ∧
      len ≤ b'.writableBytes := by
  have hb := h.bounded
  have ho := h.ordered
  have hstrict := slide_strict hroom hg
  have hread := h.length_readable
  have hw := h.reader_add_readableBytes
  have hsrc : b.readerIndex_ + b.readableBytes ≤ b.buffer_.length := hw.trans_le hb
  have hmoved : (b.buffer_.drop b.readerIndex_).take b.readableBytes = b.readable := by
    rw [readable, List.drop_take, readableBytes]
  have hcopy := copyWithin_eq hstrict.le hsrc
  rw [hmoved] at hcopy
  have hlen : (b.buffer_.take kCheapPrepend ++ b.readable ++
      b.buffer_.drop (kCheapPrepend + b.readableBytes)).length = b.buffer_.length := by
    simp only [List.length_append, List.length_take, List.length_drop, hread]
    omega
  have hhead : (b.buffer_.take kCheapPrepend).length = kCheapPrepend := by
    simp only [List.length_take]
    omega
  have hspace : b.makeSpace len = some
      { buffer_ := b.buffer_.take kCheapPrepend ++ b.readable ++
          b.buffer_.drop (kCheapPrepend + b.readableBytes)
        readerIndex_ := kCheapPrepend
        writerIndex_ := kCheapPrepend + b.readableBytes } := by
    rw [Buffer.makeSpace, if_neg hg, hcopy, Option.map_some]
  refine ⟨_, hspace, ⟨le_rfl, Nat.le_add_right _ _, ?_⟩, ?_, ?_⟩
  · simp only [hlen]
    omega
  · have htake : (b.buffer_.take kCheapPrepend ++ b.readable ++
        b.buffer_.drop (kCheapPrepend + b.readableBytes)).take (kCheapPrepend + b.readableBytes) =
        b.buffer_.take kCheapPrepend ++ b.readable := by
      have hw : (b.buffer_.take kCheapPrepend ++ b.readable).length =
          kCheapPrepend + b.readableBytes := by
        rw [List.length_append, hhead, h.length_readable]
      rw [List.take_append_of_le_length hw.ge, List.take_of_length_le hw.le]
    rw [readable, htake, List.drop_append_of_le_length hhead.ge, List.drop_of_length_le hhead.le,
      List.nil_append]
  · simp only [MustGrow, writableBytes, prependableBytes, not_lt] at hg
    simp only [writableBytes, hlen]
    omega

/-- `ensureWritableBytes` succeeds, keeps the data and leaves the room asked for. -/
theorem Inv.ensureWritableBytes (h : b.Inv) (len : ℕ) :
    ∃ b', b.ensureWritableBytes len = some b' ∧ b'.Inv ∧ b'.readable = b.readable ∧
      len ≤ b'.writableBytes := by
  unfold Buffer.ensureWritableBytes
  split_ifs with hroom
  · by_cases hg : b.MustGrow len
    · exact h.makeSpace_grow hg
    · exact h.makeSpace_slide hroom hg
  · exact ⟨b, rfl, h, rfl, not_lt.mp hroom⟩

/-- `append` stays inside the vector and adds at the end. -/
theorem Inv.append (h : b.Inv) (data : List Byte) :
    ∃ b', b.append data = some b' ∧ b'.Inv ∧ b'.readable = b.readable ++ data := by
  obtain ⟨c, hc, hinv, hread, hroom⟩ := h.ensureWritableBytes data.length
  have ho := hinv.ordered
  have hb := hinv.bounded
  simp only [writableBytes] at hroom
  have hfit : c.writerIndex_ + data.length ≤ c.buffer_.length := by omega
  have hcopy := copyInto_eq hfit
  have hhead := hinv.length_take_writer
  have happend : b.append data = some
      { c with
        buffer_ := c.buffer_.take c.writerIndex_ ++ data ++
          c.buffer_.drop (c.writerIndex_ + data.length)
        writerIndex_ := c.writerIndex_ + data.length } := by
    rw [Buffer.append, hc, Option.bind_some, hcopy, Option.map_some]
  refine ⟨_, happend, ⟨hinv.prepend, ho.trans (Nat.le_add_right _ _), ?_⟩, ?_⟩
  · simp only [List.length_append, hhead, List.length_drop]
    omega
  · have htake : (c.buffer_.take c.writerIndex_ ++ data ++
        c.buffer_.drop (c.writerIndex_ + data.length)).take (c.writerIndex_ + data.length) =
        c.buffer_.take c.writerIndex_ ++ data := by
      rw [List.take_append_of_le_length (by simp [hhead]), List.take_of_length_le (by simp [hhead])]
    rw [← hread, readable, readable, htake, List.drop_append_of_le_length (ho.trans hhead.ge)]

end Buffer
end MuduoCore
