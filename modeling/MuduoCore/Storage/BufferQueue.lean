import MuduoCore.Storage.Buffer

/-!
# The buffer as a byte queue

The abstract buffer is a list of unread bytes: `append` adds at the end and a
read of `len` bytes removes the first `min len size` of them. Every operation
of `Buffer` simulates its abstract counterpart, without leaving the vector, as
long as strings are read within the readable bytes and `write(2)` takes no
more than it was offered. `SafeBuffer` packs the invariant with the buffer, so
that its users see only the queue.
-/

namespace MuduoCore

/-- The calls a client makes; `writeFd n` is `writeFd`, of which the kernel
takes `n` bytes, followed by `retrieve(n)`. -/
inductive BufferOp
  | append (data : List Byte)
  | ensureWritableBytes (len : ℕ)
  | retrieve (len : ℕ)
  | retrieveAll
  | retrieveAsString (len : ℕ)
  | retrieveAllAsString
  | writeFd (n : ℕ)
  deriving DecidableEq, Repr

/-! ## The abstract queue -/

namespace Fifo

variable {α : Type*}

/-- Drop the first `len` elements and hand them out. -/
def take (q : List α) (len : ℕ) : List α × List α := (q.take len, q.drop len)

/-- Elements handed out, and the queue afterwards. -/
def apply (q : List Byte) : BufferOp → List Byte × List Byte
  | .append data => ([], q ++ data)
  | .ensureWritableBytes _ => ([], q)
  | .retrieve len => ([], (take q len).2)
  | .retrieveAll => ([], [])
  | .retrieveAsString len => take q len
  | .retrieveAllAsString => (q, [])
  | .writeFd n => take q n

def run : List Byte → List BufferOp → List (List Byte) × List Byte
  | q, [] => ([], q)
  | q, op :: ops =>
    let out := apply q op
    let rest := run out.2 ops
    (out.1 :: rest.1, rest.2)

/-- Strings are read within the readable bytes, and the kernel takes no more
than it is offered. -/
def Admits (q : List Byte) : BufferOp → Prop
  | .retrieveAsString len => len ≤ q.length
  | .writeFd n => n ≤ q.length
  | _ => True

instance (q : List Byte) (op : BufferOp) : Decidable (Admits q op) := by
  cases op <;> unfold Admits <;> infer_instance

def AdmitsAll : List Byte → List BufferOp → Prop
  | _, [] => True
  | q, op :: ops => Admits q op ∧ AdmitsAll (apply q op).2 ops

instance decidableAdmitsAll : ∀ (q : List Byte) (ops : List BufferOp), Decidable (AdmitsAll q ops)
  | _, [] => isTrue trivial
  | q, op :: ops =>
    have := decidableAdmitsAll (apply q op).2 ops
    inferInstanceAs (Decidable (_ ∧ _))

end Fifo

/-! ## The concrete operations -/

namespace Buffer

/-- Bytes handed out, and the buffer afterwards; `none` is an access outside
the vector. -/
def apply (b : Buffer) : BufferOp → Option (List Byte × Buffer)
  | .append data => (b.append data).map fun b => ([], b)
  | .ensureWritableBytes len => (b.ensureWritableBytes len).map fun b => ([], b)
  | .retrieve len => some ([], b.retrieve len)
  | .retrieveAll => some ([], b.retrieveAll)
  | .retrieveAsString len => b.retrieveAsString len
  | .retrieveAllAsString => b.retrieveAllAsString
  | .writeFd n => (b.writeFd n).map fun out => (out, b.retrieve n)

def run : Buffer → List BufferOp → Option (List (List Byte) × Buffer)
  | b, [] => some ([], b)
  | b, op :: ops =>
    (b.apply op).bind fun out =>
      (run out.2 ops).map fun rest => (out.1 :: rest.1, rest.2)

/-- `ensureWritableBytes(len)` would slide the data down. -/
def Slides (b : Buffer) (len : ℕ) : Prop := b.writableBytes < len ∧ ¬ b.MustGrow len

variable {b : Buffer}

/-- One operation keeps the invariant and simulates the queue. -/
theorem Inv.apply (h : b.Inv) {op : BufferOp} (hop : Fifo.Admits b.readable op) :
    ∃ b', b.apply op = some ((Fifo.apply b.readable op).1, b') ∧ b'.Inv ∧
      b'.readable = (Fifo.apply b.readable op).2 := by
  cases op with
  | append data =>
    obtain ⟨b', hb', hinv, hread⟩ := h.append data
    exact ⟨b', by rw [Buffer.apply, hb']; rfl, hinv, hread⟩
  | ensureWritableBytes len =>
    obtain ⟨b', hb', hinv, hread, _⟩ := h.ensureWritableBytes len
    exact ⟨b', by rw [Buffer.apply, hb']; rfl, hinv, hread⟩
  | retrieve len => exact ⟨_, rfl, h.retrieve len, h.readable_retrieve len⟩
  | retrieveAll => exact ⟨_, rfl, h.retrieveAll, readable_retrieveAll⟩
  | retrieveAsString len =>
    have hlen : len ≤ b.readableBytes := hop.trans_eq h.length_readable
    exact ⟨_, h.retrieveAsString hlen, h.retrieve len, h.readable_retrieve len⟩
  | retrieveAllAsString =>
    refine ⟨b.retrieve b.readableBytes, (h.retrieveAsString le_rfl).trans ?_, h.retrieve _, ?_⟩
    · rw [← h.length_readable, List.take_length]
      rfl
    · rw [h.readable_retrieve, ← h.length_readable, List.drop_length]
      rfl
  | writeFd n =>
    refine ⟨b.retrieve n, ?_, h.retrieve n, h.readable_retrieve n⟩
    rw [Buffer.apply, h.writeFd]
    rfl

/-- A whole run stays inside the vector and simulates the queue. -/
theorem Inv.run (h : b.Inv) {ops : List BufferOp} (hops : Fifo.AdmitsAll b.readable ops) :
    ∃ b', b.run ops = some ((Fifo.run b.readable ops).1, b') ∧ b'.Inv ∧
      b'.readable = (Fifo.run b.readable ops).2 := by
  induction ops generalizing b with
  | nil => exact ⟨b, rfl, h, rfl⟩
  | cons op ops ih =>
    obtain ⟨c, hc, hinv, hread⟩ := h.apply hops.1
    obtain ⟨b', hb', hinv', hread'⟩ := ih hinv (by rw [hread]; exact hops.2)
    refine ⟨b', ?_, hinv', ?_⟩
    · rw [Buffer.run, hc, Option.bind_some, hb', hread]
      rfl
    · rw [hread', hread]
      rfl

/-- The ranges `std::copy` reads and writes when the data is slid down. -/
theorem Inv.slide_bounds (h : b.Inv) {len : ℕ} (hs : b.Slides len) :
    kCheapPrepend < b.readerIndex_ ∧
      b.readerIndex_ + b.readableBytes ≤ b.buffer_.length ∧
      kCheapPrepend + b.readableBytes ≤ b.buffer_.length := by
  have hstrict := slide_strict hs.1 hs.2
  have hw := h.reader_add_readableBytes
  have hb := h.bounded
  exact ⟨hstrict, by omega, by omega⟩

theorem Inv.append_bounds (h : b.Inv) (data : List Byte) :
    ∃ c, b.ensureWritableBytes data.length = some c ∧
      c.writerIndex_ + data.length ≤ c.buffer_.length := by
  obtain ⟨c, hc, hinv, _, hroom⟩ := h.ensureWritableBytes data.length
  have hb := hinv.bounded
  simp only [writableBytes] at hroom
  exact ⟨c, hc, by omega⟩

/-- From any initial size, along any sequence of calls, the buffer is the byte
queue; every prefix of the calls is such a sequence, so this holds after each
step. -/
theorem buffer_refines_fifo (initialSize : ℕ) (ops : List BufferOp)
    (hops : Fifo.AdmitsAll [] ops) :
    ∃ outs b, (create initialSize).run ops = some (outs, b) ∧ b.Inv ∧
      Fifo.run [] ops = (outs, b.readable) ∧
      (∀ len, ∃ b', b.ensureWritableBytes len = some b' ∧ b'.Inv ∧
        b'.readable = b.readable ∧ len ≤ b'.writableBytes) ∧
      (∀ len, b.Slides len → kCheapPrepend < b.readerIndex_ ∧
        b.readerIndex_ + b.readableBytes ≤ b.buffer_.length ∧
        kCheapPrepend + b.readableBytes ≤ b.buffer_.length) ∧
      ∀ data : List Byte, ∃ c, b.ensureWritableBytes data.length = some c ∧
        c.writerIndex_ + data.length ≤ c.buffer_.length := by
  have hadmit : Fifo.AdmitsAll (create initialSize).readable ops := by rwa [readable_create]
  obtain ⟨b, hrun, hinv, hread⟩ := (inv_create initialSize).run hadmit
  rw [readable_create] at hrun hread
  refine ⟨_, b, hrun, hinv, ?_, hinv.ensureWritableBytes, fun _ => hinv.slide_bounds,
    hinv.append_bounds⟩
  rw [hread]

/-- Fill a buffer of four cells, drain part of it, and make it slide and grow. -/
theorem buffer_refines_fifo_slides :
    ∃ outs b, (create 4).run [.append [1, 2, 3], .retrieveAsString 2, .append [4, 5, 6],
        .writeFd 1, .append [7, 8, 9, 10, 11, 12]] = some (outs, b) ∧ b.Inv ∧
      Fifo.run [] [.append [1, 2, 3], .retrieveAsString 2, .append [4, 5, 6], .writeFd 1,
        .append [7, 8, 9, 10, 11, 12]] = (outs, b.readable) :=
  let ⟨outs, b, hrun, hinv, hread, _⟩ := buffer_refines_fifo 4
    [.append [1, 2, 3], .retrieveAsString 2, .append [4, 5, 6], .writeFd 1,
      .append [7, 8, 9, 10, 11, 12]] (by decide)
  ⟨outs, b, hrun, hinv, hread⟩

end Buffer

/-! ## The buffer with its invariant -/

/-- A buffer that carries its representation invariant. -/
def SafeBuffer := {b : Buffer // b.Inv}

namespace SafeBuffer

def create (initialSize : ℕ) : SafeBuffer := ⟨.create initialSize, Buffer.inv_create initialSize⟩

def readable (b : SafeBuffer) : List Byte := b.1.readable
def readableBytes (b : SafeBuffer) : ℕ := b.1.readableBytes

theorem append_isSome (b : SafeBuffer) (data : List Byte) : (b.1.append data).isSome := by
  obtain ⟨b', hb', _⟩ := b.2.append data
  simp [hb']

def append (b : SafeBuffer) (data : List Byte) : SafeBuffer :=
  ⟨(b.1.append data).get (b.append_isSome data), by
    obtain ⟨b', hb', hinv, _⟩ := b.2.append data
    simpa [hb'] using hinv⟩

def retrieve (b : SafeBuffer) (len : ℕ) : SafeBuffer := ⟨b.1.retrieve len, b.2.retrieve len⟩

@[simp] theorem readable_create (initialSize : ℕ) : (create initialSize).readable = [] :=
  Buffer.readable_create initialSize

@[simp] theorem readable_append (b : SafeBuffer) (data : List Byte) :
    (b.append data).readable = b.readable ++ data := by
  obtain ⟨b', hb', _, hread⟩ := b.2.append data
  simpa [append, readable, hb'] using hread

@[simp] theorem readable_retrieve (b : SafeBuffer) (len : ℕ) :
    (b.retrieve len).readable = b.readable.drop len :=
  b.2.readable_retrieve len

theorem readableBytes_eq (b : SafeBuffer) : b.readableBytes = b.readable.length :=
  b.2.length_readable.symm

end SafeBuffer
end MuduoCore
