import MuduoCore.Storage.Buffer

/-!
# Making room with `size_t`

The arithmetic of `ensureWritableBytes` as the machine does it. Two sums can
wrap, `len + kCheapPrepend` and `writerIndex_ + len`; then the buffer slides
where it has to grow, or is cut off below `writerIndex_`. Neither happens as
long as the second sum is a `size_t`.
-/

namespace MuduoCore

open ForwardCopy

/-- How a call ends: `vector::resize` may throw `length_error`. -/
inductive Completion
  | returned
  | threw
  deriving DecidableEq, Repr

namespace Buffer

/-- The value of a sum of `size_t`. -/
def sizeT (n : ℕ) : ℕ := n % 2 ^ 64

def maxSize : ℕ := 2 ^ 63 - 1

def makeSpaceT (b : Buffer) (len : ℕ) : Option (Buffer × Completion) :=
  if sizeT (b.writableBytes + b.prependableBytes) < sizeT (len + kCheapPrepend) then
    let n := sizeT (b.writerIndex_ + len)
    if maxSize < n then some (b, .threw)
    else some ({ b with buffer_ := resize b.buffer_ n }, .returned)
  else
    (copyWithin b.buffer_ b.readerIndex_ kCheapPrepend b.readableBytes).map fun cells =>
      ({ buffer_ := cells
         readerIndex_ := kCheapPrepend
         writerIndex_ := sizeT (kCheapPrepend + b.readableBytes) }, .returned)

def ensureWritableBytesT (b : Buffer) (len : ℕ) : Option (Buffer × Completion) :=
  if b.writableBytes < len then b.makeSpaceT len else some (b, .returned)

/-- The call throws and changes nothing, or it returns with the room asked for
and the data as it was. -/
def EnsuresRoom (b : Buffer) (len : ℕ) : Prop :=
  b.ensureWritableBytesT len = some (b, .threw) ∨
    ∃ b', b.ensureWritableBytesT len = some (b', .returned) ∧ len ≤ b'.writableBytes ∧ b'.Inv ∧
      b'.readable = b.readable

variable {b : Buffer} {len : ℕ}

theorem sizeT_of_lt {n : ℕ} (h : n < 2 ^ 64) : sizeT n = n := Nat.mod_eq_of_lt h

theorem sizeT_of_wraps {n : ℕ} (h : 2 ^ 64 ≤ n) (hn : n < 2 ^ 64 + 2 ^ 64) :
    sizeT n = n - 2 ^ 64 := by
  rw [sizeT, Nat.mod_eq_sub_mod h, Nat.mod_eq_of_lt (by omega)]

theorem Inv.sizeT_free (h : b.Inv) (hsize : b.buffer_.length ≤ maxSize) :
    sizeT (b.writableBytes + b.prependableBytes) = b.writableBytes + b.prependableBytes := by
  have ho := h.ordered
  have hb := h.bounded
  apply sizeT_of_lt
  simp only [writableBytes, prependableBytes, maxSize] at *
  omega

theorem Inv.sizeT_data (h : b.Inv) (hsize : b.buffer_.length ≤ maxSize) :
    sizeT (kCheapPrepend + b.readableBytes) = kCheapPrepend + b.readableBytes := by
  have hp := h.prepend
  have ho := h.ordered
  have hb := h.bounded
  apply sizeT_of_lt
  simp only [readableBytes, maxSize] at *
  omega

/-- Where nothing wraps, growing may throw; otherwise the call does what it
does with unbounded numbers. -/
theorem Inv.ensuresRoom (h : b.Inv) (hsize : b.buffer_.length ≤ maxSize)
    (hlen : b.writerIndex_ + len < 2 ^ 64) : b.EnsuresRoom len := by
  have hp := h.prepend
  have ho := h.ordered
  have hwrap : sizeT (len + kCheapPrepend) = len + kCheapPrepend := sizeT_of_lt (by omega)
  unfold EnsuresRoom ensureWritableBytesT
  by_cases hroom : b.writableBytes < len
  · rw [if_pos hroom, makeSpaceT, h.sizeT_free hsize, hwrap, h.sizeT_data hsize, sizeT_of_lt hlen]
    by_cases hg : b.writableBytes + b.prependableBytes < len + kCheapPrepend
    · have hgrow : b.MustGrow len := hg
      obtain ⟨b', hb', hinv, hread, hspace⟩ := h.makeSpace_grow hgrow
      rw [makeSpace, if_pos hgrow] at hb'
      rw [if_pos hg]
      by_cases hmax : maxSize < b.writerIndex_ + len
      · exact Or.inl (if_pos hmax)
      · refine Or.inr ⟨b', ?_, hspace, hinv, hread⟩
        rw [if_neg hmax, ← Option.some.inj hb']
    · have hslide : ¬ b.MustGrow len := hg
      obtain ⟨b', hb', hinv, hread, hspace⟩ := h.makeSpace_slide hroom hslide
      rw [makeSpace, if_neg hslide] at hb'
      rw [if_neg hg]
      refine Or.inr ⟨b', ?_, hspace, hinv, hread⟩
      obtain ⟨cells, hcells, rfl⟩ := Option.map_eq_some_iff.mp hb'
      rw [hcells, Option.map_some]
  · rw [if_neg hroom]
    exact Or.inr ⟨b, rfl, not_lt.mp hroom, h, rfl⟩

/-- Where `writerIndex_ + len` wraps and `len + kCheapPrepend` does not, the
vector is cut off inside the data. -/
theorem Inv.truncated (h : b.Inv) (hsize : b.buffer_.length ≤ maxSize) (hlen : len < 2 ^ 64)
    (hwraps : 2 ^ 64 ≤ b.writerIndex_ + len) (hprepend : len + kCheapPrepend < 2 ^ 64) :
    ∃ b', b.ensureWritableBytesT len = some (b', .returned) ∧ ¬ b'.Inv := by
  have ho := h.ordered
  have hb := h.bounded
  have hmax : b.writerIndex_ ≤ maxSize := hb.trans hsize
  have hroom : b.writableBytes < len := by
    simp only [writableBytes, maxSize] at *
    omega
  have hgrow : b.writableBytes + b.prependableBytes < len + kCheapPrepend := by
    simp only [writableBytes, prependableBytes, maxSize] at *
    omega
  have hn : sizeT (b.writerIndex_ + len) = b.writerIndex_ + len - 2 ^ 64 :=
    sizeT_of_wraps hwraps (by simp only [maxSize] at *; omega)
  refine ⟨{ b with buffer_ := resize b.buffer_ (b.writerIndex_ + len - 2 ^ 64) }, ?_, ?_⟩
  · rw [ensureWritableBytesT, if_pos hroom, makeSpaceT, h.sizeT_free hsize, sizeT_of_lt hprepend,
      if_pos hgrow, hn, if_neg (by simp only [maxSize] at *; omega)]
  · intro hinv
    have hcut : b.writerIndex_ ≤ (resize b.buffer_ (b.writerIndex_ + len - 2 ^ 64)).length :=
      hinv.bounded
    rw [length_resize] at hcut
    omega

/-- Where `len + kCheapPrepend` wraps, the buffer slides instead of growing. -/
theorem Inv.slides_short (h : b.Inv) (hsize : b.buffer_.length ≤ maxSize) (hlen : len < 2 ^ 64)
    (hprepend : 2 ^ 64 ≤ len + kCheapPrepend) :
    ∃ b', b.ensureWritableBytesT len = some (b', .returned) ∧ b'.writableBytes < len := by
  have hp := h.prepend
  have ho := h.ordered
  have hb := h.bounded
  have hroom : b.writableBytes < len := by
    simp only [writableBytes, maxSize, kCheapPrepend] at *
    omega
  have hn : sizeT (len + kCheapPrepend) = len + kCheapPrepend - 2 ^ 64 :=
    sizeT_of_wraps hprepend (by simp only [kCheapPrepend]; omega)
  have hslide : ¬ b.writableBytes + b.prependableBytes < len + kCheapPrepend - 2 ^ 64 := by
    simp only [prependableBytes]
    omega
  have hsrc : b.readerIndex_ + b.readableBytes ≤ b.buffer_.length := by
    rw [readableBytes]
    omega
  have hcopy := copyWithin_eq hp hsrc
  refine ⟨_, by rw [ensureWritableBytesT, if_pos hroom, makeSpaceT, h.sizeT_free hsize, hn,
    if_neg hslide, hcopy, Option.map_some], ?_⟩
  have hcells := length_copyWithin hcopy
  simp only [writableBytes, hcells]
  simp only [maxSize, kCheapPrepend] at *
  omega

/-- `ensureWritableBytes` does its work exactly if `writerIndex_ + len` is a
`size_t`. -/
theorem ensuresRoom_iff (h : b.Inv) (hsize : b.buffer_.length ≤ maxSize) (hlen : len < 2 ^ 64) :
    b.EnsuresRoom len ↔ b.writerIndex_ + len < 2 ^ 64 := by
  refine ⟨?_, h.ensuresRoom hsize⟩
  intro hensures
  by_contra hwraps
  have hwraps' := not_lt.mp hwraps
  by_cases hprepend : len + kCheapPrepend < 2 ^ 64
  · obtain ⟨b', hb', hinv⟩ := h.truncated hsize hlen hwraps' hprepend
    rcases hensures with ht | ⟨c, hc, -, hcinv, -⟩
    · rw [hb'] at ht
      cases ht
    · rw [hb'] at hc
      cases hc
      exact hinv hcinv
  · obtain ⟨b', hb', hshort⟩ := h.slides_short hsize hlen (not_lt.mp hprepend)
    rcases hensures with ht | ⟨c, hc, hroom, -⟩
    · rw [hb'] at ht
      cases ht
    · rw [hb'] at hc
      cases hc
      exact absurd hroom (not_le.mpr hshort)

/-- A buffer of two that holds three bytes grows by five. -/
theorem ensuresRoom_iff_grows :
    (⟨[0, 0, 0, 0, 0, 0, 0, 0, 1, 2, 3], 8, 11⟩ : Buffer).EnsuresRoom 5 ↔ 11 + 5 < 2 ^ 64 :=
  ensuresRoom_iff (by decide) (by decide) (by decide)

/-- A length near `2^64` slides the buffer without making room, or cuts its
data off. -/
theorem huge_length_not_ensured :
    (⟨[0, 0, 0, 0, 0, 0, 0, 0, 1, 2, 3], 8, 11⟩ : Buffer).ensureWritableBytesT (2 ^ 64 - 1) =
      some (⟨[0, 0, 0, 0, 0, 0, 0, 0, 1, 2, 3], 8, 11⟩, .returned) ∧
    (⟨[0, 0, 0, 0, 0, 0, 0, 0, 1, 2, 3], 8, 11⟩ : Buffer).ensureWritableBytesT (2 ^ 64 - 10) =
      some (⟨[0], 8, 11⟩, .returned) ∧
    ¬ (⟨[0, 0, 0, 0, 0, 0, 0, 0, 1, 2, 3], 8, 11⟩ : Buffer).EnsuresRoom (2 ^ 64 - 1) := by
  have hslides : (⟨[0, 0, 0, 0, 0, 0, 0, 0, 1, 2, 3], 8, 11⟩ : Buffer).ensureWritableBytesT
      (2 ^ 64 - 1) = some (⟨[0, 0, 0, 0, 0, 0, 0, 0, 1, 2, 3], 8, 11⟩, .returned) := by decide
  refine ⟨hslides, by decide, ?_⟩
  rintro (hthrows | ⟨b', hb', hroom, -⟩)
  · rw [hslides] at hthrows
    cases hthrows
  · rw [hslides] at hb'
    cases hb'
    exact absurd hroom (by decide)

end Buffer
end MuduoCore
