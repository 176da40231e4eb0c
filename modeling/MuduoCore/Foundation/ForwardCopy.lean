import Mathlib.Tactic.Common

/-!
# Forward copying inside bounded memory

Both copies move one cell at a time, lowest address first, and return `none`
as soon as a cell outside the memory would be read or written. Inside the
bounds they are list splices. The overlapping copy needs its destination not
above its source: only then is no source cell overwritten before it is read.
-/

namespace ForwardCopy

variable {α : Type*}

/-- Copy `n` cells of `mem` from `src` to `dst`, in increasing order. -/
def copyWithin : List α → ℕ → ℕ → ℕ → Option (List α)
  | mem, _, _, 0 => some mem
  | mem, src, dst, n + 1 =>
    match mem[src]? with
    | none => none
    | some a =>
      if dst < mem.length then copyWithin (mem.set dst a) (src + 1) (dst + 1) n else none

/-- Copy foreign cells into `mem` from `dst` on, in increasing order. -/
def copyInto : List α → ℕ → List α → Option (List α)
  | mem, _, [] => some mem
  | mem, dst, a :: as =>
    if dst < mem.length then copyInto (mem.set dst a) (dst + 1) as else none

theorem length_copyInto {mem cells data : List α} {dst : ℕ}
    (h : copyInto mem dst data = some cells) :
    cells.length = mem.length := by
  induction data generalizing mem dst with
  | nil =>
    cases h
    rfl
  | cons a as ih =>
    unfold copyInto at h
    split_ifs at h
    rw [ih h, List.length_set]

theorem length_copyWithin {mem cells : List α} {src dst n : ℕ}
    (h : copyWithin mem src dst n = some cells) : cells.length = mem.length := by
  induction n generalizing mem src dst with
  | zero =>
    cases h
    rfl
  | succ n ih =>
    unfold copyWithin at h
    split at h
    · cases h
    · split_ifs at h
      rw [ih h, List.length_set]

theorem take_succ_set {mem : List α} {i : ℕ} (hi : i < mem.length) (a : α) :
    (mem.set i a).take (i + 1) = mem.take i ++ [a] := by
  rw [List.take_succ_eq_append_getElem (by simpa only [List.length_set] using hi),
    List.getElem_set_self, List.take_set, List.set_eq_of_length_le]
  simp only [List.length_take]
  omega

theorem copyInto_eq {mem data : List α} {dst : ℕ} (h : dst + data.length ≤ mem.length) :
    copyInto mem dst data = some (mem.take dst ++ data ++ mem.drop (dst + data.length)) := by
  induction data generalizing mem dst with
  | nil => simp [copyInto]
  | cons a as ih =>
    simp only [List.length_cons] at h
    have hd : dst < mem.length := by omega
    have hs : dst + 1 + as.length ≤ (mem.set dst a).length := by simp; omega
    rw [copyInto, if_pos hd, ih hs, take_succ_set hd, List.drop_set_of_lt (by omega)]
    simp [Nat.add_assoc, Nat.add_comm 1]

/-- Inside the bounds, and with the destination not above the source, the
target range receives the source range as it was before the copy. -/
theorem copyWithin_eq {mem : List α} {src dst n : ℕ} (hle : dst ≤ src)
    (h : src + n ≤ mem.length) :
    copyWithin mem src dst n =
      some (mem.take dst ++ (mem.drop src).take n ++ mem.drop (dst + n)) := by
  induction n generalizing mem src dst with
  | zero => simp [copyWithin]
  | succ n ih =>
    have hsrc : src < mem.length := by omega
    have hdst : dst < mem.length := by omega
    have hs : src + 1 + n ≤ (mem.set dst mem[src]).length := by simp; omega
    have hd : (mem.set dst mem[src]).drop (src + 1) = mem.drop (src + 1) :=
      List.drop_set_of_lt (by omega)
    rw [copyWithin, List.getElem?_eq_getElem hsrc]
    simp only [hdst, ↓reduceIte]
    rw [ih (by omega) hs, take_succ_set hdst, hd, List.drop_set_of_lt (by omega),
      List.drop_eq_getElem_cons hsrc, List.take_succ_cons]
    simp [Nat.add_assoc, Nat.add_comm 1]

theorem mapM_range'_eq {mem : List α} {src : ℕ} (hsrc : src ≤ mem.length) (n : ℕ) :
    ((List.range' src n).mapM fun i => mem[i]?) =
      if src + n ≤ mem.length then some ((mem.drop src).take n) else none := by
  induction n generalizing src with
  | zero => simp [hsrc]
  | succ n ih =>
    rw [List.range'_succ, List.mapM_cons]
    by_cases hlt : src < mem.length
    · rw [List.getElem?_eq_getElem hlt, ih hlt, List.drop_eq_getElem_cons hlt, List.take_succ_cons]
      have hbound : src + 1 + n = src + (n + 1) := by omega
      rw [hbound]
      split_ifs <;> rfl
    · rw [List.getElem?_eq_none (Nat.not_lt.mp hlt), if_neg (by omega)]
      rfl

end ForwardCopy
