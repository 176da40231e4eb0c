import Mathlib.Data.Int.CardIntervalMod
import Mathlib.Data.List.GetD

/-!
# Taking turns

The entries of a list are taken in order, over and over again. Turn `k` belongs
to the entry at `k` modulo the length. Of the first `n` turns every entry of a
list without duplicates gets the same number, up to one.
-/

namespace TakingTurns

variable {α : Type*}

/-- Who has turn `k`; without entries all turns are taken by `d`. -/
def turn (queue : List α) (d : α) (k : ℕ) : α := queue.getD (k % queue.length) d

@[simp] theorem turn_nil (d : α) (k : ℕ) : turn [] d k = d := rfl

theorem turn_eq_getElem {queue : List α} (d : α) {k i : ℕ} (hi : i < queue.length)
    (h : k % queue.length = i) : turn queue d k = queue[i] := by
  rw [turn, h, List.getD_eq_getElem _ _ hi]

theorem turn_eq_iff {queue : List α} (hnodup : queue.Nodup) (d : α) {k i : ℕ}
    (hi : i < queue.length) : turn queue d k = queue[i] ↔ k ≡ i [MOD queue.length] := by
  have hlt : k % queue.length < queue.length := Nat.mod_lt _ (by omega)
  rw [turn_eq_getElem d hlt rfl, hnodup.getElem_inj_iff, Nat.ModEq, Nat.mod_eq_of_lt hi]

variable [DecidableEq α]

/-- How many of the first `n` turns the entry has. -/
def turns (queue : List α) (d a : α) (n : ℕ) : ℕ := Nat.count (fun k => turn queue d k = a) n

/-- The turns left over after the last full round go to the entries in front. -/
theorem turns_eq {queue : List α} (hnodup : queue.Nodup) (d : α) {i : ℕ} (hi : i < queue.length)
    (n : ℕ) : turns queue d queue[i] n =
      n / queue.length + if i < n % queue.length then 1 else 0 := by
  have hcount := Nat.count_modEq_card n (show 0 < queue.length by omega) i
  rw [Nat.mod_eq_of_lt hi] at hcount
  rw [turns, ← hcount]
  simp only [turn_eq_iff hnodup d hi]

theorem turns_le_succ {queue : List α} (hnodup : queue.Nodup) (d : α) {a b : α} (ha : a ∈ queue)
    (hb : b ∈ queue) (n : ℕ) : turns queue d a n ≤ turns queue d b n + 1 := by
  obtain ⟨i, hi, rfl⟩ := List.getElem_of_mem ha
  obtain ⟨j, hj, rfl⟩ := List.getElem_of_mem hb
  rw [turns_eq hnodup d hi, turns_eq hnodup d hj]
  split_ifs <;> omega

end TakingTurns
