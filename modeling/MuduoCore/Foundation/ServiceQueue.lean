import Mathlib.Data.List.Rotate
import Mathlib.Data.Nat.Log
import Mathlib.Tactic

/-!
# A queue that is served from the front

The entries in front are served and go to the back, so that those that still
wait come next. Between two rounds of service entries may leave from anywhere,
and new ones join at the back. An entry that is passed over moves forward by
the size of the round, and where every round that passes it over doubles the
size of the next, it is served after logarithmically many.
-/

namespace ServiceQueue

variable {α : Type*}

/-- The queue after its first `n` entries, or all of them, have been served. -/
def serve (queue : List α) (n : ℕ) : List α := queue.rotate (min n queue.length)

theorem serve_eq (queue : List α) (n : ℕ) : serve queue n = queue.drop n ++ queue.take n := by
  rw [serve, List.rotate_eq_drop_append_take (Nat.min_le_right ..)]
  rcases Nat.le_total n queue.length with hle | hle
  · rw [Nat.min_eq_left hle]
  · rw [Nat.min_eq_right hle, List.drop_of_length_le hle, List.take_of_length_le hle,
      List.drop_length, List.take_length]

@[simp] theorem mem_serve {queue : List α} {n : ℕ} {a : α} : a ∈ serve queue n ↔ a ∈ queue :=
  List.mem_rotate

@[simp] theorem nodup_serve {queue : List α} {n : ℕ} : (serve queue n).Nodup ↔ queue.Nodup :=
  List.nodup_rotate

variable [DecidableEq α]

theorem idxOf_le_of_sublist {queue left : List α} (hsub : left.Sublist queue)
    (hnodup : queue.Nodup) {a : α} (ha : a ∈ left) : left.idxOf a ≤ queue.idxOf a := by
  induction hsub with
  | slnil => simp at ha
  | @cons left queue b hsub ih =>
    have hb : b ≠ a := by
      rintro rfl
      exact (List.nodup_cons.mp hnodup).1 (hsub.subset ha)
    rw [List.idxOf_cons_ne _ hb]
    have hle := ih (List.nodup_cons.mp hnodup).2 ha
    omega
  | @cons_cons left queue b hsub ih =>
    by_cases hb : b = a
    · simp [hb]
    · rw [List.idxOf_cons_ne _ hb, List.idxOf_cons_ne _ hb]
      have hmem : a ∈ left := (List.mem_cons.mp ha).resolve_left (Ne.symm hb)
      have hle := ih (List.nodup_cons.mp hnodup).2 hmem
      omega

/-- An entry that is not served stands behind all that are, and moves forward
by their number. -/
theorem idxOf_serve {queue : List α} {n : ℕ} {a : α} (ha : a ∈ queue) (hn : a ∉ queue.take n) :
    n < queue.length ∧ (serve queue n).idxOf a + n = queue.idxOf a := by
  have hlen : n < queue.length := by
    by_contra hle
    exact hn (by rwa [List.take_of_length_le (by omega)])
  have hdrop : a ∈ queue.drop n := by
    rw [← List.take_append_drop n queue] at ha
    exact (List.mem_append.mp ha).resolve_left hn
  have hsplit : queue.idxOf a = (queue.take n).length + (queue.drop n).idxOf a := by
    calc queue.idxOf a = (queue.take n ++ queue.drop n).idxOf a := by rw [List.take_append_drop]
      _ = _ := List.idxOf_append_of_notMem hn
  rw [List.length_take, Nat.min_eq_left hlen.le] at hsplit
  rw [serve_eq, List.idxOf_append_of_mem hdrop]
  exact ⟨hlen, by omega⟩

/-- The places that rounds of doubling size clear, the first of them `size`. -/
def cleared (size rounds : ℕ) : ℕ := size * (2 ^ rounds - 1)

theorem cleared_succ (size rounds : ℕ) :
    cleared size (rounds + 1) = cleared size rounds + size * 2 ^ rounds := by
  have hpos : 0 < 2 ^ rounds := Nat.two_pow_pos rounds
  have hsum : 2 ^ (rounds + 1) - 1 = 2 ^ rounds - 1 + 2 ^ rounds := by
    rw [Nat.pow_succ]
    omega
  rw [cleared, cleared, hsum, Nat.mul_add]

/-- So few rounds can pass over one place. -/
theorem rounds_le_log {size rounds place : ℕ} (hsize : 0 < size)
    (h : cleared size rounds ≤ place) : rounds ≤ Nat.log 2 (place / size + 1) := by
  have hdiv : 2 ^ rounds - 1 ≤ place / size := by
    rw [Nat.le_div_iff_mul_le hsize, Nat.mul_comm]
    exact h
  exact Nat.le_log_of_pow_le (by omega) (by omega)

end ServiceQueue
