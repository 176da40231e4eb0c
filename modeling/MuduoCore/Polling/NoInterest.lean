import MuduoCore.Polling.Registration

/-!
# Channels without interest

`updateChannel` looks at `events_` only where the mark is `kAdded`. A channel
that loses its last interest there leaves the interest set; one that is told
to have no interest while it is not registered enters it, with an empty mask,
for which the kernel still reports `EPOLLERR` and `EPOLLHUP`.
-/

namespace MuduoCore.LoopChannels

variable {P : Type*} {fd : P → ℤ}

/-- A channel without interest has no registration. -/
def Unpolled (fd : P → ℤ) (s : LoopChannels P) : Prop :=
  ∀ ptr, (s.channel ptr).isNoneEvent = true → s.poller.interest (fd ptr) = none

/-- A call that leaves the channel without interest finds it registered. -/
def FindsRegistered (s : LoopChannels P) (ptr : P) : ChannelCall → Prop
  | .change c =>
    ((s.channel ptr).setInterest c).isNoneEvent = true → (s.channel ptr).index_ = .kAdded
  | .remove => True

theorem Inv.unpolled_iff {s : LoopChannels P} (h : Inv fd s) :
    Unpolled fd s ↔
      ∀ ptr, (s.channel ptr).isNoneEvent = true → (s.channel ptr).index_ ≠ .kAdded := by
  refine forall_congr' fun ptr => imp_congr_right fun _ => ?_
  have hag := h.agrees ptr
  simp only [EPollPoller.Agrees, h.fd_eq] at hag
  cases hi : (s.channel ptr).index_ <;> simp only [hi] at hag
  · simp [hag.2]
  · simp [hag.2]
  · simp [hag.2.1]

theorem unpolled_create (fd : P → ℤ) : Unpolled fd (create fd) := fun _ _ => rfl

variable [DecidableEq P] {s s' : LoopChannels P} {ptr : P} {c : ChannelCall}

@[simp] theorem store_channel_self (s : LoopChannels P) (ptr : P)
    (r : EPollPoller P × Channel × Bool) : (s.store ptr r).channel ptr = r.2.1 :=
  Function.update_self _ _ _

theorem call_channel_of_ne (hcall : s.call ptr c = some s') {other : P} (hne : other ≠ ptr) :
    s'.channel other = s.channel other := by
  cases c with
  | change c | remove =>
    simp only [call, Option.map_eq_some_iff] at hcall
    obtain ⟨r, _, rfl⟩ := hcall
    simp [LoopChannels.store, Function.update_of_ne hne]

theorem Inv.channel_of_change (h : Inv fd s) {c : InterestChange}
    (hcall : s.call ptr (.change c) = some s') :
    (s'.channel ptr).isNoneEvent = ((s.channel ptr).setInterest c).isNoneEvent ∧
      ((s'.channel ptr).index_ = .kAdded ↔
        ¬ ((s.channel ptr).index_ = .kAdded ∧
          ((s.channel ptr).setInterest c).isNoneEvent = true)) := by
  obtain ⟨p', channel', hu⟩ := ((h.agrees ptr).tracks.setInterest c).updateChannel
  have hindex := EPollPoller.updateChannel_index hu.run
  have hs : s' = s.store ptr (p', channel', false) := by
    simpa [LoopChannels.call, hu.run] using hcall.symm
  have hch : s'.channel ptr = channel' := by rw [hs, store_channel_self]
  rw [hch]
  refine ⟨by rw [Channel.isNoneEvent, Channel.isNoneEvent, hu.events], ?_⟩
  rw [hindex, Channel.setInterest_index]
  split_ifs with hd <;> simp [hd]

theorem Inv.index_of_remove (h : Inv fd s) (hcall : s.call ptr .remove = some s') :
    (s'.channel ptr).index_ = .kNew := by
  obtain ⟨p', hrun, _, _⟩ := (h.agrees ptr).tracks.removeChannel
  have hs : s' = s.store ptr (p', { s.channel ptr with index_ := .kNew }, false) := by
    simpa [LoopChannels.call, hrun] using hcall.symm
  rw [hs, store_channel_self]

/-- What one call does to a loop none of whose idle channels is registered. -/
theorem Inv.unpolled_call_iff (h : Inv fd s) (h' : Inv fd s') (hun : Unpolled fd s)
    (hcall : s.call ptr c = some s') : Unpolled fd s' ↔ s.FindsRegistered ptr c := by
  rw [h.unpolled_iff] at hun
  rw [h'.unpolled_iff]
  have hothers : ∀ other ≠ ptr, (s'.channel other).isNoneEvent = true →
      (s'.channel other).index_ ≠ .kAdded := by
    intro other hne
    rw [call_channel_of_ne hcall hne]
    exact hun other
  have hsingle : (∀ other, (s'.channel other).isNoneEvent = true →
      (s'.channel other).index_ ≠ .kAdded) ↔
      ((s'.channel ptr).isNoneEvent = true → (s'.channel ptr).index_ ≠ .kAdded) := by
    constructor
    · intro hall
      exact hall ptr
    · intro hptr other
      by_cases he : other = ptr
      · rwa [he]
      · exact hothers other he
  rw [hsingle]
  cases c with
  | change c =>
    obtain ⟨hnone, hindex⟩ := h.channel_of_change hcall
    rw [hnone, Ne, hindex, not_not]
    unfold FindsRegistered
    constructor
    · intro hif hn
      exact (hif hn).1
    · intro hif hn
      exact ⟨hif hn, hn⟩
  | remove =>
    simp [FindsRegistered, h.index_of_remove hcall]

theorem run_append (s : LoopChannels P) (pre rest : List (P × ChannelCall)) :
    s.run (pre ++ rest) = (s.run pre).bind fun s => s.run rest := by
  induction pre generalizing s with
  | nil => rfl
  | cons c cs ih =>
    simp only [List.cons_append, run, ih, Option.bind_assoc]

theorem run_concat_eq_some {pre : List (P × ChannelCall)} {s' : LoopChannels P} :
    s.run (pre ++ [(ptr, c)]) = some s' ↔ ∃ t, s.run pre = some t ∧ t.call ptr c = some s' := by
  simp [run_append, run, Option.bind_eq_some_iff]

/-- In a run every call of which finds its channel registered, or leaves it with
some interest, no channel without interest is ever registered; and in no other. -/
theorem unpolled_throughout_iff (fd : P → ℤ) (hfd : Function.Injective fd)
    (calls : List (P × ChannelCall)) :
    (∀ pre s, pre <+: calls → (create fd).run pre = some s → Unpolled fd s) ↔
      ∀ pre ptr c s, pre ++ [(ptr, c)] <+: calls → (create fd).run pre = some s →
        s.FindsRegistered ptr c := by
  have hinv : ∀ {pre s}, (create fd).run pre = some s → Inv fd s := by
    intro pre s hrun
    obtain ⟨t, ht, hinv⟩ := (inv_create fd).run hfd pre
    rw [hrun, Option.some.injEq] at ht
    rwa [ht]
  constructor
  · intro hun pre ptr c s hpre hrun
    obtain ⟨s', hcall, hinv'⟩ := (hinv hrun).call hfd ptr c
    have hrun' := run_concat_eq_some.mpr ⟨s, hrun, hcall⟩
    have hbefore : Unpolled fd s := hun pre s ((List.prefix_append pre _).trans hpre) hrun
    exact ((hinv hrun).unpolled_call_iff hinv' hbefore hcall).mp (hun _ s' hpre hrun')
  · intro hfinds pre
    induction pre using List.reverseRecOn with
    | nil =>
      intro s _ hrun
      rw [run, Option.some.injEq] at hrun
      exact hrun ▸ unpolled_create fd
    | append_singleton pre call ih =>
      obtain ⟨ptr, c⟩ := call
      intro s' hpre hrun
      obtain ⟨s, hs, hcall⟩ := run_concat_eq_some.mp hrun
      have hbefore : Unpolled fd s := ih s ((List.prefix_append pre _).trans hpre) hs
      exact ((hinv hs).unpolled_call_iff (hinv hrun) hbefore hcall).mpr
        (hfinds pre ptr c s hpre hs)

/-- A channel enabled, disabled and removed is not polled while it is idle. -/
theorem unpolled_throughout_iff_removed :
    ∃ s, (create fun n : ℕ => (n : ℤ)).run [(5, .change .enableReading),
      (5, .change .disableAll), (5, .remove)] = some s ∧ Unpolled (fun n : ℕ => (n : ℤ)) s := by
  obtain ⟨s, hrun, _⟩ := (inv_create fun n : ℕ => (n : ℤ)).run Int.ofNat_injective
    [(5, .change .enableReading), (5, .change .disableAll), (5, .remove)]
  refine ⟨s, hrun, (unpolled_throughout_iff _ Int.ofNat_injective _).mpr ?_ _ s
    List.prefix_rfl hrun⟩
  intro pre ptr c s hpre hrun
  have hmem := (List.mem_inits _ _).mpr hpre
  rcases pre with _ | ⟨x, _ | ⟨y, _ | ⟨z, pre⟩⟩⟩ <;> simp at hmem
  · obtain ⟨rfl, rfl⟩ := hmem
    cases hrun
    exact fun hnone => absurd hnone (by decide)
  · obtain ⟨rfl, rfl, rfl⟩ := hmem
    cases hrun
    exact fun _ => rfl
  · obtain ⟨_, _, _, rfl⟩ := hmem
    exact trivial

/-- A channel disabled twice is registered again, with an empty mask. -/
theorem disabled_twice_polled :
    ∃ s, (create fun n : ℕ => (n : ℤ)).run [(5, .change .enableReading),
        (5, .change .disableAll), (5, .change .disableAll)] = some s ∧
      (s.channel 5).isNoneEvent = true ∧
      s.poller.interest 5 = some ⟨Channel.kNoneEvent, 5⟩ :=
  ⟨_, rfl, rfl, rfl⟩

end MuduoCore.LoopChannels
