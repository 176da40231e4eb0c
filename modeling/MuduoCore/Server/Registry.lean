import MuduoCore.Server.ServerRun

/-!
# The registry of connections

`connections_` holds the owning references. It maps exactly the names of the
accepted connections for which `removeConnectionInLoop` has not run, each to
its own connection, as long as the server is not destroyed. Since names differ,
no entry is overwritten, and none is erased for another connection. There is no
bound on the runs but that of the `int` that counts the connections: where it
would overflow, no connection is accepted.
-/

namespace MuduoCore
namespace ServerRun

variable {T : Type*} [DecidableEq T] {main : T} {s s' : ServerRun T}

def NotDestroyed (_ : ServerRun T) : ServerLabel T → Prop
  | .call _ .destroy => False
  | _ => True

instance (s : ServerRun T) : (l : ServerLabel T) → Decidable (NotDestroyed s l)
  | .call _ .destroy => isFalse id
  | .call _ .start | .call _ (.connection _ _) | .exec _ _ | .startLoop _ _ | .destroyNext _
  | .control _ _ | .poll _ _ _ _ | .handleEvent _ | .acceptEvent | .store _ _ _ | .copy _ _
  | .drop _ _ => isTrue trivial

def Removes (s : ServerRun T) (l : ServerLabel T) (k : ℕ) : Prop :=
  ∃ t o head rest, l = .exec t o ∧ s.stack t = head :: rest ∧
    head.ofConnection = some (k, .call .removeConnectionInLoop)

/-- `connections_` maps the names of the connections not yet removed. -/
def RegistryExact (s : ServerRun T) : Prop :=
  ∀ n k, s.connections_.lookup n = some k ↔
    s.Accepted k ∧ n = s.connName k ∧ (s.connection k).removed = false

/-- No thread is in the loop of the destructor. -/
def Undestroyed (s : ServerRun T) : Prop := ∀ t, .destroyConnections ∉ s.work t

theorem undestroyed_step {l : ServerLabel T} (h : Undestroyed s) (hgood : NotDestroyed s l)
    (hs : Steps main s l s') : Undestroyed s' := by
  have hall : ∀ t, ∀ i ∈ s.work t, i ≠ .destroyConnections := by
    rintro t i hi rfl
    exact h t hi
  have hkept : ∀ t, ∀ i ∈ s'.work t, i ≠ .destroyConnections := by
    apply hs.forall_work (P := fun _ i => i ≠ .destroyConnections) hall
    · intro t o head k i c new _ _ _ j _
      cases j <;> simp [Instr.tag]
    · intro t o i rest r new _ hr _ j hj
      rcases run_cases hr with ⟨sockfd, -, hnew⟩ | ⟨hnone, -, -⟩
      · obtain ⟨-, rfl, -⟩ := newConnection_eq hnew
        simp only [List.mem_cons, List.not_mem_nil, or_false] at hj
        rcases hj with rfl | rfl <;> simp
      · exact (hnone j hj).2
    · simp
    · simp
    · simp
    · simp
    · simp
    · simp
    · intro t c r new hl hc i hi
      subst hl
      cases codes_of_code hc with
      | connection k c hk hcallbacks =>
        obtain ⟨i', _, rfl⟩ := List.mem_map.mp hi
        cases i' <;> simp [Instr.tag]
      | queueInLoop | start =>
        rw [List.mem_singleton.mp hi]
        simp
      | destroy => exact hgood.elim
  intro t hi
  exact hkept t _ hi rfl

theorem undestroyed_of_reachable (h : (system main).Reachable NotDestroyed s) :
    Undestroyed s := by
  apply h.invariant
  · intro s hinit t hi
    rw [work, hinit.stack t, List.nil_append] at hi
    obtain ⟨f, _, hf⟩ := List.mem_map.mp hi
    cases hf
  · intro s l s' hi hgood hs
    exact undestroyed_step hi hgood (steps_of_step hs.2)

/-! ## What a step does to the registry -/

omit [DecidableEq T] in
theorem RegistryExact.of_same (h : RegistryExact s)
    (hconnections : s'.connections_ = s.connections_) (hoptions : s'.options = s.options)
    (hid : s'.nextConnId_ = s.nextConnId_)
    (hremoved : ∀ k, (s'.connection k).removed = (s.connection k).removed) :
    RegistryExact s' := by
  intro n k
  rw [hconnections, h n k, hremoved, Accepted, Accepted, connName, connName, hoptions, hid]

omit [DecidableEq T] in
theorem update_removed (k : ℕ) (c : ServedConnection T)
    (h : c.removed = (s.connection k).removed) (j : ℕ) :
    (Function.update s.connection k c j).removed = (s.connection j).removed := by
  by_cases hj : j = k
  · subst hj
    rw [Function.update_self, h]
  · rw [Function.update_of_ne hj]

omit [DecidableEq T] in
theorem RegistryExact.lookup_next (h : RegistryExact s) (hnum : Numbered s) :
    s.connections_.lookup (s.connName s.nextConnId_) = none := by
  by_contra hsome
  obtain ⟨k, hk⟩ := Option.ne_none_iff_exists'.mp hsome
  obtain ⟨hacc, hname, -⟩ := (h _ k).mp hk
  have heq := hnum.connName_injective le_rfl hacc.2.le hname
  exact absurd heq hacc.2.ne'

theorem registryExact_remove {k : ℕ} {c : Shared T} (h : RegistryExact s) (hnum : Numbered s)
    (hk : s.Accepted k) : RegistryExact (s.setConnection k (.call .removeConnectionInLoop) c) := by
  intro n j
  have hsame : (s.setConnection k (.call .removeConnectionInLoop) c).Accepted j ↔ s.Accepted j :=
    Iff.rfl
  have hname : (s.setConnection k (.call .removeConnectionInLoop) c).connName j = s.connName j :=
    rfl
  rw [hsame, hname]
  by_cases hn : n = s.connName k
  · subst hn
    have hnone : (s.setConnection k (.call .removeConnectionInLoop) c).connections_.lookup
        (s.connName k) = none := by simp [setConnection]
    rw [hnone]
    constructor
    · intro hcontra
      cases hcontra
    · rintro ⟨hj, heq, hremoved⟩
      obtain rfl := hnum.connName_injective hk.2.le hj.2.le heq
      simp [setConnection] at hremoved
  · have hlookup : (s.setConnection k (.call .removeConnectionInLoop) c).connections_.lookup n =
        s.connections_.lookup n := by simp [setConnection, AList.lookup_erase_ne hn]
    rw [hlookup, h n j]
    by_cases hj : j = k
    · subst hj
      simp [hn]
    · simp [setConnection, Function.update_of_ne hj]

omit [DecidableEq T] in
theorem registryExact_accept {sockfd : ℤ} {r : ServerRun T} {new : List (ServerInstr T)}
    (h : RegistryExact s) (hnum : Numbered s) (hr : s.newConnection sockfd = some (r, new)) :
    RegistryExact r := by
  obtain ⟨-, -, rfl⟩ := newConnection_eq hr
  intro n k
  by_cases hk : k = s.nextConnId_
  · subst hk
    have hacc : Accepted (T := T) { s with nextConnId_ := s.nextConnId_ + 1 } s.nextConnId_ :=
      ⟨hnum.pos, Nat.lt_succ_self _⟩
    by_cases hn : n = s.connName s.nextConnId_
    · subst hn
      simp [Function.update_self, connName, ServedConnection.create, hacc.1, Accepted]
    · have hold : s.connections_.lookup n ≠ some s.nextConnId_ := by
        intro hsome
        exact absurd ((h n _).mp hsome).1.2 (lt_irrefl _)
      simp only [AList.lookup_insert_ne hn]
      constructor
      · intro hsome
        exact absurd hsome hold
      · rintro ⟨-, hname, -⟩
        exact absurd hname hn
  · have hacc : Accepted (T := T) { s with nextConnId_ := s.nextConnId_ + 1 } k ↔
        s.Accepted k := by
      simp only [Accepted]
      omega
    by_cases hn : n = s.connName s.nextConnId_
    · subst hn
      simp only [AList.lookup_insert, Function.update_of_ne hk]
      constructor
      · intro hsome
        exact absurd (Option.some.inj hsome).symm hk
      · rintro ⟨hlt, hname, -⟩
        have hle : k ≤ s.nextConnId_ := Nat.lt_succ_iff.mp hlt.2
        exact absurd (hnum.connName_injective le_rfl hle hname).symm hk
    · simp only [AList.lookup_insert_ne hn, Function.update_of_ne hk, h n k]
      exact and_congr_left fun _ => hacc.symm

theorem registryExact_step {l : ServerLabel T} (h : RegistryExact s) (hnum : Numbered s)
    (hund : Undestroyed s) (hs : Steps main s l s') : RegistryExact s' := by
  cases hs with
  | run t o head k i rest c new hs hi hr =>
    have hk : s.Accepted k :=
      hnum.owner t head (List.mem_append_left _ (by simp [hs])) k (owner_of_ofConnection hi)
    by_cases hremove : i = .call .removeConnectionInLoop
    · subst hremove
      exact registryExact_remove h hnum hk
    · refine h.of_same ?_ rfl rfl (update_removed k _ ?_)
      · simp [setStack, setConnection, hremove]
      · simp [hremove]
  | own t o i rest r new hs hr =>
    rcases run_cases hr with ⟨sockfd, -, hnew⟩ | ⟨-, -, hr⟩
    · exact (registryExact_accept h hnum hnew).of_same rfl rfl rfl (fun _ => rfl)
    · rw [hr]
      exact h.of_same rfl rfl rfl (fun _ => rfl)
  | destroyNext k rest hs hk hreg =>
    exact absurd (List.mem_append_left _ (by simp [hs])) (hund main)
  | control t c loop hs hreturned hd ha =>
    refine h.of_same rfl rfl rfl ?_
    intro k
    simp only [afterStep]
    split_ifs <;> rfl
  | poll t wakeup reports accept loop hs hr hacc ha =>
    refine h.of_same rfl rfl rfl ?_
    intro k
    simp only [ServedConnection.report]
    split <;> rfl
  | handleEvent k hk hs ha => exact h.of_same rfl rfl rfl (update_removed k _ rfl)
  | pointers l k n hk hl => exact h.of_same rfl rfl rfl (update_removed k _ rfl)
  | call t c r new hu hc =>
    rw [frame_of_code hc]
    exact h.of_same rfl rfl rfl (fun _ => rfl)
  | _ => exact h.of_same rfl rfl rfl (fun _ => rfl)

theorem registryExact_of_reachable (h : (system main).Reachable NotDestroyed s) :
    RegistryExact s := by
  apply h.invariant_of (J := fun s => Numbered s ∧ Undestroyed s)
    (fun _ hs => ⟨numbered_of_reachable hs, undestroyed_of_reachable hs⟩)
  · intro s hinit n k
    rw [hinit.connections, AList.lookup_empty, Accepted, hinit.nextConnId]
    simp only [reduceCtorEq, false_iff, not_and]
    omega
  · intro s l s' hi hj _ hs
    exact registryExact_step hi hj.1 hj.2 (steps_of_step hs.2)

theorem removed_step {l : ServerLabel T} {k : ℕ} (hs : Steps main s l s') (hk : s.Accepted k)
    (hl : ¬ s.Removes l k) : (s'.connection k).removed = (s.connection k).removed := by
  have hstep := connection_step hs hk
  generalize s'.connection k = c at hstep ⊢
  cases hstep with
  | run t o head i rest c new htop hi hr =>
    have hremove : i ≠ .call .removeConnectionInLoop := by
      rintro rfl
      exact hl ⟨t, o, head, rest, rfl, htop, hi⟩
    simp [setConnection, hremove]
  | _ => rfl

/-- The registry maps the names of the accepted connections that
`removeConnectionInLoop` has not been run for, each to its own connection. Names
are not shared, the next one is free, and a step that does not remove a
connection leaves its entry alone. -/
theorem connections_exact (h : (system main).Reachable NotDestroyed s) :
    (∀ n k, s.connections_.lookup n = some k ↔
      s.Accepted k ∧ n = s.connName k ∧ (s.connection k).removed = false) ∧
    (∀ j k, s.Accepted j → s.Accepted k → s.connName j = s.connName k → j = k) ∧
    s.connections_.lookup (s.connName s.nextConnId_) = none ∧
    ∀ l s', NotDestroyed s l → (system main).Step s l s' →
      ∀ k, s.Accepted k → ¬ s.Removes l k →
        s'.connections_.lookup (s.connName k) = s.connections_.lookup (s.connName k) := by
  have hexact := registryExact_of_reachable h
  have hnum := numbered_of_reachable h
  refine ⟨hexact, ?_, hexact.lookup_next hnum, ?_⟩
  · intro j k hj hk hname
    exact hnum.connName_injective hj.2.le hk.2.le hname
  · intro l s' hgood hs k hk hl
    have hsteps := steps_of_step hs.2
    have hcont := continues_step hsteps
    have hnum' := numbered_step hnum hsteps
    have hexact' := registryExact_step hexact hnum (undestroyed_of_reachable h) hsteps
    ext j
    rw [← hcont.connName k, hexact', hcont.connName k, hexact]
    constructor
    · rintro ⟨hj, hname, hremoved⟩
      rw [← hcont.connName k] at hname
      obtain rfl := hnum'.connName_injective (hcont.accepted hk).2.le hj.2.le hname
      exact ⟨hk, rfl, by rwa [← removed_step hsteps hk hl]⟩
    · rintro ⟨hj, hname, hremoved⟩
      obtain rfl := hnum.connName_injective hk.2.le hj.2.le hname
      exact ⟨hcont.accepted hj, (hcont.connName k).symm, by rwa [removed_step hsteps hk hl]⟩

/-- With two connections accepted and the first one closed, only the second is
left. -/
theorem connections_exact_oneLeft :
    ∃ s : ServerRun ConnectionRun.Party, (s.nextConnId_ = 3 ∧ (s.connection 1).removed = true) ∧
      (∀ n k, s.connections_.lookup n = some k ↔
        s.Accepted k ∧ n = s.connName k ∧ (s.connection k).removed = false) := by
  have hrun : (TransitionSystem.replay (TransitionSystem.guarded NotDestroyed
      (TransitionSystem.guarded Permitted (step .main))) (newServer 1)
      (listening ++ accepting 7 ++ establishing ++ accepting 8 ++ establishing ++ hangingUp 1 ++
        removing)).map (fun s => (s.nextConnId_, (s.connection 1).removed))
      = some (3, true) := by decide +kernel
  obtain ⟨s, hs, hobs⟩ := exists_reachable_of_replay (init_newServer 1) _ hrun
  exact ⟨s, Prod.mk.inj hobs, (connections_exact hs).1⟩

end ServerRun
end MuduoCore
