import MuduoCore.Server.FairRuns

/-!
# The destructor of a server comes to its end

`~TcpServer` takes its connections down, and then waits for the threads of its
pool one after the other, in the destructor of each `EventLoopThread`. Where
every thread of the pool has entered `loop()` before, so that no `quit()` is
overwritten there, the waiting ends: a thread that has been told to quit comes
round to its test of `quit_` with what it had still to run, and leaves.
-/

namespace MuduoCore
namespace ServerRun

open TransitionSystem (Run)

variable {T : Type*} [DecidableEq T] {main u : T} {s s' : ServerRun T}
  {Good : ServerRun T → ServerLabel T → Prop}

/-! ## A loop that has been told to quit -/

def Entered (s : ServerRun T) (loop : T) : Prop :=
  s.returned loop = true ∨ (s.loops loop).phase ≠ .outside

/-- The thread of the loop has been told to quit while it was in `loop()`. -/
def Quits (s : ServerRun T) (loop : T) : Prop :=
  s.returned loop = true ∨ ((s.loops loop).phase ≠ .outside ∧ (s.loops loop).quit_ = true)

theorem entered_step {l : ServerLabel T} (hs : Steps main s l s')
    (hu : u ∈ s.threadPool_.loops_) (h : Entered s u) : Entered s' u := by
  rcases h with hreturned | hphase
  · exact .inl (returned_mono hs hreturned)
  · rcases loop_of_step hs hu with ⟨c, hround⟩ | ⟨-, -, hstays⟩
    · by_cases hout : (s'.loops u).phase = .outside
      · exact .inl (hround.returns hout)
      · exact .inr hout
    · exact .inr (hstays.phase ▸ hphase)

theorem quits_step {l : ServerLabel T} (hs : Steps main s l s') (hu : u ∈ s.threadPool_.loops_)
    (h : Quits s u) : Quits s' u := by
  rcases h with hreturned | ⟨hphase, hquit⟩
  · exact .inl (returned_mono hs hreturned)
  · rcases loop_of_step hs hu with ⟨c, hround⟩ | ⟨-, -, hstays⟩
    · by_cases hout : (s'.loops u).phase = .outside
      · exact .inl (hround.returns hout)
      · refine .inr ⟨hout, ?_⟩
        have ha := hround.advances
        generalize s'.loops u = loop at ha
        cases ha with
        | enter hp => exact absurd hp hphase
        | _ => exact hquit
    · exact .inr ⟨hstays.phase ▸ hphase, hstays.quit hquit⟩

omit [DecidableEq T] in
theorem not_poll_of_quits {l : ServerLabel T} {c : LoopStep} (hround : GoesRound u s l s' c)
    (h : Quits s u) (hnot : s.returned u = false) : (s'.loops u).phase ≠ .poll := by
  intro hpoll
  obtain ⟨hphase, hquit⟩ : (s.loops u).phase ≠ .outside ∧ (s.loops u).quit_ = true := by
    refine h.resolve_left ?_
    rw [hnot]
    exact Bool.false_ne_true
  have ha := hround.advances
  generalize s'.loops u = loop at ha hpoll
  cases ha with
  | again hp hq =>
    rw [hquit] at hq
    cases hq
  | _ => cases hpoll

/-- In a fair run the thread of a loop that has been told to quit in `loop()`
comes to its end. -/
theorem quit_thread_ends {r : (system main).Run Good} {n : ℕ}
    (hu : u ∈ (r.state n).threadPool_.loops_) (hquits : Quits (r.state n) u)
    (hfair : r.Fair (Goes main u)) (hcalls : CallsEnd u (Rests u) r) :
    ∃ m ≥ n, (r.state m).returned u = true := by
  have hsteps : ∀ m, Steps main (r.state m) (r.label m) (r.state (m + 1)) :=
    fun m => steps_of_step (r.step m).2
  have hpool := mem_pool_stable hu
  have hkept : ∀ m ≥ n, Quits (r.state m) u :=
    Run.stable (I := fun s => Quits s u) (fun m hm => quits_step (hsteps m) (hpool m hm)) hquits
  refine reaches_of_pool (fun p => (p.toTest, p.left)) (P := fun s => s.returned u = true) hu hfair
    ?_ (fun _ => id) ?_
  · intro hnot
    refine calls_end_of_leaving hu hcalls hnot ?_
    intro m hm c hround
    exact not_poll_of_quits hround (hkept m hm) (by simpa using hnot m hm)
  · intro m hm hnot hnot' c hround
    refine hround.advances.nearer ?_ fun hout => hnot' (hround.returns hout)
    exact not_poll_of_quits hround (hkept m hm) (by simpa using hnot)

/-! ## What is left of the destructor -/

/-- The stack goes on to the end of the destructor. It joins threads of the pool
only, each of them after it has been told to quit: the loops in the list will be. -/
inductive Finishes (s : ServerRun T) : List T → List (ServerInstr T) → Prop
  | destroyed (quitted : List T) (below : List (ServerInstr T)) :
      Finishes s quitted (.destroyed :: below)
  | join {quitted : List T} {loop : T} {rest : List (ServerInstr T)}
      (hpool : loop ∈ s.threadPool_.loops_) (hquits : loop ∈ quitted ∨ Quits s loop)
      (hrest : Finishes s quitted rest) : Finishes s quitted (.join loop :: rest)
  | quit {quitted : List T} {loop : T} {rest : List (ServerInstr T)}
      (hpool : loop ∈ s.threadPool_.loops_) (hentered : Entered s loop)
      (hrest : Finishes s (loop :: quitted) rest) : Finishes s quitted (.quit loop :: rest)
  | plain {quitted : List T} {i : ServerInstr T} {rest : List (ServerInstr T)}
      (hi : i.isPlain = true) (hrest : Finishes s quitted rest) : Finishes s quitted (i :: rest)

omit [DecidableEq T] in
theorem Finishes.append {quitted : List T} {new rest : List (ServerInstr T)}
    (h : Finishes s quitted rest) (hnew : ∀ i ∈ new, i.isPlain = true) :
    Finishes s quitted (new ++ rest) := by
  induction new with
  | nil => exact h
  | cons i new ih =>
    refine .plain (hnew i List.mem_cons_self) (ih ?_)
    exact fun j hj => hnew j (List.mem_cons_of_mem i hj)

omit [DecidableEq T] in
theorem Finishes.mono {quitted quitted' : List T} {stack : List (ServerInstr T)}
    (h : Finishes s quitted stack)
    (hpool : ∀ loop ∈ s.threadPool_.loops_, loop ∈ s'.threadPool_.loops_)
    (hentered : ∀ loop ∈ s.threadPool_.loops_, Entered s loop → Entered s' loop)
    (hquits : ∀ loop ∈ s.threadPool_.loops_, loop ∈ quitted ∨ Quits s loop →
      loop ∈ quitted' ∨ Quits s' loop) : Finishes s' quitted' stack := by
  induction h generalizing quitted' with
  | destroyed quitted below => exact .destroyed _ _
  | join hp hq _ ih => exact .join (hpool _ hp) (hquits _ hp hq) (ih hquits)
  | quit hp he _ ih =>
    refine .quit (hpool _ hp) (hentered _ hp he) (ih ?_)
    rintro loop hloop (hmem | hq)
    · rcases List.mem_cons.mp hmem with rfl | hmem
      · exact .inl List.mem_cons_self
      · exact (hquits loop hloop (.inl hmem)).imp_left (List.mem_cons_of_mem _)
    · exact (hquits loop hloop (.inr hq)).imp_left (List.mem_cons_of_mem _)
  | plain hi _ ih => exact .plain hi (ih hquits)

omit [DecidableEq T] in
theorem finishes_destructor {loops : List T} (below : List (ServerInstr T))
    (hpool : ∀ loop ∈ loops, loop ∈ s.threadPool_.loops_ ∧ Entered s loop) :
    Finishes s [] (.destroyConnections ::
      loops.flatMap (fun loop => [.quit loop, .join loop]) ++
        [.destroyAcceptor, .destroyed] ++ below) := by
  refine .plain rfl ?_
  suffices h : ∀ quitted : List T, Finishes s quitted
      (loops.flatMap (fun loop => [.quit loop, .join loop]) ++
        [.destroyAcceptor, .destroyed] ++ below) from h []
  induction loops with
  | nil => exact fun quitted => .plain rfl (.destroyed _ _)
  | cons loop loops ih =>
    intro quitted
    obtain ⟨hmem, hentered⟩ := hpool loop List.mem_cons_self
    refine .quit hmem hentered (.join hmem (.inl List.mem_cons_self) (ih ?_ _))
    exact fun other hother => hpool other (List.mem_cons_of_mem loop hother)

theorem Finishes.step {quitted : List T} {stack : List (ServerInstr T)} {l : ServerLabel T}
    (h : Finishes s quitted stack) (hs : Steps main s l s') : Finishes s' quitted stack := by
  refine h.mono (fun loop hloop => mem_pool_step hs hloop)
    (fun loop hloop => entered_step hs hloop) ?_
  exact fun loop hloop hq => hq.imp_right (quits_step hs hloop)

/-- The server is destroyed only when each thread of its pool has entered `loop()`. -/
def QuitsEntered (s : ServerRun T) : ServerLabel T → Prop
  | .call _ .destroy => ∀ loop ∈ s.threadPool_.loops_, Entered s loop
  | _ => True

theorem life_of_step {l : ServerLabel T} (hs : Steps main s l s') :
    s'.life = s.life ∨
    (l = .call main .destroy ∧ s.life = .alive ∧ s'.stack main =
      .destroyConnections :: s.threadPool_.loops_.flatMap (fun loop => [.quit loop, .join loop]) ++
        [.destroyAcceptor, .destroyed] ++ s.stack main) ∨
    s'.life = .destroyed := by
  cases hs with
  | own t o i rest r new hs hr =>
    cases i with
    | destroyed =>
      cases hr
      exact .inr (.inr rfl)
    | handleRead =>
      left
      simp only [run] at hr
      split at hr
      · obtain ⟨-, -, rfl⟩ := newConnection_eq hr
        rfl
      · cases hr
        rfl
    | call f =>
      left
      cases f <;> cases hr <;> rfl
    | destroyConnections | join loop =>
      left
      simp only [run] at hr
      split_ifs at hr
      cases hr
      rfl
    | connection k i | queueInLoop loop cb | wakeup loop | startLoop => cases hr
    | _ =>
      left
      cases hr
      rfl
  | call t c r new hu hc =>
    cases codes_of_code hc with
    | destroy ht hlife =>
      subst ht
      exact .inr (.inl ⟨rfl, hlife, by simp [setStack]⟩)
    | _ => exact .inl rfl
  | _ => exact .inl rfl

theorem isPlain_of_code {t : T} {c : ServerCall T} {r : ServerRun T}
    {new : List (ServerInstr T)} (hc : s.code main t c = some (r, new))
    (hlife : s.life = .inDestructor) : ∀ i ∈ new, i.isPlain = true := by
  intro i hi
  cases codes_of_code hc with
  | connection k c hk hcallbacks =>
    obtain ⟨j, _, rfl⟩ := List.mem_map.mp hi
    exact ServerInstr.isPlain_tag k j
  | queueInLoop =>
    rw [List.mem_singleton.mp hi]
    rfl
  | start halive | destroy ht halive =>
    rw [hlife] at halive
    cases halive

theorem own_of_exec {t : T} {o : Outcome} {i : ServerInstr T} {rest : List (ServerInstr T)}
    (hs : Steps main s (.exec t o) s') (htop : s.stack t = i :: rest)
    (hown : i.ofConnection = none) (hqueue : ∀ loop cb, i ≠ .queueInLoop loop cb)
    (hwakeup : ∀ loop, i ≠ .wakeup loop) :
    ∃ r new, s.run main t i o = some (r, new) ∧ s' = r.setStack t (new ++ rest) := by
  cases hs with
  | run t o head k j rest' c new htop' hi hr =>
    obtain ⟨rfl, -⟩ := List.cons.inj (htop.symm.trans htop')
    rw [hown] at hi
    cases hi
  | own t o j rest' r new htop' hr =>
    obtain ⟨rfl, rfl⟩ := List.cons.inj (htop.symm.trans htop')
    exact ⟨r, new, hr, rfl⟩
  | queue t o loop cb rest' htop' =>
    exact absurd (List.cons.inj (htop.symm.trans htop')).1 (hqueue loop cb)
  | wakeup t o loop rest' htop' =>
    exact absurd (List.cons.inj (htop.symm.trans htop')).1 (hwakeup loop)
  | pointers l k n hk hl => obtain ⟨t, hl | hl⟩ := hl <;> cases hl

theorem quits_of_exec {t : T} {o : Outcome} {loop : T} {rest : List (ServerInstr T)}
    (hs : Steps main s (.exec t o) s') (htop : s.stack t = .quit loop :: rest)
    (hentered : Entered s loop) : Quits s' loop := by
  obtain ⟨r, new, hr, rfl⟩ := own_of_exec hs htop rfl (by simp) (by simp)
  cases hr
  refine hentered.imp_right fun hphase => ⟨?_, ?_⟩
  · simpa [setStack, setLoop] using hphase
  · simp [setStack, setLoop, EventLoop.setQuit]

theorem life_of_exec {t : T} {o : Outcome} {rest : List (ServerInstr T)}
    (hs : Steps main s (.exec t o) s') (htop : s.stack t = .destroyed :: rest) :
    s'.life = .destroyed := by
  obtain ⟨r, new, hr, rfl⟩ := own_of_exec hs htop rfl (by simp) (by simp)
  cases hr
  rfl

theorem Finishes.exec {o : Outcome} (h : Finishes s [] (s.stack main))
    (hs : Steps main s (.exec main o) s') (hlife : s'.life ≠ .destroyed) :
    Finishes s' [] (s'.stack main) := by
  obtain ⟨head, rest, new, htop, hstack, hnew⟩ := replaced_of_exec hs
  rw [htop] at h
  rw [hstack, Function.update_self]
  have hplain : head ≠ .start → ∀ i ∈ new, i.isPlain = true :=
    fun hne i hi => (hnew i hi).2.resolve_right hne
  cases h with
  | destroyed => exact absurd (life_of_exec hs htop) hlife
  | join hpool hquits hrest => exact (hrest.step hs).append (hplain (by simp))
  | quit hpool hentered hrest =>
    refine Finishes.append (hrest.mono (fun loop hloop => mem_pool_step hs hloop)
      (fun loop hloop => entered_step hs hloop) ?_) (hplain (by simp))
    rintro loop hloop (hmem | hq)
    · obtain rfl := List.mem_singleton.mp hmem
      exact .inr (quits_of_exec hs htop hentered)
    · exact .inr (quits_step hs hloop hq)
  | plain hi hrest =>
    refine (hrest.step hs).append (hplain ?_)
    rintro rfl
    cases hi

theorem Finishes.goes {l : ServerLabel T} (h : Finishes s [] (s.stack main))
    (hs : Steps main s l s') (hgoes : Goes main main s l) :
    (∃ o, l = .exec main o) ∨ ∃ k, l = .destroyNext k := by
  have hcons : s.stack main ≠ [] := by
    intro hnil
    rw [hnil] at h
    cases h
  obtain ⟨hthread, huser⟩ := hgoes
  cases hs with
  | run t o | own t o | queue t o | wakeup t o =>
    obtain rfl : t = main := hthread
    exact .inl ⟨o, rfl⟩
  | destroyNext k => exact .inr ⟨k, rfl⟩
  | startLoop t loop rest htop =>
    obtain rfl : t = main := hthread
    rw [htop] at h
    cases h with
    | plain hi => cases hi
  | control t c loop htop | poll t c reports accept loop htop =>
    obtain rfl : t = main := hthread
    exact absurd htop hcons
  | handleEvent k hk htop =>
    have hloop : (s.connection k).loop_ = main := hthread
    rw [hloop] at htop
    exact absurd htop hcons
  | acceptEvent htop => exact absurd htop hcons
  | call | store => cases huser
  | pointers l k n hk hl => obtain ⟨t, rfl | rfl⟩ := hl <;> cases huser

theorem finishes_step {l : ServerLabel T}
    (h : s.life = .inDestructor → Finishes s [] (s.stack main)) (hgood : QuitsEntered s l)
    (hs : Steps main s l s') (hlife : s'.life = .inDestructor) :
    Finishes s' [] (s'.stack main) := by
  rcases life_of_step hs with hsame | ⟨rfl, -, hstack⟩ | hend
  · have hbefore := hsame ▸ hlife
    have hfin := h hbefore
    by_cases hgoes : Goes main main s l
    · rcases hfin.goes hs hgoes with ⟨o, rfl⟩ | ⟨k, rfl⟩
      · exact hfin.exec hs (by simp [hlife])
      · have hfin' := hfin.step hs
        cases hs with
        | destroyNext k rest htop =>
          rw [htop] at hfin'
          simp only [setStack, Function.update_self]
          exact .plain rfl (.plain rfl hfin')
        | pointers l k n hk hl => obtain ⟨t, hl | hl⟩ := hl <;> cases hl
    · by_cases hcall : ∃ c, l = .call main c
      · obtain ⟨c, rfl⟩ := hcall
        have hfin' := hfin.step hs
        cases hs with
        | call t c r new hu hc =>
          simp only [setStack, Function.update_self]
          exact hfin'.append (isPlain_of_code hc hbefore)
        | pointers l k n hk hl => obtain ⟨t, hl | hl⟩ := hl <;> cases hl
      · rw [stack_other hs hgoes fun c hc => hcall ⟨c, hc⟩]
        exact hfin.step hs
  · rw [hstack]
    exact (finishes_destructor _ fun loop hloop => ⟨hloop, hgood loop hloop⟩).step hs
  · rw [hend] at hlife
    cases hlife

theorem finishes_of_reachable (h : (system main).Reachable QuitsEntered s)
    (hlife : s.life = .inDestructor) : Finishes s [] (s.stack main) := by
  refine h.invariant (I := fun s => s.life = .inDestructor → Finishes s [] (s.stack main))
    ?_ ?_ hlife
  · intro s hinit hlife
    rw [hinit.life] at hlife
    cases hlife
  · exact fun s l s' hi hgood hs => finishes_step hi hgood (steps_of_step hs.2)

/-! ## The entries that are left -/

theorem connections_step {l : ServerLabel T} (hs : Steps main s l s') :
    s'.connections_ = s.connections_ ∨
    (∃ k, s'.connections_ = s.connections_.erase (s.connName k)) ∨
    ∃ t o rest, l = .exec t o ∧ s.stack t = .handleRead :: rest ∧
      s'.nextConnId_ = s.nextConnId_ + 1 ∧
      s'.connections_ = s.connections_.insert (s.connName s.nextConnId_) s.nextConnId_ := by
  cases hs with
  | run t o head k i rest c new hs hi hr =>
    by_cases hremove : i = .call .removeConnectionInLoop
    · exact .inr (.inl ⟨k, if_pos hremove⟩)
    · exact .inl (if_neg hremove)
  | own t o i rest r new hs hr =>
    rcases run_cases hr with ⟨sockfd, rfl, hnew⟩ | ⟨-, -, hr⟩
    · obtain ⟨-, -, rfl⟩ := newConnection_eq hnew
      exact .inr (.inr ⟨t, o, rest, rfl, hs, rfl, rfl⟩)
    · rw [hr]
      exact .inl rfl
  | destroyNext k rest hs ha hk => exact .inr (.inl ⟨k, rfl⟩)
  | call t c r new hu hc =>
    rw [frame_of_code hc]
    exact .inl rfl
  | _ => exact .inl rfl

/-- An entry is of a connection that has been accepted, under its name. -/
def Named (s : ServerRun T) : Prop :=
  ∀ name k, s.connections_.lookup name = some k → s.Accepted k ∧ name = s.connName k

theorem named_of_reachable (h : (system main).Reachable Good s) : Named s := by
  refine h.invariant_of (J := Numbered) (fun _ => numbered_of_reachable) (I := Named) ?_ ?_
  · intro s hinit name k hk
    rw [hinit.connections, AList.lookup_empty] at hk
    cases hk
  · intro s l s' ih hnum _ hs name k hk
    have hcont := continues_step (steps_of_step hs.2)
    have hold : s.connections_.lookup name = some k → s'.Accepted k ∧ name = s'.connName k := by
      intro hbefore
      obtain ⟨hacc, hname⟩ := ih name k hbefore
      exact ⟨hcont.accepted hacc, hname.trans (hcont.connName k).symm⟩
    rcases connections_step (steps_of_step hs.2) with
        heq | ⟨j, heq⟩ | ⟨_, _, _, _, _, hid, heq⟩
    · exact hold (heq ▸ hk)
    · rw [heq] at hk
      by_cases hname : name = s.connName j
      · rw [hname, AList.lookup_erase] at hk
        cases hk
      · rw [AList.lookup_erase_ne hname] at hk
        exact hold hk
    · rw [heq] at hk
      by_cases hname : name = s.connName s.nextConnId_
      · rw [hname, AList.lookup_insert, Option.some.injEq] at hk
        subst hk
        have hlt : s.nextConnId_ < s'.nextConnId_ := by omega
        exact ⟨⟨hnum.pos, hlt⟩, hname.trans (hcont.connName _).symm⟩
      · rw [AList.lookup_insert_ne hname] at hk
        exact hold hk

omit [DecidableEq T] in
theorem Named.exists_registered (h : Named s) (hne : s.connections_.entries ≠ []) :
    ∃ k, s.Accepted k ∧ s.Registered k := by
  obtain ⟨⟨name, k⟩, hmem⟩ := List.exists_mem_of_ne_nil _ hne
  have hlookup : s.connections_.lookup name = some k := AList.mem_lookup_iff.mpr hmem
  obtain ⟨hacc, rfl⟩ := h name k hlookup
  exact ⟨k, hacc, hlookup⟩

theorem length_keys_erase {α : Type*} [DecidableEq α] {β : α → Type*} (c : AList β) (a : α) :
    (c.erase a).keys.length = if a ∈ c.keys then c.keys.length - 1 else c.keys.length := by
  rw [AList.keys_erase, List.length_erase]

/-! ## The destructor -/

def Destroys (main : T) (s : ServerRun T) (l : ServerLabel T) : Prop :=
  s.life = .inDestructor ∧ Goes main main s l

/-- Only a thread that has not ended yet keeps the destructor waiting. -/
theorem enabled_of_destructor (h : (system main).Reachable QuitsEntered s)
    (hlife : s.life = .inDestructor)
    (hjoin : ∀ loop rest, s.stack main = .join loop :: rest → s.returned loop = true) :
    (system main).Enabled (Destroys main) s := by
  have hfin := finishes_of_reachable h hlife
  cases hs : s.stack main with
  | nil =>
    rw [hs] at hfin
    cases hfin
  | cons i rest =>
    have htagged := (sound_of_reachable h main i (List.mem_append_left _ (by simp [hs]))).tagged
    rw [hs] at hfin
    have hne : i ≠ .startLoop := by
      rintro rfl
      cases hfin with
      | plain hi => cases hi
    by_cases hnext : i = .destroyConnections ∧ s.connections_.entries ≠ []
    · obtain ⟨rfl, hentries⟩ := hnext
      obtain ⟨k, hacc, hreg⟩ := (named_of_reachable h).exists_registered hentries
      suffices hstep : ∃ s', s.step main (.destroyNext k) = some s' by
        obtain ⟨s', hs'⟩ := hstep
        exact ⟨.destroyNext k, s', ⟨hlife, rfl, rfl⟩, trivial, hs'⟩
      rw [step, destroyNext, hs]
      exact ⟨_, if_pos ⟨hacc, hreg⟩⟩
    · have hruns : i.awaits = true → ∃ r, s.run main main i ConnectionRun.wouldBlock = some r := by
        intro hawaits
        cases i with
        | destroyConnections => exact ⟨_, if_pos (by simpa using hnext)⟩
        | join loop => exact ⟨_, if_pos (hjoin loop rest hs)⟩
        | _ => cases hawaits
      obtain ⟨s', hs'⟩ := exists_exec hs htagged hne hruns
      exact ⟨_, s', ⟨hlife, rfl, rfl⟩, hs'⟩

/-- What is left of the destructor: entries of `connections_`, and the stack. -/
def left (main : T) (s : ServerRun T) : ℕ × Multiset ℕ :=
  (s.connections_.keys.length, InstructionStack.weight ServerInstr.rank (s.stack main))

def Less : ℕ × Multiset ℕ → ℕ × Multiset ℕ → Prop :=
  Prod.Lex (· < ·) Multiset.IsDershowitzMannaLT

theorem wellFounded_less : WellFounded Less := by
  have hlt : WellFounded fun m n : ℕ => m < n := wellFounded_lt
  exact hlt.prod_lex Multiset.wellFounded_isDershowitzMannaLT

theorem left_own {l : ServerLabel T} (hfin : Finishes s [] (s.stack main))
    (hs : Steps main s l s') (hgoes : Goes main main s l) : Less (left main s') (left main s) := by
  rcases hfin.goes hs hgoes with ⟨o, rfl⟩ | ⟨k, rfl⟩
  · obtain ⟨head, rest, new, htop, hstack, hnew⟩ := replaced_of_exec hs
    have hweight : Multiset.IsDershowitzMannaLT
        (InstructionStack.weight ServerInstr.rank (s'.stack main))
        (InstructionStack.weight ServerInstr.rank (s.stack main)) := by
      rw [hstack, Function.update_self, htop]
      exact InstructionStack.weight_replaced ServerInstr.rank fun j hj => (hnew j hj).1
    have hkeys : s'.connections_.keys.length ≤ s.connections_.keys.length := by
      rcases connections_step hs with heq | ⟨k, heq⟩ | ⟨t, o', rest', hl, hread, -⟩
      · rw [heq]
      · rw [heq, length_keys_erase]
        split_ifs <;> omega
      · cases hl
        rw [hread] at hfin
        cases hfin with
        | plain hi => cases hi
    rcases hkeys.lt_or_eq with hlt | heq
    · exact .left _ _ hlt
    · rw [left, left, heq]
      exact .right _ hweight
  · cases hs with
    | destroyNext k rest htop ha hk =>
      have hmem : s.connName k ∈ s.connections_.keys := by
        rw [← AList.mem_keys, ← AList.lookup_isSome, hk]
        rfl
      have hpos := List.length_pos_of_mem hmem
      refine .left _ _ ?_
      simp only [setStack, length_keys_erase, if_pos hmem]
      omega
    | pointers l k n hk hl => obtain ⟨t, hl | hl⟩ := hl <;> cases hl

theorem left_other {l : ServerLabel T} (hplaced : Placed main s) (hs : Steps main s l s')
    (hgoes : ¬ Goes main main s l) (hcall : ∀ c, l ≠ .call main c) :
    left main s' = left main s := by
  have hconnections : s'.connections_ = s.connections_ := by
    by_cases hthread : l.thread s.loopOf main = main
    · cases l with
      | call t c => exact absurd (congrArg (ServerLabel.call · c) hthread) (hcall c)
      | store t address value | copy t k | drop t k => cases hs <;> rfl
      | _ => exact absurd ⟨hthread, rfl⟩ hgoes
    · exact (connections_of_step hplaced hs hthread).1
  rw [left, left, hconnections, stack_other hs hgoes hcall]

/-- The thread of the server never waits for good: the thread that it joins has
been told to quit. -/
theorem exists_destroys {r : (system main).Run QuitsEntered} {n : ℕ}
    (hlife : ∀ m ≥ n, (r.state m).life = .inDestructor)
    (hcalls : ∀ m ≥ n, ∀ c, r.label m ≠ .call main c) (hfair : r.Fair (Destroys main))
    (hpool : ∀ m, ∀ u ∈ (r.state m).threadPool_.loops_,
      r.Fair (Goes main u) ∧ CallsEnd u (Rests u) r) :
    ∃ m ≥ n, Destroys main (r.state m) (r.label m) := by
  by_contra hnone
  have hsteps : ∀ m, Steps main (r.state m) (r.label m) (r.state (m + 1)) :=
    fun m => steps_of_step (r.step m).2
  have hstack : ∀ m ≥ n, (r.state m).stack main = (r.state n).stack main := by
    refine Run.stable (I := fun s : ServerRun T => s.stack main = (r.state n).stack main) ?_ rfl
    intro m hm hsame
    rw [stack_other (hsteps m) (fun hgoes => hnone ⟨m, hm, hlife m hm, hgoes⟩) (hcalls m hm), hsame]
  obtain ⟨N, hN, hended⟩ : ∃ N ≥ n, ∀ m ≥ N, ∀ loop rest,
      (r.state n).stack main = .join loop :: rest → (r.state m).returned loop = true := by
    by_cases hjoin : ∃ loop rest, (r.state n).stack main = .join loop :: rest
    · obtain ⟨loop, rest, htop⟩ := hjoin
      have hfin := finishes_of_reachable (r.reachable n) (hlife n le_rfl)
      rw [htop] at hfin
      obtain ⟨hmem, hquits⟩ : loop ∈ (r.state n).threadPool_.loops_ ∧ Quits (r.state n) loop := by
        cases hfin with
        | join hmem hquits => exact ⟨hmem, hquits.resolve_left List.not_mem_nil⟩
        | plain hi => cases hi
      obtain ⟨hloopfair, hloopcalls⟩ := hpool n loop hmem
      obtain ⟨N, hN, hended⟩ := quit_thread_ends hmem hquits hloopfair hloopcalls
      refine ⟨N, hN, ?_⟩
      intro m hm loop' rest' htop'
      rw [htop] at htop'
      cases htop'
      exact Run.stable (I := fun s : ServerRun T => s.returned loop = true)
        (fun k _ => returned_mono (hsteps k)) hended m hm
    · exact ⟨n, le_rfl, fun m _ loop rest htop => absurd ⟨loop, rest, htop⟩ hjoin⟩
  obtain ⟨m, hm, hown⟩ := hfair N fun m hm => by
    have hnm := hN.trans hm
    refine enabled_of_destructor (r.reachable m) (hlife m hnm) ?_
    intro loop rest htop
    exact hended m hm loop rest ((hstack m hnm).symm.trans htop)
  exact hnone ⟨m, hN.trans hm, hown⟩

/-- Where each thread of the pool has entered `loop()` before the server is
destroyed, the destructor comes to its end: in every run in which the thread of
the server and those of the pool go on whenever they can, whatever the
connections do and whatever is queued meanwhile. -/
theorem destructor_completes (r : (system main).Run QuitsEntered) {n : ℕ}
    (hlife : (r.state n).life = .inDestructor) (hfair : r.Fair (Destroys main))
    (hcalls : CallsEnd main (fun s => s.life = .destroyed) r)
    (hpool : ∀ m, ∀ u ∈ (r.state m).threadPool_.loops_,
      r.Fair (Goes main u) ∧ CallsEnd u (Rests u) r) :
    ∃ m ≥ n, (r.state m).life = .destroyed := by
  by_contra hnever
  have hsteps : ∀ m, Steps main (r.state m) (r.label m) (r.state (m + 1)) :=
    fun m => steps_of_step (r.step m).2
  have hnot : ∀ m ≥ n, (r.state m).life ≠ .destroyed := fun m hm h => hnever ⟨m, hm, h⟩
  have hin : ∀ m ≥ n, (r.state m).life = .inDestructor := by
    refine Run.stable (I := fun s : ServerRun T => s.life = .inDestructor) ?_ hlife
    intro m hm hbefore
    rcases life_of_step (hsteps m) with hsame | ⟨-, halive, -⟩ | hend
    · exact hsame.trans hbefore
    · rw [hbefore] at halive
      cases halive
    · exact absurd hend (hnot _ (hm.trans m.le_succ))
  obtain ⟨N, hN, hquiet⟩ := hcalls n hnot
  have hgoes : ∀ m ≥ N, ∃ k ≥ m, (r.state k).life = .destroyed ∨
      Destroys main (r.state k) (r.label k) := by
    intro m hm
    obtain ⟨k, hk, hown⟩ := exists_destroys (fun k hk => hin k (hN.trans (hm.trans hk)))
      (fun k hk => hquiet k (hm.trans hk)) hfair hpool
    exact ⟨k, hk, .inr hown⟩
  obtain ⟨m, hm, hend⟩ : ∃ m ≥ N, (r.state m).life = .destroyed := by
    refine Run.reaches_of_variant (P := fun s : ServerRun T => s.life = .destroyed)
      wellFounded_less (left main) hgoes ?_ ?_
    · intro m hm _ _ hown
      exact left_own (finishes_of_reachable (r.reachable m) (hin m (hN.trans hm))) (hsteps m)
        hown.2
    · intro m hm _ hown
      refine .inl (left_other (placed_of_reachable (r.reachable m)) (hsteps m) ?_ (hquiet m hm))
      exact fun hgoes => hown ⟨hin m (hN.trans hm), hgoes⟩
  exact hnot m (hN.trans hm) hend

/-! ## A run in which a server is destroyed -/

theorem not_enabled_of_returned (h : (system main).Reachable Good s)
    (hreturned : s.returned u = true) : ¬ (system main).Enabled (Goes main u) s := by
  rintro ⟨l, s', ⟨hthread, huser⟩, hs⟩
  have hthreads := poolThreads_of_reachable h
  obtain ⟨hpool, hstack, hphase⟩ := hthreads.returned u hreturned
  have hcons : ∀ {i rest}, s.stack u ≠ i :: rest := by
    intro i rest hi
    rw [hstack] at hi
    cases hi
  have hne : main ≠ u := by
    rintro rfl
    exact hthreads.apart hpool
  cases steps_of_step hs.2 with
  | run t o head k i rest c new htop | own t o i rest r new htop | queue t o loop cb rest htop
  | wakeup t o loop rest htop | startLoop t loop rest htop =>
    obtain rfl : t = u := hthread
    exact hcons htop
  | destroyNext k rest htop => exact hne hthread
  | acceptEvent htop => exact hne hthread
  | control t c loop htop hnot =>
    obtain rfl : t = u := hthread
    rw [hreturned] at hnot
    cases hnot
  | poll t w rs a loop htop hr hacc ha =>
    obtain rfl : t = u := hthread
    cases ha with
    | pollReturn w hp hw =>
      rw [hphase] at hp
      cases hp
  | handleEvent k hk htop hactive =>
    obtain ⟨w, hp⟩ := hthreads.active k hk hactive
    have hloop : s.loopOf k = u := hthread
    rw [hloop, hphase] at hp
    cases hp
  | call t c r new hu hc => cases huser
  | store t address value hu => cases huser
  | pointers l k n hk hl => obtain ⟨t, rfl | rfl⟩ := hl <;> cases huser

theorem fair_of_returned {r : (system main).Run Good} {N : ℕ}
    (hend : ∀ n ≥ N, (r.state n).returned u = true) :
    r.Fair (Goes main u) ∧ CallsEnd u (Rests u) r := by
  have hreturned : ∀ n, (r.state (n + N)).returned u = true :=
    fun n => hend _ (Nat.le_add_left _ _)
  constructor
  · intro n henabled
    exact absurd (henabled _ (Nat.le_add_right _ _))
      (not_enabled_of_returned (r.reachable _) (hreturned n))
  · intro n hnot
    exact absurd (.inr (hreturned n)) (hnot _ (Nat.le_add_right _ _))

open ConnectionRun (Party silent)

instance (s : ServerRun T) (loop : T) : Decidable (Entered s loop) :=
  inferInstanceAs (Decidable (_ ∨ _ ≠ _))

instance (s : ServerRun T) : (l : ServerLabel T) → Decidable (QuitsEntered s l)
  | .call _ .destroy => inferInstanceAs (Decidable (∀ loop ∈ s.threadPool_.loops_, Entered s loop))
  | .call _ (.connection _ _) | .call _ .start | .exec _ _ | .startLoop _ _ | .destroyNext _
  | .control _ _ | .poll _ _ _ _ | .handleEvent _ | .acceptEvent | .store _ _ _ | .copy _ _
  | .drop _ _ => isTrue trivial

/-- The server is being destroyed with a connection. Its thread waits for the
other one, which has just been woken. -/
def destroying : List (ServerLabel Party) :=
  List.flatten [listening, accepting 7, establishing, [.control .main (.pollReturn false),
    .call .main .destroy, .destroyNext 1], execs .main 8, [.control .io (.pollReturn true)]]

/-- The other thread runs `connectDestroyed` and comes to its end, and then the
destructor. -/
def ending : List (ServerLabel Party) :=
  List.flatten [[.control .io .handleRead, .control .io .endDispatch, .control .io .swap,
    .control .io .runNext], execs .io 6, [.control .io .endBody], backToPoll .io, execs .main 3]

/-- Afterwards code of the user keeps the thread of the server. -/
theorem exists_ending_run : ∃ r : (system Party.main).Run QuitsEntered,
    (r.state 0).life = .inDestructor ∧ ((r.state 0).loops .io).phase = .dispatch true ∧
      ∀ n ≥ ending.length, (r.state n).threadPool_.loops_ = [.io] ∧
        (r.state n).life = .destroyed ∧ (r.state n).returned .io = true := by
  have hbefore : (TransitionSystem.replay (TransitionSystem.guarded QuitsEntered
      (TransitionSystem.guarded Permitted (step .main))) (newServer 1) destroying).map
      (fun s => (s.life, (s.loops .io).phase)) = some (.inDestructor, .dispatch true) := by
    decide +kernel
  have hafter : (TransitionSystem.replay (TransitionSystem.guarded QuitsEntered
      (TransitionSystem.guarded Permitted (step .main))) (newServer 1)
      (destroying ++ ending)).map (fun s =>
        (s.threadPool_.loops_, s.life, s.returned .io, decide (s.UserRuns .main))) =
        some ([Party.io], .destroyed, true, true) := by decide +kernel
  obtain ⟨s, hs, hobs⟩ := Option.map_eq_some_iff.mp hbefore
  rw [TransitionSystem.replay_append, hs, Option.bind_some] at hafter
  obtain ⟨t, ht, hobs'⟩ := Option.map_eq_some_iff.mp hafter
  simp only [Prod.mk.injEq, decide_eq_true_eq] at hobs hobs'
  obtain ⟨hloops, hlife, hreturned, huser⟩ := hobs'
  have hsame : TransitionSystem.guarded QuitsEntered
      (TransitionSystem.guarded Permitted (step .main)) t (.store .main 0 (t.memory 0)) =
        some t := by
    refine TransitionSystem.guarded_eq_some.mpr ⟨trivial, ?_⟩
    refine TransitionSystem.guarded_eq_some.mpr ⟨trivial, ?_⟩
    rw [step, if_pos huser, Function.update_eq_self]
  have hreach := TransitionSystem.reachable_of_replay step_of_guarded (.init (init_newServer 1)) hs
  obtain ⟨r, rfl, hstays⟩ := Run.exists_replay_stay step_of_guarded hreach ht hsame
  refine ⟨r, hobs.1, hobs.2, ?_⟩
  intro n hn
  obtain ⟨k, rfl⟩ := Nat.exists_eq_add_of_le' hn
  rw [hstays k]
  exact ⟨hloops, hlife, hreturned⟩

/-- The destructor waits for a thread that has just been woken. -/
theorem destructor_completes_waiting :
    ∃ r : (system Party.main).Run QuitsEntered, (r.state 0).life = .inDestructor ∧
      (r.state 0).returned .io = false ∧ ∃ m, (r.state m).life = .destroyed := by
  obtain ⟨r, hlife, hphase, hend⟩ := exists_ending_run
  have hlater : ∀ n, n + ending.length ≥ ending.length := fun n => Nat.le_add_left _ _
  have hio : ∀ m, ∀ u ∈ (r.state m).threadPool_.loops_, u = .io := by
    intro m u hu
    have hlast := mem_pool_stable hu _ (Nat.le_add_right m ending.length)
    rw [(hend _ (hlater m)).1] at hlast
    exact List.mem_singleton.mp hlast
  refine ⟨r, hlife, ?_, ?_⟩
  · by_contra hreturned
    have hthreads := poolThreads_of_reachable (r.reachable 0)
    have hout := (hthreads.returned .io (by simpa using hreturned)).2.2
    rw [hphase] at hout
    cases hout
  · refine (destructor_completes r hlife ?_ ?_ ?_).imp fun m hm => hm.2
    · intro n henabled
      obtain ⟨l, s', ⟨hin, -⟩, -⟩ := henabled _ (Nat.le_add_right n ending.length)
      rw [(hend _ (hlater n)).2.1] at hin
      cases hin
    · intro n hnot
      exact absurd (hend _ (hlater n)).2.1 (hnot _ (Nat.le_add_right _ _))
    · intro m u hu
      obtain rfl := hio m u hu
      exact fair_of_returned fun n hn => (hend n hn).2.2

end ServerRun
end MuduoCore
