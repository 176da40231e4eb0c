import MuduoCore.Connection.Hosted
import MuduoCore.Server.LoopAffinity

/-!
# What a connection sees of a server

Every step of the server is, for a connection that has been accepted, a step of
its own, a step of the rest of the program, or nothing; and what it sees when
it has been accepted is an initial state. So whatever holds in all runs of a
connection among others holds of each connection in all runs of the server.
-/

namespace MuduoCore

section View

variable {T : Type*} {k : ℕ}

theorem ServerInstr.view_tag (i : Instr T) : (i.tag k).view k = i := by
  cases i <;> simp [Instr.tag, ServerInstr.view, ServerFunctor.view]

theorem ServerInstr.view_map_tag (is : List (Instr T)) :
    (is.map (Instr.tag k)).map (ServerInstr.view k) = is := by
  simp [Function.comp_def, ServerInstr.view_tag]

theorem ServerInstr.view_of_ofConnection {head : ServerInstr T} {i : Instr T}
    (h : head.ofConnection = some (k, i)) : head.view k = i := by
  cases head with
  | connection j i =>
    cases h
    simp [ServerInstr.view]
  | call f =>
    cases f with
    | connection j f =>
      cases h
      simp [ServerInstr.view, ServerFunctor.view]
    | listen | other => cases h
  | _ => cases h

theorem ServerInstr.foreign_view {i : ServerInstr T} (h : i.owner ≠ some k) :
    (i.view k).foreign = true := by
  cases i with
  | connection j i =>
    have hj : j ≠ k := fun hj => h (hj ▸ rfl)
    simp [ServerInstr.view, hj, Instr.foreign]
  | queueInLoop loop f | call f =>
    cases f with
    | connection j f =>
      have hj : j ≠ k := fun hj => h (hj ▸ rfl)
      simp [ServerInstr.view, ServerFunctor.view, hj, Instr.foreign]
    | listen | other => rfl
  | _ => rfl

theorem ServerFunctor.view_other {f : ServerFunctor T} (h : ∀ g, f ≠ .connection k g) :
    f.view k = .other := by
  cases f with
  | connection j g =>
    have hj : j ≠ k := fun hj => h g (hj ▸ rfl)
    simp [ServerFunctor.view, hj]
  | listen | other => rfl

theorem ServerFunctor.contains_view [DecidableEq T] (fs : List (ServerFunctor T)) :
    (fs.map (view k)).contains .connectDestroyed =
      fs.contains (.connection k .connectDestroyed) := by
  have hview : ∀ f : ServerFunctor T, f.view k = .connectDestroyed ↔
      f = .connection k .connectDestroyed := by
    intro f
    cases f with
    | connection j f =>
      by_cases hj : j = k <;> simp [view, hj]
    | listen | other => simp [view]
  rw [Bool.eq_iff_iff]
  simp [hview]

end View

namespace ServerRun

variable {T : Type*} [DecidableEq T] {main : T} {s s' : ServerRun T} {k : ℕ}

open ConnectionRun (HostSteps HostInit hosted)

/-- How the label of a step of the server tells what the connection does in it. -/
def Matches (k : ℕ) (s : ServerRun T) (l : ServerLabel T) : HostLabel T → Prop
  | .own (.exec t o) => l = .exec t o
  | .own (.control t c) => l = .control t c ∨
      ∃ wakeup reports accept, l = .poll t wakeup reports accept ∧ c = .pollReturn wakeup
  | .own (.report wakeup revents) => ∃ reports accept,
      l = .poll (s.connection k).loop_ wakeup reports accept ∧ reports.lookup k = some revents
  | .own .handleEvent => l = .handleEvent k
  | .own (.store t address value) => l = .store t address value
  | .own (.call _ _) => False
  | .call t c => l = .call t (.connection k c)
  | .other => True
  | .destroy => l = .destroyNext k

omit [DecidableEq T] in
theorem view_eq {r : ConnectionRun T} (hshared : s.shared k = r.toShared)
    (hstack : ∀ t, (s.stack t).map (ServerInstr.view k) = r.stack t)
    (hloops : ∀ t, (s.loops t).map (ServerFunctor.view k) = r.loops t)
    (hactive : (s.connection k).active = r.active)
    (hswapped : (s.connection k).destroySwapped = r.destroySwapped) : s.view k = r := by
  obtain ⟨c, loops, stack, active, swapped⟩ := r
  simp only [view, hshared, hactive, hswapped, funext hstack, funext hloops]

theorem view_update (stack : T → List (ServerInstr T)) (t u : T) (is : List (ServerInstr T)) :
    (Function.update stack t is u).map (ServerInstr.view k) =
      Function.update (fun u => (stack u).map (ServerInstr.view k)) t
        (is.map (ServerInstr.view k)) u := by
  by_cases hu : u = t
  · subst hu
    simp
  · simp [Function.update_of_ne hu]

theorem view_updateLoop (loops : T → EventLoop (ServerFunctor T)) (t u : T)
    (l : EventLoop (ServerFunctor T)) :
    (Function.update loops t l u).map (ServerFunctor.view k) =
      Function.update (fun u => (loops u).map (ServerFunctor.view k)) t
        (l.map (ServerFunctor.view k)) u := by
  by_cases hu : u = t
  · subst hu
    simp
  · simp [Function.update_of_ne hu]

omit [DecidableEq T] in
theorem shared_eq (hconn : s'.connection k = s.connection k)
    (hreg : s'.Registered k ↔ s.Registered k) (hmemory : s'.memory = s.memory)
    (hfiles : s'.files = s.files) : s'.shared k = s.shared k := by
  simp only [shared, hconn, hreg, hmemory, hfiles]

omit [DecidableEq T] in
theorem registered_erase {j : ℕ} (hnum : Numbered s) (hk : s.Accepted k) (hj : s.Accepted j)
    (hjk : j ≠ k) :
    (s.connections_.erase (s.connName j)).lookup (s.connName k) = some k ↔ s.Registered k := by
  have hname : s.connName k ≠ s.connName j :=
    fun h => hjk (hnum.connName_injective hk.2.le hj.2.le h).symm
  rw [AList.lookup_erase_ne hname]
  rfl

/-! ## Steps of the rest of the program -/

theorem hostSteps_other {io t : T} (old new rest : List (ServerInstr T))
    (hs : s.stack t = old ++ rest) (hold : ∀ i ∈ old, i.owner ≠ some k)
    (hidle : old = [] → (s.view k).CodeRuns t) (hnew : ∀ i ∈ new, i.owner ≠ some k)
    (hstack : s'.stack = Function.update s.stack t (new ++ rest))
    (hloops : ∀ u, s'.loops u = s.loops u ∨ s'.loops u = (s.loops u).setQuit)
    (hconn : s'.connection k = s.connection k) (hreg : s'.Registered k ↔ s.Registered k)
    (hmemory : s'.memory = s.memory) (hfiles : s'.files = s.files) :
    HostSteps io main (s.view k) .other (s'.view k) := by
  have hforeign : ∀ is : List (ServerInstr T), (∀ i ∈ is, i.owner ≠ some k) →
      ∀ i ∈ is.map (ServerInstr.view k), i.foreign = true := by
    intro is his i hi
    obtain ⟨j, hj, rfl⟩ := List.mem_map.mp hi
    exact ServerInstr.foreign_view (his j hj)
  have hstep : HostSteps io main (s.view k) .other _ := .other t
    (old.map (ServerInstr.view k)) (new.map (ServerInstr.view k)) (rest.map (ServerInstr.view k))
    (fun u => (s'.loops u).map (ServerFunctor.view k)) (by simp [view, hs]) (hforeign old hold)
    (fun h => hidle (List.map_eq_nil_iff.mp h)) (hforeign new hnew) (by
      intro u
      rcases hloops u with hu | hu
      · exact Or.inl (by rw [hu]; rfl)
      · exact Or.inr (by rw [hu]; rfl))
  convert hstep using 1
  refine view_eq (shared_eq hconn hreg hmemory hfiles) ?_ (fun _ => rfl) (by rw [hconn]; rfl)
    (by rw [hconn]; rfl)
  intro u
  rw [hstack, view_update, List.map_append]
  rfl

omit [DecidableEq T] in
theorem view_codeRuns {t : T} (h : s.UserRuns t) : (s.view k).CodeRuns t := by
  rcases h with ⟨hs, -, -⟩ | ⟨i, hi, huser⟩
  · left
    simp [view, hs]
  · right
    have hhead : ((s.view k).stack t).head? = some (i.view k) := by
      simp [view, List.head?_map, Option.mem_def.mp hi]
    rw [hhead]
    cases i with
    | connection j i =>
      cases i with
      | user =>
        by_cases hj : j = k
        · exact Or.inl (by simp [ServerInstr.view, hj])
        · exact Or.inr (by simp [ServerInstr.view, hj])
      | _ => cases huser
    | threadInitCallback => exact Or.inr rfl
    | _ => cases huser

/-! ## Steps of the connection -/

theorem shared_setConnection {i : Instr T} {c : Shared T} {io t : T} {o : Outcome}
    {new : List (Instr T)} (hr : (s.shared k).run io main t i o = some (c, new)) :
    (s.setConnection k i c).shared k = c := by
  have hframe := Shared.frame_of_run hr
  have hfiles := Shared.files_of_run hr
  have hreg : decide ((s.setConnection k i c).Registered k) = c.inConnections := by
    by_cases hi : i = .call .removeConnectionInLoop
    · subst hi
      cases hr
      simp [Registered, setConnection, connName]
    · have hsame : (s.setConnection k i c).Registered k ↔ s.Registered k := by
        simp [Registered, setConnection, connName, hi]
      rw [hframe.inConnections hi]
      exact decide_eq_decide.mpr hsame
  obtain ⟨conn, inConnections, memory, files, closing, callbacks, count, accepted, executed⟩ := c
  simp only at hreg
  simp only [shared, setConnection, Function.update_self, Shared.mk.injEq, true_and, and_true]
  exact ⟨hreg, hframe.memory.symm, hfiles.symm⟩

theorem hostSteps_run {t : T} {o : Outcome} {head : ServerInstr T} {j : ℕ} {i : Instr T}
    {rest : List (ServerInstr T)} {c : Shared T} {new : List (Instr T)} (hnum : Numbered s)
    (hk : s.Accepted k) (hs : s.stack t = head :: rest) (hi : head.ofConnection = some (j, i))
    (hr : (s.shared j).run (s.connection j).loop_ main t i o = some (c, new)) :
    HostSteps (s.connection k).loop_ main (s.view k)
      (if j = k then .own (.exec t o) else .other)
      (((s.setConnection j i c).setStack t (new.map (Instr.tag j) ++ rest)).view k) := by
  by_cases hj : j = k
  · subst hj
    rw [if_pos rfl]
    have hstep : ConnectionRun.Steps (s.connection j).loop_ main (s.view j) (.exec t o) _ :=
      .run t o i (rest.map (ServerInstr.view j)) c new
        (by simp [view, hs, ServerInstr.view_of_ofConnection hi]) hr
    refine .own _ _ (by simp) ?_
    convert hstep using 1
    refine view_eq (shared_setConnection hr) ?_ (fun _ => rfl) ?_ ?_
    · intro u
      simp only [setStack]
      rw [view_update, List.map_append, ServerInstr.view_map_tag]
      rfl
    · simp [setConnection, setStack, view]
    · simp [setConnection, setStack, view]
  · rw [if_neg hj]
    have hne : k ≠ j := fun h => hj h.symm
    refine hostSteps_other [head] _ _ hs ?_ (by simp) ?_ rfl (fun _ => Or.inl rfl) ?_ ?_ rfl
      rfl
    · intro i' hi'
      rw [List.mem_singleton.mp hi', owner_of_ofConnection hi]
      exact fun h => hj (Option.some.inj h)
    · intro i' hi' howner
      obtain ⟨i'', _, rfl⟩ := List.mem_map.mp hi'
      exact hne (owner_tag j i'' k howner)
    · simp [setConnection, setStack, Function.update_of_ne hne]
    · have hjacc : s.Accepted j := by
        apply hnum.owner t head (List.mem_append_left _ (by simp [hs]))
        exact owner_of_ofConnection hi
      simp only [Registered, setConnection, setStack, connName]
      split_ifs
      · exact registered_erase hnum hk hjacc hj
      · rfl

theorem hostSteps_own {t : T} {i : ServerInstr T} {o : Outcome} {rest : List (ServerInstr T)}
    {r : ServerRun T} {new : List (ServerInstr T)} (hnum : Numbered s) (hk : s.Accepted k)
    (hs : s.stack t = i :: rest) (hr : s.run main t i o = some (r, new)) :
    HostSteps (s.connection k).loop_ main (s.view k) .other
      ((r.setStack t (new ++ rest)).view k) := by
  have hhead : i.owner ≠ some k := by
    cases i with
    | connection j i | queueInLoop loop cb => cases hr
    | call f =>
      cases f with
      | connection j f => cases hr
      | listen | other => simp [ServerInstr.owner]
    | _ => simp [ServerInstr.owner]
  have hold : ∀ j ∈ [i], j.owner ≠ some k := by
    intro j hj
    rwa [List.mem_singleton.mp hj]
  rcases run_cases hr with ⟨sockfd, -, hnew⟩ | ⟨hnone, hloops, hr'⟩
  · obtain ⟨-, rfl, rfl⟩ := newConnection_eq hnew
    have hne : s.nextConnId_ ≠ k := hk.2.ne'
    have hname : s.connName k ≠ s.connName s.nextConnId_ :=
      fun h => hne (hnum.connName_injective hk.2.le le_rfl h).symm
    refine hostSteps_other [i] _ _ hs hold (by simp) ?_ rfl (fun _ => Or.inl rfl) ?_ ?_ rfl
      rfl
    · intro j hj howner
      simp only [List.mem_cons, List.not_mem_nil, or_false] at hj
      rcases hj with rfl | rfl <;> exact hne (Option.some.inj howner)
    · simp [setStack, Function.update_of_ne hne.symm]
    · simp only [Registered, setStack]
      exact iff_of_eq (congrArg (· = some k) (AList.lookup_insert_ne hname))
  · have hstack : (r.setStack t (new ++ rest)).stack = Function.update s.stack t (new ++ rest) := by
      rw [setStack, (frame_of_run hr).1]
    refine hostSteps_other [i] _ _ hs hold (by simp) ?_ hstack ?_ (by rw [hr']; rfl)
      (by rw [hr']; rfl) (by rw [hr']; rfl) (by rw [hr']; rfl)
    · intro j hj
      rw [(hnone j hj).1]
      simp
    · intro u
      rcases hloops with hl | ⟨loop, hl⟩
      · exact Or.inl (congrFun hl u)
      · by_cases hu : u = loop
        · subst hu
          right
          simp [setStack, hl]
        · left
          simp [setStack, hl, Function.update_of_ne hu]

theorem hostSteps_queue {t loop : T} {o : Outcome} {cb : ServerFunctor T}
    {rest : List (ServerInstr T)} (hs : s.stack t = .queueInLoop loop cb :: rest) :
    ∃ hl, (hl = .own (.exec t o) ∨ hl = .other) ∧
      HostSteps (s.connection k).loop_ main (s.view k) hl
        (((s.setLoop loop ((s.loops loop).push cb)).setStack t
          (.wakeup loop :: cb.destructor ++ rest)).view k) := by
  have hview : ∀ is, ((s.setLoop loop ((s.loops loop).push cb)).setStack t is).view k =
      ((s.view k).setLoop loop (((s.view k).loops loop).push (cb.view k))).setStack t
        (is.map (ServerInstr.view k)) := by
    intro is
    refine view_eq rfl (fun u => view_update _ t u is) ?_ rfl rfl
    intro u
    simp only [setStack, setLoop]
    rw [view_updateLoop, EventLoop.map_push]
    rfl
  have hother : ∀ g, cb.view k = .other → (∀ i ∈ cb.destructor, i.owner ≠ some k) →
      g = HostLabel.other → HostSteps (s.connection k).loop_ main (s.view k) g
        (((s.setLoop loop ((s.loops loop).push cb)).setStack t
          (.wakeup loop :: cb.destructor ++ rest)).view k) := by
    rintro g hcb hnew rfl
    rw [hview, hcb]
    have hstep : HostSteps (s.connection k).loop_ main (s.view k) .other _ :=
      .queue t loop (cb.destructor.map (ServerInstr.view k)) (rest.map (ServerInstr.view k))
      (by simp [view, hs, ServerInstr.view, hcb]) (by
        intro i hi
        obtain ⟨j, hj, rfl⟩ := List.mem_map.mp hi
        exact ServerInstr.foreign_view (hnew j hj))
    simpa [ServerInstr.view] using hstep
  cases cb with
  | connection j f =>
    by_cases hj : j = k
    · subst hj
      refine ⟨_, Or.inl rfl, .own _ _ (by simp) ?_⟩
      rw [hview]
      have hstep : ConnectionRun.Steps (s.connection j).loop_ main (s.view j) (.exec t o) _ :=
        .queue t o loop f (rest.map (ServerInstr.view j))
          (by simp [view, hs, ServerInstr.view, ServerFunctor.view])
      rw [List.map_append, List.map_cons]
      simpa only [ServerFunctor.destructor, ServerInstr.view_map_tag, ServerFunctor.view,
        if_pos, ServerInstr.view] using hstep
    · refine ⟨_, Or.inr rfl, hother _ (by simp [ServerFunctor.view, hj]) ?_ rfl⟩
      intro i hi howner
      obtain ⟨i', _, rfl⟩ := List.mem_map.mp hi
      exact hj (owner_tag j i' k howner).symm
  | listen | other => exact ⟨_, Or.inr rfl, hother _ rfl (by simp [ServerFunctor.destructor]) rfl⟩

theorem steps_view_wakeup {t loop : T} {o : Outcome} {rest : List (ServerInstr T)}
    (hs : s.stack t = .wakeup loop :: rest) :
    ConnectionRun.Steps (s.connection k).loop_ main (s.view k) (.exec t o)
      (((s.setLoop loop ((s.loops loop).wakeupAfterPush (t = loop))).setStack t rest).view k) := by
  have hstep : ConnectionRun.Steps (s.connection k).loop_ main (s.view k) (.exec t o) _ :=
    .wakeup t o loop (rest.map (ServerInstr.view k)) (by simp [view, hs, ServerInstr.view])
  convert hstep using 1
  refine view_eq rfl (fun u => view_update _ t u rest) ?_ rfl rfl
  intro u
  simp only [setStack, setLoop]
  rw [view_updateLoop, EventLoop.map_wakeupAfterPush]
  rfl

theorem steps_view_control {t : T} {c : LoopStep} {loop : EventLoop (ServerFunctor T)}
    (hk : s.Accepted k) (hs : s.stack t = []) (hd : c = .endDispatch → ¬ s.Dispatches main t)
    (ha : (s.loops t).Advances c loop) (returned : T → Bool) :
    ConnectionRun.Steps (s.connection k).loop_ main (s.view k) (.control t c)
      (view { (s.setLoop t loop).setStack t (((s.loops t).started c).map .call) with
        connection := s.afterStep t c
        returned := returned } k) := by
  have hstep : ConnectionRun.Steps (s.connection k).loop_ main (s.view k) (.control t c) _ :=
    .control t c (loop.map (ServerFunctor.view k)) (by simp [view, hs]) (by
      intro ht hc
      by_contra hact
      exact hd hc (Or.inr ⟨k, hk.2, hk.1, ht.symm, by simpa [view] using hact⟩))
    (ha.map (ServerFunctor.view k))
  convert hstep using 1
  refine view_eq ?_ ?_ ?_ ?_ ?_
  · simp only [shared, afterStep, view]
    split_ifs <;> rfl
  · intro u
    simp only [setStack]
    rw [view_update]
    simp only [ConnectionRun.setStack, ConnectionRun.calls, view, EventLoop.map_started]
    simp only [List.map_map, Function.comp_def, ServerInstr.view]
    rfl
  · intro u
    simp only [setStack, setLoop]
    rw [view_updateLoop]
    rfl
  · simp only [afterStep]
    split_ifs <;> rfl
  · simp only [afterStep, view, EventLoop.map]
    rw [ServerFunctor.contains_view]
    split_ifs with hc
    · simp [ServedConnection.swapped, hc]
    · simp [hc]

theorem hostSteps_poll {t : T} {wakeup : Bool} {reports : List (ℕ × Events)}
    {accept : Option Events} {loop : EventLoop (ServerFunctor T)} {channel : RegisteredChannel}
    {active : Bool} (hs : s.stack t = [])
    (hr : ∀ r ∈ reports, s.Accepted r.1 ∧ (s.connection r.1).loop_ = t ∧
      mayReport (s.connection r.1).conn.channel_ r.2 = true)
    (ha : (s.loops t).Advances (.pollReturn wakeup) loop) :
    ∃ hl, Matches k s (.poll t wakeup reports accept) hl ∧
      HostSteps (s.connection k).loop_ main (s.view k) hl
        (view { s.setLoop t loop with
          connection := fun k => (s.connection k).report (reports.lookup k)
          acceptChannel_ := channel
          acceptActive := active } k) := by
  have hloops : ∀ u, ((s.setLoop t loop).loops u).map (ServerFunctor.view k) =
      ((s.view k).setLoop t (loop.map (ServerFunctor.view k))).loops u :=
    fun u => view_updateLoop _ t u loop
  have hstack : (s.view k).stack t = [] := by simp [view, hs]
  cases hlook : reports.lookup k with
  | some revents =>
    have hmem : (k, revents) ∈ reports := by
      obtain ⟨before, after, rfl, -⟩ := List.lookup_eq_some_iff.mp hlook
      simp
    obtain ⟨-, ht, hmay⟩ := hr _ hmem
    obtain ⟨mask, hmask, hrev⟩ := (Option.any_eq_true _ _).mp hmay
    simp only at ht
    subst ht
    refine ⟨.own (.report wakeup revents), ⟨reports, accept, rfl, hlook⟩, .own _ _ (by simp) ?_⟩
    have hstep : ConnectionRun.Steps (s.connection k).loop_ main (s.view k)
        (.report wakeup revents) _ :=
      .report wakeup revents mask (loop.map (ServerFunctor.view k)) hstack hmask
        (by simpa using hrev) (ha.map (ServerFunctor.view k))
    convert hstep using 1
    refine view_eq ?_ (fun _ => rfl) hloops ?_ ?_
    · simp only [shared, hlook, ServedConnection.report]
      rfl
    · simp only [hlook, ServedConnection.report]
    · simp only [hlook, ServedConnection.report]
      rfl
  | none =>
    refine ⟨.own (.control t (.pollReturn wakeup)),
      Or.inr ⟨wakeup, reports, accept, rfl, rfl⟩, .own _ _ (by simp) ?_⟩
    have hstep : ConnectionRun.Steps (s.connection k).loop_ main (s.view k)
        (.control t (.pollReturn wakeup)) _ :=
      .control t (.pollReturn wakeup) (loop.map (ServerFunctor.view k)) hstack
        (fun _ h => nomatch h) (ha.map (ServerFunctor.view k))
    convert hstep using 1
    refine view_eq ?_ ?_ hloops ?_ ?_
    · simp only [shared, hlook, ServedConnection.report]
      rfl
    · intro u
      have hsame : Function.update (s.view k).stack t [] = (s.view k).stack := by
        rw [← hstack, Function.update_eq_self]
      exact (congrFun hsame u).symm
    · simp only [hlook, ServedConnection.report]
      rfl
    · simp [hlook, ServedConnection.report, view]

theorem hostSteps_handleEvent {j : ℕ}
    (hs : s.stack (s.connection j).loop_ = []) (ha : (s.connection j).active = true) :
    HostSteps (s.connection k).loop_ main (s.view k)
      (if j = k then .own .handleEvent else .other)
      (view { s.setStack (s.connection j).loop_
          (((s.connection j).conn.channel_.channel.handleEventWithGuard.map fun cb =>
            .connection j (.handle cb)) ++ [.connection j .release]) with
        connection := Function.update s.connection j
          { s.connection j with active := false } } k) := by
  by_cases hj : j = k
  · subst hj
    rw [if_pos rfl]
    refine .own _ _ (by simp) ?_
    have hstep : ConnectionRun.Steps (s.connection j).loop_ main (s.view j) .handleEvent _ :=
      .handleEvent (by simp [view, hs]) ha
    convert hstep using 1
    refine view_eq ?_ ?_ (fun _ => rfl) ?_ ?_
    · simp only [shared, Function.update_self]
      rfl
    · intro u
      simp only [setStack]
      rw [view_update, List.map_append, List.map_map]
      simp only [Function.comp_def, ServerInstr.view, if_pos, List.map_cons, List.map_nil]
      rfl
    · simp only [Function.update_self]
    · simp only [Function.update_self]
      rfl
  · rw [if_neg hj]
    have hne : k ≠ j := fun h => hj h.symm
    refine hostSteps_other [] _ [] hs (by simp) ?_ ?_
      (by rw [List.append_nil]; rfl) (fun _ => Or.inl rfl) (by simp [Function.update_of_ne hne])
      Iff.rfl rfl rfl
    · intro _
      left
      simp [view, hs]
    · intro i hi howner
      rcases List.mem_append.mp hi with hi | hi
      · obtain ⟨cb, _, rfl⟩ := List.mem_map.mp hi
        exact hj (Option.some.inj howner)
      · rw [List.mem_singleton.mp hi] at howner
        exact hj (Option.some.inj howner)

theorem hostSteps_acceptEvent {is : List (ServerInstr T)} (his : ∀ i ∈ is, i = .handleRead)
    {active : Bool} (hs : s.stack main = []) :
    HostSteps (s.connection k).loop_ main (s.view k) .other
      (view { s.setStack main is with acceptActive := active } k) := by
  refine hostSteps_other [] _ [] hs (by simp) ?_ ?_
    (by rw [List.append_nil]; rfl) (fun _ => Or.inl rfl) rfl Iff.rfl rfl rfl
  · intro _
    left
    simp [view, hs]
  · intro i hi
    rw [his i hi]
    simp [ServerInstr.owner]

theorem hostSteps_call {t : T} {c : ServerCall T} {r : ServerRun T}
    {new : List (ServerInstr T)} (hu : s.UserRuns t) (hc : s.code main t c = some (r, new)) :
    ∃ hl, Matches k s (.call t c) hl ∧
      HostSteps (s.connection k).loop_ main (s.view k) hl
        ((r.setStack t (new ++ s.stack t)).view k) := by
  have hr := frame_of_code hc
  have hother : (∀ i ∈ new, i.owner ≠ some k) → ∃ hl, Matches k s (.call t c) hl ∧
      HostSteps (s.connection k).loop_ main (s.view k) hl
        ((r.setStack t (new ++ s.stack t)).view k) := by
    intro hnew
    refine ⟨.other, trivial, hostSteps_other [] _ (s.stack t) rfl (by simp)
      (fun _ => view_codeRuns hu) hnew (by rw [hr]; rfl) ?_ (by rw [hr]; rfl) (by rw [hr]; rfl)
      (by rw [hr]; rfl) (by rw [hr]; rfl)⟩
    intro u
    left
    rw [hr]
    rfl
  cases codes_of_code hc with
  | queueInLoop | start =>
    apply hother
    intro i hi
    rw [List.mem_singleton.mp hi]
    simp [ServerInstr.owner]
  | connection j c hj hcallbacks =>
    by_cases hjk : j = k
    · subst hjk
      refine ⟨.call t c, rfl, ?_⟩
      have hstep : HostSteps (s.connection j).loop_ main (s.view j) (.call t c) _ :=
        .call t c (view_codeRuns hu) hcallbacks
      convert hstep using 1
      refine view_eq rfl ?_ (fun _ => rfl) rfl rfl
      intro u
      simp only [setStack]
      rw [view_update, List.map_append, ServerInstr.view_map_tag]
      rfl
    · apply hother
      intro i hi howner
      obtain ⟨i', _, rfl⟩ := List.mem_map.mp hi
      exact hjk (owner_tag j i' k howner).symm
  | destroy ht hlife =>
    apply hother
    intro i hi
    simp only [List.mem_cons, List.mem_append, List.mem_flatMap, List.not_mem_nil,
      or_false] at hi
    grind [ServerInstr.owner]

theorem hostSteps_destroyNext {j : ℕ} {rest : List (ServerInstr T)} (hnum : Numbered s)
    (hk : s.Accepted k) (hs : s.stack main = .destroyConnections :: rest) (hj : s.Accepted j) :
    HostSteps (s.connection k).loop_ main (s.view k) (if j = k then .destroy else .other)
      (({ s with connections_ := s.connections_.erase (s.connName j) }.setStack main
        (.connection j (.runInLoop (s.connection j).loop_ .connectDestroyed) ::
          .connection j .release :: .destroyConnections :: rest)).view k) := by
  by_cases hjk : j = k
  · subst hjk
    rw [if_pos rfl]
    have hstep : HostSteps (s.connection j).loop_ main (s.view j) .destroy _ :=
      .destroy (rest.map (ServerInstr.view j)) (by simp [view, hs, ServerInstr.view])
    convert hstep using 1
    refine view_eq ?_ ?_ (fun _ => rfl) rfl rfl
    · have hgone : ¬ (AList.lookup (s.connName j)
          (s.connections_.erase (s.connName j)) = some j) := by simp
      exact congrArg (fun b => { s.shared j with inConnections := b }) (decide_eq_false hgone)
    · intro u
      simp only [setStack]
      rw [view_update]
      simp only [List.map_cons, ServerInstr.view, if_pos]
      rfl
  · rw [if_neg hjk]
    refine hostSteps_other [.destroyConnections]
      [.connection j (.runInLoop (s.connection j).loop_ .connectDestroyed),
        .connection j .release, .destroyConnections] rest hs ?_ (by simp) ?_ rfl
      (fun _ => Or.inl rfl) rfl (registered_erase hnum hk hj hjk) rfl rfl
    · intro i hi
      rw [List.mem_singleton.mp hi]
      simp [ServerInstr.owner]
    · intro i hi
      simp only [List.mem_cons, List.not_mem_nil, or_false] at hi
      rcases hi with rfl | rfl | rfl <;> simp [ServerInstr.owner, hjk]

omit [DecidableEq T] in
theorem view_setPointers (j n : ℕ) : (s.setPointers j n).view k = s.view k := by
  by_cases hj : k = j
  · subst hj
    refine view_eq ?_ (fun _ => rfl) (fun _ => rfl) ?_ ?_
    · simp only [shared, setPointers, Function.update_self]
      rfl
    · simp only [setPointers, Function.update_self]
      rfl
    · simp only [setPointers, Function.update_self]
      rfl
  · have hsame : (s.setPointers j n).connection k = s.connection k := by
      simp [setPointers, Function.update_of_ne hj]
    exact view_eq (shared_eq hsame Iff.rfl rfl rfl) (fun _ => rfl) (fun _ => rfl)
      (by rw [hsame]; rfl) (by rw [hsame]; rfl)

/-- A step of the server, as the connection sees it. -/
theorem view_step {l : ServerLabel T} (hnum : Numbered s) (hk : s.Accepted k)
    (hs : Steps main s l s') :
    (∃ hl, Matches k s l hl ∧
      HostSteps (s.connection k).loop_ main (s.view k) hl (s'.view k)) ∨
    s'.view k = s.view k := by
  cases hs with
  | run t o head j i rest c new hs hi hr =>
    left
    refine ⟨if j = k then .own (.exec t o) else .other, ?_, hostSteps_run hnum hk hs hi hr⟩
    split_ifs <;> trivial
  | own t o i rest r new hs hr =>
    exact Or.inl ⟨.other, trivial, hostSteps_own hnum hk hs hr⟩
  | queue t o loop cb rest hs =>
    left
    obtain ⟨hl, rfl | rfl, hstep⟩ := hostSteps_queue hs
    · exact ⟨.own (.exec t o), rfl, hstep⟩
    · exact ⟨.other, trivial, hstep⟩
  | wakeup t o loop rest hs =>
    exact Or.inl ⟨.own (.exec t o), rfl, .own _ _ (by simp) (steps_view_wakeup hs)⟩
  | startLoop t loop rest hs hmain hself hnew hloop hstack =>
    refine Or.inl ⟨.other, trivial, hostSteps_other [.startLoop] [] _ hs ?_
      (by simp) (by simp) rfl (fun _ => Or.inl rfl) rfl Iff.rfl rfl rfl⟩
    intro i hi
    rw [List.mem_singleton.mp hi]
    simp [ServerInstr.owner]
  | destroyNext j rest hs hj hreg =>
    left
    refine ⟨if j = k then .destroy else .other, ?_, hostSteps_destroyNext hnum hk hs hj⟩
    split_ifs with hjk
    · rw [hjk]
      rfl
    · trivial
  | control t c loop hs hreturned hd ha =>
    exact Or.inl ⟨.own (.control t c), Or.inl rfl, .own _ _ (by simp)
      (steps_view_control hk hs hd ha _)⟩
  | poll t wakeup reports accept loop hs hr hacc ha =>
    exact Or.inl (hostSteps_poll hs hr ha)
  | handleEvent j hj hs ha =>
    left
    refine ⟨if j = k then .own .handleEvent else .other, ?_, hostSteps_handleEvent hs ha⟩
    split_ifs with hjk
    · rw [hjk]
      rfl
    · trivial
  | acceptEvent hs ha =>
    refine Or.inl ⟨.other, trivial, hostSteps_acceptEvent ?_ hs⟩
    intro i hi
    obtain ⟨_, _, rfl⟩ := List.mem_map.mp hi
    rfl
  | call t c r new hu hc => exact Or.inl (hostSteps_call hu hc)
  | store t address value hu =>
    exact Or.inl ⟨.other, trivial, HostSteps.store t address value (view_codeRuns hu)⟩
  | pointers l j n hj hl => exact Or.inr (view_setPointers j n)

/-! ## From the server's runs to those of a connection -/

/-- Functors are of connections that have been accepted. -/
def HeldAccepted (s : ServerRun T) : Prop :=
  ∀ t k f, .connection k f ∈ (s.loops t).held → s.Accepted k

omit [DecidableEq T] in
theorem HeldAccepted.of_mem (h : HeldAccepted s) (hcont : Continues s s')
    (hmem : ∀ t k f, .connection k f ∈ (s'.loops t).held →
      .connection k f ∈ (s.loops t).held) : HeldAccepted s' :=
  fun t k f hf => hcont.accepted (h t k f (hmem t k f hf))

theorem heldAccepted_step {l : ServerLabel T} (h : HeldAccepted s) (hnum : Numbered s)
    (hs : Steps main s l s') : HeldAccepted s' := by
  have hcont := continues_step hs
  have hupdate : ∀ {t : T} {loop : EventLoop (ServerFunctor T)},
      (∀ f ∈ loop.held, f ∈ (s.loops t).held) → ∀ u f,
        f ∈ (Function.update s.loops t loop u).held → f ∈ (s.loops u).held := by
    intro t loop hloop u f hf
    by_cases hu : u = t
    · subst hu
      rw [Function.update_self] at hf
      exact hloop f hf
    · rwa [Function.update_of_ne hu] at hf
  cases hs with
  | queue t o loop cb rest hs =>
    intro u k f hf
    simp only [setStack, setLoop] at hf
    by_cases hu : u = loop
    · subst hu
      rw [Function.update_self, EventLoop.held_push, List.mem_append, List.mem_singleton] at hf
      rcases hf with hf | rfl
      · exact hcont.accepted (h u k f hf)
      · have hmem : .queueInLoop u (.connection k f) ∈ s.work t :=
          List.mem_append_left _ (by simp [hs])
        exact hcont.accepted (hnum.owner t _ hmem k rfl)
    · rw [Function.update_of_ne hu] at hf
      exact hcont.accepted (h u k f hf)
  | own t o i rest r new hs hr =>
    refine h.of_mem hcont ?_
    intro u k f hf
    rcases run_cases hr with ⟨sockfd, -, hnew⟩ | ⟨-, hl | ⟨loop, hl⟩, -⟩
    · obtain ⟨-, -, rfl⟩ := newConnection_eq hnew
      exact hf
    · rwa [setStack, hl] at hf
    · rw [setStack, hl] at hf
      exact hupdate (by simp [EventLoop.held]) u _ hf
  | wakeup t o loop rest hs =>
    exact h.of_mem hcont fun u k f => hupdate (by simp [EventLoop.held]) u _
  | control t c loop hs hreturned hd ha =>
    exact h.of_mem hcont fun u k f => hupdate (fun f => ha.mem_held) u _
  | poll t wakeup reports accept loop hs hr hacc ha =>
    exact h.of_mem hcont fun u k f => hupdate (fun f => ha.mem_held) u _
  | call t c r new hu hc =>
    refine h.of_mem hcont ?_
    rw [frame_of_code hc]
    exact fun _ _ _ => id
  | _ => exact h.of_mem hcont fun _ _ _ => id

theorem heldAccepted_of_reachable {Good : ServerRun T → ServerLabel T → Prop}
    (h : (system main).Reachable Good s) : HeldAccepted s := by
  apply h.invariant_of (J := Numbered) (fun _ => numbered_of_reachable)
  · intro s hinit t k f hf
    cases hinit.held t _ hf
  · intro s l s' hi hnum _ hs
    exact heldAccepted_step hi hnum (steps_of_step hs.2)

theorem hostInit_of_accept {l : ServerLabel T} (hnum : Numbered s) (hplaced : Placed main s)
    (hheld : HeldAccepted s) (hk : ¬ s.Accepted k) (hk' : s'.Accepted k)
    (hs : Steps main s l s') : HostInit (s'.connection k).loop_ main (s'.view k) := by
  have hne : s'.nextConnId_ ≠ s.nextConnId_ := by
    intro h
    exact hk ⟨hk'.1, h ▸ hk'.2⟩
  have hold : ∀ t, ∀ i ∈ s.stack t, (i.view k).foreign = true := by
    intro t i hi
    apply ServerInstr.foreign_view
    intro howner
    exact hk (hnum.owner t i (List.mem_append_left _ hi) k howner)
  cases hs with
  | own t o i rest r new hs hr =>
    rcases run_cases hr with ⟨sockfd, rfl, hnew⟩ | ⟨-, -, hr'⟩
    · obtain ⟨-, rfl, rfl⟩ := newConnection_eq hnew
      have hmain : t = main := hplaced t .handleRead (List.mem_append_left _ (by simp [hs]))
      subst hmain
      have hkeq : k = s.nextConnId_ := by
        have hlt : k < s.nextConnId_ + 1 := hk'.2
        have hge : s.nextConnId_ ≤ k := by
          by_contra hlt'
          exact hk ⟨hk'.1, by omega⟩
        omega
      subst hkeq
      set k := s.nextConnId_
      have hconn : ∀ {β : Type} (g : ServedConnection T → β),
          g ((Function.update s.connection k (.create s.threadPool_.getNextLoop.1 sockfd
            s.options.writeCompleteCallback)) k) = g (.create s.threadPool_.getNextLoop.1 sockfd
            s.options.writeCompleteCallback) := by
        intro β g
        rw [Function.update_self]
      refine ⟨⟨sockfd, s.options.writeCompleteCallback, Or.inl (hconn (·.conn))⟩, ?_,
        hconn (·.closing), hconn (·.callbacks), hconn (·.closeCallbacks), hconn (·.active), ?_,
        ?_, ?_⟩
      · exact decide_eq_true (AList.lookup_insert _)
      · refine ⟨rest.map (ServerInstr.view k), ?_, ?_⟩
        · simp [view, setStack, ServerInstr.view, ServedConnection.create]
        · intro i hi
          obtain ⟨j, hj, rfl⟩ := List.mem_map.mp hi
          exact hold t j (by simp [hs, hj])
      · intro u hu i hi
        obtain ⟨j, hj, rfl⟩ := List.mem_map.mp hi
        simp only [setStack, Function.update_of_ne hu] at hj
        exact hold u j hj
      · intro u f hf
        simp only [view, EventLoop.map_held] at hf
        obtain ⟨g, hg, rfl⟩ := List.mem_map.mp hf
        apply ServerFunctor.view_other
        rintro f rfl
        exact hk (hheld u k f hg)
    · exact absurd (by rw [hr']; rfl) hne
  | call t c r new hu hc => exact absurd (by rw [frame_of_code hc]; rfl) hne
  | _ => exact absurd rfl hne

/-- What the runs of the server are to one of its connections. -/
theorem hosted_of_reachable {Good : ServerRun T → ServerLabel T → Prop}
    {Good' : T → ConnectionRun T → HostLabel T → Prop}
    (hgood : ∀ s l s' k hl, (system main).Reachable Good s → Good s l → Steps main s l s' →
      s.Accepted k → Matches k s l hl → Good' (s.connection k).loop_ (s.view k) hl)
    (h : (system main).Reachable Good s) (hk : s.Accepted k) :
    (hosted (s.connection k).loop_ main).Reachable (Good' (s.connection k).loop_) (s.view k) := by
  revert hk
  refine h.invariant_of (J := fun s => (system main).Reachable Good s ∧ Numbered s ∧
      Placed main s ∧ HeldAccepted s)
    (I := fun s => s.Accepted k → (hosted (s.connection k).loop_ main).Reachable
      (Good' (s.connection k).loop_) (s.view k)) ?_ ?_ ?_
  · intro s h
    exact ⟨h, numbered_of_reachable h, placed_of_reachable h, heldAccepted_of_reachable h⟩
  · intro s hinit hk
    have hid := hinit.nextConnId
    have hlt := hk.2
    have hpos := hk.1
    omega
  · intro s l s' ih ⟨hr, hnum, hplaced, hheld⟩ hg hs hk'
    have hsteps := steps_of_step hs.2
    by_cases hk : s.Accepted k
    · rw [(continues_step hsteps).loop k hk]
      rcases view_step hnum hk hsteps with ⟨hl, hmatch, hstep⟩ | hsame
      · exact .step (ih hk) (hgood s l s' k hl hr hg hsteps hk hmatch) hstep
      · rw [hsame]
        exact ih hk
    · exact .init (hostInit_of_accept hnum hplaced hheld hk hk' hsteps)

end ServerRun
end MuduoCore
