import FreewpcSched.Proofs.Dispatch

/-!
# A stored task never moves

`add_task` places a task once, when it is read, and never revisits the
placement: every later call appends its own slots behind those already in
each tick, and its task behind those already in the table (`Extends`). The
table keeps its 8 ticks once it has a task. So the start `b` a task was
given is the start it has in every later table (`Placed.of_extends`), and a
placement fixes when the task runs (`Inv.task_calls_of_placed`).

Over the argument loop of `main` this means that whatever the rest of the
command line adds, files or options, the program written at the end calls
each task read so far at the same interrupts as a program written from the
table at that point would (`mainLoop_keeps_calls`), as long as neither
program has a task named like one of its own symbols: adding a schedule file
never shifts the tasks of the files before it.
-/

namespace FreewpcSched

/-- `s'` keeps the tasks of `s` and the slots of each of its ticks, in
order, with possibly more behind them. -/
def Extends (s s' : Sched) : Prop :=
  s.tasks <+: s'.tasks ∧ ∀ i, (s.ticks i).slots <+: (s'.ticks i).slots

theorem Extends.refl (s : Sched) : Extends s s :=
  ⟨List.prefix_refl _, fun _ => List.prefix_refl _⟩

theorem Extends.trans {s₁ s₂ s₃ : Sched} (h₁ : Extends s₁ s₂) (h₂ : Extends s₂ s₃) :
    Extends s₁ s₃ :=
  ⟨h₁.1.trans h₂.1, fun i => (h₁.2 i).trans (h₂.2 i)⟩

/-- One call of `add_task` extends the table it is given. -/
theorem addTask_extends {o : Options} {s s' : Sched} {lead : Nat} {name : List Char}
    {period : Nat} {len : Binary64} (hs : Inv s) (hP : period &&& (period - 1) = 0)
    (h : addTask o s lead name period len = .ok s') : Extends s s' := by
  refine ⟨?_, (inv_step hs hP h).2⟩
  rcases addTask_tasks hs hP h with htasks | ⟨T, -, -, htasks⟩
  · rw [htasks]
  · rw [htasks]; exact List.prefix_append _ _

theorem parseLine_extends {s₀ : Sched} {o : Options} {s s' : Sched} {line : List Char}
    (hs : Reachable s ∧ Extends s₀ s) (h : parseLine o s line = .ok s') :
    Reachable s' ∧ Extends s₀ s' := by
  refine ⟨parseLine_reachable hs.1 h, ?_⟩
  rcases parseLine_ok h with rfl | ⟨lead, name, period, len, hP, -, hadd⟩
  · exact hs.2
  · exact hs.2.trans (addTask_extends hs.1.inv hP hadd)

/-- The argument loop of `main` extends the table it starts from. -/
theorem mainLoop_extends {files : List Char → Option (List Char)} {args : List (List Char)}
    {o o' : Options} {s s' : Sched} (hs : Reachable s)
    (h : mainLoop files args o s = .ok (o', s')) : Reachable s' ∧ Extends s s' :=
  mainLoop_invariant (fun x => Reachable x ∧ Extends s x) parseLine_extends args o s
    ⟨hs, .refl s⟩ h

theorem Sched.task_of_prefix {s s' : Sched} (h : s.tasks <+: s'.tasks) {t : Nat}
    (ht : t < s.tasks.length) : s'.task t = s.task t := by
  obtain ⟨l, hl⟩ := h
  simp [Sched.task, ← hl, List.getElem?_append_left ht]

/-- A table that extends a placed task's keeps it at the same start: the
slot at tick `b` is still there, and a placement has one tick in `[0, P)`. -/
theorem Placed.of_extends {s s' : Sched} (hs' : Inv s') (hN : s'.nTicks = s.nTicks)
    (hext : Extends s s') {t b : Nat} (ht : t < s.tasks.length)
    (hb : b < min (s.task t).period s.nTicks) (hp : Placed s t b) : Placed s' t b := by
  have htask := Sched.task_of_prefix hext.1 ht
  obtain ⟨-, -, -, b', -, hp'⟩ := hs'.task t (lt_of_lt_of_le ht hext.1.length_le)
  have hbP : b % (s.task t).period = b := Nat.mod_eq_of_lt (lt_of_lt_of_le hb (min_le_left _ _))
  have hbN : b < s.nTicks := lt_of_lt_of_le hb (min_le_right _ _)
  have hpre := (hext.2 b).filter fun sl => decide (sl.task = t)
  rw [hp b hbN, if_pos hbP, hp' b (hN ▸ hbN), htask] at hpre
  split_ifs at hpre with hb'
  · rw [hbP] at hb'
    subst hb'
    exact hp'
  · exact absurd hpre.length_le (by simp)

/-- Whatever the rest of the command line adds, the program `main` writes
at the end calls every task stored so far at the same interrupts, as many
times, as the program written from the table at that point. -/
theorem mainLoop_keeps_calls {files : List Char → Option (List Char)} {args : List (List Char)}
    {o o' : Options} {s s' : Sched} (hs : Reachable s)
    (h : mainLoop files args o s = .ok (o', s')) (hc : NoCollision o s)
    (hc' : NoCollision o' s') {t : Nat} (ht : t < s.tasks.length) (k : Nat) :
    (callsAt (writeTickDriver o' s') o'.pfx k).map (fun cs => (cs.filter (·.task = t)).length) =
      (callsAt (writeTickDriver o s) o.pfx k).map (fun cs => (cs.filter (·.task = t)).length) := by
  have hinv := hs.inv
  obtain ⟨hs', hext⟩ := mainLoop_extends hs h
  have ht' := lt_of_lt_of_le ht hext.1.length_le
  have h8 : s.nTicks = 8 := hinv.nTicks_eq.resolve_right fun h => by simp [h.2] at ht
  have h8' : s'.nTicks = 8 := hs'.inv.nTicks_eq.resolve_right fun h => by simp [h.2] at ht'
  obtain ⟨-, -, -, b, hb, hp⟩ := hinv.task t ht
  have htask := Sched.task_of_prefix hext.1 ht
  have hp' := Placed.of_extends hs'.inv (h8'.trans h8.symm) hext ht hb hp
  rw [callsAt_eq hc' (by omega), callsAt_eq hc (by omega), Option.map_some', Option.map_some',
    hinv.task_calls_of_placed ht hb hp,
    hs'.inv.task_calls_of_placed ht' (by rw [htask, h8']; exact h8 ▸ hb) hp', htask]

set_option maxRecDepth 20000 in
/-- A task of period 2 read from a first file, and a second file adding
another of period 2 beside it. -/
theorem mainLoop_keeps_calls_ab_cd :
    ∃ o₁ s₁ o₂ s₂,
      mainLoop (fun _ => some "ab 2 0.5\n".toList) ["a".toList] .default initSchedule =
        .ok (o₁, s₁) ∧
      mainLoop (fun _ => some "cd 2 0.25\n".toList) ["b".toList] o₁ s₁ = .ok (o₂, s₂) ∧
      NoCollision o₁ s₁ ∧ NoCollision o₂ s₂ ∧ 0 < s₁.tasks.length ∧ ∀ k,
        (callsAt (writeTickDriver o₂ s₂) o₂.pfx k).map (fun cs => (cs.filter (·.task = 0)).length) =
          (callsAt (writeTickDriver o₁ s₁) o₁.pfx k).map
            (fun cs => (cs.filter (·.task = 0)).length) :=
  ⟨_, _, _, _, rfl, rfl, by decide, by decide, by decide,
    @mainLoop_keeps_calls (fun _ => some "cd 2 0.25\n".toList) ["b".toList] _ _ _ _
      (@mainLoop_reachable (fun _ => some "ab 2 0.5\n".toList) ["a".toList] .default
        initSchedule _ _ .init rfl) rfl (by decide) (by decide) 0 (by decide)⟩

end FreewpcSched
