import FreewpcSched.Proofs.Pow2
import FreewpcSched.Target.Exec

/-!
# What one handler does

A handler body is the divider groups in ascending order, the braces that
close the blocks they opened, and the tail that bumps the divider and names
the successor. The groups run with a stack of block flags: a group whose
block is opened pushes the flag of its guard, and its slots run when every
flag on the stack is set.

The blocks nest instead of being closed one by one, so the slots of divider
`d` run under the guards of every smaller divider that has slots too. That
changes nothing: the dividers are powers of two each dividing the next, so
`v & (d - 1) = 0`, which says `d ∣ v`, implies the guard of every divider
below. One group then runs its slots exactly when its own guard holds
(`execBody_dividerGroups`), and the whole body makes the calls of the slots
whose guard holds, grouped by ascending divider and in slot order inside a
group (`execBody_handlerBody`).
-/

namespace FreewpcSched

/-- The call that the line of slot `sl` makes in handler `n`. -/
def slotCall (s : Sched) (n : Nat) (sl : Slot) : Call := ⟨callName n (s.task sl.task), sl.task⟩

/-- The slots of handler `n` with divider `d`, in slot order. -/
def Sched.slotsWith (s : Sched) (n d : Nat) : List Slot := (s.ticks n).slots.filter (·.divider = d)

/-! ## Running lines -/

@[simp] theorem execBody_nil (r : Run) : execBody [] r = r := rfl

@[simp] theorem execBody_cons (l : CLine) (body : List CLine) (r : Run) :
    execBody (l :: body) r = execBody body (r.step l) := rfl

theorem execBody_append (a b : List CLine) (r : Run) :
    execBody (a ++ b) r = execBody b (execBody a r) := List.foldl_append _ _ _ _

@[simp] theorem Run.step_blank (r : Run) : r.step .blank = r := by simp [Run.step, Run.exec]

@[simp] theorem Run.step_declare (r : Run) (name : List Char) : r.step (.declare name) = r := by
  simp [Run.step, Run.exec]

@[simp] theorem Run.step_timeComment (r : Run) (len : Binary64) : r.step (.timeComment len) = r := by
  simp [Run.step, Run.exec]

@[simp] theorem Run.step_call (r : Run) (name : List Char) (t : Nat) (len : Binary64) :
    r.step (.call name t len) = { r with calls := r.calls ++ if r.active then [⟨name, t⟩] else [] } := by
  cases h : r.active <;> simp [Run.step, Run.exec, h]

@[simp] theorem Run.step_ifDivider (r : Run) (pfx : List Char) (m : Nat) :
    r.step (.ifDivider pfx m) = if r.active then { r with cond := r.divider &&& m = 0 } else r := rfl

@[simp] theorem Run.step_incDivider (r : Run) (pfx : List Char) :
    r.step (.incDivider pfx) =
      if r.active then { r with divider := (r.divider + 1) % 256 } else r := rfl

@[simp] theorem Run.step_setFunction (r : Run) (pfx : List Char) (n : Nat) :
    r.step (.setFunction pfx n) = if r.active then { r with function := some n } else r := rfl

@[simp] theorem Run.step_clearDivider (r : Run) (pfx : List Char) :
    r.step (.clearDivider pfx) = if r.active then { r with divider := 0 } else r := rfl

@[simp] theorem Run.step_blockBegin (r : Run) :
    r.step .blockBegin = { r with blocks := r.cond :: r.blocks, cond := true } := rfl

@[simp] theorem Run.step_blockEnd (r : Run) : r.step .blockEnd = { r with blocks := r.blocks.tail } := rfl

/-- A slot's lines append its call when the point they stand at runs. -/
theorem execBody_slotLines (s : Sched) (n : Nat) (sl : Slot) (r : Run) :
    execBody (slotLines s n sl) r =
      { r with calls := r.calls ++ if r.active then [slotCall s n sl] else [] } := by
  by_cases hb : (s.task sl.task).name.head? = some '!' <;> simp [slotLines, hb, slotCall]

theorem execBody_flatMap_slotLines (s : Sched) (n : Nat) :
    ∀ (slots : List Slot) (r : Run), execBody (slots.flatMap (slotLines s n)) r =
      { r with calls := r.calls ++ if r.active then slots.map (slotCall s n) else [] }
  | [], r => by simp
  | sl :: slots, r => by
    rw [List.flatMap_cons, execBody_append, execBody_slotLines,
      execBody_flatMap_slotLines s n slots]
    cases h : r.active <;> simp [Run.active, h] <;> simp_all [Run.active]

/-- The closing braces pop one flag each. -/
theorem execBody_replicate_blockEnd : ∀ (k : Nat) (r : Run),
    execBody (List.replicate k .blockEnd) r = { r with blocks := r.blocks.drop k }
  | 0, r => rfl
  | k + 1, r => by
    rw [List.replicate_succ, execBody_cons, execBody_replicate_blockEnd k, Run.step_blockEnd,
      List.drop_tail]

/-! ## The divider groups -/

@[simp] theorem Run.active_mk (bl : List Bool) (c : Bool) (cs : List Call) (v : Nat)
    (f : Option Nat) : (Run.mk bl c cs v f).active = bl.all id := rfl

@[simp] theorem Run.blocks_all (r : Run) : r.blocks.all id = r.active := rfl

/-- One divider group, entered with no `if` pending, the divider at `v`, and
at a point that runs if `d ∣ v`: its slots run exactly when `d ∣ v`, and an
opened block leaves one flag, set if `d ∣ v`. -/
theorem execBody_dividerGroup (o : Options) (s : Sched) (n d v : Nat) (r : Run)
    (hc : r.cond = true) (hv : r.divider = v) (hd : d.isPowerOfTwo)
    (hrun : d ∣ v → r.active = true) :
    ∃ fl : List Bool, fl.length = (if 1 < d ∧ s.slotsWith n d ≠ [] then 1 else 0) ∧
      (d ∣ v → fl.all id = true) ∧
      execBody (dividerGroup o s n d) r =
        { r with
          blocks := fl ++ r.blocks
          calls := r.calls ++ if d ∣ v then (s.slotsWith n d).map (slotCall s n) else [] } := by
  have hguard : r.divider &&& (d - 1) = 0 ↔ d ∣ v := hv ▸ land_pred_eq_zero_iff_dvd _ hd
  unfold dividerGroup
  rw [execBody_append, ← Sched.slotsWith]
  split
  · rename_i hopen
    refine ⟨[!r.active || decide (r.divider &&& (d - 1) = 0)], by simp [hopen], fun hdv => ?_, ?_⟩
    · simp [hrun hdv, hguard.2 hdv]
    · rw [execBody_flatMap_slotLines]
      by_cases hdv : d ∣ v
      · simp [hrun hdv, hguard.2 hdv, hdv, hc]
      · have : ¬ r.divider &&& (d - 1) = 0 := mt hguard.1 hdv
        cases ha : r.active <;> simp [ha, this, hdv, hc]
  · rename_i hclosed
    refine ⟨[], by simp [hclosed], fun _ => rfl, ?_⟩
    rw [execBody_nil, execBody_flatMap_slotLines]
    by_cases hdv : d ∣ v
    · simp [hrun hdv, hdv]
    · -- a divider that does not divide `v` is above 1, so its group is empty
      have hd1 : 1 < d := by
        obtain ⟨k, rfl⟩ := hd
        rcases k with _ | k
        · exact absurd (one_dvd v) hdv
        · exact Nat.one_lt_two_pow (Nat.succ_ne_zero k)
      have hnil : s.slotsWith n d = [] := by simpa [hd1] using hclosed
      simp [hnil]

/-- The divider groups over ascending dividers `ds`, each dividing the next,
entered with no `if` pending and the divider at `v`: the slots of divider
`d` run exactly when `d ∣ v`, and each opened block leaves one flag. Where
the groups start at a point that does not run, no divider of `ds` divides
`v`: an earlier guard failed, and it divides all of them. -/
theorem execBody_dividerGroups (o : Options) (s : Sched) (n v : Nat) :
    ∀ (ds : List Nat) (r : Run), ds.Pairwise (· ∣ ·) → (∀ d ∈ ds, d.isPowerOfTwo) →
      r.cond = true → r.divider = v → (r.active = true ∨ ∀ d ∈ ds, ¬ d ∣ v) →
      ∃ fl : List Bool, fl.length = (ds.filter fun d => 1 < d ∧ s.slotsWith n d ≠ []).length ∧
        execBody (ds.flatMap (dividerGroup o s n)) r =
          { r with
            blocks := fl ++ r.blocks
            calls := r.calls ++ ds.flatMap fun d =>
              if d ∣ v then (s.slotsWith n d).map (slotCall s n) else [] }
  | [], r, _, _, _, _, _ => ⟨[], rfl, by simp⟩
  | d :: ds, r, hpw, hpow, hc, hv, hact => by
    obtain ⟨hdiv, hpw⟩ := List.pairwise_cons.1 hpw
    have hrun : d ∣ v → r.active = true := fun hdv =>
      hact.resolve_right fun h => h d (List.mem_cons_self _ _) hdv
    obtain ⟨fl₀, hlen₀, hall₀, heq₀⟩ :=
      execBody_dividerGroup o s n d v r hc hv (hpow d (List.mem_cons_self _ _)) hrun
    -- after the group: it runs if `d ∣ v`, and otherwise no later divider divides `v`
    have hnext : (fl₀.all id && r.active) = true ∨ ∀ d' ∈ ds, ¬ d' ∣ v := by
      by_cases hdv : d ∣ v
      · simp [hall₀ hdv, hrun hdv]
      · exact .inr fun d' hd' h' => hdv ((hdiv d' hd').trans h')
    obtain ⟨fl, hlen, heq⟩ := execBody_dividerGroups o s n v ds
      { r with
        blocks := fl₀ ++ r.blocks
        calls := r.calls ++ if d ∣ v then (s.slotsWith n d).map (slotCall s n) else [] }
      hpw (fun d' h => hpow d' (List.mem_cons_of_mem _ h)) hc hv
      (by simpa using hnext)
    refine ⟨fl ++ fl₀, ?_, ?_⟩
    · rw [List.length_append, hlen, hlen₀, List.filter_cons]
      by_cases hop : 1 < d ∧ s.slotsWith n d ≠ []
      · rw [if_pos hop, if_pos (decide_eq_true hop), List.length_cons]
      · rw [if_neg hop, if_neg (mt of_decide_eq_true hop), Nat.add_zero]
    · rw [List.flatMap_cons, execBody_append, heq₀, heq]
      simp

/-! ## A whole handler -/

/-- The calls handler `n` makes with the divider at `v`: divider by divider
in ascending order, the slots whose divider divides `v`, each group in slot
order. -/
def handlerCalls (s : Sched) (n v : Nat) : List Call :=
  (dividerLoop s.maxDivider).flatMap fun d =>
    if d ∣ v then (s.slotsWith n d).map (slotCall s n) else []

theorem isPowerOfTwo_of_mem_dividerLoop {m d : Nat} (h : d ∈ dividerLoop m) : d.isPowerOfTwo :=
  let ⟨⟨j, _, hj⟩, _⟩ := mem_dividerLoop.1 h
  ⟨j, hj⟩

/-- Handler `n` entered with the divider at `v` and the pointer at `f`: the
calls of `handlerCalls`, every block closed again, the divider bumped in the
last handler when some divider is in use, and the successor stored when
there is more than one handler. -/
theorem execBody_handlerBody (o : Options) (s : Sched) (n v : Nat) (f : Option Nat) :
    execBody (handlerBody o s n) (.start v f) =
      { blocks := [], cond := true, calls := handlerCalls s n v,
        divider := if n = s.nTicks - 1 ∧ 1 < s.maxDivider then (v + 1) % 256 else v,
        function := if 1 < s.nTicks then some ((n + 1) % s.nTicks) else f } := by
  obtain ⟨fl, hlen, heq⟩ := execBody_dividerGroups o s n v (dividerLoop s.maxDivider) (.start v f)
    (dividerLoop_pairwise _) (fun _ => isPowerOfTwo_of_mem_dividerLoop) rfl rfl (.inl rfl)
  have hopen : openedBlocks s n = fl.length := hlen.symm
  unfold handlerBody
  rw [execBody_append, execBody_append, execBody_append, execBody_append, heq, hopen,
    execBody_replicate_blockEnd]
  split_ifs <;> simp [Run.start, handlerCalls]

/-! ## The calls as slots -/

/-- Taking the slots of each divider in turn, over dividers that cover every
slot once, only reorders the slots. -/
theorem flatMap_filter_divider_perm :
    ∀ (ds : List Nat) (l : List Slot), ds.Nodup → (∀ sl ∈ l, sl.divider ∈ ds) →
      (ds.flatMap fun d => l.filter fun sl => sl.divider = d).Perm l
  | [], l, _, h => by
    rw [show l = [] from List.eq_nil_iff_forall_not_mem.2 fun sl hsl => by simpa using h sl hsl]
    rfl
  | d :: ds, l, hnd, h => by
    obtain ⟨hd, hnd⟩ := List.nodup_cons.1 hnd
    have ih := flatMap_filter_divider_perm ds (l.filter fun sl => !decide (sl.divider = d)) hnd
      fun sl hsl => by
        obtain ⟨hl, hne⟩ := List.mem_filter.1 hsl
        exact (List.mem_cons.1 (h sl hl)).resolve_left (by simpa using hne)
    -- the later dividers see only the slots the first one left
    have hrest : (ds.flatMap fun d' => l.filter fun sl => sl.divider = d') =
        ds.flatMap fun d' => (l.filter fun sl => !decide (sl.divider = d)).filter
          fun sl => sl.divider = d' :=
      List.flatMap_congr fun d' hd' => by
        rw [List.filter_filter]
        exact List.filter_congr fun sl _ => by
          by_cases e : sl.divider = d' <;> simp [e, show d' ≠ d from fun e => hd (e ▸ hd')]
    rw [List.flatMap_cons, hrest]
    exact (ih.append_left _).trans (List.filter_append_perm _ _)

/-- The same with a guard on the divider: the slots whose divider passes it,
reordered. -/
theorem flatMap_filter_perm (p : Nat → Bool) (ds : List Nat) (l : List Slot) (hnd : ds.Nodup)
    (h : ∀ sl ∈ l, sl.divider ∈ ds) :
    (ds.flatMap fun d => l.filter fun sl => sl.divider = d ∧ p d).Perm
      (l.filter fun sl => p sl.divider) := by
  have heq : (ds.flatMap fun d => l.filter fun sl => sl.divider = d ∧ p d) =
      ds.flatMap fun d => (l.filter fun sl => p sl.divider).filter fun sl => sl.divider = d :=
    List.flatMap_congr fun d _ => by
      rw [List.filter_filter]
      exact List.filter_congr fun sl _ => by by_cases e : sl.divider = d <;> simp [e, and_comm]
  rw [heq]
  exact flatMap_filter_divider_perm ds _ hnd fun sl hsl => h sl (List.mem_filter.1 hsl).1

/-- The calls in the terms of the emitted guards: divider by divider in
ascending order, the slots of that divider for which `v & (d - 1) = 0`, in
slot order. -/
theorem handlerCalls_eq (s : Sched) (n v : Nat) :
    handlerCalls s n v = ((dividerLoop s.maxDivider).flatMap fun d =>
      (s.ticks n).slots.filter fun sl => sl.divider = d ∧ v &&& (d - 1) = 0).map (slotCall s n) := by
  rw [handlerCalls, List.map_flatMap]
  refine List.flatMap_congr fun d hd => ?_
  by_cases hdv : d ∣ v
  · have hg := (land_pred_eq_zero_iff_dvd v (isPowerOfTwo_of_mem_dividerLoop hd)).2 hdv
    simp [hdv, hg, Sched.slotsWith]
  · have hg := mt (land_pred_eq_zero_iff_dvd v (isPowerOfTwo_of_mem_dividerLoop hd)).1 hdv
    simp [hdv, hg]

/-- A power of two up to 128 is one of the dividers the loop visits. -/
theorem mem_dividerLoop_of_le {m d : Nat} (hd : d.isPowerOfTwo) (hle : d ≤ m) (hm : m ≤ 128) :
    d ∈ dividerLoop m := by
  obtain ⟨j, rfl⟩ := hd
  refine mem_dividerLoop.2 ⟨⟨j, ?_, rfl⟩, hle⟩
  by_contra hj
  have := Nat.pow_le_pow_right (show 0 < 2 by omega) (Nat.le_of_not_lt hj)
  omega

/-- Where every divider of the tick is a power of two up to `max_divider`,
the handler calls each slot whose guard holds once, and no other. -/
theorem handlerCalls_perm {s : Sched} {n : Nat} (hmax : s.maxDivider ≤ 128)
    (hdiv : ∀ sl ∈ (s.ticks n).slots, sl.divider.isPowerOfTwo ∧ sl.divider ≤ s.maxDivider)
    (v : Nat) :
    (handlerCalls s n v).Perm
      (((s.ticks n).slots.filter fun sl => v &&& (sl.divider - 1) = 0).map (slotCall s n)) := by
  rw [handlerCalls_eq]
  refine List.Perm.map _ ?_
  simpa using flatMap_filter_perm (fun d => decide (v &&& (d - 1) = 0)) _ _
    (dividerLoop_nodup _) fun sl hsl => mem_dividerLoop_of_le (hdiv sl hsl).1 (hdiv sl hsl).2 hmax

end FreewpcSched
