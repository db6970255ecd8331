import FreewpcSched.Proofs.Handler
import FreewpcSched.Code.Main

/-!
# The generated file

`writeTickDriver` prints a header, the prototypes, one definition per tick,
the driver and `<prefix>_init`. A function is found by its first line and the
brace that matches the one after it. Inside a handler the groups open blocks
and close none, the closing braces follow, and the tail has no brace, so the
matching brace is the one `handlerDef` prints after the body
(`funcBody_handler`). The same count of braces makes the whole file balanced.

A call line runs the function its name names. The tasks are functions
outside the file, unless a task is named like one of the file's own symbols;
where none is (`NoCollision`), every call of a handler leaves the file and
only its record remains, so a handler runs as `execBody` runs it
(`runBody_handlerBody`). With every handler found, one interrupt of the
generated program is then one run of `handlerBody`: its calls are
`handlerCalls`, and it leaves the successor handler and the bumped divider
(`interrupt_handler`).
-/

namespace FreewpcSched

/-! ## Passing over lines -/

/-- A part with no closing brace is passed over; its opening braces deepen the
search for the closing one. -/
theorem takeBlock_append {l : List CLine} (hl : .blockEnd ∉ l) (d : Nat) (rest : List CLine) :
    takeBlock d (l ++ rest) = (l ++ ·) <$> takeBlock (d + l.count .blockBegin) rest := by
  induction l generalizing d with
  | nil => simp
  | cons x l ih =>
    have hx : x ≠ .blockEnd := fun h => hl (h ▸ List.mem_cons_self _ _)
    rw [List.cons_append, takeBlock, if_neg hx, ih (fun h => hl (List.mem_cons_of_mem _ h))]
    by_cases hb : x = .blockBegin
    · subst hb; simp [Nat.add_assoc, Nat.add_comm 1, Function.comp_def]
    · simp [List.count_cons, hb, Function.comp_def]

theorem takeBlock_replicate (k d : Nat) (rest : List CLine) :
    takeBlock (d + k) (List.replicate k .blockEnd ++ rest) =
      (List.replicate k .blockEnd ++ ·) <$> takeBlock d rest := by
  induction k with
  | zero => simp
  | succ k ih =>
    rw [List.replicate_succ, List.cons_append, takeBlock, if_pos rfl, if_neg (by omega),
      show d + (k + 1) - 1 = d + k by omega, ih]
    simp [Function.comp_def]

theorem funcBody_append {head : CLine} {pre : List CLine} (h : head ∉ pre) (rest : List CLine) :
    funcBody head (pre ++ rest) = funcBody head rest := by
  induction pre with
  | nil => rfl
  | cons x pre ih =>
    rw [List.cons_append, funcBody, if_neg fun e : x = head => h (e ▸ List.mem_cons_self _ _),
      ih fun h' => h (List.mem_cons_of_mem _ h')]

theorem funcBody_head (head : CLine) (body : List CLine) :
    funcBody head (head :: .blockBegin :: body) = takeBlock 0 body := by
  simp [funcBody]

/-! ## The handlers -/

theorem blockEnd_not_mem_groups (o : Options) (s : Sched) (n : Nat) (ds : List Nat) :
    .blockEnd ∉ ds.flatMap (dividerGroup o s n) := by
  simp [dividerGroup, slotLines]

theorem count_blockBegin_groups (o : Options) (s : Sched) (n : Nat) :
    ∀ ds : List Nat, (ds.flatMap (dividerGroup o s n)).count .blockBegin =
      (ds.filter fun d => 1 < d ∧ s.slotsWith n d ≠ []).length
  | [] => rfl
  | d :: ds => by
    have hslots : ((s.slotsWith n d).flatMap (slotLines s n)).count .blockBegin = 0 :=
      List.count_eq_zero.2 (by simp [slotLines])
    rw [List.flatMap_cons, List.count_append, count_blockBegin_groups o s n ds, List.filter_cons]
    unfold dividerGroup
    rw [List.count_append, ← Sched.slotsWith, hslots]
    by_cases hop : 1 < d ∧ s.slotsWith n d ≠ []
    · rw [if_pos hop, if_pos (decide_eq_true hop)]; simp [Nat.add_comm]
    · rw [if_neg hop, if_neg (mt of_decide_eq_true hop)]; simp

/-- The brace after a handler's body is the one that closes it. -/
theorem takeBlock_handlerBody (o : Options) (s : Sched) (n : Nat) (rest : List CLine) :
    takeBlock 0 (handlerBody o s n ++ .blockEnd :: rest) = some (handlerBody o s n) := by
  have hopen : ((dividerLoop s.maxDivider).flatMap (dividerGroup o s n)).count .blockBegin =
      openedBlocks s n := count_blockBegin_groups o s n _
  unfold handlerBody
  simp only [List.append_assoc]
  rw [takeBlock_append (blockEnd_not_mem_groups o s n _), hopen, takeBlock_replicate,
    takeBlock_append (by split_ifs <;> simp)]
  split_ifs <;> simp [takeBlock]

theorem handlerHead_not_mem_handlerBody (o : Options) (s : Sched) (n : Nat) (pfx : List Char)
    (k : Nat) : .handlerHead pfx k ∉ handlerBody o s n := by
  simp [handlerBody, dividerGroup, slotLines]

/-- The handlers before handler `n` do not define it. -/
theorem handlerHead_not_mem_handlers (o : Options) (s : Sched) (n : Nat) :
    .handlerHead o.pfx n ∉ (List.range n).flatMap (handlerDef o s) := by
  simp only [List.mem_flatMap, List.mem_range, handlerDef, List.mem_append, List.mem_cons,
    CLine.handlerHead.injEq, not_exists, not_and]
  rintro m hm (⟨-, rfl⟩ | h | h | h | h)
  · omega
  all_goals simp_all [handlerHead_not_mem_handlerBody]

theorem funcBody_of_prefix {head : CLine} {pre : List CLine} (h : head ∉ pre)
    (body : List CLine) : funcBody head (pre ++ head :: .blockBegin :: body) = takeBlock 0 body := by
  rw [funcBody_append h, funcBody_head]

/-- Handler `n` of the table is found, with its whole body. -/
theorem funcBody_handler {o : Options} {s : Sched} {n : Nat} (hn : n < s.nTicks) :
    funcBody (.handlerHead o.pfx n) (writeTickDriver o s) = some (handlerBody o s n) := by
  obtain ⟨k, hk⟩ : ∃ k, s.nTicks = n + 1 + k := ⟨s.nTicks - (n + 1), by omega⟩
  have hsplit : writeTickDriver o s =
      ([.comment "Automatically generated by gensched".toList, .functionVar o.pfx, .blank,
        .dividerVar o.pfx] ++ o.includes.map .include ++ [.blank, .blank] ++
        (List.range s.nTicks).map (.prototype o.pfx) ++ [.blank] ++
        (List.range n).flatMap (handlerDef o s)) ++
      .handlerHead o.pfx n :: .blockBegin :: (handlerBody o s n ++ .blockEnd :: (.blank ::
        ((List.range k).map (n + 1 + ·)).flatMap (handlerDef o s) ++ driverDef o.pfx ++
          initDef o.pfx)) := by
    simp [writeTickDriver, hk, List.range_add, List.range_succ, handlerDef]
  rw [hsplit, funcBody_of_prefix, takeBlock_handlerBody]
  simpa using handlerHead_not_mem_handlers o s n

/-- `<prefix>_init` is found, after everything else. -/
theorem funcBody_init (o : Options) (s : Sched) :
    funcBody (.initHead o.pfx) (writeTickDriver o s) =
      some [.setFunction o.pfx 0, .clearDivider o.pfx] := by
  rw [writeTickDriver, funcBody_append (by simp [handlerDef, handlerBody, dividerGroup, slotLines,
    driverDef])]
  simp [initDef, funcBody, takeBlock]

/-! ## Calls that leave the file -/

/-- Whether `name` is one of the symbols of a generated file with `n`
handlers: `<prefix>_<j>` for `j < n` as `"%s_%d"` prints it, `<prefix>_init`,
`<prefix>_driver`, `<prefix>_function` or `<prefix>_divider`. -/
def fileSymbol (pfx : List Char) (n : Nat) (name : List Char) : Bool :=
  [pfx ++ "_init".toList, pfx ++ "_driver".toList, pfx ++ "_function".toList,
      pfx ++ "_divider".toList].contains name ||
    (List.range n).any fun j => name == pfx ++ '_' :: (showUnsignedAsInt j).toList

/-- No call site of the table names one of the generated file's own symbols. -/
def NoCollision (o : Options) (s : Sched) : Prop :=
  ∀ n < s.nTicks, ∀ sl ∈ (s.ticks n).slots,
    fileSymbol o.pfx s.nTicks (callName n (s.task sl.task)) = false

instance (o : Options) (s : Sched) : Decidable (NoCollision o s) :=
  inferInstanceAs (Decidable (∀ n < s.nTicks, ∀ sl ∈ (s.ticks n).slots,
    fileSymbol o.pfx s.nTicks (callName n (s.task sl.task)) = false))

theorem Run.stepIn_of_external {prog : List CLine} {pfx : List Char}
    {sub : List CLine → Run → Option Run} (r : Run) {l : CLine}
    (hl : ∀ name t len, l = .call name t len → resolve prog pfx name = .external) :
    r.stepIn prog pfx sub l = some (r.step l) := by
  cases l with
  | call name t len => cases h : r.active <;> simp [Run.stepIn, Run.call, hl name t len rfl, h]
  | _ => rfl

/-- A body whose calls all leave the file runs as `execBody` runs it, at any
depth. -/
theorem runBody_of_external {prog : List CLine} {pfx : List Char} {body : List CLine}
    (h : ∀ name t len, .call name t len ∈ body → resolve prog pfx name = .external)
    (depth : Nat) (r : Run) : runBody prog pfx depth body r = some (execBody body r) := by
  suffices ∀ sub r, body.foldlM (Run.stepIn prog pfx sub) r = some (execBody body r) by
    cases depth <;> exact this _ r
  induction body with
  | nil => exact fun _ _ => rfl
  | cons l body ih =>
    intro sub r
    rw [List.foldlM_cons, Run.stepIn_of_external r fun name t len e =>
      h name t len (e ▸ List.mem_cons_self _ _)]
    exact ih (fun name t len hm => h name t len (List.mem_cons_of_mem _ hm)) sub _

/-- Every call line of a handler is the call site of one of its slots. -/
theorem callSite_handlerBody {o : Options} {s : Sched} {n : Nat} {name : List Char} {t : Nat}
    {len : Binary64} (h : .call name t len ∈ handlerBody o s n) :
    ∃ sl ∈ (s.ticks n).slots, name = callName n (s.task sl.task) := by
  simp [handlerBody, dividerGroup, slotLines] at h
  obtain ⟨-, -, sl, ⟨hsl, -⟩, rfl, -⟩ := h
  exact ⟨sl, hsl, rfl⟩

/-- Every call line and `extern` declaration of the generated file names the
call site of a slot of a handler below `n_ticks`. -/
theorem callSite_writeTickDriver {o : Options} {s : Sched} {name : List Char}
    (h : .declare name ∈ writeTickDriver o s ∨ ∃ t len, .call name t len ∈ writeTickDriver o s) :
    ∃ n < s.nTicks, ∃ sl ∈ (s.ticks n).slots, name = callName n (s.task sl.task) := by
  simp [writeTickDriver, handlerDef, handlerBody, dividerGroup, slotLines, driverDef,
    initDef] at h
  rcases h with ⟨n, hn, -, -, sl, ⟨hsl, -⟩, -, rfl⟩ | ⟨-, -, n, hn, -, -, sl, ⟨hsl, -⟩, rfl, -⟩
  all_goals exact ⟨n, hn, sl, hsl, rfl⟩

/-- The functions the generated file defines are among its own symbols. -/
theorem fileSymbol_of_defines {o : Options} {s : Sched} {l : CLine}
    (hl : l ∈ writeTickDriver o s) {name : List Char} (h : l.defines = some name) :
    fileSymbol o.pfx s.nTicks name = true := by
  cases l <;> simp only [CLine.defines, reduceCtorEq, Option.some.injEq] at h <;> subst h <;>
    simp [writeTickDriver, handlerDef, handlerBody, dividerGroup, slotLines, driverDef,
      initDef] at hl
  case handlerHead n =>
    obtain ⟨hn, rfl⟩ := hl
    simpa [fileSymbol] using Or.inr ⟨n, hn, rfl⟩
  all_goals subst hl; simp [fileSymbol]

/-- A name that is none of the file's symbols is called outside the file. -/
theorem resolve_writeTickDriver {o : Options} {s : Sched} {name : List Char}
    (h : fileSymbol o.pfx s.nTicks name = false) :
    resolve (writeTickDriver o s) o.pfx name = .external := by
  have hf : name ≠ o.pfx ++ "_function".toList := fun e => by simp [fileSymbol, e] at h
  rw [resolve, if_neg hf, List.find?_eq_none.2 fun l hl hd => by
    simpa [h] using fileSymbol_of_defines hl (of_decide_eq_true hd)]

theorem compiles_writeTickDriver {o : Options} {s : Sched} (hc : NoCollision o s) :
    compiles (writeTickDriver o s) o.pfx = true := by
  have hfree : ∀ {name}, (.declare name ∈ writeTickDriver o s ∨
      ∃ t len, .call name t len ∈ writeTickDriver o s) →
      name ≠ o.pfx ++ "_function".toList ∧ name ≠ o.pfx ++ "_divider".toList := fun h => by
    obtain ⟨n, hn, sl, hsl, rfl⟩ := callSite_writeTickDriver h
    have hsym := hc n hn sl hsl
    constructor <;> intro e <;> simp [fileSymbol, e] at hsym
  rw [compiles, List.all_eq_true]
  intro l hl
  cases l with
  | declare name => simpa using hfree (.inl hl)
  | call name t len => simpa using (hfree (.inr ⟨t, len, hl⟩)).2
  | _ => rfl

/-- Without collisions every call of a handler leaves the file. -/
theorem runBody_handlerBody {o : Options} {s : Sched} (hc : NoCollision o s) {n : Nat}
    (hn : n < s.nTicks) (depth : Nat) (r : Run) :
    runBody (writeTickDriver o s) o.pfx depth (handlerBody o s n) r =
      some (execBody (handlerBody o s n) r) :=
  runBody_of_external (fun name _ _ h => by
    obtain ⟨sl, hsl, rfl⟩ := callSite_handlerBody h
    exact resolve_writeTickDriver (hc n hn sl hsl)) depth r

/-! ## Running the generated program -/

theorem boot_writeTickDriver {o : Options} {s : Sched} (hc : NoCollision o s) :
    boot (writeTickDriver o s) o.pfx = some ⟨0, 0⟩ := by
  rw [boot, if_pos (compiles_writeTickDriver hc), funcBody_init, Option.bind_eq_bind,
    Option.some_bind, runBody_of_external (by simp)]
  rfl

/-- One interrupt in handler `n` with the divider at `v`. -/
theorem interrupt_handler {o : Options} {s : Sched} (hc : NoCollision o s) {n : Nat}
    (hn : n < s.nTicks) (v : Nat) :
    interrupt (writeTickDriver o s) o.pfx ⟨n, v⟩ = some (handlerCalls s n v,
      ⟨(n + 1) % s.nTicks, if n = s.nTicks - 1 ∧ 1 < s.maxDivider then (v + 1) % 256 else v⟩) := by
  simp only [interrupt, funcBody_handler hn, Option.pure_def, Option.bind_eq_bind,
    Option.some_bind, runBody_handlerBody hc hn, execBody_handlerBody]
  by_cases h1 : 1 < s.nTicks
  · simp [h1]
  · have : s.nTicks = 1 := by omega
    simp [this, show n = 0 by omega]

/-- One interrupt of the generated program in handler `n`, with the divider at
`v`: where every divider of the tick is a power of two up to
`max_divider ≤ 128`, the body calls each slot whose divider `d` has
`v & (d - 1) = 0`, once, ordered by ascending divider and by slot order
within one divider, and no other slot. -/
theorem interrupt_calls {o : Options} {s : Sched} {n : Nat} (hc : NoCollision o s)
    (hn : n < s.nTicks) (hmax : s.maxDivider ≤ 128)
    (hdiv : ∀ sl ∈ (s.ticks n).slots, sl.divider.isPowerOfTwo ∧ sl.divider ≤ s.maxDivider)
    (v : Nat) :
    ∃ cs m, interrupt (writeTickDriver o s) o.pfx ⟨n, v⟩ = some (cs, m) ∧
      cs = ((dividerLoop s.maxDivider).flatMap fun d =>
        (s.ticks n).slots.filter fun sl => sl.divider = d ∧ v &&& (d - 1) = 0).map (slotCall s n) ∧
      cs.Perm (((s.ticks n).slots.filter fun sl => v &&& (sl.divider - 1) = 0).map (slotCall s n)) :=
  ⟨_, _, interrupt_handler hc hn v, handlerCalls_eq s n v, handlerCalls_perm hmax hdiv v⟩

theorem interrupt_calls_two_dividers :
    NoCollision .default ⟨1, fun _ => ⟨[⟨2, 0⟩, ⟨1, 1⟩], .zero⟩,
        [⟨"a".toList, 2, .zero, 0, 1⟩, ⟨"b".toList, 1, .zero, 0, 1⟩], 2⟩ ∧
    ∃ cs m, interrupt (writeTickDriver .default
        ⟨1, fun _ => ⟨[⟨2, 0⟩, ⟨1, 1⟩], .zero⟩,
          [⟨"a".toList, 2, .zero, 0, 1⟩, ⟨"b".toList, 1, .zero, 0, 1⟩], 2⟩) "tick".toList ⟨0, 1⟩ =
        some (cs, m) ∧
      cs = ((dividerLoop 2).flatMap fun d => [(⟨2, 0⟩ : Slot), ⟨1, 1⟩].filter fun sl =>
        sl.divider = d ∧ 1 &&& (d - 1) = 0).map (slotCall ⟨1, fun _ => ⟨[⟨2, 0⟩, ⟨1, 1⟩], .zero⟩,
          [⟨"a".toList, 2, .zero, 0, 1⟩, ⟨"b".toList, 1, .zero, 0, 1⟩], 2⟩ 0) ∧
      cs.Perm (([(⟨2, 0⟩ : Slot), ⟨1, 1⟩].filter fun sl => 1 &&& (sl.divider - 1) = 0).map
        (slotCall ⟨1, fun _ => ⟨[⟨2, 0⟩, ⟨1, 1⟩], .zero⟩,
          [⟨"a".toList, 2, .zero, 0, 1⟩, ⟨"b".toList, 1, .zero, 0, 1⟩], 2⟩ 0)) :=
  ⟨by decide, interrupt_calls (by decide) (by decide) (by decide) (fun sl hsl => by
    simp only [List.mem_cons, List.mem_singleton, List.not_mem_nil, or_false] at hsl
    rcases hsl with rfl | rfl
    exacts [⟨⟨1, rfl⟩, by decide⟩, ⟨⟨0, rfl⟩, by decide⟩]) 1⟩

set_option maxRecDepth 20000 in
/-- A task named `tick_init`, and one of period 16 beside it: in handler 7,
with the divider at 1, the call of `tick_init` clears the divider, so the
guard of divider 2 holds after it and `cd` runs too, although
`1 & (2 - 1) ≠ 0`. -/
theorem interrupt_calls_init_task :
    ∃ out, main ["s".toList] (fun _ => some "tick_init 1 0.01\ncd 16 0.1\n".toList) = .ok out ∧
      ∃ cs m, interrupt (writeTickDriver out.options out.sched) out.options.pfx ⟨7, 1⟩ =
          some (cs, m) ∧
        ¬ cs.Perm (((out.sched.ticks 7).slots.filter fun sl => 1 &&& (sl.divider - 1) = 0).map
          (slotCall out.sched 7)) :=
  ⟨_, rfl, _, _, rfl, by decide⟩

/-! ## Braces and names -/

theorem count_handlerHead_handlers (o : Options) (s : Sched) (k : Nat) :
    ∀ N, ((List.range N).flatMap (handlerDef o s)).count (.handlerHead o.pfx k) =
      if k < N then 1 else 0
  | 0 => rfl
  | N + 1 => by
    rw [List.range_succ, List.flatMap_append, List.count_append, count_handlerHead_handlers o s k N]
    simp [handlerDef, List.count_cons,
      List.count_eq_zero_of_not_mem (handlerHead_not_mem_handlerBody o s N o.pfx k)]
    split_ifs <;> omega

theorem count_prototype_prototypes (pfx : List Char) (k : Nat) :
    ∀ N, ((List.range N).map (CLine.prototype pfx)).count (.prototype pfx k) =
      if k < N then 1 else 0
  | 0 => rfl
  | N + 1 => by
    rw [List.range_succ, List.map_append, List.count_append, count_prototype_prototypes pfx k N]
    simp [List.count_cons]
    split_ifs <;> omega

theorem prototype_not_mem_handlers (o : Options) (s : Sched) (ns : List Nat) (pfx : List Char)
    (k : Nat) : .prototype pfx k ∉ ns.flatMap (handlerDef o s) := by
  simp [handlerDef, handlerBody, dividerGroup, slotLines]

/-- Each handler below `n_ticks` is declared and defined once, and no other. -/
theorem count_writeTickDriver (o : Options) (s : Sched) (k : Nat) :
    (writeTickDriver o s).count (.prototype o.pfx k) = (if k < s.nTicks then 1 else 0) ∧
      (writeTickDriver o s).count (.handlerHead o.pfx k) = if k < s.nTicks then 1 else 0 := by
  simp only [writeTickDriver, List.count_append, count_prototype_prototypes,
    count_handlerHead_handlers,
    List.count_eq_zero_of_not_mem (prototype_not_mem_handlers o s _ o.pfx k)]
  constructor <;> simp [List.count_cons, driverDef, initDef, List.count_eq_zero_of_not_mem]

theorem funcBody_of_not_mem {head : CLine} {l : List CLine} (h : head ∉ l) :
    funcBody head l = none := by
  simpa [funcBody] using funcBody_append h []

/-- With no tick there is no handler to run. -/
theorem interrupt_of_nTicks_eq_zero {o : Options} {s : Sched} (h0 : s.nTicks = 0) (m : Machine) :
    interrupt (writeTickDriver o s) o.pfx m = none := by
  have hhead : (writeTickDriver o s).count (.handlerHead o.pfx m.function) = 0 := by
    simpa [h0] using (count_writeTickDriver o s m.function).2
  simp [interrupt, funcBody_of_not_mem (List.count_eq_zero.1 hhead)]

theorem callsAt_of_nTicks_eq_zero {o : Options} {s : Sched} (h0 : s.nTicks = 0) (k : Nat) :
    callsAt (writeTickDriver o s) o.pfx k = none := by
  cases k <;> simp [callsAt, machineAt, interrupt_of_nTicks_eq_zero h0]

/-- `main` run on no schedule file writes the driver of the empty table, and
for the empty table `<prefix>_init` names `<prefix>_0`, a handler the file
neither declares nor defines, so the first interrupt has nothing to run. -/
theorem writeTickDriver_initSchedule :
    (∀ files, main [] files = .ok ⟨.default, initSchedule, writeTickDriver .default initSchedule⟩) ∧
      ∀ o : Options, initSchedule.nTicks = 0 ∧
        .setFunction o.pfx 0 ∈ writeTickDriver o initSchedule ∧
        (writeTickDriver o initSchedule).count (.prototype o.pfx 0) = 0 ∧
        (writeTickDriver o initSchedule).count (.handlerHead o.pfx 0) = 0 ∧
        callsAt (writeTickDriver o initSchedule) o.pfx 0 = none :=
  ⟨fun _ => rfl, fun o => ⟨rfl, by simp [writeTickDriver, initDef],
    by simpa using (count_writeTickDriver o initSchedule 0).1,
    by simpa using (count_writeTickDriver o initSchedule 0).2, callsAt_of_nTicks_eq_zero rfl 0⟩⟩

end FreewpcSched
