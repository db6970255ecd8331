import FreewpcSched.Proofs.Invariant
import FreewpcSched.Proofs.Pow2
import FreewpcSched.Code.Main

/-!
# Reading the schedule

The read loop hands its body one `fgets` at a time and stops on the first
call that meets end of file. On a file of newline-terminated lines shorter
than the buffer, that is every line in order (`readLines_lines`). It is not
on other files: a last line without a newline is read by the call that meets
end of file and dropped, and a line longer than the 510 bytes `fgets` stores
reaches the body as two.

The body checks what the spec's grammar asks only in part: a live line stops
on the period test `period & (period - 1)`, which passes zero and the powers
of two, and on the length test, and reaches `add_task` otherwise; tokens
after the third are never looked at and a number is whatever prefix `strtod`
reads (`parseLine_of_tokens`). On a file the loop reads line by line, that
is what `parse_schedule` does with each line in turn (`parseLine_live`).

Every state `main` writes a driver for is a `Reachable` one: each line that
reaches `add_task` passed the period test.
-/

namespace FreewpcSched

/-! ## The read loop -/

/-- A line shorter than the buffer and ended by a newline is one `fgets`. -/
theorem fgets_line {l : List Char} (hl : '\n' ∉ l) :
    ∀ {k : Nat}, l.length < k → ∀ rest, fgets k (l ++ '\n' :: rest) = (l ++ ['\n'], rest, false) := by
  induction l with
  | nil => intro k hk rest; obtain ⟨k, rfl⟩ : ∃ j, k = j + 1 := ⟨k - 1, by simp at hk; omega⟩; rfl
  | cons c l ih =>
    intro k hk rest
    obtain ⟨k, rfl⟩ : ∃ j, k = j + 1 := ⟨k - 1, by simp at hk; omega⟩
    have hc : c ≠ '\n' := fun h => hl (h ▸ List.mem_cons_self _ _)
    rw [List.cons_append, fgets, if_neg hc,
      ih (fun h => hl (List.mem_cons_of_mem _ h)) (by simpa using hk) rest]
    rfl

theorem length_le_flatMap_lines (ls : List (List Char)) :
    ls.length ≤ (ls.flatMap (· ++ ['\n'])).length := by
  induction ls with
  | nil => rfl
  | cons l ls ih => simp only [List.flatMap_cons, List.length_append, List.length_cons]; omega

/-- The read loop gives back every line of a file of newline-terminated lines
shorter than the buffer, in order. -/
theorem readLines_lines : ∀ (ls : List (List Char)), (∀ l ∈ ls, '\n' ∉ l ∧ l.length < 510) →
    ∀ fuel, ls.length < fuel → readLines fuel (ls.flatMap (· ++ ['\n'])) = ls.map (· ++ ['\n'])
  | [], _, fuel + 1, _ => rfl
  | l :: ls, hls, fuel + 1, hfuel => by
    have hl := hls l (List.mem_cons_self _ _)
    rw [List.flatMap_cons, List.append_assoc, List.singleton_append, readLines,
      fgets_line hl.1 hl.2]
    dsimp only
    rw [readLines_lines ls (fun l h => hls l (List.mem_cons_of_mem _ h)) fuel
      (by simp at hfuel; omega)]
    rfl

/-- On such a file `parse_schedule` runs its body on each line in order. -/
theorem parseSchedule_lines {o : Options} {s : Sched} {ls : List (List Char)}
    (hls : ∀ l ∈ ls, '\n' ∉ l ∧ l.length < 510) :
    parseSchedule o s (ls.flatMap (· ++ ['\n'])) = (ls.map (· ++ ['\n'])).foldlM (parseLine o) s := by
  rw [parseSchedule, readLines_lines ls hls _ (Nat.lt_succ_of_le (length_le_flatMap_lines ls))]

/-! ## Files read one after the other

`main` runs `parse_schedule` on each file named in `argv`, in order, on the
same table. On a file that ends with a newline, every `fgets` stops at a
newline or at the buffer's end before the end of the file, so it reads the
same whatever follows the file; the call that meets end of file reads
nothing. Reading two such files in turn is then reading their concatenation
(`parseSchedule_append`, `mainLoop_files_append`). -/

theorem fgets_cons {k : Nat} {c : Char} (hc : c ≠ '\n') (rest : List Char) :
    fgets (k + 1) (c :: rest) =
      (c :: (fgets k rest).1, (fgets k rest).2.1, (fgets k rest).2.2) := by
  rw [fgets, if_neg hc]

/-- A read that stops before the end of its input reads the same whatever
follows. -/
theorem fgets_append (b : List Char) : ∀ {k : Nat} {a : List Char}, (fgets k a).2.2 = false →
    fgets k (a ++ b) = ((fgets k a).1, (fgets k a).2.1 ++ b, false)
  | 0, _, _ => rfl
  | _ + 1, [], h => by simp [fgets] at h
  | k + 1, c :: a, h => by
    by_cases hc : c = '\n'
    · subst hc; rfl
    · rw [fgets_cons hc] at h
      rw [List.cons_append, fgets_cons hc, fgets_cons hc, fgets_append b h]

theorem fgets_rest_length_le : ∀ (k : Nat) (a : List Char), (fgets k a).2.1.length ≤ a.length
  | 0, _ => le_rfl
  | _ + 1, [] => le_rfl
  | k + 1, c :: a => by
    by_cases hc : c = '\n'
    · subst hc; exact Nat.le_succ _
    · rw [fgets_cons hc]; exact Nat.le_succ_of_le (fgets_rest_length_le k a)

/-- A read of a non-empty buffer consumes a byte at least. -/
theorem fgets_rest_length_lt {k : Nat} {c : Char} (a : List Char) :
    (fgets (k + 1) (c :: a)).2.1.length < (c :: a).length := by
  by_cases hc : c = '\n'
  · subst hc; exact Nat.lt_succ_self _
  · rw [fgets_cons hc]; exact Nat.lt_succ_of_le (fgets_rest_length_le k a)

/-- Text that is empty or ends with a newline. -/
def EndsLine (a : List Char) : Prop := a = [] ∨ a.getLast? = some '\n'

/-- On text that ends with a newline a read never meets end of file, and
leaves text that is empty or ends with a newline. -/
theorem fgets_endsLine : ∀ {k : Nat} {a : List Char}, a ≠ [] → EndsLine a →
    (fgets k a).2.2 = false ∧ EndsLine (fgets k a).2.1
  | 0, _, _, ha => ⟨rfl, ha⟩
  | _ + 1, [], h, _ => absurd rfl h
  | k + 1, c :: a, _, ha => by
    have ha' : EndsLine a := by
      rcases a with _ | ⟨c', a⟩
      · exact .inl rfl
      · exact .inr (by simpa [EndsLine] using ha)
    by_cases hc : c = '\n'
    · subst hc; exact ⟨rfl, ha'⟩
    · rw [fgets_cons hc]
      rcases a with _ | ⟨c', a⟩
      · simp [EndsLine, hc] at ha
      · exact fgets_endsLine (List.cons_ne_nil _ _) ha'

/-- `fuel` only bounds the read loop: any budget above the length of the text
reads the same lines. -/
theorem readLines_fuel : ∀ {fuel fuel' : Nat} {x : List Char}, x.length < fuel →
    x.length < fuel' → readLines fuel x = readLines fuel' x
  | 0, _, _, h, _ => absurd h (Nat.not_lt_zero _)
  | _, 0, _, _, h => absurd h (Nat.not_lt_zero _)
  | _ + 1, _ + 1, [], _, _ => rfl
  | fuel + 1, fuel' + 1, c :: x, h, h' => by
    have hlt : (fgets 510 (c :: x)).2.1.length < (c :: x).length := fgets_rest_length_lt x
    simp only [readLines]
    rcases hr : fgets 510 (c :: x) with ⟨line, rest, _ | _⟩
    · rw [hr] at hlt
      dsimp only at hlt
      exact congrArg (line :: ·) (readLines_fuel (by omega) (by omega))
    · rfl

theorem readLines_of_fgets {fuel : Nat} {x : List Char} (h : (fgets 510 x).2.2 = false) :
    readLines (fuel + 1) x = (fgets 510 x).1 :: readLines fuel (fgets 510 x).2.1 := by
  rw [readLines]
  rcases hr : fgets 510 x with ⟨line, rest, _ | _⟩
  · rfl
  · rw [hr] at h; cases h

/-- The read loop over text that ends with a newline, followed by more text,
reads the lines of the first and then those of the second. -/
theorem readLines_append (b : List Char) : ∀ {fuel : Nat} {a : List Char}, EndsLine a →
    a.length + b.length < fuel →
    readLines fuel (a ++ b) = readLines (a.length + 1) a ++ readLines (b.length + 1) b
  | 0, _, _, h => absurd h (Nat.not_lt_zero _)
  | fuel + 1, [], _, h => by
    rw [List.nil_append, readLines_fuel (by simpa using h) (Nat.lt_succ_self _)]
    rfl
  | fuel + 1, c :: a, ha, h => by
    obtain ⟨heof, hrest⟩ := fgets_endsLine (k := 510) (List.cons_ne_nil c a) ha
    have hlt : (fgets 510 (c :: a)).2.1.length < (c :: a).length := fgets_rest_length_lt a
    rw [readLines_of_fgets (by rw [fgets_append b heof]), fgets_append b heof,
      readLines_of_fgets heof]
    dsimp only
    rw [readLines_append b hrest (by simp only [List.length_cons] at h hlt ⊢; omega),
      readLines_fuel (x := (fgets 510 (c :: a)).2.1) (Nat.lt_succ_self _) hlt]
    rfl

/-- `parse_schedule` on text that ends with a newline, followed by more text,
is `parse_schedule` on the first and then on the second. -/
theorem parseSchedule_append {o : Options} {s : Sched} {a : List Char} (ha : EndsLine a)
    (b : List Char) :
    parseSchedule o s (a ++ b) = parseSchedule o s a >>= fun s' => parseSchedule o s' b := by
  rw [parseSchedule, readLines_append b ha (by simp), List.foldlM_append]
  rfl

theorem mainLoop_file {files : List Char → Option (List Char)} {file input : List Char}
    (hd : file.head? ≠ some '-') (hf : files file = some input) (args : List (List Char))
    (o : Options) (s : Sched) :
    mainLoop files (file :: args) o s =
      parseSchedule o s input >>= fun s => mainLoop files args o s := by
  rw [mainLoop, hf]
  rintro opt rfl
  exact hd rfl

/-- Naming two schedule files one after the other reads the same table as
naming one file holding their concatenation, when the first ends with a
newline or is empty, under whatever options and table the loop has reached. -/
theorem mainLoop_files_append {files : List Char → Option (List Char)} {na nb nab a b : List Char}
    (hna : na.head? ≠ some '-') (hnb : nb.head? ≠ some '-') (hnab : nab.head? ≠ some '-')
    (ha : files na = some a) (hb : files nb = some b) (hab : files nab = some (a ++ b))
    (hend : EndsLine a) (args : List (List Char)) (o : Options) (s : Sched) :
    mainLoop files (na :: nb :: args) o s = mainLoop files (nab :: args) o s := by
  rw [mainLoop_file hna ha, mainLoop_file hnab hab, parseSchedule_append hend, bind_assoc]
  congr 1
  funext s₁
  rw [mainLoop_file hnb hb]

set_option maxRecDepth 20000 in
theorem mainLoop_two_files :
    mainLoop (fun n => if n = "a".toList then some "ab 1 0.5\n".toList
        else if n = "b".toList then some "cd 2 0.25\n".toList
        else some ("ab 1 0.5\n".toList ++ "cd 2 0.25\n".toList))
        ["a".toList, "b".toList] .default initSchedule =
      mainLoop (fun n => if n = "a".toList then some "ab 1 0.5\n".toList
        else if n = "b".toList then some "cd 2 0.25\n".toList
        else some ("ab 1 0.5\n".toList ++ "cd 2 0.25\n".toList))
        ["c".toList] .default initSchedule :=
  @mainLoop_files_append _ "a".toList "b".toList "c".toList "ab 1 0.5\n".toList
    "cd 2 0.25\n".toList (by decide) (by decide) (by decide) rfl rfl rfl (.inr rfl) [] .default
    initSchedule

set_option maxRecDepth 20000 in
/-- A last line without a newline is never parsed, and a line longer than
the buffer is parsed as two: here the second half of one line stores a task
that the whole line does not. -/
theorem parseSchedule_last_and_long_lines :
    (parseSchedule .default initSchedule "ab 1 0.5".toList).map (·.tasks.length) = .ok 0 ∧
      (parseSchedule .default initSchedule "ab 1 0.5\n".toList).map (·.tasks.length) = .ok 1 ∧
      (parseSchedule .default initSchedule
        ("ab 1 0.5".toList ++ List.replicate 502 ' ' ++ "cd 1 0.5\n".toList)).map
          (·.tasks.map (·.name)) = .ok ["ab".toList, "cd".toList] ∧
      (parseLine .default initSchedule
        ("ab 1 0.5".toList ++ List.replicate 502 ' ' ++ "cd 1 0.5\n".toList)).map
          (·.tasks.map (·.name)) = .ok ["ab".toList] := by
  decide

/-! ## One line -/

/-- The body on a live line with three tokens and a period in range: it
stops on the period test exactly when the period is neither zero nor a power
of two, naming both; then on the length test; and reaches `add_task`
otherwise. -/
theorem parseLine_of_tokens {o : Options} {s : Sched}
    {line name rest₁ periodToken rest₂ lenToken rest₃ : List Char} {lead l₂ l₃ period : Nat}
    (h₁ : strtok (cstr line) = some (lead, name, rest₁)) (hname : name.head? ≠ some '#')
    (h₂ : strtok rest₁ = some (l₂, periodToken, rest₂))
    (h₃ : strtok rest₂ = some (l₃, lenToken, rest₃))
    (hp : (parseTime periodToken).toUInt32? = some period) :
    parseLine o s line =
      if period &&& (period - 1) ≠ 0 then .error (.fatal (.invalidPeriod period name))
      else if (parseTime lenToken).toFloat.ge (.ofNat period) then
        .error (.fatal (.lengthTooLong name))
      else addTask o s lead name period (parseTime lenToken).toFloat := by
  simp only [parseLine, h₁, hname, h₂, hp, h₃, if_false]

/-- A live line with three tokens and a period in range, in a file of
newline-terminated lines shorter than the buffer, after lines that leave the
table `s₁`: `parse_schedule` stops on the period test exactly when the
period is neither zero nor a power of two, naming both; then on the length
test; and otherwise hands the line to `add_task` on `s₁` and goes on with
the lines after it. The tokens after the third are not looked at, and a
number is whatever prefix `strtod` reads. -/
theorem parseLine_live {o : Options} {s s₁ : Sched} {pre post : List (List Char)}
    {line name rest₁ periodToken rest₂ lenToken rest₃ : List Char} {lead l₂ l₃ period : Nat}
    (hls : ∀ l ∈ pre ++ line :: post, '\n' ∉ l ∧ l.length < 510)
    (hpre : (pre.map (· ++ ['\n'])).foldlM (parseLine o) s = .ok s₁)
    (h₁ : strtok (cstr (line ++ ['\n'])) = some (lead, name, rest₁)) (hname : name.head? ≠ some '#')
    (h₂ : strtok rest₁ = some (l₂, periodToken, rest₂))
    (h₃ : strtok rest₂ = some (l₃, lenToken, rest₃))
    (hp : (parseTime periodToken).toUInt32? = some period) :
    (¬ (period = 0 ∨ period.isPowerOfTwo) →
      parseSchedule o s ((pre ++ line :: post).flatMap (· ++ ['\n'])) =
        .error (.fatal (.invalidPeriod period name))) ∧
    ((period = 0 ∨ period.isPowerOfTwo) →
      (parseTime lenToken).toFloat.ge (.ofNat period) = true →
      parseSchedule o s ((pre ++ line :: post).flatMap (· ++ ['\n'])) =
        .error (.fatal (.lengthTooLong name))) ∧
    ((period = 0 ∨ period.isPowerOfTwo) →
      (parseTime lenToken).toFloat.ge (.ofNat period) = false →
      parseSchedule o s ((pre ++ line :: post).flatMap (· ++ ['\n'])) =
        addTask o s₁ lead name period (parseTime lenToken).toFloat >>=
          (post.map (· ++ ['\n'])).foldlM (parseLine o)) := by
  have hfile : parseSchedule o s ((pre ++ line :: post).flatMap (· ++ ['\n'])) =
      parseLine o s₁ (line ++ ['\n']) >>= (post.map (· ++ ['\n'])).foldlM (parseLine o) := by
    rw [parseSchedule_lines hls, List.map_append, List.foldlM_append, hpre]
    rfl
  rw [hfile, parseLine_of_tokens h₁ hname h₂ h₃ hp, ← land_pred_eq_zero_iff]
  refine ⟨fun hbad => by rw [if_pos hbad]; rfl, fun hok hge => ?_, fun hok hlt => ?_⟩
  · rw [if_neg (not_not.2 hok), if_pos hge]; rfl
  · rw [if_neg (not_not.2 hok), if_neg (by simp [hlt])]

set_option maxRecDepth 20000 in
/-- The second line of a two-line file. -/
theorem parseLine_live_ab :
    ∃ s₁, (["ab 1 0.5".toList].map (· ++ ['\n'])).foldlM (parseLine .default) initSchedule =
        .ok s₁ ∧
      (¬ (2 = 0 ∨ Nat.isPowerOfTwo 2) →
        parseSchedule .default initSchedule (["ab 1 0.5".toList, "cd 2 0.25".toList].flatMap
          (· ++ ['\n'])) = .error (.fatal (.invalidPeriod 2 "cd".toList))) ∧
      ((2 = 0 ∨ Nat.isPowerOfTwo 2) →
        (parseTime "0.25".toList).toFloat.ge (.ofNat 2) = true →
        parseSchedule .default initSchedule (["ab 1 0.5".toList, "cd 2 0.25".toList].flatMap
          (· ++ ['\n'])) = .error (.fatal (.lengthTooLong "cd".toList))) ∧
      ((2 = 0 ∨ Nat.isPowerOfTwo 2) →
        (parseTime "0.25".toList).toFloat.ge (.ofNat 2) = false →
        parseSchedule .default initSchedule (["ab 1 0.5".toList, "cd 2 0.25".toList].flatMap
          (· ++ ['\n'])) =
          addTask .default s₁ 0 "cd".toList 2 (parseTime "0.25".toList).toFloat >>=
            ([] : List (List Char)).foldlM (parseLine .default)) :=
  ⟨_, rfl, @parseLine_live .default initSchedule _ ["ab 1 0.5".toList] [] "cd 2 0.25".toList
    "cd".toList "2 0.25\n".toList "2".toList "0.25\n".toList "0.25".toList [] 0 0 0 2 (by decide)
    rfl (by decide) (by decide) (by decide) (by decide) (by decide)⟩

set_option maxRecDepth 20000 in
/-- A length that is not a number reads as `0`, and a fourth token is
ignored: both lines are stored. -/
theorem parseLine_accepts_malformed :
    (parseLine .default initSchedule "ab 1 abc\n".toList).map (·.tasks.map (·.len)) =
        .ok [.zero] ∧
      (parseLine .default initSchedule "ab 1 0.5 cd\n".toList).map (·.tasks.map (·.name)) =
        .ok ["ab".toList] := by
  decide

/-! ## Whole runs -/

/-- What a line that goes through leaves: the state as it was, or what
`add_task` made of it with a period and a length that passed the tests. -/
theorem parseLine_ok {o : Options} {s s' : Sched} {line : List Char}
    (h : parseLine o s line = .ok s') :
    s' = s ∨ ∃ lead name period len, period &&& (period - 1) = 0 ∧
      len.ge (.ofNat period) = false ∧ addTask o s lead name period len = .ok s' := by
  simp only [parseLine] at h
  repeat' split at h
  all_goals first
    | exact .inl (Except.ok.inj h).symm
    | cases h
    | exact .inr ⟨_, _, _, _, not_not.1 ‹_›, Bool.not_eq_true _ ▸ ‹_›, h⟩

theorem parseLine_reachable {o : Options} {s s' : Sched} {line : List Char} (hs : Reachable s)
    (h : parseLine o s line = .ok s') : Reachable s' := by
  rcases parseLine_ok h with rfl | ⟨lead, name, period, len, hP, -, hadd⟩
  · exact hs
  · exact .addTask o lead name period len hs hP hadd

section Invariant

/-! ## What the argument loop keeps

A property of the table that every line `parse_schedule` hands to its body
keeps, the argument loop of `main` keeps: it changes the table only through
`parse_schedule`. -/

variable (P : Sched → Prop)
  (hP : ∀ {o : Options} {s s' : Sched} {line : List Char}, P s → parseLine o s line = .ok s' → P s')

include hP

theorem foldlM_parseLine_invariant {o : Options} :
    ∀ (lines : List (List Char)) {s s' : Sched}, P s →
      lines.foldlM (parseLine o) s = .ok s' → P s'
  | [], _, _, hs, h => by cases h; exact hs
  | line :: lines, s, s', hs, h => by
    rw [List.foldlM_cons] at h
    obtain ⟨s₁, h₁, h₂⟩ := except_bind_ok.1 h
    exact foldlM_parseLine_invariant lines (hP hs h₁) h₂

theorem mainLoop_invariant {files : List Char → Option (List Char)} (args : List (List Char))
    (o : Options) (s : Sched) :
    ∀ {o' s'}, P s → mainLoop files args o s = .ok (o', s') → P s' := by
  induction args, o, s using mainLoop.induct files with
  | case1 o s => intro o' s' hs h; cases h; exact hs
  | case2 opt o s hD hfull => intro o' s' hs h; simp [mainLoop, hD, hfull] at h
  | case3 opt o s hD hroom => intro o' s' hs h; simp [mainLoop, hD, hroom] at h; exact h.2 ▸ hs
  | case4 opt o s hD ht => intro o' s' hs h; simp [mainLoop, hD, ht] at h
  | case5 opt o s hD ht => intro o' s' hs h; simp [mainLoop, hD, ht] at h; exact h.2 ▸ hs
  | case6 opt o s arg rest ih =>
    intro o' s' hs h
    rw [mainLoop] at h
    obtain ⟨o₁, -, h⟩ := except_bind_ok.1 h
    exact ih o₁ hs h
  | case7 file args o s hnot hf =>
    intro o' s' hs h
    rw [mainLoop, hf] at h
    · cases h
    · exact hnot
  | case8 file args o s hnot input hf ih =>
    intro o' s' hs h
    rw [mainLoop, hf] at h
    · obtain ⟨s₁, h₁, h⟩ := except_bind_ok.1 h
      exact ih s₁ (foldlM_parseLine_invariant P hP _ hs h₁) h
    · exact hnot

end Invariant

/-- Every state the argument loop of `main` leaves is reachable: the loop
only ever adds tasks through `parse_schedule`. -/
theorem mainLoop_reachable {files : List Char → Option (List Char)} (args : List (List Char))
    (o : Options) (s : Sched) :
    ∀ {o' s'}, Reachable s → mainLoop files args o s = .ok (o', s') → Reachable s' :=
  mainLoop_invariant Reachable parseLine_reachable args o s

/-- A run of `main` that returns `0` wrote the driver of a reachable table,
one on which the emitter stays defined. -/
theorem main_ok {argv : List (List Char)} {files : List Char → Option (List Char)} {out : Output}
    (h : main argv files = .ok out) :
    Reachable out.sched ∧ emitFault? out.sched = none ∧
      out.program = writeTickDriver out.options out.sched := by
  unfold main at h
  obtain ⟨⟨o, s⟩, hloop, h⟩ := except_bind_ok.1 h
  cases hf : emitFault? s with
  | some f => simp [hf] at h
  | none =>
    simp only [hf] at h
    cases h
    exact ⟨mainLoop_reachable argv _ _ .init hloop, hf, rfl⟩

end FreewpcSched
