import Mp4.Generator.ControllerText

/-!
What the printed controller does with `replace_which_way`. `which_dirty` and the miss states
decode it right exactly for the first eight ways, however many there are.
-/

set_option autoImplicit false
set_option relaxedAutoImplicit false

namespace Mp4.Generator.WayDecoding

open Mp4.Lib.CaseStatement Mp4.Generator.ControllerText

abbrev Vars (ways : ℕ) := Env (width ways)

section Behaviour

variable (ways : ℕ)

/-- `set_defaults()` and `which_dirty(replace_which_way, ..)`; the call between the two sets
`replace_which_way`, and neither of these changes it. -/
def prologue (env : Vars ways) : Vars ways :=
  (whichDirty ways).run (run (run env (setDefaults ways)) (whichDirtyArguments ways))

def missClean (env : Vars ways) : Vars ways :=
  let env := run env [put .pmemRead 1 1]
  if env .read ≠ 0 then
    (missCleanCase ways).run (run env [copy .cachelineSel .replaceWhichWay])
  else if env .write ≠ 0 then
    (missCleanCase ways).run (run env [copy .cachelineSel .replaceWhichWay])
  else env

def missDirty (env : Vars ways) : Vars ways :=
  (missDirtyCase ways).run (run env [put .pmemWrite 1 1, put .newAddressSel 1 1,
    copy .cachelineSel .replaceWhichWay])

end Behaviour

def loadControls (way : ℕ) : List Signal :=
  [.tagArrayLoad (way + 1), .validLoad (way + 1), .validIn (way + 1), .writeSelWay (way + 1)]

/-- With `2^k` ways, the value `i` of `replace_which_way` stands for way `i + 1` everywhere. -/
structure Decodes (k i : ℕ) : Prop where
  whichDirty : ∀ env : Vars (2 ^ k), (env .replaceWhichWay).toNat = i →
    (prologue (2 ^ k) env .dirty).toNat = (env (.dirtyOut (i + 1))).toNat
  missClean : ∀ env : Vars (2 ^ k), (env .replaceWhichWay).toNat = i →
    env .read ≠ 0 ∨ env .write ≠ 0 → ∀ way < 2 ^ k, ∀ s ∈ loadControls way,
    (missClean (2 ^ k) (prologue (2 ^ k) env) s).toNat = if way = i then 1 else 0
  missDirty : ∀ env : Vars (2 ^ k), (env .replaceWhichWay).toNat = i →
    (missDirty (2 ^ k) (prologue (2 ^ k) env) (.dirtyIn (i + 1))).toNat = 0 ∧
    ∀ way < 2 ^ k, (missDirty (2 ^ k) (prologue (2 ^ k) env) (.dirtyLoad (way + 1))).toNat =
      if way = i then 1 else 0

section Runs

variable {ways : ℕ}

private theorem forall_each {assignment : ℕ → Assignment Signal} {P : Assignment Signal → Prop} :
    (∀ a ∈ each ways assignment, P a) ↔ ∀ way < ways, P (assignment (way + 1)) := by
  simp [each]

private theorem run_copy {s t : Signal} {as : List (Assignment Signal)} (mem : copy s t ∈ as)
    (all : ∀ a ∈ as, a.target = s → a.value = .signal t) (apart : ∀ a ∈ as, a.target ≠ t)
    (env : Vars ways) : (run env as s).toNat = (env t).toNat % 2 ^ width ways s :=
  toNat_run ⟨_, mem, rfl⟩ all apart env

private theorem run_put {s : Signal} {n : ℕ} {as : List (Assignment Signal)} (mem : put s 1 n ∈ as)
    (all : ∀ a ∈ as, a.target = s → a.value = .literal (sized 1 n)) (env : Vars ways) :
    (run env as s).toNat = n % 2 ^ 1 % 2 ^ width ways s := by
  have value := toNat_run (s := s) ⟨put s 1 n, mem, rfl⟩ all trivial env
  rw [value, Expr.eval, sized, toNat_value]

private theorem run_zero {s : Signal} {l : Literal} {as : List (Assignment Signal)}
    (zero : ofBinary l.digits = 0) (some : ∃ a ∈ as, a.target = s)
    (all : ∀ a ∈ as, a.target = s → a.value = .literal l) (env : Vars ways) :
    run env as s = 0 := by
  have value := run_value some all (e := .literal l) trivial env
  simpa [Expr.eval, Literal.value, zero] using value

end Runs

section Prologue

variable {ways : ℕ}

private theorem setDefaults_other {s : Signal}
    (input : s = .replaceWhichWay ∨ s = .read ∨ s = .write ∨
    ∃ way, s = .dirtyOut way) (env : Vars ways) : run env (setDefaults ways) s = env s := by
  refine run_other ?_ env
  simp only [setDefaults, List.forall_mem_append, List.forall_mem_cons, forall_each, put]
  rcases input with rfl | rfl | rfl | ⟨way, rfl⟩ <;> simp

private theorem setDefaults_way {s : Signal} {way : ℕ} (inside : way < ways)
    (control : s ∈ .dirtyLoad (way + 1) :: loadControls way) (env : Vars ways) :
    run env (setDefaults ways) s = 0 := by
  simp only [loadControls, List.mem_cons, List.not_mem_nil, or_false] at control
  have zero : ofBinary (sized 1 0).digits = 0 := ofBinary_binary 0
  have zeros : ofBinary [false, false] = 0 := rfl
  have assigned : ∃ a ∈ setDefaults ways, a.target = s := by
    by_contra none
    have off : ∀ a ∈ setDefaults ways, a.target ≠ s := fun a mem same => none ⟨a, mem, same⟩
    simp only [setDefaults, List.forall_mem_append, List.forall_mem_cons, forall_each, put] at off
    rcases control with rfl | rfl | rfl | rfl | rfl <;> simp at off <;>
      exact off way inside rfl
  have narrow : s ≠ .writeSelWay (way + 1) → ∀ a ∈ setDefaults ways, a.target = s →
      a.value = .literal (sized 1 0) := by
    intro other
    simp only [setDefaults, List.forall_mem_append, List.forall_mem_cons, forall_each, put]
    rcases control with rfl | rfl | rfl | rfl | rfl <;> simp at other ⊢
  have wide : s = .writeSelWay (way + 1) → ∀ a ∈ setDefaults ways, a.target = s →
      a.value = .literal ⟨2, [false, false]⟩ := by
    rintro rfl
    simp only [setDefaults, List.forall_mem_append, List.forall_mem_cons, forall_each, put]
    simp
  by_cases selection : s = .writeSelWay (way + 1)
  · exact run_zero zeros assigned (wide selection) env
  · exact run_zero zero assigned (narrow selection) env

private theorem whichDirty_other {s : Signal} (dirty : s ≠ .dirty) (replace : s ≠ .replace)
    (parameter : ∀ way, s ≠ .d way) (env : Vars ways) :
    (whichDirty ways).run (run env (whichDirtyArguments ways)) s = env s := by
  rw [Case.run_other, run_other]
  · rw [whichDirtyArguments, List.forall_mem_cons, forall_each]
    exact ⟨replace.symm, fun way _ => (parameter _).symm⟩
  · intro item mem
    obtain ⟨i, _, rfl⟩ := List.mem_map.mp mem
    simpa [whichDirtyItem, copy] using dirty.symm

private theorem prologue_other {s : Signal} (dirty : s ≠ .dirty) (replace : s ≠ .replace)
    (parameter : ∀ way, s ≠ .d way) (env : Vars ways) :
    prologue ways env s = run env (setDefaults ways) s :=
  whichDirty_other dirty replace parameter _

private theorem toNat_sized {k i : ℕ} (fits : i < 2 ^ k) :
    (sized (log2 (2 ^ k)) i).value.toNat = i := by
  rw [sized, toNat_value, log2, Nat.log_pow (by decide), Nat.mod_eq_of_lt fits]

/-- The parameter `replace` has three bits, so `which_dirty` takes the way modulo eight. -/
private theorem prologue_dirty {k : ℕ} (env : Vars (2 ^ k))
    (fits : (env .replaceWhichWay).toNat < 2 ^ k) :
    (prologue (2 ^ k) env .dirty).toNat =
      (env (.dirtyOut ((env .replaceWhichWay).toNat % 8 + 1))).toNat := by
  set i := (env .replaceWhichWay).toNat with way
  set defaults := run env (setDefaults (2 ^ k)) with start
  set called := run defaults (whichDirtyArguments (2 ^ k)) with call
  have kept : defaults .replaceWhichWay = env .replaceWhichWay := setDefaults_other (.inl rfl) env
  have dirtyOut : defaults (.dirtyOut (i % 8 + 1)) = env (.dirtyOut (i % 8 + 1)) :=
    setDefaults_other (.inr (.inr (.inr ⟨_, rfl⟩))) env
  have small : i % 8 < 2 ^ k := (Nat.mod_le i 8).trans_lt fits
  have replace : (called .replace).toNat = i % 8 := by
    have mem : copy .replace .replaceWhichWay ∈ whichDirtyArguments (2 ^ k) := List.mem_cons_self
    have value := run_copy mem (by simp [whichDirtyArguments, each, copy])
      (by simp [whichDirtyArguments, each, copy]) defaults
    rw [value, kept]
    rfl
  have parameter : (called (.d (i % 8 + 1))).toNat = (env (.dirtyOut (i % 8 + 1))).toNat := by
    have mem : copy (.d (i % 8 + 1)) (.dirtyOut (i % 8 + 1)) ∈ whichDirtyArguments (2 ^ k) := by
      simp [whichDirtyArguments, each, copy, small]
    have value := run_copy mem (by simp [whichDirtyArguments, each, copy])
      (by simp [whichDirtyArguments, each, copy]) defaults
    rw [value, dirtyOut]
    exact Nat.mod_eq_of_lt (env (.dirtyOut (i % 8 + 1))).isLt
  have chosen : prologue (2 ^ k) env = run called (whichDirtyItem (2 ^ k) (i % 8)).2 := by
    refine Case.run_range small ?_ ?_
    · rw [whichDirtyItem, toNat_sized small, replace]
    · intro j before
      rw [whichDirtyItem, toNat_sized (before.trans small), replace]
      exact before.ne
  have mem : copy .dirty (.d (i % 8 + 1)) ∈ (whichDirtyItem (2 ^ k) (i % 8)).2 :=
    List.mem_cons_self
  have last := run_copy mem (by simp [whichDirtyItem, copy]) (by simp [whichDirtyItem, copy]) called
  rw [chosen, ← parameter, last]
  exact Nat.mod_eq_of_lt (called (.d (i % 8 + 1))).isLt

private theorem prologue_way {s : Signal} {way : ℕ} (inside : way < ways)
    (control : s ∈ .dirtyLoad (way + 1) :: loadControls way) (env : Vars ways) :
    prologue ways env s = 0 := by
  have start := setDefaults_way inside control env
  simp only [loadControls, List.mem_cons, List.not_mem_nil, or_false] at control
  rw [prologue_other, start] <;> rcases control with rfl | rfl | rfl | rfl | rfl <;> simp

private theorem prologue_input {s : Signal} (input : s = .replaceWhichWay ∨ s = .read ∨ s = .write)
    (env : Vars ways) : prologue ways env s = env s := by
  have input' : s = .replaceWhichWay ∨ s = .read ∨ s = .write ∨ ∃ way, s = .dirtyOut way := by
    tauto
  have start := setDefaults_other input' env
  rw [prologue_other, start] <;> rcases input with rfl | rfl | rfl <;> simp

end Prologue

section Misses

variable {ways : ℕ} {env : Vars ways}

private theorem missClean_eq (busy : env .read ≠ 0 ∨ env .write ≠ 0) :
    missClean ways env = (missCleanCase ways).run
      (run env [put .pmemRead 1 1, copy .cachelineSel .replaceWhichWay]) := by
  have read : run env [put .pmemRead 1 1] .read = env .read := run_other (by simp [put]) env
  have write : run env [put .pmemRead 1 1] .write = env .write := run_other (by simp [put]) env
  rw [missClean, read, write]
  split_ifs with first second
  · rfl
  · rfl
  · exact absurd busy (by tauto)

private theorem missClean_way :
    run env [put .pmemRead 1 1, copy .cachelineSel .replaceWhichWay] .replaceWhichWay =
      env .replaceWhichWay :=
  run_other (by simp [put, copy]) env

private theorem missClean_chosen {i : ℕ} (busy : env .read ≠ 0 ∨ env .write ≠ 0)
    (value : (env .replaceWhichWay).toNat = i) (inside : i < ways) (narrow : i < 8) :
    missClean ways env = run (run env [put .pmemRead 1 1, copy .cachelineSel .replaceWhichWay])
      (missCleanItem i).2 := by
  have literal : ∀ j ≤ i, (missCleanItem j).1.value.toNat = j := by
    intro j le
    rw [missCleanItem, sized, toNat_value, Nat.mod_eq_of_lt (by omega)]
  rw [missClean_eq busy]
  refine Case.run_range inside ?_ ?_
  · rw [literal i le_rfl, missClean_way, value]
  · intro j before
    rw [literal j before.le, missClean_way, value]
    exact before.ne

private theorem missClean_silent {i : ℕ} (busy : env .read ≠ 0 ∨ env .write ≠ 0)
    (value : (env .replaceWhichWay).toNat = i) (wide : 8 ≤ i) :
    missClean ways env = run env [put .pmemRead 1 1, copy .cachelineSel .replaceWhichWay] := by
  rw [missClean_eq busy]
  refine Case.run_none ?_
  intro j _
  have digits : j % 2 ^ 3 < 8 := Nat.mod_lt j (by decide)
  rw [missCleanItem, sized, toNat_value, missClean_way, value]
  omega

private theorem missCleanItem_control {s : Signal} {way i : ℕ} (control : s ∈ loadControls way) :
    (run env (missCleanItem i).2 s).toNat = if way = i then 1 else (env s).toNat := by
  simp only [loadControls, List.mem_cons, List.not_mem_nil, or_false] at control
  split_ifs with same
  · subst same
    have single : ∀ t, put t 1 1 ∈ (missCleanItem way).2 →
        (∀ a ∈ (missCleanItem way).2, a.target = t → a.value = .literal (sized 1 1)) →
        (run env (missCleanItem way).2 t).toNat = 1 % 2 ^ 1 % 2 ^ width ways t :=
      fun t mem all => run_put mem all env
    rcases control with rfl | rfl | rfl | rfl
    · exact single _ (by simp [missCleanItem]) (by simp [missCleanItem, put])
    · exact single _ (by simp [missCleanItem]) (by simp [missCleanItem, put])
    · exact single _ (by simp [missCleanItem]) (by simp [missCleanItem, put])
    · have mem : ⟨.writeSelWay (way + 1), .literal ⟨2, [false, true]⟩⟩ ∈ (missCleanItem way).2 := by
        simp [missCleanItem]
      have all : ∀ a ∈ (missCleanItem way).2, a.target = .writeSelWay (way + 1) →
          a.value = .literal ⟨2, [false, true]⟩ := by
        simp [missCleanItem, put]
      exact toNat_run ⟨_, mem, rfl⟩ all trivial env
  · have other : s ∉ (missCleanItem i).2.map Assignment.target := by
      rcases control with rfl | rfl | rfl | rfl <;> simp [missCleanItem, put, same]
    rw [run_other]
    intro a mem target
    exact other (List.mem_map.mpr ⟨a, mem, target⟩)

private theorem missClean_control {s : Signal} {way : ℕ} (control : s ∈ loadControls way) :
    run env [put .pmemRead 1 1, copy .cachelineSel .replaceWhichWay] s = env s := by
  refine run_other ?_ env
  simp only [loadControls, List.mem_cons, List.not_mem_nil, or_false] at control
  rcases control with rfl | rfl | rfl | rfl <;> simp [put, copy]

end Misses

section Dirty

variable {k : ℕ} {env : Vars (2 ^ k)}

private theorem missDirty_chosen {i : ℕ} (value : (env .replaceWhichWay).toNat = i)
    (inside : i < 2 ^ k) :
    missDirty (2 ^ k) env = run (run env [put .pmemWrite 1 1, put .newAddressSel 1 1,
      copy .cachelineSel .replaceWhichWay]) (missDirtyItem (2 ^ k) i).2 := by
  have way : run env [put .pmemWrite 1 1, put .newAddressSel 1 1,
      copy .cachelineSel .replaceWhichWay] .replaceWhichWay = env .replaceWhichWay :=
    run_other (by simp [put, copy]) env
  refine Case.run_range inside ?_ ?_
  · rw [missDirtyItem, toNat_sized inside, way, value]
  · intro j before
    rw [missDirtyItem, toNat_sized (before.trans inside), way, value]
    exact before.ne

private theorem missDirtyItem_load {i way : ℕ} :
    (run env (missDirtyItem (2 ^ k) i).2 (.dirtyLoad (way + 1))).toNat =
      if way = i then 1 else (env (.dirtyLoad (way + 1))).toNat := by
  split_ifs with same
  · subst same
    have mem : put (.dirtyLoad (way + 1)) 1 1 ∈ (missDirtyItem (2 ^ k) way).2 := by
      simp [missDirtyItem]
    exact run_put mem (by simp [missDirtyItem, put]) env
  · rw [run_other]
    simp [missDirtyItem, put, Ne.symm same]

private theorem missDirtyItem_value {i : ℕ} :
    (run env (missDirtyItem (2 ^ k) i).2 (.dirtyIn (i + 1))).toNat = 0 := by
  have mem : put (.dirtyIn (i + 1)) 1 0 ∈ (missDirtyItem (2 ^ k) i).2 := by simp [missDirtyItem]
  exact run_put mem (by simp [missDirtyItem, put]) env

end Dirty

section Result

variable {k i : ℕ}

theorem decodes_narrow (inside : i < 2 ^ k) (narrow : i < 8) : Decodes k i := by
  constructor
  · intro env value
    rw [prologue_dirty env (by omega), value, Nat.mod_eq_of_lt narrow]
  · intro env value busy way within s control
    have value' : (prologue (2 ^ k) env .replaceWhichWay).toNat = i := by
      rw [prologue_input (.inl rfl), value]
    have busy' : prologue (2 ^ k) env .read ≠ 0 ∨ prologue (2 ^ k) env .write ≠ 0 := by
      rw [prologue_input (.inr (.inl rfl)), prologue_input (.inr (.inr rfl))]
      exact busy
    rw [missClean_chosen busy' value' inside narrow, missCleanItem_control control,
      missClean_control control, prologue_way within (List.mem_cons_of_mem _ control)]
    rfl
  · intro env value
    have value' : (prologue (2 ^ k) env .replaceWhichWay).toNat = i := by
      rw [prologue_input (.inl rfl), value]
    rw [missDirty_chosen value' inside]
    refine ⟨missDirtyItem_value, ?_⟩
    intro way within
    rw [missDirtyItem_load, run_other (by simp [put, copy]),
      prologue_way within List.mem_cons_self]
    rfl

def readMiss (k i : ℕ) : Vars (2 ^ k)
  | .replaceWhichWay => BitVec.ofNat _ i
  | .read => 1
  | _ => 0

private theorem readMiss_way (inside : i < 2 ^ k) : (readMiss k i .replaceWhichWay).toNat = i := by
  have log : Nat.log 2 (2 ^ k) = k := Nat.log_pow (by decide) k
  have bits : width (2 ^ k) .replaceWhichWay = k := log
  rw [readMiss, BitVec.toNat_ofNat, bits, Nat.mod_eq_of_lt inside]

private theorem readMiss_read : readMiss k i .read ≠ 0 := by
  have one : (1 : BitVec 1) ≠ 0 := by decide
  exact one

theorem decodes_wide (inside : i < 2 ^ k) (wide : 8 ≤ i) : ¬ Decodes k i := by
  intro decodes
  have way : (prologue (2 ^ k) (readMiss k i) .replaceWhichWay).toNat = i := by
    rw [prologue_input (.inl rfl), readMiss_way inside]
  have busy : prologue (2 ^ k) (readMiss k i) .read ≠ 0 := by
    rw [prologue_input (.inr (.inl rfl))]
    exact readMiss_read
  have control : Signal.tagArrayLoad (i + 1) ∈ loadControls i := List.mem_cons_self
  have loaded := decodes.missClean (readMiss k i) (readMiss_way inside) (.inl readMiss_read) i
    inside (.tagArrayLoad (i + 1)) control
  rw [missClean_silent (.inl busy) way wide, missClean_control control,
    prologue_way inside (List.mem_cons_of_mem _ control), if_pos rfl] at loaded
  exact absurd (BitVec.toNat_zero.symm.trans loaded) (by decide)

/-- The printed controller decodes a way right exactly when it is one of the first eight. -/
theorem decodes_iff (k i : ℕ) (inside : i < 2 ^ k) : Decodes k i ↔ i < 8 := by
  constructor
  · intro decodes
    by_contra wide
    exact decodes_wide inside (by omega) decodes
  · exact decodes_narrow inside

theorem decodes_iff_fourWays : Decodes 2 3 :=
  (decodes_iff 2 3 (by decide)).mpr (by decide)

theorem decodes_not_allWays : ¬ ∀ k, 1 ≤ k → ∀ i < 2 ^ k, Decodes k i := by
  intro right
  exact decodes_wide (by decide) le_rfl (right 4 (by decide) 8 (by decide))

end Result

end Mp4.Generator.WayDecoding
