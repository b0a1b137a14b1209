import Mathlib.Algebra.BigOperators.Ring.Finset
import Mathlib.Data.List.GetD
import Mathlib.Order.Interval.Finset.Nat
import Mp4.Lib.TrainedTable

/-!
How often a trained table is wrong. The entries are compared with those of a reference that is
trained with the same outcomes: a credit of each pair of entries pays for the mistakes beyond a
multiple of the reference's. A table that is indexed by a shift register is compared with the
pattern that the register repeats.
-/

set_option autoImplicit false
set_option relaxedAutoImplicit false

namespace Mp4.Lib.MistakeBound

open Mp4.Lib.Clocked Mp4.Lib.TrainedTable

universe u v w x y

/-- How an entry steps with an outcome, and the outcome that it predicts. -/
structure Rule (V : Type x) where
  step : Bool → V → V
  predicts : V → Bool

section Table

variable {K : Type w} {V : Type x} {R : Type y} [DecidableEq K]

def Rule.miss (rule : Rule V) (v : V) (o : Bool) : Nat := if rule.predicts v = o then 0 else 1

def Rule.train (rule : Rule V) (t : K → V) (e : K × Bool) : K → V :=
  Function.update t e.1 (rule.step e.2 (t e.1))

def Rule.misses (rule : Rule V) (t : K → V) : List (K × Bool) → Nat
  | [] => 0
  | e :: es => rule.miss (t e.1) e.2 + rule.misses (rule.train t e) es

variable {rule : Rule V} {reference : Rule R}

theorem misses_snoc (t : K → V) (es : List (K × Bool)) (e : K × Bool) :
    rule.misses t (es ++ [e]) =
      rule.misses t es + rule.miss (es.foldl rule.train t e.1) e.2 := by
  induction es generalizing t with
  | nil =>
    show rule.miss (t e.1) e.2 + 0 = 0 + rule.miss (t e.1) e.2
    omega
  | cons e' es ih =>
    show rule.miss (t e'.1) e'.2 + rule.misses (rule.train t e') (es ++ [e]) = _
    rw [ih, ← Nat.add_assoc]
    rfl

/-- In related entries an outcome is paid for by the credit and by `c` times what it costs the
reference. -/
structure Pays (rule : Rule V) (reference : Rule R) (related : V → R → Prop) (c : Nat)
    (credit : V → R → Nat) : Prop where
  keeps : ∀ o v r, related v r → related (rule.step o v) (reference.step o r)
  pays : ∀ o v r, related v r →
    rule.miss v o + credit (rule.step o v) (reference.step o r) ≤
      credit v r + c * reference.miss r o

def creditOf (credit : V → R → Nat) (S : Finset K) (t : K → V) (r : K → R) : Nat :=
  ∑ k ∈ S, credit (t k) (r k)

private theorem creditOf_train (credit : V → R → Nat) {S : Finset K} (t : K → V) (r : K → R)
    {e : K × Bool} (inside : e.1 ∈ S) :
    creditOf credit S (rule.train t e) (reference.train r e) + credit (t e.1) (r e.1) =
      creditOf credit S t r +
        credit (rule.step e.2 (t e.1)) (reference.step e.2 (r e.1)) := by
  have updated (k : K) : credit (rule.train t e k) (reference.train r e k) =
      Function.update (fun k => credit (t k) (r k)) e.1
        (credit (rule.step e.2 (t e.1)) (reference.step e.2 (r e.1))) k := by
    by_cases own : k = e.1
    · subst own
      simp [Rule.train]
    · simp [Rule.train, own]
  unfold creditOf
  simp only [updated]
  rw [Finset.sum_update_of_mem inside, ← Finset.add_sum_erase S _ inside,
    Finset.sdiff_singleton_eq_erase]
  omega

theorem Pays.misses_le {related : V → R → Prop} {c : Nat} {credit : V → R → Nat}
    (pays : Pays rule reference related c credit) {S : Finset K} {t : K → V} {r : K → R}
    (start : ∀ k, related (t k) (r k)) {es : List (K × Bool)} (inside : ∀ e ∈ es, e.1 ∈ S) :
    rule.misses t es ≤ creditOf credit S t r + c * reference.misses r es := by
  induction es generalizing t r with
  | nil => exact Nat.zero_le _
  | cons e es ih =>
    have kept (k : K) : related (rule.train t e k) (reference.train r e k) := by
      by_cases own : k = e.1
      · subst own
        simpa [Rule.train] using pays.keeps e.2 _ _ (start e.1)
      · simpa [Rule.train, own] using start k
    have later := ih kept (fun e' mem => inside e' (List.mem_cons_of_mem e mem))
    have now := pays.pays e.2 (t e.1) (r e.1) (start e.1)
    have change : creditOf credit S (rule.train t e) (reference.train r e) +
        credit (t e.1) (r e.1) = creditOf credit S t r +
          credit (rule.step e.2 (t e.1)) (reference.step e.2 (r e.1)) :=
      creditOf_train credit t r (inside e List.mem_cons_self)
    show rule.miss (t e.1) e.2 + rule.misses (rule.train t e) es ≤
      _ + c * (reference.miss (r e.1) e.2 + reference.misses (reference.train r e) es)
    rw [Nat.mul_add]
    omega

/-- Where the start has no credit, the mistakes are a multiple of the reference's. -/
theorem Pays.misses_le_mul {related : V → R → Prop} {c : Nat} {credit : V → R → Nat}
    (pays : Pays rule reference related c credit) {init : V} {init' : R}
    (start : related init init') (nothing : credit init init' = 0) (es : List (K × Bool)) :
    rule.misses (fun _ => init) es ≤ c * reference.misses (fun _ => init') es := by
  have inside : ∀ e ∈ es, e.1 ∈ (es.map Prod.fst).toFinset := by
    intro e mem
    exact List.mem_toFinset.mpr (List.mem_map_of_mem mem)
  have bound := pays.misses_le (t := fun _ => init) (r := fun _ => init') (fun _ => start) inside
  have total : creditOf credit (es.map Prod.fst).toFinset (fun _ => init) (fun _ => init') = 0 := by
    unfold creditOf
    simp [nothing]
  rw [total, Nat.zero_add] at bound
  exact bound

def fixed : Rule Bool := ⟨fun _ d => d, id⟩

private theorem train_fixed (f : K → Bool) (e : K × Bool) : fixed.train f e = f := by
  unfold Rule.train fixed
  exact Function.update_eq_self e.1 f

def reachedTrue (f : K → Bool) (es : List (K × Bool)) : Finset K :=
  (es.map Prod.fst).toFinset.filter fun k => f k = true

theorem Pays.misses_le_fixed {c : Nat} {credit : V → Bool → Nat} {init : V}
    (pays : Pays rule fixed (fun _ _ => True) c credit) (nothing : credit init false = 0)
    (f : K → Bool) (es : List (K × Bool)) :
    rule.misses (fun _ => init) es ≤
      (reachedTrue f es).card * credit init true + c * fixed.misses f es := by
  have inside : ∀ e ∈ es, e.1 ∈ (es.map Prod.fst).toFinset := by
    intro e mem
    exact List.mem_toFinset.mpr (List.mem_map_of_mem mem)
  have bound := pays.misses_le (t := fun _ => init) (r := f) (fun _ => trivial) inside
  have total : creditOf credit (es.map Prod.fst).toFinset (fun _ => init) f =
      (reachedTrue f es).card * credit init true := by
    unfold creditOf reachedTrue
    rw [Finset.card_filter, Finset.sum_mul]
    apply Finset.sum_congr rfl
    intro k _
    cases f k with
    | true => simp
    | false => simp [nothing]
  rw [total] at bound
  exact bound

theorem misses_fixed (f : K → Bool) (es : List (K × Bool)) :
    fixed.misses f es = es.countP fun e => f e.1 != e.2 := by
  induction es with
  | nil => rfl
  | cons e es ih =>
    rw [List.countP_cons, ← ih, Nat.add_comm]
    show fixed.miss (f e.1) e.2 + fixed.misses (fixed.train f e) es = _
    rw [train_fixed]
    cases own : f e.1 <;> cases e.2 <;> rfl

end Table

section Machine

variable {ι : Type u} {σ : Type v} {K : Type w} {V : Type x} [DecidableEq K]

/-- The machine, what was trained since it was last restarted, and how often the entry did not
predict it. -/
structure Scored (σ : Type v) (K : Type w) where
  state : σ
  trained : List (K × Bool)
  wrong : Nat

variable (next : ι → σ → σ) (restarts : ι → Bool) (trains : ι → σ → Option (K × Bool))
  (table : σ → K → V) (rule : Rule V)

def Scored.step (i : ι) (s : Scored σ K) : Scored σ K where
  state := next i s.state
  trained := if restarts i then [] else s.trained ++ (trains i s.state).toList
  wrong :=
    if restarts i then 0
    else match trains i s.state with
      | some e => s.wrong + rule.miss (table s.state e.1) e.2
      | none => s.wrong

structure Accounts (init : V) (s : Scored σ K) : Prop where
  entries : table s.state = s.trained.foldl rule.train fun _ => init
  wrong : s.wrong = rule.misses (fun _ => init) s.trained

variable {next restarts trains table rule} {init : V}

private theorem accounts_step (trained : Trains next restarts trains table rule.step init) (i : ι)
    (s : Scored σ K) (acc : Accounts table rule init s) :
    Accounts table rule init (s.step next restarts trains table rule i) := by
  cases restart : restarts i with
  | true =>
    constructor
    · simp only [Scored.step, restart, if_true, List.foldl_nil]
      funext k
      exact trained.restart i s.state k restart
    · simp [Scored.step, restart, Rule.misses]
  | false =>
    cases event : trains i s.state with
    | none =>
      constructor
      · simp only [Scored.step, restart, event, Bool.false_eq_true, if_false, Option.toList_none,
          List.append_nil]
        rw [trained.keep i s.state restart event, acc.entries]
      · simp only [Scored.step, restart, event, Bool.false_eq_true, if_false, Option.toList_none,
          List.append_nil]
        exact acc.wrong
    | some e =>
      obtain ⟨k, o⟩ := e
      constructor
      · simp only [Scored.step, restart, event, Bool.false_eq_true, if_false, Option.toList_some,
          List.foldl_append, List.foldl_cons, List.foldl_nil]
        rw [trained.train i s.state k o restart event, acc.entries]
        rfl
      · simp only [Scored.step, restart, event, Bool.false_eq_true, if_false, Option.toList_some]
        rw [misses_snoc, acc.wrong, acc.entries]

theorem accounts_run (trained : Trains next restarts trains table rule.step init) {s : σ}
    (fresh : ∀ k, table s k = init) (is : List ι) :
    Accounts table rule init
      (run (Scored.step next restarts trains table rule) ⟨s, [], 0⟩ is) := by
  have start : Accounts table rule init ⟨s, [], 0⟩ := ⟨funext fresh, rfl⟩
  have keep (i : ι) (s : Scored σ K) (acc : Accounts table rule init s) (_ : True) :
      Accounts table rule init (s.step next restarts trains table rule i) :=
    accounts_step trained i s acc
  exact run_invariant keep start (along_of_forall (fun _ _ => trivial) _ is)

end Machine

section Period

variable {n p : Nat} {pattern : Nat → Bool}

def historyAt (n : Nat) (pattern : Nat → Bool) : Nat → BitVec n
  | 0 => 0#n
  | j + 1 => historyAt n pattern j <<< 1 ||| (BitVec.ofBool (pattern j)).setWidth n

private theorem remembers_historyAt (n : Nat) (pattern : Nat → Bool) (j : Nat) :
    Remembers (historyAt n pattern j) ((List.range j).map pattern) := by
  induction j with
  | zero => exact remembers_nil n
  | succ j ih =>
    rw [List.range_succ, List.map_append]
    exact ih.shift (pattern j)

private theorem historyAt_bit {j m : Nat} (inside : m < n) :
    (historyAt n pattern j).getLsbD m = if m < j then pattern (j - 1 - m) else false := by
  rw [remembers_historyAt n pattern j m inside]
  by_cases filled : m < j
  · rw [if_pos filled, List.getD_eq_getElem _ _ (by simpa using filled), List.getElem_reverse,
      List.getElem_map, List.getElem_range]
    simp
  · rw [if_neg filled, List.getD_eq_default]
    simpa using Nat.not_lt.mp filled

theorem historyAt_period (periodic : ∀ j, pattern (j + p) = pattern j) {j : Nat} (full : n ≤ j) :
    historyAt n pattern (j + p) = historyAt n pattern j := by
  apply BitVec.eq_of_getLsbD_eq
  intro m inside
  rw [historyAt_bit inside, historyAt_bit inside, if_pos (by omega), if_pos (by omega)]
  have shifted : j + p - 1 - m = j - 1 - m + p := by omega
  rw [shifted]
  exact periodic _

variable {K : Type w} (enc : BitVec n → K)

def trainings (pattern : Nat → Bool) (j : Nat) : List (K × Bool) :=
  (List.range j).map fun i => (enc (historyAt n pattern i), pattern i)

theorem trainings_succ (j : Nat) :
    trainings enc pattern (j + 1) =
      trainings enc pattern j ++ [(enc (historyAt n pattern j), pattern j)] := by
  rw [trainings, List.range_succ, List.map_append]
  rfl

variable [DecidableEq K]

def repeats (p : Nat) (k : K) : Bool :=
  decide (∃ h : BitVec n, enc h = k ∧ h.getLsbD (p - 1) = true)

variable {enc}

private theorem repeats_enc (injective : Function.Injective enc) (h : BitVec n) :
    repeats enc p (enc h) = h.getLsbD (p - 1) := by
  rw [repeats, Bool.eq_iff_iff, decide_eq_true_iff]
  constructor
  · rintro ⟨h', same, bit⟩
    rw [← injective same]
    exact bit
  · intro bit
    exact ⟨h, rfl, bit⟩

private theorem repeats_historyAt (injective : Function.Injective enc) (pos : 0 < p) (short : p ≤ n)
    (periodic : ∀ j, pattern (j + p) = pattern j) (j : Nat) :
    repeats enc p (enc (historyAt n pattern j)) = if p ≤ j then pattern j else false := by
  rw [repeats_enc injective, historyAt_bit (by omega)]
  by_cases before : p ≤ j
  · rw [if_pos before, if_pos (by omega)]
    have shifted : j - 1 - (p - 1) + p = j := by omega
    rw [← periodic, shifted]
  · rw [if_neg before, if_neg (by omega)]

private theorem misses_repeats (injective : Function.Injective enc) (pos : 0 < p) (short : p ≤ n)
    (periodic : ∀ j, pattern (j + p) = pattern j) (j : Nat) :
    fixed.misses (repeats enc p) (trainings enc pattern j) ≤ min j p := by
  rw [misses_fixed]
  induction j with
  | zero => exact Nat.zero_le _
  | succ j ih =>
    rw [trainings_succ, List.countP_append, List.countP_singleton,
      repeats_historyAt injective pos short periodic]
    by_cases before : p ≤ j
    · simp only [if_pos before, bne_self_eq_false, Bool.false_eq_true, if_false]
      omega
    · simp only [if_neg before]
      split <;> omega

private theorem reached_repeats (injective : Function.Injective enc) (pos : 0 < p) (short : p ≤ n)
    (periodic : ∀ j, pattern (j + p) = pattern j) (j : Nat)
    (seen : repeats enc p (enc (historyAt n pattern j)) = true) :
    ∃ i, p ≤ i ∧ i < n + p ∧ historyAt n pattern j = historyAt n pattern i := by
  induction j using Nat.strongRecOn with
  | ind j ih =>
    have before : p ≤ j := by
      by_contra early
      rw [repeats_historyAt injective pos short periodic, if_neg early] at seen
      cases seen
    by_cases filling : j < n + p
    · exact ⟨j, before, filling, rfl⟩
    · have again : historyAt n pattern j = historyAt n pattern (j - p) := by
        have same := historyAt_period (n := n) periodic (j := j - p) (by omega)
        rw [Nat.sub_add_cancel before] at same
        exact same
      rw [again] at seen ⊢
      exact ih (j - p) (by omega) seen

private theorem card_reachedTrue (injective : Function.Injective enc) (pos : 0 < p) (short : p ≤ n)
    (periodic : ∀ j, pattern (j + p) = pattern j) (j : Nat) :
    (reachedTrue (repeats enc p) (trainings enc pattern j)).card ≤ n := by
  have covered : reachedTrue (repeats enc p) (trainings enc pattern j) ⊆
      (Finset.Ico p (n + p)).image fun i => enc (historyAt n pattern i) := by
    intro k mem
    obtain ⟨reached, seen⟩ := Finset.mem_filter.mp mem
    obtain ⟨e, trained, rfl⟩ := List.mem_map.mp (List.mem_toFinset.mp reached)
    obtain ⟨i, -, rfl⟩ := List.mem_map.mp trained
    obtain ⟨i', after, before, same⟩ := reached_repeats injective pos short periodic i seen
    apply Finset.mem_image.mpr
    exact ⟨i', Finset.mem_Ico.mpr ⟨after, before⟩, by rw [← same]⟩
  calc (reachedTrue (repeats enc p) (trainings enc pattern j)).card
      ≤ ((Finset.Ico p (n + p)).image fun i => enc (historyAt n pattern i)).card :=
        Finset.card_le_card covered
    _ ≤ (Finset.Ico p (n + p)).card := Finset.card_image_le
    _ = n := by rw [Nat.card_Ico, Nat.add_sub_cancel]

/-- A repeating pattern is learnt: however long it goes on, the mistakes do not grow. -/
theorem misses_trainings {V : Type x} {rule : Rule V} {c : Nat} {credit : V → Bool → Nat}
    {init : V} (pays : Pays rule fixed (fun _ _ => True) c credit)
    (nothing : credit init false = 0) (injective : Function.Injective enc) (pos : 0 < p)
    (short : p ≤ n) (periodic : ∀ j, pattern (j + p) = pattern j) (j : Nat) :
    rule.misses (fun _ => init) (trainings enc pattern j) ≤ n * credit init true + c * p := by
  have few : fixed.misses (repeats enc p) (trainings enc pattern j) ≤ p :=
    (misses_repeats injective pos short periodic j).trans (Nat.min_le_right j p)
  calc rule.misses (fun _ => init) (trainings enc pattern j)
      ≤ (reachedTrue (repeats enc p) (trainings enc pattern j)).card * credit init true +
          c * fixed.misses (repeats enc p) (trainings enc pattern j) :=
        pays.misses_le_fixed nothing _ _
    _ ≤ n * credit init true + c * p :=
        Nat.add_le_add
          (Nat.mul_le_mul_right _ (card_reachedTrue injective pos short periodic j))
          (Nat.mul_le_mul_left c few)

end Period

section Indexed

variable {ι : Type u} {σ : Type v} {K : Type w} {V : Type x} {n : Nat}
  (next : ι → σ → σ) (restarts : ι → Bool) (trains : ι → σ → Option (K × Bool))

/-- The admitted cycles train the entry of a register with the next outcome of a pattern, and
shift this outcome into the register. -/
structure Indexed (A : ι → Scored σ K → Prop) (history : σ → BitVec n) (enc : BitVec n → K)
    (pattern : Nat → Bool) : Prop where
  restart : ∀ i s, restarts i = true → history (next i s) = 0#n
  train : ∀ i s k o, A i s → restarts i = false → trains i s.state = some (k, o) →
    k = enc (history s.state) ∧ o = pattern s.trained.length ∧
      history (next i s.state) =
        history s.state <<< 1 ||| (BitVec.ofBool o).setWidth n
  keep : ∀ i s, A i s → restarts i = false → trains i s.state = none →
    history (next i s.state) = history s.state

variable {next restarts trains} {A : ι → Scored σ K → Prop} {history : σ → BitVec n}
  {enc : BitVec n → K} {pattern : Nat → Bool}

structure Repeats (history : σ → BitVec n) (enc : BitVec n → K) (pattern : Nat → Bool)
    (s : Scored σ K) : Prop where
  trained : s.trained = trainings enc pattern s.trained.length
  history : history s.state = historyAt n pattern s.trained.length

private theorem repeats_step (indexed : Indexed next restarts trains A history enc pattern)
    (table : σ → K → V) (rule : Rule V) (i : ι) (s : Scored σ K)
    (rep : Repeats history enc pattern s) (admitted : A i s) :
    Repeats history enc pattern (s.step next restarts trains table rule i) := by
  cases restart : restarts i with
  | true =>
    have none : (s.step next restarts trains table rule i).trained = [] := by
      simp [Scored.step, restart]
    constructor
    · rw [none]
      rfl
    · rw [none]
      exact indexed.restart i s.state restart
  | false =>
    cases event : trains i s.state with
    | none =>
      have same : (s.step next restarts trains table rule i).trained = s.trained := by
        simp [Scored.step, restart, event]
      constructor
      · rw [same]
        exact rep.trained
      · rw [same]
        exact (indexed.keep i s admitted restart event).trans rep.history
    | some e =>
      obtain ⟨k, o⟩ := e
      obtain ⟨index, outcome, shifted⟩ := indexed.train i s k o admitted restart event
      have more : (s.step next restarts trains table rule i).trained = s.trained ++ [(k, o)] := by
        simp [Scored.step, restart, event]
      constructor
      · rw [more, List.length_append, List.length_singleton, trainings_succ, ← rep.trained, index,
          outcome, rep.history]
      · rw [more, List.length_append, List.length_singleton]
        show history (next i s.state) = _
        rw [shifted, rep.history, outcome]
        rfl

theorem learns [DecidableEq K] {table : σ → K → V} {rule : Rule V} {init : V} {c p : Nat}
    {credit : V → Bool → Nat} (trained : Trains next restarts trains table rule.step init)
    (indexed : Indexed next restarts trains A history enc pattern)
    (pays : Pays rule fixed (fun _ _ => True) c credit) (nothing : credit init false = 0)
    (injective : Function.Injective enc) (pos : 0 < p) (short : p ≤ n)
    (periodic : ∀ j, pattern (j + p) = pattern j) {s : σ} (fresh : ∀ k, table s k = init)
    (empty : history s = 0#n) {is : List ι}
    (admitted : Along (Scored.step next restarts trains table rule) A ⟨s, [], 0⟩ is) :
    (run (Scored.step next restarts trains table rule) ⟨s, [], 0⟩ is).wrong ≤
      n * credit init true + c * p := by
  have start : Repeats history enc pattern (⟨s, [], 0⟩ : Scored σ K) := ⟨rfl, empty⟩
  have rep := run_invariant (repeats_step indexed table rule) start admitted
  rw [(accounts_run trained fresh is).wrong, rep.trained]
  exact misses_trainings pays nothing injective pos short periodic _

end Indexed

end Mp4.Lib.MistakeBound
