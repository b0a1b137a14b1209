import Mathlib.Algebra.Ring.Nat
import Mathlib.Data.List.Find
import Mathlib.Logic.Function.Basic
import Mathlib.Tactic.Common

/-!
Assignments and case statements of SystemVerilog over unsigned two-state variables. A sized
literal is cut off or filled up with zeros on the left; a case statement compares in the
greatest width that occurs in it and takes the first item that is equal.
-/

set_option autoImplicit false
set_option relaxedAutoImplicit false

namespace Mp4.Lib.CaseStatement

universe u

section Literals

def binary (n : ℕ) : List Bool :=
  if n < 2 then [n == 1] else binary (n / 2) ++ [n % 2 == 1]

def ofBinary (digits : List Bool) : ℕ := digits.foldl (fun n b => 2 * n + b.toNat) 0

theorem binary_zero : binary 0 = [false] := by
  rw [binary]
  rfl

theorem binary_one : binary 1 = [true] := by
  rw [binary]
  rfl

theorem ofBinary_binary (n : ℕ) : ofBinary (binary n) = n := by
  fun_induction binary n with
  | case1 n small =>
    have digit : n = 0 ∨ n = 1 := by omega
    rcases digit with rfl | rfl <;> rfl
  | case2 n large front =>
    rw [ofBinary, List.foldl_append, ← ofBinary, front]
    have digit : n % 2 = 0 ∨ n % 2 = 1 := by omega
    rcases digit with even | odd
    · rw [even]
      show 2 * (n / 2) + 0 = n
      omega
    · rw [odd]
      show 2 * (n / 2) + 1 = n
      omega

structure Literal where
  size : ℕ
  digits : List Bool
  deriving DecidableEq, Repr

def Literal.value (l : Literal) : BitVec l.size := BitVec.ofNat l.size (ofBinary l.digits)

theorem toNat_value (size n : ℕ) : (Literal.mk size (binary n)).value.toNat = n % 2 ^ size := by
  simp [Literal.value, ofBinary_binary]

end Literals

section Selection

variable {α : Type u} {w : ℕ}

/-- The width in which a value of `w` bits is compared with the items. -/
def comparedWidth (w : ℕ) (items : List (Literal × α)) : ℕ :=
  items.foldr (fun item v => max item.1.size v) w

/-- The first item equal to the value. -/
def select (x : BitVec w) (items : List (Literal × α)) : Option α :=
  let v := comparedWidth w items
  (items.find? fun item => item.1.value.setWidth v == x.setWidth v).map Prod.snd

theorem le_comparedWidth (w : ℕ) (items : List (Literal × α)) :
    w ≤ comparedWidth w items ∧ ∀ item ∈ items, item.1.size ≤ comparedWidth w items := by
  induction items with
  | nil => simp [comparedWidth]
  | cons item items ih =>
    obtain ⟨value, rest⟩ := ih
    refine ⟨Nat.le_trans value (Nat.le_max_right _ _), ?_⟩
    intro item' mem
    rcases List.mem_cons.mp mem with rfl | mem
    · exact Nat.le_max_left _ _
    · exact Nat.le_trans (rest item' mem) (Nat.le_max_right _ _)

theorem setWidth_beq {a b v : ℕ} (x : BitVec a) (y : BitVec b) (left : a ≤ v) (right : b ≤ v) :
    (x.setWidth v == y.setWidth v) = decide (x.toNat = y.toNat) := by
  have small : x.toNat < 2 ^ v := Nat.lt_of_lt_of_le x.isLt (Nat.pow_le_pow_right (by decide) left)
  have small' : y.toNat < 2 ^ v :=
    Nat.lt_of_lt_of_le y.isLt (Nat.pow_le_pow_right (by decide) right)
  rw [beq_eq_decide, decide_eq_decide, BitVec.toNat_inj.symm, BitVec.toNat_setWidth,
    BitVec.toNat_setWidth, Nat.mod_eq_of_lt small, Nat.mod_eq_of_lt small']

theorem select_eq (x : BitVec w) (items : List (Literal × α)) : select x items =
    (items.find? fun item => decide (item.1.value.toNat = x.toNat)).map Prod.snd := by
  obtain ⟨value, rest⟩ := le_comparedWidth w items
  rw [select]
  have same := List.find?_congr fun item mem =>
    setWidth_beq item.1.value x (rest item mem) value
  exact congrArg (Option.map Prod.snd) same

theorem select_none {x : BitVec w} {items : List (Literal × α)}
    (differ : ∀ item ∈ items, item.1.value.toNat ≠ x.toNat) : select x items = none := by
  rw [select_eq, List.find?_eq_none.mpr]
  · rfl
  · intro item mem
    simp [differ item mem]

theorem select_range {n m : ℕ} {x : BitVec w} (item : ℕ → Literal × α) (inside : m < n)
    (equal : (item m).1.value.toNat = x.toNat)
    (first : ∀ i < m, (item i).1.value.toNat ≠ x.toNat) :
    select x ((List.range n).map item) = some (item m).2 := by
  have found : (List.range n).find? (fun i => decide ((item i).1.value.toNat = x.toNat)) =
      some m := by
    rw [List.find?_range_eq_some]
    refine ⟨by simpa using equal, List.mem_range.mpr inside, ?_⟩
    intro i before
    simpa using first i before
  rw [select_eq, List.find?_map, Option.map_map]
  exact congrArg (Option.map (Prod.snd ∘ item)) found

end Selection

section Programs

variable {σ : Type u} [DecidableEq σ] {width : σ → ℕ}

abbrev Env (width : σ → ℕ) := (s : σ) → BitVec (width s)

inductive Expr (σ : Type u)
  | literal (l : Literal)
  | signal (s : σ)

structure Assignment (σ : Type u) where
  target : σ
  value : Expr σ

def Expr.eval (env : Env width) : Expr σ → ℕ
  | .literal l => l.value.toNat
  | .signal s => (env s).toNat

/-- A value too wide for the target loses its upper bits. -/
def assign (env : Env width) (a : Assignment σ) : Env width :=
  Function.update env a.target (BitVec.ofNat (width a.target) (a.value.eval env))

def run (env : Env width) (as : List (Assignment σ)) : Env width := as.foldl assign env

structure Case (σ : Type u) where
  selector : σ
  items : List (Literal × List (Assignment σ))

/-- Without an equal item nothing happens. -/
def Case.run (env : Env width) (c : Case σ) : Env width :=
  match select (env c.selector) c.items with
  | some body => CaseStatement.run env body
  | none => env

theorem run_other {s : σ} {as : List (Assignment σ)} (off : ∀ a ∈ as, a.target ≠ s)
    (env : Env width) : run env as s = env s := by
  induction as generalizing env with
  | nil => rfl
  | cons a as ih =>
    have rest := ih (fun a' mem => off a' (List.mem_cons_of_mem _ mem)) (assign env a)
    have here : s ≠ a.target := fun same => off a List.mem_cons_self same.symm
    exact rest.trans (Function.update_of_ne here _ _)

def Expr.Apart (as : List (Assignment σ)) : Expr σ → Prop
  | .literal _ => True
  | .signal s => ∀ a ∈ as, a.target ≠ s

theorem Expr.Apart.eval {e : Expr σ} {a : Assignment σ} {as : List (Assignment σ)}
    (h : e.Apart (a :: as)) (env : Env width) :
    e.Apart as ∧ e.eval (assign env a) = e.eval env := by
  cases e with
  | literal l => exact ⟨trivial, rfl⟩
  | signal s =>
    have here : s ≠ a.target := fun same => h a List.mem_cons_self same.symm
    have value : assign env a s = env s := Function.update_of_ne here _ _
    exact ⟨fun a' mem => h a' (List.mem_cons_of_mem _ mem), congrArg BitVec.toNat value⟩

theorem run_value {s : σ} {e : Expr σ} {as : List (Assignment σ)}
    (some : ∃ a ∈ as, a.target = s) (all : ∀ a ∈ as, a.target = s → a.value = e)
    (apart : e.Apart as) (env : Env width) :
    run env as s = BitVec.ofNat (width s) (e.eval env) := by
  induction as generalizing env with
  | nil =>
    obtain ⟨a, mem, _⟩ := some
    cases mem
  | cons a as ih =>
    obtain ⟨apart', kept⟩ := apart.eval env
    have all' : ∀ a' ∈ as, a'.target = s → a'.value = e :=
      fun a' mem => all a' (List.mem_cons_of_mem _ mem)
    by_cases later : ∃ a' ∈ as, a'.target = s
    · rw [← kept]
      exact ih later all' apart' (assign env a)
    · have off : ∀ a' ∈ as, a'.target ≠ s := fun a' mem same => later ⟨a', mem, same⟩
      have here : a.target = s := by
        obtain ⟨a', mem, same⟩ := some
        rcases List.mem_cons.mp mem with rfl | mem
        · exact same
        · exact absurd same (off a' mem)
      have value := all a List.mem_cons_self here
      have last := run_other off (assign env a)
      subst here
      refine last.trans ?_
      rw [assign, Function.update_self, value]

theorem toNat_run {s : σ} {e : Expr σ} {as : List (Assignment σ)}
    (some : ∃ a ∈ as, a.target = s) (all : ∀ a ∈ as, a.target = s → a.value = e)
    (apart : e.Apart as) (env : Env width) :
    (run env as s).toNat = e.eval env % 2 ^ width s := by
  rw [run_value some all apart, BitVec.toNat_ofNat]

theorem Case.run_other {s : σ} {c : Case σ}
    (off : ∀ item ∈ c.items, ∀ a ∈ item.2, a.target ≠ s) (env : Env width) :
    c.run env s = env s := by
  rw [Case.run]
  cases selected : select (env c.selector) c.items with
  | none => rfl
  | some body =>
    obtain ⟨item, found, rfl⟩ := Option.map_eq_some_iff.mp selected
    exact CaseStatement.run_other (off item (List.mem_of_find?_eq_some found)) env

theorem Case.run_range {n m : ℕ} {selector : σ} {item : ℕ → Literal × List (Assignment σ)}
    {env : Env width} (inside : m < n) (equal : (item m).1.value.toNat = (env selector).toNat)
    (first : ∀ i < m, (item i).1.value.toNat ≠ (env selector).toNat) :
    Case.run env ⟨selector, (List.range n).map item⟩ = CaseStatement.run env (item m).2 := by
  rw [Case.run, select_range item inside equal first]

theorem Case.run_none {n : ℕ} {selector : σ} {item : ℕ → Literal × List (Assignment σ)}
    {env : Env width} (differ : ∀ i < n, (item i).1.value.toNat ≠ (env selector).toNat) :
    Case.run env ⟨selector, (List.range n).map item⟩ = env := by
  rw [Case.run, select_none]
  intro item' mem
  obtain ⟨i, inside, rfl⟩ := List.mem_map.mp mem
  exact differ i (List.mem_range.mp inside)

end Programs

end Mp4.Lib.CaseStatement
