import Mathlib.Logic.Function.Basic
import Mathlib.Tactic.Common

/-!
A set-associative write-back store in front of a memory. Way `w` of set `s` holds the
line `addr w s` with contents `data w s`; it counts only while it is `live`, and while
it is `owed` its contents have still to reach the memory. The store represents a flat
memory on the lines that satisfy `P`; what an operation on one way does to that
representation is one lemma each.
-/

set_option autoImplicit false
set_option relaxedAutoImplicit false

namespace Mp4.Lib.WriteBack

universe u₁ u₂ u₃ u₄

def put {W : Type u₁} {S : Type u₂} {α : Type u₃} [DecidableEq W] [DecidableEq S]
    (f : W → S → α) (w : W) (s : S) (x : α) : W → S → α :=
  fun w' s' => if w' = w ∧ s' = s then x else f w' s'

structure View (W : Type u₁) (S : Type u₂) (L : Type u₃) (D : Type u₄) where
  addr : W → S → L
  data : W → S → D
  live : W → S → Bool
  owed : W → S → Bool

variable {W : Type u₁} {S : Type u₂} {L : Type u₃} {D : Type u₄}

section Put

variable [DecidableEq W] [DecidableEq S] {α : Type u₃}

@[simp] theorem put_same (f : W → S → α) (w : W) (s : S) (x : α) : put f w s x w s = x :=
  if_pos ⟨rfl, rfl⟩

theorem put_other (f : W → S → α) {w w' : W} {s s' : S} (x : α) (h : ¬(w' = w ∧ s' = s)) :
    put f w s x w' s' = f w' s' :=
  if_neg h

theorem put_put (f : W → S → α) (w : W) (s : S) (x y : α) :
    put (put f w s x) w s y = put f w s y := by
  funext w' s'
  unfold put
  split_ifs <;> rfl

theorem put_self {f : W → S → α} {w : W} {s : S} {x : α} (h : f w s = x) : put f w s x = f := by
  funext w' s'
  unfold put
  split_ifs with this
  · rw [this.1, this.2, h]
  · rfl

end Put

/-- The store and the memory behind it stand for the flat memory `flat`. -/
structure Represents (P : L → Prop) (setOf : L → S) (v : View W S L D) (mem flat : L → D) :
    Prop where
  home : ∀ w s, v.live w s = true → setOf (v.addr w s) = s
  unique : ∀ w w' s, v.live w s = true → v.live w' s = true → v.addr w s = v.addr w' s → w = w'
  cached : ∀ w s, v.live w s = true → P (v.addr w s) → v.data w s = flat (v.addr w s)
  clean : ∀ w s, v.live w s = true → v.owed w s = false → P (v.addr w s) →
    mem (v.addr w s) = flat (v.addr w s)
  absent : ∀ l, P l → (∀ w, v.live w (setOf l) = true → v.addr w (setOf l) ≠ l) → mem l = flat l
  owedLive : ∀ w s, v.owed w s = true → v.live w s = true

/-- No live way of its set holds the line. -/
def Misses (setOf : L → S) (v : View W S L D) (l : L) : Prop :=
  ∀ w, v.live w (setOf l) = true → v.addr w (setOf l) ≠ l

theorem Misses.drop [DecidableEq W] [DecidableEq S] {setOf : L → S} {v : View W S L D} {l : L}
    (miss : Misses setOf v l) {w : W} {s : S} :
    Misses setOf { v with live := put v.live w s false } l := by
  intro w' live
  refine miss w' ?_
  by_cases this : w' = w ∧ setOf l = s
  · obtain ⟨rfl, rfl⟩ := this
    simp at live
  · simpa only [put_other _ _ this] using live

namespace Represents

variable {P : L → Prop} {setOf : L → S} {v : View W S L D} {mem flat : L → D}

theorem empty (dead : ∀ w s, v.live w s = false) (settled : ∀ w s, v.owed w s = false) :
    Represents P setOf v mem mem where
  home w s h := by simp [dead w s] at h
  unique w w' s h := by simp [dead w s] at h
  cached w s h := by simp [dead w s] at h
  clean w s h := by simp [dead w s] at h
  absent _ _ _ := rfl
  owedLive w s h := by simp [settled w s] at h

theorem congr {v' : View W S L D} {mem' : L → D} (h : Represents P setOf v mem flat)
    (live : v'.live = v.live) (owed : v'.owed = v.owed)
    (addr : ∀ w s, v.live w s = true → v'.addr w s = v.addr w s)
    (data : ∀ w s, v.live w s = true → v'.data w s = v.data w s)
    (same : ∀ l, P l → mem' l = mem l) : Represents P setOf v' mem' flat := by
  refine ⟨?_, ?_, ?_, ?_, ?_, ?_⟩
  · intro w s hl
    rw [live] at hl
    rw [addr w s hl]
    exact h.home w s hl
  · intro w w' s hl hl'
    rw [live] at hl hl'
    rw [addr w s hl, addr w' s hl']
    exact h.unique w w' s hl hl'
  · intro w s hl
    rw [live] at hl
    rw [addr w s hl, data w s hl]
    exact h.cached w s hl
  · intro w s hl ho hp
    rw [live] at hl
    rw [owed] at ho
    rw [addr w s hl] at hp ⊢
    rw [same _ hp]
    exact h.clean w s hl ho hp
  · intro l hp miss
    rw [same l hp]
    refine h.absent l hp fun w hl => ?_
    rw [← addr w _ hl]
    exact miss w (live ▸ hl)
  · intro w s ho
    rw [owed] at ho
    rw [live]
    exact h.owedLive w s ho

theorem read (h : Represents P setOf v mem flat) {w : W} {l : L}
    (live : v.live w (setOf l) = true) (addr : v.addr w (setOf l) = l) (hp : P l) :
    v.data w (setOf l) = flat l := by
  have value := h.cached w (setOf l) live (addr.symm ▸ hp)
  rwa [addr] at value

variable [DecidableEq W] [DecidableEq S] [DecidableEq L]

theorem write (h : Represents P setOf v mem flat) {w : W} {s : S} (live : v.live w s = true)
    (d : D) :
    Represents P setOf
      { v with data := put v.data w s d, owed := put v.owed w s true } mem
      (Function.update flat (v.addr w s) d) := by
  have other : ∀ w' s', v.live w' s' = true → ¬(w' = w ∧ s' = s) →
      v.addr w' s' ≠ v.addr w s := by
    rintro w' s' hl ne same
    have sets : s' = s := by rw [← h.home w' s' hl, same, h.home w s live]
    subst sets
    exact ne ⟨h.unique w' w s' hl live same, rfl⟩
  refine ⟨h.home, h.unique, ?_, ?_, ?_, ?_⟩
  · intro w' s' hl hp
    by_cases this : w' = w ∧ s' = s
    · obtain ⟨rfl, rfl⟩ := this
      simp
    · rw [Function.update_of_ne (other w' s' hl this)]
      simpa only [put_other _ _ this] using h.cached w' s' hl hp
  · intro w' s' hl ho hp
    by_cases this : w' = w ∧ s' = s
    · obtain ⟨rfl, rfl⟩ := this
      simp at ho
    · rw [Function.update_of_ne (other w' s' hl this)]
      simp only [put_other _ _ this] at ho
      exact h.clean w' s' hl ho hp
  · intro l hp miss
    have ne : l ≠ v.addr w s := by
      rintro rfl
      have home := h.home w s live
      exact miss w (home.symm ▸ live) (by rw [home])
    rw [Function.update_of_ne ne]
    exact h.absent l hp miss
  · intro w' s' ho
    by_cases this : w' = w ∧ s' = s
    · obtain ⟨rfl, rfl⟩ := this
      exact live
    · simp only [put_other _ _ this] at ho
      exact h.owedLive w' s' ho

theorem writeBack (h : Represents P setOf v mem flat) {w : W} {s : S}
    (live : v.live w s = true) {mem' : L → D}
    (wrote : ∀ l, P l → mem' l = Function.update mem (v.addr w s) (v.data w s) l) :
    Represents P setOf { v with owed := put v.owed w s false } mem' flat := by
  refine ⟨h.home, h.unique, h.cached, ?_, ?_, ?_⟩
  · intro w' s' hl ho hp
    rw [wrote _ hp]
    by_cases this : w' = w ∧ s' = s
    · obtain ⟨rfl, rfl⟩ := this
      rw [Function.update_self]
      exact h.cached w' s' hl hp
    · simp only [put_other _ _ this] at ho
      by_cases same : v.addr w' s' = v.addr w s
      · rw [same, Function.update_self]
        exact h.cached w s live (same ▸ hp)
      · rw [Function.update_of_ne same]
        exact h.clean w' s' hl ho hp
  · intro l hp miss
    rw [wrote l hp]
    have ne : l ≠ v.addr w s := by
      rintro rfl
      have home := h.home w s live
      exact miss w (home.symm ▸ live) (by rw [home])
    rw [Function.update_of_ne ne]
    exact h.absent l hp miss
  · intro w' s' ho
    by_cases this : w' = w ∧ s' = s
    · obtain ⟨rfl, rfl⟩ := this
      exact live
    · simp only [put_other _ _ this] at ho
      exact h.owedLive w' s' ho

theorem drop (h : Represents P setOf v mem flat) {w : W} {s : S} (settled : v.owed w s = false) :
    Represents P setOf { v with live := put v.live w s false } mem flat := by
  have still : ∀ w' s', put v.live w s false w' s' = true →
      ¬(w' = w ∧ s' = s) ∧ v.live w' s' = true := by
    intro w' s' hl
    by_cases this : w' = w ∧ s' = s
    · obtain ⟨rfl, rfl⟩ := this
      simp at hl
    · exact ⟨this, by rwa [put_other _ _ this] at hl⟩
  refine ⟨?_, ?_, ?_, ?_, ?_, ?_⟩
  · exact fun w' s' hl => h.home w' s' (still w' s' hl).2
  · exact fun w' w'' s' hl hl' => h.unique w' w'' s' (still w' s' hl).2 (still w'' s' hl').2
  · exact fun w' s' hl => h.cached w' s' (still w' s' hl).2
  · exact fun w' s' hl => h.clean w' s' (still w' s' hl).2
  · intro l hp miss
    by_cases here : v.live w s = true ∧ v.addr w s = l
    · obtain ⟨live, rfl⟩ := here
      exact h.clean w s live settled hp
    · refine h.absent l hp fun w' hl addr => ?_
      by_cases this : w' = w ∧ setOf l = s
      · obtain ⟨rfl, home⟩ := this
        rw [home] at hl addr
        exact here ⟨hl, addr⟩
      · exact miss w' (by simpa only [put_other _ _ this] using hl) addr
  · intro w' s' ho
    by_cases this : w' = w ∧ s' = s
    · obtain ⟨rfl, rfl⟩ := this
      simp [settled] at ho
    · simpa only [put_other _ _ this] using h.owedLive w' s' ho

theorem fill (h : Represents P setOf v mem flat) {w : W} {l : L} {d : D}
    (dead : v.live w (setOf l) = false) (miss : Misses setOf v l) (value : P l → d = mem l) :
    Represents P setOf
      { v with
        addr := put v.addr w (setOf l) l
        data := put v.data w (setOf l) d
        live := put v.live w (setOf l) true } mem flat := by
  have settled : v.owed w (setOf l) = false := by
    by_contra ho
    have live := h.owedLive w (setOf l) (by simpa using ho)
    simp [dead] at live
  have flatHere : P l → mem l = flat l := fun hp => h.absent l hp miss
  refine ⟨?_, ?_, ?_, ?_, ?_, ?_⟩
  · intro w' s' hl
    by_cases this : w' = w ∧ s' = setOf l
    · obtain ⟨rfl, rfl⟩ := this
      simp
    · simp only [put_other _ _ this] at hl ⊢
      exact h.home w' s' hl
  · intro w' w'' s' hl hl' same
    by_cases one : w' = w ∧ s' = setOf l <;> by_cases two : w'' = w ∧ s' = setOf l
    · exact one.1.trans two.1.symm
    · simp only [put_other _ _ two] at hl' same
      obtain ⟨rfl, rfl⟩ := one
      rw [put_same] at same
      exact absurd same.symm (miss w'' hl')
    · simp only [put_other _ _ one] at hl same
      obtain ⟨rfl, rfl⟩ := two
      rw [put_same] at same
      exact absurd same (miss w' hl)
    · simp only [put_other _ _ one, put_other _ _ two] at hl hl' same
      exact h.unique w' w'' s' hl hl' same
  · intro w' s' hl hp
    by_cases this : w' = w ∧ s' = setOf l
    · obtain ⟨rfl, rfl⟩ := this
      simp only [put_same] at hp ⊢
      rw [value hp, flatHere hp]
    · simp only [put_other _ _ this] at hl hp ⊢
      exact h.cached w' s' hl hp
  · intro w' s' hl ho hp
    by_cases this : w' = w ∧ s' = setOf l
    · obtain ⟨rfl, rfl⟩ := this
      simp only [put_same] at hp ⊢
      exact flatHere hp
    · simp only [put_other _ _ this] at hl hp ⊢
      exact h.clean w' s' hl ho hp
  · intro l' hp away
    by_cases same : l' = l
    · subst same
      exact flatHere hp
    · refine h.absent l' hp fun w' hl addr => ?_
      have this : ¬(w' = w ∧ setOf l' = setOf l) := by
        rintro ⟨rfl, sets⟩
        rw [sets, dead] at hl
        cases hl
      exact away w' (by simpa only [put_other _ _ this] using hl)
        (by simpa only [put_other _ _ this] using addr)
  · intro w' s' ho
    by_cases this : w' = w ∧ s' = setOf l
    · obtain ⟨rfl, rfl⟩ := this
      simp
    · simpa only [put_other _ _ this] using h.owedLive w' s' ho

end Represents

end Mp4.Lib.WriteBack
