import Mp4.Lib.Replacement

/-!
Where the lines of a write-back store stand, whatever the memory behind it holds: in no two
live ways of a set, and owed in live ways only. A victim is given its new address before its
line is there, so that a replacement has to know that the line stands in no other way.
-/

set_option autoImplicit false
set_option relaxedAutoImplicit false

namespace Mp4.Lib.Placement

open Mp4.Lib.WriteBack Mp4.Lib.Replacement

universe u₁ u₂ u₃ u₄

variable {W : Type u₁} {S : Type u₂} {L : Type u₃} {D : Type u₄}

structure Distinct (v : View W S L D) : Prop where
  unique : ∀ w w' s, v.live w s = true → v.live w' s = true → v.addr w s = v.addr w' s → w = w'
  owedLive : ∀ w s, v.owed w s = true → v.live w s = true

variable [DecidableEq W] [DecidableEq S] {setOf : L → S} {v : View W S L D} {w : W} {l : L} {d : D}

/-- The line that replaces a way is in no way while the victim is written back, and in no
other way while it is filled; then the victim is not owed either. -/
def Placed (setOf : L → S) : Phase W L → View W S L D → Prop
  | .settled, v => Distinct v
  | .evicting _ l, v => Distinct v ∧ Misses setOf v l
  | .filling w l, v =>
      Distinct v ∧ v.owed w (setOf l) = false ∧ Misses setOf (without v w (setOf l)) l

theorem Placed.distinct {p : Phase W L} (placed : Placed setOf p v) : Distinct v := by
  cases p with
  | settled => exact placed
  | evicting w l => exact placed.1
  | filling w l => exact placed.1

theorem Placed.empty (dead : ∀ w s, v.live w s = false) (settled : ∀ w s, v.owed w s = false) :
    Placed setOf .settled v := by
  constructor
  · intro w w' s live
    rw [dead] at live
    cases live
  · intro w s owed
    rw [settled] at owed
    cases owed

theorem distinct_clean (distinct : Distinct v) (w : W) (s : S) : Distinct (clean v w s) := by
  refine ⟨distinct.unique, fun w' s' owed => ?_⟩
  apply distinct.owedLive w' s'
  by_cases own : w' = w ∧ s' = s
  · obtain ⟨rfl, rfl⟩ := own
    simp [clean] at owed
  · exact (put_other _ _ own).symm.trans owed

theorem distinct_refill (distinct : Distinct v) (miss : Misses setOf (without v w (setOf l)) l) :
    Distinct (refill v setOf w l d) := by
  have other {w' : W} {s' : S} (ne : ¬(w' = w ∧ s' = setOf l))
      (live : (refill v setOf w l d).live w' s' = true) :
      v.live w' s' = true ∧ (refill v setOf w l d).addr w' s' = v.addr w' s' :=
    ⟨(put_other _ _ ne).symm.trans live, put_other _ _ ne⟩
  have apart {w' : W} (ne : ¬(w' = w ∧ setOf l = setOf l))
      (live : (refill v setOf w l d).live w' (setOf l) = true) :
      (refill v setOf w l d).addr w' (setOf l) ≠ l := by
    obtain ⟨live', addr⟩ := other ne live
    rw [addr]
    exact miss w' ((put_other _ _ ne).trans live')
  have own : (refill v setOf w l d).addr w (setOf l) = l := put_same _ _ _ _
  refine ⟨fun a b s liveA liveB same => ?_, fun w' s' owed => ?_⟩
  · by_cases isA : a = w ∧ s = setOf l
    · obtain ⟨rfl, rfl⟩ := isA
      by_contra ne
      apply apart (fun h => ne h.1.symm) liveB
      rw [← same, own]
    · by_cases isB : b = w ∧ s = setOf l
      · obtain ⟨rfl, rfl⟩ := isB
        by_contra ne
        apply apart (fun h => ne h.1) liveA
        rw [same, own]
      · obtain ⟨liveA', addrA⟩ := other isA liveA
        obtain ⟨liveB', addrB⟩ := other isB liveB
        rw [addrA, addrB] at same
        exact distinct.unique a b s liveA' liveB' same
  · show put v.live w (setOf l) true w' s' = true
    by_cases isW : w' = w ∧ s' = setOf l
    · rw [isW.1, isW.2, put_same]
    · rw [put_other _ _ isW]
      exact distinct.owedLive w' s' owed

theorem Placed.evict (placed : Placed setOf .settled v) (miss : Misses setOf v l) :
    Placed setOf (.evicting w l) v :=
  ⟨placed, miss⟩

theorem Placed.reuse (placed : Placed setOf .settled v) (settled : v.owed w (setOf l) = false)
    (miss : Misses setOf v l) : Placed setOf (.filling w l) v :=
  ⟨placed, settled, miss.drop⟩

theorem Placed.evictWait (placed : Placed setOf (.evicting w l) v) :
    Placed setOf (.evicting w l) (clean v w (setOf l)) :=
  ⟨distinct_clean placed.1 w (setOf l), placed.2⟩

theorem Placed.evicted (placed : Placed setOf (.evicting w l) v) :
    Placed setOf (.filling w l) (clean v w (setOf l)) :=
  ⟨distinct_clean placed.1 w (setOf l), put_same _ _ _ _, placed.2.drop⟩

theorem Placed.fillWait (placed : Placed setOf (.filling w l) v) :
    Placed setOf (.filling w l) (refill v setOf w l d) :=
  ⟨distinct_refill placed.1 placed.2.2, placed.2.1, misses_refill placed.2.2⟩

theorem Placed.filled (placed : Placed setOf (.filling w l) v) :
    Placed setOf .settled (refill v setOf w l d) :=
  distinct_refill placed.1 placed.2.2

theorem Placed.stored {s : S} (placed : Placed setOf .settled v) (live : v.live w s = true) :
    Placed setOf .settled (store v w s d) := by
  refine ⟨placed.unique, fun w' s' owed => ?_⟩
  by_cases own : w' = w ∧ s' = s
  · rw [own.1, own.2]
    exact live
  · exact placed.owedLive w' s' ((put_other _ _ own).symm.trans owed)

end Mp4.Lib.Placement
