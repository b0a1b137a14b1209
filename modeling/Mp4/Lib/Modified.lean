import Mp4.Lib.Replacement

/-!
Which lines of a write-back store were modified since they were filled. Every way that is
owed holds such a line, in each phase of a replacement, so nothing else is written back.
-/

set_option autoImplicit false
set_option relaxedAutoImplicit false

namespace Mp4.Lib.Modified

open Mp4.Lib.WriteBack Mp4.Lib.Replacement

universe u₁ u₂ u₃ u₄

variable {W : Type u₁} {S : Type u₂} {L : Type u₃} {D : Type u₄}

def Marked (modified : L → Bool) (v : View W S L D) : Prop :=
  ∀ w s, v.owed w s = true → v.live w s = true ∧ modified (v.addr w s) = true

variable [DecidableEq W] [DecidableEq S] {setOf : L → S} {modified : L → Bool}
  {v : View W S L D} {w : W} {l : L} {d : D}

/-- The marks in each phase: a victim counts as owed until it is written back, and holds
nothing until it is refilled. -/
def Accounted (setOf : L → S) (modified : L → Bool) : Phase W L → View W S L D → Prop
  | .settled, v => Marked modified v
  | .evicting w l, v =>
      Marked modified { v with owed := put v.owed w (setOf l) true } ∧ Misses setOf v l
  | .filling w l, v =>
      Marked modified v ∧ v.owed w (setOf l) = false ∧ Misses setOf (without v w (setOf l)) l

theorem Accounted.empty (settled : ∀ w s, v.owed w s = false) :
    Accounted setOf modified .settled v := by
  intro w s owed
  rw [settled] at owed
  cases owed

theorem Accounted.evict (marked : Accounted setOf modified .settled v)
    (owed : v.owed w (setOf l) = true) (miss : Misses setOf v l) :
    Accounted setOf modified (.evicting w l) v := by
  refine ⟨?_, miss⟩
  rw [put_self owed]
  exact marked

theorem Accounted.victim (marked : Accounted setOf modified (.evicting w l) v) :
    v.live w (setOf l) = true ∧ modified (v.addr w (setOf l)) = true :=
  marked.1 w (setOf l) (put_same _ _ _ _)

theorem Accounted.evictWait (marked : Accounted setOf modified (.evicting w l) v) :
    Accounted setOf modified (.evicting w l) (clean v w (setOf l)) := by
  refine ⟨?_, marked.2⟩
  simp only [clean, put_put]
  exact marked.1

theorem Accounted.evicted (marked : Accounted setOf modified (.evicting w l) v) :
    Accounted setOf modified (.filling w l) (clean v w (setOf l)) := by
  refine ⟨?_, put_same _ _ _ _, marked.2.drop⟩
  intro w' s' owed
  have other : ¬(w' = w ∧ s' = setOf l) := by
    rintro ⟨rfl, rfl⟩
    simp [clean] at owed
  have kept : v.owed w' s' = true := (put_other _ _ other).symm.trans owed
  exact marked.1 w' s' ((put_other _ _ other).trans kept)

theorem Accounted.reuse (marked : Accounted setOf modified .settled v)
    (settled : v.owed w (setOf l) = false) (miss : Misses setOf v l) :
    Accounted setOf modified (.filling w l) v :=
  ⟨marked, settled, miss.drop⟩

theorem marked_refill (marked : Marked modified v) (settled : v.owed w (setOf l) = false) :
    Marked modified (refill v setOf w l d) := by
  intro w' s' owed
  have other : ¬(w' = w ∧ s' = setOf l) := by
    rintro ⟨rfl, rfl⟩
    have owed' : v.owed w' (setOf l) = true := owed
    rw [settled] at owed'
    cases owed'
  simp only [refill, put_other _ _ other]
  exact marked w' s' owed

theorem Accounted.fillWait (marked : Accounted setOf modified (.filling w l) v) :
    Accounted setOf modified (.filling w l) (refill v setOf w l d) :=
  ⟨marked_refill marked.1 marked.2.1, marked.2.1, misses_refill marked.2.2⟩

variable [DecidableEq L]

theorem Accounted.filled (marked : Accounted setOf modified (.filling w l) v)
    (home : ∀ w s, setOf (v.addr w s) = s) :
    Accounted setOf (Function.update modified l false) .settled (refill v setOf w l d) := by
  obtain ⟨marks, settled, miss⟩ := marked
  intro w' s' owed
  have other : ¬(w' = w ∧ s' = setOf l) := by
    rintro ⟨rfl, rfl⟩
    have owed' : v.owed w' (setOf l) = true := owed
    rw [settled] at owed'
    cases owed'
  obtain ⟨live, mark⟩ := marks w' s' owed
  have ne : v.addr w' s' ≠ l := by
    rintro rfl
    have set := home w' s'
    have live' : (without v w (setOf (v.addr w' s'))).live w' (setOf (v.addr w' s')) = true := by
      rw [set] at other ⊢
      exact (put_other _ _ other).trans live
    apply miss w' live'
    rw [set]
    rfl
  simp only [refill, put_other _ _ other, Function.update_of_ne ne]
  exact ⟨live, mark⟩

theorem Accounted.stored (marked : Accounted setOf modified .settled v)
    (live : v.live w (setOf l) = true) (addr : v.addr w (setOf l) = l) :
    Accounted setOf (Function.update modified l true) .settled (store v w (setOf l) d) := by
  intro w' s' owed
  by_cases own : w' = w ∧ s' = setOf l
  · obtain ⟨rfl, rfl⟩ := own
    refine ⟨live, ?_⟩
    show Function.update modified l true (v.addr w' (setOf l)) = true
    rw [addr, Function.update_self]
  · obtain ⟨live', mark⟩ := marked w' s' ((put_other _ _ own).symm.trans owed)
    refine ⟨live', ?_⟩
    show Function.update modified l true (v.addr w' s') = true
    by_cases same : v.addr w' s' = l
    · rw [same, Function.update_self]
    · rw [Function.update_of_ne same]
      exact mark

end Mp4.Lib.Modified
