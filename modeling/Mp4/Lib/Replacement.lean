import Mp4.Lib.WriteBack

/-!
The replacement of a way of a write-back store on a miss: the victim is written back if
it is owed, and then refilled. The owed mark may be cleared before the write-back has
happened, and the new address and liveness may be installed before the line is there;
the phase says how the store is to be read meanwhile.
-/

set_option autoImplicit false
set_option relaxedAutoImplicit false

namespace Mp4.Lib.Replacement

open Mp4.Lib.WriteBack

universe u₁ u₂ u₃ u₄

variable {W : Type u₁} {S : Type u₂} {L : Type u₃} {D : Type u₄}

/-- Way `w` is being replaced by the line `l`, or nothing is being replaced. -/
inductive Phase (W : Type u₁) (L : Type u₃)
  | settled
  | evicting (w : W) (l : L)
  | filling (w : W) (l : L)

section Operations

variable [DecidableEq W] [DecidableEq S] (v : View W S L D)

def clean (w : W) (s : S) : View W S L D := { v with owed := put v.owed w s false }

def store (w : W) (s : S) (d : D) : View W S L D :=
  { v with data := put v.data w s d, owed := put v.owed w s true }

def refill (setOf : L → S) (w : W) (l : L) (d : D) : View W S L D :=
  { v with
    addr := put v.addr w (setOf l) l
    data := put v.data w (setOf l) d
    live := put v.live w (setOf l) true }

def without (w : W) (s : S) : View W S L D := { v with live := put v.live w s false }

end Operations

variable [DecidableEq W] [DecidableEq S] {P : L → Prop} {setOf : L → S} {v : View W S L D}
  {mem flat : L → D} {w : W} {l : L} {d : D}

/-- What the store stands for in each phase: a victim stays owed until it is written back,
and is not live until it is refilled. -/
def Sound (P : L → Prop) (setOf : L → S) (mem flat : L → D) : Phase W L → View W S L D → Prop
  | .settled, v => Represents P setOf v mem flat
  | .evicting w l, v =>
      Represents P setOf { v with owed := put v.owed w (setOf l) true } mem flat ∧
        Misses setOf v l
  | .filling w l, v =>
      Represents P setOf (without v w (setOf l)) mem flat ∧
        Misses setOf (without v w (setOf l)) l

theorem Sound.memory {mem' : L → D} {p : Phase W L} (sound : Sound P setOf mem flat p v)
    (same : ∀ l, P l → mem' l = mem l) : Sound P setOf mem' flat p v := by
  have keep : ∀ {v' : View W S L D}, Represents P setOf v' mem flat →
      Represents P setOf v' mem' flat := fun h =>
    h.congr rfl rfl (fun _ _ _ => rfl) (fun _ _ _ => rfl) same
  cases p with
  | settled => exact keep sound
  | evicting w l => exact ⟨keep sound.1, sound.2⟩
  | filling w l => exact ⟨keep sound.1, sound.2⟩

theorem Sound.evict (sound : Sound P setOf mem flat .settled v)
    (owed : v.owed w (setOf l) = true) (miss : Misses setOf v l) :
    Sound P setOf mem flat (.evicting w l) v := by
  refine ⟨?_, miss⟩
  rw [put_self owed]
  exact sound

theorem Sound.evictWait (sound : Sound P setOf mem flat (.evicting w l) v) :
    Sound P setOf mem flat (.evicting w l) (clean v w (setOf l)) := by
  refine ⟨?_, sound.2⟩
  simp only [clean, put_put]
  exact sound.1

private theorem not_hole {live : W → S → Bool} {s : S} {w' : W} {s' : S}
    (h : put live w s false w' s' = true) : ¬(w' = w ∧ s' = s) := by
  rintro ⟨rfl, rfl⟩
  simp at h

theorem misses_refill (miss : Misses setOf (without v w (setOf l)) l) :
    Misses setOf (without (refill v setOf w l d) w (setOf l)) l := by
  have live : (without (refill v setOf w l d) w (setOf l)).live =
      (without v w (setOf l)).live := put_put _ _ _ _ _
  intro w' h here
  rw [live] at h
  have addr : (refill v setOf w l d).addr w' (setOf l) = v.addr w' (setOf l) :=
    put_other _ _ (not_hole h)
  exact miss w' h (addr.symm.trans here)

theorem Sound.fillWait (sound : Sound P setOf mem flat (.filling w l) v) :
    Sound P setOf mem flat (.filling w l) (refill v setOf w l d) := by
  obtain ⟨rep, miss⟩ := sound
  have live : (without (refill v setOf w l d) w (setOf l)).live =
      (without v w (setOf l)).live := put_put _ _ _ _ _
  refine ⟨?_, misses_refill miss⟩
  exact rep.congr live rfl (fun w' s' h => put_other _ _ (not_hole h))
    (fun w' s' h => put_other _ _ (not_hole h)) fun _ _ => rfl

variable [DecidableEq L]

theorem Sound.reuse (sound : Sound P setOf mem flat .settled v)
    (settled : v.owed w (setOf l) = false) (miss : Misses setOf v l) :
    Sound P setOf mem flat (.filling w l) v :=
  ⟨Represents.drop sound settled, miss.drop⟩

theorem Sound.evicted (sound : Sound P setOf mem flat (.evicting w l) v) {mem' : L → D}
    (wrote : ∀ l', P l' →
      mem' l' = Function.update mem (v.addr w (setOf l)) (v.data w (setOf l)) l') :
    Sound P setOf mem' flat (.filling w l) (clean v w (setOf l)) := by
  obtain ⟨rep, miss⟩ := sound
  have live : v.live w (setOf l) = true := rep.owedLive w (setOf l) (put_same _ _ _ _)
  have settled := rep.writeBack live wrote
  simp only [put_put] at settled
  exact ⟨settled.drop (put_same _ _ _ _), miss.drop⟩

theorem Sound.filled (sound : Sound P setOf mem flat (.filling w l) v)
    (value : P l → d = mem l) : Sound P setOf mem flat .settled (refill v setOf w l d) := by
  obtain ⟨rep, miss⟩ := sound
  have full := rep.fill (put_same _ _ _ _) miss value
  simp only [without, put_put] at full
  exact full

theorem Sound.stored (sound : Sound P setOf mem flat .settled v)
    (live : v.live w (setOf l) = true) (addr : v.addr w (setOf l) = l) :
    Sound P setOf mem (Function.update flat l d) .settled (store v w (setOf l) d) := by
  have wrote := Represents.write sound live d
  rw [addr] at wrote
  exact wrote

end Mp4.Lib.Replacement
