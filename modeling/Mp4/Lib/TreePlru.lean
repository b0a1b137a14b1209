import Mathlib.Data.List.Dedup
import Mathlib.Data.List.Nodup
import Mathlib.Logic.Function.Basic
import Mathlib.Tactic.Common

/-!
Tree pseudo-LRU over any binary tree whose inner nodes carry one bit each. Touching a way
sets the bits on its path to its own directions; the victim is found by going the other
way at every node. A way at depth `d` is safe until `d` different ways have been touched
after it.
-/

set_option autoImplicit false
set_option relaxedAutoImplicit false

namespace Mp4.Lib.TreePlru

universe u v

variable {L : Type u} {W : Type v}

inductive Tree (L : Type u) (W : Type v)
  | leaf (w : W)
  | node (l : L) (left right : Tree L W)

namespace Tree

def labels : Tree L W → List L
  | leaf _ => []
  | node l left right => l :: (left.labels ++ right.labels)

def ways : Tree L W → List W
  | leaf w => [w]
  | node _ left right => left.ways ++ right.ways

/-- The nodes above a way with the directions taken, `true` being right. -/
def path [DecidableEq W] (w : W) : Tree L W → List (L × Bool)
  | leaf _ => []
  | node l left right =>
      if w ∈ left.ways then (l, false) :: left.path w else (l, true) :: right.path w

/-- The way that the bits lead to. -/
def target (s : L → Bool) : Tree L W → W
  | leaf w => w
  | node l left right => if s l then right.target s else left.target s

structure Proper (t : Tree L W) : Prop where
  labels : t.labels.Nodup
  ways : t.ways.Nodup

theorem Proper.left {l : L} {left right : Tree L W} (h : (node l left right).Proper) :
    left.Proper :=
  ⟨(List.nodup_append.mp (List.nodup_cons.mp h.labels).2).1, (List.nodup_append.mp h.ways).1⟩

theorem Proper.right {l : L} {left right : Tree L W} (h : (node l left right).Proper) :
    right.Proper :=
  ⟨(List.nodup_append.mp (List.nodup_cons.mp h.labels).2).2.1,
    (List.nodup_append.mp h.ways).2.1⟩

theorem Proper.root {l : L} {left right : Tree L W} (h : (node l left right).Proper) :
    l ∉ left.labels ∧ l ∉ right.labels := by
  have fresh := (List.nodup_cons.mp h.labels).1
  exact ⟨fun here => fresh (List.mem_append_left _ here),
    fun here => fresh (List.mem_append_right _ here)⟩

theorem Proper.labels_apart {l : L} {left right : Tree L W} (h : (node l left right).Proper)
    {x : L} (inLeft : x ∈ left.labels) : x ∉ right.labels := fun inRight =>
  (List.nodup_append.mp (List.nodup_cons.mp h.labels).2).2.2 x inLeft x inRight rfl

theorem Proper.ways_apart {l : L} {left right : Tree L W} (h : (node l left right).Proper)
    {w : W} (inLeft : w ∈ left.ways) : w ∉ right.ways := fun inRight =>
  (List.nodup_append.mp h.ways).2.2 w inLeft w inRight rfl

theorem target_mem (t : Tree L W) (s : L → Bool) : t.target s ∈ t.ways := by
  induction t with
  | leaf w => exact List.mem_singleton_self w
  | node l left right ihLeft ihRight =>
    unfold target
    split_ifs
    · exact List.mem_append_right _ ihRight
    · exact List.mem_append_left _ ihLeft

section Paths

variable [DecidableEq W]

/-- The bits agree with a path. -/
def Follows (p : List (L × Bool)) (s : L → Bool) : Prop := ∀ e ∈ p, s e.1 = e.2

theorem path_labels {t : Tree L W} {w : W} {e : L × Bool} (on : e ∈ t.path w) :
    e.1 ∈ t.labels := by
  induction t with
  | leaf w' => cases on
  | node l left right ihLeft ihRight =>
    unfold path at on
    split_ifs at on <;> rcases List.mem_cons.mp on with rfl | on
    · exact List.mem_cons_self
    · exact List.mem_cons_of_mem _ (List.mem_append_left _ (ihLeft on))
    · exact List.mem_cons_self
    · exact List.mem_cons_of_mem _ (List.mem_append_right _ (ihRight on))

theorem path_nodup {t : Tree L W} (proper : t.Proper) (w : W) :
    ((t.path w).map Prod.fst).Nodup := by
  induction t with
  | leaf w' => exact List.nodup_nil
  | node l left right ihLeft ihRight =>
    have fresh := proper.root
    unfold path
    split_ifs
    · refine List.nodup_cons.mpr ⟨?_, ihLeft proper.left⟩
      intro here
      obtain ⟨⟨l', b⟩, on, same⟩ := List.mem_map.mp here
      obtain rfl : l' = l := same
      exact fresh.1 (path_labels on)
    · refine List.nodup_cons.mpr ⟨?_, ihRight proper.right⟩
      intro here
      obtain ⟨⟨l', b⟩, on, same⟩ := List.mem_map.mp here
      obtain rfl : l' = l := same
      exact fresh.2 (path_labels on)

theorem follows_path_iff {t : Tree L W} (proper : t.Proper) {w : W} (mem : w ∈ t.ways)
    (s : L → Bool) : Follows (t.path w) s ↔ t.target s = w := by
  induction t with
  | leaf w' =>
    have this : w = w' := List.mem_singleton.mp mem
    simp [Follows, path, target, this]
  | node l left right ihLeft ihRight =>
    unfold path target
    split_ifs with inLeft bit bit
    · have away : right.target s ≠ w := by
        intro same
        exact proper.ways_apart inLeft (same ▸ target_mem right s)
      simp [Follows, bit, away]
    · rw [← ihLeft proper.left inLeft]
      simp [Follows, bit]
    · have inRight : w ∈ right.ways := (List.mem_append.mp mem).resolve_left inLeft
      rw [← ihRight proper.right inRight]
      simp [Follows, bit]
    · have away : left.target s ≠ w := by
        intro same
        exact inLeft (same ▸ target_mem left s)
      simp [Follows, bit, away]

theorem part_once {t : Tree L W} (proper : t.Proper) {w u : W} {e e' : L × Bool}
    (on : e ∈ t.path w) (off : (e.1, !e.2) ∈ t.path u) (on' : e' ∈ t.path w)
    (off' : (e'.1, !e'.2) ∈ t.path u) : e = e' := by
  induction t with
  | leaf w' => cases on
  | node l left right ihLeft ihRight =>
    obtain ⟨notLeft, notRight⟩ := proper.root
    -- where the paths go to different sides, only the root is on both
    have split {x y : Tree L W} {d : Bool} {e : L × Bool} (apart : ∀ n ∈ x.labels, n ∉ y.labels)
        (fresh : l ∉ x.labels) (on : e ∈ (l, d) :: x.path w)
        (off : (e.1, !e.2) ∈ (l, !d) :: y.path u) : e = (l, d) := by
      rcases List.mem_cons.mp on with root | below
      · exact root
      · rcases List.mem_cons.mp off with root | below'
        · have same : e.1 = l := (Prod.mk.inj root).1
          exact absurd (path_labels below) (same ▸ fresh)
        · have away := apart e.1 (path_labels below)
          exact absurd (path_labels below') away
    -- where they go to the same side, the root is on both with one direction
    have descend {x : Tree L W} {d : Bool} {e : L × Bool} (fresh : l ∉ x.labels)
        (on : e ∈ (l, d) :: x.path w) (off : (e.1, !e.2) ∈ (l, d) :: x.path u) :
        e ∈ x.path w ∧ (e.1, !e.2) ∈ x.path u := by
      rcases List.mem_cons.mp on with rfl | below
      · rcases List.mem_cons.mp off with root | below'
        · simp at root
        · exact absurd (path_labels below') fresh
      · rcases List.mem_cons.mp off with root | below'
        · have same : e.1 = l := (Prod.mk.inj root).1
          exact absurd (path_labels below) (same ▸ fresh)
        · exact ⟨below, below'⟩
    have apart : ∀ n ∈ left.labels, n ∉ right.labels := fun n => proper.labels_apart
    have apart' : ∀ n ∈ right.labels, n ∉ left.labels := fun n inRight inLeft =>
      proper.labels_apart inLeft inRight
    unfold path at on off on' off'
    by_cases left₁ : w ∈ left.ways <;> by_cases left₂ : u ∈ left.ways
    · rw [if_pos left₁] at on on'
      rw [if_pos left₂] at off off'
      obtain ⟨on, off⟩ := descend notLeft on off
      obtain ⟨on', off'⟩ := descend notLeft on' off'
      exact ihLeft proper.left on off on' off'
    · rw [if_pos left₁] at on on'
      rw [if_neg left₂] at off off'
      exact (split apart notLeft on off).trans (split apart notLeft on' off').symm
    · rw [if_neg left₁] at on on'
      rw [if_pos left₂] at off off'
      exact (split apart' notRight on off).trans (split apart' notRight on' off').symm
    · rw [if_neg left₁] at on on'
      rw [if_neg left₂] at off off'
      obtain ⟨on, off⟩ := descend notRight on off
      obtain ⟨on', off'⟩ := descend notRight on' off'
      exact ihRight proper.right on off on' off'

end Paths

section Touches

variable [DecidableEq L]

def assign (p : List (L × Bool)) (s : L → Bool) : L → Bool :=
  p.foldl (fun s e => Function.update s e.1 e.2) s

theorem assign_other {p : List (L × Bool)} {l : L} (off : l ∉ p.map Prod.fst) (s : L → Bool) :
    assign p s l = s l := by
  induction p generalizing s with
  | nil => rfl
  | cons e p ih =>
    obtain ⟨ne, off⟩ := List.ne_and_not_mem_of_not_mem_cons off
    exact (ih off _).trans (Function.update_of_ne ne _ _)

theorem assign_on {p : List (L × Bool)} (nodup : (p.map Prod.fst).Nodup) {e : L × Bool}
    (on : e ∈ p) (s : L → Bool) : assign p s e.1 = e.2 := by
  induction p generalizing s with
  | nil => cases on
  | cons e' p ih =>
    obtain ⟨fresh, nodup⟩ := List.nodup_cons.mp nodup
    rcases List.mem_cons.mp on with rfl | on
    · exact (assign_other fresh _).trans (Function.update_self _ _ _)
    · exact ih nodup on _

variable [DecidableEq W] (t : Tree L W)

/-- The bits after the touches of the listed ways. -/
def touched (s : L → Bool) (us : List W) : L → Bool := us.foldl (fun s u => assign (t.path u) s) s

variable {t}

theorem exists_setter (proper : t.Proper) {us : List W} {s : L → Bool} {l : L}
    (changed : t.touched s us l ≠ s l) : ∃ u ∈ us, (l, !s l) ∈ t.path u := by
  induction us generalizing s with
  | nil => exact absurd rfl changed
  | cons u us ih =>
    by_cases on : l ∈ (t.path u).map Prod.fst
    · obtain ⟨⟨l', b⟩, here, same⟩ := List.mem_map.mp on
      obtain rfl : l' = l := same
      by_cases kept : b = s l'
      · have value : assign (t.path u) s l' = s l' := by
          rw [← kept]
          exact assign_on (path_nodup proper u) here s
        obtain ⟨u', mem, set⟩ := ih (s := assign (t.path u) s) (by rw [value]; exact changed)
        exact ⟨u', List.mem_cons_of_mem _ mem, by rwa [value] at set⟩
      · have flipped : b = !s l' := by
          cases b <;> cases h : s l' <;> simp_all
        exact ⟨u, List.mem_cons_self, flipped ▸ here⟩
    · have value : assign (t.path u) s l = s l := assign_other on s
      obtain ⟨u', mem, set⟩ := ih (s := assign (t.path u) s) (by rw [value]; exact changed)
      exact ⟨u', List.mem_cons_of_mem _ mem, by rwa [value] at set⟩

/-- A touched way is found again only after as many different ways as its path is long. -/
theorem target_ne (proper : t.Proper) {w : W} (mem : w ∈ t.ways) (s : L → Bool) {us : List W}
    (few : us.dedup.length < (t.path w).length) :
    t.target (fun l => !t.touched s (w :: us) l) ≠ w := by
  intro found
  have follows := (follows_path_iff proper mem _).mpr found
  have own : ∀ e ∈ t.path w, assign (t.path w) s e.1 = e.2 := fun e on =>
    assign_on (path_nodup proper w) on s
  have setters : ∀ e ∈ t.path w, ∃ u ∈ us, (e.1, !e.2) ∈ t.path u := by
    intro e on
    have final : (!t.touched (assign (t.path w) s) us e.1) = e.2 := follows e on
    have changed : t.touched (assign (t.path w) s) us e.1 ≠ assign (t.path w) s e.1 := by
      rw [own e on, ← final]
      simp
    obtain ⟨u, mem, set⟩ := exists_setter proper changed
    exact ⟨u, mem, by rwa [own e on] at set⟩
  have inhabited : Nonempty W := ⟨w⟩
  choose! setter chosen using setters
  have different : ((t.path w).map setter).Nodup := by
    refine List.Nodup.map_on ?_ (List.Nodup.of_map _ (path_nodup proper w))
    intro e on e' on' same
    exact part_once proper on (chosen e on).2 on' (same ▸ (chosen e' on').2)
  have among : (t.path w).map setter ⊆ us.dedup := by
    intro u here
    obtain ⟨e, on, rfl⟩ := List.mem_map.mp here
    exact List.mem_dedup.mpr (chosen e on).1
  have count := List.Nodup.length_le_of_subset different among
  rw [List.length_map] at count
  omega

theorem touched_append (s : L → Bool) (us us' : List W) :
    t.touched s (us ++ us') = t.touched (t.touched s us) us' :=
  List.foldl_append

/-- Where every path has `k` nodes, none of the last `k` touched ways is found. The last
touch is listed first. -/
theorem target_not_mem_take (proper : t.Proper) {k : Nat}
    (deep : ∀ w ∈ t.ways, k ≤ (t.path w).length) (s : L → Bool) {us : List W}
    (ways : ∀ u ∈ us, u ∈ t.ways) :
    t.target (fun l => !t.touched s us.reverse l) ∉ us.take k := by
  intro recent
  obtain ⟨later, earlier, split⟩ := List.append_of_mem recent
  generalize found : t.target (fun l => !t.touched s us.reverse l) = w at recent split
  obtain ⟨older, whole⟩ : ∃ older, us = later ++ w :: older := by
    refine ⟨earlier ++ us.drop k, (List.take_append_drop k us).symm.trans ?_⟩
    rw [split, List.append_assoc, List.cons_append]
  have few : later.reverse.dedup.length < k := by
    have bound := List.length_take_le k us
    have distinct := (List.dedup_sublist later.reverse).length_le
    rw [split, List.length_append, List.length_cons] at bound
    rw [List.length_reverse] at distinct
    omega
  have mem : w ∈ t.ways := ways w (List.mem_of_mem_take recent)
  have order : us.reverse = older.reverse ++ w :: later.reverse := by
    rw [whole]
    simp
  rw [order, touched_append] at found
  exact target_ne proper mem _ (Nat.lt_of_lt_of_le few (deep w mem)) found

end Touches

end Tree

end Mp4.Lib.TreePlru
