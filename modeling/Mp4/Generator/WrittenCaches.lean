import Mp4.Generator.PlruCorrect
import Mp4.Memory.EightWay.Refinement
import Mp4.Memory.FourWay.Cache
import Mathlib.Tactic.FinCases

/-!
The replacement functions that the generator prints for four and for eight ways, and those of
the two controllers in the repository.
-/

set_option autoImplicit false
set_option relaxedAutoImplicit false

namespace Mp4.Generator.WrittenCaches

open Mp4.Lib.TreePlru Mp4.Generator.TreePaths Mp4.Generator.PerfectTree Mp4.Generator.PlruCorrect
open Mp4.Memory

def numbered {n : ℕ} (h : Fin n → Bool) : ℕ → Bool :=
  fun j => if inside : j < n then h ⟨j, inside⟩ else false

/-- What the generator prints for four ways are the functions of `cache_cntrl_4`. -/
def PrintsFourWay (g : Generated) : Prop :=
  ∀ plru : BitVec 3,
    (∀ old, whichReplace g.path plru old = FourWay.Cache.whichReplace plru) ∧
      ∀ h : Fin 4 → Bool, loadPlru g.path (numbered h) plru = FourWay.Cache.loadPlru plru h

/-- What the generator prints for eight ways are the functions of `modular_cache_control`,
where no two ways hit. -/
def PrintsEightWay (g : Generated) : Prop :=
  ∀ plru : BitVec 7,
    (∀ old, whichReplace g.path plru old = EightWay.Cache.whichReplace plru) ∧
      ∀ h : Fin 8 → Bool, (∀ w w', h w = true → h w' = true → w = w') →
        loadPlru g.path (numbered h) plru = EightWay.Cache.loadPlru plru h

section Paths

variable {g : Generated}

theorem paths_four (perfect : Perfect 2 g) : g.path =
    [[(.bit 1, false), (.bit 0, false)], [(.bit 1, false), (.bit 0, true)],
      [(.bit 1, true), (.bit 2, false)], [(.bit 1, true), (.bit 2, true)]] := by
  rw [perfect.path]
  decide

theorem paths_eight (perfect : Perfect 3 g) : g.path =
    [[(.bit 3, false), (.bit 1, false), (.bit 0, false)],
      [(.bit 3, false), (.bit 1, false), (.bit 0, true)],
      [(.bit 3, false), (.bit 1, true), (.bit 2, false)],
      [(.bit 3, false), (.bit 1, true), (.bit 2, true)],
      [(.bit 3, true), (.bit 5, false), (.bit 4, false)],
      [(.bit 3, true), (.bit 5, false), (.bit 4, true)],
      [(.bit 3, true), (.bit 5, true), (.bit 6, false)],
      [(.bit 3, true), (.bit 5, true), (.bit 6, true)]] := by
  rw [perfect.path]
  decide

theorem prints_fourWay (perfect : Perfect 2 g) : PrintsFourWay g := by
  intro plru
  constructor
  · intro old
    have tree : PerfectTree.perfect 2 0 =
        .node 1 (.node 0 (.leaf 0) (.leaf 1)) (.node 2 (.leaf 2) (.leaf 3)) := rfl
    rw [Perfect.whichReplace_eq (k := 2) perfect plru old, tree]
    simp only [Tree.target, FourWay.Cache.whichReplace]
    split_ifs <;> rfl
  · intro h
    rw [paths_four perfect]
    rfl

theorem prints_eightWay (perfect : Perfect 3 g) : PrintsEightWay g := by
  intro plru
  constructor
  · intro old
    have tree : PerfectTree.perfect 3 0 =
        .node 3 (.node 1 (.node 0 (.leaf 0) (.leaf 1)) (.node 2 (.leaf 2) (.leaf 3)))
          (.node 5 (.node 4 (.leaf 4) (.leaf 5)) (.node 6 (.leaf 6) (.leaf 7))) := rfl
    rw [Perfect.whichReplace_eq (k := 3) perfect plru old, tree]
    simp only [Tree.target, EightWay.Cache.whichReplace]
    split_ifs <;> rfl
  · intro h only
    rw [paths_eight perfect]
    cases found : EightWay.Cache.hitCheck h with
    | true =>
      -- the generator prints one `if` for each way, the file has a chain of `else if`
      have here := EightWay.Refinement.hitWay_hits found
      generalize EightWay.Cache.hitWay h = w at here
      have alone : h = fun v => decide (v = w) := by
        funext v
        cases hit : h v with
        | true => simp [only v w hit here]
        | false =>
          have other : v ≠ w := by
            rintro rfl
            rw [here] at hit
            cases hit
          simp [other]
      rw [alone]
      fin_cases w <;> rfl
    | false =>
      have nowhere : h = fun _ => false := by
        funext v
        simp only [EightWay.Cache.hitCheck, Bool.or_eq_false_iff] at found
        fin_cases v <;> simp [found]
      rw [nowhere]
      rfl

end Paths

/-- The generator prints the replacement functions of both controllers of the repository. -/
theorem prints_written (build : List Label → Node) (height : Node → ℕ)
    (builds : ∀ nodes, build nodes = levelOrder nodes 0)
    (measures : ∀ value left right,
      height (.node value left right) = (BinaryTree.node value left right).height - 1) :
    (∃ g, control build height 4 = some g ∧ PrintsFourWay g) ∧
      ∃ g, control build height 8 = some g ∧ PrintsEightWay g := by
  obtain ⟨four, printed, perfect⟩ := control_perfect builds measures (k := 2) (by decide)
  obtain ⟨eight, printed', perfect'⟩ := control_perfect builds measures (k := 3) (by decide)
  exact ⟨⟨four, printed, prints_fourWay perfect⟩, eight, printed', prints_eightWay perfect'⟩

theorem prints_written_levelOrder :
    (∃ g, control (fun nodes => levelOrder nodes 0) (fun t => t.height - 1) 4 = some g ∧
      PrintsFourWay g) ∧
      ∃ g, control (fun nodes => levelOrder nodes 0) (fun t => t.height - 1) 8 = some g ∧
        PrintsEightWay g :=
  prints_written (fun nodes => levelOrder nodes 0) (fun t => t.height - 1) (fun _ => rfl)
    (fun _ _ _ => rfl)

end Mp4.Generator.WrittenCaches
