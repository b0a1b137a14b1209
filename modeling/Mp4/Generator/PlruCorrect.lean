import Mathlib.Data.Nat.Factorization.Basic
import Mp4.Generator.PerfectTree

/-!
The generated replacement functions. For `2^k` ways they are tree pseudo-LRU exactly as
long as the node numbers fit the floating point they are computed in.
-/

set_option autoImplicit false
set_option relaxedAutoImplicit false

namespace Mp4.Generator.PlruCorrect

open Mp4.Lib.Bits Mp4.Lib.TreePlru Mp4.Generator.TreePaths Mp4.Generator.PerfectTree

def isInner : Label → Bool
  | .bit _ => true
  | .way _ => false

/-- What the generated functions are for, with `2^k` ways. -/
structure Correct (k : ℕ) (g : Generated) : Prop where
  /-- The inner nodes carry the bit numbers `0..ways-2`, each once. -/
  labels : (g.nodes.filter isInner).Perm ((List.range (2 ^ k - 1)).map fun j : ℕ => .bit (j : ℤ))
  /-- Exactly one way is selected, and it is the one assigned. -/
  one : ∀ (plru : BitVec (2 ^ k - 1)) (old : ℕ),
    (∃! i, i < 2 ^ k ∧ selects g.path plru i = true) ∧
    whichReplace g.path plru old < 2 ^ k ∧
    selects g.path plru (whichReplace g.path plru old) = true
  /-- Each path has `k` different bits. -/
  length : ∀ i < 2 ^ k, (g.path.getD i []).length = k ∧ ((g.path.getD i []).map Prod.fst).Nodup
  /-- A touch changes no other bit. -/
  frame : ∀ i < 2 ^ k, ∀ (plru : BitVec (2 ^ k - 1)) (j : ℕ),
    .bit (j : ℤ) ∉ (g.path.getD i []).map Prod.fst →
    (loadPlru g.path (fun i' => i' == i) plru).getLsbD j = plru.getLsbD j
  /-- The last `k` different ways touched are not selected. -/
  recent : ∀ (plru : BitVec (2 ^ k - 1)) (old : ℕ) (us : List ℕ) (w : ℕ) (vs : List ℕ),
    (∀ u ∈ us ++ w :: vs, u < 2 ^ k) → vs.dedup.length < k →
    whichReplace g.path (touches g.path plru (us ++ w :: vs)) old ≠ w

section Bits

variable {n : ℕ}

private theorem getLsbD_assign {p : List (ℕ × Bool)} (inside : ∀ e ∈ p, e.1 < n) (x : BitVec n) :
    ((printed p).foldl assignBit x).getLsbD = Tree.assign p x.getLsbD := by
  induction p generalizing x with
  | nil => rfl
  | cons e p ih =>
    have bits : (assignBit x (.bit (e.1 : ℤ), e.2)).getLsbD =
        Function.update x.getLsbD e.1 e.2 := by
      funext j
      have here : e.1 < n := inside e List.mem_cons_self
      by_cases within : j < n
      · by_cases same : j = e.1
        · subst same
          simp [assignBit, BitVec.getLsbD_eq_getElem within]
        · simp [assignBit, BitVec.getLsbD_eq_getElem within, same]
      · have other : j ≠ e.1 := by omega
        rw [Function.update_of_ne other, BitVec.getLsbD_of_ge _ _ (by omega),
          BitVec.getLsbD_of_ge _ _ (by omega)]
    have rest := ih (fun e' mem => inside e' (List.mem_cons_of_mem _ mem))
      (assignBit x (.bit (e.1 : ℤ), e.2))
    rw [bits] at rest
    exact rest

private theorem all_bitIs (p : List (ℕ × Bool)) (x : BitVec n) :
    (printed p).all (bitIs x) = true ↔ Tree.Follows p x.getLsbD := by
  simp [printed, bitIs, Tree.Follows]

end Bits

section Lists

variable {α : Type} {β : Type}

private theorem foldl_zipIdx_skip (f : β → α × ℕ → β) (xs : List α) (n : ℕ) (b : β)
    (skips : ∀ j (h : j < xs.length) b, f b (xs[j], n + j) = b) :
    (xs.zipIdx n).foldl f b = b := by
  induction xs generalizing n with
  | nil => rfl
  | cons x xs ih =>
    have here : f b (x, n) = b := skips 0 (by simp) b
    rw [List.zipIdx_cons, List.foldl_cons, here]
    refine ih (n + 1) ?_
    intro j h b
    have rest := skips (j + 1) (by simpa using h) b
    rw [show n + 1 + j = n + (j + 1) by omega]
    exact rest

private theorem foldl_zipIdx_one (f : β → α × ℕ → β) {xs : List α} {i : ℕ} (inside : i < xs.length)
    (skips : ∀ j (h : j < xs.length), j ≠ i → ∀ b, f b (xs[j], j) = b) (b : β) :
    xs.zipIdx.foldl f b = f b (xs[i], i) := by
  have split : xs = xs.take i ++ xs[i] :: xs.drop (i + 1) := by simp
  have length : (xs.take i).length = i := by
    rw [List.length_take]
    omega
  have whole : xs.zipIdx =
      (xs.take i).zipIdx ++ (xs[i], i) :: (xs.drop (i + 1)).zipIdx (i + 1) := by
    conv_lhs => rw [split]
    rw [List.zipIdx_append, List.zipIdx_cons, length, Nat.zero_add]
  rw [whole, List.foldl_append, List.foldl_cons, foldl_zipIdx_skip f (xs.take i),
    foldl_zipIdx_skip f (xs.drop (i + 1))]
  · intro j h b
    rw [List.length_drop] at h
    rw [List.getElem_drop]
    exact skips (i + 1 + j) (by omega) (by omega) b
  · intro j h b
    rw [length] at h
    rw [List.getElem_take, Nat.zero_add]
    exact skips j (by omega) (by omega) b

end Lists

section Perfect

variable {k : ℕ} {g : Generated}

structure Perfect (k : ℕ) (g : Generated) : Prop where
  nodes : g.nodes = levels k 0 k ++ (List.range (2 ^ k)).map fun i => .way (i + 1)
  path : g.path = (List.range (2 ^ k)).map fun i => printed ((perfect k 0).path i)

private theorem Perfect.getD (h : Perfect k g) {i : ℕ} (inside : i < 2 ^ k) :
    g.path.getD i [] = printed ((perfect k 0).path i) := by
  rw [h.path, List.getD_eq_getElem?_getD]
  simp [inside]

private theorem Perfect.getElem (h : Perfect k g) {i : ℕ} (inside : i < g.path.length) :
    g.path[i] = printed ((perfect k 0).path i) := by
  simp [h.path]

private theorem Perfect.length (h : Perfect k g) : g.path.length = 2 ^ k := by simp [h.path]

private theorem mem_way {i : ℕ} : i ∈ (perfect k 0).ways ↔ i < 2 ^ k := by
  rw [mem_ways]
  omega

private theorem path_inside (i : ℕ) : ∀ e ∈ (perfect k 0).path i, e.1 < 2 ^ k - 1 := by
  intro e mem
  have label := (mem_labels k 0 e.1).mp (Tree.path_labels mem)
  omega

private theorem Perfect.selects_iff (h : Perfect k g) (plru : BitVec (2 ^ k - 1)) {i : ℕ}
    (inside : i < 2 ^ k) :
    selects g.path plru i = true ↔ (perfect k 0).target (~~~plru).getLsbD = i := by
  rw [selects, h.getD inside, all_bitIs]
  exact Tree.follows_path_iff (perfect_proper k 0) (mem_way.mpr inside) _

theorem Perfect.whichReplace_eq (h : Perfect k g) (plru : BitVec (2 ^ k - 1)) (old : ℕ) :
    whichReplace g.path plru old = (perfect k 0).target (~~~plru).getLsbD := by
  have inside : (perfect k 0).target (~~~plru).getLsbD < 2 ^ k := mem_way.mp (Tree.target_mem _ _)
  have chosen : ∀ j (hj : j < g.path.length), g.path[j].all (bitIs (~~~plru)) = true ↔
      (perfect k 0).target (~~~plru).getLsbD = j := by
    intro j hj
    have within : j < 2 ^ k := h.length ▸ hj
    rw [← h.selects_iff plru within, selects, h.getD within, h.getElem hj]
  have inside' : (perfect k 0).target (~~~plru).getLsbD < g.path.length := h.length.symm ▸ inside
  rw [whichReplace, foldl_zipIdx_one _ inside', if_pos ((chosen _ inside').mpr rfl)]
  intro j hj other b
  exact if_neg fun found => other ((chosen j hj).mp found).symm

private theorem Perfect.loadPlru_eq (h : Perfect k g) (plru : BitVec (2 ^ k - 1)) {i : ℕ}
    (inside : i < 2 ^ k) : (loadPlru g.path (fun j => j == i) plru).getLsbD =
      Tree.assign ((perfect k 0).path i) plru.getLsbD := by
  have inside' : i < g.path.length := h.length.symm ▸ inside
  rw [loadPlru, foldl_zipIdx_one _ inside']
  · rw [← getLsbD_assign (path_inside i), h.getElem inside']
    simp
  · intro j hj other b
    simp [other]

private theorem Perfect.touches_eq (h : Perfect k g) (us : List ℕ) (inside : ∀ u ∈ us, u < 2 ^ k)
    (plru : BitVec (2 ^ k - 1)) :
    (touches g.path plru us).getLsbD = (perfect k 0).touched plru.getLsbD us := by
  induction us generalizing plru with
  | nil => rfl
  | cons u us ih =>
    have rest := ih (fun v mem => inside v (List.mem_cons_of_mem _ mem))
      (loadPlru g.path (fun j => j == u) plru)
    rw [h.loadPlru_eq plru (inside u List.mem_cons_self)] at rest
    exact rest

/-- A touched way is selected again only after `k` different others. -/
private theorem Perfect.whichReplace_ne (h : Perfect k g) (plru : BitVec (2 ^ k - 1)) (old : ℕ)
    (us : List ℕ) (w : ℕ) (vs : List ℕ) (inside : ∀ u ∈ us ++ w :: vs, u < 2 ^ k)
    (few : vs.dedup.length < k) :
    whichReplace g.path (touches g.path plru (us ++ w :: vs)) old ≠ w := by
  have within : w < 2 ^ k := inside w (by simp)
  have complement : (~~~(touches g.path plru (us ++ w :: vs))).getLsbD = fun j =>
      decide (j < 2 ^ k - 1) && !(touches g.path plru (us ++ w :: vs)).getLsbD j := by
    funext j
    exact BitVec.getLsbD_not
  have touched : (touches g.path plru (us ++ w :: vs)).getLsbD =
      (perfect k 0).touched ((perfect k 0).touched plru.getLsbD us) (w :: vs) := by
    rw [h.touches_eq _ inside, Tree.touched, Tree.touched, Tree.touched, List.foldl_append]
  have length := length_path (h := k) (o := 0) (i := w) (by omega)
  have few' : vs.dedup.length < ((perfect k 0).path w).length := by
    rw [length]
    exact few
  have other := Tree.target_ne (perfect_proper k 0) (mem_way.mpr within)
    ((perfect k 0).touched plru.getLsbD us) few'
  -- outside the register no bit is looked at
  have same : (perfect k 0).target (~~~(touches g.path plru (us ++ w :: vs))).getLsbD = w →
      (perfect k 0).target (fun l =>
        !(perfect k 0).touched ((perfect k 0).touched plru.getLsbD us) (w :: vs) l) = w := by
    intro found
    have follows := (Tree.follows_path_iff (perfect_proper k 0) (mem_way.mpr within) _).mpr found
    refine (Tree.follows_path_iff (perfect_proper k 0) (mem_way.mpr within) _).mp ?_
    intro e mem
    have bit := follows e mem
    rw [complement] at bit
    simp only [path_inside w e mem, decide_true, Bool.true_and] at bit
    rw [← touched]
    exact bit
  rw [h.whichReplace_eq]
  exact fun found => other (same found)

private theorem isInner_levels (m d : ℕ) : (levels k d m).filter isInner = levels k d m := by
  rw [List.filter_eq_self]
  induction m generalizing d with
  | zero => simp [levels]
  | succ m ih =>
    intro l mem
    rcases List.mem_append.mp mem with mem | mem
    · obtain ⟨p, _, rfl⟩ := List.mem_map.mp mem
      rfl
    · exact ih (d + 1) l mem

private theorem mem_levels {j : ℕ} (inside : j < 2 ^ k - 1) : .bit (j : ℤ) ∈ levels k 0 k := by
  obtain ⟨a, m, odd, split⟩ := Nat.exists_eq_two_pow_mul_odd (n := j + 1) (by omega)
  obtain ⟨p, rfl⟩ := odd
  have small : a < k := by
    by_contra large
    have grow : 2 ^ k ≤ 2 ^ a := Nat.pow_le_pow_right (by decide) (by omega)
    have least : 2 ^ a * 1 ≤ 2 ^ a * (2 * p + 1) := Nat.mul_le_mul_left _ (by omega)
    omega
  have position : p < 2 ^ (k - a - 1) := by
    by_contra large
    have least : 2 ^ a * (2 * 2 ^ (k - a - 1)) ≤ 2 ^ a * (2 * p + 1) :=
      Nat.mul_le_mul_left _ (by omega)
    have whole : 2 ^ a * (2 * 2 ^ (k - a - 1)) = 2 ^ k := by
      rw [← pow_succ', ← pow_add]
      congr 1
      omega
    rw [whole, ← split] at least
    omega
  have found := getElem?_levels (k := k) position k 0 (Nat.zero_le _) (by omega)
  have value : 2 ^ (k - (k - a - 1) - 1) * (2 * p + 1) - 1 = j := by
    rw [show k - (k - a - 1) - 1 = a by omega, ← split]
    omega
  rw [value] at found
  exact List.mem_of_getElem? found

private theorem perm_levels :
    (levels k 0 k).Perm ((List.range (2 ^ k - 1)).map fun j : ℕ => .bit (j : ℤ)) := by
  have nodup : ((List.range (2 ^ k - 1)).map fun j : ℕ => Label.bit (j : ℤ)).Nodup := by
    refine List.Nodup.map ?_ List.nodup_range
    intro i j same
    exact Int.ofNat.inj (Label.bit.inj same)
  have subset : (List.range (2 ^ k - 1)).map (fun j : ℕ => Label.bit (j : ℤ)) ⊆ levels k 0 k := by
    intro l mem
    obtain ⟨j, inside, rfl⟩ := List.mem_map.mp mem
    exact mem_levels (List.mem_range.mp inside)
  refine ((List.Nodup.subperm nodup subset).perm_of_length_le ?_).symm
  simp [length_levels]

theorem Perfect.correct (h : Perfect k g) : Correct k g := by
  constructor
  · have ways : ((List.range (2 ^ k)).map fun i => Label.way (i + 1)).filter isInner = [] := by
      rw [List.filter_eq_nil_iff]
      intro l mem
      obtain ⟨i, _, rfl⟩ := List.mem_map.mp mem
      simp [isInner]
    rw [h.nodes, List.filter_append, isInner_levels, ways, List.append_nil]
    exact perm_levels
  · intro plru old
    have inside : (perfect k 0).target (~~~plru).getLsbD < 2 ^ k :=
      mem_way.mp (Tree.target_mem _ _)
    refine ⟨⟨_, ⟨inside, (h.selects_iff plru inside).mpr rfl⟩, ?_⟩, ?_, ?_⟩
    · rintro i ⟨within, selected⟩
      exact ((h.selects_iff plru within).mp selected).symm
    · rw [h.whichReplace_eq]
      exact inside
    · rw [h.whichReplace_eq]
      exact (h.selects_iff plru inside).mpr rfl
  · intro i inside
    have bits : (g.path.getD i []).map Prod.fst =
        (((perfect k 0).path i).map Prod.fst).map fun j : ℕ => Label.bit (j : ℤ) := by
      rw [h.getD inside, printed, List.map_map, List.map_map]
      rfl
    constructor
    · rw [h.getD inside, printed, List.length_map, length_path (by omega)]
    · rw [bits]
      refine List.Nodup.map ?_ (Tree.path_nodup (perfect_proper k 0) i)
      intro a b same
      exact Int.ofNat.inj (Label.bit.inj same)
  · intro i inside plru j off
    rw [h.loadPlru_eq plru inside]
    refine Tree.assign_other ?_ _
    intro on
    refine off ?_
    obtain ⟨e, mem, rfl⟩ := List.mem_map.mp on
    rw [h.getD inside, printed, List.map_map]
    exact List.mem_map.mpr ⟨e, mem, rfl⟩
  · exact h.whichReplace_ne

end Perfect

section Control

variable {build : List Label → Node} {height : Node → ℕ}

theorem control_perfect (builds : ∀ nodes, build nodes = levelOrder nodes 0)
    (measures : ∀ value left right,
      height (.node value left right) = (BinaryTree.node value left right).height - 1)
    {k : ℕ} (small : k ≤ 53) :
    ∃ g, control build height (2 ^ k) = some g ∧ Perfect k g := by
  have tree : build (levels k 0 k ++ (List.range (2 ^ k)).map fun i => .way (i + 1)) =
      inOrder k 0 := by
    have whole := levelOrder_nodes (k := k) k 0 0 (Nat.zero_add k) (by decide)
    rw [Nat.zero_mul] at whole
    rw [builds]
    exact whole
  have depth : height (inOrder k 0) = k := by
    have edges : height (inOrder k 0) = (inOrder k 0).height - 1 := by
      cases k with
      | zero => exact measures _ _ _
      | succ k => exact measures _ _ _
    rw [edges, height_inOrder]
    omega
  refine ⟨⟨_, (List.range (2 ^ k)).map fun i => walk (.way (i + 1)) k (inOrder k 0)⟩, ?_, rfl, ?_⟩
  · unfold TreePaths.control
    simp only [nodes_exact small, Option.bind_eq_bind, Option.bind_some, tree, depth]
    rfl
  · refine List.map_congr_left ?_
    intro i mem
    have inside := List.mem_range.mp mem
    exact walk_inOrder ⟨Nat.zero_le i, by omega⟩

theorem control_wrong {k : ℕ} (large : 54 ≤ k) {g : Generated}
    (done : control build height (2 ^ k) = some g) : ¬ Correct k g := by
  intro correct
  obtain ⟨ns, computed, whole⟩ := Option.bind_eq_some_iff.mp done
  obtain rfl := Option.some.inj whole
  have last : Label.bit (2 ^ k) ∈ ns.filter isInner :=
    List.mem_filter.mpr ⟨mem_nodes_last large computed, rfl⟩
  obtain ⟨j, mem, same⟩ := List.mem_map.mp (correct.labels.mem_iff.mp last)
  have value : (j : ℤ) = 2 ^ k := Label.bit.inj same
  have inside := List.mem_range.mp mem
  have value' : j = 2 ^ k := by exact_mod_cast value
  omega

/-- The generated functions are right exactly when the bit numbers fit the floating point
in which they are computed. -/
theorem generated_correct_iff (build : List Label → Node) (height : Node → ℕ)
    (builds : ∀ nodes, build nodes = levelOrder nodes 0)
    (measures : ∀ value left right,
      height (.node value left right) = (BinaryTree.node value left right).height - 1) (k : ℕ) :
    (∃ g, control build height (2 ^ k) = some g ∧ Correct k g) ↔ k ≤ 53 := by
  constructor
  · rintro ⟨g, done, correct⟩
    by_contra large
    exact control_wrong (by omega) done correct
  · intro small
    obtain ⟨g, done, perfect⟩ := control_perfect builds measures small
    exact ⟨g, done, perfect.correct⟩

theorem generated_correct_iff_fourWays :
    ∃ g, control (fun nodes => levelOrder nodes 0) (fun t => t.height - 1) (2 ^ 2) = some g ∧
      Correct 2 g :=
  (generated_correct_iff (fun nodes => levelOrder nodes 0) (fun t => t.height - 1)
    (fun _ => rfl) (fun _ _ _ => rfl) 2).mpr (by decide)

/-- With `2^54` ways no result of the generator is right. -/
theorem generated_wrong_allWays : ¬ ∀ k, 1 ≤ k →
    ∃ g, control (fun nodes => levelOrder nodes 0) (fun t => t.height - 1) (2 ^ k) = some g ∧
      Correct k g := by
  intro right
  obtain ⟨g, done, correct⟩ := right 54 (by decide)
  exact control_wrong le_rfl done correct

end Control

end Mp4.Generator.PlruCorrect
