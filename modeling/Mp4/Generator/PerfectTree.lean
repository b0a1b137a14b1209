import Mp4.Generator.TreePaths
import Mp4.Lib.TreePlru

/-!
For `2^k` ways with `k ≤ 53` the generator builds the perfect tree of depth `k` with its
inner nodes numbered in order, and finds in it the path to every way.
-/

set_option autoImplicit false
set_option relaxedAutoImplicit false

namespace Mp4.Generator.PerfectTree

open Mp4.Lib.Binary64 Mp4.Lib.TreePlru Mp4.Generator.TreePaths

section Labels

private theorem truncate_natCast (n : ℕ) : truncate (n : ℚ) = n := by
  rw [truncate, if_pos (Nat.cast_nonneg n), Int.floor_natCast]

private theorem label_exact {ways n den v : ℕ} (positive : 0 < den)
    (value : ways * n = (v + 1) * den)
    (small : v + 1 < 2 ^ 53) : label ways n den = some (.bit v) := by
  have quotient : ((ways * n : ℕ) : ℚ) / (den : ℚ) = ((v + 1 : ℕ) : ℚ) := by
    have nonzero : (den : ℚ) ≠ 0 := by exact_mod_cast positive.ne'
    rw [value, div_eq_iff nonzero]
    push_cast
    ring
  have less : ((v + 1 : ℕ) : ℚ) - 1 = ((v : ℕ) : ℚ) := by
    push_cast
    ring
  simp only [label, quotient, toBinary64_natCast small, Option.bind_eq_bind, Option.bind_some,
    less, toBinary64_natCast (show v < 2 ^ 53 by omega), truncate_natCast]
  rfl

private theorem label_last {k : ℕ} (large : 54 ≤ k) {l : Label}
    (last : label (2 ^ k) (2 ^ k - 1) (2 ^ k) = some l) : l = .bit (2 ^ k) := by
  obtain ⟨j, rfl⟩ : ∃ j, k = 53 + j := ⟨k - 53, by omega⟩
  have quotient : ((2 ^ (53 + j) * (2 ^ (53 + j) - 1) : ℕ) : ℚ) / ((2 ^ (53 + j) : ℕ) : ℚ) =
      (2 : ℚ) ^ (53 + j) - 1 := by
    rw [Nat.cast_mul, Nat.cast_sub Nat.one_le_two_pow]
    push_cast
    rw [mul_div_assoc, mul_comm, div_mul_cancel₀ _ (by positivity)]
  rw [label, quotient, toBinary64_allOnes j (by omega)] at last
  by_cases fits : (2 : ℚ) ^ (53 + j) < 2 ^ 1024
  · rw [if_pos fits] at last
    simp only [Option.bind_eq_bind, Option.bind_some] at last
    rw [toBinary64_allOnes j (by omega), if_pos fits] at last
    have whole : truncate ((2 : ℚ) ^ (53 + j)) = 2 ^ (53 + j) := by
      have cast : (2 : ℚ) ^ (53 + j) = ((2 ^ (53 + j) : ℕ) : ℚ) := by push_cast; rfl
      rw [cast, truncate_natCast]
      push_cast
      rfl
    rw [Option.bind_some, whole] at last
    exact (Option.some.inj last).symm
  · rw [if_neg fits] at last
    cases last

end Labels

section Rows

/-- The labels of level `d`, in order. -/
def level (k d : ℕ) : List Label :=
  (List.range (2 ^ d)).map fun p => .bit ((2 ^ (k - d - 1) * (2 * p + 1) - 1 : ℕ) : ℤ)

def levels (k d : ℕ) : ℕ → List Label
  | 0 => []
  | m + 1 => level k d ++ levels k (d + 1) m

private theorem label_level {k d p : ℕ} (small : k ≤ 53) (inner : d < k) (inside : p < 2 ^ d) :
    label (2 ^ k) (2 * p + 1) (2 ^ (d + 1)) =
      some (.bit ((2 ^ (k - d - 1) * (2 * p + 1) - 1 : ℕ) : ℤ)) := by
  have split : 2 ^ k = 2 ^ (k - d - 1) * 2 ^ (d + 1) := by
    rw [← pow_add]
    congr 1
    omega
  have one : 1 ≤ 2 ^ (k - d - 1) * (2 * p + 1) := Nat.mul_pos (by positivity) (by omega)
  have bound : 2 ^ (k - d - 1) * (2 * p + 1) < 2 ^ k := by
    rw [split]
    refine Nat.mul_lt_mul_of_pos_left ?_ (by positivity)
    rw [pow_succ]
    omega
  have digits : 2 ^ k ≤ 2 ^ 53 := Nat.pow_le_pow_right (by decide) small
  refine label_exact (by positivity) ?_ (by omega)
  rw [Nat.sub_add_cancel one, split]
  ring

private theorem row_exact {k d : ℕ} (small : k ≤ 53) (inner : d < k) (m p : ℕ)
    (left : p + m = 2 ^ d) :
    row (2 ^ k) (2 ^ (d + 1)) (2 * p + 1) =
      some ((List.range' p m).map fun p => .bit ((2 ^ (k - d - 1) * (2 * p + 1) - 1 : ℕ) : ℤ)) := by
  have double : 2 ^ (d + 1) = 2 * 2 ^ d := by ring
  induction m generalizing p with
  | zero =>
    rw [row, if_neg (by omega)]
    rfl
  | succ m ih =>
    rw [row, if_pos (by omega), label_level small inner (by omega)]
    have next : 2 * p + 1 + 2 = 2 * (p + 1) + 1 := by ring
    rw [next, ih (p + 1) (by omega)]
    rfl

theorem rows_exact {k : ℕ} (small : k ≤ 53) (m d : ℕ) (left : d + m = k)
    (positive : 0 < 2 ^ (d + 1)) : rows (2 ^ k) (2 ^ (d + 1)) positive = some (levels k d m) := by
  induction m generalizing d with
  | zero =>
    have beyond : 2 ^ k < 2 ^ (d + 1) := Nat.pow_lt_pow_right (by decide) (by omega)
    rw [rows, if_neg (by omega)]
    rfl
  | succ m ih =>
    have within : 2 ^ (d + 1) ≤ 2 ^ k := Nat.pow_le_pow_right (by decide) (by omega)
    have here := row_exact small (show d < k by omega) (2 ^ d) 0 (by omega)
    have rest := ih (d + 1) (by omega) (by positivity)
    rw [rows, if_pos within]
    simp only [Nat.mul_zero, Nat.zero_add] at here
    simp only [pow_succ] at here rest ⊢
    rw [here, rest, ← List.range_eq_range']
    rfl

theorem nodes_exact {k : ℕ} (small : k ≤ 53) :
    nodes (2 ^ k) = some (levels k 0 k ++ (List.range (2 ^ k)).map fun i => .way (i + 1)) := by
  have inner := rows_exact small k 0 (Nat.zero_add k) (by decide)
  simp only [Nat.zero_add, pow_one] at inner
  rw [nodes, inner]
  rfl

private theorem mem_row {ways den : ℕ} (m n : ℕ) {r : List Label} (done : row ways den n = some r)
    (inside : n + 2 * m < den) :
    ∃ l, label ways (n + 2 * m) den = some l ∧ l ∈ r := by
  induction m generalizing n r with
  | zero =>
    rw [row, if_pos (by omega)] at done
    obtain ⟨l, here, done⟩ := Option.bind_eq_some_iff.mp done
    obtain ⟨rest, _, whole⟩ := Option.bind_eq_some_iff.mp done
    obtain rfl := Option.some.inj whole
    exact ⟨l, here, List.mem_cons_self⟩
  | succ m ih =>
    rw [row, if_pos (by omega)] at done
    obtain ⟨l, here, done⟩ := Option.bind_eq_some_iff.mp done
    obtain ⟨rest, later, whole⟩ := Option.bind_eq_some_iff.mp done
    obtain rfl := Option.some.inj whole
    obtain ⟨l', found, mem⟩ := ih (n + 2) later (by omega)
    have same : n + 2 + 2 * m = n + 2 * (m + 1) := by ring
    exact ⟨l', same ▸ found, List.mem_cons_of_mem _ mem⟩

private theorem mem_rows {ways : ℕ} (m den : ℕ) (positive : 0 < den) {inner : List Label}
    (done : rows ways den positive = some inner) (inside : den * 2 ^ m ≤ ways) :
    ∃ r, row ways (den * 2 ^ m) 1 = some r ∧ r ⊆ inner := by
  induction m generalizing den inner with
  | zero =>
    rw [rows, if_pos (by simpa using inside)] at done
    obtain ⟨r, here, done⟩ := Option.bind_eq_some_iff.mp done
    obtain ⟨rest, _, whole⟩ := Option.bind_eq_some_iff.mp done
    obtain rfl := Option.some.inj whole
    exact ⟨r, by simpa using here, List.subset_append_left _ _⟩
  | succ m ih =>
    have within : den ≤ ways := (Nat.le_mul_of_pos_right den (by positivity)).trans inside
    rw [rows, if_pos within] at done
    obtain ⟨r, here, done⟩ := Option.bind_eq_some_iff.mp done
    obtain ⟨rest, later, whole⟩ := Option.bind_eq_some_iff.mp done
    obtain rfl := Option.some.inj whole
    have same : den * 2 * 2 ^ m = den * 2 ^ (m + 1) := by ring
    obtain ⟨r', found, sub⟩ := ih (den * 2) (by omega) later (same ▸ inside)
    exact ⟨r', same ▸ found, fun l mem => List.mem_append_right _ (sub mem)⟩

theorem mem_nodes_last {k : ℕ} (large : 54 ≤ k) {ns : List Label}
    (done : nodes (2 ^ k) = some ns) : .bit (2 ^ k) ∈ ns := by
  obtain ⟨inner, computed, whole⟩ := Option.bind_eq_some_iff.mp done
  have last : 2 * 2 ^ (k - 1) = 2 ^ k := by
    rw [← pow_succ']
    congr 1
    omega
  have half : 1 + 2 * (2 ^ (k - 1) - 1) = 2 ^ k - 1 := by
    have one : 1 ≤ 2 ^ (k - 1) := Nat.one_le_two_pow
    omega
  obtain ⟨r, found, sub⟩ := mem_rows (k - 1) 2 (by decide) computed last.le
  rw [last] at found
  obtain ⟨l, value, mem⟩ := mem_row (2 ^ (k - 1) - 1) 1 found (by
    rw [half]
    have one : 1 ≤ 2 ^ k := Nat.one_le_two_pow
    omega)
  rw [half] at value
  rw [label_last large value] at mem
  obtain rfl := Option.some.inj whole
  exact List.mem_append_left _ (sub mem)

end Rows

section LevelOrder

/-- The tree of depth `h` over the ways from `o + 1` on, numbered in order. -/
def inOrder : ℕ → ℕ → Node
  | 0, o => .node (.way (o + 1)) .nil .nil
  | h + 1, o => .node (.bit ((o + 2 ^ h - 1 : ℕ) : ℤ)) (inOrder h o) (inOrder h (o + 2 ^ h))

theorem length_levels (k d m : ℕ) : (levels k d m).length = 2 ^ (d + m) - 2 ^ d := by
  induction m generalizing d with
  | zero => simp [levels]
  | succ m ih =>
    have grow : 2 ^ (d + 1) ≤ 2 ^ (d + 1 + m) := Nat.pow_le_pow_right (by decide) (by omega)
    have double : 2 ^ (d + 1) = 2 * 2 ^ d := by ring
    have same : d + (m + 1) = d + 1 + m := by omega
    rw [levels, List.length_append, ih, level, List.length_map, List.length_range, same]
    omega

theorem getElem?_levels {k e p : ℕ} (inside : p < 2 ^ e) (m d : ℕ) (le : d ≤ e)
    (lt : e < d + m) : (levels k d m)[2 ^ e - 2 ^ d + p]? =
      some (.bit ((2 ^ (k - e - 1) * (2 * p + 1) - 1 : ℕ) : ℤ)) := by
  induction m generalizing d with
  | zero => omega
  | succ m ih =>
    have length : (level k d).length = 2 ^ d := by simp [level]
    have double : 2 ^ (d + 1) = 2 * 2 ^ d := by ring
    rw [levels]
    rcases Nat.eq_or_lt_of_le le with same | below
    · subst same
      rw [Nat.sub_self, Nat.zero_add, List.getElem?_append_left (by omega)]
      simp [level, inside]
    · have grow : 2 ^ (d + 1) ≤ 2 ^ e := Nat.pow_le_pow_right (by decide) below
      have rest : 2 ^ e - 2 ^ d + p - 2 ^ d = 2 ^ e - 2 ^ (d + 1) + p := by omega
      rw [List.getElem?_append_right (by omega), length, rest]
      exact ih (d + 1) below (by omega)

theorem levelOrder_nodes {k : ℕ} (h d p : ℕ) (depth : d + h = k) (inside : p < 2 ^ d) :
    levelOrder (levels k 0 k ++ (List.range (2 ^ k)).map fun i => .way (i + 1)) (2 ^ d - 1 + p) =
      inOrder h (p * 2 ^ h) := by
  have length : (levels k 0 k ++ (List.range (2 ^ k)).map fun i => Label.way (i + 1)).length =
      2 ^ k - 1 + 2 ^ k := by
    simp [length_levels]
  have one : 1 ≤ 2 ^ d := Nat.one_le_two_pow
  induction h generalizing d p with
  | zero =>
    obtain rfl : d = k := depth
    have bound : 2 ^ d - 1 + p <
        (levels d 0 d ++ (List.range (2 ^ d)).map fun i => Label.way (i + 1)).length := by omega
    have leaf : (levels d 0 d ++ (List.range (2 ^ d)).map fun i => Label.way (i + 1))[
        2 ^ d - 1 + p] = .way (p + 1) := by
      have inner : (levels d 0 d).length = 2 ^ d - 1 := by simp [length_levels]
      rw [List.getElem_append_right (by omega)]
      simp [inner]
    rw [levelOrder, dif_pos (by omega), leaf, levelOrder, dif_neg (by omega), levelOrder,
      dif_neg (by omega)]
    simp [inOrder]
  | succ h ih =>
    have grow : 2 ^ (d + 1) = 2 * 2 ^ d := by ring
    have all : 2 ^ (d + 1) ≤ 2 ^ k := Nat.pow_le_pow_right (by decide) (by omega)
    have found := getElem?_levels (k := k) inside k 0 (Nat.zero_le d) (by omega)
    rw [pow_zero] at found
    obtain ⟨within, value⟩ := List.getElem?_eq_some_iff.mp found
    have bound : 2 ^ d - 1 + p <
        (levels k 0 k ++ (List.range (2 ^ k)).map fun i => Label.way (i + 1)).length := by omega
    have root : (levels k 0 k ++ (List.range (2 ^ k)).map fun i => Label.way (i + 1))[
        2 ^ d - 1 + p] = .bit ((p * 2 ^ (h + 1) + 2 ^ h - 1 : ℕ) : ℤ) := by
      have order : 2 ^ (k - d - 1) * (2 * p + 1) = p * 2 ^ (h + 1) + 2 ^ h := by
        rw [show k - d - 1 = h by omega]
        ring
      rw [List.getElem_append_left within, value, order]
    have left : 2 * (2 ^ d - 1 + p) + 1 = 2 ^ (d + 1) - 1 + 2 * p := by omega
    have right : 2 * (2 ^ d - 1 + p) + 2 = 2 ^ (d + 1) - 1 + (2 * p + 1) := by omega
    rw [levelOrder, dif_pos (by omega), root, left, right,
      ih (d + 1) (2 * p) (by omega) (by omega) (by omega),
      ih (d + 1) (2 * p + 1) (by omega) (by omega) (by omega), inOrder]
    have same : 2 * p * 2 ^ h = p * 2 ^ (h + 1) := by ring
    have same' : (2 * p + 1) * 2 ^ h = p * 2 ^ (h + 1) + 2 ^ h := by ring
    rw [same, same']

theorem height_inOrder (h o : ℕ) : (inOrder h o).height = h + 1 := by
  induction h generalizing o with
  | zero => rfl
  | succ h ih => simp [inOrder, ih]

end LevelOrder

section Search

def values : Node → List Label
  | .nil => []
  | .node value left right => value :: (values left ++ values right)

private theorem values_push (child : Node) {visited : List Label}
    (fresh : ∀ l ∈ values child, l ∉ visited) (stack : List Node) :
    (push child visited stack).flatMap values = values child ++ stack.flatMap values := by
  cases child with
  | nil => rfl
  | node value left right =>
    rw [push, if_neg (fresh value List.mem_cons_self), List.flatMap_cons]

theorem search_iff (location : Label) (stack : List Node) (visited : List Label)
    (nodup : (stack.flatMap values).Nodup) (fresh : ∀ l ∈ stack.flatMap values, l ∉ visited)
    (unseen : location ∉ visited) :
    search location stack visited = true ↔ location ∈ stack.flatMap values := by
  induction stack, visited using search.induct location with
  | case1 visited => simp [search]
  | case2 visited stack ih =>
    rw [search]
    exact ih nodup fresh unseen
  | case3 visited value left right stack visited' here =>
    have new : value ∉ visited := fresh value (by simp [values])
    have seen : visited' = value :: visited := if_neg new
    rw [seen] at here
    have this : location = value := (List.mem_cons.mp here).resolve_right unseen
    rw [search, if_neg new, if_pos here]
    simp [values, this]
  | case4 visited value left right stack visited' stack' missing ih =>
    have new : value ∉ visited := fresh value (by simp [values])
    have seen : visited' = value :: visited := if_neg new
    have all : (BinaryTree.node value left right :: stack).flatMap values =
        value :: (values left ++ (values right ++ stack.flatMap values)) := by
      simp [values]
    rw [all] at nodup fresh
    obtain ⟨head, tail⟩ := List.nodup_cons.mp nodup
    have fresh' : ∀ l ∈ values left ++ (values right ++ stack.flatMap values), l ∉ visited' := by
      intro l mem seenBefore
      rw [seen] at seenBefore
      rcases List.mem_cons.mp seenBefore with rfl | seenBefore
      · exact head mem
      · exact fresh l (List.mem_cons_of_mem _ mem) seenBefore
    have pushed : stack'.flatMap values =
        values left ++ (values right ++ stack.flatMap values) := by
      have one := values_push left
        (fun l mem => fresh' l (List.mem_append_left _ mem)) (push right visited' stack)
      have two := values_push right
        (fun l mem => fresh' l (List.mem_append_right _ (List.mem_append_left _ mem))) stack
      exact one.trans (by rw [two])
    have later :
        search location (push left (value :: visited) (push right (value :: visited) stack))
          (value :: visited) = search location stack' visited' := by rw [← seen]
    have other : location ≠ value := by
      rintro rfl
      exact missing (seen ▸ List.mem_cons_self)
    have found := ih (pushed ▸ tail) (pushed ▸ fresh') missing
    rw [pushed] at found
    rw [seen] at missing
    rw [search, if_neg new, if_neg missing, all, later, found]
    simp [other]

theorem dfs_iff {root : Node} (nodup : (values root).Nodup) (location : Label) :
    dfs root location = true ↔ location ∈ values root := by
  cases root with
  | nil => simp [dfs, values]
  | node value left right =>
    have single : [BinaryTree.node value left right].flatMap values =
        values (.node value left right) := by simp
    rw [dfs, search_iff _ _ _ (single ▸ nodup) (by simp) (by simp), single]

private theorem mem_inOrder (h o : ℕ) (l : Label) : l ∈ values (inOrder h o) ↔
    (∃ j : ℕ, o ≤ j ∧ j + 1 < o + 2 ^ h ∧ l = .bit j) ∨
    ∃ i, o ≤ i ∧ i < o + 2 ^ h ∧ l = .way (i + 1) := by
  induction h generalizing o with
  | zero =>
    simp only [inOrder, values, List.append_nil, List.mem_singleton, pow_zero]
    constructor
    · intro this
      exact .inr ⟨o, le_refl o, by omega, this⟩
    · rintro (⟨j, _, _, _⟩ | ⟨i, _, _, this⟩)
      · omega
      · rw [this, show i = o by omega]
  | succ h ih =>
    have double : 2 ^ (h + 1) = 2 ^ h + 2 ^ h := by ring
    have one : 1 ≤ 2 ^ h := Nat.one_le_two_pow
    simp only [inOrder, values, List.mem_cons, List.mem_append, ih]
    constructor
    · rintro (root | (⟨j, lo, hi, this⟩ | ⟨i, lo, hi, this⟩) |
        (⟨j, lo, hi, this⟩ | ⟨i, lo, hi, this⟩))
      · exact .inl ⟨o + 2 ^ h - 1, by omega, by omega, root⟩
      · exact .inl ⟨j, lo, by omega, this⟩
      · exact .inr ⟨i, lo, by omega, this⟩
      · exact .inl ⟨j, by omega, by omega, this⟩
      · exact .inr ⟨i, by omega, by omega, this⟩
    · rintro (⟨j, lo, hi, this⟩ | ⟨i, lo, hi, this⟩)
      · rcases Nat.lt_trichotomy (j + 1) (o + 2 ^ h) with before | root | after
        · exact .inr (.inl (.inl ⟨j, lo, before, this⟩))
        · exact .inl (by rw [this, show j = o + 2 ^ h - 1 by omega])
        · exact .inr (.inr (.inl ⟨j, by omega, by omega, this⟩))
      · by_cases before : i < o + 2 ^ h
        · exact .inr (.inl (.inr ⟨i, lo, before, this⟩))
        · exact .inr (.inr (.inr ⟨i, by omega, by omega, this⟩))

private theorem nodup_inOrder (h o : ℕ) : (values (inOrder h o)).Nodup := by
  induction h generalizing o with
  | zero => simp [inOrder, values]
  | succ h ih =>
    have one : 1 ≤ 2 ^ h := Nat.one_le_two_pow
    refine List.nodup_cons.mpr ⟨?_, List.nodup_append.mpr ⟨ih o, ih (o + 2 ^ h), ?_⟩⟩
    · intro mem
      rcases List.mem_append.mp mem with mem | mem <;>
        rcases (mem_inOrder _ _ _).mp mem with ⟨j, lo, hi, this⟩ | ⟨i, lo, hi, this⟩
      · have := Int.ofNat.inj (Label.bit.inj this)
        omega
      · cases this
      · have := Int.ofNat.inj (Label.bit.inj this)
        omega
      · cases this
    · intro l left l' right same
      subst same
      rcases (mem_inOrder _ _ _).mp left with ⟨j, lo, hi, rfl⟩ | ⟨i, lo, hi, rfl⟩ <;>
        rcases (mem_inOrder _ _ _).mp right with ⟨j', lo', hi', this⟩ | ⟨i', lo', hi', this⟩
      · have := Int.ofNat.inj (Label.bit.inj this)
        omega
      · cases this
      · cases this
      · have := Label.way.inj this
        omega

private theorem dfs_inOrder (h o i : ℕ) :
    dfs (inOrder h o) (.way (i + 1)) = true ↔ o ≤ i ∧ i < o + 2 ^ h := by
  rw [dfs_iff (nodup_inOrder h o), mem_inOrder]
  constructor
  · rintro (⟨j, _, _, this⟩ | ⟨i', lo, hi, this⟩)
    · cases this
    · have same := Label.way.inj this
      omega
  · rintro ⟨lo, hi⟩
    exact .inr ⟨i, lo, hi, rfl⟩

end Search

section Paths

/-- The perfect tree of depth `h` over the ways from `o` on. -/
def perfect : ℕ → ℕ → Tree ℕ ℕ
  | 0, o => .leaf o
  | h + 1, o => .node (o + 2 ^ h - 1) (perfect h o) (perfect h (o + 2 ^ h))

theorem mem_ways (h o i : ℕ) : i ∈ (perfect h o).ways ↔ o ≤ i ∧ i < o + 2 ^ h := by
  induction h generalizing o with
  | zero =>
    simp only [perfect, Tree.ways, List.mem_singleton, pow_zero]
    omega
  | succ h ih =>
    have double : 2 ^ (h + 1) = 2 ^ h + 2 ^ h := by ring
    simp only [perfect, Tree.ways, List.mem_append, ih]
    omega

theorem mem_labels (h o j : ℕ) : j ∈ (perfect h o).labels ↔ o ≤ j ∧ j + 1 < o + 2 ^ h := by
  induction h generalizing o with
  | zero =>
    simp only [perfect, Tree.labels, List.not_mem_nil, pow_zero, false_iff]
    omega
  | succ h ih =>
    have double : 2 ^ (h + 1) = 2 ^ h + 2 ^ h := by ring
    have one : 1 ≤ 2 ^ h := Nat.one_le_two_pow
    simp only [perfect, Tree.labels, List.mem_cons, List.mem_append, ih]
    omega

theorem perfect_proper (h o : ℕ) : (perfect h o).Proper := by
  induction h generalizing o with
  | zero => exact ⟨List.nodup_nil, List.nodup_singleton o⟩
  | succ h ih =>
    have one : 1 ≤ 2 ^ h := Nat.one_le_two_pow
    constructor
    · refine List.nodup_cons.mpr ⟨?_, List.nodup_append.mpr
        ⟨(ih o).labels, (ih (o + 2 ^ h)).labels, ?_⟩⟩
      · intro mem
        rcases List.mem_append.mp mem with mem | mem <;> rw [mem_labels] at mem <;> omega
      · intro j left j' right same
        rw [mem_labels] at left right
        omega
    · refine List.nodup_append.mpr ⟨(ih o).ways, (ih (o + 2 ^ h)).ways, ?_⟩
      intro i left i' right same
      rw [mem_ways] at left right
      omega

theorem length_path {h o i : ℕ} (mem : o ≤ i ∧ i < o + 2 ^ h) :
    ((perfect h o).path i).length = h := by
  induction h generalizing o with
  | zero => rfl
  | succ h ih =>
    have double : 2 ^ (h + 1) = 2 ^ h + 2 ^ h := by ring
    rw [perfect, Tree.path]
    split_ifs with left
    · rw [mem_ways] at left
      rw [List.length_cons, ih left]
    · rw [mem_ways] at left
      rw [List.length_cons, ih (by omega)]

def printed (p : List (ℕ × Bool)) : List (Label × Bool) := p.map fun e => (.bit e.1, e.2)

theorem walk_inOrder {h o i : ℕ} (mem : o ≤ i ∧ i < o + 2 ^ h) :
    walk (.way (i + 1)) h (inOrder h o) = printed ((perfect h o).path i) := by
  induction h generalizing o with
  | zero => rfl
  | succ h ih =>
    have double : 2 ^ (h + 1) = 2 ^ h + 2 ^ h := by ring
    rw [inOrder, walk, perfect, Tree.path]
    by_cases left : o ≤ i ∧ i < o + 2 ^ h
    · rw [if_pos ((dfs_inOrder h o i).mpr left), if_pos ((mem_ways h o i).mpr left), ih left]
      rfl
    · have right : o + 2 ^ h ≤ i ∧ i < o + 2 ^ h + 2 ^ h := by omega
      rw [if_neg (fun found => left ((dfs_inOrder h o i).mp found)),
        if_pos ((dfs_inOrder h _ i).mpr right),
        if_neg (fun found => left ((mem_ways h o i).mp found)), ih right]
      rfl

end Paths

end Mp4.Generator.PerfectTree
