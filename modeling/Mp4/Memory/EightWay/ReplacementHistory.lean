import Mp4.Lib.TreePlru
import Mp4.Memory.EightWay.FlatMemory

/-!
The replacement choice of `modular_cache` over runs. `load_PLRU` and `which_replace` are the
touch and the walk of one tree on eight ways, and the PLRU array holds for every set what
the answered accesses to that set have touched, in their order.
-/

set_option autoImplicit false
set_option relaxedAutoImplicit false

namespace Mp4.Memory.EightWay.ReplacementHistory

open Mp4.Lib.Bits Mp4.Lib.Clocked Mp4.Lib.TreePlru Mp4.Memory.Address Mp4.Memory.Arrays
open Mp4.Memory.EightWay.Datapath Mp4.Memory.EightWay.Cache
open Mp4.Memory.EightWay.Refinement (pendNext)
open Mp4.Memory.EightWay.FlatMemory (Cycle)

variable {n : Nat}

def plruTree : Tree Nat (Fin 8) :=
  .node 3
    (.node 1 (.node 0 (.leaf 0) (.leaf 1)) (.node 2 (.leaf 2) (.leaf 3)))
    (.node 5 (.node 4 (.leaf 4) (.leaf 5)) (.node 6 (.leaf 6) (.leaf 7)))

def bits (plru : BitVec 7) : Nat → Bool := plru.getLsbD

private theorem plruTree_proper : plruTree.Proper := ⟨by decide, by decide⟩

private theorem mem_plruTree (w : Fin 8) : w ∈ plruTree.ways := by
  revert w
  decide

private theorem plruTree_deep : ∀ w ∈ plruTree.ways, 3 ≤ (plruTree.path w).length := by decide

private theorem bits_setBit (plru : BitVec 7) {l : Nat} (inside : l < 7) (b : Bool) :
    bits (setBit plru l b) = Function.update (bits plru) l b := by
  funext j
  show (setBit plru l b).getLsbD j = _
  by_cases low : j < 7
  · rw [BitVec.getLsbD_eq_getElem low, getElem_setBit]
    by_cases here : j = l
    · subst here
      simp
    · rw [Function.update_of_ne here, if_neg here]
      exact (BitVec.getLsbD_eq_getElem low).symm
  · have other : j ≠ l := by omega
    rw [Function.update_of_ne other, bits, BitVec.getLsbD_of_ge _ _ (by omega),
      BitVec.getLsbD_of_ge _ _ (by omega)]

theorem whichReplace_eq (plru : BitVec 7) :
    whichReplace plru = plruTree.target fun l => !bits plru l := by
  simp [whichReplace, plruTree, Tree.target, bits]

private theorem bits_loadPlru {h : Fin 8 → Bool} (some : hitCheck h = true) (plru : BitVec 7) :
    bits (loadPlru plru h) = Tree.assign (plruTree.path (hitWay h)) (bits plru) := by
  have paths :
      plruTree.path 0 = [(3, false), (1, false), (0, false)] ∧
      plruTree.path 1 = [(3, false), (1, false), (0, true)] ∧
      plruTree.path 2 = [(3, false), (1, true), (2, false)] ∧
      plruTree.path 3 = [(3, false), (1, true), (2, true)] ∧
      plruTree.path 4 = [(3, true), (5, false), (4, false)] ∧
      plruTree.path 5 = [(3, true), (5, false), (4, true)] ∧
      plruTree.path 6 = [(3, true), (5, true), (6, false)] ∧
      plruTree.path 7 = [(3, true), (5, true), (6, true)] := by decide
  obtain ⟨p0, p1, p2, p3, p4, p5, p6, p7⟩ := paths
  unfold loadPlru hitWay
  split_ifs with h0 h1 h2 h3 h4 h5 h6 h7
  all_goals try simp only [Tree.assign, List.foldl, bits_setBit, *, Nat.reduceLT]
  exfalso
  simp only [hitCheck, Bool.or_eq_true] at some
  tauto

def bitsAfter (ws : List (Fin 8)) : Nat → Bool :=
  plruTree.touched (fun _ => false) ws.reverse

private theorem bitsAfter_cons (w : Fin 8) (ws : List (Fin 8)) :
    bitsAfter (w :: ws) = Tree.assign (plruTree.path w) (bitsAfter ws) := by
  rw [bitsAfter, List.reverse_cons, Tree.touched_append]
  rfl

/-- The way chosen after touches, the last one listed first. -/
def victim (ws : List (Fin 8)) : Fin 8 := plruTree.target fun l => !bitsAfter ws l

theorem victim_not_recent (ws : List (Fin 8)) : victim ws ∉ ws.take 3 :=
  Tree.target_not_mem_take plruTree_proper plruTree_deep _ fun w _ => mem_plruTree w

/-- The cache with what has happened to each set. -/
structure Recorded (n : Nat) where
  cache : ModularCache n
  /-- The request that has to be held. -/
  pending : Option Request
  /-- The ways that answered accesses to the set have touched, the last one first. -/
  touches : BitVec n → List (Fin 8)

namespace Recorded

def step (i : Cycle) (s : Recorded n) : Recorded n where
  cache := s.cache.next i.request i.pmemResp i.pmemRdata
  pending := pendNext (s.cache.memResp i.request) i.request
  touches :=
    if s.cache.memResp i.request then
      Function.update s.touches (index n i.request.address)
        (hitWay (s.cache.hits i.request) :: s.touches (index n i.request.address))
    else s.touches

def start (data : Fin 8 → BitVec 3 → Line) (outs : Outs) : Recorded n where
  cache := .reset data outs
  pending := none
  touches _ := []

end Recorded

def Held (i : Cycle) (s : Recorded n) : Prop := ∀ r ∈ s.pending, r = i.request

instance decidableHeld (i : Cycle) (s : Recorded n) : Decidable (Held i s) := by
  unfold Held
  infer_instance

def ChoosesVictim (i : Cycle) (s : Recorded n) : Prop :=
  s.cache.state = .hit ∧ s.cache.memResp i.request = false

instance decidableChoosesVictim (i : Cycle) (s : Recorded n) :
    Decidable (ChoosesVictim i s) := by
  unfold ChoosesVictim
  infer_instance

def Replacing (_ : Cycle) (s : Recorded n) : Prop :=
  s.cache.state = .missDirty ∨ s.cache.state = .missClean

instance decidableReplacing (i : Cycle) (s : Recorded n) : Decidable (Replacing i s) := by
  unfold Replacing
  infer_instance

/-- The array holds the touches of each set, and outside state stall the register shows the
bits of the set that the pending request is for. -/
structure Inv (s : Recorded n) : Prop where
  stored : ∀ set, bits (s.cache.arrays.plru set) = bitsAfter (s.touches set)
  shown : s.cache.state ≠ .stall → ∃ r, s.pending = some r ∧ r.active = true ∧
    s.cache.outs.plru = s.cache.arrays.plru (index n r.address)

section Step

variable {s : Recorded n} {i : Cycle}

private theorem next_plru_shown : (s.step i).cache.outs.plru =
    (s.step i).cache.arrays.plru (index n i.request.address) :=
  array_eq_next _ _ _ _

private theorem next_plru : (s.step i).cache.arrays.plru =
    if s.cache.memResp i.request then
      Function.update s.cache.arrays.plru (index n i.request.address)
        (loadPlru s.cache.outs.plru (s.cache.hits i.request))
    else s.cache.arrays.plru := by
  have load : (s.cache.loads i.request).lruLoad = s.cache.memResp i.request := rfl
  have value : (s.cache.loads i.request).lruIn =
      if s.cache.memResp i.request then
        loadPlru s.cache.outs.plru (s.cache.hits i.request) else 0#7 := rfl
  show arrayNext (s.cache.loads i.request).lruLoad _ (s.cache.loads i.request).lruIn _ = _
  rw [load, value]
  cases s.cache.memResp i.request <;> rfl

private theorem answered_hit (answered : s.cache.memResp i.request = true) :
    s.cache.state = .hit ∧ hitCheck (s.cache.hits i.request) = true := by
  have parts : (s.cache.state == .hit && hitCheck (s.cache.hits i.request)) = true := answered
  obtain ⟨state, check⟩ := (Bool.and_eq_true _ _).mp parts
  exact ⟨eq_of_beq state, check⟩

private theorem Inv.outs_plru (inv : Inv s) (held : Held i s) (state : s.cache.state ≠ .stall) :
    s.cache.outs.plru = s.cache.arrays.plru (index n i.request.address) := by
  obtain ⟨r, pending, -, shown⟩ := inv.shown state
  rw [← held r pending]
  exact shown

private theorem Inv.waits (inv : Inv s) (held : Held i s)
    (state : (s.step i).cache.state ≠ .stall) :
    s.cache.memResp i.request = false ∧ i.request.active = true := by
  have moves : nextState s.cache.state i.request.read i.request.write (s.cache.hits i.request)
      s.cache.victimDirty i.pmemResp ≠ .stall := state
  constructor
  · by_contra answered
    rw [Bool.not_eq_false] at answered
    obtain ⟨inHit, check⟩ := answered_hit answered
    apply moves
    simp [nextState, inHit, check]
  · by_cases idle : s.cache.state = .stall
    · by_contra inactive
      apply moves
      have none : (i.request.read || i.request.write) = false := by
        simpa [Request.active] using inactive
      simp [nextState, idle, none]
    · obtain ⟨r, pending, active, -⟩ := inv.shown idle
      rw [← held r pending]
      exact active

theorem inv_step (i : Cycle) (s : Recorded n) (inv : Inv s) (held : Held i s) :
    Inv (s.step i) := by
  refine ⟨?_, ?_⟩
  · intro set
    rw [next_plru]
    show _ = bitsAfter ((if _ then _ else _ : BitVec n → List (Fin 8)) set)
    cases answered : s.cache.memResp i.request with
    | false => exact inv.stored set
    | true =>
      obtain ⟨inHit, check⟩ := answered_hit answered
      have shown := inv.outs_plru held (by simp [inHit])
      by_cases same : set = index n i.request.address
      · subst same
        simp only [if_true, Function.update_self]
        rw [bits_loadPlru check, shown, inv.stored, bitsAfter_cons]
      · simp only [if_true, Function.update_of_ne same]
        exact inv.stored set
  · intro state
    obtain ⟨quiet, active⟩ := inv.waits held state
    refine ⟨i.request, ?_, active, next_plru_shown⟩
    show pendNext (s.cache.memResp i.request) i.request = _
    simp [pendNext, quiet, active]

private theorem Inv.replace_eq (inv : Inv s) (held : Held i s) (state : s.cache.state ≠ .stall) :
    s.cache.replace = victim (s.touches (index n i.request.address)) := by
  rw [ModularCache.replace, whichReplace_eq, inv.outs_plru held state, inv.stored]
  rfl

private theorem Inv.replace_step (inv : Inv s) (held : Held i s) (state : s.cache.state ≠ .stall)
    (quiet : s.cache.memResp i.request = false) : (s.step i).cache.replace = s.cache.replace := by
  have plru : (s.step i).cache.outs.plru = s.cache.outs.plru := by
    rw [next_plru_shown, next_plru, quiet, inv.outs_plru held state]
    rfl
  rw [ModularCache.replace, plru]
  rfl

private theorem replace_run {s : Recorded n} (inv : Inv s) {is : List Cycle}
    (held : Along Recorded.step Held s is) (replacing : Along Recorded.step Replacing s is) :
    (run Recorded.step s is).cache.replace = s.cache.replace := by
  induction is generalizing s with
  | nil => rfl
  | cons i is ih =>
    obtain ⟨heldNow, heldRest⟩ := held
    obtain ⟨now, rest⟩ := replacing
    have state : s.cache.state ≠ .stall ∧ s.cache.state ≠ .hit := by
      rcases now with now | now <;> simp [now]
    have quiet : s.cache.memResp i.request = false := by
      by_contra answered
      rw [Bool.not_eq_false] at answered
      exact state.2 (answered_hit answered).1
    exact (ih (inv_step i s inv heldNow) heldRest rest).trans
      (inv.replace_step heldNow state.1 quiet)

theorem inv_start (data : Fin 8 → BitVec 3 → Line) (outs : Outs) :
    Inv (Recorded.start data outs : Recorded n) := by
  refine ⟨fun set => ?_, fun state => absurd rfl state⟩
  funext l
  show (0#7).getLsbD l = false
  exact BitVec.getLsbD_zero

private theorem chosen_of_run {data : Fin 8 → BitVec 3 → Line} {outs : Outs} {is : List Cycle}
    {i : Cycle} (held : Along Recorded.step Held (.start data outs : Recorded n) (is ++ [i]))
    (miss : ChoosesVictim i (run Recorded.step (.start data outs : Recorded n) is)) :
    let s : Recorded n := run Recorded.step (.start data outs) is
    Inv s ∧ Held i s ∧ s.cache.state ≠ .stall ∧
      s.cache.replace = victim (s.touches (index n i.request.address)) := by
  intro s
  obtain ⟨before, now, -⟩ := (along_append _ _ _ is [i]).mp held
  have inv : Inv s := run_invariant inv_step (inv_start data outs) before
  have state : s.cache.state ≠ .stall := by
    rw [miss.1]
    decide
  exact ⟨inv, now, state, inv.replace_eq now state⟩

end Step

/-- In every run from reset under held requests, a miss chooses a way that none of the last
three answered accesses to its set has touched. Runs that have touched the same ways of the
set choose the same way of it, whatever else they have accessed. The way stays for as long
as the miss is being written back and refilled. -/
theorem replacement_guarantee (data : Fin 8 → BitVec 3 → Line) (outs : Outs) (is : List Cycle)
    (i : Cycle) (held : Along Recorded.step Held (.start data outs : Recorded n) (is ++ [i])) :
    let s : Recorded n := run Recorded.step (.start data outs) is
    let set := index n i.request.address
    ChoosesVictim i s →
      s.cache.replace ∉ (s.touches set).take 3 ∧
      (∀ data' outs' is' i',
        Along Recorded.step Held (.start data' outs' : Recorded n) (is' ++ [i']) →
        let s' : Recorded n := run Recorded.step (.start data' outs') is'
        ChoosesVictim i' s' → index n i'.request.address = set →
          s'.touches set = s.touches set → s'.cache.replace = s.cache.replace) ∧
      ∀ js, Along Recorded.step Held (s.step i) js → Along Recorded.step Replacing (s.step i) js →
        (run Recorded.step (s.step i) js).cache.replace = s.cache.replace := by
  intro s set miss
  obtain ⟨inv, now, state, chosen⟩ := chosen_of_run held miss
  refine ⟨?_, ?_, ?_⟩
  · rw [chosen]
    exact victim_not_recent _
  · intro data' outs' is' i' held' s' miss' sameSet sameTouches
    obtain ⟨-, -, -, chosen'⟩ := chosen_of_run held' miss'
    rw [chosen', chosen, sameSet, sameTouches]
  · intro js heldRest replacing
    exact (replace_run (inv_step i s inv now) heldRest replacing).trans
      (inv.replace_step now state miss.2)

def nextLine : Cycle := ⟨⟨true, false, 0x240#32, 0#256⟩, false, 0#256⟩

theorem replacement_guarantee_nextLine :
    let outs : Outs := ⟨fun _ => 1#24, fun _ => true, fun _ => true, 5#7, fun _ => 3#256⟩
    let s : Recorded 3 := run Recorded.step (.start (fun _ _ => 0#256) outs)
      (FlatMemory.lineWrite ++ [nextLine])
    s.touches 2#3 = [7] ∧ s.cache.replace ∉ (s.touches 2#3).take 3 ∧
      (run Recorded.step (s.step nextLine) [nextLine]).cache.replace = s.cache.replace := by
  intro outs s
  have held : Along Recorded.step Held (.start (fun _ _ => 0#256) outs : Recorded 3)
      (FlatMemory.lineWrite ++ [nextLine] ++ [nextLine]) := by decide +kernel
  have miss : ChoosesVictim nextLine s := by decide +kernel
  obtain ⟨recent, -, stays⟩ := replacement_guarantee (fun _ _ => 0#256) outs
    (FlatMemory.lineWrite ++ [nextLine]) nextLine held miss
  refine ⟨by decide +kernel, recent, stays [nextLine] ?_ ?_⟩
  · decide +kernel
  · decide +kernel

end Mp4.Memory.EightWay.ReplacementHistory
