import Mp4.Memory.FourWay.FlatMemory

/-!
The replacement bits of `cache_4_way` on a hit. The array shows the value that is being
written to it, and `load_PLRU` computes that value from what the array shows: the two form a
loop, in which the bit off the path of the hit way is fed by itself alone.
-/

set_option autoImplicit false
set_option relaxedAutoImplicit false

namespace Mp4.Memory.FourWay.PlruLoop

open Mp4.Lib.Clocked Mp4.Lib.WriteBack Mp4.Lib.Replacement Mp4.Memory.Address
open Mp4.Memory.Arrays Mp4.Memory.FourWay.Datapath Mp4.Memory.FourWay.Cache
open Mp4.Memory.FourWay.Refinement Mp4.Memory.FourWay.FlatMemory

/-- The combinational equations of `LRU_in` and `LRU_out` in a cycle. -/
structure LruSolves (c : Cache4Way 3) (r : Request) (lruOut lruIn : BitVec 3) : Prop where
  logic : lruIn = loadPlru lruOut (c.hits r)
  shown : lruOut = array (c.memResp r) (index 3 r.address) (index 3 r.address) lruIn c.arrays.plru

/-- The two bits on the path to a way point to it: bit 1 to its pair, bit 0 or 2 within it. -/
def OnPath (w : Fin 4) (x : BitVec 3) : Prop :=
  x.getLsbD 1 = decide (2 ≤ w.val) ∧
    x.getLsbD (if 2 ≤ w.val then 2 else 0) = decide (w.val % 2 = 1)

def offPath (w : Fin 4) : Nat := if 2 ≤ w.val then 0 else 2

/-- The update of a hit in way `w`, as it is meant: the equations determine the new bits,
these are the path and the stored remaining bit, and only their set is written. -/
def UpdatesPlru (c : Cache4Way 3) (r : Request) (w : Fin 4) : Prop :=
  ∃ x, (∀ lruOut lruIn, LruSolves c r lruOut lruIn ↔ lruOut = x ∧ lruIn = x) ∧ OnPath w x ∧
    x.getLsbD (offPath w) = (c.arrays.plru (index 3 r.address)).getLsbD (offPath w) ∧
    ∀ resp rdata, (c.next r resp rdata x).arrays.plru =
      Function.update c.arrays.plru (index 3 r.address) x

def pointing (w : Fin 4) (b : Bool) : BitVec 3 :=
  loadPlru (if b then 0b111#3 else 0b000#3) (· == w)

section Single

variable (w : Fin 4) (x : BitVec 3) (b : Bool)

private theorem onPath_loadPlru : OnPath w (loadPlru x (· == w)) := by
  revert w x
  simp only [OnPath]
  decide +kernel

private theorem pointing_off : (pointing w b).getLsbD (offPath w) = b := by
  revert w b
  decide +kernel

private theorem loadPlru_pointing : loadPlru (pointing w b) (· == w) = pointing w b := by
  revert w b
  decide +kernel

end Single

section Hit

variable {c : Cache4Way 3} {r : Request} {w : Fin 4}

private theorem hits_single {mem flat : LineAddr → Line} {P : LineAddr → Prop}
    (state : c.state = .hit)
    (sound : Sound P setIndex mem flat .settled (view c.arrays)) (hit : c.hits r w = true) :
    c.hits r = (· == w) := by
  have settled : c.state ≠ .missClean := by simp [state]
  have held (v : Fin 4) (hit : c.hits r v = true) :
      (view c.arrays).live v (index 3 r.address) = true ∧
        (view c.arrays).addr v (index 3 r.address) = lineAddr r.address := by
    rw [hits_eq settled] at hit
    obtain ⟨same, valid⟩ := (Bool.and_eq_true _ _).mp hit
    refine ⟨valid, ?_⟩
    show lineOf (c.arrays.tags v (index 3 r.address)) (index 3 r.address) = _
    rw [← eq_of_beq same, lineOf_tag]
  have unique : ∀ v, c.hits r v = true → v = w := by
    intro v other
    have rep : Represents P setIndex (view c.arrays) mem flat := sound
    obtain ⟨live, addr⟩ := held v other
    obtain ⟨live', addr'⟩ := held w hit
    exact rep.unique v w _ live live' (addr.trans addr'.symm)
  funext v
  cases same : c.hits r v with
  | true => exact (beq_iff_eq.mpr (unique v same)).symm
  | false =>
    refine (beq_eq_false_iff_ne.mpr ?_).symm
    rintro rfl
    rw [hit] at same
    cases same

theorem lruSolves_iff (single : c.hits r = (· == w)) (answered : c.memResp r = true)
    (lruOut lruIn : BitVec 3) :
    LruSolves c r lruOut lruIn ↔ lruOut = lruIn ∧ loadPlru lruIn (· == w) = lruIn := by
  have port (datain : BitVec 3) : array (c.memResp r) (index 3 r.address) (index 3 r.address)
      datain c.arrays.plru = datain := by
    simp [array, answered]
  constructor
  · rintro ⟨logic, shown⟩
    rw [port] at shown
    rw [single, shown] at logic
    exact ⟨shown, logic.symm⟩
  · rintro ⟨rfl, fixed⟩
    exact ⟨by rw [single, fixed], (port lruOut).symm⟩

private theorem next_plru_hit (single : c.hits r = (· == w)) (answered : c.memResp r = true)
    {x : BitVec 3} (fixed : loadPlru x (· == w) = x) (resp : Bool) (rdata : Line) :
    (c.next r resp rdata x).arrays.plru = Function.update c.arrays.plru (index 3 r.address) x := by
  have load : (c.loads r x).lruLoad = true := answered
  have value : (c.loads r x).lruIn = x := by
    show loadPlru x (c.hits r) = x
    rw [single, fixed]
  show arrayNext (c.loads r x).lruLoad _ (c.loads r x).lruIn _ = _
  rw [load, value]
  rfl

private theorem not_updatesPlru (single : c.hits r = (· == w)) (answered : c.memResp r = true) :
    ¬UpdatesPlru c r w := by
  rintro ⟨x, only, -⟩
  have each (b : Bool) : pointing w b = x :=
    ((only _ _).mp ((lruSolves_iff single answered (pointing w b) (pointing w b)).mpr
      ⟨rfl, loadPlru_pointing w b⟩)).1
  have same := congrArg (fun x : BitVec 3 => x.getLsbD (offPath w))
    ((each true).trans (each false).symm)
  simp only [pointing_off] at same
  cases same

end Hit

/-- In every reachable hit the equations leave the remaining bit open: it may be either, the
path bits are right in both cases, and the edge writes the set of the request only. -/
theorem plru_update_open (data : Fin 4 → BitVec 3 → Line) (mem : LineAddr → Line)
    (is : List Cycle) (admitted : Along System.step Admitted (.start data mem) is) (r : Request)
    (w : Fin 4) :
    let c := (run System.step (.start data mem) is).cache
    c.state = .hit → r.active = true → c.hits r w = true →
    ¬UpdatesPlru c r w ∧
      (∀ b, ∃ x, LruSolves c r x x ∧ x.getLsbD (offPath w) = b) ∧
      ∀ lruOut lruIn, LruSolves c r lruOut lruIn → lruOut = lruIn ∧ OnPath w lruIn ∧
        ∀ resp rdata, (c.next r resp rdata lruOut).arrays.plru =
          Function.update c.arrays.plru (index 3 r.address) lruIn := by
  intro c state active hit
  have start : Inv (.start data mem) := ⟨holds_reset data, by simp [System.start]⟩
  have inv := run_invariant inv_step start admitted
  have single : c.hits r = (· == w) := by
    have holds := inv.holds
    generalize (run System.step (.start data mem) is).pending = pending at holds
    cases holds with
    | hit _ sound => exact hits_single state sound hit
    | missDirty other => exact absurd (state.symm.trans other) (by decide)
    | missClean other => exact absurd (state.symm.trans other) (by decide)
  have answered : c.memResp r = true := by
    have found : hitCheck (c.hits r) = true := (hitCheck_iff _).mpr ⟨w, hit⟩
    have asks : (r.read || r.write) = true := active
    simp [Cache4Way.memResp, done, state, asks, found]
  refine ⟨not_updatesPlru single answered, fun b => ?_, fun lruOut lruIn solves => ?_⟩
  · exact ⟨pointing w b, (lruSolves_iff single answered _ _).mpr ⟨rfl, loadPlru_pointing w b⟩,
      pointing_off w b⟩
  · obtain ⟨rfl, fixed⟩ := (lruSolves_iff single answered lruOut lruIn).mp solves
    refine ⟨rfl, ?_, next_plru_hit single answered fixed⟩
    have path := onPath_loadPlru w lruOut
    rw [fixed] at path
    exact path

def refilled : List Cycle :=
  let read : Request := ⟨true, false, 0x40#32, 0#32, 0#4⟩
  [⟨read, false, 0#256, 0#3⟩, ⟨read, true, 7#256, 0#3⟩]

theorem plru_update_open_refilled :
    let c := (run System.step (.start (fun _ _ => 0#256) fun _ => 7#256) refilled).cache
    ¬UpdatesPlru c ⟨true, false, 0x40#32, 0#32, 0#4⟩ 3 := by
  intro c
  exact (plru_update_open (fun _ _ => 0#256) (fun _ => 7#256) refilled (by decide +kernel)
    ⟨true, false, 0x40#32, 0#32, 0#4⟩ 3 (by decide +kernel) rfl (by decide +kernel)).1

/-- A hit in way 3 leaves bit 0 open, which both
values solve although zero is stored. -/
theorem plru_update_two :
    let c := (run System.step (.start (fun _ _ => 0#256) fun _ => 7#256) refilled).cache
    let r : Request := ⟨true, false, 0x40#32, 0#32, 0#4⟩
    c.state = .hit ∧ c.hits r 3 = true ∧ c.arrays.plru (index 3 r.address) = 0b000#3 ∧
      LruSolves c r 0b110#3 0b110#3 ∧ LruSolves c r 0b111#3 0b111#3 ∧ ¬UpdatesPlru c r 3 := by
  intro c r
  have first : LruSolves c r 0b110#3 0b110#3 := ⟨by decide +kernel, by decide +kernel⟩
  have second : LruSolves c r 0b111#3 0b111#3 := ⟨by decide +kernel, by decide +kernel⟩
  refine ⟨by decide +kernel, by decide +kernel, by decide +kernel, first, second, ?_⟩
  rintro ⟨x, only, -⟩
  have same := ((only _ _).mp first).1.trans ((only _ _).mp second).1.symm
  exact absurd same (by decide)

end Mp4.Memory.FourWay.PlruLoop
