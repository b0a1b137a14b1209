import Mp4.Memory.HierarchyProgress
import Mp4.Memory.ParamMemory

/-!
The hierarchy over `ParamMemory`. The beats come in order by themselves, and every request of
either port is answered within a number of cycles that depends on the delays alone: three
transactions of the memory at most, whatever the other port asks for.
-/

set_option autoImplicit false
set_option relaxedAutoImplicit false

namespace Mp4.Memory.TimedHierarchy

open Mp4.Lib.Clocked Mp4.Lib.Ranking Mp4.Memory.Address
open Mp4.Memory.CachelineAdaptor Mp4.Memory.BurstMemory Mp4.Memory.ParamMemory
open Mp4.Memory.FourWay.Cache

structure Ports where
  iRequest : Request
  dRequest : Request
  iLruOut : BitVec 3
  dLruOut : BitVec 3

structure System where
  hierarchy : Hierarchy.System
  memory : Mem

namespace System

variable (p : Params) (s : System) (i : Ports)

def cycle : Hierarchy.Cycle :=
  ⟨i.iRequest, i.dRequest, s.memory.rdata, s.memory.resp, i.iLruOut, i.dLruOut⟩

def step (i : Ports) (s : System) : System where
  hierarchy := s.hierarchy.step (s.cycle i)
  memory :=
    s.memory.next p (wires s.hierarchy.burst.adaptor (s.hierarchy.adaptorInputs (s.cycle i)))

def start (iData dData : Fin 4 → BitVec 3 → Line) (adaptor : Adaptor) (image : LineAddr → Line)
    (rdata : BitVec 64) : System where
  hierarchy := .start iData dData adaptor image
  memory := .reset image rdata

def iMemResp : Bool := s.hierarchy.iMemResp (s.cycle i)

def dMemResp : Bool := s.hierarchy.dMemResp (s.cycle i)

end System

/-- Both ports hold their requests, the instruction side only reads, and the data side never
does both and never writes a line of `Q`. -/
structure Admitted (Q : LineAddr → Prop) (i : Ports) (s : System) : Prop where
  iHeld : ∀ r ∈ s.hierarchy.iPending, r = i.iRequest
  dHeld : ∀ r ∈ s.hierarchy.dPending, r = i.dRequest
  readOnly : i.iRequest.write = false
  oneKind : ¬(i.dRequest.read = true ∧ i.dRequest.write = true)
  spares : i.dRequest.write = true → ¬Q (lineAddr i.dRequest.address)

instance (Q : LineAddr → Prop) [DecidablePred Q] (i : Ports) (s : System) :
    Decidable (Admitted Q i s) :=
  decidable_of_iff ((∀ r ∈ s.hierarchy.iPending, r = i.iRequest) ∧
      (∀ r ∈ s.hierarchy.dPending, r = i.dRequest) ∧ i.iRequest.write = false ∧
      ¬(i.dRequest.read = true ∧ i.dRequest.write = true) ∧
      (i.dRequest.write = true → ¬Q (lineAddr i.dRequest.address)))
    ⟨fun ⟨iHeld, dHeld, readOnly, oneKind, spares⟩ =>
      ⟨iHeld, dHeld, readOnly, oneKind, spares⟩,
    fun h => ⟨h.iHeld, h.dHeld, h.readOnly, h.oneKind, h.spares⟩⟩

/-- The slower of the two delays. -/
def slowest (p : Params) : Nat := max p.delayMem p.delayPageHit

private theorem delay_le (p : Params) (page : Int) (addr : Word) :
    p.delay page addr ≤ slowest p := by
  unfold Params.delay slowest
  split_ifs
  · exact Nat.le_max_right _ _
  · exact Nat.le_max_left _ _

/-- The cycles until the adaptor has its answer, at most. -/
def lineDue (p : Params) (s : System) : Nat :=
  match s.hierarchy.burst.adaptor.state with
  | .reset => slowest p + 6
  | _ => due p s.hierarchy.burst.adaptor s.memory

/-- The hierarchy gets on, and the memory serves the adaptor. -/
structure Inv (p : Params) (Q : LineAddr → Prop) (init : LineAddr → Line) (s : System) : Prop where
  progress : HierarchyProgress.Inv Q init s.hierarchy
  tracks : Tracks s.hierarchy.burst s.memory
  due : lineDue p s ≤ slowest p + 6

section Step

variable {p : Params} {Q : LineAddr → Prop} {init : LineAddr → Line} {i : Ports} {s : System}

private theorem lineDue_reset (state : s.hierarchy.burst.adaptor.state = .reset) :
    lineDue p s = slowest p + 6 := by
  rw [lineDue, state]

private theorem lineDue_busy (state : s.hierarchy.burst.adaptor.state ≠ .reset) :
    lineDue p s = due p s.hierarchy.burst.adaptor s.memory := by
  unfold lineDue
  split
  · contradiction
  · rfl

private theorem hierarchy_admitted (tracks : Tracks s.hierarchy.burst s.memory)
    (admitted : Admitted Q i s) : Hierarchy.Admitted Q (s.cycle i) s.hierarchy where
  iHeld := admitted.iHeld
  dHeld := admitted.dHeld
  readOnly := admitted.readOnly
  oneKind := admitted.oneKind
  spares := admitted.spares
  answers := tracks_answers tracks rfl rfl

private theorem lineDue_serves (inv : Inv p Q init s) (admitted : Admitted Q i s)
    {c : ArbiterRouting.Client}
    (serves : ArbiterRouting.granted s.hierarchy.arbiter.state = some c)
    (silent : respO s.hierarchy.burst.adaptor.state = false) :
    lineDue p (s.step p i) + 1 ≤ lineDue p s := by
  have unfinished : s.hierarchy.burst.adaptor.state ≠ .finished := by simpa [respO] using silent
  by_cases state : s.hierarchy.burst.adaptor.state = .reset
  · have phase : s.memory.phase = .idle := by
      cases inv.tracks.stage with
      | quiet _ _ phase => exact phase
      | asked task busy => cases task <;> simp [state, transfer] at busy
      | waits task left busy => cases task <;> simp [state, transfer] at busy
      | bursts task k busy => cases task <;> simp [state, transfer] at busy
    have request := HierarchyProgress.granted_asks inv.progress.hierarchy
      (hierarchy_admitted inv.tracks admitted) serves
    obtain ⟨busy, opened⟩ := due_opened (b := s.hierarchy.burst) (p := p)
      (i := s.hierarchy.adaptorInputs (s.cycle i)) state phase request
    have within := delay_le p s.memory.pageno (s.hierarchy.adaptorInputs (s.cycle i)).addressI
    rw [lineDue_reset state, lineDue_busy busy]
    have opened' : due p (s.step p i).hierarchy.burst.adaptor (s.step p i).memory = _ := opened
    omega
  · obtain ⟨busy, nearer⟩ := due_next (p := p) (i := s.hierarchy.adaptorInputs (s.cycle i))
      inv.tracks rfl state unfinished
    rw [lineDue_busy state, lineDue_busy busy]
    exact Nat.le_of_eq nearer

private theorem pace (inv : Inv p Q init s) (admitted : Admitted Q i s) :
    HierarchyProgress.Pace (slowest p + 6) (lineDue p s) (lineDue p (s.step p i)) 1 (s.cycle i)
      s.hierarchy where
  serves _ serves silent := lineDue_serves inv admitted serves silent
  opens reset := lineDue_reset reset
  most := Nat.le_refl 1

theorem inv_step (i : Ports) (s : System) (inv : Inv p Q init s) (admitted : Admitted Q i s) :
    Inv p Q init (s.step p i) where
  progress := HierarchyProgress.inv_step _ _ inv.progress (hierarchy_admitted inv.tracks admitted)
  tracks := tracks_next inv.tracks rfl
  due := (HierarchyProgress.turn inv.progress.hierarchy (pace inv admitted)).bound inv.due

theorem inv_coherent (i : Ports) (s : System) (inv : Inv p Q init s) (admitted : Admitted Q i s) :
    s.memory.error = false ∧ Hierarchy.Coherent Q init (s.cycle i) s.hierarchy :=
  ⟨inv.tracks.error,
    Hierarchy.inv_coherent _ _ inv.progress.hierarchy (hierarchy_admitted inv.tracks admitted)⟩

theorem inv_start (iData dData : Fin 4 → BitVec 3 → Line) (adaptor : Adaptor) (rdata : BitVec 64) :
    Inv p Q init (.start iData dData adaptor init rdata) where
  progress := HierarchyProgress.inv_start iData dData adaptor
  tracks := tracks_reset _ _ _ rfl
  due := Nat.le_refl _

def dRank (p : Params) (s : System) : Nat :=
  HierarchyProgress.dRank (slowest p + 6) (lineDue p s) s.hierarchy

def iRank (p : Params) (s : System) : Nat :=
  HierarchyProgress.iRank (slowest p + 6) (lineDue p s) s.hierarchy

def DServed (i : Ports) (s : System) : Prop :=
  i.dRequest.active = true → s.dMemResp i = true

def IServed (i : Ports) (s : System) : Prop :=
  i.iRequest.active = true → s.iMemResp i = true

theorem dRank_le (inv : Inv p Q init s) : dRank p s ≤ 3 * (slowest p + 8) :=
  (HierarchyProgress.dRank_le inv.due).1

theorem iRank_le (inv : Inv p Q init s) : iRank p s ≤ 3 * (slowest p + 8) + 1 :=
  HierarchyProgress.iRank_le inv.due

theorem dRank_falls (i : Ports) (s : System) (inv : Inv p Q init s) (admitted : Admitted Q i s) :
    DServed i s ∨ dRank p (s.step p i) < dRank p s :=
  HierarchyProgress.dRank_falls inv.progress (hierarchy_admitted inv.tracks admitted)
    (pace inv admitted) inv.due

theorem iRank_falls (i : Ports) (s : System) (inv : Inv p Q init s) (admitted : Admitted Q i s) :
    IServed i s ∨ iRank p (s.step p i) < iRank p s :=
  HierarchyProgress.iRank_falls inv.progress (hierarchy_admitted inv.tracks admitted)
    (pace inv admitted) inv.due

end Step

/-- From reset, for every initial memory, all delays, every pair of request streams and every
interleaving: the memory reports no error, reads return the words of the flat memory and, on
the instruction side, of the lines that are never written, and neither port waits for more
than three transactions of the slower delay, though the arbiter always prefers the data side. -/
theorem prompt_and_coherent (p : Params) (Q : LineAddr → Prop)
    (iData dData : Fin 4 → BitVec 3 → Line) (adaptor : Adaptor) (init : LineAddr → Line)
    (rdata : BitVec 64) (is js : List Ports)
    (admitted : Along (System.step p) (Admitted Q) (.start iData dData adaptor init rdata)
      (is ++ js)) :
    Along (System.step p)
        (fun i s => s.memory.error = false ∧ Hierarchy.Coherent Q init (s.cycle i) s.hierarchy)
        (.start iData dData adaptor init rdata) (is ++ js) ∧
      (3 * (slowest p + 8) < js.length → Within (System.step p) DServed (3 * (slowest p + 8))
        (run (System.step p) (.start iData dData adaptor init rdata) is) js) ∧
      (3 * (slowest p + 8) + 1 < js.length →
        Within (System.step p) IServed (3 * (slowest p + 8) + 1)
          (run (System.step p) (.start iData dData adaptor init rdata) is) js) := by
  have start : Inv p Q init (.start iData dData adaptor init rdata) :=
    inv_start iData dData adaptor rdata
  obtain ⟨first, rest⟩ := (along_append _ _ _ is js).mp admitted
  have inv := run_invariant inv_step start first
  refine ⟨along_invariant inv_step inv_coherent start admitted, fun long => ?_, fun long => ?_⟩
  · have bound := dRank_le inv
    exact (within_of_rank inv_step dRank_falls inv rest (Nat.lt_of_le_of_lt bound long)).mono bound
  · have bound := iRank_le inv
    exact (within_of_rank inv_step iRank_falls inv rest (Nat.lt_of_le_of_lt bound long)).mono bound

def together : List Ports :=
  List.replicate 26
    ⟨⟨true, false, 0x64#32, 0#32, 0#4⟩, ⟨false, true, 0x44#32, 0x55#32, 0b0001#4⟩, 0#3, 0#3⟩

theorem prompt_and_coherent_together :
    let p : Params := ⟨0, 0⟩
    let adaptor : Adaptor := ⟨.reset, 3#256, 2, 9#32⟩
    let s : System :=
      .start (fun _ _ => 1#256) (fun _ _ => 2#256) adaptor (fun _ => 7#256) 0#64
    Within (System.step p) DServed 24 s together ∧
      Within (System.step p) IServed 25 s together := by
  intro p adaptor s
  have result := prompt_and_coherent p (· = 3#27) (fun _ _ => 1#256) (fun _ _ => 2#256) adaptor
    (fun _ => 7#256) 0#64 [] together (by decide +kernel)
  exact ⟨result.2.1 (by decide), result.2.2 (by decide)⟩

end Mp4.Memory.TimedHierarchy
