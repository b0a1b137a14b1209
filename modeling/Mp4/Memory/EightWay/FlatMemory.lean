import Mp4.Lib.Clocked
import Mp4.Memory.EightWay.Refinement

/-!
`modular_cache` in front of a backing memory of lines, with the flat memory that the
answered writes have produced alongside. A request is held until it is answered; the
memory answers after any delay.
-/

set_option autoImplicit false
set_option relaxedAutoImplicit false

namespace Mp4.Memory.EightWay.FlatMemory

open Mp4.Lib.Clocked Mp4.Memory.Address Mp4.Memory.EightWay.Datapath
open Mp4.Memory.EightWay.Cache Mp4.Memory.EightWay.Refinement

structure Cycle where
  request : Request
  pmemResp : Bool
  pmemRdata : Line

structure System where
  cache : ModularCache 3
  mem : LineAddr → Line
  flat : LineAddr → Line
  /-- The request that has to be held. -/
  pending : Option Request

namespace System

variable (s : System) (i : Cycle)

def memResp : Bool := s.cache.memResp i.request

def memRdata : Line := s.cache.cachelineOut i.request

def step (i : Cycle) (s : System) : System where
  cache := s.cache.next i.request i.pmemResp i.pmemRdata
  mem := backing s.cache i.request i.pmemResp s.mem
  flat := flatNext (s.memResp i) i.request s.flat
  pending := pendNext (s.memResp i) i.request

def start (data : Fin 8 → BitVec 3 → Line) (outs : Outs) (mem : LineAddr → Line) : System where
  cache := .reset data outs
  mem := mem
  flat := mem
  pending := none

end System

/-- A pending request is held, nothing reads and writes at once, and a refill is answered
with the line that is addressed in the cycle of the answer. -/
def Admitted (i : Cycle) (s : System) : Prop :=
  (∀ r ∈ s.pending, r = i.request) ∧
  ¬(i.request.read = true ∧ i.request.write = true) ∧
  (pmemRead s.cache.state = true → i.pmemResp = true →
    i.pmemRdata = s.mem (lineAddr (s.cache.pmemAddress i.request)))

instance (i : Cycle) (s : System) : Decidable (Admitted i s) := by
  unfold Admitted
  infer_instance

/-- A read answered in this cycle returns the line of the flat memory. -/
def ReadsLine (i : Cycle) (s : System) : Prop :=
  s.memResp i = true → i.request.read = true →
    s.memRdata i = s.flat (lineAddr i.request.address)

def Inv (s : System) : Prop := Holds s.mem s.flat s.cache s.pending

theorem inv_step (i : Cycle) (s : System) (inv : Inv s) (admitted : Admitted i s) :
    Inv (s.step i) := by
  obtain ⟨held, oneKind, answer⟩ := admitted
  refine holds_next inv (fun r' pend => (held r' pend).symm) ?_ answer
  intro read
  cases write : i.request.write with
  | false => rfl
  | true => exact absurd ⟨read, write⟩ oneKind

theorem inv_reads (i : Cycle) (s : System) (inv : Inv s) (admitted : Admitted i s) :
    ReadsLine i s := by
  intro answered read
  exact holds_cachelineOut inv (fun r' pend => (admitted.1 r' pend).symm) answered read

/-- From reset, for every initial memory, every request sequence and every memory latency,
each answered read returns the line that the answered writes have left in the flat memory. -/
theorem reads_line (data : Fin 8 → BitVec 3 → Line) (outs : Outs) (mem : LineAddr → Line)
    (is : List Cycle) (admitted : Along System.step Admitted (.start data outs mem) is) :
    Along System.step ReadsLine (.start data outs mem) is := by
  have start : Inv (.start data outs mem) := holds_reset data outs
  exact along_invariant inv_step inv_reads start admitted

def lineWrite : List Cycle :=
  let line : Request := ⟨false, true, 0x140#32, 5#256⟩
  [⟨line, false, 0#256⟩, ⟨line, false, 0#256⟩, ⟨line, false, 9#256⟩, ⟨line, true, 7#256⟩,
    ⟨line, false, 0#256⟩]

def readBack : Cycle := ⟨⟨true, false, 0x140#32, 0#256⟩, false, 0#256⟩

theorem reads_line_lineWrite :
    let outs : Outs := ⟨fun _ => 1#24, fun _ => true, fun _ => true, 5#7, fun _ => 3#256⟩
    let s : System := .start (fun _ _ => 0#256) outs fun _ => 7#256
    Along System.step ReadsLine s (lineWrite ++ [readBack, readBack]) ∧
      (run System.step s (lineWrite ++ [readBack])).memResp readBack = true ∧
      (run System.step s (lineWrite ++ [readBack])).memRdata readBack = 5#256 := by
  refine ⟨reads_line _ _ _ _ ?_, ?_, ?_⟩
  all_goals decide +kernel

end Mp4.Memory.EightWay.FlatMemory
