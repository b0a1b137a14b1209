import Mp4.Lib.Clocked
import Mp4.Memory.FourWay.Refinement

/-!
`cache_4_way` in front of a backing memory of lines, with the flat memory that the
answered writes have produced alongside. The processor holds a request until it is
answered and may leave it there afterwards; the memory answers after any delay.
-/

set_option autoImplicit false
set_option relaxedAutoImplicit false

namespace Mp4.Memory.FourWay.FlatMemory

open Mp4.Lib.Clocked Mp4.Memory.Address Mp4.Memory.FourWay.Cache
open Mp4.Memory.FourWay.Refinement

structure Cycle where
  request : Request
  pmemResp : Bool
  pmemRdata : Line
  lruOut : BitVec 3

structure System where
  cache : Cache4Way 3
  mem : LineAddr → Line
  flat : LineAddr → Line
  /-- The request that has to be held. -/
  pending : Option Request
  /-- The request answered in the last cycle. -/
  answered : Option Request

namespace System

variable (s : System) (i : Cycle)

def memResp : Bool := s.cache.memResp i.request

def memRdata : Word := s.cache.memRdata i.request i.pmemRdata

/-- The flat memory after the cycle. An answer that repeats the one of the last cycle
counts once. -/
def flatAfter : LineAddr → Line :=
  if s.answered = some i.request then s.flat else flatNext (s.memResp i) i.request s.flat

def step (i : Cycle) (s : System) : System where
  cache := s.cache.next i.request i.pmemResp i.pmemRdata i.lruOut
  mem := backing s.cache i.request i.pmemResp i.pmemRdata s.mem
  flat := s.flatAfter i
  pending := pendNext (s.memResp i) i.request
  answered := if s.memResp i then some i.request else none

def start (data : Fin 4 → BitVec 3 → Line) (mem : LineAddr → Line) : System where
  cache := .reset data
  mem := mem
  flat := mem
  pending := none
  answered := none

end System

/-- The processor holds a pending request and never reads and writes at once; a refill is
answered with the line that is addressed in the cycle of the answer. -/
def Admitted (i : Cycle) (s : System) : Prop :=
  (∀ r ∈ s.pending, r = i.request) ∧
  ¬(i.request.read = true ∧ i.request.write = true) ∧
  (pmemRead s.cache.state = true → i.pmemResp = true →
    i.pmemRdata = s.mem (lineAddr (s.cache.pmemAddress i.request)))

instance (i : Cycle) (s : System) : Decidable (Admitted i s) := by
  unfold Admitted
  infer_instance

/-- A read answered in this cycle returns the word of the flat memory. -/
def ReadsFlat (i : Cycle) (s : System) : Prop :=
  s.memResp i = true → i.request.read = true →
    s.memRdata i = readWord (s.flat (lineAddr i.request.address)) i.request.address

structure Inv (s : System) : Prop where
  holds : Holds (fun _ => True) s.mem s.flat s.cache s.pending
  absorbed : ∀ r ∈ s.answered, flatNext true r s.flat = s.flat

private theorem flatAfter_eq {i : Cycle} {s : System} (inv : Inv s) :
    s.flatAfter i = flatNext (s.memResp i) i.request s.flat := by
  unfold System.flatAfter
  split_ifs with again
  · have absorbed := inv.absorbed i.request again
    cases answered : s.memResp i with
    | false => rfl
    | true => exact absorbed.symm
  · rfl

theorem inv_step (i : Cycle) (s : System) (inv : Inv s) (admitted : Admitted i s) :
    Inv (s.step i) := by
  obtain ⟨held, oneKind, answer⟩ := admitted
  have oneKind' : i.request.read = true → i.request.write = false := by
    intro read
    cases write : i.request.write with
    | false => rfl
    | true => exact absurd ⟨read, write⟩ oneKind
  constructor
  · have kept := holds_next _ i.pmemResp _ i.lruOut inv.holds
      (fun r' pend => (held r' pend).symm) oneKind' (fun _ => trivial)
      (fun reads resp _ => answer reads resp) (fun _ _ => rfl)
    rw [← System.memResp, ← flatAfter_eq inv] at kept
    exact kept
  · intro r last
    have flat := flatAfter_eq (i := i) inv
    cases answered : s.memResp i with
    | false => simp [System.step, answered] at last
    | true =>
      have this : r = i.request := by simpa [System.step, answered] using last.symm
      change flatNext true r (s.flatAfter i) = s.flatAfter i
      rw [flat, answered, this]
      exact flatNext_twice true

theorem inv_reads (i : Cycle) (s : System) (inv : Inv s) (_ : Admitted i s) : ReadsFlat i s := by
  intro answered read
  exact holds_memRdata inv.holds answered read trivial

/-- From reset, for every initial memory, every request sequence, every memory latency and
whatever the PLRU bits become, each answered read returns the word of the flat memory. -/
theorem reads_flat (data : Fin 4 → BitVec 3 → Line) (mem : LineAddr → Line) (is : List Cycle)
    (admitted : Along System.step Admitted (.start data mem) is) :
    Along System.step ReadsFlat (.start data mem) is := by
  have start : Inv (.start data mem) := ⟨holds_reset data, by simp [System.start]⟩
  exact along_invariant inv_step inv_reads start admitted

def maskedWrite : List Cycle :=
  let line : Line := 0x11223344#32 ++ 0#224
  let store : Request := ⟨false, true, 0x5c#32, 0xaabbccdd#32, 0b0110#4⟩
  [⟨store, false, 0#256, 0#3⟩, ⟨store, false, 7#256, 0#3⟩, ⟨store, true, line, 0#3⟩,
    ⟨store, false, 0#256, 0#3⟩, ⟨store, false, 0#256, 0#3⟩]

def readBack : Cycle := ⟨⟨true, false, 0x5c#32, 0#32, 0#4⟩, false, 0#256, 0#3⟩

theorem reads_flat_maskedWrite :
    let s : System := .start (fun _ _ => 0#256) fun _ => 0x11223344#32 ++ 0#224
    Along System.step ReadsFlat s (maskedWrite ++ [readBack]) ∧
      (run System.step s maskedWrite).memResp readBack = true ∧
      (run System.step s maskedWrite).memRdata readBack = 0x11bbcc44#32 := by
  refine ⟨reads_flat _ _ _ ?_, ?_, ?_⟩
  all_goals decide +kernel

end Mp4.Memory.FourWay.FlatMemory
