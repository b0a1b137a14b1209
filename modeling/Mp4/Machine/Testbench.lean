import Mp4.Machine.Throughput
import Mp4.Memory.ShadowMemory

/-!
The whole machine under the testbench's self-check: `ParamMemory` below the caches and the
`shadow_memory` on their upper ports.
-/

set_option autoImplicit false
set_option relaxedAutoImplicit false

namespace Mp4.Machine.Testbench

open Mp4.Cpu.PipelineRegs Mp4.Cpu.ControlFlow Mp4.Lib.Clocked Mp4.Lib.ByteMemory
open Mp4.Memory Mp4.Memory.Address Mp4.Memory.CachelineAdaptor Mp4.Memory.ParamMemory
open Mp4.Memory.LineWords Mp4.Memory.ShadowMemory Mp4.Machine.Architecture Mp4.Machine.Execution
open Mp4.Machine.Discipline Mp4.Machine.Attached Mp4.Machine.Throughput

structure Bench where
  closed : Closed
  shadow : Shadow

namespace Bench

variable (p : Params) (b : Bench) (u : Drive)

/-- The hierarchy and the shadow memory. -/
def observed : Observed := ⟨b.closed.below, b.shadow⟩

def step (u : Drive) (b : Bench) : Bench where
  closed := b.closed.step p u
  shadow := b.shadow.next (b.observed.sampled (b.closed.ports u))

theorem observed_step (u : Drive) (b : Bench) :
    (b.step p u).observed = b.observed.step p (b.closed.ports u) := rfl

end Bench

/-- The machine keeps its invariant, and the shadow memory that of the hierarchy. -/
structure Inv (p : Params) (Q : LineAddr → Prop) (start : Hart) (init : LineAddr → Line)
    (b : Bench) : Prop where
  closed : Throughput.Inv p Q start init b.closed
  observed : ShadowMemory.Inv p Q init b.observed

section Step

variable {p : Params} {Q : LineAddr → Prop} {start : Hart} {init : LineAddr → Line}

theorem inv_step (hosted : Hosted Q start) (guarded : Guarded (fun pc => Q (lineAddr pc)) start)
    (image : wordsOf start.mem = words init) (u : Drive) (b : Bench) (inv : Inv p Q start init b)
    (faithful : Faithful u b.closed) : Inv p Q start init (b.step p u) := by
  have admitted := below_admitted hosted inv.closed faithful
  constructor
  · exact Throughput.inv_step hosted guarded image u b.closed inv.closed faithful
  · rw [Bench.observed_step]
    exact ShadowMemory.inv_step (b.closed.ports u) b.observed inv.observed admitted

end Step

/-- From reset, with any memory of lines whose program is hosted and guarded, with all delays and
all predictions, wrong paths included: the burst memory reports no error, the shadow memory
reports none for the data port and none for a fetch from the program's lines, and in the end it
holds the flat memory in which the program was executed. -/
theorem testbench_passes (p : Params) (Q : LineAddr → Prop) (init : LineAddr → Line)
    (hosted : Hosted Q (boot (bytesOf (words init))))
    (guarded : Guarded (fun pc => Q (lineAddr pc)) (boot (bytesOf (words init)))) (prog : Program)
    (proc : Processor) (resets : List Cycle) (rst : ∀ y ∈ resets, y.rst = true)
    (enough : 3 ≤ resets.length) (iData dData : Fin 4 → BitVec 3 → Line) (adaptor : Adaptor)
    (rdata : BitVec 64) (us : List Drive)
    (faithful : Along (Bench.step p) (fun u b => Faithful u b.closed)
      ⟨⟨⟨run (Processor.step prog) proc resets, .start iData dData adaptor init⟩,
        .reset init rdata⟩, .new init⟩ us) :
    let b₀ : Bench := ⟨⟨⟨run (Processor.step prog) proc resets,
      .start iData dData adaptor init⟩, .reset init rdata⟩, .new init⟩
    let b := run (Bench.step p) b₀ us
    Along (Bench.step p) (fun u b => b.closed.memory.error = false ∧
        Passes Q (b.closed.ports u) b.observed) b₀ us ∧
      Follows (boot (bytesOf (words init))) b.closed.whole.view ∧
      b.shadow.mem = b.closed.whole.memory.flat := by
  intro b₀ b
  have image : wordsOf (boot (bytesOf (words init))).mem = words init := wordsOf_bytesOf _
  have start : Inv p Q (boot (bytesOf (words init))) init b₀ := by
    have closed := Throughput.inv_start (Q := Q) init prog proc rst enough p iData dData adaptor
      rdata
    exact ⟨closed, closed.below, rfl, rfl⟩
  have keep := inv_step (p := p) hosted guarded image
  have shows (u : Drive) (b : Bench) (inv : Inv p Q (boot (bytesOf (words init))) init b)
      (faithful : Faithful u b.closed) :
      b.closed.memory.error = false ∧ Passes Q (b.closed.ports u) b.observed := by
    have admitted := below_admitted hosted inv.closed faithful
    exact ⟨inv.closed.below.tracks.error, inv.observed.passes admitted⟩
  have inv := run_invariant keep start faithful
  exact ⟨along_invariant keep shows start faithful,
    inv.closed.whole.pipe.follows hosted.legal, inv.observed.mem⟩

theorem testbench_passes_loop :
    let b := run (Bench.step ⟨0, 0⟩) ⟨coldLoop, .new loopLines⟩ firstTurn
    b.shadow.mem = b.closed.whole.memory.flat ∧
      (b.closed.whole.proc.retired.map fun r => (r.1.pcReg, r.1.instrMemRdata)).take 4 =
        [(0x60#32, 0x00500093#32), (0x64#32, 0x00100023#32), (0x68#32, 0x00000103#32),
          (0x6c#32, 0xff5ff06f#32)] := by
  intro b
  have sim (u : Drive) (b : Bench) : (b.step ⟨0, 0⟩ u).closed = b.closed.step ⟨0, 0⟩ u := rfl
  obtain ⟨-, follows, same⟩ := testbench_passes ⟨0, 0⟩ (· = 3#27) loopLines loopLines_hosted
    loopLines_guarded (fun _ => 0#32) poweredUp (List.replicate 3 resetCycle) (by decide)
    (by decide) (fun _ _ => 0#256) (fun _ _ => 0#256) ⟨.reset, 0#256, 0, 0#32⟩ 0#64 firstTurn
    (along_projected sim firstTurn_faithful)
  have image : wordsOf (boot (bytesOf (words loopLines))).mem = words loopLines := wordsOf_bytesOf _
  have length := length_le_retired loopLines_hosted loopLines_guarded image coldLoop_inv rfl
    firstTurn_faithful
  have closed : b.closed = run (Closed.step ⟨0, 0⟩) coldLoop firstTurn :=
    run_projected sim ⟨coldLoop, .new loopLines⟩ firstTurn
  rw [length_firstTurn, ← closed] at length
  have turn := retired_turn length follows
  exact ⟨same, turn⟩

end Mp4.Machine.Testbench
