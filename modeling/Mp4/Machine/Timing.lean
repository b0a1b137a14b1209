import Mp4.Machine.Discipline

/-!
The time that a program takes. A cycle without a miss is spent on an instruction, on one of the
three slots behind a redirect, or on the slot between a load and an instruction that waits for
it, and on nothing else.
-/

set_option autoImplicit false
set_option relaxedAutoImplicit false

namespace Mp4.Machine.Timing

open Mp4.Cpu.Rv32iTypes Mp4.Cpu.PipelineRegs Mp4.Cpu.InstrDecode Mp4.Cpu.Isa Mp4.Cpu.DecodeSpec
open Mp4.Cpu.Pipeline Mp4.Cpu.DataInvariant
open Mp4.Cpu.ControlFlow Mp4.Lib.Clocked Mp4.Lib.ByteMemory Mp4.Machine.Architecture
open Mp4.Machine.Execution Mp4.Machine.Discipline

def Waits (v u : Rv32iWord) : Prop :=
  opcodeOf v = opLoad ∧ (rdOut v = rs1Id u ∨ rdOut v = rs2Id u)

instance (v u : Rv32iWord) : Decidable (Waits v u) := inferInstanceAs (Decidable (_ ∧ _))

/-- The cycles spent on an instruction with the given prediction and the one behind it. -/
def price (h : Hart) (p : IfId) : Nat :=
  if h.redirects p then 4 else if Waits h.fetch h.step.fetch then 2 else 1

/-- The cycles spent on the first instructions of a trace, by their packets. -/
def cost (start : Hart) (ps : List (IfId × Rv32iWord)) : Nat :=
  (ps.zipIdx.map fun r => price (trace start r.2) r.1.1).sum

private theorem cost_snoc (start : Hart) (ps : List (IfId × Rv32iWord)) (r : IfId × Rv32iWord) :
    cost start (ps ++ [r]) = cost start ps + price (trace start ps.length) r.1 := by
  simp [cost, List.zipIdx_append]

/-- A load in EX/MEM has the gap behind it that its successor asks for. -/
structure Paced (p : Processor) : Prop where
  order : p.tags.ifId = none → p.tags.idEx = none
  apart : redirecting p.core.exMem = false → ∀ v ∈ p.tags.exMem, p.tags.idEx = none →
    ∃ u, p.tags.ifId = some u ∧ Waits v.instrMemRdata u.instrMemRdata
  close : redirecting p.core.exMem = false → ∀ v ∈ p.tags.exMem, ∀ u ∈ p.tags.idEx,
    ¬Waits v.instrMemRdata u.instrMemRdata

section Step

variable {Q : Rv32iWord → Prop} {start : Hart} {z : Signals} {s : System}

private theorem loadUse_iff {c : Core} {v : IfId} (idEx : InIdEx c (some v)) :
    c.loadUse = true ↔ Waits v.instrMemRdata c.ifId.instrMemRdata := by
  cases idEx with
  | @packet _ i held x y enc decoded =>
    have dest : c.idEx.regDest = rdOut v.instrMemRdata := by
      rw [decoded]
      rfl
    have word : c.idEx.cntrlWord = formatWord (funct3Of v.instrMemRdata) i := by
      rw [decoded]
      exact controlWordOut_encodes held enc
    rw [Core.loadUse, Cpu.InstrDecode.loadUse, dest, word, Waits]
    cases enc with
    | load op kind => simp [formatWord, setControlWord, op]
    | lui op | auipc op | jal op | jalr op | branch op _ | store op _ | arithImm op _
    | arith op _ =>
      refine iff_of_false (by simp [formatWord, setControlWord]) ?_
      rintro ⟨other, -⟩
      exact absurd (op.symm.trans other) (by decide)

private theorem loadUse_bubble {c : Core} (idEx : InIdEx c none) : c.loadUse = false := by
  cases idEx with
  | bubble idle => simp [Core.loadUse, Cpu.InstrDecode.loadUse, idle.readMem]

private theorem paced_frozen (paced : Paced s.proc) (frozen : z.miss = true) :
    Paced (s.step z).proc := by
  have tags' := tags_frozen (s := s) frozen
  have exMem' := exMem_frozen (s := s) frozen
  cases redirect : redirecting s.proc.core.exMem with
  | true =>
    have again : redirecting (s.step z).proc.core.exMem ≠ false := by
      rw [exMem', redirect]
      simp
    refine ⟨fun _ => ?_, fun straight => absurd straight again,
      fun straight => absurd straight again⟩
    rw [tags', redirect]
    rfl
  | false =>
    rw [redirect] at tags'
    have same : (s.step z).proc.tags = s.proc.tags := tags'
    refine ⟨?_, ?_, ?_⟩
    · rw [same]
      exact paced.order
    · rw [same, exMem']
      exact paced.apart
    · rw [same, exMem']
      exact paced.close

private theorem paced_moved (paced : Paced s.proc) (contents : Contents s.proc)
    (hit : z.miss = false) :
    Paced (s.step z).proc := by
  have tags' := tags_moved (s := s) hit
  cases redirect : redirecting s.proc.core.exMem with
  | true =>
    rw [redirect] at tags'
    have empty : (s.step z).proc.tags = .empty := tags'
    refine ⟨fun _ => by rw [empty]; rfl, ?_, ?_⟩
    · intro _ v packet
      rw [empty] at packet
      cases packet
    · intro _ v packet
      rw [empty] at packet
      cases packet
  | false =>
    rw [redirect] at tags'
    have idEx := contents.idEx redirect
    cases loadUse : s.proc.core.loadUse with
    | true =>
      rw [loadUse] at tags'
      have next : (s.step z).proc.tags = ⟨s.proc.tags.ifId, none, s.proc.tags.idEx⟩ := tags'
      refine ⟨fun _ => by rw [next], ?_, ?_⟩
      · intro _ v packet _
        rw [next] at packet ⊢
        change s.proc.tags.idEx = some v at packet
        cases ifId : s.proc.tags.ifId with
        | none =>
          rw [paced.order ifId] at packet
          cases packet
        | some u =>
          rw [packet] at idEx
          refine ⟨u, rfl, ?_⟩
          rw [contents.ifIdPacket u ifId]
          exact (loadUse_iff idEx).mp loadUse
      · intro _ v _ u packet
        rw [next] at packet
        cases packet
    | false =>
      rw [loadUse] at tags'
      have next : (s.step z).proc.tags =
        ⟨some (s.proc.fetched z.program z.cycle), s.proc.tags.ifId, s.proc.tags.idEx⟩ := tags'
      refine ⟨?_, ?_, ?_⟩
      · intro empty
        rw [next] at empty
        cases empty
      · intro _ v packet gap
        rw [next] at packet gap
        change s.proc.tags.idEx = some v at packet
        rw [paced.order gap] at packet
        cases packet
      · intro _ v packet u younger
        rw [next] at packet younger
        change s.proc.tags.idEx = some v at packet
        rw [packet] at idEx
        rw [contents.ifIdPacket u younger, ← loadUse_iff idEx, loadUse]
        exact Bool.false_ne_true

private theorem paced_step (paced : Paced s.proc) (contents : Contents s.proc) :
    Paced (s.step z).proc := by
  cases miss : z.miss with
  | true => exact paced_frozen paced miss
  | false => exact paced_moved paced contents miss

private theorem exMem_redirects (contents : Contents s.proc)
    (redirect : redirecting s.proc.core.exMem = true) : ∃ v, s.proc.tags.exMem = some v := by
  have exMem := contents.exMem
  cases held : s.proc.tags.exMem with
  | none =>
    rw [bubble_straight (held ▸ exMem)] at redirect
    cases redirect
  | some v => exact ⟨v, rfl⟩

private theorem due_frozen (contents : Contents s.proc) (frozen : z.miss = true) :
    due (s.step z).proc.tags = due s.proc.tags := by
  have tags' := tags_frozen (s := s) frozen
  cases redirect : redirecting s.proc.core.exMem with
  | true =>
    obtain ⟨v, held⟩ := exMem_redirects contents redirect
    rw [redirect] at tags'
    have next : (s.step z).proc.tags = ⟨none, none, s.proc.tags.exMem⟩ := tags'
    rw [next, due, due, held]
    rfl
  | false =>
    rw [redirect] at tags'
    exact congrArg due tags'

private theorem due_empty (contents : Contents s.proc) (hit : z.miss = false)
    (empty : s.proc.tags.exMem = none) :
    1 + due (s.step z).proc.tags = due s.proc.tags := by
  have tags' := tags_moved (s := s) hit
  have straight : redirecting s.proc.core.exMem = false :=
    bubble_straight (empty ▸ contents.exMem)
  have idEx := contents.idEx straight
  rw [straight] at tags'
  cases middle : s.proc.tags.idEx with
  | some u =>
    have next : (s.step z).proc.tags.exMem = some u := by
      rw [tags', ← middle]
      cases s.proc.core.loadUse <;> rfl
    simp [due, next, middle, empty]
  | none =>
    rw [loadUse_bubble (middle ▸ idEx)] at tags'
    have next : (s.step z).proc.tags =
      ⟨some (s.proc.fetched z.program z.cycle), s.proc.tags.ifId, s.proc.tags.idEx⟩ := tags'
    rw [next]
    cases first : s.proc.tags.ifId <;> simp [due, first, middle, empty]

private theorem due_retired (legal : ∀ n, (trace start n).Legal) (paced : Paced s.proc)
    (inv : Inv start s) (hit : z.miss = false) {v : IfId} (held : s.proc.tags.exMem = some v) :
    1 + due (s.step z).proc.tags = price (reached start s) v := by
  have tags' := tags_moved (s := s) hit
  have path := inv.onPath
  have redirects := redirecting_eq (legal _) inv.contents.exMem inv.regs path
  rw [held] at path redirects
  have here : At (reached start s) v := path.1
  cases redirect : redirecting s.proc.core.exMem with
  | true =>
    rw [redirect] at tags'
    have next : (s.step z).proc.tags = .empty := tags'
    have diverted : (reached start s).redirects v = true := redirects.symm.trans redirect
    rw [next, price, if_pos diverted]
    rfl
  | false =>
    rw [redirect] at tags'
    have straight : (reached start s).redirects v = false := redirects.symm.trans redirect
    have younger := path.2 straight
    rw [price, straight, if_neg Bool.false_ne_true]
    cases middle : s.proc.tags.idEx with
    | some u =>
      have next : (s.step z).proc.tags.exMem = some u := by
        rw [tags', ← middle]
        cases s.proc.core.loadUse <;> rfl
      rw [middle] at younger
      have behind : At (reached start s).step u := younger.1
      have close := paced.close redirect v held u middle
      rw [here.fetched.word, behind.fetched.word] at close
      rw [if_neg close, due, next]
      rfl
    | none =>
      obtain ⟨u, first, waits⟩ := paced.apart redirect v held middle
      rw [middle, first] at younger
      have behind : At (reached start s).step u := younger.1
      rw [here.fetched.word, behind.fetched.word] at waits
      rw [loadUse_bubble (middle ▸ inv.contents.idEx redirect)] at tags'
      have next : (s.step z).proc.tags =
        ⟨some (s.proc.fetched z.program z.cycle), s.proc.tags.ifId, s.proc.tags.idEx⟩ := tags'
      rw [if_pos waits, next, middle, first]
      rfl

theorem timing_step (legal : ∀ n, (trace start n).Legal) (paced : Paced s.proc)
    (inv : Inv start s) :
    (if z.miss then 0 else 1) + cost start s.proc.retired + due (s.step z).proc.tags =
      cost start (s.step z).proc.retired + due s.proc.tags := by
  cases miss : z.miss with
  | true =>
    rw [retired_frozen miss, due_frozen inv.contents miss, if_pos rfl, Nat.zero_add]
  | false =>
    rw [retired_moved miss, if_neg Bool.false_ne_true]
    cases held : s.proc.tags.exMem with
    | none =>
      have next := due_empty inv.contents miss held
      simp only [Option.map_none, Option.toList_none, List.append_nil]
      omega
    | some v =>
      have paid := due_retired legal paced inv miss held
      have none : due s.proc.tags = 0 := by simp [due, held]
      simp only [Option.map_some, Option.toList_some, cost_snoc]
      rw [none]
      change _ = cost start s.proc.retired + price (reached start s) v + 0
      omega

theorem timing_run (proper : Proper Q start) (paced : Paced s.proc) (inv : Inv start s)
    {zs : List Signals} (admitted : Along System.step (Admitted Q start.mem) s zs) :
    zs.countP (fun z => !z.miss) + cost start s.proc.retired +
        due (run System.step s zs).proc.tags =
      cost start (run System.step s zs).proc.retired + due s.proc.tags := by
  induction zs generalizing s with
  | nil => simp [run]
  | cons z zs ih =>
    have law := timing_step (z := z) proper.legal paced inv
    have rest := ih (paced_step paced inv.contents) (inv_step proper z s inv admitted.1) admitted.2
    rw [List.countP_cons, run]
    cases miss : z.miss <;> simp only [miss] at law ⊢ <;> simp at law ⊢ <;> omega

end Step

/-- From reset, over every image whose program is proper, for every pattern of misses and all
predictions: the cycles without a miss are those that the retired instructions cost, four for
one that redirects fetch, two for a load whose destination is a source id of the next word and
one for any other, with the three that fill the pipeline. -/
theorem timing_law (Q : Rv32iWord → Prop) (image : Bytes 30) (proper : Proper Q (boot image))
    (prog : Program) (p : Processor) (resets : List Cycle) (rst : ∀ y ∈ resets, y.rst = true)
    (enough : 3 ≤ resets.length) (zs : List Signals)
    (admitted : Along System.step (Admitted Q image)
      ⟨run (Processor.step prog) p resets, wordsOf image⟩ zs) :
    let s := run System.step ⟨run (Processor.step prog) p resets, wordsOf image⟩ zs
    zs.countP (fun z => !z.miss) + due s.proc.tags = cost (boot image) s.proc.retired + 3 := by
  intro s
  obtain ⟨start, empty, none⟩ := inv_reset prog rst enough p image
  have paced : Paced (run (Processor.step prog) p resets) := by
    refine ⟨fun _ => by rw [empty]; rfl, ?_, ?_⟩
    · intro _ v packet
      rw [empty] at packet
      cases packet
    · intro _ v packet
      rw [empty] at packet
      cases packet
  have law := timing_run proper paced start admitted
  have nothing : cost (boot image) (run (Processor.step prog) p resets).retired = 0 := by
    rw [none]
    rfl
  have filling : due (run (Processor.step prog) p resets).tags = 3 := by
    rw [empty]
    rfl
  rw [nothing, filling, Nat.add_zero] at law
  exact law

/-- The law without a proviso on the run: over a guarded program no redirect is lost. -/
theorem guarded_timing_law (Q : Rv32iWord → Prop) (image : Bytes 30)
    (proper : Proper Q (boot image)) (guarded : Guarded Q (boot image)) (prog : Program)
    (p : Processor) (resets : List Cycle) (rst : ∀ y ∈ resets, y.rst = true)
    (enough : 3 ≤ resets.length) (zs : List Signals)
    (served : Along System.step (Served Q image)
      ⟨run (Processor.step prog) p resets, wordsOf image⟩ zs) :
    let s := run System.step ⟨run (Processor.step prog) p resets, wordsOf image⟩ zs
    zs.countP (fun z => !z.miss) + due s.proc.tags = cost (boot image) s.proc.retired + 3 := by
  obtain ⟨start, empty, -⟩ := inv_reset prog rst enough p image
  have fetched := fetched_reset (Q := Q) start empty
  have admitted := admitted_of_served guarded proper start fetched served
  exact timing_law Q image proper prog p resets rst enough zs admitted

theorem guarded_timing_law_loop :
    let s := run System.step ⟨run (Processor.step fun _ => 0#32) poweredUp
      (List.replicate 3 resetCycle), wordsOf (bytesOf storeLoop)⟩ guardedTurn
    guardedTurn.countP (fun z => !z.miss) = 8 ∧
      cost (boot (bytesOf storeLoop)) s.proc.retired = 7 := by
  intro s
  have filling : due s.proc.tags = 2 := by decide +kernel
  have hits : guardedTurn.countP (fun z => !z.miss) = 8 := by decide
  have law := guarded_timing_law aroundLoop (bytesOf storeLoop) aroundLoop_proper
    (storeLoop_guarded (by decide) (by decide)) (fun _ => 0#32) poweredUp
    (List.replicate 3 resetCycle) (by decide) (by decide) guardedTurn (by decide +kernel)
  change _ + due s.proc.tags = cost _ s.proc.retired + 3 at law
  rw [hits, filling] at law
  exact ⟨hits, by omega⟩

end Mp4.Machine.Timing
