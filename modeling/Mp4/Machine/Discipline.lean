import Mp4.Machine.Execution

/-!
A condition on programs under which no redirect is lost: where fetch may go on behind a jump
or a branch, there is no load whose destination the next word reads. Under it the pipeline
executes the program in every run.
-/

set_option autoImplicit false
set_option relaxedAutoImplicit false

namespace Mp4.Machine.Discipline

open Mp4.Cpu.Rv32iTypes Mp4.Cpu.PipelineRegs Mp4.Cpu.InstrDecode Mp4.Cpu.Isa Mp4.Cpu.DecodeSpec
open Mp4.Cpu.SingleInstruction Mp4.Cpu.Pipeline Mp4.Cpu.Forwarding Mp4.Cpu.DataInvariant
open Mp4.Cpu.ControlFlow Mp4.Lib.Clocked Mp4.Lib.ByteMemory Mp4.Machine.Architecture
open Mp4.Machine.Execution

/-- The instructions that fetch may have to be redirected for. -/
def Transfers (opcode : Rv32iOpcode) : Prop := opcode = opJal ∨ opcode = opJalr ∨ opcode = opBr

def Successor (pc word a : Rv32iWord) : Prop :=
  a = pc + 4#32 ∨ opcodeOf word = opBr ∧ a = pc + bImm word

def LoadUseAt (image : Bytes 30) (a : Rv32iWord) : Prop :=
  opcodeOf (wordAt image a) = opLoad ∧
    (rdOut (wordAt image a) = rs1Id (wordAt image (a + 4#32)) ∨
      rdOut (wordAt image a) = rs2Id (wordAt image (a + 4#32)))

/-- The words that may be fetched behind a jump or a branch of the program are instructions
of the code, and no load among them is followed by a word that reads its destination. -/
structure Guarded (Q : Rv32iWord → Prop) (start : Hart) : Prop where
  code : ∀ n a, Transfers (opcodeOf (trace start n).fetch) →
    Successor (trace start n).pc (trace start n).fetch a →
    Q a ∧ Q (a + 4#32) ∧ Supported (wordAt start.mem a)
  noLoadUse : ∀ n a, Transfers (opcodeOf (trace start n).fetch) →
    Successor (trace start n).pc (trace start n).fetch a → ¬LoadUseAt start.mem a

/-- What fetch has put into the pipeline, on the path or off it. Consecutive packets follow the
prediction, but for a redirect that waits in EX/MEM. -/
structure Fetched (Q : Rv32iWord → Prop) (image : Bytes 30) (p : Processor) : Prop where
  idExBubble : p.tags.idEx = none → p.core.idEx.cntrlWord.readMem = false
  idExPacket : ∀ q ∈ p.tags.idEx, ∃ held x y, p.core.idEx = instrDecode held q x y
  ifIdBubble : p.tags.ifId = none → p.tags.idEx = none
  words : ∀ q ∈ inFlight p.tags, (Q q.pcReg → q.instrMemRdata = wordAt image q.pcReg) ∧
    (q.brPredTaken = true → opcodeOf q.instrMemRdata = opBr)
  chain : (∃ first, Path p.pc first (inFlight p.tags)) ∨
    redirecting p.core.exMem = true ∧ p.tags.idEx = none ∧ p.tags.ifId = none

section Step

variable {Q : Rv32iWord → Prop} {start : Hart} {z : Signals} {s : System}

theorem words_step (fetched : Fetched Q start.mem s.proc) (served : Served Q start.mem z s) :
    ∀ q ∈ inFlight (s.step z).proc.tags,
      (Q q.pcReg → q.instrMemRdata = wordAt start.mem q.pcReg) ∧
        (q.brPredTaken = true → opcodeOf q.instrMemRdata = opBr) := by
  intro q mem
  have older : q ∈ inFlight s.proc.tags ∨
      z.miss = false ∧ q = s.proc.fetched z.program z.cycle := by
    cases miss : z.miss with
    | true =>
      rw [tags_frozen miss] at mem
      split_ifs at mem
      · simp only [inFlight, List.mem_append] at mem ⊢
        simp at mem
        exact .inl (.inl (.inl (by simpa using mem)))
      · exact .inl mem
    | false =>
      rw [tags_moved miss] at mem
      simp only [inFlight, List.mem_append] at mem ⊢
      split_ifs at mem <;> simp_all [Tags.empty] <;> grind
  rcases older with older | ⟨hit, rfl⟩
  · exact fetched.words q older
  · have iHit : z.iCacheMiss = false := (Bool.or_eq_false_iff.mp hit).1
    have packet := @fromProgram_fetched z.program z.cycle s.proc hit
    exact ⟨fun inQ => packet.word.trans (served.fetch iHit inQ), packet.pred⟩

private theorem fetched_frozen (fetched : Fetched Q start.mem s.proc)
    (served : Served Q start.mem z s)
    (frozen : z.miss = true) : Fetched Q start.mem (s.step z).proc := by
  have words := words_step fetched served
  have tags' := tags_frozen (s := s) frozen
  have exMem' := exMem_frozen (s := s) frozen
  have pc' := step_pc (y := z.cycle) z.program s.proc rfl
  rw [show z.cycle.miss = true from frozen] at pc'
  have still : (s.step z).proc.pc = s.proc.pc := pc'
  have idEx' := next_idEx (i := s.proc.coreIn z.program z.cycle) (c := s.proc.core) rfl
  rw [show (s.proc.coreIn z.program z.cycle).flush = redirecting s.proc.core.exMem from
    flush_eq s.proc.core, show (s.proc.coreIn z.program z.cycle).frozen = true from frozen] at idEx'
  have core' : (s.step z).proc.core = s.proc.core.next (s.proc.coreIn z.program z.cycle) := rfl
  cases redirect : redirecting s.proc.core.exMem with
  | true =>
    rw [redirect] at tags' idEx'
    refine ⟨fun _ => ?_, ?_, ?_, words, ?_⟩
    · rw [core', idEx']
      rfl
    · rw [tags']
      intro q packet
      cases packet
    · rw [tags']
      exact fun _ => rfl
    · rw [tags', exMem']
      exact .inr ⟨redirect, rfl, rfl⟩
  | false =>
    rw [redirect] at tags' idEx'
    have tags'' : (s.step z).proc.tags = s.proc.tags := tags'
    have idEx'' : (s.step z).proc.core.idEx = s.proc.core.idEx := idEx'
    refine ⟨?_, ?_, ?_, words, ?_⟩
    · rw [tags'', idEx'']
      exact fetched.idExBubble
    · rw [tags'', idEx'']
      exact fetched.idExPacket
    · rw [tags'']
      exact fetched.ifIdBubble
    · rw [tags'', exMem', still]
      exact fetched.chain

theorem fetched_moved (contents : Contents s.proc) (fetched : Fetched Q start.mem s.proc)
    (served : Served Q start.mem z s) (hit : z.miss = false) :
    Fetched Q start.mem (s.step z).proc := by
  have words := words_step fetched served
  have tags' := tags_moved (s := s) hit
  have pc' := step_pc (y := z.cycle) z.program s.proc rfl
  rw [show z.cycle.miss = false from hit] at pc'
  have next : (s.step z).proc.pc = _ := pc'
  have idEx' := next_idEx (i := s.proc.coreIn z.program z.cycle) (c := s.proc.core) rfl
  rw [show (s.proc.coreIn z.program z.cycle).flush = redirecting s.proc.core.exMem from
    flush_eq s.proc.core, show (s.proc.coreIn z.program z.cycle).frozen = false from hit] at idEx'
  have core' : (s.step z).proc.core = s.proc.core.next (s.proc.coreIn z.program z.cycle) := rfl
  cases redirect : redirecting s.proc.core.exMem with
  | true =>
    rw [redirect] at tags' idEx'
    refine ⟨fun _ => ?_, ?_, ?_, words, .inl ⟨(s.step z).proc.pc, ?_⟩⟩
    · rw [core', idEx']
      rfl
    · rw [tags']
      intro q packet
      cases packet
    · rw [tags']
      exact fun _ => rfl
    · rw [tags']
      rfl
  | false =>
    rw [redirect] at tags' idEx'
    have path : ∃ first, Path s.proc.pc first (inFlight s.proc.tags) := by
      rcases fetched.chain with path | ⟨redirects, -⟩
      · exact path
      · rw [redirect] at redirects
        cases redirects
    have younger : ∃ first, Path s.proc.pc first
        (s.proc.tags.idEx.toList ++ s.proc.tags.ifId.toList) := by
      obtain ⟨first, path⟩ := path
      rw [inFlight, List.append_assoc] at path
      cases h : s.proc.tags.exMem with
      | none =>
        rw [h] at path
        exact ⟨first, path⟩
      | some p =>
        rw [h] at path
        exact ⟨predicted p, path.2⟩
    cases loadUse : s.proc.core.loadUse with
    | true =>
      rw [loadUse] at tags' idEx' next
      have tags'' : (s.step z).proc.tags = ⟨s.proc.tags.ifId, none, s.proc.tags.idEx⟩ := tags'
      refine ⟨fun _ => ?_, ?_, ?_, words, .inl ?_⟩
      · rw [core', idEx']
        rfl
      · rw [tags'']
        intro q packet
        cases packet
      · rw [tags'']
        exact fun _ => rfl
      · rw [tags'', next]
        obtain ⟨first, path⟩ := younger
        exact ⟨first, by simpa [inFlight] using path⟩
    | false =>
      rw [loadUse] at tags' idEx' next
      have tags'' : (s.step z).proc.tags =
        ⟨some (s.proc.fetched z.program z.cycle), s.proc.tags.ifId, s.proc.tags.idEx⟩ := tags'
      refine ⟨?_, ?_, ?_, words, .inl ?_⟩
      · rw [tags'', core', idEx']
        intro none
        exact (decoded_idle (contents.ifIdBubble none)).readMem
      · rw [tags'', core', idEx']
        intro q packet
        obtain rfl := contents.ifIdPacket q packet
        exact ⟨_, _, _, rfl⟩
      · rw [tags'']
        intro empty
        cases empty
      · have sel := pcSel_moved (z := z) contents redirect
        obtain ⟨first, path⟩ := younger
        have longer := path_snoc (p := s.proc.fetched z.program z.cycle) path rfl
        rw [tags'', next]
        exact ⟨first, by simpa [inFlight, sel] using longer⟩

private theorem transfers_of_redirecting {c : Core} {p : IfId} (exMem : InExMem c (some p))
    (redirect : redirecting c.exMem = true) : Transfers (opcodeOf p.instrMemRdata) := by
  cases exMem with
  | packet enc agrees =>
    have opcode := agrees.opcode.trans (opcode_correct enc)
    rw [← opcodeOf_encodes enc] at opcode
    rw [← opcode]
    simp only [redirecting, Bool.or_eq_true, Bool.and_eq_true, beq_iff_eq] at redirect
    rcases redirect with (jal | jalr) | ⟨br, -⟩
    · exact .inl jal
    · exact .inr (.inl jalr)
    · exact .inr (.inr br)

private theorem load_of_readMem {held : Rv32iControlWord} {q : IfId} {x y : Rv32iWord}
    (supported : Supported q.instrMemRdata)
    (load : (instrDecode held q x y).cntrlWord.readMem = true) :
    opcodeOf q.instrMemRdata = opLoad := by
  obtain ⟨i, enc⟩ := encodes_of_supported supported
  have word : (instrDecode held q x y).cntrlWord = formatWord (funct3Of q.instrMemRdata) i :=
    controlWordOut_encodes held enc
  rw [word] at load
  cases enc with
  | load op kind => exact op
  | lui op | auipc op | jal op | jalr op | branch op _ | store op _ | arithImm op _
  | arith op _ => cases load

/-- Over a guarded program no redirect meets a load-use hazard. -/
private theorem redirect_apart (guarded : Guarded Q start) (inv : Inv start s)
    (fetched : Fetched Q start.mem s.proc) :
    ¬(redirecting s.proc.core.exMem = true ∧ s.proc.core.loadUse = true) := by
  rintro ⟨redirect, loadUse⟩
  have readMem : s.proc.core.idEx.cntrlWord.readMem = true := by
    simp only [Core.loadUse, Cpu.InstrDecode.loadUse, Bool.and_eq_true] at loadUse
    exact loadUse.1
  cases h2 : s.proc.tags.idEx with
  | none =>
    rw [fetched.idExBubble h2] at readMem
    cases readMem
  | some q =>
    cases h1 : s.proc.tags.ifId with
    | none =>
      rw [fetched.ifIdBubble h1] at h2
      cases h2
    | some r =>
      have exMem := inv.contents.exMem
      have path := inv.onPath
      cases h3 : s.proc.tags.exMem with
      | none =>
        rw [bubble_straight (h3 ▸ exMem)] at redirect
        cases redirect
      | some p =>
        rw [h3] at exMem path
        have here := path.1
        have flight : inFlight s.proc.tags = [p, q, r] := by simp [inFlight, h1, h2, h3]
        obtain ⟨first, -, toQ, toR, -⟩ : ∃ first, Path s.proc.pc first [p, q, r] := by
          rcases fetched.chain with chain | ⟨-, none, -⟩
          · exact flight ▸ chain
          · rw [h2] at none
            cases none
        have transfers := transfers_of_redirecting exMem redirect
        rw [here.fetched.word] at transfers
        have successor : Successor (reached start s).pc (reached start s).fetch q.pcReg := by
          rw [toQ, predicted, here.pc, here.fetched.word]
          split_ifs with taken
          · exact .inr ⟨here.fetched.word ▸ here.fetched.pred taken, rfl⟩
          · exact .inl rfl
        obtain ⟨inQ, inQ', supported⟩ := guarded.code _ _ transfers successor
        obtain ⟨wordQ, predQ⟩ := fetched.words q (by simp [flight])
        rw [← wordQ inQ] at supported
        obtain ⟨held, x, y, decoded⟩ := fetched.idExPacket q h2
        rw [decoded] at readMem
        have load := load_of_readMem supported readMem
        have straight : predicted q = q.pcReg + 4#32 := by
          have notTaken : q.brPredTaken = false := by
            by_contra taken
            rw [predQ (by simpa using taken)] at load
            cases load
          simp [predicted, notTaken]
        rw [straight] at toR
        have wordR := (fetched.words r (by simp [flight])).1 (toR ▸ inQ')
        refine guarded.noLoadUse _ _ transfers successor ⟨wordQ inQ ▸ load, ?_⟩
        have source := inv.contents.ifIdPacket r h1
        rw [← wordQ inQ, ← toR, ← wordR, source]
        have dest : s.proc.core.idEx.regDest = rdOut q.instrMemRdata := by
          rw [decoded]
          rfl
        rw [← dest]
        simpa [Core.loadUse, Cpu.InstrDecode.loadUse, decoded ▸ readMem] using loadUse

theorem redirect_kept (guarded : Guarded Q start) (inv : Inv start s)
    (fetched : Fetched Q start.mem s.proc) : losesRedirect z.cycle s.proc = false := by
  have apart := redirect_apart guarded inv fetched
  rw [← Bool.and_eq_true, Bool.not_eq_true] at apart
  rw [losesRedirect, apart, Bool.false_and]

theorem fetched_step (guarded : Guarded Q start) (proper : Proper Q start) (z : Signals)
    (s : System) (inv : Inv start s ∧ Fetched Q start.mem s.proc)
    (served : Served Q start.mem z s) :
    Inv start (s.step z) ∧ Fetched Q start.mem (s.step z).proc := by
  refine ⟨inv_step proper z s inv.1 ⟨served, redirect_kept guarded inv.1 inv.2⟩, ?_⟩
  cases miss : z.miss with
  | true => exact fetched_frozen inv.2 served miss
  | false => exact fetched_moved inv.1.contents inv.2 served miss

theorem fetched_reset (inv : Inv start s) (empty : s.proc.tags = .empty) :
    Fetched Q start.mem s.proc := by
  have exMem := inv.contents.exMem
  have idEx := inv.contents.idEx
  rw [empty] at exMem idEx
  have idle := idEx (bubble_straight exMem)
  refine ⟨fun _ => ?_, ?_, ?_, ?_, .inl ⟨s.proc.pc, ?_⟩⟩
  · cases idle with
    | bubble idle => exact idle.readMem
  · rw [empty]
    intro q packet
    cases packet
  · rw [empty]
    exact fun _ => rfl
  · rw [empty]
    exact fun q mem => absurd mem List.not_mem_nil
  · rw [empty]
    rfl

theorem admitted_of_served (guarded : Guarded Q start) (proper : Proper Q start)
    (inv : Inv start s) (fetched : Fetched Q start.mem s.proc) {zs : List Signals}
    (served : Along System.step (Served Q start.mem) s zs) :
    Along System.step (Admitted Q start.mem) s zs := by
  have kept (z : Signals) (s : System) (inv : Inv start s ∧ Fetched Q start.mem s.proc)
      (served : Served Q start.mem z s) : Admitted Q start.mem z s :=
    ⟨served, redirect_kept guarded inv.1 inv.2⟩
  exact along_invariant (fetched_step guarded proper) kept ⟨inv, fetched⟩ served

end Step

/-- From reset, over every image whose program is proper and guarded: no redirect ever meets a
load-use hazard, and the pipeline executes the program, whatever the misses and the
predictions. -/
theorem executes_guarded_program (Q : Rv32iWord → Prop) (image : Bytes 30)
    (proper : Proper Q (boot image)) (guarded : Guarded Q (boot image)) (prog : Program)
    (p : Processor) (resets : List Cycle) (rst : ∀ y ∈ resets, y.rst = true)
    (enough : 3 ≤ resets.length) (zs : List Signals)
    (served : Along System.step (Served Q image)
      ⟨run (Processor.step prog) p resets, wordsOf image⟩ zs) :
    let s := run System.step ⟨run (Processor.step prog) p resets, wordsOf image⟩ zs
    Along System.step
        (fun _ s => ¬(redirecting s.proc.core.exMem = true ∧ s.proc.core.loadUse = true))
        ⟨run (Processor.step prog) p resets, wordsOf image⟩ zs ∧
      Follows (boot image) s ∧
      zs.countP (fun z => !z.miss) ≤ 4 * s.proc.retired.length + 3 := by
  intro s
  obtain ⟨start, empty, none⟩ := inv_reset prog rst enough p image
  have fetched := fetched_reset (Q := Q) start empty
  have admitted := admitted_of_served guarded proper start fetched served
  have apart (z : Signals) (s : System) (inv : Inv (boot image) s ∧ Fetched Q image s.proc)
      (_ : Served Q image z s) :
      ¬(redirecting s.proc.core.exMem = true ∧ s.proc.core.loadUse = true) :=
    redirect_apart guarded inv.1 inv.2
  obtain ⟨inv, bound⟩ := inv_run proper start admitted
  refine ⟨along_invariant (fetched_step guarded proper) apart ⟨start, fetched⟩ served,
    inv.follows proper.legal, ?_⟩
  have first := due_le (run (Processor.step prog) p resets).tags
  rw [none] at bound
  simp only [List.length_nil] at bound
  change zs.countP (fun z => !z.miss) ≤ 4 * (run System.step _ zs).proc.retired.length + 3
  omega

def aroundLoop (pc : Rv32iWord) : Prop := inLoop pc ∨ pc = 0x70#32 ∨ pc = 0x74#32

instance : DecidablePred aroundLoop := fun _ => inferInstanceAs (Decidable (_ ∨ _))

theorem aroundLoop_proper : Proper aroundLoop (boot (bytesOf storeLoop)) :=
  ⟨storeLoop_proper.legal, fun n => .inl (storeLoop_proper.within n), storeLoop_proper.unmodified⟩

private theorem storeLoop_successor (n : Nat) (a : Rv32iWord)
    (transfers : Transfers (opcodeOf (trace (boot (bytesOf storeLoop)) n).fetch))
    (successor : Successor (trace (boot (bytesOf storeLoop)) n).pc
      (trace (boot (bytesOf storeLoop)) n).fetch a) : a = 0x70#32 := by
  obtain ⟨-, fetch⟩ := looping_fetch (looping n)
  rw [fetch] at transfers successor
  rcases (looping n).pc with pc | pc | pc | pc <;> rw [pc] at transfers successor
  · exact absurd transfers (by unfold Transfers; decide)
  · exact absurd transfers (by unfold Transfers; decide)
  · exact absurd transfers (by unfold Transfers; decide)
  · rcases successor with next | ⟨branch, -⟩
    · exact next
    · exact absurd branch (by decide)

theorem storeLoop_guarded {Q : Rv32iWord → Prop} (next : Q 0x70#32) (after : Q 0x74#32) :
    Guarded Q (boot (bytesOf storeLoop)) := by
  have word : wordAt (boot (bytesOf storeLoop)).mem 0x70#32 = nopWord :=
    congrFun (wordsOf_bytesOf storeLoop) 0x1c#30
  constructor
  · intro n a transfers successor
    rw [storeLoop_successor n a transfers successor, word]
    exact ⟨next, after, by decide⟩
  · intro n a transfers successor
    rw [storeLoop_successor n a transfers successor, LoadUseAt, word]
    exact fun load => absurd load.1 (by decide)

def guardedTurn : List Signals :=
  [serving 0x00500093#32, serving 0x00100023#32, serving 0x00000103#32, serving 0xff5ff06f#32,
    ⟨true, false, false, 7#32, 0#32, true⟩, serving nopWord, serving nopWord,
    serving 0xffffffff#32, serving 0x00500093#32]

theorem executes_guarded_program_loop :
    let s := run System.step ⟨run (Processor.step fun _ => 0#32) poweredUp
      (List.replicate 3 resetCycle), wordsOf (bytesOf storeLoop)⟩ guardedTurn
    s.proc.retired.length = 4 ∧ Follows (boot (bytesOf storeLoop)) s := by
  intro s
  have result := executes_guarded_program aroundLoop (bytesOf storeLoop) aroundLoop_proper
    (storeLoop_guarded (by decide) (by decide)) (fun _ => 0#32) poweredUp
    (List.replicate 3 resetCycle) (by decide) (by decide) guardedTurn (by decide +kernel)
  exact ⟨by decide +kernel, result.2.1⟩

end Mp4.Machine.Discipline
