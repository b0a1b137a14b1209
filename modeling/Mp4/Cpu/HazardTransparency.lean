import Mp4.Cpu.Unpipelined
import Mp4.Lib.Clocked

/-!
The pipeline with its flush held at zero, fed a finite stream and attached to a
flat data memory, writes what the unpipelined reference writes.
-/

set_option autoImplicit false
set_option relaxedAutoImplicit false

namespace Mp4.Cpu.HazardTransparency

open Mp4.Cpu.Rv32iTypes Mp4.Cpu.PipelineRegs Mp4.Cpu.InstrDecode Mp4.Cpu.Isa Mp4.Cpu.DecodeSpec
open Mp4.Cpu.MemStage Mp4.Cpu.SingleInstruction Mp4.Cpu.Pipeline
open Mp4.Cpu.Forwarding Mp4.Cpu.DataInvariant Mp4.Cpu.Unpipelined Mp4.Lib.Clocked

structure Cycle where
  iCacheMiss : Bool
  dCacheMiss : Bool
  missRdata : Rv32iWord

def Cycle.miss (y : Cycle) : Bool := y.iCacheMiss || y.dCacheMiss

structure System where
  core : Core
  tags : Tags
  pending : List IfId
  mem : Mem
  regLog : List (Rv32iReg × Rv32iWord)
  memLog : List MemWrite

/-- The no-op presented to IF/ID when the stream has ended. -/
def endPacket : IfId := ⟨0#32, nopWord, false, 0#32⟩

def System.coreIn (s : System) (y : Cycle) : CoreIn where
  rst := false
  flush := false
  iCacheMiss := y.iCacheMiss
  dCacheMiss := y.dCacheMiss
  fetched := s.pending.headD endPacket
  dCacheRdata := if y.dCacheMiss then y.missRdata else readMem s.mem s.core.exMem.aluVal

/-- One clock edge. The memory completes the access of EX/MEM in a cycle without
`d_cache_miss`; a write enters its log when its instruction leaves the stage, so one
that a held stage repeats counts once. -/
def System.step (y : Cycle) (s : System) : System :=
  let i := s.coreIn y
  let stalls := s.core.hazards i.iCacheMiss i.dCacheMiss
  { core := s.core.next i
    tags := s.tags.next i s.core s.pending.head?
    pending := if stalls.stallIfId then s.pending else s.pending.tail
    mem := if y.dCacheMiss then s.mem else applyStore s.mem (memWrite s.core)
    regLog := if stalls.stallMemWb then s.regLog
      else s.regLog ++ (regWriteOf s.core.memWb).toList
    memLog := if stalls.stallExMem then s.memLog else s.memLog ++ (memWrite s.core).toList }

def emptyCore (regs : Regs) (heldCtrl : Rv32iControlWord) (heldBrEn : Bool)
    (heldChecker : Checker) (heldByteEnable : BitVec 4) : Core where
  ifId := endPacket
  idEx := clearedIdEx zeroControlWord 0x13#7 false 0#32
  exMem := clearedExMem 0x13#7
  memWb :=
    { uImm := 0#32, regDest := 0#5, regPc := 0#32, aluVal := 0#32, cmpVal := false,
      cntrlWord := zeroControlWord, rData := 0#32, opcode := 0x13#7 }
  regs := regs
  heldCtrl := heldCtrl
  heldBrEn := heldBrEn
  heldChecker := heldChecker
  heldByteEnable := heldByteEnable

/-- The packets in the pipeline, the oldest first. -/
def inFlight (t : Tags) : List IfId := t.exMem.toList ++ t.idEx.toList ++ t.ifId.toList

/-- The system has done what the reference did for the packets that left EX/MEM, up
to the write of MEM/WB, which is still to come, and the access of EX/MEM, which may
have been made already. -/
structure Matches (r : Machine) (s : System) : Prop where
  regs : settled s.core = r.regs
  mem : applyStore s.mem (memWrite s.core) = applyStore r.mem (memWrite s.core)
  regLog : s.regLog ++ (regWriteOf s.core.memWb).toList = r.regLog
  memLog : s.memLog = r.memLog

structure SysInv (start : Machine) (stream : List IfId) (s : System) : Prop where
  supported : ∀ p ∈ s.pending, Supported p.instrMemRdata
  data : DataInv s.core s.tags
  order : ∃ done, stream = done ++ inFlight s.tags ++ s.pending ∧
    Matches (done.foldl Machine.step start) s

section Step

variable {y : Cycle} {s : System} {r : Machine}

private theorem offers_pending (supported : ∀ p ∈ s.pending, Supported p.instrMemRdata) :
    Offers (s.pending.headD endPacket) s.pending.head? := by
  cases h : s.pending with
  | nil => exact .bubble rfl
  | cons p ps => exact .packet (supported p (h ▸ List.mem_cons_self))

private theorem step_pending :
    (s.step y).pending = if y.miss || s.core.loadUse then s.pending else s.pending.tail :=
  congrArg (if · then s.pending else s.pending.tail) (stallIfId_eq (s.coreIn y) s.core)

private theorem step_regLog :
    (s.step y).regLog =
      if y.miss then s.regLog else s.regLog ++ (regWriteOf s.core.memWb).toList :=
  congrArg (if · then s.regLog else s.regLog ++ (regWriteOf s.core.memWb).toList)
    (stallMemWb_eq (s.coreIn y) s.core)

private theorem step_memLog :
    (s.step y).memLog = if y.miss then s.memLog else s.memLog ++ (memWrite s.core).toList :=
  congrArg (if · then s.memLog else s.memLog ++ (memWrite s.core).toList)
    (stallExMem_eq (s.coreIn y) s.core)

private theorem matches_frozen (inv : DataInv s.core s.tags) (h : Matches r s)
    (miss : y.miss = true) :
    Matches r (s.step y) := by
  have exMem' : (s.step y).core.exMem = s.core.exMem := (next_exMem rfl).trans (if_pos miss)
  have memWb' : (s.step y).core.memWb = s.core.memWb := (next_memWb rfl).trans (if_pos miss)
  have settled' : settled (s.step y).core = settled s.core := settled_frozen rfl miss
  have write' : memWrite (s.step y).core = memWrite s.core := by
    rw [memWrite_eq inv.exMem 0#4, memWrite_eq (inv.exMem.congr exMem' settled') 0#4, exMem']
  refine ⟨settled'.trans h.regs, ?_, ?_, ?_⟩
  · rw [write', ← h.mem]
    change applyStore (if y.dCacheMiss then s.mem else applyStore s.mem (memWrite s.core)) _ = _
    split_ifs
    · rfl
    · exact applyStore_twice _ _
  · rw [step_regLog, if_pos miss, memWb', h.regLog]
  · rw [step_memLog, if_pos miss, h.memLog]

theorem matches_moved (inv : DataInv s.core s.tags) (h : Matches r s) (moved : y.miss = false) :
    Matches (s.tags.exMem.toList.foldl Machine.step r) (s.step y) := by
  have hit : y.dCacheMiss = false := (Bool.or_eq_false_iff.mp moved).2
  have running : (s.coreIn y).rst = false := rfl
  have moved' : (s.coreIn y).frozen = false := moved
  have rData : (s.coreIn y).dCacheRdata = readMem s.mem s.core.exMem.aluVal :=
    if_neg (by simp [hit])
  have memWb' : (s.step y).core.memWb =
      memStage s.core.exMem (readMem s.mem s.core.exMem.aluVal) := by
    rw [← rData]
    exact (next_memWb running).trans (if_neg (by simp [moved']))
  have settled' : settled (s.step y).core =
      applyWrite (settled s.core) (regWriteOf (s.step y).core.memWb) := by
    rw [memWb', ← rData]
    exact settled_moved running moved'
  have mem' : (s.step y).mem = applyStore r.mem (memWrite s.core) := by
    rw [← h.mem]
    exact if_neg (by simp [hit])
  have regLog' : (s.step y).regLog = r.regLog := by
    rw [step_regLog, moved, ← h.regLog]
    rfl
  have memLog' : (s.step y).memLog = r.memLog ++ (memWrite s.core).toList := by
    rw [step_memLog, moved, ← h.memLog]
    rfl
  generalize ho : s.tags.exMem = o
  have exMem := ho ▸ inv.exMem
  cases o with
  | none =>
    cases exMem with
    | bubble idle =>
      have noReg : regWriteOf (s.step y).core.memWb = none := by
        rw [memWb']
        simp [regWriteOf, memStage, idle.regDest]
      have noMem : memWrite s.core = none := by simp [memWrite, idle.writeMem]
      rw [noMem] at mem' memLog'
      refine ⟨?_, ?_, ?_, ?_⟩
      · rw [settled', noReg]
        exact h.regs
      · exact congrArg (applyStore · _) mem'
      · rw [regLog', noReg]
        exact List.append_nil _
      · rw [memLog']
        exact List.append_nil _
  | some p =>
    have agrees := exMem.agrees_once r.heldCtrl r.heldBrEn
    rw [h.regs] at agrees
    have write := memWrite_agrees exMem agrees r.heldByteEnable
    have result : regWriteOf (s.step y).core.memWb = regWriteOf (memStage
        (executeOnce r.heldCtrl r.heldBrEn p (readReg r.regs (rs1Id p.instrMemRdata))
          (readReg r.regs (rs2Id p.instrMemRdata))) (readMem r.mem s.core.exMem.aluVal)) := by
      rw [memWb', ← agrees.regWriteOf_eq]
      by_cases writeMem : s.core.exMem.cntrlWord.writeMem = true
      · rw [regWriteOf_store exMem _ writeMem, regWriteOf_store exMem _ writeMem]
      · have same := h.mem
        rw [memWrite, if_neg writeMem] at same
        rw [show s.mem = r.mem from same]
    refine ⟨?_, ?_, ?_, ?_⟩
    · rw [settled', h.regs, result, agrees.aluVal]
      exact (regfileNext_eq _ _).symm
    · rw [mem', write]
      rfl
    · rw [regLog', result, agrees.aluVal]
      rfl
    · rw [memLog', write]
      rfl

private theorem step_tags :
    (s.step y).tags =
      { ifId := if y.miss || s.core.loadUse then s.tags.ifId else s.pending.head?
        idEx := if y.miss then s.tags.idEx else if s.core.loadUse then none else s.tags.ifId
        exMem := if y.miss then s.tags.exMem else s.tags.idEx } :=
  next_tags s.pending.head? rfl

private theorem step_ifId :
    (s.step y).core.ifId =
      if y.miss || s.core.loadUse then s.core.ifId else s.pending.headD endPacket :=
  next_ifId rfl

private theorem step_idEx :
    (s.step y).core.idEx =
      if y.miss then s.core.idEx
      else if s.core.loadUse then clearedIdEx nopControlWord 0x13#7 false 0#32
      else s.core.decoded :=
  next_idEx rfl

private theorem step_order :
    (if y.miss then [] else s.tags.exMem.toList) ++ inFlight (s.step y).tags ++
      (s.step y).pending = inFlight s.tags ++ s.pending := by
  rw [step_pending, step_tags]
  cases y.miss <;> cases s.core.loadUse <;> cases s.pending <;> simp [inFlight]

theorem sysInv_step {start : Machine} {stream : List IfId} (inv : SysInv start stream s) :
    SysInv start stream (s.step y) := by
  obtain ⟨done, order, matched⟩ := inv.order
  refine ⟨?_, ?_, ?_⟩
  · rw [step_pending]
    split_ifs
    · exact inv.supported
    · exact fun p hp => inv.supported p (List.mem_of_mem_tail hp)
  · exact dataInv_next rfl (fun _ _ _ => offers_pending inv.supported) inv.data
  · refine ⟨done ++ if y.miss then [] else s.tags.exMem.toList, ?_, ?_⟩
    · rw [order, List.append_assoc, ← step_order (y := y)]
      simp only [List.append_assoc]
    · rw [List.foldl_append]
      cases miss : y.miss with
      | true => exact matches_frozen inv.data matched miss
      | false => exact matches_moved inv.data matched miss

/-- A bound on the cycles without a miss that are needed until everything is written. -/
def remaining (s : System) : Nat :=
  if s.pending ≠ [] then 2 * s.pending.length + 4 + s.core.loadUse.toNat
  else if s.tags.ifId.isSome then 4 + s.core.loadUse.toNat
  else if s.tags.idEx.isSome then 3
  else if s.tags.exMem.isSome then 2
  else if (regWriteOf s.core.memWb).isSome then 1
  else 0

private theorem remaining_frozen (miss : y.miss = true) : remaining (s.step y) = remaining s := by
  have ifId' : (s.step y).core.ifId = s.core.ifId := by rw [step_ifId, miss]; rfl
  have idEx' : (s.step y).core.idEx = s.core.idEx := by rw [step_idEx, miss]; rfl
  have memWb' : (s.step y).core.memWb = s.core.memWb := (next_memWb rfl).trans (if_pos miss)
  simp only [remaining, step_pending, step_tags, miss, Bool.true_or, if_true, Core.loadUse, idEx',
    ifId', memWb']

private theorem remaining_moved (inv : DataInv s.core s.tags) (moved : y.miss = false) :
    remaining (s.step y) ≤ remaining s - 1 := by
  have moved' : (s.coreIn y).frozen = false := moved
  have bubble : s.core.loadUse = true → (s.step y).core.loadUse = false := by
    intro loadUse
    rw [Core.loadUse, step_idEx, moved, loadUse]
    rfl
  have drained : s.tags.exMem = none → regWriteOf (s.step y).core.memWb = none := by
    intro ho
    have exMem := ho ▸ inv.exMem
    cases exMem with
    | bubble idle =>
      have memWb' : (s.step y).core.memWb = memStage s.core.exMem (s.coreIn y).dCacheRdata :=
        (next_memWb rfl).trans (if_neg (by simp [moved']))
      rw [memWb']
      simp [regWriteOf, memStage, idle.regDest]
  have bit (b : Bool) : b.toNat ≤ 1 := Bool.toNat_le b
  have bit' := bit (s.step y).core.loadUse
  rw [remaining, remaining, step_pending, step_tags, moved]
  cases hp : s.pending with
  | cons p ps =>
    cases hl : s.core.loadUse with
    | true => simp [bubble hl]
    | false =>
      cases ps with
      | nil => simp; omega
      | cons _ _ => simp; omega
  | nil =>
    cases h1 : s.tags.ifId with
    | some p =>
      cases hl : s.core.loadUse with
      | true => simp [bubble hl]
      | false => simp
    | none =>
      cases h2 : s.tags.idEx with
      | some p => cases hl : s.core.loadUse <;> simp
      | none =>
        cases h3 : s.tags.exMem with
        | some p => cases hl : s.core.loadUse <;> simp <;> split <;> omega
        | none => cases hl : s.core.loadUse <;> simp [drained h3]

end Step

/-- Every run keeps the invariant, and each cycle without a miss makes progress. -/
private theorem run_invariant {start : Machine} {stream : List IfId} {s : System}
    (inv : SysInv start stream s) (cycles : List Cycle) :
    SysInv start stream (run System.step s cycles) ∧
    remaining (run System.step s cycles) ≤ remaining s - cycles.countP (fun y => !y.miss) := by
  induction cycles generalizing s with
  | nil => exact ⟨inv, Nat.le_refl _⟩
  | cons y ys ih =>
    obtain ⟨kept, bound⟩ := ih (sysInv_step (y := y) inv)
    refine ⟨kept, Nat.le_trans bound ?_⟩
    cases miss : y.miss with
    | true =>
      rw [remaining_frozen miss]
      simp [miss]
    | false =>
      have progress := remaining_moved inv.data miss
      simp only [List.countP_cons, miss, Bool.not_false, if_true]
      omega

def System.start (core : Core) (mem : Mem) (stream : List IfId) : System where
  core := core
  tags := .empty
  pending := stream
  mem := mem
  regLog := []
  memLog := []

private theorem dataInv_emptyCore (regs : Regs) (heldCtrl : Rv32iControlWord) (heldBrEn : Bool)
    (heldChecker : Checker) (heldByteEnable : BitVec 4) :
    DataInv (emptyCore regs heldCtrl heldBrEn heldChecker heldByteEnable) .empty where
  memWbWrites zero := absurd rfl zero
  ifId := .bubble rfl
  idEx := .bubble ⟨rfl, rfl, rfl, rfl, rfl⟩
  exMem := .bubble ⟨rfl, rfl, rfl, rfl, rfl⟩

theorem sysInv_start (regs : Regs) (mem : Mem) (heldCtrl : Rv32iControlWord) (heldBrEn : Bool)
    (heldChecker : Checker) (heldByteEnable : BitVec 4) {stream : List IfId}
    (supported : ∀ p ∈ stream, Supported p.instrMemRdata) :
    let core := emptyCore regs heldCtrl heldBrEn heldChecker heldByteEnable
    SysInv (.start core mem) stream (.start core mem stream) := by
  intro core
  refine ⟨supported, dataInv_emptyCore _ _ _ _ _, [], rfl, ?_⟩
  exact ⟨rfl, rfl, rfl, rfl⟩

private theorem step_logs (r : Machine) (p : IfId) :
    r.regLog <+: (r.step p).regLog ∧ r.memLog <+: (r.step p).memLog :=
  ⟨List.prefix_append _ _, List.prefix_append _ _⟩

private theorem foldl_logs (r : Machine) (ps : List IfId) :
    r.regLog <+: (ps.foldl Machine.step r).regLog ∧
    r.memLog <+: (ps.foldl Machine.step r).memLog := by
  induction ps generalizing r with
  | nil => exact ⟨List.prefix_refl _, List.prefix_refl _⟩
  | cons p ps ih =>
    exact ⟨(step_logs r p).1.trans (ih (r.step p)).1, (step_logs r p).2.trans (ih (r.step p)).2⟩

private theorem logs_within {start : Machine} {stream : List IfId} {s : System}
    (inv : SysInv start stream s) :
    s.regLog <+: (stream.foldl Machine.step start).regLog ∧
    s.memLog <+: (stream.foldl Machine.step start).memLog := by
  obtain ⟨done, order, matched⟩ := inv.order
  rw [order, List.append_assoc, List.foldl_append]
  have rest := foldl_logs (done.foldl Machine.step start) (inFlight s.tags ++ s.pending)
  refine ⟨List.IsPrefix.trans ?_ rest.1, matched.memLog ▸ rest.2⟩
  rw [← matched.regLog]
  exact List.prefix_append _ _

private theorem drained_eq {start : Machine} {stream : List IfId} {s : System}
    (inv : SysInv start stream s) (drained : remaining s = 0) :
    let r := stream.foldl Machine.step start
    s.regLog = r.regLog ∧ s.memLog = r.memLog ∧ s.core.regs = r.regs ∧ s.mem = r.mem := by
  obtain ⟨done, order, matched⟩ := inv.order
  have empty : s.pending = [] ∧ s.tags.ifId = none ∧ s.tags.idEx = none ∧ s.tags.exMem = none ∧
      regWriteOf s.core.memWb = none := by
    rw [remaining] at drained
    split_ifs at drained with h1 h2 h3 h4 h5
    · omega
    · omega
    · simp_all
  obtain ⟨pending, ifId, idEx, exMem, memWb⟩ := empty
  have finished : stream = done := by simpa [inFlight, pending, ifId, idEx, exMem] using order
  have noWrite : memWrite s.core = none := by
    have idle := exMem ▸ inv.data.exMem
    cases idle with
    | bubble idle => simp [memWrite, idle.writeMem]
  have regs := matched.regs
  have mem := matched.mem
  have regLog := matched.regLog
  rw [settled, memWb] at regs
  rw [noWrite] at mem
  rw [memWb] at regLog
  rw [finished]
  exact ⟨by simpa using regLog, matched.memLog, regs, mem⟩

/-- For every stream of supported words and every pattern of misses the pipeline
writes what the unpipelined reference writes, in its order; once enough cycles without
a miss have passed, all of it is written and registers and memory are equal. -/
theorem pipeline_eq_unpipelined (regs : Regs) (mem : Mem) (heldCtrl : Rv32iControlWord)
    (heldBrEn : Bool) (heldChecker : Checker) (heldByteEnable : BitVec 4) (stream : List IfId)
    (supported : ∀ p ∈ stream, Supported p.instrMemRdata) (cycles : List Cycle) :
    let core := emptyCore regs heldCtrl heldBrEn heldChecker heldByteEnable
    let s := run System.step (.start core mem stream) cycles
    let r := stream.foldl Machine.step (.start core mem)
    (s.regLog <+: r.regLog ∧ s.memLog <+: r.memLog) ∧
    (2 * stream.length + 4 ≤ cycles.countP (fun y => !y.miss) →
      s.regLog = r.regLog ∧ s.memLog = r.memLog ∧ s.core.regs = r.regs ∧ s.mem = r.mem) := by
  intro core s r
  have start := sysInv_start regs mem heldCtrl heldBrEn heldChecker heldByteEnable supported
  obtain ⟨inv, bound⟩ := run_invariant start cycles
  refine ⟨logs_within inv, fun enough => drained_eq inv ?_⟩
  have initial : remaining (.start core mem stream) ≤ 2 * stream.length + 4 := by
    have noLoad : core.loadUse = false := rfl
    have noWrite : regWriteOf core.memWb = none := rfl
    cases stream <;> simp [remaining, System.start, noLoad, noWrite, Tags.empty]
  exact Nat.le_zero.mp (Nat.le_trans bound
    (Nat.le_of_eq (Nat.sub_eq_zero_of_le (Nat.le_trans initial enough))))

/-- `lw x1, 0(x0)`, `add x2, x1, x1`, `sw x2, 4(x0)` over a memory of sevens: the load-use
bubble and two bypasses leave 14 in the store. -/
theorem pipeline_eq_unpipelined_loadUse :
    let core := emptyCore (fun _ => 0#32) zeroControlWord false ⟨false, false, false⟩ 0#4
    let stream : List IfId := [⟨0x60#32, 0x00002083#32, false, 0#32⟩,
      ⟨0x64#32, 0x00108133#32, false, 0#32⟩, ⟨0x68#32, 0x00202223#32, false, 0#32⟩]
    let s := run System.step (.start core (fun _ => 7#32) stream)
      (List.replicate 10 ⟨false, false, 0#32⟩)
    s.regLog = [(1#5, 7#32), (2#5, 14#32)] ∧ s.memLog = [⟨4#32, 0xf#4, 14#32⟩] := by
  intro core stream s
  have result := pipeline_eq_unpipelined (fun _ => 0#32) (fun _ => 7#32) zeroControlWord false
    ⟨false, false, false⟩ 0#4 stream (by decide) (List.replicate 10 ⟨false, false, 0#32⟩)
  obtain ⟨regLog, memLog, -⟩ := result.2 (by decide)
  exact ⟨regLog.trans (by decide), memLog.trans (by decide)⟩

end Mp4.Cpu.HazardTransparency
