import Mp4.Memory.LineWords
import Mp4.Memory.TimedHierarchy

/-!
The testbench's `shadow_memory`. It counts an error exactly where an answered read does not
return the bytes that were written last, whatever is connected to the two ports; connected to
the hierarchy it counts no error of the data port, and none for a fetch of a line that is never
written.
-/

set_option autoImplicit false
set_option relaxedAutoImplicit false

namespace Mp4.Memory.ShadowMemory

open Mp4.Lib.Bits Mp4.Lib.ByteMemory Mp4.Lib.Clocked Mp4.Memory.Address Mp4.Memory.LineWords
open Mp4.Memory.CachelineAdaptor Mp4.Memory.ParamMemory Mp4.Memory.FourWay.Cache
open Mp4.Memory.FourWay.Refinement

structure Sampled where
  readA : Bool
  addressA : Word
  rdataA : Word
  respA : Bool
  readB : Bool
  write : Bool
  addressB : Word
  rdataB : Word
  wdata : Word
  respB : Bool
  mbe : BitVec 4

/-- `_mem`, `_imem` and `errcount`, an `int`. -/
structure Shadow where
  mem : LineAddr → Line
  imem : LineAddr → Line
  errcount : BitVec 32

namespace Shadow

/-- `_new` reads one file into both memories. -/
def new (image : LineAddr → Line) : Shadow := ⟨image, image, 0#32⟩

variable (m : Shadow) (i : Sampled)

def readInst (addr : Word) : Word := readWord (m.imem (lineAddr addr)) addr

def read (addr : Word) : Word := readWord (m.mem (lineAddr addr)) addr

def write (addr wdata : Word) (byteEnable : BitVec 4) : LineAddr → Line :=
  Function.update m.mem (lineAddr addr) (writeWord (m.mem (lineAddr addr)) addr wdata byteEnable)

/-- A mismatch in the process `instruction`. -/
def instructionError : Bool :=
  (i.readA && i.respA) && (m.readInst i.addressA != i.rdataA)

/-- A mismatch in the process `data`, where a read comes before a write. -/
def dataError : Bool :=
  ((i.readB || i.write) && i.respB) && (i.readB && (m.read i.addressB != i.rdataB))

/-- Both processes at one clock edge. -/
def next (i : Sampled) (m : Shadow) : Shadow where
  mem :=
    if (i.readB || i.write) && i.respB then
      if i.readB then m.mem else m.write i.addressB i.wdata i.mbe
    else m.mem
  imem := m.imem
  errcount :=
    m.errcount + (if m.instructionError i then 1#32 else 0#32) +
      (if m.dataError i then 1#32 else 0#32)

end Shadow

def stored (i : Sampled) (mem : Bytes 30) : Bytes 30 := fun b =>
  if i.respB = true ∧ i.readB = false ∧ i.write = true ∧
      (wordAddress b : BitVec 30) = wordAddress i.addressB ∧ i.mbe.getLsbD (b.toNat % 4) = true then
    slice 8 i.wdata (b.toNat % 4)
  else mem b

/-- Answered fetches return the bytes of the image, and answered reads those written last. -/
structure Legal (image : Bytes 30) (i : Sampled) (mem : Bytes 30) : Prop where
  fetch : i.readA = true → i.respA = true →
    i.rdataA = loadBytes image ((wordAddress i.addressA : BitVec 30) ++ 0#2) 4
  read : i.readB = true → i.respB = true →
    i.rdataB = loadBytes mem ((wordAddress i.addressB : BitVec 30) ++ 0#2) 4

section Check

variable {image mem : Bytes 30} {lines : LineAddr → Line} {m : Shadow} {i : Sampled}

structure Mirrors (image mem : Bytes 30) (m : Shadow) : Prop where
  imem : words m.imem = wordsOf image
  mem : words m.mem = wordsOf mem

private theorem wordsOf_stored (answered : i.respB = true) (noRead : i.readB = false)
    (write : i.write = true) :
    wordsOf (stored i mem) = Function.update (wordsOf mem) (wordAddress i.addressB)
      (mergeBytes i.mbe i.wdata (wordsOf mem (wordAddress i.addressB))) := by
  funext a
  apply eq_of_slices (w := 8) (n := 4) rfl
  apply List.map_congr_left
  intro k inside
  have below : k < 4 := List.mem_range.mp inside
  rw [wordsOf, slice_loadBytes below, stored, wordAddress_byte a below, lane_byte a below]
  simp only [answered, noRead, write, true_and]
  by_cases here : a = wordAddress i.addressB
  · subst here
    rw [Function.update_self, slice_mergeBytes _ _ _ (by omega), wordsOf, slice_loadBytes below]
    simp only [true_and]
  · rw [Function.update_of_ne here, if_neg fun both => here both.1, wordsOf,
      slice_loadBytes below]

private theorem stored_keeps (other : ¬(i.respB = true ∧ i.readB = false ∧ i.write = true)) :
    stored i mem = mem := by
  funext b
  apply if_neg
  rintro ⟨answered, noRead, write, -⟩
  exact other ⟨answered, noRead, write⟩

private theorem Mirrors.next (mirrors : Mirrors image mem m) (i : Sampled) :
    Mirrors image (stored i mem) (m.next i) := by
  refine ⟨mirrors.imem, ?_⟩
  by_cases writes : i.respB = true ∧ i.readB = false ∧ i.write = true
  · obtain ⟨answered, noRead, write⟩ := writes
    have same : (m.next i).mem = m.write i.addressB i.wdata i.mbe := by
      simp [Shadow.next, answered, noRead, write]
    rw [same, Shadow.write, words_update, wordsOf_stored answered noRead write, mirrors.mem]
  · have same : (m.next i).mem = m.mem := by
      unfold Shadow.next
      cases readB : i.readB <;> cases write : i.write <;> cases respB : i.respB <;>
        simp_all
    rw [same, stored_keeps writes, mirrors.mem]

private theorem Mirrors.readInst (mirrors : Mirrors image mem m) (addr : Word) :
    m.readInst addr = loadBytes image ((wordAddress addr : BitVec 30) ++ 0#2) 4 := by
  rw [Shadow.readInst, readWord_words, mirrors.imem]
  rfl

private theorem Mirrors.read (mirrors : Mirrors image mem m) (addr : Word) :
    m.read addr = loadBytes mem ((wordAddress addr : BitVec 30) ++ 0#2) 4 := by
  rw [Shadow.read, readWord_words, mirrors.mem]
  rfl

private theorem Mirrors.legal_iff (mirrors : Mirrors image mem m) (i : Sampled) :
    Legal image i mem ↔ m.instructionError i = false ∧ m.dataError i = false := by
  rw [Shadow.instructionError, Shadow.dataError, mirrors.readInst, mirrors.read]
  constructor
  · intro legal
    constructor
    · by_contra reported
      simp only [Bool.not_eq_false, Bool.and_eq_true, bne_iff_ne] at reported
      obtain ⟨⟨fetched, answered⟩, differs⟩ := reported
      exact differs (legal.fetch fetched answered).symm
    · by_contra reported
      simp only [Bool.not_eq_false, Bool.and_eq_true, bne_iff_ne] at reported
      obtain ⟨⟨-, answered⟩, asked, differs⟩ := reported
      exact differs (legal.read asked answered).symm
  · rintro ⟨noInstruction, noData⟩
    constructor
    · intro fetched answered
      rw [fetched, answered, Bool.and_self, Bool.true_and, bne_eq_false_iff_eq] at noInstruction
      exact noInstruction.symm
    · intro asked answered
      rw [asked, answered, Bool.true_or, Bool.and_self, Bool.true_and, Bool.true_and,
        bne_eq_false_iff_eq] at noData
      exact noData.symm

private theorem errcount_next (none : m.errcount = 0#32) (i : Sampled) :
    (m.next i).errcount = 0#32 ↔ m.instructionError i = false ∧ m.dataError i = false := by
  show m.errcount + _ + _ = 0#32 ↔ _
  rw [none]
  cases m.instructionError i <;> cases m.dataError i <;> decide

private theorem mirrors_new (lines : LineAddr → Line) :
    Mirrors (bytesOf (words lines)) (bytesOf (words lines)) (.new lines) :=
  ⟨(wordsOf_bytesOf _).symm, (wordsOf_bytesOf _).symm⟩

private theorem passes_from (mirrors : Mirrors image mem m) (none : m.errcount = 0#32)
    (is : List Sampled) :
    Throughout Shadow.next (fun m => m.errcount = 0#32) m is ↔
      Along stored (Legal image) mem is := by
  induction is generalizing m mem with
  | nil => exact ⟨fun _ => trivial, fun _ => none⟩
  | cons i is ih =>
    constructor
    · rintro ⟨-, rest⟩
      have none' := throughout_start rest
      have quiet := (errcount_next none i).mp none'
      exact ⟨(mirrors.legal_iff i).mpr quiet, (ih (mirrors.next i) none').mp rest⟩
    · rintro ⟨legal, rest⟩
      have none' := (errcount_next none i).mpr ((mirrors.legal_iff i).mp legal)
      exact ⟨none, (ih (mirrors.next i) none').mpr rest⟩

end Check

/-- For every image and every sequence of samples, whatever produces them: the shadow memory
counts no error exactly if every answered fetch returns the bytes of the image and every
answered read the bytes that were written last. -/
theorem passes_iff (image : LineAddr → Line) (is : List Sampled) :
    Throughout Shadow.next (fun m => m.errcount = 0#32) (.new image) is ↔
      Along stored (Legal (bytesOf (words image))) (bytesOf (words image)) is :=
  passes_from (mirrors_new image) rfl is

structure Observed where
  below : TimedHierarchy.System
  shadow : Shadow

namespace Observed

variable (p : Params) (s : Observed) (i : TimedHierarchy.Ports)

def sampled : Sampled where
  readA := i.iRequest.read
  addressA := i.iRequest.address
  rdataA := s.below.hierarchy.iMemRdata (s.below.cycle i)
  respA := s.below.iMemResp i
  readB := i.dRequest.read
  write := i.dRequest.write
  addressB := i.dRequest.address
  rdataB := s.below.hierarchy.dMemRdata (s.below.cycle i)
  wdata := i.dRequest.wdata
  respB := s.below.dMemResp i
  mbe := i.dRequest.byteEnable

def step (i : TimedHierarchy.Ports) (s : Observed) : Observed where
  below := s.below.step p i
  shadow := s.shadow.next (s.sampled i)

def start (iData dData : Fin 4 → BitVec 3 → Line) (adaptor : Adaptor) (image : LineAddr → Line)
    (rdata : BitVec 64) : Observed :=
  ⟨.start iData dData adaptor image rdata, .new image⟩

end Observed

/-- No error of the data port, and none for a fetch of a line of `Q`. -/
structure Passes (Q : LineAddr → Prop) (i : TimedHierarchy.Ports) (s : Observed) : Prop where
  data : s.shadow.dataError (s.sampled i) = false
  instruction : Q (lineAddr i.iRequest.address) → s.shadow.instructionError (s.sampled i) = false

/-- The shadow is the flat memory of the hierarchy. -/
structure Inv (p : Params) (Q : LineAddr → Prop) (init : LineAddr → Line) (s : Observed) :
    Prop where
  below : TimedHierarchy.Inv p Q init s.below
  mem : s.shadow.mem = s.below.hierarchy.flat
  imem : s.shadow.imem = init

section Hierarchy

variable {p : Params} {Q : LineAddr → Prop} {init : LineAddr → Line} {i : TimedHierarchy.Ports}
  {s : Observed}

theorem Inv.passes (inv : Inv p Q init s) (admitted : TimedHierarchy.Admitted Q i s.below) :
    Passes Q i s := by
  obtain ⟨-, coherent⟩ := TimedHierarchy.inv_coherent i s.below inv.below admitted
  constructor
  · rw [Shadow.dataError, Shadow.read, inv.mem]
    cases readB : (s.sampled i).readB with
    | false => simp
    | true =>
      cases respB : (s.sampled i).respB with
      | false => simp
      | true =>
        have same : (s.sampled i).rdataB =
            readWord (s.below.hierarchy.flat (lineAddr (s.sampled i).addressB))
              (s.sampled i).addressB := coherent.data respB readB
        rw [same]
        simp
  · intro inQ
    rw [Shadow.instructionError, Shadow.readInst, inv.imem]
    cases readA : (s.sampled i).readA with
    | false => simp
    | true =>
      cases respA : (s.sampled i).respA with
      | false => simp
      | true =>
        have same : (s.sampled i).rdataA =
            readWord (init (lineAddr (s.sampled i).addressA)) (s.sampled i).addressA :=
          coherent.instruction respA readA inQ
        rw [same]
        simp

private theorem uncounted {is : List TimedHierarchy.Ports} (none : s.shadow.errcount = 0#32)
    (inQ : ∀ i ∈ is, Q (lineAddr i.iRequest.address))
    (checked : Along (Observed.step p) (Passes Q) s is) :
    (run (Observed.step p) s is).shadow.errcount = 0#32 := by
  induction is generalizing s with
  | nil => exact none
  | cons i is ih =>
    have quiet := checked.1.instruction (inQ i List.mem_cons_self)
    have none' : (s.step p i).shadow.errcount = 0#32 :=
      (errcount_next none (s.sampled i)).mpr ⟨quiet, checked.1.data⟩
    exact ih none' (fun j mem => inQ j (List.mem_cons_of_mem i mem)) checked.2

theorem inv_step (i : TimedHierarchy.Ports) (s : Observed) (inv : Inv p Q init s)
    (admitted : TimedHierarchy.Admitted Q i s.below) : Inv p Q init (s.step p i) := by
  refine ⟨TimedHierarchy.inv_step i s.below inv.below admitted, ?_, inv.imem⟩
  change (s.shadow.next (s.sampled i)).mem = flatNext (s.below.dMemResp i) i.dRequest _
  rw [Shadow.next, flatNext, Shadow.write, inv.mem]
  have oneKind := admitted.oneKind
  cases read : i.dRequest.read <;> cases write : i.dRequest.write <;>
    cases resp : s.below.dMemResp i <;> simp_all [Observed.sampled]

end Hierarchy

/-- The hierarchy under the testbench's self-check, from reset, for every initial memory, all
delays, all held request streams and every interleaving: the shadow memory finds no error at the
data port and none in a fetch of a line that is never written, and it ends with the flat memory
and, where only such lines are fetched, without an error counted. -/
theorem hierarchy_passes (p : Params) (Q : LineAddr → Prop)
    (iData dData : Fin 4 → BitVec 3 → Line) (adaptor : Adaptor) (init : LineAddr → Line)
    (rdata : BitVec 64) (is : List TimedHierarchy.Ports)
    (admitted : Along (Observed.step p) (fun i s => TimedHierarchy.Admitted Q i s.below)
      (.start iData dData adaptor init rdata) is) :
    let s := run (Observed.step p) (.start iData dData adaptor init rdata) is
    Along (Observed.step p) (Passes Q) (.start iData dData adaptor init rdata) is ∧
      s.shadow.mem = s.below.hierarchy.flat ∧
      ((∀ i ∈ is, Q (lineAddr i.iRequest.address)) → s.shadow.errcount = 0#32) := by
  intro s
  have start : Inv p Q init (.start iData dData adaptor init rdata) :=
    ⟨TimedHierarchy.inv_start iData dData adaptor rdata, rfl, rfl⟩
  have passes (i : TimedHierarchy.Ports) (s : Observed) (inv : Inv p Q init s)
      (admitted : TimedHierarchy.Admitted Q i s.below) : Passes Q i s := inv.passes admitted
  have checked := along_invariant inv_step passes start admitted
  refine ⟨checked, (run_invariant inv_step start admitted).mem, ?_⟩
  intro inQ
  exact uncounted rfl inQ checked

theorem hierarchy_passes_together :
    let p : Params := ⟨0, 0⟩
    let adaptor : Adaptor := ⟨.reset, 3#256, 2, 9#32⟩
    (run (Observed.step p) (.start (fun _ _ => 1#256) (fun _ _ => 2#256) adaptor
      (fun _ => 7#256) 0#64) TimedHierarchy.together).shadow.errcount = 0#32 := by
  intro p adaptor
  have result := hierarchy_passes p (· = 3#27) (fun _ _ => 1#256) (fun _ _ => 2#256) adaptor
    (fun _ => 7#256) 0#64 TimedHierarchy.together (by decide +kernel)
  exact result.2.2 (by decide)

end Mp4.Memory.ShadowMemory
