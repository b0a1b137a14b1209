import Mp4.Memory.BurstMemory

/-!
`ParamMemory`, the burst memory behind the adaptor, as `source_tb` instantiates it: lines of
256 bits in four beats of 64 bits, pages of 512 bytes, and two delays. A step is one event of
the clocking block, which samples the wires before the edge and drives its own after it.
-/

set_option autoImplicit false
set_option relaxedAutoImplicit false

namespace Mp4.Memory.ParamMemory

open Mp4.Lib.Bits Mp4.Memory.Address Mp4.Memory.CachelineAdaptor Mp4.Memory.BurstMemory

inductive Task
  | memread
  | memwrite
  deriving DecidableEq, Repr

/-- Where the process stands: before a task, in its `repeat (delay)` with the events left, or
in its loop over the beats. -/
inductive Phase
  | idle
  | waits (task : Task) (addr : Word) (left : Nat)
  | bursts (task : Task) (addr : Word) (i : Fin 4)
  deriving DecidableEq, Repr

/-- `DELAY_MEM` and `DELAY_PAGE_HIT`. -/
structure Params where
  delayMem : Nat
  delayPageHit : Nat

/-- `_pageno`. -/
def pageOf (addr : Word) : Int := addr.toNat / 512

/-- `delay`. -/
def Params.delay (p : Params) (pageno : Int) (addr : Word) : Nat :=
  if pageOf addr = pageno then p.delayPageHit else p.delayMem

structure Inputs where
  read : Bool
  write : Bool
  addr : Word
  wdata : BitVec 64

structure Mem where
  mem : LineAddr → Line
  pageno : Int
  phase : Phase
  rdata : BitVec 64
  resp : Bool
  error : Bool

namespace Mem

def reset (image : LineAddr → Line) (rdata : BitVec 64) : Mem where
  mem := image
  pageno := -1
  phase := .idle
  rdata := rdata
  resp := false
  error := false

variable (p : Params) (m : Mem) (task : Task) (addr : Word)

/-- The head of the loop over the beats. -/
def drive (i : Fin 4) : Mem :=
  { m with
    phase := .bursts task addr i
    rdata :=
      match task with
      | .memread => slice 64 (m.mem (lineAddr addr)) i.val
      | .memwrite => m.rdata
    resp := true }

/-- A task up to its first event. -/
def call : Mem :=
  let m' : Mem := { m with pageno := pageOf addr }
  match p.delay m.pageno addr with
  | 0 => m'.drive task addr 0
  | left + 1 => { m' with phase := .waits task addr left }

/-- The assertions of `error_check`. -/
def steady (i : Inputs) : Bool :=
  match task with
  | .memread => i.read && !i.write && i.addr == addr
  | .memwrite => i.write && !i.read && i.addr == addr

/-- The task is disabled, and the wires stay. -/
def fail : Mem := { m with phase := .idle, error := true }

/-- The rest of the loop's body, at the event that ends a beat. -/
def take (i : Fin 4) (wdata : BitVec 64) : Mem :=
  match task with
  | .memread => m
  | .memwrite =>
      { m with
        mem := Function.update m.mem (lineAddr addr)
          (setSlice (m.mem (lineAddr addr)) i.val wdata) }

def next (i : Inputs) (m : Mem) : Mem :=
  match m.phase with
  | .idle =>
      match i.read, i.write with
      | true, false => m.call p .memread i.addr
      | false, true => m.call p .memwrite i.addr
      | _, _ => m
  | .waits task addr left =>
      if steady task addr i then
        match left with
        | 0 => m.drive task addr 0
        | left + 1 => { m with phase := .waits task addr left }
      else m.fail
  | .bursts task addr k =>
      if steady task addr i then
        let m' := m.take task addr k i.wdata
        if k = 3 then { m' with phase := .idle, resp := false }
        else m'.drive task addr (k + 1)
      else m.fail

end Mem

def wires (a : Adaptor) (i : CachelineAdaptor.Inputs) : Inputs :=
  ⟨readO a.state, writeO a.state, a.addressO, a.burstO i⟩

def transfer : Task → Fin 4 → State
  | .memread, k => .r k
  | .memwrite, k => .w k

inductive Stage (b : Burst) (m : Mem) : Prop
  | quiet (state : b.adaptor.state = .reset ∨ b.adaptor.state = .finished) (count : b.count = 0)
      (phase : m.phase = .idle) (resp : m.resp = false)
  | asked (task : Task) (state : b.adaptor.state = transfer task 0) (count : b.count = 0)
      (phase : m.phase = .idle) (resp : m.resp = false)
  | waits (task : Task) (left : Nat) (state : b.adaptor.state = transfer task 0)
      (count : b.count = 0) (phase : m.phase = .waits task b.adaptor.addressO left)
      (resp : m.resp = false)
  | bursts (task : Task) (k : Fin 4) (state : b.adaptor.state = transfer task k)
      (count : b.count = k) (phase : m.phase = .bursts task b.adaptor.addressO k)
      (resp : m.resp = true)
      (shown : task = .memread → m.rdata = slice 64 (m.mem (lineAddr b.adaptor.addressO)) k.val)

/-- The process serves the adaptor, and its lines are the stored ones. -/
structure Tracks (b : Burst) (m : Mem) : Prop where
  stage : Stage b m
  store : b.store = m.mem
  error : m.error = false
  page : m.phase ≠ .idle ∨ b.adaptor.state = .finished → m.pageno = pageOf b.adaptor.addressO

section Next

variable {p : Params} {b : Burst} {m : Mem} {i : CachelineAdaptor.Inputs}
  {task : Task} {addr : Word}

private theorem steady_transfer {k : Fin 4} (state : b.adaptor.state = transfer task k) :
    Mem.steady task b.adaptor.addressO (wires b.adaptor i) = true := by
  cases task <;> simp [Mem.steady, wires, state, transfer, readO, writeO]

private theorem burst_waits {k : Fin 4} (state : b.adaptor.state = transfer task k)
    (resp : i.respI = false) :
    (b.next i).adaptor.state = transfer task k ∧
      (b.next i).adaptor.addressO = b.adaptor.addressO ∧
      (b.next i).count = b.count ∧ (b.next i).store = b.store := by
  cases task <;>
    simp [Burst.next, Burst.beat, Adaptor.next, state, transfer, nextState, out, resp]

private theorem burst_takes {k : Fin 4} (state : b.adaptor.state = transfer task k)
    (resp : i.respI = true) :
    (b.next i).adaptor.state = (if k = 3 then .finished else transfer task (k + 1)) ∧
      (b.next i).adaptor.addressO = b.adaptor.addressO ∧ (b.next i).count = b.count + 1 := by
  cases task <;>
    simp [Burst.next, Burst.beat, Adaptor.next, state, transfer, nextState, out, readO, writeO,
      resp]

private theorem stage_drive {k : Fin 4} (state : b.adaptor.state = transfer task k)
    (count : b.count = k) :
    Stage b (m.drive task b.adaptor.addressO k) := by
  refine .bursts task k state count rfl rfl ?_
  rintro rfl
  rfl

private theorem stage_call (state : b.adaptor.state = transfer task 0) (count : b.count = 0)
    (resp : m.resp = false) : Stage b (m.call p task b.adaptor.addressO) := by
  unfold Mem.call
  cases p.delay m.pageno b.adaptor.addressO with
  | zero => exact stage_drive state count
  | succ left => exact .waits task left state count rfl resp

private theorem next_idle (state : b.adaptor.state = transfer task 0) (phase : m.phase = .idle) :
    m.next p (wires b.adaptor i) = m.call p task b.adaptor.addressO := by
  cases task <;> simp [Mem.next, phase, wires, state, transfer, readO, writeO]

theorem next_quiet (state : b.adaptor.state = .reset ∨ b.adaptor.state = .finished)
    (phase : m.phase = .idle) : m.next p (wires b.adaptor i) = m := by
  rcases state with state | state <;> simp [Mem.next, phase, wires, state, readO, writeO]

private theorem next_waits {left : Nat} (state : b.adaptor.state = transfer task 0)
    (phase : m.phase = .waits task b.adaptor.addressO (left + 1)) :
    m.next p (wires b.adaptor i) = { m with phase := .waits task b.adaptor.addressO left } := by
  simp only [Mem.next, phase, steady_transfer state, if_true]

private theorem next_waited (state : b.adaptor.state = transfer task 0)
    (phase : m.phase = .waits task b.adaptor.addressO 0) :
    m.next p (wires b.adaptor i) = m.drive task b.adaptor.addressO 0 := by
  simp only [Mem.next, phase, steady_transfer state, if_true]

private theorem next_bursts {k : Fin 4} (state : b.adaptor.state = transfer task k)
    (phase : m.phase = .bursts task b.adaptor.addressO k) :
    m.next p (wires b.adaptor i) =
      if k = 3 then
        { m.take task b.adaptor.addressO k (b.adaptor.burstO i) with phase := .idle, resp := false }
      else (m.take task b.adaptor.addressO k (b.adaptor.burstO i)).drive task b.adaptor.addressO
        (k + 1) := by
  simp only [Mem.next, phase, steady_transfer state, if_true]
  rfl

private theorem store_takes {k : Fin 4} (state : b.adaptor.state = transfer task k)
    (count : b.count = k) (store : b.store = m.mem) (resp : i.respI = true) :
    (b.next i).store = (m.take task b.adaptor.addressO k (b.adaptor.burstO i)).mem := by
  cases task <;> simp [Burst.next, Mem.take, state, transfer, writeO, resp, store, count]

private theorem mem_call : (m.call p task b.adaptor.addressO).mem = m.mem := by
  unfold Mem.call
  cases p.delay m.pageno b.adaptor.addressO <;> rfl

private theorem error_call : (m.call p task b.adaptor.addressO).error = m.error := by
  unfold Mem.call
  cases p.delay m.pageno b.adaptor.addressO <;> rfl

private theorem error_take {k : Fin 4} {wdata : BitVec 64} :
    (m.take task b.adaptor.addressO k wdata).error = m.error := by
  cases task <;> rfl

private theorem stage_quiet (state : b.adaptor.state = .reset ∨ b.adaptor.state = .finished)
    (count : b.count = 0) (phase : m.phase = .idle) (resp : m.resp = false) :
    Stage (b.next i) m := by
  have count' : (b.next i).count = 0 := by
    rcases state with state | state <;>
      simp [Burst.next, Burst.beat, state, readO, writeO, count]
  rcases state with state | state
  · cases read : i.readI with
    | true =>
      cases write : i.writeI with
      | true =>
        refine .quiet (.inl ?_) count' phase resp
        simp [Burst.next, Adaptor.next, state, nextState, read, write]
      | false =>
        refine .asked .memread ?_ count' phase resp
        simp [Burst.next, Adaptor.next, state, nextState, read, write, transfer]
    | false =>
      cases write : i.writeI with
      | true =>
        refine .asked .memwrite ?_ count' phase resp
        simp [Burst.next, Adaptor.next, state, nextState, read, write, transfer]
      | false =>
        refine .quiet (.inl ?_) count' phase resp
        simp [Burst.next, Adaptor.next, state, nextState, read, write]
  · refine .quiet (.inl ?_) count' phase resp
    simp [Burst.next, Adaptor.next, state, nextState]

private theorem quiet_unfinished (state : b.adaptor.state = .reset ∨ b.adaptor.state = .finished) :
    (b.next i).adaptor.state ≠ .finished := by
  rcases state with state | state
  · cases read : i.readI <;> cases write : i.writeI <;>
      simp [Burst.next, Adaptor.next, state, nextState, read, write]
  · simp [Burst.next, Adaptor.next, state, nextState]

private theorem pageno_call : (m.call p task addr).pageno = pageOf addr := by
  unfold Mem.call
  cases p.delay m.pageno addr <;> rfl

private theorem pageno_take {k : Fin 4} {wdata : BitVec 64} :
    (m.take task addr k wdata).pageno = m.pageno := by
  cases task <;> rfl

theorem tracks_next (tracks : Tracks b m) (resp : i.respI = m.resp) :
    Tracks (b.next i) (m.next p (wires b.adaptor i)) := by
  obtain ⟨stage, store, error, page⟩ := tracks
  cases stage with
  | quiet state count phase silent =>
    have store' : (b.next i).store = b.store := by
      rcases state with state | state <;> simp [Burst.next, state, writeO]
    rw [next_quiet state phase]
    refine ⟨stage_quiet state count phase silent, store'.trans store, error, ?_⟩
    rintro (busy | finished)
    · exact absurd phase busy
    · exact absurd finished (quiet_unfinished state)
  | asked task state count phase silent =>
    obtain ⟨state', address', count', store'⟩ := burst_waits state (resp.trans silent)
    rw [next_idle state phase, ← address']
    exact ⟨stage_call state' (count'.trans count) silent, (store'.trans store).trans mem_call.symm,
      error_call.trans error, fun _ => pageno_call⟩
  | waits task left state count phase silent =>
    obtain ⟨state', address', count', store'⟩ := burst_waits state (resp.trans silent)
    have page' := page (.inl (by rw [phase]; simp))
    cases left with
    | zero =>
      rw [next_waited state phase, ← address'] at *
      exact ⟨stage_drive state' (count'.trans count), store'.trans store, error, fun _ => page'⟩
    | succ left =>
      rw [next_waits state phase, ← address'] at *
      exact ⟨.waits task left state' (count'.trans count) rfl silent, store'.trans store, error,
        fun _ => page'⟩
  | bursts task k state count phase shows shown =>
    obtain ⟨state', address', count'⟩ := burst_takes state (resp.trans shows)
    have store' := store_takes state count store (resp.trans shows)
    have page' := page (.inl (by rw [phase]; simp))
    rw [next_bursts state phase]
    rw [← address'] at page'
    by_cases last : k = 3
    · rw [if_pos last] at state' ⊢
      refine ⟨.quiet (.inr state') ?_ rfl rfl, store', error_take.trans error, fun _ => ?_⟩
      · rw [count', count, last]
        rfl
      · exact pageno_take.trans page'
    · rw [if_neg last] at state' ⊢
      rw [← address'] at store' ⊢
      exact ⟨stage_drive state' (by rw [count', count]), store', error_take.trans error,
        fun _ => pageno_take.trans page'⟩

/-- The beats are in order. -/
theorem tracks_answers (tracks : Tracks b m) (rdata : i.burstI = m.rdata)
    (resp : i.respI = m.resp) : b.Answers i := by
  intro reads given
  obtain ⟨stage, store, -, -⟩ := tracks
  rw [resp] at given
  cases stage with
  | quiet _ _ _ silent => rw [silent] at given; cases given
  | asked _ _ _ _ silent => rw [silent] at given; cases given
  | waits _ _ _ _ _ silent => rw [silent] at given; cases given
  | bursts task k state count _ _ shown =>
    have memread : task = .memread := by
      cases task with
      | memread => rfl
      | memwrite =>
        rw [state] at reads
        cases reads
    rw [rdata, shown memread, store, count]

theorem tracks_reset (a : Adaptor) (image : LineAddr → Line) (rdata : BitVec 64)
    (state : a.state = .reset) : Tracks ⟨a, image, 0⟩ (.reset image rdata) :=
  ⟨.quiet (.inl state) rfl rfl rfl, rfl, rfl, by
    rintro (busy | finished)
    · exact absurd rfl busy
    · rw [state] at finished
      cases finished⟩

/-- The cycles until the answer, in a transfer. -/
def due (p : Params) (a : Adaptor) (m : Mem) : Nat :=
  match a.state with
  | .reset | .finished => 0
  | .r _ | .w _ =>
      match m.phase with
      | .idle => p.delay m.pageno a.addressO + 5
      | .waits _ _ left => left + 5
      | .bursts _ _ k => 4 - k.val

private theorem due_transfer {k : Fin 4} {a : Adaptor} (state : a.state = transfer task k) :
    due p a m = match m.phase with
      | .idle => p.delay m.pageno a.addressO + 5
      | .waits _ _ left => left + 5
      | .bursts _ _ k => 4 - k.val := by
  cases task <;> simp [due, state, transfer]

private theorem due_call {a : Adaptor} (state : a.state = transfer task 0) :
    due p a (m.call p task addr) = p.delay m.pageno addr + 4 := by
  rw [due_transfer state, Mem.call]
  cases p.delay m.pageno addr with
  | zero => rfl
  | succ left =>
    change left + 5 = left + 1 + 4
    omega

theorem due_pos (tracks : Tracks b m) (state : b.adaptor.state ≠ .reset) :
    due p b.adaptor m = 0 ↔ b.adaptor.state = .finished := by
  constructor
  · intro none
    cases tracks.stage with
    | quiet quiet => exact quiet.resolve_left state
    | asked task state _ phase =>
      rw [due_transfer state, phase] at none
      cases none
    | waits task left state _ phase =>
      rw [due_transfer state, phase] at none
      cases none
    | bursts task k state _ phase =>
      rw [due_transfer state, phase] at none
      have left : 4 - k.val = 0 := none
      omega
  · intro finished
    rw [due, finished]

theorem due_next (tracks : Tracks b m) (resp : i.respI = m.resp)
    (reset : b.adaptor.state ≠ .reset) (finished : b.adaptor.state ≠ .finished) :
    (b.next i).adaptor.state ≠ .reset ∧
      due p (b.next i).adaptor (m.next p (wires b.adaptor i)) + 1 = due p b.adaptor m := by
  have busy : ∀ (task : Task) (k : Fin 4), transfer task k ≠ .reset := by
    intro task k
    cases task <;> simp [transfer]
  cases tracks.stage with
  | quiet state => exact absurd (state.resolve_left reset) finished
  | asked task state _ phase silent =>
    obtain ⟨state', address', -, -⟩ := burst_waits state (resp.trans silent)
    rw [state', next_idle state phase, due_call state', due_transfer state, phase]
    exact ⟨busy task 0, rfl⟩
  | waits task left state _ phase silent =>
    obtain ⟨state', address', -, -⟩ := burst_waits state (resp.trans silent)
    rw [state', due_transfer state, phase]
    refine ⟨busy task 0, ?_⟩
    cases left with
    | zero =>
      rw [next_waited state phase, due_transfer state']
      rfl
    | succ left =>
      rw [next_waits state phase, due_transfer state']
  | bursts task k state _ phase shows =>
    obtain ⟨state', address', -⟩ := burst_takes state (resp.trans shows)
    rw [next_bursts state phase, due_transfer state, phase]
    by_cases last : k = 3
    · rw [if_pos last] at state' ⊢
      rw [due, state', last]
      exact ⟨by simp, rfl⟩
    · rw [if_neg last] at state' ⊢
      have beat : (k + 1).val = k.val + 1 := by omega
      have room := k.isLt
      rw [state', due_transfer state']
      refine ⟨busy task _, ?_⟩
      change 4 - (k + 1).val + 1 = 4 - k.val
      omega

theorem due_opened (state : b.adaptor.state = .reset) (phase : m.phase = .idle)
    (request : (i.readI ^^ i.writeI) = true) :
    (b.next i).adaptor.state ≠ .reset ∧
      due p (b.next i).adaptor (m.next p (wires b.adaptor i)) =
        p.delay m.pageno i.addressI + 5 := by
  have address' : (b.next i).adaptor.addressO = i.addressI := by
    simp [Burst.next, Adaptor.next, state, out]
  have opened : ∃ task, (b.next i).adaptor.state = transfer task 0 := by
    cases read : i.readI with
    | true =>
      have write : i.writeI = false := by simpa [read] using request
      refine ⟨.memread, ?_⟩
      simp [Burst.next, Adaptor.next, state, nextState, read, write, transfer]
    | false =>
      have write : i.writeI = true := by simpa [read] using request
      refine ⟨.memwrite, ?_⟩
      simp [Burst.next, Adaptor.next, state, nextState, read, write, transfer]
  obtain ⟨task, state'⟩ := opened
  rw [next_quiet (.inl state) phase, due_transfer state', phase, state', address']
  exact ⟨by cases task <;> simp [transfer], rfl⟩

end Next

end Mp4.Memory.ParamMemory
