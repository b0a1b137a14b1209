import Mp4.Lib.Clocked
import Mp4.Lib.Handshake
import Mp4.Memory.BurstMemory

/-!
The adaptor as a codec between lines and bursts, over every run with held requests and
any pattern of beats; and, in front of a memory that keeps the beats in order, what is
written is what is read later.
-/

set_option autoImplicit false
set_option relaxedAutoImplicit false

namespace Mp4.Memory.LineCodec

open Mp4.Lib.Bits Mp4.Lib.Clocked Mp4.Lib.Handshake Mp4.Memory.Address Mp4.Memory.LineBus
open Mp4.Memory.CachelineAdaptor Mp4.Memory.BurstMemory

abbrev offer (i : Inputs) : Option Request := Burst.offer i

structure Wires where
  readO : Bool
  writeO : Bool
  addressO : Word
  deriving DecidableEq

/-- The adaptor with a ledger of its upper port and the beats of the transfer under way. -/
structure System where
  adaptor : Adaptor
  port : Port Request Line
  beats : List (BitVec 64)
  /-- The wires in the cycle of the first beat, until the last. -/
  opened : Option Wires

namespace System

variable (s : System) (i : Inputs)

def wires : Wires := ⟨readO s.adaptor.state, writeO s.adaptor.state, s.adaptor.addressO⟩

def isBeat : Bool := (readO s.adaptor.state || writeO s.adaptor.state) && i.respI

def beat : BitVec 64 := if readO s.adaptor.state then i.burstI else s.adaptor.burstO i

def step (i : Inputs) (s : System) : System where
  adaptor := s.adaptor.next i
  port := s.port.next (offer i)
    (if respO s.adaptor.state then some (s.adaptor.lineO i) else none)
  beats :=
    if respO s.adaptor.state then []
    else if s.isBeat i then s.beats ++ [s.beat i] else s.beats
  opened :=
    if s.isBeat i then
      if s.beats.length = 3 then none else some (s.opened.getD s.wires)
    else s.opened

def start (valueRead : Line) (writeMux : Fin 4) (addressO : Word) : System where
  adaptor := .afterReset valueRead writeMux addressO
  port := .idle
  beats := []
  opened := none

end System

def Admitted (i : Inputs) (s : System) : Prop :=
  s.port.Held (offer i) ∧ ¬(i.readI = true ∧ i.writeI = true)

instance (i : Inputs) (s : System) : Decidable (Admitted i s) := by
  unfold Admitted
  infer_instance

/-- What a cycle shows. -/
structure Coded (i : Inputs) (s : System) : Prop where
  notBoth : ¬(readO s.adaptor.state = true ∧ writeO s.adaptor.state = true)
  reads : readO s.adaptor.state = true → offer i = some (.read s.adaptor.addressO)
  writes : writeO s.adaptor.state = true → offer i = some (.write s.adaptor.addressO i.lineI)
  steady : ∀ w ∈ s.opened, s.wires = w
  /-- A read is answered with its four beats, the lowest first. -/
  line : respO s.adaptor.state = true → ∀ a, offer i = some (.read a) →
    ∃ b₀ b₁ b₂ b₃, s.beats = [b₀, b₁, b₂, b₃] ∧ s.adaptor.lineO i = b₃ ++ b₂ ++ b₁ ++ b₀
  /-- A write is answered after its four slices have been driven, the lowest first. -/
  bursts : respO s.adaptor.state = true → ∀ a wdata, offer i = some (.write a wdata) →
    s.beats = [wdata.extractLsb' 0 64, wdata.extractLsb' 64 64, wdata.extractLsb' 128 64,
      wdata.extractLsb' 192 64]

private theorem slices_four (x : Line) : slices 64 x 4 =
    [x.extractLsb' 0 64, x.extractLsb' 64 64, x.extractLsb' 128 64, x.extractLsb' 192 64] := rfl

private theorem line_eq_slices (x : BitVec (64 + 64 + 64 + 64)) :
    x = x.extractLsb' 192 64 ++ x.extractLsb' 128 64 ++ x.extractLsb' 64 64 ++
      x.extractLsb' 0 64 := by
  ext j hj
  simp only [BitVec.getElem_append, BitVec.getElem_extractLsb']
  rw [← BitVec.getLsbD_eq_getElem hj]
  split_ifs with h₀ h₁ h₂
  · rw [Nat.zero_add]
  · rw [show 64 + (j - 64) = j by omega]
  · rw [show 128 + (j - 64 - 64) = j by omega]
  · rw [show 192 + (j - 64 - 64 - 64) = j by omega]

def openedAt (k : Fin 4) (w : Wires) : Option Wires := if k = 0 then none else some w

inductive Phase : System → Prop
  | reset {s : System} (state : s.adaptor.state = .reset) (beats : s.beats = [])
      (opened : s.opened = none) : Phase s
  | reads {s : System} {a : Word} {k : Fin 4} (state : s.adaptor.state = .r k)
      (pending : s.port.pending = some (.read a)) (address : s.adaptor.addressO = a)
      (beats : s.beats = slices 64 s.adaptor.valueRead k.val)
      (opened : s.opened = openedAt k ⟨true, false, a⟩) : Phase s
  | writes {s : System} {a : Word} {wdata : Line} {k : Fin 4} (state : s.adaptor.state = .w k)
      (pending : s.port.pending = some (.write a wdata)) (address : s.adaptor.addressO = a)
      (beats : s.beats = slices 64 wdata k.val)
      (opened : s.opened = openedAt k ⟨false, true, a⟩) : Phase s
  | hasRead {s : System} {a : Word} (state : s.adaptor.state = .finished)
      (pending : s.port.pending = some (.read a))
      (beats : s.beats = slices 64 s.adaptor.valueRead 4) (opened : s.opened = none) : Phase s
  | hasWritten {s : System} {a : Word} {wdata : Line} (state : s.adaptor.state = .finished)
      (pending : s.port.pending = some (.write a wdata)) (beats : s.beats = slices 64 wdata 4)
      (opened : s.opened = none) : Phase s

section Step

variable {s : System} {i : Inputs}

private theorem offer_write {a : Word} {wdata : Line} (offered : offer i = some (.write a wdata)) :
    i.addressI = a ∧ i.lineI = wdata := by
  cases read : i.readI <;> cases write : i.writeI <;>
    simp_all [Burst.offer, request]

private theorem phase_coded (phase : Phase s) (admitted : Admitted i s) : Coded i s := by
  have held : ∀ r, s.port.pending = some r → offer i = some r := admitted.1
  cases phase with
  | reset state beats opened =>
    constructor <;> simp [state, readO, writeO, respO, opened]
  | @reads a k state pending address beats opened =>
    constructor
    · simp [state, writeO]
    · intro _
      rw [held _ pending, address]
    · simp [state, writeO]
    · intro w first
      rw [opened, openedAt] at first
      split_ifs at first
      · cases first
      · rw [System.wires, state, address]
        exact Option.some.inj first
    · simp [state, respO]
    · simp [state, respO]
  | @writes a wdata k state pending address beats opened =>
    constructor
    · simp [state, readO]
    · simp [state, readO]
    · intro _
      rw [held _ pending, address, (offer_write (held _ pending)).2]
    · intro w first
      rw [opened, openedAt] at first
      split_ifs at first
      · cases first
      · rw [System.wires, state, address]
        exact Option.some.inj first
    · simp [state, respO]
    · simp [state, respO]
  | @hasRead a state pending beats opened =>
    constructor
    · simp [state, readO]
    · simp [state, readO]
    · simp [state, writeO]
    · simp [opened]
    · intro _ _ _
      refine ⟨_, _, _, _, beats.trans (slices_four _), ?_⟩
      rw [Adaptor.lineO, state]
      exact line_eq_slices _
    · intro _ a' wdata offered
      rw [held _ pending] at offered
      cases offered
  | @hasWritten a wdata state pending beats opened =>
    constructor
    · simp [state, readO]
    · simp [state, readO]
    · simp [state, writeO]
    · simp [opened]
    · intro _ a' offered
      rw [held _ pending] at offered
      cases offered
    · intro _ a' wdata' offered
      rw [held _ pending] at offered
      obtain ⟨rfl, rfl⟩ := Request.write.inj (Option.some.inj offered)
      rw [beats, slices_four]

private theorem phase_reset (state : s.adaptor.state = .reset) (beats : s.beats = [])
    (opened : s.opened = none) (oneKind : ¬(i.readI = true ∧ i.writeI = true)) :
    Phase (s.step i) := by
  have beats' : (s.step i).beats = [] := by
    simp [System.step, System.isBeat, state, respO, readO, writeO, beats]
  have opened' : (s.step i).opened = none := by
    simp [System.step, System.isBeat, state, readO, writeO, opened]
  have pending' : (s.step i).port.pending = offer i := by
    simp [System.step, Port.next, state, respO]
  have address' : (s.step i).adaptor.addressO = i.addressI := by
    simp [System.step, Adaptor.next, state, out]
  cases read : i.readI with
  | true =>
    have write : i.writeI = false := by simpa [read] using oneKind
    have state' : (s.step i).adaptor.state = .r 0 := by
      simp [System.step, Adaptor.next, state, nextState, read, write]
    refine .reads state' ?_ address' beats' opened'
    simp [pending', Burst.offer, request, read]
  | false =>
    cases write : i.writeI with
    | true =>
      have state' : (s.step i).adaptor.state = .w 0 := by
        simp [System.step, Adaptor.next, state, nextState, read, write]
      have written : (s.step i).port.pending = some (.write i.addressI i.lineI) := by
        simp [pending', Burst.offer, request, read, write]
      exact .writes state' written address' beats' opened'
    | false =>
      have state' : (s.step i).adaptor.state = .reset := by
        simp [System.step, Adaptor.next, state, nextState, read, write]
      exact .reset state' beats' opened'

private theorem opened_beat {k : Fin 4} {w : Wires} (beat : s.isBeat i = true)
    (opened : s.opened = openedAt k w) (wires : s.wires = w) (length : s.beats.length = k.val) :
    (s.step i).opened = if k = 3 then none else openedAt (k + 1) w := by
  have recorded : s.opened.getD s.wires = w := by
    rw [opened, openedAt, wires]
    split_ifs <;> rfl
  by_cases last : k = 3
  · have third : s.beats.length = 3 := by
      rw [length, last]
      rfl
    simp [System.step, beat, third, last]
  · have third : s.beats.length ≠ 3 := by omega
    have notFirst : k + 1 ≠ 0 := by omega
    simp [System.step, beat, third, last, openedAt, notFirst, recorded]

private theorem phase_reads {a : Word} {k : Fin 4} (state : s.adaptor.state = .r k)
    (held : offer i = some (.read a)) (address : s.adaptor.addressO = a)
    (beats : s.beats = slices 64 s.adaptor.valueRead k.val)
    (opened : s.opened = openedAt k ⟨true, false, a⟩) : Phase (s.step i) := by
  have pending' : (s.step i).port.pending = some (.read a) := by
    simp [System.step, Port.next, state, respO, held]
  have address' : (s.step i).adaptor.addressO = a := by
    simp [System.step, Adaptor.next, state, out, address]
  have value' : (s.step i).adaptor.valueRead = setSlice s.adaptor.valueRead k.val i.burstI := by
    simp [System.step, Adaptor.next, Adaptor.lineO, state]
  cases resp : i.respI with
  | false =>
    have state' : (s.step i).adaptor.state = .r k := by
      simp [System.step, Adaptor.next, state, nextState, resp]
    refine .reads state' pending' address' ?_ ?_
    · rw [value', slices_setSlice, ← beats]
      simp [System.step, System.isBeat, state, respO, resp]
    · rw [← opened]
      simp [System.step, System.isBeat, resp]
  | true =>
    have beat : s.isBeat i = true := by simp [System.isBeat, state, readO, resp]
    have beats' : (s.step i).beats = slices 64 (s.step i).adaptor.valueRead (k.val + 1) := by
      rw [value', slices_setSlice_succ _ _ (by omega), ← beats]
      simp [System.step, state, respO, beat, System.beat, readO]
    have wires : s.wires = ⟨true, false, a⟩ := by rw [System.wires, state, address]; rfl
    have opened' := opened_beat beat opened wires (by rw [beats, slices]; simp)
    by_cases last : k = 3
    · have state' : (s.step i).adaptor.state = .finished := by
        simp [System.step, Adaptor.next, state, nextState, resp, last]
      subst last
      exact .hasRead state' pending' beats' opened'
    · have state' : (s.step i).adaptor.state = .r (k + 1) := by
        simp [System.step, Adaptor.next, state, nextState, resp, last]
      have next : (k + 1).val = k.val + 1 := by omega
      rw [if_neg last] at opened'
      exact .reads state' pending' address' (next ▸ beats') opened'

private theorem phase_writes {a : Word} {wdata : Line} {k : Fin 4} (state : s.adaptor.state = .w k)
    (held : offer i = some (.write a wdata)) (address : s.adaptor.addressO = a)
    (beats : s.beats = slices 64 wdata k.val)
    (opened : s.opened = openedAt k ⟨false, true, a⟩) : Phase (s.step i) := by
  have pending' : (s.step i).port.pending = some (.write a wdata) := by
    simp [System.step, Port.next, state, respO, held]
  have address' : (s.step i).adaptor.addressO = a := by
    simp [System.step, Adaptor.next, state, out, address]
  cases resp : i.respI with
  | false =>
    have state' : (s.step i).adaptor.state = .w k := by
      simp [System.step, Adaptor.next, state, nextState, resp]
    refine .writes state' pending' address' ?_ ?_
    · rw [← beats]
      simp [System.step, System.isBeat, state, respO, resp]
    · rw [← opened]
      simp [System.step, System.isBeat, resp]
  | true =>
    have beat : s.isBeat i = true := by simp [System.isBeat, state, writeO, resp]
    have beats' : (s.step i).beats = slices 64 wdata (k.val + 1) := by
      rw [slices_succ, ← beats]
      simp [System.step, state, respO, beat, System.beat, readO, Adaptor.burstO, writeMux,
        (offer_write held).2]
    have wires : s.wires = ⟨false, true, a⟩ := by rw [System.wires, state, address]; rfl
    have opened' := opened_beat beat opened wires (by rw [beats, slices]; simp)
    by_cases last : k = 3
    · have state' : (s.step i).adaptor.state = .finished := by
        simp [System.step, Adaptor.next, state, nextState, resp, last]
      subst last
      exact .hasWritten state' pending' beats' opened'
    · have state' : (s.step i).adaptor.state = .w (k + 1) := by
        simp [System.step, Adaptor.next, state, nextState, resp, last]
      have next : (k + 1).val = k.val + 1 := by omega
      rw [if_neg last] at opened'
      exact .writes state' pending' address' (next ▸ beats') opened'

private theorem phase_finished (state : s.adaptor.state = .finished) (opened : s.opened = none) :
    Phase (s.step i) := by
  refine .reset ?_ ?_ ?_
  · simp [System.step, Adaptor.next, state, nextState]
  · simp [System.step, state, respO]
  · simp [System.step, System.isBeat, state, readO, writeO, opened]

structure Inv (s : System) : Prop where
  phase : Phase s
  balanced : s.port.Balanced

private theorem Phase.idle (phase : Phase s) (free : s.port.pending = none) :
    s.adaptor.state = .reset := by
  cases phase with
  | reset state => exact state
  | reads _ pending | writes _ pending | hasRead _ pending | hasWritten _ pending =>
    rw [free] at pending
    cases pending

theorem inv_step (i : Inputs) (s : System) (inv : Inv s) (admitted : Admitted i s) :
    Inv (s.step i) := by
  have held : ∀ r, s.port.pending = some r → offer i = some r := admitted.1
  constructor
  · cases inv.phase with
    | reset state beats opened => exact phase_reset state beats opened admitted.2
    | reads state pending address beats opened =>
      exact phase_reads state (held _ pending) address beats opened
    | writes state pending address beats opened =>
      exact phase_writes state (held _ pending) address beats opened
    | hasRead state _ _ opened => exact phase_finished state opened
    | hasWritten state _ _ opened => exact phase_finished state opened
  · refine inv.balanced.next admitted.1 ?_
    intro given
    have finished : s.adaptor.state = .finished := by
      by_contra other
      simp [respO, other] at given
    cases inv.phase with
    | reset state => simp [state] at finished
    | reads state => simp [state] at finished
    | writes state => simp [state] at finished
    | hasRead _ pending => rw [held _ pending]; rfl
    | hasWritten _ pending => rw [held _ pending]; rfl

theorem inv_start (valueRead : Line) (mux : Fin 4) (addressO : Word) :
    Inv (.start valueRead mux addressO) :=
  ⟨.reset rfl rfl rfl, Port.balanced_idle⟩

end Step

/-- A request is under way in the cycle after it is offered, and is answered in the cycle after
its fourth beat and in none before, whatever the gaps; then the adaptor is ready again. -/
structure Completes (a : Adaptor) (i : Inputs) (js : List Inputs) : Prop where
  opens : readO (a.next i).state = i.readI ∧ writeO (a.next i).state = i.writeI
  waits : ∀ ks ls, js = ks ++ ls → ks.countP Inputs.respI < 4 →
    respO (run Adaptor.next (a.next i) ks).state = false
  answers : 4 ≤ js.countP Inputs.respI → ∃ ks ls, js = ks ++ ls ∧
    ks.countP Inputs.respI = 4 ∧ respO (run Adaptor.next (a.next i) ks).state = true ∧
    ∀ j, ((run Adaptor.next (a.next i) ks).next j).state = .reset

section Progress

variable {t : Fin 4 → State} {a : Adaptor} {i : Inputs} {js : List Inputs}

private theorem next_transfer (kind : t = .r ∨ t = .w) {k : Fin 4} (state : a.state = t k)
    (i : Inputs) : (a.next i).state =
      if i.respI then (if k = 3 then .finished else t (k + 1)) else t k := by
  rcases kind with rfl | rfl <;> simp [Adaptor.next, state, nextState]

private theorem respO_transfer (kind : t = .r ∨ t = .w) (k : Fin 4) : respO (t k) = false := by
  rcases kind with rfl | rfl <;> simp [respO]

private theorem transfer_waits (kind : t = .r ∨ t = .w) {k : Fin 4} (state : a.state = t k)
    (few : k.val + js.countP Inputs.respI < 4) :
    respO (run Adaptor.next a js).state = false := by
  induction js generalizing a k with
  | nil =>
    rw [run, state]
    exact respO_transfer kind k
  | cons i js ih =>
    have state' := next_transfer kind state i
    rw [List.countP_cons] at few
    rw [run]
    cases resp : i.respI with
    | false =>
      rw [resp] at state' few
      apply ih (k := k) state'
      simpa using few
    | true =>
      rw [resp, if_pos rfl] at few
      have more : k ≠ 3 := by omega
      rw [resp, if_pos rfl, if_neg more] at state'
      apply ih state'
      omega

private theorem transfer_answers (kind : t = .r ∨ t = .w) {k : Fin 4} (state : a.state = t k)
    (enough : 4 ≤ k.val + js.countP Inputs.respI) : ∃ ks ls, js = ks ++ ls ∧
      k.val + ks.countP Inputs.respI = 4 ∧ (run Adaptor.next a ks).state = .finished := by
  induction js generalizing a k with
  | nil =>
    rw [List.countP_nil] at enough
    omega
  | cons i js ih =>
    have state' := next_transfer kind state i
    rw [List.countP_cons] at enough
    cases resp : i.respI with
    | false =>
      rw [resp] at state' enough
      obtain ⟨ks, ls, split, beats, finished⟩ := ih (k := k) state' (by simpa using enough)
      refine ⟨i :: ks, ls, by rw [split, List.cons_append], ?_, finished⟩
      simpa [List.countP_cons, resp] using beats
    | true =>
      rw [resp, if_pos rfl] at enough state'
      by_cases last : k = 3
      · rw [if_pos last] at state'
        refine ⟨[i], js, rfl, ?_, state'⟩
        rw [last, List.countP_singleton, resp]
        rfl
      · rw [if_neg last] at state'
        have next : (k + 1).val = k.val + 1 := by omega
        obtain ⟨ks, ls, split, beats, finished⟩ := ih state' (by omega)
        refine ⟨i :: ks, ls, by rw [split, List.cons_append], ?_, finished⟩
        rw [List.countP_cons, resp, if_pos rfl]
        omega

theorem completes (state : a.state = .reset) (offered : (offer i).isSome = true)
    (oneKind : ¬(i.readI = true ∧ i.writeI = true)) (js : List Inputs) : Completes a i js := by
  obtain ⟨t, kind, state', opens⟩ : ∃ t : Fin 4 → State, (t = .r ∨ t = .w) ∧
      (a.next i).state = t 0 ∧ readO (t 0) = i.readI ∧ writeO (t 0) = i.writeI := by
    cases read : i.readI with
    | true =>
      have write : i.writeI = false := by simpa [read] using oneKind
      exact ⟨.r, .inl rfl, by simp [Adaptor.next, state, nextState, read, write], rfl,
        write.symm⟩
    | false =>
      have write : i.writeI = true := by simpa [Burst.offer, request, read] using offered
      exact ⟨.w, .inr rfl, by simp [Adaptor.next, state, nextState, read, write], rfl,
        write.symm⟩
  constructor
  · rw [state']
    exact opens
  · intro ks _ _ few
    apply transfer_waits kind state'
    simpa using few
  · intro enough
    obtain ⟨ks, ls, split, beats, finished⟩ := transfer_answers kind state' (by simpa using enough)
    refine ⟨ks, ls, split, by simpa using beats, by simp [respO, finished], ?_⟩
    intro j
    change nextState (run Adaptor.next (a.next i) ks).state _ _ _ = .reset
    rw [finished]
    rfl

end Progress

/-- The adaptor in front of a memory that keeps the beats in order, with the lines that
the answered writes have produced alongside. -/
structure Stored where
  burst : Burst
  pending : Option Request
  flat : LineAddr → Line

namespace Stored

def step (i : Inputs) (s : Stored) : Stored where
  burst := s.burst.next i
  pending := if respO s.burst.adaptor.state then none else offer i
  flat := s.burst.memNext i s.flat

def start (valueRead : Line) (mux : Fin 4) (addressO : Word) (store : LineAddr → Line) :
    Stored where
  burst := ⟨.afterReset valueRead mux addressO, store, 0⟩
  pending := none
  flat := store

end Stored

def AdmittedStored (i : Inputs) (s : Stored) : Prop :=
  (∀ r ∈ s.pending, offer i = some r) ∧ ¬(i.readI = true ∧ i.writeI = true) ∧
    s.burst.Answers i

instance (i : Inputs) (s : Stored) : Decidable (AdmittedStored i s) := by
  unfold AdmittedStored
  infer_instance

/-- A read is answered with the line last written there, or the initial one. -/
def ReadsBack (i : Inputs) (s : Stored) : Prop :=
  respO s.burst.adaptor.state = true → ∀ a, offer i = some (.read a) →
    s.burst.adaptor.lineO i = s.flat (lineAddr a)

theorem stored_step (i : Inputs) (s : Stored) (backs : Backs s.flat s.burst s.pending)
    (admitted : AdmittedStored i s) :
    Backs (s.step i).flat (s.step i).burst (s.step i).pending :=
  backs_next backs admitted.1 admitted.2.1 admitted.2.2

private theorem stored_reads (i : Inputs) (s : Stored) (backs : Backs s.flat s.burst s.pending)
    (admitted : AdmittedStored i s) : ReadsBack i s := by
  intro resp a offered
  obtain ⟨r, pending, line⟩ := backs_answer (i := i) backs resp
  have same := admitted.1 r pending
  rw [offered] at same
  exact line a (Option.some.inj same).symm

/-- From reset, under every pattern of requests and beats, lines and bursts correspond, and
every new request is answered once, after its four beats; over a memory that keeps the beats in
order, every read returns the line written last. -/
theorem line_codec :
    (∀ (valueRead : Line) (mux : Fin 4) (addressO : Word) (is : List Inputs),
      Along System.step Admitted (.start valueRead mux addressO) is →
      let s := run System.step (.start valueRead mux addressO) is
      Along System.step Coded (.start valueRead mux addressO) is ∧ s.port.Balanced ∧
        ∀ i js, s.port.pending = none → (offer i).isSome = true →
          ¬(i.readI = true ∧ i.writeI = true) → Completes s.adaptor i js) ∧
    (∀ (valueRead : Line) (mux : Fin 4) (addressO : Word) (store : LineAddr → Line)
      (is : List Inputs),
      Along Stored.step AdmittedStored (.start valueRead mux addressO store) is →
      let s := run Stored.step (.start valueRead mux addressO store) is
      Along Stored.step ReadsBack (.start valueRead mux addressO store) is ∧
        ∀ i js, s.pending = none → (offer i).isSome = true →
          ¬(i.readI = true ∧ i.writeI = true) → Completes s.burst.adaptor i js) := by
  constructor
  · intro valueRead mux addressO is admitted s
    have start := inv_start valueRead mux addressO
    have coded : ∀ i s, Inv s → Admitted i s → Coded i s := fun _ _ inv => phase_coded inv.phase
    have inv : Inv s := run_invariant inv_step start admitted
    refine ⟨along_invariant inv_step coded start admitted, inv.balanced, ?_⟩
    intro i js free offered oneKind
    exact completes (inv.phase.idle free) offered oneKind js
  · intro valueRead mux addressO store is admitted s
    have start : Backs store ⟨.afterReset valueRead mux addressO, store, 0⟩ none :=
      .reset rfl rfl rfl
    refine ⟨along_invariant stored_step stored_reads start admitted, ?_⟩
    intro i js free offered oneKind
    have backs : Backs s.flat s.burst s.pending := run_invariant stored_step start admitted
    rw [free] at backs
    cases backs with
    | reset state => exact completes state offered oneKind js

def there : List Inputs :=
  let line : Line := 4#64 ++ 3#64 ++ 2#64 ++ 1#64
  let write (resp : Bool) : Inputs := ⟨line, 0x40#32, false, true, 0#64, resp⟩
  [write true, write false, write true, write true, write false, write true, write true,
    write false]

def reading (burst : BitVec 64) (resp : Bool) : Inputs :=
  ⟨0#256, 0x40#32, true, false, burst, resp⟩

def back : List Inputs :=
  [reading 1#64 true, reading 9#64 false, reading 2#64 true, reading 3#64 true, reading 4#64 true,
    reading 7#64 true]

def thereAndBack : List Inputs := there ++ reading 0#64 false :: back

theorem line_codec_thereAndBack :
    (Along System.step Coded (.start 0#256 0 0#32) thereAndBack ∧
      ((run System.step (.start 0#256 0 0#32) thereAndBack).port.answered.map Prod.snd).getLast? =
        some (4#64 ++ 3#64 ++ 2#64 ++ 1#64)) ∧
    Along Stored.step ReadsBack (.start 0#256 0 0#32 fun _ => 0#256) thereAndBack ∧
    Completes (run Stored.step (.start 0#256 0 0#32 fun _ => 0#256) there).burst.adaptor
      (reading 0#64 false) back := by
  refine ⟨⟨(line_codec.1 _ _ _ _ ?_).1, ?_⟩, (line_codec.2 _ _ _ _ _ ?_).1,
    (line_codec.2 _ _ _ _ there ?_).2 _ _ ?_ ?_ ?_⟩
  all_goals decide +kernel

end Mp4.Memory.LineCodec
