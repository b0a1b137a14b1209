import Mp4.Lib.Clocked
import Mp4.Memory.ParamMemory

/-!
The adaptor in front of `ParamMemory`: a memory of lines whose answers are due at a known
cycle, whatever is on its port.
-/

set_option autoImplicit false
set_option relaxedAutoImplicit false

namespace Mp4.Memory.LineMemory

open Mp4.Lib.Clocked Mp4.Memory.Address Mp4.Memory.LineBus Mp4.Memory.CachelineAdaptor
open Mp4.Memory.BurstMemory Mp4.Memory.ParamMemory

structure Inputs where
  lineI : Line
  addressI : Word
  readI : Bool
  writeI : Bool

namespace Inputs

def offer (i : Inputs) : Option Request := request i.readI i.writeI i.addressI i.lineI

def quiet : Inputs := ⟨0#256, 0#32, false, false⟩

def held : Request → Inputs
  | .read address => ⟨0#256, address, true, false⟩
  | .write address wdata => ⟨wdata, address, false, true⟩

end Inputs

/-- The adaptor and the memory, with the request under way, the lines that the answered
requests have produced and what was answered. -/
structure System where
  adaptor : Adaptor
  memory : Mem
  pending : Option Request
  flat : LineAddr → Line
  answers : List (Option Line)

namespace System

variable (p : Params) (s : System) (i : Inputs)

def signals : CachelineAdaptor.Inputs :=
  ⟨i.lineI, i.addressI, i.readI, i.writeI, s.memory.rdata, s.memory.resp⟩

def step (i : Inputs) (s : System) : System where
  adaptor := s.adaptor.next (s.signals i)
  memory := s.memory.next p (wires s.adaptor (s.signals i))
  pending := if respO s.adaptor.state then none else i.offer
  flat :=
    match respO s.adaptor.state, i.offer with
    | true, some r => r.apply s.flat
    | _, _ => s.flat
  answers :=
    if respO s.adaptor.state then
      s.answers ++ [if i.readI then some (s.adaptor.lineO (s.signals i)) else none]
    else s.answers

def start (a : Adaptor) (image : LineAddr → Line) (rdata : BitVec 64) : System where
  adaptor := .afterReset a.valueRead a.writeMux a.addressO
  memory := .reset image rdata
  pending := none
  flat := image
  answers := []

end System

def Admitted (i : Inputs) (s : System) : Prop :=
  (∀ r ∈ s.pending, i.offer = some r) ∧ ¬(i.readI = true ∧ i.writeI = true)

instance (i : Inputs) (s : System) : Decidable (Admitted i s) := by
  unfold Admitted
  infer_instance

def ReadsBack (i : Inputs) (s : System) : Prop :=
  respO s.adaptor.state = true → ∀ a, i.offer = some (.read a) →
    s.adaptor.lineO (s.signals i) = s.flat (lineAddr a)

section Step

variable {p : Params} {s : System} {i : Inputs} {b : Burst}

def Tracked (s : System) : Prop := ∃ b : Burst, b.adaptor = s.adaptor ∧ Tracks b s.memory

theorem tracked_step (i : Inputs) (s : System) (tracked : Tracked s) : Tracked (s.step p i) := by
  obtain ⟨b, same, tracks⟩ := tracked
  refine ⟨b.next (s.signals i), ?_, ?_⟩
  · rw [Burst.next, same]
    rfl
  · have next := tracks_next (p := p) (i := s.signals i) tracks rfl
    rw [same] at next
    exact next

private theorem tracked_start (a : Adaptor) (image : LineAddr → Line) (rdata : BitVec 64) :
    Tracked (.start a image rdata) :=
  ⟨⟨.afterReset a.valueRead a.writeMux a.addressO, image, 0⟩, rfl, tracks_reset _ image rdata rfl⟩

private theorem Tracked.error (tracked : Tracked s) : s.memory.error = false := by
  obtain ⟨b, _, tracks⟩ := tracked
  exact tracks.error

/-- The process serves the adaptor, which keeps its protocol. -/
def Inv (s : System) : Prop :=
  ∃ b : Burst, b.adaptor = s.adaptor ∧ Tracks b s.memory ∧ Backs s.flat b s.pending

theorem inv_step (i : Inputs) (s : System) (inv : Inv s) (admitted : Admitted i s) :
    Inv (s.step p i) := by
  obtain ⟨b, same, tracks, backs⟩ := inv
  refine ⟨b.next (s.signals i), ?_, ?_, ?_⟩
  · rw [Burst.next, same]
    rfl
  · have next := tracks_next (p := p) (i := s.signals i) tracks rfl
    rw [same] at next
    exact next
  · have next := backs_next (i := s.signals i) backs admitted.1 admitted.2
      (tracks_answers tracks rfl rfl)
    rw [Burst.memNext, same] at next
    exact next

theorem inv_reads (i : Inputs) (s : System) (inv : Inv s) (admitted : Admitted i s) :
    ReadsBack i s := by
  obtain ⟨b, same, -, backs⟩ := inv
  intro resp a offered
  rw [← same] at resp ⊢
  obtain ⟨r, pending, line⟩ := backs_answer (i := s.signals i) backs resp
  have asks := admitted.1 r pending
  rw [offered] at asks
  exact line a (Option.some.inj asks).symm

theorem inv_start (a : Adaptor) (image : LineAddr → Line) (rdata : BitVec 64) :
    Inv (.start a image rdata) :=
  ⟨⟨.afterReset a.valueRead a.writeMux a.addressO, image, 0⟩, rfl, tracks_reset _ image rdata rfl,
    .reset rfl rfl rfl⟩

end Step

/-- A request for which the port has been quiet for some cycles. -/
abbrev Errand := Nat × Request

def address : Request → Word
  | .read address => address
  | .write address _ => address

/-- The inputs of a client that knows the delays: a request stays for its delay and seven
cycles more. The delay is that of a page hit after a request for the same page. -/
def session (p : Params) (page : Int) : List Errand → List Inputs
  | [] => []
  | (gap, r) :: rest =>
      List.replicate gap .quiet ++
        List.replicate (p.delay page (address r) + 7) (.held r) ++
        session p (pageOf (address r)) rest

def answer (mem : LineAddr → Line) : Request → Option Line
  | .read address => some (mem (lineAddr address))
  | .write _ _ => none

def answersOf (mem : LineAddr → Line) : List Request → List (Option Line)
  | [] => []
  | r :: rs => answer mem r :: answersOf (r.apply mem) rs

def memAfter (mem : LineAddr → Line) (rs : List Request) : LineAddr → Line :=
  rs.foldl (fun mem r => r.apply mem) mem

section Session

variable {p : Params} {s : System} {r : Request} {page : Int} {flat : LineAddr → Line}
  {answers : List (Option Line)} {n : Nat}

private theorem offer_held (r : Request) : (Inputs.held r).offer = some r := by
  cases r <;> rfl

private theorem held_oneKind (r : Request) :
    ¬((Inputs.held r).readI = true ∧ (Inputs.held r).writeI = true) := by
  cases r <;> simp [Inputs.held]

private theorem held_asks (r : Request) :
    ((Inputs.held r).readI ^^ (Inputs.held r).writeI) = true := by
  cases r <;> rfl

private theorem addressI_held (r : Request) : (Inputs.held r).addressI = address r := by
  cases r <;> rfl

structure Rest (page : Int) (flat : LineAddr → Line) (answers : List (Option Line)) (s : System) :
    Prop where
  inv : Inv s
  state : s.adaptor.state = .reset
  pending : s.pending = none
  page : s.memory.pageno = page
  flat : s.flat = flat
  answers : s.answers = answers

/-- A request that is answered in `n` cycles. -/
structure Serving (r : Request) (n : Nat) (flat : LineAddr → Line) (answers : List (Option Line))
    (s : System) : Prop where
  inv : Inv s
  state : s.adaptor.state ≠ .reset
  pending : s.pending = some r
  due : due p s.adaptor s.memory = n
  address : s.adaptor.addressO = address r
  flat : s.flat = flat
  answers : s.answers = answers

private theorem Inv.idle (inv : Inv s) (state : s.adaptor.state = .reset) :
    s.memory.phase = .idle := by
  obtain ⟨b, same, tracks, -⟩ := inv
  rw [← same] at state
  cases tracks.stage with
  | quiet _ _ phase => exact phase
  | asked task busy => cases task <;> simp [state, transfer] at busy
  | waits task left busy => cases task <;> simp [state, transfer] at busy
  | bursts task k busy => cases task <;> simp [state, transfer] at busy

private theorem Inv.mem (inv : Inv s) (state : s.adaptor.state = .reset) :
    s.memory.mem = s.flat := by
  obtain ⟨b, same, tracks, backs⟩ := inv
  rw [← same] at state
  generalize s.pending = pend at backs
  cases backs with
  | reset _ _ store => rw [← tracks.store, store]
  | reads busy => rw [state] at busy; cases busy
  | writes busy => rw [state] at busy; cases busy
  | hasRead busy => rw [state] at busy; cases busy
  | hasWritten busy => rw [state] at busy; cases busy

private theorem Rest.admitted (rest : Rest page flat answers s) {i : Inputs}
    (oneKind : ¬(i.readI = true ∧ i.writeI = true)) : Admitted i s := by
  refine ⟨?_, oneKind⟩
  intro r pending
  rw [rest.pending] at pending
  cases pending

private theorem rest_quiet (rest : Rest page flat answers s) :
    Rest page flat answers (s.step p .quiet) := by
  have state := rest.state
  have memory : (s.step p .quiet).memory = s.memory :=
    next_quiet (b := ⟨s.adaptor, flat, 0⟩) (.inl state) (rest.inv.idle state)
  refine ⟨inv_step _ _ rest.inv (rest.admitted (by simp [Inputs.quiet])), ?_, ?_, ?_, ?_, ?_⟩
  · simp [System.step, Adaptor.next, System.signals, state, nextState, Inputs.quiet]
  · simp [System.step, state, respO, Inputs.offer, request, Inputs.quiet]
  · rw [memory, rest.page]
  · simp [System.step, state, respO, rest.flat]
  · simp [System.step, state, respO, rest.answers]

private theorem rest_gap (gap : Nat) (rest : Rest page flat answers s) :
    Rest page flat answers (run (System.step p) s (List.replicate gap .quiet)) := by
  induction gap generalizing s with
  | zero => exact rest
  | succ gap ih => exact ih (rest_quiet rest)

private theorem serving_opened (rest : Rest page flat answers s) :
    Serving (p := p) r (p.delay page (address r) + 5) flat answers (s.step p (.held r)) := by
  have state := rest.state
  obtain ⟨busy, due⟩ := due_opened (b := ⟨s.adaptor, flat, 0⟩) (p := p)
    (i := s.signals (.held r)) state (rest.inv.idle state) (held_asks r)
  refine ⟨inv_step _ _ rest.inv (rest.admitted (held_oneKind r)), busy, ?_, ?_, ?_, ?_, ?_⟩
  · simp [System.step, state, respO, offer_held]
  · refine due.trans ?_
    rw [rest.page]
    exact congrArg (p.delay page · + 5) (addressI_held r)
  · simp [System.step, Adaptor.next, state, out, System.signals, addressI_held]
  · simp [System.step, state, respO, rest.flat]
  · simp [System.step, state, respO, rest.answers]

private theorem Serving.admitted (serving : Serving (p := p) r n flat answers s) :
    Admitted (.held r) s := by
  refine ⟨?_, held_oneKind r⟩
  intro q pending
  rw [serving.pending] at pending
  rw [← Option.some.inj pending]
  exact offer_held r

private theorem serving_next (serving : Serving (p := p) r (n + 1) flat answers s) :
    Serving (p := p) r n flat answers (s.step p (.held r)) := by
  have state := serving.state
  obtain ⟨b, same, tracks, backs⟩ := serving.inv
  have unfinished : s.adaptor.state ≠ .finished := by
    intro finished
    rw [← same] at finished state
    have due := serving.due
    rw [← same, (due_pos tracks state).mpr finished] at due
    cases due
  have resp : respO s.adaptor.state = false := by simp [respO, unfinished]
  obtain ⟨busy, due⟩ := due_next (p := p) (i := s.signals (.held r)) tracks rfl
    (by rwa [same]) (by rwa [same])
  rw [Burst.next, same, serving.due] at due
  refine ⟨inv_step _ _ serving.inv serving.admitted, ?_, ?_, ?_, ?_, ?_, ?_⟩
  · rwa [Burst.next, same] at busy
  · simp [System.step, resp, offer_held]
  · exact Nat.succ.inj due
  · simp [System.step, Adaptor.next, out, state, serving.address]
  · simp [System.step, resp, serving.flat]
  · simp [System.step, resp, serving.answers]

theorem serving_run (serving : Serving (p := p) r n flat answers s) :
    Serving (p := p) r 0 flat answers (run (System.step p) s (List.replicate n (.held r))) := by
  induction n generalizing s with
  | zero => exact serving
  | succ n ih => exact ih (serving_next serving)

private theorem serving_answered (serving : Serving (p := p) r 0 flat answers s) :
    Rest (pageOf (address r)) (r.apply flat) (answers ++ [answer flat r])
      (s.step p (.held r)) := by
  obtain ⟨b, same, tracks, backs⟩ := serving.inv
  have state := serving.state
  have due := serving.due
  rw [← same] at state due
  have finished : s.adaptor.state = .finished := by
    rw [← same]
    exact (due_pos tracks state).mp due
  have phase : s.memory.phase = .idle := by
    cases tracks.stage with
    | quiet _ _ phase => exact phase
    | asked task busy => cases task <;> simp [same, finished, transfer] at busy
    | waits task left busy => cases task <;> simp [same, finished, transfer] at busy
    | bursts task k busy => cases task <;> simp [same, finished, transfer] at busy
  have memory : (s.step p (.held r)).memory = s.memory :=
    next_quiet (b := ⟨s.adaptor, flat, 0⟩) (.inr finished) phase
  have page : s.memory.pageno = pageOf (address r) := by
    rw [tracks.page (.inr (by rw [same, finished])), same, serving.address]
  have reads := inv_reads (.held r) s serving.inv serving.admitted
  refine ⟨inv_step _ _ serving.inv serving.admitted, ?_, ?_, ?_, ?_, ?_⟩
  · simp [System.step, Adaptor.next, finished, nextState]
  · simp [System.step, finished, respO]
  · rw [memory, page]
  · simp [System.step, finished, respO, offer_held, serving.flat]
  · have resp : respO s.adaptor.state = true := by rw [finished]; rfl
    simp only [System.step, resp, if_true, serving.answers]
    cases r with
    | read a =>
      rw [answer, ← serving.flat, ← reads resp a rfl]
      rfl
    | write a wdata => rfl

private theorem rest_errand (gap : Nat) (rest : Rest page flat answers s) :
    Rest (pageOf (address r)) (r.apply flat) (answers ++ [answer flat r])
      (run (System.step p) s (List.replicate gap .quiet ++
        List.replicate (p.delay page (address r) + 7) (.held r))) := by
  have cycles : List.replicate (p.delay page (address r) + 7) (Inputs.held r) =
      .held r :: (List.replicate (p.delay page (address r) + 5) (.held r) ++ [.held r]) := by
    rw [← List.replicate_succ', ← List.replicate_succ]
  rw [run_append, cycles]
  have opened := serving_run (serving_opened (p := p) (r := r) (rest_gap (p := p) gap rest))
  have answered := serving_answered opened
  rw [run, run_append]
  exact answered

private theorem rest_session (errands : List Errand) (rest : Rest page flat answers s) :
    ∃ page', Rest page' (memAfter flat (errands.map Prod.snd))
      (answers ++ answersOf flat (errands.map Prod.snd))
      (run (System.step p) s (session p page errands)) := by
  induction errands generalizing s page flat answers with
  | nil =>
    refine ⟨page, ?_⟩
    simpa [answersOf, memAfter, session, run] using rest
  | cons errand errands ih =>
    obtain ⟨gap, r⟩ := errand
    obtain ⟨page', rest'⟩ := ih (rest_errand (r := r) gap rest)
    refine ⟨page', ?_⟩
    rw [List.append_assoc] at rest'
    rw [session, run_append]
    exact rest'

end Session

/-- From reset, a request is answered exactly `delay + 6` cycles after it is raised, with the
delay of a page hit if the request before it was for the same page: a client that waits for
just that long, whatever its pauses, gets the answers of a memory of lines, one for each
request, and leaves that memory behind. -/
theorem session_served (p : Params) (a : Adaptor) (image : LineAddr → Line) (rdata : BitVec 64)
    (errands : List Errand) :
    let s := run (System.step p) (.start a image rdata) (session p (-1) errands)
    s.answers = answersOf image (errands.map Prod.snd) ∧
      s.memory.mem = memAfter image (errands.map Prod.snd) ∧ s.adaptor.state = .reset := by
  have start : Rest (-1) image [] (.start a image rdata) :=
    ⟨inv_start a image rdata, rfl, rfl, rfl, rfl, rfl⟩
  obtain ⟨page, rest⟩ := rest_session (p := p) errands start
  exact ⟨rest.answers, (rest.inv.mem rest.state).trans rest.flat, rest.state⟩

/-- The memory never reports an error, whatever is on the port; and if requests are held and
of one kind, every read is answered with the line written last. -/
theorem reads_back (p : Params) (a : Adaptor) (image : LineAddr → Line) (rdata : BitVec 64)
    (is : List Inputs) :
    (run (System.step p) (.start a image rdata) is).memory.error = false ∧
      (Along (System.step p) Admitted (.start a image rdata) is →
        Along (System.step p) ReadsBack (.start a image rdata) is) := by
  constructor
  · apply Tracked.error
    refine run_invariant (A := fun _ _ => True) (fun i s tracked _ => tracked_step i s tracked)
      (tracked_start a image rdata) (along_of_forall (fun _ _ => trivial) _ is)
  · exact along_invariant inv_step inv_reads (inv_start a image rdata)

def writeAndRead : List Errand :=
  [(1, .write 0x40#32 7#256), (0, .read 0x1000#32), (2, .read 0x1040#32), (0, .read 0x5c#32)]

theorem reads_back_writeAndRead :
    let s : System := .start ⟨.reset, 0#256, 0, 0#32⟩ (fun _ => 5#256) 0#64
    Along (System.step ⟨2, 1⟩) ReadsBack s (session ⟨2, 1⟩ (-1) writeAndRead) ∧
      (run (System.step ⟨2, 1⟩) s (session ⟨2, 1⟩ (-1) writeAndRead)).answers =
        [none, some 5#256, some 5#256, some 7#256] := by
  refine ⟨(reads_back ⟨2, 1⟩ _ _ _ _).2 ?_, ?_⟩
  all_goals decide +kernel

end Mp4.Memory.LineMemory
