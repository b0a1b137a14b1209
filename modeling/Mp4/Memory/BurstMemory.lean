import Mp4.Memory.CachelineAdaptor
import Mp4.Memory.LineBus

/-!
The adaptor in front of a memory that takes and gives a line in four beats, in order, with
any delays. It behaves as a memory of lines in which a request takes effect at once, in
the cycle of its answer.
-/

set_option autoImplicit false
set_option relaxedAutoImplicit false

namespace Mp4.Memory.BurstMemory

open Mp4.Lib.Bits Mp4.Memory.Address Mp4.Memory.LineBus Mp4.Memory.CachelineAdaptor

/-- The adaptor, the stored lines and the number of beats of the current transaction. -/
structure Burst where
  adaptor : Adaptor
  store : LineAddr → Line
  count : Fin 4

namespace Burst

variable (b : Burst) (i : Inputs)

def beat : Bool := (readO b.adaptor.state || writeO b.adaptor.state) && i.respI

def next (i : Inputs) (b : Burst) : Burst where
  adaptor := b.adaptor.next i
  store :=
    if writeO b.adaptor.state && i.respI then
      Function.update b.store (lineAddr b.adaptor.addressO)
        (setSlice (b.store (lineAddr b.adaptor.addressO)) b.count.val (b.adaptor.burstO i))
    else b.store
  count := if b.beat i then b.count + 1 else b.count

def offer : Option Request := request i.readI i.writeI i.addressI i.lineI

/-- A read beat shows the slice that is due. -/
def Answers : Prop :=
  readO b.adaptor.state = true → i.respI = true →
    i.burstI = slice 64 (b.store (lineAddr b.adaptor.addressO)) b.count.val

instance : Decidable (b.Answers i) := by
  unfold Answers
  infer_instance

def memNext (mem : LineAddr → Line) : LineAddr → Line :=
  match respO b.adaptor.state, offer i with
  | true, some r => r.apply mem
  | _, _ => mem

end Burst

/-- A transaction between request and answer. -/
inductive Backs (mem : LineAddr → Line) : Burst → Option Request → Prop
  | reset {b : Burst} {pend : Option Request} (state : b.adaptor.state = .reset)
      (count : b.count = 0) (store : b.store = mem) : Backs mem b pend
  | reads {b : Burst} {a : Word} {k : Fin 4} (state : b.adaptor.state = .r k)
      (count : b.count = k) (store : b.store = mem) (address : b.adaptor.addressO = a)
      (line : slices 64 b.adaptor.valueRead k.val = slices 64 (mem (lineAddr a)) k.val) :
      Backs mem b (some (.read a))
  | writes {b : Burst} {a : Word} {wdata : Line} {k : Fin 4} (state : b.adaptor.state = .w k)
      (count : b.count = k) (others : ∀ l, l ≠ lineAddr a → b.store l = mem l)
      (address : b.adaptor.addressO = a)
      (line : slices 64 (b.store (lineAddr a)) k.val = slices 64 wdata k.val) :
      Backs mem b (some (.write a wdata))
  | hasRead {b : Burst} {a : Word} (state : b.adaptor.state = .finished) (count : b.count = 0)
      (store : b.store = mem) (line : b.adaptor.valueRead = mem (lineAddr a)) :
      Backs mem b (some (.read a))
  | hasWritten {b : Burst} {a : Word} {wdata : Line} (state : b.adaptor.state = .finished)
      (count : b.count = 0) (store : b.store = Function.update mem (lineAddr a) wdata) :
      Backs mem b (some (.write a wdata))

section Next

variable {mem : LineAddr → Line} {b : Burst} {i : Inputs}

private theorem memNext_quiet (state : b.adaptor.state ≠ .finished) : b.memNext i mem = mem := by
  have quiet : respO b.adaptor.state = false := by simpa [respO] using state
  rw [Burst.memNext, quiet]

private theorem whole {x y : Line} {k : Fin 4} (last : k = 3)
    (same : slices 64 x (k.val + 1) = slices 64 y (k.val + 1)) : x = y := by
  subst last
  exact eq_of_slices (n := 4) rfl same

private theorem backs_reset (state : b.adaptor.state = .reset) (count : b.count = 0)
    (store : b.store = mem) (oneKind : ¬(i.readI = true ∧ i.writeI = true)) :
    Backs mem (b.next i) (Burst.offer i) := by
  have store' : (b.next i).store = mem := by simp [Burst.next, state, writeO, store]
  have count' : (b.next i).count = 0 := by
    simp [Burst.next, Burst.beat, state, readO, writeO, count]
  have address' : (b.next i).adaptor.addressO = i.addressI := by
    simp [Burst.next, Adaptor.next, state, out]
  cases read : i.readI with
  | true =>
    have write : i.writeI = false := by simpa [read] using oneKind
    have state' : (b.next i).adaptor.state = .r 0 := by
      simp [Burst.next, Adaptor.next, state, nextState, read, write]
    simp only [Burst.offer, request, read, if_true]
    exact .reads state' count' store' address' rfl
  | false =>
    cases write : i.writeI with
    | true =>
      have state' : (b.next i).adaptor.state = .w 0 := by
        simp [Burst.next, Adaptor.next, state, nextState, read, write]
      simp only [Burst.offer, request, read, write, if_true]
      exact .writes state' count' (fun l _ => by rw [store']) address' rfl
    | false =>
      have state' : (b.next i).adaptor.state = .reset := by
        simp [Burst.next, Adaptor.next, state, nextState, read, write]
      exact .reset state' count' store'

private theorem backs_reads {a : Word} {k : Fin 4} (state : b.adaptor.state = .r k)
    (count : b.count = k) (store : b.store = mem) (address : b.adaptor.addressO = a)
    (line : slices 64 b.adaptor.valueRead k.val = slices 64 (mem (lineAddr a)) k.val)
    (answers : b.Answers i) : Backs mem (b.next i) (some (.read a)) := by
  have store' : (b.next i).store = mem := by simp [Burst.next, state, writeO, store]
  have address' : (b.next i).adaptor.addressO = a := by
    simp [Burst.next, Adaptor.next, state, out, address]
  have value' : (b.next i).adaptor.valueRead = setSlice b.adaptor.valueRead k.val i.burstI := by
    simp [Burst.next, Adaptor.next, Adaptor.lineO, state]
  cases resp : i.respI with
  | false =>
    have state' : (b.next i).adaptor.state = .r k := by
      simp [Burst.next, Adaptor.next, state, nextState, resp]
    have count' : (b.next i).count = k := by simp [Burst.next, Burst.beat, resp, count]
    refine .reads state' count' store' address' ?_
    rw [value', slices_setSlice, line]
  | true =>
    have due : i.burstI = slice 64 (mem (lineAddr a)) k.val := by
      rw [answers (by rw [state]; rfl) resp, address, store, count]
    have extended : slices 64 (b.next i).adaptor.valueRead (k.val + 1) =
        slices 64 (mem (lineAddr a)) (k.val + 1) := by
      rw [value', slices_setSlice_succ _ _ (by omega), line, due, slices_succ]
    have count' : (b.next i).count = k + 1 := by
      simp [Burst.next, Burst.beat, resp, state, readO, count]
    by_cases last : k = 3
    · have state' : (b.next i).adaptor.state = .finished := by
        simp [Burst.next, Adaptor.next, state, nextState, resp, last]
      refine .hasRead state' ?_ store' (whole last extended)
      rw [count', last]
      rfl
    · have state' : (b.next i).adaptor.state = .r (k + 1) := by
        simp [Burst.next, Adaptor.next, state, nextState, resp, last]
      have beat : (k + 1).val = k.val + 1 := by omega
      refine .reads state' count' store' address' ?_
      rw [beat]
      exact extended

private theorem backs_writes {a : Word} {wdata : Line} {k : Fin 4} (state : b.adaptor.state = .w k)
    (count : b.count = k) (others : ∀ l, l ≠ lineAddr a → b.store l = mem l)
    (address : b.adaptor.addressO = a)
    (line : slices 64 (b.store (lineAddr a)) k.val = slices 64 wdata k.val)
    (held : i.lineI = wdata) : Backs mem (b.next i) (some (.write a wdata)) := by
  have address' : (b.next i).adaptor.addressO = a := by
    simp [Burst.next, Adaptor.next, state, out, address]
  cases resp : i.respI with
  | false =>
    have state' : (b.next i).adaptor.state = .w k := by
      simp [Burst.next, Adaptor.next, state, nextState, resp]
    have count' : (b.next i).count = k := by simp [Burst.next, Burst.beat, resp, count]
    have store' : (b.next i).store = b.store := by simp [Burst.next, resp]
    refine .writes state' count' ?_ address' ?_
    · rw [store']
      exact others
    · rw [store', line]
  | true =>
    have store' : (b.next i).store = Function.update b.store (lineAddr a)
        (setSlice (b.store (lineAddr a)) k.val (slice 64 wdata k.val)) := by
      simp [Burst.next, resp, state, writeO, address, count, Adaptor.burstO, writeMux, held]
    have extended : slices 64 ((b.next i).store (lineAddr a)) (k.val + 1) =
        slices 64 wdata (k.val + 1) := by
      rw [store', Function.update_self, slices_setSlice_succ _ _ (by omega), line, slices_succ]
    have others' : ∀ l, l ≠ lineAddr a → (b.next i).store l = mem l := by
      intro l other
      rw [store', Function.update_of_ne other, others l other]
    have count' : (b.next i).count = k + 1 := by
      simp [Burst.next, Burst.beat, resp, state, writeO, count]
    by_cases last : k = 3
    · have state' : (b.next i).adaptor.state = .finished := by
        simp [Burst.next, Adaptor.next, state, nextState, resp, last]
      refine .hasWritten state' ?_ ?_
      · rw [count', last]
        rfl
      · funext l
        by_cases here : l = lineAddr a
        · rw [here, Function.update_self]
          exact whole last extended
        · rw [Function.update_of_ne here, others' l here]
    · have state' : (b.next i).adaptor.state = .w (k + 1) := by
        simp [Burst.next, Adaptor.next, state, nextState, resp, last]
      have beat : (k + 1).val = k.val + 1 := by omega
      refine .writes state' count' others' address' ?_
      rw [beat]
      exact extended

private theorem backs_finished (state : b.adaptor.state = .finished) (count : b.count = 0)
    (pend : Option Request) : Backs b.store (b.next i) pend := by
  refine .reset ?_ ?_ ?_
  · simp [Burst.next, Adaptor.next, state, nextState]
  · simp [Burst.next, Burst.beat, state, readO, writeO, count]
  · simp [Burst.next, state, writeO]

/-- One cycle of the adaptor and its memory, with the request held and the beats in order. -/
theorem backs_next {pend : Option Request} (backs : Backs mem b pend)
    (held : ∀ r ∈ pend, Burst.offer i = some r)
    (oneKind : ¬(i.readI = true ∧ i.writeI = true)) (answers : b.Answers i) :
    Backs (b.memNext i mem) (b.next i)
      (if respO b.adaptor.state then none else Burst.offer i) := by
  cases backs with
  | reset state count store =>
    rw [memNext_quiet (by simp [state]), state]
    exact backs_reset state count store oneKind
  | reads state count store address line =>
    rw [memNext_quiet (by simp [state]), state, held _ rfl]
    exact backs_reads state count store address line answers
  | @writes a wdata k state count others address line =>
    have onWires : i.lineI = wdata := by
      have offered := held _ rfl
      cases read : i.readI <;> cases write : i.writeI <;>
        simp_all [Burst.offer, request]
    rw [memNext_quiet (by simp [state]), state, held _ rfl]
    exact backs_writes state count others address line onWires
  | hasRead state count store line =>
    have after : b.memNext i mem = b.store := by
      rw [Burst.memNext, state, held _ rfl, store]
      rfl
    rw [after]
    exact backs_finished state count _
  | hasWritten state count store =>
    have after : b.memNext i mem = b.store := by
      rw [Burst.memNext, state, held _ rfl, store]
      rfl
    rw [after]
    exact backs_finished state count _

theorem backs_answer {pend : Option Request} (backs : Backs mem b pend)
    (resp : respO b.adaptor.state = true) :
    ∃ r, pend = some r ∧ ∀ a, r = .read a → b.adaptor.lineO i = mem (lineAddr a) := by
  have finished : b.adaptor.state = .finished := by simpa [respO] using resp
  cases backs with
  | reset state => simp [state] at finished
  | reads state => simp [state] at finished
  | writes state => simp [state] at finished
  | hasRead state count store line =>
    refine ⟨_, rfl, ?_⟩
    intro a same
    obtain rfl := Request.read.inj same
    rw [Adaptor.lineO, state]
    exact line
  | hasWritten =>
    refine ⟨_, rfl, ?_⟩
    intro a same
    cases same

end Next

end Mp4.Memory.BurstMemory
