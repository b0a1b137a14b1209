import Mp4.Memory.FourWay.Moves

/-!
`cache_4_way` with default parameters refines a flat memory. Its arrays are a write-back
store, in which state miss_dirty evicts and state miss_clean refills the way to replace.
-/

set_option autoImplicit false
set_option relaxedAutoImplicit false

namespace Mp4.Memory.FourWay.Refinement

open Mp4.Lib.Bits Mp4.Lib.WriteBack Mp4.Lib.Replacement Mp4.Memory.Address Mp4.Memory.Arrays
open Mp4.Memory.FourWay.Datapath Mp4.Memory.FourWay.Cache

/-- The invariant, by controller state; `pend` is the request that is being held. -/
inductive Holds (P : LineAddr → Prop) (mem flat : LineAddr → Line) :
    Cache4Way 3 → Option Request → Prop
  | hit {c : Cache4Way 3} {pend : Option Request} (state : c.state = .hit)
      (sound : Sound P setIndex mem flat .settled (view c.arrays)) : Holds P mem flat c pend
  | missDirty {c : Cache4Way 3} {r : Request} (state : c.state = .missDirty)
      (active : r.active = true)
      (sound : Sound P setIndex mem flat (.evicting (c.replace r) (lineAddr r.address))
        (view c.arrays)) : Holds P mem flat c (some r)
  | missClean {c : Cache4Way 3} {r : Request} (state : c.state = .missClean)
      (active : r.active = true)
      (sound : Sound P setIndex mem flat (.filling (c.replace r) (lineAddr r.address))
        (view c.arrays)) : Holds P mem flat c (some r)

def backing (c : Cache4Way 3) (r : Request) (resp : Bool) (rdata : Line)
    (mem : LineAddr → Line) : LineAddr → Line :=
  if pmemWrite c.state && resp then
    Function.update mem (lineAddr (c.pmemAddress r)) (c.cachelineOut r rdata)
  else mem

/-- The flat memory after a cycle: an answered write has taken effect. -/
def flatNext (answered : Bool) (r : Request) (flat : LineAddr → Line) : LineAddr → Line :=
  if answered && r.write then
    Function.update flat (lineAddr r.address)
      (writeWord (flat (lineAddr r.address)) r.address r.wdata r.byteEnable)
  else flat

def pendNext (answered : Bool) (r : Request) : Option Request :=
  if r.active && !answered then some r else none

section Next

variable {P : LineAddr → Prop} {mem mem' flat : LineAddr → Line} {c : Cache4Way 3} {r : Request}
  {resp : Bool} {rdata : Line} {lru : BitVec 3}

theorem pmemAddress_missDirty (state : c.state = .missDirty) :
    lineAddr (c.pmemAddress r) = (view c.arrays).addr (c.replace r) (index 3 r.address) := by
  have none : c.installs r (c.replace r) = false := by
    simp [Cache4Way.installs, tagArrayLoad, state]
  have out : tagArrayOut c.arrays r.address (c.installs r) (c.replace r) =
      c.arrays.tags (c.replace r) (index 3 r.address) := by
    simp [tagArrayOut, array, none]
  rw [Cache4Way.pmemAddress, out, newAddress, newAddressSel, state]
  exact lineAddr_victim _ _

theorem pmemAddress_missClean (state : c.state = .missClean) :
    lineAddr (c.pmemAddress r) = lineAddr r.address := by
  rw [Cache4Way.pmemAddress, newAddress, newAddressSel, state]
  exact lineAddr_append _

private theorem cachelineOut_stored (state : c.state ≠ .missClean)
    (noWrite : ∀ w, writesWay c.state r.read r.write (c.hits r) w = false) :
    c.cachelineOut r rdata =
      c.arrays.data (cachelineSel c.state r.read r.write (c.hits r) (c.replace r))
        (index 3 r.address) := by
  have none : ∀ w, tagArrayLoad c.state r.read r.write (c.replace r) w = false := by
    intro w
    cases h : c.state <;> simp_all [tagArrayLoad]
  simp only [Cache4Way.cachelineOut, cacheLineDataOut, dataArray, dataIndex_eq, if_true,
    Cache4Way.loads, writeEnWay, writeSelWay, noWrite, none]
  exact mergeBytes_zero _ _

theorem cachelineOut_missDirty (state : c.state = .missDirty) :
    c.cachelineOut r rdata = c.arrays.data (c.replace r) (index 3 r.address) := by
  have noWrite : ∀ w, writesWay c.state r.read r.write (c.hits r) w = false := by
    intro w
    simp [writesWay, done, state]
  rw [cachelineOut_stored (by simp [state]) noWrite, state]
  rfl

private theorem backing_quiet (quiet : c.state ≠ .missDirty ∨ resp = false) :
    backing c r resp rdata mem = mem := by
  have none : (pmemWrite c.state && resp) = false := by
    rcases quiet with h | h <;> simp [pmemWrite, h]
  rw [backing, none]
  rfl

private theorem backing_missDirty (state : c.state = .missDirty) : backing c r true rdata mem =
    Function.update mem ((view c.arrays).addr (c.replace r) (setIndex (lineAddr r.address)))
      ((view c.arrays).data (c.replace r) (setIndex (lineAddr r.address))) := by
  rw [backing, pmemAddress_missDirty state, cachelineOut_missDirty state, state,
    setIndex_lineAddr]
  rfl

theorem next_waits {n : Nat} {c : Cache4Way n} (asked : c.state = .hit ∨ r.active = true) :
    (c.next r resp rdata lru).state = .hit ∨
      pendNext (c.memResp r) r = some r ∧ r.active = true := by
  have waits (active : r.active = true) (quiet : c.memResp r = false) :
      pendNext (c.memResp r) r = some r ∧ r.active = true := by
    simp [pendNext, active, quiet]
  by_cases state : c.state = .hit
  · rw [nextState_hit r resp rdata lru state]
    cases waiting : r.active && !c.memResp r with
    | false => exact .inl rfl
    | true =>
      simp only [Bool.and_eq_true, Bool.not_eq_true'] at waiting
      exact .inr (waits waiting.1 waiting.2)
  · have quiet : c.memResp r = false := by simp [Cache4Way.memResp, done, state]
    exact .inr (waits (asked.resolve_left state) quiet)

theorem Holds.asked {pend : Option Request} (inv : Holds P mem flat c pend)
    (held : ∀ r', pend = some r' → r = r') : c.state = .hit ∨ r.active = true := by
  cases inv with
  | hit state => exact .inl state
  | missDirty _ active | missClean _ active => exact .inr (held _ rfl ▸ active)

private theorem Holds.sound {pend : Option Request} (inv : Holds P mem flat c pend)
    (held : ∀ r', pend = some r' → r = r') :
    Sound P setIndex mem flat (phase c r) (view c.arrays) := by
  cases inv with
  | hit state sound =>
    rw [phase_hit state]
    exact sound
  | missDirty state _ sound =>
    obtain rfl := held _ rfl
    rw [phase_missDirty state]
    exact sound
  | missClean state _ sound =>
    obtain rfl := held _ rfl
    rw [phase_missClean state]
    exact sound

private theorem Holds.of_sound {pend : Option Request}
    (waits : c.state = .hit ∨ pend = some r ∧ r.active = true)
    (sound : Sound P setIndex mem flat (phase c r) (view c.arrays)) : Holds P mem flat c pend := by
  cases state : c.state with
  | hit => exact .hit state (phase_hit state r ▸ sound)
  | missDirty =>
    obtain ⟨rfl, active⟩ := waits.resolve_left (by simp [state])
    exact .missDirty state active (phase_missDirty state r ▸ sound)
  | missClean =>
    obtain ⟨rfl, active⟩ := waits.resolve_left (by simp [state])
    exact .missClean state active (phase_missClean state r ▸ sound)

private theorem sound_writeBack {c' : Cache4Way 3} (state : c.state = .missDirty)
    (sound : Sound P setIndex mem flat (phase c r) (view c.arrays))
    (state' : c'.state = if resp then .missClean else .missDirty)
    (view' : view c'.arrays = clean (view c.arrays) (c.replace r) (setIndex (lineAddr r.address)))
    (replace' : c'.replace r = c.replace r)
    (after : ∀ l, P l → mem' l = backing c r resp rdata mem l) :
    Sound P setIndex mem' flat (phase c' r) (view c'.arrays) := by
  rw [phase_missDirty state] at sound
  rw [view']
  cases resp with
  | false =>
    rw [backing_quiet (.inr rfl)] at after
    rw [phase_missDirty state', replace']
    exact (sound.memory after).evictWait
  | true =>
    rw [backing_missDirty state] at after
    rw [phase_missClean state', replace']
    exact sound.evicted after

private theorem sound_fill {c' : Cache4Way 3} (state : c.state = .missClean)
    (sound : Sound P setIndex mem flat (phase c r) (view c.arrays))
    (state' : c'.state = if resp then .hit else .missClean)
    (view' : view c'.arrays =
      refill (view c.arrays) setIndex (c.replace r) (lineAddr r.address) rdata)
    (replace' : c'.replace r = c.replace r)
    (answer : resp = true → P (lineAddr r.address) → rdata = mem (lineAddr r.address)) :
    Sound P setIndex mem flat (phase c' r) (view c'.arrays) := by
  rw [phase_missClean state] at sound
  rw [view']
  cases resp with
  | false =>
    rw [phase_missClean state', replace']
    exact sound.fillWait
  | true =>
    rw [phase_hit state']
    exact sound.filled (answer rfl)

theorem sound_next (asked : c.state = .hit ∨ r.active = true)
    (sound : Sound P setIndex mem flat (phase c r) (view c.arrays))
    (oneKind : r.read = true → r.write = false) (inP : r.write = true → P (lineAddr r.address))
    (answer : c.state = .missClean → resp = true → P (lineAddr r.address) →
      rdata = mem (lineAddr r.address))
    (after : ∀ l, P l → mem' l = backing c r resp rdata mem l) :
    Sound P setIndex mem' (flatNext (c.memResp r) r flat) (phase (c.next r resp rdata lru) r)
      (view (c.next r resp rdata lru).arrays) := by
  have same (other : c.state ≠ .missDirty) : ∀ l, P l → mem' l = mem l := by
    rw [backing_quiet (.inl other)] at after
    exact after
  cases next_move resp rdata lru asked with
  | idle state _ quiet state' view' =>
    rw [phase_hit state] at sound
    rw [quiet, phase_hit state', view']
    exact sound.memory (same (by simp [state]))
  | read state _ kind state' view' =>
    rw [phase_hit state] at sound
    rw [flatNext, oneKind kind, Bool.and_false, if_neg Bool.false_ne_true, phase_hit state', view']
    exact sound.memory (same (by simp [state]))
  | write w state answered kind state' live addr view' =>
    rw [phase_hit state] at sound
    have value := Represents.read sound live addr (inP kind.2)
    rw [flatNext, answered, kind.2, ← written_eq, ← value, phase_hit state', view']
    exact (sound.memory (same (by simp [state]))).stored live addr
  | evict state _ quiet owed absent state' view' replace' =>
    rw [phase_hit state] at sound
    rw [quiet, phase_missDirty state', view', replace']
    exact (sound.memory (same (by simp [state]))).evict owed absent
  | reuse state _ quiet settled absent state' view' replace' =>
    rw [phase_hit state] at sound
    rw [quiet, phase_missClean state', view', replace']
    exact (sound.memory (same (by simp [state]))).reuse settled absent
  | writeBack state quiet state' view' replace' =>
    rw [quiet]
    exact sound_writeBack state sound state' view' replace' after
  | fill state quiet state' view' replace' =>
    have kept := sound_fill state sound state' view' replace' (answer state)
    rw [quiet]
    exact kept.memory (same (by simp [state]))

variable (mem' resp rdata lru) in
/-- One cycle of the cache: the pending request is still there, a refill is answered
with the memory's line, and a write-back takes effect. -/
theorem holds_next {pend : Option Request} (inv : Holds P mem flat c pend)
    (held : ∀ r', pend = some r' → r = r') (oneKind : r.read = true → r.write = false)
    (inP : r.write = true → P (lineAddr r.address))
    (answer : pmemRead c.state = true → resp = true → P (lineAddr (c.pmemAddress r)) →
      rdata = mem (lineAddr (c.pmemAddress r)))
    (after : ∀ l, P l → mem' l = backing c r resp rdata mem l) :
    Holds P mem' (flatNext (c.memResp r) r flat) (c.next r resp rdata lru)
      (pendNext (c.memResp r) r) := by
  have asked := inv.asked held
  apply Holds.of_sound (next_waits asked)
  apply sound_next asked (inv.sound held) oneKind inP _ after
  intro state
  rw [pmemAddress_missClean state] at answer
  exact answer (by rw [state]; rfl)

theorem holds_memRdata {pend : Option Request} (inv : Holds P mem flat c pend)
    (answered : c.memResp r = true) (read : r.read = true) (inP : P (lineAddr r.address)) :
    c.memRdata r rdata = readWord (flat (lineAddr r.address)) r.address := by
  have notMiss : c.state = .hit := by
    cases state : c.state <;> simp [Cache4Way.memResp, done, state] at answered ⊢
  have rep : Represents P setIndex (view c.arrays) mem flat := by
    cases inv with
    | hit _ sound => exact sound
    | missDirty state => simp [state] at notMiss
    | missClean state => simp [state] at notMiss
  have noWrite : ∀ w, writesWay c.state r.read r.write (c.hits r) w = false := by
    intro w
    simp [writesWay, read]
  have line : c.cachelineOut r rdata = flat (lineAddr r.address) := by
    obtain ⟨live, addr⟩ := hit_holds notMiss answered
    have value := rep.read live addr inP
    have answered' : done c.state r.read r.write (c.hits r) = true := answered
    have sel :
        cachelineSel c.state r.read r.write (c.hits r) (c.replace r) = hitWay (c.hits r) := by
      rw [notMiss] at answered' ⊢
      simp only [cachelineSel, answered', if_true]
    rw [setIndex_lineAddr] at value
    rw [cachelineOut_stored (by simp [notMiss]) noWrite, sel]
    exact value
  rw [Cache4Way.memRdata, line, memRdata_eq]

theorem holds_reset (data : Fin 4 → BitVec 3 → Line) : Holds P mem mem (.reset data) none :=
  .hit rfl (.empty (fun _ _ => rfl) fun _ _ => rfl)

theorem flatNext_twice (answered : Bool) :
    flatNext answered r (flatNext answered r flat) = flatNext answered r flat := by
  cases h : answered && r.write with
  | false => simp [flatNext, h]
  | true =>
    have twice (line : Line) : writeWord (writeWord line r.address r.wdata r.byteEnable)
        r.address r.wdata r.byteEnable = writeWord line r.address r.wdata r.byteEnable := by
      rw [← written_eq, ← written_eq, written, written, mergeBytes_twice]
    simp [flatNext, h, twice]

end Next

end Mp4.Memory.FourWay.Refinement
