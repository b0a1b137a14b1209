import Mp4.Lib.Replacement
import Mp4.Memory.EightWay.Cache

/-!
`modular_cache` with default parameters refines a flat memory of lines. The output
registers show the set of the last cycle's request; state stall is left only for a held
request, so in every other state they show the set that is being worked on.
-/

set_option autoImplicit false
set_option relaxedAutoImplicit false

namespace Mp4.Memory.EightWay.Refinement

open Mp4.Lib.WriteBack Mp4.Lib.Replacement Mp4.Memory.Address Mp4.Memory.Arrays
open Mp4.Memory.EightWay.Datapath Mp4.Memory.EightWay.Cache

/-- The arrays read as a write-back store. -/
def view (a : Arrays 3) : View (Fin 8) (BitVec 3) LineAddr Line where
  addr w s := lineOf (a.tags w s) s
  data := a.data
  live := a.valid
  owed := a.dirty

/-- The output registers show the set of the request. -/
def Current (c : ModularCache 3) (r : Request) : Prop := c.outs = c.arrays.shown r.address

theorem hitCheck_iff (h : Fin 8 → Bool) : hitCheck h = true ↔ ∃ w, h w = true := by
  constructor
  · intro some
    simp only [hitCheck, Bool.or_eq_true] at some
    rcases some with ((((((h | h) | h) | h) | h) | h) | h) | h <;> exact ⟨_, h⟩
  · rintro ⟨w, hw⟩
    match w with
    | 0 | 1 | 2 | 3 | 4 | 5 | 6 | 7 => simp [hitCheck, hw]

theorem hitWay_hits {h : Fin 8 → Bool} (some : hitCheck h = true) : h (hitWay h) = true := by
  simp only [hitCheck, Bool.or_eq_true] at some
  unfold hitWay
  split_ifs <;> simp_all

section Outputs

variable {c : ModularCache 3} {r : Request} {resp : Bool} {rdata : Line}

theorem next_current : Current (c.next r resp rdata) r := outs_next_eq_shown _ _ _ _ _

theorem hits_eq (current : Current c r) (w : Fin 8) :
    c.hits r w = (tag 3 r.address == c.arrays.tags w (index 3 r.address) &&
      c.arrays.valid w (index 3 r.address)) := by
  have tags : tagArrayOut 3 c.outs w = c.arrays.tags w (index 3 r.address) := by
    rw [current]
    exact BitVec.setWidth_eq _
  rw [ModularCache.hits, hit, tags, current]
  rfl

variable (resp rdata) in
private theorem next_replace (current : Current c r) (quiet : c.memResp r = false) :
    (c.next r resp rdata).replace = c.replace := by
  have load : (c.loads r).lruLoad = false := quiet
  have plru : (c.next r resp rdata).outs.plru = c.outs.plru := by
    rw [current]
    simp [ModularCache.next, Outs.next, load, array, Arrays.shown]
  rw [ModularCache.replace, plru, ModularCache.replace]

variable (r resp rdata) in
private theorem next_tags (state : c.state ≠ .missClean) :
    (c.next r resp rdata).arrays.tags = c.arrays.tags ∧
    (c.next r resp rdata).arrays.valid = c.arrays.valid := by
  have none : ∀ w, c.installs r w = false := by
    intro w
    cases h : c.state <;> simp_all [ModularCache.installs, tagArrayLoad]
  exact ⟨arrayNext_none none, arrayNext_none none⟩

theorem cachelineOut_stored (current : Current c r) :
    c.cachelineOut r = c.arrays.data (cachelineSel c.state r.read r.write (c.hits r) c.replace)
      (index 3 r.address) := by
  rw [ModularCache.cachelineOut, current, Arrays.shown]
  simp only [dataIndex_eq]

variable (resp rdata) in
theorem view_idle (state : c.state = .stall ∨ c.state = .hit)
    (noWrite : ∀ w, writesWay c.state r.read r.write (c.hits r) w = false) :
    view (c.next r resp rdata).arrays = view c.arrays := by
  have installs : ∀ w, tagArrayLoad c.state r.read r.write c.replace w = false := by
    intro w
    rcases state with state | state <;> simp [tagArrayLoad, state]
  obtain ⟨tags, valid⟩ := next_tags r resp rdata
    (by rcases state with state | state <;> simp [state] : c.state ≠ .missClean)
  have dirty : (c.next r resp rdata).arrays.dirty = c.arrays.dirty :=
    arrayNext_none fun w => by
      simp only [ModularCache.loads, dirtyLoad, noWrite]
      rcases state with state | state <;> simp [state]
  have data : (c.next r resp rdata).arrays.data = c.arrays.data :=
    arrayNext_none fun w => by simp [ModularCache.loads, writeSelWay, noWrite, installs]
  simp only [view, tags, valid, dirty, data]

theorem view_write (state : c.state = .hit) (answered : c.memResp r = true)
    (write : r.read = false ∧ r.write = true) :
    view (c.next r resp rdata).arrays =
      store (view c.arrays) (hitWay (c.hits r)) (index 3 r.address) r.wdata := by
  have only : ∀ w', writesWay c.state r.read r.write (c.hits r) w' =
      (w' == hitWay (c.hits r)) := by
    intro w'
    have answered' : done c.state (c.hits r) = true := answered
    rw [writesWay, answered', write.1, write.2]
    simp
  have installs : ∀ w, tagArrayLoad c.state r.read r.write c.replace w = false := by
    intro w
    simp [tagArrayLoad, state]
  obtain ⟨tags, valid⟩ := next_tags r resp rdata
    (by simp [state] : c.state ≠ .missClean)
  have dirty : (c.next r resp rdata).arrays.dirty =
      put c.arrays.dirty (hitWay (c.hits r)) (index 3 r.address) true := by
    have load : ∀ w', (c.loads r).dirtyLoad w' = (w' == hitWay (c.hits r)) := by
      intro w'
      simp only [ModularCache.loads, dirtyLoad, only]
      simp [state]
    refine (arrayNext_only load).trans ?_
    simp only [ModularCache.loads, dirtyIn, only, beq_self_eq_true]
  have data : (c.next r resp rdata).arrays.data =
      put c.arrays.data (hitWay (c.hits r)) (index 3 r.address) r.wdata := by
    have load : ∀ w', (c.loads r).writeSelWay w' = (w' == hitWay (c.hits r)) := by
      intro w'
      simp [ModularCache.loads, writeSelWay, only, installs]
    refine (arrayNext_only load).trans ?_
    simp [ModularCache.loads, dataIn, writeReadSel, only, dataIndex_eq]
  simp only [view, store, tags, valid, dirty, data]

variable (r resp rdata) in
theorem view_clean (state : c.state = .missDirty) :
    view (c.next r resp rdata).arrays =
      clean (view c.arrays) c.replace (index 3 r.address) := by
  have noWrite : ∀ w, writesWay c.state r.read r.write (c.hits r) w = false := by
    intro w
    simp [writesWay, done, state]
  have installs : ∀ w, tagArrayLoad c.state r.read r.write c.replace w = false := by
    intro w
    simp [tagArrayLoad, state]
  obtain ⟨tags, valid⟩ := next_tags r resp rdata
    (by simp [state] : c.state ≠ .missClean)
  have dirty : (c.next r resp rdata).arrays.dirty =
      put c.arrays.dirty c.replace (index 3 r.address) false := by
    have load : ∀ w', (c.loads r).dirtyLoad w' = (w' == c.replace) := by
      intro w'
      simp only [ModularCache.loads, dirtyLoad, noWrite]
      simp [state]
    refine (arrayNext_only load).trans ?_
    simp [ModularCache.loads, dirtyIn, noWrite]
  have data : (c.next r resp rdata).arrays.data = c.arrays.data :=
    arrayNext_none fun w => by simp [ModularCache.loads, writeSelWay, noWrite, installs]
  simp only [view, clean, tags, valid, dirty, data]

variable (resp rdata) in
theorem view_refill (state : c.state = .missClean) (active : r.active = true) :
    view (c.next r resp rdata).arrays =
      refill (view c.arrays) setIndex c.replace (lineAddr r.address) rdata := by
  have active' : (r.read || r.write) = true := active
  have noWrite : ∀ w, writesWay c.state r.read r.write (c.hits r) w = false := by
    intro w
    simp [writesWay, done, state]
  have only : ∀ w, tagArrayLoad c.state r.read r.write c.replace w = (w == c.replace) := by
    intro w
    simp [tagArrayLoad, state, active']
  have tags : (c.next r resp rdata).arrays.tags =
      put c.arrays.tags c.replace (index 3 r.address) (tag 3 r.address) := by
    refine (arrayNext_only only).trans ?_
    rw [BitVec.setWidth_eq]
  have valid : (c.next r resp rdata).arrays.valid =
      put c.arrays.valid c.replace (index 3 r.address) true := by
    refine (arrayNext_only only).trans ?_
    simp only [ModularCache.loads, ModularCache.installs, only, beq_self_eq_true]
  have dirty : (c.next r resp rdata).arrays.dirty = c.arrays.dirty :=
    arrayNext_none fun w => by
      simp only [ModularCache.loads, dirtyLoad, noWrite]
      simp [state]
  have data : (c.next r resp rdata).arrays.data =
      put c.arrays.data c.replace (index 3 r.address) rdata := by
    have load : ∀ w', (c.loads r).writeSelWay w' = (w' == c.replace) := by
      intro w'
      simp [ModularCache.loads, writeSelWay, noWrite, only]
    refine (arrayNext_only load).trans ?_
    simp [ModularCache.loads, dataIn, writeReadSel, noWrite, dataIndex_eq]
  have addr : (fun w s' => lineOf
        (put c.arrays.tags c.replace (index 3 r.address) (tag 3 r.address) w s') s') =
      put (view c.arrays).addr c.replace (index 3 r.address) (lineAddr r.address) := by
    funext w s'
    unfold put
    split_ifs with this
    · rw [this.2]
      exact lineOf_tag r.address
    · rfl
  simp only [view, refill, setIndex_lineAddr, tags, valid, dirty, data, addr]

end Outputs

/-- The invariant, by controller state; `pend` is the request that is being held. -/
inductive Holds (mem flat : LineAddr → Line) : ModularCache 3 → Option Request → Prop
  | stall {c : ModularCache 3} {pend : Option Request} (state : c.state = .stall)
      (sound : Sound (fun _ => True) setIndex mem flat .settled (view c.arrays)) :
      Holds mem flat c pend
  | hit {c : ModularCache 3} {r : Request} (state : c.state = .hit) (active : r.active = true)
      (current : Current c r)
      (sound : Sound (fun _ => True) setIndex mem flat .settled (view c.arrays)) :
      Holds mem flat c (some r)
  | missDirty {c : ModularCache 3} {r : Request} (state : c.state = .missDirty)
      (active : r.active = true) (current : Current c r)
      (sound : Sound (fun _ => True) setIndex mem flat
        (.evicting c.replace (lineAddr r.address)) (view c.arrays)) : Holds mem flat c (some r)
  | missClean {c : ModularCache 3} {r : Request} (state : c.state = .missClean)
      (active : r.active = true) (current : Current c r)
      (sound : Sound (fun _ => True) setIndex mem flat
        (.filling c.replace (lineAddr r.address)) (view c.arrays)) : Holds mem flat c (some r)

def backing (c : ModularCache 3) (r : Request) (resp : Bool) (mem : LineAddr → Line) :
    LineAddr → Line :=
  if pmemWrite c.state && resp then
    Function.update mem (lineAddr (c.pmemAddress r)) (c.cachelineOut r)
  else mem

/-- The flat memory after a cycle: an answered write has taken effect. -/
def flatNext (answered : Bool) (r : Request) (flat : LineAddr → Line) : LineAddr → Line :=
  if answered && r.write then Function.update flat (lineAddr r.address) r.wdata else flat

def pendNext (answered : Bool) (r : Request) : Option Request :=
  if r.active && !answered then some r else none

section Next

variable {mem flat : LineAddr → Line} {c : ModularCache 3} {r : Request} {resp : Bool}
  {rdata : Line}

theorem memResp_quiet (state : c.state ≠ .hit) : c.memResp r = false := by
  cases h : c.state <;> simp_all [ModularCache.memResp, done]

theorem hit_holds (current : Current c r) (answered : c.memResp r = true) :
    (view c.arrays).live (hitWay (c.hits r)) (setIndex (lineAddr r.address)) = true ∧
    (view c.arrays).addr (hitWay (c.hits r)) (setIndex (lineAddr r.address)) =
      lineAddr r.address := by
  have check : hitCheck (c.hits r) = true := by
    have parts : (c.state == .hit && hitCheck (c.hits r)) = true := answered
    exact (Bool.and_eq_true _ _ ▸ parts).2
  have found := hitWay_hits check
  rw [hits_eq current] at found
  obtain ⟨same, valid⟩ := (Bool.and_eq_true _ _).mp found
  rw [setIndex_lineAddr]
  refine ⟨valid, ?_⟩
  change lineOf (c.arrays.tags _ _) _ = _
  rw [← eq_of_beq same, lineOf_tag]

theorem miss_absent (state : c.state = .hit) (current : Current c r)
    (unanswered : c.memResp r = false) :
    Misses setIndex (view c.arrays) (lineAddr r.address) := by
  intro w live addr
  have noHit : hitCheck (c.hits r) = false := by
    simpa [ModularCache.memResp, done, state] using unanswered
  rw [setIndex_lineAddr] at live addr
  have same : c.arrays.tags w (index 3 r.address) = tag 3 r.address := by
    refine lineOf_inj (s := index 3 r.address) ?_
    rw [lineOf_tag]
    exact addr
  have hit : c.hits r w = true := by
    have valid : c.arrays.valid w (index 3 r.address) = true := live
    rw [hits_eq current, same, valid]
    simp
  exact Bool.false_ne_true (noHit ▸ (hitCheck_iff _).mpr ⟨w, hit⟩)

variable (resp rdata) in
theorem nextState_hit (state : c.state = .hit) (current : Current c r) :
    (c.next r resp rdata).state =
      if c.memResp r then .stall
      else if c.arrays.dirty c.replace (index 3 r.address) then .missDirty else .missClean := by
  have resps : c.memResp r = hitCheck (c.hits r) := by
    simp [ModularCache.memResp, done, state]
  have dirty : c.victimDirty = c.arrays.dirty c.replace (index 3 r.address) := by
    rw [ModularCache.victimDirty, current]
    rfl
  simp only [ModularCache.next, state, nextState, resps, dirty]

private theorem holds_stall (state : c.state = .stall)
    (sound : Sound (fun _ => True) setIndex mem flat .settled (view c.arrays)) :
    Holds (backing c r resp mem) (flatNext (c.memResp r) r flat) (c.next r resp rdata)
      (pendNext (c.memResp r) r) := by
  have quiet : c.memResp r = false := memResp_quiet (by simp [state])
  have noWrite : ∀ w, writesWay c.state r.read r.write (c.hits r) w = false := by
    intro w
    simp [writesWay, done, state]
  have idle := view_idle resp rdata (.inl state) noWrite
  have state' : (c.next r resp rdata).state = if r.active then .hit else .stall := by
    simp only [ModularCache.next, state, nextState, Request.active]
    rfl
  have same : backing c r resp mem = mem := by simp [backing, pmemWrite, state]
  rw [quiet, same, flatNext, Bool.false_and]
  cases active : r.active with
  | false =>
    rw [active] at state'
    refine .stall state' ?_
    rw [idle]
    exact sound
  | true =>
    have pend : pendNext false r = some r := by simp [pendNext, active]
    rw [active] at state'
    rw [pend]
    refine .hit state' active next_current ?_
    rw [idle]
    exact sound

private theorem holds_hit (state : c.state = .hit) (active : r.active = true)
    (current : Current c r)
    (sound : Sound (fun _ => True) setIndex mem flat .settled (view c.arrays))
    (oneKind : r.read = true → r.write = false) :
    Holds (backing c r resp mem) (flatNext (c.memResp r) r flat) (c.next r resp rdata)
      (pendNext (c.memResp r) r) := by
  have same : backing c r resp mem = mem := by simp [backing, pmemWrite, state]
  have state' := nextState_hit resp rdata state current
  rw [same]
  cases answered : c.memResp r with
  | true =>
    rw [answered] at state'
    refine .stall state' ?_
    obtain ⟨live, addr⟩ := hit_holds current answered
    cases read : r.read with
    | true =>
      have noWrite : ∀ w, writesWay c.state r.read r.write (c.hits r) w = false := by
        intro w
        simp [writesWay, read]
      rw [view_idle _ _ (.inr state) noWrite, flatNext, oneKind read]
      exact sound
    | false =>
      have write : r.write = true := by
        have either : (r.read || r.write) = true := active
        simpa [read] using either
      have wrote := sound.stored live addr (d := r.wdata)
      rw [setIndex_lineAddr] at wrote
      rw [view_write state answered ⟨read, write⟩, flatNext, write]
      exact wrote
  | false =>
    have noWrite : ∀ w, writesWay c.state r.read r.write (c.hits r) w = false := by
      intro w
      have none : done c.state (c.hits r) = false := answered
      simp [writesWay, none]
    have idle := view_idle resp rdata (.inr state) noWrite
    have absent := miss_absent state current answered
    have owed : (view c.arrays).owed c.replace (setIndex (lineAddr r.address)) =
        c.arrays.dirty c.replace (index 3 r.address) := by
      rw [setIndex_lineAddr]
      rfl
    have pend : pendNext false r = some r := by simp [pendNext, active]
    rw [answered] at state'
    rw [pend, flatNext, Bool.false_and]
    cases dirty : c.arrays.dirty c.replace (index 3 r.address) with
    | true =>
      rw [dirty] at state' owed
      refine .missDirty state' active next_current ?_
      rw [idle, next_replace _ _ current answered]
      exact sound.evict owed absent
    | false =>
      rw [dirty] at state' owed
      refine .missClean state' active next_current ?_
      rw [idle, next_replace _ _ current answered]
      exact sound.reuse owed absent

theorem pmemAddress_missDirty (state : c.state = .missDirty) (current : Current c r) :
    lineAddr (c.pmemAddress r) = (view c.arrays).addr c.replace (index 3 r.address) := by
  have out : (tagArrayOut 3 c.outs c.replace).setWidth 24 =
      c.arrays.tags c.replace (index 3 r.address) := by
    rw [tagArrayOut, BitVec.setWidth_eq, BitVec.setWidth_eq, current]
    rfl
  rw [ModularCache.pmemAddress, out, newAddress, newAddressSel, state]
  exact lineAddr_victim _ _

theorem pmemAddress_missClean (state : c.state = .missClean) :
    lineAddr (c.pmemAddress r) = lineAddr r.address := by
  rw [ModularCache.pmemAddress, newAddress, newAddressSel, state]
  exact lineAddr_append _

variable (resp rdata) in
private theorem holds_missDirty (state : c.state = .missDirty) (active : r.active = true)
    (current : Current c r)
    (sound : Sound (fun _ => True) setIndex mem flat (.evicting c.replace (lineAddr r.address))
      (view c.arrays)) :
    Holds (backing c r resp mem) flat (c.next r resp rdata) (some r) := by
  have quiet : c.memResp r = false := memResp_quiet (by simp [state])
  have replace' := next_replace resp rdata current quiet
  have view' := view_clean r resp rdata state
  rw [← setIndex_lineAddr] at view'
  have state' : (c.next r resp rdata).state = if resp then .missClean else .missDirty := by
    simp only [ModularCache.next, nextState, state]
  cases answered : resp with
  | false =>
    rw [answered] at view' replace' state'
    have same : backing c r false mem = mem := by simp [backing]
    refine .missDirty state' active next_current ?_
    rw [view', replace', same]
    exact sound.evictWait
  | true =>
    rw [answered] at view' replace' state'
    have line : c.cachelineOut r =
        (view c.arrays).data c.replace (setIndex (lineAddr r.address)) := by
      rw [cachelineOut_stored current, state, setIndex_lineAddr]
      rfl
    refine .missClean state' active next_current ?_
    rw [view', replace']
    refine sound.evicted fun l _ => ?_
    rw [backing, state, pmemAddress_missDirty state current, line, setIndex_lineAddr]
    rfl

private theorem holds_missClean (state : c.state = .missClean) (active : r.active = true)
    (current : Current c r)
    (sound : Sound (fun _ => True) setIndex mem flat (.filling c.replace (lineAddr r.address))
      (view c.arrays))
    (answer : resp = true → rdata = mem (lineAddr r.address)) :
    Holds (backing c r resp mem) flat (c.next r resp rdata) (some r) := by
  have same : backing c r resp mem = mem := by simp [backing, pmemWrite, state]
  have quiet : c.memResp r = false := memResp_quiet (by simp [state])
  have replace' := next_replace resp rdata current quiet
  have view' := view_refill resp rdata state active
  have state' : (c.next r resp rdata).state = if resp then .hit else .missClean := by
    simp only [ModularCache.next, nextState, state]
  rw [same]
  cases answered : resp with
  | false =>
    rw [answered] at view' replace' state'
    refine .missClean state' active next_current ?_
    rw [view', replace']
    exact sound.fillWait
  | true =>
    rw [answered] at view' state'
    refine .hit state' active next_current ?_
    rw [view']
    exact sound.filled fun _ => answer answered

/-- One cycle of the cache: the pending request is still there, a refill is answered
with the memory's line, and a write-back takes effect. -/
theorem holds_next {pend : Option Request} (inv : Holds mem flat c pend)
    (held : ∀ r', pend = some r' → r = r') (oneKind : r.read = true → r.write = false)
    (answer : pmemRead c.state = true → resp = true →
      rdata = mem (lineAddr (c.pmemAddress r))) :
    Holds (backing c r resp mem) (flatNext (c.memResp r) r flat) (c.next r resp rdata)
      (pendNext (c.memResp r) r) := by
  cases inv with
  | stall state sound => exact holds_stall state sound
  | @hit r' state active current sound =>
    obtain rfl := held r' rfl
    exact holds_hit state active current sound oneKind
  | @missDirty r' state active current sound =>
    obtain rfl := held r' rfl
    have kept := holds_missDirty resp rdata state active current sound
    rw [memResp_quiet (by simp [state])]
    simpa [flatNext, pendNext, active] using kept
  | @missClean r' state active current sound =>
    obtain rfl := held r' rfl
    rw [pmemAddress_missClean state] at answer
    have kept := holds_missClean state active current sound (answer (by rw [state]; rfl))
    rw [memResp_quiet (by simp [state])]
    simpa [flatNext, pendNext, active] using kept

theorem holds_cachelineOut {pend : Option Request} (inv : Holds mem flat c pend)
    (held : ∀ r', pend = some r' → r = r') (answered : c.memResp r = true)
    (read : r.read = true) : c.cachelineOut r = flat (lineAddr r.address) := by
  have inHit : c.state = .hit := by
    by_contra other
    rw [memResp_quiet other] at answered
    cases answered
  cases inv with
  | stall state => simp [state] at inHit
  | @hit r' state active current sound =>
    obtain rfl := held r' rfl
    obtain ⟨live, addr⟩ := hit_holds current answered
    have value := Represents.read sound live addr trivial
    have sel : cachelineSel c.state r.read r.write (c.hits r) c.replace = hitWay (c.hits r) := by
      have answered' : done c.state (c.hits r) = true := answered
      rw [state] at answered' ⊢
      simp only [cachelineSel, answered', read, Bool.true_or, Bool.and_self, if_true]
    rw [setIndex_lineAddr] at value
    rw [cachelineOut_stored current, sel]
    exact value
  | missDirty state => simp [state] at inHit
  | missClean state => simp [state] at inHit

theorem holds_reset (data : Fin 8 → BitVec 3 → Line) (outs : Outs) :
    Holds mem mem (.reset data outs) none :=
  .stall rfl (Represents.empty (fun _ _ => rfl) fun _ _ => rfl)

end Next

end Mp4.Memory.EightWay.Refinement
