import Mp4.Lib.Replacement
import Mp4.Memory.FourWay.Cache

/-!
The arrays of `cache_4_way` with default parameters as a write-back store, and what one cycle
can do to it. A miss moves from state hit to an eviction or a refill, stays in each for as
long as the next level does not respond, and returns to state hit with the request found.
-/

set_option autoImplicit false
set_option relaxedAutoImplicit false

namespace Mp4.Memory.FourWay.Refinement

open Mp4.Lib.Bits Mp4.Lib.WriteBack Mp4.Lib.Replacement Mp4.Memory.Address Mp4.Memory.Arrays
open Mp4.Memory.FourWay.Datapath Mp4.Memory.FourWay.Cache

/-- The arrays read as a write-back store. -/
def view (a : Arrays 3) : View (Fin 4) (BitVec 3) LineAddr Line where
  addr w s := lineOf (a.tags w s) s
  data := a.data
  live := a.valid
  owed := a.dirty

section Arrays

variable {s : BitVec 3} {v : Fin 4}

private theorem dataArrayNext_only {f : Fin 4 → BitVec 3 → Line} {en : Fin 4 → BitVec 32}
    {x : Fin 4 → Line} (only : ∀ w, w ≠ v → en w = 0#32) :
    (fun w => dataArrayNext (en w) s (x w) (f w)) =
      put f v s (mergeBytes (en v) (x v) (f v s)) := by
  funext w s'
  by_cases this : w = v
  · subst this
    by_cases here : s' = s
    · simp [dataArrayNext, here]
    · simp [dataArrayNext, put, here]
  · simp [dataArrayNext, only w this, mergeBytes_zero, put, this]

private theorem dataArrayNext_none {f : Fin 4 → BitVec 3 → Line} {en : Fin 4 → BitVec 32}
    {x : Fin 4 → Line} (none : ∀ w, en w = 0#32) :
    (fun w => dataArrayNext (en w) s (x w) (f w)) = f := by
  funext w
  simp [dataArrayNext, none, mergeBytes_zero]

end Arrays

section Control

variable {n : Nat} {c : Cache4Way n} {r : Request} {resp : Bool} {rdata : Line} {lru : BitVec 3}

private theorem tagArrayLoad_none (state : c.state ≠ .missClean) (w : Fin 4) :
    tagArrayLoad c.state r.read r.write (c.replace r) w = false := by
  cases h : c.state <;> simp_all [tagArrayLoad]

theorem hits_eq (state : c.state ≠ .missClean) (w : Fin 4) :
    c.hits r w = (tag n r.address == c.arrays.tags w (index n r.address) &&
      c.arrays.valid w (index n r.address)) := by
  have none : c.installs r w = false := tagArrayLoad_none state w
  simp [Cache4Way.hits, hit, tagArrayOut, validOut, array, none]

theorem hitCheck_iff (h : Fin 4 → Bool) : hitCheck h = true ↔ ∃ w, h w = true := by
  constructor
  · intro some
    simp only [hitCheck, Bool.or_eq_true] at some
    rcases some with ((h | h) | h) | h <;> exact ⟨_, h⟩
  · rintro ⟨w, hw⟩
    match w with
    | 0 | 1 | 2 | 3 => simp [hitCheck, hw]

private theorem hitWay_hits {h : Fin 4 → Bool} (some : hitCheck h = true) :
    h (hitWay h) = true := by
  simp only [hitCheck, Bool.or_eq_true] at some
  unfold hitWay
  split_ifs <;> simp_all

theorem hitWay_found (state : c.state = .hit) (answered : c.memResp r = true) :
    c.arrays.valid (hitWay (c.hits r)) (index n r.address) = true ∧
      c.arrays.tags (hitWay (c.hits r)) (index n r.address) = tag n r.address := by
  have check : hitCheck (c.hits r) = true := by
    have parts : (c.state == .hit && (r.read || r.write) && hitCheck (c.hits r)) = true := answered
    exact (Bool.and_eq_true _ _ ▸ parts).2
  have found := hitWay_hits check
  rw [hits_eq (by simp [state])] at found
  obtain ⟨same, valid⟩ := (Bool.and_eq_true _ _).mp found
  exact ⟨valid, (eq_of_beq same).symm⟩

theorem tag_absent (state : c.state = .hit) (active : r.active = true)
    (unanswered : c.memResp r = false) (w : Fin 4)
    (valid : c.arrays.valid w (index n r.address) = true) :
    c.arrays.tags w (index n r.address) ≠ tag n r.address := by
  intro same
  have noHit : hitCheck (c.hits r) = false := by
    have active' : (r.read || r.write) = true := active
    simpa [Cache4Way.memResp, done, state, active'] using unanswered
  have hit : c.hits r w = true := by
    rw [hits_eq (by simp [state]), same, valid]
    simp
  exact Bool.false_ne_true (noHit ▸ (hitCheck_iff _).mpr ⟨w, hit⟩)

theorem writesWay_none (state : c.state ≠ .hit) (w : Fin 4) :
    writesWay c.state r.read r.write (c.hits r) w = false := by
  simp [writesWay, done, state]

private theorem writesWay_only (answered : c.memResp r = true)
    (write : r.read = false ∧ r.write = true) (w : Fin 4) :
    writesWay c.state r.read r.write (c.hits r) w = (w == hitWay (c.hits r)) := by
  have answered' : done c.state r.read r.write (c.hits r) = true := answered
  rw [writesWay, answered', write.1, write.2]
  simp

private theorem next_plru (quiet : c.memResp r = false) :
    (c.next r resp rdata lru).arrays.plru = c.arrays.plru := by
  have load : (c.loads r lru).lruLoad = false := quiet
  simp [Cache4Way.next, Arrays.next, load, arrayNext]

theorem next_replace (quiet : c.memResp r = false) :
    (c.next r resp rdata lru).replace r = c.replace r := by
  simp only [Cache4Way.replace, next_plru quiet]

variable (r resp rdata lru) in
theorem next_tags (state : c.state ≠ .missClean) :
    (c.next r resp rdata lru).arrays.tags = c.arrays.tags ∧
    (c.next r resp rdata lru).arrays.valid = c.arrays.valid := by
  have none : ∀ w, c.installs r w = false := tagArrayLoad_none state
  exact ⟨arrayNext_none none, arrayNext_none none⟩

variable (resp rdata lru) in
theorem next_tags_refill (state : c.state = .missClean) (active : r.active = true) :
    (c.next r resp rdata lru).arrays.tags =
        put c.arrays.tags (c.replace r) (index n r.address) (tag n r.address) ∧
      (c.next r resp rdata lru).arrays.valid =
        put c.arrays.valid (c.replace r) (index n r.address) true := by
  have active' : (r.read || r.write) = true := active
  have only : ∀ w, tagArrayLoad c.state r.read r.write (c.replace r) w = (w == c.replace r) := by
    intro w
    simp [tagArrayLoad, state, active']
  refine ⟨arrayNext_only only, (arrayNext_only only).trans ?_⟩
  simp only [Cache4Way.loads, Cache4Way.installs, only, beq_self_eq_true]

variable (resp rdata lru) in
theorem next_dirty (state : c.state ≠ .missDirty)
    (noWrite : ∀ w, writesWay c.state r.read r.write (c.hits r) w = false) :
    (c.next r resp rdata lru).arrays.dirty = c.arrays.dirty := by
  apply arrayNext_none
  intro w
  simp only [Cache4Way.loads, dirtyLoad, noWrite]
  simp [state]

variable (resp rdata lru) in
theorem next_dirty_write (state : c.state = .hit) (answered : c.memResp r = true)
    (write : r.read = false ∧ r.write = true) :
    (c.next r resp rdata lru).arrays.dirty =
      put c.arrays.dirty (hitWay (c.hits r)) (index n r.address) true := by
  have only := writesWay_only answered write
  have load : ∀ w, (c.loads r lru).dirtyLoad w = (w == hitWay (c.hits r)) := by
    intro w
    simp only [Cache4Way.loads, dirtyLoad, only]
    simp [state]
  refine (arrayNext_only load).trans ?_
  simp only [Cache4Way.loads, dirtyIn, only, beq_self_eq_true]

variable (r resp rdata lru) in
theorem next_dirty_clean (state : c.state = .missDirty) :
    (c.next r resp rdata lru).arrays.dirty =
      put c.arrays.dirty (c.replace r) (index n r.address) false := by
  have noWrite := writesWay_none (c := c) (r := r) (by simp [state])
  have load : ∀ w, (c.loads r lru).dirtyLoad w = (w == c.replace r) := by
    intro w
    simp only [Cache4Way.loads, dirtyLoad, noWrite]
    simp [state]
  refine (arrayNext_only load).trans ?_
  simp [Cache4Way.loads, dirtyIn, noWrite]

variable (r resp rdata lru) in
theorem nextState_hit (state : c.state = .hit) :
    (c.next r resp rdata lru).state =
      if r.active && !c.memResp r then
        if c.arrays.dirty (c.replace r) (index n r.address) then .missDirty else .missClean
      else .hit := by
  have resps : c.memResp r = (r.active && hitCheck (c.hits r)) := by
    simp [Cache4Way.memResp, done, state, Request.active]
  have dirty : (r.active && !c.memResp r) = true →
      c.victimDirty r = c.arrays.dirty (c.replace r) (index n r.address) := by
    intro waiting
    have unanswered : c.memResp r = false := by
      cases h : c.memResp r <;> simp [h] at waiting ⊢
    have noLoad : ∀ w, dirtyLoad c.state r.read r.write (c.hits r) (c.replace r) w = false := by
      intro w
      have none : done c.state r.read r.write (c.hits r) = false := unanswered
      simp only [dirtyLoad, writesWay, none]
      simp [state]
    simp [Cache4Way.victimDirty, dirtyOut, array, noLoad]
  have next : (c.next r resp rdata lru).state =
      if r.active then
        if hitCheck (c.hits r) then .hit else if c.victimDirty r then .missDirty else .missClean
      else .hit := by
    simp only [Cache4Way.next, state, nextState, Request.active]
    rfl
  rw [next]
  rw [resps] at dirty ⊢
  cases active : r.active with
  | false => rfl
  | true =>
    rw [active] at dirty
    cases check : hitCheck (c.hits r) with
    | true => rfl
    | false =>
      rw [check] at dirty
      rw [dirty rfl]
      rfl

end Control

section Step

variable {c : Cache4Way 3} {r : Request} {resp : Bool} {rdata : Line} {lru : BitVec 3}

variable (resp rdata lru) in
private theorem view_idle (state : c.state = .hit)
    (noWrite : ∀ w, writesWay c.state r.read r.write (c.hits r) w = false) :
    view (c.next r resp rdata lru).arrays = view c.arrays := by
  have installs := tagArrayLoad_none (c := c) (r := r) (by simp [state])
  obtain ⟨tags, valid⟩ := next_tags r resp rdata lru (by simp [state] : c.state ≠ _)
  have dirty := next_dirty resp rdata lru (by simp [state]) noWrite
  have data : (c.next r resp rdata lru).arrays.data = c.arrays.data :=
    dataArrayNext_none fun w => by
      simp [Cache4Way.loads, writeEnWay, writeSelWay, noWrite, installs]
  simp only [view, tags, valid, dirty, data]

def written (r : Request) (line : Line) : Line :=
  mergeBytes (memByteEnable256 r.byteEnable r.address) (memWdata256 r.wdata) line

private theorem view_write (state : c.state = .hit) (answered : c.memResp r = true)
    (write : r.read = false ∧ r.write = true) :
    let w := hitWay (c.hits r)
    let s := index 3 r.address
    view (c.next r resp rdata lru).arrays =
      store (view c.arrays) w s (written r (c.arrays.data w s)) := by
  intro w s
  have only := writesWay_only answered write
  have installs := tagArrayLoad_none (c := c) (r := r) (by simp [state])
  obtain ⟨tags, valid⟩ := next_tags r resp rdata lru (by simp [state] : c.state ≠ _)
  have dirty : (c.next r resp rdata lru).arrays.dirty = put c.arrays.dirty w s true :=
    next_dirty_write resp rdata lru state answered write
  have data : (c.next r resp rdata lru).arrays.data =
      put c.arrays.data w s (written r (c.arrays.data w s)) := by
    have en : ∀ w', w' ≠ w → writeEnWay (c.loads r lru).writeSelWay
        (memByteEnable256 r.byteEnable r.address) w' = 0#32 := by
      intro w' ne
      have other : ¬w' = hitWay (c.hits r) := ne
      simp [Cache4Way.loads, writeEnWay, writeSelWay, only, installs, other]
    refine (dataArrayNext_only en).trans ?_
    have own : (w == hitWay (c.hits r)) = true := beq_self_eq_true _
    simp only [Cache4Way.loads, writeEnWay, writeSelWay, dataIn, writeReadSel, only, dataIndex_eq,
      own]
    rfl
  simp only [view, store, tags, valid, dirty, data]

variable (r resp rdata lru) in
theorem view_clean (state : c.state = .missDirty) :
    view (c.next r resp rdata lru).arrays =
      clean (view c.arrays) (c.replace r) (index 3 r.address) := by
  have noWrite := writesWay_none (c := c) (r := r) (by simp [state])
  have installs := tagArrayLoad_none (c := c) (r := r) (by simp [state])
  obtain ⟨tags, valid⟩ := next_tags r resp rdata lru (by simp [state] : c.state ≠ _)
  have dirty := next_dirty_clean r resp rdata lru state
  have data : (c.next r resp rdata lru).arrays.data = c.arrays.data :=
    dataArrayNext_none fun w => by
      simp [Cache4Way.loads, writeEnWay, writeSelWay, noWrite, installs]
  simp only [view, clean, tags, valid, dirty, data]

variable (resp rdata lru) in
private theorem view_refill (state : c.state = .missClean) (active : r.active = true) :
    view (c.next r resp rdata lru).arrays =
      refill (view c.arrays) setIndex (c.replace r) (lineAddr r.address) rdata := by
  let v := c.replace r
  let s := index 3 r.address
  have active' : (r.read || r.write) = true := active
  have noWrite := writesWay_none (c := c) (r := r) (by simp [state])
  have only : ∀ w, tagArrayLoad c.state r.read r.write (c.replace r) w = (w == v) := by
    intro w
    simp [tagArrayLoad, state, active', v]
  obtain ⟨tags, valid⟩ := next_tags_refill resp rdata lru state active
  have dirty := next_dirty resp rdata lru (by simp [state]) noWrite
  have data : (c.next r resp rdata lru).arrays.data = put c.arrays.data v s rdata := by
    have en : ∀ w', w' ≠ v → writeEnWay (c.loads r lru).writeSelWay
        (memByteEnable256 r.byteEnable r.address) w' = 0#32 := by
      intro w' ne
      simp [Cache4Way.loads, writeEnWay, writeSelWay, noWrite, only, ne]
    have full : writeEnWay (c.loads r lru).writeSelWay
        (memByteEnable256 r.byteEnable r.address) v = BitVec.allOnes 32 := by
      simp [Cache4Way.loads, writeEnWay, writeSelWay, noWrite, only]
    refine (dataArrayNext_only en).trans ?_
    rw [full, mergeBytes_allOnes _ _ (by decide), dataIndex_eq]
    simp only [Cache4Way.loads, dataIn, writeReadSel, noWrite]
    rfl
  have addr : (fun w s' => lineOf (put c.arrays.tags v s (tag 3 r.address) w s') s') =
      put (view c.arrays).addr v s (lineAddr r.address) := by
    funext w s'
    unfold put
    split_ifs with this
    · rw [this.2]
      exact lineOf_tag r.address
    · rfl
  simp only [view, refill, setIndex_lineAddr, tags, valid, dirty, data, addr, v, s]

end Step

/-- `shadow_memory.read`: the word of the line that `addr[4:2]` selects. -/
def readWord (line : Line) (address : Word) : Word :=
  line.extractLsb' (8 * (address.extractLsb' 2 3 ++ 0#2).toNat) 32

/-- `shadow_memory.write`: byte `i` of the word goes to byte `{addr[4:2], 2'b00} + i`. -/
def writeWord (line : Line) (address wdata : Word) (byteEnable : BitVec 4) : Line :=
  ofBits fun j =>
    let base := (address.extractLsb' 2 3 ++ 0#2).toNat
    if base ≤ j.val / 8 ∧ byteEnable.getLsbD (j.val / 8 - base) then
      wdata.getLsbD (j.val - 8 * base)
    else (line)[j]

theorem base_eq (address : Word) :
    (address.extractLsb' 2 3 ++ 0#2).toNat = 4 * (address.extractLsb' 2 3).toNat := by
  generalize address.extractLsb' 2 3 = x
  revert x
  decide

theorem memRdata_eq (line : Line) (address : Word) :
    Datapath.memRdata line address = readWord line address := by
  rw [Datapath.memRdata, readWord, base_eq]
  congr 1
  omega

theorem written_eq (r : Request) (line : Line) :
    written r line = writeWord line r.address r.wdata r.byteEnable := by
  ext j hj
  have k : (r.address.extractLsb' 2 3).toNat < 8 := (r.address.extractLsb' 2 3).isLt
  rw [written, getElem_mergeBytes, getElem_memWdata256, memByteEnable256,
    BitVec.getLsbD_shiftLeft, BitVec.getLsbD_setWidth, writeWord, getElem_ofBits, base_eq]
  generalize (r.address.extractLsb' 2 3).toNat = i at k
  dsimp only
  rw [Nat.mul_comm i 4]
  by_cases enabled : 4 * i ≤ j / 8 ∧ r.byteEnable.getLsbD (j / 8 - 4 * i) = true
  · have inside : j / 8 - 4 * i < 4 := by
      by_contra out
      rw [BitVec.getLsbD_of_ge _ _ (by omega)] at enabled
      exact Bool.false_ne_true enabled.2
    have bit : j - 8 * (4 * i) = j % 32 := by omega
    rw [if_pos enabled, bit, if_pos]
    simp [enabled.2]
    omega
  · rw [if_neg enabled, if_neg]
    · rfl
    · intro on
      simp only [Bool.and_eq_true, Bool.not_eq_true', decide_eq_true_eq, decide_eq_false_iff_not,
        Nat.not_lt] at on
      exact enabled ⟨on.1.2, on.2.2⟩

def phase (c : Cache4Way 3) (r : Request) : Phase (Fin 4) LineAddr :=
  match c.state with
  | .hit => .settled
  | .missDirty => .evicting (c.replace r) (lineAddr r.address)
  | .missClean => .filling (c.replace r) (lineAddr r.address)

theorem phase_hit {c : Cache4Way 3} (state : c.state = .hit) (r : Request) :
    phase c r = .settled := by
  rw [phase, state]

theorem phase_missDirty {c : Cache4Way 3} (state : c.state = .missDirty) (r : Request) :
    phase c r = .evicting (c.replace r) (lineAddr r.address) := by
  rw [phase, state]

theorem phase_missClean {c : Cache4Way 3} (state : c.state = .missClean) (r : Request) :
    phase c r = .filling (c.replace r) (lineAddr r.address) := by
  rw [phase, state]

/-- The cycles by what they start from; `c'` is the cache after the cycle. -/
inductive Move (c c' : Cache4Way 3) (r : Request) (resp : Bool) (rdata : Line) : Prop
  /-- Nothing is asked for. -/
  | idle (state : c.state = .hit) (inactive : r.active = false) (quiet : c.memResp r = false)
      (state' : c'.state = .hit) (view' : view c'.arrays = view c.arrays)
  | read (state : c.state = .hit) (answered : c.memResp r = true) (kind : r.read = true)
      (state' : c'.state = .hit) (view' : view c'.arrays = view c.arrays)
  | write (w : Fin 4) (state : c.state = .hit) (answered : c.memResp r = true)
      (kind : r.read = false ∧ r.write = true) (state' : c'.state = .hit)
      (live : (view c.arrays).live w (setIndex (lineAddr r.address)) = true)
      (addr : (view c.arrays).addr w (setIndex (lineAddr r.address)) = lineAddr r.address)
      (view' : view c'.arrays = store (view c.arrays) w (setIndex (lineAddr r.address))
        (written r ((view c.arrays).data w (setIndex (lineAddr r.address)))))
  /-- A miss with a modified victim. -/
  | evict (state : c.state = .hit) (active : r.active = true) (quiet : c.memResp r = false)
      (owed : (view c.arrays).owed (c.replace r) (setIndex (lineAddr r.address)) = true)
      (absent : Misses setIndex (view c.arrays) (lineAddr r.address))
      (state' : c'.state = .missDirty) (view' : view c'.arrays = view c.arrays)
      (replace' : c'.replace r = c.replace r)
  /-- A miss with a victim that need not be written back. -/
  | reuse (state : c.state = .hit) (active : r.active = true) (quiet : c.memResp r = false)
      (settled : (view c.arrays).owed (c.replace r) (setIndex (lineAddr r.address)) = false)
      (absent : Misses setIndex (view c.arrays) (lineAddr r.address))
      (state' : c'.state = .missClean) (view' : view c'.arrays = view c.arrays)
      (replace' : c'.replace r = c.replace r)
  | writeBack (state : c.state = .missDirty) (quiet : c.memResp r = false)
      (state' : c'.state = if resp then .missClean else .missDirty)
      (view' : view c'.arrays =
        clean (view c.arrays) (c.replace r) (setIndex (lineAddr r.address)))
      (replace' : c'.replace r = c.replace r)
  | fill (state : c.state = .missClean) (quiet : c.memResp r = false)
      (state' : c'.state = if resp then .hit else .missClean)
      (view' : view c'.arrays =
        refill (view c.arrays) setIndex (c.replace r) (lineAddr r.address) rdata)
      (replace' : c'.replace r = c.replace r)

section Misses

variable {c : Cache4Way 3} {r : Request}

theorem hit_holds (state : c.state = .hit) (answered : c.memResp r = true) :
    (view c.arrays).live (hitWay (c.hits r)) (setIndex (lineAddr r.address)) = true ∧
    (view c.arrays).addr (hitWay (c.hits r)) (setIndex (lineAddr r.address)) =
      lineAddr r.address := by
  obtain ⟨valid, same⟩ := hitWay_found state answered
  rw [setIndex_lineAddr]
  refine ⟨valid, ?_⟩
  change lineOf (c.arrays.tags _ _) _ = _
  rw [same, lineOf_tag]

private theorem miss_absent (state : c.state = .hit) (active : r.active = true)
    (unanswered : c.memResp r = false) :
    Misses setIndex (view c.arrays) (lineAddr r.address) := by
  intro w live addr
  rw [setIndex_lineAddr] at live addr
  apply tag_absent state active unanswered w live
  apply lineOf_inj (s := index 3 r.address)
  rw [lineOf_tag]
  exact addr

end Misses

section Inversion

variable {c c' : Cache4Way 3} {r : Request} {resp : Bool} {rdata : Line}

theorem Move.of_miss (move : Move c c' r resp rdata) (state : c.state = .hit)
    (active : r.active = true) (quiet : c.memResp r = false) :
    c'.state = (if c.arrays.dirty (c.replace r) (index 3 r.address) then .missDirty
        else .missClean) ∧
      view c'.arrays = view c.arrays ∧ c'.replace r = c.replace r := by
  have owed : (view c.arrays).owed (c.replace r) (setIndex (lineAddr r.address)) =
      c.arrays.dirty (c.replace r) (index 3 r.address) := by
    rw [setIndex_lineAddr]
    rfl
  cases move with
  | writeBack other | fill other =>
    rw [state] at other
    cases other
  | idle _ inactive =>
    rw [active] at inactive
    cases inactive
  | read _ answered | write _ _ answered =>
    rw [quiet] at answered
    cases answered
  | evict _ _ _ dirty _ state' view' replace' =>
    rw [← owed, dirty]
    exact ⟨state', view', replace'⟩
  | reuse _ _ _ clean _ state' view' replace' =>
    rw [← owed, clean]
    exact ⟨state', view', replace'⟩

theorem Move.of_missDirty (move : Move c c' r resp rdata) (state : c.state = .missDirty) :
    c.memResp r = false ∧ c'.state = (if resp then .missClean else .missDirty) ∧
      view c'.arrays = clean (view c.arrays) (c.replace r) (setIndex (lineAddr r.address)) ∧
      c'.replace r = c.replace r := by
  cases move with
  | idle other | read other | write _ other | evict other | reuse other | fill other =>
    rw [state] at other
    cases other
  | writeBack _ quiet state' view' replace' => exact ⟨quiet, state', view', replace'⟩

theorem Move.of_missClean (move : Move c c' r resp rdata) (state : c.state = .missClean) :
    c.memResp r = false ∧ c'.state = (if resp then .hit else .missClean) ∧
      view c'.arrays =
        refill (view c.arrays) setIndex (c.replace r) (lineAddr r.address) rdata := by
  cases move with
  | idle other | read other | write _ other | evict other | reuse other | writeBack other =>
    rw [state] at other
    cases other
  | fill _ quiet state' view' => exact ⟨quiet, state', view'⟩

end Inversion

section Steps

variable {c : Cache4Way 3} {r : Request} (resp : Bool) (rdata : Line) (lru : BitVec 3)

private theorem next_miss (state : c.state = .hit) (active : r.active = true)
    (quiet : c.memResp r = false) (view' : view (c.next r resp rdata lru).arrays = view c.arrays) :
    Move c (c.next r resp rdata lru) r resp rdata := by
  have absent := miss_absent state active quiet
  have owed : (view c.arrays).owed (c.replace r) (setIndex (lineAddr r.address)) =
      c.arrays.dirty (c.replace r) (index 3 r.address) := by
    rw [setIndex_lineAddr]
    rfl
  have replace' : (c.next r resp rdata lru).replace r = c.replace r := next_replace quiet
  have state' := nextState_hit r resp rdata lru state
  rw [active, quiet] at state'
  cases dirty : c.arrays.dirty (c.replace r) (index 3 r.address) with
  | true =>
    rw [dirty] at state' owed
    exact .evict state active quiet owed absent state' view' replace'
  | false =>
    rw [dirty] at state' owed
    exact .reuse state active quiet owed absent state' view' replace'

theorem next_hit (state : c.state = .hit) : Move c (c.next r resp rdata lru) r resp rdata := by
  have state' := nextState_hit r resp rdata lru state
  cases answered : c.memResp r with
  | true =>
    rw [answered, Bool.not_true, Bool.and_false] at state'
    cases read : r.read with
    | true =>
      have noWrite : ∀ w, writesWay c.state r.read r.write (c.hits r) w = false := by
        intro w
        simp [writesWay, read]
      exact .read state answered read state' (view_idle _ _ _ state noWrite)
    | false =>
      have write : r.write = true := by
        have parts : (c.state == .hit && (r.read || r.write) && hitCheck (c.hits r)) = true :=
          answered
        simp only [read, Bool.false_or, Bool.and_eq_true] at parts
        exact parts.1.2
      obtain ⟨live, addr⟩ := hit_holds state answered
      apply Move.write _ state answered ⟨read, write⟩ state' live addr
      rw [setIndex_lineAddr]
      exact view_write state answered ⟨read, write⟩
  | false =>
    have noWrite : ∀ w, writesWay c.state r.read r.write (c.hits r) w = false := by
      intro w
      have none : done c.state r.read r.write (c.hits r) = false := answered
      simp [writesWay, none]
    have view' := view_idle resp rdata lru state noWrite
    cases active : r.active with
    | true => exact next_miss resp rdata lru state active answered view'
    | false =>
      rw [active] at state'
      exact .idle state active answered state' view'

/-- Every cycle under an active request is a move, and so is every cycle of state hit. -/
theorem next_move (asked : c.state = .hit ∨ r.active = true) :
    Move c (c.next r resp rdata lru) r resp rdata := by
  by_cases hit : c.state = .hit
  · exact next_hit resp rdata lru hit
  · have active := asked.resolve_left hit
    have quiet : c.memResp r = false := by simp [Cache4Way.memResp, done, hit]
    have replace' : (c.next r resp rdata lru).replace r = c.replace r := next_replace quiet
    cases state : c.state with
    | hit => exact absurd state hit
    | missDirty =>
      apply Move.writeBack state quiet _ _ replace'
      · simp only [Cache4Way.next, nextState, state]
      · rw [setIndex_lineAddr]
        exact view_clean r resp rdata lru state
    | missClean =>
      apply Move.fill state quiet _ _ replace'
      · simp only [Cache4Way.next, nextState, state]
      · exact view_refill resp rdata lru state active

theorem filled_memResp {c c' : Cache4Way 3} {w : Fin 4} {rdata : Line} (active : r.active = true)
    (state' : c'.state = .hit)
    (view' : view c'.arrays = refill (view c.arrays) setIndex w (lineAddr r.address) rdata) :
    c'.memResp r = true := by
  have active' : (r.read || r.write) = true := active
  have live : c'.arrays.valid w (index 3 r.address) = true := by
    rw [← setIndex_lineAddr]
    show (view c'.arrays).live w (setIndex (lineAddr r.address)) = true
    rw [view']
    exact put_same _ _ _ _
  have same : c'.arrays.tags w (index 3 r.address) = tag 3 r.address := by
    apply lineOf_inj (s := index 3 r.address)
    rw [lineOf_tag, ← setIndex_lineAddr]
    show (view c'.arrays).addr w (setIndex (lineAddr r.address)) = lineAddr r.address
    rw [view']
    exact put_same _ _ _ _
  have hit : c'.hits r w = true := by
    rw [hits_eq (by simp [state']), same, live]
    simp
  have check : hitCheck (c'.hits r) = true := (hitCheck_iff _).mpr ⟨w, hit⟩
  simp [Cache4Way.memResp, done, state', active', check]

end Steps

end Mp4.Memory.FourWay.Refinement
