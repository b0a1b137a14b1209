import Mp4.Lib.Clocked
import Mp4.Lib.Placement
import Mp4.Memory.FourWay.FlatMemory

/-!
The representation invariant of `cache_4_way`, for every index width: where tags, valid bits
and dirty bits may stand in each state of the controller, whatever the memory answers.
-/

set_option autoImplicit false
set_option relaxedAutoImplicit false

namespace Mp4.Memory.FourWay.Representation

open Mp4.Lib.Clocked Mp4.Lib.WriteBack Mp4.Lib.Replacement Mp4.Lib.Placement Mp4.Memory.Address
open Mp4.Memory.FourWay.Datapath Mp4.Memory.FourWay.Cache Mp4.Memory.FourWay.Refinement
open Mp4.Memory.FourWay.FlatMemory (Cycle)

variable {n : Nat}

abbrev TaggedSet (n : Nat) := BitVec (27 - n) × BitVec n

def lineAt (n : Nat) (address : Word) : TaggedSet n := (tag n address, index n address)

/-- Tags, valid bits and dirty bits read as a write-back store without contents. -/
def placement (a : Arrays n) : View (Fin 4) (BitVec n) (TaggedSet n) Unit where
  addr w s := (a.tags w s, s)
  data _ _ := ()
  live := a.valid
  owed := a.dirty

def stage (c : Cache4Way n) (r : Request) : Phase (Fin 4) (TaggedSet n) :=
  match c.state with
  | .hit => .settled
  | .missDirty => .evicting (c.replace r) (lineAt n r.address)
  | .missClean => .filling (c.replace r) (lineAt n r.address)

structure Holding (n : Nat) where
  cache : Cache4Way n
  pending : Option Request

namespace Holding

def step (i : Cycle) (h : Holding n) : Holding n where
  cache := h.cache.next i.request i.pmemResp i.pmemRdata i.lruOut
  pending := pendNext (h.cache.memResp i.request) i.request

def start (n : Nat) (data : Fin 4 → BitVec 3 → Line) : Holding n := ⟨.reset data, none⟩

end Holding

def Held (i : Cycle) (h : Holding n) : Prop := ∀ r ∈ h.pending, r = i.request

instance decidableHeld (i : Cycle) (h : Holding n) : Decidable (Held i h) := by
  unfold Held
  infer_instance

section Step

variable {c : Cache4Way n} {r : Request}

private theorem stage_hit (state : c.state = .hit) (r : Request) : stage c r = .settled := by
  rw [stage, state]

private theorem stage_missDirty (state : c.state = .missDirty) (r : Request) :
    stage c r = .evicting (c.replace r) (lineAt n r.address) := by
  rw [stage, state]

private theorem stage_missClean (state : c.state = .missClean) (r : Request) :
    stage c r = .filling (c.replace r) (lineAt n r.address) := by
  rw [stage, state]

variable (resp : Bool) (rdata : Line) (lru : BitVec 3)

private theorem placed_hit (state : c.state = .hit)
    (placed : Placed Prod.snd (stage c r) (placement c.arrays)) :
    Placed Prod.snd (stage (c.next r resp rdata lru) r)
      (placement (c.next r resp rdata lru).arrays) := by
  rw [stage_hit state] at placed
  have state' := nextState_hit r resp rdata lru state
  obtain ⟨tags, valid⟩ := next_tags r resp rdata lru (by simp [state] : c.state ≠ _)
  by_cases writes : c.memResp r = true ∧ r.read = false ∧ r.write = true
  · rw [writes.1, Bool.not_true, Bool.and_false] at state'
    have view' : placement (c.next r resp rdata lru).arrays =
        store (placement c.arrays) (hitWay (c.hits r)) (index n r.address) () := by
      have dirty := next_dirty_write resp rdata lru state writes.1 writes.2
      simp only [placement, store, tags, valid, dirty]
    rw [stage_hit state', view']
    exact placed.stored (hitWay_found state writes.1).1
  have noWrite : ∀ w, writesWay c.state r.read r.write (c.hits r) w = false := by
    intro w
    rw [Cache4Way.memResp] at writes
    simp only [writesWay]
    grind
  have view' : placement (c.next r resp rdata lru).arrays = placement c.arrays := by
    have dirty := next_dirty resp rdata lru (by simp [state]) noWrite
    simp only [placement, tags, valid, dirty]
  rw [view']
  cases waiting : r.active && !c.memResp r with
  | false =>
    rw [waiting] at state'
    rw [stage_hit state']
    exact placed
  | true =>
    rw [waiting] at state'
    simp only [Bool.and_eq_true, Bool.not_eq_true'] at waiting
    have replace' : (c.next r resp rdata lru).replace r = c.replace r := next_replace waiting.2
    have absent : Misses Prod.snd (placement c.arrays) (lineAt n r.address) := by
      intro w live same
      exact tag_absent state waiting.1 waiting.2 w live (congrArg Prod.fst same)
    cases dirty : c.arrays.dirty (c.replace r) (index n r.address) with
    | true =>
      rw [dirty] at state'
      rw [stage_missDirty state']
      exact placed.evict absent
    | false =>
      rw [dirty] at state'
      rw [stage_missClean state', replace']
      exact placed.reuse dirty absent

private theorem placed_missDirty (state : c.state = .missDirty)
    (placed : Placed Prod.snd (stage c r) (placement c.arrays)) :
    Placed Prod.snd (stage (c.next r resp rdata lru) r)
      (placement (c.next r resp rdata lru).arrays) := by
  rw [stage_missDirty state] at placed
  have quiet : c.memResp r = false := by simp [Cache4Way.memResp, done, state]
  have replace' : (c.next r resp rdata lru).replace r = c.replace r := next_replace quiet
  have view' : placement (c.next r resp rdata lru).arrays =
      clean (placement c.arrays) (c.replace r) (index n r.address) := by
    obtain ⟨tags, valid⟩ := next_tags r resp rdata lru (by simp [state] : c.state ≠ _)
    have dirty := next_dirty_clean r resp rdata lru state
    simp only [placement, clean, tags, valid, dirty]
  have state' : (c.next r resp rdata lru).state = if resp then .missClean else .missDirty := by
    simp only [Cache4Way.next, nextState, state]
  rw [view']
  cases resp with
  | false =>
    rw [stage_missDirty state', replace']
    exact placed.evictWait
  | true =>
    rw [stage_missClean state', replace']
    exact placed.evicted

private theorem placed_missClean (state : c.state = .missClean) (active : r.active = true)
    (placed : Placed Prod.snd (stage c r) (placement c.arrays)) :
    Placed Prod.snd (stage (c.next r resp rdata lru) r)
      (placement (c.next r resp rdata lru).arrays) := by
  rw [stage_missClean state] at placed
  have quiet : c.memResp r = false := by simp [Cache4Way.memResp, done, state]
  have replace' : (c.next r resp rdata lru).replace r = c.replace r := next_replace quiet
  have view' : placement (c.next r resp rdata lru).arrays =
      refill (placement c.arrays) Prod.snd (c.replace r) (lineAt n r.address) () := by
    obtain ⟨tags, valid⟩ := next_tags_refill resp rdata lru state active
    have dirty := next_dirty resp rdata lru (by simp [state])
      (writesWay_none (c := c) (r := r) (by simp [state]))
    have addr : (fun w s => (put c.arrays.tags (c.replace r) (index n r.address)
          (tag n r.address) w s, s)) =
        put (placement c.arrays).addr (c.replace r) (index n r.address) (lineAt n r.address) := by
      funext w s
      unfold put
      split_ifs with here
      · rw [here.2]
        rfl
      · rfl
    simp only [placement, refill, tags, valid, dirty, addr]
    rfl
  have state' : (c.next r resp rdata lru).state = if resp then .hit else .missClean := by
    simp only [Cache4Way.next, nextState, state]
  rw [view']
  cases resp with
  | false =>
    rw [stage_missClean state', replace']
    exact placed.fillWait
  | true =>
    rw [stage_hit state']
    exact placed.filled

theorem placed_next (asked : c.state = .hit ∨ r.active = true)
    (placed : Placed Prod.snd (stage c r) (placement c.arrays)) :
    Placed Prod.snd (stage (c.next r resp rdata lru) r)
      (placement (c.next r resp rdata lru).arrays) := by
  cases state : c.state with
  | hit => exact placed_hit resp rdata lru state placed
  | missDirty => exact placed_missDirty resp rdata lru state placed
  | missClean =>
    have active := asked.resolve_left (by simp [state])
    exact placed_missClean resp rdata lru state active placed

end Step

/-- Outside state hit a request is pending; the arrays are placed as the pending request and
the controller state say. -/
structure Inv (h : Holding n) : Prop where
  waiting : h.cache.state = .hit ∨ ∃ r, h.pending = some r ∧ r.active = true
  placed : ∀ i, Held i h → Placed Prod.snd (stage h.cache i.request) (placement h.cache.arrays)

theorem inv_start (data : Fin 4 → BitVec 3 → Line) : Inv (Holding.start n data) := by
  refine ⟨Or.inl rfl, fun i _ => ?_⟩
  exact Placed.empty (fun _ _ => rfl) fun _ _ => rfl

theorem inv_step (i : Cycle) (h : Holding n) (inv : Inv h) (held : Held i h) : Inv (h.step i) := by
  have asked : h.cache.state = .hit ∨ i.request.active = true := by
    rcases inv.waiting with hit | ⟨r, pending, active⟩
    · exact Or.inl hit
    · exact Or.inr (held r pending ▸ active)
  have placed : Placed Prod.snd (stage (h.step i).cache i.request)
      (placement (h.step i).cache.arrays) :=
    placed_next _ _ _ asked (inv.placed i held)
  have waits : (h.step i).cache.state = .hit ∨
      (h.step i).pending = some i.request ∧ i.request.active = true := next_waits asked
  rcases waits with state' | ⟨pending, active⟩
  · refine ⟨Or.inl state', fun i' _ => ?_⟩
    rw [stage_hit state'] at placed ⊢
    exact placed
  · refine ⟨Or.inr ⟨i.request, pending, active⟩, fun i' held' => ?_⟩
    rw [← held' i.request pending]
    exact placed

private theorem exists_held (h : Holding n) : ∃ i, Held i h := by
  cases pending : h.pending with
  | none =>
    refine ⟨⟨⟨false, false, 0#32, 0#32, 0#4⟩, false, 0#256, 0#3⟩, ?_⟩
    intro r mem
    rw [pending] at mem
    cases mem
  | some r =>
    refine ⟨⟨r, false, 0#256, 0#3⟩, ?_⟩
    intro r' mem
    rw [pending] at mem
    exact (Option.some.inj mem).symm

/-- In every state that is reached while requests are held, whatever the memory answers and
whenever: no two valid ways of a set have the same tag, so that at most one way hits; a dirty
way is valid; and during a refill, which is for the pending request, the victim is not dirty
and no other valid way has the requested tag. -/
theorem representation_invariant (n : Nat) (data : Fin 4 → BitVec 3 → Line) (is : List Cycle)
    (held : Along Holding.step Held (.start n data) is) :
    let h := run Holding.step (.start n data) is
    let c := h.cache
    (∀ w w' s, c.arrays.valid w s = true → c.arrays.valid w' s = true →
      c.arrays.tags w s = c.arrays.tags w' s → w = w') ∧
    (c.state = .hit → ∀ r w w', c.hits r w = true → c.hits r w' = true → w = w') ∧
    (∀ w s, c.arrays.dirty w s = true → c.arrays.valid w s = true) ∧
    (c.state = .missClean → ∃ r, h.pending = some r ∧ r.active = true ∧
      c.arrays.dirty (c.replace r) (index n r.address) = false ∧
      ∀ w, w ≠ c.replace r → c.arrays.valid w (index n r.address) = true →
        c.arrays.tags w (index n r.address) ≠ tag n r.address) := by
  intro h c
  have inv : Inv h := run_invariant inv_step (inv_start data) held
  obtain ⟨i, held'⟩ := exists_held h
  have placed := inv.placed i held'
  have distinct := placed.distinct
  have unique : ∀ w w' s, c.arrays.valid w s = true → c.arrays.valid w' s = true →
      c.arrays.tags w s = c.arrays.tags w' s → w = w' := by
    intro w w' s live live' same
    exact distinct.unique w w' s live live' (congrArg (fun t => (t, s)) same)
  refine ⟨unique, ?_, distinct.owedLive, ?_⟩
  · intro state r w w' hit hit'
    rw [hits_eq (by simp [state]), Bool.and_eq_true, beq_iff_eq] at hit hit'
    exact unique w w' _ hit.2 hit'.2 (hit.1.symm.trans hit'.1)
  · intro state
    obtain ⟨r, pending, active⟩ := inv.waiting.resolve_left (by simp [c, state])
    obtain rfl : r = i.request := held' r pending
    rw [stage_missClean state] at placed
    obtain ⟨-, clean, absent⟩ := placed
    refine ⟨i.request, pending, active, clean, fun w ne valid same => ?_⟩
    apply absent w
    · exact (put_other _ _ fun own => ne own.1).trans valid
    · exact congrArg (fun t => (t, index n i.request.address)) same

theorem representation_invariant_waiting :
    let h := run Holding.step (.start 3 fun _ _ => 0#256) (FlatMemory.maskedWrite.take 2)
    let c := h.cache
    c.state = .missClean ∧ c.arrays.valid 3 (index 3 0x5c#32) = true ∧
      ∃ r, h.pending = some r ∧ r.active = true ∧
        c.arrays.dirty (c.replace r) (index 3 r.address) = false ∧
        ∀ w, w ≠ c.replace r → c.arrays.valid w (index 3 r.address) = true →
          c.arrays.tags w (index 3 r.address) ≠ tag 3 r.address := by
  intro h c
  have held : Along Holding.step Held (.start 3 fun _ _ => 0#256)
      (FlatMemory.maskedWrite.take 2) := by decide +kernel
  have state : c.state = .missClean := by decide +kernel
  refine ⟨state, by decide +kernel, ?_⟩
  exact (representation_invariant 3 (fun _ _ => 0#256) _ held).2.2.2 state

end Mp4.Memory.FourWay.Representation
