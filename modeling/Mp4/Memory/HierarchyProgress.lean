import Mp4.Lib.Ranking
import Mp4.Memory.Hierarchy

/-!
The hierarchy answers. A grant lasts for one transaction, a miss needs two at most, and the
arbiter lets the data side go first for the transactions of one miss only; so each port is
answered after a number of cycles in which no beat is waited for, whatever the beats take.
-/

set_option autoImplicit false
set_option relaxedAutoImplicit false

namespace Mp4.Memory.HierarchyProgress

open Mp4.Lib.Clocked Mp4.Lib.Handshake Mp4.Lib.Ranking Mp4.Memory.Address
open Mp4.Memory.CachelineAdaptor Mp4.Memory.BurstMemory Mp4.Memory.Hierarchy
open Mp4.Memory.FourWay.Cache Mp4.Memory.FourWay.Refinement Mp4.Memory.FourWay.Bus

/-- A cache that waits in state hit has been refilled for its request. -/
def Settled (c : Cache4Way 3) (pend : Option Request) : Prop :=
  c.state = .hit → ∀ r ∈ pend, c.memResp r = true

def todo (c : Cache4Way 3) : Nat :=
  match c.state with
  | .hit => 0
  | .missClean => 1
  | .missDirty => 2

section Caches

variable {P : LineAddr → Prop} {mem flat : LineAddr → Line} {c : Cache4Way 3} {r : Request}
  {pend : Option Request} {resp : Bool} {rdata : Line} {lru : BitVec 3}

private theorem settled_next (holds : Holds P mem flat c pend) (held : ∀ r' ∈ pend, r' = r) :
    Settled (c.next r resp rdata lru) (pendNext (c.memResp r) r) := by
  have asked := holds.asked (r := r) fun r' pending => (held r' pending).symm
  intro hit r' pending
  rw [Option.mem_def, pendNext] at pending
  split_ifs at pending with waits
  obtain rfl := Option.some.inj pending
  obtain ⟨active, quiet⟩ := (Bool.and_eq_true _ _).mp waits
  rw [Bool.not_eq_true'] at quiet
  have move := next_move resp rdata lru asked
  cases state : c.state with
  | hit =>
    have state' := (move.of_miss state active quiet).1
    rw [hit] at state'
    split_ifs at state'
  | missDirty =>
    have state' := (move.of_missDirty state).2.1
    rw [hit] at state'
    split_ifs at state'
  | missClean => exact filled_memResp active hit (move.of_missClean state).2.2

private theorem todo_le (c : Cache4Way 3) : todo c ≤ 2 := by
  unfold todo
  cases c.state <;> decide

private theorem todo_next (busy : c.state ≠ .hit) :
    todo (c.next r resp rdata lru) + (if resp then 1 else 0) = todo c := by
  unfold todo
  cases state : c.state with
  | hit => exact absurd state busy
  | missClean => cases resp <;> simp [Cache4Way.next, FourWay.Cache.nextState, state]
  | missDirty => cases resp <;> simp [Cache4Way.next, FourWay.Cache.nextState, state]

private theorem todo_pos (busy : c.state ≠ .hit) : 1 ≤ todo c := by
  unfold todo
  cases state : c.state with
  | hit => exact absurd state busy
  | missClean | missDirty => decide

private theorem pending_of_unserved (active : r.active = true) (quiet : c.memResp r = false) :
    pendNext (c.memResp r) r = some r := by
  rw [pendNext, active, quiet]
  rfl

end Caches

/-- The data port is not left waiting. -/
def DServed (i : Cycle) (s : System) : Prop := i.dRequest.active = true → s.dMemResp i = true

def IServed (i : Cycle) (s : System) : Prop := i.iRequest.active = true → s.iMemResp i = true

structure Inv (Q : LineAddr → Prop) (init : LineAddr → Line) (s : System) : Prop where
  hierarchy : Hierarchy.Inv Q init s
  iSettled : Settled s.iCache s.iPending
  dSettled : Settled s.dCache s.dPending

/-- What is left of a transaction: `due` before a cycle and `due'` after it, `full` while none
is under way, and what the cycle takes off while one is. -/
structure Pace (full due due' spent : Nat) (i : Cycle) (s : System) : Prop where
  serves : ∀ c, ArbiterRouting.granted s.arbiter.state = some c →
    respO s.burst.adaptor.state = false → due' + spent ≤ due
  opens : (s.step i).burst.adaptor.state = .reset → due' = full
  most : spent ≤ 1

inductive Turn (full due due' spent : Nat) (s s' : System) (dResp iResp : Bool) : Prop
  /-- Nobody asks. -/
  | idle (state : s.arbiter.state = .idle) (quiet : dResp = false ∧ iResp = false)
      (dHit : s.dCache.state = .hit) (iHit : s.iCache.state = .hit)
      (state' : s'.arbiter.state = .idle) (opened : due' = full)
  | grantD (state : s.arbiter.state = .idle) (quiet : dResp = false ∧ iResp = false)
      (dBusy : s.dCache.state ≠ .hit) (state' : s'.arbiter.state = .dCacheAllow)
      (opened : due' = full)
  | grantI (state : s.arbiter.state = .idle) (quiet : dResp = false ∧ iResp = false)
      (dHit : s.dCache.state = .hit) (iBusy : s.iCache.state ≠ .hit)
      (state' : s'.arbiter.state = .iCacheAllow) (opened : due' = full)
  /-- The transaction goes on. -/
  | serve (c : ArbiterRouting.Client) (serves : ArbiterRouting.granted s.arbiter.state = some c)
      (quiet : dResp = false ∧ iResp = false) (state' : s'.arbiter.state = s.arbiter.state)
      (nearer : due' + spent ≤ due)
  | answerD (state : s.arbiter.state = .dCacheAllow) (answers : dResp = true ∧ iResp = false)
      (state' : s'.arbiter.state = .idle) (opened : due' = full)
  | answerI (state : s.arbiter.state = .iCacheAllow) (answers : dResp = false ∧ iResp = true)
      (state' : s'.arbiter.state = .idle) (opened : due' = full)

section Step

variable {Q : LineAddr → Prop} {init : LineAddr → Line} {i : Cycle} {s : System}
  {full due due' spent : Nat}

private theorem adaptor_idle (inv : Hierarchy.Inv Q init s) (idle : s.arbiter.state = .idle) :
    s.burst.adaptor.state = .reset := by
  have backs := inv.backs
  rw [inv.arbiter.quiet idle] at backs
  cases backs with
  | reset state => exact state

private theorem granted_busy (inv : Hierarchy.Inv Q init s) {c : ArbiterRouting.Client}
    (serves : ArbiterRouting.granted s.arbiter.state = some c) :
    (match c with
      | .iCache => s.iCache.state
      | .dCache => s.dCache.state) ≠ .hit := by
  intro hit
  obtain ⟨q, pending, -⟩ := inv.arbiter.serving c serves
  cases c with
  | iCache =>
    obtain ⟨r, -, asks⟩ := inv.iCarries q pending
    rw [busRequest_hit hit] at asks
    cases asks
  | dCache =>
    obtain ⟨r, -, asks⟩ := inv.dCarries q pending
    rw [busRequest_hit hit] at asks
    cases asks

theorem granted_asks (inv : Hierarchy.Inv Q init s) (admitted : Admitted Q i s)
    {c : ArbiterRouting.Client} (serves : ArbiterRouting.granted s.arbiter.state = some c) :
    ((s.adaptorInputs i).readI ^^ (s.adaptorInputs i).writeI) = true := by
  obtain ⟨r, -, passed, -⟩ := ArbiterRouting.served_offer inv.arbiter (holding inv admitted) serves
  have one := ArbiterRouting.not_read_and_write s.arbiter.state (s.inputs i)
  change (_ ^^ _) = true
  rw [ArbiterRouting.nextOffer] at passed
  cases read : (Arbiter.outputs s.arbiter.state (s.inputs i)).arbNextLevelRead <;>
    cases write : (Arbiter.outputs s.arbiter.state (s.inputs i)).arbNextLevelWrite <;>
    simp_all [LineBus.request, System.adaptorInputs, System.outputs]

private theorem memResp_outputs (c : ArbiterRouting.Client) :
    ArbiterRouting.memResp (s.outputs i) c =
      (decide (ArbiterRouting.granted s.arbiter.state = some c) &&
        respO s.burst.adaptor.state) := by
  have given := ArbiterRouting.answer_outputs s.arbiter.state (s.inputs i) c
  change ArbiterRouting.answer (s.outputs i) c =
    if _ then (if respO s.burst.adaptor.state then some _ else none) else none at given
  rw [ArbiterRouting.answer] at given
  cases serves : decide (ArbiterRouting.granted s.arbiter.state = some c) with
  | false =>
    rw [if_neg (of_decide_eq_false serves)] at given
    simpa using given
  | true =>
    rw [if_pos (of_decide_eq_true serves)] at given
    cases resp : respO s.burst.adaptor.state <;>
      simpa [resp] using congrArg Option.isSome given

private theorem arbiter_next (inv : Hierarchy.Inv Q init s) :
    (s.step i).arbiter.state = match s.arbiter.state with
      | .idle =>
          if s.dCache.state ≠ .hit then .dCacheAllow
          else if s.iCache.state ≠ .hit then .iCacheAllow
          else .idle
      | busy => if respO s.burst.adaptor.state then .idle else busy := by
  have clean := inv.neverWritten.state
  change Arbiter.nextState s.arbiter.state (s.inputs i) = _
  cases s.arbiter.state with
  | idle =>
    cases d : s.dCache.state <;> cases f : s.iCache.state <;>
      simp_all [Arbiter.nextState, System.inputs, System.arbiterInputs, pmemRead, pmemWrite]
  | dCacheAllow | iCacheAllow => rfl

private theorem adaptor_answered (resp : respO s.burst.adaptor.state = true) :
    (s.step i).burst.adaptor.state = .reset := by
  have finished : s.burst.adaptor.state = .finished := by simpa [respO] using resp
  change nextState s.burst.adaptor.state _ _ _ = .reset
  rw [finished]
  rfl

private theorem adaptor_unasked (inv : Hierarchy.Inv Q init s) (idle : s.arbiter.state = .idle) :
    (s.step i).burst.adaptor.state = .reset := by
  change nextState s.burst.adaptor.state (s.outputs i).arbNextLevelRead
    (s.outputs i).arbNextLevelWrite i.respI = .reset
  rw [adaptor_idle inv idle, System.outputs, idle]
  rfl

theorem turn (inv : Hierarchy.Inv Q init s) (pace : Pace full due due' spent i s) :
    Turn full due due' spent s (s.step i) (s.outputs i).dCacheMemResp
      (s.outputs i).iCacheMemResp := by
  have dResp := memResp_outputs (i := i) (s := s) .dCache
  have iResp := memResp_outputs (i := i) (s := s) .iCache
  have state' := arbiter_next (i := i) inv
  change (s.outputs i).dCacheMemResp = _ at dResp
  change (s.outputs i).iCacheMemResp = _ at iResp
  rw [dResp, iResp]
  cases state : s.arbiter.state with
  | idle =>
    rw [state] at state'
    have opened := pace.opens (adaptor_unasked inv state)
    by_cases dHit : s.dCache.state = .hit
    · by_cases iHit : s.iCache.state = .hit
      · exact .idle state ⟨rfl, rfl⟩ dHit iHit (by simpa [dHit, iHit] using state') opened
      · exact .grantI state ⟨rfl, rfl⟩ dHit iHit (by simpa [dHit, iHit] using state') opened
    · exact .grantD state ⟨rfl, rfl⟩ dHit (by simpa [dHit] using state') opened
  | dCacheAllow =>
    rw [state] at state'
    have serves : ArbiterRouting.granted s.arbiter.state = some .dCache := by
      rw [state]
      rfl
    cases resp : respO s.burst.adaptor.state with
    | false =>
      exact .serve .dCache serves ⟨rfl, rfl⟩ (by simpa [resp, state] using state')
        (pace.serves .dCache serves resp)
    | true =>
      exact .answerD state ⟨rfl, rfl⟩ (by simpa [resp] using state')
        (pace.opens (adaptor_answered resp))
  | iCacheAllow =>
    rw [state] at state'
    have serves : ArbiterRouting.granted s.arbiter.state = some .iCache := by
      rw [state]
      rfl
    cases resp : respO s.burst.adaptor.state with
    | false =>
      exact .serve .iCache serves ⟨rfl, rfl⟩ (by simpa [resp, state] using state')
        (pace.serves .iCache serves resp)
    | true =>
      exact .answerI state ⟨rfl, rfl⟩ (by simpa [resp] using state')
        (pace.opens (adaptor_answered resp))

theorem Turn.bound {s' : System} {dResp iResp : Bool}
    (turn : Turn full due due' spent s s' dResp iResp) (before : due ≤ full) : due' ≤ full := by
  cases turn with
  | idle _ _ _ _ _ opened | grantD _ _ _ _ opened | grantI _ _ _ _ _ opened
  | answerD _ _ _ opened | answerI _ _ _ opened => exact Nat.le_of_eq opened
  | serve _ _ _ _ nearer => omega

theorem inv_step (i : Cycle) (s : System) (inv : Inv Q init s) (admitted : Admitted Q i s) :
    Inv Q init (s.step i) where
  hierarchy := Hierarchy.inv_step i s inv.hierarchy admitted
  iSettled := settled_next inv.hierarchy.iHolds admitted.iHeld
  dSettled := settled_next inv.hierarchy.dHolds admitted.dHeld

theorem inv_start (iData dData : Fin 4 → BitVec 3 → Line) (adaptor : Adaptor) :
    Inv Q init (.start iData dData adaptor init) where
  hierarchy := Hierarchy.inv_start iData dData adaptor
  iSettled _ := nofun
  dSettled _ := nofun

end Step

section Ranks

variable (full due : Nat) (s : System)

/-- What passes from one idle cycle of the arbiter to the next, at most. -/
def round : Nat := full + 2

/-- What passes until the data port is answered, at most. -/
def dRank : Nat :=
  match s.dPending with
  | none => 3 * round full
  | some _ =>
      match s.arbiter.state with
      | .idle => todo s.dCache * round full
      | .dCacheAllow => due + 1 + (todo s.dCache - 1) * round full
      | .iCacheAllow => due + 1 + todo s.dCache * round full

def iWait : Nat :=
  match s.arbiter.state with
  | .idle => todo s.dCache * round full + round full
  | .dCacheAllow => due + 1 + (todo s.dCache - 1) * round full + round full
  | .iCacheAllow => due + 1

/-- What passes until the instruction port is answered, at most. -/
def iRank : Nat :=
  match s.iPending with
  | none => 3 * round full + 1
  | some _ => if s.iCache.state = .hit then 0 else iWait full due s

end Ranks

section Falls

variable {Q : LineAddr → Prop} {init : LineAddr → Line} {i : Cycle} {s : System}
  {full due due' spent : Nat}

theorem dRank_le (bound : due ≤ full) : dRank full due s ≤ 3 * round full ∧
    (s.dPending ≠ none → dRank full due s + 1 ≤ 3 * round full) := by
  have most := todo_le s.dCache
  unfold dRank
  cases s.dPending with
  | none => exact ⟨Nat.le_refl _, fun waits => absurd rfl waits⟩
  | some r =>
    have waits : (some r : Option Request) ≠ none := by simp
    generalize todo s.dCache = n at most ⊢
    obtain rfl | rfl | rfl : n = 0 ∨ n = 1 ∨ n = 2 := by omega
    all_goals
      cases s.arbiter.state <;> simp [round] <;> omega

private theorem iWait_le (bound : due ≤ full) : iWait full due s ≤ 3 * round full := by
  have most := todo_le s.dCache
  unfold iWait
  generalize todo s.dCache = n at most ⊢
  obtain rfl | rfl | rfl : n = 0 ∨ n = 1 ∨ n = 2 := by omega
  all_goals
    cases s.arbiter.state <;> simp [round] <;> omega

private theorem iRank_le_iWait (waits : s.iPending ≠ none) :
    iRank full due s ≤ iWait full due s := by
  unfold iRank
  cases pending : s.iPending with
  | none => exact absurd pending waits
  | some r =>
    dsimp only
    split_ifs
    · exact Nat.zero_le _
    · exact Nat.le_refl _

theorem iRank_le (bound : due ≤ full) : iRank full due s ≤ 3 * round full + 1 := by
  cases pending : s.iPending with
  | none => rw [iRank, pending]
  | some r =>
    have waits : iRank full due s ≤ iWait full due s := iRank_le_iWait (by simp [pending])
    have most := iWait_le (s := s) bound
    omega

private theorem granted_iCache (serves : ArbiterRouting.granted s.arbiter.state = some .iCache) :
    s.arbiter.state = .iCacheAllow := by
  cases state : s.arbiter.state <;> simp [ArbiterRouting.granted, state] at serves ⊢

private theorem granted_dCache (serves : ArbiterRouting.granted s.arbiter.state = some .dCache) :
    s.arbiter.state = .dCacheAllow := by
  cases state : s.arbiter.state <;> simp [ArbiterRouting.granted, state] at serves ⊢

private theorem todo_step (resp : Bool) (given : (s.outputs i).dCacheMemResp = resp)
    (busy : s.dCache.state ≠ .hit) :
    todo (s.step i).dCache + (if resp then 1 else 0) = todo s.dCache := by
  rw [← given]
  exact todo_next busy

/-- The data port's rank falls by what the cycle spends until the port is answered. -/
theorem dRank_falls (inv : Inv Q init s) (admitted : Admitted Q i s)
    (pace : Pace full due due' spent i s) (bound : due ≤ full) :
    DServed i s ∨ dRank full due' (s.step i) + spent ≤ dRank full due s := by
  by_cases served : DServed i s
  · exact .inl served
  right
  obtain ⟨active, unserved⟩ := Classical.not_imp.mp served
  have quiet : s.dMemResp i = false := by simpa using unserved
  have pending' : (s.step i).dPending = some i.dRequest := pending_of_unserved active quiet
  have turn := turn inv.hierarchy pace
  have bounds := dRank_le (s := s.step i) (turn.bound bound)
  have waits := bounds.2 (by rw [pending']; simp)
  have most := pace.most
  cases pending : s.dPending with
  | none =>
    have free : dRank full due s = 3 * round full := by rw [dRank, pending]
    omega
  | some r =>
    have busy : s.dCache.state ≠ .hit := by
      intro hit
      have answered := inv.dSettled hit r pending
      rw [admitted.dHeld r pending] at answered
      exact unserved answered
    have least := todo_pos busy
    have two := todo_le s.dCache
    have same := todo_step (i := i) _ rfl busy
    rw [dRank, dRank, pending, pending']
    generalize todo (s.step i).dCache = n' at same ⊢
    generalize todo s.dCache = n at same least two ⊢
    cases turn with
    | idle _ _ dHit => exact absurd dHit busy
    | grantI _ _ dHit => exact absurd dHit busy
    | grantD state quiet _ state' opened =>
      rw [quiet.1] at same
      obtain rfl : n' = n := same
      simp only [state, state', opened, round]
      obtain rfl | rfl : n' = 1 ∨ n' = 2 := by omega
      all_goals omega
    | serve c serves quiet state' nearer =>
      rw [quiet.1] at same
      obtain rfl : n' = n := same
      cases c with
      | iCache =>
        have state := granted_iCache serves
        simp only [state', state]
        omega
      | dCache =>
        have state := granted_dCache serves
        simp only [state', state]
        omega
    | answerD state answers state' =>
      rw [answers.1] at same
      obtain rfl : n' + 1 = n := same
      simp only [state, state', Nat.add_sub_cancel]
      omega
    | answerI state answers state' =>
      rw [answers.1] at same
      obtain rfl : n' = n := same
      simp only [state, state']
      omega

private theorem iWait_falls (inv : Inv Q init s) (busy : s.iCache.state ≠ .hit)
    (pace : Pace full due due' spent i s)
    (unanswered : (s.outputs i).iCacheMemResp = false) :
    iWait full due' (s.step i) + spent ≤ iWait full due s := by
  have most := pace.most
  cases turn inv.hierarchy pace with
  | idle _ _ _ iHit => exact absurd iHit busy
  | answerI _ answers =>
    rw [unanswered] at answers
    cases answers.2
  | grantI state _ dHit _ state' opened =>
    have none : todo s.dCache = 0 := by rw [todo, dHit]
    simp only [iWait, state, state', opened, none, round]
    omega
  | grantD state quiet dBusy state' opened =>
    have least := todo_pos dBusy
    have two := todo_le s.dCache
    have same := todo_step (i := i) _ rfl dBusy
    rw [quiet.1] at same
    have same' : todo (s.step i).dCache = todo s.dCache := same
    simp only [iWait, state, state', opened, same', round]
    obtain one | two : todo s.dCache = 1 ∨ todo s.dCache = 2 := by omega
    · rw [one]
      omega
    · rw [two]
      omega
  | answerD state answers state' =>
    have dBusy := granted_busy inv.hierarchy (c := .dCache) (by rw [state]; rfl)
    have same := todo_step (i := i) _ rfl dBusy
    rw [answers.1] at same
    have less : todo (s.step i).dCache + 1 = todo s.dCache := same
    simp only [iWait, state, state', ← less, Nat.add_sub_cancel]
    omega
  | serve c serves quiet state' nearer =>
    cases c with
    | iCache =>
      have state := granted_iCache serves
      simp only [iWait, state', state]
      omega
    | dCache =>
      have state := granted_dCache serves
      have dBusy := granted_busy inv.hierarchy serves
      have same := todo_step (i := i) _ rfl dBusy
      rw [quiet.1] at same
      have same' : todo (s.step i).dCache = todo s.dCache := same
      simp only [iWait, state', state, same']
      omega

private theorem iCache_filled (inv : Inv Q init s) (busy : s.iCache.state ≠ .hit)
    (answered : (s.outputs i).iCacheMemResp = true) : (s.step i).iCache.state = .hit := by
  change FourWay.Cache.nextState s.iCache.state _ _ _ _ (s.outputs i).iCacheMemResp = .hit
  rw [answered]
  cases state : s.iCache.state with
  | hit => exact absurd state busy
  | missClean => rfl
  | missDirty => exact absurd state inv.hierarchy.neverWritten.state

theorem iRank_falls (inv : Inv Q init s) (admitted : Admitted Q i s)
    (pace : Pace full due due' spent i s) (bound : due ≤ full) :
    IServed i s ∨ iRank full due' (s.step i) + spent ≤ iRank full due s := by
  by_cases served : IServed i s
  · exact .inl served
  right
  obtain ⟨active, unserved⟩ := Classical.not_imp.mp served
  have quiet : s.iMemResp i = false := by simpa using unserved
  have pending' : (s.step i).iPending = some i.iRequest := pending_of_unserved active quiet
  have waits : iRank full due' (s.step i) ≤ iWait full due' (s.step i) :=
    iRank_le_iWait (by simp [pending'])
  have most := pace.most
  cases pending : s.iPending with
  | none =>
    have bound' := iWait_le (s := s.step i) ((turn inv.hierarchy pace).bound bound)
    have free : iRank full due s = 3 * round full + 1 := by rw [iRank, pending]
    omega
  | some r =>
    have busy : s.iCache.state ≠ .hit := by
      intro hit
      have answered := inv.iSettled hit r pending
      rw [admitted.iHeld r pending] at answered
      exact unserved answered
    have rank : iRank full due s = iWait full due s := by
      rw [iRank, pending]
      exact if_neg busy
    cases answered : (s.outputs i).iCacheMemResp with
    | false =>
      have falls := iWait_falls inv busy pace answered
      omega
    | true =>
      have done : iRank full due' (s.step i) = 0 := by
        rw [iRank, pending']
        exact if_pos (iCache_filled inv busy answered)
      have granted := memResp_outputs (i := i) (s := s) .iCache
      change (s.outputs i).iCacheMemResp = _ at granted
      rw [answered, eq_comm, Bool.and_eq_true, decide_eq_true_iff] at granted
      have left : iWait full due s = due + 1 := by rw [iWait, granted_iCache granted.1]
      omega

end Falls

/-- The adaptor is not waiting for a beat of the memory: the cycles that are no burst delay. -/
def moves (i : Cycle) (s : System) : Bool :=
  !((readO s.burst.adaptor.state || writeO s.burst.adaptor.state) && !i.respI)

/-- The cycles without a delay until the adaptor has its answer. -/
def lineLeft (a : Adaptor) : Nat :=
  match a.state with
  | .reset => 5
  | .r beat | .w beat => 4 - beat.val
  | .finished => 0

private theorem lineLeft_le (a : Adaptor) : lineLeft a ≤ 5 := by
  unfold lineLeft
  cases a.state <;> simp only [] <;> omega

section Beats

variable {Q : LineAddr → Prop} {init : LineAddr → Line} {i : Cycle} {s : System}

private theorem lineLeft_next {a : Adaptor} {j : Inputs} (asks : (j.readI ^^ j.writeI) = true)
    (silent : respO a.state = false) :
    lineLeft (a.next j) +
      (if !((readO a.state || writeO a.state) && !j.respI) then 1 else 0) ≤ lineLeft a := by
  unfold lineLeft Adaptor.next
  cases state : a.state with
  | reset =>
    cases read : j.readI <;> cases write : j.writeI <;>
      simp [CachelineAdaptor.nextState, readO, writeO, read, write] at asks ⊢
  | r beat | w beat =>
    cases resp : j.respI with
    | false => simp [CachelineAdaptor.nextState, readO, writeO]
    | true =>
      by_cases last : beat = 3
      · subst last
        show _ ≤ 1
        simp [CachelineAdaptor.nextState, readO, writeO]
      · have room : beat.val + 1 < 4 := by omega
        simp [CachelineAdaptor.nextState, readO, writeO, last, Fin.val_add, Nat.mod_eq_of_lt room]
        omega
  | finished => simp [respO, state] at silent

private theorem pace_beats (inv : Hierarchy.Inv Q init s) (admitted : Admitted Q i s) :
    Pace 5 (lineLeft s.burst.adaptor) (lineLeft (s.step i).burst.adaptor)
      (if moves i s then 1 else 0) i s := by
  refine ⟨fun c serves silent => ?_, fun reset => ?_, ?_⟩
  · exact lineLeft_next (granted_asks inv admitted serves) silent
  · rw [lineLeft, reset]
  · split_ifs <;> omega

end Beats

/-- The data port's request `r` is answered. -/
def AnswersData (r : Request) (i : Cycle) (s : System) : Prop :=
  i.dRequest = r ∧ s.dMemResp i = true

/-- The instruction port's request `r` is answered. -/
def AnswersInstruction (r : Request) (i : Cycle) (s : System) : Prop :=
  i.iRequest = r ∧ s.iMemResp i = true

section Answers

variable {Q : LineAddr → Prop} {init : LineAddr → Line} {i : Cycle} {s : System} {js : List Cycle}

private theorem dRequest_held (i j : Cycle) (s : System) (active : i.dRequest.active = true)
    (unanswered : s.dMemResp i ≠ true) (next : Admitted Q j (s.step i)) :
    j.dRequest = i.dRequest := by
  have quiet : s.dMemResp i = false := by simpa using unanswered
  have pending : (s.step i).dPending = some i.dRequest := pending_of_unserved active quiet
  exact (next.dHeld _ pending).symm

private theorem iRequest_held (i j : Cycle) (s : System) (active : i.iRequest.active = true)
    (unanswered : s.iMemResp i ≠ true) (next : Admitted Q j (s.step i)) :
    j.iRequest = i.iRequest := by
  have quiet : s.iMemResp i = false := by simpa using unanswered
  have pending : (s.step i).iPending = some i.iRequest := pending_of_unserved active quiet
  exact (next.iHeld _ pending).symm

private theorem data_answered (inv : Inv Q init s)
    (admitted : Along System.step (Admitted Q) s (i :: js))
    (active : i.dRequest.active = true) (long : 21 < visits System.step moves s (i :: js)) :
    WithinVisits System.step moves (AnswersData i.dRequest) 21 s (i :: js) := by
  have falls (i : Cycle) (s : System) (inv : Inv Q init s) (admitted : Admitted Q i s) :=
    dRank_falls inv admitted (pace_beats inv.hierarchy admitted) (lineLeft_le _)
  have bound := (dRank_le (s := s) (lineLeft_le s.burst.adaptor)).1
  have within := withinVisits_of_rank (fun s => dRank 5 (lineLeft s.burst.adaptor) s)
    inv_step falls inv admitted (Nat.lt_of_le_of_lt bound long)
  refine (within.mono bound).of_held (P := fun j _ => j.dRequest = i.dRequest) ?_ ?_ rfl admitted
  · intro j k s same _ unanswered next
    have silent : s.dMemResp j ≠ true := fun resp => unanswered ⟨same, resp⟩
    rw [dRequest_held j k s (same ▸ active) silent next, same]
  · intro j s same served
    exact ⟨same, served (same ▸ active)⟩

private theorem instruction_answered (inv : Inv Q init s)
    (admitted : Along System.step (Admitted Q) s (i :: js)) (active : i.iRequest.active = true)
    (long : 22 < visits System.step moves s (i :: js)) :
    WithinVisits System.step moves (AnswersInstruction i.iRequest) 22 s (i :: js) := by
  have falls (i : Cycle) (s : System) (inv : Inv Q init s) (admitted : Admitted Q i s) :=
    iRank_falls inv admitted (pace_beats inv.hierarchy admitted) (lineLeft_le _)
  have bound := iRank_le (s := s) (lineLeft_le s.burst.adaptor)
  have within := withinVisits_of_rank (fun s => iRank 5 (lineLeft s.burst.adaptor) s)
    inv_step falls inv admitted (Nat.lt_of_le_of_lt bound long)
  refine (within.mono bound).of_held (P := fun j _ => j.iRequest = i.iRequest) ?_ ?_ rfl admitted
  · intro j k s same _ unanswered next
    have silent : s.iMemResp j ≠ true := fun resp => unanswered ⟨same, resp⟩
    rw [iRequest_held j k s (same ▸ active) silent next, same]
  · intro j s same served
    exact ⟨same, served (same ▸ active)⟩

end Answers

/-- From reset, for every initial memory, every pair of request streams, every interleaving and
every burst delay: data-side reads return the flat memory's word, and instruction-side reads of
lines that the data side never writes return the initial memory's word. And each request comes
to its answer: on the data side after 21, on the instruction side after 22 cycles at most in
which the adaptor is not waiting for a beat. -/
theorem hierarchy_coherent (Q : LineAddr → Prop) (iData dData : Fin 4 → BitVec 3 → Line)
    (adaptor : Adaptor) (init : LineAddr → Line) (is : List Cycle) (i : Cycle) (js : List Cycle)
    (admitted : Along System.step (Admitted Q) (.start iData dData adaptor init) (is ++ i :: js)) :
    let s := run System.step (.start iData dData adaptor init) is
    Along System.step (Coherent Q init) (.start iData dData adaptor init) (is ++ i :: js) ∧
    (i.dRequest.active = true → 21 < visits System.step moves s (i :: js) →
      WithinVisits System.step moves (AnswersData i.dRequest) 21 s (i :: js)) ∧
    (i.iRequest.active = true → 22 < visits System.step moves s (i :: js) →
      WithinVisits System.step moves (AnswersInstruction i.iRequest) 22 s (i :: js)) := by
  intro s
  obtain ⟨first, rest⟩ := (along_append _ _ _ is (i :: js)).mp admitted
  have inv : Inv Q init s := run_invariant inv_step (inv_start iData dData adaptor) first
  refine ⟨?_, data_answered inv rest, instruction_answered inv rest⟩
  exact along_invariant Hierarchy.inv_step inv_coherent (Hierarchy.inv_start iData dData adaptor)
    admitted

def silent : Request := ⟨false, false, 0#32, 0#32, 0#4⟩

def fetching : Request := ⟨true, false, 0x64#32, 0#32, 0#4⟩

def storing : Request := ⟨false, true, 0x44#32, 0x55#32, 0b0001#4⟩

def loading (address : Word) : Request := ⟨true, false, address, 0#32, 0#4⟩

def waiting (iRequest dRequest : Request) (n : Nat) : List Cycle :=
  List.replicate n ⟨iRequest, dRequest, 0#64, false, 0#3, 0#3⟩

def beats (iRequest dRequest : Request) (first : BitVec 64) : List Cycle :=
  [first, 0#64, 0#64, 0#64].map fun burstI => ⟨iRequest, dRequest, burstI, true, 0#3, 0#3⟩

def filling (dRequest : Request) (first : BitVec 64) : List Cycle :=
  waiting silent dRequest 3 ++ beats silent dRequest first ++ waiting silent dRequest 2

def filled (first : BitVec 64) : List Cycle :=
  filling storing first ++ filling (loading 0x144#32) first

/-- A fetch and a load of a third line of the set miss together, up to the write-back, whose
first beat is late. -/
def missed : List Cycle := waiting fetching (loading 0x244#32) 4

def refilled (first : BitVec 64) : List Cycle :=
  beats fetching (loading 0x244#32) first ++ waiting fetching (loading 0x244#32) 3 ++
    beats fetching (loading 0x244#32) first ++ waiting fetching (loading 0x244#32) 2 ++
    waiting fetching silent 1 ++ beats fetching silent first ++ waiting fetching silent 2

/-- What the store wrote leaves in the first beat of the write-back, and both requests are
answered. -/
theorem hierarchy_coherent_evicting :
    let first : BitVec 64 := 0x7700001100000000#64
    let adaptor : Adaptor := ⟨.reset, 3#256, 2, 9#32⟩
    let start : System := .start (fun _ _ => 1#256) (fun _ _ => 2#256) adaptor
      fun _ => 0x7700001100000000#256
    let i : Cycle := ⟨fetching, loading 0x244#32, 0#64, false, 0#3, 0#3⟩
    let s := run System.step start (filled first)
    let late := run System.step s (i :: missed)
    (late.dCache.state = .missDirty ∧ late.burst.adaptor.state = .w 0 ∧
      late.burst.adaptor.burstO (late.adaptorInputs i) = 0x7700005500000000#64) ∧
    Along System.step (Coherent (· = 3#27) fun _ => 0x7700001100000000#256) start
      (filled first ++ i :: (missed ++ refilled first)) ∧
    WithinVisits System.step moves (AnswersData (loading 0x244#32)) 21 s
      (i :: (missed ++ refilled first)) ∧
    WithinVisits System.step moves (AnswersInstruction fetching) 22 s
      (i :: (missed ++ refilled first)) := by
  intro first adaptor start i s late
  have long : 22 < visits System.step moves s (i :: (missed ++ refilled first)) := by decide +kernel
  obtain ⟨coherent, data, instruction⟩ := hierarchy_coherent (· = 3#27) (fun _ _ => 1#256)
    (fun _ _ => 2#256) adaptor (fun _ => 0x7700001100000000#256) (filled first) i
    (missed ++ refilled first) (by decide +kernel)
  have dAsks : i.dRequest.active = true := rfl
  have iAsks : i.iRequest.active = true := rfl
  refine ⟨⟨?_, ?_, ?_⟩, coherent, data dAsks (Nat.lt_of_succ_lt long), instruction iAsks long⟩
  all_goals decide +kernel

end Mp4.Memory.HierarchyProgress
