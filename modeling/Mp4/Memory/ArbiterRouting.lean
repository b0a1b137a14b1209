import Mp4.Lib.Clocked
import Mp4.Lib.Handshake
import Mp4.Memory.Arbiter
import Mp4.Memory.LineBus

/-!
Routing safety of the arbiter over every run in which both clients hold their requests
and the next level answers what is asked: each answer goes to the client whose request
is on the wires, and every request is one transaction of the next level.
-/

set_option autoImplicit false
set_option relaxedAutoImplicit false

namespace Mp4.Memory.ArbiterRouting

open Mp4.Lib.Clocked Mp4.Lib.Handshake Mp4.Memory.Address Mp4.Memory.Arbiter
open Mp4.Memory.LineBus

inductive Client
  | iCache | dCache
  deriving DecidableEq, Repr

def offer (i : Inputs) : Client → Option Request
  | .iCache => request i.iCacheRead false i.iCacheAddress 0#256
  | .dCache => request i.dCacheRead i.dCacheWrite i.dCacheAddress i.dCacheWdata

def memResp (o : Outputs) : Client → Bool
  | .iCache => o.iCacheMemResp
  | .dCache => o.dCacheMemResp

def rdata (o : Outputs) : Client → Line
  | .iCache => o.iCacheRdata
  | .dCache => o.dCacheRdata

def answer (o : Outputs) (c : Client) : Option Line :=
  if memResp o c then some (rdata o c) else none

def nextOffer (o : Outputs) : Option Request :=
  request o.arbNextLevelRead o.arbNextLevelWrite o.arbNextLevelAddress o.arbNextLevelWdata

def nextAnswer (i : Inputs) : Option Line :=
  if i.nextLevelArbMemResp then some i.nextLevelArbRdata else none

def granted : State → Option Client
  | .idle => none
  | .iCacheAllow => some .iCache
  | .dCacheAllow => some .dCache

/-- The arbiter with a ledger of each link, and the answers in the order in which the
clients have seen them. -/
structure System where
  state : State
  ports : Client → Port Request Line
  nextLevel : Port Request Line
  delivered : List (Client × Request × Line)

namespace System

def deliveries (i : Inputs) (o : Outputs) (c : Client) : List (Client × Request × Line) :=
  (Port.exchanged (offer i c) (answer o c)).map fun e => (c, e)

def step (i : Inputs) (s : System) : System :=
  let o := outputs s.state i
  { state := nextState s.state i
    ports := fun c => (s.ports c).next (offer i c) (answer o c)
    nextLevel := s.nextLevel.next (nextOffer o) (nextAnswer i)
    delivered := s.delivered ++ deliveries i o .iCache ++ deliveries i o .dCache }

def start : System := ⟨.idle, fun _ => .idle, .idle, []⟩

end System

def Holding (i : Inputs) (s : System) : Prop :=
  (s.ports .iCache).Held (offer i .iCache) ∧ (s.ports .dCache).Held (offer i .dCache)

instance (i : Inputs) (s : System) : Decidable (Holding i s) := by
  unfold Holding
  infer_instance

/-- Both clients hold their requests, and the next level answers an asserted request. -/
def Admitted (i : Inputs) (s : System) : Prop :=
  Holding i s ∧
  (i.nextLevelArbMemResp = true → (nextOffer (outputs s.state i)).isSome = true)

instance (i : Inputs) (s : System) : Decidable (Admitted i s) := by
  unfold Admitted
  infer_instance

/-- What a cycle shows. -/
structure Safe (i : Inputs) (s : System) : Prop where
  notBoth : ¬((outputs s.state i).arbNextLevelRead = true ∧
    (outputs s.state i).arbNextLevelWrite = true)
  /-- The granted client's request is on the wires, from grant to answer. -/
  serves : ∀ c ∈ granted s.state,
    (offer i c).isSome = true ∧ nextOffer (outputs s.state i) = offer i c
  silent : s.state = .idle → nextOffer (outputs s.state i) = none
  stable : s.nextLevel.Held (nextOffer (outputs s.state i))
  /-- An answer goes, with its data, to the client it serves and to no other. -/
  routed : i.nextLevelArbMemResp = true → ∃ c,
    nextOffer (outputs s.state i) = offer i c ∧ memResp (outputs s.state i) c = true ∧
    rdata (outputs s.state i) c = i.nextLevelArbRdata ∧
    ∀ c', c' ≠ c → memResp (outputs s.state i) c' = false
  unasked : i.nextLevelArbMemResp = false → ∀ c, memResp (outputs s.state i) c = false
  priority : s.state = .idle → (offer i .dCache).isSome = true →
    granted (nextState s.state i) = some .dCache

/-- What a run amounts to. -/
structure Accounts (s : System) : Prop where
  /-- Each client's requests have been answered once each, in order. -/
  clients : ∀ c, (s.ports c).Balanced
  nextLevel : s.nextLevel.Balanced
  /-- The answers to the clients are the completed transactions of the next level. -/
  once : s.delivered.map Prod.snd = s.nextLevel.answered
  answers : ∀ c, (s.delivered.filter fun e => e.1 = c).map Prod.snd = (s.ports c).answered

/-- The granted client's request is pending, and so is nothing else at the next level. -/
structure Inv (s : System) : Prop where
  serving : ∀ c ∈ granted s.state, ∃ r, (s.ports c).pending = some r ∧
    ∀ r' ∈ s.nextLevel.pending, r' = r
  quiet : s.state = .idle → s.nextLevel.pending = none
  accounts : Accounts s

section Wires

variable (state : State) (i : Inputs)

private theorem nextOffer_outputs (asked : ∀ c ∈ granted state, (offer i c).isSome = true) :
    nextOffer (outputs state i) = (granted state).bind (offer i) := by
  cases state with
  | idle => rfl
  | iCacheAllow =>
    have read : i.iCacheRead = true := by
      have some := asked .iCache rfl
      cases h : i.iCacheRead <;> simp [offer, request, h] at some ⊢
    cases h : i.nextLevelArbMemResp <;>
      simp [nextOffer, outputs, granted, offer, request, read, h]
  | dCacheAllow =>
    cases h : i.nextLevelArbMemResp <;> cases read : i.dCacheRead <;>
      cases write : i.dCacheWrite <;>
      simp [nextOffer, outputs, granted, offer, request, read, write, h, Outputs.defaults]

theorem answer_outputs (c : Client) :
    answer (outputs state i) c = if granted state = some c then nextAnswer i else none := by
  cases state with
  | idle => cases c <;> rfl
  | iCacheAllow =>
    cases c <;> cases h : i.nextLevelArbMemResp <;>
      simp [answer, memResp, rdata, outputs, granted, nextAnswer, h, Outputs.defaults]
  | dCacheAllow =>
    cases c <;> cases h : i.nextLevelArbMemResp <;> cases read : i.dCacheRead <;>
      cases write : i.dCacheWrite <;>
      simp [answer, memResp, rdata, outputs, granted, nextAnswer, h, read, write,
        Outputs.defaults]

theorem not_read_and_write : ¬((outputs state i).arbNextLevelRead = true ∧
    (outputs state i).arbNextLevelWrite = true) := by
  cases state <;> cases h : i.nextLevelArbMemResp <;> cases read : i.dCacheRead <;>
    cases write : i.dCacheWrite <;> simp [outputs, h, read, write, Outputs.defaults]

end Wires

section Step

variable {i : Inputs} {s : System}

theorem served_offer (inv : Inv s) (holding : Holding i s) {c : Client}
    (serves : granted s.state = some c) :
    ∃ r, offer i c = some r ∧ nextOffer (outputs s.state i) = some r ∧
      ∀ r' ∈ s.nextLevel.pending, r' = r := by
  obtain ⟨r, pending, alone⟩ := inv.serving c serves
  have held : offer i c = some r := by
    cases c with
    | iCache => exact holding.1 r pending
    | dCache => exact holding.2 r pending
  have passed := nextOffer_outputs s.state i (by
    intro c' serves'
    rw [Option.mem_def, serves] at serves'
    obtain rfl := Option.some.inj serves'
    rw [held]
    rfl)
  rw [serves, Option.bind_some, held] at passed
  exact ⟨r, held, passed, alone⟩

private theorem idle_offer (idle : s.state = .idle) : nextOffer (outputs s.state i) = none := by
  rw [idle]
  rfl

private theorem answered_granted (admitted : Admitted i s) (resp : i.nextLevelArbMemResp = true) :
    ∃ c, granted s.state = some c := by
  have asked := admitted.2 resp
  cases state : s.state with
  | idle =>
    rw [idle_offer state] at asked
    cases asked
  | iCacheAllow => exact ⟨.iCache, rfl⟩
  | dCacheAllow => exact ⟨.dCache, rfl⟩

theorem inv_safe (inv : Inv s) (admitted : Admitted i s) : Safe i s := by
  constructor
  · exact not_read_and_write s.state i
  · intro c serves
    obtain ⟨r, held, passed, -⟩ := served_offer inv admitted.1 serves
    rw [held, passed]
    exact ⟨rfl, rfl⟩
  · exact idle_offer
  · intro r' pending
    cases serves : granted s.state with
    | none =>
      have idle : s.state = .idle := by cases h : s.state <;> simp [granted, h] at serves ⊢
      rw [inv.quiet idle] at pending
      cases pending
    | some c =>
      obtain ⟨r, -, passed, alone⟩ := served_offer inv admitted.1 serves
      rw [passed, alone r' pending]
  · intro resp
    obtain ⟨c, serves⟩ := answered_granted admitted resp
    obtain ⟨r, held, passed, -⟩ := served_offer inv admitted.1 serves
    have own := answer_outputs s.state i c
    rw [if_pos serves, nextAnswer, if_pos resp, answer] at own
    refine ⟨c, by rw [held, passed], ?_, ?_, ?_⟩
    · by_contra silent
      rw [if_neg silent] at own
      cases own
    · split_ifs at own
      exact Option.some.inj own
    · intro c' other
      have none := answer_outputs s.state i c'
      rw [if_neg (by rw [serves]; simpa using Ne.symm other), answer] at none
      simpa using none
  · intro silent c
    have none := answer_outputs s.state i c
    have quiet : nextAnswer i = Option.none := by simp [nextAnswer, silent]
    rw [quiet, ite_self, answer] at none
    simpa using none
  · intro idle asked
    have active : (i.dCacheRead || i.dCacheWrite) = true := by
      cases read : i.dCacheRead <;> cases write : i.dCacheWrite <;>
        simp [offer, request, read, write] at asked ⊢
    rw [idle, nextState, if_pos active]
    rfl

private theorem deliveries_once (inv : Inv s) (admitted : Admitted i s) :
    (System.deliveries i (outputs s.state i) .iCache ++
      System.deliveries i (outputs s.state i) .dCache).map Prod.snd =
    Port.exchanged (nextOffer (outputs s.state i)) (nextAnswer i) := by
  have each (c : Client) : (System.deliveries i (outputs s.state i) c).map Prod.snd =
      Port.exchanged (offer i c) (if granted s.state = some c then nextAnswer i else none) := by
    rw [System.deliveries, answer_outputs, List.map_map]
    exact List.map_id _
  have nobody (c : Client) : Port.exchanged (offer i c) (none : Option Line) = [] := by
    cases offer i c <;> rfl
  rw [List.map_append, each, each]
  cases serves : granted s.state with
  | none =>
    have idle : s.state = .idle := by cases h : s.state <;> simp [granted, h] at serves ⊢
    rw [idle_offer idle]
    simp [Port.exchanged]
  | some c =>
    obtain ⟨r, held, passed, -⟩ := served_offer inv admitted.1 serves
    rw [passed, ← held]
    cases c <;> simp [nobody]

private theorem serving_next (inv : Inv s) (admitted : Admitted i s) (c : Client)
    (serves : granted (s.step i).state = some c) :
    ∃ r, ((s.step i).ports c).pending = some r ∧ ∀ r' ∈ (s.step i).nextLevel.pending, r' = r := by
  have unanswered (c' : Client) (r : Request) (held : offer i c' = some r)
      (silent : answer (outputs s.state i) c' = none) :
      ((s.step i).ports c').pending = some r := by
    simp [System.step, Port.next, silent, held]
  cases before : granted s.state with
  | none =>
    have idle : s.state = .idle := by cases h : s.state <;> simp [granted, h] at before ⊢
    have asked : (offer i c).isSome = true := by
      rw [System.step, idle, nextState] at serves
      cases read : i.dCacheRead <;> cases write : i.dCacheWrite <;> cases fetch : i.iCacheRead <;>
        cases c <;> simp [granted, offer, request, read, write, fetch] at serves ⊢
    obtain ⟨r, held⟩ := Option.isSome_iff_exists.mp asked
    refine ⟨r, unanswered c r held ?_, ?_⟩
    · rw [answer_outputs, before, if_neg (by simp)]
    · intro r' pending
      simp [System.step, Port.next, idle_offer idle] at pending
  | some c' =>
    obtain ⟨r, held, passed, -⟩ := served_offer inv admitted.1 before
    have stays : c = c' ∧ i.nextLevelArbMemResp = false := by
      rw [System.step] at serves
      cases h : s.state <;> cases resp : i.nextLevelArbMemResp <;>
        simp_all [granted, nextState]
    obtain ⟨rfl, silent⟩ := stays
    refine ⟨r, unanswered c r held ?_, ?_⟩
    · rw [answer_outputs, nextAnswer, silent]
      simp
    · intro r' pending
      simpa [System.step, Port.next, nextAnswer, silent, passed] using pending.symm

theorem inv_step (i : Inputs) (s : System) (inv : Inv s) (admitted : Admitted i s) :
    Inv (s.step i) := by
  have asked (c : Client) : (answer (outputs s.state i) c).isSome → (offer i c).isSome := by
    intro given
    rw [answer_outputs] at given
    split_ifs at given with serves
    · obtain ⟨r, held, -⟩ := served_offer inv admitted.1 serves
      rw [held]
      rfl
    · cases given
  have accounts := inv.accounts
  constructor
  · exact serving_next inv admitted
  · intro idle
    cases resp : i.nextLevelArbMemResp with
    | true => simp [System.step, Port.next, nextAnswer, resp]
    | false =>
      have was : s.state = .idle := by
        rw [System.step] at idle
        cases h : s.state <;> simp [nextState, h, resp] at idle ⊢
      simp [System.step, Port.next, idle_offer was]
  · constructor
    · intro c
      refine (accounts.clients c).next ?_ (asked c)
      cases c with
      | iCache => exact admitted.1.1
      | dCache => exact admitted.1.2
    · refine accounts.nextLevel.next (inv_safe inv admitted).stable ?_
      intro given
      refine admitted.2 ?_
      by_contra silent
      simp [nextAnswer, silent] at given
    · have once := deliveries_once inv admitted
      simp only [System.step, Port.next, List.append_assoc, List.map_append] at once ⊢
      rw [once, accounts.once]
    · intro c
      have mine (c' : Client) :
          ((System.deliveries i (outputs s.state i) c').filter fun e => e.1 = c).map Prod.snd =
            if c' = c then Port.exchanged (offer i c') (answer (outputs s.state i) c') else [] := by
        split_ifs with this
        · simp [System.deliveries, List.filter_map, Function.comp_def, this]
        · simp [System.deliveries, List.filter_map, Function.comp_def, this]
      simp only [System.step, Port.next, List.filter_append, List.map_append, mine,
        accounts.answers c]
      cases c <;> simp

end Step

theorem inv_start : Inv .start := by
  constructor
  · intro c serves
    cases serves
  · intro _
    rfl
  · exact ⟨fun _ => Port.balanced_idle, Port.balanced_idle, rfl, fun _ => rfl⟩

/-- From reset, in every run with held requests and asked-for answers, every cycle is safe
and the accounts of both clients and of the next level agree. -/
theorem arbiter_routes (is : List Inputs) (admitted : Along System.step Admitted .start is) :
    Along System.step Safe .start is ∧ Accounts (run System.step .start is) :=
  ⟨along_invariant inv_step (fun _ _ => inv_safe) inv_start admitted,
    (run_invariant inv_step inv_start admitted).accounts⟩

def contended : List Inputs :=
  let write (resp : Bool) : Inputs := ⟨true, 0x60#32, false, true, 0x200#32, 9#256, resp, 0#256⟩
  let read (resp : Bool) : Inputs := ⟨true, 0x60#32, true, false, 0x300#32, 0#256, resp, 4#256⟩
  let fetch (resp : Bool) : Inputs :=
    ⟨true, 0x60#32, false, false, 0#32, 0#256, resp, 5#256⟩
  [write false, write false, write true, read false, read true, fetch false, fetch false,
    fetch true]

theorem arbiter_routes_contended :
    Along System.step Safe .start contended ∧
      (run System.step .start contended).delivered =
        [(.dCache, .write 0x200#32 9#256, 0#256), (.dCache, .read 0x300#32, 4#256),
          (.iCache, .read 0x60#32, 5#256)] := by
  have admitted : Along System.step Admitted .start contended := by decide +kernel
  exact ⟨(arbiter_routes contended admitted).1, by decide +kernel⟩

end Mp4.Memory.ArbiterRouting
