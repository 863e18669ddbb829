import CosmOS.Machine

/-!
# TLB shootdown — the request slot and its two sides

A step model of `mm/tlb_shootdown.rs`.  Every atomic load, store and CAS of
`TLB_SHOOTDOWN_STATE` and `LAST_HANDLED_SEQ` is one step.

* **Launcher** (`shootdown_inner`): serialised by `TLB_SHOOTDOWN_LAUNCH_LOCK`, so there is at
  most one `Launch` at a time.  It writes the payload, publishes it, flushes locally, sends the
  IPI and spins on `ack_mask`.
* **Service** (`service_pending_shootdown_quiet`): called from polling sites and from the IPI
  handler.  Each hart has a stack of calls; an interrupt pushes a call on top of the interrupted
  one and only the top call of a hart runs.
* **History**: `State.log` records publications, local flushes, acknowledgements and the ends of
  wait loops, newest first.  No step reads it.

Scope limits: harts are `Fin maxHarts`, so the `hart_id >= MAX_HARTS` exit is not reachable and
hart masks are finite sets; the generation counter is a natural number (the source's `usize`
wraps after `2 ^ 64` shootdowns); debug logging and the statistics counters are left out.
-/

namespace CosmOS.Mm.Shootdown

/-- Harts; the source indexes every per-hart table by `hartid() < MAX_HARTS`. -/
abbrev Hart (maxHarts : ℕ) := Fin maxHarts

/-! ## Requests and their encoding -/

/-- What one shootdown request asks a hart to flush. -/
inductive ShootdownKind
  | global
  | asid (asid : ℕ)
  | page (asid vaddr : ℕ)
  | range (asid start stop : ℕ)
  | addressSpace (token : ℕ)
deriving Repr, DecidableEq

def kindGlobal : ℕ := 0
def kindAddressSpace : ℕ := 1
def kindAsid : ℕ := 2
def kindPage : ℕ := 3
def kindRange : ℕ := 4

/-- The four payload words of the slot: `kind_bits`, `arg_token`, `arg_start`, `arg_end`. -/
structure Payload where
  kindBits : ℕ
  argToken : ℕ
  argStart : ℕ
  argEnd : ℕ
deriving Repr, DecidableEq

def encodeShootdownKind : ShootdownKind → Payload
  | .global => ⟨kindGlobal, 0, 0, 0⟩
  | .addressSpace token => ⟨kindAddressSpace, token, 0, 0⟩
  | .asid asid => ⟨kindAsid, asid, 0, 0⟩
  | .page asid vaddr => ⟨kindPage, asid, vaddr, 0⟩
  | .range asid start stop => ⟨kindRange, asid, start, stop⟩

/-- Unknown kind words decode to a global flush. -/
def decodeShootdownKind (p : Payload) : ShootdownKind :=
  if p.kindBits = kindAddressSpace then .addressSpace p.argToken
  else if p.kindBits = kindAsid then .asid p.argToken
  else if p.kindBits = kindPage then .page p.argToken p.argStart
  else if p.kindBits = kindRange then .range p.argToken p.argStart p.argEnd
  else .global

/-- The slot carries a request without loss. -/
@[simp]
theorem decode_encode (k : ShootdownKind) : decodeShootdownKind (encodeShootdownKind k) = k := by
  cases k <;> rfl

structure Slot (maxHarts : ℕ) where
  active : Bool
  seq : ℕ
  payload : Payload
  targetMask : Finset (Hart maxHarts)
  ackMask : Finset (Hart maxHarts)
deriving DecidableEq

/-- Where a call of `service_pending_shootdown_quiet` stands: the access it makes next,
with the locals it has read so far. -/
inductive ServicePc
  | loadActive
  | loadSeq
  | loadTarget (seq : ℕ)
  | reloadActive (seq : ℕ)
  | reloadSeq (seq : ℕ)
  | loadLast (seq : ℕ)
  | claim (seq observed : ℕ)
  | loadKind (seq : ℕ)
  | loadToken (seq kindBits : ℕ)
  | loadStart (seq kindBits argToken : ℕ)
  | loadEnd (seq kindBits argToken argStart : ℕ)
  | perform (seq : ℕ) (kind : ShootdownKind)
  | ack (seq : ℕ) (kind : ShootdownKind)
deriving Repr, DecidableEq

inductive LaunchPc
  | loadOnline
  | loadSeq
  | storeKind
  | storeToken
  | storeStart
  | storeEnd
  | storeTarget
  | clearAck
  | bumpSeq
  | activate
  | performLocal
  | sendIpi
  | waitAcks
  | deactivate
  | clearTarget
  | clearAckAgain
deriving Repr, DecidableEq

/-- A running `shootdown_inner`: its arguments, its locals and its position. -/
structure Launch (maxHarts : ℕ) where
  hart : Hart maxHarts
  hartMask : Finset (Hart maxHarts)
  kind : ShootdownKind
  targetMask : Finset (Hart maxHarts)
  seq : ℕ
  pc : LaunchPc
deriving DecidableEq

inductive Event (maxHarts : ℕ)
  | publish (seq : ℕ) (target : Finset (Hart maxHarts)) (kind : ShootdownKind)
  | flush (hart : Hart maxHarts) (kind : ShootdownKind)
  | ack (hart : Hart maxHarts) (seq : ℕ)
  | leave (seq : ℕ)
deriving DecidableEq

structure State (maxHarts : ℕ) where
  slot : Slot maxHarts
  online : Finset (Hart maxHarts)
  lastHandled : Hart maxHarts → ℕ
  calls : Hart maxHarts → List ServicePc
  launcher : Option (Launch maxHarts)
  log : List (Event maxHarts)

variable {maxHarts : ℕ}

/-- The state at boot: nothing requested, nothing handled. -/
def boot : State maxHarts where
  slot := ⟨false, 0, ⟨0, 0, 0, 0⟩, ∅, ∅⟩
  online := ∅
  lastHandled := fun _ => 0
  calls := fun _ => []
  launcher := none
  log := []

/-! ## The service side -/

variable (s : State maxHarts) (h : Hart maxHarts) (rest : List ServicePc)

/-- The top call of `h` continues at `pc`; `rest` are the calls it interrupted. -/
def State.goto (pc : ServicePc) : State maxHarts :=
  { s with calls := Function.update s.calls h (pc :: rest) }

def State.ret :
    State maxHarts :=
  { s with calls := Function.update s.calls h rest }

/-- The head of the claim loop: leave when the generation is already handled, else try to
claim it from the value just observed. -/
def State.observe (seq observed : ℕ) : State maxHarts :=
  if observed = seq then s.ret h rest else s.goto h rest (.claim seq observed)

/-- One access of `service_pending_shootdown_quiet` on hart `h`.  `spurious` lets a
`compare_exchange_weak` fail although the value matches. -/
def service (spurious : Bool)
    (rest : List ServicePc) : ServicePc → State maxHarts
  | .loadActive => if s.slot.active then s.goto h rest .loadSeq else s.ret h rest
  | .loadSeq => s.goto h rest (.loadTarget s.slot.seq)
  | .loadTarget seq =>
    if h ∈ s.slot.targetMask then s.goto h rest (.reloadActive seq) else s.ret h rest
  | .reloadActive seq =>
    if s.slot.active then s.goto h rest (.reloadSeq seq) else s.ret h rest
  | .reloadSeq seq =>
    if s.slot.seq = seq then s.goto h rest (.loadLast seq) else s.ret h rest
  | .loadLast seq => s.observe h rest seq (s.lastHandled h)
  | .claim seq observed =>
    if s.lastHandled h = observed ∧ spurious = false then
      { s with lastHandled := Function.update s.lastHandled h seq }.goto h rest (.loadKind seq)
    else s.observe h rest seq (s.lastHandled h)
  | .loadKind seq => s.goto h rest (.loadToken seq s.slot.payload.kindBits)
  | .loadToken seq kindBits => s.goto h rest (.loadStart seq kindBits s.slot.payload.argToken)
  | .loadStart seq kindBits argToken =>
    s.goto h rest (.loadEnd seq kindBits argToken s.slot.payload.argStart)
  | .loadEnd seq kindBits argToken argStart =>
    s.goto h rest (.perform seq
      (decodeShootdownKind ⟨kindBits, argToken, argStart, s.slot.payload.argEnd⟩))
  | .perform seq kind =>
    { s with log := .flush h kind :: s.log }.goto h rest (.ack seq kind)
  | .ack seq _ =>
    { s with
      slot := { s.slot with ackMask := insert h s.slot.ackMask }
      log := .ack h seq :: s.log }.ret h rest

/-! ## The launcher side -/

def State.launchAt (L : Launch maxHarts) (pc : LaunchPc) :
    State maxHarts :=
  { s with launcher := some { L with pc := pc } }

/-- One access of `shootdown_inner`.  `none` only while the wait loop has to keep spinning. -/
def launchStep (L : Launch maxHarts) : Option (State maxHarts) :=
  match L.pc with
  | .loadOnline =>
    some (s.launchAt { L with targetMask := (L.hartMask ∩ s.online).erase L.hart } .loadSeq)
  | .loadSeq => some (s.launchAt { L with seq := s.slot.seq + 1 } .storeKind)
  | .storeKind =>
    some ({ s with slot := { s.slot with payload := { s.slot.payload with
      kindBits := (encodeShootdownKind L.kind).kindBits } } }.launchAt L .storeToken)
  | .storeToken =>
    some ({ s with slot := { s.slot with payload := { s.slot.payload with
      argToken := (encodeShootdownKind L.kind).argToken } } }.launchAt L .storeStart)
  | .storeStart =>
    some ({ s with slot := { s.slot with payload := { s.slot.payload with
      argStart := (encodeShootdownKind L.kind).argStart } } }.launchAt L .storeEnd)
  | .storeEnd =>
    some ({ s with slot := { s.slot with payload := { s.slot.payload with
      argEnd := (encodeShootdownKind L.kind).argEnd } } }.launchAt L .storeTarget)
  | .storeTarget =>
    some ({ s with slot := { s.slot with targetMask := L.targetMask } }.launchAt L .clearAck)
  | .clearAck => some ({ s with slot := { s.slot with ackMask := ∅ } }.launchAt L .bumpSeq)
  | .bumpSeq =>
    some ({ s with slot := { s.slot with seq := s.slot.seq + 1 } }.launchAt L .activate)
  | .activate =>
    some ({ s with
      slot := { s.slot with active := true }
      log := .publish L.seq L.targetMask L.kind :: s.log }.launchAt L .performLocal)
  | .performLocal =>
    some ({ s with log := .flush L.hart L.kind :: s.log }.launchAt L
      (if L.targetMask = ∅ then .deactivate else .sendIpi))
  | .sendIpi => some (s.launchAt L .waitAcks)
  | .waitAcks =>
    if s.slot.ackMask ∩ L.targetMask = L.targetMask then
      some ({ s with log := .leave L.seq :: s.log }.launchAt L .deactivate)
    else none
  | .deactivate =>
    some ({ s with slot := { s.slot with active := false } }.launchAt L .clearTarget)
  | .clearTarget =>
    some ({ s with slot := { s.slot with targetMask := ∅ } }.launchAt L .clearAckAgain)
  | .clearAckAgain =>
    -- The guard is dropped with the return of `shootdown_inner`.
    some { s with slot := { s.slot with ackMask := ∅ }, launcher := none }

/-- Moves: a hart comes online, a poll or an IPI starts a call on a hart, the top call of a hart
makes its next access, a hart takes the launch lock, the launcher makes its next access. -/
inductive Label (maxHarts : ℕ)
  | markOnline (h : Hart maxHarts)
  | enter (h : Hart maxHarts)
  | service (h : Hart maxHarts) (spurious : Bool)
  | launch (h : Hart maxHarts) (hartMask : Finset (Hart maxHarts)) (kind : ShootdownKind)
  | launcher
deriving DecidableEq

def next : Label maxHarts → Option (State maxHarts)
  | .markOnline h => some { s with online := insert h s.online }
  | .enter h => some (s.goto h (s.calls h) .loadActive)
  | .service h spurious =>
    match s.calls h with
    | [] => none
    | pc :: rest => some (service s h spurious rest pc)
  | .launch h hartMask kind =>
    match s.launcher with
    | some _ => none
    | none => some { s with launcher := some ⟨h, hartMask, kind, ∅, 0, .loadOnline⟩ }
  | .launcher => s.launcher.bind (launchStep s)

def machine (maxHarts : ℕ) : Machine (State maxHarts) (Label maxHarts) where
  Init := fun s => s = boot
  next := next

/-! ## The property -/

def Event.isPublish (seq : ℕ) : Event maxHarts → Bool
  | .publish q _ _ => q = seq
  | _ => false

/-- The part of the history after the publication of generation `seq`. -/
def since (seq : ℕ) (log : List (Event maxHarts)) : List (Event maxHarts) :=
  log.takeWhile fun e => !e.isPublish seq

def LaunchPc.hasLeft : LaunchPc → Bool
  | .deactivate | .clearTarget | .clearAckAgain => true
  | _ => false

/-- Every hart the launcher waited for has flushed exactly what was asked, after the request was
published. -/
def NoPrematureAck : Prop :=
  ∀ L, s.launcher = some L → L.pc.hasLeft →
    ∀ h ∈ L.targetMask, Event.flush h L.kind ∈ since L.seq s.log

/-- No hart acknowledges one generation twice. -/
def AckedOnce : Prop :=
  ∀ h seq, s.log.count (.ack h seq) ≤ 1

/-- The claiming CAS moves `LAST_HANDLED_SEQ` forward: a CAS that would succeed does not go back
from a generation newer than the one being claimed. -/
def ClaimsForward : Label maxHarts → Prop
  | .service h false =>
    match s.calls h with
    | .claim seq observed :: _ => s.lastHandled h = observed → observed ≤ seq
    | _ => True
  | _ => True

instance (l : Label maxHarts) : Decidable (ClaimsForward s l) := by
  unfold ClaimsForward
  split
  · split <;> infer_instance
  · infer_instance

end CosmOS.Mm.Shootdown
