import CosmOS.Mm.TlbShootdown

/-!
# TLB shootdown — safety of the slot

The invariant behind `NoPrematureAck` and `AckedOnce`, for runs in which the claiming CAS only
moves `LAST_HANDLED_SEQ` forward (`ClaimsForward`).

A hart that has claimed the open generation pins it: the launcher keeps waiting, the payload
stays put, and the hart's acknowledgement bit is still clear (`Claimed`).  Everything else says
what a call may still believe about the values it has read (`CallOk`) and how far the launcher
has filled the slot (`SlotOk`).
-/

namespace CosmOS.Mm.Shootdown

open Shootdown State

open Function List

variable {maxHarts seq : ℕ}

/-! ## Phases of a launch -/

def LaunchPc.rank : LaunchPc → ℕ
  | .loadOnline => 0
  | .loadSeq => 1
  | .storeKind => 2
  | .storeToken => 3
  | .storeStart => 4
  | .storeEnd => 5
  | .storeTarget => 6
  | .clearAck => 7
  | .bumpSeq => 8
  | .activate => 9
  | .performLocal => 10
  | .sendIpi => 11
  | .waitAcks => 12
  | .deactivate => 13
  | .clearTarget => 14
  | .clearAckAgain => 15

open LaunchPc

/-- The counter is bumped and the slot still carries the request. -/
def Launch.Open (L : Launch maxHarts) : Prop := 9 ≤ L.pc.rank ∧ L.pc.rank ≤ 13

/-- The request is published and the wait loop has not ended. -/
def Launch.Waiting (L : Launch maxHarts) : Prop := 10 ≤ L.pc.rank ∧ L.pc.rank ≤ 12

/-! ## History -/

variable {log : List (Event maxHarts)}

theorem mem_since_cons {e e' : Event maxHarts} (he : e.isPublish seq = false)
    (h : e' ∈ since seq log) : e' ∈ since seq (e :: log) := by
  simp only [since, takeWhile_cons, he]
  exact .tail e h

theorem mem_since_cons_self {e : Event maxHarts} (he : e.isPublish seq = false) : e ∈ since seq (e :: log) := by
  simp only [since, takeWhile_cons, he]
  exact .head _

variable (s : State maxHarts)

/-- Generation `q` was published with `h` among its targets. -/
def Targeted (q : ℕ) (h : Hart maxHarts) : Prop :=
  ∃ M k, Event.publish q M k ∈ s.log ∧ h ∈ M

/-- The launcher of generation `q` is still waiting, and `h` is one of its targets. -/
def Awaited (q : ℕ) (h : Hart maxHarts) : Prop :=
  ∃ L, s.launcher = some L ∧ L.Waiting ∧ L.seq = q ∧ h ∈ L.targetMask

/-- Hart `h` has claimed generation `q` and not acknowledged it. -/
structure Claimed (s : State maxHarts) (q : ℕ) (h : Hart maxHarts) : Prop where
  awaited : Awaited s q h
  last : s.lastHandled h = q
  unacked : h ∉ s.slot.ackMask
  unlogged : Event.ack h q ∉ s.log

/-- Hart `h` has flushed what the launcher asked for since the publication of `q`. -/
def Flushed (q : ℕ) (h : Hart maxHarts) : Prop :=
  ∀ L, s.launcher = some L → Event.flush h L.kind ∈ since q s.log

/-- What a call on hart `h` may rely on at each position. -/
def CallOk (h : Hart maxHarts) : ServicePc → Prop
  | .loadActive | .loadSeq => True
  | .loadTarget q => q ≤ s.slot.seq
  | .reloadActive q =>
    q ≤ s.slot.seq ∧
      ∀ L, s.launcher = some L → L.Open → L.seq = q → h ∈ L.targetMask
  | .reloadSeq q => q ≤ s.slot.seq ∧ (q = s.slot.seq → Targeted s q h)
  | .loadLast q => Targeted s q h
  | .claim q observed => Targeted s q h ∧ observed ≠ q
  | .loadKind q => Claimed s q h
  | .loadToken q kindBits => Claimed s q h ∧ kindBits = s.slot.payload.kindBits
  | .loadStart q kindBits argToken =>
    Claimed s q h ∧ kindBits = s.slot.payload.kindBits ∧ argToken = s.slot.payload.argToken
  | .loadEnd q kindBits argToken argStart =>
    Claimed s q h ∧ kindBits = s.slot.payload.kindBits ∧
      argToken = s.slot.payload.argToken ∧ argStart = s.slot.payload.argStart
  | .perform q kind => Claimed s q h ∧ kind = decodeShootdownKind s.slot.payload
  | .ack q _ => Claimed s q h ∧ Flushed s q h

def ServicePc.pastClaim : ServicePc → Bool
  | .loadKind _ | .loadToken .. | .loadStart .. | .loadEnd .. | .perform .. | .ack .. => true
  | _ => false

open ServicePc

/-- How far the launcher has filled the slot. -/
structure SlotOk (s : State maxHarts) (L : Launch maxHarts) : Prop where
  active : s.slot.active = decide (10 ≤ L.pc.rank ∧ L.pc.rank ≤ 13)
  seq_ahead : 2 ≤ L.pc.rank → L.pc.rank ≤ 8 → L.seq = s.slot.seq + 1
  seq_eq : 9 ≤ L.pc.rank → L.seq = s.slot.seq
  kindBits : 3 ≤ L.pc.rank → s.slot.payload.kindBits = (encodeShootdownKind L.kind).kindBits
  argToken : 4 ≤ L.pc.rank → s.slot.payload.argToken = (encodeShootdownKind L.kind).argToken
  argStart : 5 ≤ L.pc.rank → s.slot.payload.argStart = (encodeShootdownKind L.kind).argStart
  argEnd : 6 ≤ L.pc.rank → s.slot.payload.argEnd = (encodeShootdownKind L.kind).argEnd
  target : 7 ≤ L.pc.rank → L.pc.rank ≤ 14 → s.slot.targetMask = L.targetMask
  ack_empty : 8 ≤ L.pc.rank → L.pc.rank ≤ 9 → s.slot.ackMask = ∅
  published : 10 ≤ L.pc.rank → Event.publish L.seq L.targetMask L.kind ∈ s.log
  acked : L.Waiting → ∀ h ∈ s.slot.ackMask,
    s.lastHandled h = L.seq ∧ Event.flush h L.kind ∈ since L.seq s.log
  flushed : L.pc.hasLeft → ∀ h ∈ L.targetMask, Event.flush h L.kind ∈ since L.seq s.log

structure Inv (s : State maxHarts) : Prop where
  idle : s.launcher = none → s.slot.active = false
  slot : ∀ L, s.launcher = some L → SlotOk s L
  calls : ∀ h, ∀ pc ∈ s.calls h, CallOk s h pc
  one_claim : ∀ h, (s.calls h).countP ServicePc.pastClaim ≤ 1
  /-- A targeted hart that has not claimed its generation is still waited for. -/
  pending : ∀ q h, Targeted s q h → s.lastHandled h < q → Awaited s q h
  acked_le : ∀ h q, Event.ack h q ∈ s.log → q ≤ s.lastHandled h
  acked_once : AckedOnce s

/-! ## Consequences of the invariant -/

variable {s s' : State maxHarts} {L : Launch maxHarts} {g h : Hart maxHarts} {q : ℕ}
  {pc pc' : ServicePc} {rest : List ServicePc}

theorem Awaited.unique (ha : Awaited s q h) (hL : s.launcher = some L) :
    L.Waiting ∧ L.seq = q ∧ h ∈ L.targetMask := by
  obtain ⟨L', hL', hw, hq, hm⟩ := ha
  obtain rfl : L' = L := Option.some.inj (hL'.symm.trans hL)
  exact ⟨hw, hq, hm⟩

/-- While the request is published, the slot holds exactly the launcher's kind. -/
theorem SlotOk.decode (hs : SlotOk s L) (hw : L.Waiting) :
    decodeShootdownKind s.slot.payload = L.kind := by
  obtain ⟨h10, -⟩ := hw
  have hpay : s.slot.payload = encodeShootdownKind L.kind := by
    have h1 := hs.kindBits (by omega)
    have h2 := hs.argToken (by omega)
    have h3 := hs.argStart (by omega)
    have h4 := hs.argEnd (by omega)
    cases hp : s.slot.payload
    cases he : encodeShootdownKind L.kind
    simp_all
  rw [hpay, decode_encode]

section

variable (hinv : Inv s) (hseq : s.slot.seq ≤ s'.slot.seq)
  (hopen : ∀ L', s'.launcher = some L' → L'.Open → L'.seq ≤ s.slot.seq →
    ∃ L, s.launcher = some L ∧ L.Open ∧ L.seq = L'.seq ∧ L.targetMask = L'.targetMask)
  (hlog : ∀ e ∈ s.log, e ∈ s'.log)

include hseq hopen hlog

/-- A call that claims nothing depends only on the counter, the launcher and the history; a
call past its claim also on what its claim pins. -/
theorem CallOk.mono
    (hclaim : ∀ q, pc.pastClaim = true → Claimed s q h →
      Claimed s' q h ∧ s'.slot.payload = s.slot.payload ∧ (Flushed s q h → Flushed s' q h))
    (hok : CallOk s h pc) : CallOk s' h pc := by
  have htarget : ∀ q, Targeted s q h → Targeted s' q h := by
    rintro q ⟨M, k, hp, hm⟩
    exact ⟨M, k, hlog _ hp, hm⟩
  cases pc with
  | loadActive | loadSeq => trivial
  | loadTarget q => exact le_trans hok hseq
  | reloadActive q =>
    obtain ⟨hq, ho⟩ := hok
    refine ⟨le_trans hq hseq, ?_⟩
    intro L' hL' hop' hseq'
    obtain ⟨L, hL, hop, hsL, htL⟩ := hopen L' hL' hop' (by omega)
    rw [← htL]
    exact ho L hL hop (by omega)
  | reloadSeq q =>
    obtain ⟨hq, ht⟩ := hok
    refine ⟨le_trans hq hseq, ?_⟩
    intro hq'
    exact htarget q (ht (by omega))
  | loadLast q => exact htarget q hok
  | claim q observed => exact ⟨htarget q hok.1, hok.2⟩
  | loadKind q => exact (hclaim q rfl hok).1
  | loadToken q _ | loadStart q _ _ | loadEnd q _ _ _ | perform q _ =>
    obtain ⟨hc, hp, -⟩ := hclaim q rfl hok.1
    exact ⟨hc, by rw [hp]; exact hok.2⟩
  | ack q k =>
    obtain ⟨hc, -, hf⟩ := hclaim q rfl hok.1
    exact ⟨hc, hf hok.2⟩

include hinv in
/-- A step that starts or ends no call keeps what its calls rely on. -/
theorem Inv.frame (hcalls : s'.calls = s.calls)
    (hclaim : ∀ h, ∀ pc ∈ s.calls h, pc.pastClaim = true → ∀ q, Claimed s q h → Claimed s' q h ∧
      s'.slot.payload = s.slot.payload ∧ (Flushed s q h → Flushed s' q h))
    (hidle : s'.launcher = none → s'.slot.active = false)
    (hslot : ∀ L, s'.launcher = some L → SlotOk s' L)
    (hpending : ∀ q h, Targeted s' q h → s'.lastHandled h < q → Awaited s' q h)
    (hle : ∀ h q, Event.ack h q ∈ s'.log → q ≤ s'.lastHandled h) (honce : AckedOnce s') :
    Inv s' := by
  refine ⟨hidle, hslot, ?_, hcalls ▸ hinv.one_claim, hpending, hle, honce⟩
  intro h pc hpc
  rw [hcalls] at hpc
  exact (hinv.calls h pc hpc).mono hseq hopen hlog fun q hpast => hclaim h pc hpc hpast q

end

theorem same_open {L' : Launch maxHarts} (hL' : s.launcher = some L') (hop : L'.Open)
    (_ : L'.seq ≤ s.slot.seq) :
    ∃ L, s.launcher = some L ∧ L.Open ∧ L.seq = L'.seq ∧ L.targetMask = L'.targetMask :=
  ⟨L', hL', hop, rfl, rfl⟩

/-! ## Steps that only move a call -/

section

variable (hinv : Inv s)
include hinv

theorem Inv.setCalls (online : Finset (Hart maxHarts))
    (cs : Hart maxHarts → List ServicePc) (hok : ∀ h, ∀ pc ∈ cs h, CallOk s h pc)
    (hone : ∀ h, (cs h).countP pastClaim ≤ 1) :
    Inv { s with online := online, calls := cs } where
  __ := hinv
  slot := fun L hL => { hinv.slot L hL with }
  calls := by
    intro h pc hpc
    refine CallOk.mono (s := s) le_rfl (fun _ => same_open) (fun e he => he) ?_ (hok h pc hpc)
    intro q _ hc
    exact ⟨{ hc with }, rfl, fun hf => hf⟩
  one_claim := hone

theorem Inv.setCallsOf (g : Hart maxHarts) (cs : List ServicePc)
    (hok : ∀ pc ∈ cs, CallOk s g pc) (hone : cs.countP pastClaim ≤ 1) :
    Inv { s with calls := update s.calls g cs } := by
  refine hinv.setCalls s.online _ ?_ ?_
  · intro h pc hpc
    rcases eq_or_ne h g with rfl | hg
    · rw [update_self] at hpc
      exact hok pc hpc
    · rw [update_of_ne hg] at hpc
      exact hinv.calls h pc hpc
  · intro h
    rcases eq_or_ne h g with rfl | hg
    · rwa [update_self]
    · rw [update_of_ne hg]
      exact hinv.one_claim h

section

variable (hcalls : s.calls g = pc :: rest)
include hcalls

theorem Inv.goto (hok : CallOk s g pc')
    (hpast : pc'.pastClaim = pc.pastClaim) : Inv (s.goto g rest pc') := by
  have hone := hinv.one_claim g
  rw [hcalls, countP_cons] at hone
  refine hinv.setCallsOf g _ ?_ ?_
  · intro p hp
    rcases mem_cons.mp hp with rfl | hp
    · exact hok
    · exact hinv.calls g p (by rw [hcalls]; exact .tail _ hp)
  · rwa [countP_cons, hpast]

theorem Inv.ret : Inv (s.ret g rest) := by
  have hone := hinv.one_claim g
  rw [hcalls, countP_cons] at hone
  refine hinv.setCallsOf g _ ?_ (by omega)
  intro p hp
  exact hinv.calls g p (by rw [hcalls]; exact .tail _ hp)

theorem Inv.observe {q observed : ℕ} (ht : Targeted s q g) (hpast : pc.pastClaim = false) :
    Inv (s.observe g rest q observed) := by
  unfold State.observe
  split
  · exact hinv.ret hcalls
  next hne =>
    exact hinv.goto hcalls ⟨ht, hne⟩ hpast.symm

/-! ## The claiming CAS, the flush and the acknowledgement -/

/-- A hart that owes an acknowledgement has no other call past its claim. -/
theorem Inv.rest_unclaimed (hpast : pc.pastClaim = true) : ∀ p ∈ rest, p.pastClaim = false := by
  have hone := hinv.one_claim g
  rw [hcalls, countP_cons, if_pos hpast] at hone
  have hzero : rest.countP pastClaim = 0 := by omega
  intro p hp
  simpa using countP_eq_zero.mp hzero p hp

end

/-- A hart whose claim would move forward has not claimed the open generation yet. -/
theorem Inv.unclaimed_of_lt (ht : Targeted s q g) (hlt : s.lastHandled g < q) :
    ∀ p ∈ s.calls g, p.pastClaim = false := by
  intro p hp
  cases hpast : p.pastClaim with
  | false => rfl
  | true =>
    -- a call past its claim has claimed some generation
    obtain ⟨q', hc⟩ : ∃ q', Claimed s q' g := by
      have hok := hinv.calls g p hp
      cases p with
      | loadKind q => exact ⟨q, hok⟩
      | loadToken q _ | loadStart q _ _ | loadEnd q _ _ _ | perform q _ | ack q _ => exact ⟨q, hok.1⟩
      | _ => simp [pastClaim] at hpast
    obtain ⟨L, hL, -, hLq, -⟩ := hinv.pending q g ht hlt
    obtain ⟨-, hLq', -⟩ := hc.awaited.unique hL
    have hlast := hc.last
    omega

/-- `LAST_HANDLED_SEQ` of a hart that owes no acknowledgement moves forward. -/
theorem Inv.advance (hlt : s.lastHandled g < q)
    (hcalls : ∀ p ∈ s.calls g, p.pastClaim = false) (hunacked : g ∉ s.slot.ackMask) :
    Inv { s with lastHandled := update s.lastHandled g q } := by
  have hge : ∀ h, s.lastHandled h ≤ update s.lastHandled g q h := by
    intro h
    rcases eq_or_ne h g with rfl | hg
    · rw [update_self]
      exact hlt.le
    · rw [update_of_ne hg]
  refine hinv.frame le_rfl (fun _ => same_open) (fun e he => he) rfl ?_ hinv.idle ?_ ?_ ?_
    hinv.acked_once
  · -- Only the calls of `g` read the new value, and none of them is past its claim.
    intro h p hp hpast q' hc
    have hne : h ≠ g := by
      rintro rfl
      rw [hcalls p hp] at hpast
      exact absurd hpast (by decide)
    refine ⟨{ hc with last := ?_ }, rfl, fun hf => hf⟩
    show update s.lastHandled g q h = q'
    rw [update_of_ne hne]
    exact hc.last
  · intro L hL
    refine { hinv.slot L hL with acked := fun hw h hh => ?_ }
    have hne : h ≠ g := fun hg => hunacked (hg ▸ hh)
    show update s.lastHandled g q h = L.seq ∧ _
    rw [update_of_ne hne]
    exact (hinv.slot L hL).acked hw h hh
  · intro q' h ht' hlt'
    exact hinv.pending q' h ht' (lt_of_le_of_lt (hge h) hlt')
  · intro h q' hack
    exact le_trans (hinv.acked_le h q' hack) (hge h)

theorem Inv.claim {observed : ℕ} (hcalls : s.calls g = .claim q observed :: rest)
    (hlt : s.lastHandled g < q) :
    Inv ({ s with lastHandled := update s.lastHandled g q }.goto g rest (.loadKind q)) := by
  have hmem : ServicePc.claim q observed ∈ s.calls g := by
    rw [hcalls]
    exact .head _
  obtain ⟨ht, -⟩ : Targeted s q g ∧ observed ≠ q := hinv.calls g _ hmem
  obtain ⟨L, hL, hw, hq, hm⟩ := hinv.pending q g ht hlt
  have hunacked : g ∉ s.slot.ackMask := by
    intro hg
    have := ((hinv.slot L hL).acked hw g hg).1
    omega
  have hunlogged : Event.ack g q ∉ s.log := by
    intro hack
    have := hinv.acked_le g q hack
    omega
  have hrest : ∀ p ∈ rest, p.pastClaim = false := by
    intro p hp
    refine hinv.unclaimed_of_lt ht hlt p ?_
    rw [hcalls]
    exact .tail _ hp
  have hzero : rest.countP pastClaim = 0 := by
    rw [countP_eq_zero]
    intro p hp
    simp [hrest p hp]
  -- Drop the call, advance the counter, and push the call back past its claim.
  have hbase := (hinv.ret hcalls).advance hlt (by simpa [State.ret] using hrest) hunacked
  have hstep := hbase.setCallsOf g (.loadKind q :: rest) ?_ ?_
  · simpa [State.goto, State.ret] using hstep
  · intro p hp
    rcases mem_cons.mp hp with rfl | hp
    · exact ⟨⟨L, hL, hw, hq, hm⟩, update_self .., hunacked, hunlogged⟩
    · exact hbase.calls g p (by simpa [State.ret] using hp)
  · simp [countP_cons, hzero, ServicePc.pastClaim]

theorem Inv.logEvent (e : Event maxHarts) (hpub : ∀ q, e.isPublish q = false)
    (hack : ∀ h q, e ≠ .ack h q) : Inv { s with log := e :: s.log } := by
  have hflushed : ∀ q h, Flushed s q h → Flushed { s with log := e :: s.log } q h := by
    intro q h hf L hL
    exact mem_since_cons (hpub q) (hf L hL)
  have htargeted : ∀ q h, Targeted { s with log := e :: s.log } q h → Targeted s q h := by
    rintro q h ⟨M, k, hp, hm⟩
    rcases mem_cons.mp hp with rfl | hp
    · simp [Event.isPublish] at hpub
    · exact ⟨M, k, hp, hm⟩
  have hlogged : ∀ h q, Event.ack h q ∈ e :: s.log → Event.ack h q ∈ s.log := by
    intro h q hm
    rcases mem_cons.mp hm with he | hm
    · exact absurd he.symm (hack h q)
    · exact hm
  refine hinv.frame le_rfl (fun _ => same_open) (fun e he => .tail _ he) rfl ?_
    hinv.idle ?_ ?_ ?_ ?_
  · intro h p _ _ q hc
    exact ⟨{ hc with unlogged := fun hm => hc.unlogged (hlogged h q hm) }, rfl, hflushed q h⟩
  · intro L hL
    have hs := hinv.slot L hL
    exact { hs with
      published := fun hr => .tail _ (hs.published hr)
      acked := fun hw h hh => (hs.acked hw h hh).imp_right (mem_since_cons (hpub _))
      flushed := fun hl h hh => mem_since_cons (hpub _) (hs.flushed hl h hh) }
  · intro q h ht hlt
    exact hinv.pending q h (htargeted q h ht) hlt
  · intro h q hm
    exact hinv.acked_le h q (hlogged h q hm)
  · intro h q
    rw [count_cons_of_ne (hack h q)]
    exact hinv.acked_once h q

theorem Inv.perform {kind : ShootdownKind} (hcalls : s.calls g = .perform q kind :: rest) :
    Inv ({ s with log := .flush g kind :: s.log }.goto g rest (.ack q kind)) := by
  have hmem : ServicePc.perform q kind ∈ s.calls g := by
    rw [hcalls]
    exact .head _
  obtain ⟨hc, hkind⟩ : Claimed s q g ∧ kind = decodeShootdownKind s.slot.payload :=
    hinv.calls g _ hmem
  have hlog := hinv.logEvent (.flush g kind) (fun _ => rfl) fun _ _ => by simp
  refine hlog.goto hcalls ⟨{ hc with unlogged := ?_ }, ?_⟩ rfl
  · intro hm
    rcases mem_cons.mp hm with he | hm
    · simp at he
    · exact hc.unlogged hm
  · intro L hL
    obtain ⟨hw, -, -⟩ := hc.awaited.unique hL
    have hk : kind = L.kind := by rw [hkind, (hinv.slot L hL).decode hw]
    rw [← hk]
    exact mem_since_cons_self rfl

/-- A target acknowledges the request it has served. -/
theorem Inv.ack {kind : ShootdownKind} (hcalls : s.calls g = .ack q kind :: rest) : Inv ({ s with
      slot := { s.slot with ackMask := insert g s.slot.ackMask }
      log := .ack g q :: s.log }.ret g rest) := by
  have hmem : ServicePc.ack q kind ∈ s.calls g := by
    rw [hcalls]
    exact .head _
  obtain ⟨hc, hflushed⟩ : Claimed s q g ∧ Flushed s q g := hinv.calls g _ hmem
  obtain ⟨L, hL, hw, hq, hm⟩ := hc.awaited
  have hrest := hinv.rest_unclaimed hcalls rfl
  have hret := hinv.ret hcalls
  refine hret.frame le_rfl (fun _ => same_open) (fun e he => .tail _ he) rfl ?_
    hret.idle ?_ ?_ ?_ ?_
  · -- `g` has no second claim, so the acknowledging bit and event concern no call.
    intro h p hp hpast q' hc'
    have hne : h ≠ g := by
      rintro rfl
      have hp' : p ∈ rest := by simpa [State.ret] using hp
      rw [hrest p hp'] at hpast
      exact absurd hpast (by decide)
    refine ⟨⟨hc'.awaited, hc'.last, ?_, ?_⟩, rfl, ?_⟩
    · intro hh
      exact (Finset.mem_insert.mp hh).elim hne hc'.unacked
    · intro hm'
      rcases mem_cons.mp hm' with he | hm'
      · exact hne (Event.ack.inj he).1
      · exact hc'.unlogged hm'
    · intro hf L' hL'
      exact mem_since_cons rfl (hf L' hL')
  · intro L' hL'
    obtain rfl : L' = L := Option.some.inj (hL'.symm.trans hL)
    have hs := hinv.slot L' hL
    refine { hs with
      ack_empty := fun _ hr => absurd hw.1 (by omega)
      published := fun hr => .tail _ (hs.published hr)
      acked := fun _ h hh => ?_
      flushed := fun hl h hh => mem_since_cons rfl (hs.flushed hl h hh) }
    rcases Finset.mem_insert.mp hh with rfl | hh
    · refine ⟨hc.last.trans hq.symm, mem_since_cons rfl ?_⟩
      rw [hq]
      exact hflushed L' hL
    · exact (hs.acked hw h hh).imp_right (mem_since_cons rfl)
  · rintro q' h ⟨M, k, hp, hM⟩ hlt
    rcases mem_cons.mp hp with he | hp
    · simp at he
    · exact hinv.pending q' h ⟨M, k, hp, hM⟩ hlt
  · intro h q' hm'
    rcases mem_cons.mp hm' with he | hm'
    · obtain ⟨rfl, rfl⟩ := Event.ack.inj he
      exact hc.last.ge
    · exact hinv.acked_le h q' hm'
  · intro h q'
    show (Event.ack g q :: s.log).count (.ack h q') ≤ 1
    by_cases he : Event.ack g q = Event.ack h q'
    · rw [← he, count_cons_self, count_eq_zero_of_not_mem hc.unlogged]
    · rw [count_cons_of_ne he]
      exact hinv.acked_once h q'

/-- Every access of a call keeps the invariant, provided a successful claim moves forward. -/
theorem Inv.service {spurious : Bool} (hcalls : s.calls g = pc :: rest)
    (hok : ClaimsForward s (.service g spurious)) : Inv (service s g spurious rest pc) := by
  have hmem : pc ∈ s.calls g := by
    rw [hcalls]
    exact .head _
  have hpc := hinv.calls g pc hmem
  cases pc with
  | loadActive =>
    simp only [service.eq_1]
    split
    · exact hinv.goto hcalls trivial rfl
    · exact hinv.ret hcalls
  | loadSeq => exact hinv.goto hcalls (le_refl s.slot.seq) rfl
  | loadTarget q =>
    simp only [service.eq_3]
    split
    next hg =>
      refine hinv.goto hcalls ⟨hpc, ?_⟩ rfl
      intro L hL hop _
      rwa [(hinv.slot L hL).target (by have := hop.1; omega) (by have := hop.2; omega)] at hg
    · exact hinv.ret hcalls
  | reloadActive q =>
    simp only [service.eq_4]
    split
    next hact =>
      refine hinv.goto hcalls ⟨hpc.1, ?_⟩ rfl
      intro hq
      -- An active slot belongs to a launcher that has published the current generation.
      cases hL : s.launcher with
      | none => rw [hinv.idle hL] at hact; exact absurd hact (by decide)
      | some L =>
        have hslot := hinv.slot L hL
        rw [hslot.active, decide_eq_true_eq] at hact
        have hseq : L.seq = q := by
          have := hslot.seq_eq (by omega)
          omega
        refine ⟨L.targetMask, L.kind, ?_, hpc.2 L hL ⟨by omega, hact.2⟩ hseq⟩
        rw [← hseq]
        exact hslot.published hact.1
    · exact hinv.ret hcalls
  | reloadSeq q =>
    simp only [service.eq_5]
    split
    next hseq =>
      exact hinv.goto hcalls (hpc.2 hseq.symm) rfl
    · exact hinv.ret hcalls
  | loadLast q => exact hinv.observe hcalls hpc rfl
  | claim q observed =>
    simp only [service.eq_7]
    split
    next hcas =>
      obtain ⟨hlast, rfl⟩ := hcas
      have hle : observed ≤ q := by
        simp only [ClaimsForward, hcalls] at hok
        exact hok hlast
      exact hinv.claim hcalls (by have := hpc.2; omega)
    · exact hinv.observe hcalls hpc.1 rfl
  | loadKind q => exact hinv.goto hcalls ⟨hpc, rfl⟩ rfl
  | loadToken q kb => exact hinv.goto hcalls ⟨hpc.1, hpc.2, rfl⟩ rfl
  | loadStart q kb tok => exact hinv.goto hcalls ⟨hpc.1, hpc.2.1, hpc.2.2, rfl⟩ rfl
  | loadEnd q kb tok st =>
    obtain ⟨hc, rfl, rfl, rfl⟩ := hpc
    exact hinv.goto hcalls ⟨hc, rfl⟩ rfl
  | perform q kind => exact hinv.perform hcalls
  | ack q kind => exact hinv.ack hcalls

/-! ## Launcher steps -/

/-- While nothing is waited for no hart has a claim, so the launcher may rewrite the slot. -/
theorem Inv.rewriteSlot (hnone : ∀ q h, ¬Awaited s q h) (slot : Slot maxHarts)
    (launcher : Option (Launch maxHarts)) (hidle : launcher = none → slot.active = false)
    (hslot : ∀ L', launcher = some L' → SlotOk { s with slot := slot, launcher := launcher } L')
    (hseq : s.slot.seq ≤ slot.seq)
    (hopen : ∀ L', launcher = some L' → L'.Open → s.slot.seq < L'.seq) :
    Inv { s with slot := slot, launcher := launcher } := by
  refine hinv.frame hseq ?_ (fun e he => he) rfl ?_ hidle hslot ?_ hinv.acked_le hinv.acked_once
  · intro L' hL' hop hle
    exact absurd (hopen L' hL' hop) (not_lt.mpr hle)
  · intro h p _ _ q hc
    exact absurd hc.awaited (hnone q h)
  · intro q h ht hlt
    exact absurd (hinv.pending q h ht hlt) (hnone q h)

end

theorem not_awaited (hL : s.launcher = some L) (hw : ¬L.Waiting) (q : ℕ) (h : Hart maxHarts) :
    ¬Awaited s q h :=
  fun ha => hw (ha.unique hL).1

section

variable (hinv : Inv s) (hL : s.launcher = some L)

include hinv hL

/-- Publication: the request becomes visible and every target is waited for. -/
theorem Inv.activate (hpc : L.pc = .activate) :
    Inv ({ s with
      slot := { s.slot with active := true }
      log := .publish L.seq L.targetMask L.kind :: s.log }.launchAt L .performLocal) := by
  have hw : ¬L.Waiting := by simp [Launch.Waiting, hpc, rank]
  have hnone := not_awaited hL hw
  obtain ⟨h1, h2, h3, h4, h5, h6, h7, h8, h9, h10, h11, h12⟩ := hinv.slot L hL
  simp only [hpc, rank] at h1 h2 h3 h4 h5 h6 h7 h8 h9 h10
  refine ⟨by simp [launchAt], ?_, ?_, hinv.one_claim, ?_, ?_, ?_⟩
  · intro L' hL'
    cases hL'
    refine ⟨rfl, by simp [rank], fun _ => h3 (by omega), fun _ => h4 (by omega), fun _ =>
      h5 (by omega), fun _ => h6 (by omega), fun _ => h7 (by omega), fun _ _ => h8 (by omega) (by
      omega), by simp [rank], fun _ => .head _, ?_, by simp [hasLeft]⟩
    intro _ h hh
    have hempty : s.slot.ackMask = ∅ := h9 (by omega) (by omega)
    simp [launchAt, hempty] at hh
  · intro h p hp
    refine CallOk.mono (s := s) le_rfl ?_ (fun e he => .tail _ he) ?_ (hinv.calls h p hp)
    · intro L' hL' _ _
      cases hL'
      exact ⟨L, hL, by simp [Launch.Open, hpc, rank], rfl, rfl⟩
    · intro q _ hc
      exact absurd hc.awaited (hnone q h)
  · rintro q h ⟨M, k, hp, hm⟩ hlt
    rcases mem_cons.mp hp with he | hp
    · simp only [Event.publish.injEq] at he
      obtain ⟨rfl, rfl, rfl⟩ := he
      exact ⟨_, rfl, by simp [Launch.Waiting, rank], rfl, hm⟩
    · exact absurd (hinv.pending q h ⟨M, k, hp, hm⟩ hlt) (hnone q h)
  · intro h q hm
    rcases mem_cons.mp hm with he | hm
    · simp at he
    · exact hinv.acked_le h q hm
  · intro h q
    show (Event.publish L.seq L.targetMask L.kind :: s.log).count (.ack h q) ≤ 1
    exact hinv.acked_once h q

/-- The published launcher moves on inside its wait phase, or leaves it when every target has
acknowledged, so that no claim is left. -/
theorem Inv.moveOn (hw : L.Waiting) {pc : LaunchPc} (hpc : 10 ≤ pc.rank ∧ pc.rank ≤ 13)
    (hout : pc.rank ≤ 12 ∧ pc.hasLeft = false ∨ L.targetMask ⊆ s.slot.ackMask) :
    Inv (s.launchAt L pc) := by
  obtain ⟨h10, h12⟩ := hw
  obtain ⟨p10, p13⟩ := hpc
  have hs := hinv.slot L hL
  have hacked := hs.acked ⟨h10, h12⟩
  have haw : ∀ q h, Awaited s q h → h ∉ s.slot.ackMask → Awaited (s.launchAt L pc) q h := by
    intro q h ha hno
    obtain ⟨-, hq, hm⟩ := ha.unique hL
    rcases hout with ⟨p12, -⟩ | hack
    · exact ⟨{ L with pc := pc }, rfl, ⟨p10, p12⟩, hq, hm⟩
    · exact absurd (hack hm) hno
  refine ⟨by simp [launchAt], ?_, ?_, hinv.one_claim, ?_, hinv.acked_le, hinv.acked_once⟩
  · intro L' hL'
    cases hL'
    refine ⟨?_, fun _ h => ?_, fun _ => hs.seq_eq (by omega), fun _ => hs.kindBits (by omega),
      fun _ => hs.argToken (by omega), fun _ => hs.argStart (by omega),
      fun _ => hs.argEnd (by omega), fun _ _ => hs.target (by omega) (by omega), fun _ h => ?_,
      fun _ => hs.published h10, fun _ => hacked, fun hleft h hm => ?_⟩
    · show s.slot.active = decide (10 ≤ pc.rank ∧ pc.rank ≤ 13)
      rw [hs.active, decide_eq_decide]
      omega
    · exact absurd h (by show ¬pc.rank ≤ 8; omega)
    · exact absurd h (by show ¬pc.rank ≤ 9; omega)
    · rcases hout with ⟨-, hstays⟩ | hack
      · rw [hstays] at hleft
        cases hleft
      · exact (hacked h (hack hm)).2
  · intro h p hp
    refine CallOk.mono (s := s) le_rfl ?_ (fun e he => he) ?_ (hinv.calls h p hp)
    · intro L' hL' _ _
      cases hL'
      exact ⟨L, hL, ⟨by omega, by omega⟩, rfl, rfl⟩
    · intro q _ hc
      refine ⟨⟨haw q h hc.awaited hc.unacked, hc.last, hc.unacked, hc.unlogged⟩, rfl, ?_⟩
      intro hf L' hL'
      cases hL'
      exact hf L hL
  · intro q h ht hlt
    have hlt' : s.lastHandled h < q := hlt
    have ha := hinv.pending q h ht hlt'
    refine haw q h ha fun hm => ?_
    have := (hacked h hm).1
    have := (ha.unique hL).2.1
    omega

theorem Inv.keepWaiting (hw : L.Waiting) {pc : LaunchPc}
    (hpc : 10 ≤ pc.rank ∧ pc.rank ≤ 12) : Inv (s.launchAt L pc) := by
  refine hinv.moveOn hL hw ⟨hpc.1, by omega⟩ (.inl ⟨hpc.2, ?_⟩)
  cases pc <;> simp [rank, hasLeft] at hpc ⊢

theorem Inv.leaveWait (hw : L.Waiting)
    (hack : L.targetMask ⊆ s.slot.ackMask) : Inv (s.launchAt L .deactivate) :=
  hinv.moveOn hL hw (by simp [rank]) (.inr hack)

/-- Every access of the launcher keeps the invariant. -/
theorem Inv.launchStep (hstep : launchStep s L = some s') : Inv s' := by
  have hs := hinv.slot L hL
  obtain ⟨h1, h2, h3, h4, h5, h6, h7, h8, h9, h10, h11, h12⟩ := hs
  unfold Shootdown.launchStep at hstep
  cases hpc : L.pc <;> simp only [hpc] at hstep
  case activate =>
    cases hstep
    exact hinv.activate hL hpc
  case performLocal =>
    cases hstep
    have hlog := hinv.logEvent (.flush L.hart L.kind) (fun _ => rfl) fun _ _ => by simp
    have hw : L.Waiting := by simp [Launch.Waiting, hpc, rank]
    split
    next hempty =>
      exact hlog.leaveWait hL hw (by simp [hempty])
    · exact hlog.keepWaiting hL hw (by simp [rank])
  case sendIpi =>
    cases hstep
    have hw : L.Waiting := by simp [Launch.Waiting, hpc, rank]
    exact hinv.keepWaiting hL hw (by simp [rank])
  case waitAcks =>
    rcases Option.ite_none_right_eq_some.mp hstep with ⟨hack, ⟨⟩⟩
    have hlog := hinv.logEvent (.leave L.seq) (fun _ => rfl) fun _ _ => by simp
    have hw : L.Waiting := by simp [Launch.Waiting, hpc, rank]
    exact hlog.leaveWait hL hw (Finset.inter_eq_right.mp hack)
  case clearAckAgain =>
    cases hstep
    have hw : ¬L.Waiting := by simp [Launch.Waiting, hpc, rank]
    have hidle : s.slot.active = false := by
      rw [h1, hpc]
      rfl
    exact hinv.rewriteSlot (not_awaited hL hw) { s.slot with ackMask := ∅ } none
      (fun _ => hidle) (fun L' hL' => absurd hL' (by simp)) le_rfl
      fun L' hL' => absurd hL' (by simp)
  case bumpSeq =>
    cases hstep
    have hw : ¬L.Waiting := by simp [Launch.Waiting, hpc, rank]
    rw [hpc] at h1 h2 h4 h5 h6 h7 h8 h9
    refine hinv.rewriteSlot (not_awaited hL hw) _ _ (fun h => absurd h (by simp)) ?_
      (Nat.le_succ _) ?_
    · intro L' hL'
      cases hL'
      exact ⟨h1, by simp [rank], fun _ => h2 (by decide) (by decide), fun _ => h4 (by
        decide), fun _ => h5 (by decide), fun _ => h6 (by decide), fun _ => h7 (by decide), fun _ _
        => h8 (by decide) (by decide), fun _ _ => h9 (by decide) (by decide), by simp
        [rank], by simp [Launch.Waiting, rank], by simp [hasLeft]⟩
    · -- The new generation is above everything a call has read.
      intro L' hL' _
      cases hL'
      have hahead := h2 (by decide) (by decide)
      show s.slot.seq < L.seq
      omega
  all_goals
    -- The other accesses happen while the slot is closed and no hart can hold a claim.
    cases hstep
    have hw : ¬L.Waiting := by simp [Launch.Waiting, hpc, rank]
    rw [hpc] at h1 h2 h3 h4 h5 h6 h7 h8 h9 h10 h12
    refine hinv.rewriteSlot (not_awaited hL hw) _ _ (fun h => absurd h (by simp)) ?_ le_rfl ?_
    · intro L' hL'
      cases hL'
      refine ⟨?_, ?_, ?_, ?_, ?_, ?_, ?_, ?_, ?_, ?_, ?_, ?_⟩
      all_goals first
        | exact h1
        | rfl
        | exact fun _ => rfl
        | exact fun _ _ => rfl
        | (rintro ⟨_, _⟩; contradiction)
        | (intros; contradiction)
        | exact fun _ => h3 (by decide)
        | exact fun _ => h4 (by decide)
        | exact fun _ => h5 (by decide)
        | exact fun _ => h6 (by decide)
        | exact fun _ => h7 (by decide)
        | exact fun _ => h10 (by decide)
        | exact fun _ _ => h2 (by decide) (by decide)
        | exact fun _ _ => h8 (by decide) (by decide)
        | exact fun _ => h12 rfl
    · rintro L' hL' ⟨_, _⟩
      cases hL'
      contradiction

end

theorem Inv.boot : Inv (boot : State maxHarts) where
  idle := fun _ => rfl
  slot := by intro L hL; exact absurd hL (by simp [Shootdown.boot])
  calls := by intro h pc hpc; exact absurd hpc (by simp [Shootdown.boot])
  one_claim := by intro h; simp [Shootdown.boot]
  pending := by rintro q h ⟨M, k, hp, -⟩; exact absurd hp (by simp [Shootdown.boot])
  acked_le := by intro h q hm; exact absurd hm (by simp [Shootdown.boot])
  acked_once := by intro h q; simp [Shootdown.boot]

theorem Inv.next {s s' : State maxHarts} {l : Label maxHarts} (hinv : Inv s)
    (hok : ClaimsForward s l) (hnext : next s l = some s') : Inv s' := by
  cases l with simp only [Shootdown.next] at hnext
  | markOnline h =>
    cases hnext
    exact hinv.setCalls (insert h s.online) s.calls hinv.calls hinv.one_claim
  | enter h =>
    cases hnext
    refine hinv.setCallsOf h _ ?_ ?_
    · intro p hp
      rcases mem_cons.mp hp with rfl | hp
      · trivial
      · exact hinv.calls h p hp
    · simpa [pastClaim] using hinv.one_claim h
  | service h spurious =>
    split at hnext
    · simp at hnext
    next pc rest hcalls =>
      cases hnext
      exact hinv.service hcalls hok
  | launch h hartMask kind =>
    split at hnext
    · simp at hnext
    rename_i hL
    cases hnext
    have hnone : ∀ q h, ¬Awaited s q h := by
      rintro q h ⟨L, hL', -⟩
      exact absurd (hL'.symm.trans hL) (by simp)
    refine hinv.rewriteSlot hnone s.slot _ (fun h => absurd h (by simp)) ?_ le_rfl ?_
    · intro L' hL'
      cases hL'
      constructor <;>
        simp [rank, Launch.Waiting, hinv.idle hL]
    · rintro L' hL' ⟨_, _⟩
      cases hL'
      contradiction
  | launcher =>
    obtain ⟨L, hL, hstep⟩ := Option.bind_eq_some_iff.mp hnext
    exact hinv.launchStep hL hstep

/-- **Slot safety.** In every run whose claiming CASes all move forward, a launcher that has left
its wait loop has every target's flush of exactly its request after the publication, and no hart
acknowledges a generation twice. -/
theorem slot_safe {s : State maxHarts} (h : (machine maxHarts).Reach ClaimsForward s) :
    NoPrematureAck s ∧ AckedOnce s := by
  have hinv : Inv s := by
    refine h.invariant ?_ ?_
    · rintro s rfl
      exact Inv.boot
    · intro s l s' hinv hok hnext
      exact hinv.next hok hnext
  refine ⟨?_, hinv.acked_once⟩
  intro L hL hleft h hm
  exact (hinv.slot L hL).flushed hleft h hm

/-! ## A run that goes back a generation -/

section Runs

local instance twelveHarts : NeZero 12 := ⟨by decide⟩

/-- Hart 0 asks hart 1 for `kind` and reaches its wait loop. -/
def request (kind : ShootdownKind) : List (Label 12) :=
  .launch 0 {1} kind :: List.replicate 12 .launcher

def accesses (k : ℕ) : List (Label 12) := List.replicate k (.service 1 false)

/-- A call on hart 1 that runs from its start to the acknowledgement. -/
def handled : List (Label 12) := .enter 1 :: accesses 13

def retire : List (Label 12) := List.replicate 4 .launcher

/-- A poll on hart 1 validates generation 1 and is interrupted before it reads
`LAST_HANDLED_SEQ`; two IPIs complete generations 1 and 2 on the same hart; the poll then claims
generation 1 back from 2 and acknowledges inside generation 3. -/
def regressedPoll : List (Label 12) :=
  [.markOnline 0, .markOnline 1] ++ request (.page 7 4096) ++ (.enter 1 :: accesses 5) ++
    handled ++ retire ++ request (.page 7 8192) ++ handled ++ accesses 7 ++ retire ++
    request (.page 7 12288) ++ accesses 1 ++ [.launcher]

def servedTwice : List (Label 12) :=
  [.markOnline 0, .markOnline 1] ++ request (.page 7 4096) ++ handled ++ retire ++
    request (.range 7 4096 12288) ++ handled ++ [.launcher]

/-- The launcher has left its wait loop although some target never flushed its request. -/
def leftUnflushed (s : State maxHarts) : Bool :=
  match s.launcher with
  | none => false
  | some L => L.pc.hasLeft &&
      decide (∃ h ∈ L.targetMask, Event.flush h L.kind ∉ since L.seq s.log)

/-- The claiming CAS accepts any observed value other than the generation itself, so a launcher
can leave its wait loop before a target has flushed. -/
theorem premature_ack_reachable :
    ∃ s, (machine 12).Reachable s ∧ ¬(NoPrematureAck s ∧ AckedOnce s) := by
  obtain ⟨s, hs, hleft⟩ := (machine 12).exists_reachable_of_run (leftUnflushed ·) regressedPoll
    rfl (by decide)
  refine ⟨s, hs, ?_⟩
  rintro ⟨hack, -⟩
  unfold leftUnflushed at hleft
  split at hleft
  · exact absurd hleft (by decide)
  next L hL =>
    simp only [Bool.and_eq_true, decide_eq_true_eq] at hleft
    obtain ⟨hl, h, hm, hn⟩ := hleft
    exact hn (hack L hL hl h hm)

theorem slot_safe_servedTwice : ∃ s, (machine 12).Reach ClaimsForward s ∧ s.launcher.isSome ∧
      NoPrematureAck s ∧ AckedOnce s := by
  obtain ⟨s, hs, hp⟩ := (machine 12).exists_reach_of_runWhile ClaimsForward
    (fun s => s.launcher.isSome) servedTwice rfl (by decide)
  exact ⟨s, hs, hp, slot_safe hs⟩

end Runs

end CosmOS.Mm.Shootdown
