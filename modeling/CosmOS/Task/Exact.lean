import CosmOS.Task.Threads

/-!
# Task.Exact — per-thread resources are exact, as long as four things are avoided

A thread number goes back to the allocator one section before its areas go, areas are found by an
address made from the number, and `fork` copies the trap contexts of threads the child does not have.
So the resources are not exact in general (`thread_areas_are_lost`).  They are in every run in which

* no thread number is taken while a drop in the same process is between its two sections,
* a process never has more than `N` thread numbers,
* the user's `mmap` and `munmap` stay off the pages of the first `N` thread numbers,
* only a process with no other task than its first forks.
-/

namespace CosmOS.Task

open Mm Function

/-! ## The property -/

/-- Per-thread resources in one state, and in the sections taken from it. -/
structure Exact (L : Layout) (s : State) : Prop where
  /-- Live tasks of a process have different numbers. -/
  tids : ∀ r r' res res', s.phase r = .held res .live → s.phase r' = .held res' .live →
    res.pid = res'.pid → res.tid = res'.tid → r = r'
  /-- The trap context of a live task is mapped, by an area made for the task. -/
  trapContext : ∀ r res, s.phase r = .held res .live → ∃ p vma, s.procs res.pid = some p ∧
    vma ∈ p.vmas ∧ vma.Contains (trapCxBottomFromTid L res.tid) ∧
    vma.attr.kind = .trapContext res.tid ∧ ∀ vpn, vma.Contains vpn → p.madeFor vpn = some r
  /-- What is mapped for a task is no mapping of the user's. -/
  noUser : ∀ pid p vpn r, s.procs pid = some p → p.madeFor vpn = some r →
    ∃ info, p.vmas.infoAt vpn = some info ∧ KernelMade info.kind
  /-- A drop removes what was mapped for the task, and nothing else. -/
  drop : ∀ r s' pid p, next L s (.unmap r) = some s' → s.procs pid = some p →
    ∃ p', s'.procs pid = some p' ∧
      ∀ vpn, p'.vmas.infoAt vpn = if p.madeFor vpn = some r then none else p.vmas.infoAt vpn
  /-- Creation fails for want of frames only. -/
  creation : ∀ r stackFrames trapFrames s', next L s (.map r stackFrames trapFrames) = some s' →
    (∃ res, s'.phase r = .held res .live) ∨ stackFrames = false ∨ trapFrames = false

/-- The number a resource holds in a process. -/
def Phase.holding (pid : Pid) : Phase → Option (ℕ × Stage)
  | .held res stage => if res.pid = pid then some (res.tid, stage) else none
  | _ => none

def State.holders (s : State) (pid : Pid) : Holders := fun r => (s.phase r).holding pid

open State

/-- The resource, if it is held, has the property. -/
def Phase.Holds (P : TaskUserRes → Prop) : Phase → Prop
  | .held res _ => P res
  | _ => True

instance (P : TaskUserRes → Prop) [DecidablePred P] : DecidablePred (Phase.Holds P)
  | .held res _ => inferInstanceAs (Decidable (P res))
  | .unborn | .gone => isTrue trivial

/-- What is asked of a section, in the state before it. -/
def Careful (L : Layout) (N : ℕ) (s : State) : Label → Prop
  | .create creator _ => (s.phase creator).Holds fun res =>
    (∀ p ∈ s.procs res.pid, p.tids.recycled = [] → p.tids.current < N) ∧
      ∀ r < s.born, (s.holders res.pid r).map Prod.snd ≠ some .dropping
  | .fork parent _ => (s.phase parent).Holds fun res =>
    res.tid = 0 ∧ ∀ r < s.born, s.holders res.pid r ≠ none → r = parent
  | .mmap _ _ startVpn endVpn _ | .munmap _ startVpn endVpn => L.OffReserved N startVpn endVpn
  | .map .. | .drop _ | .unmap _ => True

instance (L : Layout) (N : ℕ) (s : State) : DecidablePred (Careful L N s)
  | .create creator _ => inferInstanceAs (Decidable ((s.phase creator).Holds _))
  | .fork parent _ => inferInstanceAs (Decidable ((s.phase parent).Holds _))
  | .mmap _ _ startVpn endVpn _ | .munmap _ startVpn endVpn =>
    inferInstanceAs (Decidable (L.OffReserved N startVpn endVpn))
  | .map .. | .drop _ | .unmap _ => isTrue trivial

/-! ## The invariant of the machine -/

structure Inv (L : Layout) (N : ℕ) (s : State) : Prop where
  procs : ∀ pid p, s.procs pid = some p → ProcInv L N (s.holders pid) p
  proc : ∀ r res stage, s.phase r = .held res stage → s.procs res.pid ≠ none
  base : ∀ r res stage, s.phase r = .held res stage → res.ustackBase = L.userStackBase
  mode : ∀ r res, s.phase r ≠ .held res (.allocating .none)
  unborn : ∀ r, s.born ≤ r → s.phase r = .unborn

section Updates

variable {L : Layout} {N : ℕ} {s : State} {pid : Pid} {p : Process} {r : ResId} {res : TaskUserRes}
  {stage : Stage} {phase : Phase}

theorem setProc_self : (s.setProc pid p).procs pid = some p := update_self ..

theorem setProc_of_ne {pid' : Pid} (h : pid' ≠ pid) : (s.setProc pid p).procs pid' = s.procs pid' :=
  update_of_ne h ..

theorem holding_of_pid (hpid : res.pid = pid) :
    (Phase.held res stage).holding pid = some (res.tid, stage) := if_pos hpid

theorem holding_of_ne (hpid : res.pid ≠ pid) : (Phase.held res stage).holding pid = none := if_neg hpid

theorem holders_of_phase (h : s.phase r = .held res stage) :
    s.holders res.pid r = some (res.tid, stage) := by
  rw [holders, h, holding_of_pid rfl]

theorem holders_setPhase {s' : State} (hs : s'.phase = update s.phase r phase) :
    s'.holders pid = update (s.holders pid) r (phase.holding pid) := by
  funext r'
  by_cases hr : r' = r
  · rw [hr, update_self, holders, hs, update_self]
  · rw [update_of_ne hr, holders, hs, update_of_ne hr, holders]

theorem Inv.move {s' : State} (h : Inv L N s) (hprocs : s'.procs = update s.procs pid (some p))
    (hphase : s'.phase = update s.phase r phase) (hborn : s.born ≤ s'.born)
    (hr : r < s'.born) (hother : ∀ pid', pid' ≠ pid → (s.phase r).holding pid' = none)
    (hnew : ∀ res stage, phase = .held res stage → res.pid = pid ∧
      res.ustackBase = L.userStackBase ∧ stage ≠ .allocating .none)
    (hp : ProcInv L N (update (s.holders pid) r (phase.holding pid)) p) : Inv L N s' := by
  constructor
  · intro pid' p' hp'
    rw [holders_setPhase hphase]
    rw [hprocs] at hp'
    rcases eq_or_ne pid' pid with rfl | hpid
    · rw [update_self] at hp'
      cases hp'
      exact hp
    · rw [update_of_ne hpid] at hp'
      -- Neither the old nor the new phase counts in another process.
      have hnone : phase.holding pid' = none := by
        cases phase with
        | held res stage => exact holding_of_ne fun heq => hpid (heq.symm.trans (hnew res stage rfl).1)
        | unborn | gone => rfl
      have hself : update (s.holders pid') r none = s.holders pid' :=
        update_eq_self_iff.mpr (hother pid' hpid).symm
      rw [hnone, hself]
      exact h.procs pid' p' hp'
  · intro r' res stage hr'
    rw [hprocs]
    by_cases hpid : res.pid = pid
    · rw [hpid, update_self]
      exact nofun
    rw [update_of_ne hpid]
    rw [hphase] at hr'
    by_cases heq : r' = r
    · rw [heq, update_self] at hr'
      exact absurd (hnew res stage hr').1 hpid
    · rw [update_of_ne heq] at hr'
      exact h.proc r' res stage hr'
  · intro r' res stage hr'
    rw [hphase] at hr'
    by_cases heq : r' = r
    · rw [heq, update_self] at hr'
      exact (hnew res stage hr').2.1
    · rw [update_of_ne heq] at hr'
      exact h.base r' res stage hr'
  · intro r' res hr'
    rw [hphase] at hr'
    by_cases heq : r' = r
    · rw [heq, update_self] at hr'
      exact (hnew res _ hr').2.2 rfl
    · rw [update_of_ne heq] at hr'
      exact h.mode r' res hr'
  · intro r' hle
    rw [hphase, update_of_ne (Nat.ne_of_gt (Nat.lt_of_lt_of_le hr hle))]
    exact h.unborn r' (Nat.le_trans hborn hle)

theorem Inv.bear (h : Inv L N s) (res : TaskUserRes) (hbase : res.ustackBase = L.userStackBase)
    (hstage : stage ≠ .allocating .none)
    (hp : ProcInv L N (update (s.holders res.pid) s.born (some (res.tid, stage))) p) :
    Inv L N ((s.setProc res.pid p).bear res stage) := by
  have hunborn := h.unborn s.born (Nat.le_refl _)
  refine h.move rfl rfl (Nat.le_succ _) (Nat.lt_succ_self _) (fun pid' _ => ?_) ?_ ?_
  · show (s.phase s.born).holding pid' = none
    rw [hunborn]
    rfl
  · rintro res' stage' heq
    cases heq
    exact ⟨rfl, hbase, hstage⟩
  · rwa [holding_of_pid rfl]

theorem Inv.edit (h : Inv L N s) (hp : ProcInv L N (s.holders pid) p) : Inv L N (s.setProc pid p) := by
  constructor
  · intro pid' p' hp'
    rcases eq_or_ne pid' pid with rfl | hpid
    · rw [setProc_self] at hp'
      cases hp'
      exact hp
    · rw [setProc_of_ne hpid] at hp'
      exact h.procs pid' p' hp'
  · intro r res stage hr
    by_cases hpid : res.pid = pid
    · rw [hpid, setProc_self]
      exact nofun
    · rw [setProc_of_ne hpid]
      exact h.proc r res stage hr
  · exact h.base
  · exact h.mode
  · exact h.unborn

/-- A resource that is held has been created. -/
theorem Inv.lt_born (h : Inv L N s) (hr : s.phase r = .held res stage) : r < s.born := by
  by_contra hge
  rw [h.unborn r (Nat.not_lt.mp hge)] at hr
  cases hr

theorem Inv.holding_other (hr : s.phase r = .held res stage) (pid' : Pid) (hpid : pid' ≠ res.pid) :
    (s.phase r).holding pid' = none := by
  rw [hr]
  exact holding_of_ne hpid.symm

end Updates

/-! ## What a section does -/

section Sections

variable {L : Layout} {s s' : State} {r : ResId}

theorem next_create {creator : ResId} {mode : TaskUserResAlloc}
    (h : next L s (.create creator mode) = some s') :
    ∃ res p, s.phase creator = .held res .live ∧ s.procs res.pid = some p ∧ mode ≠ .none ∧
      s' = (s.setProc res.pid { p with tids := p.tids.alloc.2 }).bear
        ⟨res.pid, p.tids.alloc.1, res.ustackBase⟩ (.allocating mode) := by
  simp only [next] at h
  split at h
  next res hphase =>
    split at h
    next p hproc =>
      split at h
      · cases h
      next hmode =>
        cases h
        exact ⟨res, p, hphase, hproc, hmode, rfl⟩
    · cases h
  · cases h

theorem next_map {stackFrames trapFrames : Bool}
    (h : next L s (.map r stackFrames trapFrames) = some s') :
    ∃ res mode p, s.phase r = .held res (.allocating mode) ∧ s.procs res.pid = some p ∧
      s' = (s.setProc res.pid (p.allocFor L r res mode stackFrames trapFrames).1).setPhase r
        (.held res (if (p.allocFor L r res mode stackFrames trapFrames).2 = none then .live else .failed)) := by
  simp only [next] at h
  split at h
  next res mode hphase =>
    split at h
    next p hproc =>
      refine ⟨res, mode, p, hphase, hproc, ?_⟩
      split at h
      next p' hout =>
        cases h
        rw [hout, if_pos rfl]
      next p' e hout =>
        cases h
        rw [hout, if_neg nofun]
    · cases h
  · cases h

theorem next_drop (h : next L s (.drop r) = some s') :
    ∃ res stage p, s.phase r = .held res stage ∧ stage ≠ .dropping ∧ s.procs res.pid = some p ∧
      s' = (s.setProc res.pid { p with tids := p.tids.dealloc res.tid }).setPhase r
        (.held res .dropping) := by
  simp only [next] at h
  split at h
  next res hphase =>
    split at h
    next p hproc =>
      cases h
      exact ⟨res, .live, p, hphase, nofun, hproc, rfl⟩
    · cases h
  next res hphase =>
    split at h
    next p hproc =>
      cases h
      exact ⟨res, .failed, p, hphase, nofun, hproc, rfl⟩
    · cases h
  · cases h

theorem next_unmap (h : next L s (.unmap r) = some s') :
    ∃ res p, s.phase r = .held res .dropping ∧ s.procs res.pid = some p ∧
      s' = (s.setProc res.pid (p.deallocUserRes L res)).setPhase r .gone := by
  simp only [next] at h
  split at h
  next res hphase =>
    split at h
    next p hproc =>
      cases h
      exact ⟨res, p, hphase, hproc, rfl⟩
    · cases h
  · cases h

theorem next_fork {parent : ResId} {child : Pid} (h : next L s (.fork parent child) = some s') :
    ∃ res p, s.phase parent = .held res .live ∧ s.procs res.pid = some p ∧ s.procs child = none ∧
      s' = (s.setProc child (p.forked s.born)).bear ⟨child, 0, res.ustackBase⟩ .live := by
  simp only [next] at h
  split at h
  next res hphase =>
    split at h
    next p hproc hchild =>
      cases h
      exact ⟨res, p, hphase, hproc, hchild, rfl⟩
    · cases h
  · cases h

theorem next_mmap {pid : Pid} {request : MmapRequest} {startVpn endVpn : ℕ} {frames : Bool}
    (h : next L s (.mmap pid request startVpn endVpn frames) = some s') :
    s' = s ∨ ∃ p vmas, s.procs pid = some p ∧
      p.vmas.mmap L.userSpaceEnd request startVpn endVpn frames = .ok vmas ∧
      s' = s.setProc pid (p.setVmas vmas) := by
  simp only [next] at h
  split at h
  next p hproc =>
    split at h
    · split at h
      next vmas hmmap =>
        cases h
        exact .inr ⟨p, vmas, hproc, hmmap, rfl⟩
      · cases h
        exact .inl rfl
    · cases h
  · cases h

theorem next_munmap {pid : Pid} {startVpn endVpn : ℕ}
    (h : next L s (.munmap pid startVpn endVpn) = some s') :
    s' = s ∨ ∃ p vmas, s.procs pid = some p ∧ p.vmas.munmap startVpn endVpn = some vmas ∧
      s' = s.setProc pid (p.setVmas vmas) := by
  simp only [next] at h
  split at h
  next p hproc =>
    split at h
    next vmas hmunmap =>
      cases h
      exact .inr ⟨p, vmas, hproc, hmunmap, rfl⟩
    · cases h
      exact .inl rfl
  · cases h

end Sections

/-! ## The invariant is kept -/

section Kept

variable {L : Layout} {N : ℕ} {s s' : State} {l : Label} {r : ResId}

section

variable (h : Inv L N s)

include h

theorem Inv.map {stackFrames trapFrames : Bool} (hfit : L.Fits N)
    (hn : next L s (.map r stackFrames trapFrames) = some s') :
    Inv L N s' ∧ ((∃ res, s'.phase r = .held res .live) ∨ stackFrames = false ∨ trapFrames = false) := by
  obtain ⟨res, mode, p, hphase, hproc, rfl⟩ := next_map hn
  have hr := holders_of_phase hphase
  have hmode : mode ≠ .none := fun heq => h.mode r res (heq ▸ hphase)
  have hout := (h.procs res.pid p hproc).allocFor res stackFrames trapFrames hfit hr hmode
    (h.base r res _ hphase)
  have hother := Inv.holding_other hphase
  have hborn := h.lt_born hphase
  rcases hout with ⟨hok, hinv⟩ | ⟨herr, hframes, hinv⟩
  · rw [if_pos hok]
    refine ⟨h.move rfl rfl (Nat.le_refl _) hborn hother ?_ ?_, .inl ⟨res, update_self ..⟩⟩
    · rintro res' stage' heq
      cases heq
      exact ⟨rfl, h.base r res _ hphase, nofun⟩
    · rwa [holding_of_pid rfl]
  · rw [if_neg herr]
    refine ⟨h.move rfl rfl (Nat.le_refl _) hborn hother ?_ ?_, .inr ?_⟩
    · rintro res' stage' heq
      cases heq
      exact ⟨rfl, h.base r res _ hphase, nofun⟩
    · rwa [holding_of_pid rfl]
    · exact Bool.and_eq_false_iff.mp hframes

theorem Inv.create {creator : ResId} {mode : TaskUserResAlloc}
    (hok : Careful L N s (.create creator mode)) (hn : next L s (.create creator mode) = some s') :
    Inv L N s' := by
  obtain ⟨res, p, hphase, hproc, hmode, rfl⟩ := next_create hn
  rw [Careful, hphase] at hok
  obtain ⟨hroom, hdrop⟩ := hok
  have hdrop : ∀ r tid, s.holders res.pid r ≠ some (tid, .dropping) := by
    intro r tid hr
    rcases Nat.lt_or_ge r s.born with hlt | hge
    · exact hdrop r hlt (hr ▸ rfl)
    · rw [holders, h.unborn r hge] at hr
      cases hr
  refine h.bear ⟨res.pid, p.tids.alloc.1, res.ustackBase⟩ (h.base creator res _ hphase) ?_ ?_
  · rintro heq
    cases heq
    exact hmode rfl
  · refine (h.procs res.pid p hproc).alloc ?_ hdrop (hroom p hproc)
    rw [holders, h.unborn s.born (Nat.le_refl _)]
    rfl

theorem Inv.fork {parent : ResId} {child : Pid}
    (hok : Careful L N s (.fork parent child)) (hn : next L s (.fork parent child) = some s') :
    Inv L N s' := by
  obtain ⟨res, p, hphase, hproc, hchild, rfl⟩ := next_fork hn
  rw [Careful, hphase] at hok
  obtain ⟨htid, honly⟩ := hok
  have hr := holders_of_phase hphase
  rw [htid] at hr
  have honly : ∀ r, s.holders res.pid r ≠ none → r = parent := by
    intro r hheld
    rcases Nat.lt_or_ge r s.born with hlt | hge
    · exact honly r hlt hheld
    · rw [holders, h.unborn r hge] at hheld
      exact absurd rfl hheld
  -- Nobody holds a number in a process that does not exist.
  have hempty : s.holders child = fun _ => none := by
    funext r
    cases hp : s.phase r with
    | held res' stage' =>
      rw [holders, hp]
      refine holding_of_ne fun heq => h.proc r res' stage' hp ?_
      rw [heq, hchild]
    | unborn | gone => rw [holders, hp]; rfl
  refine h.bear ⟨child, 0, res.ustackBase⟩ (h.base parent res _ hphase) nofun ?_
  rw [hempty]
  exact (h.procs res.pid p hproc).forked hr honly s.born

theorem Inv.drop (hn : next L s (.drop r) = some s') : Inv L N s' := by
  obtain ⟨res, stage, p, hphase, hstage, hproc, rfl⟩ := next_drop hn
  have hr := holders_of_phase hphase
  refine h.move rfl rfl (Nat.le_refl _) (h.lt_born hphase) (Inv.holding_other hphase) ?_ ?_
  · rintro res' stage' heq
    cases heq
    exact ⟨rfl, h.base r res _ hphase, nofun⟩
  · rw [holding_of_pid rfl]
    exact (h.procs res.pid p hproc).dealloc hr hstage

theorem Inv.unmap (hfit : L.Fits N) (hn : next L s (.unmap r) = some s') : Inv L N s' := by
  obtain ⟨res, p, hphase, hproc, rfl⟩ := next_unmap hn
  have hr := holders_of_phase hphase
  refine h.move rfl rfl (Nat.le_refl _) (h.lt_born hphase) (Inv.holding_other hphase) nofun ?_
  exact (h.procs res.pid p hproc).deallocUserRes hfit hr (h.base r res _ hphase)

end

theorem inv_next (hfit : L.Fits N) (h : Inv L N s) (hok : Careful L N s l)
    (hn : next L s l = some s') : Inv L N s' := by
  cases l with
  | create creator mode => exact h.create hok hn
  | map r stackFrames trapFrames => exact (h.map hfit hn).1
  | drop r => exact h.drop hn
  | unmap r => exact h.unmap hfit hn
  | fork parent child => exact h.fork hok hn
  | mmap pid request startVpn endVpn frames =>
    rcases next_mmap hn with rfl | ⟨p, vmas, hproc, hmmap, rfl⟩
    · exact h
    · exact h.edit ((h.procs pid p hproc).userEdit (.mmap hok hmmap))
  | munmap pid startVpn endVpn =>
    rcases next_munmap hn with rfl | ⟨p, vmas, hproc, hmunmap, rfl⟩
    · exact h
    · exact h.edit ((h.procs pid p hproc).userEdit (.munmap hok hmunmap))

end Kept

/-! ## Exactness -/

section Exactness

variable {L : Layout} {N : ℕ} {s : State} {image : Image} {p : Process}

theorem boot_phase_of_ne {r : ResId} (h : r ≠ 0) : (boot L p).phase r = .unborn := by
  simp [boot, h]

theorem inv_boot (hfit : L.Fits N)
    (hoff : ∀ vma ∈ image.vmas.areas, L.OffReserved N vma.start vma.stop)
    (hp : image.process.allocUserRes L 0 L.firstRes true true = (p, none)) : Inv L N (boot L p) := by
  have hbefore := ProcInv.image hfit.threads hoff
  have hout := hbefore.allocFor L.firstRes true true hfit (update_self ..) (by rintro ⟨⟩) rfl
  have hproc : ProcInv L N (update (fun _ => none) 0 (some (0, .live))) p := by
    rw [Process.allocFor, hp] at hout
    rcases hout with ⟨-, hinv⟩ | ⟨herr, -⟩
    · rwa [update_idem] at hinv
    · exact absurd rfl herr
  have hphase : ∀ r res stage, (boot L p).phase r = .held res stage →
      res = L.firstRes ∧ stage = .live := by
    intro r res stage hr
    rcases eq_or_ne r 0 with rfl | heq
    · cases hr
      exact ⟨rfl, rfl⟩
    · rw [boot_phase_of_ne heq] at hr
      cases hr
  constructor
  · intro pid p' hp'
    rcases eq_or_ne pid 0 with rfl | hpid
    · cases hp'
      have hholders : (boot L p).holders 0 =
          (update (fun _ => none) 0 (some (0, Stage.live)) : Holders) := by
        funext r
        rcases eq_or_ne r 0 with rfl | heq
        · rfl
        · rw [update_of_ne heq, holders, boot_phase_of_ne heq]
          rfl
      rw [hholders]
      exact hproc
    · simp [boot, hpid] at hp'
  · intro r res stage hr
    rw [(hphase r res stage hr).1]
    rintro ⟨⟩
  · intro r res stage hr
    rw [(hphase r res stage hr).1]
    rfl
  · intro r res hr
    cases (hphase r res _ hr).2
  · intro r hr
    exact boot_phase_of_ne (Nat.ne_of_gt hr)

theorem exact_of_inv (hfit : L.Fits N) (h : Inv L N s) : Exact L s := by
  constructor
  · intro r r' res res' hr hr' hpid htid
    have hheld := holders_of_phase hr
    have hheld' := holders_of_phase hr'
    rw [← hpid, ← htid] at hheld'
    cases hproc : s.procs res.pid with
    | none => exact absurd hproc (h.proc r res _ hr)
    | some p => exact (h.procs res.pid p hproc).distinct r r' res.tid _ _ hheld hheld'
  · intro r res hr
    have hheld := holders_of_phase hr
    cases hproc : s.procs res.pid with
    | none => exact absurd hproc (h.proc r res _ hr)
    | some p =>
      have hinv := h.procs res.pid p hproc
      have hmem := hinv.live r res.tid hheld
      have hin : (L.trapVma res.tid).Contains (trapCxBottomFromTid L res.tid) :=
        ⟨Nat.le_refl _, Nat.lt_succ_self _⟩
      have howned := (hinv.at_slot hfit hheld (.inl rfl) hmem hin hin).2
      exact ⟨p, L.trapVma res.tid, rfl, hmem, hin, rfl, howned.made⟩
  · intro pid p vpn r hproc hmade
    have hinv := h.procs pid p hproc
    obtain ⟨vma, hmem, hin, hspecial⟩ := hinv.made vpn r hmade
    obtain ⟨r', ⟨tid, -, -, -, hslot⟩, -⟩ := hinv.owned vma hmem hspecial
    exact ⟨_, Vmas.infoAt_of_mem hmem hin, hslot.kernelMade⟩
  · intro r s' pid p hn hproc
    obtain ⟨res, p₀, hphase, hproc₀, rfl⟩ := next_unmap hn
    have hheld := holders_of_phase hphase
    rcases eq_or_ne pid res.pid with rfl | hpid
    · rw [hproc] at hproc₀
      cases hproc₀
      refine ⟨_, setProc_self, fun vpn => ?_⟩
      exact (h.procs res.pid p hproc).infoAt_deallocUserRes hfit hheld (h.base r res _ hphase)
    · refine ⟨p, (setProc_of_ne hpid).trans hproc, fun vpn => ?_⟩
      -- In another process nothing was mapped for this task.
      rw [if_neg]
      intro hmade
      have hinv := h.procs pid p hproc
      obtain ⟨vma, hmem, hin, hspecial⟩ := hinv.made vpn r hmade
      obtain ⟨r', ⟨tid, stage, hr', -, -⟩, hmade'⟩ := hinv.owned vma hmem hspecial
      rw [hmade' vpn hin] at hmade
      cases hmade
      rw [holders, Inv.holding_other hphase pid hpid] at hr'
      cases hr'
  · intro r stackFrames trapFrames s' hn
    exact (h.map hfit hn).2

/-- Per-thread resources are exact in every state of a careful run. -/
theorem per_thread_resources_exact (hfit : L.Fits N)
    (hoff : ∀ vma ∈ image.vmas.areas, L.OffReserved N vma.start vma.stop)
    (h : (machine L image).Reach (Careful L N) s) : Exact L s := by
  refine exact_of_inv hfit (Machine.Reach.invariant ?_ ?_ h)
  · rintro s ⟨p, hp, rfl⟩
    exact inv_boot hfit hoff hp
  · exact fun s l s' hinv hok hn => inv_next hfit hinv hok hn

end Exactness

def program : Image where
  vmas := ⟨[⟨16, 32, ⟨⟨true, false, true, true⟩, .elf, none, false⟩⟩], by simp, by simp⟩
  noThreads := by simp

def firstProcess : Process :=
  (program.process.allocUserRes .riscv 0 Layout.riscv.firstRes true true).1

theorem init_boot : (machine .riscv program).Init (boot .riscv firstProcess) :=
  ⟨firstProcess, Prod.ext rfl (by decide), rfl⟩

/-- Threads come and go, the user maps and unmaps, and the process forks when it is alone again. -/
def carefulRun : List Label :=
  [.mmap 0 (.anonymous ⟨true, true, false, true⟩ false) 0x100000 0x100004 true,
    .create 0 .full, .map 1 true true, .create 0 .trapOnly, .map 2 true true,
    .munmap 0 0x100001 0x100002, .drop 1, .unmap 1, .drop 2, .unmap 2,
    .fork 0 1, .create 3 .full, .map 4 true true, .create 3 .trapOnly, .map 5 true false]

theorem per_thread_resources_exact_forked : ∃ s,
    (machine .riscv program).Reach (Careful .riscv 3) s ∧ Exact .riscv s ∧
    (∃ res, s.phase 4 = .held res .live ∧ res.pid = 1 ∧ res.tid = 1) ∧
    ∃ res, s.phase 5 = .held res .failed ∧ res.tid = 2 := by
  have hfit : Layout.riscv.Fits 3 := ⟨by decide, by decide, by decide, by decide⟩
  obtain ⟨s, hs, hp⟩ := (machine .riscv program).exists_reach_of_runWhile (Careful .riscv 3)
    (fun s => s.phase 4 = .held ⟨1, 1, 0x8000⟩ .live ∧ s.phase 5 = .held ⟨1, 2, 0x8000⟩ .failed)
    carefulRun init_boot (by decide)
  exact ⟨s, hs, per_thread_resources_exact hfit (by decide) hs, ⟨_, hp.1, rfl, rfl⟩, _, hp.2, rfl⟩

/-- While a drop is half done its number goes to a second task, whose creation fails and whose drop
takes the area of the first; a third task gets the number, and the first drop takes its area. -/
def reusedNumber : List Label :=
  [.create 0 .trapOnly, .map 1 true true, .drop 1,
    .create 0 .trapOnly, .map 2 true true, .drop 2, .unmap 2,
    .create 0 .trapOnly, .map 3 true true, .unmap 1]

/-- The user has mapped a page where the stack of the second thread would be, and starts a thread that
brings its own stack. -/
def ownStack : List Label :=
  [.mmap 0 (.anonymous ⟨true, true, false, true⟩ false) (0x8000 + 2049) (0x8000 + 2050) true,
    .create 0 .trapOnly, .map 1 true true, .drop 1]

/-- A process with two threads forks, and its child starts a thread. -/
def forkedThreads : List Label :=
  [.create 0 .trapOnly, .map 1 true true, .fork 1 1, .create 2 .trapOnly]

/-- Without care, a live task loses its trap context, a drop removes a page of the user's, and a
creation fails although frames can be had. -/
theorem thread_areas_are_lost :
    (∃ s res p, (machine .riscv program).Reachable s ∧ s.phase 3 = .held res .live ∧
      s.procs res.pid = some p ∧ p.vmas.infoAt (trapCxBottomFromTid .riscv res.tid) = none) ∧
    (∃ s s' p p' info, (machine .riscv program).Reachable s ∧ next .riscv s (.unmap 1) = some s' ∧
      s.procs 0 = some p ∧ s'.procs 0 = some p' ∧ p.madeFor (0x8000 + 2049) = none ∧
      p.vmas.infoAt (0x8000 + 2049) = some info ∧ info.kind = .anonymous ∧
      p'.vmas.infoAt (0x8000 + 2049) = none) ∧
    ∃ s s' res, (machine .riscv program).Reachable s ∧ next .riscv s (.map 3 true true) = some s' ∧
      s'.phase 3 = .held res .failed := by
  refine ⟨?_, ?_, ?_⟩
  · obtain ⟨s, hs, hp⟩ := (machine .riscv program).exists_reachable_of_run
      (fun s => s.phase 3 = .held ⟨0, 1, 0x8000⟩ .live ∧
        (s.procs 0).any fun p => p.vmas.infoAt (trapCxBottomFromTid .riscv 1) = none)
      reusedNumber init_boot (by decide)
    obtain ⟨p, hproc, hnone⟩ := (Option.any_eq_true ..).mp hp.2
    exact ⟨s, _, p, hs, hp.1, hproc, of_decide_eq_true hnone⟩
  · obtain ⟨s, hs, hp⟩ := (machine .riscv program).exists_reachable_of_run
      (fun s => (next .riscv s (.unmap 1)).any fun s' => (s.procs 0).any fun p => (s'.procs 0).any fun p' =>
        (p.vmas.infoAt (0x8000 + 2049)).any fun info => p.madeFor (0x8000 + 2049) = none ∧
          info.kind = .anonymous ∧ p'.vmas.infoAt (0x8000 + 2049) = none)
      ownStack init_boot (by decide)
    obtain ⟨s', hn, hp⟩ := (Option.any_eq_true ..).mp hp
    obtain ⟨p, hproc, hp⟩ := (Option.any_eq_true ..).mp hp
    obtain ⟨p', hproc', hp⟩ := (Option.any_eq_true ..).mp hp
    obtain ⟨info, hinfo, hp⟩ := (Option.any_eq_true ..).mp hp
    obtain ⟨hmade, hkind, hnone⟩ := of_decide_eq_true hp
    exact ⟨s, s', p, p', info, hs, hn, hproc, hproc', hmade, hinfo, hkind, hnone⟩
  · obtain ⟨s, hs, hp⟩ := (machine .riscv program).exists_reachable_of_run
      (fun s => (next .riscv s (.map 3 true true)).any fun s' => s'.phase 3 = .held ⟨1, 1, 0x8000⟩ .failed)
      forkedThreads init_boot (by decide)
    obtain ⟨s', hn, hp⟩ := (Option.any_eq_true ..).mp hp
    exact ⟨s, s', _, hs, hn, of_decide_eq_true hp⟩

end CosmOS.Task
