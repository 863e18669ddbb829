import CosmOS.Task.UserRes

/-!
# Task.Threads — the threads of one process

What is kept in a single process, section by section, as long as thread numbers are not handed out
while a drop is half done and the user stays off the pages that thread numbers below `N` stand for.

The invariant is about areas: one that is a thread's by its kind, or that lies on a reserved page, is
exactly the stack or the trap context of the one task that holds the number.  Everything else follows:
a creation finds its pages free, and a drop finds its own areas and no others.
-/

namespace CosmOS.Task

open Mm Function List Vmas Process
open AreaMap (eq_of_contains start_lt_stop view_eq_none_iff view_eq_some_iff)

/-! ## Slots -/

namespace Layout

open Layout

variable (L : Layout)

def trapVma (tid : ℕ) : Vma :=
  newTrapContext (trapCxBottomFromTid L tid) (trapCxBottomFromTid L tid + 1) tid

def stackVma (tid : ℕ) : Vma :=
  newUserStack (ustackBottomFromTid L L.userStackBase tid)
    (ustackBottomFromTid L L.userStackBase tid + L.userStackPages) tid

/-- The pages of the thread numbers below `N`. -/
def Reserved (N vpn : ℕ) : Prop := ∃ tid < N, (L.trapVma tid).Contains vpn ∨ (L.stackVma tid).Contains vpn

/-- The pages from `lo` up to `hi` are none of them. -/
def OffReserved (N lo hi : ℕ) : Prop := ∀ tid < N,
  ((L.trapVma tid).stop ≤ lo ∨ hi ≤ (L.trapVma tid).start) ∧
    ((L.stackVma tid).stop ≤ lo ∨ hi ≤ (L.stackVma tid).start)

instance (N lo hi : ℕ) : Decidable (L.OffReserved N lo hi) :=
  inferInstanceAs (Decidable (∀ tid < N, _))

/-- There is room for the stacks of `N` threads below the trap contexts of `N` threads. -/
structure Fits (N : ℕ) : Prop where
  threads : 0 < N
  stack : 0 < L.userStackPages
  room : L.userStackBase + N * (1 + L.userStackPages) + N ≤ L.trapContextBase + 1
  trap : L.trapContextBase < L.userSpaceEnd

variable {L} {N tid tid' : ℕ}

theorem OffReserved.not_reserved {lo hi vpn : ℕ} (h : L.OffReserved N lo hi) (hlo : lo ≤ vpn)
    (hhi : vpn < hi) : ¬ L.Reserved N vpn := by
  rintro ⟨tid, ht, ⟨hin, hin'⟩ | ⟨hin, hin'⟩⟩
  · rcases (h tid ht).1 with hle | hle <;> omega
  · rcases (h tid ht).2 with hle | hle <;> omega

theorem stack_stop_le (h : tid < tid') : (L.stackVma tid).stop ≤ (L.stackVma tid').start := by
  have hmul : (tid + 1) * (1 + L.userStackPages) ≤ tid' * (1 + L.userStackPages) :=
    Nat.mul_le_mul_right _ h
  rw [Nat.succ_mul] at hmul
  show L.userStackBase + tid * (1 + L.userStackPages) + L.userStackPages ≤
    L.userStackBase + tid' * (1 + L.userStackPages)
  omega

/-- All stacks lie below all trap contexts. -/
theorem Fits.stack_le_trap (h : L.Fits N) (ht : tid < N) (ht' : tid' < N) :
    (L.stackVma tid).stop ≤ (L.trapVma tid').start := by
  have hstop : _ ≤ L.userStackBase + N * (1 + L.userStackPages) := stack_stop_le ht
  have hroom := h.room
  show _ ≤ L.trapContextBase - tid'
  omega

theorem trap_start_lt : (L.trapVma tid).start < (L.trapVma tid).stop := Nat.lt_succ_self _

theorem Fits.stack_start_lt (h : L.Fits N) : (L.stackVma tid).start < (L.stackVma tid).stop :=
  Nat.lt_add_of_pos_right h.stack

end Layout

/-- The kinds of areas that are made for threads. -/
def KernelMade (kind : VmaKind) : Prop := ∃ tid, kind = .trapContext tid ∨ kind = .userStack tid

/-- The areas that are a thread's by their kind or by their place. -/
def Special (L : Layout) (N : ℕ) (vma : Vma) : Prop :=
  KernelMade vma.attr.kind ∨ ∃ vpn, vma.Contains vpn ∧ L.Reserved N vpn

/-! ## The user's edits -/

/-- An edit of the user that stays off the reserved pages. -/
structure UserEdit (L : Layout) (N : ℕ) (vmas vmas' : Vmas) : Prop where
  same : ∀ vpn, L.Reserved N vpn → vmas'.infoAt vpn = vmas.infoAt vpn
  kinds : ∀ vpn info, vmas'.infoAt vpn = some info → KernelMade info.kind → vmas.infoAt vpn = some info
  keeps : ∀ vma, vma ∈ vmas → vmas.Alone vma → KernelMade vma.attr.kind →
    (∀ vpn, vma.Contains vpn → L.Reserved N vpn) → vma ∈ vmas'

section UserEdit

variable {L : Layout} {N : ℕ} {vmas : Vmas}

theorem MmapRequest.not_kernelMade (request : MmapRequest) : ¬ KernelMade request.vmaInfo.kind := by
  rintro ⟨tid, h | h⟩ <;> rcases request with ⟨perm, _ | _⟩ | ⟨perm, f, pgoff, shared⟩ <;> cases h

variable {startVpn endVpn : ℕ} {vmas' : Vmas} (hoff : L.OffReserved N startVpn endVpn)

include hoff

theorem UserEdit.mmap {request : MmapRequest} {frames : Bool}
    (h : vmas.mmap L.userSpaceEnd request startVpn endVpn frames = .ok vmas') :
    UserEdit L N vmas vmas' := by
  obtain ⟨hinfo, hkeeps⟩ := mmap_spec h
  refine ⟨fun vpn hres => ?_, fun vpn info hi hkind => ?_, fun vma hmem halone hkind _ => ?_⟩
  · rw [hinfo, if_neg fun hr => hoff.not_reserved hr.1 hr.2 hres]
  · rw [hinfo] at hi
    split at hi
    · cases hi
      exact absurd hkind (MmapRequest.not_kernelMade request)
    · exact hi
  · exact hkeeps vma hmem halone fun heq => MmapRequest.not_kernelMade request (heq ▸ hkind)

theorem UserEdit.munmap (h : vmas.munmap startVpn endVpn = some vmas') : UserEdit L N vmas vmas' := by
  obtain ⟨hinfo, hkeeps⟩ := munmap_spec h
  refine ⟨fun vpn hres => ?_, fun vpn info hi _ => ?_, fun vma hmem halone _ hres => ?_⟩
  · rw [hinfo, if_neg fun hr => hoff.not_reserved hr.1 hr.2 hres]
  · rw [hinfo] at hi
    split at hi
    · cases hi
    · exact hi
  · exact hkeeps vma hmem halone fun vpn hin hr => hoff.not_reserved hr.1 hr.2 (hres vpn hin)

end UserEdit

/-! ## The invariant of a process -/

/-- Who holds which thread number, and how far it is. -/
abbrev Holders := ResId → Option (ℕ × Stage)

def IsSlot (L : Layout) (tid : ℕ) (vma : Vma) : Prop := vma = L.trapVma tid ∨ vma = L.stackVma tid

/-- The area is one of `r`'s, and all its pages were mapped for `r`. -/
structure OwnedBy (L : Layout) (holders : Holders) (p : Process) (vma : Vma) (r : ResId) : Prop where
  holder : ∃ tid stage, holders r = some (tid, stage) ∧ (∀ mode, stage ≠ .allocating mode) ∧
    IsSlot L tid vma
  made : ∀ vpn, vma.Contains vpn → p.madeFor vpn = some r

structure ProcInv (L : Layout) (N : ℕ) (holders : Holders) (p : Process) : Prop where
  recycled_nodup : p.tids.recycled.Nodup
  recycled_lt : ∀ tid ∈ p.tids.recycled, tid < p.tids.current
  current_le : p.tids.current ≤ N
  tid_lt : ∀ r tid stage, holders r = some (tid, stage) → tid < p.tids.current
  not_recycled : ∀ r tid stage, holders r = some (tid, stage) → tid ∈ p.tids.recycled →
    stage = .dropping
  distinct : ∀ r r' tid stage stage', holders r = some (tid, stage) →
    holders r' = some (tid, stage') → r = r'
  owned : ∀ vma, vma ∈ p.vmas → Special L N vma → ∃ r, OwnedBy L holders p vma r
  made : ∀ vpn r, p.madeFor vpn = some r → ∃ vma, vma ∈ p.vmas ∧ vma.Contains vpn ∧ Special L N vma
  live : ∀ r tid, holders r = some (tid, .live) → L.trapVma tid ∈ p.vmas

/-- Who holds what after `r` has got something new. -/
theorem holders_update {holders : Holders} {r r₁ : ResId} {tid tid₁ : ℕ} {stage stage₁ : Stage}
    (h : update holders r (some (tid, stage)) r₁ = some (tid₁, stage₁)) :
    (r₁ = r ∧ tid₁ = tid ∧ stage₁ = stage) ∨ holders r₁ = some (tid₁, stage₁) := by
  rcases eq_or_ne r₁ r with rfl | hr
  · rw [update_self] at h
    cases h
    exact .inl ⟨rfl, rfl, rfl⟩
  · rw [update_of_ne hr] at h
    exact .inr h

section Slots

variable {L : Layout} {N tid tid' : ℕ} {vma vma' : Vma} {vpn : ℕ}

theorem IsSlot.kernelMade (h : IsSlot L tid vma) : KernelMade vma.attr.kind := by
  rcases h with rfl | rfl
  · exact ⟨tid, .inl rfl⟩
  · exact ⟨tid, .inr rfl⟩

theorem IsSlot.reserved (h : IsSlot L tid vma) (ht : tid < N) (hin : vma.Contains vpn) :
    L.Reserved N vpn := by
  rcases h with rfl | rfl
  · exact ⟨tid, ht, .inl hin⟩
  · exact ⟨tid, ht, .inr hin⟩

/-- Slots do not overlap. -/
theorem IsSlot.eq_of_contains (hfit : L.Fits N) (ht : tid < N) (ht' : tid' < N) (h : IsSlot L tid vma)
    (h' : IsSlot L tid' vma') (hin : vma.Contains vpn) (hin' : vma'.Contains vpn) :
    tid = tid' ∧ vma = vma' := by
  obtain ⟨hlo, hhi⟩ := hin
  obtain ⟨hlo', hhi'⟩ := hin'
  rcases h with rfl | rfl <;> rcases h' with rfl | rfl
  · -- A trap context has one page.
    have hstop : (L.trapVma tid).stop = (L.trapVma tid).start + 1 := rfl
    have hstop' : (L.trapVma tid').stop = (L.trapVma tid').start + 1 := rfl
    have hroom := hfit.room
    have heq : (L.trapVma tid).start = (L.trapVma tid').start := by omega
    have heq : L.trapContextBase - tid = L.trapContextBase - tid' := heq
    obtain rfl : tid = tid' := by omega
    exact ⟨rfl, rfl⟩
  · have := hfit.stack_le_trap ht' ht
    omega
  · have := hfit.stack_le_trap ht ht'
    omega
  · rcases Nat.lt_trichotomy tid tid' with hlt | rfl | hlt
    · have := Layout.stack_stop_le (L := L) hlt
      omega
    · exact ⟨rfl, rfl⟩
    · have := Layout.stack_stop_le (L := L) hlt
      omega

theorem IsSlot.nonempty (hfit : L.Fits N) (h : IsSlot L tid vma) : vma.start < vma.stop := by
  rcases h with rfl | rfl
  · exact Layout.trap_start_lt
  · exact hfit.stack_start_lt

end Slots

namespace ProcInv

variable {L : Layout} {N tid : ℕ} {holders : Holders} {p : Process} {r : ResId} {stage stage' : Stage}
  {vma slot : Vma} {vmas : Vmas} {vpn : ℕ}

theorem tid_lt_threads (h : ProcInv L N holders p) (hr : holders r = some (tid, stage)) : tid < N :=
  Nat.lt_of_lt_of_le (h.tid_lt r tid stage hr) h.current_le

/-- What lies on a page of a holder's slot is that slot, and is the holder's. -/
theorem at_slot (h : ProcInv L N holders p) (hfit : L.Fits N) (hr : holders r = some (tid, stage))
    (hslot : IsSlot L tid slot) (hmem : vma ∈ p.vmas) (hin : vma.Contains vpn)
    (hin' : slot.Contains vpn) : vma = slot ∧ OwnedBy L holders p vma r := by
  have ht := h.tid_lt_threads hr
  obtain ⟨r', howned⟩ := h.owned vma hmem (.inr ⟨vpn, hin, hslot.reserved ht hin'⟩)
  obtain ⟨tid', stage', hr', -, hslot'⟩ := howned.holder
  obtain ⟨rfl, heq⟩ := hslot.eq_of_contains hfit ht (h.tid_lt_threads hr') hslot' hin' hin
  obtain rfl := h.distinct r r' tid stage stage' hr hr'
  exact ⟨heq.symm, howned⟩

variable {mode : TaskUserResAlloc} {res : TaskUserRes}

section

variable (h : ProcInv L N holders p)
include h

/-- Before the mapping section the pages of a task are free. -/
theorem free_slot (hfit : L.Fits N)
    (hr : holders r = some (tid, .allocating mode)) (hslot : IsSlot L tid slot) :
    p.vmas.Free slot.start slot.stop := by
  intro vma hmem
  by_contra hmeets
  have hpos := start_lt_stop hmem
  have hspos := hslot.nonempty hfit
  have hin : vma.Contains (max vma.start slot.start) := ⟨by omega, by omega⟩
  have hin' : slot.Contains (max vma.start slot.start) := ⟨by omega, by omega⟩
  obtain ⟨-, howned⟩ := h.at_slot hfit hr hslot hmem hin hin'
  obtain ⟨tid', stage', hr', hmapped, -⟩ := howned.holder
  rw [hr] at hr'
  cases hr'
  exact hmapped mode rfl

/-- A task's own area is alone of its kind. -/
theorem alone (hmem : vma ∈ p.vmas) (hkind : KernelMade vma.attr.kind) : p.vmas.Alone vma := by
  intro vpn info hinfo hsame
  obtain ⟨other, hother, hin, rfl⟩ := view_eq_some_iff.mp hinfo
  obtain ⟨r, howned⟩ := h.owned vma hmem (.inl hkind)
  obtain ⟨r', howned'⟩ := h.owned other hother (.inl (hsame ▸ hkind))
  obtain ⟨tid, -, -, -, hslot⟩ := howned.holder
  obtain ⟨tid', -, -, -, hslot'⟩ := howned'.holder
  have heq : other = vma := by
    rcases hslot' with rfl | rfl <;> rcases hslot with rfl | rfl <;> cases hsame <;> rfl
  rwa [heq] at hin

/-! ## Stages -/

/-- A task that is past `alloc_tid` moves on. -/
theorem setStage (hr : holders r = some (tid, stage))
    (hnew : ∀ mode, stage' ≠ .allocating mode) (hrec : tid ∈ p.tids.recycled → stage' = .dropping)
    (hlive : stage' = .live → L.trapVma tid ∈ p.vmas) :
    ProcInv L N (update holders r (some (tid, stage'))) p := by
  -- Only the stage of `r` is new.
  have hsome : ∀ r₁ tid₁ stage₁, update holders r (some (tid, stage')) r₁ = some (tid₁, stage₁) →
      ∃ stage₂, holders r₁ = some (tid₁, stage₂) := by
    intro r₁ tid₁ stage₁ h₁
    rcases holders_update h₁ with ⟨rfl, rfl, -⟩ | h₁
    · exact ⟨stage, hr⟩
    · exact ⟨stage₁, h₁⟩
  refine { h with tid_lt := ?_, not_recycled := ?_, distinct := ?_, owned := ?_, live := ?_ }
  · intro r₁ tid₁ stage₁ h₁
    obtain ⟨stage₂, h₂⟩ := hsome r₁ tid₁ stage₁ h₁
    exact h.tid_lt r₁ tid₁ stage₂ h₂
  · intro r₁ tid₁ stage₁ h₁ hmem
    rcases holders_update h₁ with ⟨-, rfl, rfl⟩ | h₁
    · exact hrec hmem
    · exact h.not_recycled r₁ tid₁ stage₁ h₁ hmem
  · intro r₁ r₂ tid₁ stage₁ stage₂ h₁ h₂
    obtain ⟨stage₁', h₁⟩ := hsome r₁ tid₁ stage₁ h₁
    obtain ⟨stage₂', h₂⟩ := hsome r₂ tid₁ stage₂ h₂
    exact h.distinct r₁ r₂ tid₁ stage₁' stage₂' h₁ h₂
  · intro vma hmem hspecial
    obtain ⟨r₁, ⟨tid₁, stage₁, hr₁, hmapped, hslot⟩, hmade⟩ := h.owned vma hmem hspecial
    refine ⟨r₁, ?_, hmade⟩
    rcases eq_or_ne r₁ r with rfl | heq
    · rw [hr] at hr₁
      cases hr₁
      exact ⟨tid, stage', update_self .., hnew, hslot⟩
    · exact ⟨tid₁, stage₁, by rw [update_of_ne heq, hr₁], hmapped, hslot⟩
  · intro r₁ tid₁ h₁
    rcases holders_update h₁ with ⟨-, rfl, hstage⟩ | h₁
    · exact hlive hstage.symm
    · exact h.live r₁ tid₁ h₁

/-- `alloc_tid`, when no drop is half done: nobody has the number. -/
theorem alloc (hr : holders r = none) (hdrop : ∀ r tid, holders r ≠ some (tid, .dropping))
    (hroom : p.tids.recycled = [] → p.tids.current < N) :
    ProcInv L N (update holders r (some (p.tids.alloc.1, .allocating mode)))
      { p with tids := p.tids.alloc.2 } := by
  -- What the allocator hands out was not held, and what it keeps is what it had.
  obtain ⟨hfresh, hlt, hcur, hle, hnodup, hrest⟩ :
      (∀ r tid stage, holders r = some (tid, stage) → tid ≠ p.tids.alloc.1) ∧
      p.tids.alloc.1 < p.tids.alloc.2.current ∧ p.tids.current ≤ p.tids.alloc.2.current ∧
      p.tids.alloc.2.current ≤ N ∧
      (p.tids.alloc.1 ∉ p.tids.alloc.2.recycled ∧ p.tids.alloc.2.recycled.Nodup) ∧
      ∀ tid ∈ p.tids.alloc.2.recycled, tid ∈ p.tids.recycled := by
    have hlt := h.recycled_lt
    have hnodup := h.recycled_nodup
    have hrec := h.not_recycled
    unfold RecycleAllocator.alloc
    cases hlist : p.tids.recycled with
    | nil =>
      refine ⟨fun r tid stage hr => ?_, Nat.lt_succ_self _, Nat.le_succ _, hroom hlist, by simp, by simp⟩
      exact Nat.ne_of_lt (h.tid_lt r tid stage hr)
    | cons id rest =>
      rw [hlist] at hlt hnodup hrec
      refine ⟨fun r tid stage hr heq => ?_, hlt id (.head _), Nat.le_refl _, h.current_le,
        nodup_cons.mp hnodup, fun tid => .tail _⟩
      subst heq
      have hstage := hrec r tid stage hr (.head _)
      subst hstage
      exact hdrop r tid hr
  constructor
  · exact hnodup.2
  · exact fun tid hmem => Nat.lt_of_lt_of_le (h.recycled_lt tid (hrest tid hmem)) hcur
  · exact hle
  · intro r₁ tid₁ stage₁ h₁
    rcases holders_update h₁ with ⟨-, rfl, -⟩ | h₁
    · exact hlt
    · exact Nat.lt_of_lt_of_le (h.tid_lt r₁ tid₁ stage₁ h₁) hcur
  · intro r₁ tid₁ stage₁ h₁ hmem
    rcases holders_update h₁ with ⟨-, rfl, -⟩ | h₁
    · exact absurd hmem hnodup.1
    · exact h.not_recycled r₁ tid₁ stage₁ h₁ (hrest tid₁ hmem)
  · intro r₁ r₂ tid₁ stage₁ stage₂ h₁ h₂
    rcases holders_update h₁ with ⟨hr₁, htid₁, -⟩ | hold₁ <;>
      rcases holders_update h₂ with ⟨hr₂, htid₂, -⟩ | hold₂
    · exact hr₁.trans hr₂.symm
    · exact absurd htid₁ (hfresh r₂ tid₁ stage₂ hold₂)
    · exact absurd htid₂ (hfresh r₁ tid₁ stage₁ hold₁)
    · exact h.distinct r₁ r₂ tid₁ stage₁ stage₂ hold₁ hold₂
  · intro vma hmem hspecial
    obtain ⟨r₁, ⟨tid₁, stage₁, hr₁, hmapped, hslot⟩, hmade⟩ := h.owned vma hmem hspecial
    have hne : r₁ ≠ r := by
      rintro rfl
      rw [hr] at hr₁
      cases hr₁
    exact ⟨r₁, ⟨tid₁, stage₁, by rw [update_of_ne hne, hr₁], hmapped, hslot⟩, hmade⟩
  · exact h.made
  · intro r₁ tid₁ h₁
    rcases holders_update h₁ with ⟨-, -, hstage⟩ | h₁
    · cases hstage
    · exact h.live r₁ tid₁ h₁

theorem dealloc (hr : holders r = some (tid, stage)) (hstage : stage ≠ .dropping) :
    ProcInv L N (update holders r (some (tid, .dropping))) { p with tids := p.tids.dealloc tid } := by
  have hnot : tid ∉ p.tids.recycled := fun hmem => hstage (h.not_recycled r tid stage hr hmem)
  have h' : ProcInv L N (update holders r (some (tid, .dropping))) p :=
    h.setStage hr nofun (fun _ => rfl) nofun
  refine { h' with recycled_nodup := ?_, recycled_lt := ?_, not_recycled := ?_, owned := ?_ }
  · exact nodup_cons.mpr ⟨hnot, h.recycled_nodup⟩
  · intro tid₁ hmem
    rcases mem_cons.mp hmem with rfl | hmem
    · exact (h.tid_lt r tid₁ stage hr)
    · exact h.recycled_lt tid₁ hmem
  · intro r₁ tid₁ stage₁ h₁ hmem
    rcases mem_cons.mp hmem with rfl | hmem
    · -- The number is held by `r` alone.
      have hsame := h'.distinct r₁ r tid₁ stage₁ .dropping h₁ (update_self ..)
      rw [hsame, update_self] at h₁
      cases h₁
      rfl
    · exact h'.not_recycled r₁ tid₁ stage₁ h₁ hmem
  · exact fun vma hmem hspecial =>
      let ⟨r₁, hholder, hmade⟩ := h'.owned vma hmem hspecial
      ⟨r₁, hholder, hmade⟩

/-! ## Mapping -/

theorem addVma (hr : holders r = some (tid, stage))
    (hmapped : ∀ mode, stage ≠ .allocating mode) (hslot : IsSlot L tid slot)
    (hins : Vmas.Inserted p.vmas slot vmas) : ProcInv L N holders (p.addVma r slot vmas) := by
  have hapart : ∀ vma vpn, vma ∈ p.vmas → vma.Contains vpn → ¬ slot.Contains vpn := by
    rintro vma vpn hmem ⟨hlo, hhi⟩ ⟨hlo', hhi'⟩
    rcases hins.free vma hmem with hle | hle <;> omega
  refine { h with owned := ?_, made := ?_, live := ?_ }
  · intro vma hmem hspecial
    rcases hins.mem_iff.mp hmem with rfl | hmem
    · exact ⟨r, ⟨tid, stage, hr, hmapped, hslot⟩, fun vpn hin => if_pos hin⟩
    · obtain ⟨r₁, hholder, hmade⟩ := h.owned vma hmem hspecial
      refine ⟨r₁, hholder, fun vpn hin => ?_⟩
      exact (if_neg (hapart vma vpn hmem hin)).trans (hmade vpn hin)
  · intro vpn r₁ hmade
    simp only [Process.addVma] at hmade
    split at hmade
    next hin =>
      exact ⟨slot, hins.mem_iff.mpr (.inl rfl), hin, .inl hslot.kernelMade⟩
    · obtain ⟨vma, hmem, hin, hspecial⟩ := h.made vpn r₁ hmade
      exact ⟨vma, hins.mem_iff.mpr (.inr hmem), hin, hspecial⟩
  · exact fun r₁ tid₁ h₁ => hins.mem_iff.mpr (.inr (h.live r₁ tid₁ h₁))

end

/-- How a mapping section ends for the task `r`: it is live, or a frame was missing. -/
def Mapped (L : Layout) (N : ℕ) (holders : Holders) (r : ResId) (tid : ℕ) (frames : Bool)
    (result : Process × Option MmError) : Prop :=
  (result.2 = none ∧ ProcInv L N (update holders r (some (tid, .live))) result.1) ∨
  (result.2 ≠ none ∧ frames = false ∧
    ProcInv L N (update holders r (some (tid, .failed))) result.1)

theorem allocTrapCx (frames : Bool) (h : ProcInv L N (update holders r (some (res.tid, .failed))) p)
    (hfree : p.vmas.Free (L.trapVma res.tid).start (L.trapVma res.tid).stop) :
    Mapped L N holders r res.tid frames (p.allocTrapCx L r res frames) := by
  have hself : update holders r (some (res.tid, Stage.failed)) r = some (res.tid, .failed) :=
    update_self ..
  have hins : Vmas.Inserted p.vmas (L.trapVma res.tid) (p.vmas.put (L.trapVma res.tid)) :=
    ⟨Layout.trap_start_lt, hfree, rfl⟩
  have hadd := h.addVma hself nofun (.inl rfl) hins
  have hlive : ProcInv L N (update holders r (some (res.tid, .live)))
      (p.addVma r (L.trapVma res.tid) (p.vmas.put (L.trapVma res.tid))) := by
    have hidem := update_idem (a := r) (some (res.tid, Stage.failed))
      (some (res.tid, Stage.live)) holders
    rw [← hidem]
    exact hadd.setStage hself nofun (fun hrec => absurd (h.not_recycled r res.tid _ hself hrec)
      nofun) fun _ => hins.mem_iff.mpr (.inl rfl)
  unfold Process.allocTrapCx
  rcases Vmas.insertVma_of_free L.userSpaceEnd frames Layout.trap_start_lt hfree nofun with
    heq | ⟨heq, hframes⟩
  · rw [Layout.trapVma] at heq hlive
    simp only [heq]
    exact .inl ⟨rfl, hlive⟩
  · rw [Layout.trapVma] at heq
    simp only [heq]
    exact .inr ⟨nofun, hframes, h⟩

/-- The mapping section succeeds unless a frame is missing. -/
theorem allocFor (h : ProcInv L N holders p) (res : TaskUserRes) (stackFrames trapFrames : Bool)
    (hfit : L.Fits N) (hr : holders r = some (res.tid, .allocating mode)) (hmode : mode ≠ .none)
    (hbase : res.ustackBase = L.userStackBase) :
    Mapped L N holders r res.tid (stackFrames && trapFrames)
      (p.allocFor L r res mode stackFrames trapFrames) := by
  have htid := h.tid_lt_threads hr
  have htrap := h.free_slot hfit hr (.inl rfl)
  have hstack := h.free_slot hfit hr (.inr rfl)
  -- From here on the task may own areas; whether it is live is decided at the end.
  have hfailed : ProcInv L N (update holders r (some (res.tid, .failed))) p :=
    h.setStage hr nofun (fun hmem => absurd (h.not_recycled r res.tid _ hr hmem) nofun) nofun
  have hself : update holders r (some (res.tid, Stage.failed)) r = some (res.tid, .failed) :=
    update_self ..
  cases mode with
  | none => exact absurd rfl hmode
  | trapOnly =>
    refine (hfailed.allocTrapCx trapFrames htrap).imp_right fun hout => ⟨hout.1, ?_, hout.2.2⟩
    rw [hout.2.1, Bool.and_false]
  | full =>
    have hpos : (L.stackVma res.tid).start < (L.stackVma res.tid).stop := hfit.stack_start_lt
    have hins : Vmas.Inserted p.vmas (L.stackVma res.tid) (p.vmas.put (L.stackVma res.tid)) :=
      ⟨hpos, hstack, rfl⟩
    have hadd := hfailed.addVma hself nofun (.inr rfl) hins
    have hroom : (p.vmas.put (L.stackVma res.tid)).Free (L.trapVma res.tid).start
        (L.trapVma res.tid).stop := by
      intro vma hmem
      rcases hins.mem_iff.mp hmem with rfl | hmem
      · exact .inl (hfit.stack_le_trap htid htid)
      · exact htrap vma hmem
    have hend : (L.stackVma res.tid).stop ≤ L.userSpaceEnd := by
      have hle := hfit.stack_le_trap htid htid
      have hlt := hfit.trap
      have htrap : (L.trapVma res.tid).start ≤ L.trapContextBase := Nat.sub_le _ _
      omega
    -- The stack is mapped, or its frames are missing.
    have hfirst : (if res.tid = 0 then insertVmaEager p.vmas (L.stackVma res.tid) stackFrames
        else insertVma L.userSpaceEnd p.vmas (L.stackVma res.tid) stackFrames) = .ok
        (p.vmas.put (L.stackVma res.tid)) ∨ (if res.tid = 0 then insertVmaEager p.vmas
        (L.stackVma res.tid) stackFrames else insertVma L.userSpaceEnd p.vmas (L.stackVma
        res.tid) stackFrames) = .error .outOfMemory ∧ stackFrames = false := by
      split
      · exact insertVmaEager_of_free stackFrames hpos hstack
      · exact insertVma_of_free L.userSpaceEnd stackFrames hpos hstack fun _ => hend
    simp only [allocFor, allocUserRes, hbase]
    rcases hfirst with heq | ⟨heq, hframes⟩
    · rw [Layout.stackVma] at heq hadd hroom
      simp only [heq]
      refine (hadd.allocTrapCx trapFrames hroom).imp_right fun hout => ⟨hout.1, ?_, hout.2.2⟩
      rw [hout.2.1, Bool.and_false]
    · rw [Layout.stackVma] at heq
      simp only [heq]
      exact .inr ⟨nofun, by rw [hframes, Bool.false_and], hfailed⟩

/-! ## Unmapping -/

/-- The areas of a task are the ones on the pages mapped for it. -/
theorem isSlot_iff (h : ProcInv L N holders p) (hfit : L.Fits N) (hr : holders r = some (tid, stage))
    (hmem : vma ∈ p.vmas) (hin : vma.Contains vpn) : IsSlot L tid vma ↔ p.madeFor vpn = some r := by
  constructor
  · intro hslot
    exact (h.at_slot hfit hr hslot hmem hin hin).2.made vpn hin
  intro hmade
  obtain ⟨vma', hmem', hin', hspecial⟩ := h.made vpn r hmade
  obtain rfl := eq_of_contains hmem hmem' hin hin'
  obtain ⟨r', ⟨tid', stage', hr', -, hslot⟩, hmade'⟩ := h.owned vma hmem hspecial
  rw [hmade' vpn hin] at hmade
  cases hmade
  rw [hr] at hr'
  cases hr'
  exact hslot

section

variable (h : ProcInv L N holders p) (hfit : L.Fits N) (hr : holders r = some (res.tid, stage))
  (hbase : res.ustackBase = L.userStackBase)

include h hfit hr hbase

/-- `dealloc_user_res` finds by their first pages the areas of the task, and no others. -/
theorem mem_deallocUserRes :
    vma ∈ (p.deallocUserRes L res).vmas ↔ vma ∈ p.vmas ∧ ¬ IsSlot L res.tid vma := by
  have hslots : ∀ slot : Vma, IsSlot L res.tid slot → vma ∈ p.vmas → vma.start = slot.start →
      IsSlot L res.tid vma := by
    intro slot hslot hmem heq
    have hpos := start_lt_stop hmem
    have hin : vma.Contains vma.start := ⟨Nat.le_refl _, hpos⟩
    have hin' : slot.Contains vma.start := ⟨Nat.le_of_eq heq.symm, heq ▸ hslot.nonempty hfit⟩
    rwa [(h.at_slot hfit hr hslot hmem hin hin').1]
  simp only [deallocUserRes, setVmas, AreaMap.mem_remove, hbase]
  constructor
  · rintro ⟨⟨hmem, hstack⟩, htrap⟩
    refine ⟨hmem, ?_⟩
    rintro (rfl | rfl)
    · exact htrap rfl
    · exact hstack rfl
  · rintro ⟨hmem, hnot⟩
    refine ⟨⟨hmem, fun heq => hnot ?_⟩, fun heq => hnot ?_⟩
    · exact hslots (L.stackVma res.tid) (.inr rfl) hmem heq
    · exact hslots (L.trapVma res.tid) (.inl rfl) hmem heq

/-- A drop removes exactly the pages that were mapped for the task. -/
theorem infoAt_deallocUserRes : (p.deallocUserRes L res).vmas.infoAt vpn =
      if p.madeFor vpn = some r then none else p.vmas.infoAt vpn := by
  have hmem_iff : ∀ vma : Vma, vma ∈ (p.deallocUserRes L res).vmas ↔
      vma ∈ p.vmas ∧ ¬ IsSlot L res.tid vma := fun _ => h.mem_deallocUserRes hfit hr hbase
  by_cases hmapped : ∃ vma, vma ∈ p.vmas ∧ vma.Contains vpn
  · obtain ⟨vma, hmem, hin⟩ := hmapped
    have hiff := h.isSlot_iff hfit hr hmem hin
    split
    next hmade =>
      refine view_eq_none_iff.mpr fun vma' hmem' hin' => ?_
      obtain ⟨hold, hnot⟩ := (hmem_iff vma').mp hmem'
      obtain rfl := eq_of_contains hmem hold hin hin'
      exact hnot (hiff.mpr hmade)
    next hmade =>
      have hstays := (hmem_iff vma).mpr ⟨hmem, fun hslot => hmade (hiff.mp hslot)⟩
      rw [infoAt_of_mem hstays hin, infoAt_of_mem hmem hin]
  · have hnone : p.vmas.infoAt vpn = none :=
      view_eq_none_iff.mpr fun vma hmem hin => hmapped ⟨vma, hmem, hin⟩
    rw [hnone, ite_self]
    exact view_eq_none_iff.mpr fun vma hmem hin => hmapped ⟨vma, ((hmem_iff vma).mp hmem).1, hin⟩

end

theorem madeFor_setVmas_of_mem (hmem : vma ∈ vmas) (hin : vma.Contains vpn) :
    (p.setVmas vmas).madeFor vpn = p.madeFor vpn := by
  simp [setVmas, infoAt_of_mem hmem hin]

theorem madeFor_of_setVmas (h : (p.setVmas vmas).madeFor vpn = some r) :
    p.madeFor vpn = some r ∧ ∃ vma, vma ∈ vmas ∧ vma.Contains vpn := by
  simp only [setVmas] at h
  split at h
  next hsome =>
    obtain ⟨info, hinfo⟩ := Option.isSome_iff_exists.mp hsome
    obtain ⟨vma, hmem, hin, -⟩ := view_eq_some_iff.mp hinfo
    exact ⟨h, vma, hmem, hin⟩
  · cases h

/-- A thread gives back its stack and its trap context. -/
theorem deallocUserRes (h : ProcInv L N holders p) (hfit : L.Fits N)
    (hr : holders r = some (res.tid, stage)) (hbase : res.ustackBase = L.userStackBase) :
    ProcInv L N (update holders r none) (p.deallocUserRes L res) := by
  have hmem_iff : ∀ vma : Vma, vma ∈ (p.deallocUserRes L res).vmas ↔
      vma ∈ p.vmas ∧ ¬ IsSlot L res.tid vma := fun _ => h.mem_deallocUserRes hfit hr hbase
  have hold : ∀ r₁ x, update holders r none r₁ = some x → r₁ ≠ r ∧ holders r₁ = some x := by
    intro r₁ x h₁
    by_cases hr₁ : r₁ = r
    · rw [hr₁, update_self] at h₁
      cases h₁
    · rw [update_of_ne hr₁] at h₁
      exact ⟨hr₁, h₁⟩
  refine { h with tid_lt := ?_, not_recycled := ?_, distinct := ?_, owned := ?_, made := ?_, live := ?_ }
  · exact fun r₁ tid₁ stage₁ h₁ => h.tid_lt r₁ tid₁ stage₁ (hold r₁ _ h₁).2
  · exact fun r₁ tid₁ stage₁ h₁ => h.not_recycled r₁ tid₁ stage₁ (hold r₁ _ h₁).2
  · exact fun r₁ r₂ tid₁ stage₁ stage₂ h₁ h₂ =>
      h.distinct r₁ r₂ tid₁ stage₁ stage₂ (hold r₁ _ h₁).2 (hold r₂ _ h₂).2
  · intro vma hmem hspecial
    obtain ⟨hmem₀, hnot⟩ := (hmem_iff vma).mp hmem
    obtain ⟨r₁, ⟨tid₁, stage₁, hr₁, hmapped, hslot⟩, hmade⟩ := h.owned vma hmem₀ hspecial
    have hne : r₁ ≠ r := by
      rintro rfl
      rw [hr] at hr₁
      cases hr₁
      exact hnot hslot
    refine ⟨r₁, ⟨tid₁, stage₁, by rw [update_of_ne hne, hr₁], hmapped, hslot⟩, ?_⟩
    intro vpn hin
    exact (madeFor_setVmas_of_mem hmem hin).trans (hmade vpn hin)
  · intro vpn r₁ hmade
    obtain ⟨hmade, vma, hmem, hin⟩ := madeFor_of_setVmas hmade
    obtain ⟨vma', hmem', hin', hspecial⟩ := h.made vpn r₁ hmade
    obtain rfl := eq_of_contains ((hmem_iff vma).mp hmem).1 hmem' hin hin'
    exact ⟨vma, hmem, hin, hspecial⟩
  · intro r₁ tid₁ h₁
    obtain ⟨hne, h₁⟩ := hold r₁ _ h₁
    refine (hmem_iff _).mpr ⟨h.live r₁ tid₁ h₁, fun hslot => hne ?_⟩
    -- A slot of both tasks would give them one number.
    have hin : (L.trapVma tid₁).Contains (L.trapVma tid₁).start := ⟨Nat.le_refl _, Layout.trap_start_lt⟩
    obtain ⟨heq, -⟩ := IsSlot.eq_of_contains hfit (h.tid_lt_threads h₁) (h.tid_lt_threads hr)
      (.inl rfl) hslot hin hin
    subst heq
    exact h.distinct r₁ r res.tid _ _ h₁ hr

/-! ## The user -/

/-- The threads' areas are where they were. -/
theorem userEdit (h : ProcInv L N holders p) (hedit : UserEdit L N p.vmas vmas) :
    ProcInv L N holders (p.setVmas vmas) := by
  -- A thread's area stays.
  have hstays : ∀ vma, vma ∈ p.vmas → Special L N vma → vma ∈ vmas := by
    intro vma hmem hspecial
    obtain ⟨r, ⟨tid, stage, hr, -, hslot⟩, -⟩ := h.owned vma hmem hspecial
    exact hedit.keeps vma hmem (h.alone hmem hslot.kernelMade) hslot.kernelMade
      fun vpn => hslot.reserved (h.tid_lt_threads hr)
  -- And every thread's area that is there was there.
  have hwas : ∀ vma, vma ∈ vmas → Special L N vma → vma ∈ p.vmas := by
    intro vma hmem hspecial
    obtain ⟨vpn, hin, hold⟩ : ∃ vpn, vma.Contains vpn ∧ ∃ vma', vma' ∈ p.vmas ∧ vma'.Contains vpn ∧
        Special L N vma' := by
      rcases hspecial with hkind | ⟨vpn, hin, hres⟩
      · have hin : vma.Contains vma.start := ⟨Nat.le_refl _, start_lt_stop hmem⟩
        have hinfo := hedit.kinds vma.start _ (infoAt_of_mem hmem hin) hkind
        obtain ⟨vma', hmem', hin', heq⟩ := view_eq_some_iff.mp hinfo
        refine ⟨vma.start, hin, vma', hmem', hin', .inl ?_⟩
        have hsame := congrArg VmaInfo.kind heq
        rw [Vma.infoOn_kind, Vma.infoOn_kind] at hsame
        rwa [hsame]
      · have hinfo := hedit.same vpn hres
        rw [infoAt_of_mem hmem hin] at hinfo
        obtain ⟨vma', hmem', hin', -⟩ := view_eq_some_iff.mp hinfo.symm
        exact ⟨vpn, hin, vma', hmem', hin', .inr ⟨vpn, hin', hres⟩⟩
    obtain ⟨vma', hmem', hin', hspecial'⟩ := hold
    rwa [eq_of_contains hmem (hstays vma' hmem' hspecial') hin hin']
  refine { h with owned := ?_, made := ?_, live := ?_ }
  · intro vma hmem hspecial
    obtain ⟨r, hholder, hmade⟩ := h.owned vma (hwas vma hmem hspecial) hspecial
    exact ⟨r, hholder, fun vpn hin => (madeFor_setVmas_of_mem hmem hin).trans (hmade vpn hin)⟩
  · intro vpn r hmade
    obtain ⟨vma, hmem, hin, hspecial⟩ := h.made vpn r (madeFor_of_setVmas hmade).1
    exact ⟨vma, hstays vma hmem hspecial, hin, hspecial⟩
  · intro r tid hr
    exact hstays _ (h.live r tid hr) (.inl ⟨tid, .inl rfl⟩)

/-! ## The first task and fork -/

/-- The first process, before its first task has its areas. -/
theorem image {image : Image} (hN : 0 < N)
    (hoff : ∀ vma ∈ image.vmas.areas, L.OffReserved N vma.start vma.stop) :
    ProcInv L N (update (fun _ => none) 0 (some (0, .allocating .full))) image.process := by
  have hold : ∀ r₁ tid₁ stage₁,
      update (fun _ => none : Holders) 0 (some (0, .allocating .full)) r₁ =
        some (tid₁, stage₁) → r₁ = 0 ∧ tid₁ = 0 ∧ stage₁ = .allocating .full := by
    intro r₁ tid₁ stage₁ h₁
    rcases holders_update h₁ with h | h₁
    · exact h
    · cases h₁
  constructor
  · exact nodup_nil
  · exact nofun
  · exact hN
  · intro r₁ tid₁ stage₁ h₁
    obtain ⟨-, rfl, -⟩ := hold r₁ tid₁ stage₁ h₁
    exact Nat.zero_lt_one
  · exact fun _ _ _ _ => nofun
  · intro r₁ r₂ tid₁ stage₁ stage₂ h₁ h₂
    exact (hold r₁ tid₁ stage₁ h₁).1.trans (hold r₂ tid₁ stage₂ h₂).1.symm
  · rintro vma hmem (⟨tid, hkind⟩ | ⟨vpn, hin, hres⟩)
    · have hnot := image.noThreads vma hmem tid
      exact absurd hkind (not_or.mpr hnot)
    · exact absurd hres ((hoff vma hmem).not_reserved hin.1 hin.2)
  · exact fun _ _ => nofun
  · intro r₁ tid₁ h₁
    cases (hold r₁ tid₁ .live h₁).2.2

/-- The child of a process whose only task is its first one. -/
theorem forked (h : ProcInv L N holders p) (hr : holders r = some (0, .live))
    (honly : ∀ r', holders r' ≠ none → r' = r) (child : ResId) :
    ProcInv L N (update (fun _ => none) child (some (0, .live))) (p.forked child) := by
  have hold : ∀ r₁ tid₁ stage₁,
      update (fun _ => none : Holders) child (some (0, .live)) r₁ = some (tid₁, stage₁) →
      r₁ = child ∧ tid₁ = 0 := by
    intro r₁ tid₁ stage₁ h₁
    rcases holders_update h₁ with ⟨rfl, rfl, -⟩ | h₁
    · exact ⟨rfl, rfl⟩
    · cases h₁
  have hfirst : ∀ vma, vma ∈ p.vmas → Special L N vma → IsSlot L 0 vma := by
    intro vma hmem hspecial
    obtain ⟨r₁, ⟨tid₁, stage₁, hr₁, -, hslot⟩, -⟩ := h.owned vma hmem hspecial
    obtain rfl := honly r₁ (hr₁ ▸ nofun)
    rw [hr] at hr₁
    cases hr₁
    exact hslot
  constructor
  · exact nodup_nil
  · exact nofun
  · exact h.tid_lt_threads hr
  · intro r₁ tid₁ stage₁ h₁
    obtain ⟨-, rfl⟩ := hold r₁ tid₁ stage₁ h₁
    exact Nat.zero_lt_one
  · exact fun _ _ _ _ => nofun
  · intro r₁ r₂ tid₁ stage₁ stage₂ h₁ h₂
    exact (hold r₁ tid₁ stage₁ h₁).1.trans (hold r₂ tid₁ stage₂ h₂).1.symm
  · intro vma hmem hspecial
    have hslot := hfirst vma hmem hspecial
    refine ⟨child, ⟨0, .live, update_self .., nofun, hslot⟩, fun vpn hin => ?_⟩
    have hinfo : p.vmas.infoAt vpn = _ := infoAt_of_mem hmem hin
    simp only [Process.forked, hinfo]
    refine if_pos ?_
    rcases hslot with rfl | rfl
    · exact .inl rfl
    · exact .inr rfl
  · intro vpn r₁ hmade
    simp only [Process.forked] at hmade
    split at hmade
    next info hinfo =>
      split at hmade
      next hkind =>
        obtain ⟨vma, hmem, hin, rfl⟩ := view_eq_some_iff.mp hinfo
        exact ⟨vma, hmem, hin, .inl ⟨0, hkind⟩⟩
      · cases hmade
    · cases hmade
  · intro r₁ tid₁ h₁
    obtain ⟨-, rfl⟩ := hold r₁ tid₁ .live h₁
    exact h.live r 0 hr

end ProcInv

end CosmOS.Task
