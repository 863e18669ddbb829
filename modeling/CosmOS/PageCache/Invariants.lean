import CosmOS.PageCache.Sections

/-!
# PageCache.Invariants — who may touch a page

Three invariants of every run that is `Sound`, and their conjunction `Inv` with the room a write has
made.

* `Places`: the index and the page objects agree, whatever a thread has in its hands is in the index
  and is not being evicted, and a page that is being evicted is clean and unmapped.
* `Claims`: one loader and one writeback at a time for a page.
* `Flags`: a page that is being loaded holds no data yet, a dirty page does, and the set of the
  dirty pages has every dirty page of the index.
-/

namespace CosmOS.PageCache

open Function List WritebackPage FlushCaller

variable {s s' s₁ : State} {e : Env} {t u : ThreadId} {p p' : Pc} {o : ObjId} {q : CachePage}
  {n n' : ℕ}

/-! ## Updates -/

@[simp]
theorem goto_pc_self : (s.goto t p).pc t = p := update_self ..

theorem goto_pc_of_ne (h : u ≠ t) : (s.goto t p).pc u = s.pc u := update_of_ne h ..

@[simp]
theorem setObj_obj_self : (s.setObj o q).obj o = q := update_self ..

theorem setObj_obj_of_ne {o' : ObjId} (h : o' ≠ o) : (s.setObj o q).obj o' = s.obj o' :=
  update_of_ne h ..

/-- What holds of every thread and of the new position holds after the move. -/
theorem forall_goto {P : ThreadId → Pc → Prop} (hself : P t p) (h : ∀ u, u ≠ t → P u (s.pc u)) :
    ∀ u, P u ((s.goto t p).pc u) := by
  intro u
  rcases eq_or_ne u t with rfl | hu
  · rwa [goto_pc_self]
  · rw [goto_pc_of_ne hu]
    exact h u hu

/-- The two ways an object comes out of an update of one. -/
theorem setObj_cases {P : ObjId → CachePage → Prop} (hself : P o q)
    (h : ∀ o', o' ≠ o → P o' (s.obj o')) : ∀ o', P o' ((s.setObj o q).obj o') := by
  intro o'
  rcases eq_or_ne o' o with rfl | ho
  · rwa [setObj_obj_self]
  · rw [setObj_obj_of_ne ho]
    exact h o' ho

/-- A field that the update of an object keeps is kept for all objects. -/
theorem setObj_field {γ : Type*} (f : CachePage → γ) (hf : f q = f (s.obj o)) :
    ∀ o', f ((s.setObj o q).obj o') = f (s.obj o') :=
  setObj_cases (P := fun o' q' => f q' = f (s.obj o')) hf fun _ _ => rfl

theorem storeWrite_obj (s : State) (o : ObjId) (m : ℕ) (w : WriteCall) :
    (s.storeWrite o m w).obj = update s.obj o
      ((s.obj o).store w.pageOff w.writable w.src w.oldSize m).markDirty := by
  show update (s.setObj o _).obj o (((s.setObj o _).obj o).markDirty) = _
  rw [setObj_obj_self]
  exact update_idem ..

/-- The same for a step that updates one object among other things. -/
theorem obj_field {γ : Type*} (hobj : s₁.obj = update s.obj o q) (f : CachePage → γ)
    (hf : f q = f (s.obj o)) (o' : ObjId) : f (s₁.obj o') = f (s.obj o') := by
  rw [hobj]
  exact setObj_field f hf o'

section Exclusive

variable {f : Pc → List ObjId} {g : CachePage → Bool}

section

variable (h : Exclusive (fun t => f (s.pc t)) fun o => g (s.obj o))
include h

/-- A thread moves with the pages it claims, and no flag of a claimed page changes. -/
theorem claims_keep (hpc : s₁.pc = s.pc) (hself : (f p').Perm (f (s.pc t)))
    (hflag : ∀ u o, o ∈ f (s.pc u) → g (s₁.obj o) = g (s.obj o)) :
    Exclusive (fun u => f ((s₁.goto t p').pc u)) fun o => g (s₁.obj o) :=
  h.keep (fun _ hu => by rw [goto_pc_of_ne hu, hpc]) (by rwa [goto_pc_self]) hflag

/-- A thread claims a page and sets its flag. -/
theorem claims_take (hfree : g (s.obj o) = false) (hself : (f p').Perm (o :: f (s.pc t))) (hset : g q = true) :
    Exclusive (fun u => f (((s.setObj o q).goto t p').pc u)) fun o' => g ((s.setObj o q).obj o') := by
  refine h.take hfree (fun u hu => ?_) (by rwa [goto_pc_self]) (by rwa [setObj_obj_self]) fun o' ho' => ?_
  · rw [goto_pc_of_ne hu]
    rfl
  · rw [setObj_obj_of_ne ho']

/-- A thread gives a page up, whatever becomes of its flag. -/
theorem claims_leave (hpc : s₁.pc = s.pc)
    (hobj : s₁.obj = update s.obj o q) (hself : (f (s.pc t)).Perm (o :: f p')) :
    Exclusive (fun u => f ((s₁.goto t p').pc u)) fun o => g (s₁.obj o) := by
  refine h.leave (fun u hu => ?_) (by rwa [goto_pc_self]) fun o' ho' => ?_
  · rw [goto_pc_of_ne hu, hpc]
  · rw [hobj, update_of_ne ho']

end

end Exclusive

theorem Effect.pc_eq (h : Effect s e p p' s₁) : s₁.pc = s.pc := by
  cases h <;> rfl

/-! ## Places -/

/-- A fact that says nothing about where a page is. -/
def Fact.Plain : Fact → Prop
  | .decide _ | .restore _ => False
  | _ => True

variable {g : Fact} {src : ℕ → UInt8}

theorem Notices.plain (h : Notices s p g) : g.Plain := by
  cases h <;> trivial

theorem Transfers.plain {obj : ObjId → CachePage} (h : Transfers s e p obj g) : g.Plain := by
  cases h
  trivial

theorem Delivers.plain {f : File} (h : Delivers s p f g) : g.Plain := by
  cases h <;> trivial

structure Places (s : State) : Prop where
  index : ∀ i o, s.pages i = some o → (s.obj o).index = i ∧ o < s.made
  home : ∀ o, o < s.made → (s.obj o).evicting = false → s.pages (s.obj o).index = some o
  held : ∀ t, ∀ c ∈ (s.pc t).held, s.pages c.1 = some c.2 ∧ (s.obj c.2).evicting = false
  evicts : Exclusive (fun t => (s.pc t).evicts) fun o => (s.obj o).evicting
  evicted : ∀ t, ∀ o ∈ (s.pc t).evicts,
    s.pages (s.obj o).index = some o ∧ (s.obj o).dirty = false ∧ (s.obj o).mapCount = 0
  mapped : ∀ o, 0 < (s.obj o).mapCount → o < s.made ∧ (s.obj o).evicting = false
  decides : ∀ t o, Fact.decide o ∈ (s.pc t).facts → o < s.made
  restores : ∀ t o, Fact.restore o ∉ (s.pc t).facts

namespace Places

theorem held_index (h : Places s) {c : ℕ × ObjId} (hc : c ∈ (s.pc t).held) :
    (s.obj c.2).index = c.1 ∧ c.2 < s.made :=
  h.index c.1 c.2 (h.held t c hc).1

theorem boot (f : File) : Places (boot f) where
  index := fun _ _ h => by simp [PageCache.boot] at h
  home := fun _ h => absurd h (Nat.not_lt_zero _)
  held := nofun
  evicts := .of_nil fun _ => rfl
  evicted := nofun
  mapped := fun _ h => absurd h (lt_irrefl 0)
  decides := nofun
  restores := nofun

section

variable (h : Places s)
include h

/-- The objects change, but not what the invariant reads of them. -/
theorem frame (hpages : s₁.pages = s.pages) (hmade : s₁.made = s.made) (hpc : s₁.pc = s.pc)
    (hindex : ∀ o, (s₁.obj o).index = (s.obj o).index)
    (hevicting : ∀ o, (s₁.obj o).evicting = (s.obj o).evicting)
    (hclean : ∀ o, (s.obj o).evicting = true →
      (s₁.obj o).dirty = (s.obj o).dirty ∧ (s₁.obj o).mapCount = (s.obj o).mapCount)
    (hmapped : ∀ o, 0 < (s₁.obj o).mapCount →
      0 < (s.obj o).mapCount ∨ o < s.made ∧ (s.obj o).evicting = false) : Places s₁ where
  index := fun i o ho => by
    rw [hindex, hmade]
    exact h.index i o (hpages ▸ ho)
  home := fun o ho hev => by
    rw [hpages, hindex]
    exact h.home o (hmade ▸ ho) (hevicting o ▸ hev)
  held := fun t c hc => by
    rw [hpages, hevicting]
    exact h.held t c (hpc ▸ hc)
  evicts := by
    have hflag : (fun o => (s₁.obj o).evicting) = fun o => (s.obj o).evicting := funext hevicting
    rw [hpc, hflag]
    exact h.evicts
  evicted := fun t o ho => by
    rw [hpc] at ho
    obtain ⟨hd, hm⟩ := hclean o (h.evicts.flagged t o ho)
    rw [hpages, hindex, hd, hm]
    exact h.evicted t o ho
  mapped := fun o ho => by
    rw [hmade, hevicting]
    exact (hmapped o ho).elim (h.mapped o) id
  decides := fun t o ho => by
    rw [hmade]
    exact h.decides t o (hpc ▸ ho)
  restores := fun t o ho => h.restores t o (hpc ▸ ho)

theorem setObj (hindex : q.index = (s.obj o).index) (hevicting : q.evicting = (s.obj o).evicting)
    (hclean : (s.obj o).evicting = true → q.dirty = (s.obj o).dirty ∧
      q.mapCount = (s.obj o).mapCount)
    (hmapped : 0 < q.mapCount → 0 < (s.obj o).mapCount ∨ o < s.made ∧ (s.obj o).evicting = false) :
    Places (s.setObj o q) :=
  h.frame rfl rfl rfl (setObj_field CachePage.index hindex)
    (setObj_field CachePage.evicting hevicting)
    (setObj_cases (P := fun o q => (s.obj o).evicting = true → q.dirty = (s.obj o).dirty ∧
      q.mapCount = (s.obj o).mapCount) hclean fun _ _ _ => ⟨rfl, rfl⟩)
    (setObj_cases (P := fun o q => 0 < q.mapCount → 0 < (s.obj o).mapCount ∨ o < s.made ∧ (s.obj
      o).evicting = false) hmapped fun _ _ => .inl)

/-- A page in the hands of a thread may change in any way that keeps its place. -/
theorem setHeld {c : ℕ × ObjId} (hc : c ∈ (s.pc t).held)
    (hindex : q.index = (s.obj c.2).index) (hevicting : q.evicting = (s.obj c.2).evicting) :
    Places (s.setObj c.2 q) := by
  have hev := (h.held t c hc).2
  refine h.setObj hindex hevicting (fun htrue => ?_) fun _ => .inr ⟨(h.held_index hc).2, hev⟩
  rw [hev] at htrue
  cases htrue

/-- The invariant reads the objects, the index and the positions only. -/
theorem congr (hobj : s₁.obj = s.obj) (hpages : s₁.pages = s.pages)
    (hmade : s₁.made = s.made) (hpc : s₁.pc = s.pc) : Places s₁ :=
  h.frame hpages hmade hpc (fun _ => hobj ▸ rfl) (fun _ => hobj ▸ rfl)
    (fun _ _ => hobj ▸ ⟨rfl, rfl⟩) fun _ ho => .inl (hobj ▸ ho)

theorem markPageDirty {c : ℕ × ObjId} (hc : c ∈ (s.pc t).held) : Places (s.markPageDirty c.2) :=
  (h.setHeld hc (CachePage.markDirty_index _) (CachePage.markDirty_evicting _)).congr rfl rfl rfl rfl

variable {found : List (ℕ × ObjId)} {learnt : List Fact}

/-- A move that learns plain facts keeps what the others say. -/
theorem facts_goto {loads flushes evicts : List ObjId}
    (hm : (s.pc t).Moves p' found loads flushes evicts learnt n n') (hlearnt : ∀ g ∈ learnt, g.Plain) :
    (∀ u o, Fact.decide o ∈ ((s.goto t p').pc u).facts → o < s.made) ∧
      ∀ u o, Fact.restore o ∉ ((s.goto t p').pc u).facts := by
  have hold : ∀ g ∈ p'.facts, ¬ g.Plain → g ∈ (s.pc t).facts := fun g hg hne =>
    (hm.facts g hg).resolve_left fun hl => hne (hlearnt g hl)
  constructor
  · exact forall_goto (P := fun _ p => ∀ o, Fact.decide o ∈ p.facts → o < s.made)
      (fun o ho => h.decides t o (hold _ ho id)) fun u _ => h.decides u
  · exact forall_goto (P := fun _ p => ∀ o, Fact.restore o ∉ p.facts)
      (fun o ho => h.restores t o (hold _ ho id)) fun u _ => h.restores u

/-- A thread moves and finds pages of the index that nobody evicts. -/
theorem goto {loads flushes : List ObjId} (hm : (s.pc t).Moves p' found loads flushes (s.pc t).evicts learnt n n')
    (hlearnt : ∀ g ∈ learnt, g.Plain)
    (hfound : ∀ c ∈ found, s.pages c.1 = some c.2 ∧ (s.obj c.2).evicting = false) :
    Places (s.goto t p') where
  __ := h
  held := forall_goto (P := fun _ p => ∀ c ∈ p.held, s.pages c.1 = some c.2 ∧ (s.obj c.2).evicting =
      false) (fun c hc => (hm.held c hc).elim (hfound c) (h.held t c)) fun u _ => h.held u
  evicts := claims_keep h.evicts rfl (.of_eq hm.evicts) fun _ _ _ => rfl
  evicted := forall_goto (P := fun _ p => ∀ o ∈ p.evicts, s.pages (s.obj o).index = some o ∧ (s.obj
      o).dirty = false ∧ (s.obj o).mapCount = 0) (hm.evicts ▸ h.evicted t) fun u _ => h.evicted u
  decides := (h.facts_goto hm hlearnt).1
  restores := (h.facts_goto hm hlearnt).2

theorem keeps (hk : (s.pc t).Keeps p' n n') : Places (s.goto t p') :=
  h.goto hk nofun nofun

theorem addPage {i ppn : ℕ} (hpage : s.pages i = none) : Places (s.addPage i ppn) := by
  have hobj : ∀ o, o < s.made → (s.addPage i ppn).obj o = s.obj o :=
    fun o ho => update_of_ne (ne_of_lt ho) ..
  have hnew : (s.addPage i ppn).obj s.made = CachePage.new i ppn := update_self ..
  have hpages : ∀ j o, s.pages j = some o → (s.addPage i ppn).pages j = some o := by
    intro j o hj
    refine (update_of_ne ?_ ..).trans hj
    rintro rfl
    simp [hpage] at hj
  refine ⟨fun j o hj => ?_, fun o ho hev => ?_, fun u c hc => ?_, ?_, fun u o ho => ?_, fun o ho => ?_,
    fun u o ho => Nat.lt_succ_of_lt (h.decides u o ho), h.restores⟩
  · rcases eq_or_ne j i with rfl | hji
    · obtain rfl : s.made = o := Option.some.inj ((update_self (f := s.pages) ..).symm.trans hj)
      rw [hnew]
      exact ⟨rfl, Nat.lt_succ_self _⟩
    · have hj' : s.pages j = some o := (update_of_ne hji ..).symm.trans hj
      obtain ⟨hidx, hlt⟩ := h.index j o hj'
      rw [hobj o hlt]
      exact ⟨hidx, Nat.lt_succ_of_lt hlt⟩
  · rcases Nat.lt_succ_iff_lt_or_eq.mp ho with hlt | rfl
    · rw [hobj o hlt] at hev ⊢
      exact hpages _ o (h.home o hlt hev)
    · rw [hnew]
      exact update_self ..
  · obtain ⟨hc1, hev⟩ := h.held u c hc
    rw [hobj c.2 (h.held_index hc).2]
    exact ⟨hpages _ _ hc1, hev⟩
  · refine h.evicts.keep (t := 0) (fun _ _ => rfl) (.refl _) fun u o ho => ?_
    rw [hobj o (h.index _ o (h.evicted u o ho).1).2]
  · rw [hobj o (h.index _ o (h.evicted u o ho).1).2]
    exact ⟨hpages _ o (h.evicted u o ho).1, (h.evicted u o ho).2⟩
  · by_cases hom : o = s.made
    · rw [hom, hnew] at ho
      exact absurd ho (lt_irrefl 0)
    · have heq : (s.addPage i ppn).obj o = s.obj o := update_of_ne hom ..
      rw [heq] at ho ⊢
      exact ⟨Nat.lt_succ_of_lt (h.mapped o ho).1, (h.mapped o ho).2⟩

theorem mark (hp : s.pc t = .reclaimDecide o) (hev : (s.obj o).evictable = true)
    (hfree : ∀ u, ∀ c ∈ (s.pc u).held, c.2 ≠ o)
    (hm : (s.pc t).Moves p' [] (s.pc t).loads (s.pc t).flushes [o] [] n n') :
    Places ((s.setObj o { s.obj o with evicting := true }).goto t p') := by
  simp only [CachePage.evictable, CachePage.busy, Bool.and_eq_true, Bool.not_eq_true',
    Bool.or_eq_false_iff, decide_eq_false_iff_not, Nat.pos_iff_ne_zero, not_not] at hev
  obtain ⟨⟨⟨⟨⟨⟨_, hmap⟩, _⟩, _⟩, hevicting⟩, _⟩, hdirty⟩ := hev
  have hmade : o < s.made := h.decides t o (hp ▸ .head _)
  have hpage := h.home o hmade hevicting
  have hindex : ∀ o', ((s.setObj o { s.obj o with evicting := true }).obj o').index =
      (s.obj o').index := setObj_field CachePage.index rfl
  have hnone : (s.pc t).evicts = [] := by rw [hp]; rfl
  obtain ⟨hrange, hfacts⟩ := h.facts_goto hm fun _ hg => absurd hg not_mem_nil
  refine ⟨fun i o' ho' => ?_, ?_, ?_, ?_, ?_, ?_, hrange, hfacts⟩
  · exact ⟨(hindex o').trans (h.index i o' ho').1, (h.index i o' ho').2⟩
  · refine setObj_cases (P := fun o' q => o' < s.made → q.evicting = false →
      s.pages q.index = some o') (by rintro _ ⟨⟩) fun o' _ => h.home o'
  · refine forall_goto (P := fun _ p => ∀ c ∈ p.held, s.pages c.1 = some c.2 ∧
      ((s.setObj o { s.obj o with evicting := true }).obj c.2).evicting = false)
      (fun c hc => ?_) fun u _ c hc => ?_
    · have hc' := (hm.held c hc).resolve_left not_mem_nil
      rw [setObj_obj_of_ne (hfree t c hc')]
      exact h.held t c hc'
    · rw [setObj_obj_of_ne (hfree u c hc)]
      exact h.held u c hc
  · exact claims_take h.evicts hevicting (by rw [hm.evicts, hnone]) rfl
  · refine forall_goto (P := fun _ p => ∀ o' ∈ p.evicts, s.pages ((s.setObj o
      { s.obj o with evicting := true }).obj o').index = some o' ∧ ((s.setObj o
      { s.obj o with evicting := true }).obj o').dirty = false ∧ ((s.setObj o
      { s.obj o with evicting := true }).obj o').mapCount = 0) (fun o' ho' => ?_) fun u _ o' ho' => ?_
    · rw [hm.evicts, mem_singleton] at ho'
      subst ho'
      rw [setObj_obj_self]
      exact ⟨hpage, hdirty, hmap⟩
    · rw [setObj_obj_of_ne]
      · exact h.evicted u o' ho'
      · rintro rfl
        rw [h.evicts.flagged u o' ho'] at hevicting
        cases hevicting
  · refine setObj_cases (P := fun o' q => 0 < q.mapCount → o' < s.made ∧ q.evicting = false)
      (fun hpos => ?_) fun o' _ => h.mapped o'
    rw [hmap] at hpos
    exact absurd hpos (lt_irrefl 0)

theorem remove (hp : s.pc t = .reclaimRemove o)
    (hm : (s.pc t).Moves p' [] (s.pc t).loads (s.pc t).flushes [] [] n n') :
    Places ({ s with pages := update s.pages (s.obj o).index none }.goto t p') := by
  have hown : o ∈ (s.pc t).evicts := by rw [hp]; exact .head _
  have hevicting := h.evicts.flagged t o hown
  have hpage := (h.evicted t o hown).1
  -- any other page is at another index
  have hother : ∀ i o', o' ≠ o → s.pages i = some o' →
      update s.pages (s.obj o).index none i = some o' := by
    intro i o' hne ho'
    refine (update_of_ne ?_ ..).trans ho'
    rintro rfl
    exact hne (Option.some.inj (ho'.symm.trans hpage))
  have hlive : ∀ o', (s.obj o').evicting = false → o' ≠ o := by
    rintro o' hfalse rfl
    rw [hevicting] at hfalse
    cases hfalse
  refine ⟨fun i o' ho' => ?_, fun o' ho' hev => ?_, ?_, ?_, ?_, h.mapped,
    (h.facts_goto hm nofun).1, (h.facts_goto hm nofun).2⟩
  · refine h.index i o' ?_
    rcases eq_or_ne i ((s.obj o).index) with rfl | hi
    · simp [State.goto] at ho'
    · exact (update_of_ne hi ..).symm.trans ho'
  · exact hother _ o' (hlive o' hev) (h.home o' ho' hev)
  · refine forall_goto (P := fun _ p => ∀ c ∈ p.held, update s.pages (s.obj o).index none c.1 = some
      c.2 ∧ (s.obj c.2).evicting = false) (fun c hc => ?_) fun u _ c hc => ?_
    · obtain ⟨hc1, hev⟩ := h.held t c ((hm.held c hc).resolve_left not_mem_nil)
      exact ⟨hother _ _ (hlive _ hev) hc1, hev⟩
    · obtain ⟨hc1, hev⟩ := h.held u c hc
      exact ⟨hother _ _ (hlive _ hev) hc1, hev⟩
  · refine claims_leave h.evicts rfl (update_eq_self o s.obj).symm ?_
    rw [hm.evicts, hp]
    exact .refl _
  · refine forall_goto (P := fun _ p => ∀ o' ∈ p.evicts,
      update s.pages (s.obj o).index none (s.obj o').index = some o' ∧
        (s.obj o').dirty = false ∧ (s.obj o').mapCount = 0) (fun o' ho' => ?_) fun u hu o' ho' => ?_
    · rw [hm.evicts] at ho'
      cases ho'
    · have hne : o' ≠ o := by
        rintro rfl
        exact h.evicts.not_mem_of_ne hown hu ho'
      exact ⟨hother _ o' hne (h.evicted u o' ho').1, (h.evicted u o' ho').2⟩

theorem effect (he : Effect s e (s.pc t) p' s₁) : Places (s₁.goto t p') := by
  cases he with
  | quiet learnt hl hm => exact h.goto hm (fun g hg => (hl g hg).plain) nofun
  | choose o hp hp' ho =>
    subst hp'
    refine ⟨h.index, h.home, ?_, ?_, ?_, h.mapped, ?_, ?_⟩
    · exact forall_goto (P := fun _ p => ∀ c ∈ p.held, s.pages c.1 = some c.2 ∧ (s.obj c.2).evicting
        = false) nofun fun u _ => h.held u
    · exact claims_keep h.evicts rfl (hp ▸ .refl _) fun _ _ _ => rfl
    · exact forall_goto (P := fun _ p => ∀ o ∈ p.evicts, s.pages (s.obj o).index = some o ∧ (s.obj
        o).dirty = false ∧ (s.obj o).mapCount = 0) nofun fun u _ => h.evicted u
    · refine forall_goto (P := fun _ p => ∀ o, Fact.decide o ∈ p.facts → o < s.made)
        (fun o' ho' => ?_) fun u _ => h.decides u
      obtain rfl : o' = o := Fact.decide.inj (mem_singleton.mp ho')
      exact ho
    · refine forall_goto (P := fun _ p => ∀ o, Fact.restore o ∉ p.facts) (fun o' ho' => ?_)
        fun u _ => h.restores u
      cases mem_singleton.mp ho'
  | grow n hn hk => exact keeps (h.congr rfl rfl rfl rfl) hk
  | find c hpage hev hm =>
    refine h.goto hm nofun fun c' hc' => ?_
    rcases mem_singleton.mp hc' with rfl
    exact ⟨hpage, hev⟩
  | pick o learnt ho hm =>
    refine h.goto hm (fun g hg => ?_) fun c' hc' => ?_
    · rcases ho with ⟨-, -, rfl⟩ | ⟨-, rfl⟩
      · cases hg
      · rw [mem_singleton.mp hg]
        trivial
    rcases mem_singleton.mp hc' with rfl
    rcases ho with ⟨hp, hev, -⟩ | ⟨hmapped, -⟩
    · exact ⟨h.home o (h.decides t o (hp ▸ .head _)) hev, hev⟩
    · obtain ⟨hlt, hev⟩ := h.mapped o hmapped
      exact ⟨h.home o hlt hev, hev⟩
  | make i ppn hpage hm =>
    refine goto (h.addPage hpage) hm nofun fun c' hc' => ?_
    rcases mem_singleton.mp hc' with rfl
    exact ⟨update_self .., by simp [State.addPage, CachePage.new]⟩
  | touch o b learnt hl hm =>
    exact goto (h.setObj rfl rfl (fun _ => ⟨rfl, rfl⟩) .inl) hm
      (fun g hg => by rw [(hl g hg).1]; trivial) nofun
  | beginLoad c b hc hload hup hm => exact goto (h.setHeld hc rfl rfl) hm nofun nofun
  | fill obj hobj learnt hl hfresh hm =>
    have hfield : ∀ o, (obj o).index = (s.obj o).index ∧ (obj o).evicting = (s.obj o).evicting ∧
        (obj o).dirty = (s.obj o).dirty ∧ (obj o).mapCount = (s.obj o).mapCount := by
      intro o
      rcases hobj o with ho | ⟨-, bytes, ho⟩ <;> rw [ho] <;> exact ⟨rfl, rfl, rfl, rfl⟩
    refine goto (h.frame rfl rfl rfl (fun o => (hfield o).1) (fun o => (hfield o).2.1) (fun o _ =>
      (hfield o).2.2) fun o ho => .inl ?_) hm (fun g hg => (hl g hg).plain) nofun
    rwa [← (hfield o).2.2.2]
  | finish c v pins get b hc hv hk hframe learnt hg hl hm =>
    exact goto (h.setHeld hc rfl rfl) hm (fun g hl => by rw [(hg g hl).1]; trivial) nofun
  | store o m w hp hload hk =>
    have hc : (w.pageIdx, o) ∈ (s.pc t).held := by rw [hp]; exact .head _
    have hstored := h.setHeld (q := (s.obj o).store w.pageOff w.writable w.src w.oldSize m) hc rfl rfl
    exact keeps ((hstored.markPageDirty hc).congr rfl rfl rfl rfl) hk
  | dirty c hc hg hk => exact keeps (h.markPageDirty hc) hk
  | retain c hc hg hk => exact keeps (h.setHeld hc rfl rfl) hk
  | release o ho hk =>
    refine keeps (h.setObj rfl rfl (fun hev => ?_) fun _ => .inl ho) hk
    rw [(h.mapped o ho).2] at hev
    cases hev
  | beginFlush c hc hwb hd learnt hl hm =>
    refine goto (h.setHeld hc rfl rfl) hm (fun g hg => ?_) nofun
    obtain ⟨data, rfl, -⟩ := hl g hg
    trivial
  | device f hf learnt hl hout hm =>
    exact goto (h.congr rfl rfl rfl rfl) hm (fun g hg => (hl g hg).plain) nofun
  | endFlush c time ok hc hk hf hm =>
    refine goto ?_ hm nofun nofun
    exact congr (h.setHeld hc (q := (s.obj c.2).finishWriteback ok) rfl rfl) rfl rfl rfl rfl
  | mark o hp hev hfree hm => exact h.mark hp hev hfree hm
  | remove o hp hpage hm => exact h.remove hp hm
  | giveUp o hp hpage hp' => exact absurd (h.evicted t o (hp ▸ .head _)).1 hpage
  | restore o hp hk => exact absurd (hp ▸ .head _) (h.restores t o)

end

end Places

/-! ## The pages a fact is about -/

/-- The thread at `p` has the page of the fact in its hands, and loads it or writes it back if the
fact says so. -/
def Fact.Home (p : Pc) : Fact → Prop
  | .ready o => ∃ c ∈ p.held, c.2 = o
  | .sized i _ => ∃ o, (i, o) ∈ p.held ∧ o ∈ p.loads
  | .loaded i o _ _ => (i, o) ∈ p.held ∧ o ∈ p.loads
  | .took i o _ _ _ | .out i o _ _ => (i, o) ∈ p.held ∧ o ∈ p.flushes
  | _ => True

theorem home_of_took {batch : List WritebackPage} {y : SyncCall} {n : ℕ} (hheld : batch.map entry ⊆ p.held)
    (hflushes : p.flushes = batch.map page)
    (hg : g ∈ y.owes n :: batch.map took) : g.Home p := by
  rcases mem_cons.mp hg with rfl | hg
  · trivial
  · obtain ⟨w, hw, rfl⟩ := mem_map.mp hg
    exact ⟨hheld (mem_map_of_mem hw), hflushes ▸ mem_map_of_mem hw⟩

theorem FlushCaller.home_of_owes {k : FlushCaller} {n : ℕ} (hg : g ∈ k.owes n) : g.Home p := by
  cases k with
  | reclaim => cases hg
  | sync y =>
    rw [mem_singleton.mp hg]
    trivial

theorem Pc.home (p : Pc) : ∀ g ∈ p.facts, g.Home p := by
  intro g hg
  cases p with
  | readCopy | faultDirty | retain | markDirty =>
    rw [mem_singleton.mp hg]
    exact ⟨_, .head _, rfl⟩
  | loadRead o v k =>
    rw [mem_singleton.mp hg]
    exact ⟨o, .head _, .head _⟩
  | loadFinish o v r k =>
    rw [mem_singleton.mp hg]
    exact ⟨.head _, .head _⟩
  | runRead run rest fileSize k =>
    obtain ⟨c, hc, rfl⟩ := mem_map.mp hg
    have hmem := mem_append_left rest hc
    exact ⟨c.2, hmem, mem_map_of_mem hmem⟩
  | runFinish todo rest first fileSize read buffered k =>
    obtain ⟨c, hc, rfl⟩ := mem_map.mp hg
    have hmem := mem_append_left rest hc
    exact ⟨hmem, mem_map_of_mem hmem⟩
  | collect y batch | batchWrite y batch => exact home_of_took (List.Subset.refl _) rfl hg
  | collectPage o i y batch => exact home_of_took (subset_cons_self _ _) rfl hg
  | batchFinish todo ok consumed y =>
    rcases mem_append.mp hg with hg | hg
    · split at hg
      · rw [mem_singleton.mp hg]
        trivial
      · cases hg
    · obtain ⟨w, hw, rfl⟩ := mem_map.mp hg
      exact ⟨mem_map_of_mem hw, mem_map_of_mem hw⟩
  | flush o i k => exact home_of_owes hg
  | flushWrite o i v time k =>
    rcases mem_cons.mp hg with rfl | hg
    · exact ⟨.head _, .head _⟩
    · exact home_of_owes hg
  | flushFinish o i time ok k =>
    rcases mem_cons.mp hg with rfl | hg
    · exact ⟨.head _, .head _⟩
    · split at hg
      · exact home_of_owes hg
      · cases hg
  | reclaimDecide | reclaimRestore | synced =>
    rw [mem_singleton.mp hg]
    trivial
  | _ => cases hg

/-! ## Claims -/

/-- What a thread loads it has in its hands. -/
theorem Pc.held_of_loads (p : Pc) : ∀ o ∈ p.loads, ∃ c ∈ p.held, c.2 = o := by
  have hmap : ∀ {l : List (ℕ × ObjId)} {o}, o ∈ l.map Prod.snd → ∃ c ∈ l, c.2 = o :=
    fun h => mem_map.mp h
  have hcons : ∀ {l : List (ℕ × ObjId)} {c : ℕ × ObjId} {o}, o ∈ c.2 :: l.map Prod.snd →
      ∃ d ∈ c :: l, d.2 = o := fun {l c} _ h => hmap h
  have hlater : ∀ {l : List (ℕ × ObjId)} {c : ℕ × ObjId} {o}, o ∈ l.map Prod.snd →
      ∃ d ∈ c :: l, d.2 = o := fun h => hcons (.tail _ h)
  intro o ho
  cases p with
  | lookup k | insert k => exact hmap ho
  | ensure o' k | rangeMark o' g => exact hlater ho
  | loadSize o' k | loadRead o' valid k | loadFinish o' valid read k => exact hcons ho
  | rangeHead g => exact hmap ho
  | runs candidates k | runSize run rest k | runRead run rest fileSize k
  | runFinish todo rest first fileSize read buffered k => exact hmap ho
  | _ => cases ho

theorem Pc.held_of_flushes (p : Pc) : ∀ o ∈ p.flushes, ∃ c ∈ p.held, c.2 = o := by
  have hmap : ∀ {l : List WritebackPage} {o}, o ∈ l.map page → ∃ c ∈ l.map entry, c.2 = o := by
    intro l o h
    obtain ⟨w, hw, rfl⟩ := mem_map.mp h
    exact ⟨w.entry, mem_map_of_mem hw, rfl⟩
  intro o ho
  cases p with
  | collect y batch | batchWrite y batch | batchFinish todo writeOk consumed y => exact hmap ho
  | collectPage o' i y batch =>
    obtain ⟨c, hc, hco⟩ := hmap ho
    exact ⟨c, .tail _ hc, hco⟩
  | flushWrite o' i valid time k | flushFinish o' i time writeOk k =>
    exact ⟨_, .head _, (mem_singleton.mp ho).symm⟩
  | _ => cases ho

structure Claims (s : State) : Prop where
  loads : Exclusive (fun t => (s.pc t).loads) fun o => (s.obj o).loading
  flushes : Exclusive (fun t => (s.pc t).flushes) fun o => (s.obj o).writeback

namespace Claims

theorem boot (f : File) : Claims (boot f) := ⟨.of_nil fun _ => rfl, .of_nil fun _ => rfl⟩

/-- Nobody takes or leaves a page, and the flags of the pages stay. -/
theorem keep (h : Claims s) (hpc : s₁.pc = s.pc) (hloads : p'.loads.Perm (s.pc t).loads)
    (hflushes : p'.flushes.Perm (s.pc t).flushes)
    (hflags : ∀ u c, c ∈ (s.pc u).held → (s₁.obj c.2).loading = (s.obj c.2).loading ∧
      (s₁.obj c.2).writeback = (s.obj c.2).writeback) : Claims (s₁.goto t p') := by
  constructor
  · refine claims_keep h.loads hpc hloads fun u o ho => ?_
    obtain ⟨c, hc, rfl⟩ := (s.pc u).held_of_loads o ho
    exact (hflags u c hc).1
  · refine claims_keep h.flushes hpc hflushes fun u o ho => ?_
    obtain ⟨c, hc, rfl⟩ := (s.pc u).held_of_flushes o ho
    exact (hflags u c hc).2

theorem keepObj (h : Claims s) (hloads : p'.loads.Perm (s.pc t).loads)
    (hflushes : p'.flushes.Perm (s.pc t).flushes) (hload : q.loading = (s.obj o).loading)
    (hwb : q.writeback = (s.obj o).writeback) : Claims ((s.setObj o q).goto t p') :=
  h.keep rfl hloads hflushes fun _ c _ =>
    ⟨setObj_field CachePage.loading hload c.2, setObj_field CachePage.writeback hwb c.2⟩

theorem effect (h : Claims s) (hpl : Places s) (he : Effect s e (s.pc t) p' s₁) :
    Claims (s₁.goto t p') := by
  cases he with
  | quiet learnt hl hm | device f hf learnt hl hout hm | remove o hp hpage hm
  | find c hpage hev hm | pick o learnt ho hm =>
    exact h.keep rfl hm.loads hm.flushes fun _ _ _ => ⟨rfl, rfl⟩
  | choose o hp hp' ho | giveUp o hp hpage hp' =>
    subst hp'
    exact h.keep rfl (hp ▸ .refl _) (hp ▸ .refl _) fun _ _ _ => ⟨rfl, rfl⟩
  | grow n hn hk => exact h.keep rfl hk.loads hk.flushes fun _ _ _ => ⟨rfl, rfl⟩
  | make i ppn hpage hm =>
    refine h.keep rfl hm.loads hm.flushes fun u c hc => ?_
    have hobj : (s.addPage i ppn).obj c.2 = s.obj c.2 :=
      update_of_ne (ne_of_lt (hpl.held_index hc).2) ..
    rw [hobj]
    exact ⟨rfl, rfl⟩
  | touch o b learnt hl hm | mark o hp hev hfree hm => exact h.keepObj hm.loads hm.flushes rfl rfl
  | beginLoad c b hc hload hup hm =>
    constructor
    · exact claims_take h.loads hload hm.loads rfl
    · exact claims_keep h.flushes rfl hm.flushes fun _ o _ => obj_field rfl CachePage.writeback (by rfl) o
  | fill obj hobj learnt hl hfresh hm =>
    refine h.keep rfl hm.loads hm.flushes fun u c hc => ?_
    show (obj c.2).loading = _ ∧ (obj c.2).writeback = _
    rcases hobj c.2 with ho | ⟨-, bytes, ho⟩ <;> rw [ho] <;> exact ⟨rfl, rfl⟩
  | finish c v pins get b hc hv hk hframe learnt hg hl hm =>
    constructor
    · exact claims_leave h.loads rfl rfl hl
    · exact claims_keep h.flushes rfl hm.flushes fun _ o _ => obj_field rfl CachePage.writeback (by rfl) o
  | store o m w hp hload hk =>
    refine h.keep rfl hk.loads hk.flushes fun u c hc => ?_
    exact ⟨obj_field (storeWrite_obj s o m w) CachePage.loading (by simp [CachePage.store]) c.2,
      obj_field (storeWrite_obj s o m w) CachePage.writeback (by simp [CachePage.store]) c.2⟩
  | dirty c hc hg hk =>
    refine h.keep rfl hk.loads hk.flushes fun u d hd => ?_
    exact ⟨setObj_field CachePage.loading (by simp) d.2, setObj_field CachePage.writeback (by simp) d.2⟩
  | retain c hc hg hk | release o ho hk | restore o hp hk =>
    exact h.keepObj hk.loads hk.flushes rfl rfl
  | beginFlush c hc hwb hd learnt hl hm =>
    constructor
    · exact claims_keep h.loads rfl hm.loads fun _ o _ => obj_field rfl CachePage.loading (by rfl) o
    · exact claims_take h.flushes hwb hm.flushes rfl
  | endFlush c time ok hc hk hf hm =>
    constructor
    · exact claims_keep h.loads rfl hm.loads fun _ o _ => obj_field rfl CachePage.loading (by rfl) o
    · exact claims_leave h.flushes rfl rfl hf

end Claims

/-! ## Flags -/

/-- The flags of a page make sense together. -/
structure CachePage.Sane (p : CachePage) : Prop where
  stale : p.loading = true → p.uptodate = false
  fresh : p.dirty = true → p.uptodate = true
  flushing : p.writeback = true → p.dirty = true
  mapped : 0 < p.mapCount → p.uptodate = true

open CachePage

namespace CachePage.Sane

theorem new (index ppn : ℕ) : (new index ppn).Sane where
  stale := nofun
  fresh := nofun
  flushing := nofun
  mapped := fun h => absurd h (lt_irrefl 0)

/-- A page that is being loaded is clean and unmapped. -/
theorem idle_of_loading (h : q.Sane) (hload : q.loading = true) :
    q.dirty = false ∧ q.mapCount = 0 := by
  have hup := h.stale hload
  constructor
  · rw [← Bool.not_eq_true]
    intro hd
    simp [h.fresh hd] at hup
  · by_contra hm
    simp [h.mapped (Nat.pos_of_ne_zero hm)] at hup

theorem markDirty (h : q.Sane) (hload : q.loading = false) : q.markDirty.Sane where
  stale := fun hl => by simp [hload] at hl
  fresh := fun _ => q.markDirty_uptodate h.fresh
  flushing := fun _ => q.markDirty_dirty
  mapped := fun _ => q.markDirty_uptodate h.fresh

theorem store {pageOff writable oldSize m : ℕ} (h : q.Sane)
    (hload : q.loading = false) : (q.store pageOff writable src oldSize m).Sane where
  stale := fun hl => by simp [CachePage.store, hload] at hl
  fresh := fun hd => by simp [CachePage.store, h.fresh hd]
  flushing := h.flushing
  mapped := fun hm => by simp [CachePage.store, h.mapped hm]

end CachePage.Sane

/-- The set of the dirty pages has every dirty page of the index. -/
def Listed (s : State) : Prop :=
  ∀ i o, s.pages i = some o → (s.obj o).dirty = true → i ∈ s.dirtyPages

structure Flags (s : State) : Prop where
  sane : ∀ o, (s.obj o).Sane
  ready : ∀ t o, Fact.ready o ∈ (s.pc t).facts → (s.obj o).uptodate = true
  listed : Listed s

/-- The objects a section of `p` may load or finish are flagged. -/
theorem Claims.loading_of_perm (h : Claims s) {l : List ObjId}
    (hl : (s.pc t).loads.Perm (o :: l)) : (s.obj o).loading = true :=
  h.loads.flagged t o (hl.mem_iff.mpr (.head _))

/-- No section takes the data of a page away. -/
theorem Effect.uptodate (he : Effect s e (s.pc t) p' s₁) (hcl : Claims s) (hfl : ∀ o, (s.obj o).Sane)
    (ho : o < s.made) (hup : (s.obj o).uptodate = true) : (s₁.obj o).uptodate = true := by
  have hset : ∀ {o' : ObjId} {q : CachePage}, ((s.obj o').uptodate = true → q.uptodate = true) →
      (update s.obj o' q o).uptodate = true := by
    intro o' q hq
    rcases eq_or_ne o o' with rfl | hoo
    · rw [update_self]
      exact hq hup
    · rwa [update_of_ne hoo]
  cases he with
  | quiet | choose | grow | find | pick | device | remove | giveUp => exact hup
  | make i ppn =>
    have hobj : (s.addPage i ppn).obj o = s.obj o := update_of_ne (ne_of_lt ho) ..
    rwa [hobj]
  | touch | beginLoad | retain | release | beginFlush | mark | restore | endFlush => exact hset id
  | fill obj hobj =>
    show (obj o).uptodate = true
    rcases hobj o with hobj | ⟨-, bytes, hobj⟩ <;> rw [hobj] <;> exact hup
  | finish c v pins get b hc hv hk hframe learnt hg hl =>
    refine hset fun hup => ?_
    rw [(hfl c.2).stale (hcl.loading_of_perm hl)] at hup
    cases hup
  | store o' m w =>
    rw [storeWrite_obj]
    refine hset fun hup => markDirty_uptodate _ fun _ => ?_
    simp [CachePage.store, hup]
  | dirty c => exact hset fun hup => markDirty_uptodate _ fun _ => hup

theorem Effect.sane (he : Effect s e (s.pc t) p' s₁) (hcl : Claims s) (hfl : Flags s) :
    ∀ o, (s₁.obj o).Sane := by
  have hset : ∀ {o : ObjId} {q : CachePage}, q.Sane → ∀ o', (update s.obj o q o').Sane :=
    fun hq => setObj_cases hq fun o' _ => hfl.sane o'
  cases he with
  | quiet | choose | grow | find | pick | device | remove | giveUp => exact hfl.sane
  | make i ppn => exact hset (.new i ppn)
  | touch o | mark o | restore o =>
    have h := hfl.sane o
    exact hset { h with }
  | beginLoad c b hc hload hup =>
    have h := hfl.sane c.2
    exact hset { h with stale := fun _ => hup }
  | fill obj hobj =>
    intro o
    have h := hfl.sane o
    show (obj o).Sane
    rcases hobj o with hobj | ⟨-, bytes, hobj⟩ <;> rw [hobj]
    · exact h
    · exact { h with }
  | finish c v pins get b hc hv hk hframe learnt hg hl =>
    have h := hfl.sane c.2
    obtain ⟨hd, hm⟩ := h.idle_of_loading (hcl.loading_of_perm hl)
    refine hset ⟨nofun, fun hdirty => ?_, h.flushing, fun hmap => ?_⟩
    · exact absurd hdirty (by simp [hd])
    · exact absurd hmap (by simp [hm])
  | store o m w hp hload =>
    rw [storeWrite_obj]
    exact hset (((hfl.sane o).store hload).markDirty hload)
  | dirty c hc hg =>
    refine hset ((hfl.sane c.2).markDirty ?_)
    rw [← Bool.not_eq_true]
    intro hload
    have hup := hfl.ready t c.2 hg
    rw [(hfl.sane c.2).stale hload] at hup
    cases hup
  | retain c hc hg =>
    have h := hfl.sane c.2
    exact hset { h with mapped := fun _ => hfl.ready t c.2 hg }
  | release o ho =>
    have h := hfl.sane o
    exact hset { h with mapped := fun _ => h.mapped ho }
  | beginFlush c hc hwb hd =>
    have h := hfl.sane c.2
    exact hset { h with flushing := fun _ => hd }
  | endFlush c time ok =>
    have h := hfl.sane c.2
    refine hset ⟨h.stale, fun hd => h.fresh ?_, nofun, h.mapped⟩
    exact (Bool.and_eq_true_iff.mp hd).1

namespace Listed

/-- The index only loses pages and no page becomes dirty. -/
theorem mono (h : Listed s) (hpages : ∀ i o, s₁.pages i = some o → s.pages i = some o)
    (hdirty : ∀ o, (s₁.obj o).dirty = true → (s.obj o).dirty = true)
    (hset : s₁.dirtyPages = s.dirtyPages) : Listed s₁ := by
  intro i o hi hd
  rw [hset]
  exact h i o (hpages i o hi) (hdirty o hd)

theorem setObj (h : Listed s) (hd : q.dirty = (s.obj o).dirty) : Listed (s.setObj o q) :=
  h.mono (fun _ _ hi => hi) (fun o' hdirty => setObj_field dirty hd o' ▸ hdirty) rfl

section

variable (h : Listed s) (hpl : Places s)

include h hpl

/-- Marking a page of the index dirty puts it on the list. -/
theorem markPageDirty : Listed (s.markPageDirty o) := by
  intro i o' hi hd
  show i ∈ if (s.obj o).dirty then s.dirtyPages else insertIndex (s.obj o).index s.dirtyPages
  have hold : (s.obj o').dirty = true → i ∈ s.dirtyPages := h i o' hi
  rcases eq_or_ne o' o with rfl | ho
  · split
    · exact hold ‹_›
    · exact mem_insertIndex.mpr (.inl (hpl.index i o' hi).1.symm)
  · have hd' : (s.obj o').dirty = true := by
      rwa [show (s.markPageDirty o).obj o' = s.obj o' from setObj_obj_of_ne ho] at hd
    split
    · exact hold hd'
    · exact mem_insertIndex.mpr (.inr (hold hd'))

/-- A writeback takes from the list only the page it has cleaned. -/
theorem finishPageWriteback {ok : Bool}
    (hpage : s.pages (s.obj o).index = some o) : Listed (s.finishPageWriteback o ok) := by
  intro i o' hi hd
  have hindex := (hpl.index i o' hi).1
  show i ∈ if (s.obj o).dirty then if (s.obj o).staysDirty ok then
      insertIndex (s.obj o).index s.dirtyPages else s.dirtyPages.erase (s.obj o).index
    else s.dirtyPages
  rcases eq_or_ne o' o with rfl | ho
  · have hd' : ((s.obj o').dirty && (s.obj o').staysDirty ok) = true := by
      rwa [show (s.finishPageWriteback o' ok).obj o' = _ from setObj_obj_self] at hd
    obtain ⟨hdirty, hstays⟩ := Bool.and_eq_true_iff.mp hd'
    rw [if_pos hdirty, if_pos hstays]
    exact mem_insertIndex.mpr (.inl hindex.symm)
  · have hd' : (s.obj o').dirty = true := by
      rwa [show (s.finishPageWriteback o ok).obj o' = s.obj o' from setObj_obj_of_ne ho] at hd
    have hmem := h i o' hi hd'
    have hne : i ≠ (s.obj o).index := by
      rintro rfl
      exact ho (Option.some.inj (hi.symm.trans hpage))
    split
    · split
      · exact mem_insertIndex.mpr (.inr hmem)
      · exact (mem_erase_of_ne hne).mpr hmem
    · exact hmem

theorem addPage {i ppn : ℕ} : Listed (s.addPage i ppn) := by
  intro j o hj hd
  rcases eq_or_ne j i with rfl | hji
  · obtain rfl : s.made = o := Option.some.inj ((update_self (f := s.pages) ..).symm.trans hj)
    rw [show (s.addPage j ppn).obj s.made = new j ppn from update_self ..] at hd
    cases hd
  · have hj' : s.pages j = some o := (update_of_ne hji ..).symm.trans hj
    rw [show (s.addPage i ppn).obj o = s.obj o from
      update_of_ne (ne_of_lt (hpl.index j o hj').2) ..] at hd
    exact h j o hj' hd

theorem effect (he : Effect s e (s.pc t) p' s₁) : Listed s₁ := by
  cases he with
  | quiet | choose | grow | find | pick | device | giveUp => exact h
  | make i ppn hpage => exact h.addPage hpl
  | touch | beginLoad | finish | retain | release | beginFlush | mark | restore =>
    exact h.setObj rfl
  | fill obj hobj =>
    refine h.mono (fun _ _ hi => hi) (fun o hd => ?_) rfl
    rcases hobj o with ho | ⟨-, bytes, ho⟩
    · exact ho ▸ hd
    · rwa [show ({ s with obj := obj } : State).obj o = _ from ho] at hd
  | store o m w hp =>
    have hc : (w.pageIdx, o) ∈ (s.pc t).held := by rw [hp]; exact .head _
    exact (h.setObj (q := (s.obj o).store w.pageOff w.writable w.src w.oldSize m) rfl).markPageDirty
      (hpl.setHeld hc rfl rfl)
  | dirty c hc => exact h.markPageDirty hpl
  | endFlush c time ok hc =>
    refine h.finishPageWriteback hpl ?_
    rw [(hpl.held_index hc).1]
    exact (hpl.held t c hc).1
  | remove o hp hpage =>
    refine h.mono (fun i o' hi => ?_) (fun _ hd => hd) rfl
    rcases eq_or_ne i ((s.obj o).index) with rfl | hio
    · simp at hi
    · exact (update_of_ne hio ..).symm.trans hi

end

end Listed

/-- A thread that knows a page to have data has seen it. -/
theorem Effect.ready (he : Effect s e (s.pc t) p' s₁) (hfl : ∀ o, (s.obj o).Sane)
    (ho : Fact.ready o ∈ p'.facts) :
    Fact.ready o ∈ (s.pc t).facts ∨ (s₁.obj o).uptodate = true := by
  cases he with
  | grow _ _ h | store _ _ _ _ _ h | dirty _ _ _ h | retain _ _ _ h | release _ _ h
  | restore _ _ h => exact .inl ((h.facts _ ho).resolve_left not_mem_nil)
  | find _ _ _ h | make _ _ _ h | beginLoad _ _ _ _ _ h | endFlush _ _ _ _ _ _ h | mark _ _ _ _ h
  | remove _ _ _ h => exact .inl ((h.facts _ ho).resolve_left not_mem_nil)
  | quiet learnt hl h | fill obj hobj learnt hl hfresh h | device f hf learnt hl hout h =>
    exact .inl ((h.facts _ ho).resolve_left fun hg => nomatch hl _ hg)
  | beginFlush c hc hwb hd learnt hl h =>
    refine .inl ((h.facts _ ho).resolve_left fun hg => ?_)
    obtain ⟨data, heq, -⟩ := hl _ hg
    cases heq
  | choose o' hp hp' | giveUp o' hp hpage hp' =>
    subst hp'
    cases mem_singleton.mp ho
  | pick o' learnt hor h =>
    refine (h.facts _ ho).symm.imp_right fun hl => ?_
    rcases hor with ⟨-, -, rfl⟩ | ⟨hm, rfl⟩
    · cases hl
    · obtain rfl : o = o' := Fact.ready.inj (mem_singleton.mp hl)
      exact (hfl o).mapped hm
  | touch o' b learnt hl h =>
    refine (h.facts _ ho).symm.imp_right fun hlearnt => ?_
    obtain ⟨heq, hup⟩ := hl _ hlearnt
    obtain rfl : o = o' := Fact.ready.inj heq
    rwa [setObj_obj_self]
  | finish c v pins get b hc hv hk hframe learnt hg hl h =>
    refine (h.facts _ ho).symm.imp_right fun hlearnt => ?_
    obtain ⟨heq, hb⟩ := hg _ hlearnt
    obtain rfl : o = c.2 := Fact.ready.inj heq
    rwa [setObj_obj_self]

namespace Flags

theorem boot (f : File) : Flags (boot f) where
  sane := fun _ => .new 0 0
  ready := nofun
  listed := fun _ _ h => by simp [PageCache.boot] at h

theorem effect (h : Flags s) (hpl : Places s) (hcl : Claims s) (he : Effect s e (s.pc t) p' s₁) :
    Flags (s₁.goto t p') := by
  have hkeep : ∀ u o, Fact.ready o ∈ (s.pc u).facts → (s₁.obj o).uptodate = true := by
    intro u o ho
    obtain ⟨c, hc, rfl⟩ := (s.pc u).home _ ho
    exact he.uptodate hcl h.sane (hpl.held_index hc).2 (h.ready u c.2 ho)
  have hlisted : Listed s₁ := h.listed.effect hpl he
  refine ⟨he.sane hcl h, ?_, hlisted⟩
  refine forall_goto (P := fun _ p => ∀ o, Fact.ready o ∈ p.facts → (s₁.obj o).uptodate = true)
    (fun o ho => ?_) fun u _ => ?_
  · exact (he.ready h.sane ho).elim (hkeep t o) id
  · rw [he.pc_eq]
    exact hkeep u

end Flags

theorem Effect.size_le (he : Effect s e p p' s₁) : s.size ≤ s₁.size := by
  cases he <;> first | exact le_rfl | assumption

theorem Effect.clock_le (he : Effect s e p p' s₁) : s.clock ≤ s₁.clock := by
  cases he with
  | store => exact Nat.le_succ _
  | _ => exact le_rfl

theorem Effect.fits (he : Effect s e p p' s₁) : p'.Fits s₁.size s₁.clock := by
  cases he with
  | choose o hp hp' | giveUp o hp hpage hp' =>
    subst hp'
    trivial
  | quiet _ _ hm | grow _ _ hm | fill _ _ _ _ _ hm | store _ _ _ _ _ hm | dirty _ _ _ hm
  | retain _ _ _ hm | release _ _ hm | device _ _ _ _ _ hm | restore _ _ hm => exact hm.fits
  | find _ _ _ hm | pick _ _ _ hm | make _ _ _ hm | touch _ _ _ _ hm | beginLoad _ _ _ _ _ hm
  | finish _ _ _ _ _ _ _ _ _ _ _ _ hm | beginFlush _ _ _ _ _ _ hm | endFlush _ _ _ _ _ _ hm
  | mark _ _ _ _ hm | remove _ _ _ hm => exact hm.fits

theorem store_validBytes_le {pageOff writable oldSize m : ℕ} (h : q.validBytes ≤ pageSize) :
    (q.store pageOff writable src oldSize m).validBytes ≤ pageSize := by
  have hvalid := pageValidBytesForSize_le m q.index
  have hbefore : q.validBefore oldSize ≤ pageSize := by
    unfold validBefore
    omega
  show (if max q.validBytes (pageValidBytesForSize m q.index) < q.validBefore oldSize then
    q.validBefore oldSize else max q.validBytes (pageValidBytesForSize m q.index)) ≤ pageSize
  split <;> omega

/-- No section lets a page hold more than a page. -/
theorem Effect.bounded (he : Effect s e p p' s₁) (h : ∀ o, (s.obj o).validBytes ≤ pageSize) :
    ∀ o, (s₁.obj o).validBytes ≤ pageSize := by
  have hset : ∀ {o : ObjId} {q : CachePage}, q.validBytes ≤ pageSize →
      ∀ o', (update s.obj o q o').validBytes ≤ pageSize :=
    fun hq => setObj_cases (P := fun _ q => q.validBytes ≤ pageSize) hq fun o' _ => h o'
  cases he with
  | quiet | choose | grow | find | pick | device | remove | giveUp => exact h
  | make => exact hset (Nat.zero_le _)
  | touch o | release o | mark o | restore o => exact hset (h o)
  | beginLoad c | retain c | beginFlush c | endFlush c => exact hset (h c.2)
  | fill obj hobj =>
    intro o
    show (obj o).validBytes ≤ pageSize
    rcases hobj o with ho | ⟨-, bytes, ho⟩ <;> rw [ho] <;> exact h o
  | finish c v pins get b hc hv => exact hset hv
  | store o m w =>
    rw [storeWrite_obj]
    refine hset ?_
    rw [markDirty_validBytes]
    exact store_validBytes_le (h o)
  | dirty c =>
    refine hset ?_
    rw [markDirty_validBytes]
    exact h c.2

structure Inv (s : State) : Prop where
  places : Places s
  claims : Claims s
  flags : Flags s
  fits : ∀ t, (s.pc t).Fits s.size s.clock
  bounded : ∀ o, (s.obj o).validBytes ≤ pageSize

theorem Inv.boot (f : File) : Inv (boot f) where
  places := .boot f
  claims := .boot f
  flags := .boot f
  fits := fun _ => trivial
  bounded := fun _ => Nat.zero_le _

theorem Inv.regular (h : Inv s) : Regular s := ⟨h.fits, h.bounded, h.claims.loads.nodup⟩

theorem Inv.effect (h : Inv s) (he : Effect s e (s.pc t) p' s₁) : Inv (s₁.goto t p') where
  places := h.places.effect he
  claims := h.claims.effect h.places he
  flags := h.flags.effect h.places h.claims he
  fits := by
    refine forall_goto he.fits fun u _ => ?_
    rw [he.pc_eq]
    exact (h.fits u).mono he.size_le he.clock_le
  bounded := he.bounded h.bounded

theorem Inv.next {l : Label} (h : Inv s) (hs : Sound s l) (hn : s.next l = some s') : Inv s' := by
  obtain ⟨s₁, p', rfl, he⟩ := next_effect h.regular hs hn
  exact h.effect he

end CosmOS.PageCache
