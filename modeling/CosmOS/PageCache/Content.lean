import CosmOS.PageCache.Loads

/-!
# PageCache.Content — where the bytes of the writes are

A byte that a write stored is shown by its page if the page has data, and is in the backing file
once the page is clean or gone.  `Content` says so, together with what every thread relies on
between two sections: `Fact.Holds` is the meaning of a fact, in terms of the bytes written.

The proof goes in two stages.  A section first changes the shared state, and every fact of every
thread stays true; then its thread moves on and learns facts that hold in the new state.
-/

namespace CosmOS.PageCache

open Function CachePage WriteCall
open Option (some)

variable {s s' s₁ : State} {e : Env} {t u : ThreadId} {p p' : Pc} {o : ObjId} {q : CachePage}
  {g : Fact} {i off time : ℕ} {b : UInt8} {obj : ObjId → CachePage} {data : Option (ℕ → UInt8)}

/-! ## The meaning of the facts -/

/-- `P` holds of all that was written in the page `i`. -/
def State.On (s : State) (i : ℕ) (P : ℕ → UInt8 → Prop) : Prop :=
  ∀ off b, s.written off = some b → filePageIndex off = i → P off b

/-- Unless the page was dirtied again, nothing was written in it after `time`. -/
def State.Calm (s : State) (i : ℕ) (o : ObjId) (time : ℕ) : Prop :=
  (s.obj o).redirtied = false → s.On i fun off _ => s.stamp off ≤ time

/-- The byte is in the backing file, and no writeback still has an older one in its hands. -/
def State.Safe (s : State) (off : ℕ) (b : UInt8) : Prop :=
  s.backing.Has off b ∧ ∀ u o time v data,
    .took (filePageIndex off) o time v data ∈ (s.pc u).facts → s.stamp off ≤ time

def Fact.Holds (s : State) : Fact → Prop
  | .sized i v => s.On i fun off _ => filePageOffset off < v
  | .loaded i o v get => s.On i fun off b =>
    filePageOffset off < v ∧ get.getD (s.obj o).bytes (filePageOffset off) = b
  | .took i o time v data => v ≤ pageSize ∧ time ≤ s.clock ∧ s.Calm i o time ∧
      s.On i fun off b => s.stamp off ≤ time →
        filePageOffset off < v ∧ s.takenByte o data (filePageOffset off) = b
  | .out i o time ok => time ≤ s.clock ∧ s.Calm i o time ∧
      (ok = true → s.On i fun off b => s.stamp off ≤ time → s.backing.Has off b)
  | .owes pending began => began ≤ s.clock ∧ ∀ off b, s.written off = some b →
      s.stamp off ≤ began → filePageIndex off ∈ pending ∨ s.Safe off b
  | _ => True

def Fact.frame : Fact → Option ObjId
  | .loaded _ o _ none | .took _ o _ _ none => some o
  | _ => none

/-- The page whose writeback a fact is about. -/
def Fact.flushed : Fact → Option ObjId
  | .took _ o _ _ _ | .out _ o _ _ => some o
  | _ => none

/-- Every byte of a write is where it belongs, and every thread relies on true facts. -/
structure Content (s : State) : Prop where
  room : ∀ off b, s.written off = some b → off < s.size
  stamps : ∀ off, s.stamp off ≤ s.clock
  page : ∀ i o, s.pages i = some o → (s.obj o).uptodate = true → s.On i (s.obj o).Shows
  clean : ∀ i, (∀ o, s.pages i = some o → (s.obj o).dirty = false) → s.On i s.backing.Has
  facts : ∀ t, ∀ g ∈ (s.pc t).facts, g.Holds s

theorem Content.boot (f : File) : Content (boot f) where
  room := fun _ _ h => by simp [PageCache.boot] at h
  stamps := fun _ => le_rfl
  page := fun _ _ h => by simp [PageCache.boot] at h
  clean := fun _ _ _ _ h => by simp [PageCache.boot] at h
  facts := nofun

/-- A fact stays true if nothing is written and its page and the backing file keep what it says. -/
theorem Fact.Holds.mono (h : g.Holds s) (hw : s₁.written = s.written) (hs : s₁.stamp = s.stamp)
    (hc : s₁.clock = s.clock) (hbytes : ∀ o, g.frame = some o → (s₁.obj o).bytes = (s.obj o).bytes)
    (hred : ∀ o, g.flushed = some o → (s₁.obj o).redirtied = false → (s.obj o).redirtied = false)
    (hout : ∀ i o time, g = .out i o time true → ∀ off b, filePageIndex off = i →
      s.backing.Has off b → s₁.backing.Has off b)
    (hsafe : ∀ off b, s.written off = some b → s.Safe off b → s₁.Safe off b) : g.Holds s₁ := by
  have hon : ∀ {i : ℕ} {P P' : ℕ → UInt8 → Prop}, s.On i P →
      (∀ off b, filePageIndex off = i → P off b → P' off b) → s₁.On i P' :=
    fun hP himp off b hwr hi => himp off b hi (hP off b (hw ▸ hwr) hi)
  have hcalm : ∀ {i o time}, g.flushed = some o → s.Calm i o time → s₁.Calm i o time := by
    intro i o time ho hcalm hfalse
    refine hon (hcalm (hred o ho hfalse)) fun off b _ hle => ?_
    rwa [hs]
  cases g with
  | sized i v => exact hon h fun _ _ _ => id
  | loaded i o v get =>
    refine hon h fun off b _ hb => ?_
    cases get with
    | some get => exact hb
    | none => rwa [hbytes o rfl]
  | took i o time v data =>
    obtain ⟨hv, ht, hcalm', hon'⟩ := h
    refine ⟨hv, hc ▸ ht, hcalm rfl hcalm', hon hon' fun off b _ hb hst => ?_⟩
    rw [hs] at hst
    cases data with
    | some data => exact hb hst
    | none =>
      unfold State.takenByte
      rw [hbytes o rfl]
      exact hb hst
  | out i o time ok =>
    obtain ⟨ht, hcalm', hon'⟩ := h
    refine ⟨hc ▸ ht, hcalm rfl hcalm', fun hok => hon (hon' hok) fun off b hi hb hst => ?_⟩
    rw [hs] at hst
    exact hout i o time (by rw [hok]) off b hi (hb hst)
  | owes pending began =>
    obtain ⟨ht, hall⟩ := h
    refine ⟨hc ▸ ht, fun off b hwr hst => ?_⟩
    rw [hw] at hwr
    rw [hs] at hst
    exact (hall off b hwr hst).imp_right (hsafe off b hwr)
  | _ => trivial

theorem State.Safe.mono (h : s.Safe off b) (hs : s₁.stamp = s.stamp) (hhas : s₁.backing.Has off b)
    (htook : ∀ u o time v data, .took (filePageIndex off) o time v data ∈ (s₁.pc u).facts →
      .took (filePageIndex off) o time v data ∈ (s.pc u).facts ∨ s.stamp off ≤ time) :
    s₁.Safe off b := by
  refine ⟨hhas, fun u o time v data hg => ?_⟩
  rw [hs]
  exact (htook u o time v data hg).elim (h.2 u o time v data) id

/-! ## A thread moves on -/

/-- The second stage of a section: what the thread learns is true, and a page that it takes to write
back is taken as it is now. -/
theorem Content.goto {found : List (ℕ × ObjId)} {loads flushes evicts : List ObjId}
    {learnt : List Fact} {n n' : ℕ} (h : Content s)
    (hm : (s.pc t).Moves p' found loads flushes evicts learnt n n') (hl : ∀ g ∈ learnt, g.Holds s)
    (htook : ∀ i o time v data, .took i o time v data ∈ learnt → time = s.clock) :
    Content (s.goto t p') where
  __ := h
  facts := by
    have hsafe : ∀ off b, s.Safe off b → (s.goto t p').Safe off b := by
      intro off b hsafe
      refine hsafe.mono rfl hsafe.1 fun u o time v data => ?_
      rcases eq_or_ne u t with rfl | hu
      · rw [goto_pc_self]
        intro hg
        refine (hm.facts _ hg).symm.imp_right fun hnew => ?_
        rw [htook _ _ _ _ _ hnew]
        exact h.stamps off
      · rw [goto_pc_of_ne hu]
        exact .inl
    have hmono : ∀ {g : Fact}, g.Holds s → g.Holds (s.goto t p') := fun hg =>
      hg.mono rfl rfl rfl (fun _ _ => rfl) (fun _ _ => id) (fun _ _ _ _ _ _ _ hb => hb)
        fun off b _ => hsafe off b
    exact forall_goto (P := fun _ p => ∀ g ∈ p.facts, g.Holds (s.goto t p')) (fun g hg => hmono
      ((hm.facts g hg).elim (hl g) (h.facts t g))) fun u _ g hg => hmono (h.facts u g hg)

theorem Content.keeps {n n' : ℕ} (h : Content s) (hm : (s.pc t).Keeps p' n n') :
    Content (s.goto t p') :=
  h.goto hm nofun nofun

/-! ## Changes that write nothing -/

/-- The first stage of a section that neither stores bytes nor writes to the device. -/
theorem Content.frame (h : Content s) (hw : s₁.written = s.written) (hs : s₁.stamp = s.stamp)
    (hc : s₁.clock = s.clock) (hb : s₁.backing = s.backing) (hsize : s.size ≤ s₁.size)
    (hpc : s₁.pc = s.pc)
    (hpage : ∀ i o, s₁.pages i = some o → (s₁.obj o).uptodate = true → s.On i (s₁.obj o).Shows)
    (hclean : ∀ i, (∀ o, s₁.pages i = some o → (s₁.obj o).dirty = false) → s.On i s.backing.Has)
    (hbytes : ∀ u, ∀ g ∈ (s.pc u).facts, ∀ o, g.frame = some o → (s₁.obj o).bytes = (s.obj o).bytes)
    (hred : ∀ u, ∀ g ∈ (s.pc u).facts, ∀ o, g.flushed = some o → (s₁.obj o).redirtied = false →
      (s.obj o).redirtied = false) : Content s₁ where
  room := fun off b hwr => lt_of_lt_of_le (h.room off b (hw ▸ hwr)) hsize
  stamps := fun off => by
    rw [hs, hc]
    exact h.stamps off
  page := fun i o hi hup off b hwr => hpage i o hi hup off b (hw ▸ hwr)
  clean := fun i hi off b hwr => by
    rw [hb]
    exact hclean i hi off b (hw ▸ hwr)
  facts := fun u g hg => by
    rw [hpc] at hg
    refine (h.facts u g hg).mono hw hs hc (hbytes u g hg) (hred u g hg)
      (fun _ _ _ _ off b _ hhas => ?_) fun off b _ hsafe => ?_
    · rwa [hb]
    · refine hsafe.mono hs (hb ▸ hsafe.1) fun u o time v data hg => .inl ?_
      rwa [hpc] at hg

theorem Content.setObj (h : Content s) (hbytes : q.bytes = (s.obj o).bytes)
    (hvalid : q.validBytes = (s.obj o).validBytes) (hup : q.uptodate = (s.obj o).uptodate)
    (hdirty : q.dirty = (s.obj o).dirty) (hred : q.redirtied = (s.obj o).redirtied) :
    Content (s.setObj o q) := by
  have hbytes' := setObj_field bytes hbytes
  have hdirty' := setObj_field dirty hdirty
  refine h.frame rfl rfl rfl rfl le_rfl rfl (fun i o' hi hup' => ?_) (fun i hi => ?_)
    (fun _ _ _ o' _ => hbytes' o') fun u g hg o' ho' hr => ?_
  · rw [setObj_field uptodate hup o'] at hup'
    intro off b hw hidx
    obtain ⟨hshow, hlt⟩ := h.page i o' hi hup' off b hw hidx
    exact ⟨(congrFun (hbytes' o') _).trans hshow, by
      rwa [setObj_field validBytes hvalid o']⟩
  · exact h.clean i fun o' ho' => (hdirty' o').symm.trans (hi o' ho')
  · rwa [setObj_field redirtied hred o'] at hr

/-! ## Pages that are loaded and pages that are written back -/

theorem Inv.of_loads (h : Inv s) (hc : (i, o) ∈ (s.pc u).held) (ho : o ∈ (s.pc u).loads) :
    s.pages i = some o ∧ (s.obj o).loading = true ∧ (s.obj o).uptodate = false ∧
      (s.obj o).dirty = false := by
  have hload := h.claims.loads.flagged u o ho
  exact ⟨(h.places.held u _ hc).1, hload, (h.flags.sane o).stale hload,
    ((h.flags.sane o).idle_of_loading hload).1⟩

theorem Inv.of_flushes (h : Inv s) (hc : (i, o) ∈ (s.pc u).held) (ho : o ∈ (s.pc u).flushes) :
    s.pages i = some o ∧ (s.obj o).writeback = true ∧ (s.obj o).dirty = true ∧
      (s.obj o).loading = false := by
  have hwb := h.claims.flushes.flagged u o ho
  have hd := (h.flags.sane o).flushing hwb
  refine ⟨(h.places.held u _ hc).1, hwb, hd, ?_⟩
  rw [← Bool.not_eq_true]
  intro hload
  rw [((h.flags.sane o).idle_of_loading hload).1] at hd
  cases hd

/-- The page of a writeback fact is being written back by the thread that relies on it. -/
theorem Inv.of_flushed (h : Inv s) (hg : g ∈ (s.pc u).facts) (ho : g.flushed = some o) :
    o ∈ (s.pc u).flushes ∧ (s.obj o).writeback = true ∧ (s.obj o).loading = false := by
  have hhome := (s.pc u).home g hg
  cases g with
  | took i o' time v data | out i o' time ok =>
    cases ho
    have hfl := h.of_flushes hhome.1 hhome.2
    exact ⟨hhome.2, hfl.2.1, hfl.2.2.2⟩
  | _ => simp [Fact.flushed] at ho

/-- A fact that reads a frame is about a page that its thread loads or writes back. -/
theorem Inv.of_frame (h : Inv s) (hg : g ∈ (s.pc u).facts) (ho : g.frame = some o) :
    (∃ i v, g = .loaded i o v none) ∧ o ∈ (s.pc u).loads ∨ (s.obj o).loading = false := by
  have hhome := (s.pc u).home g hg
  cases g with
  | loaded i o' v get =>
    cases get with
    | some get => simp [Fact.frame] at ho
    | none =>
      cases ho
      exact .inl ⟨⟨i, v, rfl⟩, hhome.2⟩
  | took i o' time v data =>
    cases data with
    | some data => simp [Fact.frame] at ho
    | none =>
      cases ho
      exact .inr (h.of_flushes hhome.1 hhome.2).2.2.2
  | _ => simp [Fact.frame] at ho

/-! ## The sections that write nothing -/

section

variable (h : Content s)
include h

theorem Content.grow {n : ℕ} (hn : s.size ≤ n) : Content { s with size := n } :=
  h.frame rfl rfl rfl rfl hn rfl h.page h.clean (fun _ _ _ _ _ => rfl) fun _ _ _ _ _ => id

theorem Content.addPage {ppn : ℕ} (hI : Inv s) (hpage : s.pages i = none) :
    Content (s.addPage i ppn) := by
  have hold : ∀ o, o < s.made → (s.addPage i ppn).obj o = s.obj o :=
    fun o ho => update_of_ne (ne_of_lt ho) ..
  have hheld : ∀ u, ∀ g ∈ (s.pc u).facts, ∀ o, g.frame = some o ∨ g.flushed = some o →
      o < s.made := by
    intro u g hg o ho
    have hhome := (s.pc u).home g hg
    cases g with
    | loaded i o' v get =>
      cases get <;> simp [Fact.frame, Fact.flushed] at ho
      exact ho ▸ (hI.places.held_index hhome.1).2
    | took i o' time v data =>
      have ho : o' = o := by cases data <;> simpa [Fact.frame, Fact.flushed] using ho
      exact ho ▸ (hI.places.held_index hhome.1).2
    | out i o' time ok =>
      have ho : o' = o := by simpa [Fact.frame, Fact.flushed] using ho
      exact ho ▸ (hI.places.held_index hhome.1).2
    | _ => simp [Fact.frame, Fact.flushed] at ho
  refine h.frame rfl rfl rfl rfl le_rfl rfl (fun j o hj hup => ?_) (fun j hj => ?_)
    (fun u g hg o ho => by rw [hold o (hheld u g hg o (.inl ho))])
    fun u g hg o ho => by rw [hold o (hheld u g hg o (.inr ho))]; exact id
  · rcases eq_or_ne j i with rfl | hji
    · obtain rfl : s.made = o := some.inj ((update_self (f := s.pages) ..).symm.trans hj)
      rw [show (s.addPage j ppn).obj s.made = new j ppn from
        update_self ..] at hup
      cases hup
    · have hj' : s.pages j = some o := (update_of_ne hji ..).symm.trans hj
      rw [hold o (hI.places.index j o hj').2] at hup ⊢
      exact h.page j o hj' hup
  · refine h.clean j fun o ho => ?_
    have hji : j ≠ i := by
      rintro rfl
      simp [hpage] at ho
    rw [← hold o (hI.places.index j o ho).2]
    exact hj o ((update_of_ne hji ..).trans ho)

theorem Content.remove (hclean : (s.obj o).dirty = false)
    (hpage : s.pages (s.obj o).index = some o) :
    Content { s with pages := update s.pages (s.obj o).index none } := by
  have hsub : ∀ i o', update s.pages (s.obj o).index none i = some o' → s.pages i = some o' := by
    intro i o' hi
    rcases eq_or_ne i ((s.obj o).index) with rfl | hio
    · simp at hi
    · exact (update_of_ne hio ..).symm.trans hi
  refine h.frame rfl rfl rfl rfl le_rfl rfl (fun i o' hi => h.page i o' (hsub i o' hi))
    (fun i hi => h.clean i fun o' ho' => ?_) (fun _ _ _ _ _ => rfl) fun _ _ _ _ _ => id
  rcases eq_or_ne i ((s.obj o).index) with rfl | hio
  · obtain rfl := some.inj (ho'.symm.trans hpage)
    exact hclean
  · exact hi o' ((update_of_ne hio ..).trans ho')

/-- The device fills the frames of pages that the thread loads. -/
theorem Content.fill (hI : Inv s) (hobj : ∀ o, obj o = s.obj o ∨
      o ∈ (s.pc t).loads ∧ ∃ bytes, obj o = { s.obj o with bytes := bytes })
    (hfresh : ∀ i o v get, .loaded i o v get ∉ (s.pc t).facts) : Content { s with obj := obj } := by
  have hstale : ∀ o, o ∈ (s.pc t).loads → (s.obj o).loading = true := hI.claims.loads.flagged t
  refine h.frame rfl rfl rfl rfl le_rfl rfl (fun i o hi hup => ?_) (fun i hi => ?_)
    (fun u g hg o ho => ?_) fun u g hg o ho => ?_
  · change (obj o).uptodate = true at hup
    show s.On i (obj o).Shows
    rcases hobj o with heq | ⟨hl, bytes, heq⟩
    · rw [heq] at hup ⊢
      exact h.page i o hi hup
    · rw [heq] at hup
      have hfalse := (hI.flags.sane o).stale (hstale o hl)
      exact absurd (hup.symm.trans hfalse) (by decide)
  · refine h.clean i fun o ho => ?_
    have hd : (obj o).dirty = false := hi o ho
    rcases hobj o with heq | ⟨-, bytes, heq⟩ <;> rw [heq] at hd <;> exact hd
  · rcases hobj o with heq | ⟨hl, -⟩
    · exact congrArg bytes heq
    rcases hI.of_frame hg ho with ⟨⟨i, v, rfl⟩, hlu⟩ | hfalse
    · -- no other thread loads the page, and this one has not read it yet
      obtain rfl := hI.claims.loads.unique u t o hlu hl
      exact absurd hg (hfresh i o v none)
    · exact absurd ((hstale o hl).symm.trans hfalse) (by decide)
  · show (obj o).redirtied = false → _
    rcases hobj o with heq | ⟨-, bytes, heq⟩ <;> rw [heq] <;> exact id

theorem Content.finish {c : ℕ × ObjId} {v pins : ℕ} {get : Option (ℕ → UInt8)} {up : Bool}
    (hI : Inv s) (hc : c ∈ (s.pc t).held) (hl : c.2 ∈ (s.pc t).loads)
    (hk : .loaded c.1 c.2 v get ∈ (s.pc t).facts)
    (hframe : get ≠ none → ∀ i o v, .loaded i o v none ∉ (s.pc t).facts) :
    Content (s.setObj c.2 { s.obj c.2 with
      bytes := (get.map (blit (s.obj c.2).bytes 0 v)).getD (s.obj c.2).bytes
      validBytes := v, loading := false, uptodate := up, pinCount := pins }) := by
  refine h.frame rfl rfl rfl rfl le_rfl rfl ?_ (fun i hi => ?_) (fun u g hg o ho => ?_)
    fun u g hg o ho => ?_
  · intro i
    refine setObj_cases (P := fun o q => s.pages i = some o → q.uptodate = true → s.On i q.Shows)
      (fun hi _ off b hw hidx => ?_) fun o _ => h.page i o
    have hic : c.1 = i := by
      rw [← (hI.places.index i c.2 hi).1, (hI.places.held_index hc).1]
    obtain ⟨hlt, hbyte⟩ := h.facts t _ hk off b hw (hidx.trans hic.symm)
    refine ⟨?_, hlt⟩
    cases get with
    | none => exact hbyte
    | some get => exact (blit_of_mem (Nat.zero_le _) (by omega)).trans hbyte
  · exact h.clean i fun o ho => (setObj_field dirty (by rfl) o).symm.trans (hi o ho)
  · rcases eq_or_ne o c.2 with rfl | hoc
    · rcases hI.of_frame hg ho with ⟨⟨i, v', rfl⟩, hlu⟩ | hfalse
      · obtain rfl := hI.claims.loads.unique u t c.2 hlu hl
        rw [setObj_obj_self]
        cases get with
        | none => rfl
        | some get => exact absurd hg (hframe nofun i c.2 v')
      · exact absurd ((hI.claims.loads.flagged t c.2 hl).symm.trans hfalse) (by decide)
    · rw [setObj_obj_of_ne hoc]
  · rw [setObj_field redirtied (by rfl) o]
    exact id

theorem Content.markPageDirty (hup : (s.obj o).uptodate = true) : Content (s.markPageDirty o) := by
  refine h.frame rfl rfl rfl rfl le_rfl rfl ?_ (fun i hi => ?_) (fun u g hg o' ho' => ?_) ?_
  · intro i
    refine setObj_cases (P := fun o q => s.pages i = some o → q.uptodate = true → s.On i q.Shows)
      (fun hi _ off b hw hidx => ?_) fun o' _ => h.page i o'
    exact (h.page i o hi hup off b hw hidx).markDirty
  · refine h.clean i fun o' ho' => ?_
    have hd := hi o' ho'
    rcases eq_or_ne o' o with rfl | hoo
    · rw [show (s.markPageDirty o').obj o' = _ from setObj_obj_self, markDirty_dirty] at hd
      cases hd
    · rwa [show (s.markPageDirty o).obj o' = _ from setObj_obj_of_ne hoo] at hd
  · exact setObj_field bytes (markDirty_bytes _) o'
  · intro u g hg
    refine setObj_cases (P := fun o q => g.flushed = some o → q.redirtied = false →
      (s.obj o).redirtied = false) (fun _ hr => ?_) fun _ _ _ => id
    unfold markDirty at hr
    split at hr
    · exact (Bool.or_eq_false_iff.mp hr).1
    · exact hr

theorem Content.beginFlush (hI : Inv s) (hwb : (s.obj o).writeback = false) :
    Content (s.setObj o (s.obj o).beginWriteback) := by
  refine h.frame rfl rfl rfl rfl le_rfl rfl ?_ (fun i hi => ?_) (fun u g hg o' ho' => ?_) ?_
  · intro i
    exact setObj_cases (P := fun o q => s.pages i = some o → q.uptodate = true → s.On i q.Shows)
      (h.page i o) fun o' _ => h.page i o'
  · exact h.clean i fun o' ho' => (setObj_field dirty (by rfl) o').symm.trans (hi o' ho')
  · exact setObj_field bytes (by rfl) o'
  · -- nobody was writing the page back
    intro u g hg
    refine setObj_cases (P := fun o q => g.flushed = some o → q.redirtied = false →
      (s.obj o).redirtied = false) (fun ho _ => ?_) fun _ _ _ => id
    exact absurd ((hI.of_flushed hg ho).2.1.symm.trans hwb) (by decide)

/-- A writeback leaves a page clean only if all that was written in it has reached the device. -/
theorem Content.endFlush {c : ℕ × ObjId} {ok : Bool} (hI : Inv s)
    (hc : c ∈ (s.pc t).held) (hk : .out c.1 c.2 time ok ∈ (s.pc t).facts) :
    Content (s.finishPageWriteback c.2 ok) := by
  have hfl := hI.of_flushes hc ((s.pc t).home _ hk).2
  refine h.frame rfl rfl rfl rfl le_rfl rfl ?_ (fun i hi => ?_) (fun u g hg o' ho' => ?_) ?_
  · intro i
    exact setObj_cases (P := fun o q => s.pages i = some o → q.uptodate = true → s.On i q.Shows)
      (h.page i c.2) fun o' _ => h.page i o'
  · rcases eq_or_ne i c.1 with rfl | hic
    · have hd := hi c.2 hfl.1
      rw [show (s.finishPageWriteback c.2 ok).obj c.2 = _ from setObj_obj_self] at hd
      change ((s.obj c.2).dirty && (s.obj c.2).staysDirty ok) = false at hd
      rw [hfl.2.2.1, Bool.true_and] at hd
      simp only [staysDirty, Bool.or_eq_false_iff, Bool.not_eq_false'] at hd
      obtain ⟨-, hcalm, hout⟩ := h.facts t _ hk
      exact fun off b hw hidx => hout hd.1.1 off b hw hidx (hcalm hd.2 off b hw hidx)
    · refine h.clean i fun o' ho' => ?_
      have hne : o' ≠ c.2 := by
        rintro rfl
        exact hic ((hI.places.index i _ ho').1.symm.trans (hI.places.held_index hc).1)
      rw [← show (s.finishPageWriteback c.2 ok).obj o' = _ from setObj_obj_of_ne hne]
      exact hi o' ho'
  · exact setObj_field bytes (by rfl) o'
  · intro u g hg
    exact setObj_cases (P := fun o q => g.flushed = some o → q.redirtied = false →
      (s.obj o).redirtied = false) (fun _ => id) fun _ _ _ => id

end

/-! ## A write to the device -/

/-- No thread has at once a page to write out and one that is out. -/
theorem Pc.not_took_of_out {time' v : ℕ} {ok : Bool} {i i' : ℕ} {o o' : ObjId}
    (p : Pc) (hout : .out i o time ok ∈ p.facts) : .took i' o' time' v data ∉ p.facts := by
  intro htook
  cases p with
  | flush o i k | flushWrite o i v time k =>
    cases k <;> simp [Pc.facts, FlushCaller.owes, SyncCall.owes] at hout
  | flushFinish o i time ok k =>
    cases k <;> cases ok <;> simp [Pc.facts, FlushCaller.owes, SyncCall.owes] at htook
  | batchFinish todo ok consumed y =>
    cases ok <;> simp [Pc.facts, SyncCall.owes, WritebackPage.out] at htook
  | _ => simp [Pc.facts, SyncCall.owes, WritebackPage.took, runFact] at hout

section Device

variable {f : File}

/-- What the device write of a thread makes of a byte that the file has. -/
theorem Content.has_of_writesTaken (h : Content s) (hf : s.WritesTaken (s.pc t) f)
    (hb : s.backing.Has off b) : f.Has off b ∨ ∃ o time v data,
      .took (filePageIndex off) o time v data ∈ (s.pc t).facts ∧ filePageOffset off < v ∧
        f.Has off (s.takenByte o data (filePageOffset off)) := by
  refine (hf off b hb).imp_right ?_
  rintro ⟨i, o, time, v, data, x, hg, hx, rfl, hhas⟩
  have hpage : x < pageSize := lt_of_lt_of_le hx (h.facts t _ hg).1
  rw [filePageIndex_of_mem hpage, filePageOffset_of_mem hpage]
  exact ⟨o, time, v, data, hg, hx, hhas⟩

/-- A byte that is safe stays so: no writeback has an older one. -/
theorem Content.safe_device (h : Content s) (hf : s.WritesTaken (s.pc t) f)
    (hw : s.written off = some b) (hsafe : s.Safe off b) :
    ({ s with backing := f } : State).Safe off b := by
  refine hsafe.mono rfl ?_ fun _ _ _ _ _ => .inl
  rcases h.has_of_writesTaken hf hsafe.1 with hhas | ⟨o, time, v, data, hg, hlt, hhas⟩
  · exact hhas
  · obtain ⟨-, -, -, hon⟩ := h.facts t _ hg
    rwa [(hon off b hw rfl (hsafe.2 t o time v data hg)).2] at hhas

theorem Content.device (h : Content s) (hI : Inv s) (hf : s.WritesTaken (s.pc t) f) :
    Content { s with backing := f } where
  __ := h
  clean := fun i hi off b hw hidx => by
    rcases h.has_of_writesTaken hf (h.clean i hi off b hw hidx) with hhas | ⟨o, time, v, data, hg, -⟩
    · exact hhas
    -- a clean page is not written back
    have hhome := (s.pc t).home _ hg
    obtain ⟨hpage, -, hd, -⟩ := hI.of_flushes hhome.1 hhome.2
    rw [hidx] at hpage
    exact absurd (hd.symm.trans (hi o hpage)) (by decide)
  facts := fun u g hg => by
    refine (h.facts u g hg).mono rfl rfl rfl (fun _ _ => rfl) (fun _ _ => id) ?_
      fun off b hw hsafe => h.safe_device hf hw hsafe
    rintro i o time rfl off b hidx hhas
    rcases h.has_of_writesTaken hf hhas with hhas | ⟨o', time', v, data, htook, -⟩
    · exact hhas
    -- the page is written back by one thread, which has nothing left to write of it
    rw [hidx] at htook
    have hhome := (s.pc t).home _ htook
    have hhome' := (s.pc u).home _ hg
    have hpage := (hI.of_flushes hhome.1 hhome.2).1
    have hpage' := (hI.of_flushes hhome'.1 hhome'.2).1
    obtain rfl := some.inj (hpage.symm.trans hpage')
    obtain rfl := hI.claims.flushes.unique u t o' hhome'.2 hhome.2
    exact absurd htook ((s.pc u).not_took_of_out hg)

/-- What a thread took is out, once it has been delivered. -/
theorem Content.has_of_delivered {o : ObjId} {v : ℕ}
    (h : Content s) (hg : .took (filePageIndex off) o time v data ∈ (s.pc t).facts)
    (hd : s.Delivered f (filePageIndex off) o v data) (hw : s.written off = some b)
    (hst : s.stamp off ≤ time) : f.Has off b := by
  obtain ⟨-, -, -, hon⟩ := h.facts t _ hg
  obtain ⟨hlt, hbyte⟩ := hon off b hw rfl hst
  have hhas := hd _ hlt
  rwa [pageStart_add_filePageOffset, hbyte] at hhas

theorem Delivers.holds (hg : Delivers s (s.pc t) f g) (h : Content s) (hI : Inv s)
    (hf : s.WritesTaken (s.pc t) f) : g.Holds { s with backing := f } := by
  cases hg with
  | out i o time v data ok htook hok =>
    obtain ⟨-, hclock, hcalm, -⟩ := h.facts t _ htook
    refine ⟨hclock, hcalm, fun htrue off b hw hidx hst => ?_⟩
    subst hidx
    exact h.has_of_delivered htook (hok htrue) hw hst
  | owes pending rest began howes hbegan hrest =>
    obtain ⟨hclock, hall⟩ := h.facts t _ howes
    refine ⟨hclock, fun off b hw hst => ?_⟩
    rcases hall off b hw hst with hp | hsafe
    · refine (hrest _ hp).imp_right ?_
      rintro ⟨o, time, v, data, htook, hd⟩
      refine ⟨h.has_of_delivered htook hd hw (le_trans hst (hbegan _ _ _ _ _ htook)), ?_⟩
      intro u o' time' v' data' htook'
      -- the other takings of the page are this thread's as well
      have hhome := (s.pc t).home _ htook
      have hhome' := (s.pc u).home _ htook'
      have hpage := (hI.of_flushes hhome.1 hhome.2).1
      have hpage' := (hI.of_flushes hhome'.1 hhome'.2).1
      obtain rfl := some.inj (hpage.symm.trans hpage')
      obtain rfl := hI.claims.flushes.unique u t o hhome'.2 hhome.2
      exact le_trans hst (hbegan _ _ _ _ _ htook')
    · exact .inr (h.safe_device hf hw hsafe)

end Device

/-! ## A store -/

section Store

variable {w : WriteCall} {m : ℕ}

theorem storeWrite_stamp (s : State) (o : ObjId) (m : ℕ) (w : WriteCall) (off : ℕ) :
    (s.storeWrite o m w).stamp off = if w.Covers off then s.clock + 1 else s.stamp off := rfl

variable {P Q : ℕ → UInt8 → Prop}

/-- What holds of the bytes written before and of the ones stored now. -/
theorem on_storeWrite (h : s.On i P)
    (hold : ∀ off b, s.written off = some b → filePageIndex off = i → ¬ w.Covers off → P off b →
      Q off b)
    (hnew : ∀ off, filePageIndex off = i → w.Covers off → Q off (w.src (off - w.fileOff))) :
    (s.storeWrite o m w).On i Q := by
  intro off b hw hidx
  rw [storeWrite_written] at hw
  split at hw
  next hcov =>
    cases hw
    exact hnew off hidx hcov
  next hcov =>
    exact hold off b hw hidx hcov (h off b hw hidx)

/-- The pages the iteration does not store in. -/
theorem on_storeWrite_of_ne (h : s.On i P) (hne : i ≠ w.pageIdx)
    (hPQ : ∀ off b, s.written off = some b → ¬ w.Covers off → P off b → Q off b) :
    (s.storeWrite o m w).On i Q :=
  on_storeWrite h (fun off b hw _ hcov => hPQ off b hw hcov) fun _ hidx hcov =>
    absurd (hidx.symm.trans (covers_page hcov).1) hne

theorem WriteCall.lt_of_covers (h : w.Covers off) : off < w.offset + w.buf.len := by
  obtain ⟨hle, hlt⟩ := h
  have hw : w.writable ≤ w.buf.len - w.done := min_le_right _ _
  unfold fileOff at hle hlt
  omega

/-- The page that a write stores in has its data already, or the write brings all of it. -/
def State.Completes (s : State) (o : ObjId) (w : WriteCall) : Prop :=
  (s.obj o).uptodate = true ∨ w.writable = pageSize ∨ s.backing.len ≤ pageStart w.pageIdx

/-- Then every byte written before that the store does not cover is shown by the page. -/
theorem Content.shows_of_completes (h : Content s) (hI : Inv s) (hpage : s.pages w.pageIdx = some o)
    (hcomp : s.Completes o w) (hw : s.written off = some b) (hidx : filePageIndex off = w.pageIdx)
    (hcov : ¬ w.Covers off) : (s.obj o).Shows off b := by
  by_cases hup : (s.obj o).uptodate = true
  · exact h.page _ o hpage hup off b hw hidx
  rcases hcomp with hup' | hfull | hlen
  · exact absurd hup' hup
  · -- a store of a whole page covers it
    have hlt := filePageOffset_lt off
    have hle : w.writable ≤ pageSize - w.pageOff := min_le_left _ _
    exact absurd (by omega) (not_covers_page hcov hidx)
  · -- the page is clean, so what was written in it is in the backing file
    have hhas := h.clean w.pageIdx (fun o' ho' => ?_) off b hw hidx
    · have hle : pageStart w.pageIdx ≤ off := by
        rw [← hidx, ← pageStart_add_filePageOffset off, filePageIndex_of_mem (filePageOffset_lt _)]
        exact Nat.le_add_right _ _
      have hlt := hhas.1
      omega
    · obtain rfl := some.inj (ho'.symm.trans hpage)
      rw [← Bool.not_eq_true]
      exact fun hd => hup ((hI.flags.sane o').fresh hd)

theorem markDirty_redirtied (hd : q.dirty = true) (hwb : q.writeback = true) :
    q.markDirty.redirtied = true := by
  unfold markDirty
  rw [if_pos hd]
  rw [hwb, Bool.or_true]

/-- What another thread has learnt stays true when a write stores. -/
theorem Fact.Holds.store (hg : g ∈ (s.pc u).facts) (h : g.Holds s) (hI : Inv s)
    (hpage : s.pages w.pageIdx = some o) (hload : (s.obj o).loading = false) :
    g.Holds (s.storeWrite o m w) := by
  have hhome := (s.pc u).home g hg
  have hobj : (s.storeWrite o m w).obj = update s.obj o _ := storeWrite_obj s o m w
  -- a page that is being loaded is not the one that is stored in
  have hne : ∀ {i o'}, (i, o') ∈ (s.pc u).held → o' ∈ (s.pc u).loads → i ≠ w.pageIdx ∧ o' ≠ o := by
    intro i o' hc ho'
    obtain ⟨hi, hl, -⟩ := hI.of_loads hc ho'
    have hoo : o' ≠ o := by
      rintro rfl
      exact absurd (hl.symm.trans hload) (by decide)
    refine ⟨?_, hoo⟩
    rintro rfl
    exact hoo (some.inj (hi.symm.trans hpage))
  -- a page that is being written back is dirtied again, or it is another page
  have hcalm : ∀ {i o' time}, (i, o') ∈ (s.pc u).held → o' ∈ (s.pc u).flushes → s.Calm i o' time →
      (s.storeWrite o m w).Calm i o' time := by
    intro i o' time hc ho' hcalm hred
    obtain ⟨hi, hwb, hd, -⟩ := hI.of_flushes hc ho'
    rcases eq_or_ne o' o with rfl | hoo
    · rw [hobj, update_self, markDirty_redirtied] at hred
      · cases hred
      · exact hd
      · exact hwb
    · rw [hobj, update_of_ne hoo] at hred
      refine on_storeWrite_of_ne (hcalm hred) ?_ fun off b _ hcov hle => ?_
      · rintro rfl
        exact hoo (some.inj (hi.symm.trans hpage))
      · rwa [storeWrite_stamp, if_neg hcov]
  cases g with
  | sized i v =>
    obtain ⟨o', hc, ho'⟩ := hhome
    exact on_storeWrite_of_ne h (hne hc ho').1 fun _ _ _ _ => id
  | loaded i o' v get =>
    obtain ⟨hi, hoo⟩ := hne hhome.1 hhome.2
    refine on_storeWrite_of_ne h hi fun off b _ _ hb => ?_
    rwa [hobj, update_of_ne hoo]
  | took i o' time v data =>
    obtain ⟨hv, hclock, hcalm', hon⟩ := h
    refine ⟨hv, Nat.le_succ_of_le hclock, hcalm hhome.1 hhome.2 hcalm', ?_⟩
    refine on_storeWrite hon (fun off b hw hidx hcov hb hst => ?_) fun off _ hcov hst => ?_
    · rw [storeWrite_stamp, if_neg hcov] at hst
      cases data with
      | some data => exact hb hst
      | none =>
        refine ⟨(hb hst).1, Eq.trans ?_ (hb hst).2⟩
        show ((s.storeWrite o m w).obj o').bytes _ = (s.obj o').bytes _
        rcases eq_or_ne o' o with rfl | hoo
        · have hi : i = w.pageIdx :=
            (hI.places.held_index hhome.1).1.symm.trans (hI.places.index _ _ hpage).1
          rw [hobj, update_self, markDirty_bytes]
          exact blit_of_not_mem (not_covers_page hcov (hidx.trans hi))
        · rw [hobj, update_of_ne hoo]
    · rw [storeWrite_stamp, if_pos hcov] at hst
      omega
  | out i o' time ok =>
    obtain ⟨hclock, hcalm', hon⟩ := h
    refine ⟨Nat.le_succ_of_le hclock, hcalm hhome.1 hhome.2 hcalm', fun hok => ?_⟩
    refine on_storeWrite (hon hok) (fun off b hw hidx hcov hb hst => ?_) fun off _ hcov hst => ?_
    · rw [storeWrite_stamp, if_neg hcov] at hst
      exact hb hst
    · rw [storeWrite_stamp, if_pos hcov] at hst
      omega
  | owes pending began =>
    obtain ⟨hclock, hall⟩ := h
    refine ⟨Nat.le_succ_of_le hclock, fun off b hw hst => ?_⟩
    rw [storeWrite_written] at hw
    rw [storeWrite_stamp] at hst
    split at hw
    next hcov =>
      rw [if_pos hcov] at hst
      omega
    next hcov =>
      rw [if_neg hcov] at hst
      refine (hall off b hw hst).imp_right fun hsafe => ⟨hsafe.1, fun u' o' time v data hg' => ?_⟩
      rw [storeWrite_stamp, if_neg hcov]
      exact hsafe.2 u' o' time v data hg'
  | _ => trivial

theorem Content.store (h : Content s) (hI : Inv s) (hp : s.pc t = .writeStore o m w)
    (hload : (s.obj o).loading = false) (hcomp : s.Completes o w) :
    Content (s.storeWrite o m w) := by
  have hheld : (w.pageIdx, o) ∈ (s.pc t).held := by rw [hp]; exact .head _
  have hpage := (hI.places.held t _ hheld).1
  have hindex : (s.obj o).index = w.pageIdx := (hI.places.held_index hheld).1
  have hfits : w.offset + w.buf.len ≤ m ∧ w.offset + w.buf.len ≤ s.size := by
    have hfits := hI.fits t
    rwa [hp] at hfits
  have hobj := storeWrite_obj s o m w
  -- the other pages are elsewhere
  have hother : ∀ i o', s.pages i = some o' → o' ≠ o → i ≠ w.pageIdx := by
    rintro i o' hi hne rfl
    exact hne (some.inj (hi.symm.trans hpage))
  refine ⟨fun off b hw => ?_, fun off => ?_, fun i o' hi hup => ?_, fun i hi => ?_,
    fun u g hg => (h.facts u g hg).store hg hI hpage hload⟩
  · rw [storeWrite_written] at hw
    split at hw
    next hcov =>
      exact lt_of_lt_of_le (lt_of_covers hcov) hfits.2
    · exact h.room off b hw
  · rw [storeWrite_stamp]
    split
    · exact le_rfl
    · exact Nat.le_succ_of_le (h.stamps off)
  · rcases eq_or_ne o' o with rfl | hoo
    · obtain rfl : w.pageIdx = i := hindex.symm.trans (hI.places.index i o' hi).1
      rw [hobj, update_self]
      refine on_storeWrite (fun _ _ _ _ => trivial)
        (fun off b hw hidx hcov _ => ?_) fun off _ hcov => ?_
      · have hshows := h.shows_of_completes hI hpage hcomp hw hidx hcov
        exact (shows_store_of_not_covers hidx hcov hshows).markDirty
      · exact (shows_store_of_covers hindex hcov hfits.1).markDirty
    · rw [hobj, update_of_ne hoo] at hup ⊢
      exact on_storeWrite_of_ne (h.page i o' hi hup) (hother i o' hi hoo) fun _ _ _ _ => id
  · have hne : i ≠ w.pageIdx := by
      rintro rfl
      have hd := hi o hpage
      rw [hobj, update_self, markDirty_dirty] at hd
      cases hd
    refine on_storeWrite_of_ne (h.clean i fun o' ho' => ?_) hne fun _ _ _ _ => id
    have hd := hi o' ho'
    rwa [hobj, update_of_ne] at hd
    rintro rfl
    exact hne ((hI.places.index i _ ho').1.symm.trans hindex)

end Store

/-! ## Every section -/

/-- A page that is absent or not dirty has all its bytes in the backing file, for good. -/
theorem Content.safe_of_clean (h : Content s) (hI : Inv s)
    (hclean : ∀ o, s.pages (filePageIndex off) = some o → (s.obj o).dirty = false)
    (hw : s.written off = some b) : s.Safe off b := by
  refine ⟨h.clean _ hclean off b hw rfl, fun u o time v data hg => ?_⟩
  have hhome := (s.pc u).home _ hg
  obtain ⟨hpage, -, hd, -⟩ := hI.of_flushes hhome.1 hhome.2
  exact absurd (hd.symm.trans (hclean o hpage)) (by decide)

theorem Notices.holds (hg : Notices s (s.pc t) g) (h : Content s) (hI : Inv s) : g.Holds s := by
  cases hg with
  | size c hc hl =>
    intro off b hw hidx
    rw [← hidx]
    exact filePageOffset_lt_valid (h.room off b hw)
  | clean i rest began howes hclean =>
    obtain ⟨hclock, hall⟩ := h.facts t _ howes
    refine ⟨hclock, fun off b hw hst => ?_⟩
    rcases hall off b hw hst with hp | hsafe
    · rcases List.mem_cons.mp hp with rfl | hp
      · refine .inr (h.safe_of_clean hI (fun o ho => ?_) hw)
        rcases hclean with hnone | ⟨o', hheld, hd⟩
        · exact absurd (hnone.symm.trans ho) nofun
        · obtain rfl := some.inj ((hI.places.held t _ hheld).1.symm.trans ho)
          exact hd
      · exact .inl hp
    · exact .inr hsafe
  | dirty =>
    refine ⟨le_rfl, fun off b hw _ => ?_⟩
    by_cases hmem : filePageIndex off ∈ s.dirtyPages
    · exact .inl hmem
    · refine .inr (h.safe_of_clean hI (fun o ho => ?_) hw)
      rw [← Bool.not_eq_true]
      exact fun hd => hmem (hI.flags.listed _ o ho hd)

theorem Transfers.holds (hg : Transfers s e (s.pc t) obj g)
    (h : Content s) (hI : Inv s) (hall : (s.pc t).ReadsAll s e) :
    g.Holds { s with obj := obj } := by
  cases hg with
  | mk c v₀ v get hc hl hsized hread =>
    intro off b hw hidx
    obtain ⟨hpage, -, -, hd⟩ := hI.of_loads hc hl
    have hclean : ∀ o, s.pages c.1 = some o → (s.obj o).dirty = false := by
      intro o ho
      obtain rfl := some.inj (hpage.symm.trans ho)
      exact hd
    have hhas := h.clean c.1 hclean off b hw hidx
    have hoff : pageStart c.1 + filePageOffset off = off := by
      rw [← hidx]
      exact pageStart_add_filePageOffset off
    have hbyte := hread hall (filePageOffset off) (h.facts t _ hsized off b hw hidx)
      (by rw [hoff]; exact hhas.1)
    rwa [hoff, hhas.2] at hbyte

/-- What a section has to meet for the bytes of the writes to stay. -/
structure Whole (s : State) (e : Env) (t : ThreadId) : Prop where
  reads : (s.pc t).ReadsAll s e
  stores : ∀ o m w, s.pc t = .writeStore o m w → s.Completes o w

theorem Content.effect (h : Content s) (hI : Inv s) (hwhole : Whole s e t)
    (he : Effect s e (s.pc t) p' s₁) : Content (s₁.goto t p') := by
  cases he with
  | quiet learnt hl hm =>
    exact h.goto hm (fun g hg => (hl g hg).holds h hI) fun _ _ _ _ _ hg => nomatch hl _ hg
  | choose o hp hp' =>
    subst hp'
    have hm : (s.pc t).Moves (.reclaimDecide o) [] [] [] [] [.decide o] s.size s.clock :=
      ⟨nofun, .refl _, .refl _, rfl, fun g hg => .inl hg, trivial⟩
    refine h.goto hm ?_ ?_
    · exact fun g hg => by rw [List.mem_singleton.mp hg]; trivial
    · exact fun _ _ _ _ _ hg => nomatch List.mem_singleton.mp hg
  | grow n hn hm => exact (h.grow hn).keeps hm
  | find c hpage hev hm => exact h.goto hm nofun nofun
  | pick o learnt ho hm =>
    have hready : ∀ g ∈ learnt, g = .ready o := by
      rcases ho with ⟨-, -, rfl⟩ | ⟨-, rfl⟩
      · exact nofun
      · exact fun g hg => List.mem_singleton.mp hg
    refine h.goto hm (fun g hg => ?_) fun _ _ _ _ _ hg => nomatch hready _ hg
    rw [hready g hg]
    trivial
  | make i ppn hpage hm => exact (h.addPage hI hpage).goto hm nofun nofun
  | touch o b learnt hl hm =>
    refine Content.goto (h.setObj rfl rfl rfl rfl rfl) hm (fun g hg => ?_)
      fun _ _ _ _ _ hg => nomatch (hl _ hg).1
    rw [(hl g hg).1]
    trivial
  | beginLoad c b hc hload hup hm =>
    exact Content.goto (h.setObj rfl rfl rfl rfl rfl) hm nofun nofun
  | fill obj hobj learnt hl hfresh hm =>
    exact (h.fill hI hobj hfresh).goto hm (fun g hg => (hl g hg).holds h hI hwhole.reads)
      fun _ _ _ _ _ hg => nomatch hl _ hg
  | finish c v pins get b hc hv hk hframe learnt hg hl hm =>
    have hload : c.2 ∈ (s.pc t).loads := hl.mem_iff.mpr (.head _)
    refine (h.finish hI hc hload hk hframe).goto hm (fun g hgl => ?_)
      fun _ _ _ _ _ hgl => nomatch (hg _ hgl).1
    rw [(hg g hgl).1]
    trivial
  | store o m w hp hload hm => exact (h.store hI hp hload (hwhole.stores o m w hp)).keeps hm
  | dirty c hc hg hm => exact (h.markPageDirty (hI.flags.ready t c.2 hg)).keeps hm
  | retain c hc hg hm | release o ho hm => exact Content.keeps (h.setObj rfl rfl rfl rfl rfl) hm
  | beginFlush c hc hwb hd learnt hl hm =>
    refine (h.beginFlush hI hwb).goto hm (fun g hg => ?_) fun i o time v data hg => ?_
    · -- the page has data, so it shows all that was written in it
      obtain ⟨data, rfl, hdata⟩ := hl g hg
      have hup := (hI.flags.sane c.2).fresh hd
      have hshows := h.page c.1 c.2 (hI.places.held t c hc).1 hup
      refine ⟨hI.bounded c.2, le_rfl, fun _ off _ _ _ => h.stamps off, fun off b hw hidx _ => ?_⟩
      obtain ⟨hbyte, hlt⟩ := hshows off b hw hidx
      refine ⟨hlt, ?_⟩
      cases data with
      | some d => rwa [hdata d rfl]
      | none =>
        show ((s.setObj c.2 _).obj c.2).bytes _ = b
        rwa [setObj_obj_self]
    · obtain ⟨data', heq, -⟩ := hl _ hg
      exact (Fact.took.inj heq).2.2.1
  | device f hf learnt hl hout hm =>
    exact (h.device hI hf).goto hm (fun g hg => (hl g hg).holds h hI hf)
      fun _ _ _ _ _ hg => nomatch hl _ hg
  | endFlush c time ok hc hk hf hm => exact (h.endFlush hI hc hk).goto hm nofun nofun
  | mark o hp hev hfree hm => exact Content.goto (h.setObj rfl rfl rfl rfl rfl) hm nofun nofun
  | remove o hp hpage hm =>
    have hd := (hI.places.evicted t o (hp ▸ .head _)).2.1
    exact (h.remove hd hpage).goto hm nofun nofun
  | giveUp o hp hpage hp' => exact absurd (hI.places.evicted t o (hp ▸ .head _)).1 hpage
  | restore o hp hm => exact absurd (hp ▸ .head _) (hI.places.restores t o)

end CosmOS.PageCache
