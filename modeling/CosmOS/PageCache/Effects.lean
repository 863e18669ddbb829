import CosmOS.Exclusive
import CosmOS.PageCache.System

/-!
# PageCache.Effects — what one section does to the cache

A thread between two sections has some pages in its hands, is the loader of some, writes some back
and may be evicting one (`Pc.held`, `Pc.loads`, `Pc.flushes`, `Pc.evicts`), and it relies on some
facts it has learnt (`Pc.facts`).  `Effect` lists what a section can do to the shared state and to
these lists.  The invariants are proved over `Effect`.

`Careful` is what the code leaves to luck: that a lookup does not find a page that is being
evicted, that a page is evicted only when no thread has it in its hands, and that a write does not
store in a page that is being loaded.
-/

namespace CosmOS.PageCache

/-! ## What a thread has in its hands -/

/-- The pages the caller has, besides the one it asks for. -/
def Caller.kept : Caller → List (ℕ × ObjId)
  | .range g => g.candidates
  | _ => []

def WritebackPage.entry (w : WritebackPage) : ℕ × ObjId := (w.pageIdx, w.page)

/-- The pages a thread has in its hands, with the index it believes them at. -/
def Pc.held : Pc → List (ℕ × ObjId)
  | .writeTest o w | .writeSize o w | .writeStore o _ w => [(w.pageIdx, o)]
  | .lookup k | .insert k => k.kept
  | .ensure o k | .loadSize o k | .loadRead o _ k | .loadFinish o _ _ k => (k.pageIdx, o) :: k.kept
  | .readHit o offset _ _ => [(filePageIndex offset, o)]
  | .readCopy o r => [(r.pageIdx, o)]
  | .rangeHead g => g.candidates
  | .rangeMark o g => (g.next, o) :: g.candidates
  | .runs candidates _ => candidates
  | .runSize run rest _ | .runRead run rest _ _ => run ++ rest
  | .runFinish todo rest _ _ _ _ _ => todo ++ rest
  | .faultDirty o i | .retain o i | .markDirty o i => [(i, o)]
  | .collect _ batch | .batchWrite _ batch | .batchFinish batch _ _ _ =>
    batch.map WritebackPage.entry
  | .collectPage o i _ batch => (i, o) :: batch.map WritebackPage.entry
  | .flush o i _ | .flushWrite o i _ _ _ | .flushFinish o i _ _ _ => [(i, o)]
  | _ => []

/-- The pages a thread has marked `LOADING`. -/
def Pc.loads : Pc → List ObjId
  | .lookup k | .insert k | .ensure _ k => k.kept.map Prod.snd
  | .loadSize o k | .loadRead o _ k | .loadFinish o _ _ k => o :: k.kept.map Prod.snd
  | .rangeHead g | .rangeMark _ g => g.candidates.map Prod.snd
  | .runs candidates _ => candidates.map Prod.snd
  | .runSize run rest _ | .runRead run rest _ _ => (run ++ rest).map Prod.snd
  | .runFinish todo rest _ _ _ _ _ => (todo ++ rest).map Prod.snd
  | _ => []

/-- The pages a thread has marked `WRITEBACK`. -/
def Pc.flushes : Pc → List ObjId
  | .collect _ batch | .collectPage _ _ _ batch | .batchWrite _ batch | .batchFinish batch _ _ _ =>
    batch.map WritebackPage.page
  | .flushWrite o _ _ _ _ | .flushFinish o _ _ _ _ => [o]
  | _ => []

/-- The page a thread has marked `EVICTING`. -/
def Pc.evicts : Pc → List ObjId
  | .reclaimRemove o => [o]
  | _ => []

/-- What a thread relies on between two sections.

* `decide`, `restore`, `ready`: the page exists, was taken for lost, has data.
* `sized i v`: the bytes written in the page `i` lie below `v`.
* `loaded i o v get`: the `v` bytes that a load publishes in the page, from a buffer or its frame.
* `took i o time v data`: the `v` bytes a writeback took, as a copy or by reference to the frame.
* `out i o time ok`: that writeback has reached the device.
* `owes pending began`: the pages a sync that began then still has to bring out. -/
inductive Fact where
  | decide (o : ObjId)
  | restore (o : ObjId)
  | ready (o : ObjId)
  | sized (i v : ℕ)
  | loaded (i : ℕ) (o : ObjId) (v : ℕ) (get : Option (ℕ → UInt8))
  | took (i : ℕ) (o : ObjId) (time v : ℕ) (data : Option (ℕ → UInt8))
  | out (i : ℕ) (o : ObjId) (time : ℕ) (ok : Bool)
  | owes (pending : List ℕ) (began : ℕ)

def SyncCall.owes (y : SyncCall) (n : ℕ) : Fact := .owes (y.dirtyPages.drop n) y.began

/-- What a sync owes that waits for `flush_page`, with `n` pages behind it. -/
def FlushCaller.owes (n : ℕ) : FlushCaller → List Fact
  | .sync y => [y.owes n]
  | .reclaim => []

def WritebackPage.took (w : WritebackPage) : Fact :=
  .took w.pageIdx w.page w.time w.validBytes (some w.data)

def WritebackPage.out (ok : Bool) (w : WritebackPage) : Fact := .out w.pageIdx w.page w.time ok

/-- The page `c` of a run whose first index is `first`, once `read` bytes of it have come. -/
def runFact (first fileSize read : ℕ) (buffered : Option (Slice UInt8)) (c : ℕ × ObjId) : Fact :=
  let pageOffset := (c.1 - first) * pageSize
  .loaded c.1 c.2 (CachePage.runValid (pageValidBytesForSize fileSize c.1) pageOffset read buffered)
    (buffered.map fun buffer x => buffer.get (pageOffset + x))

def Pc.facts : Pc → List Fact
  | .reclaimDecide o => [.decide o]
  | .reclaimRestore o => [.restore o]
  | .readCopy o _ | .faultDirty o _ | .retain o _ | .markDirty o _ => [.ready o]
  | .loadRead _ v k => [.sized k.pageIdx v]
  | .loadFinish o v r k => [.loaded k.pageIdx o (max v r) none]
  | .runRead run _ fileSize _ =>
    run.map fun c => .sized c.1 (pageValidBytesForSize fileSize c.1)
  | .runFinish todo _ first fileSize read buffered _ =>
    todo.map (runFact first fileSize read buffered)
  | .collect y batch | .collectPage _ _ y batch | .batchWrite y batch =>
    y.owes 0 :: batch.map WritebackPage.took
  | .batchFinish todo ok consumed y =>
    (if ok then [y.owes (max consumed 1)] else []) ++ todo.map (WritebackPage.out ok)
  | .synced began => [.owes [] began]
  | .flush _ _ k => k.owes 0
  | .flushWrite o i v time k => .took i o time v none :: k.owes 0
  | .flushFinish o i time ok k => .out i o time ok :: if ok then k.owes 1 else []
  | _ => []

def Caller.writeEnd : Caller → ℕ
  | .write w => w.offset + w.buf.len
  | _ => 0

/-- The pages of a batch follow each other as in the list of the sync, and all but the
last `last` ones are full. -/
structure SyncCall.Laid (y : SyncCall) (batch : List WritebackPage) (last : ℕ) : Prop where
  index : ∀ k w, batch[k]? = some w → y.dirtyPages[k]? = some w.pageIdx ∧
    ∃ first, y.dirtyPages.head? = some first ∧ w.pageIdx = first + k
  full : ∀ k w, batch[k]? = some w → k + last < batch.length → w.validBytes = pageSize
  bounded : ∀ w ∈ batch, w.validBytes ≤ pageSize ∧ y.began ≤ w.time

/-- The indices of a run lie between its first and its last. -/
def OrderedRun {α : Type*} (idx : α → ℕ) (run : List α) : Prop :=
  ∀ c ∈ run, (∀ a ∈ run.head?, idx a ≤ idx c) ∧ ∀ z ∈ run.getLast?, idx c ≤ idx z

/-- The page that `flush_page` works on is the next one of the sync that called it. -/
def FlushCaller.Flushes (i time : ℕ) : FlushCaller → Prop
  | .sync y => y.dirtyPages.head? = some i ∧ y.began ≤ time
  | .reclaim => True

/-- A write past its second section has made the file long enough, and knows so when it stores; the
sizes a loader works with are at most a page; a sync is where its list says. -/
def Pc.Fits (size clock : ℕ) : Pc → Prop
  | .writeHead w | .writeTest _ w | .writeSize _ w => w.offset + w.buf.len ≤ size
  | .writeStore _ m w => w.offset + w.buf.len ≤ m ∧ w.offset + w.buf.len ≤ size
  | .lookup k | .insert k | .ensure _ k | .loadSize _ k => k.writeEnd ≤ size
  | .loadRead _ v k => k.writeEnd ≤ size ∧ v ≤ pageSize
  | .loadFinish _ v r k => k.writeEnd ≤ size ∧ max v r ≤ pageSize
  | .runSize run _ _ | .runRead run _ _ _ => OrderedRun Prod.fst run
  | .collect y batch => y.began ≤ clock ∧ y.Laid batch 0
  | .collectPage _ i y batch => y.began ≤ clock ∧ y.Laid batch 0 ∧
      y.dirtyPages[batch.length]? = some i ∧
      ∃ first, y.dirtyPages.head? = some first ∧ i = first + batch.length
  | .batchWrite y batch => y.began ≤ clock ∧ y.Laid batch 1 ∧ batch ≠ []
  | .batchFinish _ _ _ y => y.began ≤ clock
  | .flush _ i k => k.Flushes i clock
  | .flushWrite _ i _ time k => k.Flushes i time ∧ time ≤ clock
  | .flushFinish _ i time _ k => k.Flushes i time ∧ time ≤ clock
  | _ => True

theorem FlushCaller.Flushes.mono {k : FlushCaller} {i time time' : ℕ} (h : k.Flushes i time)
    (hle : time ≤ time') : k.Flushes i time' := by
  cases k with
  | sync y => exact ⟨h.1, le_trans h.2 hle⟩
  | reclaim => trivial

theorem Pc.Fits.mono {p : Pc} {size size' clock clock' : ℕ} (h : p.Fits size clock)
    (hle : size ≤ size') (hclock : clock ≤ clock') : p.Fits size' clock' := by
  cases p with
  | writeHead | writeTest | writeSize | lookup | insert | ensure | loadSize =>
    exact le_trans h hle
  | writeStore => exact ⟨h.1, le_trans h.2 hle⟩
  | loadRead | loadFinish => exact ⟨le_trans h.1 hle, h.2⟩
  | collect | collectPage | batchWrite => exact ⟨le_trans h.1 hclock, h.2⟩
  | batchFinish => exact le_trans h hclock
  | flush => exact FlushCaller.Flushes.mono h hclock
  | flushWrite | flushFinish => exact ⟨h.1, le_trans h.2 hclock⟩
  | runSize | runRead => exact h
  | _ => trivial

/-- The indices that the next section of a thread looks up. -/
def Pc.looksUp : Pc → List ℕ
  | .lookup k | .insert k => [k.pageIdx]
  | .readHitLookup offset _ => [filePageIndex offset]
  | .collect y batch => (y.dirtyPages[batch.length]?).toList
  | _ => []

/-- `reclaim_one` goes on to evict the page. -/
def CachePage.evictable (p : CachePage) : Bool := !p.busy && !p.refBit && !p.dirty

/-- What the next section of the thread `t` relies on. -/
structure Careful (s : State) (t : ThreadId) : Prop where
  finds : ∀ i ∈ (s.pc t).looksUp, ∀ o, s.pages i = some o → (s.obj o).evicting = false
  evicts : ∀ o, s.pc t = .reclaimDecide o → (s.obj o).evictable = true →
    ∀ u, ∀ c ∈ (s.pc u).held, c.2 ≠ o
  stores : ∀ o m w, s.pc t = .writeStore o m w → (s.obj o).loading = false

variable (s : State)

/-- Every section is taken where it is careful. -/
def Sound (l : Label) : Prop := ∀ t e, l = .run t e → Careful s t

/-! ## The effects -/

/-- How the lists of a thread change: the pages it finds, what it loads, writes back and evicts
afterwards, and what it learns; and the file size and the clock its new position fits. -/
structure Pc.Moves (p p' : Pc) (found : List (ℕ × ObjId)) (loads flushes evicts : List ObjId)
    (learnt : List Fact) (size clock : ℕ) : Prop where
  held : ∀ c ∈ p'.held, c ∈ found ∨ c ∈ p.held
  loads : p'.loads.Perm loads
  flushes : p'.flushes.Perm flushes
  evicts : p'.evicts = evicts
  facts : ∀ g ∈ p'.facts, g ∈ learnt ∨ g ∈ p.facts
  fits : p'.Fits size clock

/-- The thread takes, leaves and learns nothing. -/
abbrev Pc.Keeps (p p' : Pc) (size clock : ℕ) : Prop :=
  p.Moves p' [] p.loads p.flushes p.evicts [] size clock

/-- What a section learns by looking: the size of the file, that a page of a sync is not dirty, the
dirty pages. -/
inductive Notices (s : State) (p : Pc) : Fact → Prop
  | size (c : ℕ × ObjId) (hc : c ∈ p.held) (hl : c.2 ∈ p.loads) :
      Notices s p (.sized c.1 (pageValidBytesForSize s.size c.1))
  | clean (i : ℕ) (rest : List ℕ) (began : ℕ) (h : .owes (i :: rest) began ∈ p.facts)
      (hclean : s.pages i = none ∨ ∃ o, (i, o) ∈ p.held ∧ (s.obj o).dirty = false) :
      Notices s p (.owes rest began)
  | dirty : Notices s p (.owes s.dirtyPages s.clock)

/-- The read that a thread is about to make brings every byte the device has. -/
def Pc.ReadsAll (e : Env) : Pc → Prop
  | .loadRead _ v k => s.backing.present (pageStart k.pageIdx) v ≤ e.count
  | .runRead run _ fileSize _ =>
    ∀ c ∈ run.head?, ∀ d ∈ run.getLast?, s.backing.present (pageStart c.1)
      (min fileSize (pageStart d.1 + pageSize) - pageStart c.1) ≤ e.count
  | _ => True

/-- A read has brought the bytes of a page into its frame or into a buffer. -/
inductive Transfers (s : State) (e : Env) (p : Pc) (obj : ObjId → CachePage) : Fact → Prop
  | mk (c : ℕ × ObjId) (v₀ v : ℕ) (get : Option (ℕ → UInt8)) (hc : c ∈ p.held) (hl : c.2 ∈ p.loads)
      (hsized : .sized c.1 v₀ ∈ p.facts)
      (hread : p.ReadsAll s e → ∀ x, x < v₀ → pageStart c.1 + x < s.backing.len →
        x < v ∧ get.getD (obj c.2).bytes x = s.backing.byte (pageStart c.1 + x)) :
      Transfers s e p obj (.loaded c.1 c.2 v get)

/-- The bytes that a writeback took, as a copy or by reference to the frame. -/
def State.takenByte (o : ObjId) (data : Option (ℕ → UInt8)) : ℕ → UInt8 :=
  data.getD (s.obj o).bytes

/-- The bytes a writeback took are in the file `f`. -/
def State.Delivered (f : File) (i : ℕ) (o : ObjId) (v : ℕ)
    (data : Option (ℕ → UInt8)) : Prop :=
  ∀ x, x < v → f.Has (pageStart i + x) (s.takenByte o data x)

/-- What a write to the device makes of the promises of a thread. -/
inductive Delivers (s : State) (p : Pc) (f : File) : Fact → Prop
  | out (i : ℕ) (o : ObjId) (time v : ℕ) (data : Option (ℕ → UInt8)) (ok : Bool)
      (h : .took i o time v data ∈ p.facts) (hok : ok = true → s.Delivered f i o v data) :
      Delivers s p f (.out i o time ok)
  | owes (pending rest : List ℕ) (began : ℕ) (h : .owes pending began ∈ p.facts)
      (hbegan : ∀ i o time v data, .took i o time v data ∈ p.facts → began ≤ time)
      (hrest : ∀ i ∈ pending, i ∈ rest ∨ ∃ o time v data, .took i o time v data ∈ p.facts ∧
        s.Delivered f i o v data) : Delivers s p f (.owes rest began)

/-- A write to the device changes only what its thread took. -/
def State.WritesTaken (p : Pc) (f : File) : Prop :=
  ∀ off b, s.backing.Has off b → f.Has off b ∨
    ∃ i o time v data x, .took i o time v data ∈ p.facts ∧ x < v ∧ off = pageStart i + x ∧
      f.Has off (s.takenByte o data x)

/-- What a section of a thread at `p`, which goes on at `p'`, makes of the shared state. -/
inductive Effect (s : State) (e : Env) (p p' : Pc) : State → Prop
  | quiet (learnt : List Fact) (hl : ∀ g ∈ learnt, Notices s p g)
      (h : p.Moves p' [] p.loads p.flushes p.evicts learnt s.size s.clock) : Effect s e p p' s
  | choose (o : ObjId) (hp : p = .idle) (hp' : p' = .reclaimDecide o) (ho : o < s.made) :
      Effect s e p p' s
  | grow (n : ℕ) (hn : s.size ≤ n) (h : p.Keeps p' n s.clock) : Effect s e p p' { s with size := n }
  | find (c : ℕ × ObjId) (hpage : s.pages c.1 = some c.2) (hev : (s.obj c.2).evicting = false)
      (h : p.Moves p' [c] p.loads p.flushes p.evicts [] s.size s.clock) : Effect s e p p' s
  | pick (o : ObjId) (learnt : List Fact) (ho : p = .reclaimDecide o ∧
      (s.obj o).evicting = false ∧ learnt = [] ∨ 0 < (s.obj o).mapCount ∧ learnt = [.ready o])
      (h : p.Moves p' [((s.obj o).index, o)] p.loads p.flushes p.evicts learnt s.size s.clock) :
      Effect s e p p' s
  | make (i ppn : ℕ) (hpage : s.pages i = none)
      (h : p.Moves p' [(i, s.made)] p.loads p.flushes p.evicts [] s.size s.clock) :
      Effect s e p p' (s.addPage i ppn)
  | touch (o : ObjId) (b : Bool) (learnt : List Fact)
      (hl : ∀ g ∈ learnt, g = .ready o ∧ (s.obj o).uptodate = true)
      (h : p.Moves p' [] p.loads p.flushes p.evicts learnt s.size s.clock) :
      Effect s e p p' (s.setObj o { s.obj o with refBit := b })
  | beginLoad (c : ℕ × ObjId) (b : Bool) (hc : c ∈ p.held) (hload : (s.obj c.2).loading = false)
      (hup : (s.obj c.2).uptodate = false)
      (h : p.Moves p' [] (c.2 :: p.loads) p.flushes p.evicts [] s.size s.clock) :
      Effect s e p p' (s.setObj c.2 (CachePage.beginLoad { s.obj c.2 with refBit := b }))
  | fill (obj : ObjId → CachePage) (hobj : ∀ o, obj o = s.obj o ∨
      o ∈ p.loads ∧ ∃ bytes, obj o = { s.obj o with bytes := bytes }) (learnt : List Fact)
      (hl : ∀ g ∈ learnt, Transfers s e p obj g)
      (hfresh : ∀ i o v get, .loaded i o v get ∉ p.facts)
      (h : p.Moves p' [] p.loads p.flushes p.evicts learnt s.size s.clock) :
      Effect s e p p' { s with obj := obj }
  | finish (c : ℕ × ObjId) (v pins : ℕ) (get : Option (ℕ → UInt8)) (b : Bool) (hc : c ∈ p.held)
      (hv : v ≤ pageSize) (hk : .loaded c.1 c.2 v get ∈ p.facts)
      (hframe : get ≠ none → ∀ i o v, .loaded i o v none ∉ p.facts) (learnt : List Fact)
      (hg : ∀ g ∈ learnt, g = .ready c.2 ∧ b = true) (hl : p.loads.Perm (c.2 :: p'.loads))
      (h : p.Moves p' [] p'.loads p.flushes p.evicts learnt s.size s.clock) :
      Effect s e p p' (s.setObj c.2 { s.obj c.2 with
        bytes := (get.map (blit (s.obj c.2).bytes 0 v)).getD (s.obj c.2).bytes
        validBytes := v, loading := false, uptodate := b, pinCount := pins })
  | store (o : ObjId) (m : ℕ) (w : WriteCall) (hp : p = .writeStore o m w)
      (hload : (s.obj o).loading = false) (h : p.Keeps p' s.size (s.clock + 1)) :
      Effect s e p p' (s.storeWrite o m w)
  | dirty (c : ℕ × ObjId) (hc : c ∈ p.held) (hg : .ready c.2 ∈ p.facts)
      (h : p.Keeps p' s.size s.clock) : Effect s e p p' (s.markPageDirty c.2)
  | retain (c : ℕ × ObjId) (hc : c ∈ p.held) (hg : .ready c.2 ∈ p.facts)
      (h : p.Keeps p' s.size s.clock) : Effect s e p p' (s.setObj c.2
        { s.obj c.2 with refBit := true, mapCount := (s.obj c.2).mapCount + 1 })
  | release (o : ObjId) (ho : 0 < (s.obj o).mapCount) (h : p.Keeps p' s.size s.clock) :
      Effect s e p p' (s.setObj o { s.obj o with mapCount := (s.obj o).mapCount - 1 })
  | beginFlush (c : ℕ × ObjId) (hc : c ∈ p.held) (hwb : (s.obj c.2).writeback = false)
      (hd : (s.obj c.2).dirty = true) (learnt : List Fact)
      (hl : ∀ g ∈ learnt, ∃ data, g = .took c.1 c.2 s.clock (s.obj c.2).validBytes data ∧
        ∀ d ∈ data, d = (s.obj c.2).bytes)
      (h : p.Moves p' [] p.loads (c.2 :: p.flushes) p.evicts learnt s.size s.clock) :
      Effect s e p p' (s.setObj c.2 (s.obj c.2).beginWriteback)
  | device (f : File) (hf : s.WritesTaken p f) (learnt : List Fact)
      (hl : ∀ g ∈ learnt, Delivers s p f g) (hout : ∀ i o time v data,
        .took i o time v data ∉ p'.facts)
      (h : p.Moves p' [] p.loads p.flushes p.evicts learnt s.size s.clock) :
      Effect s e p p' { s with backing := f }
  | endFlush (c : ℕ × ObjId) (time : ℕ) (writeOk : Bool) (hc : c ∈ p.held)
      (hk : .out c.1 c.2 time writeOk ∈ p.facts) (hf : p.flushes.Perm (c.2 :: p'.flushes))
      (h : p.Moves p' [] p.loads p'.flushes p.evicts [] s.size s.clock) :
      Effect s e p p' (s.finishPageWriteback c.2 writeOk)
  | mark (o : ObjId) (hp : p = .reclaimDecide o) (hev : (s.obj o).evictable = true)
      (hfree : ∀ u, ∀ c ∈ (s.pc u).held, c.2 ≠ o)
      (h : p.Moves p' [] p.loads p.flushes [o] [] s.size s.clock) :
      Effect s e p p' (s.setObj o { s.obj o with evicting := true })
  | remove (o : ObjId) (hp : p = .reclaimRemove o) (hpage : s.pages (s.obj o).index = some o)
      (h : p.Moves p' [] p.loads p.flushes [] [] s.size s.clock) :
      Effect s e p p' { s with pages := Function.update s.pages (s.obj o).index none }
  | giveUp (o : ObjId) (hp : p = .reclaimRemove o) (hpage : s.pages (s.obj o).index ≠ some o)
      (hp' : p' = .reclaimRestore o) : Effect s e p p' s
  | restore (o : ObjId) (hp : p = .reclaimRestore o) (h : p.Keeps p' s.size s.clock) :
      Effect s e p p' (s.setObj o { s.obj o with evicting := false })

end CosmOS.PageCache
