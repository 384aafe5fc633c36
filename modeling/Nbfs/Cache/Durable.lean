import Nbfs.Cache.Backed

set_option autoImplicit false

/-!
# The bytes of a file stay

A step of a file whose appends go through the cache keeps the invariant and the bytes, and so
does a run.
-/

namespace Nbfs.Cache

open Nbfs.Lib
open Nbfs.Async (Blobstore Stage ENOMEM getPageParameters)

/-- A read past the cache is done. -/
theorem FileState.rwRead_ok {bs : Blobstore} {s s' : FileState} {a : Answer} {op : Option Nat}
    {rw : Async.Rw} (hread : rw.isRead = true) (hstep : s.rwComplete bs op (.read rw) a = .ok s') :
    ∃ iov, s.rwStage op (.done 0 iov) = .ok s' := by
  obtain ⟨t, hasync, hstage⟩ := FileState.rwComplete_ok hstep
  simp only [Async.step] at hasync
  have hdone : t.file = s.asyncFile ∧ ∃ iov, t.stage () = .done 0 iov := by
    split at hasync
    · obtain rfl := Option.some.inj hasync
      exact ⟨rfl, _, if_pos hread⟩
    split at hasync
    · obtain rfl := Option.some.inj hasync
      exact ⟨rfl, _, if_pos hread⟩
    · cases hasync
  obtain ⟨hfile, iov, hended⟩ := hdone
  rw [hfile, hended] at hstage
  exact ⟨iov, hstage⟩

namespace FileState

/-- The buffer ends at `append_pos`, or is full. -/
def AtEndOrFull (s : FileState) (b : BufRef) : Prop := ∀ old, s.file.cache.buffers b = some old →
  old.offset + old.bytesFilled = s.file.appendPos ∨ old.bytesFilled = cacheBufferSize

/-- What an append fills. -/
theorem atEndOrFull {there low : Prop} {s : FileState} {w : Work} {b : BufRef}
    (h : Tail there low s) (hw : w ∈ s.pending) (hb : w.target = some b) : s.AtEndOrFull b := by
  intro old hold
  rcases h.targets w hw b hb with hlast | hfull
  · exact Or.inl (h.ends b hlast old hold)
  · exact Or.inr (hfull old hold)

/-- A round copies to the end of the file. -/
theorem copies_at_end {s : FileState} {b : BufRef} {last : CacheBuffer} {payload : List UInt8}
    (hfilled : last.bytesFilled ≤ cacheBufferSize) (hlast : s.file.cache.buffers b = some last)
    (hb : s.AtEndOrFull b) (hsome : 0 < fillLength last payload) :
    last.offset + last.bytesFilled = s.file.appendPos := by
  refine (hb last hlast).resolve_right fun hfull => ?_
  rw [fillLength_eq hfilled, hfull, Nat.sub_self, Nat.zero_min] at hsome
  exact absurd hsome (Nat.lt_irrefl 0)

end FileState

namespace Backed

variable {bs : Blobstore} {s s' : FileState} {a : Answer} {w : Work} {b : BufRef} {id : Nat}

/-- An extension keeps what the blob has. -/
theorem resized (h : Backed bs s) {clean clean' : Prop} (hheap : Heap clean s)
    {numClusters : Nat} {contents : Nat → UInt8} (hle : s.blob.numClusters ≤ numClusters)
    (hs' : s'.file = s.file ∧ s'.mem = s.mem ∧ s'.pending = s.pending ∧
      s'.blob = s.blob.resize bs numClusters contents) (hheap' : Heap clean' s') :
    Backed bs s' ∧ SameBytes s s' := by
  obtain ⟨hfile, hmem, hpending, hblob⟩ := hs'
  have hgrows := Nat.mul_le_mul_right bs.clusterSz hle
  have hbytes : ∀ p < s.file.lengthFlushed, s'.blob.bytes p = s.blob.bytes p := by
    intro p hp
    have hin := hp.trans_le h.inBlob
    rw [hblob]
    exact FileState.resize_bytes hin (hin.trans_le hgrows)
  constructor
  · exact {
      length := by rw [hfile]; exact h.length
      flushed := by rw [hfile]; exact h.flushed
      inBlob := by
        rw [hfile, hblob]
        exact h.inBlob.trans hgrows
      xattr := by rw [hfile, hblob]; exact h.xattr
      buffers := by
        rw [hfile]
        intro b buffer hbuffer
        obtain ⟨hends, hbehind, hafter, honBlob⟩ := h.buffers b buffer hbuffer
        refine ⟨hfile ▸ hends, hfile ▸ hbehind, hfile ▸ hafter, fun k hk => ?_⟩
        have := hbehind (by omega)
        rw [hmem, hbytes _ (by omega)]
        exact honBlob k hk
      covered := by
        rw [hfile]
        exact h.covered
      works := by
        rw [hpending]
        intro w hw
        have hsuits := h.works w hw
        cases w with
        | flushWrite | readahead | readaheadRead =>
            unfold FileState.Suits
            rw [hfile]
            exact hsuits
        | _ => exact hsuits }
  refine ⟨by rw [hfile], fun p hp => FileState.view_moved hheap hheap' ?_ fun hnone => ?_⟩
  · rw [hfile, hmem]
    exact fun b buffer hbuffer hin => Or.inl ⟨buffer, hbuffer, hin, rfl⟩
  · rw [hfile]
    exact ⟨hbytes p (h.flushed_of_uncached hp hnone), fun c other hother hin =>
      absurd hin (hnone c other hother)⟩

/-- A part of a step that leaves the buffers and the bytes. -/
theorem frame (h : Backed bs s) (hframe : Frame s s')
    (hflushed : s'.file.lengthFlushed = s.file.lengthFlushed)
    (hxattr : s'.blob.xattrLength ≤ s.file.lengthFlushed) (hinside : Inside s s') :
    Backed bs s' ∧ SameBytes s s' := by
  refine ⟨h.calm hframe.cache hframe.length hframe.appendPos hflushed hxattr hframe.mem hframe.bytes
    hframe.numClusters fun w hw => ?_, sameBytes hframe.cache hframe.mem hframe.bytes
    hframe.appendPos⟩
  rcases hframe.pending w hw with hold | ⟨hio, -, -⟩
  · exact Or.inl hold
  refine (hinside w hw).imp_right fun hpast => ?_
  cases w with
  | flushWrite | readahead | readaheadRead => cases hio
  | rwFromFile | rw => cases hpast
  | _ => trivial

theorem apart (h : Backed bs s) (hframe : Frame s s') (hapart : Apart s s')
    (hinside : Inside s s') : Backed bs s' ∧ SameBytes s s' :=
  h.frame hframe hapart.lengthFlushed (hapart.xattrLength ▸ h.xattr) hinside

theorem cacheAppendBuffer (h : Backed bs s) (hheap : Heap True s) {ok : Bool} {r : Option BufRef}
    (hstep : s.cacheAppendBuffer ok = .ok (r, s')) : Backed bs s' ∧ SameBytes s s' := by
  have hheap' := (hheap.cacheAppendBuffer hstep).1
  rcases (FileState.cacheAppendBuffer_ok hstep).2.2 with ⟨-, rfl⟩ | ⟨-, -, -, rfl⟩
  · exact ⟨h, .refl _⟩
  · exact ⟨h.inserted hheap rfl rfl rfl rfl rfl rfl rfl,
      sameBytes_inserted hheap hheap' rfl rfl rfl rfl⟩

theorem startFill (h : Backed bs s) {payload : List UInt8}
    (hstep : s.startFill id payload a = .ok s') : Backed bs s' ∧ SameBytes s s' := by
  rcases FileState.startFill_ok hstep with rfl | ⟨last, -, rfl⟩
  · exact ⟨h.note _, sameBytes rfl rfl rfl rfl⟩
  · exact ⟨h.send trivial, sameBytes rfl rfl rfl rfl⟩

/-- An append that does not go past the cache. -/
theorem append (h : Backed bs s) (hheap : Heap True s) {offset : Nat} {payload : List UInt8}
    (hcached : ¬ s.GoesPast a) (hstep : s.append bs id offset payload a = .ok s') :
    Backed bs s' ∧ SameBytes s s' := by
  obtain ⟨s₁, hopen, hrest⟩ := FileState.append_ok hstep
  have hopened : Backed bs s.opened ∧ SameBytes s s.opened :=
    ⟨h.fields rfl rfl rfl rfl rfl rfl rfl, sameBytes rfl rfl rfl rfl⟩
  have hopened' : Heap True s.opened := hheap.fields rfl rfl rfl rfl rfl
  obtain ⟨h₁, hsame₁⟩ : Backed bs s₁ ∧ SameBytes s s₁ := by
    rcases FileState.openLast_ok hopen with ⟨rfl, -⟩ | ⟨-, -, r, happend⟩
    · exact hopened
    · obtain ⟨happended, hsame⟩ := hopened.1.cacheAppendBuffer hopened' happend
      exact ⟨happended, hopened.2.trans hsame⟩
  rcases hrest with ⟨hnone, -⟩ | ⟨-, -, ⟨-, rfl⟩ | ⟨-, hfill⟩⟩
  · exact absurd (FileState.openLast_none hopen hnone).1 hcached
  · exact ⟨h₁.send trivial, hsame₁.trans (sameBytes rfl rfl rfl rfl)⟩
  · obtain ⟨hfilled, hsame⟩ := h₁.startFill hfill
    exact ⟨hfilled, hsame₁.trans hsame⟩

theorem fillRound (h : Backed bs s) {payload : List UInt8} {filled : Nat}
    (hheap : Heap True (s.held (.fill id b payload filled)))
    (hb : s.AtEndOrFull b)
    (hn : s.file.appendPos + payload.length < 2 ^ 64)
    (hstep : s.fillRound id b payload filled a = .ok s') : Backed bs s' ∧ SameBytes s s' := by
  obtain ⟨last, hlast, hround⟩ := FileState.fillRound_ok hstep
  have hsits := hheap.sits b last hlast
  have hcopied := (hheap.copied rfl hlast payload).drop rfl
  have hends : 0 < FileState.fillLength last payload → _ :=
    FileState.copies_at_end hsits.filled hlast hb
  have h₁ := h.copied hlast ⟨hsits.flushed, hsits.filled⟩ hends hn
  have hsame₁ := sameBytes_copied (hheap.drop rfl) hcopied hlast hends hn
  rcases hround with ⟨-, rfl⟩ | ⟨-, r, s₁, happend, ⟨c, -, rfl⟩ | ⟨-, rfl⟩⟩
  · exact ⟨h₁.send trivial, hsame₁.trans (sameBytes rfl rfl rfl rfl)⟩
  · obtain ⟨h₂, hsame₂⟩ := h₁.cacheAppendBuffer hcopied happend
    exact ⟨h₂.send trivial, hsame₁.trans (hsame₂.trans (sameBytes rfl rfl rfl rfl))⟩
  · obtain ⟨h₂, hsame₂⟩ := h₁.cacheAppendBuffer hcopied happend
    exact ⟨h₂.note _, hsame₁.trans (hsame₂.trans (sameBytes rfl rfl rfl rfl))⟩

/-- A read past the cache leaves the file. -/
theorem rwRead (h : Backed bs s) {op : Option Nat} {rw : Async.Rw} (hread : rw.isRead = true)
    (hstep : s.rwComplete bs op (.read rw) a = .ok s') : Backed bs s' ∧ SameBytes s s' := by
  obtain ⟨iov, hstage⟩ := FileState.rwRead_ok hread hstep
  rcases FileState.rwStage_ok hstage with ⟨rc', iov', -, ⟨-, rfl⟩ | ⟨id, -, rfl⟩⟩ | ⟨hnot, -⟩
  · exact ⟨h, .refl _⟩
  · exact ⟨h.note _, sameBytes rfl rfl rfl rfl⟩
  · exact absurd rfl (hnot 0 iov)

/-- A read that is sent past the cache is begun. -/
theorem rwFromFile (h : Backed bs s) {op : Option Nat} {call : Async.Call}
    (hread : call.isRead = true)
    (hstep : s.rwStage op (Async.readvwritev bs s.asyncFile call a.toMemory) = .ok s') :
    Backed bs s' ∧ SameBytes s s' := by
  have hbegun : (∃ rc iov, Async.readvwritev bs s.asyncFile call a.toMemory = .done rc iov) ∨
      ∃ rw, Async.readvwritev bs s.asyncFile call a.toMemory = .read rw ∧ rw.isRead = true := by
    unfold Async.readvwritev
    split
    · exact Or.inl ⟨_, _, rfl⟩
    split
    · exact Or.inl ⟨_, _, rfl⟩
    split
    · exact Or.inl ⟨_, _, rfl⟩
    · rw [if_neg (by simp [hread]), if_neg (by simp [hread])]
      exact Or.inr ⟨_, rfl, hread⟩
  rcases FileState.rwStage_ok hstep with ⟨rc, iov, -, ⟨-, rfl⟩ | ⟨id, -, rfl⟩⟩ | ⟨hnot, -, rfl⟩
  · exact ⟨h, .refl _⟩
  · exact ⟨h.note _, sameBytes rfl rfl rfl rfl⟩
  · have hsuits := hbegun.resolve_left (by simpa using hnot)
    exact ⟨h.send hsuits, sameBytes rfl rfl rfl rfl⟩

theorem complete (h : Backed bs s) (hunit : bs.ioUnitSize ∣ cacheBufferSize)
    (hheap : Heap True s) (hheap' : Heap True s') (htail : Tail True False s) {i : Nat}
    (hw : s.pending[i]? = some w) (hkeeps : KeepsBytes s (.complete i, a))
    (hstep : (s.take i).perform bs a w = .ok s') : Backed bs s' ∧ SameBytes s s' := by
  have hcached := hkeeps.cached w hw
  have htake := h.take i
  have hheld := hheap.taken hw
  have hdrop : w.io = none → Heap True (s.take i) := fun hio => hheld.drop hio
  have htaken : SameBytes s (s.take i) := sameBytes rfl rfl rfl rfl
  suffices hdone : Backed bs s' ∧ SameBytes (s.take i) s' from
    ⟨hdone.1, htaken.trans hdone.2⟩
  cases w with
  | append id offset payload => exact htake.append (hdrop rfl) hcached hstep
  | extendResize id numClusters payload =>
      simp only [FileState.perform] at hstep
      split at hstep
      · obtain rfl := Except.ok.inj hstep
        exact ⟨htake.note _, sameBytes rfl rfl rfl rfl⟩
      · rename_i hzero
        obtain ⟨-, rfl⟩ := FileState.blobOp_ok hstep
        let t : FileState := { s.take i with blob := s.blob.resize bs numClusters a.contents }
        have hgrown : Heap True t := (hdrop rfl).fields rfl rfl rfl rfl rfl
        have hresized : Backed bs t ∧ SameBytes (s.take i) t :=
          htake.resized (hdrop rfl) (hcached (not_not.mp hzero)) ⟨rfl, rfl, rfl, rfl⟩ hgrown
        exact ⟨hresized.1.send trivial, hresized.2.trans (sameBytes rfl rfl rfl rfl)⟩
  | startFill id payload => exact htake.startFill hstep
  | fill id b payload filled =>
      simp only [FileState.perform] at hstep
      split at hstep
      · obtain rfl := Except.ok.inj hstep
        unfold FileState.endFill
        split
        · exact ⟨htake.note _, sameBytes rfl rfl rfl rfl⟩
        · exact ⟨(htake.note _).send trivial, sameBytes rfl rfl rfl rfl⟩
      · have hb : s.AtEndOrFull b := FileState.atEndOrFull htail (mem_taken hw) rfl
        exact htake.fillRound hheld hb ((hkeeps.last.1 _ hw).1 _ rfl) hstep
  | rwFromFile id call => exact htake.rwFromFile (h.works _ (mem_taken hw)) hstep
  | rw id stage =>
      obtain ⟨rw, rfl, hread⟩ := h.works _ (mem_taken hw)
      exact htake.rwRead hread hstep
  | flush => exact htake.fileFlush (hdrop rfl) hheap' hstep
  | flushWrite b offset length =>
      obtain ⟨next, hnext, hstep⟩ := bind_ok.mp hstep
      obtain ⟨s₁, hwrite, hdone⟩ := bind_ok.mp hstep
      exact htake.flushWrite hunit hheld hheap' htail.appendPos_lt (h.works _ (mem_taken hw))
        (CachedFile.buffer_ok.mp hnext) hcached hwrite hdone
  | check thenFlush =>
      have hframe := Frame.perform (w := .check thenFlush) hstep trivial
      have hinside := Inside.perform (w := .check thenFlush) hstep trivial rfl
      obtain ⟨s₁, hcheck, hret⟩ := bind_ok.mp hstep
      obtain rfl := Except.ok.inj hret
      have hchecked : s₁.file.lengthFlushed = s.file.lengthFlushed ∧
          s₁.blob.xattrLength ≤ s.file.lengthFlushed := by
        rcases FileState.checkSyncReqs_ok hcheck with rfl | ⟨r, -, -, -, rfl⟩
        · exact ⟨rfl, h.xattr⟩
        · exact ⟨rfl, Nat.le_refl _⟩
      refine htake.frame hframe ?_ ?_ hinside
      · split
        · exact hchecked.1
        · exact hchecked.1
      · split
        · exact hchecked.2
        · exact hchecked.2
  | syncXattr ref =>
      have hframe := Frame.perform (w := .syncXattr ref) hstep trivial
      have hinside := Inside.perform (w := .syncXattr ref) hstep trivial rfl
      obtain ⟨r, -, -, s₁, hcb, rfl⟩ := FileState.fileCacheFinishSync_ok hstep
      have hcalled := Apart.callSyncCb hcb
      exact htake.frame hframe hcalled.lengthFlushed
        ((Nat.le_of_eq hcalled.xattrLength).trans h.xattr) hinside
  | readahead b length =>
      obtain rfl := Frame.readahead hstep
      exact ⟨htake.send (h.works _ (mem_taken hw)), sameBytes rfl rfl rfl rfl⟩
  | readaheadRead b length =>
      obtain ⟨buffer, hbuffer, hstep⟩ := bind_ok.mp hstep
      obtain ⟨s₁, hread, hret⟩ := bind_ok.mp hstep
      obtain rfl := Except.ok.inj hret
      obtain ⟨image, rfl, himage⟩ := FileState.readAhead_ok hread
      obtain rfl := himage hcached
      exact htake.readaheadDone hunit hheld hheap' htail.appendPos_lt (h.works _ (mem_taken hw))
        (CachedFile.buffer_ok.mp hbuffer) rfl
  | readLoop offset finalOffset =>
      exact htake.readRound (hdrop rfl) (fun b hfind buffer hbuffer hend =>
        hkeeps.flushed _ hw _ rfl b hfind buffer hbuffer hend) hstep
  | truncateResize id length =>
      rcases FileState.fsTruncateResizeCb_ok hstep with ⟨-, rfl⟩ | ⟨hzero, -⟩
      · exact ⟨htake.note _, sameBytes rfl rfl rfl rfl⟩
      · exact absurd hzero hcached
  | _ =>
      exact htake.apart (Frame.perform hstep trivial) (Apart.perform hstep trivial)
        (Inside.perform hstep trivial rfl)

/-- A step keeps the bytes. -/
theorem step (h : Backed bs s) (hunit : bs.ioUnitSize ∣ cacheBufferSize) (hheap : Heap True s)
    (hheap' : Heap True s') (htail : Tail True False s) {e : FileEvent × Answer}
    (hkeeps : KeepsBytes s e) (hstep : FileSteps bs s e s') : Backed bs s' ∧ SameBytes s s' := by
  obtain ⟨event, a⟩ := e
  obtain ⟨-, hact⟩ := FileState.step_ok hstep
  have hask : Backed bs s.ask := h.fields rfl rfl rfl rfl rfl rfl rfl
  have hsync : ∀ cb, s.ask.fileSync cb a = .ok s' → s'.file.lengthFlushed = s.file.lengthFlushed ∧
      s'.blob.xattrLength = s.blob.xattrLength := by
    intro cb hsync
    rcases FileState.fileSync_ok hsync with ⟨-, hcb⟩ | hcb | ⟨-, rfl⟩
    · exact ⟨(Apart.callSyncCb hcb).lengthFlushed, (Apart.callSyncCb hcb).xattrLength⟩
    · exact ⟨(Apart.callSyncCb hcb).lengthFlushed, (Apart.callSyncCb hcb).xattrLength⟩
    · exact ⟨rfl, rfl⟩
  have hclose : ∀ cb, (if a.request then s.ask.fileSync cb a
      else .ok (s.ask.reply s.brk (-ENOMEM))) = .ok s' →
      s'.file.lengthFlushed = s.file.lengthFlushed ∧
        s'.blob.xattrLength = s.blob.xattrLength := by
    intro cb hclose
    split at hclose
    · exact hsync cb hclose
    · obtain rfl := Except.ok.inj hclose
      exact ⟨rfl, rfl⟩
  have hplain : event.Plain → s'.file.lengthFlushed = s.file.lengthFlushed ∧
      s'.blob.xattrLength = s.blob.xattrLength → Backed bs s' ∧ SameBytes s s' :=
    fun hevent hcursors => h.frame (Frame.act hact hevent) hcursors.1 (hcursors.2 ▸ h.xattr)
      (Inside.act hact hevent)
  cases event with
  | write offset payload =>
      obtain rfl := Except.ok.inj hact
      have hapart := Apart.fileWrite s offset payload
      exact hplain trivial ⟨hapart.lengthFlushed, hapart.xattrLength⟩
  | read offset length => exact h.fileRead hheap (hkeeps.reads _ rfl) hact
  | sync => exact hplain trivial (hsync _ hact)
  | closeAsync => exact hplain trivial (hclose _ hact)
  | close => exact hplain trivial (hclose _ hact)
  | truncate length =>
      refine hplain trivial ?_
      simp only [FileState.act] at hact
      split at hact
      all_goals
        obtain rfl := Except.ok.inj hact
        exact ⟨rfl, rfl⟩
  | reclaim =>
      obtain rfl := Except.ok.inj hact
      exact h.reclaimCacheBuffers hheap
  | free => exact h.fileFree hheap hact
  | complete i =>
      obtain ⟨w, hw, hperform⟩ := FileState.complete_ok hact
      exact h.complete hunit hheap hheap' htail hw hkeeps hperform

theorem initial (h : s.Initial bs) : Backed bs s where
  length := by rw [h.appendPos]
  flushed := by rw [h.appendPos, h.lengthFlushed]
  inBlob := by
    rw [h.lengthFlushed, Nat.mul_comm]
    exact h.inBlob
  xattr := by rw [h.xattrLength, h.lengthFlushed]
  buffers := by simp [h.cache]
  covered := by
    rw [h.lengthFlushed, h.appendPos]
    exact fun p hle hlt => absurd hlt (Nat.not_lt.mpr hle)
  works := by simp [h.pending]

/-- What is flushed is on the blob, wherever it is read from. -/
theorem onBlob (h : Backed bs s) {clean : Prop} (hheap : Heap clean s) {p : Nat}
    (hp : p < s.file.lengthFlushed) : s.blob.bytes p = s.view p := by
  by_cases hin : ∃ b buffer, s.file.cache.buffers b = some buffer ∧ buffer.Has p
  · obtain ⟨b, buffer, hbuffer, hhas⟩ := hin
    have hflushed := (hheap.sits b buffer hbuffer).flushed
    have hbacks := h.buffers b buffer hbuffer
    have hafter := hbacks.after
    have hfirst := hhas.1
    have hlast := hhas.2
    have honBlob := hbacks.onBlob (p - buffer.offset) (by omega)
    rw [Nat.add_sub_cancel' hfirst] at honBlob
    exact honBlob.trans (FileState.view_cached hheap hbuffer hhas).symm
  · have hnone : s.cachedAt p = none := FileState.cachedAt_none fun b buffer hbuffer hhas =>
      hin ⟨b, buffer, hbuffer, hhas⟩
    rw [FileState.view, hnone, Option.getD_none]

/-- No flush goes past `append_pos`. -/
theorem keepsCursors (h : Backed bs s) (hheap : Heap True s) {e : FileEvent × Answer}
    (hkeeps : KeepsBytes s e) : KeepsCursors s e := by
  intro w hw
  have hfills := (hkeeps.last.1 w hw).1
  have hcached := hkeeps.cached w hw
  have hmem : w ∈ s.pending := by
    obtain ⟨event, a⟩ := e
    cases event with
    | complete i => exact mem_taken hw
    | _ => cases hw
  cases w with
  | append id offset payload => exact hfills _ rfl
  | fill id b payload filled => exact hfills _ rfl
  | flushWrite b offset length =>
      have hstarts : offset = s.file.lengthFlushed := h.works _ hmem
      obtain ⟨next, hnext⟩ := hheap.outstanding trivial _ hmem b rfl
      obtain ⟨hoffset, hpos, hfits⟩ := hheap.fits _ hmem b rfl next hnext
      have hends := (h.buffers b next hnext).ends (by omega)
      change s.file.lengthFlushed + length ≤ s.file.appendPos
      omega
  | rw id stage =>
      obtain ⟨rw, rfl, -⟩ := h.works _ hmem
      trivial
  | truncateResize id length => exact fun hzero => absurd hzero hcached
  | _ => trivial

end Backed

/-! ### What is flushed and stored goes forward -/

/-- No less is flushed, nor stored. -/
structure Forward (s s' : FileState) : Prop where
  flushed : s.file.lengthFlushed ≤ s'.file.lengthFlushed
  stored : s.blob.xattrLength ≤ s'.blob.xattrLength

namespace Forward

variable {bs : Blobstore} {s s' : FileState} {a : Answer}

theorem fields (hflushed : s'.file.lengthFlushed = s.file.lengthFlushed)
    (hstored : s'.blob.xattrLength = s.blob.xattrLength) : Forward s s' :=
  ⟨Nat.le_of_eq hflushed.symm, Nat.le_of_eq hstored.symm⟩

theorem apart (h : Apart s s') : Forward s s' := fields h.lengthFlushed h.xattrLength

theorem checkSyncReqs (h : s.blob.xattrLength ≤ s.file.lengthFlushed)
    (hstep : s.checkSyncReqs = .ok s') : Forward s s' := by
  rcases FileState.checkSyncReqs_ok hstep with rfl | ⟨r, -, -, -, rfl⟩
  · exact fields rfl rfl
  · exact ⟨Nat.le_refl _, h⟩

theorem fileSync {cb : SyncCb} (hstep : s.fileSync cb a = .ok s') : Forward s s' := by
  rcases FileState.fileSync_ok hstep with ⟨-, hcb⟩ | hcb | ⟨-, rfl⟩
  · exact apart (.callSyncCb hcb)
  · exact apart (.callSyncCb hcb)
  · exact fields rfl rfl

theorem fileFlush (h : s.file.lengthFlushed ≤ s.file.appendPos) (hstep : s.fileFlush = .ok s') :
    Forward s s' := by
  rcases FileState.fileFlush_ok hstep with
    ⟨-, rfl⟩ | ⟨b, next, -, -, ⟨rfl, -⟩ | ⟨rfl, -⟩ | ⟨-, -, -, rfl⟩⟩
  · exact ⟨h, Nat.le_refl _⟩
  all_goals exact fields rfl rfl

theorem flushWrite {b : BufRef} {next : CacheBuffer} {offset length : Nat}
    (hlt : s.file.lengthFlushed + length < 2 ^ 64) {s₁ : FileState}
    (hwrite : s.flushed bs b next offset length a = .ok s₁)
    (hdone : s₁.fileFlushDone bs b next length = .ok s') : Forward s s' := by
  obtain rfl := FileState.fileFlushDone_ok hdone
  have hflushed := Apart.flushed hwrite
  refine ⟨?_, Nat.le_of_eq hflushed.xattrLength.symm⟩
  change s.file.lengthFlushed ≤ (s₁.file.lengthFlushed + length) % 2 ^ 64
  rw [hflushed.lengthFlushed, Nat.mod_eq_of_lt hlt]
  exact Nat.le_add_right _ _

end Forward

/-- All that is kept of a file. -/
structure Whole (bs : Blobstore) (s : FileState) : Prop where
  heap : Heap True s
  tail : Tail True False s
  backed : Backed bs s
  cursors : Cursors s
  covered : Covered s

namespace Whole

variable {bs : Blobstore} {s s' : FileState}

theorem step (h : Whole bs s) (hunit : bs.ioUnitSize ∣ cacheBufferSize) {e : FileEvent × Answer}
    (hkeeps : KeepsBytes s e) (hstep : FileSteps bs s e s') : Whole bs s' ∧ SameBytes s s' := by
  have hheap' := h.heap.step (fun _ => hkeeps.flushed) hstep
  have hcursors := h.backed.keepsCursors h.heap hkeeps
  obtain ⟨hbacked, hsame⟩ := h.backed.step hunit h.heap hheap' h.tail hkeeps hstep
  have hweak : Heap False s := { h.heap with freed := False.elim, outstanding := False.elim }
  have htail := h.tail.step hweak hkeeps.last.1 (fun _ => hkeeps.last.2) False.elim hstep
  exact ⟨⟨hheap', htail, hbacked, h.cursors.step hcursors hstep,
    h.covered.step h.cursors hcursors hstep⟩, hsame⟩

theorem initial (h : s.Initial bs) : Whole bs s :=
  ⟨.initial h, .initial h, .initial h, .initial h, .initial h⟩

theorem forward_complete (h : Whole bs s) {w : Work} {i : Nat} {a : Answer}
    (hw : s.pending[i]? = some w) (hkeeps : KeepsBytes s (.complete i, a))
    (hstep : (s.take i).perform bs a w = .ok s') : Forward s s' := by
  have hcached := hkeeps.cached w hw
  have hcursors := h.backed.keepsCursors h.heap hkeeps w hw
  suffices hdone : Forward (s.take i) s' from ⟨hdone.flushed, hdone.stored⟩
  cases w with
  | rw id stage =>
      obtain ⟨rw, rfl, hread⟩ := h.backed.works _ (mem_taken hw)
      obtain ⟨iov, hstage⟩ := FileState.rwRead_ok hread hstep
      exact .apart (.rwStage hstage)
  | flush => exact .fileFlush h.backed.flushed hstep
  | flushWrite b offset length =>
      obtain ⟨next, -, hstep⟩ := bind_ok.mp hstep
      obtain ⟨s₁, hwrite, hdone⟩ := bind_ok.mp hstep
      exact .flushWrite (hcursors.trans_lt h.cursors.appendPos_lt) hwrite hdone
  | check thenFlush =>
      obtain ⟨s₁, hcheck, hret⟩ := bind_ok.mp hstep
      obtain rfl := Except.ok.inj hret
      have hchecked : Forward (s.take i) s₁ := .checkSyncReqs h.backed.xattr hcheck
      split
      · exact ⟨hchecked.flushed, hchecked.stored⟩
      · exact hchecked
  | syncXattr ref =>
      obtain ⟨r, -, -, s₁, hcb, rfl⟩ := FileState.fileCacheFinishSync_ok hstep
      have hcalled := Apart.callSyncCb hcb
      exact .fields hcalled.lengthFlushed hcalled.xattrLength
  | truncateResize id length =>
      rcases FileState.fsTruncateResizeCb_ok hstep with ⟨-, rfl⟩ | ⟨hzero, -⟩
      · exact .fields rfl rfl
      · exact absurd hzero hcached
  | _ => exact .apart (Apart.perform hstep trivial)

/-- No step that keeps the bytes flushes or stores less. -/
theorem forward (h : Whole bs s) {e : FileEvent × Answer} (hkeeps : KeepsBytes s e)
    (hstep : FileSteps bs s e s') : Forward s s' := by
  obtain ⟨event, a⟩ := e
  obtain ⟨-, hact⟩ := FileState.step_ok hstep
  have hsync : ∀ cb, s.ask.fileSync cb a = .ok s' → Forward s s' := fun cb hsync =>
    have h := Forward.fileSync hsync
    ⟨h.flushed, h.stored⟩
  have hclose : ∀ cb, (if a.request then s.ask.fileSync cb a
      else .ok (s.ask.reply s.brk (-ENOMEM))) = .ok s' → Forward s s' := by
    intro cb hclose
    split at hclose
    · exact hsync _ hclose
    · obtain rfl := Except.ok.inj hclose
      exact .fields rfl rfl
  cases event with
  | write offset payload =>
      obtain rfl := Except.ok.inj hact
      exact .apart (.fileWrite s offset payload)
  | read offset length => exact .apart (.fileRead hact)
  | sync => exact hsync _ hact
  | closeAsync => exact hclose _ hact
  | close => exact hclose _ hact
  | truncate length =>
      simp only [FileState.act] at hact
      split at hact
      all_goals
        obtain rfl := Except.ok.inj hact
        exact .fields rfl rfl
  | reclaim =>
      obtain rfl := Except.ok.inj hact
      exact .apart (.reclaimCacheBuffers s)
  | free => exact .apart (.fileFree hact)
  | complete i =>
      obtain ⟨w, hw, hperform⟩ := FileState.complete_ok hact
      exact h.forward_complete hw hkeeps hperform

end Whole

end Nbfs.Cache
