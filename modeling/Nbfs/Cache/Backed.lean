import Nbfs.Async.Bounds
import Nbfs.Cache.LastBuffer
import Nbfs.Cache.SyncStored

set_option autoImplicit false

/-!
# What was appended stays

While appends go through the cache, `__file_flush` writes one buffer after the other: what is
below `length_flushed` is on the blob, and what is not is in a buffer.  So the bytes of the
file stay as they were appended, wherever they are read from, and those that the xattr
`"length"` covers are on the blob.
-/

namespace Nbfs.Cache

open Nbfs.Lib
open Nbfs.Async (Blobstore Stage ENOMEM getPageParameters)

/-- An append finds a last buffer, or gets one; no operation on the blob for the cache fails, no
extension is overtaken by a larger one, and no truncate succeeds. -/
def StaysCached (s : FileState) (a : Answer) : Work → Prop
  | .append .. => ¬ s.GoesPast a
  | .extendResize _ numClusters _ => a.bserrno = 0 → s.blob.numClusters ≤ numClusters
  | .flushWrite .. | .readaheadRead .. => a.bserrno = 0
  | .truncateResize .. => a.bserrno ≠ 0
  | _ => True

instance (s : FileState) (a : Answer) : ∀ w : Work, Decidable (StaysCached s a w)
  | .append .. => inferInstanceAs (Decidable (¬ _))
  | .extendResize .. => inferInstanceAs (Decidable (_ → _))
  | .flushWrite .. | .readaheadRead .. => inferInstanceAs (Decidable (_ = _))
  | .truncateResize .. => inferInstanceAs (Decidable (_ ≠ _))
  | .extend .. | .extendSync .. | .startFill .. | .fill .. | .rwFromFile .. | .rw .. | .flush
  | .check _ | .syncXattr _ | .readahead .. | .readLoop .. | .truncate .. | .truncateSync _
  | .close _ | .closeBlob _ => .isTrue trivial

/-- Appends stay in the cache, no buffer leaves it before it is flushed or while it is the last,
and a file is read while it ends a unit or more below 2^64. -/
structure KeepsBytes (s : FileState) (e : FileEvent × Answer) : Prop where
  last : KeepsLast s e
  flushed : ReadsFlushed s e
  cached : ∀ w ∈ s.completed e.1, StaysCached s e.2 w
  reads : ∀ range ∈ e.1.readRange, s.file.appendPos + cacheBufferSize ≤ 2 ^ 64

instance (s : FileState) (e : FileEvent × Answer) : Decidable (KeepsBytes s e) :=
  decidable_of_iff (KeepsLast s e ∧ ReadsFlushed s e ∧
      (∀ w ∈ s.completed e.1, StaysCached s e.2 w) ∧
      ∀ range ∈ e.1.readRange, s.file.appendPos + cacheBufferSize ≤ 2 ^ 64)
    ⟨fun h => ⟨h.1, h.2.1, h.2.2.1, h.2.2.2⟩, fun h => ⟨h.last, h.flushed, h.cached, h.reads⟩⟩

/-- The file has at least its bytes of before. -/
structure SameBytes (s s' : FileState) : Prop where
  appendPos : s.file.appendPos ≤ s'.file.appendPos
  view : ∀ p < s.file.appendPos, s'.view p = s.view p

theorem SameBytes.refl (s : FileState) : SameBytes s s := ⟨Nat.le_refl _, fun _ _ => rfl⟩

theorem SameBytes.trans {s s' s'' : FileState} (h : SameBytes s s') (h' : SameBytes s' s'') :
    SameBytes s s'' where
  appendPos := h.appendPos.trans h'.appendPos
  view := fun p hp => (h'.view p (hp.trans_le h.appendPos)).trans (h.view p hp)

/-- What is flushed of a buffer is on the blob and below `length_flushed`, and the rest of it
comes after. -/
structure FileState.Backs (s : FileState) (b : BufRef) (buffer : CacheBuffer) : Prop where
  ends : 0 < buffer.bytesFilled → buffer.offset + buffer.bytesFilled ≤ s.file.appendPos
  behind : 0 < buffer.bytesFlushed → buffer.offset + buffer.bytesFlushed ≤ s.file.lengthFlushed
  after : buffer.bytesFlushed < buffer.bytesFilled →
    s.file.lengthFlushed ≤ buffer.offset + buffer.bytesFlushed
  onBlob : ∀ k < buffer.bytesFlushed, s.blob.bytes (buffer.offset + k) = s.mem b k

/-- A request goes past the cache. -/
def Work.past : Work → Bool
  | rwFromFile .. | rw .. => true
  | _ => false

/-- A flush is of what is flushed next, a readahead of what is flushed, and only reads go past
the cache. -/
def FileState.Suits (s : FileState) : Work → Prop
  | .flushWrite _ offset _ => offset = s.file.lengthFlushed
  | .readahead b length | .readaheadRead b length => ∀ buffer,
      s.file.cache.buffers b = some buffer → buffer.offset + length ≤ s.file.lengthFlushed
  | .rwFromFile _ call => call.isRead = true
  | .rw _ stage => ∃ rw, stage = .read rw ∧ rw.isRead = true
  | _ => True

/-- No more goes past the cache. -/
def Inside (s s' : FileState) : Prop := ∀ w ∈ s'.pending, w ∈ s.pending ∨ w.past = false

namespace Inside

variable {s s' s'' : FileState} {bs : Blobstore} {a : Answer} {w : Work} {id : Nat}

theorem of_eq (hpending : s'.pending = s.pending) : Inside s s' := fun _ hw =>
  Or.inl (hpending ▸ hw)

theorem trans (h : Inside s s') (h' : Inside s' s'') : Inside s s'' := fun w hw =>
  (h' w hw).elim (h w) Or.inr

theorem sent (hw : w.past = false) (hpending : s'.pending = s.pending ++ [w]) : Inside s s' := by
  intro w' hw'
  rw [hpending] at hw'
  rcases List.mem_append.mp hw' with hold | hnew
  · exact Or.inl hold
  · exact Or.inr (List.mem_singleton.mp hnew ▸ hw)

theorem fileCloseAsync (h : s.fileCloseAsync id = .ok s') : Inside s s' := by
  rcases FileState.fileCloseAsync_ok h with rfl | rfl | rfl
  · exact of_eq rfl
  · exact of_eq rfl
  · exact sent (w := .closeBlob id) rfl rfl

theorem callSyncCb {rc : Int} {cb : SyncCb} (h : s.callSyncCb rc cb = .ok s') : Inside s s' := by
  cases cb with
  | client id =>
      obtain rfl := Except.ok.inj h
      exact of_eq rfl
  | closeAsync id => exact fileCloseAsync h
  | close id =>
      obtain rfl := Except.ok.inj h
      exact sent (w := .close id) rfl rfl

theorem checkSyncReqs (h : s.checkSyncReqs = .ok s') : Inside s s' := by
  rcases FileState.checkSyncReqs_ok h with rfl | ⟨r, -, -, -, rfl⟩
  · exact of_eq rfl
  · exact sent (w := .syncXattr r.ref) rfl rfl

theorem fileCacheFinishSync {ref : Nat} {bserrno : Int}
    (h : s.fileCacheFinishSync ref bserrno = .ok s') : Inside s s' := by
  obtain ⟨r, -, -, s₁, hcb, rfl⟩ := FileState.fileCacheFinishSync_ok h
  have hcalled := callSyncCb hcb
  exact hcalled.trans (sent (w := .check false) rfl rfl)

theorem fileSync {cb : SyncCb} (h : s.fileSync cb a = .ok s') : Inside s s' := by
  rcases FileState.fileSync_ok h with ⟨-, hcb⟩ | hcb | ⟨-, rfl⟩
  · exact callSyncCb hcb
  · exact callSyncCb hcb
  · exact sent (w := .flush) rfl rfl

/-- The work of the background, and what truncates. -/
theorem perform (hstep : s.perform bs a w = .ok s') (hw : w.Plain) (hpast : w.past = false) :
    Inside s s' := by
  cases w with
  | rwFromFile id call => cases hpast
  | extend id numClusters payload =>
      obtain ⟨-, rfl⟩ := FileState.blobOp_ok hstep
      exact sent (w := .extendResize id numClusters payload) rfl rfl
  | extendSync id payload =>
      simp only [FileState.perform] at hstep
      split at hstep
      all_goals obtain rfl := Except.ok.inj hstep
      · exact of_eq rfl
      · exact sent (w := .startFill id payload) rfl rfl
  | check thenFlush =>
      obtain ⟨s₁, hcheck, hret⟩ := bind_ok.mp hstep
      obtain rfl := Except.ok.inj hret
      split
      · exact (checkSyncReqs hcheck).trans (sent (w := .flush) rfl rfl)
      · exact checkSyncReqs hcheck
  | syncXattr ref => exact fileCacheFinishSync hstep
  | truncate id length =>
      rcases FileState.fileTruncateAsync_ok hstep with ⟨-, rfl⟩ | rfl | rfl
      · exact of_eq rfl
      · exact of_eq rfl
      · exact sent (w := .truncateResize id length) rfl rfl
  | truncateSync id =>
      obtain rfl := Except.ok.inj hstep
      exact of_eq rfl
  | close id => exact fileCloseAsync hstep
  | closeBlob id =>
      obtain rfl := Except.ok.inj hstep
      exact of_eq rfl
  | _ => exact hw.elim

theorem act {e : FileEvent} (hstep : s.act bs a e = .ok s') (he : e.Plain) : Inside s s' := by
  have hasked : Inside s s.ask := of_eq rfl
  have hclose : ∀ cb, (if a.request then s.ask.fileSync cb a
      else .ok (s.ask.reply s.brk (-ENOMEM))) = .ok s' → Inside s s' := by
    intro cb hclose
    split at hclose
    · exact hasked.trans (fileSync hclose)
    · obtain rfl := Except.ok.inj hclose
      exact of_eq rfl
  cases e with
  | write offset payload =>
      obtain rfl := Except.ok.inj hstep
      unfold FileState.fileWrite
      split
      · exact of_eq rfl
      split
      · exact of_eq rfl
      · exact sent (w := .append s.brk offset payload) rfl rfl
  | sync => exact hasked.trans (fileSync hstep)
  | closeAsync => exact hclose _ hstep
  | close => exact hclose _ hstep
  | truncate length =>
      simp only [FileState.act] at hstep
      split at hstep
      all_goals obtain rfl := Except.ok.inj hstep
      · exact sent (w := .truncate s.brk length) rfl rfl
      · exact of_eq rfl
  | _ => exact he.elim

end Inside

/-- The invariant: what is not flushed is in a buffer. -/
structure Backed (bs : Blobstore) (s : FileState) : Prop where
  length : s.file.length ≤ s.file.appendPos
  flushed : s.file.lengthFlushed ≤ s.file.appendPos
  inBlob : s.file.lengthFlushed ≤ s.blob.numClusters * bs.clusterSz
  xattr : s.blob.xattrLength ≤ s.file.lengthFlushed
  buffers : ∀ b buffer, s.file.cache.buffers b = some buffer → s.Backs b buffer
  covered : ∀ p, s.file.lengthFlushed ≤ p → p < s.file.appendPos →
    ∃ b buffer, s.file.cache.buffers b = some buffer ∧ buffer.Has p
  works : ∀ w ∈ s.pending, s.Suits w

/-- The io units of some bytes of a unit of the cache are in that unit. -/
theorem units_inside {bs : Blobstore} (hunit : bs.ioUnitSize ∣ cacheBufferSize)
    {start offset length : Nat} (haligned : cacheBufferSize ∣ start) (hle : start ≤ offset)
    (hpos : 0 < length) (hend : offset + length ≤ start + cacheBufferSize)
    (hlt : offset + length < 2 ^ 64) :
    start ≤ (getPageParameters bs offset length).1 * bs.ioUnitSize ∧
      (getPageParameters bs offset length).1 * bs.ioUnitSize ≤ offset ∧
      offset + length ≤ (getPageParameters bs offset length).1 * bs.ioUnitSize +
        (getPageParameters bs offset length).2 * bs.ioUnitSize ∧
      (getPageParameters bs offset length).1 * bs.ioUnitSize +
        (getPageParameters bs offset length).2 * bs.ioUnitSize ≤ start + cacheBufferSize := by
  have hsize := bs.ioUnitSize_pos
  obtain ⟨first, hfirst⟩ := hunit.trans haligned
  obtain ⟨count, hcount⟩ := (Nat.dvd_add_right (hunit.trans haligned)).mpr hunit
  have hnum : (getPageParameters bs offset length).2 = _ :=
    Async.numLba_exact hpos (by omega) (Nat.le_of_lt hlt)
  have hends : offset / bs.ioUnitSize * bs.ioUnitSize +
      bs.unitCount offset length * bs.ioUnitSize = _ := Blobstore.units_end hpos
  have hstart : (getPageParameters bs offset length).1 = offset / bs.ioUnitSize := rfl
  rw [hnum, hstart, hends]
  refine ⟨?_, Nat.div_mul_le_self _ _, ?_, ?_⟩
  · rw [hfirst, Nat.mul_comm]
    exact Nat.mul_le_mul_right _ ((Nat.le_div_iff_mul_le hsize).mpr (by rw [Nat.mul_comm]; omega))
  · have hmul := Nat.lt_mul_of_div_lt (Nat.lt_add_one ((offset + length - 1) / bs.ioUnitSize)) hsize
    omega
  · rw [hcount, Nat.mul_comm bs.ioUnitSize]
    refine Nat.mul_le_mul_right _ (Nat.succ_le_of_lt ((Nat.div_lt_iff_lt_mul hsize).mpr ?_))
    rw [Nat.mul_comm]
    omega

namespace FileState

variable {clean clean' : Prop} {s s' : FileState} {p : Nat}

/-- A byte stays the same where it stays, or goes from a buffer to the blob or back. -/
theorem view_moved (h : Heap clean s) (h' : Heap clean' s')
    (hcached : ∀ b buffer, s.file.cache.buffers b = some buffer → buffer.Has p →
      (∃ buffer', s'.file.cache.buffers b = some buffer' ∧ buffer'.Has p ∧
        s'.mem b (p - buffer'.offset) = s.mem b (p - buffer.offset)) ∨
      (∀ c other, s'.file.cache.buffers c = some other → ¬ other.Has p) ∧
        s'.blob.bytes p = s.mem b (p - buffer.offset))
    (hblob : (∀ b buffer, s.file.cache.buffers b = some buffer → ¬ buffer.Has p) →
      s'.blob.bytes p = s.blob.bytes p ∧ ∀ c other, s'.file.cache.buffers c = some other →
        other.Has p → s'.mem c (p - other.offset) = s.blob.bytes p) :
    s'.view p = s.view p := by
  by_cases hin : ∃ b buffer, s.file.cache.buffers b = some buffer ∧ buffer.Has p
  · obtain ⟨b, buffer, hbuffer, hp⟩ := hin
    rw [view_cached h hbuffer hp]
    rcases hcached b buffer hbuffer hp with ⟨buffer', hbuffer', hp', hmem⟩ | ⟨hnone, hbytes⟩
    · rw [view_cached h' hbuffer' hp', hmem]
    · rw [view, cachedAt_none hnone, Option.getD_none, hbytes]
  have hnone : ∀ b buffer, s.file.cache.buffers b = some buffer → ¬ buffer.Has p :=
    fun b buffer hbuffer hp => hin ⟨b, buffer, hbuffer, hp⟩
  obtain ⟨hbytes, hnew⟩ := hblob hnone
  rw [view.eq_def s, cachedAt_none hnone, Option.getD_none]
  by_cases hin' : ∃ c other, s'.file.cache.buffers c = some other ∧ other.Has p
  · obtain ⟨c, other, hother, hp⟩ := hin'
    rw [view_cached h' hother hp, hnew c other hother hp]
  · rw [view, cachedAt_none fun c other hother hp => hin' ⟨c, other, hother, hp⟩,
      Option.getD_none, hbytes]

end FileState

namespace Backed

variable {bs : Blobstore} {s s' : FileState} {a : Answer} {w : Work} {b : BufRef} {id : Nat}

/-- What is not cached is flushed. -/
theorem flushed_of_uncached (h : Backed bs s) {p : Nat} (hp : p < s.file.appendPos)
    (hnone : ∀ b buffer, s.file.cache.buffers b = some buffer → ¬ buffer.Has p) :
    p < s.file.lengthFlushed := by
  refine Nat.not_le.mp fun hle => ?_
  obtain ⟨b, buffer, hbuffer, hin⟩ := h.covered p hle hp
  exact hnone b buffer hbuffer hin

/-- Nothing that the invariant looks at changes, but for the work. -/
theorem calm (h : Backed bs s) (hcache : s'.file.cache = s.file.cache)
    (hlength : s'.file.length = s.file.length) (happend : s'.file.appendPos = s.file.appendPos)
    (hflushed : s'.file.lengthFlushed = s.file.lengthFlushed)
    (hxattr : s'.blob.xattrLength ≤ s.file.lengthFlushed) (hmem : s'.mem = s.mem)
    (hbytes : s'.blob.bytes = s.blob.bytes) (hclusters : s'.blob.numClusters = s.blob.numClusters)
    (hworks : ∀ w ∈ s'.pending, w ∈ s.pending ∨ s'.Suits w) : Backed bs s' where
  length := by rw [hlength, happend]; exact h.length
  flushed := by rw [hflushed, happend]; exact h.flushed
  inBlob := by rw [hflushed, hclusters]; exact h.inBlob
  xattr := hflushed ▸ hxattr
  buffers := by
    rw [hcache]
    intro b buffer hbuffer
    obtain ⟨hends, hbehind, hafter, honBlob⟩ := h.buffers b buffer hbuffer
    exact ⟨happend ▸ hends, hflushed ▸ hbehind, hflushed ▸ hafter, by rwa [hbytes, hmem]⟩
  covered := by
    rw [hflushed, happend, hcache]
    exact h.covered
  works := by
    intro w hw
    refine (hworks w hw).elim (fun hold => ?_) id
    have hsuits := h.works w hold
    cases w with
    | flushWrite c offset length => exact hsuits.trans hflushed.symm
    | readahead c length | readaheadRead c length =>
        intro buffer hbuffer
        rw [hflushed]
        exact hsuits buffer (hcache ▸ hbuffer)
    | _ => exact hsuits

/-- The bytes are where they were. -/
theorem sameBytes (hcache : s'.file.cache = s.file.cache) (hmem : s'.mem = s.mem)
    (hbytes : s'.blob.bytes = s.blob.bytes) (happend : s'.file.appendPos = s.file.appendPos) :
    SameBytes s s' where
  appendPos := Nat.le_of_eq happend.symm
  view := fun _ _ => FileState.view_blob hcache hmem (congrFun hbytes _)

theorem send (h : Backed bs s) (hw : s.Suits w) : Backed bs (s.send w) := by
  refine h.calm rfl rfl rfl rfl h.xattr rfl rfl rfl fun w' hw' => ?_
  rcases List.mem_append.mp hw' with hold | hnew
  · exact Or.inl hold
  · exact Or.inr (List.mem_singleton.mp hnew ▸ hw)

theorem fields (h : Backed bs s) (hcache : s'.file.cache = s.file.cache)
    (hlength : s'.file.length = s.file.length) (happend : s'.file.appendPos = s.file.appendPos)
    (hflushed : s'.file.lengthFlushed = s.file.lengthFlushed)
    (hmem : s'.mem = s.mem) (hblob : s'.blob = s.blob) (hpending : s'.pending = s.pending) :
    Backed bs s' :=
  h.calm hcache hlength happend hflushed (hblob ▸ h.xattr) hmem (by rw [hblob]) (by rw [hblob])
    fun _ hw => Or.inl (hpending ▸ hw)

theorem note (h : Backed bs s) (n : Note) : Backed bs (s.note n) :=
  h.fields rfl rfl rfl rfl rfl rfl rfl

theorem take (h : Backed bs s) (i : Nat) : Backed bs (s.take i) :=
  h.calm rfl rfl rfl rfl h.xattr rfl rfl rfl fun _ hw => Or.inl (mem_of_taken hw)

/-! ### Buffers that come and leave -/

/-- A new buffer is empty. -/
theorem inserted (h : Backed bs s) {clean : Prop} (hheap : Heap clean s) {offset : Nat}
    {busy : Bool} (hcache : s'.file.cache =
      (s.file.cache.step (.store s.brk ⟨offset, 0, 0, busy⟩)).step (.insert s.brk))
    (hlength : s'.file.length = s.file.length) (happend : s'.file.appendPos = s.file.appendPos)
    (hflushed : s'.file.lengthFlushed = s.file.lengthFlushed) (hmem : s'.mem = s.mem)
    (hblob : s'.blob = s.blob) (hpending : s'.pending = s.pending) : Backed bs s' where
  length := by rw [hlength, happend]; exact h.length
  flushed := by rw [hflushed, happend]; exact h.flushed
  inBlob := by rw [hflushed, hblob]; exact h.inBlob
  xattr := by rw [hflushed, hblob]; exact h.xattr
  buffers := by
    rw [hcache]
    refine Heap.forall_update (fun b buffer hbuffer => ?_) ?_
    · obtain ⟨hends, hbehind, hafter, honBlob⟩ := h.buffers b buffer hbuffer
      exact ⟨happend ▸ hends, hflushed ▸ hbehind, hflushed ▸ hafter, by rwa [hblob, hmem]⟩
    · exact ⟨fun hpos => absurd hpos (Nat.lt_irrefl 0), fun hpos => absurd hpos (Nat.lt_irrefl 0),
        fun hlt => absurd hlt (Nat.lt_irrefl 0), fun k hk => absurd hk (Nat.not_lt_zero k)⟩
  covered := by
    rw [hflushed, happend, hcache]
    intro p hle hlt
    obtain ⟨b, buffer, hbuffer, hp⟩ := h.covered p hle hlt
    have hne : b ≠ s.brk := by
      rintro rfl
      cases hheap.brk_none.symm.trans hbuffer
    exact ⟨b, buffer, (Function.update_of_ne hne ..).trans hbuffer, hp⟩
  works := by
    rw [hpending]
    intro w hw
    have hsuits := h.works w hw
    cases w with
    | flushWrite c offset length => exact hsuits.trans hflushed.symm
    | readahead c length | readaheadRead c length =>
        intro buffer hbuffer
        have hne : c ≠ s.brk := by
          rintro rfl
          exact hheap.brk_unused _ hw rfl
        rw [hflushed]
        rw [hcache] at hbuffer
        exact hsuits buffer ((Function.update_of_ne hne ..).symm.trans hbuffer)
    | _ => exact hsuits

theorem sameBytes_inserted {clean clean' : Prop} (hheap : Heap clean s) (hheap' : Heap clean' s')
    {offset : Nat} {busy : Bool} (hcache : s'.file.cache =
      (s.file.cache.step (.store s.brk ⟨offset, 0, 0, busy⟩)).step (.insert s.brk))
    (happend : s'.file.appendPos = s.file.appendPos) (hmem : s'.mem = s.mem)
    (hblob : s'.blob = s.blob) : SameBytes s s' where
  appendPos := Nat.le_of_eq happend.symm
  view := by
    intro p hp
    have hbuffers : ∀ c other, s'.file.cache.buffers c = some other → other.Has p →
        s.file.cache.buffers c = some other := by
      rw [hcache]
      exact Heap.forall_update (fun c other hother _ => hother) fun hin =>
        absurd hin.2 (Nat.not_lt.mpr hin.1)
    refine FileState.view_moved hheap hheap' (fun b buffer hbuffer hin => Or.inl ?_)
      fun hnone => ⟨by rw [hblob], fun c other hother hin =>
        absurd hin (hnone c other (hbuffers c other hother hin))⟩
    have hne : b ≠ s.brk := by
      rintro rfl
      cases hheap.brk_none.symm.trans hbuffer
    rw [hcache, hmem]
    exact ⟨buffer, (Function.update_of_ne hne ..).trans hbuffer, hin, rfl⟩

/-- Buffers leave of which all is flushed. -/
theorem leave (h : Backed bs s)
    (hsub : ∀ c buffer, s'.file.cache.buffers c = some buffer →
      s.file.cache.buffers c = some buffer)
    (hclean : ∀ c buffer, s.file.cache.buffers c = some buffer →
      s'.file.cache.buffers c = some buffer ∨ buffer.bytesFlushed = buffer.bytesFilled)
    (hlength : s'.file.length = s.file.length) (happend : s'.file.appendPos = s.file.appendPos)
    (hflushed : s'.file.lengthFlushed = s.file.lengthFlushed) (hmem : s'.mem = s.mem)
    (hblob : s'.blob = s.blob) (hpending : s'.pending = s.pending) : Backed bs s' where
  length := by rw [hlength, happend]; exact h.length
  flushed := by rw [hflushed, happend]; exact h.flushed
  inBlob := by rw [hflushed, hblob]; exact h.inBlob
  xattr := by rw [hflushed, hblob]; exact h.xattr
  buffers := by
    intro b buffer hbuffer
    obtain ⟨hends, hbehind, hafter, honBlob⟩ := h.buffers b buffer (hsub b buffer hbuffer)
    exact ⟨happend ▸ hends, hflushed ▸ hbehind, hflushed ▸ hafter, by rwa [hblob, hmem]⟩
  covered := by
    rw [hflushed, happend]
    intro p hle hlt
    obtain ⟨b, buffer, hbuffer, hp⟩ := h.covered p hle hlt
    refine ⟨b, buffer, (hclean b buffer hbuffer).resolve_right fun hall => ?_, hp⟩
    -- all of a buffer that leaves is below `length_flushed`
    obtain ⟨hfirst, hlast⟩ := hp
    have hbehind := (h.buffers b buffer hbuffer).behind (by omega)
    omega
  works := by
    rw [hpending]
    intro w hw
    have hsuits := h.works w hw
    cases w with
    | flushWrite c offset length => exact hsuits.trans hflushed.symm
    | readahead c length | readaheadRead c length =>
        intro buffer hbuffer
        rw [hflushed]
        exact hsuits buffer (hsub c buffer hbuffer)
    | _ => exact hsuits

theorem sameBytes_leave (h : Backed bs s) {clean clean' : Prop} (hheap : Heap clean s)
    (hheap' : Heap clean' s')
    (hsub : ∀ c buffer, s'.file.cache.buffers c = some buffer →
      s.file.cache.buffers c = some buffer)
    (hclean : ∀ c buffer, s.file.cache.buffers c = some buffer →
      s'.file.cache.buffers c = some buffer ∨
        buffer.bytesFlushed = buffer.bytesFilled ∧ s'.file.cache.buffers c = none)
    (happend : s'.file.appendPos = s.file.appendPos) (hmem : s'.mem = s.mem)
    (hblob : s'.blob = s.blob) : SameBytes s s' where
  appendPos := Nat.le_of_eq happend.symm
  view := by
    intro p hp
    refine FileState.view_moved hheap hheap' (fun b buffer hbuffer hin => ?_) fun hnone =>
      ⟨by rw [hblob], fun c other hother hin => absurd hin (hnone c other (hsub c other hother))⟩
    rw [hmem, hblob]
    rcases hclean b buffer hbuffer with hstays | ⟨hall, hgone⟩
    · exact Or.inl ⟨buffer, hstays, hin, rfl⟩
    refine Or.inr ⟨fun c other hother hother' => ?_, ?_⟩
    · -- the byte was in this buffer, and is in no other
      have hold := hsub c other hother
      have hsits := hheap.sits b buffer hbuffer
      have hsits' := hheap.sits c other hold
      have hend := hin.2.trans_le (Nat.add_le_add_left hsits.filled buffer.offset)
      have hend' := hother'.2.trans_le (Nat.add_le_add_left hsits'.filled other.offset)
      obtain rfl := hheap.distinct b buffer hbuffer c other hold
        (same_unit hsits'.aligned hsits.aligned hother'.1 hend' hin.1 hend)
      cases hgone.symm.trans hother
    · obtain ⟨hfirst, hlast⟩ := hin
      have honBlob := (h.buffers b buffer hbuffer).onBlob (p - buffer.offset) (by omega)
      rwa [Nat.add_sub_cancel' hfirst] at honBlob

/-! ### Appends -/

/-- What is copied comes after all that the file had. -/
theorem copied (h : Backed bs s) {old : CacheBuffer} {payload : List UInt8}
    (hold : s.file.cache.buffers b = some old)
    (hsits : old.bytesFlushed ≤ old.bytesFilled ∧ old.bytesFilled ≤ cacheBufferSize)
    (hends : 0 < FileState.fillLength old payload →
      old.offset + old.bytesFilled = s.file.appendPos)
    (hn : s.file.appendPos + payload.length < 2 ^ 64) : Backed bs (s.copied b old payload) := by
  have hcopy : FileState.fillLength old payload ≤ payload.length := Nat.min_le_right _ _
  have happend : (s.copied b old payload).file.appendPos =
      s.file.appendPos + FileState.fillLength old payload := Nat.mod_eq_of_lt (by omega)
  have hlength : (s.copied b old payload).file.length =
      max s.file.length (s.copied b old payload).file.appendPos := rfl
  have hflushed : (s.copied b old payload).file.lengthFlushed = s.file.lengthFlushed := rfl
  have hnew : (s.copied b old payload).file.cache.buffers b = _ :=
    FileState.copied_buffer hsits.2
  have hbuffers : ∀ c buffer, (s.copied b old payload).file.cache.buffers c = some buffer →
      c = b ∧ buffer = { old with
          bytesFilled := old.bytesFilled + FileState.fillLength old payload } ∨
        c ≠ b ∧ s.file.cache.buffers c = some buffer := by
    intro c buffer hbuffer
    by_cases hc : c = b
    · subst hc
      exact Or.inl ⟨rfl, Option.some.inj (hbuffer.symm.trans hnew)⟩
    · exact Or.inr ⟨hc, (FileState.copied_other hc).symm.trans hbuffer⟩
  exact {
    length := by
      rw [hlength, happend]
      exact Nat.max_le.mpr ⟨h.length.trans (Nat.le_add_right _ _), Nat.le_refl _⟩
    flushed := by
      rw [happend]
      exact h.flushed.trans (Nat.le_add_right _ _)
    inBlob := h.inBlob
    xattr := h.xattr
    buffers := by
      intro c buffer hbuffer
      rcases hbuffers c buffer hbuffer with ⟨rfl, rfl⟩ | ⟨hc, hother⟩
      · obtain ⟨hends', hbehind, hafter, honBlob⟩ := h.buffers c old hold
        refine ⟨fun hpos => ?_, hbehind, fun hlt => ?_, fun k hk => ?_⟩
        · rw [happend]
          dsimp only at hpos ⊢
          rcases Nat.eq_zero_or_pos (FileState.fillLength old payload) with hzero | hsome
          · have := hends' (by omega)
            omega
          · have := hends hsome
            omega
        · dsimp only at hlt ⊢
          rw [hflushed]
          rcases Nat.lt_or_ge old.bytesFlushed old.bytesFilled with hdirty | hall
          · exact hafter hdirty
          · have := hends (by omega)
            have := h.flushed
            omega
        · refine (honBlob k hk).trans (Eq.symm ?_)
          change Function.update s.mem c _ c k = _
          rw [Function.update_self]
          dsimp only at hk
          exact splice_outside (by omega)
      · obtain ⟨hends', hbehind, hafter, honBlob⟩ := h.buffers c buffer hother
        refine ⟨fun hpos => ?_, hbehind, hafter, fun k hk => ?_⟩
        · rw [happend]
          exact (hends' hpos).trans (Nat.le_add_right _ _)
        · refine (honBlob k hk).trans (congrFun ?_ k)
          exact (Function.update_of_ne hc ..).symm
    covered := by
      intro p hle hlt
      rw [happend] at hlt
      rcases Nat.lt_or_ge p s.file.appendPos with hold' | hpast
      · obtain ⟨c, buffer, hbuffer, hfirst, hlast⟩ := h.covered p hle hold'
        by_cases hc : c = b
        · subst hc
          obtain rfl := Option.some.inj (hold.symm.trans hbuffer)
          exact ⟨c, _, hnew, hfirst, hlast.trans_le
            (Nat.add_le_add_left (Nat.le_add_right _ _) _)⟩
        · exact ⟨c, buffer, (FileState.copied_other hc).trans hbuffer, hfirst, hlast⟩
      · have := hends (by omega)
        exact ⟨b, _, hnew, by dsimp only; omega, by dsimp only; omega⟩
    works := by
      intro w hw
      have hsuits := h.works w hw
      cases w with
      | readahead c length | readaheadRead c length =>
          intro buffer hbuffer
          rcases hbuffers c buffer hbuffer with ⟨rfl, rfl⟩ | ⟨-, hother⟩
          · exact hsuits old hold
          · exact hsuits buffer hother
      | _ => exact hsuits }

theorem sameBytes_copied {clean clean' : Prop} (hheap : Heap clean s) {old : CacheBuffer}
    {payload : List UInt8} (hheap' : Heap clean' (s.copied b old payload))
    (hold : s.file.cache.buffers b = some old)
    (hends : 0 < FileState.fillLength old payload →
      old.offset + old.bytesFilled = s.file.appendPos)
    (hn : s.file.appendPos + payload.length < 2 ^ 64) : SameBytes s (s.copied b old payload) := by
  have hcopy : FileState.fillLength old payload ≤ payload.length := Nat.min_le_right _ _
  have happend : (s.copied b old payload).file.appendPos =
      s.file.appendPos + FileState.fillLength old payload := Nat.mod_eq_of_lt (by omega)
  refine ⟨happend ▸ Nat.le_add_right _ _, fun p hp => FileState.view_eq ?_ rfl⟩
  refine FileState.cachedAt_copied_outside hheap hheap' hold fun hin => ?_
  have := hends (by omega)
  omega

/-! ### Flushes -/

/-- The buffer that a flush finds starts what is not flushed. -/
theorem flush_starts (h : Backed bs s) {next : CacheBuffer}
    (hfind : s.file.cache.find s.file.lengthFlushed = some b)
    (hnext : s.file.cache.buffers b = some next)
    (hdirty : next.bytesFlushed < next.bytesFilled) :
    next.offset + next.bytesFlushed = s.file.lengthFlushed := by
  obtain ⟨-, other, hother, hle, -⟩ := Present.find_some hfind
  obtain rfl := Option.some.inj (hnext.symm.trans hother)
  have hafter := (h.buffers b next hnext).after hdirty
  have hbehind := (h.buffers b next hnext).behind
  omega

/-- Where a flush finds no buffer, all is flushed. -/
theorem all_flushed (h : Backed bs s) {clean : Prop} (hheap : Heap clean s)
    (hfind : s.file.cache.find s.file.lengthFlushed = none) :
    s.file.appendPos = s.file.lengthFlushed := by
  refine Nat.le_antisymm (Nat.not_lt.mp fun hlt => ?_) h.flushed
  obtain ⟨b, buffer, hbuffer, hp⟩ := h.covered _ (Nat.le_refl _) hlt
  have hsits := hheap.sits b buffer hbuffer
  exact Present.find_none hfind hsits.listed hbuffer
    ⟨hp.1, hp.2.trans_le (Nat.add_le_add_left hsits.filled _)⟩

/-- A buffer is marked as in progress. -/
theorem marked (h : Backed bs s) {next : CacheBuffer} {busy : Bool}
    (hnext : s.file.cache.buffers b = some next) :
    Backed bs (s.setFile (s.file.setBuffer b { next with inProgress := busy })) where
  length := h.length
  flushed := h.flushed
  inBlob := h.inBlob
  xattr := h.xattr
  buffers := by
    refine Heap.forall_update (fun c buffer hbuffer => ?_) ?_
    · obtain ⟨hends, hbehind, hafter, honBlob⟩ := h.buffers c buffer hbuffer
      exact ⟨hends, hbehind, hafter, honBlob⟩
    · obtain ⟨hends, hbehind, hafter, honBlob⟩ := h.buffers b next hnext
      exact ⟨hends, hbehind, hafter, honBlob⟩
  covered := by
    intro p hle hlt
    obtain ⟨c, buffer, hbuffer, hp⟩ := h.covered p hle hlt
    by_cases hc : c = b
    · subst hc
      obtain rfl := Option.some.inj (hnext.symm.trans hbuffer)
      exact ⟨c, _, Function.update_self .., hp⟩
    · exact ⟨c, buffer, (Function.update_of_ne hc ..).trans hbuffer, hp⟩
  works := by
    intro w hw
    have hsuits := h.works w hw
    cases w with
    | readahead c length | readaheadRead c length =>
        intro buffer hbuffer
        refine Heap.forall_update (P := fun d buffer => d = c →
          buffer.offset + length ≤ s.file.lengthFlushed) (fun d old hold hd => ?_) (fun hd => ?_)
          c buffer hbuffer rfl
        · exact hsuits old (hd ▸ hold)
        · exact hsuits next (hd ▸ hnext)
    | _ => exact hsuits

theorem sameBytes_marked {clean clean' : Prop} (hheap : Heap clean s) {next : CacheBuffer}
    {busy : Bool} (hnext : s.file.cache.buffers b = some next)
    (hcache : s'.file.cache = s.file.cache.step (.store b { next with inProgress := busy }))
    (hheap' : Heap clean' s') (happend : s'.file.appendPos = s.file.appendPos)
    (hmem : s'.mem = s.mem) (hblob : s'.blob = s.blob) : SameBytes s s' where
  appendPos := Nat.le_of_eq happend.symm
  view := by
    intro p hp
    refine FileState.view_eq (FileState.cachedAt_congr hheap hheap' (fun c buffer hbuffer hin => ?_)
      ?_) (by rw [hblob])
    · rw [hcache, hmem]
      by_cases hc : c = b
      · subst hc
        obtain rfl := Option.some.inj (hnext.symm.trans hbuffer)
        exact ⟨_, Function.update_self .., hin, rfl⟩
      · exact ⟨buffer, (Function.update_of_ne hc ..).trans hbuffer, hin, rfl⟩
    · rw [hcache]
      exact Heap.forall_update (P := fun c buffer => buffer.Has p →
        ∃ old, s.file.cache.buffers c = some old ∧ old.Has p)
        (fun c buffer hbuffer hin => ⟨buffer, hbuffer, hin⟩) fun hin => ⟨next, hnext, hin⟩

/-- A flush that begins is of what is flushed next. -/
theorem fileFlush (h : Backed bs s) {clean clean' : Prop} (hheap : Heap clean s)
    (hheap' : Heap clean' s') (hstep : s.fileFlush = .ok s') : Backed bs s' ∧ SameBytes s s' := by
  rcases FileState.fileFlush_ok hstep with
    ⟨hfind, rfl⟩ | ⟨b, next, hfind, hnext, ⟨rfl, -⟩ | ⟨rfl, -⟩ | ⟨-, -, hne, rfl⟩⟩
  · have hall := h.all_flushed hheap hfind
    exact ⟨send (h.fields rfl rfl rfl hall rfl rfl rfl) trivial, sameBytes rfl rfl rfl rfl⟩
  · exact ⟨h, .refl _⟩
  · exact ⟨h.send trivial, sameBytes rfl rfl rfl rfl⟩
  · rw [hheap.flushLength_eq hnext] at hne
    refine ⟨(h.marked hnext).send (h.flush_starts hfind hnext (by omega)), ?_⟩
    exact sameBytes_marked hheap hnext rfl hheap' rfl rfl rfl

/-- A flush writes io units of its buffer. -/
theorem flushed_bytes {blob : Async.Blob} {mem : Nat → UInt8} {start startLba numLba : Nat}
    (hle : start ≤ startLba * bs.ioUnitSize) (p : Nat) :
    (blob.ioWrite bs (fun k => mem (startLba * bs.ioUnitSize - start + k)) startLba
        numLba).bytes p =
      if startLba * bs.ioUnitSize ≤ p ∧ p < startLba * bs.ioUnitSize + numLba * bs.ioUnitSize then
        mem (p - start) else blob.bytes p := by
  rw [Async.Blob.ioWrite]
  dsimp only
  split
  · rename_i hin
    refine (splice_inside hin).trans (congrArg mem ?_)
    omega
  · exact splice_outside ‹_›

section written

variable {next : CacheBuffer} {offset length lo hi : Nat}

/-- The buffers after a flush of `length` bytes. -/
theorem written_buffers (hcache : s'.file.cache = s.file.cache.step (.store b { next with
      inProgress := false, bytesFlushed := next.bytesFlushed + length })) :
    ∀ c buffer, s'.file.cache.buffers c = some buffer →
      c = b ∧ buffer = { next with
          inProgress := false, bytesFlushed := next.bytesFlushed + length } ∨
        c ≠ b ∧ s.file.cache.buffers c = some buffer := by
  rw [hcache]
  intro c buffer hbuffer
  by_cases hc : c = b
  · subst hc
    exact Or.inl ⟨rfl, Option.some.inj (hbuffer.symm.trans (Function.update_self ..))⟩
  · exact Or.inr ⟨hc, (Function.update_of_ne hc ..).symm.trans hbuffer⟩

/-- Another buffer with something to flush comes after. -/
theorem after_written (h : Backed bs s) {clean : Prop} (hheap : Heap clean (s.held w))
    (hnext : s.file.cache.buffers b = some next)
    (hstarts : next.offset + next.bytesFlushed = s.file.lengthFlushed)
    (hroom : next.bytesFlushed + length ≤ cacheBufferSize) {c : BufRef}
    {other : CacheBuffer} (hother : s.file.cache.buffers c = some other) (hc : c ≠ b)
    (hdirty : other.bytesFlushed < other.bytesFilled) :
    s.file.lengthFlushed + length ≤ other.offset + other.bytesFlushed := by
  have hsits := hheap.sits b next hnext
  have hsits' := hheap.sits c other hother
  have hfilled' := hsits'.filled
  have hafter := (h.buffers c other hother).after hdirty
  rcases Nat.lt_trichotomy other.offset next.offset with hlt | heq | hlt
  · have := unit_apart hsits'.aligned hsits.aligned hlt
    omega
  · exact absurd (hheap.distinct b next hnext c other hother heq) hc
  · have := unit_apart hsits.aligned hsits'.aligned hlt
    omega

/-- What a flush writes is on the blob. -/
theorem written (h : Backed bs s) {clean : Prop} (hheap : Heap clean (s.held w))
    (hheap' : Heap clean s') (hnext : s.file.cache.buffers b = some next)
    (hstarts : next.offset + next.bytesFlushed = s.file.lengthFlushed)
    (hfits : next.bytesFlushed + length ≤ next.bytesFilled) (hpos : 0 < length)
    (hunits : next.offset ≤ lo ∧ lo ≤ s.file.lengthFlushed ∧ s.file.lengthFlushed + length ≤ hi ∧
      hi ≤ next.offset + cacheBufferSize)
    (hcache : s'.file.cache = s.file.cache.step (.store b { next with
      inProgress := false, bytesFlushed := next.bytesFlushed + length }))
    (hbytes : ∀ p, s'.blob.bytes p =
      if lo ≤ p ∧ p < hi then s.mem b (p - next.offset) else s.blob.bytes p)
    (hflushed : s'.file.lengthFlushed = s.file.lengthFlushed + length)
    (hlength : s'.file.length = max s.file.length s'.file.lengthFlushed)
    (happend : s'.file.appendPos = s.file.appendPos) (hmem : s'.mem = s.mem)
    (hinBlob : s'.file.lengthFlushed ≤ s'.blob.numClusters * bs.clusterSz)
    (hxattr : s'.blob.xattrLength = s.blob.xattrLength)
    (hworks : ∀ w ∈ s'.pending, s'.Suits w) : Backed bs s' ∧ SameBytes s s' := by
  have hsits := hheap.sits b next hnext
  have hfilled := hsits.filled
  obtain ⟨hends, hbehind, hafter, honBlob⟩ := h.buffers b next hnext
  replace hends := hends (by omega)
  have hbuffers := written_buffers hcache
  have hself : s'.file.cache.buffers b = some { next with
      inProgress := false, bytesFlushed := next.bytesFlushed + length } := by
    rw [hcache]
    exact Function.update_self ..
  have hothers : ∀ c buffer, c ≠ b → s.file.cache.buffers c = some buffer →
      s'.file.cache.buffers c = some buffer := by
    rw [hcache]
    exact fun c buffer hc hbuffer => (Function.update_of_ne hc ..).trans hbuffer
  -- the positions that are written are those of the buffer's unit
  have hapart : ∀ c other, s.file.cache.buffers c = some other → c ≠ b →
      ∀ k < other.bytesFilled, ¬ (lo ≤ other.offset + k ∧ other.offset + k < hi) := by
    intro c other hother hc k hk hin
    have hsits' := hheap.sits c other hother
    have hfilled' := hsits'.filled
    exact hc (hheap.distinct b next hnext c other hother (same_unit hsits'.aligned hsits.aligned
      (Nat.le_add_right _ k) (by omega) (by omega) (by omega)))
  constructor
  · exact {
      length := by
        rw [hlength, happend, hflushed]
        exact Nat.max_le.mpr ⟨h.length, by omega⟩
      flushed := by
        rw [hflushed, happend]
        omega
      inBlob := hinBlob
      xattr := by
        rw [hxattr, hflushed]
        exact h.xattr.trans (Nat.le_add_right _ _)
      buffers := by
        intro c buffer hbuffer
        rcases hbuffers c buffer hbuffer with ⟨rfl, rfl⟩ | ⟨hc, hother⟩
        · refine ⟨fun _ => happend ▸ hends, fun _ => ?_, fun hlt => ?_, fun k hk => ?_⟩
          · rw [hflushed]
            dsimp only
            omega
          · rw [hflushed]
            dsimp only
            omega
          · rw [hbytes, hmem, Nat.add_sub_cancel_left]
            dsimp only at hk ⊢
            split
            · rfl
            · exact honBlob k (by omega)
        · obtain ⟨hends', hbehind', hafter', honBlob'⟩ := h.buffers c buffer hother
          have hle := (hheap.sits c buffer hother).flushed
          refine ⟨fun hpos => happend ▸ hends' hpos, fun hpos => ?_, fun hdirty => ?_,
            fun k hk => ?_⟩
          · rw [hflushed]
            exact (hbehind' hpos).trans (Nat.le_add_right _ _)
          · rw [hflushed]
            exact h.after_written hheap hnext hstarts (by omega) hother hc hdirty
          · rw [hbytes, hmem, if_neg (hapart c buffer hother hc k (by omega))]
            exact honBlob' k hk
      covered := by
        rw [hflushed, happend]
        intro p hle hlt
        obtain ⟨c, buffer, hbuffer, hp⟩ := h.covered p (by omega) hlt
        by_cases hc : c = b
        · subst hc
          obtain rfl := Option.some.inj (hnext.symm.trans hbuffer)
          exact ⟨c, _, hself, hp⟩
        · exact ⟨c, buffer, hothers c buffer hc hbuffer, hp⟩
      works := hworks }
  refine ⟨Nat.le_of_eq happend.symm, fun p hp => ?_⟩
  have hcached : s'.cachedAt p = s.cachedAt p := by
    refine FileState.cachedAt_congr (s := s.held w) hheap hheap' (fun c buffer hbuffer hin => ?_)
      fun c buffer hbuffer hin => ?_
    · rw [hmem]
      by_cases hc : c = b
      · subst hc
        obtain rfl := Option.some.inj (hnext.symm.trans hbuffer)
        exact ⟨_, hself, hin, rfl⟩
      · exact ⟨buffer, hothers c buffer hc hbuffer, hin, rfl⟩
    · rcases hbuffers c buffer hbuffer with ⟨rfl, rfl⟩ | ⟨-, hother⟩
      · exact ⟨next, hnext, hin⟩
      · exact ⟨buffer, hother, hin⟩
  by_cases hin : ∃ c buffer, s.file.cache.buffers c = some buffer ∧ buffer.Has p
  · obtain ⟨c, buffer, hbuffer, hin⟩ := hin
    have hsome : s.cachedAt p = _ := FileState.cachedAt_some (s := s.held w) hheap hbuffer hin
    rw [FileState.view, FileState.view, hcached, hsome]
    rfl
  -- a byte that is not cached is flushed, and not in this buffer's unit past what is flushed
  refine FileState.view_eq hcached ((hbytes p).trans (if_neg fun hwritten => hin ?_))
  have hlt := h.flushed_of_uncached hp fun c buffer hbuffer hhas => hin ⟨c, buffer, hbuffer, hhas⟩
  exact ⟨b, next, hnext, by omega, by omega⟩

end written

/-- The flushes that are under way are one. -/
theorem only_flush (h : Backed bs s) {offset length : Nat} {next : CacheBuffer}
    (hheap : Heap True (s.held (.flushWrite b offset length)))
    (hnext : s.file.cache.buffers b = some next)
    (hstarts : offset = s.file.lengthFlushed) (c : BufRef) (o l : Nat) :
    .flushWrite c o l ∉ s.pending := by
  intro hw
  have hsuits : o = s.file.lengthFlushed := h.works _ hw
  obtain ⟨hoffset, hpos, hfits⟩ := hheap.fits _ List.mem_cons_self b rfl next hnext
  obtain ⟨other, hother⟩ := hheap.outstanding trivial _ (List.mem_cons_of_mem _ hw) c rfl
  obtain ⟨hoffset', hpos', hfits'⟩ := hheap.fits _ (List.mem_cons_of_mem _ hw) c rfl other hother
  have hsits := hheap.sits b next hnext
  have hsits' := hheap.sits c other hother
  have hfilled := hsits.filled
  have hfilled' := hsits'.filled
  have hsame : other.offset = next.offset := same_unit (p := s.file.lengthFlushed) hsits'.aligned
    hsits.aligned (by omega) (by omega) (by omega) (by omega)
  obtain rfl := hheap.distinct b next hnext c other hother hsame
  exact hheap.leases.held rfl (List.mem_filterMap.mpr ⟨_, hw, rfl⟩)

/-- The write of a flush. -/
theorem flushWrite (h : Backed bs s) (hunit : bs.ioUnitSize ∣ cacheBufferSize)
    {next : CacheBuffer} {offset length : Nat}
    (hheap : Heap True (s.held (.flushWrite b offset length))) (hheap' : Heap True s')
    (hlt : s.file.appendPos < 2 ^ 64) (hstarts : offset = s.file.lengthFlushed)
    (hnext : s.file.cache.buffers b = some next) (hzero : a.bserrno = 0) {s₁ : FileState}
    (hwrite : s.flushed bs b next offset length a = .ok s₁)
    (hdone : s₁.fileFlushDone bs b next length = .ok s') : Backed bs s' ∧ SameBytes s s' := by
  obtain rfl := FileState.fileFlushDone_ok hdone
  obtain ⟨hne, -⟩ | ⟨-, hunits, rfl⟩ := FileState.flushed_ok hwrite
  · exact absurd hzero hne
  obtain ⟨hoffset, hpos, hfits⟩ := hheap.fits _ List.mem_cons_self b rfl next hnext
  have hsits := hheap.sits b next hnext
  have hfilled := hsits.filled
  have hends := (h.buffers b next hnext).ends (by omega)
  have hsize : cacheBufferSize = 2 ^ 18 := by decide
  obtain ⟨hfirst, hstart, hend, hlast⟩ := units_inside hunit hsits.aligned
    (show next.offset ≤ offset by omega) hpos (by omega) (by omega)
  have hflushed : (s.file.lengthFlushed + length) % 2 ^ 64 = s.file.lengthFlushed + length :=
    Nat.mod_eq_of_lt (by omega)
  have hbytesFlushed : (next.bytesFlushed + length) % 2 ^ 32 = next.bytesFlushed + length :=
    Nat.mod_eq_of_lt (by omega)
  refine h.written hheap hheap' hnext (by omega) hfits hpos
    ⟨hfirst, by omega, by omega, hlast⟩ (by rw [← hbytesFlushed]; rfl)
    (flushed_bytes hfirst) hflushed rfl rfl rfl ?_ rfl fun w hw => ?_
  · refine (Nat.le_of_eq hflushed).trans ((Nat.le_trans (by omega) hend).trans ?_)
    rw [← Nat.add_mul]
    exact hunits
  · rcases List.mem_append.mp hw with hold | hnew
    · have hsuits := h.works w hold
      cases w with
      | flushWrite c o l => exact absurd hold (h.only_flush hheap hnext hstarts c o l)
      | readahead c n | readaheadRead c n =>
          intro buffer hbuffer
          refine Nat.le_trans ?_ (Nat.le_of_eq hflushed.symm)
          refine Nat.le_trans ?_ (Nat.le_add_right _ _)
          rcases written_buffers (by rw [← hbytesFlushed]; rfl) c buffer hbuffer with
            ⟨rfl, rfl⟩ | ⟨-, hother⟩
          · exact hsuits next hnext
          · exact hsuits buffer hother
      | _ => exact hsuits
    · rw [List.mem_singleton.mp hnew]
      trivial

/-! ### Reads -/

/-- A readahead is of no more than is flushed. -/
theorem ahead_le (h : Backed bs s) {clean : Prop} (hheap : Heap clean s)
    (hroom : s.file.appendPos + cacheBufferSize ≤ 2 ^ 64) {offset : Nat}
    (haligned : cacheBufferSize ∣ offset) (hfind : s.file.cache.find offset = none)
    (hshort : offset < s.file.length) : offset + s.aheadLength offset ≤ s.file.lengthFlushed := by
  have hlength := h.length
  have hsize : cacheBufferSize = 2 ^ 18 := by decide
  have hends : s.aheadLength offset ≤ cacheBufferSize ∧
      offset + s.aheadLength offset ≤ s.file.length := by
    obtain ⟨unit, rfl⟩ := haligned
    simp only [FileState.aheadLength, hsize] at hroom hshort ⊢
    rw [Nat.mod_eq_of_lt (by omega)]
    split
    · omega
    · omega
  rcases Nat.lt_or_ge s.file.lengthFlushed s.file.appendPos with hlt | hall
  · by_contra hnot
    -- the unit has a byte that is not flushed, and so has a buffer
    obtain ⟨b, buffer, hbuffer, hfirst, hlast⟩ := h.covered (max s.file.lengthFlushed offset)
      (Nat.le_max_left _ _) (Nat.max_lt.mpr ⟨hlt, by omega⟩)
    have hsits := hheap.sits b buffer hbuffer
    have hfilled := hsits.filled
    have hsame : buffer.offset = offset := same_unit (p := max s.file.lengthFlushed offset)
      hsits.aligned haligned (by omega) (by omega) (by omega) (by omega)
    exact Present.find_none hfind hsits.listed hbuffer ⟨by omega, by omega⟩
  · omega

theorem checkReadahead (h : Backed bs s) (hheap : Heap True s)
    (hroom : s.file.appendPos + cacheBufferSize ≤ 2 ^ 64) {offset : Nat} {ok : Bool}
    (hstep : s.checkReadahead offset ok = .ok s') : Backed bs s' ∧ SameBytes s s' := by
  have hheap' := hheap.checkReadahead hstep
  rcases FileState.checkReadahead_ok hstep with rfl | ⟨-, hfind, hshort, rfl⟩
  · exact ⟨h, .refl _⟩
  have hle := h.ahead_le hheap hroom (Nat.dvd_mul_left _ _) hfind hshort
  have hcache := Heap.ahead_cache s (nextCacheBufferOffset offset)
  refine ⟨(h.inserted hheap hcache rfl rfl rfl rfl rfl rfl).send ?_,
    sameBytes_inserted hheap hheap' hcache rfl rfl rfl⟩
  intro buffer hbuffer
  rw [hcache] at hbuffer
  obtain rfl := Option.some.inj ((Function.update_self s.brk _ _).symm.trans hbuffer)
  exact hle

theorem fileRead (h : Backed bs s) (hheap : Heap True s) {offset length : Nat}
    (hroom : s.file.appendPos + cacheBufferSize ≤ 2 ^ 64)
    (hstep : s.fileRead offset length a = .ok s') : Backed bs s' ∧ SameBytes s s' := by
  rcases FileState.fileRead_ok hstep with rfl | ⟨n, s₁, -, haheads, rfl⟩
  · exact ⟨h.fields rfl rfl rfl rfl rfl rfl rfl, sameBytes rfl rfl rfl rfl⟩
  have hseq : Backed bs (s.sequential offset n) := h.fields rfl rfl rfl rfl rfl rfl rfl
  have hseq' : Heap True (s.sequential offset n) := hheap.fields rfl rfl rfl rfl rfl
  have hsame : SameBytes s (s.sequential offset n) := sameBytes rfl rfl rfl rfl
  suffices hahead : Backed bs s₁ ∧ SameBytes (s.sequential offset n) s₁ from
    ⟨hahead.1.send trivial, hsame.trans (hahead.2.trans (sameBytes rfl rfl rfl rfl))⟩
  rcases FileState.checkReadaheads_ok haheads with rfl | ⟨-, s₂, hfirst, hsecond⟩
  · exact ⟨hseq, .refl _⟩
  obtain ⟨h₂, hsame₂⟩ := hseq.checkReadahead hseq' hroom hfirst
  have hroom₂ : s₂.file.appendPos + cacheBufferSize ≤ 2 ^ 64 := by
    rcases FileState.checkReadahead_ok hfirst with rfl | ⟨-, -, -, rfl⟩
    · exact hroom
    · exact hroom
  obtain ⟨h₁, hsame₁⟩ := h₂.checkReadahead (hseq'.checkReadahead hfirst) hroom₂ hsecond
  exact ⟨h₁, hsame₂.trans hsame₁⟩

theorem removeBuffer (h : Backed bs s) (hheap : Heap True s) {buffer : CacheBuffer}
    (hheap' : Heap True (s.removeBuffer b buffer)) (hbuffer : s.file.cache.buffers b = some buffer)
    (hall : buffer.bytesFlushed = buffer.bytesFilled) :
    Backed bs (s.removeBuffer b buffer) ∧ SameBytes s (s.removeBuffer b buffer) := by
  have hsub : ∀ c other, (s.removeBuffer b buffer).file.cache.buffers c = some other →
      s.file.cache.buffers c = some other := by
    intro c other hother
    have hne : c ≠ b := by
      rintro rfl
      cases (Function.update_self ..).symm.trans hother
    exact (Function.update_of_ne hne ..).symm.trans hother
  have hgone : ∀ c other, s.file.cache.buffers c = some other →
      (s.removeBuffer b buffer).file.cache.buffers c = some other ∨
        other.bytesFlushed = other.bytesFilled ∧
          (s.removeBuffer b buffer).file.cache.buffers c = none := by
    intro c other hother
    by_cases hc : c = b
    · subst hc
      obtain rfl := Option.some.inj (hbuffer.symm.trans hother)
      exact Or.inr ⟨hall, Function.update_self ..⟩
    · exact Or.inl ((Function.update_of_ne hc ..).trans hother)
  exact ⟨h.leave hsub (fun c other hother => (hgone c other hother).imp_right And.left)
    rfl rfl rfl rfl rfl rfl, h.sameBytes_leave hheap hheap' hsub hgone rfl rfl rfl⟩

theorem treeFreeBuffers (h : Backed bs s) (hheap : Heap True s) :
    Backed bs s.treeFreeBuffers ∧ SameBytes s s.treeFreeBuffers := by
  have hgone : ∀ c other, s.file.cache.buffers c = some other →
      s.treeFreeBuffers.file.cache.buffers c = some other ∨
        other.bytesFlushed = other.bytesFilled ∧
          s.treeFreeBuffers.file.cache.buffers c = none := by
    intro c other hother
    by_cases hfree : c ∈ s.file.cache.refs ∧ idleIn s.file.cache.buffers c = true
    · exact Or.inr ⟨(Heap.clean_of_idle hfree.2 hother).1, if_pos hfree⟩
    · exact Or.inl ((if_neg hfree).trans hother)
  exact ⟨h.leave (fun _ _ => Tail.treeFreeBuffers_some) (fun c other hother =>
    (hgone c other hother).imp_right And.left) rfl rfl rfl rfl rfl rfl,
    h.sameBytes_leave hheap hheap.treeFreeBuffers (fun _ _ => Tail.treeFreeBuffers_some) hgone
      rfl rfl rfl⟩

theorem reclaimCacheBuffers (h : Backed bs s) (hheap : Heap True s) :
    Backed bs s.reclaimCacheBuffers ∧ SameBytes s s.reclaimCacheBuffers := by
  obtain ⟨hfreed, hsame⟩ := h.treeFreeBuffers hheap
  unfold FileState.reclaimCacheBuffers
  split
  · exact ⟨h, .refl s⟩
  dsimp only
  split
  · exact ⟨hfreed.fields rfl rfl rfl rfl rfl rfl rfl, hsame.trans (sameBytes rfl rfl rfl rfl)⟩
  · exact ⟨hfreed, hsame⟩

theorem fileFree (h : Backed bs s) (hheap : Heap True s) (hstep : s.fileFree = .ok s') :
    Backed bs s' ∧ SameBytes s s' := by
  obtain ⟨hfreed, hsame⟩ := h.treeFreeBuffers hheap
  unfold FileState.fileFree at hstep
  split at hstep
  · obtain rfl := Except.ok.inj hstep
    exact ⟨h.fields rfl rfl rfl rfl rfl rfl rfl, sameBytes rfl rfl rfl rfl⟩
  dsimp only at hstep
  split at hstep
  · obtain rfl := Except.ok.inj hstep
    exact ⟨hfreed.fields rfl rfl rfl rfl rfl rfl rfl, hsame.trans (sameBytes rfl rfl rfl rfl)⟩
  · cases hstep

theorem readRound (h : Backed bs s) (hheap : Heap True s) {offset finalOffset : Nat}
    (hflushed : ∀ b, s.file.cache.findFilled offset = some b → ∀ buffer,
      s.file.cache.buffers b = some buffer →
      (offset + FileState.readLen buffer offset (FileState.roundLength offset finalOffset)) %
        2 ^ 64 % cacheBufferSize = 0 → buffer.bytesFlushed = buffer.bytesFilled)
    (hstep : s.readRound offset finalOffset a = .ok s') : Backed bs s' ∧ SameBytes s s' := by
  have hnext : ∀ t : FileState, t.Suits (FileState.nextRound offset finalOffset) := fun _ => trivial
  rcases FileState.readRound_ok hstep with
    rfl | ⟨-, rfl⟩ | ⟨b, buffer, hfind, hbuffer, -, ⟨hend, rfl⟩ | ⟨-, rfl⟩⟩
  · exact ⟨h, .refl _⟩
  · have hread : s.Suits (.rwFromFile none
        ⟨true, offset, List.replicate (FileState.roundLength offset finalOffset) 0⟩) := rfl
    exact ⟨(h.send hread).send (hnext _), sameBytes rfl rfl rfl rfl⟩
  · obtain ⟨-, other, hother, hpos⟩ := Present.findFilled_some hfind
    obtain rfl := Option.some.inj (hbuffer.symm.trans hother)
    have hall := hflushed b hfind buffer hbuffer hend
    obtain ⟨hremoved, hsame⟩ := h.removeBuffer hheap
      (hheap.removeBuffer hbuffer fun _ => hheap.clean_of_flushed hbuffer hpos hall) hbuffer hall
    exact ⟨hremoved.send (hnext _), hsame.trans (sameBytes rfl rfl rfl rfl)⟩
  · exact ⟨h.send (hnext _), sameBytes rfl rfl rfl rfl⟩

/-- A buffer that was read ahead has what the blob has. -/
theorem readaheadDone (h : Backed bs s) (hunit : bs.ioUnitSize ∣ cacheBufferSize)
    {old : CacheBuffer} {length : Nat} (hheap : Heap True (s.held (.readaheadRead b length)))
    (hheap' : Heap True s') (hlt : s.file.appendPos < 2 ^ 64)
    (hsuits : s.Suits (.readaheadRead b length)) (hold : s.file.cache.buffers b = some old)
    (hs' : s' = (s.setMem b (s.blob.ioRead bs (s.mem b)
      (getPageParameters bs old.offset length).1
      (getPageParameters bs old.offset length).2)).readaheadDone b old length) :
    Backed bs s' ∧ SameBytes s s' := by
  obtain ⟨hzero, -, hsize⟩ := hheap.fits _ List.mem_cons_self b rfl old hold
  have hsits := hheap.sits b old hold
  have hends := hsuits old hold
  have hflushed := h.flushed
  have hself : s'.file.cache.buffers b = some { old with
      bytesFilled := length, bytesFlushed := length, inProgress := false } := by
    rw [hs']
    exact Function.update_self ..
  have hothers : ∀ c, c ≠ b → s'.file.cache.buffers c = s.file.cache.buffers c ∧
      s'.mem c = s.mem c := by
    rw [hs']
    exact fun c hc => ⟨Function.update_of_ne hc .., Function.update_of_ne hc ..⟩
  have hmem : ∀ k < length, s'.mem b k = s.blob.bytes (old.offset + k) := by
    intro k hk
    obtain ⟨hfirst, hstart, hend, -⟩ := units_inside hunit hsits.aligned
      (Nat.le_refl _) (show 0 < length by omega) (by omega) (by omega)
    have heq := Nat.le_antisymm hstart hfirst
    rw [hs']
    change Function.update s.mem b _ b k = _
    rw [Function.update_self, Async.Blob.ioRead, splice_inside (by omega), heq, Nat.sub_zero]
  have hrest : s'.file.length = s.file.length ∧ s'.file.appendPos = s.file.appendPos ∧
      s'.file.lengthFlushed = s.file.lengthFlushed ∧ s'.blob = s.blob ∧ s'.pending = s.pending := by
    rw [hs']
    exact ⟨rfl, rfl, rfl, rfl, rfl⟩
  obtain ⟨hlength, happend, hcursor, hblob, hpending⟩ := hrest
  have hnone : ∀ p, ¬ old.Has p := fun p hp => by
    have := hp.1
    have := hp.2
    omega
  constructor
  · exact {
      length := by rw [hlength, happend]; exact h.length
      flushed := by rw [hcursor, happend]; exact h.flushed
      inBlob := by rw [hcursor, hblob]; exact h.inBlob
      xattr := by rw [hcursor, hblob]; exact h.xattr
      buffers := by
        intro c buffer hbuffer
        by_cases hc : c = b
        · subst hc
          obtain rfl := Option.some.inj (hself.symm.trans hbuffer)
          refine ⟨fun _ => ?_, fun _ => hcursor ▸ hends, fun hlt => absurd hlt (Nat.lt_irrefl _),
            fun k hk => ?_⟩
          · rw [happend]
            exact hends.trans hflushed
          · rw [hblob]
            exact (hmem k hk).symm
        · obtain ⟨hsame, hsameMem⟩ := hothers c hc
          obtain ⟨hends, hbehind, hafter, honBlob⟩ := h.buffers c buffer (hsame ▸ hbuffer)
          exact ⟨happend ▸ hends, hcursor ▸ hbehind, hcursor ▸ hafter, by rwa [hblob, hsameMem]⟩
      covered := by
        rw [hcursor, happend]
        intro p hle hlt
        obtain ⟨c, buffer, hbuffer, hp⟩ := h.covered p hle hlt
        have hc : c ≠ b := by
          rintro rfl
          obtain rfl := Option.some.inj (hold.symm.trans hbuffer)
          exact hnone p hp
        exact ⟨c, buffer, (hothers c hc).1.trans hbuffer, hp⟩
      works := by
        rw [hpending]
        intro w hw
        have hsuits' := h.works w hw
        cases w with
        | flushWrite c o l => exact hsuits'.trans hcursor.symm
        | readahead c n | readaheadRead c n =>
            have hc : c ≠ b := by
              rintro rfl
              exact hheap.leases.held rfl (List.mem_filterMap.mpr ⟨_, hw, rfl⟩)
            intro buffer hbuffer
            rw [hcursor]
            exact hsuits' buffer ((hothers c hc).1.symm.trans hbuffer)
        | _ => exact hsuits' }
  refine ⟨Nat.le_of_eq happend.symm, fun p hp => ?_⟩
  refine FileState.view_moved (s := s.held (.readaheadRead b length)) hheap hheap'
    (fun c buffer hbuffer hin => Or.inl ?_)
    fun huncached => ⟨by rw [hblob]; rfl, fun c buffer hbuffer hin => ?_⟩
  · have hc : c ≠ b := by
      rintro rfl
      obtain rfl := Option.some.inj (hold.symm.trans hbuffer)
      exact hnone p hin
    exact ⟨buffer, (hothers c hc).1.trans hbuffer, hin, congrFun (hothers c hc).2 _⟩
  · by_cases hc : c = b
    · subst hc
      obtain rfl := Option.some.inj (hself.symm.trans hbuffer)
      obtain ⟨hfirst, hlast⟩ := hin
      dsimp only at hfirst hlast ⊢
      refine (hmem _ (by omega)).trans (congrArg s.blob.bytes ?_)
      omega
    · exact absurd hin (huncached c buffer ((hothers c hc).1.symm.trans hbuffer))

end Backed

end Nbfs.Cache
