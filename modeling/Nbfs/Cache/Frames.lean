import Nbfs.Cache.BufferHeap

set_option autoImplicit false

/-!
# What most steps leave alone

Syncs, closes and requests past the cache do not touch the cached buffers, nor `append_pos`
and `length` outside of a truncate; what they send on is about no buffer.
-/

namespace Nbfs.Cache

open Nbfs.Lib
open Nbfs.Async (Blobstore Stage ENOMEM)

/-- The work is about no buffer. -/
def Work.Free (w : Work) : Prop := w.io = none ∧ w.target = none ∧ w.round = none

/-- The buffers, the cursors of the writer and the bytes of the blob stay; new work is about no
buffer. -/
structure Frame (s s' : FileState) : Prop where
  cache : s'.file.cache = s.file.cache
  last : s'.file.last = s.file.last
  length : s'.file.length = s.file.length
  appendPos : s'.file.appendPos = s.file.appendPos
  mem : s'.mem = s.mem
  bytes : s'.blob.bytes = s.blob.bytes
  numClusters : s'.blob.numClusters = s.blob.numClusters
  isFree : s'.isFree = s.isFree
  pending : ∀ w ∈ s'.pending, w ∈ s.pending ∨ w.Free
  kept : ∀ w ∈ s.pending, w ∈ s'.pending

namespace Frame

variable {s s' s'' : FileState} {bs : Blobstore} {a : Answer} {w : Work} {id : Nat}

theorem refl (s : FileState) : Frame s s :=
  ⟨rfl, rfl, rfl, rfl, rfl, rfl, rfl, rfl, fun _ hw => Or.inl hw, fun _ hw => hw⟩

theorem trans (h : Frame s s') (h' : Frame s' s'') : Frame s s'' where
  cache := h'.cache.trans h.cache
  last := h'.last.trans h.last
  length := h'.length.trans h.length
  appendPos := h'.appendPos.trans h.appendPos
  mem := h'.mem.trans h.mem
  bytes := h'.bytes.trans h.bytes
  numClusters := h'.numClusters.trans h.numClusters
  isFree := h'.isFree.trans h.isFree
  pending := fun w hw => (h'.pending w hw).elim (h.pending w) Or.inr
  kept := fun w hw => h'.kept w (h.kept w hw)

/-- Plain work is sent. -/
theorem send (s : FileState) (hw : w.Free) : Frame s (s.send w) := by
  refine ⟨rfl, rfl, rfl, rfl, rfl, rfl, rfl, rfl, fun w' hw' => ?_, fun w' =>
    List.mem_append_left _⟩
  rcases List.mem_append.mp hw' with hold | hnew
  · exact Or.inl hold
  · exact Or.inr (List.mem_singleton.mp hnew ▸ hw)

theorem note (s : FileState) (n : Note) : Frame s (s.note n) := { refl s with }

theorem reply (s : FileState) (id : Nat) (rc : Int) : Frame s (s.reply id rc) := note s _

theorem alloc (s : FileState) : Frame s s.alloc := { refl s with }

theorem ask (s : FileState) : Frame s s.ask := { refl s with }

theorem blobOp (hw : w.Free) (hstep : s.blobOp w = .ok s') : Frame s s' := by
  obtain ⟨-, rfl⟩ := FileState.blobOp_ok hstep
  exact send s hw

/-! ### Syncs and closes -/

theorem fileCloseAsync (hstep : s.fileCloseAsync id = .ok s') : Frame s s' := by
  rcases FileState.fileCloseAsync_ok hstep with rfl | rfl | rfl
  · exact reply s _ _
  · exact { refl s with }
  · exact { send (w := .closeBlob id) s ⟨rfl, rfl, rfl⟩ with }

theorem callSyncCb {rc : Int} {cb : SyncCb} (hstep : s.callSyncCb rc cb = .ok s') :
    Frame s s' := by
  cases cb with
  | closeAsync id => exact fileCloseAsync hstep
  | client id =>
      obtain rfl := Except.ok.inj hstep
      exact reply s _ _
  | close id =>
      obtain rfl := Except.ok.inj hstep
      exact send s ⟨rfl, rfl, rfl⟩

theorem checkSyncReqs (hstep : s.checkSyncReqs = .ok s') : Frame s s' := by
  rcases FileState.checkSyncReqs_ok hstep with rfl | ⟨r, -, -, -, rfl⟩
  · exact refl _
  · exact { send (w := .syncXattr r.ref) s ⟨rfl, rfl, rfl⟩ with }

theorem fileCacheFinishSync {ref : Nat} {bserrno : Int}
    (hstep : s.fileCacheFinishSync ref bserrno = .ok s') : Frame s s' := by
  obtain ⟨r, -, -, s₁, hcb, rfl⟩ := FileState.fileCacheFinishSync_ok hstep
  have hcalled := callSyncCb hcb
  exact { hcalled.trans (send s₁ ⟨rfl, rfl, rfl⟩) with }

theorem fileSync {cb : SyncCb} (hstep : s.fileSync cb a = .ok s') : Frame s s' := by
  rcases FileState.fileSync_ok hstep with ⟨-, hcb⟩ | hcb | ⟨-, rfl⟩
  · exact callSyncCb hcb
  · exact callSyncCb hcb
  · exact { send (w := .flush) s ⟨rfl, rfl, rfl⟩ with }

/-! ### Requests past the cache -/

theorem rwStage {op : Option Nat} {stage : Stage} (hstep : s.rwStage op stage = .ok s') :
    Frame s s' := by
  rcases FileState.rwStage_ok hstep with ⟨rc, iov, -, ⟨-, rfl⟩ | ⟨id, -, rfl⟩⟩ | ⟨-, -, rfl⟩
  · exact refl _
  · exact reply s _ _
  · exact send s ⟨rfl, rfl, rfl⟩

theorem fileTruncateAsync {length : Nat} (hstep : s.fileTruncateAsync id length a = .ok s') :
    Frame s s' := by
  rcases FileState.fileTruncateAsync_ok hstep with ⟨-, rfl⟩ | rfl | rfl
  · exact reply s _ _
  · exact reply s _ _
  · exact send s ⟨rfl, rfl, rfl⟩

theorem endFill (s : FileState) (id filled : Nat) : Frame s (s.endFill id filled) := by
  unfold FileState.endFill
  split
  · exact reply s _ _
  · exact (reply s id 0).trans (send _ ⟨rfl, rfl, rfl⟩)

theorem fileWrite (s : FileState) (offset : Nat) (payload : List UInt8) :
    Frame s (s.fileWrite offset payload) := by
  unfold FileState.fileWrite
  split
  · exact (alloc s).trans (reply s.alloc _ _)
  split
  · exact (alloc s).trans (reply s.alloc _ _)
  · exact (alloc s).trans (send s.alloc ⟨rfl, rfl, rfl⟩)

end Frame

/-- Work that leaves the buffers and the cursors of the writer alone. -/
def Work.Plain : Work → Prop
  | extend .. | extendSync .. | rwFromFile .. | check _ | syncXattr _ | truncate .. | truncateSync _
  | close _ | closeBlob _ => True
  | _ => False

/-- Calls that do so. -/
def FileEvent.Plain : FileEvent → Prop
  | write .. | sync | closeAsync | close | truncate _ => True
  | _ => False

namespace Frame

variable {s s' : FileState} {bs : Blobstore} {a : Answer} {w : Work}

theorem perform (hstep : s.perform bs a w = .ok s') (hw : w.Plain) : Frame s s' := by
  cases w with
  | extend id numClusters payload => exact blobOp ⟨rfl, rfl, rfl⟩ hstep
  | extendSync id payload =>
      simp only [FileState.perform] at hstep
      split at hstep
      all_goals obtain rfl := Except.ok.inj hstep
      · exact reply s _ _
      · exact send s ⟨rfl, rfl, rfl⟩
  | rwFromFile id call => exact rwStage hstep
  | check thenFlush =>
      obtain ⟨s₁, hcheck, hret⟩ := bind_ok.mp hstep
      obtain rfl := Except.ok.inj hret
      split
      · exact (checkSyncReqs hcheck).trans (send s₁ ⟨rfl, rfl, rfl⟩)
      · exact checkSyncReqs hcheck
  | syncXattr ref => exact fileCacheFinishSync hstep
  | truncate id length => exact fileTruncateAsync hstep
  | truncateSync id =>
      obtain rfl := Except.ok.inj hstep
      exact reply s _ _
  | close id => exact fileCloseAsync hstep
  | closeBlob id =>
      obtain rfl := Except.ok.inj hstep
      exact reply s _ _
  | _ => exact hw.elim

theorem act {e : FileEvent} (hstep : s.act bs a e = .ok s') (he : e.Plain) : Frame s s' := by
  have hclose : ∀ cb, (if a.request then s.ask.fileSync cb a
      else .ok (s.ask.reply s.brk (-ENOMEM))) = .ok s' → Frame s s' := by
    intro cb hclose
    split at hclose
    · exact (ask s).trans (fileSync hclose)
    · obtain rfl := Except.ok.inj hclose
      exact (ask s).trans (reply s.ask _ _)
  cases e with
  | write offset payload =>
      obtain rfl := Except.ok.inj hstep
      exact fileWrite s offset payload
  | sync => exact (ask s).trans (fileSync hstep)
  | closeAsync => exact hclose _ hstep
  | close => exact hclose _ hstep
  | truncate length =>
      simp only [FileState.act] at hstep
      split at hstep
      all_goals obtain rfl := Except.ok.inj hstep
      · exact (alloc s).trans (send s.alloc ⟨rfl, rfl, rfl⟩)
      · exact (alloc s).trans (reply s.alloc _ _)
  | _ => exact he.elim

/-- A readahead goes on to its read. -/
theorem readahead {b : BufRef} {length : Nat}
    (hstep : s.perform bs a (.readahead b length) = .ok s') :
    s' = s.send (.readaheadRead b length) := by
  obtain ⟨buffer, -, hstep⟩ := bind_ok.mp hstep
  split at hstep
  · cases hstep
  · exact (FileState.blobOp_ok hstep).2

end Frame

end Nbfs.Cache
