import Nbfs.Cache.Contents
import Nbfs.Cache.EndOfFile

set_option autoImplicit false

/-!
# An append that fails (`lib/NBFS/NBFS.c`)

`spdk_file_write` moves `append_pos` before it sends a write past the cache, and in each
round of its loop before it takes the next buffer; what fails after that finds the file
changed.
-/

namespace Nbfs.Cache

open Nbfs.Lib
open Nbfs.Async (Blobstore Stage bytesToClusters ENOMEM EINVAL)

namespace FileState

/-- The byte of the file at `p`, where there is one that can be read. -/
def byteAt (bs : Blobstore) (s : FileState) (p : Nat) : Option UInt8 :=
  if p < s.fileGetLength then
    match s.cachedAt p with
    | some byte => some byte
    | none =>
        if p < s.file.length ∧ p < s.blob.numClusters * bs.clusterSz then some (s.blob.bytes p)
        else none
  else none

end FileState

/-! ### A call -/

/-- What a call of `spdk_file_write` has to do next, and how it is answered. -/
structure Moment where
  s : FileState
  a : Answer
  w : Work

/-- The call `id` does `w`, and what it then sends, until it returns `rc`. -/
inductive ComesBack (bs : Blobstore) (id : Nat) :
    FileState → Work → List Moment → Int → FileState → Prop where
  | last {s s' : FileState} {w : Work} {a : Answer} {rc : Int} :
      (s.send w).step bs a (.complete s.pending.length) = .ok s' →
        s'.notes = s.notes ++ [.replied id rc] → ComesBack bs id s w [⟨s, a, w⟩] rc s'
  | next {s s₁ s' : FileState} {w w₁ : Work} {a : Answer} {l : List Moment} {rc : Int} :
      (s.send w).step bs a (.complete s.pending.length) = .ok (s₁.send w₁) →
        s₁.pending = s.pending → s₁.notes = s.notes → ComesBack bs id s₁ w₁ l rc s' →
          ComesBack bs id s w (⟨s, a, w⟩ :: l) rc s'

/-- `spdk_file_write`, with no other step of the file in between: it returns `rc`. -/
inductive WriteCall (bs : Blobstore) (s : FileState) (offset : Nat) (payload : List UInt8) :
    List Moment → Int → FileState → Prop where
  | returns {rc : Int} : s.isFree = false →
      (s.fileWrite offset payload).notes = s.notes ++ [.replied s.brk rc] →
        WriteCall bs s offset payload [] rc (s.fileWrite offset payload)
  | sends {w : Work} {l : List Moment} {rc : Int} {s' : FileState} : s.isFree = false →
      s.fileWrite offset payload = s.alloc.send w → ComesBack bs s.brk s.alloc w l rc s' →
        WriteCall bs s offset payload l rc s'

/-! ### What a failed call may change -/

namespace Moment

/-- It fails after `append_pos` was moved: on the way past the cache, or where the next buffer
is to follow one that was just filled. -/
def Spoils (bs : Blobstore) (m : Moment) : Prop :=
  match m.w with
  | .append .. => m.s.GoesPast m.a ∧ m.a.request = false
  | .rwFromFile _ call => m.a.request = false ∨ m.a.malloc (Async.rwLength bs call) = none ∨
      m.s.file.length < call.last ∧ m.a.truncate = false
  | .rw _ (.read _) => False
  | .rw .. => m.a.bserrno ≠ 0
  | .fill _ b payload _ => payload ≠ [] ∧ m.a.buffer = false ∧
      ∃ last, m.s.file.cache.buffers b = some last ∧ 0 < FileState.fillLength last payload ∧
        (last.bytesFilled + FileState.fillLength last payload) % 2 ^ 32 = cacheBufferSize
  | _ => False

/-- The blob is made smaller, and loses a byte that is not cached: the count of its clusters
came from an end that passed 2^64. -/
def Cuts (bs : Blobstore) (m : Moment) : Prop :=
  match m.w with
  | .extendResize _ numClusters _ => m.a.bserrno = 0 ∧
      ∃ p, m.s.cachedAt p = none ∧ m.s.byteAt bs p ≠ none ∧ numClusters * bs.clusterSz ≤ p
  | _ => False

/-- It fails after the resize of the blob, before anything is appended. -/
def Denied (m : Moment) : Prop :=
  match m.w with
  | .extendSync .. => m.a.bserrno ≠ 0
  | .startFill .. => m.a.flushRequest = false
  | .fill _ b payload _ => payload ≠ [] ∧ m.a.buffer = false ∧
      ∃ last, m.s.file.cache.buffers b = some last ∧ FileState.fillLength last payload = 0
  | _ => False

end Moment

namespace FileState

variable {bs : Blobstore} {s s' : FileState} {a : Answer} {w : Work} {id : Nat}

theorem openLast_appendPos (h : s.openLast a = .ok s') : s'.file.appendPos = s.file.appendPos := by
  rcases openLast_ok h with ⟨rfl, -⟩ | ⟨-, -, r, happend⟩
  · rfl
  rcases (cacheAppendBuffer_ok happend).2.2 with ⟨-, rfl⟩ | ⟨-, -, -, rfl⟩
  · rfl
  · rfl

theorem appendPos_lt_append {offset : Nat} {payload : List UInt8} (hlt : s.file.appendPos < 2 ^ 64)
    (h : s.append bs id offset payload a = .ok s') : s'.file.appendPos < 2 ^ 64 := by
  obtain ⟨s₁, hopen, hrest⟩ := append_ok h
  have hmod : (s₁.file.appendPos + payload.length) % 2 ^ 64 < 2 ^ 64 := Nat.mod_lt _ (by decide)
  have h₁ : s₁.file.appendPos < 2 ^ 64 := openLast_appendPos hopen ▸ hlt
  rcases hrest with ⟨-, rfl | rfl⟩ | ⟨-, -, ⟨-, rfl⟩ | ⟨-, hfill⟩⟩
  · exact hmod
  · exact hmod
  · exact h₁
  · rcases startFill_ok hfill with rfl | ⟨last, -, rfl⟩
    · exact h₁
    · exact h₁

theorem appendPos_lt_fillRound {b : BufRef} {payload : List UInt8} {filled : Nat}
    (h : s.fillRound id b payload filled a = .ok s') : s'.file.appendPos < 2 ^ 64 := by
  obtain ⟨last, -, hround⟩ := fillRound_ok h
  have hcopied : (s.copied b last payload).file.appendPos < 2 ^ 64 := Nat.mod_lt _ (by decide)
  rcases hround with ⟨-, rfl⟩ | ⟨-, r, s₁, happend, hnext⟩
  · exact hcopied
  have h₁ : s₁.file.appendPos < 2 ^ 64 := by
    rcases (cacheAppendBuffer_ok happend).2.2 with ⟨-, rfl⟩ | ⟨-, -, -, rfl⟩
    · exact hcopied
    · exact hcopied
  rcases hnext with ⟨c, -, rfl⟩ | ⟨-, rfl⟩
  · exact h₁
  · exact h₁

theorem appendPos_lt_rwComplete {op : Option Nat} {stage : Stage} (hlt : s.file.appendPos < 2 ^ 64)
    (h : s.rwComplete bs op stage a = .ok s') : s'.file.appendPos < 2 ^ 64 := by
  obtain ⟨t, hasync, hstage⟩ := rwComplete_ok h
  rw [(Frame.rwStage hstage).appendPos]
  rcases asyncStep_ok rfl hasync with ⟨-, happend, -⟩ | ⟨length, rw, -, -, -, happend, -⟩
  · exact happend.trans_lt hlt
  · exact happend.trans_lt ((Nat.min_le_left _ _).trans_lt hlt)

theorem appendPos_lt_fileRead {offset length : Nat} (hlt : s.file.appendPos < 2 ^ 64)
    (h : s.fileRead offset length a = .ok s') : s'.file.appendPos < 2 ^ 64 := by
  have hahead : ∀ {t t' : FileState} {o : Nat} {ok : Bool}, t.file.appendPos < 2 ^ 64 →
      t.checkReadahead o ok = .ok t' → t'.file.appendPos < 2 ^ 64 := by
    intro t t' o ok ht hstep
    rcases checkReadahead_ok hstep with rfl | ⟨-, -, -, rfl⟩
    · exact ht
    · exact ht
  rcases fileRead_ok h with rfl | ⟨n, s₁, -, haheads, rfl⟩
  · exact hlt
  rcases checkReadaheads_ok haheads with rfl | ⟨-, s₂, hfirst, hsecond⟩
  · exact hlt
  · have hpos : s₁.file.appendPos < 2 ^ 64 :=
      hahead (hahead (t := s.sequential offset n) hlt hfirst) hsecond
    exact hpos

/-- A step leaves `append_pos` below 2^64. -/
theorem appendPos_lt_step {e : FileEvent × Answer} (hlt : s.file.appendPos < 2 ^ 64)
    (hstep : FileSteps bs s e s') : s'.file.appendPos < 2 ^ 64 := by
  obtain ⟨event, a⟩ := e
  obtain ⟨-, hact⟩ := step_ok hstep
  cases event with
  | read offset length => exact appendPos_lt_fileRead hlt hact
  | reclaim =>
      obtain rfl := Except.ok.inj hact
      unfold reclaimCacheBuffers
      split
      · exact hlt
      dsimp only
      split
      all_goals exact hlt
  | free =>
      simp only [act, fileFree] at hact
      split at hact
      · obtain rfl := Except.ok.inj hact
        exact hlt
      split at hact
      · obtain rfl := Except.ok.inj hact
        exact hlt
      · cases hact
  | complete i =>
      obtain ⟨w, hw, hperform⟩ := complete_ok hact
      have htake : (s.take i).file.appendPos < 2 ^ 64 := hlt
      cases w with
      | append id offset payload => exact appendPos_lt_append htake hperform
      | extendResize id numClusters payload =>
          simp only [perform] at hperform
          split at hperform
          · obtain rfl := Except.ok.inj hperform
            exact hlt
          · obtain ⟨-, rfl⟩ := blobOp_ok hperform
            exact hlt
      | startFill id payload =>
          rcases startFill_ok hperform with rfl | ⟨last, -, rfl⟩
          · exact hlt
          · exact hlt
      | fill id b payload filled =>
          simp only [perform] at hperform
          split at hperform
          · obtain rfl := Except.ok.inj hperform
            rw [(Frame.endFill _ _ _).appendPos]
            exact hlt
          · exact appendPos_lt_fillRound hperform
      | rw id stage => exact appendPos_lt_rwComplete htake hperform
      | flush =>
          rcases fileFlush_ok hperform with
            ⟨-, rfl⟩ | ⟨b, next, -, -, ⟨rfl, -⟩ | ⟨rfl, -⟩ | ⟨-, -, -, rfl⟩⟩
          all_goals exact hlt
      | flushWrite b offset length =>
          obtain ⟨next, -, hperform⟩ := bind_ok.mp hperform
          obtain ⟨s₁, hwrite, hdone⟩ := bind_ok.mp hperform
          obtain rfl := fileFlushDone_ok hdone
          rcases flushed_ok hwrite with ⟨-, rfl⟩ | ⟨-, -, rfl⟩
          all_goals exact hlt
      | readahead b length =>
          obtain rfl := Frame.readahead hperform
          exact hlt
      | readaheadRead b length =>
          obtain ⟨buffer, -, hperform⟩ := bind_ok.mp hperform
          obtain ⟨s₁, hread, hret⟩ := bind_ok.mp hperform
          obtain rfl := Except.ok.inj hret
          obtain ⟨image, rfl, -⟩ := readAhead_ok hread
          exact hlt
      | readLoop offset final =>
          rcases readRound_ok hperform with
            rfl | ⟨-, rfl⟩ | ⟨b, buffer, -, -, -, ⟨-, rfl⟩ | ⟨-, rfl⟩⟩
          all_goals exact hlt
      | truncateResize id length =>
          rcases fsTruncateResizeCb_ok hperform with ⟨-, rfl⟩ | ⟨-, rfl⟩
          · exact hlt
          · exact (Nat.min_le_left _ _).trans_lt hlt
      | _ => exact (Frame.perform hperform trivial).appendPos.trans_lt hlt
  | _ => exact (Frame.act hact trivial).appendPos.trans_lt hlt

end FileState

/-- What holds of every file that is reached. -/
structure Sound (s : FileState) : Prop where
  heap : Heap False s
  lt : s.file.appendPos < 2 ^ 64

theorem Sound.step {bs : Blobstore} {s s' : FileState} {e : FileEvent × Answer} (h : Sound s)
    (hstep : FileSteps bs s e s') : Sound s' :=
  ⟨h.heap.step False.elim hstep, FileState.appendPos_lt_step h.lt hstep⟩

theorem Sound.of_runs {bs : Blobstore} {start s : FileState}
    {ok : FileState → FileEvent × Answer → Prop} (hinitial : start.Initial bs)
    (hrun : Runs (FileSteps bs) ok start s) : Sound s :=
  hrun.keeps ⟨Heap.initial hinitial, hinitial.appendPos ▸ hinitial.length_lt⟩
    fun h _ hstep => h.step hstep

/-! ### Parts of a call -/

namespace FileState

variable {s t : FileState} {w v : Work}

theorem send_inj (h : s.send w = t.send v) (hpending : s.pending = t.pending) : s = t ∧ w = v := by
  cases s
  cases t
  simp only [send, mk.injEq] at h hpending ⊢
  obtain ⟨hfile, href, hopen, hfree, hblob, hmem, hbrk, hlist, hnotes⟩ := h
  subst hpending
  exact ⟨⟨hfile, href, hopen, hfree, hblob, hmem, hbrk, rfl, hnotes⟩, by simpa using hlist⟩

theorem take_send (s : FileState) (w : Work) : (s.send w).take s.pending.length = s := by
  have hlist : (s.pending ++ [w]).eraseIdx s.pending.length = s.pending := by
    rw [List.eraseIdx_append_of_length_le (Nat.le_refl _), Nat.sub_self]
    exact List.append_nil _
  unfold take send
  rw [hlist]

end FileState

namespace ComesBack

variable {bs : Blobstore} {s s₁ s' x : FileState} {w v : Work} {a : Answer} {l : List Moment}
  {rc err : Int} {id : Nat}

/-- What follows the part `m`, which came to `s₁`. -/
inductive After (bs : Blobstore) (id : Nat) (m : Moment) (s₁ : FileState) :
    List Moment → Int → FileState → Prop where
  | last {rc : Int} : s₁.notes = m.s.notes ++ [.replied id rc] → After bs id m s₁ [m] rc s₁
  | next {s₂ s' : FileState} {w : Work} {l : List Moment} {rc : Int} : s₁ = s₂.send w →
      s₂.pending = m.s.pending → s₂.notes = m.s.notes → ComesBack bs id s₂ w l rc s' →
        After bs id m s₁ (m :: l) rc s'

/-- The next part of a call. -/
theorem step (h : ComesBack bs id s w l rc s') : ∃ a s₁, s.perform bs a w = .ok s₁ ∧
    FileSteps bs (s.send w) (.complete s.pending.length, a) s₁ ∧
      After bs id ⟨s, a, w⟩ s₁ l rc s' := by
  have hperform : ∀ {a s₁}, (s.send w).step bs a (.complete s.pending.length) = .ok s₁ →
      s.perform bs a w = .ok s₁ := by
    intro a s₁ hstep
    obtain ⟨v, hv, hperform⟩ := FileState.complete_ok (FileState.step_ok hstep).2
    obtain rfl : w = v := by simpa [FileState.send] using hv
    rwa [FileState.take_send] at hperform
  cases h with
  | last hstep hnotes => exact ⟨_, _, hperform hstep, hstep, .last hnotes⟩
  | next hstep hpending hnotes hrest =>
      exact ⟨_, _, hperform hstep, hstep, .next rfl hpending hnotes hrest⟩

/-- The part replied. -/
theorem After.replied {m : Moment} (h : After bs id m (x.reply id err) l rc s')
    (hnotes : x.notes = m.s.notes) : l = [m] ∧ rc = err ∧ s' = x.reply id err := by
  cases h with
  | last hreply =>
      have hsame : [Note.replied id err] = [.replied id rc] :=
        List.append_cancel_left ((congrArg (· ++ _) hnotes).symm.trans hreply)
      obtain ⟨-, hrc⟩ := Note.replied.inj (List.singleton_inj.mp hsame)
      exact ⟨rfl, hrc.symm, rfl⟩
  | next heq hpending hkept hrest =>
      have hnone : x.notes ++ [Note.replied id err] = m.s.notes :=
        (congrArg FileState.notes heq).trans hkept
      rw [hnotes] at hnone
      exact absurd hnone (by simp)

/-- The part sent the next one. -/
theorem After.sent {m : Moment} (h : After bs id m (x.send v) l rc s')
    (hpending : x.pending = m.s.pending) (hnotes : x.notes = m.s.notes) :
    ∃ l', l = m :: l' ∧ ComesBack bs id x v l' rc s' := by
  cases h with
  | last hreply =>
      have hnone : m.s.notes = m.s.notes ++ [.replied id rc] := hnotes.symm.trans hreply
      exact absurd hnone (by simp)
  | next heq hsame hkept hrest =>
      obtain ⟨rfl, rfl⟩ := FileState.send_inj heq (hpending.trans hsame.symm)
      exact ⟨_, rfl, hrest⟩

/-- The parts of a call are steps of the file. -/
theorem runs (h : ComesBack bs id s w l rc s') :
    Runs (FileSteps bs) (fun _ _ => True) (s.send w) s' := by
  induction h with
  | last hstep _ => exact .one (e := (FileEvent.complete _, _)) trivial hstep
  | next hstep _ _ _ ih => exact (Runs.one (e := (FileEvent.complete _, _)) trivial hstep).trans ih

end ComesBack

theorem fileSteps_write {bs : Blobstore} {s : FileState} {offset : Nat} {payload : List UInt8}
    (hfree : s.isFree = false) :
    FileSteps bs s (.write offset payload, success) (s.fileWrite offset payload) := by
  rw [FileSteps, FileState.step, hfree]
  rfl

/-- A call of `spdk_file_write` is a run of the file. -/
theorem WriteCall.runs {bs : Blobstore} {s s' : FileState} {offset : Nat} {payload : List UInt8}
    {l : List Moment} {rc : Int} (h : WriteCall bs s offset payload l rc s') :
    Runs (FileSteps bs) (fun _ _ => True) s s' := by
  cases h with
  | returns hfree _ => exact .one trivial (fileSteps_write hfree)
  | sends hfree hsend hrest =>
      exact (Runs.one trivial (hsend ▸ fileSteps_write hfree)).trans hrest.runs

namespace FileState

variable {bs : Blobstore} {s : FileState} {p : Nat} {byte : UInt8}

/-- The state after the blob was resized for an append. -/
def resized (s : FileState) (bs : Blobstore) (numClusters : Nat) (contents : Nat → UInt8) :
    FileState :=
  { s with blob := s.blob.resize bs numClusters contents }

end FileState

/-- The end of the file, what is cached of it and its blob stay. -/
structure Still (s s' : FileState) : Prop where
  appendPos : s'.file.appendPos = s.file.appendPos
  length : s'.file.length = s.file.length
  cached : ∀ p, s'.cachedAt p = s.cachedAt p
  blob : s'.blob = s.blob

/-- So they do, but `length` may have come to `append_pos`. -/
structure Settled (s s' : FileState) : Prop where
  appendPos : s'.file.appendPos = s.file.appendPos
  fileGetLength : s'.fileGetLength = s.fileGetLength
  length : s.file.length ≤ s'.file.length
  cached : ∀ p, s'.cachedAt p = s.cachedAt p
  blob : s'.blob = s.blob

section unchanged

variable {bs : Blobstore} {s t s' : FileState} {payload : List UInt8} {rc : Int}

theorem Still.refl (s : FileState) : Still s s := ⟨rfl, rfl, fun _ => rfl, rfl⟩

theorem Still.trans (h : Still s t) (h' : Still t s') : Still s s' where
  appendPos := h'.appendPos.trans h.appendPos
  length := h'.length.trans h.length
  cached := fun p => (h'.cached p).trans (h.cached p)
  blob := h'.blob.trans h.blob

theorem Still.fileGetLength (h : Still s s') : s'.fileGetLength = s.fileGetLength := by
  unfold FileState.fileGetLength
  rw [h.length, h.appendPos]

theorem Still.settled (h : Still s s') : Settled s s' :=
  ⟨h.appendPos, h.fileGetLength, Nat.le_of_eq h.length.symm, h.cached, h.blob⟩

theorem Settled.reply (h : Settled s s') (id : Nat) (rc : Int) : Settled s (s'.reply id rc) :=
  ⟨h.appendPos, h.fileGetLength, h.length, h.cached, h.blob⟩

theorem Still.byteAt (h : Still s s') (p : Nat) : s'.byteAt bs p = s.byteAt bs p := by
  unfold FileState.byteAt
  rw [h.fileGetLength, h.cached p, h.length, h.blob]

end unchanged

/-! ### How a call ends -/

/-- The blob loses nothing in the parts of a call. -/
def Uncut (bs : Blobstore) (l : List Moment) : Prop := ∀ m ∈ l, ¬ m.Cuts bs

/-- The call returns 0, and no part of it failed. -/
structure Accepted (bs : Blobstore) (l : List Moment) (rc : Int) : Prop where
  zero : rc = 0
  fine : ∀ m ∈ l, ¬ m.Spoils bs ∧ ¬ m.Denied

/-- The call fails before anything is appended. -/
structure Kept (bs : Blobstore) (s : FileState) (l : List Moment) (rc : Int) (s' : FileState) :
    Prop where
  nonzero : rc ≠ 0
  settled : Settled s s'
  denied : ∃ m ∈ l, m.Denied
  unspoiled : ∀ m ∈ l, ¬ m.Spoils bs

/-- The call fails after some of its bytes, of which there are `size`, were appended. -/
structure Moved (bs : Blobstore) (s : FileState) (size : Nat) (l : List Moment) (rc : Int)
    (s' : FileState) : Prop where
  nonzero : rc ≠ 0
  spoils : ∃ m ∈ l, m.Spoils bs
  moved : ∃ k, 0 < k ∧ k ≤ size ∧ s'.file.appendPos = (s.file.appendPos + k) % 2 ^ 64

section ends

variable {bs : Blobstore} {s t s' : FileState} {payload : List UInt8} {rc : Int} {m : Moment}
  {l : List Moment} {size : Nat}

theorem Uncut.nil : Uncut bs [] := fun _ hm => nomatch hm

theorem Uncut.cons (h : Uncut bs l) (hm : ¬ m.Cuts bs) : Uncut bs (m :: l) :=
  List.forall_mem_cons.mpr ⟨hm, h⟩

theorem Accepted.cons (h : Accepted bs l rc) (hm : ¬ m.Spoils bs ∧ ¬ m.Denied) :
    Accepted bs (m :: l) rc :=
  ⟨h.zero, List.forall_mem_cons.mpr ⟨hm, h.fine⟩⟩

theorem Kept.cons (h : Kept bs s l rc s') (hm : ¬ m.Spoils bs) : Kept bs s (m :: l) rc s' :=
  ⟨h.nonzero, h.settled, h.denied.imp fun _ hd => ⟨List.mem_cons_of_mem _ hd.1, hd.2⟩,
    List.forall_mem_cons.mpr ⟨hm, h.unspoiled⟩⟩

/-- A part that appended `k` bytes, or none, came before. -/
theorem Moved.cons (h : Moved bs t size l rc s') {k : Nat}
    (happend : t.file.appendPos = (s.file.appendPos + k) % 2 ^ 64) :
    Moved bs s (k + size) (m :: l) rc s' := by
  obtain ⟨n, hn, hsize, hmoved⟩ := h.moved
  refine ⟨h.nonzero, h.spoils.imp fun _ hs => ⟨List.mem_cons_of_mem _ hs.1, hs.2⟩, k + n,
    Nat.add_pos_right k hn, Nat.add_le_add_left hsize k, ?_⟩
  rw [hmoved, happend, Nat.mod_add_mod, Nat.add_assoc]

/-- A part that appended nothing came before. -/
theorem Moved.skip (h : Moved bs t size l rc s')
    (happend : t.file.appendPos = s.file.appendPos) : Moved bs s size (m :: l) rc s' :=
  ⟨h.nonzero, h.spoils.imp fun _ hs => ⟨List.mem_cons_of_mem _ hs.1, hs.2⟩, happend ▸ h.moved⟩

/-- A part in which a byte is appended, and which fails. -/
theorem Moved.one (hrc : rc ≠ 0) (hm : m.Spoils bs) {k : Nat} (hk : 0 < k) (hsize : k ≤ size)
    (happend : s'.file.appendPos = (s.file.appendPos + k) % 2 ^ 64) :
    Moved bs s size [m] rc s' :=
  ⟨hrc, ⟨m, List.mem_singleton_self m, hm⟩, k, hk, hsize, happend⟩

end ends

/-! ### The loop -/

section fill

variable {bs : Blobstore} {s s' : FileState} {payload : List UInt8} {rc : Int} {l : List Moment}
  {b : BufRef} {last : CacheBuffer} {id filled : Nat}

/-- Nothing is left to copy. -/
theorem ComesBack.copiedAll (h : ComesBack bs id s (.fill id b [] filled) l rc s') :
    Uncut bs l ∧ Accepted bs l rc := by
  obtain ⟨a, s₁, hperform, -, hafter⟩ := h.step
  obtain rfl : s.endFill id filled = s₁ := by
    rw [FileState.perform, if_pos rfl] at hperform
    exact Except.ok.inj hperform
  obtain ⟨rfl, rfl⟩ : l = [⟨s, a, .fill id b [] filled⟩] ∧ rc = 0 := by
    unfold FileState.endFill at hafter
    split at hafter
    · obtain ⟨hl, hrc, -⟩ := hafter.replied rfl
      exact ⟨hl, hrc⟩
    · cases hafter with
      | last hreply =>
          obtain ⟨-, hrc⟩ := Note.replied.inj (List.singleton_inj.mp
            (List.append_cancel_left hreply))
          exact ⟨rfl, hrc.symm⟩
      | next heq hpending hkept hrest =>
          have hnone : s.notes ++ [Note.replied id 0] = s.notes :=
            (congrArg FileState.notes heq).trans hkept
          exact absurd hnone (by simp)
  exact ⟨Uncut.nil.cons (fun hcuts => hcuts), ⟨rfl, List.forall_mem_singleton.mpr
    ⟨fun hspoils => hspoils.1 rfl, fun hdenied => hdenied.1 rfl⟩⟩⟩

/-- A round copies something while there is room. -/
theorem fillLength_pos (hroom : last.bytesFilled < cacheBufferSize) (hpayload : payload ≠ []) :
    0 < FileState.fillLength last payload := by
  rw [FileState.fillLength_eq (Nat.le_of_lt hroom)]
  exact Nat.lt_min.mpr ⟨Nat.sub_pos_of_lt hroom, List.length_pos_iff.mpr hpayload⟩

/-- The loop from a buffer that has room: all is copied, or the call fails after some of it. -/
theorem ComesBack.fills (hpayload : payload ≠ []) (hlast : s.file.cache.buffers b = some last)
    (hroom : last.bytesFilled < cacheBufferSize)
    (h : ComesBack bs id s (.fill id b payload filled) l rc s') :
    Uncut bs l ∧ (Accepted bs l rc ∨ Moved bs s payload.length l rc s') := by
  induction l generalizing s b last payload filled with
  | nil =>
      obtain ⟨a, s₁, -, -, hafter⟩ := h.step
      cases hafter
  | cons m l ih =>
      obtain ⟨a, s₁, hperform, -, hafter⟩ := h.step
      rw [FileState.perform, if_neg hpayload] at hperform
      obtain ⟨other, hother, hround⟩ := FileState.fillRound_ok hperform
      obtain rfl := Option.some.inj (hlast.symm.trans hother)
      have hk := fillLength_pos hroom hpayload
      have hcopy := @FileState.fillLength_eq last payload (Nat.le_of_lt hroom)
      have hfilled := @FileState.bytesFilled_eq last payload (Nat.le_of_lt hroom)
      have hundenied : ¬ Moment.Denied ⟨s, a, .fill id b payload filled⟩ := by
        rintro ⟨-, -, other, hother, hzero⟩
        obtain rfl := Option.some.inj (hlast.symm.trans hother)
        exact Nat.ne_of_gt hk hzero
      rcases hround with ⟨hnot, rfl⟩ | ⟨hfull, r, s₂, happend, ⟨c, rfl, rfl⟩ | ⟨rfl, rfl⟩⟩
      · have hall : payload.drop (FileState.fillLength last payload) = [] :=
          List.drop_eq_nil_of_le (by omega)
        obtain ⟨l', hl, hrest⟩ := hafter.sent rfl rfl
        obtain ⟨rfl, rfl⟩ := List.cons.inj hl
        obtain ⟨huncut, haccepted⟩ := (hall ▸ hrest).copiedAll
        refine ⟨huncut.cons fun hcuts => hcuts, Or.inl (haccepted.cons ⟨?_, hundenied⟩)⟩
        rintro ⟨-, -, other, hother, -, hfull⟩
        obtain rfl := Option.some.inj (hlast.symm.trans hother)
        exact hnot hfull
      · have hunspoiled : ¬ Moment.Spoils bs ⟨s, a, .fill id b payload filled⟩ := by
          rintro ⟨-, hnone, -⟩
          cases hnone.symm.trans (FileState.cacheAppendBuffer_some happend)
        obtain ⟨-, -, ⟨hnone, -⟩ | ⟨hc, -, -, rfl⟩⟩ := FileState.cacheAppendBuffer_ok happend
        · cases hnone
        obtain rfl := Option.some.inj hc
        obtain ⟨l', hl, hrest⟩ := hafter.sent rfl rfl
        obtain ⟨rfl, rfl⟩ := List.cons.inj hl
        by_cases hleft : payload.drop (FileState.fillLength last payload) = []
        · obtain ⟨huncut, haccepted⟩ := (hleft ▸ hrest).copiedAll
          exact ⟨huncut.cons fun hcuts => hcuts, Or.inl (haccepted.cons ⟨hunspoiled, hundenied⟩)⟩
        · have hnew : ((s.copied b last payload).appended).file.cache.buffers s.brk =
              some ⟨(s.copied b last payload).file.appendPos, 0, 0, false⟩ :=
                Function.update_self ..
          obtain ⟨huncut, hends⟩ := ih hleft hnew (show 0 < cacheBufferSize by decide) hrest
          refine ⟨huncut.cons fun hcuts => hcuts, hends.imp (fun haccepted =>
            haccepted.cons ⟨hunspoiled, hundenied⟩) fun hmoved => ?_⟩
          have hlen : payload.length = FileState.fillLength last payload +
              (payload.drop (FileState.fillLength last payload)).length := by
            rw [List.length_drop]
            omega
          exact hlen ▸ hmoved.cons rfl
      · obtain ⟨-, -, ⟨-, rfl⟩ | ⟨hc, -⟩⟩ := FileState.cacheAppendBuffer_ok happend
        · obtain ⟨hl, rfl, rfl⟩ := hafter.replied rfl
          obtain ⟨rfl, rfl⟩ := List.cons.inj hl
          refine ⟨Uncut.nil.cons fun hcuts => hcuts, Or.inr (.one (by decide) ?_ hk (by omega) rfl)⟩
          exact ⟨hpayload, FileState.cacheAppendBuffer_none happend, last, hlast, hk, hfull⟩
        · cases hc

/-- The loop: all is copied, or the call fails before or after some of it. -/
def Ends (bs : Blobstore) (s : FileState) (size : Nat) (l : List Moment) (rc : Int)
    (s' : FileState) : Prop :=
  Uncut bs l ∧ (Accepted bs l rc ∨ Kept bs s l rc s' ∨ Moved bs s size l rc s')

theorem Ends.cons {size : Nat} {m : Moment} (h : Ends bs s size l rc s')
    (hm : ¬ m.Cuts bs ∧ ¬ m.Spoils bs ∧ ¬ m.Denied) : Ends bs s size (m :: l) rc s' := by
  refine ⟨h.1.cons hm.1, ?_⟩
  rcases h.2 with haccepted | hkept | hmoved
  · exact Or.inl (haccepted.cons hm.2)
  · exact Or.inr (Or.inl (hkept.cons hm.2.1))
  · exact Or.inr (Or.inr (hmoved.skip rfl))

/-- A part that is denied ends the call. -/
theorem Ends.denied {size : Nat} {m : Moment} (hm : ¬ m.Cuts bs ∧ ¬ m.Spoils bs ∧ m.Denied)
    (hrc : rc ≠ 0) (hsettled : Settled s s') : Ends bs s size [m] rc s' :=
  ⟨Uncut.nil.cons hm.1, Or.inr (Or.inl ⟨hrc, hsettled, ⟨m, List.mem_singleton_self m, hm.2.2⟩,
    List.forall_mem_singleton.mpr hm.2.1⟩)⟩

end fill

/-! ### Past the cache -/

section past

variable {bs : Blobstore} {s s' : FileState} {a : Answer} {rc : Int} {l : List Moment}
  {stage : Stage} {id : Nat}

/-- A request past the cache leaves `append_pos` where it is; it returns 0, or fails. -/
def Passes (bs : Blobstore) (s : FileState) (l : List Moment) (rc : Int) (s' : FileState) : Prop :=
  s'.file.appendPos = s.file.appendPos ∧
    (Accepted bs l rc ∨ rc ≠ 0 ∧ ∃ m ∈ l, m.Spoils bs)

theorem Passes.cons {t : FileState} {m : Moment} (h : Passes bs t l rc s')
    (happend : t.file.appendPos = s.file.appendPos) (hm : ¬ m.Spoils bs ∧ ¬ m.Denied) :
    Passes bs s (m :: l) rc s' :=
  ⟨h.1.trans happend, h.2.imp (fun haccepted => haccepted.cons hm) fun hfails =>
    hfails.imp_right fun hspoils => hspoils.imp fun _ hs => ⟨List.mem_cons_of_mem _ hs.1, hs.2⟩⟩

theorem Passes.fails {m : Moment} (happend : s'.file.appendPos = s.file.appendPos) (hrc : rc ≠ 0)
    (hm : m.Spoils bs) : Passes bs s [m] rc s' :=
  ⟨happend, Or.inr ⟨hrc, m, List.mem_singleton_self m, hm⟩⟩

end past

/-! ### The call -/

section call

variable {bs : Blobstore} {s s₁ s' : FileState} {a : Answer} {payload : List UInt8} {rc : Int}
  {m : Moment} {l : List Moment} {id offset numClusters : Nat}

/-- The first part of an append changes nothing that can be seen. -/
theorem Still.openLast (hheap : Heap False s) (h : s.openLast a = .ok s₁) : Still s s₁ := by
  have hopened : Heap False s.opened := hheap.fields rfl rfl rfl rfl rfl
  rcases FileState.openLast_ok h with ⟨rfl, -⟩ | ⟨-, -, r, happend⟩
  · exact ⟨rfl, rfl, fun _ => rfl, rfl⟩
  have h₁ := (hopened.cacheAppendBuffer happend).1
  rcases (FileState.cacheAppendBuffer_ok happend).2.2 with ⟨-, rfl⟩ | ⟨-, -, -, rfl⟩
  · exact ⟨rfl, rfl, fun _ => rfl, rfl⟩
  · exact ⟨rfl, rfl, fun p => FileState.cachedAt_appended hopened h₁, rfl⟩

end call

end Nbfs.Cache
