import Nbfs.Cache.CleanBuffers
import Nbfs.Cache.Frames
import Nbfs.Lib.Variant
import Mathlib.Algebra.BigOperators.Group.Finset.Basic
import Mathlib.Algebra.Order.BigOperators.Group.Finset

set_option autoImplicit false

/-!
# A file comes to rest

A completion may send more: a flush looks for the next one, a sync request for the next one that
is flushed, and the loops of reads and writes for their next rounds.  What the calls brought is
used up all the same, whatever the order of the completions and whether they succeed.
-/

namespace Nbfs.Cache

open Nbfs.Lib
open Nbfs.Async (Blobstore Stage ENOMEM)

/-- How many operations a request past the cache still waits for, at most. -/
def stageRank : Stage → Nat
  | .resize .. => 4
  | .syncMd _ => 3
  | .read _ => 2
  | .write _ => 1
  | .idle | .done .. => 0

namespace Work

/-- How many completions come of the work, at most, but for those of the bytes that it leaves to
be flushed.  A byte that is written fills the buffers of at most `writers` other writes. -/
def effort (writers : Nat) (full : BufRef → Bool) : Work → Nat
  | append _ _ payload => (writers + 4) * payload.length + 10
  | extend _ _ payload => (writers + 4) * payload.length + 9
  | extendResize _ _ payload => (writers + 4) * payload.length + 8
  | extendSync _ payload => (writers + 4) * payload.length + 7
  | startFill _ payload => (writers + 4) * payload.length + 6
  | fill _ b payload _ => (writers + 4) * payload.length + 4 + if full b then 1 else 0
  | rwFromFile .. => 6
  | rw _ stage => stageRank stage + 1
  | flush => 2
  | flushWrite .. => 1
  | check thenFlush => if thenFlush then 3 else 1
  | syncXattr _ => 4
  | readahead .. => 2
  | readaheadRead .. => 1
  | readLoop offset finalOffset => 7 * (finalOffset - offset) + 1
  | truncate .. => 3
  | truncateResize .. => 2
  | truncateSync _ => 1
  | close _ => 2
  | closeBlob _ => 1

theorem effort_pos (writers : Nat) (full : BufRef → Bool) (w : Work) :
    0 < w.effort writers full := by
  cases w with
  | check thenFlush =>
      dsimp only [effort]
      split <;> decide
  | fill id b payload filled =>
      dsimp only [effort]
      omega
  | _ => exact Nat.succ_pos _

/-- A write through the cache. -/
def isFilling : Work → Bool
  | append .. | extend .. | extendResize .. | extendSync .. | startFill .. | fill .. => true
  | _ => false

end Work

/-- The blobstore is still to store the length for the request. -/
def SyncRequest.effort (r : SyncRequest) : Nat := if r.xattrInProgress then 0 else 4

namespace FileState

variable (s : FileState)

def isFull (b : BufRef) : Bool :=
  (s.file.cache.buffers b).any fun buffer => decide (buffer.bytesFilled = cacheBufferSize)

/-- How many bytes of a buffer are not flushed. -/
def unflushed (b : BufRef) : Nat :=
  (s.file.cache.buffers b).elim 0 fun buffer => buffer.bytesFilled - buffer.bytesFlushed

def writers : Nat := s.pending.countP Work.isFilling

def workEffort (writers : Nat) : Nat := (s.pending.map (Work.effort writers s.isFull)).sum

def requestEffort : Nat := (s.file.syncRequests.map SyncRequest.effort).sum

def flushEffort : Nat := ∑ b ∈ Finset.range s.brk, 3 * s.unflushed b

/-- How many completions come of what is under way, at most. -/
def effort (writers : Nat) : Nat := s.workEffort writers + s.requestEffort + s.flushEffort

/-- The reads that are under way end below 2^64. -/
def ReadsEnd : Prop := ∀ w ∈ s.pending, ∀ round ∈ w.round, round.2 < 2 ^ 64

theorem unflushed_eq {s : FileState} {b : BufRef} {buffer : CacheBuffer}
    (hb : s.file.cache.buffers b = some buffer) :
    s.unflushed b = buffer.bytesFilled - buffer.bytesFlushed := by
  unfold unflushed
  rw [hb]
  rfl

theorem isFull_eq {s : FileState} {b : BufRef} {buffer : CacheBuffer}
    (hb : s.file.cache.buffers b = some buffer) :
    s.isFull b = decide (buffer.bytesFilled = cacheBufferSize) := by
  unfold isFull
  rw [hb]
  rfl

section update

variable {s} {s' : FileState} {b : BufRef} {buffer : CacheBuffer}
  (hbuffers : s'.file.cache.buffers = Function.update s.file.cache.buffers b (some buffer))
include hbuffers

theorem unflushed_update (c : BufRef) : s'.unflushed c =
    if c = b then buffer.bytesFilled - buffer.bytesFlushed else s.unflushed c := by
  unfold unflushed
  rw [hbuffers]
  split
  · rename_i hc
    rw [hc, Function.update_self]
    rfl
  · rename_i hc
    rw [Function.update_of_ne hc]

theorem isFull_update (c : BufRef) : s'.isFull c =
    if c = b then decide (buffer.bytesFilled = cacheBufferSize) else s.isFull c := by
  unfold isFull
  rw [hbuffers]
  split
  · rename_i hc
    rw [hc, Function.update_self]
    rfl
  · rename_i hc
    rw [Function.update_of_ne hc]

/-- The buffer has as many bytes as before. -/
theorem isFull_same {old : CacheBuffer} (hb : s.file.cache.buffers b = some old)
    (hsame : buffer.bytesFilled = old.bytesFilled) : s'.isFull = s.isFull := by
  funext c
  rw [isFull_update hbuffers]
  split
  · rename_i hc
    rw [hc, isFull_eq hb, hsame]
  · rfl

end update

theorem isFull_take (i : Nat) : (s.take i).isFull = s.isFull := rfl

section pending

variable {s} {s' : FileState} (hpending : s'.pending = s.pending)
include hpending

theorem writers_congr : s'.writers = s.writers := by
  unfold writers
  rw [hpending]

theorem readsEnd_congr (hreads : s.ReadsEnd) : s'.ReadsEnd := by
  unfold ReadsEnd
  rwa [hpending]

end pending

end FileState

/-- A part of a step adds at most `n` to the effort, and at most `m` writes. -/
structure Spends (writers n m : Nat) (s s' : FileState) : Prop where
  effort : s'.effort writers ≤ s.effort writers + n
  writers : s'.writers ≤ s.writers + m
  reads : s.ReadsEnd → s'.ReadsEnd

/-- A part of a step saves `k` of the effort. -/
structure Saves (writers k : Nat) (s s' : FileState) : Prop where
  effort : s'.effort writers + k ≤ s.effort writers
  writers : s'.writers ≤ s.writers
  reads : s.ReadsEnd → s'.ReadsEnd

namespace Spends

variable {writers n n' m m' : Nat} {s s' s'' : FileState} {bs : Blobstore} {a : Answer} {w : Work}
  {b : BufRef} {id : Nat}

theorem refl (s : FileState) : Spends writers 0 0 s s := ⟨Nat.le_refl _, Nat.le_refl _, id⟩

theorem trans (h : Spends writers n m s s') (h' : Spends writers n' m' s' s'') :
    Spends writers (n + n') (m + m') s s'' where
  effort := by
    have heffort := h.effort
    have heffort' := h'.effort
    omega
  writers := by
    have hwriters := h.writers
    have hwriters' := h'.writers
    omega
  reads := fun hreads => h'.reads (h.reads hreads)

theorem ofSaves {k : Nat} (h : Saves writers k s s') : Spends writers 0 0 s s' :=
  ⟨(Nat.le_add_right _ k).trans h.effort, h.writers, h.reads⟩

/-- The queue has `k` less that is to be stored. -/
theorem queue {k : Nat} (hbuffers : s'.file.cache.buffers = s.file.cache.buffers)
    (hrequests : s'.requestEffort + k ≤ s.requestEffort) (hbrk : s'.brk = s.brk)
    (hpending : s'.pending = s.pending) : Saves writers k s s' := by
  have hfull : s'.isFull = s.isFull := by
    unfold FileState.isFull
    rw [hbuffers]
  have hunflushed : s'.unflushed = s.unflushed := by
    unfold FileState.unflushed
    rw [hbuffers]
  refine ⟨?_, Nat.le_of_eq (FileState.writers_congr hpending), FileState.readsEnd_congr hpending⟩
  unfold FileState.effort FileState.workEffort FileState.flushEffort
  rw [hfull, hunflushed, hbrk, hpending]
  omega

theorem shortens (hbuffers : s'.file.cache.buffers = s.file.cache.buffers)
    (hrequests : s'.requestEffort ≤ s.requestEffort) (hbrk : s'.brk = s.brk)
    (hpending : s'.pending = s.pending) : Spends writers 0 0 s s' :=
  ofSaves (queue (k := 0) hbuffers hrequests hbrk hpending)

theorem fields (hbuffers : s'.file.cache.buffers = s.file.cache.buffers)
    (hrequests : s'.file.syncRequests = s.file.syncRequests) (hbrk : s'.brk = s.brk)
    (hpending : s'.pending = s.pending) : Spends writers 0 0 s s' :=
  shortens hbuffers (Nat.le_of_eq (by rw [FileState.requestEffort, hrequests]; rfl)) hbrk hpending

theorem note (s : FileState) (note : Note) : Spends writers 0 0 s (s.note note) :=
  fields rfl rfl rfl rfl

theorem reply (s : FileState) (id : Nat) (rc : Int) : Spends writers 0 0 s (s.reply id rc) :=
  note s _

theorem send (s : FileState) (hround : ∀ round ∈ w.round, round.2 < 2 ^ 64) :
    Spends writers (w.effort writers s.isFull) (if w.isFilling then 1 else 0) s (s.send w) where
  effort := by
    have hwork : (s.send w).workEffort writers =
        s.workEffort writers + w.effort writers s.isFull := by
      unfold FileState.workEffort FileState.send
      rw [List.map_append, List.sum_append, List.map_singleton, List.sum_singleton]
      rfl
    have hrequest : (s.send w).requestEffort = s.requestEffort := rfl
    have hflush : (s.send w).flushEffort = s.flushEffort := rfl
    unfold FileState.effort
    omega
  writers := by
    unfold FileState.writers FileState.send
    rw [List.countP_append, List.countP_singleton]
  reads := by
    intro hreads w' hw'
    rcases List.mem_append.mp hw' with hold | hnew
    · exact hreads w' hold
    · exact List.mem_singleton.mp hnew ▸ hround

theorem le (h : Spends writers n m s s') (hn : n ≤ n') (hm : m ≤ m') : Spends writers n' m' s s' :=
  ⟨h.effort.trans (Nat.add_le_add_left hn _), h.writers.trans (Nat.add_le_add_left hm _), h.reads⟩

/-- Work that is no round of a read is sent. -/
theorem then_send (h : Spends writers n m s s') (hround : w.round = none)
    (hn : n + w.effort writers s'.isFull ≤ n') (hm : m + (if w.isFilling then 1 else 0) ≤ m') :
    Spends writers n' m' s (s'.send w) :=
  (h.trans (send s' fun round hr => by rw [hround] at hr; cases hr)).le hn hm

/-- What is saved goes to the work that is sent. -/
theorem saved_send {k : Nat} (h : Saves writers k s s') (hround : w.round = none)
    (hk : w.effort writers s'.isFull ≤ k) (hm : w.isFilling = false) :
    Spends writers 0 0 s (s'.send w) := by
  have hsent : Spends writers k 0 s' (s'.send w) :=
    (refl s').then_send hround (by omega) (by simp [hm])
  have hall := (ofSaves h).trans hsent
  refine ⟨?_, hall.writers, hall.reads⟩
  have heffort := h.effort
  have hmore := hsent.effort
  omega

theorem then_reply {rc : Int} (h : Spends writers n m s s') :
    Spends writers n m s (s'.reply id rc) :=
  h.trans (reply s' id rc)

/-! ### Buffers -/

/-- Buffers leave, or have no more that is to be flushed; no write finds its buffer full that it
would not have found so. -/
theorem shrinks (hunflushed : ∀ b, s'.unflushed b ≤ s.unflushed b)
    (hfull : ∀ w ∈ s.pending, ∀ b, w.target = some b → s'.isFull b = true → s.isFull b = true)
    (hrequests : s'.file.syncRequests = s.file.syncRequests) (hbrk : s'.brk = s.brk)
    (hpending : s'.pending = s.pending) : Spends writers 0 0 s s' := by
  have hwork : s'.workEffort writers ≤ s.workEffort writers := by
    unfold FileState.workEffort
    rw [hpending]
    refine List.sum_le_sum fun w hw => ?_
    cases w with
    | fill id b payload filled =>
        dsimp only [Work.effort]
        have hstays := hfull _ hw b rfl
        split <;> split <;> simp_all
    | _ => exact Nat.le_refl _
  have hrequest : s'.requestEffort = s.requestEffort := by
    unfold FileState.requestEffort
    rw [hrequests]
  have hflush : s'.flushEffort ≤ s.flushEffort := by
    unfold FileState.flushEffort
    rw [hbrk]
    exact Finset.sum_le_sum fun b _ => Nat.mul_le_mul_left 3 (hunflushed b)
  refine ⟨?_, Nat.le_of_eq (FileState.writers_congr hpending), FileState.readsEnd_congr hpending⟩
  unfold FileState.effort
  omega

theorem leaves (hbuffers : ∀ b buffer, s'.file.cache.buffers b = some buffer →
      s.file.cache.buffers b = some buffer)
    (hrequests : s'.file.syncRequests = s.file.syncRequests) (hbrk : s'.brk = s.brk)
    (hpending : s'.pending = s.pending) : Spends writers 0 0 s s' := by
  refine shrinks (fun b => ?_) (fun _ _ b _ hfull => ?_) hrequests hbrk hpending
  · unfold FileState.unflushed
    cases hb : s'.file.cache.buffers b with
    | none => exact Nat.zero_le _
    | some buffer =>
        rw [hbuffers b buffer hb]
  · unfold FileState.isFull at hfull ⊢
    rw [Option.any_eq_true] at hfull ⊢
    obtain ⟨buffer, hb, hsize⟩ := hfull
    exact ⟨buffer, hbuffers b buffer hb, hsize⟩

/-- A buffer has an operation under way, or has it no more. -/
theorem marks {buffer : CacheBuffer} (hb : s.file.cache.buffers b = some buffer) (busy : Bool) :
    Spends writers 0 0 s
      (s.setFile (s.file.setBuffer b { buffer with inProgress := busy })) := by
  have hbuffers : (s.setFile (s.file.setBuffer b
      { buffer with inProgress := busy })).file.cache.buffers = Function.update
        s.file.cache.buffers b (some { buffer with inProgress := busy }) := rfl
  refine shrinks (fun c => ?_) (fun _ _ c _ hfull => ?_) rfl rfl rfl
  · rw [FileState.unflushed_update hbuffers]
    split
    · rename_i hc
      rw [hc, FileState.unflushed_eq hb]
    · exact Nat.le_refl _
  · rwa [FileState.isFull_same hbuffers hb rfl] at hfull

/-- A new buffer has nothing to be flushed. -/
theorem inserts {buffer : CacheBuffer} (hempty : buffer.bytesFilled = 0)
    (hnew : s.file.cache.buffers s.brk = none)
    (hbuffers : s'.file.cache.buffers = Function.update s.file.cache.buffers s.brk (some buffer))
    (hrequests : s'.file.syncRequests = s.file.syncRequests) (hbrk : s'.brk = s.brk + 1)
    (hpending : s'.pending = s.pending) : Spends writers 0 0 s s' := by
  have hsize : 0 ≠ cacheBufferSize := by decide
  have hnone : s.unflushed s.brk = 0 ∧ s.isFull s.brk = false := by
    unfold FileState.unflushed FileState.isFull
    rw [hnew]
    exact ⟨rfl, rfl⟩
  have hunflushed : s'.unflushed = s.unflushed := by
    funext b
    rw [FileState.unflushed_update hbuffers, hempty]
    split
    · rename_i hb
      rw [hb, hnone.1, Nat.zero_sub]
    · rfl
  have hfull : s'.isFull = s.isFull := by
    funext b
    rw [FileState.isFull_update hbuffers, hempty]
    split
    · rename_i hb
      rw [hb, hnone.2, decide_eq_false hsize]
    · rfl
  refine ⟨?_, Nat.le_of_eq (FileState.writers_congr hpending), FileState.readsEnd_congr hpending⟩
  unfold FileState.effort FileState.workEffort FileState.requestEffort FileState.flushEffort
  rw [hfull, hunflushed, hrequests, hbrk, hpending, Finset.sum_range_succ, hnone.1]
  exact Nat.le_refl _

theorem cacheAppendBuffer {ok : Bool} {r : Option BufRef}
    (h : s.cacheAppendBuffer ok = .ok (r, s')) : Spends writers 0 0 s s' := by
  rcases (FileState.cacheAppendBuffer_ok h).2.2 with ⟨-, rfl⟩ | ⟨-, hnew, -, rfl⟩
  · exact refl _
  · exact inserts rfl hnew rfl rfl rfl rfl

/-! ### Syncs and closes -/

theorem fileCloseAsync (h : s.fileCloseAsync id = .ok s') : Spends writers 1 0 s s' := by
  rcases FileState.fileCloseAsync_ok h with rfl | rfl | rfl
  · exact (reply s _ _).le (by omega) (Nat.le_refl _)
  · have hcloses : Spends writers 0 0 s { s with refCount := s.refCount - 1 } :=
      fields rfl rfl rfl rfl
    exact hcloses.then_reply.le (by omega) (Nat.le_refl _)
  · have hcloses : Spends writers 0 0 s { s with refCount := 0, blobOpen := false } :=
      fields rfl rfl rfl rfl
    exact hcloses.then_send rfl (by simp [Work.effort]) (by simp [Work.isFilling])

theorem callSyncCb {rc : Int} {cb : SyncCb} (h : s.callSyncCb rc cb = .ok s') :
    Spends writers 2 0 s s' := by
  cases cb with
  | client id =>
      obtain rfl := Except.ok.inj h
      exact (reply s id rc).le (by omega) (Nat.le_refl _)
  | closeAsync id => exact (fileCloseAsync h).le (by omega) (Nat.le_refl _)
  | close id =>
      obtain rfl := Except.ok.inj h
      exact then_send (refl s) rfl (by simp [Work.effort]) (by simp [Work.isFilling])

/-- A request whose length is being stored needs no more of it. -/
theorem starts {requests : List SyncRequest} {r started : SyncRequest} (hr : r ∈ requests)
    (hidle : r.xattrInProgress = false) (hstarted : started.xattrInProgress = true) :
    ((requests.map fun q => if q.ref = r.ref then started else q).map SyncRequest.effort).sum + 4 ≤
      (requests.map SyncRequest.effort).sum := by
  have hnone : started.effort = 0 := if_pos hstarted
  have hwhole : r.effort = 4 := if_neg (by simp [hidle])
  have hle : ∀ q : SyncRequest, (if q.ref = r.ref then started else q).effort ≤ q.effort := by
    intro q
    split
    · rw [hnone]
      exact Nat.zero_le _
    · exact Nat.le_refl _
  induction requests with
  | nil => cases hr
  | cons q requests ih =>
      have hhead := hle q
      simp only [List.map_cons, List.sum_cons]
      rcases List.mem_cons.mp hr with rfl | htail
      · have hrest : ((requests.map fun q => if q.ref = r.ref then started else q).map
            SyncRequest.effort).sum ≤ (requests.map SyncRequest.effort).sum := by
          rw [List.map_map]
          exact List.sum_le_sum fun q _ => hle q
        rw [if_pos rfl, hnone, hwhole]
        omega
      · have hrest := ih htail
        omega

theorem checkSyncReqs (h : s.checkSyncReqs = .ok s') : Spends writers 0 0 s s' := by
  rcases FileState.checkSyncReqs_ok h with rfl | ⟨r, hfind, hidle, -, rfl⟩
  · exact refl _
  · exact saved_send (queue rfl (starts (List.mem_of_find?_eq_some hfind) hidle rfl) rfl rfl) rfl
      (Nat.le_refl _) rfl

theorem fileCacheFinishSync {ref : Nat} {bserrno : Int}
    (h : s.fileCacheFinishSync ref bserrno = .ok s') : Spends writers 3 0 s s' := by
  obtain ⟨r, -, -, s₁, hcb, rfl⟩ := FileState.fileCacheFinishSync_ok h
  have hle : ((s.file.syncRequests.filter fun q : SyncRequest => q.ref ≠ ref).map
      SyncRequest.effort).sum ≤ (s.file.syncRequests.map SyncRequest.effort).sum :=
    (List.filter_sublist.map _).sum_le_sum fun _ _ => Nat.zero_le _
  have hfinished : Spends writers 0 0 s ((s.setFile { s.file with
      lengthXattr := r.length
      syncRequests := s.file.syncRequests.filter fun q : SyncRequest => q.ref ≠ ref }).note
        (.called ref r.offset s.file.lengthFlushed)) := shortens rfl hle rfl rfl
  exact (hfinished.trans (callSyncCb hcb)).then_send rfl (by simp [Work.effort])
    (by simp [Work.isFilling])

theorem fileFlush (h : s.fileFlush = .ok s') : Spends writers 1 0 s s' := by
  rcases FileState.fileFlush_ok h with
    ⟨-, rfl⟩ | ⟨b, next, -, hnext, ⟨rfl, -⟩ | ⟨rfl, -⟩ | ⟨-, -, -, rfl⟩⟩
  · have hmoved : Spends writers 0 0 s
        (s.setFile { s.file with lengthFlushed := s.file.appendPos }) := fields rfl rfl rfl rfl
    exact hmoved.then_send rfl (by simp [Work.effort]) (by simp [Work.isFilling])
  · exact (refl _).le (by omega) (Nat.le_refl _)
  · exact then_send (refl s) rfl (by simp [Work.effort]) (by simp [Work.isFilling])
  · exact then_send (marks hnext true) rfl (by simp [Work.effort]) (by simp [Work.isFilling])

/-! ### One buffer -/

/-- Only one buffer has another number of bytes to be flushed. -/
theorem flushEffort_one (hb : b < s.brk) (hbrk : s'.brk = s.brk)
    (hother : ∀ c, c ≠ b → s'.unflushed c = s.unflushed c) :
    s'.flushEffort + 3 * s.unflushed b = s.flushEffort + 3 * s'.unflushed b := by
  have hmem : b ∈ Finset.range s.brk := Finset.mem_range.mpr hb
  unfold FileState.flushEffort
  rw [hbrk, ← Finset.add_sum_erase _ (fun c => 3 * s.unflushed c) hmem,
    ← Finset.add_sum_erase _ (fun c => 3 * s'.unflushed c) hmem,
    Finset.sum_congr rfl fun c hc => congrArg (3 * ·) (hother c (Finset.ne_of_mem_erase hc))]
  omega

/-- A flush of at least one byte pays for the check that comes of it. -/
theorem flushWrite {next : CacheBuffer} {offset length : Nat} (hb : b < s.brk)
    (hnext : s.file.cache.buffers b = some next) (hpos : 0 < length)
    (hfits : next.bytesFlushed + length ≤ next.bytesFilled) (hsize : next.bytesFilled < 2 ^ 32)
    {s₁ : FileState} (hwrite : s.flushed bs b next offset length a = .ok s₁)
    (hdone : s₁.fileFlushDone bs b next length = .ok s') : Spends writers 0 0 s s' := by
  obtain rfl := FileState.fileFlushDone_ok hdone
  have hwritten : s₁.file = s.file ∧ s₁.pending = s.pending ∧ s₁.brk = s.brk := by
    rcases FileState.flushed_ok hwrite with ⟨-, rfl⟩ | ⟨-, -, rfl⟩
    · exact ⟨rfl, rfl, rfl⟩
    · exact ⟨rfl, rfl, rfl⟩
  obtain ⟨hfile, hpending, hbrk⟩ := hwritten
  generalize ht : s₁.flushDone b next length = t
  have hbuffers : t.file.cache.buffers = Function.update s.file.cache.buffers b (some { next with
      inProgress := false, bytesFlushed := (next.bytesFlushed + length) % 2 ^ 32 }) := by
    subst ht
    rw [← hfile]
    rfl
  have hrequests : t.file.syncRequests = s.file.syncRequests := by
    subst ht
    rw [← hfile]
    rfl
  have hpending' : t.pending = s.pending := ht ▸ hpending
  have hbrk' : t.brk = s.brk := ht ▸ hbrk
  have hflushed : t.unflushed b + length = s.unflushed b := by
    rw [FileState.unflushed_update hbuffers, if_pos rfl, FileState.unflushed_eq hnext]
    dsimp only
    rw [Nat.mod_eq_of_lt (by omega)]
    omega
  have hother : ∀ c, c ≠ b → t.unflushed c = s.unflushed c := fun c hc => by
    rw [FileState.unflushed_update hbuffers, if_neg hc]
  have hfull : t.isFull = s.isFull := FileState.isFull_same hbuffers hnext rfl
  have hone := flushEffort_one hb hbrk' hother
  have hsaves : Saves writers 3 s t := by
    refine ⟨?_, Nat.le_of_eq (FileState.writers_congr hpending'),
      FileState.readsEnd_congr hpending'⟩
    have hwork : t.workEffort writers = s.workEffort writers := by
      rw [FileState.workEffort, hfull, hpending', FileState.workEffort]
    have hrequest : t.requestEffort = s.requestEffort := by
      rw [FileState.requestEffort, hrequests, FileState.requestEffort]
    unfold FileState.effort
    omega
  exact saved_send hsaves rfl (Nat.le_refl _) rfl

/-- What else is filled may find its buffer full. -/
theorem workEffort_le (hpending : s'.pending = s.pending) :
    s'.workEffort writers ≤ s.workEffort writers + s.writers := by
  unfold FileState.workEffort FileState.writers
  rw [hpending]
  generalize s.pending = pending
  induction pending with
  | nil => exact Nat.le_refl _
  | cons w pending ih =>
      have hhead : w.effort writers s'.isFull ≤
          w.effort writers s.isFull + if w.isFilling then 1 else 0 := by
        cases w with
        | fill id b payload filled =>
            simp only [Work.effort, Work.isFilling, if_true]
            split <;> split <;> omega
        | _ => exact Nat.le_add_right _ _
      rw [List.map_cons, List.map_cons, List.sum_cons, List.sum_cons, List.countP_cons]
      omega

/-- The copy of a round. -/
theorem copied {last : CacheBuffer} {payload : List UInt8} (hb : b < s.brk)
    (hlast : s.file.cache.buffers b = some last) (hflushed : last.bytesFlushed ≤ last.bytesFilled)
    (hfits : last.bytesFilled + FileState.fillLength last payload < 2 ^ 32) :
    Spends writers (3 * FileState.fillLength last payload +
      if FileState.fillLength last payload = 0 then 0 else s.writers) 0 s
        (s.copied b last payload) := by
  generalize hcopy : FileState.fillLength last payload = copy at hfits ⊢
  have hmod : (last.bytesFilled + copy) % 2 ^ 32 = last.bytesFilled + copy := Nat.mod_eq_of_lt hfits
  have hbuffers : (s.copied b last payload).file.cache.buffers = Function.update
      s.file.cache.buffers b (some { last with bytesFilled := last.bytesFilled + copy }) := by
    rw [← hmod, ← hcopy]
    rfl
  have hmore : (s.copied b last payload).unflushed b = s.unflushed b + copy := by
    rw [FileState.unflushed_update hbuffers, if_pos rfl, FileState.unflushed_eq hlast]
    dsimp only
    omega
  have hone : (s.copied b last payload).flushEffort + 3 * s.unflushed b =
      s.flushEffort + 3 * (s.copied b last payload).unflushed b :=
    flushEffort_one hb rfl fun c hc => by rw [FileState.unflushed_update hbuffers, if_neg hc]
  have hwork : (s.copied b last payload).workEffort writers ≤ s.workEffort writers +
      if copy = 0 then 0 else s.writers := by
    split
    · rename_i hzero
      have hfull : (s.copied b last payload).isFull = s.isFull :=
        FileState.isFull_same hbuffers hlast (by rw [hzero, Nat.add_zero])
      unfold FileState.workEffort
      rw [hfull]
      exact Nat.le_refl _
    · exact workEffort_le rfl
  refine ⟨?_, Nat.le_refl _, id⟩
  have hrequest : (s.copied b last payload).requestEffort = s.requestEffort := rfl
  unfold FileState.effort
  omega

/-- A round copies a byte, or leaves a buffer that is full. -/
theorem fillRound {payload : List UInt8} {filled : Nat} (hpayload : payload ≠ []) (hb : b < s.brk)
    (hsits : ∀ last, s.file.cache.buffers b = some last →
      last.bytesFlushed ≤ last.bytesFilled ∧ last.bytesFilled ≤ cacheBufferSize)
    (hwriters : s.writers ≤ writers) (h : s.fillRound id b payload filled a = .ok s') :
    Spends writers ((Work.fill id b payload filled).effort writers s.isFull - 1) 1 s s' := by
  obtain ⟨last, hlast, hround⟩ := FileState.fillRound_ok h
  obtain ⟨hflushed, hroom⟩ := hsits last hlast
  have hsize : cacheBufferSize = 2 ^ 18 := by decide
  have hlength : 0 < payload.length := List.length_pos_iff.mpr hpayload
  have hcopy : FileState.fillLength last payload =
      min (cacheBufferSize - last.bytesFilled) payload.length := by
    unfold FileState.fillLength
    rw [show cacheBufferSize + 2 ^ 32 - last.bytesFilled =
        cacheBufferSize - last.bytesFilled + 2 ^ 32 by omega, Nat.add_mod_right,
      Nat.mod_eq_of_lt (by omega)]
  have hcopied : Spends writers _ 0 s (s.copied b last payload) :=
    copied hb hlast hflushed (by omega)
  have hends : (s.copied b last payload).isFull b = decide
      ((last.bytesFilled + FileState.fillLength last payload) % 2 ^ 32 = cacheBufferSize) := by
    rw [FileState.isFull_update rfl, if_pos rfl]
  have hbegins := FileState.isFull_eq hlast
  have hdrop := List.length_drop (i := FileState.fillLength last payload) (l := payload)
  generalize FileState.fillLength last payload = copy at hcopy hcopied hround hdrop hends
  have hmod : (last.bytesFilled + copy) % 2 ^ 32 = last.bytesFilled + copy :=
    Nat.mod_eq_of_lt (by omega)
  rw [hmod] at hround hends
  have hcost : (writers + 4) * payload.length = (writers + 4) * (payload.drop copy).length +
      (writers + 4) * copy := by
    rw [← Nat.mul_add, hdrop]
    congr 1
    omega
  have hbyte : (writers + 4) * copy = writers * copy + 4 * copy := Nat.add_mul ..
  have hothers : copy ≠ 0 → writers ≤ writers * copy := fun hne =>
    Nat.le_mul_of_pos_right writers (Nat.pos_of_ne_zero hne)
  have hpaid : 3 * copy + (if copy = 0 then 0 else s.writers) +
      ((writers + 4) * (payload.drop copy).length + 4) + 1 ≤
        (Work.fill id b payload filled).effort writers s.isFull := by
    dsimp only [Work.effort]
    rw [hbegins]
    by_cases hzero : copy = 0
    · have hfull : last.bytesFilled = cacheBufferSize := by omega
      rw [decide_eq_true hfull, if_pos hzero, if_pos rfl]
      subst hzero
      omega
    · have hmore := hothers hzero
      rw [if_neg hzero]
      omega
  rcases hround with ⟨hnot, rfl⟩ | ⟨hfull, r, s₁, happend, ⟨c, rfl, rfl⟩ | ⟨rfl, rfl⟩⟩
  · refine hcopied.then_send rfl ?_ (Nat.le_of_eq (Nat.zero_add _))
    dsimp only [Work.effort] at hpaid ⊢
    rw [hends, decide_eq_false hnot, if_neg Bool.false_ne_true]
    omega
  · rcases (FileState.cacheAppendBuffer_ok happend).2.2 with ⟨hnone, -⟩ | ⟨hsome, -, -, rfl⟩
    · cases hnone
    have hempty : (s.copied b last payload).appended.isFull c = false := by
      obtain rfl := Option.some.inj hsome
      rw [FileState.isFull_update rfl, if_pos rfl]
      exact decide_eq_false (show 0 ≠ cacheBufferSize by decide)
    refine (hcopied.trans (cacheAppendBuffer happend)).then_send rfl ?_
      (Nat.le_of_eq (Nat.zero_add _))
    dsimp only [Work.effort] at hpaid ⊢
    rw [hempty, if_neg Bool.false_ne_true]
    omega
  · exact ((hcopied.trans (cacheAppendBuffer happend)).then_reply).le (by omega) (Nat.zero_le _)

theorem endFill (s : FileState) (id filled : Nat) : Spends writers 2 0 s (s.endFill id filled) := by
  unfold FileState.endFill
  split
  · exact (reply s id 0).le (Nat.zero_le _) (Nat.le_refl _)
  · exact (reply s id 0).then_send rfl (Nat.le_refl _) (Nat.le_refl _)

theorem startFill {payload : List UInt8} (h : s.startFill id payload a = .ok s') :
    Spends writers ((writers + 4) * payload.length + 5) 1 s s' := by
  rcases FileState.startFill_ok h with rfl | ⟨last, -, rfl⟩
  · exact (reply s id _).le (Nat.zero_le _) (Nat.zero_le _)
  · refine then_send (refl s) rfl ?_ (by simp [Work.isFilling])
    dsimp only [Work.effort]
    split <;> omega

theorem append {offset : Nat} {payload : List UInt8}
    (h : s.append bs id offset payload a = .ok s') :
    Spends writers ((writers + 4) * payload.length + 9) 1 s s' := by
  obtain ⟨s₁, hopen, hrest⟩ := FileState.append_ok h
  have hopened : Spends writers 0 0 s s.opened := fields rfl rfl rfl rfl
  have hfirst : Spends writers 0 0 s s₁ := by
    rcases FileState.openLast_ok hopen with ⟨rfl, -⟩ | ⟨-, -, r, happend⟩
    · exact hopened
    · exact hopened.trans (cacheAppendBuffer happend)
  have hmoved : Spends writers 0 0 s₁ (s₁.appendedPast payload.length) := fields rfl rfl rfl rfl
  have hpast : Spends writers 0 0 s (s₁.appendedPast payload.length) := hfirst.trans hmoved
  rcases hrest with ⟨-, rfl | rfl⟩ | ⟨-, -, ⟨-, rfl⟩ | ⟨-, hfill⟩⟩
  · exact hpast.then_send rfl (by dsimp only [Work.effort]; omega) (by simp [Work.isFilling])
  · exact hpast.then_reply.le (Nat.zero_le _) (Nat.zero_le _)
  · exact hfirst.then_send rfl (by dsimp only [Work.effort]; omega) (by simp [Work.isFilling])
  · exact (hfirst.trans (startFill hfill)).le (by omega) (by omega)

/-! ### Requests past the cache -/

theorem rwStage {op : Option Nat} {stage : Stage} (h : s.rwStage op stage = .ok s') :
    Spends writers (stageRank stage + 1) 0 s s' := by
  rcases FileState.rwStage_ok h with ⟨rc, iov, -, ⟨-, rfl⟩ | ⟨id, -, rfl⟩⟩ | ⟨-, -, rfl⟩
  · exact (refl _).le (by omega) (Nat.le_refl _)
  · exact (reply s id rc).le (by omega) (Nat.le_refl _)
  · exact then_send (refl _) rfl (by simp [Work.effort]) (by simp [Work.isFilling])

theorem stageRank_le (stage : Stage) : stageRank stage ≤ 4 := by
  cases stage <;> simp [stageRank]

theorem doBlobRead_rank (rw : Async.Rw) (fserrno : Int) :
    stageRank (Async.doBlobRead rw fserrno) ≤ 2 := by
  unfold Async.doBlobRead
  split
  · exact Nat.zero_le _
  · exact Nat.le_refl _

theorem readDone_rank (rw : Async.Rw) : stageRank (Async.readDone rw) ≤ 1 := by
  unfold Async.readDone
  dsimp only
  split
  · exact Nat.zero_le _
  · exact Nat.le_refl _

/-- An operation that completes is followed by one of a lower rank. -/
theorem stageRank_lt {t t' : Async.State Unit} {answer : Async.Answer}
    (hstep : Async.step bs (fun _ => ⟨false, 0, []⟩) t (.complete () answer) = some t') :
    stageRank (t'.stage ()) < stageRank (t.stage ()) := by
  simp only [Async.step] at hstep
  split at hstep
  · rename_i length rw hstage
    obtain rfl := Option.some.inj hstep
    rw [hstage]
    simp only [Function.update_self, Async.fsTruncateResizeCb]
    split
    · exact Nat.lt_of_le_of_lt (doBlobRead_rank _ _) (by simp [stageRank])
    · exact Nat.lt_succ_self 3
  · rename_i rw hstage
    obtain rfl := Option.some.inj hstep
    rw [hstage]
    simp only [Function.update_self]
    exact Nat.lt_of_le_of_lt (doBlobRead_rank _ _) (by simp [stageRank])
  · rename_i rw hstage
    rw [hstage]
    split at hstep
    · obtain rfl := Option.some.inj hstep
      simp only [Function.update_self]
      exact Nat.lt_of_le_of_lt (readDone_rank _) (Nat.lt_succ_self 1)
    split at hstep
    · obtain rfl := Option.some.inj hstep
      simp only [Function.update_self]
      exact Nat.lt_of_le_of_lt (readDone_rank _) (Nat.lt_succ_self 1)
    · cases hstep
  · rename_i rw hstage
    rw [hstage]
    split at hstep
    · obtain rfl := Option.some.inj hstep
      simp only [Function.update_self]
      exact Nat.lt_succ_self 0
    split at hstep
    · obtain rfl := Option.some.inj hstep
      simp only [Function.update_self]
      exact Nat.lt_succ_self 0
    · cases hstep
  all_goals cases hstep

theorem rwComplete {op : Option Nat} {stage : Stage} (h : s.rwComplete bs op stage a = .ok s') :
    Spends writers (stageRank stage) 0 s s' := by
  obtain ⟨t, hasync, hstage⟩ := FileState.rwComplete_ok h
  have hset : Spends writers 0 0 s (s.setAsyncFile t.file) := fields rfl rfl rfl rfl
  have hlower : stageRank (t.stage ()) < stageRank stage := stageRank_lt hasync
  exact (hset.trans (rwStage hstage)).le (by omega) (Nat.le_refl _)

/-! ### Reads -/

/-- A round is for at least one byte, and for none past the end of the read. -/
theorem roundLength_bounds {offset finalOffset : Nat} (hlt : offset < finalOffset)
    (hend : finalOffset < 2 ^ 64) : 0 < FileState.roundLength offset finalOffset ∧
      offset + FileState.roundLength offset finalOffset ≤ finalOffset := by
  have hsize : cacheBufferSize = 2 ^ 18 := by decide
  have hnext : 0 < (nextCacheBufferOffset offset + 2 ^ 64 - offset) % 2 ^ 64 := by
    unfold nextCacheBufferOffset
    rw [hsize]
    omega
  unfold FileState.roundLength
  omega

theorem readRound {offset finalOffset : Nat} (hend : finalOffset < 2 ^ 64)
    (h : s.readRound offset finalOffset a = .ok s') :
    Spends writers (7 * (finalOffset - offset)) 0 s s' := by
  by_cases hlt : offset < finalOffset
  · obtain ⟨hpos, hle⟩ := roundLength_bounds hlt hend
    have hnext : ∀ full, Work.effort writers full (FileState.nextRound offset finalOffset) + 6 ≤
        7 * (finalOffset - offset) := by
      intro full
      dsimp only [FileState.nextRound, Work.effort]
      rw [Nat.mod_eq_of_lt (by omega)]
      omega
    have hround : ∀ t : FileState, Spends writers (7 * (finalOffset - offset) - 6) 0 t
        (t.send (FileState.nextRound offset finalOffset)) := fun t =>
      (send t fun round hround => by
        obtain rfl : (_, finalOffset) = round := Option.some.inj hround
        exact hend).le (Nat.le_sub_of_add_le (hnext t.isFull)) (Nat.le_refl 0)
    rcases FileState.readRound_ok h with
      rfl | ⟨-, rfl⟩ | ⟨b, buffer, -, hbuffer, -, ⟨-, rfl⟩ | ⟨-, rfl⟩⟩
    · exact (refl _).le (Nat.zero_le _) (Nat.le_refl _)
    · have hasked : Spends writers 6 0 s (s.send (.rwFromFile none
          ⟨true, offset, List.replicate (FileState.roundLength offset finalOffset) 0⟩)) :=
        (refl s).then_send rfl (Nat.le_refl _) (Nat.le_refl _)
      exact (hasked.trans (hround _)).le (by omega) (Nat.le_refl _)
    · have hleft : Spends writers 0 0 s (s.removeBuffer b buffer) := by
        refine leaves (fun c other hother => ?_) rfl rfl rfl
        change Function.update s.file.cache.buffers b none c = some other at hother
        by_cases hc : c = b
        · rw [hc, Function.update_self] at hother
          cases hother
        · rwa [Function.update_of_ne hc] at hother
      exact (hleft.trans (hround _)).le (by omega) (Nat.le_refl _)
    · exact (hround s).le (by omega) (Nat.le_refl _)
  · unfold FileState.readRound at h
    rw [if_neg hlt] at h
    obtain rfl := Except.ok.inj h
    exact (refl _).le (Nat.zero_le _) (Nat.le_refl _)

/-- A readahead leaves nothing to be flushed; no write fills its buffer. -/
theorem readaheadDone {buffer : CacheBuffer} {length : Nat} {image : Nat → UInt8}
    (hother : ∀ w ∈ s.pending, w.target ≠ some b) :
    Spends writers 0 0 s ((s.setMem b image).readaheadDone b buffer length) := by
  refine shrinks (fun c => ?_) (fun w hw c htarget hfull => ?_) rfl rfl rfl
  · rw [FileState.unflushed_update rfl]
    split
    · dsimp only
      rw [Nat.sub_self]
      exact Nat.zero_le _
    · exact Nat.le_refl _
  · rw [FileState.isFull_update rfl] at hfull
    split at hfull
    · rename_i hc
      exact absurd (hc ▸ htarget) (hother w hw)
    · exact hfull

/-! ### Truncates, and buffers that are freed -/

theorem fileTruncateAsync {length : Nat} (h : s.fileTruncateAsync id length a = .ok s') :
    Spends writers 2 0 s s' := by
  rcases FileState.fileTruncateAsync_ok h with ⟨-, rfl⟩ | rfl | rfl
  · exact (reply s id 0).le (Nat.zero_le _) (Nat.le_refl _)
  · exact (reply s id _).le (Nat.zero_le _) (Nat.le_refl _)
  · exact then_send (refl s) rfl (Nat.le_refl _) (Nat.le_refl _)

theorem fsTruncateResizeCb {length : Nat} (h : s.fsTruncateResizeCb bs id length a = .ok s') :
    Spends writers 1 0 s s' := by
  rcases FileState.fsTruncateResizeCb_ok h with ⟨-, rfl⟩ | ⟨-, rfl⟩
  · exact (reply s id _).le (Nat.zero_le _) (Nat.le_refl _)
  · have hcut : Spends writers 0 0 s (s.truncated bs length a.contents) := fields rfl rfl rfl rfl
    exact hcut.then_send rfl (Nat.le_refl _) (Nat.le_refl _)

theorem treeFreeBuffers (s : FileState) : Spends writers 0 0 s s.treeFreeBuffers := by
  refine leaves (fun c buffer hbuffer => ?_) rfl rfl rfl
  change (if c ∈ s.file.cache.refs ∧ idleIn s.file.cache.buffers c = true then none
    else s.file.cache.buffers c) = some buffer at hbuffer
  split at hbuffer
  · cases hbuffer
  · exact hbuffer

theorem reclaimCacheBuffers (s : FileState) : Spends writers 0 0 s s.reclaimCacheBuffers := by
  unfold FileState.reclaimCacheBuffers
  split
  · exact refl s
  dsimp only
  split
  · have hlast : Spends writers 0 0 s.treeFreeBuffers
        (s.treeFreeBuffers.setFile { s.treeFreeBuffers.file with last := none }) :=
      fields rfl rfl rfl rfl
    exact (treeFreeBuffers s).trans hlast
  · exact treeFreeBuffers s

theorem fileFree (h : s.fileFree = .ok s') : Spends writers 0 0 s s' := by
  unfold FileState.fileFree at h
  split at h
  · obtain rfl := Except.ok.inj h
    exact fields rfl rfl rfl rfl
  dsimp only at h
  split at h
  · obtain rfl := Except.ok.inj h
    have hfreed : Spends writers 0 0 s.treeFreeBuffers { s.treeFreeBuffers with isFree := true } :=
      fields rfl rfl rfl rfl
    exact (treeFreeBuffers s).trans hfreed
  · cases h

end Spends

/-! ### The steps -/

/-- What is under way, taken apart. -/
theorem FileState.effort_take {s : FileState} {i writers : Nat} {w : Work}
    (hw : s.pending[i]? = some w) :
    s.effort writers = (s.take i).effort writers + w.effort writers s.isFull ∧
      s.writers = (s.take i).writers + if w.isFilling then 1 else 0 := by
  have hperm := taken_perm hw
  refine ⟨?_, countP_taken Work.isFilling hw⟩
  have hwork : s.workEffort writers =
      (s.take i).workEffort writers + w.effort writers s.isFull := by
    unfold FileState.workEffort
    rw [(hperm.map _).sum_eq, List.map_cons, List.sum_cons, Nat.add_comm]
    rfl
  have hrequest : (s.take i).requestEffort = s.requestEffort := rfl
  have hflush : (s.take i).flushEffort = s.flushEffort := rfl
  unfold FileState.effort
  omega

/-- All that the accounts rest on, while at most `writers` writes are under way. -/
structure Winds (writers : Nat) (s : FileState) : Prop where
  heap : Heap False s
  writers : s.writers ≤ writers
  reads : s.ReadsEnd

namespace Winds

variable {writers : Nat} {s s' : FileState} {bs : Blobstore} {a : Answer} {w : Work} {i : Nat}

/-- A completion takes at least one from the effort. -/
theorem complete (h : Winds writers s) (hw : s.pending[i]? = some w)
    (hstep : (s.take i).perform bs a w = .ok s') :
    Spends writers (w.effort writers s.isFull - 1) (if w.isFilling then 1 else 0)
      (s.take i) s' := by
  have hwriters : (s.take i).writers ≤ writers := by
    have htaken : s.writers = (s.take i).writers + if w.isFilling then 1 else 0 :=
      countP_taken Work.isFilling hw
    have hle := h.writers
    omega
  have hmem : w ∈ s.pending := mem_taken hw
  have plain : ∀ {t : FileState} {v : Work}, Spends writers 0 0 (s.take i) t → v.round = none →
      v.effort writers t.isFull ≤ w.effort writers s.isFull - 1 →
        (if v.isFilling then 1 else 0) ≤ (if w.isFilling then 1 else 0) →
          Spends writers (w.effort writers s.isFull - 1) (if w.isFilling then 1 else 0) (s.take i)
            (t.send v) := fun ht hround hn hm =>
    ht.then_send hround (by omega) (by omega)
  have ends : ∀ {t : FileState}, Spends writers 0 0 (s.take i) t →
      Spends writers (w.effort writers s.isFull - 1) (if w.isFilling then 1 else 0) (s.take i) t :=
    fun ht => ht.le (Nat.zero_le _) (Nat.zero_le _)
  cases w with
  | append id offset payload => exact Spends.append hstep
  | extend id numClusters payload =>
      obtain ⟨-, rfl⟩ := FileState.blobOp_ok hstep
      exact plain (.refl _) rfl (Nat.le_refl _) (Nat.le_refl _)
  | extendResize id numClusters payload =>
      simp only [FileState.perform] at hstep
      split at hstep
      · obtain rfl := Except.ok.inj hstep
        exact ends (.reply _ _ _)
      · obtain ⟨-, rfl⟩ := FileState.blobOp_ok hstep
        exact plain (.fields rfl rfl rfl rfl) rfl (Nat.le_refl _) (Nat.le_refl _)
  | extendSync id payload =>
      simp only [FileState.perform] at hstep
      split at hstep
      all_goals obtain rfl := Except.ok.inj hstep
      · exact ends (.reply _ _ _)
      · exact plain (.refl _) rfl (Nat.le_refl _) (Nat.le_refl _)
  | startFill id payload => exact Spends.startFill hstep
  | fill id b payload filled =>
      simp only [FileState.perform] at hstep
      split at hstep
      · obtain rfl := Except.ok.inj hstep
        exact (Spends.endFill _ id filled).le (by dsimp only [Work.effort]; omega) (Nat.zero_le _)
      · rename_i hpayload
        have hb : b < (s.take i).brk := (h.heap.targets b (Or.inr ⟨_, hmem, rfl⟩)).1
        have hsits : ∀ last, (s.take i).file.cache.buffers b = some last →
            last.bytesFlushed ≤ last.bytesFilled ∧ last.bytesFilled ≤ cacheBufferSize :=
          fun last hlast =>
            ⟨(h.heap.sits b last hlast).flushed, (h.heap.sits b last hlast).filled⟩
        have hround := Spends.fillRound hpayload hb hsits hwriters hstep
        rwa [FileState.isFull_take] at hround
  | rwFromFile id call =>
      exact (Spends.rwStage hstep).le (Nat.succ_le_succ (Spends.stageRank_le _)) (Nat.le_refl _)
  | rw id stage => exact Spends.rwComplete hstep
  | flush => exact Spends.fileFlush hstep
  | flushWrite b offset length =>
      obtain ⟨next, hnext, hstep⟩ := bind_ok.mp hstep
      obtain ⟨s₁, hwrite, hdone⟩ := bind_ok.mp hstep
      have hbuffer : s.file.cache.buffers b = some next := CachedFile.buffer_ok.mp hnext
      obtain ⟨-, hpos, hfits⟩ := h.heap.fits _ hmem b rfl next hbuffer
      have hsits := h.heap.sits b next hbuffer
      have hsize : next.bytesFilled < 2 ^ 32 := Nat.lt_of_le_of_lt hsits.filled (by decide)
      exact Spends.flushWrite hsits.old hbuffer hpos hfits hsize hwrite hdone
  | check thenFlush =>
      obtain ⟨s₁, hcheck, hret⟩ := bind_ok.mp hstep
      obtain rfl := Except.ok.inj hret
      have hchecked : Spends writers 0 0 (s.take i) s₁ := Spends.checkSyncReqs hcheck
      cases thenFlush with
      | true => exact plain hchecked rfl (Nat.le_refl _) (Nat.le_refl _)
      | false => exact ends hchecked
  | syncXattr ref => exact Spends.fileCacheFinishSync hstep
  | readahead b length =>
      obtain ⟨buffer, -, hstep⟩ := bind_ok.mp hstep
      split at hstep
      · cases hstep
      · obtain ⟨-, rfl⟩ := FileState.blobOp_ok hstep
        exact plain (.refl _) rfl (Nat.le_refl _) (Nat.le_refl _)
  | readaheadRead b length =>
      obtain ⟨buffer, hbuffer, hstep⟩ := bind_ok.mp hstep
      obtain ⟨s₁, hread, hret⟩ := bind_ok.mp hstep
      obtain rfl := Except.ok.inj hret
      obtain ⟨image, rfl, -⟩ := FileState.readAhead_ok hread
      refine ends (Spends.readaheadDone fun w' hw' htarget => ?_)
      exact (h.heap.targets b (Or.inr ⟨w', mem_of_taken hw', htarget⟩)).2 _ hmem rfl
  | readLoop offset finalOffset => exact Spends.readRound (h.reads _ hmem _ rfl) hstep
  | truncate id length => exact Spends.fileTruncateAsync hstep
  | truncateResize id length => exact Spends.fsTruncateResizeCb hstep
  | truncateSync id =>
      obtain rfl := Except.ok.inj hstep
      exact ends (.reply _ _ _)
  | close id => exact Spends.fileCloseAsync hstep
  | closeBlob id =>
      obtain rfl := Except.ok.inj hstep
      exact ends (.reply _ _ _)

end Winds

/-- The client calls. -/
def FileEvent.isCall : FileEvent → Bool
  | complete _ | reclaim | free => false
  | _ => true

/-- Something that is pending comes to be done. -/
def FileEvent.isCompletion : FileEvent → Bool
  | complete _ => true
  | _ => false

namespace FileState.ReadsEnd

variable {s s' : FileState} {bs : Blobstore} {a : Answer}

theorem frame (h : s.ReadsEnd) (hframe : Frame s s') : s'.ReadsEnd := by
  intro w hw round hround
  rcases hframe.pending w hw with hold | hfree
  · exact h w hold round hround
  · rw [hfree.2.2] at hround
    cases hround

theorem send (h : s.ReadsEnd) {w : Work} (hround : ∀ round ∈ w.round, round.2 < 2 ^ 64) :
    (s.send w).ReadsEnd := by
  intro w' hw'
  rcases List.mem_append.mp hw' with hold | hnew
  · exact h w' hold
  · exact List.mem_singleton.mp hnew ▸ hround

theorem checkReadahead (h : s.ReadsEnd) {offset : Nat} {ok : Bool}
    (hstep : s.checkReadahead offset ok = .ok s') : s'.ReadsEnd := by
  rcases FileState.checkReadahead_ok hstep with rfl | ⟨-, -, -, rfl⟩
  · exact h
  · have hahead : (s.ahead (nextCacheBufferOffset offset)).ReadsEnd := h
    exact hahead.send fun round hround => by cases hround

theorem fileRead (h : s.ReadsEnd) {offset length : Nat}
    (hstep : s.fileRead offset length a = .ok s') : s'.ReadsEnd := by
  rcases FileState.fileRead_ok hstep with rfl | ⟨n, s₁, -, haheads, rfl⟩
  · exact h
  · have hbegun : (s.sequential offset n).ReadsEnd := h
    have hread : s₁.ReadsEnd := by
      rcases FileState.checkReadaheads_ok haheads with rfl | ⟨-, s₂, hfirst, hsecond⟩
      · exact hbegun
      · exact (hbegun.checkReadahead hfirst).checkReadahead hsecond
    refine hread.send fun round hround => ?_
    obtain rfl : (_, (offset + n) % 2 ^ 64) = round := Option.some.inj hround
    exact Nat.mod_lt _ (by decide)

theorem step (h : s.ReadsEnd) (hheap : Heap False s) {e : FileEvent × Answer}
    (hstep : FileSteps bs s e s') : s'.ReadsEnd := by
  obtain ⟨event, a⟩ := e
  obtain ⟨-, hact⟩ := FileState.step_ok hstep
  have hclose : ∀ cb, (if a.request then s.ask.fileSync cb a
      else .ok (s.ask.reply s.brk (-ENOMEM))) = .ok s' → s'.ReadsEnd := by
    intro cb hclose
    split at hclose
    · exact h.frame ((Frame.ask s).trans (.fileSync hclose))
    · obtain rfl := Except.ok.inj hclose
      exact h.frame ((Frame.ask s).trans (.reply _ _ _))
  cases event with
  | write offset payload =>
      obtain rfl := Except.ok.inj hact
      have halloc : s.alloc.ReadsEnd := h
      unfold FileState.fileWrite
      split
      · exact halloc
      split
      · exact halloc
      · exact halloc.send fun round hround => by cases hround
  | read offset length => exact h.fileRead hact
  | sync => exact h.frame ((Frame.ask s).trans (.fileSync hact))
  | closeAsync => exact hclose _ hact
  | close => exact hclose _ hact
  | truncate length =>
      have halloc : s.alloc.ReadsEnd := h
      simp only [FileState.act] at hact
      split at hact
      all_goals obtain rfl := Except.ok.inj hact
      · exact halloc.send fun round hround => by cases hround
      · exact halloc
  | reclaim =>
      obtain rfl := Except.ok.inj hact
      have hreclaimed : Spends 0 0 0 s s.reclaimCacheBuffers := .reclaimCacheBuffers s
      exact hreclaimed.reads h
  | free =>
      have hfreed : Spends 0 0 0 s s' := .fileFree hact
      exact hfreed.reads h
  | complete i =>
      obtain ⟨w, hw, hperform⟩ := FileState.complete_ok hact
      have hwinds : Winds s.writers s := ⟨hheap, Nat.le_refl _, h⟩
      exact (hwinds.complete hw hperform).reads fun w' hw' => h w' (mem_of_taken hw')

end FileState.ReadsEnd

/-- With no call of the client, a step takes what it completes from the effort. -/
theorem Winds.step {writers : Nat} {s s' : FileState} {bs : Blobstore} (h : Winds writers s)
    {e : FileEvent × Answer} (hcall : e.1.isCall = false) (hstep : FileSteps bs s e s') :
    Winds writers s' ∧
      s'.effort writers + (if e.1.isCompletion then 1 else 0) ≤ s.effort writers := by
  have hheap : Heap False s' := h.heap.step False.elim hstep
  have hreads : s'.ReadsEnd := h.reads.step h.heap hstep
  have hwriters := h.writers
  obtain ⟨event, a⟩ := e
  obtain ⟨-, hact⟩ := FileState.step_ok hstep
  cases event with
  | reclaim =>
      obtain rfl := Except.ok.inj hact
      have hreclaimed : Spends writers 0 0 s s.reclaimCacheBuffers := .reclaimCacheBuffers s
      exact ⟨⟨hheap, hreclaimed.writers.trans hwriters, hreads⟩, hreclaimed.effort⟩
  | free =>
      have hfreed : Spends writers 0 0 s s' := .fileFree hact
      exact ⟨⟨hheap, hfreed.writers.trans hwriters, hreads⟩, hfreed.effort⟩
  | complete i =>
      obtain ⟨w, hw, hperform⟩ := FileState.complete_ok hact
      have hspends := h.complete hw hperform
      have htaken : s.effort writers = (s.take i).effort writers + w.effort writers s.isFull ∧
          s.writers = (s.take i).writers + if w.isFilling then 1 else 0 :=
        FileState.effort_take hw
      obtain ⟨heffort, hwriting⟩ := htaken
      have hmore := hspends.effort
      have hsent := hspends.writers
      have hpos := w.effort_pos writers s.isFull
      refine ⟨⟨hheap, by omega, hreads⟩, ?_⟩
      change s'.effort writers + 1 ≤ s.effort writers
      omega
  | _ => cases hcall

/-- A file comes to rest: from any state that is reached, when the client calls nothing, no more
is completed than what is under way, what is to be flushed and the sync requests that wait come
to, in whatever order it is, whether it succeeds or fails, and whatever is reclaimed meanwhile. -/
theorem comesToRest_of_runs {bs : Blobstore} {start s s' : FileState} {n : Nat}
    (hinitial : start.Initial bs) (hrun : Runs (FileSteps bs) (fun _ _ => True) start s)
    (hnext : Counted (FileSteps bs) (fun _ e => e.1.isCall = false) (fun e => e.1.isCompletion)
      s n s') : n ≤ s.effort s.writers := by
  have hbegin : Heap False s ∧ s.ReadsEnd := by
    refine hrun.keeps (P := fun s => Heap False s ∧ s.ReadsEnd) ⟨.initial hinitial, ?_⟩
      fun h _ hstep => ⟨h.1.step False.elim hstep, h.2.step h.1 hstep⟩
    intro w hw
    rw [hinitial.pending] at hw
    cases hw
  obtain ⟨-, hle⟩ := hnext.le_variant (P := Winds s.writers) ⟨hbegin.1, Nat.le_refl _, hbegin.2⟩
    fun h hcall hstep => h.step hcall hstep
  exact (Nat.le_add_right _ _).trans hle

/-- A sync flushes the byte that was written and stores the length. -/
theorem comesToRest_of_runs_one : ∃ s s' : FileState, s'.pending = [] ∧ s'.blob.xattrLength = 1 ∧
    Counted (FileSteps oneMegabyte) (fun _ e => e.1.isCall = false) (fun e => e.1.isCompletion)
      s 6 s' ∧ 6 ≤ s.effort s.writers := by
  obtain ⟨s, hrun, s', hnext, hrest, hstored⟩ : ∃ s,
      List.foldlM (fun s e => s.step oneMegabyte e.2 e.1) createdFile
        [(.write 0 [7], success), (.complete 0, success), (.complete 0, success),
          (.complete 0, success), (.sync, success)] = .ok s ∧ ∃ s',
      List.foldlM (fun s e => s.step oneMegabyte e.2 e.1) s
        (List.replicate 6 (.complete 0, success)) = .ok s' ∧ s'.pending = [] ∧
          s'.blob.xattrLength = 1 := ⟨_, rfl, _, rfl, rfl, rfl⟩
  have hcounted : Counted (FileSteps oneMegabyte) (fun _ e => e.1.isCall = false)
      (fun e => e.1.isCompletion) s 6 s' :=
    Counted.foldlM .refl (fun e he _ => by rw [List.eq_of_mem_replicate he]; rfl) hnext
  exact ⟨s, s', hrest, hstored, hcounted,
    comesToRest_of_runs createdFile_initial (Runs.of_foldlM hrun) hcounted⟩

end Nbfs.Cache
