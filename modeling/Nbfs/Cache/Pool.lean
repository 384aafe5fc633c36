import Nbfs.Cache.File
import Nbfs.Lib.Fallible
import Nbfs.Lib.Runs

set_option autoImplicit false

/-!
# The list of files with cached buffers (`g_caches`)

A file should be on `g_caches` while its tree is not empty.  The thread that owns
the list is told of changes by messages, in the order they were sent; its reclaim
poller changes trees and list on its own.
-/

namespace Nbfs.Cache

open Nbfs.Lib

/-- The address of a `struct spdk_file`. -/
abbrev FileRef := Nat

/-- What a message to `g_cache_pool_thread` calls. -/
inductive MsgFn where
  | addFileToCachePool
  | removeFileFromCachePool
  | fileFree
  deriving DecidableEq

/-- A message, with the file it is about. -/
structure Msg where
  fn : MsgFn
  file : FileRef

/-- All files, the list, and the messages not yet delivered. -/
structure Pool where
  files : FileRef → Option CachedFile
  gCaches : List FileRef
  messages : List Msg

namespace Pool

variable (s : Pool)

def file (r : FileRef) : Except Fault CachedFile :=
  match s.files r with
  | some f => .ok f
  | none => .error .freedFile

def setFile (r : FileRef) (f : CachedFile) : Pool :=
  { s with files := Function.update s.files r (some f) }

/-- `spdk_thread_send_msg(g_cache_pool_thread, fn, file)`. -/
def sendMsg (fn : MsgFn) (r : FileRef) : Pool := { s with messages := s.messages ++ [⟨fn, r⟩] }

/-- `TAILQ_INSERT_TAIL(&g_caches, file, cache_tailq)`. -/
def insertTail (r : FileRef) : Except Fault Pool :=
  if r ∈ s.gCaches then .error .listedTwice else .ok { s with gCaches := s.gCaches ++ [r] }

/-- `TAILQ_REMOVE(&g_caches, file, cache_tailq)`. -/
def remove (r : FileRef) : Except Fault Pool :=
  if r ∈ s.gCaches then .ok { s with gCaches := s.gCaches.erase r } else .error .notListed

/-- `cache_insert_buffer`; `alloc` is the address of the buffer, if there is memory. -/
def cacheInsertBuffer (r : FileRef) (alloc : Option BufRef) (offset : Nat) :
    Except Fault Pool := do
  let f ← s.file r
  match alloc with
  | none => return s
  | some b =>
      let needUpdate := f.cache.isEmpty
      let s := s.setFile r (← f.cacheInsertBuffer b offset)
      if needUpdate then return s.sendMsg .addFileToCachePool r
      else return s

/-- `spdk_file_read` at the end of the buffer `b`. -/
def readToEnd (r : FileRef) (b : BufRef) : Except Fault Pool := do
  let f ← s.file r
  let f := f.treeRemoveBuffer b
  let s := s.setFile r f
  if f.cache.isEmpty then return s.sendMsg .removeFileFromCachePool r
  else return s

/-- `reclaim_cache_buffers`, with its result; `locked` is whether `file->lock` is held. -/
def reclaimCacheBuffers (r : FileRef) (locked : Bool) : Except Fault (Pool × Int) := do
  let f ← s.file r
  if locked then return (s, -1)
  else if f.cache.isEmpty then return (s, -1)
  else
    let f := f.treeFreeBuffers
    let s ← (s.setFile r f).remove r
    if f.cache.isEmpty then return (s.setFile r { f with last := none }, 0)
    else return (← s.insertTail r, 0)

/-- A loop of the poller over the files it had on the list: it ends when one was
reclaimed.  The result says whether one was. -/
def reclaimLoop (guard : CachedFile → Bool) (locked : FileRef → Bool) :
    List FileRef → Pool → Except Fault (Pool × Bool)
  | [], s => .ok (s, false)
  | r :: rest, s => do
      let f ← s.file r
      if guard f then
        let (s, rc) ← s.reclaimCacheBuffers r (locked r)
        if rc < 0 then reclaimLoop guard locked rest s
        else return (s, true)
      else reclaimLoop guard locked rest s

/-- `_blobfs_cache_pool_reclaim`; `need` is what `blobfs_cache_pool_need_reclaim` returns
at the start and after each of the first two loops. -/
def blobfsCachePoolReclaim (need : Bool × Bool × Bool) (locked : FileRef → Bool) :
    Except Fault Pool := do
  if need.1 = false then return s
  else
    let (s, done) ← reclaimLoop (fun f => !f.openForWriting && f.lowPriority) locked s.gCaches s
    if done ∧ need.2.1 = false then return s
    else
      let (s, done) ← reclaimLoop (fun f => !f.openForWriting) locked s.gCaches s
      if done ∧ need.2.2 = false then return s
      else
        let (s, _) ← reclaimLoop (fun _ => true) locked s.gCaches s
        return s

/-- `file_free`. -/
def fileFree (r : FileRef) : Except Fault Pool := do
  let f ← s.file r
  if f.cache.isEmpty then return { s with files := Function.update s.files r none }
  else
    let f := f.treeFreeBuffers
    if f.cache.isEmpty then return (s.setFile r f).sendMsg .fileFree r
    else .error .assertion

/-- The function of a message that is delivered. -/
def call (r : FileRef) : MsgFn → Except Fault Pool
  | .addFileToCachePool => do
      let _ ← s.file r
      s.insertTail r
  | .removeFileFromCachePool => do
      let _ ← s.file r
      s.remove r
  | .fileFree => do
      let _ ← s.file r
      let s ← s.remove r
      return { s with files := Function.update s.files r none }

/-- `file_free` was called for the file, which waits to be freed. -/
def leaving (r : FileRef) : Bool := s.messages.any fun m => decide (m.fn = .fileFree ∧ m.file = r)

end Pool

/-- What can happen.  Writes, flushes and readahead fill and empty a file's tree and set
the fields of its buffers; whoever does so has a file that was not freed. -/
inductive PoolEvent where
  /-- `file_alloc`. -/
  | alloc (r : FileRef) (f : CachedFile)
  | insert (r : FileRef) (alloc : Option BufRef) (offset : Nat)
  | readToEnd (r : FileRef) (b : BufRef)
  /-- Anything else that is done to a file or to a buffer of its. -/
  | store (r : FileRef) (f : CachedFile)
  /-- The poller comes to a file on `g_caches`. -/
  | reclaim (r : FileRef) (locked : Bool)
  | free (r : FileRef)
  /-- The oldest message is delivered. -/
  | deliver

namespace Pool

/-- One step. -/
def step (s : Pool) : PoolEvent → Except Fault Pool
  | .alloc r f =>
      if (s.files r).isNone ∧ f.cache.isEmpty then .ok (s.setFile r f) else .error .noEvent
  | .insert r alloc offset =>
      if s.leaving r then .error .noEvent else s.cacheInsertBuffer r alloc offset
  | .readToEnd r b => do
      let f ← s.file r
      if s.leaving r ∨ b ∉ f.cache.refs then .error .noEvent else s.readToEnd r b
  | .store r f => do
      let old ← s.file r
      if f.cache.refs = old.cache.refs then return s.setFile r f else .error .noEvent
  | .reclaim r locked =>
      if r ∈ s.gCaches then do
        let (s, _) ← s.reclaimCacheBuffers r locked
        return s
      else .error .noEvent
  | .free r => if s.leaving r then .error .noEvent else s.fileFree r
  | .deliver =>
      match s.messages with
      | [] => .error .noEvent
      | m :: messages => call { s with messages } m.file m.fn

end Pool

/-- The pool makes the step. -/
def PoolSteps (s : Pool) (e : PoolEvent) (s' : Pool) : Prop := s.step e = .ok s'

/-! ### What a step does -/

namespace Pool

variable {s s' : Pool} {r : FileRef} {f : CachedFile}

theorem file_ok : s.file r = .ok f ↔ s.files r = some f := by
  unfold file
  cases s.files r with
  | none => simp
  | some g => simp

@[simp] theorem setFile_files_self (s : Pool) (r : FileRef) (f : CachedFile) :
    (s.setFile r f).files r = some f :=
  Function.update_self r _ _

theorem setFile_files_ne {r' : FileRef} (f : CachedFile) (h : r' ≠ r) :
    (s.setFile r f).files r' = s.files r' :=
  Function.update_of_ne h _ _

/-- A reclaim is put off, or frees what it can and moves the file or takes it off the list. -/
theorem reclaimCacheBuffers_ok {locked : Bool} {rc : Int}
    (h : s.reclaimCacheBuffers r locked = .ok (s', rc)) : ∃ f, s.files r = some f ∧
      (rc = -1 ∧ s' = s ∨
        rc = 0 ∧ locked = false ∧ f.cache.isEmpty = false ∧ r ∈ s.gCaches ∧
          ∃ f', f'.cache = f.treeFreeBuffers.cache ∧ s'.files = (s.setFile r f').files ∧
            s'.messages = s.messages ∧ s'.gCaches =
              s.gCaches.erase r ++ if f'.cache.isEmpty then [] else [r]) := by
  obtain ⟨f, hf, h⟩ := bind_ok.mp h
  refine ⟨f, file_ok.mp hf, ?_⟩
  by_cases hlocked : locked = true
  · rw [if_pos hlocked] at h
    obtain ⟨rfl, rfl⟩ := Prod.mk.inj (Except.ok.inj h)
    exact Or.inl ⟨rfl, rfl⟩
  rw [if_neg hlocked] at h
  by_cases hempty : f.cache.isEmpty = true
  · rw [if_pos hempty] at h
    obtain ⟨rfl, rfl⟩ := Prod.mk.inj (Except.ok.inj h)
    exact Or.inl ⟨rfl, rfl⟩
  rw [if_neg hempty] at h
  obtain ⟨s₁, hremove, h⟩ := bind_ok.mp h
  unfold remove at hremove
  split at hremove
  · rename_i hin
    obtain rfl := Except.ok.inj hremove
    refine Or.inr ?_
    by_cases hfreed : f.treeFreeBuffers.cache.isEmpty = true
    · rw [if_pos hfreed] at h
      obtain ⟨rfl, rfl⟩ := Prod.mk.inj (Except.ok.inj h)
      refine ⟨rfl, by simpa using hlocked, by simpa using hempty, hin,
        { f.treeFreeBuffers with last := none }, rfl, ?_, rfl, ?_⟩
      · exact Function.update_idem _ _ _
      · simp [setFile, hfreed]
    · rw [if_neg hfreed] at h
      obtain ⟨s₂, hinsert, h⟩ := bind_ok.mp h
      unfold insertTail at hinsert
      split at hinsert
      · cases hinsert
      · obtain rfl := Except.ok.inj hinsert
        obtain ⟨rfl, rfl⟩ := Prod.mk.inj (Except.ok.inj h)
        refine ⟨rfl, by simpa using hlocked, by simpa using hempty, hin, f.treeFreeBuffers, rfl,
          rfl, rfl, ?_⟩
        simp [setFile, hfreed]
  · cases hremove

/-- The poller is a run of reclaims. -/
theorem reclaimLoop_runs {guard : CachedFile → Bool} {locked : FileRef → Bool} {done : Bool} :
    ∀ {files : List FileRef} {s : Pool}, (∀ r ∈ files, r ∈ s.gCaches) →
      reclaimLoop guard locked files s = .ok (s', done) → Runs PoolSteps (fun _ _ => True) s s'
  | [], s, _, h => by
      obtain ⟨rfl, -⟩ := Prod.mk.inj (Except.ok.inj h)
      exact .refl
  | r :: rest, s, hlisted, h => by
      obtain ⟨f, -, hturn⟩ := bind_ok.mp h
      split at hturn
      · obtain ⟨⟨s₁, rc⟩, hreclaim, hrest⟩ := bind_ok.mp hturn
        obtain ⟨f, -, ⟨rfl, rfl⟩ | ⟨rfl, -⟩⟩ := reclaimCacheBuffers_ok hreclaim
        · exact reclaimLoop_runs (fun r' hr' => hlisted r' (List.mem_cons_of_mem _ hr')) hrest
        · obtain ⟨rfl, -⟩ := Prod.mk.inj (Except.ok.inj hrest)
          refine .one (e := .reclaim r (locked r)) trivial ?_
          simp [PoolSteps, step, hlisted r List.mem_cons_self, hreclaim, bind, Except.bind, pure,
            Except.pure]
      · exact reclaimLoop_runs (fun r' hr' => hlisted r' (List.mem_cons_of_mem _ hr')) hturn

theorem blobfsCachePoolReclaim_runs {need : Bool × Bool × Bool} {locked : FileRef → Bool}
    (h : s.blobfsCachePoolReclaim need locked = .ok s') :
    Runs PoolSteps (fun _ _ => True) s s' := by
  unfold blobfsCachePoolReclaim at h
  split at h
  · obtain rfl := Except.ok.inj h
    exact .refl
  obtain ⟨⟨s₁, done₁⟩, h₁, h⟩ := bind_ok.mp h
  have hrun₁ := reclaimLoop_runs (fun _ hr => hr) h₁
  dsimp only at h
  split at h
  · obtain rfl := Except.ok.inj h
    exact hrun₁
  obtain ⟨⟨s₂, done₂⟩, h₂, h⟩ := bind_ok.mp h
  have hrun₂ := reclaimLoop_runs (fun _ hr => hr) h₂
  dsimp only at h
  split at h
  · obtain rfl := Except.ok.inj h
    exact hrun₁.trans hrun₂
  obtain ⟨⟨s₃, done₃⟩, h₃, h⟩ := bind_ok.mp h
  have hrun₃ := reclaimLoop_runs (fun _ hr => hr) h₃
  obtain rfl := Except.ok.inj h
  exact (hrun₁.trans hrun₂).trans hrun₃

end Pool

end Nbfs.Cache
