import Nbfs.Cache.TreeRuns

set_option autoImplicit false

/-!
# A file with cached buffers (`lib/NBFS/NBFS.c`)

The tree of a file is taken as the set of buffers that it keeps.  A file has its
own buffers, and an address may be handed out again after its buffer was freed.
-/

namespace Nbfs.Cache

/-- Where the code has no defined behaviour, or stops. -/
inductive Fault where
  /-- A buffer is used after it was freed. -/
  | freedBuffer
  /-- A file is used after it was freed. -/
  | freedFile
  /-- NULL is used. -/
  | nullPointer
  | assertion
  /-- `TAILQ_INSERT_TAIL` of a file that is on `g_caches`. -/
  | listedTwice
  /-- `TAILQ_REMOVE` of a file that is not on `g_caches`. -/
  | notListed
  /-- More is copied than there is. -/
  | overrun
  /-- Nothing like this can happen now. -/
  | noEvent
  deriving DecidableEq

/-- The buffer whose range has the offset. -/
def Present.find (s : Present) (o : Nat) : Option BufRef :=
  s.refs.find? fun b => (s.buffers b).any fun buffer =>
    decide (buffer.offset ≤ o ∧ o < buffer.offset + cacheBufferSize)

/-- `tree_find_filled_buffer`. -/
def Present.findFilled (s : Present) (o : Nat) : Option BufRef :=
  (s.find o).filter fun b => (s.buffers b).any fun buffer => decide (0 < buffer.bytesFilled)

/-- `tree->present_mask == 0`. -/
def Present.isEmpty (s : Present) : Bool := s.refs.isEmpty

/-- The `cb_fn` of a sync, with its argument. -/
inductive SyncCb where
  /-- The client's, or `__wake_caller`. -/
  | client (cb : Nat)
  /-- `__file_close_async__sync_done`. -/
  | closeAsync (cb : Nat)
  /-- `__wake_caller` for `spdk_file_close`, which then sends `__file_close`. -/
  | close (cb : Nat)

/-- A request on `file->sync_requests`. -/
structure SyncRequest where
  /-- Its address. -/
  ref : Nat
  cb : SyncCb
  offset : Nat
  xattrInProgress : Bool
  length : Nat

/-- `struct spdk_file`, as far as its cache goes; the counters are `uint64_t`. -/
structure CachedFile where
  length : Nat
  openForWriting : Bool
  lengthFlushed : Nat
  lengthXattr : Nat
  appendPos : Nat
  seqByteCount : Nat
  nextSeqOffset : Nat
  lowPriority : Bool
  last : Option BufRef
  /-- `file->tree`, with the buffers on the heap. -/
  cache : Present
  syncRequests : List SyncRequest

namespace CachedFile

variable (f : CachedFile)

/-- The buffer at an address. -/
def buffer (b : BufRef) : Except Fault CacheBuffer :=
  match f.cache.buffers b with
  | some buffer => .ok buffer
  | none => .error .freedBuffer

def setBuffer (b : BufRef) (buffer : CacheBuffer) : CachedFile :=
  { f with cache := f.cache.step (.store b buffer) }

/-- `cache_insert_buffer`, where the buffer gets the address `b`. -/
def cacheInsertBuffer (b : BufRef) (offset : Nat) : Except Fault CachedFile :=
  if (f.cache.buffers b).isSome then .error .noEvent
  else if (f.cache.find offset).isSome then .error .assertion
  else .ok { f with cache := (f.cache.step (.store b ⟨offset, 0, 0, false⟩)).step (.insert b) }

/-- `tree_remove_buffer`. -/
def treeRemoveBuffer (b : BufRef) : CachedFile := { f with cache := f.cache.step (.remove b) }

/-- `tree_free_buffers`. -/
def treeFreeBuffers : CachedFile := { f with cache := f.cache.step .free }

end CachedFile

/-! ### Searching the set -/

namespace Present

variable {s : Present} {o : Nat} {b : BufRef}

theorem find_some (h : s.find o = some b) : b ∈ s.refs ∧ ∃ buffer, s.buffers b = some buffer ∧
    buffer.offset ≤ o ∧ o < buffer.offset + cacheBufferSize := by
  have hin := List.find?_some h
  rw [Option.any_eq_true] at hin
  obtain ⟨buffer, hbuffer, hrange⟩ := hin
  exact ⟨List.mem_of_find?_eq_some h, buffer, hbuffer, of_decide_eq_true hrange⟩

theorem find_none (h : s.find o = none) {buffer : CacheBuffer} (hb : b ∈ s.refs)
    (hbuffer : s.buffers b = some buffer) :
    ¬ (buffer.offset ≤ o ∧ o < buffer.offset + cacheBufferSize) := by
  have hout := List.find?_eq_none.mp h b hb
  simpa [hbuffer] using hout

end Present

/-- On a tree that holds the present buffers, `tree_find_buffer` finds the same. -/
theorem Holds.find_eq {c : Cache} {s : Present} (h : Holds c s) (o : Nat) :
    treeFindBuffer c.root o = some (s.find o) := by
  obtain ⟨r, hrun, hr⟩ := h.find o
  rw [hrun, Option.some.injEq]
  cases hfind : s.find o with
  | some b => exact (hr b).mpr (Present.find_some hfind)
  | none =>
      rw [Option.eq_none_iff_forall_ne_some]
      intro b hb
      obtain ⟨hmem, buffer, hbuffer, hrange⟩ := (hr b).mp hb
      exact Present.find_none hfind hmem hbuffer hrange

/-- A tree whose mask is not empty has a buffer. -/
theorem exists_bufferAt : ∀ {n : Nat} {t : CacheTree}, Leveled n t → t.presentMask ≠ 0 →
    ∃ s b, bufferAt n t s = some b
  | 0, t, h, hmask => by
      obtain ⟨presentMask, u, rfl, hu⟩ := h.node
      obtain ⟨i, hi⟩ : ∃ i, ¬ (u i).isNull = true := not_forall.mp (mt hu.eq_zero_iff.mpr hmask)
      rcases h.2.2 i with hnull | ⟨b, hb⟩
      · rw [hnull] at hi
        exact absurd rfl hi
      · exact ⟨i.val, b, bufferAt_leaf_iff.mpr ((digit_zero i).symm ▸ hb)⟩
  | n + 1, t, h, hmask => by
      obtain ⟨presentMask, u, rfl, hu⟩ := h.node
      obtain ⟨i, hi⟩ : ∃ i, ¬ (u i).isNull = true := not_forall.mp (mt hu.eq_zero_iff.mpr hmask)
      rcases h.2.2 i with hnull | ⟨hchild, hused⟩
      · rw [hnull] at hi
        exact absurd rfl hi
      · obtain ⟨s, b, hb⟩ := exists_bufferAt hchild hused
        obtain ⟨s', hdigit, hsame⟩ := exists_unit n i s
        refine ⟨s', b, ?_⟩
        rw [bufferAt, hdigit, hsame, hb]

/-- An empty mask is an empty set. -/
theorem Holds.isEmpty_iff {c : Cache} {s : Present} (h : Holds c s) :
    c.root.presentMask = 0 ↔ s.isEmpty = true := by
  obtain ⟨n, -, hleveled, hlookup⟩ := h.tree
  rw [Present.isEmpty, List.isEmpty_iff]
  constructor
  · intro hmask
    rw [List.eq_nil_iff_forall_not_mem]
    intro b hb
    obtain ⟨unit, hhas⟩ := h.aligned b hb
    have hat := (Holds.at_unit hlookup hhas).2
    rw [bufferAt_empty hleveled hmask] at hat
    cases hat
  · intro hrefs
    by_contra hmask
    obtain ⟨s', b, hb⟩ := exists_bufferAt hleveled hmask
    have hlook : lookup n c.root (s' % 64 ^ (n + 1)) = some b := by
      rw [lookup, if_pos (Nat.mod_lt _ (Nat.pow_pos (by decide))),
        bufferAt_mod _ _ (Nat.lt_succ_self n), hb]
    exact absurd (hrefs ▸ ((hlookup _ b).mp hlook).1) List.not_mem_nil

/-- `cache_insert_buffer` at the start of a unit inserts into the tree. -/
theorem Holds.cacheInsertBuffer {c : Cache} {f f' : CachedFile} (h : Holds c f.cache) {b : BufRef}
    {offset : Nat} (haligned : cacheBufferSize ∣ offset) (hoffset : offset < 2 ^ 60)
    (hinsert : f.cacheInsertBuffer b offset = .ok f') :
    ∃ c', Cache.runCalls c [.store b ⟨offset, 0, 0, false⟩, .insert b] = some c' ∧
      Holds c' f'.cache := by
  unfold CachedFile.cacheInsertBuffer at hinsert
  split at hinsert
  · cases hinsert
  rename_i hnew
  split at hinsert
  · cases hinsert
  rename_i hfind
  obtain rfl := Except.ok.inj hinsert
  have hnone : f.cache.buffers b = none := by simpa using hnew
  have hstored : ∀ old, f.cache.buffers b = some old → offset = old.offset :=
    fun old hold => nomatch hnone.symm.trans hold
  refine h.runCalls (s := f.cache) (And.intro (fun _ => hstored) (And.intro
    ⟨_, Function.update_self .., haligned, hoffset, fun b' hb' other hother heq => ?_⟩ trivial))
  have hne : b' ≠ b := by
    rintro rfl
    obtain ⟨_, _, buffer, hbuffer, _⟩ := h.aligned b' hb'
    cases hnone.symm.trans hbuffer
  have hold : f.cache.buffers b' = some other := (Function.update_of_ne hne ..).symm.trans hother
  have hout : f.cache.find offset = none := by simpa using hfind
  refine Present.find_none hout hb' hold ⟨Nat.le_of_eq heq, ?_⟩
  rw [heq]
  exact Nat.lt_add_of_pos_right (by decide)

end Nbfs.Cache
