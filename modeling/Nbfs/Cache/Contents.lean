import Nbfs.Cache.CleanBuffers

set_option autoImplicit false

/-!
# The bytes of a file

A byte of a file is in a buffer of its cache, as far as one is filled there, and else
on the blob.
-/

namespace Nbfs.Cache

open Nbfs.Lib
open Nbfs.Async (Blobstore bytesToClusters)

/-- The buffer is filled at the byte. -/
def CacheBuffer.Has (buffer : CacheBuffer) (p : Nat) : Prop :=
  buffer.offset ≤ p ∧ p < buffer.offset + buffer.bytesFilled

instance (buffer : CacheBuffer) (p : Nat) : Decidable (buffer.Has p) :=
  inferInstanceAs (Decidable (_ ∧ _))

/-- Two units that have a position in common. -/
theorem same_unit {o o' p : Nat} (ho : cacheBufferSize ∣ o) (ho' : cacheBufferSize ∣ o')
    (hle : o ≤ p) (hlt : p < o + cacheBufferSize) (hle' : o' ≤ p)
    (hlt' : p < o' + cacheBufferSize) : o = o' := by
  obtain ⟨i, rfl⟩ := ho
  obtain ⟨j, rfl⟩ := ho'
  have hsize : cacheBufferSize = 2 ^ 18 := by decide
  simp only [hsize] at *
  omega

/-- Units that start at different places are apart. -/
theorem unit_apart {o o' : Nat} (ho : cacheBufferSize ∣ o) (ho' : cacheBufferSize ∣ o')
    (hlt : o < o') : o + cacheBufferSize ≤ o' := by
  obtain ⟨i, rfl⟩ := ho
  obtain ⟨j, rfl⟩ := ho'
  rw [← Nat.mul_succ]
  exact Nat.mul_le_mul_left _ (Nat.lt_of_mul_lt_mul_left hlt)

namespace FileState

/-- The byte, if it is in the cache. -/
def cachedAt (s : FileState) (p : Nat) : Option UInt8 :=
  (s.file.cache.find p).bind fun b => (s.file.cache.buffers b).bind fun buffer =>
    if buffer.Has p then some (s.mem b (p - buffer.offset)) else none

/-- The byte of the file. -/
def view (s : FileState) (p : Nat) : UInt8 := (s.cachedAt p).getD (s.blob.bytes p)

variable {clean clean' : Prop} {s s' : FileState} {b : BufRef} {buffer : CacheBuffer} {p : Nat}

theorem cachedAt_some (h : Heap clean s) (hbuffer : s.file.cache.buffers b = some buffer)
    (hp : buffer.Has p) : s.cachedAt p = some (s.mem b (p - buffer.offset)) := by
  have hsits := h.sits b buffer hbuffer
  have hend := hp.2.trans_le (Nat.add_le_add_left hsits.filled buffer.offset)
  have hfind : s.file.cache.find p = some b := by
    cases hfind : s.file.cache.find p with
    | none => exact absurd ⟨hp.1, hend⟩ (Present.find_none hfind hsits.listed hbuffer)
    | some c =>
        obtain ⟨-, other, hother, hle, hlt⟩ := Present.find_some hfind
        have hother' := (h.sits c other hother).aligned
        rw [h.distinct b buffer hbuffer c other hother
          (same_unit hother' hsits.aligned hle hlt hp.1 hend)]
  rw [cachedAt, hfind, Option.bind_some, hbuffer, Option.bind_some, if_pos hp]

theorem cachedAt_none
    (h : ∀ b buffer, s.file.cache.buffers b = some buffer → ¬ buffer.Has p) :
    s.cachedAt p = none := by
  unfold cachedAt
  cases s.file.cache.find p with
  | none => rfl
  | some b =>
      rw [Option.bind_some]
      cases hbuffer : s.file.cache.buffers b with
      | none => rfl
      | some buffer => exact if_neg (h b buffer hbuffer)

theorem view_cached (h : Heap clean s) (hbuffer : s.file.cache.buffers b = some buffer)
    (hp : buffer.Has p) : s.view p = s.mem b (p - buffer.offset) := by
  rw [view, cachedAt_some h hbuffer hp, Option.getD_some]

/-- The byte stays where it is in the cache. -/
theorem cachedAt_congr (h : Heap clean s) (h' : Heap clean' s')
    (hstays : ∀ b buffer, s.file.cache.buffers b = some buffer → buffer.Has p →
      ∃ buffer', s'.file.cache.buffers b = some buffer' ∧ buffer'.Has p ∧
        s'.mem b (p - buffer'.offset) = s.mem b (p - buffer.offset))
    (hnew : ∀ b buffer, s'.file.cache.buffers b = some buffer → buffer.Has p →
      ∃ old, s.file.cache.buffers b = some old ∧ old.Has p) : s'.cachedAt p = s.cachedAt p := by
  by_cases hcached : ∃ b buffer, s.file.cache.buffers b = some buffer ∧ buffer.Has p
  · obtain ⟨b, buffer, hbuffer, hp⟩ := hcached
    obtain ⟨buffer', hbuffer', hp', hmem⟩ := hstays b buffer hbuffer hp
    rw [cachedAt_some h' hbuffer' hp', cachedAt_some h hbuffer hp, hmem]
  · rw [cachedAt_none fun b buffer hbuffer hp => ?_, cachedAt_none fun b buffer hbuffer hp => ?_]
    · exact hcached ⟨b, buffer, hbuffer, hp⟩
    · obtain ⟨old, hold, hp⟩ := hnew b buffer hbuffer hp
      exact hcached ⟨b, old, hold, hp⟩

/-- The cache stays, and the blob at the byte. -/
theorem view_blob (hcache : s'.file.cache = s.file.cache) (hmem : s'.mem = s.mem)
    (hblob : s'.blob.bytes p = s.blob.bytes p) : s'.view p = s.view p := by
  unfold view cachedAt
  rw [hcache, hmem, hblob]

/-- The byte is as it was in the cache and on the blob. -/
theorem view_eq (hcached : s'.cachedAt p = s.cachedAt p)
    (hblob : s'.blob.bytes p = s.blob.bytes p) : s'.view p = s.view p := by
  rw [view, view, hcached, hblob]

/-- A new buffer is empty. -/
theorem cachedAt_appended (h : Heap clean s) (h' : Heap clean' s.appended) :
    s.appended.cachedAt p = s.cachedAt p := by
  have hbrk := h.brk_none
  refine cachedAt_congr h h' (fun b buffer hbuffer hp => ?_) fun b buffer hbuffer hp => ?_
  · have hne : b ≠ s.brk := by
      rintro rfl
      cases hbrk.symm.trans hbuffer
    exact ⟨buffer, (Function.update_of_ne hne ..).trans hbuffer, hp, rfl⟩
  · refine Heap.forall_update (P := fun b buffer => buffer.Has p →
      ∃ old, s.file.cache.buffers b = some old ∧ old.Has p) (fun b buffer hbuffer hp =>
        ⟨buffer, hbuffer, hp⟩) (fun hp => ?_) b buffer hbuffer hp
    exact absurd hp.2 (Nat.not_lt.mpr hp.1)

/-- A resize of the blob keeps what is in both sizes. -/
theorem resize_bytes {bs : Blobstore} {blob : Async.Blob} {numClusters : Nat}
    {contents : Nat → UInt8} (hold : p < blob.numClusters * bs.clusterSz)
    (hnew : p < numClusters * bs.clusterSz) :
    (blob.resize bs numClusters contents).bytes p = blob.bytes p := by
  refine if_pos ?_
  rcases Nat.le_total blob.numClusters numClusters with hle | hle
  · rwa [Nat.min_eq_left hle]
  · rwa [Nat.min_eq_right hle]

/-! ### What an append copies -/

section copied

variable {payload : List UInt8}

/-- How much a round copies. -/
theorem fillLength_eq (hfilled : buffer.bytesFilled ≤ cacheBufferSize) :
    fillLength buffer payload = min (cacheBufferSize - buffer.bytesFilled) payload.length := by
  have hsize : cacheBufferSize = 2 ^ 18 := by decide
  unfold fillLength
  congr 1
  omega

theorem bytesFilled_eq (hfilled : buffer.bytesFilled ≤ cacheBufferSize) :
    (buffer.bytesFilled + fillLength buffer payload) % 2 ^ 32 =
      buffer.bytesFilled + fillLength buffer payload := by
  have hcopy := Heap.fillLength_le hfilled payload
  have hsize : cacheBufferSize = 2 ^ 18 := by decide
  exact Nat.mod_eq_of_lt (by omega)

theorem copied_buffer (hfilled : buffer.bytesFilled ≤ cacheBufferSize) :
    (s.copied b buffer payload).file.cache.buffers b =
      some { buffer with bytesFilled := buffer.bytesFilled + fillLength buffer payload } := by
  refine (Function.update_self ..).trans ?_
  rw [bytesFilled_eq hfilled]

theorem copied_other {c : BufRef} (hc : c ≠ b) :
    (s.copied b buffer payload).file.cache.buffers c = s.file.cache.buffers c :=
  Function.update_of_ne hc ..

/-- What was copied follows what the buffer had. -/
theorem view_copied_inside (h : Heap clean s) (h' : Heap clean' (s.copied b buffer payload))
    (hbuffer : s.file.cache.buffers b = some buffer) {k : Nat}
    (hk : k < fillLength buffer payload) :
    (s.copied b buffer payload).view (buffer.offset + buffer.bytesFilled + k) =
      payload.getD k 0 := by
  have hfilled := (h.sits b buffer hbuffer).filled
  have hplace : buffer.offset + buffer.bytesFilled + k - buffer.offset =
    buffer.bytesFilled + k := by
    omega
  rw [view_cached h' (copied_buffer hfilled) ⟨by dsimp only; omega, by dsimp only; omega⟩, hplace]
  change Function.update s.mem b _ b _ = _
  rw [Function.update_self, splice_inside (by omega), Nat.add_sub_cancel_left]

theorem cachedAt_copied_outside (h : Heap clean s) (h' : Heap clean' (s.copied b buffer payload))
    (hbuffer : s.file.cache.buffers b = some buffer)
    (hp : ¬ (buffer.offset + buffer.bytesFilled ≤ p ∧
      p < buffer.offset + buffer.bytesFilled + fillLength buffer payload)) :
    (s.copied b buffer payload).cachedAt p = s.cachedAt p := by
  have hfilled := (h.sits b buffer hbuffer).filled
  refine cachedAt_congr h h' (fun c old hold hin => ?_) fun c new hnew hin => ?_
  · by_cases hc : c = b
    · subst hc
      obtain rfl := Option.some.inj (hbuffer.symm.trans hold)
      refine ⟨_, copied_buffer hfilled, ⟨hin.1, ?_⟩, ?_⟩
      · exact hin.2.trans_le (Nat.add_le_add_left (Nat.le_add_right _ _) _)
      · change Function.update s.mem c _ c _ = _
        rw [Function.update_self]
        have hle := hin.1
        have hlt := hin.2
        exact splice_outside (by dsimp only; omega)
    · refine ⟨old, (copied_other hc).trans hold, hin, ?_⟩
      exact congrFun (Function.update_of_ne hc ..) _
  · by_cases hc : c = b
    · subst hc
      obtain rfl := Option.some.inj ((copied_buffer hfilled).symm.trans hnew)
      refine ⟨buffer, hbuffer, hin.1, ?_⟩
      have hle := hin.1
      have hlt := hin.2
      dsimp only at hle hlt
      omega
    · exact ⟨new, (copied_other hc).symm.trans hnew, hin⟩

end copied

end FileState

end Nbfs.Cache
