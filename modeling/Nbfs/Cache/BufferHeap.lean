import Nbfs.Cache.FileSpecs
import Nbfs.Lib.Leases

set_option autoImplicit false

/-!
# Buffers and the operations on them

A buffer is in progress while one operation of the blobstore is under way for it.  A
flush leaves what it writes where it is, and a readahead fills a buffer that nothing
else fills; so a buffer that is clean has no operation.
-/

namespace Nbfs.Cache

open Nbfs.Lib
open Nbfs.Async (Blobstore Stage ENOMEM)

/-- The buffer of an operation. -/
def Work.io : Work → Option BufRef
  | flushWrite b _ _ | readahead b _ | readaheadRead b _ => some b
  | _ => none

/-- The buffer of a readahead. -/
def Work.ahead : Work → Option BufRef
  | readahead b _ | readaheadRead b _ => some b
  | _ => none

/-- The buffer that an append fills. -/
def Work.target : Work → Option BufRef
  | fill _ b _ _ => some b
  | _ => none

/-- The `offset` and `final_offset` of a round of a read. -/
def Work.round : Work → Option (Nat × Nat)
  | readLoop offset finalOffset => some (offset, finalOffset)
  | _ => none

/-- The buffer is as the operation found it. -/
def Work.Fits (buffer : CacheBuffer) : Work → Prop
  | flushWrite _ offset length => offset = buffer.offset + buffer.bytesFlushed ∧ 0 < length ∧
      buffer.bytesFlushed + length ≤ buffer.bytesFilled
  | readahead _ length | readaheadRead _ length => buffer.bytesFilled = 0 ∧
      buffer.bytesFlushed = 0 ∧ length ≤ cacheBufferSize
  | _ => True

/-- Whether an operation is under way for a buffer that is there. -/
def Present.progress (c : Present) (b : BufRef) : Option Bool :=
  (c.buffers b).map CacheBuffer.inProgress

/-- All is flushed, and no operation is under way. -/
def CacheBuffer.Clean (buffer : CacheBuffer) : Prop :=
  buffer.bytesFlushed = buffer.bytesFilled ∧ buffer.inProgress = false

/-- A buffer that is there is in the tree, at the start of a unit. -/
structure CacheBuffer.Sits (refs : List BufRef) (brk : Nat) (b : BufRef) (buffer : CacheBuffer) :
    Prop where
  flushed : buffer.bytesFlushed ≤ buffer.bytesFilled
  filled : buffer.bytesFilled ≤ cacheBufferSize
  aligned : cacheBufferSize ∣ buffer.offset
  listed : b ∈ refs
  old : b < brk

/-- The invariant; `clean` is whether only clean buffers were removed. -/
structure Heap (clean : Prop) (s : FileState) : Prop where
  leases : Leases Work.io s.pending s.file.cache.progress
  fits : ∀ w ∈ s.pending, ∀ b, w.io = some b → ∀ buffer, s.file.cache.buffers b = some buffer →
    w.Fits buffer
  sits : ∀ b buffer, s.file.cache.buffers b = some buffer → buffer.Sits s.file.cache.refs s.brk b
  distinct : ∀ b buffer, s.file.cache.buffers b = some buffer → ∀ c other,
    s.file.cache.buffers c = some other → other.offset = buffer.offset → c = b
  present : ∀ b ∈ s.file.cache.refs, ∃ buffer, s.file.cache.buffers b = some buffer
  held : ∀ w ∈ s.pending, ∀ b, w.io = some b → b < s.brk
  /-- No append fills what is read ahead. -/
  targets : ∀ b, s.file.last = some b ∨ (∃ w ∈ s.pending, w.target = some b) →
    b < s.brk ∧ ∀ w ∈ s.pending, w.ahead ≠ some b
  freed : clean → ∀ buffer, .freed buffer ∈ s.notes → buffer.Clean
  outstanding : clean → ∀ w ∈ s.pending, ∀ b, w.io = some b →
    ∃ buffer, s.file.cache.buffers b = some buffer

theorem Present.progress_some {c : Present} {b : BufRef} {busy : Bool} :
    c.progress b = some busy ↔ ∃ buffer, c.buffers b = some buffer ∧ buffer.inProgress = busy :=
  Option.map_eq_some_iff

theorem Present.progress_store {c : Present} {b q : BufRef} {new : CacheBuffer} {busy : Bool}
    (h : (c.step (.store b new)).progress q = some busy) :
    q = b ∧ busy = new.inProgress ∨ q ≠ b ∧ c.progress q = some busy := by
  obtain ⟨buffer, hbuffer, hbusy⟩ := progress_some.mp h
  change Function.update c.buffers b (some new) q = some buffer at hbuffer
  by_cases hq : q = b
  · subst hq
    rw [Function.update_self] at hbuffer
    exact Or.inl ⟨rfl, Option.some.inj hbuffer ▸ hbusy.symm⟩
  · rw [Function.update_of_ne hq] at hbuffer
    exact Or.inr ⟨hq, progress_some.mpr ⟨buffer, hbuffer, hbusy⟩⟩

theorem Work.io_of_ahead {w : Work} {b : BufRef} (h : w.ahead = some b) : w.io = some b := by
  cases w <;> first | exact h | cases h

/-- The state with one more item under way. -/
def FileState.held (s : FileState) (w : Work) : FileState := { s with pending := w :: s.pending }

namespace CacheBuffer

variable {refs refs' : List BufRef} {brk brk' : Nat} {b : BufRef} {old new : CacheBuffer}

theorem Sits.mono (h : old.Sits refs brk b) (hlisted : b ∈ refs → b ∈ refs') (hbrk : brk ≤ brk') :
    old.Sits refs' brk' b :=
  ⟨h.flushed, h.filled, h.aligned, hlisted h.listed, h.old.trans_le hbrk⟩

theorem Sits.store (h : old.Sits refs brk b) (hoffset : new.offset = old.offset)
    (hbounds : new.bytesFlushed ≤ new.bytesFilled ∧ new.bytesFilled ≤ cacheBufferSize) :
    new.Sits refs brk b :=
  ⟨hbounds.1, hbounds.2, hoffset ▸ h.aligned, h.listed, h.old⟩

end CacheBuffer

namespace Heap

variable {clean : Prop} {s s' : FileState} {bs : Blobstore} {a : Answer} {w : Work} {b : BufRef}
  {old new : CacheBuffer}

/-! ### Moves -/

/-- A change that is not about buffers. -/
theorem frame (h : Heap clean s) (hcache : s'.file.cache = s.file.cache)
    (hlast : s'.file.last = s.file.last ∨ s'.file.last = none) (hbrk : s.brk ≤ s'.brk)
    (hpending : s.pending.Perm s'.pending)
    (hnotes : ∀ buffer, .freed buffer ∈ s'.notes → .freed buffer ∈ s.notes) : Heap clean s' where
  leases := hcache ▸ h.leases.perm hpending
  fits := fun w hw b hio buffer hbuffer =>
    h.fits w (hpending.mem_iff.mpr hw) b hio buffer (hcache ▸ hbuffer)
  sits := fun b buffer hbuffer => hcache ▸ (h.sits b buffer (hcache ▸ hbuffer)).mono id hbrk
  distinct := hcache ▸ h.distinct
  present := hcache ▸ h.present
  held := fun w hw b hio => (h.held w (hpending.mem_iff.mpr hw) b hio).trans_le hbrk
  targets := by
    intro b hb
    have htarget : s.file.last = some b ∨ ∃ w ∈ s.pending, w.target = some b := by
      rcases hb with hb | ⟨w, hw, hb⟩
      · rcases hlast with heq | heq
        · exact Or.inl (heq ▸ hb)
        · cases heq.symm.trans hb
      · exact Or.inr ⟨w, hpending.mem_iff.mpr hw, hb⟩
    obtain ⟨hlt, hahead⟩ := h.targets b htarget
    exact ⟨hlt.trans_le hbrk, fun w hw => hahead w (hpending.mem_iff.mpr hw)⟩
  freed := fun hclean buffer hmem => h.freed hclean buffer (hnotes buffer hmem)
  outstanding := fun hclean w hw b hio =>
    hcache ▸ h.outstanding hclean w (hpending.mem_iff.mpr hw) b hio

/-- A change of fields that the invariant does not look at. -/
theorem fields (h : Heap clean s) (hcache : s'.file.cache = s.file.cache)
    (hlast : s'.file.last = s.file.last) (hbrk : s'.brk = s.brk) (hpending : s'.pending = s.pending)
    (hnotes : s'.notes = s.notes) : Heap clean s' :=
  h.frame hcache (Or.inl hlast) (Nat.le_of_eq hbrk.symm) (.of_eq hpending.symm)
    fun _ hmem => hnotes ▸ hmem

/-- The item that is done next. -/
theorem taken (h : Heap clean s) {i : Nat} (hw : s.pending[i]? = some w) :
    Heap clean ((s.take i).held w) :=
  h.frame rfl (Or.inl rfl) (Nat.le_refl _) (taken_perm hw) fun _ hmem => hmem

theorem send (h : Heap clean (s.held w)) : Heap clean (s.send w) :=
  h.frame rfl (Or.inl rfl) (Nat.le_refl _) (List.perm_append_singleton w s.pending).symm
    fun _ hmem => hmem

theorem note {n : Note} (h : Heap clean s) (hn : ∀ buffer, n ≠ .freed buffer) :
    Heap clean (s.note n) :=
  h.frame rfl (Or.inl rfl) (Nat.le_refl _) (.refl _) fun buffer hmem =>
    (FileState.mem_note hmem).resolve_right (hn buffer).symm

theorem reply {id : Nat} {rc : Int} (h : Heap clean s) : Heap clean (s.reply id rc) := h.note nofun

theorem alloc (h : Heap clean s) : Heap clean s.alloc :=
  h.frame rfl (Or.inl rfl) (Nat.le_succ _) (.refl _) fun _ hmem => hmem

/-- An item that is not about a buffer, or no more. -/
theorem drop (h : Heap clean (s.held w)) (hio : w.io = none) : Heap clean s where
  leases := (Leases.cons_none hio).mp h.leases
  fits := fun w' hw' => h.fits w' (List.mem_cons_of_mem _ hw')
  sits := h.sits
  distinct := h.distinct
  present := h.present
  held := fun w' hw' => h.held w' (List.mem_cons_of_mem _ hw')
  targets := by
    intro b hb
    obtain ⟨hlt, hahead⟩ := h.targets b (hb.imp_right fun ⟨w', hw', hb⟩ =>
      ⟨w', List.mem_cons_of_mem _ hw', hb⟩)
    exact ⟨hlt, fun w' hw' => hahead w' (List.mem_cons_of_mem _ hw')⟩
  freed := h.freed
  outstanding := fun hclean w' hw' => h.outstanding hclean w' (List.mem_cons_of_mem _ hw')

/-- An append that fills a buffer which nothing reads ahead. -/
theorem hold (h : Heap clean s) (hio : w.io = none) (htarget : ∀ b, w.target = some b →
    b < s.brk ∧ ∀ w' ∈ s.pending, w'.ahead ≠ some b) : Heap clean (s.held w) where
  leases := (Leases.cons_none hio).mpr h.leases
  fits := by
    intro w' hw' b hb
    rcases List.mem_cons.mp hw' with rfl | hw'
    · cases hio.symm.trans hb
    · exact h.fits w' hw' b hb
  sits := h.sits
  distinct := h.distinct
  present := h.present
  held := by
    intro w' hw' b hb
    rcases List.mem_cons.mp hw' with rfl | hw'
    · cases hio.symm.trans hb
    · exact h.held w' hw' b hb
  targets := by
    intro b hb
    have hprev : b < s.brk ∧ ∀ w' ∈ s.pending, w'.ahead ≠ some b := by
      rcases hb with hb | ⟨w', hw', hb⟩
      · exact h.targets b (Or.inl hb)
      · rcases List.mem_cons.mp hw' with rfl | hw'
        · exact htarget b hb
        · exact h.targets b (Or.inr ⟨w', hw', hb⟩)
    refine ⟨hprev.1, fun w' hw' => ?_⟩
    rcases List.mem_cons.mp hw' with rfl | hw'
    · exact fun hahead => nomatch hio.symm.trans (Work.io_of_ahead hahead)
    · exact hprev.2 w' hw'
  freed := h.freed
  outstanding := by
    intro hclean w' hw' b hb
    rcases List.mem_cons.mp hw' with rfl | hw'
    · cases hio.symm.trans hb
    · exact h.outstanding hclean w' hw' b hb

theorem plain (h : Heap clean s) (hio : w.io = none) (htarget : w.target = none) :
    Heap clean (s.send w) :=
  (h.hold hio fun _ hb => nomatch htarget.symm.trans hb).send

theorem blobOp (h : Heap clean s) (hio : w.io = none) (htarget : w.target = none)
    (hstep : s.blobOp w = .ok s') : Heap clean s' := by
  obtain ⟨-, rfl⟩ := FileState.blobOp_ok hstep
  exact h.plain hio htarget

/-! ### Buffers -/

/-- What holds of the old buffers and of the new one holds of all. -/
theorem forall_update {P : BufRef → CacheBuffer → Prop} {buffers : Buffers}
    (hold : ∀ c buffer, buffers c = some buffer → P c buffer) (hnew : P b new) :
    ∀ c buffer, Function.update buffers b (some new) c = some buffer → P c buffer := by
  intro c buffer hbuffer
  by_cases hc : c = b
  · subst hc
    rw [Function.update_self] at hbuffer
    exact Option.some.inj hbuffer ▸ hnew
  · rw [Function.update_of_ne hc] at hbuffer
    exact hold c buffer hbuffer

/-- Buffers that are there stay there. -/
theorem isSome_update {buffers : Buffers} {c : BufRef} (h : ∃ buffer, buffers c = some buffer) :
    ∃ buffer, Function.update buffers b (some new) c = some buffer := by
  by_cases hc : c = b
  · exact ⟨new, hc ▸ Function.update_self ..⟩
  · obtain ⟨buffer, hbuffer⟩ := h
    exact ⟨buffer, (Function.update_of_ne hc ..).trans hbuffer⟩

/-- A buffer keeps its place. -/
theorem distinct_store (h : Heap clean s) (hold : s.file.cache.buffers b = some old)
    (hoffset : new.offset = old.offset) : ∀ c buffer,
      Function.update s.file.cache.buffers b (some new) c = some buffer → ∀ d other,
        Function.update s.file.cache.buffers b (some new) d = some other →
          other.offset = buffer.offset → d = c := by
  have hplace : ∀ c buffer, Function.update s.file.cache.buffers b (some new) c = some buffer →
      ∃ before, s.file.cache.buffers c = some before ∧ before.offset = buffer.offset :=
    forall_update (fun c buffer hbuffer => ⟨buffer, hbuffer, rfl⟩) ⟨old, hold, hoffset.symm⟩
  intro c buffer hbuffer d other hother heq
  obtain ⟨before, hbefore, hsame⟩ := hplace c buffer hbuffer
  obtain ⟨before', hbefore', hsame'⟩ := hplace d other hother
  exact h.distinct c before hbefore d before' hbefore' (hsame'.trans (heq.trans hsame.symm))

/-- Fields of a buffer change under its operation. -/
theorem store (h : Heap clean s) (new : CacheBuffer) (hold : s.file.cache.buffers b = some old)
    (hoffset : new.offset = old.offset) (hprogress : new.inProgress = old.inProgress)
    (hbounds : new.bytesFlushed ≤ new.bytesFilled ∧ new.bytesFilled ≤ cacheBufferSize)
    (hfits : ∀ w ∈ s.pending, w.io = some b → w.Fits old → w.Fits new) :
    Heap clean (s.setFile (s.file.setBuffer b new)) where
  leases := by
    refine h.leases.congr fun q busy hq => ?_
    rcases Present.progress_store hq with ⟨rfl, rfl⟩ | ⟨-, hq⟩
    · exact Present.progress_some.mpr ⟨old, hold, hprogress.symm⟩
    · exact hq
  fits := fun w hw c hio buffer hbuffer =>
    forall_update (P := fun c buffer => ∀ w ∈ s.pending, w.io = some c → w.Fits buffer)
      (fun c buffer hbuffer w hw hio => h.fits w hw c hio buffer hbuffer)
      (fun w hw hio => hfits w hw hio (h.fits w hw b hio old hold)) c buffer hbuffer w hw hio
  sits := forall_update h.sits ((h.sits b old hold).store hoffset hbounds)
  distinct := h.distinct_store hold hoffset
  present := fun c hc => isSome_update (h.present c hc)
  held := h.held
  targets := h.targets
  freed := h.freed
  outstanding := fun hclean w hw c hio => isSome_update (h.outstanding hclean w hw c hio)

/-- An operation begins for a buffer. -/
theorem begin (h : Heap clean s) (hold : s.file.cache.buffers b = some old)
    (hidle : old.inProgress = false) (hio : w.io = some b) (hahead : w.ahead = none)
    (htarget : w.target = none) (hfits : w.Fits { old with inProgress := true }) :
    Heap clean ((s.setFile (s.file.setBuffer b { old with inProgress := true })).held w) := by
  have hsits := h.sits b old hold
  have hfree : b ∉ s.pending.filterMap Work.io := fun hmem =>
    Bool.false_ne_true ((h.leases.busy_iff b false
      (Present.progress_some.mpr ⟨old, hold, hidle⟩)).mpr hmem)
  exact {
    leases := by
      refine h.leases.hold hio hfree fun q busy hq => ?_
      rcases Present.progress_store hq with ⟨rfl, rfl⟩ | hq
      · exact Or.inl ⟨rfl, rfl⟩
      · exact Or.inr hq
    fits := by
      intro w' hw' c hc buffer hbuffer
      rcases List.mem_cons.mp hw' with rfl | hw'
      · obtain rfl : b = c := Option.some.inj (hio.symm.trans hc)
        obtain rfl := Option.some.inj ((Function.update_self b _ _).symm.trans hbuffer)
        exact hfits
      · have hne : c ≠ b := by
          rintro rfl
          exact hfree (List.mem_filterMap.mpr ⟨w', hw', hc⟩)
        exact h.fits w' hw' c hc buffer ((Function.update_of_ne hne ..).symm.trans hbuffer)
    sits := forall_update h.sits (hsits.store rfl ⟨hsits.flushed, hsits.filled⟩)
    distinct := h.distinct_store hold rfl
    present := fun c hc => isSome_update (h.present c hc)
    held := by
      intro w' hw' c hc
      rcases List.mem_cons.mp hw' with rfl | hw'
      · exact Option.some.inj (hio.symm.trans hc) ▸ hsits.old
      · exact h.held w' hw' c hc
    targets := by
      intro c hc
      refine (h.targets c (hc.imp_right ?_)).imp_right fun hno w' hw' => ?_
      · rintro ⟨w', hw', hfill⟩
        rcases List.mem_cons.mp hw' with rfl | hw'
        · cases htarget.symm.trans hfill
        · exact ⟨w', hw', hfill⟩
      · rcases List.mem_cons.mp hw' with rfl | hw'
        · exact fun heq => nomatch hahead.symm.trans heq
        · exact hno w' hw'
    freed := h.freed
    outstanding := by
      intro hclean w' hw' c hc
      rcases List.mem_cons.mp hw' with rfl | hw'
      · obtain rfl : b = c := Option.some.inj (hio.symm.trans hc)
        exact isSome_update ⟨old, hold⟩
      · exact isSome_update (h.outstanding hclean w' hw' c hc) }

/-- The operation of a buffer is done. -/
theorem finish (h : Heap clean (s.held w)) (new : CacheBuffer) (hio : w.io = some b)
    (hold : s.file.cache.buffers b = some old) (hoffset : new.offset = old.offset)
    (hidle : new.inProgress = false)
    (hbounds : new.bytesFlushed ≤ new.bytesFilled ∧ new.bytesFilled ≤ cacheBufferSize) :
    Heap clean (s.setFile (s.file.setBuffer b new)) where
  leases := by
    refine h.leases.release hio fun q busy hq => ?_
    rcases Present.progress_store hq with ⟨rfl, rfl⟩ | hq
    · exact Or.inl ⟨rfl, hidle⟩
    · exact Or.inr hq
  fits := by
    intro w' hw' c hc buffer hbuffer
    have hne : c ≠ b := by
      rintro rfl
      exact h.leases.held hio (List.mem_filterMap.mpr ⟨w', hw', hc⟩)
    exact h.fits w' (List.mem_cons_of_mem _ hw') c hc buffer
      ((Function.update_of_ne hne ..).symm.trans hbuffer)
  sits := forall_update h.sits ((h.sits b old hold).store hoffset hbounds)
  distinct := h.distinct_store hold hoffset
  present := fun c hc => isSome_update (h.present c hc)
  held := fun w' hw' => h.held w' (List.mem_cons_of_mem _ hw')
  targets := by
    intro c hc
    obtain ⟨hlt, hno⟩ := h.targets c (hc.imp_right fun ⟨w', hw', hc⟩ =>
      ⟨w', List.mem_cons_of_mem _ hw', hc⟩)
    exact ⟨hlt, fun w' hw' => hno w' (List.mem_cons_of_mem _ hw')⟩
  freed := h.freed
  outstanding := fun hclean w' hw' c hc =>
    isSome_update (h.outstanding hclean w' (List.mem_cons_of_mem _ hw') c hc)

/-! ### New buffers -/

/-- Nothing is at the next address. -/
theorem brk_none (h : Heap clean s) : s.file.cache.buffers s.brk = none := by
  rw [Option.eq_none_iff_forall_ne_some]
  exact fun buffer hbuffer => Nat.lt_irrefl _ (h.sits s.brk buffer hbuffer).old

/-- No operation is under way for the next address. -/
theorem brk_unused (h : Heap clean s) : ∀ w ∈ s.pending, w.io ≠ some s.brk :=
  fun w hw hio => Nat.lt_irrefl _ (h.held w hw s.brk hio)

theorem sits_inserted (h : Heap clean s) {offset : Nat} {busy : Bool}
    (haligned : cacheBufferSize ∣ offset) : ∀ c buffer,
      Function.update s.file.cache.buffers s.brk (some ⟨offset, 0, 0, busy⟩) c = some buffer →
        buffer.Sits (s.brk :: s.file.cache.refs) (s.brk + 1) c :=
  forall_update
    (fun c buffer hbuffer => (h.sits c buffer hbuffer).mono (List.mem_cons_of_mem _)
    (Nat.le_succ _))
    ⟨Nat.le_refl _, Nat.zero_le _, haligned, List.mem_cons_self, Nat.lt_succ_self _⟩

theorem distinct_inserted (h : Heap clean s) {offset : Nat} {busy : Bool}
    (hfind : s.file.cache.find offset = none) : ∀ c buffer,
      Function.update s.file.cache.buffers s.brk (some ⟨offset, 0, 0, busy⟩) c = some buffer →
        ∀ d other, Function.update s.file.cache.buffers s.brk (some ⟨offset, 0, 0, busy⟩) d =
          some other → other.offset = buffer.offset → d = c := by
  have helse : ∀ c buffer, s.file.cache.buffers c = some buffer → buffer.offset ≠ offset := by
    rintro c buffer hbuffer rfl
    exact Present.find_none hfind (h.sits c buffer hbuffer).listed hbuffer
      ⟨Nat.le_refl _, Nat.lt_add_of_pos_right (by decide)⟩
  refine forall_update (fun c buffer hbuffer => ?_) ?_
  · exact forall_update (h.distinct c buffer hbuffer) fun heq =>
      absurd heq.symm (helse c buffer hbuffer)
  · exact forall_update (fun d other hother heq => absurd heq (helse d other hother)) fun _ => rfl

theorem present_inserted (h : Heap clean s) : ∀ c ∈ s.brk :: s.file.cache.refs,
    ∃ buffer, Function.update s.file.cache.buffers s.brk (some new) c = some buffer := by
  intro c hc
  rcases List.mem_cons.mp hc with rfl | hc
  · exact ⟨new, Function.update_self ..⟩
  · exact isSome_update (h.present c hc)

/-- A new buffer for an append. -/
theorem appended (h : Heap clean s) (haligned : cacheBufferSize ∣ s.file.appendPos)
    (hfind : s.file.cache.find s.file.appendPos = none) : Heap clean s.appended where
  leases := by
    refine h.leases.come (r := s.brk) (fun hmem => ?_) fun q busy hq => ?_
    · obtain ⟨w, hw, hio⟩ := List.mem_filterMap.mp hmem
      exact h.brk_unused w hw hio
    · rcases Present.progress_store (c := s.file.cache) hq with hnew | ⟨-, hold⟩
      · exact Or.inl hnew
      · exact Or.inr hold
  fits := by
    intro w hw c hc buffer hbuffer
    have hne : c ≠ s.brk := fun heq => h.brk_unused w hw (heq ▸ hc)
    exact h.fits w hw c hc buffer ((Function.update_of_ne hne ..).symm.trans hbuffer)
  sits := h.sits_inserted haligned
  distinct := h.distinct_inserted hfind
  present := h.present_inserted
  held := fun w hw c hc => Nat.lt_succ_of_lt (h.held w hw c hc)
  targets := by
    intro c hc
    rcases hc with hc | hc
    · obtain rfl := Option.some.inj hc
      exact ⟨Nat.lt_succ_self _, fun w hw heq => h.brk_unused w hw (Work.io_of_ahead heq)⟩
    · obtain ⟨hlt, hno⟩ := h.targets c (Or.inr hc)
      exact ⟨Nat.lt_succ_of_lt hlt, hno⟩
  freed := h.freed
  outstanding := fun hclean w hw c hc => isSome_update (h.outstanding hclean w hw c hc)

/-- Its fields are stored twice. -/
theorem ahead_cache (s : FileState) (offset : Nat) : (s.ahead offset).file.cache =
    (s.file.cache.step (.store s.brk ⟨offset, 0, 0, true⟩)).step (.insert s.brk) := by
  change (⟨_, _⟩ : Present) = ⟨_, _⟩
  rw [Present.mk.injEq]
  exact ⟨rfl, Function.update_idem ..⟩

/-- A new buffer that is read ahead. -/
theorem ahead (h : Heap clean s) {offset length : Nat} (hlength : length ≤ cacheBufferSize)
    (haligned : cacheBufferSize ∣ offset) (hfind : s.file.cache.find offset = none) :
    Heap clean ((s.ahead offset).held (.readahead s.brk length)) where
  leases := by
    refine h.leases.hold rfl (fun hmem => ?_) fun q busy hq => ?_
    · obtain ⟨w, hw, hio⟩ := List.mem_filterMap.mp hmem
      exact h.brk_unused w hw hio
    · exact Present.progress_store (c := s.file.cache) (ahead_cache s offset ▸ hq)
  fits := by
    intro w hw c hc buffer hbuffer
    rw [show ((s.ahead offset).held _).file.cache = _ from ahead_cache s offset] at hbuffer
    rcases List.mem_cons.mp hw with rfl | hw
    · obtain rfl : s.brk = c := Option.some.inj hc
      obtain rfl := Option.some.inj ((Function.update_self s.brk _ _).symm.trans hbuffer)
      exact ⟨rfl, rfl, hlength⟩
    · have hne : c ≠ s.brk := fun heq => h.brk_unused w hw (heq ▸ hc)
      exact h.fits w hw c hc buffer ((Function.update_of_ne hne ..).symm.trans hbuffer)
  sits := by
    rw [show ((s.ahead offset).held _).file.cache = _ from ahead_cache s offset]
    exact h.sits_inserted haligned
  distinct := by
    rw [show ((s.ahead offset).held _).file.cache = _ from ahead_cache s offset]
    exact h.distinct_inserted hfind
  present := by
    rw [show ((s.ahead offset).held _).file.cache = _ from ahead_cache s offset]
    exact h.present_inserted
  held := by
    intro w hw c hc
    rcases List.mem_cons.mp hw with rfl | hw
    · exact Option.some.inj hc ▸ Nat.lt_succ_self _
    · exact Nat.lt_succ_of_lt (h.held w hw c hc)
  targets := by
    intro c hc
    have hprev : c < s.brk ∧ ∀ w ∈ s.pending, w.ahead ≠ some c := by
      refine h.targets c (hc.imp_right ?_)
      rintro ⟨w, hw, htarget⟩
      rcases List.mem_cons.mp hw with rfl | hw
      · cases htarget
      · exact ⟨w, hw, htarget⟩
    refine ⟨Nat.lt_succ_of_lt hprev.1, fun w hw => ?_⟩
    rcases List.mem_cons.mp hw with rfl | hw
    · exact fun heq => Nat.ne_of_gt hprev.1 (Option.some.inj heq)
    · exact hprev.2 w hw
  freed := h.freed
  outstanding := by
    rw [show ((s.ahead offset).held _).file.cache = _ from ahead_cache s offset]
    intro hclean w hw c hc
    rcases List.mem_cons.mp hw with rfl | hw
    · obtain rfl : s.brk = c := Option.some.inj hc
      exact ⟨_, Function.update_self ..⟩
    · exact isSome_update (h.outstanding hclean w hw c hc)

/-! ### Buffers that leave -/

/-- Buffers leave the tree and are freed. -/
theorem leave (h : Heap clean s) {t : Present}
    (hsub : ∀ c buffer, t.buffers c = some buffer →
      s.file.cache.buffers c = some buffer ∧ (c ∈ s.file.cache.refs → c ∈ t.refs))
    (hpresent : ∀ c ∈ t.refs, c ∈ s.file.cache.refs ∧ t.buffers c = s.file.cache.buffers c)
    (hbusy : clean → ∀ c, s.file.cache.progress c = some true →
      t.buffers c = s.file.cache.buffers c)
    (hfile : s'.file.cache = t) (hlast : s'.file.last = s.file.last) (hbrk : s'.brk = s.brk)
    (hpending : s'.pending = s.pending)
    (hnotes : clean → ∀ buffer, .freed buffer ∈ s'.notes → .freed buffer ∈ s.notes ∨ buffer.Clean) :
    Heap clean s' where
  leases := by
    rw [hpending, hfile]
    refine h.leases.congr fun q busy hq => ?_
    obtain ⟨buffer, hbuffer, hin⟩ := Present.progress_some.mp hq
    exact Present.progress_some.mpr ⟨buffer, (hsub q buffer hbuffer).1, hin⟩
  fits := by
    rw [hpending, hfile]
    exact fun w hw c hc buffer hbuffer => h.fits w hw c hc buffer (hsub c buffer hbuffer).1
  sits := by
    rw [hfile, hbrk]
    intro c buffer hbuffer
    obtain ⟨hold, hstays⟩ := hsub c buffer hbuffer
    exact (h.sits c buffer hold).mono hstays (Nat.le_refl _)
  distinct := by
    rw [hfile]
    exact fun c buffer hbuffer d other hother =>
      h.distinct c buffer (hsub c buffer hbuffer).1 d other (hsub d other hother).1
  present := by
    rw [hfile]
    intro c hc
    obtain ⟨hlisted, hsame⟩ := hpresent c hc
    exact hsame ▸ h.present c hlisted
  held := by
    rw [hpending, hbrk]
    exact h.held
  targets := by
    rw [hlast, hbrk, hpending]
    exact h.targets
  freed := fun hclean buffer hmem => (hnotes hclean buffer hmem).elim (h.freed hclean buffer) id
  outstanding := by
    rw [hpending, hfile]
    intro hclean w hw c hc
    obtain ⟨buffer, hbuffer⟩ := h.outstanding hclean w hw c hc
    refine ⟨buffer, (hbusy hclean c (Present.progress_some.mpr ⟨buffer, hbuffer, ?_⟩)).trans
      hbuffer⟩
    exact (h.leases.busy_iff c _ (Present.progress_some.mpr ⟨buffer, hbuffer, rfl⟩)).mpr
      (List.mem_filterMap.mpr ⟨w, hw, hc⟩)

theorem removeBuffer (h : Heap clean s) (hold : s.file.cache.buffers b = some old)
    (hclean : clean → old.Clean) : Heap clean (s.removeBuffer b old) := by
  refine h.leave (t := s.file.cache.step (.remove b)) (fun c buffer hbuffer => ?_) (fun c hc => ?_)
    (fun hc c hin => ?_) rfl rfl rfl rfl fun hc buffer hmem => ?_
  · have hne : c ≠ b := by
      rintro rfl
      cases (Function.update_self ..).symm.trans hbuffer
    refine ⟨(Function.update_of_ne hne ..).symm.trans hbuffer, fun hc => ?_⟩
    exact List.mem_filter.mpr ⟨hc, decide_eq_true hne⟩
  · obtain ⟨hlisted, hne⟩ := List.mem_filter.mp hc
    exact ⟨hlisted, Function.update_of_ne (of_decide_eq_true hne) ..⟩
  · refine Function.update_of_ne ?_ _ _
    rintro rfl
    obtain ⟨buffer, hbuffer, hin⟩ := Present.progress_some.mp hin
    obtain rfl := Option.some.inj (hold.symm.trans hbuffer)
    cases (hclean hc).2.symm.trans hin
  · rcases FileState.mem_note hmem with hmem | heq
    · exact Or.inl hmem
    · exact Or.inr (Note.freed.inj heq ▸ hclean hc)

/-- An idle buffer is clean. -/
theorem clean_of_idle {buffers : Buffers} (h : idleIn buffers b = true)
    (hold : buffers b = some old) : old.Clean := by
  simp only [idleIn, hold, Option.any_some, CacheBuffer.idle, Bool.and_eq_true, beq_iff_eq] at h
  exact ⟨h.2.symm, h.1⟩

theorem treeFreeBuffers (h : Heap clean s) : Heap clean s.treeFreeBuffers := by
  refine h.leave (t := s.file.cache.step .free) (fun c buffer hbuffer => ?_) (fun c hc => ?_)
    (fun _ c hin => ?_) rfl rfl rfl rfl fun _ buffer hmem => ?_
  · change (if c ∈ s.file.cache.refs ∧ idleIn s.file.cache.buffers c = true then none
      else s.file.cache.buffers c) = some buffer at hbuffer
    split at hbuffer
    · cases hbuffer
    · rename_i hstays
      refine ⟨hbuffer, fun hc => List.mem_filter.mpr ⟨hc, ?_⟩⟩
      simpa using fun hidle => hstays ⟨hc, hidle⟩
  · obtain ⟨hlisted, hbusy⟩ := List.mem_filter.mp hc
    refine ⟨hlisted, if_neg fun hfree => ?_⟩
    rw [hfree.2] at hbusy
    cases hbusy
  · refine if_neg fun hfree => ?_
    obtain ⟨buffer, hbuffer, hin⟩ := Present.progress_some.mp hin
    cases (clean_of_idle hfree.2 hbuffer).2.symm.trans hin
  · rcases List.mem_append.mp hmem with hmem | hnew
    · exact Or.inl hmem
    · obtain ⟨c, hc, hnote⟩ := List.mem_filterMap.mp hnew
      obtain ⟨old, hold, heq⟩ := Option.map_eq_some_iff.mp hnote
      obtain rfl := Note.freed.inj heq
      exact Or.inr (clean_of_idle (List.mem_filter.mp hc).2 hold)

end Heap

end Nbfs.Cache
