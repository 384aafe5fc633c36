import Nbfs.Async.Vectored

set_option autoImplicit false

/-!
# The bytes of a vectored call

A write that is not a whole number of io units writes back what a read of the units left
in its buffer, whether the read succeeded or not; a write past the end resizes the blob to
its own end, whether the blob is larger or not; and a read copies what its read left.
-/

namespace Nbfs.Async

open Nbfs.Lib

/-- What a call is told: whether its allocations succeed, and how its operations end. -/
structure Results where
  request : Bool
  pinBuf : Bool
  truncate : Bool
  resize : Int
  syncMd : Int
  read : Int
  write : Int

/-- What is found where nothing is promised: in a new buffer, in clusters that are new, and
after an operation that failed. -/
structure Garbage where
  pinBuf : Nat → UInt8
  resize : Nat → UInt8
  read : Nat → UInt8
  write : Nat → UInt8

def Results.memory (r : Results) (g : Garbage) : Memory :=
  ⟨r.request, if r.pinBuf then some g.pinBuf else none, r.truncate⟩

def Results.outcomes (r : Results) (g : Garbage) : Outcomes :=
  ⟨⟨r.resize, g.resize⟩, r.syncMd, ⟨r.read, g.read⟩, ⟨r.write, g.write⟩⟩

/-- The blob has the byte. -/
def Blob.Has (bs : Blobstore) (b : Blob) (p : Nat) : Prop := p < b.numClusters * bs.clusterSz

instance (bs : Blobstore) (b : Blob) (p : Nat) : Decidable (b.Has bs p) :=
  inferInstanceAs (Decidable (_ < _))

namespace VecCall

variable (bs : Blobstore) (c : VecCall) (f : File) (r : Results) (g : Garbage)

/-- The call, run to its end. -/
def run : Option Completion := c.readvwritev bs f (r.memory g) (r.outcomes g)

/-- The byte is one that the call is for. -/
def Covers (p : Nat) : Prop := c.offset ≤ p ∧ p < c.offset + c.length

/-- The byte is in the io units of the call. -/
def InUnits (p : Nat) : Prop :=
  c.startLba bs * bs.ioUnitSize ≤ p ∧
    p < c.startLba bs * bs.ioUnitSize + c.numLba bs * bs.ioUnitSize

instance (p : Nat) : Decidable (c.Covers p) := inferInstanceAs (Decidable (_ ∧ _))

instance (p : Nat) : Decidable (c.InUnits bs p) := inferInstanceAs (Decidable (_ ∧ _))

/-- The iovs are on the blob, the other bytes that it had are as they were, and the file reaches
to the end of the call. -/
structure Written (d : Completion) : Prop where
  payload : ∀ k < c.length, d.file.blob.Has bs (c.offset + k) ∧
    d.file.blob.bytes (c.offset + k) = c.iovs.flatten.getD k 0
  others : ∀ p, f.blob.Has bs p → ¬ c.Covers p →
    d.file.blob.Has bs p ∧ d.file.blob.bytes p = f.blob.bytes p
  length : d.file.length = max f.length (c.offset + c.length)

/-- The iovs keep their lengths, and have the bytes of the blob. -/
structure ReadBack (d : Completion) : Prop where
  rc : d.rc = 0
  lengths : d.iovs.map List.length = c.iovs.map List.length
  bytes : d.iovs.flatten = (List.range c.length).map fun k => f.blob.bytes (c.offset + k)

/-- The call is byte-exact. -/
def Exact (d : Completion) : Prop :=
  if c.isRead then
    if f.length < c.offset + c.length then d.rc = -EINVAL else c.ReadBack f d
  else d.rc = 0 → c.Written bs f d

/-- The call makes the file longer. -/
def Extends : Prop := c.isRead = false ∧ f.length < c.offset + c.length

instance : Decidable (c.Extends f) := inferInstanceAs (Decidable (_ ∧ _))

/-- The write reads its io units first. -/
def ReadsFirst : Prop := c.Extends f ∨ isLbaAligned bs c.offset c.length = false

instance : Decidable (c.ReadsFirst bs f) := inferInstanceAs (Decidable (_ ∨ _))

/-- The blob after the truncate of the write, if it makes one. -/
def base : File := if c.Extends f then c.truncated bs f g.resize else f

/-- The write comes to its end. -/
structure Succeeds : Prop where
  request : r.request = true
  pinBuf : r.pinBuf = true ∧ c.pinBufLength bs ≠ 0
  grown : c.Extends f → r.truncate = true ∧ r.resize = 0 ∧ r.syncMd = 0
  write : r.write = 0
  units : (c.startLba bs + c.numLba bs) * bs.ioUnitSize ≤
    (if c.Extends f then bytesToClusters c.last bs.clusterSz else f.blob.numClusters) * bs.clusterSz

/-- A read gets its buffer, and its read of the blob succeeds.  A write that comes to its end does
not make the blob smaller, and if it reads its io units then this succeeds, or the blob had no
other byte in them. -/
def Trusted : Prop :=
  if c.isRead then
    f.length < c.offset + c.length ∨
      r.request = true ∧ (r.pinBuf = true ∧ c.pinBufLength bs ≠ 0) ∧ r.read = 0
  else c.Succeeds bs f r →
    (c.Extends f → f.blob.numClusters ≤ bytesToClusters c.last bs.clusterSz) ∧
      (c.ReadsFirst bs f → r.read = 0 ∨ ∀ p, f.blob.Has bs p → c.InUnits bs p → c.Covers p)

/-! ### The io units -/

variable {bs c f r g} {p : Nat}

theorem last_eq (hend : c.offset + c.length < 2 ^ 64) : c.last = c.offset + c.length :=
  Nat.mod_eq_of_lt hend

theorem numLba_eq (hpos : 0 < c.length) (hend : c.offset + c.length < 2 ^ 64) :
    c.numLba bs = bs.unitCount c.offset c.length :=
  numLba_exact hpos (by omega) (Nat.le_of_lt hend)

/-- The units end with that of the last byte. -/
theorem units_end (hpos : 0 < c.length) (hend : c.offset + c.length < 2 ^ 64) :
    c.startLba bs * bs.ioUnitSize + c.numLba bs * bs.ioUnitSize =
      ((c.offset + c.length - 1) / bs.ioUnitSize + 1) * bs.ioUnitSize := by
  rw [numLba_eq hpos hend]
  exact Blobstore.units_end hpos

/-- A buffer that is not empty has room for all of the units. -/
theorem pinBufLength_eq (hpos : 0 < c.length) (hend : c.offset + c.length < 2 ^ 64)
    (hsome : c.pinBufLength bs ≠ 0) : c.pinBufLength bs = c.numLba bs * bs.ioUnitSize := by
  have hunits := @units_end bs c hpos hend
  rcases Nat.le_total bs.ioUnitShift 64 with hshift | hshift
  · obtain ⟨count, hcount⟩ : bs.ioUnitSize ∣ 2 ^ 64 := Nat.pow_dvd_pow 2 hshift
    have hlt : (c.offset + c.length - 1) / bs.ioUnitSize < count :=
      Nat.div_lt_of_lt_mul (by omega)
    have hle := Nat.mul_le_mul_right bs.ioUnitSize (Nat.succ_le_of_lt hlt)
    rw [Nat.mul_comm count, ← hcount] at hle
    rcases Nat.lt_or_ge (c.numLba bs * bs.ioUnitSize) (2 ^ 64) with hsmall | hlarge
    · exact Nat.mod_eq_of_lt hsmall
    · have hall : c.numLba bs * bs.ioUnitSize = 2 ^ 64 := by
        rw [Nat.succ_eq_add_one] at hle
        omega
      exact absurd (by rw [pinBufLength, hall, Nat.mod_self]) hsome
  · have hdvd : 2 ^ 64 ∣ bs.ioUnitSize := Nat.pow_dvd_pow 2 hshift
    exact absurd (Nat.mod_eq_zero_of_dvd (hdvd.mul_left _)) hsome

/-- The bytes of the call have their place in the buffer. -/
theorem room (hpos : 0 < c.length) (hend : c.offset + c.length < 2 ^ 64) :
    c.offset % bs.ioUnitSize + c.length ≤ c.numLba bs * bs.ioUnitSize := by
  have hunits := @units_end bs c hpos hend
  have hlast := (block_bounds bs.ioUnitSize_pos (by omega : c.offset ≤ c.offset + c.length - 1)
    (by omega : _ < c.offset + c.length)).2
  have hsplit := Nat.div_add_mod c.offset bs.ioUnitSize
  have hstart : c.startLba bs * bs.ioUnitSize = bs.ioUnitSize * (c.offset / bs.ioUnitSize) :=
    Nat.mul_comm ..
  omega

theorem covers_inUnits (hpos : 0 < c.length) (hend : c.offset + c.length < 2 ^ 64)
    (hp : c.Covers p) : c.InUnits bs p := by
  have hbounds := block_bounds bs.ioUnitSize_pos hp.1 hp.2
  refine ⟨hbounds.1, ?_⟩
  rw [units_end hpos hend]
  exact hbounds.2

/-- A whole number of units. -/
theorem covers_of_aligned (haligned : isLbaAligned bs c.offset c.length = true)
    (hpos : 0 < c.length) (hend : c.offset + c.length < 2 ^ 64) (hp : c.InUnits bs p) :
    c.Covers p := by
  obtain ⟨hoffset, hlength⟩ := of_decide_eq_true haligned
  obtain ⟨first, hfirst⟩ := Nat.dvd_of_mod_eq_zero hoffset
  obtain ⟨count, hcount⟩ := Nat.dvd_of_mod_eq_zero hlength
  have hstart : c.startLba bs * bs.ioUnitSize = c.offset :=
    Nat.div_mul_cancel (Nat.dvd_of_mod_eq_zero hoffset)
  have hlast : ((c.offset + c.length - 1) / bs.ioUnitSize + 1) * bs.ioUnitSize =
      c.offset + c.length := by
    have hsum : c.offset + c.length = bs.ioUnitSize * (first + count) := by
      rw [hfirst, hcount, Nat.mul_add]
    have hsome : 0 < first + count :=
      Nat.add_pos_right first (Nat.pos_of_mul_pos_left (hcount ▸ hpos))
    rw [hsum, last_block bs.ioUnitSize_pos hsome, Nat.mul_comm]
  have hunits := @units_end bs c hpos hend
  obtain ⟨hle, hlt⟩ := hp
  exact ⟨hstart ▸ hle, by omega⟩

/-! ### Writes -/

/-- What the buffer has before the iovs are copied to it. -/
def found (bs : Blobstore) (c : VecCall) (f : File) (r : Results) (g : Garbage) : Nat → UInt8 :=
  if c.ReadsFirst bs f then
    if r.read ≠ 0 then g.read
    else (c.base bs f g).blob.ioRead bs g.pinBuf (c.startLba bs) (c.numLba bs)
  else g.pinBuf

/-- What the write puts on the blob. -/
def filled (bs : Blobstore) (c : VecCall) (f : File) (r : Results) (g : Garbage) : Nat → UInt8 :=
  copyVecToBuf c.iovs (c.found bs f r g) (c.offset % bs.ioUnitSize) (c.pinBufLength bs)

/-- How a write that succeeds ends. -/
def written (bs : Blobstore) (c : VecCall) (f : File) (r : Results) (g : Garbage) : Completion where
  file := c.put bs (c.base bs f g) (c.filled bs f r g)
  rc := 0
  iovs := c.iovs

theorem start_eq : c.offset &&& (bs.ioUnitSize - 1) = c.offset % bs.ioUnitSize :=
  Nat.and_two_pow_sub_one_eq_mod _ _

theorem base_units (h : c.Succeeds bs f r) :
    (c.base bs f g).blob.HasUnits bs (c.startLba bs) (c.numLba bs) := by
  have hunits := h.units
  unfold base
  split
  · rename_i hext
    rwa [if_pos hext] at hunits
  · rename_i hext
    rwa [if_neg hext] at hunits

/-- The write of the buffer, of a call that succeeds. -/
theorem ioWrite_succeeds (h : c.Succeeds bs f r) (buf : Nat → UInt8) :
    c.ioWrite bs (c.base bs f g) buf (r.outcomes g) =
      some ⟨c.put bs (c.base bs f g) buf, 0, c.iovs⟩ := by
  have hwrite : ¬ (r.outcomes g).write.bserrno ≠ 0 := not_not.mpr h.write
  rw [ioWrite, if_neg hwrite, if_pos (base_units h)]

/-- The read of the units, then their write. -/
theorem doBlobRead_succeeds (hwrite : c.isRead = false) (h : c.Succeeds bs f r)
    (hfirst : c.ReadsFirst bs f) :
    c.doBlobRead bs (c.base bs f g) g.pinBuf 0 (r.outcomes g) = some (c.written bs f r g) := by
  have hdone : ∀ buf, c.readDone bs (c.base bs f g) buf (r.outcomes g) = some
      ⟨c.put bs (c.base bs f g) (copyVecToBuf c.iovs buf (c.offset % bs.ioUnitSize)
        (c.pinBufLength bs)), 0, c.iovs⟩ := by
    intro buf
    unfold readDone
    rw [start_eq]
    simp only [hwrite, Bool.false_eq_true, if_false]
    exact ioWrite_succeeds h _
  unfold written filled found
  rw [doBlobRead, if_neg (not_not.mpr rfl), if_pos hfirst]
  by_cases hread : r.read = 0
  · have hzero : ¬ (r.outcomes g).read.bserrno ≠ 0 := not_not.mpr hread
    rw [if_neg hzero, if_pos (base_units h), hdone, if_neg (not_not.mpr hread)]
  · have hfailed : (r.outcomes g).read.bserrno ≠ 0 := hread
    rw [if_pos hfailed, hdone, if_pos hread]
    rfl

/-- A write that succeeds ends so. -/
theorem run_succeeds (hwrite : c.isRead = false) (hend : c.offset + c.length < 2 ^ 64)
    (h : c.Succeeds bs f r) : c.run bs f r g = some (c.written bs f r g) := by
  have hmalloc : (r.memory g).malloc (c.pinBufLength bs) = some g.pinBuf := by
    unfold Memory.malloc Results.memory
    rw [if_neg h.pinBuf.2, if_pos h.pinBuf.1]
  unfold run readvwritev
  rw [if_neg (by simp [hwrite]), if_neg (by simp [Results.memory, h.request]), hmalloc]
  dsimp only
  by_cases hext : c.Extends f
  · have hlast : f.length < c.last := (last_eq hend).symm ▸ hext.2
    obtain ⟨htruncate, hresize, hsync⟩ := h.grown hext
    have hbase : c.base bs f g = c.truncated bs f g.resize := if_pos hext
    have hzero : ¬ (r.outcomes g).resize.bserrno ≠ 0 := not_not.mpr hresize
    rw [if_pos (by simp [hwrite, hlast]), truncate, if_neg (Nat.ne_of_gt hlast),
      if_neg (by simp [Results.memory, htruncate]), if_neg hzero]
    change c.doBlobRead bs (c.truncated bs f g.resize) g.pinBuf r.syncMd (r.outcomes g) = _
    rw [hsync, ← hbase]
    exact doBlobRead_succeeds hwrite h (Or.inl hext)
  · have hlast : ¬ f.length < c.last := fun hlt => hext ⟨hwrite, (last_eq hend) ▸ hlt⟩
    have hbase : c.base bs f g = f := if_neg hext
    rw [if_neg fun h => hlast h.2]
    by_cases haligned : isLbaAligned bs c.offset c.length = true
    · have hfirst : ¬ c.ReadsFirst bs f := by simp [ReadsFirst, hext, haligned]
      have hzero : c.offset % bs.ioUnitSize = 0 := (of_decide_eq_true haligned).1
      have hdone := ioWrite_succeeds (g := g) h (c.filled bs f r g)
      rw [if_pos (by simp [hwrite, haligned])]
      rw [hbase] at hdone
      unfold written
      rw [hbase]
      unfold filled found at hdone ⊢
      rw [if_neg hfirst, hzero] at hdone ⊢
      exact hdone
    · have hfirst : c.ReadsFirst bs f := Or.inr (Bool.eq_false_of_not_eq_true haligned)
      rw [if_neg (by simp [haligned])]
      have hdone := doBlobRead_succeeds (g := g) hwrite h hfirst
      rwa [hbase] at hdone

theorem ioWrite_zero {f' : File} {buf : Nat → UInt8} {o : Outcomes} {d : Completion}
    (hrun : c.ioWrite bs f' buf o = some d) (hzero : d.rc = 0) :
    o.write.bserrno = 0 ∧ f'.blob.HasUnits bs (c.startLba bs) (c.numLba bs) := by
  unfold ioWrite at hrun
  split at hrun
  · rename_i hfailed
    obtain rfl := Option.some.inj hrun
    exact absurd hzero hfailed
  · rename_i hok
    split at hrun
    · exact ⟨not_not.mp hok, ‹_›⟩
    · cases hrun

theorem doBlobRead_zero {f' : File} {buf : Nat → UInt8} {fserrno : Int} {o : Outcomes}
    {d : Completion} (hwrite : c.isRead = false) (hrun : c.doBlobRead bs f' buf fserrno o = some d)
    (hzero : d.rc = 0) : fserrno = 0 ∧ o.write.bserrno = 0 ∧
      f'.blob.HasUnits bs (c.startLba bs) (c.numLba bs) := by
  have hdone : ∀ buf, c.readDone bs f' buf o = some d → o.write.bserrno = 0 ∧
      f'.blob.HasUnits bs (c.startLba bs) (c.numLba bs) := by
    intro buf hdone
    unfold readDone at hdone
    simp only [hwrite, Bool.false_eq_true, if_false] at hdone
    exact ioWrite_zero hdone hzero
  unfold doBlobRead at hrun
  split at hrun
  · rename_i hfailed
    obtain rfl := Option.some.inj hrun
    exact absurd hzero hfailed
  rename_i hok
  refine ⟨not_not.mp hok, ?_⟩
  split at hrun
  · exact hdone _ hrun
  split at hrun
  · exact hdone _ hrun
  · cases hrun

/-- Only a write that succeeds calls back with 0. -/
theorem succeeds_of_zero {d : Completion} (hwrite : c.isRead = false)
    (hend : c.offset + c.length < 2 ^ 64) (hrun : c.run bs f r g = some d) (hzero : d.rc = 0) :
    c.Succeeds bs f r := by
  unfold run readvwritev at hrun
  rw [if_neg (by simp [hwrite])] at hrun
  split at hrun
  · obtain rfl := Option.some.inj hrun
    cases hzero
  rename_i hrequest
  split at hrun
  · obtain rfl := Option.some.inj hrun
    cases hzero
  rename_i pinBuf hmalloc
  have hrequested : r.request = true := Bool.eq_true_of_not_eq_false hrequest
  have hbuffer : r.pinBuf = true ∧ c.pinBufLength bs ≠ 0 := by
    unfold Memory.malloc at hmalloc
    split at hmalloc
    · cases hmalloc
    · rename_i hsome
      refine ⟨Bool.eq_true_of_not_eq_false fun hnone => ?_, hsome⟩
      simp [Results.memory, hnone] at hmalloc
  by_cases hext : c.Extends f
  · have hlast : f.length < c.last := (last_eq hend).symm ▸ hext.2
    rw [if_pos (by simp [hwrite, hlast]), truncate, if_neg (Nat.ne_of_gt hlast)] at hrun
    split at hrun
    · exact absurd (doBlobRead_zero hwrite hrun hzero).1 (by decide)
    rename_i htruncate
    split at hrun
    · rename_i hfailed
      exact absurd (doBlobRead_zero hwrite hrun hzero).1 hfailed
    rename_i hresize
    obtain ⟨hsync, hdone, hunits⟩ := doBlobRead_zero hwrite hrun hzero
    exact ⟨hrequested, hbuffer, fun _ => ⟨Bool.eq_true_of_not_eq_false htruncate,
      not_not.mp hresize, hsync⟩, hdone, (if_pos hext).symm ▸ hunits⟩
  · have hlast : ¬ f.length < c.last := fun hlt => hext ⟨hwrite, (last_eq hend) ▸ hlt⟩
    have hended : r.write = 0 ∧ f.blob.HasUnits bs (c.startLba bs) (c.numLba bs) := by
      rw [if_neg fun h => hlast h.2] at hrun
      split at hrun
      · exact ioWrite_zero hrun hzero
      · exact (doBlobRead_zero hwrite hrun hzero).2
    exact ⟨hrequested, hbuffer, fun h => absurd h hext, hended.1, (if_neg hext).symm ▸ hended.2⟩

/-! ### The bytes -/

/-- The units get what the buffer had, but for the bytes of the iovs. -/
theorem put_bytes (hpos : 0 < c.length) (hsum : c.iovs.flatten.length = c.length)
    (hend : c.offset + c.length < 2 ^ 64) {f' : File} {buf : Nat → UInt8}
    (hsome : c.pinBufLength bs ≠ 0) :
    (c.put bs f' (copyVecToBuf c.iovs buf (c.offset % bs.ioUnitSize)
      (c.pinBufLength bs))).blob.bytes p =
        if c.Covers p then c.iovs.flatten.getD (p - c.offset) 0
        else if c.InUnits bs p then buf (p - c.startLba bs * bs.ioUnitSize)
        else f'.blob.bytes p := by
  have hroom := @room bs c hpos hend
  have hlength := pinBufLength_eq hpos hend hsome
  have hmin : min c.iovs.flatten.length (c.pinBufLength bs) = c.length := by omega
  have hsplit := Nat.div_add_mod c.offset bs.ioUnitSize
  have hstart : c.startLba bs * bs.ioUnitSize = bs.ioUnitSize * (c.offset / bs.ioUnitSize) :=
    Nat.mul_comm ..
  have hbytes : (c.put bs f' (copyVecToBuf c.iovs buf (c.offset % bs.ioUnitSize)
      (c.pinBufLength bs))).blob.bytes = splice f'.blob.bytes (c.startLba bs * bs.ioUnitSize)
        (c.numLba bs * bs.ioUnitSize) (splice buf (c.offset % bs.ioUnitSize) c.length
          fun k => c.iovs.flatten.getD k 0) := by
    unfold put Blob.ioWrite
    rw [copyVecToBuf_flatten, copyIovsToBuf, hmin]
  rw [hbytes]
  by_cases hin : c.InUnits bs p
  · rw [splice_inside hin]
    have hle : c.startLba bs * bs.ioUnitSize ≤ p := hin.1
    by_cases hp : c.Covers p
    · have hoffset : c.offset ≤ p ∧ p < c.offset + c.length := hp
      rw [splice_inside (by omega), if_pos hp]
      congr 1
      omega
    · have hoffset : ¬ (c.offset ≤ p ∧ p < c.offset + c.length) := hp
      rw [splice_outside (by omega), if_neg hp, if_pos hin]
  · rw [splice_outside hin, if_neg (mt (covers_inUnits hpos hend) hin), if_neg hin]

/-- After a read of the blob the buffer has its bytes. -/
theorem ioRead_bytes {b : Blob} {buf : Nat → UInt8} (hin : c.InUnits bs p) :
    b.ioRead bs buf (c.startLba bs) (c.numLba bs) (p - c.startLba bs * bs.ioUnitSize) =
      b.bytes p := by
  obtain ⟨hle, hlt⟩ := hin
  unfold Blob.ioRead
  rw [splice_inside (by omega)]
  congr 1
  omega

/-- A truncate that does not make the blob smaller keeps its bytes. -/
theorem base_keeps (hgrows : c.Extends f → f.blob.numClusters ≤ bytesToClusters c.last bs.clusterSz)
    (hp : f.blob.Has bs p) : (c.base bs f g).blob.Has bs p ∧
      (c.base bs f g).blob.bytes p = f.blob.bytes p := by
  unfold base
  split
  · rename_i hext
    have hle := Nat.mul_le_mul_right bs.clusterSz (hgrows hext)
    refine ⟨Nat.lt_of_lt_of_le hp hle, if_pos ?_⟩
    rw [Nat.min_eq_left (hgrows hext)]
    exact hp
  · exact ⟨hp, rfl⟩

theorem base_length (hend : c.offset + c.length < 2 ^ 64) (hwrite : c.isRead = false) :
    (c.base bs f g).length = max f.length (c.offset + c.length) := by
  unfold base
  split
  · rename_i hext
    exact (last_eq hend).trans (Nat.max_eq_right (Nat.le_of_lt hext.2)).symm
  · rename_i hext
    exact (Nat.max_eq_left (Nat.not_lt.mp fun hlt => hext ⟨hwrite, hlt⟩)).symm

/-- A write that can be trusted is byte-exact. -/
theorem written_exact (hpos : 0 < c.length) (hsum : c.iovs.flatten.length = c.length)
    (hend : c.offset + c.length < 2 ^ 64) (hwrite : c.isRead = false) (h : c.Succeeds bs f r)
    (hgrows : c.Extends f → f.blob.numClusters ≤ bytesToClusters c.last bs.clusterSz)
    (hread : c.ReadsFirst bs f → r.read = 0 ∨ ∀ p, f.blob.Has bs p → c.InUnits bs p → c.Covers p) :
    c.Written bs f (c.written bs f r g) where
  payload := by
    intro k hk
    have hcovers : c.Covers (c.offset + k) := ⟨Nat.le_add_right _ _, Nat.add_lt_add_left hk _⟩
    have hin := @covers_inUnits bs c _ hpos hend hcovers
    constructor
    · have hunits : (c.startLba bs + c.numLba bs) * bs.ioUnitSize ≤
          (c.base bs f g).blob.numClusters * bs.clusterSz := base_units h
      rw [Nat.add_mul] at hunits
      exact hin.2.trans_le hunits
    · refine (put_bytes hpos hsum hend h.pinBuf.2).trans ?_
      rw [if_pos hcovers, Nat.add_sub_cancel_left]
  others := by
    intro p hp hnot
    obtain ⟨hhas, hsame⟩ := base_keeps (g := g) hgrows hp
    refine ⟨hhas, (put_bytes hpos hsum hend h.pinBuf.2).trans ?_⟩
    rw [if_neg hnot]
    by_cases hin : c.InUnits bs p
    · have hfirst : c.ReadsFirst bs f := by
        refine Or.inr (Bool.eq_false_of_not_eq_true fun haligned => hnot ?_)
        exact covers_of_aligned haligned hpos hend hin
      have hzero : r.read = 0 := (hread hfirst).resolve_right fun hall => hnot (hall p hp hin)
      rw [if_pos hin, found, if_pos hfirst, if_neg (not_not.mpr hzero), ioRead_bytes hin, hsame]
    · rw [if_neg hin, hsame]
  length := base_length hend hwrite

/-- A write whose read failed leaves what the failed read left, and one that makes the blob smaller
loses bytes. -/
theorem trusted_of_exact (hpos : 0 < c.length) (hsum : c.iovs.flatten.length = c.length)
    (hend : c.offset + c.length < 2 ^ 64) (h : c.Succeeds bs f r)
    (hexact : ∀ g, c.Written bs f (c.written bs f r g)) :
    (c.Extends f → f.blob.numClusters ≤ bytesToClusters c.last bs.clusterSz) ∧
      (c.ReadsFirst bs f → r.read = 0 ∨
        ∀ p, f.blob.Has bs p → c.InUnits bs p → c.Covers p) := by
  constructor
  · intro hext
    by_contra hsmaller
    have hunits := h.units
    rw [if_pos hext, Nat.add_mul, units_end hpos hend] at hunits
    have hlast := (block_bounds bs.ioUnitSize_pos (by omega : c.offset ≤ c.offset + c.length - 1)
      (by omega : _ < c.offset + c.length)).2
    have hlost := ((hexact ⟨fun _ => 0, fun _ => 0, fun _ => 0, fun _ => 0⟩).others
      (bytesToClusters c.last bs.clusterSz * bs.clusterSz)
      (Nat.mul_lt_mul_of_pos_right (Nat.not_le.mp hsmaller) bs.clusterSz_pos) fun hp => by
        have := hp.2
        omega).1
    have hbase : (c.base bs f ⟨fun _ => 0, fun _ => 0, fun _ => 0, fun _ => 0⟩).blob.numClusters =
        bytesToClusters c.last bs.clusterSz := by
      rw [base, if_pos hext]
      rfl
    have hlt : bytesToClusters c.last bs.clusterSz * bs.clusterSz <
        (c.base bs f ⟨fun _ => 0, fun _ => 0, fun _ => 0, fun _ => 0⟩).blob.numClusters *
          bs.clusterSz := hlost
    rw [hbase] at hlt
    exact Nat.lt_irrefl _ hlt
  · intro hfirst
    by_contra hbroken
    obtain ⟨hfailed, hothers⟩ := not_or.mp hbroken
    refine hothers fun p hp hin => ?_
    by_contra hnot
    -- what the failed read left differs from the byte of the blob
    have hsame := ((hexact ⟨fun _ => 0, fun _ => 0,
      fun _ => if f.blob.bytes p = 0 then 1 else 0, fun _ => 0⟩).others p hp hnot).2
    have hbyte := hsame.symm.trans (put_bytes hpos hsum hend h.pinBuf.2)
    rw [if_neg hnot, if_pos hin, found, if_pos hfirst, if_pos hfailed] at hbyte
    by_cases hzero : f.blob.bytes p = 0
    · rw [if_pos hzero, hzero] at hbyte
      exact absurd (show (0 : UInt8) = 1 from hbyte) (by decide)
    · rw [if_neg hzero] at hbyte
      exact hzero hbyte

/-! ### Reads -/

/-- A read without its allocations fails. -/
theorem run_refused (hlast : ¬ f.length < c.last)
    (hrefused : ¬ (r.request = true ∧ r.pinBuf = true ∧ c.pinBufLength bs ≠ 0)) :
    c.run bs f r g = some ⟨f, -ENOMEM, c.iovs⟩ := by
  unfold run readvwritev
  rw [if_neg fun h => hlast h.2]
  by_cases hrequest : r.request = true
  · have hnone : (r.memory g).malloc (c.pinBufLength bs) = none := by
      unfold Memory.malloc Results.memory
      split
      · rfl
      · rename_i hsome
        exact if_neg fun hbuffer => hrefused ⟨hrequest, hbuffer, hsome⟩
    rw [if_neg (by simp [Results.memory, hrequest]), hnone]
  · exact if_pos (Bool.eq_false_of_not_eq_true hrequest)

/-- A read with its allocations copies what its read of the blob left. -/
theorem run_granted (hread : c.isRead = true) (hlast : ¬ f.length < c.last)
    (hrequest : r.request = true) (hbuffer : r.pinBuf = true ∧ c.pinBufLength bs ≠ 0) :
    c.run bs f r g =
      if r.read ≠ 0 then some
        ⟨f, 0, copyBufToVec g.read c.iovs (c.offset % bs.ioUnitSize) (c.pinBufLength bs)⟩
      else if f.blob.HasUnits bs (c.startLba bs) (c.numLba bs) then some
        ⟨f, 0, copyBufToVec (f.blob.ioRead bs g.pinBuf (c.startLba bs) (c.numLba bs)) c.iovs
          (c.offset % bs.ioUnitSize) (c.pinBufLength bs)⟩
      else none := by
  have hmalloc : (r.memory g).malloc (c.pinBufLength bs) = some g.pinBuf := by
    unfold Memory.malloc Results.memory
    rw [if_neg hbuffer.2, if_pos hbuffer.1]
  unfold run readvwritev
  rw [if_neg fun h => hlast h.2, if_neg (by simp [Results.memory, hrequest]), hmalloc]
  dsimp only
  rw [if_neg (by simp [hread]), if_neg (by simp [hread])]
  unfold doBlobRead readDone
  simp only [hread, if_true, start_eq, ne_eq, not_true_eq_false, if_false]
  rfl

/-- What is copied to the iovs. -/
theorem copied_iovs (hpos : 0 < c.length) (hsum : c.iovs.flatten.length = c.length)
    (hend : c.offset + c.length < 2 ^ 64) (hsome : c.pinBufLength bs ≠ 0) (buf : Nat → UInt8) :
    (copyBufToVec buf c.iovs (c.offset % bs.ioUnitSize) (c.pinBufLength bs)).flatten =
      (List.range c.length).map fun k => buf (c.offset % bs.ioUnitSize + k) := by
  have hroom := @room bs c hpos hend
  have hlength := pinBufLength_eq hpos hend hsome
  rw [copyBufToVec_flatten]
  refine List.ext_getElem (by simp [copyBufToIovs, hsum]) fun k hk hk' => ?_
  have hlt : k < c.length := by simpa using hk'
  simp only [copyBufToIovs, List.getElem_mapIdx, List.getElem_map, List.getElem_range]
  exact if_pos (by omega)

/-- A read that can be trusted is byte-exact. -/
theorem readBack_of_trusted (hpos : 0 < c.length) (hsum : c.iovs.flatten.length = c.length)
    (hend : c.offset + c.length < 2 ^ 64) (hsome : c.pinBufLength bs ≠ 0) (buf : Nat → UInt8) :
    c.ReadBack f ⟨f, 0, copyBufToVec (f.blob.ioRead bs buf (c.startLba bs) (c.numLba bs)) c.iovs
      (c.offset % bs.ioUnitSize) (c.pinBufLength bs)⟩ where
  rc := rfl
  lengths := copyBufToVec_lengths _ _ _
  bytes := by
    refine (copied_iovs hpos hsum hend hsome _).trans (List.map_congr_left fun k hk => ?_)
    have hk := List.mem_range.mp hk
    have hin := @covers_inUnits bs c (c.offset + k) hpos hend
      ⟨Nat.le_add_right _ _, Nat.add_lt_add_left hk _⟩
    have hsplit := Nat.div_add_mod c.offset bs.ioUnitSize
    have hstart : c.startLba bs * bs.ioUnitSize = bs.ioUnitSize * (c.offset / bs.ioUnitSize) :=
      Nat.mul_comm ..
    have hplace : c.offset % bs.ioUnitSize + k = c.offset + k - c.startLba bs * bs.ioUnitSize := by
      omega
    rw [hplace, ioRead_bytes hin]

/-- A vectored call is byte-exact, whatever is found where nothing is promised, exactly when its
read of the blob can be trusted. -/
theorem exact_iff_trusted (hpos : 0 < c.length) (hsum : c.iovs.flatten.length = c.length)
    (hend : c.offset + c.length < 2 ^ 64) :
    (∀ g d, c.run bs f r g = some d → c.Exact bs f d) ↔ c.Trusted bs f r := by
  unfold Exact Trusted
  cases hread : c.isRead with
  | false =>
      simp only [Bool.false_eq_true, if_false]
      constructor
      · intro hexact h
        exact trusted_of_exact hpos hsum hend h fun g => hexact g _ (run_succeeds hread hend h) rfl
      · intro htrusted g d hrun hzero
        have h := succeeds_of_zero hread hend hrun hzero
        obtain rfl := Option.some.inj ((run_succeeds hread hend h).symm.trans hrun)
        exact written_exact hpos hsum hend hread h (htrusted h).1 (htrusted h).2
  | true =>
      simp only [if_true]
      by_cases hlast : f.length < c.offset + c.length
      · refine iff_of_true (fun g d hrun => ?_) (Or.inl hlast)
        have hrefused : c.isRead = true ∧ f.length < c.last := ⟨hread, (last_eq hend).symm ▸ hlast⟩
        unfold run readvwritev at hrun
        rw [if_pos hrefused] at hrun
        obtain rfl := Option.some.inj hrun
        rw [if_pos hlast]
      have hbelow : ¬ f.length < c.last := (last_eq hend).symm ▸ hlast
      simp only [hlast, if_false, false_or]
      by_cases hgranted : r.request = true ∧ r.pinBuf = true ∧ c.pinBufLength bs ≠ 0
      · obtain ⟨hrequest, hbuffer⟩ := hgranted
        have hrun := fun g => run_granted (g := g) hread hbelow hrequest hbuffer
        constructor
        · intro hexact
          refine ⟨hrequest, hbuffer, ?_⟩
          by_contra hfailed
          -- what the failed read left differs from the first byte
          let g : Garbage := ⟨fun _ => 0, fun _ => 0,
            fun _ => if f.blob.bytes c.offset = 0 then 1 else 0, fun _ => 0⟩
          have hback := hexact g _ ((hrun g).trans (if_pos hfailed))
          have hbytes := (copied_iovs hpos hsum hend hbuffer.2 g.read).symm.trans hback.bytes
          have hfirst := List.map_inj_left.mp hbytes 0 (List.mem_range.mpr hpos)
          by_cases hzero : f.blob.bytes c.offset = 0
          · rw [show g.read _ = 1 from if_pos hzero, Nat.add_zero, hzero] at hfirst
            exact absurd hfirst (by decide)
          · rw [show g.read _ = 0 from if_neg hzero, Nat.add_zero] at hfirst
            exact hzero hfirst.symm
        · rintro ⟨-, -, hzero⟩ g d hrunning
          rw [hrun g, if_neg (not_not.mpr hzero)] at hrunning
          split at hrunning
          · obtain rfl := Option.some.inj hrunning
            exact readBack_of_trusted hpos hsum hend hbuffer.2 _
          · cases hrunning
      · refine iff_of_false (fun hexact => ?_) fun h => hgranted ⟨h.1, h.2.1⟩
        have hrc := (hexact ⟨fun _ => 0, fun _ => 0, fun _ => 0, fun _ => 0⟩ _
          (run_refused hbelow hgranted)).rc
        exact absurd (show (-ENOMEM : Int) = 0 from hrc) (by decide)

end VecCall

/-- Three bytes at 3, in two iovs. -/
def vecWrite : VecCall := ⟨false, 3, 3, [[1, 2], [3]]⟩

/-- Everything succeeds, but for the read, which ends with `bserrno`. -/
def readEnds (bserrno : Int) : Results := ⟨true, true, true, 0, 0, bserrno, 0⟩

/-- Ones are found where nothing is promised. -/
def ones : Garbage := ⟨fun _ => 1, fun _ => 1, fun _ => 1, fun _ => 1⟩

/-- The write reads its two io units, and succeeds. -/
theorem exact_iff_trusted_vecWrite : ∃ d,
    vecWrite.run smallBs smallFile.file (readEnds 0) ones = some d ∧ d.rc = 0 ∧
      vecWrite.Exact smallBs smallFile.file d := by
  refine ⟨_, rfl, rfl, ?_⟩
  refine (VecCall.exact_iff_trusted (r := readEnds 0) (by decide) (by decide)
    (by decide)).mpr ?_ ones _ rfl
  exact fun _ => ⟨fun _ => by decide, fun _ => Or.inl rfl⟩

/-- The read of the two io units fails, and the write calls back with 0. -/
theorem exact_readFails : ¬ ∀ (bs : Blobstore) (c : VecCall) (f : File) (r : Results) (g : Garbage)
    (d : Completion), 0 < c.length → c.iovs.flatten.length = c.length →
      c.offset + c.length < 2 ^ 64 → c.run bs f r g = some d → c.Exact bs f d := by
  intro hall
  have hexact := hall smallBs vecWrite smallFile.file (readEnds (-5)) ones _ (by decide) (by decide)
    (by decide) rfl
  have hwritten : vecWrite.Written smallBs smallFile.file _ := hexact rfl
  exact absurd (hwritten.others 0 (by decide) (by decide)).2 (by decide)

end Nbfs.Async
