import Nbfs.Async.Bounds

set_option autoImplicit false

/-!
# Writes that are in flight at the same time

A write that is not a whole number of io units reads the units, puts its bytes in
and writes the units back; a write past the end sets the length to its own end.
Neither looks at what the other writes did in between.
-/

namespace Nbfs.Async

open Nbfs.Lib

variable {ι : Type} {bs : Blobstore} {calls : ι → Call}

/-- The byte is one that the call writes. -/
def Call.Covers (c : Call) (p : Nat) : Prop := c.offset ≤ p ∧ p < c.offset + c.iov.length

instance (c : Call) (p : Nat) : Decidable (c.Covers p) := inferInstanceAs (Decidable (_ ∧ _))

/-- The byte is in the io units of the request. -/
def Rw.InUnits (bs : Blobstore) (rw : Rw) (p : Nat) : Prop :=
  rw.startLba * bs.ioUnitSize ≤ p ∧ p < rw.startLba * bs.ioUnitSize + rw.numLba * bs.ioUnitSize

theorem Rw.inUnits_pinBuf {rw : Rw} {pinBuf : Nat → UInt8} {p : Nat} :
    { rw with pinBuf }.InUnits bs p ↔ rw.InUnits bs p := Iff.rfl

/-- The call writes to the io units of the request. -/
def Touches (bs : Blobstore) (c : Call) (rw : Rw) : Prop := ∃ p, c.Covers p ∧ rw.InUnits bs p

/-- The payload is on the blob, and the file reaches to its end. -/
def File.Holds (bs : Blobstore) (file : File) (c : Call) : Prop :=
  (∀ p, c.Covers p → p < file.blob.numClusters * bs.clusterSz ∧
    c.iov[p - c.offset]? = some (file.blob.bytes p)) ∧ c.offset + c.iov.length ≤ file.length

/-- The range of the call ends a cluster before 2^64. -/
def Call.Fits (bs : Blobstore) (c : Call) : Prop :=
  c.offset + c.iov.length + bs.clusterSz ≤ 2 ^ 64

instance (bs : Blobstore) (c : Call) : Decidable (c.Fits bs) := inferInstanceAs (Decidable (_ ≤ _))

/-- A truncate completes only while the file is no longer than it makes it.  A write
completes only while no other request holds io units that it wrote to, read before that.
A read of a write fails only while nothing was written to its io units. -/
def Undisturbed (bs : Blobstore) (calls : ι → Call) (s : State ι) : Event ι → Prop
  | .submit i _ => (calls i).isRead = false → (calls i).Fits bs
  | .complete i answer =>
      match s.stage i with
      | .resize length _ => answer.bserrno = 0 → s.file.length ≤ length
      | .read rw => answer.bserrno ≠ 0 → ∀ j iov, s.stage j = .done 0 iov →
          (calls j).isRead = false → ¬ Touches bs (calls j) rw
      | .write _ => answer.bserrno = 0 → ∀ j rw, j ≠ i → s.stage j = .write rw →
          ¬ Touches bs (calls i) rw
      | _ => True

/-- No two writes have a byte in common. -/
def DisjointWrites (calls : ι → Call) : Prop :=
  ∀ i j, i ≠ j → (calls i).isRead = false → (calls j).isRead = false →
    ∀ p, (calls i).Covers p → ¬ (calls j).Covers p

/-! ### The io units of a request -/

theorem Blobstore.ioUnitSize_le (bs : Blobstore) : bs.ioUnitSize ≤ bs.clusterSz :=
  Nat.le_of_dvd bs.clusterSz_pos bs.ioUnit_dvd

theorem bytesToClusters_bound {length : Nat} (h : length + bs.clusterSz ≤ 2 ^ 64) :
    length ≤ bytesToClusters length bs.clusterSz * bs.clusterSz := by
  have hpos := bs.clusterSz_pos
  have hmod : (length + bs.clusterSz + 2 ^ 64 - 1) % 2 ^ 64 = length + bs.clusterSz - 1 := by
    omega
  have hlt := Nat.lt_mul_of_div_lt
    (Nat.lt_succ_self ((length + bs.clusterSz - 1) / bs.clusterSz)) hpos
  unfold bytesToClusters
  rw [hmod]
  rw [Nat.succ_mul] at hlt
  omega

namespace Call

variable {c : Call} {pinBuf : Nat → UInt8} {p : Nat}

/-- Without wrapping, a request has the units from that of its first byte to that of its
last. -/
theorem units_eq (hpos : 0 < c.iov.length) (hfits : c.Fits bs) :
    (rwOf bs c pinBuf).startLba * bs.ioUnitSize +
      (rwOf bs c pinBuf).numLba * bs.ioUnitSize =
        ((c.offset + c.iov.length - 1) / bs.ioUnitSize + 1) * bs.ioUnitSize := by
  have hcluster := bs.clusterSz_pos
  unfold Fits at hfits
  have hmod : (c.offset + c.iov.length + 2 ^ 64 - 1) % 2 ^ 64 = c.offset + c.iov.length - 1 := by
    omega
  have hle : c.offset / bs.ioUnitSize ≤ (c.offset + c.iov.length - 1) / bs.ioUnitSize :=
    Nat.div_le_div_right (by omega)
  have hlast : (c.offset + c.iov.length - 1) / bs.ioUnitSize ≤ c.offset + c.iov.length - 1 :=
    Nat.div_le_self _ _
  have hcount : (rwOf bs c pinBuf).startLba + (rwOf bs c pinBuf).numLba =
      (c.offset + c.iov.length - 1) / bs.ioUnitSize + 1 := by
    simp only [rwOf, getPageParameters, hmod]
    generalize (c.offset + c.iov.length - 1) / bs.ioUnitSize = last at hle hlast ⊢
    generalize c.offset / bs.ioUnitSize = first at hle ⊢
    omega
  rw [← Nat.add_mul, hcount]

theorem startLba_eq : (rwOf bs c pinBuf).startLba = c.offset / bs.ioUnitSize := rfl

theorem inUnits (hfits : c.Fits bs) (hp : c.Covers p) : (rwOf bs c pinBuf).InUnits bs p := by
  have hbounds := block_bounds bs.ioUnitSize_pos hp.1 hp.2
  refine ⟨hbounds.1, ?_⟩
  rw [units_eq (by have := hp.1; have := hp.2; omega) hfits]
  exact hbounds.2

/-- The buffer takes the whole payload. -/
theorem length_le (hfits : c.Fits bs) : c.iov.length ≤ (rwOf bs c pinBuf).length := by
  rcases Nat.eq_zero_or_pos c.iov.length with hzero | hpos
  · omega
  have hunits : (rwOf bs c pinBuf).startLba * bs.ioUnitSize + _ = _ := units_eq hpos hfits
  have hfirst := Nat.div_mul_le_self c.offset bs.ioUnitSize
  have hlast := Nat.div_mul_le_self (c.offset + c.iov.length - 1) bs.ioUnitSize
  have hlt : c.offset + c.iov.length - 1 < c.offset + c.iov.length := by omega
  have hend := (block_bounds bs.ioUnitSize_pos (by omega : c.offset ≤ _) hlt).2
  have hle := bs.ioUnitSize_le
  rw [startLba_eq, Nat.succ_mul] at hunits
  rw [Nat.succ_mul] at hend
  unfold Fits at hfits
  change _ ≤ (rwOf bs c pinBuf).numLba * bs.ioUnitSize % 2 ^ 64
  rw [Nat.mod_eq_of_lt (by omega)]
  omega

/-- A whole number of io units. -/
theorem covers_of_aligned (haligned : isLbaAligned bs c.offset c.iov.length = true)
    (hpos : 0 < c.iov.length) (hfits : c.Fits bs) (hp : (rwOf bs c pinBuf).InUnits bs p) :
    c.Covers p ∧ (rwOf bs c pinBuf).startLba * bs.ioUnitSize = c.offset := by
  obtain ⟨hoffset, hlength⟩ := of_decide_eq_true haligned
  obtain ⟨first, hfirst⟩ := Nat.dvd_of_mod_eq_zero hoffset
  obtain ⟨count, hcount⟩ := Nat.dvd_of_mod_eq_zero hlength
  have hunit := bs.ioUnitSize_pos
  have hstart : (rwOf bs c pinBuf).startLba * bs.ioUnitSize = c.offset := by
    rw [startLba_eq, Nat.div_mul_cancel (Nat.dvd_of_mod_eq_zero hoffset)]
  have hlast : ((c.offset + c.iov.length - 1) / bs.ioUnitSize + 1) * bs.ioUnitSize =
      c.offset + c.iov.length := by
    have hsum : c.offset + c.iov.length = bs.ioUnitSize * (first + count) := by
      rw [hfirst, hcount, Nat.mul_add]
    have hsome : 0 < first + count :=
      Nat.add_pos_right first (Nat.pos_of_mul_pos_left (hcount ▸ hpos))
    rw [hsum, last_block hunit hsome, Nat.mul_comm]
  refine ⟨⟨hstart ▸ hp.1, ?_⟩, hstart⟩
  have hp₂ := hp.2
  rwa [units_eq hpos hfits, hlast] at hp₂

/-- No bytes at the start of an io unit need no buffer. -/
theorem rwLength_empty (haligned : isLbaAligned bs c.offset c.iov.length = true)
    (hfits : c.Fits bs) (hzero : c.iov.length = 0) : rwLength bs c = 0 := by
  obtain ⟨hoffset, -⟩ := of_decide_eq_true haligned
  obtain ⟨first, hfirst⟩ := Nat.dvd_of_mod_eq_zero hoffset
  have hunit := bs.ioUnitSize_pos
  have hle := bs.ioUnitSize_le
  have hcluster := bs.clusterSz_pos
  unfold Fits at hfits
  rw [hzero, Nat.add_zero] at hfits
  unfold rwLength getPageParameters
  rw [hzero, Nat.add_zero]
  dsimp only
  rcases Nat.eq_zero_or_pos c.offset with hstart | hstart
  · have hshift : bs.ioUnitShift ≤ 64 := by
      refine (Nat.pow_le_pow_iff_right (a := 2) (by decide)).mp ?_
      change bs.ioUnitSize ≤ _
      omega
    have hall : bs.ioUnitSize * 2 ^ (64 - bs.ioUnitShift) = 2 ^ 64 := by
      rw [Blobstore.ioUnitSize, ← Nat.pow_add, Nat.add_sub_cancel' hshift]
    have hcount : (2 ^ 64 - 1) / bs.ioUnitSize + 1 = 2 ^ (64 - bs.ioUnitShift) := by
      rw [← hall, last_block hunit (Nat.two_pow_pos _)]
    have hnum : ((2 ^ 64 - 1) / bs.ioUnitSize + 2 ^ 64 - 0 + 1) % 2 ^ 64 =
        2 ^ (64 - bs.ioUnitShift) % 2 ^ 64 := by
      rw [← hcount]
      generalize (2 ^ 64 - 1) / bs.ioUnitSize = last
      omega
    rw [hstart, Nat.zero_div, show (0 + 2 ^ 64 - 1) % 2 ^ 64 = 2 ^ 64 - 1 by decide, hnum,
      Nat.mod_mul_mod, Nat.mul_comm, hall, Nat.mod_self]
  · have hsome : 0 < first := Nat.pos_of_mul_pos_left (hfirst ▸ hstart)
    have hlast := last_block hunit hsome
    have hmod : (c.offset + 2 ^ 64 - 1) % 2 ^ 64 = c.offset - 1 := by omega
    have hdiv : c.offset / bs.ioUnitSize = first := by
      rw [hfirst, Nat.mul_div_cancel_left _ hunit]
    rw [hmod, hdiv, hfirst]
    generalize (bs.ioUnitSize * first - 1) / bs.ioUnitSize = last at hlast ⊢
    have hnum : (last + 2 ^ 64 - first + 1) % 2 ^ 64 = 0 := by omega
    rw [hnum, Nat.zero_mul, Nat.zero_mod]

end Call

/-! ### What is in the buffer -/

section copy

variable {buf : Nat → UInt8} {start bufLen q k : Nat} {iov : List UInt8}

theorem copyIovsToBuf_inside (hlen : iov.length ≤ bufLen) (hk : k < iov.length) :
    iov[k]? = some (copyIovsToBuf buf start bufLen iov (start + k)) := by
  unfold copyIovsToBuf
  rw [splice_inside (by omega), Nat.add_sub_cancel_left, List.getD_eq_getElem?_getD,
    List.getElem?_eq_getElem hk, Option.getD_some]

theorem copyIovsToBuf_outside (h : ¬ (start ≤ q ∧ q < start + iov.length)) :
    copyIovsToBuf buf start bufLen iov q = buf q := splice_outside (by omega)

end copy

/-- After a read the buffer has what is on the blob. -/
theorem ioRead_inUnits {b : Blob} {c : Call} {p : Nat} (buf : Nat → UInt8) {pinBuf : Nat → UInt8}
    (hin : (rwOf bs c pinBuf).InUnits bs p) :
    b.ioRead bs buf (rwOf bs c buf).startLba (rwOf bs c buf).numLba
      (p - c.offset / bs.ioUnitSize * bs.ioUnitSize) = b.bytes p := by
  obtain ⟨hle, hlt⟩ := hin
  simp only [Call.startLba_eq] at hle hlt ⊢
  have hnum : (rwOf bs c pinBuf).numLba = (rwOf bs c buf).numLba := rfl
  rw [hnum] at hlt
  have hback : c.offset / bs.ioUnitSize * bs.ioUnitSize +
      (p - c.offset / bs.ioUnitSize * bs.ioUnitSize - 0) = p := by omega
  exact (splice_inside (by omega)).trans (congrArg b.bytes hback)

/-- The buffer has the payload in its place. -/
def Rw.HasPayload (bs : Blobstore) (rw : Rw) (c : Call) : Prop :=
  ∀ p, c.Covers p → c.iov[p - c.offset]? = some (rw.pinBuf (p - rw.startLba * bs.ioUnitSize))

/-- The request after a read, if it is a write. -/
def Rw.filled (bs : Blobstore) (c : Call) (pinBuf : Nat → UInt8) : Rw :=
  { rwOf bs c pinBuf with
    pinBuf := copyIovsToBuf pinBuf (c.offset % bs.ioUnitSize) (rwLength bs c) c.iov }

theorem readDone_write {c : Call} (hwrite : c.isRead = false) (pinBuf : Nat → UInt8) :
    readDone (rwOf bs c pinBuf) = .write (Rw.filled bs c pinBuf) := by
  have hland : c.offset &&& (bs.ioUnitSize - 1) = c.offset % bs.ioUnitSize :=
    Nat.and_two_pow_sub_one_eq_mod _ _
  simp only [readDone, rwOf, hwrite, hland, Rw.filled]
  rfl

namespace Rw

variable {c : Call} {pinBuf : Nat → UInt8}

theorem filled_hasPayload (hfits : c.Fits bs) : (filled bs c pinBuf).HasPayload bs c := by
  intro p hp
  have hlen : c.iov.length ≤ (rwOf bs c pinBuf).length := Call.length_le hfits
  have hplace : p - (filled bs c pinBuf).startLba * bs.ioUnitSize =
      c.offset % bs.ioUnitSize + (p - c.offset) := sub_block hp.1
  rw [hplace]
  exact copyIovsToBuf_inside hlen (by have := hp.1; have := hp.2; omega)

/-- The rest of the buffer is as it was. -/
theorem filled_outside {p : Nat} (hp : ¬ c.Covers p) (hin : (rwOf bs c pinBuf).InUnits bs p) :
    (filled bs c pinBuf).pinBuf (p - c.offset / bs.ioUnitSize * bs.ioUnitSize) =
      pinBuf (p - c.offset / bs.ioUnitSize * bs.ioUnitSize) := by
  have hsplit := Nat.div_add_mod c.offset bs.ioUnitSize
  rw [Nat.mul_comm] at hsplit
  have hstart : c.offset / bs.ioUnitSize * bs.ioUnitSize ≤ p := hin.1
  refine copyIovsToBuf_outside fun hrange => hp ?_
  unfold Call.Covers
  omega

end Rw

/-! ### The invariant -/

/-- What is known of a call at each stage, until one fails. -/
def Sound (bs : Blobstore) (c : Call) (file : File) : Stage → Prop
  | .idle => True
  | .resize length rw => c.isRead = false ∧ c.Fits bs ∧ (∃ buf, rw = rwOf bs c buf) ∧
      length = c.offset + c.iov.length
  | .syncMd rw => c.isRead = false ∧ c.Fits bs ∧ (∃ buf, rw = rwOf bs c buf) ∧
      c.offset + c.iov.length ≤ file.length
  | .read rw => (∃ buf, rw = rwOf bs c buf) ∧
      (c.isRead = false → c.Fits bs ∧ c.offset + c.iov.length ≤ file.length)
  | .write rw => c.isRead = false ∧ c.Fits bs ∧
    (∃ buf, rw = { rwOf bs c buf with pinBuf := rw.pinBuf }) ∧
      c.offset + c.iov.length ≤ file.length ∧ rw.HasPayload bs c
  | .done rc _ => c.isRead = false → rc = 0 ∧ file.Holds bs c

/-- Every call is sound, and a buffer that is being written has what other writes left in
its io units. -/
structure Kept (bs : Blobstore) (calls : ι → Call) (s : State ι) : Prop where
  sound : ∀ i, Sound bs (calls i) s.file (s.stage i)
  fresh : ∀ i j rw iov, s.stage i = .write rw → s.stage j = .done 0 iov →
    (calls j).isRead = false → ∀ p, (calls j).Covers p → rw.InUnits bs p →
      rw.pinBuf (p - rw.startLba * bs.ioUnitSize) = s.file.blob.bytes p

/-- A write ended with an error. -/
def Failed (calls : ι → Call) (s : State ι) : Prop :=
  ∃ i rc iov, (calls i).isRead = false ∧ s.stage i = .done rc iov ∧ rc ≠ 0

/-- A change of the file that leaves what was written, up to the length of the file. -/
structure Leaves (bs : Blobstore) (calls : ι → Call) (s : State ι) (i : ι) (file : File) :
    Prop where
  length : s.file.length ≤ file.length
  bytes : ∀ j iov, j ≠ i → s.stage j = .done 0 iov → (calls j).isRead = false →
    ∀ p, (calls j).Covers p → p < s.file.blob.numClusters * bs.clusterSz → p < s.file.length →
      p < file.blob.numClusters * bs.clusterSz ∧ file.blob.bytes p = s.file.blob.bytes p

namespace Kept

variable {s s' : State ι} {i : ι} {stage : Stage}

theorem initial (h : ∀ i, s.stage i = .idle) : Kept bs calls s := by
  refine ⟨fun i => ?_, fun i j rw iov hi => nomatch (h i).symm.trans hi⟩
  rw [h i]
  trivial

theorem leaves_self (s : State ι) (i : ι) : Leaves bs calls s i s.file :=
  ⟨Nat.le_refl _, fun _ _ _ _ _ _ _ hin _ => ⟨hin, rfl⟩⟩

theorem sound_leaves {c : Call} {file file' : File} (h : Sound bs c file stage)
    (hlength : file.length ≤ file'.length)
    (hdone : ∀ iov, stage = .done 0 iov → c.isRead = false → file.Holds bs c → file'.Holds bs c) :
    Sound bs c file' stage := by
  cases stage with
  | idle => trivial
  | resize length rw => exact h
  | syncMd rw => exact ⟨h.1, h.2.1, h.2.2.1, h.2.2.2.trans hlength⟩
  | read rw => exact ⟨h.1, fun hw => ⟨(h.2 hw).1, (h.2 hw).2.trans hlength⟩⟩
  | write rw => exact ⟨h.1, h.2.1, h.2.2.1, h.2.2.2.1.trans hlength, h.2.2.2.2⟩
  | done rc iov =>
      intro hw
      obtain ⟨rfl, hholds⟩ := h hw
      exact ⟨rfl, hdone iov rfl hw hholds⟩

variable [DecidableEq ι]

/-- One call goes to its next stage. -/
theorem update (h : Kept bs calls s) {file : File} (hleaves : Leaves bs calls s i file)
    (hsound : Sound bs (calls i) file stage)
    (hwrite : ∀ rw, stage = .write rw → ∀ j iov, s.stage j = .done 0 iov →
      (calls j).isRead = false → ∀ p, (calls j).Covers p → rw.InUnits bs p →
        rw.pinBuf (p - rw.startLba * bs.ioUnitSize) = file.blob.bytes p)
    (hdone : ∀ iov, stage = .done 0 iov → (calls i).isRead = false → ∀ j rw, j ≠ i →
      s.stage j = .write rw → ¬ Touches bs (calls i) rw) :
    Kept bs calls { file, stage := Function.update s.stage i stage } := by
  have hkept : ∀ j iov, j ≠ i → s.stage j = .done 0 iov → (calls j).isRead = false →
      ∀ p, (calls j).Covers p → p < file.blob.numClusters * bs.clusterSz ∧
        file.blob.bytes p = s.file.blob.bytes p := by
    intro j iov hj hstage hw p hp
    have hold := h.sound j
    rw [hstage] at hold
    obtain ⟨-, hbytes, hend⟩ := hold hw
    exact hleaves.bytes j iov hj hstage hw p hp (hbytes p hp).1 (hp.2.trans_le hend)
  constructor
  · intro j
    by_cases hj : j = i
    · subst hj
      dsimp only
      rw [Function.update_self]
      exact hsound
    · dsimp only
      rw [Function.update_of_ne hj]
      refine sound_leaves (h.sound j) hleaves.length fun iov hstage hw hholds => ⟨?_, ?_⟩
      · intro p hp
        obtain ⟨hin, hbyte⟩ := hkept j iov hj hstage hw p hp
        exact ⟨hin, hbyte ▸ (hholds.1 p hp).2⟩
      · exact hholds.2.trans hleaves.length
  · intro j k rw iov hj hk hw p hp hin
    dsimp only at hj hk ⊢
    by_cases hki : k = i
    · subst hki
      rw [Function.update_self] at hk
      have hjk : j ≠ k := by
        rintro rfl
        rw [Function.update_self, hk] at hj
        cases hj
      rw [Function.update_of_ne hjk] at hj
      exact absurd ⟨p, hp, hin⟩ (hdone iov hk hw j rw hjk hj)
    · rw [Function.update_of_ne hki] at hk
      by_cases hji : j = i
      · subst hji
        rw [Function.update_self] at hj
        exact hwrite rw hj k iov hk hw p hp hin
      · rw [Function.update_of_ne hji] at hj
        rw [(hkept k iov hki hk hw p hp).2]
        exact h.fresh j k rw iov hj hk hw p hp hin

/-- A call that ends with an error. -/
theorem failed {file : File} {rc : Int} {iov : List UInt8} (hw : (calls i).isRead = false)
    (hrc : rc ≠ 0) : Failed calls { file, stage := Function.update s.stage i (.done rc iov) } :=
  ⟨i, rc, iov, hw, Function.update_self .., hrc⟩

/-- A read of the cache, or of a blob, that ends. -/
theorem done_read (h : Kept bs calls s) (hr : (calls i).isRead = true) (rc : Int)
    (iov : List UInt8) :
    Kept bs calls { s with stage := Function.update s.stage i (.done rc iov) } := by
  have hno : (calls i).isRead ≠ false := by simp [hr]
  exact h.update (leaves_self s i) (fun hw => absurd hw hno) nofun fun _ _ hw => absurd hw hno

/-- A call that comes to its read. -/
theorem toRead (h : Kept bs calls s) (buf : Nat → UInt8)
    (hfile : (calls i).isRead = false →
      (calls i).Fits bs ∧ (calls i).offset + (calls i).iov.length ≤ s.file.length) :
    Kept bs calls { s with stage := Function.update s.stage i (.read (rwOf bs (calls i) buf)) } :=
  h.update (leaves_self s i) ⟨⟨buf, rfl⟩, hfile⟩ nofun nofun

theorem submit (h : Kept bs calls s) (hdisjoint : DisjointWrites calls) (mem : Memory)
    (hidle : s.stage i = .idle) (hfits : (calls i).isRead = false → (calls i).Fits bs) :
    Failed calls
      { s with stage := Function.update s.stage i (readvwritev bs s.file (calls i) mem) } ∨
    Kept bs calls
      { s with stage := Function.update s.stage i (readvwritev bs s.file (calls i) mem) } := by
  have hnomem : ∀ iov, Failed calls
        { s with stage := Function.update s.stage i (.done (-ENOMEM) iov) } ∨
      Kept bs calls { s with stage := Function.update s.stage i (.done (-ENOMEM) iov) } := by
    intro iov
    cases hr : (calls i).isRead with
    | true => exact Or.inr (h.done_read hr _ _)
    | false => exact Or.inl (failed hr (by decide))
  unfold readvwritev
  split
  · rename_i hshort
    exact Or.inr (h.done_read hshort.1 _ _)
  split
  · exact hnomem _
  split
  · exact hnomem _
  rename_i buf hbuf
  have hsome : rwLength bs (calls i) ≠ 0 := by
    intro hzero
    rw [Memory.malloc, if_pos hzero] at hbuf
    cases hbuf
  have hlast : (calls i).isRead = false →
      (calls i).last = (calls i).offset + (calls i).iov.length := by
    intro hw
    have hfit := hfits hw
    have hcluster := bs.clusterSz_pos
    unfold Call.Fits at hfit
    exact Nat.mod_eq_of_lt (by omega)
  split
  · rename_i hextend
    obtain ⟨hw, hshort⟩ := hextend
    have hw : (calls i).isRead = false := by simpa using hw
    rw [hlast hw] at hshort ⊢
    unfold fileTruncateAsync
    rw [if_neg (Nat.ne_of_gt hshort)]
    split
    · exact Or.inl (failed hw (by decide))
    · exact Or.inr (h.update (leaves_self s i) ⟨hw, hfits hw, ⟨buf, rfl⟩, rfl⟩ nofun nofun)
  rename_i hinside
  have hinside : (calls i).isRead = false →
      (calls i).offset + (calls i).iov.length ≤ s.file.length := by
    intro hw
    rw [hlast hw, hw] at hinside
    simpa using hinside
  split
  · rename_i haligned
    obtain ⟨hw, haligned⟩ := haligned
    have hw : (calls i).isRead = false := by simpa using hw
    have hpos : 0 < (calls i).iov.length := by
      rcases Nat.eq_zero_or_pos (calls i).iov.length with hzero | hpos
      · exact absurd (Call.rwLength_empty haligned (hfits hw) hzero) hsome
      · exact hpos
    refine Or.inr (h.update (leaves_self s i)
      ⟨hw, hfits hw, ⟨buf, rfl⟩, hinside hw, fun p hp => ?_⟩ ?_ nofun)
    · have hunits : (rwOf bs (calls i) buf).InUnits bs p := Call.inUnits (hfits hw) hp
      have hstart := (Call.covers_of_aligned haligned hpos (hfits hw) hunits).2
      have hlen : (calls i).iov.length ≤ (rwOf bs (calls i) buf).length :=
        Call.length_le (hfits hw)
      have hk : p - (calls i).offset < (calls i).iov.length := by
        have := hp.1
        have := hp.2
        omega
      have hcopy : _ = some (copyIovsToBuf buf 0 _ _ _) := copyIovsToBuf_inside hlen hk
      rw [Nat.zero_add, ← hstart] at hcopy
      exact hstart ▸ hcopy
    · rintro rw hrw j iov hj hwj p hp hin
      obtain rfl := Stage.write.inj hrw
      have hunits := Rw.inUnits_pinBuf.mp hin
      have hmine := (Call.covers_of_aligned haligned hpos (hfits hw) hunits).1
      have hji : j ≠ i := by
        rintro rfl
        cases hidle.symm.trans hj
      exact absurd hmine (hdisjoint j i hji hwj hw p hp)
  · exact Or.inr (h.toRead buf fun hw => ⟨hfits hw, hinside hw⟩)

omit [DecidableEq ι] in
/-- What was written stays in a file that a truncate makes longer. -/
theorem leaves_resize {length : Nat} (hlength : s.file.length ≤ length)
    (hfits : length + bs.clusterSz ≤ 2 ^ 64) {contents : Nat → UInt8} {file : File}
    (hfile : file.length = length)
    (hclusters : file.blob.numClusters = bytesToClusters length bs.clusterSz)
    (hbytes : file.blob.bytes =
      (s.file.blob.resize bs (bytesToClusters length bs.clusterSz) contents).bytes) :
    Leaves bs calls s i file := by
  refine ⟨hfile ▸ hlength, fun j iov _ _ _ p _ hold hshort => ?_⟩
  have hnew : p < bytesToClusters length bs.clusterSz * bs.clusterSz :=
    (hshort.trans_le hlength).trans_le (bytesToClusters_bound hfits)
  rw [hclusters, hbytes]
  refine ⟨hnew, if_pos ?_⟩
  rcases Nat.le_total s.file.blob.numClusters (bytesToClusters length bs.clusterSz) with hle | hle
  · rwa [Nat.min_eq_left hle]
  · rwa [Nat.min_eq_right hle]

theorem resize (h : Kept bs calls s) {length : Nat} {rw : Rw}
    (hstage : s.stage i = .resize length rw) {answer : Answer}
    (hok : answer.bserrno = 0 → s.file.length ≤ length)
    (hstep : step bs calls s (.complete i answer) = some s') :
    Failed calls s' ∨ Kept bs calls s' := by
  have hsound := h.sound i
  rw [hstage] at hsound
  obtain ⟨hw, hfits, hrw, rfl⟩ := hsound
  simp only [step, hstage] at hstep
  by_cases hzero : answer.bserrno = 0
  · simp only [fsTruncateResizeCb, hzero, ne_eq, not_true_eq_false, if_true, if_false] at hstep
    obtain rfl := Option.some.inj hstep
    exact Or.inr (h.update (leaves_resize (hok hzero) hfits rfl rfl rfl)
      ⟨hw, hfits, hrw, Nat.le_refl _⟩ nofun nofun)
  · simp only [fsTruncateResizeCb, doBlobRead, hzero, ne_eq, not_false_eq_true, if_true] at hstep
    obtain rfl := Option.some.inj hstep
    exact Or.inl (failed hw hzero)

theorem syncMd (h : Kept bs calls s) {rw : Rw} (hstage : s.stage i = .syncMd rw) {answer : Answer}
    (hstep : step bs calls s (.complete i answer) = some s') :
    Failed calls s' ∨ Kept bs calls s' := by
  have hsound := h.sound i
  rw [hstage] at hsound
  obtain ⟨hw, hfits, ⟨buf, rfl⟩, hend⟩ := hsound
  simp only [step, hstage, fsTruncateCompleteCb, doBlobRead] at hstep
  split at hstep
  · rename_i herror
    obtain rfl := Option.some.inj hstep
    exact Or.inl (failed hw herror)
  · obtain rfl := Option.some.inj hstep
    exact Or.inr (h.toRead buf fun _ => ⟨hfits, hend⟩)

/-- The write that follows a read, which got `buf`. -/
theorem filled (h : Kept bs calls s) (hdisjoint : DisjointWrites calls)
    (hw : (calls i).isRead = false) (hfits : (calls i).Fits bs)
    (hend : (calls i).offset + (calls i).iov.length ≤ s.file.length)
    (hnone : ∀ iov, s.stage i ≠ .done 0 iov) {buf : Nat → UInt8}
    (hbuf : ∀ j iov, s.stage j = .done 0 iov → (calls j).isRead = false →
      ∀ p, (calls j).Covers p → (rwOf bs (calls i) buf).InUnits bs p →
        buf (p - (calls i).offset / bs.ioUnitSize * bs.ioUnitSize) = s.file.blob.bytes p) :
    Kept bs calls
      { s with stage := Function.update s.stage i (readDone (rwOf bs (calls i) buf)) } := by
  rw [readDone_write hw]
  refine h.update (leaves_self s i)
    ⟨hw, hfits, ⟨buf, rfl⟩, hend, Rw.filled_hasPayload hfits⟩ ?_ nofun
  rintro rw hrw j iov hj hwj p hp hin
  obtain rfl := Stage.write.inj hrw
  have hunits : (rwOf bs (calls i) buf).InUnits bs p := Rw.inUnits_pinBuf.mp hin
  have hji : j ≠ i := by
    rintro rfl
    exact hnone iov hj
  have hother : ¬ (calls i).Covers p := hdisjoint j i hji hwj hw p hp
  exact (Rw.filled_outside hother hunits).trans (hbuf j iov hj hwj p hp hunits)

theorem read (h : Kept bs calls s) (hdisjoint : DisjointWrites calls) {rw : Rw}
    (hstage : s.stage i = .read rw) {answer : Answer}
    (hok : answer.bserrno ≠ 0 → ∀ j iov, s.stage j = .done 0 iov → (calls j).isRead = false →
      ¬ Touches bs (calls j) rw)
    (hstep : step bs calls s (.complete i answer) = some s') :
    Failed calls s' ∨ Kept bs calls s' := by
  have hsound := h.sound i
  rw [hstage] at hsound
  obtain ⟨⟨buf, rfl⟩, hwrite⟩ := hsound
  have hnone : ∀ iov, s.stage i ≠ .done 0 iov := by
    intro iov hdone
    cases hstage.symm.trans hdone
  have hnext : ∀ buf', (∀ j iov, s.stage j = .done 0 iov → (calls j).isRead = false →
      ∀ p, (calls j).Covers p → (rwOf bs (calls i) buf').InUnits bs p →
        buf' (p - (calls i).offset / bs.ioUnitSize * bs.ioUnitSize) = s.file.blob.bytes p) →
      Kept bs calls
        { s with stage := Function.update s.stage i (readDone (rwOf bs (calls i) buf')) } := by
    intro buf' hbuf'
    cases hr : (calls i).isRead with
    | true =>
        have hread : readDone (rwOf bs (calls i) buf') = .done 0 _ := if_pos hr
        rw [hread]
        exact h.done_read hr _ _
    | false =>
        obtain ⟨hfits, hend⟩ := hwrite hr
        exact h.filled hdisjoint hr hfits hend hnone hbuf'
  simp only [step, hstage] at hstep
  split at hstep
  · rename_i herror
    obtain rfl := Option.some.inj hstep
    refine Or.inr (hnext answer.contents fun j iov hj hwj p hp hin => ?_)
    exact absurd ⟨p, hp, hin⟩ (hok herror j iov hj hwj)
  split at hstep
  · obtain rfl := Option.some.inj hstep
    refine Or.inr (hnext _ fun j iov _ _ p _ hin => ?_)
    exact ioRead_inUnits buf hin
  · cases hstep

theorem write (h : Kept bs calls s) {rw : Rw}
    (hstage : s.stage i = .write rw) {answer : Answer}
    (hok : answer.bserrno = 0 → ∀ j rw, j ≠ i → s.stage j = .write rw →
      ¬ Touches bs (calls i) rw)
    (hstep : step bs calls s (.complete i answer) = some s') :
    Failed calls s' ∨ Kept bs calls s' := by
  have hsound := h.sound i
  rw [hstage] at hsound
  obtain ⟨hw, hfits, ⟨buf, hrw⟩, hend, hpayload⟩ := hsound
  simp only [step, hstage] at hstep
  split at hstep
  · rename_i herror
    obtain rfl := Option.some.inj hstep
    exact Or.inl (failed hw herror)
  rename_i hzero
  split at hstep
  · rename_i hunits
    obtain rfl := Option.some.inj hstep
    have hcovers : ∀ p, (calls i).Covers p → rw.InUnits bs p := by
      intro p hp
      rw [hrw]
      exact Rw.inUnits_pinBuf.mpr (Call.inUnits hfits hp)
    refine Or.inr (h.update ⟨Nat.le_refl _, fun j iov hj hdone hwj p hp hin _ => ⟨hin, ?_⟩⟩
      (fun _ => ⟨rfl, fun p hp => ⟨?_, ?_⟩, hend⟩) nofun fun _ _ _ => hok (not_not.mp hzero))
    · by_cases hp' : rw.InUnits bs p
      · exact (splice_inside hp').trans (h.fresh i j rw iov hstage hdone hwj p hp hp')
      · exact splice_outside hp'
    · unfold Blob.HasUnits at hunits
      rw [Nat.add_mul] at hunits
      exact (hcovers p hp).2.trans_le hunits
    · rw [hpayload p hp]
      exact congrArg some (splice_inside (hcovers p hp)).symm
  · cases hstep

/-- Every step keeps the invariant, as long as no write fails. -/
theorem step (h : Kept bs calls s) (hdisjoint : DisjointWrites calls) {e : Event ι}
    (hok : Undisturbed bs calls s e) (hstep : Steps bs calls s e s') :
    Failed calls s' ∨ Kept bs calls s' := by
  cases e with
  | submit i mem =>
      unfold Steps Async.step at hstep
      dsimp only at hstep
      split at hstep
      · rename_i hidle
        obtain rfl := Option.some.inj hstep
        exact h.submit hdisjoint mem hidle hok
      · cases hstep
  | complete i answer =>
      unfold Undisturbed at hok
      dsimp only at hok
      cases hstage : s.stage i with
      | idle => simp [Steps, Async.step, hstage] at hstep
      | done rc iov => simp [Steps, Async.step, hstage] at hstep
      | resize length rw =>
          rw [hstage] at hok
          exact h.resize hstage hok hstep
      | syncMd rw => exact h.syncMd hstage hstep
      | read rw =>
          rw [hstage] at hok
          exact h.read hdisjoint hstage hok hstep
      | write rw =>
          rw [hstage] at hok
          exact h.write hstage hok hstep

end Kept

/-- A step moves one call on, which had not ended. -/
theorem step_stage [DecidableEq ι] {s s' : State ι} {e : Event ι} (hstep : Steps bs calls s e s') :
    ∃ i stage, s'.stage = Function.update s.stage i stage ∧ ∀ rc iov, s.stage i ≠ .done rc iov := by
  unfold Steps Async.step at hstep
  cases e with
  | submit i mem =>
      dsimp only at hstep
      split at hstep
      · rename_i hidle
        obtain rfl := Option.some.inj hstep
        exact ⟨i, _, rfl, fun rc iov hdone => nomatch hidle.symm.trans hdone⟩
      · cases hstep
  | complete i answer =>
      have hne : ∀ {stage : Stage}, s.stage i = stage → (∀ rc iov, stage ≠ .done rc iov) →
          ∀ rc iov, s.stage i ≠ .done rc iov := by
        rintro stage rfl h
        exact h
      cases hstage : s.stage i with
      | idle => simp [hstage] at hstep
      | done rc iov => simp [hstage] at hstep
      | resize length rw =>
          simp only [hstage] at hstep
          obtain rfl := Option.some.inj hstep
          exact ⟨i, _, rfl, hne hstage nofun⟩
      | syncMd rw =>
          simp only [hstage] at hstep
          obtain rfl := Option.some.inj hstep
          exact ⟨i, _, rfl, hne hstage nofun⟩
      | read rw =>
          simp only [hstage] at hstep
          split at hstep
          · obtain rfl := Option.some.inj hstep
            exact ⟨i, _, rfl, hne hstage nofun⟩
          split at hstep
          · obtain rfl := Option.some.inj hstep
            exact ⟨i, _, rfl, hne hstage nofun⟩
          · cases hstep
      | write rw =>
          simp only [hstage] at hstep
          split at hstep
          · obtain rfl := Option.some.inj hstep
            exact ⟨i, _, rfl, hne hstage nofun⟩
          split at hstep
          · obtain rfl := Option.some.inj hstep
            exact ⟨i, _, rfl, hne hstage nofun⟩
          · cases hstep

theorem Failed.step [DecidableEq ι] {s s' : State ι} (h : Failed calls s) {e : Event ι}
    (hstep : Steps bs calls s e s') : Failed calls s' := by
  obtain ⟨i, rc, iov, hw, hdone, hrc⟩ := h
  obtain ⟨j, stage, hs', hopen⟩ := step_stage hstep
  have hne : i ≠ j := by
    rintro rfl
    exact hopen rc iov hdone
  refine ⟨i, rc, iov, hw, ?_, hrc⟩
  rw [hs', Function.update_of_ne hne, hdone]

/-- Writes to disjoint ranges of a file, any number of them, in flight at the same time:
in every run that keeps them undisturbed, when all of them completed with 0 the blob holds
each payload and the file reaches to the end of each. -/
theorem noLostUpdate_of_runs [DecidableEq ι] {s₀ s : State ι} (hdisjoint : DisjointWrites calls)
    (h₀ : ∀ i, s₀.stage i = .idle)
    (hrun : Runs (Steps bs calls) (Undisturbed bs calls) s₀ s)
    (hdone : ∀ i, (calls i).isRead = false → ∃ iov, s.stage i = .done 0 iov) :
    ∀ i, (calls i).isRead = false → s.file.Holds bs (calls i) := by
  have hinv : Failed calls s ∨ Kept bs calls s := by
    refine Runs.keeps (P := fun s => Failed calls s ∨ Kept bs calls s) hrun
      (Or.inr (Kept.initial h₀)) fun hinv hok hstep => ?_
    rcases hinv with hfailed | hkept
    · exact Or.inl (hfailed.step hstep)
    · exact hkept.step hdisjoint hok hstep
  intro i hw
  rcases hinv with ⟨j, rc, iov, hwj, hfailed, hrc⟩ | hkept
  · obtain ⟨iov', hdone'⟩ := hdone j hwj
    rw [hfailed] at hdone'
    exact absurd (Stage.done.inj hdone').1 hrc
  · obtain ⟨iov, hdone⟩ := hdone i hw
    have hsound := hkept.sound i
    rw [hdone] at hsound
    exact (hsound hw).2

/-- Io units of 4 bytes and clusters of 16. -/
def smallBs : Blobstore := ⟨2, 16, by decide, by decide⟩

/-- A file of one cluster of zeros. -/
def smallFile : State Bool := ⟨⟨16, 16, ⟨1, fun _ => 0, 16⟩⟩, fun _ => .idle⟩

/-- Every allocation succeeds. -/
def plenty : Memory := ⟨true, some fun _ => 0, true⟩

/-- An operation succeeds. -/
def success : Answer := ⟨0, fun _ => 0⟩

/-- Two bytes at 1, and two at `offset`. -/
def twoWrites (offset : Nat) : Bool → Call
  | false => ⟨false, 1, [1, 2]⟩
  | true => ⟨false, offset, [3, 4]⟩

theorem twoWrites_disjoint {offset : Nat} (h : 3 ≤ offset) : DisjointWrites (twoWrites offset) := by
  intro i j hij _ _ p hi hj
  cases i <;> cases j <;> simp [twoWrites, Call.Covers] at hij hi hj <;> omega

theorem not_touches {c : Call} {rw : Rw}
    (h : c.offset + c.iov.length ≤ rw.startLba * bs.ioUnitSize ∨
    rw.startLba * bs.ioUnitSize + rw.numLba * bs.ioUnitSize ≤ c.offset) : ¬ Touches bs c rw := by
  rintro ⟨p, ⟨hp₁, hp₂⟩, hin₁, hin₂⟩
  omega

/-- Both writes read their io units, the first and the third, and then write them. -/
theorem noLostUpdate_of_runs_two : ∃ s, Runs (Steps smallBs (twoWrites 9))
    (Undisturbed smallBs (twoWrites 9)) smallFile s ∧ s.file.Holds smallBs (twoWrites 9 false) := by
  have hwrote : ∀ {s : State Bool} {rw : Rw}, s.stage true = .write rw → rw.startLba = 2 →
      ∀ j rw, j ≠ false → s.stage j = .write rw → ¬ Touches smallBs (twoWrites 9 false) rw := by
    intro s rw hrw hstart j rw' hj hstage
    obtain rfl : j = true := by simpa using hj
    obtain rfl := Stage.write.inj (hrw.symm.trans hstage)
    exact not_touches (Or.inl (hstart ▸ by decide))
  have h₁ : Runs (Steps smallBs (twoWrites 9)) (Undisturbed smallBs (twoWrites 9)) smallFile _ :=
    .one (e := .submit false plenty) (fun _ => by decide) rfl
  have h₂ := h₁.tail (e := Event.submit true plenty) (fun _ => by decide) rfl
  have h₃ := h₂.tail (e := Event.complete false success) (fun h => absurd rfl h) rfl
  have h₄ := h₃.tail (e := Event.complete true success) (fun h => absurd rfl h) rfl
  have h₅ := h₄.tail (e := Event.complete false success) (fun _ => hwrote rfl rfl) rfl
  have h₆ := h₅.tail (e := Event.complete true success) (fun _ j rw hj hstage => by
    obtain rfl : j = false := by simpa using hj
    cases hstage) rfl
  refine ⟨_, h₆, noLostUpdate_of_runs (twoWrites_disjoint (by decide)) (fun _ => rfl) h₆
    (fun i _ => ?_) false rfl⟩
  cases i with
  | false => exact ⟨_, rfl⟩
  | true => exact ⟨_, rfl⟩

/-- Both writes read the first io unit before either writes it back: the first is lost. -/
theorem noLostUpdate_shared : ¬ ∀ (bs : Blobstore) (calls : Bool → Call) (s₀ s : State Bool),
    DisjointWrites calls → (∀ i, (calls i).isRead = false) → (∀ i, s₀.stage i = .idle) →
    Runs (Steps bs calls) (fun _ _ => True) s₀ s → (∀ i, ∃ iov, s.stage i = .done 0 iov) →
    ∀ i, s.file.Holds bs (calls i) := by
  intro hall
  have h₁ : Runs (Steps smallBs (twoWrites 3)) (fun _ _ => True) smallFile _ :=
    .one (e := .submit false plenty) trivial rfl
  have h₂ := h₁.tail (e := Event.submit true plenty) trivial rfl
  have h₃ := h₂.tail (e := Event.complete false success) trivial rfl
  have h₄ := h₃.tail (e := Event.complete true success) trivial rfl
  have h₅ := h₄.tail (e := Event.complete false success) trivial rfl
  have h₆ := h₅.tail (e := Event.complete true success) trivial rfl
  have hholds := hall smallBs (twoWrites 3) smallFile _ (twoWrites_disjoint (Nat.le_refl 3))
    (fun i => by cases i <;> rfl) (fun _ => rfl) h₆ (fun i => by cases i <;> exact ⟨_, rfl⟩) false
  have hbyte := (hholds.1 1 (by decide)).2
  exact absurd hbyte (by decide)

end Nbfs.Async
