import Nbfs.Nbfs2.SuperBlob
import Mathlib.Data.UInt
import Mathlib.Order.Bounds.Basic

set_option autoImplicit false

/-!
# How a blob grows before it is written

A write that goes past the last io unit of its blob asks for the clusters that are missing:
as many as hold the range, and no more.
-/

namespace Nbfs.Nbfs2

open Nbfs.Lib Conv

/-- The sizes of a blobstore: a cluster is a number of io units. -/
structure Geometry where
  ioUnitSize : UInt64
  clusterSize : UInt64
  unitsPerCluster : Nat
  ioUnitSize_pos : 0 < ioUnitSize.toNat
  unitsPerCluster_pos : 0 < unitsPerCluster
  clusterSize_eq : clusterSize.toNat = unitsPerCluster * ioUnitSize.toNat

/-- What a blobstore with these sizes answers, where blob `b` has `s b` clusters; a resize that
succeeds gives the clusters asked for. -/
def Geometry.respond (g : Geometry) (s : BlobId → Nat) :
    (r : Request) → Response r → (BlobId → Nat) → Prop
  | .clusterSize, size, s' => size = g.clusterSize ∧ s' = s
  | .ioUnitSize, size, s' => size = g.ioUnitSize ∧ s' = s
  | .numClusters b, n, s' => UInt64.toNat n = s b ∧ s' = s
  | .numIoUnits b, n, s' => UInt64.toNat n = s b * g.unitsPerCluster ∧ s' = s
  | .resize b n, bserrno, s' =>
      (bserrno = (0 : Int) ∧ s' = Function.update s b n.toNat) ∨ (bserrno ≠ (0 : Int) ∧ s' = s)
  | _, _, s' => s' = s

/-- The numbers of clusters that hold so many io units. -/
def Geometry.enough (g : Geometry) (ioUnits : Nat) : Set Nat :=
  { n | ioUnits ≤ n * g.unitsPerCluster }

/-- A resize asks for the least number of clusters that hold the range, which is no less than
the blob has, and a write is made of the range and within the blob. -/
def Geometry.Grows (g : Geometry) (offset length : UInt64) (s : BlobId → Nat) : Request → Prop
  | .resize b n => IsLeast (g.enough (offset.toNat + length.toNat)) n.toNat ∧ s b ≤ n.toNat
  | .ioWrite b _ o l => o = offset ∧ l = length ∧ s b ∈ g.enough (offset.toNat + length.toNat)
  | _ => True

/-! ### The number of clusters -/

/-- A quotient rounded up is the least factor that reaches the dividend. -/
theorem isLeast_roundUp {k p : Nat} (hp : 0 < p) :
    IsLeast { n | k ≤ n * p } (k / p + if k % p ≠ 0 then 1 else 0) := by
  have hsplit : k / p * p + k % p = k := Nat.div_add_mod' k p
  have hrest : k % p < p := Nat.mod_lt k hp
  constructor
  · change k ≤ _ * p
    split
    · rw [Nat.add_mul, Nat.one_mul]
      omega
    · rw [Nat.add_zero]
      omega
  · intro n hn
    have hle : k / p ≤ n := by
      rw [← Nat.lt_succ_iff, Nat.div_lt_iff_lt_mul hp, Nat.succ_mul]
      exact lt_of_le_of_lt hn (Nat.lt_add_of_pos_right hp)
    split
    · rename_i hmod
      refine Nat.lt_of_le_of_ne hle ?_
      rintro rfl
      change k ≤ k / p * p at hn
      omega
    · exact hle

/-- Clusters that are there and as few more as the rest needs are as few as the whole needs. -/
theorem isLeast_grown {c k m p : Nat} (h : IsLeast { n | k ≤ n * p } m) (hm : 0 < k) :
    IsLeast { n | c * p + k ≤ n * p } (c + m) := by
  constructor
  · change _ ≤ (c + m) * p
    rw [Nat.add_mul]
    exact Nat.add_le_add_left h.1 _
  · intro n hn
    have hc : c < n := by
      refine Nat.lt_of_mul_lt_mul_right (a := p) (lt_of_lt_of_le ?_ hn)
      exact Nat.lt_add_of_pos_right hm
    have hrest : m ≤ n - c := h.2 (by
      change k ≤ (n - c) * p
      rw [Nat.sub_mul]
      exact Nat.le_sub_of_add_le' hn)
    omega

variable {g : Geometry} {offset length : UInt64} {s s' : BlobId → Nat}

/-- The range in io units is counted without overflow. -/
theorem Geometry.range_toNat
    (hfit : (offset.toNat + length.toNat) * g.ioUnitSize.toNat < 2 ^ 64) :
    (offset + length).toNat = offset.toNat + length.toNat := by
  rw [UInt64.toNat_add, Nat.mod_eq_of_lt]
  exact lt_of_le_of_lt (Nat.le_mul_of_pos_right _ g.ioUnitSize_pos) hfit

/-- What `clustersFor` counts is the number of clusters that hold so many io units. -/
theorem Geometry.clustersFor_toNat {args : WriteArgs} {count : UInt64}
    (hunit : args.ioUnitSize = g.ioUnitSize) (hcluster : args.clusterSize = g.clusterSize)
    (hfit : count.toNat * g.ioUnitSize.toNat < 2 ^ 64) (hcount : 0 < count.toNat) :
    IsLeast (g.enough count.toNat) (clustersFor args count).toNat ∧
      (clustersFor args count).toNat ≤ count.toNat := by
  have hmul : (count * g.ioUnitSize).toNat = count.toNat * g.ioUnitSize.toNat := by
    rw [UInt64.toNat_mul, Nat.mod_eq_of_lt hfit]
  have hdiv : (count * g.ioUnitSize / g.clusterSize).toNat = count.toNat / g.unitsPerCluster := by
    rw [UInt64.toNat_div, hmul, g.clusterSize_eq,
      Nat.mul_div_mul_right _ _ g.ioUnitSize_pos]
  have hmod : count * g.ioUnitSize % g.clusterSize ≠ 0 ↔
      count.toNat % g.unitsPerCluster ≠ 0 := by
    rw [ne_eq, ← UInt64.toNat_inj, UInt64.toNat_mod, hmul, g.clusterSize_eq,
      Nat.mul_mod_mul_right, UInt64.toNat_zero, Nat.mul_eq_zero, not_or]
    exact and_iff_left (Nat.ne_of_gt g.ioUnitSize_pos)
  have hleast := isLeast_roundUp (k := count.toNat) g.unitsPerCluster_pos
  have hself : count.toNat ∈ { n | count.toNat ≤ n * g.unitsPerCluster } :=
    Nat.le_mul_of_pos_right _ g.unitsPerCluster_pos
  have hle := hleast.2 hself
  suffices heq : (clustersFor args count).toNat =
      count.toNat / g.unitsPerCluster + if count.toNat % g.unitsPerCluster ≠ 0 then 1 else 0 by
    rw [heq]
    exact ⟨hleast, hle⟩
  unfold clustersFor
  rw [hunit, hcluster, UInt64.toNat_add, hdiv]
  have hlt := count.toNat_lt
  by_cases hzero : count.toNat % g.unitsPerCluster ≠ 0
  · rw [if_pos (hmod.mpr hzero), if_pos hzero, UInt64.toNat_one, Nat.mod_eq_of_lt]
    rw [if_pos hzero] at hle
    omega
  · rw [if_neg (mt hmod.mp hzero), if_neg hzero, UInt64.toNat_zero, Nat.mod_eq_of_lt]
    rw [if_neg hzero] at hle
    omega

/-- The count that a blob with `c` clusters is resized to. -/
theorem Geometry.grown_toNat {args : WriteArgs} {clusters ioUnits : UInt64} {c : Nat}
    (hunit : args.ioUnitSize = g.ioUnitSize) (hcluster : args.clusterSize = g.clusterSize)
    (hfit : (offset.toNat + length.toNat) * g.ioUnitSize.toNat < 2 ^ 64)
    (hclusters : clusters.toNat = c) (hunits : ioUnits.toNat = c * g.unitsPerCluster)
    (hbeyond : ioUnits < offset + length) :
    IsLeast (g.enough (offset.toNat + length.toNat))
        (clusters + clustersFor args (offset + length - ioUnits)).toNat ∧
      c ≤ (clusters + clustersFor args (offset + length - ioUnits)).toNat := by
  have hrange := g.range_toNat hfit
  have hlt := UInt64.lt_iff_toNat_lt.mp hbeyond
  have hcount : (offset + length - ioUnits).toNat =
      offset.toNat + length.toNat - c * g.unitsPerCluster := by
    rw [UInt64.toNat_sub_of_le _ _ (UInt64.le_of_lt hbeyond), hrange, hunits]
  rw [hrange, hunits] at hlt
  have hpos : 0 < (offset + length - ioUnits).toNat := by
    rw [hcount]
    exact Nat.sub_pos_of_lt hlt
  have hmore : (offset + length - ioUnits).toNat * g.ioUnitSize.toNat < 2 ^ 64 := by
    rw [hcount]
    exact lt_of_le_of_lt (Nat.mul_le_mul_right _ (Nat.sub_le _ _)) hfit
  obtain ⟨hleast, hle⟩ := g.clustersFor_toNat hunit hcluster hmore hpos
  have hgrown := isLeast_grown (c := c) hleast hpos
  rw [hcount, Nat.add_sub_cancel' (Nat.le_of_lt hlt)] at hgrown
  have hbound : c + (clustersFor args (offset + length - ioUnits)).toNat < 2 ^ 64 := by
    have hc : c ≤ c * g.unitsPerCluster := Nat.le_mul_of_pos_right _ g.unitsPerCluster_pos
    have hrangeLt := (offset + length).toNat_lt
    rw [hcount] at hle
    omega
  rw [UInt64.toNat_add, hclusters, Nat.mod_eq_of_lt hbound]
  exact ⟨hgrown, Nat.le_add_right _ _⟩

/-! ### The two requests that write -/

section writes

variable {β : Type} {cb : Int → Async β} {args : WriteArgs} {blb : BlobId} {bserrno : Int}

/-- The program makes no request that the blob's size does not allow. -/
abbrev Geometry.Safe (g : Geometry) (offset length : UInt64) (p : Async β) (s : BlobId → Nat) :
    Prop :=
  Conv.Asks g.respond (g.Grows offset length) (fun _ _ => True) p s

/-- The fields of the block that the size is computed from. -/
structure Geometry.Block (g : Geometry) (offset length : UInt64) (args : WriteArgs) : Prop where
  offset : args.offset = offset
  length : args.length = length
  clusterSize : args.clusterSize = g.clusterSize
  ioUnitSize : args.ioUnitSize = g.ioUnitSize

theorem wsbWriteComplete_safe (hcb : ∀ rc s, g.Safe offset length (cb rc) s) :
    g.Safe offset length (wsbWriteComplete args cb bserrno) s := by
  unfold wsbWriteComplete
  split
  · exact hcb _ _
  · split
    · exact ⟨trivial, fun _ s _ => ⟨trivial, fun rc s _ => hcb rc s⟩⟩
    · exact ⟨trivial, fun rc s _ => hcb rc s⟩

theorem wsbWrite_safe (hargs : g.Block offset length args)
    (henough : s args.blob ∈ g.enough (offset.toNat + length.toNat))
    (hcb : ∀ rc s, g.Safe offset length (cb rc) s) :
    g.Safe offset length (wsbWrite args cb) s :=
  ⟨⟨hargs.offset, hargs.length, henough⟩, fun _ _ _ => wsbWriteComplete_safe hcb⟩

/-- After a resize that gave the clusters asked for the range is within the blob. -/
theorem wsbResizeComplete_safe (hargs : g.Block offset length args)
    (henough : bserrno = 0 → s args.blob ∈ g.enough (offset.toNat + length.toNat))
    (hcb : ∀ rc s, g.Safe offset length (cb rc) s) :
    g.Safe offset length (wsbResizeComplete args cb bserrno) s := by
  unfold wsbResizeComplete
  split
  · exact hcb _ _
  rename_i hzero
  refine Asks.request_iff.mpr ⟨trivial, fun _ s₁ hclusters => ?_⟩
  refine Asks.request_iff.mpr ⟨trivial, fun rc s₂ hsync => ?_⟩
  obtain rfl := hclusters.2
  obtain rfl : s₂ = s₁ := hsync
  unfold wsbSyncComplete
  split
  · exact hcb _ _
  · exact wsbWrite_safe hargs (henough (not_not.mp hzero)) hcb

theorem wsbOpenComplete_safe (hargs : g.Block offset length args)
    (hfit : (offset.toNat + length.toNat) * g.ioUnitSize.toNat < 2 ^ 64)
    (hcb : ∀ rc s, g.Safe offset length (cb rc) s) :
    g.Safe offset length (wsbOpenComplete args cb blb bserrno) s := by
  unfold wsbOpenComplete
  split
  · exact hcb _ _
  refine Asks.request_iff.mpr ⟨trivial, fun channel s₁ hchannel => ?_⟩
  obtain rfl : s₁ = s := hchannel
  dsimp only
  split
  · exact hcb _ _
  refine Asks.request_iff.mpr ⟨trivial, fun clusters s₂ hclusters => ?_⟩
  refine Asks.request_iff.mpr ⟨trivial, fun ioUnits s₃ hunits => ?_⟩
  obtain ⟨hclusters, rfl⟩ := hclusters
  obtain ⟨hunits, rfl⟩ := hunits
  obtain ⟨rfl, rfl, hcluster, hunit⟩ := hargs
  have hblock : g.Block args.offset args.length { args with blob := blb, channel := channel } :=
    ⟨rfl, rfl, hcluster, hunit⟩
  split
  · rename_i hbeyond
    have hgrown := @Geometry.grown_toNat g args.offset args.length
      { args with blob := blb, channel := channel } clusters ioUnits (s₃ blb)
      hunit hcluster hfit hclusters hunits hbeyond
    refine Asks.request_iff.mpr ⟨trivial, fun free s₄ hfree => ?_⟩
    obtain rfl : s₄ = s₃ := hfree
    split
    · exact hcb _ _
    refine Asks.request_iff.mpr ⟨hgrown, fun rc s₅ hresize => ?_⟩
    refine wsbResizeComplete_safe hblock (fun hzero => ?_) hcb
    rcases hresize with ⟨-, rfl⟩ | ⟨hne, -⟩
    · change Function.update s₄ blb _ blb ∈ g.enough _
      rw [Function.update_self]
      exact hgrown.1.1
    · exact absurd hzero hne
  · rename_i hwithin
    refine wsbWrite_safe hblock ?_ hcb
    change args.offset.toNat + args.length.toNat ≤ s₃ blb * g.unitsPerCluster
    rw [← hunits, ← g.range_toNat hfit]
    exact UInt64.le_iff_toNat_le.mp (UInt64.not_lt.mp hwithin)

theorem wsbSuperBlobidGot_safe {blobid : BlobId} (hargs : g.Block offset length args)
    (hfit : (offset.toNat + length.toNat) * g.ioUnitSize.toNat < 2 ^ 64)
    (hcb : ∀ rc s, g.Safe offset length (cb rc) s) :
    g.Safe offset length (wsbSuperBlobidGot args cb blobid bserrno) s := by
  unfold wsbSuperBlobidGot
  split
  · exact hcb _ _
  · refine Asks.request_iff.mpr ⟨trivial, fun opened s₁ _ => ?_⟩
    exact wsbOpenComplete_safe ⟨hargs.offset, hargs.length, hargs.clusterSize, hargs.ioUnitSize⟩
      hfit hcb

/-- The superblob is written within its size. -/
theorem writeSuperBlob_safe {payload : Address}
    (hfit : (offset.toNat + length.toNat) * g.ioUnitSize.toNat < 2 ^ 64)
    (hcb : ∀ rc s, g.Safe offset length (cb rc) s) :
    g.Safe offset length (writeSuperBlob payload offset length cb) s := by
  refine Asks.request_iff.mpr ⟨trivial, fun block s₁ _ => ?_⟩
  cases block with
  | none => exact hcb _ _
  | some args =>
      refine Asks.request_iff.mpr ⟨trivial, fun clusterSize s₂ hcluster => ?_⟩
      refine Asks.request_iff.mpr ⟨trivial, fun ioUnitSize s₃ hunit => ?_⟩
      refine Asks.request_iff.mpr ⟨trivial, fun super s₄ _ => ?_⟩
      exact wsbSuperBlobidGot_safe ⟨rfl, rfl, hcluster.1, hunit.1⟩ hfit hcb

/-- And so is a file's blob. -/
theorem writeNormalBlob_safe {blobid : BlobId} {payload : Address}
    (hfit : (offset.toNat + length.toNat) * g.ioUnitSize.toNat < 2 ^ 64) :
    g.Safe offset length (writeNormalBlob blobid payload offset length) s := by
  have hcb : ∀ (rc : Int) (s : BlobId → Nat), g.Safe offset length (cbFn rc) s :=
    fun rc s => ⟨trivial, fun _ _ _ => trivial⟩
  refine Asks.request_iff.mpr ⟨trivial, fun block s₁ _ => ?_⟩
  cases block with
  | none => exact hcb _ _
  | some args =>
      refine Asks.request_iff.mpr ⟨trivial, fun clusterSize s₂ hcluster => ?_⟩
      refine Asks.request_iff.mpr ⟨trivial, fun ioUnitSize s₃ hunit => ?_⟩
      refine Asks.request_iff.mpr ⟨trivial, fun ⟨blb, rc⟩ s₄ _ => ?_⟩
      dsimp only
      rw [wnbOpenComplete_eq]
      exact wsbOpenComplete_safe ⟨rfl, rfl, hcluster.1, hunit.1⟩ hfit hcb

end writes

/-- **Growth.**  Every resize that the two requests ask for is to the least number of clusters
that hold the range, which is no less than the blob has, and every write finds its range within
the blob as it then is. -/
theorem write_grows (hfit : (offset.toNat + length.toNat) * g.ioUnitSize.toNat < 2 ^ 64)
    (s : BlobId → Nat) (blobid : BlobId) (payload : Address) :
    Conv.Asks g.respond (g.Grows offset length) (fun _ _ => True)
        (writeNormalBlob blobid payload offset length) s ∧
      Conv.Asks g.respond (g.Grows offset length) (fun _ _ => True)
        (writeSuperBlob payload offset length cbFn) s :=
  ⟨writeNormalBlob_safe hfit, writeSuperBlob_safe hfit fun _ _ => ⟨trivial, fun _ _ _ => trivial⟩⟩

/-- Io units of 512 bytes, 2048 to a cluster. -/
def oneMegabyteClusters : Geometry where
  ioUnitSize := 512
  clusterSize := 1048576
  unitsPerCluster := 2048
  ioUnitSize_pos := by decide
  unitsPerCluster_pos := by decide
  clusterSize_eq := by decide

/-- Five io units more than one cluster, into a blob without clusters. -/
theorem write_grows_two :
    Conv.Asks oneMegabyteClusters.respond (oneMegabyteClusters.Grows 0 2053) (fun _ _ => True)
      (writeNormalBlob 1 0 0 2053) fun _ => 0 :=
  (write_grows (by decide) (fun _ => 0) 1 0).1

/-- The blob is resized to two clusters. -/
example : clustersFor ⟨0, 0, true, 0, 0, 2053, 1048576, 512⟩ 2053 = 2 := by decide

end Nbfs.Nbfs2
