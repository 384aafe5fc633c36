import Nbfs.Nbfs2.NormalBlob
import Mathlib.Order.Basic

set_option autoImplicit false

/-!
# What is written is read back

A write that completes with 0, followed by a read that completes with 0, should
give back the payload and leave the rest of the blob alone, both on the blob and
the memory of the caller.  That is so exactly when `malloc` happened to return
blocks with the caller's payload and blob id in the two fields nobody sets.
-/

namespace Nbfs.Nbfs2

open Nbfs.Lib Conv

/-- A run against the blobstore. -/
abbrev Blobstore.Run {α β : Type} (B : Blobstore α) (s : B.State) (p : Async β)
    (t : Trace Response) (s' : B.State) (o : Option β) : Prop := Conv.Run B.respond s p t s' o

/-- The caller was called back with 0. -/
def CompletedOk (t : Trace Response) : Prop := ∃ x, ⟨.callback 0, x⟩ ∈ t

/-- A request is about this blob, and its io about this memory. -/
def Request.isOn (blobid : BlobId) (payload : Address) : Request → Prop
  | openBlob id => id = blobid
  | closeBlob b | syncMd b | resize b _ => b = blobid
  | ioWrite b p _ _ | ioRead b p _ _ => b = blobid ∧ p = payload
  | _ => True

/-- Every request of the run is about the blob and the memory. -/
def ActsOn (blobid : BlobId) (payload : Address) (t : Trace Response) : Prop :=
  ∀ x ∈ t, x.1.isOn blobid payload

theorem completedOk_cons {r : Request} {x : Response r} {t : Trace Response}
    (hr : r ≠ .callback 0) : CompletedOk (⟨r, x⟩ :: t) ↔ CompletedOk t := by
  constructor
  · rintro ⟨y, hy⟩
    rcases List.mem_cons.mp hy with heq | hmem
    · exact absurd (congrArg Sigma.fst heq).symm hr
    · exact ⟨y, hmem⟩
  · rintro ⟨y, hy⟩
    exact ⟨y, List.mem_cons_of_mem _ hy⟩

theorem not_completedOk_nil : ¬ CompletedOk [] := fun ⟨_, h⟩ => absurd h List.not_mem_nil

/-- The run changed no contents. -/
def Blobstore.Same {α : Type} (B : Blobstore α) (s s' : B.State) : Prop :=
  B.units s' = B.units s ∧ B.mem s' = B.mem s

section runs

variable {α : Type} {B : Blobstore α} {s s' : B.State} {t : Trace Response} {o : Option Unit}

theorem Blobstore.Same.refl (s : B.State) : B.Same s s := ⟨rfl, rfl⟩

theorem Blobstore.Same.trans {s₁ s₂ s₃ : B.State} (h : B.Same s₁ s₂) (h' : B.Same s₂ s₃) :
    B.Same s₁ s₃ := ⟨h'.1.trans h.1, h'.2.trans h.2⟩

theorem Blobstore.same_of_quiet {r : Request} {x : Response r} (h : B.respond s r x s')
    (hr : r.quiet = true) : B.Same s s' :=
  ⟨(B.quiet h hr).1, (B.quiet h hr).2.2⟩

/-- A callback with an error is no completion with 0. -/
theorem not_completedOk_error {bserrno : Int} (hne : bserrno ≠ 0)
    (h : B.Run s (cbFn bserrno) t s' o) : ¬ CompletedOk t := by
  obtain ⟨x, s₁, t₁, rfl, -, hret⟩ := Run.call_iff.mp h
  obtain ⟨rfl, -, -⟩ := Run.ret_iff.mp hret
  rw [completedOk_cons (by simpa using hne)]
  exact not_completedOk_nil

/-- Closing the blob and calling back changes no contents. -/
theorem closing_same {blob : BlobId} {payload : Address}
    (h : B.Run s (do let rc ← spdkBlobClose blob; cbFn rc) t s' o) :
    B.Same s s' ∧ ActsOn blob payload t := by
  obtain ⟨rc, s₁, t₁, rfl, hclose, hrest⟩ := Run.call_iff.mp h
  obtain ⟨x, s₂, t₂, rfl, hcallback, hret⟩ := Run.call_iff.mp hrest
  obtain ⟨rfl, rfl, -⟩ := Run.ret_iff.mp hret
  refine ⟨(B.same_of_quiet hclose rfl).trans (B.same_of_quiet hcallback rfl), ?_⟩
  intro y hy
  simp only [List.mem_cons, List.not_mem_nil, or_false] at hy
  rcases hy with rfl | rfl
  · rfl
  · trivial

theorem ActsOn.cons {blobid : BlobId} {payload : Address} {r : Request} {x : Response r}
    (hr : r.isOn blobid payload) (h : ActsOn blobid payload t) :
    ActsOn blobid payload (⟨r, x⟩ :: t) := by
  intro y hy
  rcases List.mem_cons.mp hy with rfl | hy
  · exact hr
  · exact h y hy

theorem ioComplete_ok {channel : Bool} {blob : BlobId} {payload : Address} {bserrno : Int}
    (h : B.Run s (ioComplete channel blob bserrno) t s' o) (hok : CompletedOk t) :
    bserrno = 0 ∧ B.Same s s' ∧ ActsOn blob payload t := by
  unfold ioComplete at h
  by_cases hzero : bserrno = 0
  · refine ⟨hzero, ?_⟩
    rw [if_neg (not_not.mpr hzero)] at h
    cases channel with
    | true =>
        obtain ⟨x, s₁, t₁, rfl, hfree, hrest⟩ := Run.call_iff.mp h
        obtain ⟨hsame, hacts⟩ := closing_same hrest
        exact ⟨(B.same_of_quiet hfree rfl).trans hsame, hacts.cons trivial⟩
    | false => exact closing_same h
  · rw [if_pos hzero] at h
    exact absurd hok (not_completedOk_error hzero h)

/-- A write: the blob's units with the data in place. -/
def Blobstore.Written (B : Blobstore α) (s s' : B.State) (b : BlobId) (p : Address)
    (offset length : Nat) : Prop :=
  ∃ us more data, B.units s b = some us ∧ B.mem s p = some data ∧ length ≤ data.length ∧
    offset + length ≤ (us ++ more).length ∧ B.mem s' = B.mem s ∧
    B.units s' b = some ((us ++ more).take offset ++ data.take length ++
      (us ++ more).drop (offset + length))

theorem Blobstore.Written.of_same {b : BlobId} {p : Address} {offset length : Nat}
    {s₁ s₂ s₃ : B.State} (h : B.Same s₁ s₂) (hw : B.Written s₂ s₃ b p offset length) :
    B.Written s₁ s₃ b p offset length := by
  obtain ⟨us, more, data, hus, hdata, hlen, hbound, hmem, hafter⟩ := hw
  exact ⟨us, more, data, h.1 ▸ hus, h.2 ▸ hdata, hlen, hbound, hmem.trans h.2, hafter⟩

theorem Blobstore.Written.to_same {b : BlobId} {p : Address} {offset length : Nat}
    {s₁ s₂ s₃ : B.State} (hw : B.Written s₁ s₂ b p offset length) (h : B.Same s₂ s₃) :
    B.Written s₁ s₃ b p offset length := by
  obtain ⟨us, more, data, hus, hdata, hlen, hbound, hmem, hafter⟩ := hw
  exact ⟨us, more, data, hus, hdata, hlen, hbound, h.2.trans hmem, h.1 ▸ hafter⟩

/-- The blob and the payload of a request's io are those of its block. -/
def Issues (t : Trace Response) (r : Request) : Prop := ∃ x, ⟨r, x⟩ ∈ t

/-- From `spdk_blob_io_write` on. -/
theorem wnbWrite_ok {args : WriteArgs} (h : B.Run s (wnbWrite args) t s' o)
    (hok : CompletedOk t) :
    B.Written s s' args.blob args.payload args.offset.toNat args.length.toNat ∧
      ActsOn args.blob args.payload t ∧
      Issues t (.ioWrite args.blob args.payload args.offset args.length) := by
  obtain ⟨rc, s₁, t₁, rfl, hwrite, hrest⟩ := Run.call_iff.mp h
  rw [completedOk_cons (by simp)] at hok
  obtain ⟨rfl, hsame, hacts⟩ := ioComplete_ok hrest hok
  obtain ⟨us, data, hus, hdata, hbound, hlen, hunits, hmem⟩ := B.written hwrite
  refine ⟨Blobstore.Written.to_same ⟨us, [], data, hus, hdata, hlen, ?_, hmem, ?_⟩ hsame,
    hacts.cons ⟨rfl, rfl⟩, ⟨_, List.mem_cons_self⟩⟩
  · simpa using hbound
  · rw [hunits, Function.update_self, List.append_nil]

theorem wnbSyncComplete_ok {args : WriteArgs} {bserrno : Int}
    (h : B.Run s (wnbSyncComplete args bserrno) t s' o) (hok : CompletedOk t) :
    B.Written s s' args.blob args.payload args.offset.toNat args.length.toNat ∧
      ActsOn args.blob args.payload t ∧
      Issues t (.ioWrite args.blob args.payload args.offset args.length) := by
  unfold wnbSyncComplete at h
  by_cases hzero : bserrno = 0
  · rw [if_neg (not_not.mpr hzero)] at h
    exact wnbWrite_ok h hok
  · rw [if_pos hzero] at h
    exact absurd hok (not_completedOk_error hzero h)

theorem Issues.cons {r : Request} {e : (r : Request) × Response r} (h : Issues t r) :
    Issues (e :: t) r := by
  obtain ⟨x, hx⟩ := h
  exact ⟨x, List.mem_cons_of_mem _ hx⟩

/-- After a resize. -/
theorem wnbResizeComplete_ok {args : WriteArgs} {bserrno : Int}
    (h : B.Run s (wnbResizeComplete args bserrno) t s' o) (hok : CompletedOk t) :
    bserrno = 0 ∧ B.Written s s' args.blob args.payload args.offset.toNat args.length.toNat ∧
      ActsOn args.blob args.payload t ∧
      Issues t (.ioWrite args.blob args.payload args.offset args.length) := by
  unfold wnbResizeComplete at h
  by_cases hzero : bserrno = 0
  · refine ⟨hzero, ?_⟩
    rw [if_neg (not_not.mpr hzero)] at h
    obtain ⟨n, s₁, t₁, rfl, hclusters, hrest⟩ := Run.call_iff.mp h
    obtain ⟨rc, s₂, t₂, rfl, hsync, hrest⟩ := Run.call_iff.mp hrest
    rw [completedOk_cons (by simp), completedOk_cons (by simp)] at hok
    obtain ⟨hwritten, hacts, hissues⟩ := wnbSyncComplete_ok hrest hok
    refine ⟨Blobstore.Written.of_same ((B.same_of_quiet hclusters rfl).trans
      (B.same_of_quiet hsync rfl)) hwritten, ?_, hissues.cons.cons⟩
    exact (hacts.cons (by exact rfl)).cons (by trivial)
  · rw [if_pos hzero] at h
    exact absurd hok (not_completedOk_error hzero h)

theorem le_add_of_room {clusters free more : UInt64} (hroom : ¬ free < more)
    (hcount : clusters.toNat + free.toNat < 2 ^ 64) : clusters ≤ clusters + more := by
  have hle := UInt64.le_iff_toNat_le.mp (UInt64.not_lt.mp hroom)
  refine UInt64.le_iff_toNat_le.mpr ?_
  rw [UInt64.toNat_add, Nat.mod_eq_of_lt]
  · exact Nat.le_add_right _ _
  · exact Nat.lt_of_le_of_lt (Nat.add_le_add_left hle _) hcount

/-- After the open, with the blob that it gave. -/
theorem wnbOpenComplete_ok {args : WriteArgs} {blb : BlobId} {bserrno : Int} {us : List α}
    (hblob : B.units s blb = some us) (h : B.Run s (wnbOpenComplete args blb bserrno) t s' o)
    (hok : CompletedOk t) :
    bserrno = 0 ∧ B.Written s s' blb args.payload args.offset.toNat args.length.toNat ∧
      ActsOn blb args.payload t ∧
      Issues t (.ioWrite blb args.payload args.offset args.length) := by
  unfold wnbOpenComplete at h
  by_cases hzero : bserrno = 0
  · refine ⟨hzero, ?_⟩
    rw [if_neg (not_not.mpr hzero)] at h
    obtain ⟨channel, s₁, t₁, rfl, hchannel, hrest⟩ := Run.request_iff.mp h
    rw [completedOk_cons (by simp)] at hok
    cases channel with
    | false =>
        dsimp only at hrest
        rw [if_pos rfl] at hrest
        exact absurd hok (not_completedOk_error (by decide) hrest)
    | true =>
        dsimp only at hrest
        rw [if_neg (by simp)] at hrest
        obtain ⟨clusters, s₂, t₂, rfl, hclusters, hrest⟩ := Run.request_iff.mp hrest
        obtain ⟨ioUnits, s₃, t₃, rfl, hioUnits, hrest⟩ := Run.request_iff.mp hrest
        rw [completedOk_cons (by simp), completedOk_cons (by simp)] at hok
        have hsame : B.Same s s₃ := (B.same_of_quiet hchannel rfl).trans
          ((B.same_of_quiet hclusters rfl).trans (B.same_of_quiet hioUnits rfl))
        split at hrest
        · obtain ⟨free, s₄, t₄, rfl, hfree, hrest⟩ := Run.request_iff.mp hrest
          rw [completedOk_cons (by simp)] at hok
          split at hrest
          · exact absurd hok (not_completedOk_error (by decide) hrest)
          · rename_i hroom
            obtain ⟨rc, s₅, t₅, rfl, hresize, hrest⟩ := Run.request_iff.mp hrest
            rw [completedOk_cons (by simp)] at hok
            obtain ⟨rfl, hwritten, hacts, hissues⟩ := wnbResizeComplete_ok hrest hok
            have hsame₄ := hsame.trans (B.same_of_quiet hfree rfl)
            have hcount := B.freeClusterCount hfree blb
            have hclusters₄ : B.clusters s₄ blb = clusters := by
              rw [(B.quiet hfree rfl).2.1, (B.quiet hioUnits rfl).2.1, (B.quiet hclusters rfl).2.1,
                ← B.numClusters hclusters]
            rw [(B.quiet hioUnits rfl).2.1, (B.quiet hclusters rfl).2.1,
              ← B.numClusters hclusters] at hcount
            have hgrow := hclusters₄.trans_le (le_add_of_room hroom hcount)
            obtain ⟨-, hmem, hgrown⟩ := B.resized hresize
            obtain ⟨more, hmore⟩ := hgrown hgrow us (by rw [hsame₄.1, hblob])
            obtain ⟨us₅, more₅, data, hus₅, hdata, hlen, hbound, hmem₅, hafter⟩ := hwritten
            obtain rfl : us ++ more = us₅ := Option.some.inj (hmore.symm.trans hus₅)
            refine ⟨⟨us, more ++ more₅, data, hblob, ?_, hlen, ?_, ?_, ?_⟩, ?_, ?_⟩
            · rw [← hsame₄.2, ← hmem]
              exact hdata
            · rwa [← List.append_assoc]
            · rw [hmem₅, hmem, hsame₄.2]
            · rwa [← List.append_assoc]
            · exact ((((hacts.cons (by exact rfl)).cons (by trivial)).cons (by trivial)).cons
                (by trivial)).cons (by trivial)
            · exact hissues.cons.cons.cons.cons.cons
        · obtain ⟨hwritten, hacts, hissues⟩ := wnbWrite_ok hrest hok
          exact ⟨hwritten.of_same hsame, ((hacts.cons (by trivial)).cons (by trivial)).cons
            (by trivial),
            hissues.cons.cons.cons⟩
  · rw [if_pos hzero] at h
    exact absurd hok (not_completedOk_error hzero h)

theorem wnbOpenComplete_error {args : WriteArgs} {blb : BlobId} {bserrno : Int} (hne : bserrno ≠ 0)
    (h : B.Run s (wnbOpenComplete args blb bserrno) t s' o) : ¬ CompletedOk t := by
  unfold wnbOpenComplete at h
  rw [if_pos hne] at h
  exact not_completedOk_error hne h

/-- `write_normal_blob` with a block in which `malloc` left `args`: the data comes from
the address that was in the block's `payload`. -/
theorem writeNormalBlob_ok {blobid : BlobId} {payload : Address} {offset length : UInt64}
    {args : WriteArgs}
    (h : B.Run s (writeNormalBlob blobid payload offset length)
      (⟨.mallocWriteArgs, some args⟩ :: t) s' o) (hok : CompletedOk t) :
    B.Written s s' blobid args.payload offset.toNat length.toNat ∧ ActsOn blobid args.payload t ∧
      Issues t (.ioWrite blobid args.payload offset length) := by
  obtain ⟨block, s₁, t₁, heq, hmalloc, hrest⟩ := Run.request_iff.mp h
  obtain ⟨hblock, rfl⟩ := List.cons.inj heq
  obtain rfl : some args = block := eq_of_heq (Sigma.mk.inj hblock).2
  obtain ⟨clusterSize, s₂, t₂, rfl, hclusterSize, hrest⟩ := Run.request_iff.mp hrest
  obtain ⟨ioUnitSize, s₃, t₃, rfl, hioUnitSize, hrest⟩ := Run.request_iff.mp hrest
  obtain ⟨⟨blb, rc⟩, s₄, t₄, rfl, hopen, hrest⟩ := Run.request_iff.mp hrest
  rw [completedOk_cons (by simp), completedOk_cons (by simp)] at hok
  replace hok := (completedOk_cons (by simp)).mp hok
  have hsame₃ : B.Same s s₃ := (B.same_of_quiet hmalloc rfl).trans
    ((B.same_of_quiet hclusterSize rfl).trans (B.same_of_quiet hioUnitSize rfl))
  have hsame : B.Same s s₄ := hsame₃.trans (B.same_of_quiet hopen rfl)
  by_cases hzero : rc = 0
  · subst hzero
    obtain ⟨rfl, us, hus⟩ := B.opened hopen
    obtain ⟨-, hwritten, hacts, hissues⟩ :=
      wnbOpenComplete_ok (by rw [(B.same_of_quiet hopen rfl).1, hus]) hrest hok
    exact ⟨hwritten.of_same hsame, ((hacts.cons (by exact rfl)).cons (by trivial)).cons
      (by trivial),
      hissues.cons.cons.cons⟩
  · exact absurd hok (wnbOpenComplete_error hzero hrest)

theorem rnbOpenComplete_error {args : ReadArgs} {blb : BlobId} {bserrno : Int} (hne : bserrno ≠ 0)
    (h : B.Run s (rnbOpenComplete args blb bserrno) t s' o) : ¬ CompletedOk t := by
  unfold rnbOpenComplete at h
  rw [if_pos hne] at h
  exact not_completedOk_error hne h

/-- `read_normal_blob` with a block in which `malloc` left `args`: the data comes from
the blob that was in the block's `blobid`. -/
theorem readNormalBlob_ok {blobid : BlobId} {payload : Address} {offset length : UInt64}
    {args : ReadArgs}
    (h : B.Run s (readNormalBlob blobid payload offset length)
      (⟨.mallocReadArgs, some args⟩ :: t) s' o) (hok : CompletedOk t) :
    (∃ us old, B.units s args.blobid = some us ∧ offset.toNat + length.toNat ≤ us.length ∧
      B.units s' = B.units s ∧ B.mem s' payload = some ((us.drop offset.toNat).take length.toNat ++
        old)) ∧ ActsOn args.blobid payload t ∧ Issues t (.openBlob args.blobid) := by
  obtain ⟨block, s₁, t₁, heq, hmalloc, hrest⟩ := Run.request_iff.mp h
  obtain ⟨hblock, rfl⟩ := List.cons.inj heq
  obtain rfl : some args = block := eq_of_heq (Sigma.mk.inj hblock).2
  obtain ⟨⟨blb, rc⟩, s₂, t₂, rfl, hopen, hrest⟩ := Run.request_iff.mp hrest
  replace hok := (completedOk_cons (by simp)).mp hok
  have hsame : B.Same s s₂ := (B.same_of_quiet hmalloc rfl).trans (B.same_of_quiet hopen rfl)
  by_cases hzero : rc = 0
  · subst hzero
    obtain ⟨rfl, -⟩ := B.opened hopen
    obtain ⟨channel, s₃, t₃, rfl, hchannel, hrest⟩ := Run.request_iff.mp hrest
    rw [completedOk_cons (by simp)] at hok
    have hsame₃ : B.Same s s₃ := hsame.trans (B.same_of_quiet hchannel rfl)
    cases channel with
    | false =>
        dsimp only at hrest
        rw [if_pos rfl] at hrest
        exact absurd hok (not_completedOk_error (by decide) hrest)
    | true =>
        dsimp only at hrest
        rw [if_neg (by simp)] at hrest
        obtain ⟨rc, s₄, t₄, rfl, hread, hrest⟩ := Run.request_iff.mp hrest
        replace hok := (completedOk_cons (by simp)).mp hok
        obtain ⟨rfl, hsame₄, hacts⟩ := ioComplete_ok hrest hok
        obtain ⟨us, old, hus, hold, hbound, hlen, hunits, hmem⟩ := B.read hread
        refine ⟨⟨us, old.drop length.toNat, hsame₃.1 ▸ hus, hbound, ?_, ?_⟩, ?_, ?_⟩
        · rw [hsame₄.1, hunits, hsame₃.1]
        · rw [hsame₄.2, hmem, Function.update_self]
        · exact ((hacts.cons (by exact ⟨rfl, rfl⟩)).cons (by trivial)).cons (by exact rfl)
        · exact ⟨_, List.mem_cons_self⟩
  · exact absurd hok (rnbOpenComplete_error hzero hrest)

/-- The law of a write from `s` to `s'` and a later read from `r` to `r'`: both act on the
blob and the memory of the caller, the buffer holds the payload, and the units outside
the range that were there before are as they were. -/
structure RoundTrip (B : Blobstore α) (blobid : BlobId) (payload buffer : Address)
    (offset length : UInt64) (s r' : B.State) (tw tr : Trace Response) : Prop where
  writes : ActsOn blobid payload tw
  reads : ActsOn blobid buffer tr
  contents : ∃ data rest, B.mem s payload = some data ∧ length.toNat ≤ data.length ∧
    B.mem r' buffer = some (data.take length.toNat ++ rest)
  outside : ∀ us, B.units s blobid = some us → ∃ us', B.units r' blobid = some us' ∧
    us.length ≤ us'.length ∧ ∀ i, i < us.length →
      i < offset.toNat ∨ offset.toNat + length.toNat ≤ i → us'[i]? = us[i]?

/-- What is written in place of a part of a list is found there, and the rest elsewhere. -/
theorem take_drop_replaced {us data : List α} {offset length : Nat}
    (hbound : offset + length ≤ us.length) (hdata : data.length = length) :
    ((us.take offset ++ data ++ us.drop (offset + length)).drop offset).take length = data := by
  have hoffset : (us.take offset).length = offset :=
    List.length_take_of_le (Nat.le_of_add_right_le hbound)
  rw [List.append_assoc, List.drop_append_of_le_length (Nat.le_of_eq hoffset.symm),
    List.drop_eq_nil_of_le (Nat.le_of_eq hoffset), List.nil_append,
    List.take_append_of_le_length (Nat.le_of_eq hdata.symm),
    List.take_of_length_le (Nat.le_of_eq hdata)]

theorem getElem?_replaced {us data : List α} {offset length i : Nat}
    (hbound : offset + length ≤ us.length) (hdata : data.length = length)
    (hi : i < offset ∨ offset + length ≤ i) :
    (us.take offset ++ data ++ us.drop (offset + length))[i]? = us[i]? := by
  have hoffset : (us.take offset).length = offset :=
    List.length_take_of_le (Nat.le_of_add_right_le hbound)
  rcases hi with hi | hi
  · rw [List.append_assoc, List.getElem?_append_left (by rwa [hoffset]),
      List.getElem?_take_of_lt hi]
  · rw [List.getElem?_append_right (by rw [List.length_append, hoffset, hdata]; exact hi),
      List.length_append, hoffset, hdata, List.getElem?_drop, Nat.add_sub_cancel' hi]

/-- A write and a read that both complete with 0, with no write in between, meet the law
exactly when `malloc` left the caller's payload in the block of the write and the
caller's blob id in the block of the read. -/
theorem roundTrip_iff {blobid : BlobId} {payload buffer : Address} {offset length : UInt64}
    {s s' r r' : B.State} {wargs : WriteArgs} {rargs : ReadArgs} {tw tr : Trace Response}
    {ow or : Option Unit}
    (hw : B.Run s (writeNormalBlob blobid payload offset length)
      (⟨.mallocWriteArgs, some wargs⟩ :: tw) s' ow) (hwok : CompletedOk tw)
    (hstill : B.units r = B.units s')
    (hr : B.Run r (readNormalBlob blobid buffer offset length)
      (⟨.mallocReadArgs, some rargs⟩ :: tr) r' or) (hrok : CompletedOk tr) :
    RoundTrip B blobid payload buffer offset length s r' tw tr ↔
      wargs.payload = payload ∧ rargs.blobid = blobid := by
  obtain ⟨hwritten, hwacts, x, hwissues⟩ := writeNormalBlob_ok hw hwok
  obtain ⟨hread, hracts, y, hrissues⟩ := readNormalBlob_ok hr hrok
  constructor
  · intro h
    exact ⟨(h.writes _ hwissues).2, h.reads _ hrissues⟩
  · rintro ⟨rfl, rfl⟩
    obtain ⟨us, more, data, hus, hdata, hlen, hbound, -, hafter⟩ := hwritten
    obtain ⟨us', old, hus', hbound', hunits, hmem⟩ := hread
    have htake : (data.take length.toNat).length = length.toNat := List.length_take_of_le hlen
    rw [hstill, hafter] at hus'
    obtain rfl := Option.some.inj hus'
    refine ⟨hwacts, hracts, ⟨data, old, hdata, hlen, ?_⟩, fun us₀ hus₀ => ?_⟩
    · rw [hmem, take_drop_replaced hbound htake]
    · obtain rfl : us = us₀ := Option.some.inj (hus.symm.trans hus₀)
      refine ⟨_, by rw [hunits, hstill, hafter], ?_, fun i hi hout => ?_⟩
      · simp only [List.length_append, List.length_take, List.length_drop] at hbound ⊢
        omega
      · rw [getElem?_replaced hbound htake hout, List.getElem?_append_left hi]

end runs

/-! ### One unit, written and read -/

/-- Blobs 1 and 2 of one unit each, and three buffers. -/
def twoBlobs : MemStore Nat where
  blobs := fun id => if id = 1 then some [0] else if id = 2 then some [5] else none
  clusters := fun _ => 1
  mem := fun a => if a = 10 then some [7] else if a = 11 then some [8] else some [0]

/-- The same with a value in the first blob. -/
def twoBlobsWith (x : Nat) : MemStore Nat :=
  { twoBlobs with blobs := Function.update twoBlobs.blobs 1 (some [x]) }

/-- Writing the unit of blob 1 from an address with one value. -/
theorem write_twoBlobs (args : WriteArgs) (payload : Address) {x : Nat}
    (hx : twoBlobs.mem args.payload = some [x]) :
    ∃ tw, (MemStore.blobstore 0).Run twoBlobs (writeNormalBlob 1 payload 0 1)
      (⟨.mallocWriteArgs, some args⟩ :: tw) (twoBlobsWith x) (some ()) ∧ CompletedOk tw := by
  refine ⟨[⟨.clusterSize, (1 : UInt64)⟩, ⟨.ioUnitSize, (1 : UInt64)⟩,
    ⟨.openBlob 1, ((1, 0) : BlobId × Int)⟩, ⟨.allocIoChannel, true⟩,
    ⟨.numClusters 1, (1 : UInt64)⟩, ⟨.numIoUnits 1, (1 : UInt64)⟩,
    ⟨.ioWrite 1 args.payload 0 1, (0 : Int)⟩, ⟨.freeIoChannel, ()⟩, ⟨.closeBlob 1, (0 : Int)⟩,
    ⟨.callback 0, ()⟩], ?_, ⟨(), by simp⟩⟩
  have hwrite : MemStore.respond 0 twoBlobs (.ioWrite 1 args.payload 0 1) (0 : Int)
      (twoBlobsWith x) :=
    Or.inl ⟨rfl, [0], [x], rfl, hx, Nat.le_refl 1, Nat.le_refl 1, rfl⟩
  have hopen : MemStore.respond 0 twoBlobs (.openBlob 1) ((1, 0) : BlobId × Int) twoBlobs :=
    ⟨rfl, fun _ => ⟨rfl, [0], rfl⟩⟩
  exact .call rfl (.call rfl (.call rfl (.call hopen (.call rfl (.call ⟨rfl, rfl⟩
    (.call ⟨rfl, rfl⟩ (.call hwrite (.call rfl (.call rfl (.call rfl .ret))))))))))

/-- Reading the unit of a blob. -/
theorem read_twoBlobs (args : ReadArgs) (blobid : BlobId) {x y : Nat}
    (hy : (twoBlobsWith x).blobs args.blobid = some [y]) :
    ∃ tr r', (MemStore.blobstore 0).Run (twoBlobsWith x) (readNormalBlob blobid 20 0 1)
      (⟨.mallocReadArgs, some args⟩ :: tr) r' (some ()) ∧ CompletedOk tr := by
  refine ⟨[⟨.openBlob args.blobid, ((args.blobid, 0) : BlobId × Int)⟩, ⟨.allocIoChannel, true⟩,
    ⟨.ioRead args.blobid 20 0 1, (0 : Int)⟩, ⟨.freeIoChannel, ()⟩,
    ⟨.closeBlob args.blobid, (0 : Int)⟩, ⟨.callback 0, ()⟩],
    { twoBlobsWith x with mem := Function.update twoBlobs.mem 20 (some [y]) }, ?_, ⟨(), by simp⟩⟩
  have hread : MemStore.respond 0 (twoBlobsWith x) (.ioRead args.blobid 20 0 1) (0 : Int)
      { twoBlobsWith x with mem := Function.update twoBlobs.mem 20 (some [y]) } :=
    Or.inl ⟨rfl, [y], [0], hy, rfl, Nat.le_refl 1, Nat.le_refl 1, rfl⟩
  have hopen : MemStore.respond 0 (twoBlobsWith x) (.openBlob args.blobid)
      ((args.blobid, 0) : BlobId × Int) (twoBlobsWith x) := ⟨rfl, fun _ => ⟨rfl, [y], hy⟩⟩
  exact .call rfl (.call hopen (.call rfl (.call hread (.call rfl (.call rfl (.call rfl .ret))))))

/-- A block whose `payload` is an address. -/
def writeBlock (payload : Address) : WriteArgs := ⟨0, 0, false, payload, 0, 0, 0, 0⟩

/-- A block whose `blobid` is an id. -/
def readBlock (blobid : BlobId) : ReadArgs := ⟨0, false, blobid, 0, 0, 0⟩

/-- Blocks that happen to hold the payload and the blob id already. -/
theorem roundTrip_lucky : ∃ r' tw tr,
    RoundTrip (MemStore.blobstore 0) 1 10 20 0 1 twoBlobs r' tw tr := by
  obtain ⟨tw, hw, hwok⟩ := write_twoBlobs (writeBlock 10) 10 (x := 7) rfl
  obtain ⟨tr, r', hr, hrok⟩ := read_twoBlobs (readBlock 1) 1 (x := 7) (y := 7) rfl
  exact ⟨r', tw, tr, (roundTrip_iff hw hwok rfl hr hrok).mpr ⟨rfl, rfl⟩⟩

/-- With the other buffer's address left in the block, its value is written instead. -/
theorem roundTrip_unset : ¬ ∀ (B : Blobstore Nat) (blobid : BlobId) (payload buffer : Address)
    (offset length : UInt64) (s s' r r' : B.State) (wargs : WriteArgs) (rargs : ReadArgs)
    (tw tr : Trace Response) (ow or : Option Unit),
    B.Run s (writeNormalBlob blobid payload offset length)
      (⟨.mallocWriteArgs, some wargs⟩ :: tw) s' ow → CompletedOk tw → B.units r = B.units s' →
    B.Run r (readNormalBlob blobid buffer offset length)
      (⟨.mallocReadArgs, some rargs⟩ :: tr) r' or → CompletedOk tr →
    RoundTrip B blobid payload buffer offset length s r' tw tr := by
  intro hlaw
  obtain ⟨tw, hw, hwok⟩ := write_twoBlobs (writeBlock 11) 10 (x := 8) rfl
  obtain ⟨tr, r', hr, hrok⟩ := read_twoBlobs (readBlock 2) 1 (x := 8) (y := 5) rfl
  have hfalse := hlaw _ 1 10 20 0 1 _ _ _ _ _ _ tw tr _ _ hw hwok rfl hr hrok
  obtain ⟨-, -, x, hissues⟩ := writeNormalBlob_ok hw hwok
  exact absurd (hfalse.writes _ hissues).2 (by decide)

end Nbfs.Nbfs2
