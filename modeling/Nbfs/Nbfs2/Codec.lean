import Nbfs.Nbfs2.Rebuild
import Nbfs.Nbfs2.Accounting
import Nbfs.Lib.Bytes

set_option autoImplicit false

/-!
# The table on the superblob and back

What `_nbfs2_write_htable` puts in its buffer, byte by byte, and what `_nbfs2_build_htable`
makes of it.  The one record that is filled again and again keeps behind each name what
longer names left there.
-/

namespace Nbfs.Nbfs2

open Nbfs.Lib Conv

/-! ## Records in memory -/

/-- `struct _nbfs2_super_block_meta_data`. -/
structure SuperBlockMetaData where
  blobid : BlobId
  name : List UInt8
  size : name.length = maxfilename

namespace SuperBlockMetaData

/-- `strcpy(spb_mdata->name, key)`, of a key that fits. -/
def strcpyName (mdata : SuperBlockMetaData) (key : CString) : SuperBlockMetaData where
  blobid := mdata.blobid
  name := (key.bytes ++ 0 :: mdata.name.drop (key.strlen + 1)).take maxfilename
  size := by
    have hsize := mdata.size
    have hlen : key.bytes.length = key.strlen := rfl
    simp only [List.length_take, List.length_append, List.length_cons, List.length_drop]
    omega

/-- The string that begins at `name`. -/
def string (mdata : SuperBlockMetaData) : CString where
  bytes := mdata.name.takeWhile (· ≠ 0)
  nulFree := fun hmem => by simpa using List.mem_takeWhile_imp hmem

/-- The bytes of a record. -/
def bytes (mdata : SuperBlockMetaData) : List UInt8 := leBytes 8 mdata.blobid.toNat ++ mdata.name

/-- The record with these bytes; there is always a whole one. -/
def ofBytes (bytes : List UInt8) : SuperBlockMetaData where
  blobid := UInt64.ofNat (ofLe (bytes.take 8))
  name := (bytes.drop 8 ++ List.replicate maxfilename 0).take maxfilename
  size := by
    simp only [List.length_take, List.length_append, List.length_replicate]
    omega

theorem bytes_length (mdata : SuperBlockMetaData) : mdata.bytes.length = metaDataSize.toNat := by
  rw [bytes, List.length_append, length_leBytes, mdata.size]
  rfl

/-- A record is read back from its bytes. -/
theorem ofBytes_bytes (mdata : SuperBlockMetaData) : ofBytes mdata.bytes = mdata := by
  obtain ⟨blobid, name, size⟩ := mdata
  have htake : (leBytes 8 blobid.toNat ++ name).take 8 = leBytes 8 blobid.toNat :=
    List.take_left' (length_leBytes 8 _)
  have hdrop : (leBytes 8 blobid.toNat ++ name).drop 8 = name :=
    List.drop_left' (length_leBytes 8 _)
  have hid : UInt64.ofNat (blobid.toNat % 256 ^ 8) = blobid := by
    rw [Nat.mod_eq_of_lt (lt_of_lt_of_eq blobid.toNat_lt (by decide)), UInt64.ofNat_toNat]
  simp only [ofBytes, bytes, htake, hdrop, ofLe_leBytes, hid, List.take_left' size]

/-- The string that was copied is read back, whatever there was behind it. -/
theorem string_strcpyName (mdata : SuperBlockMetaData) {key : CString}
    (h : key.strlen < maxfilename) : (mdata.strcpyName key).string = key := by
  refine CString.ext_bytes ?_
  have hlen : key.bytes.length = key.strlen := rfl
  have hnul : ∀ c ∈ key.bytes, decide (c ≠ 0) = true := by
    intro c hc
    refine decide_eq_true fun hzero => key.nulFree ?_
    rwa [← hzero]
  have hname : (mdata.strcpyName key).name =
      key.bytes ++ 0 :: (mdata.name.drop (key.strlen + 1)).take (maxfilename - key.strlen - 1) := by
    obtain ⟨k, hk⟩ := Nat.exists_eq_add_of_lt h
    simp only [strcpyName]
    rw [List.take_append, List.take_of_length_le (by omega), hlen, hk,
      show key.strlen + k + 1 - key.strlen = k + 1 by omega, List.take_succ_cons,
      Nat.add_sub_cancel]
  change (mdata.strcpyName key).name.takeWhile (fun c => decide (c ≠ 0)) = key.bytes
  rw [hname, List.takeWhile_append_of_pos hnul, List.takeWhile_cons_of_neg (by decide),
    List.append_nil]

end SuperBlockMetaData

/-- The record that both loops use, and the buffer. -/
structure RecordMemory where
  mdata : SuperBlockMetaData
  buffer : List UInt8

/-- Success, for what is not answered otherwise. -/
instance : (r : Request) → Inhabited (Response r)
  | .bsInit | .bsLoad | .bsUnload | .setSuper _ | .setXattr .. | .deleteBlob _ | .closeBlob _
  | .syncMd _ | .resize .. | .ioWrite .. | .ioRead .. => ⟨(0 : Int)⟩
  | .getSuper | .createBlob | .openBlob _ => ⟨((0, 0) : BlobId × Int)⟩
  | .getXattr .. => ⟨((0, 0) : Int × UInt64)⟩
  | .allocIoChannel | .mallocFile | .mallocCreateArgs | .mallocMdata | .mallocBlobidString
  | .mallocTable | .mallocItem => ⟨true⟩
  | .numClusters _ | .numIoUnits _ | .freeClusterCount | .clusterSize | .ioUnitSize =>
      ⟨(0 : UInt64)⟩
  | .mallocWriteArgs => ⟨(none : Option WriteArgs)⟩
  | .mallocReadArgs => ⟨(none : Option ReadArgs)⟩
  | .spdkMalloc _ => ⟨(none : Option Address)⟩
  | .getMdata .. => ⟨((default, 0) : CString × BlobId)⟩
  | .putMdata .. | .freeIoChannel | .callback _ | .appStop _ => ⟨()⟩

namespace RecordMemory

/-- The two `memcpy`s between the record and the buffer; every other request of the loops is an
allocation, and succeeds. -/
def answer (s : RecordMemory) : (r : Request) → Response r × RecordMemory
  | .putMdata _ index name id =>
      let mdata := { s.mdata.strcpyName name with blobid := id }
      ((), ⟨mdata, blit s.buffer (metaDataSize.toNat * index) mdata.bytes⟩)
  | .getMdata _ index =>
      let mdata := SuperBlockMetaData.ofBytes
        (slice s.buffer (metaDataSize.toNat * index) metaDataSize.toNat)
      ((mdata.string, mdata.blobid), ⟨mdata, s.buffer⟩)
  | .mallocMdata | .mallocBlobidString | .mallocItem => (true, s)
  | _ => (default, s)

/-- The record at a place of the buffer. -/
def record (buffer : List UInt8) (index : Nat) : CString × BlobId :=
  let mdata := SuperBlockMetaData.ofBytes
    (slice buffer (metaDataSize.toNat * index) metaDataSize.toNat)
  (mdata.string, mdata.blobid)

/-- `n` records from a place on. -/
def records (buffer : List UInt8) (index n : Nat) : List (CString × BlobId) :=
  (List.range' index n).map (record buffer)

section put

variable {s : RecordMemory} {buffer : Address} {index : Nat} {name : CString} {id : BlobId}

/-- A record that is put into the buffer is there, and those before it stay. -/
theorem record_put (hname : name.strlen < maxfilename)
    (hfits : metaDataSize.toNat * (index + 1) ≤ s.buffer.length) :
    (s.answer (.putMdata buffer index name id)).2.buffer.length = s.buffer.length ∧
      record (s.answer (.putMdata buffer index name id)).2.buffer index = (name, id) ∧
      ∀ j < index, record (s.answer (.putMdata buffer index name id)).2.buffer j =
        record s.buffer j := by
  obtain ⟨mdata, hmdata⟩ : ∃ mdata : SuperBlockMetaData,
      mdata = { s.mdata.strcpyName name with blobid := id } := ⟨_, rfl⟩
  have hbytes := mdata.bytes_length
  have hput : (s.answer (.putMdata buffer index name id)).2.buffer =
      blit s.buffer (metaDataSize.toNat * index) mdata.bytes := by
    rw [hmdata]
    rfl
  have hroom : metaDataSize.toNat * index + mdata.bytes.length ≤ s.buffer.length := by
    rw [hbytes, ← Nat.mul_succ]
    exact hfits
  rw [hput]
  refine ⟨length_blit hroom, ?_, fun j hj => ?_⟩
  · have hself := slice_blit_self hroom
    rw [hbytes] at hself
    have hstring : mdata.string = name := by
      rw [hmdata]
      exact s.mdata.string_strcpyName hname
    have hid : mdata.blobid = id := by rw [hmdata]
    rw [record, hself, SuperBlockMetaData.ofBytes_bytes, hstring, hid]
  · have hbefore : metaDataSize.toNat * j + metaDataSize.toNat ≤ metaDataSize.toNat * index := by
      rw [← Nat.mul_succ]
      exact Nat.mul_le_mul_left _ hj
    rw [record, slice_blit_before hroom hbefore, record]

end put

end RecordMemory

/-! ## The two loops -/

/-- `_nbfs2_write_htable` up to the size that it stores. -/
def MountedFs.writeRecords (m : MountedFs) (writeBuff : Option Address) : Async UInt64 := do
  let items ← ofOption (MountedFs.tableItems m.fs.table m.htSize.toNat)
  MountedFs.writeLoop writeBuff m.fs.spbDataSize 0 items
  return UInt64.ofNat items.length * metaDataSize

theorem MountedFs.writeHtable_eq (m : MountedFs) (writeBuff : Option Address) :
    m.writeHtable writeBuff = (do
      if ← mallocMdata then
        let spbDataSize ← m.writeRecords writeBuff
        { m with fs := { m.fs with spbDataSize := spbDataSize } }.writeData writeBuff
      else m.failed (-enomem)) := by
  refine congrArg (Conv.call Request.mallocMdata) (funext fun ok => ?_)
  change Bool at ok
  cases ok with
  | false => rfl
  | true =>
      change (ofOption _ >>= _) = ((ofOption _ >>= _) >>= _)
      rw [Conv.bind_assoc]
      refine congrArg _ (funext fun items => ?_)
      rw [Conv.bind_assoc]
      rfl

section loops

variable {buffer : Address} {size : UInt64}

open RecordMemory

/-- Writing the records of items puts them into the buffer one after the other. -/
theorem writeLoop_eval {items : List HtItem} : ∀ {index : Nat} {s : RecordMemory},
    (∀ item ∈ items, item.key.strlen < maxfilename) →
    metaDataSize.toNat * (index + items.length) ≤ size.toNat → s.buffer.length = size.toNat →
    ∃ s', (MountedFs.writeLoop (some buffer) size index items).eval answer s = some ((), s') ∧
      records s'.buffer index items.length =
        items.map (fun item => (item.key, char2blobid item.value)) ∧
      ∀ j < index, record s'.buffer j = record s.buffer j := by
  induction items with
  | nil => exact fun _ _ _ => ⟨_, rfl, rfl, fun _ _ => rfl⟩
  | cons item items ih =>
      intro index s hkeys hsize hbuffer
      rw [List.length_cons] at hsize
      have hkey := hkeys item List.mem_cons_self
      have hroom : metaDataSize.toNat * (index + 1) ≤ size.toNat :=
        le_trans (Nat.mul_le_mul_left _ (by omega)) hsize
      obtain ⟨hlength, hself, hbefore⟩ := @record_put s buffer index item.key
        (char2blobid item.value) hkey (hbuffer ▸ hroom)
      obtain ⟨s', heval, hrecords, hkept⟩ := @ih (index + 1)
        (answer s (.putMdata buffer index item.key (char2blobid item.value))).2
        (fun other hother => hkeys other (List.mem_cons_of_mem _ hother))
        (le_trans (Nat.mul_le_mul_left _ (by omega)) hsize) (hlength.trans hbuffer)
      refine ⟨s', ?_, ?_, fun j hj => ?_⟩
      · rw [MountedFs.writeLoop, if_pos ⟨hkey, by rwa [Nat.mul_comm]⟩]
        exact heval
      · rw [List.length_cons, List.map_cons, ← hrecords]
        change record s'.buffer index :: _ = _
        rw [hkept index (Nat.lt_succ_self index), hself]
        rfl
      · rw [hkept j (Nat.lt_succ_of_lt hj), hbefore j hj]

/-- Building enters the records of the buffer one after the other. -/
theorem buildLoop_eval {n : Nat} : ∀ {index : Nat} {t t' : HashTable} {s : RecordMemory},
    runCalls none t ((records s.buffer index n).map enter) = some t' →
    ∃ s', (MountedFs.buildLoop (fun _ => none) (some buffer) n index t).eval answer s =
      some (some t', s') := by
  induction n with
  | zero =>
      intro index t t' s hrun
      obtain rfl := Option.some.inj hrun
      exact ⟨s, rfl⟩
  | succ n ih =>
      intro index t t' s hrun
      rw [show records s.buffer index (n + 1) =
        record s.buffer index :: records s.buffer (index + 1) n from rfl, List.map_cons, runCalls,
        List.foldlM_cons, Option.bind_eq_bind] at hrun
      obtain ⟨t₁, hcall, hrest⟩ := Option.bind_eq_some_iff.mp hrun
      obtain ⟨s', heval⟩ := @ih (index + 1) t₁ t' (answer s (.getMdata buffer index)).2 hrest
      refine ⟨s', ?_⟩
      change (ofOption (htInsert none t (record s.buffer index).1
        (blobid2char (record s.buffer index).2)) >>= _).eval answer _ = _
      rw [show htInsert none t (record s.buffer index).1 (blobid2char (record s.buffer index).2) =
        some t₁ from hcall]
      exact heval

end loops

/-! ## The round trip -/

/-- The table is written to a buffer that holds its records, and built again from the buffer
with the size that was computed: a record was written for each entry, and every search gives
what it gave. -/
def RoundTrips (t : HashTable) : Prop :=
  ∃ entries, tableEntries t = some entries ∧
    ∀ (m : MountedFs) (buffer : Address) (s : RecordMemory), m.fs.table = t →
      m.htSize = initHashtableSize →
      metaDataSize.toNat * entries.length ≤ m.fs.spbDataSize.toNat →
      s.buffer.length = m.fs.spbDataSize.toNat →
      ∃ spbDataSize s₁, (m.writeRecords (some buffer)).eval RecordMemory.answer s =
          some (spbDataSize, s₁) ∧
        spbDataSize.toNat = metaDataSize.toNat * entries.length ∧
        ∀ block, ∃ m' s₂, (({ m with fs := ⟨createTable capacity, spbDataSize⟩ } :
            MountedFs).buildHtable (fun _ => none) (some buffer)).eval RecordMemory.answer
              { s₁ with mdata := block } = some (m', s₂) ∧
          ∀ key, htSearch m'.fs.table key = htSearch t key

theorem MountedFs.mdataNum_eq {m : MountedFs} {n : Nat} (hn : n ≤ 3 * capacity)
    (h : m.fs.spbDataSize.toNat = metaDataSize.toNat * n) : m.mdataNum = n := by
  have hmeta : metaDataSize.toNat = 136 := rfl
  have hcapacity : capacity = 65536 := rfl
  have hdiv : (m.fs.spbDataSize / metaDataSize).toNat = n := by
    rw [UInt64.toNat_div, h, Nat.mul_div_cancel_left _ (by decide)]
  have hword : (m.fs.spbDataSize / metaDataSize).toUInt32.toNat = n := by
    rw [UInt64.toNat_toUInt32, hdiv]
    omega
  have hofNat : (m.fs.spbDataSize / metaDataSize).toUInt32 = UInt32.ofNat n := by
    rw [← hword, UInt32.ofNat_toNat]
  rw [MountedFs.mdataNum, hofNat, UInt32.toInt32_ofNat', Int32.toInt_ofNat_of_lt (by omega)]
  rfl

/-- Writing the records and building again, when the first table of records has the entries. -/
theorem Tidy.codec {t t' : HashTable} {b : Nat → Bucket} (h : Tidy IsRecord t b)
    {entries : List HtItem} (hentries : tableEntries t = some entries)
    (hrun : Nbfs2.runCalls none (Nbfs2.createTable capacity) (entries.map HtItem.enter) = some t')
    {m : MountedFs} {buffer : Address} {s : RecordMemory} (htable : m.fs.table = t)
    (hht : m.htSize = initHashtableSize)
    (hfits : metaDataSize.toNat * entries.length ≤ m.fs.spbDataSize.toNat)
    (hbuffer : s.buffer.length = m.fs.spbDataSize.toNat) :
    ∃ spbDataSize s₁, (m.writeRecords (some buffer)).eval RecordMemory.answer s =
        some (spbDataSize, s₁) ∧
      spbDataSize.toNat = metaDataSize.toNat * entries.length ∧
      ∀ block, ∃ s₂, (({ m with fs := ⟨Nbfs2.createTable capacity, spbDataSize⟩ } :
          MountedFs).buildHtable (fun _ => none) (some buffer)).eval RecordMemory.answer
            { s₁ with mdata := block } =
        some ({ m with fs := ⟨t', spbDataSize⟩ }, s₂) := by
  have hcount : entries.length ≤ 3 * capacity := h.entries_le ⟨entries, hentries, rfl⟩
  have hmem := h.mem_entries hentries
  obtain ⟨s₁, hwrite, hrecords, -⟩ := @writeLoop_eval buffer m.fs.spbDataSize entries 0 s
    (fun item hitem => (hmem item hitem).1) (by rwa [Nat.zero_add]) hbuffer
  have hsize : (UInt64.ofNat entries.length * metaDataSize).toNat =
      metaDataSize.toNat * entries.length := by
    have hmeta : metaDataSize.toNat = 136 := rfl
    have hcapacity : capacity = 65536 := rfl
    rw [UInt64.toNat_mul, UInt64.toNat_ofNat', hmeta, Nat.mod_eq_of_lt (by omega : _ < 2 ^ 64),
      Nat.mod_eq_of_lt (by omega), Nat.mul_comm]
  have henter : (RecordMemory.records s₁.buffer 0 entries.length).map enter =
      entries.map HtItem.enter := by
    rw [hrecords, List.map_map]
    refine List.map_congr_left fun item hitem => ?_
    obtain ⟨-, id, hvalue⟩ := hmem item hitem
    simp only [Function.comp_apply, enter, HtItem.enter, hvalue, char2blobid_blobid2char]
  refine ⟨UInt64.ofNat entries.length * metaDataSize, s₁, ?_, hsize, fun block => ?_⟩
  · have hscan : MountedFs.tableItems m.fs.table m.htSize.toNat = some entries := by
      rw [htable, hht, ← hentries, ← h.sound.1.scan_eq]
      rfl
    have hprogram : m.writeRecords (some buffer) =
        (MountedFs.writeLoop (some buffer) m.fs.spbDataSize 0 entries >>= fun _ =>
          .ret (UInt64.ofNat entries.length * metaDataSize)) := by
      rw [MountedFs.writeRecords, hscan]
      rfl
    rw [hprogram, Conv.eval_bind, hwrite]
    rfl
  · obtain ⟨s₂, hbuild⟩ := @buildLoop_eval buffer entries.length 0 (Nbfs2.createTable capacity) t'
      { s₁ with mdata := block } (henter ▸ hrun)
    refine ⟨s₂, ?_⟩
    have hnum : MountedFs.mdataNum
        { m with fs := ⟨Nbfs2.createTable capacity, UInt64.ofNat entries.length * metaDataSize⟩ } =
          entries.length := MountedFs.mdataNum_eq hcount hsize
    refine Eq.trans (Conv.eval_bind (s := { s₁ with mdata := block })
      (p := MountedFs.buildLoop (fun _ => none) (some buffer) _ 0
        (Nbfs2.createTable capacity))) ?_
    rw [hnum, hbuild]
    rfl

/-- A table of records comes back from its bytes exactly when it is codable. -/
theorem Tidy.comesBack_iff {t : HashTable} {b : Nat → Bucket} (hb : Tidy IsRecord t b) :
    RoundTrips t ↔ Codable t := by
  constructor
  · rintro ⟨entries, hentries, hall⟩
    obtain ⟨t', hrebuild, hsame⟩ := hb.rebuilt hentries
    have hcount : entries.length ≤ 3 * capacity := hb.entries_le ⟨entries, hentries, rfl⟩
    have hsize : (UInt64.ofNat (metaDataSize.toNat * entries.length)).toNat =
        metaDataSize.toNat * entries.length := by
      have hmeta : metaDataSize.toNat = 136 := rfl
      have hcapacity : capacity = 65536 := rfl
      rw [hmeta, UInt64.toNat_ofNat', Nat.mod_eq_of_lt (by omega)]
    obtain ⟨m, hm⟩ : ∃ m : MountedFs, m = ⟨⟨t, UInt64.ofNat (metaDataSize.toNat * entries.length)⟩,
      0, initHashtableSize⟩ := ⟨_, rfl⟩
    obtain ⟨s, hs⟩ : ∃ s : RecordMemory, s.buffer.length = metaDataSize.toNat * entries.length :=
      ⟨⟨.ofBytes [], List.replicate _ 0⟩, List.length_replicate⟩
    have hfits : metaDataSize.toNat * entries.length ≤ m.fs.spbDataSize.toNat := by
      rw [hm]
      exact le_of_eq hsize.symm
    have hbuffer : s.buffer.length = m.fs.spbDataSize.toNat := by
      rw [hm, hs]
      exact hsize.symm
    have htable : m.fs.table = t := by rw [hm]
    have hht : m.htSize = initHashtableSize := by rw [hm]
    obtain ⟨size₁, s₁, hwrite₁, -, hbuild₁⟩ := hall m 0 s htable hht hfits hbuffer
    obtain ⟨size₂, s₂, hwrite₂, -, hbuild₂⟩ :=
      hb.codec hentries hrebuild htable hht hfits hbuffer
    obtain ⟨rfl, rfl⟩ := Prod.mk.inj (Option.some.inj (hwrite₁.symm.trans hwrite₂))
    obtain ⟨m₁, s₃, hrun₁, hsearch⟩ := hbuild₁ s.mdata
    obtain ⟨s₄, hrun₂⟩ := hbuild₂ s.mdata
    obtain ⟨rfl, rfl⟩ := Prod.mk.inj (Option.some.inj (hrun₁.symm.trans hrun₂))
    exact hsame.mp hsearch
  · intro hcodable
    have hclosed := hb.sound.1.codable_iff.mp hcodable
    have hentries : ∃ entries, tableEntries t = some entries := by
      rw [tableEntries, hb.sound.1.size, hb.sound.1.entriesBelow_eq,
        if_pos fun i hi => (hclosed i hi).1]
      exact ⟨_, rfl⟩
    obtain ⟨entries, hentries⟩ := hentries
    obtain ⟨t', hrebuild, hsame⟩ := hb.rebuilt hentries
    refine ⟨entries, hentries, fun m buffer s htable hht hfits hbuffer => ?_⟩
    obtain ⟨spbDataSize, s₁, hwrite, hsize, hbuild⟩ :=
      hb.codec hentries hrebuild htable hht hfits hbuffer
    refine ⟨spbDataSize, s₁, hwrite, hsize, fun block => ?_⟩
    obtain ⟨s₂, hrun₂⟩ := hbuild block
    exact ⟨_, s₂, hrun₂, hsame.mpr hcodable⟩

/-- **The codec.**  A table that calls made, of names that fit and texts of blob ids, comes back
from its bytes exactly when it is codable. -/
theorem roundTrips_iff {calls : List Call} {t : HashTable}
    (hrun : runCalls none (createTable capacity) calls = some t)
    (hcalls : ∀ call ∈ calls, call.Enters IsRecord) : RoundTrips t ↔ Codable t := by
  obtain ⟨b, hb⟩ := Tidy.createTable.runCalls hcalls hrun
  exact hb.comesBack_iff

theorem isRecord_ab (id : BlobId) : IsRecord keyAb (blobid2char id) := ⟨by decide, id, rfl⟩

theorem isRecord_ba (id : BlobId) : IsRecord keyBa (blobid2char id) := ⟨by decide, id, rfl⟩

/-- A table with one entry. -/
theorem roundTrips_one : RoundTrips (oneFile keyAb 5).table := by
  have hrun : runCalls none (createTable capacity) [.insert keyAb (blobid2char 5)] =
      some (oneFile keyAb 5).table := rfl
  refine (roundTrips_iff hrun fun call hcall => ?_).mpr fun i _ item _ => ⟨[], ?_, nofun⟩
  · obtain rfl := List.mem_singleton.mp hcall
    exact isRecord_ab 5
  · rfl

/-- `"ba"` is promoted to the slot with one blob while a later node has it with another. -/
theorem roundTrips_promoted : ¬ ∀ (calls : List Call) (t : HashTable),
    runCalls none (createTable capacity) calls = some t →
      (∀ call ∈ calls, call.Enters IsRecord) → RoundTrips t := by
  intro hall
  obtain ⟨calls, hcalls⟩ : ∃ calls : List Call, calls = [.insert keyAb (blobid2char 5),
    .insert keyBa (blobid2char 6), .insert keyBa (blobid2char 7), .delete keyAb] := ⟨_, rfl⟩
  have henters : ∀ call ∈ calls, call.Enters IsRecord := by
    intro call hcall
    rw [hcalls] at hcall
    simp only [List.mem_cons, List.not_mem_nil, or_false] at hcall
    rcases hcall with rfl | rfl | rfl | rfl
    · exact isRecord_ab 5
    · exact isRecord_ba 6
    · exact isRecord_ba 7
    · trivial
  obtain ⟨t, ht⟩ : ∃ t, runCalls none (createTable capacity) calls = some t := by
    rw [hcalls]
    exact ⟨_, rfl⟩
  have hslot : (t.items (hashFunction keyBa)).map (fun item => (item.key, item.value)) =
      some (keyBa, blobid2char 6) := by
    rw [hcalls] at ht
    cases ht
    rfl
  have hchain : (overflowItems t (hashFunction keyBa)).map (List.map fun item =>
      (item.key, item.value)) = some [(keyBa, blobid2char 7)] := by
    rw [hcalls] at ht
    cases ht
    rfl
  obtain ⟨b, hb⟩ := Tidy.createTable.runCalls henters ht
  have hcodable := hb.comesBack_iff.mp (hall calls t ht henters)
  obtain ⟨item, hitem, hboth⟩ := Option.map_eq_some_iff.mp hslot
  obtain ⟨hkey, hvalue⟩ := Prod.mk.inj hboth
  have hlt : hashFunction keyBa < t.size := hb.sound.1.size ▸ hashFunction_lt keyBa
  obtain ⟨chain, hlist, hlast⟩ := hcodable _ hlt item hitem
  rw [hlist] at hchain
  obtain ⟨last, rfl, hpair⟩ := List.map_eq_singleton_iff.mp (Option.some.inj hchain)
  obtain ⟨hlastKey, hlastValue⟩ := Prod.mk.inj hpair
  have hsame := hlast last.value (by rw [hkey, ← hlastKey]; exact lookup_single_self last)
  rw [hvalue, hlastValue] at hsame
  have hids := congrArg char2blobid hsame
  rw [char2blobid_blobid2char, char2blobid_blobid2char] at hids
  exact absurd hids (by decide)

end Nbfs.Nbfs2
