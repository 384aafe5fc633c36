import Nbfs.Nbfs2.TableEntries
import Nbfs.Nbfs2.CallsBackOnce
import Nbfs.Lib.Runs

set_option autoImplicit false

/-!
# Filesystems in use

A filesystem is in use from the end of `nbfs2_build_fs` on; files are then created and
deleted in it.  What a build and what a call leave is said once here, for whatever the
blobstore answers.
-/

namespace Nbfs.Nbfs2

open Nbfs.Lib Conv

/-! ## Filesystems in use -/

/-- The filesystem was built, with a table of `INIT_HASHTABLE_SIZE` slots in which every new
overflow node came with NULL. -/
def Built (fs : Filesystem) : Prop :=
  ∃ m buildMthd t m', Free (nbfs2BuildFs (fun _ => none) m buildMthd) t (some m') ∧
    ⟨.callback 0, ()⟩ ∈ t ∧ m'.htSize = initHashtableSize ∧ m'.fs = fs

/-- A call is run to its end, whatever the blobstore answers. -/
def CallStep (fs : Filesystem) (call : FileCall) (fs' : Filesystem) : Prop :=
  ∃ t, Free (call.run fs) t (some fs')

/-- A creation makes no overflow node, or one that comes with NULL. -/
def NullNext (fs : Filesystem) : FileCall → Prop
  | .create filename garbage => fs.table.items (hashFunction filename) = none ∨ garbage = none
  | .delete _ => True

/-- The filesystem was built, and files were created and deleted in it. -/
def InUse (fs : Filesystem) : Prop := ∃ fs₀, Built fs₀ ∧ Runs CallStep NullNext fs₀ fs

/-- The value is the text of a blob id. -/
def IsText (_key value : CString) : Prop := ∃ id, value = blobid2char id

/-! ### What a build leaves -/

/-- The records that were read. -/
def recordsRead (t : Asked) : List (CString × BlobId) :=
  t.filterMap fun
    | ⟨.getMdata .., record⟩ => some record
    | _ => none

/-- The call of `ht_insert` for a record. -/
def enter (record : CString × BlobId) : Call := .insert record.1 (blobid2char record.2)

/-- Neither a callback nor a record that is read. -/
def Request.setsUp : Request → Bool
  | callback _ | getMdata .. => false
  | _ => true

/-- Whatever is answered, what the program leaves is as `Q` has it, if it calls back with 0. -/
def Builds (Q : List (CString × BlobId) → MountedFs → Prop) (p : Async MountedFs) : Prop :=
  ∀ t m', Free p t (some m') → ⟨.callback 0, ()⟩ ∈ t → Q (recordsRead t) m'

section builds

variable {Q : List (CString × BlobId) → MountedFs → Prop} {m : MountedFs}

theorem recordsRead_cons {r : Request} {x : Response r} {t : Asked} (hr : r.setsUp = true) :
    recordsRead (⟨r, x⟩ :: t) = recordsRead t := by
  cases r <;> first | rfl | cases hr

theorem builds_undefined : Builds Q .undefined := by
  intro t m' h
  cases (Free.undefined_iff.mp h).2

theorem builds_request (r : Request) {k : Response r → Async MountedFs} (hr : r.setsUp = true)
    (hk : ∀ x, Builds Q (k x)) : Builds Q (Conv.request r >>= k) := by
  intro t m' h hdone
  obtain ⟨x, t₁, rfl, hrest⟩ := Free.request_iff.mp h
  rw [recordsRead_cons hr]
  refine hk x t₁ m' hrest ?_
  rcases List.mem_cons.mp hdone with heq | hdone
  · cases (congrArg (fun x => Request.setsUp x.1) heq).trans hr
  · exact hdone

/-- An error exit calls back with the error. -/
theorem builds_failed {bserrno : Int} (hne : bserrno ≠ 0) : Builds Q (m.failed bserrno) := by
  intro t m' h hdone
  obtain ⟨_, t₁, rfl, hstop⟩ := Free.request_iff.mp h
  obtain ⟨_, t₂, rfl, hret⟩ := Free.request_iff.mp hstop
  obtain ⟨rfl, -⟩ := Free.ret_iff.mp hret
  simp only [List.mem_cons, List.not_mem_nil, or_false] at hdone
  rcases hdone with heq | heq
  · cases heq
    exact absurd rfl hne
  · cases congrArg Sigma.fst heq

/-- After the caller was called back. -/
theorem builds_done {m' : MountedFs} (h : Q [] m') :
    Builds Q (do
      cbFn 0
      return m') := by
  intro t m₁ hrun _
  obtain ⟨_, t₁, rfl, hret⟩ := Free.request_iff.mp hrun
  obtain ⟨rfl, hm⟩ := Free.ret_iff.mp hret
  exact Option.some.inj hm ▸ h

/-- The shape of a callback. -/
theorem builds_checked {bserrno : Int} {p : Async MountedFs} (hp : Builds Q p) :
    Builds Q (if bserrno ≠ 0 then m.failed bserrno else p) := by
  split
  · exact builds_failed ‹_›
  · exact hp

theorem createTable_table (h : m.htSize = initHashtableSize) :
    m.createTable.fs.table = createTable capacity := by
  simp only [MountedFs.createTable, h]
  rfl

/-- An initialization leaves an empty table, and the size as it was. -/
theorem builds_init (garbage : Nat → Ptr) : Builds (fun records m' => records = [] ∧
    m'.htSize = initHashtableSize ∧ m'.fs = ⟨createTable capacity, m.fs.spbDataSize⟩)
      (nbfs2BuildFs garbage m .init) := by
  have hcreated : ∀ blobid bserrno, Builds (fun records m' => records = [] ∧
      m'.htSize = initHashtableSize ∧ m'.fs = ⟨createTable capacity, m.fs.spbDataSize⟩)
        (m.superblobCreated blobid bserrno) := by
    intro blobid bserrno
    refine builds_checked (builds_request (.openBlob _) rfl fun opened => ?_)
    obtain ⟨blb, rc⟩ := opened
    refine builds_checked (builds_request (.setXattr ..) rfl fun _ => ?_)
    refine builds_request .mallocTable rfl fun ok => ?_
    change Bool at ok
    cases ok with
    | false => exact builds_undefined
    | true => exact builds_done ⟨rfl, rfl, rfl⟩
  refine builds_request .bsInit rfl fun rc => builds_checked ?_
  refine builds_request .mallocCreateArgs rfl fun ok => ?_
  split
  · exact hcreated _ _
  refine builds_request .createBlob rfl fun created => ?_
  obtain ⟨blobid, rc⟩ := created
  dsimp only
  split
  · exact hcreated _ _
  · exact builds_request (.setSuper _) rfl fun rc => hcreated _ _

/-- The records that are read are entered one by one. -/
theorem buildLoop_enters {readBuff : Option Address} : ∀ {n i : Nat} {t : HashTable}
    {tr : Asked} {t' : HashTable},
    Free (MountedFs.buildLoop (fun _ => none) readBuff n i t) tr (some (some t')) →
    runCalls none t ((recordsRead tr).map enter) = some t'
  | 0, i, t, tr, t', h => by
      obtain ⟨rfl, ht⟩ := Free.ret_iff.mp h
      exact Option.some.inj ht ▸ rfl
  | n + 1, i, t, tr, t', h => by
      cases readBuff with
      | none => cases (Free.undefined_iff.mp h).2
      | some buffer =>
          obtain ⟨⟨name, blobid⟩, t₁, rfl, hstring⟩ := Free.request_iff.mp h
          obtain ⟨string, t₂, rfl, hitem⟩ := Free.request_iff.mp hstring
          change Bool at string
          cases string with
          | false =>
              obtain ⟨_, t₃, rfl, hret⟩ := Free.request_iff.mp hitem
              cases Option.some.inj (Free.ret_iff.mp hret).2
          | true =>
              obtain ⟨item, t₃, rfl, hinsert⟩ := Free.request_iff.mp hitem
              change Bool at item
              cases item with
              | false => cases (Free.undefined_iff.mp hinsert).2
              | true =>
                  cases hnext : htInsert none t name (blobid2char blobid) with
                  | none =>
                      simp only [hnext] at hinsert
                      cases (Free.undefined_iff.mp hinsert).2
                  | some next =>
                      simp only [hnext] at hinsert
                      have hrest := buildLoop_enters hinsert
                      change runCalls none t (enter (name, blobid) :: (recordsRead t₃).map enter) =
                        _
                      rw [runCalls, List.foldlM_cons]
                      change (htInsert none t name (blobid2char blobid)).bind _ = _
                      rw [hnext]
                      exact hrest

theorem builds_readSuperBlob {cb : Int → Async MountedFs} (hcb : ∀ bserrno, Builds Q (cb bserrno))
    (payload : Address) (offset length : UInt64) :
    Builds Q (readSuperBlob payload offset length cb) := by
  refine builds_request .mallocReadArgs rfl fun block => ?_
  change Option ReadArgs at block
  cases block with
  | none => exact hcb _
  | some args =>
      refine builds_request .getSuper rfl fun super => ?_
      obtain ⟨blobid, rc⟩ := super
      dsimp only [rsbSuperBlobidGot]
      split
      · exact hcb _
      refine builds_request (.openBlob _) rfl fun opened => ?_
      obtain ⟨blb, rc⟩ := opened
      dsimp only [rsbOpenComplete]
      split
      · exact hcb _
      refine builds_request .allocIoChannel rfl fun channel => ?_
      split
      · exact hcb _
      refine builds_request (.ioRead ..) rfl fun rc => ?_
      dsimp only [rsbReadComplete]
      split
      · exact hcb _
      split
      · exact builds_request .freeIoChannel rfl fun _ => builds_request (.closeBlob _) rfl hcb
      · exact builds_request (.closeBlob _) rfl hcb

/-- The table that a load leaves, of `INIT_HASHTABLE_SIZE` slots, is made of the records. -/
def MadeOf (records : List (CString × BlobId)) (m' : MountedFs) : Prop :=
  m'.htSize = initHashtableSize →
    runCalls none (createTable capacity) (records.map enter) = some m'.fs.table

theorem builds_superblobRead (readBuff : Option Address)
    (hm : m.htSize = initHashtableSize → m.fs.table = createTable capacity) (bserrno : Int) :
    Builds MadeOf (m.superblobRead (fun _ => none) readBuff bserrno) := by
  refine builds_checked (builds_request .mallocMdata rfl fun ok => ?_)
  change Bool at ok
  cases ok with
  | false => exact builds_failed (by decide)
  | true =>
      intro t m' h hdone
      rcases Free.bind_iff.mp h with ⟨table, t₁, t₂, rfl, hloop, hrest⟩ | ⟨-, hnone⟩
      · cases table with
        | none =>
            obtain ⟨rfl, -⟩ := Free.ret_iff.mp hrest
            have hquiet := (Nbfs2.buildLoop_quiet _ hloop).1
            have hcalled : (0 : Int) ∈ callbacks (t₁ ++ []) :=
              List.mem_filterMap.mpr ⟨_, hdone, rfl⟩
            rw [List.append_nil, hquiet] at hcalled
            exact absurd hcalled List.not_mem_nil
        | some table =>
            obtain ⟨_, t₃, rfl, hret⟩ := Free.request_iff.mp hrest
            obtain ⟨rfl, hm'⟩ := Free.ret_iff.mp hret
            rw [Option.some.inj hm']
            intro hsize
            have henters := buildLoop_enters hloop
            rw [hm hsize] at henters
            have hrecords : recordsRead (t₁ ++ [⟨.callback 0, ()⟩]) = recordsRead t₁ := by
              simp [recordsRead]
            exact (congrArg (fun records => runCalls none _ (records.map enter))
              hrecords).trans henters
      · cases hnone

theorem builds_load : Builds MadeOf (nbfs2BuildFs (fun _ => none) m .load) := by
  refine builds_request .bsLoad rfl fun rc => builds_checked ?_
  refine builds_request .getSuper rfl fun super => ?_
  obtain ⟨blobid, rc⟩ := super
  refine builds_checked (builds_request (.openBlob _) rfl fun opened => ?_)
  obtain ⟨blb, rc⟩ := opened
  refine builds_checked (builds_request (.getXattr ..) rfl fun hts => ?_)
  refine builds_request .mallocTable rfl fun ok => ?_
  change Bool at ok
  cases ok with
  | false => exact builds_undefined
  | true =>
      refine builds_request (.getXattr ..) rfl fun spbds => ?_
      refine builds_request (.spdkMalloc _) rfl fun buffer => ?_
      refine builds_readSuperBlob
        (fun rc => builds_superblobRead buffer (fun hsize => ?_) rc) _ _ _
      obtain ⟨rc₂, size⟩ := spbds
      by_cases hrc : rc₂ = 0
      · simp only [if_pos hrc] at hsize ⊢
        exact createTable_table hsize
      · simp only [if_neg hrc] at hsize ⊢
        exact createTable_table hsize

end builds

/-! ### What a call leaves -/

section calls

variable {fs fs' : Filesystem} {filename : CString} {garbage : Ptr} {t : Asked}

/-- A creation fails without a blob, or enters the file's name with the text of a new blob's
id. -/
theorem createFile_free (h : Free (nbfs2CreateFile garbage fs filename) t (some fs')) :
    (fs' = fs ∧ ∀ id, ⟨.createBlob, ((id, 0) : BlobId × Int)⟩ ∉ t) ∨
      ∃ id, ⟨.createBlob, ((id, 0) : BlobId × Int)⟩ ∈ t ∧
        htInsert garbage fs.table filename (blobid2char id) = some fs'.table ∧
        fs'.spbDataSize = fs.spbDataSize + metaDataSize := by
  obtain ⟨file, t₁, rfl, hfile⟩ := Free.request_iff.mp h
  change Bool at file
  cases file with
  | false =>
      obtain ⟨_, t₂, rfl, hstop⟩ := Free.request_iff.mp hfile
      obtain ⟨_, t₃, rfl, hret⟩ := Free.request_iff.mp hstop
      obtain ⟨rfl, hfs⟩ := Free.ret_iff.mp hret
      refine Or.inl ⟨Option.some.inj hfs, fun other hmem => ?_⟩
      simp only [List.mem_cons, List.not_mem_nil, or_false] at hmem
      rcases hmem with heq | heq | heq
      · cases congrArg Sigma.fst heq
      · cases congrArg Sigma.fst heq
      · cases congrArg Sigma.fst heq
  | true =>
      obtain ⟨⟨id, bserrno⟩, t₂, rfl, hcreated⟩ := Free.request_iff.mp hfile
      dsimp only [nbfs2FileCreated] at hcreated
      by_cases herror : bserrno ≠ 0
      · rw [if_pos herror] at hcreated
        obtain ⟨_, t₃, rfl, hstop⟩ := Free.request_iff.mp hcreated
        obtain ⟨_, t₄, rfl, hret⟩ := Free.request_iff.mp hstop
        obtain ⟨rfl, hfs⟩ := Free.ret_iff.mp hret
        refine Or.inl ⟨Option.some.inj hfs, fun other hmem => ?_⟩
        simp only [List.mem_cons, List.not_mem_nil, or_false] at hmem
        rcases hmem with heq | heq | heq | heq
        · cases congrArg Sigma.fst heq
        · cases heq
          exact herror rfl
        · cases congrArg Sigma.fst heq
        · cases congrArg Sigma.fst heq
      · rw [if_neg herror] at hcreated
        obtain rfl := not_not.mp herror
        obtain ⟨item, t₃, rfl, hitem⟩ := Free.request_iff.mp hcreated
        change Bool at item
        cases item with
        | false => cases (Free.undefined_iff.mp hitem).2
        | true =>
            cases hinsert : htInsert garbage fs.table filename (blobid2char id) with
            | none =>
                simp only [hinsert] at hitem
                cases (Free.undefined_iff.mp hitem).2
            | some table =>
                simp only [hinsert] at hitem
                obtain ⟨_, t₄, rfl, hret⟩ := Free.request_iff.mp hitem
                rw [Option.some.inj (Free.ret_iff.mp hret).2]
                exact Or.inr ⟨id, by simp, hinsert, rfl⟩

/-- The blobs that the blobstore was asked to delete. -/
def deletesAsked : Asked → List BlobId := Trace.asked fun | .deleteBlob id => some id | _ => none

/-- What `nbfs2_delete_file` does with a name that has a text: it asks for the deletion of the
blob with the id in the text, and if that succeeds removes the text of that id. -/
theorem deleteFile_free {text : CString} {o : Option Filesystem}
    (hfound : htSearch fs.table filename = some (some text))
    (hlen : text.strlen < blobidStringLen) :
    Free (nbfs2DeleteFile fs filename) t o ↔
      (∃ bserrno : Int, bserrno ≠ 0 ∧ o = some fs ∧
        t = [⟨.deleteBlob (char2blobid text), bserrno⟩, ⟨.appStop (-1), ()⟩]) ∨
      t = [⟨.deleteBlob (char2blobid text), (0 : Int)⟩] ∧
        o = (htDelete fs.table (blobid2char (char2blobid text))).map fun table =>
          ⟨table, fs.spbDataSize - metaDataSize⟩ := by
  have hprogram : nbfs2DeleteFile fs filename =
      (spdkBsDeleteBlob (char2blobid text) >>= nbfs2BlobDeleted fs (char2blobid text)) := by
    simp only [nbfs2DeleteFile, hfound, ofOption, ret_bind, if_pos hlen]
  rw [hprogram]
  refine Free.request_iff.trans ⟨?_, ?_⟩
  · rintro ⟨bserrno, t₁, rfl, hdeleted⟩
    change Int at bserrno
    by_cases herror : bserrno ≠ (0 : Int)
    · rw [nbfs2BlobDeleted, if_pos herror] at hdeleted
      obtain ⟨_, t₂, rfl, hret⟩ := Free.request_iff.mp hdeleted
      obtain ⟨rfl, rfl⟩ := Free.ret_iff.mp hret
      exact Or.inl ⟨bserrno, herror, rfl, rfl⟩
    · obtain rfl : bserrno = (0 : Int) := not_not.mp herror
      rw [nbfs2BlobDeleted, if_neg herror] at hdeleted
      cases hdelete : htDelete fs.table (blobid2char (char2blobid text)) with
      | none =>
          simp only [hdelete] at hdeleted
          obtain ⟨rfl, rfl⟩ := Free.undefined_iff.mp hdeleted
          exact Or.inr ⟨rfl, rfl⟩
      | some table =>
          simp only [hdelete] at hdeleted
          obtain ⟨rfl, rfl⟩ := Free.ret_iff.mp hdeleted
          exact Or.inr ⟨rfl, rfl⟩
  · rintro (⟨bserrno, herror, rfl, rfl⟩ | ⟨rfl, rfl⟩)
    · refine ⟨bserrno, _, rfl, ?_⟩
      rw [nbfs2BlobDeleted, if_pos herror]
      exact Free.request_iff.mpr ⟨(), _, rfl, Free.ret_iff.mpr ⟨rfl, rfl⟩⟩
    · refine ⟨(0 : Int), _, rfl, ?_⟩
      rw [nbfs2BlobDeleted, if_neg (not_not.mpr rfl)]
      cases hdelete : htDelete fs.table (blobid2char (char2blobid text)) with
      | none => exact Free.undefined_iff.mpr ⟨rfl, rfl⟩
      | some table => exact Free.ret_iff.mpr ⟨rfl, rfl⟩

/-- A file that is deleted has a text. -/
theorem deleteFile_found (h : Free (nbfs2DeleteFile fs filename) t (some fs')) :
    ∃ text, htSearch fs.table filename = some (some text) ∧ text.strlen < blobidStringLen := by
  cases hfound : htSearch fs.table filename with
  | none =>
      simp only [nbfs2DeleteFile, hfound] at h
      cases (Free.undefined_iff.mp h).2
  | some found =>
      cases found with
      | none =>
          simp only [nbfs2DeleteFile, hfound] at h
          cases (Free.undefined_iff.mp h).2
      | some text =>
          refine ⟨text, rfl, ?_⟩
          by_contra hlen
          simp only [nbfs2DeleteFile, hfound, ofOption, ret_bind, if_neg hlen] at h
          cases (Free.undefined_iff.mp h).2

end calls

/-! ### The tables of filesystems in use -/

theorem Built.tidy {fs : Filesystem} (h : Built fs) : ∃ b, Tidy IsText fs.table b := by
  obtain ⟨m, buildMthd, t, m', hbuild, hdone, hsize, rfl⟩ := h
  cases buildMthd with
  | init =>
      obtain ⟨-, -, hfs⟩ := builds_init _ t m' hbuild hdone
      rw [hfs]
      exact ⟨_, Tidy.createTable⟩
  | load =>
      refine Tidy.createTable.runCalls (fun call hcall => ?_)
        (builds_load t m' hbuild hdone hsize)
      obtain ⟨record, -, rfl⟩ := List.mem_map.mp hcall
      exact ⟨record.2, rfl⟩

/-- A call keeps the table tidy. -/
theorem CallStep.tidy {fs fs' : Filesystem} {call : FileCall} (hstep : CallStep fs call fs')
    (hnull : NullNext fs call) (h : ∃ b, Tidy IsText fs.table b) :
    ∃ b, Tidy IsText fs'.table b := by
  obtain ⟨b, hb⟩ := h
  obtain ⟨t, hcall⟩ := hstep
  cases call with
  | create filename garbage =>
      rcases createFile_free hcall with ⟨rfl, -⟩ | ⟨id, -, hinsert, -⟩
      · exact ⟨b, hb⟩
      · rw [Kept.htInsert_garbage hnull] at hinsert
        exact hb.step (show (Call.insert filename (blobid2char id)).Enters IsText from ⟨id, rfl⟩)
          hinsert
  | delete filename =>
      obtain ⟨text, hfound, hlen⟩ := deleteFile_found hcall
      rcases (deleteFile_free hfound hlen).mp hcall with ⟨_, _, hsame, -⟩ | ⟨-, hdeleted⟩
      · exact Option.some.inj hsame ▸ ⟨b, hb⟩
      · obtain ⟨table, hdelete, rfl⟩ := Option.map_eq_some_iff.mp hdeleted.symm
        exact hb.step (show (Call.delete _).Enters IsText from trivial) hdelete

theorem InUse.tidy {fs : Filesystem} (h : InUse fs) : ∃ b, Tidy IsText fs.table b := by
  obtain ⟨fs₀, hbuilt, hruns⟩ := h
  exact @Runs.keeps _ _ _ _ _ _ (fun fs => ∃ b, Tidy IsText fs.table b) hruns hbuilt.tidy
    fun htidy hnull hstep => hstep.tidy hnull htidy

/-- A filesystem without files. -/
def freshFs : Filesystem := ⟨createTable capacity, 0⟩

/-- How it is initialized. -/
def freshTrace : Asked :=
  [⟨.bsInit, (0 : Int)⟩, ⟨.mallocCreateArgs, true⟩, ⟨.createBlob, ((0, 0) : BlobId × Int)⟩,
    ⟨.setSuper 0, (0 : Int)⟩, ⟨.openBlob 0, ((0, 0) : BlobId × Int)⟩,
    ⟨.setXattr 0 .hts 65536, (0 : Int)⟩, ⟨.mallocTable, true⟩, ⟨.callback 0, ()⟩]

theorem free_freshTrace : Free (nbfs2BuildFs (fun _ => none) ⟨⟨createTable 0, 0⟩, 0, 0⟩ .init)
    freshTrace (some ⟨freshFs, 0, initHashtableSize⟩) :=
  Free.call (Free.call (Free.call (Free.call (Free.call (Free.call (Free.call
    (Free.call (Free.ret_iff.mpr ⟨rfl, rfl⟩))))))))

theorem built_freshFs : Built freshFs :=
  ⟨_, .init, freshTrace, _, free_freshTrace, by simp [freshTrace], rfl, rfl⟩

/-- After a file was created. -/
def oneFile (name : CString) (id : BlobId) : Filesystem where
  table := { (createTable capacity).setItem (hashFunction name)
      (some (createItem name (blobid2char id))) with count := 1 }
  spbDataSize := metaDataSize

theorem htInsert_createTable (garbage : Ptr) (name : CString) (id : BlobId) :
    htInsert garbage (createTable capacity) name (blobid2char id) =
      some (oneFile name id).table := by
  have hitem : (createTable capacity).item (hashFunction name) = some none :=
    if_pos (hashFunction_lt name)
  simp only [htInsert, hitem, Option.bind_eq_bind, Option.bind_some]
  rfl

/-- How it was created. -/
def createTrace (id : BlobId) : Asked :=
  [⟨.mallocFile, true⟩, ⟨.createBlob, ((id, 0) : BlobId × Int)⟩, ⟨.mallocItem, true⟩,
    ⟨.callback 0, ()⟩]

/-- A creation whose insertion is known. -/
theorem free_createTrace {fs : Filesystem} {garbage : Ptr} {name : CString} {id : BlobId}
    {table : HashTable} (h : htInsert garbage fs.table name (blobid2char id) = some table) :
    Free (nbfs2CreateFile garbage fs name) (createTrace id)
      (some ⟨table, fs.spbDataSize + metaDataSize⟩) := by
  refine Free.call (Free.call (Free.call ?_))
  change Free (ofOption (htInsert garbage fs.table name (blobid2char id)) >>= _) _ _
  rw [h]
  exact Free.call (Free.ret_iff.mpr ⟨rfl, rfl⟩)

theorem inUse_oneFile (name : CString) (id : BlobId) : InUse (oneFile name id) := by
  have hstep : CallStep freshFs (.create name none) (oneFile name id) :=
    ⟨createTrace id, free_createTrace (htInsert_createTable none name id)⟩
  have hnull : NullNext freshFs (.create name none) := Or.inr rfl
  exact ⟨freshFs, built_freshFs, .one hnull hstep⟩

theorem htSearch_oneFile (name : CString) (id : BlobId) :
    htSearch (oneFile name id).table name = some (some (blobid2char id)) := by
  have hitem : (oneFile name id).table.item (hashFunction name) =
      some (some (createItem name (blobid2char id))) := by
    refine (if_pos (hashFunction_lt name)).trans (congrArg some ?_)
    exact Function.update_self ..
  have hhead : (oneFile name id).table.bucket (hashFunction name) = some none :=
    if_pos (hashFunction_lt name)
  have hkey : CString.strcmp name name = 0 := CString.strcmp_eq_zero_iff.mpr rfl
  simp only [htSearch, hitem, hhead, Option.bind_eq_bind, Option.bind_some, searchLoop]
  exact if_pos hkey

end Nbfs.Nbfs2
