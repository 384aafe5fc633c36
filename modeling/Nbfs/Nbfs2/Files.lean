import Nbfs.Nbfs2.InsertDelete
import Nbfs.Nbfs2.BlobidText

set_option autoImplicit false

/-!
# Creating and deleting files (`src/NBFS2/NBFS2.c`)

A file is a blob and an entry of the hash table, from the file's name to the text
of the blob's id.  Names and blobs should stay in bijection: each name has its
own blob, and the blobs with a name are those that exist, the superblob apart.
-/

namespace Nbfs.Nbfs2

open Nbfs.Lib Conv

/-- `struct _nbfs2_filesystem`, as far as creating and deleting files use it. -/
structure Filesystem where
  table : HashTable
  spbDataSize : UInt64

/-- `sizeof(struct _nbfs2_super_block_meta_data)`: a blob id and `MAXFILENAME` bytes. -/
def metaDataSize : UInt64 := 136

/-- `BLOBID_STRING_LEN`. -/
def blobidStringLen : Nat := 20

/-- `_nbfs2_file_created`; `garbage` is what `malloc` leaves in a new overflow node.  The
allocations of `ht_insert` are not checked. -/
def nbfs2FileCreated (garbage : Ptr) (fs : Filesystem) (filename : CString) (blobid : BlobId)
    (bserrno : Int) : Async Filesystem := do
  if bserrno ≠ 0 then
    cbFn bserrno
    spdkAppStop (-1)
    return fs
  else
    if ← mallocItem then
      let table ← ofOption (htInsert garbage fs.table filename (blobid2char blobid))
      cbFn 0
      return ⟨table, fs.spbDataSize + metaDataSize⟩
    else .undefined

/-- `nbfs2_create_file`. -/
def nbfs2CreateFile (garbage : Ptr) (fs : Filesystem) (filename : CString) : Async Filesystem := do
  let file ← mallocFile
  if file = false then
    cbFn (-enomem)
    spdkAppStop (-1)
    return fs
  else
    let (blobid, bserrno) ← spdkBsCreateBlob
    nbfs2FileCreated garbage fs filename blobid bserrno

/-- `_nbfs2_blob_deleted`. -/
def nbfs2BlobDeleted (fs : Filesystem) (blobid : BlobId) (bserrno : Int) : Async Filesystem := do
  if bserrno ≠ 0 then
    spdkAppStop (-1)
    return fs
  else
    let table ← ofOption (htDelete fs.table (blobid2char blobid))
    return ⟨table, fs.spbDataSize - metaDataSize⟩

/-- `nbfs2_delete_file`; a name that is not in the table is copied from NULL. -/
def nbfs2DeleteFile (fs : Filesystem) (filename : CString) : Async Filesystem := do
  let found ← ofOption (htSearch fs.table filename)
  let text ← ofOption found
  if text.strlen < blobidStringLen then
    let blobid := char2blobid text
    let bserrno ← spdkBsDeleteBlob blobid
    nbfs2BlobDeleted fs blobid bserrno
  else .undefined

/-- A request for a file. -/
inductive FileCall where
  | create (filename : CString) (garbage : Ptr)
  | delete (filename : CString)

/-- Run a request to its end. -/
def FileCall.run (fs : Filesystem) : FileCall → Async Filesystem
  | .create filename garbage => nbfs2CreateFile garbage fs filename
  | .delete filename => nbfs2DeleteFile fs filename

/-- The blobstore and the file system. -/
structure Nbfs2State {α : Type} (B : Blobstore α) where
  bs : B.State
  fs : Filesystem

variable {α : Type} {B : Blobstore α}

/-- A request is run to its end, with what was asked and answered on the way. -/
def FileStep (s : Nbfs2State B) (call : FileCall) (t : Trace Response) (s' : Nbfs2State B) : Prop :=
  Conv.Run B.respond s.bs (call.run s.fs) t s'.bs (some s'.fs)

/-- The name has the blob. -/
def NamesBlob (fs : Filesystem) (name : CString) (id : BlobId) : Prop :=
  ∃ text, htSearch fs.table name = some (some text) ∧ char2blobid text = id

/-- The blob exists. -/
def Exists (bs : B.State) (id : BlobId) : Prop := ∃ us, B.units bs id = some us

/-- Names and blobs are in bijection, the superblob apart. -/
structure Bijection (superblob : BlobId) (s : Nbfs2State B) : Prop where
  injective : ∀ name name' id, NamesBlob s.fs name id → NamesBlob s.fs name' id → name = name'
  range : ∀ id, (∃ name, NamesBlob s.fs name id) ↔ Exists s.bs id ∧ id ≠ superblob

/-- An empty table, and no blob but the superblob. -/
def Initial (superblob : BlobId) (s : Nbfs2State B) : Prop :=
  s.fs.table = createTable capacity ∧ ∀ id, Exists s.bs id ↔ id = superblob

/-- The requests of a run, each with its state before, its trace and the state after it. -/
inductive FileRun (ok : Nbfs2State B → FileCall → Trace Response → Nbfs2State B → Prop) :
    Nbfs2State B → Nbfs2State B → Prop where
  | refl {s : Nbfs2State B} : FileRun ok s s
  | step {s s₁ s₂ : Nbfs2State B} {call : FileCall} {t : Trace Response} : FileRun ok s s₁ →
      FileStep s₁ call t s₂ → ok s₁ call t s₂ → FileRun ok s s₂

/-- What keeps names and blobs together.  A creation fails; or its name is not in the
table, the bucket takes it without losing another, and a new overflow node comes with
NULL in `next`.  A deletion fails and leaves the blob; or the file is named by the text
of its own blob id, and the bucket gives it up without losing another. -/
def Keeps (s : Nbfs2State B) (call : FileCall) (t : Trace Response) (s' : Nbfs2State B) : Prop :=
  match call with
  | .create name garbage =>
      (∀ id, ⟨.createBlob, ((id, 0) : BlobId × Int)⟩ ∉ t) ∨
        htSearch s.fs.table name = some none ∧ (∀ value, Insertable s.fs.table name value) ∧
          (s.fs.table.items (hashFunction name) = none ∨ garbage = none)
  | .delete name =>
      (∀ id, ⟨.deleteBlob id, (0 : Int)⟩ ∉ t) ∧ B.units s'.bs = B.units s.bs ∨
        (∃ id, ⟨.deleteBlob id, (0 : Int)⟩ ∈ t) ∧ NamesBlob s.fs name (char2blobid name) ∧
          blobid2char (char2blobid name) = name ∧ Deletable s.fs.table name

/-- The invariant of such runs: the bijection, a sound table in which every search is
defined, and a superblob. -/
structure Kept (superblob : BlobId) (s : Nbfs2State B) : Prop where
  bijection : Bijection superblob s
  sound : ∃ b, Sound s.fs.table b
  total : ∀ name, ∃ found, htSearch s.fs.table name = some found
  super : Exists s.bs superblob

theorem Kept.initial {superblob : BlobId} {s : Nbfs2State B} (h : Initial superblob s) :
    Kept superblob s := by
  obtain ⟨htable, hblobs⟩ := h
  have hsearch : ∀ name, htSearch s.fs.table name = some none := by
    intro name
    rw [htable, Sound.createTable.1.search]
    rfl
  have hnone : ∀ name id, ¬ NamesBlob s.fs name id := by
    rintro name id ⟨text, htext, -⟩
    rw [hsearch] at htext
    cases htext
  refine ⟨⟨fun name _ id hname => absurd hname (hnone name id), fun id => ?_⟩, ?_,
    fun name => ⟨none, hsearch name⟩, (hblobs superblob).mpr rfl⟩
  · rw [hblobs]
    refine iff_of_false ?_ (fun hid => hid.2 hid.1)
    rintro ⟨name, hname⟩
    exact hnone name id hname
  · rw [htable]
    exact ⟨_, Sound.createTable⟩

namespace Kept

variable {superblob : BlobId} {s s' : Nbfs2State B}

/-- Nothing changed that matters. -/
theorem same (h : Kept superblob s) (hfs : s'.fs = s.fs) (hunits : B.units s'.bs = B.units s.bs) :
    Kept superblob s' := by
  have hexists : ∀ id, Exists s'.bs id ↔ Exists s.bs id := by
    intro id
    unfold Exists
    rw [hunits]
  refine ⟨⟨?_, ?_⟩, ?_, ?_, (hexists _).mpr h.super⟩
  · rw [hfs]
    exact h.bijection.injective
  · intro id
    rw [hfs, hexists]
    exact h.bijection.range id
  · rw [hfs]
    exact h.sound
  · rw [hfs]
    exact h.total

/-- What a search of the new table finds, when one key's answer changed and no other. -/
theorem search_other {t t' : HashTable} {key name : CString} {result found : Option CString}
    (hanswers : AnswersAs t t' key result) (htotal : ∀ name, ∃ found, htSearch t name = some found)
    (hne : name ≠ key) : htSearch t' name = some found ↔ htSearch t name = some found := by
  obtain ⟨old, hold⟩ := htotal name
  rw [hanswers.2 name hne old hold, hold]

/-- Searches stay defined. -/
theorem total_of_answers {t t' : HashTable} {key : CString} {result : Option CString}
    (hanswers : AnswersAs t t' key result) (htotal : ∀ name, ∃ found, htSearch t name = some found)
    (name : CString) : ∃ found, htSearch t' name = some found := by
  by_cases hname : name = key
  · exact ⟨result, hname ▸ hanswers.1⟩
  · obtain ⟨found, hfound⟩ := htotal name
    exact ⟨found, hanswers.2 name hname found hfound⟩

/-- A new name for a new blob. -/
theorem created (h : Kept superblob s) {name : CString} {id : BlobId}
    (hfree : htSearch s.fs.table name = some none) (hnew : B.units s.bs id = none)
    (hunits : B.units s'.bs = Function.update (B.units s.bs) id (some []))
    (hanswers : AnswersAs s.fs.table s'.fs.table name (some (blobid2char id)))
    (hsound : ∃ b, Sound s'.fs.table b) : Kept superblob s' := by
  have hself : NamesBlob s'.fs name id := ⟨_, hanswers.1, char2blobid_blobid2char id⟩
  have hnames : ∀ other id', NamesBlob s'.fs other id' ↔
      (other = name ∧ id' = id) ∨ NamesBlob s.fs other id' := by
    intro other id'
    by_cases hother : other = name
    · subst hother
      constructor
      · rintro ⟨text, htext, rfl⟩
        rw [hanswers.1] at htext
        obtain rfl := Option.some.inj (Option.some.inj htext)
        exact Or.inl ⟨rfl, char2blobid_blobid2char id⟩
      · rintro (⟨-, rfl⟩ | ⟨text, htext, -⟩)
        · exact hself
        · rw [hfree] at htext
          cases htext
    · unfold NamesBlob
      simp only [search_other hanswers h.total hother, hother, false_and, false_or]
  have hexists : ∀ id', Exists s'.bs id' ↔ id' = id ∨ Exists s.bs id' := by
    intro id'
    unfold Exists
    rw [hunits]
    by_cases hid : id' = id
    · simp [hid]
    · simp [hid]
  have hold : ∀ other, ¬ NamesBlob s.fs other id := by
    intro other hother
    obtain ⟨⟨us, hus⟩, -⟩ := (h.bijection.range id).mp ⟨other, hother⟩
    rw [hnew] at hus
    cases hus
  have hsuper : id ≠ superblob := by
    rintro rfl
    obtain ⟨us, hus⟩ := h.super
    rw [hnew] at hus
    cases hus
  refine ⟨⟨fun one other id' hone hother => ?_, fun id' => ?_⟩, hsound,
    total_of_answers hanswers h.total, (hexists _).mpr (Or.inr h.super)⟩
  · rcases (hnames one id').mp hone with ⟨rfl, rfl⟩ | hone
    · rcases (hnames other id').mp hother with ⟨rfl, -⟩ | hother
      · rfl
      · exact absurd hother (hold other)
    · rcases (hnames other id').mp hother with ⟨rfl, rfl⟩ | hother
      · exact absurd hone (hold one)
      · exact h.bijection.injective one other id' hone hother
  · rw [hexists]
    constructor
    · rintro ⟨other, hother⟩
      rcases (hnames other id').mp hother with ⟨-, rfl⟩ | hother
      · exact ⟨Or.inl rfl, hsuper⟩
      · obtain ⟨hexist, hne⟩ := (h.bijection.range id').mp ⟨other, hother⟩
        exact ⟨Or.inr hexist, hne⟩
    · rintro ⟨rfl | hexist, hne⟩
      · exact ⟨name, hself⟩
      · obtain ⟨other, hother⟩ := (h.bijection.range id').mpr ⟨hexist, hne⟩
        exact ⟨other, (hnames other id').mpr (Or.inr hother)⟩

/-- A blob goes and its name with it. -/
theorem deleted (h : Kept superblob s) {name : CString} {id : BlobId}
    (hname : NamesBlob s.fs name id)
    (hunits : B.units s'.bs = Function.update (B.units s.bs) id none)
    (hanswers : AnswersAs s.fs.table s'.fs.table name none)
    (hsound : ∃ b, Sound s'.fs.table b) : Kept superblob s' := by
  have hnames : ∀ other id', NamesBlob s'.fs other id' ↔
      NamesBlob s.fs other id' ∧ other ≠ name := by
    intro other id'
    by_cases hother : other = name
    · subst hother
      refine iff_of_false ?_ (fun hn => hn.2 rfl)
      rintro ⟨text, htext, -⟩
      rw [hanswers.1] at htext
      cases htext
    · unfold NamesBlob
      simp only [search_other hanswers h.total hother, ne_eq, hother, not_false_eq_true, and_true]
  have hexists : ∀ id', Exists s'.bs id' ↔ Exists s.bs id' ∧ id' ≠ id := by
    intro id'
    unfold Exists
    rw [hunits]
    by_cases hid : id' = id
    · simp [hid]
    · simp [hid]
  have hsuper : superblob ≠ id := ((h.bijection.range id).mp ⟨name, hname⟩).2.symm
  refine ⟨⟨fun one other id' hone hother => ?_, fun id' => ?_⟩, hsound,
    total_of_answers hanswers h.total, (hexists _).mpr ⟨h.super, hsuper⟩⟩
  · exact h.bijection.injective one other id' ((hnames one id').mp hone).1
      ((hnames other id').mp hother).1
  · rw [hexists]
    constructor
    · rintro ⟨other, hother⟩
      obtain ⟨hold, hne⟩ := (hnames other id').mp hother
      obtain ⟨hexist, hsuper'⟩ := (h.bijection.range id').mp ⟨other, hold⟩
      refine ⟨⟨hexist, ?_⟩, hsuper'⟩
      rintro rfl
      exact hne (h.bijection.injective other name id' hold hname)
    · rintro ⟨⟨hexist, hne⟩, hsuper'⟩
      obtain ⟨other, hother⟩ := (h.bijection.range id').mpr ⟨hexist, hsuper'⟩
      refine ⟨other, (hnames other id').mpr ⟨hother, ?_⟩⟩
      rintro rfl
      obtain ⟨text, htext, rfl⟩ := hother
      obtain ⟨text', htext', rfl⟩ := hname
      rw [htext] at htext'
      exact hne (by rw [Option.some.inj (Option.some.inj htext')])

/-- A free slot takes an insertion whatever `malloc` leaves in a node. -/
theorem htInsert_garbage {garbage : Ptr} {t : HashTable} {key value : CString}
    (h : t.items (hashFunction key) = none ∨ garbage = none) :
    htInsert garbage t key value = htInsert none t key value := by
  rcases h with hfree | rfl
  · have hitem : ∀ current, t.item (hashFunction key) = some current → current = none := by
      intro current hcurrent
      rw [HashTable.item] at hcurrent
      split at hcurrent
      · exact (Option.some.inj hcurrent).symm.trans hfree
      · cases hcurrent
    simp only [htInsert, Option.bind_eq_bind]
    refine Option.bind_congr fun current hcurrent => ?_
    rw [hitem current hcurrent]
  · rfl

/-- An `ofOption` in front of a run that ends. -/
theorem ofOption_run {β γ : Type} {s s' : B.State} {o : Option β} {k : β → Async γ}
    {t : Trace Response} {c : γ} (h : Conv.Run B.respond s (ofOption o >>= k) t s' (some c)) :
    ∃ b, o = some b ∧ Conv.Run B.respond s (k b) t s' (some c) := by
  cases o with
  | none => cases (Run.undefined_iff.mp h).2.2
  | some b => exact ⟨b, rfl, h⟩

/-- A quiet request in front of a run. -/
theorem quiet_run {γ : Type} {s s' : B.State} {r : Request} {k : Response r → Async γ}
    {t : Trace Response} {o : Option γ} (hquiet : r.quiet = true)
    (h : Conv.Run B.respond s (Conv.request r >>= k) t s' o) :
    ∃ x s₁ t₁, t = ⟨r, x⟩ :: t₁ ∧ B.units s₁ = B.units s ∧
      Conv.Run B.respond s₁ (k x) t₁ s' o := by
  obtain ⟨x, s₁, t₁, rfl, hrespond, hrest⟩ := Run.request_iff.mp h
  exact ⟨x, s₁, t₁, rfl, (B.quiet hrespond hquiet).1, hrest⟩

/-- `nbfs2_create_file` run to its end: no blob was created, or one was and its name
entered. -/
theorem createFile_run {garbage : Ptr} {name : CString} {t : Trace Response}
    (h : Conv.Run B.respond s.bs (nbfs2CreateFile garbage s.fs name) t s'.bs (some s'.fs)) :
    (s'.fs = s.fs ∧ B.units s'.bs = B.units s.bs) ∨
      ∃ id, ⟨.createBlob, ((id, 0) : BlobId × Int)⟩ ∈ t ∧ B.units s.bs id = none ∧
        B.units s'.bs = Function.update (B.units s.bs) id (some []) ∧
        htInsert garbage s.fs.table name (blobid2char id) = some s'.fs.table := by
  obtain ⟨file, s₁, t₁, rfl, hunits₁, hrest⟩ := quiet_run rfl h
  change Bool at file
  by_cases hfile : file = false
  · rw [if_pos hfile] at hrest
    obtain ⟨_, s₂, t₂, rfl, hunits₂, hrest⟩ := quiet_run rfl hrest
    obtain ⟨_, s₃, t₃, rfl, hunits₃, hrest⟩ := quiet_run rfl hrest
    obtain ⟨-, hbs, hfs⟩ := Run.ret_iff.mp hrest
    refine Or.inl ⟨Option.some.inj hfs, ?_⟩
    rw [hbs, hunits₃, hunits₂, hunits₁]
  rw [if_neg hfile] at hrest
  obtain ⟨⟨id, bserrno⟩, s₂, t₂, rfl, hcreate, hcreated⟩ := Run.request_iff.mp hrest
  dsimp only [nbfs2FileCreated] at hcreated
  by_cases herror : bserrno ≠ 0
  · rw [if_pos herror] at hcreated
    obtain ⟨_, s₃, t₃, rfl, hunits₃, hrest⟩ := quiet_run rfl hcreated
    obtain ⟨_, s₄, t₄, rfl, hunits₄, hrest⟩ := quiet_run rfl hrest
    obtain ⟨-, hbs, hfs⟩ := Run.ret_iff.mp hrest
    refine Or.inl ⟨Option.some.inj hfs, ?_⟩
    rw [hbs, hunits₄, hunits₃, B.createFailed hcreate herror, hunits₁]
  · rw [if_neg herror] at hcreated
    obtain rfl := not_not.mp herror
    obtain ⟨item, s₃, t₃, rfl, hunits₃, hitem⟩ := quiet_run rfl hcreated
    change Bool at item
    cases item with
    | false => cases (Run.undefined_iff.mp hitem).2.2
    | true =>
        obtain ⟨table, htable, hrest⟩ := ofOption_run hitem
        obtain ⟨_, s₄, t₄, rfl, hunits₄, hrest⟩ := quiet_run rfl hrest
        obtain ⟨-, hbs, hfs⟩ := Run.ret_iff.mp hrest
        obtain ⟨hnone, hupdate⟩ := B.created hcreate
        refine Or.inr ⟨id, by simp, hunits₁ ▸ hnone, ?_, ?_⟩
        · rw [hbs, hunits₄, hunits₃, hupdate, hunits₁]
        · rw [htable, Option.some.inj hfs]

/-- `nbfs2_delete_file` run to its end: the blob was not deleted, or it was and the text
of its id looked up for removal. -/
theorem deleteFile_run {name : CString} {t : Trace Response}
    (h : Conv.Run B.respond s.bs (nbfs2DeleteFile s.fs name) t s'.bs (some s'.fs)) :
    ∃ id, NamesBlob s.fs name id ∧
      (s'.fs = s.fs ∧ (∀ other, ⟨.deleteBlob other, (0 : Int)⟩ ∉ t) ∨
        ⟨.deleteBlob id, (0 : Int)⟩ ∈ t ∧
          B.units s'.bs = Function.update (B.units s.bs) id none ∧
          htDelete s.fs.table (blobid2char id) = some s'.fs.table) := by
  obtain ⟨found, hfound, htext⟩ := ofOption_run h
  obtain ⟨text, rfl, hrest⟩ := ofOption_run htext
  refine ⟨char2blobid text, ⟨text, hfound, rfl⟩, ?_⟩
  by_cases hlen : text.strlen < blobidStringLen
  · rw [if_pos hlen] at hrest
    obtain ⟨bserrno, s₁, t₁, rfl, hdelete, hdeleted⟩ := Run.request_iff.mp hrest
    dsimp only [nbfs2BlobDeleted] at hdeleted
    change Int at bserrno
    by_cases herror : bserrno ≠ (0 : Int)
    · rw [if_pos herror] at hdeleted
      obtain ⟨_, s₂, t₂, rfl, -, hrest⟩ := quiet_run rfl hdeleted
      obtain ⟨rfl, -, hfs⟩ := Run.ret_iff.mp hrest
      refine Or.inl ⟨Option.some.inj hfs, fun other hmem => ?_⟩
      rcases List.mem_cons.mp hmem with heq | hmem
      · cases heq
        exact herror rfl
      · cases List.mem_singleton.mp hmem
    · rw [if_neg herror] at hdeleted
      obtain rfl : bserrno = (0 : Int) := not_not.mp herror
      obtain ⟨table, htable, hrest⟩ := ofOption_run hdeleted
      obtain ⟨-, hbs, hfs⟩ := Run.ret_iff.mp hrest
      refine Or.inr ⟨by simp, ?_, ?_⟩
      · rw [hbs, B.deleted hdelete]
      · rw [htable, Option.some.inj hfs]
  · rw [if_neg hlen] at hrest
    cases (Run.undefined_iff.mp hrest).2.2

/-- One request keeps names and blobs together. -/
theorem step (h : Kept superblob s) {call : FileCall} {t : Trace Response}
    (hstep : FileStep s call t s') (hok : Keeps s call t s') : Kept superblob s' := by
  obtain ⟨b, hsound⟩ := h.sound
  cases call with
  | create name garbage =>
      rcases createFile_run hstep with ⟨hfs, hunits⟩ | ⟨id, hasked, hnew, hunits, htable⟩
      · exact h.same hfs hunits
      rcases hok with hfailed | ⟨hfree, hinsertable, hgarbage⟩
      · exact absurd hasked (hfailed id)
      rw [htInsert_garbage hgarbage] at htable
      have hfits : ∀ old, htSearch s.fs.table name = some (some old) →
          (blobid2char id).strlen ≤ old.strlen := by
        intro old hold
        rw [hfree] at hold
        cases hold
      obtain ⟨t', hrun, hanswers⟩ := (hsound.meetsInsertLaw hfits).mpr (hinsertable _)
      obtain rfl := Option.some.inj (htable.symm.trans hrun)
      exact h.created hfree hnew hunits hanswers
        (hsound.step
          (show Call.run none s.fs.table (.insert name (blobid2char id)) = _ from htable))
  | delete name =>
      obtain ⟨id, hnames, hrun⟩ := deleteFile_run hstep
      rcases hok with ⟨hfailed, hunits⟩ | ⟨⟨_, hasked⟩, hown, htext, hdeletable⟩
      · rcases hrun with ⟨hfs, -⟩ | ⟨hasked, -, -⟩
        · exact h.same hfs hunits
        · exact absurd hasked (hfailed id)
      rcases hrun with ⟨-, hfailed⟩ | ⟨-, hunits, htable⟩
      · exact absurd hasked (hfailed _)
      have hid : id = char2blobid name := by
        obtain ⟨text₁, htext₁, rfl⟩ := hnames
        obtain ⟨text₂, htext₂, heq⟩ := hown
        rw [htext₁] at htext₂
        rw [← heq, Option.some.inj (Option.some.inj htext₂)]
      rw [hid, htext] at htable
      obtain ⟨t', hrun, hanswers⟩ := (hsound.meetsDeleteLaw name).mpr hdeletable
      obtain rfl := Option.some.inj (htable.symm.trans hrun)
      exact h.deleted (hid ▸ hnames) hunits hanswers
        (hsound.step (show Call.run none s.fs.table (.delete name) = _ from htable))

/-- A run keeps names and blobs together. -/
theorem run {start : Nbfs2State B} (h : Kept superblob start) (hrun : FileRun Keeps start s) :
    Kept superblob s := by
  induction hrun with
  | refl => exact h
  | step _ hstep hok ih => exact ih.step hstep hok

end Kept

/-- From an empty table, every state that such requests lead to has names and blobs in
bijection. -/
theorem bijection_of_fileRun {superblob : BlobId} {start s : Nbfs2State B}
    (hinitial : Initial superblob start) (hrun : FileRun Keeps start s) : Bijection superblob s :=
  ((Kept.initial hinitial).run hrun).bijection

/-- A blobstore with its superblob. -/
def superOnly : Nbfs2State (MemStore.blobstore ()) where
  bs :=
    { blobs := Function.update (fun _ => none) 0 (some []), clusters := 0, mem := fun _ => none }
  fs := ⟨createTable capacity, 0⟩

theorem superOnly_initial : Initial 0 superOnly := by
  refine ⟨rfl, fun id => ?_⟩
  by_cases hid : id = 0
  · subst hid
    exact iff_of_true ⟨[], rfl⟩ rfl
  · refine iff_of_false ?_ hid
    rintro ⟨us, hus⟩
    have hnone : superOnly.bs.blobs id = none := by
      simp [superOnly, hid]
    cases hnone.symm.trans hus

/-- The table after `"ab"` was entered for blob 5. -/
def tableAb : HashTable :=
  { (createTable capacity).setItem (hashFunction keyAb)
      (some (createItem keyAb (blobid2char 5))) with count := 1 }

/-- With blob 5 created under the name `"ab"`. -/
def blobAb : Nbfs2State (MemStore.blobstore ()) where
  bs := { superOnly.bs with blobs := Function.update superOnly.bs.blobs 5 (some []) }
  fs := ⟨tableAb, metaDataSize⟩

/-- Creating a file under the name `"ab"`. -/
theorem create_ab : FileStep superOnly (.create keyAb none)
    [⟨.mallocFile, true⟩, ⟨.createBlob, ((5, 0) : BlobId × Int)⟩, ⟨.mallocItem, true⟩,
      ⟨.callback 0, ()⟩] blobAb := by
  have hcreate : MemStore.respond () superOnly.bs .createBlob ((5, 0) : BlobId × Int) blobAb.bs :=
    Or.inl ⟨rfl, rfl, rfl⟩
  exact .call rfl (.call hcreate (.call rfl (.call rfl .ret)))

theorem bijection_of_fileRun_one : ∃ s : Nbfs2State (MemStore.blobstore ()),
    NamesBlob s.fs keyAb 5 ∧ Bijection 0 s := by
  refine ⟨blobAb, ⟨blobid2char 5, rfl, rfl⟩,
    bijection_of_fileRun superOnly_initial (.step .refl create_ab ?_)⟩
  refine Or.inr ⟨rfl, fun value item hitem => ?_, Or.inr rfl⟩
  cases hitem

/-- Deleting `"ab"` deletes its blob and leaves its name. -/
theorem bijection_dangling : ¬ ∀ (superblob : BlobId)
    (start s : Nbfs2State (MemStore.blobstore ())),
    Initial superblob start → FileRun (fun _ _ _ _ => True) start s → Bijection superblob s := by
  intro hall
  obtain ⟨blobs, hblobs⟩ : ∃ blobs, blobs = Function.update blobAb.bs.blobs 5 none := ⟨_, rfl⟩
  let gone : Nbfs2State (MemStore.blobstore ()) := ⟨{ blobAb.bs with blobs }, ⟨tableAb, 0⟩⟩
  have hdelete : MemStore.respond () blobAb.bs (.deleteBlob 5) (0 : Int) gone.bs :=
    Or.inl ⟨rfl, by rw [← hblobs]⟩
  have hstep : FileStep blobAb (.delete keyAb) [⟨.deleteBlob 5, (0 : Int)⟩] gone :=
    .call hdelete .ret
  have hbijection := hall 0 superOnly gone superOnly_initial
    (.step (.step .refl create_ab trivial) hstep trivial)
  obtain ⟨⟨us, hus⟩, -⟩ := (hbijection.range 5).mp ⟨keyAb, blobid2char 5, rfl, rfl⟩
  have hnone : gone.bs.blobs 5 = none := by
    change blobs 5 = none
    rw [hblobs, Function.update_self]
  cases hnone.symm.trans hus

end Nbfs.Nbfs2
