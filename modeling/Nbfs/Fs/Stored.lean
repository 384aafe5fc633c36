import Nbfs.Fs.HalfBuilt
import Nbfs.Fs.Mounted

set_option autoImplicit false

/-!
# What the device has of each file

A blob that exists is that of a file, under whose name the tree finds it, or is about to be
deleted; once the file is created, its xattrs are those of the file.  A file that is being
created is known by the one operation that waits for it, a name that is on its way to the
device by the renames that wait for its blob.
-/

namespace Nbfs.Fs

open Nbfs.Lib

namespace BsOp

/-- A part of the creation of the file that comes before its xattrs. -/
def builds (r : FileRef) : BsOp → Bool
  | createBlob r' _ | createOpen r' _ _ | createResize r' _ _ => decide (r' = r)
  | _ => false

/-- The deletion of the blob. -/
def kills (id : BlobId) : BsOp → Bool
  | deleteBlob blobid _ => decide (blobid = some id)
  | _ => false

/-- Neither of these, and no open for a rename. -/
structure Plain (op : BsOp) : Prop where
  builds : ∀ r, op.builds r = false
  kills : ∀ id, op.kills id = false
  renames : ∀ id, op.renames id = none

/-- What waits for a file or its blob. -/
def Fits (s : Filesystem) (md : Metadata) : BsOp → Prop
  | createBlob r fn => fn.renames = false ∧ r < s.brk ∧
      ∀ f, s.files r = some f → f.blobid = none ∧ f.name ≠ none
  | createOpen r id fn => fn.renames = false ∧ r < s.brk ∧
      ∀ f, s.files r = some f → f.blobid = some id
  | createResize r blob fn => fn.renames = false ∧ r < s.brk ∧ ∃ h id, blob = some h ∧
      md.handle h = some id ∧ ∀ f, s.files r = some f → f.blobid = some id
  | createClose _ _ fn => fn.renames = false
  | openBlob r (some id) => r < s.brk ∧ ∀ f, s.files r = some f → f.blobid = some id
  | deleteBlob (some id) _ => md.xattrs id ≠ none ∧ ∀ r f, s.files r = some f → f.blobid ≠ some id
  | _ => True

/-- What is marked as deleted is a file that is deleted. -/
def Marks (s : Filesystem) (md : Metadata) (deleted : List FileRef) : BsOp → Prop
  | syncDeleted h _ => ∃ id, md.handle h = some id ∧
      ∀ r f, s.files r = some f → f.blobid = some id → r ∈ deleted
  | _ => True

end BsOp

namespace Filesystem

variable (s : Filesystem)

/-- How many parts of the file's creation wait. -/
def building (r : FileRef) : Nat := s.pending.countP (BsOp.builds r)

/-- How many deletions of the blob wait. -/
def killing (id : BlobId) : Nat := s.pending.countP (BsOp.kills id)

/-- The names that the blob is to get. -/
def newNames (id : BlobId) : List CString := s.pending.filterMap (BsOp.renames id)

variable {s} {op : BsOp}

theorem building_send (r : FileRef) :
    (s.send op).building r = s.building r + if op.builds r then 1 else 0 := by
  simp [building, send, List.countP_append, List.countP_singleton]

theorem killing_send (id : BlobId) :
    (s.send op).killing id = s.killing id + if op.kills id then 1 else 0 := by
  simp [killing, send, List.countP_append, List.countP_singleton]

theorem newNames_send (id : BlobId) :
    (s.send op).newNames id = s.newNames id ++ (op.renames id).toList := by
  rw [newNames, send, List.filterMap_append, newNames]
  cases hop : op.renames id with
  | none => simp [hop]
  | some n => simp [hop]

end Filesystem

/-- The xattrs of a file that is created, whose blob is to get the new names. -/
def Xattrs.Of (x : Xattrs) (newNames : List CString) (name : Option CString) : Prop :=
  (∃ length, x.length = some (length, 8)) ∧ (newNames = [] → x.name = name)

/-- The invariant, where a step has sent what waits behind the first `n`. -/
structure Stored (s : Filesystem) (md : Metadata) (created deleted : List FileRef) (n : Nat) :
    Prop where
  keyed : Keyed s
  named : ∀ r f, s.files r = some f →
    (∀ n, f.name = some n → s.names n = some r) ∧ (f.blobid ≠ none → f.name ≠ none)
  handles : ∀ r f h, s.files r = some f → f.blob = some h →
    f.blobid ≠ none ∧ md.handle h = f.blobid
  there : ∀ r f id, s.files r = some f → f.blobid = some id → md.xattrs id ≠ none
  apart : ∀ r r' f f' id, s.files r = some f → s.files r' = some f' → f.blobid = some id →
    f'.blobid = some id → r = r'
  fits : ∀ op ∈ s.pending, op.Fits s md
  builds : ∀ r, s.building r ≤ 1
  kills : ∀ id, s.killing id ≤ 1
  owned : ∀ id, md.xattrs id ≠ none →
    (∃ r f, s.files r = some f ∧ f.blobid = some id) ∨ 0 < s.killing id
  renamed : ∀ r f id n, s.files r = some f → f.blobid = some id →
    (s.newNames id).getLast? = some n → f.name = some n
  stored : ∀ r f id, s.files r = some f → f.blobid = some id → s.building r = 0 →
    ∃ x, md.xattrs id = some x ∧ x.Of (s.newNames id) f.name
  marked : ∀ r f, s.files r = some f → f.isDeleted = true → r ∈ deleted
  marks : ∀ r f id x, s.files r = some f → f.blobid = some id → md.xattrs id = some x →
    x.isDeleted = true → r ∈ deleted
  created : ∀ r ∈ created, r ∉ deleted →
    s.building r = 0 ∧ ∃ f, s.files r = some f ∧ f.blobid ≠ none
  sent : ∀ op ∈ s.pending.drop n, op.Marks s md deleted

namespace Stored

variable {s s' : Filesystem} {md md' : Metadata} {created deleted deleted' : List FileRef}
  {n n' : Nat} {r : FileRef} {fn : FileOp} {cb : CallRef} {mem : Memory} {name : CString}
  {op : BsOp}

/-! ### Steps that move no blob -/

/-- Files get other counts and handles, blobs a new length or the mark of a deletion. -/
structure Calm (s : Filesystem) (md : Metadata) (deleted : List FileRef) (s' : Filesystem)
    (md' : Metadata) (deleted' : List FileRef) : Prop where
  names : s'.names = s.names
  brk : s'.brk = s.brk
  pending : s'.pending = s.pending
  deleted : ∀ r ∈ deleted, r ∈ deleted'
  files : ∀ r f', s'.files r = some f' → ∃ f, s.files r = some f ∧ f'.name = f.name ∧
    f'.blobid = f.blobid ∧ (f'.isDeleted = true → f.isDeleted = true ∨ r ∈ deleted') ∧
      ∀ h, f'.blob = some h → f.blob = some h ∨ f.blobid ≠ none ∧ md'.handle h = f.blobid
  kept : ∀ r f, s.files r = some f → ∃ f', s'.files r = some f' ∧ f'.name = f.name ∧
    f'.blobid = f.blobid
  handle : ∀ h id, md.handle h = some id → md'.handle h = some id
  xattrs : ∀ id, md'.xattrs id = md.xattrs id ∨ ∃ x x', md.xattrs id = some x ∧
    md'.xattrs id = some x' ∧ x'.name = x.name ∧
      (x'.length = x.length ∨ ∃ length, x'.length = some (length, 8)) ∧
        (x'.isDeleted = true → x.isDeleted = true ∨
          ∀ r f, s.files r = some f → f.blobid = some id → r ∈ deleted')

theorem Calm.none_iff (h : Calm s md deleted s' md' deleted') (id : BlobId) :
    md'.xattrs id ≠ none ↔ md.xattrs id ≠ none := by
  rcases h.xattrs id with heq | ⟨x, x', hx, hx', -⟩
  · rw [heq]
  · simp [hx, hx']

/-- What waits stays fit. -/
theorem Fits.mono {op : BsOp} (hfit : op.Fits s md) (hbrk : s.brk ≤ s'.brk)
    (hfiles : ∀ r f', r < s.brk → s'.files r = some f' → ∃ f, s.files r = some f ∧
      (f.name ≠ none → f'.name ≠ none) ∧ f'.blobid = f.blobid)
    (hborn : ∀ r f' id, s.brk ≤ r → s'.files r = some f' → md.xattrs id ≠ none →
      f'.blobid ≠ some id)
    (hhandle : ∀ h id, md.handle h = some id → md'.handle h = some id)
    (hxattrs : ∀ id, md.xattrs id ≠ none → md'.xattrs id ≠ none) : op.Fits s' md' := by
  cases op with
  | createBlob r fn =>
      obtain ⟨hfn, hr, hfile⟩ := hfit
      refine ⟨hfn, Nat.lt_of_lt_of_le hr hbrk, fun f' hf' => ?_⟩
      obtain ⟨f, hf, hname, hblobid⟩ := hfiles r f' hr hf'
      rw [hblobid]
      exact (hfile f hf).imp_right hname
  | createOpen r id fn =>
      obtain ⟨hfn, hr, hfile⟩ := hfit
      refine ⟨hfn, Nat.lt_of_lt_of_le hr hbrk, fun f' hf' => ?_⟩
      obtain ⟨f, hf, -, hblobid⟩ := hfiles r f' hr hf'
      exact hblobid.trans (hfile f hf)
  | createResize r blob fn =>
      obtain ⟨hfn, hr, h, id, hblob, hid, hfile⟩ := hfit
      refine ⟨hfn, Nat.lt_of_lt_of_le hr hbrk, h, id, hblob, hhandle h id hid, fun f' hf' => ?_⟩
      obtain ⟨f, hf, -, hblobid⟩ := hfiles r f' hr hf'
      exact hblobid.trans (hfile f hf)
  | createClose blob rc fn => exact hfit
  | openBlob r blobid =>
      cases blobid with
      | none => trivial
      | some id =>
          obtain ⟨hr, hfile⟩ := hfit
          refine ⟨Nat.lt_of_lt_of_le hr hbrk, fun f' hf' => ?_⟩
          obtain ⟨f, hf, -, hblobid⟩ := hfiles r f' hr hf'
          exact hblobid.trans (hfile f hf)
  | deleteBlob blobid fn =>
      cases blobid with
      | none => trivial
      | some id =>
          obtain ⟨hthere, hfile⟩ := hfit
          refine ⟨hxattrs id hthere, fun r f' hf' => ?_⟩
          by_cases hr : r < s.brk
          · obtain ⟨f, hf, -, hblobid⟩ := hfiles r f' hr hf'
            exact hblobid ▸ hfile r f hf
          · exact hborn r f' id (Nat.not_lt.mp hr) hf' hthere
  | _ => trivial

/-- What is marked stays that of a file that is deleted. -/
theorem Marks.mono {op : BsOp} (hmarks : op.Marks s md deleted)
    (hfiles : ∀ r f' id, s'.files r = some f' → f'.blobid = some id →
      ∃ f, s.files r = some f ∧ f.blobid = some id)
    (hhandle : ∀ h id, md.handle h = some id → md'.handle h = some id)
    (hdeleted : ∀ r ∈ deleted, r ∈ deleted') : op.Marks s' md' deleted' := by
  cases op with
  | syncDeleted h fn =>
      obtain ⟨id, hid, hall⟩ := hmarks
      refine ⟨id, hhandle h id hid, fun r f' hf' hblobid => hdeleted r ?_⟩
      obtain ⟨f, hf, hold⟩ := hfiles r f' id hf' hblobid
      exact hall r f hf hold
  | _ => trivial

/-- A calm step keeps the invariant. -/
theorem calm (h : Stored s md created deleted n) (hkeyed : Keyed s')
    (hcalm : Calm s md deleted s' md' deleted') : Stored s' md' created deleted' n := by
  have hbuilding : ∀ r, s'.building r = s.building r := fun r => by
    rw [Filesystem.building, hcalm.pending, ← Filesystem.building]
  have hkilling : ∀ id, s'.killing id = s.killing id := fun id => by
    rw [Filesystem.killing, hcalm.pending, ← Filesystem.killing]
  have hnames : ∀ id, s'.newNames id = s.newNames id := fun id => by
    rw [Filesystem.newNames, hcalm.pending, ← Filesystem.newNames]
  refine
    { keyed := hkeyed
      named := fun r f' hf' => ?_
      handles := fun r f' b hf' hb => ?_
      there := fun r f' id hf' hid => ?_
      apart := fun r r' f f' id hf hf' hid hid' => ?_
      fits := fun op hop => ?_
      builds := fun r => (hbuilding r).trans_le (h.builds r)
      kills := fun id => (hkilling id).trans_le (h.kills id)
      owned := fun id hid => ?_
      renamed := fun r f' id n hf' hid hlast => ?_
      stored := fun r f' id hf' hid hbuilt => ?_
      marked := fun r f' hf' hdeleted => ?_
      marks := fun r f' id x' hf' hid hx' hdeleted => ?_
      created := fun r hr hnot => ?_
      sent := fun op hop => ?_ }
  · obtain ⟨f, hf, hname, hblobid, -⟩ := hcalm.files r f' hf'
    rw [hname, hblobid, hcalm.names]
    exact h.named r f hf
  · obtain ⟨f, hf, -, hblobid, -, hblob⟩ := hcalm.files r f' hf'
    rw [hblobid]
    rcases hblob b hb with hold | hnew
    · obtain ⟨hset, hhandle⟩ := h.handles r f b hf hold
      obtain ⟨id, hid⟩ := Option.ne_none_iff_exists'.mp hset
      exact ⟨hset, (hcalm.handle b id (hhandle.trans hid)).trans hid.symm⟩
    · exact hnew
  · obtain ⟨f, hf, -, hblobid, -⟩ := hcalm.files r f' hf'
    exact (hcalm.none_iff id).mpr (h.there r f id hf (hblobid ▸ hid))
  · obtain ⟨g, hg, -, hblobid, -⟩ := hcalm.files r f hf
    obtain ⟨g', hg', -, hblobid', -⟩ := hcalm.files r' f' hf'
    exact h.apart r r' g g' id hg hg' (hblobid ▸ hid) (hblobid' ▸ hid')
  · refine Fits.mono (h.fits op (hcalm.pending ▸ hop)) (Nat.le_of_eq hcalm.brk.symm)
      (fun r f' _ hf' => ?_) (fun r f' id hr hf' _ => ?_) hcalm.handle
      fun id => (hcalm.none_iff id).mpr
    · obtain ⟨f, hf, hname, hblobid, -⟩ := hcalm.files r f' hf'
      exact ⟨f, hf, fun hset => hname ▸ hset, hblobid⟩
    · obtain ⟨f, hf, -⟩ := hcalm.files r f' hf'
      cases hf.symm.trans (h.keyed.unborn r hr)
  · rw [hkilling]
    refine (h.owned id ((hcalm.none_iff id).mp hid)).imp_left ?_
    rintro ⟨r, f, hf, hblobid⟩
    obtain ⟨f', hf', -, hblobid'⟩ := hcalm.kept r f hf
    exact ⟨r, f', hf', hblobid'.trans hblobid⟩
  · obtain ⟨f, hf, hname, hblobid, -⟩ := hcalm.files r f' hf'
    rw [hname]
    exact h.renamed r f id n hf (hblobid ▸ hid) (hnames id ▸ hlast)
  · obtain ⟨f, hf, hname, hblobid, -⟩ := hcalm.files r f' hf'
    obtain ⟨x, hx, ⟨length, hlength⟩, hxname⟩ :=
      h.stored r f id hf (hblobid ▸ hid) (hbuilding r ▸ hbuilt)
    rw [hname, hnames]
    rcases hcalm.xattrs id with heq | ⟨y, x', hy, hx', hsame, hkept, -⟩
    · exact ⟨x, heq.trans hx, ⟨length, hlength⟩, hxname⟩
    · obtain rfl := Option.some.inj (hx.symm.trans hy)
      refine ⟨x', hx', ?_, fun hnone => hsame.trans (hxname hnone)⟩
      rcases hkept with hkept | hset
      · exact ⟨length, hkept.trans hlength⟩
      · exact hset
  · obtain ⟨f, hf, -, -, hmark, -⟩ := hcalm.files r f' hf'
    exact (hmark hdeleted).elim (fun hold => hcalm.deleted r (h.marked r f hf hold)) id
  · obtain ⟨f, hf, -, hblobid, -⟩ := hcalm.files r f' hf'
    have hid₀ : f.blobid = some id := hblobid ▸ hid
    rcases hcalm.xattrs id with heq | ⟨x, y, hx, hy, -, -, hmark⟩
    · exact hcalm.deleted r (h.marks r f id x' hf hid₀ (heq ▸ hx') hdeleted)
    · obtain rfl := Option.some.inj (hx'.symm.trans hy)
      rcases hmark hdeleted with hold | hall
      · exact hcalm.deleted r (h.marks r f id x hf hid₀ hx hold)
      · exact hall r f hf hid₀
  · obtain ⟨hbuilt, f, hf, hblobid⟩ := h.created r hr fun hold => hnot (hcalm.deleted r hold)
    obtain ⟨f', hf', -, hblobid'⟩ := hcalm.kept r f hf
    exact ⟨(hbuilding r).trans hbuilt, f', hf', hblobid' ▸ hblobid⟩
  · refine Marks.mono (h.sent op (hcalm.pending ▸ hop)) (fun r f' id hf' hid => ?_) hcalm.handle
      hcalm.deleted
    obtain ⟨f, hf, -, hblobid, -⟩ := hcalm.files r f' hf'
    exact ⟨f, hf, hblobid ▸ hid⟩

/-! ### What waits -/

/-- What waits is changed, but not what is known by it. -/
theorem repend (h : Stored s md created deleted n) {p : List BsOp}
    (hfits : ∀ op ∈ p, op.Fits s md)
    (hbuilds : ∀ r, p.countP (BsOp.builds r) = s.building r)
    (hkills : ∀ id, p.countP (BsOp.kills id) = s.killing id)
    (hnames : ∀ id, p.filterMap (BsOp.renames id) = s.newNames id)
    (hsent : ∀ op ∈ p.drop n', op.Marks s md deleted) :
    Stored { s with pending := p } md created deleted n' where
  keyed := h.keyed.congr rfl rfl rfl
  named := h.named
  handles := h.handles
  there := h.there
  apart := h.apart
  fits op hop := by
    refine Fits.mono (hfits op hop) (Nat.le_refl _) (fun r f _ hf => ⟨f, hf, id, rfl⟩) ?_
      (fun _ _ hh => hh) fun _ hh => hh
    intro r f id hr hf _
    cases hf.symm.trans (h.keyed.unborn r hr)
  builds r := (hbuilds r).trans_le (h.builds r)
  kills id := (hkills id).trans_le (h.kills id)
  owned id hid := by
    rw [Filesystem.killing, hkills]
    exact h.owned id hid
  renamed r f id n hf hid hlast := by
    rw [Filesystem.newNames, hnames] at hlast
    exact h.renamed r f id n hf hid hlast
  stored r f id hf hid hbuilt := by
    rw [Filesystem.building, hbuilds] at hbuilt
    rw [Filesystem.newNames, hnames]
    exact h.stored r f id hf hid hbuilt
  marked := h.marked
  marks := h.marks
  created r hr hnot := by
    rw [Filesystem.building, hbuilds]
    exact h.created r hr hnot
  sent op hop := Marks.mono (hsent op hop) (fun _ f _ hf hid => ⟨f, hf, hid⟩) (fun _ _ hh => hh)
    fun _ hr => hr

/-- What a step has sent, and something more. -/
theorem sent_concat (h : Stored s md created deleted n) (hmarks : op.Marks s md deleted) :
    ∀ op' ∈ (s.pending ++ [op]).drop n, op'.Marks s md deleted := by
  intro op' hop'
  rw [List.drop_append] at hop'
  rcases List.mem_append.mp hop' with hold | hnew
  · exact h.sent op' hold
  · exact List.mem_singleton.mp (List.mem_of_mem_drop hnew) ▸ hmarks

theorem send (h : Stored s md created deleted n) (hplain : op.Plain) (hfit : op.Fits s md)
    (hmarks : op.Marks s md deleted) : Stored (s.send op) md created deleted n := by
  refine h.repend (p := s.pending ++ [op]) (fun op' hop' => ?_) (fun r => ?_) (fun id => ?_)
    (fun id => ?_) (h.sent_concat hmarks)
  · rcases List.mem_append.mp hop' with hold | hnew
    · exact h.fits op' hold
    · exact List.mem_singleton.mp hnew ▸ hfit
  · simp [List.countP_append, hplain.builds, Filesystem.building]
  · simp [List.countP_append, hplain.kills, Filesystem.killing]
  · simp [List.filterMap_append, hplain.renames, Filesystem.newNames]

/-- What is not known by what waits is taken from it. -/
theorem take (h : Stored s md created deleted n) {i : Nat} (hop : s.pending[i]? = some op)
    (hplain : op.Plain) :
    Stored { s with pending := s.pending.eraseIdx i } md created deleted
      (s.pending.eraseIdx i).length := by
  refine h.repend (fun op' hop' => h.fits op' (mem_of_taken hop')) (fun r => ?_) (fun id => ?_)
    (fun id => filterMap_taken hop (hplain.renames id)) fun op' hop' => ?_
  · have hcount := countP_taken (BsOp.builds r) hop
    rw [hplain.builds r] at hcount
    exact hcount.symm
  · have hcount := countP_taken (BsOp.kills id) hop
    rw [hplain.kills id] at hcount
    exact hcount.symm
  · rw [List.drop_length] at hop'
    cases hop'

/-! ### Files -/

/-- Replies and the handles of clients do not matter. -/
theorem congr (h : Stored s md created deleted n) (hfiles : s'.files = s.files)
    (hnames : s'.names = s.names) (hbrk : s'.brk = s.brk) (hpending : s'.pending = s.pending) :
    Stored s' md created deleted n := by
  refine h.calm (h.keyed.congr hfiles hnames hbrk) ⟨hnames, hbrk, hpending, fun _ hr => hr,
    fun r f hf => ⟨f, hfiles ▸ hf, rfl, rfl, Or.inl, fun _ hb => Or.inl hb⟩,
    fun r f hf => ⟨f, hfiles ▸ hf, rfl, rfl⟩, fun _ _ hh => hh, fun _ => Or.inl rfl⟩

/-- The metadata changes, but no xattrs. -/
theorem metadata (h : Stored s md created deleted n) (hxattrs : ∀ id, md'.xattrs id = md.xattrs id)
    (hhandle : ∀ h id, md.handle h = some id → md'.handle h = some id) :
    Stored s md' created deleted n :=
  h.calm h.keyed ⟨rfl, rfl, rfl, fun _ hr => hr,
    fun _ f hf => ⟨f, hf, rfl, rfl, Or.inl, fun _ hb => Or.inl hb⟩,
    fun _ f hf => ⟨f, hf, rfl, rfl⟩, hhandle, fun id => Or.inl (hxattrs id)⟩

/-- More files are deleted. -/
theorem delete (h : Stored s md created deleted n) (more : List FileRef) :
    Stored s md created (more ++ deleted) n :=
  h.calm h.keyed ⟨rfl, rfl, rfl, fun _ hr => List.mem_append_right _ hr,
    fun _ f hf => ⟨f, hf, rfl, rfl, Or.inl, fun _ hb => Or.inl hb⟩,
    fun _ f hf => ⟨f, hf, rfl, rfl⟩, fun _ _ hh => hh, fun _ => Or.inl rfl⟩

/-- A file keeps its name and its blob. -/
theorem setFile (h : Stored s md created deleted n) {f : SpdkFile} (f' : SpdkFile)
    (hf : s.files r = some f) (hname : f'.name = f.name) (hblobid : f'.blobid = f.blobid)
    (hblob : ∀ b, f'.blob = some b → f.blob = some b ∨ f.blobid ≠ none ∧ md.handle b = f.blobid)
    (hmark : f'.isDeleted = true → f.isDeleted = true ∨ r ∈ deleted) :
    Stored (s.setFile r f') md created deleted n := by
  refine h.calm (h.keyed.setFile hf hname) ⟨rfl, rfl, rfl, fun _ hr => hr, fun r' g hg => ?_,
    fun r' g hg => ?_, fun _ _ hh => hh, fun _ => Or.inl rfl⟩
  · by_cases hr : r' = r
    · subst hr
      rw [Filesystem.setFile_files_self, Option.some.injEq] at hg
      subst hg
      exact ⟨f, hf, hname, hblobid, hmark, hblob⟩
    · rw [Filesystem.setFile_files_ne _ hr] at hg
      exact ⟨g, hg, rfl, rfl, Or.inl, fun _ hb => Or.inl hb⟩
  · by_cases hr : r' = r
    · subst hr
      obtain rfl := Option.some.inj (hf.symm.trans hg)
      exact ⟨f', Filesystem.setFile_files_self .., hname, hblobid⟩
    · exact ⟨g, (Filesystem.setFile_files_ne _ hr).trans hg, rfl, rfl⟩

/-! ### Opens -/

theorem fsOpenBlobDone (h : Stored s md created deleted n) {blob : Option BlobRef} {bserrno : Int}
    (hblob : ∀ f b, s.files r = some f → blob = some b → f.blob = some b ∨
      f.blobid ≠ none ∧ md.handle b = f.blobid)
    (hdone : s.fsOpenBlobDone r blob bserrno = .ok s') : Stored s' md created deleted n := by
  obtain ⟨f, hf, rfl⟩ := Filesystem.fsOpenBlobDone_ok hdone
  exact (h.setFile { f with blob, openRequests := [] } hf rfl rfl
    (fun b => hblob f b hf) Or.inl).congr rfl rfl rfl rfl

theorem fsOpenBlobCreateCb (h : Stored s md created deleted n) {file : Option FileRef}
    (hopen : s.fsOpenBlobCreateCb file name cb = .ok s') : Stored s' md created deleted n := by
  obtain ⟨r, old, -, hold, hcases⟩ := Filesystem.fsOpenBlobCreateCb_ok hopen
  have hopened : Stored (s.setFile r (old.opened cb)) md created deleted n :=
    h.setFile _ hold rfl rfl (fun _ => Or.inl) Or.inl
  rcases hcases with ⟨-, -, rfl⟩ | ⟨-, -, rfl⟩ | ⟨-, -, hdone⟩
  · refine hopened.send ⟨fun _ => rfl, fun _ => rfl, fun _ => rfl⟩ ?_ trivial
    cases hblobid : old.blobid with
    | none => trivial
    | some id =>
        refine ⟨h.keyed.lt_brk hold, fun f hf => ?_⟩
        rw [Filesystem.setFile_files_self, Option.some.injEq] at hf
        subst hf
        exact hblobid
  · exact hopened
  · refine hopened.fsOpenBlobDone (fun f b hf hb => ?_) hdone
    rw [Filesystem.setFile_files_self, Option.some.injEq] at hf
    subst hf
    exact Or.inl hb

/-! ### Renames and callbacks -/

/-- A rename to a name that is free takes the file there, and its blob is to follow. -/
theorem fsMdRenameFile (h : Stored s md created deleted n) {oldName newName : CString}
    (hfree : s.names oldName = none ∨ s.names newName = none)
    (hrename : s.fsMdRenameFile oldName newName cb = .ok s') : Stored s' md created deleted n := by
  have hkeyed := h.keyed.fsMdRenameFile hrename
  rcases Filesystem.fsMdRenameFile_ok hrename with ⟨-, rfl⟩ | ⟨r, f, name, hold, hf, hname, hs'⟩
  · exact h.congr rfl rfl rfl rfl
  obtain ⟨rfl, -⟩ := h.keyed.inj hf hname hold hold
  have hnew : s.names newName = none := hfree.resolve_left (by simp [hold])
  have hne : newName ≠ oldName := by
    rintro rfl
    cases hold.symm.trans hnew
  have hself : s'.names newName = some r := by
    rw [hs']
    refine (BplusTree.insertName_self ..).trans ?_
    rw [BplusTree.removeName, Function.update_of_ne hne, hnew, Option.getD_none]
  have hother : ∀ n r', r' ≠ r → s.names n = some r' → s'.names n = some r' := by
    intro n r' hr hn
    have hn₁ : n ≠ newName := by
      rintro rfl
      cases hn.symm.trans hnew
    have hn₂ : n ≠ oldName := by
      rintro rfl
      exact hr (Option.some.inj (hn.symm.trans hold))
    rw [hs']
    refine (BplusTree.insertName_of_ne _ hn₁).trans ?_
    rw [BplusTree.removeName, Function.update_of_ne hn₂, hn]
  have hset : s'.files = (s.setFile r { f with name := some newName }).files := by
    rw [hs']
    rfl
  have hfiles : ∀ r' f', s'.files r' = some f' →
      r' = r ∧ f' = { f with name := some newName } ∨ r' ≠ r ∧ s.files r' = some f' := by
    intro r' f' hf'
    rw [hset] at hf'
    by_cases hr : r' = r
    · subst hr
      rw [Filesystem.setFile_files_self, Option.some.injEq] at hf'
      exact Or.inl ⟨rfl, hf'.symm⟩
    · rw [Filesystem.setFile_files_ne _ hr] at hf'
      exact Or.inr ⟨hr, hf'⟩
  have hblobids : ∀ r' f', s'.files r' = some f' →
      ∃ g, s.files r' = some g ∧ f'.blobid = g.blobid ∧ f'.blob = g.blob ∧
        f'.isDeleted = g.isDeleted ∧ (g.name ≠ none → f'.name ≠ none) := by
    intro r' f' hf'
    rcases hfiles r' f' hf' with ⟨rfl, rfl⟩ | ⟨-, hf'⟩
    · exact ⟨f, hf, rfl, rfl, rfl, by simp⟩
    · exact ⟨f', hf', rfl, rfl, rfl, fun hh => hh⟩
  have hkept : ∀ r' g, s.files r' = some g →
      ∃ f', s'.files r' = some f' ∧ f'.blobid = g.blobid := by
    intro r' g hg
    rw [hset]
    by_cases hr : r' = r
    · subst hr
      obtain rfl := Option.some.inj (hf.symm.trans hg)
      exact ⟨_, Filesystem.setFile_files_self .., rfl⟩
    · exact ⟨g, (Filesystem.setFile_files_ne _ hr).trans hg, rfl⟩
  -- Only the new name waits more than before.
  have hpending : s'.pending = s.pending ++ [.renameOpen f.blobid newName cb] := by
    rw [hs']
    rfl
  have hbuilding : ∀ r', s'.building r' = s.building r' := fun r' => by
    rw [hs']
    exact Filesystem.building_send r'
  have hkilling : ∀ id, s'.killing id = s.killing id := fun id => by
    rw [hs']
    exact Filesystem.killing_send id
  have hnames : ∀ id,
      s'.newNames id = s.newNames id ++ if f.blobid = some id then [newName] else [] := by
    intro id
    rw [hs']
    refine (Filesystem.newNames_send id).trans (congrArg (s.newNames id ++ ·) ?_)
    by_cases hid : f.blobid = some id
    · simp [BsOp.renames, hid]
    · simp [BsOp.renames, hid]
  refine
    { keyed := hkeyed
      named := fun r' f' hf' => ?_
      handles := fun r' f' b hf' hb => ?_
      there := fun r' f' id hf' hid => ?_
      apart := fun r₁ r₂ f₁ f₂ id hf₁ hf₂ hid₁ hid₂ => ?_
      fits := fun op hop => ?_
      builds := fun r' => (hbuilding r').trans_le (h.builds r')
      kills := fun id => (hkilling id).trans_le (h.kills id)
      owned := fun id hid => ?_
      renamed := fun r' f' id n hf' hid hlast => ?_
      stored := fun r' f' id hf' hid hbuilt => ?_
      marked := fun r' f' hf' hdeleted => ?_
      marks := fun r' f' id x hf' hid hx hdeleted => ?_
      created := fun r' hr' hnot => ?_
      sent := fun op hop => ?_ }
  · rcases hfiles r' f' hf' with ⟨rfl, rfl⟩ | ⟨hr, hold'⟩
    · refine ⟨fun n hn => ?_, by simp⟩
      obtain rfl := Option.some.inj hn
      exact hself
    · exact ⟨fun n hn => hother n r' hr ((h.named r' f' hold').1 n hn), (h.named r' f' hold').2⟩
  · obtain ⟨g, hg, hblobid, hblob, -⟩ := hblobids r' f' hf'
    rw [hblobid]
    exact h.handles r' g b hg (hblob ▸ hb)
  · obtain ⟨g, hg, hblobid, -⟩ := hblobids r' f' hf'
    exact h.there r' g id hg (hblobid ▸ hid)
  · obtain ⟨g₁, hg₁, hblobid₁, -⟩ := hblobids r₁ f₁ hf₁
    obtain ⟨g₂, hg₂, hblobid₂, -⟩ := hblobids r₂ f₂ hf₂
    exact h.apart r₁ r₂ g₁ g₂ id hg₁ hg₂ (hblobid₁ ▸ hid₁) (hblobid₂ ▸ hid₂)
  · rw [hpending] at hop
    rcases List.mem_append.mp hop with hop | hop
    · refine Fits.mono (h.fits op hop) (hs' ▸ Nat.le_refl _) (fun r' f' _ hf' => ?_)
        (fun r' f' id hr' hf' _ => ?_) (fun _ _ hh => hh) fun _ hh => hh
      · obtain ⟨g, hg, hblobid, -, -, hset⟩ := hblobids r' f' hf'
        exact ⟨g, hg, hset, hblobid⟩
      · obtain ⟨g, hg, -⟩ := hblobids r' f' hf'
        cases hg.symm.trans (h.keyed.unborn r' hr')
    · exact List.mem_singleton.mp hop ▸ trivial
  · rw [hkilling]
    refine (h.owned id hid).imp_left ?_
    rintro ⟨r', g, hg, hblobid⟩
    obtain ⟨f', hf', hblobid'⟩ := hkept r' g hg
    exact ⟨r', f', hf', hblobid'.trans hblobid⟩
  · rw [hnames] at hlast
    rcases hfiles r' f' hf' with ⟨rfl, rfl⟩ | ⟨hr, hold'⟩
    · rw [if_pos hid, List.getLast?_concat] at hlast
      exact hlast
    · have hother : f.blobid ≠ some id := fun hid' => hr (h.apart r' r f' f id hold' hf hid hid')
      rw [if_neg hother, List.append_nil] at hlast
      exact h.renamed r' f' id n hold' hid hlast
  · rw [hbuilding] at hbuilt
    rw [hnames]
    rcases hfiles r' f' hf' with ⟨rfl, rfl⟩ | ⟨hr, hold'⟩
    · obtain ⟨x, hx, hlength, -⟩ := h.stored r' f id hf hid hbuilt
      refine ⟨x, hx, hlength, fun hnil => ?_⟩
      rw [if_pos hid] at hnil
      simp at hnil
    · have hother : f.blobid ≠ some id := fun hid' => hr (h.apart r' r f' f id hold' hf hid hid')
      rw [if_neg hother, List.append_nil]
      exact h.stored r' f' id hold' hid hbuilt
  · obtain ⟨g, hg, -, -, hmark, -⟩ := hblobids r' f' hf'
    exact h.marked r' g hg (hmark ▸ hdeleted)
  · obtain ⟨g, hg, hblobid, -⟩ := hblobids r' f' hf'
    exact h.marks r' g id x hg (hblobid ▸ hid) hx hdeleted
  · rw [hbuilding]
    obtain ⟨hbuilt, g, hg, hblobid⟩ := h.created r' hr' hnot
    obtain ⟨f', hf', hblobid'⟩ := hkept r' g hg
    exact ⟨hbuilt, f', hf', hblobid' ▸ hblobid⟩
  · rw [hpending] at hop
    have hmarks : (BsOp.renameOpen f.blobid newName cb).Marks s md deleted := trivial
    refine Marks.mono (h.sent_concat hmarks op hop)
      (fun r' f' id hf' hid => ?_) (fun _ _ hh => hh) fun _ hr' => hr'
    obtain ⟨g, hg, hblobid, -⟩ := hblobids r' f' hf'
    exact ⟨g, hg, hblobid ▸ hid⟩

theorem callFileOp (h : Stored s md created deleted n) {fserrno : Int}
    (hmoves : ∀ oldName newName cb, fn = .fsRenameDeleteDone oldName newName cb →
      s.names oldName = none ∨ s.names newName = none)
    (hcall : s.callFileOp fn fserrno = .ok s') : Stored s' md created deleted n := by
  rcases Filesystem.callFileOp_ok hcall with
    ⟨cb, rfl⟩ | ⟨name, cb, -, hopen⟩ | ⟨oldName, newName, cb, hfn, hrename⟩
  · exact h.congr rfl rfl rfl rfl
  · exact h.fsOpenBlobCreateCb hopen
  · exact h.fsMdRenameFile (hmoves oldName newName cb hfn) hrename

/-- A callback that renames nothing. -/
theorem callFileOp_plain (h : Stored s md created deleted n) {fserrno : Int}
    (hfn : fn.renames = false) (hcall : s.callFileOp fn fserrno = .ok s') :
    Stored s' md created deleted n := by
  refine h.callFileOp (fun _ _ _ heq => ?_) hcall
  subst heq
  cases hfn

/-! ### Creations -/

/-- A new file has no blob. -/
theorem fileAlloc (h : Stored s md created deleted n) {f : SpdkFile}
    (habsent : s.names name = none) (hname : ∀ name', f.name = some name' → name' = name)
    (hblobid : f.blobid = none) (hblob : f.blob = none) (hunmarked : f.isDeleted = false) :
    Stored ((s.fileAlloc name).setFile s.brk f) md created deleted n := by
  have hfiles : ∀ r f', ((s.fileAlloc name).setFile s.brk f).files r = some f' →
      r = s.brk ∧ f' = f ∨ r ≠ s.brk ∧ s.files r = some f' := by
    intro r f' hf'
    by_cases hr : r = s.brk
    · subst hr
      rw [Filesystem.setFile_files_self, Option.some.injEq] at hf'
      exact Or.inl ⟨rfl, hf'.symm⟩
    · rw [Filesystem.setFile_files_ne _ hr, Filesystem.fileAlloc_files_ne hr] at hf'
      exact Or.inr ⟨hr, hf'⟩
  have hblobids : ∀ r f' id, ((s.fileAlloc name).setFile s.brk f).files r = some f' →
      f'.blobid = some id → s.files r = some f' := by
    intro r f' id hf' hid
    rcases hfiles r f' hf' with ⟨-, rfl⟩ | ⟨-, hold⟩
    · cases hblobid.symm.trans hid
    · exact hold
  have hkept : ∀ r f', s.files r = some f' →
      ((s.fileAlloc name).setFile s.brk f).files r = some f' := by
    intro r f' hf'
    have hr : r ≠ s.brk := Nat.ne_of_lt (h.keyed.lt_brk hf')
    exact (Filesystem.setFile_files_ne _ hr).trans ((Filesystem.fileAlloc_files_ne hr).trans hf')
  refine
    { keyed := h.keyed.fileAlloc habsent hname
      named := fun r f' hf' => ?_
      handles := fun r f' b hf' hb => ?_
      there := fun r f' id hf' hid => h.there r f' id (hblobids r f' id hf' hid) hid
      apart := fun r r' f₁ f₂ id hf₁ hf₂ hid₁ hid₂ => h.apart r r' f₁ f₂ id
        (hblobids r f₁ id hf₁ hid₁) (hblobids r' f₂ id hf₂ hid₂) hid₁ hid₂
      fits := fun op hop => ?_
      builds := h.builds
      kills := h.kills
      owned := fun id hid => (h.owned id hid).imp_left ?_
      renamed := fun r f' id n hf' hid => h.renamed r f' id n (hblobids r f' id hf' hid) hid
      stored := fun r f' id hf' hid => h.stored r f' id (hblobids r f' id hf' hid) hid
      marked := fun r f' hf' hdeleted => ?_
      marks := fun r f' id x hf' hid => h.marks r f' id x (hblobids r f' id hf' hid) hid
      created := fun r hr hnot => ?_
      sent := fun op hop => Marks.mono (h.sent op hop)
        (fun r f' id hf' hid => ⟨f', hblobids r f' id hf' hid, hid⟩) (fun _ _ hh => hh)
        fun _ hr => hr }
  · rcases hfiles r f' hf' with ⟨rfl, rfl⟩ | ⟨-, hold⟩
    · refine ⟨fun n hn => ?_, fun hset => absurd hblobid hset⟩
      obtain rfl := hname n hn
      refine (BplusTree.insertName_self ..).trans ?_
      rw [habsent, Option.getD_none]
    · obtain ⟨hnames, hset⟩ := h.named r f' hold
      refine ⟨fun n hn => ?_, hset⟩
      have hne : n ≠ name := by
        rintro rfl
        cases (hnames n hn).symm.trans habsent
      exact (BplusTree.insertName_of_ne _ hne).trans (hnames n hn)
  · rcases hfiles r f' hf' with ⟨rfl, rfl⟩ | ⟨-, hold⟩
    · cases hblob.symm.trans hb
    · exact h.handles r f' b hold hb
  · refine Fits.mono (h.fits op hop) (Nat.le_succ _) (fun r f' hr hf' => ?_)
      (fun r f' id hr hf' _ hid => ?_) (fun _ _ hh => hh) fun _ hh => hh
    · rcases hfiles r f' hf' with ⟨rfl, -⟩ | ⟨-, hold⟩
      · exact absurd hr (Nat.lt_irrefl _)
      · exact ⟨f', hold, fun hset => hset, rfl⟩
    · cases (hblobids r f' id hf' hid).symm.trans (h.keyed.unborn r hr)
  · rintro ⟨r, f', hf', hid⟩
    exact ⟨r, f', hkept r f' hf', hid⟩
  · rcases hfiles r f' hf' with ⟨-, rfl⟩ | ⟨-, hold⟩
    · cases hunmarked.symm.trans hdeleted
    · exact h.marked r f' hold hdeleted
  · obtain ⟨hbuilt, f', hf', hset⟩ := h.created r hr hnot
    exact ⟨hbuilt, f', hkept r f' hf', hset⟩

/-- And waits for it. -/
theorem send_createBlob (h : Stored s md created deleted n) {f : SpdkFile}
    (hf : s.files r = some f) (hblobid : f.blobid = none) (hname : f.name ≠ none)
    (hnone : s.building r = 0) (hfn : fn.renames = false) :
    Stored (s.send (.createBlob r fn)) md created deleted n := by
  have hbuilding : ∀ r', r' ≠ r → (s.send (.createBlob r fn)).building r' = s.building r' := by
    intro r' hr
    refine (Filesystem.building_send r').trans ?_
    simp [BsOp.builds, hr.symm]
  have hnames : ∀ id, (s.send (.createBlob r fn)).newNames id = s.newNames id := fun id => by
    rw [Filesystem.newNames_send]
    exact List.append_nil _
  have hother : ∀ r' f', s.files r' = some f' → f'.blobid ≠ none → r' ≠ r := by
    rintro r' f' hf' hset rfl
    obtain rfl := Option.some.inj (hf.symm.trans hf')
    exact hset hblobid
  have hsent : ∀ op ∈ (s.pending ++ [BsOp.createBlob r fn]).drop n, op.Marks s md deleted :=
    h.sent_concat trivial
  refine
    { keyed := h.keyed.congr rfl rfl rfl
      named := h.named
      handles := h.handles
      there := h.there
      apart := h.apart
      fits := fun op hop => ?_
      builds := fun r' => ?_
      kills := fun id => (Filesystem.killing_send id).trans_le (h.kills id)
      owned := fun id hid => ?_
      renamed := fun r' f' id n hf' hid hlast => ?_
      stored := fun r' f' id hf' hid hbuilt => ?_
      marked := h.marked
      marks := h.marks
      created := fun r' hr' hnot => ?_
      sent := fun op hop => Marks.mono (hsent op hop)
        (fun _ f' _ hf' hid => ⟨f', hf', hid⟩) (fun _ _ hh => hh) fun _ hr => hr }
  · rcases List.mem_append.mp hop with hop | hop
    · refine Fits.mono (h.fits op hop) (Nat.le_refl _) (fun r f _ hf => ⟨f, hf, id, rfl⟩) ?_
        (fun _ _ hh => hh) fun _ hh => hh
      intro r' f' id hr' hf' _
      cases hf'.symm.trans (h.keyed.unborn r' hr')
    · obtain rfl := List.mem_singleton.mp hop
      refine ⟨hfn, h.keyed.lt_brk hf, fun f' hf' => ?_⟩
      obtain rfl := Option.some.inj (hf.symm.trans hf')
      exact ⟨hblobid, hname⟩
  · by_cases hr : r' = r
    · subst hr
      rw [Filesystem.building_send, hnone]
      simp [BsOp.builds]
    · exact (hbuilding r' hr).trans_le (h.builds r')
  · refine (h.owned id hid).imp_right fun hpos => ?_
    rw [Filesystem.killing_send]
    exact Nat.lt_of_lt_of_le hpos (Nat.le_add_right ..)
  · rw [hnames] at hlast
    exact h.renamed r' f' id n hf' hid hlast
  · rw [hbuilding r' (hother r' f' hf' (by simp [hid]))] at hbuilt
    rw [hnames]
    exact h.stored r' f' id hf' hid hbuilt
  · obtain ⟨hbuilt, f', hf', hset⟩ := h.created r' hr' hnot
    exact ⟨(hbuilding r' (hother r' f' hf' hset)).trans hbuilt, f', hf', hset⟩

/-- Nothing waits for a file that is not there yet. -/
theorem building_unborn (h : Stored s md created deleted n) (hr : s.brk ≤ r) :
    s.building r = 0 := by
  refine List.countP_eq_zero.mpr fun op hop hbuilds => ?_
  have hfit := h.fits op hop
  cases op with
  | createBlob r' fn =>
      obtain rfl := of_decide_eq_true hbuilds
      exact absurd hfit.2.1 (Nat.not_lt.mpr hr)
  | createOpen r' id fn =>
      obtain rfl := of_decide_eq_true hbuilds
      exact absurd hfit.2.1 (Nat.not_lt.mpr hr)
  | createResize r' blob fn =>
      obtain rfl := of_decide_eq_true hbuilds
      exact absurd hfit.2.1 (Nat.not_lt.mpr hr)
  | _ => cases hbuilds

theorem spdkFsCreateFileAsync (h : Stored s md created deleted n) (hfn : fn.renames = false)
    (hcreate : s.spdkFsCreateFileAsync name fn mem = .ok s') :
    Stored s' md created deleted n := by
  rcases Filesystem.spdkFsCreateFileAsync_ok hcreate with
    ⟨_, hcall⟩ | ⟨habsent, -, hcall⟩ | ⟨habsent, -, rfl⟩
  · exact h.callFileOp_plain hfn hcall
  · have halloc : Stored (s.fileAlloc name) md created deleted n := by
      refine (h.fileAlloc habsent (f := ⟨none, none, none, 0, false, []⟩) (by simp) rfl rfl
        rfl).congr ?_ rfl rfl rfl
      exact (Function.update_idem ..).symm
    exact halloc.callFileOp_plain hfn hcall
  · have halloc : Stored ((s.fileAlloc name).setFile s.brk ⟨some name, none, none, 0, false, []⟩)
        md created deleted n :=
      h.fileAlloc habsent (fun name' hname => (Option.some.inj hname).symm) rfl rfl rfl
    exact halloc.send_createBlob (Filesystem.setFile_files_self ..) rfl (by simp)
      (h.building_unborn (Nat.le_refl _)) hfn

/-! ### Deletions -/

/-- A file is freed, and its blob is to be deleted. -/
theorem fileFree (h : Stored s md created deleted n) {f : SpdkFile} (hf : s.files r = some f)
    (hname : f.name = some name) (hdeleted : r ∈ deleted) (fn : FileOp) :
    Stored ({ s.fileFree r with names := BplusTree.removeName s.names name }.send
      (.deleteBlob f.blobid fn)) md created deleted n := by
  have hentry : s.names name = some r := (h.named r f hf).1 name hname
  have hfiles : ∀ r' f', (s.fileFree r).files r' = some f' → r' ≠ r ∧ s.files r' = some f' := by
    intro r' f' hf'
    by_cases hr : r' = r
    · subst hr
      cases (Filesystem.fileFree_files_self s r').symm.trans hf'
    · exact ⟨hr, (Filesystem.fileFree_files_ne hr).symm.trans hf'⟩
  have hkilling : ∀ id, (Filesystem.send { s.fileFree r with
      names := BplusTree.removeName s.names name } (.deleteBlob f.blobid fn)).killing id =
        s.killing id + if f.blobid = some id then 1 else 0 := by
    intro id
    refine (Filesystem.killing_send id).trans ?_
    by_cases hid : f.blobid = some id
    · simp [BsOp.kills, hid, Filesystem.killing, Filesystem.fileFree]
    · simp [BsOp.kills, hid, Filesystem.killing, Filesystem.fileFree]
  have hnokill : ∀ id, f.blobid = some id → s.killing id = 0 := by
    intro id hid
    refine List.countP_eq_zero.mpr fun op hop hkills => ?_
    cases op with
    | deleteBlob blobid fn' =>
        obtain rfl := of_decide_eq_true hkills
        exact (h.fits _ hop).2 r f hf hid
    | _ => cases hkills
  have hnames : ∀ id, (Filesystem.send { s.fileFree r with
      names := BplusTree.removeName s.names name } (.deleteBlob f.blobid fn)).newNames id =
        s.newNames id := fun id => by
    rw [Filesystem.newNames_send]
    exact List.append_nil _
  have hsent : ∀ op ∈ (s.pending ++ [BsOp.deleteBlob f.blobid fn]).drop n, op.Marks s md deleted :=
    h.sent_concat trivial
  refine
    { keyed := (h.keyed.fileFree hentry hf hname).congr rfl rfl rfl
      named := fun r' f' hf' => ?_
      handles := fun r' f' b hf' => h.handles r' f' b (hfiles r' f' hf').2
      there := fun r' f' id hf' => h.there r' f' id (hfiles r' f' hf').2
      apart := fun r₁ r₂ f₁ f₂ id hf₁ hf₂ => h.apart r₁ r₂ f₁ f₂ id (hfiles r₁ f₁ hf₁).2
        (hfiles r₂ f₂ hf₂).2
      fits := fun op hop => ?_
      builds := fun r' => (Filesystem.building_send r').trans_le (h.builds r')
      kills := fun id => ?_
      owned := fun id hid => ?_
      renamed := fun r' f' id n hf' hid hlast => ?_
      stored := fun r' f' id hf' hid hbuilt => ?_
      marked := fun r' f' hf' => h.marked r' f' (hfiles r' f' hf').2
      marks := fun r' f' id x hf' => h.marks r' f' id x (hfiles r' f' hf').2
      created := fun r' hr' hnot => ?_
      sent := fun op hop => Marks.mono (hsent op hop)
        (fun r' f' _ hf' hid => ⟨f', (hfiles r' f' hf').2, hid⟩) (fun _ _ hh => hh)
        fun _ hr => hr }
  · obtain ⟨hr, hold⟩ := hfiles r' f' hf'
    obtain ⟨hnamed, hset⟩ := h.named r' f' hold
    refine ⟨fun n hn => ?_, hset⟩
    have hne : n ≠ name := by
      rintro rfl
      exact hr (Option.some.inj ((hnamed n hn).symm.trans hentry))
    exact (Function.update_of_ne hne ..).trans (hnamed n hn)
  · rcases List.mem_append.mp hop with hop | hop
    · refine Fits.mono (h.fits op hop) (Nat.le_refl _)
        (fun r' f' _ hf' => ⟨f', (hfiles r' f' hf').2, fun hset => hset, rfl⟩) ?_
        (fun _ _ hh => hh) fun _ hh => hh
      intro r' f' id hr' hf' _
      cases (hfiles r' f' hf').2.symm.trans (h.keyed.unborn r' hr')
    · obtain rfl := List.mem_singleton.mp hop
      cases hid : f.blobid with
      | none => trivial
      | some id =>
          refine ⟨h.there r f id hf hid, fun r' f' hf' hid' => ?_⟩
          obtain ⟨hr, hold⟩ := hfiles r' f' hf'
          exact hr (h.apart r' r f' f id hold hf hid' hid)
  · rw [hkilling]
    by_cases hid : f.blobid = some id
    · rw [if_pos hid, hnokill id hid]
    · rw [if_neg hid]
      exact h.kills id
  · rw [hkilling]
    by_cases hid' : f.blobid = some id
    · rw [if_pos hid']
      exact Or.inr (Nat.succ_pos _)
    · refine (h.owned id hid).imp (fun hfile => ?_) fun hpos => ?_
      · obtain ⟨r', g, hg, hgid⟩ := hfile
        have hr : r' ≠ r := by
          rintro rfl
          obtain rfl := Option.some.inj (hf.symm.trans hg)
          exact hid' hgid
        exact ⟨r', g, (Filesystem.fileFree_files_ne hr).trans hg, hgid⟩
      · exact Nat.lt_of_lt_of_le hpos (Nat.le_add_right ..)
  · rw [hnames] at hlast
    exact h.renamed r' f' id n (hfiles r' f' hf').2 hid hlast
  · rw [hnames]
    exact h.stored r' f' id (hfiles r' f' hf').2 hid
      ((Filesystem.building_send r').symm.trans hbuilt)
  · obtain ⟨hbuilt, f', hf', hset⟩ := h.created r' hr' hnot
    have hr : r' ≠ r := by
      rintro rfl
      exact hnot hdeleted
    exact ⟨(Filesystem.building_send r').trans hbuilt, f',
      (Filesystem.fileFree_files_ne hr).trans hf', hset⟩

/-- A deletion refuses, or finds a file that is deleted. -/
theorem spdkFsDeleteFileAsync (h : Stored s md created deleted n)
    (hmoves : ∀ oldName newName cb, fn = .fsRenameDeleteDone oldName newName cb →
      ¬ spdkFileNameMax < name.strlen ∧ s.names name ≠ none ∧ mem.request = true ∨
        s.names oldName = none ∨ s.names newName = none)
    (hdeleted : ∀ r, s.names name = some r → ¬ spdkFileNameMax < name.strlen →
      mem.request = true → r ∈ deleted)
    (hdelete : s.spdkFsDeleteFileAsync name fn mem = .ok s') :
    Stored s' md created deleted n := by
  unfold Filesystem.spdkFsDeleteFileAsync at hdelete
  split at hdelete
  · rename_i hlong
    refine h.callFileOp (fun oldName newName cb hfn => ?_) hdelete
    exact (hmoves oldName newName cb hfn).resolve_left fun hall => hall.1 hlong
  rename_i hshort
  cases hname : s.names name with
  | none =>
      rw [hname] at hdelete
      refine h.callFileOp (fun oldName newName cb hfn => ?_) hdelete
      exact (hmoves oldName newName cb hfn).resolve_left fun hall => hall.2.1 hname
  | some r =>
      rw [hname] at hdelete
      dsimp only at hdelete
      split at hdelete
      · rename_i hrequest
        refine h.callFileOp (fun oldName newName cb hfn => ?_) hdelete
        refine (hmoves oldName newName cb hfn).resolve_left fun hall => ?_
        cases hrequest.symm.trans hall.2.2
      rename_i hrequest
      have hr : r ∈ deleted := hdeleted r hname hshort (by simpa using hrequest)
      obtain ⟨f, hf, hdelete⟩ := bind_ok.mp hdelete
      replace hf := Filesystem.file_ok.mp hf
      split at hdelete
      · split at hdelete
        · cases hdelete
        rename_i blob hblob
        obtain rfl := Except.ok.inj hdelete
        obtain ⟨hset, hhandle⟩ := h.handles r f blob hf hblob
        obtain ⟨id, hid⟩ := Option.ne_none_iff_exists'.mp hset
        refine (h.setFile { f with isDeleted := true } hf rfl rfl (fun _ => Or.inl)
          fun _ => Or.inr hr).send ⟨fun _ => rfl, fun _ => rfl, fun _ => rfl⟩ trivial ?_
        refine ⟨id, hhandle.trans hid, fun r' f' hf' hid' => ?_⟩
        by_cases heq : r' = r
        · exact heq ▸ hr
        · rw [Filesystem.setFile_files_ne _ heq] at hf'
          exact absurd (h.apart r' r f' f id hf' hf hid' hid) heq
      · split at hdelete
        · cases hdelete
        rename_i filename hfilename
        split at hdelete
        · cases hdelete
        obtain rfl := Except.ok.inj hdelete
        exact h.fileFree hf hfilename hr fn

/-! ### Closes -/

theorem fileCloseAsyncDone (h : Stored s md created deleted n) {bserrno : Int}
    (hdone : s.fileCloseAsyncDone r cb bserrno mem = .ok s') : Stored s' md created deleted n := by
  obtain ⟨f, hf, ⟨-, rfl⟩ | ⟨name, hmarked, hname, hdelete⟩⟩ :=
    Filesystem.fileCloseAsyncDone_ok hdone
  · exact h.congr rfl rfl rfl rfl
  · refine h.spdkFsDeleteFileAsync (fun _ _ _ heq => by cases heq) (fun r' hr' _ _ => ?_) hdelete
    obtain rfl := Option.some.inj (hr'.symm.trans ((h.named r f hf).1 name hname))
    exact h.marked r' f hf hmarked

theorem fileCloseAsync (h : Stored s md created deleted n)
    (hclose : s.fileCloseAsync r cb mem = .ok s') : Stored s' md created deleted n := by
  obtain ⟨f, hf, ⟨-, hdone⟩ | ⟨-, rfl⟩ | ⟨blob, -, -, rfl⟩⟩ := Filesystem.fileCloseAsync_ok hclose
  · exact h.fileCloseAsyncDone hdone
  · exact (h.setFile { f with refCount := f.refCount - 1 } hf rfl rfl (fun _ => Or.inl)
      Or.inl).congr rfl rfl rfl rfl
  · refine (h.setFile { f with refCount := f.refCount - 1, blob := none } hf rfl rfl
      (fun b hb => ?_) Or.inl).send ⟨fun _ => rfl, fun _ => rfl, fun _ => rfl⟩ trivial trivial
    cases hb

end Stored

end Nbfs.Fs
