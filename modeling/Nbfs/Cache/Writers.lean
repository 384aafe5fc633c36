import Nbfs.Cache.ReadLength

set_option autoImplicit false

/-!
# Where appends and where `length` end (`lib/NBFS/NBFS.c`)

`append_pos` and `length` are moved by an append, a write past the cache, a truncate and a
flush.  A write past the cache moves the first before the second; without reads, the
buffers that are cached are full, but for the last one.
-/

namespace Nbfs.Cache

open Nbfs.Lib
open Nbfs.Async (Blobstore Stage ENOMEM)

/-! ### Runs of the file -/

/-- A step of the file, or a call of `spdk_file_write_async`. -/
inductive WriterEvent where
  | file (e : FileEvent × Answer)
  | writeAsync (offset : Nat) (payload : List UInt8) (mem : Async.Memory)

/-- The file makes the step. -/
def FileState.writerStep (bs : Blobstore) (s : FileState) : WriterEvent → Except Fault FileState
  | .file e => s.step bs e.2 e.1
  | .writeAsync offset payload mem =>
      if s.isFree then .error .freedFile
      else s.alloc.rwStage (some s.brk)
        (Async.readvwritev bs s.asyncFile ⟨false, offset, payload⟩ mem)

def WriterSteps (bs : Blobstore) (s : FileState) (e : WriterEvent) (s' : FileState) : Prop :=
  s.writerStep bs e = .ok s'

theorem Frame.writeAsync {bs : Blobstore} {s s' : FileState} {offset : Nat} {payload : List UInt8}
    {mem : Async.Memory} (hstep : WriterSteps bs s (.writeAsync offset payload mem) s') :
    Frame s s' := by
  simp only [WriterSteps, FileState.writerStep] at hstep
  split at hstep
  · cases hstep
  · exact (Frame.alloc s).trans (Frame.rwStage hstep)

/-- A write, a truncate or a sync, or what comes of it; or the reclaim. -/
def FileEvent.isWriter : FileEvent → Bool
  | write .. | sync | truncate _ | reclaim | complete _ => true
  | _ => false

/-- `append_pos` and `length` come to the same: no position passes 2^64, a write past the cache
is made at `append_pos` and does not fail on its way to `length`, no other write past the cache
and no truncate makes the file longer, and no flush goes past `append_pos`. -/
def StaysAtEnd (bs : Blobstore) (s : FileState) (a : Answer) : Work → Prop
  | .append _ offset payload => s.file.appendPos + payload.length < 2 ^ 64 ∧
      (s.GoesPast a → offset = s.file.appendPos ∧ a.request = true)
  | .fill _ _ payload _ => s.file.appendPos + payload.length < 2 ^ 64
  | .rwFromFile (some _) call => s.file.length < call.last →
      a.request = true ∧ (a.malloc (Async.rwLength bs call)).isSome ∧ a.truncate = true
  | .rw _ (.resize length _) => (a.bserrno = 0 → length = s.file.appendPos) ∧
      (a.bserrno ≠ 0 → s.file.length = s.file.appendPos)
  | .truncateResize _ length => a.bserrno = 0 → length ≤ s.file.appendPos
  | .flushWrite _ _ length => s.file.lengthFlushed + length ≤ s.file.appendPos
  | _ => True

instance (bs : Blobstore) (s : FileState) (a : Answer) : ∀ w : Work, Decidable (StaysAtEnd bs s a w)
  | .append .. => inferInstanceAs (Decidable (_ ∧ (_ → _ ∧ _)))
  | .fill .. => inferInstanceAs (Decidable (_ < _))
  | .rwFromFile (some _) _ => inferInstanceAs (Decidable (_ → _ ∧ _ ∧ _))
  | .rw _ (.resize ..) => inferInstanceAs (Decidable ((_ → _) ∧ (_ → _)))
  | .truncateResize .. => inferInstanceAs (Decidable (_ → _))
  | .flushWrite .. => inferInstanceAs (Decidable (_ ≤ _))
  | .rwFromFile none _ | .rw _ .idle | .rw _ (.syncMd _) | .rw _ (.read _) | .rw _ (.write _)
  | .rw _ (.done ..) | .extend .. | .extendResize .. | .extendSync .. | .startFill .. | .flush
  | .check _ | .syncXattr _ | .readahead .. | .readaheadRead .. | .readLoop .. | .truncate ..
  | .truncateSync _ | .close _ | .closeBlob _ => .isTrue trivial

/-- A write, a truncate or a sync is made, or goes on, and the sizes come to the same. -/
def KeepsEnd (bs : Blobstore) (s : FileState) : WriterEvent → Prop
  | .file e => e.1.isWriter = true ∧ ∀ w ∈ s.completed e.1, StaysAtEnd bs s e.2 w
  | .writeAsync .. => True

instance (bs : Blobstore) (s : FileState) : ∀ e, Decidable (KeepsEnd bs s e)
  | .file e => inferInstanceAs (Decidable (_ ∧ ∀ w ∈ s.completed e.1, _))
  | .writeAsync .. => .isTrue trivial

/-! ### The two sizes -/

/-- The `length` that a write past the cache is on its way to. -/
def Work.goal : Work → Option Nat
  | rwFromFile (some _) call => if call.isRead then none else some call.last
  | rw _ (.resize length _) => some length
  | _ => none

/-- `length` is at `append_pos`, or on its way there. -/
structure AtEnd (s : FileState) : Prop where
  lt : s.file.appendPos < 2 ^ 64
  le : s.file.length ≤ s.file.appendPos
  ends : s.file.length = s.file.appendPos ∨ ∃ w ∈ s.pending, w.goal = some s.file.appendPos

namespace AtEnd

variable {bs : Blobstore} {s s' : FileState} {a : Answer} {w : Work} {b : BufRef} {id : Nat}

/-- The sizes stay, and what is on its way to the end. -/
theorem calm (h : AtEnd s) (hlength : s'.file.length = s.file.length)
    (happend : s'.file.appendPos = s.file.appendPos)
    (hpending : ∀ w ∈ s.pending, w.goal = some s.file.appendPos → w ∈ s'.pending) : AtEnd s' where
  lt := happend ▸ h.lt
  le := by rw [hlength, happend]; exact h.le
  ends := by
    rw [hlength, happend]
    exact h.ends.imp_right fun ⟨w, hw, hgoal⟩ => ⟨w, hpending w hw hgoal, hgoal⟩

theorem frame (h : AtEnd s) (hframe : Frame s s') : AtEnd s' :=
  h.calm hframe.length hframe.appendPos fun w hw _ => hframe.kept w hw

theorem send (h : AtEnd s) (w : Work) : AtEnd (s.send w) :=
  h.calm rfl rfl fun _ hw _ => List.mem_append_left _ hw

/-- `length` comes to `append_pos`. -/
theorem meet (hlt : s.file.appendPos < 2 ^ 64) (heq : s.file.length = s.file.appendPos) : AtEnd s :=
  ⟨hlt, Nat.le_of_eq heq, Or.inl heq⟩

/-- What is taken was not on its way to the end. -/
theorem take (h : AtEnd s) {i : Nat} (hw : s.pending[i]? = some w)
    (hgoal : s.file.length = s.file.appendPos ∨ w.goal ≠ some s.file.appendPos) :
    AtEnd (s.take i) := by
  refine ⟨h.lt, h.le, ?_⟩
  rcases hgoal with heq | hne
  · exact Or.inl heq
  · refine h.ends.imp_right fun ⟨w', hw', hgoal⟩ => ⟨w', ?_, hgoal⟩
    rcases List.mem_cons.mp ((taken_perm hw).mem_iff.mp hw') with rfl | hrest
    · exact absurd hgoal hne
    · exact hrest

/-! ### Appends -/

theorem openLast (h : AtEnd s) (hstep : s.openLast a = .ok s') :
    AtEnd s' ∧ s'.file.appendPos = s.file.appendPos ∧ s'.file.length = s.file.length := by
  have hopened : AtEnd s.opened := h.frame { Frame.refl s with }
  rcases FileState.openLast_ok hstep with ⟨rfl, -⟩ | ⟨-, -, r, happend⟩
  · exact ⟨hopened, rfl, rfl⟩
  rcases (FileState.cacheAppendBuffer_ok happend).2.2 with ⟨-, rfl⟩ | ⟨-, -, -, rfl⟩
  · exact ⟨hopened, rfl, rfl⟩
  · exact ⟨hopened.calm rfl rfl fun _ hw _ => hw, rfl, rfl⟩

theorem startFill (h : AtEnd s) {payload : List UInt8}
    (hstep : s.startFill id payload a = .ok s') : AtEnd s' := by
  rcases FileState.startFill_ok hstep with rfl | ⟨last, -, rfl⟩
  · exact h.frame (.reply s _ _)
  · exact h.send _

/-- A write past the cache moves `append_pos`, and `length` is to follow. -/
theorem append (h : AtEnd s) {offset : Nat} {payload : List UInt8}
    (hstays : StaysAtEnd bs s a (.append id offset payload))
    (hstep : s.append bs id offset payload a = .ok s') : AtEnd s' := by
  obtain ⟨hn, hpast⟩ := hstays
  obtain ⟨s₁, hopen, hrest⟩ := FileState.append_ok hstep
  obtain ⟨h₁, happend, hlength⟩ := h.openLast hopen
  rcases hrest with ⟨hnone, -⟩ | ⟨-, -, ⟨-, rfl⟩ | ⟨-, hfill⟩⟩
  · obtain ⟨hgoes, rfl⟩ := FileState.openLast_none hopen hnone
    obtain ⟨rfl, hrequest⟩ := hpast hgoes
    have hpos : (s.opened.appendedPast payload.length).file.appendPos =
        s.file.appendPos + payload.length := Nat.mod_eq_of_lt hn
    obtain rfl := FileState.append_past hopen hnone hrequest hstep
    exact ⟨hpos ▸ hn, hpos ▸ h.le.trans (Nat.le_add_right _ _), Or.inr ⟨_,
      List.mem_append_right _ List.mem_cons_self, rfl⟩⟩
  · exact h₁.send _
  · exact h₁.startFill hfill

/-- A copy goes to `append_pos`, which `length` is not before. -/
theorem copied (h : AtEnd s) {old : CacheBuffer} {payload : List UInt8}
    (hn : s.file.appendPos + payload.length < 2 ^ 64) : AtEnd (s.copied b old payload) := by
  have hcopy : FileState.fillLength old payload ≤ payload.length := Nat.min_le_right _ _
  have happend : (s.copied b old payload).file.appendPos =
      s.file.appendPos + FileState.fillLength old payload := Nat.mod_eq_of_lt (by omega)
  refine meet (happend ▸ by omega) (Nat.max_eq_right ?_)
  change s.file.length ≤ (s.copied b old payload).file.appendPos
  rw [happend]
  exact h.le.trans (Nat.le_add_right _ _)

theorem fillRound (h : AtEnd s) {payload : List UInt8} {filled : Nat}
    (hn : s.file.appendPos + payload.length < 2 ^ 64)
    (hstep : s.fillRound id b payload filled a = .ok s') : AtEnd s' := by
  obtain ⟨last, -, hround⟩ := FileState.fillRound_ok hstep
  have hcopied : AtEnd (s.copied b last payload) := h.copied hn
  rcases hround with ⟨-, rfl⟩ | ⟨-, r, s₁, happend, hnext⟩
  · exact hcopied.send _
  have h₁ : AtEnd s₁ := by
    rcases (FileState.cacheAppendBuffer_ok happend).2.2 with ⟨-, rfl⟩ | ⟨-, -, -, rfl⟩
    · exact hcopied
    · exact hcopied.calm rfl rfl fun _ hw _ => hw
  rcases hnext with ⟨c, -, rfl⟩ | ⟨-, rfl⟩
  · exact h₁.send _
  · exact h₁.frame (.reply _ _ _)

/-! ### Requests past the cache -/

/-- A write that ends after `length` makes the file longer. -/
theorem readvwritev_extends {f : Async.File} {c : Async.Call} {mem : Async.Memory}
    (hwrite : c.isRead = false) (hlast : f.length < c.last) (hrequest : mem.request = true)
    (hmalloc : (mem.malloc (Async.rwLength bs c)).isSome) (htruncate : mem.truncate = true) :
    ∃ rw, Async.readvwritev bs f c mem = .resize c.last rw := by
  obtain ⟨pinBuf, hpinBuf⟩ := Option.isSome_iff_exists.mp hmalloc
  refine ⟨Async.rwOf bs c pinBuf, ?_⟩
  unfold Async.readvwritev
  rw [if_neg (by simp [hwrite]), if_neg (by simp [hrequest]), hpinBuf]
  dsimp only
  rw [if_pos (by simp [hwrite, hlast]), Async.fileTruncateAsync, if_neg (Nat.ne_of_gt hlast),
    if_neg (by simp [htruncate])]

theorem rwFromFile (h : AtEnd s) {i : Nat} {op : Option Nat} {call : Async.Call}
    (hw : s.pending[i]? = some (.rwFromFile op call))
    (hstays : StaysAtEnd bs s a (.rwFromFile op call))
    (hstep : (s.take i).rwStage op (Async.readvwritev bs s.asyncFile call a.toMemory) = .ok s') :
    AtEnd s' := by
  by_cases hgoal : s.file.length = s.file.appendPos ∨
      (Work.rwFromFile op call).goal ≠ some s.file.appendPos
  · exact (h.take hw hgoal).frame (Frame.rwStage hstep)
  obtain ⟨hne, hgoal⟩ := not_or.mp hgoal
  obtain ⟨id, rfl, hwrite, hlast⟩ : ∃ id, op = some id ∧ call.isRead = false ∧
      call.last = s.file.appendPos := by
    have hsome := not_not.mp hgoal
    cases op with
    | none => cases hsome
    | some id =>
        cases hread : call.isRead with
        | true => simp [Work.goal, hread] at hsome
        | false =>
            refine ⟨id, rfl, rfl, ?_⟩
            simpa [Work.goal, hread] using hsome
  have hlt : s.file.length < call.last := hlast ▸ Nat.lt_of_le_of_ne h.le hne
  obtain ⟨hrequest, hmalloc, htruncate⟩ := hstays hlt
  obtain ⟨rw, hstage⟩ := readvwritev_extends
    (f := s.asyncFile) hwrite hlt hrequest hmalloc htruncate
  rw [hstage] at hstep
  obtain ⟨-, rfl⟩ := FileState.blobOp_ok hstep
  refine ⟨h.lt, h.le, Or.inr ⟨_, List.mem_append_right _ List.mem_cons_self, ?_⟩⟩
  exact congrArg some hlast

theorem rwComplete (h : AtEnd s) {i : Nat} {op : Option Nat} {stage : Stage}
    (hw : s.pending[i]? = some (.rw op stage)) (hstays : StaysAtEnd bs s a (.rw op stage))
    (hstep : (s.take i).rwComplete bs op stage a = .ok s') : AtEnd s' := by
  obtain ⟨t, hasync, hstage⟩ := FileState.rwComplete_ok hstep
  refine frame (s := (s.take i).setAsyncFile t.file) ?_ (Frame.rwStage hstage)
  rcases FileState.asyncStep_ok rfl hasync with
    ⟨hlength, happend, -⟩ | ⟨n, rw, rfl, hzero, hlength, happend, -⟩
  · refine (h.take hw ?_).calm hlength happend fun _ hw' _ => hw'
    cases stage with
    | resize n rw =>
        refine Or.inl ?_
        by_cases hzero : a.bserrno = 0
        · exact hlength.symm.trans ((FileState.asyncStep_resize rfl hzero hasync).trans
            (hstays.1 hzero))
        · exact hstays.2 hzero
    | _ => exact Or.inr nofun
  · obtain rfl := hstays.1 hzero
    have hend : t.file.appendPos = s.file.appendPos := happend.trans (Nat.min_self _)
    exact meet (hend.trans_lt h.lt) (hlength.trans hend.symm)

/-! ### Truncates and flushes -/

theorem fsTruncateResizeCb (h : AtEnd s) {n : Nat}
    (hstays : StaysAtEnd bs s a (.truncateResize id n))
    (hstep : s.fsTruncateResizeCb bs id n a = .ok s') : AtEnd s' := by
  rcases FileState.fsTruncateResizeCb_ok hstep with ⟨-, rfl⟩ | ⟨hzero, rfl⟩
  · exact h.frame (.reply s _ _)
  · have hend : min s.file.appendPos n = n := Nat.min_eq_right (hstays hzero)
    exact send (meet (hend.trans_lt ((hstays hzero).trans_lt h.lt)) hend.symm) _

theorem fileFlush (h : AtEnd s) (hstep : s.fileFlush = .ok s') : AtEnd s' := by
  rcases FileState.fileFlush_ok hstep with
    ⟨-, rfl⟩ | ⟨b, next, -, hnext, ⟨rfl, -⟩ | ⟨rfl, -⟩ | ⟨-, -, -, rfl⟩⟩
  · refine send ?_ _
    exact h.calm rfl rfl fun _ hw _ => hw
  · exact h
  · exact h.send _
  · refine send ?_ _
    exact h.calm rfl rfl fun _ hw _ => hw

theorem flushWrite (h : AtEnd s) {next : CacheBuffer} {offset length : Nat}
    (hstays : StaysAtEnd bs s a (.flushWrite b offset length)) {s₁ : FileState}
    (hwrite : s.flushed bs b next offset length a = .ok s₁)
    (hdone : s₁.fileFlushDone bs b next length = .ok s') : AtEnd s' := by
  obtain rfl := FileState.fileFlushDone_ok hdone
  refine send ?_ _
  have h₁ : AtEnd s₁ ∧ s₁.file = s.file := by
    rcases FileState.flushed_ok hwrite with ⟨-, rfl⟩ | ⟨-, -, rfl⟩
    all_goals exact ⟨h.calm rfl rfl fun _ hw _ => hw, rfl⟩
  have hle : (s₁.file.lengthFlushed + length) % 2 ^ 64 ≤ s₁.file.appendPos := by
    rw [h₁.2]
    exact (Nat.mod_le _ _).trans hstays
  exact ⟨h₁.1.lt, Nat.max_le.mpr ⟨h₁.1.le, hle⟩,
    h₁.1.ends.imp_left fun heq => Nat.max_eq_left (heq ▸ hle) |>.trans heq⟩

/-! ### Runs -/

theorem complete (h : AtEnd s) {i : Nat} (hw : s.pending[i]? = some w)
    (hstays : StaysAtEnd bs s a w) (hstep : (s.take i).perform bs a w = .ok s') : AtEnd s' := by
  have htake : w.goal = none → AtEnd (s.take i) := fun hnone =>
    h.take hw (Or.inr (hnone ▸ nofun))
  cases w with
  | append id offset payload => exact (htake rfl).append hstays hstep
  | extendResize id numClusters payload =>
      simp only [FileState.perform] at hstep
      split at hstep
      · obtain rfl := Except.ok.inj hstep
        exact (htake rfl).frame (.reply _ _ _)
      · obtain ⟨-, rfl⟩ := FileState.blobOp_ok hstep
        refine send ?_ _
        exact (htake rfl).calm rfl rfl fun _ hw _ => hw
  | startFill id payload => exact (htake rfl).startFill hstep
  | fill id b payload filled =>
      simp only [FileState.perform] at hstep
      split at hstep
      · obtain rfl := Except.ok.inj hstep
        exact (htake rfl).frame (.endFill _ _ _)
      · exact (htake rfl).fillRound hstays hstep
  | rwFromFile op call => exact h.rwFromFile hw hstays hstep
  | rw op stage => exact h.rwComplete hw hstays hstep
  | flush => exact (htake rfl).fileFlush hstep
  | flushWrite b offset length =>
      obtain ⟨next, -, hstep⟩ := bind_ok.mp hstep
      obtain ⟨s₁, hwrite, hdone⟩ := bind_ok.mp hstep
      exact (htake rfl).flushWrite hstays hwrite hdone
  | readahead b length =>
      obtain rfl := Frame.readahead hstep
      exact (htake rfl).send _
  | readaheadRead b length =>
      obtain ⟨buffer, -, hstep⟩ := bind_ok.mp hstep
      obtain ⟨s₁, hread, hret⟩ := bind_ok.mp hstep
      obtain rfl := Except.ok.inj hret
      obtain ⟨image, rfl, -⟩ := FileState.readAhead_ok hread
      exact (htake rfl).calm rfl rfl fun _ hw _ => hw
  | readLoop offset final =>
      rcases FileState.readRound_ok hstep with
        rfl | ⟨-, rfl⟩ | ⟨b, buffer, -, -, -, ⟨-, rfl⟩ | ⟨-, rfl⟩⟩
      · exact htake rfl
      · exact ((htake rfl).send _).send _
      · refine send ?_ _
        exact (htake rfl).calm rfl rfl fun _ hw _ => hw
      · exact (htake rfl).send _
  | truncateResize id n => exact (htake rfl).fsTruncateResizeCb hstays hstep
  | _ => exact (htake rfl).frame (Frame.perform hstep trivial)

theorem reclaimCacheBuffers (h : AtEnd s) : AtEnd s.reclaimCacheBuffers := by
  unfold FileState.reclaimCacheBuffers
  split
  · exact h
  dsimp only
  split
  all_goals exact h.calm rfl rfl fun _ hw _ => hw

theorem step (h : AtEnd s) {e : WriterEvent} (hkeeps : KeepsEnd bs s e)
    (hstep : WriterSteps bs s e s') : AtEnd s' := by
  cases e with
  | writeAsync offset payload mem =>
      exact h.frame (Frame.writeAsync hstep)
  | file e =>
      obtain ⟨event, a⟩ := e
      obtain ⟨hwriter, hstays⟩ := hkeeps
      obtain ⟨-, hact⟩ := FileState.step_ok hstep
      cases event with
      | reclaim =>
          obtain rfl := Except.ok.inj hact
          exact h.reclaimCacheBuffers
      | complete i =>
          obtain ⟨w, hw, hperform⟩ := FileState.complete_ok hact
          exact h.complete hw (hstays w hw) hperform
      | read offset length => cases hwriter
      | free => cases hwriter
      | _ => exact h.frame (Frame.act hact trivial)

theorem initial (h : s.Initial bs) : AtEnd s :=
  meet (h.appendPos ▸ h.length_lt) h.appendPos.symm

end AtEnd

/-! ### The buffers -/

/-- Without reads, the buffers are full, but for the last one, which is filled up to `append_pos`
at least. -/
structure Trailing (s : FileState) : Prop where
  empty : s.file.last = none → ∀ b, s.file.cache.buffers b = none
  buffers : ∀ b buffer, s.file.cache.buffers b = some buffer →
    buffer.bytesFilled = cacheBufferSize ∨
      s.file.last = some b ∧ s.file.appendPos ≤ buffer.offset + buffer.bytesFilled
  /-- An append fills the last buffer, or one that is full. -/
  targets : ∀ w ∈ s.pending, ∀ b, w.target = some b → s.file.last = some b ∨
    ∀ buffer, s.file.cache.buffers b = some buffer → buffer.bytesFilled = cacheBufferSize
  still : ∀ w ∈ s.pending, w.ahead = none ∧ w.round = none

namespace Trailing

variable {bs : Blobstore} {s s' : FileState} {a : Answer} {w : Work} {b : BufRef} {id : Nat}

/-- Buffers keep their place and what they hold, or leave; the position moves back at most. -/
theorem calm (h : Trailing s) (happend : s'.file.appendPos ≤ s.file.appendPos)
    (hlast : s'.file.last = s.file.last)
    (hbuffers : ∀ b buffer, s'.file.cache.buffers b = some buffer → ∃ old,
      s.file.cache.buffers b = some old ∧ buffer.offset = old.offset ∧
        buffer.bytesFilled = old.bytesFilled)
    (hpending : ∀ w ∈ s'.pending, w ∈ s.pending ∨
      w.target = none ∧ w.ahead = none ∧ w.round = none) : Trailing s' where
  empty := by
    intro hnone b
    refine Option.eq_none_iff_forall_ne_some.mpr fun buffer hbuffer => ?_
    obtain ⟨old, hold, -⟩ := hbuffers b buffer hbuffer
    cases (h.empty (hlast ▸ hnone) b).symm.trans hold
  buffers := by
    intro b buffer hbuffer
    obtain ⟨old, hold, hoffset, hfilled⟩ := hbuffers b buffer hbuffer
    rw [hoffset, hfilled, hlast]
    exact (h.buffers b old hold).imp_right fun hle => ⟨hle.1, happend.trans hle.2⟩
  targets := by
    intro w hw b hb
    rw [hlast]
    rcases hpending w hw with hold | ⟨hnone, -⟩
    · refine (h.targets w hold b hb).imp_right fun hfull buffer hbuffer => ?_
      obtain ⟨old, hold, -, hfilled⟩ := hbuffers b buffer hbuffer
      exact hfilled.trans (hfull old hold)
    · cases hnone.symm.trans hb
  still := fun w hw => (hpending w hw).elim (h.still w) And.right

theorem frame (h : Trailing s) (hframe : Frame s s') : Trailing s' := by
  refine h.calm (Nat.le_of_eq hframe.appendPos) hframe.last
    (fun _ buffer hbuffer => ⟨buffer, hframe.cache ▸ hbuffer, rfl, rfl⟩)
    fun w hw => (hframe.pending w hw).imp_right fun hfree => ⟨hfree.2.1, ?_, hfree.2.2⟩
  cases hahead : w.ahead with
  | none => rfl
  | some b => cases hfree.1.symm.trans (Work.io_of_ahead hahead)

theorem take (h : Trailing s) (i : Nat) : Trailing (s.take i) :=
  h.calm (Nat.le_refl _) rfl (fun _ buffer hbuffer => ⟨buffer, hbuffer, rfl, rfl⟩) fun _ hw =>
    Or.inl (mem_of_taken hw)

theorem send (h : Trailing s) (hw : w.target = none ∧ w.ahead = none ∧ w.round = none) :
    Trailing (s.send w) :=
  h.calm (Nat.le_refl _) rfl (fun _ buffer hbuffer => ⟨buffer, hbuffer, rfl, rfl⟩) fun w' hw' =>
    (List.mem_append.mp hw').imp_right fun hnew => by rwa [List.mem_singleton.mp hnew]

/-- An append to the last buffer. -/
theorem sendFill (h : Trailing s) {payload : List UInt8} {filled : Nat}
    (hb : s.file.last = some b ∨
      ∀ buffer, s.file.cache.buffers b = some buffer → buffer.bytesFilled = cacheBufferSize) :
    Trailing (s.send (.fill id b payload filled)) where
  empty := h.empty
  buffers := h.buffers
  targets := by
    intro w hw c hc
    rcases List.mem_append.mp hw with hold | hnew
    · exact h.targets w hold c hc
    · rw [List.mem_singleton.mp hnew] at hc
      exact Option.some.inj hc ▸ hb
  still := by
    intro w hw
    rcases List.mem_append.mp hw with hold | hnew
    · exact h.still w hold
    · exact List.mem_singleton.mp hnew ▸ ⟨rfl, rfl⟩

/-- A buffer keeps its place and what it holds. -/
theorem setBuffer (h : Trailing s) {old new : CacheBuffer}
    (hold : s.file.cache.buffers b = some old) (hoffset : new.offset = old.offset)
    (hfilled : new.bytesFilled = old.bytesFilled) :
    Trailing (s.setFile (s.file.setBuffer b new)) :=
  h.calm (Nat.le_refl _) rfl
    (Heap.forall_update (fun _ buffer hbuffer => ⟨buffer, hbuffer, rfl, rfl⟩)
    ⟨old, hold, hoffset, hfilled⟩) fun _ hw => Or.inl hw

/-! ### Appends -/

/-- A new buffer comes to be the last one only when the last one is full. -/
theorem cacheAppendBuffer (h : Trailing s) {ok : Bool} {r : Option BufRef}
    (hstep : s.cacheAppendBuffer ok = .ok (r, s')) :
    Trailing s' ∧ ∀ c, r = some c → s'.file.last = some c := by
  obtain ⟨hfull, -, ⟨rfl, rfl⟩ | ⟨rfl, -, -, rfl⟩⟩ := FileState.cacheAppendBuffer_ok hstep
  · exact ⟨h, nofun⟩
  have hdone : ∀ b buffer, s.file.cache.buffers b = some buffer →
      buffer.bytesFilled = cacheBufferSize := by
    intro b buffer hbuffer
    rcases h.buffers b buffer hbuffer with hfilled | ⟨hlast, -⟩
    · exact hfilled
    · obtain ⟨last, hlast', hbytes⟩ := hfull b hlast
      exact Option.some.inj (hlast'.symm.trans hbuffer) ▸ hbytes
  refine ⟨⟨nofun, Heap.forall_update (fun b buffer hbuffer => Or.inl (hdone b buffer hbuffer))
    (Or.inr ⟨rfl, Nat.le_refl _⟩), fun w hw c hc => ?_, h.still⟩, fun c hc => hc⟩
  by_cases hbrk : c = s.brk
  · exact Or.inl (congrArg some hbrk.symm)
  · exact Or.inr fun buffer hbuffer =>
      hdone c buffer ((Function.update_of_ne hbrk ..).symm.trans hbuffer)

theorem openLast (h : Trailing s) (hstep : s.openLast a = .ok s') : Trailing s' := by
  have hopened : Trailing s.opened := h.frame { Frame.refl s with }
  rcases FileState.openLast_ok hstep with ⟨rfl, -⟩ | ⟨-, -, r, happend⟩
  · exact hopened
  · exact (hopened.cacheAppendBuffer happend).1

/-- Without a last buffer there is none, and the position may go anywhere. -/
theorem appendedPast (h : Trailing s) (hnone : s.file.last = none) (n : Nat) :
    Trailing (s.appendedPast n) where
  empty := h.empty
  buffers := fun b _ hbuffer => nomatch (h.empty hnone b).symm.trans hbuffer
  targets := h.targets
  still := h.still

theorem startFill (h : Trailing s) {payload : List UInt8}
    (hstep : s.startFill id payload a = .ok s') : Trailing s' := by
  rcases FileState.startFill_ok hstep with rfl | ⟨last, hlast, rfl⟩
  · exact h.frame (.reply s _ _)
  · exact h.sendFill (Or.inl hlast)

theorem append (h : Trailing s) {offset : Nat} {payload : List UInt8}
    (hstep : s.append bs id offset payload a = .ok s') : Trailing s' := by
  obtain ⟨s₁, hopen, hrest⟩ := FileState.append_ok hstep
  have h₁ := h.openLast hopen
  rcases hrest with ⟨hnone, rfl | rfl⟩ | ⟨-, -, ⟨-, rfl⟩ | ⟨-, hfill⟩⟩
  · exact (h₁.appendedPast hnone _).send ⟨rfl, rfl, rfl⟩
  · exact (h₁.appendedPast hnone _).frame (.reply _ _ _)
  · exact h₁.send ⟨rfl, rfl, rfl⟩
  · exact h₁.startFill hfill

/-- A copy moves the end of the last buffer with `append_pos`, or there is nothing to copy. -/
theorem copied (h : Trailing s) {old : CacheBuffer} {payload : List UInt8}
    (hold : s.file.cache.buffers b = some old) (hfilled : old.bytesFilled ≤ cacheBufferSize)
    (hb : s.file.last = some b ∨ old.bytesFilled = cacheBufferSize) :
    Trailing (s.copied b old payload) := by
  have hroom := Heap.fillLength_le hfilled payload
  have happend : (s.copied b old payload).file.appendPos ≤
      s.file.appendPos + FileState.fillLength old payload := Nat.mod_le _ _
  have hbuffers : ∀ c buffer, (s.copied b old payload).file.cache.buffers c = some buffer →
      buffer.bytesFilled = cacheBufferSize ∨ s.file.last = some c ∧
        (s.copied b old payload).file.appendPos ≤ buffer.offset + buffer.bytesFilled := by
    intro c buffer hbuffer
    by_cases hc : c = b
    · subst hc
      obtain rfl := Option.some.inj ((FileState.copied_buffer hfilled).symm.trans hbuffer)
      dsimp only
      rcases h.buffers c old hold with hdone | ⟨hlast, hle⟩
      · exact Or.inl (by omega)
      · exact Or.inr ⟨hlast, by omega⟩
    · have hother := (FileState.copied_other hc).symm.trans hbuffer
      rcases h.buffers c buffer hother with hdone | ⟨hlast, hle⟩
      · exact Or.inl hdone
      · have hfull : old.bytesFilled = cacheBufferSize := hb.resolve_left fun hlast' =>
          hc (Option.some.inj (hlast.symm.trans hlast'))
        exact Or.inr ⟨hlast, by omega⟩
  have hempty : s.file.last ≠ none := fun hnone => nomatch (h.empty hnone b).symm.trans hold
  refine ⟨fun hnone => absurd hnone hempty, hbuffers, fun w hw c hc => ?_, h.still⟩
  refine (h.targets w hw c hc).imp_right fun hfull buffer hbuffer => ?_
  by_cases heq : c = b
  · subst heq
    obtain rfl := Option.some.inj ((FileState.copied_buffer hfilled).symm.trans hbuffer)
    have hdone := hfull old hold
    dsimp only
    omega
  · exact hfull buffer ((FileState.copied_other heq).symm.trans hbuffer)

theorem fillRound (h : Trailing s) (hheap : Heap False s) {payload : List UInt8} {filled : Nat}
    (hb : s.file.last = some b ∨
      ∀ old, s.file.cache.buffers b = some old → old.bytesFilled = cacheBufferSize)
    (hstep : s.fillRound id b payload filled a = .ok s') : Trailing s' := by
  obtain ⟨last, hlast, hround⟩ := FileState.fillRound_ok hstep
  have hfull := (hheap.sits b last hlast).filled
  have hcopied : Trailing (s.copied b last payload) :=
    h.copied hlast hfull (hb.imp_right fun hdone => hdone last hlast)
  rcases hround with ⟨-, rfl⟩ | ⟨-, r, s₁, happend, ⟨c, rfl, rfl⟩ | ⟨rfl, rfl⟩⟩
  · refine hcopied.sendFill (hb.imp_right fun hdone buffer hbuffer => ?_)
    obtain rfl := Option.some.inj ((FileState.copied_buffer hfull).symm.trans hbuffer)
    have hroom := Heap.fillLength_le hfull payload
    have hbytes := hdone last hlast
    dsimp only
    omega
  · obtain ⟨h₁, hnew⟩ := hcopied.cacheAppendBuffer happend
    exact h₁.sendFill (Or.inl (hnew c rfl))
  · exact (hcopied.cacheAppendBuffer happend).1.frame (.reply _ _ _)

/-! ### Requests past the cache, truncates and flushes -/

theorem rwComplete (h : Trailing s) {op : Option Nat} {stage : Stage}
    (hstep : s.rwComplete bs op stage a = .ok s') : Trailing s' := by
  obtain ⟨t, hasync, hstage⟩ := FileState.rwComplete_ok hstep
  refine frame (s := s.setAsyncFile t.file) ?_ (Frame.rwStage hstage)
  refine h.calm ?_ rfl (fun _ buffer hbuffer => ⟨buffer, hbuffer, rfl, rfl⟩) fun _ hw => Or.inl hw
  rcases FileState.asyncStep_ok rfl hasync with
    ⟨-, happend, -⟩ | ⟨n, rw, -, -, -, happend, -⟩
  · exact Nat.le_of_eq happend
  · exact Nat.le_of_eq happend |>.trans (Nat.min_le_left _ _)

theorem fsTruncateResizeCb (h : Trailing s) {n : Nat}
    (hstep : s.fsTruncateResizeCb bs id n a = .ok s') : Trailing s' := by
  rcases FileState.fsTruncateResizeCb_ok hstep with ⟨-, rfl⟩ | ⟨-, rfl⟩
  · exact h.frame (.reply s _ _)
  · refine send ?_ ⟨rfl, rfl, rfl⟩
    exact h.calm (Nat.min_le_left _ _) rfl (fun _ buffer hbuffer => ⟨buffer, hbuffer, rfl, rfl⟩)
      fun _ hw => Or.inl hw

theorem fileFlush (h : Trailing s) (hstep : s.fileFlush = .ok s') : Trailing s' := by
  rcases FileState.fileFlush_ok hstep with
    ⟨-, rfl⟩ | ⟨b, next, -, hnext, ⟨rfl, -⟩ | ⟨rfl, -⟩ | ⟨-, -, -, rfl⟩⟩
  · exact send (h.frame { Frame.refl s with }) ⟨rfl, rfl, rfl⟩
  · exact h
  · exact h.send ⟨rfl, rfl, rfl⟩
  · exact send (h.setBuffer hnext rfl rfl) ⟨rfl, rfl, rfl⟩

theorem flushWrite (h : Trailing s) {next : CacheBuffer} {offset length : Nat}
    (hnext : s.file.cache.buffers b = some next) {s₁ : FileState}
    (hwrite : s.flushed bs b next offset length a = .ok s₁)
    (hdone : s₁.fileFlushDone bs b next length = .ok s') : Trailing s' := by
  obtain rfl := FileState.fileFlushDone_ok hdone
  have hset : Trailing (s.setFile (s.file.setBuffer b { next with
      inProgress := false, bytesFlushed := (next.bytesFlushed + length) % 2 ^ 32 })) :=
    h.setBuffer hnext rfl rfl
  refine send ?_ ⟨rfl, rfl, rfl⟩
  rcases FileState.flushed_ok hwrite with ⟨-, rfl⟩ | ⟨-, -, rfl⟩
  all_goals exact { hset with }

/-! ### Runs -/

theorem treeFreeBuffers (h : Trailing s) : Trailing s.treeFreeBuffers :=
  h.calm (Nat.le_refl _) rfl (fun _ buffer hbuffer =>
    ⟨buffer, Tail.treeFreeBuffers_some hbuffer, rfl, rfl⟩) fun _ hw => Or.inl hw

theorem reclaimCacheBuffers (h : Trailing s) (hheap : Heap False s) :
    Trailing s.reclaimCacheBuffers := by
  unfold FileState.reclaimCacheBuffers
  split
  · exact h
  dsimp only
  split
  · rename_i hempty
    have hfree := h.treeFreeBuffers
    have hnone : ∀ b, s.treeFreeBuffers.file.cache.buffers b = none := by
      refine fun b => Option.eq_none_iff_forall_ne_some.mpr fun buffer hbuffer => ?_
      have hlisted := (hheap.treeFreeBuffers.sits b buffer hbuffer).listed
      rw [List.isEmpty_iff.mp hempty] at hlisted
      exact List.not_mem_nil hlisted
    exact {
      empty := fun _ => hnone
      buffers := fun b _ hbuffer => nomatch (hnone b).symm.trans hbuffer
      targets := fun _ _ b _ => Or.inr fun _ hbuffer => nomatch (hnone b).symm.trans hbuffer
      still := hfree.still }
  · exact h.treeFreeBuffers

theorem complete (h : Trailing s) (hheap : Heap False s) {i : Nat} (hw : s.pending[i]? = some w)
    (hstep : (s.take i).perform bs a w = .ok s') : Trailing s' := by
  have htake := h.take i
  obtain ⟨hahead, hround⟩ := h.still w (mem_taken hw)
  cases w with
  | append id offset payload => exact htake.append hstep
  | extendResize id numClusters payload =>
      simp only [FileState.perform] at hstep
      split at hstep
      · obtain rfl := Except.ok.inj hstep
        exact htake.frame (.reply _ _ _)
      · obtain ⟨-, rfl⟩ := FileState.blobOp_ok hstep
        exact send { htake with } ⟨rfl, rfl, rfl⟩
  | startFill id payload => exact htake.startFill hstep
  | fill id b payload filled =>
      simp only [FileState.perform] at hstep
      split at hstep
      · obtain rfl := Except.ok.inj hstep
        exact htake.frame (.endFill _ _ _)
      · exact htake.fillRound ((hheap.taken hw).drop rfl) (h.targets _ (mem_taken hw) b rfl) hstep
  | rw op stage => exact htake.rwComplete hstep
  | flush => exact htake.fileFlush hstep
  | flushWrite b offset length =>
      obtain ⟨next, hnext, hstep⟩ := bind_ok.mp hstep
      obtain ⟨s₁, hwrite, hdone⟩ := bind_ok.mp hstep
      exact htake.flushWrite (CachedFile.buffer_ok.mp hnext) hwrite hdone
  | readahead b length => cases hahead
  | readaheadRead b length => cases hahead
  | readLoop offset final => cases hround
  | truncateResize id n => exact htake.fsTruncateResizeCb hstep
  | _ => exact htake.frame (Frame.perform hstep trivial)

theorem step (h : Trailing s) (hheap : Heap False s) {e : WriterEvent} (hkeeps : KeepsEnd bs s e)
    (hstep : WriterSteps bs s e s') : Trailing s' := by
  cases e with
  | writeAsync offset payload mem => exact h.frame (Frame.writeAsync hstep)
  | file e =>
      obtain ⟨event, a⟩ := e
      obtain ⟨hwriter, -⟩ := hkeeps
      obtain ⟨-, hact⟩ := FileState.step_ok hstep
      cases event with
      | reclaim =>
          obtain rfl := Except.ok.inj hact
          exact h.reclaimCacheBuffers hheap
      | complete i =>
          obtain ⟨w, hw, hperform⟩ := FileState.complete_ok hact
          exact h.complete hheap hw hperform
      | read offset length => cases hwriter
      | free => cases hwriter
      | _ => exact h.frame (Frame.act hact trivial)

theorem initial (h : s.Initial bs) : Trailing s where
  empty := by simp [h.cache]
  buffers := by simp [h.cache]
  targets := by simp [h.pending]
  still := by simp [h.pending]

end Trailing

end Nbfs.Cache
