import Nbfs.Cache.FileSpecs
import Nbfs.Lib.History

set_option autoImplicit false

/-!
# Flushes that fail

A flush that failed did not write its bytes; they are lost until a later flush writes
the io units they are in.  No length that covers a lost byte should be stored, and no
sync or close should come back with success while a byte it is about is lost.
-/

namespace Nbfs.Cache

open Nbfs.Lib
open Nbfs.Async (Blobstore Stage getPageParameters ENOMEM)

/-- Whether the byte at `p` is lost after the note. -/
def Note.loses (bs : Blobstore) (p : Nat) (lost : Bool) : Note → Bool
  | wrote offset length bserrno =>
      if bserrno = 0 then
        let (startLba, numLba) := getPageParameters bs offset length
        lost && !decide (startLba * bs.ioUnitSize ≤ p ∧ p < (startLba + numLba) * bs.ioUnitSize)
      else lost || decide (offset ≤ p ∧ p < offset + length)
  | _ => lost

/-- A flush that was to write the byte failed, and none wrote it since. -/
def lost (bs : Blobstore) (notes : List Note) (p : Nat) : Bool :=
  notes.foldl (fun lost n => n.loses bs p lost) false

/-- No byte below `n` is lost. -/
def KeptBelow (bs : Blobstore) (notes : List Note) (n : Nat) : Prop :=
  ∀ p < n, lost bs notes p = false

instance (bs : Blobstore) (notes : List Note) (n : Nat) : Decidable (KeptBelow bs notes n) :=
  inferInstanceAs (Decidable (∀ p < n, _))

/-- No call came back with success while a byte of it was lost, and the stored length covers
no lost byte. -/
structure NoLossReported (bs : Blobstore) (s : FileState) : Prop where
  replies : Justified (fun earlier n => ∀ id appendPos, n = .replied id 0 →
    .asked id appendPos ∈ earlier → KeptBelow bs earlier appendPos) s.notes
  stored : KeptBelow bs s.notes s.blob.xattrLength

/-! ### When it holds -/

/-- The call of the client that the work is for. -/
def Work.call : Work → Option Nat
  | append id _ _ | extend id _ _ | extendResize id _ _ | extendSync id _ | startFill id _
  | fill id _ _ _ | truncate id _ | truncateResize id _ | truncateSync id | close id
  | closeBlob id => some id
  | rwFromFile id _ | rw id _ => id
  | _ => none

/-- The call of the client that a sync is for. -/
def SyncCb.call : SyncCb → Nat
  | client id | closeAsync id | close id => id

/-- The `append_pos` of a call that is under way. -/
def Note.waiting (pending : List Work) : Note → Option Nat
  | asked id appendPos => if pending.any fun w => w.call = some id then some appendPos else none
  | _ => none

namespace FileState

variable (s : FileState)

/-- Lengths that are stored, taken for stored, or being stored, and of closes that are past
their sync. -/
def covered : List Nat :=
  s.blob.xattrLength :: s.file.lengthXattr ::
    ((s.file.syncRequests.filter SyncRequest.xattrInProgress).map SyncRequest.length ++
      s.notes.filterMap (Note.waiting s.pending))

/-- The length that completing the work stores. -/
def stores (a : Answer) : Work → Option Nat
  | .check _ =>
      match s.file.syncRequests.find? fun r => decide (r.offset ≤ s.file.lengthFlushed) with
      | some r => if r.xattrInProgress then none else some s.file.lengthFlushed
      | none => none
  | .rw _ (.resize length _) | .truncateResize _ length =>
      if a.bserrno = 0 then some length else none
  | _ => none

/-- Where the write of a flush starts that fails. -/
def fails (a : Answer) : Work → Option Nat
  | .flushWrite _ offset _ => if a.bserrno = 0 then none else some offset
  | _ => none

/-- The sync of a close cannot be queued. -/
def refuses (a : Answer) : FileEvent → Bool
  | .closeAsync | .close => a.request && !(a.syncRequest && a.flushRequest) &&
      decide (s.file.lengthXattr < s.file.appendPos)
  | _ => false

end FileState

/-- A length is stored, and a close goes on without its sync, only while no byte below is lost;
a flush fails only past what is covered. -/
structure StoresKept (bs : Blobstore) (s : FileState) (e : FileEvent × Answer) : Prop where
  stores : ∀ w ∈ s.completed e.1, ∀ length ∈ s.stores e.2 w, KeptBelow bs s.notes length
  fails : ∀ w ∈ s.completed e.1, ∀ offset ∈ FileState.fails e.2 w, ∀ length ∈ s.covered,
    length ≤ offset
  refuses : s.refuses e.2 e.1 = true → KeptBelow bs s.notes s.file.appendPos

theorem storesKept_iff {bs : Blobstore} {s : FileState} {e : FileEvent × Answer} :
    StoresKept bs s e ↔
    (∀ w ∈ s.completed e.1, ∀ length ∈ s.stores e.2 w, KeptBelow bs s.notes length) ∧
      (∀ w ∈ s.completed e.1, ∀ offset ∈ FileState.fails e.2 w, ∀ length ∈ s.covered,
        length ≤ offset) ∧
      (s.refuses e.2 e.1 = true → KeptBelow bs s.notes s.file.appendPos) :=
  ⟨fun h => ⟨h.stores, h.fails, h.refuses⟩, fun h => ⟨h.1, h.2.1, h.2.2⟩⟩

instance (bs : Blobstore) (s : FileState) (e : FileEvent × Answer) :
    Decidable (StoresKept bs s e) :=
  decidable_of_iff' _ storesKept_iff

/-! ### Lost bytes -/

/-- Notes that are about no write. -/
def Note.Quiet (n : Note) : Prop := ∀ bs p lost, n.loses bs p lost = lost

section lost

variable {bs : Blobstore} {notes : List Note} {n : Note} {o : Nat}

theorem lost_concat (p : Nat) : lost bs (notes ++ [n]) p = n.loses bs p (lost bs notes p) := by
  rw [lost, List.foldl_concat]
  rfl

theorem KeptBelow.mono {m : Nat} (h : KeptBelow bs notes o) (hle : m ≤ o) : KeptBelow bs notes m :=
  fun p hp => h p (hp.trans_le hle)

theorem KeptBelow.quiet (hn : n.Quiet) : KeptBelow bs (notes ++ [n]) o ↔ KeptBelow bs notes o := by
  unfold KeptBelow
  refine forall₂_congr fun p _ => ?_
  rw [lost_concat, hn]

theorem KeptBelow.quiets {l : List Note} (hl : ∀ n ∈ l, n.Quiet) :
    KeptBelow bs (notes ++ l) o ↔ KeptBelow bs notes o := by
  induction l generalizing notes with
  | nil => rw [List.append_nil]
  | cons n l ih =>
      rw [List.append_cons, ih fun n' hn' => hl n' (List.mem_cons_of_mem _ hn')]
      exact KeptBelow.quiet (hl n List.mem_cons_self)

/-- A write that succeeds, or fails past the bytes. -/
theorem KeptBelow.wrote {offset length : Nat} {bserrno : Int} (h : KeptBelow bs notes o)
    (hfails : bserrno ≠ 0 → o ≤ offset) :
    KeptBelow bs (notes ++ [.wrote offset length bserrno]) o := by
  intro p hp
  rw [lost_concat, h p hp]
  by_cases hzero : bserrno = 0
  · simp [Note.loses, hzero]
  · have hbelow : ¬ (offset ≤ p ∧ p < offset + length) := fun hin =>
      absurd (hp.trans_le (hfails hzero)) (Nat.not_lt.mpr hin.1)
    simp [Note.loses, hzero, hbelow]

end lost

/-! ### The invariant -/

/-- What is stored, and what will come back with success, has no lost byte. -/
structure Accounted (bs : Blobstore) (s : FileState) : Prop where
  replies : Justified (fun earlier n => ∀ id appendPos, n = .replied id 0 →
    .asked id appendPos ∈ earlier → KeptBelow bs earlier appendPos) s.notes
  covered : ∀ length ∈ s.covered, KeptBelow bs s.notes length
  asked : ∀ id appendPos, .asked id appendPos ∈ s.notes → id < s.brk
  calls : ∀ w ∈ s.pending, ∀ id, w.call = some id → id < s.brk
  requests : ∀ r ∈ s.file.syncRequests, r.ref < s.brk ∧ r.cb.call < s.brk ∧
    (∀ appendPos, .asked r.cb.call appendPos ∈ s.notes → appendPos ≤ r.offset) ∧
    (r.xattrInProgress = true → r.offset ≤ r.length)
  started : ∀ ref, .syncXattr ref ∈ s.pending → ref < s.brk ∧
    ∀ r ∈ s.file.syncRequests, r.ref = ref → r.xattrInProgress = true

/-- A note that says nothing of calls and writes. -/
def Note.Inner : Note → Prop
  | queued _ | called _ _ _ | freed _ => True
  | _ => False

theorem Note.Inner.quiet {n : Note} (h : n.Inner) : n.Quiet := by
  cases n with
  | wrote offset length bserrno => exact h.elim
  | _ => exact fun _ _ _ => rfl

/-- The call can come back with success. -/
structure FileState.Owns (bs : Blobstore) (s : FileState) (id : Nat) : Prop where
  lt : id < s.brk
  kept : ∀ appendPos, .asked id appendPos ∈ s.notes → KeptBelow bs s.notes appendPos

theorem FileState.mem_covered {s : FileState} {n : Nat} : n ∈ s.covered ↔
    n = s.blob.xattrLength ∨ n = s.file.lengthXattr ∨
      (∃ r ∈ s.file.syncRequests, r.xattrInProgress = true ∧ r.length = n) ∨
      ∃ w ∈ s.pending, ∃ id, w.call = some id ∧ .asked id n ∈ s.notes := by
  have hwaiting : n ∈ s.notes.filterMap (Note.waiting s.pending) ↔
      ∃ w ∈ s.pending, ∃ id, w.call = some id ∧ .asked id n ∈ s.notes := by
    rw [List.mem_filterMap]
    constructor
    · rintro ⟨note, hnote, hsome⟩
      cases note with
      | asked id appendPos =>
          simp only [Note.waiting, Option.ite_none_right_eq_some, Option.some.injEq,
            List.any_eq_true, decide_eq_true_eq] at hsome
          obtain ⟨⟨w, hw, hcall⟩, rfl⟩ := hsome
          exact ⟨w, hw, id, hcall, hnote⟩
      | _ => cases hsome
    · rintro ⟨w, hw, id, hcall, hnote⟩
      refine ⟨_, hnote, if_pos (List.any_eq_true.mpr ⟨w, hw, decide_eq_true hcall⟩)⟩
  rw [FileState.covered, List.mem_cons, List.mem_cons, List.mem_append, hwaiting]
  simp only [List.mem_map, List.mem_filter, and_assoc]

namespace Accounted

variable {bs : Blobstore} {s s' : FileState} {a : Answer} {w : Work} {id : Nat}

theorem noLossReported (h : Accounted bs s) : NoLossReported bs s :=
  ⟨h.replies, h.covered _ (FileState.mem_covered.mpr (Or.inl rfl))⟩

theorem owns (h : Accounted bs s) (hw : w ∈ s.pending) (hcall : w.call = some id) :
    s.Owns bs id where
  lt := h.calls w hw id hcall
  kept := fun appendPos hasked => h.covered appendPos
    (FileState.mem_covered.mpr (Or.inr (Or.inr (Or.inr ⟨w, hw, id, hcall, hasked⟩))))

/-! ### Moves -/

/-- Lengths are stored that cover no lost byte, and nothing else is promised. -/
theorem change (h : Accounted bs s) {l : List Note}
    (hxattr : KeptBelow bs s.notes s'.blob.xattrLength)
    (hlength : KeptBelow bs s.notes s'.file.lengthXattr)
    (hrequests : ∀ r ∈ s'.file.syncRequests, r ∈ s.file.syncRequests) (hbrk : s.brk ≤ s'.brk)
    (hpending : ∀ w ∈ s'.pending, w ∈ s.pending) (hnotes : s'.notes = s.notes ++ l)
    (hinner : ∀ n ∈ l, n.Inner) : Accounted bs s' := by
  have hasked : ∀ id appendPos, .asked id appendPos ∈ s'.notes → .asked id appendPos ∈ s.notes := by
    intro id appendPos hmem
    rw [hnotes, List.mem_append] at hmem
    exact hmem.resolve_right fun hin => hinner _ hin
  have hkept : ∀ o, KeptBelow bs s.notes o → KeptBelow bs s'.notes o := fun o ho =>
    hnotes ▸ (KeptBelow.quiets fun n hn => (hinner n hn).quiet).mpr ho
  exact {
    replies := by
      rw [hnotes]
      refine h.replies.append fun n hn earlier id appendPos heq => ?_
      exact (heq ▸ hinner n hn : Note.Inner (.replied id 0)).elim
    covered := by
      intro n hn
      rcases FileState.mem_covered.mp hn with rfl | rfl | ⟨r, hr, hin, rfl⟩ | ⟨w, hw, id, hcall, ha⟩
      · exact hkept _ hxattr
      · exact hkept _ hlength
      · refine hkept _ (h.covered _ (FileState.mem_covered.mpr ?_))
        exact Or.inr (Or.inr (Or.inl ⟨r, hrequests r hr, hin, rfl⟩))
      · exact hkept _ ((h.owns (hpending w hw) hcall).kept n (hasked id n ha))
    asked := fun id appendPos hmem =>
      (h.asked id appendPos (hasked id appendPos hmem)).trans_le hbrk
    calls := fun w hw id hcall => (h.calls w (hpending w hw) id hcall).trans_le hbrk
    requests := by
      intro r hr
      obtain ⟨href, hcall, hoffset, hstarted⟩ := h.requests r (hrequests r hr)
      exact ⟨href.trans_le hbrk, hcall.trans_le hbrk,
        fun appendPos hmem => hoffset appendPos (hasked _ appendPos hmem), hstarted⟩
    started := by
      intro ref hmem
      obtain ⟨hlt, hin⟩ := h.started ref (hpending _ hmem)
      exact ⟨hlt.trans_le hbrk, fun r hr => hin r (hrequests r hr)⟩ }

/-- A part of a step that stores and promises nothing. -/
structure Silent (s s' : FileState) : Prop where
  xattrLength : s'.blob.xattrLength = s.blob.xattrLength
  lengthXattr : s'.file.lengthXattr = s.file.lengthXattr
  requests : s'.file.syncRequests = s.file.syncRequests
  brk : s.brk ≤ s'.brk
  pending : ∀ w ∈ s'.pending, w ∈ s.pending
  notes : ∃ l, s'.notes = s.notes ++ l ∧ ∀ n ∈ l, n.Inner

theorem silent (h : Accounted bs s) (hs : Silent s s') : Accounted bs s' := by
  obtain ⟨l, hnotes, hinner⟩ := hs.notes
  refine h.change ?_ ?_ (fun r hr => hs.requests ▸ hr) hs.brk hs.pending hnotes hinner
  · rw [hs.xattrLength]
    exact h.noLossReported.stored
  · rw [hs.lengthXattr]
    exact h.covered _ (FileState.mem_covered.mpr (Or.inr (Or.inl rfl)))

namespace Silent

theorem owns (hs : Silent s s') (h : s.Owns bs id) : s'.Owns bs id where
  lt := h.lt.trans_le hs.brk
  kept := by
    obtain ⟨l, hnotes, hinner⟩ := hs.notes
    rw [hnotes]
    intro appendPos hasked
    refine (KeptBelow.quiets fun n hn => (hinner n hn).quiet).mpr (h.kept appendPos ?_)
    exact (List.mem_append.mp hasked).resolve_right fun hin => hinner _ hin

theorem trans {s'' : FileState} (h : Silent s s') (h' : Silent s' s'') : Silent s s'' where
  xattrLength := h'.xattrLength.trans h.xattrLength
  lengthXattr := h'.lengthXattr.trans h.lengthXattr
  requests := h'.requests.trans h.requests
  brk := h.brk.trans h'.brk
  pending := fun w hw => h.pending w (h'.pending w hw)
  notes := by
    obtain ⟨l, hnotes, hinner⟩ := h.notes
    obtain ⟨l', hnotes', hinner'⟩ := h'.notes
    refine ⟨l ++ l', by rw [hnotes', hnotes, List.append_assoc], fun n hn => ?_⟩
    exact (List.mem_append.mp hn).elim (hinner n) (hinner' n)

/-- Other fields change. -/
theorem fields (hxattr : s'.blob.xattrLength = s.blob.xattrLength)
    (hlength : s'.file.lengthXattr = s.file.lengthXattr)
    (hrequests : s'.file.syncRequests = s.file.syncRequests) (hbrk : s.brk ≤ s'.brk)
    (hpending : s'.pending = s.pending) (hnotes : s'.notes = s.notes) : Silent s s' :=
  ⟨hxattr, hlength, hrequests, hbrk, fun _ hw => hpending ▸ hw,
    [], by rw [hnotes, List.append_nil], nofun⟩

theorem refl (s : FileState) : Silent s s := fields rfl rfl rfl (Nat.le_refl _) rfl rfl

theorem take (s : FileState) (i : Nat) : Silent s (s.take i) :=
  ⟨rfl, rfl, rfl, Nat.le_refl _, fun _ hw => mem_of_taken hw, [], (List.append_nil _).symm, nofun⟩

theorem alloc (s : FileState) : Silent s s.alloc := fields rfl rfl rfl (Nat.le_succ _) rfl rfl

theorem inserted (s : FileState) (offset : Nat) : Silent s (s.inserted offset) :=
  fields rfl rfl rfl (Nat.le_succ _) rfl rfl

theorem cacheAppendBuffer {ok : Bool} {r : Option BufRef}
    (h : s.cacheAppendBuffer ok = .ok (r, s')) : Silent s s' := by
  rcases (FileState.cacheAppendBuffer_ok h).2.2 with ⟨-, rfl⟩ | ⟨-, -, -, rfl⟩
  · exact refl _
  · exact fields rfl rfl rfl (Nat.le_succ _) rfl rfl

theorem openLast (h : s.openLast a = .ok s') : Silent s s' := by
  have hopened : Silent s s.opened := fields rfl rfl rfl (Nat.le_refl _) rfl rfl
  rcases FileState.openLast_ok h with ⟨rfl, -⟩ | ⟨-, -, r, happend⟩
  · exact hopened
  · exact hopened.trans (cacheAppendBuffer happend)

theorem removeBuffer (s : FileState) (b : BufRef) (buffer : CacheBuffer) :
    Silent s (s.removeBuffer b buffer) :=
  ⟨rfl, rfl, rfl, Nat.le_refl _, fun _ hw => hw, [.freed buffer], rfl, by simp [Note.Inner]⟩

theorem treeFreeBuffers (s : FileState) : Silent s s.treeFreeBuffers := by
  refine ⟨rfl, rfl, rfl, Nat.le_refl _, fun _ hw => hw, _, rfl, fun n hn => ?_⟩
  obtain ⟨b, -, hfreed⟩ := List.mem_filterMap.mp hn
  obtain ⟨buffer, -, rfl⟩ := Option.map_eq_some_iff.mp hfreed
  trivial

theorem reclaimCacheBuffers (s : FileState) : Silent s s.reclaimCacheBuffers := by
  unfold FileState.reclaimCacheBuffers
  split
  · exact refl s
  dsimp only
  split
  · exact (treeFreeBuffers s).trans (fields rfl rfl rfl (Nat.le_refl _) rfl rfl)
  · exact treeFreeBuffers s

theorem fileFree (h : s.fileFree = .ok s') : Silent s s' := by
  unfold FileState.fileFree at h
  split at h
  · obtain rfl := Except.ok.inj h
    exact fields rfl rfl rfl (Nat.le_refl _) rfl rfl
  dsimp only at h
  split at h
  · obtain rfl := Except.ok.inj h
    exact (treeFreeBuffers s).trans (fields rfl rfl rfl (Nat.le_refl _) rfl rfl)
  · cases h

theorem readAhead {b : BufRef} {buffer : CacheBuffer} {length : Nat}
    (h : s.readAhead bs b buffer length a = .ok s') : Silent s s' := by
  obtain ⟨image, rfl, -⟩ := FileState.readAhead_ok h
  exact fields rfl rfl rfl (Nat.le_refl _) rfl rfl

end Silent

/-- More is under way, for a call that can come back with success. -/
theorem send (h : Accounted bs s) (howns : ∀ id, w.call = some id → s.Owns bs id)
    (hsync : ∀ ref, w ≠ .syncXattr ref) : Accounted bs (s.send w) where
  replies := h.replies
  covered := by
    intro n hn
    rcases FileState.mem_covered.mp hn with hx | hx | hx | ⟨w', hw', id, hcall, hasked⟩
    · exact h.covered n (FileState.mem_covered.mpr (Or.inl hx))
    · exact h.covered n (FileState.mem_covered.mpr (Or.inr (Or.inl hx)))
    · exact h.covered n (FileState.mem_covered.mpr (Or.inr (Or.inr (Or.inl hx))))
    · rcases List.mem_append.mp hw' with hold | hnew
      · exact (h.owns hold hcall).kept n hasked
      · exact (howns id (List.mem_singleton.mp hnew ▸ hcall)).kept n hasked
  asked := h.asked
  calls := by
    intro w' hw' id hcall
    rcases List.mem_append.mp hw' with hold | hnew
    · exact h.calls w' hold id hcall
    · exact (howns id (List.mem_singleton.mp hnew ▸ hcall)).lt
  requests := h.requests
  started := by
    intro ref hmem
    rcases List.mem_append.mp hmem with hold | hnew
    · exact h.started ref hold
    · exact absurd (List.mem_singleton.mp hnew).symm (hsync ref)

/-- Work for no call. -/
theorem sendInner (h : Accounted bs s) (hcall : w.call = none) (hsync : ∀ ref, w ≠ .syncXattr ref) :
    Accounted bs (s.send w) :=
  h.send (fun _ hsome => nomatch hcall.symm.trans hsome) hsync

theorem reply (h : Accounted bs s) {rc : Int} (hrc : rc = 0 → s.Owns bs id) :
    Accounted bs (s.reply id rc) where
  replies := h.replies.concat fun id' appendPos heq hasked => by
    obtain ⟨rfl, rfl⟩ := Note.replied.inj heq
    exact (hrc rfl).kept appendPos hasked
  covered := by
    intro n hn
    refine (KeptBelow.quiet fun _ _ _ => rfl).mpr (h.covered n (FileState.mem_covered.mpr ?_))
    refine (FileState.mem_covered.mp hn).imp_right (Or.imp_right (Or.imp_right ?_))
    rintro ⟨w, hw, id', hcall, hasked⟩
    exact ⟨w, hw, id', hcall, (FileState.mem_note hasked).resolve_right nofun⟩
  asked := fun id' appendPos hmem =>
    h.asked id' appendPos ((FileState.mem_note hmem).resolve_right nofun)
  calls := h.calls
  requests := by
    intro r hr
    obtain ⟨href, hcall, hoffset, hstarted⟩ := h.requests r hr
    exact ⟨href, hcall, fun appendPos hmem =>
      hoffset appendPos ((FileState.mem_note hmem).resolve_right nofun), hstarted⟩
  started := h.started

/-- A new call is not yet under way. -/
theorem ask (h : Accounted bs s) : Accounted bs s.ask where
  replies := h.replies.concat fun _ _ heq => nomatch heq
  covered := by
    intro n hn
    refine (KeptBelow.quiet fun _ _ _ => rfl).mpr (h.covered n (FileState.mem_covered.mpr ?_))
    refine (FileState.mem_covered.mp hn).imp_right (Or.imp_right (Or.imp_right ?_))
    rintro ⟨w, hw, id, hcall, hasked⟩
    refine ⟨w, hw, id, hcall, (FileState.mem_note hasked).resolve_right fun heq => ?_⟩
    obtain ⟨rfl, -⟩ := Note.asked.inj heq
    exact Nat.lt_irrefl _ (h.calls w hw _ hcall)
  asked := by
    intro id appendPos hmem
    rcases FileState.mem_note hmem with hold | hnew
    · exact Nat.lt_succ_of_lt (h.asked id appendPos hold)
    · obtain ⟨rfl, -⟩ := Note.asked.inj hnew
      exact Nat.lt_succ_self _
  calls := fun w hw id hcall => Nat.lt_succ_of_lt (h.calls w hw id hcall)
  requests := by
    intro r hr
    obtain ⟨href, hcall, hoffset, hstarted⟩ := h.requests r hr
    refine ⟨Nat.lt_succ_of_lt href, Nat.lt_succ_of_lt hcall, fun appendPos hmem => ?_, hstarted⟩
    refine hoffset appendPos ((FileState.mem_note hmem).resolve_right fun heq => ?_)
    exact Nat.ne_of_lt hcall (Note.asked.inj heq).1
  started := fun ref hmem =>
    (h.started ref hmem).imp_left Nat.lt_succ_of_lt

/-- What was noted of the new call. -/
theorem asked_brk (h : Accounted bs s) {appendPos : Nat}
    (hmem : .asked s.brk appendPos ∈ s.ask.notes) : appendPos = s.file.appendPos := by
  rcases FileState.mem_note hmem with hold | hnew
  · exact absurd (h.asked _ _ hold) (Nat.lt_irrefl _)
  · exact (Note.asked.inj hnew).2

/-- A sync that comes back at once. -/
theorem owns_brk (h : Accounted bs s) (hkept : KeptBelow bs s.notes s.file.appendPos) :
    s.ask.Owns bs s.brk where
  lt := Nat.lt_succ_self _
  kept := fun _ hmem => (KeptBelow.quiet fun _ _ _ => rfl).mpr (h.asked_brk hmem ▸ hkept)

/-- A call of a write or a truncate is given a number. -/
theorem owns_alloc (h : Accounted bs s) : s.alloc.Owns bs s.brk where
  lt := Nat.lt_succ_self _
  kept := fun _ hmem => absurd (h.asked _ _ hmem) (Nat.lt_irrefl _)

/-! ### Syncs -/

theorem fileCloseAsync (h : Accounted bs s) (howns : s.Owns bs id)
    (hstep : s.fileCloseAsync id = .ok s') : Accounted bs s' := by
  rcases FileState.fileCloseAsync_ok hstep with rfl | rfl | rfl
  · exact h.reply fun _ => howns
  · have hs : Silent s { s with refCount := s.refCount - 1 } :=
      .fields rfl rfl rfl (Nat.le_refl _) rfl rfl
    exact (h.silent hs).reply fun _ => hs.owns howns
  · have hs : Silent s { s with refCount := 0, blobOpen := false } :=
      .fields rfl rfl rfl (Nat.le_refl _) rfl rfl
    exact (h.silent hs).send (fun id' hcall => Option.some.inj hcall ▸ hs.owns howns) nofun

/-- A sync comes back with an error, or can come back with success. -/
theorem callSyncCb (h : Accounted bs s) {rc : Int} {cb : SyncCb}
    (howns : (∀ id, cb = .client id → rc = 0) → s.Owns bs cb.call)
    (hstep : s.callSyncCb rc cb = .ok s') : Accounted bs s' := by
  cases cb with
  | client id =>
      obtain rfl := Except.ok.inj hstep
      exact h.reply fun hrc => howns fun _ _ => hrc
  | closeAsync id => exact h.fileCloseAsync (howns nofun) hstep
  | close id =>
      obtain rfl := Except.ok.inj hstep
      exact h.send (fun id' hcall => Option.some.inj hcall ▸ howns nofun) nofun

/-- A request is queued. -/
theorem enqueued (h : Accounted bs s) {cb : SyncCb} (hcall : cb.call < s.brk)
    (hoffset : ∀ appendPos, .asked cb.call appendPos ∈ s.notes → appendPos ≤ s.file.appendPos) :
    Accounted bs (s.enqueued cb) := by
  refine sendInner (s := ((s.setFile { s.file with
    syncRequests := s.file.syncRequests ++ [⟨s.brk, cb, s.file.appendPos, false, 0⟩] }).alloc).note
      (.queued s.brk)) ?_ rfl nofun
  exact {
    replies := h.replies.concat fun _ _ heq => nomatch heq
    covered := by
      intro n hn
      refine (KeptBelow.quiet fun _ _ _ => rfl).mpr (h.covered n (FileState.mem_covered.mpr ?_))
      refine (FileState.mem_covered.mp hn).imp_right (Or.imp_right (Or.imp ?_ ?_))
      · rintro ⟨r, hr, hin, hlength⟩
        rcases List.mem_append.mp hr with hold | hnew
        · exact ⟨r, hold, hin, hlength⟩
        · rw [List.mem_singleton.mp hnew] at hin
          cases hin
      · rintro ⟨w, hw, id, hcall, hasked⟩
        exact ⟨w, hw, id, hcall, (FileState.mem_note hasked).resolve_right nofun⟩
    asked := fun id appendPos hmem => Nat.lt_succ_of_lt
      (h.asked id appendPos ((FileState.mem_note hmem).resolve_right nofun))
    calls := fun w hw id hcall => Nat.lt_succ_of_lt (h.calls w hw id hcall)
    requests := by
      intro r hr
      rcases List.mem_append.mp hr with hold | hnew
      · obtain ⟨href, hcall, hoffset, hstarted⟩ := h.requests r hold
        exact ⟨Nat.lt_succ_of_lt href, Nat.lt_succ_of_lt hcall, fun appendPos hmem =>
          hoffset appendPos ((FileState.mem_note hmem).resolve_right nofun), hstarted⟩
      · rw [List.mem_singleton.mp hnew]
        exact ⟨Nat.lt_succ_self _, Nat.lt_succ_of_lt hcall, fun appendPos hmem =>
          hoffset appendPos ((FileState.mem_note hmem).resolve_right nofun), nofun⟩
    started := by
      intro ref hmem
      obtain ⟨hlt, hin⟩ := h.started ref hmem
      refine ⟨Nat.lt_succ_of_lt hlt, fun r hr href => ?_⟩
      rcases List.mem_append.mp hr with hold | hnew
      · exact hin r hold href
      · rw [List.mem_singleton.mp hnew] at href
        exact absurd href.symm (Nat.ne_of_lt hlt) }

/-- The call of a sync, or of a close. -/
theorem fileSync (h : Accounted bs s) {cb : SyncCb} (hcb : cb.call = s.brk)
    (hrefused : a.syncRequest = false ∨ a.flushRequest = false → (∀ id, cb ≠ .client id) →
      s.file.lengthXattr < s.file.appendPos → KeptBelow bs s.notes s.file.appendPos)
    (hstep : s.ask.fileSync cb a = .ok s') : Accounted bs s' := by
  unfold FileState.fileSync at hstep
  split at hstep
  · rename_i hle
    refine h.ask.callSyncCb (fun _ => hcb ▸ h.owns_brk ?_) hstep
    exact (h.covered _ (FileState.mem_covered.mpr (Or.inr (Or.inl rfl)))).mono hle
  rename_i hbeyond
  split at hstep
  · rename_i hmemory
    refine h.ask.callSyncCb (fun hclient => hcb ▸ h.owns_brk ?_) hstep
    exact hrefused hmemory (fun id heq => nomatch hclient id heq) (Nat.not_le.mp hbeyond)
  · obtain rfl := Except.ok.inj hstep
    exact h.ask.enqueued (hcb ▸ Nat.lt_succ_self _) fun appendPos hmem =>
      Nat.le_of_eq (h.asked_brk (hcb ▸ hmem))

/-- An update is started over bytes that are not lost. -/
theorem checkSyncReqs (h : Accounted bs s)
    (hstores : ∀ length ∈ s.stores a (.check false), KeptBelow bs s.notes length)
    (hstep : s.checkSyncReqs = .ok s') : Accounted bs s' := by
  rcases FileState.checkSyncReqs_ok hstep with rfl | ⟨r, hfind, hidle, -, rfl⟩
  · exact h
  have hkept : KeptBelow bs s.notes s.file.lengthFlushed :=
    hstores _ (by simp [FileState.stores, hfind, hidle])
  have hreached : r.offset ≤ s.file.lengthFlushed := by simpa using List.find?_some hfind
  have hr := List.mem_of_find?_eq_some hfind
  exact {
    replies := h.replies
    covered := by
      intro n hn
      rcases FileState.mem_covered.mp hn with rfl | hx | ⟨q, hq, hin, rfl⟩ | ⟨w, hw, id, hcall, ha⟩
      · exact hkept
      · exact h.covered n (FileState.mem_covered.mpr (Or.inr (Or.inl hx)))
      · obtain ⟨q', hq', rfl⟩ := List.mem_map.mp hq
        split at hin
        · rename_i heq
          rw [if_pos heq]
          exact hkept
        · rename_i hne
          rw [if_neg hne]
          refine h.covered _ (FileState.mem_covered.mpr (Or.inr (Or.inr (Or.inl ?_))))
          exact ⟨q', hq', hin, rfl⟩
      · rcases List.mem_append.mp hw with hold | hnew
        · exact (h.owns hold hcall).kept n ha
        · rw [List.mem_singleton.mp hnew] at hcall
          cases hcall
    asked := h.asked
    calls := by
      intro w hw id hcall
      rcases List.mem_append.mp hw with hold | hnew
      · exact h.calls w hold id hcall
      · rw [List.mem_singleton.mp hnew] at hcall
        cases hcall
    requests := by
      intro q hq
      obtain ⟨q', hq', rfl⟩ := List.mem_map.mp hq
      split
      · obtain ⟨href, hcall, hoffset, -⟩ := h.requests r hr
        exact ⟨href, hcall, hoffset, fun _ => hreached⟩
      · exact h.requests q' hq'
    started := by
      intro ref hmem
      refine ⟨?_, fun q hq href => ?_⟩
      · rcases List.mem_append.mp hmem with hold | hnew
        · exact (h.started ref hold).1
        · rw [Work.syncXattr.inj (List.mem_singleton.mp hnew)]
          exact (h.requests r hr).1
      · obtain ⟨q', hq', rfl⟩ := List.mem_map.mp hq
        split at href
        · rename_i heq
          rw [if_pos heq]
        · rename_i hne
          rw [if_neg hne]
          rcases List.mem_append.mp hmem with hold | hnew
          · exact (h.started ref hold).2 q' hq' href
          · rw [Work.syncXattr.inj (List.mem_singleton.mp hnew)] at href
            exact absurd href hne }

/-- An update comes back; its request was the one that it was started for. -/
theorem fileCacheFinishSync (h : Accounted bs s) {ref : Nat} {bserrno : Int}
    (hstarted : ∀ r ∈ s.file.syncRequests, r.ref = ref → r.xattrInProgress = true)
    (hstep : s.fileCacheFinishSync ref bserrno = .ok s') : Accounted bs s' := by
  obtain ⟨r, hfind, -, s₁, hcb, rfl⟩ := FileState.fileCacheFinishSync_ok hstep
  have hr := List.mem_of_find?_eq_some hfind
  have hin := hstarted r hr (by simpa using List.find?_some hfind)
  have hkept : KeptBelow bs s.notes r.length :=
    h.covered _ (FileState.mem_covered.mpr (Or.inr (Or.inr (Or.inl ⟨r, hr, hin, rfl⟩))))
  obtain ⟨-, hcall, hoffset, hlength⟩ := h.requests r hr
  have hnext : Accounted bs ((s.setFile { s.file with
      lengthXattr := r.length
      syncRequests := s.file.syncRequests.filter fun q : SyncRequest => q.ref ≠ ref }).note
      (.called ref r.offset s.file.lengthFlushed)) :=
    h.change (l := [.called ref r.offset s.file.lengthFlushed]) h.noLossReported.stored hkept
      (fun q hq => (List.mem_filter.mp hq).1) (Nat.le_refl _) (fun _ hw => hw) rfl
      (by simp [Note.Inner])
  refine (hnext.callSyncCb (fun _ => ⟨hcall, fun appendPos hmem => ?_⟩) hcb).sendInner rfl nofun
  refine (KeptBelow.quiet fun _ _ _ => rfl).mpr (hkept.mono ?_)
  exact (hoffset appendPos ((FileState.mem_note hmem).resolve_right nofun)).trans (hlength hin)

/-! ### Flushes -/

theorem fileFlush (h : Accounted bs s) (hstep : s.fileFlush = .ok s') : Accounted bs s' := by
  rcases FileState.fileFlush_ok hstep with
    ⟨-, rfl⟩ | ⟨b, next, -, -, ⟨rfl, -⟩ | ⟨rfl, -⟩ | ⟨-, -, -, rfl⟩⟩
  · exact sendInner (h.silent (.fields rfl rfl rfl (Nat.le_refl _) rfl rfl)) rfl nofun
  · exact h
  · exact h.sendInner rfl nofun
  · exact sendInner (h.silent (.fields rfl rfl rfl (Nat.le_refl _) rfl rfl)) rfl nofun

/-- A write that succeeds, or fails past what is covered. -/
theorem wrote (h : Accounted bs s) {offset length : Nat} {bserrno : Int}
    (hfails : bserrno ≠ 0 → ∀ n ∈ s.covered, n ≤ offset) :
    Accounted bs (s.note (.wrote offset length bserrno)) where
  replies := h.replies.concat fun _ _ heq => nomatch heq
  covered := by
    intro n hn
    have hold : n ∈ s.covered := by
      refine FileState.mem_covered.mpr ((FileState.mem_covered.mp hn).imp_right
        (Or.imp_right (Or.imp_right ?_)))
      rintro ⟨w, hw, id, hcall, hasked⟩
      exact ⟨w, hw, id, hcall, (FileState.mem_note hasked).resolve_right nofun⟩
    exact (h.covered n hold).wrote fun hne => hfails hne n hold
  asked := fun id appendPos hmem =>
    h.asked id appendPos ((FileState.mem_note hmem).resolve_right nofun)
  calls := h.calls
  requests := by
    intro r hr
    obtain ⟨href, hcall, hoffset, hstarted⟩ := h.requests r hr
    exact ⟨href, hcall, fun appendPos hmem =>
      hoffset appendPos ((FileState.mem_note hmem).resolve_right nofun), hstarted⟩
  started := h.started

theorem flushWrite (h : Accounted bs s) {b : BufRef} {next : CacheBuffer} {offset length : Nat}
    (hfails : a.bserrno ≠ 0 → ∀ n ∈ s.covered, n ≤ offset) {s₁ : FileState}
    (hwrite : s.flushed bs b next offset length a = .ok s₁)
    (hdone : s₁.fileFlushDone bs b next length = .ok s') : Accounted bs s' := by
  obtain rfl := FileState.fileFlushDone_ok hdone
  have hwrote : Accounted bs (s.note (.wrote offset length a.bserrno)) := h.wrote hfails
  refine sendInner (hwrote.silent ?_) rfl nofun
  rcases FileState.flushed_ok hwrite with ⟨-, rfl⟩ | ⟨-, -, rfl⟩
  all_goals exact .fields rfl rfl rfl (Nat.le_refl _) rfl rfl

/-! ### Appends -/

theorem startFill (h : Accounted bs s) (howns : s.Owns bs id) {payload : List UInt8}
    (hstep : s.startFill id payload a = .ok s') : Accounted bs s' := by
  rcases FileState.startFill_ok hstep with rfl | ⟨last, -, rfl⟩
  · exact h.reply fun _ => howns
  · exact h.send (fun _ hcall => Option.some.inj hcall ▸ howns) nofun

theorem append (h : Accounted bs s) (howns : s.Owns bs id) {offset : Nat} {payload : List UInt8}
    (hstep : s.append bs id offset payload a = .ok s') : Accounted bs s' := by
  obtain ⟨s₁, hopen, hrest⟩ := FileState.append_ok hstep
  have hs := Silent.openLast hopen
  have hpast : Silent s (s₁.appendedPast payload.length) :=
    hs.trans (.fields rfl rfl rfl (Nat.le_refl _) rfl rfl)
  rcases hrest with ⟨-, rfl | rfl⟩ | ⟨-, -, ⟨-, rfl⟩ | ⟨-, hfill⟩⟩
  · exact (h.silent hpast).send (fun _ hcall => Option.some.inj hcall ▸ hpast.owns howns) nofun
  · exact (h.silent hpast).reply fun _ => hpast.owns howns
  · exact (h.silent hs).send (fun _ hcall => Option.some.inj hcall ▸ hs.owns howns) nofun
  · exact (h.silent hs).startFill (hs.owns howns) hfill

theorem fillRound (h : Accounted bs s) (howns : s.Owns bs id) {b : BufRef} {payload : List UInt8}
    {filled : Nat} (hstep : s.fillRound id b payload filled a = .ok s') : Accounted bs s' := by
  obtain ⟨last, -, hround⟩ := FileState.fillRound_ok hstep
  have hs : Silent s (s.copied b last payload) := .fields rfl rfl rfl (Nat.le_refl _) rfl rfl
  rcases hround with ⟨-, rfl⟩ | ⟨-, r, s₁, happend, ⟨c, -, rfl⟩ | ⟨-, rfl⟩⟩
  · exact (h.silent hs).send (fun _ hcall => Option.some.inj hcall ▸ hs.owns howns) nofun
  · have hs₁ := hs.trans (.cacheAppendBuffer happend)
    exact (h.silent hs₁).send (fun _ hcall => Option.some.inj hcall ▸ hs₁.owns howns) nofun
  · have hs₁ := hs.trans (.cacheAppendBuffer happend)
    exact (h.silent hs₁).reply fun _ => hs₁.owns howns

/-! ### Requests past the cache -/

theorem rwStage (h : Accounted bs s) {op : Option Nat} (howns : ∀ id, op = some id → s.Owns bs id)
    {stage : Stage} (hstep : s.rwStage op stage = .ok s') : Accounted bs s' := by
  rcases FileState.rwStage_ok hstep with ⟨rc, iov, -, ⟨-, rfl⟩ | ⟨id, hop, rfl⟩⟩ | ⟨-, -, rfl⟩
  · exact h
  · exact h.reply fun _ => howns id hop
  · exact h.send howns nofun

theorem rwComplete (h : Accounted bs s) {op : Option Nat}
    (howns : ∀ id, op = some id → s.Owns bs id) {stage : Stage}
      (hstores : ∀ length rw, stage = .resize length rw → a.bserrno = 0 →
      KeptBelow bs s.notes length)
    (hstep : s.rwComplete bs op stage a = .ok s') : Accounted bs s' := by
  obtain ⟨t, hasync, hstage⟩ := FileState.rwComplete_ok hstep
  have hstored : KeptBelow bs s.notes t.file.blob.xattrLength := by
    rcases FileState.asyncStep_ok rfl hasync with
      ⟨-, -, heq, -⟩ | ⟨length, rw, heq, hzero, -, -, hxattr⟩
    · exact heq ▸ h.noLossReported.stored
    · exact hxattr ▸ hstores length rw heq hzero
  refine Accounted.rwStage (s := s.setAsyncFile t.file) ?_ (fun id hid => ?_) hstage
  · exact h.change (l := []) hstored (h.covered _ (FileState.mem_covered.mpr (Or.inr (Or.inl rfl))))
      (fun _ hr => hr) (Nat.le_refl _) (fun _ hw => hw) (List.append_nil _).symm nofun
  · exact ⟨(howns id hid).lt, (howns id hid).kept⟩

/-! ### Reads -/

theorem checkReadahead (h : Accounted bs s) {offset : Nat} {ok : Bool}
    (hstep : s.checkReadahead offset ok = .ok s') : Accounted bs s' := by
  rcases FileState.checkReadahead_ok hstep with rfl | ⟨-, -, -, rfl⟩
  · exact h
  · exact sendInner (h.silent (.fields rfl rfl rfl (Nat.le_succ _) rfl rfl)) rfl nofun

theorem fileRead (h : Accounted bs s) {offset length : Nat}
    (hstep : s.fileRead offset length a = .ok s') : Accounted bs s' := by
  rcases FileState.fileRead_ok hstep with rfl | ⟨n, s₁, -, haheads, rfl⟩
  · exact h.silent (.fields rfl rfl rfl (Nat.le_refl _) rfl rfl)
  · have hseq : Accounted bs (s.sequential offset n) :=
      h.silent (.fields rfl rfl rfl (Nat.le_refl _) rfl rfl)
    refine sendInner ?_ rfl nofun
    rcases FileState.checkReadaheads_ok haheads with rfl | ⟨-, s₂, hfirst, hsecond⟩
    · exact hseq
    · exact (hseq.checkReadahead hfirst).checkReadahead hsecond

theorem readRound (h : Accounted bs s) {offset finalOffset : Nat}
    (hstep : s.readRound offset finalOffset a = .ok s') : Accounted bs s' := by
  rcases FileState.readRound_ok hstep with
    rfl | ⟨-, rfl⟩ | ⟨b, buffer, -, -, -, ⟨-, rfl⟩ | ⟨-, rfl⟩⟩
  · exact h
  · exact sendInner (sendInner h rfl nofun) rfl nofun
  · exact (h.silent (.removeBuffer s b buffer)).sendInner rfl nofun
  · exact h.sendInner rfl nofun

/-! ### Truncates -/

theorem fileTruncateAsync (h : Accounted bs s) (howns : s.Owns bs id) {length : Nat}
    (hstep : s.fileTruncateAsync id length a = .ok s') : Accounted bs s' := by
  rcases FileState.fileTruncateAsync_ok hstep with ⟨-, rfl⟩ | rfl | rfl
  · exact h.reply fun _ => howns
  · exact h.reply fun _ => howns
  · exact h.send (fun _ hcall => Option.some.inj hcall ▸ howns) nofun

theorem fsTruncateResizeCb (h : Accounted bs s) (howns : s.Owns bs id) {length : Nat}
    (hstores : a.bserrno = 0 → KeptBelow bs s.notes length)
    (hstep : s.fsTruncateResizeCb bs id length a = .ok s') : Accounted bs s' := by
  rcases FileState.fsTruncateResizeCb_ok hstep with ⟨-, rfl⟩ | ⟨hzero, rfl⟩
  · exact h.reply fun _ => howns
  · have hnext : Accounted bs (s.truncated bs length a.contents) :=
      h.change (l := []) (hstores hzero)
        (h.covered _ (FileState.mem_covered.mpr (Or.inr (Or.inl rfl))))
        (fun _ hr => hr) (Nat.le_refl _) (fun _ hw => hw) (List.append_nil _).symm nofun
    exact hnext.send (fun _ hcall => Option.some.inj hcall ▸ ⟨howns.lt, howns.kept⟩) nofun

/-! ### Runs -/

/-- Something that is pending is done. -/
theorem complete (h : Accounted bs s) {i : Nat} (hw : s.pending[i]? = some w)
    (hkept : StoresKept bs s (.complete i, a)) (hstep : (s.take i).perform bs a w = .ok s') :
    Accounted bs s' := by
  have hstores := hkept.stores w hw
  have htake := h.silent (.take s i)
  have howns : ∀ id, w.call = some id → (s.take i).Owns bs id := fun id hcall =>
    (Silent.take s i).owns (h.owns (mem_taken hw) hcall)
  cases w with
  | append id offset payload => exact htake.append (howns id rfl) hstep
  | extend id numClusters payload =>
      obtain ⟨-, rfl⟩ := FileState.blobOp_ok hstep
      exact htake.send howns nofun
  | extendResize id numClusters payload =>
      simp only [FileState.perform] at hstep
      split at hstep
      · obtain rfl := Except.ok.inj hstep
        exact htake.reply fun _ => howns id rfl
      · obtain ⟨-, rfl⟩ := FileState.blobOp_ok hstep
        have hs : Silent (s.take i) { s.take i with
            blob := (s.take i).blob.resize bs numClusters a.contents } :=
          .fields rfl rfl rfl (Nat.le_refl _) rfl rfl
        exact (htake.silent hs).send (fun id hcall => hs.owns (howns id hcall)) nofun
  | extendSync id payload =>
      simp only [FileState.perform] at hstep
      split at hstep
      all_goals obtain rfl := Except.ok.inj hstep
      · exact htake.reply fun _ => howns id rfl
      · exact htake.send howns nofun
  | startFill id payload => exact htake.startFill (howns id rfl) hstep
  | fill id b payload filled =>
      simp only [FileState.perform] at hstep
      split at hstep
      · obtain rfl := Except.ok.inj hstep
        have hreplied : Accounted bs ((s.take i).reply id 0) := htake.reply fun _ => howns id rfl
        unfold FileState.endFill
        split
        · exact hreplied
        · exact sendInner hreplied rfl nofun
      · exact htake.fillRound (howns id rfl) hstep
  | rwFromFile id call => exact htake.rwStage howns hstep
  | rw id stage =>
      refine htake.rwComplete howns (fun length rw hstage hzero => ?_) hstep
      subst hstage
      exact hstores length (if_pos hzero)
  | flush => exact htake.fileFlush hstep
  | flushWrite b offset length =>
      obtain ⟨next, -, hstep⟩ := bind_ok.mp hstep
      obtain ⟨s₁, hwrite, hdone⟩ := bind_ok.mp hstep
      refine htake.flushWrite (fun hne n hn => ?_) hwrite hdone
      refine hkept.fails _ hw offset (if_neg hne) n (FileState.mem_covered.mpr ?_)
      refine (FileState.mem_covered.mp hn).imp_right (Or.imp_right (Or.imp_right ?_))
      rintro ⟨w', hw', hcovers⟩
      exact ⟨w', mem_of_taken hw', hcovers⟩
  | check thenFlush =>
      obtain ⟨s₁, hcheck, hret⟩ := bind_ok.mp hstep
      obtain rfl := Except.ok.inj hret
      have hchecked := htake.checkSyncReqs (a := a) hstores hcheck
      split
      · exact sendInner hchecked rfl nofun
      · exact hchecked
  | syncXattr ref =>
      exact htake.fileCacheFinishSync (h.started ref (mem_taken hw)).2 hstep
  | readahead b length =>
      obtain ⟨buffer, -, hstep⟩ := bind_ok.mp hstep
      split at hstep
      · cases hstep
      · obtain ⟨-, rfl⟩ := FileState.blobOp_ok hstep
        exact sendInner htake rfl nofun
  | readaheadRead b length =>
      obtain ⟨buffer, -, hstep⟩ := bind_ok.mp hstep
      obtain ⟨s₁, hread, hret⟩ := bind_ok.mp hstep
      obtain rfl := Except.ok.inj hret
      exact (htake.silent (.readAhead hread)).silent (.fields rfl rfl rfl (Nat.le_refl _) rfl rfl)
  | readLoop offset finalOffset => exact htake.readRound hstep
  | truncate id length => exact htake.fileTruncateAsync (howns id rfl) hstep
  | truncateResize id length =>
      exact htake.fsTruncateResizeCb (howns id rfl) (fun hzero => hstores length (if_pos hzero))
        hstep
  | truncateSync id =>
      obtain rfl := Except.ok.inj hstep
      exact htake.reply fun _ => howns id rfl
  | close id => exact htake.fileCloseAsync (howns id rfl) hstep
  | closeBlob id =>
      obtain rfl := Except.ok.inj hstep
      exact htake.reply fun _ => howns id rfl

theorem fileWrite (h : Accounted bs s) (offset : Nat) (payload : List UInt8) :
    Accounted bs (s.fileWrite offset payload) := by
  have halloc := h.silent (.alloc s)
  unfold FileState.fileWrite
  split
  · exact halloc.reply fun _ => h.owns_alloc
  split
  · exact halloc.reply fun _ => h.owns_alloc
  · exact halloc.send (fun _ hcall => Option.some.inj hcall ▸ h.owns_alloc) nofun

/-- A step keeps the invariant. -/
theorem step (h : Accounted bs s) {e : FileEvent × Answer} (hkept : StoresKept bs s e)
    (hstep : FileSteps bs s e s') : Accounted bs s' := by
  obtain ⟨event, a⟩ := e
  obtain ⟨-, hact⟩ := FileState.step_ok hstep
  have halloc := h.silent (.alloc s)
  -- The two closes differ in their callback.
  have hclose : ∀ cb : SyncCb, cb.call = s.brk → s.refuses a event = (a.request &&
      !(a.syncRequest && a.flushRequest) && decide (s.file.lengthXattr < s.file.appendPos)) →
      (if a.request then s.ask.fileSync cb a else .ok (s.ask.reply s.brk (-ENOMEM))) = .ok s' →
        Accounted bs s' := by
    intro cb hcb hrefuses hstep
    split at hstep
    · rename_i hrequest
      refine h.fileSync hcb (fun hmemory _ hlt => hkept.refuses (hrefuses.trans ?_)) hstep
      rcases hmemory with hfalse | hfalse
      all_goals simp [hrequest, hfalse, hlt]
    · obtain rfl := Except.ok.inj hstep
      exact h.ask.reply fun hrc => absurd hrc (by decide)
  cases event with
  | write offset payload =>
      obtain rfl := Except.ok.inj hact
      exact h.fileWrite offset payload
  | read offset length => exact h.fileRead hact
  | sync => exact h.fileSync rfl (fun _ hclient _ => absurd rfl (hclient s.brk)) hact
  | closeAsync => exact hclose (.closeAsync s.brk) rfl rfl hact
  | close => exact hclose (.close s.brk) rfl rfl hact
  | truncate length =>
      simp only [FileState.act] at hact
      split at hact
      all_goals obtain rfl := Except.ok.inj hact
      · exact halloc.send (fun _ hcall => Option.some.inj hcall ▸ h.owns_alloc) nofun
      · exact halloc.reply fun _ => h.owns_alloc
  | reclaim =>
      obtain rfl := Except.ok.inj hact
      exact h.silent (.reclaimCacheBuffers s)
  | free => exact h.silent (.fileFree hact)
  | complete i =>
      obtain ⟨w, hw, hperform⟩ := FileState.complete_ok hact
      exact h.complete hw hkept hperform

theorem initial (h : s.Initial bs) : Accounted bs s where
  replies := h.notes ▸ .nil
  covered := by
    rw [h.notes]
    exact fun _ _ _ _ => rfl
  asked := by simp [h.notes]
  calls := by simp [h.pending]
  requests := by simp [h.syncRequests]
  started := by simp [h.pending]

end Accounted

/-- In a run in which a length is stored, and a close goes on without its sync, only while no byte
below is lost, and a flush fails only past what is covered, no loss is reported as success. -/
theorem noLossReported_of_runs {bs : Blobstore} {start s : FileState} (hinitial : start.Initial bs)
    (hrun : Runs (FileSteps bs) (StoresKept bs) start s) : NoLossReported bs s :=
  (hrun.keeps (Accounted.initial hinitial) fun h hkept hstep => h.step hkept hstep).noLossReported

/-- A sync of the first byte fails, and a second sync writes the byte with the next one, before
the length is stored. -/
def writtenLater : List (FileEvent × Answer) :=
  [(.write 0 [7], success), (.complete 0, success), (.complete 0, success), (.complete 0, success),
    (.sync, success), (.complete 0, success), (.complete 0, failure),
    (.write 1 [8], success), (.complete 1, success), (.complete 1, success), (.complete 1, success),
    (.sync, success), (.complete 1, success), (.complete 1, success), (.complete 0, success),
    (.complete 1, success), (.complete 0, success), (.complete 2, success)]

theorem noLossReported_writtenLater : ∃ s : FileState, s.file.lengthXattr = 2 ∧
    NoLossReported oneMegabyte s := by
  have hrun : writtenLater.foldlM (fun s e =>
      if StoresKept oneMegabyte s e then s.step oneMegabyte e.2 e.1 else .error .noEvent)
      createdFile = .ok _ := rfl
  exact ⟨_, by decide, noLossReported_of_runs createdFile_initial (Runs.of_events hrun)⟩

/-- The write of the only flush fails. -/
def failedFlush : List (FileEvent × Answer) :=
  [(.write 0 [7], success), (.complete 0, success), (.complete 0, success), (.complete 0, success),
    (.sync, success), (.complete 0, success), (.complete 0, failure), (.complete 0, success),
    (.complete 0, success)]

theorem noLossReported_failedFlush : ¬ ∀ (bs : Blobstore) (start s : FileState), start.Initial bs →
    Runs (FileSteps bs) (fun _ e => e.1.isTruncate = false) start s → NoLossReported bs s := by
  intro hall
  have hrun : failedFlush.foldlM (fun s e =>
      if e.1.isTruncate = false then s.step oneMegabyte e.2 e.1 else .error .noEvent)
      createdFile = .ok _ := rfl
  have hnone := hall oneMegabyte createdFile _ createdFile_initial (Runs.of_events hrun)
  have hkept := hnone.replies
    [.replied 0 0, .asked 2 1, .queued 3, .wrote 0 1 (-5), .called 3 1 1] _
    ⟨[], rfl⟩ 2 1 rfl (by simp)
  exact absurd hkept (by decide)

end Nbfs.Cache
