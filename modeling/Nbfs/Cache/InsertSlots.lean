import Nbfs.Cache.LastBuffer

set_option autoImplicit false

/-!
# Slots of the tree

`tree_insert_buffer` asserts that the slot of a new buffer is empty.  A readahead looks
before it inserts; an append does not, and puts its buffer at `append_pos`.
-/

namespace Nbfs.Cache

open Nbfs.Lib
open Nbfs.Async (Blobstore)

namespace FileState

variable (s : FileState)

/-- The call of `tree_insert_buffer` in `cache_append_buffer`: the tree, and the offset. -/
def appendInserts (ok : Bool) : List (Present × Nat) :=
  match s.lastIsFull with
  | .ok true =>
      if s.file.appendPos % cacheBufferSize = 0 ∧ ok then [(s.file.cache, s.file.appendPos)] else []
  | _ => []

/-- The call in `check_readahead`. -/
def aheadInserts (offset : Nat) (ok : Bool) : List (Present × Nat) :=
  let offset := nextCacheBufferOffset offset
  if (s.file.cache.find offset).isSome ∨ s.file.length ≤ offset then []
  else if ok then [(s.file.cache, offset)] else []

/-- The calls in the readaheads of `spdk_file_read`. -/
def readInserts (offset length : Nat) (a : Answer) : List (Present × Nat) :=
  if length = 0 ∨ s.file.appendPos ≤ offset then []
  else
    let s := s.sequential offset (s.readableLength offset length)
    if cacheReadaheadThreshold ≤ s.file.seqByteCount then
      s.aheadInserts offset a.aheads.1 ++
        match s.checkReadahead offset a.aheads.1 with
        | .ok s => s.aheadInserts ((offset + cacheBufferSize) % 2 ^ 64) a.aheads.2
        | .error _ => []
    else []

/-- The calls while something that is pending is done. -/
def workInserts (a : Answer) : Work → List (Present × Nat)
  | .append _ _ _ =>
      let s := s.opened
      if s.file.last = none ∧ s.file.appendPos % cacheBufferSize = 0 then s.appendInserts a.buffer
      else []
  | .fill _ b payload _ =>
      match s.file.cache.buffers b with
      | none => []
      | some last =>
          if payload ≠ [] ∧ (last.bytesFilled + fillLength last payload) % 2 ^ 32 = cacheBufferSize
          then (s.copied b last payload).appendInserts a.buffer
          else []
  | _ => []

/-- The calls of `tree_insert_buffer` in a step. -/
def inserts (e : FileEvent × Answer) : List (Present × Nat) :=
  match e.1 with
  | .read offset length => s.readInserts offset length e.2
  | .complete i =>
      match s.pending[i]? with
      | some w => (s.take i).workInserts e.2 w
      | none => []
  | _ => []

end FileState

/-- Every call of a step finds its slot empty. -/
def SlotsFree (s : FileState) (e : FileEvent × Answer) : Prop :=
  ∀ call ∈ s.inserts e, call.1.find call.2 = none

/-- No position passes 2^64, nothing is cut from the last buffer, and no buffer but the last is
put at or past `append_pos`, or left there. -/
def KeepsSlots (s : FileState) (e : FileEvent × Answer) : Prop := KeepsTail s e ∧ KeepsBelow s e

instance (s : FileState) (e : FileEvent × Answer) : Decidable (KeepsSlots s e) :=
  inferInstanceAs (Decidable (_ ∧ _))

namespace Tail

variable {there clean : Prop} {s : FileState} {a : Answer} {w : Work}

/-- Buffers before `append_pos`, where a buffer starts, end there too. -/
theorem find_appendPos (h : Tail there True s) (hheap : Heap clean s) (hfull : s.LastFull)
    (haligned : s.file.appendPos % cacheBufferSize = 0) :
    s.file.cache.find s.file.appendPos = none := by
  cases hfind : s.file.cache.find s.file.appendPos with
  | none => rfl
  | some b =>
      exfalso
      obtain ⟨-, buffer, hbuffer, hle, hlt⟩ := Present.find_some hfind
      have hunit := same_unit (hheap.sits b buffer hbuffer).aligned
        (Nat.dvd_of_mod_eq_zero haligned) hle hlt (Nat.le_refl _)
        (Nat.lt_add_of_pos_right (by decide))
      rcases h.below trivial b buffer hbuffer with hlast | hbefore
      · obtain ⟨last, hlast', hbytes⟩ := hfull b hlast
        obtain rfl := Option.some.inj (hlast'.symm.trans hbuffer)
        have hends := h.ends b hlast last hbuffer
        have hsize : cacheBufferSize = 2 ^ 18 := by decide
        omega
      · exact Nat.ne_of_lt hbefore hunit

theorem appendInserts (h : Tail there True s) (hheap : Heap clean s) {ok : Bool} :
    ∀ call ∈ s.appendInserts ok, call.1.find call.2 = none := by
  intro call hcall
  unfold FileState.appendInserts at hcall
  split at hcall
  · rename_i hfull
    split at hcall
    · rename_i haligned
      rw [List.mem_singleton.mp hcall]
      exact h.find_appendPos hheap (FileState.lastIsFull_ok hfull) haligned.1
    · exact absurd hcall List.not_mem_nil
  · exact absurd hcall List.not_mem_nil

end Tail

/-- `check_readahead` looks first. -/
theorem aheadInserts_free {s : FileState} {offset : Nat} {ok : Bool} :
    ∀ call ∈ s.aheadInserts offset ok, call.1.find call.2 = none := by
  intro call hcall
  unfold FileState.aheadInserts at hcall
  dsimp only at hcall
  split at hcall
  · exact absurd hcall List.not_mem_nil
  rename_i hnew
  split at hcall
  · rw [List.mem_singleton.mp hcall]
    exact Option.not_isSome_iff_eq_none.mp fun hsome => hnew (Or.inl hsome)
  · exact absurd hcall List.not_mem_nil

theorem readInserts_free {s : FileState} {offset length : Nat} {a : Answer} :
    ∀ call ∈ s.readInserts offset length a, call.1.find call.2 = none := by
  intro call hcall
  unfold FileState.readInserts at hcall
  split at hcall
  · exact absurd hcall List.not_mem_nil
  dsimp only at hcall
  split at hcall
  · rcases List.mem_append.mp hcall with hfirst | hsecond
    · exact aheadInserts_free call hfirst
    split at hsecond
    · exact aheadInserts_free call hsecond
    · exact absurd hsecond List.not_mem_nil
  · exact absurd hcall List.not_mem_nil

/-- Where the slot is taken, `cache_append_buffer` stops at the assertion. -/
theorem cacheAppendBuffer_taken {s s' : FileState} {ok : Bool} {r : Option BufRef}
    {call : Present × Nat} (hcall : call ∈ s.appendInserts ok)
    (htaken : call.1.find call.2 ≠ none) :
    s.cacheAppendBuffer ok ≠ .ok (r, s') := by
  intro happend
  obtain ⟨full, hfull, hinsert⟩ := bind_ok.mp happend
  unfold FileState.appendInserts at hcall
  rw [hfull] at hcall
  cases full with
  | false => exact absurd hcall List.not_mem_nil
  | true =>
      dsimp only at hcall
      split at hcall
      · rename_i haligned
        rw [List.mem_singleton.mp hcall] at htaken
        obtain ⟨hpos, rfl⟩ := haligned
        rw [if_pos rfl, if_pos hpos] at hinsert
        obtain ⟨⟨r₁, s₁⟩, hbuffer, -⟩ := bind_ok.mp hinsert
        obtain ⟨file, hfile, -⟩ := bind_ok.mp hbuffer
        exact htaken (CachedFile.cacheInsertBuffer_ok hfile).2.1
      · exact absurd hcall List.not_mem_nil

/-- So does the step. -/
theorem not_steps_of_taken {bs : Blobstore} {s s' : FileState} {e : FileEvent × Answer}
    (h : ¬ SlotsFree s e) : ¬ FileSteps bs s e s' := by
  intro hstep
  obtain ⟨event, a⟩ := e
  obtain ⟨-, hact⟩ := FileState.step_ok hstep
  refine h fun call hcall => ?_
  by_contra htaken
  cases event with
  | read offset length => exact htaken (readInserts_free call hcall)
  | complete i =>
      obtain ⟨w, hw, hperform⟩ := FileState.complete_ok hact
      simp only [FileState.inserts, hw] at hcall
      cases w with
      | append id offset payload =>
          obtain ⟨s₁, hopen, -⟩ := FileState.append_ok hperform
          simp only [FileState.workInserts] at hcall
          split at hcall
          · rename_i hnone
            rcases FileState.openLast_ok hopen with ⟨-, hlast | hpos⟩ | ⟨-, -, r, happend⟩
            · exact hlast hnone.1
            · exact hpos hnone.2
            · exact cacheAppendBuffer_taken hcall htaken happend
          · exact absurd hcall List.not_mem_nil
      | fill id b payload filled =>
          simp only [FileState.workInserts] at hcall
          split at hcall
          · exact absurd hcall List.not_mem_nil
          rename_i last hlast
          split at hcall
          · rename_i hfull
            simp only [FileState.perform, if_neg hfull.1] at hperform
            obtain ⟨other, hother, hround⟩ := FileState.fillRound_ok hperform
            obtain rfl := Option.some.inj (hlast.symm.trans hother)
            rcases hround with ⟨hpartly, -⟩ | ⟨-, r, s₁, happend, -⟩
            · exact hpartly hfull.2
            · exact cacheAppendBuffer_taken hcall htaken happend
          · exact absurd hcall List.not_mem_nil
      | _ => exact absurd hcall List.not_mem_nil
  | _ => exact absurd hcall List.not_mem_nil

theorem Tail.slotsFree {there : Prop} {s : FileState} (h : Tail there True s)
    (hheap : Heap False s) {e : FileEvent × Answer} (hkeeps : KeepsTail s e) : SlotsFree s e := by
  obtain ⟨event, a⟩ := e
  intro call hcall
  cases event with
  | read offset length => exact readInserts_free call hcall
  | complete i =>
      simp only [FileState.inserts] at hcall
      split at hcall
      · rename_i w hw
        have htake := h.take i
        cases w with
        | append id offset payload =>
            simp only [FileState.workInserts] at hcall
            split at hcall
            · have hopened : Heap False (s.take i).opened :=
                ((hheap.taken hw).drop rfl).fields rfl rfl rfl rfl rfl
              have htail : Tail there True (s.take i).opened :=
                htake.frame { Frame.refl (s.take i) with }
              exact htail.appendInserts hopened call hcall
            · exact absurd hcall List.not_mem_nil
        | fill id b payload filled =>
            simp only [FileState.workInserts] at hcall
            split at hcall
            · exact absurd hcall List.not_mem_nil
            rename_i last hlast
            split at hcall
            · have hcopied : Tail there True ((s.take i).copied b last payload) :=
                htake.copied hlast (hheap.sits b last hlast).filled
                  ((h.targets _ (mem_taken hw) b rfl).imp_right fun hfull => hfull last hlast)
                  ((hkeeps _ hw).1 _ rfl)
              exact hcopied.appendInserts (((hheap.taken hw).copied rfl hlast payload).drop rfl)
                call hcall
            · exact absurd hcall List.not_mem_nil
        | _ => exact absurd hcall List.not_mem_nil
      · exact absurd hcall List.not_mem_nil
  | _ => exact absurd hcall List.not_mem_nil

/-- In a run in which buffers are put, and left, before `append_pos`, every call of
`tree_insert_buffer` finds its slot empty. -/
theorem slotsFree_of_runs {bs : Blobstore} {start s : FileState} {e : FileEvent × Answer}
    (hinitial : start.Initial bs) (hrun : Runs (FileSteps bs) KeepsSlots start s)
    (hkeeps : KeepsSlots s e) : SlotsFree s e := by
  have hinv : Heap False s ∧ Tail False True s := by
    refine Runs.keeps (P := fun s => Heap False s ∧ Tail False True s) hrun
      ⟨Heap.initial hinitial, Tail.initial hinitial⟩ fun h hkeeps hstep => ?_
    exact ⟨h.1.step False.elim hstep,
      h.2.step h.1 hkeeps.1 False.elim (fun _ => hkeeps.2) hstep⟩
  exact hinv.2.slotsFree hinv.1 hkeeps.1

/-- A file is made longer, and a byte is appended before a read comes near the end. -/
def growsFile : List (FileEvent × Answer) :=
  [(.truncate (2 ^ 20), success), (.complete 0, success), (.complete 0, success),
    (.complete 0, success), (.read 0 1, success), (.write (2 ^ 19) [7], success)]

theorem slotsFree_of_runs_growsFile : ∃ s : FileState, s.inserts (.complete 1, success) ≠ [] ∧
    SlotsFree s (.complete 1, success) := by
  have hrun : growsFile.foldlM (fun s e =>
      if KeepsSlots s e then s.step oneMegabyte e.2 e.1 else .error .noEvent)
      loadedUnits = .ok _ := rfl
  exact ⟨_, by exact List.cons_ne_nil _ _,
    slotsFree_of_runs loadedUnits_initial (Runs.of_events hrun) (by decide)⟩

/-- A file is made longer, and what is past `append_pos` is read ahead. -/
def readsAhead : List (FileEvent × Answer) :=
  [(.truncate (2 ^ 20), success), (.complete 0, success), (.complete 0, success),
    (.complete 0, success), (.read (2 ^ 18) (2 ^ 17), success), (.write (2 ^ 19) [7], success)]

/-- An append at `append_pos` finds the buffer of the readahead in its slot. -/
theorem slotsFree_readsAhead : ¬ ∀ (bs : Blobstore) (start s : FileState)
    (e : FileEvent × Answer), start.Initial bs →
    Runs (FileSteps bs) (fun _ _ => True) start s → SlotsFree s e := by
  intro hall
  have hrun : readsAhead.foldlM (fun s e =>
      if True then s.step oneMegabyte e.2 e.1 else .error .noEvent) loadedUnits = .ok _ := rfl
  have hfree := hall oneMegabyte loadedUnits _ (.complete 3, success) loadedUnits_initial
    (Runs.of_events hrun)
  cases hfree _ List.mem_cons_self

end Nbfs.Cache
