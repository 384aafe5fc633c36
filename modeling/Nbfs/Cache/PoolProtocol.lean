import Nbfs.Cache.Pool

set_option autoImplicit false

/-!
# Who is on `g_caches`

Once the messages about a file are delivered, the list says whether its tree is
empty.  A reclaim, and a `file_free` of an empty tree, act on the list and on the
file at once, ahead of messages that are still under way.
-/

namespace Nbfs.Cache

open Nbfs.Lib

/-- A reclaim that empties a tree, and a `file_free` of an empty tree, find no message
about the file undelivered. -/
def NothingUndelivered (s : Pool) : PoolEvent → Prop
  | .reclaim r locked => locked = false → ∀ f, s.files r = some f → f.cache.isEmpty = false →
      f.treeFreeBuffers.cache.isEmpty = true → ∀ m ∈ s.messages, m.file ≠ r
  | .free r => ∀ f, s.files r = some f → f.cache.isEmpty = true → ∀ m ∈ s.messages, m.file ≠ r
  | _ => True

/-- The step inserts no file that is on the list and removes none that is not; a file that
was freed is neither on the list nor named by a message. -/
structure ListProtocol (s : Pool) (e : PoolEvent) : Prop where
  inserted : s.step e ≠ .error .listedTwice
  removed : s.step e ≠ .error .notListed
  freed : ∀ r, s.files r = none → r ∉ s.gCaches ∧ ∀ m ∈ s.messages, m.file ≠ r

/-- Every tree is empty, and nothing is on the list or under way. -/
structure PoolInitial (s : Pool) : Prop where
  empty : ∀ r f, s.files r = some f → f.cache.isEmpty = true
  gCaches : s.gCaches = []
  messages : s.messages = []

/-- The messages about a file, oldest first. -/
def Pool.mine (s : Pool) (r : FileRef) : List MsgFn :=
  (s.messages.filter fun m => decide (m.file = r)).map Msg.fn

/-- Whether a file is on the list once its messages are delivered, if each of them finds
the list as it should be. -/
def settle : Bool → List MsgFn → Option Bool
  | on, [] => some on
  | false, .addFileToCachePool :: rest => settle true rest
  | true, .removeFileFromCachePool :: rest => settle false rest
  | true, [.fileFree] => some false
  | _, _ => none

theorem settle_append {later : List MsgFn} : ∀ {earlier : List MsgFn} {on last : Bool},
    settle on earlier = some last → .fileFree ∉ earlier →
      settle on (earlier ++ later) = settle last later
  | [], on, last, h, _ => by
      obtain rfl : on = last := Option.some.inj h
      rfl
  | fn :: rest, on, last, h, hfree => by
      have hrest : .fileFree ∉ rest := fun hmem => hfree (List.mem_cons_of_mem _ hmem)
      cases fn with
      | addFileToCachePool =>
          cases on with
          | false =>
              have hrest' : settle true rest = some last := h
              simpa [settle] using settle_append hrest' hrest
          | true => cases h
      | removeFileFromCachePool =>
          cases on with
          | false => cases h
          | true =>
              have hrest' : settle false rest = some last := h
              simpa [settle] using settle_append hrest' hrest
      | fileFree => exact absurd List.mem_cons_self hfree

/-- The invariant. -/
structure Listed (s : Pool) : Prop where
  nodup : s.gCaches.Nodup
  file : ∀ r f, s.files r = some f →
    settle (decide (r ∈ s.gCaches)) (s.mine r) = some (!f.cache.isEmpty)
  freed : ∀ r, s.files r = none → r ∉ s.gCaches ∧ s.mine r = []

namespace Listed

variable {s s' : Pool} {r : FileRef} {f : CachedFile}

theorem initial (h : PoolInitial s) : Listed s := by
  have hmine : ∀ r, s.mine r = [] := by
    intro r
    simp [Pool.mine, h.messages]
  refine ⟨by simp [h.gCaches], fun r f hf => ?_, fun r _ => ⟨by simp [h.gCaches], hmine r⟩⟩
  simp [hmine, h.gCaches, settle, h.empty r f hf]

theorem mine_nil_iff : s.mine r = [] ↔ ∀ m ∈ s.messages, m.file ≠ r := by
  simp [Pool.mine, List.filter_eq_nil_iff]

theorem mine_sendMsg (fn : MsgFn) (r r' : FileRef) :
    (s.sendMsg fn r).mine r' = s.mine r' ++ if r' = r then [fn] else [] := by
  unfold Pool.mine Pool.sendMsg
  rw [List.filter_append, List.map_append]
  by_cases hr : r' = r
  · simp [hr]
  · simp [hr, Ne.symm hr]

/-- A file that is not leaving has no message to free it. -/
theorem not_free (h : s.leaving r = false) : .fileFree ∉ s.mine r := by
  unfold Pool.mine
  intro hmem
  obtain ⟨m, hm, hfn⟩ := List.mem_map.mp hmem
  obtain ⟨hin, hfile⟩ := List.mem_filter.mp hm
  have hnot := List.any_eq_false.mp h m hin
  simp [hfn, of_decide_eq_true hfile] at hnot

/-- A step about one file leaves the others as they are. -/
theorem replace (h : Listed s) (hfiles : ∀ r', r' ≠ r → s'.files r' = s.files r')
    (hlist : ∀ r', r' ≠ r → (r' ∈ s'.gCaches ↔ r' ∈ s.gCaches))
    (hmine : ∀ r', r' ≠ r → s'.mine r' = s.mine r') (hnodup : s'.gCaches.Nodup)
    (hfile : ∀ f, s'.files r = some f →
      settle (decide (r ∈ s'.gCaches)) (s'.mine r) = some (!f.cache.isEmpty))
    (hfreed : s'.files r = none → r ∉ s'.gCaches ∧ s'.mine r = []) : Listed s' := by
  refine ⟨hnodup, fun r' f hf => ?_, fun r' hr' => ?_⟩
  · by_cases heq : r' = r
    · subst heq
      exact hfile f hf
    · rw [hmine r' heq, decide_eq_decide.mpr (hlist r' heq)]
      exact h.file r' f (hfiles r' heq ▸ hf)
  · by_cases heq : r' = r
    · subst heq
      exact hfreed hr'
    · rw [hmine r' heq, hlist r' heq]
      exact h.freed r' (hfiles r' heq ▸ hr')

/-- A file gets other data and a message, if its tree became empty or is no longer. -/
theorem setFile (h : Listed s) (hf : s.files r = some f) {f' : CachedFile}
    (hempty : f'.cache.isEmpty = f.cache.isEmpty) : Listed (s.setFile r f') := by
  refine h.replace (r := r) (fun _ => Pool.setFile_files_ne f') (fun _ _ => Iff.rfl)
    (fun _ _ => rfl) h.nodup (fun g hg => ?_) (fun hnone => ?_)
  · rw [Pool.setFile_files_self, Option.some.injEq] at hg
    rw [← hg, hempty]
    exact h.file r f hf
  · rw [Pool.setFile_files_self] at hnone
    cases hnone

theorem setFile_sendMsg (h : Listed s) (hf : s.files r = some f) (hleaving : s.leaving r = false)
    {f' : CachedFile} {fn : MsgFn}
    (hsettle : settle (!f.cache.isEmpty) [fn] = some (!f'.cache.isEmpty)) :
    Listed ((s.setFile r f').sendMsg fn r) := by
  have hsame : ∀ r', (s.setFile r f').mine r' = s.mine r' := fun _ => rfl
  refine h.replace (r := r) (fun _ => Pool.setFile_files_ne f') (fun _ _ => Iff.rfl)
    (fun r' hr' => ?_) h.nodup (fun g hg => ?_) (fun hnone => ?_)
  · rw [mine_sendMsg, if_neg hr', List.append_nil, hsame]
  · have hg' := (Pool.setFile_files_self s r f').symm.trans hg
    rw [mine_sendMsg, if_pos rfl, hsame, ← Option.some.inj hg', ← hsettle]
    exact settle_append (h.file r f hf) (not_free hleaving)
  · cases (Pool.setFile_files_self s r f').symm.trans hnone

/-- `cache_insert_buffer` fills the tree. -/
theorem isEmpty_insert {f' : CachedFile} {b : BufRef} {offset : Nat}
    (hinsert : f.cacheInsertBuffer b offset = .ok f') : f'.cache.isEmpty = false := by
  unfold CachedFile.cacheInsertBuffer at hinsert
  split at hinsert
  · cases hinsert
  split at hinsert
  · cases hinsert
  · obtain rfl := Except.ok.inj hinsert
    rfl

theorem cacheInsertBuffer (h : Listed s) (hleaving : s.leaving r = false) {alloc : Option BufRef}
    {offset : Nat} (hinsert : s.cacheInsertBuffer r alloc offset = .ok s') : Listed s' := by
  obtain ⟨f, hf, hrest⟩ := bind_ok.mp hinsert
  rw [Pool.file_ok] at hf
  cases alloc with
  | none =>
      obtain rfl := Except.ok.inj hrest
      exact h
  | some b =>
      obtain ⟨f', hf', hrest⟩ := bind_ok.mp hrest
      have hfull := isEmpty_insert hf'
      by_cases hempty : f.cache.isEmpty = true
      · rw [if_pos hempty] at hrest
        obtain rfl := Except.ok.inj hrest
        exact h.setFile_sendMsg hf hleaving (by simp [hempty, hfull, settle])
      · rw [if_neg hempty] at hrest
        obtain rfl := Except.ok.inj hrest
        exact h.setFile hf (by simpa [hfull] using hempty)

theorem readToEnd (h : Listed s) (hf : s.files r = some f) (hleaving : s.leaving r = false)
    {b : BufRef} (hb : b ∈ f.cache.refs) (hread : s.readToEnd r b = .ok s') : Listed s' := by
  obtain ⟨f', hf', hrest⟩ := bind_ok.mp hread
  obtain rfl := Option.some.inj (hf.symm.trans (Pool.file_ok.mp hf'))
  have hfull : f.cache.isEmpty = false := by
    rw [Present.isEmpty, List.isEmpty_eq_false_iff]
    exact List.ne_nil_of_mem hb
  dsimp only at hrest
  by_cases hempty : (f.treeRemoveBuffer b).cache.isEmpty = true
  · rw [if_pos hempty] at hrest
    obtain rfl := Except.ok.inj hrest
    exact h.setFile_sendMsg hf hleaving (by simp [hempty, hfull, settle])
  · rw [if_neg hempty] at hrest
    obtain rfl := Except.ok.inj hrest
    exact h.setFile hf (by simpa [hfull] using hempty)

/-- A file that is emptied by a reclaim has no messages under way, and leaves the list; any
other stays on it. -/
theorem reclaimCacheBuffers (h : Listed s) {locked : Bool} {rc : Int}
    (hquiet : NothingUndelivered s (.reclaim r locked))
    (hreclaim : s.reclaimCacheBuffers r locked = .ok (s', rc)) : Listed s' := by
  obtain ⟨f, hf, ⟨-, rfl⟩ | ⟨-, hlocked, hfull, hin, f', hcache, hfiles, hmessages, hlist⟩⟩ :=
    Pool.reclaimCacheBuffers_ok hreclaim
  · exact h
  have hmine : ∀ r', s'.mine r' = s.mine r' := by
    intro r'
    rw [Pool.mine, hmessages]
    rfl
  have hself : r ∈ s'.gCaches ↔ f'.cache.isEmpty = false := by
    rw [hlist, List.mem_append]
    by_cases hempty : f'.cache.isEmpty = true
    · simp [hempty, h.nodup.not_mem_erase]
    · simp [hempty]
  refine h.replace (r := r) (fun r' hr' => ?_) (fun r' hr' => ?_) (fun r' _ => hmine r') ?_
    (fun g hg => ?_) (fun hfree => ?_)
  · rw [hfiles, Pool.setFile_files_ne f' hr']
  · rw [hlist, List.mem_append, List.mem_erase_of_ne hr']
    refine or_iff_left fun hmem => ?_
    split at hmem
    · cases hmem
    · exact hr' (List.mem_singleton.mp hmem)
  · rw [hlist]
    split
    · rw [List.append_nil]
      exact h.nodup.erase r
    · rw [List.nodup_append]
      refine ⟨h.nodup.erase r, List.nodup_singleton r, fun a ha b hb => ?_⟩
      obtain rfl := List.mem_singleton.mp hb
      rintro rfl
      exact h.nodup.not_mem_erase ha
  · rw [hfiles, Pool.setFile_files_self, Option.some.injEq] at hg
    subst hg
    rw [hmine]
    cases hempty : f'.cache.isEmpty with
    | true =>
        have hnone : s.mine r = [] :=
          mine_nil_iff.mpr (hquiet hlocked f hf hfull (hcache ▸ hempty))
        simp [hnone, settle, hself, hempty]
    | false =>
        have hold := h.file r f hf
        rw [hfull] at hold
        simpa [hself, hempty, hin] using hold
  · rw [hfiles, Pool.setFile_files_self] at hfree
    cases hfree

/-- An empty tree is freed with its file, of which nothing is under way; else the file
waits for its last message. -/
theorem fileFree (h : Listed s) (hquiet : NothingUndelivered s (.free r))
    (hleaving : s.leaving r = false) (hfree : s.fileFree r = .ok s') : Listed s' := by
  obtain ⟨f, hf, hrest⟩ := bind_ok.mp hfree
  rw [Pool.file_ok] at hf
  by_cases hempty : f.cache.isEmpty = true
  · rw [if_pos hempty] at hrest
    obtain rfl := Except.ok.inj hrest
    have hnone : s.mine r = [] := mine_nil_iff.mpr (hquiet f hf hempty)
    have hout : r ∉ s.gCaches := by
      have hsettle := h.file r f hf
      rw [hnone, settle, hempty] at hsettle
      simpa using hsettle
    refine h.replace (r := r) (fun r' hr' => Function.update_of_ne hr' _ _) (fun _ _ => Iff.rfl)
      (fun _ _ => rfl) h.nodup (fun g hg => ?_) fun _ => ⟨hout, hnone⟩
    cases (Function.update_self r none s.files).symm.trans hg
  · rw [if_neg hempty] at hrest
    dsimp only at hrest
    by_cases hfreed : f.treeFreeBuffers.cache.isEmpty = true
    · rw [if_pos hfreed] at hrest
      obtain rfl := Except.ok.inj hrest
      exact h.setFile_sendMsg hf hleaving (by simp [hempty, hfreed, settle])
    · rw [if_neg hfreed] at hrest
      cases hrest

theorem alloc (h : Listed s) (hnone : s.files r = none) (hempty : f.cache.isEmpty = true) :
    Listed (s.setFile r f) := by
  obtain ⟨hout, hmine⟩ := h.freed r hnone
  refine h.replace (r := r) (fun _ => Pool.setFile_files_ne f) (fun _ _ => Iff.rfl)
    (fun _ _ => rfl) h.nodup (fun g hg => ?_) fun hfree => ?_
  · rw [Pool.setFile_files_self, Option.some.injEq] at hg
    subst hg
    change settle (decide (r ∈ s.gCaches)) (s.mine r) = _
    rw [hmine, hempty, settle]
    simpa using hout
  · cases (Pool.setFile_files_self s r f).symm.trans hfree

/-- The messages about a file, before and after the oldest one is delivered. -/
theorem mine_deliver {m : Msg} {messages : List Msg} (hm : s.messages = m :: messages)
    (r : FileRef) :
    s.mine r = (if r = m.file then [m.fn] else []) ++ Pool.mine { s with messages } r := by
  unfold Pool.mine
  rw [hm, List.filter_cons]
  by_cases hr : r = m.file
  · simp [hr]
  · simp [hr, Ne.symm hr]

/-- The oldest message finds its file, on the list or not as the message expects. -/
theorem oldest (h : Listed s) {m : Msg} {messages : List Msg} (hm : s.messages = m :: messages) :
    ∃ f, s.files m.file = some f ∧ settle (decide (m.file ∈ s.gCaches))
      (m.fn :: Pool.mine { s with messages } m.file) = some (!f.cache.isEmpty) := by
  have hmine := mine_deliver hm m.file
  rw [if_pos rfl] at hmine
  cases hf : s.files m.file with
  | none =>
      obtain ⟨-, hnil⟩ := h.freed m.file hf
      cases hmine.symm.trans hnil
  | some f =>
      have hsettle := h.file m.file f hf
      rw [hmine] at hsettle
      exact ⟨f, rfl, hsettle⟩

theorem deliver (h : Listed s) {m : Msg} {messages : List Msg} (hm : s.messages = m :: messages)
    (hcall : Pool.call { s with messages } m.file m.fn = .ok s') : Listed s' := by
  obtain ⟨f, hf, hsettle⟩ := h.oldest hm
  have hother : ∀ r', r' ≠ m.file → Pool.mine { s with messages } r' = s.mine r' := by
    intro r' hr'
    rw [mine_deliver hm, if_neg hr', List.nil_append]
  cases hfn : m.fn with
  | addFileToCachePool =>
      rw [hfn] at hcall hsettle
      obtain ⟨-, -, hinsert⟩ := bind_ok.mp hcall
      unfold Pool.insertTail at hinsert
      split at hinsert
      · cases hinsert
      rename_i hout
      obtain rfl := Except.ok.inj hinsert
      rw [decide_eq_false hout] at hsettle
      refine h.replace (r := m.file) (fun _ _ => rfl) (fun r' hr' => ?_) hother ?_
        (fun g hg => ?_) fun hfree => nomatch hf.symm.trans hfree
      · simp [hr']
      · exact List.nodup_append.mpr ⟨h.nodup, List.nodup_singleton _, fun a ha b hb => by
          rintro rfl
          exact hout (List.mem_singleton.mp hb ▸ ha)⟩
      · obtain rfl := Option.some.inj (hf.symm.trans hg)
        rw [decide_eq_true (List.mem_append_right _ (List.mem_singleton_self _))]
        exact hsettle
  | removeFileFromCachePool =>
      rw [hfn] at hcall hsettle
      obtain ⟨-, -, hremove⟩ := bind_ok.mp hcall
      unfold Pool.remove at hremove
      split at hremove
      · rename_i hin
        obtain rfl := Except.ok.inj hremove
        rw [decide_eq_true hin] at hsettle
        refine h.replace (r := m.file) (fun _ _ => rfl)
          (fun r' hr' => List.mem_erase_of_ne hr') hother (h.nodup.erase _)
          (fun g hg => ?_) fun hfree => nomatch hf.symm.trans hfree
        obtain rfl := Option.some.inj (hf.symm.trans hg)
        rw [decide_eq_false h.nodup.not_mem_erase]
        exact hsettle
      · cases hremove
  | fileFree =>
      rw [hfn] at hcall hsettle
      obtain ⟨-, -, hcall⟩ := bind_ok.mp hcall
      obtain ⟨s₁, hremove, hcall⟩ := bind_ok.mp hcall
      obtain rfl := Except.ok.inj hcall
      unfold Pool.remove at hremove
      split at hremove
      · rename_i hin
        obtain rfl := Except.ok.inj hremove
        rw [decide_eq_true hin] at hsettle
        have hlast : Pool.mine { s with messages } m.file = [] := by
          cases hrest : Pool.mine { s with messages } m.file with
          | nil => rfl
          | cons fn later =>
              rw [hrest] at hsettle
              cases hsettle
        refine h.replace (r := m.file) (fun r' hr' => Function.update_of_ne hr' _ _)
          (fun r' hr' => List.mem_erase_of_ne hr') hother (h.nodup.erase _)
          (fun g hg => ?_) fun _ => ⟨h.nodup.not_mem_erase, hlast⟩
        cases (Function.update_self m.file none s.files).symm.trans hg
      · cases hremove

/-- Every step keeps the invariant. -/
theorem step (h : Listed s) {e : PoolEvent} (hok : NothingUndelivered s e)
    (hstep : PoolSteps s e s') : Listed s' := by
  unfold PoolSteps Pool.step at hstep
  cases e with
  | alloc r f =>
      dsimp only at hstep
      split at hstep
      · rename_i hnew
        obtain rfl := Except.ok.inj hstep
        exact h.alloc (Option.isNone_iff_eq_none.mp hnew.1) hnew.2
      · cases hstep
  | insert r alloc offset =>
      dsimp only at hstep
      split at hstep
      · cases hstep
      · rename_i hleaving
        exact h.cacheInsertBuffer (by simpa using hleaving) hstep
  | readToEnd r b =>
      obtain ⟨f, hf, hread⟩ := bind_ok.mp hstep
      split at hread
      · cases hread
      · rename_i hguard
        obtain ⟨hleaving, hb⟩ := not_or.mp hguard
        exact h.readToEnd (Pool.file_ok.mp hf) (by simpa using hleaving) (not_not.mp hb) hread
  | store r f =>
      obtain ⟨old, hold, hstore⟩ := bind_ok.mp hstep
      split at hstore
      · rename_i hrefs
        obtain rfl := Except.ok.inj hstore
        exact h.setFile (Pool.file_ok.mp hold) (congrArg List.isEmpty hrefs)
      · cases hstore
  | reclaim r locked =>
      dsimp only at hstep
      split at hstep
      · obtain ⟨⟨s₁, rc⟩, hreclaim, hrest⟩ := bind_ok.mp hstep
        obtain rfl := Except.ok.inj hrest
        exact h.reclaimCacheBuffers hok hreclaim
      · cases hstep
  | free r =>
      dsimp only at hstep
      split at hstep
      · cases hstep
      · rename_i hleaving
        exact h.fileFree hok (by simpa using hleaving) hstep
  | deliver =>
      dsimp only at hstep
      split at hstep
      · cases hstep
      · rename_i m messages hm
        exact h.deliver hm hstep

/-! ### No edit fails -/

/-- The list was not edited against its order. -/
def Edits {α : Type} (x : Except Fault α) : Prop := x ≠ .error .listedTwice ∧ x ≠ .error .notListed

theorem Edits.ok {α : Type} (a : α) : Edits (.ok a) := ⟨nofun, nofun⟩

theorem Edits.bind {α β : Type} {x : Except Fault α} {k : α → Except Fault β} (hx : Edits x)
    (hk : ∀ a, x = .ok a → Edits (k a)) : Edits (x >>= k) :=
  ⟨bind_ne hx.1 fun a ha => (hk a ha).1, bind_ne hx.2 fun a ha => (hk a ha).2⟩

theorem edits_file (s : Pool) (r : FileRef) : Edits (s.file r) := by
  unfold Pool.file
  split
  · exact Edits.ok _
  · exact ⟨nofun, nofun⟩

theorem edits_insertTail (h : r ∉ s.gCaches) : Edits (s.insertTail r) := by
  rw [Pool.insertTail, if_neg h]
  exact Edits.ok _

theorem edits_remove (h : r ∈ s.gCaches) : Edits (s.remove r) := by
  rw [Pool.remove, if_pos h]
  exact Edits.ok _

theorem edits_cacheInsertBuffer (alloc : Option BufRef) (offset : Nat) :
    Edits (s.cacheInsertBuffer r alloc offset) := by
  refine (edits_file s r).bind fun f _ => ?_
  cases alloc with
  | none => exact Edits.ok _
  | some b =>
      refine Edits.bind ?_ fun f' _ => ?_
      · unfold CachedFile.cacheInsertBuffer
        split
        · exact ⟨nofun, nofun⟩
        split
        · exact ⟨nofun, nofun⟩
        · exact Edits.ok _
      · split
        · exact Edits.ok _
        · exact Edits.ok _

/-- The file that the poller came to is taken off the list before it is put at its end. -/
theorem edits_reclaimCacheBuffers (hnodup : s.gCaches.Nodup) (hlisted : r ∈ s.gCaches)
    (locked : Bool) : Edits (s.reclaimCacheBuffers r locked) := by
  refine (edits_file s r).bind fun f _ => ?_
  split
  · exact Edits.ok _
  split
  · exact Edits.ok _
  refine (edits_remove (s := s.setFile r _) hlisted).bind fun s₁ hremove => ?_
  split
  · exact Edits.ok _
  · refine (edits_insertTail ?_).bind fun _ _ => Edits.ok _
    have hs₁ := hremove.symm.trans (if_pos hlisted)
    obtain rfl := Except.ok.inj hs₁
    exact hnodup.not_mem_erase

/-- A message that is delivered finds its file on the list, or not, as it expects. -/
theorem edits_call (h : Listed s) {m : Msg} {messages : List Msg}
    (hm : s.messages = m :: messages) : Edits (Pool.call { s with messages } m.file m.fn) := by
  obtain ⟨f, -, hsettle⟩ := h.oldest hm
  cases hfn : m.fn with
  | addFileToCachePool =>
      refine (edits_file _ _).bind fun _ _ => edits_insertTail fun hin => ?_
      rw [hfn, decide_eq_true hin] at hsettle
      cases hsettle
  | removeFileFromCachePool =>
      refine (edits_file _ _).bind fun _ _ => edits_remove ?_
      by_contra hout
      rw [hfn, decide_eq_false hout] at hsettle
      cases hsettle
  | fileFree =>
      refine (edits_file _ _).bind fun _ _ => (edits_remove ?_).bind fun _ _ => Edits.ok _
      by_contra hout
      rw [hfn, decide_eq_false hout] at hsettle
      cases hrest : Pool.mine { s with messages } m.file with
      | nil => cases hrest ▸ hsettle
      | cons fn later => cases hrest ▸ hsettle

theorem edits_step (h : Listed s) (e : PoolEvent) : Edits (s.step e) := by
  have hno : ∀ {α : Type}, Edits (.error .noEvent : Except Fault α) := ⟨nofun, nofun⟩
  unfold Pool.step
  cases e with
  | alloc r f =>
      dsimp only
      split
      · exact Edits.ok _
      · exact hno
  | insert r alloc offset =>
      dsimp only
      split
      · exact hno
      · exact edits_cacheInsertBuffer alloc offset
  | readToEnd r b =>
      refine (edits_file s r).bind fun f _ => ?_
      split
      · exact hno
      · refine (edits_file s r).bind fun _ _ => ?_
        dsimp only
        split
        · exact Edits.ok _
        · exact Edits.ok _
  | store r f =>
      refine (edits_file s r).bind fun _ _ => ?_
      split
      · exact Edits.ok _
      · exact hno
  | reclaim r locked =>
      dsimp only
      split
      · rename_i hlisted
        exact (edits_reclaimCacheBuffers h.nodup hlisted locked).bind fun _ _ => Edits.ok _
      · exact hno
  | free r =>
      dsimp only
      split
      · exact hno
      · refine (edits_file s r).bind fun f _ => ?_
        split
        · exact Edits.ok _
        dsimp only
        split
        · exact Edits.ok _
        · exact ⟨nofun, nofun⟩
  | deliver =>
      dsimp only
      split
      · exact hno
      · rename_i m messages hm
        exact h.edits_call hm

end Listed

/-- In every run that begins with empty trees, and in which no reclaim empties a tree and
no file with an empty tree is freed ahead of messages about it, the list is edited as its
protocol asks. -/
theorem listProtocol_of_runs {s₀ s : Pool} (e : PoolEvent) (h₀ : PoolInitial s₀)
    (hrun : Runs PoolSteps NothingUndelivered s₀ s) : ListProtocol s e := by
  have hlisted : Listed s := hrun.keeps (Listed.initial h₀) fun h hok hstep => h.step hok hstep
  obtain ⟨hinserted, hremoved⟩ := hlisted.edits_step e
  refine ⟨hinserted, hremoved, fun r hr => ?_⟩
  obtain ⟨hout, hmine⟩ := hlisted.freed r hr
  exact ⟨hout, Listed.mine_nil_iff.mp hmine⟩

/-- A file that is read, with nothing cached yet. -/
def readFile : CachedFile where
  length := 2 * cacheBufferSize
  openForWriting := false
  lengthFlushed := 2 * cacheBufferSize
  lengthXattr := 2 * cacheBufferSize
  appendPos := 2 * cacheBufferSize
  seqByteCount := cacheBufferSize
  nextSeqOffset := cacheBufferSize
  lowPriority := false
  last := none
  cache := ⟨[], fun _ => none⟩
  syncRequests := []

def onePool : Pool := Pool.setFile ⟨fun _ => none, [], []⟩ 0 readFile

theorem onePool_initial : PoolInitial onePool := by
  refine ⟨fun r f hf => ?_, rfl, rfl⟩
  by_cases hr : r = 0
  · subst hr
    obtain rfl : readFile = f := Option.some.inj hf
    rfl
  · have hnone : onePool.files r = none := Pool.setFile_files_ne readFile hr
    cases hnone.symm.trans hf

/-- The first unit is read ahead and its file is put on the list. -/
theorem listProtocol_of_runs_read : ∃ s, Runs PoolSteps NothingUndelivered onePool s ∧
    s.gCaches = [0] ∧ ListProtocol s (.reclaim 0 false) := by
  have hinsert : Runs PoolSteps NothingUndelivered onePool _ :=
    .one (e := PoolEvent.insert 0 (some 0) 0) trivial rfl
  have hrun := hinsert.tail (e := PoolEvent.deliver) trivial rfl
  exact ⟨_, hrun, rfl, listProtocol_of_runs (.reclaim 0 false) onePool_initial hrun⟩

/-- The first unit is read to its end, and the second read ahead, before the list is told;
then the file is reclaimed and taken off the list, and then taken off once more. -/
theorem listProtocol_reclaimed : ¬ ∀ s₀ s e, PoolInitial s₀ →
    Runs PoolSteps (fun _ _ => True) s₀ s → ListProtocol s e := by
  intro hall
  have hinsert : Runs PoolSteps (fun _ _ => True) onePool _ :=
    .one (e := PoolEvent.insert 0 (some 0) 0) trivial rfl
  have hlisted := hinsert.tail (e := PoolEvent.deliver) trivial rfl
  have hread := hlisted.tail (e := PoolEvent.readToEnd 0 0) trivial rfl
  have hahead := hread.tail (e := PoolEvent.insert 0 (some 1) cacheBufferSize) trivial rfl
  have hreclaim := hahead.tail (e := PoolEvent.reclaim 0 false) trivial rfl
  exact (hall _ _ .deliver onePool_initial hreclaim).removed rfl

end Nbfs.Cache
