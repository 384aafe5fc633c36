import Nbfs.Calls.Clients
import Nbfs.Lib.Runs
import Mathlib.Algebra.BigOperators.Group.List.Basic
import Mathlib.Algebra.Group.Int.Defs

set_option autoImplicit false

/-!
# The semaphore of a client (`lib/NBFS/NBFS.c`)

The messages of a synchronous call post the semaphore of its thread context, and the call
waits on it.  Other threads work for the client while it goes on, in any order.
-/

namespace Nbfs.Calls

open Nbfs.Lib Conv
open Nbfs.Fs (FileRef enomem)
open Nbfs.Cache (BufRef cacheBufferSize)

/-- A job that was begun, and how often it has called `sem_post`. -/
structure Started where
  rest : Job
  posted : Nat

/-- A thread context with its semaphore. -/
structure Context where
  sem : Nat
  /-- The rest of the call. -/
  client : Client Int
  jobs : List Started
  /-- The calls of `sem_post` and `sem_wait`. -/
  posts : Nat
  waits : Nat
  /-- How often `__send_rw_from_file` had no request. -/
  refused : Nat

/-- The synchronous calls. -/
inductive SyncCall where
  | write (rounds : Nat) (file : FileRef) (offset length : UInt64)
  | read (rounds : Nat) (file : FileRef) (offset length : UInt64)
  | sync (file : FileRef)
  | close (file : FileRef)
  | truncate (file : FileRef) (length : UInt64)
  | stat (name : CString)
  | create (name : CString)
  | open (name : CString) (flags : Bool)
  | rename (oldName newName : CString)
  | delete (name : CString)

def SyncCall.run : SyncCall → Client Int
  | write rounds file offset length => spdkFileWrite rounds file offset length
  | read rounds file offset length => spdkFileRead rounds file offset length
  | sync file => spdkFileSync file
  | close file => spdkFileClose file
  | truncate file length => spdkFileTruncate file length
  | stat name => spdkFsFileStat name
  | create name => spdkFsCreateFile name
  | «open» name flags => spdkFsOpenFile name flags
  | rename oldName newName => spdkFsRenameFile oldName newName
  | delete name => spdkFsDeleteFile name

/-- 1 where `__send_rw_from_file` has no request; no other call asks for an `iov`. -/
def refused (iovcnt : Nat) (ok : Bool) : Nat := if iovcnt ≠ 0 ∧ ok = false then 1 else 0

namespace Context

variable (c : Context)

/-- A job is begun where the message has one. -/
def start (job : Option Job) : Context :=
  { c with jobs := c.jobs ++ (job.map fun p => ⟨p, 0⟩).toList }

def post (n : Nat) : Context := { c with sem := c.sem + n, posts := c.posts + n }

def wait : Context := { c with sem := c.sem - 1, waits := c.waits + 1 }

/-- What an action of the client does to the context. -/
def after : (r : Action) → Answer r → Context
  | .send m, _ => c.start m.job
  | .semPost, _ => c.post 1
  | .semWait, _ => c.wait
  | .alloc iovcnt, ok => { c with refused := c.refused + Calls.refused iovcnt ok }
  | _, _ => c

end Context

/-- How often a step of a job calls `sem_post`. -/
def posts : (r : Request) → Response r → Nat
  | .semPost, _ => 1
  | _, _ => 0

/-- Whose turn it is. -/
inductive Turn where
  /-- The client, which is in no call, makes this call. -/
  | call (op : SyncCall)
  | client
  /-- A thread that does a job. -/
  | job (i : Nat)

/-- One step; `sem_wait` comes back when there is something to take. -/
def ContextSteps (c : Context) : Turn → Context → Prop
  | .call op, c' => (∃ rc, c.client = ret rc) ∧ c' = { c with client := op.run }
  | .client, c' => ∃ r k x, c.client = .call r k ∧ (r = .semWait → 0 < c.sem) ∧
      c' = { c.after r x with client := k x }
  | .job i, c' => ∃ j r k x, c.jobs[i]? = some j ∧ j.rest = .call r k ∧
      c' = { c.post (posts r x) with jobs := c.jobs.set i ⟨k x, j.posted + posts r x⟩ }

/-- A thread context before its first call. -/
structure Context.Initial (c : Context) : Prop where
  sem : c.sem = 0
  client : ∃ rc, c.client = ret rc
  jobs : c.jobs = []
  posts : c.posts = 0
  waits : c.waits = 0
  refused : c.refused = 0

/-- There were as many posts as waits, the semaphore is 0, and all the work is done. -/
structure Balanced (c : Context) : Prop where
  posts : c.posts = c.waits
  sem : c.sem = 0
  completed : ∀ j ∈ c.jobs, j.posted = 1

/-! ### A job posts once -/

section jobs

variable {n : Nat}

/-- Whatever is answered, the job posts until it has posted once, and not more often. -/
abbrev Wakes (p : Job) (n : Nat) : Prop :=
  Asks (follows fun n r x => n + posts r x) (fun n r => r = .semPost → n = 0) (fun _ n => n = 1) p n

theorem Wakes.ask {r : Request} {k : Response r → Job} (hr : r ≠ .semPost)
    (hk : ∀ x, Wakes (k x) n) : Wakes (ask r >>= k) n := by
  refine Asks.request_iff.mpr ⟨fun h => absurd h hr, fun x _ h => h ▸ ?_⟩
  cases r <;> first | exact absurd rfl hr | exact hk x

theorem Wakes.ite {c : Prop} [Decidable c] {p q : Job} (hp : c → Wakes p n) (hq : ¬c → Wakes q n) :
    Wakes (if c then p else q) n := by
  split
  · exact hp ‹_›
  · exact hq ‹_›

theorem wakes_wakeCaller (rc : Int) : Wakes (wakeCaller rc) 0 :=
  .ask nofun fun _ => ⟨fun _ => rfl, fun _ _ h => h⟩

variable {cb : Int → Job} (hcb : ∀ rc, Wakes (cb rc) n)

include hcb

theorem wakes_fileStatAsync (name : CString) : Wakes (spdkFsFileStatAsync name cb) n :=
  .ite (fun _ => hcb _) fun _ => .ask nofun fun f => by
    change Option FileRef at f
    cases f <;> exact hcb _

theorem wakes_createBlobCreateCb (f : FileRef) (rc : Int) :
    Wakes (fsCreateBlobCreateCb f cb rc) n := by
  refine .ite (fun _ => hcb _) fun _ => .ask nofun fun x => ?_
  obtain ⟨blob, rc⟩ := x
  refine .ite (fun _ => hcb _) fun _ => ?_
  cases blob with
  | none => trivial
  | some blob =>
      refine .ask nofun fun rc => .ite (fun _ => ?_) fun _ => ?_
      · exact .ask nofun fun _ => hcb _
      · exact .ask nofun fun _ => .ask nofun fun _ => .ask nofun fun _ => .ask nofun fun _ => hcb _

theorem wakes_createFileAsync (name : CString) : Wakes (spdkFsCreateFileAsync name cb) n := by
  refine .ite (fun _ => hcb _) fun _ => .ask nofun fun f => ?_
  change Option FileRef at f
  cases f with
  | some _ => exact hcb _
  | none =>
      refine .ask nofun fun file => ?_
      change Option FileRef at file
      cases file with
      | none => exact hcb _
      | some file =>
          exact .ask nofun fun _ => .ite (fun _ => hcb _) fun _ => .ask nofun fun _ =>
            .ask nofun fun rc => wakes_createBlobCreateCb hcb file rc

theorem wakes_openFile (file : FileRef) : Wakes (openFile file cb) n := by
  refine .ask nofun fun _ => .ask nofun fun _ => .ite (fun _ => ?_) fun _ => ?_
  · refine .ask nofun fun blob => ?_
    change Option Fs.BlobRef at blob
    cases blob with
    | some _ => trivial
    | none => exact .ask nofun fun _ => .ask nofun fun _ => hcb _
  · refine .ask nofun fun blob => ?_
    change Option Fs.BlobRef at blob
    cases blob with
    | some _ => exact hcb _
    | none => exact .ask nofun fun _ => hcb _

theorem wakes_openBlobCreateCb (file : Option FileRef) (name : CString) (rc : Int) :
    Wakes (fsOpenBlobCreateCb file name cb rc) n := by
  cases file with
  | some file => exact wakes_openFile hcb file
  | none =>
      refine .ask nofun fun file => ?_
      change Option FileRef at file
      cases file with
      | none => trivial
      | some file => exact wakes_openFile hcb file

theorem wakes_openFileAsync (name : CString) (create : Bool) :
    Wakes (spdkFsOpenFileAsync name create cb) n := by
  refine .ite (fun _ => hcb _) fun _ => .ask nofun fun f => ?_
  change Option FileRef at f
  cases f with
  | none =>
      exact .ite (fun _ => hcb _) fun _ => .ask nofun fun _ => .ite (fun _ => hcb _) fun _ =>
        wakes_createFileAsync (wakes_openBlobCreateCb hcb none name) name
  | some file =>
      exact .ask nofun fun _ => .ite (fun _ => hcb _) fun _ => .ask nofun fun _ =>
        .ite (fun _ => hcb _) fun _ => wakes_openBlobCreateCb hcb (some file) name 0

theorem wakes_deleteFileAsync (name : CString) : Wakes (spdkFsDeleteFileAsync name cb) n := by
  refine .ite (fun _ => hcb _) fun _ => .ask nofun fun f => ?_
  change Option FileRef at f
  cases f with
  | none => exact hcb _
  | some file =>
      refine .ask nofun fun _ => .ite (fun _ => hcb _) fun _ => .ask nofun fun _ =>
        .ite (fun _ => .ask nofun fun _ => .ask nofun fun blob => ?_) fun _ =>
          .ask nofun fun _ => .ite (fun _ => trivial) fun _ => ?_
      · change Option Fs.BlobRef at blob
        cases blob with
        | none => trivial
        | some blob => exact .ask nofun fun _ => .ask nofun fun _ => hcb _
      · exact .ask nofun fun _ => .ask nofun fun _ => .ask nofun fun _ => hcb _

theorem wakes_mdRenameFile (oldName newName : CString) :
    Wakes (fsMdRenameFile oldName newName cb) n := by
  refine .ask nofun fun f => ?_
  change Option FileRef at f
  cases f with
  | none => exact hcb _
  | some file =>
      refine .ask nofun fun _ => .ask nofun fun _ => .ask nofun fun _ => .ask nofun fun _ =>
        .ask nofun fun x => ?_
      obtain ⟨blob, rc⟩ := x
      cases blob with
      | none => trivial
      | some blob => exact .ask nofun fun _ => .ask nofun fun _ => hcb _

theorem wakes_renameFileAsync (oldName newName : CString) :
    Wakes (spdkFsRenameFileAsync oldName newName cb) n := by
  refine .ite (fun _ => hcb _) fun _ => .ask nofun fun _ => .ite (fun _ => hcb _) fun _ =>
    .ask nofun fun f => ?_
  change Option FileRef at f
  have hrename := wakes_mdRenameFile hcb oldName newName
  cases f with
  | none => exact hrename
  | some _ => exact wakes_deleteFileAsync (fun _ => hrename) newName

theorem wakes_closeAsyncDone (file : FileRef) (rc : Int) :
    Wakes (fileCloseAsyncDone file cb rc) n :=
  .ask nofun fun _ => .ite (fun _ => .ask nofun fun name => wakes_deleteFileAsync hcb name)
    fun _ => hcb _

theorem wakes_closeAsync (file : FileRef) : Wakes (fileCloseAsync file cb) n := by
  refine .ask nofun fun _ => .ite (fun _ => wakes_closeAsyncDone hcb file _) fun _ =>
    .ask nofun fun _ => .ite (fun _ => hcb _) fun _ => .ask nofun fun blob =>
      .ask nofun fun _ => ?_
  change Option Fs.BlobRef at blob
  cases blob with
  | none => trivial
  | some blob => exact .ask nofun fun rc => wakes_closeAsyncDone hcb file rc

theorem wakes_truncateAsync (file : FileRef) (length : UInt64) :
    Wakes (spdkFileTruncateAsync file length cb) n :=
  .ask nofun fun _ => .ite (fun _ => hcb _) fun _ => .ask nofun fun _ => .ite (fun _ => hcb _)
    fun _ => .ask nofun fun _ => .ask nofun fun _ => .ite (fun _ => hcb _) fun _ =>
      .ask nofun fun _ => .ask nofun fun _ => hcb _

theorem wakes_doBlobRead (rw : Rw) (rc : Int) : Wakes (doBlobRead rw cb rc) n :=
  .ite (fun _ => hcb _) fun _ => .ask nofun fun _ => .ite (fun _ => hcb _) fun _ =>
    .ask nofun fun _ => hcb _

theorem wakes_readvwritev (file : FileRef) (isRead : Bool) (offset length : UInt64) :
    Wakes (readvwritev file isRead offset length cb) n :=
  .ask nofun fun _ => .ite (fun _ => hcb _) fun _ => .ask nofun fun _ => .ite (fun _ => hcb _)
    fun _ => .ask nofun fun _ => .ask nofun fun _ => .ite (fun _ => hcb _) fun _ =>
      .ask nofun fun _ => .ite (fun _ => wakes_truncateAsync (wakes_doBlobRead hcb _) file _)
        fun _ => .ite (fun _ => .ask nofun fun _ => hcb _) fun _ => wakes_doBlobRead hcb _ 0

theorem wakes_extendBlob (file : FileRef) (numClusters : UInt64) :
    Wakes (fileExtendBlob file numClusters cb) n :=
  .ask nofun fun _ => .ite (fun _ => hcb _) fun _ => .ask nofun fun _ => hcb _

omit hcb

/-- Every message that a client waits for wakes it once. -/
theorem wakes_job {m : Message} {p : Job} (h : m.job = some p) : Wakes p 0 := by
  cases m with
  | fileFlush _ => cases h
  | readahead _ _ _ => cases h
  | fileExtendBlob file numClusters =>
      exact Option.some.inj h ▸ wakes_extendBlob wakes_wakeCaller file numClusters
  | rwFromFile file isRead offset length =>
      exact Option.some.inj h ▸ wakes_readvwritev wakes_wakeCaller file isRead offset length
  | syncRequest file _ => exact Option.some.inj h ▸ .ask nofun fun rc => wakes_wakeCaller rc
  | truncate file length =>
      exact Option.some.inj h ▸ wakes_truncateAsync wakes_wakeCaller file length
  | fileClose file => exact Option.some.inj h ▸ wakes_closeAsync wakes_wakeCaller file
  | fileStat name => exact Option.some.inj h ▸ wakes_fileStatAsync wakes_wakeCaller name
  | fsCreateFile name => exact Option.some.inj h ▸ wakes_createFileAsync wakes_wakeCaller name
  | fsOpenFile name create =>
      exact Option.some.inj h ▸ wakes_openFileAsync wakes_wakeCaller name create
  | fsRenameFile oldName newName =>
      exact Option.some.inj h ▸ wakes_renameFileAsync wakes_wakeCaller oldName newName
  | fsDeleteFile name => exact Option.some.inj h ▸ wakes_deleteFileAsync wakes_wakeCaller name

end jobs

/-! ### A call waits as often as it is woken -/

/-- What an action adds to the posts that the client has still to wait for; where
`__send_rw_from_file` has no request, it should add nothing. -/
def owes : (r : Action) → Answer r → Int
  | .send m, _ => if m.job.isSome then 1 else 0
  | .semPost, _ => 1
  | .semWait, _ => -1
  | .alloc iovcnt, ok => -refused iovcnt ok
  | _, _ => 0

/-- An action that has nothing to do with the semaphore. -/
def Action.isSilent : Action → Bool
  | send _ | semPost | semWait | alloc _ => false
  | _ => true

theorem owes_silent {r : Action} {x : Answer r} (hr : r.isSilent = true) : owes r x = 0 := by
  cases r <;> first | exact absurd hr Bool.false_ne_true | rfl

section clients

variable {α β : Type} {post : α → Int → Prop} {n n' : Int}

/-- Whatever is answered, `post` holds of the result and of the posts still to wait for. -/
abbrev Waits (post : α → Int → Prop) (p : Client α) (n : Int) : Prop :=
  Asks (follows fun n r x => n + owes r x) (fun _ _ => True) post p n

theorem Waits.act {r : Action} {k : Answer r → Client α}
    (hk : ∀ x, Waits post (k x) (n + owes r x)) : Waits post (act r >>= k) n :=
  Asks.request_iff.mpr ⟨trivial, fun x _ h => h ▸ hk x⟩

theorem Waits.silent {r : Action} {k : Answer r → Client α} (hr : r.isSilent = true)
    (hk : ∀ x, Waits post (k x) n) : Waits post (Calls.act r >>= k) n := by
  refine .act fun x => ?_
  rw [owes_silent hr, add_zero]
  exact hk x

/-- `alloc_fs_request`. -/
theorem Waits.alloc {k : Bool → Client α} (hk : ∀ ok, Waits post (k ok) n) :
    Waits post (Calls.act (.alloc 0) >>= k) n :=
  .act fun ok => (add_zero n).symm ▸ hk ok

theorem Waits.send {m : Message} {p : Job} {k : Unit → Client α} (hm : m.job = some p)
    (hk : Waits post (k ()) (n + 1)) : Waits post (Calls.act (.send m) >>= k) n := by
  refine .act fun _ => ?_
  have hone : owes (.send m) () = 1 := if_pos (by rw [hm]; rfl)
  exact hone ▸ hk

theorem Waits.semWait {k : Unit → Client α} (hk : Waits post (k ()) n) :
    Waits post (Calls.act .semWait >>= k) (n + 1) :=
  .act fun _ => (add_neg_cancel_right n 1).symm ▸ hk

theorem Waits.through {Q : β → Int → Prop} {p : Client β} {f : β → Client α} (h : Waits Q p n)
    (hf : ∀ b n', Q b n' → Waits post (f b) n') : Waits post (p >>= f) n :=
  Asks.bind_iff.mpr (h.mono hf)

theorem Waits.bind {p : Client β} {f : β → Client α} (h : Waits (fun _ n => n = n') p n)
    (hf : ∀ b, Waits post (f b) n') : Waits post (p >>= f) n :=
  h.through fun b _ heq => heq ▸ hf b

theorem Waits.ite {c : Prop} [Decidable c] {p q : Client α} (hp : c → Waits post p n)
    (hq : ¬c → Waits post q n) : Waits post (if c then p else q) n := by
  split
  · exact hp ‹_›
  · exact hq ‹_›

theorem waits_when {c : Prop} [Decidable c] {p : Client Unit}
    (h : Waits (fun _ n' => n' = n) p n) : Waits (fun _ n' => n' = n) (when c p) n :=
  .ite (fun _ => h) fun _ => rfl

theorem waits_check {b : Bool} : Waits (fun _ n' => n' = n) (check b) n := by
  cases b
  · trivial
  · exact rfl

theorem waits_silent {r : Action} (hr : r.isSilent = true) :
    Waits (fun _ n' => n' = n) (act r) n := by
  refine ⟨trivial, fun x n' h => h.trans ?_⟩
  exact (congrArg (n + ·) (owes_silent hr)).trans (add_zero n)

/-- A request that is refused posts, and the count of the refused ones takes that back. -/
theorem waits_sendRwFromFile {file : FileRef} {offset length : UInt64} {isRead : Bool} :
    Waits (fun rc n' => n' = if rc = 0 then n + 1 else n)
      (sendRwFromFile file offset length isRead) n := by
  refine .act fun ok => .ite (fun hok => .act fun _ => ?_) fun hok => ?_
  · subst hok
    change n + -1 + 1 = n
    omega
  · have hsome : ok = true := by simpa using hok
    subst hsome
    refine .send rfl ?_
    change n + -0 + 1 = n + 1
    omega

theorem waits_sendAndWait {m : Message} {p : Job} (hm : m.job = some p) :
    Waits (fun _ n => n = 0) (sendAndWait m) 0 :=
  .alloc fun _ => .ite (fun _ => rfl) fun _ => .send hm (.semWait (.silent rfl fun _ =>
    .silent rfl fun _ => rfl))

/-! #### Writing -/

theorem waits_cacheAppendBuffer : Waits (fun _ n' => n' = n) cacheAppendBuffer n := by
  have hlast : Waits (fun _ n' => n' = n) assertLastFull n := by
    refine .silent rfl fun last => ?_
    change Option BufRef at last
    cases last with
    | none => exact rfl
    | some b => exact .silent rfl fun _ => waits_check
  refine .bind hlast fun _ => .silent rfl fun _ => .bind waits_check fun _ => .silent rfl fun _ =>
    .silent rfl fun last => ?_
  change Option BufRef at last
  cases last with
  | none => exact rfl
  | some b => exact .silent rfl fun _ => rfl

theorem waits_fillBuffers {file : FileRef} {rounds : Nat} {last : BufRef} {remLength : UInt64}
    {filled : UInt32} :
    Waits (fun _ n' => n' = n) (fillBuffers file rounds last remLength filled) n := by
  induction rounds generalizing last remLength filled with
  | zero => trivial
  | succ rounds ih =>
      refine .ite (fun _ => ?_) fun _ => .silent rfl fun _ => .ite (fun _ => ?_) fun _ => ?_
      · refine .silent rfl fun _ => .silent rfl fun _ => .silent rfl fun _ => .silent rfl fun _ =>
          .silent rfl fun _ => .silent rfl fun _ => .silent rfl fun _ =>
            .bind (waits_when (waits_silent rfl)) fun _ => .silent rfl fun _ => .silent rfl fun _ =>
              .silent rfl fun _ => .ite (fun _ => ?_) fun _ => ih
        refine .bind waits_cacheAppendBuffer fun last => ?_
        cases last with
        | none => exact .silent rfl fun _ => .silent rfl fun _ => rfl
        | some last => exact ih
      · exact .silent rfl fun _ => rfl
      · refine .act fun _ => ?_
        exact add_zero n

theorem waits_startFill {file : FileRef} {rounds : Nat} {length : UInt64} :
    Waits (fun _ n' => n' = n) (startFill rounds file length) n := by
  refine .alloc fun _ => .ite (fun _ => .silent rfl fun _ => rfl) fun _ => .silent rfl fun last =>
    ?_
  change Option BufRef at last
  cases last with
  | none => trivial
  | some last => exact waits_fillBuffers

theorem waits_writeDirect {file : FileRef} {offset length : UInt64} :
    Waits (fun _ n => n = 0) (writeDirect file offset length) 0 := by
  refine .silent rfl fun _ => .silent rfl fun _ => .silent rfl fun _ =>
    waits_sendRwFromFile.through fun rc n hn => .ite (fun hrc => ?_) fun hrc => ?_
  · exact hn.trans (if_neg hrc)
  · obtain rfl : n = 0 + 1 := hn.trans (if_pos (not_not.mp hrc))
    exact .semWait (waits_silent rfl)

theorem waits_fileWrite (rounds : Nat) (file : FileRef) (offset length : UInt64) :
    Waits (fun _ n => n = 0) (spdkFileWrite rounds file offset length) 0 := by
  have hopen : Waits (fun _ n => n = 0) openLast 0 := .silent rfl fun _ => .silent rfl fun _ =>
    .silent rfl fun _ => waits_when (.bind waits_cacheAppendBuffer fun _ => rfl)
  refine .ite (fun _ => rfl) fun _ => .silent rfl fun _ => .ite (fun _ => rfl) fun _ =>
    .silent rfl fun _ => .bind hopen fun _ => .silent rfl fun _ =>
      .ite (fun _ => waits_writeDirect) fun _ => .silent rfl fun _ => .silent rfl fun _ =>
        .ite (fun _ => ?_) fun _ => waits_startFill
  exact .silent rfl fun _ => .send rfl (.semWait (.silent rfl fun _ => .ite (fun _ => rfl)
    fun _ => waits_startFill))

/-! #### Reading -/

theorem waits_checkReadahead {file : FileRef} {offset : UInt64} :
    Waits (fun _ n' => n' = n) (checkReadahead file offset) n := by
  refine .silent rfl fun _ => .silent rfl fun _ => .ite (fun _ => rfl) fun _ => .alloc fun _ =>
    .ite (fun _ => rfl) fun _ => .silent rfl fun b => ?_
  change Option BufRef at b
  cases b with
  | none => exact waits_silent rfl
  | some b =>
      refine .silent rfl fun _ => .silent rfl fun _ => ?_
      exact ⟨trivial, fun _ _ h => h.trans (add_zero n)⟩

theorem waits_readLoop {file : FileRef} {finalOffset : UInt64} {rounds : Nat}
    {offset finalLength : UInt64} (subReads : Nat) :
    Waits (fun x n => n = x.2) (readLoop file finalOffset rounds offset finalLength subReads)
      subReads := by
  induction rounds generalizing offset finalLength subReads with
  | zero => trivial
  | succ rounds ih =>
      refine .ite (fun _ => .silent rfl fun buf => ?_) fun _ => rfl
      change Option BufRef at buf
      cases buf with
      | none =>
          refine .silent rfl fun _ => waits_sendRwFromFile.through fun rc n hn =>
            .silent rfl fun _ => .ite (fun hrc => ?_) fun hrc => ?_
          · obtain rfl : n = subReads + 1 := hn.trans (if_pos hrc)
            exact ih (subReads + 1)
          · obtain rfl : n = subReads := hn.trans (if_neg hrc)
            exact .silent rfl fun _ => rfl
      | some b =>
          exact .silent rfl fun _ => .silent rfl fun _ => .silent rfl fun _ =>
            .bind (waits_when (waits_silent rfl)) fun _ => ih subReads

theorem waits_waitSubReads : ∀ {subReads : Nat},
    Waits (fun _ n => n = 0) (waitSubReads subReads) subReads
  | 0 => rfl
  | subReads + 1 => .semWait (n := subReads) waits_waitSubReads

theorem waits_readBytes {rounds : Nat} {file : FileRef} {offset length : UInt64} :
    Waits (fun _ n => n = 0) (readBytes rounds file offset length) 0 := by
  have haheads : Waits (fun _ n => n = 0) (checkReadaheads file offset length) 0 :=
    .silent rfl fun _ => .bind (waits_when (waits_silent rfl)) fun _ => .silent rfl fun _ =>
      .silent rfl fun _ => .silent rfl fun _ => .silent rfl fun _ =>
        waits_when (.bind waits_checkReadahead fun _ => waits_checkReadahead)
  refine .bind haheads fun _ => .silent rfl fun _ => (waits_readLoop 0).through ?_
  rintro ⟨finalLength, subReads⟩ n rfl
  exact .silent rfl fun _ => .bind waits_waitSubReads fun _ => .silent rfl fun _ =>
    .ite (fun _ => rfl) fun _ => rfl

theorem waits_fileRead (rounds : Nat) (file : FileRef) (offset length : UInt64) :
    Waits (fun _ n => n = 0) (spdkFileRead rounds file offset length) 0 :=
  .silent rfl fun _ => .silent rfl fun _ => .silent rfl fun _ => .ite
    (fun _ => .silent rfl fun _ => rfl) fun _ => .silent rfl fun _ =>
      .ite (fun _ => .silent rfl fun _ => waits_readBytes) fun _ => waits_readBytes

/-! #### Syncing and closing -/

theorem waits_fileSync {file : FileRef} : Waits (fun _ n => n = 1) (fileSync file) 0 := by
  have hpost : Waits (fun _ n => n = 1) (act .semPost) 0 := ⟨trivial, fun _ _ h => h⟩
  refine .silent rfl fun _ => .silent rfl fun _ => .silent rfl fun _ =>
    .ite (fun _ => .silent rfl fun _ => hpost) fun _ => .alloc fun _ =>
      .ite (fun _ => .silent rfl fun _ => hpost) fun _ => .alloc fun _ =>
        .ite (fun _ => .silent rfl fun _ => .silent rfl fun _ => hpost) fun _ =>
          .silent rfl fun _ => .send rfl (.silent rfl fun _ => ?_)
  exact ⟨trivial, fun _ _ h => h⟩

theorem waits_spdkFileSync (file : FileRef) : Waits (fun _ n => n = 0) (spdkFileSync file) 0 :=
  .bind waits_fileSync fun _ => .semWait (n := 0) (waits_silent rfl)

theorem waits_fileClose (file : FileRef) : Waits (fun _ n => n = 0) (spdkFileClose file) 0 :=
  .alloc fun _ => .ite (fun _ => rfl) fun _ => .bind (waits_spdkFileSync file) fun _ =>
    .send rfl (.semWait (waits_silent rfl))

/-- Every synchronous call waits for what it has posted, refused requests apart. -/
theorem waits_run (op : SyncCall) : Waits (fun _ n => n = 0) op.run 0 := by
  cases op with
  | write rounds file offset length => exact waits_fileWrite rounds file offset length
  | read rounds file offset length => exact waits_fileRead rounds file offset length
  | sync file => exact waits_spdkFileSync file
  | close file => exact waits_fileClose file
  | truncate file length => exact waits_sendAndWait rfl
  | stat name => exact waits_sendAndWait rfl
  | create name => exact waits_sendAndWait rfl
  | «open» name flags => exact waits_sendAndWait rfl
  | rename oldName newName => exact waits_sendAndWait rfl
  | delete name => exact waits_sendAndWait rfl

end clients

/-! ### A run of calls -/

/-- The jobs that have still to post. -/
def owed (jobs : List Started) : Nat := jobs.countP fun j => j.posted = 0

/-- What the client still waits for is what the semaphore has and the jobs will post; what
refused requests posted comes on top. -/
structure Settles (c : Context) : Prop where
  client : ∃ n : Int, Waits (fun _ n => n = 0) c.client n ∧
    (c.sem + owed c.jobs : Int) = n + c.refused
  jobs : ∀ j ∈ c.jobs, Wakes j.rest j.posted ∧ j.posted ≤ 1
  posts : c.posts = c.sem + c.waits

namespace Settles

variable {c c' : Context}

theorem initial (h : c.Initial) : Settles c where
  client := by
    obtain ⟨rc, hclient⟩ := h.client
    refine ⟨0, ?_, by simp [h.sem, h.jobs, h.refused, owed]⟩
    rw [hclient]
    exact rfl
  jobs := by simp [h.jobs]
  posts := by simp [h.posts, h.sem, h.waits]

theorem owed_append {jobs : List Started} {p : Job} :
    owed (jobs ++ [⟨p, 0⟩]) = owed jobs + 1 := by
  simp [owed]

/-- A message with a job is owed for. -/
theorem send (h : Settles c) {m : Message} {k : Unit → Client Int} {n : Int}
    (hk : Waits (fun _ n => n = 0) (k ()) (n + owes (.send m) ()))
    (hn : (c.sem + owed c.jobs : Int) = n + c.refused) :
    Settles { c.start m.job with client := k () } := by
  cases hm : m.job with
  | none =>
      have hnone : owes (.send m) () = 0 := by simp [owes, hm]
      rw [hnone, add_zero] at hk
      refine ⟨⟨n, hk, ?_⟩, ?_, h.posts⟩
      · simpa [Context.start] using hn
      · simpa [Context.start] using h.jobs
  | some p =>
      have hone : owes (.send m) () = 1 := by simp [owes, hm]
      rw [hone] at hk
      refine ⟨⟨n + 1, hk, ?_⟩, fun j hj => ?_, h.posts⟩
      · change (c.sem + owed (c.jobs ++ [⟨p, 0⟩]) : Int) = n + 1 + c.refused
        rw [owed_append]
        omega
      · rcases List.mem_append.mp hj with hj | hj
        · exact h.jobs j hj
        · obtain rfl := List.mem_singleton.mp hj
          exact ⟨wakes_job hm, Nat.zero_le 1⟩

/-- An action of the client. -/
theorem act (h : Settles c) {r : Action} {k : Answer r → Client Int} {x : Answer r}
    (hclient : c.client = .call r k) (hwait : r = .semWait → 0 < c.sem) :
    Settles { c.after r x with client := k x } := by
  obtain ⟨n, hn, hsum⟩ := h.client
  rw [hclient] at hn
  have hk : Waits (fun _ n => n = 0) (k x) (n + owes r x) := hn.2 x _ rfl
  have hposts := h.posts
  cases r with
  | send m => exact h.send hk hsum
  | semPost =>
      refine ⟨⟨_, hk, ?_⟩, h.jobs, ?_⟩
      · change ((c.sem + 1 : Nat) + owed c.jobs : Int) = n + 1 + c.refused
        omega
      · change c.posts + 1 = c.sem + 1 + c.waits
        omega
  | semWait =>
      have hpos := hwait rfl
      refine ⟨⟨_, hk, ?_⟩, h.jobs, ?_⟩
      · change ((c.sem - 1 : Nat) + owed c.jobs : Int) = n + -1 + c.refused
        omega
      · change c.posts = c.sem - 1 + (c.waits + 1)
        omega
  | alloc iovcnt =>
      refine ⟨⟨_, hk, ?_⟩, h.jobs, h.posts⟩
      change (c.sem + owed c.jobs : Int) =
        n + -(refused iovcnt x : Int) + (c.refused + refused iovcnt x : Nat)
      omega
  | _ =>
      have hsilent := hk
      rw [owes_silent rfl, add_zero] at hsilent
      exact ⟨⟨n, hsilent, hsum⟩, h.jobs, h.posts⟩

/-- A step of a job. -/
theorem work (h : Settles c) {i : Nat} {j : Started} {r : Request} {k : Response r → Job}
    {x : Response r} (hi : c.jobs[i]? = some j) (hrest : j.rest = .call r k) :
    Settles { c.post (Calls.posts r x) with jobs := c.jobs.set i ⟨k x, j.posted + Calls.posts r x⟩ }
      := by
  obtain ⟨hlt, hget⟩ := List.getElem?_eq_some_iff.mp hi
  obtain ⟨hwakes, hle⟩ := h.jobs j (List.mem_of_getElem? hi)
  rw [hrest] at hwakes
  have hnext : Wakes (k x) (j.posted + Calls.posts r x) := hwakes.2 x _ rfl
  have hzero : Calls.posts r x = 0 ∨ Calls.posts r x = 1 ∧ j.posted = 0 := by
    cases r <;> first | exact Or.inl rfl | exact Or.inr ⟨rfl, hwakes.1 rfl⟩
  obtain ⟨n, hn, hsum⟩ := h.client
  have hposts := h.posts
  have howed : owed (c.jobs.set i ⟨k x, j.posted + Calls.posts r x⟩) + Calls.posts r x =
    owed c.jobs := by
    have hold : j.posted = 0 → 0 < owed c.jobs := fun hposted =>
      List.countP_pos_iff.mpr ⟨j, List.mem_of_getElem? hi, by simpa using hposted⟩
    unfold owed at hold ⊢
    rw [List.countP_set hlt, hget]
    rcases hzero with hnone | ⟨hone, hposted⟩
    · rw [hnone, add_zero]
      by_cases hposted : j.posted = 0
      · have := hold hposted
        simp [hposted]
        omega
      · simp [hposted]
    · have := hold hposted
      simp [hone, hposted]
      omega
  refine ⟨⟨n, hn, ?_⟩, fun j' hj' => ?_, ?_⟩
  · change ((c.sem + Calls.posts r x : Nat) + owed (c.jobs.set i _) : Int) = n + c.refused
    omega
  · rcases List.mem_or_eq_of_mem_set hj' with hj' | rfl
    · exact h.jobs j' hj'
    · refine ⟨hnext, ?_⟩
      change j.posted + Calls.posts r x ≤ 1
      omega
  · change c.posts + Calls.posts r x = c.sem + Calls.posts r x + c.waits
    omega

theorem step {e : Turn} (h : Settles c) (hstep : ContextSteps c e c') : Settles c' := by
  cases e with
  | call op =>
      obtain ⟨⟨rc, hclient⟩, rfl⟩ := hstep
      obtain ⟨n, hn, hsum⟩ := h.client
      rw [hclient] at hn
      obtain rfl : n = 0 := hn
      exact ⟨⟨0, waits_run op, hsum⟩, h.jobs, h.posts⟩
  | client =>
      obtain ⟨r, k, x, hclient, hwait, rfl⟩ := hstep
      exact h.act hclient hwait
  | job i =>
      obtain ⟨j, r, k, x, hi, hrest, rfl⟩ := hstep
      exact h.work hi hrest

/-- When a call has come back, the surplus is what refused requests have posted. -/
theorem balanced_iff (h : Settles c) {rc : Int} (hclient : c.client = ret rc) :
    Balanced c ↔ c.refused = 0 := by
  obtain ⟨n, hn, hsum⟩ := h.client
  rw [hclient] at hn
  obtain rfl : n = 0 := hn
  have howed : owed c.jobs = 0 ↔ ∀ j ∈ c.jobs, j.posted = 1 := by
    unfold owed
    rw [List.countP_eq_zero]
    refine forall₂_congr fun j hj => ?_
    have hle := (h.jobs j hj).2
    rw [decide_eq_true_eq]
    omega
  have hposts := h.posts
  constructor
  · rintro ⟨-, hsem, hcompleted⟩
    have := howed.mpr hcompleted
    omega
  · intro hrefused
    exact ⟨by omega, by omega, howed.mp (by omega)⟩

end Settles

/-- In every run of synchronous calls on a thread context, whatever is allocated and however
the work for them ends and interleaves: when a call has come back, the posts and the waits are
balanced if and only if no request was refused to `__send_rw_from_file` so far. -/
theorem balanced_iff_of_runs {c₀ c : Context} (hinitial : c₀.Initial)
    (hrun : Runs ContextSteps (fun _ _ => True) c₀ c) {rc : Int} (hclient : c.client = ret rc) :
    Balanced c ↔ c.refused = 0 :=
  (hrun.keeps (Settles.initial hinitial) fun h _ hstep => h.step hstep).balanced_iff hclient

def newContext : Context := ⟨0, ret 0, [], 0, 0, 0⟩

theorem newContext_initial : newContext.Initial := ⟨rfl, ⟨0, rfl⟩, rfl, rfl, rfl, rfl⟩

/-- A step of the client that finds its rest. -/
theorem client_step {c c₀ : Context} {r : Action} {k : Answer r → Client Int}
    (hrun : Runs ContextSteps (fun _ _ => True) c₀ c) (x : Answer r)
    (hclient : c.client = .call r k) (hwait : r = .semWait → 0 < c.sem) :
    Runs ContextSteps (fun _ _ => True) c₀ { c.after r x with client := k x } :=
  hrun.tail (e := Turn.client) trivial ⟨r, k, x, hclient, hwait, rfl⟩

/-- A truncate to the length that the file has. -/
theorem balanced_iff_of_runs_one : ∃ c, Runs ContextSteps (fun _ _ => True) newContext c ∧
    c.client = ret 0 ∧ c.waits = 1 ∧ Balanced c := by
  have hcall : Runs ContextSteps (fun _ _ => True) newContext _ :=
    .one (e := Turn.call (.truncate 0 0)) trivial ⟨⟨0, rfl⟩, rfl⟩
  have hsent := client_step (client_step hcall true rfl nofun) () rfl nofun
  have hlength := hsent.tail (e := Turn.job 0) trivial ⟨_, _, _, (0 : UInt64), rfl, rfl, rfl⟩
  have hrc := hlength.tail (e := Turn.job 0) trivial ⟨_, _, _, (), rfl, rfl, rfl⟩
  have hpost := hrc.tail (e := Turn.job 0) trivial ⟨_, _, _, (), rfl, rfl, rfl⟩
  have hwait := client_step hpost () rfl fun _ => Nat.one_pos
  have hback := client_step (client_step hwait (0 : Int) rfl nofun) () rfl nofun
  exact ⟨_, hback, rfl, rfl, (balanced_iff_of_runs newContext_initial hback rfl).mpr rfl⟩

/-- An append past the cache that gets no request posts, and does not wait. -/
theorem balanced_refused : ¬ ∀ (c₀ c : Context) (rc : Int), c₀.Initial →
    Runs ContextSteps (fun _ _ => True) c₀ c → c.client = ret rc → Balanced c := by
  intro h
  have hcall : Runs ContextSteps (fun _ _ => True) newContext _ :=
    .one (e := Turn.call (.write 0 0 1 1)) trivial ⟨⟨0, rfl⟩, rfl⟩
  have hlock := client_step (client_step hcall (1 : UInt64) rfl nofun) () rfl nofun
  have hlast := client_step (client_step hlock () rfl nofun) (none : Option BufRef) rfl nofun
  have hopened := client_step (client_step hlast (1 : UInt64) rfl nofun) (none : Option BufRef) rfl
    nofun
  have hmoved := client_step (client_step hopened (1 : UInt64) rfl nofun) () rfl nofun
  have hrefused := client_step (client_step hmoved () rfl nofun) false rfl nofun
  have hback := client_step hrefused () rfl nofun
  cases (h _ _ _ newContext_initial hback rfl).sem

end Nbfs.Calls
