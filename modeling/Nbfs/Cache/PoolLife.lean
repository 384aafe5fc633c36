import Nbfs.Lib.Fallible
import Nbfs.Lib.Runs
import Mathlib.Algebra.BigOperators.Group.List.Basic
import Mathlib.Algebra.GroupWithZero.Nat
import Mathlib.Data.List.Perm.Lattice
import Mathlib.Logic.Function.Basic

set_option autoImplicit false

/-!
# The life of the cache pool (`lib/NBFS/NBFS.c`)

The first filesystem starts a thread that creates the pool of cache buffers, and after
the last one the thread frees it again.  `g_fs_count` changes at once; the pool is created
and freed when the thread comes to the message.
-/

namespace Nbfs.Cache

open Nbfs.Lib

/-- A `struct spdk_thread *` other than NULL. -/
abbrev ThreadRef := Nat

/-- What a message to a cache-management thread calls. -/
inductive MgmtFn where
  | startCachePoolMgmt
  | stopCachePoolMgmt
  deriving DecidableEq

/-- A `struct spdk_mempool`. -/
structure MemPool where
  /-- The thread that created it. -/
  creator : ThreadRef
  /-- `spdk_mempool_count`. -/
  count : Nat

/-- The global variables, the messages and the filesystems. -/
structure GlobalCache where
  fsCount : Int
  /-- `g_fs_cache_size / CACHE_BUFFER_SIZE`. -/
  cacheSize : Nat
  cachePool : Option MemPool
  /-- `g_cache_pool_mgmt_poller`, by the thread that registered it. -/
  mgmtPoller : Option ThreadRef
  cachePoolThread : Option ThreadRef
  /-- The next thread. -/
  brk : ThreadRef
  /-- What each thread has still to call, oldest first. -/
  messages : ThreadRef → List MgmtFn
  /-- The cache buffers of the files of each filesystem that is loaded. -/
  loaded : List Nat

/-- Where the code stops, or has no defined behaviour. -/
inductive LifeFault where
  | assertion
  /-- A mempool function is given NULL. -/
  | nullPool
  /-- A message is sent to NULL. -/
  | nullThread
  /-- No such filesystem, buffer or message. -/
  | noEvent

namespace GlobalCache

variable (s : GlobalCache)

/-- `spdk_thread_send_msg(t, fn, NULL)`. -/
def sendMsg (t : ThreadRef) (fn : MgmtFn) : GlobalCache :=
  { s with messages := Function.update s.messages t (s.messages t ++ [fn]) }

/-- `initialize_global_cache`. -/
def initializeGlobalCache : GlobalCache :=
  let s' := if s.fsCount = 0 then
      { s with cachePoolThread := some s.brk, brk := s.brk + 1 }.sendMsg s.brk .startCachePoolMgmt
    else s
  { s' with fsCount := s.fsCount + 1 }

/-- `free_global_cache`. -/
def freeGlobalCache : Except LifeFault GlobalCache :=
  let s := { s with fsCount := s.fsCount - 1 }
  if s.fsCount = 0 then
    match s.cachePoolThread with
    | none => .error .nullThread
    | some t => .ok (s.sendMsg t .stopCachePoolMgmt)
  else .ok s

/-- `__start_cache_pool_mgmt` on thread `t`; `memory` is whether `spdk_mempool_create` has
memory for the pool. -/
def startCachePoolMgmt (t : ThreadRef) (memory : Bool) : Except LifeFault GlobalCache :=
  if s.cachePool.isSome then .error .assertion
  else if memory = false then .error .assertion
  else if s.mgmtPoller.isSome then .error .assertion
  else .ok { s with cachePool := some ⟨t, s.cacheSize⟩, mgmtPoller := some t }

/-- `__stop_cache_pool_mgmt` on thread `t`.  `spdk_poller_unregister` asserts that the poller
is of this thread, and `spdk_thread_exit` that it is given this thread. -/
def stopCachePoolMgmt (t : ThreadRef) : Except LifeFault GlobalCache :=
  if s.mgmtPoller.any (· ≠ t) then .error .assertion
  else
    match s.cachePool with
    | none => .error .assertion
    | some pool =>
        if pool.count ≠ s.cacheSize then .error .assertion
        else if s.cachePoolThread ≠ some t then .error .assertion
        else .ok { s with cachePool := none, mgmtPoller := none }

/-- Thread `t` comes to its oldest message. -/
def poll (t : ThreadRef) (memory : Bool) : Except LifeFault GlobalCache :=
  match s.messages t with
  | [] => .error .noEvent
  | fn :: rest =>
      let s := { s with messages := Function.update s.messages t rest }
      match fn with
      | .startCachePoolMgmt => s.startCachePoolMgmt t memory
      | .stopCachePoolMgmt => s.stopCachePoolMgmt t

/-- `cache_insert_buffer` for a file of filesystem `i`; where no buffer is left it fails. -/
def cacheInsertBuffer (i : Nat) : Except LifeFault GlobalCache :=
  match s.loaded[i]? with
  | none => .error .noEvent
  | some buffers =>
      match s.cachePool with
      | none => .error .nullPool
      | some pool =>
          if pool.count = 0 then .ok s
          else .ok { s with
            cachePool := some { pool with count := pool.count - 1 }
            loaded := s.loaded.set i (buffers + 1) }

/-- `cache_buffer_free` of so many buffers. -/
def cacheBufferFree (buffers : Nat) : Except LifeFault GlobalCache :=
  match s.cachePool with
  | none => if buffers = 0 then .ok s else .error .nullPool
  | some pool => .ok { s with cachePool := some { pool with count := pool.count + buffers } }

/-- `unload_cb`: `file_free` frees the buffers of all files. -/
def unloadCb (i : Nat) : Except LifeFault GlobalCache :=
  match s.loaded[i]? with
  | none => .error .noEvent
  | some buffers => do
      let s' ← s.cacheBufferFree buffers
      { s' with loaded := s.loaded.eraseIdx i }.freeGlobalCache

/-- A file of filesystem `i` frees a buffer. -/
def releaseBuffer (i : Nat) : Except LifeFault GlobalCache :=
  match s.loaded[i]? with
  | some (buffers + 1) => do
      let s' ← s.cacheBufferFree 1
      return { s' with loaded := s.loaded.set i buffers }
  | _ => .error .noEvent

/-- `spdk_fs_set_cache_size`. -/
def setCacheSize (n : Nat) : GlobalCache :=
  if s.cachePool.isSome then s else { s with cacheSize := n }

end GlobalCache

/-- What can happen. -/
inductive LifeEvent where
  /-- `common_fs_bs_init`, at the end of an init or a load. -/
  | mount
  /-- `unload_cb` of filesystem `i`. -/
  | unload (i : Nat)
  | insert (i : Nat)
  | release (i : Nat)
  | setCacheSize (n : Nat)
  | poll (t : ThreadRef) (memory : Bool)

namespace GlobalCache

/-- One step. -/
def step (s : GlobalCache) : LifeEvent → Except LifeFault GlobalCache
  | .mount => .ok { s.initializeGlobalCache with loaded := s.loaded ++ [0] }
  | .unload i => s.unloadCb i
  | .insert i => s.cacheInsertBuffer i
  | .release i => s.releaseBuffer i
  | .setCacheSize n => .ok (s.setCacheSize n)
  | .poll t memory => s.poll t memory

end GlobalCache

def LifeSteps (s : GlobalCache) (e : LifeEvent) (s' : GlobalCache) : Prop := s.step e = .ok s'

/-- Before the first filesystem. -/
structure LifeInitial (s : GlobalCache) : Prop where
  fsCount : s.fsCount = 0
  cachePool : s.cachePool = none
  mgmtPoller : s.mgmtPoller = none
  messages : s.messages = fun _ => []
  loaded : s.loaded = []

/-- No assertion fails, no buffer is taken from or given to a pool that does not exist, and a
stop finds the pool, the poller and the thread of its own start. -/
structure KeepsLife (s : GlobalCache) (e : LifeEvent) : Prop where
  asserts : s.step e ≠ .error .assertion
  pool : s.step e ≠ .error .nullPool
  thread : s.step e ≠ .error .nullThread
  matched : ∀ t memory rest, e = .poll t memory → s.messages t = .stopCachePoolMgmt :: rest →
    s.cachePool.map MemPool.creator = some t ∧ s.mgmtPoller = some t ∧ s.cachePoolThread = some t

/-- A first filesystem comes when no stop waits any more, a buffer is inserted when no start
does, and there is memory for the pool. -/
def InTurn (s : GlobalCache) : LifeEvent → Prop
  | .mount => s.fsCount = 0 → ∀ t, .stopCachePoolMgmt ∉ s.messages t
  | .insert _ => ∀ t, .startCachePoolMgmt ∉ s.messages t
  | .poll _ memory => memory = true
  | _ => True

/-! ### The phases of the pool -/

/-- From one first filesystem to the next. -/
inductive Phase where
  /-- There is no pool and no filesystem. -/
  | down
  /-- The first filesystem is there and its start waits. -/
  | starting
  | up
  /-- All are gone again and the start still waits, with the stop behind it. -/
  | leaving
  /-- All are gone and the stop waits. -/
  | stopping

namespace Phase

def queue : Phase → List MgmtFn
  | down | up => []
  | starting => [.startCachePoolMgmt]
  | leaving => [.startCachePoolMgmt, .stopCachePoolMgmt]
  | stopping => [.stopCachePoolMgmt]

def mounted : Phase → Bool
  | starting | up => true
  | _ => false

def hasPool : Phase → Bool
  | up | stopping => true
  | _ => false

end Phase

/-- The invariant: the cache is in a phase, with the messages of one thread. -/
structure InPhase (p : Phase) (t : ThreadRef) (s : GlobalCache) : Prop where
  fsCount : s.fsCount = s.loaded.length
  mounted : s.loaded ≠ [] ↔ p.mounted = true
  messages : s.messages = Function.update (fun _ => []) t p.queue
  thread : p ≠ .down → s.cachePoolThread = some t
  pool : p.hasPool = true → s.mgmtPoller = some t ∧
    ∃ n, s.cachePool = some ⟨t, n⟩ ∧ n + s.loaded.sum = s.cacheSize
  noPool : p.hasPool = false → s.mgmtPoller = none ∧ s.cachePool = none ∧ s.loaded.sum = 0

namespace InPhase

variable {p : Phase} {t : ThreadRef} {s s' : GlobalCache}

theorem initial (h : LifeInitial s) : InPhase .down 0 s where
  fsCount := by simp [h.fsCount, h.loaded]
  mounted := by simp [h.loaded, Phase.mounted]
  messages := by
    rw [h.messages]
    exact (Function.update_eq_self 0 _).symm
  thread := fun hne => absurd rfl hne
  pool := nofun
  noPool := fun _ => ⟨h.mgmtPoller, h.cachePool, by simp [h.loaded]⟩

theorem queue_self (h : InPhase p t s) : s.messages t = p.queue := by
  rw [h.messages, Function.update_self]

theorem queue_ne (h : InPhase p t s) {t' : ThreadRef} (hne : t' ≠ t) : s.messages t' = [] := by
  rw [h.messages, Function.update_of_ne hne]

/-- The thread whose message is next is that of the phase. -/
theorem eq_of_cons (h : InPhase p t s) {t' : ThreadRef} {fn : MgmtFn} {rest : List MgmtFn}
    (hqueue : s.messages t' = fn :: rest) : t' = t ∧ p.queue = fn :: rest := by
  by_cases hne : t' = t
  · subst hne
    exact ⟨rfl, h.queue_self.symm.trans hqueue⟩
  · cases (h.queue_ne hne).symm.trans hqueue

/-- Without filesystems the count is 0, and only then. -/
theorem fsCount_eq_zero_iff (h : InPhase p t s) : s.fsCount = 0 ↔ p.mounted = false := by
  rw [h.fsCount, Int.natCast_eq_zero, List.length_eq_zero_iff, ← Bool.not_eq_true, ← h.mounted,
    not_not]

theorem mount (h : InPhase p t s) (hok : InTurn s .mount) :
    ∃ p' t', InPhase p' t' { s.initializeGlobalCache with loaded := s.loaded ++ [0] } := by
  unfold GlobalCache.initializeGlobalCache
  by_cases hzero : s.fsCount = 0
  · rw [if_pos hzero]
    have hstop := hok hzero t
    rw [h.queue_self] at hstop
    have hdown : p = .down := by
      have hmounted := h.fsCount_eq_zero_iff.mp hzero
      cases p with
      | down => rfl
      | starting => cases hmounted
      | up => cases hmounted
      | leaving => exact absurd (List.mem_cons_of_mem _ List.mem_cons_self) hstop
      | stopping => exact absurd List.mem_cons_self hstop
    subst hdown
    have hempty : s.messages = fun _ => [] := h.messages.trans (Function.update_eq_self t _)
    refine ⟨.starting, s.brk, ?_, ?_, ?_, fun _ => rfl, nofun, fun _ => ?_⟩
    · simp [h.fsCount]
    · simp [Phase.mounted]
    · simp only [GlobalCache.sendMsg, hempty]
      rfl
    · obtain ⟨hpoller, hpool, hsum⟩ := h.noPool rfl
      exact ⟨hpoller, hpool, by simpa [GlobalCache.sendMsg] using hsum⟩
  · rw [if_neg hzero]
    have hmounted : p.mounted = true := by
      by_contra hnot
      exact hzero (h.fsCount_eq_zero_iff.mpr (by simpa using hnot))
    refine ⟨p, t, ?_, ?_, h.messages, h.thread, fun hp => ?_, fun hp => ?_⟩
    · simp [h.fsCount]
    · simp [hmounted]
    · obtain ⟨hpoller, n, hpool, hsum⟩ := h.pool hp
      exact ⟨hpoller, n, hpool, by simpa using hsum⟩
    · obtain ⟨hpoller, hpool, hsum⟩ := h.noPool hp
      exact ⟨hpoller, hpool, by simpa using hsum⟩

/-- What `unload_cb` and a freed buffer take from the buffers of the filesystems. -/
theorem sum_taken {l : List Nat} {i n : Nat} (hi : l[i]? = some n) :
    l.sum = n + (l.eraseIdx i).sum :=
  (taken_perm hi).sum_eq.trans List.sum_cons

theorem sum_set {l : List Nat} {i n m : Nat} (hi : l[i]? = some n) :
    (l.set i m).sum = m + (l.eraseIdx i).sum := by
  obtain ⟨hlt, -⟩ := List.getElem?_eq_some_iff.mp hi
  exact (List.set_perm_cons_eraseIdx hlt m).sum_eq.trans List.sum_cons

/-- While a filesystem is loaded. -/
theorem mounted_of_getElem (h : InPhase p t s) {i n : Nat} (hi : s.loaded[i]? = some n) :
    p.mounted = true := by
  refine h.mounted.mp fun hnil => ?_
  rw [hnil] at hi
  cases hi

/-- A buffer that a filesystem has came from the pool. -/
theorem hasPool_of_pos (h : InPhase p t s) {i n : Nat} (hi : s.loaded[i]? = some (n + 1)) :
    p.hasPool = true := by
  by_contra hnot
  obtain ⟨-, -, hsum⟩ := h.noPool (by simpa using hnot)
  have htaken := sum_taken hi
  omega

/-! #### The messages -/

theorem pollStart (h : InPhase p t s) {rest : List MgmtFn}
    (hqueue : p.queue = .startCachePoolMgmt :: rest) :
    ∃ p' s', s.poll t true = .ok s' ∧ InPhase p' t s' := by
  have hnot : p.hasPool = false := by
    cases p with
    | starting => rfl
    | leaving => rfl
    | _ => cases hqueue
  obtain ⟨hpoller, hpool, hsum⟩ := h.noPool hnot
  have hmessages : Function.update s.messages t rest = Function.update (fun _ => []) t rest := by
    rw [h.messages, Function.update_idem]
  have hrun : s.poll t true = .ok { s with
      messages := Function.update s.messages t rest
      cachePool := some ⟨t, s.cacheSize⟩
      mgmtPoller := some t } := by
    simp [GlobalCache.poll, h.queue_self, hqueue, GlobalCache.startCachePoolMgmt, hpool, hpoller]
  have hthread : s.cachePoolThread = some t := h.thread (by rintro rfl; cases hqueue)
  cases p with
  | starting =>
      obtain ⟨-, rfl⟩ := List.cons.inj hqueue
      exact ⟨.up, _, hrun, h.fsCount, h.mounted, hmessages, fun _ => hthread,
        fun _ => ⟨rfl, _, rfl, by simp [hsum]⟩, nofun⟩
  | leaving =>
      obtain ⟨-, rfl⟩ := List.cons.inj hqueue
      exact ⟨.stopping, _, hrun, h.fsCount, h.mounted, hmessages, fun _ => hthread,
        fun _ => ⟨rfl, _, rfl, by simp [hsum]⟩, nofun⟩
  | _ => cases hqueue

/-- A stop comes to its own pool and thread, and to a pool that has all its buffers. -/
theorem pollStop (h : InPhase p t s) {rest : List MgmtFn}
    (hqueue : p.queue = .stopCachePoolMgmt :: rest) (memory : Bool) :
    (s.cachePool.map MemPool.creator = some t ∧ s.mgmtPoller = some t ∧
        s.cachePoolThread = some t) ∧
      ∃ p' s', s.poll t memory = .ok s' ∧ InPhase p' t s' := by
  cases p with
  | stopping =>
      obtain ⟨-, rfl⟩ := List.cons.inj hqueue
      obtain ⟨hpoller, n, hpool, hsum⟩ := h.pool rfl
      have hthread := h.thread nofun
      have hloaded : s.loaded = [] := by
        by_contra hne
        cases h.mounted.mp hne
      have hfull : n = s.cacheSize := by simpa [hloaded] using hsum
      have hrun : s.poll t memory = .ok { s with
          messages := Function.update s.messages t []
          cachePool := none
          mgmtPoller := none } := by
        simp [GlobalCache.poll, h.queue_self, Phase.queue, GlobalCache.stopCachePoolMgmt, hpool,
          hpoller, hthread, hfull]
      refine ⟨⟨by simp [hpool], hpoller, hthread⟩, .down, _, hrun, h.fsCount, ?_, ?_, fun hne => ?_,
        nofun, fun _ => ⟨rfl, rfl, by simp [hloaded]⟩⟩
      · simp [hloaded, Phase.mounted]
      · change Function.update s.messages t [] = _
        rw [h.messages, Function.update_idem]
        rfl
      · exact absurd rfl hne
  | _ => cases hqueue

/-! #### The filesystems -/

theorem insert (h : InPhase p t s) (hok : ∀ t, .startCachePoolMgmt ∉ s.messages t) {i n : Nat}
    (hi : s.loaded[i]? = some n) : ∃ s', s.cacheInsertBuffer i = .ok s' ∧ InPhase p t s' := by
  have hup : p = .up := by
    have hmounted := h.mounted_of_getElem hi
    have hstart := hok t
    rw [h.queue_self] at hstart
    cases p with
    | starting => exact absurd List.mem_cons_self hstart
    | up => rfl
    | _ => cases hmounted
  subst hup
  obtain ⟨hpoller, count, hpool, hsum⟩ := h.pool rfl
  unfold GlobalCache.cacheInsertBuffer
  rw [hi, hpool]
  dsimp only
  by_cases hnone : count = 0
  · rw [if_pos hnone]
    exact ⟨s, rfl, h⟩
  rw [if_neg hnone]
  have htaken := sum_taken hi
  have hset : (s.loaded.set i (n + 1)).sum = n + 1 + (s.loaded.eraseIdx i).sum := sum_set hi
  refine ⟨_, rfl, ?_, ?_, h.messages, h.thread, fun _ => ⟨hpoller, _, rfl, ?_⟩, nofun⟩
  · simp [h.fsCount]
  · simpa using h.mounted
  · change count - 1 + (s.loaded.set i (n + 1)).sum = s.cacheSize
    omega

theorem release (h : InPhase p t s) {i n : Nat} (hi : s.loaded[i]? = some (n + 1)) :
    ∃ s', s.releaseBuffer i = .ok s' ∧ InPhase p t s' := by
  have hhas := h.hasPool_of_pos hi
  obtain ⟨hpoller, count, hpool, hsum⟩ := h.pool hhas
  have htaken := sum_taken hi
  have hset : (s.loaded.set i n).sum = n + (s.loaded.eraseIdx i).sum := sum_set hi
  refine ⟨{ s with cachePool := some ⟨t, count + 1⟩, loaded := s.loaded.set i n }, ?_, ?_, ?_,
    h.messages, h.thread, fun _ => ⟨hpoller, _, rfl, ?_⟩, fun hnot => ?_⟩
  · simp [GlobalCache.releaseBuffer, hi, GlobalCache.cacheBufferFree, hpool]
  · simp [h.fsCount]
  · simpa using h.mounted
  · change count + 1 + (s.loaded.set i n).sum = s.cacheSize
    omega
  · cases hhas.symm.trans hnot

theorem setCacheSize (h : InPhase p t s) (n : Nat) : InPhase p t (s.setCacheSize n) := by
  unfold GlobalCache.setCacheSize
  split
  · exact h
  · rename_i hnone
    refine ⟨h.fsCount, h.mounted, h.messages, h.thread, fun hp => ?_, h.noPool⟩
    obtain ⟨-, count, hpool, -⟩ := h.pool hp
    exact absurd (by simp [hpool]) hnone

/-- Freed buffers of a filesystem go back to the pool. -/
theorem cacheBufferFree (h : InPhase p t s) {i n : Nat} (hi : s.loaded[i]? = some n) :
    ∃ s', s.cacheBufferFree n = .ok s' ∧
      (s'.fsCount = s.fsCount ∧ s'.messages = s.messages ∧ s'.cachePoolThread = s.cachePoolThread) ∧
      (p.hasPool = true → s'.mgmtPoller = some t ∧ ∃ m, s'.cachePool = some ⟨t, m⟩ ∧
        m + (s.loaded.eraseIdx i).sum = s'.cacheSize) ∧
      (p.hasPool = false → s'.mgmtPoller = none ∧ s'.cachePool = none ∧
        (s.loaded.eraseIdx i).sum = 0) := by
  have htaken := sum_taken hi
  cases hhas : p.hasPool with
  | true =>
      obtain ⟨hpoller, count, hpool, hsum⟩ := h.pool hhas
      refine ⟨{ s with cachePool := some ⟨t, count + n⟩ }, ?_, ⟨rfl, rfl, rfl⟩,
        fun _ => ⟨hpoller, _, rfl, ?_⟩, nofun⟩
      · simp [GlobalCache.cacheBufferFree, hpool]
      · change count + n + (s.loaded.eraseIdx i).sum = s.cacheSize
        omega
  | false =>
      obtain ⟨hpoller, hpool, hsum⟩ := h.noPool hhas
      obtain rfl : n = 0 := by omega
      refine ⟨s, ?_, ⟨rfl, rfl, rfl⟩, nofun, fun _ => ⟨hpoller, hpool, by omega⟩⟩
      simp [GlobalCache.cacheBufferFree, hpool]

/-- The last filesystem sends the stop, to the thread of the phase. -/
theorem unload (h : InPhase p t s) {i n : Nat} (hi : s.loaded[i]? = some n) :
    ∃ p' s', s.unloadCb i = .ok s' ∧ InPhase p' t s' := by
  have hmounted := h.mounted_of_getElem hi
  have hpos : 0 < s.loaded.length := List.length_pos_iff.mpr (h.mounted.mpr hmounted)
  have hlength : (s.loaded.eraseIdx i).length = s.loaded.length - 1 :=
    List.length_eraseIdx_of_lt (List.getElem?_eq_some_iff.mp hi).1
  have hthread : s.cachePoolThread = some t := h.thread (by rintro rfl; cases hmounted)
  obtain ⟨s₁, hfree, ⟨hcount₁, hmessages₁, hthread₁⟩, hpool₁, hnoPool₁⟩ := h.cacheBufferFree hi
  have hrun : s.unloadCb i = { s₁ with loaded := s.loaded.eraseIdx i }.freeGlobalCache := by
    simp [GlobalCache.unloadCb, hi, hfree, bind, Except.bind]
  have hcount : s₁.fsCount - 1 = (s.loaded.eraseIdx i).length := by
    rw [hcount₁, h.fsCount, hlength]
    omega
  have hthread₂ := hthread₁.trans hthread
  rw [hrun, GlobalCache.freeGlobalCache]
  dsimp only
  by_cases hlast : s₁.fsCount - 1 = 0
  · have hnil : s.loaded.eraseIdx i = [] := List.length_eq_zero_iff.mp (by omega)
    rw [if_pos hlast, hthread₂]
    have hsent : ∀ queue, p.queue ++ [.stopCachePoolMgmt] = queue →
        Function.update s₁.messages t (s₁.messages t ++ [.stopCachePoolMgmt]) =
          Function.update (fun _ => []) t queue := by
      rintro _ rfl
      rw [hmessages₁, h.queue_self, h.messages, Function.update_idem]
    cases p with
    | starting =>
        refine ⟨.leaving, _, rfl, hcount, ?_, hsent _ rfl, fun _ => rfl, nofun, fun _ =>
          hnoPool₁ rfl⟩
        simp [GlobalCache.sendMsg, hnil, Phase.mounted]
    | up =>
        refine ⟨.stopping, _, rfl, hcount, ?_, hsent _ rfl, fun _ => rfl, fun _ =>
          hpool₁ rfl, nofun⟩
        simp [GlobalCache.sendMsg, hnil, Phase.mounted]
    | _ => cases hmounted
  · rw [if_neg hlast]
    refine ⟨p, _, rfl, hcount, iff_of_true (fun hnil => hlast ?_) hmounted,
      hmessages₁.trans h.messages, fun _ => hthread₂, hpool₁, hnoPool₁⟩
    have hgone : s.loaded.eraseIdx i = [] := hnil
    rw [hcount, hgone]
    rfl

/-- One step, taken in turn, goes well and leads to a phase. -/
theorem step {e : LifeEvent} (h : InPhase p t s) (hok : InTurn s e) :
    KeepsLife s e ∧ ∀ s', LifeSteps s e s' → ∃ p' t', InPhase p' t' s' := by
  have hgood : ∀ {p' t' s'}, s.step e = .ok s' → InPhase p' t' s' →
      (∀ t memory rest, e = .poll t memory → s.messages t = .stopCachePoolMgmt :: rest →
        s.cachePool.map MemPool.creator = some t ∧ s.mgmtPoller = some t ∧
          s.cachePoolThread = some t) →
      KeepsLife s e ∧ ∀ s', LifeSteps s e s' → ∃ p' t', InPhase p' t' s' := by
    intro p' t' s' hrun hphase hmatched
    refine ⟨⟨?_, ?_, ?_, hmatched⟩, fun s'' hstep => ⟨p', t', ?_⟩⟩
    · rw [hrun]; exact nofun
    · rw [hrun]; exact nofun
    · rw [hrun]; exact nofun
    · rw [Except.ok.inj (hstep.symm.trans hrun)]
      exact hphase
  have hnothing : s.step e = .error .noEvent →
      (∀ t memory rest, e = .poll t memory → s.messages t = .stopCachePoolMgmt :: rest → False) →
      KeepsLife s e ∧ ∀ s', LifeSteps s e s' → ∃ p' t', InPhase p' t' s' := by
    intro hrun hpoll
    refine ⟨⟨?_, ?_, ?_, fun t memory rest he hq => (hpoll t memory rest he hq).elim⟩,
      fun s' hstep => nomatch hstep.symm.trans hrun⟩
    · rw [hrun]; exact nofun
    · rw [hrun]; exact nofun
    · rw [hrun]; exact nofun
  cases e with
  | mount =>
      obtain ⟨p', t', hphase⟩ := h.mount hok
      exact hgood rfl hphase nofun
  | unload i =>
      cases hi : s.loaded[i]? with
      | none => exact hnothing (by simp [GlobalCache.step, GlobalCache.unloadCb, hi]) nofun
      | some n =>
          obtain ⟨p', s', hrun, hphase⟩ := h.unload hi
          exact hgood hrun hphase nofun
  | insert i =>
      cases hi : s.loaded[i]? with
      | none => exact hnothing (by simp [GlobalCache.step, GlobalCache.cacheInsertBuffer, hi]) nofun
      | some n =>
          obtain ⟨s', hrun, hphase⟩ := h.insert hok hi
          exact hgood hrun hphase nofun
  | release i =>
      cases hi : s.loaded[i]? with
      | none => exact hnothing (by simp [GlobalCache.step, GlobalCache.releaseBuffer, hi]) nofun
      | some n =>
          cases n with
          | zero => exact hnothing (by simp [GlobalCache.step, GlobalCache.releaseBuffer, hi]) nofun
          | succ n =>
              obtain ⟨s', hrun, hphase⟩ := h.release hi
              exact hgood hrun hphase nofun
  | setCacheSize n => exact hgood rfl (h.setCacheSize n) nofun
  | poll t' memory =>
      obtain rfl : memory = true := hok
      cases hqueue : s.messages t' with
      | nil =>
          refine hnothing (by simp [GlobalCache.step, GlobalCache.poll, hqueue]) ?_
          intro t'' memory rest heq hstop
          cases heq
          cases hqueue.symm.trans hstop
      | cons fn rest =>
          obtain ⟨rfl, hphase⟩ := h.eq_of_cons hqueue
          cases fn with
          | startCachePoolMgmt =>
              obtain ⟨p', s', hrun, hnext⟩ := h.pollStart hphase
              refine hgood hrun hnext ?_
              intro t'' memory rest' heq hstop
              cases heq
              cases hqueue.symm.trans hstop
          | stopCachePoolMgmt =>
              obtain ⟨hmatched, p', s', hrun, hnext⟩ := h.pollStop hphase true
              refine hgood hrun hnext ?_
              intro t'' memory rest' heq _
              cases heq
              exact hmatched

end InPhase

/-- In every run whose steps are taken in turn, the pool is created and freed when it should
be, by its own thread, and no buffer is taken from it before or after. -/
theorem keepsLife_of_runs {s₀ s : GlobalCache} (hinitial : LifeInitial s₀)
    (hrun : Runs LifeSteps InTurn s₀ s) {e : LifeEvent} (hok : InTurn s e) : KeepsLife s e := by
  obtain ⟨p, t, hphase⟩ := hrun.keeps (P := fun s => ∃ p t, InPhase p t s)
    ⟨.down, 0, InPhase.initial hinitial⟩ fun ⟨p, t, hphase⟩ hok hstep =>
      (hphase.step hok).2 _ hstep
  exact (hphase.step hok).1

/-- The process before its first filesystem, with cache for one buffer. -/
def freshCache : GlobalCache where
  fsCount := 0
  cacheSize := 1
  cachePool := none
  mgmtPoller := none
  cachePoolThread := none
  brk := 0
  messages _ := []
  loaded := []

theorem freshCache_initial : LifeInitial freshCache where
  fsCount := rfl
  cachePool := rfl
  mgmtPoller := rfl
  messages := rfl
  loaded := rfl

/-- A filesystem comes, a file of it gets the buffer, and it goes again. -/
theorem keepsLife_of_runs_one :
    ∃ s, Runs LifeSteps InTurn freshCache s ∧ s.messages 0 = [.stopCachePoolMgmt] ∧
      KeepsLife s (.poll 0 true) := by
  have hmount : Runs LifeSteps InTurn freshCache _ :=
    .one (e := LifeEvent.mount) (fun _ t => List.not_mem_nil) rfl
  have hstart := hmount.tail (e := LifeEvent.poll 0 true) rfl rfl
  have hinsert := hstart.tail (e := LifeEvent.insert 0)
    (fun | 0 => List.not_mem_nil | _ + 1 => List.not_mem_nil) rfl
  have hunload := hinsert.tail (e := LifeEvent.unload 0) trivial rfl
  exact ⟨_, hunload, rfl, keepsLife_of_runs freshCache_initial hunload rfl⟩

/-- A filesystem is unloaded and another one loaded before the thread of the first comes to
its stop.  The thread of the second comes to its start first, and finds the pool of the
other. -/
theorem keepsLife_overtaken :
    ¬∀ s₀ s e, LifeInitial s₀ →
      Runs LifeSteps (fun _ e => ∀ t memory, e = .poll t memory → memory = true) s₀ s →
      (∀ t memory, e = .poll t memory → memory = true) → KeepsLife s e := by
  intro h
  have hpoll : ∀ t t' memory, LifeEvent.poll t true = .poll t' memory → memory = true := by
    rintro _ _ _ ⟨⟩
    rfl
  have hmount : Runs LifeSteps (fun _ e => ∀ t memory, e = .poll t memory → memory = true)
      freshCache _ := .one (e := LifeEvent.mount) nofun rfl
  have hstart := hmount.tail (e := LifeEvent.poll 0 true) (hpoll 0) rfl
  have hunload := hstart.tail (e := LifeEvent.unload 0) nofun rfl
  have hagain := hunload.tail (e := LifeEvent.mount) nofun rfl
  exact (h _ _ (.poll 1 true) freshCache_initial hagain (hpoll 1)).asserts rfl

end Nbfs.Cache
