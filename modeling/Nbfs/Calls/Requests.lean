import Nbfs.Lib.Runs
import Mathlib.Algebra.Group.Nat.Defs
import Mathlib.Data.List.Nodup
import Mathlib.Data.List.Range

set_option autoImplicit false

/-!
# The requests of a thread context (`lib/NBFS/NBFS.c`)

A channel has all its requests from the beginning.  The client takes them one at a time; the
client and the threads that work for it put them back, in any order, and a part of a function
that `channel->lock` protects is one step.  The client ends with `spdk_fs_free_thread_ctx`,
which waits until all requests are back.
-/

namespace Nbfs.Calls

open Nbfs.Lib

/-- A request of `req_mem`. -/
abbrev ReqRef := Nat

/-- An array of iovs. -/
abbrev IovRef := Nat

/-- The part of `struct spdk_fs_cb_args` that the pool uses; `iovs` is `none` for `&args.iov`, and
for `NULL` before it is set. -/
structure ReqArgs where
  iovs : Option IovRef
  iovcnt : Nat
  small : iovcnt ≤ 1 → iovs = none

/-- What the client of the channel is at. -/
inductive Caller where
  | idle
  /-- `alloc_fs_request_with_iov`, before it takes a request. -/
  | allocates (args : ReqArgs)
  /-- `alloc_fs_request_with_iov`, with what it took. -/
  | took (args : ReqArgs) (req : Option ReqRef)
  /-- The loop of `spdk_fs_free_thread_ctx`. -/
  | waits
  /-- `spdk_fs_free_thread_ctx` after its loop. -/
  | leaves
  | gone

/-- What a request is at, that is not in the pool. -/
inductive User where
  | uses (req : ReqRef)
  /-- `free_fs_request`, with the iovs freed. -/
  | puts (req : ReqRef)

def User.req : User → ReqRef
  | uses req => req
  | puts req => req

/-- `struct spdk_fs_channel`, with its client and what uses its requests. -/
structure FsChannel where
  reqs : List ReqRef
  sem : Nat
  outstandingReqs : Nat
  args : ReqRef → ReqArgs
  /-- The arrays of iovs that are allocated. -/
  live : List IovRef
  brk : Nat
  caller : Caller
  users : List User
  /-- `spdk_fs_free_thread_ctx` has freed it. -/
  freed : Bool
  /-- `fs_channel_destroy` had something to say. -/
  complained : Bool

inductive ChannelFault where
  | noEvent
  | usedAfterFree
  | doubleFree

/-- `fs_channel_create`, where `calloc` has memory or not; `spdk_fs_alloc_thread_ctx` does not
look at what it returns. -/
def fsChannelCreate (maxOps : Nat) (memory : Bool) : FsChannel where
  reqs := if memory then List.range maxOps else []
  sem := 0
  outstandingReqs := 0
  args := fun _ => ⟨none, 0, fun _ => rfl⟩
  live := []
  brk := 0
  caller := .idle
  users := []
  freed := false
  complained := false

inductive ChannelEvent where
  /-- `alloc_fs_request_with_iov`, where `calloc` has memory or not. -/
  | alloc (iovcnt : Nat) (memory : Bool)
  /-- The part of it with the lock. -/
  | take
  /-- The rest of it. -/
  | fill
  /-- `sem_wait(&channel->sem)`. -/
  | wait
  /-- `sem_post(&channel->sem)` for a request that is in use. -/
  | post (i : Nat)
  /-- `free_fs_request`. -/
  | free (i : Nat)
  /-- The part of it with the lock. -/
  | put (i : Nat)
  /-- `spdk_fs_free_thread_ctx`. -/
  | freeThreadCtx
  /-- A round of its loop. -/
  | poll
  /-- `fs_channel_destroy`, and the end of `spdk_fs_free_thread_ctx`. -/
  | destroy

namespace FsChannel

variable (s : FsChannel)

/-- An access to the channel or to one of its requests. -/
def access (s' : FsChannel) : Except ChannelFault FsChannel :=
  if s.freed then .error .usedAfterFree else .ok s'

/-- `free(iovs)`. -/
def freeIovs : Option IovRef → Except ChannelFault FsChannel
  | none => .ok s
  | some r => if r ∈ s.live then .ok { s with live := s.live.erase r } else .error .doubleFree

def step : ChannelEvent → Except ChannelFault FsChannel
  | .alloc iovcnt memory =>
      match s.caller with
      | .idle =>
          if h : 1 < iovcnt then
            if memory then
              .ok { s with
                caller := .allocates ⟨some s.brk, iovcnt, fun hle => absurd hle (Nat.not_le.mpr h)⟩
                live := s.brk :: s.live
                brk := s.brk + 1 }
            else .ok s
          else .ok { s with caller := .allocates ⟨none, iovcnt, fun _ => rfl⟩ }
      | _ => .error .noEvent
  | .take =>
      match s.caller with
      | .allocates args =>
          match s.reqs with
          | [] => s.access { s with caller := .took args none }
          | req :: reqs => s.access { s with
              reqs
              outstandingReqs := (s.outstandingReqs + 1) % 2 ^ 32
              caller := .took args (some req) }
      | _ => .error .noEvent
  | .fill =>
      match s.caller with
      | .took args none => { s with caller := .idle }.freeIovs args.iovs
      | .took args (some req) => s.access { s with
          args := Function.update s.args req args
          caller := .idle
          users := .uses req :: s.users }
      | _ => .error .noEvent
  | .wait =>
      match s.caller with
      | .idle => if 0 < s.sem then s.access { s with sem := s.sem - 1 } else .error .noEvent
      | _ => .error .noEvent
  | .post i =>
      match s.users[i]? with
      | some (.uses _) => s.access { s with sem := s.sem + 1 }
      | _ => .error .noEvent
  | .free i =>
      match s.users[i]? with
      | some (.uses req) => do
          let s ← s.access { s with users := .puts req :: s.users.eraseIdx i }
          if 1 < (s.args req).iovcnt then s.freeIovs (s.args req).iovs else .ok s
      | _ => .error .noEvent
  | .put i =>
      match s.users[i]? with
      | some (.puts req) => s.access { s with
          reqs := req :: s.reqs
          outstandingReqs := (s.outstandingReqs + (2 ^ 32 - 1)) % 2 ^ 32
          users := s.users.eraseIdx i }
      | _ => .error .noEvent
  | .freeThreadCtx =>
      match s.caller with
      | .idle => .ok { s with caller := .waits }
      | _ => .error .noEvent
  | .poll =>
      match s.caller with
      | .waits => s.access (if s.outstandingReqs = 0 then { s with caller := .leaves } else s)
      | _ => .error .noEvent
  | .destroy =>
      match s.caller with
      | .leaves => s.access { s with
          complained := decide (0 < s.outstandingReqs), caller := .gone, freed := true }
      | _ => .error .noEvent

end FsChannel

namespace Caller

/-- The request that the client has taken and that is not in use yet. -/
@[simp] def reqs : Caller → List ReqRef
  | took _ req => req.toList
  | _ => []

/-- The iovs that the client has allocated for a request. -/
@[simp] def iovs : Caller → List IovRef
  | allocates args => args.iovs.toList
  | took args _ => args.iovs.toList
  | _ => []

/-- `spdk_fs_free_thread_ctx` is past its loop. -/
@[simp] def left : Caller → Bool
  | leaves | gone => true
  | _ => false

end Caller

namespace FsChannel

variable (s : FsChannel)

/-- The requests that are not in the pool. -/
def held : List ReqRef := s.caller.reqs ++ s.users.map User.req

/-- The iovs that go with a request. -/
def iovsOf : User → Option IovRef
  | .uses req => (s.args req).iovs
  | .puts _ => none

/-- The arrays of iovs that someone is to free. -/
def heldIovs : List IovRef := s.caller.iovs ++ s.users.filterMap s.iovsOf

theorem filterMap_uses (req : ReqRef) (users : List User) :
    (User.uses req :: users).filterMap s.iovsOf =
      (s.args req).iovs.toList ++ users.filterMap s.iovsOf := by
  rw [List.filterMap_cons, iovsOf]
  cases (s.args req).iovs <;> rfl

end FsChannel

/-- Nothing of the channel is lost or held twice, while `iovs` is being freed. -/
structure Pooled (n : Nat) (iovs : Option IovRef) (s : FsChannel) : Prop where
  requests : (s.reqs ++ s.held).Perm (List.range n)
  outstanding : s.outstandingReqs = s.held.length
  iovs : s.live.Perm (iovs.toList ++ s.heldIovs)
  nodup : s.live.Nodup
  fresh : ∀ r ∈ s.live, r < s.brk
  left : s.caller.left = true → s.users = []
  freed : s.freed = true → s.caller = .gone
  quiet : s.complained = false

/-- What a step may come to. -/
def Fine (n : Nat) : Except ChannelFault FsChannel → Prop
  | .ok s => Pooled n none s
  | .error fault => fault = .noEvent

namespace Pooled

variable {n : Nat} {iovs : Option IovRef} {s s' : FsChannel} {i : Nat} {req : ReqRef}

theorem length (h : Pooled n iovs s) : s.reqs.length + s.held.length = n := by
  have hlength := h.requests.length_eq
  rwa [List.length_append, List.length_range] at hlength

/-- What is in use, is used by one. -/
theorem held_nodup (h : Pooled n iovs s) : s.held.Nodup :=
  (List.nodup_append.mp (h.requests.nodup_iff.mpr List.nodup_range)).2.1

theorem access (hfreed : s.freed = false) (h : Pooled n none s') : Fine n (s.access s') := by
  unfold FsChannel.access
  rw [hfreed]
  exact h

/-- While the client is there, the channel is. -/
theorem caller_there (h : Pooled n iovs s) (hcaller : s.caller ≠ .gone) : s.freed = false :=
  Bool.eq_false_iff.mpr fun hfreed => hcaller (h.freed hfreed)

/-- While a request is in use, the client has not left, and the channel is there. -/
theorem user_there (h : Pooled n iovs s) {u : User} (hu : s.users[i]? = some u) :
    s.caller.left = false ∧ s.freed = false := by
  have hleft : s.caller.left = false := Bool.eq_false_iff.mpr fun hleft => by
    rw [h.left hleft] at hu
    cases hu
  refine ⟨hleft, h.caller_there fun hgone => ?_⟩
  rw [hgone] at hleft
  cases hleft

theorem freeIovs (h : Pooled n iovs s) : Fine n (s.freeIovs iovs) := by
  unfold FsChannel.freeIovs
  cases iovs with
  | none => exact h
  | some r =>
      dsimp only
      have hmem : r ∈ s.live := h.iovs.mem_iff.mpr (List.mem_cons_self ..)
      rw [if_pos hmem]
      have herased : (s.live.erase r).Perm s.heldIovs := by
        have hperm := h.iovs.erase r
        rwa [Option.toList_some, List.singleton_append, List.erase_cons_head] at hperm
      exact {
        h with
        iovs := herased
        nodup := h.nodup.erase r
        fresh := fun x hx => h.fresh x (List.mem_of_mem_erase hx) }

/-- `calloc` of the iovs. -/
theorem newIovs (h : Pooled n none s) :
    Pooled n (some s.brk) { s with live := s.brk :: s.live, brk := s.brk + 1 } := {
  h with
  iovs := h.iovs.cons s.brk
  nodup := List.nodup_cons.mpr ⟨fun hmem => Nat.lt_irrefl _ (h.fresh _ hmem), h.nodup⟩
  fresh := fun r hr => (List.mem_cons.mp hr).elim (fun heq => heq ▸ Nat.lt_succ_self _)
    fun hold => (h.fresh r hold).trans (Nat.lt_succ_self _) }

/-- The client goes on, with the same of the channel. -/
theorem goesOn (h : Pooled n iovs s) {caller : Caller} {iovs' : Option IovRef}
    (hthere : s.freed = false) (hreqs : caller.reqs = s.caller.reqs)
    (hiovs : iovs'.toList ++ caller.iovs = iovs.toList ++ s.caller.iovs)
    (hleft : caller.left = true → s.users = []) : Pooled n iovs' { s with caller } where
  requests := by
    have hrequests := h.requests
    unfold FsChannel.held at hrequests
    rwa [← hreqs] at hrequests
  outstanding := by
    have houtstanding := h.outstanding
    unfold FsChannel.held at houtstanding
    rwa [← hreqs] at houtstanding
  iovs := by
    have hperm := h.iovs
    unfold FsChannel.heldIovs at hperm
    rwa [← List.append_assoc, ← hiovs, List.append_assoc] at hperm
  nodup := h.nodup
  fresh := h.fresh
  left := hleft
  freed := fun hfreed => absurd (hthere.symm.trans hfreed) Bool.false_ne_true
  quiet := h.quiet

/-! ### The steps -/

/-- The client allocates the iovs of a request. -/
theorem alloc (h : Pooled n none s) (iovcnt : Nat) (memory : Bool) :
    Fine n (s.step (.alloc iovcnt memory)) := by
  unfold FsChannel.step
  dsimp only
  split
  · rename_i hcaller
    have hthere : s.freed = false := h.caller_there (by simp [hcaller])
    split
    · split
      · exact h.newIovs.goesOn hthere (by simp [hcaller]) (by simp [hcaller]) (by simp)
      · exact h
    · exact h.goesOn hthere (by simp [hcaller]) (by simp [hcaller]) (by simp)
  · rfl

/-- The client takes a request, if there is one. -/
theorem take (h : Pooled n none s) (hn : n < 2 ^ 32) : Fine n (s.step .take) := by
  unfold FsChannel.step
  dsimp only
  split
  · rename_i args hcaller
    have hthere : s.freed = false := h.caller_there (by simp [hcaller])
    split
    · exact access hthere (h.goesOn hthere (by simp [hcaller]) (by simp [hcaller]) (by simp))
    · rename_i req reqs hreqs
      have hrequests := h.requests
      have hlength := h.length
      have houtstanding := h.outstanding
      have hiovs := h.iovs
      unfold FsChannel.held at hrequests hlength houtstanding
      unfold FsChannel.heldIovs at hiovs
      rw [hcaller] at hrequests hlength houtstanding hiovs
      rw [hreqs] at hrequests hlength
      refine access hthere {
        h with
        requests := List.perm_middle.trans hrequests
        outstanding := ?_
        iovs := hiovs
        left := fun hleft => by cases hleft
        freed := fun hfreed => absurd (hthere.symm.trans hfreed) Bool.false_ne_true }
      rw [List.length_cons] at hlength
      dsimp only [FsChannel.held, Caller.reqs, Option.toList_some]
      rw [houtstanding, Nat.mod_eq_of_lt (by omega)]
      rfl
  · rfl

/-- The client fills in what it took, or gives up. -/
theorem fill (h : Pooled n none s) : Fine n (s.step .fill) := by
  unfold FsChannel.step
  dsimp only
  split
  · rename_i args hcaller
    have hthere : s.freed = false := h.caller_there (by simp [hcaller])
    have hgivesUp : Pooled n args.iovs { s with caller := .idle } :=
      h.goesOn hthere (by simp [hcaller]) (by simp [hcaller]) (by simp)
    exact hgivesUp.freeIovs
  · rename_i args req hcaller
    have hthere : s.freed = false := h.caller_there (by simp [hcaller])
    have hrequests := h.requests
    have houtstanding := h.outstanding
    have hiovs := h.iovs
    have hnodup := h.held_nodup
    unfold FsChannel.held at hrequests houtstanding hnodup
    unfold FsChannel.heldIovs at hiovs
    rw [hcaller] at hrequests houtstanding hiovs hnodup
    have hother : req ∉ s.users.map User.req := (List.nodup_cons.mp hnodup).1
    have hsame : ∀ u ∈ s.users, { s with args := Function.update s.args req args }.iovsOf u =
        s.iovsOf u := by
      intro u hu
      cases u with
      | uses req' =>
          have hne : req' ≠ req := fun heq => hother (heq ▸ List.mem_map_of_mem hu)
          exact congrArg ReqArgs.iovs (Function.update_of_ne hne args s.args)
      | puts req' => rfl
    have hall : (User.uses req :: s.users).filterMap
        { s with args := Function.update s.args req args }.iovsOf =
          args.iovs.toList ++ s.users.filterMap s.iovsOf := by
      rw [FsChannel.filterMap_uses, List.filterMap_congr hsame]
      dsimp only
      rw [Function.update_self]
    exact access hthere {
      h with
      requests := hrequests
      outstanding := houtstanding
      iovs := hiovs.trans (List.Perm.of_eq hall.symm)
      left := fun hleft => by cases hleft
      freed := fun hfreed => absurd (hthere.symm.trans hfreed) Bool.false_ne_true }
  · rfl

/-- `free_fs_request`, before its lock. -/
theorem free (h : Pooled n none s) (i : Nat) : Fine n (s.step (.free i)) := by
  unfold FsChannel.step
  dsimp only
  split
  · rename_i req hu
    obtain ⟨hleft, hthere⟩ := h.user_there hu
    have hperm := taken_perm hu
    have hput : Pooled n (s.args req).iovs
        { s with users := .puts req :: s.users.eraseIdx i } := {
      h with
      requests := (((hperm.map User.req).symm.append_left _).append_left _).trans h.requests
      outstanding := by
        rw [h.outstanding]
        exact ((hperm.map User.req).append_left _).length_eq
      iovs := by
        refine h.iovs.trans (((hperm.filterMap s.iovsOf).append_left _).trans ?_)
        rw [s.filterMap_uses]
        exact List.perm_append_comm_assoc _ _ _
      left := fun hleft' => absurd (hleft.symm.trans hleft') Bool.false_ne_true }
    unfold FsChannel.access
    rw [if_neg (by rw [hthere]; exact Bool.false_ne_true)]
    dsimp only [bind, Except.bind]
    split
    · exact hput.freeIovs
    · rename_i hcount
      rwa [(s.args req).small (Nat.le_of_not_lt hcount)] at hput
  · rfl

/-- `free_fs_request` with its lock. -/
theorem put (h : Pooled n none s) (hn : n < 2 ^ 32) (i : Nat) : Fine n (s.step (.put i)) := by
  unfold FsChannel.step
  dsimp only
  split
  · rename_i req hu
    obtain ⟨hleft, hthere⟩ := h.user_there hu
    have hperm := taken_perm hu
    have hheld : s.held.Perm (req :: (s.caller.reqs ++ (s.users.eraseIdx i).map User.req)) :=
      ((hperm.map User.req).append_left _).trans List.perm_middle
    have hlength := h.length
    have hcount : s.held.length = (s.caller.reqs ++ (s.users.eraseIdx i).map User.req).length + 1 :=
      hheld.length_eq
    exact access hthere {
      h with
      requests := (List.perm_middle.symm.trans (hheld.symm.append_left _)).trans h.requests
      outstanding := by
        dsimp only [FsChannel.held]
        rw [h.outstanding]
        omega
      iovs := h.iovs.trans ((hperm.filterMap s.iovsOf).append_left _)
      left := fun hleft' => absurd (hleft.symm.trans hleft') Bool.false_ne_true }
  · rfl

theorem wait (h : Pooled n none s) : Fine n (s.step .wait) := by
  unfold FsChannel.step
  dsimp only
  split
  · rename_i hcaller
    split
    · exact access (h.caller_there (by simp [hcaller])) { h with }
    · rfl
  · rfl

theorem post (h : Pooled n none s) (i : Nat) : Fine n (s.step (.post i)) := by
  unfold FsChannel.step
  dsimp only
  split
  · rename_i hu
    exact access (h.user_there hu).2 { h with }
  · rfl

theorem freeThreadCtx (h : Pooled n none s) : Fine n (s.step .freeThreadCtx) := by
  unfold FsChannel.step
  dsimp only
  split
  · rename_i hcaller
    exact h.goesOn (h.caller_there (by simp [hcaller])) (by rw [hcaller]; rfl)
      (by simp [hcaller]) (by simp)
  · rfl

/-- The loop ends when no request is in use. -/
theorem poll (h : Pooled n none s) : Fine n (s.step .poll) := by
  unfold FsChannel.step
  dsimp only
  split
  · rename_i hcaller
    have hthere : s.freed = false := h.caller_there (by simp [hcaller])
    refine access hthere ?_
    split
    · rename_i hnone
      have hheld : s.held = [] := List.eq_nil_of_length_eq_zero (h.outstanding.symm.trans hnone)
      have husers : s.users = [] := List.map_eq_nil_iff.mp (List.append_eq_nil_iff.mp hheld).2
      exact h.goesOn hthere (by simp [hcaller]) (by simp [hcaller]) fun _ => husers
    · exact h
  · rfl

theorem destroy (h : Pooled n none s) : Fine n (s.step .destroy) := by
  unfold FsChannel.step
  dsimp only
  split
  · rename_i hcaller
    have hthere : s.freed = false := h.caller_there (by simp [hcaller])
    have husers := h.left (by rw [hcaller]; rfl)
    have hgone : Pooled n none { s with caller := .gone } :=
      h.goesOn hthere (by simp [hcaller]) (by simp [hcaller]) fun _ => husers
    have hheld : s.held = [] := by
      unfold FsChannel.held
      rw [hcaller, husers]
      rfl
    refine access hthere { hgone with freed := fun _ => rfl, quiet := ?_ }
    rw [h.outstanding, hheld]
    rfl
  · rfl

theorem step (h : Pooled n none s) (hn : n < 2 ^ 32) (e : ChannelEvent) : Fine n (s.step e) := by
  cases e with
  | alloc iovcnt memory => exact h.alloc iovcnt memory
  | take => exact h.take hn
  | fill => exact h.fill
  | wait => exact h.wait
  | post i => exact h.post i
  | free i => exact h.free i
  | put i => exact h.put hn i
  | freeThreadCtx => exact h.freeThreadCtx
  | poll => exact h.poll
  | destroy => exact h.destroy

theorem initial (maxOps : Nat) (memory : Bool) :
    Pooled (if memory then maxOps else 0) none (fsChannelCreate maxOps memory) where
  requests := by
    cases memory with
    | true => exact .of_eq (List.append_nil _)
    | false => exact .refl _
  outstanding := rfl
  iovs := .refl _
  nodup := List.nodup_nil
  fresh := fun r hr => by cases hr
  left := fun _ => rfl
  freed := fun hfreed => by cases hfreed
  quiet := rfl

end Pooled

/-- What is kept of a channel with `n` requests. -/
structure RequestsKept (n : Nat) (s : FsChannel) : Prop where
  /-- Each request is in the pool or in use, by one. -/
  requests : (s.reqs ++ s.held).Perm (List.range n)
  outstanding : s.outstandingReqs = s.held.length
  /-- Each array of iovs is to be freed by one. -/
  iovs : s.live.Perm s.heldIovs
  once : s.heldIovs.Nodup
  safe : ∀ e fault, s.step e = .error fault → fault = .noEvent
  freed : s.freed = true → s.reqs.Perm (List.range n) ∧ s.live = [] ∧ s.complained = false

theorem Pooled.kept {n : Nat} {s : FsChannel} (h : Pooled n none s) (hn : n < 2 ^ 32) :
    RequestsKept n s where
  requests := h.requests
  outstanding := h.outstanding
  iovs := h.iovs
  once := h.iovs.nodup_iff.mp h.nodup
  safe := fun e fault hfault => by
    have hfine := h.step hn e
    rwa [hfault] at hfine
  freed := fun hfreed => by
    have hgone := h.freed hfreed
    have husers := h.left (by rw [hgone]; rfl)
    have hrequests := h.requests
    have hiovs := h.iovs
    unfold FsChannel.held at hrequests
    unfold FsChannel.heldIovs at hiovs
    rw [hgone, husers] at hrequests hiovs
    exact ⟨by rwa [← List.append_nil s.reqs], List.perm_nil.mp hiovs, h.quiet⟩

end Nbfs.Calls
