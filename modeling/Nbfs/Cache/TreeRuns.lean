import Nbfs.Cache.TreeMap

set_option autoImplicit false

/-!
# Runs of calls on a cache tree

Over any run of insertions, removals and `tree_free_buffers` the tree is the set
of the buffers that are present, searched by offset.  Between the calls the rest
of the file system allocates buffers and sets their fields, but never moves one
that is in the tree.
-/

namespace Nbfs.Cache

/-- A cache tree and the buffers on the heap. -/
structure Cache where
  root : CacheTree
  buffers : Buffers

/-- A call on the tree, or what the rest of the code does to a buffer. -/
inductive Call where
  | insert (b : BufRef)
  | remove (b : BufRef)
  | free
  | store (b : BufRef) (buffer : CacheBuffer)

/-- Make one call. -/
def Call.run (c : Cache) : Call → Option Cache
  | .insert b => do
      let root ← treeInsertBuffer c.buffers c.root b
      some { c with root := root }
  | .remove b => do
      let (root, buffers) ← treeRemoveBuffer c.buffers c.root b
      some ⟨root, buffers⟩
  | .free => do
      let (root, freed) ← treeFreeBuffers c.buffers c.root
      some ⟨root, fun b => if b ∈ freed then none else c.buffers b⟩
  | .store b buffer => some { c with buffers := Function.update c.buffers b (some buffer) }

/-- Make calls one after the other. -/
def runCalls (c : Cache) (calls : List Call) : Option Cache := calls.foldlM Call.run c

/-- A zeroed root. -/
def Cache.zeroed (buffers : Buffers) : Cache := ⟨.zeroed 0, buffers⟩

/-! ## The set of buffers that are present -/

/-- The buffers that are in the tree, and all buffers on the heap. -/
structure Present where
  refs : List BufRef
  buffers : Buffers

namespace Present

/-- What a call does to the set. -/
def step (s : Present) : Call → Present
  | .insert b => { s with refs := b :: s.refs }
  | .remove b => ⟨s.refs.filter fun c => c ≠ b, Function.update s.buffers b none⟩
  | .free => ⟨s.refs.filter fun b => !idleIn s.buffers b,
      fun b => if b ∈ s.refs ∧ idleIn s.buffers b = true then none else s.buffers b⟩
  | .store b buffer => { s with buffers := Function.update s.buffers b (some buffer) }

/-- The callers keep to it: a buffer that is inserted starts at a multiple of
`CACHE_BUFFER_SIZE` below 2^60 where no buffer is present, a buffer that is removed is
present, and a present buffer stays where it is. -/
def Legal (s : Present) : Call → Prop
  | .insert b => ∃ buffer, s.buffers b = some buffer ∧ cacheBufferSize ∣ buffer.offset ∧
      buffer.offset < 2 ^ 60 ∧
      ∀ c ∈ s.refs, ∀ other, s.buffers c = some other → other.offset ≠ buffer.offset
  | .remove b => b ∈ s.refs
  | .free => True
  | .store b buffer => b ∈ s.refs →
      ∀ old, s.buffers b = some old → buffer.offset = old.offset

/-- Every call of the run is legal where it is made. -/
def LegalRun (s : Present) : List Call → Prop
  | [] => True
  | call :: calls => s.Legal call ∧ LegalRun (s.step call) calls

/-- The set after a run. -/
def run (s : Present) (calls : List Call) : Present := calls.foldl step s

/-- The buffer `b` is present and starts at the unit. -/
def Has (s : Present) (unit : Nat) (b : BufRef) : Prop :=
  b ∈ s.refs ∧ ∃ buffer, s.buffers b = some buffer ∧ buffer.offset = cacheBufferSize * unit

end Present

/-- The tree holds the present buffers. -/
structure Holds (c : Cache) (s : Present) : Prop where
  buffers : c.buffers = s.buffers
  aligned : ∀ b ∈ s.refs, ∃ unit, s.Has unit b
  tree : ∃ n, n ≤ 6 ∧ Leveled n c.root ∧ ∀ unit b, lookup n c.root unit = some b ↔ s.Has unit b

namespace Holds

variable {c : Cache} {s : Present}

theorem zeroed (buffers : Buffers) : Holds (.zeroed buffers) ⟨[], buffers⟩ where
  buffers := rfl
  aligned := fun _ hb => absurd hb List.not_mem_nil
  tree := ⟨0, Nat.zero_le 6, Leveled.zeroed 0, fun unit b => by
    have hnone : lookup 0 (CacheTree.zeroed 0) unit = none := by
      rw [lookup, bufferAt_zeroed]
      split <;> rfl
    simp [Cache.zeroed, hnone, Present.Has]⟩

/-- `tree_find_buffer` at any offset. -/
theorem find (h : Holds c s) (o : Nat) : ∃ r, treeFindBuffer c.root o = some r ∧
    ∀ b, r = some b ↔ b ∈ s.refs ∧ ∃ buffer, s.buffers b = some buffer ∧
      buffer.offset ≤ o ∧ o < buffer.offset + cacheBufferSize := by
  obtain ⟨n, hn, hleveled, hlookup⟩ := h.tree
  have hpos : 0 < cacheBufferSize := by decide
  have hfind : treeFindBuffer c.root o = some (lookup n c.root (o / cacheBufferSize)) := by
    unfold lookup
    by_cases ho : o < cacheBufferSize * 64 ^ (n + 1)
    · rw [treeFindBuffer_eq hleveled hn o ho, if_pos (Nat.div_lt_of_lt_mul ho)]
    · rw [treeFindBuffer_beyond hleveled hn (Nat.not_lt.mp ho), if_neg]
      rw [Nat.div_lt_iff_lt_mul hpos, Nat.mul_comm]
      exact ho
  refine ⟨_, hfind, fun b => (hlookup _ b).trans (and_congr_right fun hb => ?_)⟩
  obtain ⟨unit, -, buffer, hbuffer, hoffset⟩ := h.aligned b hb
  simp only [hbuffer, Option.some.injEq, exists_eq_left', hoffset]
  rw [Nat.mul_right_inj (Nat.ne_of_gt hpos), ← Nat.mul_succ, Nat.mul_comm _ unit,
    Nat.mul_comm _ (Nat.succ unit)]
  constructor
  · rintro rfl
    exact ⟨Nat.div_mul_le_self _ _, Nat.lt_mul_of_div_lt (Nat.lt_succ_self _) hpos⟩
  · rintro ⟨hle, hlt⟩
    exact (Nat.div_eq_of_lt_le hle hlt).symm

/-- A present buffer is found at its unit, within the root's range. -/
theorem at_unit {n : Nat}
    (hlookup : ∀ unit b, lookup n c.root unit = some b ↔ s.Has unit b) {unit : Nat} {b : BufRef}
    (hb : s.Has unit b) : unit < 64 ^ (n + 1) ∧ bufferAt n c.root unit = some b := by
  have hfound := (hlookup unit b).mpr hb
  unfold lookup at hfound
  split at hfound
  · exact ⟨‹_›, hfound⟩
  · cases hfound

theorem insert (h : Holds c s) {b : BufRef} (hlegal : s.Legal (.insert b)) :
    ∃ c', Call.run c (.insert b) = some c' ∧ Holds c' (s.step (.insert b)) := by
  obtain ⟨n, hn, hleveled, hlookup⟩ := h.tree
  obtain ⟨buffer, hbuffer, ⟨unit, hunit⟩, hsmall, hfree⟩ := hlegal
  have hpos : 0 < cacheBufferSize := by decide
  have hdiv : buffer.offset / cacheBufferSize = unit := by
    rw [hunit, Nat.mul_div_cancel_left _ hpos]
  have hbound : buffer.offset < cacheBufferSize * 64 ^ 7 := lt_of_lt_of_eq hsmall (by decide)
  have habsent : lookup n c.root (buffer.offset / cacheBufferSize) = none := by
    rw [Option.eq_none_iff_forall_ne_some]
    intro other hother
    obtain ⟨hmem, old, hold, hoffset⟩ := (hlookup _ other).mp hother
    exact hfree other hmem old hold (by rw [hoffset, hdiv, hunit])
  obtain ⟨m, root, hrun, hroot, hm, hnew⟩ :=
    treeInsertBuffer_eq hleveled hn (h.buffers ▸ hbuffer) hbound habsent
  refine ⟨{ c with root := root }, by rw [Call.run, hrun]; rfl, h.buffers, ?_, m, hm, hroot, ?_⟩
  · intro other hother
    rcases List.mem_cons.mp hother with rfl | hold
    · exact ⟨unit, List.mem_cons_self, buffer, hbuffer, hunit⟩
    · obtain ⟨u, -, hu⟩ := h.aligned other hold
      exact ⟨u, hother, hu⟩
  · intro u other
    rw [hnew, hdiv]
    constructor
    · intro hfound
      split at hfound
      · rename_i hu
        obtain rfl := Option.some.inj hfound
        exact ⟨List.mem_cons_self, buffer, hbuffer, hu ▸ hunit⟩
      · obtain ⟨hmem, hother⟩ := (hlookup u other).mp hfound
        exact ⟨List.mem_cons_of_mem _ hmem, hother⟩
    · rintro ⟨hmem, old, hold, hoffset⟩
      rcases List.mem_cons.mp hmem with rfl | hmem
      · obtain rfl : buffer = old := Option.some.inj (hbuffer.symm.trans hold)
        rw [if_pos (Nat.eq_of_mul_eq_mul_left hpos (hoffset.symm.trans hunit))]
      · have hu : u ≠ unit := fun heq => hfree other hmem old hold (by rw [hoffset, heq, hunit])
        rw [if_neg hu]
        exact (hlookup u other).mpr ⟨hmem, old, hold, hoffset⟩

theorem remove (h : Holds c s) {b : BufRef} (hlegal : s.Legal (.remove b)) :
    ∃ c', Call.run c (.remove b) = some c' ∧ Holds c' (s.step (.remove b)) := by
  obtain ⟨n, hn, hleveled, hlookup⟩ := h.tree
  obtain ⟨unit, hhas⟩ := h.aligned b hlegal
  obtain ⟨hunit, hat⟩ := at_unit hlookup hhas
  obtain ⟨-, buffer, hbuffer, hoffset⟩ := id hhas
  have hpos : 0 < cacheBufferSize := by decide
  have hdiv : buffer.offset / cacheBufferSize = unit := by
    rw [hoffset, Nat.mul_div_cancel_left _ hpos]
  obtain ⟨root, hrun, hroot, hrest⟩ :=
    removeBelow_eq b buffer.offset hleveled hn (by rw [hdiv, hat])
  rw [hdiv, Nat.mod_eq_of_lt hunit] at hrest
  have hcall : Call.run c (.remove b) = some ⟨root, Function.update c.buffers b none⟩ := by
    simp only [Call.run, treeRemoveBuffer, h.buffers, hbuffer, hrun, Option.bind_eq_bind,
      Option.bind_some]
  have hstep : ∀ u other, (s.step (.remove b)).Has u other ↔ s.Has u other ∧ other ≠ b := by
    intro u other
    unfold Present.Has Present.step
    by_cases hother : other = b
    · simp [hother]
    · simp [hother]
  refine ⟨_, hcall, by rw [h.buffers]; rfl, ?_, n, hn, hroot, ?_⟩
  · intro other hother
    obtain ⟨hmem, hne⟩ := List.mem_filter.mp hother
    obtain ⟨u, hu⟩ := h.aligned other hmem
    exact ⟨u, (hstep u other).mpr ⟨hu, by simpa using hne⟩⟩
  · intro u other
    rw [hstep, ← hlookup]
    unfold lookup
    by_cases hu : u < 64 ^ (n + 1)
    · rw [if_pos hu, if_pos hu, hrest u hu]
      by_cases heq : u = unit
      · rw [if_pos heq, heq, hat]
        simp [eq_comm]
      · rw [if_neg heq]
        refine (and_iff_left_of_imp fun hfound => ?_).symm
        rintro rfl
        have hother : s.Has u other := (hlookup u other).mp (by rw [lookup, if_pos hu, hfound])
        obtain ⟨-, old, hold, holdOffset⟩ := hother
        obtain rfl : buffer = old := Option.some.inj (hbuffer.symm.trans hold)
        exact heq (Nat.eq_of_mul_eq_mul_left hpos (holdOffset.symm.trans hoffset))
    · rw [if_neg hu, if_neg hu]
      simp

theorem free (h : Holds c s) : ∃ c', Call.run c .free = some c' ∧ Holds c' (s.step .free) := by
  obtain ⟨n, hn, hleveled, hlookup⟩ := h.tree
  have hat : ∀ u b, bufferAt n c.root u = some b → ∃ unit, s.Has unit b := by
    intro u b hb
    refine ⟨u % 64 ^ (n + 1), (hlookup _ b).mp ?_⟩
    rw [lookup, if_pos (Nat.mod_lt _ (Nat.pow_pos (by decide))),
      bufferAt_mod _ _ (Nat.lt_succ_self n), hb]
  obtain ⟨root, freed, hrun, hroot, hfreed⟩ := treeFreeBuffers_eq c.buffers hleveled
    (fun u b hb => by
      obtain ⟨unit, -, buffer, hbuffer, -⟩ := hat u b hb
      rw [h.buffers, hbuffer]
      rfl)
  have hgone : ∀ b, b ∈ freed ↔ b ∈ s.refs ∧ idleIn s.buffers b = true := by
    intro b
    rw [hfreed.gone, h.buffers, and_comm]
    refine and_congr_left fun _ => ⟨?_, fun hb => ?_⟩
    · rintro ⟨u, hu⟩
      obtain ⟨unit, hhas⟩ := hat u b hu
      exact hhas.1
    · obtain ⟨unit, hhas⟩ := h.aligned b hb
      exact ⟨unit, (at_unit hlookup hhas).2⟩
  have hstep : ∀ u b, (s.step .free).Has u b ↔ s.Has u b ∧ idleIn s.buffers b = false := by
    intro u b
    unfold Present.Has Present.step
    by_cases hidle : idleIn s.buffers b = true
    · simp [hidle]
    · simp [hidle]
  refine ⟨⟨root, fun b => if b ∈ freed then none else c.buffers b⟩, by rw [Call.run, hrun]; rfl, ?_,
    ?_, n, hn, hroot, ?_⟩
  · funext b
    simp only [hgone, h.buffers]
    rfl
  · intro b hb
    obtain ⟨hmem, hidle⟩ := List.mem_filter.mp hb
    obtain ⟨u, hu⟩ := h.aligned b hmem
    exact ⟨u, (hstep u b).mpr ⟨hu, by simpa using hidle⟩⟩
  · intro u b
    rw [hstep, ← hlookup]
    unfold lookup
    split
    · rw [hfreed.kept, h.buffers, Option.filter_eq_some_iff]
      simp
    · simp

theorem store (h : Holds c s) {b : BufRef} {buffer : CacheBuffer}
    (hlegal : s.Legal (.store b buffer)) :
    ∃ c', Call.run c (.store b buffer) = some c' ∧ Holds c' (s.step (.store b buffer)) := by
  obtain ⟨n, hn, hleveled, hlookup⟩ := h.tree
  have hstep : ∀ u other, (s.step (.store b buffer)).Has u other ↔ s.Has u other := by
    intro u other
    unfold Present.Has Present.step
    refine and_congr_right fun hmem => ?_
    by_cases hother : other = b
    · subst hother
      obtain ⟨unit, -, old, hold, -⟩ := h.aligned other hmem
      have hsame : buffer.offset = old.offset := hlegal hmem old hold
      simp [hold, hsame]
    · simp [hother]
  refine ⟨_, rfl, by rw [h.buffers]; rfl, ?_, n, hn, hleveled, ?_⟩
  · intro other hother
    obtain ⟨u, hu⟩ := h.aligned other hother
    exact ⟨u, (hstep u other).mpr hu⟩
  · exact fun u other => (hlookup u other).trans (hstep u other).symm

/-- One legal call. -/
theorem step (h : Holds c s) {call : Call} (hlegal : s.Legal call) :
    ∃ c', call.run c = some c' ∧ Holds c' (s.step call) := by
  cases call with
  | insert b => exact h.insert hlegal
  | remove b => exact h.remove hlegal
  | free => exact h.free
  | store b buffer => exact h.store hlegal

/-- A run of legal calls. -/
theorem runCalls : ∀ {calls : List Call} {c : Cache} {s : Present}, Holds c s →
    s.LegalRun calls → ∃ c', Nbfs.Cache.runCalls c calls = some c' ∧ Holds c' (s.run calls)
  | [], c, _, h, _ => ⟨c, rfl, h⟩
  | call :: calls, c, s, h, hlegal => by
      obtain ⟨c₁, hcall, h₁⟩ := h.step hlegal.1
      obtain ⟨c₂, hrest, h₂⟩ := runCalls h₁ hlegal.2
      refine ⟨c₂, ?_, h₂⟩
      rw [Nbfs.Cache.runCalls, List.foldlM_cons, hcall]
      exact hrest

end Holds

/-- After any run of legal calls from a zeroed root, a search at any offset finds the
present buffer whose range has the offset, or nothing; the buffers are those of the set;
and the masks and levels of the tree are right. -/
theorem treeFindBuffer_runCalls {buffers : Buffers} {calls : List Call}
    (hlegal : Present.LegalRun ⟨[], buffers⟩ calls) :
    ∃ c, runCalls (.zeroed buffers) calls = some c ∧
      c.buffers = (Present.run ⟨[], buffers⟩ calls).buffers ∧
      (∃ n, Leveled n c.root) ∧
      ∀ o, o < 2 ^ 64 → ∃ r, treeFindBuffer c.root o = some r ∧
        ∀ b, r = some b ↔ b ∈ (Present.run ⟨[], buffers⟩ calls).refs ∧
          ∃ buffer, c.buffers b = some buffer ∧
            buffer.offset ≤ o ∧ o < buffer.offset + cacheBufferSize := by
  obtain ⟨c, hrun, h⟩ := (Holds.zeroed buffers).runCalls hlegal
  obtain ⟨n, -, hleveled, -⟩ := h.tree
  refine ⟨c, hrun, h.buffers, ⟨n, hleveled⟩, fun o _ => ?_⟩
  rw [h.buffers]
  exact h.find o

/-- A buffer in the second unit, one above the range of level 0, and then a freeing. -/
def twoBuffers : List Call :=
  [.store 0 ⟨cacheBufferSize, 32, 0, false⟩, .insert 0,
    .store 1 ⟨cacheBufferSize * 64, 32, 32, false⟩, .insert 1, .free]

theorem treeFindBuffer_runCalls_two :
    ∃ c, runCalls (.zeroed fun _ => none) twoBuffers = some c ∧
      c.buffers = (Present.run ⟨[], fun _ => none⟩ twoBuffers).buffers ∧
      (∃ n, Leveled n c.root) ∧
      ∀ o, o < 2 ^ 64 → ∃ r, treeFindBuffer c.root o = some r ∧
        ∀ b, r = some b ↔ b ∈ (Present.run ⟨[], fun _ => none⟩ twoBuffers).refs ∧
          ∃ buffer, c.buffers b = some buffer ∧
            buffer.offset ≤ o ∧ o < buffer.offset + cacheBufferSize := by
  refine treeFindBuffer_runCalls ⟨fun hmem => absurd hmem List.not_mem_nil,
    ⟨_, rfl, Nat.dvd_refl _, by decide, fun c hc => absurd hc List.not_mem_nil⟩,
    fun hmem => absurd hmem (by decide),
    ⟨_, rfl, Nat.dvd_mul_right _ _, by decide, fun c hc other hother => ?_⟩, trivial, trivial⟩
  obtain rfl := List.mem_singleton.mp hc
  obtain rfl := Option.some.inj hother
  decide

end Nbfs.Cache
