import Nbfs.Lib.WellFormed

set_option autoImplicit false

/-!
# The leaves of a tree in order

A row of leaves is a list of leaves whose ranges follow one another.  Below every
cell of a well-formed tree there is one that covers the cell's range; each leaf's
next pointer names its successor in the row, and the entries of the row are those
of the map.
-/

namespace Nbfs.Lib.Forest

variable {K V : Type}

/-- The leaves `ls`, with the entries `es` in total, cover the range `[lo, hi)` from
left to right. -/
inductive LeafRow (F : Forest K V) : WithBot K → List Ref → List (K × V) → WithTop K → Prop where
  | last {a : Ref} {n : Cell K V} {es : List (K × V)} {next : Option Ref} : F a = some n →
      n.body = .leaf es next → LeafRow F n.lo [a] es n.hi
  | cons {a : Ref} {n : Cell K V} {es : List (K × V)} {next : Option Ref} {k : K} {ls : List Ref}
      {fs : List (K × V)} {hi : WithTop K} : F a = some n → n.body = .leaf es next →
      n.hi = (k : WithTop K) → LeafRow F (k : WithBot K) ls fs hi →
      LeafRow F n.lo (a :: ls) (es ++ fs) hi

namespace LeafRow

variable {F : Forest K V} {lo : WithBot K} {hi : WithTop K} {k : K} {ls ls' : List Ref}
  {es es' : List (K × V)}

/-- Two rows join at a boundary. -/
theorem append (h : LeafRow F lo ls es hi) (hk : hi = (k : WithTop K)) {hi' : WithTop K}
    (h' : LeafRow F (k : WithBot K) ls' es' hi') : LeafRow F lo (ls ++ ls') (es ++ es') hi' := by
  induction h with
  | last ha hb => exact .cons ha hb hk h'
  | cons ha hb hhi _ ih =>
      rw [List.append_assoc]
      exact .cons ha hb hhi (ih hk)

/-- A row starts with a leaf that starts where the row does. -/
theorem head (h : LeafRow F lo ls es hi) :
    ∃ a n es₁ next, ls.head? = some a ∧ F a = some n ∧ n.body = .leaf es₁ next ∧ n.lo = lo := by
  cases h with
  | last ha hb => exact ⟨_, _, _, _, rfl, ha, hb, rfl⟩
  | cons ha hb _ _ => exact ⟨_, _, _, _, rfl, ha, hb, rfl⟩

theorem leaf (h : LeafRow F lo ls es hi) :
    ∀ a ∈ ls, ∃ n es₁ next, F a = some n ∧ n.body = .leaf es₁ next := by
  induction h with
  | last ha hb =>
      intro b hmem
      rw [List.mem_singleton.mp hmem]
      exact ⟨_, _, _, ha, hb⟩
  | cons ha hb _ _ ih =>
      intro b hmem
      rcases List.mem_cons.mp hmem with rfl | hmem
      · exact ⟨_, _, _, ha, hb⟩
      · exact ih b hmem

end LeafRow

/-- Rows for the children make a row for their parent. -/
theorem Spans.leafRow {F : Forest K V} {p : Ref} {level : Nat} {hi : WithTop K} : ∀ {lo : WithBot K}
    {ks : List K} {cs : List Ref},
    Spans F p level lo ks cs hi →
      (∀ c ∈ cs, ∀ n, F c = some n → ∃ ls es, LeafRow F n.lo ls es n.hi) →
        ∃ ls es, LeafRow F lo ls es hi
  | lo, [], [c], ⟨n, hn, _, _, hlo, hhi⟩, hrow => by
      obtain ⟨ls, es, h⟩ := hrow c (by simp) n hn
      exact ⟨ls, es, hlo ▸ hhi ▸ h⟩
  | lo, k :: ks, c :: cs, ⟨⟨n, hn, _, _, hlo, hhi⟩, hrest⟩, hrow => by
      obtain ⟨ls, es, h⟩ := hrow c (by simp) n hn
      obtain ⟨ls', es', h'⟩ :=
        Spans.leafRow hrest fun d hd => hrow d (List.mem_cons_of_mem _ hd)
      exact ⟨ls ++ ls', es ++ es', hlo ▸ h.append hhi h'⟩
  | _, [], [], h, _ => absurd h (by simp [Spans])
  | _, [], _ :: _ :: _, h, _ => absurd h (by simp [Spans])
  | _, _ :: _, [], h, _ => absurd h (by simp [Spans])

variable [LinearOrder K] {lower upper : Nat} {F : Forest K V} {root : Ref}
  {content : K → Option V} {weak fat : Option Ref} {lo : WithBot K} {hi : WithTop K}
  {ls : List Ref} {es : List (K × V)}

namespace WF

/-- Below every cell there is a row that covers its range. -/
theorem leafRow (h : WF lower upper F root content weak fat) :
    ∀ (d : Nat) {a : Ref} {n : Cell K V}, F a = some n → n.level = d →
      ∃ ls es, LeafRow F n.lo ls es n.hi := by
  intro d
  induction d with
  | zero =>
      intro a n ha hlevel
      cases hb : n.body with
      | leaf es next => exact ⟨_, _, .last ha hb⟩
      | inner ks cs =>
          have hlen := (h.spans ha hb).length
          obtain ⟨c, hc⟩ : ∃ c, c ∈ cs := List.exists_mem_of_length_pos (by omega)
          obtain ⟨m, -, -, hlv⟩ := h.kid ha (by rw [Cell.kids_inner hb]; exact hc)
          omega
  | succ d ih =>
      intro a n ha hlevel
      cases hb : n.body with
      | leaf es next => exact ⟨_, _, .last ha hb⟩
      | inner ks cs =>
          refine (h.spans ha hb).leafRow fun c hc m hm => ?_
          obtain ⟨m', hm', -, hlv⟩ := h.kid ha (by rw [Cell.kids_inner hb]; exact hc)
          rw [hm] at hm'
          cases hm'
          exact ih hm (by omega)

/-- A leaf that ends at a key has a key in its range. -/
theorem leaf_inhabited (h : WF lower upper F root content weak fat) {a : Ref} {n : Cell K V} {k : K}
    (ha : F a = some n) (hk : n.hi = (k : WithTop K)) : ∃ q, InRange n.lo (k : WithTop K) q := by
  have hne : a ≠ root := by
    rintro rfl
    obtain ⟨r, hr, -, -, hhi, -⟩ := h.root_cell
    rw [ha] at hr
    cases hr
    rw [hhi] at hk
    exact WithTop.top_ne_coe hk
  exact hk ▸ (h.sound a n ha).inhabited hne

/-- The boundaries of a row after its first are keys above its start and below its
end. -/
theorem row_bounds (h : WF lower upper F root content weak fat)
    (hrow : LeafRow F lo ls es hi) : (∀ k : K, hi = (k : WithTop K) → lo < (k : WithBot K)) ∧
      ∀ a ∈ ls, ∀ n, F a = some n → lo ≤ n.lo := by
  induction hrow with
  | last ha hb =>
      refine ⟨fun k hk => ?_, fun b hmem m hm => ?_⟩
      · obtain ⟨q, hq⟩ := h.leaf_inhabited ha hk
        exact lt_of_le_of_lt hq.1 (WithBot.coe_lt_coe.mpr hq.lt_upper)
      · rw [List.mem_singleton.mp hmem, ha] at hm
        cases hm
        exact le_rfl
  | cons ha hb hk _ ih =>
      obtain ⟨q, hq⟩ := h.leaf_inhabited ha hk
      have hlt := lt_of_le_of_lt hq.1 (WithBot.coe_lt_coe.mpr hq.lt_upper)
      refine ⟨fun k' hk' => hlt.trans (ih.1 k' hk'), fun b hmem m hm => ?_⟩
      rcases List.mem_cons.mp hmem with rfl | hmem
      · rw [ha] at hm
        cases hm
        exact le_rfl
      · exact hlt.le.trans (ih.2 b hmem m hm)

/-- No leaf occurs twice. -/
theorem row_nodup (h : WF lower upper F root content weak fat) (hrow : LeafRow F lo ls es hi) :
    ls.Nodup := by
  induction hrow with
  | last _ _ => exact List.pairwise_singleton _ _
  | cons ha hb hk hrest ih =>
      refine List.nodup_cons.mpr ⟨fun hmem => ?_, ih⟩
      obtain ⟨q, hq⟩ := h.leaf_inhabited ha hk
      have hle := (h.row_bounds hrest).2 _ hmem _ ha
      have hlt := lt_of_le_of_lt hq.1 (WithBot.coe_lt_coe.mpr hq.lt_upper)
      exact absurd hle (not_le.mpr hlt)

/-- The entries of a row that reaches the top are those of the map in its range. -/
theorem row_holds (h : WF lower upper F root content weak fat) (hrow : LeafRow F lo ls es hi)
    (htop : hi = ⊤) : Holds content lo hi es := by
  induction hrow with
  | last ha hb => exact (h.holds ha hb).2.1
  | cons ha hb hk hrest ih =>
      obtain ⟨q, hq⟩ := h.leaf_inhabited ha hk
      have hleft := (h.holds ha hb).2.1
      rw [hk] at hleft
      refine hleft.join (ih htop) (hq.1.trans (WithBot.coe_le_coe.mpr hq.lt_upper.le)) ?_
      rw [htop]
      exact le_top

/-- Every key of the range belongs to a leaf of the row. -/
theorem row_covers (hrow : LeafRow F lo ls es hi) {q : K} (hq : InRange lo hi q) :
    ∃ a ∈ ls, ∃ n es₁ next, F a = some n ∧ n.body = .leaf es₁ next ∧ InRange n.lo n.hi q := by
  induction hrow with
  | last ha hb => exact ⟨_, List.mem_singleton_self _, _, _, _, ha, hb, hq⟩
  | @cons a n es₁ next k ls fs hi ha hb hk _ ih =>
      by_cases hkq : k ≤ q
      · obtain ⟨b, hmem, hrest⟩ := ih (hq.of_le hkq)
        exact ⟨b, List.mem_cons_of_mem _ hmem, hrest⟩
      · exact ⟨a, List.mem_cons_self, n, es₁, next, ha, hb, hk ▸ hq.of_lt (not_le.mp hkq)⟩

/-- A row from bottom to top has every leaf. -/
theorem mem_row [Nonempty K] (h : WF lower upper F root content weak fat)
    (hrow : LeafRow F ⊥ ls es ⊤) {a : Ref} {n : Cell K V} {es₁ : List (K × V)} {next : Option Ref}
    (ha : F a = some n) (hb : n.body = .leaf es₁ next) : a ∈ ls := by
  obtain ⟨q, hq⟩ : ∃ q, InRange n.lo n.hi q := by
    by_cases hne : a = root
    · obtain ⟨r, hr, -, hlo, hhi, -⟩ := h.root_cell
      rw [hne, hr] at ha
      cases ha
      obtain ⟨q⟩ := ‹Nonempty K›
      exact ⟨q, by rw [hlo, hhi]; exact inRange_bot_top q⟩
    · exact (h.sound a n ha).inhabited hne
  obtain ⟨b, hmem, m, es₂, next₂, hbm, hbb, hq'⟩ := row_covers hrow (inRange_bot_top q)
  have heq := h.unique_leaf ha hbm (h.holds ha hb).1 (h.holds hbm hbb).1 hq hq'
  exact heq ▸ hmem

/-- Leaves that start at the same place are one. -/
theorem unique_lo (h : WF lower upper F root content weak fat) {a b : Ref} {na nb : Cell K V}
    (ha : F a = some na) (hb : F b = some nb) (hla : na.level = 0) (hlb : nb.level = 0)
    (hlo : na.lo = nb.lo) : a = b := by
  obtain ⟨r, hr, -⟩ := h.root_cell
  by_cases hra : a = root
  · rw [hra] at ha ⊢
    exact (h.only_root ha hla hb).symm
  by_cases hrb : b = root
  · rw [hrb] at hb ⊢
    exact h.only_root hb hlb ha
  obtain ⟨q₁, hq₁⟩ := (h.sound a na ha).inhabited hra
  obtain ⟨q₂, hq₂⟩ := (h.sound b nb hb).inhabited hrb
  rcases le_total q₁ q₂ with hle | hle
  · exact h.unique_leaf ha hb hla hlb hq₁
      ⟨hlo ▸ hq₁.1, lt_of_le_of_lt (WithTop.coe_le_coe.mpr hle) hq₂.2⟩
  · exact h.unique_leaf ha hb hla hlb
      ⟨hlo ▸ hq₂.1, lt_of_le_of_lt (WithTop.coe_le_coe.mpr hle) hq₁.2⟩ hq₂

/-- The next pointer of a leaf names the one after it in the row. -/
theorem next_eq_head (h : WF lower upper F root content weak fat) {a : Ref} {n : Cell K V}
    {es₁ : List (K × V)} {next : Option Ref} {k : K} (ha : F a = some n)
    (hb : n.body = .leaf es₁ next) (hk : n.hi = (k : WithTop K))
    (hrow : LeafRow F (k : WithBot K) ls es hi) : next = ls.head? := by
  obtain ⟨b, m, es₂, next₂, hhead, hm, hmb, hlo⟩ := hrow.head
  rw [hhead]
  have hnext := (h.holds ha hb).2.2
  rw [hk] at hnext
  cases next with
  | none => exact absurd hnext WithTop.coe_ne_top
  | some c =>
      obtain ⟨mc, es₃, next₃, k', hmc, hcb, hkk, hclo⟩ := hnext
      have hkk' : k = k' := WithTop.coe_inj.mp hkk
      refine congrArg some (h.unique_lo hmc hm (h.holds hmc hcb).1 (h.holds hm hmb).1 ?_)
      rw [hclo, hlo, hkk']

/-- The last leaf has no next one. -/
theorem next_eq_none (h : WF lower upper F root content weak fat) {a : Ref} {n : Cell K V}
    {es₁ : List (K × V)} {next : Option Ref} (ha : F a = some n) (hb : n.body = .leaf es₁ next)
    (htop : n.hi = ⊤) : next = none := by
  have hnext := (h.holds ha hb).2.2
  rw [htop] at hnext
  cases next with
  | none => rfl
  | some c =>
      obtain ⟨-, -, -, k', -, -, hk, -⟩ := hnext
      exact absurd hk WithTop.top_ne_coe

end WF

end Nbfs.Lib.Forest
