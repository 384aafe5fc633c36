import Nbfs.Lib.Entries

set_option autoImplicit false

/-!
# Search trees over references

A B+ tree whose nodes name each other by reference is a partial map from
references to cells.  A cell carries, besides its contents, the key range it is
responsible for.  Ranges turn the shape of the whole tree into facts about a
cell and its children: the ranges of the children of a node are cut out of its
own by its keys, and a leaf names as its next leaf the one whose range starts
where its own ends.
-/

namespace Nbfs.Lib

/-- A reference to a cell. -/
abbrev Ref := Nat

/-- What a cell holds: entries and the next leaf, or separators and children. -/
inductive Body (K V : Type) where
  | leaf (es : List (K × V)) (next : Option Ref)
  | inner (ks : List K) (cs : List Ref)

/-- A cell with its parent, its height above the leaves and its key range. -/
structure Cell (K V : Type) where
  par : Option Ref
  level : Nat
  lo : WithBot K
  hi : WithTop K
  body : Body K V

/-- The allocated cells. -/
abbrev Forest (K V : Type) := Ref → Option (Cell K V)

namespace Cell

variable {K V : Type}

/-- The children a cell names. -/
def kids (n : Cell K V) : List Ref :=
  match n.body with
  | .leaf _ _ => []
  | .inner _ cs => cs

/-- The keys stored in a cell. -/
def keys (n : Cell K V) : List K :=
  match n.body with
  | .leaf es _ => es.map Prod.fst
  | .inner ks _ => ks

theorem kids_leaf {n : Cell K V} {es : List (K × V)} {next : Option Ref}
    (h : n.body = .leaf es next) : n.kids = [] := by
  simp [kids, h]

theorem kids_inner {n : Cell K V} {ks : List K} {cs : List Ref}
    (h : n.body = .inner ks cs) : n.kids = cs := by
  simp [kids, h]

theorem keys_leaf {n : Cell K V} {es : List (K × V)} {next : Option Ref}
    (h : n.body = .leaf es next) : n.keys = es.map Prod.fst := by
  simp [keys, h]

theorem keys_inner {n : Cell K V} {ks : List K} {cs : List Ref}
    (h : n.body = .inner ks cs) : n.keys = ks := by
  simp [keys, h]

end Cell

namespace Forest

variable {K V : Type}

/-- `c` is a child of `p`, just below `level`, responsible for `[lo, hi)`. -/
def ChildAt (F : Forest K V) (p : Ref) (level : Nat) (lo : WithBot K) (hi : WithTop K)
    (c : Ref) : Prop :=
  ∃ n, F c = some n ∧ n.par = some p ∧ n.level + 1 = level ∧ n.lo = lo ∧ n.hi = hi

/-- The children `cs` of `p` are responsible for the ranges that the separators
`ks` cut `[lo, hi)` into. -/
def Spans (F : Forest K V) (p : Ref) (level : Nat) :
    WithBot K → List K → List Ref → WithTop K → Prop
  | lo, [], [c], hi => ChildAt F p level lo hi c
  | lo, k :: ks, c :: cs, hi =>
      ChildAt F p level lo (k : WithTop K) c ∧ Spans F p level (k : WithBot K) ks cs hi
  | _, _, _, _ => False

/-- `next` is the leaf whose range starts at `hi`; there is none at the top. -/
def NextOK (F : Forest K V) (hi : WithTop K) : Option Ref → Prop
  | none => hi = ⊤
  | some b => ∃ m es next k, F b = some m ∧ m.body = .leaf es next ∧
      hi = ((k : K) : WithTop K) ∧ m.lo = (k : WithBot K)

theorem nextOK_none {F : Forest K V} {hi : WithTop K} : NextOK F hi none ↔ hi = ⊤ := Iff.rfl

/-! ## Children and their ranges -/

section Spans

variable {F F' : Forest K V} {p : Ref} {level : Nat} {lo : WithBot K} {hi : WithTop K}

/-- The parts of a cell its parent looks at are unchanged. -/
def SameView (F F' : Forest K V) (c : Ref) : Prop :=
  ∀ n, F c = some n → ∃ n', F' c = some n' ∧ n'.par = n.par ∧ n'.level = n.level ∧
    n'.lo = n.lo ∧ n'.hi = n.hi

theorem sameView_of_eq {c : Ref} (h : F' c = F c) : SameView F F' c := fun n hn =>
  ⟨n, h.trans hn, rfl, rfl, rfl, rfl⟩

theorem ChildAt.mono {c : Ref} (h : ChildAt F p level lo hi c) (hv : SameView F F' c) :
    ChildAt F' p level lo hi c := by
  obtain ⟨n, hn, hpar, hlevel, hlo, hhi⟩ := h
  obtain ⟨n', hn', hpar', hlevel', hlo', hhi'⟩ := hv n hn
  exact ⟨n', hn', hpar'.trans hpar, by omega, hlo'.trans hlo, hhi'.trans hhi⟩

theorem Spans.length : ∀ {lo : WithBot K} {ks : List K} {cs : List Ref},
    Spans F p level lo ks cs hi → cs.length = ks.length + 1
  | _, [], [_], _ => rfl
  | _, _ :: ks, _ :: cs, h => by
      have := Spans.length h.2
      simp [this]
  | _, [], [], h => absurd h (by simp [Spans])
  | _, [], _ :: _ :: _, h => absurd h (by simp [Spans])
  | _, _ :: _, [], h => absurd h (by simp [Spans])

theorem Spans.mono : ∀ {lo : WithBot K} {ks : List K} {cs : List Ref},
    Spans F p level lo ks cs hi → (∀ c ∈ cs, SameView F F' c) → Spans F' p level lo ks cs hi
  | _, [], [c], h, hv => ChildAt.mono h (hv c (by simp))
  | _, _ :: _, c :: _, h, hv =>
      ⟨ChildAt.mono h.1 (hv c (by simp)),
        Spans.mono h.2 fun c' hc' => hv c' (List.mem_cons_of_mem _ hc')⟩
  | _, [], [], h, _ => absurd h (by simp [Spans])
  | _, [], _ :: _ :: _, h, _ => absurd h (by simp [Spans])
  | _, _ :: _, [], h, _ => absurd h (by simp [Spans])

/-- Two rows of children join at a separator, and a row cuts at any of its own. -/
theorem spans_append : ∀ {lo : WithBot K} {ks₁ : List K} {cs₁ : List Ref} {k : K} {ks₂ : List K}
    {cs₂ : List Ref}, cs₁.length = ks₁.length + 1 →
      (Spans F p level lo (ks₁ ++ k :: ks₂) (cs₁ ++ cs₂) hi ↔
        Spans F p level lo ks₁ cs₁ (k : WithTop K) ∧
          Spans F p level (k : WithBot K) ks₂ cs₂ hi)
  | _, [], [_], _, _, _, _ => Iff.rfl
  | _, _ :: ks₁, _ :: cs₁, _, _, _, h => by
      have hlen : cs₁.length = ks₁.length + 1 := by simpa using h
      simp only [List.cons_append, Spans, spans_append hlen, and_assoc]
  | _, [], [], _, _, _, h => by simp at h
  | _, [], _ :: _ :: _, _, _, _, h => by simp at h
  | _, _ :: _, [], _, _, _, h => by simp at h

theorem Spans.exists_childAt : ∀ {lo : WithBot K} {ks : List K} {cs : List Ref},
    Spans F p level lo ks cs hi → ∀ c ∈ cs, ∃ lo' hi', ChildAt F p level lo' hi' c
  | lo, [], [c], h, c', hc' => by
      rw [List.mem_singleton.mp hc']
      exact ⟨lo, hi, h⟩
  | lo, k :: ks, c :: cs, h, c', hc' => by
      rcases List.mem_cons.mp hc' with rfl | hmem
      · exact ⟨lo, k, h.1⟩
      · exact Spans.exists_childAt h.2 c' hmem
  | _, [], [], h, _, _ => absurd h (by simp [Spans])
  | _, [], _ :: _ :: _, h, _, _ => absurd h (by simp [Spans])
  | _, _ :: _, [], h, _, _ => absurd h (by simp [Spans])

/-- The first child starts where its parent does. -/
theorem Spans.first : ∀ {lo : WithBot K} {ks : List K} {c : Ref} {cs : List Ref},
    Spans F p level lo ks (c :: cs) hi → ∃ n, F c = some n ∧ n.level + 1 = level ∧ n.lo = lo
  | _, [], _, [], ⟨n, hn, _, hlevel, hlo, _⟩ => ⟨n, hn, hlevel, hlo⟩
  | _, _ :: _, _, _, ⟨⟨n, hn, _, hlevel, hlo, _⟩, _⟩ => ⟨n, hn, hlevel, hlo⟩
  | _, [], _, _ :: _, h => absurd h (by simp [Spans])

/-- A child other than the first starts where another child ends. -/
theorem Spans.pred : ∀ {lo : WithBot K} {ks : List K} {c : Ref} {cs : List Ref},
    Spans F p level lo ks (c :: cs) hi → ∀ b ∈ cs, ∃ (a : Ref) (k : K) (na nb : Cell K V),
      a ∈ c :: cs ∧ F a = some na ∧ F b = some nb ∧ na.level = nb.level ∧
        na.hi = (k : WithTop K) ∧ nb.lo = (k : WithBot K)
  | _, [], _, [], _, b, hb => by simp at hb
  | _, k :: ks, c, d :: cs, h, b, hb => by
      obtain ⟨n, hn, -, hlevel, -, hhi⟩ := h.1
      rcases List.mem_cons.mp hb with rfl | hb'
      · have hfirst : ∃ hi', ChildAt F p level (k : WithBot K) hi' b := by
          cases ks with
          | nil =>
              cases cs with
              | nil => exact ⟨hi, h.2⟩
              | cons _ _ => exact absurd h.2 (by simp [Spans])
          | cons k' ks => exact ⟨k', h.2.1⟩
        obtain ⟨hi', m, hm, -, hlevel', hlo, -⟩ := hfirst
        exact ⟨c, k, n, m, by simp, hn, hm, by omega, hhi, hlo⟩
      · obtain ⟨a, k', na, nb, ha, rest⟩ := Spans.pred h.2 b hb'
        exact ⟨a, k', na, nb, List.mem_cons_of_mem _ ha, rest⟩
  | _, [], _, _ :: _, h, _, _ => absurd h (by simp [Spans])
  | _, _ :: _, _, [], _, _, hb => by simp at hb

/-- A run of children can be replaced, with the separators among them, by any
run that covers the same range. -/
theorem Spans.focus : ∀ {lo : WithBot K} {ks₁ : List K} {cs₁ : List Ref} {ks ks₂ : List K}
    {cs cs₂ : List Ref}, cs₁.length = ks₁.length → cs.length = ks.length + 1 →
      Spans F p level lo (ks₁ ++ (ks ++ ks₂)) (cs₁ ++ (cs ++ cs₂)) hi →
        ∃ lo' hi', Spans F p level lo' ks cs hi' ∧
          ∀ F' ks' cs', (∀ c ∈ cs₁ ++ cs₂, SameView F F' c) → Spans F' p level lo' ks' cs' hi' →
            Spans F' p level lo (ks₁ ++ (ks' ++ ks₂)) (cs₁ ++ (cs' ++ cs₂)) hi
  | lo, [], [], ks, ks₂, cs, cs₂, _, hlen, h => by
      cases ks₂ with
      | nil =>
          have hcs₂ : cs₂ = [] := by
            have := Spans.length h
            simp only [List.nil_append, List.length_append, List.append_nil] at this
            exact List.length_eq_zero_iff.mp (by omega)
          subst hcs₂
          refine ⟨lo, hi, by simpa using h, fun F' ks' cs' _ h' => by simpa using h'⟩
      | cons k ks₂ =>
          have hcut := (spans_append hlen).mp h
          refine ⟨lo, k, hcut.1, fun F' ks' cs' hv h' => ?_⟩
          exact (spans_append h'.length).mpr
            ⟨h', Spans.mono hcut.2 fun c hc => hv c (by simpa using hc)⟩
  | lo, k :: ks₁, c :: cs₁, ks, ks₂, cs, cs₂, hpre, hlen, h => by
      obtain ⟨lo', hi', hspan, hctx⟩ := Spans.focus (by simpa using hpre) hlen h.2
      refine ⟨lo', hi', hspan, fun F' ks' cs' hv h' => ⟨ChildAt.mono h.1 (hv c (by simp)), ?_⟩⟩
      exact hctx F' ks' cs' (fun d hd => hv d (by simp at hd ⊢; tauto)) h'
  | _, [], _ :: _, _, _, _, _, hpre, _, _ => by simp at hpre
  | _, _ :: _, [], _, _, _, _, hpre, _, _ => by simp at hpre

/-- A leaf stays a leaf that starts at the same key. -/
def SameLeaf (F F' : Forest K V) (b : Ref) : Prop :=
  ∀ n es nx, F b = some n → n.body = .leaf es nx →
    ∃ n' es' nx', F' b = some n' ∧ n'.body = .leaf es' nx' ∧ n'.lo = n.lo

theorem sameLeaf_of_eq {b : Ref} (h : F' b = F b) : SameLeaf F F' b :=
  fun n es nx hn hb => ⟨n, es, nx, h.trans hn, hb, rfl⟩

theorem NextOK.mono {next : Option Ref}
    (h : NextOK F hi next) (hv : ∀ b, next = some b → SameLeaf F F' b) : NextOK F' hi next := by
  cases next with
  | none => exact h
  | some b =>
      obtain ⟨m, es, nx, k, hm, hb, hhi, hlo⟩ := h
      obtain ⟨m', es', nx', hm', hb', hlo'⟩ := hv b rfl m es nx hm hb
      exact ⟨m', es', nx', k, hm', hb', hhi, hlo'.trans hlo⟩

/-- Name `x` as the parent of every cell of `cs`. -/
def adopt (F : Forest K V) (cs : List Ref) (x : Ref) : Forest K V := fun a =>
  if a ∈ cs then (F a).map fun n => { n with par := some x } else F a

theorem adopt_of_mem {cs : List Ref} {x a : Ref} {n : Cell K V}
    (ha : a ∈ cs) (hn : F a = some n) : adopt F cs x a = some { n with par := some x } := by
  simp [adopt, ha, hn]

theorem adopt_of_not_mem {cs : List Ref} {x a : Ref} (ha : a ∉ cs) :
    adopt F cs x a = F a := by
  simp [adopt, ha]

/-- A row of children moves to a new parent. -/
theorem Spans.reparent {x : Ref} :
    ∀ {lo : WithBot K} {ks : List K} {cs : List Ref}, Spans F p level lo ks cs hi →
      (∀ c ∈ cs, ∀ n, F c = some n → F' c = some { n with par := some x }) →
        Spans F' x level lo ks cs hi
  | _, [], [c], ⟨n, hn, _, hlevel, hlo, hhi⟩, hF => ⟨_, hF c (by simp) n hn, rfl, hlevel, hlo, hhi⟩
  | _, _ :: _, c :: _, ⟨⟨n, hn, _, hlevel, hlo, hhi⟩, hrest⟩, hF =>
      ⟨⟨_, hF c (by simp) n hn, rfl, hlevel, hlo, hhi⟩,
        Spans.reparent hrest fun d hd => hF d (List.mem_cons_of_mem _ hd)⟩
  | _, [], [], h, _ => absurd h (by simp [Spans])
  | _, [], _ :: _ :: _, h, _ => absurd h (by simp [Spans])
  | _, _ :: _, [], h, _ => absurd h (by simp [Spans])

variable [LinearOrder K]

/-- A key of the range is in the range of the child after the separators at or
below it. -/
theorem Spans.route {q : K} : ∀ {lo : WithBot K} {ks : List K} {cs : List Ref},
    Spans F p level lo ks cs hi → InRange lo hi q →
      ∃ c lo' hi', cs[(ks.takeWhile (· ≤ q)).length]? = some c ∧
        ChildAt F p level lo' hi' c ∧ InRange lo' hi' q
  | lo, [], [c], h, hq => ⟨c, lo, hi, by simp, h, hq⟩
  | lo, k :: ks, c :: cs, h, hq => by
      by_cases hk : k ≤ q
      · obtain ⟨c', lo', hi', hget, hchild, hr⟩ := Spans.route h.2 (hq.of_le hk)
        exact ⟨c', lo', hi', by simpa [hk] using hget, hchild, hr⟩
      · exact ⟨c, lo, k, by simp [hk], h.1, hq.of_lt (not_le.mp hk)⟩
  | _, [], [], h, _ => absurd h (by simp [Spans])
  | _, [], _ :: _ :: _, h, _ => absurd h (by simp [Spans])
  | _, _ :: _, [], h, _ => absurd h (by simp [Spans])

/-- Every child's range has a key in it. -/
def KidsInhabited (F : Forest K V) (cs : List Ref) : Prop :=
  ∀ c ∈ cs, ∀ n, F c = some n → ∃ q, InRange n.lo n.hi q

theorem KidsInhabited.tail {c : Ref} {cs : List Ref} (h : KidsInhabited F (c :: cs)) :
    KidsInhabited F cs := fun c' hc' => h c' (List.mem_cons_of_mem _ hc')

/-- The separators lie strictly inside the range, and so does every child's
range weakly. -/
theorem Spans.bounds : ∀ {lo : WithBot K} {ks : List K} {cs : List Ref},
    Spans F p level lo ks cs hi → KidsInhabited F cs →
      (∃ q, InRange lo hi q) ∧ (∀ k ∈ ks, lo < (k : WithBot K) ∧ InRange lo hi k) ∧
        (∀ c ∈ cs, ∀ n, F c = some n → lo ≤ n.lo ∧ n.hi ≤ hi)
  | lo, [], [c], h, hne => by
      obtain ⟨n, hn, -, -, rfl, rfl⟩ := h
      refine ⟨hne c (by simp) n hn, by simp, fun c' hc' m hm => ?_⟩
      rw [List.mem_singleton.mp hc', hn] at hm
      cases hm
      exact ⟨le_rfl, le_rfl⟩
  | lo, k :: ks, c :: cs, h, hne => by
      obtain ⟨n, hn, -, -, hlo, hhi⟩ := h.1
      obtain ⟨⟨q, hq⟩, hks, hcs⟩ := Spans.bounds h.2 hne.tail
      obtain ⟨q₀, hq₀⟩ := hne c (by simp) n hn
      rw [hlo, hhi] at hq₀
      have hlok : lo < (k : WithBot K) := lt_of_le_of_lt hq₀.1 (WithBot.coe_lt_coe.mpr hq₀.lt_upper)
      have hkhi : (k : WithTop K) < hi :=
        lt_of_le_of_lt (WithTop.coe_le_coe.mpr hq.lower_le) hq.2
      refine ⟨⟨k, hlok.le, hkhi⟩, fun k' hk' => ?_, fun c' hc' m hm => ?_⟩
      · rcases List.mem_cons.mp hk' with rfl | hmem
        · exact ⟨hlok, hlok.le, hkhi⟩
        · exact ⟨hlok.trans (hks k' hmem).1, (hlok.trans (hks k' hmem).1).le, (hks k' hmem).2.2⟩
      · rcases List.mem_cons.mp hc' with rfl | hmem
        · rw [hn] at hm
          cases hm
          exact ⟨hlo.ge, hhi.le.trans hkhi.le⟩
        · exact ⟨hlok.le.trans (hcs c' hmem m hm).1, (hcs c' hmem m hm).2⟩
  | _, [], [], h, _ => absurd h (by simp [Spans])
  | _, [], _ :: _ :: _, h, _ => absurd h (by simp [Spans])
  | _, _ :: _, [], h, _ => absurd h (by simp [Spans])

/-- The separators of a node increase. -/
theorem Spans.sorted : ∀ {lo : WithBot K} {ks : List K} {cs : List Ref},
    Spans F p level lo ks cs hi → KidsInhabited F cs → ks.Pairwise (· < ·)
  | _, [], _, _, _ => List.Pairwise.nil
  | _, k :: ks, c :: cs, h, hne => by
      refine List.pairwise_cons.mpr ⟨fun k' hk' => ?_, Spans.sorted h.2 hne.tail⟩
      exact WithBot.coe_lt_coe.mp ((Spans.bounds h.2 hne.tail).2.1 k' hk').1
  | _, _ :: _, [], h, _ => absurd h (by simp [Spans])

/-- At most one child is responsible for a key. -/
theorem Spans.unique {q : K} : ∀ {lo : WithBot K} {ks : List K} {cs : List Ref},
    Spans F p level lo ks cs hi → KidsInhabited F cs →
      ∀ a ∈ cs, ∀ b ∈ cs, ∀ na nb, F a = some na → F b = some nb →
        InRange na.lo na.hi q → InRange nb.lo nb.hi q → a = b
  | _, [], [c], _, _, a, ha, b, hb, _, _, _, _, _, _ => by
      rw [List.mem_singleton.mp ha, List.mem_singleton.mp hb]
  | _, k :: ks, c :: cs, h, hne, a, ha, b, hb, na, nb, hna, hnb, hqa, hqb => by
      obtain ⟨n, hn, -, -, -, hhi⟩ := h.1
      -- the first child ends at `k`, the others start there or later
      have hhead : ∀ m, F c = some m → InRange m.lo m.hi q → q < k := by
        intro m hm hq
        rw [hn] at hm
        cases hm
        exact (hhi ▸ hq : InRange n.lo (k : WithTop K) q).lt_upper
      have htail : ∀ d ∈ cs, ∀ m, F d = some m → InRange m.lo m.hi q → k ≤ q := by
        intro d hd m hm hq
        have hle := ((Spans.bounds h.2 hne.tail).2.2 d hd m hm).1
        exact WithBot.coe_le_coe.mp (hle.trans hq.1)
      rcases List.mem_cons.mp ha with rfl | ha' <;> rcases List.mem_cons.mp hb with rfl | hb'
      · rfl
      · exact absurd (hhead na hna hqa) (not_lt.mpr (htail b hb' nb hnb hqb))
      · exact absurd (hhead nb hnb hqb) (not_lt.mpr (htail a ha' na hna hqa))
      · exact Spans.unique h.2 hne.tail a ha' b hb' na nb hna hnb hqa hqb
  | _, [], [], h, _, _, _, _, _, _, _, _, _, _, _ => absurd h (by simp [Spans])
  | _, [], _ :: _ :: _, h, _, _, _, _, _, _, _, _, _, _, _ => absurd h (by simp [Spans])
  | _, _ :: _, [], h, _, _, _, _, _, _, _, _, _, _, _ => absurd h (by simp [Spans])

/-- No child occurs twice. -/
theorem Spans.nodup : ∀ {lo : WithBot K} {ks : List K} {cs : List Ref},
    Spans F p level lo ks cs hi → KidsInhabited F cs → cs.Nodup
  | _, [], [c], _, _ => by simp
  | _, k :: ks, c :: cs, h, hne => by
      refine List.nodup_cons.mpr ⟨fun hmem => ?_, Spans.nodup h.2 hne.tail⟩
      obtain ⟨n, hn, -, -, -, hhi⟩ := h.1
      obtain ⟨q, hq⟩ := hne c (by simp) n hn
      have hle := ((Spans.bounds h.2 hne.tail).2.2 c hmem n hn).1
      have hkq : k ≤ q := WithBot.coe_le_coe.mp (hle.trans hq.1)
      have hqk : q < k := (hhi ▸ hq : InRange n.lo (k : WithTop K) q).lt_upper
      exact absurd hqk (not_lt.mpr hkq)
  | _, [], [], h, _ => absurd h (by simp [Spans])
  | _, [], _ :: _ :: _, h, _ => absurd h (by simp [Spans])
  | _, _ :: _, [], h, _ => absurd h (by simp [Spans])

end Spans

end Forest

end Nbfs.Lib
