import Nbfs.Lib.WellFormed

set_option autoImplicit false

/-!
# Changes that keep a search tree well formed
-/

namespace Nbfs.Lib.Forest

variable {K V : Type} [LinearOrder K]

namespace WF

variable {lower upper : Nat} {F F' : Forest K V} {root : Ref} {content content' : K → Option V}
  {weak fat weak' fat' : Option Ref}

/-- New entries in one leaf, with the map changed inside that leaf's range. -/
theorem setLeaf (h : WF lower upper F root content weak fat) (hlower : 0 < lower)
    {a : Ref} {n : Cell K V} {es es' : List (K × V)} {next : Option Ref}
    (ha : F a = some n) (hb : n.body = .leaf es next)
    (hweak : ∀ x, weak = some x → x = a) (hfat : ∀ x, fat = some x → x = a)
    (hes : Holds content' n.lo n.hi es')
    (hcontent : ∀ q, ¬ InRange n.lo n.hi q → content' q = content q)
    (hmin : minOf lower root weak' a ≤ es'.length) (hmax : es'.length ≤ maxOf upper fat' a) :
    WF lower upper (Function.update F a (some { n with body := .leaf es' next })) root content'
      weak' fat' := by
  obtain ⟨hlevel, -, hnext⟩ := h.holds ha hb
  -- views and children stay, so only the contents of `a` and the map are new
  have hview : ∀ c, SameView F
    (Function.update F a (some { n with body := .leaf es' next })) c := by
    intro c m hm
    by_cases hca : c = a
    · subst hca
      rw [ha] at hm
      cases hm
      exact ⟨_, Function.update_self .., rfl, rfl, rfl, rfl⟩
    · exact ⟨m, by rwa [Function.update_of_ne hca], rfl, rfl, rfl, rfl⟩
  have hnextOK : ∀ hi nx, NextOK F hi nx →
      NextOK (Function.update F a (some { n with body := .leaf es' next })) hi nx := by
    intro hi nx hok
    cases nx with
    | none => exact hok
    | some b =>
        obtain ⟨m, fs, nx', k, hm, hbody, hhi, hlo⟩ := hok
        by_cases hba : b = a
        · subst hba
          rw [ha] at hm
          cases hm
          exact ⟨_, es', next, k, Function.update_self .., rfl, hhi, hlo⟩
        · exact ⟨m, fs, nx', k, by rwa [Function.update_of_ne hba], hbody, hhi, hlo⟩
  have hother : ∀ x nx, x ≠ a →
      Function.update F a (some { n with body := .leaf es' next }) x = some nx → F x = some nx := by
    intro x nx hx hnx
    rwa [Function.update_of_ne hx] at hnx
  refine ⟨?_, ?_, ?_⟩
  · obtain ⟨r, hr, hpar, hlo, hhi, hmaxlv⟩ := h.root_cell
    by_cases hra : root = a
    · subst hra
      rw [ha] at hr
      cases hr
      refine ⟨_, Function.update_self .., hpar, hlo, hhi, fun x nx hx => ?_⟩
      by_cases hxa : x = root
      · subst hxa
        rw [Function.update_self] at hx
        cases hx
        exact le_rfl
      · exact hmaxlv x nx (hother x nx hxa hx)
    · refine ⟨r, by rwa [Function.update_of_ne hra], hpar, hlo, hhi, fun x nx hx => ?_⟩
      by_cases hxa : x = a
      · subst hxa
        rw [Function.update_self] at hx
        cases hx
        exact hmaxlv x n ha
      · exact hmaxlv x nx (hother x nx hxa hx)
  · intro x nx hx hne
    have hold : ∃ m, F x = some m ∧ m.par = nx.par := by
      by_cases hxa : x = a
      · subst hxa
        rw [Function.update_self] at hx
        cases hx
        exact ⟨n, ha, rfl⟩
      · exact ⟨nx, hother x nx hxa hx, rfl⟩
    obtain ⟨m, hm, hpar⟩ := hold
    obtain ⟨p, mp, hp, hFp, hmem⟩ := h.link x m hm hne
    refine ⟨p, mp, hpar ▸ hp, ?_, hmem⟩
    have hpa : p ≠ a := by
      rintro rfl
      rw [ha] at hFp
      cases hFp
      simp [Cell.kids_leaf hb] at hmem
    rwa [Function.update_of_ne hpa]
  · intro x nx hx
    by_cases hxa : x = a
    · subst hxa
      rw [Function.update_self] at hx
      cases hx
      have hs := h.sound x n ha
      refine ⟨hs.inhabited, ?_, ?_, ?_⟩
      · rw [Cell.keys_leaf rfl, List.length_map]
        exact hmin
      · rw [Cell.keys_leaf rfl, List.length_map]
        exact hmax
      · exact (bodyOK_leaf rfl).mpr ⟨hlevel, hes, hnextOK _ _ hnext⟩
    · have hFx := hother x nx hxa hx
      have hs := h.sound x nx hFx
      have hw : weak ≠ some x := fun hw => hxa (hweak x hw)
      have hf : fat ≠ some x := fun hf => hxa (hfat x hf)
      refine ⟨hs.inhabited, (minOf_le weak' hw hlower).trans hs.min,
        hs.max.trans (maxOf_le fat' hf), ?_⟩
      cases hbx : nx.body with
      | leaf fs nxt =>
          obtain ⟨hlv, hholds, hok⟩ := h.holds hFx hbx
          refine (bodyOK_leaf hbx).mpr ⟨hlv, hholds.congr fun q hq => hcontent q fun hqa => ?_,
            hnextOK _ _ hok⟩
          exact hxa (h.unique_leaf hFx ha hlv hlevel hq hqa)
      | inner ks cs =>
          exact (bodyOK_inner hbx).mpr ((h.spans hFx hbx).mono fun c _ => hview c)

/-- A run of siblings replaced by another that covers the same range.  The first
sibling stays, further ones may appear or go, their children move along, and
their parent gets the separators of the new run. -/
theorem window (h : WF lower upper F root content weak fat) (hlower : 0 < lower)
    (p l : Ref) (m : Cell K V) (ks₁ ks ks₂ ks' : List K) (cs₁ cs₂ rest rest' : List Ref)
    (hp : F p = some m)
    (hbody : m.body = .inner (ks₁ ++ (ks ++ ks₂)) (cs₁ ++ ((l :: rest) ++ cs₂)))
    (hlen₁ : cs₁.length = ks₁.length) (hlen : (l :: rest).length = ks.length + 1)
    (hfresh : ∀ c ∈ rest', c ∈ rest ∨ F c = none)
    (hweak : ∀ a, weak = some a → a ∈ l :: rest ∨ a = p)
    (hfat : ∀ a, fat = some a → a ∈ l :: rest ∨ a = p)
    (hp' : F' p = some
    { m with body := .inner (ks₁ ++ (ks' ++ ks₂)) (cs₁ ++ ((l :: rest') ++ cs₂)) })
    (hgone : ∀ c ∈ rest, c ∉ rest' → F' c = none)
    (hmoved : ∀ c ∈ l :: rest, ∀ n, F c = some n → ∀ g ∈ n.kids, ∃ c' ∈ l :: rest', ∃ n' gn,
      F' c' = some n' ∧ g ∈ n'.kids ∧ F g = some gn ∧ F' g = some { gn with par := some c' })
    (hother : ∀ a, a ≠ p → a ∉ l :: rest → a ∉ rest' →
      (∀ c ∈ l :: rest, ∀ n, F c = some n → a ∉ n.kids) → F' a = F a)
    (hhead : ∀ n, F l = some n → ∃ n', F' l = some n' ∧ n'.lo = n.lo ∧
      ∀ es nx, n.body = .leaf es nx → ∃ es' nx', n'.body = .leaf es' nx')
    (hspan : ∀ lo hi, Spans F p m.level lo ks (l :: rest) hi →
      Spans F' p m.level lo ks' (l :: rest') hi)
    (hsound : ∀ c ∈ l :: rest', ∀ n, F' c = some n →
      Sound lower upper F' root content weak' fat' c n)
    (hmin : minOf lower root weak' p ≤ (ks₁ ++ (ks' ++ ks₂)).length)
    (hmax : (ks₁ ++ (ks' ++ ks₂)).length ≤ maxOf upper fat' p) :
    WF lower upper F' root content weak' fat' := by
  have hkids : m.kids = cs₁ ++ ((l :: rest) ++ cs₂) := Cell.kids_inner hbody
  have hrun : ∀ c ∈ l :: rest, c ∈ m.kids := fun c hc => by
    rw [hkids]; exact List.mem_append_right _ (List.mem_append_left _ hc)
  have hside : ∀ c ∈ cs₁ ++ cs₂, c ∈ m.kids ∧ c ∉ l :: rest := by
    intro c hc
    have hnd := h.kids_nodup hp
    rw [hkids, List.nodup_append] at hnd
    obtain ⟨-, hnd₂, hdisj⟩ := hnd
    rw [List.nodup_append] at hnd₂
    rcases List.mem_append.mp hc with hc | hc
    · refine ⟨by rw [hkids]; exact List.mem_append_left _ hc, fun hmem => ?_⟩
      exact hdisj c hc c (List.mem_append_left _ hmem) rfl
    · refine ⟨by rw [hkids]; exact List.mem_append_right _ (List.mem_append_right _ hc),
        fun hmem => ?_⟩
      exact hnd₂.2.2 c hmem c hc rfl
  have hpl : p ∉ l :: rest := fun hmem => by
    obtain ⟨n, hn, -, hlv⟩ := h.kid hp (hrun p hmem)
    rw [hp] at hn
    cases hn
    omega
  have hnew : ∀ c ∈ l :: rest', c ∈ l :: rest ∨ F c = none := by
    intro c hc
    rcases List.mem_cons.mp hc with rfl | hc
    · exact .inl (by simp)
    · rcases hfresh c hc with hc | hc
      · exact .inl (List.mem_cons_of_mem _ hc)
      · exact .inr hc
  have hpl' : p ∉ l :: rest' := fun hmem => by
    rcases hnew p hmem with hmem | hnone
    · exact hpl hmem
    · rw [hp] at hnone
      cases hnone
  -- a cell that is neither the parent, nor of the run, nor of its children
  have hkeep : ∀ a n, F a = some n → a ≠ p → a ∉ l :: rest →
      (∀ c ∈ l :: rest, ∀ n, F c = some n → a ∉ n.kids) → F' a = F a := by
    intro a n ha hap hal hak
    refine hother a hap hal (fun hmem => ?_) hak
    rcases hfresh a hmem with hmem | hnone
    · exact hal (List.mem_cons_of_mem _ hmem)
    · rw [ha] at hnone
      cases hnone
  -- outside the run, a cell keeps its height, its range and its contents
  have hpersist : ∀ a n, F a = some n → a ∉ l :: rest → ∃ n', F' a = some n' ∧
      n'.level = n.level ∧ n'.lo = n.lo ∧ n'.hi = n.hi ∧ (a ≠ p → n'.body = n.body) ∧
      ((∀ c ∈ l :: rest, ∀ n, F c = some n → a ∉ n.kids) → n'.par = n.par) := by
    intro a n ha hal
    by_cases hap : a = p
    · subst hap
      rw [hp] at ha
      cases ha
      exact ⟨_, hp', rfl, rfl, rfl, fun hne => absurd rfl hne, fun _ => rfl⟩
    by_cases hak : ∀ c ∈ l :: rest, ∀ n, F c = some n → a ∉ n.kids
    · exact ⟨n, by rw [hkeep a n ha hap hal hak, ha], rfl, rfl, rfl, fun _ => rfl, fun _ => rfl⟩
    · have hex : ∃ c ∈ l :: rest, ∃ nc, F c = some nc ∧ a ∈ nc.kids := by
        by_contra hcon
        exact hak fun c hc nc hnc hmem => hcon ⟨c, hc, nc, hnc, hmem⟩
      obtain ⟨c, hc, nc, hnc, hmem⟩ := hex
      obtain ⟨c', -, -, gn, -, -, hga, hga'⟩ := hmoved c hc nc hnc a hmem
      rw [ha] at hga
      cases hga
      exact ⟨_, hga', rfl, rfl, rfl, fun _ => rfl, fun hno => absurd hmem (hno c hc nc hnc)⟩
  -- a child of a cell outside the run keeps its view, unless it is of the run
  have hviewKid : ∀ a n, F a = some n → a ∉ l :: rest → ∀ c ∈ n.kids, c ∉ l :: rest →
      SameView F F' c := by
    intro a n ha hal c hc hcl nc hnc
    obtain ⟨n', hn', hlv, hlo, hhi, -, hpar⟩ := hpersist c nc hnc hcl
    refine ⟨n', hn', hpar fun d hd nd hnd hmem => ?_, hlv, hlo, hhi⟩
    exact hal (h.kid_parent ha hc hnd hmem ▸ hd)
  have hrunKid : ∀ a n, F a = some n → a ≠ p → ∀ c ∈ n.kids, c ∉ l :: rest := by
    intro a n ha hap c hc hmem
    exact hap (h.kid_parent ha hc hp (hrun c hmem))
  have hfocus := Spans.focus hlen₁ hlen (h.spans hp hbody)
  obtain ⟨lo', hi', hold, hctx⟩ := hfocus
  have hspanP : Spans F' p m.level m.lo (ks₁ ++ (ks' ++ ks₂)) (cs₁ ++ ((l :: rest') ++ cs₂)) m.hi :=
    hctx F' ks' (l :: rest')
      (fun c hc => hviewKid p m hp hpl c (hside c hc).1 (hside c hc).2) (hspan lo' hi' hold)
  -- the first leaf of the run can still be reached from its predecessor
  have hnextOK : ∀ a n, F a = some n → a ∉ l :: rest → n.level = 0 → ∀ nx,
      NextOK F n.hi nx → NextOK F' n.hi nx := by
    intro a n ha hal hlv nx hok
    cases nx with
    | none => exact hok
    | some b =>
        obtain ⟨nb, es, nxt, k, hb, hbb, hhi, hlo⟩ := hok
        by_cases hbl : b ∈ l :: rest
        · rcases List.mem_cons.mp hbl with rfl | hbr
          · obtain ⟨n', hn', hlo', hleaf⟩ := hhead nb hb
            obtain ⟨es', nx', hbody'⟩ := hleaf es nxt hbb
            exact ⟨n', es', nx', k, hn', hbody', hhi, hlo'.trans hlo⟩
          · exfalso
            obtain ⟨x, k', nx', nb', hxmem, hx, hb', hlvx, hhi', hlo'⟩ := hold.pred b hbr
            rw [hb] at hb'
            cases hb'
            rw [hlo] at hlo'
            have hkk : k = k' := WithBot.coe_inj.mp hlo'
            subst hkk
            have hlvb := (h.holds hb hbb).1
            have hax := h.unique_end ha hx hlv (by omega) hhi hhi'
            exact hal (hax ▸ hxmem)
        · obtain ⟨n', hn', -, hlo', -, hbod, -⟩ := hpersist b nb hb hbl
          have hbp : b ≠ p := by
            rintro rfl
            rw [hp] at hb
            cases hb
            rw [hbody] at hbb
            cases hbb
          exact ⟨n', es, nxt, k, hn', (hbod hbp).trans hbb, hhi, hlo'.trans hlo⟩
  -- every new cell is old, or belongs to the new run
  have hcases : ∀ a n', F' a = some n' → a ∈ l :: rest' ∨
      (a ∉ l :: rest' ∧ a ∉ l :: rest ∧ ∃ n, F a = some n) := by
    intro a n' ha
    by_cases hmem' : a ∈ l :: rest'
    · exact .inl hmem'
    refine .inr ⟨hmem', ?_, ?_⟩
    · intro hmem
      rcases List.mem_cons.mp hmem with rfl | hr
      · exact hmem' (by simp)
      · rw [hgone a hr fun hr' => hmem' (List.mem_cons_of_mem _ hr')] at ha
        cases ha
    · by_contra hno
      have hnone : F a = none := by
        cases hFa : F a with
        | none => rfl
        | some n => exact absurd ⟨n, hFa⟩ hno
      have hap : a ≠ p := by rintro rfl; rw [hp] at hnone; cases hnone
      have hal : a ∉ l :: rest := fun hmem => by
        obtain ⟨n, hn, -⟩ := h.kid hp (hrun a hmem)
        rw [hn] at hnone
        cases hnone
      have hak : ∀ c ∈ l :: rest, ∀ n, F c = some n → a ∉ n.kids := fun c _ n hn hmem => by
        obtain ⟨n', hn', -⟩ := h.kid hn hmem
        rw [hn'] at hnone
        cases hnone
      rw [hother a hap hal (fun hr => hmem' (List.mem_cons_of_mem _ hr)) hak, hnone] at ha
      cases ha
  have hp'kids : ∀ c ∈ l :: rest', c ∈ (⟨m.par, m.level, m.lo, m.hi,
      .inner (ks₁ ++ (ks' ++ ks₂)) (cs₁ ++ ((l :: rest') ++ cs₂))⟩ : Cell K V).kids := by
    intro c hc
    rw [Cell.kids_inner rfl]
    exact List.mem_append_right _ (List.mem_append_left _ hc)
  have hchild : ∀ c ∈ l :: rest', ∃ n, F' c = some n ∧ n.par = some p ∧ n.level + 1 = m.level := by
    intro c hc
    obtain ⟨lo, hi, n, hn, hpar, hlv, -, -⟩ :=
      hspanP.exists_childAt c (List.mem_append_right _ (List.mem_append_left _ hc))
    exact ⟨n, hn, hpar, hlv⟩
  have hrootRun : root ∉ l :: rest' := by
    intro hmem
    obtain ⟨r, hr, hrpar, -⟩ := h.root_cell
    rcases hnew root hmem with hmem | hnone
    · exact h.kid_ne_root hp (hrun root hmem) rfl
    · rw [hr] at hnone
      cases hnone
  refine ⟨?_, ?_, ?_⟩
  · obtain ⟨r, hr, hpar, hlo, hhi, hmaxlv⟩ := h.root_cell
    have hroot : root ∉ l :: rest := fun hmem => h.kid_ne_root hp (hrun root hmem) rfl
    obtain ⟨r', hr', hlv', hlo', hhi', -, hpar'⟩ := hpersist root r hr hroot
    refine ⟨r', hr', (hpar' fun c hc n hn hmem => h.kid_ne_root hn hmem rfl).trans hpar,
      hlo'.trans hlo, hhi'.trans hhi, fun a n' ha => ?_⟩
    rcases hcases a n' ha with hmem | ⟨-, hal, n, hn⟩
    · obtain ⟨n, hn, -, hlv⟩ := hchild a hmem
      rw [ha] at hn
      cases hn
      have := hmaxlv p m hp
      omega
    · obtain ⟨n'', hn'', hlv, -⟩ := hpersist a n hn hal
      rw [ha] at hn''
      cases hn''
      have := hmaxlv a n hn
      omega
  · intro a n' ha hne
    rcases hcases a n' ha with hmem | ⟨hmem', hal, n, hn⟩
    · obtain ⟨n, hn, hpar, -⟩ := hchild a hmem
      rw [ha] at hn
      cases hn
      exact ⟨p, _, hpar, hp', hp'kids a hmem⟩
    · obtain ⟨n'', hn'', -, -, -, -, hpar⟩ := hpersist a n hn hal
      rw [ha] at hn''
      cases hn''
      obtain ⟨pa, ma, hpa, hFpa, hmem⟩ := h.link a n hn hne
      by_cases hpr : pa ∈ l :: rest
      · -- a child of the run follows its new parent
        obtain ⟨c', hc', nc, gn, hnc, hgmem, hga, hga'⟩ := hmoved pa hpr ma hFpa a hmem
        rw [ha] at hga'
        cases hga'
        exact ⟨c', nc, rfl, hnc, hgmem⟩
      · have hpar' : n'.par = n.par := hpar fun c hc nc hnc hmemc =>
          hpr (h.kid_parent hFpa hmem hnc hmemc ▸ hc)
        by_cases hpp : pa = p
        · subst hpp
          rw [hp] at hFpa
          cases hFpa
          refine ⟨pa, _, hpar'.trans hpa, hp', ?_⟩
          rw [Cell.kids_inner rfl]
          rw [hkids] at hmem
          rcases List.mem_append.mp hmem with hm₁ | hm₂
          · exact List.mem_append_left _ hm₁
          · rcases List.mem_append.mp hm₂ with hm₂ | hm₂
            · exact absurd hm₂ hal
            · exact List.mem_append_right _ (List.mem_append_right _ hm₂)
        · obtain ⟨m', hm', -, -, -, hbod, -⟩ := hpersist pa ma hFpa hpr
          refine ⟨pa, m', hpar'.trans hpa, hm', ?_⟩
          have hkk : m'.kids = ma.kids := by unfold Cell.kids; rw [hbod hpp]
          rwa [hkk]
  · intro a n' ha
    rcases hcases a n' ha with hmem | ⟨hmem', hal, n, hn⟩
    · exact hsound a hmem n' ha
    · by_cases hap : a = p
      · subst hap
        rw [hp'] at ha
        cases ha
        have hs := h.sound a m hp
        refine ⟨hs.inhabited, ?_, ?_, (bodyOK_inner rfl).mpr hspanP⟩
        · rw [Cell.keys_inner rfl]
          exact hmin
        · rw [Cell.keys_inner rfl]
          exact hmax
      · obtain ⟨n'', hn'', hlv, hlo, hhi, hbod, -⟩ := hpersist a n hn hal
        rw [ha] at hn''
        cases hn''
        have hs := h.sound a n hn
        have hw : weak ≠ some a := fun hw => (hweak a hw).elim hal hap
        have hf : fat ≠ some a := fun hf => (hfat a hf).elim hal hap
        have hkeys : n'.keys = n.keys := by unfold Cell.keys; rw [hbod hap]
        refine ⟨fun hne => by rw [hlo, hhi]; exact hs.inhabited hne, ?_, ?_, ?_⟩
        · rw [hkeys]
          exact (minOf_le weak' hw hlower).trans hs.min
        · rw [hkeys]
          exact hs.max.trans (maxOf_le fat' hf)
        · cases hb : n.body with
          | leaf es nx =>
              obtain ⟨hlv0, hholds, hok⟩ := h.holds hn hb
              refine (bodyOK_leaf ((hbod hap).trans hb)).mpr ⟨by omega, ?_, ?_⟩
              · rw [hlo, hhi]
                exact hholds
              · rw [hhi]
                exact hnextOK a n hn hal hlv0 nx hok
          | inner ks cs =>
              refine (bodyOK_inner ((hbod hap).trans hb)).mpr ?_
              rw [hlv, hlo, hhi]
              refine (h.spans hn hb).mono fun c hc => ?_
              have hck : c ∈ n.kids := by rw [Cell.kids_inner hb]; exact hc
              exact hviewKid a n hn hal c hck (hrunKid a n hn hap c hck)

end WF

end Nbfs.Lib.Forest
