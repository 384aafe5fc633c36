import Nbfs.Nbfs2.InUse

set_option autoImplicit false

/-!
# Deleting a file by its name

Deleting a file should take its name out of the table and its blob out of the blobstore;
a name that is not there should change nothing.
-/

namespace Nbfs.Nbfs2

open Nbfs.Lib Conv

/-- What a deletion should do.  Of a name with a text it asks for the blob with the id in the
text, and if that goes the name goes too and every other name stays.  Of a name without one
it asks for nothing and leaves the table as it was. -/
def DeletesByName (fs : Filesystem) (name : CString) : Prop :=
  match htSearch fs.table name with
  | none => False
  | some none => ∀ t o, Free (nbfs2DeleteFile fs name) t o →
      deletesAsked t = [] ∧ ∃ fs', o = some fs' ∧ fs'.table = fs.table
  | some (some text) => ∀ t o, Free (nbfs2DeleteFile fs name) t o →
      deletesAsked t = [char2blobid text] ∧
        (⟨.deleteBlob (char2blobid text), (0 : Int)⟩ ∈ t →
          ∃ fs', o = some fs' ∧ AnswersAs fs.table fs'.table name none)

/-- When another key is deleted, a name in its bucket stays, or the key was lost before, or
the list ends at a freed node. -/
theorem Bucket.delete_other {b c : Bucket} {key name value : CString}
    (h : b.delete key = some c) (hne : key ≠ name) (hfound : b.search name = some (some value))
    (hgone : c.search name = some none) :
    ∃ found, b.search key = some (some found) ∧ c.search key = some none := by
  unfold Bucket.delete at h
  cases hslot : b.slot with
  | none =>
      rw [Bucket.search, hslot] at hfound
      cases hfound
  | some item =>
      simp only [hslot] at h
      by_cases hkey : item.key = key
      · have hitem : item.key ≠ name := hkey ▸ hne
        rw [Bucket.search, hslot] at hfound
        simp only [Bucket.scan_cons, if_neg hitem] at hfound
        rw [if_pos hkey] at h
        cases hchain : b.chain with
        | nil =>
            rw [hchain] at hfound
            simp only [Bucket.scan, lookup, List.find?_nil, Option.map_none] at hfound
            split_ifs at hfound
            cases Option.some.inj hfound
        | cons next rest =>
            simp only [hchain] at h
            obtain rfl := Option.some.inj h
            have hsame : Bucket.search
              ⟨some (createItem next.key next.value), rest, b.closed⟩ name =
                Bucket.scan name b.closed (next :: rest) := by
              simp only [Bucket.search, Bucket.scan, lookup_createItem]
            rw [hsame, ← hchain, hfound] at hgone
            cases Option.some.inj hgone
      · rw [if_neg hkey] at h
        rcases split_at_key key b.chain with habsent | ⟨front, other, back, hchain, hfront, hother⟩
        · rw [Bucket.deleteOverflow_absent habsent] at h
          split_ifs at h
          obtain rfl := Option.some.inj h
          rw [hfound] at hgone
          cases Option.some.inj hgone
        · cases front with
          | nil =>
              rw [Bucket.deleteOverflow_first hchain hother] at h
              split_ifs at h with hclosed
              obtain rfl := Option.some.inj h
              refine ⟨other.value, ?_, ?_⟩
              · simp [Bucket.search, hslot, hchain, Bucket.scan_cons, hkey, hother]
              · exact (@Bucket.search_closed ⟨b.slot, [], b.closed⟩ item hslot hclosed key).trans
                  (congrArg some (lookup_single_ne hkey))
          | cons first rest =>
              rw [Bucket.deleteOverflow_later hchain (List.cons_ne_nil _ _) hfront hother] at h
              obtain rfl := Option.some.inj h
              exact absurd hgone
                (Bucket.search_open (b := ⟨b.slot, first :: rest, false⟩) hslot rfl)

/-- The name that goes is the key that is deleted. -/
theorem Sound.delete_only {t t' : HashTable} {b : Nat → Bucket} (h : Sound t b)
    {key name value : CString} (hdelete : htDelete t key = some t')
    (hfound : htSearch t name = some (some value)) (hanswers : AnswersAs t t' name none) :
    key = name := by
  by_contra hne
  obtain ⟨c, hbucket, hsound⟩ := h.onBucket (show Call.run none t (.delete key) = _ from hdelete)
  have hgone := hanswers.1
  rw [hsound.1.search] at hgone
  rw [h.1.search] at hfound
  change (b (hashFunction key)).delete key = some c at hbucket
  change (Function.update b (hashFunction key) c (hashFunction name)).search name = _ at hgone
  by_cases hsame : hashFunction name = hashFunction key
  · rw [hsame, Function.update_self] at hgone
    rw [hsame] at hfound
    obtain ⟨found, hbefore, hafter⟩ := Bucket.delete_other hbucket hne hfound hgone
    rw [← h.1.search] at hbefore
    have hkept := hanswers.2 key hne _ hbefore
    rw [hsound.1.search] at hkept
    change (Function.update b (hashFunction key) c (hashFunction key)).search key = _ at hkept
    rw [Function.update_self, hafter] at hkept
    cases Option.some.inj hkept
  · rw [Function.update_of_ne hsame, hfound] at hgone
    cases Option.some.inj hgone

/-- **Deleting by name.**  In a filesystem in use, a deletion does what it should exactly when
the name is the text of its own blob's id and its bucket can give it up. -/
theorem deletesByName_iff {fs : Filesystem} (h : InUse fs) (name : CString) :
    DeletesByName fs name ↔
      htSearch fs.table name = some (some name) ∧ Deletable fs.table name := by
  obtain ⟨b, hb⟩ := h.tidy
  have hlaw := hb.sound.meetsDeleteLaw name
  unfold DeletesByName
  cases hfound : htSearch fs.table name with
  | none => simp
  | some found =>
      cases found with
      | none =>
          refine iff_of_false (fun hall => ?_) (fun hown => nomatch Option.some.inj hown.1)
          have hnull : Free (nbfs2DeleteFile fs name) [] none := by
            simp only [nbfs2DeleteFile, hfound]
            exact Free.undefined_iff.mpr ⟨rfl, rfl⟩
          obtain ⟨fs', hdone, -⟩ := (hall [] none hnull).2
          cases hdone
      | some text =>
          have htext : blobid2char (char2blobid text) = text := by
            obtain ⟨id, rfl⟩ := hb.search hfound
            rw [char2blobid_blobid2char]
          have hlen : text.strlen < blobidStringLen := by
            rw [← htext, blobid2char_strlen]
            decide
          have hrun := fun t o => @deleteFile_free fs name t _ o hfound hlen
          simp only [htext] at hrun
          constructor
          · intro hall
            obtain ⟨fs', hdone, hanswers⟩ := (hall _ _ ((hrun _ _).mpr (Or.inr ⟨rfl, rfl⟩))).2
              List.mem_cons_self
            obtain ⟨table, hdelete, rfl⟩ := Option.map_eq_some_iff.mp hdone
            obtain rfl := hb.sound.delete_only hdelete hfound hanswers
            exact ⟨rfl, hlaw.mp ⟨table, hdelete, hanswers⟩⟩
          · rintro ⟨hown, hdeletable⟩ t o hfree
            obtain ⟨table, hdelete, hanswers⟩ := hlaw.mpr hdeletable
            rcases (hrun t o).mp hfree with ⟨bserrno, herror, -, rfl⟩ | ⟨rfl, rfl⟩
            · refine ⟨rfl, fun hmem => ?_⟩
              simp only [List.mem_cons, List.not_mem_nil, or_false] at hmem
              rcases hmem with heq | heq
              · cases heq
                exact absurd rfl herror
              · cases congrArg Sigma.fst heq
            · refine ⟨rfl, fun _ => ?_⟩
              rw [Option.some.inj (Option.some.inj hown), hdelete]
              exact ⟨_, rfl, hanswers⟩

/-- A file whose name is the text of its blob's id is deleted by its name. -/
theorem deletesByName_own : DeletesByName (oneFile (blobid2char 5) 5) (blobid2char 5) := by
  refine (deletesByName_iff (inUse_oneFile (blobid2char 5) 5) (blobid2char 5)).mpr
    ⟨htSearch_oneFile _ _, fun item _ => ⟨[], rfl, Or.inl nofun⟩⟩

/-- Deleting the file `"ab"` with blob 5 leaves its name. -/
theorem deletesByName_ab : ¬ ∀ (fs : Filesystem) (name : CString), InUse fs →
    DeletesByName fs name := by
  intro hall
  have hdeletes := hall (oneFile keyAb 5) keyAb (inUse_oneFile keyAb 5)
  rw [DeletesByName, htSearch_oneFile] at hdeletes
  have hlen : (blobid2char 5).strlen < blobidStringLen := by
    rw [blobid2char_strlen]
    decide
  have hkept : htDelete (oneFile keyAb 5).table (blobid2char (char2blobid (blobid2char 5))) =
      some (oneFile keyAb 5).table := by
    rw [char2blobid_blobid2char]
    rfl
  obtain ⟨fs', hdone, hgone, -⟩ := (hdeletes _ _ ((deleteFile_free (htSearch_oneFile keyAb 5)
    hlen).mpr (Or.inr ⟨rfl, rfl⟩))).2 List.mem_cons_self
  rw [hkept] at hdone
  obtain rfl := Option.some.inj hdone
  rw [htSearch_oneFile] at hgone
  cases Option.some.inj hgone

end Nbfs.Nbfs2
