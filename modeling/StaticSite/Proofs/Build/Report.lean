import StaticSite.Proofs.Build.Output
import StaticSite.Build.Batch

-- The report of a build counts its files, each by its outcome.
namespace StaticSite

-- The error of a file that could not be read, which spoils its page only.
def Template.ComposeError.IsUnreadable (error : Template.ComposeError) : Prop :=
  ∃ path fault, error = .unreadable path fault

namespace Progress

variable {progress : Progress} {tree : SourceTree} {out : Path}

theorem writeOutput_outcome (progress : Progress) (destination : Path) (content : ByteArray) :
    (progress.writeOutput destination content).1 = .written destination ∨
      ∃ reason, (progress.writeOutput destination content).1 = .failed destination reason := by
  unfold writeOutput
  split
  · exact .inl rfl
  · exact .inr ⟨_, rfl⟩

theorem copyOutput_outcome (progress : Progress) (source destination : Path) :
    (progress.copyOutput source destination).1 = .copied destination ∨
      ∃ reason, (progress.copyOutput source destination).1 = .failed destination reason := by
  unfold copyOutput
  split
  · exact .inl rfl
  · exact .inr ⟨_, rfl⟩

-- What becomes of a page that is not deleted. One that does not compose changes nothing.
theorem buildContent_cases {file : ContentFile} (hkept : file.deleted = false) :
    file.isHidden = true ∧ progress.buildContent tree file out = (.ok .skipped, progress) ∨
    file.isPublic = true ∧
      ((∃ page, progress.disk.composePage tree file = .ok page ∧
          progress.buildContent tree file out =
            (.ok (progress.writeOutput (out.join ⟨file.relative⟩) (String.ofList page).toUTF8).1,
              (progress.writeOutput (out.join ⟨file.relative⟩) (String.ofList page).toUTF8).2)) ∨
        (∃ path fault, progress.disk.composePage tree file = .error (.unreadable path fault) ∧
          progress.buildContent tree file out =
            (.ok (.failed (out.join ⟨file.relative⟩) (.disk fault)),
              progress.note (.unreadable path fault))) ∨
        ∃ error, progress.disk.composePage tree file = .error error ∧ ¬ error.IsUnreadable ∧
          progress.buildContent tree file out = (.error (.compose error), progress)) := by
  cases hhidden : file.isHidden with
  | true => exact .inl ⟨rfl, by rw [buildContent, if_pos hhidden]⟩
  | false =>
      refine .inr ⟨by simp [ContentFile.isPublic, hhidden], ?_⟩
      rw [buildContent]
      simp only [hhidden, hkept, Bool.false_eq_true, if_false]
      split
      · next page hpage => exact .inl ⟨page, hpage, rfl⟩
      · next path fault hpage => exact .inr (.inl ⟨path, fault, hpage, rfl⟩)
      · next error hne hpage =>
        exact .inr (.inr ⟨error, hpage, fun ⟨path, fault, heq⟩ => hne path fault heq, rfl⟩)

-- A page that composes is written, unless that fails.
theorem buildContent_outcome {file : ContentFile} {outcome : Outcome}
    (hkept : file.deleted = false) (h : (progress.buildContent tree file out).1 = .ok outcome) :
    file.isHidden = true ∧ outcome = .skipped ∨
      file.isHidden = false ∧ (outcome = .written (out.join ⟨file.relative⟩) ∨
        ∃ reason, outcome = .failed (out.join ⟨file.relative⟩) reason) := by
  have hshown (hpublic : file.isPublic = true) : file.isHidden = false := by
    simpa [ContentFile.isPublic] using hpublic
  rcases @buildContent_cases progress tree out file hkept with
    ⟨hhidden, heq⟩ | ⟨hpublic, ⟨page, -, heq⟩ | ⟨path, fault, -, heq⟩ | ⟨error, -, -, heq⟩⟩
  · rw [heq] at h
    cases h
    exact .inl ⟨hhidden, rfl⟩
  · rw [heq] at h
    obtain rfl := Except.ok.inj h
    exact .inr ⟨hshown hpublic, writeOutput_outcome _ _ _⟩
  · rw [heq] at h
    cases h
    exact .inr ⟨hshown hpublic, .inr ⟨_, rfl⟩⟩
  · rw [heq] at h
    cases h

theorem buildAsset_outcome {file : StaticFile} (hkept : file.deleted = false) :
    (progress.buildAsset file out).1 = .copied (out.join ⟨file.relative⟩) ∨
      ∃ reason, (progress.buildAsset file out).1 = .failed (out.join ⟨file.relative⟩) reason := by
  unfold buildAsset
  simp only [hkept, Bool.false_eq_true, ↓reduceIte]
  split
  · exact copyOutput_outcome _ _ _
  · exact .inr ⟨_, rfl⟩

-- Each file that is scanned is counted once: a hidden page is skipped, and a public one is written
-- or fails.
theorem buildPages_report {files : List ContentFile} {report last : Report}
    (hkept : ∀ file ∈ files, file.deleted = false)
    (h : (buildPages tree out files report progress).1 = .ok last) :
    last.written + last.failed =
        report.written + report.failed + files.countP ContentFile.isPublic ∧
      last.skipped = report.skipped + files.countP ContentFile.isHidden ∧
      last.copied = report.copied ∧ last.removed = report.removed ∧
      report.failed ≤ last.failed := by
  induction files generalizing report progress with
  | nil =>
      cases h
      simp
  | cons file rest ih =>
      rw [buildPages] at h
      split at h
      · cases h
      · next outcome progress heq =>
        have hrest := ih (fun other hmem => hkept other (List.mem_cons_of_mem _ hmem)) h
        have houtcome := buildContent_outcome (hkept file List.mem_cons_self)
          (congrArg Prod.fst heq)
        simp only [List.countP_cons, ContentFile.isPublic] at hrest ⊢
        rcases houtcome with ⟨hhidden, rfl⟩ | ⟨hpublic, rfl | ⟨reason, rfl⟩⟩
        · simp only [Report.record, hhidden, Bool.not_true] at hrest ⊢
          grind
        · simp only [Report.record, hpublic, Bool.not_false] at hrest ⊢
          grind
        · simp only [Report.record, hpublic, Bool.not_false] at hrest ⊢
          grind

theorem buildAssets_report {files : List StaticFile} {report : Report}
    (hkept : ∀ file ∈ files, file.deleted = false) :
    (buildAssets out files report progress).1.copied +
          (buildAssets out files report progress).1.failed =
        report.copied + report.failed + files.length ∧
      (buildAssets out files report progress).1.written = report.written ∧
      (buildAssets out files report progress).1.skipped = report.skipped ∧
      (buildAssets out files report progress).1.removed = report.removed ∧
      report.failed ≤ (buildAssets out files report progress).1.failed := by
  induction files generalizing report progress with
  | nil => simp [buildAssets]
  | cons file rest ih =>
      rw [buildAssets]
      dsimp only
      have hrest := @ih (progress.buildAsset file out).2
        (report.record (progress.buildAsset file out).1)
        fun other hmem => hkept other (List.mem_cons_of_mem _ hmem)
      rcases @buildAsset_outcome progress out file (hkept file List.mem_cons_self) with
        houtcome | ⟨reason, houtcome⟩
      · simp only [houtcome, Report.record, List.length_cons] at hrest ⊢
        grind
      · simp only [houtcome, Report.record, List.length_cons] at hrest ⊢
        grind

end Progress

end StaticSite
