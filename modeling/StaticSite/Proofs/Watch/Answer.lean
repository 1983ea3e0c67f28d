import StaticSite.Proofs.Watch.Jobs
import StaticSite.Watch.Session

-- How a watcher answers an event: what it knows afterwards, and what it does to the output.
namespace StaticSite

open Disk (within)

-- A normal path below a root is the path of a place.
theorem Path.exists_place {path : Path} {root : Location} (hroot : root.Named)
    (h : path.normalize.startsWith root.path = true) : ∃ place : Location,
      Location.Named (place ++ root) ∧ path.normalize = Location.path (place ++ root) := by
  have habsolute : path.isAbsolute = true := by
    by_contra hrelative
    have hplain : Component.root ∉ path.normalize.components := by
      rw [components_normalize]
      exact not_root_mem_of_isPlain (isPlain_of_mem_normalComponents (Bool.eq_false_iff.2 hrelative))
    refine hplain ((List.isPrefixOf_iff_prefix.1 h).subset ?_)
    rw [Location.components_path hroot]
    exact List.mem_cons_self
  have hnamed := named_walk_root path
  rw [normalize_of_isAbsolute habsolute] at h ⊢
  obtain ⟨place, hplace⟩ := Disk.within_iff.1 ((Location.startsWith_path_iff hnamed hroot).1 h)
  rw [hplace] at hnamed ⊢
  exact ⟨place, hnamed, rfl⟩

-- What comes of one event of a tree: the files that the watcher knows afterwards, those whose
-- output is removed, and those that are then built. It fails for a path that is taken for a file
-- of the tree and is none.
structure Answer where
  known : List Location
  gone : List Location
  built : List Location
  untracked : Option Path

namespace Answer

-- Nothing comes of the event.
def idle (known : List Location) : Answer :=
  ⟨known, [], [], none⟩

-- What is done to the output.
def jobs (disk : Disk) (roots : Roots) (tree : Tree) (answer : Answer) : List Job :=
  answer.gone.flatMap (Disk.takes tree) ++ answer.built.flatMap (disk.makes roots tree)

-- What is done is the removal of a file that is gone or what is made of one that is built.
theorem mem_jobs_iff {disk : Disk} {roots : Roots} {tree : Tree} {answer : Answer} {job : Job} :
    job ∈ answer.jobs disk roots tree ↔ (∃ file ∈ answer.gone, job ∈ Disk.takes tree file) ∨
      ∃ file ∈ answer.built, job ∈ disk.makes roots tree file := by
  rw [jobs, List.mem_append, List.mem_flatMap, List.mem_flatMap]

def result (tree : Tree) (answer : Answer) : Except WatchError Unit :=
  answer.untracked.elim (.ok ()) (.error <| .untracked tree ·)

end Answer

-- Whether a path that has come can be a file of a tree.
def Roots.takesIn (roots : Roots) : Tree → Path → Bool
  | .source, path => path.startsWith roots.source.path && path.extension? = some "html"
  | .static, path => path.startsWith roots.assets.path

namespace Disk

-- The files that are built after a file of their tree.
def dependents (disk : Disk) (roots : Roots) : Tree → Location → List Location
  | .source, place => (disk.present roots .source).filter (place.wraps ·)
  | .static, _ => []

-- The path of a place below the root of a tree is at or below another one.
def Covered (roots : Roots) (tree : Tree) (path : Path) (place : Location) : Bool :=
  (Location.path (place ++ roots.tree tree)).startsWith path

-- What comes of known files that are gone.
def answerGone (disk : Disk) (roots : Roots) (tree : Tree) (known gone : List Location) : Answer :=
  match tree with
  | .source => ⟨disk.present roots .source, gone, (disk.present roots .source).filter fun page =>
      known.contains page && gone.any (·.wraps page), none⟩
  | .static => ⟨known.filter (!gone.contains ·), gone, [], none⟩

-- What comes of a file that is there.
def answerFile (disk : Disk) (roots : Roots) (tree : Tree) (path : Path) : Answer :=
  match (disk.present roots tree).find? fun place =>
    (Location.path (place ++ roots.tree tree)).same path with
  | some place => ⟨disk.present roots tree, [], place :: disk.dependents roots tree place, none⟩
  | none => ⟨disk.present roots tree, [], [], some path⟩

-- What comes of a directory that is there.
def answerDirectory (disk : Disk) (roots : Roots) (tree : Tree) (path : Path) : Answer :=
  ⟨disk.present roots tree, [], (disk.present roots tree).filter (Covered roots tree path), none⟩

-- What comes of a path that has come, if it is taken for a directory or a file of the tree. It
-- does not depend on what has been known before.
def answerCome (disk : Disk) (roots : Roots) (tree : Tree) (event : Event) : Option Answer :=
  let path := event.path.normalize
  if event.kind = .add ∧ disk.isDirectory path ∧ path.startsWith (roots.tree tree).path then
    some (disk.answerDirectory roots tree path)
  else if roots.takesIn tree path ∧ disk.isFile path then some (disk.answerFile roots tree path)
  else none

-- What comes of an event, when the trees are as on this disk.
def answer (disk : Disk) (roots : Roots) (tree : Tree) (known : List Location) (event : Event) :
    Answer :=
  if event.kind = .unlink then
    match known.filter (Covered roots tree event.path.normalize) with
    | [] => .idle known
    | gone => disk.answerGone roots tree known gone
  else (disk.answerCome roots tree event).getD (.idle known)

variable {disk : Disk} {roots : Roots} {tree : Tree} {known gone : List Location} {event : Event}
  {path : Path} {answer : Answer} {file : Location}

theorem mem_dependents {place : Location} (h : file ∈ disk.dependents roots tree place) :
    file ∈ disk.present roots tree := by
  cases tree with
  | source => exact List.mem_of_mem_filter h
  | static => cases h

theorem answerFile_eq (disk : Disk) (roots : Roots) (tree : Tree) (path : Path) :
    (disk.answerFile roots tree path).known = disk.present roots tree ∧
      (disk.answerFile roots tree path).gone = [] ∧
      ∀ file ∈ (disk.answerFile roots tree path).built, file ∈ disk.present roots tree := by
  unfold answerFile
  split
  · next place hfind =>
    refine ⟨rfl, rfl, fun file hmem => ?_⟩
    rcases List.mem_cons.1 hmem with rfl | hmem
    · exact List.mem_of_find?_eq_some hfind
    · exact mem_dependents hmem
  · exact ⟨rfl, rfl, by simp⟩

-- What has come is looked for on the disk, and nothing is removed for it.
theorem answerCome_eq_some (h : disk.answerCome roots tree event = some answer) :
    answer.known = disk.present roots tree ∧ answer.gone = [] ∧
      ∀ file ∈ answer.built, file ∈ disk.present roots tree := by
  unfold answerCome at h
  dsimp only at h
  split at h
  · cases h
    exact ⟨rfl, rfl, fun file hmem => List.mem_of_mem_filter hmem⟩
  · split at h
    · cases h
      exact disk.answerFile_eq roots tree event.path.normalize
    · cases h

-- An answer says nothing of a path that is gone if no known file lies at or below it.
theorem answer_of_forall (hkind : event.kind = .unlink)
    (h : ∀ file ∈ known, ¬ Covered roots tree event.path.normalize file) :
    disk.answer roots tree known event = .idle known := by
  rw [Disk.answer, if_pos hkind, List.filter_eq_nil_iff.2 h]

theorem answer_of_exists (hkind : event.kind = .unlink)
    (h : ∃ file ∈ known, Covered roots tree event.path.normalize file) :
    disk.answer roots tree known event = disk.answerGone roots tree known
      (known.filter (Covered roots tree event.path.normalize)) := by
  rw [Disk.answer, if_pos hkind]
  split
  · next heq =>
    obtain ⟨file, hmem, hcovered⟩ := h
    exact absurd hcovered (List.filter_eq_nil_iff.1 heq file hmem)
  · rfl

theorem mem_known_answerGone : file ∈ (disk.answerGone roots .static known gone).known ↔
    file ∈ known ∧ file ∉ gone := by
  rw [answerGone, List.mem_filter, Bool.not_eq_true', ← Bool.not_eq_true, List.contains_iff_mem]

theorem answer_of_ne (known : List Location) (hkind : event.kind ≠ .unlink) :
    disk.answer roots tree known event =
      (disk.answerCome roots tree event).getD (.idle known) :=
  if_neg hkind

-- All that an answer can be.
theorem answer_cases (disk : Disk) (roots : Roots) (tree : Tree) (known : List Location)
    (event : Event) : disk.answer roots tree known event = .idle known ∨
      (event.kind = .unlink ∧ disk.answer roots tree known event = disk.answerGone roots tree known
        (known.filter (Covered roots tree event.path.normalize))) ∨
      event.kind ≠ .unlink ∧ ∃ answer, disk.answerCome roots tree event = some answer ∧
        disk.answer roots tree known event = answer := by
  by_cases hkind : event.kind = .unlink
  · by_cases h : ∃ file ∈ known, Covered roots tree event.path.normalize file
    · exact .inr (.inl ⟨hkind, answer_of_exists hkind h⟩)
    · exact .inl (answer_of_forall hkind fun file hmem hcovered => h ⟨file, hmem, hcovered⟩)
  · rw [answer_of_ne known hkind]
    cases hcome : disk.answerCome roots tree event with
    | none => exact .inl rfl
    | some answer => exact .inr (.inr ⟨hkind, answer, rfl, rfl⟩)

theorem places_present (disk : Disk) (roots : Roots) (tree : Tree) :
    SourceTree.Places (disk.present roots tree) := by
  cases tree with
  | source => exact disk.places_pagesBelow roots.source
  | static => exact ⟨StaticWatcher.nodup_listed disk roots.assets, fun file hmem =>
      ⟨(mem_listed.1 hmem).1, (named_of_mem_listed hmem).of_append_left⟩⟩

-- What is known afterwards has been known before or is there.
theorem places_answer (h : SourceTree.Places known) (event : Event) :
    SourceTree.Places (disk.answer roots tree known event).known := by
  rcases disk.answer_cases roots tree known event with heq | ⟨-, heq⟩ | ⟨-, answer, hcome, heq⟩ <;>
    rw [heq]
  · exact h
  · cases tree with
    | source => exact disk.places_present roots .source
    | static => exact ⟨h.1.filter _, fun file hmem => h.2 file (List.mem_of_mem_filter hmem)⟩
  · rw [(answerCome_eq_some hcome).1]
    exact disk.places_present roots tree

theorem mem_known_answer (h : file ∈ (disk.answer roots tree known event).known) :
    file ∈ known ∨ file ∈ disk.present roots tree := by
  rcases disk.answer_cases roots tree known event with heq | ⟨-, heq⟩ | ⟨-, answer, hcome, heq⟩ <;>
    rw [heq] at h
  · exact .inl h
  · cases tree with
    | source => exact .inr h
    | static => exact .inl (List.mem_of_mem_filter h)
  · exact .inr ((answerCome_eq_some hcome).1 ▸ h)

-- What is removed is known and lies at or below the path that is gone. What is built is there.
theorem mem_gone_answer (h : file ∈ (disk.answer roots tree known event).gone) :
    event.kind = .unlink ∧ file ∈ known ∧ Covered roots tree event.path.normalize file := by
  rcases disk.answer_cases roots tree known event with heq | ⟨hkind, heq⟩ | ⟨-, answer, hcome, heq⟩ <;>
    rw [heq] at h
  · cases h
  · have hmem : file ∈ known.filter (Covered roots tree event.path.normalize) := by
      cases tree <;> exact h
    exact ⟨hkind, List.mem_filter.1 hmem⟩
  · rw [(answerCome_eq_some hcome).2.1] at h
    cases h

theorem mem_built_answer (h : file ∈ (disk.answer roots tree known event).built) :
    file ∈ disk.present roots tree := by
  rcases disk.answer_cases roots tree known event with heq | ⟨-, heq⟩ | ⟨-, answer, hcome, heq⟩ <;>
    rw [heq] at h
  · cases h
  · cases tree with
    | source => exact List.mem_of_mem_filter h
    | static => cases h
  · exact (answerCome_eq_some hcome).2.2 file h

theorem place_of_mem_takes {job : Job} (h : job ∈ takes tree file) : job.place = file := by
  rw [eq_of_mem_takes h]
  rfl

theorem place_of_mem_jobs {job : Job}
    (h : job ∈ (disk.answer roots tree known event).jobs disk roots tree) :
    job.place ∈ known ∨ job.place ∈ disk.present roots tree := by
  rcases Answer.mem_jobs_iff.1 h with ⟨file, hgone, hmem⟩ | ⟨file, hbuilt, hmem⟩
  · rw [place_of_mem_takes hmem]
    exact .inl (mem_gone_answer hgone).2.1
  · obtain ⟨content, rfl⟩ := place_of_mem_makes hmem
    exact .inr (mem_built_answer hbuilt)

end Disk

end StaticSite
