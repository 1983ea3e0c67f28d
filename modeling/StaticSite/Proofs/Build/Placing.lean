import StaticSite.Proofs.Build.Output
import StaticSite.Proofs.Build.Raising
import StaticSite.Proofs.Disk.Extending

-- What putting a file at the end of a straight path comes to, also where it fails.
namespace StaticSite

open Disk (within)

namespace Path

variable {path : Path} {front : List String} {name : String}

-- Whether a disk follows the path to the directory that a file lies in.
def near (path : Path) : Bool :=
  path.parent?.all fun parent => decide (parent.text = "" ∨ parent.check = .ok ())

theorem near_of_check (hcheck : path.check = .ok ()) : path.near = true := by
  rw [near, Option.all_eq_true]
  intro parent hparent
  rw [decide_eq_true_iff]
  rcases parent?_eq_some hparent with hempty | ⟨front, hne, ⟨back, hback⟩, rfl⟩
  · exact .inl hempty
  · rw [← Disk.ofSegments_segments (Location.check_eq_ok_iff.1 hcheck).2.1, ← hback] at hcheck
    exact .inr (Disk.check_ofSegments_append hne hcheck)

-- Where the file at the end of a path goes, when relative paths start from `start`.
def slot (path : Path) (start : Location) : Slot where
  place := Location.walk start path
  near := path.near
  far := decide (path.check = .ok ())
  near_of_far h := near_of_check (of_decide_eq_true h)

theorem text_ne_of_segments (h : segments path.text = front ++ [name]) (hname : IsName name) :
    path.text ≠ "" := by
  intro hempty
  rw [hempty, show segments "" = [""] by decide] at h
  rcases List.append_eq_singleton_iff.1 h.symm with ⟨-, heq⟩ | ⟨-, heq⟩
  · exact hname.1 (List.singleton_inj.1 heq)
  · cases heq

theorem exists_trimEnd (segments : List String) (hne : segments ≠ []) :
    ∃ dots, segments = dots ++ trimEnd segments ∧ (∀ dot ∈ dots, dot = "" ∨ dot = ".") ∧
      ∀ last above, trimEnd segments = last :: above →
        ¬ ((last = "" ∨ last = ".") ∧ above ≠ []) := by
  induction segments with
  | nil => exact absurd rfl hne
  | cons segment rest ih =>
      cases rest with
      | nil =>
          refine ⟨[], rfl, List.forall_mem_nil _, fun last above heq hboth => hboth.2 ?_⟩
          exact (List.cons.inj heq).2.symm
      | cons next others =>
          by_cases hdot : segment = "" ∨ segment = "."
          · obtain ⟨dots, heq, hdots, hlast⟩ := ih (List.cons_ne_nil _ _)
            rw [trimEnd, if_pos hdot]
            · exact ⟨segment :: dots, by rw [List.cons_append, ← heq],
                List.forall_mem_cons.2 ⟨hdot, hdots⟩, hlast⟩
            · exact fun heq => by cases heq
          · rw [trimEnd, if_neg hdot]
            · refine ⟨[], rfl, List.forall_mem_nil _, fun last above heq hboth => hdot ?_⟩
              exact (List.cons.inj heq).1 ▸ hboth.1
            · exact fun heq => by cases heq

theorem parent?_concat (h : segments path.text = front ++ [name]) (hname : IsName name) :
    path.parent? = if front = [] then some ⟨""⟩
      else some (ofSegments (trimEnd front.reverse).reverse) := by
  unfold parent?
  rw [h, List.reverse_concat]
  cases hfront : front.reverse with
  | nil =>
      rw [List.reverse_eq_nil_iff] at hfront
      rw [if_pos hfront]
      simp only [trimEnd, if_neg hname.1]
  | cons last above =>
      have hne : front ≠ [] := by
        rintro rfl
        cases hfront
      rw [if_neg hne, trimEnd, if_neg (not_or.2 ⟨hname.1, hname.2.1⟩)]
      · exact fun heq => by cases heq

end Path

theorem Location.foldl_follow_dots {dots : List String} (h : ∀ dot ∈ dots, dot = "" ∨ dot = ".")
    (start : Location) : dots.foldl follow start = start := by
  induction dots with
  | nil => rfl
  | cons dot rest ih =>
      rw [List.foldl_cons, follow, if_pos (h dot List.mem_cons_self)]
      exact ih fun other hmem => h other (List.mem_cons_of_mem _ hmem)

namespace Disk

variable {disk next : Disk} {path : Path} {parent : Location} {name : String}

-- A straight path to a name in a directory, from a directory that stands or up to one.
structure Aims (disk : Disk) (path : Path) (name : String) (parent : Location) : Prop where
  isName : IsName name
  walk : Location.walk disk.workDir path = name :: parent
  straight : path.Straight
  grounded : disk.Grounded path
  segments : ∃ front, Path.segments path.text = front ++ [name]

namespace Aims

theorem sameBase (h : disk.Aims path name parent) (hsame : SameBase disk next) :
    next.Aims path name parent :=
  ⟨h.isName, by rw [hsame.workDir, h.walk], h.straight, hsame.grounded h.grounded, h.segments⟩

theorem text_ne (h : disk.Aims path name parent) : path.text ≠ "" := by
  obtain ⟨front, hsegments⟩ := h.segments
  exact Path.text_ne_of_segments hsegments h.isName

theorem endsInSlash (h : disk.Aims path name parent) : path.endsInSlash = false := by
  obtain ⟨front, hsegments⟩ := h.segments
  rw [Path.endsInSlash, decide_eq_false_iff_not]
  intro hslash
  rw [Path.segments_of_getLast? hslash] at hsegments
  exact h.isName.1 (List.singleton_inj.1 (List.append_inj_right' hsegments rfl)).symm

theorem reaches (h : disk.Aims path name parent) (hcheck : path.check = .ok ()) :
    disk.Reaches path name parent := by
  obtain ⟨front, hsegments⟩ := h.segments
  have hreaches : disk.Reaches path name (Location.walk disk.workDir path).tail := by
    refine @reaches_straight disk path name (front.filter (· ≠ "")) h.straight h.grounded hcheck ?_
      h.isName
    rw [Path.steps, hsegments, List.filter_append,
      List.filter_cons_of_pos (by simpa using h.isName.1), List.filter_nil]
  rwa [h.walk, List.tail_cons] at hreaches

-- The directory that the file lies in is made, as far as that goes.
theorem raises_makeParent (h : disk.Aims path name parent) (hnear : path.near = true) :
    disk.Raises (disk.makeParent path) parent := by
  obtain ⟨front, hsegments⟩ := h.segments
  have hparent := Path.parent?_concat hsegments h.isName
  have htreads := treads_path h.straight h.grounded
  have hpath := ofSegments_segments h.text_ne
  have hwalk := h.walk
  rw [hsegments] at htreads hpath
  by_cases hfront : front = []
  · subst hfront
    rw [← hpath, htreads.walk_single h.isName, List.cons.injEq] at hwalk
    rw [Disk.makeParent, hparent, ← hwalk.2]
    exact raises_self (htreads.kind?_workDir h.isName)
  · obtain ⟨dots, hdots, hskip, -⟩ :=
      Path.exists_trimEnd front.reverse (List.reverse_ne_nil_iff.2 hfront)
    have hne : (Path.trimEnd front.reverse).reverse ≠ [] :=
      List.reverse_ne_nil_iff.2 (Path.trimEnd_ne_nil (List.reverse_ne_nil_iff.2 hfront))
    rw [if_neg hfront] at hparent
    generalize hkept : (Path.trimEnd front.reverse).reverse = kept at hparent hne
    have hsplit : front = kept ++ dots.reverse := by
      rw [← hkept, ← List.reverse_append, ← hdots, List.reverse_reverse]
    have hback : ".." ∉ dots.reverse ++ [name] := by
      intro hmem
      rcases List.mem_append.1 hmem with hmem | hmem
      · rcases hskip ".." (List.mem_reverse.1 hmem) with heq | heq <;>
          exact absurd heq (by decide)
      · exact h.isName.2.2.1 (List.mem_singleton.1 hmem).symm
    rw [hsplit, List.append_assoc] at htreads hpath
    rw [← hpath, htreads.walk_append hne hback, List.foldl_append,
      Location.foldl_follow_dots fun dot hmem => hskip dot (List.mem_reverse.1 hmem), List.foldl_cons,
      List.foldl_nil, Location.follow, if_neg (not_or.2 ⟨h.isName.1, h.isName.2.1⟩),
      if_neg h.isName.2.2.1, List.cons.injEq] at hwalk
    have hkeptTreads := htreads.left hne hback
    have htext := text_ofSegments_ne hne
    rw [Path.near, hparent, Option.all_some, decide_eq_true_iff, or_iff_right htext] at hnear
    rw [Disk.makeParent, hparent, ← hwalk.2]
    exact makeDirectories_straight htext hkeptTreads.straight_path hkeptTreads.grounded_path hnear

-- No directory is made whose path is not followed.
theorem makeParent_of_not_near (h : disk.Aims path name parent) (hnear : path.near = false) :
    ∃ fault, disk.makeParent path = (.error fault, disk) := by
  obtain ⟨front, hsegments⟩ := h.segments
  have hparent := Path.parent?_concat hsegments h.isName
  by_cases hfront : front = []
  · rw [if_pos hfront] at hparent
    rw [Path.near, hparent] at hnear
    cases hnear
  · rw [if_neg hfront] at hparent
    obtain ⟨dots, -, -, hlast⟩ :=
      Path.exists_trimEnd front.reverse (List.reverse_ne_nil_iff.2 hfront)
    obtain ⟨last, above, hkept⟩ := List.exists_cons_of_ne_nil
      (Path.trimEnd_ne_nil (List.reverse_ne_nil_iff.2 hfront))
    have hskip := hlast last above hkept
    have hslash : ∀ segment ∈ above.reverse ++ [last], '/' ∉ segment.toList := by
      intro segment hmem
      refine @Path.not_mem_of_mem_segments path.text segment ?_
      rw [hsegments]
      refine List.mem_append_left _ (List.mem_reverse.1 ((Path.trimEnd_suffix _).subset ?_))
      rw [hkept]
      simpa [or_comm] using hmem
    rw [hkept, List.reverse_cons] at hparent
    have htext := @text_ofSegments_ne (above.reverse ++ [last]) (by simp)
    rw [Path.near, hparent, Option.all_some, decide_eq_false_iff_not, or_iff_right htext] at hnear
    have hroot : above.reverse ++ [last] ≠ [""] := by
      intro heq
      rw [heq] at hnear
      exact hnear (by decide)
    obtain ⟨fault, hcheck⟩ : ∃ fault,
        (Path.ofSegments (above.reverse ++ [last])).check = .error fault := by
      cases hcheck : (Path.ofSegments (above.reverse ++ [last])).check with
      | ok _ => exact absurd hcheck hnear
      | error fault => exact ⟨fault, rfl⟩
    have hmake : disk.makeDirectory (Path.ofSegments (above.reverse ++ [last])) = .error fault := by
      simp only [makeDirectory, ending, hcheck, bind, Except.bind]
    have hstands : ¬ disk.isDirectory (Path.ofSegments (above.reverse ++ [last])) = true := fun h =>
      hnear (isDirectory_iff.1 h).1
    refine ⟨fault, ?_⟩
    rw [Disk.makeParent, hparent]
    dsimp only
    rw [makeDirectories, if_neg htext, Path.segments_ofSegments (by simp) hroot hslash,
      makeWay_of_error (by simpa using hskip) (Path.ne_notFound_of_check htext hcheck) hmake,
      if_neg hstands]

-- Whether a file can be put there, once its directory is there.
theorem takes_iff (h : disk.Aims path name parent) (hparent : disk.kind? parent = some .directory) :
    disk.Takes path ↔ path.check = .ok () ∧ disk.kind? (name :: parent) ≠ some .directory ∧
      (disk.kind? (name :: parent) = none → name.utf8ByteSize ≤ longestName) := by
  constructor
  · rintro ⟨-, place, last, hending, hfree, hlength⟩
    obtain ⟨hcheck, -, -, hwalk⟩ := ending_eq_name hending
    rw [h.walk] at hwalk
    obtain ⟨rfl, rfl⟩ := List.cons.inj hwalk
    exact ⟨hcheck, hfree, hlength⟩
  · rintro ⟨hcheck, hfree, hlength⟩
    exact ⟨h.endsInSlash, parent, name, (h.reaches hcheck).ending hparent, hfree, hlength⟩

end Aims

theorem aims_path (hnamed : Location.Named (name :: parent)) :
    disk.Aims (Location.path (name :: parent)) name parent := by
  refine ⟨hnamed name List.mem_cons_self, Location.walk_path hnamed _,
    (Location.descends_path hnamed).straight, .inl (Location.isAbsolute_path _),
    "" :: parent.reverse, ?_⟩
  rw [Location.segments_path hnamed (List.cons_ne_nil _ _), List.reverse_cons, List.cons_append]

-- The path to what lies below a directory.
theorem aims_join {out : Path} {below : Location} (hstraight : out.Straight)
    (hgrounded : disk.Grounded out) (hnamed : Location.Named (name :: below)) :
    disk.Aims (out.join ⟨"/".intercalate (name :: below).reverse⟩) name
      (below ++ Location.walk disk.workDir out) := by
  have hrelative := Location.isAbsolute_names hnamed
  have hsegments := @Path.segments_join out _ hrelative
  rw [Location.segments_names (List.cons_ne_nil _ _) hnamed] at hsegments
  -- A slash at the end of the path of the directory leaves an empty segment, which is left out.
  generalize hfront : (if out.text = "" then []
    else if out.text.toList.getLast? = some '/' then (Path.segments out.text).dropLast
    else Path.segments out.text) = front at hsegments
  have hsub : front.Sublist (Path.segments out.text) ∧
      front.count ".." = (Path.segments out.text).count ".." := by
    rw [← hfront]
    split
    · next hempty =>
      rw [hempty]
      exact ⟨List.nil_sublist _, by decide⟩
    · split
      · next hslash =>
        refine ⟨List.dropLast_sublist _, ?_⟩
        rw [Path.segments_of_getLast? hslash]
        simp
      · exact ⟨.refl _, rfl⟩
  have hup : ".." ∉ (name :: below).reverse := fun hmem =>
    (hnamed ".." (List.mem_reverse.1 hmem)).2.2.1 rfl
  refine ⟨hnamed name List.mem_cons_self, Location.walk_join_names hnamed _ out, ?_, ?_,
    front ++ below.reverse, ?_⟩
  · rw [Path.Straight, hsegments, List.pairwise_append]
    refine ⟨hstraight.sublist hsub.1, ?_, fun _ _ later hmem heq => absurd (heq ▸ hmem) hup⟩
    exact List.pairwise_of_forall_mem_list fun _ _ later hmem heq => absurd (heq ▸ hmem) hup
  · refine hgrounded.imp Path.isAbsolute_join fun hrises => ?_
    rwa [Path.rises, hsegments, List.count_append, List.count_eq_zero_of_not_mem hup, Nat.add_zero,
      hsub.2]
  · rw [hsegments, List.reverse_cons, List.append_assoc]

-- What is left of an attempt to put a file at a place, and whether that has succeeded.
structure Lands (slot : Slot) (content : ByteArray) (done : Prop) (before after : Disk) : Prop where
  base : SameBase before after
  done : done ↔ slot.Fits before.kind?
  kind? : after.kind? = slot.fill content before.kind?

-- What lands at a slot is all that there is to the disk after it.
theorem Lands.unique {slot : Slot} {content : ByteArray} {done done' : Prop} {before after last : Disk}
    (h : Lands slot content done before after) (h' : Lands slot content done' before last) :
    (done' ↔ done) ∧ last = after :=
  ⟨h'.done.trans h.done.symm,
    (h.base.symm.trans h'.base).eq_of_kind? (h'.kind?.trans h.kind?.symm)⟩

theorem Aims.place_slot (h : disk.Aims path name parent) :
    (path.slot disk.workDir).place = name :: parent :=
  h.walk

-- All that is made elsewhere are the directories that lead there.
theorem Lands.raises {content : ByteArray} {done : Prop} {location : Location}
    (h : Lands (path.slot disk.workDir) content done disk next)
    (haims : disk.Aims path name parent) (hnear : path.near = true)
    (hne : location ≠ name :: parent) :
    next.kind? location = Scene.raise disk.kind? parent location := by
  rw [h.kind?, Slot.fill_of_ne (by rwa [haims.place_slot]), haims.place_slot]
  exact if_pos hnear

end Disk

namespace Progress

variable {progress : Progress} {destination : Path} {name : String} {parent : Location}
  {content : ByteArray}

theorem fits_slot {disk : Disk} (h : disk.Aims destination name parent) :
    (destination.slot disk.workDir).Fits disk.kind? ↔ destination.check = .ok () ∧
      Scene.Passable disk.kind? parent ∧ disk.kind? (name :: parent) ≠ some .directory ∧
      (disk.kind? (name :: parent) = none → name.utf8ByteSize ≤ Disk.longestName) := by
  rw [Slot.Fits, h.place_slot, List.tail_cons]
  simp only [Path.slot, decide_eq_true_iff, Location.Creatable, List.head?_cons,
    Option.mem_some_iff, forall_eq', h.isName, true_and]

theorem place_lands {ready : Disk → Prop} {change : Disk → Except Fault Disk}
    (h : progress.disk.Aims destination name parent)
    (hstores : Disk.Stores destination content ready change) (hready : ready progress.disk) :
    Disk.Lands (destination.slot progress.disk.workDir) content
      ((progress.place destination change).1 = .ok ()) progress.disk
      (progress.place destination change).2.disk := by
  have hplace := h.place_slot
  have hfits := fits_slot h
  by_cases hnear : destination.near = true
  · obtain ⟨hreach, hkind⟩ := h.raises_makeParent hnear
    have hbase := progress.disk.sameBase_makeParent destination
    have hgrows := progress.disk.makeParent_grows destination
    unfold place
    generalize progress.disk.makeParent destination = made at hreach hkind hbase hgrows ⊢
    obtain ⟨result, middle⟩ := made
    dsimp only at hreach hkind hbase hgrows
    have hself : middle.kind? (name :: parent) = progress.disk.kind? (name :: parent) := by
      rw [hkind, Scene.raise_of_not_within Disk.not_within_tail]
    -- What has been made is what the slot says, if the file does not fit.
    have hmade : ¬ (destination.slot progress.disk.workDir).Fits progress.disk.kind? →
        middle.kind? = (destination.slot progress.disk.workDir).fill content progress.disk.kind? := by
      intro hnot
      funext other
      rw [Slot.fill_of_not_fits hnot, hkind, hplace]
      exact (if_pos hnear).symm
    cases result with
    | error fault =>
        have hnot : ¬ (destination.slot progress.disk.workDir).Fits progress.disk.kind? := fun h => by
          cases hreach.2 (hfits.1 h).2.1
        exact ⟨hbase, iff_of_false (by simp) hnot, hmade hnot⟩
    | ok _ =>
        have hpass := hreach.1 rfl
        have hmiddle := hstores.grows progress.disk middle hgrows hready
        have hparent : middle.kind? parent = some .directory := by
          rw [hkind]
          exact Disk.raise_self hpass
        have htakes := (hstores.takes middle hmiddle).trans ((h.sameBase hbase).takes_iff hparent)
        rw [hself] at htakes
        dsimp only
        by_cases hfit : (destination.slot progress.disk.workDir).Fits progress.disk.kind?
        · obtain ⟨hcheck, -, hfree, hlength⟩ := hfits.1 hfit
          obtain ⟨next, hchange⟩ := htakes.2 ⟨hcheck, hfree, hlength⟩
          rw [hchange]
          refine ⟨hbase.trans (hstores.base _ _ hchange), iff_of_true rfl hfit,
            funext fun other => ?_⟩
          rw [disk_onDisk, hstores.kind? _ _ hmiddle hchange, hbase.workDir, Slot.fill, hplace, hkind]
          by_cases heq : other = name :: parent
          · rw [if_pos (heq.trans h.walk.symm), if_pos ⟨heq, hfit⟩]
          · rw [if_neg (heq ∘ (·.trans h.walk)), if_neg fun hboth => heq hboth.1]
            exact (if_pos hnear).symm
        · cases hchange : change middle with
          | error fault => exact ⟨hbase, iff_of_false (by simp) hfit, hmade hfit⟩
          | ok next =>
              obtain ⟨hcheck, hfree, hlength⟩ := htakes.1 ⟨next, hchange⟩
              exact absurd (hfits.2 ⟨hcheck, hpass, hfree, hlength⟩) hfit
  · rw [Bool.not_eq_true] at hnear
    obtain ⟨fault, hmake⟩ := h.makeParent_of_not_near hnear
    have hnot : ¬ (destination.slot progress.disk.workDir).Fits progress.disk.kind? := fun hfit => by
      rw [Path.near_of_check (hfits.1 hfit).1] at hnear
      cases hnear
    have hplaced : progress.place destination change =
        (.error fault, progress.onDisk progress.disk) := by
      rw [place, hmake]
    rw [hplaced]
    refine ⟨.refl _, iff_of_false (by simp) hnot, funext fun other => ?_⟩
    rw [Slot.fill_of_not_fits hnot]
    exact (if_neg (by simp [Path.slot, hnear])).symm

-- What a page is written to, and an asset copied to.
theorem writeOutput_lands (h : progress.disk.Aims destination name parent) :
    Disk.Lands (destination.slot progress.disk.workDir) content
      ((progress.writeOutput destination content).1 = .written destination) progress.disk
      (progress.writeOutput destination content).2.disk := by
  have hplace := place_lands h (Disk.stores_write destination content) trivial
  obtain ⟨hbase, hdone, hkind⟩ := hplace
  unfold writeOutput
  split
  · next heq =>
    rw [heq] at hbase hdone hkind
    exact ⟨hbase, iff_of_true rfl (hdone.1 rfl), hkind⟩
  · next heq =>
    rw [heq] at hbase hdone hkind
    exact ⟨hbase, iff_of_false (by simp) (fun hfits => by cases hdone.2 hfits), hkind⟩

theorem copyOutput_lands (h : progress.disk.Aims destination name parent) {source : Location}
    (hsource : source.Followable) (hfile : progress.disk.file? source = some content)
    (hne : source ≠ name :: parent) :
    Disk.Lands (destination.slot progress.disk.workDir) content
      ((progress.copyOutput source.path destination).1 = .copied destination) progress.disk
      (progress.copyOutput source.path destination).2.disk := by
  have hplace := place_lands h (Disk.stores_copy hsource destination content)
    ⟨hfile, fun heq => hne (heq.trans h.walk)⟩
  obtain ⟨hbase, hdone, hkind⟩ := hplace
  unfold copyOutput
  split
  · next heq =>
    rw [heq] at hbase hdone hkind
    exact ⟨hbase, iff_of_true rfl (hdone.1 rfl), hkind⟩
  · next heq =>
    rw [heq] at hbase hdone hkind
    exact ⟨hbase, iff_of_false (by simp) (fun hfits => by cases hdone.2 hfits), hkind⟩

end Progress

end StaticSite
