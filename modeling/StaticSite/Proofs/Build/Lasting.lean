import StaticSite.Proofs.Build.Placing
import StaticSite.Proofs.Disk.Extending

-- A way that is made again, and a file that is put again, on a disk on which more has been made
-- since.
namespace StaticSite

namespace Disk

variable {disk middle later next : Disk} {path : Path}

section Way

variable {front : List String} {last : String}

theorem origin_ofSegments (hne : front ≠ [])
    (hslash : ∀ segment ∈ front ++ [last], '/' ∉ segment.toList) :
    disk.origin (Path.ofSegments (front ++ [last])) = disk.origin (Path.ofSegments front) := by
  have habsolute : (Path.ofSegments (front ++ [last])).isAbsolute =
      (Path.ofSegments front).isAbsolute := by
    rw [Bool.eq_iff_iff, isAbsolute_ofSegments (by simp) hslash,
      isAbsolute_ofSegments hne fun segment hmem => hslash segment (List.mem_append_left _ hmem),
      List.head?_append_of_ne_nil _ hne]
  rw [origin, origin, habsolute]

theorem steps_ofSegments_concat (hslash : ∀ segment ∈ front ++ [last], '/' ∉ segment.toList)
    (hlast : last ≠ "") :
    (Path.ofSegments (front ++ [last])).steps = front.filter (· ≠ "") ++ [last] := by
  rw [steps_ofSegments (by simp) hslash, List.filter_append,
    List.filter_cons_of_pos (by simpa using hlast), List.filter_nil]

-- The way to the last segment is the path to what comes before.
theorem way_ofSegments (hne : front ≠ [])
    (hslash : ∀ segment ∈ front ++ [last], '/' ∉ segment.toList) (hlast : last ≠ "") :
    disk.way (Path.ofSegments (front ++ [last])) = disk.lead (Path.ofSegments front) := by
  rw [way, lead, steps_ofSegments_concat hslash hlast, List.dropLast_concat,
    origin_ofSegments hne hslash,
    steps_ofSegments hne fun segment hmem => hslash segment (List.mem_append_left _ hmem)]

theorem enters_dot (hne : front ≠ []) (hslash : ∀ segment ∈ front ++ [last], '/' ∉ segment.toList)
    (hdot : last = "" ∨ last = ".") :
    disk.Enters (Path.ofSegments (front ++ [last])) ↔ disk.Enters (Path.ofSegments front) := by
  have hfront : ∀ segment ∈ front, '/' ∉ segment.toList := fun segment hmem =>
    hslash segment (List.mem_append_left _ hmem)
  rcases hdot with rfl | rfl
  · rw [Enters, Enters, lead, lead, origin_ofSegments hne hslash, steps_ofSegments (by simp) hslash,
      steps_ofSegments hne hfront]
    simp
  · rw [Enters, Enters, lead_of_concat (steps_ofSegments_concat hslash (by decide)),
      way_ofSegments hne hslash (by decide)]
    cases disk.lead (Path.ofSegments front) with
    | error fault => simp [Except.bind]
    | ok spot => cases spot <;> simp [Except.bind, enter, Spot.entry, Entry.isDirectory]

theorem makeWay_skip (h : (last = "" ∨ last = ".") ∧ front ≠ []) (disk : Disk) :
    disk.makeWay (front ++ [last]).reverse = disk.makeWay front.reverse := by
  rw [List.reverse_concat, makeWay, if_pos (by simpa using h)]

-- A way is there already where it leads to a directory.
theorem makeWay_of_enters (hne : front ≠ []) (hslash : ∀ segment ∈ front, '/' ∉ segment.toList)
    (hcheck : (Path.ofSegments front).check = .ok ()) (h : disk.Enters (Path.ofSegments front)) :
    disk.makeWay front.reverse = (.ok (), disk) := by
  induction front using List.reverseRecOn with
  | nil => exact absurd rfl hne
  | append_singleton front last ih =>
      by_cases hskip : (last = "" ∨ last = ".") ∧ front ≠ []
      · rw [makeWay_skip hskip]
        exact ih hskip.2 (fun segment hmem => hslash segment (List.mem_append_left _ hmem))
          (check_ofSegments_append hskip.2 hcheck) ((enters_dot hskip.2 hslash hskip.1).1 h)
      · exact makeWay_of_isDirectory hskip (isDirectory_iff.2 ⟨hcheck, h⟩)

-- A way that has been made leads to a directory.
theorem enters_of_makeWay (hne : front ≠ []) (hslash : ∀ segment ∈ front, '/' ∉ segment.toList)
    (h : disk.makeWay front.reverse = (.ok (), middle)) : middle.Enters (Path.ofSegments front) := by
  induction front using List.reverseRecOn with
  | nil => exact absurd rfl hne
  | append_singleton front last ih =>
      by_cases hskip : (last = "" ∨ last = ".") ∧ front ≠ []
      · rw [makeWay_skip hskip] at h
        exact (enters_dot hskip.2 hslash hskip.1).2
          (ih hskip.2 (fun segment hmem => hslash segment (List.mem_append_left _ hmem)) h)
      · rw [makeWay_concat hskip] at h
        have hmade : ∀ {made next : Disk},
            made.makeDirectory (Path.ofSegments (front ++ [last])) = .ok next →
              next.Enters (Path.ofSegments (front ++ [last])) := fun hmake =>
          (isDirectory_iff.1 (isDirectory_of_makeDirectory hmake (.refl _))).2
        have hthere : ∀ {there : Disk} {fault : Fault},
            ((if there.isDirectory (Path.ofSegments (front ++ [last])) then .ok ()
              else .error fault, there) : Except Fault Unit × Disk) = (.ok (), middle) →
              middle.Enters (Path.ofSegments (front ++ [last])) := by
          intro there fault heq
          split at heq
          · next hdirectory =>
            cases heq
            exact (isDirectory_iff.1 hdirectory).2
          · cases heq
        split at h
        · next next hmake =>
          cases h
          exact hmade hmake
        · split at h
          · cases h
          · split at h
            · next next hmake =>
              cases h
              exact hmade hmake
            · exact hthere h
        · exact hthere h

theorem makeWay_of_ending (hskip : ¬ ((last = "" ∨ last = ".") ∧ front ≠ []))
    (hslash : ∀ segment ∈ front ++ [last], '/' ∉ segment.toList) {ending : Ending}
    (h : disk.ending (Path.ofSegments (front ++ [last])) = .ok ending) :
    disk.makeWay front.reverse = (.ok (), disk) := by
  by_cases hne : front = []
  · subst hne
    rfl
  · have hlast : last ≠ "" := fun heq => hskip ⟨.inl heq, hne⟩
    cases hcheck : (Path.ofSegments (front ++ [last])).check with
    | error fault =>
        rw [ending_of_check hcheck] at h
        cases h
    | ok _ =>
        rw [ending_of_concat hcheck (steps_ofSegments_concat hslash hlast),
          way_ofSegments hne hslash hlast] at h
        obtain ⟨spot, hspot, hfinish⟩ := bind_eq_ok.1 h
        refine makeWay_of_enters hne (fun segment hmem => hslash segment (List.mem_append_left _ hmem))
          (check_ofSegments_append hne hcheck) ⟨spot, hspot, ?_⟩
        unfold finish at hfinish
        split at hfinish
        · cases hfinish
        · next hdirectory => simpa using hdirectory

-- Nothing is missing on the way once it has been made.
theorem ending_of_makeWay (h : Extends middle later)
    (hskip : ¬ ((last = "" ∨ last = ".") ∧ front ≠ []))
    (hslash : ∀ segment ∈ front ++ [last], '/' ∉ segment.toList)
    (hmade : disk.makeWay front.reverse = (.ok (), middle)) :
    later.ending (Path.ofSegments (front ++ [last])) =
      middle.ending (Path.ofSegments (front ++ [last])) := by
  refine (h.ending _).resolve_right fun hmissing => ?_
  by_cases hlast : last = ""
  · have hne : front = [] := by
      by_contra hne
      exact hskip ⟨.inl hlast, hne⟩
    subst hlast hne
    cases hmissing.1
  · by_cases hne : front = []
    · subst hne
      have hsteps := steps_ofSegments_concat hslash hlast
      rw [way, hsteps] at hmissing
      cases hmissing.1
    · obtain ⟨spot, hlead, -⟩ := enters_of_makeWay hne
        (fun segment hmem => hslash segment (List.mem_append_left _ hmem)) hmade
      rw [way_ofSegments hne hslash hlast, hlead] at hmissing
      cases hmissing.1

theorem makeWay_fails (hskip : ¬ ((last = "" ∨ last = ".") ∧ front ≠ [])) {fault : Fault}
    (hmake : disk.makeDirectory (Path.ofSegments (front ++ [last])) = .error fault)
    (hnot : ¬ disk.isDirectory (Path.ofSegments (front ++ [last])) = true)
    (hway : fault = .notFound → (disk.makeWay front.reverse).2 = disk) :
    ∃ last', disk.makeWay (front ++ [last]).reverse = (.error last', disk) := by
  by_cases hfault : fault = .notFound
  · subst hfault
    rw [makeWay_concat hskip, hmake]
    dsimp only
    generalize disk.makeWay front.reverse = way at hway
    obtain ⟨result, middle⟩ := way
    obtain rfl : middle = disk := hway rfl
    cases result with
    | error fault => exact ⟨fault, rfl⟩
    | ok _ =>
        simp only [hmake, if_neg hnot]
        exact ⟨.notFound, rfl⟩
  · exact ⟨fault, by rw [makeWay_of_error hskip hfault hmake, if_neg hnot]⟩

-- A way that is made again is there already, as far as it could be made, and where it could not be,
-- it cannot be again.
theorem makeWay_again (hslash : ∀ segment ∈ front, '/' ∉ segment.toList)
    (h : Extends (disk.makeWay front.reverse).2 later) :
    (later.makeWay front.reverse).2 = later ∧
      ((later.makeWay front.reverse).1 = .ok () ↔ (disk.makeWay front.reverse).1 = .ok ()) := by
  induction front using List.reverseRecOn with
  | nil => exact ⟨rfl, Iff.rfl⟩
  | append_singleton front last ih =>
      have hfront : ∀ segment ∈ front, '/' ∉ segment.toList := fun segment hmem =>
        hslash segment (List.mem_append_left _ hmem)
      by_cases hskip : (last = "" ∨ last = ".") ∧ front ≠ []
      · rw [makeWay_skip hskip] at h ⊢
        rw [makeWay_skip hskip]
        exact ih hfront h
      · have hthere : ∀ {made : Except Fault Unit × Disk}, made.1 = .ok () →
            later.isDirectory (Path.ofSegments (front ++ [last])) = true →
            (later.makeWay (front ++ [last]).reverse).2 = later ∧
              ((later.makeWay (front ++ [last]).reverse).1 = .ok () ↔ made.1 = .ok ()) := by
          intro made hmade hdirectory
          rw [makeWay_of_isDirectory hskip hdirectory]
          exact ⟨rfl, iff_of_true rfl hmade⟩
        have hfails : ∀ {made : Except Fault Unit × Disk} {fault : Fault}, made.1 ≠ .ok () →
            later.makeDirectory (Path.ofSegments (front ++ [last])) = .error fault →
            ¬ later.isDirectory (Path.ofSegments (front ++ [last])) = true →
            (fault = .notFound → (later.makeWay front.reverse).2 = later) →
            (later.makeWay (front ++ [last]).reverse).2 = later ∧
              ((later.makeWay (front ++ [last]).reverse).1 = .ok () ↔ made.1 = .ok ()) := by
          intro made fault hmade hmake hnot habove
          obtain ⟨fault, hway⟩ := makeWay_fails hskip hmake hnot habove
          rw [hway]
          exact ⟨rfl, iff_of_false (by simp) hmade⟩
        cases hmake : disk.makeDirectory (Path.ofSegments (front ++ [last])) with
        | ok next =>
            rw [makeWay_concat hskip disk, hmake] at h ⊢
            exact hthere rfl (isDirectory_of_makeDirectory hmake h)
        | error fault =>
            by_cases hfault : fault = .notFound
            · subst hfault
              rw [makeWay_concat hskip disk, hmake] at h ⊢
              dsimp only at h ⊢
              have hmiddle := ih hfront
              cases hway : disk.makeWay front.reverse with
              | mk result middle =>
                  rw [hway] at h hmiddle
                  cases result with
                  | error fault =>
                      obtain ⟨habove, hblocked⟩ := hmiddle h
                      have hending : ∀ ending,
                          later.ending (Path.ofSegments (front ++ [last])) ≠ .ok ending := by
                        intro ending hending
                        rw [makeWay_of_ending hskip hslash hending] at hblocked
                        cases hblocked.1 rfl
                      cases hlater : later.makeDirectory (Path.ofSegments (front ++ [last])) with
                      | ok next =>
                          obtain ⟨ending, hok, -⟩ := bind_eq_ok.1 hlater
                          exact absurd hok (hending ending)
                      | error other =>
                          refine hfails (by simp) hlater (fun hdirectory => ?_) fun _ => habove
                          obtain ⟨ending, hok, -⟩ := isDirectory_iff_ending.1 hdirectory
                          exact hending ending hok
                  | ok _ =>
                      dsimp only at h ⊢
                      cases hmake' : middle.makeDirectory (Path.ofSegments (front ++ [last])) with
                      | ok next =>
                          rw [hmake'] at h
                          exact hthere rfl (isDirectory_of_makeDirectory hmake' h)
                      | error other =>
                          rw [hmake'] at h
                          by_cases hdirectory :
                              middle.isDirectory (Path.ofSegments (front ++ [last])) = true
                          · exact hthere (if_pos hdirectory) (h.isDirectory hdirectory)
                          · obtain ⟨hlater, hnot⟩ := makeDirectory_fails h
                              (ending_of_makeWay h hskip hslash hway) hmake' hdirectory
                            exact hfails (by simp [hdirectory]) hlater hnot fun _ => (hmiddle h).1
            · rw [makeWay_of_error hskip hfault hmake] at h ⊢
              by_cases hdirectory : disk.isDirectory (Path.ofSegments (front ++ [last])) = true
              · exact hthere (if_pos hdirectory) (h.isDirectory hdirectory)
              · have hending := (h.ending _).resolve_right fun hmissing => by
                  rw [makeDirectory, hmissing.2] at hmake
                  exact hfault (Except.error.inj hmake).symm
                obtain ⟨hlater, hnot⟩ := makeDirectory_fails h hending hmake hdirectory
                exact hfails (by simp [hdirectory]) hlater hnot fun heq => absurd heq hfault

-- Empty segments and dots at the end of a path do not matter.
theorem enters_dots {dots : List String} (hne : front ≠ [])
    (hslash : ∀ segment ∈ front ++ dots, '/' ∉ segment.toList)
    (hdots : ∀ dot ∈ dots, dot = "" ∨ dot = ".") :
    disk.Enters (Path.ofSegments (front ++ dots)) ↔ disk.Enters (Path.ofSegments front) := by
  induction dots using List.reverseRecOn with
  | nil => rw [List.append_nil]
  | append_singleton dots last ih =>
      rw [← List.append_assoc] at hslash ⊢
      rw [enters_dot (by simp [hne]) hslash (hdots last (by simp))]
      exact ih (fun segment hmem => hslash segment (List.mem_append_left _ hmem))
        fun dot hmem => hdots dot (List.mem_append_left _ hmem)

end Way

theorem Extends.makeParent (disk : Disk) (path : Path) :
    Extends disk (disk.makeParent path).2 := by
  unfold Disk.makeParent
  split
  · unfold makeDirectories
    split
    · exact .refl disk
    · exact .makeWay disk _
  · exact .refl disk

theorem makeParent_again (h : Extends (disk.makeParent path).2 later) :
    (later.makeParent path).2 = later ∧
      ((later.makeParent path).1 = .ok () ↔ (disk.makeParent path).1 = .ok ()) := by
  unfold Disk.makeParent at h ⊢
  split
  · next parent hparent =>
    rw [hparent] at h
    unfold makeDirectories at h ⊢
    dsimp only at h
    split
    · exact ⟨rfl, Iff.rfl⟩
    · next hne =>
      rw [if_neg hne] at h
      exact makeWay_again (fun _ => Path.not_mem_of_mem_segments) h
  · exact ⟨rfl, Iff.rfl⟩

-- The directory of a file is there once it has been made.
theorem ending_of_makeParent {front : List String} {name : String} (h : Extends middle later)
    (hsegments : Path.segments path.text = front ++ [name]) (hname : IsName name)
    (hmade : disk.makeParent path = (.ok (), middle)) :
    later.ending path = middle.ending path := by
  refine (h.ending path).resolve_right fun hmissing => ?_
  have hslash : ∀ segment ∈ front ++ [name], '/' ∉ segment.toList := fun segment hmem =>
    Path.not_mem_of_mem_segments (hsegments ▸ hmem)
  have hparent := Path.parent?_concat hsegments hname
  by_cases hfront : front = []
  · subst hfront
    have hsteps : path.steps = [name] := by
      rw [Path.steps, hsegments]
      simpa using hname.1
    rw [way, hsteps] at hmissing
    cases hmissing.1
  · obtain ⟨dots, hsplit, hdots, -⟩ :=
      Path.exists_trimEnd front.reverse (List.reverse_ne_nil_iff.2 hfront)
    have hkept : (Path.trimEnd front.reverse).reverse ≠ [] :=
      List.reverse_ne_nil_iff.2 (Path.trimEnd_ne_nil (List.reverse_ne_nil_iff.2 hfront))
    rw [if_neg hfront] at hparent
    generalize htrim : (Path.trimEnd front.reverse).reverse = kept at hparent hkept
    have hback : front = kept ++ dots.reverse := by
      rw [← htrim, ← List.reverse_append, ← hsplit, List.reverse_reverse]
    have htext := text_ofSegments_ne hkept
    rw [Disk.makeParent, hparent] at hmade
    dsimp only at hmade
    rw [makeDirectories, if_neg htext] at hmade
    have henters := enters_of_makeWay (Path.segments_ne_nil _)
      (fun _ => Path.not_mem_of_mem_segments) hmade
    rw [ofSegments_segments htext, ← enters_dots hkept
      (fun segment hmem => hslash segment (List.mem_append_left _ (hback ▸ hmem)))
      fun dot hmem => hdots dot (List.mem_reverse.1 hmem), ← hback] at henters
    obtain ⟨spot, hlead, -⟩ := henters
    rw [← ofSegments_segments (Path.text_ne_of_segments hsegments hname), hsegments, way_ofSegments hfront hslash hname.1, hlead]
      at hmissing
    cases hmissing.1

end Disk

namespace Progress

variable {progress other : Progress} {destination : Path} {content : ByteArray}
  {ready : Disk → Prop} {change : Disk → Except Fault Disk} {front : List String} {name : String}

-- A file that is put again where it has been put, with what has been made since, is put there, and
-- one that could not be put there cannot be. Nothing else changes.
theorem place_again (hstores : Disk.Stores destination content ready change)
    (hsegments : Path.segments destination.text = front ++ [name]) (hname : IsName name)
    (hready : ready progress.disk) (hready' : ready other.disk)
    (h : Disk.Extends (progress.place destination change).2.disk other.disk) :
    ((progress.place destination change).1 = .ok () ∧ (other.place destination change).1 = .ok () ∧
      (progress.place destination change).2.disk.kind?
        (Location.walk progress.disk.workDir destination) = some (.file content) ∧
      ∀ location, (other.place destination change).2.disk.kind? location =
        if location = Location.walk progress.disk.workDir destination then some (.file content)
        else other.disk.kind? location) ∨
    ((progress.place destination change).1 ≠ .ok () ∧ (other.place destination change).1 ≠ .ok () ∧
      (other.place destination change).2.disk = other.disk) := by
  have hmade := Disk.Extends.makeParent progress.disk destination
  have hgrows := progress.disk.makeParent_grows destination
  have hagain := @Disk.makeParent_again progress.disk other.disk destination
  have hending := @Disk.ending_of_makeParent progress.disk (progress.disk.makeParent destination).2
    other.disk destination front name
  unfold place at h ⊢
  generalize progress.disk.makeParent destination = way at h hmade hgrows hagain hending ⊢
  generalize other.disk.makeParent destination = way' at hagain ⊢
  obtain ⟨result, middle⟩ := way
  obtain ⟨result', middle'⟩ := way'
  dsimp only at h hmade hgrows hagain hending
  cases result with
  | error fault =>
      obtain ⟨rfl, hresult⟩ := hagain h
      cases result' with
      | ok _ => cases hresult.1 rfl
      | error fault' => exact .inr ⟨by simp, by simp, rfl⟩
  | ok _ =>
      have hmiddle := hstores.grows progress.disk middle hgrows hready
      dsimp only at h
      cases hchange : change middle with
      | ok next =>
          rw [hchange] at h
          obtain ⟨rfl, hresult⟩ := hagain ((hstores.extension hmiddle hchange).trans h)
          cases result' with
          | error fault => cases hresult.2 rfl
          | ok _ =>
              obtain ⟨next', hnext'⟩ := (hstores.takes _ hready').2
                (hstores.takes_again hmiddle hchange h)
              have hbase := hmade.base.trans ((hstores.base _ _ hchange).trans h.base)
              dsimp only
              rw [hchange, hnext', ← hbase.workDir]
              refine .inl ⟨rfl, rfl, ?_, hstores.kind? _ _ hready' hnext'⟩
              rw [disk_onDisk, hstores.kind? _ _ hmiddle hchange, hbase.workDir,
                hmade.base.workDir, if_pos rfl]
      | error fault =>
          rw [hchange] at h
          obtain ⟨rfl, hresult⟩ := hagain h
          cases result' with
          | error fault => cases hresult.2 rfl
          | ok _ =>
              dsimp only
              rw [hchange]
              cases hnext' : change other.disk with
              | ok next' =>
                  obtain ⟨next, hnext⟩ := (hstores.takes _ hmiddle).2 (h.takes
                    (hending h hsegments hname rfl) ((hstores.takes _ hready').1 ⟨_, hnext'⟩))
                  rw [hchange] at hnext
                  cases hnext
              | error fault' => exact .inr ⟨by simp, by simp, rfl⟩

end Progress

end StaticSite
