import Mathlib.Algebra.GroupWithZero.Nat
import StaticSite.Proofs.Disk.Named
import StaticSite.Proofs.Path.Relative
import StaticSite.Proofs.Scan.Containment

-- The paths that a search spells on its way, and where a disk follows them to.
namespace StaticSite

namespace Path

variable {path rest : Path}

theorem text_join (h : rest.isAbsolute = false) (hne : path.text ≠ "") :
    (path.join rest).text = path.text ++ (if path.endsInSlash then "" else "/") ++ rest.text := by
  rw [join, if_neg (by simp [h]), endsInSlash]
  by_cases hslash : path.text.toList.getLast? = some '/'
  · simp [hslash]
  · simp [hslash, hne]

theorem components_ne_nil (h : path.text ≠ "") : path.components ≠ [] := by
  obtain ⟨first, others, heq⟩ := List.exists_cons_of_ne_nil (segments_ne_nil path.text)
  rw [components_of_segments heq]
  by_cases hempty : first = ""
  · have hothers : others ≠ [] := by
      rintro rfl
      refine h ?_
      rw [← intercalate_segments path.text, heq, hempty]
      rfl
    simp [hempty, hothers]
  · by_cases hdot : first = "."
    · simp [hdot]
    · have hpart : Component.ofSegment? first ≠ none := by
        rw [Component.ofSegment?, if_neg (not_or.2 ⟨hempty, hdot⟩)]
        split <;> simp
      obtain ⟨part, hpart⟩ := Option.ne_none_iff_exists'.1 hpart
      simp [hempty, hdot, hpart]

theorem steps_join (h : rest.isAbsolute = false) (hne : path.text ≠ "") :
    (path.join rest).steps = path.steps ++ rest.steps := by
  rw [steps, segments_join h, if_neg hne, List.filter_append]
  refine congrArg (· ++ _) ?_
  split
  · next hslash =>
    rw [steps, segments_of_getLast? hslash, List.dropLast_concat, List.filter_append]
    simp
  · rfl

-- How long a path is with a slash at its end.
def sizeWithSlash (path : Path) : Nat :=
  path.text.utf8ByteSize + if path.endsInSlash then 0 else 1

theorem sizeWithSlash_le (path : Path) : path.sizeWithSlash ≤ path.text.utf8ByteSize + 1 := by
  unfold sizeWithSlash
  split <;> omega

theorem size_join (h : rest.isAbsolute = false) (hne : path.text ≠ "") :
    (path.join rest).text.utf8ByteSize = path.sizeWithSlash + rest.text.utf8ByteSize := by
  rw [text_join h hne, sizeWithSlash, String.utf8ByteSize_append, String.utf8ByteSize_append]
  split <;> rfl

-- The segments of a text, each with a slash after it.
theorem sum_segments (text : String) :
    ((segments text).map fun segment => segment.utf8ByteSize + 1).sum = text.utf8ByteSize + 1 := by
  have hpieces : ∀ chars : List Char,
      ((pieces chars).map fun piece => (String.ofList piece).utf8ByteSize + 1).sum =
        (String.ofList chars).utf8ByteSize + 1 := by
    intro chars
    induction chars with
    | nil => rfl
    | cons c rest ih =>
        have hcons : ∀ c chars, (String.ofList (c :: chars)).utf8ByteSize =
            (String.ofList [c]).utf8ByteSize + (String.ofList chars).utf8ByteSize := by
          intro c chars
          rw [← String.utf8ByteSize_append, ← String.ofList_append, List.singleton_append]
        obtain ⟨piece, others, heq⟩ := List.exists_cons_of_ne_nil (pieces_ne_nil rest)
        rw [pieces]
        rw [heq, List.map_cons, List.sum_cons] at ih
        rw [heq, hcons c rest]
        split
        · next hc =>
          have hslash : (String.ofList ['/']).utf8ByteSize = 1 := by decide
          have hempty : (String.ofList []).utf8ByteSize = 0 := by decide
          rw [List.map_cons, List.sum_cons, List.map_cons, List.sum_cons, hc]
          omega
        · have := hcons c piece
          dsimp only
          rw [List.map_cons, List.sum_cons]
          omega
  rw [segments, List.map_map]
  simpa [Function.comp_def] using hpieces text.toList

end Path

namespace Glob

variable {disk : Disk} {path : Path} {segment : String}

-- A path on the way of a search: dots at its beginning are one dot.
def IsSpelled (path : Path) : Prop :=
  path.text ≠ "" ∧ (path = ⟨"."⟩ ∨ path.same ⟨"."⟩ = false)

theorem extend_dot (segment : String) : extend ⟨"."⟩ segment = ⟨segment⟩ := by
  rw [extend, if_pos (by decide)]

theorem extend_of_same_eq_false (h : path.same ⟨"."⟩ = false) :
    extend path segment = path.join ⟨segment⟩ := by
  rw [extend, h, if_neg (by decide)]

theorem same_dot_iff : path.same ⟨"."⟩ = true ↔ path.components = [.here] := by
  rw [Path.same, show Path.components ⟨"."⟩ = [.here] by decide, decide_eq_true_iff]

theorem segments_mk (h : '/' ∉ segment.toList) : Path.segments (Path.mk segment).text = [segment] :=
  Path.segments_of_not_mem h

theorem steps_mk (h : '/' ∉ segment.toList) :
    (Path.mk segment).steps = if segment = "" then [] else [segment] := by
  rw [Path.steps, segments_mk h]
  by_cases hempty : segment = "" <;> simp [hempty]

theorem components_mk (h : '/' ∉ segment.toList) : (Path.mk segment).components =
    if segment = "." then [.here] else (Component.ofSegment? segment).toList := by
  rw [Path.components_of_segments (segments_mk h)]
  by_cases hempty : segment = ""
  · simp [hempty, Component.ofSegment?]
  · simp [hempty]

theorem same_extend_eq_false (hne : path.text ≠ "") (h : path.same ⟨"."⟩ = false)
    (hslash : '/' ∉ segment.toList) : (extend path segment).same ⟨"."⟩ = false := by
  rw [Bool.eq_false_iff, ne_eq, same_dot_iff] at h ⊢
  rw [extend_of_same_eq_false (by rwa [Bool.eq_false_iff, ne_eq, same_dot_iff]),
    Path.components_join (isAbsolute_mk_of_not_mem hslash) hne]
  obtain ⟨first, rest, hcomponents⟩ := List.exists_cons_of_ne_nil (Path.components_ne_nil hne)
  rw [hcomponents, List.cons_append, List.cons.injEq, List.append_eq_nil_iff]
  rintro ⟨rfl, rfl, -⟩
  exact h hcomponents

namespace IsSpelled

theorem extend (h : IsSpelled path) (hslash : '/' ∉ segment.toList)
    (hgap : path = ⟨"."⟩ → segment ≠ "") : IsSpelled (Glob.extend path segment) := by
  rcases h.2 with rfl | hsame
  · rw [extend_dot]
    refine ⟨hgap rfl, ?_⟩
    by_cases hdot : segment = "."
    · exact .inl (congrArg Path.mk hdot)
    · refine .inr (Bool.eq_false_iff.2 fun hhere => ?_)
      rw [same_dot_iff, components_mk hslash, if_neg hdot, Component.ofSegment?,
        if_neg (not_or.2 ⟨hgap rfl, hdot⟩)] at hhere
      split at hhere <;> cases hhere
  · refine ⟨?_, .inr (same_extend_eq_false h.1 hsame hslash)⟩
    rw [extend_of_same_eq_false hsame, Path.text_join (isAbsolute_mk_of_not_mem hslash) h.1]
    simp [h.1]

end IsSpelled

theorem lead_dot (disk : Disk) : disk.lead ⟨"."⟩ = .ok (disk.origin ⟨"."⟩) := by
  rw [Disk.lead, show Path.steps ⟨"."⟩ = ["."] by decide, Disk.origin,
    show Path.isAbsolute ⟨"."⟩ = false by decide]
  cases disk.adrift <;> rfl

-- To spell one more segment is to follow it from where the path leads.
theorem lead_extend (h : IsSpelled path) (hslash : '/' ∉ segment.toList) :
    disk.lead (extend path segment) =
      if segment = "" then disk.lead path
      else disk.lead path >>= fun spot => disk.enter spot segment := by
  have hrelative := isAbsolute_mk_of_not_mem hslash
  rcases h.2 with rfl | hsame
  · have horigin : disk.origin ⟨segment⟩ = disk.origin ⟨"."⟩ := by
      rw [Disk.origin, Disk.origin, hrelative, show Path.isAbsolute ⟨"."⟩ = false by decide]
    rw [extend_dot, lead_dot, Disk.lead, steps_mk hslash, horigin]
    split
    · rfl
    · exact bind_pure _
  · have horigin : disk.origin (path.join ⟨segment⟩) = disk.origin path := by
      rw [Disk.origin, Disk.origin]
      cases habsolute : path.isAbsolute with
      | true => rw [Path.isAbsolute_join habsolute]
      | false => rw [Path.isAbsolute_join_eq_false habsolute hrelative]
    rw [extend_of_same_eq_false hsame, Disk.lead, Path.steps_join hrelative h.1, horigin,
      List.foldlM_append, steps_mk hslash, ← Disk.lead]
    split
    · exact bind_pure _
    · simp only [List.foldlM_cons, List.foldlM_nil, bind_pure]

theorem check_of_check_extend (h : IsSpelled path) (hslash : '/' ∉ segment.toList)
    (hcheck : (extend path segment).check = .ok ()) : path.check = .ok () := by
  rcases h.2 with rfl | hsame
  · decide
  · rw [extend_of_same_eq_false hsame, Location.check_eq_ok_iff,
      Path.text_join (isAbsolute_mk_of_not_mem hslash) h.1] at hcheck
    simp only [String.toList_append, List.mem_append, not_or, String.utf8ByteSize_append] at hcheck
    exact Location.check_eq_ok_iff.2 ⟨hcheck.1.1.1, h.1, by omega⟩

-- A directory that is spelled further is one already.
theorem isDirectory_of_isDirectory_extend (h : IsSpelled path) (hslash : '/' ∉ segment.toList)
    (hdirectory : disk.isDirectory (extend path segment) = true) :
    disk.isDirectory path = true := by
  obtain ⟨hcheck, spot, hlead, hspot⟩ := Disk.isDirectory_iff.1 hdirectory
  refine Disk.isDirectory_iff.2 ⟨check_of_check_extend h hslash hcheck, ?_⟩
  rw [lead_extend h hslash] at hlead
  split at hlead
  · exact ⟨spot, hlead, hspot⟩
  · obtain ⟨above, habove, henter⟩ := bind_eq_ok.1 hlead
    refine ⟨above, habove, ?_⟩
    cases above with
    | file trail name content => cases henter
    | directory trail => rfl
    | removed above => rfl

theorem normalComponents_extend (h : IsSpelled path) (hslash : '/' ∉ segment.toList) :
    (extend path segment).normalComponents.reverse =
      (Component.ofSegment? segment).toList.foldl Path.stack path.normalComponents.reverse := by
  have hfold : ∀ done, (Path.mk segment).components.foldl Path.stack done =
      (Component.ofSegment? segment).toList.foldl Path.stack done := by
    intro done
    rw [components_mk hslash]
    split
    · next hdot => rw [hdot]; rfl
    · rfl
  rcases h.2 with rfl | hsame
  · rw [extend_dot, Path.normalComponents, List.reverse_reverse, hfold]
    rfl
  · rw [extend_of_same_eq_false hsame, Path.normalComponents_join (isAbsolute_mk_of_not_mem hslash),
      List.reverse_reverse, hfold]

theorem isAbsolute_extend_eq (h : IsSpelled path) (hslash : '/' ∉ segment.toList) :
    (extend path segment).isAbsolute = path.isAbsolute := by
  have hrelative := isAbsolute_mk_of_not_mem hslash
  rcases h.2 with rfl | hsame
  · rw [extend_dot, hrelative]
    decide
  · rw [extend_of_same_eq_false hsame]
    cases habsolute : path.isAbsolute with
    | true => exact Path.isAbsolute_join habsolute
    | false => exact Path.isAbsolute_join_eq_false habsolute hrelative

theorem mem_extend {c : Char} (hc : c ≠ '/') (h : c ∈ (extend path segment).text.toList) :
    c ∈ path.text.toList ∨ c ∈ segment.toList := by
  rw [extend] at h
  split at h
  · exact .inr h
  · exact Path.mem_join hc h

theorem sizeWithSlash_extend_le (h : IsSpelled path) (hslash : '/' ∉ segment.toList) :
    (extend path segment).sizeWithSlash ≤ path.sizeWithSlash + (segment.utf8ByteSize + 1) := by
  have hle := Path.sizeWithSlash_le (extend path segment)
  rcases h.2 with rfl | hsame
  · rw [extend_dot] at hle ⊢
    dsimp only at hle
    omega
  · rw [extend_of_same_eq_false hsame] at hle ⊢
    rw [Path.size_join (isAbsolute_mk_of_not_mem hslash) h.1] at hle
    dsimp only at hle
    omega

-- The segments that a search can spell one after the other. An empty one spells nothing while
-- the search is still at its beginning.
inductive Spells : Path → List String → Prop
  | stop {path : Path} (h : IsSpelled path) : Spells path []
  | level {path : Path} {segment : String} {rest : List String} (h : IsSpelled path)
      (hslash : '/' ∉ segment.toList) (hrest : Spells (extend path segment) rest) :
      Spells path (segment :: rest)

theorem spells {segments : List String} (h : IsSpelled path)
    (hslash : ∀ segment ∈ segments, '/' ∉ segment.toList)
    (hpass : path = ⟨"."⟩ → ∀ count rest, segments ≠ List.replicate count "." ++ "" :: rest) :
    Spells path segments := by
  induction segments generalizing path with
  | nil => exact .stop h
  | cons segment rest ih =>
      have hfirst := hslash segment List.mem_cons_self
      have hgap : path = ⟨"."⟩ → segment ≠ "" := fun hdot hempty =>
        hpass hdot 0 rest (congrArg (· :: rest) hempty)
      refine .level h hfirst (ih (h.extend hfirst hgap)
        (fun other hmem => hslash other (List.mem_cons_of_mem _ hmem)) ?_)
      intro hdot count more heq
      rcases h.2 with rfl | hsame
      · rw [extend_dot, Path.mk.injEq] at hdot
        exact hpass rfl (count + 1) more (by rw [List.replicate_succ, List.cons_append, hdot, heq])
      · have hnext := same_extend_eq_false h.1 hsame hfirst
        rw [hdot] at hnext
        exact absurd hnext (by decide)

theorem spells_names {names : List String} (h : IsSpelled path)
    (hnames : ∀ name ∈ names, IsName name) : Spells path names := by
  refine spells h (fun name hmem => (hnames name hmem).2.2.2) fun _ count rest heq => ?_
  exact (hnames "" (by simp [heq])).1 rfl

namespace Spells

variable {segments : List String}

theorem isSpelled (h : Spells path segments) : IsSpelled (segments.foldl extend path) := by
  induction h with
  | stop h => exact h
  | level _ _ _ ih => exact ih

theorem lead (h : Spells path segments) : disk.lead (segments.foldl extend path) =
    disk.lead path >>= (segments.filter (· ≠ "")).foldlM disk.enter := by
  induction h with
  | stop => exact (bind_pure _).symm
  | @level path segment rest h hslash _ ih =>
      rw [List.foldl_cons, ih, lead_extend h hslash]
      by_cases hempty : segment = ""
      · simp [hempty]
      · rw [if_neg hempty, List.filter_cons_of_pos (by simpa using hempty)]
        simp only [List.foldlM_cons, bind_assoc]

theorem check (h : Spells path segments) (hcheck : (segments.foldl extend path).check = .ok ()) :
    path.check = .ok () := by
  induction h with
  | stop => exact hcheck
  | level h hslash _ ih => exact check_of_check_extend h hslash (ih hcheck)

theorem isDirectory (h : Spells path segments)
    (hdirectory : disk.isDirectory (segments.foldl extend path) = true) :
    disk.isDirectory path = true := by
  induction h with
  | stop => exact hdirectory
  | level h hslash _ ih => exact isDirectory_of_isDirectory_extend h hslash (ih hdirectory)

theorem isAbsolute (h : Spells path segments) :
    (segments.foldl extend path).isAbsolute = path.isAbsolute := by
  induction h with
  | stop => rfl
  | level h hslash _ ih => rw [List.foldl_cons, ih, isAbsolute_extend_eq h hslash]

theorem normalComponents (h : Spells path segments) :
    (segments.foldl extend path).normalComponents.reverse =
      (segments.filterMap Component.ofSegment?).foldl Path.stack path.normalComponents.reverse := by
  induction h with
  | stop => rfl
  | @level path segment rest h hslash _ ih =>
      rw [List.foldl_cons, ih, normalComponents_extend h hslash, List.filterMap_cons]
      cases Component.ofSegment? segment <;> rfl

theorem sizeWithSlash_le (h : Spells path segments) :
    (segments.foldl extend path).sizeWithSlash ≤
      path.sizeWithSlash + (segments.map fun segment => segment.utf8ByteSize + 1).sum := by
  induction h with
  | stop => exact Nat.le_refl _
  | level h hslash _ ih =>
      have hone := sizeWithSlash_extend_le h hslash
      rw [List.foldl_cons, List.map_cons, List.sum_cons]
      omega

end Spells

theorem mem_foldl_extend {c : Char} (hc : c ≠ '/') {segments : List String}
    (h : c ∈ (segments.foldl extend path).text.toList) :
    c ∈ path.text.toList ∨ ∃ segment ∈ segments, c ∈ segment.toList := by
  induction segments generalizing path with
  | nil => exact .inl h
  | cons segment rest ih =>
      rcases ih h with h | ⟨other, hmem, h⟩
      · exact (mem_extend hc h).imp id fun h => ⟨segment, List.mem_cons_self, h⟩
      · exact .inr ⟨other, List.mem_cons_of_mem _ hmem, h⟩

theorem endsInSlash_extend {name : String} (h : IsSpelled path) (hname : IsName name) :
    (extend path name).endsInSlash = false := by
  obtain ⟨front, c, hchars, hc⟩ := Path.exists_last hname.1 hname.2.2.2
  have htext : ∃ more, (extend path name).text.toList = more ++ [c] := by
    rcases h.2 with rfl | hsame
    · rw [extend_dot]
      exact ⟨front, hchars⟩
    · rw [extend_of_same_eq_false hsame,
        Path.text_join (isAbsolute_mk_of_not_mem hname.2.2.2) h.1, String.toList_append, hchars]
      exact ⟨_, (List.append_assoc _ _ _).symm⟩
  obtain ⟨more, hmore⟩ := htext
  simp [Path.endsInSlash, hmore, hc]

-- The path that a search spells for what lies below a directory, after the path of the directory.
def way (base : Path) (below : Location) : Path :=
  below.reverse.foldl extend base

theorem way_append (base : Path) (lower below : Location) :
    way base (lower ++ below) = way (way base below) lower := by
  rw [way, List.reverse_append, List.foldl_append]
  rfl

theorem way_cons (base : Path) (name : String) (above : Location) :
    way base (name :: above) = extend (way base above) name :=
  way_append base [name] above

section Way

variable {base : Path} {below : Location}

theorem spells_way (hbase : IsSpelled base) (h : below.Named) : Spells base below.reverse :=
  spells_names hbase fun name hmem => h name (List.mem_reverse.1 hmem)

theorem isSpelled_way (hbase : IsSpelled base) (h : below.Named) : IsSpelled (way base below) :=
  (spells_way hbase h).isSpelled

theorem check_of_check_way (hbase : IsSpelled base) (h : below.Named)
    (hcheck : (way base below).check = .ok ()) : base.check = .ok () :=
  (spells_way hbase h).check hcheck

theorem normalComponents_way (hbase : IsSpelled base) (h : below.Named) :
    (way base below).normalComponents = base.normalComponents ++ below.reverse.map .name := by
  have hnames := Path.filterMap_ofSegment?_text h.isPlain
  rw [List.map_map, show Component.text ∘ Component.name = id from rfl, List.map_id] at hnames
  have hreverse := (spells_way hbase h).normalComponents
  rw [hnames, Path.foldl_stack_names] at hreverse
  rw [← List.reverse_inj, List.reverse_append]
  exact hreverse

-- Below a directory the disk finds what the directory holds, as far as the path can be followed.
theorem entry?_way {trail : Trail} (hbase : IsSpelled base)
    (hlead : disk.lead base = .ok (.directory trail)) (hne : below ≠ []) (h : below.Named) :
    disk.entry? (way base below) = if (way base below).check = .ok () then
      (trail.inside disk).get? below.reverse else none := by
  obtain ⟨name, above, rfl⟩ := List.exists_cons_of_ne_nil hne
  have hnames : ∀ other ∈ (name :: above).reverse, IsName other :=
    fun other hmem => h other (List.mem_reverse.1 hmem)
  have hsteps : (name :: above).reverse.filter (· ≠ "") = (name :: above).reverse :=
    List.filter_eq_self.2 fun other hmem => by simpa using (hnames other hmem).1
  rw [Disk.entry?_of_not_endsInSlash, ← Disk.toOption_foldlM_enter hnames]
  · congr 2
    rw [way, (spells_way hbase h).lead, hlead, hsteps]
    rfl
  · rw [way_cons]
    exact endsInSlash_extend (isSpelled_way hbase h.tail) (h name List.mem_cons_self)

theorem size_way_le (hbase : IsSpelled base) (hne : below ≠ []) (h : below.Named) :
    (way base below).text.utf8ByteSize ≤
      base.sizeWithSlash + ("/".intercalate below.reverse).utf8ByteSize := by
  have hle := (spells_way hbase h).sizeWithSlash_le
  have hsum := Path.sum_segments ("/".intercalate below.reverse)
  rw [Location.segments_names hne h] at hsum
  rw [hsum] at hle
  obtain ⟨name, above, rfl⟩ := List.exists_cons_of_ne_nil hne
  have hslash : (way base (name :: above)).endsInSlash = false := by
    rw [way_cons]
    exact endsInSlash_extend (isSpelled_way hbase h.tail) (h name List.mem_cons_self)
  rw [← way, Path.sizeWithSlash, hslash] at hle
  simp only [Bool.false_eq_true, ↓reduceIte] at hle
  omega

end Way

section Places

variable {location below : Location} {name : String}

theorem isSpelled_path (h : location.Named) : IsSpelled location.path := by
  refine ⟨fun hempty => ?_, .inr (Bool.eq_false_iff.2 fun hsame => ?_)⟩
  · have habsolute := Location.isAbsolute_path location
    rw [Path.isAbsolute, hempty] at habsolute
    cases habsolute
  · rw [same_dot_iff, Location.components_path h] at hsame
    cases hsame

theorem extend_path (h : location.Named) (hname : IsName name) :
    extend location.path name = Location.path (name :: location) := by
  have hspelled := isSpelled_path h
  have hrelative := isAbsolute_mk_of_not_mem hname.2.2.2
  have hsame : location.path.same ⟨"."⟩ = false := by
    refine hspelled.2.resolve_left fun heq => ?_
    have habsolute := Location.isAbsolute_path location
    rw [heq] at habsolute
    exact absurd habsolute (by decide)
  have htext : ∀ path other : Path, path.text = other.text → path = other := by
    rintro ⟨text⟩ ⟨more⟩ rfl
    rfl
  rw [extend_of_same_eq_false hsame]
  apply htext
  rw [Path.text_join hrelative hspelled.1]
  by_cases hroot : location = []
  · subst hroot
    rw [Location.text_path (List.cons_ne_nil name []), List.reverse_singleton,
      String.intercalate_singleton, (Disk.endsInSlash_path h).2 rfl]
    rfl
  · have hslash : location.path.endsInSlash = false :=
      Bool.eq_false_iff.2 (mt (Disk.endsInSlash_path h).1 hroot)
    have happend := Location.text_path_append (List.cons_ne_nil name []) hroot
    rw [List.singleton_append, List.reverse_singleton, String.intercalate_singleton] at happend
    rw [hslash, happend]
    rfl

theorem way_path (h : Location.Named (below ++ location)) :
    way location.path below = Location.path (below ++ location) := by
  induction below with
  | nil => rfl
  | cons name above ih =>
      rw [way_cons, ih h.tail]
      exact extend_path h.tail (h name List.mem_cons_self)

end Places

end Glob

end StaticSite
