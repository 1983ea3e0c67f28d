import Mathlib.Algebra.GroupWithZero.Nat
import Mathlib.Data.List.Basic
import StaticSite.Proofs.Template.Acceptance

-- What a chain of files is refused for, and which of its files is blamed. Nothing is counted when
-- files are put together: whether a placeholder is left for the next one shows only when it is
-- looked for.
namespace StaticSite.Template

-- The command of a directive that is neither of the two there are.
def Token.unknown? : Token → Option (List Char)
  | .directive body =>
    match Directive.ofBody body with
    | .unknown command => some command
    | _ => none
  | _ => none

-- The first such command in a text.
def unknown? (text : List Char) : Option (List Char) :=
  (tokens text).findSome? Token.unknown?

theorem Token.prepare_of_unknown? {source destination : String} {token : Token}
    {command : List Char} (h : token.unknown? = some command) :
    token.prepare source destination =
      .error (.unknownDirective (String.ofList command) source) := by
  cases token with
  | directive body =>
      unfold unknown? at h
      unfold prepare
      cases hbody : Directive.ofBody body with
      | unknown other =>
          simp only [hbody, Option.some.injEq] at h
          simp only [hbody, h]
      | _ => simp [hbody] at h
  | _ => cases h

theorem Token.isKnown_of_unknown? {token : Token} (h : token.unknown? = none) : token.isKnown := by
  cases token with
  | directive body =>
      unfold unknown? at h
      unfold isKnown
      cases hbody : Directive.ofBody body with
      | unknown command => simp [hbody] at h
      | _ => simp only [hbody]
  | _ => rfl

theorem isKnown_of_unknown? {text : List Char} (h : unknown? text = none) :
    ∀ token ∈ tokens text, token.isKnown :=
  fun token hmem => Token.isKnown_of_unknown? (List.findSome?_eq_none_iff.1 h token hmem)

-- What comes after the first unknown directive is not read, and what comes before it is dropped.
theorem prepare_of_unknown? {text command : List Char} (source destination : String)
    (h : unknown? text = some command) :
    prepare text source destination =
      .error (.unknownDirective (String.ofList command) source) := by
  obtain ⟨before, token, after, hsplit, htoken, hbefore⟩ := List.findSome?_eq_some_iff.1 h
  have hfirst : before.mapM (Token.prepare source destination) = .ok (before.map _) :=
    mapM_eq_ok_map fun other hmem =>
      Token.prepare_of_isKnown (Token.isKnown_of_unknown? (hbefore other hmem))
  rw [prepare, hsplit, List.mapM_append, hfirst, List.mapM_cons, Token.prepare_of_unknown? htoken]
  rfl

-- What a source has for the page `destination`.
def prepared (destination : String) (source : Except ComposeError Source) :
    Except ComposeError (List Char) :=
  source.bind fun file => prepare file.text file.path destination

-- How many markers the sources have.
def markers (destination : String) (sources : List (Except ComposeError Source)) : Nat :=
  (sources.map fun source =>
    ((prepared destination source).toOption.getD []).count marker).sum

-- The path of the last of the sources.
def lastPath (sources : List (Except ComposeError Source)) : String :=
  ((sources.getLast?.bind Except.toOption).map Source.path).getD ""

-- What a source is refused for when those in `front` have been read.
def blame? (destination : String) (front : List (Except ComposeError Source)) :
    Except ComposeError Source → Option ComposeError
  | .error error => some error
  | .ok file =>
    match unknown? file.text with
    | some command => some (.unknownDirective (String.ofList command) file.path)
    | none =>
      if markers destination front < front.length then
        some (.missingPlaceholder (lastPath front))
      else none

-- None of the sources is refused.
def Unblamed (destination : String) (sources : List (Except ComposeError Source)) : Prop :=
  ∀ front source back, sources = front ++ source :: back → blame? destination front source = none

section

variable {destination : String} {front : List (Except ComposeError Source)}
  {source : Except ComposeError Source} {file : Source} {chars : List Char}

theorem markers_concat (front : List (Except ComposeError Source))
    (h : prepared destination source = .ok chars) :
    markers destination (front ++ [source]) = markers destination front + chars.count marker := by
  simp [markers, h, Except.toOption]

theorem lastPath_concat (front : List (Except ComposeError Source)) (file : Source) :
    lastPath (front ++ [.ok file]) = file.path := by
  simp [lastPath, Except.toOption]

theorem unblamed_nil (destination : String) : Unblamed destination [] := by
  intro before source after h
  simp at h

theorem unblamed_concat (destination : String) (front : List (Except ComposeError Source))
    (source : Except ComposeError Source) :
    Unblamed destination (front ++ [source]) ↔
      Unblamed destination front ∧ blame? destination front source = none := by
  constructor
  · intro h
    refine ⟨?_, h front source [] rfl⟩
    rintro before other after rfl
    exact h before other (after ++ [source]) (by simp)
  · rintro ⟨hfront, hlast⟩ before other after hsplit
    rcases List.eq_nil_or_concat after with rfl | ⟨after, last, rfl⟩
    · obtain ⟨rfl, heq⟩ := List.append_inj' hsplit rfl
      cases heq
      exact hlast
    · have hinit : front ++ [source] = (before ++ other :: after) ++ [last] := by simp [hsplit]
      exact hfront before other after (List.append_inj' hinit rfl).1

theorem exists_of_blame?_eq_none (h : blame? destination front source = none) :
    ∃ file, source = .ok file ∧ unknown? file.text = none ∧
      front.length ≤ markers destination front := by
  cases source with
  | error error => cases h
  | ok file =>
      unfold blame? at h
      dsimp only at h
      split at h
      · cases h
      · next hknown =>
        split at h
        · cases h
        · next hroom => exact ⟨file, rfl, hknown, not_lt.1 hroom⟩

end

namespace Composition

variable {destination : String} {front : List (Except ComposeError Source)}
  {composition : Composition}

-- The sources in `front` have been put together: each of them but the first has taken the place of
-- one marker.
structure Holds (destination : String) (front : List (Except ComposeError Source))
    (composition : Composition) : Prop where
  count : front ≠ [] →
    composition.text.count marker + front.length = markers destination front + 1
  last : composition.last = lastPath front

theorem fill?_eq_none_iff {text : List Char} (content : List Char) :
    fill? text content = none ↔ text.count marker = 0 := by
  rw [List.count_eq_zero]
  constructor
  · intro h hmarker
    obtain ⟨before, after, rfl, hbefore⟩ := List.eq_append_cons_of_mem hmarker
    rw [fill?_eq_some hbefore] at h
    cases h
  · intro hmarker
    by_contra h
    obtain ⟨filled, hfilled⟩ := Option.ne_none_iff_exists'.1 h
    obtain ⟨before, after, rfl, -⟩ := exists_of_fill? hfilled
    exact hmarker (by simp)

theorem Holds.add_of_blamed {source : Except ComposeError Source} {error : ComposeError}
    (h : Holds destination front composition) (hstarted : front ≠ [] → composition.text ≠ [])
    (hblame : blame? destination front source = some error) :
    source.bind (composition.add destination) = .error error := by
  cases source with
  | error other =>
      cases hblame
      rfl
  | ok file =>
      unfold blame? at hblame
      dsimp only at hblame
      split at hblame
      · next command hunknown =>
        cases hblame
        simp only [Except.bind, add, prepare_of_unknown? file.path destination hunknown]
        rfl
      · next hknown =>
        split at hblame
        · next hroom =>
          cases hblame
          have hfront : front ≠ [] := by
            rintro rfl
            simp at hroom
          have hnone : composition.text.count marker = 0 := by
            have := h.count hfront
            omega
          simp only [Except.bind, add, prepare_of_isKnown (isKnown_of_unknown? hknown)]
          simp [bind, Except.bind, hstarted hfront, (fill?_eq_none_iff _).2 hnone, h.last, throw,
            throwThe, MonadExceptOf.throw]
        · cases hblame

theorem Holds.add {source : Except ComposeError Source} (h : Holds destination front composition)
    (hempty : front = [] → composition = empty) (hstarted : front ≠ [] → composition.text ≠ [])
    (hblame : blame? destination front source = none) :
    ∃ next, source.bind (composition.add destination) = .ok next ∧
      Holds destination (front ++ [source]) next ∧
      (prepared destination source ≠ .ok [] → next.text ≠ []) := by
  obtain ⟨file, rfl, hknown, hroom⟩ := exists_of_blame?_eq_none hblame
  have hprepare : prepare file.text file.path destination = .ok (file.expand destination [marker]) :=
    prepare_of_isKnown (isKnown_of_unknown? hknown)
  have hmarkers : markers destination (front ++ [.ok file]) =
      markers destination front + (file.expand destination [marker]).count marker :=
    markers_concat front hprepare
  by_cases hfront : front = []
  · subst hfront
    refine ⟨⟨file.expand destination [marker], file.path⟩, ?_, ⟨fun _ => ?_, (lastPath_concat _ _).symm⟩, ?_⟩
    · rw [hempty rfl]
      exact add_empty (isKnown_of_unknown? hknown)
    · rw [hmarkers]
      simp [markers]
    · intro hfilled hnil
      exact hfilled (hprepare.trans (congrArg _ hnil))
  · have hcount := h.count hfront
    have hopen : composition.text.count marker ≠ 0 := by omega
    obtain ⟨filled, hfill⟩ := Option.ne_none_iff_exists'.1
      (mt (fill?_eq_none_iff (file.expand destination [marker])).1 hopen)
    obtain ⟨-, hfilled⟩ := count_fill? hfill
    refine ⟨⟨filled, file.path⟩, ?_, ⟨fun _ => ?_, (lastPath_concat _ _).symm⟩, ?_⟩
    · simp only [Except.bind, Composition.add, hprepare]
      simp [bind, Except.bind, hstarted hfront, hfill, pure, Except.pure]
    · rw [hmarkers, hfilled, List.length_append, List.length_singleton]
      omega
    · intro hne
      exact fill?_ne_nil hfill fun hnil => hne (hprepare.trans (congrArg _ hnil))

-- Where none of the sources is refused, all of them are put together before the next is asked for.
theorem exists_holds (hclear : Unblamed destination front)
    (hfilled : ∀ source ∈ front.dropLast, prepared destination source ≠ .ok []) :
    ∃ composition, Holds destination front composition ∧ (front = [] → composition = empty) ∧
      (front ≠ [] → (∀ source ∈ front, prepared destination source ≠ .ok []) →
        composition.text ≠ []) ∧
      ∀ rest, empty.addAll destination (front ++ rest) =
        ((composition.addAll destination rest).1,
          (composition.addAll destination rest).2 + front.length) := by
  induction front using List.reverseRecOn with
  | nil => exact ⟨empty, ⟨by simp, rfl⟩, fun _ => rfl, by simp, fun _ => rfl⟩
  | append_singleton front source ih =>
      rw [List.dropLast_concat] at hfilled
      obtain ⟨hfront, hlast⟩ := (unblamed_concat destination front source).1 hclear
      obtain ⟨composition, hholds, hempty, hstarted, hrun⟩ :=
        ih hfront fun other hmem => hfilled other (List.dropLast_subset _ hmem)
      obtain ⟨next, hadd, hnext, hne⟩ :=
        hholds.add hempty (fun hne => hstarted hne hfilled) hlast
      refine ⟨next, hnext, by simp, fun _ hall => hne (hall source (by simp)), fun rest => ?_⟩
      rw [List.append_assoc, List.singleton_append, hrun, addAll, hadd, List.length_append,
        List.length_singleton, Nat.add_assoc, Nat.add_comm 1]

theorem Holds.finish (h : Holds destination front composition) (hne : front ≠ []) :
    ((∃ page, composition.finish = .ok page) ↔
        markers destination front = front.length - 1) ∧
      (markers destination front ≠ front.length - 1 →
        composition.finish = .error (.unconsumedPlaceholder (lastPath front))) := by
  have hcount := h.count hne
  have hpos := List.length_pos_iff.2 hne
  unfold Composition.finish
  split
  · next hmarker =>
    have := List.count_pos_iff.2 hmarker
    rw [h.last]
    exact ⟨⟨fun ⟨_, hpage⟩ => (nomatch hpage), fun heq => by omega⟩, fun _ => rfl⟩
  · next hmarker =>
    have := List.count_eq_zero.2 hmarker
    exact ⟨⟨fun _ => by omega, fun _ => ⟨_, rfl⟩⟩, fun hother => absurd (by omega) hother⟩

end Composition

-- A chain stops at its first source that is refused, for what it is refused for, and no source
-- after that is asked for. Where none is refused all are asked for, and the page is whole just if
-- the files have one marker for each file but the first. A file that is left empty starts the
-- chain anew, so only the last may be.
theorem compose_blames {destination : String} {sources : List (Except ComposeError Source)}
    (hne : sources ≠ [])
    (hfilled : ∀ source ∈ sources.dropLast, prepared destination source ≠ .ok []) :
    (∀ front source back error, sources = front ++ source :: back → Unblamed destination front →
      blame? destination front source = some error →
      compose destination sources = (.error error, front.length + 1)) ∧
    (Unblamed destination sources →
      (compose destination sources).2 = sources.length ∧
      ((∃ page, (compose destination sources).1 = .ok page) ↔
        markers destination sources = sources.length - 1) ∧
      (markers destination sources ≠ sources.length - 1 →
        (compose destination sources).1 =
          .error (.unconsumedPlaceholder (lastPath sources)))) := by
  constructor
  · rintro front source back error rfl hclear hblame
    have hfront : ∀ other ∈ front, prepared destination other ≠ .ok [] := by
      intro other hmem
      refine hfilled other ?_
      rw [List.dropLast_append_of_ne_nil (List.cons_ne_nil _ _)]
      exact List.mem_append_left _ hmem
    obtain ⟨composition, hholds, -, hstarted, hrun⟩ := Composition.exists_holds hclear
      fun other hmem => hfront other (List.dropLast_subset _ hmem)
    have hadd := hholds.add_of_blamed (fun hne => hstarted hne hfront) hblame
    rw [compose, hrun, Composition.addAll, hadd, Nat.add_comm]
  · intro hclear
    obtain ⟨composition, hholds, -, -, hrun⟩ := Composition.exists_holds hclear hfilled
    have hcompose := hrun []
    rw [List.append_nil, Composition.addAll, Nat.zero_add] at hcompose
    rw [compose, hcompose]
    exact ⟨rfl, hholds.finish hne⟩

-- The second file needs no placeholder of its own where the first has two, and is blamed where the
-- first has one.
def layoutsAround (outer : String) : List (Except ComposeError Source) :=
  [.ok ⟨"~layout.html", outer.toList⟩, .ok ⟨"a/~layout.html", "A".toList⟩,
    .ok ⟨"a/p.html", "P".toList⟩]

theorem compose_blames_of_layoutsAround :
    (∀ source ∈ (layoutsAround "%\x7bcontent\x7d").dropLast,
      prepared "a/p.html" source ≠ .ok []) ∧
    compose "a/p.html" (layoutsAround "%\x7bcontent\x7d") =
      (.error (.missingPlaceholder "a/~layout.html"), 3) ∧
    (∀ source ∈ (layoutsAround "%\x7bcontent\x7d%\x7bcontent\x7d").dropLast,
      prepared "a/p.html" source ≠ .ok []) ∧
    ∃ page, (compose "a/p.html" (layoutsAround "%\x7bcontent\x7d%\x7bcontent\x7d")).1 =
      .ok page := by
  have hone : ∀ source ∈ (layoutsAround "%\x7bcontent\x7d").dropLast,
      prepared "a/p.html" source ≠ .ok [] := by decide +kernel
  have htwo : ∀ source ∈ (layoutsAround "%\x7bcontent\x7d%\x7bcontent\x7d").dropLast,
      prepared "a/p.html" source ≠ .ok [] := by decide +kernel
  refine ⟨hone, (compose_blames (List.cons_ne_nil _ _) hone).1 _ _ [] _ rfl
    ((unblamed_concat _ [_] _).2
      ⟨(unblamed_concat _ [] _).2 ⟨unblamed_nil _, by decide +kernel⟩, by decide +kernel⟩)
    (by decide +kernel), htwo, ?_⟩
  have hclear : Unblamed "a/p.html" (layoutsAround "%\x7bcontent\x7d%\x7bcontent\x7d") :=
    (unblamed_concat _ [_, _] _).2 ⟨(unblamed_concat _ [_] _).2
      ⟨(unblamed_concat _ [] _).2 ⟨unblamed_nil _, by decide +kernel⟩, by decide +kernel⟩,
        by decide +kernel⟩
  exact ((compose_blames (List.cons_ne_nil _ _) htwo).2 hclear).2.1.2 (by decide +kernel)

end StaticSite.Template
