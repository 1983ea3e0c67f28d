import StaticSite.Proofs.Path.Relative
import StaticSite.Proofs.Template.Spelling
import StaticSite.Template.Directive

-- Where the links that templates write lead.
namespace StaticSite.Template

theorem directory_names {file : Location} (h : file.Named) :
    directory ("/".intercalate file.reverse) = ⟨"/".intercalate file.tail.reverse⟩ := by
  cases file with
  | nil => decide
  | cons name rest =>
      have hname := h name List.mem_cons_self
      have hsegments := Location.segments_names (List.cons_ne_nil name rest) h
      unfold directory Path.parent?
      rw [hsegments, List.reverse_reverse]
      cases rest with
      | nil => simp [Path.trimEnd, hname.1]
      | cons next others =>
          have hnext := h.tail next List.mem_cons_self
          have htrim : Path.trimEnd (next :: others) = next :: others := by
            cases others with
            | nil => rfl
            | cons => rw [Path.trimEnd, if_neg (not_or.2 ⟨hnext.1, hnext.2.1⟩)]; simp
          have hroot : (next :: others).reverse ≠ [""] := by
            intro heq
            have hmem : next ∈ (next :: others).reverse := by simp
            rw [heq, List.mem_singleton] at hmem
            exact hnext.1 hmem
          rw [Path.trimEnd, if_neg (not_or.2 ⟨hname.1, hname.2.1⟩)]
          · dsimp only
            rw [htrim, Path.ofSegments, if_neg hroot]
            rfl
          · simp

-- The argument of a directive is all that follows the first space, up to the blanks at its end.
theorem ofBody_path {fragment : List Char}
    (h : ∀ c, fragment.getLast? = some c → Text.isBlank c = false) :
    Directive.ofBody ("path ".toList ++ fragment) = .path fragment := by
  rcases List.eq_nil_or_concat' fragment with rfl | ⟨front, c, rfl⟩
  · decide
  · have hc := h c List.getLast?_concat
    have htrim : Text.trim ("path ".toList ++ (front ++ [c])) =
        "path ".toList ++ (front ++ [c]) := by
      have hstart : ("path ".toList ++ (front ++ [c])).dropWhile Text.isBlank =
          "path ".toList ++ (front ++ [c]) := rfl
      rw [Text.trim, hstart, ← List.append_assoc, List.reverse_concat,
        List.dropWhile_cons_of_neg (by simp [hc]), List.reverse_cons, List.reverse_reverse]
    unfold Directive.ofBody
    rw [htrim]
    rfl

theorem tokens_directive {body : List Char} (hbrace : '}' ∉ body)
    (hescape : body.head? ≠ some '{') :
    tokens (Token.directive body).spell = [.directive body] := by
  have hcanonical : Canonical [.directive body] :=
    ⟨fun token hmem => by rw [List.mem_singleton.1 hmem]; exact ⟨hbrace, hescape⟩, by simp⟩
  simpa using hcanonical.tokens_flatMap_spell

theorem prepare_path {fragment : List Char} (hbrace : '}' ∉ fragment)
    (hblank : ∀ c, fragment.getLast? = some c → Text.isBlank c = false)
    (source destination : String) :
    prepare ("%\x7bpath ".toList ++ fragment ++ ['}']) source destination =
      .ok (link fragment source destination) := by
  have hbody : '}' ∉ "path ".toList ++ fragment := by
    rw [List.mem_append, not_or]
    exact ⟨by decide, hbrace⟩
  have hescape : ("path ".toList ++ fragment).head? ≠ some '{' := by
    change some 'p' ≠ some '{'
    decide
  have htokens : tokens ("%\x7bpath ".toList ++ fragment ++ ['}']) =
      [.directive ("path ".toList ++ fragment)] :=
    tokens_directive hbody hescape
  have hlink : Token.prepare source destination (.directive ("path ".toList ++ fragment)) =
      .ok (link fragment source destination) := by
    rw [Token.prepare, ofBody_path hblank]
  rw [prepare, htokens, List.mapM_cons, hlink]
  simp [bind, Except.bind, pure, Except.pure]

-- A link leads from the directory of the page to where its fragment leads from the directory of
-- the file that wrote it.
theorem join_link {source destination : Location} (hsource : source.Named)
    (hdestination : destination.Named) (fragment : List Char) :
    let text := link fragment ("/".intercalate source.reverse) ("/".intercalate destination.reverse)
    text.head? ≠ some '/' ∧
      ((directory ("/".intercalate destination.reverse)).join ⟨String.ofList text⟩).normalize =
        ((directory ("/".intercalate source.reverse)).join
          ⟨String.ofList (fragment.dropWhile (· = '/'))⟩).normalize := by
  intro text
  have hfrom := directory_names hsource
  have hto := directory_names hdestination
  have hnames : Location.Named destination.tail := fun name hmem =>
    hdestination name (List.mem_of_mem_tail hmem)
  have hbase : (directory ("/".intercalate destination.reverse)).isAbsolute = false := by
    rw [hto]
    exact Location.isAbsolute_names hnames
  have htarget : ((directory ("/".intercalate source.reverse)).join
      ⟨String.ofList (fragment.dropWhile (· = '/'))⟩).isAbsolute = false := by
    refine Path.isAbsolute_join_eq_false ?_ ?_
    · rw [hfrom]
      exact Location.isAbsolute_names fun name hmem => hsource name (List.mem_of_mem_tail hmem)
    · rw [Path.isAbsolute, String.toList_ofList, decide_eq_false_iff_not]
      intro hhead
      have := List.head?_dropWhile_not (fun c => decide (c = '/')) fragment
      simp [hhead] at this
  have hup : Component.up ∉ (directory ("/".intercalate destination.reverse)).normalComponents := by
    rw [hto, Location.normalComponents_names hnames]
    intro hmem
    obtain ⟨name, -, heq⟩ := List.mem_map.1 hmem
    cases heq
  obtain ⟨common, left, right, -, -, hway, hplain⟩ :=
    Path.relativeTo_eq (directory ("/".intercalate destination.reverse)) htarget
  have htext : (Path.mk (String.ofList text)) =
      (directory ("/".intercalate destination.reverse)).relativeTo
        ((directory ("/".intercalate source.reverse)).join
          ⟨String.ofList (fragment.dropWhile (· = '/'))⟩) := by
    simp only [text, link, String.ofList_toList]
    rw [hway, Path.toSlash_ofComponents hplain]
  constructor
  · have hrelative := hway ▸ Path.isAbsolute_ofComponents hplain
    rw [← htext, Path.isAbsolute, String.toList_ofList, decide_eq_false_iff_not] at hrelative
    exact hrelative
  · rw [htext, Path.normalize, Path.normalize,
      Path.normalComponents_join_relativeTo hbase htarget hup]

-- A path directive denotes one place, whichever page it is rendered into.
theorem prepare_path_denotes {fragment : List Char} {source destination other : String}
    (hbrace : '}' ∉ fragment) (hblank : ∀ c, fragment.getLast? = some c → Text.isBlank c = false)
    (hsource : IsRelative source) (hdestination : IsRelative destination)
    (hother : IsRelative other) :
    ∃ text there,
      prepare ("%\x7bpath ".toList ++ fragment ++ ['}']) source destination = .ok text ∧
      prepare ("%\x7bpath ".toList ++ fragment ++ ['}']) source other = .ok there ∧
      text.head? ≠ some '/' ∧
      ((directory destination).join ⟨String.ofList text⟩).normalize =
        ((directory source).join ⟨String.ofList (fragment.dropWhile (· = '/'))⟩).normalize ∧
      ((directory destination).join ⟨String.ofList text⟩).normalize =
        ((directory other).join ⟨String.ofList there⟩).normalize := by
  obtain ⟨source, -, hsource, rfl⟩ := hsource
  obtain ⟨destination, -, hdestination, rfl⟩ := hdestination
  obtain ⟨other, -, hother, rfl⟩ := hother
  obtain ⟨hrelative, htext⟩ := join_link hsource hdestination fragment
  obtain ⟨-, hthere⟩ := join_link hsource hother fragment
  exact ⟨_, _, prepare_path hbrace hblank _ _, prepare_path hbrace hblank _ _, hrelative, htext,
    htext.trans hthere.symm⟩

-- A fragment that leaves the tree, with slashes before it and blanks within it.
theorem prepare_path_denotes_above :
    prepare "%\x7bpath //../../x  y/./../z w\x7d".toList "a/~layout.html" "a/b/c/p.html" =
        .ok "../../../../z w".toList ∧
      prepare "%\x7bpath //../../x  y/./../z w\x7d".toList "a/~layout.html" "q.html" =
        .ok "../z w".toList ∧
      ((directory "a/b/c/p.html").join ⟨"../../../../z w"⟩).normalize =
        ((directory "a/~layout.html").join ⟨"../../x  y/./../z w"⟩).normalize ∧
      ((directory "a/b/c/p.html").join ⟨"../../../../z w"⟩).normalize =
        ((directory "q.html").join ⟨"../z w"⟩).normalize := by
  have htext : prepare "%\x7bpath //../../x  y/./../z w\x7d".toList "a/~layout.html"
      "a/b/c/p.html" = .ok "../../../../z w".toList := by decide +kernel
  have hthere : prepare "%\x7bpath //../../x  y/./../z w\x7d".toList "a/~layout.html" "q.html" =
      .ok "../z w".toList := by decide +kernel
  have hsource : IsRelative "a/~layout.html" :=
    ⟨["~layout.html", "a"], by decide, by unfold Location.Named; decide, by decide⟩
  have hdestination : IsRelative "a/b/c/p.html" :=
    ⟨["p.html", "c", "b", "a"], by decide, by unfold Location.Named; decide, by decide⟩
  have hother : IsRelative "q.html" :=
    ⟨["q.html"], by decide, by unfold Location.Named; decide, by decide⟩
  have hblank : ∀ c, "//../../x  y/./../z w".toList.getLast? = some c →
      Text.isBlank c = false := by
    intro c hlast
    rw [show "//../../x  y/./../z w".toList.getLast? = some 'w' by decide] at hlast
    exact Option.some.inj hlast ▸ by decide
  obtain ⟨text, there, htext', hthere', -, hplace, hsame⟩ :=
    prepare_path_denotes (by decide) hblank hsource hdestination hother
  cases htext.symm.trans htext'
  cases hthere.symm.trans hthere'
  exact ⟨htext, hthere, hplace, hsame⟩

end StaticSite.Template
