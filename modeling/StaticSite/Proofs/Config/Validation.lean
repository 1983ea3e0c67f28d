import StaticSite.Config.Basic
import StaticSite.Proofs.Except
import StaticSite.Proofs.Path.Respelling

-- What makes a config usable, told by the places that its directories name.
namespace StaticSite

theorem Path.absolute_some {start : Location} (hstart : start.Named) {path : Path}
    (hne : path.text ≠ "") : path.absolute (some start) = .ok (Location.walk start path).path := by
  have hok : ∃ target, path.absolute (some start) = .ok target := by
    unfold absolute
    rw [if_neg hne]
    split <;> exact ⟨_, rfl⟩
  obtain ⟨target, htarget⟩ := hok
  rw [htarget, absolute_eq_ok hstart htarget]

theorem Path.absolute_of_mapError {start : Option Location} {path target : Path} {ε : Type}
    {f : Fault → ε} (h : (path.absolute start).mapError f = .ok target) : path.absolute start = .ok target := by
  cases hpath : path.absolute start with
  | error fault => rw [hpath] at h; cases h
  | ok other => rw [hpath] at h; cases h; rfl

namespace Config

variable {start : Location}

-- The config with its directories given by their own paths, when relative paths start from `start`.
def located (config : Config) (start : Location) : Config :=
  ⟨(Location.walk start config.source).path, (Location.walk start config.assets).path,
    (Location.walk start config.out).path, config.clear⟩

theorem validate_of_empty {config : Config} {field : Field} {path : Path}
    (h : config.directories.find? (fun entry => entry.2.text = "") = some (field, path))
    (start : Option Location) : config.validate start = .error (.invalid (.empty field)) := by
  simp only [validate, h]
  rfl

theorem validate_of_named (hstart : start.Named) {config : Config}
    (hsource : config.source.text ≠ "") (hassets : config.assets.text ≠ "")
    (hout : config.out.text ≠ "") :
    config.validate (some start) =
      if Location.walk start config.source = Location.walk start config.assets then
        .error (.invalid .sourceIsStatic)
      else if Location.walk start config.out = Location.walk start config.source ∨
          Location.walk start config.out = Location.walk start config.assets then
        .error (.invalid .outIsInput)
      else .ok () := by
  have hnamed := Location.named_walk hstart
  have hfind : config.directories.find? (fun entry => entry.2.text = "") = none := by
    simp [directories, hsource, hassets, hout]
  simp only [validate, hfind, Path.absolute_some hstart hsource, Path.absolute_some hstart hassets,
    Path.absolute_some hstart hout, Except.mapError, bind, Except.bind, pure, Except.pure,
    Bool.or_eq_true, Location.same_path_iff (hnamed _) (hnamed _)]
  rfl

-- The verdict asks of each directory whether it is named and where it lies, and nothing else.
theorem validate_eq (hstart : start.Named) (config : Config) :
    config.validate (some start) =
      if config.source.text = "" then .error (.invalid (.empty .source))
      else if config.assets.text = "" then .error (.invalid (.empty .assets))
      else if config.out.text = "" then .error (.invalid (.empty .out))
      else if Location.walk start config.source = Location.walk start config.assets then
        .error (.invalid .sourceIsStatic)
      else if Location.walk start config.out = Location.walk start config.source ∨
          Location.walk start config.out = Location.walk start config.assets then
        .error (.invalid .outIsInput)
      else .ok () := by
  by_cases hsource : config.source.text = ""
  · rw [if_pos hsource]
    exact @validate_of_empty _ _ config.source (by simp [directories, hsource]) _
  · rw [if_neg hsource]
    by_cases hassets : config.assets.text = ""
    · rw [if_pos hassets]
      exact @validate_of_empty _ _ config.assets (by simp [directories, hsource, hassets]) _
    · rw [if_neg hassets]
      by_cases hout : config.out.text = ""
      · rw [if_pos hout]
        exact @validate_of_empty _ _ config.out
          (by simp [directories, hsource, hassets, hout]) _
      · rw [if_neg hout]
        exact validate_of_named hstart hsource hassets hout

-- The directories of a usable config can be made absolute, and the output goes to none of the
-- inputs.
theorem absolute_of_validate {config : Config} {start : Option Location}
    (h : config.validate start = .ok ()) :
    ∃ source assets out, config.source.absolute start = .ok source ∧
      config.assets.absolute start = .ok assets ∧ config.out.absolute start = .ok out ∧
      out.same assets = false := by
  unfold validate at h
  split at h
  · cases h
  · obtain ⟨source, hsource, h⟩ := bind_eq_ok.1 h
    obtain ⟨assets, hassets, h⟩ := bind_eq_ok.1 h
    obtain ⟨out, hout, h⟩ := bind_eq_ok.1 h
    refine ⟨source, assets, out, Path.absolute_of_mapError hsource,
      Path.absolute_of_mapError hassets, Path.absolute_of_mapError hout, ?_⟩
    cases hinputs : source.same assets with
    | true => simp [hinputs, throw, throwThe, MonadExceptOf.throw, bind, Except.bind] at h
    | false =>
        cases hclash : out.same assets with
        | true => simp [hinputs, hclash, throw, throwThe, MonadExceptOf.throw] at h
        | false => rfl

-- A config is usable just when its directories are named and lie in three places. So it does not
-- matter how a directory is written.
theorem validate_locations (hstart : start.Named) (config : Config) :
    (config.validate (some start) = .ok () ↔
      (∀ entry ∈ config.directories, entry.2.text ≠ "") ∧
        (config.directories.map fun entry => Location.walk start entry.2).Pairwise (· ≠ ·)) ∧
    ∀ other : Config, Path.SpeltAlike start config.source other.source →
      Path.SpeltAlike start config.assets other.assets →
      Path.SpeltAlike start config.out other.out →
      other.validate (some start) = config.validate (some start) := by
  constructor
  · rw [validate_eq hstart]
    simp only [directories, List.forall_mem_cons, List.not_mem_nil, false_implies, implies_true,
      and_true, List.map_cons, List.map_nil, List.pairwise_cons, List.Pairwise.nil]
    constructor
    · intro h
      split_ifs at h with hsource hassets hout hinputs hclash
      rw [not_or] at hclash
      exact ⟨⟨hsource, hassets, hout⟩, ⟨hinputs, Ne.symm hclash.1⟩, Ne.symm hclash.2⟩
    · rintro ⟨⟨hsource, hassets, hout⟩, ⟨hinputs, hclash⟩, hclash'⟩
      rw [if_neg hsource, if_neg hassets, if_neg hout, if_neg hinputs,
        if_neg (not_or.2 ⟨hclash.symm, hclash'.symm⟩)]
  · intro other hsource hassets hout
    obtain ⟨hsource, hsourceWalk⟩ := hsource.walk_eq hstart
    obtain ⟨hassets, hassetsWalk⟩ := hassets.walk_eq hstart
    obtain ⟨hout, houtWalk⟩ := hout.walk_eq hstart
    simp only [validate_eq hstart, hsource, hassets, hout, hsourceWalk, hassetsWalk, houtWalk]

-- The default directories, written with detours, with dots and slashes, and from above the root.
theorem validate_locations_of_respelt :
    Location.Named ["site"] ∧
      Path.SpeltAlike ["site"] (default : Config).source ⟨"/site/./x/../src/"⟩ ∧
      Path.SpeltAlike ["site"] (default : Config).assets ⟨".//static"⟩ ∧
      Path.SpeltAlike ["site"] (default : Config).out ⟨"/../site/dist"⟩ ∧
      Config.validate (some ["site"])
        ⟨⟨"/site/./x/../src/"⟩, ⟨".//static"⟩, ⟨"/../site/dist"⟩, false⟩ = .ok () := by
  have hstart : Location.Named ["site"] := by
    unfold Location.Named
    decide
  -- One change after the other: absolute, a dot, a detour, a slash at the end.
  have hplace : Path.Respelling ["site"] ⟨"src"⟩ ⟨"/site/src"⟩ := .absolute (by decide) (by decide)
  have hdot : Path.Respelling ["site"] ⟨"/site/src"⟩ ⟨"/site/./src"⟩ :=
    @Path.Respelling.between _ "/site" "src" "." .dot
  have hdetour : Path.Respelling ["site"] ⟨"/site/./src"⟩ ⟨"/site/./x/../src"⟩ :=
    @Path.Respelling.between _ "/site/." "src" _ (@Location.Idle.detour _ "x" (by decide))
  have hslash : Path.Respelling ["site"] ⟨"/site/./x/../src"⟩ ⟨"/site/./x/../src/"⟩ :=
    @Path.Respelling.after _ "/site/./x/../src" "" (by decide) .slash
  have hsource : Path.SpeltAlike ["site"] ⟨"src"⟩ ⟨"/site/./x/../src/"⟩ :=
    (((Relation.EqvGen.rel _ _ hplace).trans _ _ _ (.rel _ _ hdot)).trans _ _ _
      (.rel _ _ hdetour)).trans _ _ _ (.rel _ _ hslash)
  have hhere : Path.Respelling ["site"] ⟨"static"⟩ ⟨"./static"⟩ :=
    @Path.Respelling.before _ "static" "." (by decide) (by decide) (by decide) .dot
  have hdouble : Path.Respelling ["site"] ⟨"./static"⟩ ⟨".//static"⟩ :=
    @Path.Respelling.between _ "." "static" "" .slash
  have hassets : Path.SpeltAlike ["site"] ⟨"static"⟩ ⟨".//static"⟩ :=
    (Relation.EqvGen.rel _ _ hhere).trans _ _ _ (.rel _ _ hdouble)
  have htarget : Path.Respelling ["site"] ⟨"dist"⟩ ⟨"/site/dist"⟩ := .absolute (by decide) (by decide)
  have habove : Path.Respelling ["site"] ⟨"/site/dist"⟩ ⟨"/../site/dist"⟩ :=
    @Path.Respelling.between _ "" "site/dist" ".." (.above (by decide))
  have hout : Path.SpeltAlike ["site"] ⟨"dist"⟩ ⟨"/../site/dist"⟩ :=
    (Relation.EqvGen.rel _ _ htarget).trans _ _ _ (.rel _ _ habove)
  obtain ⟨hok, hsame⟩ := validate_locations hstart default
  refine ⟨hstart, hsource, hassets, hout, ?_⟩
  rw [hsame ⟨⟨"/site/./x/../src/"⟩, ⟨".//static"⟩, ⟨"/../site/dist"⟩, false⟩ hsource hassets hout, hok]
  decide

end Config

end StaticSite
