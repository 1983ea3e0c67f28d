import Mathlib.Logic.Relation
import StaticSite.Proofs.Path.Descent

-- The ways to write a path: what can be put into its text without leading anywhere else.
namespace StaticSite

namespace Path

theorem segments_append (front back : String) :
    segments (front ++ "/" ++ back) = segments front ++ segments back := by
  have htext : front ++ "/" ++ back = String.ofList (front.toList ++ '/' :: back.toList) := by
    apply String.toList_inj.1
    simp
  rw [htext, segments_ofList_append, String.ofList_toList, String.ofList_toList]

theorem isAbsolute_append {front : String} (h : front ≠ "") (back : String) :
    (Path.mk (front ++ back)).isAbsolute = (Path.mk front).isAbsolute := by
  obtain ⟨c, chars, hchars⟩ := List.exists_cons_of_ne_nil
    (show front.toList ≠ [] by simpa using h)
  simp [isAbsolute, hchars]

end Path

namespace Location

variable {location start : Location} {path : Path} {way front : String}

-- A slash after a text that is not empty leads nowhere.
theorem walk_slash (h : front ≠ "") (start : Location) :
    walk start ⟨front ++ "/"⟩ = walk start ⟨front⟩ := by
  have hsegments := Path.segments_append front ""
  rw [String.append_empty] at hsegments
  rw [walk_eq_foldl_follow, walk_eq_foldl_follow, Path.isAbsolute_append h, hsegments,
    List.foldl_append]
  rfl

theorem walk_append (start : Location) (front back : String) :
    walk start ⟨front ++ "/" ++ back⟩ =
      (Path.segments back).foldl follow (walk start ⟨front ++ "/"⟩) := by
  have hsegments := Path.segments_append front ""
  rw [String.append_empty] at hsegments
  rw [walk_eq_foldl_follow, walk_eq_foldl_follow, Path.isAbsolute_append (by simp),
    Path.segments_append, hsegments, List.foldl_append, List.foldl_append]
  rfl

-- The ways that lead back to the place where they are taken: none, a dot, a name that is left
-- again, and a step up at the root.
inductive Idle (location : Location) : String → Prop
  | slash : Idle location ""
  | dot : Idle location "."
  | detour {name : String} (h : IsName name) : Idle location (name ++ "/" ++ "..")
  | above (h : location = []) : Idle location ".."

theorem Idle.foldl_follow (h : Idle location way) :
    (Path.segments way).foldl follow location = location := by
  cases h with
  | slash => rfl
  | dot => rfl
  | @detour name hname =>
      have hup : Path.segments ".." = [".."] := by decide
      rw [Path.segments_append, Path.segments_of_not_mem hname.2.2.2, hup]
      simp [follow, hname.1, hname.2.1, hname.2.2.1]
  | above hroot => subst hroot; rfl

theorem Idle.isAbsolute_eq_false (h : Idle location way) : (Path.mk way).isAbsolute = false := by
  cases h with
  | slash => decide
  | dot => decide
  | @detour name hname =>
      rw [String.append_assoc, Path.isAbsolute_append hname.1, Path.isAbsolute, decide_eq_false_iff_not]
      exact fun hhead => hname.2.2.2 (List.mem_of_head? hhead)
  | above hroot => decide

end Location

namespace Path

open Location (Idle)

-- One change of how a path is written, as seen from the directory `start`: a way that leads
-- nowhere put between two segments, after the last or before the first, or the path of the
-- directory put before a relative one.
inductive Respelling (start : Location) : Path → Path → Prop
  | between {front back way : String} (h : Idle (Location.walk start ⟨front ++ "/"⟩) way) :
    Respelling start ⟨front ++ "/" ++ back⟩ ⟨front ++ "/" ++ (way ++ "/" ++ back)⟩
  | after {text way : String} (hne : text ≠ "") (h : Idle (Location.walk start ⟨text⟩) way) :
    Respelling start ⟨text⟩ ⟨text ++ "/" ++ way⟩
  | before {text way : String} (hne : text ≠ "") (hrelative : (Path.mk text).isAbsolute = false)
    (hway : way ≠ "") (h : Idle start way) : Respelling start ⟨text⟩ ⟨way ++ "/" ++ text⟩
  | absolute {path : Path} (hne : path.text ≠ "") (hrelative : path.isAbsolute = false) :
    Respelling start path (start.path.join path)

namespace Respelling

variable {start : Location} {path other : Path}

theorem ne_empty (h : Respelling start path other) : path.text ≠ "" ∧ other.text ≠ "" := by
  cases h with
  | between h => simp
  | after hne h => simp [hne]
  | before hne hrelative hway h => simp [hne]
  | absolute hne hrelative =>
      refine ⟨hne, fun hempty => ?_⟩
      have habsolute := @isAbsolute_join _ path (Location.isAbsolute_path start)
      simp [isAbsolute, hempty] at habsolute

theorem walk_eq (hstart : start.Named) (h : Respelling start path other) :
    Location.walk start other = Location.walk start path := by
  cases h with
  | between h =>
      rw [Location.walk_append, segments_append, List.foldl_append, h.foldl_follow,
        ← Location.walk_append]
  | after hne h => rw [Location.walk_append, Location.walk_slash hne, h.foldl_follow]
  | before hne hrelative hway h =>
      rw [Location.walk_append, Location.walk_slash hway, Location.walk_eq_foldl_follow,
        h.isAbsolute_eq_false, Location.walk_eq_foldl_follow, hrelative]
      simp [h.foldl_follow]
  | absolute hne hrelative => rw [walk_join start hrelative, Location.walk_path hstart]

end Respelling

-- Paths that are written differently, by any number of such changes.
def SpeltAlike (start : Location) : Path → Path → Prop :=
  Relation.EqvGen (Respelling start)

-- However a path is written, it leads to the same place, and it is not written away.
theorem SpeltAlike.walk_eq {start : Location} (hstart : start.Named) {path other : Path}
    (h : SpeltAlike start path other) :
    (path.text = "" ↔ other.text = "") ∧ Location.walk start path = Location.walk start other := by
  induction h with
  | rel path other h =>
      obtain ⟨hpath, hother⟩ := h.ne_empty
      exact ⟨iff_of_false hpath hother, (h.walk_eq hstart).symm⟩
  | refl path => exact ⟨Iff.rfl, rfl⟩
  | symm path other _ ih => exact ⟨ih.1.symm, ih.2.symm⟩
  | trans path middle other _ _ ih ih' => exact ⟨ih.1.trans ih'.1, ih.2.trans ih'.2⟩

end Path

end StaticSite
