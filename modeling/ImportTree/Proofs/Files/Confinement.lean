import ImportTree.Loader.Directory
import ImportTree.Proofs.Files.Names

/-!
# Confinement to a root

However an address is written, the loader of a directory finds nothing outside the root directory.
-/

namespace ImportTree

open Files (Name Place)

namespace Directory

variable {path? : PathReader} {current root place : Place} {path address : String}

/-! ## Requests -/

/-- The place that an address asks for, from the top if it is written as that of a file, and from the root if not. -/
inductive Requests (path? : PathReader) (root : Place) (address : String) (place : Place) : Prop where
  | structured {path : List UInt8} : isFileAddress address.toList = true → path? address.toList = some path →
      Files.follow? [] (stepsOf path) = some place → Requests path? root address place
  | plain : isFileAddress address.toList = false → Files.follow? root (Files.steps address.toList) = some place →
      Requests path? root address place

theorem placeUnder_eq_ok (h : placeUnder path? root address = .ok place) :
    Requests path? root address place ∧ root <+: place := by
  unfold placeUnder at h
  split at h
  next => cases h
  next place? hrequested =>
    split at h
    next found hfound =>
      cases h
      obtain ⟨rfl, hbelow⟩ := Option.filter_eq_some_iff.mp hfound
      refine ⟨?_, Files.below?_isSome.mp hbelow⟩
      unfold requested at hrequested
      dsimp only at hrequested
      split at hrequested
      next hfile =>
        split at hrequested
        next path hpath => exact .structured hfile hpath (Except.ok.inj hrequested)
        next => cases hrequested
      next hplain =>
        split at hrequested
        next => cases hrequested
        next => exact .plain (Bool.not_eq_true _ ▸ hplain) (Except.ok.inj hrequested)
    next => cases h

theorem placeBy_eq_ok (h : placeBy path? current path address = .ok place) :
    ∃ root, Directory.root current path = .ok root ∧ Requests path? root address place ∧ root <+: place := by
  unfold placeBy at h
  split at h
  next root hroot => exact ⟨root, hroot, placeUnder_eq_ok h⟩
  next => cases h

theorem root_eq_ok (h : Directory.root current path = .ok root) : Files.place? current path.toList = some root := by
  unfold Directory.root at h
  split at h
  next => cases h
  next =>
    split at h
    next hplace => cases h; exact hplace
    next => cases h

/-! ## Steps that stay below -/

theorem stepsOf_up_or_down (path : List UInt8) : ∀ name ∈ stepsOf path, name = .above ∨ name.IsComponent := by
  intro name hname
  obtain ⟨hname, hstep⟩ := List.mem_filter.mp hname
  obtain ⟨raw, hraw, rfl⟩ := List.mem_map.mp hname
  exact Files.isComponent_ofBytes (Text.not_mem_of_mem_splitOn hraw rfl) hstep

theorem Requests.normal (hroot : root.IsNormal) (h : Requests path? root address place) : place.IsNormal := by
  cases h with
  | structured _ _ hplace => exact Files.follow?_normal Place.isNormal_nil (stepsOf_up_or_down _) hplace
  | plain _ hplace => exact Files.follow?_normal hroot (Files.steps_up_or_down _) hplace

theorem place?_normal (hcurrent : current.IsNormal) {cs : List Char} (h : Files.place? current cs = some place) :
    place.IsNormal := by
  refine Files.follow?_normal ?_ (Files.steps_up_or_down cs) h
  split
  · exact Place.isNormal_nil
  · exact hcurrent

/-- However a root directory and an address are written, and whatever path is read from the address of a file, the
place that is found lies below the place where the components of the root lead from the current directory. It is
written from the top down, without dots. -/
theorem placeBy_confined (path? : PathReader) (hcurrent : current.IsNormal)
    (h : placeBy path? current path address = .ok place) :
    ∃ root, Files.Reaches (if Files.isAbsolute path.toList then [] else current) (Files.components path.toList) root ∧
      root <+: place ∧ place.IsNormal ∧ Files.isAbsolute place.shown = true ∧
      ∀ part ∈ Files.components place.shown, part ≠ ['.'] ∧ part ≠ ['.', '.'] := by
  obtain ⟨root, hroot, hrequests, hbelow⟩ := placeBy_eq_ok h
  have hplace := root_eq_ok hroot
  have hnormal := hrequests.normal (place?_normal hcurrent hplace)
  refine ⟨root, Files.reaches_iff.mpr hplace, hbelow, hnormal, rfl, fun part hpart => ?_⟩
  by_cases htop : place = []
  · subst htop
    have hempty : part = [] := by simpa [Files.components, Place.shown, Text.splitOn, Text.joinWith] using hpart
    simp [hempty]
  · rw [Files.components_shown hnormal htop] at hpart
    rcases List.mem_cons.mp hpart with rfl | hpart
    · simp
    · obtain ⟨name, hname, rfl⟩ := List.mem_map.mp hpart
      exact (hnormal name hname).shown.2.2

/-- An escaped slash and dots lead to a sibling, below a root that is itself written with dots. -/
theorem placeBy_confined_escaped : ∃ place : Place, Place.IsNormal [.text "srv".toList] ∧
    placeBy filePath? [.text "srv".toList] "x/../site/." "FILE:///srv/site/a/..%2Fb.html" = .ok place ∧
    ∃ root, Files.Reaches [.text "srv".toList] (Files.components "x/../site/.".toList) root ∧ root <+: place ∧
      place.IsNormal := by
  have hcurrent : Place.IsNormal [.text "srv".toList] := by unfold Place.IsNormal; decide
  have hplace : placeBy filePath? [.text "srv".toList] "x/../site/." "FILE:///srv/site/a/..%2Fb.html" =
      .ok [.text "srv".toList, .text "site".toList, .text "b.html".toList] :=
    toOption_eq_some (by decide +kernel)
  obtain ⟨root, hroot, hbelow, hnormal, _⟩ := placeBy_confined filePath? hcurrent hplace
  exact ⟨_, hcurrent, hplace, root, hroot, hbelow, hnormal⟩

end Directory

end ImportTree
