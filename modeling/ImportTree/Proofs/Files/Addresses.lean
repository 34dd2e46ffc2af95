import ImportTree.Address.Resolve
import ImportTree.Cli.Run
import ImportTree.Proofs.Files.Steps
import ImportTree.Proofs.Markup.Search
import Mathlib.Data.List.TakeWhile

/-!
# Addresses of documents under a root

The address of a document, the resolution of references and the loader agree: each of them goes where the components of
a path lead.
-/

namespace ImportTree

open Files (Name Place Reaches stepsIn)

variable {part path base target : List Char} {done parts : List (List Char)} {names : List Name} {root place : Place}

/-! ## Normal paths -/

namespace Address.Path

theorem mem_push {absolute : Bool} {next : List Char} (h : part ∈ push absolute done next) :
    part ∈ done ∨ part = next ∧ part ≠ [] ∧ part ≠ ['.'] := by
  unfold push at h
  split at h
  next => exact .inl h
  next hstep =>
    rw [not_or] at hstep
    have hcons {rest : List (List Char)} (h : part ∈ next :: rest) :
        part ∈ rest ∨ part = next ∧ part ≠ [] ∧ part ≠ ['.'] := by
      rcases List.mem_cons.mp h with rfl | h
      · exact .inr ⟨rfl, hstep⟩
      · exact .inl h
    split at h
    next hup =>
      split at h
      next last rest =>
        split at h
        next => exact .inl (List.mem_cons_of_mem _ h)
        next =>
          split at h
          next => exact .inl h
          next => exact hcons h
      next =>
        split at h
        next => exact absurd h (by simp)
        next => exact hcons h
    next => exact hcons h

/-- A component leads to the same place whether it is pushed to others or follows them. -/
theorem follow?_push (hdone : ∀ part ∈ done, part ≠ [] ∧ part ≠ ['.']) (place : Place) (part : List Char) :
    Files.follow? place (stepsIn (push false done part).reverse) =
      Files.follow? place (stepsIn (done.reverse ++ [part])) := by
  unfold push
  split
  next hidle =>
    rw [Files.stepsIn_append, Files.stepsIn_idle hidle]
    simp [stepsIn]
  next =>
    split
    next hup =>
      subst hup
      split
      next last rest =>
        split
        next hlast =>
          have hstep := hdone last (List.mem_cons_self ..)
          rw [List.reverse_cons, List.append_assoc, List.singleton_append,
            Files.follow?_cancel ⟨hstep.1, hstep.2, hlast⟩]
        next => rw [if_neg (by simp), List.reverse_cons]
      next => rfl
    next => rw [List.reverse_cons]

theorem mem_foldl_push {absolute : Bool} (h : part ∈ parts.foldl (push absolute) done) :
    part ∈ done ∨ part ∈ parts ∧ part ≠ [] ∧ part ≠ ['.'] := by
  induction parts generalizing done with
  | nil => exact .inl h
  | cons next parts ih =>
      rcases ih h with h | ⟨h, hstep⟩
      · rcases mem_push h with h | ⟨rfl, hstep⟩
        · exact .inl h
        · exact .inr ⟨List.mem_cons_self .., hstep⟩
      · exact .inr ⟨List.mem_cons_of_mem _ h, hstep⟩

theorem follow?_foldl_push (hdone : ∀ part ∈ done, part ≠ [] ∧ part ≠ ['.']) (place : Place) :
    Files.follow? place (stepsIn (parts.foldl (push false) done).reverse) =
      Files.follow? place (stepsIn (done.reverse ++ parts)) := by
  induction parts generalizing done with
  | nil => rw [List.foldl_nil, List.append_nil]
  | cons part parts ih =>
      have hpush : ∀ next ∈ push false done part, next ≠ [] ∧ next ≠ ['.'] := by
        intro next hnext
        rcases mem_push hnext with hnext | ⟨_, hstep⟩
        · exact hdone next hnext
        · exact hstep
      rw [List.foldl_cons, ih hpush, Files.stepsIn_append, Files.follow?_append, follow?_push hdone,
        ← Files.follow?_append, ← Files.stepsIn_append, List.append_assoc, List.singleton_append]

theorem mem_segments (h : part ∈ segments path) : part ≠ [] ∧ part ≠ ['.'] ∧ '/' ∉ part ∧ ∀ c ∈ part, c ∈ path := by
  rw [segments, List.mem_reverse] at h
  rcases mem_foldl_push h with h | ⟨h, hstep⟩
  · cases h
  · have hmem := Text.mem_of_mem_splitOn h
    exact ⟨hstep.1, hstep.2, Text.not_mem_of_mem_splitOn h rfl, fun c hc => (hmem c hc).1⟩

theorem normalize_of_relative (h : isAbsolute path = false) : normalize path = Text.joinWith '/' (segments path) := by
  rw [normalize, h, if_neg (by simp), List.nil_append]

/-- A normal path leads to the same place as the path that it comes from. -/
theorem follow?_normalize (h : isAbsolute path = false) (place : Place) :
    Files.follow? place (Files.steps (normalize path)) = Files.follow? place (Files.steps path) := by
  rw [normalize_of_relative h, Files.steps_joinWith fun part hpart => (mem_segments hpart).2.2.1, segments, h,
    follow?_foldl_push (by simp)]
  rfl

end Address.Path

/-! ## Relative references -/

namespace Address

/-- A path that does not begin at the top and is no address with a scheme. -/
def IsRelative (path : List Char) : Prop :=
  path.head? ≠ some '/' ∧ ':' ∉ path

instance (path : List Char) : Decidable (IsRelative path) :=
  inferInstanceAs (Decidable (_ ∧ _))

/-- A reference by a relative path, without a fragment and without white space around it. -/
structure IsReference (target : List Char) : Prop where
  ne_nil : target ≠ []
  relative : IsRelative target
  no_fragment : '#' ∉ target
  no_space : (∀ c ∈ target.head?, Text.isSpace c = false) ∧ ∀ c ∈ target.getLast?, Text.isSpace c = false

theorem takeWhile_ne {c : Char} (h : c ∉ path) : path.takeWhile (· != c) = path := by
  refine List.takeWhile_eq_self_iff.mpr fun d hd => bne_iff_ne.mpr ?_
  rintro rfl
  exact h hd

theorem hasScheme_relative (h : IsRelative path) : hasScheme path = false := by
  simp [hasScheme, takeWhile_ne h.2]

theorem referenced_reference (h : IsReference target) : referenced target = target := by
  have hdrop {cs : List Char} (hc : ∀ c ∈ cs.head?, Text.isSpace c = false) : cs.dropWhile Text.isSpace = cs := by
    cases cs with
    | nil => rfl
    | cons c cs => rw [List.dropWhile_cons, if_neg (by simp [hc c rfl])]
  have htrim : Text.trim target = target := by
    rw [Text.trim, hdrop h.no_space.1, Text.trimRight, hdrop (by simpa using h.no_space.2), List.reverse_reverse]
  rw [referenced, htrim, takeWhile_ne h.no_fragment]

theorem resolve_reference (hbase : IsRelative base) (htarget : IsReference target) :
    resolve (String.ofList base) (String.ofList target) = .ok (String.ofList (Path.join base target)) := by
  have hfollow : follow? base target = some (Path.join base target) := by
    rw [follow?, if_neg (by simpa using htarget.ne_nil), hasScheme_relative hbase, hasScheme_relative htarget.relative]
    rfl
  rw [resolve, String.toList_ofList, String.toList_ofList, referenced_reference htarget, hfollow]

theorem isAbsolute_relative (h : IsRelative path) : Path.isAbsolute path = false := by
  simpa [Path.isAbsolute] using h.1

theorem behind_relative (hbase : IsRelative base) (htarget : IsRelative target) :
    IsRelative (Text.throughLast '/' base ++ target) := by
  have hfront := Text.throughLast_prefix '/' base
  constructor
  · cases hdir : Text.throughLast '/' base with
    | nil => exact htarget.1
    | cons c dir =>
        obtain ⟨rest, hrest⟩ := hdir ▸ hfront
        have hhead := hbase.1
        rw [← hrest] at hhead
        exact hhead
  · exact fun hc => (List.mem_append.mp hc).elim (fun hc => hbase.2 (hfront.subset hc)) htarget.2

theorem normalize_relative (h : IsRelative path) : IsRelative (Path.normalize path) := by
  rw [Path.normalize_of_relative (isAbsolute_relative h)]
  constructor
  · exact Text.head?_joinWith fun part hpart => ⟨(Path.mem_segments hpart).1, (Path.mem_segments hpart).2.2.1⟩
  · intro hcolon
    rcases Text.mem_joinWith hcolon with heq | ⟨part, hpart, hc⟩
    · cases heq
    · exact h.2 ((Path.mem_segments hpart).2.2.2 _ hc)

/-- Resolution does not leave the relative paths. -/
theorem join_relative (hbase : IsRelative base) (htarget : IsRelative target) : IsRelative (Path.join base target) := by
  rw [Path.join, isAbsolute_relative htarget, if_neg (by simp)]
  exact normalize_relative (behind_relative hbase htarget)

/-- A resolved reference leads where its components lead from the directory of its base. -/
theorem follow?_join (hbase : IsRelative base) (htarget : IsRelative target) (place : Place) :
    Files.follow? place (Files.steps (Path.join base target)) =
      Files.follow? place (Files.steps (Text.throughLast '/' base) ++ Files.steps target) := by
  rw [Path.join, isAbsolute_relative htarget, if_neg (by simp),
    Path.follow?_normalize (isAbsolute_relative (behind_relative hbase htarget)), Files.steps_behind]

end Address

/-! ## Canonical places -/

namespace Files

/-- A name that a directory may contain. -/
def Name.IsPlain (name : Name) : Prop :=
  ∃ cs, name = .text cs ∧ '/' ∉ cs ∧ cs ≠ [] ∧ cs ≠ ['.'] ∧ cs ≠ ['.', '.']

def Place.IsCanonical (place : Place) : Prop :=
  ∀ name ∈ place, name.IsPlain

theorem Place.IsCanonical.shown_clean (h : Place.IsCanonical names) :
    ∀ part ∈ names.map Name.shown, part ≠ [] ∧ '/' ∉ part := by
  intro part hpart
  obtain ⟨name, hname, rfl⟩ := List.mem_map.mp hpart
  obtain ⟨cs, rfl, hslash, hne, _⟩ := h name hname
  exact ⟨hne, hslash⟩

theorem stepsIn_shown (h : Place.IsCanonical names) : stepsIn (names.map Name.shown) = names := by
  induction names with
  | nil => rfl
  | cons name names ih =>
      obtain ⟨cs, rfl, _, hne, hdot, _⟩ := h name (List.mem_cons_self ..)
      rw [List.map_cons, Name.shown, stepsIn_step ⟨hne, hdot⟩, ih fun n hn => h n (List.mem_cons_of_mem _ hn)]

/-- The names of a canonical place lead down from any place. -/
theorem follow?_canonical (h : Place.IsCanonical names) (place : Place) :
    follow? place names = some (place ++ names) := by
  induction names generalizing place with
  | nil => rw [List.append_nil]; rfl
  | cons name names ih =>
      obtain ⟨cs, rfl, _, _, _, hup⟩ := h name (List.mem_cons_self ..)
      rw [follow?_down hup, ih fun n hn => h n (List.mem_cons_of_mem _ hn), List.append_assoc, List.singleton_append]

theorem steps_shown (h : root.IsCanonical) : steps root.shown = root := by
  rw [Place.shown, steps_slash, steps_joinWith fun part hpart => (h.shown_clean part hpart).2, stepsIn_shown h]

end Files

/-! ## The loader -/

theorem eq_of_toLower {c d : Char} (h : c.toLower = d) (hd : d < 'A') : c = d := by
  unfold Char.toLower at h
  split at h
  next hupper =>
    have hval : (c.val + 32).toNat = d.val.toNat := congrArg (fun d : Char => d.val.toNat) h
    have hle : 65 ≤ c.val.toNat := UInt32.le_iff_toNat_le.mp hupper.1
    have hlt : c.val.toNat ≤ 90 := UInt32.le_iff_toNat_le.mp hupper.2
    have hbelow : d.val.toNat < 65 := UInt32.lt_iff_toNat_lt.mp hd
    rw [UInt32.toNat_add, show (32 : UInt32).toNat = 32 from rfl] at hval
    omega
  next => exact h

namespace Directory

theorem isFileAddress_of_colon (h : ':' ∉ path) : isFileAddress path = false := by
  by_contra hfile
  rw [Bool.not_eq_false, isFileAddress, Text.startsWithLetters_iff] at hfile
  obtain ⟨c, hc, hcolon⟩ := List.mem_map.mp (hfile.subset (by decide : ':' ∈ Text.lower "file:".toList))
  exact h (eq_of_toLower hcolon (by decide) ▸ hc)

theorem requested_of_colon (h : ':' ∉ path) (path? : PathReader) (root : Place) :
    requested path? root (String.ofList path) = .ok (Files.follow? root (Files.steps path)) := by
  have hcut : (Text.cutAround? "://".toList path).isSome = false := by
    cases hcut : Text.cutAround? "://".toList path with
    | none => rfl
    | some cut =>
        refine absurd ?_ h
        rw [← Text.cutAround?_append hcut]
        simp
  rw [requested, String.toList_ofList]
  simp only [isFileAddress_of_colon h, hcut, if_false, Bool.false_eq_true]

theorem root_shown (h : root.IsCanonical) (current : Place) : Directory.root current (Cli.shown root) = .ok root := by
  have hplace : Files.place? current root.shown = some root := by
    rw [Files.place?, show Files.isAbsolute root.shown = true from rfl, if_pos rfl, Files.steps_shown h,
      Files.follow?_canonical h, List.nil_append]
  have hne : (Cli.shown root).isEmpty = false := by
    simp [Cli.shown, Place.shown]
  rw [Directory.root, hne, if_neg (by simp), Cli.shown, String.toList_ofList, hplace]

/-- A loader finds what is at the end of the steps of a path, if that is the root or below it. -/
theorem placeOf_relative (hroot : root.IsCanonical) (h : ':' ∉ path) (current : Place) :
    placeOf current (Cli.shown root) (String.ofList path) = .ok place ↔
      Files.follow? root (Files.steps path) = some place ∧ root <+: place := by
  rw [placeOf, placeBy, root_shown hroot]
  simp only [placeUnder, requested_of_colon h]
  cases hfollow : Files.follow? root (Files.steps path) with
  | none => simp
  | some next =>
      by_cases hnext : root <+: next
      · simp only [Option.filter_some, Files.below?_isSome.mpr hnext, if_true, Except.ok.injEq, Option.some.injEq]
        exact ⟨fun heq => ⟨heq, heq ▸ hnext⟩, And.left⟩
      · have hout : (Files.below? root next).isSome = false := Bool.not_eq_true _ ▸ Files.below?_isSome.not.mpr hnext
        simp only [Option.filter_some, hout, Bool.false_eq_true, if_false, reduceCtorEq, false_iff, not_and]
        rintro ⟨⟩
        exact hnext

end Directory

/-! ## Agreement -/

open Files (components)

theorem Cli.addressOf_relative (h : Place.IsCanonical names) (hcolon : ∀ name ∈ names, ':' ∉ name.shown) :
    Address.IsRelative (Text.joinWith '/' (names.map Name.shown)) := by
  refine ⟨Text.head?_joinWith h.shown_clean, fun hc => ?_⟩
  rcases Text.mem_joinWith hc with heq | ⟨part, hpart, hc⟩
  · cases heq
  · obtain ⟨name, hname, rfl⟩ := List.mem_map.mp hpart
    exact hcolon name hname hc

/-- Where a reference leads from the directory of its base: from the top along the root, the directory and the target,
to the root or a place below it. -/
def Files.LeadsTo (root : Place) (base target : List Char) (place : Place) : Prop :=
  Reaches [] (components root.shown ++ components (Text.throughLast '/' base) ++ components target) place ∧
    root <+: place

/-- Under a canonical root, the address of a document leads back to it, and the address of a reference leads where the
reference leads. If it leads nowhere, loading fails. -/
theorem placeOf_agrees (current : Place) (hroot : root.IsCanonical) :
    (∀ document : Place, document.IsCanonical → root <+: document → (∀ name ∈ document, ':' ∉ name.shown) →
      ∃ names, Files.below? root document = some names ∧
        Directory.placeOf current (Cli.shown root) (Cli.addressOf names) = .ok document) ∧
    ∀ base target : List Char, Address.IsRelative base → Address.IsReference target →
      ∃ address, Address.resolve (String.ofList base) (String.ofList target) = .ok address ∧
        (∀ place, Directory.placeOf current (Cli.shown root) address = .ok place ↔
          Files.LeadsTo root base target place) ∧
        ((¬∃ place, Files.LeadsTo root base target place) →
          ∃ failure, Directory.placeOf current (Cli.shown root) address = .error failure) := by
  constructor
  · rintro document hcanonical ⟨names, rfl⟩ hcolon
    have hnames : Place.IsCanonical names := fun name hname => hcanonical name (List.mem_append_right _ hname)
    have hrelative := Cli.addressOf_relative hnames fun name hname => hcolon name (List.mem_append_right _ hname)
    refine ⟨names, Files.below?_eq_some_iff.mpr rfl, ?_⟩
    rw [Cli.addressOf, Directory.placeOf_relative hroot hrelative.2,
      Files.steps_joinWith fun part hpart => (hnames.shown_clean part hpart).2,
      Files.stepsIn_shown hnames, Files.follow?_canonical hnames]
    exact ⟨rfl, List.prefix_append ..⟩
  · intro base target hbase htarget
    have hsteps : stepsIn (components root.shown) = root := Files.steps_shown hroot
    have hroot' (names : List Name) : Files.follow? [] (root ++ names) = Files.follow? root names := by
      rw [Files.follow?_append, Files.follow?_canonical hroot]
      rfl
    have hplace (place : Place) :
        Directory.placeOf current (Cli.shown root) (String.ofList (Address.Path.join base target)) = .ok place ↔
          Files.LeadsTo root base target place := by
      rw [Directory.placeOf_relative hroot (Address.join_relative hbase htarget.relative).2,
        Address.follow?_join hbase htarget.relative, Files.LeadsTo, Files.reaches_iff, List.append_assoc,
        Files.stepsIn_append, hsteps, hroot', Files.stepsIn_append]
      rfl
    refine ⟨_, Address.resolve_reference hbase htarget, hplace, fun hnowhere => ?_⟩
    cases hloaded : Directory.placeOf current (Cli.shown root) (String.ofList (Address.Path.join base target)) with
    | ok place => exact absurd ⟨place, (hplace place).mp hloaded⟩ hnowhere
    | error failure => exact ⟨failure, rfl⟩

/-- A site directory, for which references leave the root and enter it again. -/
def Files.Place.site : Place :=
  [.text "srv".toList, .text "site".toList]

theorem placeOf_agrees_site : Place.site.IsCanonical ∧
    (∃ names, Files.below? Place.site (Place.site ++ [.text "app".toList, .text "index.html".toList]) = some names ∧
      Directory.placeOf [] (Cli.shown Place.site) (Cli.addressOf names) =
        .ok (Place.site ++ [.text "app".toList, .text "index.html".toList])) ∧
    ∃ address, Address.resolve "app/index.html" ".././../site//lib.html" = .ok address ∧
      Directory.placeOf [] (Cli.shown Place.site) address = .ok (Place.site ++ [.text "lib.html".toList]) := by
  have hplain : ∀ name ∈ Place.site ++ [.text "app".toList, .text "index.html".toList], name.IsPlain := by
    simp only [Place.site, List.cons_append, List.nil_append, List.forall_mem_cons]
    refine ⟨⟨_, rfl, ?_⟩, ⟨_, rfl, ?_⟩, ⟨_, rfl, ?_⟩, ⟨_, rfl, ?_⟩, by simp⟩ <;> decide
  have hsite : Place.site.IsCanonical := fun name hname => hplain name (List.mem_append_left _ hname)
  have hagrees := placeOf_agrees [] hsite
  obtain ⟨address, hresolve, hplace, _⟩ := hagrees.2 "app/index.html".toList ".././../site//lib.html".toList (by decide)
    ⟨by decide, by decide, by decide, by simp [Text.isSpace]⟩
  refine ⟨hsite, hagrees.1 _ hplain (List.prefix_append ..) (by decide), address, hresolve, (hplace _).mpr ⟨?_, ?_⟩⟩
  · exact Files.reaches_iff.mpr (by decide)
  · exact List.prefix_append ..

end ImportTree
