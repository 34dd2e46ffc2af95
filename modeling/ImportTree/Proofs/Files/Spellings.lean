import ImportTree.Proofs.Files.Addresses
import ImportTree.Proofs.Files.Confinement

/-!
# Spellings of the address of a document

Documents are told apart by their addresses. A document has one address that begins at the root, and one for each
number of directories that are climbed first, from the directory where relative addresses start.
-/

namespace ImportTree

open Files (Name Place)

variable {path part : List Char} {done parts names : List (List Char)} {absolute : Bool}
  {climbed : Nat} {root place : Place} {address : String}

/-! ## Normal paths -/

namespace Address.Path

/-- How many directories a path climbs before it goes down. -/
def climbs (path : List Char) : Nat :=
  ((Files.components path).takeWhile (· == ['.', '.'])).length

/-- A path is written as the directories that it climbs and the names that it goes down from there. From the root there
is nothing to climb. -/
structure Spells (path : List Char) (absolute : Bool) (climbed : Nat) (names : List (List Char)) : Prop where
  written : path =
    (if absolute then ['/'] else []) ++ Text.joinWith '/' (List.replicate climbed ['.', '.'] ++ names)
  down : ∀ name ∈ names, (Name.text name).IsComponent
  top : absolute = true → climbed = 0

/-- Segments that were pushed, the last of them first: names on top of the directories that are climbed. -/
def Stacked (absolute : Bool) (done : List (List Char)) : Prop :=
  ∃ names climbed, done = names ++ List.replicate climbed ['.', '.'] ∧
    (∀ name ∈ names, (Name.text name).IsComponent) ∧ (absolute = true → climbed = 0)

theorem Stacked.push (h : Stacked absolute done) (hslash : '/' ∉ part) :
    Stacked absolute (push absolute done part) := by
  obtain ⟨names, climbed, rfl, hdown, htop⟩ := h
  unfold Path.push
  split
  next => exact ⟨names, climbed, rfl, hdown, htop⟩
  next hstep =>
    rw [not_or] at hstep
    split
    next hup =>
      cases names with
      | nil =>
          cases climbed with
          | zero =>
              cases absolute with
              | true => exact ⟨[], 0, rfl, by simp, fun _ => rfl⟩
              | false => exact ⟨[], 1, by simp [hup], by simp, by simp⟩
          | succ climbed =>
              -- A path from the root has no directories to climb, so this one is relative.
              obtain rfl : absolute = false := by simpa using htop
              exact ⟨[], climbed + 2, by simp [List.replicate_succ, hup], by simp, by simp⟩
      | cons last names =>
          obtain ⟨hlast, hdown⟩ := List.forall_mem_cons.mp hdown
          simp only [List.cons_append, hlast.2.2.2, ne_eq, not_false_eq_true, if_true]
          exact ⟨names, climbed, rfl, hdown, htop⟩
    next hdot =>
      have hpart : (Name.text part).IsComponent := ⟨hslash, hstep.1, hstep.2, hdot⟩
      exact ⟨part :: names, climbed, rfl, List.forall_mem_cons.mpr ⟨hpart, hdown⟩, htop⟩

theorem Stacked.foldl (h : Stacked absolute done) (hslash : ∀ part ∈ parts, '/' ∉ part) :
    Stacked absolute (parts.foldl (Path.push absolute) done) := by
  induction parts generalizing done with
  | nil => exact h
  | cons part parts ih =>
      obtain ⟨hpart, hparts⟩ := List.forall_mem_cons.mp hslash
      exact ih (h.push hpart) hparts

theorem spells_normalize (path : List Char) :
    ∃ climbed names, Spells (normalize path) (isAbsolute path) climbed names := by
  have hnil : Stacked (isAbsolute path) [] := ⟨[], 0, rfl, by simp, fun _ => rfl⟩
  obtain ⟨names, climbed, hdone, hdown, htop⟩ :=
    hnil.foldl fun part (hpart : part ∈ Text.splitOn (· == '/') path) => Text.not_mem_of_mem_splitOn hpart rfl
  refine ⟨climbed, names.reverse, ?_, fun name hname => hdown name (List.mem_reverse.mp hname), htop⟩
  rw [normalize, segments, hdone, List.reverse_append, List.reverse_replicate]

variable (h : Spells path absolute climbed names)
include h

theorem Spells.clean : ∀ part ∈ List.replicate climbed ['.', '.'] ++ names, part ≠ [] ∧ '/' ∉ part := by
  intro part hpart
  rcases List.mem_append.mp hpart with hpart | hpart
  · rw [List.eq_of_mem_replicate hpart]
    decide
  · exact ⟨(h.down part hpart).2.1, (h.down part hpart).1⟩

theorem Spells.isAbsolute : isAbsolute path = absolute := by
  rw [h.written, Path.isAbsolute]
  cases absolute with
  | true => rfl
  | false => simpa using Text.head?_joinWith h.clean

theorem Spells.climbs : climbs path = climbed := by
  have hdown : names.takeWhile (· == ['.', '.']) = [] := by
    rw [List.takeWhile_eq_nil_iff]
    intro hne
    simpa using (h.down _ (List.getElem_mem hne)).2.2.2
  unfold Path.climbs
  cases absolute with
  | true =>
      rw [h.written, h.top rfl, if_pos rfl, List.singleton_append, Files.components_slash]
      rfl
  | false =>
      rw [h.written, if_neg (by simp), List.nil_append, Files.components]
      by_cases hne : List.replicate climbed ['.', '.'] ++ names = []
      · obtain ⟨hclimbed, rfl⟩ := List.append_eq_nil_iff.mp hne
        obtain rfl : climbed = 0 := by simpa using hclimbed
        rfl
      · rw [Text.splitOn_joinWith hne fun part hpart => (h.clean part hpart).2,
          List.takeWhile_append_of_pos (by simp), hdown, List.append_nil, List.length_replicate]

theorem Spells.steps : Files.steps path = List.replicate climbed .above ++ names.map .text := by
  have hall : Files.stepsIn (List.replicate climbed ['.', '.'] ++ names) =
      (List.replicate climbed ['.', '.'] ++ names).map .text := by
    refine List.filter_eq_self.mpr fun name hname => ?_
    obtain ⟨part, hpart, rfl⟩ := List.mem_map.mp hname
    refine Files.isStep_text.mpr ?_
    rcases List.mem_append.mp hpart with hpart | hpart
    · rw [List.eq_of_mem_replicate hpart]
      decide
    · exact ⟨(h.down part hpart).2.1, (h.down part hpart).2.2.1⟩
  have hjoined : Files.steps path =
      Files.steps (Text.joinWith '/' (List.replicate climbed ['.', '.'] ++ names)) := by
    rw [h.written]
    cases absolute with
    | true => exact Files.steps_slash _
    | false => rfl
  rw [hjoined, Files.steps_joinWith fun part hpart => (h.clean part hpart).2, hall, List.map_append, List.map_replicate,
    Name.above]

end Address.Path

theorem Files.follow?_climb {climbed : Nat} {names : List Name} (place : Place) :
    follow? place (List.replicate climbed .above ++ names) =
      if climbed ≤ place.length then follow? (place.take (place.length - climbed)) names else none := by
  induction climbed generalizing place with
  | zero => simp
  | succ climbed ih =>
      rcases List.eq_nil_or_concat place with rfl | ⟨parent, name, rfl⟩
      · simp [List.replicate_succ, follow?]
      · rw [List.concat_eq_append, List.replicate_succ, List.cons_append, follow?_up, ih]
        simp [List.take_append]

namespace Address.Path

theorem Spells.leads (h : Spells path absolute climbed names)
    (hplace : Files.follow? root (Files.steps path) = some place) :
    place = root.take (root.length - climbed) ++ names.map .text := by
  have hcanonical : Place.IsCanonical (names.map .text) := by
    intro name hname
    obtain ⟨cs, hcs, rfl⟩ := List.mem_map.mp hname
    exact ⟨cs, rfl, h.down cs hcs⟩
  rw [h.steps, Files.follow?_climb] at hplace
  split at hplace
  next =>
    rw [Files.follow?_canonical hcanonical] at hplace
    exact (Option.some.inj hplace).symm
  next => cases hplace

/-- Paths that climb the same directories and lead to one place are written alike. -/
theorem Spells.eq_of_leads {path' : List Char} {names' : List (List Char)} (h : Spells path absolute climbed names)
    (h' : Spells path' absolute climbed names') (hplace : Files.follow? root (Files.steps path) = some place)
    (hplace' : Files.follow? root (Files.steps path') = some place) : path = path' := by
  have hnames : names.map Name.text = names'.map Name.text :=
    List.append_cancel_left ((h.leads hplace).symm.trans (h'.leads hplace'))
  have hinj : Function.Injective Name.text := fun _ _ h => Name.text.inj h
  obtain rfl := hinj.list_map hnames
  exact h.written.trans h'.written.symm

end Address.Path

/-! ## Addresses in an analysis -/

theorem isAlpha_of_toLower {c : Char} (h : c.toLower.isAlpha = true) : c.isAlpha = true := by
  unfold Char.toLower at h
  split at h
  next hupper =>
    have hisUpper : c.isUpper = true := decide_eq_true hupper
    exact Bool.or_eq_true_iff.mpr (.inl hisUpper)
  next => exact h

theorem Address.hasScheme_letters {scheme : List Char} (hlong : 1 < scheme.length)
    (hletters : ∀ c ∈ scheme, c.isAlpha = true) (rest : List Char) : hasScheme (scheme ++ ':' :: rest) = true := by
  have hcolon : ∀ c ∈ scheme, (c != ':') = true := by
    intro c hc
    refine bne_iff_ne.mpr fun heq => ?_
    have halpha := hletters c hc
    rw [heq] at halpha
    exact absurd halpha (by decide)
  have hscheme : (scheme ++ ':' :: rest).takeWhile (· != ':') = scheme := by
    rw [List.takeWhile_append_of_pos hcolon]
    simp
  have hhead : scheme.head?.any Char.isAlpha = true := by
    obtain ⟨c, others, rfl⟩ := List.exists_cons_of_ne_nil (List.ne_nil_of_length_pos (Nat.zero_lt_of_lt hlong))
    exact hletters c (List.mem_cons_self ..)
  have hall : (scheme.all fun c => c.isAlphanum || c == '+' || c == '-' || c == '.') = true :=
    List.all_eq_true.mpr fun c hc => by simp [Char.isAlphanum, hletters c hc]
  rw [hasScheme, hscheme, hhead, hall]
  simp [hlong]

theorem Directory.hasScheme_of_isFileAddress (h : isFileAddress path = true) : Address.hasScheme path = true := by
  obtain ⟨rest, hrest⟩ := Text.startsWithLetters_iff.mp h
  have hlower : path.map Char.toLower = ['f', 'i', 'l', 'e'] ++ ':' :: rest := hrest.symm
  obtain ⟨scheme, mark, rfl, hscheme, hmark⟩ := List.map_eq_append_iff.mp hlower
  obtain ⟨colon, more, rfl, hcolon, -⟩ := List.map_eq_cons_iff.mp hmark
  obtain rfl := eq_of_toLower hcolon (by decide)
  refine Address.hasScheme_letters ?_ (fun c hc => isAlpha_of_toLower ?_) more
  · rw [← List.length_map, hscheme]
    decide
  · have hletters : ∀ d ∈ ['f', 'i', 'l', 'e'], d.isAlpha = true := List.all_eq_true.mp (by decide)
    exact hletters _ (hscheme ▸ List.mem_map_of_mem hc)

/-- A plain path is followed from the root. -/
theorem Directory.follow?_of_placeOf {current : Place} {path : String}
    (hplain : Address.hasScheme address.toList = false) (h : placeOf current path address = .ok place) :
    ∃ root, Directory.root current path = .ok root ∧
      Files.follow? root (Files.steps address.toList) = some place := by
  obtain ⟨root, hroot, hrequests, -⟩ := placeBy_eq_ok h
  refine ⟨root, hroot, ?_⟩
  cases hrequests with
  | structured hfile _ _ => rw [hasScheme_of_isFileAddress hfile] at hplain; cases hplain
  | plain _ hfollow => exact hfollow

namespace Address

/-- The addresses that documents have in an analysis, as far as they are plain paths: that of the first document, and
those of references without a scheme. -/
inductive Occurs (start : String) : String → Prop where
  | start : Occurs start start
  | named {base target address : String} : Occurs start base → hasScheme base.toList = false →
      hasScheme (referenced target.toList) = false → resolve base target = .ok address → Occurs start address

theorem resolve_plain {base target : String} (hbase : hasScheme base.toList = false)
    (htarget : hasScheme (referenced target.toList) = false) (h : resolve base target = .ok address) :
    address = String.ofList (Path.join base.toList (referenced target.toList)) := by
  unfold resolve at h
  split at h
  next cs hcs =>
    rw [follow?, hbase, htarget] at hcs
    split at hcs
    next => cases hcs
    next =>
      obtain rfl := Option.some.inj hcs
      exact (Except.ok.inj h).symm
  next => cases h

theorem spells_addressOf {names : List Name} (h : Place.IsNormal names) :
    Path.Spells (Cli.addressOf names).toList false 0 (names.map Name.shown) := by
  refine ⟨by simp [Cli.addressOf], fun part hpart => ?_, by simp⟩
  obtain ⟨name, hname, rfl⟩ := List.mem_map.mp hpart
  exact (h name hname).shown

theorem Occurs.spells {names : List Name} (hnames : Place.IsNormal names) (h : Occurs (Cli.addressOf names) address) :
    ∃ absolute climbed names, Path.Spells address.toList absolute climbed names := by
  cases h with
  | start => exact ⟨_, _, _, spells_addressOf hnames⟩
  | named _ hbase htarget hresolve =>
      rw [resolve_plain hbase htarget hresolve, String.toList_ofList, Path.join]
      exact ⟨_, Path.spells_normalize _⟩

end Address

open Address

/-- Two addresses of a place are the same if both begin at the root directory, or if both are relative and climb the
same number of directories. -/
theorem placeOf_spellings {current : Place} {root a b : String} {names : List Name} (hnames : Place.IsNormal names)
    (ha : Occurs (Cli.addressOf names) a) (hb : Occurs (Cli.addressOf names) b)
    (hplain : hasScheme a.toList = false ∧ hasScheme b.toList = false)
    (hplace : Directory.placeOf current root a = .ok place ∧ Directory.placeOf current root b = .ok place) :
    a = b ↔ Path.isAbsolute a.toList = Path.isAbsolute b.toList ∧ Path.climbs a.toList = Path.climbs b.toList := by
  constructor
  · rintro rfl
    exact ⟨rfl, rfl⟩
  · rintro ⟨habsolute, hclimbs⟩
    obtain ⟨_, _, _, hspells⟩ := ha.spells hnames
    obtain ⟨_, _, _, hspells'⟩ := hb.spells hnames
    rw [hspells.isAbsolute, hspells'.isAbsolute] at habsolute
    rw [hspells.climbs, hspells'.climbs] at hclimbs
    subst habsolute hclimbs
    -- Both addresses are followed from the one root that the path of the directory leads to.
    obtain ⟨top, htop, hfollow⟩ := Directory.follow?_of_placeOf hplain.1 hplace.1
    obtain ⟨_, htop', hfollow'⟩ := Directory.follow?_of_placeOf hplain.2 hplace.2
    obtain rfl := Except.ok.inj (htop.symm.trans htop')
    exact String.toList_inj.mp (hspells.eq_of_leads hspells' hfollow hfollow')

/-- The second reference to the document goes up from a directory and down again. -/
theorem placeOf_spellings_again : ∃ a b : String, Occurs (Cli.addressOf [.text "index.html".toList]) a ∧
    Occurs (Cli.addressOf [.text "index.html".toList]) b ∧
    (Directory.placeOf [] "/srv/site" a).toOption = (Directory.placeOf [] "/srv/site" b).toOption ∧ a = b := by
  have hnames : Place.IsNormal [.text "index.html".toList] := by unfold Place.IsNormal; decide
  have hpart : Occurs (Cli.addressOf [.text "index.html".toList]) "sub/part.html" :=
    @Occurs.named _ _ "sub/part.html" _ .start (by decide) (by decide) (toOption_eq_some (by decide +kernel))
  have ha : Occurs (Cli.addressOf [.text "index.html".toList]) "a.html" :=
    @Occurs.named _ _ "a.html" _ .start (by decide) (by decide) (toOption_eq_some (by decide +kernel))
  have hb : Occurs (Cli.addressOf [.text "index.html".toList]) "a.html" :=
    @Occurs.named _ _ "..//a.html" _ hpart (by decide) (by decide) (toOption_eq_some (by decide +kernel))
  have hplace : Directory.placeOf [] "/srv/site" "a.html" =
      .ok [.text "srv".toList, .text "site".toList, .text "a.html".toList] :=
    toOption_eq_some (by decide +kernel)
  exact ⟨_, _, ha, hb, rfl, (placeOf_spellings hnames ha hb (by decide) ⟨hplace, hplace⟩).mpr ⟨rfl, rfl⟩⟩

/-- A place has three addresses if references begin at the root or leave it. It even has two that are relative if a
reference stands in a document with a scheme. -/
theorem placeOf_three_spellings :
    (["a.html", "/a.html", "../site/a.html"].Nodup ∧ ∀ address ∈ ["a.html", "/a.html", "../site/a.html"],
      Occurs (Cli.addressOf [.text "index.html".toList]) address ∧ hasScheme address.toList = false ∧
      Directory.placeOf [] "/srv/site" address =
        .ok [.text "srv".toList, .text "site".toList, .text "a.html".toList]) ∧
    Occurs (Cli.addressOf [.text "index.html".toList]) "file:/srv/site/x.html" ∧
    ∀ address ∈ ["c:a/a.html", "c:a//a.html"], hasScheme (referenced address.toList) = false ∧
      resolve "file:/srv/site/x.html" address = .ok address ∧
      Directory.placeOf [] "/srv/site" address =
        .ok [.text "srv".toList, .text "site".toList, .text "c:a".toList, .text "a.html".toList] := by
  have hnamed (target : String) {address : String} (hplain : hasScheme (referenced target.toList) = false)
      (h : (resolve "index.html" target).toOption = some address) :
      Occurs (Cli.addressOf [.text "index.html".toList]) address :=
    .named .start (by decide) hplain (toOption_eq_some h)
  simp only [List.forall_mem_cons, List.not_mem_nil, false_imp_iff, implies_true, and_true]
  refine ⟨⟨by decide, ⟨hnamed "a.html" ?_ ?_, ?_, toOption_eq_some ?_⟩,
    ⟨hnamed "/a.html" ?_ ?_, ?_, toOption_eq_some ?_⟩, ⟨hnamed "../site/a.html" ?_ ?_, ?_, toOption_eq_some ?_⟩⟩,
    hnamed "./file:///srv/site/x.html" ?_ ?_, ⟨?_, toOption_eq_some ?_, toOption_eq_some ?_⟩, ?_,
    toOption_eq_some ?_, toOption_eq_some ?_⟩ <;> decide +kernel

end ImportTree
