import ImportTree.Loader.Routing
import ImportTree.Proofs.Files.Spellings

/-!
# Chains of references

A reference is joined to its base in normal form, and joining to the normal form of a base is joining to the base. So a
document that is reached over many references has the address that one reference would lead to, in which their
directories are written one behind the other.
-/

namespace ImportTree

open Files (Name components)

variable {path base target next last : List Char} {names written : List (List Char)} {absolute : Bool} {climbed : Nat}

/-! ## Directories of paths -/

theorem Text.exists_behind_throughLast (separator : Char) (cs : List Char) :
    ∃ last, cs = throughLast separator cs ++ last ∧ separator ∉ last := by
  refine ⟨(cs.reverse.takeWhile (· != separator)).reverse, ?_, fun hmem => ?_⟩
  · rw [throughLast, ← List.reverse_append, List.takeWhile_append_dropWhile, List.reverse_reverse]
  · simpa using List.mem_takeWhile_imp (List.mem_reverse.mp hmem)

theorem Text.infix_of_lower {mark cs : List Char} (hmark : ∀ c ∈ mark, c < 'A') (h : mark <:+: lower cs) :
    mark <:+: cs := by
  obtain ⟨before, after, h⟩ := h
  obtain ⟨front, others, rfl, hfront, -⟩ := List.map_eq_append_iff.mp h.symm
  obtain ⟨left, middle, rfl, -, hmiddle⟩ := List.map_eq_append_iff.mp hfront
  have hsame : ∀ c ∈ middle, c = c.toLower :=
    fun c hc => eq_of_toLower rfl (hmark _ (hmiddle ▸ List.mem_map_of_mem hc))
  have hmap : middle = middle.map Char.toLower := by
    conv_lhs => rw [← List.map_id middle]
    exact List.map_congr_left hsame
  exact ⟨left, others, by rw [← hmiddle, ← hmap]⟩

theorem Loader.slashes_of_isRemote {address : String} (h : isRemote address = true) :
    ['/', '/'] <:+: address.toList := by
  have hslashes {mark : List Char} (hmark : ['/', '/'] <:+: Text.lower mark)
      (h : Text.startsWithLetters mark address.toList = true) : ['/', '/'] <:+: address.toList :=
    Text.infix_of_lower (by simp) (hmark.trans (Text.startsWithLetters_iff.mp h).isInfix)
  rcases Bool.or_eq_true_iff.mp h with h | h
  · exact hslashes ⟨"http:".toList, [], by decide +kernel⟩ h
  · exact hslashes ⟨"https:".toList, [], by decide +kernel⟩ h

namespace Files

theorem components_ne_nil (path : List Char) : components path ≠ [] :=
  Text.splitOn_ne_nil _ path

theorem components_injective : Function.Injective components := by
  intro path path' h
  rw [← Text.joinWith_splitOn '/' path, ← Text.joinWith_splitOn '/' path']
  exact congrArg (Text.joinWith '/') h

/-- What is written behind the directory of a path takes the place of its last component. -/
theorem components_behind (path target : List Char) :
    components (Text.throughLast '/' path ++ target) = (components path).dropLast ++ components target := by
  obtain ⟨last, hpath, hlast⟩ := Text.exists_behind_throughLast '/' path
  rcases Text.throughLast_end '/' path with h | ⟨before, h⟩
  · rw [h, List.nil_append] at hpath
    have hcomponents : components path = [path] := Text.splitOn_of_not_mem (hpath ▸ hlast)
    rw [hcomponents, h]
    rfl
  · have hsplit (cs : List Char) : components (before ++ '/' :: cs) = components before ++ components cs :=
      Text.splitOn_append_separator before cs
    have hcomponents : components path = components before ++ [last] := by
      rw [hpath, h, List.append_assoc, List.singleton_append, hsplit, components, components,
        Text.splitOn_of_not_mem hlast]
    rw [hcomponents, List.dropLast_concat, h, List.append_assoc, List.singleton_append, hsplit]

theorem components_written (hne : written ≠ []) (hclean : ∀ part ∈ written, '/' ∉ part) (absolute : Bool) :
    components ((if absolute then ['/'] else []) ++ Text.joinWith '/' written) =
      (if absolute then [[]] else []) ++ written := by
  have hjoined : components (Text.joinWith '/' written) = written := Text.splitOn_joinWith hne hclean
  cases absolute with
  | true => exact (components_slash _).trans (congrArg ([] :: ·) hjoined)
  | false => exact hjoined

end Files

open Files (components_behind components_written)

namespace Address

namespace Path

/-! ## Normal forms -/

/-- The segments of a path. The root directory has none, and neither has the empty path. -/
def parts (path : List Char) : List (List Char) :=
  let below := if isAbsolute path then path.tail else path
  if below = [] then [] else components below

/-- Paths in normal form: two dots stand only at the front, and from the root directory nowhere. -/
structure Canonical (path : List Char) : Prop where
  clean : ∀ part ∈ parts path, part ≠ [] ∧ part ≠ ['.']
  front : ∃ climbed names, parts path = List.replicate climbed ['.', '.'] ++ names ∧ ['.', '.'] ∉ names
  top : isAbsolute path = true → ['.', '.'] ∉ parts path
  single : ¬ ['/', '/'] <:+: path
  normal : normalize path = path

theorem Spells.parts (h : Spells path absolute climbed names) :
    parts path = List.replicate climbed ['.', '.'] ++ names := by
  have hbelow : (if Path.isAbsolute path then path.tail else path) =
      Text.joinWith '/' (List.replicate climbed ['.', '.'] ++ names) := by
    rw [h.isAbsolute, h.written]
    cases absolute <;> rfl
  rw [Path.parts, hbelow]
  cases hparts : List.replicate climbed ['.', '.'] ++ names with
  | nil => rfl
  | cons part others =>
      have hclean := h.clean
      rw [hparts] at hclean
      have hcomponents : components (Text.joinWith '/' (part :: others)) = part :: others :=
        Text.splitOn_joinWith (by simp) fun next hnext => (hclean next hnext).2
      rw [hcomponents, if_neg]
      intro hnil
      rw [hnil] at hcomponents
      exact (hclean part (List.mem_cons_self ..)).1 (List.cons.inj hcomponents).1.symm

theorem foldr_push_names (hdown : ∀ name ∈ names, (Name.text name).IsComponent) (absolute : Bool)
    (done : List (List Char)) : names.foldr (fun part done => push absolute done part) done = names ++ done := by
  induction names with
  | nil => rfl
  | cons name names ih =>
      obtain ⟨hname, hdown⟩ := List.forall_mem_cons.mp hdown
      rw [List.foldr_cons, ih hdown]
      unfold push
      rw [if_neg (not_or.mpr ⟨hname.2.1, hname.2.2.1⟩), if_neg hname.2.2.2]
      rfl

theorem foldr_push_climbed (climbed : Nat) :
    (List.replicate climbed ['.', '.']).foldr (fun part done => push false done part) [] =
      List.replicate climbed ['.', '.'] := by
  induction climbed with
  | zero => rfl
  | succ climbed ih =>
      rw [List.replicate_succ, List.foldr_cons, ih]
      cases climbed <;> rfl

/-- Segments that were pushed are pushed again as they are. -/
theorem Stacked.again {done : List (List Char)} (h : Stacked absolute done) :
    done.reverse.foldl (Path.push absolute) [] = done := by
  obtain ⟨names, climbed, rfl, hdown, htop⟩ := h
  have hclimbed : (List.replicate climbed ['.', '.']).foldr (fun part done => Path.push absolute done part) [] =
      List.replicate climbed ['.', '.'] := by
    cases absolute with
    | true =>
        rw [htop rfl]
        rfl
    | false => exact foldr_push_climbed climbed
  rw [List.foldl_reverse, List.foldr_append, hclimbed, foldr_push_names hdown]

theorem foldl_push_root (absolute : Bool) :
    (if absolute then [[]] else []).foldl (push absolute) [] = ([] : List (List Char)) := by
  cases absolute <;> rfl

theorem Spells.segments (h : Spells path absolute climbed names) :
    segments path = List.replicate climbed ['.', '.'] ++ names := by
  have hstacked : Stacked absolute (List.replicate climbed ['.', '.'] ++ names).reverse :=
    ⟨names.reverse, climbed, by simp, fun name hname => h.down name (List.mem_reverse.mp hname), h.top⟩
  have hagain := hstacked.again
  rw [List.reverse_reverse] at hagain
  have hcomponents : (components path).foldl (Path.push absolute) [] =
      (List.replicate climbed ['.', '.'] ++ names).reverse := by
    by_cases hne : List.replicate climbed ['.', '.'] ++ names = []
    · rw [h.written, hne]
      cases absolute <;> rfl
    · rw [h.written, components_written hne (fun part hpart => (h.clean part hpart).2), List.foldl_append,
        foldl_push_root, hagain]
  rw [Path.segments, h.isAbsolute]
  exact (congrArg List.reverse hcomponents).trans (List.reverse_reverse _)

theorem Spells.normalize (h : Spells path absolute climbed names) : normalize path = path := by
  rw [Path.normalize, h.segments, h.isAbsolute]
  exact h.written.symm

theorem mem_parts_of_slashes (h : ['/', '/'] <:+: path) : [] ∈ parts path := by
  have hmem (before after : List Char) : [] ∈ components (before ++ '/' :: '/' :: after) := by
    have hsplit : components (before ++ '/' :: '/' :: after) = components before ++ components ('/' :: after) :=
      Text.splitOn_append_separator before _
    rw [hsplit, Files.components_slash]
    simp
  obtain ⟨before, after, rfl⟩ := h
  cases before with
  | nil => simp [parts, isAbsolute, Files.components_slash]
  | cons c before =>
      simp only [List.cons_append, List.append_assoc, List.nil_append, parts]
      split
      next => simpa using hmem before after
      next => simpa using hmem (c :: before) after

theorem Spells.canonical (h : Spells path absolute climbed names) : Canonical path := by
  have hclean : ∀ part ∈ Path.parts path, part ≠ [] ∧ part ≠ ['.'] := by
    intro part hpart
    rw [h.parts] at hpart
    refine ⟨(h.clean part hpart).1, ?_⟩
    rcases List.mem_append.mp hpart with hpart | hpart
    · rw [List.eq_of_mem_replicate hpart]
      decide
    · exact (h.down part hpart).2.2.1
  have hdown : ['.', '.'] ∉ names := fun hmem => (h.down _ hmem).2.2.2 rfl
  refine ⟨hclean, ⟨climbed, names, h.parts, hdown⟩, fun habsolute hmem => ?_, fun hslashes => ?_, h.normalize⟩
  · rw [h.parts, h.top (h.isAbsolute.symm.trans habsolute)] at hmem
    exact hdown hmem
  · exact (hclean [] (mem_parts_of_slashes hslashes)).1 rfl

/-! ## Joining to a normal form -/

/-- The path that a target names in a document at the base, before it is simplified. -/
def beside (base target : List Char) : List Char :=
  if isAbsolute target then target else Text.throughLast '/' base ++ target

theorem join_eq (base target : List Char) : join base target = normalize (beside base target) := rfl

/-- Whether a path ends in a name, neither in a slash nor in dots. -/
def EndsInName (path : List Char) : Prop :=
  ∀ last ∈ (components path).getLast?, last ≠ [] ∧ last ≠ ['.'] ∧ last ≠ ['.', '.']

theorem isAbsolute_behind (path : List Char) (htarget : isAbsolute target = false) :
    isAbsolute (Text.throughLast '/' path ++ target) = isAbsolute path := by
  obtain ⟨last, hpath, hlast⟩ := Text.exists_behind_throughLast '/' path
  cases hdirectory : Text.throughLast '/' path with
  | nil =>
      rw [hdirectory, List.nil_append] at hpath
      rw [List.nil_append, htarget, hpath, isAbsolute, eq_comm, beq_eq_false_iff_ne]
      exact fun hhead => hlast (List.mem_of_mem_head? hhead)
  | cons c rest =>
      rw [hdirectory] at hpath
      rw [hpath]
      rfl

/-- A document that is reached by two references stands where one would lead that goes on from the first. -/
theorem beside_beside (base : List Char) (hnext : isAbsolute next = false) :
    beside (beside base target) next = beside base (Text.throughLast '/' target ++ next) := by
  have habsolute := isAbsolute_behind target hnext
  unfold beside
  rw [hnext, habsolute, if_neg (by simp)]
  cases isAbsolute target with
  | true => rfl
  | false =>
      refine Files.components_injective ?_
      simp only [Bool.false_eq_true, if_false, components_behind]
      rw [List.dropLast_append_of_ne_nil (Files.components_ne_nil target), List.append_assoc]

theorem EndsInName.beside (h : EndsInName target) (base : List Char) : EndsInName (beside base target) := by
  unfold Path.beside
  split
  next => exact h
  next =>
    intro last hlast
    rw [components_behind, List.getLast?_append_of_ne_nil _ (Files.components_ne_nil target)] at hlast
    exact h last hlast

theorem normalize_behind (path : List Char) (htarget : isAbsolute target = false) :
    normalize (Text.throughLast '/' path ++ target) =
      (if isAbsolute path then ['/'] else []) ++ Text.joinWith '/' ((components target).foldl (push (isAbsolute path))
        ((components path).dropLast.foldl (push (isAbsolute path)) [])).reverse := by
  have hsegments : segments (Text.throughLast '/' path ++ target) = ((components target).foldl (push (isAbsolute path))
      ((components path).dropLast.foldl (push (isAbsolute path)) [])).reverse := by
    rw [← List.foldl_append, ← components_behind, ← isAbsolute_behind path htarget]
    rfl
  rw [normalize, hsegments, isAbsolute_behind path htarget]

theorem foldl_push_normalize (h : EndsInName path) :
    (components (normalize path)).dropLast.foldl (push (isAbsolute path)) [] =
      (components path).dropLast.foldl (push (isAbsolute path)) [] := by
  -- What is pushed last is a name, so that the segments below it are those of the directory.
  have hne := Files.components_ne_nil path
  obtain ⟨hnil, hdot, hup⟩ := h _ (List.getLast?_eq_some_getLast hne)
  have hpath := List.dropLast_append_getLast hne
  have hslash : ∀ part ∈ (components path).dropLast, '/' ∉ part :=
    fun part hpart => Text.not_mem_of_mem_splitOn (List.mem_of_mem_dropLast hpart) rfl
  generalize (components path).dropLast = before at hpath hslash ⊢
  generalize (components path).getLast hne = last at hnil hdot hup hpath
  have hstacked : Stacked (isAbsolute path) (before.foldl (push (isAbsolute path)) []) :=
    Stacked.foldl ⟨[], 0, rfl, by simp, fun _ => rfl⟩ hslash
  generalize hdone : before.foldl (push (isAbsolute path)) [] = done at hstacked ⊢
  have hsegments : segments path = done.reverse ++ [last] := by
    have hpush : push (isAbsolute path) done last = last :: done := by
      unfold push
      rw [if_neg (not_or.mpr ⟨hnil, hdot⟩), if_neg hup]
    rw [segments, show Text.splitOn (· == '/') path = before ++ [last] from hpath.symm, List.foldl_append, hdone,
      List.foldl_cons, List.foldl_nil, hpush, List.reverse_cons]
  have hclean : ∀ part ∈ done.reverse ++ [last], '/' ∉ part := by
    intro part hpart
    rw [← hsegments] at hpart
    exact (mem_segments hpart).2.2.1
  rw [normalize, hsegments, components_written (by simp) hclean, ← List.append_assoc, List.dropLast_concat,
    List.foldl_append, foldl_push_root, hstacked.again]

/-- Joining to the normal form of a path that ends in a name is joining to the path. -/
theorem join_normalize (h : EndsInName path) (target : List Char) :
    join (normalize path) target = join path target := by
  rw [join_eq, join_eq, beside, beside]
  cases htarget : isAbsolute target with
  | true => rfl
  | false =>
      have hnormal : isAbsolute (normalize path) = isAbsolute path := by
        obtain ⟨_, _, hspells⟩ := spells_normalize path
        exact hspells.isAbsolute
      rw [if_neg (by simp), if_neg (by simp), normalize_behind _ htarget, normalize_behind _ htarget, hnormal,
        foldl_push_normalize h]

/-- A target that goes on from another one is joined to the base behind the directory of that one. -/
theorem join_join (base : List Char) (htarget : EndsInName target) (hnext : isAbsolute next = false) :
    join (join base target) next = join base (Text.throughLast '/' target ++ next) := by
  rw [join_eq base target, join_normalize (htarget.beside base), join_eq, beside_beside base hnext]
  rfl

/-- Targets that are written one behind the directory of the other. -/
def behind : List (List Char) → List Char
  | [] => []
  | [target] => target
  | target :: targets => Text.throughLast '/' target ++ behind targets

theorem isAbsolute_behind_cons (target : List Char) {targets : List (List Char)}
    (htargets : ∀ next ∈ targets, isAbsolute next = false) :
    isAbsolute (behind (target :: targets)) = isAbsolute target := by
  induction targets generalizing target with
  | nil => rfl
  | cons next targets ih =>
      obtain ⟨hnext, htargets⟩ := List.forall_mem_cons.mp htargets
      exact isAbsolute_behind target ((ih next htargets).trans hnext)

theorem foldl_join (base target : List Char) {targets : List (List Char)}
    (hnamed : ∀ next ∈ (target :: targets).dropLast, EndsInName next)
    (htargets : ∀ next ∈ targets, isAbsolute next = false) :
    (target :: targets).foldl join base = join base (behind (target :: targets)) := by
  induction targets generalizing base target with
  | nil => rfl
  | cons next targets ih =>
      rw [List.dropLast_cons_cons] at hnamed
      obtain ⟨htarget, hnamed⟩ := List.forall_mem_cons.mp hnamed
      obtain ⟨hnext, hothers⟩ := List.forall_mem_cons.mp htargets
      have hbehind := (isAbsolute_behind_cons next hothers).trans hnext
      rw [List.foldl_cons, ih (join base target) next hnamed hothers]
      exact join_join base htarget hbehind

end Path

/-! ## Chains -/

/-- Plain paths that a chain of references leads to: each stands in the document that the one before it names. -/
inductive Leads : String → List String → String → Prop where
  | here (base : String) : Leads base [] base
  | there {base target next address : String} {targets : List String} : hasScheme base.toList = false →
      hasScheme (referenced target.toList) = false → resolve base target = .ok next → Leads next targets address →
      Leads base (target :: targets) address

theorem Leads.foldl {base address : String} {targets : List String} (h : Leads base targets address) :
    address.toList = (targets.map fun target => referenced target.toList).foldl Path.join base.toList := by
  induction h with
  | here base => rfl
  | there hbase htarget hresolve _ ih =>
      rw [ih, List.map_cons, List.foldl_cons, resolve_plain hbase htarget hresolve, String.toList_ofList]

theorem Leads.joined {base target address : String} {targets : List String}
    (h : Leads base (target :: targets) address) : ∃ last next, address.toList = Path.join last next := by
  obtain ⟨before, last, hlast⟩ := (List.eq_nil_or_concat (target :: targets)).resolve_left (by simp)
  rw [h.foldl, hlast, List.map_concat, List.concat_eq_append, List.foldl_concat]
  exact ⟨_, _, rfl⟩

theorem Path.Canonical.isRemote_eq_false {address : String} (h : Path.Canonical address.toList) :
    Loader.isRemote address = false :=
  Bool.eq_false_iff.mpr fun hremote => h.single (Loader.slashes_of_isRemote hremote)

theorem Path.canonical_join (base target : List Char) : Path.Canonical (Path.join base target) := by
  obtain ⟨_, _, hspells⟩ := Path.spells_normalize (Path.beside base target)
  exact hspells.canonical

/-- References to plain paths lead to paths in normal form, none of them on the web, and compose like paths: a document
that is reached over many of them has the address that they name one behind the other. -/
theorem plain_references_compose :
    (∀ base target, Path.Canonical (Path.join base target) ∧
      Loader.isRemote (String.ofList (Path.join base target)) = false) ∧
    (∀ base target next, Path.EndsInName target → Path.isAbsolute next = false →
      Path.join (Path.join base target) next = Path.join base (Text.throughLast '/' target ++ next)) ∧
    ∀ base target targets address, Leads base (target :: targets) address →
      Path.Canonical address.toList ∧ Loader.isRemote address = false ∧
        ((∀ next ∈ ((target :: targets).map fun next => referenced next.toList).dropLast, Path.EndsInName next) →
          (∀ next ∈ targets, Path.isAbsolute (referenced next.toList) = false) →
          address.toList =
            Path.join base.toList (Path.behind ((target :: targets).map fun next => referenced next.toList))) := by
  refine ⟨fun base target => ?_, fun base target next => Path.join_join base, ?_⟩
  · have hcanonical := Path.canonical_join base target
    refine ⟨hcanonical, Path.Canonical.isRemote_eq_false ?_⟩
    rwa [String.toList_ofList]
  · intro base target targets address h
    obtain ⟨_, _, hjoin⟩ := h.joined
    have hcanonical : Path.Canonical address.toList := by
      rw [hjoin]
      exact Path.canonical_join ..
    refine ⟨hcanonical, hcanonical.isRemote_eq_false, fun hnamed htargets => ?_⟩
    rw [h.foldl]
    exact Path.foldl_join base.toList _ hnamed (List.forall_mem_map.mpr htargets)

/-- From a document in a directory a reference leads further down, and the next one up beyond where it started. -/
theorem plain_references_compose_beyond :
    let first := "parts/x.html"
    let second := "../..//../lib/./y.html"
    Path.EndsInName first.toList ∧ Path.isAbsolute second.toList = false ∧
    Path.join (Path.join "app/index.html".toList first.toList) second.toList =
      Path.join "app/index.html".toList "parts/../..//../lib/./y.html".toList ∧
    Leads "app/index.html" [first, second] "../lib/y.html" ∧ Loader.isRemote "../lib/y.html" = false ∧
    "../lib/y.html".toList = Path.join "app/index.html".toList "parts/../..//../lib/./y.html".toList := by
  intro first second
  have hfirst : resolve "app/index.html" first = .ok "app/parts/x.html" := toOption_eq_some (by decide +kernel)
  have hsecond : resolve "app/parts/x.html" second = .ok "../lib/y.html" := toOption_eq_some (by decide +kernel)
  have hleads : Leads "app/index.html" [first, second] "../lib/y.html" :=
    .there (by decide) (by decide) hfirst (.there (by decide) (by decide) hsecond (.here _))
  have hnamed : Path.EndsInName first.toList := by unfold Path.EndsInName; decide
  have hrelative : Path.isAbsolute second.toList = false := by decide
  have hbehind : Text.throughLast '/' first.toList ++ second.toList = "parts/../..//../lib/./y.html".toList := by decide
  have hread : referenced first.toList = first.toList ∧ referenced second.toList = second.toList := by decide
  obtain ⟨-, hjoin, hchain⟩ := plain_references_compose
  obtain ⟨-, hremote, hcomposes⟩ := hchain _ _ _ _ hleads
  simp only [List.map_cons, List.map_nil, hread, List.dropLast_cons_cons, List.dropLast_singleton,
    List.forall_mem_singleton, Path.behind, hbehind] at hcomposes
  refine ⟨hnamed, hrelative, ?_, hleads, hremote, hcomposes hnamed hrelative⟩
  rw [hjoin _ _ _ hnamed hrelative, hbehind]

end Address

end ImportTree
