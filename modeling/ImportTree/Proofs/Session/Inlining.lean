import ImportTree.Proofs.Session.Rounds
import ImportTree.Script.Declarations

/-!
# Texts in place of addresses

A script that names an address is as good as one that holds the text from there. The declarations and errors of both
differ in the address of the script alone, but a text that has to be waited for is read later than one in place.
-/

namespace ImportTree

/-! ## Without the addresses of scripts -/

/-- Declarations as they are in scripts without addresses. -/
def Metadata.withoutScripts (m : Metadata) : Metadata where
  elements := m.elements.map fun e => { e with scriptAddress? := none }
  modules := m.modules.map fun d => { d with scriptAddress? := none }

/-- An error as it is where all texts stand in the document. -/
def AnalysisError.inDocument (base : String) : AnalysisError → AnalysisError
  | .unreadable _ reason => .unreadable base reason
  | e => e

/-- What a script declares, or why that cannot be found, as it is where the text stands in the document. -/
def inDocument (base : String) : Except AnalysisError Metadata → Except AnalysisError Metadata
  | .ok m => .ok m.withoutScripts
  | .error e => .error (e.inDocument base)

theorem Metadata.withoutScripts_locate (m : Metadata) (base : String) (script? : Option String) :
    (m.locate base script?).withoutScripts = m.locate base none := by
  simp [withoutScripts, locate]

theorem Metadata.withoutScripts_join (parts : List Metadata) :
    (Metadata.join parts).withoutScripts = Metadata.join (parts.map withoutScripts) := by
  simp [withoutScripts, join, List.map_flatMap, List.flatMap_map]

theorem Metadata.declarations_withoutScripts (m : Metadata) :
    m.withoutScripts.declarations = m.declarations.map fun p => (p.1, { p.2 with scriptAddress? := none }) := by
  simp [withoutScripts, declarations, Function.comp_def]

namespace Registries

/-- Registries do not look at the addresses of scripts. -/
theorem registerEach_withoutScripts (rs : Registries) (l : List (Kind × Declaration)) :
    rs.registerEach (l.map fun p => (p.1, { p.2 with scriptAddress? := none })) = rs.registerEach l := by
  induction l generalizing rs with
  | nil => rfl
  | cons p l ih =>
      simp only [List.map_cons, registerEach]
      split
      next => exact ih _
      next => rfl

theorem registerAll_withoutScripts (rs : Registries) (m : Metadata) :
    rs.registerAll m.withoutScripts = rs.registerAll m := by
  rw [registerAll, registerAll, Metadata.declarations_withoutScripts, registerEach_withoutScripts]

/-- A name that is refused is refused alike in every script of a document. -/
theorem registerAll_inDocument {rs rs' : Registries} {m : Metadata} {e : AnalysisError} (base : String)
    (h : rs.registerAll m = (rs', some e)) : e.inDocument base = e := by
  rw [registerAll] at h
  rcases rs.admits_or_refuses m.declarations with ha | ⟨l₁, kind, d, l₂, first, hl, hr⟩
  · cases ha.registerEach.symm.trans h
  · rw [hl, hr.registerEach] at h
    cases h
    rfl

theorem enrollEach_inDocument (rs : Registries) (base : String) (cs : List (Except AnalysisError Metadata)) :
    rs.enrollEach (cs.map (inDocument base)) =
      ((rs.enrollEach cs).1, (rs.enrollEach cs).2.map (AnalysisError.inDocument base)) := by
  induction cs generalizing rs with
  | nil => rfl
  | cons c cs ih =>
      rcases c with e | m
      · rfl
      · simp only [List.map_cons, inDocument, enrollEach, registerAll_withoutScripts]
        split
        next => exact ih _
        next rs' e he => rw [Option.map_some, registerAll_inDocument base he]

theorem enrollAll_inDocument (rs : Registries) (base : String) (cs : List (Except AnalysisError Metadata)) :
    rs.enrollAll (cs.map (inDocument base)) = rs.enrollAll cs := by
  induction cs generalizing rs with
  | nil => rfl
  | cons c cs ih =>
      have hc : (rs.enrollEach ([c].map (inDocument base))).1 = (rs.enrollEach [c]).1 := by
        rw [enrollEach_inDocument]
      change (rs.enrollEach ([c].map (inDocument base))).1.enrollAll (cs.map (inDocument base)) = _
      rw [hc, ih]
      rfl

end Registries

/-! ## Inlining -/

namespace Extractor

variable {x : Extractor} {base : String} {node : Node} {scripts : List Node}

/-- Whether the text of every script that names an address can be had. -/
def Loads (x : Extractor) (base : String) (scripts : List Node) : Prop :=
  ∀ node ∈ scripts, node.isReadableScript = true → node.text? = none →
    ∀ target, node.attribute? "src" = some target → ∃ address text loader,
      Address.resolve base target = .ok address ∧ x.loader? = some loader ∧ loader.answer address = .ok text

/-- The script with the text from the address that it names, and without the name. -/
def inlined (x : Extractor) (base : String) (node : Node) : Node :=
  match x.loader?, node.source? base with
  | some loader, some address =>
    match loader.answer address with
    | .ok text => { node with attributes := node.attributes.filter (·.1 != "src"), text? := some text }
    | .error _ => node
  | _, _ => node

theorem loads_pair {target text : String} {loader : Loader} {named inline : Node} (hl : x.loader? = some loader)
    (hs : named.attribute? "src" = some target) (ha : Address.resolve base target = .ok target)
    (htext : loader.answer target = .ok text) (hi : inline.text? ≠ none) : x.Loads base [named, inline] := by
  intro node hn _ ht target' hs'
  rcases List.mem_pair.mp hn with rfl | rfl
  · cases hs.symm.trans hs'
    exact ⟨target, text, loader, ha, hl, htext⟩
  · exact absurd ht hi

theorem Loads.answer {a : String} (h : x.Loads base scripts) (hn : node ∈ scripts) (hx : node.External base a) :
    ∃ text loader, x.loader? = some loader ∧ loader.answer a = .ok text := by
  obtain ⟨target, hs, ha⟩ := hx.source
  obtain ⟨a', text, loader, ha', hl, htext⟩ := h node hn hx.readable hx.text target hs
  cases ha.symm.trans ha'
  exact ⟨text, loader, hl, htext⟩

/-- The text of a script that can be had, if there is any to be read. -/
theorem Loads.body? (h : x.Loads base scripts) (hn : node ∈ scripts) :
    x.body? base node = none ∨ ∃ text, x.body? base node = some (.ok (node.source? base, text)) := by
  cases hr : node.isReadableScript with
  | false => exact .inl (by simp only [Extractor.body?, hr])
  | true =>
      cases ht : node.text? with
      | some text => exact .inr ⟨text, by simp [Extractor.body?, Node.source?, hr, ht]⟩
      | none =>
          cases hs : node.attribute? "src" with
          | none => exact .inl (by simp only [Extractor.body?, hr, ht, hs])
          | some target =>
              obtain ⟨a, text, loader, ha, hl, htext⟩ := h node hn hr ht target hs
              have hx : node.External base a := ⟨hr, ht, target, hs, ha⟩
              refine .inr ⟨text, ?_⟩
              rw [body?_external hx hl, hx.source?, fetched, htext]

theorem isReadableScript_inlined : (x.inlined base node).isReadableScript = node.isReadableScript := by
  have htype : (x.inlined base node).attribute? "type" = node.attribute? "type" := by
    unfold inlined
    repeat' split
    next =>
      rw [Node.attribute?, Node.attribute?, List.find?_filter]
      refine congrArg (fun p => (node.attributes.find? p).map Prod.snd) (funext fun entry => ?_)
      by_cases hsrc : entry.1 = "src"
      · simp only [hsrc]
        decide
      · simp [hsrc]
    next => rfl
    next => rfl
  rw [Node.isReadableScript, Node.isReadableScript, htype]

theorem body?_inlined (h : x.Loads base scripts) (hn : node ∈ scripts) :
    x.body? base (x.inlined base node) = (x.body? base node).map (·.map fun b => (none, b.2)) := by
  cases hs : node.source? base with
  | none =>
      have hin : x.inlined base node = node := by
        rw [inlined, hs]
        cases x.loader? <;> rfl
      rw [hin]
      rcases h.body? hn with hb | ⟨text, hb⟩ <;> simp [hb, hs, Except.map]
  | some a =>
      have hx := source?_eq_some.mp hs
      obtain ⟨text, loader, hl, htext⟩ := h.answer hn hx
      have hr : (x.inlined base node).isReadableScript = true := isReadableScript_inlined.trans hx.readable
      have ht : (x.inlined base node).text? = some text := by simp only [inlined, hl, hs, htext]
      rw [body?_external hx hl, fetched, htext]
      simp only [Extractor.body?, hr, ht]
      rfl

theorem read_inDocument (x : Extractor) (base : String) (script? : Option String) (text : String) :
    inDocument base (x.read base script? text) = x.read base none text := by
  unfold read
  cases x.readScript text x.attach with
  | error fault => rfl
  | ok m => exact congrArg Except.ok (m.withoutScripts_locate base script?)

/-- A script declares the same when its text is put in its place. -/
theorem content_inlined (h : x.Loads base scripts) (hn : node ∈ scripts) :
    x.content base (x.inlined base node) = inDocument base (x.content base node) := by
  rw [content, body?_inlined h hn, content]
  rcases h.body? hn with hb | ⟨text, hb⟩
  · rw [hb]
    rfl
  · rw [hb]
    exact (x.read_inDocument base (node.source? base) text).symm

/-- A text in its place is not waited for. -/
theorem wait_inlined (h : x.Loads base scripts) (hn : node ∈ scripts) : x.wait base (x.inlined base node) = 0 := by
  refine Nat.eq_zero_of_not_pos fun hpos => ?_
  obtain ⟨loader, a, hl, hx, _⟩ := exists_of_wait_pos hpos
  have hbody := (body?_external hx hl).symm.trans (body?_inlined h hn)
  rw [fetched] at hbody
  rcases h.body? hn with hb | ⟨text, hb⟩ <;> rw [hb] at hbody <;> split at hbody <;> cases hbody

/-! ## Both runs -/

variable {l : List Node}

theorem contents_inlined (h : x.Loads base scripts) (hl : l ⊆ scripts) :
    (l.map (x.inlined base)).map (x.content base) = (l.map (x.content base)).map (inDocument base) := by
  rw [List.map_map, List.map_map]
  exact List.map_congr_left fun node hn => content_inlined h (hl hn)

theorem taken_inlined (h : x.Loads base scripts) (hl : l ⊆ scripts) : x.taken base (l.map (x.inlined base)) =
    ((x.taken base l).1, (x.taken base l).2.map (AnalysisError.inDocument base)) := by
  rw [taken, contents_inlined h hl, Registries.enrollEach_inDocument]
  rfl

theorem afterAll_inlined (h : x.Loads base scripts) (hl : l ⊆ scripts) :
    x.afterAll base (l.map (x.inlined base)) = x.afterAll base l := by
  rw [afterAll, contents_inlined h hl, Registries.enrollAll_inDocument]
  rfl

theorem fault?_inlined (h : x.Loads base scripts) (hl : l ⊆ scripts) (hn : node ∈ scripts) :
    x.fault? base (l.map (x.inlined base)) (x.inlined base node) =
      (x.fault? base l node).map (AnalysisError.inDocument base) := by
  rw [fault?, afterAll_inlined h hl, content_inlined h hn]
  exact congrArg Prod.snd ((x.afterAll base l).enrollEach_inDocument base [x.content base node])

theorem whole_inlined (h : x.Loads base scripts) (hl : l ⊆ scripts) :
    x.whole base (l.map (x.inlined base)) = (x.whole base l).withoutScripts := by
  rw [whole, whole, Metadata.withoutScripts_join, List.filterMap_map, List.map_filterMap]
  refine congrArg Metadata.join (List.filterMap_congr fun node hn => ?_)
  rw [Function.comp_apply, content_inlined h (hl hn)]
  cases x.content base node <;> rfl

theorem waits_inlined (h : x.Loads base scripts) (hl : l ⊆ scripts) :
    ∀ node ∈ l.map (x.inlined base), x.wait base node = 0 := by
  intro node hn
  obtain ⟨node, hmem, rfl⟩ := List.mem_map.mp hn
  exact wait_inlined h (hl hmem)

theorem arrivals_inlined (h : x.Loads base scripts) (hl : l ⊆ scripts) :
    x.arrivals base (l.map (x.inlined base)) = l.map (x.inlined base) :=
  arrivals_eq_self (waits_inlined h hl)

theorem extract_inlined_registries (h : x.Loads base scripts) (hl : l ⊆ scripts) :
    (x.extract base (l.map (x.inlined base))).2.registries = (x.taken base l).1 := by
  rw [extract_registries (.inr (waits_inlined h hl)), arrivals_inlined h hl, taken_inlined h hl]

theorem extract_inlined_eq_ok {m' : Metadata} (h : x.Loads base scripts) (hl : l ⊆ scripts) :
    (x.extract base (l.map (x.inlined base))).1 = some (.ok m') ↔
      (x.taken base l).2 = none ∧ (x.whole base l).withoutScripts = m' := by
  rw [extract_eq_ok, arrivals_inlined h hl, taken_inlined h hl, whole_inlined h hl]
  simp

theorem extract_inlined_eq_error {e' : AnalysisError} (h : x.Loads base scripts) (hl : l ⊆ scripts) :
    (x.extract base (l.map (x.inlined base))).1 = some (.error e') ↔
      ∃ e, (x.taken base l).2 = some e ∧ e.inDocument base = e' := by
  rw [extract_eq_error (.inr (waits_inlined h hl)), arrivals_inlined h hl, taken_inlined h hl]
  exact Option.map_eq_some_iff

/-! ## Scripts one by one -/

/-- What comes of a script in its turn, if all texts are in place and each script is extracted by itself. -/
def Yields (x : Extractor) (base : String) (read : List Node) (node : Node) (r : Except AnalysisError Metadata) :
    Prop :=
  ∃ before after, read = before ++ node :: after ∧
    ((x.inTurn base (before.map (x.inlined base))).extract base [x.inlined base node]).1 = some r

theorem Turn.yields_error {e : AnalysisError} (h : x.Loads base scripts) (hl : l ⊆ scripts)
    (ht : x.Turn base l node (some e)) : x.Yields base l node (.error (e.inDocument base)) := by
  obtain ⟨before, after, rfl, hf⟩ := ht
  have hbefore : before ⊆ scripts := fun _ hn => hl (List.mem_append_left _ hn)
  have hnode : node ∈ scripts := hl (by simp)
  refine ⟨before, after, rfl, (inTurn_error (waits_inlined h hbefore) (wait_inlined h hnode)).mpr ?_⟩
  rw [fault?_inlined h hbefore hnode, hf]
  rfl

theorem Turn.yields_ok (h : x.Loads base scripts) (hl : l ⊆ scripts) (ht : x.Turn base l node none) :
    ∃ m, x.Yields base l node (.ok m) := by
  obtain ⟨before, after, rfl, hf⟩ := ht
  have hbefore : before ⊆ scripts := fun _ hn => hl (List.mem_append_left _ hn)
  have hnone : x.fault? base (before.map (x.inlined base)) (x.inlined base node) = none := by
    rw [fault?_inlined h hbefore (hl (by simp)), hf]
    rfl
  obtain ⟨m, hm⟩ := (inTurn_ok (waits_inlined h hbefore)).mpr hnone
  exact ⟨m, before, after, rfl, hm⟩

theorem inTurn_inlined (h : x.Loads base scripts) (hl : l ⊆ scripts) :
    (x.inTurn base (l.map (x.inlined base))).registries = x.afterAll base l := by
  obtain ⟨clock, log, hturn⟩ := inTurn_eq (waits_inlined h hl)
  rw [hturn, ← afterAll_inlined h hl]
  rfl

/-- How an extraction that fails with a script between others, once others were read, compares with extractions of
scripts one by one that have their texts in place. -/
structure Stopped (x : Extractor) (base : String) (scripts : List Node) (e : AnalysisError) (earlier : List Node)
    (node : Node) (read : List Node) : Prop where
  /-- Scripts have been read in the order of arrival. -/
  arrived : read <+: x.arrivals base scripts
  failed : x.Yields base read node (.error (e.inDocument base))
  address : ∀ {address reason}, e = .unreadable address reason → address = (node.source? base).getD base
  registries : (x.extract base scripts).2.registries = (x.inTurn base (read.map (x.inlined base))).registries
  /-- Nothing has been read behind the script and those before it. -/
  last : ∃ init n, read = init ++ [n] ∧ n ∈ earlier ++ [node]
  /-- If failures are reported in their order, those before it have not failed. -/
  sequential : x.joining.Sequential scripts.length → ∀ n ∈ earlier, ∃ m, x.Yields base read n (.ok m)

/-- How an extraction compares with those that have the texts of all scripts in place. -/
structure Inlines (x : Extractor) (base : String) (scripts : List Node) : Prop where
  ends : (∃ r, (x.extract base scripts).1 = some r) ∧ ∃ r, (x.extract base (scripts.map (x.inlined base))).1 = some r
  /-- Both find declarations or neither does, and they are the same ones but for the addresses of scripts. -/
  declared : ∀ {m'}, (x.extract base (scripts.map (x.inlined base))).1 = some (.ok m') ↔
    ∃ m, (x.extract base scripts).1 = some (.ok m) ∧ m.withoutScripts = m'
  /-- The address of a script is the one that it names, and it has none where it names none. -/
  placed : ∀ {m}, (x.extract base scripts).1 = some (.ok m) → ∃ parts, m = Metadata.join parts ∧
    List.Forall₂ (fun node part => x.content base node = .ok part ∧
      ∀ p ∈ part.declarations, p.2.scriptAddress? = node.source? base) scripts parts
  registered : ∀ {m}, (x.extract base scripts).1 = some (.ok m) →
    (x.extract base scripts).2.registries.Alike (x.extract base (scripts.map (x.inlined base))).2.registries
  /-- One that fails does so with a script that would fail behind those that were read if all texts were in place. -/
  stopped : ∀ {e}, (x.extract base scripts).1 = some (.error e) → ∃ earlier node later read,
    scripts = earlier ++ node :: later ∧ x.Stopped base scripts e earlier node read
  /-- If no failure is held back, it does as it would with all texts in place and scripts in the order of arrival. -/
  failed : x.Unheld base scripts →
    ∀ {e'}, (x.extract base ((x.arrivals base scripts).map (x.inlined base))).1 = some (.error e') ↔
      ∃ e, (x.extract base scripts).1 = some (.error e) ∧ e.inDocument base = e'
  kept : x.Unheld base scripts → (x.extract base scripts).2.registries =
    (x.extract base ((x.arrivals base scripts).map (x.inlined base))).2.registries
  /-- A script that cannot be read is named by its address, and by the document where it has none. -/
  unreadable : x.Unheld base scripts →
    ∀ {address reason}, (x.extract base scripts).1 = some (.error (.unreadable address reason)) →
      ∃ earlier node later m, x.arrivals base scripts = earlier ++ node :: later ∧
        address = (node.source? base).getD base ∧
        (x.extract base (earlier.map (x.inlined base))).1 = some (.ok m) ∧
        (x.extract base ((earlier ++ [node]).map (x.inlined base))).1 = some (.error (.unreadable base reason))
  /-- Up to so many scripts no failure is held back, and behind more of them each is until its turn. -/
  joined : ∀ {limit}, x.joining = .upTo limit →
    if scripts.length ≤ limit then x.Unheld base scripts else x.joining.Sequential scripts.length
  /-- Where no text is waited for, the order of arrival is that of the scripts. -/
  inOrder : (∀ node ∈ scripts, x.wait base node = 0) → x.arrivals base scripts = scripts

theorem content_placed {m : Metadata} (h : x.Loads base scripts) (hn : node ∈ scripts)
    (hm : x.content base node = .ok m) {p : Kind × Declaration} (hp : p ∈ m.declarations) :
    p.2.scriptAddress? = node.source? base := by
  rw [content] at hm
  rcases h.body? hn with hb | ⟨text, hb⟩ <;> rw [hb] at hm
  · cases hm
    cases hp
  · change x.read base (node.source? base) text = .ok m at hm
    rw [read] at hm
    split at hm
    next => cases hm
    next =>
      cases hm
      exact (Metadata.locate_placed hp).2

theorem content_unreadable {address reason : String} (h : x.Loads base scripts) (hn : node ∈ scripts)
    (he : x.content base node = .error (.unreadable address reason)) : address = (node.source? base).getD base := by
  rw [content] at he
  rcases h.body? hn with hb | ⟨text, hb⟩ <;> rw [hb] at he
  · cases he
  · change x.read base (node.source? base) text = _ at he
    rw [read] at he
    split at he
    next => cases he; rfl
    next => cases he

theorem Halts.stopped {e : AnalysisError} {earlier read : List Node} (hh : x.Halts base scripts e earlier node read)
    (h : x.Loads base scripts) (hregistries : (x.extract base scripts).2.registries = x.afterAll base read) :
    x.Stopped base scripts e earlier node read := by
  have hread : read ⊆ scripts := fun _ hn => arrivals_perm.subset (hh.arrived.subset hn)
  refine ⟨hh.arrived, hh.failed.yields_error h hread, ?_, ?_, hh.last, ?_⟩
  · rintro address reason rfl
    obtain ⟨before, after, rfl, hf⟩ := hh.failed
    exact content_unreadable h (hread (by simp)) ((content_of_fault?_some hf).resolve_right (by simp))
  · rw [hregistries, inTurn_inlined h hread]
  · exact fun hs n hn => (hh.sequential hs n hn).yields_ok h hread

/-- A script that names an address is read like one that holds the text from there, but not before the text is there. -/
theorem extract_inlines (h : x.Loads base scripts) : x.Inlines base scripts where
  ends := ⟨x.extract_isSome base _, x.extract_isSome base _⟩
  declared := by
    simp only [extract_inlined_eq_ok h (List.Subset.refl _), extract_eq_ok, taken_arrivals_eq_none]
    exact ⟨fun ⟨hnone, hm⟩ => ⟨_, ⟨hnone, rfl⟩, hm⟩, fun ⟨_, ⟨hnone, he⟩, hm⟩ => ⟨hnone, he ▸ hm⟩⟩
  placed hm := by
    obtain ⟨hnone, rfl⟩ := extract_eq_ok.mp hm
    refine whole_parts fun node hn => ?_
    obtain ⟨part, hpart⟩ := taken_eq_none (taken_arrivals_eq_none.mp hnone) hn
    exact ⟨part, hpart, hpart, fun _ hp => content_placed h hn hpart hp⟩
  registered hm := by
    rw [extract_ok_registries hm, extract_inlined_registries h (List.Subset.refl _)]
    exact (taken_arrivals_alike (extract_eq_ok.mp hm).1).2
  stopped he := by
    obtain ⟨earlier, node, later, read, hl, hh, hregistries⟩ := extract_halts he
    exact ⟨earlier, node, later, read, hl, hh.stopped h hregistries⟩
  failed hu {e'} := by
    rw [extract_inlined_eq_error h x.arrivals_perm.subset]
    simp only [extract_eq_error hu]
  kept hu := by
    rw [extract_registries hu, extract_inlined_registries h x.arrivals_perm.subset]
  unreadable hu {address reason} he := by
    obtain ⟨earlier, node, later, ha, hnone, hstop, hc⟩ := taken_eq_some ((extract_eq_error hu).mp he)
    have hall : earlier ++ node :: later ⊆ scripts := ha ▸ arrivals_perm.subset
    have hsub : earlier ++ [node] ⊆ scripts :=
      List.Subset.trans (List.prefix_append (earlier ++ [node]) later).subset (by simpa using hall)
    have hread : x.content base node = .error (.unreadable address reason) := hc.resolve_right (by simp)
    exact ⟨earlier, node, later, _, ha, content_unreadable h (hsub (by simp)) hread,
      (extract_inlined_eq_ok h fun _ hn => hsub (List.mem_append_left _ hn)).mpr ⟨hnone, rfl⟩,
      (extract_inlined_eq_error h hsub).mpr ⟨_, hstop, rfl⟩⟩
  joined hj := by
    split
    next hle => exact unheld_upTo hj hle base
    next hlt => exact hj ▸ Joining.sequential_upTo (Nat.lt_of_not_le hlt)
  inOrder := arrivals_eq_self

/-- The first script comes later than the second one, and its declarations are the first ones all the same. -/
theorem extract_inlines_later :
    ∃ (x : Extractor) (scripts : List Node), x.Loads "index.html" scripts ∧ x.Inlines "index.html" scripts ∧
      x.arrivals "index.html" scripts = scripts.reverse ∧
      (x.extract "index.html" scripts).1 = some (.ok {
        elements := [
          { name := "x-a", address := "index.html", scriptAddress? := some "a.js", line := 1 },
          { name := "x-b", address := "index.html", line := 1 }] }) ∧
      (x.extract "index.html" scripts).2.registries.elements.entries =
        [("x-a", "index.html"), ("x-b", "index.html")] := by
  let x : Extractor :=
    { loader? := some (.shelf [("a.js", "Polymer(\x7bis:'x-a'\x7d)")] [("a.js", 5)]), readScript := Script.read }
  let named : Node := { tag := "script", attributes := [("src", "a.js")], line := 1 }
  let inline : Node := { tag := "script", text? := some "Polymer(\x7bis:'x-b'\x7d)", line := 1 }
  have hs : named.attribute? "src" = some "a.js" := by decide
  have ha : Address.resolve "index.html" "a.js" = .ok "a.js" := by decide +kernel
  have h : x.Loads "index.html" [named, inline] := loads_pair rfl hs ha rfl nofun
  exact ⟨x, [named, inline], h, extract_inlines h, by decide +kernel, by decide +kernel, by decide +kernel⟩

/-- Where the failure of the second script is held back for the first one, the third one is read in the meantime. -/
example :
    let x : Extractor :=
      { loader? := some (.shelf [("a.js", "Polymer(\x7bis:'x-a'\x7d)")] [("a.js", 5)]), readScript := Script.read
        joining := .upTo 2 }
    let named : Node := { tag := "script", attributes := [("src", "a.js")], line := 1 }
    let inline (text : String) : Node := { tag := "script", text? := some text, line := 1 }
    let (r?, y) := x.extract "index.html" [named, inline ")", inline "Polymer(\x7bis:'x-b'\x7d)"]
    r? = some (.error (.unreadable "index.html" "line 1: unexpected ')'")) ∧
      y.registries.elements.entries = [("x-a", "index.html"), ("x-b", "index.html")] := by
  decide +kernel

/-- While a text is waited for, another script may fail first that would not if all texts were in place. -/
theorem extract_overtaken :
    ¬∀ (x : Extractor) (base : String) (scripts : List Node), x.Loads base scripts →
      ∀ e, (x.extract base scripts).1 = some (.error e) →
        (x.extract base (scripts.map (x.inlined base))).1 = some (.error (e.inDocument base)) := by
  intro hall
  let x : Extractor := { loader? := some (.shelf [("a.js", "(")] [("a.js", 5)]), readScript := Script.read }
  let named : Node := { tag := "script", attributes := [("src", "a.js")], line := 1 }
  let inline : Node := { tag := "script", text? := some "]", line := 1 }
  have hs : named.attribute? "src" = some "a.js" := by decide
  have ha : Address.resolve "index.html" "a.js" = .ok "a.js" := by decide +kernel
  have h : x.Loads "index.html" [named, inline] := loads_pair rfl hs ha rfl nofun
  have hfirst : (x.extract "index.html" [named, inline]).1 =
      some (.error (.unreadable "index.html" "line 1: unexpected ']'")) := by decide +kernel
  have hinline : (x.extract "index.html" ([named, inline].map (x.inlined "index.html"))).1 =
      some (.error (.unreadable "index.html" "line 1: unclosed '('")) := by decide +kernel
  exact absurd (hinline.symm.trans (hall x "index.html" [named, inline] h _ hfirst)) (by decide)

end Extractor

end ImportTree
