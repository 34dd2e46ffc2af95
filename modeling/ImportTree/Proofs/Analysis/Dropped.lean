import ImportTree.Proofs.Session.Abandoned
import ImportTree.Proofs.Session.Repeats
import ImportTree.Proofs.Session.Resolver

/-!
# Roots without their analysis

An analysis may be given up at any moment, in the middle of a step as well, while somebody holds on to its root. The
root can then still be asked for what it declares and imports, but no document is loaded for it any more.
-/

namespace ImportTree.Analysis

open Session (Abandoned Quiet Begun Changes)

variable {a : Analysis} {s t : Session} {root : String} {d : Document} {L : List Request} {step : Step}
  {steps before after : List Step} {readers : Readers} {loader? : Option Loader} {attach eager : Bool} {text : String}

/-- What is left of an analysis that is given up: its root, to which somebody holds on. -/
def remains (s : Session) (root : String) : Analysis where
  session := s.drop
  root := root

theorem run_append (a : Analysis) (before after : List Step) :
    (a.run (before ++ after)).2 = ((a.run before).2.run after).2 := by
  induction before generalizing a with
  | nil => rfl
  | cons step before ih => exact ih _

/-! ## Steps -/

theorem perform_gone (hd : a.session.dropped = true) (hstep : step.survivesDrop = false) :
    a.perform step = (.gone, a) := by
  rw [perform, hd, hstep]
  rfl

theorem perform_surviving (hstep : step.survivesDrop = true) : a.perform step = a.performAnyway step := by
  rw [perform, hstep]
  simp

/-- Of what has been given up only the root can be asked, the loader changed, and time can pass. -/
theorem perform_dropped (hs : a.session.Coherent) (hd : a.session.dropped = true) (step : Step) :
    Changes (fun _ => True) a.session (a.perform step).2.session ∨
      ∃ change, (a.perform step).2.session = a.session.serve change := by
  cases hsurvives : step.survivesDrop with
  | false =>
      rw [perform_gone hd hsurvives]
      exact .inl .refl
  | true =>
      rw [perform_surviving hsurvives]
      cases step with
      | insert address text => exact .inr ⟨(·.insert address text), rfl⟩
      | rootMetadata | rootImports | idle | sleep _ => exact .inl (performAnyway_changes hs trivial trivial)
      | tree | dependencies | dependenciesOf _ | metadata _ | imports _ | resolve _ _ | load _ | drop => cases hsurvives

theorem run_abandoned (h : s.Abandoned a.session) (steps : List Step) : s.Abandoned (a.run steps).2.session := by
  induction steps generalizing a with
  | nil => exact h
  | cons step steps ih =>
      have hstep : s.Abandoned (a.perform step).2.session := by
        rcases perform_dropped h.evolves.coherent h.dropped step with hc | ⟨change, hchange⟩
        · exact h.changes hc
        · rw [hchange]
          exact h.serve change
      exact ih hstep

/-! ## Requests -/

theorem perform_quiet (h : a.session.Quiet L) (hstep : step ≠ .rootMetadata ∨ a.session.Begun a.root) :
    (a.perform step).2.session.Quiet L := by
  cases hsurvives : step.survivesDrop with
  | false =>
      rw [perform_gone h.dropped hsurvives]
      exact h
  | true =>
      rw [perform_surviving hsurvives]
      have hP := Session.quiet_upkeep L
      cases step with
      | insert address text => exact h.serve (·.insert address text)
      | rootMetadata =>
          simp only [performAnyway, ask_session]
          exact h.await_begun (hstep.resolve_left fun hne => hne rfl)
      | rootImports =>
          simp only [performAnyway, ask_session]
          exact h.await_imports a.root
      | idle => exact hP.idle h
      | sleep time => exact hP.sleep time h
      | tree | dependencies | dependenciesOf _ | metadata _ | imports _ | resolve _ _ | load _ | drop => cases hsurvives

theorem run_quiet (h : a.session.Quiet L) (hsteps : .rootMetadata ∉ steps ∨ a.session.Begun a.root) :
    (a.run steps).2.session.Quiet L := by
  induction steps generalizing a with
  | nil => exact h
  | cons step steps ih =>
      have hne (hmem : .rootMetadata ∉ step :: steps) : step ≠ .rootMetadata := by
        rintro rfl
        exact hmem (List.mem_cons_self ..)
      have hrest (hmem : .rootMetadata ∉ step :: steps) : .rootMetadata ∉ steps := by
        intro hmem'
        exact hmem (List.mem_cons_of_mem _ hmem')
      have hbegun (hb : a.session.Begun a.root) : (a.perform step).2.session.Begun (a.perform step).2.root := by
        rw [perform_root]
        exact hb.grows (perform_evolves step h.coherent).grows
      exact ih (perform_quiet h (hsteps.imp_left hne)) (hsteps.imp hrest hbegun)

/-- The first time a root is asked for its declarations, what is pending of its scripts is requested. -/
theorem perform_rootMetadata_quiet (h : a.session.Quiet L) (hd : a.session.document? a.root = some d) :
    ∃ l : List String, (∀ b, l.count b ≤ d.pending.count b) ∧
      (a.perform .rootMetadata).2.session.Quiet (l.map .script ++ L) ∧
      (a.perform .rootMetadata).2.session.Begun a.root := by
  rw [perform_surviving rfl]
  simp only [performAnyway, ask_session]
  exact h.await_metadata hd

/-- Nothing is requested before a root is asked for its declarations, and nothing after that. -/
theorem run_rootMetadata_quiet (h : a.session.Quiet L) (hx : a.session.Begins)
    (hd : a.session.document? a.root = some d) (hbefore : .rootMetadata ∉ before) :
    ∃ l : List String, (∀ b, l.count b ≤ d.scriptSources.count b) ∧
      ∀ after, (a.run (before ++ .rootMetadata :: after)).2.session.Quiet (l.map .script ++ L) := by
  obtain ⟨hevolves, hroot⟩ := run_evolves before h.coherent
  obtain ⟨e, he, hb⟩ := hevolves.grows.documents hd
  rw [← hroot] at he
  obtain ⟨l, hcount, hquiet, hbegun⟩ := perform_rootMetadata_quiet (run_quiet h (.inl hbefore)) he
  have hsources : e.scriptSources = d.scriptSources := by
    rw [Document.scriptSources, Document.scriptSources, hb.address, hb.markup]
  have hx' : (a.run before).2.session.Begins := run_extracts Session.begins_persists before h.coherent hx
  refine ⟨l, fun b => ?_, fun after => ?_⟩
  · rw [← hsources]
    exact (hcount b).trans (hx'.count_pending_le he b)
  · rw [run_append, run_cons]
    refine run_quiet hquiet (.inr ?_)
    rw [perform_root]
    exact hbegun

/-! ## Answers -/

/-- What a root answers that has found its imports, or has failed to. -/
def importsAnswer : Except AnalysisError (List String) → Answer
  | .ok targets => .addresses targets
  | .error e => .failed e

/-- An answer about the imports of a root is what is known of them afterwards. -/
theorem perform_rootImports (hs : a.session.Coherent) (hr : ∃ r, (a.session.await (.imports a.root)).1 = some r) :
    ∃ d r, (a.perform .rootImports).2.session.document? a.root = some d ∧ d.imports.result? = some r ∧
      (a.perform .rootImports).1 = importsAnswer r := by
  obtain ⟨r, hr⟩ := hr
  have hreached := (Session.await_awaited (A := fun _ => True) hs (by intro b hb; cases hb)).reached hr
  rw [perform_surviving rfl]
  simp only [performAnyway, ask_session]
  unfold ask
  generalize a.session.await (.imports a.root) = p at hr hreached ⊢
  obtain ⟨r', t⟩ := p
  cases hr
  cases hreached with
  | @imported _ d targets hd ht => exact ⟨d, _, hd, ht, by simp [hd, imports?, ht, importsAnswer]⟩
  | @unimported _ d e hd he => exact ⟨d, _, hd, he, rfl⟩

/-- Imports that had been found, or had failed, are answered so for ever. -/
theorem run_rootImports_completed (hs : a.session.Coherent) (hd : a.session.document? a.root = some d)
    {r : Except AnalysisError (List String)} (hr : d.imports.result? = some r) (steps : List Step) :
    ((a.run steps).2.perform .rootImports).1 = importsAnswer r := by
  obtain ⟨hrun, hroot⟩ := run_evolves steps hs
  obtain ⟨e, he, hbefore⟩ := hrun.grows.documents hd
  rw [← hroot] at he
  have hpoll := Session.repeats_imports he (hbefore.imports_result hr) _ (.refl _) hrun.coherent
  obtain ⟨e', r', he', hr', hanswer⟩ := perform_rootImports hrun.coherent (Session.await_of_poll ⟨_, by rw [hpoll]⟩)
  obtain ⟨e'', he'', hbefore'⟩ := (perform_evolves .rootImports hrun.coherent).grows.documents he
  cases he'.symm.trans he''
  cases hr'.symm.trans (hbefore'.imports_result (hbefore.imports_result hr))
  exact hanswer

/-- Why the imports of a root may have failed after its analysis was given up: one of its references leads nowhere, the
analysis was missing, the scripts of the root have failed, or a fetch that had begun before. -/
inductive Excuses (s t : Session) (root : String) (d : Document) : AnalysisError → Prop where
  | unresolvable {reference target : String} : reference ∈ Document.references d.markup →
      Address.resolve root reference = .error (.unresolvable root target) →
      Excuses s t root d (.unresolvable root target)
  | detached {b : String} : b = root ∨ (∃ targets, d.targets = .ok targets ∧ b ∈ targets) →
      Excuses s t root d (.detached b)
  | undeclared {e : AnalysisError} {d' : Document} : t.document? root = some d' →
      d'.extraction.result? = some (.error e) → Excuses s t root d e
  | unfetched {e : AnalysisError} {b : String} {targets : List String} : d.targets = .ok targets → b ∈ targets →
      (s.fetches.lookup b).isSome = true → t.fetched? b = some (.error e) → Excuses s t root d e

/-- What is noted of the imports of a root was there before, or has an excuse. -/
theorem Abandoned.excuses {e : AnalysisError} {d' : Document} (h : s.Abandoned t)
    (hl : s.extractor.loader?.isSome = true) (hd : s.document? root = some d) (hd' : t.document? root = some d')
    (hr : d'.imports.result? = some (.error e)) : Excuses s t root d e := by
  obtain ⟨d'', hd'', hbefore⟩ := h.evolves.grows.documents hd
  cases hd'.symm.trans hd''
  have haddress := Session.document?_address hd
  have hallowed := h.evolves.coherent.allowed hd'
  rw [Session.imports_eq_done hr] at hallowed
  cases hallowed with
  | unresolvable he =>
      rw [Session.imported, h.evolves.loader, if_pos hl, hbefore.targets, Document.targets, haddress] at he
      obtain ⟨reference, hmem, he⟩ := mapM_error he
      cases Address.resolve_error he
      exact .unresolvable hmem he
  | detached _ => exact .detached (.inl (hbefore.address.trans haddress))
  | undeclared he => exact .undeclared hd' he
  | @unfetched _ targets b ht hb he =>
      rw [hbefore.targets] at ht
      cases hf : s.fetches.lookup b with
      | some f => exact .unfetched ht hb (by rw [hf]; rfl) he
      | none =>
          cases h.fetched hf (Session.fetched?_eq_some.mp he)
          exact .detached (.inr ⟨targets, ht, hb⟩)

/-- What holds of the root d of a session that is given up, whatever is done with the root afterwards. -/
structure Outlives (s : Session) (root : String) (d : Document) : Prop where
  /-- Nothing is requested but scripts of the root, and these only if it is asked for its declarations. -/
  requests : ∀ steps, ∃ scripts : List String,
    ((remains s root).run steps).2.session.extractor.log = scripts.map .script ++ s.extractor.log ∧
      (∀ b, scripts.count b ≤ d.scriptSources.count b) ∧ (scripts ≠ [] → .rootMetadata ∈ steps)
  /-- All of them are requested the first time it is asked. -/
  once : ∀ before after, .rootMetadata ∉ before →
    ((remains s root).run (before ++ .rootMetadata :: after)).2.session.extractor.log =
      ((remains s root).run (before ++ [.rootMetadata])).2.session.extractor.log
  documents : ∀ steps b, ((remains s root).run steps).2.session.holds b = s.holds b
  completed : ∀ {r}, d.imports.result? = some r → ∀ steps,
    (((remains s root).run steps).2.perform .rootImports).1 = importsAnswer r
  ended : s.extractor.loader?.isSome = true → ∀ steps,
    (∃ targets, (((remains s root).run steps).2.perform .rootImports).1 = .addresses targets ∧
      ∀ b ∈ targets, s.holds b = true) ∨
    ∃ e, (((remains s root).run steps).2.perform .rootImports).1 = .failed e ∧
      Excuses s (((remains s root).run steps).2.perform .rootImports).2.session root d e

theorem remains_ended (hs : s.Coherent) (hd : s.document? root = some d) (hl : s.extractor.loader?.isSome = true)
    (steps : List Step) :
    (∃ targets, (((remains s root).run steps).2.perform .rootImports).1 = .addresses targets ∧
      ∀ b ∈ targets, s.holds b = true) ∨
    ∃ e, (((remains s root).run steps).2.perform .rootImports).1 = .failed e ∧
      Excuses s (((remains s root).run steps).2.perform .rootImports).2.session root d e := by
  have hrun : s.Abandoned ((remains s root).run steps).2.session := run_abandoned (Session.abandoned_drop hs) steps
  have hroot : ((remains s root).run steps).2.root = root :=
    (run_evolves steps (Session.abandoned_drop hs).evolves.coherent).2
  have hlast : s.Abandoned (((remains s root).run steps).2.perform .rootImports).2.session :=
    run_abandoned hrun [.rootImports]
  obtain ⟨d', hd', _⟩ := hrun.evolves.grows.documents hd
  have hheld : ((remains s root).run steps).2.session.Attends (.imports ((remains s root).run steps).2.root) := by
    rw [hroot]
    exact Session.holds_iff.mpr ⟨d', hd'⟩
  obtain ⟨e, r, he, hr, hanswer⟩ := perform_rootImports hrun.evolves.coherent
    (Session.await_isSome _ hrun.evolves.coherent (hrun.evolves.loader.trans hl) hheld)
  rw [hroot] at he
  cases r with
  | error err => exact .inr ⟨err, hanswer, Abandoned.excuses hlast hl hd he hr⟩
  | ok targets =>
      refine .inl ⟨targets, hanswer, fun b hb => ?_⟩
      rw [← hlast.held b]
      exact (hlast.evolves.coherent.completes he hr).present b hb

theorem quiet_remains (hs : s.Coherent) : (remains s root).session.Quiet s.extractor.log :=
  ⟨hs.retains (Session.retains_drop s), rfl, rfl⟩

theorem begins_remains (hx : s.Begins) : (remains s root).session.Begins :=
  Session.Extracts.retains Session.begins_persists (Session.retains_drop s) rfl rfl hx

theorem outlives_of_held (hs : s.Coherent) (hx : s.Begins) (hd : s.document? root = some d) : Outlives s root d where
  requests steps := by
    by_cases hmem : Step.rootMetadata ∈ steps
    · obtain ⟨before, after, rfl, hbefore⟩ := List.eq_append_cons_of_mem hmem
      obtain ⟨l, hcount, hquiet⟩ := run_rootMetadata_quiet (quiet_remains hs) (begins_remains hx) hd hbefore
      exact ⟨l, (hquiet after).log, hcount, fun _ => hmem⟩
    · exact ⟨[], (run_quiet (quiet_remains hs) (.inl hmem)).log, fun _ => Nat.zero_le _, fun h => (h rfl).elim⟩
  once before after hbefore := by
    obtain ⟨l, _, hquiet⟩ := run_rootMetadata_quiet (quiet_remains hs) (begins_remains hx) hd hbefore
    rw [(hquiet after).log, (hquiet []).log]
  documents steps b := (run_abandoned (Session.abandoned_drop hs) steps).held b
  completed hr steps := run_rootImports_completed (hs.retains (Session.retains_drop s)) hd hr steps
  ended hl steps := remains_ended hs hd hl steps

/-- Whenever an analysis is given up, between its steps or in the midst of one, its root outlives it. -/
theorem remains_outlives (hstart : start readers loader? attach eager root text = .ok a) (steps : List Step)
    (actions : List Resolver.Action) :
    let s := (({ session := (a.run steps).2.session } : Resolver).run actions).session
    ∃ d, s.document? root = some d ∧ Outlives s root d := by
  intro s
  have hs := start_coherent hstart
  have hrun := (run_evolves steps hs).1
  have hacted : (a.run steps).2.session.Evolves s :=
    Resolver.run_evolves (k := { session := (a.run steps).2.session }) hrun.coherent actions
  have hx : s.Begins := by
    refine Resolver.run_extracts Session.begins_persists actions hrun.coherent ?_
    exact run_extracts Session.begins_persists steps hs (start_extracts Session.begins_persists hstart trivial)
  obtain ⟨_, markup, _, hroot⟩ := start_read hstart
  have hheld : a.session.document? root = some (.fresh root markup) := by
    rw [hroot, Session.document?_register markup ((blank_blank ..).document? root), if_pos rfl]
  obtain ⟨d, hd, _⟩ := (hrun.trans hacted).grows.documents hheld
  exact ⟨d, hd, outlives_of_held hacted.coherent hx hd⟩

/-- An import is on its way when the analysis is given up, and of no use any more; the script of the root is requested
later. -/
theorem remains_outlives_load : ∃ (loader : Loader) (a : Analysis) (d : Document),
    start {} (some loader) false false "a" "<link rel=import href=b><script src=c.js></script>" = .ok a ∧
      let s := (({ session := (a.run []).2.session } : Resolver).run [.load "b", .poll "b"]).session
      s.document? "a" = some d ∧ Outlives s "a" d ∧ s.fetches.map (·.1) = ["b"] ∧ s.extractor.log = [.document "b"] ∧
        ((remains s "a").run [.sleep 3, .rootMetadata]).2.session.extractor.log = [.script "c.js", .document "b"] ∧
        (((remains s "a").run [.sleep 3, .rootMetadata]).2.perform .rootImports).1 = .failed (.detached "a") := by
  let loader : Loader := .shelf [("b", ""), ("c.js", "Polymer(\x7bis:'x-in'\x7d)")] [("b", 2), ("c.js", 1)]
  let left (a : Analysis) : Session :=
    (({ session := (a.run []).2.session } : Resolver).run [.load "b", .poll "b"]).session
  have hrun : (start {} (some loader) false false "a" "<link rel=import href=b><script src=c.js></script>").toOption.map
      (fun a =>
        let r := (remains (left a) "a").run [.sleep 3, .rootMetadata]
        ((left a).fetches.map (·.1), (left a).extractor.log, r.2.session.extractor.log, (r.2.perform .rootImports).1)) =
      some (["b"], [.document "b"], [.script "c.js", .document "b"], .failed (.detached "a")) := by
    decide +kernel
  obtain ⟨a, ha, hrun⟩ := Option.map_eq_some_iff.mp hrun
  simp only [Prod.mk.injEq] at hrun
  obtain ⟨hfetches, hlog, hlog', hanswer⟩ := hrun
  have hstart := toOption_eq_some ha
  obtain ⟨d, hd, houtlives⟩ := remains_outlives hstart [] [.load "b", .poll "b"]
  exact ⟨loader, a, d, hstart, hd, houtlives, hfetches, hlog, hlog', hanswer⟩

end ImportTree.Analysis
