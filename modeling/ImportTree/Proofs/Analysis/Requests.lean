import ImportTree.Proofs.Analysis.Steps
import ImportTree.Proofs.Session.Requests
import ImportTree.Proofs.Session.Truthful

/-!
# Requests of a whole run

No document is requested twice. A script is requested as often as documents name it.
-/

namespace ImportTree

theorem Extractor.count_requests (x : Extractor) (address : String) :
    x.requests.count address = x.log.count (.document address) + x.log.count (.script address) := by
  unfold Extractor.requests
  induction x.log with
  | nil => rfl
  | cons r log ih =>
      rw [List.map_cons, List.count_cons, ih, List.count_cons, List.count_cons]
      cases r <;> simp [Request.address] <;> omega

namespace Session

variable {s : Session}

theorem Accounted.count_le (h : s.Accounted) (address : String) :
    s.extractor.log.count (.script address) ≤ s.scriptSources.count address := by
  obtain ⟨lost, hcount, -⟩ := h
  have := hcount address
  omega

/-- Whether all scripts of all documents have been read. -/
def Declared (s : Session) : Prop :=
  ∀ d ∈ s.documents, (Analysis.declared? d).isSome = true

instance (s : Session) : Decidable s.Declared :=
  inferInstanceAs (Decidable (∀ d ∈ s.documents, _))

theorem Accounted.count_eq (h : s.Accounted) (hl : s.extractor.loader?.isSome = true) (hd : s.Declared)
    (address : String) : s.extractor.log.count (.script address) = s.scriptSources.count address := by
  have hdone {d : Document} (hmem : d ∈ s.documents) : ∃ m, d.extraction = .done (.ok m) := by
    obtain ⟨m, hm⟩ := Option.isSome_iff_exists.mp (hd d hmem)
    exact ⟨m, declared?_eq_some.mp hm⟩
  obtain ⟨lost, hcount, hlost⟩ := h
  have hpending : s.pending = [] := by
    refine List.flatMap_eq_nil_iff.mpr fun d hmem => ?_
    obtain ⟨m, hm⟩ := hdone hmem
    rw [Document.pending, hm, Extraction.pending]
  have hnone := hlost hl fun hd hfailing => by
    obtain ⟨m, hm⟩ := hdone (document?_mem hd)
    rw [hm] at hfailing
    obtain ⟨_, he⟩ := hfailing
    cases he
  have := hcount address
  simpa [hpending, hnone] using this

end Session

namespace Analysis

variable {a : Analysis} {readers : Readers} {loader? : Option Loader} {attach eager : Bool} {root text : String}

theorem accounted_run (hstart : start readers loader? attach eager root text = .ok a) (steps : List Step) :
    (a.run steps).2.session.Accounted :=
  run_keeps (fun hs hc h => h.changes hs hc) (fun hr h => h.resolved hr)
    (fun _ h => h.retains (Session.retains_serve _ _)) (fun h => h.retains (Session.retains_drop _)) steps
    (start_coherent hstart) ((blank_blank ..).accounted.resolved (start_resolved hstart).2)

/-- Whatever an analysis is asked, it requests an address once at most as that of a document, and besides at most once
for each script that names the address. When the scripts of all documents have been read, it is exactly once for each
of them. -/
theorem requests_run (hstart : start readers loader? attach eager root text = .ok a) (steps : List Step)
    (address : String) :
    (a.run steps).2.session.extractor.log.count (.document address) ≤ 1 ∧
      (a.run steps).2.session.extractor.requests.count address ≤
        1 + (a.run steps).2.session.scriptSources.count address ∧
      (loader?.isSome = true → (a.run steps).2.session.Declared →
        (a.run steps).2.session.extractor.requests.count address =
          (a.run steps).2.session.extractor.log.count (.document address) +
            (a.run steps).2.session.scriptSources.count address) := by
  have hevolves := (run_evolves steps (start_coherent hstart)).1
  have haccounted := accounted_run hstart steps
  have hdocument : (a.run steps).2.session.extractor.log.count (.document address) ≤ 1 := by
    have := hevolves.coherent.requested address
    split at this <;> omega
  have hscript := haccounted.count_le address
  rw [Extractor.count_requests]
  refine ⟨hdocument, by omega, fun hl hd => ?_⟩
  have hloader : (a.run steps).2.session.extractor.loader?.isSome = true := by
    rw [hevolves.loader, (start_resolved hstart).2.steady.loader]
    exact hl
  rw [haccounted.count_eq hloader hd]

/-- An analysis of a text whose imports and scripts are `a.js` and `b.html`, which names `a.js` as well. -/
def sharing (text : String) : Except AnalysisError Analysis :=
  start {} (some (.shelf [("a.js", ""), ("b.html", "<script src=a.js></script>")] [("a.js", 2)])) false true
    "index.html" text

/-- Two scripts of the root and one of an import name one address. -/
theorem requests_run_shared :
    ∃ a, sharing "<link rel=import href=b.html><script src=a.js></script><script src=./a.js></script>" = .ok a ∧
      (a.run [.dependencies]).2.session.extractor.requests.count "a.js" = 3 := by
  have hrun : (sharing
      "<link rel=import href=b.html><script src=a.js></script><script src=./a.js></script>").toOption.map (fun a =>
        let s := (a.run [.dependencies]).2.session
        (decide s.Declared, s.extractor.log.count (.document "a.js"), s.scriptSources.count "a.js")) =
      some (true, 0, 3) := by
    decide +kernel
  obtain ⟨a, ha, hrun⟩ := Option.map_eq_some_iff.mp hrun
  simp only [Prod.mk.injEq, decide_eq_true_eq] at hrun
  obtain ⟨hdeclared, hdocument, hsources⟩ := hrun
  have hstart := toOption_eq_some ha
  refine ⟨a, hstart, ?_⟩
  rw [(requests_run hstart [.dependencies] "a.js").2.2 rfl hdeclared, hdocument, hsources]

/-- An address is requested twice if two scripts name it, in one document or in two, or if a script and an import link
name it. -/
theorem requests_run_twice :
    (["<script src=a.js></script><script src=a.js></script>",
      "<script src=a.js></script><link rel=import href=b.html>",
      "<link rel=import href=a.js><script src=a.js></script>"].map fun text => (sharing text).toOption.map fun a =>
        (a.run [.dependencies]).2.session.extractor.requests.count "a.js") = [some 2, some 2, some 2] := by
  decide +kernel

end Analysis

end ImportTree
