import ImportTree.Proofs.Site.Schedule

/-!
# Justified errors

An error says that something is wrong at an address. Whatever an analysis of a site fails with, and whatever has
happened before, what the error says can be seen in the site itself.
-/

namespace ImportTree

open Analysis (start Step)

namespace Site

variable {w : Site} {m : Structure} {a b target : String} {node : Node} {e : AnalysisError}

/-! ## What errors say -/

/-- Whether a document that is reached from the root imports an address, or takes a script from it. -/
def Cites (w : Site) (b : String) : Prop :=
  ∃ a, w.Reaches a ∧ (w.Links a b ∨ ∃ node, w.Script a node ∧ node.External a b)

/-- Whether a document has an import link or an external script with a reference. -/
inductive Refers (w : Site) (a target : String) : Prop where
  | link {m : Structure} : w.markup? a = some m → target ∈ Document.references m → Refers w a target
  | source {node : Node} : w.Script a node → node.isReadableScript = true → node.text? = none →
      node.attribute? "src" = some target → Refers w a target

/-- Whether a text at an address, or in the document there, cannot be read. -/
inductive Unreadable (w : Site) (b : String) (fault : SyntaxFault) : Prop where
  | markup {text : String} : w.Reaches b → w.text? b = some text → w.readers.markup text = .error fault →
      Unreadable w b fault
  | inline {node : Node} {text : String} : w.Script b node → node.isReadableScript = true → node.text? = some text →
      w.readers.script text w.attach = .error fault → Unreadable w b fault
  | external {a : String} {node : Node} {text : String} : w.Script a node → node.External a b →
      w.documents.lookup b = some text → w.readers.script text w.attach = .error fault → Unreadable w b fault

/-- Whether what an error says of a site is the case. -/
def Justifies (w : Site) : AnalysisError → Prop
  | .notLoaded b _ => w.Cites b ∧ w.documents.lookup b = none
  | .unreadable b reason => ∃ fault : SyntaxFault, reason = fault.message ∧ w.Unreadable b fault
  | .unresolvable a target => w.Reaches a ∧ ∃ reference, w.Refers a reference ∧
      target = String.ofList (Address.referenced reference.toList) ∧
      Address.resolve a reference = .error (.unresolvable a target)
  | .duplicate kind name a b => w.Reaches a ∧ w.Reaches b ∧ ∃ i j : Nat,
      (w.names kind a)[i]? = some name ∧ (w.names kind b)[j]? = some name ∧ (a, i) ≠ (b, j)
  | .detached _ => False

/-! ## Defects justify errors -/

theorem justifies_unresolvable (ha : w.Reaches a) (ht : w.Refers a target) (he : Address.resolve a target = .error e) :
    w.Justifies e := by
  cases Address.resolve_error he
  exact ⟨ha, target, ht, rfl, he⟩

theorem BlamesScript.justifies (h : w.BlamesScript a node e) (hn : w.Script a node) : w.Justifies e := by
  cases h with
  | missing hx hl => exact ⟨⟨a, hn.reached, .inr ⟨node, hn, hx⟩⟩, hl⟩
  | unreadableInline hr ht hf => exact ⟨_, rfl, .inline hn hr ht hf⟩
  | unreadable hx ht hf => exact ⟨_, rfl, .external hn hx ht hf⟩
  | unresolvable hr ht hs he => exact justifies_unresolvable hn.reached (.source hn hr ht hs) he

theorem Blames.justifies (h : w.Blames e) : w.Justifies e := by
  cases h with
  | @missing a b _ ha hl _ hn => exact ⟨⟨a, ha, .inl hl⟩, hn⟩
  | unreadable ha hr ht hf => exact ⟨_, rfl, .markup ha (by rw [text?, if_neg hr]; exact ht) hf⟩
  | unresolvable ha hm ht he => exact justifies_unresolvable ha (.link hm ht) he
  | script hn hb => exact hb.justifies hn
  | @duplicate kind name a b i j ha hb hi hj hne => exact ⟨ha, hb, i, j, hi, hj, by simpa using hne⟩

/-! ## Failing analyses -/

theorem Follows.blames {a : Analysis} {step : Step} (h : w.Follows a) (hstep : step.Asks w.Reaches)
    (he : (a.perform step).1 = .failed e) : w.Blames e := by
  have hnext := h.perform hstep
  refine hnext.faithful.blames hnext.coherent ?_
  rw [Analysis.perform_of_live h.faithful.live] at he ⊢
  exact Analysis.performAnyway_knows h.coherent (h.root ▸ .refl : w.Reaches a.root) hstep he

/-- Take a site whose root can be read, any delays of its responses, and anything that an analysis was asked for of
what is reached from the root. If it then fails to build the tree, to list dependencies, or to answer any other such
question, its error says what is the case in the site: an address that is cited has no text, a text cannot be read for
exactly that reason, a reference leads nowhere, or a name is declared at two places. It never says that the analysis
has been given up. -/
theorem failure_justified (w : Site) (hroot : w.readers.markup w.text = .ok m) (delay : String → Nat) (eager : Bool) :
    ∃ a, start w.readers (some (w.loader delay)) w.attach eager w.root w.text = .ok a ∧
      ∀ steps : List Step, (∀ step ∈ steps, step.Asks w.Reaches) → ∀ step : Step, step.Asks w.Reaches →
        ∀ e, ((a.run steps).2.perform step).1 = .failed e → w.Justifies e := by
  obtain ⟨a, ha, h⟩ := start_follows hroot delay eager
  exact ⟨a, ha, fun steps hsteps step hstep e he => ((h.run hsteps).blames hstep he).justifies⟩

/-- The imported document is asked first, so it is the root that declares the name a second time. -/
theorem failure_justified_of_duplicate :
    ∃ w : Site, w.documents = [("b", "<script src=c.js></script>"), ("c.js", "Polymer(\x7bis:'x-a'\x7d)")] ∧
      ∃ a, start w.readers (some (w.loader fun _ => 2)) w.attach false w.root w.text = .ok a ∧
        ((a.run [.load "b", .metadata "b"]).2.perform .tree).1 = .failed (.duplicate .element "x-a" "b" w.root) ∧
        w.Justifies (.duplicate .element "x-a" "b" w.root) := by
  let w : Site :=
    { readers := {}, attach := false, root := "a"
      text := "<link rel=import href=b><script>Polymer(\x7bis:'x-a'\x7d)</script>"
      documents := [("b", "<script src=c.js></script>"), ("c.js", "Polymer(\x7bis:'x-a'\x7d)")] }
  let link : Node := { tag := "link", attributes := [("rel", "import"), ("href", "b")], line := 1 }
  let script : Node := { tag := "script", text? := some "Polymer(\x7bis:'x-a'\x7d)", line := 1 }
  have hroot : w.readers.markup w.text = .ok { imports := [link], scripts := [script] } := by decide +kernel
  have hmarkup : w.markup? "a" = some { imports := [link], scripts := [script] } := by decide +kernel
  have hload : w.Reaches "b" :=
    .single ⟨_, "b", hmarkup, by decide +kernel, by decide +kernel⟩
  have hsteps : ∀ step ∈ [Step.load "b", .metadata "b"], step.Asks w.Reaches := by simp [Step.Asks, hload]
  obtain ⟨a, ha, hall⟩ := failure_justified w hroot (fun _ => 2) false
  have hanswer : (start w.readers (some (w.loader fun _ => 2)) w.attach false w.root w.text).toOption.map
      (fun a => ((a.run [.load "b", .metadata "b"]).2.perform .tree).1) =
        some (.failed (.duplicate .element "x-a" "b" "a")) := by
    decide +kernel
  rw [ha] at hanswer
  have hfailed := Option.some.inj hanswer
  exact ⟨w, rfl, a, ha, hfailed, hall _ hsteps .tree trivial _ hfailed⟩

end Site

end ImportTree
