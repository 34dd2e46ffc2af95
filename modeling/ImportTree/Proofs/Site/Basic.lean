import ImportTree.Proofs.Analysis.Steps
import ImportTree.Proofs.Metadata.Registry

/-!
# Sites

A site is what an analysis is about: a root document, and the texts that a loader has. What the documents that are
reached from the root import and declare is said here of the site itself, without any analysis.
-/

namespace ImportTree

/-- A root document and the texts of a loader, with the way in which they are read. -/
structure Site where
  readers : Readers
  attach : Bool
  root : String
  text : String
  documents : List (String × String)

namespace Site

variable {w : Site} {a b : String} {m : Structure} {node : Node}

/-- A loader of the texts, with the given delays. -/
def loader (w : Site) (delay : String → Nat) : Loader :=
  { Loader.shelf w.documents [] with delay }

@[simp] theorem loader_answer {delay : String → Nat} {text : String} :
    (w.loader delay).answer a = .ok text ↔ w.documents.lookup a = some text := by
  simp only [loader, Loader.shelf]
  split
  next h => simp [h]
  next h => simp [h]

theorem loader_failure {delay : String → Nat} {failure : LoadFailure} (h : (w.loader delay).answer a = .error failure) :
    w.documents.lookup a = none := by
  cases hl : w.documents.lookup a with
  | none => rfl
  | some text => cases (loader_answer.mpr hl).symm.trans h

/-! ## Documents -/

/-- The text of the document at an address. -/
def text? (w : Site) (a : String) : Option String :=
  if a = w.root then some w.text else w.documents.lookup a

/-- The markup of the document at an address, unless there is none that can be read. -/
def markup? (w : Site) (a : String) : Option Structure :=
  (w.text? a).bind fun text => (w.readers.markup text).toOption

/-- Whether an import link of the document at an address names another one. -/
def Links (w : Site) (a b : String) : Prop :=
  ∃ m target, w.markup? a = some m ∧ target ∈ Document.references m ∧ Address.resolve a target = .ok b

/-- Whether an address is the root, or is reached from it over import links. -/
def Reaches (w : Site) (a : String) : Prop :=
  Relation.ReflTransGen w.Links w.root a

/-! ## Scripts -/

/-- What the script declares, unless its text cannot be found or read. -/
def script? (w : Site) (a : String) (node : Node) : Option Metadata :=
  if node.isReadableScript then
    match node.text?, node.attribute? "src" with
    | some text, _ => (w.readers.script text w.attach).toOption.map (·.locate a none)
    | none, some target =>
      (Address.resolve a target).toOption.bind fun b =>
        ((w.documents.lookup b).bind fun text => (w.readers.script text w.attach).toOption).map (·.locate a (some b))
    | none, none => some {}
  else some {}

/-- The names of a kind that a script declares. -/
def scriptNames (w : Site) (a : String) (kind : Kind) (node : Node) : List String :=
  ((w.script? a node).map (·.names kind)).getD []

/-- The names of a kind that the scripts of a document declare, in order. -/
def names (w : Site) (kind : Kind) (a : String) : List String :=
  ((w.markup? a).map fun m => m.scripts.flatMap (w.scriptNames a kind)).getD []

/-- What scripts declare together, unless one of them cannot be found or read. -/
def gather? (w : Site) (a : String) : List Node → Option Metadata
  | [] => some {}
  | node :: nodes => (w.script? a node).bind fun declared => (w.gather? a nodes).map declared.append

/-- The page of an address and the addresses it imports, unless one of them cannot be found. -/
def known (w : Site) : Knowledge := fun a =>
  (w.markup? a).bind fun m =>
    (w.gather? a m.scripts).bind fun declared =>
      ((Document.references m).mapM (Address.resolve a)).toOption.map fun targets =>
        (Session.page (Document.fresh a m) declared, targets)

/-! ## Sound sites -/

/-- A script that stands in a document of the site that is reached from the root. -/
structure Script (w : Site) (a : String) (node : Node) : Prop where
  reached : w.Reaches a
  member : ∃ m, w.markup? a = some m ∧ node ∈ m.scripts

/-- Whether everything that is reached from the root is there and can be read, and no name is declared twice. -/
structure Sound (w : Site) : Prop where
  /-- Every document but the root is among the texts, and can be read. -/
  documents : ∀ {a}, w.Reaches a → a ≠ w.root →
    ∃ text m, w.documents.lookup a = some text ∧ w.readers.markup text = .ok m
  /-- Every import target names an address. -/
  targets : ∀ {a m target}, w.Reaches a → w.markup? a = some m → target ∈ Document.references m →
    ∃ b, Address.resolve a target = .ok b
  /-- Every source of a script without text names an address. -/
  sources : ∀ {a node target}, w.Script a node → node.isReadableScript = true → node.text? = none →
    node.attribute? "src" = some target → ∃ b, Address.resolve a target = .ok b
  /-- Every external script is among the texts, and can be read. -/
  external : ∀ {a node b}, w.Script a node → node.External a b →
    ∃ text declared, w.documents.lookup b = some text ∧ w.readers.script text w.attach = .ok declared
  /-- Every inline script can be read. -/
  inline : ∀ {a node text}, w.Script a node → node.isReadableScript = true → node.text? = some text →
    ∃ declared, w.readers.script text w.attach = .ok declared
  /-- Two declarations of one name of a kind are the same. -/
  distinct : ∀ {kind a b name} {i j : Nat}, w.Reaches a → w.Reaches b → (w.names kind a)[i]? = some name →
    (w.names kind b)[j]? = some name → a = b ∧ i = j

/-- What an error says of a script of a document. -/
inductive BlamesScript (w : Site) (a : String) (node : Node) : AnalysisError → Prop where
  | missing {b failure} : node.External a b → w.documents.lookup b = none → BlamesScript w a node (.notLoaded b failure)
  | unreadableInline {text fault} : node.isReadableScript = true → node.text? = some text →
      w.readers.script text w.attach = .error fault → BlamesScript w a node (.unreadable a fault.message)
  | unreadable {b text fault} : node.External a b → w.documents.lookup b = some text →
      w.readers.script text w.attach = .error fault → BlamesScript w a node (.unreadable b fault.message)
  | unresolvable {target e} : node.isReadableScript = true → node.text? = none → node.attribute? "src" = some target →
      Address.resolve a target = .error e → BlamesScript w a node e

/-- What an error says of a site: the defect that it blames on an address that is reached from the root. -/
inductive Blames (w : Site) : AnalysisError → Prop where
  | missing {a b failure} : w.Reaches a → w.Links a b → b ≠ w.root → w.documents.lookup b = none →
      Blames w (.notLoaded b failure)
  | unreadable {a text fault} : w.Reaches a → a ≠ w.root → w.documents.lookup a = some text →
      w.readers.markup text = .error fault → Blames w (.unreadable a fault.message)
  | unresolvable {a m target e} : w.Reaches a → w.markup? a = some m → target ∈ Document.references m →
      Address.resolve a target = .error e → Blames w e
  | script {a node e} : w.Script a node → w.BlamesScript a node e → Blames w e
  | duplicate {kind name a b} {i j : Nat} : w.Reaches a → w.Reaches b → (w.names kind a)[i]? = some name →
      (w.names kind b)[j]? = some name → ¬(a = b ∧ i = j) → Blames w (.duplicate kind name a b)

theorem BlamesScript.not_sound {e : AnalysisError} (h : w.BlamesScript a node e) (hn : w.Script a node)
    (hs : w.Sound) : False := by
  cases h with
  | missing hx hl =>
      obtain ⟨text, _, ht, _⟩ := hs.external hn hx
      cases hl.symm.trans ht
  | unreadableInline hr ht hf =>
      obtain ⟨declared, hd⟩ := hs.inline hn hr ht
      cases hf.symm.trans hd
  | unreadable hx ht hf =>
      obtain ⟨text, declared, ht', hd⟩ := hs.external hn hx
      cases ht.symm.trans ht'
      cases hf.symm.trans hd
  | unresolvable hr ht hsrc he =>
      obtain ⟨b, hb⟩ := hs.sources hn hr ht hsrc
      cases he.symm.trans hb

/-- There is nothing to blame in a sound site. -/
theorem Blames.not_sound {e : AnalysisError} (h : w.Blames e) (hs : w.Sound) : False := by
  cases h with
  | missing ha hl hr hn =>
      obtain ⟨text, _, ht, _⟩ := hs.documents (ha.tail hl) hr
      cases hn.symm.trans ht
  | unreadable ha hr ht hf =>
      obtain ⟨text, m, ht', hm⟩ := hs.documents ha hr
      cases ht.symm.trans ht'
      cases hf.symm.trans hm
  | unresolvable ha hm ht he =>
      obtain ⟨b, hb⟩ := hs.targets ha hm ht
      cases he.symm.trans hb
  | script hn he => exact he.not_sound hn hs
  | duplicate ha hb hi hj hne => exact hne (hs.distinct ha hb hi hj)

end Site

end ImportTree
