import ImportTree.Proofs.Metadata.Entering
import ImportTree.Proofs.Session.Requests

/-!
# Contents of scripts

What a script declares by itself, before anything is entered into the registries, and how a poll of a script comes
to it: the text is requested if it has to be, and read and entered once it is there.
-/

namespace ImportTree

namespace Extractor

variable {x y : Extractor} {base : String} {node : Node}

/-! ## What a script declares -/

/-- The text at the address of a script, with that address. -/
def fetched (loader : Loader) (address : String) : Except AnalysisError (Option String × String) :=
  match loader.answer address with
  | .error failure => .error (.notLoaded address failure)
  | .ok text => .ok (some address, text)

/-- The text of a script, with the address at which it stands unless it stands in the document. Nothing is to be read
of a script that is none, and of one without text where nothing is named instead or nobody can be asked. -/
def body? (x : Extractor) (base : String) (node : Node) : Option (Except AnalysisError (Option String × String)) :=
  match node.isReadableScript, node.text?, node.attribute? "src", x.loader? with
  | true, some text, _, _ => some (.ok (none, text))
  | true, none, some target, some loader => some ((Address.resolve base target).bind (fetched loader))
  | _, _, _, _ => none

/-- Reads the text of a script, whose declarations are located where it stands. -/
def read (x : Extractor) (base : String) (script? : Option String) (text : String) : Except AnalysisError Metadata :=
  match x.readScript text x.attach with
  | .error fault => .error (.unreadable (script?.getD base) fault.message)
  | .ok m => .ok (m.locate base script?)

/-- What a script declares, or why that cannot be found. -/
def content (x : Extractor) (base : String) (node : Node) : Except AnalysisError Metadata :=
  match x.body? base node with
  | none => .ok {}
  | some body => body.bind fun b => x.read base b.1 b.2

theorem body?_congr (hl : y.loader? = x.loader?) : y.body? base node = x.body? base node := by
  rw [body?, body?, hl]

theorem content_congr (hl : y.loader? = x.loader?)
    (hr : ∀ script? text, x.body? base node = some (.ok (script?, text)) →
      y.readScript text y.attach = x.readScript text x.attach) :
    y.content base node = x.content base node := by
  rw [content, content, body?_congr hl]
  cases hb : x.body? base node with
  | none => rfl
  | some body =>
      cases body with
      | error _ => rfl
      | ok b => simp only [Except.bind, read, hr b.1 b.2 hb]

/-- Whatever a script declares is located in the document. -/
theorem content_located {m : Metadata} (h : x.content base node = .ok m) : m.Located base := by
  rw [content] at h
  cases hb : x.body? base node with
  | none => rw [hb] at h; cases h; exact nofun
  | some body =>
      rw [hb] at h
      cases body with
      | error e => cases h
      | ok b =>
          change x.read base b.1 b.2 = .ok m at h
          rw [read] at h
          split at h
          next => cases h
          next => cases h; exact fun p hp => (Metadata.locate_placed hp).1

/-! ## What a poll does -/

/-- The address at which the text of a script is requested. -/
def request? (x : Extractor) (base : String) (node : Node) : Option String :=
  x.loader?.bind fun _ => node.source? base

/-- How long a script waits for its text. -/
def wait (x : Extractor) (base : String) (node : Node) : Nat :=
  match x.loader?, node.source? base with
  | some loader, some address => loader.delay address
  | _, _ => 0

def requesting (x : Extractor) (base : String) (node : Node) : Extractor :=
  { x with log := ((x.request? base node).map Request.script).toList ++ x.log }

/-- Enters what a script declares, unless that cannot be found. -/
def enroll (x : Extractor) : Except AnalysisError Metadata → Except AnalysisError Metadata × Extractor
  | .error e => (.error e, x)
  | .ok m =>
    match x.registries.registerAll m with
    | (registries, none) => (.ok m, { x with registries })
    | (registries, some e) => (.error e, { x with registries })

theorem declare_eq (x : Extractor) (base : String) (script? : Option String) (text : String) :
    x.declare base script? text = x.enroll (x.read base script? text) := by
  unfold declare read
  cases x.readScript text x.attach with
  | error fault => rfl
  | ok m => rfl

theorem source?_eq_some {a : String} : node.source? base = some a ↔ node.External base a := by
  constructor
  · intro h
    unfold Node.source? at h
    split at h
    next hread =>
      obtain ⟨target, hsrc, ha⟩ := Option.bind_eq_some_iff.mp h
      exact ⟨hread.1, hread.2, target, hsrc, toOption_eq_some ha⟩
    next => cases h
  · exact Node.External.source?

theorem body?_external {a : String} {loader : Loader} (h : node.External base a) (hl : x.loader? = some loader) :
    x.body? base node = some (fetched loader a) := by
  obtain ⟨target, hsrc, ha⟩ := h.source
  simp only [body?, h.readable, h.text, hsrc, hl, ha]
  rfl

end Extractor

namespace ScriptTask

variable {x : Extractor} {base a : String} {node : Node} {loader : Loader}

/-- A script that has ended. -/
def ended : Except AnalysisError Metadata × Extractor → Except AnalysisError ScriptTask × Extractor
  | (r, x) => (r.map .done, x)

theorem ended_enroll (x : Extractor) (r : Except AnalysisError Metadata) : ended (x.enroll r) =
    match x.enroll r with
    | (.ok declared, y) => (.ok (.done declared), y)
    | (.error e, y) => (.error e, y) := by
  rcases x.enroll r with ⟨_ | _, _⟩ <;> rfl

theorem receive_eq (h : node.External base a) (hl : x.loader? = some loader) :
    receive x base a loader = ended (x.enroll (x.content base node)) := by
  rw [Extractor.content, Extractor.body?_external h hl, ended_enroll]
  unfold receive Extractor.receive Extractor.fetched
  cases loader.answer a with
  | error failure => rfl
  | ok text => simp only [Extractor.declare_eq]; rfl

theorem begin_external (h : node.External base a) (hl : x.loader? = some loader) :
    begin x base node = request x base a loader := by
  obtain ⟨target, hsrc, ha⟩ := h.source
  simp only [begin, h.readable, h.text, hsrc, hl, ha]

theorem requesting_external (h : node.External base a) (hl : x.loader? = some loader) :
    x.requesting base node = x.request (.script a) := by
  simp [Extractor.requesting, Extractor.request?, hl, h.source?, Extractor.request]

/-- A script whose text is not there yet is requested. -/
theorem begin_waiting (h : node.External base a) (hl : x.loader? = some loader) (hw : 0 < loader.delay a) :
    begin x base node = (.ok (.waiting a (x.clock + loader.delay a)), x.requesting base node) := by
  rw [begin_external h hl, request, if_neg (Nat.pos_iff_ne_zero.mp hw), requesting_external h hl]
  rfl

theorem begin_inner (h : x.request? base node = none) : begin x base node = ended (x.enroll (x.content base node)) := by
  cases hr : node.isReadableScript with
  | false => simp only [begin, Extractor.content, Extractor.body?, hr]; rfl
  | true =>
      cases ht : node.text? with
      | some text =>
          have hc : x.content base node = x.read base none text := by
            simp only [Extractor.content, Extractor.body?, hr, ht, Except.bind]
          rw [hc, ← Extractor.declare_eq]
          simp only [begin, hr, ht]
          rcases x.declare base none text with ⟨_ | _, _⟩ <;> rfl
      | none =>
          cases hs : node.attribute? "src" with
          | none => simp only [begin, Extractor.content, Extractor.body?, hr, ht, hs]; rfl
          | some target =>
              cases hl : x.loader? with
              | none => simp only [begin, Extractor.content, Extractor.body?, hr, ht, hs, hl]; rfl
              | some loader =>
                  cases ha : Address.resolve base target with
                  | error e => simp only [begin, Extractor.content, Extractor.body?, hr, ht, hs, hl, ha]; rfl
                  | ok a =>
                      have hx : node.External base a := ⟨hr, ht, target, hs, ha⟩
                      simp [Extractor.request?, hl, hx.source?] at h

/-- A script whose text is there at once ends. -/
theorem begin_eq (h : x.wait base node = 0) :
    begin x base node = ended ((x.requesting base node).enroll (x.content base node)) := by
  cases hs : x.request? base node with
  | some a =>
      obtain ⟨loader, hl, ha⟩ := Option.bind_eq_some_iff.mp hs
      have hx := Extractor.source?_eq_some.mp ha
      rw [Extractor.wait, hl, ha] at h
      rw [begin_external hx hl, request, if_pos h, requesting_external hx hl]
      exact receive_eq hx hl
  | none =>
      have hx : x.requesting base node = x := by simp [Extractor.requesting, hs]
      rw [hx, begin_inner hs]

end ScriptTask

end ImportTree
