import ImportTree.Cli.Run
import ImportTree.Proofs.Analysis.Limit
import ImportTree.Proofs.Markup.Search

/-!
# Drawings tell trees apart

A drawing without colours has a line for every document of a tree, and from the lines one can tell how the documents are
nested, which of them are placeholders, and what each declares. What the lines of a document's imports begin with is
never that of a line behind them.
-/

namespace ImportTree

open Cli (unlines)

/-! ## Outlines -/

/-- What a drawing tells of an expanded document. -/
@[ext] structure Heading where
  address : String
  elements : List String
  modules : List String
deriving DecidableEq, Repr

/-- What a drawing tells of imports. -/
inductive Outline where
  | nil
  | placeholder (address : String) (rest : Outline)
  | expanded (heading : Heading) (imports rest : Outline)
deriving DecidableEq, Repr

def Page.heading (p : Page) : Heading :=
  ⟨p.address, p.elements.map (·.name), p.modules.map (·.name)⟩

def Imports.outline : Imports → Outline
  | .nil => .nil
  | .placeholder address rest => .placeholder address rest.outline
  | .expanded page imports rest => .expanded page.heading imports.outline rest.outline

/-- The heading of the root, and what the drawing tells of its imports. -/
def Tree.outline (t : Tree) : Heading × Outline :=
  (t.page.heading, t.imports.outline)

/-- Whether a text can be told from what a drawing puts around it. -/
def Legible (text : String) : Prop :=
  ∀ c ∈ [' ', '\n', ',', ']'], c ∉ text.toList

instance : DecidablePred Legible := fun text =>
  List.decidableBAll (· ∉ text.toList) [' ', '\n', ',', ']']

/-- Whether the address and the names of a document are legible. -/
structure Heading.Legible (h : Heading) : Prop where
  address : ImportTree.Legible h.address
  elements : ∀ name ∈ h.elements, ImportTree.Legible name
  modules : ∀ name ∈ h.modules, ImportTree.Legible name

instance : DecidablePred Heading.Legible := fun h =>
  decidable_of_iff ((ImportTree.Legible h.address ∧ ∀ name ∈ h.elements, ImportTree.Legible name) ∧
    ∀ name ∈ h.modules, ImportTree.Legible name) ⟨fun h => ⟨h.1.1, h.1.2, h.2⟩, fun h => ⟨⟨h.1, h.2⟩, h.3⟩⟩

def Outline.Legible : Outline → Prop
  | .nil => True
  | .placeholder address rest => ImportTree.Legible address ∧ rest.Legible
  | .expanded heading imports rest => heading.Legible ∧ imports.Legible ∧ rest.Legible

instance Outline.decidableLegible : DecidablePred Outline.Legible
  | .nil => inferInstanceAs (Decidable True)
  | .placeholder address rest =>
    have := decidableLegible rest
    inferInstanceAs (Decidable (ImportTree.Legible address ∧ rest.Legible))
  | .expanded heading imports rest =>
    have := decidableLegible imports
    have := decidableLegible rest
    inferInstanceAs (Decidable (heading.Legible ∧ imports.Legible ∧ rest.Legible))

/-! ## Lines of a text -/

theorem unlines_cons (line : String) (lines : List String) :
    (unlines (line :: lines)).toList = line.toList ++ '\n' :: (unlines lines).toList := by
  simp [unlines, String.toList_join]

/-- A text tells its lines. -/
theorem unlines_inj {lines lines' : List String} (h : ∀ line ∈ lines, '\n' ∉ line.toList)
    (h' : ∀ line ∈ lines', '\n' ∉ line.toList) (heq : unlines lines = unlines lines') : lines = lines' := by
  induction lines generalizing lines' with
  | nil =>
      cases lines' with
      | nil => rfl
      | cons line' lines' =>
          have := congrArg String.toList heq
          rw [unlines_cons] at this
          simp [unlines] at this
  | cons line lines ih =>
      cases lines' with
      | nil =>
          have := congrArg String.toList heq
          rw [unlines_cons] at this
          simp [unlines] at this
      | cons line' lines' =>
          obtain ⟨hline, hlines⟩ := List.forall_mem_cons.mp h
          obtain ⟨hline', hlines'⟩ := List.forall_mem_cons.mp h'
          have hlists := congrArg String.toList heq
          rw [unlines_cons, unlines_cons] at hlists
          obtain ⟨hfirst, hrest⟩ := append_cons_inj hline hline' hlists
          rw [String.toList_inj.mp hfirst, ih hlines hlines' (String.toList_inj.mp hrest)]

/-! ## Names in a line -/

/-- Names behind each other, as they stand between brackets. -/
def listed (names : List String) : List Char :=
  (String.intercalate ", " names).toList

theorem listed_cons_cons (a b : String) (names : List String) :
    listed (a :: b :: names) = a.toList ++ ',' :: ' ' :: listed (b :: names) := by
  simp [listed]

theorem listed_singleton (a : String) : listed [a] = a.toList := by
  simp [listed]

theorem listed_inj {names names' : List String} (hne : names ≠ []) (hne' : names' ≠ [])
    (h : ∀ name ∈ names, Legible name) (h' : ∀ name ∈ names', Legible name) (heq : listed names = listed names') :
    names = names' := by
  have comma {name : String} {names : List String} (h : ∀ a ∈ name :: names, Legible a) : ',' ∉ name.toList :=
    h name (List.mem_cons_self ..) ',' (by decide)
  induction names generalizing names' with
  | nil => exact absurd rfl hne
  | cons a names ih =>
      obtain ⟨a', names', rfl⟩ := List.exists_cons_of_ne_nil hne'
      -- Only where another name follows there is a comma.
      cases names with
      | nil =>
          cases names' with
          | nil =>
              rw [listed_singleton, listed_singleton] at heq
              rw [String.toList_inj.mp heq]
          | cons b' names' =>
              rw [listed_singleton, listed_cons_cons] at heq
              exact absurd (by simp [heq]) (comma h)
      | cons b names =>
          cases names' with
          | nil =>
              rw [listed_singleton, listed_cons_cons] at heq
              exact absurd (by simp [← heq]) (comma h')
          | cons b' names' =>
              rw [listed_cons_cons, listed_cons_cons] at heq
              obtain ⟨hname, hrest⟩ := append_cons_inj (comma h) (comma h') heq
              rw [String.toList_inj.mp hname, ih (by simp) (by simp) (List.forall_mem_cons.mp h).2
                (List.forall_mem_cons.mp h').2 (List.cons.inj hrest).2]

theorem notMem_listed {names : List String} {c : Char} (hc : c ≠ ',' ∧ c ≠ ' ') (h : ∀ name ∈ names, c ∉ name.toList) :
    c ∉ listed names := by
  induction names with
  | nil => simp [listed]
  | cons a names ih =>
      obtain ⟨ha, hnames⟩ := List.forall_mem_cons.mp h
      cases names with
      | nil => rwa [listed_singleton]
      | cons b names => simp [listed_cons_cons, ha, hc, ih hnames]

/-- Names in brackets behind an address, if there are any. -/
def bracketed (opening closing : Char) (names : List String) : List Char :=
  if names = [] then [] else ' ' :: opening :: (listed names ++ [closing])

/-- What stands behind the address of a document. -/
def Heading.summary (h : Heading) : List Char :=
  bracketed '[' ']' h.elements ++ bracketed '\x7b' '\x7d' h.modules

theorem summary_toList (p : Page) : (p.summary false).toList = p.heading.summary := by
  have hpart (opening closing : Char) (left right : String) (list : List Declaration)
      (hleft : left.toList = [' ', opening]) (hright : right.toList = [closing]) :
      (if list.isEmpty then "" else left ++ String.intercalate ", " (list.map (·.name)) ++ right).toList =
        bracketed opening closing (list.map (·.name)) := by
    cases list with
    | nil => rfl
    | cons d list => simp [bracketed, listed, hleft, hright]
  have helements := hpart '[' ']' " [" "]" (p.elements.map (·.toDeclaration)) (by simp) (by simp)
  have hmodules := hpart '\x7b' '\x7d' " \x7b" "\x7d" p.modules (by simp) (by simp)
  have hnames : (p.elements.map (·.toDeclaration)).map (·.name) = p.heading.elements := List.map_map ..
  rw [List.isEmpty_map] at helements
  rw [Page.summary, String.toList_append, Heading.summary]
  exact congrArg₂ (· ++ ·) (helements.trans (congrArg _ hnames)) hmodules

theorem bracketed_inj {opening closing : Char} {names names' : List String} (h : ∀ name ∈ names, Legible name)
    (h' : ∀ name ∈ names', Legible name) (heq : bracketed opening closing names = bracketed opening closing names') :
    names = names' := by
  unfold bracketed at heq
  split at heq
  next hnil =>
    split at heq
    next hnil' => rw [hnil, hnil']
    next => cases heq
  next hne =>
    split at heq
    next => cases heq
    next hne' => exact listed_inj hne hne' h h' (by simpa using heq)

theorem head_bracketed {opening closing : Char} {names : List String} :
    ∀ c ∈ (bracketed opening closing names).head?, c = ' ' := by
  unfold bracketed
  split <;> simp

theorem bracketed_append {opening closing : Char} {names : List String} (hne : names ≠ []) (rest : List Char) :
    bracketed opening closing names ++ rest = ' ' :: opening :: (listed names ++ closing :: rest) := by
  simp [bracketed, hne]

/-- Names in brackets are told from names in braces by the second character. -/
theorem bracketed_append_ne {names names' : List String} (hne : names ≠ []) (rest : List Char) :
    bracketed '[' ']' names ++ rest ≠ bracketed '\x7b' '\x7d' names' := by
  intro heq
  rw [bracketed_append hne, bracketed] at heq
  split at heq <;> simp at heq

theorem Heading.summary_inj {h h' : Heading} (hl : h.Legible) (hl' : h'.Legible) (heq : h.summary = h'.summary) :
    h.elements = h'.elements ∧ h.modules = h'.modules := by
  have closing {h : Heading} (hl : h.Legible) : ']' ∉ listed h.elements :=
    notMem_listed (by decide) fun name hname => hl.elements name hname ']' (by decide)
  have hnil {h : Heading} (hnil : h.elements = []) : h.summary = bracketed '\x7b' '\x7d' h.modules := by
    rw [summary, hnil]
    rfl
  by_cases hne : h.elements = [] <;> by_cases hne' : h'.elements = []
  · rw [hnil hne, hnil hne'] at heq
    exact ⟨hne.trans hne'.symm, bracketed_inj hl.modules hl'.modules heq⟩
  · rw [hnil hne] at heq
    exact absurd heq.symm (bracketed_append_ne hne' _)
  · rw [hnil hne'] at heq
    exact absurd heq (bracketed_append_ne hne _)
  · rw [summary, summary, bracketed_append hne, bracketed_append hne'] at heq
    obtain ⟨helements, hmodules⟩ := append_cons_inj (closing hl) (closing hl') (List.cons.inj (List.cons.inj heq).2).2
    exact ⟨listed_inj hne hne' hl.elements hl'.elements helements, bracketed_inj hl.modules hl'.modules hmodules⟩

theorem Heading.summary_ne (h : Heading) : h.summary ≠ " (*)".toList := by
  unfold summary bracketed
  split <;> split <;> simp

theorem Heading.head_summary (h : Heading) : ∀ c ∈ h.summary.head?, c = ' ' := by
  unfold summary
  cases hb : bracketed '[' ']' h.elements with
  | nil => exact head_bracketed
  | cons c cs =>
      have : ∀ c ∈ (bracketed '[' ']' h.elements).head?, c = ' ' := head_bracketed
      rw [hb] at this
      simpa using this

/-! ## Lines of a drawing -/

/-- An address ends at the first blank. -/
theorem address_inj {a a' : String} {label label' : List Char} (ha : Legible a) (ha' : Legible a')
    (hlabel : ∀ c ∈ label.head?, c = ' ') (hlabel' : ∀ c ∈ label'.head?, c = ' ')
    (heq : a.toList ++ label = a'.toList ++ label') : a = a' ∧ label = label' := by
  have hrun {a : String} (ha : Legible a) : ∀ c ∈ a.toList, (c != ' ') = true :=
    fun c hc => bne_iff_ne.mpr fun hblank => ha ' ' (by decide) (hblank ▸ hc)
  have hstop {label : List Char} (hlabel : ∀ c ∈ label.head?, c = ' ') : ∀ c ∈ label.head?, (c != ' ') = false :=
    fun c hc => by simp [hlabel c hc]
  have htake := congrArg (List.takeWhile (· != ' ')) heq
  rw [takeWhile_run (hrun ha) (hstop hlabel), takeWhile_run (hrun ha') (hstop hlabel')] at htake
  obtain rfl := String.toList_inj.mp htake
  exact ⟨rfl, List.append_cancel_left heq⟩

/-- The text of a line for a document, behind what the line begins with. -/
def Page.title (p : Page) : String :=
  p.address ++ p.summary false

theorem title_inj {p p' : Page} (hl : p.heading.Legible) (hl' : p'.heading.Legible) (heq : p.title = p'.title) :
    p.heading = p'.heading := by
  have hlists := congrArg String.toList heq
  rw [Page.title, Page.title, String.toList_append, String.toList_append, summary_toList, summary_toList] at hlists
  obtain ⟨haddress, hsummary⟩ :=
    address_inj hl.address hl'.address p.heading.head_summary p'.heading.head_summary hlists
  obtain ⟨helements, hmodules⟩ := Heading.summary_inj hl hl' hsummary
  exact Heading.ext haddress helements hmodules

theorem title_ne {p : Page} {a : String} (hl : p.heading.Legible) (ha : Legible a) : p.title ≠ a ++ " (*)" := by
  intro heq
  have hlists := congrArg String.toList heq
  rw [Page.title, String.toList_append, String.toList_append, summary_toList] at hlists
  obtain ⟨-, hsummary⟩ := address_inj hl.address ha p.heading.head_summary (by simp) hlists
  exact p.heading.summary_ne hsummary

namespace Imports

variable {imports imports' rest rest' : Imports} {start text text' address : String} {page : Page}
  {lines lines' : List String}

theorem drawing_placeholder (start address : String) (rest : Imports) :
    (placeholder address rest).drawing false start =
      (start ++ (rest.branch ++ (address ++ " (*)"))) :: rest.drawing false start := by
  simp [drawing, Report.paint, String.append_assoc]

theorem drawing_expanded (start : String) (page : Page) (imports rest : Imports) :
    (expanded page imports rest).drawing false start = (start ++ (rest.branch ++ page.title)) ::
      (imports.drawing false (start ++ rest.trunk) ++ rest.drawing false start) := by
  simp [drawing, Page.title, Report.paint, String.append_assoc]

/-- What joins an import to its document tells whether other imports follow, and is no part of what is below. -/
theorem branch_inj (h : rest.branch ++ text = rest'.branch ++ text') :
    rest.isEmpty = rest'.isEmpty ∧ text = text' := by
  have hlists := congrArg String.toList h
  simp only [branch] at hlists
  cases hr : rest.isEmpty <;> cases hr' : rest'.isEmpty <;>
    simp [hr, hr', String.toList_inj] at hlists ⊢ <;> exact hlists

theorem branch_ne_trunk (hrest' : rest'.isEmpty = false) : rest.branch ++ text ≠ rest'.trunk ++ text' := by
  intro h
  have hlists := congrArg String.toList h
  simp only [branch, trunk, hrest'] at hlists
  cases hr : rest.isEmpty <;> simp [hr] at hlists

/-- What a line below a document begins with, behind the beginning of the document's own line. -/
def marks : List String :=
  ["└── ", "├── ", "    ", "│   "]

/-- Whether the first of some lines, if there is one, is none of those below a document. -/
def Outdented (start : String) (lines : List String) : Prop :=
  ∀ line ∈ lines.head?, ∀ mark ∈ marks, ∀ text, line ≠ start ++ (mark ++ text)

theorem branch_mem (rest : Imports) : rest.branch ∈ marks := by
  unfold branch
  split <;> decide

theorem trunk_mem (rest : Imports) : rest.trunk ∈ marks := by
  unfold trunk
  split <;> decide

/-- Behind the lines below a document there is none that looks like them. -/
theorem outdented_drawing (rest : Imports) (h : Outdented start lines) :
    Outdented (start ++ rest.trunk) (rest.drawing false start ++ lines) := by
  have hinner (hrest : rest.isEmpty = false) {rest' : Imports} {text : String} {below : List String} :
      Outdented (start ++ rest.trunk) ((start ++ (rest'.branch ++ text)) :: below) := by
    rintro line ⟨⟩ mark - text' heq
    rw [String.append_assoc, String.append_right_inj] at heq
    exact branch_ne_trunk hrest heq
  cases rest with
  | nil =>
      intro line hline mark _ text heq
      exact h line hline _ (trunk_mem .nil) (mark ++ text) (by rw [heq, String.append_assoc])
  | placeholder address rest =>
      rw [drawing_placeholder]
      exact hinner rfl
  | expanded page imports rest =>
      rw [drawing_expanded]
      exact hinner rfl

theorem eq_nil_of_outdented (h : Outdented start (imports.drawing false start ++ lines)) : imports = .nil := by
  cases imports with
  | nil => rfl
  | placeholder address rest =>
      rw [drawing_placeholder] at h
      exact absurd rfl (h _ rfl _ rest.branch_mem _)
  | expanded page imports rest =>
      rw [drawing_expanded] at h
      exact absurd rfl (h _ rfl _ rest.branch_mem _)

/-- What is cancelled in the first line leaves the lines below it and those behind. -/
theorem first_inj (h : (start ++ (rest.branch ++ text)) :: lines = (start ++ (rest'.branch ++ text')) :: lines') :
    rest.isEmpty = rest'.isEmpty ∧ text = text' ∧ lines = lines' := by
  obtain ⟨hline, hbelow⟩ := List.cons.inj h
  obtain ⟨hempty, htext⟩ := branch_inj ((String.append_right_inj start).mp hline)
  exact ⟨hempty, htext, hbelow⟩

/-- The lines of imports tell their outline, and where they end. -/
theorem drawing_inj (hl : imports.outline.Legible) (hl' : imports'.outline.Legible) (ho : Outdented start lines)
    (ho' : Outdented start lines')
    (heq : imports.drawing false start ++ lines = imports'.drawing false start ++ lines') :
    imports.outline = imports'.outline ∧ lines = lines' := by
  induction imports generalizing imports' start lines lines' with
  | nil =>
      rw [drawing, List.nil_append] at heq
      obtain rfl := eq_nil_of_outdented (heq ▸ ho)
      exact ⟨rfl, heq⟩
  | placeholder address rest ih =>
      cases imports' with
      | nil =>
          rw [drawing, List.nil_append] at heq
          cases eq_nil_of_outdented (heq ▸ ho')
      | placeholder address' rest' =>
          rw [drawing_placeholder, drawing_placeholder] at heq
          obtain ⟨-, haddress, hbelow⟩ := first_inj heq
          obtain rfl := (String.append_left_inj _).mp haddress
          obtain ⟨hrest, hlines⟩ := ih hl.2 hl'.2 ho ho' hbelow
          exact ⟨congrArg (Outline.placeholder address) hrest, hlines⟩
      | expanded page' imports' rest' =>
          rw [drawing_placeholder, drawing_expanded] at heq
          exact absurd (first_inj heq).2.1.symm (title_ne hl'.1 hl.1)
  | expanded page imports rest ih₁ ih₂ =>
      cases imports' with
      | nil =>
          rw [drawing, List.nil_append] at heq
          cases eq_nil_of_outdented (heq ▸ ho')
      | placeholder address' rest' =>
          rw [drawing_placeholder, drawing_expanded] at heq
          exact absurd (first_inj heq).2.1 (title_ne hl.1 hl'.1)
      | expanded page' imports' rest' =>
          rw [drawing_expanded, drawing_expanded, List.cons_append, List.cons_append, List.append_assoc,
            List.append_assoc] at heq
          obtain ⟨hempty, htitle, hbelow⟩ := first_inj heq
          have hheading := title_inj hl.1 hl'.1 htitle
          have htrunk : rest'.trunk = rest.trunk := by rw [trunk, trunk, hempty]
          rw [htrunk] at hbelow
          have hout := outdented_drawing rest' ho'
          rw [htrunk] at hout
          obtain ⟨himports, hbehind⟩ := ih₁ hl.2.1 hl'.2.1 (outdented_drawing rest ho) hout hbelow
          obtain ⟨hrest, hlines⟩ := ih₂ hl.2.2 hl'.2.2 ho ho' hbehind
          refine ⟨?_, hlines⟩
          rw [outline, outline, hheading, himports, hrest]

/-! ## Entries -/

theorem hasPlaceholder_iff : imports.hasPlaceholder = true ↔ ∃ e ∈ imports.entries, e.expanded = false := by
  induction imports with
  | nil => simp [hasPlaceholder, entries]
  | placeholder address rest ih => simp [hasPlaceholder, entries]
  | expanded page imports rest ih₁ ih₂ => simp [hasPlaceholder, entries, ih₁, ih₂, or_and_right, exists_or]

end Imports

/-- The characters that show on which level an entry is. -/
def frameChars : List Char :=
  [' ', '│', '├', '└', '─']

/-- Whether a line is that of an entry: four characters of the frame for each level, the address and, if the entry is
a placeholder, the mark. -/
def Shows (e : LeveledEntry) (line : String) : Prop :=
  ∃ frame label : String, line = frame ++ (e.address ++ label) ∧ frame.length = 4 * e.level ∧
    (∀ c ∈ frame.toList, c ∈ frameChars) ∧ (label = " (*)" ↔ e.expanded = false)

theorem Page.shows (p : Page) {frame : String} {level : Nat} (hlength : frame.length = 4 * level)
    (hframe : ∀ c ∈ frame.toList, c ∈ frameChars) : Shows ⟨⟨p.address, true⟩, level⟩ (frame ++ p.title) := by
  refine ⟨frame, p.summary false, rfl, hlength, hframe, fun h => ?_, fun h => by cases h⟩
  exact absurd ((summary_toList p).symm.trans (congrArg _ h)) p.heading.summary_ne

namespace Imports

variable {start : String} {level : Nat}

theorem length_of_mem_marks : ∀ mark ∈ marks, mark.length = 4 := by
  decide

theorem frame_of_mem_marks : ∀ mark ∈ marks, mark.toList ⊆ frameChars := by
  decide

/-- A mark takes what a line begins with one level further. -/
theorem frame_append {mark : String} (hmark : mark ∈ marks) (hlength : start.length = 4 * level)
    (hframe : ∀ c ∈ start.toList, c ∈ frameChars) :
    (start ++ mark).length = 4 * (level + 1) ∧ ∀ c ∈ (start ++ mark).toList, c ∈ frameChars := by
  constructor
  · rw [String.length_append, hlength, length_of_mem_marks mark hmark, Nat.mul_succ]
  · rw [String.toList_append, List.forall_mem_append]
    exact ⟨hframe, frame_of_mem_marks mark hmark⟩

/-- There is a line for every entry, in the same order. -/
theorem drawing_shows (imports : Imports) (hlength : start.length = 4 * level)
    (hframe : ∀ c ∈ start.toList, c ∈ frameChars) :
    List.Forall₂ Shows (imports.leveled (level + 1)) (imports.drawing false start) := by
  induction imports generalizing start level with
  | nil => exact .nil
  | placeholder address rest ih =>
      rw [drawing_placeholder, leveled, ← String.append_assoc]
      obtain ⟨hlength', hframe'⟩ := frame_append rest.branch_mem hlength hframe
      exact .cons ⟨_, _, rfl, hlength', hframe', iff_of_true rfl rfl⟩ (ih hlength hframe)
  | expanded page imports rest ih₁ ih₂ =>
      rw [drawing_expanded, leveled, ← String.append_assoc]
      obtain ⟨hlength', hframe'⟩ := frame_append rest.branch_mem hlength hframe
      obtain ⟨hbelow, hbelow'⟩ := frame_append rest.trunk_mem hlength hframe
      exact .cons (page.shows hlength' hframe') (List.rel_append (ih₁ hbelow hbelow') (ih₂ hlength hframe))

end Imports

/-! ## Texts of drawings -/

theorem Page.newline_notMem_title {p : Page} (hl : p.heading.Legible) : '\n' ∉ p.title.toList := by
  have hbracketed {opening closing : Char} {names : List String} (hl : ∀ name ∈ names, ImportTree.Legible name)
      (hopening : '\n' ≠ opening) (hclosing : '\n' ≠ closing) : '\n' ∉ bracketed opening closing names := by
    have := notMem_listed (c := '\n') (by decide) fun name hname => hl name hname '\n' (by decide)
    unfold bracketed
    split <;> simp [*]
  rw [title, String.toList_append, summary_toList, Heading.summary]
  have haddress : '\n' ∉ p.address.toList := hl.address '\n' (by decide)
  simp [haddress, hbracketed hl.elements, hbracketed hl.modules]

theorem Imports.newline_notMem_drawing {imports : Imports} {start : String} (hl : imports.outline.Legible)
    (hstart : '\n' ∉ start.toList) : ∀ line ∈ imports.drawing false start, '\n' ∉ line.toList := by
  have hmark : ∀ mark ∈ marks, '\n' ∉ mark.toList := by decide
  induction imports generalizing start with
  | nil => simp [drawing]
  | placeholder address rest ih =>
      rw [drawing_placeholder, List.forall_mem_cons]
      refine ⟨?_, ih hl.2 hstart⟩
      simp [hstart, hmark _ rest.branch_mem, hl.1 '\n' (by decide)]
  | expanded page imports rest ih₁ ih₂ =>
      rw [drawing_expanded, List.forall_mem_cons, List.forall_mem_append]
      refine ⟨?_, ih₁ hl.2.1 ?_, ih₂ hl.2.2 hstart⟩
      · simp [hstart, hmark _ rest.branch_mem, Page.newline_notMem_title hl.1]
      · simp [hstart, hmark _ rest.trunk_mem]

namespace Tree

variable {t t' : Tree}

/-- Whether the addresses and the names of a tree are legible. -/
def Legible (t : Tree) : Prop :=
  t.page.heading.Legible ∧ t.imports.outline.Legible

/-- The lines of the documents of a tree. -/
def lines (t : Tree) : List String :=
  t.page.title :: t.imports.drawing false ""

/-- The lines below those of the documents, if there are any. -/
def footer (t : Tree) : List String :=
  if t.imports.hasPlaceholder then ["", legend] else []

theorem drawing_eq (t : Tree) : t.drawing false = t.lines ++ t.footer :=
  rfl

theorem outdented_footer (t : Tree) : Imports.Outdented "" t.footer := by
  unfold footer
  split
  next =>
    rintro line ⟨⟩ mark hmark text heq
    have := congrArg String.length heq
    rw [String.length_append, String.length_append, Imports.length_of_mem_marks mark hmark, String.length_empty] at this
    omega
  next => simp [Imports.Outdented]

theorem newline_notMem_drawing (hl : t.Legible) : ∀ line ∈ t.drawing false, '\n' ∉ line.toList := by
  have hfooter : ∀ line ∈ t.footer, '\n' ∉ line.toList := by
    unfold footer
    split <;> decide
  rw [drawing_eq, List.forall_mem_append, lines, List.forall_mem_cons]
  exact ⟨⟨Page.newline_notMem_title hl.1, Imports.newline_notMem_drawing hl.2 (by decide)⟩, hfooter⟩

theorem outline_eq_of_drawing (hl : t.Legible) (hl' : t'.Legible) (heq : t.drawing false = t'.drawing false) :
    t.outline = t'.outline := by
  obtain ⟨htitle, hlines⟩ := List.cons.inj heq
  obtain ⟨himports, -⟩ := Imports.drawing_inj hl.2 hl'.2 t.outdented_footer t'.outdented_footer hlines
  exact Prod.ext (title_inj hl.1 hl'.1 htitle) himports

/-- The drawing of a tree has a line for the root and one for every entry in depth-first order, and then the legend
exactly if there is a placeholder. Trees with the same drawing agree in nesting, addresses, placeholders and names. -/
theorem drawing_faithful (hl : t.Legible) :
    (∃ lines, Cli.unlines (t.drawing false) = Cli.unlines (lines ++
        if ∃ e ∈ t.imports.entries, e.expanded = false then ["", legend] else []) ∧
      (∀ line ∈ lines, '\n' ∉ line.toList) ∧
      List.Forall₂ Shows (⟨⟨t.page.address, true⟩, 0⟩ :: t.imports.leveled 1) lines) ∧
    ∀ t' : Tree, t'.Legible → Cli.unlines (t.drawing false) = Cli.unlines (t'.drawing false) →
      t.outline = t'.outline := by
  constructor
  · refine ⟨t.lines, ?_, fun line hline => ?_, .cons ?_ ?_⟩
    · simp only [drawing_eq, footer, Imports.hasPlaceholder_iff]
    · exact newline_notMem_drawing hl line (List.mem_append_left _ hline)
    · have hempty : "".length = 4 * 0 := rfl
      exact t.page.shows hempty (by simp)
    · exact t.imports.drawing_shows rfl (by simp)
  · intro t' hl' heq
    have hlines := unlines_inj (newline_notMem_drawing hl) (newline_notMem_drawing hl') heq
    exact outline_eq_of_drawing hl hl' hlines

/-- A document that is imported by what it imports. -/
def loop : Tree where
  page := ⟨"index.html", [⟨⟨"x-a", "index.html", none, 1, none⟩, none⟩], [⟨"Util", "index.html", none, 2, none⟩], {}⟩
  imports := .expanded ⟨"a.html", [], [], {}⟩ (.placeholder "index.html" .nil) .nil

theorem drawing_faithful_loop : loop.Legible ∧ ∀ t : Tree, t.Legible →
    Cli.unlines (t.drawing false) =
      "index.html [x-a] \x7bUtil\x7d\n└── a.html\n    └── index.html (*)\n\n(*) = already visited (see above)\n" →
    t.outline = (⟨"index.html", ["x-a"], ["Util"]⟩,
      .expanded ⟨"a.html", [], []⟩ (.placeholder "index.html" .nil) .nil) := by
  have hlegible : loop.Legible := ⟨by decide +kernel, by decide +kernel⟩
  refine ⟨hlegible, fun t hl heq => ?_⟩
  have hloop : Cli.unlines (loop.drawing false) = Cli.unlines (t.drawing false) :=
    Eq.trans (by decide +kernel) heq.symm
  exact ((drawing_faithful hlegible).2 t hl hloop).symm

end Tree

end ImportTree
