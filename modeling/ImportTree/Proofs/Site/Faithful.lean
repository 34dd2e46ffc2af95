import ImportTree.Proofs.Site.Scripts

/-!
# Sessions about a site

A session that only asks about what is reached from the root of a site finds what the site says, whatever the order
in which it asks. Its errors blame real defects, and its registries hold what its documents have declared.
-/

namespace ImportTree

namespace Site

variable {w : Site} {a b : String} {s t : Session} {d : Document} {x y : Extractor}

/-! ## Extractions -/

/-- How far the scripts of the document at an address can have come. -/
def TracesAll (w : Site) (a : String) (nodes : List Node) : Extraction → Prop
  | .running tasks => List.Forall₂ (w.Traces a) nodes tasks
  | .done (.ok declared) => w.gather? a nodes = some declared
  | .done (.error e) => w.Blames e

/-- The names of a kind that an extraction may still enter. -/
def extractionDues (w : Site) (a : String) (kind : Kind) (nodes : List Node) : Extraction → List String
  | .running tasks => w.dues a kind nodes tasks
  | .done _ => []

theorem gather?_traced {nodes : List Node} {tasks : List ScriptTask} {declared : Metadata}
    (h : List.Forall₂ (w.Traces a) nodes tasks) (hg : Extraction.gather? tasks = some declared) :
    w.gather? a nodes = some declared := by
  induction h generalizing declared with
  | nil => cases hg; rfl
  | @cons node task nodes tasks ht _ ih =>
      cases task with
      | fresh _ | waiting _ _ | failed _ => cases hg
      | done m =>
          obtain ⟨rest, hr, rfl⟩ := Option.map_eq_some_iff.mp hg
          have hm : w.script? a node = some m := ht
          simp [gather?, hm, ih hr]

theorem gather?_names {nodes : List Node} {declared : Metadata} (h : w.gather? a nodes = some declared) (k : Kind) :
    declared.names k = nodes.flatMap (w.scriptNames a k) := by
  induction nodes generalizing declared with
  | nil => cases h; cases k <;> rfl
  | cons node nodes ih =>
      obtain ⟨m, hm, hrest⟩ := Option.bind_eq_some_iff.mp h
      obtain ⟨rest, hr, rfl⟩ := Option.map_eq_some_iff.mp hrest
      rw [Metadata.names_append, List.flatMap_cons, ih hr, scriptNames, hm]
      rfl

theorem traced_start (w : Site) (a : String) (nodes : List Node) :
    List.Forall₂ (w.Traces a) nodes (nodes.map .fresh) := by
  induction nodes with
  | nil => exact .nil
  | cons node nodes ih => exact .cons rfl ih

theorem names_eq {m : Structure} (h : w.markup? a = some m) (k : Kind) :
    w.names k a = m.scripts.flatMap (w.scriptNames a k) := by
  rw [names, h]; rfl

/-- What a poll of the extraction of a document does: it is on its way as the site says, and what is entered leaves room
for what may still be entered. -/
theorem poll_settled {m : Structure} {e e' : Extraction} (hx : w.Serves x) (ha : w.Reaches a)
    (hm : w.markup? a = some m) (ht : w.TracesAll a m.scripts e) (helse : w.Elsewhere a x.registries)
    (hroom : ∀ k n, x.registries.count k n a + (w.extractionDues a k m.scripts e).count n ≤ (w.names k a).count n)
    (h : Extraction.Polled x a e (e', y)) :
    w.TracesAll a m.scripts e' ∧ ∀ k n,
      y.registries.count k n a + (w.extractionDues a k m.scripts e').count n ≤ (w.names k a).count n := by
  have hnodes : ∀ node ∈ m.scripts, w.Script a node := fun node hmem => ⟨ha, m, hm, hmem⟩
  have paid {tasks : List ScriptTask} {r : Except AnalysisError (List ScriptTask)}
      (ht : w.TracesAll a m.scripts (.running tasks)) (h : Extraction.TasksPolled a 0 x tasks (r, y))
      (hroom : ∀ k n, x.registries.count k n a + (w.dues a k m.scripts tasks).count n ≤ (w.names k a).count n) :
      w.Paid a m.scripts y.registries (fun _ _ => 0) r :=
    pollTasks_paid hx ha hnodes ht h helse hroom
  cases h with
  | known => exact ⟨ht, hroom⟩
  | failed h =>
      cases paid ht h hroom with
      | blamed he hle => exact ⟨he, hle⟩
  | finished h hg =>
      cases paid ht h hroom with
      | ok htraces hle =>
          refine ⟨gather?_traced htraces hg, fun k n => ?_⟩
          exact Nat.le_trans (Nat.add_le_add_left (Nat.zero_le _) _) (hle k n)
  | running h _ =>
      cases paid ht h hroom with
      | ok htraces hle => exact ⟨htraces, hle⟩

/-! ## Sessions -/

/-- What a session holds of a document of the site. -/
structure Settled (w : Site) (rs : Registries) (a : String) (d : Document) : Prop where
  reached : w.Reaches a
  traced : w.TracesAll a d.markup.scripts d.extraction
  entered : d.extraction.Entered a rs
  room : ∀ k n, rs.count k n a + (w.extractionDues a k d.markup.scripts d.extraction).count n ≤ (w.names k a).count n

/-- A session that has only found what the site says. -/
structure Faithful (w : Site) (s : Session) : Prop extends Mirrors w s where
  live : s.dropped = false
  /-- The root is given, and never fetched. -/
  given : s.fetches.lookup w.root = none
  settled : ∀ {a d}, s.document? a = some d → w.Settled s.extractor.registries a d
  unfetched : ∀ {a e}, s.fetched? a = some (.error e) → w.Blames e
  distinct : s.extractor.registries.Distinct
  absent : ∀ {a}, s.document? a = none → ∀ k n, s.extractor.registries.count k n a = 0

theorem Settled.count_le {rs : Registries} (h : w.Settled rs a d) (k : Kind) (n : String) :
    rs.count k n a ≤ (w.names k a).count n :=
  Nat.le_trans (Nat.le_add_right ..) (h.room k n)

theorem Faithful.count_le (h : w.Faithful s) (k : Kind) (n b : String) :
    s.extractor.registries.count k n b ≤ (w.names k b).count n := by
  cases hd : s.document? b with
  | none => rw [h.absent hd k n]; exact Nat.zero_le _
  | some d => exact (h.settled hd).count_le k n

theorem Faithful.reached_of_count (h : w.Faithful s) {k : Kind} {n b : String}
    (hc : 1 ≤ s.extractor.registries.count k n b) : w.Reaches b := by
  cases hd : s.document? b with
  | none => rw [h.absent hd k n] at hc; omega
  | some d => exact (h.settled hd).reached

/-! ## Changes -/

theorem Faithful.wanted (h : w.Faithful s) (ha : s.Wanted w.Reaches a) : w.Reaches a := by
  rcases ha with ha | ⟨b, d, targets, hd, ht, hmem⟩
  · exact ha
  · exact (h.settled hd).reached.tail (links_of_targets hd (h.markup hd) ht a hmem)

theorem Faithful.elsewhere (h : w.Faithful s) (a : String) : w.Elsewhere a s.extractor.registries :=
  ⟨fun _ => h.reached_of_count, fun _ k n => h.count_le k n _⟩

theorem settled_fresh {rs : Registries} {m : Structure} (ha : w.Reaches a) (hm : w.markup? a = some m)
    (hz : ∀ k n, rs.count k n a = 0) : w.Settled rs a (Document.fresh a m) where
  reached := ha
  traced := traced_start w a m.scripts
  entered := Extraction.entered_start m.scripts hz
  room k n := by
    rw [hz, Nat.zero_add, names_eq hm]
    exact Nat.le_of_eq (congrArg (List.count n) (dues_fresh m.scripts k))

/-- A fetch that fails blames a text that is missing or cannot be read. -/
theorem Faithful.fetch_blames {r : Option (Except AnalysisError Unit)} {e : AnalysisError} (h : w.Faithful s)
    (ha : w.Reaches a) (hroot : a ≠ w.root) (hf : s.Fetching a (r, t)) (he : t.fetched? a = some (.error e)) :
    w.Blames e := by
  obtain ⟨delay, hloader⟩ := h.serves.loader
  cases hf with
  | known _ => exact h.unfetched he
  | pending _ _ => exact h.unfetched he
  | asked _ _ _ _ => simp [Session.fetched?] at he
  | refused _ hw =>
      rcases hw with hw | hw
      · rw [h.live] at hw; cases hw
      · rw [hloader] at hw; cases hw
  | late _ _ _ hw => rw [h.live] at hw; cases hw
  | failed _ hl hfailure =>
      cases hloader.symm.trans hl
      simp only [Session.fetched?, lookup_cons, if_pos, Option.some.injEq, Except.error.injEq] at he
      subst he
      rcases Relation.ReflTransGen.cases_tail ha with hr | ⟨b, hb, hlink⟩
      · exact absurd hr hroot
      · exact .missing hb hlink hroot (loader_failure hfailure)
  | @answered u _ _ _ _ hu hl htext _ hres =>
      cases hloader.symm.trans hl
      have hread : u.readMarkup = w.readers.markup := by rw [← h.readMarkup]; cases hu <;> rfl
      simp only [Session.fetched?, lookup_cons, if_pos, Option.some.injEq] at he
      subst he
      cases hres with
      | unreadable _ hfault => exact .unreadable ha hroot (loader_answer.mp htext) (hread ▸ hfault)

theorem Faithful.fetch (h : w.Faithful s) (ha : s.Fetchable w.Reaches a) : w.Faithful (s.pollFetch a).2 := by
  have hf := Session.pollFetch_fetching s a
  have hrs := hf.registries
  have hreached := h.wanted ha.wanted
  have hroot : a ≠ w.root := by
    rintro rfl
    rcases ha.absent with hh | hh
    · rw [h.root] at hh; cases hh
    · rw [h.given] at hh; cases hh
  have hm : w.Mirrors (s.pollFetch a).2 := h.toMirrors.changes (.single (.poll (.fetch ha)))
  refine ⟨hm, hf.steady.dropped.trans h.live, ?_, fun {b d} hd => ?_, fun {b e} he => ?_, hrs ▸ h.distinct,
    fun {b} hd k n => ?_⟩
  · rw [hf.fetched (Ne.symm hroot)]
    exact h.given
  · rw [hrs]
    rcases hf.document?_eq hd with hs | ⟨hn, rfl, _, _, m, _, _, _, rfl⟩
    · exact h.settled hs
    · exact settled_fresh hreached (hm.markup hd) (h.absent hn)
  · by_cases hba : b = a
    · subst hba
      exact h.fetch_blames hreached hroot hf he
    · rw [Session.fetched?, hf.fetched hba] at he
      exact h.unfetched he
  · rw [hrs]
    refine h.absent ?_ k n
    cases hs : s.document? b with
    | none => rfl
    | some d =>
        obtain ⟨e, he, _⟩ := hf.grows.documents hs
        cases hd.symm.trans he

theorem Settled.retains {rs rs' : Registries} {e : Document} (h : w.Settled rs a d) (hm : e.markup = d.markup)
    (he : e.extraction = d.extraction) (hc : ∀ k n, rs'.count k n a = rs.count k n a) : w.Settled rs' a e where
  reached := h.reached
  traced := by rw [hm, he]; exact h.traced
  entered := by rw [he]; exact h.entered.congr hc
  room k n := by rw [hm, he, hc]; exact h.room k n

theorem Faithful.extract (h : w.Faithful s) (a : String) : w.Faithful (s.pollMetadata a).2 := by
  cases hd : s.document? a with
  | none => rw [Session.pollMetadata_none hd]; exact h
  | some d =>
      have hsteady := Session.steady_pollMetadata s a
      have hframe := (Session.pollMetadata_frame s a).1
      have hs := h.settled hd
      have hpolled : Extraction.Polled s.extractor a d.extraction
          ((d.extraction.poll s.extractor a).1, (d.extraction.poll s.extractor a).2) := Extraction.poll_cases ..
      have hx : (s.pollMetadata a).2.extractor = (d.extraction.poll s.extractor a).2 := by
        rw [Session.pollMetadata_some hd]; rfl
      obtain ⟨htraced, hroom⟩ :=
        poll_settled h.serves hs.reached (h.markup hd) hs.traced (h.elsewhere a) hs.room hpolled
      have hf : (s.pollMetadata a).2.fetches = s.fetches := by rw [hframe]
      refine ⟨h.toMirrors.changes (.single (.poll .extract) : Session.Changes w.Reaches s _),
        hsteady.dropped.trans h.live, hf ▸ h.given, fun {b e} he => ?_, fun {b e} he => ?_,
        hx ▸ hpolled.distinct h.distinct, fun {b} hb k n => ?_⟩
      · rw [Session.document?_pollMetadata] at he
        rw [hx]
        split at he
        next hba =>
          subst hba
          rw [hd] at he
          cases he
          exact ⟨hs.reached, htraced, hpolled.entered hs.entered, hroom⟩
        next hba => exact (h.settled he).retains rfl rfl fun k n => hpolled.other k n b hba
      · rw [Session.fetched?, hf] at he
        exact h.unfetched he
      · rw [Session.document?_pollMetadata] at hb
        have hba : b ≠ a := by
          rintro rfl
          rw [if_pos rfl, hd] at hb
          cases hb
        rw [if_neg hba] at hb
        rw [hx, hpolled.other k n b hba]
        exact h.absent hb k n

theorem Faithful.note {walk : ImportWalk} (h : w.Faithful s) (hm : w.Mirrors (s.setImports a walk)) :
    w.Faithful (s.setImports a walk) := by
  have hsteady := Session.steady_setImports (s := s) (a := a) walk
  have hx : (s.setImports a walk).extractor = s.extractor := by rw [Session.setImports_eq]
  have hf : (s.setImports a walk).fetches = s.fetches := by rw [Session.setImports_eq]
  refine ⟨hm, hsteady.dropped.trans h.live, hf ▸ h.given, fun {b e} he => ?_, fun {b e} he => ?_,
    hx ▸ h.distinct, fun {b} hb k n => ?_⟩
  · rw [Session.document?_setImports] at he
    rw [hx]
    split at he
    next =>
      obtain ⟨d, hd, rfl⟩ := Option.map_eq_some_iff.mp he
      exact (h.settled hd).retains rfl rfl fun _ _ => rfl
    next => exact h.settled he
  · rw [Session.fetched?, hf] at he
    exact h.unfetched he
  · rw [Session.document?_setImports] at hb
    rw [hx]
    refine h.absent ?_ k n
    split at hb
    next => simpa using hb
    next => exact hb

theorem Faithful.change (h : w.Faithful s) (hc : Session.Change w.Reaches s t) : w.Faithful t := by
  have hm := h.toMirrors.changes (.single hc)
  cases hc with
  | poll hp =>
      cases hp with
      | fetch ha => exact h.fetch ha
      | extract => exact h.extract _
      | note _ _ _ => exact h.note hm
      | queue => exact ⟨hm, h.live, h.given, h.settled, h.unfetched, h.distinct, h.absent⟩
  | advance _ => exact ⟨hm, h.live, h.given, h.settled, h.unfetched, h.distinct, h.absent⟩

theorem Faithful.changes (h : w.Faithful s) (hc : Session.Changes w.Reaches s t) : w.Faithful t := by
  induction hc with
  | refl => exact h
  | tail _ hc ih => exact ih.change hc

/-! ## What a faithful session knows -/

/-- Whatever error a session knows of blames a defect of the site. -/
theorem Faithful.blames {e : AnalysisError} (h : w.Faithful s) (hs : s.Coherent) (he : s.Knows e) : w.Blames e := by
  have undeclared {a d e} (hd : s.document? a = some d) (hr : d.extraction.result? = some (.error e)) :
      w.Blames e := by
    have ht := (h.settled hd).traced
    cases hx : d.extraction with
    | running tasks => rw [hx] at hr; cases hr
    | done r =>
        rw [hx] at hr ht
        cases hr
        exact ht
  cases he with
  | unfetched he => exact h.unfetched he
  | undeclared hd hr => exact undeclared hd hr
  | @unimported a d _ hd hr =>
      have hallowed := hs.allowed hd
      rw [Session.imports_eq_done hr] at hallowed
      have hset := h.settled hd
      cases hallowed with
      | undeclared hr => exact undeclared hd hr
      | unfetched _ _ he => exact h.unfetched he
      | detached hdrop => rw [h.live] at hdrop; cases hdrop
      | unresolvable ht =>
          rw [Session.imported, if_pos h.serves.isSome, Document.targets, Session.document?_address hd] at ht
          obtain ⟨target, hmem, hf⟩ := mapM_error ht
          exact .unresolvable hset.reached (h.markup hd) hmem hf

/-- What a session knows of an address is what the site says of it. -/
theorem Faithful.known {v : Page × List String} (h : w.Faithful s) (hs : s.Coherent) (hk : s.known a = some v) :
    w.known a = some v := by
  obtain ⟨d, hd, hv⟩ := Option.bind_eq_some_iff.mp hk
  obtain ⟨page, targets⟩ := v
  obtain ⟨declared, hr, ht, rfl⟩ := Session.expansion?_eq_some hv
  have hset := h.settled hd
  have himported := (hs.completes hd ht).imported
  have htraced := hset.traced
  have haddress := Session.document?_address hd
  rw [Session.imported, if_pos h.serves.isSome, Document.targets, haddress] at himported
  have hgather : w.gather? a d.markup.scripts = some declared := by
    cases hx : d.extraction with
    | running tasks => rw [hx] at hr; cases hr
    | done r =>
        rw [hx] at hr htraced
        cases hr
        exact htraced
  simp [Site.known, h.markup hd, hgather, himported, Except.toOption, Session.page, Document.fresh, haddress]

end Site

end ImportTree
