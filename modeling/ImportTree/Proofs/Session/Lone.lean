import ImportTree.Proofs.Session.InOrder

/-!
# Lone documents

A session without a loader has nothing but its root, unless it is given more. All that it can be asked for is what the
scripts of the root declare and that the root imports nothing.
-/

namespace ImportTree.Session

variable {s : Session} {root a : String} {markup : Structure} {parts : List Metadata}

/-! ## One document -/

/-- A document whose scripts have declared something, and whose imports have come this far. -/
def declaring (root : String) (markup : Structure) (parts : List Metadata) (imports : ImportWalk) : Document where
  address := root
  markup := markup
  extraction := .done (.ok (Metadata.join parts))
  imports := imports

/-- Where a session stands with its only document: all of its scripts can still declare their part, or have done so. -/
inductive Stage (root : String) (markup : Structure) (parts : List Metadata) (x : Extractor) : Document → Prop where
  | fresh : x.Declares root markup.scripts parts → Stage root markup parts x (.fresh root markup)
  | declared {w : ImportWalk} : w = .idle ∨ w = .done (.ok []) →
      Stage root markup parts x (declaring root markup parts w)

/-- A session of one document whose scripts declare these parts, without a loader. -/
structure Lone (root : String) (markup : Structure) (parts : List Metadata) (s : Session) : Prop where
  coherent : s.Coherent
  loader : s.extractor.loader? = none
  document : ∃ d, s.documents = [d] ∧ Stage root markup parts s.extractor d

theorem Stage.address {x : Extractor} {d : Document} (h : Stage root markup parts x d) : d.address = root := by
  cases h <;> rfl

theorem Stage.extractor {x y : Extractor} {d : Document} (h : Stage root markup parts x d)
    (hr : y.registries = x.registries) (hc : y.content root = x.content root) : Stage root markup parts y d := by
  cases h with
  | fresh h => exact .fresh ⟨hc ▸ h.contents, hr ▸ h.admitted⟩
  | declared hw => exact .declared hw

theorem Stage.imports {x : Extractor} {d : Document} (h : Stage root markup parts x d) :
    d.imports = .idle ∨ d.imports = .done (.ok []) := by
  cases h with
  | fresh _ => exact .inl rfl
  | declared hw => exact hw

theorem Lone.elsewhere (h : s.Lone root markup parts) (ha : a ≠ root) : s.document? a = none := by
  obtain ⟨d, hd, hstage⟩ := h.document
  simpa [document?, hd, hstage.address] using Ne.symm ha

theorem document?_declaring {w : ImportWalk} (h : s.documents = [declaring root markup parts w]) :
    s.document? root = some (declaring root markup parts w) := by
  simp only [document?, h]
  simp [declaring]

/-! ## Polls -/

/-- The scripts of the only document declare their parts when they are polled, or have done so. -/
theorem Lone.pollMetadata (h : s.Lone root markup parts) : ∃ d, s.document? root = some d ∧
    Stage root markup parts s.extractor d ∧ (s.pollMetadata root).1 = some (.ok (Metadata.join parts)) ∧
    (s.pollMetadata root).2.Lone root markup parts ∧
    (s.pollMetadata root).2.documents = [declaring root markup parts d.imports] := by
  obtain ⟨d, hdocs, hstage⟩ := h.document
  have hd : s.document? root = some d := by simp [document?, hdocs, hstage.address]
  have hprompt : s.extractor.Prompt := by
    intro loader hloader
    cases h.loader.symm.trans hloader
  obtain ⟨hdeclaring, hp⟩ : { d with extraction := .done (.ok (Metadata.join parts)) } =
      declaring root markup parts d.imports ∧
      (d.extraction.poll s.extractor root).1 = .done (.ok (Metadata.join parts)) := by
    cases hstage with
    | fresh hx =>
        refine ⟨rfl, ?_⟩
        simp only [Document.fresh, Extraction.start, Extraction.poll, Extraction.pollTasks_declares hprompt hx,
          Extraction.gather?_done]
    | declared _ => exact ⟨rfl, rfl⟩
  have hdocs' : (s.pollMetadata root).2.documents = [declaring root markup parts d.imports] := by
    rw [pollMetadata_some hd, hp, hdeclaring]
    simp [update, hdocs, hstage.address]
  exact ⟨d, hd, hstage, by rw [pollMetadata_some hd, hp]; rfl,
    ⟨h.coherent.extract root, (steady_pollMetadata s root).loader.trans h.loader, _, hdocs', .declared hstage.imports⟩,
    hdocs'⟩

theorem Lone.pollMetadata_keeps (h : s.Lone root markup parts) (a : String) :
    (s.pollMetadata a).2.Lone root markup parts := by
  by_cases ha : a = root
  · obtain ⟨_, _, _, _, ht, _⟩ := h.pollMetadata
    exact ha ▸ ht
  · rw [pollMetadata_none (h.elsewhere ha)]
    exact h

theorem beginWalk_declared {d : Document} {m : Metadata} (hl : s.extractor.loader? = none)
    (hm : (s.pollMetadata d.address).1 = some (.ok m)) :
    s.beginWalk d = (s.pollMetadata d.address).2.endWalk d.address (.ok []) := by
  simp only [beginWalk, hl]
  cases hc : s.pollMetadata d.address with
  | mk r t =>
      rw [hc] at hm
      cases hm
      rfl

theorem Lone.endWalk (h : s.Lone root markup parts) (hdocs : s.documents = [declaring root markup parts .idle]) :
    (s.endWalk root (.ok [])).2.Lone root markup parts ∧
      (s.endWalk root (.ok [])).2.documents = [declaring root markup parts (.done (.ok []))] := by
  have hd := document?_declaring hdocs
  have hset : (s.endWalk root (.ok [])).2.documents = [declaring root markup parts (.done (.ok []))] := by
    simp only [Session.endWalk, setImports, hd, update, hdocs]
    simp [declaring]
  refine ⟨⟨h.coherent.note hd .idle ⟨?_, ?_, _, rfl⟩, ?_, _, hset, .declared (.inr rfl)⟩, hset⟩
  · rw [imported, h.loader]
    rfl
  · intro b hb
    cases hb
  · exact (steady_setImports _).loader.trans h.loader

theorem Lone.pollImports (h : s.Lone root markup parts) : (s.pollImports root).1 = some (.ok []) ∧
    (s.pollImports root).2.Lone root markup parts ∧
    (s.pollImports root).2.document? root = some (declaring root markup parts (.done (.ok []))) := by
  obtain ⟨d, hd, hstage, hm, ht, hdocs⟩ := h.pollMetadata
  have hwalk (hi : d.imports = .idle) : s.pollImports root = (s.pollMetadata root).2.endWalk root (.ok []) := by
    simp only [Session.pollImports, hd, hi]
    rw [← document?_address hd] at hm ⊢
    exact beginWalk_declared h.loader hm
  rcases hstage.imports with hi | hi
  · rw [hi] at hdocs
    obtain ⟨hlone, hend⟩ := ht.endWalk hdocs
    rw [hwalk hi]
    exact ⟨rfl, hlone, document?_declaring hend⟩
  · have hdone : s.pollImports root = (some (.ok []), s) := by simp only [Session.pollImports, hd, hi]
    rw [hdone]
    cases hstage with
    | fresh _ => cases hi
    | declared _ => exact ⟨rfl, h, hi ▸ hd⟩

theorem Lone.pollImports_keeps (h : s.Lone root markup parts) (a : String) :
    (s.pollImports a).2.Lone root markup parts := by
  by_cases ha : a = root
  · exact ha ▸ h.pollImports.2.1
  · simp only [Session.pollImports, h.elsewhere ha]
    exact h

theorem Lone.pollFetch_keeps (h : s.Lone root markup parts) (a : String) :
    (s.pollFetch a).2.Lone root markup parts := by
  -- Without a loader a fetch fails, and changes nothing but what is known of it.
  have hs := h.coherent.fetch a
  have hsame : (s.pollFetch a).2.documents = s.documents ∧ (s.pollFetch a).2.extractor = s.extractor := by
    unfold pollFetch endFetch
    rw [h.loader]
    split <;> simp_all
  refine ⟨hs, hsame.2 ▸ h.loader, ?_⟩
  rw [hsame.1, hsame.2]
  exact h.document

/-! ## Time and goals -/

theorem lone_upkeep (root : String) (markup : Structure) (parts : List Metadata) : Upkeep (Lone root markup parts) where
  coherent h := h.coherent
  worked h := by
    refine drain_keeps (fun a h => h.pollImports_keeps a) (fun queue h => ?_) _ _ h
    exact ⟨h.coherent.polls (A := fun _ => True) (.single .queue), h.loader, h.document⟩
  advanced ht h := by
    obtain ⟨d, hdocs, hstage⟩ := h.document
    exact ⟨h.coherent.change (A := fun _ => True) (.advance ht), h.loader, d, hdocs, hstage.extractor rfl rfl⟩

theorem Lone.pollGoal_keeps (h : s.Lone root markup parts) (goal : Goal) :
    (s.pollGoal goal).2.Lone root markup parts := by
  cases goal with
  | load a =>
      simp only [pollGoal, pollLoad]
      split
      next => exact h
      next => exact h.pollFetch_keeps a
  | metadata a => exact h.pollMetadata_keeps a
  | imports a => exact h.pollImports_keeps a
  | both a =>
      by_cases ha : a = root
      · obtain ⟨_, _, _, hm, ht, _⟩ := h.pollMetadata
        rw [ha, pollBoth_ok hm]
        exact ht.pollImports_keeps root
      · simp only [pollGoal, pollMetadata_none (h.elsewhere ha), Session.pollImports, h.elsewhere ha]
        exact h

/-- Whoever asks for imports of the only document learns at once that there are none. -/
theorem Lone.await (h : s.Lone root markup parts) {goal : Goal} (hg : goal = .imports root ∨ goal = .both root) :
    ∃ t, s.await goal = (some (.ok ()), t) ∧
      t.document? root = some (declaring root markup parts (.done (.ok []))) := by
  have polled : (s.pollGoal goal).1 = some (.ok ()) ∧
      (s.pollGoal goal).2.document? root = some (declaring root markup parts (.done (.ok []))) := by
    rcases hg with rfl | rfl
    · obtain ⟨hr, _, hd⟩ := h.pollImports
      exact ⟨congrArg outcome hr, hd⟩
    · obtain ⟨_, _, _, hm, ht, _⟩ := h.pollMetadata
      obtain ⟨hr, _, hd⟩ := ht.pollImports
      rw [pollBoth_ok hm]
      exact ⟨congrArg outcome hr, hd⟩
  refine ⟨(s.pollGoal goal).2, ?_, polled.2⟩
  unfold Session.await
  cases hc : s.pollGoal goal with
  | mk r t =>
      rw [hc] at polled
      cases polled.1
      rfl

/-! ## Walks -/

theorem Lone.tree (h : s.Lone root markup parts) :
    (s.tree root).1 = some (.ok ⟨page (declaring root markup parts .idle) (Metadata.join parts), .nil⟩) := by
  obtain ⟨t, hawait, hd⟩ := h.await (.inr rfl)
  have hk : t.known root = some (page (declaring root markup parts .idle) (Metadata.join parts), []) := by
    rw [known, hd]
    rfl
  rw [tree_eq, walkBound, visit_succ, hawait]
  simp [Walk.andThen, hk, visitEach]

theorem Lone.dependencies (h : s.Lone root markup parts) : (s.dependencies root).1 = some (.ok []) := by
  have hload : s.await (.load root) = (some (.ok ()), s) := by
    obtain ⟨d, hd, _⟩ := h.pollMetadata
    have hpoll : s.pollGoal (.load root) = (some (.ok ()), s) := by
      simp only [pollGoal, pollLoad, if_pos (holds_iff.mpr ⟨d, hd⟩)]
    simp only [Session.await, hpoll]
  obtain ⟨t, hawait, hd⟩ := h.await (.inl rfl)
  have hk : t.leads root = some [] := leads_eq_some.mpr ⟨_, hd, rfl⟩
  rw [Session.dependencies, walkBound, walkQueue_cons, hload]
  simp [Walk.andThen, hawait, hk, unseen, walkQueue]

end ImportTree.Session
