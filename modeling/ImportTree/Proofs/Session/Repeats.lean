import ImportTree.Proofs.Session.Prompt

/-!
# Repeated work

What a session has found it finds again: a goal that has been reached, or a walk that has ended, gives the same
result in every later session, which is left as it is.
-/

namespace ImportTree.Session

variable {A : String → Prop} {s t : Session} {a : String} {d : Document} {goal : Goal}
  {r : Except AnalysisError Unit}

/-! ## What has been found is not looked for again -/

theorem update_self (hs : s.Coherent) (hd : s.document? a = some d) : s.update a d = s := by
  have hdocs : s.documents.map (fun old => if old.address = a then d else old) = s.documents := by
    refine (List.map_congr_left fun old hold => ?_).trans (List.map_id s.documents)
    split
    next ha =>
      have hself := document?_of_mem hs.distinct hold
      rw [ha, hd] at hself
      exact Option.some.inj hself
    next => rfl
  rw [update, hdocs]

theorem pollMetadata_done {m : Except AnalysisError Metadata} (hs : s.Coherent) (hd : s.document? a = some d)
    (hm : d.extraction.result? = some m) : s.pollMetadata a = (some m, s) := by
  have hp : d.extraction.poll s.extractor a = (d.extraction, s.extractor) := by
    cases he : d.extraction with
    | running tasks => rw [he] at hm; cases hm
    | done _ => rfl
  rw [pollMetadata_some hd, hp, hm]
  exact congrArg (Prod.mk _) (update_self hs hd)

theorem pollImports_done {l : Except AnalysisError (List String)} (hd : s.document? a = some d)
    (hl : d.imports.result? = some l) : s.pollImports a = (some l, s) := by
  simp only [pollImports, hd, imports_eq_done hl]

/-! ## Goals -/

/-- Whether every later session reaches the goal at once, with the same result, and without any change. -/
def Repeats (s : Session) (goal : Goal) (r : Except AnalysisError Unit) : Prop :=
  ∀ t, s.Grows t → t.Coherent → t.pollGoal goal = (some r, t)

theorem repeats_load (h : s.holds a = true) : s.Repeats (.load a) (.ok ()) := by
  intro t hg _
  simp only [pollGoal, pollLoad, if_pos (hg.holds h)]

theorem repeats_metadata {m : Except AnalysisError Metadata} (hd : s.document? a = some d)
    (hm : d.extraction.result? = some m) : s.Repeats (.metadata a) (m.map fun _ => ()) := by
  intro t hg ht
  obtain ⟨e, he, hb⟩ := hg.documents hd
  simp only [pollGoal, pollMetadata_done ht he (hb.result hm)]
  cases m <;> rfl

theorem repeats_imports {l : Except AnalysisError (List String)} (hd : s.document? a = some d)
    (hl : d.imports.result? = some l) : s.Repeats (.imports a) (l.map fun _ => ()) := by
  intro t hg ht
  obtain ⟨e, he, hb⟩ := hg.documents hd
  simp only [pollGoal, pollImports_done he (hb.imports_result hl)]
  cases l <;> rfl

theorem repeats_undeclared {e : AnalysisError} (hd : s.document? a = some d)
    (hm : d.extraction.result? = some (.error e)) : s.Repeats (.both a) (.error e) := by
  intro t hg ht
  obtain ⟨d', hd', hb⟩ := hg.documents hd
  have hp := pollMetadata_done ht hd' (hb.result hm)
  rw [pollBoth_error (by rw [hp]), hp]

theorem repeats_both {m : Metadata} {l : Except AnalysisError (List String)} (hd : s.document? a = some d)
    (hm : d.extraction.result? = some (.ok m)) (hl : d.imports.result? = some l) :
    s.Repeats (.both a) (l.map fun _ => ()) := by
  intro t hg ht
  obtain ⟨e, he, hb⟩ := hg.documents hd
  have hp := pollMetadata_done ht he (hb.result hm)
  rw [pollBoth_ok (by rw [hp]), hp, pollImports_done he (hb.imports_result hl)]
  cases l <;> rfl

/-- While nothing is waited for, the declarations are found before the imports are looked for. Otherwise the imports
could fail first now, and the declarations later. -/
theorem pollBoth_repeats (hs : s.Coherent) (hp : s.Prompt) (hh : s.holds a = true)
    (hr : (s.pollGoal (.both a)).1 = some r) : (s.pollGoal (.both a)).2.Repeats (.both a) r := by
  obtain ⟨d, hd⟩ := holds_iff.mp hh
  obtain ⟨m, hm, _⟩ := hp.pollMetadata hd
  obtain ⟨d₁, hd₁, hm₁⟩ := Option.bind_eq_some_iff.mp ((pollMetadata_result s a).symm.trans hm)
  cases m with
  | error e =>
      rw [pollBoth_error hm] at hr ⊢
      cases hr
      exact repeats_undeclared hd₁ hm₁
  | ok m =>
      rw [pollBoth_ok hm] at hr ⊢
      have hi := pollImports_imported (fun _ => True) (hs.extract a) a
      obtain ⟨l, hl, rfl⟩ := outcome_eq_some hr
      obtain ⟨d₂, hd₂, hl₂⟩ := Option.bind_eq_some_iff.mp (hi.result.symm.trans hl)
      obtain ⟨d₃, hd₃, hb⟩ := hi.polls.changes.grows.documents hd₁
      cases hd₂.symm.trans hd₃
      exact repeats_both hd₂ (hb.result hm₁) hl₂

theorem pollGoal_repeats (hs : s.Coherent) (hp : s.Prompt) (hh : s.holds goal.address = true)
    (hr : (s.pollGoal goal).1 = some r) : (s.pollGoal goal).2.Repeats goal r := by
  have hc := (pollGoal_anywhere hs goal).reached hr
  cases goal with
  | load a =>
      simp only [pollGoal, pollLoad, if_pos (show s.holds a = true from hh)] at hr ⊢
      cases hr
      exact repeats_load hh
  | metadata a =>
      obtain ⟨m, hm, rfl⟩ := outcome_eq_some hr
      obtain ⟨d, hd, he⟩ := Option.bind_eq_some_iff.mp ((pollMetadata_result s a).symm.trans hm)
      exact repeats_metadata hd he
  | imports a =>
      obtain ⟨l, hl, rfl⟩ := outcome_eq_some hr
      have hi := (pollImports_imported (fun _ => True) hs a).result
      obtain ⟨d, hd, he⟩ := Option.bind_eq_some_iff.mp (hi.symm.trans hl)
      exact repeats_imports hd he
  | both a => exact pollBoth_repeats hs hp hh hr

/-- What has been waited for need not be waited for again. -/
theorem await_repeats (hs : s.Coherent) (hp : s.Prompt) (hh : s.holds goal.address = true)
    (hr : (s.await goal).1 = some r) : (s.await goal).2.Repeats goal r := by
  have hP := changes_upkeep (fun _ => True) s
  refine (hP.await (Q := fun r t => t.Repeats goal r) (fun {t} ht => ?_) ⟨hs, .refl⟩).2 hr
  have hpoll := (pollGoal_anywhere ht.1 goal).polls
  exact ⟨⟨ht.1.polls hpoll, ht.2.trans hpoll.changes⟩,
    pollGoal_repeats ht.1 (hp.changes ht.2) (ht.2.grows.holds hh)⟩

theorem Repeats.await (h : s.Repeats goal r) (hg : s.Grows t) (ht : t.Coherent) : t.await goal = (some r, t) := by
  simp only [Session.await, h t hg ht]

/-! ## Walks -/

section

variable {α β : Type} {p : Walk α}

/-- A walk from a session that every later session answers in the same way when it is walked `again`, and without any
change. -/
structure Lasts (s : Session) (p : Walk α) (again : Session → Walk α) : Prop where
  changes : Changes (fun _ => True) s p.2
  again : ∀ r t, p.1 = some r → p.2.Grows t → t.Coherent → again t = (some r, t)

theorem lasts_answered (v : α) : Lasts s (some (.ok v), s) fun t => (some (.ok v), t) where
  changes := .refl
  again _ _ hr _ _ := by cases hr; rfl

theorem lasts_stopped (again : Session → Walk α) : Lasts s (none, s) again where
  changes := .refl
  again _ _ hr := by cases hr

theorem lasts_await (hs : s.Coherent) (hp : s.Prompt) (hh : s.holds goal.address = true) :
    Lasts s (s.await goal) (·.await goal) where
  changes := (await_anywhere hs goal).changes
  again _ _ hr hg ht := (await_repeats hs hp hh hr).await hg ht

theorem Lasts.congr {again again' : Session → Walk α} (h : Lasts s p again)
    (ha : ∀ t, s.Grows t → again' t = again t) : Lasts s p again' where
  changes := h.changes
  again r t hr hg ht := (ha t (h.changes.grows.trans hg)).trans (h.again r t hr hg ht)

/-- A walk that goes on lasts if both of its parts do. -/
theorem Lasts.andThen {again : Session → Walk α} {next next' : α → Session → Walk β} (h : Lasts s p again)
    (hnext : ∀ v, p.1 = some (.ok v) → Lasts p.2 (next v p.2) (next' v)) :
    Lasts s (p.andThen next) fun t => (again t).andThen next' := by
  obtain ⟨_ | (e | v), u⟩ := p
  · exact ⟨h.changes, fun r t hr => by cases hr⟩
  · refine ⟨h.changes, fun r t hr hg ht => ?_⟩
    cases hr
    simp only [h.again _ t rfl hg ht]
    rfl
  · have hrest := hnext v rfl
    refine ⟨h.changes.trans hrest.changes, fun r t hr hg ht => ?_⟩
    simp only [h.again _ t rfl (hrest.changes.grows.trans hg) ht]
    exact hrest.again r t hr hg ht

end

/-! ## Depth first -/

section

variable {visit visit' : String → List String → Session → Walk (Tree × List String)}

theorem visitEach_lasts
    (hv : ∀ a visited s, Coherent s → s.Prompt → s.holds a = true → Lasts s (visit a visited s) (visit' a visited))
    (targets visited : List String) (hs : s.Coherent) (hp : s.Prompt) (ht : ∀ a ∈ targets, s.holds a = true) :
    Lasts s (visitEach visit targets visited s) (visitEach visit' targets visited) := by
  induction targets generalizing s visited with
  | nil => exact lasts_answered _
  | cons a rest ih =>
      have hrest {t : Session} (hc : Changes (fun _ => True) s t) (visited : List String) :=
        ih visited (hs.changes hc) (hp.changes hc) fun b hb => hc.grows.holds (ht b (List.mem_cons_of_mem _ hb))
      by_cases hmem : a ∈ visited
      · rw [visitEach_visited hmem]
        refine ((hrest .refl visited).andThen fun _ _ => ?_).congr fun _ _ => visitEach_visited hmem
        exact lasts_answered _
      · rw [visitEach_unvisited hmem]
        have ha : s.holds (Goal.load a).address = true := ht a (List.mem_cons_self ..)
        have hload := lasts_await hs hp ha
        refine (hload.andThen fun _ _ => ?_).congr fun _ _ => visitEach_unvisited hmem
        have hvisit := hv a (a :: visited) _ (hs.changes hload.changes) (hp.changes hload.changes)
          (hload.changes.grows.holds ha)
        refine hvisit.andThen fun _ _ => ?_
        exact (hrest (hload.changes.trans hvisit.changes) _).andThen fun _ _ => lasts_answered _

end

/-- What a document has been found to import is there. -/
theorem Coherent.holds_of_known {x : Page} {targets : List String} (hs : s.Coherent)
    (h : s.known a = some (x, targets)) : ∀ b ∈ targets, s.holds b = true := by
  obtain ⟨d, hd, hx⟩ := Option.bind_eq_some_iff.mp h
  obtain ⟨m, _, ht, _⟩ := expansion?_eq_some hx
  exact fun b hb => (hs.completes hd ht).present b hb

theorem visit_lasts {n m : Nat} (hnm : n ≤ m) (a : String) (visited : List String) (hs : s.Coherent) (hp : s.Prompt)
    (hh : s.holds a = true) : Lasts s (visit n a visited s) (visit m a visited) := by
  induction n generalizing s a visited m with
  | zero => exact lasts_stopped _
  | succ n ih =>
      obtain ⟨m, rfl⟩ := Nat.exists_eq_add_of_le' (Nat.le_trans (Nat.le_add_left 1 n) hnm)
      rw [visit_succ]
      have hboth := lasts_await hs hp (show s.holds (Goal.both a).address = true from hh)
      refine (hboth.andThen fun _ _ => ?_).congr fun _ _ => visit_succ ..
      have hc := hboth.changes
      have ht := hs.changes hc
      cases hk : (s.await (.both a)).2.known a with
      | none => exact lasts_stopped _
      | some x =>
          obtain ⟨page, targets⟩ := x
          have heach := visitEach_lasts (fun b l _ hs hp hb => ih (Nat.le_of_succ_le_succ hnm) b l hs hp hb)
            targets visited ht (hp.changes hc) (ht.holds_of_known hk)
          refine (heach.andThen fun _ _ => lasts_answered _).congr fun t hg => ?_
          rw [known_grows hk hg]

/-- A tree is built again in every later session that leaves as much room for it. -/
theorem tree_lasts {root : String} (hs : s.Coherent) (hp : s.Prompt) (hh : s.holds root = true)
    {r : Except AnalysisError Tree} (hr : (s.tree root).1 = some r) (hg : (s.tree root).2.Grows t) (ht : t.Coherent)
    (hb : s.walkBound ≤ t.walkBound) :
    t.tree root = (some r, t) := by
  have hvisit := visit_lasts hb root [root] hs hp hh
  rw [tree_eq] at hr hg ⊢
  exact (hvisit.andThen fun _ _ => lasts_answered _).again r t hr hg ht

/-! ## Breadth first -/

/-- What a document has been found to import is there. -/
theorem Coherent.holds_of_leads {targets : List String} (hs : s.Coherent) (h : s.leads a = some targets) :
    ∀ b ∈ targets, s.holds b = true := by
  obtain ⟨d, hd, ht⟩ := leads_eq_some.mp h
  exact fun b hb => (hs.completes hd ht).present b hb

theorem walkQueue_lasts {n m : Nat} (hnm : n ≤ m) (queue seen : List String) (hs : s.Coherent) (hp : s.Prompt)
    (hq : ∀ a ∈ queue, s.holds a = true) : Lasts s (walkQueue n queue seen s) (walkQueue m queue seen) := by
  induction n generalizing s queue seen m with
  | zero =>
      cases queue with
      | nil => exact (lasts_answered _).congr fun _ _ => by rw [walkQueue]
      | cons a queue => exact lasts_stopped _
  | succ n ih =>
      obtain ⟨m, rfl⟩ := Nat.exists_eq_add_of_le' (Nat.le_trans (Nat.le_add_left 1 n) hnm)
      cases queue with
      | nil => exact lasts_answered _
      | cons a queue =>
          rw [walkQueue_cons]
          have ha : s.holds (Goal.load a).address = true := hq a (List.mem_cons_self ..)
          have hload := lasts_await hs hp ha
          refine (hload.andThen fun _ _ => ?_).congr fun _ _ => walkQueue_cons ..
          have himports := lasts_await (hs.changes hload.changes) (hp.changes hload.changes)
            (show Session.holds _ (Goal.imports a).address = true from hload.changes.grows.holds ha)
          refine himports.andThen fun _ _ => ?_
          have hc := hload.changes.trans himports.changes
          have ht := hs.changes hc
          generalize ((s.await (.load a)).2.await (.imports a)).2 = u at *
          cases hk : u.leads a with
          | none => exact lasts_stopped _
          | some targets =>
              have hrest := ih (Nat.le_of_succ_le_succ hnm) (queue ++ unseen seen targets)
                (seen ++ unseen seen targets) ht (hp.changes hc) fun b hb => by
                  rcases List.mem_append.mp hb with hb | hb
                  · exact (Changes.grows hc).holds (hq b (List.mem_cons_of_mem _ hb))
                  · exact ht.holds_of_leads hk b (mem_unseen.mp hb).1
              refine (hrest.andThen fun _ _ => lasts_answered _).congr fun t hg => ?_
              rw [leads_grows hk hg]

/-- Dependencies are listed again in every later session that leaves as much room for them. -/
theorem dependencies_lasts {start : String} (hs : s.Coherent) (hp : s.Prompt) (hh : s.holds start = true)
    {r : Except AnalysisError (List String)} (hr : (s.dependencies start).1 = some r)
    (hg : (s.dependencies start).2.Grows t) (ht : t.Coherent) (hb : s.walkBound ≤ t.walkBound) :
    t.dependencies start = (some r, t) :=
  (walkQueue_lasts hb [start] [start] hs hp fun _ ha => List.mem_singleton.mp ha ▸ hh).again r t hr hg ht

end ImportTree.Session
