import ImportTree.Proofs.Session.InOrder
import Mathlib.Data.List.Sort

/-!
# Arrival of scripts

Where texts come after a while, scripts are read and entered in the order in which their texts come, and in script
order where they come together. What they declare is put together in script order all the same.
-/

namespace ImportTree

/-! ## Sorting by a key -/

section Keys

variable {α : Type} {key : α → Nat} {l : List α}

theorem pairwise_insertionSort_key (key : α → Nat) (l : List α) :
    (l.insertionSort fun a b => key a ≤ key b).Pairwise fun a b => key a ≤ key b := by
  have : Std.Total fun a b : α => key a ≤ key b := ⟨fun a b => Nat.le_total ..⟩
  have : IsTrans α fun a b => key a ≤ key b := ⟨fun _ _ _ => Nat.le_trans⟩
  exact List.pairwise_insertionSort _ l

/-- A list that is sorted by a key falls into two parts at any bound. -/
theorem filter_append_filter_of_pairwise (h : l.Pairwise fun a b => key a ≤ key b) (t : Nat) :
    l.filter (key · ≤ t) ++ l.filter (t < key ·) = l := by
  induction l with
  | nil => rfl
  | cons a l ih =>
      obtain ⟨ha, hl⟩ := List.pairwise_cons.mp h
      by_cases hk : key a ≤ t
      · simp [hk, Nat.not_lt.mpr hk, ih hl]
      · have hlate : ∀ b ∈ l, t < key b := fun b hb => Nat.lt_of_lt_of_le (Nat.lt_of_not_le hk) (ha b hb)
        have hnone : l.filter (key · ≤ t) = [] := by simpa using hlate
        have hall : l.filter (t < key ·) = l := by simpa using hlate
        simp [hk, hnone, hall, Nat.lt_of_not_le hk]

/-- Sorting by a key keeps the order of whatever has the same key. -/
theorem filter_insertionSort_key {p : α → Bool} {k : Nat} (h : ∀ a ∈ l, p a = true → key a = k) :
    (l.insertionSort fun a b => key a ≤ key b).filter p = l.filter p := by
  have hp : (l.filter p).Pairwise fun a b => key a ≤ key b := by
    refine List.pairwise_iff_forall_sublist.mpr fun {a b} hab => ?_
    have hkey : ∀ c ∈ [a, b], key c = k := fun c hc =>
      have hmem := List.mem_filter.mp (hab.subset hc)
      h c hmem.1 hmem.2
    exact (hkey a (by simp)).trans_le (hkey b (by simp)).ge
  have hsub := (List.sublist_insertionSort hp List.filter_sublist).filter p
  rw [List.filter_filter] at hsub
  simp only [Bool.and_self] at hsub
  exact (hsub.eq_of_length (((List.perm_insertionSort _ l).filter p).length_eq.symm)).symm

end Keys

namespace Extractor

variable {x : Extractor} {base : String} {node : Node} {scripts : List Node} {t t' : Nat}

/-! ## The order of arrival -/

/-- Scripts in the order in which their texts are there: those that wait for nothing first, in script order. -/
def arrivals (x : Extractor) (base : String) (scripts : List Node) : List Node :=
  scripts.insertionSort fun a b => x.wait base a ≤ x.wait base b

/-- Those that wait longer than a time. -/
def awaited (x : Extractor) (base : String) (scripts : List Node) (t : Nat) : List Node :=
  (x.arrivals base scripts).filter (t < x.wait base ·)

theorem mem_awaited : node ∈ x.awaited base scripts t ↔ node ∈ scripts ∧ t < x.wait base node := by
  simp [awaited, arrivals]

theorem arrivals_perm : (x.arrivals base scripts).Perm scripts :=
  List.perm_insertionSort ..

theorem arrivals_eq_self {k : Nat} (h : ∀ node ∈ scripts, x.wait base node = k) :
    x.arrivals base scripts = scripts := by
  refine List.Pairwise.insertionSort_eq (List.pairwise_iff_forall_sublist.mpr fun {a b} hab => ?_)
  rw [h a (hab.subset (by simp)), h b (hab.subset (by simp))]

theorem arrivals_begin : x.arrivals base scripts =
    scripts.filter (x.wait base · ≤ 0) ++ x.awaited base scripts 0 := by
  refine (filter_append_filter_of_pairwise (pairwise_insertionSort_key (x.wait base) scripts) 0).symm.trans ?_
  rw [filter_insertionSort_key (k := 0) fun node _ hnode => Nat.le_zero.mp (of_decide_eq_true hnode)]
  rfl

/-- The scripts that come next, all at one time, and those that come still later. -/
theorem awaited_eq (ht : t ≤ t') (h : ∀ node ∈ scripts, t < x.wait base node → t' ≤ x.wait base node) :
    x.awaited base scripts t =
      scripts.filter (fun node => t < x.wait base node ∧ x.wait base node ≤ t') ++ x.awaited base scripts t' := by
  have hsorted := (pairwise_insertionSort_key (x.wait base) scripts).filter (t < x.wait base ·)
  have hnext : (x.arrivals base scripts).filter (fun node => t < x.wait base node ∧ x.wait base node ≤ t') =
      scripts.filter fun node => t < x.wait base node ∧ x.wait base node ≤ t' :=
    filter_insertionSort_key (k := t') fun node hmem hnode => by
      obtain ⟨hlt, hle⟩ := of_decide_eq_true hnode
      exact Nat.le_antisymm hle (h node hmem hlt)
  calc x.awaited base scripts t
      = ((x.arrivals base scripts).filter (t < x.wait base ·)).filter (x.wait base · ≤ t') ++
          ((x.arrivals base scripts).filter (t < x.wait base ·)).filter (t' < x.wait base ·) :=
        (filter_append_filter_of_pairwise hsorted t').symm
    _ = (x.arrivals base scripts).filter (fun node => t < x.wait base node ∧ x.wait base node ≤ t') ++
          x.awaited base scripts t' := by
        rw [List.filter_filter, List.filter_filter]
        congr 1
        · exact List.filter_congr fun node _ => by simp [and_comm]
        · exact List.filter_congr fun node _ => by simpa using ht.trans_lt
    _ = _ := by rw [hnext]

/-! ## Later polls -/

/-- The extractor at a later time, with what others have done to it. -/
def resume (x : Extractor) (clock : Nat) (registries : Registries) (log : List Request) : Extractor :=
  { x with registries, log, clock }

/-- What scripts declare together, as far as it can be found. -/
def whole (x : Extractor) (base : String) (scripts : List Node) : Metadata :=
  Metadata.join (scripts.filterMap fun node => (x.content base node).toOption)

theorem whole_cons {m : Metadata} (hm : x.content base node = .ok m) :
    x.whole base (node :: scripts) = m.append (x.whole base scripts) := by
  rw [whole, List.filterMap_cons, hm]
  rfl

theorem whole_parts {P : Node → Metadata → Prop}
    (h : ∀ node ∈ scripts, ∃ m, x.content base node = .ok m ∧ P node m) :
    ∃ parts, x.whole base scripts = Metadata.join parts ∧ List.Forall₂ P scripts parts := by
  refine ⟨_, rfl, ?_⟩
  induction scripts with
  | nil => exact .nil
  | cons node scripts ih =>
      obtain ⟨m, hm, hP⟩ := h node (List.mem_cons_self ..)
      rw [List.filterMap_cons, hm]
      exact .cons hP (ih fun n hn => h n (List.mem_cons_of_mem _ hn))

/-- What it comes to when scripts are entered in turn: the registries then, and what stopped it. -/
def taken (x : Extractor) (base : String) (scripts : List Node) : Registries × Option AnalysisError :=
  x.registries.enrollEach (scripts.map (x.content base))

theorem taken_eq_none (h : (x.taken base scripts).2 = none) (hn : node ∈ scripts) : ∃ m, x.content base node = .ok m :=
  (Registries.enrollEach_eq_none.mp (Prod.ext rfl h)).1 _ (List.mem_map_of_mem hn)

/-- The first script that fails: it cannot be read, or one of its names is not new. -/
theorem taken_eq_some {e : AnalysisError} (h : (x.taken base scripts).2 = some e) :
    ∃ earlier node later, scripts = earlier ++ node :: later ∧ (x.taken base earlier).2 = none ∧
      (x.taken base (earlier ++ [node])).2 = some e ∧
      (x.content base node = .error e ∨ ∃ kind name first address, e = .duplicate kind name first address) := by
  obtain ⟨_, _, _, hl, hnone, hsome, hc⟩ := Registries.enrollEach_eq_some (Prod.ext rfl h)
  obtain ⟨earlier, rest, rfl, rfl, hrest⟩ := List.map_eq_append_iff.mp hl
  obtain ⟨node, later, rfl, rfl, rfl⟩ := List.map_eq_cons_iff.mp hrest
  refine ⟨earlier, node, later, rfl, hnone, ?_, hc⟩
  rw [taken, List.map_append]
  exact hsome

/-- Where no script fails, the order of arrival is of no account. -/
theorem taken_arrivals_alike (h : (x.taken base (x.arrivals base scripts)).2 = none) :
    (x.taken base scripts).2 = none ∧ (x.taken base (x.arrivals base scripts)).1.Alike (x.taken base scripts).1 := by
  obtain ⟨rs, hrs, halike⟩ := Registries.enrollEach_perm (x.arrivals_perm.map (x.content base)) (Prod.ext rfl h)
  rw [taken, hrs]
  exact ⟨rfl, halike⟩

theorem taken_arrivals_eq_none :
    (x.taken base (x.arrivals base scripts)).2 = none ↔ (x.taken base scripts).2 = none := by
  refine ⟨fun h => (taken_arrivals_alike h).1, fun h => ?_⟩
  obtain ⟨rs, hrs, _⟩ := Registries.enrollEach_perm (x.arrivals_perm.map (x.content base)).symm (Prod.ext rfl h)
  rw [taken, hrs]

theorem exists_of_wait_pos (h : 0 < x.wait base node) : ∃ loader a, x.loader? = some loader ∧ node.External base a ∧
    x.wait base node = loader.delay a := by
  unfold wait at h ⊢
  split at h
  next loader a hl ha => exact ⟨loader, a, hl, source?_eq_some.mp ha, rfl⟩
  next => cases h

/-! ## Turns -/

/-- The registries once scripts have been read in turn, whatever could not be entered of them. -/
def afterAll (x : Extractor) (base : String) (read : List Node) : Registries :=
  x.registries.enrollAll (read.map (x.content base))

/-- Why a script fails when it is read behind others, if it does. -/
def fault? (x : Extractor) (base : String) (read : List Node) (node : Node) : Option AnalysisError :=
  ((x.afterAll base read).enrollEach [x.content base node]).2

/-- Whether a script was read in its turn, and why it failed if it did. -/
def Turn (x : Extractor) (base : String) (read : List Node) (node : Node) (e? : Option AnalysisError) : Prop :=
  ∃ before after, read = before ++ node :: after ∧ x.fault? base before node = e?

variable {read more : List Node} {e : AnalysisError} {e? : Option AnalysisError}

theorem afterAll_concat (x : Extractor) (base : String) (read : List Node) (node : Node) :
    x.afterAll base (read ++ [node]) = ((x.afterAll base read).enrollEach [x.content base node]).1 := by
  rw [afterAll, List.map_append, Registries.enrollAll_append]
  rfl

theorem Turn.last (x : Extractor) (base : String) (read : List Node) (node : Node) :
    x.Turn base (read ++ [node]) node (x.fault? base read node) :=
  ⟨read, [], rfl, rfl⟩

theorem Turn.append (h : x.Turn base read node e?) (more : List Node) : x.Turn base (read ++ more) node e? := by
  obtain ⟨before, after, rfl, hf⟩ := h
  exact ⟨before, after ++ more, by simp, hf⟩

/-- Where all scripts before it were entered, a script is taken as it is in its turn. -/
theorem taken_concat (h : (x.taken base read).2 = none) (node : Node) :
    x.taken base (read ++ [node]) = (x.afterAll base (read ++ [node]), x.fault? base read node) := by
  rw [taken, afterAll_concat, List.map_append, List.map_singleton, Registries.enrollEach_concat h]
  rfl

theorem taken_append_some (h : (x.taken base read).2 = some e) (more : List Node) :
    x.taken base (read ++ more) = x.taken base read := by
  obtain ⟨rs, hr⟩ : ∃ rs, x.taken base read = (rs, some e) := ⟨_, Prod.ext rfl h⟩
  rw [taken] at hr ⊢
  rw [List.map_append, Registries.enrollEach_append, taken, hr]

theorem taken_append_none (h : (x.taken base (read ++ more)).2 = none) : (x.taken base read).2 = none := by
  cases hr : (x.taken base read).2 with
  | none => rfl
  | some e =>
      rw [taken_append_some hr, hr] at h
      cases h

/-- No script that was read failed if all of them can be entered. -/
theorem Turn.eq_none (h : x.Turn base read node e?) (hr : (x.taken base read).2 = none) : e? = none := by
  obtain ⟨before, after, rfl, rfl⟩ := h
  rw [List.append_cons] at hr
  have hnode := taken_append_none hr
  rwa [taken_concat (taken_append_none hnode)] at hnode

theorem content_of_fault?_none (h : x.fault? base read node = none) : ∃ m, x.content base node = .ok m :=
  (Registries.enrollEach_eq_none.mp (Prod.ext rfl h)).1 _ (List.mem_singleton_self _)

/-- A script that fails cannot be read, or one of its names is not new. -/
theorem content_of_fault?_some (h : x.fault? base read node = some e) :
    x.content base node = .error e ∨ ∃ kind name first address, e = .duplicate kind name first address := by
  obtain ⟨earlier, c, later, hl, -, -, hc⟩ := Registries.enrollEach_eq_some (Prod.ext rfl h)
  have hmem : c ∈ [x.content base node] := hl ▸ by simp
  rwa [List.mem_singleton.mp hmem] at hc

/-- Enters a script behind others that were read. -/
theorem enroll_resume (x : Extractor) (base : String) (read : List Node) (node : Node) (clock : Nat)
    (log : List Request) : (x.resume clock (x.afterAll base read) log).enroll (x.content base node) =
      ((x.fault? base read node).elim (x.content base node) .error,
        x.resume clock (x.afterAll base (read ++ [node])) log) := by
  rw [afterAll_concat, fault?]
  cases x.content base node with
  | error e => rfl
  | ok m =>
      simp only [enroll, Registries.enrollEach]
      have hregistries : (x.resume clock (x.afterAll base read) log).registries = x.afterAll base read := rfl
      rw [hregistries]
      rcases (x.afterAll base read).registerAll m with ⟨rs, _ | e⟩ <;> rfl

end Extractor

end ImportTree
