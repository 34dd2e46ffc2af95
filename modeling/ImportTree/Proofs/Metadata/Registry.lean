import ImportTree.Metadata.Registry
import Mathlib.Data.List.Nodup

/-!
# Registries as ledgers

How often a name is entered for an address. Declaring names enters each of them once, and a name that is refused has
been entered before.
-/

namespace ImportTree

/-- The declared names of a kind, in order. -/
def Metadata.names (m : Metadata) : Kind → List String
  | .element => m.elements.map (·.name)
  | .scriptModule => m.modules.map (·.name)

@[simp] theorem Metadata.names_append (m m' : Metadata) (kind : Kind) :
    (m.append m').names kind = m.names kind ++ m'.names kind := by
  cases kind <;> simp [names, append]

@[simp] theorem Metadata.names_locate (m : Metadata) (a : String) (script? : Option String) (kind : Kind) :
    (m.locate a script?).names kind = m.names kind := by
  cases kind <;> simp [names, locate]

/-- The names of a kind among declarations. -/
def namesOf (kind : Kind) (l : List (Kind × Declaration)) : List String :=
  (l.filter (·.1 = kind)).map (·.2.name)

theorem Metadata.namesOf_declarations (m : Metadata) (kind : Kind) : namesOf kind m.declarations = m.names kind := by
  cases kind <;> simp [namesOf, declarations, names, List.filter_map, Function.comp_def]

theorem Metadata.locate_placed {m : Metadata} {a : String} {script? : Option String} {p : Kind × Declaration}
    (h : p ∈ (m.locate a script?).declarations) : p.2.address = a ∧ p.2.scriptAddress? = script? := by
  rcases List.mem_append.mp h with h | h
  · obtain ⟨e, he, rfl⟩ := List.mem_map.mp h
    obtain ⟨e', _, rfl⟩ := List.mem_map.mp he
    exact ⟨rfl, rfl⟩
  · obtain ⟨d, hd, rfl⟩ := List.mem_map.mp h
    obtain ⟨d', _, rfl⟩ := List.mem_map.mp hd
    exact ⟨rfl, rfl⟩

namespace Registries

variable {rs rs' : Registries} {kind k : Kind} {name n base a : String}

/-- How often a name is entered for an address. -/
def count (rs : Registries) (kind : Kind) (name address : String) : Nat :=
  (rs.get kind).entries.count (name, address)

/-- Whether no name of a kind is entered twice. -/
def Distinct (rs : Registries) : Prop :=
  ∀ kind, ((rs.get kind).entries.map Prod.fst).Nodup

@[simp] theorem get_set (rs : Registries) (kind k : Kind) (r : Registry) :
    (rs.set kind r).get k = if k = kind then r else rs.get k := by
  cases kind <;> cases k <;> rfl

theorem register_count (h : rs.register kind name a = .ok rs') (k : Kind) (n b : String) :
    rs'.count k n b = rs.count k n b + if k = kind ∧ n = name ∧ b = a then 1 else 0 := by
  unfold register at h
  split at h
  next => cases h
  next =>
    cases h
    rw [count, get_set]
    by_cases hk : k = kind
    · subst hk
      have hbeq : ((name, a) == (n, b)) = decide (n = name ∧ b = a) := by
        rw [Bool.eq_iff_iff, beq_iff_eq, decide_eq_true_iff, Prod.mk.injEq, eq_comm, @eq_comm _ a]
      simp [count, Registry.insert, List.count_cons, hbeq]
    · rw [if_neg hk, if_neg fun h => hk h.1]
      rfl

theorem register_distinct (h : rs.register kind name a = .ok rs') (hd : rs.Distinct) : rs'.Distinct := by
  unfold register at h
  split at h
  next => cases h
  next hnone =>
    cases h
    intro k
    rw [get_set]
    split
    next hk =>
      refine List.nodup_cons.mpr ⟨fun hmem => ?_, hd kind⟩
      obtain ⟨p, hp, rfl⟩ := List.mem_map.mp hmem
      have := List.lookup_eq_none_iff.mp hnone p hp
      simp at this
    next => exact hd k

/-- A name that is refused has been entered before. -/
theorem register_error {e : AnalysisError} (h : rs.register kind name a = .error e) :
    ∃ first, e = .duplicate kind name first a ∧ 1 ≤ rs.count kind name first := by
  unfold register at h
  split at h
  next first hf =>
    cases h
    obtain ⟨l₁, l₂, hl, _⟩ := List.lookup_eq_some_iff.mp hf
    exact ⟨first, rfl, List.one_le_count_iff.mpr (by simp [hl])⟩
  next => cases h

/-- What declaring names for an address does: all of them are entered, or those before the first that is refused. -/
inductive Entered (rs : Registries) (base : String) (names : Kind → List String) :
    Registries × Option AnalysisError → Prop where
  | all {rs' : Registries} : (∀ k n b, rs'.count k n b = rs.count k n b + if b = base then (names k).count n else 0) →
      Entered rs base names (rs', none)
  | upTo {rs' : Registries} {kind : Kind} {name first : String} : 1 ≤ rs'.count kind name first →
      (∀ k n b, b ≠ base → rs'.count k n b = rs.count k n b) →
      (∀ k n, rs'.count k n base + (if k = kind ∧ n = name then 1 else 0) ≤ rs.count k n base + (names k).count n) →
      Entered rs base names (rs', some (.duplicate kind name first base))

theorem namesOf_cons (p : Kind × Declaration) (l : List (Kind × Declaration)) (k : Kind) :
    namesOf k (p :: l) = if p.1 = k then p.2.name :: namesOf k l else namesOf k l := by
  unfold namesOf
  by_cases h : p.1 = k <;> simp [h]

theorem count_namesOf_cons (d : Declaration) (l : List (Kind × Declaration)) :
    (namesOf k ((kind, d) :: l)).count n = (namesOf k l).count n + if k = kind ∧ n = d.name then 1 else 0 := by
  rw [namesOf_cons]
  by_cases hk : k = kind
  · subst hk
    by_cases hn : n = d.name
    · subst hn; simp
    · simp [hn, List.count_cons_of_ne (Ne.symm hn)]
  · simp [hk, Ne.symm hk]

theorem registerEach_entered (rs : Registries) {l : List (Kind × Declaration)} (hl : ∀ p ∈ l, p.2.address = base) :
    Entered rs base (fun k => namesOf k l) (rs.registerEach l) := by
  induction l generalizing rs with
  | nil => exact .all fun k n b => by simp [namesOf]
  | cons p l ih =>
      obtain ⟨kind, d⟩ := p
      have ha : d.address = base := hl _ (List.mem_cons_self ..)
      have hrest (rs : Registries) := ih rs fun q hq => hl q (List.mem_cons_of_mem _ hq)
      unfold registerEach
      cases hr : rs.register kind d.name d.address with
      | error e =>
          obtain ⟨first, rfl, hfirst⟩ := register_error hr
          rw [ha]
          refine .upTo hfirst (fun _ _ _ _ => rfl) fun k n => ?_
          rw [count_namesOf_cons]
          omega
      | ok rs₁ =>
          have hcount := register_count hr
          have hrs := hrest rs₁
          dsimp only
          generalize rs₁.registerEach l = p at hrs
          cases hrs with
          | all h =>
              refine .all fun k n b => ?_
              rw [h, hcount, count_namesOf_cons, ha]
              by_cases hb : b = base
              · simp only [hb, if_pos, and_true]; omega
              · simp [hb]
          | upTo hfirst hother hbase =>
              refine .upTo hfirst (fun k n b hb => ?_) fun k n => ?_
              · rw [hother k n b hb, hcount, ha]
                simp [hb]
              · have h₁ := hbase k n
                have h₂ := hcount k n base
                rw [ha] at h₂
                simp only [and_true] at h₂
                rw [count_namesOf_cons]
                omega

theorem registerEach_distinct (l : List (Kind × Declaration)) (h : rs.Distinct) : (rs.registerEach l).1.Distinct := by
  induction l generalizing rs with
  | nil => exact h
  | cons p l ih =>
      unfold registerEach
      split
      next hr => exact ih (register_distinct hr h)
      next => exact h

theorem registerAll_entered (rs : Registries) (m : Metadata) (base : String) (script? : Option String) :
    Entered rs base m.names (rs.registerAll (m.locate base script?)) := by
  have h : Entered rs base (fun k => namesOf k (m.locate base script?).declarations)
      (rs.registerAll (m.locate base script?)) :=
    registerEach_entered rs fun p hp => (Metadata.locate_placed hp).1
  have hn : (fun k => namesOf k (m.locate base script?).declarations) = m.names := by
    funext k
    rw [Metadata.namesOf_declarations, Metadata.names_locate]
  rwa [hn] at h

end Registries

end ImportTree
