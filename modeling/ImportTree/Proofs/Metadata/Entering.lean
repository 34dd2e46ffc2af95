import ImportTree.Proofs.Metadata.Registry
import Mathlib.Data.List.Induction

/-!
# Entering declarations

Declarations are entered in order, as long as each has a name that is new to its kind. The first one that has not is
refused, and whatever was entered before it stays.
-/

namespace ImportTree

theorem namesOf_append (kind : Kind) (l₁ l₂ : List (Kind × Declaration)) :
    namesOf kind (l₁ ++ l₂) = namesOf kind l₁ ++ namesOf kind l₂ := by
  simp [namesOf]

namespace Metadata

/-- What several scripts declare together. -/
def join (parts : List Metadata) : Metadata where
  elements := parts.flatMap (·.elements)
  modules := parts.flatMap (·.modules)

/-- The declarations of several scripts in the order in which they are entered. -/
def sequence (parts : List Metadata) : List (Kind × Declaration) :=
  parts.flatMap declarations

theorem namesOf_sequence (parts : List Metadata) (kind : Kind) :
    namesOf kind (sequence parts) = (join parts).names kind := by
  induction parts with
  | nil => cases kind <;> rfl
  | cons m parts ih =>
      have hjoin : join (m :: parts) = m.append (join parts) := rfl
      rw [hjoin, names_append, ← ih, ← namesOf_declarations, ← namesOf_append]
      rfl

end Metadata

namespace Registries

variable {rs : Registries} {kind k : Kind} {name address : String} {d : Declaration}
  {l l₁ l₂ : List (Kind × Declaration)}

/-! ## All at once -/

/-- The registries with declarations entered, whether or not they are new. -/
def enter (rs : Registries) (l : List (Kind × Declaration)) : Registries :=
  l.foldl (fun rs p => rs.set p.1 ((rs.get p.1).insert p.2.name p.2.address)) rs

/-- The names of a kind with the addresses that declare them. -/
def entriesOf (kind : Kind) (l : List (Kind × Declaration)) : List (String × String) :=
  (l.filter (·.1 = kind)).map fun p => (p.2.name, p.2.address)

theorem enter_append (rs : Registries) (l₁ l₂ : List (Kind × Declaration)) :
    rs.enter (l₁ ++ l₂) = (rs.enter l₁).enter l₂ :=
  List.foldl_append ..

/-- The registries grow by exactly what is entered, the latest first. -/
theorem entries_enter (rs : Registries) (l : List (Kind × Declaration)) (kind : Kind) :
    ((rs.enter l).get kind).entries = (entriesOf kind l).reverse ++ (rs.get kind).entries := by
  induction l generalizing rs with
  | nil => rfl
  | cons p l ih =>
      obtain ⟨k, d⟩ := p
      change (((rs.set k ((rs.get k).insert d.name d.address)).enter l).get kind).entries = _
      rw [ih, get_set]
      by_cases hk : kind = k
      · subst hk
        simp [entriesOf, Registry.insert]
      · simp [entriesOf, hk, Ne.symm hk]

theorem map_fst_entriesOf (kind : Kind) (l : List (Kind × Declaration)) :
    (entriesOf kind l).map Prod.fst = namesOf kind l := by
  simp [entriesOf, namesOf]

/-- Whether declarations have names that are new to their kinds, and are declared once among them. -/
def Admits (rs : Registries) (l : List (Kind × Declaration)) : Prop :=
  ∀ kind, (namesOf kind l).Nodup ∧ ∀ name ∈ namesOf kind l, (rs.get kind).declaredIn? name = none

theorem declaredIn?_enter_of_notMem (h : name ∉ namesOf kind l) :
    ((rs.enter l).get kind).declaredIn? name = (rs.get kind).declaredIn? name := by
  rw [← map_fst_entriesOf, List.mem_map] at h
  have hnone : (entriesOf kind l).reverse.lookup name = none :=
    List.lookup_eq_none_iff.mpr fun p hp => by
      simpa using fun he => h ⟨p, List.mem_reverse.mp hp, he.symm⟩
  simp [Registry.declaredIn?, entries_enter, List.lookup_append, hnone]

theorem declaredIn?_enter_isSome (h : name ∈ namesOf kind l) :
    ((rs.enter l).get kind).declaredIn? name ≠ none := by
  rw [← map_fst_entriesOf] at h
  obtain ⟨p, hp, rfl⟩ := List.mem_map.mp h
  intro hnone
  rw [Registry.declaredIn?, entries_enter, List.lookup_append, Option.or_eq_none_iff] at hnone
  have := List.lookup_eq_none_iff.mp hnone.1 p (List.mem_reverse.mpr hp)
  simp at this

theorem declaredIn?_enter_eq_none :
    ((rs.enter l).get kind).declaredIn? name = none ↔
      name ∉ namesOf kind l ∧ (rs.get kind).declaredIn? name = none := by
  by_cases h : name ∈ namesOf kind l
  · simp [h, declaredIn?_enter_isSome h]
  · simp [h, declaredIn?_enter_of_notMem h]

/-- What was declared before stays as it is. -/
theorem Admits.declaredIn? (h : rs.Admits l) (hn : (rs.get kind).declaredIn? name = some address) :
    ((rs.enter l).get kind).declaredIn? name = some address := by
  rw [declaredIn?_enter_of_notMem fun hmem => ?_, hn]
  cases hn.symm.trans ((h kind).2 name hmem)

theorem admits_nil (rs : Registries) : rs.Admits [] :=
  fun _ => ⟨List.nodup_nil, nofun⟩

theorem admits_append : rs.Admits (l₁ ++ l₂) ↔ rs.Admits l₁ ∧ (rs.enter l₁).Admits l₂ := by
  simp only [Admits, namesOf_append, List.nodup_append, List.mem_append, declaredIn?_enter_eq_none]
  constructor
  · intro h
    refine ⟨fun k => ⟨(h k).1.1, fun n hn => (h k).2 n (.inl hn)⟩, fun k => ⟨(h k).1.2.1, fun n hn => ⟨?_, ?_⟩⟩⟩
    · exact fun hn' => (h k).1.2.2 n hn' n hn rfl
    · exact (h k).2 n (.inr hn)
  · rintro ⟨h₁, h₂⟩ k
    refine ⟨⟨(h₁ k).1, (h₂ k).1, ?_⟩, fun n hn => ?_⟩
    · rintro n hn _ hn' rfl
      exact ((h₂ k).2 n hn').1 hn
    · rcases hn with hn | hn
      · exact (h₁ k).2 n hn
      · exact ((h₂ k).2 n hn).2

theorem admits_singleton : rs.Admits [(kind, d)] ↔ (rs.get kind).declaredIn? d.name = none := by
  constructor
  · exact fun h => (h kind).2 d.name (by simp [namesOf])
  · intro h k
    by_cases hk : kind = k
    · subst hk
      simp [namesOf, h]
    · simp [namesOf, hk]

/-! ## In another order -/

/-- Whether registries hold the same, in whatever order it was entered. -/
def Alike (rs rs' : Registries) : Prop :=
  ∀ kind, (rs.get kind).entries.Perm (rs'.get kind).entries ∧
    ∀ name, (rs.get kind).declaredIn? name = (rs'.get kind).declaredIn? name

theorem namesOf_perm (h : l₁.Perm l₂) (kind : Kind) : (namesOf kind l₁).Perm (namesOf kind l₂) :=
  (h.filter _).map _

theorem admits_perm (h : l₁.Perm l₂) : rs.Admits l₁ ↔ rs.Admits l₂ := by
  simp only [Admits, (namesOf_perm h _).nodup_iff, (namesOf_perm h _).mem_iff]

/-- Where no key is repeated, the order of the entries is of no account. -/
theorem lookup_perm {l₁ l₂ : List (String × String)} (h : l₁.Perm l₂) (hn : (l₁.map Prod.fst).Nodup) :
    l₁.lookup name = l₂.lookup name := by
  induction h with
  | nil => rfl
  | cons p _ ih =>
      obtain ⟨n, a⟩ := p
      rw [List.lookup_cons, List.lookup_cons, ih (List.nodup_cons.mp hn).2]
  | swap p q l =>
      obtain ⟨⟨n, a⟩, n', a'⟩ := p, q
      have hne : n' ≠ n := fun he => (List.nodup_cons.mp hn).1 (by simp [he])
      simp only [List.lookup_cons]
      by_cases hname : name = n
      · simp [hname, beq_eq_false_iff_ne.mpr hne.symm]
      · simp [beq_eq_false_iff_ne.mpr hname]
  | trans h₁ _ ih₁ ih₂ => exact (ih₁ hn).trans (ih₂ ((h₁.map Prod.fst).nodup_iff.mp hn))

/-- Declarations with new names may be entered in any order. -/
theorem Admits.alike (h : rs.Admits l₁) (hp : l₁.Perm l₂) : (rs.enter l₁).Alike (rs.enter l₂) := by
  intro kind
  have hentries : (entriesOf kind l₁).reverse.Perm (entriesOf kind l₂).reverse :=
    (List.reverse_perm _).trans (((hp.filter _).map _).trans (List.reverse_perm _).symm)
  have hnodup : ((entriesOf kind l₁).reverse.map Prod.fst).Nodup := by
    rw [List.map_reverse, List.nodup_reverse, map_fst_entriesOf]
    exact (h kind).1
  refine ⟨by rw [entries_enter, entries_enter]; exact hentries.append_right _, fun name => ?_⟩
  simp only [Registry.declaredIn?, entries_enter, List.lookup_append, lookup_perm hentries hnodup]

/-! ## One after another -/

theorem register_eq_ok (h : (rs.get kind).declaredIn? name = none) :
    rs.register kind name address = .ok (rs.set kind ((rs.get kind).insert name address)) := by
  simp only [register, h]

theorem registerEach_append (h : rs.registerEach l₁ = (rs.enter l₁, none)) :
    rs.registerEach (l₁ ++ l₂) = (rs.enter l₁).registerEach l₂ := by
  induction l₁ generalizing rs with
  | nil => rfl
  | cons p l₁ ih =>
      obtain ⟨kind, d⟩ := p
      cases hd : (rs.get kind).declaredIn? d.name with
      | some first => simp [registerEach, register, hd] at h
      | none =>
          rw [registerEach, register_eq_ok hd] at h
          rw [List.cons_append, registerEach, register_eq_ok hd]
          exact ih h

/-- Declarations with new names are all entered. -/
theorem Admits.registerEach (h : rs.Admits l) : rs.registerEach l = (rs.enter l, none) := by
  induction l generalizing rs with
  | nil => rfl
  | cons p l ih =>
      obtain ⟨kind, d⟩ := p
      obtain ⟨hd, hl⟩ := (@admits_append rs [(kind, d)] l).mp h
      rw [Registries.registerEach, register_eq_ok (admits_singleton.mp hd)]
      exact ih hl

/-- A declaration whose name is not new, behind others that are. -/
structure Refuses (rs : Registries) (l₁ : List (Kind × Declaration)) (kind : Kind) (d : Declaration) (first : String) :
    Prop where
  admitted : rs.Admits l₁
  declared : ((rs.enter l₁).get kind).declaredIn? d.name = some first

/-- The first declaration whose name is not new is refused, and none behind it is entered. -/
theorem Refuses.registerEach {first : String} (h : rs.Refuses l₁ kind d first) (l₂ : List (Kind × Declaration)) :
    rs.registerEach (l₁ ++ (kind, d) :: l₂) = (rs.enter l₁, some (.duplicate kind d.name first d.address)) := by
  rw [registerEach_append h.admitted.registerEach, Registries.registerEach, register, h.declared]

/-- Nothing that is refused would have been admitted. -/
theorem Refuses.not_admits {first : String} (h : rs.Refuses l₁ kind d first) (l₂ : List (Kind × Declaration)) :
    ¬rs.Admits (l₁ ++ (kind, d) :: l₂) := by
  intro ha
  have hnew := (admits_append.mp ha).2 kind
  have hnone := hnew.2 d.name (by simp [namesOf])
  cases h.declared.symm.trans hnone

theorem admits_or_refuses (rs : Registries) (l : List (Kind × Declaration)) :
    rs.Admits l ∨ ∃ l₁ kind d l₂ first, l = l₁ ++ (kind, d) :: l₂ ∧ rs.Refuses l₁ kind d first := by
  induction l using List.reverseRecOn with
  | nil => exact .inl rs.admits_nil
  | append_singleton l p ih =>
      obtain ⟨kind, d⟩ := p
      rcases ih with h | ⟨l₁, k, e, l₂, first, rfl, h⟩
      · cases hd : ((rs.enter l).get kind).declaredIn? d.name with
        | none => exact .inl (admits_append.mpr ⟨h, admits_singleton.mpr hd⟩)
        | some first => exact .inr ⟨l, kind, d, [], first, rfl, h, hd⟩
      · exact .inr ⟨l₁, k, e, l₂ ++ [(kind, d)], first, by simp, h⟩

/-! ## Several scripts -/

/-- Enters what scripts declare, one after another, up to the first for which that cannot be done. -/
def enrollEach (rs : Registries) : List (Except AnalysisError Metadata) → Registries × Option AnalysisError
  | [] => (rs, none)
  | .error e :: _ => (rs, some e)
  | .ok m :: rest =>
    match rs.registerAll m with
    | (rs, none) => rs.enrollEach rest
    | (rs, some e) => (rs, some e)

theorem enrollEach_append (rs : Registries) (l₁ l₂ : List (Except AnalysisError Metadata)) :
    rs.enrollEach (l₁ ++ l₂) =
      match rs.enrollEach l₁ with
      | (rs', none) => rs'.enrollEach l₂
      | (rs', some e) => (rs', some e) := by
  induction l₁ generalizing rs with
  | nil => rfl
  | cons r l₁ ih =>
      rcases r with e | m
      · rfl
      · simp only [List.cons_append, enrollEach]
        split
        next => exact ih _
        next => rfl

/-- Enters what scripts declare, one after another, as far as that can be done for each. -/
def enrollAll (rs : Registries) (cs : List (Except AnalysisError Metadata)) : Registries :=
  cs.foldl (fun rs c => (rs.enrollEach [c]).1) rs

theorem enrollAll_append (rs : Registries) (cs₁ cs₂ : List (Except AnalysisError Metadata)) :
    rs.enrollAll (cs₁ ++ cs₂) = (rs.enrollAll cs₁).enrollAll cs₂ :=
  List.foldl_append ..

theorem enrollAll_eq {cs : List (Except AnalysisError Metadata)} (h : (rs.enrollEach cs).2 = none) :
    rs.enrollAll cs = (rs.enrollEach cs).1 := by
  induction cs generalizing rs with
  | nil => rfl
  | cons c cs ih =>
      have hcons := rs.enrollEach_append [c] cs
      rw [List.singleton_append] at hcons
      rw [hcons] at h ⊢
      change (rs.enrollEach [c]).1.enrollAll cs = _
      rcases hc : rs.enrollEach [c] with ⟨rs', _ | e⟩ <;> rw [hc] at h
      · exact ih h
      · cases h

/-- A script behind others that were all entered. -/
theorem enrollEach_concat {cs : List (Except AnalysisError Metadata)} (h : (rs.enrollEach cs).2 = none)
    (c : Except AnalysisError Metadata) : rs.enrollEach (cs ++ [c]) = (rs.enrollAll cs).enrollEach [c] := by
  obtain ⟨rs', hcs⟩ : ∃ rs', rs.enrollEach cs = (rs', none) := ⟨_, Prod.ext rfl h⟩
  rw [enrollEach_append, enrollAll_eq h, hcs]

/-- All scripts are entered exactly if each can be read and all their names are new. -/
theorem enrollEach_eq_none {cs : List (Except AnalysisError Metadata)} {rs' : Registries} :
    rs.enrollEach cs = (rs', none) ↔ (∀ c ∈ cs, ∃ m, c = .ok m) ∧
      rs.Admits (Metadata.sequence (cs.filterMap Except.toOption)) ∧
      rs' = rs.enter (Metadata.sequence (cs.filterMap Except.toOption)) := by
  induction cs generalizing rs with
  | nil => simp [enrollEach, Metadata.sequence, enter, admits_nil, eq_comm]
  | cons c cs ih =>
      rcases c with e | m
      · simp [enrollEach]
      · have hseq : Metadata.sequence ((Except.ok m :: cs).filterMap Except.toOption) =
            m.declarations ++ Metadata.sequence (cs.filterMap Except.toOption) := rfl
        rw [hseq, admits_append, enter_append, enrollEach, registerAll]
        rcases rs.admits_or_refuses m.declarations with ha | ⟨l₁, kind, d, l₂, first, hl, hr⟩
        · simp [ha.registerEach, ih, ha]
        · rw [hl, hr.registerEach l₂]
          simp [hr.not_admits l₂]

/-- Where all scripts are entered, they may be entered in any order. -/
theorem enrollEach_perm {cs₁ cs₂ : List (Except AnalysisError Metadata)} {rs₁ : Registries} (hp : cs₁.Perm cs₂)
    (h : rs.enrollEach cs₁ = (rs₁, none)) : ∃ rs₂, rs.enrollEach cs₂ = (rs₂, none) ∧ rs₁.Alike rs₂ := by
  obtain ⟨hok, ha, rfl⟩ := enrollEach_eq_none.mp h
  have hseq : (Metadata.sequence (cs₁.filterMap Except.toOption)).Perm
      (Metadata.sequence (cs₂.filterMap Except.toOption)) := (hp.filterMap _).flatMap_right _
  exact ⟨_, enrollEach_eq_none.mpr ⟨fun c hc => hok c (hp.mem_iff.mpr hc), (admits_perm hseq).mp ha, rfl⟩,
    ha.alike hseq⟩

/-- The first script for which that cannot be done: it cannot be read, or one of its names is not new. -/
theorem enrollEach_eq_some {cs : List (Except AnalysisError Metadata)} {rs' : Registries} {e : AnalysisError}
    (h : rs.enrollEach cs = (rs', some e)) : ∃ earlier c later, cs = earlier ++ c :: later ∧
      (rs.enrollEach earlier).2 = none ∧ (rs.enrollEach (earlier ++ [c])).2 = some e ∧
      (c = .error e ∨ ∃ kind name first address, e = .duplicate kind name first address) := by
  induction cs generalizing rs with
  | nil => cases h
  | cons c cs ih =>
      rcases c with e' | m
      · cases h
        exact ⟨[], _, cs, rfl, rfl, rfl, .inl rfl⟩
      · rw [enrollEach, registerAll] at h
        rcases rs.admits_or_refuses m.declarations with ha | ⟨l₁, kind, d, l₂, first, hl, hr⟩
        · rw [ha.registerEach] at h
          obtain ⟨earlier, c, later, rfl, hnone, hsome, hc⟩ := ih h
          refine ⟨.ok m :: earlier, c, later, rfl, ?_, ?_, hc⟩ <;>
            simpa only [List.cons_append, enrollEach, registerAll, ha.registerEach]
        · have hm : rs.registerEach m.declarations = _ := hl ▸ hr.registerEach l₂
          rw [hm] at h
          cases h
          exact ⟨[], .ok m, cs, rfl, rfl, by simp [enrollEach, registerAll, hm], .inr ⟨_, _, _, _, rfl⟩⟩

end Registries

end ImportTree
