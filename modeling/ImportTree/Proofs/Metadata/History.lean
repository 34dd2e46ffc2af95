import ImportTree.Proofs.Metadata.Entering
import Mathlib.Data.List.Dedup

/-!
# Histories of registries

Names are registered one by one or several together, and some are refused. The first attempt at a name of a kind decides
for ever where the name is declared.
-/

namespace ImportTree.Registries

/-! ## Calls and attempts -/

/-- What can be asked of registries. -/
inductive Call where
  | register (kind : Kind) (name address : String)
  | registerAll (declared : Metadata)

/-- An attempt to register a name. -/
structure Attempt where
  kind : Kind
  name : String
  address : String
deriving DecidableEq

def perform (rs : Registries) : Call → Registries × Option AnalysisError
  | .register kind name address =>
    match rs.register kind name address with
    | .ok rs => (rs, none)
    | .error e => (rs, some e)
  | .registerAll declared => rs.registerAll declared

def performEach (rs : Registries) (calls : List Call) : Registries :=
  calls.foldl (fun rs call => (rs.perform call).1) rs

namespace Attempt

def ofDeclaration (p : Kind × Declaration) : Attempt :=
  ⟨p.1, p.2.name, p.2.address⟩

def call (p : Attempt) : Call :=
  .register p.kind p.name p.address

/-- The address for which a name of a kind was tried first. -/
def first? (tried : List Attempt) (kind : Kind) (name : String) : Option String :=
  (tried.find? fun p => p.kind = kind ∧ p.name = name).map (·.address)

/-- Of the attempts that are planned those that are made: the first at a name that was tried before is the last. -/
def made (tried : List Attempt) : List Attempt → List Attempt
  | [] => []
  | p :: planned =>
    if (first? tried p.kind p.name).isSome then [p] else p :: made (tried ++ [p]) planned

end Attempt

open Attempt (first? made)

/-- The attempts that a call is made of. -/
def Call.planned : Call → List Attempt
  | .register kind name address => [⟨kind, name, address⟩]
  | .registerAll declared => declared.declarations.map .ofDeclaration

/-- The attempts that are made by calls, one call after another. -/
def attempts (calls : List Call) : List Attempt :=
  calls.foldl (fun tried call => tried ++ made tried call.planned) []

variable {rs : Registries} {tried planned : List Attempt} {kind : Kind} {name address : String} {p : Attempt}

theorem first?_append (l₁ l₂ : List Attempt) (kind : Kind) (name : String) :
    first? (l₁ ++ l₂) kind name = (first? l₁ kind name).or (first? l₂ kind name) := by
  simp only [first?, List.find?_append]
  cases l₁.find? fun p => p.kind = kind ∧ p.name = name <;> rfl

theorem first?_cons (p : Attempt) (l : List Attempt) (kind : Kind) (name : String) :
    first? (p :: l) kind name = if p.kind = kind ∧ p.name = name then some p.address else first? l kind name := by
  by_cases h : p.kind = kind ∧ p.name = name <;> simp [first?, h]

/-! ## One attempt -/

/-- Enters a name unless it is there. -/
def offer (rs : Registries) (p : Attempt) : Registries :=
  match (rs.get p.kind).declaredIn? p.name with
  | some _ => rs
  | none => rs.set p.kind ((rs.get p.kind).insert p.name p.address)

theorem get_offer (rs : Registries) (p : Attempt) (kind : Kind) : (rs.offer p).get kind =
    if p.kind = kind ∧ (rs.get kind).declaredIn? p.name = none then (rs.get kind).insert p.name p.address
    else rs.get kind := by
  by_cases hk : p.kind = kind
  · subst hk
    unfold offer
    cases (rs.get p.kind).declaredIn? p.name <;> simp
  · rw [if_neg fun h => hk h.1]
    unfold offer
    split
    next => rfl
    next => rw [get_set, if_neg (Ne.symm hk)]

theorem declaredIn?_offer (rs : Registries) (p : Attempt) (kind : Kind) (name : String) :
    ((rs.offer p).get kind).declaredIn? name =
      ((rs.get kind).declaredIn? name).or (if p.kind = kind ∧ p.name = name then some p.address else none) := by
  rw [get_offer]
  by_cases hk : p.kind = kind
  · by_cases hn : p.name = name
    · subst hn
      cases hd : (rs.get kind).declaredIn? p.name with
      | some first => simp [hd]
      | none => simp [hk, Registry.declaredIn?, Registry.insert]
    · have hbeq : (name == p.name) = false := by simpa using Ne.symm hn
      split <;> simp [hn, hbeq, Registry.declaredIn?, Registry.insert, List.lookup_cons]
  · simp [hk]

theorem offer_distinct (h : rs.Distinct) (p : Attempt) : (rs.offer p).Distinct := by
  intro kind
  rw [get_offer]
  split
  next hnew =>
    refine List.nodup_cons.mpr ⟨fun hmem => ?_, h kind⟩
    obtain ⟨entry, hentry, hname⟩ := List.mem_map.mp hmem
    have hne := List.lookup_eq_none_iff.mp hnew.2 entry hentry
    simp [hname] at hne
  next => exact h kind

/-! ## Attempts in turn -/

theorem declaredIn?_offers (tried : List Attempt) (rs : Registries) (kind : Kind) (name : String) :
    ((tried.foldl offer rs).get kind).declaredIn? name =
      ((rs.get kind).declaredIn? name).or (first? tried kind name) := by
  induction tried generalizing rs with
  | nil => simp [first?]
  | cons p tried ih =>
      rw [List.foldl_cons, ih, declaredIn?_offer, first?_cons, Option.or_assoc]
      split <;> rfl

theorem offers_distinct (tried : List Attempt) (h : rs.Distinct) : (tried.foldl offer rs).Distinct := by
  induction tried generalizing rs with
  | nil => exact h
  | cons p tried ih => exact ih (offer_distinct h p)

/-- Attempts at names of one kind leave the registry of the other as it is. -/
theorem get_offers_filter (tried : List Attempt) (rs rs' : Registries) (h : rs.get kind = rs'.get kind) :
    ((tried.filter (·.kind = kind)).foldl offer rs).get kind = (tried.foldl offer rs').get kind := by
  induction tried generalizing rs rs' with
  | nil => exact h
  | cons p tried ih =>
      by_cases hk : p.kind = kind
      · rw [List.filter_cons_of_pos (by simpa using hk)]
        exact ih _ _ (by rw [get_offer, get_offer, h])
      · rw [List.filter_cons_of_neg (by simpa using hk)]
        exact ih _ _ (by rw [get_offer, if_neg fun hp => hk hp.1, h])

theorem mem_keys_iff (r : Registry) (name : String) : name ∈ r.entries.map Prod.fst ↔ r.declaredIn? name ≠ none := by
  rw [Registry.declaredIn?, Ne, List.lookup_eq_none_iff, List.mem_map]
  constructor
  · rintro ⟨entry, hentry, rfl⟩ hnone
    simpa using hnone entry hentry
  · intro h
    obtain ⟨entry, hentry, hname⟩ := by simpa only [not_forall] using h
    refine ⟨entry, hentry, (eq_of_beq ?_).symm⟩
    simpa using hname

theorem first?_ne_none : first? tried kind name ≠ none ↔ name ∈ (tried.filter (·.kind = kind)).map (·.name) := by
  simp [first?, and_assoc]

/-- Registries that were empty hold each name once that has been tried. -/
theorem size_offers (tried : List Attempt) (kind : Kind) : ((tried.foldl offer {}).get kind).size =
    ((tried.filter (·.kind = kind)).map (·.name)).dedup.length := by
  have hempty : ({} : Registries).Distinct := by
    intro kind
    cases kind <;> exact List.nodup_nil
  have hkeys : (((tried.foldl offer {}).get kind).entries.map Prod.fst).Perm
      ((tried.filter (·.kind = kind)).map (·.name)).dedup := by
    refine (List.perm_ext_iff_of_nodup (offers_distinct tried hempty kind) (List.nodup_dedup _)).mpr fun name => ?_
    rw [mem_keys_iff, declaredIn?_offers, List.mem_dedup, ← first?_ne_none]
    cases kind <;> simp [get, Registry.declaredIn?]
  rw [Registry.size, ← hkeys.length_eq, List.length_map]

/-! ## Calls -/

/-- Registries that know of every name where it was tried first. -/
def Remembers (rs : Registries) (tried : List Attempt) : Prop :=
  rs = tried.foldl offer {}

theorem Remembers.declaredIn? (h : rs.Remembers tried) (kind : Kind) (name : String) :
    (rs.get kind).declaredIn? name = first? tried kind name := by
  rw [h, declaredIn?_offers]
  cases kind <;> rfl

theorem Remembers.offer (h : rs.Remembers tried) (p : Attempt) : (rs.offer p).Remembers (tried ++ [p]) := by
  rw [Remembers, List.foldl_append, ← h]
  rfl

/-- What becomes of attempts that are planned: all are made, or the last of those that are made is refused. -/
inductive Tried (tried planned : List Attempt) : Registries × Option AnalysisError → Prop where
  | all {rs : Registries} : made tried planned = planned → rs.Remembers (tried ++ planned) →
      Tried tried planned (rs, none)
  | refused {rs : Registries} {before : List Attempt} {p : Attempt} {first : String} :
      made tried planned = before ++ [p] → rs.Remembers (tried ++ (before ++ [p])) →
      first? (tried ++ before) p.kind p.name = some first →
      Tried tried planned (rs, some (.duplicate p.kind p.name first p.address))

theorem Tried.remembers {r : Registries × Option AnalysisError} (h : Tried tried planned r) :
    r.1.Remembers (tried ++ made tried planned) := by
  cases h with
  | all hmade hr => rwa [hmade]
  | refused hmade hr _ => rwa [hmade]

theorem Tried.refuse {first : String} (h : rs.Remembers tried) (hp : first? tried p.kind p.name = some first)
    (planned : List Attempt) : Tried tried (p :: planned) (rs, some (.duplicate p.kind p.name first p.address)) := by
  have hmade : made tried (p :: planned) = [] ++ [p] := by simp [made, hp]
  have hstays : rs.offer p = rs := by simp only [Registries.offer, h.declaredIn?, hp]
  have hr := h.offer p
  rw [hstays] at hr
  exact .refused hmade hr (by simpa using hp)

theorem Tried.cons {r : Registries × Option AnalysisError} (hp : first? tried p.kind p.name = none)
    (h : Tried (tried ++ [p]) planned r) : Tried tried (p :: planned) r := by
  have hmade : made tried (p :: planned) = p :: made (tried ++ [p]) planned := by simp [made, hp]
  cases h with
  | all hrest hr => exact .all (by rw [hmade, hrest]) (by simpa using hr)
  | @refused _ before q _ hrest hr hfirst =>
      have hcons : made tried (p :: planned) = (p :: before) ++ [q] := by rw [hmade, hrest, List.cons_append]
      exact .refused hcons (by simpa using hr) (by simpa using hfirst)

theorem registerEach_tried (h : rs.Remembers tried) (l : List (Kind × Declaration)) :
    Tried tried (l.map .ofDeclaration) (rs.registerEach l) := by
  induction l generalizing rs tried with
  | nil => exact .all rfl (by simpa using h)
  | cons q l ih =>
      obtain ⟨kind, d⟩ := q
      have hp := h.declaredIn? kind d.name
      have hrest := ih (h.offer (.ofDeclaration (kind, d)))
      rw [List.map_cons, registerEach, register]
      cases hd : (rs.get kind).declaredIn? d.name with
      | some first => exact Tried.refuse h (p := .ofDeclaration (kind, d)) (hp.symm.trans hd) _
      | none =>
          have hoffer : rs.offer (.ofDeclaration (kind, d)) = rs.set kind ((rs.get kind).insert d.name d.address) := by
            simp only [offer, Attempt.ofDeclaration, hd]
          rw [hoffer] at hrest
          exact Tried.cons (hp.symm.trans hd) hrest

theorem perform_tried (h : rs.Remembers tried) (call : Call) : Tried tried call.planned (rs.perform call) := by
  cases call with
  | registerAll declared => exact registerEach_tried h declared.declarations
  | register kind name address =>
      -- A single name is registered like one of a script that declares no other.
      have heach := registerEach_tried h [(kind, { name, address, line := 1 })]
      simp only [registerEach] at heach
      rw [perform]
      cases hr : rs.register kind name address with
      | ok rs' => rw [hr] at heach; exact heach
      | error e => rw [hr] at heach; exact heach

theorem performEach_remembers (h : rs.Remembers tried) (calls : List Call) : (rs.performEach calls).Remembers
    (calls.foldl (fun tried call => tried ++ made tried call.planned) tried) := by
  induction calls generalizing rs tried with
  | nil => exact h
  | cons call calls ih => exact ih (perform_tried h call).remembers

theorem remembers_attempts (calls : List Call) : (({} : Registries).performEach calls).Remembers (attempts calls) := by
  have hnil : ({} : Registries).Remembers [] := rfl
  exact performEach_remembers hnil calls

theorem exists_later (calls : List Call) (tried : List Attempt) : ∃ more,
    calls.foldl (fun tried call => tried ++ made tried call.planned) tried = tried ++ more := by
  induction calls generalizing tried with
  | nil => exact ⟨[], by simp⟩
  | cons call calls ih =>
      obtain ⟨more, hmore⟩ := ih (tried ++ made tried call.planned)
      exact ⟨made tried call.planned ++ more, by rw [List.foldl_cons, hmore, List.append_assoc]⟩

/-- A name that has been tried stays where it was tried first. -/
theorem Remembers.declaredIn?_later (h : rs.Remembers tried) (hn : first? tried kind name = some address)
    (more : List Call) : ((rs.performEach more).get kind).declaredIn? name = some address := by
  obtain ⟨later, hlater⟩ := exists_later more tried
  rw [(performEach_remembers h more).declaredIn?, hlater, first?_append, hn]
  rfl

theorem performEach_call (l : List Attempt) (rs : Registries) :
    rs.performEach (l.map Attempt.call) = l.foldl offer rs := by
  induction l generalizing rs with
  | nil => rfl
  | cons p l ih =>
      have hp : (rs.perform p.call).1 = rs.offer p := by
        cases hd : (rs.get p.kind).declaredIn? p.name <;> simp [Attempt.call, perform, register, offer, hd]
      rw [List.map_cons, List.foldl_cons, ← hp]
      exact ih _

/-! ## Whole histories -/

/-- What registries hold after calls, and what they answer next. -/
structure FirstWins (calls : List Call) (rs : Registries) : Prop where
  declared : ∀ kind name, (rs.get kind).declaredIn? name = first? (attempts calls) kind name
  kept : ∀ {kind name address}, (rs.get kind).declaredIn? name = some address →
    ∀ more, ((rs.performEach more).get kind).declaredIn? name = some address
  /-- Each registry is what the attempts at names of its own kind alone would have made of it. -/
  apart : ∀ kind, rs.get kind =
    (({} : Registries).performEach (((attempts calls).filter (·.kind = kind)).map Attempt.call)).get kind
  size : ∀ kind, (rs.get kind).size = (((attempts calls).filter (·.kind = kind)).map (·.name)).dedup.length
  /-- An error blames the last attempt that was made, and names the address that is known then and stays known. -/
  refused : ∀ {call e}, (rs.perform call).2 = some e → ∃ before p first,
    made (attempts calls) call.planned = before ++ [p] ∧ e = .duplicate p.kind p.name first p.address ∧
      first? (attempts calls ++ before) p.kind p.name = some first ∧
      ∀ more, (((rs.perform call).1.performEach more).get p.kind).declaredIn? p.name = some first
  accepted : ∀ kind name address,
    (rs.perform (.register kind name address)).2 = none ↔ (rs.get kind).declaredIn? name = none
  acceptedAll : ∀ m : Metadata, (rs.perform (.registerAll m)).2 = none ↔
    ∀ kind, (m.names kind).Nodup ∧ ∀ name ∈ m.names kind, (rs.get kind).declaredIn? name = none

theorem registerAll_eq_none (rs : Registries) (m : Metadata) : (rs.registerAll m).2 = none ↔
    ∀ kind, (m.names kind).Nodup ∧ ∀ name ∈ m.names kind, (rs.get kind).declaredIn? name = none := by
  have hadmits : rs.Admits m.declarations ↔
      ∀ kind, (m.names kind).Nodup ∧ ∀ name ∈ m.names kind, (rs.get kind).declaredIn? name = none := by
    simp only [Admits, Metadata.namesOf_declarations]
  rw [← hadmits, registerAll]
  rcases rs.admits_or_refuses m.declarations with ha | ⟨l₁, kind, d, l₂, first, hl, hr⟩
  · simp [ha.registerEach, ha]
  · rw [hl, hr.registerEach l₂]
    simp [hr.not_admits l₂]

theorem register_eq_none (rs : Registries) (kind : Kind) (name address : String) :
    (rs.perform (.register kind name address)).2 = none ↔ (rs.get kind).declaredIn? name = none := by
  cases hd : (rs.get kind).declaredIn? name <;> simp [perform, register, hd]

/-- Whatever was registered before, alone or together: where a name is declared is decided by the first attempt that was
made, and stays so; each kind has its own names; and a conflict names the address that came first. -/
theorem firstWins_performEach (calls : List Call) : FirstWins calls (({} : Registries).performEach calls) := by
  have h := remembers_attempts calls
  exact {
    declared := h.declaredIn?
    kept := by
      intro kind name address hn more
      exact h.declaredIn?_later ((h.declaredIn? kind name).symm.trans hn) more
    apart := by
      intro kind
      rw [performEach_call, get_offers_filter _ _ {} rfl, ← h]
    size := by
      intro kind
      rw [h, size_offers]
    refused := by
      intro call e he
      generalize hcall : (({} : Registries).performEach calls).perform call = r at he ⊢
      cases hcall ▸ perform_tried h call with
      | all _ _ => cases he
      | @refused _ before p first hmade hr hfirst =>
          cases he
          refine ⟨before, p, first, hmade, rfl, hfirst, fun more => hr.declaredIn?_later ?_ more⟩
          rw [← List.append_assoc, first?_append, hfirst]
          rfl
    accepted := register_eq_none _
    acceptedAll := registerAll_eq_none _ }

end ImportTree.Registries
